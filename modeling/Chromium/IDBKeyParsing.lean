import Chromium.IDBKeyReading

/-!
# Safety of the IndexedDB key parsers

`CompareEncodedIDBKeys` with every byte access written out. It compares two keys
side by side and does not look for the end of either slice before it reads a type byte. With
the two other parsers this gives the strings for which all three stay inside.
-/
namespace Chromium.IDBCoding.Reads
open Comparator TaggedTree TaggedTree.Reading

section Parser

/-- The loop over the common length of two arrays. -/
def compareMany (compare : Slice → Slice → Reading (ℤ × Slice × Slice)) :
    ℕ → Slice → Slice → Reading (ℤ × Slice × Slice)
  | 0, sliceA, sliceB => return (0, sliceA, sliceB)
  | n + 1, sliceA, sliceB => do
    let (result, sliceA, sliceB) ← compare sliceA sliceB
    if result ≠ 0 then return (result, sliceA, sliceB)
    else compareMany compare n sliceA sliceB

/-- The result with the rest of both slices. -/
def compareEncodedIDBKeys (types : KeyTypes) :
    ℕ → Slice → Slice → Reading (ℤ × Slice × Slice)
  | 0, _, _ => .unfinished
  | depth + 1, sliceA, sliceB => do
    let (typeA, sliceA) ← readByte sliceA
    let (typeB, sliceB) ← readByte sliceB
    let x := compareTypes types (keyTypeByteToKeyType typeA) (keyTypeByteToKeyType typeB)
    if x ≠ 0 then return (x, sliceA, sliceB)
    else if typeA = kIndexedDBKeyArrayTypeByte then
      let (lengthA, sliceA) ← ofOption (decodeVarInt sliceA)
      let (lengthB, sliceB) ← ofOption (decodeVarInt sliceB)
      let (result, sliceA, sliceB) ← compareMany (compareEncodedIDBKeys types depth)
        (Min.min lengthA lengthB).toNat sliceA sliceB
      if result ≠ 0 then return (result, sliceA, sliceB)
      else return (toInt (lengthA - lengthB), sliceA, sliceB)
    else if typeA = kIndexedDBKeyStringTypeByte then
      ofOption (compareEncodedStringsWithLength sliceA sliceB)
    else if typeA = kIndexedDBKeyDateTypeByte ∨ typeA = kIndexedDBKeyNumberTypeByte then
      let (d, sliceA) ← ofOption (decodeDouble sliceA)
      let (e, sliceB) ← ofOption (decodeDouble sliceB)
      return (if doubleLess d e then -1 else if doubleLess e d then 1 else 0, sliceA, sliceB)
    else return (0, sliceA, sliceB)

end Parser

section Refinement
variable {types : KeyTypes}

lemma toOption_compareMany {compare : Slice → Slice → Reading (ℤ × Slice × Slice)}
    {compare' : Slice → Slice → Option (ℤ × Slice × Slice)}
    (h : ∀ a b, (compare a b).toOption = compare' a b) (n : ℕ) (sliceA sliceB : Slice) :
    (compareMany compare n sliceA sliceB).toOption = compareArrays compare' n sliceA sliceB := by
  induction n generalizing sliceA sliceB with
  | zero => rfl
  | succ n ih =>
    rw [compareMany, compareArrays, toOption_bind, h]
    congr 1
    funext p
    obtain ⟨result, a, b⟩ := p
    dsimp only
    split_ifs
    · rfl
    · exact ih a b

/-- The comparison is the one of the whole keys; there a byte outside counts as a failure. -/
theorem toOption_compareEncodedIDBKeys (depth : ℕ) (sliceA sliceB : Slice) :
    (compareEncodedIDBKeys types depth sliceA sliceB).toOption =
      IDBCoding.compareEncodedIDBKeys types depth sliceA sliceB := by
  induction depth generalizing sliceA sliceB with
  | zero => rfl
  | succ depth ih =>
    rw [compareEncodedIDBKeys, IDBCoding.compareEncodedIDBKeys, toOption_bind, toOption_readByte]
    congr 1
    funext p
    rw [toOption_bind, toOption_readByte]
    congr 1
    funext q
    dsimp only
    split_ifs with hx harray hstring hdouble
    · rfl
    · rw [toOption_bind, toOption_ofOption]
      congr 1
      funext v
      rw [toOption_bind, toOption_ofOption]
      congr 1
      funext w
      rw [toOption_bind, toOption_compareMany ih]
      congr 1
      funext r
      split_ifs <;> rfl
    · rw [toOption_ofOption]
    · rw [toOption_bind, toOption_ofOption]
      congr 1
      funext v
      rw [toOption_bind, toOption_ofOption]
      rfl
    · rfl

end Refinement

section Grammar

/-- Two keys that the comparison walks through without finding a difference. -/
inductive Ties : Slice → Slice → Prop
  | empty {typeA typeB : UInt8} (hA : keyTypeByteToKeyType typeA = .invalid)
      (hB : keyTypeByteToKeyType typeB = .invalid) : Ties [typeA] [typeB]
  | min : Ties [kIndexedDBKeyMinKeyTypeByte] [kIndexedDBKeyMinKeyTypeByte]
  | string {lengthA lengthB value : Slice} {n : ℕ} (hA : VarInt lengthA n) (hB : VarInt lengthB n)
      (hvalue : value.length = n * 2) : Ties (kIndexedDBKeyStringTypeByte :: (lengthA ++ value))
        (kIndexedDBKeyStringTypeByte :: (lengthB ++ value))
  | double {type : UInt8} {valueA valueB : Slice}
      (htype : type = kIndexedDBKeyDateTypeByte ∨ type = kIndexedDBKeyNumberTypeByte)
      (hA : valueA.length = 8) (hB : valueB.length = 8)
      (hlt : doubleLess (BitVec.ofNat 64 (memoryValue valueA))
        (BitVec.ofNat 64 (memoryValue valueB)) = false)
      (hgt : doubleLess (BitVec.ofNat 64 (memoryValue valueB))
        (BitVec.ofNat 64 (memoryValue valueA)) = false) : Ties (type :: valueA) (type :: valueB)
  | array {lengthA lengthB : Slice} {n m : ℤ} {keys : List (Slice × Slice)}
      (hA : VarInt lengthA n) (hB : VarInt lengthB m) (hkeys : ∀ p ∈ keys, Ties p.1 p.2)
      (hcount : keys.length = (Min.min n m).toNat) (hdiff : toInt (n - m) = 0) :
      Ties (kIndexedDBKeyArrayTypeByte :: (lengthA ++ (keys.map Prod.fst).flatten))
        (kIndexedDBKeyArrayTypeByte :: (lengthB ++ (keys.map Prod.snd).flatten))

/-- One of the slices ends where a key has to start, after arrays of equal first elements. -/
inductive MeetsEnd : Slice → Slice → Prop
  | left (sliceB : Slice) : MeetsEnd [] sliceB
  | right (sliceA : Slice) : MeetsEnd sliceA []
  | child {lengthA lengthB restA restB : Slice} {n m : ℤ} {keys : List (Slice × Slice)}
      (hA : VarInt lengthA n) (hB : VarInt lengthB m) (hkeys : ∀ p ∈ keys, Ties p.1 p.2)
      (hlt : keys.length < (Min.min n m).toNat) (h : MeetsEnd restA restB) :
      MeetsEnd (kIndexedDBKeyArrayTypeByte :: (lengthA ++ ((keys.map Prod.fst).flatten ++ restA)))
        (kIndexedDBKeyArrayTypeByte :: (lengthB ++ ((keys.map Prod.snd).flatten ++ restB)))

lemma Ties.length_pos {keyA keyB : Slice} (h : Ties keyA keyB) :
    0 < keyA.length ∧ 0 < keyB.length := by
  cases h <;> simp

end Grammar

section Outcomes
variable {types : KeyTypes}

lemma compareTypes_eq_zero {a b : WebIDBKeyType} : compareTypes types a b = 0 ↔ a = b := by
  rw [compareTypes, sub_eq_zero, types.injective.eq_iff, eq_comm]

/-- Two type bytes: of different types, or of one type. Only the invalid type has more than one
type byte. -/
lemma type_cases (typeA typeB : UInt8) :
    keyTypeByteToKeyType typeA ≠ keyTypeByteToKeyType typeB ∨
      (typeA = kIndexedDBKeyArrayTypeByte ∧ typeB = kIndexedDBKeyArrayTypeByte) ∨
      (typeA = kIndexedDBKeyStringTypeByte ∧ typeB = kIndexedDBKeyStringTypeByte) ∨
      (typeA = typeB ∧ (typeA = kIndexedDBKeyDateTypeByte ∨ typeA = kIndexedDBKeyNumberTypeByte)) ∨
      (keyTypeByteToKeyType typeA = .invalid ∧ keyTypeByteToKeyType typeB = .invalid) ∨
      (typeA = kIndexedDBKeyMinKeyTypeByte ∧ typeB = kIndexedDBKeyMinKeyTypeByte) := by
  simp only [keyTypeByteToKeyType]
  split_ifs <;> simp_all

section Steps
variable {typeA typeB : UInt8} (depth : ℕ) (sliceA sliceB : Slice)

variable (types) in
lemma compare_of_type_ne (h : keyTypeByteToKeyType typeA ≠ keyTypeByteToKeyType typeB) :
    ∃ x, x ≠ 0 ∧ compareEncodedIDBKeys types (depth + 1) (typeA :: sliceA) (typeB :: sliceB) =
      .accepts (x, sliceA, sliceB) := by
  have hx : compareTypes types (keyTypeByteToKeyType typeA) (keyTypeByteToKeyType typeB) ≠ 0 :=
    fun hx => h (compareTypes_eq_zero.mp hx)
  refine ⟨_, hx, ?_⟩
  simp only [compareEncodedIDBKeys, readByte, accepts_bind]
  rw [if_pos hx, pure_eq]

lemma compare_array :
    compareEncodedIDBKeys types (depth + 1) (kIndexedDBKeyArrayTypeByte :: sliceA)
      (kIndexedDBKeyArrayTypeByte :: sliceB) = (do
        let (lengthA, sliceA) ← ofOption (decodeVarInt sliceA)
        let (lengthB, sliceB) ← ofOption (decodeVarInt sliceB)
        let (result, sliceA, sliceB) ← compareMany (compareEncodedIDBKeys types depth)
          (Min.min lengthA lengthB).toNat sliceA sliceB
        if result ≠ 0 then return (result, sliceA, sliceB)
        else return (toInt (lengthA - lengthB), sliceA, sliceB)) := by
  simp only [compareEncodedIDBKeys, readByte, accepts_bind]
  rw [if_neg (by rw [compareTypes_self]; simp), if_pos trivial]

lemma compare_string :
    compareEncodedIDBKeys types (depth + 1) (kIndexedDBKeyStringTypeByte :: sliceA)
      (kIndexedDBKeyStringTypeByte :: sliceB) =
        ofOption (compareEncodedStringsWithLength sliceA sliceB) := by
  simp only [compareEncodedIDBKeys, readByte, accepts_bind]
  rw [if_neg (by rw [compareTypes_self]; simp), if_neg (by decide), if_pos trivial]

lemma compare_double (htype : typeA = kIndexedDBKeyDateTypeByte ∨
    typeA = kIndexedDBKeyNumberTypeByte) :
    compareEncodedIDBKeys types (depth + 1) (typeA :: sliceA) (typeA :: sliceB) = (do
        let (d, sliceA) ← ofOption (decodeDouble sliceA)
        let (e, sliceB) ← ofOption (decodeDouble sliceB)
        return (if doubleLess d e then -1 else if doubleLess e d then 1 else 0,
          sliceA, sliceB)) := by
  have harray : typeA ≠ kIndexedDBKeyArrayTypeByte := by
    rcases htype with rfl | rfl <;> decide
  have hstring : typeA ≠ kIndexedDBKeyStringTypeByte := by
    rcases htype with rfl | rfl <;> decide
  simp only [compareEncodedIDBKeys, readByte, accepts_bind]
  rw [if_neg (by rw [compareTypes_self]; simp), if_neg harray, if_neg hstring, if_pos htype]

lemma compare_empty (h : (keyTypeByteToKeyType typeA = .invalid ∧
      keyTypeByteToKeyType typeB = .invalid) ∨
    (typeA = kIndexedDBKeyMinKeyTypeByte ∧ typeB = kIndexedDBKeyMinKeyTypeByte)) :
    compareEncodedIDBKeys types (depth + 1) (typeA :: sliceA) (typeB :: sliceB) =
      .accepts (0, sliceA, sliceB) := by
  have htypes : keyTypeByteToKeyType typeA = keyTypeByteToKeyType typeB := by
    rcases h with ⟨hA, hB⟩ | ⟨rfl, rfl⟩
    · rw [hA, hB]
    · rfl
  have hother : typeA ≠ kIndexedDBKeyArrayTypeByte ∧ typeA ≠ kIndexedDBKeyStringTypeByte ∧
      ¬ (typeA = kIndexedDBKeyDateTypeByte ∨ typeA = kIndexedDBKeyNumberTypeByte) := by
    rcases h with ⟨hA, -⟩ | ⟨rfl, -⟩
    · refine ⟨?_, ?_, ?_⟩
      · rintro rfl
        cases hA
      · rintro rfl
        cases hA
      · rintro (rfl | rfl) <;> cases hA
    · decide
  simp only [compareEncodedIDBKeys, readByte, accepts_bind]
  rw [htypes, if_neg (by rw [compareTypes_self]; simp), if_neg hother.1, if_neg hother.2.1,
    if_neg hother.2.2, pure_eq]

end Steps

/-- Equal strings of one length. -/
lemma compareEncodedStringsWithLength_eq_zero {sliceA sliceB restA restB : Slice} :
    compareEncodedStringsWithLength sliceA sliceB = some (0, restA, restB) ↔
      ∃ (lengthA lengthB value : Slice) (n : ℕ), VarInt lengthA n ∧ VarInt lengthB n ∧
        value.length = n * 2 ∧ sliceA = lengthA ++ (value ++ restA) ∧
        sliceB = lengthB ++ (value ++ restB) := by
  constructor
  · intro h
    simp only [compareEncodedStringsWithLength, Option.bind_eq_bind, Option.bind_eq_some_iff,
      Prod.exists] at h
    obtain ⟨n, slice1, hn, m, slice2, hm, h⟩ := h
    obtain ⟨lengthA, hA, rfl⟩ := decodeVarInt_eq_some.mp hn
    obtain ⟨lengthB, hB, rfl⟩ := decodeVarInt_eq_some.mp hm
    split_ifs at h with hneg hshort
    simp only [Option.pure_def, Option.some.injEq, Prod.mk.injEq] at h
    obtain ⟨hcompare, rfl, rfl⟩ := h
    have hvalue := (lexCompare_eq_zero (fun a b => UInt8.lt_iff_toNat_lt)
      (fun a b => UInt8.toNat_inj.mp)).mp hcompare
    have hlen := congrArg List.length hvalue
    rw [List.length_take, List.length_take] at hlen
    have hnm : n.toNat = m.toNat := by omega
    have hnB : n = m := by omega
    subst hnB
    rw [← Int.toNat_of_nonneg (show 0 ≤ n by omega)] at hA hB
    refine ⟨lengthA, lengthB, slice1.take (n.toNat * 2), n.toNat, hA, hB, ?_, ?_, ?_⟩
    · rw [List.length_take]
      omega
    · rw [List.take_append_drop]
    · rw [hvalue, List.take_append_drop]
  · intro h
    obtain ⟨lengthA, lengthB, value, n, hA, hB, hvalue, rfl, rfl⟩ := h
    have hcompare : lexCompare value value = 0 :=
      (lexCompare_eq_zero (fun a b => UInt8.lt_iff_toNat_lt)
        (fun a b => UInt8.toNat_inj.mp)).mpr rfl
    simp [compareEncodedStringsWithLength, hA.decode, hB.decode, ← hvalue, hcompare]

lemma compareMany_sound {compare : Slice → Slice → Reading (ℤ × Slice × Slice)}
    (hcompare : ∀ {a b restA restB}, compare a b = .accepts (0, restA, restB) →
      ∃ keyA keyB, Ties keyA keyB ∧ a = keyA ++ restA ∧ b = keyB ++ restB)
    {n : ℕ} {a b restA restB : Slice} (h : compareMany compare n a b = .accepts (0, restA, restB)) :
    ∃ keys : List (Slice × Slice), keys.length = n ∧ (∀ p ∈ keys, Ties p.1 p.2) ∧
      a = (keys.map Prod.fst).flatten ++ restA ∧ b = (keys.map Prod.snd).flatten ++ restB := by
  induction n generalizing a b with
  | zero =>
    cases h
    exact ⟨[], rfl, by simp, rfl, rfl⟩
  | succ n ih =>
    simp only [compareMany, bind_eq_accepts, Prod.exists] at h
    obtain ⟨result, a', b', hfirst, h⟩ := h
    split_ifs at h with hresult
    · cases h
      exact absurd rfl hresult
    · rw [not_not.mp hresult] at hfirst
      obtain ⟨keyA, keyB, hties, rfl, rfl⟩ := hcompare hfirst
      obtain ⟨keys, rfl, hkeys, rfl, rfl⟩ := ih h
      exact ⟨(keyA, keyB) :: keys, rfl, by simpa using ⟨hties, by simpa using hkeys⟩, by simp,
        by simp⟩

/-- Where no difference is found, two keys have been walked through. -/
theorem compare_sound {depth : ℕ} {a b restA restB : Slice}
    (h : compareEncodedIDBKeys types depth a b = .accepts (0, restA, restB)) :
    ∃ keyA keyB, Ties keyA keyB ∧ a = keyA ++ restA ∧ b = keyB ++ restB := by
  induction depth generalizing a b restA restB with
  | zero => cases h
  | succ depth ih =>
    match a, b with
    | [], b => cases h
    | _ :: _, [] => cases h
    | typeA :: sliceA, typeB :: sliceB =>
      rcases type_cases typeA typeB with hne | ⟨rfl, rfl⟩ | ⟨rfl, rfl⟩ | ⟨rfl, htype⟩ | hempty
      · obtain ⟨x, hx, hcompare⟩ := compare_of_type_ne types depth sliceA sliceB hne
        rw [hcompare] at h
        cases h
        exact absurd rfl hx
      · simp only [compare_array, bind_eq_accepts, ofOption_eq_accepts, Prod.exists] at h
        obtain ⟨n, slice, hn, m, slice', hm, result, mid, mid', hmany, h⟩ := h
        obtain ⟨lengthA, hA, rfl⟩ := decodeVarInt_eq_some.mp hn
        obtain ⟨lengthB, hB, rfl⟩ := decodeVarInt_eq_some.mp hm
        split_ifs at h with hresult
        · cases h
          exact absurd rfl hresult
        · rw [not_not.mp hresult] at hmany
          simp only [pure_eq, Reading.accepts.injEq, Prod.mk.injEq] at h
          obtain ⟨hdiff, rfl, rfl⟩ := h
          obtain ⟨keys, hcount, hkeys, rfl, rfl⟩ := compareMany_sound ih hmany
          exact ⟨_, _, .array hA hB hkeys hcount hdiff, by simp, by simp⟩
      · rw [compare_string, ofOption_eq_accepts] at h
        obtain ⟨lengthA, lengthB, value, n, hA, hB, hvalue, rfl, rfl⟩ :=
          compareEncodedStringsWithLength_eq_zero.mp h
        exact ⟨_, _, .string hA hB hvalue, by simp, by simp⟩
      · simp only [compare_double depth sliceA sliceB htype, bind_eq_accepts, ofOption_eq_accepts,
          Prod.exists, pure_eq, Reading.accepts.injEq, Prod.mk.injEq] at h
        obtain ⟨d, slice, hd, e, slice', he, hresult, rfl, rfl⟩ := h
        obtain ⟨valueA, hA, rfl, rfl⟩ := decodeDouble_eq_some.mp hd
        obtain ⟨valueB, hB, rfl, rfl⟩ := decodeDouble_eq_some.mp he
        split_ifs at hresult with hlt hgt
        · omega
        exact ⟨_, _, .double htype hA hB (by simpa using hlt) (by simpa using hgt), rfl, rfl⟩
      · rw [compare_empty depth sliceA sliceB hempty] at h
        cases h
        rcases hempty with ⟨hA, hB⟩ | ⟨rfl, rfl⟩
        · exact ⟨_, _, .empty hA hB, rfl, rfl⟩
        · exact ⟨_, _, .min, rfl, rfl⟩

lemma compareMany_of_ties {compare : Slice → Slice → Reading (ℤ × Slice × Slice)}
    {keys : List (Slice × Slice)}
    (hcompare : ∀ p ∈ keys, ∀ a b, compare (p.1 ++ a) (p.2 ++ b) = .accepts (0, a, b))
    (n : ℕ) (a b : Slice) :
    compareMany compare (keys.length + n) ((keys.map Prod.fst).flatten ++ a)
      ((keys.map Prod.snd).flatten ++ b) = compareMany compare n a b := by
  induction keys with
  | nil => simp
  | cons p keys ih =>
    rw [List.forall_mem_cons] at hcompare
    rw [List.length_cons, Nat.add_right_comm, compareMany, List.map_cons, List.map_cons,
      List.flatten_cons, List.flatten_cons, List.append_assoc, List.append_assoc, hcompare.1,
      accepts_bind]
    dsimp only
    rw [if_neg (by simp), ih hcompare.2]

lemma length_le_flatten_map {f : Slice × Slice → Slice} {keys : List (Slice × Slice)}
    {p : Slice × Slice} (h : p ∈ keys) : (f p).length ≤ ((keys.map f).flatten).length := by
  rw [List.length_flatten, List.map_map]
  exact List.le_sum_of_mem (List.mem_map_of_mem h)

theorem Ties.compare {keyA keyB : Slice} (h : Ties keyA keyB) (a b : Slice) {depth : ℕ}
    (hdepth : keyA.length ≤ depth) :
    compareEncodedIDBKeys types depth (keyA ++ a) (keyB ++ b) = .accepts (0, a, b) := by
  have hpos := h.length_pos.1
  obtain ⟨depth, rfl⟩ : ∃ d, depth = d + 1 := ⟨depth - 1, by omega⟩
  induction h generalizing a b depth with
  | empty hA hB => exact compare_empty depth a b (.inl ⟨hA, hB⟩)
  | min => exact compare_empty depth a b (.inr ⟨rfl, rfl⟩)
  | @string lengthA lengthB value n hA hB hvalue =>
    rw [List.cons_append, List.cons_append, compare_string, ofOption_eq_accepts]
    exact compareEncodedStringsWithLength_eq_zero.mpr
      ⟨lengthA, lengthB, value, n, hA, hB, hvalue, by simp, by simp⟩
  | @double type valueA valueB htype hA hB hlt hgt =>
    rw [List.cons_append, List.cons_append, compare_double depth _ _ htype,
      decodeDouble_eq_some.mpr ⟨valueA, hA, rfl, rfl⟩, ofOption, accepts_bind]
    dsimp only
    rw [decodeDouble_eq_some.mpr ⟨valueB, hB, rfl, rfl⟩, ofOption, accepts_bind]
    dsimp only
    rw [hlt, hgt]
    rfl
  | @array lengthA lengthB n m keys hA hB hkeys hcount hdiff ih =>
    rw [List.length_cons, List.length_append] at hdepth
    have hmany : ∀ p ∈ keys, ∀ a b,
        compareEncodedIDBKeys types depth (p.1 ++ a) (p.2 ++ b) = .accepts (0, a, b) := by
      intro p hp a b
      have hle := length_le_flatten_map (f := Prod.fst) hp
      have hpos := (hkeys p hp).length_pos.1
      obtain ⟨d, rfl⟩ : ∃ d, depth = d + 1 := ⟨depth - 1, by omega⟩
      exact ih p hp a b hpos d (by omega)
    have hloop := compareMany_of_ties hmany 0 a b
    rw [Nat.add_zero, hcount] at hloop
    rw [List.cons_append, List.cons_append, compare_array, List.append_assoc, List.append_assoc,
      hA.decode, ofOption, accepts_bind]
    dsimp only
    rw [hB.decode, ofOption, accepts_bind]
    dsimp only
    rw [hloop, compareMany, pure_eq, accepts_bind]
    dsimp only
    rw [if_neg (by simp), hdiff, pure_eq]

lemma compareMany_finishes {depth : ℕ}
    (hcompare : ∀ {a b : Slice}, a.length < depth →
      compareEncodedIDBKeys types depth a b ≠ .unfinished)
    (n : ℕ) {a b : Slice} (ha : a.length < depth) :
    compareMany (compareEncodedIDBKeys types depth) n a b ≠ .unfinished := by
  induction n generalizing a b with
  | zero => simp [compareMany]
  | succ n ih =>
    intro h
    simp only [compareMany, bind_eq_unfinished, Prod.exists] at h
    rcases h with h | ⟨result, a', b', hfirst, h⟩
    · exact hcompare ha h
    · split_ifs at h with hresult
      rw [not_not.mp hresult] at hfirst
      obtain ⟨keyA, keyB, -, rfl, -⟩ := compare_sound hfirst
      rw [List.length_append] at ha
      exact ih (by omega) h

/-- A depth larger than the length of the first slice is enough. -/
theorem compare_finishes {depth : ℕ} {a b : Slice} (ha : a.length < depth) :
    compareEncodedIDBKeys types depth a b ≠ .unfinished := by
  induction depth generalizing a b with
  | zero => omega
  | succ depth ih =>
    match a, b with
    | [], b => simp [compareEncodedIDBKeys, readByte]
    | _ :: _, [] => simp [compareEncodedIDBKeys, readByte]
    | typeA :: sliceA, typeB :: sliceB =>
      rw [List.length_cons] at ha
      rcases type_cases typeA typeB with hne | ⟨rfl, rfl⟩ | ⟨rfl, rfl⟩ | ⟨rfl, htype⟩ | hempty
      · obtain ⟨x, -, hcompare⟩ := compare_of_type_ne types depth sliceA sliceB hne
        simp [hcompare]
      · intro h
        simp only [compare_array, bind_eq_unfinished, ofOption_ne_unfinished, false_or,
          ofOption_eq_accepts, Prod.exists] at h
        obtain ⟨n, slice, hn, m, slice', hm, h | ⟨result, mid, mid', hmany, h⟩⟩ := h
        · obtain ⟨lengthA, -, rfl⟩ := decodeVarInt_eq_some.mp hn
          rw [List.length_append] at ha
          exact compareMany_finishes ih _ (by omega) h
        · split_ifs at h
      · rw [compare_string]
        exact ofOption_ne_unfinished _
      · simp [compare_double depth sliceA sliceB htype, bind_eq_unfinished]
      · simp [compare_empty depth sliceA sliceB hempty]

lemma compareMany_outside {depth n : ℕ} {a b : Slice}
    (h : compareMany (compareEncodedIDBKeys types depth) n a b = .outside) :
    ∃ (keys : List (Slice × Slice)) (restA restB : Slice), keys.length < n ∧
      (∀ p ∈ keys, Ties p.1 p.2) ∧ a = (keys.map Prod.fst).flatten ++ restA ∧
      b = (keys.map Prod.snd).flatten ++ restB ∧
      compareEncodedIDBKeys types depth restA restB = .outside := by
  induction n generalizing a b with
  | zero => simp [compareMany] at h
  | succ n ih =>
    simp only [compareMany, bind_eq_outside, Prod.exists] at h
    rcases h with h | ⟨result, a', b', hfirst, h⟩
    · exact ⟨[], a, b, Nat.succ_pos n, by simp, rfl, rfl, h⟩
    · split_ifs at h with hresult
      rw [not_not.mp hresult] at hfirst
      obtain ⟨keyA, keyB, hties, rfl, rfl⟩ := compare_sound hfirst
      obtain ⟨keys, restA, restB, hlt, hkeys, rfl, rfl, hrest⟩ := ih h
      exact ⟨(keyA, keyB) :: keys, restA, restB, Nat.succ_lt_succ hlt,
        by simpa using ⟨hties, by simpa using hkeys⟩, by simp, by simp, hrest⟩

lemma meetsEnd_of_outside {depth : ℕ} {a b : Slice}
    (h : compareEncodedIDBKeys types depth a b = .outside) : MeetsEnd a b := by
  induction depth generalizing a b with
  | zero => cases h
  | succ depth ih =>
    match a, b with
    | [], b => exact .left b
    | a, [] => exact .right a
    | typeA :: sliceA, typeB :: sliceB =>
      rcases type_cases typeA typeB with hne | ⟨rfl, rfl⟩ | ⟨rfl, rfl⟩ | ⟨rfl, htype⟩ | hempty
      · obtain ⟨x, -, hcompare⟩ := compare_of_type_ne types depth sliceA sliceB hne
        rw [hcompare] at h
        cases h
      · simp only [compare_array, bind_eq_outside, ofOption_ne_outside, false_or,
          ofOption_eq_accepts, Prod.exists] at h
        obtain ⟨n, slice, hn, m, slice', hm, h | ⟨result, mid, mid', hmany, h⟩⟩ := h
        · obtain ⟨lengthA, hA, rfl⟩ := decodeVarInt_eq_some.mp hn
          obtain ⟨lengthB, hB, rfl⟩ := decodeVarInt_eq_some.mp hm
          obtain ⟨keys, restA, restB, hlt, hkeys, rfl, rfl, hrest⟩ := compareMany_outside h
          exact .child hA hB hkeys hlt (ih hrest)
        · split_ifs at h
      · rw [compare_string] at h
        exact absurd h (ofOption_ne_outside _)
      · simp [compare_double depth sliceA sliceB htype, bind_eq_outside] at h
      · rw [compare_empty depth sliceA sliceB hempty] at h
        cases h

lemma MeetsEnd.compare {a b : Slice} (h : MeetsEnd a b) {depth : ℕ} (hdepth : a.length < depth) :
    compareEncodedIDBKeys types depth a b = .outside := by
  obtain ⟨depth, rfl⟩ : ∃ d, depth = d + 1 := ⟨depth - 1, by omega⟩
  induction h generalizing depth with
  | left b => rfl
  | right a => cases a <;> rfl
  | @child lengthA lengthB restA restB n m keys hA hB hkeys hlt h ih =>
    simp only [List.length_cons, List.length_append] at hdepth
    obtain ⟨depth, rfl⟩ : ∃ d, depth = d + 1 := ⟨depth - 1, by omega⟩
    have hmany : ∀ p ∈ keys, ∀ a b,
        compareEncodedIDBKeys types (depth + 1) (p.1 ++ a) (p.2 ++ b) = .accepts (0, a, b) := by
      intro p hp a b
      have hle := length_le_flatten_map (f := Prod.fst) hp
      exact (hkeys p hp).compare a b (by omega)
    obtain ⟨k, hk⟩ : ∃ k, (Min.min n m).toNat = keys.length + (k + 1) :=
      ⟨(Min.min n m).toNat - keys.length - 1, by omega⟩
    rw [compare_array, hA.decode, ofOption, accepts_bind]
    dsimp only
    rw [hB.decode, ofOption, accepts_bind]
    dsimp only
    rw [hk, compareMany_of_ties hmany, compareMany, ih depth (by omega), outside_bind,
      outside_bind]

theorem compare_eq_outside {depth : ℕ} {a b : Slice} (ha : a.length < depth) :
    compareEncodedIDBKeys types depth a b = .outside ↔ MeetsEnd a b :=
  ⟨meetsEnd_of_outside, fun h => h.compare ha⟩

end Outcomes

section Safety

/-- The three parsers stay inside the strings `s` and `t` and come to an end, and the two that
take single keys agree. -/
structure ParsesSafely (types : KeyTypes) (s t : Slice) : Prop where
  decode : ∀ depth, s.length < depth → (decodeIDBKey depth s).Safe
  extract : ∀ depth, s.length < depth → (extractEncodedIDBKey depth s).Safe
  compare : ∀ depth, s.length < depth → (compareEncodedIDBKeys types depth s t).Safe
  agree : ∀ depth, s.length < depth → ∀ key rest, decodeIDBKey depth s = .accepts (key, rest) →
    ∃ bytes, extractEncodedIDBKey depth s = .accepts (bytes, rest)

end Safety

end Chromium.IDBCoding.Reads
