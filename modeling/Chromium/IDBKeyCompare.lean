import Chromium.IDBCodingOrder

/-!
# The order of the keys and of their encodings

`IndexedDBKey::Compare` (content/common/indexed_db/indexed_db_key.cc) orders the
keys themselves, `CompareEncodedIDBKeys` their encodings. Both walk through two
keys in step and differ in one place: where one array is the start of another,
the keys compare the two sizes, and the encodings narrow the difference of the
sizes to an `int`.
-/
namespace Chromium.IDBCoding
open Comparator

section KeyOrder
variable (types : KeyTypes)

def IDBKey.type : IDBKey → WebIDBKeyType
  | .string _ => .string
  | .date _ => .date
  | .number _ => .number
  | .array _ => .array

/-- `(date_ < other.date_) ? -1 : (date_ > other.date_) ? 1 : 0`. -/
def compareDoubles (d e : DoubleBits) : ℤ :=
  if doubleLess d e then -1 else if doubleLess e d then 1 else 0

mutual

/-- `IndexedDBKey::Compare`. -/
def IDBKey.compare : IDBKey → IDBKey → ℤ
  | .array as, .array bs =>
    let result := compareElements as bs
    if result ≠ 0 then result
    else if as.length < bs.length then -1
    else if as.length > bs.length then 1
    else 0
  | .string s, .string t => -lexCompare t.1 s.1
  | .date d, .date e => compareDoubles d e
  | .number d, .number e => compareDoubles d e
  | a, b => if types.value a.type > types.value b.type then -1 else 1

/-- The loop over the elements that both arrays have. -/
def compareElements : List IDBKey → List IDBKey → ℤ
  | a :: as, b :: bs =>
    let result := a.compare b
    if result ≠ 0 then result else compareElements as bs
  | _, _ => 0

end

/-- The encodings of two keys, with other bytes after them, are compared as the
keys are, and keys that are equal are consumed. -/
def Agrees (a b : IDBKey) (restA restB : Slice) : Prop :=
  ∃ result sliceA sliceB,
    compareKeys types (encodeIDBKey a ++ restA) (encodeIDBKey b ++ restB) =
      some (result, sliceA, sliceB) ∧
    result.sign = (a.compare types b).sign ∧ (result = 0 → sliceA = restA ∧ sliceB = restB)

end KeyOrder

section Conditions

mutual

/-- The same key. The two zeros are one number. -/
def IDBKey.Same : IDBKey → IDBKey → Prop
  | .string s, .string t => s = t
  | .date d, .date e => doubleRank d = doubleRank e
  | .number d, .number e => doubleRank d = doubleRank e
  | .array as, .array bs => SameKeys as bs
  | _, _ => False

def SameKeys : List IDBKey → List IDBKey → Prop
  | [], [] => True
  | a :: as, b :: bs => a.Same b ∧ SameKeys as bs
  | _, _ => False

end

mutual

/-- Wherever the first difference of two keys is the size of two arrays, the
difference of the sizes keeps its sign as an `int`. -/
def LengthsFit : IDBKey → IDBKey → Prop
  | .array as, .array bs => ElementsFit (as.length - bs.length) as bs
  | _, _ => True

/-- The elements of two arrays whose sizes have this difference. -/
def ElementsFit (difference : ℤ) : List IDBKey → List IDBKey → Prop
  | a :: as, b :: bs => LengthsFit a b ∧ (a.Same b → ElementsFit difference as bs)
  | _, _ => (toInt difference).sign = difference.sign

end

end Conditions

section Strings

lemma toNat_high (c : UInt16) : (c >>> 8).toUInt8.toNat = c.toNat / 2 ^ 8 := by
  have hlt := c.toNat_lt
  simp [Nat.shiftRight_eq_div_pow]
  omega

lemma toNat_low (c : UInt16) : c.toUInt8.toNat = c.toNat % 2 ^ 8 := by simp

/-- Big-endian code units are compared as the code units are. -/
lemma lexCompare_encodeString (s t : List UInt16) :
    lexCompare (encodeString s) (encodeString t) = lexCompare s t := by
  induction s generalizing t with
  | nil => cases t <;> rfl
  | cons c s ih =>
    cases t with
    | nil => rfl
    | cons d t =>
      have hc := toNat_high c
      have hd := toNat_high d
      have hc' := toNat_low c
      have hd' := toNat_low d
      have hlt : c < d ↔ (c >>> 8).toUInt8 < (d >>> 8).toUInt8 ∨
          ¬ (d >>> 8).toUInt8 < (c >>> 8).toUInt8 ∧ c.toUInt8 < d.toUInt8 := by
        simp only [UInt8.lt_iff_toNat_lt, UInt16.lt_iff_toNat_lt]
        omega
      have hgt : d < c ↔ (d >>> 8).toUInt8 < (c >>> 8).toUInt8 ∨
          ¬ (c >>> 8).toUInt8 < (d >>> 8).toUInt8 ∧ d.toUInt8 < c.toUInt8 := by
        simp only [UInt8.lt_iff_toNat_lt, UInt16.lt_iff_toNat_lt]
        omega
      simp only [encodeString, lexCompare, hlt, hgt, ih]
      by_cases hcd : (c >>> 8).toUInt8 < (d >>> 8).toUInt8
      · simp [hcd]
      · by_cases hdc : (d >>> 8).toUInt8 < (c >>> 8).toUInt8
        · simp [hcd, hdc]
        · simp [hcd, hdc]

lemma neg_names (s t : List UInt16) : -lexCompare t s = lexCompare s t :=
  neg_lexCompare (fun _ _ => UInt16.lt_iff_toNat_lt) t s

lemma names_eq_zero {s t : List UInt16} : lexCompare s t = 0 ↔ s = t :=
  lexCompare_eq_zero (fun _ _ => UInt16.lt_iff_toNat_lt) fun _ _ => UInt16.toNat_inj.mp

end Strings

section Outcome
variable {types : KeyTypes}

lemma compareDoubles_eq_zero (d e : Double) :
    compareDoubles d e = 0 ↔ doubleRank d = doubleRank e := by
  have hd := d.2
  have he := e.2
  simp only [compareDoubles, doubleLess, hd, he, Bool.not_false, Bool.and_self, Bool.true_and,
    decide_eq_true_eq]
  split_ifs <;> simp <;> omega

lemma compare_of_type_ne {a b : IDBKey} (h : a.type ≠ b.type) :
    a.compare types b = if types.value a.type > types.value b.type then -1 else 1 := by
  cases a <;> cases b <;> first | exact absurd rfl h | rw [IDBKey.compare] <;> simp

lemma not_same_of_type_ne {a b : IDBKey} (h : a.type ≠ b.type) : ¬ a.Same b := by
  cases a <;> cases b <;> first | exact absurd rfl h | simp [IDBKey.Same]

/-- Two arrays: the elements decide, and then the sizes. -/
lemma sign_compare_array (as bs : List IDBKey) :
    ((IDBKey.array as).compare types (.array bs)).sign =
      (andThen (compareElements types as bs) ((as.length : ℤ) - bs.length)).sign := by
  simp only [IDBKey.compare, andThen]
  split_ifs with h1 h2 h3
  · rfl
  · rw [Int.sign_eq_neg_one_of_neg (by omega : (as.length : ℤ) - bs.length < 0)]
    rfl
  · rw [Int.sign_eq_one_of_pos (by omega : (0 : ℤ) < (as.length : ℤ) - bs.length)]
    rfl
  · rw [(by omega : (as.length : ℤ) - bs.length = 0)]

mutual

theorem compare_eq_zero (a b : IDBKey) : a.compare types b = 0 ↔ a.Same b := by
  match a, b with
  | .array as, .array bs =>
    rw [← Int.sign_eq_zero_iff_zero, sign_compare_array, Int.sign_eq_zero_iff_zero]
    exact andThen_compareElements_eq_zero as bs
  | .string s, .string t =>
    rw [IDBKey.compare, neg_names, names_eq_zero, IDBKey.Same, Subtype.ext_iff]
  | .date d, .date e => exact compareDoubles_eq_zero d e
  | .number d, .number e => exact compareDoubles_eq_zero d e
  | .string _, .date _ | .string _, .number _ | .string _, .array _
  | .date _, .string _ | .date _, .number _ | .date _, .array _
  | .number _, .string _ | .number _, .date _ | .number _, .array _
  | .array _, .string _ | .array _, .date _ | .array _, .number _ =>
    rw [compare_of_type_ne (by simp [IDBKey.type])]
    refine iff_of_false ?_ (not_same_of_type_ne (by simp [IDBKey.type]))
    split_ifs <;> simp

theorem andThen_compareElements_eq_zero (as bs : List IDBKey) :
    andThen (compareElements types as bs) ((as.length : ℤ) - bs.length) = 0 ↔
      SameKeys as bs := by
  match as, bs with
  | [], [] => simp [compareElements, SameKeys]
  | [], b :: bs =>
    simp only [compareElements, SameKeys, andThen_zero, List.length_nil, List.length_cons,
      iff_false]
    omega
  | a :: as, [] =>
    simp only [compareElements, SameKeys, andThen_zero, List.length_nil, List.length_cons,
      iff_false]
    omega
  | a :: as, b :: bs =>
    have hsizes : ((a :: as).length : ℤ) - (b :: bs).length = as.length - bs.length := by
      simp only [List.length_cons]
      omega
    rw [hsizes, compareElements, SameKeys, ← compare_eq_zero a b,
      ← andThen_compareElements_eq_zero as bs]
    by_cases h : a.compare types b = 0 <;> simp [h, andThen]

end

lemma exists_encodeIDBKey (a : IDBKey) : ∃ byte payload,
    encodeIDBKey a = byte :: payload ∧ keyTypeByteToKeyType byte = a.type := by
  cases a with
  | string value => exact ⟨_, _, encodeIDBKey.eq_1 _, rfl⟩
  | date value => exact ⟨_, _, encodeIDBKey.eq_2 _, rfl⟩
  | number value => exact ⟨_, _, encodeIDBKey.eq_3 _, rfl⟩
  | array keys => exact ⟨_, _, encodeIDBKey.eq_4 _, rfl⟩

variable (types) in
/-- Two keys, as both functions see them. -/
def Matches (a b : IDBKey) (restA restB : Slice) (result : Option (ℤ × Slice × Slice)) : Prop :=
  ∃ r sliceA sliceB, result = some (r, sliceA, sliceB) ∧
    (r = 0 ↔ a.Same b) ∧ (r = 0 → sliceA = restA ∧ sliceB = restB) ∧
    (r.sign = (a.compare types b).sign ↔ LengthsFit a b)

lemma matches_of_type_ne {a b : IDBKey} (h : a.type ≠ b.type) {depth : ℕ} (hdepth : 0 < depth)
    (restA restB : Slice) : Matches types a b restA restB
      (compareEncodedIDBKeys types depth (encodeIDBKey a ++ restA) (encodeIDBKey b ++ restB)) := by
  obtain ⟨depth, rfl⟩ := Nat.exists_eq_succ_of_ne_zero hdepth.ne'
  obtain ⟨byteA, payloadA, hencA, htypeA⟩ := exists_encodeIDBKey a
  obtain ⟨byteB, payloadB, hencB, htypeB⟩ := exists_encodeIDBKey b
  have hne : types.value a.type ≠ types.value b.type := fun heq => h (types.injective heq)
  have hx : compareTypes types a.type b.type ≠ 0 := by
    rw [compareTypes]
    omega
  have hsign : (compareTypes types a.type b.type).sign = (a.compare types b).sign := by
    rw [compare_of_type_ne h, compareTypes]
    split_ifs with hgt
    · exact Int.sign_eq_neg_one_of_neg (by omega)
    · exact Int.sign_eq_one_of_pos (by omega)
  have hfit : LengthsFit a b := by
    cases a <;> cases b <;> first | exact absurd rfl h | simp [LengthsFit]
  refine ⟨compareTypes types a.type b.type, payloadA ++ restA, payloadB ++ restB, ?_,
    iff_of_false hx (not_same_of_type_ne h), fun h0 => absurd h0 hx, iff_of_true hsign hfit⟩
  simp [compareEncodedIDBKeys, hencA, hencB, decodeByte, htypeA, htypeB, hx]

lemma matches_strings (s t : String16) {depth : ℕ} (hdepth : 0 < depth) (restA restB : Slice) :
    Matches types (.string s) (.string t) restA restB
      (compareEncodedIDBKeys types depth (encodeIDBKey (.string s) ++ restA)
        (encodeIDBKey (.string t) ++ restB)) := by
  obtain ⟨depth, rfl⟩ := Nat.exists_eq_succ_of_ne_zero hdepth.ne'
  have hs := s.2
  have ht := t.2
  have hstrings : compareEncodedStringsWithLength (encodeStringWithLength s ++ restA)
      (encodeStringWithLength t ++ restB) = some (lexCompare s.1 t.1, restA, restB) := by
    rw [compareEncodedStringsWithLength, encodeStringWithLength, encodeStringWithLength,
      List.append_assoc, List.append_assoc, decodeVarInt_encodeVarInt (by omega),
      decodeVarInt_encodeVarInt (by omega)]
    simp [encodeString_length, lexCompare_encodeString]
  refine ⟨lexCompare s.1 t.1, restA, restB, ?_, ?_, fun _ => ⟨rfl, rfl⟩, iff_of_true ?_ ?_⟩
  · simpa [compareEncodedIDBKeys, encodeIDBKey, decodeByte, compareTypes_self,
      kIndexedDBKeyStringTypeByte, kIndexedDBKeyArrayTypeByte] using hstrings
  · rw [names_eq_zero, IDBKey.Same, Subtype.ext_iff]
  · rw [IDBKey.compare, neg_names]
  · simp [LengthsFit]

lemma matches_doubles {a b : IDBKey} (d e : Double)
    (h : a = .date d ∧ b = .date e ∨ a = .number d ∧ b = .number e) {depth : ℕ}
    (hdepth : 0 < depth) (restA restB : Slice) :
    Matches types a b restA restB
      (compareEncodedIDBKeys types depth (encodeIDBKey a ++ restA) (encodeIDBKey b ++ restB)) := by
  obtain ⟨depth, rfl⟩ := Nat.exists_eq_succ_of_ne_zero hdepth.ne'
  rcases h with ⟨rfl, rfl⟩ | ⟨rfl, rfl⟩
  all_goals
    refine ⟨compareDoubles d e, restA, restB, ?_, compareDoubles_eq_zero d e,
      fun _ => ⟨rfl, rfl⟩, iff_of_true rfl (by simp [LengthsFit])⟩
    simp [compareEncodedIDBKeys, encodeIDBKey, decodeByte, compareTypes_self,
      kIndexedDBKeyStringTypeByte, kIndexedDBKeyArrayTypeByte, kIndexedDBKeyDateTypeByte,
      kIndexedDBKeyNumberTypeByte, decodeDouble_encodeDouble, compareDoubles]

lemma toInt_zero : toInt 0 = 0 := toInt_of_small (by omega) (by omega)

/-- The difference of two sizes is lost as an `int` only if it does not fit. -/
lemma toInt_eq_zero (difference : ℤ)
    (h : (toInt difference).sign = difference.sign ∨
      -2 ^ 32 < difference ∧ difference < 2 ^ 32) :
    toInt difference = 0 ↔ difference = 0 := by
  rcases h with hsign | ⟨hlo, hhi⟩
  · rw [← Int.sign_eq_zero_iff_zero, hsign, Int.sign_eq_zero_iff_zero]
  · rw [toInt]
    constructor
    · intro h0
      have hdvd := Int.dvd_of_bmod_eq_zero h0
      omega
    · rintro rfl
      rfl

mutual

/-- Either every length that counts fits in an `int`, or at least no difference of
lengths is a multiple of `2 ^ 32`, so that the two cursors stay aligned. -/
theorem compareEncodedIDBKeys_matches {m n : ℕ} (hm : m < 2 ^ 32) (hn : n < 2 ^ 63)
    (a b : IDBKey) (ha : a.ArraysAtMost n)
    (hb : b.ArraysAtMost n)
    (hfit : LengthsFit a b ∨ a.ArraysAtMost m ∧ b.ArraysAtMost m)
    {depth : ℕ} (hdepth : (encodeIDBKey a).length ≤ depth) (restA restB : Slice) :
    Matches types a b restA restB
      (compareEncodedIDBKeys types depth (encodeIDBKey a ++ restA) (encodeIDBKey b ++ restB)) := by
  have hpos : 0 < depth := by
    obtain ⟨byte, payload, henc, -⟩ := exists_encodeIDBKey a
    rw [henc, List.length_cons] at hdepth
    omega
  match a, b with
  | .string s, .string t => exact matches_strings s t hpos restA restB
  | .date d, .date e => exact matches_doubles d e (.inl ⟨rfl, rfl⟩) hpos restA restB
  | .number d, .number e => exact matches_doubles d e (.inr ⟨rfl, rfl⟩) hpos restA restB
  | .array as, .array bs =>
    simp only [IDBKey.ArraysAtMost, LengthsFit] at ha hb hfit
    obtain ⟨depth, rfl⟩ := Nat.exists_eq_succ_of_ne_zero hpos.ne'
    have hdepth' : (encodeIDBKeys as).length ≤ depth := by
      simp only [encodeIDBKey, List.length_cons, List.length_append] at hdepth
      omega
    have hfit' : ElementsFit (as.length - bs.length) as bs ∨
        (AllAtMost m as ∧ as.length ≤ m) ∧
          (AllAtMost m bs ∧ bs.length ≤ m) := by
      tauto
    obtain ⟨r, sliceA, sliceB, hloop, hzero, hrest, hsign⟩ :=
      compareArrays_matches hm hn as bs ha.2 hb.2 hfit' hdepth' restA restB
    have hmin : (Min.min (as.length : ℤ) bs.length).toNat = Min.min as.length bs.length := by
      omega
    refine ⟨andThen r (toInt (as.length - bs.length)), sliceA, sliceB, ?_, hzero, hrest, ?_⟩
    · simp only [compareEncodedIDBKeys, encodeIDBKey, List.cons_append, List.append_assoc,
        decodeByte, Option.bind_eq_bind, Option.bind_some, compareTypes_self, ne_eq,
        not_true_eq_false, if_false, if_true,
        decodeVarInt_encodeVarInt (n := as.length) (by omega),
        decodeVarInt_encodeVarInt (n := bs.length) (by omega), hmin, hloop, andThen]
      split_ifs <;> rfl
    · rw [sign_compare_array, LengthsFit]
      exact hsign
  | .string _, .date _ | .string _, .number _ | .string _, .array _
  | .date _, .string _ | .date _, .number _ | .date _, .array _
  | .number _, .string _ | .number _, .date _ | .number _, .array _
  | .array _, .string _ | .array _, .date _ | .array _, .number _ =>
    exact matches_of_type_ne (by simp [IDBKey.type]) hpos restA restB

theorem compareArrays_matches {m n : ℕ} (hm : m < 2 ^ 32) (hn : n < 2 ^ 63)
    (as bs : List IDBKey) (ha : AllAtMost n as)
    (hb : AllAtMost n bs)
    (hfit : ElementsFit (as.length - bs.length) as bs ∨
      (AllAtMost m as ∧ as.length ≤ m) ∧
        (AllAtMost m bs ∧ bs.length ≤ m))
    {depth : ℕ} (hdepth : (encodeIDBKeys as).length ≤ depth) (restA restB : Slice) :
    ∃ r sliceA sliceB, compareArrays (compareEncodedIDBKeys types depth)
        (Min.min as.length bs.length) (encodeIDBKeys as ++ restA) (encodeIDBKeys bs ++ restB) =
          some (r, sliceA, sliceB) ∧
      (andThen r (toInt (as.length - bs.length)) = 0 ↔ SameKeys as bs) ∧
      (andThen r (toInt (as.length - bs.length)) = 0 → sliceA = restA ∧ sliceB = restB) ∧
      ((andThen r (toInt (as.length - bs.length))).sign =
          (andThen (compareElements types as bs) ((as.length : ℤ) - bs.length)).sign ↔
        ElementsFit (as.length - bs.length) as bs) := by
  match as, bs with
  | [], [] =>
    refine ⟨0, restA, restB, by simp [compareArrays, encodeIDBKeys], ?_, fun _ => ⟨rfl, rfl⟩, ?_⟩
    · simp [SameKeys, toInt_zero]
    · simp [ElementsFit, compareElements, toInt_zero]
  | [], b :: bs =>
    have hzero := toInt_eq_zero (([] : List IDBKey).length - (b :: bs).length) (by
      simp only [ElementsFit] at hfit
      refine hfit.imp id fun h => ?_
      have := h.2.2
      simp only [List.length_nil]
      omega)
    have hne : ((([] : List IDBKey).length : ℤ) - (b :: bs).length) ≠ 0 := by
      simp only [List.length_nil, List.length_cons]
      omega
    refine ⟨0, restA, encodeIDBKeys (b :: bs) ++ restB, by simp [compareArrays, encodeIDBKeys], ?_,
      ?_, ?_⟩
    · rw [andThen_zero, hzero]
      simp only [SameKeys, iff_false]
      exact hne
    · rw [andThen_zero, hzero]
      exact fun h => absurd h hne
    · rw [andThen_zero]
      simp only [compareElements, ElementsFit]
      rw [andThen_zero]
  | a :: as, [] =>
    have hzero := toInt_eq_zero ((a :: as).length - ([] : List IDBKey).length) (by
      simp only [ElementsFit] at hfit
      refine hfit.imp id fun h => ?_
      have := h.1.2
      simp only [List.length_nil]
      omega)
    have hne : (((a :: as).length : ℤ) - ([] : List IDBKey).length) ≠ 0 := by
      simp only [List.length_nil, List.length_cons]
      omega
    refine ⟨0, encodeIDBKeys (a :: as) ++ restA, restB, by simp [compareArrays, encodeIDBKeys], ?_,
      ?_, ?_⟩
    · rw [andThen_zero, hzero]
      simp only [SameKeys, iff_false]
      exact hne
    · rw [andThen_zero, hzero]
      exact fun h => absurd h hne
    · rw [andThen_zero]
      simp only [compareElements, ElementsFit]
      rw [andThen_zero]
  | a :: as, b :: bs =>
    have hsizes : ((a :: as).length : ℤ) - (b :: bs).length = as.length - bs.length := by
      simp only [List.length_cons]
      omega
    simp only [AllAtMost, ElementsFit, hsizes] at ha hb hfit
    simp only [encodeIDBKeys, List.length_append] at hdepth
    obtain ⟨r, sliceA, sliceB, hcompare, hzero, hrest, hsign⟩ :=
      compareEncodedIDBKeys_matches hm hn a b ha.1 hb.1
        (hfit.imp (fun h => h.1) fun h => ⟨h.1.1.1, h.2.1.1⟩)
        (show (encodeIDBKey a).length ≤ depth by omega)
        (encodeIDBKeys as ++ restA) (encodeIDBKeys bs ++ restB)
    rw [hsizes, List.length_cons, List.length_cons, Nat.add_min_add_right, compareArrays,
      encodeIDBKeys, encodeIDBKeys, List.append_assoc, List.append_assoc, hcompare, SameKeys,
      ElementsFit, compareElements]
    simp only [Option.bind_eq_bind, Option.bind_some]
    by_cases hr : r = 0
    · have hsame := hzero.mp hr
      have hcmp : a.compare types b = 0 := (compare_eq_zero a b).mpr hsame
      obtain ⟨rfl, rfl⟩ := hrest hr
      subst hr
      have hfit' : ElementsFit (as.length - bs.length) as bs ∨
          (AllAtMost m as ∧ as.length ≤ m) ∧
            (AllAtMost m bs ∧ bs.length ≤ m) := by
        simp only [List.length_cons] at hfit
        refine hfit.imp (fun h => h.2 hsame) fun h => ⟨⟨h.1.1.2, ?_⟩, h.2.1.2, ?_⟩ <;> omega
      obtain ⟨r, sliceA, sliceB, hloop, hzero', hrest', hsign'⟩ :=
        compareArrays_matches hm hn as bs ha.2 hb.2 hfit'
          (show (encodeIDBKeys as).length ≤ depth by omega) restA restB
      have hlengths : LengthsFit a b := hsign.mp (by rw [hcmp])
      refine ⟨r, sliceA, sliceB, by simpa using hloop, ?_, hrest', ?_⟩
      · rw [hzero']
        exact (and_iff_right hsame).symm
      · rw [if_neg (not_not.mpr hcmp), hsign']
        exact ⟨fun h => ⟨hlengths, fun _ => h⟩, fun h => h.2 hsame⟩
    · have hsame : ¬ a.Same b := fun h => hr (hzero.mpr h)
      have hcmp : a.compare types b ≠ 0 := fun h => hsame ((compare_eq_zero a b).mp h)
      refine ⟨r, sliceA, sliceB, if_pos hr, ?_, ?_, ?_⟩
      · rw [andThen_of_ne hr]
        exact iff_of_false hr fun h => hsame h.1
      · rw [andThen_of_ne hr]
        exact fun h => absurd h hr
      · rw [andThen_of_ne hr, if_pos hcmp, andThen_of_ne hcmp, hsign]
        exact ⟨fun h => ⟨h, fun h' => absurd h' hsame⟩, fun h => h.1⟩

end

lemma agrees_of_matches {a b : IDBKey} {restA restB : Slice}
    (h : Matches types a b restA restB
      (compareKeys types (encodeIDBKey a ++ restA) (encodeIDBKey b ++ restB))) :
    Agrees types a b restA restB ↔ LengthsFit a b := by
  obtain ⟨r, sliceA, sliceB, hresult, hzero, hrest, hsign⟩ := h
  rw [← hsign]
  constructor
  · rintro ⟨r', sliceA', sliceB', hresult', hsign', -⟩
    rw [hresult, Option.some.injEq, Prod.mk.injEq] at hresult'
    rw [hresult'.1, hsign']
  · exact fun h => ⟨r, sliceA, sliceB, hresult, h, hrest⟩

variable (types) in
lemma compareKeys_matches {m n : ℕ} (hm : m < 2 ^ 32) (hn : n < 2 ^ 63) {a b : IDBKey}
    (ha : a.ArraysAtMost n) (hb : b.ArraysAtMost n)
    (hfit : LengthsFit a b ∨ a.ArraysAtMost m ∧ b.ArraysAtMost m) (restA restB : Slice) :
    Matches types a b restA restB
      (compareKeys types (encodeIDBKey a ++ restA) (encodeIDBKey b ++ restB)) :=
  compareEncodedIDBKeys_matches hm hn a b ha hb hfit (by simp) restA restB

end Outcome

section Agreement
variable (types : KeyTypes)

/-- The encodings of two keys agree with the keys if the lengths of the arrays at
their first difference fit, and, up to `2 ^ 32` elements in an array, only then. -/
theorem compareKeys_agrees_iff {m n : ℕ} (hm : m < 2 ^ 32) (hn : n < 2 ^ 63) (a b : IDBKey)
    (ha : a.ArraysAtMost n) (hb : b.ArraysAtMost n) :
    (LengthsFit a b → ∀ restA restB, Agrees types a b restA restB) ∧
    (a.ArraysAtMost m → b.ArraysAtMost m → ∀ restA restB,
      (Agrees types a b restA restB ↔ LengthsFit a b)) := by
  constructor
  · intro hfit restA restB
    exact (agrees_of_matches
      (compareKeys_matches types hm hn ha hb (.inl hfit) restA restB)).mpr hfit
  · intro ham hbm restA restB
    exact agrees_of_matches (compareKeys_matches types hm hn ha hb (.inr ⟨ham, hbm⟩) restA restB)

/-- Two arrays of one element, of which the elements decide. -/
theorem compareKeys_agrees_iff_singletons :
    (LengthsFit (.array [.string ⟨[1], by decide⟩]) (.array [.string ⟨[2], by decide⟩]) →
      ∀ restA restB, Agrees declaredKeyTypes (.array [.string ⟨[1], by decide⟩])
        (.array [.string ⟨[2], by decide⟩]) restA restB) ∧
    (IDBKey.ArraysAtMost 1 (.array [.string ⟨[1], by decide⟩]) →
      IDBKey.ArraysAtMost 1 (.array [.string ⟨[2], by decide⟩]) → ∀ restA restB,
        (Agrees declaredKeyTypes (.array [.string ⟨[1], by decide⟩])
          (.array [.string ⟨[2], by decide⟩]) restA restB ↔
          LengthsFit (.array [.string ⟨[1], by decide⟩]) (.array [.string ⟨[2], by decide⟩]))) :=
  compareKeys_agrees_iff declaredKeyTypes (m := 1) (n := 1) (by omega) (by omega) _ _
    (by simp [IDBKey.ArraysAtMost, AllAtMost]) (by simp [IDBKey.ArraysAtMost, AllAtMost])

/-- One more element than an `int` counts, against none. -/
lemma not_lengthsFit_replicate {k : ℕ} (hk : k = 2 ^ 31) (key : IDBKey) :
    ¬ LengthsFit (.array (List.replicate k key)) (.array []) := by
  have hdifference : toInt (k : ℤ) = -2 ^ 31 := by
    rw [hk]
    decide
  have hsign : (k : ℤ).sign = 1 := Int.sign_eq_one_of_pos (by omega)
  rw [LengthsFit]
  cases hkeys : List.replicate k key with
  | nil =>
    rw [List.replicate_eq_nil_iff] at hkeys
    omega
  | cons first keys =>
    simp only [ElementsFit, ← hkeys, List.length_replicate, List.length_nil, Nat.cast_zero,
      sub_zero, hdifference, hsign]
    decide

/-- An array of `2 ^ 31` zeros comes after the empty array, and its encoding before. -/
theorem compareKeys_not_agrees :
    ¬ ∀ (types : KeyTypes) (n : ℕ) (a b : IDBKey), n < 2 ^ 63 → a.ArraysAtMost n →
      b.ArraysAtMost n → ∀ restA restB, Agrees types a b restA restB := by
  intro h
  obtain ⟨k, hk⟩ : ∃ k : ℕ, k = 2 ^ 31 := ⟨_, rfl⟩
  have ha : IDBKey.ArraysAtMost k (.array (List.replicate k (.number ⟨0, by decide⟩))) := by
    rw [IDBKey.ArraysAtMost, List.length_replicate]
    exact ⟨le_rfl, allAtMost_replicate (by simp [IDBKey.ArraysAtMost]) _⟩
  have hb : IDBKey.ArraysAtMost k (.array []) := by simp [IDBKey.ArraysAtMost, AllAtMost]
  have hmatches := compareKeys_matches declaredKeyTypes (m := k) (n := k) (by omega) (by omega)
    ha hb (.inr ⟨ha, hb⟩) [] []
  have hagrees := h declaredKeyTypes k _ _ (by omega) ha hb [] []
  exact not_lengthsFit_replicate hk _ ((agrees_of_matches hmatches).mp hagrees)

end Agreement

end Chromium.IDBCoding
