import Chromium.IDBIndexData
import Chromium.TaggedTrees

/-!
# The bytes that the IndexedDB key parsers look at

`DecodeIDBKey` and `ConsumeEncodedIDBKey` with every byte access written out. Both
parsers read tagged trees. The first one looks for the end of the slice before it reads a
type byte, the second one does not.
-/
namespace Chromium.IDBCoding.Reads
open TaggedTree TaggedTree.Reading

/-- An `IndexedDBKey`; the one without a type is `null`. -/
inductive IndexedDBKey
  | null
  | string (value : List UInt16)
  | date (value : DoubleBits)
  | number (value : DoubleBits)
  | array (keys : List IndexedDBKey)

section Parsers

/-- `(*slice)[0]` and `remove_prefix(1)`. -/
def readByte : Slice → Reading (UInt8 × Slice)
  | [] => .outside
  | c :: slice => .accepts (c, slice)

/-- The counter is an `unsigned`, the length is a `size_t`. -/
def decodeStringLoop (length : ℕ) : Slice → UInt32 → Reading (List UInt16)
  | hi :: lo :: slice, i =>
    if i.toNat < length then do
      let s ← decodeStringLoop length slice (i + 1)
      return ((hi.toUInt16 <<< 8) ||| lo.toUInt16) :: s
    else return []
  | _, i => if i.toNat < length then .outside else return []

def decodeString (slice : Slice) : Reading (List UInt16) :=
  decodeStringLoop (slice.length / 2) slice 0

def decodeStringWithLength (slice : Slice) : Reading (List UInt16 × Slice) := do
  let (length, slice) ← ofOption (decodeVarInt slice)
  if length < 0 then .rejects
  else
    let bytes := length.toNat * 2
    if slice.length < bytes then .rejects
    else
      let value ← decodeString (slice.take bytes)
      return (value, slice.drop bytes)

def decodeIDBKey : ℕ → Slice → Reading (IndexedDBKey × Slice)
  | 0, _ => .unfinished
  | _ + 1, [] => .rejects
  | depth + 1, type :: slice =>
    if type = kIndexedDBKeyNullTypeByte then return (.null, slice)
    else if type = kIndexedDBKeyArrayTypeByte then do
      let (length, slice) ← ofOption (decodeVarInt slice)
      if length < 0 then .rejects
      else
        let (array, slice) ← readMany (decodeIDBKey depth) length.toNat slice
        return (.array array, slice)
    else if type = kIndexedDBKeyStringTypeByte then do
      let (s, slice) ← decodeStringWithLength slice
      return (.string s, slice)
    else if type = kIndexedDBKeyDateTypeByte then do
      let (d, slice) ← ofOption (decodeDouble slice)
      return (.date d, slice)
    else if type = kIndexedDBKeyNumberTypeByte then do
      let (d, slice) ← ofOption (decodeDouble slice)
      return (.number d, slice)
    else .rejects

def consumeMany (consume : Slice → Reading Slice) : ℕ → Slice → Reading Slice
  | 0, slice => return slice
  | n + 1, slice => do
    let slice ← consume slice
    consumeMany consume n slice

def consumeEncodedIDBKey : ℕ → Slice → Reading Slice
  | 0, _ => .unfinished
  | depth + 1, slice => do
    let (type, slice) ← readByte slice
    if type = kIndexedDBKeyNullTypeByte ∨ type = kIndexedDBKeyMinKeyTypeByte then return slice
    else if type = kIndexedDBKeyArrayTypeByte then
      let (length, slice) ← ofOption (decodeVarInt slice)
      -- `while (length--)` runs through all the 64 bits
      consumeMany (consumeEncodedIDBKey depth) (length % 2 ^ 64).toNat slice
    else if type = kIndexedDBKeyStringTypeByte then
      let (length, slice) ← ofOption (decodeVarInt slice)
      if length < 0 then .rejects
      else if slice.length < length.toNat * 2 then .rejects
      else return slice.drop (length.toNat * 2)
    else if type = kIndexedDBKeyDateTypeByte ∨ type = kIndexedDBKeyNumberTypeByte then
      if slice.length < 8 then .rejects else return slice.drop 8
    else .rejects

/-- An encoded key and the slice after it. -/
def extractEncodedIDBKey (depth : ℕ) (slice : Slice) : Reading (Slice × Slice) := do
  let rest ← consumeEncodedIDBKey depth slice
  return (slice.take (slice.length - rest.length), rest)

end Parsers

section Refinement

lemma toOption_readByte (slice : Slice) : (readByte slice).toOption = decodeByte slice := by
  cases slice <;> rfl

lemma toOption_consumeMany {consume : Slice → Reading Slice} {consume' : Slice → Option Slice}
    (h : ∀ s, (consume s).toOption = consume' s) (n : ℕ) (slice : Slice) :
    (consumeMany consume n slice).toOption = consumeLoop consume' n slice := by
  induction n generalizing slice with
  | zero => rfl
  | succ n ih => rw [consumeMany, consumeLoop, toOption_bind, h, funext ih]

/-- The skipping of a key is the one of the index data keys; there a byte outside counts as a
failure. -/
theorem toOption_consumeEncodedIDBKey (depth : ℕ) (slice : Slice) :
    (consumeEncodedIDBKey depth slice).toOption = IDBCoding.consumeEncodedIDBKey depth slice := by
  induction depth generalizing slice with
  | zero => rfl
  | succ depth ih =>
    cases slice with
    | nil => rfl
    | cons type slice =>
      rw [consumeEncodedIDBKey, IDBCoding.consumeEncodedIDBKey, readByte, accepts_bind, decodeByte]
      simp only [Option.bind_eq_bind, Option.bind_some]
      split_ifs with hempty harray hstring hdouble hshort
      · rfl
      · rw [toOption_bind, toOption_ofOption]
        congr 1
        funext p
        exact toOption_consumeMany ih _ _
      · rw [toOption_bind, toOption_ofOption]
        congr 1
        funext p
        split_ifs <;> rfl
      · rfl
      · rfl
      · rfl

end Refinement

section Formats

/-- `DecodeIDBKey` as a reader of trees. -/
def decodeFormat : Format IndexedDBKey where
  arrayTag := kIndexedDBKeyArrayTypeByte
  checked := true
  count slice := do
    let (length, slice) ← ofOption (decodeVarInt slice)
    if length < 0 then .rejects else return (length.toNat, slice)
  leaf type slice :=
    if type = kIndexedDBKeyNullTypeByte then return (.null, slice)
    else if type = kIndexedDBKeyStringTypeByte then do
      let (s, slice) ← decodeStringWithLength slice
      return (.string s, slice)
    else if type = kIndexedDBKeyDateTypeByte then do
      let (d, slice) ← ofOption (decodeDouble slice)
      return (.date d, slice)
    else if type = kIndexedDBKeyNumberTypeByte then do
      let (d, slice) ← ofOption (decodeDouble slice)
      return (.number d, slice)
    else .rejects
  array := .array

/-- `ConsumeEncodedIDBKey` as a reader of trees. -/
def consumeFormat : Format Unit where
  arrayTag := kIndexedDBKeyArrayTypeByte
  checked := false
  count slice := do
    let (length, slice) ← ofOption (decodeVarInt slice)
    return ((length % 2 ^ 64).toNat, slice)
  leaf type slice :=
    if type = kIndexedDBKeyNullTypeByte ∨ type = kIndexedDBKeyMinKeyTypeByte then
      return ((), slice)
    else if type = kIndexedDBKeyStringTypeByte then do
      let (length, slice) ← ofOption (decodeVarInt slice)
      if length < 0 then .rejects
      else if slice.length < length.toNat * 2 then .rejects
      else return ((), slice.drop (length.toNat * 2))
    else if type = kIndexedDBKeyDateTypeByte ∨ type = kIndexedDBKeyNumberTypeByte then
      if slice.length < 8 then .rejects else return ((), slice.drop 8)
    else .rejects
  array _ := ()

theorem decodeIDBKey_eq_read (depth : ℕ) (slice : Slice) :
    decodeIDBKey depth slice = decodeFormat.read depth slice := by
  induction depth generalizing slice with
  | zero => rfl
  | succ depth ih =>
    cases slice with
    | nil => rfl
    | cons type slice =>
      rw [decodeIDBKey, Format.read]
      by_cases harray : type = kIndexedDBKeyArrayTypeByte
      · have hnull : type ≠ kIndexedDBKeyNullTypeByte := by
          rw [harray]
          decide
        rw [if_neg hnull, if_pos harray, if_pos (show type = decodeFormat.arrayTag from harray),
          show decodeIDBKey depth = decodeFormat.read depth from funext ih]
        show (ofOption (decodeVarInt slice) >>= _) = ((ofOption (decodeVarInt slice) >>= _) >>= _)
        cases decodeVarInt slice with
        | none => rfl
        | some p =>
          simp only [ofOption, accepts_bind]
          split_ifs <;> rfl
      · rw [if_neg harray, if_neg (show type ≠ decodeFormat.arrayTag from harray)]
        rfl

lemma readMany_unit (consume : Slice → Reading Slice) (n : ℕ) (slice : Slice) :
    readMany (fun s => consume s >>= fun s => .accepts ((), s)) n slice =
      (consumeMany consume n slice >>= fun s => .accepts (List.replicate n (), s)) := by
  induction n generalizing slice with
  | zero => rfl
  | succ n ih =>
    rw [readMany, consumeMany]
    cases consume slice with
    | accepts slice =>
      simp only [accepts_bind, ih]
      cases consumeMany consume n slice <;> rfl
    | rejects => rfl
    | outside => rfl
    | unfinished => rfl

theorem read_eq_consumeEncodedIDBKey (depth : ℕ) (slice : Slice) :
    consumeFormat.read depth slice =
      (consumeEncodedIDBKey depth slice >>= fun s => .accepts ((), s)) := by
  induction depth generalizing slice with
  | zero => rfl
  | succ depth ih =>
    cases slice with
    | nil => rfl
    | cons type slice =>
      rw [consumeEncodedIDBKey, Format.read, readByte, accepts_bind]
      dsimp only
      by_cases harray : type = kIndexedDBKeyArrayTypeByte
      · have hempty : ¬ (type = kIndexedDBKeyNullTypeByte ∨
            type = kIndexedDBKeyMinKeyTypeByte) := by
          rw [harray]
          decide
        rw [if_neg hempty, if_pos harray, if_pos (show type = consumeFormat.arrayTag from harray),
          show consumeFormat.read depth =
            fun s => consumeEncodedIDBKey depth s >>= fun s => .accepts ((), s) from funext ih]
        show ((ofOption (decodeVarInt slice) >>= _) >>= _) =
          ((ofOption (decodeVarInt slice) >>= _) >>= _)
        cases decodeVarInt slice with
        | none => rfl
        | some p =>
          simp only [ofOption, accepts_bind, pure_eq, readMany_unit]
          cases consumeMany (consumeEncodedIDBKey depth) (p.1 % 2 ^ 64).toNat p.2 <;> rfl
      · rw [if_neg harray, if_neg (show type ≠ consumeFormat.arrayTag from harray)]
        simp only [consumeFormat]
        split_ifs
        · rfl
        · cases decodeVarInt slice with
          | none => rfl
          | some p =>
            simp only [ofOption, accepts_bind]
            split_ifs <;> rfl
        · rfl
        · rfl
        · rfl

end Formats

section Strings

lemma decodeVarInt_eq_some {slice rest : Slice} {n : ℤ} :
    decodeVarInt slice = some (n, rest) ↔ ∃ bytes, VarInt bytes n ∧ slice = bytes ++ rest := by
  constructor
  · intro h
    obtain ⟨bytes, rfl, hbytes⟩ := exists_varInt h
    exact ⟨bytes, hbytes, rfl⟩
  · intro h
    obtain ⟨bytes, hbytes, rfl⟩ := h
    exact hbytes rest

/-- The counter reaches a length that an `unsigned` can hold. -/
lemma decodeStringLoop_of_lt {length : ℕ} (hlength : length < 2 ^ 32) (slice : Slice) (i : UInt32)
    (hi : i.toNat + slice.length / 2 = length) :
    decodeStringLoop length slice i = .accepts (IDBCoding.decodeString slice) := by
  fun_induction decodeStringLoop length slice i with
  | case1 hi lo slice i hlt ih =>
    simp only [List.length_cons] at *
    have hnext : (i + 1).toNat = i.toNat + 1 := by
      rw [UInt32.toNat_add, UInt32.toNat_one, Nat.mod_eq_of_lt (by omega)]
    rw [ih (by omega)]
    rfl
  | case2 hi lo slice i hlt =>
    simp only [List.length_cons] at *
    omega
  | case3 slice i hlt hshort =>
    have hlen : slice.length < 2 := by
      match slice, hshort with
      | [], _ => simp
      | [_], _ => simp
      | hi :: lo :: slice, hshort => exact (hshort hi lo slice rfl).elim
    omega
  | case4 slice i hlt hshort =>
    match slice, hshort with
    | [], _ => rfl
    | [_], _ => rfl
    | hi :: lo :: slice, hshort => exact (hshort hi lo slice rfl).elim

/-- The counter wraps around before it reaches a larger length. -/
lemma decodeStringLoop_of_le {length : ℕ} (hlength : 2 ^ 32 ≤ length) (slice : Slice) (i : UInt32) :
    decodeStringLoop length slice i = .outside := by
  have hlt (i : UInt32) : i.toNat < length := i.toNat_lt.trans_le hlength
  fun_induction decodeStringLoop length slice i with
  | case1 hi lo slice i h ih => rw [ih, outside_bind]
  | case2 hi lo slice i h => exact absurd (hlt i) h
  | case3 slice i h hshort => rfl
  | case4 slice i h hshort => exact absurd (hlt i) h

lemma decodeStringLoop_finishes (length : ℕ) (slice : Slice) (i : UInt32) :
    decodeStringLoop length slice i ≠ .unfinished := by
  fun_induction decodeStringLoop length slice i with
  | case1 hi lo slice i h ih => simpa [bind_eq_unfinished] using ih
  | case2 hi lo slice i h => simp
  | case3 slice i h hshort => simp
  | case4 slice i h hshort => simp

lemma decodeString_of_lt {slice : Slice} (h : slice.length / 2 < 2 ^ 32) :
    decodeString slice = .accepts (IDBCoding.decodeString slice) :=
  decodeStringLoop_of_lt h slice 0 (by simp)

lemma decodeString_of_le {slice : Slice} (h : 2 ^ 32 ≤ slice.length / 2) :
    decodeString slice = .outside :=
  decodeStringLoop_of_le h slice 0

end Strings

section Grammars

/-- A type byte and a payload that `DecodeIDBKey` turns into a key that is no array. -/
inductive DecodedLeaf : UInt8 → Slice → IndexedDBKey → Prop
  | null : DecodedLeaf kIndexedDBKeyNullTypeByte [] .null
  | string {length value : Slice} {n : ℕ} (hlength : VarInt length n) (hn : n < 2 ^ 32)
      (hvalue : value.length = n * 2) : DecodedLeaf kIndexedDBKeyStringTypeByte (length ++ value)
        (.string (IDBCoding.decodeString value))
  | date {value : Slice} (hvalue : value.length = 8) :
      DecodedLeaf kIndexedDBKeyDateTypeByte value (.date (BitVec.ofNat 64 (memoryValue value)))
  | number {value : Slice} (hvalue : value.length = 8) :
      DecodedLeaf kIndexedDBKeyNumberTypeByte value (.number (BitVec.ofNat 64 (memoryValue value)))

/-- A whole string starts here whose length does not fit the counter of `DecodeString`. -/
inductive LongString : UInt8 → Slice → Prop
  | intro {length value : Slice} {n : ℕ} (hlength : VarInt length n) (hn : 2 ^ 32 ≤ n)
      (hvalue : value.length = n * 2) (rest : Slice) :
      LongString kIndexedDBKeyStringTypeByte (length ++ (value ++ rest))

/-- A type byte and a payload that `ConsumeEncodedIDBKey` skips. -/
inductive ConsumedLeaf : UInt8 → Slice → Unit → Prop
  | null : ConsumedLeaf kIndexedDBKeyNullTypeByte [] ()
  | min : ConsumedLeaf kIndexedDBKeyMinKeyTypeByte [] ()
  | string {length value : Slice} {n : ℕ} (hlength : VarInt length n)
      (hvalue : value.length = n * 2) :
      ConsumedLeaf kIndexedDBKeyStringTypeByte (length ++ value) ()
  | date {value : Slice} (hvalue : value.length = 8) :
      ConsumedLeaf kIndexedDBKeyDateTypeByte value ()
  | number {value : Slice} (hvalue : value.length = 8) :
      ConsumedLeaf kIndexedDBKeyNumberTypeByte value ()

def decodeGrammar : Grammar IndexedDBKey where
  Count length n := VarInt length n
  Leaf := DecodedLeaf
  Bad := LongString

def consumeGrammar : Grammar Unit where
  Count length n := ∃ z, VarInt length z ∧ (z % 2 ^ 64).toNat = n
  Leaf := ConsumedLeaf
  Bad _ _ := False

/-- The bytes of a string, after its length has been decoded. -/
lemma decodeStringWithLength_eq_accepts {slice rest : Slice} {s : List UInt16} :
    decodeStringWithLength slice = .accepts (s, rest) ↔ ∃ (length value : Slice) (n : ℕ),
      VarInt length n ∧ n < 2 ^ 32 ∧ value.length = n * 2 ∧ s = IDBCoding.decodeString value ∧
        slice = length ++ (value ++ rest) := by
  constructor
  · intro h
    simp only [decodeStringWithLength, bind_eq_accepts, ofOption_eq_accepts, Prod.exists] at h
    obtain ⟨n, slice', hn, h⟩ := h
    obtain ⟨length, hlength, rfl⟩ := decodeVarInt_eq_some.mp hn
    split_ifs at h with hneg hshort
    simp only [bind_eq_accepts, pure_eq, Reading.accepts.injEq, Prod.mk.injEq] at h
    obtain ⟨value, hvalue, rfl, rfl⟩ := h
    have hlen : (slice'.take (n.toNat * 2)).length = n.toNat * 2 := by
      rw [List.length_take]
      omega
    have hlt : n.toNat < 2 ^ 32 := by
      by_contra hle
      rw [decodeString_of_le (by omega)] at hvalue
      cases hvalue
    rw [decodeString_of_lt (by omega), Reading.accepts.injEq] at hvalue
    rw [← Int.toNat_of_nonneg (not_lt.mp hneg)] at hlength
    exact ⟨length, _, n.toNat, hlength, hlt, hlen, hvalue.symm, by rw [List.take_append_drop]⟩
  · intro h
    obtain ⟨length, value, n, hlength, hn, hvalue, rfl, rfl⟩ := h
    rw [decodeStringWithLength, hlength.decode, ofOption, accepts_bind]
    have htake : (value ++ rest).take (n * 2) = value := List.take_left' hvalue
    have hdrop : (value ++ rest).drop (n * 2) = rest := List.drop_left' hvalue
    dsimp only
    rw [if_neg (by omega), if_neg (by rw [List.length_append]; omega), Int.toNat_natCast, htake,
      hdrop, decodeString_of_lt (by omega)]
    rfl

lemma decodeStringWithLength_eq_outside {slice : Slice} :
    decodeStringWithLength slice = .outside ↔ LongString kIndexedDBKeyStringTypeByte slice := by
  constructor
  · intro h
    simp only [decodeStringWithLength, bind_eq_outside, ofOption_ne_outside, false_or,
      ofOption_eq_accepts, Prod.exists] at h
    obtain ⟨n, slice', hn, h⟩ := h
    obtain ⟨length, hlength, rfl⟩ := decodeVarInt_eq_some.mp hn
    split_ifs at h with hneg hshort
    simp only [bind_eq_outside, pure_eq, reduceCtorEq, and_false, exists_false, or_false] at h
    have hlen : (slice'.take (n.toNat * 2)).length = n.toNat * 2 := by
      rw [List.length_take]
      omega
    have hle : 2 ^ 32 ≤ n.toNat := by
      by_contra hlt
      rw [decodeString_of_lt (by omega)] at h
      cases h
    rw [← Int.toNat_of_nonneg (not_lt.mp hneg)] at hlength
    have hlong := LongString.intro hlength hle hlen (slice'.drop (n.toNat * 2))
    rwa [List.take_append_drop] at hlong
  · intro h
    obtain ⟨hlength, hn, hvalue, rest⟩ := h
    rename_i length value n
    rw [decodeStringWithLength, hlength.decode, ofOption, accepts_bind]
    have htake : (value ++ rest).take (n * 2) = value := List.take_left' hvalue
    dsimp only
    rw [if_neg (by omega), if_neg (by rw [List.length_append]; omega), Int.toNat_natCast, htake,
      decodeString_of_le (by omega)]
    rfl

lemma decodeDouble_eq_some {slice rest : Slice} {d : DoubleBits} :
    decodeDouble slice = some (d, rest) ↔ ∃ value : Slice, value.length = 8 ∧
      d = BitVec.ofNat 64 (memoryValue value) ∧ slice = value ++ rest := by
  rw [decodeDouble]
  constructor
  · intro h
    split_ifs at h with hshort
    simp only [Option.some.injEq, Prod.mk.injEq] at h
    obtain ⟨rfl, rfl⟩ := h
    have hlen : (slice.take 8).length = 8 := by
      rw [List.length_take]
      omega
    exact ⟨_, hlen, rfl, (List.take_append_drop 8 slice).symm⟩
  · intro h
    obtain ⟨value, hvalue, rfl, rfl⟩ := h
    rw [if_neg (by rw [List.length_append]; omega), List.take_left' hvalue, List.drop_left' hvalue]

theorem decodeFormat_reads : decodeFormat.Reads decodeGrammar where
  count {s n rest} := by
    simp only [decodeFormat, decodeGrammar, bind_eq_accepts, ofOption_eq_accepts, Prod.exists]
    constructor
    · intro h
      obtain ⟨z, slice, hz, h⟩ := h
      obtain ⟨length, hlength, rfl⟩ := decodeVarInt_eq_some.mp hz
      split_ifs at h with hneg
      cases h
      rw [← Int.toNat_of_nonneg (not_lt.mp hneg)] at hlength
      exact ⟨length, hlength, rfl⟩
    · intro h
      obtain ⟨length, hlength, rfl⟩ := h
      exact ⟨n, rest, hlength rest, by rw [if_neg (by omega)]; rfl⟩
  count_safe s := by
    simp only [decodeFormat, Safe]
    cases decodeVarInt s with
    | none => exact ⟨by simp [ofOption], by simp [ofOption]⟩
    | some p =>
      rw [ofOption, accepts_bind]
      split_ifs <;> exact ⟨by simp, by simp⟩
  leaf {tag s v rest} htag := by
    simp only [decodeFormat, decodeGrammar] at htag ⊢
    constructor
    · intro h
      split_ifs at h with hnull hstring hdate hnumber
      · cases h
        exact ⟨[], hnull ▸ .null, rfl⟩
      · simp only [bind_eq_accepts, pure_eq, Reading.accepts.injEq, Prod.exists,
          Prod.mk.injEq] at h
        obtain ⟨value, slice, hvalue, rfl, rfl⟩ := h
        obtain ⟨length, bytes, n, hlength, hn, hbytes, rfl, rfl⟩ :=
          decodeStringWithLength_eq_accepts.mp hvalue
        exact ⟨_, hstring ▸ .string hlength hn hbytes, (List.append_assoc _ _ _).symm⟩
      · simp only [bind_eq_accepts, pure_eq, Reading.accepts.injEq, Prod.exists,
          Prod.mk.injEq, ofOption_eq_accepts] at h
        obtain ⟨d, slice, hd, rfl, rfl⟩ := h
        obtain ⟨value, hvalue, rfl, rfl⟩ := decodeDouble_eq_some.mp hd
        exact ⟨value, hdate ▸ .date hvalue, rfl⟩
      · simp only [bind_eq_accepts, pure_eq, Reading.accepts.injEq, Prod.exists,
          Prod.mk.injEq, ofOption_eq_accepts] at h
        obtain ⟨d, slice, hd, rfl, rfl⟩ := h
        obtain ⟨value, hvalue, rfl, rfl⟩ := decodeDouble_eq_some.mp hd
        exact ⟨value, hnumber ▸ .number hvalue, rfl⟩
    · intro h
      obtain ⟨payload, hleaf, rfl⟩ := h
      cases hleaf with
      | null => rfl
      | @string length value n hlength hn hvalue =>
        have hs := decodeStringWithLength_eq_accepts.mpr
          ⟨length, value, n, hlength, hn, hvalue, rfl, List.append_assoc length value rest⟩
        rw [if_neg (by decide), if_pos rfl, hs]
        rfl
      | date hvalue =>
        rw [if_neg (by decide), if_neg (by decide), if_pos rfl,
          decodeDouble_eq_some.mpr ⟨payload, hvalue, rfl, rfl⟩]
        rfl
      | number hvalue =>
        rw [if_neg (by decide), if_neg (by decide), if_neg (by decide), if_pos rfl,
          decodeDouble_eq_some.mpr ⟨payload, hvalue, rfl, rfl⟩]
        rfl
  leaf_outside {tag s} htag := by
    simp only [decodeFormat, decodeGrammar] at htag ⊢
    constructor
    · intro h
      split_ifs at h with hnull hstring hdate hnumber
      · simp only [bind_eq_outside, pure_eq, reduceCtorEq, and_false, exists_false, or_false] at h
        rw [hstring]
        exact decodeStringWithLength_eq_outside.mp h
      · simp [bind_eq_outside] at h
      · simp [bind_eq_outside] at h
    · intro h
      have htype : tag = kIndexedDBKeyStringTypeByte := by
        cases h
        rfl
      rw [htype] at h
      rw [htype, if_neg (by decide), if_pos rfl, decodeStringWithLength_eq_outside.mpr h,
        outside_bind]
  leaf_finishes tag s := by
    simp only [decodeFormat]
    split_ifs
    · simp
    · simp only [bind_eq_unfinished, decodeStringWithLength, pure_eq, reduceCtorEq, and_false,
        exists_false, or_false, ofOption_ne_unfinished, false_or, not_exists, not_and, Prod.forall,
        ne_eq]
      intro n slice hn
      split_ifs
      · simp
      · simp
      · rw [decodeString, bind_eq_unfinished]
        simp [decodeStringLoop_finishes]
    · simp [bind_eq_unfinished]
    · simp [bind_eq_unfinished]
    · simp

theorem consumeFormat_reads : consumeFormat.Reads consumeGrammar where
  count {s n rest} := by
    simp only [consumeFormat, consumeGrammar, bind_eq_accepts, ofOption_eq_accepts, Prod.exists,
      pure_eq, Reading.accepts.injEq, Prod.mk.injEq]
    constructor
    · intro h
      obtain ⟨z, slice, hz, hn, rfl⟩ := h
      obtain ⟨length, hlength, rfl⟩ := decodeVarInt_eq_some.mp hz
      exact ⟨length, ⟨z, hlength, hn⟩, rfl⟩
    · intro h
      obtain ⟨length, ⟨z, hlength, hn⟩, rfl⟩ := h
      exact ⟨z, rest, hlength rest, hn, rfl⟩
  count_safe s := by
    simp only [consumeFormat, Safe]
    cases decodeVarInt s <;> exact ⟨by simp [ofOption], by simp [ofOption]⟩
  leaf {tag s v rest} htag := by
    simp only [consumeFormat, consumeGrammar] at htag ⊢
    constructor
    · intro h
      split_ifs at h with hempty hstring hdouble hshort
      · cases h
        rcases hempty with hnull | hmin
        · exact ⟨[], hnull ▸ .null, rfl⟩
        · exact ⟨[], hmin ▸ .min, rfl⟩
      · simp only [bind_eq_accepts, ofOption_eq_accepts, Prod.exists] at h
        obtain ⟨n, slice, hn, h⟩ := h
        obtain ⟨length, hlength, rfl⟩ := decodeVarInt_eq_some.mp hn
        split_ifs at h with hneg hshort
        cases h
        have hlen : (slice.take (n.toNat * 2)).length = n.toNat * 2 := by
          rw [List.length_take]
          omega
        rw [← Int.toNat_of_nonneg (not_lt.mp hneg)] at hlength
        refine ⟨length ++ slice.take (n.toNat * 2), hstring ▸ .string hlength hlen, ?_⟩
        rw [List.append_assoc, List.take_append_drop]
      · cases h
        have hlen : (s.take 8).length = 8 := by
          rw [List.length_take]
          omega
        rcases hdouble with hdate | hnumber
        · exact ⟨_, hdate ▸ .date hlen, (List.take_append_drop 8 s).symm⟩
        · exact ⟨_, hnumber ▸ .number hlen, (List.take_append_drop 8 s).symm⟩
    · intro h
      obtain ⟨payload, hleaf, rfl⟩ := h
      cases hleaf with
      | null => rfl
      | min => rfl
      | @string length value n hlength hvalue =>
        rw [if_neg (by decide), if_pos rfl, List.append_assoc, hlength.decode, ofOption,
          accepts_bind]
        dsimp only
        rw [if_neg (by omega), if_neg (by rw [List.length_append]; omega), Int.toNat_natCast,
          List.drop_left' hvalue]
        rfl
      | date hvalue =>
        rw [if_neg (by decide), if_neg (by decide), if_pos (.inl rfl),
          if_neg (by rw [List.length_append]; omega), List.drop_left' hvalue]
        rfl
      | number hvalue =>
        rw [if_neg (by decide), if_neg (by decide), if_pos (.inr rfl),
          if_neg (by rw [List.length_append]; omega), List.drop_left' hvalue]
        rfl
  leaf_outside {tag s} htag := by
    simp only [consumeFormat, consumeGrammar, iff_false]
    split_ifs
    · simp
    · simp only [bind_eq_outside, ofOption_ne_outside, false_or, not_exists, not_and, Prod.forall]
      intro n slice hn
      split_ifs <;> simp
    · simp
    · simp
    · simp
  leaf_finishes tag s := by
    simp only [consumeFormat]
    split_ifs
    · simp
    · simp only [bind_eq_unfinished, ofOption_ne_unfinished, false_or, not_exists, not_and,
        Prod.forall, ne_eq]
      intro n slice hn
      split_ifs <;> simp
    · simp
    · simp
    · simp

end Grammars

section Outcomes

/-- The parsing of a key reaches a string that is too long for the counter of
`DecodeString`. -/
def HasLongString (slice : Slice) : Prop :=
  ∃ type rest, Reaches decodeFormat decodeGrammar slice (type :: rest) ∧ LongString type rest

/-- The slice ends where a key has to start. -/
def CutKey (slice : Slice) : Prop := Reaches consumeFormat consumeGrammar slice []

variable {depth : ℕ} {slice : Slice}

theorem decodeIDBKey_eq_outside (h : slice.length < depth) :
    decodeIDBKey depth slice = .outside ↔ HasLongString slice := by
  rw [decodeIDBKey_eq_read, read_eq_outside decodeFormat_reads h]
  constructor
  · intro hstuck
    obtain ⟨t, hreaches, ⟨-, hchecked⟩ | ⟨type, rest, rfl, -, hlong⟩⟩ := hstuck
    · cases hchecked
    · exact ⟨type, rest, hreaches, hlong⟩
  · intro hlong
    obtain ⟨type, rest, hreaches, hlong⟩ := hlong
    have htype : type ≠ decodeFormat.arrayTag := by
      cases hlong
      decide
    exact ⟨_, hreaches, .inr ⟨type, rest, rfl, htype, hlong⟩⟩

theorem decodeIDBKey_finishes (h : slice.length < depth) :
    decodeIDBKey depth slice ≠ .unfinished := by
  rw [decodeIDBKey_eq_read]
  exact read_finishes decodeFormat_reads h

lemma consumeEncodedIDBKey_eq_outside (h : slice.length < depth) :
    consumeEncodedIDBKey depth slice = .outside ↔ CutKey slice := by
  have hread : consumeEncodedIDBKey depth slice = .outside ↔
      consumeFormat.read depth slice = .outside := by
    rw [read_eq_consumeEncodedIDBKey, bind_eq_outside]
    simp
  rw [hread, read_eq_outside consumeFormat_reads h]
  constructor
  · intro hstuck
    obtain ⟨t, hreaches, ⟨rfl, -⟩ | ⟨type, rest, rfl, -, hbad⟩⟩ := hstuck
    · exact hreaches
    · exact hbad.elim
  · intro hcut
    exact ⟨[], hcut, .inl ⟨rfl, rfl⟩⟩

theorem extractEncodedIDBKey_eq_outside (h : slice.length < depth) :
    extractEncodedIDBKey depth slice = .outside ↔ CutKey slice := by
  rw [extractEncodedIDBKey, bind_eq_outside, consumeEncodedIDBKey_eq_outside h]
  simp

theorem extractEncodedIDBKey_finishes (h : slice.length < depth) :
    extractEncodedIDBKey depth slice ≠ .unfinished := by
  have hread := read_finishes consumeFormat_reads h
  rw [read_eq_consumeEncodedIDBKey, Ne, bind_eq_unfinished] at hread
  rw [extractEncodedIDBKey, Ne, bind_eq_unfinished]
  simpa using hread

/-- Every key that is decoded can be skipped. -/
lemma consumed_of_decoded {bytes : Slice} {key : IndexedDBKey}
    (h : Tree decodeFormat decodeGrammar bytes key) :
    Tree consumeFormat consumeGrammar bytes () := by
  induction h with
  | leaf htag hleaf =>
    refine .leaf htag ?_
    cases hleaf with
    | null => exact .null
    | string hlength hn hvalue => exact .string hlength hvalue
    | date hvalue => exact .date hvalue
    | number hvalue => exact .number hvalue
  | @array length trees hcount htrees ih =>
    have hbytes : bytesOf trees = bytesOf (trees.map fun tree => (tree.1, ())) := by
      simp [bytesOf, Function.comp_def]
    rw [hbytes]
    refine .array ⟨_, hcount, ?_⟩ ?_
    · have hbounds := decodeVarInt_bounds (hcount [])
      rw [List.length_map]
      omega
    · intro tree hmem
      obtain ⟨t, ht, rfl⟩ := List.mem_map.mp hmem
      exact ih t ht

/-- What `DecodeIDBKey` accepts, `ExtractEncodedIDBKey` accepts with the same rest. -/
theorem extract_of_decode (h : slice.length < depth) {key : IndexedDBKey} {rest : Slice}
    (hdecode : decodeIDBKey depth slice = .accepts (key, rest)) :
    ∃ bytes, extractEncodedIDBKey depth slice = .accepts (bytes, rest) ∧ slice = bytes ++ rest := by
  rw [decodeIDBKey_eq_read] at hdecode
  obtain ⟨bytes, htree, rfl⟩ := read_sound decodeFormat_reads hdecode
  rw [List.length_append] at h
  have hread := (consumed_of_decoded htree).read consumeFormat_reads rest
    (show bytes.length ≤ depth by omega)
  rw [read_eq_consumeEncodedIDBKey, bind_eq_accepts] at hread
  obtain ⟨rest', hconsume, hrest⟩ := hread
  cases hrest
  refine ⟨bytes, ?_, rfl⟩
  rw [extractEncodedIDBKey, hconsume, accepts_bind, List.length_append, Nat.add_sub_cancel_right,
    List.take_left]
  rfl

end Outcomes

end Chromium.IDBCoding.Reads
