import Chromium.IDBKeyCompare

/-!
# Decoded index data keys

`IndexDataKey::Decode` takes the three parts of an index data key apart without
decoding the keys in them: `ConsumeEncodedIDBKey` only finds where they end. What
it accepts is described by a grammar, and the comparison of two such keys depends
on no byte after them. The comparison of whole keys and the comparison of decoded
keys then differ only where a primary key is missing.
-/
namespace Chromium.IDBCoding
open Comparator

section Decoding

/-- The elements of an array. -/
def consumeLoop (consume : Slice → Option Slice) : ℕ → Slice → Option Slice
  | 0, slice => some slice
  | n + 1, slice => (consume slice).bind (consumeLoop consume n)

/-- The slice after an encoded key. The nesting depth of the key bounds the
recursion. A key must not start at the end of the slice. -/
def consumeEncodedIDBKey : ℕ → Slice → Option Slice
  | 0, _ => none
  | depth + 1, slice => do
    let (type, slice) ← decodeByte slice
    if type = kIndexedDBKeyNullTypeByte ∨ type = kIndexedDBKeyMinKeyTypeByte then return slice
    else if type = kIndexedDBKeyArrayTypeByte then
      let (length, slice) ← decodeVarInt slice
      -- `while (length--)` runs through all the 64 bits
      consumeLoop (consumeEncodedIDBKey depth) (length % 2 ^ 64).toNat slice
    else if type = kIndexedDBKeyStringTypeByte then
      let (length, slice) ← decodeVarInt slice
      if length < 0 then none
      else if slice.length < length.toNat * 2 then none
      else return slice.drop (length.toNat * 2)
    else if type = kIndexedDBKeyDateTypeByte ∨ type = kIndexedDBKeyNumberTypeByte then
      if slice.length < 8 then none else return slice.drop 8
    else none

/-- An encoded key and the slice after it. -/
def extractEncodedIDBKey (slice : Slice) : Option (Slice × Slice) := do
  let rest ← consumeEncodedIDBKey slice.length slice
  return (slice.take (slice.length - rest.length), rest)

structure IndexDataKey where
  databaseId : ℤ
  objectStoreId : ℤ
  indexId : ℤ
  encodedUserKey : Slice
  encodedPrimaryKey : Slice
  sequenceNumber : ℤ
  deriving DecidableEq

def IndexDataKey.decode (slice : Slice) : Option IndexDataKey := do
  let (keyPrefix, slice) ← KeyPrefix.decode slice
  let (userKey, slice) ← extractEncodedIDBKey slice
  let key : IndexDataKey :=
    ⟨keyPrefix.databaseId, keyPrefix.objectStoreId, keyPrefix.indexId, userKey, minIDBKey, -1⟩
  if slice = [] then return key
  else
    let (sequenceNumber, slice) ← decodeVarInt slice
    if slice = [] then return { key with sequenceNumber := sequenceNumber }
    else
      let (primaryKey, _) ← extractEncodedIDBKey slice
      return { key with sequenceNumber := sequenceNumber, encodedPrimaryKey := primaryKey }

/-- The `CompareEncodedIDBKeys` of two strings. -/
def compareEncodedKeys (types : KeyTypes) (keyA keyB : Slice) : Option ℤ := do
  let (result, _, _) ← compareKeys types keyA keyB
  return result

def IndexDataKey.compare (types : KeyTypes) (key other : IndexDataKey)
    (onlyCompareIndexKeys : Bool) : Option ℤ := do
  let result ← compareEncodedKeys types key.encodedUserKey other.encodedUserKey
  if result ≠ 0 then return result
  else if onlyCompareIndexKeys then return 0
  else
    let result ← compareEncodedKeys types key.encodedPrimaryKey other.encodedPrimaryKey
    if result ≠ 0 then return result
    else return compareInts key.sequenceNumber other.sequenceNumber

end Decoding

section Grammar

/-- These bytes are a variable-length integer, whatever follows them. -/
def VarInt (bytes : Slice) (n : ℤ) : Prop :=
  ∀ rest, decodeVarInt (bytes ++ rest) = some (n, rest)

/-- What `ConsumeEncodedIDBKey` takes for a key. -/
inductive EncodedKey : Slice → Prop
  | null : EncodedKey [kIndexedDBKeyNullTypeByte]
  | min : EncodedKey [kIndexedDBKeyMinKeyTypeByte]
  | array {length : Slice} {keys : List Slice} (hlength : VarInt length keys.length)
      (hkeys : ∀ key ∈ keys, EncodedKey key) :
      EncodedKey (kIndexedDBKeyArrayTypeByte :: (length ++ keys.flatten))
  | string {length value : Slice} {n : ℕ} (hlength : VarInt length n)
      (hvalue : value.length = n * 2) :
      EncodedKey (kIndexedDBKeyStringTypeByte :: (length ++ value))
  | date {value : Slice} (hvalue : value.length = 8) :
      EncodedKey (kIndexedDBKeyDateTypeByte :: value)
  | number {value : Slice} (hvalue : value.length = 8) :
      EncodedKey (kIndexedDBKeyNumberTypeByte :: value)

lemma decodeVarIntLoop_append {slice rest : Slice} {shift ret n : ℕ}
    (h : decodeVarIntLoop slice shift ret = some (n, rest)) : ∃ bytes, slice = bytes ++ rest ∧
      ∀ more, decodeVarIntLoop (bytes ++ more) shift ret = some (n, more) := by
  induction slice generalizing shift ret with
  | nil => simp [decodeVarIntLoop] at h
  | cons c slice ih =>
    rw [decodeVarIntLoop] at h
    split_ifs at h with hmore
    · obtain ⟨bytes, rfl, hbytes⟩ := ih h
      refine ⟨c :: bytes, rfl, fun more => ?_⟩
      rw [List.cons_append, decodeVarIntLoop, if_pos hmore]
      exact hbytes more
    · cases h
      refine ⟨[c], rfl, fun more => ?_⟩
      rw [List.cons_append, decodeVarIntLoop, if_neg hmore]
      rfl

lemma exists_varInt {slice rest : Slice} {n : ℤ} (h : decodeVarInt slice = some (n, rest)) :
    ∃ bytes, slice = bytes ++ rest ∧ VarInt bytes n := by
  simp only [decodeVarInt, Option.bind_eq_bind, Option.bind_eq_some_iff, Option.pure_def,
    Option.some.injEq, Prod.mk.injEq] at h
  obtain ⟨⟨ret, rest'⟩, hloop, rfl, rfl⟩ := h
  obtain ⟨bytes, rfl, hbytes⟩ := decodeVarIntLoop_append hloop
  refine ⟨bytes, rfl, fun more => ?_⟩
  rw [decodeVarInt, hbytes more]
  rfl

lemma VarInt.decode {bytes : Slice} {n : ℤ} (h : VarInt bytes n) (rest : Slice) :
    decodeVarInt (bytes ++ rest) = some (n, rest) := h rest

lemma EncodedKey.ne_nil {key : Slice} (h : EncodedKey key) : key ≠ [] := by
  cases h <;> simp

lemma toInt64_bounds (n : ℕ) : -2 ^ 63 ≤ toInt64 n ∧ toInt64 n < 2 ^ 63 := by
  have hlo := Int.le_bmod (x := n) (m := 2 ^ 64) (Nat.two_pow_pos 64)
  have hhi := Int.bmod_lt (x := n) (m := 2 ^ 64) (Nat.two_pow_pos 64)
  norm_num at hlo hhi ⊢
  exact ⟨hlo, hhi⟩

lemma decodeVarInt_bounds {slice rest : Slice} {n : ℤ} (h : decodeVarInt slice = some (n, rest)) :
    -2 ^ 63 ≤ n ∧ n < 2 ^ 63 := by
  simp only [decodeVarInt, Option.bind_eq_bind, Option.bind_eq_some_iff, Option.pure_def,
    Option.some.injEq, Prod.mk.injEq] at h
  obtain ⟨⟨ret, rest'⟩, -, rfl, -⟩ := h
  exact toInt64_bounds ret

/-- The loop takes `n` keys. -/
lemma exists_keys {consume : Slice → Option Slice}
    (hconsume : ∀ slice rest, consume slice = some rest → slice.length < 2 ^ 63 →
      ∃ key, EncodedKey key ∧ slice = key ++ rest) {n : ℕ} {slice rest : Slice}
    (h : consumeLoop consume n slice = some rest) (hslice : slice.length < 2 ^ 63) :
    ∃ keys : List Slice, keys.length = n ∧ n ≤ slice.length ∧ (∀ key ∈ keys, EncodedKey key) ∧
      slice = keys.flatten ++ rest := by
  induction n generalizing slice with
  | zero =>
    cases h
    exact ⟨[], rfl, Nat.zero_le _, by simp, rfl⟩
  | succ n ih =>
    rw [consumeLoop, Option.bind_eq_some_iff] at h
    obtain ⟨mid, hfirst, hloop⟩ := h
    obtain ⟨key, hkey, rfl⟩ := hconsume _ _ hfirst hslice
    rw [List.length_append] at hslice
    obtain ⟨keys, hlen, hle, hkeys, rfl⟩ := ih hloop (by omega)
    have hpos := List.length_pos_of_ne_nil hkey.ne_nil
    refine ⟨key :: keys, by simp [hlen], ?_, by simpa using ⟨hkey, hkeys⟩, by simp⟩
    rw [List.length_append]
    omega

/-- What is consumed is a key of the grammar. An array cannot have a negative
length: the bytes run out first. -/
theorem exists_encodedKey {depth : ℕ} {slice rest : Slice}
    (h : consumeEncodedIDBKey depth slice = some rest) (hslice : slice.length < 2 ^ 63) :
    ∃ key, EncodedKey key ∧ slice = key ++ rest := by
  induction depth generalizing slice rest with
  | zero => cases h
  | succ depth ih =>
    cases slice with
    | nil => simp [consumeEncodedIDBKey, decodeByte] at h
    | cons type slice =>
      rw [List.length_cons] at hslice
      simp only [consumeEncodedIDBKey, decodeByte, Option.bind_eq_bind, Option.bind_some,
        Option.pure_def] at h
      split_ifs at h with hempty harray hstring hdouble hshort
      · cases h
        rcases hempty with rfl | rfl
        · exact ⟨_, .null, rfl⟩
        · exact ⟨_, .min, rfl⟩
      · subst harray
        rw [Option.bind_eq_some_iff] at h
        obtain ⟨⟨n, slice'⟩, hn, hloop⟩ := h
        dsimp only at hloop
        obtain ⟨length, rfl, hlength⟩ := exists_varInt hn
        rw [List.length_append] at hslice
        obtain ⟨keys, hcount, hle, hkeys, rfl⟩ :=
          exists_keys (fun _ _ h hlt => ih h hlt) hloop (by omega)
        have hn : n = keys.length := by
          have hbounds := decodeVarInt_bounds (hlength [])
          omega
        exact ⟨_, .array (hn ▸ hlength) hkeys, by simp⟩
      · subst hstring
        rw [Option.bind_eq_some_iff] at h
        obtain ⟨⟨n, slice'⟩, hn, hvalue⟩ := h
        obtain ⟨length, rfl, hlength⟩ := exists_varInt hn
        dsimp only at hvalue
        split_ifs at hvalue with hneg hshort
        cases hvalue
        have htake : (slice'.take (n.toNat * 2)).length = n.toNat * 2 := by
          rw [List.length_take]
          omega
        rw [← Int.toNat_of_nonneg (not_lt.mp hneg)] at hlength
        exact ⟨_, .string hlength htake, by simp⟩
      · cases h
        have htake : (slice.take 8).length = 8 := by
          rw [List.length_take]
          omega
        rcases hdouble with rfl | rfl
        · exact ⟨_, .date htake, by simp⟩
        · exact ⟨_, .number htake, by simp⟩

end Grammar

section Comparison
variable (types : KeyTypes)

/-- The comparison of two keys does not depend on what follows them, and keys that
are equal are consumed. -/
def Decided (keyA keyB : Slice) (r : ℤ) : Prop :=
  ∀ restA restB depth, keyA.length ≤ depth → ∃ sliceA sliceB,
    compareEncodedIDBKeys types depth (keyA ++ restA) (keyB ++ restB) = some (r, sliceA, sliceB) ∧
    (r = 0 → sliceA = restA ∧ sliceB = restB)

variable {types}

lemma decided_of_types_ne {typeA typeB : UInt8} (payloadA payloadB : Slice)
    (h : keyTypeByteToKeyType typeA ≠ keyTypeByteToKeyType typeB) :
    Decided types (typeA :: payloadA) (typeB :: payloadB)
      (compareTypes types (keyTypeByteToKeyType typeA) (keyTypeByteToKeyType typeB)) := by
  intro restA restB depth hdepth
  obtain ⟨depth, rfl⟩ := Nat.exists_eq_succ_of_ne_zero (Nat.lt_of_lt_of_le (by simp) hdepth).ne'
  have hne : types.value (keyTypeByteToKeyType typeA) ≠ types.value (keyTypeByteToKeyType typeB) :=
    fun heq => h (types.injective heq)
  have hx : compareTypes types (keyTypeByteToKeyType typeA) (keyTypeByteToKeyType typeB) ≠ 0 := by
    rw [compareTypes]
    omega
  refine ⟨payloadA ++ restA, payloadB ++ restB, ?_, fun h0 => absurd h0 hx⟩
  simp [compareEncodedIDBKeys, decodeByte, hx]

lemma decided_sentinels {type : UInt8}
    (h : type = kIndexedDBKeyNullTypeByte ∨ type = kIndexedDBKeyMinKeyTypeByte) :
    Decided types [type] [type] 0 := by
  intro restA restB depth hdepth
  obtain ⟨depth, rfl⟩ := Nat.exists_eq_succ_of_ne_zero (Nat.lt_of_lt_of_le (by simp) hdepth).ne'
  refine ⟨restA, restB, ?_, fun _ => ⟨rfl, rfl⟩⟩
  rcases h with rfl | rfl <;>
    simp [compareEncodedIDBKeys, decodeByte, compareTypes_self, kIndexedDBKeyNullTypeByte,
      kIndexedDBKeyMinKeyTypeByte, kIndexedDBKeyArrayTypeByte, kIndexedDBKeyStringTypeByte,
      kIndexedDBKeyDateTypeByte, kIndexedDBKeyNumberTypeByte]

lemma decided_strings {lengthA lengthB valueA valueB : Slice} {n m : ℕ} (hA : VarInt lengthA n)
    (hB : VarInt lengthB m) (hvalueA : valueA.length = n * 2) (hvalueB : valueB.length = m * 2) :
    Decided types (kIndexedDBKeyStringTypeByte :: (lengthA ++ valueA))
      (kIndexedDBKeyStringTypeByte :: (lengthB ++ valueB)) (lexCompare valueA valueB) := by
  intro restA restB depth hdepth
  obtain ⟨depth, rfl⟩ := Nat.exists_eq_succ_of_ne_zero (Nat.lt_of_lt_of_le (by simp) hdepth).ne'
  refine ⟨restA, restB, ?_, fun _ => ⟨rfl, rfl⟩⟩
  simp [compareEncodedIDBKeys, decodeByte, compareTypes_self, kIndexedDBKeyArrayTypeByte,
    kIndexedDBKeyStringTypeByte, compareEncodedStringsWithLength, hA.decode, hB.decode, ← hvalueA,
    ← hvalueB]

lemma decided_doubles {type : UInt8} {valueA valueB : Slice}
    (h : type = kIndexedDBKeyDateTypeByte ∨ type = kIndexedDBKeyNumberTypeByte)
    (hvalueA : valueA.length = 8) (hvalueB : valueB.length = 8) :
    Decided types (type :: valueA) (type :: valueB)
      (compareDoubles (BitVec.ofNat 64 (memoryValue valueA))
        (BitVec.ofNat 64 (memoryValue valueB))) := by
  intro restA restB depth hdepth
  obtain ⟨depth, rfl⟩ := Nat.exists_eq_succ_of_ne_zero (Nat.lt_of_lt_of_le (by simp) hdepth).ne'
  refine ⟨restA, restB, ?_, fun _ => ⟨rfl, rfl⟩⟩
  have hdecA : decodeDouble (valueA ++ restA) =
      some (BitVec.ofNat 64 (memoryValue valueA), restA) := by
    rw [decodeDouble, if_neg (by simp [hvalueA]), List.take_left' hvalueA,
      List.drop_left' hvalueA]
  have hdecB : decodeDouble (valueB ++ restB) =
      some (BitVec.ofNat 64 (memoryValue valueB), restB) := by
    rw [decodeDouble, if_neg (by simp [hvalueB]), List.take_left' hvalueB,
      List.drop_left' hvalueB]
  rcases h with rfl | rfl <;>
    simp [compareEncodedIDBKeys, decodeByte, compareTypes_self, kIndexedDBKeyArrayTypeByte,
      kIndexedDBKeyStringTypeByte, kIndexedDBKeyDateTypeByte, kIndexedDBKeyNumberTypeByte, hdecA,
      hdecB, compareDoubles]

lemma decided_loop (keysA keysB : List Slice)
    (hA : ∀ keyA ∈ keysA, ∀ keyB ∈ keysB, ∃ r, Decided types keyA keyB r) :
    ∃ r, ∀ restA restB depth, keysA.flatten.length ≤ depth → ∃ sliceA sliceB,
      compareArrays (compareEncodedIDBKeys types depth) (Min.min keysA.length keysB.length)
          (keysA.flatten ++ restA) (keysB.flatten ++ restB) = some (r, sliceA, sliceB) ∧
        (r = 0 → keysA.length = keysB.length → sliceA = restA ∧ sliceB = restB) := by
  induction keysA generalizing keysB with
  | nil =>
    refine ⟨0, fun restA restB depth _ => ⟨restA, keysB.flatten ++ restB, ?_, fun _ hlen => ?_⟩⟩
    · simp [compareArrays]
    · obtain rfl : keysB = [] := List.length_eq_zero_iff.mp hlen.symm
      simp
  | cons keyA keysA ih =>
    cases keysB with
    | nil =>
      refine ⟨0, fun restA restB depth _ => ⟨(keyA :: keysA).flatten ++ restA, restB, ?_, ?_⟩⟩
      · simp [compareArrays]
      · simp
    | cons keyB keysB =>
      obtain ⟨r, hfirst⟩ := hA keyA (by simp) keyB (by simp)
      obtain ⟨r', hloop⟩ := ih keysB fun a ha b hb =>
        hA a (List.mem_cons_of_mem _ ha) b (List.mem_cons_of_mem _ hb)
      refine ⟨andThen r r', fun restA restB depth hdepth => ?_⟩
      rw [List.flatten_cons, List.length_append] at hdepth
      obtain ⟨sliceA, sliceB, hcompare, hrest⟩ := hfirst (keysA.flatten ++ restA)
        (keysB.flatten ++ restB) depth (by omega)
      simp only [List.length_cons, Nat.add_min_add_right, compareArrays, List.flatten_cons,
        List.append_assoc, hcompare, Option.bind_eq_bind, Option.bind_some,
        Nat.add_right_cancel_iff]
      by_cases hr : r = 0
      · obtain ⟨rfl, rfl⟩ := hrest hr
        subst hr
        exact hloop restA restB depth (by omega)
      · rw [andThen_of_ne hr]
        exact ⟨sliceA, sliceB, if_pos hr, fun h => absurd h hr⟩

lemma length_le_flatten {keys : List Slice} (h : ∀ key ∈ keys, EncodedKey key) :
    keys.length ≤ keys.flatten.length := by
  induction keys with
  | nil => simp
  | cons key keys ih =>
    have hpos := List.length_pos_of_ne_nil (h key (by simp)).ne_nil
    have hrest := ih fun k hk => h k (List.mem_cons_of_mem _ hk)
    rw [List.flatten_cons, List.length_append, List.length_cons]
    omega

lemma decided_arrays {lengthA lengthB : Slice} {keysA keysB : List Slice}
    (hlengthA : VarInt lengthA keysA.length) (hlengthB : VarInt lengthB keysB.length)
    (hA : keysA.length < 2 ^ 32) (hB : keysB.length < 2 ^ 32)
    (hkeys : ∀ keyA ∈ keysA, ∀ keyB ∈ keysB, ∃ r, Decided types keyA keyB r) :
    ∃ r, Decided types (kIndexedDBKeyArrayTypeByte :: (lengthA ++ keysA.flatten))
      (kIndexedDBKeyArrayTypeByte :: (lengthB ++ keysB.flatten)) r := by
  obtain ⟨r, hloop⟩ := decided_loop keysA keysB hkeys
  refine ⟨andThen r (toInt (keysA.length - keysB.length)), fun restA restB depth hdepth => ?_⟩
  obtain ⟨depth, rfl⟩ := Nat.exists_eq_succ_of_ne_zero (Nat.lt_of_lt_of_le (by simp) hdepth).ne'
  simp only [List.length_cons, List.length_append] at hdepth
  obtain ⟨sliceA, sliceB, hcompare, hrest⟩ := hloop restA restB depth (by omega)
  have hmin : (Min.min (keysA.length : ℤ) keysB.length).toNat =
      Min.min keysA.length keysB.length := by omega
  refine ⟨sliceA, sliceB, ?_, fun h => ?_⟩
  · simp only [compareEncodedIDBKeys, List.cons_append, List.append_assoc, decodeByte,
      Option.bind_eq_bind, Option.bind_some, compareTypes_self, ne_eq, not_true_eq_false, if_false,
      if_true, hlengthA.decode, hlengthB.decode, hmin, hcompare, andThen]
    split_ifs <;> rfl
  · by_cases hr : r = 0
    · subst hr
      rw [andThen_zero, toInt_eq_zero _ (.inr (by omega))] at h
      exact hrest rfl (by omega)
    · rw [andThen_of_ne hr] at h
      exact absurd h hr

variable (types) in
/-- Two keys of the grammar, up to 4 GiB. -/
theorem exists_decided {keyA keyB : Slice} (hA : EncodedKey keyA) (hB : EncodedKey keyB)
    (hlenA : keyA.length < 2 ^ 32) (hlenB : keyB.length < 2 ^ 32) :
    ∃ r, Decided types keyA keyB r := by
  induction hA generalizing keyB with
  | null =>
    cases hB with
    | null => exact ⟨_, decided_sentinels (.inl rfl)⟩
    | _ => exact ⟨_, decided_of_types_ne _ _ (by decide)⟩
  | min =>
    cases hB with
    | min => exact ⟨_, decided_sentinels (.inr rfl)⟩
    | _ => exact ⟨_, decided_of_types_ne _ _ (by decide)⟩
  | @array lengthA keysA hlengthA hkeysA ih =>
    cases hB with
    | @array lengthB keysB hlengthB hkeysB =>
      simp only [List.length_cons, List.length_append] at hlenA hlenB
      have hleA := length_le_flatten hkeysA
      have hleB := length_le_flatten hkeysB
      refine decided_arrays hlengthA hlengthB (by omega) (by omega) fun a ha b hb => ?_
      have hla : a.length ≤ keysA.flatten.length := (List.sublist_flatten_of_mem ha).length_le
      have hlb : b.length ≤ keysB.flatten.length := (List.sublist_flatten_of_mem hb).length_le
      exact ih a ha (hkeysB b hb) (by omega) (by omega)
    | _ => exact ⟨_, decided_of_types_ne _ _ (by decide)⟩
  | string hlengthA hvalueA =>
    cases hB with
    | string hlengthB hvalueB => exact ⟨_, decided_strings hlengthA hlengthB hvalueA hvalueB⟩
    | _ => exact ⟨_, decided_of_types_ne _ _ (by decide)⟩
  | date hvalueA =>
    cases hB with
    | date hvalueB => exact ⟨_, decided_doubles (.inl rfl) hvalueA hvalueB⟩
    | _ => exact ⟨_, decided_of_types_ne _ _ (by decide)⟩
  | number hvalueA =>
    cases hB with
    | number hvalueB => exact ⟨_, decided_doubles (.inr rfl) hvalueA hvalueB⟩
    | _ => exact ⟨_, decided_of_types_ne _ _ (by decide)⟩

end Comparison

section Agreement
variable {types : KeyTypes}

/-- There are bytes after the sequence number. -/
def hasPrimaryKey (slice : Slice) : Bool :=
  (do
    let (_, slice) ← KeyPrefix.decode slice
    let (_, slice) ← extractEncodedIDBKey slice
    let (_, slice) ← decodeSequenceNumber slice
    return slice).getD [] ≠ []

/-- The prefix of index data, which `IndexDataKey::Decode` relies on. -/
def IndexDataKey.IsIndexData (key : IndexDataKey) : Prop :=
  key.databaseId ≠ 0 ∧ key.objectStoreId ≠ 0 ∧ kMinimumIndexId ≤ key.indexId

/-- The same three ids. -/
def IndexDataKey.SamePrefix (key other : IndexDataKey) : Prop :=
  key.databaseId = other.databaseId ∧ key.objectStoreId = other.objectStoreId ∧
    key.indexId = other.indexId

instance (key : IndexDataKey) : Decidable key.IsIndexData :=
  inferInstanceAs (Decidable (_ ∧ _ ∧ _))

instance (key other : IndexDataKey) : Decidable (key.SamePrefix other) :=
  inferInstanceAs (Decidable (_ ∧ _ ∧ _))

/-- The keys that the comparison of suffixes orders as the decoded keys are ordered:
the user keys decide, or both primary keys are there, or the default values of the
missing ones do not matter. -/
def SuffixAgrees (types : KeyTypes) (a b : Slice) (keyA keyB : IndexDataKey)
    (onlyCompareIndexKeys : Bool) : Prop :=
  onlyCompareIndexKeys = true ∨
  compareEncodedKeys types keyA.encodedUserKey keyB.encodedUserKey ≠ some 0 ∨
  match hasPrimaryKey a, hasPrimaryKey b with
  | true, true => True
  | false, false => keyA.sequenceNumber = keyB.sequenceNumber
  | false, true => keyB.encodedPrimaryKey = minIDBKey →
    Int.bmod (keyA.sequenceNumber - keyB.sequenceNumber) (2 ^ 64) < 0
  | true, false => keyA.encodedPrimaryKey = minIDBKey →
    Int.bmod (keyA.sequenceNumber - keyB.sequenceNumber) (2 ^ 64) > 0

lemma KeyPrefix.decode_length {a rest : Slice} {p : KeyPrefix}
    (h : KeyPrefix.decode a = some (p, rest)) : rest.length ≤ a.length := by
  cases a with
  | nil => simp [KeyPrefix.decode, decodeByte] at h
  | cons firstByte slice =>
    simp only [KeyPrefix.decode, decodeByte, Option.bind_eq_bind, Option.bind_some] at h
    split_ifs at h
    simp only [Option.bind_eq_some_iff, Option.pure_def, Option.some.injEq, Prod.mk.injEq] at h
    obtain ⟨_, -, _, -, _, -, -, rfl⟩ := h
    simp only [List.length_drop, List.length_cons]
    omega

lemma extract_eq_some {slice key rest : Slice} (h : extractEncodedIDBKey slice = some (key, rest))
    (hslice : slice.length < 2 ^ 63) : EncodedKey key ∧ slice = key ++ rest := by
  simp only [extractEncodedIDBKey, Option.bind_eq_bind, Option.bind_eq_some_iff, Option.pure_def,
    Option.some.injEq, Prod.mk.injEq] at h
  obtain ⟨rest', hconsume, hkey, rfl⟩ := h
  obtain ⟨key', hkey', rfl⟩ := exists_encodedKey hconsume hslice
  obtain rfl : key' = key := by simpa using hkey
  exact ⟨hkey', rfl⟩

/-- The parts of a key that was decoded. -/
structure Parts (a : Slice) (key : IndexDataKey) (tail rest : Slice) : Prop where
  decodePrefix : KeyPrefix.decode a =
    some (⟨key.databaseId, key.objectStoreId, key.indexId⟩, key.encodedUserKey ++ tail)
  userKey : EncodedKey key.encodedUserKey
  sequenceNumber : decodeSequenceNumber tail = some (key.sequenceNumber, rest)
  missing : rest = [] → key.encodedPrimaryKey = minIDBKey
  primaryKey : rest ≠ [] → EncodedKey key.encodedPrimaryKey ∧
    ∃ more, rest = key.encodedPrimaryKey ++ more
  hasPrimaryKey : hasPrimaryKey a = decide (rest ≠ [])

lemma Parts.lengths {a tail rest : Slice} {key : IndexDataKey} (h : Parts a key tail rest) :
    key.encodedUserKey.length ≤ a.length ∧ rest.length ≤ a.length := by
  have hlen := KeyPrefix.decode_length h.decodePrefix
  have htail : rest.length ≤ tail.length := by
    have hseq := h.sequenceNumber
    rw [decodeSequenceNumber] at hseq
    split_ifs at hseq with hempty
    · simp only [Option.some.injEq, Prod.mk.injEq] at hseq
      rw [hseq.2]
    · obtain ⟨bytes, rfl, -⟩ := exists_varInt hseq
      simp
  rw [List.length_append] at hlen
  omega

lemma Parts.sequenceNumber_bounds {a tail rest : Slice} {key : IndexDataKey}
    (h : Parts a key tail rest) : -2 ^ 63 ≤ key.sequenceNumber ∧ key.sequenceNumber < 2 ^ 63 := by
  have hseq := h.sequenceNumber
  rw [decodeSequenceNumber] at hseq
  split_ifs at hseq
  · simp only [Option.some.injEq, Prod.mk.injEq] at hseq
    omega
  · exact decodeVarInt_bounds hseq

theorem exists_parts {a : Slice} {key : IndexDataKey} (h : IndexDataKey.decode a = some key)
    (ha : a.length < 2 ^ 63) : ∃ tail rest, Parts a key tail rest := by
  simp only [IndexDataKey.decode, Option.bind_eq_bind, Option.bind_eq_some_iff] at h
  obtain ⟨⟨p, slice⟩, hpre, ⟨userKey, tail⟩, huser, h⟩ := h
  dsimp only at huser h
  have hslice : slice.length < 2 ^ 63 :=
    Nat.lt_of_le_of_lt (KeyPrefix.decode_length hpre) ha
  have huser' := extract_eq_some huser hslice
  have hlen : tail.length < 2 ^ 63 := by
    rw [huser'.2, List.length_append] at hslice
    omega
  have hhas : ∀ n rest, decodeSequenceNumber tail = some (n, rest) →
      hasPrimaryKey a = decide (rest ≠ []) := fun n rest hseq => by
    simp [hasPrimaryKey, hpre, huser, hseq]
  split_ifs at h with htail
  · cases h
    have hseq : decodeSequenceNumber tail = some (-1, []) := by rw [htail]; rfl
    exact ⟨tail, [], huser'.2 ▸ hpre, huser'.1, hseq, fun _ => rfl,
      fun hne => absurd rfl hne, hhas _ _ hseq⟩
  · rw [Option.bind_eq_some_iff] at h
    obtain ⟨⟨n, rest⟩, hn, h⟩ := h
    dsimp only at h
    have hseq : decodeSequenceNumber tail = some (n, rest) := by
      rw [decodeSequenceNumber, if_neg htail, hn]
    split_ifs at h with hrest
    · cases h
      exact ⟨tail, rest, huser'.2 ▸ hpre, huser'.1, hseq, fun _ => rfl,
        fun hne => absurd hrest hne, hhas _ _ hseq⟩
    · rw [Option.bind_eq_some_iff] at h
      obtain ⟨⟨primaryKey, more⟩, hprimary, h⟩ := h
      cases h
      obtain ⟨bytes, rfl, -⟩ := exists_varInt hn
      rw [List.length_append] at hlen
      have hprimary' := extract_eq_some hprimary (by omega)
      exact ⟨bytes ++ rest, rest, huser'.2 ▸ hpre, huser'.1, hseq, fun h0 => absurd h0 hrest,
        fun _ => ⟨hprimary'.1, more, hprimary'.2⟩, hhas _ _ hseq⟩

lemma Decided.compareKeys {keyA keyB : Slice} {r : ℤ} (h : Decided types keyA keyB r)
    (restA restB : Slice) : ∃ sliceA sliceB,
      compareKeys types (keyA ++ restA) (keyB ++ restB) = some (r, sliceA, sliceB) ∧
      (r = 0 → sliceA = restA ∧ sliceB = restB) :=
  h restA restB _ (by simp)

lemma Decided.compareEncodedKeys {keyA keyB : Slice} {r : ℤ} (h : Decided types keyA keyB r) :
    compareEncodedKeys types keyA keyB = some r := by
  obtain ⟨sliceA, sliceB, hcompare, -⟩ := h.compareKeys [] []
  rw [List.append_nil, List.append_nil] at hcompare
  simp [IDBCoding.compareEncodedKeys, hcompare]

/-- The minimum comes before every other key. -/
lemma decided_min_left (hmin : ∀ t, t ≠ .min → types.value t < types.value .min) {key : Slice}
    (h : EncodedKey key) (hne : key ≠ minIDBKey) :
    ∃ r, Decided types minIDBKey key r ∧ r < 0 := by
  have hlt : ∀ t, t ≠ .min → compareTypes types .min t < 0 := fun t ht => by
    have := hmin t ht
    rw [compareTypes]
    omega
  cases h with
  | min => exact absurd rfl hne
  | _ => exact ⟨_, decided_of_types_ne _ _ (by decide), hlt _ (by decide)⟩

lemma decided_min_right (hmin : ∀ t, t ≠ .min → types.value t < types.value .min) {key : Slice}
    (h : EncodedKey key) (hne : key ≠ minIDBKey) :
    ∃ r, Decided types key minIDBKey r ∧ 0 < r := by
  have hgt : ∀ t, t ≠ .min → 0 < compareTypes types t .min := fun t ht => by
    have := hmin t ht
    rw [compareTypes]
    omega
  cases h with
  | min => exact absurd rfl hne
  | _ => exact ⟨_, decided_of_types_ne _ _ (by decide), hgt _ (by decide)⟩

lemma decided_min_min : Decided types minIDBKey minIDBKey 0 := decided_sentinels (.inr rfl)

lemma bmod_sub_eq_zero {a b : ℤ} (ha : -2 ^ 63 ≤ a ∧ a < 2 ^ 63) (hb : -2 ^ 63 ≤ b ∧ b < 2 ^ 63) :
    Int.bmod (a - b) (2 ^ 64) = 0 ↔ a = b := by
  constructor
  · intro h
    have hdvd := Int.dvd_of_bmod_eq_zero h
    omega
  · rintro rfl
    rw [sub_self]
    rfl

lemma sign_compareInts (a b : ℤ) :
    (compareInts a b).sign = (Int.bmod (a - b) (2 ^ 64)).sign := by
  simp only [compareInts]
  split_ifs with hneg hpos
  · rw [Int.sign_eq_neg_one_of_neg hneg]
    rfl
  · rw [Int.sign_eq_one_of_pos hpos]
    rfl
  · rw [(by omega : Int.bmod (a - b) (2 ^ 64) = 0)]

lemma IndexDataKey.compare_of_user {keyA keyB : IndexDataKey} {r : ℤ}
    (h : Decided types keyA.encodedUserKey keyB.encodedUserKey r) (only : Bool) :
    keyA.compare types keyB only =
      if r ≠ 0 then some r
      else if only then some 0
      else (compareEncodedKeys types keyA.encodedPrimaryKey keyB.encodedPrimaryKey).bind
        fun result =>
          some (andThen result (compareInts keyA.sequenceNumber keyB.sequenceNumber)) := by
  simp only [IndexDataKey.compare, h.compareEncodedKeys, Option.bind_eq_bind, Option.bind_some,
    Option.pure_def, andThen]
  split_ifs
  · rfl
  · rfl
  · refine Option.bind_congr fun result _ => ?_
    split_ifs <;> rfl

/-- The comparison of two index data keys with the same prefix. -/
lemma compare_of_parts {a b : Slice} {keyA keyB : IndexDataKey} {tailA restA tailB restB : Slice}
    (hA : Parts a keyA tailA restA) (hB : Parts b keyB tailB restB) (hpre : keyA.SamePrefix keyB)
    (hindex : keyA.IsIndexData) {r : ℤ}
    (hr : Decided types keyA.encodedUserKey keyB.encodedUserKey r) (only : Bool) :
    compareChecked types a b only =
      if r ≠ 0 then some r
      else if only then some 0
      else if restA = [] ∨ restB = [] then some (compareSizes restA.length restB.length)
      else (compareKeys types restA restB).bind fun result =>
        some (andThen result.1 (compareInts keyA.sequenceNumber keyB.sequenceNumber)) := by
  obtain ⟨hdatabase, hobjectStore, hindexId⟩ := hpre
  obtain ⟨hdatabaseId, hobjectStoreId, hlow⟩ := hindex
  have htype : KeyPrefix.type ⟨keyA.databaseId, keyA.objectStoreId, keyA.indexId⟩ = .indexData := by
    have h1 : keyA.indexId ≠ 1 := by rw [kMinimumIndexId] at hlow; omega
    have h2 : keyA.indexId ≠ 2 := by rw [kMinimumIndexId] at hlow; omega
    simp [KeyPrefix.type, hdatabaseId, hobjectStoreId, hlow, h1, h2, kObjectStoreDataIndexId,
      kExistsEntryIndexId]
  have hneA : keyA.encodedUserKey ++ tailA ≠ [] := by simp [hA.userKey.ne_nil]
  have hneB : keyB.encodedUserKey ++ tailB ≠ [] := by simp [hB.userKey.ne_nil]
  have hprefixB := hB.decodePrefix
  rw [← hdatabase, ← hobjectStore, ← hindexId] at hprefixB
  obtain ⟨sliceA, sliceB, hcompare, hrest⟩ := hr.compareKeys tailA tailB
  simp only [compareChecked, hA.decodePrefix, hprefixB, Option.bind_eq_bind, Option.bind_some,
    KeyPrefix.compare, ne_eq, not_true_eq_false, if_false, htype, hneA, hneB, or_self,
    compareIndexData, hcompare]
  split_ifs with hr0 honly hmissing
  · rfl
  · obtain ⟨rfl, rfl⟩ := hrest hr0
    simp only [hA.sequenceNumber, hB.sequenceNumber, if_pos hmissing, Option.pure_def]
  · obtain ⟨rfl, rfl⟩ := hrest hr0
    simp only [hA.sequenceNumber, hB.sequenceNumber, if_neg hmissing, Option.pure_def]
  · rfl

lemma declaredKeyTypes_min (t : WebIDBKeyType) (h : t ≠ .min) :
    declaredKeyTypes.value t < declaredKeyTypes.value .min := by
  revert h
  cases t <;> decide

/-- An entry for the empty string in the index 30 of the first object store of the
first database, with this sequence number. -/
def emptyStringEntry (sequenceNumber : UInt8) (primaryKey : Slice) : Slice :=
  [0, 1, 1, 30, 1, 0, sequenceNumber] ++ primaryKey

def emptyStringKey (sequenceNumber : ℤ) (primaryKey : Slice) : IndexDataKey :=
  ⟨1, 1, 30, [1, 0], primaryKey, sequenceNumber⟩

end Agreement

end Chromium.IDBCoding
