import Chromium.IDBKeyReading

/-!
# Round trips of the IndexedDB coding

What the encoders of keys, key paths and key prefixes write is decoded again, whatever
follows it. The loops over the code units of a string count with an `unsigned`. A string with more
code units than that can count is not encoded at all; everything that the decoders accept
is below this bound.
-/
namespace Chromium.IDBCoding.Reads
open TaggedTree TaggedTree.Reading

section Encoders

/-- The counter is an `unsigned`, the length is a `size_t`. The loop must not run past the end of
the value. -/
def encodeStringLoop (length : ℕ) : List UInt16 → UInt32 → Option Slice
  | c :: s, i =>
    if i.toNat < length then do
      let bytes ← encodeStringLoop length s (i + 1)
      return (c >>> 8).toUInt8 :: c.toUInt8 :: bytes
    else return []
  | [], i => if i.toNat < length then none else return []

def encodeString (value : List UInt16) : Option Slice := encodeStringLoop value.length value 0

def encodeStringWithLength (value : List UInt16) : Option Slice := do
  let bytes ← encodeString value
  return encodeVarInt value.length ++ bytes

mutual

def encodeIDBKey : IndexedDBKey → Option Slice
  | .null => some [kIndexedDBKeyNullTypeByte]
  | .string value => do
    let bytes ← encodeStringWithLength value
    return kIndexedDBKeyStringTypeByte :: bytes
  | .date value => some (kIndexedDBKeyDateTypeByte :: encodeDouble value)
  | .number value => some (kIndexedDBKeyNumberTypeByte :: encodeDouble value)
  | .array keys => do
    let bytes ← encodeIDBKeys keys
    return kIndexedDBKeyArrayTypeByte :: (encodeVarInt keys.length ++ bytes)

/-- The keys of an array, one after the other. -/
def encodeIDBKeys : List IndexedDBKey → Option Slice
  | [] => some []
  | key :: keys => do
    let bytes ← encodeIDBKey key
    let rest ← encodeIDBKeys keys
    return bytes ++ rest

end

/-- An `IndexedDBKeyPath`. -/
inductive IndexedDBKeyPath
  | null
  | string (value : List UInt16)
  | array (value : List (List UInt16))
  deriving DecidableEq

/-- The members of `blink::WebIDBKeyPathType`. -/
inductive WebIDBKeyPathType
  | null
  | string
  | array
  deriving DecidableEq, Repr

/-- The numbers of the enumeration, which is declared outside this repository. They are not
negative as a `char`. -/
structure KeyPathTypes where
  value : WebIDBKeyPathType → ℕ
  injective : Function.Injective value
  lt : ∀ t, value t < 2 ^ 7

def kIndexedDBKeyPathTypeCodedByte1 : UInt8 := 0
def kIndexedDBKeyPathTypeCodedByte2 : UInt8 := 0

variable (types : KeyPathTypes)

def IndexedDBKeyPath.type : IndexedDBKeyPath → WebIDBKeyPathType
  | .null => .null
  | .string _ => .string
  | .array _ => .array

/-- The strings of an array, one after the other. -/
def encodeStrings : List (List UInt16) → Option Slice
  | [] => some []
  | s :: strings => do
    let bytes ← encodeStringWithLength s
    let rest ← encodeStrings strings
    return bytes ++ rest

/-- The part of a key path after the type. -/
def encodePathValue : IndexedDBKeyPath → Option Slice
  | .null => some []
  | .string value => encodeStringWithLength value
  | .array value => do
    let bytes ← encodeStrings value
    return encodeVarInt value.length ++ bytes

def encodeIDBKeyPath (value : IndexedDBKeyPath) : Option Slice := do
  let bytes ← encodePathValue value
  return kIndexedDBKeyPathTypeCodedByte1 :: kIndexedDBKeyPathTypeCodedByte2 ::
    UInt8.ofNat (types.value value.type) :: bytes

/-- A key path from before the types were written. -/
def decodeRawPath (slice : Slice) : Reading (IndexedDBKeyPath × Slice) := do
  let s ← decodeString slice
  return (.string s, slice.drop (slice.length / 2 * 2))

def decodeTypedPath (type : UInt8) (slice : Slice) : Reading (IndexedDBKeyPath × Slice) :=
  if type.toNat = types.value .null then return (.null, slice)
  else if type.toNat = types.value .string then do
    let (s, slice) ← decodeStringWithLength slice
    return (.string s, slice)
  else if type.toNat = types.value .array then do
    let (count, slice) ← ofOption (decodeVarInt slice)
    -- `while (count--)` runs through all the 64 bits
    let (array, slice) ← readMany decodeStringWithLength (count % 2 ^ 64).toNat slice
    return (.array array, slice)
  else .rejects

def decodeIDBKeyPath : Slice → Reading (IndexedDBKeyPath × Slice)
  | byte1 :: byte2 :: type :: slice =>
    if byte1 ≠ kIndexedDBKeyPathTypeCodedByte1 ∨ byte2 ≠ kIndexedDBKeyPathTypeCodedByte2 then
      decodeRawPath (byte1 :: byte2 :: type :: slice)
    else decodeTypedPath types type slice
  | slice => decodeRawPath slice

def kMaxDatabaseId : ℕ := 2 ^ 63 - 1
def kMaxObjectStoreId : ℕ := 2 ^ 63 - 1
def kMaxIndexId : ℕ := 2 ^ 31 - 1

end Encoders

section Strings

lemma encodeStringLoop_of_lt {length : ℕ} (hlength : length < 2 ^ 32) (value : List UInt16)
    (i : UInt32) (hi : i.toNat + value.length = length) :
    encodeStringLoop length value i = some (IDBCoding.encodeString value) := by
  induction value generalizing i with
  | nil =>
    rw [List.length_nil] at hi
    rw [encodeStringLoop, if_neg (by omega)]
    rfl
  | cons c value ih =>
    rw [List.length_cons] at hi
    have hnext : (i + 1).toNat = i.toNat + 1 := by
      rw [UInt32.toNat_add, UInt32.toNat_one, Nat.mod_eq_of_lt (by omega)]
    rw [encodeStringLoop, if_pos (by omega), ih (i + 1) (by omega)]
    rfl

lemma encodeStringWithLength_of_lt {value : List UInt16} (h : value.length < 2 ^ 32) :
    encodeStringWithLength value = some (IDBCoding.encodeStringWithLength value) := by
  rw [encodeStringWithLength, encodeString, encodeStringLoop_of_lt h value 0 (by simp)]
  rfl

lemma varInt_encodeVarInt {n : ℕ} (h : n < 2 ^ 63) : VarInt (encodeVarInt n) n :=
  decodeVarInt_encodeVarInt h

lemma decodeString_length (slice : Slice) :
    (IDBCoding.decodeString slice).length = slice.length / 2 := by
  induction slice using IDBCoding.decodeString.induct with
  | case1 hi lo slice ih =>
    rw [IDBCoding.decodeString, List.length_cons, ih, List.length_cons, List.length_cons]
    omega
  | case2 slice hshort =>
    cases slice with
    | nil => rfl
    | cons hi slice =>
      cases slice with
      | nil => simp [IDBCoding.decodeString]
      | cons lo slice => exact (hshort hi lo slice rfl).elim

/-- What is decoded is short enough. -/
lemma length_lt_of_decode {slice rest : Slice} {s : List UInt16}
    (h : decodeStringWithLength slice = .accepts (s, rest)) : s.length < 2 ^ 32 := by
  obtain ⟨length, value, n, -, hn, hvalue, rfl, -⟩ := decodeStringWithLength_eq_accepts.mp h
  rw [decodeString_length]
  omega

lemma decodeStringWithLength_encode {s : List UInt16} (h : s.length < 2 ^ 32) (rest : Slice) :
    decodeStringWithLength (IDBCoding.encodeStringWithLength s ++ rest) = .accepts (s, rest) := by
  refine decodeStringWithLength_eq_accepts.mpr ⟨encodeVarInt s.length, IDBCoding.encodeString s,
    s.length, varInt_encodeVarInt (by omega), h, encodeString_length s, ?_, ?_⟩
  · rw [decodeString_encodeString]
  · rw [IDBCoding.encodeStringWithLength, List.append_assoc]

end Strings

section Keys

mutual

/-- Strings and arrays have lengths that can be coded. The length of a vector always can. -/
def IndexedDBKey.Fits : IndexedDBKey → Prop
  | .null => True
  | .string value => value.length < 2 ^ 32
  | .date _ => True
  | .number _ => True
  | .array keys => keys.length < 2 ^ 63 ∧ AllFit keys

def AllFit : List IndexedDBKey → Prop
  | [] => True
  | key :: keys => key.Fits ∧ AllFit keys

end

lemma allFit_iff {keys : List IndexedDBKey} : AllFit keys ↔ ∀ key ∈ keys, key.Fits := by
  induction keys with
  | nil => simp [AllFit]
  | cons key keys ih => simp [AllFit, ih]

/-- The encoding of the key is decoded to the key, and exactly what follows it is left. -/
def RoundTrips (key : IndexedDBKey) : Prop :=
  ∃ bytes, encodeIDBKey key = some bytes ∧ ∀ rest depth, (bytes ++ rest).length < depth →
    decodeIDBKey depth (bytes ++ rest) = .accepts (key, rest)

lemma bits_encodeDouble (d : DoubleBits) :
    (encodeDouble d).length = 8 ∧ BitVec.ofNat 64 (memoryValue (encodeDouble d)) = d := by
  have hlt := d.isLt
  refine ⟨memoryBytes_length 8 _, ?_⟩
  rw [encodeDouble, memoryValue_memoryBytes, Nat.mod_eq_of_lt (by simpa using hlt)]
  simp

mutual

/-- The encoding of a key is a tree of the decoder. -/
theorem exists_tree (key : IndexedDBKey) (h : key.Fits) : ∃ bytes,
    encodeIDBKey key = some bytes ∧ Tree decodeFormat decodeGrammar bytes key :=
  match key, h with
  | .null, _ => ⟨_, by rw [encodeIDBKey], .leaf (by decide) .null⟩
  | .string value, h => by
    rw [IndexedDBKey.Fits] at h
    refine ⟨_, by rw [encodeIDBKey, encodeStringWithLength_of_lt h]; rfl, .leaf (by decide) ?_⟩
    have hleaf : DecodedLeaf kIndexedDBKeyStringTypeByte _ _ :=
      .string (varInt_encodeVarInt (by omega)) h (encodeString_length value)
    rwa [decodeString_encodeString] at hleaf
  | .date value, _ => by
    refine ⟨_, by rw [encodeIDBKey], .leaf (by decide) ?_⟩
    obtain ⟨hlen, hbits⟩ := bits_encodeDouble value
    have hleaf := DecodedLeaf.date hlen
    rwa [hbits] at hleaf
  | .number value, _ => by
    refine ⟨_, by rw [encodeIDBKey], .leaf (by decide) ?_⟩
    obtain ⟨hlen, hbits⟩ := bits_encodeDouble value
    have hleaf := DecodedLeaf.number hlen
    rwa [hbits] at hleaf
  | .array keys, h => by
    rw [IndexedDBKey.Fits] at h
    obtain ⟨trees, rfl, hbytes, htrees⟩ := exists_trees keys h.2
    rw [List.length_map] at h
    refine ⟨_, by rw [encodeIDBKey, hbytes, List.length_map]; rfl, ?_⟩
    exact .array (varInt_encodeVarInt h.1) htrees

theorem exists_trees (keys : List IndexedDBKey) (h : AllFit keys) :
    ∃ trees : List (Slice × IndexedDBKey), trees.map Prod.snd = keys ∧
      encodeIDBKeys keys = some (bytesOf trees) ∧
      ∀ tree ∈ trees, Tree decodeFormat decodeGrammar tree.1 tree.2 :=
  match keys, h with
  | [], _ => ⟨[], rfl, by rw [encodeIDBKeys]; rfl, by simp⟩
  | key :: keys, h => by
    rw [AllFit] at h
    obtain ⟨bytes, hbytes, htree⟩ := exists_tree key h.1
    obtain ⟨trees, rfl, hrest, htrees⟩ := exists_trees keys h.2
    refine ⟨(bytes, key) :: trees, rfl, by rw [encodeIDBKeys, hbytes, hrest]; rfl, ?_⟩
    simpa using ⟨htree, by simpa using htrees⟩

end

/-- A decoded key has lengths that can be coded. -/
lemma fits_of_tree {bytes : Slice} {key : IndexedDBKey}
    (h : Tree decodeFormat decodeGrammar bytes key) : key.Fits := by
  induction h with
  | leaf htag hleaf =>
    cases hleaf with
    | null => trivial
    | @string length value n hlength hn hvalue =>
      rw [IndexedDBKey.Fits, decodeString_length]
      omega
    | date hvalue => trivial
    | number hvalue => trivial
  | @array length trees hcount htrees ih =>
    have hbounds := decodeVarInt_bounds (hcount [])
    show IndexedDBKey.Fits (.array (trees.map Prod.snd))
    rw [IndexedDBKey.Fits, List.length_map, allFit_iff]
    refine ⟨by omega, fun key hkey => ?_⟩
    obtain ⟨tree, htree, rfl⟩ := List.mem_map.mp hkey
    exact ih tree htree

theorem roundTrips_iff_fits (key : IndexedDBKey) : RoundTrips key ↔ key.Fits := by
  constructor
  · intro h
    obtain ⟨bytes, -, hdecode⟩ := h
    have hread := hdecode [] _ (Nat.lt_succ_self _)
    rw [decodeIDBKey_eq_read] at hread
    obtain ⟨bytes', htree, -⟩ := read_sound decodeFormat_reads hread
    exact fits_of_tree htree
  · intro h
    obtain ⟨bytes, hbytes, htree⟩ := exists_tree key h
    refine ⟨bytes, hbytes, fun rest depth hdepth => ?_⟩
    rw [List.length_append] at hdepth
    rw [decodeIDBKey_eq_read]
    exact htree.read decodeFormat_reads rest (by omega)

end Keys

section KeyPaths

def IndexedDBKeyPath.Fits : IndexedDBKeyPath → Prop
  | .null => True
  | .string value => value.length < 2 ^ 32
  | .array value => value.length < 2 ^ 64 ∧ ∀ s ∈ value, s.length < 2 ^ 32

variable (types : KeyPathTypes)

/-- The encoding of the key path is decoded to the key path. -/
def PathRoundTrips (path : IndexedDBKeyPath) : Prop :=
  ∃ bytes, encodeIDBKeyPath types path = some bytes ∧
    decodeIDBKeyPath types bytes = .accepts (path, [])

lemma decodeIDBKeyPath_typed (type : UInt8) (slice : Slice) :
    decodeIDBKeyPath types (kIndexedDBKeyPathTypeCodedByte1 :: kIndexedDBKeyPathTypeCodedByte2 ::
      type :: slice) = decodeTypedPath types type slice := by
  rw [decodeIDBKeyPath, if_neg (by simp)]

lemma toNat_typeByte (t : WebIDBKeyPathType) :
    (UInt8.ofNat (types.value t)).toNat = types.value t := by
  have hlt := types.lt t
  rw [toNat_ofNat]
  omega

/-- The strings of an array are coded like the elements of an array of keys. -/
lemma encodeStrings_of_fits {strings : List (List UInt16)}
    (h : ∀ s ∈ strings, s.length < 2 ^ 32) : encodeStrings strings =
      some (bytesOf (strings.map fun s => (IDBCoding.encodeStringWithLength s, s))) := by
  induction strings with
  | nil => rfl
  | cons s strings ih =>
    rw [List.forall_mem_cons] at h
    rw [encodeStrings, encodeStringWithLength_of_lt h.1, ih h.2]
    rfl

lemma decodeVarInt_encodeVarInt_count {n : ℕ} (h : n < 2 ^ 64) (rest : Slice) :
    ∃ z, decodeVarInt (encodeVarInt n ++ rest) = some (z, rest) ∧ (z % 2 ^ 64).toNat = n := by
  refine ⟨toInt64 n, ?_, ?_⟩
  · rw [decodeVarInt, decodeVarIntLoop_encodeVarInt, Nat.zero_or, Nat.shiftLeft_zero]
    rfl
  · have hmod : toInt64 n % ((2 ^ 64 : ℕ) : ℤ) = (n : ℤ) % ((2 ^ 64 : ℕ) : ℤ) := Int.bmod_emod
    norm_num at hmod
    omega

lemma pathRoundTrips_of_fits {path : IndexedDBKeyPath} (h : path.Fits) :
    PathRoundTrips types path := by
  have hstring : types.value .string ≠ types.value .null :=
    fun heq => by cases types.injective heq
  have harray : types.value .array ≠ types.value .null ∧
      types.value .array ≠ types.value .string :=
    ⟨fun heq => (by cases types.injective heq), fun heq => (by cases types.injective heq)⟩
  cases path with
  | null =>
    refine ⟨_, rfl, ?_⟩
    rw [decodeIDBKeyPath_typed, decodeTypedPath, toNat_typeByte, IndexedDBKeyPath.type, if_pos rfl]
    rfl
  | string value =>
    rw [IndexedDBKeyPath.Fits] at h
    refine ⟨_, by rw [encodeIDBKeyPath, encodePathValue, encodeStringWithLength_of_lt h]; rfl, ?_⟩
    have hdecode := decodeStringWithLength_encode h []
    rw [List.append_nil] at hdecode
    rw [decodeIDBKeyPath_typed, decodeTypedPath, toNat_typeByte, IndexedDBKeyPath.type,
      if_neg hstring, if_pos rfl, hdecode]
    rfl
  | array value =>
    rw [IndexedDBKeyPath.Fits] at h
    refine ⟨_, by rw [encodeIDBKeyPath, encodePathValue, encodeStrings_of_fits h.2]; rfl, ?_⟩
    set trees := value.map fun s => (IDBCoding.encodeStringWithLength s, s) with htrees
    have hlen : trees.length = value.length := by rw [htrees, List.length_map]
    have hvalues : trees.map Prod.snd = value := by simp [htrees, Function.comp_def]
    have hread : ∀ tree ∈ trees, ∀ rest,
        decodeStringWithLength (tree.1 ++ rest) = .accepts (tree.2, rest) := by
      intro tree htree rest
      obtain ⟨s, hs, rfl⟩ := List.mem_map.mp htree
      exact decodeStringWithLength_encode (h.2 s hs) rest
    have hmany := readMany_complete hread []
    rw [hlen, hvalues, List.append_nil] at hmany
    obtain ⟨z, hz, hcount⟩ := decodeVarInt_encodeVarInt_count h.1 (bytesOf trees)
    rw [decodeIDBKeyPath_typed, decodeTypedPath, toNat_typeByte, IndexedDBKeyPath.type,
      if_neg harray.1, if_neg harray.2, if_pos rfl, hz, ofOption, accepts_bind]
    dsimp only
    rw [hcount, hmany, accepts_bind]
    rfl

lemma fits_of_decodeRawPath {slice rest : Slice} {path : IndexedDBKeyPath}
    (h : decodeRawPath slice = .accepts (path, rest)) : path.Fits := by
  simp only [decodeRawPath, bind_eq_accepts, pure_eq, Reading.accepts.injEq, Prod.mk.injEq] at h
  obtain ⟨s, hs, rfl, -⟩ := h
  have hlt : slice.length / 2 < 2 ^ 32 := by
    by_contra hle
    rw [decodeString_of_le (by omega)] at hs
    cases hs
  rw [decodeString_of_lt hlt, Reading.accepts.injEq] at hs
  rw [IndexedDBKeyPath.Fits, ← hs, decodeString_length]
  exact hlt

lemma fits_of_decodeTypedPath {type : UInt8} {slice rest : Slice} {path : IndexedDBKeyPath}
    (h : decodeTypedPath types type slice = .accepts (path, rest)) : path.Fits := by
  rw [decodeTypedPath] at h
  split_ifs at h
  · cases h
    trivial
  · simp only [bind_eq_accepts, pure_eq, Reading.accepts.injEq, Prod.exists, Prod.mk.injEq] at h
    obtain ⟨s, slice', hs, rfl, -⟩ := h
    exact length_lt_of_decode hs
  · simp only [bind_eq_accepts, pure_eq, Reading.accepts.injEq, Prod.exists, Prod.mk.injEq] at h
    obtain ⟨count, slice', -, strings, slice'', hmany, rfl, -⟩ := h
    obtain ⟨hlen, hall⟩ := forall_of_readMany (fun h => length_lt_of_decode h) hmany
    refine ⟨?_, hall⟩
    rw [hlen]
    omega

theorem pathRoundTrips_iff_fits (path : IndexedDBKeyPath) :
    PathRoundTrips types path ↔ path.Fits := by
  refine ⟨fun h => ?_, pathRoundTrips_of_fits types⟩
  obtain ⟨bytes, -, hdecode⟩ := h
  match bytes, hdecode with
  | [], h => exact fits_of_decodeRawPath h
  | [_], h => exact fits_of_decodeRawPath h
  | [_, _], h => exact fits_of_decodeRawPath h
  | byte1 :: byte2 :: type :: slice, h =>
    rw [decodeIDBKeyPath] at h
    split_ifs at h
    · exact fits_of_decodeRawPath h
    · exact fits_of_decodeTypedPath types h

end KeyPaths

section Coding

/-- Keys and key paths are decoded as they were encoded exactly where their strings are short
enough for the counters of the loops; prefixes always are. -/
theorem coding_roundTrips_iff (types : KeyPathTypes) :
    (∀ key, RoundTrips key ↔ key.Fits) ∧ (∀ path, PathRoundTrips types path ↔ path.Fits) ∧
      ∀ databaseId objectStoreId indexId : ℕ, databaseId ≤ kMaxDatabaseId →
        objectStoreId ≤ kMaxObjectStoreId → indexId ≤ kMaxIndexId → ∀ rest,
          KeyPrefix.decode (encodePrefix databaseId objectStoreId indexId ++ rest) =
            some (⟨databaseId, objectStoreId, indexId⟩, rest) := by
  refine ⟨roundTrips_iff_fits, pathRoundTrips_iff_fits types, ?_⟩
  intro d o i hd ho hi rest
  rw [kMaxDatabaseId] at hd
  rw [kMaxObjectStoreId] at ho
  rw [kMaxIndexId] at hi
  exact decode_encodePrefix (by omega) (by omega) (by omega) rest

/-- The numbers in the order of the declaration. -/
def declaredKeyPathTypes : KeyPathTypes where
  value
    | .null => 0
    | .string => 1
    | .array => 2
  injective := by
    intro a b h
    cases a <;> cases b <;> simp_all
  lt := by
    intro t
    cases t <;> decide

theorem coding_roundTrips_iff_prefix :
    KeyPrefix.decode (encodePrefix 1 2 30 ++ [7]) = some (⟨1, 2, 30⟩, [7]) :=
  (coding_roundTrips_iff declaredKeyPathTypes).2.2 1 2 30 (by decide) (by decide) (by decide) [7]

/-- A string of `2 ^ 32` code units. -/
theorem not_coding_roundTrips : ¬ ∀ key, RoundTrips key := by
  intro h
  have hfits := (roundTrips_iff_fits (.string (List.replicate (2 ^ 32) 0))).mp (h _)
  rw [IndexedDBKey.Fits, List.length_replicate] at hfits
  exact lt_irrefl _ hfits

end Coding

end Chromium.IDBCoding.Reads
