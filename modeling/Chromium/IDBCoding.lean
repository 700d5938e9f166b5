import Mathlib.Data.Int.Init
import Mathlib.Tactic
import Chromium.Comparator

/-!
# The IndexedDB coding scheme

The keys of the LevelDB backing store of IndexedDB
(content/browser/indexed_db/indexed_db_leveldb_coding.cc) and the comparator that
orders them. Every key is a byte string that starts with a prefix of three ids;
the comparator decodes the parts of two keys side by side. A failed decoding
(`*ok = false`) is `none`.
-/
namespace Chromium.IDBCoding
open Comparator

/-- The bytes that remain to be decoded. -/
abbrev Slice := List UInt8

section Integers

/-- The value of an `int64` with these 64 bits. -/
def toInt64 (n : ℕ) : ℤ := Int.bmod n (2 ^ 64)

/-- The conversion of an `int64` to `int`. -/
def toInt (n : ℤ) : ℤ := Int.bmod n (2 ^ 32)

def encodeInt (n : ℕ) : Slice :=
  if n >>> 8 ≠ 0 then UInt8.ofNat n :: encodeInt (n >>> 8) else [UInt8.ofNat n]
termination_by n
decreasing_by
  rw [Nat.shiftRight_eq_div_pow] at *
  omega

def encodeVarInt (n : ℕ) : Slice :=
  if n >>> 7 ≠ 0 then UInt8.ofNat ((n &&& 0x7f) ||| 0x80) :: encodeVarInt (n >>> 7)
  else [UInt8.ofNat (n &&& 0x7f)]
termination_by n
decreasing_by
  rw [Nat.shiftRight_eq_div_pow] at *
  omega

def decodeByte : Slice → Option (UInt8 × Slice)
  | [] => none
  | c :: slice => some (c, slice)

def decodeIntLoop : Slice → ℕ → ℕ → ℕ
  | [], _, ret => ret
  | c :: slice, shift, ret => decodeIntLoop slice (shift + 8) (ret ||| (c.toNat <<< shift))

/-- All the bytes of the slice, the least significant first. -/
def decodeInt (slice : Slice) : Option ℤ :=
  if slice = [] then none else some (toInt64 (decodeIntLoop slice 0 0))

def decodeVarIntLoop : Slice → ℕ → ℕ → Option (ℕ × Slice)
  | [], _, _ => none
  | c :: slice, shift, ret =>
    let ret := ret ||| ((c &&& 0x7f).toNat <<< shift)
    if c &&& 0x80 ≠ 0 then decodeVarIntLoop slice (shift + 7) ret else some (ret, slice)

def decodeVarInt (slice : Slice) : Option (ℤ × Slice) := do
  let (ret, slice) ← decodeVarIntLoop slice 0 0
  return (toInt64 ret, slice)

end Integers

section Strings

/-- A string of UTF-16 code units. The bytes of a string object fit in memory. -/
abbrev String16 := { s : List UInt16 // s.length < 2 ^ 62 }

/-- Big-endian code units. -/
def encodeString : List UInt16 → Slice
  | [] => []
  | c :: s => (c >>> 8).toUInt8 :: c.toUInt8 :: encodeString s

def encodeStringWithLength (value : List UInt16) : Slice :=
  encodeVarInt value.length ++ encodeString value

def decodeString : Slice → List UInt16
  | hi :: lo :: slice => ((hi.toUInt16 <<< 8) ||| lo.toUInt16) :: decodeString slice
  | _ => []

def decodeStringWithLength (slice : Slice) : Option (List UInt16 × Slice) := do
  let (length, slice) ← decodeVarInt slice
  if length < 0 then none
  else
    let bytes := length.toNat * 2
    if slice.length < bytes then none
    else return (decodeString (slice.take bytes), slice.drop bytes)

/-- `base::ASCIIToUTF16`. -/
def asciiToUTF16 (s : List UInt8) : List UInt16 := s.map (·.toUInt16)

end Strings

section Doubles

/-- The bits of an IEEE 754 double. -/
abbrev DoubleBits := BitVec 64

/-- All bits but the sign. -/
def magnitude (d : DoubleBits) : ℕ := d.toNat % 2 ^ 63

def isNaN (d : DoubleBits) : Bool := 0x7ff0000000000000 < magnitude d

/-- The position of a double on the number line: the two zeros coincide. -/
def doubleRank (d : DoubleBits) : ℤ := if d.toNat < 2 ^ 63 then magnitude d else -magnitude d

/-- `d < e` for doubles. -/
def doubleLess (d e : DoubleBits) : Bool := !isNaN d && !isNaN e && doubleRank d < doubleRank e

/-- A double that is a number. -/
abbrev Double := { d : DoubleBits // isNaN d = false }

/-- The bytes of a number in memory, on a little-endian host. -/
def memoryBytes : ℕ → ℕ → Slice
  | 0, _ => []
  | k + 1, n => UInt8.ofNat n :: memoryBytes k (n / 256)

def memoryValue : Slice → ℕ
  | [] => 0
  | c :: slice => c.toNat + 256 * memoryValue slice

def encodeDouble (value : DoubleBits) : Slice := memoryBytes 8 value.toNat

def decodeDouble (slice : Slice) : Option (DoubleBits × Slice) :=
  if slice.length < 8 then none
  else some (BitVec.ofNat 64 (memoryValue (slice.take 8)), slice.drop 8)

end Doubles

section Keys

/-- A valid `IndexedDBKey`. -/
inductive IDBKey
  | string (value : String16)
  | date (value : Double)
  | number (value : Double)
  | array (keys : List IDBKey)

def kIndexedDBKeyNullTypeByte : UInt8 := 0
def kIndexedDBKeyStringTypeByte : UInt8 := 1
def kIndexedDBKeyDateTypeByte : UInt8 := 2
def kIndexedDBKeyNumberTypeByte : UInt8 := 3
def kIndexedDBKeyArrayTypeByte : UInt8 := 4
def kIndexedDBKeyMinKeyTypeByte : UInt8 := 5

mutual

def encodeIDBKey : IDBKey → Slice
  | .string value => kIndexedDBKeyStringTypeByte :: encodeStringWithLength value
  | .date value => kIndexedDBKeyDateTypeByte :: encodeDouble value
  | .number value => kIndexedDBKeyNumberTypeByte :: encodeDouble value
  | .array keys => kIndexedDBKeyArrayTypeByte :: (encodeVarInt keys.length ++ encodeIDBKeys keys)

/-- The keys of an array, one after the other. -/
def encodeIDBKeys : List IDBKey → Slice
  | [] => []
  | key :: keys => encodeIDBKey key ++ encodeIDBKeys keys

end

def maxIDBKey : Slice := [kIndexedDBKeyNullTypeByte]

def minIDBKey : Slice := [kIndexedDBKeyMinKeyTypeByte]

/-- What an encoded key can stand for: a key, or one of the sentinels. -/
inductive UserKey
  | key (value : IDBKey)
  | min
  | max

def UserKey.encode : UserKey → Slice
  | .key value => encodeIDBKey value
  | .min => minIDBKey
  | .max => maxIDBKey

/-- The members of `blink::WebIDBKeyType` that the comparator uses. -/
inductive WebIDBKeyType
  | invalid
  | array
  | string
  | date
  | number
  | min
  deriving DecidableEq, Repr

/-- The numbers of the enumeration, which is declared outside this repository. -/
structure KeyTypes where
  value : WebIDBKeyType → ℤ
  injective : Function.Injective value
  nonneg : ∀ t, 0 ≤ value t
  lt : ∀ t, value t < 2 ^ 31

def keyTypeByteToKeyType (type : UInt8) : WebIDBKeyType :=
  if type = kIndexedDBKeyNullTypeByte then .invalid
  else if type = kIndexedDBKeyArrayTypeByte then .array
  else if type = kIndexedDBKeyStringTypeByte then .string
  else if type = kIndexedDBKeyDateTypeByte then .date
  else if type = kIndexedDBKeyNumberTypeByte then .number
  else if type = kIndexedDBKeyMinKeyTypeByte then .min
  else .invalid

/-- The difference is an `int64`. -/
def compareInts (a b : ℤ) : ℤ :=
  let diff := Int.bmod (a - b) (2 ^ 64)
  if diff < 0 then -1 else if diff > 0 then 1 else 0

def compareSizes (a b : ℕ) : ℤ := if a > b then 1 else if b > a then -1 else 0

def compareTypes (types : KeyTypes) (a b : WebIDBKeyType) : ℤ := types.value b - types.value a

def compareEncodedStringsWithLength (slice1 slice2 : Slice) : Option (ℤ × Slice × Slice) := do
  let (len1, slice1) ← decodeVarInt slice1
  let (len2, slice2) ← decodeVarInt slice2
  if len1 < 0 ∨ len2 < 0 then none
  else if slice1.length < len1.toNat * 2 ∨ slice2.length < len2.toNat * 2 then none
  else
    let string1 := slice1.take (len1.toNat * 2)
    let string2 := slice2.take (len2.toNat * 2)
    return (lexCompare string1 string2, slice1.drop (len1.toNat * 2),
      slice2.drop (len2.toNat * 2))

/-- The loop over the common length of two arrays. -/
def compareArrays (compare : Slice → Slice → Option (ℤ × Slice × Slice)) :
    ℕ → Slice → Slice → Option (ℤ × Slice × Slice)
  | 0, sliceA, sliceB => some (0, sliceA, sliceB)
  | n + 1, sliceA, sliceB => do
    let (result, sliceA, sliceB) ← compare sliceA sliceB
    if result ≠ 0 then return (result, sliceA, sliceB)
    else compareArrays compare n sliceA sliceB

/-- The result with the rest of both slices. The nesting depth of the keys bounds
the recursion. -/
def compareEncodedIDBKeys (types : KeyTypes) :
    ℕ → Slice → Slice → Option (ℤ × Slice × Slice)
  | 0, _, _ => none
  | depth + 1, sliceA, sliceB => do
    let (typeA, sliceA) ← decodeByte sliceA
    let (typeB, sliceB) ← decodeByte sliceB
    let x := compareTypes types (keyTypeByteToKeyType typeA) (keyTypeByteToKeyType typeB)
    if x ≠ 0 then return (x, sliceA, sliceB)
    else if typeA = kIndexedDBKeyArrayTypeByte then
      let (lengthA, sliceA) ← decodeVarInt sliceA
      let (lengthB, sliceB) ← decodeVarInt sliceB
      let (result, sliceA, sliceB) ← compareArrays (compareEncodedIDBKeys types depth)
        (Min.min lengthA lengthB).toNat sliceA sliceB
      if result ≠ 0 then return (result, sliceA, sliceB)
      else return (toInt (lengthA - lengthB), sliceA, sliceB)
    else if typeA = kIndexedDBKeyStringTypeByte then
      compareEncodedStringsWithLength sliceA sliceB
    else if typeA = kIndexedDBKeyDateTypeByte ∨ typeA = kIndexedDBKeyNumberTypeByte then
      let (d, sliceA) ← decodeDouble sliceA
      let (e, sliceB) ← decodeDouble sliceB
      return (if doubleLess d e then -1 else if doubleLess e d then 1 else 0, sliceA, sliceB)
    else return (0, sliceA, sliceB)

/-- `CompareEncodedIDBKeys` with enough depth for any key in the first slice. -/
def compareKeys (types : KeyTypes) (sliceA sliceB : Slice) : Option (ℤ × Slice × Slice) :=
  compareEncodedIDBKeys types sliceA.length sliceA sliceB

end Keys

section Prefix

structure KeyPrefix where
  databaseId : ℤ
  objectStoreId : ℤ
  indexId : ℤ
  deriving DecidableEq

inductive KeyPrefixType
  | globalMetadata
  | databaseMetadata
  | objectStoreData
  | existsEntry
  | indexData
  | invalidType
  deriving DecidableEq

def kObjectStoreDataIndexId : ℕ := 1
def kExistsEntryIndexId : ℕ := 2
def kMinimumIndexId : ℕ := 30

def KeyPrefix.decode (slice : Slice) : Option (KeyPrefix × Slice) := do
  let (firstByte, slice) ← decodeByte slice
  let databaseIdBytes := ((firstByte >>> 5) &&& 0x7).toNat + 1
  let objectStoreIdBytes := ((firstByte >>> 2) &&& 0x7).toNat + 1
  let indexIdBytes := (firstByte &&& 0x3).toNat + 1
  if databaseIdBytes + objectStoreIdBytes + indexIdBytes > slice.length then none
  else
    let databaseId ← decodeInt (slice.take databaseIdBytes)
    let slice := slice.drop databaseIdBytes
    let objectStoreId ← decodeInt (slice.take objectStoreIdBytes)
    let slice := slice.drop objectStoreIdBytes
    let indexId ← decodeInt (slice.take indexIdBytes)
    return (⟨databaseId, objectStoreId, indexId⟩, slice.drop indexIdBytes)

/-- `KeyPrefix::EncodeInternal`. -/
def encodePrefix (databaseId objectStoreId indexId : ℕ) : Slice :=
  let databaseIdString := encodeInt databaseId
  let objectStoreIdString := encodeInt objectStoreId
  let indexIdString := encodeInt indexId
  let firstByte := ((databaseIdString.length - 1) <<< 5) |||
    ((objectStoreIdString.length - 1) <<< 2) ||| (indexIdString.length - 1)
  UInt8.ofNat firstByte :: (databaseIdString ++ (objectStoreIdString ++ indexIdString))

def KeyPrefix.compare (a b : KeyPrefix) : ℤ :=
  if a.databaseId ≠ b.databaseId then compareInts a.databaseId b.databaseId
  else if a.objectStoreId ≠ b.objectStoreId then compareInts a.objectStoreId b.objectStoreId
  else if a.indexId ≠ b.indexId then compareInts a.indexId b.indexId
  else 0

def KeyPrefix.type (p : KeyPrefix) : KeyPrefixType :=
  if p.databaseId = 0 then .globalMetadata
  else if p.objectStoreId = 0 then .databaseMetadata
  else if p.indexId = kObjectStoreDataIndexId then .objectStoreData
  else if p.indexId = kExistsEntryIndexId then .existsEntry
  else if p.indexId ≥ kMinimumIndexId then .indexData
  else .invalidType

end Prefix

section Metadata

def kSchemaVersionTypeByte : UInt8 := 0
def kMaxDatabaseIdTypeByte : UInt8 := 1
def kDataVersionTypeByte : UInt8 := 2
def kMaxSimpleGlobalMetaDataTypeByte : UInt8 := 3
def kDatabaseFreeListTypeByte : UInt8 := 100
def kDatabaseNameTypeByte : UInt8 := 201

def kMaxSimpleMetadataType : UInt8 := 5
def kObjectStoreMetaDataTypeByte : UInt8 := 50
def kIndexMetaDataTypeByte : UInt8 := 100
def kObjectStoreFreeListTypeByte : UInt8 := 150
def kIndexFreeListTypeByte : UInt8 := 151
def kObjectStoreNamesTypeByte : UInt8 := 200
def kIndexNamesKeyTypeByte : UInt8 := 201

/-- The prefix and the type byte of a metadata key. -/
def decodeHeader (slice : Slice) : Option Slice := do
  let (_, slice) ← KeyPrefix.decode slice
  let (_, slice) ← decodeByte slice
  return slice

structure DatabaseFreeListKey where
  databaseId : ℤ

def DatabaseFreeListKey.decode (slice : Slice) : Option DatabaseFreeListKey := do
  let slice ← decodeHeader slice
  let (databaseId, _) ← decodeVarInt slice
  return ⟨databaseId⟩

def DatabaseFreeListKey.compare (a b : DatabaseFreeListKey) : ℤ :=
  compareInts a.databaseId b.databaseId

structure DatabaseNameKey where
  origin : List UInt16
  databaseName : List UInt16

def DatabaseNameKey.decode (slice : Slice) : Option DatabaseNameKey := do
  let slice ← decodeHeader slice
  let (origin, slice) ← decodeStringWithLength slice
  let (databaseName, _) ← decodeStringWithLength slice
  return ⟨origin, databaseName⟩

def DatabaseNameKey.compare (a b : DatabaseNameKey) : ℤ :=
  andThen (lexCompare a.origin b.origin) (lexCompare a.databaseName b.databaseName)

structure ObjectStoreMetaDataKey where
  objectStoreId : ℤ
  metaDataType : UInt8

def ObjectStoreMetaDataKey.decode (slice : Slice) : Option ObjectStoreMetaDataKey := do
  let slice ← decodeHeader slice
  let (objectStoreId, slice) ← decodeVarInt slice
  let (metaDataType, _) ← decodeByte slice
  return ⟨objectStoreId, metaDataType⟩

def ObjectStoreMetaDataKey.compare (a b : ObjectStoreMetaDataKey) : ℤ :=
  andThen (compareInts a.objectStoreId b.objectStoreId)
    (a.metaDataType.toNat - b.metaDataType.toNat)

structure IndexMetaDataKey where
  objectStoreId : ℤ
  indexId : ℤ
  metaDataType : UInt8

def IndexMetaDataKey.decode (slice : Slice) : Option IndexMetaDataKey := do
  let slice ← decodeHeader slice
  let (objectStoreId, slice) ← decodeVarInt slice
  let (indexId, slice) ← decodeVarInt slice
  let (metaDataType, _) ← decodeByte slice
  return ⟨objectStoreId, indexId, metaDataType⟩

def IndexMetaDataKey.compare (a b : IndexMetaDataKey) : ℤ :=
  andThen (compareInts a.objectStoreId b.objectStoreId)
    (andThen (compareInts a.indexId b.indexId) (a.metaDataType.toNat - b.metaDataType.toNat))

structure ObjectStoreFreeListKey where
  objectStoreId : ℤ

def ObjectStoreFreeListKey.decode (slice : Slice) : Option ObjectStoreFreeListKey := do
  let slice ← decodeHeader slice
  let (objectStoreId, _) ← decodeVarInt slice
  return ⟨objectStoreId⟩

def ObjectStoreFreeListKey.compare (a b : ObjectStoreFreeListKey) : ℤ :=
  compareInts a.objectStoreId b.objectStoreId

structure IndexFreeListKey where
  objectStoreId : ℤ
  indexId : ℤ

def IndexFreeListKey.decode (slice : Slice) : Option IndexFreeListKey := do
  let slice ← decodeHeader slice
  let (objectStoreId, slice) ← decodeVarInt slice
  let (indexId, _) ← decodeVarInt slice
  return ⟨objectStoreId, indexId⟩

def IndexFreeListKey.compare (a b : IndexFreeListKey) : ℤ :=
  andThen (compareInts a.objectStoreId b.objectStoreId) (compareInts a.indexId b.indexId)

structure ObjectStoreNamesKey where
  objectStoreName : List UInt16

def ObjectStoreNamesKey.decode (slice : Slice) : Option ObjectStoreNamesKey := do
  let slice ← decodeHeader slice
  let (objectStoreName, _) ← decodeStringWithLength slice
  return ⟨objectStoreName⟩

def ObjectStoreNamesKey.compare (a b : ObjectStoreNamesKey) : ℤ :=
  lexCompare a.objectStoreName b.objectStoreName

structure IndexNamesKey where
  objectStoreId : ℤ
  indexName : List UInt16

def IndexNamesKey.decode (slice : Slice) : Option IndexNamesKey := do
  let slice ← decodeHeader slice
  let (objectStoreId, slice) ← decodeVarInt slice
  let (indexName, _) ← decodeStringWithLength slice
  return ⟨objectStoreId, indexName⟩

def IndexNamesKey.compare (a b : IndexNamesKey) : ℤ :=
  andThen (compareInts a.objectStoreId b.objectStoreId) (lexCompare a.indexName b.indexName)

end Metadata

section Compare

/-- `Compare<KeyType>`: both keys are decoded again from the start. -/
def compareDecoded {κ : Type} (decode : Slice → Option κ) (compare : κ → κ → ℤ) (a b : Slice) :
    Option ℤ := do
  let keyA ← decode a
  let keyB ← decode b
  return compare keyA keyB

/-- `CompareSuffix<ObjectStoreDataKey>` and `CompareSuffix<ExistsEntryKey>`. -/
def compareUserKeys (types : KeyTypes) (sliceA sliceB : Slice) : Option ℤ := do
  let (result, _, _) ← compareKeys types sliceA sliceB
  return result

/-- The optional sequence number of index data. -/
def decodeSequenceNumber (slice : Slice) : Option (ℤ × Slice) :=
  if slice = [] then some (-1, slice) else decodeVarInt slice

/-- `CompareSuffix<IndexDataKey>`. -/
def compareIndexData (types : KeyTypes) (sliceA sliceB : Slice) (onlyCompareIndexKeys : Bool) :
    Option ℤ := do
  let (result, sliceA, sliceB) ← compareKeys types sliceA sliceB
  if result ≠ 0 then return result
  else if onlyCompareIndexKeys then return 0
  else
    match decodeSequenceNumber sliceA, decodeSequenceNumber sliceB with
    | some (sequenceNumberA, sliceA), some (sequenceNumberB, sliceB) =>
      if sliceA = [] ∨ sliceB = [] then return compareSizes sliceA.length sliceB.length
      else
        let (result, _, _) ← compareKeys types sliceA sliceB
        return andThen result (compareInts sequenceNumberA sequenceNumberB)
    | _, _ => return 0

def compareGlobalMetadata (a b sliceA sliceB : Slice) : Option ℤ := do
  let (typeByteA, _) ← decodeByte sliceA
  let (typeByteB, _) ← decodeByte sliceB
  let x : ℤ := typeByteA.toNat - typeByteB.toNat
  if x ≠ 0 then return x
  else if typeByteA < kMaxSimpleGlobalMetaDataTypeByte then return 0
  else if typeByteA = kDatabaseFreeListTypeByte then
    compareDecoded DatabaseFreeListKey.decode DatabaseFreeListKey.compare a b
  else if typeByteA = kDatabaseNameTypeByte then
    compareDecoded DatabaseNameKey.decode DatabaseNameKey.compare a b
  else none

def compareDatabaseMetadata (a b sliceA sliceB : Slice) : Option ℤ := do
  let (typeByteA, _) ← decodeByte sliceA
  let (typeByteB, _) ← decodeByte sliceB
  let x : ℤ := typeByteA.toNat - typeByteB.toNat
  if x ≠ 0 then return x
  else if typeByteA < kMaxSimpleMetadataType then return 0
  else if typeByteA = kObjectStoreMetaDataTypeByte then
    compareDecoded ObjectStoreMetaDataKey.decode ObjectStoreMetaDataKey.compare a b
  else if typeByteA = kIndexMetaDataTypeByte then
    compareDecoded IndexMetaDataKey.decode IndexMetaDataKey.compare a b
  else if typeByteA = kObjectStoreFreeListTypeByte then
    compareDecoded ObjectStoreFreeListKey.decode ObjectStoreFreeListKey.compare a b
  else if typeByteA = kIndexFreeListTypeByte then
    compareDecoded IndexFreeListKey.decode IndexFreeListKey.compare a b
  else if typeByteA = kObjectStoreNamesTypeByte then
    compareDecoded ObjectStoreNamesKey.decode ObjectStoreNamesKey.compare a b
  else if typeByteA = kIndexNamesKeyTypeByte then
    compareDecoded IndexNamesKey.decode IndexNamesKey.compare a b
  else none

/-- The comparison with its `ok` flag. -/
def compareChecked (types : KeyTypes) (a b : Slice) (onlyCompareIndexKeys : Bool) :
    Option ℤ := do
  let (prefixA, sliceA) ← KeyPrefix.decode a
  let (prefixB, sliceB) ← KeyPrefix.decode b
  let x := prefixA.compare prefixB
  if x ≠ 0 then return x
  else
    match prefixA.type with
    | .globalMetadata => compareGlobalMetadata a b sliceA sliceB
    | .databaseMetadata => compareDatabaseMetadata a b sliceA sliceB
    | .objectStoreData | .existsEntry =>
      if sliceA = [] ∨ sliceB = [] then return compareSizes sliceA.length sliceB.length
      else compareUserKeys types sliceA sliceB
    | .indexData =>
      if sliceA = [] ∨ sliceB = [] then return compareSizes sliceA.length sliceB.length
      else compareIndexData types sliceA sliceB onlyCompareIndexKeys
    | .invalidType => none

def compare (types : KeyTypes) (a b : Slice) (onlyCompareIndexKeys : Bool) : ℤ :=
  (compareChecked types a b onlyCompareIndexKeys).getD 0

end Compare

section StoredKeys

/-- `KeyPrefix::IsValidDatabaseId`. -/
abbrev DatabaseId := { id : ℕ // 0 < id ∧ id < 2 ^ 63 - 1 }

/-- `KeyPrefix::IsValidObjectStoreId`. -/
abbrev ObjectStoreId := { id : ℕ // 0 < id ∧ id < 2 ^ 63 - 1 }

/-- `KeyPrefix::IsValidIndexId`. -/
abbrev IndexId := { id : ℕ // kMinimumIndexId ≤ id ∧ id < 2 ^ 31 - 1 }

/-- An id or a sequence number outside the prefix: any `int64` that is not
negative, up to the maximum that the sentinel keys use. -/
abbrev Number := { n : ℕ // n < 2 ^ 63 }

/-- Keys with the prefix of the global metadata. -/
inductive GlobalKey
  | schemaVersion
  | maxDatabaseId
  | dataVersion
  | databaseFreeList (databaseId : Number)
  | databaseName (originIdentifier : { s : List UInt8 // s.length < 2 ^ 62 })
      (databaseName : String16)

/-- Keys with the prefix of the metadata of one database. -/
inductive DatabaseKey
  | metaData (type : Fin 5)
  | objectStoreMetaData (objectStoreId : Number) (metaDataType : UInt8)
  | indexMetaData (objectStoreId indexId : Number) (metaDataType : UInt8)
  | objectStoreFreeList (objectStoreId : Number)
  | indexFreeList (objectStoreId indexId : Number)
  | objectStoreNames (objectStoreName : String16)
  | indexNames (objectStoreId : Number) (indexName : String16)

/-- The optional parts of index data. -/
inductive IndexTail
  | none
  | sequenceNumber (n : Number)
  | primaryKey (n : Number) (key : UserKey)

/-- All the keys of the coding scheme. -/
inductive StoredKey
  | global (key : GlobalKey)
  | database (databaseId : DatabaseId) (key : DatabaseKey)
  | objectStoreData (databaseId : DatabaseId) (objectStoreId : ObjectStoreId) (key : UserKey)
  | existsEntry (databaseId : DatabaseId) (objectStoreId : ObjectStoreId) (key : UserKey)
  | indexData (databaseId : DatabaseId) (objectStoreId : ObjectStoreId) (indexId : IndexId)
      (key : UserKey) (tail : IndexTail)

/-- The part of a global key after the prefix. -/
def GlobalKey.suffix : GlobalKey → Slice
  | .schemaVersion => [kSchemaVersionTypeByte]
  | .maxDatabaseId => [kMaxDatabaseIdTypeByte]
  | .dataVersion => [kDataVersionTypeByte]
  | .databaseFreeList databaseId => kDatabaseFreeListTypeByte :: encodeVarInt databaseId
  | .databaseName originIdentifier name =>
    kDatabaseNameTypeByte :: (encodeStringWithLength (asciiToUTF16 originIdentifier) ++
      encodeStringWithLength name)

def DatabaseKey.suffix : DatabaseKey → Slice
  | .metaData type => [UInt8.ofNat type]
  | .objectStoreMetaData objectStoreId metaDataType =>
    kObjectStoreMetaDataTypeByte :: (encodeVarInt objectStoreId ++ [metaDataType])
  | .indexMetaData objectStoreId indexId metaDataType =>
    kIndexMetaDataTypeByte ::
      (encodeVarInt objectStoreId ++ (encodeVarInt indexId ++ [metaDataType]))
  | .objectStoreFreeList objectStoreId =>
    kObjectStoreFreeListTypeByte :: encodeVarInt objectStoreId
  | .indexFreeList objectStoreId indexId =>
    kIndexFreeListTypeByte :: (encodeVarInt objectStoreId ++ encodeVarInt indexId)
  | .objectStoreNames objectStoreName =>
    kObjectStoreNamesTypeByte :: encodeStringWithLength objectStoreName
  | .indexNames objectStoreId indexName =>
    kIndexNamesKeyTypeByte :: (encodeVarInt objectStoreId ++ encodeStringWithLength indexName)

def IndexTail.encode : IndexTail → Slice
  | .none => []
  | .sequenceNumber n => encodeVarInt n
  | .primaryKey n key => encodeVarInt n ++ key.encode

/-- The `Encode` functions of the key classes. -/
def StoredKey.encode : StoredKey → Slice
  | .global key => encodePrefix 0 0 0 ++ key.suffix
  | .database databaseId key => encodePrefix databaseId 0 0 ++ key.suffix
  | .objectStoreData databaseId objectStoreId key =>
    encodePrefix databaseId objectStoreId kObjectStoreDataIndexId ++ key.encode
  | .existsEntry databaseId objectStoreId key =>
    encodePrefix databaseId objectStoreId kExistsEntryIndexId ++ key.encode
  | .indexData databaseId objectStoreId indexId key tail =>
    encodePrefix databaseId objectStoreId indexId ++ (key.encode ++ tail.encode)

end StoredKeys

end Chromium.IDBCoding
