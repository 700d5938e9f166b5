import Chromium.IDBIndexData
import Chromium.IDBKeyRoundTrip

/-!
# Range keys

The keys that bound the range deletes and the enumerations of the backing store. Under the
comparator every one of them is an end of exactly one family of stored keys: the members lie
between the two ends, and every other key that can be stored lies outside.
-/
namespace Chromium.IDBCoding
open Comparator

section Definitions

/-- `std::numeric_limits<int64>::max()`. -/
def maxInt64 : Number := ⟨2 ^ 63 - 1, by decide⟩

def zero : Number := ⟨0, by decide⟩

def kObjectMetaDataTypeMaximum : UInt8 := 255
def kIndexMetaDataTypeMaximum : UInt8 := 255

/-- The characters of an origin. -/
abbrev OriginString := { s : List UInt8 // s.length < 2 ^ 62 }

/-- An origin identifier without the character 0, to which one more character can be added. -/
structure OriginIdentifier where
  value : List UInt8
  fits : value.length + 1 < 2 ^ 62
  plain : (0 : UInt8) ∉ value

def OriginIdentifier.string (o : OriginIdentifier) : OriginString :=
  ⟨o.value, Nat.lt_of_succ_lt o.fits⟩

def DatabaseFreeListKey.encode (databaseId : Number) : Slice :=
  encodePrefix 0 0 0 ++ (GlobalKey.databaseFreeList databaseId).suffix

def DatabaseFreeListKey.encodeMaxKey : Slice := DatabaseFreeListKey.encode maxInt64

def DatabaseNameKey.encode (originIdentifier : OriginString) (databaseName : String16) : Slice :=
  encodePrefix 0 0 0 ++ (GlobalKey.databaseName originIdentifier databaseName).suffix

def DatabaseNameKey.encodeMinKeyForOrigin (originIdentifier : OriginString) : Slice :=
  DatabaseNameKey.encode originIdentifier ⟨[], by simp⟩

/-- Just after the origin in collation order. -/
def DatabaseNameKey.encodeStopKeyForOrigin (originIdentifier : OriginIdentifier) : Slice :=
  DatabaseNameKey.encodeMinKeyForOrigin
    ⟨originIdentifier.value ++ [1], by simpa using originIdentifier.fits⟩

def ObjectStoreMetaDataKey.encode (databaseId : DatabaseId) (objectStoreId : Number)
    (metaDataType : UInt8) : Slice :=
  encodePrefix databaseId 0 0 ++ (DatabaseKey.objectStoreMetaData objectStoreId metaDataType).suffix

def ObjectStoreMetaDataKey.encodeMaxKey (databaseId : DatabaseId) : Slice :=
  ObjectStoreMetaDataKey.encode databaseId maxInt64 kObjectMetaDataTypeMaximum

/-- The overload for one object store. -/
def ObjectStoreMetaDataKey.encodeMaxKeyOf (databaseId : DatabaseId) (objectStoreId : Number) :
    Slice :=
  ObjectStoreMetaDataKey.encode databaseId objectStoreId kObjectMetaDataTypeMaximum

def IndexMetaDataKey.encode (databaseId : DatabaseId) (objectStoreId indexId : Number)
    (metaDataType : UInt8) : Slice :=
  encodePrefix databaseId 0 0 ++
    (DatabaseKey.indexMetaData objectStoreId indexId metaDataType).suffix

def IndexMetaDataKey.encodeMaxKey (databaseId : DatabaseId) (objectStoreId : Number) : Slice :=
  IndexMetaDataKey.encode databaseId objectStoreId maxInt64 kIndexMetaDataTypeMaximum

/-- The overload for one index. -/
def IndexMetaDataKey.encodeMaxKeyOf (databaseId : DatabaseId) (objectStoreId indexId : Number) :
    Slice :=
  IndexMetaDataKey.encode databaseId objectStoreId indexId kIndexMetaDataTypeMaximum

def ObjectStoreFreeListKey.encode (databaseId : DatabaseId) (objectStoreId : Number) : Slice :=
  encodePrefix databaseId 0 0 ++ (DatabaseKey.objectStoreFreeList objectStoreId).suffix

def ObjectStoreFreeListKey.encodeMaxKey (databaseId : DatabaseId) : Slice :=
  ObjectStoreFreeListKey.encode databaseId maxInt64

def IndexFreeListKey.encode (databaseId : DatabaseId) (objectStoreId indexId : Number) : Slice :=
  encodePrefix databaseId 0 0 ++ (DatabaseKey.indexFreeList objectStoreId indexId).suffix

def IndexFreeListKey.encodeMaxKey (databaseId : DatabaseId) (objectStoreId : Number) : Slice :=
  IndexFreeListKey.encode databaseId objectStoreId maxInt64

def IndexDataKey.encode (databaseId : DatabaseId) (objectStoreId : ObjectStoreId)
    (indexId : IndexId) (encodedUserKey encodedPrimaryKey : Slice) (sequenceNumber : Number) :
    Slice :=
  encodePrefix databaseId objectStoreId indexId ++
    (encodedUserKey ++ (encodeVarInt sequenceNumber ++ encodedPrimaryKey))

def IndexDataKey.encodeMinKey (databaseId : DatabaseId) (objectStoreId : ObjectStoreId)
    (indexId : IndexId) : Slice :=
  IndexDataKey.encode databaseId objectStoreId indexId minIDBKey minIDBKey zero

def IndexDataKey.encodeMaxKey (databaseId : DatabaseId) (objectStoreId : ObjectStoreId)
    (indexId : IndexId) : Slice :=
  IndexDataKey.encode databaseId objectStoreId indexId maxIDBKey maxIDBKey maxInt64

/-- A byte string that one of the `Encode` functions writes, for keys of any content. -/
inductive Stored : Slice → Prop
  | global (key : GlobalKey) : Stored (encodePrefix 0 0 0 ++ key.suffix)
  | database (databaseId : DatabaseId) (key : DatabaseKey) :
      Stored (encodePrefix databaseId 0 0 ++ key.suffix)
  | objectStoreData (databaseId : DatabaseId) (objectStoreId : ObjectStoreId) {userKey : Slice}
      (huser : EncodedKey userKey) :
      Stored (encodePrefix databaseId objectStoreId kObjectStoreDataIndexId ++ userKey)
  | existsEntry (databaseId : DatabaseId) (objectStoreId : ObjectStoreId) {userKey : Slice}
      (huser : EncodedKey userKey) :
      Stored (encodePrefix databaseId objectStoreId kExistsEntryIndexId ++ userKey)
  | indexData (databaseId : DatabaseId) (objectStoreId : ObjectStoreId) (indexId : IndexId)
      {userKey primaryKey : Slice} (huser : EncodedKey userKey) (hprimary : EncodedKey primaryKey)
      (sequenceNumber : Number) :
      Stored
        (IndexDataKey.encode databaseId objectStoreId indexId userKey primaryKey sequenceNumber)

variable (types : KeyTypes) (only : Bool)

/-- The comparison succeeds, with such a result. -/
def Compares (a b : Slice) (p : ℤ → Prop) : Prop :=
  ∃ r, compareChecked types a b only = some r ∧ p r

/-- The members lie between the two keys, and all other stored keys lie outside. -/
structure Selects (lo hi : Slice) (Member : Slice → Prop) : Prop where
  inside : ∀ a, Member a → Compares types only lo a (· ≤ 0) ∧ Compares types only a hi (· ≤ 0)
  outside : ∀ a, Stored a → ¬ Member a →
    Compares types only lo a (0 < ·) ∨ Compares types only a hi (0 < ·)

end Definitions

section Prefixes
variable {types : KeyTypes} {only : Bool}

/-- The order of two prefixes does not depend on what follows them. -/
lemma compareChecked_of_compare_ne {d o i d' o' i' : ℕ} (hd : d < 2 ^ 63) (ho : o < 2 ^ 63)
    (hi : i < 2 ^ 31) (hd' : d' < 2 ^ 63) (ho' : o' < 2 ^ 63) (hi' : i' < 2 ^ 31)
    (h : KeyPrefix.compare ⟨d, o, i⟩ ⟨d', o', i'⟩ ≠ 0) (s s' : Slice) :
    compareChecked types (encodePrefix d o i ++ s) (encodePrefix d' o' i' ++ s') only =
      some (KeyPrefix.compare ⟨d, o, i⟩ ⟨d', o', i'⟩) := by
  simp [compareChecked, decode_encodePrefix hd ho hi, decode_encodePrefix hd' ho' hi', h]

lemma compareInts_pos_or_pos {a b : ℕ} (ha : a < 2 ^ 63) (hb : b < 2 ^ 63) (h : a ≠ b) :
    0 < compareInts a b ∨ 0 < compareInts b a := by
  rw [compareInts_of_small (by omega) (by omega), compareInts_of_small (by omega) (by omega)]
  split_ifs <;> omega

/-- Of two different prefixes one comes last. -/
lemma compare_pos_or_pos {d o i d' o' i' : ℕ} (hd : d < 2 ^ 63) (ho : o < 2 ^ 63)
    (hi : i < 2 ^ 31) (hd' : d' < 2 ^ 63) (ho' : o' < 2 ^ 63) (hi' : i' < 2 ^ 31)
    (h : (d, o, i) ≠ (d', o', i')) : 0 < KeyPrefix.compare ⟨d, o, i⟩ ⟨d', o', i'⟩ ∨
      0 < KeyPrefix.compare ⟨d', o', i'⟩ ⟨d, o, i⟩ := by
  simp only [KeyPrefix.compare, ne_eq, Nat.cast_inj]
  by_cases hdd : d = d'
  · by_cases hoo : o = o'
    · have hii : i ≠ i' := by
        intro hii
        exact h (by rw [hdd, hoo, hii])
      simpa [hdd, hoo, hii, Ne.symm hii] using compareInts_pos_or_pos (by omega) (by omega) hii
    · simpa [hdd, hoo, Ne.symm hoo] using compareInts_pos_or_pos ho ho' hoo
  · simpa [hdd, Ne.symm hdd] using compareInts_pos_or_pos hd hd' hdd

/-- A key with another prefix lies outside of any range within one prefix. -/
lemma outside_of_prefix_ne {d o i d' o' i' : ℕ} (hd : d < 2 ^ 63) (ho : o < 2 ^ 63)
    (hi : i < 2 ^ 31) (hd' : d' < 2 ^ 63) (ho' : o' < 2 ^ 63) (hi' : i' < 2 ^ 31)
    (h : (d, o, i) ≠ (d', o', i')) (s first last : Slice) :
    Compares types only (encodePrefix d' o' i' ++ first) (encodePrefix d o i ++ s) (0 < ·) ∨
      Compares types only (encodePrefix d o i ++ s) (encodePrefix d' o' i' ++ last) (0 < ·) := by
  rcases compare_pos_or_pos hd ho hi hd' ho' hi' h with hpos | hpos
  · exact .inr ⟨_, compareChecked_of_compare_ne hd ho hi hd' ho' hi' hpos.ne' s last, hpos⟩
  · exact .inl ⟨_, compareChecked_of_compare_ne hd' ho' hi' hd ho hi hpos.ne' first s, hpos⟩

end Prefixes

section IndexData
variable {types : KeyTypes} {only : Bool}

lemma decided_min_le (hmin : ∀ t, t ≠ .min → types.value t < types.value .min) {key : Slice}
    (h : EncodedKey key) : ∃ r, Decided types minIDBKey key r ∧ r ≤ 0 := by
  by_cases heq : key = minIDBKey
  · rw [heq]
    exact ⟨0, decided_min_min, le_rfl⟩
  · obtain ⟨r, hr, hneg⟩ := decided_min_left hmin h heq
    exact ⟨r, hr, hneg.le⟩

/-- The maximum comes after every other key: its type byte stands for the invalid type. -/
lemma decided_le_max (hmax : ∀ t, t ≠ .invalid → types.value .invalid < types.value t)
    {key : Slice} (h : EncodedKey key) : ∃ r, Decided types key maxIDBKey r ∧ r ≤ 0 := by
  have hlt : ∀ t, t ≠ .invalid → compareTypes types t .invalid ≤ 0 := by
    intro t ht
    have := hmax t ht
    rw [compareTypes]
    omega
  cases h with
  | null => exact ⟨0, decided_sentinels (.inl rfl), le_rfl⟩
  | _ => exact ⟨_, decided_of_types_ne _ _ (by decide), hlt _ (by decide)⟩

variable (d : DatabaseId) (o : ObjectStoreId) (i : IndexId)

/-- User keys decide first, then primary keys, then sequence numbers. -/
lemma compareChecked_indexData {userKey primaryKey userKey' primaryKey' : Slice} {r r' : ℤ}
    (huser : Decided types userKey userKey' r) (hprimary : Decided types primaryKey primaryKey' r')
    (hne : userKey ≠ [] ∧ userKey' ≠ []) (hne' : primaryKey ≠ [] ∧ primaryKey' ≠ [])
    (n n' : Number) :
    compareChecked types (IndexDataKey.encode d o i userKey primaryKey n)
      (IndexDataKey.encode d o i userKey' primaryKey' n') only =
        some (if r ≠ 0 then r else if only then 0
          else andThen r' (compareInts (n : ℕ) (n' : ℕ))) := by
  have hd : (d : ℕ) < 2 ^ 63 := by have := d.2; omega
  have ho : (o : ℕ) < 2 ^ 63 := by have := o.2; omega
  have hi : (i : ℕ) < 2 ^ 31 := by have := i.2; omega
  have htype : KeyPrefix.type ⟨(d : ℕ), (o : ℕ), (i : ℕ)⟩ = .indexData := by
    have hlow : 30 ≤ (i : ℕ) := i.2.1
    have h1 : (i : ℕ) ≠ 1 := by omega
    have h2 : (i : ℕ) ≠ 2 := by omega
    rw [KeyPrefix.type_natCast, if_neg d.2.1.ne', if_neg o.2.1.ne', if_neg h1, if_neg h2,
      if_pos hlow]
  have hself : KeyPrefix.compare ⟨(d : ℕ), (o : ℕ), (i : ℕ)⟩ ⟨(d : ℕ), (o : ℕ), (i : ℕ)⟩ = 0 := by
    simp [KeyPrefix.compare]
  have hseq (n : Number) (s : Slice) :
      decodeSequenceNumber (encodeVarInt n ++ s) = some (((n : ℕ) : ℤ), s) := by
    rw [decodeSequenceNumber, if_neg (by simp [encodeVarInt_ne_nil]), decodeVarInt_encodeVarInt n.2]
  obtain ⟨sliceA, sliceB, hcompare, hrest⟩ := huser.compareKeys (encodeVarInt n ++ primaryKey)
    (encodeVarInt n' ++ primaryKey')
  have hsuffix : ¬ (userKey ++ (encodeVarInt n ++ primaryKey) = [] ∨
      userKey' ++ (encodeVarInt n' ++ primaryKey') = []) := by simp [hne.1, hne.2]
  simp only [compareChecked, IndexDataKey.encode, decode_encodePrefix hd ho hi,
    Option.bind_eq_bind, Option.bind_some, hself, ne_eq, not_true_eq_false, if_false, htype,
    if_neg hsuffix, compareIndexData, hcompare]
  by_cases hr : r = 0
  · obtain ⟨rfl, rfl⟩ := hrest hr
    obtain ⟨sliceA, sliceB, hcompare', -⟩ := hprimary.compareKeys [] []
    rw [List.append_nil, List.append_nil] at hcompare'
    rw [if_neg (not_not.mpr hr), if_neg (not_not.mpr hr)]
    cases only with
    | true => rfl
    | false =>
      simp only [Bool.false_eq_true, if_false, hseq, if_neg (not_or.mpr hne'), hcompare',
        Option.bind_some, Option.pure_def]
  · rw [if_pos hr, if_pos hr]
    rfl

lemma compareInts_nonpos {a b : ℕ} (hb : b < 2 ^ 63) (h : a ≤ b) : compareInts a b ≤ 0 := by
  rw [compareInts_of_small (by omega) (by omega)]
  split_ifs <;> omega

lemma compares_indexData {userKey primaryKey userKey' primaryKey' : Slice} {r r' : ℤ}
    (huser : Decided types userKey userKey' r) (hprimary : Decided types primaryKey primaryKey' r')
    (hne : userKey ≠ [] ∧ userKey' ≠ []) (hne' : primaryKey ≠ [] ∧ primaryKey' ≠ [])
    {n n' : Number} (hr : r ≤ 0) (hr' : r' ≤ 0) (hn : (n : ℕ) ≤ n') :
    Compares types only (IndexDataKey.encode d o i userKey primaryKey n)
      (IndexDataKey.encode d o i userKey' primaryKey' n') (· ≤ 0) := by
  refine ⟨_, compareChecked_indexData d o i huser hprimary hne hne' n n', ?_⟩
  have hints := compareInts_nonpos n'.2 hn
  rw [andThen]
  split_ifs <;> omega

/-- The index data of one index. -/
theorem indexData_selects (hmin : ∀ t, t ≠ .min → types.value t < types.value .min)
    (hmax : ∀ t, t ≠ .invalid → types.value .invalid < types.value t) :
    Selects types only (IndexDataKey.encodeMinKey d o i) (IndexDataKey.encodeMaxKey d o i)
      fun a => ∃ userKey primaryKey sequenceNumber, EncodedKey userKey ∧ EncodedKey primaryKey ∧
        a = IndexDataKey.encode d o i userKey primaryKey sequenceNumber := by
  have hd := d.2
  have ho := o.2
  have hi := i.2
  constructor
  · intro a hmember
    obtain ⟨userKey, primaryKey, n, huser, hprimary, rfl⟩ := hmember
    obtain ⟨r, hr, hle⟩ := decided_min_le hmin huser
    obtain ⟨r', hr', hle'⟩ := decided_min_le hmin hprimary
    obtain ⟨s, hs, hsle⟩ := decided_le_max hmax huser
    obtain ⟨s', hs', hsle'⟩ := decided_le_max hmax hprimary
    have hn : (n : ℕ) ≤ maxInt64 := by
      have := n.2
      show (n : ℕ) ≤ 2 ^ 63 - 1
      omega
    exact ⟨compares_indexData d o i hr hr' ⟨by simp [minIDBKey], huser.ne_nil⟩
        ⟨by simp [minIDBKey], hprimary.ne_nil⟩ hle hle' (Nat.zero_le _),
      compares_indexData d o i hs hs' ⟨huser.ne_nil, by simp [maxIDBKey]⟩
        ⟨hprimary.ne_nil, by simp [maxIDBKey]⟩ hsle hsle' hn⟩
  · intro a hstored hmember
    cases hstored with
    | global key =>
      exact outside_of_prefix_ne (by omega) (by omega) (by omega) (by omega) (by omega) (by omega)
        (by simp only [ne_eq, Prod.mk.injEq]; omega) _ _ _
    | database d' key =>
      exact outside_of_prefix_ne (by omega) (by omega) (by omega) (by omega) (by omega) (by omega)
        (by simp only [ne_eq, Prod.mk.injEq]; omega) _ _ _
    | objectStoreData d' o' huser =>
      have hlow : 30 ≤ (i : ℕ) := hi.1
      exact outside_of_prefix_ne (by omega) (by omega) (by decide) (by omega) (by omega) (by omega)
        (by simp only [ne_eq, Prod.mk.injEq, kObjectStoreDataIndexId]; omega) _ _ _
    | existsEntry d' o' huser =>
      have hlow : 30 ≤ (i : ℕ) := hi.1
      exact outside_of_prefix_ne (by omega) (by omega) (by decide) (by omega) (by omega) (by omega)
        (by simp only [ne_eq, Prod.mk.injEq, kExistsEntryIndexId]; omega) _ _ _
    | @indexData d' o' i' userKey primaryKey huser hprimary n =>
      have hd' := d'.2
      have ho' := o'.2
      have hi' := i'.2
      refine outside_of_prefix_ne (by omega) (by omega) (by omega) (by omega) (by omega) (by omega)
        ?_ _ _ _
      intro heq
      obtain rfl : d' = d := Subtype.ext (congrArg Prod.fst heq)
      obtain rfl : o' = o := Subtype.ext (congrArg (fun p => p.2.1) heq)
      obtain rfl : i' = i := Subtype.ext (congrArg (fun p => p.2.2) heq)
      exact hmember ⟨userKey, primaryKey, n, huser, hprimary, rfl⟩

end IndexData

section Metadata
variable {types : KeyTypes} {only : Bool}

lemma compareChecked_global (a b : GlobalKey) :
    ∃ r, compareChecked types (encodePrefix 0 0 0 ++ a.suffix) (encodePrefix 0 0 0 ++ b.suffix)
      only = some r ∧ Decides r a.rank b.rank := by
  obtain ⟨r, hr, hdecides⟩ := compareGlobalMetadata_rank a b
  refine ⟨r, ?_, hdecides⟩
  rw [← hr]
  simp [compareChecked, decode_encodePrefix, KeyPrefix.compare, KeyPrefix.type]

lemma compareChecked_database (d : DatabaseId) (a b : DatabaseKey) :
    ∃ r, compareChecked types (encodePrefix d 0 0 ++ a.suffix) (encodePrefix d 0 0 ++ b.suffix)
      only = some r ∧ Decides r a.rank b.rank := by
  have hd : (d : ℕ) < 2 ^ 63 := by have := d.2; omega
  have hne : (d : ℕ) ≠ 0 := d.2.1.ne'
  obtain ⟨r, hr, hdecides⟩ := compareDatabaseMetadata_rank hd a b
  refine ⟨r, ?_, hdecides⟩
  have hpre (s : Slice) : KeyPrefix.decode (encodePrefix d 0 0 ++ s) = some (⟨(d : ℕ), 0, 0⟩, s) :=
    decode_encodePrefix hd (by omega) (by omega) s
  rw [← hr]
  simp [compareChecked, hpre, KeyPrefix.compare, KeyPrefix.type, hne]

lemma compares_nonpos {a b : Slice} {u v : List ℤ}
    (h : ∃ r, compareChecked types a b only = some r ∧ Decides r u v) (hle : ¬ v < u) :
    Compares types only a b (· ≤ 0) := by
  obtain ⟨r, hr, hdecides⟩ := h
  exact ⟨r, hr, not_lt.mp fun hpos => hle (hdecides.gt_iff.mp hpos)⟩

lemma compares_pos {a b : Slice} {u v : List ℤ}
    (h : ∃ r, compareChecked types a b only = some r ∧ Decides r u v) (hlt : v < u) :
    Compares types only a b (0 < ·) := by
  obtain ⟨r, hr, hdecides⟩ := h
  exact ⟨r, hr, hdecides.gt_iff.mpr hlt⟩

/-- A range of the metadata of one database selects what its ends enclose by their ranks. -/
theorem database_selects (d : DatabaseId) {ι : Type} {lo hi : DatabaseKey} (f : ι → DatabaseKey)
    (hin : ∀ x, ¬ (f x).rank < lo.rank ∧ ¬ hi.rank < (f x).rank)
    (hout : ∀ k, (∀ x, k ≠ f x) → k.rank < lo.rank ∨ hi.rank < k.rank) :
    Selects types only (encodePrefix d 0 0 ++ lo.suffix) (encodePrefix d 0 0 ++ hi.suffix)
      fun a => ∃ x, a = encodePrefix d 0 0 ++ (f x).suffix := by
  have hd := d.2
  constructor
  · intro a hmember
    obtain ⟨x, rfl⟩ := hmember
    exact ⟨compares_nonpos (compareChecked_database d lo (f x)) (hin x).1,
      compares_nonpos (compareChecked_database d (f x) hi) (hin x).2⟩
  · intro a hstored hmember
    cases hstored with
    | global key =>
      exact outside_of_prefix_ne (by omega) (by omega) (by omega) (by omega) (by omega) (by omega)
        (by simp only [ne_eq, Prod.mk.injEq]; omega) _ _ _
    | database d' key =>
      have hd' := d'.2
      by_cases heq : (d' : ℕ) = d
      · obtain rfl : d' = d := Subtype.ext heq
        have hkey (x : ι) : key ≠ f x := fun heq => hmember ⟨x, by rw [heq]⟩
        rcases hout key hkey with hlt | hlt
        · exact .inl (compares_pos (compareChecked_database d' lo key) hlt)
        · exact .inr (compares_pos (compareChecked_database d' key hi) hlt)
      · exact outside_of_prefix_ne (by omega) (by omega) (by omega) (by omega) (by omega)
          (by omega) (by simp only [ne_eq, Prod.mk.injEq]; omega) _ _ _
    | objectStoreData d' o' huser =>
      have hd' := d'.2
      have ho' := o'.2
      exact outside_of_prefix_ne (by omega) (by omega) (by decide) (by omega) (by omega) (by omega)
        (by simp only [ne_eq, Prod.mk.injEq]; omega) _ _ _
    | existsEntry d' o' huser =>
      have hd' := d'.2
      have ho' := o'.2
      exact outside_of_prefix_ne (by omega) (by omega) (by decide) (by omega) (by omega) (by omega)
        (by simp only [ne_eq, Prod.mk.injEq]; omega) _ _ _
    | indexData d' o' i' huser hprimary n =>
      have hd' := d'.2
      have ho' := o'.2
      have hi' := i'.2
      exact outside_of_prefix_ne (by omega) (by omega) (by omega) (by omega) (by omega) (by omega)
        (by simp only [ne_eq, Prod.mk.injEq]; omega) _ _ _

lemma outside_of_global {a : Slice} (hstored : Stored a)
    (hglobal : ∀ key : GlobalKey, a ≠ encodePrefix 0 0 0 ++ key.suffix) (first last : Slice) :
    Compares types only (encodePrefix 0 0 0 ++ first) a (0 < ·) ∨
      Compares types only a (encodePrefix 0 0 0 ++ last) (0 < ·) := by
  cases hstored with
  | global key => exact absurd rfl (hglobal key)
  | database d key =>
    have hd := d.2
    exact outside_of_prefix_ne (by omega) (by omega) (by omega) (by omega) (by omega) (by omega)
      (by simp only [ne_eq, Prod.mk.injEq]; omega) _ _ _
  | objectStoreData d o huser =>
    have hd := d.2
    have ho := o.2
    exact outside_of_prefix_ne (by omega) (by omega) (by decide) (by omega) (by omega) (by omega)
      (by simp only [ne_eq, Prod.mk.injEq]; omega) _ _ _
  | existsEntry d o huser =>
    have hd := d.2
    have ho := o.2
    exact outside_of_prefix_ne (by omega) (by omega) (by decide) (by omega) (by omega) (by omega)
      (by simp only [ne_eq, Prod.mk.injEq]; omega) _ _ _
  | indexData d o i huser hprimary n =>
    have hd := d.2
    have ho := o.2
    have hi := i.2
    exact outside_of_prefix_ne (by omega) (by omega) (by omega) (by omega) (by omega) (by omega)
      (by simp only [ne_eq, Prod.mk.injEq]; omega) _ _ _

theorem global_selects {ι : Type} {lo hi : GlobalKey} (f : ι → GlobalKey)
    (hin : ∀ x, ¬ (f x).rank < lo.rank ∧ ¬ hi.rank < (f x).rank)
    (hout : ∀ k, (∀ x, k ≠ f x) → k.rank < lo.rank ∨ hi.rank < k.rank) :
    Selects types only (encodePrefix 0 0 0 ++ lo.suffix) (encodePrefix 0 0 0 ++ hi.suffix)
      fun a => ∃ x, a = encodePrefix 0 0 0 ++ (f x).suffix := by
  constructor
  · intro a hmember
    obtain ⟨x, rfl⟩ := hmember
    exact ⟨compares_nonpos (compareChecked_global lo (f x)) (hin x).1,
      compares_nonpos (compareChecked_global (f x) hi) (hin x).2⟩
  · intro a hstored hmember
    by_cases hglobal : ∃ key : GlobalKey, a = encodePrefix 0 0 0 ++ key.suffix
    · obtain ⟨key, rfl⟩ := hglobal
      have hkey (x : ι) : key ≠ f x := fun heq => hmember ⟨x, by rw [heq]⟩
      rcases hout key hkey with hlt | hlt
      · exact .inl (compares_pos (compareChecked_global lo key) hlt)
      · exact .inr (compares_pos (compareChecked_global key hi) hlt)
    · exact outside_of_global hstored (not_exists.mp hglobal) _ _

end Metadata

section Families
variable {types : KeyTypes} {only : Bool} (d : DatabaseId) (o i : Number)

lemma pair_lt {a b a' b' : ℤ} : [a, b] < [a', b'] ↔ a < a' ∨ (a = a' ∧ b < b') := by
  simp [List.cons_lt_cons_iff]

lemma triple_lt {a b c a' b' c' : ℤ} :
    [a, b, c] < [a', b', c'] ↔ a < a' ∨ (a = a' ∧ (b < b' ∨ (b = b' ∧ c < c'))) := by
  rw [List.cons_lt_cons_iff, pair_lt]

lemma quadruple_lt {a b c d a' b' c' d' : ℤ} : [a, b, c, d] < [a', b', c', d'] ↔
    a < a' ∨ (a = a' ∧ (b < b' ∨ (b = b' ∧ (c < c' ∨ (c = c' ∧ d < d'))))) := by
  rw [List.cons_lt_cons_iff, triple_lt]

/-- The type byte decides first. -/
lemma rank_lt_or_lt {k : DatabaseKey} {c : ℕ} (h : k.typeByte.toNat ≠ c) (u v : List ℤ) :
    k.rank < (c : ℤ) :: u ∨ (c : ℤ) :: v < k.rank := by
  obtain ⟨-, w, -, hrank⟩ := k.suffix_eq
  rw [hrank, List.cons_lt_cons_iff, List.cons_lt_cons_iff]
  omega

lemma le_maxInt64 (n : Number) : (n : ℕ) ≤ maxInt64 := by
  have hlt := n.2
  show (n : ℕ) ≤ 2 ^ 63 - 1
  omega

lemma toNat_typeByte_metaData (type : Fin 5) {c : ℕ} (hc : 5 ≤ c) :
    (DatabaseKey.metaData type).typeByte.toNat ≠ c := by
  rw [DatabaseKey.typeByte, toNat_metaDataType]
  omega

/-- The metadata of all object stores of one database. -/
theorem objectStoreMetaData_selects :
    Selects types only (ObjectStoreMetaDataKey.encode d zero 0)
      (ObjectStoreMetaDataKey.encodeMaxKey d)
      fun a => ∃ x : Number × UInt8, a = ObjectStoreMetaDataKey.encode d x.1 x.2 := by
  refine database_selects d (fun x : Number × UInt8 => .objectStoreMetaData x.1 x.2) ?_ ?_
  · intro x
    have ho := le_maxInt64 x.1
    have htype : x.2.toNat ≤ kObjectMetaDataTypeMaximum.toNat := Nat.le_of_lt_succ x.2.toNat_lt
    simp only [DatabaseKey.rank, triple_lt, lt_irrefl, true_and, false_or, zero, UInt8.toNat_zero]
    omega
  · intro k hk
    cases k with
    | objectStoreMetaData o type => exact absurd rfl (hk (o, type))
    | metaData type => exact rank_lt_or_lt (toNat_typeByte_metaData type (by decide)) _ _
    | _ => exact rank_lt_or_lt (c := 50) (by rw [DatabaseKey.typeByte]; decide) _ _

/-- The metadata of one object store. -/
theorem objectStoreMetaData_selects_of :
    Selects types only (ObjectStoreMetaDataKey.encode d o 0)
      (ObjectStoreMetaDataKey.encodeMaxKeyOf d o)
      fun a => ∃ type, a = ObjectStoreMetaDataKey.encode d o type := by
  refine database_selects d (fun type => .objectStoreMetaData o type) ?_ ?_
  · intro type
    have htype : type.toNat ≤ kObjectMetaDataTypeMaximum.toNat := Nat.le_of_lt_succ type.toNat_lt
    simp only [DatabaseKey.rank, triple_lt, lt_irrefl, true_and, false_or, UInt8.toNat_zero]
    omega
  · intro k hk
    cases k with
    | objectStoreMetaData o' type =>
      have hne : (o' : ℕ) ≠ o := fun heq => hk type (by rw [Subtype.ext heq])
      simp only [DatabaseKey.rank, triple_lt, lt_irrefl, true_and, false_or, UInt8.toNat_zero]
      omega
    | metaData type => exact rank_lt_or_lt (toNat_typeByte_metaData type (by decide)) _ _
    | _ => exact rank_lt_or_lt (c := 50) (by rw [DatabaseKey.typeByte]; decide) _ _

/-- The metadata of all indexes of one object store. -/
theorem indexMetaData_selects :
    Selects types only (IndexMetaDataKey.encode d o zero 0) (IndexMetaDataKey.encodeMaxKey d o)
      fun a => ∃ x : Number × UInt8, a = IndexMetaDataKey.encode d o x.1 x.2 := by
  refine database_selects d (fun x : Number × UInt8 => .indexMetaData o x.1 x.2) ?_ ?_
  · intro x
    have hi := le_maxInt64 x.1
    have htype : x.2.toNat ≤ kIndexMetaDataTypeMaximum.toNat := Nat.le_of_lt_succ x.2.toNat_lt
    simp only [DatabaseKey.rank, quadruple_lt, lt_irrefl, true_and, false_or, zero,
      UInt8.toNat_zero]
    omega
  · intro k hk
    cases k with
    | indexMetaData o' i type =>
      have hne : (o' : ℕ) ≠ o := fun heq => hk (i, type) (by rw [Subtype.ext heq])
      simp only [DatabaseKey.rank, quadruple_lt, lt_irrefl, true_and, false_or, zero,
        UInt8.toNat_zero]
      omega
    | metaData type => exact rank_lt_or_lt (toNat_typeByte_metaData type (by decide)) _ _
    | _ => exact rank_lt_or_lt (c := 100) (by rw [DatabaseKey.typeByte]; decide) _ _

/-- The metadata of one index. -/
theorem indexMetaData_selects_of :
    Selects types only (IndexMetaDataKey.encode d o i 0) (IndexMetaDataKey.encodeMaxKeyOf d o i)
      fun a => ∃ type, a = IndexMetaDataKey.encode d o i type := by
  refine database_selects d (fun type => .indexMetaData o i type) ?_ ?_
  · intro type
    have htype : type.toNat ≤ kIndexMetaDataTypeMaximum.toNat := Nat.le_of_lt_succ type.toNat_lt
    simp only [DatabaseKey.rank, quadruple_lt, lt_irrefl, true_and, false_or, UInt8.toNat_zero]
    omega
  · intro k hk
    cases k with
    | indexMetaData o' i' type =>
      have hne : ¬ ((o' : ℕ) = o ∧ (i' : ℕ) = i) := fun heq =>
        hk type (by rw [Subtype.ext heq.1, Subtype.ext heq.2])
      simp only [DatabaseKey.rank, quadruple_lt, lt_irrefl, true_and, false_or, UInt8.toNat_zero]
      omega
    | metaData type => exact rank_lt_or_lt (toNat_typeByte_metaData type (by decide)) _ _
    | _ => exact rank_lt_or_lt (c := 100) (by rw [DatabaseKey.typeByte]; decide) _ _

/-- The free object stores of one database. -/
theorem objectStoreFreeList_selects :
    Selects types only (ObjectStoreFreeListKey.encode d zero)
      (ObjectStoreFreeListKey.encodeMaxKey d)
      fun a => ∃ o, a = ObjectStoreFreeListKey.encode d o := by
  refine database_selects d (fun o => .objectStoreFreeList o) ?_ ?_
  · intro o
    have ho := le_maxInt64 o
    simp only [DatabaseKey.rank, pair_lt, lt_irrefl, true_and, false_or, zero]
    omega
  · intro k hk
    cases k with
    | objectStoreFreeList o => exact absurd rfl (hk o)
    | metaData type => exact rank_lt_or_lt (toNat_typeByte_metaData type (by decide)) _ _
    | _ => exact rank_lt_or_lt (c := 150) (by rw [DatabaseKey.typeByte]; decide) _ _

/-- The free indexes of one object store. -/
theorem indexFreeList_selects :
    Selects types only (IndexFreeListKey.encode d o zero) (IndexFreeListKey.encodeMaxKey d o)
      fun a => ∃ i, a = IndexFreeListKey.encode d o i := by
  refine database_selects d (fun i => .indexFreeList o i) ?_ ?_
  · intro i
    have hi := le_maxInt64 i
    simp only [DatabaseKey.rank, triple_lt, lt_irrefl, true_and, false_or, zero]
    omega
  · intro k hk
    cases k with
    | indexFreeList o' i =>
      have hne : (o' : ℕ) ≠ o := fun heq => hk i (by rw [Subtype.ext heq])
      simp only [DatabaseKey.rank, triple_lt, lt_irrefl, true_and, false_or, zero]
      omega
    | metaData type => exact rank_lt_or_lt (toNat_typeByte_metaData type (by decide)) _ _
    | _ => exact rank_lt_or_lt (c := 151) (by rw [DatabaseKey.typeByte]; decide) _ _

/-- The free databases. -/
theorem databaseFreeList_selects :
    Selects types only (DatabaseFreeListKey.encode zero) DatabaseFreeListKey.encodeMaxKey
      fun a => ∃ d, a = DatabaseFreeListKey.encode d := by
  refine global_selects (fun d => .databaseFreeList d) ?_ ?_
  · intro d
    have hd := le_maxInt64 d
    simp only [GlobalKey.rank, pair_lt, lt_irrefl, true_and, false_or, zero]
    omega
  · intro k hk
    cases k with
    | databaseFreeList d => exact absurd rfl (hk d)
    | _ => simp [GlobalKey.rank, List.cons_lt_cons_iff]

end Families

section Origins
variable {types : KeyTypes} {only : Bool}

/-- Nothing without the character 0 lies between a string and the string with the character 1
after it. -/
lemma lexCompare_stop_nonpos {s s' : List UInt16} (h : (0 : UInt16) ∉ s')
    (hlt : lexCompare s s' < 0) : lexCompare (s ++ [1]) s' ≤ 0 := by
  induction s generalizing s' with
  | nil =>
    cases s' with
    | nil => simp [lexCompare] at hlt
    | cons c s' =>
      have hc : c.toNat ≠ 0 := by
        intro hzero
        exact h (List.mem_cons.mpr (.inl (UInt16.toNat_inj.mp hzero.symm)))
      simp only [List.nil_append, lexCompare, UInt16.lt_iff_toNat_lt, UInt16.toNat_one]
      split_ifs with h1 h2
      · omega
      · omega
      · cases s' <;> simp [lexCompare]
  | cons c s ih =>
    cases s' with
    | nil => simp [lexCompare] at hlt
    | cons c' s' =>
      rw [List.mem_cons, not_or] at h
      simp only [List.cons_append, lexCompare] at hlt ⊢
      split_ifs at hlt ⊢ with h1 h2
      · omega
      · omega
      · exact ih h.2 hlt

lemma zero_notMem_asciiToUTF16 {s : List UInt8} (h : (0 : UInt8) ∉ s) :
    (0 : UInt16) ∉ asciiToUTF16 s := by
  intro hmem
  obtain ⟨c, hc, hzero⟩ := List.mem_map.mp hmem
  have hnat := congrArg UInt16.toNat hzero
  rw [UInt8.toNat_toUInt16] at hnat
  have hceq : c = 0 := UInt8.toNat_inj.mp hnat
  exact h (hceq ▸ hc)

lemma asciiToUTF16_injective : Function.Injective asciiToUTF16 := by
  refine List.map_injective_iff.mpr fun c c' heq => ?_
  have hnat := congrArg UInt16.toNat heq
  rw [UInt8.toNat_toUInt16, UInt8.toNat_toUInt16] at hnat
  exact UInt8.toNat_inj.mp hnat

lemma compareChecked_databaseName (o o' : OriginString)
    (name name' : String16) :
    compareChecked types (DatabaseNameKey.encode o name) (DatabaseNameKey.encode o' name') only =
      some (andThen (lexCompare (asciiToUTF16 o) (asciiToUTF16 o'))
        (lexCompare (name : List UInt16) name')) := by
  have hdecode (o : OriginString) (name : String16) :
      DatabaseNameKey.decode (encodePrefix 0 0 0 ++ (GlobalKey.databaseName o name).suffix) =
        some ⟨asciiToUTF16 o, name⟩ :=
    decode_databaseName (by decide) _ (asciiToUTF16_length o) name.2
  have hpre (s : Slice) : KeyPrefix.decode (encodePrefix 0 0 0 ++ s) = some (⟨0, 0, 0⟩, s) :=
    decode_encodePrefix (by decide) (by decide) (by decide) s
  have hglobal : compareGlobalMetadata (DatabaseNameKey.encode o name)
      (DatabaseNameKey.encode o' name') (GlobalKey.databaseName o name).suffix
      (GlobalKey.databaseName o' name').suffix =
        some (DatabaseNameKey.compare ⟨asciiToUTF16 o, name⟩ ⟨asciiToUTF16 o', name'⟩) :=
    compareDecoded_eq (hdecode o name) (hdecode o' name')
  show _ = some (DatabaseNameKey.compare ⟨asciiToUTF16 o, name⟩ ⟨asciiToUTF16 o', name'⟩)
  rw [← hglobal]
  simp [compareChecked, DatabaseNameKey.encode, hpre, KeyPrefix.compare, KeyPrefix.type]

lemma lexCompare_nil_nonpos (s : List UInt16) : lexCompare [] s ≤ 0 := by
  cases s <;> simp [lexCompare]

lemma lexCompare_append_singleton (s : List UInt16) (c : UInt16) : lexCompare s (s ++ [c]) < 0 := by
  induction s with
  | nil => simp [lexCompare]
  | cons a s ih =>
    rw [List.cons_append, lexCompare]
    simpa using ih

/-- The databases of one origin lie from the minimum on and before the stop key; all other
stored keys lie outside, but for databases of origins with the character 0. -/
structure SelectsOrigin (types : KeyTypes) (only : Bool) (o : OriginIdentifier) : Prop where
  inside : ∀ name,
    Compares types only (DatabaseNameKey.encodeMinKeyForOrigin o.string)
      (DatabaseNameKey.encode o.string name) (· ≤ 0) ∧
    Compares types only (DatabaseNameKey.encode o.string name)
      (DatabaseNameKey.encodeStopKeyForOrigin o) (· < 0)
  outside : ∀ a, Stored a →
    (∀ o' name, a = DatabaseNameKey.encode o' name → (0 : UInt8) ∉ o'.1 ∧ o' ≠ o.string) →
    Compares types only (DatabaseNameKey.encodeMinKeyForOrigin o.string) a (0 < ·) ∨
      Compares types only a (DatabaseNameKey.encodeStopKeyForOrigin o) (0 ≤ ·)

lemma asciiToUTF16_append (s t : List UInt8) :
    asciiToUTF16 (s ++ t) = asciiToUTF16 s ++ asciiToUTF16 t := List.map_append

theorem origin_selects (o : OriginIdentifier) : SelectsOrigin types only o := by
  have hstop : asciiToUTF16 (o.value ++ [1]) = asciiToUTF16 o.value ++ [1] :=
    asciiToUTF16_append o.value [1]
  constructor
  · intro name
    refine ⟨⟨_, compareChecked_databaseName _ _ _ _, ?_⟩,
      ⟨_, compareChecked_databaseName _ _ _ _, ?_⟩⟩
    · rw [names_eq_zero.mpr rfl, andThen_zero]
      exact lexCompare_nil_nonpos name
    · have hneg := lexCompare_append_singleton (asciiToUTF16 o.value) 1
      rw [OriginIdentifier.string, hstop, andThen_of_ne hneg.ne]
      exact hneg
  · intro a hstored hother
    by_cases hglobal : ∃ key : GlobalKey, a = encodePrefix 0 0 0 ++ key.suffix
    swap
    · rcases outside_of_global hstored (not_exists.mp hglobal) _ _ with hmin | ⟨r, hr, hpos⟩
      · exact .inl hmin
      · exact .inr ⟨r, hr, hpos.le⟩
    obtain ⟨key, rfl⟩ := hglobal
    cases key with
    | databaseName o' name =>
      obtain ⟨hplain, hne⟩ := hother o' name rfl
      have hlex : lexCompare (asciiToUTF16 o.value) (asciiToUTF16 o'.1) ≠ 0 := by
        intro hzero
        exact hne (Subtype.ext (asciiToUTF16_injective (names_eq_zero.mp hzero)).symm)
      rcases lt_or_gt_of_ne hlex with hneg | hpos
      · refine .inr ⟨_, compareChecked_databaseName _ _ _ _, ?_⟩
        have hle := lexCompare_stop_nonpos (zero_notMem_asciiToUTF16 hplain) hneg
        have hname := lexCompare_nil_nonpos name
        rw [← neg_names] at hle hname
        show 0 ≤ andThen (lexCompare (asciiToUTF16 o'.1) (asciiToUTF16 (o.value ++ [1])))
          (lexCompare (name : List UInt16) [])
        rw [hstop, andThen]
        split_ifs <;> omega
      · refine .inl ⟨_, compareChecked_databaseName _ _ _ _, ?_⟩
        rwa [OriginIdentifier.string, andThen_of_ne hlex]
    | _ =>
      refine .inl (compares_pos (compareChecked_global (.databaseName o.string _) _) ?_)
      simp [GlobalKey.rank, List.cons_lt_cons_iff]

end Origins

section RangeKeys

/-- Every pair of range keys selects its family. -/
structure RangeKeysSelect (types : KeyTypes) (only : Bool) : Prop where
  indexData : ∀ (d : DatabaseId) (o : ObjectStoreId) (i : IndexId),
    Selects types only (IndexDataKey.encodeMinKey d o i) (IndexDataKey.encodeMaxKey d o i)
      fun a => ∃ userKey primaryKey sequenceNumber, EncodedKey userKey ∧ EncodedKey primaryKey ∧
        a = IndexDataKey.encode d o i userKey primaryKey sequenceNumber
  objectStoreMetaData : ∀ d : DatabaseId,
    Selects types only (ObjectStoreMetaDataKey.encode d zero 0)
      (ObjectStoreMetaDataKey.encodeMaxKey d)
      fun a => ∃ x : Number × UInt8, a = ObjectStoreMetaDataKey.encode d x.1 x.2
  objectStoreMetaDataOf : ∀ (d : DatabaseId) (o : Number),
    Selects types only (ObjectStoreMetaDataKey.encode d o 0)
      (ObjectStoreMetaDataKey.encodeMaxKeyOf d o)
      fun a => ∃ type, a = ObjectStoreMetaDataKey.encode d o type
  indexMetaData : ∀ (d : DatabaseId) (o : Number),
    Selects types only (IndexMetaDataKey.encode d o zero 0) (IndexMetaDataKey.encodeMaxKey d o)
      fun a => ∃ x : Number × UInt8, a = IndexMetaDataKey.encode d o x.1 x.2
  indexMetaDataOf : ∀ (d : DatabaseId) (o i : Number),
    Selects types only (IndexMetaDataKey.encode d o i 0) (IndexMetaDataKey.encodeMaxKeyOf d o i)
      fun a => ∃ type, a = IndexMetaDataKey.encode d o i type
  objectStoreFreeList : ∀ d : DatabaseId,
    Selects types only (ObjectStoreFreeListKey.encode d zero)
      (ObjectStoreFreeListKey.encodeMaxKey d) fun a => ∃ o, a = ObjectStoreFreeListKey.encode d o
  indexFreeList : ∀ (d : DatabaseId) (o : Number),
    Selects types only (IndexFreeListKey.encode d o zero) (IndexFreeListKey.encodeMaxKey d o)
      fun a => ∃ i, a = IndexFreeListKey.encode d o i
  databaseFreeList :
    Selects types only (DatabaseFreeListKey.encode zero) DatabaseFreeListKey.encodeMaxKey
      fun a => ∃ d, a = DatabaseFreeListKey.encode d
  origin : ∀ o, SelectsOrigin types only o

/-- The enumeration of key types starts with the invalid type and ends with the minimum; then all
range keys select their families. -/
theorem rangeKeys_select (types : KeyTypes)
    (hmin : ∀ t, t ≠ .min → types.value t < types.value .min)
    (hmax : ∀ t, t ≠ .invalid → types.value .invalid < types.value t) (only : Bool) :
    RangeKeysSelect types only where
  indexData d o i := indexData_selects d o i hmin hmax
  objectStoreMetaData := objectStoreMetaData_selects
  objectStoreMetaDataOf := objectStoreMetaData_selects_of
  indexMetaData := indexMetaData_selects
  indexMetaDataOf := indexMetaData_selects_of
  objectStoreFreeList := objectStoreFreeList_selects
  indexFreeList := indexFreeList_selects
  databaseFreeList := databaseFreeList_selects
  origin := origin_selects

lemma declaredKeyTypes_invalid (t : WebIDBKeyType) (h : t ≠ .invalid) :
    declaredKeyTypes.value .invalid < declaredKeyTypes.value t := by
  revert h
  cases t <;> decide

theorem rangeKeys_select_declared : RangeKeysSelect declaredKeyTypes false :=
  rangeKeys_select declaredKeyTypes declaredKeyTypes_min declaredKeyTypes_invalid false

/-- What `EncodeIDBKey` writes can be the user key of index data. -/
lemma encodedKey_of_tree {bytes : Slice} {key : Reads.IndexedDBKey}
    (h : TaggedTree.Tree Reads.decodeFormat Reads.decodeGrammar bytes key) : EncodedKey bytes := by
  induction h with
  | leaf htag hleaf =>
    cases hleaf with
    | null => exact .null
    | string hlength hn hvalue => exact .string hlength hvalue
    | date hvalue => exact .date hvalue
    | number hvalue => exact .number hvalue
  | @array length trees hcount htrees ih =>
    have hkeys : ∀ key ∈ trees.map Prod.fst, EncodedKey key := by
      intro key hkey
      obtain ⟨tree, htree, rfl⟩ := List.mem_map.mp hkey
      exact ih tree htree
    refine .array ?_ hkeys
    rw [List.length_map]
    exact hcount

/-- The entries of all keys that can be encoded are members of the family of their index. -/
theorem encode_selected {types : KeyTypes} {only : Bool} (h : RangeKeysSelect types only)
    (d : DatabaseId) (o : ObjectStoreId) (i : IndexId) {key primaryKey : Reads.IndexedDBKey}
    (hkey : key.Fits) (hprimary : primaryKey.Fits) (n : Number) :
    ∃ bytes bytes', Reads.encodeIDBKey key = some bytes ∧
      Reads.encodeIDBKey primaryKey = some bytes' ∧
      Compares types only (IndexDataKey.encodeMinKey d o i)
        (IndexDataKey.encode d o i bytes bytes' n) (· ≤ 0) ∧
      Compares types only (IndexDataKey.encode d o i bytes bytes' n)
        (IndexDataKey.encodeMaxKey d o i) (· ≤ 0) := by
  obtain ⟨bytes, hbytes, htree⟩ := Reads.exists_tree key hkey
  obtain ⟨bytes', hbytes', htree'⟩ := Reads.exists_tree primaryKey hprimary
  exact ⟨bytes, bytes', hbytes, hbytes', (h.indexData d o i).inside _
    ⟨bytes, bytes', n, encodedKey_of_tree htree, encodedKey_of_tree htree', rfl⟩⟩

end RangeKeys

end Chromium.IDBCoding
