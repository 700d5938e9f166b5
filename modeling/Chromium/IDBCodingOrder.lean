import Chromium.IDBCoding

/-!
# The order of the stored keys

Decoding undoes encoding, and the comparison of two encoded keys agrees with the
lexicographic order of their ranks: the ids of the prefix, the type of the key
and then each part in turn, where an array is the ranks of its elements, each
after a mark, and an end mark. The one comparison that does not follow the ranks
is the difference of two array lengths, which is narrowed to an `int`.
-/
namespace Chromium.IDBCoding
open Comparator

section RoundTrips

lemma toInt64_natCast {n : ℕ} (h : n < 2 ^ 63) : toInt64 n = n :=
  Int.bmod_eq_of_le_mul_two (by omega) (by omega)

lemma toInt_of_small {n : ℤ} (hlo : -2 ^ 31 ≤ n) (hhi : n < 2 ^ 31) : toInt n = n := by
  rw [toInt, Int.bmod_def]
  norm_num
  split_ifs <;> omega

lemma low_or_high (n k : ℕ) : (n % 2 ^ k) ||| ((n >>> k) <<< k) = n := by
  apply Nat.eq_of_testBit_eq
  intro i
  simp only [Nat.testBit_or, Nat.testBit_mod_two_pow, Nat.testBit_shiftLeft, Nat.testBit_shiftRight]
  rcases Nat.lt_or_ge i k with h | h
  · simp [h, Nat.not_le.mpr h]
  · simp [h, Nat.not_lt.mpr h]

lemma toNat_ofNat (n : ℕ) : (UInt8.ofNat n).toNat = n % 2 ^ 8 := UInt8.toNat_ofNat'

lemma decodeIntLoop_encodeInt (n shift ret : ℕ) :
    decodeIntLoop (encodeInt n) shift ret = ret ||| (n <<< shift) := by
  induction n using Nat.strong_induction_on generalizing shift ret with
  | _ n ih =>
    rw [encodeInt]
    split_ifs with h
    · have hlt : n >>> 8 < n := by
        rw [Nat.shiftRight_eq_div_pow] at h ⊢
        omega
      rw [decodeIntLoop, ih _ hlt, toNat_ofNat, Nat.or_assoc, Nat.add_comm, Nat.shiftLeft_add,
        ← Nat.shiftLeft_or_distrib, low_or_high]
    · have hlt : n % 2 ^ 8 = n := by
        rw [not_not, Nat.shiftRight_eq_div_pow] at h
        omega
      rw [decodeIntLoop, decodeIntLoop, toNat_ofNat, hlt]

lemma encodeInt_ne_nil (n : ℕ) : encodeInt n ≠ [] := by
  rw [encodeInt]
  split_ifs <;> simp

lemma decodeInt_encodeInt {n : ℕ} (h : n < 2 ^ 63) : decodeInt (encodeInt n) = some (n : ℤ) := by
  rw [decodeInt, if_neg (encodeInt_ne_nil n), decodeIntLoop_encodeInt]
  simp [toInt64_natCast h]

lemma encodeInt_length_le {n k : ℕ} (h : n < 256 ^ (k + 1)) : (encodeInt n).length ≤ k + 1 := by
  induction k generalizing n with
  | zero =>
    rw [encodeInt, if_neg (by rw [Nat.shiftRight_eq_div_pow]; omega)]
    simp
  | succ k ih =>
    rw [encodeInt]
    split_ifs
    · have : n >>> 8 < 256 ^ (k + 1) := by
        rw [Nat.shiftRight_eq_div_pow, Nat.div_lt_iff_lt_mul (by omega)]
        rw [pow_succ] at h
        omega
      simpa using ih this
    · simp

lemma decodeVarIntLoop_encodeVarInt (n shift ret : ℕ) (s : Slice) :
    decodeVarIntLoop (encodeVarInt n ++ s) shift ret = some (ret ||| (n <<< shift), s) := by
  have hmask : ∀ m : ℕ, m &&& 0x7f = m % 2 ^ 7 := fun m => Nat.and_two_pow_sub_one_eq_mod m 7
  have hmore : ∀ m < 128, UInt8.ofNat (m ||| 0x80) &&& 0x80 ≠ 0 ∧
      (UInt8.ofNat (m ||| 0x80) &&& 0x7f).toNat = m := by
    decide
  have hlast : ∀ m < 128, UInt8.ofNat m &&& 0x80 = 0 ∧ (UInt8.ofNat m &&& 0x7f).toNat = m := by
    decide
  induction n using Nat.strong_induction_on generalizing shift ret with
  | _ n ih =>
    rw [encodeVarInt]
    split_ifs with h
    · have hlt : n >>> 7 < n := by
        rw [Nat.shiftRight_eq_div_pow] at h ⊢
        omega
      obtain ⟨hbit, hval⟩ := hmore (n % 2 ^ 7) (Nat.mod_lt _ (by omega))
      rw [List.cons_append, decodeVarIntLoop, hmask]
      rw [if_pos hbit, hval, ih _ hlt, Nat.or_assoc, Nat.add_comm, Nat.shiftLeft_add,
        ← Nat.shiftLeft_or_distrib, low_or_high]
    · have hsmall : n % 2 ^ 7 = n := by
        rw [not_not, Nat.shiftRight_eq_div_pow] at h
        omega
      obtain ⟨hbit, hval⟩ := hlast (n % 2 ^ 7) (Nat.mod_lt _ (by omega))
      rw [List.cons_append, decodeVarIntLoop, hmask]
      rw [if_neg (not_not.mpr hbit), hval, hsmall, List.nil_append]

@[simp] lemma decodeVarInt_encodeVarInt {n : ℕ} (h : n < 2 ^ 63) (s : Slice) :
    decodeVarInt (encodeVarInt n ++ s) = some ((n : ℤ), s) := by
  simp [decodeVarInt, decodeVarIntLoop_encodeVarInt, toInt64_natCast h]

lemma decodeVarInt_encodeVarInt_end {n : ℕ} (h : n < 2 ^ 63) :
    decodeVarInt (encodeVarInt n) = some ((n : ℤ), []) := by
  simpa using decodeVarInt_encodeVarInt h []

lemma encodeVarInt_ne_nil (n : ℕ) : encodeVarInt n ≠ [] := by
  rw [encodeVarInt]
  split_ifs <;> simp

lemma decodeString_encodeString (s : List UInt16) : decodeString (encodeString s) = s := by
  induction s with
  | nil => rfl
  | cons c s ih =>
    rw [encodeString, decodeString, ih]
    congr 1
    apply UInt16.toNat_inj.mp
    have hlt := c.toNat_lt
    have hhi : (c >>> 8).toUInt8.toUInt16.toNat = c.toNat >>> 8 := by
      simp [Nat.shiftRight_eq_div_pow]
      omega
    have hshift : ((c >>> 8).toUInt8.toUInt16 <<< 8).toNat = (c.toNat >>> 8) <<< 8 := by
      rw [UInt16.toNat_shiftLeft, hhi]
      simp [Nat.shiftRight_eq_div_pow, Nat.shiftLeft_eq]
      omega
    have hlo : c.toUInt8.toUInt16.toNat = c.toNat % 2 ^ 8 := by simp
    rw [UInt16.toNat_or, hshift, hlo, Nat.or_comm, low_or_high]

@[simp] lemma encodeString_length (s : List UInt16) : (encodeString s).length = s.length * 2 := by
  induction s with
  | nil => rfl
  | cons c s ih =>
    simp only [encodeString, List.length_cons, ih]
    omega

lemma decodeStringWithLength_encode {s : List UInt16} (h : s.length < 2 ^ 62) (rest : Slice) :
    decodeStringWithLength (encodeStringWithLength s ++ rest) = some (s, rest) := by
  rw [decodeStringWithLength, encodeStringWithLength, List.append_assoc,
    decodeVarInt_encodeVarInt (by omega)]
  simp [decodeString_encodeString]

lemma decodeStringWithLength_encode_end {s : List UInt16} (h : s.length < 2 ^ 62) :
    decodeStringWithLength (encodeStringWithLength s) = some (s, []) := by
  simpa using decodeStringWithLength_encode h []

lemma memoryBytes_length (k n : ℕ) : (memoryBytes k n).length = k := by
  induction k generalizing n with
  | zero => rfl
  | succ k ih => simp [memoryBytes, ih]

lemma memoryValue_memoryBytes (k n : ℕ) : memoryValue (memoryBytes k n) = n % 256 ^ k := by
  induction k generalizing n with
  | zero => simp [memoryBytes, memoryValue, Nat.mod_one]
  | succ k ih =>
    have hbyte : (UInt8.ofNat n).toNat = n % 256 := toNat_ofNat n
    rw [memoryBytes, memoryValue, ih, hbyte, Nat.pow_succ', Nat.mod_mul]

lemma decodeDouble_encodeDouble (d : DoubleBits) (s : Slice) :
    decodeDouble (encodeDouble d ++ s) = some (d, s) := by
  have hlen : (encodeDouble d).length = 8 := memoryBytes_length 8 _
  have hlt := d.isLt
  rw [decodeDouble, if_neg (by simp [hlen]), List.take_left' hlen, List.drop_left' hlen,
    encodeDouble, memoryValue_memoryBytes, Nat.mod_eq_of_lt (by simpa using hlt)]
  simp

lemma firstByte_fields : ∀ a < 8, ∀ b < 8, ∀ c < 4,
    ((UInt8.ofNat ((a <<< 5) ||| (b <<< 2) ||| c) >>> 5) &&& 0x7).toNat = a ∧
    ((UInt8.ofNat ((a <<< 5) ||| (b <<< 2) ||| c) >>> 2) &&& 0x7).toNat = b ∧
    (UInt8.ofNat ((a <<< 5) ||| (b <<< 2) ||| c) &&& 0x3).toNat = c := by
  decide +kernel

lemma decode_encodePrefix {d o i : ℕ} (hd : d < 2 ^ 63) (ho : o < 2 ^ 63) (hi : i < 2 ^ 31)
    (s : Slice) : KeyPrefix.decode (encodePrefix d o i ++ s) = some (⟨d, o, i⟩, s) := by
  have hdlen : (encodeInt d).length ≤ 8 := encodeInt_length_le (by omega)
  have holen : (encodeInt o).length ≤ 8 := encodeInt_length_le (by omega)
  have hilen : (encodeInt i).length ≤ 4 := encodeInt_length_le (by omega)
  have hdpos := List.length_pos_of_ne_nil (encodeInt_ne_nil d)
  have hopos := List.length_pos_of_ne_nil (encodeInt_ne_nil o)
  have hipos := List.length_pos_of_ne_nil (encodeInt_ne_nil i)
  obtain ⟨hfd, hfo, hfi⟩ := firstByte_fields ((encodeInt d).length - 1) (by omega)
    ((encodeInt o).length - 1) (by omega) ((encodeInt i).length - 1) (by omega)
  simp only [KeyPrefix.decode, encodePrefix, List.cons_append, decodeByte, hfd, hfo, hfi,
    Option.bind_eq_bind, Option.bind_some, Nat.sub_add_cancel hdpos, Nat.sub_add_cancel hopos,
    Nat.sub_add_cancel hipos, List.append_assoc]
  rw [if_neg (by simp only [List.length_append]; omega)]
  simp [decodeInt_encodeInt hd, decodeInt_encodeInt ho, decodeInt_encodeInt (n := i) (by omega)]

end RoundTrips

section UserKeys
variable (types : KeyTypes)

mutual

/-- The rank of a key: its type, and then its parts. -/
def IDBKey.rank : IDBKey → List ℤ
  | .string value => -types.value .string :: delimited UInt8.toNat (encodeString value)
  | .date value => [-types.value .date, doubleRank value]
  | .number value => [-types.value .number, doubleRank value]
  | .array keys => -types.value .array :: ranks keys

/-- The ranks of the elements, each after a mark, and an end mark. -/
def ranks : List IDBKey → List ℤ
  | [] => [0]
  | key :: keys => 1 :: (key.rank ++ ranks keys)

end

def UserKey.rank : UserKey → List ℤ
  | .key value => value.rank types
  | .min => [-types.value .min]
  | .max => [-types.value .invalid]

mutual

/-- No array in the key has more than `n` elements. -/
def IDBKey.ArraysAtMost (n : ℕ) : IDBKey → Prop
  | .array keys => keys.length ≤ n ∧ AllAtMost n keys
  | _ => True

def AllAtMost (n : ℕ) : List IDBKey → Prop
  | [] => True
  | key :: keys => key.ArraysAtMost n ∧ AllAtMost n keys

end

def UserKey.ArraysAtMost (n : ℕ) : UserKey → Prop
  | .key value => value.ArraysAtMost n
  | _ => True

/-- The comparison decides the order of the ranks, and keys of equal rank are
consumed. -/
def Outcome (result : Option (ℤ × Slice × Slice)) (u v : List ℤ) (restA restB : Slice) : Prop :=
  ∃ r sliceA sliceB, result = some (r, sliceA, sliceB) ∧ Decides r u v ∧
    (r = 0 → sliceA = restA ∧ sliceB = restB)

variable {types}

lemma outcome_of_types_ne {a b : WebIDBKeyType} (hab : a ≠ b) {typeA typeB : UInt8}
    (ha : keyTypeByteToKeyType typeA = a) (hb : keyTypeByteToKeyType typeB = b) {depth : ℕ}
    (hdepth : 0 < depth) (sliceA sliceB restA restB : Slice) (u v : List ℤ) :
    Outcome (compareEncodedIDBKeys types depth (typeA :: sliceA) (typeB :: sliceB))
      (-types.value a :: u) (-types.value b :: v) restA restB := by
  obtain ⟨depth, rfl⟩ := Nat.exists_eq_succ_of_ne_zero hdepth.ne'
  have hne : types.value a ≠ types.value b := fun h => hab (types.injective h)
  have hx : compareTypes types a b ≠ 0 := by
    rw [compareTypes]
    omega
  refine ⟨compareTypes types a b, sliceA, sliceB, ?_, ?_, fun h => absurd h hx⟩
  · simp [compareEncodedIDBKeys, decodeByte, ha, hb, hx]
  · refine decides_head ?_ ?_ ?_ u v <;> rw [compareTypes] at * <;> omega

lemma compareTypes_self (a : WebIDBKeyType) : compareTypes types a a = 0 := by
  rw [compareTypes]
  omega

lemma outcome_strings {s s' : List UInt16} (hs : s.length < 2 ^ 62) (hs' : s'.length < 2 ^ 62)
    (restA restB : Slice) :
    Outcome (compareEncodedStringsWithLength (encodeStringWithLength s ++ restA)
        (encodeStringWithLength s' ++ restB))
      (delimited UInt8.toNat (encodeString s)) (delimited UInt8.toNat (encodeString s'))
      restA restB := by
  refine ⟨lexCompare (encodeString s) (encodeString s'), restA, restB, ?_, ?_,
    fun _ => ⟨rfl, rfl⟩⟩
  · rw [compareEncodedStringsWithLength, encodeStringWithLength, encodeStringWithLength,
      List.append_assoc, List.append_assoc, decodeVarInt_encodeVarInt (by omega),
      decodeVarInt_encodeVarInt (by omega)]
    simp [encodeString_length]
  · exact decides_lexCompare (fun a b => UInt8.lt_iff_toNat_lt) (fun a b => UInt8.toNat_inj.mp) _ _

lemma decides_doubles (d e : Double) :
    Decides (if doubleLess d e then -1 else if doubleLess e d then 1 else 0)
      [doubleRank d] [doubleRank e] := by
  have hd := d.2
  have he := e.2
  refine decides_singleton ?_ ?_ <;> simp only [doubleLess, hd, he] <;> split_ifs <;> simp_all
  omega

/-- Two keys of one type: the type bytes agree, and the rest decides. -/
lemma Outcome.cons {result : Option (ℤ × Slice × Slice)} {u v : List ℤ} {restA restB : Slice}
    (h : Outcome result u v restA restB) (a : ℤ) :
    Outcome result (a :: u) (a :: v) restA restB := by
  obtain ⟨r, sliceA, sliceB, hresult, hdecides, hrest⟩ := h
  exact ⟨r, sliceA, sliceB, hresult, hdecides.cons a, hrest⟩

variable (types) in
/-- The type byte of a key. -/
lemma exists_encode_eq (key : IDBKey) : ∃ (byte : UInt8) (payload : Slice) (t : WebIDBKeyType)
    (u : List ℤ), encodeIDBKey key = byte :: payload ∧ keyTypeByteToKeyType byte = t ∧
      key.rank types = -types.value t :: u ∧ t ≠ .min ∧ t ≠ .invalid := by
  cases key with
  | string value =>
    exact ⟨_, _, .string, _, encodeIDBKey.eq_1 _, rfl, IDBKey.rank.eq_1 _ _, by simp⟩
  | date value => exact ⟨_, _, .date, _, encodeIDBKey.eq_2 _, rfl, IDBKey.rank.eq_2 _ _, by simp⟩
  | number value =>
    exact ⟨_, _, .number, _, encodeIDBKey.eq_3 _, rfl, IDBKey.rank.eq_3 _ _, by simp⟩
  | array keys => exact ⟨_, _, .array, _, encodeIDBKey.eq_4 _, rfl, IDBKey.rank.eq_4 _ _, by simp⟩

mutual

/-- The comparison of two encoded keys agrees with their ranks. -/
theorem compareEncodedIDBKeys_rank {n : ℕ} (hn : n < 2 ^ 31) (a b : IDBKey)
    (ha : a.ArraysAtMost n) (hb : b.ArraysAtMost n) {depth : ℕ}
    (hdepth : (encodeIDBKey a).length ≤ depth) (restA restB : Slice) :
    Outcome (compareEncodedIDBKeys types depth (encodeIDBKey a ++ restA)
      (encodeIDBKey b ++ restB)) (a.rank types) (b.rank types) restA restB := by
  match a, b with
  | .string s, .string s' =>
    simp only [encodeIDBKey, IDBKey.rank, List.cons_append] at hdepth ⊢
    obtain ⟨depth, rfl⟩ := Nat.exists_eq_succ_of_ne_zero (Nat.lt_of_lt_of_le (by simp) hdepth).ne'
    refine Outcome.cons ?_ _
    have h := outcome_strings s.2 s'.2 restA restB
    simpa [compareEncodedIDBKeys, decodeByte, compareTypes_self, kIndexedDBKeyStringTypeByte,
      kIndexedDBKeyArrayTypeByte] using h
  | .date d, .date e =>
    simp only [encodeIDBKey, IDBKey.rank, List.cons_append] at hdepth ⊢
    obtain ⟨depth, rfl⟩ := Nat.exists_eq_succ_of_ne_zero (Nat.lt_of_lt_of_le (by simp) hdepth).ne'
    refine Outcome.cons ⟨_, restA, restB, ?_, decides_doubles d e, fun _ => ⟨rfl, rfl⟩⟩ _
    simp [compareEncodedIDBKeys, decodeByte, compareTypes_self, kIndexedDBKeyStringTypeByte,
      kIndexedDBKeyArrayTypeByte, kIndexedDBKeyDateTypeByte, decodeDouble_encodeDouble]
  | .number d, .number e =>
    simp only [encodeIDBKey, IDBKey.rank, List.cons_append] at hdepth ⊢
    obtain ⟨depth, rfl⟩ := Nat.exists_eq_succ_of_ne_zero (Nat.lt_of_lt_of_le (by simp) hdepth).ne'
    refine Outcome.cons ⟨_, restA, restB, ?_, decides_doubles d e, fun _ => ⟨rfl, rfl⟩⟩ _
    simp [compareEncodedIDBKeys, decodeByte, compareTypes_self, kIndexedDBKeyStringTypeByte,
      kIndexedDBKeyArrayTypeByte, kIndexedDBKeyNumberTypeByte, kIndexedDBKeyDateTypeByte,
      decodeDouble_encodeDouble]
  | .array as, .array bs =>
    simp only [IDBKey.ArraysAtMost] at ha hb
    simp only [encodeIDBKey, IDBKey.rank, List.cons_append, List.append_assoc] at hdepth ⊢
    obtain ⟨depth, rfl⟩ := Nat.exists_eq_succ_of_ne_zero (Nat.lt_of_lt_of_le (by simp) hdepth).ne'
    have hdepth' : (encodeIDBKeys as).length ≤ depth := by
      simp only [List.length_cons, List.length_append] at hdepth
      omega
    obtain ⟨r, sliceA, sliceB, hloop, hdecides, hrest⟩ :=
      compareArrays_ranks hn as bs ha.2 hb.2 ha.1 hb.1 hdepth' restA restB
    have hmin : (Min.min (as.length : ℤ) bs.length).toNat = Min.min as.length bs.length := by
      omega
    refine Outcome.cons ⟨_, sliceA, sliceB, ?_, hdecides, hrest⟩ _
    rw [compareEncodedIDBKeys]
    simp only [decodeByte, Option.bind_eq_bind, Option.bind_some, compareTypes_self, ne_eq,
      not_true_eq_false, if_false, if_true, decodeVarInt_encodeVarInt (n := as.length) (by omega),
      decodeVarInt_encodeVarInt (n := bs.length) (by omega), hmin, hloop, andThen]
    split_ifs <;> rfl
  | .string _, .date _ | .string _, .number _ | .string _, .array _
  | .date _, .string _ | .date _, .number _ | .date _, .array _
  | .number _, .string _ | .number _, .date _ | .number _, .array _
  | .array _, .string _ | .array _, .date _ | .array _, .number _ =>
    simp only [encodeIDBKey, IDBKey.rank, List.cons_append] at hdepth ⊢
    exact outcome_of_types_ne (by decide) rfl rfl (Nat.lt_of_lt_of_le (by simp) hdepth) _ _ _ _ _ _

/-- The loop over two arrays, and the difference of their lengths. -/
theorem compareArrays_ranks {n : ℕ} (hn : n < 2 ^ 31) (as bs : List IDBKey)
    (ha : AllAtMost n as) (hb : AllAtMost n bs) (hlenA : as.length ≤ n) (hlenB : bs.length ≤ n)
    {depth : ℕ} (hdepth : (encodeIDBKeys as).length ≤ depth) (restA restB : Slice) :
    ∃ r sliceA sliceB, compareArrays (compareEncodedIDBKeys types depth)
        (Min.min as.length bs.length) (encodeIDBKeys as ++ restA) (encodeIDBKeys bs ++ restB) =
          some (r, sliceA, sliceB) ∧
      Decides (andThen r (toInt (as.length - bs.length))) (ranks types as) (ranks types bs) ∧
      (andThen r (toInt (as.length - bs.length)) = 0 → sliceA = restA ∧ sliceB = restB) := by
  match as, bs with
  | [], [] =>
    refine ⟨0, restA, restB, by simp [compareArrays, encodeIDBKeys], ?_, fun _ => ⟨rfl, rfl⟩⟩
    have : andThen 0 (toInt ((([] : List IDBKey).length : ℤ) - ([] : List IDBKey).length)) = 0 := by
      decide
    rw [this, ranks]
    exact decides_nil.cons 0
  | [], b :: bs =>
    refine ⟨0, restA, encodeIDBKeys (b :: bs) ++ restB, by simp [compareArrays, encodeIDBKeys], ?_⟩
    have hneg : toInt ((([] : List IDBKey).length : ℤ) - (b :: bs).length) < 0 := by
      rw [toInt_of_small] <;> simp only [List.length_nil, List.length_cons] at hlenB ⊢ <;> omega
    rw [andThen_zero, ranks, ranks]
    refine ⟨decides_head ?_ ?_ (by simp) _ _, fun h => absurd h hneg.ne⟩
    · simpa using hneg
    · simpa using hneg.le
  | a :: as, [] =>
    refine ⟨0, encodeIDBKeys (a :: as) ++ restA, restB, by simp [compareArrays, encodeIDBKeys], ?_⟩
    have hpos : 0 < toInt (((a :: as).length : ℤ) - ([] : List IDBKey).length) := by
      rw [toInt_of_small] <;> simp only [List.length_nil, List.length_cons] at hlenA ⊢ <;> omega
    rw [andThen_zero, ranks, ranks]
    refine ⟨decides_head ?_ ?_ (by simp) _ _, fun h => absurd h hpos.ne'⟩
    · simpa using hpos.le
    · simpa using hpos
  | a :: as, b :: bs =>
    simp only [AllAtMost] at ha hb
    simp only [List.length_cons] at hlenA hlenB
    simp only [encodeIDBKeys, List.length_append] at hdepth
    obtain ⟨r, sliceA, sliceB, hcompare, hdecides, hrest⟩ := compareEncodedIDBKeys_rank hn a b
      ha.1 hb.1 (show (encodeIDBKey a).length ≤ depth by omega)
      (encodeIDBKeys as ++ restA) (encodeIDBKeys bs ++ restB)
    have hlen : toInt (((a :: as).length : ℤ) - (b :: bs).length) =
        toInt ((as.length : ℤ) - bs.length) := by
      congr 1
      simp only [List.length_cons]
      omega
    rw [hlen, ranks, ranks, List.length_cons, List.length_cons, Nat.add_min_add_right,
      compareArrays, encodeIDBKeys, encodeIDBKeys, List.append_assoc, List.append_assoc, hcompare]
    simp only [Option.bind_eq_bind, Option.bind_some]
    by_cases hr : r = 0
    · obtain ⟨rfl, rfl⟩ := hrest hr
      subst hr
      obtain ⟨r, sliceA, sliceB, hloop, hdecides', hrest'⟩ := compareArrays_ranks hn as bs ha.2 hb.2
        (by omega) (by omega) (show (encodeIDBKeys as).length ≤ depth by omega) restA restB
      refine ⟨r, sliceA, sliceB, hloop, ?_, hrest'⟩
      exact (hdecides.append fun _ => hdecides').cons 1
    · refine ⟨r, sliceA, sliceB, if_pos hr, ?_, fun h => ?_⟩
      · exact (hdecides.append fun h => absurd h hr).cons 1
      · rw [andThen_of_ne hr] at h
        exact absurd h hr

end

lemma UserKey.encode_ne_nil (a : UserKey) : a.encode ≠ [] := by
  cases a with
  | key value => cases value <;> simp [UserKey.encode, encodeIDBKey]
  | min => simp [UserKey.encode, minIDBKey]
  | max => simp [UserKey.encode, maxIDBKey]

variable (types) in
/-- The comparison of two encoded user keys, sentinels included. -/
theorem compareKeys_rank {n : ℕ} (hn : n < 2 ^ 31) (a b : UserKey) (ha : a.ArraysAtMost n)
    (hb : b.ArraysAtMost n) (restA restB : Slice) :
    Outcome (compareKeys types (a.encode ++ restA) (b.encode ++ restB)) (a.rank types)
      (b.rank types) restA restB := by
  have hdepth : (a.encode).length ≤ (a.encode ++ restA).length := by simp
  rw [compareKeys]
  match a, b with
  | .key a, .key b => exact compareEncodedIDBKeys_rank hn a b ha hb hdepth restA restB
  | .min, .min =>
    refine ⟨0, restA, restB, ?_, decides_nil.cons _, fun _ => ⟨rfl, rfl⟩⟩
    simp [UserKey.encode, minIDBKey, compareEncodedIDBKeys, decodeByte, compareTypes_self,
      kIndexedDBKeyMinKeyTypeByte, kIndexedDBKeyArrayTypeByte, kIndexedDBKeyStringTypeByte,
      kIndexedDBKeyDateTypeByte, kIndexedDBKeyNumberTypeByte]
  | .max, .max =>
    refine ⟨0, restA, restB, ?_, decides_nil.cons _, fun _ => ⟨rfl, rfl⟩⟩
    simp [UserKey.encode, maxIDBKey, compareEncodedIDBKeys, decodeByte, compareTypes_self,
      kIndexedDBKeyNullTypeByte, kIndexedDBKeyArrayTypeByte, kIndexedDBKeyStringTypeByte,
      kIndexedDBKeyDateTypeByte, kIndexedDBKeyNumberTypeByte]
  | .min, .max =>
    exact outcome_of_types_ne (by decide) rfl rfl (by simp [UserKey.encode, minIDBKey])
      _ _ _ _ [] []
  | .max, .min =>
    exact outcome_of_types_ne (by decide) rfl rfl (by simp [UserKey.encode, maxIDBKey])
      _ _ _ _ [] []
  | .key a, .min =>
    obtain ⟨byte, payload, t, u, henc, ht, hrank, hmin, -⟩ := exists_encode_eq types a
    rw [UserKey.rank, UserKey.encode, henc, hrank]
    exact outcome_of_types_ne hmin ht rfl (by simp) _ _ _ _ u []
  | .key a, .max =>
    obtain ⟨byte, payload, t, u, henc, ht, hrank, -, hmax⟩ := exists_encode_eq types a
    rw [UserKey.rank, UserKey.encode, henc, hrank]
    exact outcome_of_types_ne hmax ht rfl (by simp) _ _ _ _ u []
  | .min, .key b =>
    obtain ⟨byte, payload, t, u, henc, ht, hrank, hmin, -⟩ := exists_encode_eq types b
    rw [UserKey.rank, UserKey.rank, UserKey.encode, UserKey.encode, henc, hrank]
    exact outcome_of_types_ne hmin.symm rfl ht (by simp [minIDBKey]) _ _ _ _ [] u
  | .max, .key b =>
    obtain ⟨byte, payload, t, u, henc, ht, hrank, -, hmax⟩ := exists_encode_eq types b
    rw [UserKey.rank, UserKey.rank, UserKey.encode, UserKey.encode, henc, hrank]
    exact outcome_of_types_ne hmax.symm rfl ht (by simp [maxIDBKey]) _ _ _ _ [] u

end UserKeys

section StoredKeys
variable (types : KeyTypes)

def GlobalKey.rank : GlobalKey → List ℤ
  | .schemaVersion => [0]
  | .maxDatabaseId => [1]
  | .dataVersion => [2]
  | .databaseFreeList databaseId => [100, databaseId]
  | .databaseName originIdentifier name =>
    201 :: (delimited UInt16.toNat (asciiToUTF16 originIdentifier) ++
      delimited UInt16.toNat name)

def DatabaseKey.rank : DatabaseKey → List ℤ
  | .metaData type => [(type : ℕ)]
  | .objectStoreMetaData objectStoreId metaDataType =>
    [50, (objectStoreId : ℕ), metaDataType.toNat]
  | .indexMetaData objectStoreId indexId metaDataType =>
    [100, (objectStoreId : ℕ), (indexId : ℕ), metaDataType.toNat]
  | .objectStoreFreeList objectStoreId => [150, (objectStoreId : ℕ)]
  | .indexFreeList objectStoreId indexId => [151, (objectStoreId : ℕ), (indexId : ℕ)]
  | .objectStoreNames objectStoreName => 200 :: delimited UInt16.toNat objectStoreName
  | .indexNames objectStoreId indexName =>
    201 :: (objectStoreId : ℕ) :: delimited UInt16.toNat indexName

/-- Entries without a primary key are all equal and come first. -/
def IndexTail.rank : IndexTail → List ℤ
  | .none => [0]
  | .sequenceNumber _ => [0]
  | .primaryKey n key => 1 :: (key.rank types ++ [((n : ℕ) : ℤ)])

def StoredKey.rank : StoredKey → List ℤ
  | .global key => 0 :: 0 :: 0 :: key.rank
  | .database databaseId key => (databaseId : ℕ) :: 0 :: 0 :: key.rank
  | .objectStoreData databaseId objectStoreId key =>
    (databaseId : ℕ) :: (objectStoreId : ℕ) :: kObjectStoreDataIndexId :: key.rank types
  | .existsEntry databaseId objectStoreId key =>
    (databaseId : ℕ) :: (objectStoreId : ℕ) :: kExistsEntryIndexId :: key.rank types
  | .indexData databaseId objectStoreId indexId key tail =>
    (databaseId : ℕ) :: (objectStoreId : ℕ) :: (indexId : ℕ) ::
      (key.rank types ++ tail.rank types)

lemma compareInts_of_small {a b : ℤ} (hlo : -2 ^ 63 ≤ a - b) (hhi : a - b < 2 ^ 63) :
    compareInts a b = if a - b < 0 then -1 else if a - b > 0 then 1 else 0 := by
  have hdiff : Int.bmod (a - b) (2 ^ 64) = a - b :=
    Int.bmod_eq_of_le_mul_two (by omega) (by omega)
  simp only [compareInts, hdiff]

lemma decides_compareInts {a b : ℕ} (ha : a < 2 ^ 63) (hb : b < 2 ^ 63) :
    Decides (compareInts a b) [(a : ℤ)] [(b : ℤ)] := by
  rw [compareInts_of_small (by omega) (by omega)]
  refine decides_singleton ?_ ?_ <;> split_ifs <;> omega

lemma decides_numbers (a b : Number) :
    Decides (compareInts (a : ℕ) (b : ℕ)) [((a : ℕ) : ℤ)] [((b : ℕ) : ℤ)] :=
  decides_compareInts a.2 b.2

lemma decides_sub (a b : ℕ) : Decides ((a : ℤ) - b) [(a : ℤ)] [(b : ℤ)] :=
  decides_singleton (by omega) (by omega)

lemma decides_names (s s' : List UInt16) :
    Decides (lexCompare s s') (delimited UInt16.toNat s) (delimited UInt16.toNat s') :=
  decides_lexCompare (fun _ _ => UInt16.lt_iff_toNat_lt) (fun _ _ => UInt16.toNat_inj.mp) _ _

lemma decodeHeader_encodePrefix {d : ℕ} (hd : d < 2 ^ 63) (c : UInt8) (s : Slice) :
    decodeHeader (encodePrefix d 0 0 ++ c :: s) = some s := by
  simp [decodeHeader, decode_encodePrefix hd (o := 0) (i := 0) (by omega) (by omega), decodeByte]

lemma compareDecoded_eq {κ : Type} {decode : Slice → Option κ} {cmp : κ → κ → ℤ} {a b : Slice}
    {keyA keyB : κ} (ha : decode a = some keyA) (hb : decode b = some keyB) :
    compareDecoded decode cmp a b = some (cmp keyA keyB) := by
  simp [compareDecoded, ha, hb]

lemma asciiToUTF16_length (s : { s : List UInt8 // s.length < 2 ^ 62 }) :
    (asciiToUTF16 s).length < 2 ^ 62 := by
  rw [asciiToUTF16, List.length_map]
  exact s.2

section Decoding
variable {d : ℕ} (hd : d < 2 ^ 63)
include hd

lemma decode_databaseFreeList (c : UInt8) (id : Number) :
    DatabaseFreeListKey.decode (encodePrefix d 0 0 ++ c :: encodeVarInt id) = some ⟨id⟩ := by
  simp [DatabaseFreeListKey.decode, decodeHeader_encodePrefix hd,
    decodeVarInt_encodeVarInt_end id.2]

lemma decode_databaseName (c : UInt8) {origin name : List UInt16} (ho : origin.length < 2 ^ 62)
    (hn : name.length < 2 ^ 62) :
    DatabaseNameKey.decode (encodePrefix d 0 0 ++ c :: (encodeStringWithLength origin ++
      encodeStringWithLength name)) = some ⟨origin, name⟩ := by
  simp [DatabaseNameKey.decode, decodeHeader_encodePrefix hd, decodeStringWithLength_encode ho,
    decodeStringWithLength_encode_end hn]

lemma decode_objectStoreMetaData (c : UInt8) (id : Number) (type : UInt8) :
    ObjectStoreMetaDataKey.decode (encodePrefix d 0 0 ++ c :: (encodeVarInt id ++ [type])) =
      some ⟨id, type⟩ := by
  simp [ObjectStoreMetaDataKey.decode, decodeHeader_encodePrefix hd,
    decodeVarInt_encodeVarInt id.2, decodeByte]

lemma decode_indexMetaData (c : UInt8) (id index : Number) (type : UInt8) :
    IndexMetaDataKey.decode (encodePrefix d 0 0 ++ c :: (encodeVarInt id ++ (encodeVarInt index ++
      [type]))) = some ⟨id, index, type⟩ := by
  simp [IndexMetaDataKey.decode, decodeHeader_encodePrefix hd, decodeVarInt_encodeVarInt id.2,
    decodeVarInt_encodeVarInt index.2, decodeByte]

lemma decode_objectStoreFreeList (c : UInt8) (id : Number) :
    ObjectStoreFreeListKey.decode (encodePrefix d 0 0 ++ c :: encodeVarInt id) = some ⟨id⟩ := by
  simp [ObjectStoreFreeListKey.decode, decodeHeader_encodePrefix hd,
    decodeVarInt_encodeVarInt_end id.2]

lemma decode_indexFreeList (c : UInt8) (id index : Number) :
    IndexFreeListKey.decode (encodePrefix d 0 0 ++ c :: (encodeVarInt id ++ encodeVarInt index)) =
      some ⟨id, index⟩ := by
  simp [IndexFreeListKey.decode, decodeHeader_encodePrefix hd, decodeVarInt_encodeVarInt id.2,
    decodeVarInt_encodeVarInt_end index.2]

lemma decode_objectStoreNames (c : UInt8) (name : String16) :
    ObjectStoreNamesKey.decode (encodePrefix d 0 0 ++ c :: encodeStringWithLength name) =
      some ⟨name⟩ := by
  simp [ObjectStoreNamesKey.decode, decodeHeader_encodePrefix hd,
    decodeStringWithLength_encode_end name.2]

lemma decode_indexNames (c : UInt8) (id : Number) (name : String16) :
    IndexNamesKey.decode (encodePrefix d 0 0 ++ c :: (encodeVarInt id ++
      encodeStringWithLength name)) = some ⟨id, name⟩ := by
  simp [IndexNamesKey.decode, decodeHeader_encodePrefix hd, decodeVarInt_encodeVarInt id.2,
    decodeStringWithLength_encode_end name.2]

end Decoding

def GlobalKey.typeByte : GlobalKey → UInt8
  | .schemaVersion => kSchemaVersionTypeByte
  | .maxDatabaseId => kMaxDatabaseIdTypeByte
  | .dataVersion => kDataVersionTypeByte
  | .databaseFreeList _ => kDatabaseFreeListTypeByte
  | .databaseName _ _ => kDatabaseNameTypeByte

lemma GlobalKey.suffix_eq (k : GlobalKey) : ∃ payload u,
    k.suffix = k.typeByte :: payload ∧ k.rank = (k.typeByte.toNat : ℤ) :: u := by
  cases k <;> exact ⟨_, _, rfl, rfl⟩

lemma decides_of_typeByte_ne {a b : UInt8} (h : a ≠ b) (u v : List ℤ) :
    (a.toNat : ℤ) - b.toNat ≠ 0 ∧
      Decides ((a.toNat : ℤ) - b.toNat) ((a.toNat : ℤ) :: u) ((b.toNat : ℤ) :: v) := by
  have hne : a.toNat ≠ b.toNat := fun h' => h (UInt8.toNat_inj.mp h')
  exact ⟨by omega, decides_head (by omega) (by omega) (by omega) u v⟩

theorem compareGlobalMetadata_rank (a b : GlobalKey) :
    ∃ r, compareGlobalMetadata (encodePrefix 0 0 0 ++ a.suffix) (encodePrefix 0 0 0 ++ b.suffix)
      a.suffix b.suffix = some r ∧ Decides r a.rank b.rank := by
  by_cases htype : a.typeByte = b.typeByte
  · have hnat : a.typeByte.toNat = b.typeByte.toNat := congrArg _ htype
    -- two different constructors have different type bytes
    cases a <;> cases b <;> try (
      exfalso
      revert hnat
      simp only [GlobalKey.typeByte, kSchemaVersionTypeByte, kMaxDatabaseIdTypeByte,
        kDataVersionTypeByte, kDatabaseFreeListTypeByte, kDatabaseNameTypeByte, UInt8.reduceToNat]
      omega)
    case databaseFreeList.databaseFreeList id id' =>
      refine ⟨_, compareDecoded_eq (decode_databaseFreeList (by omega) _ id)
        (decode_databaseFreeList (by omega) _ id'), ?_⟩
      exact (decides_numbers _ _).cons 100
    case databaseName.databaseName origin name origin' name' =>
      refine ⟨_, compareDecoded_eq
        (decode_databaseName (by omega) _ (asciiToUTF16_length origin) name.2)
        (decode_databaseName (by omega) _ (asciiToUTF16_length origin') name'.2), ?_⟩
      exact ((decides_names _ _).append fun _ => decides_names _ _).cons 201
    all_goals exact ⟨0, rfl, decides_nil.cons _⟩
  · obtain ⟨payloadA, u, hsuffixA, hrankA⟩ := a.suffix_eq
    obtain ⟨payloadB, v, hsuffixB, hrankB⟩ := b.suffix_eq
    obtain ⟨hx, hdecides⟩ := decides_of_typeByte_ne htype u v
    refine ⟨_, ?_, hrankA ▸ hrankB ▸ hdecides⟩
    simp [compareGlobalMetadata, hsuffixA, hsuffixB, decodeByte, hx]

def DatabaseKey.typeByte : DatabaseKey → UInt8
  | .metaData type => UInt8.ofNat type
  | .objectStoreMetaData _ _ => kObjectStoreMetaDataTypeByte
  | .indexMetaData _ _ _ => kIndexMetaDataTypeByte
  | .objectStoreFreeList _ => kObjectStoreFreeListTypeByte
  | .indexFreeList _ _ => kIndexFreeListTypeByte
  | .objectStoreNames _ => kObjectStoreNamesTypeByte
  | .indexNames _ _ => kIndexNamesKeyTypeByte

lemma toNat_metaDataType (type : Fin 5) : (UInt8.ofNat type).toNat = type := by
  rw [toNat_ofNat]
  omega

lemma DatabaseKey.suffix_eq (k : DatabaseKey) : ∃ payload u,
    k.suffix = k.typeByte :: payload ∧ k.rank = (k.typeByte.toNat : ℤ) :: u := by
  cases k with
  | metaData type => exact ⟨_, _, rfl, by rw [rank, typeByte, toNat_metaDataType]⟩
  | _ => exact ⟨_, _, rfl, rfl⟩

theorem compareDatabaseMetadata_rank {d : ℕ} (hd : d < 2 ^ 63) (a b : DatabaseKey) :
    ∃ r, compareDatabaseMetadata (encodePrefix d 0 0 ++ a.suffix) (encodePrefix d 0 0 ++ b.suffix)
      a.suffix b.suffix = some r ∧ Decides r a.rank b.rank := by
  by_cases htype : a.typeByte = b.typeByte
  · have hnat : a.typeByte.toNat = b.typeByte.toNat := congrArg _ htype
    cases a <;> cases b <;> try (
      exfalso
      revert hnat
      simp only [DatabaseKey.typeByte, toNat_metaDataType, kObjectStoreMetaDataTypeByte,
        kIndexMetaDataTypeByte, kObjectStoreFreeListTypeByte, kIndexFreeListTypeByte,
        kObjectStoreNamesTypeByte, kIndexNamesKeyTypeByte, UInt8.reduceToNat]
      omega)
    case metaData.metaData type type' =>
      obtain rfl : type = type' := by
        rw [DatabaseKey.typeByte, DatabaseKey.typeByte, toNat_metaDataType,
          toNat_metaDataType] at hnat
        exact Fin.ext hnat
      refine ⟨0, ?_, decides_nil.cons _⟩
      have hsmall : UInt8.ofNat type < kMaxSimpleMetadataType := by
        rw [UInt8.lt_iff_toNat_lt, toNat_metaDataType]
        exact type.2
      simp [compareDatabaseMetadata, DatabaseKey.suffix, decodeByte, hsmall]
    case objectStoreMetaData.objectStoreMetaData id type id' type' =>
      refine ⟨_, compareDecoded_eq (decode_objectStoreMetaData hd _ id type)
        (decode_objectStoreMetaData hd _ id' type'), ?_⟩
      exact ((decides_numbers _ _).append fun _ => decides_sub _ _).cons 50
    case indexMetaData.indexMetaData id index type id' index' type' =>
      refine ⟨_, compareDecoded_eq (decode_indexMetaData hd _ id index type)
        (decode_indexMetaData hd _ id' index' type'), ?_⟩
      exact ((decides_numbers _ _).append fun _ =>
        (decides_numbers _ _).append fun _ => decides_sub _ _).cons 100
    case objectStoreFreeList.objectStoreFreeList id id' =>
      refine ⟨_, compareDecoded_eq (decode_objectStoreFreeList hd _ id)
        (decode_objectStoreFreeList hd _ id'), ?_⟩
      exact (decides_numbers _ _).cons 150
    case indexFreeList.indexFreeList id index id' index' =>
      refine ⟨_, compareDecoded_eq (decode_indexFreeList hd _ id index)
        (decode_indexFreeList hd _ id' index'), ?_⟩
      exact ((decides_numbers _ _).append fun _ => decides_numbers _ _).cons 151
    case objectStoreNames.objectStoreNames name name' =>
      refine ⟨_, compareDecoded_eq (decode_objectStoreNames hd _ name)
        (decode_objectStoreNames hd _ name'), ?_⟩
      exact (decides_names _ _).cons 200
    case indexNames.indexNames id name id' name' =>
      refine ⟨_, compareDecoded_eq (decode_indexNames hd _ id name)
        (decode_indexNames hd _ id' name'), ?_⟩
      exact ((decides_numbers _ _).append fun _ => decides_names _ _).cons 201
  · obtain ⟨payloadA, u, hsuffixA, hrankA⟩ := a.suffix_eq
    obtain ⟨payloadB, v, hsuffixB, hrankB⟩ := b.suffix_eq
    obtain ⟨hx, hdecides⟩ := decides_of_typeByte_ne htype u v
    refine ⟨_, ?_, hrankA ▸ hrankB ▸ hdecides⟩
    simp [compareDatabaseMetadata, hsuffixA, hsuffixB, decodeByte, hx]

def IndexTail.ArraysAtMost (n : ℕ) : IndexTail → Prop
  | .primaryKey _ key => key.ArraysAtMost n
  | _ => True

/-- No array in a key of the stored key has more than `n` elements. -/
def StoredKey.ArraysAtMost (n : ℕ) : StoredKey → Prop
  | .objectStoreData _ _ key => key.ArraysAtMost n
  | .existsEntry _ _ key => key.ArraysAtMost n
  | .indexData _ _ _ key tail => key.ArraysAtMost n ∧ tail.ArraysAtMost n
  | _ => True

variable {types}

variable (types) in
/-- The sequence number of a tail, and the primary key after it. -/
lemma decodeSequenceNumber_encode (t : IndexTail) :
    ∃ seq rest, decodeSequenceNumber t.encode = some (seq, rest) ∧
      ((rest = [] ∧ t.rank types = [0]) ∨ ∃ n key, t = .primaryKey n key ∧
        seq = ((n : ℕ) : ℤ) ∧ rest = key.encode) := by
  cases t with
  | none => exact ⟨-1, [], rfl, .inl ⟨rfl, rfl⟩⟩
  | sequenceNumber n =>
    refine ⟨((n : ℕ) : ℤ), [], ?_, .inl ⟨rfl, rfl⟩⟩
    rw [decodeSequenceNumber, IndexTail.encode, if_neg (encodeVarInt_ne_nil n),
      decodeVarInt_encodeVarInt_end n.2]
  | primaryKey n key =>
    refine ⟨((n : ℕ) : ℤ), key.encode, ?_, .inr ⟨n, key, rfl, rfl, rfl⟩⟩
    rw [decodeSequenceNumber, IndexTail.encode, if_neg (by simp [encodeVarInt_ne_nil]),
      decodeVarInt_encodeVarInt n.2]

variable (types) in
theorem compareIndexData_rank {n : ℕ} (hn : n < 2 ^ 31) (keyA keyB : UserKey)
    (tailA tailB : IndexTail) (hkeyA : keyA.ArraysAtMost n) (hkeyB : keyB.ArraysAtMost n)
    (htailA : tailA.ArraysAtMost n) (htailB : tailB.ArraysAtMost n) :
    ∃ r, compareIndexData types (keyA.encode ++ tailA.encode) (keyB.encode ++ tailB.encode) false =
        some r ∧
      Decides r (keyA.rank types ++ tailA.rank types) (keyB.rank types ++ tailB.rank types) := by
  obtain ⟨r, sliceA, sliceB, hkeys, hdecides, hrest⟩ :=
    compareKeys_rank types hn keyA keyB hkeyA hkeyB tailA.encode tailB.encode
  by_cases hr : r = 0
  swap
  · refine ⟨andThen r 0, ?_, hdecides.append fun h => absurd h hr⟩
    simp [compareIndexData, hkeys, hr, andThen_of_ne]
  obtain ⟨rfl, rfl⟩ := hrest hr
  subst hr
  obtain ⟨seqA, restA, hseqA, hcaseA⟩ := decodeSequenceNumber_encode types tailA
  obtain ⟨seqB, restB, hseqB, hcaseB⟩ := decodeSequenceNumber_encode types tailB
  suffices h : ∃ r, (if restA = [] ∨ restB = [] then some (compareSizes restA.length restB.length)
      else (compareKeys types restA restB).bind fun result =>
        some (andThen result.1 (compareInts seqA seqB))) = some r ∧
      Decides r (tailA.rank types) (tailB.rank types) by
    obtain ⟨r, hr, hdecides'⟩ := h
    refine ⟨r, ?_, hdecides.append fun _ => hdecides'⟩
    simpa [compareIndexData, hkeys, hseqA, hseqB] using hr
  have hne := UserKey.encode_ne_nil
  rcases hcaseA with ⟨rfl, hrankA⟩ | ⟨a, keyA, rfl, rfl, rfl⟩ <;>
    rcases hcaseB with ⟨rfl, hrankB⟩ | ⟨b, keyB, rfl, rfl, rfl⟩
  · exact ⟨0, by simp [compareSizes], hrankA ▸ hrankB ▸ decides_nil.cons 0⟩
  · refine ⟨-1, ?_, hrankA ▸ decides_head (by simp) (by simp) (by simp) _ _⟩
    simp [compareSizes, hne]
  · refine ⟨1, ?_, hrankB ▸ decides_head (by simp) (by simp) (by simp) _ _⟩
    simp [compareSizes, hne]
  · obtain ⟨r, sliceA, sliceB, hkeys', hdecides', -⟩ :=
      compareKeys_rank types hn keyA keyB htailA htailB [] []
    rw [List.append_nil, List.append_nil] at hkeys'
    refine ⟨andThen r (compareInts (a : ℕ) (b : ℕ)), by simp [hne, hkeys'], ?_⟩
    exact (hdecides'.append fun _ => decides_numbers _ _).cons 1

/-- Object store data and exists entries. -/
theorem compareUserKeys_rank {n : ℕ} (hn : n < 2 ^ 31) (a b : UserKey) (ha : a.ArraysAtMost n)
    (hb : b.ArraysAtMost n) :
    ∃ r, (if a.encode = [] ∨ b.encode = [] then
        pure (compareSizes a.encode.length b.encode.length)
      else compareUserKeys types a.encode b.encode) = some r ∧
      Decides r (a.rank types) (b.rank types) := by
  obtain ⟨r, sliceA, sliceB, hkeys, hdecides, -⟩ :=
    compareKeys_rank types hn a b ha hb [] []
  rw [List.append_nil, List.append_nil] at hkeys
  refine ⟨r, ?_, hdecides⟩
  rw [if_neg (not_or.mpr ⟨a.encode_ne_nil, b.encode_ne_nil⟩)]
  simp [compareUserKeys, hkeys]

lemma compareInts_eq_zero {a b : ℕ} (ha : a < 2 ^ 63) (hb : b < 2 ^ 63) :
    compareInts a b = 0 ↔ (a : ℤ) = b := by
  rw [compareInts_of_small (by omega) (by omega)]
  split_ifs <;> simp <;> omega


/-- The ids of the prefix of a key. -/
def StoredKey.ids : StoredKey → ℕ × ℕ × ℕ
  | .global _ => (0, 0, 0)
  | .database databaseId _ => (databaseId, 0, 0)
  | .objectStoreData databaseId objectStoreId _ =>
    (databaseId, objectStoreId, kObjectStoreDataIndexId)
  | .existsEntry databaseId objectStoreId _ => (databaseId, objectStoreId, kExistsEntryIndexId)
  | .indexData databaseId objectStoreId indexId _ _ => (databaseId, objectStoreId, indexId)

def StoredKey.suffix : StoredKey → Slice
  | .global key => key.suffix
  | .database _ key => key.suffix
  | .objectStoreData _ _ key | .existsEntry _ _ key => key.encode
  | .indexData _ _ _ key tail => key.encode ++ tail.encode

lemma StoredKey.encode_eq (k : StoredKey) :
    k.encode = encodePrefix k.ids.1 k.ids.2.1 k.ids.2.2 ++ k.suffix := by
  cases k <;> rfl

lemma StoredKey.ids_lt (k : StoredKey) :
    k.ids.1 < 2 ^ 63 ∧ k.ids.2.1 < 2 ^ 63 ∧ k.ids.2.2 < 2 ^ 31 := by
  cases k with
  | global => simp [ids]
  | database d =>
    have := d.2
    simp only [ids]
    omega
  | objectStoreData d o =>
    have := d.2
    have := o.2
    simp only [ids, kObjectStoreDataIndexId]
    omega
  | existsEntry d o =>
    have := d.2
    have := o.2
    simp only [ids, kExistsEntryIndexId]
    omega
  | indexData d o i =>
    have := d.2
    have := o.2
    have := i.2
    simp only [ids]
    omega

def StoredKey.type : StoredKey → KeyPrefixType
  | .global _ => .globalMetadata
  | .database _ _ => .databaseMetadata
  | .objectStoreData _ _ _ => .objectStoreData
  | .existsEntry _ _ _ => .existsEntry
  | .indexData _ _ _ _ _ => .indexData

lemma KeyPrefix.type_natCast (d o i : ℕ) : KeyPrefix.type ⟨d, o, i⟩ =
    if d = 0 then .globalMetadata
    else if o = 0 then .databaseMetadata
    else if i = 1 then .objectStoreData
    else if i = 2 then .existsEntry
    else if 30 ≤ i then .indexData
    else .invalidType := by
  simp only [KeyPrefix.type, kObjectStoreDataIndexId, kExistsEntryIndexId, kMinimumIndexId,
    Nat.cast_eq_zero, Nat.cast_inj, ge_iff_le, Nat.cast_le]

/-- The ids of a key tell its type. -/
lemma StoredKey.type_ids (k : StoredKey) :
    KeyPrefix.type ⟨k.ids.1, k.ids.2.1, k.ids.2.2⟩ = k.type := by
  rw [KeyPrefix.type_natCast]
  cases k with
  | global => rfl
  | database d =>
    have hd : (d : ℕ) ≠ 0 := d.2.1.ne'
    simp [ids, type, hd]
  | objectStoreData d o =>
    have hd : (d : ℕ) ≠ 0 := d.2.1.ne'
    have ho : (o : ℕ) ≠ 0 := o.2.1.ne'
    simp [ids, type, hd, ho, kObjectStoreDataIndexId]
  | existsEntry d o =>
    have hd : (d : ℕ) ≠ 0 := d.2.1.ne'
    have ho : (o : ℕ) ≠ 0 := o.2.1.ne'
    simp [ids, type, hd, ho, kExistsEntryIndexId]
  | indexData d o i =>
    have hd : (d : ℕ) ≠ 0 := d.2.1.ne'
    have ho : (o : ℕ) ≠ 0 := o.2.1.ne'
    have hi : 30 ≤ (i : ℕ) := i.2.1
    have h1 : (i : ℕ) ≠ 1 := by omega
    have h2 : (i : ℕ) ≠ 2 := by omega
    simp [ids, type, hd, ho, hi, h1, h2]

/-- The part of the rank after the ids. -/
def StoredKey.suffixRank (types : KeyTypes) : StoredKey → List ℤ
  | .global key => key.rank
  | .database _ key => key.rank
  | .objectStoreData _ _ key | .existsEntry _ _ key => key.rank types
  | .indexData _ _ _ key tail => key.rank types ++ tail.rank types

lemma StoredKey.rank_eq (k : StoredKey) :
    k.rank types = [(k.ids.1 : ℤ), (k.ids.2.1 : ℤ), (k.ids.2.2 : ℤ)] ++ k.suffixRank types := by
  cases k <;> rfl

/-- The prefixes of two keys are compared id by id. -/
lemma StoredKey.decides_ids (a b : StoredKey) :
    Decides (KeyPrefix.compare ⟨a.ids.1, a.ids.2.1, a.ids.2.2⟩ ⟨b.ids.1, b.ids.2.1, b.ids.2.2⟩)
      [(a.ids.1 : ℤ), (a.ids.2.1 : ℤ), (a.ids.2.2 : ℤ)]
      [(b.ids.1 : ℤ), (b.ids.2.1 : ℤ), (b.ids.2.2 : ℤ)] := by
  obtain ⟨hda, hoa, hia⟩ := a.ids_lt
  obtain ⟨hdb, hob, hib⟩ := b.ids_lt
  have hia' : a.ids.2.2 < 2 ^ 63 := by omega
  have hib' : b.ids.2.2 < 2 ^ 63 := by omega
  have hcompare : KeyPrefix.compare ⟨a.ids.1, a.ids.2.1, a.ids.2.2⟩
      ⟨b.ids.1, b.ids.2.1, b.ids.2.2⟩ = andThen (compareInts a.ids.1 b.ids.1)
        (andThen (compareInts a.ids.2.1 b.ids.2.1) (compareInts a.ids.2.2 b.ids.2.2)) := by
    have hi : ((a.ids.2.2 : ℤ) = b.ids.2.2) → compareInts a.ids.2.2 b.ids.2.2 = 0 :=
      (compareInts_eq_zero hia' hib').mpr
    simp only [KeyPrefix.compare, andThen, ne_eq, compareInts_eq_zero hda hdb,
      compareInts_eq_zero hoa hob]
    split_ifs with h1 h2 h3 <;> simp_all
  rw [hcompare]
  exact (decides_compareInts hda hdb).append fun _ =>
    (decides_compareInts hoa hob).append fun _ => decides_compareInts hia' hib'

/-- Keys with the same prefix are compared by their suffixes. -/
lemma compareChecked_of_ids_eq {a b : StoredKey} (h : a.ids = b.ids) (only : Bool) :
    compareChecked types a.encode b.encode only =
      match a.type with
      | .globalMetadata => compareGlobalMetadata a.encode b.encode a.suffix b.suffix
      | .databaseMetadata => compareDatabaseMetadata a.encode b.encode a.suffix b.suffix
      | .objectStoreData | .existsEntry =>
        if a.suffix = [] ∨ b.suffix = [] then
          pure (compareSizes a.suffix.length b.suffix.length)
        else compareUserKeys types a.suffix b.suffix
      | .indexData =>
        if a.suffix = [] ∨ b.suffix = [] then
          pure (compareSizes a.suffix.length b.suffix.length)
        else compareIndexData types a.suffix b.suffix only
      | .invalidType => none := by
  obtain ⟨hd, ho, hi⟩ := a.ids_lt
  have hdecA := decode_encodePrefix hd ho hi a.suffix
  have hdecB := decode_encodePrefix hd ho hi b.suffix
  have hself : ∀ p : KeyPrefix, p.compare p = 0 := fun p => by simp [KeyPrefix.compare]
  rw [← StoredKey.encode_eq] at hdecA
  rw [h, ← StoredKey.encode_eq] at hdecB
  simp only [compareChecked, hdecA, hdecB, h, Option.bind_eq_bind, Option.bind_some, hself, ne_eq,
    not_true_eq_false, if_false]
  cases htype : a.type <;> simp only [← h, StoredKey.type_ids, htype]

lemma compareChecked_of_ids_ne {a b : StoredKey}
    (h : KeyPrefix.compare ⟨a.ids.1, a.ids.2.1, a.ids.2.2⟩ ⟨b.ids.1, b.ids.2.1, b.ids.2.2⟩ ≠ 0)
    (only : Bool) : compareChecked types a.encode b.encode only =
      some (KeyPrefix.compare ⟨a.ids.1, a.ids.2.1, a.ids.2.2⟩ ⟨b.ids.1, b.ids.2.1, b.ids.2.2⟩) := by
  obtain ⟨hda, hoa, hia⟩ := a.ids_lt
  obtain ⟨hdb, hob, hib⟩ := b.ids_lt
  have hdecA := decode_encodePrefix hda hoa hia a.suffix
  have hdecB := decode_encodePrefix hdb hob hib b.suffix
  rw [← StoredKey.encode_eq] at hdecA hdecB
  simp [compareChecked, hdecA, hdecB, h]

variable (types) in
/-- The suffixes of two keys with the same prefix agree with their ranks. -/
lemma compareChecked_suffixRank {n : ℕ} (hn : n < 2 ^ 31) (a b : StoredKey)
    (ha : a.ArraysAtMost n) (hb : b.ArraysAtMost n) (hids : a.ids = b.ids) :
    ∃ r, compareChecked types a.encode b.encode false = some r ∧
      Decides r (a.suffixRank types) (b.suffixRank types) := by
  have htype : a.type = b.type := by
    rw [← StoredKey.type_ids, ← StoredKey.type_ids, hids]
  have hne : ∀ (key : UserKey) (s : Slice), ¬ key.encode ++ s = [] := fun key s => by
    simp [UserKey.encode_ne_nil]
  rw [compareChecked_of_ids_eq hids]
  cases a <;> cases b <;> simp only [StoredKey.type, reduceCtorEq] at htype ⊢
  case global.global a b => exact compareGlobalMetadata_rank a b
  case database.database d a d' b =>
    obtain rfl : d = d' := Subtype.ext (congrArg Prod.fst hids)
    exact compareDatabaseMetadata_rank (by have := d.2; omega) a b
  case objectStoreData.objectStoreData d o a d' o' b => exact compareUserKeys_rank hn a b ha hb
  case existsEntry.existsEntry d o a d' o' b => exact compareUserKeys_rank hn a b ha hb
  case indexData.indexData d o i a t d' o' i' b t' =>
    obtain ⟨r, hr, hdecides⟩ :=
      compareIndexData_rank types hn a b t t' ha.1 hb.1 ha.2 hb.2
    exact ⟨r, (if_neg (not_or.mpr ⟨hne a _, hne b _⟩)).trans hr, hdecides⟩

variable (types) in
/-- The comparison of two stored keys agrees with their ranks. -/
theorem compareChecked_rank {n : ℕ} (hn : n < 2 ^ 31) (a b : StoredKey) (ha : a.ArraysAtMost n)
    (hb : b.ArraysAtMost n) :
    ∃ r, compareChecked types a.encode b.encode false = some r ∧
      Decides r (a.rank types) (b.rank types) := by
  have hinitial := StoredKey.decides_ids a b
  rw [StoredKey.rank_eq, StoredKey.rank_eq]
  by_cases hx : KeyPrefix.compare ⟨a.ids.1, a.ids.2.1, a.ids.2.2⟩
    ⟨b.ids.1, b.ids.2.1, b.ids.2.2⟩ = 0
  · have hids : a.ids = b.ids := by
      have := hinitial.eq hx
      simp only [List.cons.injEq, Nat.cast_inj, and_true] at this
      exact Prod.ext this.1 (Prod.ext this.2.1 this.2.2)
    obtain ⟨r, hr, hdecides⟩ := compareChecked_suffixRank types hn a b ha hb hids
    have := hinitial.append fun _ => hdecides
    rw [hx] at this
    exact ⟨r, hr, this⟩
  · refine ⟨_, compareChecked_of_ids_ne hx false, ?_⟩
    have hsuffix : KeyPrefix.compare ⟨a.ids.1, a.ids.2.1, a.ids.2.2⟩
        ⟨b.ids.1, b.ids.2.1, b.ids.2.2⟩ = 0 →
        Decides 0 (a.suffixRank types) (b.suffixRank types) := fun h => absurd h hx
    have := hinitial.append hsuffix
    rwa [andThen_of_ne hx] at this

/-- Two arrays of which one is empty: only the lengths count. -/
lemma compareEncodedIDBKeys_lengths {as bs : List IDBKey} (hzero : Min.min as.length bs.length = 0)
    (ha : as.length < 2 ^ 63) (hb : bs.length < 2 ^ 63) (depth : ℕ) :
    (compareEncodedIDBKeys types (depth + 1) (encodeIDBKey (.array as))
      (encodeIDBKey (.array bs))).map Prod.fst = some (toInt (as.length - bs.length)) := by
  have hmin : (Min.min (as.length : ℤ) bs.length).toNat = 0 := by omega
  simp [compareEncodedIDBKeys, encodeIDBKey, decodeByte, compareTypes_self,
    decodeVarInt_encodeVarInt ha, decodeVarInt_encodeVarInt hb, hmin, compareArrays]

lemma compare_objectStoreData (d : DatabaseId) (o : ObjectStoreId) (a b : UserKey) :
    compareChecked types (StoredKey.objectStoreData d o a).encode
      (StoredKey.objectStoreData d o b).encode false =
        (compareKeys types a.encode b.encode).map Prod.fst := by
  have hids : (StoredKey.objectStoreData d o a).ids = (StoredKey.objectStoreData d o b).ids := rfl
  rw [compareChecked_of_ids_eq hids]
  refine (if_neg (not_or.mpr ⟨a.encode_ne_nil, b.encode_ne_nil⟩)).trans ?_
  rw [compareUserKeys, StoredKey.suffix, StoredKey.suffix]
  cases compareKeys types a.encode b.encode <;> rfl

lemma allAtMost_replicate {n : ℕ} {key : IDBKey} (h : key.ArraysAtMost n) (k : ℕ) :
    AllAtMost n (List.replicate k key) := by
  induction k with
  | zero => simp [AllAtMost]
  | succ k ih =>
    rw [List.replicate_succ, AllAtMost]
    exact ⟨h, ih⟩

/-- An array of `k` zeros, stored in the first object store of the first database. -/
def zeros (k : ℕ) : StoredKey :=
  .objectStoreData ⟨1, by omega⟩ ⟨1, by omega⟩
    (.key (.array (List.replicate k (.number ⟨0, by decide⟩))))

lemma zeros_arraysAtMost {k n : ℕ} (h : k ≤ n) : (zeros k).ArraysAtMost n := by
  simp only [zeros, StoredKey.ArraysAtMost, UserKey.ArraysAtMost, IDBKey.ArraysAtMost,
    List.length_replicate]
  exact ⟨h, allAtMost_replicate (by simp [IDBKey.ArraysAtMost]) k⟩

/-- The comparison of an array of zeros with the empty array, both ways. -/
lemma compare_zeros {j k : ℕ} (h : Min.min j k = 0) (hj : j < 2 ^ 63) (hk : k < 2 ^ 63) :
    compare types (zeros j).encode (zeros k).encode false = toInt (j - k) := by
  rw [compare, zeros, zeros, compare_objectStoreData, compareKeys]
  have hlen : ∃ depth, (UserKey.encode (.key (.array
      (List.replicate j (.number ⟨0, by decide⟩))))).length = depth + 1 :=
    Nat.exists_eq_succ_of_ne_zero (by simp [UserKey.encode, encodeIDBKey])
  obtain ⟨depth, hdepth⟩ := hlen
  rw [hdepth, UserKey.encode, UserKey.encode, compareEncodedIDBKeys_lengths]
  all_goals simp only [List.length_replicate, Option.getD_some]
  · exact h
  · exact hj
  · exact hk

/-- The comparator is a total preorder on the keys whose arrays have at most `n`
elements exactly as long as the difference of two lengths fits in an `int`. -/
theorem comparator_totalPreorder_iff (types : KeyTypes) (n : ℕ) :
    TotalPreorder (fun a b : { k : StoredKey // k.ArraysAtMost n } =>
      compare types a.1.encode b.1.encode false) ↔ n < 2 ^ 31 := by
  constructor
  · intro h
    by_contra hn
    have hanti := h.antisymm ⟨zeros 0, zeros_arraysAtMost (Nat.zero_le n)⟩
      ⟨zeros (2 ^ 31), zeros_arraysAtMost (by omega)⟩
    simp only [compare_zeros (j := 0) (k := 2 ^ 31) (by omega) (by omega) (by omega),
      compare_zeros (j := 2 ^ 31) (k := 0) (by omega) (by omega) (by omega)] at hanti
    exact absurd hanti (by decide)
  · intro hn
    refine TotalPreorder.of_decides (fun a => a.1.rank types) fun a b => ?_
    obtain ⟨r, hr, hdecides⟩ := compareChecked_rank types hn a.1 b.1 a.2 b.2
    rw [compare, hr]
    exact hdecides

/-- The numbers that the members of the enumeration have in the order of their
declaration. -/
def declaredKeyTypes : KeyTypes where
  value
    | .invalid => 0
    | .array => 1
    | .string => 2
    | .date => 3
    | .number => 4
    | .min => 6
  injective := by
    intro a b h
    cases a <;> cases b <;> simp_all
  nonneg := by
    intro t
    cases t <;> decide
  lt := by
    intro t
    cases t <;> decide

/-- The empty array and the array of `2 ^ 31` zeros are each less than the other. -/
theorem comparator_not_totalPreorder :
    ¬ ∀ types : KeyTypes, TotalPreorder fun a b : StoredKey =>
      compare types a.encode b.encode false := by
  intro h
  have hanti := (h declaredKeyTypes).antisymm (zeros 0) (zeros (2 ^ 31))
  simp only [compare_zeros (j := 0) (k := 2 ^ 31) (by omega) (by omega) (by omega),
    compare_zeros (j := 2 ^ 31) (k := 0) (by omega) (by omega) (by omega)] at hanti
  exact absurd hanti (by decide)

end StoredKeys

end Chromium.IDBCoding
