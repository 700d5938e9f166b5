import Chromium.BitWords

/-!
# The bitmap of the disk cache

`net/disk_cache/bitmap.cc`: a row of bits in words of 32 bits. Ranges are set, tested and searched a
word at a time, with masks for the first and the last word. The results are those of loops over the
single bits.
-/
namespace Chromium.DiskCacheBitmap

open BitWords

abbrev Word := BitVec 32

def kIntBits : ℕ := 32
def kLogIntBits : ℕ := 5

/-- `RequiredArraySize` -/
def requiredArraySize (num_bits : ℕ) : ℕ :=
  if num_bits ≤ kIntBits then 1 else (num_bits + kIntBits - 1) >>> kLogIntBits

structure Bitmap where
  map_ : List Word
  num_bits_ : ℕ
  array_size_ : ℕ
  deriving DecidableEq

/-- The place of a bit in its word. -/
def bitOffset (index : ℕ) : ℕ := index &&& (kIntBits - 1)

namespace Bitmap
variable (b : Bitmap)

/-- `map_[j]` -/
def word (j : ℕ) : Word := b.map_.getD j 0

def setWord (j : ℕ) (value : Word) : Bitmap := { b with map_ := b.map_.set j value }

def set (index : ℕ) (value : Bool) : Bitmap :=
  let i := bitOffset index
  let j := index / kIntBits
  let mask := (1 : Word) <<< i
  if value then b.setWord j (b.word j ||| mask) else b.setWord j (b.word j &&& ~~~mask)

def get (index : ℕ) : Bool :=
  let i := bitOffset index
  let j := index / kIntBits
  let mask := (1 : Word) <<< i
  b.word j &&& mask ≠ 0

def setWordBits (start len : ℕ) (value : Bool) : Bitmap :=
  if len = 0 then b
  else
    let j := start / kIntBits
    let offset := start % kIntBits
    let mask := (0xffffffff : Word) <<< len
    let to_add := ~~~mask <<< offset
    if value then b.setWord j (b.word j ||| to_add) else b.setWord j (b.word j &&& ~~~to_add)

/-- `memset` of `n` words from `first` on. -/
def memset (first n : ℕ) (value : Bool) : Bitmap :=
  { b with map_ := b.map_.mapIdx fun j x =>
      if first ≤ j ∧ j < first + n then (if value then 0xffffffff else 0) else x }

def setRange (start stop : ℕ) (value : Bool) : Bitmap :=
  let start_offset := bitOffset start
  let len := min (stop - start) (kIntBits - start_offset)
  let b := if start_offset = 0 then b else b.setWordBits start len value
  let start := if start_offset = 0 then start else start + len
  if start = stop then b
  else
    let end_offset := bitOffset stop
    let stop := stop - end_offset
    (b.setWordBits stop end_offset value).memset (start / kIntBits)
      (stop / kIntBits - start / kIntBits) value

/-- A word of the map, negated when zeros are looked for. -/
def testWord (value : Bool) (j : ℕ) : Word := if value then b.word j else ~~~b.word j

/-- The loop over the words in the middle, `n` of them. -/
def testWords (value : Bool) : ℕ → ℕ → Bool
  | 0, _ => false
  | n + 1, j => if b.testWord value j ≠ 0 then true else testWords value n (j + 1)

def testRange (start stop : ℕ) (value : Bool) : Bool :=
  if stop ≤ start ∨ stop = 0 then false
  else
    let first := start / kIntBits
    let offset := bitOffset start
    let last_word := (stop - 1) / kIntBits
    let last_offset := bitOffset (stop - 1)
    let mask (offset : ℕ) := ((2 : Word) <<< (last_offset - offset) - 1) <<< offset
    if first < last_word then
      if b.testWord value first >>> offset ≠ 0 then true
      else if b.testWords value (last_word - (first + 1)) (first + 1) then true
      else b.testWord value last_word &&& mask 0 ≠ 0
    else b.testWord value last_word &&& mask offset ≠ 0

section Find

-- the bits of the number as a `float`
variable (toFloat : Word → Word)

/-- The exponent of the lowest bit as a number. -/
def findLSBSetNonZero (x : Word) : ℕ := (toFloat (x &&& -x) >>> 23 - 0x7f).toNat

def findLSBNonEmpty (x : Word) (value : Bool) : ℕ :=
  findLSBSetNonZero toFloat (if value then x else ~~~x)

/-- A word without a bit that is looked for. -/
def emptyValue (value : Bool) : Word := if value then 0 else 0xffffffff

/-- The loop over all words but the last, `n` of them. -/
def findInWords (value : Bool) : ℕ → ℕ → Word → ℕ ⊕ Word
  | 0, _, one_word => .inr one_word
  | n + 1, word_index, one_word =>
    if one_word ≠ emptyValue value then
      .inl (word_index <<< kLogIntBits + findLSBNonEmpty toFloat one_word value)
    else findInWords value n (word_index + 1) (b.word (word_index + 1))

/-- `FindNextBit`, with the final `*index` -/
def findNextBit (index limit : ℕ) (value : Bool) : Bool × ℕ :=
  if limit ≤ index ∨ limit = 0 then (false, index)
  else if b.get index = value then (true, index)
  else
    let word_index := index >>> kLogIntBits
    let mask := (0xffffffff : Word) <<< bitOffset index
    let one_word := if value then b.word word_index &&& mask else b.word word_index ||| ~~~mask
    let last_word_index := (limit - 1) >>> kLogIntBits
    match b.findInWords toFloat value (last_word_index - word_index) word_index one_word with
    | .inl found => (true, found)
    | .inr one_word =>
      let mask := (0xfffffffe : Word) <<< bitOffset (limit - 1)
      let one_word := if value then one_word &&& ~~~mask else one_word ||| mask
      if one_word ≠ emptyValue value then
        (true, last_word_index <<< kLogIntBits + findLSBNonEmpty toFloat one_word value)
      else (false, index)

/-- `FindBits`, with the final `*index` -/
def findBits (index limit : ℕ) (value : Bool) : ℕ × ℕ :=
  match b.findNextBit toFloat index limit value with
  | (false, index) => (0, index)
  | (true, index) =>
    match b.findNextBit toFloat index limit (!value) with
    | (false, _) => (limit - index, index)
    | (true, stop) => (stop - index, index)

end Find

/-- The array for another size, where `uninitialized` is what a new array holds. The last word is
always cleared first. -/
def resizedMap (uninitialized : ℕ → Word) (array_size : ℕ) : List Word :=
  if array_size ≠ b.array_size_ then
    let new_map := ((List.range array_size).map uninitialized).set (array_size - 1) 0
    let copied := min array_size b.array_size_
    b.map_.take copied ++ new_map.drop copied
  else b.map_

def resize (uninitialized : ℕ → Word) (num_bits : ℕ) (clear_bits : Bool) : Bitmap :=
  let array_size := requiredArraySize num_bits
  let resized : Bitmap := ⟨b.resizedMap uninitialized array_size, num_bits, array_size⟩
  if b.num_bits_ < num_bits ∧ clear_bits then resized.setRange b.num_bits_ num_bits false
  else resized

end Bitmap

/-! ### Single bits -/

lemma bitOffset_eq (index : ℕ) : bitOffset index = index % 32 :=
  Nat.and_two_pow_sub_one_eq_mod index 5

namespace Bitmap
variable {b : Bitmap}

/-- A map that is as long as its size says. -/
structure Valid (b : Bitmap) : Prop where
  length_eq : b.map_.length = b.array_size_
  size_eq : b.array_size_ = requiredArraySize b.num_bits_

lemma le_requiredArraySize (n : ℕ) : n ≤ 32 * requiredArraySize n := by
  rw [requiredArraySize, kIntBits, kLogIntBits]
  split_ifs
  · omega
  · rw [Nat.shiftRight_eq_div_pow]
    omega

lemma Valid.le_length (h : b.Valid) : b.num_bits_ ≤ 32 * b.map_.length := by
  rw [h.length_eq, h.size_eq]
  exact le_requiredArraySize _

lemma get_eq_bit (b : Bitmap) (index : ℕ) : b.get index = bit b.map_ index := by
  rw [get, bit, word, bitOffset_eq, kIntBits]
  have hlt : index % 32 < 32 := Nat.mod_lt _ (by norm_num)
  generalize b.map_.getD (index / 32) 0 = x
  have hmask : (1 : Word) <<< (index % 32) = BitVec.twoPow 32 (index % 32) := rfl
  rw [hmask, BitVec.and_twoPow]
  cases hx : x.getLsbD (index % 32) with
  | false => simp
  | true =>
    rw [if_pos rfl, decide_eq_true_iff]
    intro hzero
    have hbit := congrArg (fun y : Word => y.getLsbD (index % 32)) hzero
    simp [hlt] at hbit

/-- A word with some bits set or cleared. -/
lemma bit_setWord {j : ℕ} (hj : j < b.map_.length) {mask : Word} {value : Bool} (k : ℕ) :
    bit (if value then b.setWord j (b.word j ||| mask) else b.setWord j (b.word j &&& ~~~mask)).map_
      k = if k / 32 = j ∧ mask.getLsbD (k % 32) = true then value else bit b.map_ k := by
  have hlt : k % 32 < 32 := Nat.mod_lt _ (by norm_num)
  cases value with
  | true =>
    rw [if_pos rfl, setWord, BitWords.bit_set hj]
    by_cases hk : k / 32 = j
    · rw [if_pos hk, BitVec.getLsbD_or, word, ← hk]
      cases hmask : mask.getLsbD (k % 32) <;> simp [bit]
    · rw [if_neg hk, if_neg fun h => hk h.1]
  | false =>
    rw [if_neg Bool.false_ne_true, setWord, BitWords.bit_set hj]
    by_cases hk : k / 32 = j
    · rw [if_pos hk, BitVec.getLsbD_and, BitVec.getLsbD_not, word, ← hk]
      cases hmask : mask.getLsbD (k % 32) <;> simp [bit, hlt]
    · rw [if_neg hk, if_neg fun h => hk h.1]

lemma bit_set {index : ℕ} (hindex : index < 32 * b.map_.length) (value : Bool) (k : ℕ) :
    bit (b.set index value).map_ k = if k = index then value else bit b.map_ k := by
  have hlt : index % 32 < 32 := Nat.mod_lt _ (by norm_num)
  have hmask : (1 : Word) <<< (index % 32) = BitVec.twoPow 32 (index % 32) := rfl
  rw [set, bitOffset_eq, kIntBits]
  refine (bit_setWord (by omega) k).trans ?_
  congr 1
  rw [hmask, BitVec.getLsbD_twoPow, Bool.and_eq_true, decide_eq_true_iff, decide_eq_true_iff,
    eq_iff_iff]
  omega

/-- The mask of `len` bits from the place `offset` on. -/
lemma getLsbD_mask (len offset : ℕ) {i : ℕ} (hi : i < 32) :
    (~~~((0xffffffff : Word) <<< len) <<< offset).getLsbD i =
      decide (offset ≤ i ∧ i < offset + len) := by
  have hones : (0xffffffff : Word) = BitVec.allOnes 32 := rfl
  rw [hones, Bool.eq_iff_iff]
  simp only [BitVec.getLsbD_shiftLeft, BitVec.getLsbD_not, BitVec.getLsbD_allOnes]
  simp
  omega

lemma bit_setWordBits {start len : ℕ} (hlen : start % 32 + len ≤ 32)
    (hmap : start + len ≤ 32 * b.map_.length) (value : Bool) (k : ℕ) :
    bit (b.setWordBits start len value).map_ k =
      if start ≤ k ∧ k < start + len then value else bit b.map_ k := by
  rw [setWordBits, kIntBits]
  by_cases hzero : len = 0
  · rw [if_pos hzero, if_neg (by omega)]
  · rw [if_neg hzero]
    refine (bit_setWord (by omega) k).trans ?_
    congr 1
    rw [getLsbD_mask _ _ (Nat.mod_lt _ (by norm_num)), decide_eq_true_iff, eq_iff_iff]
    omega

lemma bit_memset (first n : ℕ) (value : Bool) {k : ℕ} (hk : k < 32 * b.map_.length) :
    bit (b.memset first n value).map_ k =
      if first ≤ k / 32 ∧ k / 32 < first + n then value else bit b.map_ k := by
  have hlt : k % 32 < 32 := Nat.mod_lt _ (by norm_num)
  have hj : k / 32 < b.map_.length := by omega
  have hones : (0xffffffff : Word) = BitVec.allOnes 32 := rfl
  rw [memset, bit, bit]
  simp only [List.getD_eq_getElem?_getD, List.getElem?_mapIdx, List.getElem?_eq_getElem hj,
    Option.map_some, Option.getD_some]
  split_ifs with hfirst hvalue
  · rw [hones, BitVec.getLsbD_allOnes, decide_eq_true hlt, hvalue]
  · rw [Bool.eq_false_of_not_eq_true hvalue]
    exact BitVec.getLsbD_zero
  · rfl

@[simp] lemma length_setWordBits (start len : ℕ) (value : Bool) :
    (b.setWordBits start len value).map_.length = b.map_.length := by
  rw [setWordBits]
  by_cases hzero : len = 0
  · rw [if_pos hzero]
  · rw [if_neg hzero]
    cases value <;> exact List.length_set

@[simp] lemma length_memset (first n : ℕ) (value : Bool) :
    (b.memset first n value).map_.length = b.map_.length := List.length_mapIdx

/-! ### Ranges -/

/-- Behind the first word: the bits from the start of a word on. -/
lemma bit_setRange_aligned {start stop : ℕ} (hstart : start % 32 = 0) (hstop : start ≤ stop)
    (hmap : stop ≤ 32 * b.map_.length) (value : Bool) {k : ℕ} (hk : k < 32 * b.map_.length) :
    bit ((b.setWordBits (stop - stop % 32) (stop % 32) value).memset (start / 32)
        ((stop - stop % 32) / 32 - start / 32) value).map_ k =
      if start ≤ k ∧ k < stop then value else bit b.map_ k := by
  rw [bit_memset _ _ _ (by simpa using hk), bit_setWordBits (by omega) (by omega)]
  by_cases hmiddle : start / 32 ≤ k / 32 ∧ k / 32 < start / 32 +
      ((stop - stop % 32) / 32 - start / 32)
  · rw [if_pos hmiddle, if_pos (by omega)]
  · rw [if_neg hmiddle]
    by_cases hlast : stop - stop % 32 ≤ k ∧ k < stop - stop % 32 + stop % 32
    · rw [if_pos hlast, if_pos (by omega)]
    · rw [if_neg hlast, if_neg (by omega)]

lemma bit_setRange {start stop : ℕ} (hstop : start ≤ stop) (hmap : stop ≤ 32 * b.map_.length)
    (value : Bool) {k : ℕ} (hk : k < 32 * b.map_.length) :
    bit (b.setRange start stop value).map_ k =
      if start ≤ k ∧ k < stop then value else bit b.map_ k := by
  rw [setRange]
  simp only [bitOffset_eq, kIntBits]
  by_cases haligned : start % 32 = 0
  · simp only [if_pos haligned]
    by_cases heq : start = stop
    · rw [if_pos heq, if_neg (by omega)]
    · rw [if_neg heq]
      exact bit_setRange_aligned haligned hstop hmap value hk
  · simp only [if_neg haligned]
    have hfirst := @bit_setWordBits b start (min (stop - start) (32 - start % 32)) (by omega)
      (by omega) value k
    by_cases heq : start + min (stop - start) (32 - start % 32) = stop
    · rw [if_pos heq, hfirst, heq]
    · rw [if_neg heq, bit_setRange_aligned (by omega) (by omega) (by simpa using hmap) value
        (by simpa using hk), hfirst]
      by_cases hrest : start + min (stop - start) (32 - start % 32) ≤ k ∧ k < stop
      · rw [if_pos hrest, if_pos (by omega)]
      · rw [if_neg hrest]
        congr 1
        rw [eq_iff_iff]
        omega

lemma map_set_eq (b : Bitmap) (index : ℕ) (value : Bool) :
    (b.set index value).map_.length = b.map_.length ∧
      (b.set index value).num_bits_ = b.num_bits_ ∧
      (b.set index value).array_size_ = b.array_size_ := by
  rw [set]
  cases value <;> exact ⟨List.length_set, rfl, rfl⟩

/-- The same bit by bit. -/
def setEach (b : Bitmap) (start stop : ℕ) (value : Bool) : Bitmap :=
  (List.range' start (stop - start)).foldl (fun b i => b.set i value) b

lemma foldl_set (is : List ℕ) (b : Bitmap) (value : Bool)
    (his : ∀ i ∈ is, i < 32 * b.map_.length) :
    (is.foldl (fun b i => b.set i value) b).map_.length = b.map_.length ∧
      (is.foldl (fun b i => b.set i value) b).num_bits_ = b.num_bits_ ∧
      (is.foldl (fun b i => b.set i value) b).array_size_ = b.array_size_ ∧
      ∀ k, bit (is.foldl (fun b i => b.set i value) b).map_ k =
        if k ∈ is then value else bit b.map_ k := by
  induction is generalizing b with
  | nil => simp
  | cons i is ih =>
    obtain ⟨hi, his⟩ := List.forall_mem_cons.mp his
    obtain ⟨hlength, hbits, hsize⟩ := b.map_set_eq i value
    rw [← hlength] at his
    obtain ⟨hlength', hbits', hsize', hbit⟩ := ih (b.set i value) his
    rw [List.foldl_cons]
    refine ⟨hlength'.trans hlength, hbits'.trans hbits, hsize'.trans hsize, ?_⟩
    intro k
    rw [hbit, bit_set hi]
    by_cases hk : k = i
    · simp [hk]
    · simp [hk]

lemma setRange_fields (b : Bitmap) (start stop : ℕ) (value : Bool) :
    (b.setRange start stop value).map_.length = b.map_.length ∧
      (b.setRange start stop value).num_bits_ = b.num_bits_ ∧
      (b.setRange start stop value).array_size_ = b.array_size_ := by
  have hword : ∀ (b : Bitmap) start len, (b.setWordBits start len value).num_bits_ = b.num_bits_ ∧
      (b.setWordBits start len value).array_size_ = b.array_size_ := by
    intro b start len
    rw [setWordBits]
    by_cases hzero : len = 0
    · rw [if_pos hzero]
      exact ⟨rfl, rfl⟩
    · rw [if_neg hzero]
      cases value <;> exact ⟨rfl, rfl⟩
  have hmemset : ∀ (b : Bitmap) first n, (b.memset first n value).num_bits_ = b.num_bits_ ∧
      (b.memset first n value).array_size_ = b.array_size_ := fun b first n => ⟨rfl, rfl⟩
  rw [setRange]
  split_ifs <;> simp [hword, hmemset]

/-- `SetRange` is the loop over the bits of the range. -/
lemma setRange_eq {start stop : ℕ} (hstop : start ≤ stop) (hmap : stop ≤ 32 * b.map_.length)
    (value : Bool) : b.setRange start stop value = b.setEach start stop value := by
  obtain ⟨hlength, hbits, hsize⟩ := b.setRange_fields start stop value
  obtain ⟨hlength', hbits', hsize', hbit⟩ := foldl_set (List.range' start (stop - start)) b value
    (by
      intro i hi
      rw [List.mem_range'_1] at hi
      omega)
  have hmaps : (b.setRange start stop value).map_ = (b.setEach start stop value).map_ := by
    apply ext_bit (hlength.trans hlength'.symm)
    intro k hk
    rw [bit_setRange hstop hmap value (hlength ▸ hk)]
    refine Eq.trans ?_ (hbit k).symm
    congr 1
    rw [List.mem_range'_1, eq_iff_iff]
    omega
  have hext : ∀ b b' : Bitmap, b.map_ = b'.map_ → b.num_bits_ = b'.num_bits_ →
      b.array_size_ = b'.array_size_ → b = b' := by
    rintro ⟨_, _, _⟩ ⟨_, _, _⟩ rfl rfl rfl
    rfl
  exact hext _ _ hmaps (hbits.trans hbits'.symm) (hsize.trans hsize'.symm)

/-! ### Tests -/

/-- The same bit by bit. -/
def testEach (b : Bitmap) (start stop : ℕ) (value : Bool) : Bool :=
  (List.range' start (stop - start)).any fun i => b.get i = value

lemma getLsbD_testWord (b : Bitmap) (value : Bool) (j : ℕ) {i : ℕ} (hi : i < 32) :
    (b.testWord value j).getLsbD i = decide (bit b.map_ (32 * j + i) = value) := by
  rw [bit_mul_add _ _ hi, testWord, word]
  cases value with
  | true => simp
  | false => simp [hi]

/-- A word is not zero if one of its bits is set. -/
lemma ne_zero_iff (x : Word) : x ≠ 0 ↔ ∃ i < 32, x.getLsbD i = true := by
  constructor
  · intro hx
    obtain ⟨k, hk, hbit, -⟩ := exists_lowest hx
    exact ⟨k, hk, hbit⟩
  · rintro ⟨i, -, hi⟩ rfl
    simp at hi

lemma testWords_eq_true_iff (b : Bitmap) (value : Bool) (n j : ℕ) :
    b.testWords value n j = true ↔
      ∃ k, 32 * j ≤ k ∧ k < 32 * (j + n) ∧ bit b.map_ k = value := by
  induction n generalizing j with
  | zero =>
    simp only [testWords, Bool.false_eq_true, false_iff, not_exists]
    omega
  | succ n ih =>
    rw [testWords]
    by_cases hword : b.testWord value j ≠ 0
    · rw [if_pos hword]
      obtain ⟨i, hi, hbit⟩ := (ne_zero_iff _).mp hword
      rw [getLsbD_testWord _ _ _ hi, decide_eq_true_iff] at hbit
      exact iff_of_true rfl ⟨32 * j + i, by omega, by omega, hbit⟩
    · rw [if_neg hword, ih]
      constructor
      · rintro ⟨k, hk, hlt, hbit⟩
        exact ⟨k, by omega, by omega, hbit⟩
      · rintro ⟨k, hk, hlt, hbit⟩
        refine ⟨k, ?_, by omega, hbit⟩
        by_contra hfirst
        apply hword
        rw [ne_zero_iff]
        refine ⟨k - 32 * j, by omega, ?_⟩
        rw [getLsbD_testWord _ _ _ (by omega), decide_eq_true_iff, Nat.add_sub_cancel' (by omega),
          hbit]

/-- The mask for the bits from `offset` to `last`. -/
lemma getLsbD_testMask : ∀ n < 32, ∀ i < 32,
    ((2 : Word) <<< n - 1).getLsbD i = decide (i ≤ n) := by
  decide +kernel

lemma testMask_ne_zero_iff (b : Bitmap) (value : Bool) (j : ℕ) {offset last : ℕ}
    (hoffset : offset ≤ last) (hlast : last < 32) :
    b.testWord value j &&& ((2 : Word) <<< (last - offset) - 1) <<< offset ≠ 0 ↔
      ∃ k, 32 * j + offset ≤ k ∧ k ≤ 32 * j + last ∧ bit b.map_ k = value := by
  rw [ne_zero_iff]
  constructor
  · rintro ⟨i, hi, hbit⟩
    rw [BitVec.getLsbD_and, getLsbD_testWord _ _ _ hi, BitVec.getLsbD_shiftLeft,
      getLsbD_testMask _ (by omega) _ (by omega)] at hbit
    simp only [Bool.and_eq_true, decide_eq_true_iff, Bool.not_eq_true', decide_eq_false_iff_not]
      at hbit
    exact ⟨32 * j + i, by omega, by omega, hbit.1⟩
  · rintro ⟨k, hk, hle, hbit⟩
    refine ⟨k - 32 * j, by omega, ?_⟩
    rw [BitVec.getLsbD_and, getLsbD_testWord _ _ _ (by omega), BitVec.getLsbD_shiftLeft,
      getLsbD_testMask _ (by omega) _ (by omega), Nat.add_sub_cancel' (by omega), hbit]
    simp only [decide_true, Bool.true_and, Bool.and_eq_true, decide_eq_true_iff,
      Bool.not_eq_true', decide_eq_false_iff_not]
    omega

lemma testEach_eq_true_iff (b : Bitmap) (start stop : ℕ) (value : Bool) :
    b.testEach start stop value = true ↔ ∃ k, start ≤ k ∧ k < stop ∧ bit b.map_ k = value := by
  rw [testEach, List.any_eq_true]
  constructor
  · rintro ⟨k, hk, hbit⟩
    rw [List.mem_range'_1] at hk
    rw [decide_eq_true_iff, get_eq_bit] at hbit
    exact ⟨k, hk.1, by omega, hbit⟩
  · rintro ⟨k, hk, hlt, hbit⟩
    refine ⟨k, ?_, ?_⟩
    · rw [List.mem_range'_1]
      omega
    · rw [decide_eq_true_iff, get_eq_bit, hbit]

/-- `TestRange` is the loop over the bits of the range. -/
lemma testRange_eq (b : Bitmap) (start stop : ℕ) (value : Bool) :
    b.testRange start stop value = b.testEach start stop value := by
  rw [Bool.eq_iff_iff, testEach_eq_true_iff, testRange]
  simp only [bitOffset_eq, kIntBits]
  by_cases hempty : stop ≤ start ∨ stop = 0
  · rw [if_pos hempty]
    simp only [Bool.false_eq_true, false_iff, not_exists]
    omega
  rw [if_neg hempty]
  by_cases hwords : start / 32 < (stop - 1) / 32
  · rw [if_pos hwords]
    by_cases hfirst : b.testWord value (start / 32) >>> (start % 32) ≠ 0
    · rw [if_pos hfirst]
      obtain ⟨i, hi, hbit⟩ := (ne_zero_iff _).mp hfirst
      rw [BitVec.getLsbD_ushiftRight] at hbit
      have hlt := BitVec.lt_of_getLsbD hbit
      rw [getLsbD_testWord _ _ _ hlt, decide_eq_true_iff] at hbit
      exact iff_of_true rfl ⟨_, by omega, by omega, hbit⟩
    rw [if_neg hfirst]
    by_cases hmiddle :
        b.testWords value ((stop - 1) / 32 - (start / 32 + 1)) (start / 32 + 1) = true
    · rw [if_pos hmiddle]
      obtain ⟨k, hk, hlt, hbit⟩ := (testWords_eq_true_iff b value _ _).mp hmiddle
      exact iff_of_true rfl ⟨k, by omega, by omega, hbit⟩
    rw [if_neg hmiddle, decide_eq_true_iff,
      testMask_ne_zero_iff b value _ (Nat.zero_le _) (Nat.mod_lt _ (by norm_num))]
    constructor
    · rintro ⟨k, hk, hle, hbit⟩
      exact ⟨k, by omega, by omega, hbit⟩
    · rintro ⟨k, hk, hlt, hbit⟩
      refine ⟨k, ?_, by omega, hbit⟩
      by_contra hlast
      by_cases hword : k / 32 = start / 32
      · apply hfirst
        rw [ne_zero_iff]
        refine ⟨k % 32 - start % 32, by omega, ?_⟩
        rw [BitVec.getLsbD_ushiftRight, getLsbD_testWord _ _ _ (by omega), decide_eq_true_iff,
          ← hbit]
        congr 1
        omega
      · exact hmiddle ((testWords_eq_true_iff b value _ _).mpr ⟨k, by omega, by omega, hbit⟩)
  · rw [if_neg hwords, decide_eq_true_iff,
      testMask_ne_zero_iff b value _ (by omega) (Nat.mod_lt _ (by norm_num))]
    constructor
    · rintro ⟨k, hk, hle, hbit⟩
      exact ⟨k, by omega, by omega, hbit⟩
    · rintro ⟨k, hk, hlt, hbit⟩
      exact ⟨k, by omega, by omega, hbit⟩

/-! ### Searches -/

/-- The same bit by bit. -/
def nextEach (b : Bitmap) (index limit : ℕ) (value : Bool) : Bool × ℕ :=
  match (List.range' index (limit - index)).find? fun i => b.get i = value with
  | some i => (true, i)
  | none => (false, index)

/-- The bit `found` is the first one from `index` on. -/
def IsNext (b : Bitmap) (index : ℕ) (value : Bool) (found : ℕ) : Prop :=
  index ≤ found ∧ bit b.map_ found = value ∧ ∀ k, index ≤ k → k < found → bit b.map_ k ≠ value

lemma nextEach_eq_true {index limit found : ℕ} {value : Bool} (h : b.IsNext index value found)
    (hlimit : found < limit) : b.nextEach index limit value = (true, found) := by
  obtain ⟨hindex, hbit, hnone⟩ := h
  have hfind : (List.range' index (limit - index)).find? (fun i => b.get i = value) =
      some found := by
    rw [List.find?_range'_eq_some]
    refine ⟨by rw [decide_eq_true_iff, get_eq_bit, hbit], ?_, ?_⟩
    · rw [List.mem_range'_1]
      omega
    · intro k hk hlt
      rw [get_eq_bit, decide_eq_false (hnone k hk hlt)]
      rfl
  rw [nextEach, hfind]

lemma nextEach_eq_false {index limit : ℕ} {value : Bool}
    (h : ∀ k, index ≤ k → k < limit → bit b.map_ k ≠ value) :
    b.nextEach index limit value = (false, index) := by
  have hfind : (List.range' index (limit - index)).find? (fun i => b.get i = value) = none := by
    rw [List.find?_range'_eq_none]
    intro k hk hlt
    rw [get_eq_bit, decide_eq_false (h k hk (by omega))]
    rfl
  rw [nextEach, hfind]

lemma getLsbD_emptyValue (value : Bool) {i : ℕ} (hi : i < 32) :
    (emptyValue value).getLsbD i ≠ value := by
  have hones : (0xffffffff : Word) = BitVec.allOnes 32 := rfl
  rw [emptyValue]
  cases value with
  | true => simp
  | false =>
    rw [if_neg Bool.false_ne_true, hones, BitVec.getLsbD_allOnes, decide_eq_true hi]
    decide

section Find
variable {toFloat : Word → Word}

/-- A power of two is converted exactly: the exponent with its bias, and no mantissa. -/
def ExactPowers (toFloat : Word → Word) : Prop :=
  ∀ k < 32, toFloat (BitVec.twoPow 32 k) = BitVec.ofNat 32 ((k + 127) * 2 ^ 23)

lemma exponent_eq : ∀ k < 32,
    (BitVec.ofNat 32 ((k + 127) * 2 ^ 23) >>> 23 - (0x7f : Word)).toNat = k := by
  decide +kernel

variable (hfloat : ExactPowers toFloat)
include hfloat

lemma findLSBSetNonZero_eq {x : Word} {k : ℕ} (hk : x.getLsbD k = true)
    (hleast : ∀ j < k, x.getLsbD j = false) : findLSBSetNonZero toFloat x = k := by
  have hlt : k < 32 := BitVec.lt_of_getLsbD hk
  rw [findLSBSetNonZero, and_neg_self hk hleast, hfloat k hlt]
  exact exponent_eq k hlt

/-- The first bit of a word that is looked for. -/
lemma findLSBNonEmpty_spec {x : Word} {value : Bool} (hx : x ≠ emptyValue value) :
    ∃ k < 32, findLSBNonEmpty toFloat x value = k ∧ x.getLsbD k = value ∧
      ∀ j < k, x.getLsbD j ≠ value := by
  rw [findLSBNonEmpty]
  cases value with
  | true =>
    obtain ⟨k, hk, hbit, hleast⟩ := exists_lowest hx
    refine ⟨k, hk, findLSBSetNonZero_eq hfloat hbit hleast, hbit, ?_⟩
    intro j hj
    rw [hleast j hj]
    exact Bool.false_ne_true
  | false =>
    have hne : ~~~x ≠ 0 := by
      intro hzero
      apply hx
      rw [← BitVec.not_not (b := x), hzero]
      rfl
    obtain ⟨k, hk, hbit, hleast⟩ := exists_lowest hne
    refine ⟨k, hk, findLSBSetNonZero_eq hfloat hbit hleast, ?_, ?_⟩
    · simpa [hk] using hbit
    · intro j hj
      have hj := hleast j hj
      rw [BitVec.getLsbD_not, decide_eq_true (by omega), Bool.true_and, Bool.not_eq_false'] at hj
      rw [hj]
      decide

/-- The word shows the bits of the word `j` of the map that are looked for, from the place `index`
on. -/
def Shows (b : Bitmap) (value : Bool) (index j : ℕ) (x : Word) : Prop :=
  ∀ i < 32, x.getLsbD i = value ↔ index ≤ 32 * j + i ∧ bit b.map_ (32 * j + i) = value

omit hfloat in
lemma shows_word (b : Bitmap) (value : Bool) {index j : ℕ} (hindex : index ≤ 32 * j) :
    b.Shows value index j (b.word j) := by
  intro i hi
  rw [bit_mul_add _ _ hi, word]
  exact ⟨fun h => ⟨by omega, h⟩, fun h => h.2⟩

/-- The bit that is found in a word. -/
lemma Shows.isNext {value : Bool} {index j : ℕ} {x : Word} (h : b.Shows value index j x)
    (hnone : ∀ k, index ≤ k → k < 32 * j → bit b.map_ k ≠ value) (hx : x ≠ emptyValue value) :
    ∃ k < 32, findLSBNonEmpty toFloat x value = k ∧ b.IsNext index value (32 * j + k) := by
  obtain ⟨k, hk, hfind, hbit, hleast⟩ := findLSBNonEmpty_spec hfloat hx
  obtain ⟨hindex, hvalue⟩ := (h k hk).mp hbit
  refine ⟨k, hk, hfind, hindex, hvalue, ?_⟩
  intro q hq hlt
  by_cases hword : q < 32 * j
  · exact hnone q hq hword
  · intro hq'
    refine hleast (q - 32 * j) (by omega) ((h _ (by omega)).mpr ?_)
    rw [Nat.add_sub_cancel' (by omega)]
    exact ⟨hq, hq'⟩

omit hfloat in
lemma Shows.none {value : Bool} {index j : ℕ} {x : Word} (h : b.Shows value index j x)
    (hnone : ∀ k, index ≤ k → k < 32 * j → bit b.map_ k ≠ value) (hx : x = emptyValue value) :
    ∀ k, index ≤ k → k < 32 * (j + 1) → bit b.map_ k ≠ value := by
  intro k hk hlt
  by_cases hword : k < 32 * j
  · exact hnone k hk hword
  · intro hbit
    have hshow := (h (k - 32 * j) (by omega)).mpr
    rw [Nat.add_sub_cancel' (by omega)] at hshow
    exact getLsbD_emptyValue value (show k - 32 * j < 32 by omega) (hx ▸ hshow ⟨hk, hbit⟩)

omit hfloat in
lemma shiftLeft_kLogIntBits (j : ℕ) : j <<< kLogIntBits = 32 * j := by
  rw [Nat.shiftLeft_eq, kLogIntBits]
  omega

/-- The loop over the words. -/
lemma findInWords_spec {value : Bool} {index : ℕ} (n : ℕ) {j : ℕ} {x : Word}
    (hshows : b.Shows value index j x)
    (hnone : ∀ k, index ≤ k → k < 32 * j → bit b.map_ k ≠ value) (hindex : index < 32 * (j + 1)) :
    (∃ found, b.findInWords toFloat value n j x = .inl found ∧ b.IsNext index value found ∧
      found < 32 * (j + n)) ∨
    ∃ y, b.findInWords toFloat value n j x = .inr y ∧ b.Shows value index (j + n) y ∧
      ∀ k, index ≤ k → k < 32 * (j + n) → bit b.map_ k ≠ value := by
  induction n generalizing j x with
  | zero => exact .inr ⟨x, rfl, hshows, hnone⟩
  | succ n ih =>
    rw [findInWords]
    by_cases hx : x ≠ emptyValue value
    · obtain ⟨k, hk, hfind, hnext⟩ := hshows.isNext hfloat hnone hx
      rw [if_pos hx, hfind, shiftLeft_kLogIntBits]
      exact .inl ⟨_, rfl, hnext, by omega⟩
    · rw [if_neg hx, ← Nat.add_assoc, Nat.add_right_comm]
      exact ih (b.shows_word value (by omega)) (hshows.none hnone (not_not.mp hx)) (by omega)

omit hfloat in
/-- The first word, without the bits in front of `index`. -/
lemma shows_first (b : Bitmap) (value : Bool) (index : ℕ) :
    b.Shows value index (index / 32)
      (if value then b.word (index / 32) &&& (0xffffffff : Word) <<< (index % 32)
        else b.word (index / 32) ||| ~~~((0xffffffff : Word) <<< (index % 32))) := by
  have hones : (0xffffffff : Word) = BitVec.allOnes 32 := rfl
  intro i hi
  rw [bit_mul_add _ _ hi, word, hones]
  cases value with
  | true =>
    rw [if_pos rfl, BitVec.getLsbD_and, BitVec.getLsbD_shiftLeft, BitVec.getLsbD_allOnes]
    simp only [Bool.and_eq_true, decide_eq_true_iff, Bool.not_eq_true', decide_eq_false_iff_not]
    constructor
    · intro ⟨hbit, ⟨_, hle⟩, _⟩
      exact ⟨by omega, hbit⟩
    · intro ⟨hle, hbit⟩
      exact ⟨hbit, ⟨hi, by omega⟩, by omega⟩
  | false =>
    rw [if_neg Bool.false_ne_true, BitVec.getLsbD_or, BitVec.getLsbD_not,
      BitVec.getLsbD_shiftLeft, BitVec.getLsbD_allOnes]
    simp only [Bool.or_eq_false_iff, Bool.and_eq_false_iff, Bool.not_eq_false', Bool.and_eq_true,
      decide_eq_true_iff, decide_eq_false_iff_not, Bool.not_eq_true']
    constructor
    · intro ⟨hbit, hmask⟩
      exact ⟨by omega, hbit⟩
    · intro ⟨hle, hbit⟩
      exact ⟨hbit, .inr ⟨⟨hi, by omega⟩, by omega⟩⟩

omit hfloat in
/-- The mask for the bits behind the last one. -/
lemma getLsbD_lastMask : ∀ n < 32, ∀ i < 32,
    ((0xfffffffe : Word) <<< n).getLsbD i = decide (n < i) := by
  decide +kernel

omit hfloat in
/-- A word without the bits behind the place `last`. -/
lemma getLsbD_masked (x : Word) (value : Bool) {last : ℕ} (hlast : last < 32) {i : ℕ}
    (hi : i < 32) :
    (if value then x &&& ~~~((0xfffffffe : Word) <<< last)
      else x ||| (0xfffffffe : Word) <<< last).getLsbD i = value ↔
      x.getLsbD i = value ∧ i ≤ last := by
  cases value with
  | true =>
    rw [if_pos rfl, BitVec.getLsbD_and, BitVec.getLsbD_not, getLsbD_lastMask _ hlast _ hi]
    simp [hi]
  | false =>
    rw [if_neg Bool.false_ne_true, BitVec.getLsbD_or, getLsbD_lastMask _ hlast _ hi]
    simp

/-- The last word of a search. -/
lemma Shows.last {value : Bool} {index limit : ℕ} {x : Word} (hindex : index < limit)
    (h : b.Shows value index ((limit - 1) / 32) x)
    (hnone : ∀ k, index ≤ k → k < 32 * ((limit - 1) / 32) → bit b.map_ k ≠ value) :
    let masked := if value then x &&& ~~~((0xfffffffe : Word) <<< ((limit - 1) % 32))
      else x ||| (0xfffffffe : Word) <<< ((limit - 1) % 32)
    (if masked ≠ emptyValue value then
      (true, 32 * ((limit - 1) / 32) + findLSBNonEmpty toFloat masked value)
      else (false, index)) = b.nextEach index limit value := by
  intro masked
  have hmasked := fun i => @getLsbD_masked x value _ (Nat.mod_lt (limit - 1) (by norm_num)) i
  by_cases hne : masked ≠ emptyValue value
  · rw [if_pos hne]
    obtain ⟨k, hk, hfind, hbit, hleast⟩ := findLSBNonEmpty_spec hfloat hne
    obtain ⟨hx, hle⟩ := (hmasked k hk).mp hbit
    obtain ⟨hle', hvalue⟩ := (h k hk).mp hx
    rw [hfind]
    refine (nextEach_eq_true ⟨hle', hvalue, ?_⟩ (by omega)).symm
    intro q hq hlt
    by_cases hword : q < 32 * ((limit - 1) / 32)
    · exact hnone q hq hword
    · intro hq'
      have hi : q - 32 * ((limit - 1) / 32) < 32 := by omega
      refine hleast _ (by omega) ((hmasked _ hi).mpr ⟨(h _ hi).mpr ?_, by omega⟩)
      rw [Nat.add_sub_cancel' (by omega)]
      exact ⟨hq, hq'⟩
  · rw [if_neg hne]
    refine (nextEach_eq_false ?_).symm
    intro q hq hlt
    by_cases hword : q < 32 * ((limit - 1) / 32)
    · exact hnone q hq hword
    · intro hq'
      have hi : q - 32 * ((limit - 1) / 32) < 32 := by omega
      refine getLsbD_emptyValue value hi (not_not.mp hne ▸ (hmasked _ hi).mpr ⟨?_, by omega⟩)
      rw [h _ hi, Nat.add_sub_cancel' (by omega)]
      exact ⟨hq, hq'⟩

/-- `FindNextBit` is the loop over the bits from `index` on. -/
lemma findNextBit_eq (b : Bitmap) (index limit : ℕ) (value : Bool) :
    b.findNextBit toFloat index limit value = b.nextEach index limit value := by
  rw [findNextBit]
  simp only [bitOffset_eq]
  by_cases hempty : limit ≤ index ∨ limit = 0
  · rw [if_pos hempty]
    exact (nextEach_eq_false fun k hk hlt => by omega).symm
  rw [if_neg hempty]
  by_cases hfirst : b.get index = value
  · rw [if_pos hfirst]
    refine (nextEach_eq_true ⟨le_rfl, ?_, fun k hk hlt => by omega⟩ (by omega)).symm
    rw [← get_eq_bit, hfirst]
  rw [if_neg hfirst]
  have hdiv : ∀ n : ℕ, n >>> kLogIntBits = n / 32 := fun n => by
    rw [Nat.shiftRight_eq_div_pow, kLogIntBits]
  rw [hdiv, hdiv]
  have hspec := findInWords_spec hfloat ((limit - 1) / 32 - index / 32)
    (b.shows_first value index) (fun k hk hlt => by omega) (by omega)
  obtain ⟨found, hfind, hnext, hlt⟩ | ⟨y, hfind, hshows, hnone⟩ := hspec
  · rw [hfind]
    exact (nextEach_eq_true hnext (by omega)).symm
  · rw [hfind]
    dsimp only
    rw [Nat.add_sub_cancel' (by omega)] at hshows hnone
    rw [shiftLeft_kLogIntBits]
    exact hshows.last hfloat (by omega) hnone

end Find

/-! ### Runs of bits -/

/-- The same bit by bit. -/
def bitsEach (b : Bitmap) (index limit : ℕ) (value : Bool) : ℕ × ℕ :=
  match b.nextEach index limit value with
  | (false, index) => (0, index)
  | (true, index) =>
    (((List.range' index (limit - index)).takeWhile fun i => b.get i = value).length, index)

/-- The result of a search says where the next bit is, or that there is none. -/
lemma nextEach_cases (b : Bitmap) (index limit : ℕ) (value : Bool) :
    (∃ found, b.nextEach index limit value = (true, found) ∧ b.IsNext index value found ∧
      found < limit) ∨
    b.nextEach index limit value = (false, index) ∧
      ∀ k, index ≤ k → k < limit → bit b.map_ k ≠ value := by
  by_cases h : ∃ k, index ≤ k ∧ k < limit ∧ bit b.map_ k = value
  · obtain ⟨hindex, hlt, hbit⟩ := Nat.find_spec h
    have hnext : b.IsNext index value (Nat.find h) := by
      refine ⟨hindex, hbit, fun k hk hk' hvalue => Nat.find_min h hk' ⟨hk, by omega, hvalue⟩⟩
    exact .inl ⟨_, nextEach_eq_true hnext hlt, hnext, hlt⟩
  · have hnone : ∀ k, index ≤ k → k < limit → bit b.map_ k ≠ value := fun k hk hlt hbit =>
      h ⟨k, hk, hlt, hbit⟩
    exact .inr ⟨nextEach_eq_false hnone, hnone⟩

/-- Up to the first bit with the other value. -/
lemma length_takeWhile_get {index stop limit : ℕ} {value : Bool} (hindex : index ≤ stop)
    (hstop : stop ≤ limit) (hall : ∀ k, index ≤ k → k < stop → bit b.map_ k = value)
    (hend : stop < limit → bit b.map_ stop ≠ value) :
    ((List.range' index (limit - index)).takeWhile fun i => b.get i = value).length =
      stop - index := by
  have hsplit : List.range' index (limit - index) =
      List.range' index (stop - index) ++ List.range' stop (limit - stop) := by
    rw [show limit - index = (stop - index) + (limit - stop) by omega, ← List.range'_append_1,
      Nat.add_sub_cancel' hindex]
  have hfirst : ∀ k ∈ List.range' index (stop - index), (decide (b.get k = value)) = true := by
    intro k hk
    rw [List.mem_range'_1] at hk
    rw [decide_eq_true_iff, get_eq_bit]
    exact hall k hk.1 (by omega)
  have hrest : (List.range' stop (limit - stop)).takeWhile (fun i => b.get i = value) = [] := by
    by_cases hlt : stop < limit
    · rw [show limit - stop = (limit - stop - 1) + 1 by omega, List.range'_succ,
        List.takeWhile_cons_of_neg]
      rw [decide_eq_true_iff, get_eq_bit]
      exact hend hlt
    · rw [show limit - stop = 0 by omega]
      rfl
  rw [hsplit, List.takeWhile_append_of_pos hfirst, hrest, List.append_nil, List.length_range']

/-- `FindBits` is the loop over the bits. -/
lemma findBits_eq {toFloat : Word → Word} (hfloat : ExactPowers toFloat) (b : Bitmap)
    (index limit : ℕ) (value : Bool) :
    b.findBits toFloat index limit value = b.bitsEach index limit value := by
  rw [findBits, bitsEach, findNextBit_eq hfloat]
  obtain ⟨found, hfound, ⟨hindex, hbit, -⟩, hlt⟩ | ⟨hnone, -⟩ :=
    b.nextEach_cases index limit value
  · rw [hfound]
    dsimp only
    rw [findNextBit_eq hfloat]
    have hsame : ∀ k, bit b.map_ k ≠ !value → bit b.map_ k = value := fun k hk => by
      simpa using hk
    obtain ⟨stop, hstop, ⟨hle, hother, hall⟩, hlimit⟩ | ⟨hstop, hall⟩ :=
      b.nextEach_cases found limit (!value)
    · rw [hstop, length_takeWhile_get hle hlimit.le fun k hk hlt => hsame k (hall k hk hlt)]
      intro _
      rw [hother]
      simp
    · rw [hstop, length_takeWhile_get hlt.le le_rfl fun k hk hlt => hsame k (hall k hk hlt)]
      exact fun hlt => absurd hlt (lt_irrefl _)
  · rw [hnone]

/-! ### Another size -/

/-- The words that are kept. -/
lemma getD_resized {map new_map : List Word} {n j : ℕ} (hj : j < n) (hn : n ≤ map.length) :
    (map.take n ++ new_map.drop n).getD j 0 = map.getD j 0 := by
  have hlt : j < (map.take n).length := by
    rw [List.length_take]
    omega
  rw [List.getD_eq_getElem?_getD, List.getElem?_append_left hlt, List.getElem?_take_of_lt hj,
    List.getD_eq_getElem?_getD]

/-- `Resize` before the new bits are cleared. -/
lemma resizedMap_spec (hb : b.Valid) (uninitialized : ℕ → Word) (num_bits : ℕ) :
    (b.resizedMap uninitialized (requiredArraySize num_bits)).length =
        requiredArraySize num_bits ∧
      ∀ k < num_bits, k < b.num_bits_ →
        bit (b.resizedMap uninitialized (requiredArraySize num_bits)) k = bit b.map_ k := by
  have hold := le_requiredArraySize b.num_bits_
  have hnew := le_requiredArraySize num_bits
  rw [← hb.size_eq] at hold
  rw [resizedMap]
  by_cases hsize : requiredArraySize num_bits ≠ b.array_size_
  · rw [if_pos hsize]
    constructor
    · simp only [List.length_append, List.length_take, hb.length_eq, List.length_drop,
        List.length_set, List.length_map, List.length_range]
      omega
    · intro k hk hk'
      rw [bit, getD_resized (by omega) (by rw [hb.length_eq]; omega), bit]
  · rw [if_neg hsize]
    exact ⟨hb.length_eq.trans (not_not.mp hsize).symm, fun k _ _ => rfl⟩

/-- `Resize` keeps the bits and clears the new ones. -/
lemma resize_spec (hb : b.Valid) (uninitialized : ℕ → Word) (num_bits : ℕ) :
    (b.resize uninitialized num_bits true).Valid ∧
      (b.resize uninitialized num_bits true).num_bits_ = num_bits ∧
      ∀ k < num_bits, (b.resize uninitialized num_bits true).get k =
        if k < b.num_bits_ then b.get k else false := by
  obtain ⟨hlength, hbits⟩ := resizedMap_spec hb uninitialized num_bits
  have hnew := le_requiredArraySize num_bits
  rw [resize]
  by_cases hgrows : b.num_bits_ < num_bits
  · rw [if_pos ⟨hgrows, rfl⟩]
    obtain ⟨hlength', hbits', hsize'⟩ := setRange_fields (⟨b.resizedMap uninitialized
      (requiredArraySize num_bits), num_bits, requiredArraySize num_bits⟩ : Bitmap) b.num_bits_
      num_bits false
    refine ⟨⟨by rw [hlength', hlength, hsize'], by rw [hsize', hbits']⟩, hbits', ?_⟩
    intro k hk
    rw [get_eq_bit, bit_setRange hgrows.le (by rw [hlength]; exact hnew) _
      (by rw [hlength]; omega)]
    by_cases hold : k < b.num_bits_
    · rw [if_neg (by omega), if_pos hold, hbits k hk hold, get_eq_bit]
    · rw [if_pos (by omega), if_neg hold]
  · rw [if_neg fun h => hgrows h.1]
    refine ⟨⟨hlength, rfl⟩, rfl, ?_⟩
    intro k hk
    rw [if_pos (by omega), get_eq_bit, hbits k hk (by omega), get_eq_bit]

/-- The exponent of the highest bit alone. -/
def exponentOnly (x : Word) : Word := BitVec.ofNat 32 ((Nat.log2 x.toNat + 127) * 2 ^ 23)

end Bitmap

end Chromium.DiskCacheBitmap
