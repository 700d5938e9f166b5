import Chromium.ListOrder
import Chromium.WireFormat

/-!
# Unique positions

`sync/internal_api/public/base/unique_position.cc`: positions are strings of bytes whose
runs are compressed in such a way that the compressed strings sort like the strings.
-/
namespace Chromium.UniquePosition

open WireFormat ListOrder

/-! ### The compression -/

/-- The bytes of a number of 32 bits, the highest first. -/
def bigEndian (n : ℕ) : List Byte :=
  [BitVec.ofNat 8 (n >>> 24), BitVec.ofNat 8 (n >>> 16), BitVec.ofNat 8 (n >>> 8),
    BitVec.ofNat 8 n]

/-- The length is inverted when a higher byte follows the run. -/
def encodedRunLength (length : ℕ) (highEncoding : Bool) : ℕ :=
  if highEncoding then 0xffffffff - length else length

/-- The two `CHECK`s end the program. -/
def writeEncodedRunLength (length : ℕ) (highEncoding : Bool) : Option (List Byte) :=
  if ¬ 4 ≤ length ∨ ¬ length < 0x80000000 then none
  else some (bigEndian (encodedRunLength length highEncoding))

def readEncodedRunLength : List Byte → ℕ
  | b₀ :: b₁ :: b₂ :: b₃ :: _ =>
    let encodedLength := b₃.toNat + b₂.toNat * 2 ^ 8 + b₁.toNat * 2 ^ 16 + b₀.toNat * 2 ^ 24
    if encodedLength.testBit 31 then 0xffffffff - encodedLength else encodedLength
  | _ => 0

/-- There are four bytes, and they are the same. -/
def isRepeatedCharPrefix : List Byte → Bool
  | a :: b :: c :: d :: _ => a = b ∧ a = c ∧ a = d
  | _ => false

/-- A run that goes to the end is encoded low. -/
def encodeHigh (repDigit : Byte) : List Byte → Bool
  | [] => false
  | next :: _ => next > repDigit

/-- What is left from the index `i` on is compressed. The length of a run is cut to 32 bits when
it is passed on. -/
def compressImpl (str : List Byte) : Option (List Byte) :=
  match str with
  | [] => some []
  | repDigit :: tail =>
    if isRepeatedCharPrefix (repDigit :: tail) then
      let runsUntil := tail.dropWhile (· = repDigit)
      let runLength := (repDigit :: tail).length - runsUntil.length
      (writeEncodedRunLength (runLength % 2 ^ 32) (encodeHigh repDigit runsUntil)).bind
        fun encoded => (compressImpl runsUntil).bind
          fun output => some ((repDigit :: tail).take 4 ++ (encoded ++ output))
    else
      (compressImpl ((repDigit :: tail).drop 8)).bind
        fun output => some ((repDigit :: tail).take 8 ++ output)
termination_by str.length
decreasing_by
  · exact Nat.lt_succ_of_le (List.dropWhile_suffix _).length_le
  · simp only [List.length_drop, List.length_cons]
    omega

def uncompressBlock (block : List Byte) : List Byte :=
  if isRepeatedCharPrefix block then
    List.replicate (readEncodedRunLength (block.drop 4)) (block.headD 0)
  else block

def uncompress (str : List Byte) : List Byte :=
  if 8 ≤ str.length then uncompressBlock (str.take 8) ++ uncompress (str.drop 8) else str
termination_by str.length
decreasing_by
  simp only [List.length_drop]
  omega

/-! ### Blocks -/

/-- A compressed string is a series of blocks: runs of the maximal length, eight plain bytes, or
what is left at the end. -/
inductive Compressed : List Byte → List Byte → Prop
  | nil : Compressed [] []
  | repeated {digit : Byte} {length : ℕ} {rest output : List Byte} (hmin : 4 ≤ length)
      (hmax : length < 2 ^ 31) (hnext : rest.head? ≠ some digit) (hrest : Compressed rest output) :
      Compressed (List.replicate length digit ++ rest)
        (List.replicate 4 digit ++
          (bigEndian (encodedRunLength length (encodeHigh digit rest)) ++ output))
  | plain {str output : List Byte} (hplain : ¬ isRepeatedCharPrefix str) (hne : str ≠ [])
      (hrest : Compressed (str.drop 8) output) : Compressed str (str.take 8 ++ output)

/-- No run is too long for its length to be written. -/
def RunsShort (str : List Byte) : Prop := ∀ digit, ¬ List.replicate (2 ^ 31) digit <:+: str

lemma RunsShort.of_suffix {str rest : List Byte} (h : RunsShort str) (hsuffix : rest <:+ str) :
    RunsShort rest :=
  fun digit hinside => h digit (hinside.trans hsuffix.isInfix)

lemma isRepeatedCharPrefix_iff (str : List Byte) :
    isRepeatedCharPrefix str ↔ ∃ digit, str.take 4 = List.replicate 4 digit := by
  match str with
  | [] | [a] | [a, b] | [a, b, c] => simp [isRepeatedCharPrefix, List.replicate]
  | a :: b :: c :: d :: rest =>
    simp only [isRepeatedCharPrefix, decide_eq_true_eq, List.take_succ_cons, List.take_zero,
      List.replicate, List.cons.injEq, and_true]
    constructor
    · rintro ⟨rfl, rfl, rfl⟩
      exact ⟨a, rfl, rfl, rfl, rfl⟩
    · rintro ⟨digit, rfl, rfl, rfl, rfl⟩
      exact ⟨rfl, rfl, rfl⟩

/-- The run at the front of a string, and what comes after it. -/
lemma eq_replicate_append_dropWhile (digit : Byte) (tail : List Byte) :
    digit :: tail = List.replicate (tail.length + 1 - (tail.dropWhile (· = digit)).length) digit ++
      tail.dropWhile (· = digit) := by
  induction tail with
  | nil => rfl
  | cons b tail ih =>
    by_cases h : b = digit
    · subst h
      have hle := (List.dropWhile_suffix (l := tail) (· = b)).length_le
      rw [List.dropWhile_cons_of_pos (by simp), List.length_cons, Nat.sub_add_comm (by omega),
        List.replicate_succ, List.cons_append, ← ih]
    · rw [List.dropWhile_cons_of_neg (by simpa using h)]
      simp

lemma head?_dropWhile_ne (digit : Byte) (tail : List Byte) :
    (tail.dropWhile (· = digit)).head? ≠ some digit := by
  intro h
  have := List.head?_dropWhile_not (fun b : Byte => decide (b = digit)) tail
  rw [h] at this
  simp at this

/-- A run that is compressed has at least the four bytes that tell it. -/
lemma length_dropWhile_of_repeated {digit : Byte} {tail : List Byte}
    (h : isRepeatedCharPrefix (digit :: tail)) :
    (tail.dropWhile (· = digit)).length + 3 ≤ tail.length := by
  match tail, h with
  | b :: c :: d :: rest, h =>
    simp only [isRepeatedCharPrefix, decide_eq_true_eq] at h
    obtain ⟨rfl, rfl, rfl⟩ := h
    have hle := (List.dropWhile_suffix (l := rest) (· = digit)).length_le
    simpa using hle

/-- A string with short runs is compressed, block by block. -/
lemma compressed_of_runsShort {str : List Byte} (h : RunsShort str) :
    ∃ output, compressImpl str = some output ∧ Compressed str output := by
  fun_induction compressImpl str with
  | case1 => exact ⟨[], rfl, .nil⟩
  | case2 repDigit tail hrepeated runsUntil runLength ih =>
    have hsplit : repDigit :: tail = List.replicate runLength repDigit ++ runsUntil :=
      eq_replicate_append_dropWhile repDigit tail
    have hmin : 4 ≤ runLength := by
      have := length_dropWhile_of_repeated hrepeated
      simp only [runLength, runsUntil, List.length_cons]
      omega
    have hmax : runLength < 2 ^ 31 := by
      by_contra hle
      apply h repDigit
      rw [hsplit]
      apply List.IsPrefix.isInfix
      apply List.IsPrefix.trans _ (List.prefix_append _ _)
      rw [List.prefix_replicate_iff, List.length_replicate]
      exact ⟨not_lt.mp hle, rfl⟩
    have hwrite : writeEncodedRunLength (runLength % 2 ^ 32) (encodeHigh repDigit runsUntil) =
        some (bigEndian (encodedRunLength runLength (encodeHigh repDigit runsUntil))) := by
      rw [Nat.mod_eq_of_lt (by omega), writeEncodedRunLength, if_neg (by omega)]
    have hsuffix : runsUntil <:+ repDigit :: tail := by
      rw [hsplit]
      exact List.suffix_append _ _
    obtain ⟨output, houtput, hblocks⟩ := ih (h.of_suffix hsuffix)
    refine ⟨List.replicate 4 repDigit ++
      (bigEndian (encodedRunLength runLength (encodeHigh repDigit runsUntil)) ++ output), ?_, ?_⟩
    · rw [hwrite, houtput, Option.bind_some, Option.bind_some, hsplit,
        List.take_append_of_le_length (by simpa using hmin), List.take_replicate,
        min_eq_left hmin]
    · rw [hsplit]
      exact .repeated hmin hmax (head?_dropWhile_ne repDigit tail) hblocks
  | case3 repDigit tail hplain ih =>
    obtain ⟨output, houtput, hblocks⟩ := ih (h.of_suffix (List.drop_suffix 8 _))
    refine ⟨_, ?_, .plain hplain (List.cons_ne_nil _ _) hblocks⟩
    rw [houtput]
    rfl

/-! ### The way back -/

lemma readEncodedRunLength_bigEndian {length : ℕ} (hmax : length < 2 ^ 31) (high : Bool) :
    readEncodedRunLength (bigEndian (encodedRunLength length high)) = length := by
  have hread : ∀ n < 2 ^ 32, readEncodedRunLength (bigEndian n) =
      if n.testBit 31 then 0xffffffff - n else n := by
    intro n hn
    have hbytes : n % 2 ^ 8 + n / 2 ^ 8 % 2 ^ 8 * 2 ^ 8 + n / 2 ^ 16 % 2 ^ 8 * 2 ^ 16 +
        n / 2 ^ 24 % 2 ^ 8 * 2 ^ 24 = n := by omega
    simp only [bigEndian, readEncodedRunLength, BitVec.toNat_ofNat, Nat.shiftRight_eq_div_pow,
      hbytes]
  cases high with
  | false =>
    have htop : length.testBit 31 = false := Nat.testBit_lt_two_pow hmax
    rw [encodedRunLength, if_neg (by decide), hread _ (by omega), htop]
    rfl
  | true =>
    have htop : (0xffffffff - length).testBit 31 = true := by
      rw [Nat.testBit_eq_decide_div_mod_eq, decide_eq_true_eq]
      omega
    rw [encodedRunLength, if_pos rfl, hread _ (by omega), if_pos htop]
    omega

lemma length_bigEndian (n : ℕ) : (bigEndian n).length = 4 := rfl

lemma isRepeatedCharPrefix_congr {xs ys : List Byte} (h : xs.take 4 = ys.take 4) :
    isRepeatedCharPrefix xs = isRepeatedCharPrefix ys := by
  rw [Bool.eq_iff_iff, isRepeatedCharPrefix_iff, isRepeatedCharPrefix_iff, h]

lemma uncompress_block {block rest : List Byte} (h : block.length = 8) :
    uncompress (block ++ rest) = uncompressBlock block ++ uncompress rest := by
  rw [uncompress, if_pos (by rw [List.length_append]; omega), List.take_left' h,
    List.drop_left' h]

/-- Nothing is compressed to nothing. -/
lemma Compressed.eq_nil {output : List Byte} (h : Compressed [] output) : output = [] := by
  generalize hstr : ([] : List Byte) = str at h
  cases h with
  | nil => rfl
  | repeated hmin _ _ _ =>
    have hlength := congrArg List.length hstr
    rw [List.length_append, List.length_replicate, List.length_nil] at hlength
    omega
  | plain _ hne _ => exact absurd hstr.symm hne

lemma Compressed.uncompress_eq {str output : List Byte} (h : Compressed str output) :
    uncompress output = str := by
  induction h with
  | nil => rw [uncompress, if_neg (by decide)]
  | @repeated digit length rest output hmin hmax hnext hrest ih =>
    set count := bigEndian (encodedRunLength length (encodeHigh digit rest)) with hcount
    have hlength : (List.replicate 4 digit ++ count).length = 8 := rfl
    have hrepeated : isRepeatedCharPrefix (List.replicate 4 digit ++ count) :=
      (isRepeatedCharPrefix_iff _).mpr ⟨digit, List.take_left' rfl⟩
    have hdrop : (List.replicate 4 digit ++ count).drop 4 = count := List.drop_left' rfl
    rw [← List.append_assoc, uncompress_block hlength, ih, uncompressBlock, if_pos hrepeated,
      hdrop, hcount, readEncodedRunLength_bigEndian hmax]
    rfl
  | @plain str output hplain hne hrest ih =>
    by_cases hlong : 8 ≤ str.length
    · have hfront : (str.take 8).take 4 = str.take 4 := by rw [List.take_take]; rfl
      have hblock : ¬ isRepeatedCharPrefix (str.take 8) := by
        rwa [isRepeatedCharPrefix_congr hfront]
      rw [uncompress_block (List.length_take_of_le hlong), ih, uncompressBlock, if_neg hblock,
        List.take_append_drop]
    · -- the remainder is the last block
      rw [List.drop_eq_nil_of_le (by omega)] at hrest
      rw [hrest.eq_nil, List.append_nil, List.take_of_length_le (by omega), uncompress,
        if_neg hlong]

/-! ### The order -/

lemma bigEndian_lt {m n : ℕ} (hn : n < 2 ^ 32) (h : m < n) : bigEndian m < bigEndian n := by
  have hdigits : ∀ k < 2 ^ 32, k = k / 2 ^ 24 % 2 ^ 8 * 2 ^ 24 + k / 2 ^ 16 % 2 ^ 8 * 2 ^ 16 +
      k / 2 ^ 8 % 2 ^ 8 * 2 ^ 8 + k % 2 ^ 8 := by omega
  have hm := hdigits m (h.trans hn)
  have hn := hdigits n hn
  have hlt : ∀ k, k % 2 ^ 8 < 2 ^ 8 := fun k => Nat.mod_lt _ (by decide)
  have hm₁ := hlt (m / 2 ^ 16)
  have hm₂ := hlt (m / 2 ^ 8)
  have hm₃ := hlt m
  simp only [bigEndian, List.cons_lt_cons_iff, BitVec.lt_def, BitVec.toNat_ofNat,
    ← BitVec.toNat_inj, Nat.shiftRight_eq_div_pow, List.not_lt_nil, and_false, or_false]
  generalize m / 2 ^ 24 % 2 ^ 8 = a at *
  generalize m / 2 ^ 16 % 2 ^ 8 = b at *
  generalize m / 2 ^ 8 % 2 ^ 8 = c at *
  omega

section Runs
variable {digit : Byte} {xs ys : List Byte} {length length' : ℕ}

/-- What comes after a run is lower than its byte. -/
lemma encodeHigh_of_lt (hnext : xs.head? ≠ some digit) (h : xs < digit :: ys) :
    encodeHigh digit xs = false := by
  cases xs with
  | nil => rfl
  | cons x xs =>
    rw [encodeHigh, decide_eq_false_iff_not]
    rcases List.cons_lt_cons_iff.mp h with hlt | ⟨rfl, -⟩
    · exact BitVec.not_lt.mpr (BitVec.le_of_lt hlt)
    · exact absurd rfl hnext

lemma encodeHigh_of_gt (hnext : ys.head? ≠ some digit) (h : digit :: xs < ys) :
    encodeHigh digit ys = true := by
  cases ys with
  | nil => exact absurd h (List.not_lt_nil _)
  | cons y ys =>
    rw [encodeHigh, decide_eq_true_eq]
    rcases List.cons_lt_cons_iff.mp h with hlt | ⟨rfl, -⟩
    · exact hlt
    · exact absurd rfl hnext

/-- A lower string is encoded high only when the higher one is. -/
lemma encodeHigh_mono (h : xs < ys) (hhigh : encodeHigh digit xs = true) :
    encodeHigh digit ys = true := by
  cases xs with
  | nil => cases hhigh
  | cons x xs =>
    cases ys with
    | nil => exact absurd h (List.not_lt_nil _)
    | cons y ys =>
      rw [encodeHigh, decide_eq_true_eq] at hhigh ⊢
      rcases List.cons_lt_cons_iff.mp h with hlt | ⟨rfl, -⟩
      · exact BitVec.lt_trans hhigh hlt
      · exact hhigh

lemma replicate_split {m n : ℕ} (h : m < n) (digit : Byte) (xs : List Byte) :
    List.replicate n digit ++ xs =
      List.replicate m digit ++ digit :: (List.replicate (n - m - 1) digit ++ xs) := by
  obtain ⟨k, rfl⟩ : ∃ k, n = m + (k + 1) := ⟨n - m - 1, by omega⟩
  rw [List.replicate_add, List.append_assoc, List.replicate_succ, List.cons_append]
  congr 5
  omega

/-- Of two strings that begin with the same byte, the lengths decide, or what comes after. -/
lemma encodedRunLength_lt_or (hmax : length < 2 ^ 31) (hmax' : length' < 2 ^ 31)
    (hnext : xs.head? ≠ some digit) (hnext' : ys.head? ≠ some digit)
    (h : List.replicate length digit ++ xs < List.replicate length' digit ++ ys) :
    encodedRunLength length (encodeHigh digit xs) <
        encodedRunLength length' (encodeHigh digit ys) ∨
      encodedRunLength length (encodeHigh digit xs) =
        encodedRunLength length' (encodeHigh digit ys) ∧ xs < ys := by
  rcases lt_trichotomy length length' with hlt | rfl | hgt
  · -- the longer run goes on where the shorter one stops
    rw [replicate_split hlt, append_left_lt_iff] at h
    rw [encodeHigh_of_lt hnext h, encodedRunLength, encodedRunLength, if_neg (by decide)]
    split_ifs <;> omega
  · rw [append_left_lt_iff] at h
    cases hx : encodeHigh digit xs with
    | true =>
      rw [encodeHigh_mono h hx]
      exact .inr ⟨rfl, h⟩
    | false =>
      cases hy : encodeHigh digit ys with
      | true =>
        rw [encodedRunLength, encodedRunLength, if_neg (by decide), if_pos rfl]
        omega
      | false => exact .inr ⟨rfl, h⟩
  · rw [replicate_split hgt, append_left_lt_iff] at h
    rw [encodeHigh_of_gt hnext' h, encodedRunLength, encodedRunLength, if_pos rfl]
    split_ifs <;> omega

end Runs

/-- A plain block shows the bytes of the string. -/
lemma take_plain {str output : List Byte} (hrest : Compressed (str.drop 8) output) {n : ℕ}
    (hn : n ≤ 8) : (str.take 8 ++ output).take n = str.take n := by
  by_cases hlong : 8 ≤ str.length
  · rw [List.take_append_of_le_length (by rwa [List.length_take_of_le hlong]), List.take_take,
      min_eq_left hn]
  · rw [List.drop_eq_nil_of_le (by omega)] at hrest
    rw [hrest.eq_nil, List.append_nil, List.take_take, min_eq_left hn]

lemma take_four_replicate {digit : Byte} {length : ℕ} (hmin : 4 ≤ length) (rest : List Byte) :
    (List.replicate length digit ++ rest).take 4 = List.replicate 4 digit := by
  rw [List.take_append_of_le_length (by simpa using hmin), List.take_replicate,
    min_eq_left hmin]

/-- Every block shows the first four bytes of the string. -/
lemma Compressed.take_four {str output : List Byte} (h : Compressed str output) :
    output.take 4 = str.take 4 := by
  cases h with
  | nil => rfl
  | @repeated digit length rest output hmin hmax hnext hrest =>
    rw [take_four_replicate hmin, take_four_replicate le_rfl]
  | plain hplain hne hrest => exact take_plain hrest (by decide)

/-- A string that begins with four equal bytes is compressed as a run. -/
lemma Compressed.exists_repeated {digit : Byte} {str output : List Byte}
    (h : Compressed str output) (hfront : str.take 4 = List.replicate 4 digit) :
    ∃ length rest after, 4 ≤ length ∧ length < 2 ^ 31 ∧ rest.head? ≠ some digit ∧
      Compressed rest after ∧ str = List.replicate length digit ++ rest ∧
      output = List.replicate 4 digit ++
        (bigEndian (encodedRunLength length (encodeHigh digit rest)) ++ after) := by
  cases h with
  | nil => cases hfront
  | @repeated digit' length rest output hmin hmax hnext hrest =>
    rw [take_four_replicate hmin] at hfront
    obtain rfl : digit' = digit := (List.cons.inj hfront).1
    exact ⟨length, rest, output, hmin, hmax, hnext, hrest, rfl, rfl⟩
  | plain hplain hne hrest =>
    exact absurd ((isRepeatedCharPrefix_iff _).mpr ⟨digit, hfront⟩) hplain

lemma Compressed.lt_of_front_ne {x y cx cy : List Byte} (hx : Compressed x cx)
    (hy : Compressed y cy) (h : x < y) (hfront : x.take 4 ≠ y.take 4) : cx < cy := by
  have hlt := take_lt_take h hfront
  rw [← hx.take_four, ← hy.take_four] at hlt
  exact lt_of_take_lt hlt

/-- Compression keeps the order. -/
lemma Compressed.lt {x y cx cy : List Byte} (hx : Compressed x cx) (hy : Compressed y cy)
    (h : x < y) : cx < cy := by
  induction hx generalizing y cy with
  | nil =>
    -- a string that is not empty is not compressed to nothing
    cases cy with
    | nil =>
      rw [← hy.uncompress_eq, uncompress, if_neg (by decide)] at h
      exact absurd h (List.lt_irrefl _)
    | cons c cy => exact List.nil_lt_cons c cy
  | @repeated digit length rest output hmin hmax hnext hrest ih =>
    by_cases hfront : (List.replicate length digit ++ rest).take 4 = y.take 4
    · rw [take_four_replicate hmin] at hfront
      obtain ⟨length', rest', after, -, hmax', hnext', hrest', rfl, rfl⟩ :=
        hy.exists_repeated hfront.symm
      rw [append_left_lt_iff, append_lt_append_iff (by rw [length_bigEndian, length_bigEndian])]
      rcases encodedRunLength_lt_or hmax hmax' hnext hnext' h with hlt | ⟨heq, hlt⟩
      · apply Or.inl
        apply bigEndian_lt _ hlt
        unfold encodedRunLength
        split_ifs <;> omega
      · exact .inr ⟨congrArg bigEndian heq, ih hrest' hlt⟩
    · exact (Compressed.repeated hmin hmax hnext hrest).lt_of_front_ne hy h hfront
  | @plain str output hplain hne hrest ih =>
    by_cases hfront : str.take 4 = y.take 4
    · cases hy with
      | nil => exact absurd h (List.not_lt_nil _)
      | @repeated digit length rest _ hmin hmax hnext _ =>
        rw [take_four_replicate hmin] at hfront
        exact absurd ((isRepeatedCharPrefix_iff _).mpr ⟨digit, hfront⟩) hplain
      | @plain _ output' _ _ hrest' =>
        rcases (lt_iff_take_drop 8 _ _).mp h with hlt | ⟨heq, hlt⟩
        · rw [← take_plain hrest le_rfl, ← take_plain hrest' le_rfl] at hlt
          exact lt_of_take_lt hlt
        · rw [heq, append_left_lt_iff]
          exact ih hrest' hlt
    · exact (Compressed.plain hplain hne hrest).lt_of_front_ne hy h hfront

/-- Strings with short runs come back from their compression, and sort like it. Positions that
are valid need nothing else. -/
theorem compressImpl_spec (x y : List Byte) (hx : RunsShort x) (hy : RunsShort y) :
    ∃ cx cy, compressImpl x = some cx ∧ compressImpl y = some cy ∧
      uncompress cx = x ∧ uncompress cy = y ∧ (x < y ↔ cx < cy) := by
  obtain ⟨cx, hcx, hx⟩ := compressed_of_runsShort hx
  obtain ⟨cy, hcy, hy⟩ := compressed_of_runsShort hy
  refine ⟨cx, cy, hcx, hcy, hx.uncompress_eq, hy.uncompress_eq, hx.lt hy, fun h => ?_⟩
  by_contra hnot
  rcases List.le_iff_lt_or_eq.mp (List.not_lt.mp hnot) with hlt | rfl
  · exact List.lt_asymm h (hy.lt hx hlt)
  · obtain rfl : cx = cy := Option.some.inj (hcx.symm.trans hcy)
    exact List.lt_irrefl cx h

lemma runsShort_of_length {str : List Byte} (h : str.length < 2 ^ 31) : RunsShort str := by
  intro digit hinside
  have hle := hinside.length_le
  rw [List.length_replicate] at hle
  omega

/-- A run that goes to the end, and one that a lower byte follows. -/
theorem compressImpl_spec_runs :
    ∃ cx cy, compressImpl (List.replicate 28 0x41) = some cx ∧
      compressImpl (List.replicate 30 0x41 ++ [1]) = some cy ∧
      uncompress cx = List.replicate 28 0x41 ∧ uncompress cy = List.replicate 30 0x41 ++ [1] ∧
      (List.replicate 28 (0x41 : Byte) < List.replicate 30 0x41 ++ [1] ↔ cx < cy) :=
  compressImpl_spec _ _ (runsShort_of_length (by decide)) (runsShort_of_length (by decide))

end Chromium.UniquePosition
