import Chromium.WireFormat

/-!
# UTF-8 and UTF-16

`base/third_party/icu/icu_utf.h` and `base/strings/utf_string_conversion_utils.cc`: a code point
is taken from the front of a string of bytes, and code points are put at the end of strings of
bytes or of UTF-16 code units. Code units and code points are natural numbers, and a code point
that is negative in the source is `none`.
-/
namespace Chromium.IcuUtf

open WireFormat

/-- `CBU_IS_SURROGATE` -/
def isSurrogate (c : ℕ) : Bool := c &&& 0xfffff800 = 0xd800

/-- `CBU_IS_SURROGATE_LEAD`, asked of a surrogate. -/
def isSurrogateLead (c : ℕ) : Bool := c &&& 0x400 = 0

/-- `CBU16_IS_TRAIL` -/
def isTrail16 (c : ℕ) : Bool := c &&& 0xfffffc00 = 0xdc00

/-- `CBU16_SURROGATE_OFFSET` -/
def surrogateOffset : ℕ := (0xd800 <<< 10) + 0xdc00 - 0x10000

/-- `CBU16_GET_SUPPLEMENTARY` -/
def getSupplementary (lead trail : ℕ) : ℕ := (lead <<< 10) + trail - surrogateOffset

def isValidCodepoint (c : ℕ) : Bool := c < 0xD800 ∨ (0xE000 ≤ c ∧ c ≤ 0x10FFFF)

/-- Leaves out the noncharacters too. -/
def isValidCharacter (c : ℕ) : Bool :=
  c < 0xD800 ∨ (0xE000 ≤ c ∧ c < 0xFDD0) ∨
    (0xFDEF < c ∧ c ≤ 0x10FFFF ∧ c &&& 0xFFFE ≠ 0xFFFE)

/-! ### UTF-8 -/

/-- `utf8_countTrailBytes` -/
def countTrailBytes (lead : ℕ) : ℕ :=
  if lead < 0xC0 then 0
  else if lead < 0xE0 then 1
  else if lead < 0xF0 then 2
  else if lead < 0xF8 then 3
  else if lead < 0xFC then 4
  else if lead < 0xFE then 5
  else 0

/-- `CBU8_IS_LEAD` -/
def isLead (c : ℕ) : Bool := 0xC0 ≤ c ∧ c < 0xFE

/-- `CBU8_IS_TRAIL` -/
def isTrail (c : Byte) : Bool := c.toNat &&& 0xc0 = 0x80

/-- `utf8_minLegal` -/
def minLegal : ℕ → ℕ
  | 0 => 0
  | 1 => 0x80
  | 2 => 0x800
  | _ => 0x10000

/-- One trail byte is put behind the bits that are there. -/
def addTrail (c : ℕ) (trail : Byte) : ℕ := (c <<< 6) ||| (trail.toNat &&& 0x3f)

/-- The code point of a lead byte and as many trail bytes as it asks for. -/
def ofTrailBytes (lead : ℕ) (trail : List Byte) : Option ℕ :=
  let count := trail.length
  let c := lead &&& ((1 <<< (6 - count)) - 1)
  -- After the first of three trail bytes the code point must not be out of Unicode.
  if 4 ≤ count ∨ (count = 3 ∧ ∀ t ∈ trail.head?, 0x110 ≤ addTrail c t) then none
  else if trail.all isTrail then
    let c := trail.foldl addTrail c
    if c < minLegal count ∨ isSurrogate c then none else some c
  else none

/-- `utf8_nextCharSafeBody`, which gives the code point and how many bytes of `rest` it passes.
Behind an illegal sequence stands the first byte that is no trail byte. -/
def nextCharSafeBody (lead : ℕ) (rest : List Byte) : Option ℕ × ℕ :=
  let count := countTrailBytes lead
  if count ≤ rest.length then
    match ofTrailBytes lead (rest.take count) with
    | some c => (some c, count)
    | none => (none, ((rest.take count).takeWhile isTrail).length)
  else
    (none, (rest.takeWhile isTrail).length)

/-- `CBU8_NEXT` at the byte `c`, with the bytes behind it. -/
def next (c : Byte) (rest : List Byte) : Option ℕ × ℕ :=
  if c.toNat < 0x80 then (some c.toNat, 0)
  else if isLead c.toNat then nextCharSafeBody c.toNat rest
  else (none, 0)

/-- `CBU8_APPEND_UNSAFE` of an unsigned number of 32 bits. -/
def append (c : ℕ) : List Byte :=
  if c ≤ 0x7f then [BitVec.ofNat 8 c]
  else if c ≤ 0x7ff then
    [BitVec.ofNat 8 (c >>> 6 ||| 0xc0), BitVec.ofNat 8 (c &&& 0x3f ||| 0x80)]
  else if c ≤ 0xffff then
    [BitVec.ofNat 8 (c >>> 12 ||| 0xe0), BitVec.ofNat 8 ((c >>> 6) &&& 0x3f ||| 0x80),
      BitVec.ofNat 8 (c &&& 0x3f ||| 0x80)]
  else
    [BitVec.ofNat 8 (c >>> 18 ||| 0xf0), BitVec.ofNat 8 ((c >>> 12) &&& 0x3f ||| 0x80),
      BitVec.ofNat 8 ((c >>> 6) &&& 0x3f ||| 0x80), BitVec.ofNat 8 (c &&& 0x3f ||| 0x80)]

/-! ### Bits as numbers -/

lemma and_shiftLeft_right (c m k : ℕ) : c &&& (m <<< k) = ((c >>> k) &&& m) <<< k := by
  apply Nat.eq_of_testBit_eq
  intro i
  by_cases hi : k ≤ i
  · simp [Nat.testBit_and, Nat.testBit_shiftLeft, Nat.testBit_shiftRight, hi,
      Nat.add_sub_cancel' hi]
  · simp [Nat.testBit_and, Nat.testBit_shiftLeft, hi]

lemma and_mask (c w k : ℕ) : c &&& (2 ^ w - 1) * 2 ^ k = c / 2 ^ k % 2 ^ w * 2 ^ k := by
  have hand := and_shiftLeft_right c (2 ^ w - 1) k
  rwa [Nat.and_two_pow_sub_one_eq_mod, Nat.shiftRight_eq_div_pow, Nat.shiftLeft_eq,
    Nat.shiftLeft_eq] at hand

lemma and_low (c : ℕ) : c &&& 0x3f = c % 64 :=
  Nat.and_two_pow_sub_one_eq_mod c 6

lemma or_high {c k a : ℕ} (h : c < 2 ^ k) : c ||| 2 ^ k * a = 2 ^ k * a + c := by
  rw [Nat.or_comm, Nat.two_pow_add_eq_or_of_lt h]

lemma addTrail_eq (c : ℕ) (trail : Byte) : addTrail c trail = c * 64 + trail.toNat % 64 := by
  have hlow : trail.toNat % 64 < 2 ^ 6 := Nat.mod_lt _ (by decide)
  rw [addTrail, and_low, ← Nat.shiftLeft_add_eq_or_of_lt hlow, Nat.shiftLeft_eq]

lemma isTrail_iff (c : Byte) : isTrail c = true ↔ 0x80 ≤ c.toNat ∧ c.toNat < 0xC0 := by
  revert c
  decide

lemma isSurrogate_iff {c : ℕ} (h : c < 2 ^ 32) :
    isSurrogate c = true ↔ 0xD800 ≤ c ∧ c < 0xE000 := by
  have hmask : c &&& 0xfffff800 = c / 2 ^ 11 % 2 ^ 21 * 2 ^ 11 :=
    and_mask c 21 11
  rw [isSurrogate, hmask, decide_eq_true_iff]
  omega

lemma isTrail16_iff {c : ℕ} (h : c < 2 ^ 32) :
    isTrail16 c = true ↔ 0xDC00 ≤ c ∧ c < 0xE000 := by
  have hmask : c &&& 0xfffffc00 = c / 2 ^ 10 % 2 ^ 22 * 2 ^ 10 :=
    and_mask c 22 10
  rw [isTrail16, hmask, decide_eq_true_iff]
  omega

lemma isSurrogateLead_iff {c : ℕ} (hlow : 0xD800 ≤ c) (hhigh : c < 0xE000) :
    isSurrogateLead c = true ↔ c < 0xDC00 := by
  have hmask : c &&& 0x400 = c / 2 ^ 10 % 2 ^ 1 * 2 ^ 10 :=
    and_mask c 1 10
  rw [isSurrogateLead, hmask, decide_eq_true_iff]
  omega

lemma getSupplementary_eq {lead trail : ℕ} (hlead : 0xD800 ≤ lead) (htrail : 0xDC00 ≤ trail) :
    getSupplementary lead trail = 0x10000 + (lead - 0xD800) * 0x400 + (trail - 0xDC00) := by
  have hoffset : surrogateOffset = 0xd800 * 0x400 + 0xdc00 - 0x10000 := by decide
  rw [getSupplementary, hoffset, Nat.shiftLeft_eq]
  omega

/-! ### A code point and its bytes -/

lemma ofTrailBytes_one (lead : ℕ) (t : Byte) (c : ℕ) :
    ofTrailBytes lead [t] = some c ↔
      (0x80 ≤ t.toNat ∧ t.toNat < 0xC0) ∧ lead % 32 * 64 + t.toNat % 64 = c ∧ 0x80 ≤ c := by
  have hmask : lead &&& (1 <<< (6 - [t].length)) - 1 = lead % 32 :=
    Nat.and_two_pow_sub_one_eq_mod lead 5
  have hsurrogate : isSurrogate (lead % 32 * 64 + t.toNat % 64) = false := by
    rw [Bool.eq_false_iff, Ne, isSurrogate_iff (by omega)]
    omega
  simp only [ofTrailBytes, hmask]
  simp only [List.length_singleton, List.all_cons, List.all_nil, Bool.and_true, isTrail_iff,
    List.foldl_cons, List.foldl_nil, addTrail_eq, hsurrogate, minLegal]
  norm_num
  omega

lemma ofTrailBytes_two (lead : ℕ) (t u : Byte) (c : ℕ) :
    ofTrailBytes lead [t, u] = some c ↔
      (0x80 ≤ t.toNat ∧ t.toNat < 0xC0) ∧ (0x80 ≤ u.toNat ∧ u.toNat < 0xC0) ∧
      (lead % 16 * 64 + t.toNat % 64) * 64 + u.toNat % 64 = c ∧ 0x800 ≤ c ∧
      ¬ (0xD800 ≤ c ∧ c < 0xE000) := by
  have hmask : lead &&& (1 <<< (6 - [t, u].length)) - 1 = lead % 16 :=
    Nat.and_two_pow_sub_one_eq_mod lead 4
  have hsurrogate := isSurrogate_iff
    (c := (lead % 16 * 64 + t.toNat % 64) * 64 + u.toNat % 64) (by omega)
  simp only [ofTrailBytes, hmask]
  simp only [List.length_cons, List.length_nil, List.all_cons, List.all_nil, Bool.and_true,
    Bool.and_eq_true, isTrail_iff, List.foldl_cons, List.foldl_nil, addTrail_eq, hsurrogate,
    minLegal]
  norm_num
  omega

lemma ofTrailBytes_three (lead : ℕ) (t u v : Byte) (c : ℕ) :
    ofTrailBytes lead [t, u, v] = some c ↔
      (0x80 ≤ t.toNat ∧ t.toNat < 0xC0) ∧ (0x80 ≤ u.toNat ∧ u.toNat < 0xC0) ∧
      (0x80 ≤ v.toNat ∧ v.toNat < 0xC0) ∧
      ((lead % 8 * 64 + t.toNat % 64) * 64 + u.toNat % 64) * 64 + v.toNat % 64 = c ∧
      0x10000 ≤ c ∧ c < 0x110000 := by
  have hmask : lead &&& (1 <<< (6 - [t, u, v].length)) - 1 = lead % 8 :=
    Nat.and_two_pow_sub_one_eq_mod lead 3
  have hsurrogate := isSurrogate_iff
    (c := ((lead % 8 * 64 + t.toNat % 64) * 64 + u.toNat % 64) * 64 + v.toNat % 64) (by omega)
  simp only [ofTrailBytes, hmask]
  simp only [List.length_cons, List.length_nil, List.all_cons, List.all_nil, Bool.and_true,
    Bool.and_eq_true, isTrail_iff, List.foldl_cons, List.foldl_nil, addTrail_eq, hsurrogate,
    minLegal, List.head?_cons, Option.mem_some_iff, forall_eq']
  norm_num
  omega

/-- More than three trail bytes are never right. -/
lemma ofTrailBytes_long (lead : ℕ) {trail : List Byte} (h : 4 ≤ trail.length) :
    ofTrailBytes lead trail = none := by
  simp [ofTrailBytes, h]

lemma append_one {c : ℕ} (h : c < 0x80) : append c = [BitVec.ofNat 8 c] := by
  rw [append, if_pos (by omega)]

lemma append_two {c : ℕ} (hlow : 0x80 ≤ c) (hhigh : c < 0x800) :
    append c = [BitVec.ofNat 8 (0xC0 + c / 64), BitVec.ofNat 8 (0x80 + c % 64)] := by
  have hlead : c / 64 ||| 0xc0 = 0xC0 + c / 64 := or_high (k := 6) (a := 3) (by omega)
  have htrail : c % 64 ||| 0x80 = 0x80 + c % 64 := or_high (k := 7) (a := 1) (by omega)
  rw [append, if_neg (by omega), if_pos (by omega), and_low, Nat.shiftRight_eq_div_pow, hlead,
    htrail]

lemma append_three {c : ℕ} (hlow : 0x800 ≤ c) (hhigh : c < 0x10000) :
    append c = [BitVec.ofNat 8 (0xE0 + c / 4096), BitVec.ofNat 8 (0x80 + c / 64 % 64),
      BitVec.ofNat 8 (0x80 + c % 64)] := by
  have hlead : c / 4096 ||| 0xe0 = 0xE0 + c / 4096 := or_high (k := 5) (a := 7) (by omega)
  have hmiddle : c / 64 % 64 ||| 0x80 = 0x80 + c / 64 % 64 :=
    or_high (k := 7) (a := 1) (by omega)
  have htrail : c % 64 ||| 0x80 = 0x80 + c % 64 := or_high (k := 7) (a := 1) (by omega)
  rw [append, if_neg (by omega), if_neg (by omega), if_pos (by omega), and_low, and_low,
    Nat.shiftRight_eq_div_pow, Nat.shiftRight_eq_div_pow, hlead, hmiddle, htrail]

lemma append_four {c : ℕ} (hlow : 0x10000 ≤ c) (hhigh : c < 0x110000) :
    append c = [BitVec.ofNat 8 (0xF0 + c / 262144), BitVec.ofNat 8 (0x80 + c / 4096 % 64),
      BitVec.ofNat 8 (0x80 + c / 64 % 64), BitVec.ofNat 8 (0x80 + c % 64)] := by
  have hlead : c / 262144 ||| 0xf0 = 0xF0 + c / 262144 := or_high (k := 4) (a := 15) (by omega)
  have hsecond : c / 4096 % 64 ||| 0x80 = 0x80 + c / 4096 % 64 :=
    or_high (k := 7) (a := 1) (by omega)
  have hthird : c / 64 % 64 ||| 0x80 = 0x80 + c / 64 % 64 :=
    or_high (k := 7) (a := 1) (by omega)
  have htrail : c % 64 ||| 0x80 = 0x80 + c % 64 := or_high (k := 7) (a := 1) (by omega)
  rw [append, if_neg (by omega), if_neg (by omega), if_neg (by omega), and_low, and_low, and_low,
    Nat.shiftRight_eq_div_pow, Nat.shiftRight_eq_div_pow, Nat.shiftRight_eq_div_pow, hlead,
    hsecond, hthird, htrail]

lemma isValidCodepoint_iff (c : ℕ) :
    isValidCodepoint c = true ↔ c < 0xD800 ∨ (0xE000 ≤ c ∧ c < 0x110000) := by
  rw [isValidCodepoint, decide_eq_true_iff]
  omega

lemma isValidCodepoint_of_character {c : ℕ} (h : isValidCharacter c = true) :
    isValidCodepoint c = true := by
  rw [isValidCharacter, decide_eq_true_iff] at h
  rw [isValidCodepoint_iff]
  omega

lemma next_of_trail {b : Byte} {trail : List Byte} {c : ℕ} (hlow : 0xC0 ≤ b.toNat)
    (hhigh : b.toNat < 0xFE) (hcount : countTrailBytes b.toNat = trail.length)
    (h : ofTrailBytes b.toNat trail = some c) (rest : List Byte) :
    next b (trail ++ rest) = (some c, trail.length) := by
  have hlead : isLead b.toNat = true := by simp [isLead, hlow, hhigh]
  have hlength : trail.length ≤ (trail ++ rest).length := by simp
  rw [next, if_neg (by omega), if_pos hlead, nextCharSafeBody, hcount]
  simp only [if_pos hlength, List.take_left, h]

/-- The bytes of a code point are read as the code point, whatever follows. -/
lemma next_append {c : ℕ} (h : isValidCodepoint c = true) :
    ∃ b trail, append c = b :: trail ∧
      ∀ rest, next b (trail ++ rest) = (some c, trail.length) := by
  rw [isValidCodepoint_iff] at h
  have hbyte : ∀ n, n < 256 → (BitVec.ofNat 8 n).toNat = n := by
    intro n hn
    rw [BitVec.toNat_ofNat, Nat.mod_eq_of_lt hn]
  rcases Nat.lt_or_ge c 0x80 with hone | hone
  · refine ⟨_, _, append_one hone, fun rest => ?_⟩
    rw [next, hbyte c (by omega), if_pos hone]
    rfl
  rcases Nat.lt_or_ge c 0x800 with htwo | htwo
  · have hb := hbyte (0xC0 + c / 64) (by omega)
    have ht := hbyte (0x80 + c % 64) (by omega)
    refine ⟨_, _, append_two hone htwo, next_of_trail (by omega) (by omega) ?_ ?_⟩
    · rw [hb, countTrailBytes, if_neg (by omega), if_pos (by omega)]
      rfl
    · rw [ofTrailBytes_one]
      omega
  rcases Nat.lt_or_ge c 0x10000 with hthree | hthree
  · have hb := hbyte (0xE0 + c / 4096) (by omega)
    have ht := hbyte (0x80 + c / 64 % 64) (by omega)
    have hu := hbyte (0x80 + c % 64) (by omega)
    refine ⟨_, _, append_three htwo hthree, next_of_trail (by omega) (by omega) ?_ ?_⟩
    · rw [hb, countTrailBytes, if_neg (by omega), if_neg (by omega), if_pos (by omega)]
      rfl
    · rw [ofTrailBytes_two]
      omega
  · have hb := hbyte (0xF0 + c / 262144) (by omega)
    have ht := hbyte (0x80 + c / 4096 % 64) (by omega)
    have hu := hbyte (0x80 + c / 64 % 64) (by omega)
    have hv := hbyte (0x80 + c % 64) (by omega)
    refine ⟨_, _, append_four hthree (by omega), next_of_trail (by omega) (by omega) ?_ ?_⟩
    · rw [hb, countTrailBytes, if_neg (by omega), if_neg (by omega), if_neg (by omega),
        if_pos (by omega)]
      rfl
    · rw [ofTrailBytes_three]
      omega

/-- What trail bytes give a code point is its encoding. -/
lemma append_of_ofTrailBytes {b : Byte} {trail : List Byte} {c : ℕ} (hlow : 0xC0 ≤ b.toNat)
    (hcount : countTrailBytes b.toNat = trail.length) (hpos : 0 < trail.length)
    (h : ofTrailBytes b.toNat trail = some c) :
    isValidCodepoint c = true ∧ append c = b :: trail := by
  have hbyte : ∀ (v : Byte) n, v.toNat = n → BitVec.ofNat 8 n = v := by
    intro v n hv
    rw [← hv, BitVec.ofNat_toNat, BitVec.setWidth_eq]
  have hb := b.isLt
  match trail, hcount, hpos, h with
  | [t], hcount, _, h =>
    rw [ofTrailBytes_one] at h
    have hlead : b.toNat < 0xE0 := by
      rw [countTrailBytes] at hcount
      simp only [List.length_cons, List.length_nil] at hcount
      split_ifs at hcount <;> omega
    refine ⟨(isValidCodepoint_iff c).mpr (by omega), ?_⟩
    rw [append_two (by omega) (by omega), hbyte b _ (by omega), hbyte t _ (by omega)]
  | [t, u], hcount, _, h =>
    rw [ofTrailBytes_two] at h
    have hlead : 0xE0 ≤ b.toNat ∧ b.toNat < 0xF0 := by
      rw [countTrailBytes] at hcount
      simp only [List.length_cons, List.length_nil] at hcount
      split_ifs at hcount <;> omega
    refine ⟨(isValidCodepoint_iff c).mpr (by omega), ?_⟩
    rw [append_three (by omega) (by omega), hbyte b _ (by omega), hbyte t _ (by omega),
      hbyte u _ (by omega)]
  | [t, u, v], hcount, _, h =>
    rw [ofTrailBytes_three] at h
    have hlead : 0xF0 ≤ b.toNat ∧ b.toNat < 0xF8 := by
      rw [countTrailBytes] at hcount
      simp only [List.length_cons, List.length_nil] at hcount
      split_ifs at hcount <;> omega
    refine ⟨(isValidCodepoint_iff c).mpr (by omega), ?_⟩
    rw [append_four (by omega) (by omega), hbyte b _ (by omega), hbyte t _ (by omega),
      hbyte u _ (by omega), hbyte v _ (by omega)]
  | _ :: _ :: _ :: _ :: _, _, _, h =>
    rw [ofTrailBytes_long _ (by simp)] at h
    cases h

/-- A code point that is read was there as its encoding. -/
lemma next_eq_some {b : Byte} {rest : List Byte} {c n : ℕ} (h : next b rest = (some c, n)) :
    isValidCodepoint c = true ∧ ∃ trail more, rest = trail ++ more ∧ trail.length = n ∧
      append c = b :: trail := by
  rw [next] at h
  split_ifs at h with hone hlead
  · obtain ⟨rfl, rfl⟩ : b.toNat = c ∧ 0 = n := by simpa using h
    refine ⟨(isValidCodepoint_iff _).mpr (by omega), [], rest, rfl, rfl, ?_⟩
    rw [append_one hone, BitVec.ofNat_toNat, BitVec.setWidth_eq]
  · have hbounds : 0xC0 ≤ b.toNat ∧ b.toNat < 0xFE := by simpa [isLead] using hlead
    rw [nextCharSafeBody] at h
    split_ifs at h with hcount
    · cases htrail : ofTrailBytes b.toNat (rest.take (countTrailBytes b.toNat)) with
      | none => simp [htrail] at h
      | some c' =>
        obtain ⟨rfl, rfl⟩ : c' = c ∧ countTrailBytes b.toNat = n := by simpa [htrail] using h
        have hlength : (rest.take (countTrailBytes b.toNat)).length = countTrailBytes b.toNat := by
          rw [List.length_take, Nat.min_eq_left hcount]
        have hpos : 0 < countTrailBytes b.toNat := by
          rw [countTrailBytes]
          split_ifs <;> omega
        obtain ⟨hvalid, happend⟩ := append_of_ofTrailBytes hbounds.1 hlength.symm
          (by rwa [hlength]) htrail
        exact ⟨hvalid, _, _, (List.take_append_drop _ _).symm, hlength, happend⟩
    · simp at h
  · simp at h

/-! ### UTF-16 -/

/-- `CBU16_APPEND_UNSAFE` -/
def append16 (c : ℕ) : List ℕ :=
  if c ≤ 0xffff then [c] else [(c >>> 10) + 0xd7c0, (c &&& 0x3ff) ||| 0xdc00]

/-- The loop of `ConvertUnicode` from UTF-8 to UTF-16, which goes on behind what is illegal. -/
def convertUnicode : ℕ → List Byte → List ℕ
  | 0, _ => []
  | _ + 1, [] => []
  | fuel + 1, b :: rest =>
    let result := next b rest
    let unit := match result.1 with
      | some c => if isValidCodepoint c then append16 c else append16 0xFFFD
      | none => append16 0xFFFD
    unit ++ convertUnicode fuel (rest.drop result.2)

/-- `UTF8ToUTF16` -/
def utf8ToUtf16 (src : List Byte) : List ℕ := convertUnicode src.length src

lemma append16_low {c : ℕ} (h : c < 0x10000) : append16 c = [c] := by
  rw [append16, if_pos (by omega)]

/-- A pair of surrogates is put together again. -/
lemma append16_high {c : ℕ} (hlow : 0x10000 ≤ c) (hhigh : c < 0x110000) :
    ∃ lead trail, append16 c = [lead, trail] ∧ (0xD800 ≤ lead ∧ lead < 0xDC00) ∧
      (0xDC00 ≤ trail ∧ trail < 0xE000) ∧ getSupplementary lead trail = c := by
  have hor : c % 1024 ||| 0xdc00 = 0xDC00 + c % 1024 := or_high (k := 10) (a := 55) (by omega)
  have hand : c &&& 0x3ff = c % 1024 := Nat.and_two_pow_sub_one_eq_mod c 10
  have hpair : append16 c = [c / 1024 + 0xd7c0, 0xDC00 + c % 1024] := by
    rw [append16, if_neg (by omega), hand, hor, Nat.shiftRight_eq_div_pow]
  refine ⟨_, _, hpair, by omega, by omega, ?_⟩
  rw [getSupplementary_eq (by omega) (by omega)]
  omega

lemma length_append_pos (c : ℕ) : 0 < (append c).length := by
  rw [append]
  split_ifs <;> simp

lemma convertUnicode_append {cs : List ℕ} (h : ∀ c ∈ cs, isValidCodepoint c = true) :
    ∀ fuel, (cs.flatMap append).length ≤ fuel →
      convertUnicode fuel (cs.flatMap append) = cs.flatMap append16 := by
  induction cs with
  | nil =>
    intro fuel _
    cases fuel <;> rfl
  | cons c cs ih =>
    intro fuel hfuel
    obtain ⟨b, trail, happend, hnext⟩ := next_append (h c (by simp))
    simp only [List.flatMap_cons, happend, List.cons_append, List.length_cons,
      List.length_append] at hfuel ⊢
    match fuel, hfuel with
    | fuel + 1, hfuel =>
      have hrest := ih (fun c' hc' => h c' (by simp [hc'])) fuel (by omega)
      simp only [convertUnicode, hnext, h c (by simp), if_true, List.drop_left, hrest]

/-- UTF-8 text becomes UTF-16 code point by code point. -/
lemma utf8ToUtf16_append {cs : List ℕ} (h : ∀ c ∈ cs, isValidCodepoint c = true) :
    utf8ToUtf16 (cs.flatMap append) = cs.flatMap append16 :=
  convertUnicode_append h _ le_rfl

end Chromium.IcuUtf
