import Chromium.WireFormat
import Mathlib.Data.Nat.Digits.Defs

/-!
# Numbers in strings

`base/strings/string_number_conversions.cc`: `IteratorRangeToNumber` for an `int`, in base 10
as `StringToInt` and in base 16 as `HexStringToInt`, and what `StringAppendF` writes for `%d`
and `%04X`.
-/
namespace Chromium.StringNumber

open WireFormat

/-- A string of bytes. -/
abbrev Text := List Byte

def char (c : Char) : Byte := BitVec.ofNat 8 c.toNat

def ascii (s : String) : Text := s.toList.map char

def kint32max : ℤ := 2 ^ 31 - 1
def kint32min : ℤ := -2 ^ 31

/-- `isspace` in the C locale. -/
def localIsWhitespace (c : Byte) : Bool := c.toNat = 32 ∨ (9 ≤ c.toNat ∧ c.toNat ≤ 13)

def charToDigit (base : ℕ) (c : Byte) : Option ℕ :=
  if base ≤ 10 then
    if 48 ≤ c.toNat ∧ c.toNat < 48 + base then some (c.toNat - 48) else none
  else if 48 ≤ c.toNat ∧ c.toNat ≤ 57 then some (c.toNat - 48)
  else if 97 ≤ c.toNat ∧ c.toNat < 97 + base - 10 then some (c.toNat - 97 + 10)
  else if 65 ≤ c.toNat ∧ c.toNat < 65 + base - 10 then some (c.toNat - 65 + 10)
  else none

inductive Sign
  | positive
  | negative
  deriving DecidableEq

namespace Sign

/-- Division is that of C. -/
def checkBounds (base : ℕ) (output : ℤ) (digit : ℕ) : Sign → Bool
  | positive => ¬ (output > kint32max.tdiv base ∨
      (output = kint32max.tdiv base ∧ (digit : ℤ) > kint32max.tmod base))
  | negative => ¬ (output < kint32min.tdiv base ∨
      (output = kint32min.tdiv base ∧ (digit : ℤ) > 0 - kint32min.tmod base))

def increment (digit : ℕ) (output : ℤ) : Sign → ℤ
  | positive => output + digit
  | negative => output - digit

/-- The loop over the digits. The first one is not checked. -/
def accumulate (base : ℕ) (sign : Sign) : Bool → ℤ → Text → Option ℤ
  | _, output, [] => some output
  | first, output, c :: s =>
    match charToDigit base c with
    | none => none
    | some digit =>
      if first then accumulate base sign false (sign.increment digit output) s
      else if sign.checkBounds base output digit then
        accumulate base sign false (sign.increment digit (output * base)) s
      else none

/-- `Base::Invoke`. In base 16 an `0x` is left out when something follows it. -/
def invoke (base : ℕ) (sign : Sign) (s : Text) : Option ℤ :=
  if s = [] then none
  else
    let marked := base = 16 ∧ s.length > 2 ∧ s.head? = some (char '0') ∧
      (s.tail.head? = some (char 'x') ∨ s.tail.head? = some (char 'X'))
    accumulate base sign true 0 (if marked then s.drop 2 else s)

end Sign

/-- `IteratorRangeToNumber::Invoke`, where white space in front makes the string invalid. -/
def toNumber (base : ℕ) : Text → Option ℤ
  | [] => Sign.positive.invoke base []
  | c :: s =>
    if localIsWhitespace c then none
    else if c = char '-' then Sign.negative.invoke base s
    else if c = char '+' then Sign.positive.invoke base s
    else Sign.positive.invoke base (c :: s)

def stringToInt (s : Text) : Option ℤ := toNumber 10 s

def hexStringToInt (s : Text) : Option ℤ := toNumber 16 s

/-- The decimal digits of a number. -/
def decimal (n : ℕ) : Text :=
  if n = 0 then [char '0'] else (Nat.digits 10 n).reverse.map fun d => BitVec.ofNat 8 (48 + d)

/-- `%d` -/
def formatInt (n : ℤ) : Text := if n < 0 then char '-' :: decimal n.natAbs else decimal n.natAbs

def upperHexDigit (d : ℕ) : Byte := BitVec.ofNat 8 (if d < 10 then 48 + d else 55 + d)

/-- `%04X` of a number of 16 bits. -/
def formatHex4 (n : ℕ) : Text :=
  [upperHexDigit (n / 4096 % 16), upperHexDigit (n / 256 % 16), upperHexDigit (n / 16 % 16),
    upperHexDigit (n % 16)]

/-! ### The number that digits stand for -/

/-- The number of digits put behind `output`. -/
def behind (base : ℕ) (output : ℕ) (digits : List ℕ) : ℕ :=
  digits.foldl (fun n d => n * base + d) output

lemma le_behind {base : ℕ} (hbase : 0 < base) (output : ℕ) (digits : List ℕ) :
    output ≤ behind base output digits := by
  induction digits generalizing output with
  | nil => exact le_rfl
  | cons d digits ih =>
    have hmul : output ≤ output * base := Nat.le_mul_of_pos_right _ hbase
    calc output ≤ output * base + d := by omega
      _ ≤ behind base output (d :: digits) := ih _

/-- Quotients are compared first, then remainders. -/
lemma mul_add_le_iff {base q r n d : ℕ} (hr : r < base) (hd : d < base) :
    n * base + d ≤ q * base + r ↔ n < q ∨ (n = q ∧ d ≤ r) := by
  rcases Nat.lt_trichotomy n q with hlt | rfl | hgt
  · have hmul : (n + 1) * base ≤ q * base := Nat.mul_le_mul_right base hlt
    rw [Nat.add_mul] at hmul
    omega
  · omega
  · have hmul : (q + 1) * base ≤ n * base := Nat.mul_le_mul_right base hgt
    rw [Nat.add_mul] at hmul
    omega

/-- The largest absolute value of an `int` with this sign. -/
def Sign.limit : Sign → ℕ
  | positive => 2 ^ 31 - 1
  | negative => 2 ^ 31

/-- The `int` with this sign and absolute value. -/
def Sign.apply (n : ℕ) : Sign → ℤ
  | positive => n
  | negative => -n

lemma Sign.checkBounds_iff {base : ℕ} {n d : ℕ} (hd : d < base) (sign : Sign) :
    sign.checkBounds base (sign.apply n) d = true ↔ n * base + d ≤ sign.limit := by
  have hsplit : sign.limit = sign.limit / base * base + sign.limit % base :=
    (Nat.div_add_mod' _ _).symm
  have hr : sign.limit % base < base := Nat.mod_lt _ (by omega)
  rw [hsplit, mul_add_le_iff hr hd]
  cases sign with
  | positive =>
    have hdiv : kint32max.tdiv base = ((limit positive / base : ℕ) : ℤ) := rfl
    have hmod : kint32max.tmod base = ((limit positive % base : ℕ) : ℤ) := rfl
    simp only [checkBounds, apply, hdiv, hmod, decide_eq_true_iff]
    omega
  | negative =>
    have hmin : kint32min = -((limit negative : ℕ) : ℤ) := rfl
    have hdiv : kint32min.tdiv base = -((limit negative / base : ℕ) : ℤ) := by
      rw [hmin, Int.neg_tdiv, Int.ofNat_tdiv]
    have hmod : kint32min.tmod base = -((limit negative % base : ℕ) : ℤ) := by
      rw [hmin, Int.neg_tmod, Int.ofNat_tmod]
    simp only [checkBounds, apply, hdiv, hmod, decide_eq_true_iff]
    omega

lemma Sign.increment_apply (n d : ℕ) (sign : Sign) :
    sign.increment d (sign.apply n) = sign.apply (n + d) := by
  cases sign with
  | positive => simp [increment, apply]
  | negative =>
    simp only [increment, apply]
    omega

lemma Sign.apply_mul (n base : ℕ) (sign : Sign) :
    sign.apply n * base = sign.apply (n * base) := by
  cases sign <;> simp [apply]

lemma charToDigit_lt {base : ℕ} {c : Byte} {d : ℕ} (h : charToDigit base c = some d) :
    d < base := by
  rw [charToDigit] at h
  split_ifs at h <;> (simp only [Option.some.injEq] at h; omega)

/-- The digits behind the first one are taken as long as the number is an `int`. -/
lemma Sign.accumulate_behind {base : ℕ} (sign : Sign) (s : Text) {n : ℕ}
    (hn : n ≤ sign.limit) :
    sign.accumulate base false (sign.apply n) s =
      (s.mapM (charToDigit base)).bind fun digits =>
        if behind base n digits ≤ sign.limit then some (sign.apply (behind base n digits))
        else none := by
  induction s generalizing n with
  | nil => simp [accumulate, behind, hn]
  | cons c s ih =>
    cases hc : charToDigit base c with
    | none => simp [accumulate, hc, List.mapM_cons]
    | some d =>
      have hd := charToDigit_lt hc
      have hbase : 0 < base := by omega
      rw [accumulate, hc]
      simp only [Bool.false_eq_true, if_false, List.mapM_cons, hc, Option.bind_eq_bind,
        Option.bind_some]
      by_cases hbounds : n * base + d ≤ sign.limit
      · rw [if_pos ((checkBounds_iff hd sign).mpr hbounds), apply_mul, increment_apply, ih hbounds]
        cases s.mapM (charToDigit base) <;> rfl
      · rw [if_neg (mt (checkBounds_iff hd sign).mp hbounds)]
        cases s.mapM (charToDigit base) with
        | none => rfl
        | some digits =>
          have hle : n * base + d ≤ behind base n (d :: digits) := le_behind hbase _ digits
          simp only [Option.bind_some, Option.pure_def]
          rw [if_neg (by omega)]

lemma Sign.accumulate_first {base : ℕ} (hbase : base < 2 ^ 31) (sign : Sign) (s : Text) :
    sign.accumulate base true 0 s =
      (s.mapM (charToDigit base)).bind fun digits =>
        if behind base 0 digits ≤ sign.limit then some (sign.apply (behind base 0 digits))
        else none := by
  cases s with
  | nil => cases sign <;> simp [accumulate, behind, apply]
  | cons c s =>
    cases hc : charToDigit base c with
    | none => simp [accumulate, hc, List.mapM_cons]
    | some d =>
      have hd := charToDigit_lt hc
      have hlimit : d ≤ sign.limit := by cases sign <;> simp only [limit] <;> omega
      have hzero : sign.increment d 0 = sign.apply d := by
        cases sign <;> simp [increment, apply]
      rw [accumulate, hc]
      simp only [if_true, List.mapM_cons, hc, Option.bind_eq_bind, Option.bind_some, hzero]
      rw [accumulate_behind sign s hlimit]
      cases s.mapM (charToDigit base) with
      | none => rfl
      | some digits =>
        simp only [Option.bind_some, Option.pure_def, behind, List.foldl_cons, Nat.zero_mul,
          Nat.zero_add]
        rfl

/-! ### Decimal numbers -/

/-- The negated bits of a negative number are its absolute value, also for the smallest one. -/
lemma toNat_neg_of_neg {w : ℕ} {i : BitVec w} (h : i.toInt < 0) : (-i).toNat = i.toInt.natAbs := by
  have hlt := i.isLt
  rw [BitVec.toInt_eq_toNat_cond] at h ⊢
  rw [BitVec.toNat_neg]
  split_ifs at h ⊢
  · omega
  · rw [Nat.mod_eq_of_lt (by omega)]
    omega

lemma charToDigit_ten {d : ℕ} (h : d < 10) :
    charToDigit 10 (BitVec.ofNat 8 (48 + d)) = some d := by
  have hbyte : (BitVec.ofNat 8 (48 + d)).toNat = 48 + d := by
    rw [BitVec.toNat_ofNat]
    omega
  rw [charToDigit, hbyte, if_pos le_rfl, if_pos (by omega), Nat.add_sub_cancel_left]

lemma mapM_digits {ds : List ℕ} (h : ∀ d ∈ ds, d < 10) :
    (ds.map fun d => BitVec.ofNat 8 (48 + d)).mapM (charToDigit 10) = some ds := by
  induction ds with
  | nil => rfl
  | cons d ds ih =>
    rw [List.map_cons, List.mapM_cons, charToDigit_ten (h d (by simp)),
      ih fun d' hd' => h d' (by simp [hd'])]
    rfl

/-- The digits of a number, the highest first. -/
def decimalDigits (n : ℕ) : List ℕ := if n = 0 then [0] else (Nat.digits 10 n).reverse

lemma decimal_eq (n : ℕ) : decimal n = (decimalDigits n).map fun d => BitVec.ofNat 8 (48 + d) := by
  rw [decimal, decimalDigits]
  split_ifs <;> rfl

lemma decimalDigits_lt {n d : ℕ} (h : d ∈ decimalDigits n) : d < 10 := by
  rw [decimalDigits] at h
  split_ifs at h with hn
  · simp only [List.mem_singleton] at h
    omega
  · exact Nat.digits_lt_base (by decide) (List.mem_reverse.mp h)

lemma behind_decimalDigits (n : ℕ) : behind 10 0 (decimalDigits n) = n := by
  rw [decimalDigits]
  split_ifs with hn
  · simp [behind, hn]
  · calc behind 10 0 (Nat.digits 10 n).reverse
        = (Nat.digits 10 n).foldr (fun d n => n * 10 + d) 0 := by rw [behind, List.foldl_reverse]
      _ = Nat.ofDigits 10 (Nat.digits 10 n) := by
        rw [Nat.ofDigits_eq_foldr]
        congr 1
        funext d n
        simp only [Nat.cast_id]
        ring
      _ = n := Nat.ofDigits_digits 10 n

/-- No zero stands in front of other digits. -/
lemma decimalDigits_head (n : ℕ) :
    ∃ d ds, decimalDigits n = d :: ds ∧ (d = 0 → ds = []) := by
  rw [decimalDigits]
  split_ifs with hn
  · exact ⟨0, [], rfl, fun _ => rfl⟩
  · have hne : Nat.digits 10 n ≠ [] := Nat.digits_ne_nil_iff_ne_zero.mpr hn
    have hlast := Nat.getLast_digit_ne_zero 10 hn
    refine ⟨_, _, (List.cons_head_tail (List.reverse_ne_nil_iff.mpr hne)).symm, ?_⟩
    intro hzero
    rw [List.head_reverse] at hzero
    exact absurd hzero hlast

lemma invoke_decimal {n : ℕ} {sign : Sign} (h : n ≤ sign.limit) :
    sign.invoke 10 (decimal n) = some (sign.apply n) := by
  have hne : decimal n ≠ [] := by
    obtain ⟨d, ds, hds, -⟩ := decimalDigits_head n
    simp [decimal_eq, hds]
  rw [Sign.invoke, if_neg hne]
  simp only [Nat.reduceEqDiff, false_and, if_false]
  rw [Sign.accumulate_first (by norm_num), decimal_eq, mapM_digits fun d => decimalDigits_lt]
  simp [behind_decimalDigits, h]

/-- What `%d` writes is read again. -/
lemma stringToInt_formatInt {n : ℤ} (hlow : kint32min ≤ n) (hhigh : n ≤ kint32max) :
    stringToInt (formatInt n) = some n := by
  rw [stringToInt, formatInt]
  split_ifs with hneg
  · have hlimit : n.natAbs ≤ Sign.negative.limit := by
      simp only [Sign.limit, kint32min] at *
      omega
    have happly : Sign.negative.apply n.natAbs = n := by
      simp only [Sign.apply]
      omega
    rw [toNumber, if_neg (by decide), if_pos rfl, invoke_decimal hlimit, happly]
  · have hlimit : n.natAbs ≤ Sign.positive.limit := by
      simp only [Sign.limit, kint32max] at *
      omega
    have happly : Sign.positive.apply n.natAbs = n := by
      simp only [Sign.apply]
      omega
    obtain ⟨d, ds, hds, -⟩ := decimalDigits_head n.natAbs
    have hd : d < 10 := decimalDigits_lt (n := n.natAbs) (by simp [hds])
    have hfirst : (BitVec.ofNat 8 (48 + d)).toNat = 48 + d := by
      rw [BitVec.toNat_ofNat]
      omega
    have hdecimal := invoke_decimal hlimit
    rw [decimal_eq, hds, List.map_cons] at hdecimal ⊢
    have hspace : localIsWhitespace (BitVec.ofNat 8 (48 + d)) = false := by
      rw [localIsWhitespace, hfirst, decide_eq_false_iff_not]
      omega
    have hminus : BitVec.ofNat 8 (48 + d) ≠ char '-' := by
      intro heq
      have hval := congrArg BitVec.toNat heq
      rw [hfirst, show (char '-').toNat = 45 from rfl] at hval
      omega
    have hplus : BitVec.ofNat 8 (48 + d) ≠ char '+' := by
      intro heq
      have hval := congrArg BitVec.toNat heq
      rw [hfirst, show (char '+').toNat = 43 from rfl] at hval
      omega
    rw [toNumber, hspace, if_neg Bool.false_ne_true, if_neg hminus, if_neg hplus, hdecimal, happly]

/-! ### Hexadecimal numbers -/

lemma charToDigit_upperHexDigit {d : ℕ} (h : d < 16) :
    charToDigit 16 (upperHexDigit d) = some d := by
  revert d
  decide

/-- Digits alone are neither white space nor a sign, and have no mark in front. -/
lemma toNumber_hexDigits {s : Text} (hne : s ≠ [])
    (h : ∀ c ∈ s, (charToDigit 16 c).isSome = true) :
    toNumber 16 s = Sign.positive.accumulate 16 true 0 s := by
  have hnot : ∀ c : Byte, (charToDigit 16 c).isSome = true →
      localIsWhitespace c = false ∧ c ≠ char '-' ∧ c ≠ char '+' ∧ c ≠ char 'x' ∧ c ≠ char 'X' := by
    decide
  match s, hne with
  | c :: s, _ =>
    obtain ⟨hspace, hminus, hplus, -, -⟩ := hnot c (h c (by simp))
    have hmark : ¬ (s.head? = some (char 'x') ∨ s.head? = some (char 'X')) := by
      intro hx
      match s, hx with
      | x :: s, hx =>
        obtain ⟨-, -, -, hlower, hupper⟩ := hnot x (h x (by simp))
        rcases hx with hx | hx
        · exact hlower (Option.some_injective _ hx)
        · exact hupper (Option.some_injective _ hx)
    rw [toNumber, hspace, if_neg Bool.false_ne_true, if_neg hminus, if_neg hplus, Sign.invoke,
      if_neg (List.cons_ne_nil c s)]
    simp only [List.tail_cons, hmark, and_false, if_false]

/-- What `%04X` writes is read again. -/
lemma hexStringToInt_formatHex4 {n : ℕ} (h : n < 65536) :
    hexStringToInt (formatHex4 n) = some (n : ℤ) := by
  have hdigit : ∀ k, charToDigit 16 (upperHexDigit (k % 16)) = some (k % 16) := fun k =>
    charToDigit_upperHexDigit (Nat.mod_lt _ (by decide))
  have hall : ∀ c ∈ formatHex4 n, (charToDigit 16 c).isSome = true := by
    simp [formatHex4, hdigit]
  have hvalue : behind 16 0 [n / 4096 % 16, n / 256 % 16, n / 16 % 16, n % 16] = n := by
    simp only [behind, List.foldl_cons, List.foldl_nil]
    omega
  rw [hexStringToInt, toNumber_hexDigits (by simp [formatHex4]) hall,
    Sign.accumulate_first (by norm_num)]
  simp only [formatHex4, List.mapM_cons, List.mapM_nil, hdigit, Option.bind_eq_bind,
    Option.bind_some, Option.pure_def, hvalue, Sign.limit, Sign.apply]
  rw [if_pos (by omega)]

end Chromium.StringNumber
