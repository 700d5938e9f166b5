import Chromium.StringNumber

/-!
# Number conversions of every type

`base/strings/string_number_conversions.cc`: `IteratorRangeToNumber` for the integer types and
the bases it is used with, with what it leaves in `*output`, and `IntToStringT`.
-/
namespace Chromium.NumberConversion

open WireFormat StringNumber

/-- A value type and the base. -/
structure Traits where
  signed : Bool
  bits : ℕ
  base : ℕ

namespace Traits
variable (t : Traits)

def min : ℤ := if t.signed then -2 ^ (t.bits - 1) else 0
def max : ℤ := if t.signed then 2 ^ (t.bits - 1) - 1 else 2 ^ t.bits - 1

/-- What a variable of the type keeps of a number. -/
def wrap (n : ℤ) : ℤ := if t.signed then n.bmod (2 ^ t.bits) else n % 2 ^ t.bits

/-- The next digit does not lead out of the type. Division is that of C. -/
def checkBounds (output : ℤ) (new_digit : ℕ) : Sign → Bool
  | .positive => ¬ (output > t.max.tdiv t.base ∨
      (output = t.max.tdiv t.base ∧ (new_digit : ℤ) > t.max.tmod t.base))
  | .negative => ¬ (output < t.min.tdiv t.base ∨
      (output = t.min.tdiv t.base ∧ (new_digit : ℤ) > 0 - t.min.tmod t.base))

/-- What `*output` becomes when it does. -/
def bound : Sign → ℤ
  | .positive => t.max
  | .negative => t.min

def increment (increment : ℕ) (output : ℤ) : Sign → ℤ
  | .positive => t.wrap (output + increment)
  | .negative => t.wrap (output - increment)

/-- The loop of `Base::Invoke`, with the result and `*output`. The first digit is not checked. -/
def accumulate (sign : Sign) : Bool → ℤ → Text → Bool × ℤ
  | _, output, [] => (true, output)
  | first, output, c :: s =>
    match charToDigit t.base c with
    | none => (false, output)
    | some new_digit =>
      if first then accumulate sign false (t.increment new_digit output sign) s
      else if t.checkBounds output new_digit sign then
        accumulate sign false (t.increment new_digit (t.wrap (output * t.base)) sign) s
      else (false, t.bound sign)

/-- The mark of a hexadecimal number is left out when something follows it. -/
def unmarked (s : Text) : Text :=
  if t.base = 16 ∧ s.length > 2 ∧ s.head? = some (char '0') ∧
      (s.tail.head? = some (char 'x') ∨ s.tail.head? = some (char 'X')) then s.drop 2
  else s

/-- `Base::Invoke` -/
def invokeBase (sign : Sign) (s : Text) : Bool × ℤ :=
  if s = [] then (false, 0) else t.accumulate sign true 0 (t.unmarked s)

/-- `IteratorRangeToNumber::Invoke`, with what `*output` held before. -/
def invoke (s : Text) (output : ℤ) : Bool × ℤ :=
  let rest := s.dropWhile localIsWhitespace
  let valid : Bool := rest = s
  if rest.head? = some (char '-') then
    if ¬ t.signed then (false, output)
    else
      let r := t.invokeBase .negative rest.tail
      (valid && r.1, r.2)
  else
    let r := t.invokeBase .positive
      (if rest.head? = some (char '+') then rest.tail else rest)
    (valid && r.1, r.2)

end Traits

/-- The conversions to integers. -/
inductive Conversion
  | stringToInt
  | stringToUint
  | stringToInt64
  | stringToUint64
  | hexStringToInt
  | hexStringToInt64
  deriving DecidableEq

namespace Conversion

def traits : Conversion → Traits
  | stringToInt => ⟨true, 32, 10⟩
  | stringToUint => ⟨false, 32, 10⟩
  | stringToInt64 => ⟨true, 64, 10⟩
  | stringToUint64 => ⟨false, 64, 10⟩
  | hexStringToInt => ⟨true, 32, 16⟩
  | hexStringToInt64 => ⟨true, 64, 16⟩

def run (f : Conversion) (s : Text) (output : ℤ) : Bool × ℤ := f.traits.invoke s output

end Conversion

/-! ### Printing -/

/-- Digits are written from the end of the buffer on, which has so much room; the result is what
room is left and the text. -/
def writeDigits : ℕ → ℕ → Text → Option (ℕ × Text)
  | 0, _, _ => none
  | room + 1, res, text =>
    let text := BitVec.ofNat 8 (48 + res % 10) :: text
    if res / 10 = 0 then some (room, text) else writeDigits room (res / 10) text

/-- `IntToStringT::IntToString` -/
def toText {bits : ℕ} (signed : Bool) (value : BitVec bits) : Option Text := do
  let kOutputBufSize := 3 * (bits / 8) + 1
  let is_neg : Bool := signed ∧ value.toInt < 0
  let res := if is_neg then (-value).toNat else value.toNat
  let (room, text) ← writeDigits kOutputBufSize res []
  if is_neg then if room = 0 then none else some (char '-' :: text) else some text

def intToString (value : BitVec 32) : Option Text := toText true value
def uintToString (value : BitVec 32) : Option Text := toText false value
def int64ToString (value : BitVec 64) : Option Text := toText true value
def uint64ToString (value : BitVec 64) : Option Text := toText false value

/-! ### The value of digits -/

/-- The digits that a text starts with, and the rest of it. -/
def leadingDigits (base : ℕ) : Text → List ℕ × Text
  | [] => ([], [])
  | c :: s =>
    match charToDigit base c with
    | none => ([], c :: s)
    | some d => (d :: (leadingDigits base s).1, (leadingDigits base s).2)

namespace Traits
variable {t : Traits}

/-- The traits that are used. -/
structure Valid (t : Traits) : Prop where
  bits : t.bits = 32 ∨ t.bits = 64
  base : t.base = 10 ∨ t.base = 16

/-- The largest absolute value with a sign. -/
def limit (t : Traits) : Sign → ℕ
  | .positive => if t.signed then 2 ^ (t.bits - 1) - 1 else 2 ^ t.bits - 1
  | .negative => if t.signed then 2 ^ (t.bits - 1) else 0

lemma bound_eq (sign : Sign) : t.bound sign = sign.apply (t.limit sign) := by
  cases sign <;> simp only [bound, min, max, limit, Sign.apply] <;> split_ifs <;> simp

lemma wrap_signed (hsigned : t.signed) (h : t.Valid) {n : ℤ} (hlow : -2 ^ (t.bits - 1) ≤ n)
    (hhigh : n < 2 ^ (t.bits - 1)) : t.wrap n = n := by
  rw [wrap, if_pos hsigned]
  rcases h.bits with hbits | hbits <;> rw [hbits] at hlow hhigh ⊢ <;>
    exact Int.bmod_eq_of_le (by norm_num at hlow ⊢; omega) (by norm_num at hhigh ⊢; omega)

lemma wrap_unsigned (hsigned : ¬ t.signed) {n : ℤ} (hlow : 0 ≤ n) (hhigh : n < 2 ^ t.bits) :
    t.wrap n = n := by
  rw [wrap, if_neg hsigned]
  exact Int.emod_eq_of_lt hlow hhigh

/-- A number of the type is kept. -/
lemma wrap_apply (h : t.Valid) {sign : Sign} {n : ℕ} (hn : n ≤ t.limit sign) :
    t.wrap (sign.apply n) = sign.apply n := by
  by_cases hsigned : t.signed
  · have hpow : 0 < 2 ^ (t.bits - 1) := Nat.two_pow_pos _
    have hcast : ((2 ^ (t.bits - 1) : ℕ) : ℤ) = 2 ^ (t.bits - 1) := by norm_cast
    cases sign with
    | positive =>
      rw [limit, if_pos hsigned] at hn
      exact wrap_signed hsigned h (by rw [Sign.apply]; omega) (by rw [Sign.apply]; omega)
    | negative =>
      rw [limit, if_pos hsigned] at hn
      exact wrap_signed hsigned h (by rw [Sign.apply]; omega) (by rw [Sign.apply]; omega)
  · have hpow : 0 < 2 ^ t.bits := Nat.two_pow_pos _
    have hcast : ((2 ^ t.bits : ℕ) : ℤ) = 2 ^ t.bits := by norm_cast
    cases sign with
    | positive =>
      rw [limit, if_neg hsigned] at hn
      exact wrap_unsigned hsigned (by rw [Sign.apply]; omega) (by rw [Sign.apply]; omega)
    | negative =>
      rw [limit, if_neg hsigned] at hn
      exact wrap_unsigned hsigned (by rw [Sign.apply]; omega) (by rw [Sign.apply]; omega)

lemma checkBounds_iff {n d : ℕ} (hd : d < t.base) (sign : Sign) :
    t.checkBounds (sign.apply n) d sign = true ↔ n * t.base + d ≤ t.limit sign := by
  have hsplit : t.limit sign = t.limit sign / t.base * t.base + t.limit sign % t.base :=
    (Nat.div_add_mod' _ _).symm
  have hr : t.limit sign % t.base < t.base := Nat.mod_lt _ (by omega)
  rw [hsplit, mul_add_le_iff hr hd]
  cases sign with
  | positive =>
    have hmax : t.max = (t.limit .positive : ℕ) := bound_eq .positive
    have hdiv : t.max.tdiv t.base = ((t.limit .positive / t.base : ℕ) : ℤ) := by
      rw [hmax, Int.ofNat_tdiv]
    have hmod : t.max.tmod t.base = ((t.limit .positive % t.base : ℕ) : ℤ) := by
      rw [hmax, Int.ofNat_tmod]
    simp only [checkBounds, Sign.apply, hdiv, hmod, decide_eq_true_iff]
    omega
  | negative =>
    have hmin : t.min = -((t.limit .negative : ℕ) : ℤ) := bound_eq .negative
    have hdiv : t.min.tdiv t.base = -((t.limit .negative / t.base : ℕ) : ℤ) := by
      rw [hmin, Int.neg_tdiv, Int.ofNat_tdiv]
    have hmod : t.min.tmod t.base = -((t.limit .negative % t.base : ℕ) : ℤ) := by
      rw [hmin, Int.neg_tmod, Int.ofNat_tmod]
    simp only [checkBounds, Sign.apply, hdiv, hmod, decide_eq_true_iff]
    omega

lemma increment_apply (h : t.Valid) {sign : Sign} {n d : ℕ} (hn : n + d ≤ t.limit sign) :
    t.increment d (sign.apply n) sign = sign.apply (n + d) := by
  rw [← wrap_apply h hn]
  cases sign with
  | positive => simp [increment, Sign.apply]
  | negative =>
    simp only [increment, Sign.apply]
    congr 1
    omega

/-- Once there is a digit, the loop gives the number of all digits or the bound. -/
lemma accumulate_eq (h : t.Valid) (sign : Sign) (s : Text) {n : ℕ} (hn : n ≤ t.limit sign) :
    t.accumulate sign false (sign.apply n) s =
      if behind t.base n (leadingDigits t.base s).1 ≤ t.limit sign then
        (decide ((leadingDigits t.base s).2 = []),
          sign.apply (behind t.base n (leadingDigits t.base s).1))
      else (false, t.bound sign) := by
  induction s generalizing n with
  | nil => simp [accumulate, leadingDigits, behind, hn]
  | cons c s ih =>
    rw [accumulate, leadingDigits]
    cases hc : charToDigit t.base c with
    | none => simp [behind, hn]
    | some d =>
      have hd := charToDigit_lt hc
      have hnext : behind t.base n (d :: (leadingDigits t.base s).1) =
          behind t.base (n * t.base + d) (leadingDigits t.base s).1 := rfl
      simp only [Bool.false_eq_true, if_false, hnext]
      by_cases hbounds : n * t.base + d ≤ t.limit sign
      · have hmul : n * t.base ≤ t.limit sign := by omega
        rw [if_pos ((checkBounds_iff hd sign).mpr hbounds), Sign.apply_mul, wrap_apply h hmul,
          increment_apply h hbounds, ih hbounds]
      · have hle := le_behind (show 0 < t.base by omega) (n * t.base + d)
          (leadingDigits t.base s).1
        rw [if_neg (mt (checkBounds_iff hd sign).mp hbounds), if_neg (by omega)]

lemma digit_le_limit (h : t.Valid) {sign : Sign} (hsign : sign = .negative → t.signed) {d : ℕ}
    (hd : d < t.base) : d ≤ t.limit sign := by
  have hbase : t.base ≤ 16 := by rcases h.base with hbase | hbase <;> omega
  have hpow : 2 ^ 31 ≤ 2 ^ (t.bits - 1) :=
    Nat.pow_le_pow_right (by decide) (by rcases h.bits with hbits | hbits <;> omega)
  have hpow' : 2 ^ 31 ≤ 2 ^ t.bits :=
    Nat.pow_le_pow_right (by decide) (by rcases h.bits with hbits | hbits <;> omega)
  cases sign with
  | positive => simp only [limit]; split_ifs <;> omega
  | negative =>
    rw [limit, if_pos (hsign rfl)]
    omega

/-- What stands behind a sign: digits, as many as there are. -/
lemma invokeBase_eq (h : t.Valid) {sign : Sign} (hsign : sign = .negative → t.signed) (s : Text) :
    t.invokeBase sign s =
      if behind t.base 0 (leadingDigits t.base (t.unmarked s)).1 ≤ t.limit sign then
        (decide ((leadingDigits t.base (t.unmarked s)).1 ≠ [] ∧
            (leadingDigits t.base (t.unmarked s)).2 = []),
          sign.apply (behind t.base 0 (leadingDigits t.base (t.unmarked s)).1))
      else (false, t.bound sign) := by
  have happly : sign.apply 0 = 0 := by cases sign <;> rfl
  cases hs : t.unmarked s with
  | nil =>
    have hnil : s = [] := by
      rw [unmarked] at hs
      split_ifs at hs with hmarked
      · have hlength := congrArg List.length hs
        rw [List.length_drop, List.length_nil] at hlength
        omega
      · exact hs
    simp [invokeBase, hnil, leadingDigits, behind, happly]
  | cons c rest =>
    have hne : s ≠ [] := by
      rintro rfl
      rw [unmarked, List.drop_nil, ite_self] at hs
      exact absurd hs.symm (List.cons_ne_nil _ _)
    rw [invokeBase, if_neg hne, hs, accumulate, leadingDigits]
    cases hc : charToDigit t.base c with
    | none => simp [behind, happly]
    | some d =>
      have hd := digit_le_limit h hsign (charToDigit_lt hc)
      have hfirst := increment_apply h (show 0 + d ≤ t.limit sign by omega)
      have hnext : behind t.base 0 (d :: (leadingDigits t.base rest).1) =
          behind t.base d (leadingDigits t.base rest).1 := by
        simp [behind]
      rw [happly, Nat.zero_add] at hfirst
      simp only [if_true, hfirst, accumulate_eq h sign rest hd, hnext]
      simp

end Traits

end Chromium.NumberConversion
