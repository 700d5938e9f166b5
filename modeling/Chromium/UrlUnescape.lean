import Mathlib.Data.List.Count
import Mathlib.Tactic

/-!
# Unescaping of URLs

One template for strings of bytes and strings of 16-bit code units. A unit is narrowed to a byte
before it is compared with the percent sign, so a wide unit can be taken for one.
-/
namespace Chromium.Escape

/-- `UnescapeRule::Type`. -/
abbrev Rules := BitVec 32

namespace UnescapeRule

def none : Rules := 0
def normal : Rules := 1
def spaces : Rules := 2
def urlSpecialChars : Rules := 4
def controlChars : Rules := 8
def replacePlusWithSpace : Rules := 16

end UnescapeRule

variable {w : ℕ}

/-- A character literal as a code unit. -/
def char (w : ℕ) (c : Char) : BitVec w := BitVec.ofNat w c.toNat

def isHexDigit (c : BitVec w) : Bool :=
  ('0'.toNat ≤ c.toNat ∧ c.toNat ≤ '9'.toNat) ∨ ('A'.toNat ≤ c.toNat ∧ c.toNat ≤ 'F'.toNat) ∨
    ('a'.toNat ≤ c.toNat ∧ c.toNat ≤ 'f'.toNat)

def hexDigitToInt (c : BitVec w) : ℕ :=
  if '0'.toNat ≤ c.toNat ∧ c.toNat ≤ '9'.toNat then c.toNat - '0'.toNat
  else if 'A'.toNat ≤ c.toNat ∧ c.toNat ≤ 'F'.toNat then c.toNat - 'A'.toNat + 10
  else if 'a'.toNat ≤ c.toNat ∧ c.toNat ≤ 'f'.toNat then c.toNat - 'a'.toNat + 10
  else 0

/-- Nonzero for a character that is unescapable for normal URLs. -/
def kUrlUnescape : List ℕ := [
  0, 0, 0, 0, 0, 0, 0, 0, 0, 0, 0, 0, 0, 0, 0, 0,
  0, 0, 0, 0, 0, 0, 0, 0, 0, 0, 0, 0, 0, 0, 0, 0,
  0, 0, 1, 0, 0, 0, 0, 0, 0, 0, 0, 0, 0, 1, 0, 0,
  1, 1, 1, 1, 1, 1, 1, 1, 1, 1, 0, 0, 1, 0, 1, 0,
  0, 1, 1, 1, 1, 1, 1, 1, 1, 1, 1, 1, 1, 1, 1, 1,
  1, 1, 1, 1, 1, 1, 1, 1, 1, 1, 1, 0, 0, 0, 0, 1,
  0, 1, 1, 1, 1, 1, 1, 1, 1, 1, 1, 1, 1, 1, 1, 1,
  1, 1, 1, 1, 1, 1, 1, 1, 1, 1, 1, 0, 0, 0, 1, 0]

/-- The byte that two hex digits stand for. -/
def escapedValue (mostSigDigit leastSigDigit : BitVec w) : BitVec 8 :=
  BitVec.ofNat 8 (hexDigitToInt mostSigDigit * 16 + hexDigitToInt leastSigDigit)

/-- The condition under which an escape is replaced by its value. -/
def shouldUnescape (rules : Rules) (value : BitVec 8) : Bool :=
  0x80 ≤ value.toNat ∨ kUrlUnescape.getD value.toNat 0 ≠ 0 ∨
    (value = char 8 ' ' ∧ rules &&& UnescapeRule.spaces ≠ 0) ∨
    (' '.toNat < value.toNat ∧ rules &&& UnescapeRule.urlSpecialChars ≠ 0) ∨
    (value.toNat < ' '.toNat ∧ rules &&& UnescapeRule.controlChars ≠ 0)

/-- The text that was made, and the locations of the escapes that were replaced in it. -/
structure Unescaping (w : ℕ) where
  result : List (BitVec w)
  adjustments : List ℕ
  deriving DecidableEq

namespace Unescaping

def push (c : BitVec w) (u : Unescaping w) : Unescaping w := { u with result := c :: u.result }

def adjust (i : ℕ) (u : Unescaping w) : Unescaping w :=
  { u with adjustments := i :: u.adjustments }

@[simp] lemma result_push (c : BitVec w) (u : Unescaping w) :
    (u.push c).result = c :: u.result := rfl

@[simp] lemma result_adjust (i : ℕ) (u : Unescaping w) : (u.adjust i).result = u.result := rfl

end Unescaping

/-- The loop from position `i` on. -/
def unescapeLoop (rules : Rules) (i : ℕ) : List (BitVec w) → Unescaping w
  | [] => ⟨[], []⟩
  | c :: rest =>
    if 128 ≤ (c.setWidth 8).toNat then (unescapeLoop rules (i + 1) rest).push c
    else
      match c.setWidth 8 == char 8 '%', rest with
      | true, mostSigDigit :: leastSigDigit :: rest' =>
        if isHexDigit mostSigDigit ∧ isHexDigit leastSigDigit then
          if shouldUnescape rules (escapedValue mostSigDigit leastSigDigit) then
            ((unescapeLoop rules (i + 3) rest').push
              ((escapedValue mostSigDigit leastSigDigit).setWidth w)).adjust i
          else
            -- the two digits come on the next rounds
            (unescapeLoop rules (i + 1) (mostSigDigit :: leastSigDigit :: rest')).push (char w '%')
        else (unescapeLoop rules (i + 1) (mostSigDigit :: leastSigDigit :: rest')).push (char w '%')
      | _, rest =>
        if rules &&& UnescapeRule.replacePlusWithSpace ≠ 0 ∧ c = char w '+' then
          (unescapeLoop rules (i + 1) rest).push (char w ' ')
        else (unescapeLoop rules (i + 1) rest).push c

/-! ### Offsets into the text -/

/-- `std::string::npos`. -/
def npos : ℕ := 2 ^ 64 - 1

def limitOffset (limit offset : ℕ) : ℕ := if limit < offset then npos else offset

/-- The loop of `AdjustEncodingOffset`. -/
def adjustOffset (offset adjusted : ℕ) : List ℕ → ℕ
  | [] => adjusted
  | location :: adjustments =>
    if offset ≤ location then adjusted
    else if offset ≤ location + 2 then npos
    else adjustOffset offset (adjusted - 2) adjustments

def adjustEncodingOffset (adjustments : List ℕ) (offset : ℕ) : ℕ :=
  if offset = npos then offset else adjustOffset offset offset adjustments

def unescapeURLWithOffsetsImpl (escapedText : List (BitVec w)) (rules : Rules)
    (offsetsForAdjustment : List ℕ) : List (BitVec w) × List ℕ :=
  let offsets := offsetsForAdjustment.map (limitOffset escapedText.length)
  if rules = UnescapeRule.none then (escapedText, offsets)
  else
    let unescaped := unescapeLoop rules 0 escapedText
    (unescaped.result, offsets.map (adjustEncodingOffset unescaped.adjustments))

def unescapeURLComponent (escapedText : List (BitVec w)) (rules : Rules) : List (BitVec w) :=
  (unescapeURLWithOffsetsImpl escapedText rules []).1

/-! ### What unescaping may touch -/

/-- `Unescaped rules s t`: a part of the escapes of `s` is replaced in `t`, and every other unit
stays as it is. A plus is a space under its rule. -/
inductive Unescaped (rules : Rules) : List (BitVec w) → List (BitVec w) → Prop
  | nil : Unescaped rules [] []
  | keep (c : BitVec w) {s t : List (BitVec w)} (h : Unescaped rules s t) :
      Unescaped rules (c :: s) (c :: t)
  | plus {s t : List (BitVec w)} (hrule : rules &&& UnescapeRule.replacePlusWithSpace ≠ 0)
      (h : Unescaped rules s t) : Unescaped rules (char w '+' :: s) (char w ' ' :: t)
  | escape {x y : BitVec w} {s t : List (BitVec w)} (hx : isHexDigit x) (hy : isHexDigit y)
      (h : Unescaped rules s t) :
      Unescaped rules (char w '%' :: x :: y :: s) ((escapedValue x y).setWidth w :: t)

/-- A unit with two more behind it that is narrowed to a percent sign is one. -/
def PercentsNarrow (s : List (BitVec w)) : Prop :=
  ∀ i c, s[i]? = some c → i + 2 < s.length → c.setWidth 8 = char 8 '%' → c = char w '%'

section Units
variable {c x y : BitVec w}

lemma toNat_char_lt {n : Char} (h : n.toNat < 256) : (char w n).toNat < 256 := by
  rw [char, BitVec.toNat_ofNat]
  exact lt_of_le_of_lt (Nat.mod_le _ _) h

lemma toNat_value_lt (value : BitVec 8) : (value.setWidth w).toNat < 256 := by
  rw [BitVec.toNat_setWidth]
  exact lt_of_le_of_lt (Nat.mod_le _ _) value.isLt

lemma toNat_lt_of_isHexDigit (h : isHexDigit c = true) : c.toNat < 128 := by
  simp only [isHexDigit, decide_eq_true_eq] at h
  have h9 : '9'.toNat = 57 := rfl
  have hF : 'F'.toNat = 70 := rfl
  have hf : 'f'.toNat = 102 := rfl
  omega

/-- Only a unit of more than eight bits is narrowed to a percent sign that it is not. -/
lemma wide_of_narrow (h : c.setWidth 8 = char 8 '%') (hne : c ≠ char w '%') : 256 ≤ c.toNat := by
  by_contra hlt
  have hmod : c.toNat % 256 = 37 := by
    have := congrArg BitVec.toNat h
    rwa [BitVec.toNat_setWidth] at this
  have hc : c.toNat = 37 := by omega
  apply hne
  apply BitVec.eq_of_toNat_eq
  have hw := c.isLt
  rw [hc] at hw
  rw [char, BitVec.toNat_ofNat, hc]
  exact (Nat.mod_eq_of_lt hw).symm

lemma ne_of_wide (hwide : 256 ≤ c.toNat) (hx : x.toNat < 256) : x ≠ c := by
  rintro rfl
  omega

end Units

lemma unescapeLoop_other {c : BitVec w} {rest : List (BitVec w)} (rules : Rules) (i : ℕ)
    (hlow : ¬ 128 ≤ (c.setWidth 8).toNat) (hshort : c.setWidth 8 = char 8 '%' → rest.length < 2) :
    unescapeLoop rules i (c :: rest) =
      if rules &&& UnescapeRule.replacePlusWithSpace ≠ 0 ∧ c = char w '+' then
        (unescapeLoop rules (i + 1) rest).push (char w ' ')
      else (unescapeLoop rules (i + 1) rest).push c := by
  rw [unescapeLoop.eq_def]
  dsimp only
  rw [if_neg hlow]
  by_cases hc : c.setWidth 8 = char 8 '%'
  · match rest, hshort hc with
    | [], _ => cases c.setWidth 8 == char 8 '%' <;> rfl
    | [x], _ => cases c.setWidth 8 == char 8 '%' <;> rfl
  · rw [beq_eq_false_iff_ne.mpr hc]

section Loop
variable {rules : Rules} {i : ℕ} {s t : List (BitVec w)} {c : BitVec w}

lemma PercentsNarrow.drop (h : PercentsNarrow s) (n : ℕ) : PercentsNarrow (s.drop n) := by
  intro j d hd hj
  rw [List.getElem?_drop] at hd
  rw [List.length_drop] at hj
  exact h (n + j) d hd (by omega)

lemma PercentsNarrow.head {x y : BitVec w} (h : PercentsNarrow (c :: x :: y :: s))
    (hc : (c.setWidth 8 == char 8 '%') = true) : c = char w '%' :=
  h 0 c rfl (by simp) (eq_of_beq hc)

lemma PercentsNarrow.unescaped (h : PercentsNarrow s) :
    Unescaped rules s (unescapeLoop rules i s).result := by
  fun_induction unescapeLoop rules i s with
  | case1 i => exact .nil
  | case2 i c rest hhigh ih => exact .keep c (ih (h.drop 1))
  | case3 i c hlow x y rest hc hhex hshould ih =>
    rw [h.head hc]
    exact .escape hhex.1 hhex.2 (ih (h.drop 3))
  | case4 i c hlow x y rest hc hhex hshould ih =>
    rw [h.head hc]
    exact .keep _ (ih (h.drop 1))
  | case5 i c hlow x y rest hc hhex ih =>
    rw [h.head hc]
    exact .keep _ (ih (h.drop 1))
  | case6 i c hlow rest hplus hshape ih =>
    rw [hplus.2]
    exact .plus hplus.1 (ih (h.drop 1))
  | case7 i c hlow rest hplus hshape ih => exact .keep c (ih (h.drop 1))

lemma Unescaped.refl (rules : Rules) (s : List (BitVec w)) : Unescaped rules s s := by
  induction s with
  | nil => exact .nil
  | cons c s ih => exact .keep c ih

/-- A wide unit is no part of an escape and no plus. -/
lemma Unescaped.count_le (h : Unescaped rules s t) (hwide : 256 ≤ c.toNat) :
    s.count c ≤ t.count c := by
  induction h with
  | nil => exact le_rfl
  | keep d h ih =>
    rw [List.count_cons, List.count_cons]
    omega
  | plus hrule h ih =>
    rw [List.count_cons_of_ne (ne_of_wide hwide (toNat_char_lt (by decide)))]
    exact le_trans ih (List.count_le_count_cons)
  | escape hx hy h ih =>
    rw [List.count_cons_of_ne (ne_of_wide hwide (toNat_char_lt (by decide))),
      List.count_cons_of_ne (ne_of_wide hwide (by have := toNat_lt_of_isHexDigit hx; omega)),
      List.count_cons_of_ne (ne_of_wide hwide (by have := toNat_lt_of_isHexDigit hy; omega))]
    exact le_trans ih (List.count_le_count_cons)

lemma count_unescapeLoop_le (rules : Rules) (i : ℕ) (s : List (BitVec w))
    (hwide : 256 ≤ c.toNat) : (unescapeLoop rules i s).result.count c ≤ s.count c := by
  have hpercent : char w '%' ≠ c := ne_of_wide hwide (toNat_char_lt (by decide))
  have hspace : char w ' ' ≠ c := ne_of_wide hwide (toNat_char_lt (by decide))
  fun_induction unescapeLoop rules i s with
  | case1 i => exact le_rfl
  | case2 i d rest hhigh ih =>
    rw [Unescaping.result_push, List.count_cons, List.count_cons]
    omega
  | case3 i d hlow x y rest hc hhex hshould ih =>
    rw [Unescaping.result_adjust, Unescaping.result_push,
      List.count_cons_of_ne (ne_of_wide hwide (toNat_value_lt _))]
    refine le_trans ih ?_
    exact le_trans List.count_le_count_cons
      (le_trans List.count_le_count_cons List.count_le_count_cons)
  | case4 i d hlow x y rest hc hhex hshould ih =>
    rw [Unescaping.result_push, List.count_cons_of_ne hpercent]
    exact le_trans ih List.count_le_count_cons
  | case5 i d hlow x y rest hc hhex ih =>
    rw [Unescaping.result_push, List.count_cons_of_ne hpercent]
    exact le_trans ih List.count_le_count_cons
  | case6 i d hlow rest hplus hshape ih =>
    rw [Unescaping.result_push, List.count_cons_of_ne hspace]
    exact le_trans ih List.count_le_count_cons
  | case7 i d hlow rest hplus hshape ih =>
    rw [Unescaping.result_push, List.count_cons, List.count_cons]
    omega

/-- A wide unit that is taken for a percent sign is lost. -/
lemma count_unescapeLoop_lt {j : ℕ} (hwide : 256 ≤ c.toNat) (hnarrow : c.setWidth 8 = char 8 '%')
    (hj : s[j]? = some c) (hlength : j + 2 < s.length) (rules : Rules) (i : ℕ) :
    (unescapeLoop rules i s).result.count c < s.count c := by
  have hpercent : char w '%' ≠ c := ne_of_wide hwide (toNat_char_lt (by decide))
  have hspace : char w ' ' ≠ c := ne_of_wide hwide (toNat_char_lt (by decide))
  have hdigit : ∀ x : BitVec w, isHexDigit x = true → x ≠ c := by
    intro x hx
    have := toNat_lt_of_isHexDigit hx
    exact ne_of_wide hwide (by omega)
  have hlow : (c.setWidth 8).toNat = 37 := by
    rw [hnarrow]
    rfl
  fun_induction unescapeLoop rules i s generalizing j with
  | case1 i => simp at hj
  | case2 i d rest hhigh ih =>
    cases j with
    | zero =>
      have hd : d = c := Option.some.inj hj
      rw [hd, hlow] at hhigh
      omega
    | succ j =>
      have := ih hj (Nat.lt_of_succ_lt_succ hlength)
      rw [Unescaping.result_push, List.count_cons, List.count_cons]
      omega
  | case3 i d hhigh x y rest hc hhex hshould ih =>
    rw [Unescaping.result_adjust, Unescaping.result_push,
      List.count_cons_of_ne (ne_of_wide hwide (toNat_value_lt _)), List.count_cons,
      List.count_cons_of_ne (hdigit x hhex.1), List.count_cons_of_ne (hdigit y hhex.2)]
    match j with
    | 0 =>
      have hd : d = c := Option.some.inj hj
      have := count_unescapeLoop_le rules (i + 3) rest hwide
      rw [hd, beq_self_eq_true, if_pos rfl]
      omega
    | 1 => exact absurd (Option.some.inj hj) (hdigit x hhex.1)
    | 2 => exact absurd (Option.some.inj hj) (hdigit y hhex.2)
    | j + 3 =>
      have := ih hj (by simp only [List.length_cons] at hlength; omega)
      omega
  | case4 i d hhigh x y rest hc hhex hshould ih =>
    rw [Unescaping.result_push, List.count_cons_of_ne hpercent]
    cases j with
    | zero =>
      have hd : d = c := Option.some.inj hj
      have := count_unescapeLoop_le rules (i + 1) (x :: y :: rest) hwide
      rw [hd, List.count_cons_self]
      omega
    | succ j =>
      exact lt_of_lt_of_le (ih hj (Nat.lt_of_succ_lt_succ hlength)) List.count_le_count_cons
  | case5 i d hhigh x y rest hc hhex ih =>
    rw [Unescaping.result_push, List.count_cons_of_ne hpercent]
    cases j with
    | zero =>
      have hd : d = c := Option.some.inj hj
      have := count_unescapeLoop_le rules (i + 1) (x :: y :: rest) hwide
      rw [hd, List.count_cons_self]
      omega
    | succ j =>
      exact lt_of_lt_of_le (ih hj (Nat.lt_of_succ_lt_succ hlength)) List.count_le_count_cons
  | case6 i d hhigh rest hplus hshape ih =>
    rw [Unescaping.result_push, List.count_cons_of_ne hspace]
    cases j with
    | zero =>
      have hd : d = c := Option.some.inj hj
      exact absurd (hd.symm.trans hplus.2).symm (ne_of_wide hwide (toNat_char_lt (by decide)))
    | succ j =>
      exact lt_of_lt_of_le (ih hj (Nat.lt_of_succ_lt_succ hlength)) List.count_le_count_cons
  | case7 i d hhigh rest hplus hshape ih =>
    rw [Unescaping.result_push, List.count_cons, List.count_cons]
    cases j with
    | zero =>
      have hd : d = c := Option.some.inj hj
      match rest, hshape, hlength with
      | x :: y :: rest, hshape, _ =>
        exact absurd rfl (hshape x y rest (by rw [hd, hnarrow]; rfl))
    | succ j =>
      have := ih hj (Nat.lt_of_succ_lt_succ hlength)
      omega

lemma unescapeURLComponent_eq (h : rules ≠ UnescapeRule.none) (s : List (BitVec w)) :
    unescapeURLComponent s rules = (unescapeLoop rules 0 s).result := by
  rw [unescapeURLComponent, unescapeURLWithOffsetsImpl, if_neg h]

lemma unescaped_iff : Unescaped rules s (unescapeURLComponent s rules) ↔
    rules = UnescapeRule.none ∨ PercentsNarrow s := by
  by_cases hrules : rules = UnescapeRule.none
  · refine iff_of_true ?_ (.inl hrules)
    rw [unescapeURLComponent, unescapeURLWithOffsetsImpl, if_pos hrules]
    exact .refl rules s
  rw [unescapeURLComponent_eq hrules, or_iff_right hrules]
  refine ⟨fun h j c hj hlength hnarrow => ?_, PercentsNarrow.unescaped⟩
  by_contra hne
  have hwide := wide_of_narrow hnarrow hne
  have hkept := h.count_le hwide
  have hlost := count_unescapeLoop_lt hwide hnarrow hj hlength rules 0
  omega

end Loop

/-! ### Bytes and 16-bit units -/

/-- Every byte as a 16-bit unit. -/
def widen (bytes : List (BitVec 8)) : List (BitVec 16) := bytes.map (BitVec.setWidth 16)

section Widen
variable {c x y : BitVec 8}

lemma setWidth_widen (c : BitVec 8) : (c.setWidth 16).setWidth 8 = c := by
  apply BitVec.eq_of_toNat_eq
  have := c.isLt
  rw [BitVec.toNat_setWidth, BitVec.toNat_setWidth]
  omega

lemma setWidth_byte (c : BitVec 8) : c.setWidth 8 = c := BitVec.setWidth_eq c

lemma widen_cons (c : BitVec 8) (s : List (BitVec 8)) :
    widen (c :: s) = c.setWidth 16 :: widen s := rfl

lemma toNat_widen (c : BitVec 8) : (c.setWidth 16).toNat = c.toNat := by
  have := c.isLt
  rw [BitVec.toNat_setWidth]
  omega

lemma isHexDigit_widen (c : BitVec 8) : isHexDigit (c.setWidth 16) = isHexDigit c := by
  simp only [isHexDigit, toNat_widen]

lemma escapedValue_widen (x y : BitVec 8) :
    escapedValue (x.setWidth 16) (y.setWidth 16) = escapedValue x y := by
  simp only [escapedValue, hexDigitToInt, toNat_widen]

lemma widen_eq_char {n : Char} (hn : n.toNat < 256) :
    c.setWidth 16 = char 16 n ↔ c = char 8 n := by
  rw [← BitVec.toNat_inj, ← BitVec.toNat_inj, toNat_widen, char, char, BitVec.toNat_ofNat,
    BitVec.toNat_ofNat, Nat.mod_eq_of_lt hn, Nat.mod_eq_of_lt (lt_trans hn (by decide))]

lemma unescapeLoop_widen (rules : Rules) (i : ℕ) (s : List (BitVec 8)) :
    unescapeLoop rules i (widen s) =
      ⟨widen (unescapeLoop rules i s).result, (unescapeLoop rules i s).adjustments⟩ := by
  fun_induction unescapeLoop rules i s with
  | case1 i => rfl
  | case2 i c rest hhigh ih =>
    rw [widen_cons, unescapeLoop.eq_def]
    dsimp only
    rw [setWidth_widen, if_pos (setWidth_byte c ▸ hhigh), ih]
    rfl
  | case3 i c hlow x y rest hc hhex hshould ih =>
    rw [widen_cons, widen_cons, widen_cons, unescapeLoop.eq_def]
    rw [setWidth_byte] at hlow hc
    dsimp only
    rw [setWidth_widen, if_neg hlow, hc]
    dsimp only
    rw [isHexDigit_widen, isHexDigit_widen, if_pos hhex, escapedValue_widen, if_pos hshould, ih]
    rfl
  | case4 i c hlow x y rest hc hhex hshould ih =>
    rw [widen_cons, widen_cons, widen_cons, unescapeLoop.eq_def]
    rw [setWidth_byte] at hlow hc
    dsimp only
    rw [setWidth_widen, if_neg hlow, hc]
    dsimp only
    rw [isHexDigit_widen, isHexDigit_widen, if_pos hhex, escapedValue_widen, if_neg hshould,
      ← widen_cons, ← widen_cons, ih]
    rfl
  | case5 i c hlow x y rest hc hhex ih =>
    rw [widen_cons, widen_cons, widen_cons, unescapeLoop.eq_def]
    rw [setWidth_byte] at hlow hc
    dsimp only
    rw [setWidth_widen, if_neg hlow, hc]
    dsimp only
    rw [isHexDigit_widen, isHexDigit_widen, if_neg hhex, ← widen_cons, ← widen_cons, ih]
    rfl
  | case6 i c hlow rest hplus hshape ih =>
    have hwide : c.setWidth 16 = char 16 '+' := (widen_eq_char (by decide)).mpr hplus.2
    rw [widen_cons, unescapeLoop_other, ih, if_pos ⟨hplus.1, hwide⟩]
    · rfl
    · rwa [setWidth_widen, ← setWidth_byte c]
    · intro hc
      rw [setWidth_widen, hplus.2] at hc
      exact absurd hc (by decide)
  | case7 i c hlow rest hplus hshape ih =>
    have hother : ¬ (rules &&& UnescapeRule.replacePlusWithSpace ≠ 0 ∧
        c.setWidth 16 = char 16 '+') := by
      rwa [widen_eq_char (by decide)]
    rw [widen_cons, unescapeLoop_other, ih, if_neg hother]
    · rfl
    · rwa [setWidth_widen, ← setWidth_byte c]
    · intro hc
      rw [setWidth_widen] at hc
      match rest, hshape with
      | [], _ => exact Nat.zero_lt_two
      | [x], _ => exact Nat.one_lt_two
      | x :: y :: rest, hshape =>
        exact absurd rfl (hshape x y rest (by rw [setWidth_byte, hc]; rfl))

end Widen

/-- Unescaping replaces escapes and nothing else exactly when no wide unit is taken for a percent
sign. Strings of bytes and of 16-bit units agree in any case. -/
theorem unescapeURLComponent_touches_iff (s : List (BitVec 16)) (rules : Rules) :
    (Unescaped rules s (unescapeURLComponent s rules) ∧
      ∀ bytes : List (BitVec 8), (∀ b ∈ bytes, b.toNat < 128) →
        unescapeURLComponent (widen bytes) rules = widen (unescapeURLComponent bytes rules)) ↔
    rules = UnescapeRule.none ∨ PercentsNarrow s := by
  rw [← unescaped_iff, and_iff_left_iff_imp]
  intro _ bytes _
  by_cases hrules : rules = UnescapeRule.none
  · simp only [unescapeURLComponent, unescapeURLWithOffsetsImpl, if_pos hrules]
  · rw [unescapeURLComponent_eq hrules, unescapeURLComponent_eq hrules, unescapeLoop_widen]

/-- U+0125 in front of two digits becomes a capital A with them. -/
theorem unescapeURLComponent_touches_wide :
    ¬ ∀ (s : List (BitVec 16)) (rules : Rules),
      Unescaped rules s (unescapeURLComponent s rules) := by
  intro h
  have hresult : unescapeURLComponent [0x0125#16, 0x34#16, 0x31#16] UnescapeRule.normal =
      [0x41#16] := by decide
  have hkept := (h [0x0125#16, 0x34#16, 0x31#16] UnescapeRule.normal).count_le
    (c := 0x0125#16) (by decide)
  rw [hresult] at hkept
  exact absurd hkept (by decide)

end Chromium.Escape
