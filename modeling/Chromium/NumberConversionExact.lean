import Chromium.NumberConversion
import Chromium.Positional

/-!
# Conversion is exact

What the conversions accept, said by numerals; what they leave in `*output`, said by the longest
numeral in front; and that what is printed is read again.
-/
namespace Chromium.NumberConversion

open WireFormat StringNumber
open Positional (number)

/-! ### Numerals -/

/-- Digits of a base, in base 16 also behind a mark. -/
inductive Body (base : ℕ) : Text → ℕ → Prop
  | digits {ds : Text} {values : List ℕ} (h : ds.mapM (charToDigit base) = some values)
    (hne : ds ≠ []) : Body base ds (number base values)
  | marked {x : Byte} {ds : Text} {values : List ℕ} (hbase : base = 16)
    (hx : x = char 'x' ∨ x = char 'X') (h : ds.mapM (charToDigit base) = some values)
    (hne : ds ≠ []) : Body base (char '0' :: x :: ds) (number base values)

/-- A sign that the type admits may stand in front. -/
inductive Numeral (t : Traits) : Text → ℤ → Prop
  | plain {s : Text} {n : ℕ} (h : Body t.base s n) : Numeral t s n
  | plus {s : Text} {n : ℕ} (h : Body t.base s n) : Numeral t (char '+' :: s) n
  | minus {s : Text} {n : ℕ} (hsigned : t.signed) (h : Body t.base s n) :
    Numeral t (char '-' :: s) (-n)

/-- The value of the longest text with a value that stands in front, 0 if there is none. -/
def Best {α : Type} [Zero α] (P : Text → α → Prop) (s : Text) (v : α) : Prop :=
  (∃ p, p <+: s ∧ P p v ∧ ∀ q w, q <+: s → P q w → q.length ≤ p.length) ∨
    v = 0 ∧ ∀ q w, q <+: s → ¬ P q w

namespace Traits

def clamp (t : Traits) (v : ℤ) : ℤ := if v > t.max then t.max else if v < t.min then t.min else v

end Traits

/-- A conversion does what it should: it returns true exactly for numerals of the type, and
leaves the number in front, behind white space, in the bounds of the type. -/
structure Exact (t : Traits) (s : Text) (output : ℤ) : Prop where
  result : (t.invoke s output).1 = true ↔ ∃ v, Numeral t s v ∧ t.min ≤ v ∧ v ≤ t.max
  output : ∃ v, Best (Numeral t) (s.dropWhile localIsWhitespace) v ∧
    (t.invoke s output).2 = t.clamp v

/-! ### Digits in front -/

section
variable {base : ℕ} {s ds rest : Text} {values : List ℕ}

lemma length_of_mapM (h : ds.mapM (charToDigit base) = some values) :
    values.length = ds.length := by
  induction ds generalizing values with
  | nil =>
    obtain rfl := Option.some.inj h
    rfl
  | cons c ds ih =>
    rw [List.mapM_cons] at h
    obtain ⟨d, -, h⟩ := Option.bind_eq_some_iff.mp h
    obtain ⟨tail, htail, h⟩ := Option.bind_eq_some_iff.mp h
    obtain rfl := Option.some.inj h
    rw [List.length_cons, List.length_cons, ih htail]

lemma leadingDigits_append (h : ds.mapM (charToDigit base) = some values) :
    leadingDigits base (ds ++ rest) =
      (values ++ (leadingDigits base rest).1, (leadingDigits base rest).2) := by
  induction ds generalizing values with
  | nil =>
    obtain rfl := Option.some.inj h
    rfl
  | cons c ds ih =>
    rw [List.mapM_cons] at h
    cases hc : charToDigit base c with
    | none => simp [hc] at h
    | some d =>
      cases hds : ds.mapM (charToDigit base) with
      | none => simp [hc, hds] at h
      | some tail =>
        simp only [hc, hds, Option.bind_eq_bind, Option.bind_some, Option.pure_def,
          Option.some.injEq] at h
        subst h
        rw [List.cons_append, leadingDigits, hc, ih hds]
        rfl

lemma leadingDigits_split (base : ℕ) (s : Text) : ∃ ds, s = ds ++ (leadingDigits base s).2 ∧
    ds.mapM (charToDigit base) = some (leadingDigits base s).1 := by
  induction s with
  | nil => exact ⟨[], rfl, rfl⟩
  | cons c s ih =>
    rw [leadingDigits]
    cases hc : charToDigit base c with
    | none => exact ⟨[], rfl, rfl⟩
    | some d =>
      obtain ⟨ds, hsplit, hds⟩ := ih
      refine ⟨c :: ds, by rw [List.cons_append, ← hsplit], ?_⟩
      simp [List.mapM_cons, hc, hds]

/-- Digits in front are among the leading digits. -/
lemma length_le_of_prefix (hfront : ds <+: s) (h : ds.mapM (charToDigit base) = some values) :
    ds.length ≤ (leadingDigits base s).1.length := by
  obtain ⟨rest, rfl⟩ := hfront
  rw [leadingDigits_append h, ← length_of_mapM h, List.length_append]
  omega

lemma mapM_eq_iff : s.mapM (charToDigit base) = some values ↔
    leadingDigits base s = (values, []) := by
  constructor
  · intro h
    have hall := @leadingDigits_append base s [] values h
    rw [List.append_nil] at hall
    simpa [leadingDigits] using hall
  · intro h
    obtain ⟨ds, hsplit, hds⟩ := leadingDigits_split base s
    rw [h, List.append_nil] at hsplit
    rw [h] at hds
    rw [hsplit]
    exact hds

end

/-! ### Bodies in front -/

section
variable {base : ℕ} {s : Text}

/-- Where no mark stands in front, a body is digits. -/
def NoMark (base : ℕ) (s : Text) : Prop :=
  ∀ p n, p <+: s → Body base p n → ∃ values, p.mapM (charToDigit base) = some values ∧ p ≠ [] ∧
    n = number base values

lemma number_nil : number base [] = 0 := rfl

/-- Without a mark the leading digits are the longest body. -/
lemma NoMark.best (h : NoMark base s) :
    Best (Body base) s (number base (leadingDigits base s).1) ∧
      ∀ n, Body base s n ↔ (leadingDigits base s).1 ≠ [] ∧ (leadingDigits base s).2 = [] ∧
        n = number base (leadingDigits base s).1 := by
  obtain ⟨ds, hsplit, hds⟩ := leadingDigits_split base s
  have hlength := length_of_mapM hds
  constructor
  · by_cases hnil : (leadingDigits base s).1 = []
    · refine Or.inr ⟨by rw [hnil, number_nil], fun q n hq hbody => ?_⟩
      obtain ⟨values, hvalues, hne, -⟩ := h q n hq hbody
      have hle := length_le_of_prefix hq hvalues
      rw [hnil, List.length_nil] at hle
      exact hne (List.length_eq_zero_iff.mp (by omega))
    · refine Or.inl ⟨ds, ⟨_, hsplit.symm⟩, .digits hds ?_, fun q n hq hbody => ?_⟩
      · rintro rfl
        exact hnil (List.length_eq_zero_iff.mp hlength)
      · obtain ⟨values, hvalues, -, -⟩ := h q n hq hbody
        have hle := length_le_of_prefix hq hvalues
        omega
  · intro n
    constructor
    · intro hbody
      obtain ⟨values, hvalues, hne, rfl⟩ := h s n (List.prefix_refl s) hbody
      have hlength' := length_of_mapM hvalues
      rw [mapM_eq_iff.mp hvalues]
      refine ⟨?_, rfl, rfl⟩
      rintro rfl
      exact hne (List.length_eq_zero_iff.mp hlength'.symm)
    · rintro ⟨hne, hrest, rfl⟩
      have hall : s.mapM (charToDigit base) = some (leadingDigits base s).1 :=
        mapM_eq_iff.mpr (Prod.ext rfl hrest)
      refine .digits hall ?_
      rintro rfl
      exact hne rfl

lemma not_digit_x {x : Byte} (hx : x = char 'x' ∨ x = char 'X') : charToDigit 16 x = none := by
  rcases hx with rfl | rfl <;> decide

/-- The digits in front of an `x` are the zero of the mark. -/
lemma eq_zero_of_mark {x : Byte} {ds rest : Text} {values : List ℕ}
    (hx : x = char 'x' ∨ x = char 'X') (hfront : ds <+: char '0' :: x :: rest)
    (h : ds.mapM (charToDigit 16) = some values) : ds.length ≤ 1 := by
  have hle := length_le_of_prefix hfront h
  have hzero : charToDigit 16 (char '0') = some 0 := by decide
  rw [leadingDigits, hzero, leadingDigits, not_digit_x hx] at hle
  exact hle

/-- Behind a mark the leading digits are the longest body, or it is the zero of the mark. -/
lemma marked_best {x c : Byte} {rest : Text} (hx : x = char 'x' ∨ x = char 'X') :
    Best (Body 16) (char '0' :: x :: c :: rest) (number 16 (leadingDigits 16 (c :: rest)).1) ∧
      ∀ n, Body 16 (char '0' :: x :: c :: rest) n ↔
        (leadingDigits 16 (c :: rest)).1 ≠ [] ∧ (leadingDigits 16 (c :: rest)).2 = [] ∧
          n = number 16 (leadingDigits 16 (c :: rest)).1 := by
  obtain ⟨ds, hsplit, hds⟩ := leadingDigits_split 16 (c :: rest)
  have hlength := length_of_mapM hds
  -- a body in front is at most the zero, or digits behind the mark
  have hcases : ∀ q n, q <+: char '0' :: x :: c :: rest → Body 16 q n → q.length ≤ 1 ∨
      ∃ es values, q = char '0' :: x :: es ∧ es <+: c :: rest ∧ es ≠ [] ∧
        es.mapM (charToDigit 16) = some values ∧ n = number 16 values := by
    intro q n hq hbody
    cases hbody with
    | digits h hne => exact Or.inl (eq_zero_of_mark hx hq h)
    | @marked x' es values _ hx' h hne =>
      obtain ⟨rfl, hes⟩ := List.cons_prefix_cons.mp (List.cons_prefix_cons.mp hq).2
      exact Or.inr ⟨es, values, rfl, hes, hne, h, rfl⟩
  constructor
  · by_cases hnil : (leadingDigits 16 (c :: rest)).1 = []
    · have hzero : [char '0'].mapM (charToDigit 16) = some [0] := by decide
      refine Or.inl ⟨[char '0'], ⟨x :: c :: rest, rfl⟩, ?_, fun q n hq hbody => ?_⟩
      · have hvalue : number 16 [] = number 16 [0] := rfl
        rw [hnil, hvalue]
        exact .digits hzero (List.cons_ne_nil _ _)
      · rcases hcases q n hq hbody with hle | ⟨es, values, rfl, hes, hne, h, -⟩
        · exact hle
        · have hle := length_le_of_prefix hes h
          rw [hnil, List.length_nil] at hle
          exact absurd (List.length_eq_zero_iff.mp (by omega)) hne
    · have hne : ds ≠ [] := by
        rintro rfl
        exact hnil (List.length_eq_zero_iff.mp hlength)
      have hpos := List.length_pos_of_ne_nil hne
      refine Or.inl ⟨char '0' :: x :: ds, ?_, .marked rfl hx hds hne, fun q n hq hbody => ?_⟩
      · rw [List.cons_prefix_cons, List.cons_prefix_cons]
        exact ⟨rfl, rfl, _, hsplit.symm⟩
      · rcases hcases q n hq hbody with hle | ⟨es, values, rfl, hes, -, h, -⟩
        · simp only [List.length_cons]
          omega
        · have hle := length_le_of_prefix hes h
          simp only [List.length_cons]
          omega
  · intro n
    constructor
    · intro hbody
      rcases hcases _ n (List.prefix_refl _) hbody with hle | ⟨es, values, heq, -, hne, h, rfl⟩
      · simp at hle
      · obtain ⟨-, heq⟩ := List.cons.inj heq
        obtain ⟨-, rfl⟩ := List.cons.inj heq
        have hlength' := length_of_mapM h
        rw [mapM_eq_iff.mp h]
        refine ⟨?_, rfl, rfl⟩
        rintro rfl
        exact hne (List.length_eq_zero_iff.mp hlength'.symm)
    · rintro ⟨hne, hrest, rfl⟩
      exact .marked rfl hx (mapM_eq_iff.mpr (Prod.ext rfl hrest)) (List.cons_ne_nil _ _)

/-- What the code reads behind the sign is the longest body. -/
lemma unmarked_best (t : Traits) (s : Text) :
    Best (Body t.base) s (number t.base (leadingDigits t.base (t.unmarked s)).1) ∧
      ∀ n, Body t.base s n ↔ (leadingDigits t.base (t.unmarked s)).1 ≠ [] ∧
        (leadingDigits t.base (t.unmarked s)).2 = [] ∧
          n = number t.base (leadingDigits t.base (t.unmarked s)).1 := by
  rw [Traits.unmarked]
  split_ifs with hmarked
  · obtain ⟨hbase, hlength, hzero, hx⟩ := hmarked
    rcases s with _ | ⟨z, _ | ⟨x, _ | ⟨c, rest⟩⟩⟩
    · simp at hzero
    · simp at hx
    · simp at hlength
    · obtain rfl := Option.some.inj hzero
      have hx' : x = char 'x' ∨ x = char 'X' := hx.imp Option.some.inj Option.some.inj
      rw [hbase]
      exact marked_best hx'
  · refine NoMark.best fun p n hfront hbody => ?_
    cases hbody with
    | digits h hne => exact ⟨_, h, hne, rfl⟩
    | @marked x ds values hbase hx h hne =>
      obtain ⟨rest, rfl⟩ := hfront
      have hpos := List.length_pos_of_ne_nil hne
      refine absurd ⟨hbase, ?_, rfl, ?_⟩ hmarked
      · simp only [List.cons_append, List.length_cons, List.length_append]
        omega
      · rcases hx with rfl | rfl
        · exact Or.inl rfl
        · exact Or.inr rfl

end

/-! ### Signs -/

/-- A text in front of all that counts. -/
lemma Best.lift {P : Text → ℕ → Prop} {Q : Text → ℤ → Prop} {front s : Text} {n : ℕ} {f : ℕ → ℤ}
    (hzero : f 0 = 0) (hiff : ∀ q w, q <+: front ++ s →
      (Q q w ↔ ∃ p n, q = front ++ p ∧ P p n ∧ w = f n)) (h : Best P s n) :
    Best Q (front ++ s) (f n) := by
  rcases h with ⟨p, hp, hP, hlongest⟩ | ⟨rfl, hnone⟩
  · have hfront := (List.prefix_append_right_inj front).mpr hp
    refine Or.inl ⟨front ++ p, hfront, (hiff _ _ hfront).mpr ⟨p, n, rfl, hP, rfl⟩, ?_⟩
    intro q w hq hQ
    obtain ⟨p', n', rfl, hP', -⟩ := (hiff q w hq).mp hQ
    have hle := hlongest p' n' ((List.prefix_append_right_inj front).mp hq) hP'
    simp only [List.length_append]
    omega
  · refine Or.inr ⟨hzero, fun q w hq hQ => ?_⟩
    obtain ⟨p', n', rfl, hP', -⟩ := (hiff q w hq).mp hQ
    exact hnone p' n' ((List.prefix_append_right_inj front).mp hq) hP'

section
variable {t : Traits} {s : Text}

/-- A body starts with a digit. -/
lemma body_head (h : t.Valid) {p : Text} {n : ℕ} (hbody : Body t.base p n) :
    ∃ c rest, p = c :: rest ∧ c ≠ char '-' ∧ c ≠ char '+' ∧ localIsWhitespace c = false := by
  have hten : ∀ c : Byte, (charToDigit 10 c).isSome = true →
      c ≠ char '-' ∧ c ≠ char '+' ∧ localIsWhitespace c = false := by decide
  have hsixteen : ∀ c : Byte, (charToDigit 16 c).isSome = true →
      c ≠ char '-' ∧ c ≠ char '+' ∧ localIsWhitespace c = false := by decide
  cases hbody with
  | @digits _ values hdigits hne =>
    match p, hdigits, hne with
    | c :: rest, hdigits, _ =>
      rw [List.mapM_cons] at hdigits
      obtain ⟨d, hd, -⟩ := Option.bind_eq_some_iff.mp hdigits
      refine ⟨c, rest, rfl, ?_⟩
      rcases h.base with hbase | hbase <;> rw [hbase] at hd
      · exact hten c (by rw [hd]; rfl)
      · exact hsixteen c (by rw [hd]; rfl)
  | marked => exact ⟨_, _, rfl, by decide⟩

lemma numeral_head (h : t.Valid) {w : ℤ} (hnumeral : Numeral t s w) :
    ∃ c rest, s = c :: rest ∧ localIsWhitespace c = false := by
  cases hnumeral with
  | plain hbody =>
    obtain ⟨c, rest, hs, -, -, hspace⟩ := body_head h hbody
    exact ⟨c, rest, hs, hspace⟩
  | plus => exact ⟨_, _, rfl, by decide⟩
  | minus => exact ⟨_, _, rfl, by decide⟩

/-- How the code splits off the sign. -/
structure Parsed (t : Traits) (rest : Text) (sign : Sign) (front body : Text) : Prop where
  eq : rest = front ++ body
  signed : sign = .negative → t.signed
  numeral : ∀ q w, q <+: rest →
    (Numeral t q w ↔ ∃ p n, q = front ++ p ∧ Body t.base p n ∧ w = sign.apply n)
  invoke : ∀ s output, s.dropWhile localIsWhitespace = rest → t.invoke s output =
    (decide (rest = s) && (t.invokeBase sign body).1, (t.invokeBase sign body).2)

lemma parsed_minus (h : t.Valid) (hsigned : t.signed) (body : Text) :
    Parsed t (char '-' :: body) .negative [char '-'] body := by
  refine ⟨rfl, fun _ => hsigned, fun q w hq => ?_, fun s output hs => ?_⟩
  · constructor
    · intro hnumeral
      cases hnumeral with
      | plain hbody =>
        obtain ⟨c, rest, rfl, hc, -⟩ := body_head h hbody
        exact absurd (List.cons_prefix_cons.mp hq).1 hc
      | plus => exact absurd (List.cons_prefix_cons.mp hq).1 (by decide)
      | minus _ hbody => exact ⟨_, _, rfl, hbody, rfl⟩
    · rintro ⟨p, n, rfl, hbody, rfl⟩
      exact .minus hsigned hbody
  · simp [Traits.invoke, hs, hsigned]

lemma parsed_plus (h : t.Valid) (body : Text) :
    Parsed t (char '+' :: body) .positive [char '+'] body := by
  refine ⟨rfl, fun hsign => absurd hsign (by decide), fun q w hq => ?_, fun s output hs => ?_⟩
  · constructor
    · intro hnumeral
      cases hnumeral with
      | plain hbody =>
        obtain ⟨c, rest, rfl, -, hc, -⟩ := body_head h hbody
        exact absurd (List.cons_prefix_cons.mp hq).1 hc
      | plus hbody => exact ⟨_, _, rfl, hbody, rfl⟩
      | minus => exact absurd (List.cons_prefix_cons.mp hq).1 (by decide)
    · rintro ⟨p, n, rfl, hbody, rfl⟩
      exact .plus hbody
  · have hne : char '+' ≠ char '-' := by decide
    simp [Traits.invoke, hs, hne]

lemma parsed_plain {rest : Text} (hminus : rest.head? ≠ some (char '-'))
    (hplus : rest.head? ≠ some (char '+')) : Parsed t rest .positive [] rest := by
  have hhead : ∀ {c p}, c :: p <+: rest → rest.head? = some c := by
    rintro c p ⟨behind, rfl⟩
    rfl
  refine ⟨rfl, fun hsign => absurd hsign (by decide), fun q w hq => ?_, fun s output hs => ?_⟩
  · constructor
    · intro hnumeral
      cases hnumeral with
      | plain hbody => exact ⟨q, _, rfl, hbody, rfl⟩
      | plus => exact absurd (hhead hq) hplus
      | minus => exact absurd (hhead hq) hminus
    · rintro ⟨p, n, rfl, hbody, rfl⟩
      exact .plain hbody
  · simp [Traits.invoke, hs, hminus, hplus]

lemma apply_mem_iff {sign : Sign} {n : ℕ} (hsign : sign = .negative → t.signed) :
    t.min ≤ sign.apply n ∧ sign.apply n ≤ t.max ↔ n ≤ t.limit sign := by
  have hpow : ((2 ^ (t.bits - 1) : ℕ) : ℤ) = 2 ^ (t.bits - 1) := by norm_cast
  have hpow' : ((2 ^ t.bits : ℕ) : ℤ) = 2 ^ t.bits := by norm_cast
  have hpos : 0 < 2 ^ (t.bits - 1) := Nat.two_pow_pos _
  have hpos' : 0 < 2 ^ t.bits := Nat.two_pow_pos _
  cases sign with
  | positive =>
    simp only [Traits.min, Traits.max, Traits.limit, Sign.apply]
    split_ifs <;> omega
  | negative =>
    simp only [Traits.min, Traits.max, Traits.limit, Sign.apply, if_pos (hsign rfl)]
    omega

/-- The number of a sign and its digits, in the bounds of the type. -/
lemma clamp_apply {sign : Sign} {n : ℕ} (hsign : sign = .negative → t.signed) :
    t.clamp (sign.apply n) = if n ≤ t.limit sign then sign.apply n else t.bound sign := by
  have hmem := @apply_mem_iff t sign n hsign
  have hlimit := (@apply_mem_iff t sign (t.limit sign) hsign).mpr le_rfl
  rw [← Traits.bound_eq] at hlimit
  rw [Traits.clamp]
  split_ifs with hmax hle hmin hle
  · omega
  · cases sign with
    | positive => rfl
    | negative =>
      simp only [Sign.apply, Traits.bound] at hmax hlimit
      have hzero : ((0 : ℕ) : ℤ) ≤ t.max := ((@apply_mem_iff t .positive 0 (by simp)).mpr
        (Nat.zero_le _)).2
      omega
  · omega
  · cases sign with
    | positive =>
      simp only [Sign.apply] at hmin
      have hzero : t.min ≤ ((0 : ℕ) : ℤ) := ((@apply_mem_iff t .positive 0 (by simp)).mpr
        (Nat.zero_le _)).1
      omega
    | negative => rfl
  · rfl
  · omega

lemma dropWhile_of_numeral (h : t.Valid) {w : ℤ} (hnumeral : Numeral t s w) :
    s.dropWhile localIsWhitespace = s := by
  obtain ⟨c, rest, rfl, hspace⟩ := numeral_head h hnumeral
  rw [List.dropWhile_cons, hspace, if_neg Bool.false_ne_true]

lemma Parsed.exact {sign : Sign} {front body : Text} (h : t.Valid)
    (hparsed : Parsed t (s.dropWhile localIsWhitespace) sign front body) (output : ℤ) :
    Exact t s output := by
  obtain ⟨hsplit, hsign, hnumeral, hinvoke⟩ := hparsed
  obtain ⟨hbest, hbody⟩ := unmarked_best t body
  have hrun := Traits.invokeBase_eq h hsign body
  have hzero : sign.apply 0 = 0 := by cases sign <;> rfl
  have hnumber : ∀ ds, behind t.base 0 ds = number t.base ds := fun _ => rfl
  rw [hnumber] at hrun
  constructor
  · rw [hinvoke s output rfl, hrun]
    constructor
    · intro htrue
      obtain ⟨hrest, hresult⟩ := Bool.and_eq_true_iff.mp htrue
      split_ifs at hresult with hle
      obtain ⟨hne, hend⟩ := of_decide_eq_true hresult
      have hs := of_decide_eq_true hrest
      refine ⟨_, ?_, (apply_mem_iff hsign).mpr hle⟩
      rw [← hs]
      exact (hnumeral _ _ (List.prefix_refl _)).mpr
        ⟨body, _, hsplit, (hbody _).mpr ⟨hne, hend, rfl⟩, rfl⟩
    · rintro ⟨v, hv, hrange⟩
      have hs := dropWhile_of_numeral h hv
      rw [← hs] at hv
      obtain ⟨p, n, hp, hn, rfl⟩ := (hnumeral _ _ (List.prefix_refl _)).mp hv
      obtain rfl : body = p := List.append_cancel_left (hsplit.symm.trans hp)
      obtain ⟨hne, hend, rfl⟩ := (hbody n).mp hn
      rw [decide_eq_true hs, if_pos ((apply_mem_iff hsign).mp hrange)]
      exact decide_eq_true ⟨hne, hend⟩
  · have hlift := @Best.lift (Body t.base) (Numeral t) front body _ (fun n => sign.apply n) hzero
      (fun q w hq => hnumeral q w (by rwa [hsplit])) hbest
    rw [← hsplit] at hlift
    refine ⟨_, hlift, ?_⟩
    rw [hinvoke s output rfl, hrun, clamp_apply hsign]
    split_ifs <;> rfl

/-- A minus that the type does not admit leaves `*output` alone. -/
lemma exact_unsigned_minus (h : t.Valid) (hsigned : ¬ t.signed) (output : ℤ)
    (hminus : (s.dropWhile localIsWhitespace).head? = some (char '-')) :
    Exact t s output ↔ output = 0 := by
  have hnone : ∀ q w, q <+: s.dropWhile localIsWhitespace → ¬ Numeral t q w := by
    rintro q w ⟨rest, hq⟩ hnumeral
    rw [← hq] at hminus
    cases hnumeral with
    | plain hbody =>
      obtain ⟨c, rest', rfl, hc, -⟩ := body_head h hbody
      exact hc (Option.some.inj hminus)
    | plus => exact absurd (Option.some.inj hminus) (by decide)
    | minus hs => exact hsigned hs
  have hrun : t.invoke s output = (false, output) := by
    simp [Traits.invoke, hminus, hsigned]
  have hclamp : t.clamp 0 = 0 :=
    (@clamp_apply t .positive 0 (by simp)).trans (if_pos (Nat.zero_le _))
  constructor
  · rintro ⟨-, v, hbest, houtput⟩
    rcases hbest with ⟨p, hp, hnumeral, -⟩ | ⟨rfl, -⟩
    · exact absurd hnumeral (hnone p v hp)
    · rw [hrun, hclamp] at houtput
      exact houtput
  · rintro rfl
    refine ⟨?_, 0, Or.inr ⟨rfl, hnone⟩, by rw [hrun, hclamp]⟩
    rw [hrun]
    refine ⟨fun hfalse => absurd hfalse Bool.false_ne_true, ?_⟩
    rintro ⟨v, hnumeral, -⟩
    refine absurd hnumeral (hnone s v ?_)
    rw [dropWhile_of_numeral h hnumeral]

/-- When a conversion does what it should. -/
lemma exact_iff (h : t.Valid) (s : Text) (output : ℤ) : Exact t s output ↔
    ¬ (t.signed = false ∧ (s.dropWhile localIsWhitespace).head? = some (char '-')) ∨
      output = 0 := by
  by_cases hminus : (s.dropWhile localIsWhitespace).head? = some (char '-')
  · by_cases hsigned : t.signed
    · obtain ⟨body, hrest⟩ : ∃ body, s.dropWhile localIsWhitespace = char '-' :: body :=
        List.head?_eq_some_iff.mp hminus
      have hexact := @Parsed.exact t s .negative [char '-'] body h
        (by rw [hrest]; exact parsed_minus h hsigned body) output
      simp [hexact, hsigned]
    · rw [exact_unsigned_minus h hsigned output hminus]
      simp [hsigned, hminus]
  · have hexact : Exact t s output := by
      by_cases hplus : (s.dropWhile localIsWhitespace).head? = some (char '+')
      · obtain ⟨body, hrest⟩ := List.head?_eq_some_iff.mp hplus
        exact @Parsed.exact t s .positive [char '+'] body h
          (by rw [hrest]; exact parsed_plus h body) output
      · exact (parsed_plain hminus hplus).exact h output
    simp [hexact, hminus]

end

lemma Conversion.valid (f : Conversion) : f.traits.Valid := by
  cases f <;> exact ⟨by decide, by decide⟩

/-! ### Printing -/

lemma decimal_step {n : ℕ} (h : n / 10 ≠ 0) :
    decimal n = decimal (n / 10) ++ [BitVec.ofNat 8 (48 + n % 10)] := by
  have hn : n ≠ 0 := by
    rintro rfl
    exact h rfl
  rw [decimal, decimal, if_neg hn, if_neg h, Nat.digits_eq_cons_digits_div (by decide) hn]
  simp

lemma decimal_digit {n : ℕ} (h : n / 10 = 0) : decimal n = [BitVec.ofNat 8 (48 + n % 10)] := by
  have hlt : n < 10 := by omega
  interval_cases n <;> rfl

/-- The digits are written when there is room for them. -/
lemma writeDigits_eq {room res : ℕ} {text : Text} (h : (decimal res).length ≤ room) :
    writeDigits room res text = some (room - (decimal res).length, decimal res ++ text) := by
  induction room generalizing res text with
  | zero =>
    rw [Nat.le_zero, List.length_eq_zero_iff] at h
    obtain ⟨d, ds, hds, -⟩ := decimalDigits_head res
    rw [decimal_eq, hds] at h
    exact absurd h (List.cons_ne_nil _ _)
  | succ room ih =>
    rw [writeDigits]
    by_cases hlast : res / 10 = 0
    · rw [if_pos hlast, decimal_digit hlast]
      rfl
    · rw [decimal_step hlast, List.length_append, List.length_singleton] at h
      rw [if_neg hlast, ih (by omega), decimal_step hlast, List.length_append,
        List.length_singleton, List.append_assoc, Nat.add_sub_add_right]
      rfl

lemma decimal_length_le {n k : ℕ} (hk : 0 < k) (h : n < 10 ^ k) : (decimal n).length ≤ k := by
  rw [decimal]
  split_ifs
  · exact hk
  · rw [List.length_map, List.length_reverse]
    exact (Nat.digits_length_le_iff (by decide) n).mpr h

lemma toNat_of_nonneg {w : ℕ} {i : BitVec w} (h : ¬ i.toInt < 0) : i.toNat = i.toInt.natAbs := by
  have hlt := i.isLt
  rw [BitVec.toInt_eq_toNat_cond] at h ⊢
  split_ifs at h ⊢ <;> omega

/-- Every text that is printed is that of the value. -/
lemma toText_eq {bits : ℕ} (hbits : bits = 32 ∨ bits = 64) (signed : Bool) (value : BitVec bits) :
    toText signed value = some (formatInt (if signed then value.toInt else value.toNat)) := by
  have hroom : ∀ n, n < 2 ^ bits → (decimal n).length < 3 * (bits / 8) + 1 := by
    intro n hn
    rcases hbits with rfl | rfl
    · exact (@decimal_length_le n 10 (by decide) (hn.trans (by decide))).trans_lt (by decide)
    · exact (@decimal_length_le n 20 (by decide) (hn.trans (by decide))).trans_lt (by decide)
  rw [toText]
  by_cases hneg : signed ∧ value.toInt < 0
  · obtain ⟨rfl, hlt⟩ := hneg
    have hlen := hroom (-value).toNat (-value).isLt
    have hroom' : ¬ 3 * (bits / 8) + 1 - (decimal (-value).toNat).length = 0 := by omega
    simp only [hlt, and_self, decide_true, if_true, writeDigits_eq hlen.le, Option.bind_eq_bind,
      Option.bind_some, List.append_nil, if_neg hroom']
    rw [toNat_neg_of_neg hlt, formatInt, if_pos hlt]
  · have hlen := hroom value.toNat value.isLt
    simp only [decide_eq_false hneg, Bool.false_eq_true, if_false, writeDigits_eq hlen.le,
      Option.bind_eq_bind, Option.bind_some, List.append_nil]
    cases signed with
    | true =>
      have hpos : ¬ value.toInt < 0 := fun h => hneg ⟨rfl, h⟩
      rw [if_pos rfl, formatInt, if_neg hpos, toNat_of_nonneg hpos]
    | false =>
      have hpos : ¬ ((value.toNat : ℤ)) < 0 := by omega
      rw [if_neg Bool.false_ne_true, formatInt, if_neg hpos, Int.natAbs_natCast]

/-- The digits that are printed are read again behind a sign. -/
lemma invokeBase_decimal {t : Traits} (h : t.Valid) (hbase : t.base = 10) {sign : Sign}
    (hsign : sign = .negative → t.signed) {n : ℕ} (hn : n ≤ t.limit sign) :
    t.invokeBase sign (decimal n) = (true, sign.apply n) := by
  have hunmarked : t.unmarked (decimal n) = decimal n := by
    rw [Traits.unmarked, if_neg]
    rintro ⟨hhex, -⟩
    omega
  have hdigits : leadingDigits 10 (decimal n) = (decimalDigits n, []) := by
    rw [← mapM_eq_iff, decimal_eq]
    exact mapM_digits fun d => decimalDigits_lt
  obtain ⟨d, ds, hds, -⟩ := decimalDigits_head n
  have hne : decimalDigits n ≠ [] := by
    rw [hds]
    exact List.cons_ne_nil _ _
  rw [Traits.invokeBase_eq h hsign, hunmarked, hbase, hdigits, behind_decimalDigits, if_pos hn,
    decide_eq_true ⟨hne, rfl⟩]

lemma decimal_head (n : ℕ) : ∃ c rest, decimal n = c :: rest ∧ c ≠ char '-' ∧ c ≠ char '+' ∧
    localIsWhitespace c = false := by
  have hall : ∀ d, d < 10 → BitVec.ofNat 8 (48 + d) ≠ char '-' ∧
      BitVec.ofNat 8 (48 + d) ≠ char '+' ∧
        localIsWhitespace (BitVec.ofNat 8 (48 + d)) = false := by decide
  obtain ⟨d, ds, hds, -⟩ := decimalDigits_head n
  have hd : d < 10 := @decimalDigits_lt n d (by rw [hds]; exact List.mem_cons_self)
  exact ⟨_, _, by rw [decimal_eq, hds, List.map_cons], hall d hd⟩

/-- What is printed of a number of the type is read again. -/
lemma invoke_formatInt {t : Traits} (h : t.Valid) (hbase : t.base = 10) {v : ℤ} (hmin : t.min ≤ v)
    (hmax : v ≤ t.max) (output : ℤ) : t.invoke (formatInt v) output = (true, v) := by
  rw [formatInt]
  split_ifs with hneg
  · have hsigned : t.signed := by
      by_contra hunsigned
      rw [Traits.min, if_neg hunsigned] at hmin
      omega
    have happly : Sign.negative.apply v.natAbs = v := by
      rw [Sign.apply]
      omega
    have hlimit : v.natAbs ≤ t.limit .negative :=
      (apply_mem_iff fun _ => hsigned).mp (by rw [happly]; exact ⟨hmin, hmax⟩)
    have hskip : (char '-' :: decimal v.natAbs).dropWhile localIsWhitespace =
        char '-' :: decimal v.natAbs := rfl
    rw [(parsed_minus h hsigned _).invoke _ output hskip,
      invokeBase_decimal h hbase (fun _ => hsigned) hlimit, happly, decide_eq_true rfl]
    rfl
  · have happly : Sign.positive.apply v.natAbs = v := by
      rw [Sign.apply]
      omega
    have hlimit : v.natAbs ≤ t.limit .positive :=
      (apply_mem_iff (by simp)).mp (by rw [happly]; exact ⟨hmin, hmax⟩)
    obtain ⟨c, rest, hdecimal, hminus, hplus, hspace⟩ := decimal_head v.natAbs
    have hskip : (decimal v.natAbs).dropWhile localIsWhitespace = decimal v.natAbs := by
      rw [hdecimal, List.dropWhile_cons, hspace, if_neg Bool.false_ne_true]
    have hparsed : Parsed t (decimal v.natAbs) .positive [] (decimal v.natAbs) := by
      refine parsed_plain ?_ ?_ <;> rw [hdecimal, List.head?_cons] <;> intro heq
      · exact hminus (Option.some.inj heq)
      · exact hplus (Option.some.inj heq)
    rw [hparsed.invoke _ output hskip, invokeBase_decimal h hbase (by simp) hlimit, happly,
      decide_eq_true rfl]
    rfl

/-- What is printed is read again, whatever `*output` held. -/
structure ReadBack (output : ℤ) : Prop where
  int : ∀ v, ∃ s, intToString v = some s ∧ Conversion.stringToInt.run s output = (true, v.toInt)
  uint : ∀ v, ∃ s, uintToString v = some s ∧
    Conversion.stringToUint.run s output = (true, (v.toNat : ℤ))
  int64 : ∀ v, ∃ s, int64ToString v = some s ∧
    Conversion.stringToInt64.run s output = (true, v.toInt)
  uint64 : ∀ v, ∃ s, uint64ToString v = some s ∧
    Conversion.stringToUint64.run s output = (true, (v.toNat : ℤ))

lemma readBack_signed {t : Traits} (h : t.Valid) (hbase : t.base = 10) (hsigned : t.signed)
    (v : BitVec t.bits) (output : ℤ) : ∃ s, toText true v = some s ∧
      t.invoke s output = (true, v.toInt) := by
  have hmin : t.min ≤ v.toInt := by
    rw [Traits.min, if_pos hsigned]
    exact BitVec.le_toInt v
  have hmax : v.toInt ≤ t.max := by
    rw [Traits.max, if_pos hsigned]
    have hlt := @BitVec.toInt_lt t.bits v
    omega
  exact ⟨_, toText_eq h.bits true v, invoke_formatInt h hbase hmin hmax output⟩

lemma readBack_unsigned {t : Traits} (h : t.Valid) (hbase : t.base = 10) (hsigned : ¬ t.signed)
    (v : BitVec t.bits) (output : ℤ) : ∃ s, toText false v = some s ∧
      t.invoke s output = (true, (v.toNat : ℤ)) := by
  have hmin : t.min ≤ v.toNat := by
    rw [Traits.min, if_neg hsigned]
    omega
  have hmax : (v.toNat : ℤ) ≤ t.max := by
    have hlt := v.isLt
    have hcast : ((2 ^ t.bits : ℕ) : ℤ) = 2 ^ t.bits := by norm_cast
    rw [Traits.max, if_neg hsigned]
    omega
  exact ⟨_, toText_eq h.bits false v, invoke_formatInt h hbase hmin hmax output⟩

lemma readBack (output : ℤ) : ReadBack output where
  int v := readBack_signed Conversion.stringToInt.valid rfl rfl v output
  uint v := readBack_unsigned Conversion.stringToUint.valid rfl (by decide) v output
  int64 v := readBack_signed Conversion.stringToInt64.valid rfl rfl v output
  uint64 v := readBack_unsigned Conversion.stringToUint64.valid rfl (by decide) v output

/-- A conversion does what it should exactly when it does not meet a minus that its type does not
admit, or `*output` was 0 before; and what is printed is always read again. -/
theorem conversion_exact_iff (f : Conversion) (s : Text) (output : ℤ) :
    (Exact f.traits s output ↔
      ¬ (f.traits.signed = false ∧
        (s.dropWhile localIsWhitespace).head? = some (char '-')) ∨ output = 0) ∧
      ReadBack output :=
  ⟨exact_iff f.valid s output, readBack output⟩

/-- A minus in front of an unsigned number. -/
theorem stringToUint_minus : ¬ ∀ (f : Conversion) (s : Text) (output : ℤ),
    Exact f.traits s output := by
  intro h
  have hexact := (exact_iff Conversion.stringToUint.valid (ascii "-1") 7).mp
    (h .stringToUint (ascii "-1") 7)
  revert hexact
  decide

end Chromium.NumberConversion
