import Mathlib.Data.List.Lex
import Mathlib.Tactic

/-!
# Comparators and ranks

A comparator returns a negative number, zero or a positive number. It is a total
preorder as soon as it agrees with the lexicographic order of some list of ranks.
A comparator that works through a key piece by piece agrees with it when every
piece decides the order of its own part of the lists, whatever follows.
-/
namespace Chromium.Comparator

variable {α τ : Type*}

/-- Reflexive, antisymmetric in sign, and transitive. -/
structure TotalPreorder (cmp : α → α → ℤ) : Prop where
  refl : ∀ a, cmp a a = 0
  antisymm : ∀ a b, (cmp a b).sign = -(cmp b a).sign
  trans : ∀ a b c, cmp a b ≤ 0 → cmp b c ≤ 0 → cmp a c ≤ 0

/-- The result `r` decides the order of all lists that start with `u` and `v`. -/
structure Decides [LT τ] (r : ℤ) (u v : List τ) : Prop where
  eq : r = 0 → u = v
  lt : r < 0 → ∀ x y, u ++ x < v ++ y
  gt : 0 < r → ∀ x y, v ++ y < u ++ x

/-- The result of the first comparison, or of the second if the first finds no
difference. -/
def andThen (r r' : ℤ) : ℤ := if r ≠ 0 then r else r'

@[simp] lemma andThen_zero (r : ℤ) : andThen 0 r = r := rfl

lemma andThen_of_ne {r : ℤ} (h : r ≠ 0) (r' : ℤ) : andThen r r' = r := if_pos h

/-- The lexicographic comparison of two strings, as `memcmp` and the lengths give
it. -/
def lexCompare [LT τ] [DecidableLT τ] : List τ → List τ → ℤ
  | [], [] => 0
  | [], _ :: _ => -1
  | _ :: _, [] => 1
  | a :: as, b :: bs => if a < b then -1 else if b < a then 1 else lexCompare as bs

section Decides
variable [LinearOrder τ] {r r' : ℤ} {u v u' v' : List τ} {a b : τ}

lemma decides_nil : Decides 0 ([] : List τ) [] :=
  ⟨fun _ => rfl, fun h => absurd h (lt_irrefl 0), fun h => absurd h (lt_irrefl 0)⟩

/-- A first rank that differs decides, whatever follows. -/
lemma decides_head (hlt : r < 0 ↔ a < b) (hgt : 0 < r ↔ b < a) (hne : a ≠ b) (u v : List τ) :
    Decides r (a :: u) (b :: v) := by
  refine ⟨fun h => ?_, fun h x y => ?_, fun h x y => ?_⟩
  · rcases lt_or_gt_of_ne hne with hab | hba
    · exact absurd (hlt.mpr hab) (by omega)
    · exact absurd (hgt.mpr hba) (by omega)
  · exact List.Lex.rel (hlt.mp h)
  · exact List.Lex.rel (hgt.mp h)

lemma decides_singleton (hlt : r < 0 ↔ a < b) (hgt : 0 < r ↔ b < a) : Decides r [a] [b] := by
  by_cases hab : a = b
  · subst hab
    have h0 : r = 0 := by
      have h1 : ¬ r < 0 := fun h => lt_irrefl a (hlt.mp h)
      have h2 : ¬ 0 < r := fun h => lt_irrefl a (hgt.mp h)
      omega
    exact ⟨fun _ => rfl, fun h => by omega, fun h => by omega⟩
  · exact decides_head hlt hgt hab [] []

/-- Piece by piece. -/
lemma Decides.append (h : Decides r u v) (h' : r = 0 → Decides r' u' v') :
    Decides (andThen r r') (u ++ u') (v ++ v') := by
  by_cases hr : r = 0
  · obtain rfl := h.eq hr
    subst hr
    refine ⟨fun h0 => by rw [(h' rfl).eq h0], fun hlt x y => ?_, fun hgt x y => ?_⟩
    · rw [List.append_assoc, List.append_assoc]
      exact List.Lex.append_left _ ((h' rfl).lt hlt x y) u
    · rw [List.append_assoc, List.append_assoc]
      exact List.Lex.append_left _ ((h' rfl).gt hgt x y) u
  · rw [andThen_of_ne hr]
    refine ⟨fun h0 => absurd h0 hr, fun hlt x y => ?_, fun hgt x y => ?_⟩
    · rw [List.append_assoc, List.append_assoc]
      exact h.lt hlt _ _
    · rw [List.append_assoc, List.append_assoc]
      exact h.gt hgt _ _

lemma Decides.cons (a : τ) (h : Decides r u v) : Decides r (a :: u) (a :: v) := by
  have hself : Decides 0 [a] [a] := decides_singleton (by simp) (by simp)
  exact hself.append fun _ => h

lemma Decides.lt_iff (h : Decides r u v) : r < 0 ↔ u < v := by
  have hlt := fun h0 => h.lt h0 [] []
  have hgt := fun h0 => h.gt h0 [] []
  simp only [List.append_nil] at hlt hgt
  refine ⟨hlt, fun huv => ?_⟩
  by_contra hr
  rcases (not_lt.mp hr).lt_or_eq with hpos | hzero
  · exact lt_asymm huv (hgt hpos)
  · exact huv.ne (h.eq hzero.symm)

lemma Decides.gt_iff (h : Decides r u v) : 0 < r ↔ v < u := by
  have hlt := fun h0 => h.lt h0 [] []
  have hgt := fun h0 => h.gt h0 [] []
  simp only [List.append_nil] at hlt hgt
  refine ⟨hgt, fun hvu => ?_⟩
  by_contra hr
  rcases (not_lt.mp hr).lt_or_eq with hneg | hzero
  · exact lt_asymm hvu (hlt hneg)
  · exact hvu.ne' (h.eq hzero)

/-- A comparator that agrees with the order of ranks is a total preorder. -/
theorem TotalPreorder.of_decides {cmp : α → α → ℤ} (rank : α → List τ)
    (h : ∀ a b, Decides (cmp a b) (rank a) (rank b)) : TotalPreorder cmp := by
  have hle : ∀ a b, cmp a b ≤ 0 ↔ rank a ≤ rank b := fun a b => by
    rw [← not_lt, ← not_lt, (h a b).gt_iff]
  refine ⟨fun a => ?_, fun a b => ?_, fun a b c hab hbc => ?_⟩
  · have hlt := mt (h a a).lt_iff.mp (lt_irrefl _)
    have hgt := mt (h a a).gt_iff.mp (lt_irrefl _)
    omega
  · rcases lt_trichotomy (rank a) (rank b) with hlt | heq | hgt
    · rw [Int.sign_eq_neg_one_of_neg ((h a b).lt_iff.mpr hlt),
        Int.sign_eq_one_of_pos ((h b a).gt_iff.mpr hlt)]
    · have hab : cmp a b = 0 := by
        have hlt := mt (h a b).lt_iff.mp heq.not_lt
        have hgt := mt (h a b).gt_iff.mp heq.not_gt
        omega
      have hba : cmp b a = 0 := by
        have hlt := mt (h b a).lt_iff.mp heq.not_gt
        have hgt := mt (h b a).gt_iff.mp heq.not_lt
        omega
      rw [hab, hba]
      rfl
    · rw [Int.sign_eq_one_of_pos ((h a b).gt_iff.mpr hgt),
        Int.sign_eq_neg_one_of_neg ((h b a).lt_iff.mpr hgt)]
      rfl
  · exact (hle a c).mpr (((hle a b).mp hab).trans ((hle b c).mp hbc))

end Decides

/-- The ranks of a string, with an end mark below every character. -/
def delimited (f : τ → ℕ) (l : List τ) : List ℤ := l.map (fun c => (f c : ℤ) + 1) ++ [0]

lemma decides_lexCompare [LT τ] [DecidableLT τ] {f : τ → ℕ} (hf : ∀ a b, a < b ↔ f a < f b)
    (hinj : Function.Injective f) (l l' : List τ) :
    Decides (lexCompare l l') (delimited f l) (delimited f l') := by
  induction l generalizing l' with
  | nil =>
    cases l' with
    | nil => exact decides_singleton (by simp [lexCompare]) (by simp [lexCompare])
    | cons b bs =>
      refine decides_head ?_ ?_ ?_ [] _ <;> simp only [lexCompare] <;> omega
  | cons a as ih =>
    cases l' with
    | nil => refine decides_head ?_ ?_ ?_ _ [] <;> simp only [lexCompare] <;> omega
    | cons b bs =>
      simp only [lexCompare]
      split_ifs with hlt hgt
      · have := (hf a b).mp hlt
        refine decides_head ?_ ?_ ?_ _ _ <;> dsimp only <;> omega
      · have := (hf b a).mp hgt
        refine decides_head ?_ ?_ ?_ _ _ <;> dsimp only <;> omega
      · rw [hf] at hlt hgt
        obtain rfl : a = b := hinj (by omega)
        exact (ih bs).cons _

lemma neg_lexCompare [LT τ] [DecidableLT τ] {f : τ → ℕ} (hf : ∀ a b, a < b ↔ f a < f b)
    (l l' : List τ) : -lexCompare l l' = lexCompare l' l := by
  induction l generalizing l' with
  | nil => cases l' <;> rfl
  | cons a as ih =>
    cases l' with
    | nil => rfl
    | cons b bs =>
      simp only [lexCompare, hf, ← ih]
      split_ifs <;> omega

lemma lexCompare_eq_zero [LT τ] [DecidableLT τ] {f : τ → ℕ} (hf : ∀ a b, a < b ↔ f a < f b)
    (hinj : Function.Injective f) {l l' : List τ} : lexCompare l l' = 0 ↔ l = l' := by
  induction l generalizing l' with
  | nil => cases l' <;> simp [lexCompare]
  | cons a as ih =>
    cases l' with
    | nil => simp [lexCompare]
    | cons b bs =>
      have heq : a = b ↔ f a = f b := hinj.eq_iff.symm
      simp only [lexCompare, hf, List.cons.injEq, heq, ← ih]
      split_ifs <;> simp <;> omega

end Chromium.Comparator
