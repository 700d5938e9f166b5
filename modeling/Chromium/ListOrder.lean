import Mathlib.Data.List.Basic
import Mathlib.Tactic

/-!
# Lists in dictionary order

The order of two lists is decided by their first blocks, and behind equal blocks by what
comes after them. The blocks may be shorter than asked for at the end of a list.
-/
namespace Chromium.ListOrder

variable {α : Type*} [LT α] {xs ys us vs : List α}

lemma lt_iff_take_drop (n : ℕ) (xs ys : List α) :
    xs < ys ↔ xs.take n < ys.take n ∨ (xs.take n = ys.take n ∧ xs.drop n < ys.drop n) := by
  induction n generalizing xs ys with
  | zero => simp
  | succ n ih =>
    cases xs with
    | nil => cases ys <;> simp
    | cons x xs =>
      cases ys with
      | nil => simp
      | cons y ys =>
        simp only [List.take_succ_cons, List.drop_succ_cons, List.cons_lt_cons_iff,
          List.cons.injEq, ih xs ys]
        tauto

/-- Blocks of the same length are compared before what comes after them. -/
lemma append_lt_append_iff (h : us.length = vs.length) :
    us ++ xs < vs ++ ys ↔ us < vs ∨ (us = vs ∧ xs < ys) := by
  rw [lt_iff_take_drop us.length, List.take_left, List.drop_left, List.take_left' h.symm,
    List.drop_left' h.symm]

/-- Where the first `n` elements differ, they decide. -/
lemma take_lt_take (h : xs < ys) {n : ℕ} (hne : xs.take n ≠ ys.take n) :
    xs.take n < ys.take n :=
  ((lt_iff_take_drop n xs ys).mp h).resolve_right fun heq => hne heq.1

lemma lt_of_take_lt {n : ℕ} (h : xs.take n < ys.take n) : xs < ys :=
  (lt_iff_take_drop n xs ys).mpr (.inl h)

/-- A common front does not matter. -/
lemma append_left_lt_iff [Std.Irrefl ((· < ·) : α → α → Prop)] (us : List α) :
    us ++ xs < us ++ ys ↔ xs < ys := by
  rw [append_lt_append_iff rfl]
  constructor
  · rintro (hlt | ⟨-, hlt⟩)
    · exact absurd hlt (List.lt_irrefl us)
    · exact hlt
  · exact fun hlt => .inr ⟨rfl, hlt⟩

end Chromium.ListOrder
