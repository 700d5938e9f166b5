import Mathlib.Data.List.Induction
import Mathlib.Tactic

/-!
# Loops over part of a memory

Memory is a list; a write outside it has no result. What a loop does to the part
it goes over is stated with the memory cut at the ends of that part.
-/
namespace Chromium.ListRegions

variable {α : Type*}

def store (mem : List α) (i : ℕ) (x : α) : Option (List α) :=
  if i < mem.length then some (mem.set i x) else none

/-- Every element from `i` on takes the one behind it, `n` times. -/
def shiftDown : ℕ → ℕ → List α → Option (List α)
  | 0, _, mem => some mem
  | n + 1, i, mem => do
    let next ← mem[i + 1]?
    let mem ← store mem i next
    shiftDown n (i + 1) mem

/-- The elements between `front` and `back` are exchanged from the ends on. -/
def reverseBetween : ℕ → ℕ → List α → Option (List α)
  | 0, _, mem => some mem
  | back + 1, front, mem =>
    if back > front then do
      let ch ← mem[back]?
      let other ← mem[front]?
      let mem ← store mem back other
      let mem ← store mem front ch
      reverseBetween back (front + 1) mem
    else some mem

section
variable (as bs : List α) (x y : α)

lemma getElem?_length : (as ++ x :: bs)[as.length]? = some x := by
  rw [List.getElem?_append_right le_rfl, Nat.sub_self, List.getElem?_cons_zero]

lemma store_length : store (as ++ x :: bs) as.length y = some (as ++ y :: bs) := by
  rw [store, if_pos (by simp), List.set_append_right _ _ le_rfl, Nat.sub_self, List.set_cons_zero]

end

lemma reverseBetween_of_le {back front : ℕ} {mem : List α} (h : back ≤ front + 1) :
    reverseBetween back front mem = some mem := by
  cases back with
  | zero => rfl
  | succ back => rw [reverseBetween, if_neg (by omega)]

theorem shiftDown_append (as : List α) (x : α) (ys bs : List α) :
    ∃ z, shiftDown ys.length as.length (as ++ x :: (ys ++ bs)) = some (as ++ ys ++ z :: bs) := by
  induction ys generalizing as x with
  | nil => exact ⟨x, by simp [shiftDown]⟩
  | cons y ys ih =>
    obtain ⟨z, hz⟩ := ih (as ++ [y]) y
    refine ⟨z, ?_⟩
    have hnext : (as ++ x :: (y :: ys ++ bs))[as.length + 1]? = some y := by
      have hcut : as ++ x :: (y :: ys ++ bs) = (as ++ [x]) ++ y :: (ys ++ bs) := by simp
      have hlength : as.length + 1 = (as ++ [x]).length := by simp
      rw [hcut, hlength]
      exact getElem?_length _ _ _
    rw [List.length_cons, shiftDown, hnext]
    simp only [Option.bind_eq_bind, Option.bind_some, store_length]
    have hlength : as.length + 1 = (as ++ [y]).length := by simp
    rw [hlength]
    simpa using hz

theorem reverseBetween_append (as xs bs : List α) :
    reverseBetween (as.length + xs.length) as.length (as ++ xs ++ bs) =
      some (as ++ xs.reverse ++ bs) := by
  induction xs using List.bidirectionalRec generalizing as bs with
  | nil => exact reverseBetween_of_le (Nat.le_succ _)
  | singleton x => exact reverseBetween_of_le le_rfl
  | cons_append x ys y ih =>
    have hback : as.length + (x :: (ys ++ [y])).length = (as ++ x :: ys).length + 1 := by
      simp
      omega
    have hcut : as ++ x :: (ys ++ [y]) ++ bs = (as ++ x :: ys) ++ y :: bs := by simp
    have hfront : (as ++ x :: ys) ++ y :: bs = as ++ x :: (ys ++ y :: bs) := by simp
    have hgt : (as ++ x :: ys).length > as.length := by simp
    rw [hback, reverseBetween, if_pos hgt, hcut, getElem?_length]
    simp only [Option.bind_eq_bind, Option.bind_some]
    conv_lhs => rw [hfront, getElem?_length, ← hfront]
    simp only [Option.bind_some, store_length]
    have hfront' : (as ++ x :: ys) ++ x :: bs = as ++ x :: (ys ++ x :: bs) := by simp
    rw [hfront', store_length]
    simp only [Option.bind_some]
    have hrest := ih (as ++ [y]) (x :: bs)
    have hback' : (as ++ [y]).length + ys.length = (as ++ x :: ys).length := by
      simp
      omega
    rw [hback'] at hrest
    simpa using hrest

end Chromium.ListRegions
