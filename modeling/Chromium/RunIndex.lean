import Mathlib.Tactic

/-!
# Runs in one array

Runs of items are stored one behind the other. The index keeps for each run its first value and
where its items begin; they end where those of the next run begin.
-/
namespace Chromium.RunIndex

variable {α β : Type*}

/-- The items of all runs. -/
def items (runs : List (α × List β)) : List β := runs.flatMap Prod.snd

/-- The index of the runs when `start` items stand before them. -/
def offsets : ℕ → List (α × List β) → List (α × ℕ)
  | _, [] => []
  | start, run :: runs => (run.1, start) :: offsets (start + run.2.length) runs

@[simp]
lemma items_nil : items ([] : List (α × List β)) = [] := rfl

@[simp]
lemma items_cons (run : α × List β) (runs : List (α × List β)) :
    items (run :: runs) = run.2 ++ items runs := by simp [items]

@[simp]
lemma items_append (xs ys : List (α × List β)) : items (xs ++ ys) = items xs ++ items ys := by
  simp [items]

lemma offsets_append (start : ℕ) (xs ys : List (α × List β)) :
    offsets start (xs ++ ys) = offsets start xs ++ offsets (start + (items xs).length) ys := by
  induction xs generalizing start with
  | nil => simp [offsets]
  | cons run xs ih =>
    have hstart : start + run.2.length + (items xs).length =
        start + (items (run :: xs)).length := by
      rw [items_cons, List.length_append]
      omega
    rw [List.cons_append, offsets, ih, hstart, offsets, List.cons_append]

@[simp]
lemma length_offsets (start : ℕ) (runs : List (α × List β)) :
    (offsets start runs).length = runs.length := by
  induction runs generalizing start with
  | nil => rfl
  | cons run runs ih => simp [offsets, ih]

/-- The entry of a run. -/
lemma getElem?_offsets (start : ℕ) (front : List (α × List β)) (run : α × List β)
    (back : List (α × List β)) :
    (offsets start (front ++ run :: back))[front.length]? =
      some (run.1, start + (items front).length) := by
  have hle : (offsets start front).length ≤ front.length := by rw [length_offsets]
  rw [offsets_append, List.getElem?_append_right hle, length_offsets, Nat.sub_self, offsets]
  rfl

/-- The entries behind a run. -/
lemma drop_offsets (start : ℕ) (front : List (α × List β)) (run : α × List β)
    (back : List (α × List β)) :
    (offsets start (front ++ run :: back)).drop (front.length + 1) =
      offsets (start + (items front).length + run.2.length) back := by
  have hlength : front.length + 1 = (offsets start front).length + 1 := by rw [length_offsets]
  rw [offsets_append, hlength, List.drop_length_add_append, offsets, List.drop_succ_cons,
    List.drop_zero]

/-- The first offset of an index, or `last` when there is none. -/
def firstOffset (last : ℕ) : List (α × ℕ) → ℕ
  | [] => last
  | entry :: _ => entry.2

/-- The items of the runs in front end where the next offset says. -/
lemma firstOffset_offsets (start : ℕ) (runs : List (α × List β)) :
    firstOffset (start + (items runs).length) (offsets start runs) = start := by
  cases runs with
  | nil => simp [offsets, firstOffset]
  | cons run runs => rfl

/-- The items between two offsets are those of the run. -/
lemma extract_run (front : List β) (run : List β) (back : List β) :
    (front ++ (run ++ back)).extract front.length (front.length + run.length) = run := by
  simp [List.extract]

end Chromium.RunIndex
