import Mathlib.Data.List.Sort
import Mathlib.Tactic

/-!
# Moves in a list

An element is taken out of a list and put back at another position. What stands
where afterwards is said once by positions, and once by the parts of the list.
-/
namespace Chromium.ListMoves

variable {α β : Type*}

/-- The element at `i` comes to stand at `j`. -/
def move (l : List α) (i j : ℕ) : List α :=
  match l[i]? with
  | none => l
  | some x => (l.eraseIdx i).insertIdx j x

/-- Where the element that a move brings to `k` stood before. -/
def source (i j k : ℕ) : ℕ :=
  if k = j then i
  else if i ≤ k ∧ k < j then k + 1
  else if j < k ∧ k ≤ i then k - 1
  else k

section Positions
variable {l : List α} {i j k n : ℕ}

@[simp] lemma source_self : source i j j = i := if_pos rfl

/-- The move back undoes it. -/
lemma source_source (i j k : ℕ) : source j i (source i j k) = k := by
  unfold source
  split_ifs <;> omega

lemma move_eq (hi : i < l.length) : move l i j = (l.eraseIdx i).insertIdx j l[i] := by
  rw [move, List.getElem?_eq_getElem hi]

@[simp] lemma length_move (hi : i < l.length) (hj : j < l.length) :
    (move l i j).length = l.length := by
  rw [move_eq hi, List.length_insertIdx, List.length_eraseIdx_of_lt hi]
  split_ifs <;> omega

/-- Each position shows what stood at its source. -/
theorem getElem?_move (hi : i < l.length) (hj : j < l.length) (k : ℕ) :
    (move l i j)[k]? = l[source i j k]? := by
  have hlength := List.length_eraseIdx_of_lt hi
  rw [move_eq hi, List.getElem?_insertIdx, List.getElem?_eraseIdx, List.getElem?_eraseIdx, source]
  split_ifs <;> first
    | omega
    | rfl
    | exact (List.getElem?_eq_getElem hi).symm
    | (congr 1; omega)

/-- A list with the right element at every position is the moved list. -/
theorem eq_move {l' : List α} (hi : i < l.length) (hj : j < l.length)
    (h : ∀ k, l'[k]? = l[source i j k]?) : l' = move l i j := by
  apply List.ext_getElem?
  intro k
  rw [h, getElem?_move hi hj]

lemma set_eq (hi : i < l.length) (x : α) : l.set i x = (l.eraseIdx i).insertIdx i x := by
  apply List.ext_getElem?
  intro k
  rw [List.getElem?_insertIdx, List.getElem?_set, List.length_eraseIdx_of_lt hi,
    List.getElem?_eraseIdx, List.getElem?_eraseIdx]
  split_ifs <;> first
    | omega
    | rfl
    | (congr 1; omega)

lemma move_set (hi : i < l.length) (x : α) (j : ℕ) :
    move (l.set i x) i j = (l.eraseIdx i).insertIdx j x := by
  rw [move, List.getElem?_set_self hi]
  dsimp only
  rw [List.eraseIdx_set_eq]

theorem perm_move (hi : i < l.length) (hj : j < l.length) : (move l i j).Perm l := by
  rw [move_eq hi]
  have hle : j ≤ (l.eraseIdx i).length := by
    rw [List.length_eraseIdx_of_lt hi]
    omega
  exact (List.perm_insertIdx _ _ hle).trans (List.getElem_cons_eraseIdx_perm hi)

end Positions

section Parts

/-- What is put in behind the first part. -/
lemma insertIdx_length_append (as bs : List α) (x : α) :
    (as ++ bs).insertIdx as.length x = as ++ x :: bs := by
  induction as with
  | nil => rfl
  | cons a as ih => rw [List.cons_append, List.length_cons, List.insertIdx_succ_cons, ih]; rfl

lemma eraseIdx_length_append (as bs : List α) (x : α) :
    (as ++ x :: bs).eraseIdx as.length = as ++ bs := by
  rw [List.eraseIdx_append_of_length_le le_rfl, Nat.sub_self, List.eraseIdx_cons_zero]

lemma getElem?_length_append (as bs : List α) (x : α) :
    (as ++ x :: bs)[as.length]? = some x := by
  rw [List.getElem?_append_right le_rfl, Nat.sub_self, List.getElem?_cons_zero]

theorem move_forward (as bs cs : List α) (x : α) :
    move (as ++ x :: (bs ++ cs)) as.length (as.length + bs.length) = as ++ bs ++ x :: cs := by
  rw [move, getElem?_length_append]
  dsimp only
  rw [eraseIdx_length_append, ← List.append_assoc, ← List.length_append, insertIdx_length_append]

theorem move_backward (as bs cs : List α) (x : α) :
    move (as ++ bs ++ x :: cs) (as.length + bs.length) as.length = as ++ x :: (bs ++ cs) := by
  rw [move, ← List.length_append, getElem?_length_append]
  dsimp only
  rw [eraseIdx_length_append, List.append_assoc, insertIdx_length_append]

end Parts

/-! ### Marked elements -/

section Marked
variable {p : α → Bool} {l : List α}

/-- The first marked element. -/
lemma exists_first (h : 0 < l.countP p) :
    ∃ as x bs, l = as ++ x :: bs ∧ (∀ a ∈ as, p a = false) ∧ p x = true := by
  induction l with
  | nil => simp at h
  | cons a l ih =>
    cases ha : p a with
    | true => exact ⟨[], a, l, rfl, by simp, ha⟩
    | false =>
      rw [List.countP_cons_of_neg (by simp [ha])] at h
      obtain ⟨as, x, bs, rfl, has, hx⟩ := ih h
      exact ⟨a :: as, x, bs, rfl, List.forall_mem_cons.mpr ⟨ha, has⟩, hx⟩

/-- A list is cut behind its `u`-th element without a mark. -/
lemma exists_cut {u : ℕ} (h : u ≤ l.countP fun x => !p x) :
    ∃ as bs, l = as ++ bs ∧ (as.countP fun x => !p x) = u ∧
      ∀ x, as.getLast? = some x → p x = false := by
  induction l generalizing u with
  | nil => exact ⟨[], [], rfl, (Nat.le_zero.mp h).symm, by simp⟩
  | cons a l ih =>
    rcases u with _ | u
    · exact ⟨[], a :: l, rfl, rfl, by simp⟩
    · cases ha : p a with
      | false =>
        rw [List.countP_cons_of_pos (by simp [ha])] at h
        obtain ⟨as, bs, rfl, hcount, hlast⟩ := ih (Nat.le_of_succ_le_succ h)
        refine ⟨a :: as, bs, rfl, by simp [ha, hcount], fun x hx => ?_⟩
        rcases as with _ | ⟨y, as⟩
        · cases hx
          exact ha
        · rw [List.getLast?_cons_cons] at hx
          exact hlast x hx
      | true =>
        rw [List.countP_cons_of_neg (by simp [ha])] at h
        obtain ⟨as, bs, rfl, hcount, hlast⟩ := ih h
        refine ⟨a :: as, bs, rfl, by simp [ha, hcount], fun x hx => ?_⟩
        rcases as with _ | ⟨y, as⟩
        · simp at hcount
        · rw [List.getLast?_cons_cons] at hx
          exact hlast x hx

lemma filter_eq_nil_of_forall {as : List α} (h : ∀ a ∈ as, p a = false) : as.filter p = [] := by
  simpa using h

lemma filter_not_eq_self {as : List α} (h : ∀ a ∈ as, p a = false) :
    as.filter (fun x => !p x) = as := by
  simpa using h

end Marked

end Chromium.ListMoves
