import Chromium.ListMoves

/-!
# Selected, active and anchor index

Which rows of a list are selected, and how the indices follow when rows come, go
and move.
-/
namespace Chromium.ListSelection

open ListMoves

/-- Stands for no selection. -/
def kUnselectedIndex : ℤ := -1

/-- The selected indices in ascending order, the active one and the anchor. -/
structure ListSelectionModel where
  selectedIndices : List ℤ := []
  active : ℤ := kUnselectedIndex
  anchor : ℤ := kUnselectedIndex
  deriving DecidableEq, Repr

def incrementFromImpl (index value : ℤ) : ℤ := if value ≥ index then value + 1 else value

/-- The new value, and whether it was the index itself. -/
def decrementFromImpl (index value : ℤ) : ℤ × Bool :=
  if value = index then (kUnselectedIndex, true)
  else if value > index then (value - 1, false)
  else (value, false)

namespace ListSelectionModel

section Operations
variable (m : ListSelectionModel)

def incrementFrom (index : ℤ) : ListSelectionModel where
  selectedIndices := m.selectedIndices.map (incrementFromImpl index)
  active := incrementFromImpl index m.active
  anchor := incrementFromImpl index m.anchor

def decrementFrom (index : ℤ) : ListSelectionModel where
  selectedIndices := m.selectedIndices.filterMap fun i =>
    if (decrementFromImpl index i).2 then none else some (decrementFromImpl index i).1
  active := (decrementFromImpl index m.active).1
  anchor := (decrementFromImpl index m.anchor).1

def setSelectedIndex (index : ℤ) : ListSelectionModel where
  selectedIndices := if index ≠ kUnselectedIndex then [index] else []
  active := index
  anchor := index

def isSelected (index : ℤ) : Bool := index ∈ m.selectedIndices

def addIndexToSelection (index : ℤ) : ListSelectionModel :=
  if m.isSelected index then m
  else { m with selectedIndices := (m.selectedIndices ++ [index]).insertionSort (· ≤ ·) }

def removeIndexFromSelection (index : ℤ) : ListSelectionModel :=
  { m with selectedIndices := m.selectedIndices.erase index }

/-- The indices from the anchor to the given one, whichever comes first. -/
def fromAnchorTo (index : ℤ) : List ℤ :=
  (List.range ((index - m.anchor).natAbs + 1)).map fun i : ℕ => (i : ℤ) + min index m.anchor

def setSelectionFromAnchorTo (index : ℤ) : ListSelectionModel :=
  if m.anchor = kUnselectedIndex then setSelectedIndex index
  else { m with selectedIndices := m.fromAnchorTo index, active := index }

def addSelectionFromAnchorTo (index : ℤ) : ListSelectionModel :=
  if m.anchor = kUnselectedIndex then setSelectedIndex index
  else
    let added := (m.fromAnchorTo index).foldl
      (fun selected i => if i ∈ selected then selected else selected ++ [i]) m.selectedIndices
    { m with selectedIndices := added.insertionSort (· ≤ ·), active := index }

/-- A row moves; a move to a greater index counts as if the row were taken out first. -/
def move (fromIndex toIndex : ℤ) : ListSelectionModel :=
  let wasAnchor := fromIndex = m.anchor
  let wasActive := fromIndex = m.active
  let wasSelected := m.isSelected fromIndex
  let m := if toIndex < fromIndex then (m.incrementFrom toIndex).decrementFrom (fromIndex + 1)
    else (m.decrementFrom fromIndex).incrementFrom toIndex
  let m := if wasActive then { m with active := toIndex } else m
  let m := if wasAnchor then { m with anchor := toIndex } else m
  if wasSelected then m.addIndexToSelection toIndex else m

def clear : ListSelectionModel := {}

end Operations

/-! ### Which indices are selected -/

lemma decrementFromImpl_of_lt {index v : ℤ} (h : v < index) :
    decrementFromImpl index v = (v, false) := by
  rw [decrementFromImpl, if_neg h.ne, if_neg h.asymm]

lemma decrementFromImpl_self (index : ℤ) :
    decrementFromImpl index index = (kUnselectedIndex, true) := if_pos rfl

lemma decrementFromImpl_of_gt {index v : ℤ} (h : index < v) :
    decrementFromImpl index v = (v - 1, false) := by
  rw [decrementFromImpl, if_neg h.ne', if_pos h]

@[simp] lemma isSelected_iff {m : ListSelectionModel} {k : ℤ} :
    m.isSelected k = true ↔ k ∈ m.selectedIndices := by
  rw [isSelected, decide_eq_true_iff]

variable {m : ListSelectionModel} {n : ℕ} {k index : ℤ}

lemma mem_incrementFrom :
    k ∈ (m.incrementFrom index).selectedIndices ↔
      (k < index ∧ k ∈ m.selectedIndices) ∨ (index < k ∧ k - 1 ∈ m.selectedIndices) := by
  rw [incrementFrom, List.mem_map]
  constructor
  · rintro ⟨v, hv, rfl⟩
    unfold incrementFromImpl
    split_ifs with hge
    · exact .inr ⟨by omega, by simpa using hv⟩
    · exact .inl ⟨by omega, hv⟩
  · rintro (⟨hlt, hk⟩ | ⟨hgt, hk⟩)
    · exact ⟨k, hk, if_neg (by omega)⟩
    · refine ⟨k - 1, hk, ?_⟩
      rw [incrementFromImpl, if_pos (by omega)]
      omega

lemma mem_decrementFrom :
    k ∈ (m.decrementFrom index).selectedIndices ↔
      (k < index ∧ k ∈ m.selectedIndices) ∨ (index ≤ k ∧ k + 1 ∈ m.selectedIndices) := by
  rw [decrementFrom, List.mem_filterMap]
  constructor
  · rintro ⟨v, hv, hsome⟩
    rcases lt_trichotomy v index with hlt | rfl | hgt
    · rw [decrementFromImpl_of_lt hlt] at hsome
      cases hsome
      exact .inl ⟨hlt, hv⟩
    · rw [decrementFromImpl_self] at hsome
      cases hsome
    · rw [decrementFromImpl_of_gt hgt] at hsome
      cases hsome
      exact .inr ⟨by omega, by simpa using hv⟩
  · rintro (⟨hlt, hk⟩ | ⟨hge, hk⟩)
    · refine ⟨k, hk, ?_⟩
      rw [decrementFromImpl_of_lt hlt]
      rfl
    · refine ⟨k + 1, hk, ?_⟩
      rw [decrementFromImpl_of_gt (by omega), add_sub_cancel_right]
      rfl

lemma mem_addIndexToSelection :
    k ∈ (m.addIndexToSelection index).selectedIndices ↔ k = index ∨ k ∈ m.selectedIndices := by
  rw [addIndexToSelection]
  split_ifs with hselected
  · rw [isSelected_iff] at hselected
    constructor
    · exact .inr
    · rintro (rfl | hk)
      exacts [hselected, hk]
  · simp [or_comm]

@[simp] lemma addIndexToSelection_active :
    (m.addIndexToSelection index).active = m.active := by
  rw [addIndexToSelection]
  split_ifs <;> rfl

@[simp] lemma addIndexToSelection_anchor :
    (m.addIndexToSelection index).anchor = m.anchor := by
  rw [addIndexToSelection]
  split_ifs <;> rfl

lemma mem_fromAnchorTo :
    k ∈ m.fromAnchorTo index ↔ min index m.anchor ≤ k ∧ k ≤ max index m.anchor := by
  rw [fromAnchorTo, List.mem_map]
  constructor
  · rintro ⟨i, hi, rfl⟩
    rw [List.mem_range] at hi
    omega
  · intro hk
    refine ⟨(k - min index m.anchor).toNat, ?_, ?_⟩
    · rw [List.mem_range]
      omega
    · omega

/-! ### What a list of `n` rows admits -/

/-- Indices in ascending order, without repetition, of rows that exist. -/
structure Valid (n : ℕ) (m : ListSelectionModel) : Prop where
  sorted : m.selectedIndices.Pairwise (· < ·)
  selected : ∀ i ∈ m.selectedIndices, 0 ≤ i ∧ i < n
  active : -1 ≤ m.active ∧ m.active < n
  anchor : -1 ≤ m.anchor ∧ m.anchor < n

instance (n : ℕ) (m : ListSelectionModel) : Decidable (m.Valid n) :=
  decidable_of_iff (m.selectedIndices.Pairwise (· < ·) ∧
      (∀ i ∈ m.selectedIndices, 0 ≤ i ∧ i < n) ∧ (-1 ≤ m.active ∧ m.active < n) ∧
      -1 ≤ m.anchor ∧ m.anchor < n)
    ⟨fun h => ⟨h.1, h.2.1, h.2.2.1, h.2.2.2⟩, fun h => ⟨h.sorted, h.selected, h.active, h.anchor⟩⟩

lemma sorted_of_nodup {l : List ℤ} (h : l.Nodup) :
    (l.insertionSort (· ≤ ·)).Pairwise (· < ·) := by
  have hnodup : (l.insertionSort (· ≤ ·)).Nodup := (List.perm_insertionSort _ _).nodup_iff.mpr h
  exact ((List.pairwise_insertionSort (· ≤ ·) l).and hnodup).imp fun ⟨hle, hne⟩ =>
    lt_of_le_of_ne hle hne

lemma Valid.withActive {active anchor : ℤ} (hm : Valid n m) (hactive : -1 ≤ active ∧ active < n)
    (hanchor : -1 ≤ anchor ∧ anchor < n) :
    Valid n { m with active := active, anchor := anchor } :=
  ⟨hm.sorted, hm.selected, hactive, hanchor⟩

lemma Valid.clear (n : ℕ) : Valid n clear :=
  ⟨List.Pairwise.nil, by simp [ListSelectionModel.clear], by
    simp only [ListSelectionModel.clear, kUnselectedIndex]; omega, by
    simp only [ListSelectionModel.clear, kUnselectedIndex]; omega⟩

lemma Valid.setSelectedIndex (h : -1 ≤ index ∧ index < n) :
    Valid n (setSelectedIndex index) := by
  rw [ListSelectionModel.setSelectedIndex, kUnselectedIndex]
  split_ifs with hne
  · refine ⟨List.pairwise_singleton _ _, ?_, h, h⟩
    intro i hi
    rw [List.mem_singleton] at hi
    omega
  · exact ⟨List.Pairwise.nil, by simp, h, h⟩

lemma Valid.incrementFrom (hm : Valid n m) (index : ℤ) :
    Valid (n + 1) (m.incrementFrom index) := by
  have hvalue : ∀ v : ℤ, -1 ≤ v ∧ v < n →
      -1 ≤ incrementFromImpl index v ∧ incrementFromImpl index v < (n + 1 : ℕ) := by
    intro v hv
    unfold incrementFromImpl
    split_ifs <;> omega
  refine ⟨?_, ?_, hvalue _ hm.active, hvalue _ hm.anchor⟩
  · refine List.Pairwise.map _ (fun a b hlt => ?_) hm.sorted
    unfold incrementFromImpl
    split_ifs <;> omega
  · intro i hi
    rcases mem_incrementFrom.mp hi with ⟨hlt, hi⟩ | ⟨hgt, hi⟩
    · have := hm.selected _ hi
      omega
    · have := hm.selected _ hi
      omega

lemma Valid.decrementFrom (hm : Valid (n + 1) m) (h : 0 ≤ index ∧ index ≤ n) :
    Valid n (m.decrementFrom index) := by
  have hvalue : ∀ v : ℤ, -1 ≤ v ∧ v < (n + 1 : ℕ) →
      -1 ≤ (decrementFromImpl index v).1 ∧ (decrementFromImpl index v).1 < n := by
    intro v hv
    unfold decrementFromImpl kUnselectedIndex
    split_ifs <;> dsimp only <;> omega
  refine ⟨?_, ?_, hvalue _ hm.active, hvalue _ hm.anchor⟩
  · refine List.Pairwise.filterMap _ (fun a b hab a' ha b' hb => ?_) hm.sorted
    rcases lt_trichotomy a index with hlt | rfl | hgt
    · rw [decrementFromImpl_of_lt hlt] at ha
      cases ha
      rcases lt_trichotomy b index with hlt' | rfl | hgt
      · rw [decrementFromImpl_of_lt hlt'] at hb
        cases hb
        exact hab
      · rw [decrementFromImpl_self] at hb
        cases hb
      · rw [decrementFromImpl_of_gt hgt] at hb
        cases hb
        dsimp only
        omega
    · rw [decrementFromImpl_self] at ha
      cases ha
    · rw [decrementFromImpl_of_gt hgt] at ha
      rw [decrementFromImpl_of_gt (by omega)] at hb
      cases ha
      cases hb
      dsimp only
      omega
  · intro i hi
    rcases mem_decrementFrom.mp hi with ⟨hlt, hi⟩ | ⟨hge, hi⟩
    · have := hm.selected _ hi
      omega
    · have := hm.selected _ hi
      omega

lemma Valid.addIndexToSelection (hm : Valid n m) (h : 0 ≤ index ∧ index < n) :
    Valid n (m.addIndexToSelection index) := by
  refine ⟨?_, ?_, ?_, ?_⟩
  · rw [ListSelectionModel.addIndexToSelection]
    split_ifs with hselected
    · exact hm.sorted
    · rw [isSelected_iff] at hselected
      refine sorted_of_nodup (List.nodup_append.mpr ⟨hm.sorted.imp ne_of_lt, by simp, ?_⟩)
      rintro a ha b hb rfl
      rw [List.mem_singleton] at hb
      exact hselected (hb ▸ ha)
  · intro i hi
    rcases mem_addIndexToSelection.mp hi with rfl | hi
    exacts [h, hm.selected i hi]
  · rw [addIndexToSelection_active]
    exact hm.active
  · rw [addIndexToSelection_anchor]
    exact hm.anchor

lemma Valid.removeIndexFromSelection (hm : Valid n m) (index : ℤ) :
    Valid n (m.removeIndexFromSelection index) :=
  ⟨hm.sorted.sublist List.erase_sublist, fun i hi => hm.selected i (List.mem_of_mem_erase hi),
    hm.active, hm.anchor⟩

lemma Valid.setSelectionFromAnchorTo (hm : Valid n m) (h : 0 ≤ index ∧ index < n) :
    Valid n (m.setSelectionFromAnchorTo index) := by
  rw [ListSelectionModel.setSelectionFromAnchorTo]
  split_ifs with hanchor
  · exact .setSelectedIndex ⟨by omega, h.2⟩
  · rw [kUnselectedIndex] at hanchor
    have hbounds := hm.anchor
    refine ⟨?_, ?_, ⟨by dsimp only; omega, h.2⟩, hm.anchor⟩
    · refine List.Pairwise.map _ (fun a b hlt => ?_) List.pairwise_lt_range
      omega
    · intro i hi
      have := mem_fromAnchorTo.mp hi
      omega

lemma Valid.addSelectionFromAnchorTo (hm : Valid n m) (h : 0 ≤ index ∧ index < n) :
    Valid n (m.addSelectionFromAnchorTo index) := by
  have hfold : ∀ added selected : List ℤ, selected.Nodup →
      (∀ i ∈ selected, 0 ≤ i ∧ i < (n : ℤ)) → (∀ i ∈ added, 0 ≤ i ∧ i < (n : ℤ)) →
      let r := added.foldl
        (fun selected i => if i ∈ selected then selected else selected ++ [i]) selected
      r.Nodup ∧ ∀ i ∈ r, 0 ≤ i ∧ i < (n : ℤ) := by
    intro added
    induction added with
    | nil => exact fun selected hnodup hin _ => ⟨hnodup, hin⟩
    | cons x added ih =>
      intro selected hnodup hin hadded
      rw [List.foldl_cons]
      rw [List.forall_mem_cons] at hadded
      split_ifs with hx
      · exact ih selected hnodup hin hadded.2
      · refine ih _ (List.nodup_append.mpr ⟨hnodup, by simp, ?_⟩) ?_ hadded.2
        · rintro a ha b hb rfl
          rw [List.mem_singleton] at hb
          exact hx (hb ▸ ha)
        · intro i hi
          rcases List.mem_append.mp hi with hi | hi
          · exact hin i hi
          · rw [List.mem_singleton] at hi
            exact hi ▸ hadded.1
  rw [ListSelectionModel.addSelectionFromAnchorTo]
  split_ifs with hanchor
  · exact .setSelectedIndex ⟨by omega, h.2⟩
  · rw [kUnselectedIndex] at hanchor
    have hbounds := hm.anchor
    obtain ⟨hnodup, hin⟩ := hfold (m.fromAnchorTo index) m.selectedIndices
      (hm.sorted.imp ne_of_lt) hm.selected fun i hi => by
        have := mem_fromAnchorTo.mp hi
        omega
    exact ⟨sorted_of_nodup hnodup, fun i hi => hin i (by simpa using hi),
      ⟨by dsimp only; omega, h.2⟩, hm.anchor⟩

/-! ### Moves -/

/-- The indices after a move, before those of the moved row are put right. -/
def shifted (m : ListSelectionModel) (fromIndex toIndex : ℤ) : ListSelectionModel :=
  if toIndex < fromIndex then (m.incrementFrom toIndex).decrementFrom (fromIndex + 1)
  else (m.decrementFrom fromIndex).incrementFrom toIndex

/-- The same for the active index and the anchor. -/
def shiftedValue (fromIndex toIndex value : ℤ) : ℤ :=
  if toIndex < fromIndex then
    (decrementFromImpl (fromIndex + 1) (incrementFromImpl toIndex value)).1
  else incrementFromImpl toIndex (decrementFromImpl fromIndex value).1

section Move
variable {i j : ℕ}

lemma Valid.shifted (hm : Valid n m) (hi : i < n) (hj : j < n) : Valid n (m.shifted i j) := by
  obtain ⟨n, rfl⟩ : ∃ n', n = n' + 1 := ⟨n - 1, by omega⟩
  rw [ListSelectionModel.shifted]
  split_ifs with hlt
  · exact (hm.incrementFrom j).decrementFrom (by omega)
  · exact (hm.decrementFrom (by omega)).incrementFrom j

/-- The row that moves is selected afresh, the others are where they moved to. -/
lemma mem_shifted (m : ListSelectionModel) (i j k : ℕ) :
    (k : ℤ) ∈ (m.shifted i j).selectedIndices ↔
      k ≠ j ∧ (source i j k : ℤ) ∈ m.selectedIndices := by
  rw [shifted]
  split_ifs with hlt
  · rw [mem_decrementFrom, mem_incrementFrom, mem_incrementFrom]
    have hback : (k : ℤ) + 1 - 1 = k := by omega
    rw [hback]
    unfold source
    split_ifs with h1 h2 h3
    · simp only [h1]; omega
    · omega
    · have hcast : ((k - 1 : ℕ) : ℤ) = k - 1 := by omega
      rw [hcast]
      constructor
      · rintro (⟨-, ⟨hk, -⟩ | ⟨-, hk⟩⟩ | ⟨hk, -⟩) <;> first | omega | exact ⟨h1, hk⟩
      · exact fun hk => .inl ⟨by omega, .inr ⟨by omega, hk.2⟩⟩
    · constructor
      · rintro (⟨hle, ⟨-, hk⟩ | ⟨hgt, -⟩⟩ | ⟨hge, ⟨hlt', -⟩ | ⟨-, hk⟩⟩) <;>
          first | omega | exact ⟨h1, hk⟩
      · intro hk
        rcases Nat.lt_or_ge k j with hkj | hkj
        · exact .inl ⟨by omega, .inl ⟨by omega, hk.2⟩⟩
        · exact .inr ⟨by omega, .inr ⟨by omega, hk.2⟩⟩
  · rw [mem_incrementFrom, mem_decrementFrom, mem_decrementFrom]
    have hback : (k : ℤ) - 1 + 1 = k := by omega
    rw [hback]
    unfold source
    split_ifs with h1 h2 h3
    · simp only [h1]; omega
    · have hcast : ((k + 1 : ℕ) : ℤ) = k + 1 := by omega
      rw [hcast]
      constructor
      · rintro (⟨-, ⟨hk, -⟩ | ⟨-, hk⟩⟩ | ⟨hk, -⟩) <;> first | omega | exact ⟨h1, hk⟩
      · exact fun hk => .inl ⟨by omega, .inr ⟨by omega, hk.2⟩⟩
    · omega
    · constructor
      · rintro (⟨hle, ⟨-, hk⟩ | ⟨hgt, -⟩⟩ | ⟨hge, ⟨hlt', -⟩ | ⟨-, hk⟩⟩) <;>
          first | omega | exact ⟨h1, hk⟩
      · intro hk
        rcases Nat.lt_or_ge k i with hki | hki
        · exact .inl ⟨by omega, .inl ⟨by omega, hk.2⟩⟩
        · exact .inr ⟨by omega, .inr ⟨by omega, hk.2⟩⟩

lemma shiftedValue_eq_iff {v : ℤ} (hv : v ≠ i) (k : ℕ) :
    shiftedValue i j v = k ↔ v = source i j k := by
  unfold shiftedValue source incrementFromImpl decrementFromImpl
  split_ifs <;> dsimp only <;> omega

lemma shifted_active (m : ListSelectionModel) (i j : ℤ) :
    (m.shifted i j).active = shiftedValue i j m.active := by
  rw [shifted, shiftedValue]
  split_ifs <;> rfl

lemma shifted_anchor (m : ListSelectionModel) (i j : ℤ) :
    (m.shifted i j).anchor = shiftedValue i j m.anchor := by
  rw [shifted, shiftedValue]
  split_ifs <;> rfl

/-- The active index and the anchor follow, those of the moved row too. -/
def moved (m : ListSelectionModel) (fromIndex toIndex : ℤ) : ListSelectionModel where
  selectedIndices := (m.shifted fromIndex toIndex).selectedIndices
  active := if fromIndex = m.active then toIndex else shiftedValue fromIndex toIndex m.active
  anchor := if fromIndex = m.anchor then toIndex else shiftedValue fromIndex toIndex m.anchor

lemma move_eq (m : ListSelectionModel) (i j : ℤ) :
    m.move i j =
      if m.isSelected i then (m.moved i j).addIndexToSelection j else m.moved i j := by
  rw [moved, ← shifted_active, ← shifted_anchor, move, shifted]
  split_ifs <;> rfl

lemma Valid.moved (hm : Valid n m) (hi : i < n) (hj : j < n) : Valid n (m.moved i j) := by
  have hshifted := hm.shifted hi hj
  have hactive := hshifted.active
  have hanchor := hshifted.anchor
  rw [shifted_active] at hactive
  rw [shifted_anchor] at hanchor
  refine ⟨hshifted.sorted, hshifted.selected, ?_, ?_⟩ <;> rw [ListSelectionModel.moved] <;>
    dsimp only <;> split_ifs <;> omega

lemma Valid.move (hm : Valid n m) (hi : i < n) (hj : j < n) : Valid n (m.move i j) := by
  rw [move_eq]
  split_ifs
  · exact (hm.moved hi hj).addIndexToSelection (by omega)
  · exact hm.moved hi hj

/-- Each row is selected as the row that moved there was. -/
theorem mem_move (hij : i ≠ j) (k : ℕ) :
    (k : ℤ) ∈ (m.move i j).selectedIndices ↔ (source i j k : ℤ) ∈ m.selectedIndices := by
  have hmoved : (k : ℤ) ∈ (m.moved i j).selectedIndices ↔
      k ≠ j ∧ (source i j k : ℤ) ∈ m.selectedIndices := mem_shifted m i j k
  rw [move_eq]
  by_cases hk : k = j
  · subst hk
    rw [source_self] at hmoved ⊢
    split_ifs with hselected <;> rw [isSelected_iff] at hselected
    · simp [mem_addIndexToSelection, hselected]
    · simp [hmoved, hselected]
  · have hne : (k : ℤ) ≠ j := by omega
    split_ifs
    · rw [mem_addIndexToSelection, hmoved]
      simp [hk, hne]
    · rw [hmoved]
      simp [hk]

lemma moved_value (i j : ℕ) (v : ℤ) (k : ℕ) :
    (if (i : ℤ) = v then (j : ℤ) else shiftedValue i j v) = k ↔ v = source i j k := by
  split_ifs with hv
  · subst hv
    unfold source
    split_ifs <;> omega
  · exact shiftedValue_eq_iff (Ne.symm hv) k

theorem active_move (m : ListSelectionModel) (i j k : ℕ) :
    (m.move i j).active = k ↔ m.active = source i j k := by
  rw [← moved_value, move_eq]
  by_cases hselected : m.isSelected i = true
  · rw [if_pos hselected, addIndexToSelection_active, moved]
  · rw [if_neg hselected, moved]

theorem anchor_move (m : ListSelectionModel) (i j k : ℕ) :
    (m.move i j).anchor = k ↔ m.anchor = source i j k := by
  rw [← moved_value, move_eq]
  by_cases hselected : m.isSelected i = true
  · rw [if_pos hselected, addIndexToSelection_anchor, moved]
  · rw [if_neg hselected, moved]

end Move

end ListSelectionModel

end Chromium.ListSelection
