import Mathlib.Data.List.Basic
import Mathlib.Order.Basic
import Mathlib.Tactic

/-!
# Ordered maps

A map that is gone through in the order of its keys, as a list of entries whose keys go
up. An entry that is inserted does not replace another one.
-/
namespace Chromium

structure SortedMap (κ α : Type*) [LinearOrder κ] where
  entries : List (κ × α)
  sorted : entries.Pairwise fun a b => a.1 < b.1

namespace SortedMap
variable {κ α : Type*} [LinearOrder κ] {m : SortedMap κ α} {j k : κ} {a : α}

instance : EmptyCollection (SortedMap κ α) := ⟨⟨[], .nil⟩⟩

instance [DecidableEq α] : DecidableEq (SortedMap κ α) := fun m m' =>
  decidable_of_iff (m.entries = m'.entries)
    ⟨fun h => by cases m; cases m'; cases h; rfl, fun h => congrArg entries h⟩

/-- The keys, from the least to the greatest. -/
def keys (m : SortedMap κ α) : List κ := m.entries.map Prod.fst

def insertEntry (k : κ) (a : α) : List (κ × α) → List (κ × α)
  | [] => [(k, a)]
  | e :: es => if k < e.1 then (k, a) :: e :: es else if k = e.1 then e :: es
    else e :: insertEntry k a es

lemma mem_insertEntry {e : κ × α} {es : List (κ × α)} (h : e ∈ insertEntry k a es) :
    e = (k, a) ∨ e ∈ es := by
  induction es with
  | nil => exact .inl (List.mem_singleton.mp h)
  | cons e' es ih =>
    rw [insertEntry] at h
    split_ifs at h with hlt heq
    · exact List.mem_cons.mp h
    · exact .inr h
    · rcases List.mem_cons.mp h with rfl | hmem
      · exact .inr List.mem_cons_self
      · exact (ih hmem).imp_right (List.mem_cons_of_mem e')

lemma sorted_insertEntry (k : κ) (a : α) {es : List (κ × α)}
    (h : es.Pairwise fun a b => a.1 < b.1) :
    (insertEntry k a es).Pairwise fun a b => a.1 < b.1 := by
  induction es with
  | nil => exact List.pairwise_singleton _ _
  | cons e es ih =>
    rw [insertEntry]
    split_ifs with hlt heq
    · rw [List.pairwise_cons]
      refine ⟨fun e' he' => ?_, h⟩
      rcases List.mem_cons.mp he' with rfl | hmem
      · exact hlt
      · exact hlt.trans (List.rel_of_pairwise_cons h hmem)
    · exact h
    · rw [List.pairwise_cons]
      refine ⟨fun e' he' => ?_, ih h.of_cons⟩
      rcases mem_insertEntry he' with rfl | hmem
      · exact lt_of_le_of_ne (not_lt.mp hlt) (Ne.symm heq)
      · exact List.rel_of_pairwise_cons h hmem

def insert (m : SortedMap κ α) (k : κ) (a : α) : SortedMap κ α :=
  ⟨insertEntry k a m.entries, sorted_insertEntry k a m.sorted⟩

def erase (m : SortedMap κ α) (k : κ) : SortedMap κ α :=
  ⟨m.entries.filter fun e => e.1 ≠ k, m.sorted.filter _⟩

def find (m : SortedMap κ α) (k : κ) : Option α := m.entries.lookup k

/-- The entry with the least key. -/
def first (m : SortedMap κ α) : Option (κ × α) := m.entries.head?

def size (m : SortedMap κ α) : ℕ := m.entries.length

lemma lookup_cons_eq (j : κ) (e : κ × α) (es : List (κ × α)) :
    (e :: es).lookup j = if j = e.1 then some e.2 else es.lookup j := by
  rw [List.lookup_cons]
  split_ifs with h
  · rw [h, beq_self_eq_true]
  · rw [beq_eq_false_iff_ne.mpr h]

lemma lookup_eq_some {es : List (κ × α)} (h : es.Pairwise fun a b => a.1 < b.1) :
    es.lookup k = some a ↔ (k, a) ∈ es := by
  induction es with
  | nil => simp
  | cons e es ih =>
    rw [lookup_cons_eq, List.mem_cons]
    split_ifs with heq
    · subst heq
      rw [Option.some.injEq]
      constructor
      · rintro rfl
        exact .inl rfl
      · rintro (heq | hmem)
        · rw [← heq]
        · exact absurd (List.rel_of_pairwise_cons h hmem) (lt_irrefl _)
    · rw [ih h.of_cons]
      constructor
      · exact .inr
      · rintro (rfl | hmem)
        · exact absurd rfl heq
        · exact hmem

lemma find_eq_some : m.find k = some a ↔ (k, a) ∈ m.entries := lookup_eq_some m.sorted

@[simp]
lemma find_empty : (∅ : SortedMap κ α).find k = none := rfl

lemma find_erase (m : SortedMap κ α) (j k : κ) :
    (m.erase k).find j = if j = k then none else m.find j := by
  ext a
  rw [find_eq_some, erase, List.mem_filter, ← find_eq_some]
  split_ifs with h
  · simp [h]
  · simp [h]

lemma lookup_of_lt {es : List (κ × α)} (h : ∀ e ∈ es, k < e.1) : es.lookup k = none := by
  rw [List.lookup_eq_none_iff]
  intro e he
  simpa using (h e he).ne

lemma lookup_insertEntry (j k : κ) (a : α) {es : List (κ × α)}
    (h : es.Pairwise fun a b => a.1 < b.1) :
    (insertEntry k a es).lookup j =
      if j = k then some ((es.lookup k).getD a) else es.lookup j := by
  induction es with
  | nil =>
    rw [insertEntry, lookup_cons_eq]
    rfl
  | cons e es ih =>
    rw [insertEntry]
    by_cases hlt : k < e.1
    · have hnone : (e :: es).lookup k = none := by
        apply lookup_of_lt
        intro e' he'
        rcases List.mem_cons.mp he' with rfl | hmem
        · exact hlt
        · exact hlt.trans (List.rel_of_pairwise_cons h hmem)
      rw [if_pos hlt, hnone, lookup_cons_eq]
      rfl
    rw [if_neg hlt]
    by_cases heq : k = e.1
    · rw [if_pos heq]
      by_cases hj : j = k
      · rw [if_pos hj, hj, lookup_cons_eq, if_pos heq]
        rfl
      · rw [if_neg hj]
    · rw [if_neg heq, lookup_cons_eq, ih h.of_cons, lookup_cons_eq k, if_neg heq, lookup_cons_eq]
      by_cases hj : j = k
      · rw [hj, if_neg heq, if_pos rfl, if_pos rfl]
      · rw [if_neg hj, if_neg hj]

lemma find_insert (m : SortedMap κ α) (j k : κ) (a : α) :
    (m.insert k a).find j = if j = k then some ((m.find k).getD a) else m.find j :=
  lookup_insertEntry j k a m.sorted

/-- An entry that replaces the one with its key. -/
def assign (m : SortedMap κ α) (k : κ) (a : α) : SortedMap κ α := (m.erase k).insert k a

lemma find_assign (m : SortedMap κ α) (j k : κ) (a : α) :
    (m.assign k a).find j = if j = k then some a else m.find j := by
  rw [assign, find_insert, find_erase, find_erase, if_pos rfl]
  split_ifs with h
  · rfl
  · rfl

/-- A key that is greater than all others goes to the end. -/
lemma entries_insert_of_lt (h : ∀ e ∈ m.entries, e.1 < k) :
    (m.insert k a).entries = m.entries ++ [(k, a)] := by
  obtain ⟨es, hsorted⟩ := m
  simp only [insert] at h ⊢
  clear hsorted
  induction es with
  | nil => rfl
  | cons e es ih =>
    rw [List.forall_mem_cons] at h
    rw [insertEntry, if_neg h.1.le.not_gt, if_neg h.1.ne', ih h.2, List.cons_append]

lemma first_eq_some : m.first = some (k, a) ↔
    m.find k = some a ∧ ∀ j b, m.find j = some b → k ≤ j := by
  obtain ⟨es, h⟩ := m
  simp only [find_eq_some, first]
  cases es with
  | nil => simp
  | cons e es =>
    have hle : ∀ e' ∈ es, e.1 < e'.1 := fun e' he' => List.rel_of_pairwise_cons h he'
    rw [List.head?_cons, Option.some.injEq]
    constructor
    · rintro rfl
      refine ⟨List.mem_cons_self, fun j b hmem => ?_⟩
      rcases List.mem_cons.mp hmem with heq | hlater
      · exact (congrArg Prod.fst heq).ge
      · exact (hle _ hlater).le
    · rintro ⟨hmem, hfirst⟩
      rcases List.mem_cons.mp hmem with heq | hlater
      · exact heq.symm
      · exact absurd (hfirst e.1 e.2 List.mem_cons_self) (not_le.mpr (hle _ hlater))

lemma size_erase (h : m.find k = some a) : (m.erase k).size < m.size := by
  rw [find_eq_some] at h
  apply List.length_filter_lt_length_iff_exists.mpr
  exact ⟨(k, a), h, by simp⟩

end SortedMap

end Chromium
