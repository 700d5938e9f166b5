import Mathlib.Algebra.BigOperators.Fin
import Mathlib.Algebra.Order.Group.Multiset
import Mathlib.Algebra.BigOperators.Group.Multiset.Basic
import Mathlib.Tactic

/-!
# Priority queues

A list of values for each priority, with pointers to the values. An element has a number of its
own, as in a debug build, so that a pointer to an element that is gone is valid for no other.
-/
namespace Chromium.PriorityQueue

variable {n : ℕ} {T : Type}

/-- A sum over a family that changes at one place. -/
lemma sum_update {ι α M : Type*} [Fintype ι] [DecidableEq ι] [AddCommMonoid M] (f : α → M)
    (g : ι → α) (i : ι) (a : α) :
    ∑ j, f (Function.update g i a j) + f (g i) = ∑ j, f (g j) + f a := by
  have hrest : ∑ j ∈ Finset.univ.erase i, f (Function.update g i a j) =
      ∑ j ∈ Finset.univ.erase i, f (g j) := by
    refine Finset.sum_congr rfl fun j hj => ?_
    rw [Function.update_of_ne (Finset.ne_of_mem_erase hj)]
  rw [← Finset.add_sum_erase _ (fun j => f (Function.update g i a j)) (Finset.mem_univ i),
    ← Finset.add_sum_erase _ (fun j => f (g j)) (Finset.mem_univ i), hrest, Function.update_self]
  abel

structure Element (T : Type) where
  id : ℕ
  value : T
  deriving DecidableEq

/-- A pointer that is not null. -/
structure Pointer (n : ℕ) where
  priority : Fin n
  id : ℕ
  deriving DecidableEq

structure Queue (n : ℕ) (T : Type) where
  lists : Fin n → List (Element T)
  size : ℕ
  nextId : ℕ
  size_eq : size = ∑ p, (lists p).length
  id_lt : ∀ p, ∀ e ∈ lists p, e.id < nextId
  nodup : ∀ p, ((lists p).map Element.id).Nodup

namespace Queue

/-- The queue without values. -/
def new (n : ℕ) : Queue n T := ⟨fun _ => [], 0, 0, by simp, by simp, by simp⟩

lemma nodup_cons_new (q : Queue n T) (p : Fin n) :
    (q.nextId :: (q.lists p).map Element.id).Nodup := by
  refine List.nodup_cons.mpr ⟨fun hmem => ?_, q.nodup p⟩
  obtain ⟨e, he, hid⟩ := List.mem_map.mp hmem
  have := q.id_lt p e he
  omega

/-- One list with a new element in it. -/
def put (q : Queue n T) (value : T) (p : Fin n) (es : List (Element T))
    (h : es.Perm (⟨q.nextId, value⟩ :: q.lists p)) : Queue n T where
  lists := Function.update q.lists p es
  size := q.size + 1
  nextId := q.nextId + 1
  size_eq := by
    have hsum := sum_update List.length q.lists p es
    have hsize := q.size_eq
    rw [h.length_eq, List.length_cons] at hsum
    omega
  id_lt := by
    intro r e he
    by_cases hr : r = p
    · subst hr
      rw [Function.update_self, h.mem_iff, List.mem_cons] at he
      rcases he with rfl | he
      · exact Nat.lt_succ_self _
      · exact Nat.lt_succ_of_lt (q.id_lt r e he)
    · rw [Function.update_of_ne hr] at he
      exact Nat.lt_succ_of_lt (q.id_lt r e he)
  nodup := by
    intro r
    by_cases hr : r = p
    · subst hr
      rw [Function.update_self, (h.map Element.id).nodup_iff]
      exact q.nodup_cons_new r
    · rw [Function.update_of_ne hr]
      exact q.nodup r

/-- Adds `value` with `priority` behind the others. -/
def insert (q : Queue n T) (value : T) (priority : Fin n) : Pointer n × Queue n T :=
  (⟨priority, q.nextId⟩,
    q.put value priority (q.lists priority ++ [⟨q.nextId, value⟩])
      (List.perm_append_singleton _ _))

def insertAtFront (q : Queue n T) (value : T) (priority : Fin n) : Pointer n × Queue n T :=
  (⟨priority, q.nextId⟩, q.put value priority (⟨q.nextId, value⟩ :: q.lists priority) (.refl _))

/-- The element is still in its list. -/
def Holds (q : Queue n T) (pointer : Pointer n) : Prop :=
  pointer.id ∈ (q.lists pointer.priority).map Element.id

instance (q : Queue n T) (pointer : Pointer n) : Decidable (q.Holds pointer) :=
  inferInstanceAs (Decidable (_ ∈ _))

/-- `pointer.value()`. -/
def value (q : Queue n T) (pointer : Pointer n) : Option T :=
  ((q.lists pointer.priority).find? fun e => e.id = pointer.id).map Element.value

/-- Removes the element of the pointer, which has to be there. -/
def erase (q : Queue n T) (pointer : Pointer n) : Option (Queue n T) :=
  if h : q.Holds pointer then
    some {
      lists := Function.update q.lists pointer.priority
        ((q.lists pointer.priority).eraseP fun e => e.id = pointer.id)
      size := q.size - 1
      nextId := q.nextId
      size_eq := by
        obtain ⟨e, he, hid⟩ := List.mem_map.mp h
        have hsum := sum_update List.length q.lists pointer.priority
          ((q.lists pointer.priority).eraseP fun e => e.id = pointer.id)
        have hlength := List.length_eraseP_of_mem he (p := fun e => e.id = pointer.id) (by simpa)
        have hpos := List.length_pos_of_mem he
        have hsize := q.size_eq
        omega
      id_lt := by
        intro r e he
        by_cases hr : r = pointer.priority
        · subst hr
          rw [Function.update_self] at he
          exact q.id_lt _ e (List.mem_of_mem_eraseP he)
        · rw [Function.update_of_ne hr] at he
          exact q.id_lt r e he
      nodup := by
        intro r
        by_cases hr : r = pointer.priority
        · subst hr
          rw [Function.update_self]
          exact (q.nodup _).sublist ((List.eraseP_sublist).map _)
        · rw [Function.update_of_ne hr]
          exact q.nodup r }
  else none

/-- A pointer to the first value of this priority. -/
def front (q : Queue n T) (priority : Fin n) : Option (Pointer n) :=
  (q.lists priority).head?.map fun e => ⟨priority, e.id⟩

/-- A pointer to the first value of minimum priority. -/
def firstMin (q : Queue n T) : Option (Pointer n) := (List.finRange n).findSome? q.front

/-- A pointer to the first value of maximum priority. -/
def firstMax (q : Queue n T) : Option (Pointer n) := (List.finRange n).reverse.findSome? q.front

/-- All values that are in the queue. -/
def values (q : Queue n T) : Multiset T := ∑ p, ((q.lists p).map Element.value : Multiset T)

section Lemmas
variable {q r : Queue n T} {value : T} {p : Fin n} {pointer : Pointer n}

lemma values_put (es : List (Element T)) (h : es.Perm (⟨q.nextId, value⟩ :: q.lists p)) :
    (q.put value p es h).values = value ::ₘ q.values := by
  have hsum := sum_update (fun es : List (Element T) => (es.map Element.value : Multiset T))
    q.lists p es
  have hperm : (es.map Element.value : Multiset T) =
      value ::ₘ ((q.lists p).map Element.value : Multiset T) :=
    Multiset.coe_eq_coe.mpr (h.map Element.value)
  rw [hperm, Multiset.add_cons, ← Multiset.cons_add] at hsum
  exact add_right_cancel hsum

@[simp] lemma values_insert : (q.insert value p).2.values = value ::ₘ q.values :=
  values_put _ (List.perm_append_singleton _ _)

@[simp] lemma values_insertAtFront : (q.insertAtFront value p).2.values = value ::ₘ q.values :=
  values_put _ (.refl _)

lemma lists_insert : (q.insert value p).2.lists =
    Function.update q.lists p (q.lists p ++ [⟨q.nextId, value⟩]) := rfl

lemma lists_insertAtFront : (q.insertAtFront value p).2.lists =
    Function.update q.lists p (⟨q.nextId, value⟩ :: q.lists p) := rfl

@[simp] lemma values_new : (new n : Queue n T).values = 0 := by
  simp [values, new]

/-- The element of a pointer, and what is left when it is erased. -/
lemma Holds.split (h : q.Holds pointer) :
    ∃ e before behind, q.lists pointer.priority = before ++ e :: behind ∧ e.id = pointer.id ∧
      q.value pointer = some e.value ∧ ∃ r, q.erase pointer = some r ∧
        r.lists = Function.update q.lists pointer.priority (before ++ behind) := by
  have hmem := h
  rw [Holds, List.mem_map] at hmem
  obtain ⟨x, hx, hid⟩ := hmem
  obtain ⟨e, before, behind, hbefore, he, hlist, herase⟩ :=
    List.exists_of_eraseP (p := fun e => decide (e.id = pointer.id)) hx (by simpa using hid)
  have hnone : ∀ y ∈ before, ¬ decide (y.id = pointer.id) = true := hbefore
  refine ⟨e, before, behind, hlist, by simpa using he, ?_, _, dif_pos h, ?_⟩
  · rw [value, hlist, List.find?_append, List.find?_eq_none.mpr hnone, Option.none_or,
      List.find?_cons, he]
    rfl
  · dsimp only
    rw [herase]

lemma holds_of_erase (h : q.erase pointer = some r) : q.Holds pointer := by
  by_contra hnot
  rw [erase, dif_neg hnot] at h
  cases h

lemma values_of_erase (h : q.erase pointer = some r) (hvalue : q.value pointer = some value) :
    q.values = value ::ₘ r.values := by
  obtain ⟨e, before, behind, hlist, -, hval, r', hr', hlists⟩ := (holds_of_erase h).split
  obtain rfl : r' = r := Option.some.inj (hr'.symm.trans h)
  obtain rfl : e.value = value := Option.some.inj (hval.symm.trans hvalue)
  have hsum := sum_update (fun es : List (Element T) => (es.map Element.value : Multiset T))
    q.lists pointer.priority (before ++ behind)
  have hperm : ((q.lists pointer.priority).map Element.value : Multiset T) =
      e.value ::ₘ ((before ++ behind).map Element.value : Multiset T) := by
    rw [hlist]
    exact Multiset.coe_eq_coe.mpr (List.perm_middle.map Element.value)
  rw [hperm, Multiset.add_cons, ← Multiset.cons_add, ← hlists] at hsum
  exact (add_right_cancel hsum).symm

/-- Only lists that were not empty are not. -/
lemma ne_nil_of_erase (h : q.erase pointer = some r) {s : Fin n} (hs : r.lists s ≠ []) :
    q.lists s ≠ [] := by
  obtain ⟨e, before, behind, hlist, -, -, r', hr', hlists⟩ := (holds_of_erase h).split
  obtain rfl : r' = r := Option.some.inj (hr'.symm.trans h)
  by_cases heq : s = pointer.priority
  · rw [heq, hlist]
    simp
  · rwa [hlists, Function.update_of_ne heq] at hs

lemma front_eq_none : q.front p = none ↔ q.lists p = [] := by
  rw [front, Option.map_eq_none_iff, List.head?_eq_none_iff]

lemma firstMax_eq_none : q.firstMax = none ↔ ∀ p, q.lists p = [] := by
  simp [firstMax, front_eq_none]

lemma size_of_lists (h : ∀ p, q.lists p = []) : q.size = 0 := by
  rw [q.size_eq]
  simp [h]

lemma front_eq_some (h : q.front p = some pointer) :
    ∃ e behind, q.lists p = e :: behind ∧ pointer = ⟨p, e.id⟩ := by
  rw [front, Option.map_eq_some_iff] at h
  obtain ⟨e, he, rfl⟩ := h
  obtain ⟨behind, hlist⟩ := List.head?_eq_some_iff.mp he
  exact ⟨e, behind, hlist, rfl⟩

lemma holds_of_front (h : q.front p = some pointer) : q.Holds pointer := by
  obtain ⟨e, behind, hlist, rfl⟩ := front_eq_some h
  rw [Holds, hlist]
  exact List.mem_cons_self

lemma size_of_erase (h : q.erase pointer = some r) : r.size < q.size := by
  have hholds := holds_of_erase h
  rw [erase, dif_pos hholds] at h
  cases h
  have hpos : 0 < q.size := by
    rw [q.size_eq]
    refine Finset.sum_pos' (fun p _ => Nat.zero_le _) ⟨pointer.priority, Finset.mem_univ _, ?_⟩
    obtain ⟨e, he, -⟩ := List.mem_map.mp hholds
    exact List.length_pos_of_mem he
  exact Nat.sub_lt hpos Nat.one_pos

/-- The first element of a list is erased. -/
lemma erase_front (h : q.front p = some pointer) (herase : q.erase pointer = some r)
    (hvalue : q.value pointer = some value) :
    ∃ e behind, q.lists p = e :: behind ∧ e.value = value ∧
      r.lists = Function.update q.lists p behind := by
  have hholds := holds_of_front h
  obtain ⟨e, behind, hlist, rfl⟩ := front_eq_some h
  refine ⟨e, behind, hlist, ?_, ?_⟩
  · rw [Queue.value, hlist, List.find?_cons] at hvalue
    simpa using hvalue
  · rw [erase, dif_pos hholds] at herase
    cases herase
    dsimp only
    rw [hlist, List.eraseP_cons_of_pos (by simp)]

/-- The pointer is to the front of its list, and the lists of higher priority are empty. -/
lemma firstMax_eq_some (h : q.firstMax = some pointer) :
    q.front pointer.priority = some pointer ∧ ∀ s, pointer.priority < s → q.lists s = [] := by
  obtain ⟨higher, p, lower, hrange, hfront, hhigher⟩ := List.findSome?_eq_some_iff.mp h
  obtain ⟨e, behind, hlist, rfl⟩ := front_eq_some hfront
  refine ⟨hfront, fun s hs => ?_⟩
  have hsorted : (higher ++ p :: lower).Pairwise (· > ·) := by
    rw [← hrange, List.pairwise_reverse]
    exact List.pairwise_lt_finRange n
  have hmem : s ∈ higher ++ p :: lower := by
    rw [← hrange, List.mem_reverse]
    exact List.mem_finRange s
  rcases List.mem_append.mp hmem with hmem | hmem
  · exact front_eq_none.mp (hhigher s hmem)
  · exfalso
    rcases List.mem_cons.mp hmem with rfl | hmem
    · exact lt_irrefl _ hs
    · exact lt_asymm hs ((List.pairwise_cons.mp (List.pairwise_append.mp hsorted).2.1).1 s hmem)

lemma holds_of_firstMin (h : q.firstMin = some pointer) : q.Holds pointer := by
  obtain ⟨_, p, _, _, hfront, _⟩ := List.findSome?_eq_some_iff.mp h
  exact holds_of_front hfront

end Lemmas

end Queue

end Chromium.PriorityQueue
