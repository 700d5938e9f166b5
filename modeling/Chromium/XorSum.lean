import Mathlib.Data.Finset.Fold
import Mathlib.Data.Finset.Option
import Mathlib.Tactic

/-!
# Sums with exclusive or

The exclusive or of the values of a function over a finite set. Each value is its own
inverse, so that a part of the set is taken out by adding it again.
-/
namespace Chromium.XorSum

variable {ι : Type*} {w : ℕ} {f : ι → BitVec w} {s t : Finset ι} {i : ι}

def xorSum (s : Finset ι) (f : ι → BitVec w) : BitVec w := s.fold (fun x y => x ^^^ y) 0#w f

@[simp]
lemma xorSum_empty : xorSum ∅ f = 0#w := Finset.fold_empty

lemma xorSum_insertNone (s : Finset ι) (f : Option ι → BitVec w) :
    xorSum s.insertNone f = f none ^^^ xorSum s fun i => f (some i) := by
  have hnone : none ∉ s.map Function.Embedding.some := by simp
  have hcons : s.insertNone = Finset.cons none (s.map Function.Embedding.some) hnone := rfl
  rw [xorSum, hcons, Finset.fold_cons, Finset.fold_map]
  rfl

variable [DecidableEq ι]

lemma xorSum_insert (hi : i ∉ s) : xorSum (insert i s) f = f i ^^^ xorSum s f :=
  Finset.fold_insert hi

lemma xorSum_eq_zero (h : ∀ i ∈ s, f i = 0#w) : xorSum s f = 0#w := by
  induction s using Finset.induction_on with
  | empty => exact xorSum_empty
  | insert i s hi ih =>
    rw [Finset.forall_mem_insert] at h
    rw [xorSum_insert hi, h.1, ih h.2, BitVec.xor_zero]

lemma xorSum_union (h : Disjoint s t) : xorSum (s ∪ t) f = xorSum s f ^^^ xorSum t f := by
  induction s using Finset.induction_on with
  | empty => simp
  | insert i s hi ih =>
    rw [Finset.disjoint_insert_left] at h
    rw [Finset.insert_union, xorSum_insert, xorSum_insert hi, ih h.2, BitVec.xor_assoc]
    rw [Finset.mem_union, not_or]
    exact ⟨hi, h.1⟩

/-- A part of the set is taken out by adding it again. -/
lemma xorSum_sdiff (h : t ⊆ s) : xorSum (s \ t) f = xorSum s f ^^^ xorSum t f := by
  have hunion : xorSum s f = xorSum (s \ t) f ^^^ xorSum t f := by
    rw [← xorSum_union Finset.sdiff_disjoint, Finset.sdiff_union_of_subset h]
  rw [hunion, BitVec.xor_assoc, BitVec.xor_self, BitVec.xor_zero]

/-- A loop over the entries of a map. -/
lemma foldl_xor_eq {entries : List (ι × BitVec w)} (hnodup : (entries.map Prod.fst).Nodup)
    (hvalue : ∀ entry ∈ entries, entry.2 = f entry.1) (start : BitVec w) :
    entries.foldl (fun hash entry => hash ^^^ entry.2) start =
      start ^^^ xorSum (entries.map Prod.fst).toFinset f := by
  induction entries generalizing start with
  | nil => simp
  | cons entry entries ih =>
    rw [List.map_cons, List.nodup_cons] at hnodup
    rw [List.forall_mem_cons] at hvalue
    rw [List.foldl_cons, ih hnodup.2 hvalue.2, List.map_cons, List.toFinset_cons,
      xorSum_insert (by simpa using hnodup.1), hvalue.1, BitVec.xor_assoc]

end Chromium.XorSum
