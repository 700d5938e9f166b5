import Mathlib.Data.List.Perm.Basic
import Mathlib.Logic.Function.Basic
import Mathlib.Tactic

/-!
# Free lists threaded through an array

Each free node of an array holds the index of the next free node, and the last
one holds `nil`. A pool is such a list together with the indices in use: between
them they name every index once.
-/
namespace Chromium.FreeList

variable {ι ν : Type*} {next : ν → ι} {nil : ι}

/-- The list of indices that a chain of next pointers runs through. -/
def Chain (next : ν → ι) (nil : ι) (nodes : ι → ν) : ι → List ι → Prop
  | h, [] => h = nil
  | h, i :: l => h = i ∧ Chain next nil nodes (next (nodes i)) l

/-- The indices in use and the free list make up all indices. -/
def Pool (next : ν → ι) (nil : ι) (all : List ι) (nodes : ι → ν) (head : ι) (used : List ι) :
    Prop :=
  ∃ free, Chain next nil nodes head free ∧ (used ++ free).Perm all

lemma Chain.congr {nodes nodes' : ι → ν} {h : ι} {l : List ι} (hc : Chain next nil nodes h l)
    (hn : ∀ i ∈ l, nodes' i = nodes i) : Chain next nil nodes' h l := by
  induction l generalizing h with
  | nil => exact hc
  | cons i l ih =>
    refine ⟨hc.1, ?_⟩
    rw [hn i List.mem_cons_self]
    exact ih hc.2 fun j hj => hn j (List.mem_cons_of_mem i hj)

namespace Pool
variable {all used : List ι} {nodes nodes' : ι → ν} {head : ι}

lemma mem_all {i : ι} (h : Pool next nil all nodes head used) (hi : i ∈ used) : i ∈ all := by
  obtain ⟨free, -, hperm⟩ := h
  exact hperm.mem_iff.mp (List.mem_append_left free hi)

lemma nodup (h : Pool next nil all nodes head used) (hall : all.Nodup) : used.Nodup := by
  obtain ⟨free, -, hperm⟩ := h
  exact (List.nodup_append.mp (hperm.nodup_iff.mpr hall)).1

lemma length_le (h : Pool next nil all nodes head used) : used.length ≤ all.length := by
  obtain ⟨free, -, hperm⟩ := h
  have := hperm.length_eq
  rw [List.length_append] at this
  omega

/-- The list is empty when every index is in use. -/
lemma head_eq_nil_iff (h : Pool next nil all nodes head used) (hnil : nil ∉ all) :
    head = nil ↔ used.length = all.length := by
  obtain ⟨free, hchain, hperm⟩ := h
  have hlen := hperm.length_eq
  rw [List.length_append] at hlen
  cases free with
  | nil => exact ⟨fun _ => by simpa using hlen, fun _ => hchain⟩
  | cons i l =>
    rw [List.length_cons] at hlen
    refine ⟨fun heq => ?_, fun heq => by omega⟩
    have hi : i ∈ all := hperm.mem_iff.mp (by simp)
    exact absurd (heq ▸ hchain.1 ▸ hi) hnil

/-- Nodes in use may change. -/
lemma congr (h : Pool next nil all nodes head used) (hall : all.Nodup)
    (hn : ∀ i, i ∉ used → nodes' i = nodes i) : Pool next nil all nodes' head used := by
  obtain ⟨free, hchain, hperm⟩ := h
  have hdisj := (List.nodup_append.mp (hperm.nodup_iff.mpr hall)).2.2
  exact ⟨free, hchain.congr fun i hi => hn i fun hu => hdisj i hu i hi rfl, hperm⟩

lemma perm {used' : List ι} (h : Pool next nil all nodes head used) (hp : used.Perm used') :
    Pool next nil all nodes head used' := by
  obtain ⟨free, hchain, hperm⟩ := h
  exact ⟨free, hchain, (hp.symm.append_right free).trans hperm⟩

/-- Taking the first node off the list. -/
lemma pop (h : Pool next nil all nodes head used) (hne : head ≠ nil) :
    Pool next nil all nodes (next (nodes head)) (head :: used) := by
  obtain ⟨free, hchain, hperm⟩ := h
  cases free with
  | nil => exact absurd hchain hne
  | cons i l =>
    obtain ⟨rfl, hchain⟩ := hchain
    exact ⟨l, hchain, List.perm_middle.symm.trans hperm⟩

/-- Returning a node to the list. -/
lemma push [DecidableEq ι] {i : ι} {n : ν} (h : Pool next nil all nodes head (i :: used))
    (hall : all.Nodup)
    (hn : next n = head) : Pool next nil all (Function.update nodes i n) i used := by
  obtain ⟨free, hchain, hperm⟩ := h
  have hnodup := hperm.nodup_iff.mpr hall
  rw [List.cons_append, List.nodup_cons] at hnodup
  refine ⟨i :: free, ⟨rfl, ?_⟩, List.perm_middle.trans hperm⟩
  rw [Function.update_self, hn]
  refine hchain.congr fun j hj => Function.update_of_ne ?_ _ _
  rintro rfl
  exact hnodup.1 (List.mem_append_right used hj)

end Pool

end Chromium.FreeList
