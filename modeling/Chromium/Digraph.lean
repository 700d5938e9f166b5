import Mathlib.Data.Finset.Card
import Mathlib.Data.Set.Card
import Mathlib.Logic.Relation
import Mathlib.Tactic

/-!
# Acyclic relations

How the descendants of a node change when an edge is added or a node is taken out
and its neighbours are linked. On finitely many nodes the number of descendants of a
node is a rank: it falls along each edge.
-/
namespace Chromium.Digraph

open Relation

variable {α : Type*} {r s : α → α → Prop}

/-- No node is its own descendant. -/
def Acyclic (r : α → α → Prop) : Prop := ∀ a, ¬ TransGen r a a

lemma Acyclic.mono (h : Acyclic s) (hrs : ∀ a b, r a b → s a b) : Acyclic r :=
  fun a ha => h a (TransGen.mono hrs a a ha)

lemma Acyclic.swap (h : Acyclic r) : Acyclic (Function.swap r) :=
  fun a ha => h a (transGen_swap.mp ha)

lemma Acyclic.ne (h : Acyclic r) {a b : α} (hab : r a b) : a ≠ b := by
  rintro rfl
  exact h a (.single hab)

section AddEdge
variable {p c x y : α}

/-- A path over a new edge from `p` to `c` comes to `p` and goes on from `c`. -/
lemma transGen_of_addEdge (h : ∀ a b, s a b → r a b ∨ (a = p ∧ b = c)) (hxy : TransGen s x y) :
    TransGen r x y ∨ (ReflTransGen r x p ∧ ReflTransGen r c y) := by
  induction hxy with
  | single hab =>
    rcases h _ _ hab with hr | ⟨rfl, rfl⟩
    · exact .inl (.single hr)
    · exact .inr ⟨.refl, .refl⟩
  | tail _ hbc ih =>
    rcases h _ _ hbc with hr | ⟨rfl, rfl⟩
    · rcases ih with ih | ih
      · exact .inl (ih.tail hr)
      · exact .inr ⟨ih.1, ih.2.tail hr⟩
    · rcases ih with ih | ih
      · exact .inr ⟨ih.to_reflTransGen, .refl⟩
      · exact .inr ⟨ih.1, .refl⟩

/-- An edge to a node that does not lead back makes no cycle. -/
theorem Acyclic.addEdge (hr : Acyclic r) (h : ∀ a b, s a b → r a b ∨ (a = p ∧ b = c))
    (hc : ¬ ReflTransGen r c p) : Acyclic s := by
  intro a ha
  rcases transGen_of_addEdge h ha with ha | ⟨hap, hca⟩
  · exact hr a ha
  · exact hc (hca.trans hap)

end AddEdge

section Bypass
variable {m x y : α}

/-- What is left of a relation without the node `m`, whose neighbours are linked. -/
def Bypass (r : α → α → Prop) (m a b : α) : Prop :=
  (a ≠ m ∧ b ≠ m ∧ r a b) ∨ (r a m ∧ r m b)

lemma transGen_of_bypass (h : TransGen (Bypass r m) x y) : TransGen r x y := by
  have hedge : ∀ {a b}, Bypass r m a b → TransGen r a b := by
    rintro a b (⟨-, -, hab⟩ | ⟨ham, hmb⟩)
    · exact .single hab
    · exact .tail (.single ham) hmb
  induction h with
  | single hab => exact hedge hab
  | tail _ hbc ih => exact ih.trans (hedge hbc)

/-- Taking out a node leaves the descendants among the others as they are. -/
theorem transGen_bypass_iff (hm : ¬ r m m) (hx : x ≠ m) (hy : y ≠ m) :
    TransGen (Bypass r m) x y ↔ TransGen r x y := by
  refine ⟨transGen_of_bypass, fun h => ?_⟩
  -- a path that has come to `m` came there from a node before it
  suffices hpath : ∀ y, TransGen r x y → (y ≠ m → TransGen (Bypass r m) x y) ∧
      (y = m → ∃ w, ReflTransGen (Bypass r m) x w ∧ r w m) from (hpath y h).1 hy
  intro y h
  induction h with
  | single hab => exact ⟨fun hb => .single (.inl ⟨hx, hb, hab⟩), fun hb => ⟨x, .refl, hb ▸ hab⟩⟩
  | @tail b c _ hbc ih =>
    by_cases hb : b = m
    · obtain ⟨w, hxw, hwm⟩ := ih.2 hb
      subst hb
      exact ⟨fun _ => .tail' hxw (.inr ⟨hwm, hbc⟩), fun hc => absurd (hc ▸ hbc) hm⟩
    · have hxb := ih.1 hb
      exact ⟨fun hc => hxb.tail (.inl ⟨hb, hc, hbc⟩), fun hc => ⟨b, hxb.to_reflTransGen, hc ▸ hbc⟩⟩

lemma Acyclic.bypass (h : Acyclic r) (m : α) : Acyclic (Bypass r m) :=
  fun a ha => h a (transGen_of_bypass ha)

end Bypass

section Rank
variable {nodes : Finset α} {p q : α}

/-- The number of nodes that are reached from a node in one or more steps. -/
noncomputable def rank (r : α → α → Prop) (nodes : Finset α) (p : α) : ℕ :=
  {q | q ∈ nodes ∧ TransGen r p q}.ncard

lemma finite_descendants (nodes : Finset α) (p : α) :
    {q | q ∈ nodes ∧ TransGen r p q}.Finite :=
  nodes.finite_toSet.subset fun _ hq => hq.1

/-- Along an edge of an acyclic relation the rank falls. -/
theorem rank_lt (hr : Acyclic r) (hq : q ∈ nodes) (h : r p q) :
    rank r nodes q < rank r nodes p := by
  refine Set.ncard_lt_ncard ⟨fun x hx => ⟨hx.1, .head h hx.2⟩, fun hsub => ?_⟩
    (finite_descendants nodes p)
  have hself : q ∈ {x | x ∈ nodes ∧ TransGen r q x} := hsub ⟨hq, .single h⟩
  exact hr q hself.2

/-- A node is not its own descendant. -/
theorem rank_lt_card (hr : Acyclic r) (hp : p ∈ nodes) : rank r nodes p < nodes.card := by
  have hsub : {q | q ∈ nodes ∧ TransGen r p q} ⊂ (nodes : Set α) :=
    ⟨fun x hx => hx.1, fun h => hr p (h hp).2⟩
  calc rank r nodes p < (nodes : Set α).ncard := Set.ncard_lt_ncard hsub nodes.finite_toSet
    _ = nodes.card := Set.ncard_coe_finset nodes

end Rank

end Chromium.Digraph
