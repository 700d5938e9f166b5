import Mathlib.Data.List.Perm.Basic
import Mathlib.Tactic

/-!
# Crit-bit trees

A crit-bit tree stores a set of keys by the bits in which they differ. An inner
node names one bit, its left subtree holds the keys with that bit clear and its
right subtree the keys with it set, and all the keys below a node agree on every
earlier bit. Nodes and leaves carry labels, so that a tree can also describe a
layout in memory.
-/
namespace Chromium.CritBit

variable {α β κ : Type*}

inductive BitTree (α β κ : Type*)
  | leaf (label : β) (key : κ)
  | node (label : α) (crit : ℕ) (left right : BitTree α β κ)

namespace BitTree

/-- The leaves from left to right. -/
def leaves : BitTree α β κ → List (β × κ)
  | leaf b k => [(b, k)]
  | node _ _ l r => l.leaves ++ r.leaves

/-- The labels of the inner nodes. -/
def inner : BitTree α β κ → List α
  | leaf _ _ => []
  | node a _ l r => a :: (l.inner ++ r.inner)

/-- The keys, from left to right. -/
def keys (t : BitTree α β κ) : List κ := t.leaves.map Prod.snd

/-- The leaf reached by following the bits of `k`. -/
def find (bit : κ → ℕ → Bool) (k : κ) : BitTree α β κ → β × κ
  | leaf b k' => (b, k')
  | node _ c l r => if bit k c then r.find bit k else l.find bit k

/-- A new inner node for bit `c` above `t`, with the new leaf on the side its bit
asks for. -/
def join (bit : κ → ℕ → Bool) (a : α) (c : ℕ) (b : β) (k : κ) (t : BitTree α β κ) : BitTree α β κ :=
  if bit k c then node a c t (leaf b k) else node a c (leaf b k) t

/-- Insert a leaf whose first bit of difference is `c`. -/
def insert (bit : κ → ℕ → Bool) (a : α) (c : ℕ) (b : β) (k : κ) : BitTree α β κ → BitTree α β κ
  | leaf b' k' => join bit a c b k (leaf b' k')
  | node a' c' l r =>
    if c < c' then join bit a c b k (node a' c' l r)
    else if bit k c' then node a' c' l (r.insert bit a c b k)
    else node a' c' (l.insert bit a c b k) r

/-- The leftmost leaf. -/
def first : BitTree α β κ → β × κ
  | leaf b k => (b, k)
  | node _ _ l _ => l.first

/-- The tree without its leftmost leaf and the node above it, with the label of
that node. -/
def dropFirst : BitTree α β κ → Option (α × BitTree α β κ)
  | leaf _ _ => none
  | node a c l r =>
    match l.dropFirst with
    | none => some (a, r)
    | some (a', l') => some (a', node a c l' r)

@[simp] lemma leaves_leaf (b : β) (k : κ) : (leaf b k : BitTree α β κ).leaves = [(b, k)] := rfl

@[simp] lemma leaves_node (a : α) (c : ℕ) (l r : BitTree α β κ) :
    (node a c l r).leaves = l.leaves ++ r.leaves := rfl

@[simp] lemma inner_leaf (b : β) (k : κ) : (leaf b k : BitTree α β κ).inner = [] := rfl

@[simp] lemma inner_node (a : α) (c : ℕ) (l r : BitTree α β κ) :
    (node a c l r).inner = a :: (l.inner ++ r.inner) := rfl

lemma leaves_length (t : BitTree α β κ) : t.leaves.length = t.inner.length + 1 := by
  induction t with
  | leaf => rfl
  | node a c l r ihl ihr =>
    simp only [leaves_node, inner_node, List.length_append, List.length_cons, ihl, ihr]
    omega

lemma leaves_length_pos (t : BitTree α β κ) : 0 < t.leaves.length := by
  rw [leaves_length]
  omega

end BitTree

open BitTree

section WellFormed
variable (bit : κ → ℕ → Bool)

/-- Two keys that agree on every bit before `c`. -/
def Agree (c : ℕ) (k k' : κ) : Prop := ∀ j < c, bit k j = bit k' j

/-- `Wf lo t`: the bits increase downwards from `lo`, and each node separates the
keys below it at their first bit of difference. -/
def Wf : ℕ → BitTree α β κ → Prop
  | _, leaf _ _ => True
  | lo, node _ c l r =>
    lo ≤ c ∧ Wf (c + 1) l ∧ Wf (c + 1) r ∧
      (∀ e ∈ l.leaves, bit e.2 c = false) ∧ (∀ e ∈ r.leaves, bit e.2 c = true) ∧
      ∀ e ∈ l.leaves ++ r.leaves, ∀ e' ∈ l.leaves ++ r.leaves, Agree bit c e.2 e'.2

/-- Bit `c` is the first in which the two keys differ. -/
structure FirstDiff (c : ℕ) (k k' : κ) : Prop where
  agree : Agree bit c k k'
  differ : bit k c ≠ bit k' c

end WellFormed

section Lemmas
variable {bit : κ → ℕ → Bool} {lo c : ℕ} {a : α} {b : β} {k : κ} {t : BitTree α β κ}

lemma Agree.symm {k k' : κ} (h : Agree bit c k k') : Agree bit c k' k :=
  fun j hj => (h j hj).symm

lemma Agree.trans {k k' k'' : κ} (h : Agree bit c k k') (h' : Agree bit c k' k'') :
    Agree bit c k k'' :=
  fun j hj => (h j hj).trans (h' j hj)

lemma Agree.mono {c' : ℕ} {k k' : κ} (h : Agree bit c k k') (hc : c' ≤ c) : Agree bit c' k k' :=
  fun j hj => h j (hj.trans_le hc)

lemma Wf.mono {lo' : ℕ} (h : Wf bit lo t) (hlo : lo' ≤ lo) : Wf bit lo' t := by
  cases t with
  | leaf => trivial
  | node a c l r => exact ⟨hlo.trans h.1, h.2⟩

theorem find_mem (bit : κ → ℕ → Bool) (k : κ) (t : BitTree α β κ) : t.find bit k ∈ t.leaves := by
  induction t with
  | leaf => simp [find]
  | node a c l r ihl ihr =>
    rw [find, leaves_node, List.mem_append]
    split_ifs
    · exact .inr ihr
    · exact .inl ihl

/-- A stored key is found by its own bits. -/
theorem Wf.find_key (h : Wf bit lo t) (hk : k ∈ t.keys) : (t.find bit k).2 = k := by
  induction t generalizing lo with
  | leaf b' k' =>
    simp only [keys, leaves_leaf, List.map_cons, List.map_nil, List.mem_singleton] at hk
    exact hk.symm
  | node a c l r ihl ihr =>
    obtain ⟨-, hl, hr, hleft, hright, -⟩ := h
    simp only [keys, leaves_node, List.map_append, List.mem_append, List.mem_map] at hk
    rw [find]
    rcases hk with ⟨e, he, rfl⟩ | ⟨e, he, rfl⟩
    · rw [hleft e he, if_neg (by simp)]
      exact ihl hl (List.mem_map_of_mem he)
    · rw [hright e he, if_pos rfl]
      exact ihr hr (List.mem_map_of_mem he)

/-- The search never branches at the first bit of difference. -/
lemma Wf.crit_ne {a' : α} {c' : ℕ} {l r : BitTree α β κ} (h : Wf bit lo (node a' c' l r))
    (hc : FirstDiff bit c k ((node a' c' l r).find bit k).2) : c' ≠ c := by
  obtain ⟨-, -, -, hleft, hright, -⟩ := h
  rintro rfl
  have hdiff := hc.differ
  rw [find] at hdiff
  split_ifs at hdiff with hbit
  · exact hdiff (hbit.trans (hright _ (find_mem bit k r)).symm)
  · exact hdiff (((Bool.not_eq_true _).mp hbit).trans (hleft _ (find_mem bit k l)).symm)

/-- The keys of a tree agree on every bit before the ones it branches on. -/
lemma Wf.agree (h : Wf bit lo t) : ∀ e ∈ t.leaves, ∀ e' ∈ t.leaves, Agree bit lo e.2 e'.2 := by
  cases t with
  | leaf b' k' =>
    intro e he e' he'
    rw [leaves_leaf, List.mem_singleton] at he he'
    exact he ▸ he' ▸ fun _ _ => rfl
  | node a' c' l r =>
    obtain ⟨hlo, -, -, -, -, hagree⟩ := h
    exact fun e he e' he' => (hagree e he e' he').mono hlo

lemma FirstDiff.of_agree {k k' k'' : κ} (h : FirstDiff bit c k k')
    (h' : Agree bit (c + 1) k' k'') : FirstDiff bit c k k'' :=
  ⟨h.agree.trans (h'.mono c.le_succ), fun heq => h.differ (heq.trans (h' c c.lt_succ_self).symm)⟩

lemma leaves_join_perm (bit : κ → ℕ → Bool) (a : α) (c : ℕ) (b : β) (k : κ) (t : BitTree α β κ) :
    (join bit a c b k t).leaves.Perm ((b, k) :: t.leaves) := by
  rw [join]
  split_ifs
  · exact List.perm_append_singleton _ _
  · exact List.Perm.refl _

theorem leaves_insert_perm (bit : κ → ℕ → Bool) (a : α) (c : ℕ) (b : β) (k : κ)
    (t : BitTree α β κ) : (t.insert bit a c b k).leaves.Perm ((b, k) :: t.leaves) := by
  induction t with
  | leaf b' k' => exact leaves_join_perm bit a c b k _
  | node a' c' l r ihl ihr =>
    rw [BitTree.insert]
    split_ifs
    · exact leaves_join_perm bit a c b k _
    · exact (ihr.append_left l.leaves).trans List.perm_middle
    · exact ihl.append_right r.leaves

lemma inner_join_perm (bit : κ → ℕ → Bool) (a : α) (c : ℕ) (b : β) (k : κ) (t : BitTree α β κ) :
    (join bit a c b k t).inner.Perm (a :: t.inner) := by
  rw [join]
  split_ifs <;> simp

theorem inner_insert_perm (bit : κ → ℕ → Bool) (a : α) (c : ℕ) (b : β) (k : κ)
    (t : BitTree α β κ) : (t.insert bit a c b k).inner.Perm (a :: t.inner) := by
  induction t with
  | leaf b' k' => exact inner_join_perm bit a c b k _
  | node a' c' l r ihl ihr =>
    rw [BitTree.insert]
    split_ifs
    · exact inner_join_perm bit a c b k _
    · exact (((ihr.append_left l.inner).trans List.perm_middle).cons a').trans (.swap _ _ _)
    · exact ((ihl.append_right r.inner).cons a').trans (.swap _ _ _)

lemma Wf.join (h : Wf bit (c + 1) t) (hlo : lo ≤ c)
    (hdiff : ∀ e ∈ t.leaves, FirstDiff bit c k e.2) : Wf bit lo (BitTree.join bit a c b k t) := by
  have hnew : ∀ e ∈ t.leaves, Agree bit c k e.2 := fun e he => (hdiff e he).agree
  have hold : ∀ e ∈ t.leaves, ∀ e' ∈ t.leaves, Agree bit c e.2 e'.2 := fun e he e' he' =>
    (hnew e he).symm.trans (hnew e' he')
  rw [BitTree.join]
  split_ifs with hbit
  · refine ⟨hlo, h, trivial, fun e he => ?_, by simpa using hbit, ?_⟩
    · have := (hdiff e he).differ
      simpa [hbit] using this.symm
    · simp only [leaves_leaf, List.mem_append, List.mem_singleton]
      rintro e (he | rfl) e' (he' | rfl)
      · exact hold e he e' he'
      · exact (hnew e he).symm
      · exact hnew e' he'
      · exact fun _ _ => rfl
  · refine ⟨hlo, trivial, h, by simpa using hbit, fun e he => ?_, ?_⟩
    · have := (hdiff e he).differ
      simpa [hbit] using this.symm
    · simp only [leaves_leaf, List.mem_append, List.mem_singleton]
      rintro e (rfl | he) e' (rfl | he')
      · exact fun _ _ => rfl
      · exact hnew e' he'
      · exact (hnew e he).symm
      · exact hold e he e' he'

/-- Inserting at the first bit of difference keeps the tree well formed. -/
theorem Wf.insert (h : Wf bit lo t) (hlo : lo ≤ c) (hc : FirstDiff bit c k (t.find bit k).2) :
    Wf bit lo (t.insert bit a c b k) := by
  induction t generalizing lo with
  | leaf b' k' => exact Wf.join trivial hlo (by simpa [find] using hc)
  | node a' c' l r ihl ihr =>
    have hne := h.crit_ne hc
    have hmem := find_mem bit k (node a' c' l r)
    rw [BitTree.insert]
    split_ifs with hlt hbit
    · have hwf : Wf bit (c + 1) (node a' c' l r) := ⟨hlt, h.2⟩
      exact hwf.join hlo fun e he => hc.of_agree (hwf.agree _ hmem e he)
    all_goals
      obtain ⟨hlo', hl, hr, hleft, hright, hagree⟩ := h
      have hlt' : c' < c := by omega
      have hnew : ∀ e ∈ l.leaves ++ r.leaves, Agree bit c' k e.2 := fun e he =>
        (hc.agree.mono hlt'.le).trans (hagree _ hmem e he)
      have hall : ∀ e e' : β × κ, (e = (b, k) ∨ e ∈ l.leaves ++ r.leaves) →
          (e' = (b, k) ∨ e' ∈ l.leaves ++ r.leaves) → Agree bit c' e.2 e'.2 := by
        rintro e e' (rfl | he) (rfl | he')
        · exact fun _ _ => rfl
        · exact hnew e' he'
        · exact (hnew e he).symm
        · exact hagree e he e' he'
    · have hperm := leaves_insert_perm bit a c b k r
      have hsub : ∀ e ∈ l.leaves ++ (r.insert bit a c b k).leaves,
          e = (b, k) ∨ e ∈ l.leaves ++ r.leaves := fun e he => by
        rw [List.mem_append, hperm.mem_iff, List.mem_cons] at he
        rw [List.mem_append]
        tauto
      rw [find, if_pos hbit] at hc
      refine ⟨hlo', hl, ihr hr hlt' hc, hleft, fun e he => ?_, fun e he e' he' =>
        hall e e' (hsub e he) (hsub e' he')⟩
      rcases List.mem_cons.mp (hperm.mem_iff.mp he) with rfl | he
      · exact hbit
      · exact hright e he
    · have hperm := leaves_insert_perm bit a c b k l
      have hsub : ∀ e ∈ (l.insert bit a c b k).leaves ++ r.leaves,
          e = (b, k) ∨ e ∈ l.leaves ++ r.leaves := fun e he => by
        rw [List.mem_append, hperm.mem_iff, List.mem_cons] at he
        rw [List.mem_append]
        tauto
      rw [find, if_neg hbit] at hc
      refine ⟨hlo', ihl hl hlt' hc, hr, fun e he => ?_, hright, fun e he e' he' =>
        hall e e' (hsub e he) (hsub e' he')⟩
      rcases List.mem_cons.mp (hperm.mem_iff.mp he) with rfl | he
      · exact (Bool.not_eq_true _).mp hbit
      · exact hleft e he

/-- No key is stored twice. -/
theorem Wf.keys_nodup (h : Wf bit lo t) : t.keys.Nodup := by
  induction t generalizing lo with
  | leaf b' k' => exact List.nodup_singleton k'
  | node a' c' l r ihl ihr =>
    obtain ⟨-, hl, hr, hleft, hright, -⟩ := h
    rw [keys, leaves_node, List.map_append, List.nodup_append]
    refine ⟨ihl hl, ihr hr, ?_⟩
    intro x hx y hy hxy
    obtain ⟨e, he, rfl⟩ := List.mem_map.mp hx
    obtain ⟨e', he', rfl⟩ := List.mem_map.mp hy
    have hfalse := hleft e he
    rw [hxy, hright e' he'] at hfalse
    cases hfalse

lemma dropFirst_eq_none : t.dropFirst = none ↔ ∃ b k, t = leaf b k := by
  cases t with
  | leaf b k => simp [dropFirst]
  | node a c l r =>
    simp only [dropFirst, reduceCtorEq, exists_false, iff_false]
    split <;> simp

/-- Dropping the first leaf removes exactly that leaf. -/
theorem leaves_dropFirst {t t' : BitTree α β κ} (h : t.dropFirst = some (a, t')) :
    t.leaves = t.first :: t'.leaves := by
  induction t generalizing t' with
  | leaf => simp [dropFirst] at h
  | node a' c' l r ihl ihr =>
    rw [dropFirst] at h
    split at h
    next hl =>
      obtain ⟨b, k, rfl⟩ := dropFirst_eq_none.mp hl
      cases h
      rfl
    next a'' l' hl =>
      cases h
      simp [first, ihl hl]

theorem inner_dropFirst_perm {t t' : BitTree α β κ} (h : t.dropFirst = some (a, t')) :
    t.inner.Perm (a :: t'.inner) := by
  induction t generalizing t' with
  | leaf => simp [dropFirst] at h
  | node a' c' l r ihl ihr =>
    rw [dropFirst] at h
    split at h
    next hl =>
      obtain ⟨b, k, rfl⟩ := dropFirst_eq_none.mp hl
      cases h
      exact List.Perm.refl _
    next a'' l' hl =>
      cases h
      exact (((ihl hl).append_right r.inner).cons a').trans (.swap _ _ _)

theorem Wf.dropFirst {t t' : BitTree α β κ} (hwf : Wf bit lo t)
    (h : t.dropFirst = some (a, t')) : Wf bit lo t' := by
  induction t generalizing lo t' with
  | leaf => simp [BitTree.dropFirst] at h
  | node a' c' l r ihl ihr =>
    obtain ⟨hlo, hl', hr, hleft, hright, hagree⟩ := hwf
    rw [BitTree.dropFirst] at h
    split at h
    next hl =>
      cases h
      exact hr.mono (hlo.trans c'.le_succ)
    next a'' l' hl =>
      cases h
      have hsub : ∀ e ∈ l'.leaves, e ∈ l.leaves := fun e he => by
        rw [leaves_dropFirst hl]
        exact List.mem_cons_of_mem _ he
      have hsub' : ∀ e ∈ l'.leaves ++ r.leaves, e ∈ l.leaves ++ r.leaves := fun e he => by
        rw [List.mem_append] at he ⊢
        exact he.imp_left (hsub e)
      exact ⟨hlo, ihl hl' hl, hr, fun e he => hleft e (hsub e he), hright, fun e he e' he' =>
        hagree e (hsub' e he) e' (hsub' e' he')⟩

/-- A search that did not end at the dropped leaf ends where it did before. -/
theorem find_dropFirst {t t' : BitTree α β κ} (h : t.dropFirst = some (a, t'))
    (hne : t.find bit k ≠ t.first) : t'.find bit k = t.find bit k := by
  induction t generalizing t' with
  | leaf => simp [dropFirst] at h
  | node a' c' l r ihl ihr =>
    rw [dropFirst] at h
    split at h
    next hl =>
      obtain ⟨b', k', rfl⟩ := dropFirst_eq_none.mp hl
      cases h
      rw [find, first] at hne
      rw [find]
      split_ifs at hne ⊢ with hbit
      · rfl
      · exact absurd rfl hne
    next a'' l' hl =>
      cases h
      rw [find, first] at hne
      rw [find, find]
      split_ifs at hne ⊢ with hbit
      · rfl
      · exact ihl hl hne

end Lemmas

end Chromium.CritBit
