import Mathlib.Data.Finset.Card
import Mathlib.Data.Finset.Range
import Mathlib.Data.List.Basic
import Mathlib.Tactic

/-!
# Tries and longest suffixes

The nodes of a trie are numbered, and each stands for a word: the root for the empty one, and
a child for its parent's word and the letter on the edge. The words of the nodes are closed
under prefixes. What a search for many words keeps is the node with the longest word that
ends the text read so far.
-/
namespace Chromium

structure PrefixTrie (α : Type*) where
  size : ℕ
  edge : ℕ → α → Option ℕ
  word : ℕ → List α
  size_pos : 0 < size
  word_root : word 0 = []
  word_inj : ∀ i < size, ∀ j < size, word i = word j → i = j
  edge_some : ∀ i c j, edge i c = some j → i < size ∧ j < size ∧ word j = word i ++ [c]
  parent : ∀ i < size, ∀ u c, word i = u ++ [c] → ∃ k, edge k c = some i

namespace PrefixTrie
variable {α : Type*} {T : PrefixTrie α} {i j k n : ℕ} {c : α} {t u : List α}

lemma edge_of_word (hi : i < T.size) (hj : j < T.size) (h : T.word j = T.word i ++ [c]) :
    T.edge i c = some j := by
  obtain ⟨k, hk⟩ := T.parent j hj _ _ h
  obtain ⟨hk', -, hw⟩ := T.edge_some k c j hk
  have heq : T.word k = T.word i := List.append_cancel_right (hw.symm.trans h)
  rwa [T.word_inj k hk' i hi heq] at hk

lemma word_eq_nil (hi : i < T.size) : T.word i = [] ↔ i = 0 := by
  constructor
  · intro h
    exact T.word_inj i hi 0 T.size_pos (h.trans T.word_root.symm)
  · rintro rfl
    exact T.word_root

lemma edge_ne_zero (h : T.edge i c = some j) : j ≠ 0 := by
  rintro rfl
  obtain ⟨-, -, hw⟩ := T.edge_some i c 0 h
  rw [T.word_root] at hw
  exact absurd hw.symm (by simp)

/-- Each prefix of a node's word is a node's word. -/
lemma exists_prefix (hi : i < T.size) (h : u <+: T.word i) : ∃ k < T.size, T.word k = u := by
  generalize hw : T.word i = w at h
  induction w using List.reverseRecOn generalizing i with
  | nil => exact ⟨i, hi, by rw [hw, List.prefix_nil.mp h]⟩
  | append_singleton w c ih =>
    rcases List.prefix_concat_iff.mp h with heq | hpre
    · exact ⟨i, hi, hw.trans heq.symm⟩
    · obtain ⟨k, hk⟩ := T.parent i hi w c hw
      obtain ⟨hk', -, hword⟩ := T.edge_some k c i hk
      exact ih hk' (List.append_cancel_right (hword.symm.trans hw)) hpre

/-- A word has a node for each of its prefixes, so it is shorter than the trie. -/
lemma length_word_lt (hi : i < T.size) : (T.word i).length < T.size := by
  have hnode : ∀ l ∈ Finset.range ((T.word i).length + 1),
      ∃ k ∈ Finset.range T.size, T.word k = (T.word i).take l := by
    intro l _
    obtain ⟨k, hk, hw⟩ := exists_prefix hi (List.take_prefix l (T.word i))
    exact ⟨k, Finset.mem_range.mpr hk, hw⟩
  choose! node hmem hword using hnode
  have hcard := Finset.card_le_card_of_injOn node hmem (by
    intro l hl l' hl' heq
    have hlen := congrArg List.length ((hword l hl).symm.trans (heq ▸ hword l' hl'))
    have hl := Finset.mem_range.mp hl
    have hl' := Finset.mem_range.mp hl'
    rw [List.length_take, List.length_take] at hlen
    omega)
  rw [Finset.card_range, Finset.card_range] at hcard
  exact hcard

/-- The trie of the empty word. -/
def root : PrefixTrie α where
  size := 1
  edge := fun _ _ => none
  word := fun _ => []
  size_pos := Nat.one_pos
  word_root := rfl
  word_inj := by omega
  edge_some := by simp
  parent := by simp

/-- A new node below `i`, for a letter that had no edge. -/
def extend [DecidableEq α] (T : PrefixTrie α) (i : ℕ) (c : α) (hi : i < T.size)
    (h : T.edge i c = none) : PrefixTrie α where
  size := T.size + 1
  edge := fun k d => if k = i ∧ d = c then some T.size else T.edge k d
  word := fun k => if k = T.size then T.word i ++ [c] else T.word k
  size_pos := Nat.succ_pos _
  word_root := by rw [if_neg (Nat.ne_of_lt T.size_pos), T.word_root]
  word_inj := by
    have hnew : ∀ k < T.size, T.word k ≠ T.word i ++ [c] := by
      intro k hk heq
      rw [edge_of_word hi hk heq] at h
      cases h
    intro k hk l hl heq
    split_ifs at heq with hk' hl' hl'
    · omega
    · exact absurd heq.symm (hnew l (by omega))
    · exact absurd heq (hnew k (by omega))
    · exact T.word_inj k (by omega) l (by omega) heq
  edge_some := by
    intro k d j hedge
    split_ifs at hedge with hnew
    · obtain ⟨rfl, rfl⟩ := hnew
      cases hedge
      rw [if_pos rfl, if_neg (by omega)]
      exact ⟨by omega, by omega, rfl⟩
    · obtain ⟨hk, hj, hw⟩ := T.edge_some k d j hedge
      rw [if_neg (by omega), if_neg (by omega)]
      exact ⟨by omega, by omega, hw⟩
  parent := by
    intro k hk u d hw
    split_ifs at hw with hnew
    · obtain ⟨rfl, hd⟩ := List.append_inj' hw rfl
      cases hd
      exact ⟨i, by rw [if_pos ⟨rfl, rfl⟩, hnew]⟩
    · obtain ⟨l, hl⟩ := T.parent k (by omega) u d hw
      refine ⟨l, ?_⟩
      split_ifs with hold
      · obtain ⟨rfl, rfl⟩ := hold
        rw [h] at hl
        cases hl
      · exact hl

section Longest

/-- Of all nodes, `i` has the longest word that ends the text `t`. -/
structure Longest (T : PrefixTrie α) (t : List α) (i : ℕ) : Prop where
  lt : i < T.size
  suffix : T.word i <:+ t
  longest : ∀ k < T.size, T.word k <:+ t → (T.word k).length ≤ (T.word i).length

lemma longest_nil (T : PrefixTrie α) : T.Longest [] 0 where
  lt := T.size_pos
  suffix := by rw [T.word_root]
  longest := by
    intro k _ hk
    rw [List.suffix_nil.mp hk]
    exact Nat.zero_le _

/-- A node's word that ends the text ends the longest such word. -/
lemma Longest.suffix_word (h : T.Longest t i) (hk : k < T.size) (hsuf : T.word k <:+ t) :
    T.word k <:+ T.word i :=
  List.suffix_of_suffix_length_le hsuf h.suffix (h.longest k hk hsuf)

/-- The link of a node: the longest word that properly ends its own. -/
def Links (T : PrefixTrie α) (i j : ℕ) : Prop := T.Longest (T.word i).tail j

lemma Links.length_lt (h : T.Links i j) (hi : i < T.size) (hi0 : i ≠ 0) :
    (T.word j).length < (T.word i).length := by
  have hle := h.suffix.length_le
  have hne : T.word i ≠ [] := fun hnil => hi0 ((word_eq_nil hi).mp hnil)
  have hpos := List.length_pos_iff.mpr hne
  rw [List.length_tail] at hle
  omega

/-- `i` is on the way from the longest suffix of `t` to the root, and no node with a longer
word that ends `t` has an edge for the letter `c`. -/
structure Candidate (T : PrefixTrie α) (t : List α) (c : α) (i : ℕ) : Prop where
  lt : i < T.size
  suffix : T.word i <:+ t
  longest : ∀ k j, T.edge k c = some j → T.word k <:+ t →
    (T.word k).length ≤ (T.word i).length

lemma Longest.candidate (h : T.Longest t i) (c : α) : T.Candidate t c i where
  lt := h.lt
  suffix := h.suffix
  longest := fun k j hedge hk => h.longest k (T.edge_some k c j hedge).1 hk

/-- Without an edge, the search goes on at the link. -/
lemma Candidate.link (h : T.Candidate t c i) (hmiss : T.edge i c = none) (hi : i ≠ 0)
    (hl : T.Links i j) : T.Candidate t c j where
  lt := hl.lt
  suffix := hl.suffix.trans ((List.tail_suffix _).trans h.suffix)
  longest := by
    intro k l hedge hk
    obtain ⟨hk', -, -⟩ := T.edge_some k c l hedge
    have hsuf := List.suffix_of_suffix_length_le hk h.suffix (h.longest k l hedge hk)
    apply hl.longest k hk'
    generalize hw : T.word i = w at hsuf
    cases w with
    | nil => exact absurd ((word_eq_nil h.lt).mp hw) hi
    | cons d w =>
      rcases List.suffix_cons_iff.mp hsuf with heq | htail
      · rw [← hw] at heq
        rw [T.word_inj k hk' i h.lt heq, hmiss] at hedge
        cases hedge
      · exact htail

/-- At an edge, its end is the longest suffix of the longer text. -/
lemma Candidate.hit (h : T.Candidate t c i) (hedge : T.edge i c = some j) :
    T.Longest (t ++ [c]) j := by
  obtain ⟨-, hj, hword⟩ := T.edge_some i c j hedge
  refine ⟨hj, ?_, ?_⟩
  · obtain ⟨s, hs⟩ := h.suffix
    exact ⟨s, by rw [hword, ← List.append_assoc, hs]⟩
  · intro k hk hsuf
    rcases List.suffix_concat_iff.mp hsuf with hnil | ⟨u, hu, hsuf⟩
    · rw [hnil]
      exact Nat.zero_le _
    · obtain ⟨l, hl⟩ := T.parent k hk u c hu
      obtain ⟨-, -, hw⟩ := T.edge_some l c k hl
      obtain rfl := List.append_cancel_right (hw.symm.trans hu)
      have := h.longest l k hl hsuf
      rw [hu, hword, List.length_append, List.length_append]
      omega

/-- At the root and without an edge, no word but the empty one ends the longer text. -/
lemma Candidate.miss (h : T.Candidate t c 0) (hmiss : T.edge 0 c = none) :
    T.Longest (t ++ [c]) 0 := by
  refine ⟨T.size_pos, by rw [T.word_root]; exact List.nil_suffix, ?_⟩
  intro k hk hsuf
  rcases List.suffix_concat_iff.mp hsuf with hnil | ⟨u, hu, hsuf⟩
  · rw [hnil]
    exact Nat.zero_le _
  · obtain ⟨l, hl⟩ := T.parent k hk u c hu
    obtain ⟨hl', -, hw⟩ := T.edge_some l c k hl
    obtain rfl := List.append_cancel_right (hw.symm.trans hu)
    have hlen := h.longest l k hl hsuf
    rw [T.word_root] at hlen
    have hl0 := (word_eq_nil hl').mp (List.length_eq_zero_iff.mp (Nat.le_zero.mp hlen))
    rw [hl0, hmiss] at hl
    cases hl

/-- The link of a child is found from the link of its parent. -/
lemma Longest.links_of_edge (h : T.Longest ((T.word i).tail ++ [c]) j)
    (hedge : T.edge i c = some k) (hi : i ≠ 0) : T.Links k j := by
  obtain ⟨hi', -, hword⟩ := T.edge_some i c k hedge
  rw [Links, hword, List.tail_append_of_ne_nil]
  · exact h
  · exact fun hnil => hi ((word_eq_nil hi').mp hnil)

lemma links_of_root_edge (hedge : T.edge 0 c = some k) : T.Links k 0 := by
  obtain ⟨-, -, hword⟩ := T.edge_some 0 c k hedge
  rw [Links, hword, T.word_root]
  exact T.longest_nil

end Longest

section Collects
variable {β : Type*} {own : ℕ → Finset β}

/-- What is found at `i`, together with what the root owns, is what the nodes own whose words
end the word of `i`. -/
def Collects (T : PrefixTrie α) (own : ℕ → Finset β) (i : ℕ) (found : Finset β) : Prop :=
  ∀ a, (a ∈ found ∨ a ∈ own 0) ↔ ∃ k < T.size, T.word k <:+ T.word i ∧ a ∈ own k

/-- A child of the root owns all it can find. -/
lemma collects_of_root_edge (own : ℕ → Finset β) (hedge : T.edge 0 c = some k) :
    T.Collects own k (own k) := by
  obtain ⟨-, hk, hword⟩ := T.edge_some 0 c k hedge
  rw [T.word_root, List.nil_append] at hword
  intro a
  constructor
  · rintro (ha | ha)
    · exact ⟨k, hk, List.suffix_rfl, ha⟩
    · exact ⟨0, T.size_pos, by rw [T.word_root]; exact List.nil_suffix, ha⟩
  · rintro ⟨l, hl, hsuf, ha⟩
    rw [hword] at hsuf
    rcases List.suffix_cons_iff.mp hsuf with heq | hnil
    · rw [T.word_inj l hl k hk (heq.trans hword.symm)] at ha
      exact .inl ha
    · rw [(word_eq_nil hl).mp (List.suffix_nil.mp hnil)] at ha
      exact .inr ha

/-- A node finds what it owns and what its link finds. -/
lemma Collects.of_links [DecidableEq β] {found : Finset β} (h : T.Collects own j found)
    (hi : i < T.size) (hlink : T.Links i j) : T.Collects own i (own i ∪ found) := by
  intro a
  rw [Finset.mem_union, or_assoc, h a]
  constructor
  · rintro (ha | ⟨k, hk, hsuf, ha⟩)
    · exact ⟨i, hi, List.suffix_rfl, ha⟩
    · exact ⟨k, hk, hsuf.trans (hlink.suffix.trans (List.tail_suffix _)), ha⟩
  · rintro ⟨k, hk, hsuf, ha⟩
    by_cases hki : k = i
    · rw [hki] at ha
      exact .inl ha
    · refine .inr ⟨k, hk, hlink.suffix_word hk ?_, ha⟩
      generalize hw : T.word i = w at hsuf
      cases w with
      | nil => exact hsuf
      | cons d w =>
        rcases List.suffix_cons_iff.mp hsuf with heq | htail
        · exact absurd (T.word_inj k hk i hi (heq.trans hw.symm)) hki
        · exact htail

end Collects
end PrefixTrie

end Chromium
