import Chromium.SubstringSetMatcher

/-!
# What the tree holds

The edges of the tree are those of a trie of the patterns. Once the failure edges are set, each
node's failure is the longest other node whose word ends its own, and its matches are, but for
those of the root, the patterns that end its word.
-/
namespace Chromium.SubstringSet

open AhoCorasickNode

variable {tree tree' : Tree} {node : AhoCorasickNode} {T : PrefixTrie SignedChar}
variable {i j k n : ℕ} {c : SignedChar} {text t : Text} {own : ℕ → Finset ID}

lemma getEdge_setEdge (node : AhoCorasickNode) (c d : SignedChar) (target : ℕ) :
    (node.setEdge c target).getEdge d = if d = c then some target else node.getEdge d :=
  SortedMap.find_assign node.edges d c target

lemma updateNode_eq (h : tree[i]? = some node) (f : AhoCorasickNode → AhoCorasickNode) :
    updateNode tree i f = some (tree.set i (f node)) := by
  rw [updateNode, h]
  rfl

lemma getElem?_set_of_get (h : tree[i]? = some node) (f : AhoCorasickNode) (k : ℕ) :
    (tree.set i f)[k]? = if k = i then some f else tree[k]? := by
  rw [List.getElem?_set]
  have hlt := (List.getElem?_eq_some_iff.mp h).1
  split_ifs with h1 h2 h3
  · rfl
  · exact absurd h1.symm h2
  · exact absurd h3.symm h1
  · rfl

/-- The matches at an index. -/
def foundAt (tree : Tree) (i : ℕ) : Finset ID := (tree[i]?.map found).getD ∅

lemma foundAt_eq (h : tree[i]? = some node) : foundAt tree i = node.found := by
  rw [foundAt, h]
  rfl

/-- The tree has the nodes and the edges of the trie. -/
structure Represents (T : PrefixTrie SignedChar) (tree : Tree) : Prop where
  length : tree.length = T.size
  getEdge : ∀ i node, tree[i]? = some node → ∀ c, node.getEdge c = T.edge i c

namespace Represents

lemma get (h : Represents T tree) (hi : i < T.size) :
    ∃ node, tree[i]? = some node ∧ ∀ c, node.getEdge c = T.edge i c := by
  rw [← h.length] at hi
  exact ⟨tree.get ⟨i, hi⟩, List.getElem?_eq_getElem hi,
    h.getEdge i _ (List.getElem?_eq_getElem hi)⟩

/-- A change of a node's failure or matches. -/
lemma set (h : Represents T tree) (hget : tree[i]? = some node) (node' : AhoCorasickNode)
    (hedges : node'.edges = node.edges) : Represents T (tree.set i node') where
  length := by rw [List.length_set, h.length]
  getEdge := by
    intro k m hm d
    rw [getElem?_set_of_get hget] at hm
    split_ifs at hm with hk
    · cases hm
      rw [hk, ← h.getEdge i node hget d, AhoCorasickNode.getEdge, hedges]
      rfl
    · exact h.getEdge k m hm d

/-- A new node at the end, and an edge to it. -/
lemma extend (h : Represents T tree) (hget : tree[i]? = some node) (hi : i < T.size)
    (hnone : T.edge i c = none) : Represents (T.extend i c hi hnone)
      ((tree ++ [({} : AhoCorasickNode)]).set i (node.setEdge c tree.length)) where
  length := by
    rw [List.length_set, List.length_append, h.length]
    rfl
  getEdge := by
    intro k m hm d
    have hget' : (tree ++ [({} : AhoCorasickNode)])[i]? = some node := by
      rw [List.getElem?_append_left (h.length ▸ hi), hget]
    rw [getElem?_set_of_get hget'] at hm
    simp only [PrefixTrie.extend]
    split_ifs at hm with hk
    · cases hm
      rw [getEdge_setEdge, h.getEdge i node hget, hk, h.length]
      simp only [true_and]
    · rw [if_neg (fun hand => hk hand.1)]
      rw [List.getElem?_append] at hm
      split_ifs at hm with hlt
      · exact h.getEdge k m hm d
      · rw [List.getElem?_singleton] at hm
        split_ifs at hm
        cases hm
        symm
        by_contra hne
        obtain ⟨l, hl⟩ := Option.ne_none_iff_exists'.mp hne
        exact hlt (h.length ▸ (T.edge_some k d l hl).1)

end Represents

/-! ### Insertion -/

/-- The path goes on as far as the trie has edges. -/
lemma followPaths_spec (text : Text) (h : Represents T tree) (hi : i < T.size) :
    ∃ j done rest, followPaths tree i text = some (j, rest) ∧ j < T.size ∧ text = done ++ rest ∧
      T.word j = T.word i ++ done ∧ ∀ c ∈ rest.head?, T.edge j c = none := by
  induction text generalizing i with
  | nil => exact ⟨i, [], [], rfl, hi, rfl, by rw [List.append_nil], by simp⟩
  | cons c text ih =>
    obtain ⟨node, hget, hedge⟩ := h.get hi
    rw [followPaths, hget]
    cases hc : T.edge i c with
    | none =>
      refine ⟨i, [], c :: text, ?_, hi, rfl, by rw [List.append_nil], by simpa using hc⟩
      simp only [Option.bind_eq_bind, Option.bind_some, hedge, hc]
    | some k =>
      obtain ⟨-, hk, hword⟩ := T.edge_some i c k hc
      obtain ⟨j, done, rest, hrun, hj, htext, hw, hstop⟩ := ih hk
      refine ⟨j, c :: done, rest, ?_, hj, by rw [htext, List.cons_append], ?_, hstop⟩
      · simp only [Option.bind_eq_bind, Option.bind_some, hedge, hc]
        exact hrun
      · rw [hw, hword, List.append_assoc, List.singleton_append]

/-- The trie grows by the nodes of one path. -/
structure Grows (T : PrefixTrie SignedChar) (tree : Tree) (T' : PrefixTrie SignedChar)
    (tree' : Tree) : Prop where
  size : T.size ≤ T'.size
  word : ∀ k < T.size, T'.word k = T.word k
  foundAt : ∀ k, foundAt tree' k = foundAt tree k

lemma foundAt_extend (hget : tree[i]? = some node) {node' : AhoCorasickNode}
    (hfound : node'.found = node.found) (k : ℕ) :
    foundAt ((tree ++ [({} : AhoCorasickNode)]).set i node') k = foundAt tree k := by
  have hlt := (List.getElem?_eq_some_iff.mp hget).1
  have hget' : (tree ++ [({} : AhoCorasickNode)])[i]? = some node := by
    rw [List.getElem?_append_left hlt, hget]
  rw [foundAt, getElem?_set_of_get hget']
  split_ifs with hk
  · rw [hk, foundAt_eq hget, ← hfound]
    rfl
  · rw [List.getElem?_append]
    split_ifs with hkt
    · rfl
    · rw [foundAt, List.getElem?_eq_none (not_lt.mp hkt)]
      cases hd : k - tree.length with
      | zero => rfl
      | succ d => rfl

lemma createNodes_spec (h : Represents T tree) (hi : i < T.size)
    (hnone : ∀ c ∈ text.head?, T.edge i c = none) :
    ∃ T' tree' j, createNodes tree i text = some (tree', j) ∧ Represents T' tree' ∧
      Grows T tree T' tree' ∧ j < T'.size ∧ T'.word j = T.word i ++ text := by
  induction text generalizing i T tree with
  | nil =>
    exact ⟨T, tree, i, rfl, h, ⟨le_rfl, fun _ _ => rfl, fun _ => rfl⟩, hi, by
      rw [List.append_nil]⟩
  | cons c text ih =>
    have hmiss := hnone c rfl
    obtain ⟨node, hget, hedge⟩ := h.get hi
    have hget' : (tree ++ [({} : AhoCorasickNode)])[i]? = some node := by
      rw [List.getElem?_append_left (h.length ▸ hi), hget]
    have hnew : (T.extend i c hi hmiss).word T.size = T.word i ++ [c] := if_pos rfl
    obtain ⟨T', tree', j, hrun, hrep, hgrows, hj, hword⟩ :=
      ih (h.extend hget hi hmiss) (i := T.size) (Nat.lt_succ_self _) (by
        intro d _
        by_contra hne
        obtain ⟨l, hl⟩ := Option.ne_none_iff_exists'.mp hne
        simp only [PrefixTrie.extend] at hl
        rw [if_neg (fun hand => by omega)] at hl
        exact lt_irrefl _ (T.edge_some T.size d l hl).1)
    refine ⟨T', tree', j, ?_, hrep, ⟨?_, ?_, ?_⟩, hj, ?_⟩
    · rw [createNodes, updateNode_eq hget', ← hrun, h.length]
      rfl
    · exact (Nat.le_succ _).trans hgrows.size
    · intro k hk
      rw [hgrows.word k (hk.trans (Nat.lt_succ_self _))]
      exact if_neg (Nat.ne_of_lt hk)
    · intro k
      rw [hgrows.foundAt, foundAt_extend hget]
      rfl
    · rw [hword, hnew, List.append_assoc, List.singleton_append]

/-- The tree of the patterns, before the failure edges are set. -/
structure HoldsPatterns (T : PrefixTrie SignedChar) (tree : Tree) (ps : List StringPattern) :
    Prop where
  represents : Represents T tree
  mem_foundAt : ∀ i < T.size, ∀ a,
    a ∈ foundAt tree i ↔ ∃ p ∈ ps, p.id = a ∧ p.pattern = T.word i
  exists_word : ∀ p ∈ ps, ∃ i < T.size, T.word i = p.pattern

lemma holdsPatterns_root : HoldsPatterns .root [AhoCorasickNode.setFailure {} 0] [] where
  represents := by
    refine ⟨rfl, ?_⟩
    intro i node hget d
    rw [List.getElem?_singleton] at hget
    split_ifs at hget
    cases hget
    rfl
  mem_foundAt := by
    intro i hi a
    have hi0 : i = 0 := Nat.lt_one_iff.mp hi
    rw [hi0]
    simp [foundAt, setFailure]
  exists_word := by simp

lemma insertPattern_spec {ps : List StringPattern} (h : HoldsPatterns T tree ps)
    (p : StringPattern) :
    ∃ T' tree', insertPatternIntoAhoCorasickTree tree p = some tree' ∧
      HoldsPatterns T' tree' (ps ++ [p]) := by
  obtain ⟨j, done, rest, hfollow, hj, htext, hword, hstop⟩ :=
    followPaths_spec p.pattern h.represents T.size_pos
  obtain ⟨T', tree', k, hcreate, hrep, hgrows, hk, hkword⟩ :=
    createNodes_spec h.represents hj hstop
  rw [T.word_root, List.nil_append] at hword
  rw [hword, ← htext] at hkword
  obtain ⟨node, hget, -⟩ := hrep.get hk
  refine ⟨T', tree'.set k (node.addMatch p.id), ?_, hrep.set hget _ rfl, ?_, ?_⟩
  · rw [insertPatternIntoAhoCorasickTree, hfollow]
    simp only [Option.bind_eq_bind, Option.bind_some, hcreate]
    exact updateNode_eq hget _
  · -- a node that is new has the word of no earlier pattern
    have hold : ∀ i < T'.size, ∀ a,
        a ∈ foundAt tree' i ↔ ∃ q ∈ ps, q.id = a ∧ q.pattern = T'.word i := by
      intro i hi a
      rw [hgrows.foundAt]
      by_cases hlt : i < T.size
      · rw [hgrows.word i hlt]
        exact h.mem_foundAt i hlt a
      · have hempty : foundAt tree i = ∅ := by
          rw [foundAt, List.getElem?_eq_none (h.represents.length ▸ not_lt.mp hlt)]
          rfl
        rw [hempty]
        constructor
        · intro ha
          exact absurd ha (Finset.notMem_empty a)
        · rintro ⟨q, hq, -, hqword⟩
          obtain ⟨l, hl, hlword⟩ := h.exists_word q hq
          rw [← hgrows.word l hl] at hlword
          exact absurd (T'.word_inj l (hl.trans_le hgrows.size) i hi (hlword.trans hqword) ▸ hl) hlt
    intro i hi a
    have hsplit : (∃ q ∈ ps ++ [p], q.id = a ∧ q.pattern = T'.word i) ↔
        (∃ q ∈ ps, q.id = a ∧ q.pattern = T'.word i) ∨ p.id = a ∧ i = k := by
      have hnode : p.pattern = T'.word i ↔ i = k := by
        rw [← hkword]
        constructor
        · exact fun heq => T'.word_inj i hi k hk heq.symm
        · rintro rfl
          rfl
      simp only [List.mem_append, List.mem_singleton, or_and_right, exists_or, exists_eq_left,
        hnode]
    rw [hsplit, ← hold i hi a, foundAt, getElem?_set_of_get hget]
    by_cases hik : i = k
    · rw [if_pos hik, hik, foundAt_eq hget]
      simp only [Option.map_some, Option.getD_some, addMatch, Finset.mem_insert, and_true]
      rw [or_comm, eq_comm]
    · rw [if_neg hik]
      simp only [hik, and_false, or_false]
      rfl
  · intro q hq
    rcases List.mem_append.mp hq with hq | hq
    · obtain ⟨l, hl, hlword⟩ := h.exists_word q hq
      exact ⟨l, hl.trans_le hgrows.size, (hgrows.word l hl).trans hlword⟩
    · rw [List.mem_singleton] at hq
      exact ⟨k, hk, by rw [hq, hkword]⟩

lemma insertPatterns_spec (ps qs : List StringPattern) (h : HoldsPatterns T tree ps) :
    ∃ T' tree', qs.foldlM insertPatternIntoAhoCorasickTree tree = some tree' ∧
      HoldsPatterns T' tree' (ps ++ qs) := by
  induction qs generalizing T tree ps with
  | nil => exact ⟨T, tree, rfl, by rwa [List.append_nil]⟩
  | cons q qs ih =>
    obtain ⟨T', tree', hinsert, h'⟩ := insertPattern_spec h q
    obtain ⟨T'', tree'', hrest, h''⟩ := ih _ h'
    refine ⟨T'', tree'', ?_, by rwa [List.append_assoc] at h''⟩
    rw [List.foldlM_cons, hinsert]
    exact hrest

end Chromium.SubstringSet
