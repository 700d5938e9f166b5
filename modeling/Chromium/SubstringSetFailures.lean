import Chromium.SubstringSetTree

/-!
# The failure edges

The nodes are served in breadth-first order, so when a node's children get their failures,
those of all nodes on the way are set.
-/
namespace Chromium.SubstringSet

open AhoCorasickNode PrefixTrie

variable {tree tree' : Tree} {node : AhoCorasickNode} {T : PrefixTrie SignedChar}
variable {i j k x fuel : ℕ} {c : SignedChar} {t : Text} {own : ℕ → Finset ID}
variable {done queue : List ℕ}

/-- The failure and the matches of a node are final. -/
structure Linked (T : PrefixTrie SignedChar) (own : ℕ → Finset ID) (i : ℕ)
    (node : AhoCorasickNode) : Prop where
  links : T.Links i node.failure
  collects : T.Collects own i node.found

/-- All nodes up to a depth are final. -/
def LinkedTo (T : PrefixTrie SignedChar) (own : ℕ → Finset ID) (tree : Tree) (d : ℕ) : Prop :=
  ∀ i < T.size, T.depth i ≤ d → ∀ node, tree[i]? = some node → Linked T own i node

lemma followFailures_spec (h : Represents T tree) (hlinked : LinkedTo T own tree (T.depth i))
    (hi : T.Candidate t c i) (hfuel : T.depth i < fuel) :
    ∃ j e, followFailures tree c fuel i = some (j, e) ∧ T.Longest (t ++ [c]) (e.getD 0) ∧
      (e = none → j = 0) := by
  induction fuel generalizing i with
  | zero => exact absurd hfuel (Nat.not_lt_zero _)
  | succ fuel ih =>
    obtain ⟨node, hget, hedge⟩ := h.get hi.lt
    rw [followFailures, hget]
    simp only [Option.bind_eq_bind, Option.bind_some, hedge]
    cases hc : T.edge i c with
    | some next => exact ⟨i, some next, rfl, hi.hit hc, fun hnone => by cases hnone⟩
    | none =>
      by_cases h0 : i = 0
      · rw [h0] at hi hc
        exact ⟨i, none, if_pos h0, hi.miss hc, fun _ => h0⟩
      · have hlink := (hlinked i hi.lt le_rfl node hget).links
        have hless : T.depth node.failure < T.depth i := hlink.length_lt hi.lt h0
        obtain ⟨j, e, hrun, hlongest, hroot⟩ :=
          ih (fun k hk hle => hlinked k hk (hle.trans hless.le)) (hi.link hc h0 hlink) (by omega)
        exact ⟨j, e, by rw [← hrun]; exact if_neg h0, hlongest, hroot⟩

/-- One child gets its failure and its matches; no other node changes. -/
lemma createFailureEdge_spec (h : Represents T tree) (hlinked : LinkedTo T own tree (T.depth i))
    (h0 : i ≠ 0) (hedge : T.edge i c = some x) (hown : foundAt tree x = own x) :
    ∃ tree', createFailureEdge i tree (c, x) = some tree' ∧ Represents T tree' ∧
      (∀ node, tree'[x]? = some node → Linked T own x node) ∧
      ∀ k, k ≠ x → tree'[k]? = tree[k]? := by
  obtain ⟨hi, hx, hword⟩ := T.edge_some i c x hedge
  obtain ⟨node, hget, -⟩ := h.get hi
  obtain ⟨child, hchild, -⟩ := h.get hx
  have hlink := (hlinked i hi le_rfl node hget).links
  have hless : T.depth node.failure < T.depth i := hlink.length_lt hi h0
  have hsize : T.depth node.failure < tree.length := by
    rw [h.length]
    exact length_word_lt hlink.lt
  obtain ⟨j, e, hrun, hlongest, -⟩ := followFailures_spec h
    (fun k hk hle => hlinked k hk (hle.trans hless.le)) (hlink.candidate c) hsize
  generalize hfollow : e.getD 0 = follow at hlongest
  have hxlink : T.Links x follow := hlongest.links_of_edge hedge h0
  have hfollow_le : T.depth follow ≤ T.depth i := by
    have hlt : T.depth follow < T.depth x := hxlink.length_lt hx (edge_ne_zero hedge)
    have := depth_of_edge hedge
    omega
  have hne : follow ≠ x := by
    rintro rfl
    have := depth_of_edge hedge
    omega
  obtain ⟨failure, hfailure, -⟩ := h.get hlongest.lt
  have hcollects := (hlinked follow hlongest.lt hfollow_le failure hfailure).collects
  have hrep := h.set hchild (child.setFailure follow) rfl
  have hchild' : (tree.set x (child.setFailure follow))[x]? = some (child.setFailure follow) := by
    rw [getElem?_set_of_get hchild, if_pos rfl]
  refine ⟨_, ?_, hrep.set hchild' ((child.setFailure follow).addMatches failure.found) rfl,
    ?_, ?_⟩
  · rw [createFailureEdge, hget]
    simp only [Option.bind_eq_bind, Option.bind_some, hrun, hfollow, updateNode_eq hchild]
    rw [getElem?_set_of_get hchild, if_neg hne, hfailure, Option.bind_some,
      updateNode_eq hchild']
  · intro node' hnode'
    rw [getElem?_set_of_get hchild', if_pos rfl] at hnode'
    cases hnode'
    refine ⟨hxlink, ?_⟩
    have hfound : child.found = own x := by rw [← foundAt_eq hchild, hown]
    have := hcollects.of_links hx hxlink
    rwa [← hfound] at this
  · intro k hk
    rw [getElem?_set_of_get hchild', if_neg hk, getElem?_set_of_get hchild, if_neg hk]

/-- The targets of a node's edges are its children. -/
lemma Represents.children (h : Represents T tree) (hget : tree[i]? = some node) :
    T.Children i node.targets where
  nodup := by
    apply List.Nodup.map_on
    · rintro ⟨c, x⟩ hc ⟨d, y⟩ hd (rfl : x = y)
      rw [← SortedMap.find_eq_some] at hc hd
      have hc' := (T.edge_some i c x (h.getEdge i node hget c ▸ hc)).2.2
      have hd' := (T.edge_some i d x (h.getEdge i node hget d ▸ hd)).2.2
      have heq := List.append_cancel_left (hc'.symm.trans hd')
      rw [List.singleton_inj.mp heq]
    · exact node.edges.sorted.imp fun hlt heq => hlt.ne (congrArg Prod.fst heq)
  mem_iff := by
    intro j
    simp only [targets, List.mem_map, ← h.getEdge i node hget, AhoCorasickNode.getEdge,
      SortedMap.find_eq_some, Prod.exists, exists_eq_right]

/-- The inner loop: the children of a node get their failures. -/
lemma createFailureEdges_fold (h : Represents T tree) (hlinked : LinkedTo T own tree (T.depth i))
    (h0 : i ≠ 0) {es : List (SignedChar × ℕ)} (hedges : ∀ e ∈ es, T.edge i e.1 = some e.2)
    (hnodup : (es.map Prod.snd).Nodup) (hown : ∀ e ∈ es, foundAt tree e.2 = own e.2) :
    ∃ tree', es.foldlM (createFailureEdge i) tree = some tree' ∧ Represents T tree' ∧
      (∀ x ∈ es.map Prod.snd, ∀ node, tree'[x]? = some node → Linked T own x node) ∧
      ∀ k ∉ es.map Prod.snd, tree'[k]? = tree[k]? := by
  induction es generalizing tree with
  | nil => exact ⟨tree, rfl, h, by simp, fun _ _ => rfl⟩
  | cons e es ih =>
    rw [List.forall_mem_cons] at hedges hown
    rw [List.map_cons, List.nodup_cons] at hnodup
    obtain ⟨tree', hrun, hrep, hx, hsame⟩ := createFailureEdge_spec h hlinked h0 hedges.1 hown.1
    have hdepth := depth_of_edge hedges.1
    have hlinked' : LinkedTo T own tree' (T.depth i) := by
      intro k hk hle node hnode
      rw [hsame k (by rintro rfl; omega)] at hnode
      exact hlinked k hk hle node hnode
    have hown' : ∀ e' ∈ es, foundAt tree' e'.2 = own e'.2 := by
      intro e' he'
      have hne : e'.2 ≠ e.2 := fun heq => hnodup.1 (heq ▸ List.mem_map_of_mem he')
      rw [← hown.2 e' he', foundAt, foundAt, hsame _ hne]
    obtain ⟨tree'', hrest, hrep'', hlinked'', hsame''⟩ :=
      ih hrep hlinked' hedges.2 hnodup.2 hown'
    refine ⟨tree'', ?_, hrep'', ?_, ?_⟩
    · rw [List.foldlM_cons, hrun]
      exact hrest
    · rw [List.map_cons, List.forall_mem_cons]
      refine ⟨?_, hlinked''⟩
      rw [hsame'' e.2 hnodup.1]
      exact hx
    · intro k hk
      rw [List.map_cons, List.mem_cons, not_or] at hk
      rw [hsame'' k hk.2, hsame k hk.1]

/-- The nodes that have been in the queue are final, the others own what they found. -/
structure Progress (T : PrefixTrie SignedChar) (own : ℕ → Finset ID) (tree : Tree)
    (done queue : List ℕ) : Prop where
  represents : Represents T tree
  frontier : T.Frontier done queue
  linked : ∀ i, i = 0 ∨ i ∈ done ++ queue → ∀ node, tree[i]? = some node → Linked T own i node
  own : ∀ i, i ∉ done ++ queue → foundAt tree i = own i

lemma Progress.linkedTo (h : Progress T own tree done (x :: queue)) :
    LinkedTo T own tree (T.depth x) := by
  intro i hi hle
  apply h.linked i
  by_cases h0 : i = 0
  · exact .inl h0
  · exact .inr (h.frontier.reached hi h0 hle)

lemma Progress.serve (h : Progress T own tree done (x :: queue)) (hget : tree[x]? = some node) :
    ∃ tree', node.edges.entries.foldlM (createFailureEdge x) tree = some tree' ∧
      Progress T own tree' (done ++ [x]) (queue ++ node.targets) := by
  have hmem : x ∈ done ++ x :: queue := List.mem_append_right _ List.mem_cons_self
  have hchildren := h.represents.children hget
  have hedges : ∀ e ∈ node.edges.entries, T.edge x e.1 = some e.2 := by
    intro e he
    rw [← h.represents.getEdge x node hget]
    exact SortedMap.find_eq_some.mpr he
  obtain ⟨tree', hrun, hrep, hlinked, hsame⟩ := createFailureEdges_fold h.represents h.linkedTo
    (h.frontier.ne_zero hmem) hedges hchildren.nodup
    (fun e he => h.own e.2 (h.frontier.child_new (hedges e he)))
  refine ⟨tree', hrun, hrep, h.frontier.serve hchildren, ?_, ?_⟩
  · intro i hi
    by_cases hchild : i ∈ node.targets
    · exact hlinked i hchild
    · rw [hsame i hchild]
      apply h.linked i
      rw [Frontier.serve_append] at hi
      exact hi.imp_right fun hi => (List.mem_append.mp hi).resolve_right hchild
  · intro i hi
    rw [Frontier.serve_append, List.mem_append, not_or] at hi
    rw [← h.own i hi.1, foundAt, foundAt, hsame i hi.2]

/-- The tree is ready for searches. -/
structure Ready (T : PrefixTrie SignedChar) (own : ℕ → Finset ID) (tree : Tree) : Prop where
  represents : Represents T tree
  linked : ∀ i node, tree[i]? = some node → Linked T own i node
  root : foundAt tree 0 = own 0

lemma Progress.ready (h : Progress T own tree done []) : Ready T own tree where
  represents := h.represents
  linked := by
    intro i node hget
    apply h.linked i _ node hget
    have hi : i < T.size := by
      rw [← h.represents.length]
      exact (List.getElem?_eq_some_iff.mp hget).1
    by_cases h0 : i = 0
    · exact .inl h0
    · exact .inr (List.mem_append_left _ (h.frontier.served hi h0))
  root := h.own 0 fun hmem => h.frontier.ne_zero hmem rfl

/-- The outer loop ends, since each node is served once. -/
lemma serveQueue_spec (fuel : ℕ) (h : Progress T own tree done queue)
    (hfuel : T.size ≤ fuel + done.length) :
    ∃ tree', serveQueue fuel tree queue = some tree' ∧ Ready T own tree' := by
  induction fuel generalizing tree done queue with
  | zero =>
    have := h.frontier.length_lt
    omega
  | succ fuel ih =>
    cases queue with
    | nil => exact ⟨tree, rfl, h.ready⟩
    | cons x queue =>
      obtain ⟨node, hget, -⟩ :=
        h.represents.get (h.frontier.lt (List.mem_append_right _ List.mem_cons_self))
      obtain ⟨tree', hrun, h'⟩ := h.serve hget
      obtain ⟨tree'', hrest, hready⟩ := ih h' (by
        rw [List.length_append, List.length_singleton]
        omega)
      refine ⟨tree'', ?_, hready⟩
      rw [serveQueue, hget]
      simp only [Option.bind_eq_bind, Option.bind_some, hrun]
      exact hrest

lemma foundAt_set (hget : tree[i]? = some node) (node' : AhoCorasickNode)
    (hfound : node'.found = node.found) (k : ℕ) :
    foundAt (tree.set i node') k = foundAt tree k := by
  rw [foundAt, getElem?_set_of_get hget]
  split_ifs with hk
  · rw [hk, foundAt_eq hget, ← hfound]
    rfl
  · rfl

/-- The failures of some nodes are set to the root. -/
lemma linkToRoot_fold (h : Represents T tree) {xs : List ℕ} (hxs : ∀ x ∈ xs, x < T.size) :
    ∃ tree', xs.foldlM linkToRoot tree = some tree' ∧ Represents T tree' ∧
      (∀ k, foundAt tree' k = foundAt tree k) ∧ (∀ k ∉ xs, tree'[k]? = tree[k]?) ∧
      ∀ k ∈ xs, ∀ node, tree'[k]? = some node → node.failure = 0 := by
  induction xs generalizing tree with
  | nil => exact ⟨tree, rfl, h, fun _ => rfl, fun _ _ => rfl, by simp⟩
  | cons x xs ih =>
    rw [List.forall_mem_cons] at hxs
    obtain ⟨node, hget, -⟩ := h.get hxs.1
    obtain ⟨tree', hrun, hrep, hfound, hsame, hzero⟩ :=
      ih (h.set hget (node.setFailure 0) rfl) hxs.2
    refine ⟨tree', ?_, hrep, ?_, ?_, ?_⟩
    · rw [List.foldlM_cons, linkToRoot, updateNode_eq hget]
      exact hrun
    · intro k
      rw [hfound]
      exact foundAt_set hget (AhoCorasickNode.setFailure _ 0) rfl k
    · intro k hk
      rw [List.mem_cons, not_or] at hk
      rw [hsame k hk.2, getElem?_set_of_get hget, if_neg hk.1]
    · intro k hk node' hnode'
      by_cases hmem : k ∈ xs
      · exact hzero k hmem node' hnode'
      · have hkx : k = x := (List.mem_cons.mp hk).resolve_right hmem
        rw [hsame k hmem, getElem?_set_of_get hget, if_pos hkx] at hnode'
        cases hnode'
        rfl

lemma linked_root (hroot : node.found = own 0) (hfailure : node.failure = 0) :
    Linked T own 0 node := by
  refine ⟨?_, ?_⟩
  · rw [hfailure, Links, T.word_root]
    exact T.longest_nil
  · intro a
    rw [hroot, or_self]
    constructor
    · exact fun ha => ⟨0, T.size_pos, List.suffix_rfl, ha⟩
    · rintro ⟨k, hk, hsuf, ha⟩
      rw [T.word_root] at hsuf
      rwa [(word_eq_nil hk).mp (List.suffix_nil.mp hsuf)] at ha

theorem createFailureEdges_spec (h : Represents T tree) :
    ∃ tree', createFailureEdges tree = some tree' ∧ Ready T (foundAt tree) tree' := by
  obtain ⟨root, hget, -⟩ := h.get T.size_pos
  have hrep := h.set hget (root.setFailure 0) rfl
  have hget' : (tree.set 0 (root.setFailure 0))[0]? = some (root.setFailure 0) := by
    rw [getElem?_set_of_get hget, if_pos rfl]
  have hchildren := hrep.children hget'
  have hchild : ∀ x ∈ (root.setFailure 0).targets, x < T.size := by
    intro x hx
    obtain ⟨c, hc⟩ := (hchildren.mem_iff x).mp hx
    exact (T.edge_some 0 c x hc).2.1
  obtain ⟨tree', hfold, hrep', hfound, hsame, hzero⟩ := linkToRoot_fold hrep hchild
  have hown : ∀ k, foundAt tree' k = foundAt tree k := fun k =>
    (hfound k).trans (foundAt_set hget (AhoCorasickNode.setFailure _ 0) rfl k)
  have hprogress : Progress T (foundAt tree) tree' [] (root.setFailure 0).targets := by
    refine ⟨hrep', .start hchildren, ?_, fun k _ => hown k⟩
    rintro i hi node hnode
    have hnode_found : node.found = foundAt tree i := by rw [← hown i, foundAt_eq hnode]
    by_cases hmem : i ∈ (root.setFailure 0).targets
    · obtain ⟨c, hc⟩ := (hchildren.mem_iff i).mp hmem
      refine ⟨?_, ?_⟩
      · rw [hzero i hmem node hnode]
        exact links_of_root_edge hc
      · rw [hnode_found]
        exact collects_of_root_edge _ hc
    · obtain rfl : i = 0 := hi.resolve_right hmem
      rw [hsame 0 hmem, hget'] at hnode
      cases hnode
      exact linked_root hnode_found rfl
  obtain ⟨tree'', hserve, hready⟩ := serveQueue_spec tree'.length hprogress (by
    rw [hrep'.length]
    exact le_rfl)
  refine ⟨tree'', ?_, hready⟩
  rw [createFailureEdges, updateNode_eq hget]
  simp only [Option.bind_eq_bind, Option.bind_some, hget', hfold]
  exact hserve

end Chromium.SubstringSet
