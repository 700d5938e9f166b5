import Chromium.PrefixTrie

/-!
# Breadth-first order in a trie

A queue that starts with the children of the root and takes up the children of each node it
serves. When a node is served, every node that is no deeper has been in the queue, and when
the queue is empty, every node has been served.
-/
namespace Chromium.PrefixTrie

variable {α : Type*} {T : PrefixTrie α} {done queue children : List ℕ} {i j x : ℕ} {c : α}

/-- The distance of a node from the root. -/
def depth (T : PrefixTrie α) (i : ℕ) : ℕ := (T.word i).length

lemma depth_of_edge (h : T.edge i c = some j) : T.depth j = T.depth i + 1 := by
  obtain ⟨-, -, hw⟩ := T.edge_some i c j h
  rw [depth, hw, List.length_append, List.length_singleton]
  rfl

lemma edge_source_unique {i i' : ℕ} {c c' : α} (h : T.edge i c = some j)
    (h' : T.edge i' c' = some j) : i = i' := by
  obtain ⟨hi, -, hw⟩ := T.edge_some i c j h
  obtain ⟨hi', -, hw'⟩ := T.edge_some i' c' j h'
  obtain ⟨heq, -⟩ := List.append_inj' (hw.symm.trans hw') rfl
  exact T.word_inj i hi i' hi' heq

/-- Every node but the root is a child. -/
lemma exists_edge (hi : i < T.size) (h0 : i ≠ 0) : ∃ k c, T.edge k c = some i := by
  rcases List.eq_nil_or_concat (T.word i) with hnil | ⟨u, c, hw⟩
  · exact absurd ((word_eq_nil hi).mp hnil) h0
  · rw [List.concat_eq_append] at hw
    obtain ⟨k, hk⟩ := T.parent i hi u c hw
    exact ⟨k, c, hk⟩

/-- The list of the children of a node, in any order. -/
structure Children (T : PrefixTrie α) (i : ℕ) (children : List ℕ) : Prop where
  nodup : children.Nodup
  mem_iff : ∀ j, j ∈ children ↔ ∃ c, T.edge i c = some j

lemma Children.depth_eq (h : T.Children i children) (hj : j ∈ children) :
    T.depth j = T.depth i + 1 := by
  obtain ⟨c, hc⟩ := (h.mem_iff j).mp hj
  exact depth_of_edge hc

/-- The nodes served, and the queue of those that are next. -/
structure Frontier (T : PrefixTrie α) (done queue : List ℕ) : Prop where
  nodup : (done ++ queue).Nodup
  child : ∀ i c j, T.edge i c = some j → i = 0 ∨ i ∈ done → j ∈ done ++ queue
  parent : ∀ j ∈ done ++ queue, ∃ i c, T.edge i c = some j ∧ (i = 0 ∨ i ∈ done)
  sorted : queue.Pairwise fun i j => T.depth i ≤ T.depth j
  near : ∀ i ∈ queue, ∀ j ∈ queue, T.depth j ≤ T.depth i + 1

namespace Frontier

lemma start (h : T.Children 0 children) : T.Frontier [] children where
  nodup := h.nodup
  child := by
    rintro i c j hedge (rfl | hi)
    · exact (h.mem_iff j).mpr ⟨c, hedge⟩
    · cases hi
  parent := by
    intro j hj
    obtain ⟨c, hc⟩ := (h.mem_iff j).mp hj
    exact ⟨0, c, hc, .inl rfl⟩
  sorted := by
    apply List.pairwise_of_forall_mem_list
    intro i hi j hj
    rw [h.depth_eq hi, h.depth_eq hj]
  near := by
    intro i hi j hj
    rw [h.depth_eq hi, h.depth_eq hj]
    exact Nat.le_succ _

lemma lt (h : T.Frontier done queue) (hi : i ∈ done ++ queue) : i < T.size := by
  obtain ⟨k, c, hc, -⟩ := h.parent i hi
  exact (T.edge_some k c i hc).2.1

lemma ne_zero (h : T.Frontier done queue) (hi : i ∈ done ++ queue) : i ≠ 0 := by
  obtain ⟨k, c, hc, -⟩ := h.parent i hi
  exact edge_ne_zero hc

lemma not_mem_done (h : T.Frontier done (x :: queue)) : x ∉ done := fun hx =>
  List.disjoint_of_nodup_append h.nodup hx List.mem_cons_self

/-- The children of the node that is next are new. -/
lemma child_new (h : T.Frontier done (x :: queue)) (hedge : T.edge x c = some j) :
    j ∉ done ++ x :: queue := by
  intro hj
  obtain ⟨i, d, hd, hi⟩ := h.parent j hj
  rw [edge_source_unique hd hedge] at hi
  rcases hi with h0 | hdone
  · exact h.ne_zero (List.mem_append_right _ List.mem_cons_self) h0
  · exact h.not_mem_done hdone

lemma serve_append (done queue children : List ℕ) (x : ℕ) :
    done ++ [x] ++ (queue ++ children) = done ++ x :: queue ++ children := by
  simp only [List.append_assoc, List.cons_append, List.nil_append]

/-- A node is served: its children come last. -/
lemma serve (h : T.Frontier done (x :: queue)) (hc : T.Children x children) :
    T.Frontier (done ++ [x]) (queue ++ children) where
  nodup := by
    rw [serve_append, List.nodup_append]
    refine ⟨h.nodup, hc.nodup, ?_⟩
    rintro i hi j hj rfl
    obtain ⟨c, hedge⟩ := (hc.mem_iff i).mp hj
    exact h.child_new hedge hi
  child := by
    intro i c j hedge hi
    rw [serve_append]
    by_cases hx : i = x
    · rw [hx] at hedge
      exact List.mem_append_right _ ((hc.mem_iff j).mpr ⟨c, hedge⟩)
    · apply List.mem_append_left
      apply h.child i c j hedge
      simpa [hx] using hi
  parent := by
    intro j hj
    rw [serve_append, List.mem_append] at hj
    rcases hj with hold | hnew
    · obtain ⟨i, c, hedge, hi⟩ := h.parent j hold
      exact ⟨i, c, hedge, hi.imp_right (List.mem_append_left [x])⟩
    · obtain ⟨c, hedge⟩ := (hc.mem_iff j).mp hnew
      exact ⟨x, c, hedge, .inr (List.mem_append_right _ List.mem_cons_self)⟩
  sorted := by
    rw [List.pairwise_append]
    refine ⟨h.sorted.of_cons, ?_, ?_⟩
    · apply List.pairwise_of_forall_mem_list
      intro i hi j hj
      rw [hc.depth_eq hi, hc.depth_eq hj]
    · intro i hi j hj
      rw [hc.depth_eq hj]
      exact h.near x List.mem_cons_self i (List.mem_cons_of_mem x hi)
  near := by
    intro i hi j hj
    have hle : T.depth x ≤ T.depth i := by
      rcases List.mem_append.mp hi with hold | hnew
      · exact List.rel_of_pairwise_cons h.sorted hold
      · rw [hc.depth_eq hnew]
        exact Nat.le_succ _
    have hnear : T.depth j ≤ T.depth x + 1 := by
      rcases List.mem_append.mp hj with hold | hnew
      · exact h.near x List.mem_cons_self j (List.mem_cons_of_mem x hold)
      · rw [hc.depth_eq hnew]
    omega

/-- Every node that is no deeper than the next one has been in the queue. -/
lemma reached (h : T.Frontier done (x :: queue)) (hi : i < T.size) (h0 : i ≠ 0)
    (hle : T.depth i ≤ T.depth x) : i ∈ done ++ x :: queue := by
  induction hd : T.depth i using Nat.strong_induction_on generalizing i with
  | _ d ih =>
    obtain ⟨k, c, hedge⟩ := exists_edge hi h0
    have hdepth := depth_of_edge hedge
    apply h.child k c i hedge
    by_cases hk : k = 0
    · exact .inl hk
    · right
      have hmem := ih (T.depth k) (by omega) (T.edge_some k c i hedge).1 hk (by omega) rfl
      rcases List.mem_append.mp hmem with hdone | hqueue
      · exact hdone
      · -- the nodes in the queue are not less deep than the next one
        rcases List.mem_cons.mp hqueue with rfl | hrest
        · omega
        · have := List.rel_of_pairwise_cons h.sorted hrest
          omega

/-- When the queue is empty, every node has been served. -/
lemma served (h : T.Frontier done []) (hi : i < T.size) (h0 : i ≠ 0) : i ∈ done := by
  induction hd : T.depth i using Nat.strong_induction_on generalizing i with
  | _ d ih =>
    obtain ⟨k, c, hedge⟩ := exists_edge hi h0
    have hdepth := depth_of_edge hedge
    rw [← List.append_nil done]
    apply h.child k c i hedge
    by_cases hk : k = 0
    · exact .inl hk
    · exact .inr (ih (T.depth k) (by omega) (T.edge_some k c i hedge).1 hk rfl)

/-- Each node is served once. -/
lemma length_lt (h : T.Frontier done queue) : done.length + queue.length < T.size := by
  have hsub : (0 :: (done ++ queue)).toFinset ⊆ Finset.range T.size := by
    intro i hi
    rw [List.mem_toFinset, List.mem_cons] at hi
    rw [Finset.mem_range]
    rcases hi with rfl | hi
    · exact T.size_pos
    · exact h.lt hi
  have hnodup : (0 :: (done ++ queue)).Nodup :=
    List.nodup_cons.mpr ⟨fun hmem => h.ne_zero hmem rfl, h.nodup⟩
  have hcard := Finset.card_le_card hsub
  rw [List.toFinset_card_of_nodup hnodup, Finset.card_range, List.length_cons,
    List.length_append] at hcard
  exact hcard

end Frontier
end Chromium.PrefixTrie
