import Chromium.Runs
import Chromium.StrikeRegisterLayout

/-!
# Runs of the strike register

The memory of the register always holds a well-formed crit-bit tree and two free
lists. Over a run, every accepted nonce is either still an entry or, once it was
evicted, covered by the horizon. The second part needs the time that `DropNode`
reads from an entry, most significant byte first, to be no smaller than the time
that `Insert` stored there in the byte order of the host.
-/
namespace Chromium.StrikeRegister
open CritBit FreeList BitTree Runs

section Indices

/-- The node indices of a register of `n` entries. -/
def indices (n : ℕ) : List Word := (List.range n).map (BitVec.ofNat 32)

variable {n : ℕ}

lemma mem_indices (hn : n < 2 ^ 23) {i : Word} : i ∈ indices n ↔ i.toNat < n := by
  simp only [indices, List.mem_map, List.mem_range]
  constructor
  · rintro ⟨k, hk, rfl⟩
    rw [BitVec.toNat_ofNat, Nat.mod_eq_of_lt (by omega)]
    exact hk
  · exact fun hi => ⟨i.toNat, hi, by simp⟩

lemma nodup_indices (hn : n < 2 ^ 23) : (indices n).Nodup := by
  refine List.Nodup.map_on (fun i hi j hj hij => ?_) List.nodup_range
  rw [List.mem_range] at hi hj
  have := congrArg BitVec.toNat hij
  rw [BitVec.toNat_ofNat, BitVec.toNat_ofNat, Nat.mod_eq_of_lt (by omega),
    Nat.mod_eq_of_lt (by omega)] at this
  exact this

lemma kNil_notMem_indices (hn : n < 2 ^ 23) : kNil ∉ indices n := by
  rw [mem_indices hn]
  have : kNil.toNat = 2 ^ 31 + 1 := by decide
  omega

lemma length_indices : (indices n).length = n := by
  simp [indices]

end Indices

/-- The memory of a register whose entries form the tree `t`. The nodes in `ints`
and `exts` were taken off the free lists and are not linked yet. -/
structure Memory (s : State) (ints exts : List Word) (t : Entries) : Prop where
  two_le : 2 ≤ s.maxEntries
  lt : s.maxEntries < 2 ^ 23
  low : s.internalNodeHead &&& 0xff#32 = 0
  rep : Rep s.internalNodes s.externalNodes (s.internalNodeHead >>> 8) t
  wf : Wf bit 0 t
  internal : Pool InternalNode.next kNil (indices s.maxEntries) s.internalNodes
    s.internalNodeFreeHead (ints ++ t.inner)
  external : Pool ExternalNode.word kNil (indices s.maxEntries) s.externalNodes
    s.externalNodeFreeHead (exts ++ labels t)

/-- The memory of an empty register. -/
structure Vacant (s : State) : Prop where
  two_le : 2 ≤ s.maxEntries
  lt : s.maxEntries < 2 ^ 23
  head : s.internalNodeHead = kNil
  internal : Pool InternalNode.next kNil (indices s.maxEntries) s.internalNodes
    s.internalNodeFreeHead []
  external : Pool ExternalNode.word kNil (indices s.maxEntries) s.externalNodes
    s.externalNodeFreeHead []

/-- The fields that no operation changes. -/
structure SameParameters (s s' : State) : Prop where
  maxEntries : s'.maxEntries = s.maxEntries
  windowSecs : s'.windowSecs = s.windowSecs
  internalEpoch : s'.internalEpoch = s.internalEpoch
  orbit : s'.orbit = s.orbit
  horizonValid : s'.horizonValid = s.horizonValid

lemma SameParameters.trans {s s' s'' : State} (h : SameParameters s s')
    (h' : SameParameters s' s'') : SameParameters s s'' :=
  ⟨h'.1.trans h.1, h'.2.trans h.2, h'.3.trans h.3, h'.4.trans h.4, h'.5.trans h.5⟩

/-- Nothing but the nodes and the root changed. -/
structure OnlyNodes (s s' : State) : Prop extends SameParameters s s' where
  horizon : s'.horizon = s.horizon
  internalNodeFreeHead : s'.internalNodeFreeHead = s.internalNodeFreeHead
  externalNodeFreeHead : s'.externalNodeFreeHead = s.externalNodeFreeHead

lemma OnlyNodes.trans {s s' s'' : State} (h : OnlyNodes s s') (h' : OnlyNodes s' s'') :
    OnlyNodes s s'' :=
  ⟨h.1.trans h'.1, h'.2.trans h.2, h'.3.trans h.3, h'.4.trans h.4⟩

lemma onlyNodes_store (s : State) (q : Place) (w : Word) : OnlyNodes s (s.store q w) := by
  cases q <;> exact ⟨⟨rfl, rfl, rfl, rfl, rfl⟩, rfl, rfl, rfl⟩

lemma onlyNodes_setInternalNode (s : State) (i : Word) (n : InternalNode) :
    OnlyNodes s (s.setInternalNode i n) :=
  ⟨⟨rfl, rfl, rfl, rfl, rfl⟩, rfl, rfl, rfl⟩

lemma onlyNodes_unlink (s : State) (q : Place) (a : Word) (n : InternalNode) :
    OnlyNodes s (unlink s q a n) :=
  (onlyNodes_setInternalNode s a n).trans (onlyNodes_store _ q _)

lemma onlyNodes_splice (s : State) (q : Place) (i : Word) (d : Bool) :
    OnlyNodes s (s.splice q i d) :=
  (onlyNodes_setInternalNode s i _).trans (onlyNodes_store _ q _)

/-- The register after `DropNode` freed entry `e` and its parent `a`, to which the
word at `q` pointed. -/
def dropped (s : State) (q : Place) (a e : Word) : State :=
  State.freeExternalNode
    { unlink s q a ((s.internalNodes a).setNextPtr s.internalNodeFreeHead) with
      horizon := (s.externalNodes e).time
      internalNodeFreeHead := a } e

lemma dropNode_eq {s : State} {q : Place} {a e : Word}
    (hwalk : s.dropWalk = some (e ||| kExternalFlag, .data a false, some q))
    (hload : s.load q >>> 8 = a) (he : e.toNat < 2 ^ 23) :
    s.dropNode = some (dropped s q a e) := by
  simp only [State.dropNode, hwalk, Option.bind_eq_bind, Option.bind_some, or_flag_and_not_flag he,
    mask_eq_repoint, Option.pure_def, Option.some.injEq]
  cases q <;>
    simp only [State.load] at hload <;>
    simp [dropped, unlink, State.freeInternalNode, State.freeExternalNode, State.setInternalNode,
      State.setExternalNode, State.load, State.store, Place.succ, hload, InternalNode.child]

/-- The register with the new entry written to its nodes, before they are linked. -/
def prepared (s : State) (v : ExternalNode) (i e : Word) (c : ℕ) : State :=
  (s.setExternalNode e v).setInternalNode i
    ((((s.internalNodes i).setChild (bit v c) (e ||| kExternalFlag)).setCritByte
      (BitVec.ofNat 8 (c / 8))).setOtherBits (allBut (c % 8)))

lemma linkValue_eq {s : State} {v : ExternalNode} {i e b : Word} {d : Fin 24} {c : ℕ}
    (hd : State.differingByte v (s.externalNodes b) = some d) (hdiv : c / 8 = d)
    (hfold : foldOtherBits (v d ^^^ s.externalNodes b d) = allBut (c % 8)) :
    s.linkValue v i e b =
      ((prepared s v i e c).whereLoop v (BitVec.ofNat 8 (c / 8)) (allBut (c % 8)) s.maxEntries
        .head).map fun q => ((prepared s v i e c).splice q i (bit v c), true) := by
  have hdir : decide (allBut (c % 8) ||| v d = 0xff) = bit v c := by
    have hbyte : v.byte (c / 8) = v d := by
      rw [hdiv]
      exact dif_pos d.isLt
    rw [bit, hbyte, Bool.eq_iff_iff, decide_eq_true_iff]
    exact allBut_or_eq _ (Nat.mod_lt _ (by omega)) _
  simp only [State.linkValue, hd, Option.bind_eq_bind, Option.bind_some, hfold, hdir, prepared,
    hdiv]
  exact Option.map_eq_bind.symm

lemma onlyNodes_prepared (s : State) (v : ExternalNode) (i e : Word) (c : ℕ) :
    OnlyNodes s (prepared s v i e c) :=
  ⟨⟨rfl, rfl, rfl, rfl, rfl⟩, rfl, rfl, rfl⟩

namespace Memory
variable {s : State} {ints exts : List Word} {t : Entries}

lemma nodup_inner (h : Memory s ints exts t) : t.inner.Nodup :=
  (List.nodup_append.mp (h.internal.nodup (nodup_indices h.lt))).2.1

lemma length_le (h : Memory s ints exts t) : t.leaves.length ≤ s.maxEntries := by
  have := h.external.length_le
  rw [length_indices, List.length_append, labels, List.length_map] at this
  omega

lemma head_ne_kNil (h : Memory s ints exts t) : s.internalNodeHead ≠ kNil := by
  intro heq
  have := h.low
  rw [heq] at this
  exact absurd this (by decide)

lemma bestMatch (h : Memory s ints exts t) (v : ExternalNode) :
    s.bestMatch v = some (t.find bit v).1 := by
  rw [State.bestMatch, if_neg h.head_ne_kNil, bestMatchLoop_eq v h.rep h.length_le]

lemma dropNode {a : Word} {t' : Entries} (h : Memory s ints [] t)
    (hdrop : t.dropFirst = some (a, t')) :
    ∃ s', s.dropNode = some s' ∧ Memory s' ints [] t' ∧ SameParameters s s' ∧
      s'.externalNodeFreeHead = t.first.1 ∧ s'.horizon = t.first.2.time := by
  have hall := nodup_indices h.lt
  have hoff : Place.head.Off t := by
    rintro i - ⟨d, hd⟩
    cases hd
  obtain ⟨q, hwalk, hload, hnotin, hplace, hrep⟩ :=
    dropLoop_spec (q := .head) none h.rep h.nodup_inner hoff hdrop h.length_le
  have hleaves := leaves_dropFirst hdrop
  obtain ⟨hvalue, hlt⟩ := h.rep.value (e := t.first) (by simp [hleaves])
  have hlabels : labels t = t.first.1 :: labels t' := by simp [labels, hleaves]
  have hinner := inner_dropFirst_perm hdrop
  have hinternal := (h.internal.perm (hinner.append_left ints)).perm List.perm_middle
  have hexternal := h.external
  rw [List.nil_append, hlabels] at hexternal
  have hnodup := List.nodup_cons.mp (hexternal.nodup hall)
  have hpool : Pool InternalNode.next kNil (indices s.maxEntries)
      (unlink s q a ((s.internalNodes a).setNextPtr s.internalNodeFreeHead)).internalNodes a
      (ints ++ t'.inner) := by
    refine (hinternal.push hall rfl).congr hall fun i hi => store_internalNodes ?_
    rintro ⟨d, rfl⟩
    rcases hplace with hd | ⟨j, hj, hd⟩ <;> cases hd
    have hmem := hinner.mem_iff.mp hj
    rcases List.mem_cons.mp hmem with rfl | hmem
    · exact hnotin ⟨_, rfl⟩
    · exact hi (List.mem_append_right ints hmem)
  have hlow : (unlink s q a
      ((s.internalNodes a).setNextPtr s.internalNodeFreeHead)).internalNodeHead &&&
        0xff#32 = 0 := by
    rcases hplace with rfl | ⟨j, -, rfl⟩
    · exact (repoint_mask _ _).trans h.low
    · exact h.low
  have honly := onlyNodes_unlink s q a ((s.internalNodes a).setNextPtr s.internalNodeFreeHead)
  have hmax := honly.maxEntries
  have hexts : (unlink s q a ((s.internalNodes a).setNextPtr
      s.internalNodeFreeHead)).externalNodes = s.externalNodes := store_externalNodes
  refine ⟨dropped s q a t.first.1, dropNode_eq hwalk hload hlt,
    ⟨hmax ▸ h.two_le, hmax ▸ h.lt, hlow, ?_, h.wf.dropFirst hdrop, ?_, ?_⟩, ?_, rfl, ?_⟩
  · refine (hrep _).congr (fun _ _ => rfl) fun i hi => ?_
    have hne : i ≠ t.first.1 := fun hne => hnodup.1 (hne ▸ hi)
    exact (Function.update_of_ne hne _ _).trans (congrFun hexts i)
  · exact hmax.symm ▸ hpool
  · have := hexternal.push hall (ExternalNode.word_setWord (s.externalNodes t.first.1) _)
    rw [← hmax, ← hexts, ← honly.externalNodeFreeHead] at this
    exact this
  · exact ⟨honly.1.1, honly.1.2, honly.1.3, honly.1.4, honly.1.5⟩
  · exact congrArg ExternalNode.time hvalue

/-- There is always a free inner node: a tree has one fewer of them than leaves. -/
lemma getFreeInternalNode (h : Memory s [] [] t) :
    ∃ i w, State.getFreeInternalNode 2 s = some (i, { s with internalNodeFreeHead := w }) ∧
      Memory { s with internalNodeFreeHead := w } [i] [] t := by
  have hne : s.internalNodeFreeHead ≠ kNil := by
    rw [Ne, h.internal.head_eq_nil_iff (kNil_notMem_indices h.lt), length_indices,
      List.nil_append]
    have := h.length_le
    rw [leaves_length] at this
    omega
  refine ⟨s.internalNodeFreeHead, (s.internalNodes s.internalNodeFreeHead).next, ?_,
    ⟨h.two_le, h.lt, h.low, h.rep, h.wf, h.internal.pop hne, h.external⟩⟩
  rw [State.getFreeInternalNode, if_neg hne]

/-- The tree after a node was taken for a new entry: unchanged while there is a
free node, and without its first entry in a full register. -/
def Evicted (s : State) (t : Entries) (e : Word) (s' : State) (t' : Entries) : Prop :=
  (s.externalNodeFreeHead ≠ kNil ∧ t' = t ∧ s'.horizon = s.horizon) ∨
    (s.externalNodeFreeHead = kNil ∧ ∃ a, t.dropFirst = some (a, t') ∧ e = t.first.1 ∧
      s'.horizon = t.first.2.time)

lemma takeExternal (h : Memory s ints [] t) (hne : s.externalNodeFreeHead ≠ kNil) (fuel : ℕ) :
    ∃ w, State.getFreeExternalNode (fuel + 1) s =
        some (s.externalNodeFreeHead, { s with externalNodeFreeHead := w }) ∧
      Memory { s with externalNodeFreeHead := w } ints [s.externalNodeFreeHead] t := by
  refine ⟨(s.externalNodes s.externalNodeFreeHead).word, ?_,
    ⟨h.two_le, h.lt, h.low, h.rep, h.wf, h.internal, h.external.pop hne⟩⟩
  rw [State.getFreeExternalNode, if_neg hne]

lemma getFreeExternalNode (h : Memory s ints [] t) :
    ∃ e s' t', State.getFreeExternalNode 2 s = some (e, s') ∧ Memory s' ints [e] t' ∧
      SameParameters s s' ∧ Evicted s t e s' t' := by
  by_cases hfull : s.externalNodeFreeHead = kNil
  · -- a full register has at least two entries, so the tree does not become empty
    have hlen := (h.external.head_eq_nil_iff (kNil_notMem_indices h.lt)).mp hfull
    have htwo := h.two_le
    rw [length_indices, List.nil_append, labels, List.length_map] at hlen
    have hdrop : t.dropFirst ≠ none := by
      intro hnone
      obtain ⟨b, k, rfl⟩ := dropFirst_eq_none.mp hnone
      rw [leaves_leaf, List.length_singleton] at hlen
      omega
    obtain ⟨⟨a, t'⟩, hdrop⟩ := Option.ne_none_iff_exists'.mp hdrop
    obtain ⟨s', hs', hmem, hsame, hhead, hhorizon⟩ := h.dropNode hdrop
    have hlt := (h.rep.value (e := t.first) (by simp [leaves_dropFirst hdrop])).2
    have hne : s'.externalNodeFreeHead ≠ kNil := by
      rw [hhead]
      intro heq
      rw [heq] at hlt
      exact absurd hlt (by decide)
    obtain ⟨w, htake, hmem'⟩ := hmem.takeExternal hne 0
    rw [hhead] at htake hmem'
    refine ⟨t.first.1, _, t', ?_, hmem', ⟨hsame.1, hsame.2, hsame.3, hsame.4, hsame.5⟩,
      .inr ⟨hfull, a, hdrop, rfl, hhorizon⟩⟩
    rw [State.getFreeExternalNode, if_pos hfull, hs']
    exact htake
  · obtain ⟨w, htake, hmem⟩ := h.takeExternal hfull 1
    exact ⟨_, _, t, htake, hmem, ⟨rfl, rfl, rfl, rfl, rfl⟩, .inl ⟨hfull, rfl, rfl⟩⟩

/-- Linking a value that is not its own best match. -/
lemma linkValue {i e : Word} {v : ExternalNode} (h : Memory s [i] [e] t)
    (hv : (t.find bit v).2 ≠ v) :
    ∃ s' t', s.linkValue v i e (t.find bit v).1 = some (s', true) ∧ Memory s' [] [] t' ∧
      SameParameters s s' ∧ s'.horizon = s.horizon ∧ t'.leaves.Perm ((e, v) :: t.leaves) := by
  have hall := nodup_indices h.lt
  have hi := (List.nodup_cons.mp (h.internal.nodup hall)).1
  have he := (List.nodup_cons.mp (h.external.nodup hall)).1
  have hilt := (mem_indices h.lt).mp (h.internal.mem_all List.mem_cons_self)
  have helt := (mem_indices h.lt).mp (h.external.mem_all List.mem_cons_self)
  have hmax := h.lt
  obtain ⟨d, c, hd, hc, hdiv, hfold, hdiff⟩ := firstDiff_of_ne hv
  have hbest := (h.rep.value (find_mem bit v t)).1
  let s₁ := prepared s v i e c
  have hself : s₁.internalNodes i = ((((s.internalNodes i).setChild (bit v c)
      (e ||| kExternalFlag)).setCritByte (BitVec.ofNat 8 (c / 8))).setOtherBits (allBut (c % 8))) :=
    Function.update_self _ _ _
  have hints : ∀ j, j ≠ i → s₁.internalNodes j = s.internalNodes j :=
    fun j hj => Function.update_of_ne hj _ _
  have hexts : ∀ j, j ≠ e → s₁.externalNodes j = s.externalNodes j :=
    fun j hj => Function.update_of_ne hj _ _
  have hnew : NewNode s₁ i e c v := by
    refine ⟨by omega, by omega, ?_, ?_, Function.update_self _ _ _⟩
    · rw [hself]
      exact ⟨hc, by simp, by simp⟩
    · rw [hself]
      simp [InternalNode.child_setChild_self _ _ (or_flag_lt (i := e) (by omega))]
  have hrep : Rep s₁.internalNodes s₁.externalNodes (s₁.load .head >>> 8) t :=
    h.rep.congr (fun j hj => hints j fun hji => hi (hji ▸ hj))
      fun j hj => hexts j fun hje => he (hje ▸ hj)
  have hhead : ∀ j, ¬ Place.head.In j := by
    rintro j ⟨d, hd⟩
    cases hd
  obtain ⟨q, hwalk, hplace, hrep'⟩ := whereLoop_spec hnew hrep h.nodup_inner
    (fun j _ => hhead j) (hhead i) hi h.wf hdiff h.length_le
  have honly := (onlyNodes_prepared s v i e c).trans (onlyNodes_splice s₁ q i (bit v c))
  have hmax' := honly.maxEntries
  refine ⟨s₁.splice q i (bit v c), t.insert bit i c e v, ?_, ⟨?_, ?_, ?_, ?_, ?_, ?_, ?_⟩, ?_, ?_,
    leaves_insert_perm bit i c e v t⟩
  · rw [linkValue_eq (hbest.symm ▸ hd) hdiv (hbest.symm ▸ hfold)]
    exact congrArg (Option.map _) hwalk
  · exact hmax' ▸ h.two_le
  · exact hmax' ▸ h.lt
  · exact (splice_low s₁ q i (bit v c)).trans h.low
  · rw [splice_externalNodes]
    exact hrep'
  · exact h.wf.insert (Nat.zero_le c) hdiff
  · rw [hmax', honly.internalNodeFreeHead]
    refine (h.internal.congr hall fun j hj => ?_).perm (inner_insert_perm bit i c e v t).symm
    rw [List.singleton_append, List.mem_cons, not_or] at hj
    rw [splice_eq, store_internalNodes]
    · exact (Function.update_of_ne hj.1 _ _).trans (hints j hj.1)
    · rintro ⟨d, rfl⟩
      rcases hplace with hd | ⟨k, hk, d', hd⟩ <;> cases hd
      exact hj.2 hk
  · rw [hmax', honly.externalNodeFreeHead, splice_externalNodes]
    refine (h.external.congr hall fun j hj => ?_).perm
      ((leaves_insert_perm bit i c e v t).map Prod.fst).symm
    exact hexts j fun hje => hj (by simp [hje])
  · exact honly.toSameParameters
  · exact honly.horizon

lemma oldest {a : Word} {t' : Entries} (h : Memory s [] [] t)
    (hdrop : t.dropFirst = some (a, t')) : s.oldest = some t.first.2 := by
  have hoff : Place.head.Off t := by
    rintro i - ⟨d, hd⟩
    cases hd
  obtain ⟨q, hwalk, -⟩ :=
    dropLoop_spec (q := .head) none h.rep h.nodup_inner hoff hdrop h.length_le
  obtain ⟨hvalue, hlt⟩ := h.rep.value (e := t.first) (by simp [leaves_dropFirst hdrop])
  have hwalk' : s.dropWalk = some (t.first.1 ||| kExternalFlag, .data a false, some q) := hwalk
  rw [State.oldest, hwalk', Option.map_some, or_flag_and_not_flag hlt, hvalue]

/-- What adding an entry does to the others: all stay, or a full register loses
the one that `DropNode` picks and sets the horizon from it. -/
def Displaced (s s' : State) (keys keys' : List ExternalNode) : Prop :=
  (s'.horizon = s.horizon ∧ ∀ k ∈ keys, k ∈ keys') ∨
    (s.externalNodeFreeHead = kNil ∧ ∃ old, s.oldest = some old ∧ s'.horizon = old.time ∧
      ∀ k ∈ keys, k = old ∨ k ∈ keys')

/-- The values after one was added: all stay, or a full register loses the first. -/
def Replaces (s s' : State) (v : ExternalNode) (keys keys' : List ExternalNode) : Prop :=
  (s.externalNodeFreeHead ≠ kNil ∧ s'.horizon = s.horizon ∧ keys'.Perm (v :: keys)) ∨
    (s.externalNodeFreeHead = kNil ∧ ∃ old rest, s.oldest = some old ∧ s'.horizon = old.time ∧
      keys = old :: rest ∧ keys'.Perm (v :: rest))

lemma Replaces.displaced {s s' : State} {v : ExternalNode} {keys keys' : List ExternalNode}
    (h : Replaces s s' v keys keys') : v ∈ keys' ∧ Displaced s s' keys keys' := by
  rcases h with ⟨-, hhorizon, hperm⟩ | ⟨hfull, old, rest, hold, hhorizon, rfl, hperm⟩
  · exact ⟨hperm.mem_iff.mpr List.mem_cons_self,
      .inl ⟨hhorizon, fun k hk => hperm.mem_iff.mpr (List.mem_cons_of_mem v hk)⟩⟩
  · refine ⟨hperm.mem_iff.mpr List.mem_cons_self, .inr ⟨hfull, old, hold, hhorizon, fun k hk => ?_⟩⟩
    exact (List.mem_cons.mp hk).imp_right fun hk =>
      hperm.mem_iff.mpr (List.mem_cons_of_mem v hk)

lemma insertValue {v : ExternalNode} (h : Memory s [] [] t) (hv : (t.find bit v).2 ≠ v) :
    ∃ s' t', s.insertValue v (t.find bit v).1 = some (s', true) ∧ Memory s' [] [] t' ∧
      SameParameters s s' ∧ Replaces s s' v t.keys t'.keys := by
  obtain ⟨i, w, hinternal, hmem₁⟩ := h.getFreeInternalNode
  obtain ⟨e, s₂, t₂, hexternal, hmem₂, hsame, hevicted⟩ := hmem₁.getFreeExternalNode
  have hkeys : ∀ k ∈ t₂.keys, k ∈ t.keys := by
    rcases hevicted with ⟨-, rfl, -⟩ | ⟨-, a, hdrop, -⟩
    · exact fun k hk => hk
    · intro k hk
      rw [keys, leaves_dropFirst hdrop]
      exact List.mem_cons_of_mem _ hk
  have hv₂ : (t₂.find bit v).2 ≠ v := fun hfind =>
    hv (h.wf.find_key (hkeys v (hfind ▸ List.mem_map_of_mem (find_mem bit v t₂))))
  -- the best match is searched again if its node is the one that was reused
  have hmatch : (if e = (t.find bit v).1 then s₂.bestMatch v else some (t.find bit v).1) =
      some (t₂.find bit v).1 := by
    split_ifs with he
    · exact hmem₂.bestMatch v
    · rcases hevicted with ⟨-, rfl, -⟩ | ⟨-, a, hdrop, hfirst, -⟩
      · rfl
      · rw [find_dropFirst hdrop]
        exact fun hfind => he (hfirst.trans (congrArg Prod.fst hfind.symm))
  obtain ⟨s', t', hlink, hmem', hsame', hhorizon, hperm⟩ := hmem₂.linkValue hv₂
  have hperm' : t'.keys.Perm (v :: t₂.keys) := hperm.map Prod.snd
  refine ⟨s', t', ?_, hmem', ?_, ?_⟩
  · simp only [State.insertValue, hinternal, hexternal, Option.bind_eq_bind, Option.bind_some]
    split_ifs at hmatch ⊢
    · rw [hmatch]
      exact hlink
    · rw [Option.some.inj hmatch]
      exact hlink
  · exact SameParameters.trans ⟨hsame.1, hsame.2, hsame.3, hsame.4, hsame.5⟩ hsame'
  · rcases hevicted with ⟨hroom, rfl, hsameh⟩ | ⟨hfull, a, hdrop, -, hdroph⟩
    · exact .inl ⟨hroom, hhorizon.trans hsameh, hperm'⟩
    · refine .inr ⟨hfull, t.first.2, t₂.keys, h.oldest hdrop, hhorizon.trans hdroph, ?_, hperm'⟩
      rw [keys, leaves_dropFirst hdrop, List.map_cons, keys]

end Memory

/-- The values that a register holds. -/
def Holds (s : State) (keys : List ExternalNode) : Prop :=
  (Vacant s ∧ keys = []) ∨ ∃ t, Memory s [] [] t ∧ keys = t.keys

lemma Vacant.free_ne_kNil {s : State} (h : Vacant s) : s.externalNodeFreeHead ≠ kNil := by
  rw [Ne, h.external.head_eq_nil_iff (kNil_notMem_indices h.lt), length_indices]
  have := h.two_le
  simp only [List.length_nil]
  omega

lemma Vacant.insertFirst {s : State} (h : Vacant s) (v : ExternalNode) :
    ∃ e w, State.getFreeExternalNode 2 s = some (e, { s with externalNodeFreeHead := w }) ∧
      Memory { State.setExternalNode { s with externalNodeFreeHead := w } e v with
        internalNodeHead := (e ||| kExternalFlag) <<< 8 } [] [] (leaf e v) := by
  have hall := nodup_indices h.lt
  have hmax := h.lt
  have hne := h.free_ne_kNil
  have hpop := h.external.pop hne
  have hlt := (mem_indices h.lt).mp (hpop.mem_all List.mem_cons_self)
  have hhead : ∀ w : Word, w <<< 8 = repoint 0 w := by
    intro w
    simp [repoint]
  refine ⟨s.externalNodeFreeHead, (s.externalNodes s.externalNodeFreeHead).word, ?_,
    ⟨h.two_le, h.lt, ?_, ?_, trivial, h.internal, ?_⟩⟩
  · rw [State.getFreeExternalNode, if_neg hne]
  · dsimp only
    rw [hhead, repoint_mask]
    rfl
  · dsimp only
    rw [hhead, repoint_shift (or_flag_lt (by omega))]
    exact ⟨rfl, by omega, Function.update_self _ _ _⟩
  · exact hpop.congr hall fun i hi => Function.update_of_ne (fun hie => hi (by simp [hie])) _ _

/-- What an accepted nonce does: it was not stored before, it is stored afterwards,
and at most one other value had to go. -/
def Accepts (s s' : State) (nonce : Nonce) (now : Word) (keys : List ExternalNode) : Prop :=
  s.admits nonce now = true ∧ s.value nonce ∉ keys ∧
    ∃ keys', Holds s' keys' ∧ s.value nonce ∈ keys' ∧
      ((s'.horizon = s.horizon ∧ ∀ k ∈ keys, k ∈ keys') ∨
        (s.Evicts nonce now ∧ ∃ old, s.oldest = some old ∧ s'.horizon = old.time ∧
          ∀ k ∈ keys, k = old ∨ k ∈ keys'))

/-- What one `Insert` makes of the register and of the values in it. -/
inductive Inserts (s : State) (nonce : Nonce) (now : Word) (keys : List ExternalNode) :
    State → Bool → List ExternalNode → Prop
  | rejected (h : s.admits nonce now = false) : Inserts s nonce now keys s false keys
  | found (h : s.admits nonce now = true) (hv : s.value nonce ∈ keys) :
      Inserts s nonce now keys s false keys
  | added {s' : State} {keys' : List ExternalNode} (h : s.admits nonce now = true)
      (hv : s.value nonce ∉ keys) (hreplaces : Memory.Replaces s s' (s.value nonce) keys keys') :
      Inserts s nonce now keys s' true keys'

/-- One `Insert` returns, without its failing check. -/
lemma Holds.inserts {s : State} {keys : List ExternalNode} (h : Holds s keys) (nonce : Nonce)
    (now : Word) :
    ∃ s' ok keys', s.insert nonce now = some (s', ok) ∧ SameParameters s s' ∧ Holds s' keys' ∧
      Inserts s nonce now keys s' ok keys' := by
  have hrefl : SameParameters s s := ⟨rfl, rfl, rfl, rfl, rfl⟩
  by_cases hadmits : s.admits nonce now = true
  swap
  · exact ⟨s, false, keys, if_neg hadmits, hrefl, h, .rejected (Bool.eq_false_iff.mpr hadmits)⟩
  rw [State.insert, if_pos hadmits]
  rcases h with ⟨h, rfl⟩ | ⟨t, h, rfl⟩
  · obtain ⟨e, w, hget, hmem⟩ := h.insertFirst (s.value nonce)
    have hmatch : s.bestMatch (s.value nonce) = some kNil := if_pos h.head
    refine ⟨{ State.setExternalNode { s with externalNodeFreeHead := w } e (s.value nonce) with
      internalNodeHead := (e ||| kExternalFlag) <<< 8 }, true, [s.value nonce], ?_,
      ⟨rfl, rfl, rfl, rfl, rfl⟩, .inr ⟨_, hmem, rfl⟩,
      .added hadmits (by simp) (.inl ⟨h.free_ne_kNil, rfl, .refl _⟩)⟩
    simp only [hmatch, hget, Option.bind_eq_bind, Option.bind_some, if_true]
    rfl
  · have hmatch := h.bestMatch (s.value nonce)
    have hfound := find_mem bit (s.value nonce) t
    obtain ⟨hvalue, hlt⟩ := h.rep.value hfound
    have hne : (t.find bit (s.value nonce)).1 ≠ kNil := by
      intro heq
      rw [heq] at hlt
      exact absurd hlt (by decide)
    simp only [hmatch, Option.bind_eq_bind, Option.bind_some, if_neg hne, hvalue]
    split_ifs with hsame
    · refine ⟨s, false, t.keys, rfl, hrefl, .inr ⟨t, h, rfl⟩, .found hadmits ?_⟩
      rw [← hsame]
      exact List.mem_map_of_mem hfound
    · obtain ⟨s', t', hinsert, hmem, hparams, hreplaces⟩ := h.insertValue hsame
      exact ⟨s', true, t'.keys, hinsert, hparams, .inr ⟨t', hmem, rfl⟩,
        .added hadmits (fun hk => hsame (h.wf.find_key hk)) hreplaces⟩

/-- The best match of a value that is not stored is another one. -/
lemma Holds.evicts {s : State} {keys : List ExternalNode} (h : Holds s keys) {nonce : Nonce}
    {now : Word} (hadmits : s.admits nonce now = true) (hv : s.value nonce ∉ keys)
    (hfull : s.externalNodeFreeHead = kNil) : s.Evicts nonce now := by
  refine ⟨hadmits, hfull, ?_⟩
  rcases h with ⟨h, rfl⟩ | ⟨t, h, rfl⟩
  · exact absurd hfull h.free_ne_kNil
  · have hfound := find_mem bit (s.value nonce) t
    have hvalue := (h.rep.value hfound).1
    rw [h.bestMatch]
    simp only [Option.all_some, hvalue, ne_eq, decide_not, Bool.not_eq_eq_eq_not, Bool.not_true,
      decide_eq_false_iff_not]
    exact fun heq => hv (heq ▸ List.mem_map_of_mem hfound)

/-- One `Insert`: it returns, and a rejected nonce changes nothing. -/
theorem Holds.insert {s : State} {keys : List ExternalNode} (h : Holds s keys) (nonce : Nonce)
    (now : Word) :
    ∃ s' ok, s.insert nonce now = some (s', ok) ∧ SameParameters s s' ∧
      (ok = false → s' = s) ∧ (ok = true → Accepts s s' nonce now keys) := by
  obtain ⟨s', ok, keys', hinsert, hparams, hholds, hinserts⟩ := h.inserts nonce now
  refine ⟨s', ok, hinsert, hparams, ?_, ?_⟩
  · rintro rfl
    cases hinserts with
    | rejected _ => rfl
    | found _ _ => rfl
  · rintro rfl
    cases hinserts with
    | added hadmits hv hreplaces =>
      obtain ⟨hmem, hdisplaced⟩ := hreplaces.displaced
      refine ⟨hadmits, hv, keys', hholds, hmem, ?_⟩
      exact hdisplaced.imp_right fun hfull => ⟨h.evicts hadmits hv hfull.1, hfull.2⟩

section Initial
variable {ν : Type} {next : ν → Word} {setNextPtr : ν → Word → ν} {n : ℕ}

/-- The loop of `Reset` links each node to the one after it. -/
lemma thread_next (hnext : ∀ x w, next (setNextPtr x w) = w) (hn : n < 2 ^ 23)
    (nodes : Word → ν) {i : ℕ} (hi : i < n) :
    next (thread setNextPtr n nodes (BitVec.ofNat 32 i)) =
      if i + 1 = n then kNil else BitVec.ofNat 32 (i + 1) := by
  have hne : ∀ {j k : ℕ}, j < n → k < n → j ≠ k → BitVec.ofNat 32 j ≠ BitVec.ofNat 32 k := by
    intro j k hj hk hjk heq
    have := congrArg BitVec.toNat heq
    rw [BitVec.toNat_ofNat, BitVec.toNat_ofNat, Nat.mod_eq_of_lt (by omega),
      Nat.mod_eq_of_lt (by omega)] at this
    exact hjk this
  have hloop : ∀ m ≤ n - 1, ∀ j < m, next ((List.range m).foldl (fun nodes i =>
      Function.update nodes (BitVec.ofNat 32 i)
        (setNextPtr (nodes (BitVec.ofNat 32 i)) (BitVec.ofNat 32 (i + 1)))) nodes
      (BitVec.ofNat 32 j)) = BitVec.ofNat 32 (j + 1) := by
    intro m
    induction m with
    | zero => simp
    | succ m ih =>
      intro hm j hj
      rw [List.range_succ, List.foldl_append, List.foldl_cons, List.foldl_nil]
      rcases Nat.lt_succ_iff_lt_or_eq.mp hj with hj | rfl
      · rw [Function.update_of_ne (hne (by omega) (by omega) (by omega))]
        exact ih (by omega) j hj
      · rw [Function.update_self, hnext]
  rw [thread]
  split_ifs with hlast
  · have : i = n - 1 := by omega
    rw [this, Function.update_self, hnext]
  · rw [Function.update_of_ne (hne hi (by omega) (by omega))]
    exact hloop (n - 1) le_rfl i (by omega)

lemma pool_thread (hnext : ∀ x w, next (setNextPtr x w) = w) (hn : n < 2 ^ 23) (hpos : 0 < n)
    (nodes : Word → ν) :
    Pool next kNil (indices n) (thread setNextPtr n nodes) 0 [] := by
  have hchain : ∀ m k, k + m = n → Chain next kNil (thread setNextPtr n nodes)
      (if k = n then kNil else BitVec.ofNat 32 k)
      ((List.range' k m).map (BitVec.ofNat 32)) := by
    intro m
    induction m with
    | zero =>
      intro k hk
      exact if_pos (by omega)
    | succ m ih =>
      intro k hk
      rw [List.range'_succ, List.map_cons]
      refine ⟨if_neg (by omega), ?_⟩
      rw [thread_next hnext hn nodes (by omega)]
      exact ih (k + 1) (by omega)
  have h := hchain n 0 (by omega)
  rw [if_neg (by omega), ← List.range_eq_range'] at h
  exact ⟨indices n, h, by simp⟩

lemma vacant_create {ints : Word → InternalNode} {exts : Word → ExternalNode} {max : ℕ}
    {now window : Word} {orbit : Fin 8 → Byte} {startup : StartupType} {s : State}
    (h : State.create ints exts max now window orbit startup = some s) : Vacant s := by
  rw [State.create] at h
  by_cases hmax : max < 2 ^ 23 ∧ 1 < max
  swap
  · rw [if_neg hmax] at h
    cases h
  rw [if_pos hmax, Option.some.injEq] at h
  subst h
  exact ⟨hmax.2, hmax.1, rfl, pool_thread (fun _ _ => rfl) hmax.1 (by omega) ints,
    pool_thread ExternalNode.word_setWord hmax.1 (by omega) exts⟩

end Initial

/-- A register with the nonces it has accepted, the latest first. -/
structure Log where
  register : State
  accepted : List Nonce

/-- One call of `Insert`. -/
def Log.insert (r : Log) (call : Nonce × Word) : Option Log :=
  (r.register.insert call.1 call.2).map fun result =>
    ⟨result.1, if result.2 then call.1 :: r.accepted else r.accepted⟩

def Step (r : Log) (call : Nonce × Word) (r' : Log) : Prop := r.insert call = some r'

/-- The horizon will cover what `DropNode` is about to evict: the horizon counts,
the time read from the entry is not before the time stored in it, and the horizon
does not move back. -/
def Covered (s : State) : Prop :=
  s.horizonValid = true ∧ s.oldest.all fun old => old.word ≤ old.time ∧ s.horizon ≤ old.time

/-- A call of `Insert` that evicts an entry only if the horizon will cover it. -/
def SafeStep (r : Log) (call : Nonce × Word) (r' : Log) : Prop :=
  Step r call r' ∧ (r.register.Evicts call.1 call.2 → Covered r.register)

instance (s : State) (nonce : Nonce) (now : Word) : Decidable (s.Evicts nonce now) :=
  inferInstanceAs (Decidable (_ ∧ _ ∧ _))

instance (s : State) : Decidable (Covered s) := inferInstanceAs (Decidable (_ ∧ _))

/-- Every accepted nonce is stored or behind the horizon. -/
structure Recorded (r : Log) : Prop where
  recorded : ∃ keys, Holds r.register keys ∧ ∀ nonce ∈ r.accepted,
    r.register.value nonce ∈ keys ∨
      (r.register.horizonValid = true ∧ r.register.nonceTime nonce ≤ r.register.horizon)
  once : r.accepted.Nodup

lemma SameParameters.nonceTime {s s' : State} (h : SameParameters s s') (nonce : Nonce) :
    s'.nonceTime nonce = s.nonceTime nonce := by
  rw [State.nonceTime, State.nonceTime, State.externalTimeToInternal,
    State.externalTimeToInternal, h.internalEpoch]

lemma SameParameters.value {s s' : State} (h : SameParameters s s') (nonce : Nonce) :
    s'.value nonce = s.value nonce := by
  rw [State.value, State.value, h.nonceTime]

lemma horizon_lt_of_admits {s : State} {nonce : Nonce} {now : Word}
    (h : s.admits nonce now = true) (hvalid : s.horizonValid = true) :
    ¬ s.nonceTime nonce ≤ s.horizon := by
  simp only [State.admits, decide_eq_true_eq] at h
  exact fun hle => h.2.1 ⟨hvalid, hle⟩

/-- What one call preserves. -/
lemma Recorded.step {r r' : Log} {call : Nonce × Word} (h : Recorded r)
    (hstep : SafeStep r call r') : Recorded r' := by
  obtain ⟨⟨keys, hholds, hrec⟩, honce⟩ := h
  obtain ⟨hstep, hsafe⟩ := hstep
  obtain ⟨s', ok, hinsert, hsame, hrejected, haccepts⟩ := hholds.insert call.1 call.2
  rw [Step, Log.insert, hinsert, Option.map_some, Option.some.injEq] at hstep
  subst hstep
  cases ok with
  | false =>
    obtain rfl := hrejected rfl
    exact ⟨⟨keys, hholds, hrec⟩, honce⟩
  | true =>
    obtain ⟨hadmits, hfresh, keys', hholds', hmem, hdisp⟩ := haccepts rfl
    refine ⟨⟨keys', hholds', fun nonce hn => ?_⟩, ?_⟩
    · dsimp only
      rw [hsame.value, hsame.nonceTime, hsame.horizonValid]
      rcases List.mem_cons.mp hn with rfl | hn
      · exact .inl hmem
      rcases hdisp with ⟨hhorizon, hkeep⟩ | ⟨hevicts, old, hold, hhorizon, hkeep⟩
      · rw [hhorizon]
        exact (hrec nonce hn).imp_left (hkeep _)
      · obtain ⟨hvalid, hcover⟩ := hsafe hevicts
        rw [hold, Option.all_some, decide_eq_true_eq] at hcover
        obtain ⟨hword, hmono⟩ := hcover
        rw [hhorizon]
        rcases hrec nonce hn with hkey | ⟨-, hbehind⟩
        · refine (hkeep _ hkey).symm.imp_right fun heq => ⟨hvalid, ?_⟩
          rw [← heq, State.value, ExternalNode.word_setWord] at hword
          rw [← heq]
          exact hword
        · exact .inr ⟨hvalid, BitVec.le_trans hbehind hmono⟩
    · refine List.nodup_cons.mpr ⟨fun hn => ?_, honce⟩
      rcases hrec _ hn with hkey | ⟨hvalid, hbehind⟩
      · exact hfresh hkey
      · exact horizon_lt_of_admits hadmits hvalid hbehind

/-- In every run in which the horizon covers each evicted entry, `Insert` always
returns and accepts every nonce at most once. -/
theorem strikeRegister_accepts_once (ints : Word → InternalNode) (exts : Word → ExternalNode)
    (maxEntries : ℕ) (now window : Word) (orbit : Fin 8 → Byte) (startup : StartupType)
    (s : State) (calls : List (Nonce × Word)) (r : Log)
    (hcreate : State.create ints exts maxEntries now window orbit startup = some s)
    (hrun : Reaches SafeStep ⟨s, []⟩ calls r) :
    r.accepted.Nodup ∧ ∀ nonce now, (r.register.insert nonce now).isSome := by
  have hrec : Recorded r := by
    refine hrun.invariant Recorded ?_ fun _ _ _ h hs => h.step hs
    exact ⟨⟨[], .inl ⟨vacant_create hcreate, rfl⟩, by simp⟩, List.nodup_nil⟩
  refine ⟨hrec.once, fun nonce now => ?_⟩
  obtain ⟨keys, hholds, -⟩ := hrec.recorded
  obtain ⟨s', ok, hinsert, -⟩ := hholds.insert nonce now
  rw [hinsert]
  rfl

/-- The nonce with an external time and one random byte, for the orbit of zeros. -/
def nonceAt (time : Word) (random : Byte) : Nonce := fun i =>
  if i.val < 4 then (time >>> (24 - 8 * i.val)).setWidth 8 else if i.val = 31 then random else 0

/-- A register for two entries, created at the end of the first two years. -/
def smallRegister (startup : StartupType) : Option State :=
  State.create (fun _ => ⟨0, 0⟩) (fun _ _ => 0) 2 63115200 1000 (fun _ => 0) startup

/-- A safe step, computed. -/
def Log.insertSafely (r : Log) (call : Nonce × Word) : Option Log :=
  if r.register.Evicts call.1 call.2 → Covered r.register then r.insert call else none

lemma safeStep_of_insertSafely (r : Log) (call : Nonce × Word) (r' : Log)
    (h : r.insertSafely call = some r') : SafeStep r call r' := by
  rw [Log.insertSafely] at h
  split_ifs at h with hsafe
  exact ⟨h, hsafe⟩

/-- The time `0x04000004` reads the same in both byte orders, so its eviction is
covered and the replay of the evicted nonce is rejected. -/
theorem strikeRegister_accepts_once_replay :
    ∃ s r, smallRegister .denyRequestsAtStartup = some s ∧
      Reaches SafeStep ⟨s, []⟩ [(nonceAt 0x04000004 1, 0x04000004),
        (nonceAt 0x04000004 2, 0x04000004), (nonceAt 0x04000004 3, 0x04000004),
        (nonceAt 0x04000004 1, 0x04000004)] r ∧
      r.accepted.length = 3 ∧ r.accepted.Nodup := by
  have h : ((smallRegister .denyRequestsAtStartup).bind fun s =>
      [(nonceAt 0x04000004 1, 0x04000004), (nonceAt 0x04000004 2, 0x04000004),
        (nonceAt 0x04000004 3, 0x04000004), (nonceAt 0x04000004 1, 0x04000004)].foldlM
          Log.insertSafely ⟨s, []⟩).map (·.accepted.length) = some 3 := by
    decide +kernel
  obtain ⟨r, hr, hlen⟩ := Option.map_eq_some_iff.mp h
  obtain ⟨s, hs, hfold⟩ := Option.bind_eq_some_iff.mp hr
  have hrun := Reaches.of_foldlM safeStep_of_insertSafely hfold
  exact ⟨s, r, hs, hrun, hlen, (strikeRegister_accepts_once (fun _ => ⟨0, 0⟩)
    (fun _ _ => 0) 2 63115200 1000 (fun _ => 0) _ s _ r hs hrun).1⟩

/-- At time `0x05000000` the horizon is set to 5, and the evicted nonce is accepted
once more. -/
theorem strikeRegister_accepts_replay :
    ¬ ∀ (ints : Word → InternalNode) (exts : Word → ExternalNode) (maxEntries : ℕ)
      (now window : Word) (orbit : Fin 8 → Byte) (startup : StartupType) (s : State)
      (calls : List (Nonce × Word)) (r : Log),
      State.create ints exts maxEntries now window orbit startup = some s →
      (∀ call ∈ calls, s.internalEpoch ≤ call.2 ∧
        s.internalEpoch ≤ timeFromBytes (call.1 0) (call.1 1) (call.1 2) (call.1 3)) →
      Reaches Step ⟨s, []⟩ calls r → r.accepted.Nodup := by
  intro hclaim
  have h : ((smallRegister .denyRequestsAtStartup).bind fun s =>
      [(nonceAt 0x05000000 1, 0x05000000), (nonceAt 0x05000000 2, 0x05000000),
        (nonceAt 0x05000000 3, 0x05000000), (nonceAt 0x05000000 1, 0x05000000)].foldlM
          Log.insert ⟨s, []⟩).map (fun r => decide r.accepted.Nodup) = some false := by
    decide +kernel
  obtain ⟨r, hr, hdup⟩ := Option.map_eq_some_iff.mp h
  obtain ⟨s, hs, hfold⟩ := Option.bind_eq_some_iff.mp hr
  have hepoch : s.internalEpoch = 0 := by
    have : (smallRegister .denyRequestsAtStartup).map (·.internalEpoch) = some 0 := by
      decide +kernel
    rw [hs] at this
    exact Option.some.inj this
  have hrun : Reaches Step ⟨s, []⟩ _ r := Reaches.of_foldlM (fun _ _ _ h => h) hfold
  refine of_decide_eq_false hdup (hclaim (fun _ => ⟨0, 0⟩) (fun _ _ => 0) 2 63115200 1000
    (fun _ => 0) .denyRequestsAtStartup s _ r hs (fun call _ => ?_) hrun)
  rw [hepoch]
  constructor <;> exact Nat.zero_le _

end Chromium.StrikeRegister
