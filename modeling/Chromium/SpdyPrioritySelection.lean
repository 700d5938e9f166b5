import Chromium.SpdyPriorityForest
import Chromium.WeightedChoice

/-!
# Picking the next node of the priority forest

`FirstMarkedNode`: the roots with a ready node in their chain are entered in a map under the sums
of their priorities, one of them is chosen at random, and then one of the ready nodes that are
joined by unordered links to the first ready node of its chain. The nodes are gone through in the
order of a hash map, which can be any.
-/
namespace Chromium.SpdyPriorityForest

open Chromium.Digraph Relation WeightedChoice

variable {NodeId Priority : Type*} [DecidableEq NodeId] [Inhabited NodeId] [Inhabited Priority]

namespace Forest

variable (f : Forest NodeId Priority)

def isFlagged (flag : BitVec 32) (id : NodeId) : Bool := (f.node id).flags &&& flag ≠ 0

/-- The loop down the chain of a root: whether there is a marked node. -/
def chainMarked (flag : BitVec 32) : ℕ → NodeId → Option Bool
  | 0, _ => none
  | fuel + 1, id =>
    if f.isFlagged flag id then some true
    else if (f.node id).child = default then some false
    else chainMarked flag fuel (f.node id).child

/-- `root.depends_on.priority`, where the union holds one. -/
def DependsOn.rootPriority : DependsOn NodeId Priority → Priority
  | .priority p => p
  | .parentId _ => default

/-- One round of the loop over all nodes. A priority counts as `toUint64` says. -/
def addRoot (toUint64 : Priority → ℕ) (flag : BitVec 32) (roots : Table NodeId) (rootId : NodeId) :
    Option (Table NodeId) :=
  if (f.node rootId).type = .rootNode then
    (f.chainMarked flag (f.numNodes + 1) rootId).map fun marked =>
      if marked then
        roots.add (2 ^ 64) (toUint64 (DependsOn.rootPriority (f.node rootId).dependsOn)) rootId
      else roots
  else some roots

def collectRoots (toUint64 : Priority → ℕ) (flag : BitVec 32) (order : List NodeId) :
    Option (Table NodeId) :=
  order.foldlM (f.addRoot toUint64 flag) Table.empty

/-- The last loop, up to the first marked node. -/
def findMarked (flag : BitVec 32) : ℕ → NodeId → Option NodeId
  | 0, _ => none
  | fuel + 1, id =>
    if f.isFlagged flag id then some id else findMarked flag fuel (f.node id).child

/-- The loop over the unordered links behind a marked node. -/
def extendGroup (flag : BitVec 32) : ℕ → NodeId → List NodeId → Option (List NodeId)
  | 0, _, _ => none
  | fuel + 1, next, group =>
    let child := (f.node next).child
    if child = default then some group
    else if (f.node child).type ≠ .nonrootUnordered then some group
    else extendGroup flag fuel child (if f.isFlagged flag child then group ++ [child] else group)

/-- What is picked below a root; `random` is the generator. -/
def pickBelow (flag : BitVec 32) (random : ℕ → ℕ) (rootId : NodeId) : Option NodeId := do
  let id ← f.findMarked flag (f.numNodes + 1) rootId
  let group ← f.extendGroup flag (f.numNodes + 1) id [id]
  group[random group.length]?

/-- `FirstMarkedNode`: the generator gives a number below its argument, `random` in its first call
and `random'` in its second. There is no result where a loop does not end or the iterator is at
the end. -/
def firstMarkedNode (toUint64 : Priority → ℕ) (flag : BitVec 32) (order : List NodeId)
    (random random' : ℕ → ℕ) : Option NodeId := do
  let roots ← f.collectRoots toUint64 flag order
  if roots.total = 0 then some default
  else
    let rootId ← roots.sums.upperBound (random roots.total)
    f.pickBelow flag random' rootId

def nextNodeToRead (toUint64 : Priority → ℕ) (order : List NodeId) (random random' : ℕ → ℕ) :
    Option NodeId :=
  f.firstMarkedNode toUint64 kReadyToRead order random random'

def nextNodeToWrite (toUint64 : Priority → ℕ) (order : List NodeId) (random random' : ℕ → ℕ) :
    Option NodeId :=
  f.firstMarkedNode toUint64 kReadyToWrite order random random'

/-! ### Chains -/

/-- A link to a child that is unordered. -/
def UnorderedLink (f : Forest NodeId Priority) (p c : NodeId) : Prop :=
  Link f p c ∧ (f.node c).type = .nonrootUnordered

/-- The first marked node of a chain. -/
structure FirstMarked (f : Forest NodeId Priority) (flag : BitVec 32) (root first : NodeId) :
    Prop where
  path : ReflTransGen (Link f) root first
  marked : f.isFlagged flag first = true
  before : ∀ x, ReflTransGen (Link f) root x → TransGen (Link f) x first →
    f.isFlagged flag x = false

/-- The numbers of the generator are below its argument. -/
def InRange (random : ℕ → ℕ) : Prop := ∀ range, 0 < range → random range < range

variable {f} {g : Forest NodeId Priority} {flag : BitVec 32} {id : NodeId}
  {n : Node NodeId Priority}

lemma link_child (hc : (f.node id).child ≠ default) : Link f id (f.node id).child :=
  ⟨hc, (node_child f id).symm⟩

lemma isFlagged_of_none (h : f.lookup id = none) : f.isFlagged flag id = false := by
  rw [isFlagged, node, h]
  simp [default]

lemma lookup_of_isFlagged (hflag : f.isFlagged flag id = true) : ∃ n, f.lookup id = some n := by
  cases hn : f.lookup id with
  | none =>
    rw [isFlagged_of_none hn] at hflag
    cases hflag
  | some n => exact ⟨n, rfl⟩

/-- Below a node are the node itself and what is below its child. -/
lemma path_iff (x : NodeId) :
    ReflTransGen (Link f) id x ↔ x = id ∨
      (f.node id).child ≠ default ∧ ReflTransGen (Link f) (f.node id).child x := by
  rw [ReflTransGen.cases_head_iff]
  constructor
  · rintro (heq | ⟨c, hl, hpath⟩)
    · exact .inl heq.symm
    · have hc : (f.node id).child = c := (node_child f id).trans hl.2
      rw [hc]
      exact .inr ⟨hl.1, hpath⟩
  · rintro (heq | ⟨hc, hpath⟩)
    · exact .inl heq.symm
    · exact .inr ⟨_, link_child hc, hpath⟩

namespace WellFormed

variable (h : f.WellFormed)

include h

lemma rank_child_lt (hc : (f.node id).child ≠ default) :
    rank (Link f) f.keys.toFinset (f.node id).child < rank (Link f) f.keys.toFinset id :=
  rank_lt h.acyclic (h.mem_keys (link_child hc)) (link_child hc)

lemma chainMarked (flag : BitVec 32) (fuel : ℕ) (hfuel : rank (Link f) f.keys.toFinset id < fuel) :
    ∃ marked, f.chainMarked flag fuel id = some marked ∧
      (marked = true ↔ ∃ x, ReflTransGen (Link f) id x ∧ f.isFlagged flag x = true) := by
  induction fuel generalizing id with
  | zero => exact absurd hfuel (Nat.not_lt_zero _)
  | succ fuel ih =>
    rw [Forest.chainMarked]
    split_ifs with hflag hc
    · exact ⟨true, rfl, iff_of_true rfl ⟨id, .refl, hflag⟩⟩
    · refine ⟨false, rfl, iff_of_false Bool.false_ne_true ?_⟩
      rintro ⟨x, hpath, hx⟩
      cases (path_iff x).mp hpath with
      | inl heq => exact hflag (heq ▸ hx)
      | inr hbelow => exact hbelow.1 hc
    · have hlt := h.rank_child_lt hc
      obtain ⟨marked, hrun, hiff⟩ := ih (hlt.trans_le (Nat.le_of_lt_succ hfuel))
      refine ⟨marked, hrun, hiff.trans ?_⟩
      constructor
      · rintro ⟨x, hpath, hx⟩
        exact ⟨x, (path_iff x).mpr (.inr ⟨hc, hpath⟩), hx⟩
      · rintro ⟨x, hpath, hx⟩
        cases (path_iff x).mp hpath with
        | inl heq => exact absurd (heq ▸ hx) hflag
        | inr hbelow => exact ⟨x, hbelow.2, hx⟩

lemma findMarked (fuel : ℕ) (hfuel : rank (Link f) f.keys.toFinset id < fuel) {x : NodeId}
    (hpath : ReflTransGen (Link f) id x) (hx : f.isFlagged flag x = true) :
    ∃ first, f.findMarked flag fuel id = some first ∧ FirstMarked f flag id first := by
  induction fuel generalizing id with
  | zero => exact absurd hfuel (Nat.not_lt_zero _)
  | succ fuel ih =>
    rw [Forest.findMarked]
    split_ifs with hflag
    · refine ⟨id, rfl, .refl, hflag, ?_⟩
      intro y hy hback
      exact absurd (TransGen.trans_right hy hback) (h.acyclic id)
    · cases (path_iff x).mp hpath with
      | inl heq => exact absurd (heq ▸ hx) hflag
      | inr hbelow =>
        obtain ⟨hc, hpath'⟩ := hbelow
        have hlt := h.rank_child_lt hc
        obtain ⟨first, hrun, hfirst⟩ := ih (hlt.trans_le (Nat.le_of_lt_succ hfuel)) hpath'
        refine ⟨first, hrun, (path_iff first).mpr (.inr ⟨hc, hfirst.path⟩), hfirst.marked, ?_⟩
        intro y hy hback
        cases (path_iff y).mp hy with
        | inl heq => exact heq ▸ (Bool.eq_false_iff.mpr hflag)
        | inr hbelow => exact hfirst.before y hbelow.2 hback

lemma extendGroup (flag : BitVec 32) (fuel : ℕ) (hfuel : rank (Link f) f.keys.toFinset id < fuel)
    (group : List NodeId) :
    ∃ more, f.extendGroup flag fuel id group = some (group ++ more) ∧
      ∀ x ∈ more, f.isFlagged flag x = true ∧ ReflTransGen (UnorderedLink f) id x := by
  induction fuel generalizing id group with
  | zero => exact absurd hfuel (Nat.not_lt_zero _)
  | succ fuel ih =>
    rw [Forest.extendGroup]
    split_ifs with hc htype hflag
    · exact ⟨[], by rw [List.append_nil], by simp⟩
    · exact ⟨[], by rw [List.append_nil], by simp⟩
    · have hlt := h.rank_child_lt hc
      have hlink : UnorderedLink f id (f.node id).child := ⟨link_child hc, not_not.mp htype⟩
      obtain ⟨more, hrun, hmore⟩ := ih (hlt.trans_le (Nat.le_of_lt_succ hfuel))
        (group ++ [(f.node id).child])
      refine ⟨(f.node id).child :: more, ?_, ?_⟩
      · rw [hrun, List.append_assoc, List.singleton_append]
      · intro x hx
        cases hx with
        | head => exact ⟨hflag, .single hlink⟩
        | tail _ hx => exact ⟨(hmore x hx).1, .head hlink (hmore x hx).2⟩
    · have hlt := h.rank_child_lt hc
      have hlink : UnorderedLink f id (f.node id).child := ⟨link_child hc, not_not.mp htype⟩
      obtain ⟨more, hrun, hmore⟩ := ih (hlt.trans_le (Nat.le_of_lt_succ hfuel)) group
      refine ⟨more, hrun, ?_⟩
      intro x hx
      exact ⟨(hmore x hx).1, .head hlink (hmore x hx).2⟩

/-- What is picked below a root with a marked node in its chain. -/
lemma pickBelow {random : ℕ → ℕ} (hrandom : InRange random) {x : NodeId}
    (hpath : ReflTransGen (Link f) id x) (hx : f.isFlagged flag x = true)
    (hid : id ∈ f.keys.toFinset) :
    ∃ picked first, f.pickBelow flag random id = some picked ∧ f.isFlagged flag picked = true ∧
      FirstMarked f flag id first ∧ ReflTransGen (UnorderedLink f) first picked := by
  have hfuel : rank (Link f) f.keys.toFinset id < f.numNodes + 1 :=
    (h.rank_lt_numNodes hid).trans (Nat.lt_succ_self _)
  obtain ⟨first, hfind, hfirst⟩ := h.findMarked _ hfuel hpath hx
  have hmem : first ∈ f.keys.toFinset := by
    obtain ⟨n, hn⟩ := lookup_of_isFlagged hfirst.marked
    exact mem_keys_of_lookup hn
  obtain ⟨more, hgroup, hmore⟩ := h.extendGroup flag (f.numNodes + 1)
    ((h.rank_lt_numNodes hmem).trans (Nat.lt_succ_self _)) [first]
  have hlt : random ([first] ++ more).length < ([first] ++ more).length := hrandom _ (by simp)
  refine ⟨([first] ++ more)[random ([first] ++ more).length], first, ?_, ?_⟩
  · rw [Forest.pickBelow, hfind, Option.bind_eq_bind, Option.bind_some, hgroup,
      Option.bind_eq_bind, Option.bind_some, List.getElem?_eq_getElem hlt]
  · have hpicked := List.getElem_mem hlt
    cases List.mem_append.mp hpicked with
    | inl hself =>
      rw [List.mem_singleton.mp hself]
      exact ⟨hfirst.marked, hfirst, .refl⟩
    | inr hlater => exact ⟨(hmore _ hlater).1, hfirst, (hmore _ hlater).2⟩

end WellFormed

/-! ### Roots -/

variable (f flag) in
/-- A root with a marked node in its chain. -/
def isReady (id : NodeId) : Bool :=
  (f.node id).type = .rootNode && f.chainMarked flag (f.numNodes + 1) id = some true

variable (f) in
/-- The priority of a root as a weight. -/
def weight (toUint64 : Priority → ℕ) (id : NodeId) : ℕ :=
  toUint64 (DependsOn.rootPriority (f.node id).dependsOn)

namespace WellFormed

variable (h : f.WellFormed)

include h

lemma isReady_iff (hid : id ∈ f.keys) :
    f.isReady flag id = true ↔
      id ∈ f.roots ∧ ∃ x, ReflTransGen (Link f) id x ∧ f.isFlagged flag x = true := by
  obtain ⟨marked, hrun, hiff⟩ := h.chainMarked flag (f.numNodes + 1)
    ((h.rank_lt_numNodes (List.mem_toFinset.mpr hid)).trans (Nat.lt_succ_self _))
  obtain ⟨n, hn⟩ := Option.isSome_iff_exists.mp (AList.lookup_isSome.mpr hid)
  have hroot : id ∈ f.roots ↔ (f.node id).type = .rootNode := by
    rw [mem_roots, node_eq hn]
    constructor
    · rintro ⟨n', hn', htype⟩
      rw [hn] at hn'
      cases hn'
      exact htype
    · intro htype
      exact ⟨n, hn, htype⟩
  rw [isReady, hrun, ← hiff, hroot]
  simp

/-- The loop over the nodes makes the table of the ready roots. -/
lemma collectRoots (toUint64 : Priority → ℕ) (order : List NodeId)
    (horder : ∀ id ∈ order, id ∈ f.keys) :
    f.collectRoots toUint64 flag order =
      some (table (2 ^ 64) (f.weight toUint64) (order.filter (f.isReady flag))) := by
  induction order using List.reverseRecOn with
  | nil => rfl
  | append_singleton order id ih =>
    obtain ⟨marked, hrun, -⟩ := h.chainMarked flag (f.numNodes + 1)
      ((h.rank_lt_numNodes (List.mem_toFinset.mpr (horder id (by simp)))).trans
        (Nat.lt_succ_self _))
    have hinit := ih fun x hx => horder x (List.mem_append_left _ hx)
    have hlast : ∀ t, [id].foldlM (f.addRoot toUint64 flag) t = f.addRoot toUint64 flag t id := by
      intro t
      simp
    rw [Forest.collectRoots] at hinit ⊢
    rw [List.foldlM_append, hinit, List.filter_append, Option.bind_eq_bind, Option.bind_some,
      hlast, addRoot, hrun]
    by_cases htype : (f.node id).type = .rootNode
    · cases marked with
      | true =>
        have hready : f.isReady flag id = true := by simp [isReady, htype, hrun]
        rw [if_pos htype, List.filter_singleton, hready, cond_true, table_concat]
        rfl
      | false =>
        have hready : f.isReady flag id = false := by simp [isReady, htype, hrun]
        rw [if_pos htype, List.filter_singleton, hready, cond_false, List.append_nil]
        rfl
    · have hready : f.isReady flag id = false := by simp [isReady, htype]
      rw [if_neg htype, List.filter_singleton, hready, cond_false, List.append_nil]

/-- Each marked node has a ready root. -/
lemma exists_ready {x : NodeId} (hx : f.isFlagged flag x = true) :
    ∃ root ∈ f.keys, f.isReady flag root = true := by
  obtain ⟨n, hn⟩ := lookup_of_isFlagged hx
  obtain ⟨root, hroot, hpath⟩ := h.exists_root hn
  obtain ⟨m, hm, -⟩ := mem_roots.mp hroot
  have hmem : root ∈ f.keys := List.mem_toFinset.mp (mem_keys_of_lookup hm)
  exact ⟨root, hmem, (h.isReady_iff hmem).mpr ⟨hroot, x, hpath, hx⟩⟩

end WellFormed

/-! ### The choice -/

variable (f)

/-- What the choice is to do, for each generator: it finds a marked node, first in its chain or
joined to the first by unordered links, and fails only without one; and each root of positive
priority with a marked node is chosen by as many numbers as its priority. -/
structure Selects (next : (ℕ → ℕ) → (ℕ → ℕ) → Option NodeId) (toUint64 : Priority → ℕ)
    (flag : BitVec 32) (order : List NodeId) : Prop where
  picks : ∀ random random', InRange random → InRange random' →
    ∃ id, next random random' = some id ∧
      ((id = default ∧ ∀ x, f.isFlagged flag x = false) ∨
        (f.isFlagged flag id = true ∧ ∃ root ∈ f.roots, ∃ first,
          FirstMarked f flag root first ∧ ReflTransGen (UnorderedLink f) first id))
  fair : ∃ roots, f.collectRoots toUint64 flag order = some roots ∧
    ∀ root ∈ f.roots, (∃ x, ReflTransGen (Link f) root x ∧ f.isFlagged flag x = true) →
      0 < f.weight toUint64 root → roots.share root = f.weight toUint64 root

/-- The priorities of the ready roots fit in the sum, one is positive where there is a root, and
those that are zero come first. -/
structure WeightsFit (toUint64 : Priority → ℕ) (flag : BitVec 32) (order : List NodeId) : Prop where
  fits : ((order.filter (f.isReady flag)).map (f.weight toUint64)).sum < 2 ^ 64
  positive : order.filter (f.isReady flag) = [] ∨
    0 < ((order.filter (f.isReady flag)).map (f.weight toUint64)).sum
  zerosFirst : WeightsLast (f.weight toUint64) (order.filter (f.isReady flag))

variable {f}

namespace WellFormed

variable (h : f.WellFormed) {toUint64 : Priority → ℕ} {order : List NodeId}
  (horder : order.Perm f.keys)

include h horder

lemma mem_ready {id : NodeId} : id ∈ order.filter (f.isReady flag) ↔
    id ∈ f.roots ∧ ∃ x, ReflTransGen (Link f) id x ∧ f.isFlagged flag x = true := by
  rw [List.mem_filter, horder.mem_iff]
  constructor
  · rintro ⟨hmem, hready⟩
    exact (h.isReady_iff hmem).mp hready
  · intro hroot
    obtain ⟨n, hn, -⟩ := mem_roots.mp hroot.1
    have hmem : id ∈ f.keys := List.mem_toFinset.mp (mem_keys_of_lookup hn)
    exact ⟨hmem, (h.isReady_iff hmem).mpr hroot⟩

/-- The choice once the table is made. -/
lemma firstMarkedNode {total : ℕ}
    (htotal : (table (2 ^ 64) (f.weight toUint64) (order.filter (f.isReady flag))).total = total)
    (random random' : ℕ → ℕ) :
    f.firstMarkedNode toUint64 flag order random random' =
      if total = 0 then some default
      else ((table (2 ^ 64) (f.weight toUint64)
        (order.filter (f.isReady flag))).sums.upperBound (random total)).bind
          (f.pickBelow flag random') := by
  subst htotal
  rw [Forest.firstMarkedNode, h.collectRoots toUint64 order fun id hid => horder.subset hid]
  rfl

lemma fair_iff :
    (∃ roots, f.collectRoots toUint64 flag order = some roots ∧
      ∀ root ∈ f.roots, (∃ x, ReflTransGen (Link f) root x ∧ f.isFlagged flag x = true) →
        0 < f.weight toUint64 root → roots.share root = f.weight toUint64 root) ↔
      ((order.filter (f.isReady flag)).map (f.weight toUint64)).sum < 2 ^ 64 ∧
        WeightsLast (f.weight toUint64) (order.filter (f.isReady flag)) := by
  have hnodup : (order.filter (f.isReady flag)).Nodup :=
    (horder.nodup_iff.mpr f.nodupKeys).filter _
  rw [← share_eq_weight_iff (2 ^ 64) (f.weight toUint64) _ hnodup (by norm_num),
    h.collectRoots toUint64 order fun id hid => horder.subset hid]
  constructor
  · rintro ⟨roots, hroots, hfair⟩ root hmem hpos
    cases hroots
    obtain ⟨hroot, hbelow⟩ := (h.mem_ready horder).mp hmem
    exact hfair root hroot hbelow hpos
  · intro hfair
    refine ⟨_, rfl, ?_⟩
    intro root hroot hbelow hpos
    exact hfair root ((h.mem_ready horder).mpr ⟨hroot, hbelow⟩) hpos

/-- The choice does its work exactly when the priorities fit. -/
theorem selects_iff :
    f.Selects (f.firstMarkedNode toUint64 flag order) toUint64 flag order ↔
      f.WeightsFit toUint64 flag order := by
  constructor
  · intro hselects
    obtain ⟨hfits, hlast⟩ := (h.fair_iff horder).mp hselects.fair
    refine ⟨hfits, ?_, hlast⟩
    cases hready : order.filter (f.isReady flag) with
    | nil => exact .inl rfl
    | cons root rest =>
      refine .inr (Nat.pos_of_ne_zero fun hzero => ?_)
      rw [← hready] at hzero
      have hrange : InRange fun _ => 0 := fun _ hpos => hpos
      obtain ⟨id, hrun, hid⟩ := hselects.picks _ _ hrange hrange
      rw [h.firstMarkedNode horder (total_eq _ _ _ hfits), hzero, if_pos rfl] at hrun
      cases hrun
      have hmem : root ∈ order.filter (f.isReady flag) := by simp [hready]
      obtain ⟨-, x, -, hx⟩ := (h.mem_ready horder).mp hmem
      cases hid with
      | inl hnone => exact absurd (hnone.2 x) (by simp [hx])
      | inr hfound =>
        have hnone : f.isFlagged flag default = false := isFlagged_of_none h.nil
        rw [hfound.1] at hnone
        cases hnone
  · intro hfit
    refine ⟨?_, (h.fair_iff horder).mpr ⟨hfit.fits, hfit.zerosFirst⟩⟩
    intro random random' hrandom hrandom'
    have htotal := total_eq _ _ _ hfit.fits
    rw [h.firstMarkedNode horder htotal]
    cases hfit.positive with
    | inl hnil =>
      refine ⟨default, ?_, .inl ⟨rfl, ?_⟩⟩
      · rw [hnil]
        rfl
      · intro x
        by_contra hx
        obtain ⟨root, hmem, hready⟩ := h.exists_ready (Bool.not_eq_false _ ▸ hx)
        have hin : root ∈ order.filter (f.isReady flag) :=
          List.mem_filter.mpr ⟨horder.mem_iff.mpr hmem, hready⟩
        rw [hnil] at hin
        exact absurd hin List.not_mem_nil
    | inr hpos =>
      have hbelow := hrandom _ hpos
      nth_rewrite 2 [← htotal] at hbelow
      obtain ⟨root, hmem, hchosen⟩ := exists_upperBound (2 ^ 64) (f.weight toUint64) _ hbelow
      obtain ⟨hroot, x, hpath, hx⟩ := (h.mem_ready horder).mp hmem
      obtain ⟨n, hn, -⟩ := mem_roots.mp hroot
      obtain ⟨picked, first, hpick, hpicked, hfirst, hjoined⟩ :=
        h.pickBelow hrandom' hpath hx (mem_keys_of_lookup hn)
      refine ⟨picked, ?_, .inr ⟨hpicked, root, hroot, first, hfirst, hjoined⟩⟩
      rw [if_neg hpos.ne', hchosen, Option.bind_some, hpick]

end WellFormed

/-! ### Runs -/

/-- Every root has a priority in its union. -/
def RootsPrioritized (f : Forest NodeId Priority) : Prop :=
  ∀ id n, f.lookup id = some n → n.type = .rootNode → ∃ p, n.dependsOn = .priority p

namespace RootsPrioritized

lemma node (h : f.RootsPrioritized) (id : NodeId) (ht : (f.node id).type = .rootNode) :
    ∃ p, (f.node id).dependsOn = .priority p := by
  cases hn : f.lookup id with
  | none =>
    rw [Forest.node, hn]
    exact ⟨default, rfl⟩
  | some n =>
    rw [node_eq hn] at ht ⊢
    exact h id n hn ht

lemma modify (h : f.RootsPrioritized) (id : NodeId)
    {change : Node NodeId Priority → Node NodeId Priority}
    (hchange : (change (f.node id)).type = .rootNode →
      ∃ p, (change (f.node id)).dependsOn = .priority p) :
    (f.modify id change).RootsPrioritized := by
  intro x n hn ht
  rw [lookup_modify] at hn
  split_ifs at hn with hx
  · cases hn
    exact hchange ht
  · exact h x n hn ht

/-- A root stays one with the child that it gets. -/
lemma setChild (h : f.RootsPrioritized) (id child : NodeId) :
    (f.modify id fun n => { n with child := child }).RootsPrioritized :=
  h.modify id (h.node id)

lemma setFlags (h : f.RootsPrioritized) (id : NodeId) (change : BitVec 32 → BitVec 32) :
    (f.modify id fun n => { n with flags := change n.flags }).RootsPrioritized :=
  h.modify id (h.node id)

lemma mark (h : f.RootsPrioritized) (id : NodeId) (flag : BitVec 32) :
    (f.mark id flag).2.RootsPrioritized := by
  rw [Forest.mark]
  split_ifs
  · exact h
  · exact h.setFlags id fun flags => flags ||| flag

lemma unmark (h : f.RootsPrioritized) (id : NodeId) (flag : BitVec 32) :
    (f.unmark id flag).2.RootsPrioritized := by
  rw [Forest.unmark]
  split_ifs
  · exact h
  · exact h.setFlags id fun flags => flags &&& ~~~flag

lemma addRootNode (h : f.RootsPrioritized) (id : NodeId) (p : Priority) :
    (f.addRootNode id p).2.RootsPrioritized := by
  rw [Forest.addRootNode]
  split_ifs
  · exact h
  · exact h.modify id fun _ => ⟨p, rfl⟩

lemma addNonRootNode (h : f.RootsPrioritized) (id parent : NodeId) (unordered : Bool) :
    (f.addNonRootNode id parent unordered).2.RootsPrioritized := by
  rw [Forest.addNonRootNode]
  split_ifs
  · exact h
  · exact h
  · exact (h.modify id fun ht => absurd ht (nonrootType_ne unordered)).setChild parent id

lemma setPriority (h : f.RootsPrioritized) (id : NodeId) (p : Priority) :
    (f.setPriority id p).2.RootsPrioritized := by
  rw [Forest.setPriority]
  split_ifs
  · exact h
  · -- in between the node is a root without one
    intro x n hn ht
    rw [lookup_modify] at hn
    split_ifs at hn with hx
    · cases hn
      exact ⟨p, rfl⟩
    · rw [lookup_modify, if_neg hx] at hn
      exact h.setChild _ _ x n hn ht
  · exact h.modify id fun _ => ⟨p, rfl⟩

lemma setParent (h : f.RootsPrioritized) {id parent : NodeId} {unordered ok : Bool}
    (hset : f.setParent id parent unordered = some (ok, g)) : g.RootsPrioritized := by
  have hmove : ∀ f : Forest NodeId Priority, f.RootsPrioritized →
      ((f.modify id fun n => { n with type := nonrootType unordered, dependsOn := .parentId parent
        }).modify parent fun n => { n with child := id }).RootsPrioritized := fun f hf =>
    (hf.modify id fun ht => absurd ht (nonrootType_ne unordered)).setChild parent id
  rw [Forest.setParent] at hset
  split_ifs at hset
  · cases hset
    exact h
  · cases hset
    exact h.modify id fun ht => absurd ht (nonrootType_ne unordered)
  · cases hset
    exact h
  · cases hset
    exact h
  -- the node leaves its parent, where it has one
  · revert hset
    cases f.findsBelow parent (f.numNodes + 1) id with
    | none => exact fun hset => (by cases hset)
    | some below =>
      cases below with
      | true =>
        rintro ⟨⟩
        exact h
      | false =>
        rintro ⟨⟩
        exact hmove _ (h.setChild _ _)
  · revert hset
    cases f.findsBelow parent (f.numNodes + 1) id with
    | none => exact fun hset => (by cases hset)
    | some below =>
      cases below with
      | true =>
        rintro ⟨⟩
        exact h
      | false =>
        rintro ⟨⟩
        exact hmove _ h

/-- The child of a removed root takes over its priority. -/
lemma removeNode (h : f.RootsPrioritized) (hwf : f.WellFormed) (id : NodeId) :
    (f.removeNode id).2.RootsPrioritized := by
  cases hn : f.lookup id with
  | none =>
    have hex : f.nodeExists id = false := by rw [nodeExists, hn]; rfl
    rw [Forest.removeNode, hex]
    exact h
  | some n =>
    intro x m hm ht
    rw [(hwf.lookup_removeNode hn).2] at hm
    have hx : x ≠ id := by
      rintro rfl
      rw [if_pos rfl] at hm
      cases hm
    rw [if_neg hx] at hm
    obtain ⟨m', hm', heq⟩ := Option.map_eq_some_iff.mp hm
    have hself : m'.type = .rootNode → ∃ p, m'.dependsOn = .priority p := h x m' hm'
    -- the child was no root before
    have hraise : n.child ≠ default ∧ x = n.child → (Node.raise m' n).type = .rootNode →
        ∃ p, n.dependsOn = .priority p := by
      rintro ⟨hc, rfl⟩ htype
      obtain ⟨nc, hnc, hroot, -⟩ := hwf.child (show Link f id n.child from ⟨hc, getChild_eq hn⟩)
      rw [hnc] at hm'
      cases hm'
      rw [Node.raise] at htype
      split_ifs at htype with hn'
      · exact h id n hn hn'
      · exact absurd htype hroot
    subst heq
    revert ht
    dsimp only
    -- what is left of a parent has the same type and place
    by_cases hchild : n.child ≠ default ∧ x = n.child
    · rw [if_pos hchild]
      by_cases hskip : n.type ≠ .rootNode ∧ x = n.dependsOn.parent
      · rw [if_pos hskip]
        exact hraise hchild
      · rw [if_neg hskip]
        exact hraise hchild
    · rw [if_neg hchild]
      by_cases hskip : n.type ≠ .rootNode ∧ x = n.dependsOn.parent
      · rw [if_pos hskip]
        exact hself
      · rw [if_neg hskip]
        exact hself

lemma step (h : f.RootsPrioritized) (hwf : f.WellFormed) {event : Event NodeId Priority} {ok : Bool}
    (hstep : f.step event = some (ok, g)) : g.RootsPrioritized := by
  cases event with
  | addRootNode id p =>
    obtain rfl : (f.addRootNode id p).2 = g := congrArg Prod.snd (Option.some.inj hstep)
    exact h.addRootNode id p
  | addNonRootNode id parent unordered =>
    obtain rfl : (f.addNonRootNode id parent unordered).2 = g :=
      congrArg Prod.snd (Option.some.inj hstep)
    exact h.addNonRootNode id parent unordered
  | removeNode id =>
    obtain rfl : (f.removeNode id).2 = g := congrArg Prod.snd (Option.some.inj hstep)
    exact h.removeNode hwf id
  | setPriority id p =>
    obtain rfl : (f.setPriority id p).2 = g := congrArg Prod.snd (Option.some.inj hstep)
    exact h.setPriority id p
  | setParent id parent unordered => exact h.setParent hstep
  | markReadyToRead id =>
    obtain rfl : (f.mark id kReadyToRead).2 = g := congrArg Prod.snd (Option.some.inj hstep)
    exact h.mark id _
  | markNoLongerReadyToRead id =>
    obtain rfl : (f.unmark id kReadyToRead).2 = g := congrArg Prod.snd (Option.some.inj hstep)
    exact h.unmark id _
  | markReadyToWrite id =>
    obtain rfl : (f.mark id kReadyToWrite).2 = g := congrArg Prod.snd (Option.some.inj hstep)
    exact h.mark id _
  | markNoLongerReadyToWrite id =>
    obtain rfl : (f.unmark id kReadyToWrite).2 = g := congrArg Prod.snd (Option.some.inj hstep)
    exact h.unmark id _

lemma run (h : f.RootsPrioritized) (hwf : f.WellFormed) (events : List (Event NodeId Priority))
    (hids : ∀ event ∈ events, ∀ id ∈ event.ids, id ≠ default) (hrun : f.run events = some g) :
    g.RootsPrioritized := by
  induction events generalizing f with
  | nil =>
    cases hrun
    exact h
  | cons event events ih =>
    rw [List.forall_mem_cons] at hids
    obtain ⟨ok, f', hstep, -, hf'⟩ := hwf.step event
    rw [Forest.run, List.foldlM_cons, hstep] at hrun
    exact ih (h.step hwf hstep) (hf' hids.1) hids.2 hrun

end RootsPrioritized

/-- Over every run, whatever the order of the nodes, the choice does its work exactly when the
priorities fit. -/
theorem run_selects_iff (events : List (Event NodeId Priority))
    (hids : ∀ event ∈ events, ∀ id ∈ event.ids, id ≠ default) :
    ∃ f : Forest NodeId Priority, run ∅ events = some f ∧ f.RootsPrioritized ∧
      ∀ (toUint64 : Priority → ℕ) (order : List NodeId), order.Perm f.keys →
        (f.Selects (f.nextNodeToRead toUint64 order) toUint64 kReadyToRead order ↔
          f.WeightsFit toUint64 kReadyToRead order) ∧
        (f.Selects (f.nextNodeToWrite toUint64 order) toUint64 kReadyToWrite order ↔
          f.WeightsFit toUint64 kReadyToWrite order) := by
  obtain ⟨f, hrun, h⟩ := wellFormed_empty.run events hids
  have hempty : (∅ : Forest NodeId Priority).RootsPrioritized := by
    intro id n hn
    rw [AList.lookup_empty] at hn
    cases hn
  refine ⟨f, hrun, hempty.run wellFormed_empty events hids hrun, ?_⟩
  intro toUint64 order horder
  exact ⟨h.selects_iff horder, h.selects_iff horder⟩

/-- Two roots and a node below the second. -/
theorem run_selects_iff_twoRoots :
    ∃ f : Forest ℕ ℕ, run ∅ [.addRootNode 1 5, .addRootNode 2 3, .addNonRootNode 3 2 true,
        .markReadyToWrite 1, .markReadyToWrite 3] = some f ∧
      (f.Selects (f.nextNodeToWrite (fun p => p) f.keys) (fun p => p) kReadyToWrite f.keys ↔
        f.WeightsFit (fun p => p) kReadyToWrite f.keys) := by
  obtain ⟨f, hrun, -, hselects⟩ := run_selects_iff
    ([.addRootNode 1 5, .addRootNode 2 3, .addNonRootNode 3 2 true, .markReadyToWrite 1,
      .markReadyToWrite 3] : List (Event ℕ ℕ)) (by simp [Event.ids])
  exact ⟨f, hrun, (hselects (fun p => p) f.keys (List.Perm.refl _)).2⟩

/-- A ready root of priority 0 alone is not found, and behind one of priority 5 it is always
chosen in its place. -/
theorem not_selects_priority_zero :
    (∃ f : Forest ℕ ℕ, run ∅ [.addRootNode 1 0, .markReadyToRead 1] = some f ∧
      f.isFlagged kReadyToRead 1 = true ∧
      f.nextNodeToRead (fun p => p) [1] (fun _ => 0) (fun _ => 0) = some 0) ∧
    ∃ f : Forest ℕ ℕ, run ∅ [.addRootNode 1 5, .addRootNode 2 0, .markReadyToRead 1,
        .markReadyToRead 2] = some f ∧
      [1, 2].Perm f.keys ∧ f.isFlagged kReadyToRead 1 = true ∧ f.getPriority 1 = 5 ∧
      ∀ r < 5, f.nextNodeToRead (fun p => p) [1, 2] (fun _ => r) (fun _ => 0) = some 2 := by
  refine ⟨⟨_, rfl, by decide +kernel, by decide +kernel⟩, ⟨_, rfl, ?_, ?_, ?_, ?_⟩⟩
  · decide +kernel
  · decide +kernel
  · decide +kernel
  · decide +kernel

end Forest

end Chromium.SpdyPriorityForest
