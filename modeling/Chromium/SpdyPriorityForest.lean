import Mathlib.Data.List.AList
import Mathlib.Tactic
import Chromium.Digraph
import Chromium.Runs

/-!
# The SPDY priority forest

`net/spdy/spdy_priority_forest.h`. Each node has at most one parent and at most one
child, so that the nodes form lists, and the first node of a list has a priority.
`NodeId()`, the default of the type, stands for no node.
-/
set_option linter.unusedSectionVars false

namespace Chromium.SpdyPriorityForest

open Chromium.Digraph Relation

/-- `enum NodeType`. -/
inductive NodeType
  | rootNode
  | nonrootOrdered
  | nonrootUnordered
  deriving DecidableEq, Repr

/-- The union `depends_on`: the priority of a root, or the parent of another node. -/
inductive DependsOn (NodeId Priority : Type*)
  | priority (p : Priority)
  | parentId (id : NodeId)

/-- `struct Node`. -/
structure Node (NodeId Priority : Type*) where
  type : NodeType
  flags : BitVec 32
  dependsOn : DependsOn NodeId Priority
  child : NodeId

variable {NodeId Priority : Type*} [DecidableEq NodeId] [Inhabited NodeId] [Inhabited Priority]

instance : Inhabited (Node NodeId Priority) := ⟨⟨.rootNode, 0, .priority default, default⟩⟩

/-- `depends_on.parent_id`, where the union holds one. -/
def DependsOn.parent : DependsOn NodeId Priority → NodeId
  | .priority _ => default
  | .parentId id => id

/-- `all_nodes_`, a map from node IDs to nodes. -/
abbrev Forest (NodeId Priority : Type*) [DecidableEq NodeId] :=
  AList fun _ : NodeId => Node NodeId Priority

namespace Forest
variable (f : Forest NodeId Priority)

def kReadyToRead : BitVec 32 := 1 <<< 0
def kReadyToWrite : BitVec 32 := 1 <<< 1

/-- `all_nodes_[node_id]`. -/
def node (id : NodeId) : Node NodeId Priority := (f.lookup id).getD default

/-- A change of `all_nodes_[node_id]`. -/
def modify (id : NodeId) (change : Node NodeId Priority → Node NodeId Priority) :
    Forest NodeId Priority :=
  f.insert id (change (f.node id))

def numNodes : ℕ := f.keys.length

def nodeExists (id : NodeId) : Bool := (f.lookup id).isSome

def nonrootType (unordered : Bool) : NodeType :=
  if unordered then .nonrootUnordered else .nonrootOrdered

def addRootNode (id : NodeId) (priority : Priority) : Bool × Forest NodeId Priority :=
  if f.nodeExists id then (false, f)
  else (true, f.modify id fun n => { n with type := .rootNode, dependsOn := .priority priority })

def addNonRootNode (id parent : NodeId) (unordered : Bool) : Bool × Forest NodeId Priority :=
  if f.nodeExists id || !f.nodeExists parent then (false, f)
  else if (f.node parent).child ≠ default then (false, f)
  else
    let f := f.modify id fun n =>
      { n with type := nonrootType unordered, dependsOn := .parentId parent }
    (true, f.modify parent fun n => { n with child := id })

def removeNode (id : NodeId) : Bool × Forest NodeId Priority :=
  if !f.nodeExists id then (false, f)
  else
    let f := if (f.node id).type ≠ .rootNode then
      f.modify (f.node id).dependsOn.parent fun n => { n with child := (f.node id).child } else f
    let node := f.node id
    let f := if node.child ≠ default then
      f.modify node.child fun n => { n with
        dependsOn := node.dependsOn
        type := if node.type = .rootNode then .rootNode
          else if node.type = .nonrootOrdered then .nonrootOrdered else n.type } else f
    (true, f.erase id)

def getPriority (id : NodeId) : Priority :=
  match f.lookup id with
  | some ⟨.rootNode, _, .priority p, _⟩ => p
  | _ => default

def getParent (id : NodeId) : NodeId :=
  match f.lookup id with
  | some n => if n.type ≠ .rootNode then n.dependsOn.parent else default
  | none => default

def getChild (id : NodeId) : NodeId :=
  match f.lookup id with
  | some n => n.child
  | none => default

def setPriority (id : NodeId) (priority : Priority) : Bool × Forest NodeId Priority :=
  if !f.nodeExists id then (false, f)
  else
    let f := if (f.node id).type ≠ .rootNode then
      (f.modify (f.node id).dependsOn.parent fun n => { n with child := default }).modify id
        fun n => { n with type := .rootNode } else f
    (true, f.modify id fun n => { n with dependsOn := .priority priority })

/-- The loop of `SetParent` down the children of a node: whether `parent` is among
them. The loop does not end on a cycle. -/
def findsBelow (parent : NodeId) : ℕ → NodeId → Option Bool
  | 0, _ => none
  | fuel + 1, last =>
    if (f.node last).child = default then some false
    else if (f.node last).child = parent then some true
    else findsBelow parent fuel (f.node last).child

def setParent (id parent : NodeId) (unordered : Bool) : Option (Bool × Forest NodeId Priority) :=
  if !f.nodeExists id || !f.nodeExists parent then some (false, f)
  else if (f.node parent).child = id then
    some (true, f.modify id fun n => { n with type := nonrootType unordered })
  else if (f.node parent).child ≠ default then some (false, f)
  else if id = parent then some (false, f)
  else
    match f.findsBelow parent (f.numNodes + 1) id with
    | none => none
    | some true => some (false, f)
    | some false =>
      let f := if (f.node id).type ≠ .rootNode then
        f.modify (f.node id).dependsOn.parent fun n => { n with child := default } else f
      let f := f.modify id fun n =>
        { n with type := nonrootType unordered, dependsOn := .parentId parent }
      some (true, f.modify parent fun n => { n with child := id })

def mark (id : NodeId) (flag : BitVec 32) : Bool × Forest NodeId Priority :=
  if !f.nodeExists id then (false, f)
  else (true, f.modify id fun n => { n with flags := n.flags ||| flag })

def unmark (id : NodeId) (flag : BitVec 32) : Bool × Forest NodeId Priority :=
  if !f.nodeExists id then (false, f)
  else (true, f.modify id fun n => { n with flags := n.flags &&& ~~~flag })

/-- The loop of `ValidateInvariantsForTests` down the children of a node. It gives up
when it has seen more children than there are nodes. -/
def validateChain (id : NodeId) : ℕ → ℕ → NodeId → Bool
  | 0, _, _ => false
  | fuel + 1, count, child =>
    if child = default then true
    else if count > f.numNodes ∨ id = child then false
    else validateChain id fuel (count + 1) (f.getChild child)

def validateInvariantsForTests : Bool :=
  f.entries.all fun ⟨id, n⟩ =>
    (n.type = .rootNode || (f.nodeExists n.dependsOn.parent &&
      f.getChild n.dependsOn.parent = id)) &&
    (n.child = default || (f.nodeExists n.child && id = f.getParent n.child)) &&
    f.validateChain id (f.numNodes + 2) 0 n.child

end Forest

/-! ### The forest -/

namespace Forest
variable {f g : Forest NodeId Priority} {id x : NodeId} {n : Node NodeId Priority}

/-- The links from parents to children. -/
def Link (f : Forest NodeId Priority) (p c : NodeId) : Prop := c ≠ default ∧ f.getChild p = c

/-- Parents and children name each other, and the links make no cycle. -/
structure WellFormed (f : Forest NodeId Priority) : Prop where
  nil : f.lookup default = none
  parent : ∀ {id n}, f.lookup id = some n → n.type ≠ .rootNode →
    ∃ p, n.dependsOn = .parentId p ∧ Link f p id
  child : ∀ {id c}, Link f id c →
    ∃ n, f.lookup c = some n ∧ n.type ≠ .rootNode ∧ n.dependsOn = .parentId id
  acyclic : Acyclic (Link f)

lemma lookup_modify (f : Forest NodeId Priority) (id x : NodeId)
    (change : Node NodeId Priority → Node NodeId Priority) :
    (f.modify id change).lookup x = if x = id then some (change (f.node id)) else f.lookup x := by
  split_ifs with h
  · subst h
    exact AList.lookup_insert f
  · exact AList.lookup_insert_ne h

lemma lookup_erase_eq (f : Forest NodeId Priority) (id x : NodeId) :
    (f.erase id).lookup x = if x = id then none else f.lookup x := by
  split_ifs with h
  · subst h
    exact AList.lookup_erase x f
  · exact AList.lookup_erase_ne h

lemma node_eq (h : f.lookup id = some n) : f.node id = n := by
  rw [node, h, Option.getD_some]

lemma getChild_eq (h : f.lookup id = some n) : f.getChild id = n.child := by
  rw [getChild, h]

lemma getChild_of_none (h : f.lookup id = none) : f.getChild id = default := by
  rw [getChild, h]

lemma node_child (f : Forest NodeId Priority) (id : NodeId) :
    (f.node id).child = f.getChild id := by
  unfold node getChild
  cases f.lookup id <;> rfl

lemma node_modify (f : Forest NodeId Priority) (id x : NodeId)
    (change : Node NodeId Priority → Node NodeId Priority) :
    (f.modify id change).node x = if x = id then change (f.node id) else f.node x := by
  unfold node
  rw [lookup_modify]
  split_ifs <;> rfl

lemma nodeExists_iff : f.nodeExists id = true ↔ ∃ n, f.lookup id = some n :=
  Option.isSome_iff_exists

namespace WellFormed
variable (h : f.WellFormed)
include h

lemma ne_nil (hn : f.lookup id = some n) : id ≠ default := by
  rintro rfl
  rw [h.nil] at hn
  cases hn

lemma link_lookup {p c : NodeId} (hl : Link f p c) : ∃ n, f.lookup p = some n := by
  obtain ⟨hc, hchild⟩ := hl
  cases hn : f.lookup p with
  | none =>
    rw [getChild_of_none hn] at hchild
    exact absurd hchild.symm hc
  | some n => exact ⟨n, rfl⟩

lemma parent_unique {p q c : NodeId} (hp : Link f p c) (hq : Link f q c) : p = q := by
  obtain ⟨n, hn, -, hdep⟩ := h.child hp
  obtain ⟨n', hn', -, hdep'⟩ := h.child hq
  rw [hn] at hn'
  cases hn'
  rw [hdep] at hdep'
  cases hdep'
  rfl

end WellFormed

/-- The nodes after a change that neither adds nor removes one and leaves the links
as they are. -/
lemma WellFormed.congr (h : f.WellFormed)
    (hsame : ∀ x, (g.lookup x).map (fun n => (n.type = .rootNode, n.dependsOn, n.child)) =
      (f.lookup x).map fun n => (n.type = .rootNode, n.dependsOn, n.child)) : g.WellFormed := by
  have hchild : ∀ x, g.getChild x = f.getChild x := by
    intro x
    have := hsame x
    unfold getChild
    cases hg : g.lookup x <;> cases hf : f.lookup x <;> simp_all
  have hlink : Link g = Link f := by
    ext p c
    rw [Link, Link, hchild]
  refine ⟨?_, ?_, ?_, hlink ▸ h.acyclic⟩
  · have := hsame default
    rw [h.nil] at this
    simpa using this
  · intro id n hn ht
    have := hsame id
    cases hf : f.lookup id with
    | none => simp [hn, hf] at this
    | some n' =>
      simp only [hn, hf, Option.map_some, Option.some.injEq, Prod.mk.injEq, eq_iff_iff] at this
      rw [this.2.1, hlink]
      exact h.parent hf fun ht' => ht (this.1.mpr ht')
  · intro id c hl
    rw [hlink] at hl
    obtain ⟨n, hn, ht, hdep⟩ := h.child hl
    have := hsame c
    cases hg : g.lookup c with
    | none => simp [hn, hg] at this
    | some n' =>
      simp only [hn, hg, Option.map_some, Option.some.injEq, Prod.mk.injEq, eq_iff_iff] at this
      exact ⟨n', rfl, fun ht' => ht (this.1.mp ht'), this.2.1.trans hdep⟩

/-- What a node says of its place: whether it is a root, and what it depends on. -/
def Node.place (n : Node NodeId Priority) : Prop × DependsOn NodeId Priority :=
  (n.type = .rootNode, n.dependsOn)

/-- A node that is, or becomes, a root, or the child of another node. -/
def PlacedAt (n : Node NodeId Priority) : Option NodeId → Prop
  | none => n.type = .rootNode
  | some p => n.type ≠ .rootNode ∧ n.dependsOn = .parentId p

/-- Putting one node, old or new, at another place. -/
theorem WellFormed.put (h : f.WellFormed) (place : Option NodeId) (hid : id ≠ default)
    (hsame : ∀ x, x ≠ id → (g.lookup x).map Node.place = (f.lookup x).map Node.place)
    (hself : ∃ n, g.lookup id = some n ∧ PlacedAt n place)
    (hlink : ∀ a b, Link g a b ↔ (Link f a b ∧ b ≠ id) ∨ (place = some a ∧ b = id))
    (hcycle : ∀ p, place = some p → ¬ ReflTransGen (Link f) id p) : g.WellFormed := by
  obtain ⟨self, hself, hplaced⟩ := hself
  have hother : ∀ {x n}, x ≠ id → g.lookup x = some n →
      ∃ n', f.lookup x = some n' ∧ (n.type = .rootNode ↔ n'.type = .rootNode) ∧
        n.dependsOn = n'.dependsOn := by
    intro x n hx hn
    have := hsame x hx
    cases hf : f.lookup x with
    | none => simp [hn, hf] at this
    | some n' =>
      refine ⟨n', rfl, ?_⟩
      simpa only [hn, hf, Node.place, Option.map_some, Option.some.injEq, Prod.mk.injEq,
        eq_iff_iff] using this
  refine ⟨?_, ?_, ?_, ?_⟩
  · have := hsame default hid.symm
    rw [h.nil] at this
    simpa using this
  · intro x n hn ht
    by_cases hx : x = id
    · subst hx
      rw [hself] at hn
      cases hn
      cases place with
      | none => exact absurd hplaced ht
      | some p => exact ⟨p, hplaced.2, (hlink p x).mpr (.inr ⟨rfl, rfl⟩)⟩
    · obtain ⟨n', hn', htype, hdep⟩ := hother hx hn
      obtain ⟨p, hp, hl⟩ := h.parent hn' fun h' => ht (htype.mpr h')
      exact ⟨p, hdep.trans hp, (hlink p x).mpr (.inl ⟨hl, hx⟩)⟩
  · intro a b hab
    rcases (hlink a b).mp hab with ⟨hl, hb⟩ | ⟨rfl, rfl⟩
    · obtain ⟨n, hn, ht, hdep⟩ := h.child hl
      have := hsame b hb
      cases hg : g.lookup b with
      | none => simp [hn, hg] at this
      | some n' =>
        simp only [hn, hg, Node.place, Option.map_some, Option.some.injEq, Prod.mk.injEq,
          eq_iff_iff] at this
        exact ⟨n', rfl, fun h' => ht (this.1.mp h'), this.2.trans hdep⟩
    · exact ⟨self, hself, hplaced⟩
  · cases place with
    | none =>
      refine h.acyclic.mono fun a b hab => ?_
      rcases (hlink a b).mp hab with hl | ⟨hp, -⟩
      · exact hl.1
      · cases hp
    | some p =>
      refine h.acyclic.addEdge (p := p) (c := id) (fun a b hab => ?_) (hcycle p rfl)
      rcases (hlink a b).mp hab with hl | ⟨hp, hb⟩
      · exact .inl hl.1
      · cases hp
        exact .inr ⟨rfl, hb⟩

/-- No link leads to a node that is not there. -/
lemma WellFormed.not_link_of_none (h : f.WellFormed) (hid : f.lookup id = none) (p : NodeId) :
    ¬ Link f p id := by
  intro hl
  obtain ⟨n, hn, -⟩ := h.child hl
  rw [hid] at hn
  cases hn

lemma lookup_of_not_nodeExists (h : ¬ f.nodeExists id = true) : f.lookup id = none := by
  cases hn : f.lookup id with
  | none => rfl
  | some n => exact absurd (nodeExists_iff.mpr ⟨n, hn⟩) h

lemma getChild_modify (f : Forest NodeId Priority) (id x : NodeId)
    (change : Node NodeId Priority → Node NodeId Priority) :
    (f.modify id change).getChild x =
      if x = id then (change (f.node id)).child else f.getChild x := by
  rw [← node_child, node_modify]
  split_ifs
  · rfl
  · exact node_child f x

lemma WellFormed.addRootNode (h : f.WellFormed) (hid : id ≠ default) (p : Priority) :
    (f.addRootNode id p).2.WellFormed := by
  unfold Forest.addRootNode
  split_ifs with hex
  · exact h
  have hnone := lookup_of_not_nodeExists hex
  refine h.put none hid (fun x hx => ?_) ?_ (fun a b => ?_) (by simp)
  · rw [lookup_modify, if_neg hx]
  · rw [lookup_modify, if_pos rfl]
    exact ⟨_, rfl, rfl⟩
  · have hb := h.not_link_of_none hnone a
    unfold Link at hb ⊢
    simp only [getChild_modify, node_child]
    grind

/-- The parent of a node that is not a root, and the only node with this child. -/
lemma WellFormed.exists_parent (h : f.WellFormed) (hn : f.lookup id = some n)
    (ht : n.type ≠ .rootNode) :
    Link f n.dependsOn.parent id ∧ ∀ x, Link f x id ↔ x = n.dependsOn.parent := by
  obtain ⟨p, hp, hl⟩ := h.parent hn ht
  rw [hp]
  refine ⟨hl, fun x => ⟨fun hx => h.parent_unique hx hl, ?_⟩⟩
  rintro rfl
  exact hl

lemma WellFormed.not_link_root (h : f.WellFormed) (hn : f.lookup id = some n)
    (ht : n.type = .rootNode) (p : NodeId) : ¬ Link f p id := by
  intro hl
  obtain ⟨n', hn', ht', -⟩ := h.child hl
  rw [hn] at hn'
  cases hn'
  exact ht' ht

lemma nonrootType_ne (unordered : Bool) : nonrootType unordered ≠ .rootNode := by
  cases unordered <;> decide

lemma WellFormed.addNonRootNode (h : f.WellFormed) (hid : id ≠ default) (parent : NodeId)
    (unordered : Bool) : (f.addNonRootNode id parent unordered).2.WellFormed := by
  unfold Forest.addNonRootNode
  split_ifs with hex hchild
  · exact h
  · exact h
  rw [Bool.or_eq_true, not_or, Bool.not_eq_true', Bool.not_eq_false] at hex
  have hnone := lookup_of_not_nodeExists hex.1
  obtain ⟨n, hn⟩ := nodeExists_iff.mp hex.2
  have hne : parent ≠ id := by
    rintro rfl
    rw [hnone] at hn
    cases hn
  rw [not_not, node_child] at hchild
  refine h.put (some parent) hid (fun x hx => ?_) ?_ (fun a b => ?_) fun p hp hpath => ?_
  · rw [lookup_modify, lookup_modify, node_modify, if_neg hne, if_neg hx]
    split_ifs with hxp
    · subst hxp
      rw [node_eq hn, hn]
      rfl
    · rfl
  · rw [lookup_modify, if_neg hne.symm, lookup_modify, if_pos rfl]
    exact ⟨_, rfl, nonrootType_ne unordered, rfl⟩
  · have hb := h.not_link_of_none hnone a
    unfold Link at hb ⊢
    simp only [getChild_modify, node_child]
    grind
  · cases hp
    -- the new node has no links yet
    rcases hpath.cases_head with rfl | ⟨c, hl, -⟩
    · exact hne rfl
    · exact hl.1 (hl.2.symm.trans (getChild_of_none hnone))

lemma WellFormed.setPriority (h : f.WellFormed) (id : NodeId) (p : Priority) :
    (f.setPriority id p).2.WellFormed := by
  unfold Forest.setPriority
  split_ifs with hex ht
  · exact h
  · rw [Bool.not_eq_true', Bool.not_eq_false] at hex
    obtain ⟨n, hn⟩ := nodeExists_iff.mp hex
    rw [node_eq hn] at ht ⊢
    obtain ⟨hl, hunique⟩ := h.exists_parent hn ht
    have hne := h.acyclic.ne hl
    refine h.put none (h.ne_nil hn) (fun x hx => ?_) ?_ (fun a b => ?_) (by simp)
    · rw [lookup_modify, if_neg hx, lookup_modify, if_neg hx, lookup_modify]
      split_ifs with hxp
      · subst hxp
        obtain ⟨n', hn'⟩ := h.link_lookup hl
        rw [node_eq hn', hn']
        rfl
      · rfl
    · rw [lookup_modify, if_pos rfl, node_modify, if_pos rfl]
      exact ⟨_, rfl, rfl⟩
    · have ha := hunique a
      unfold Link at ha ⊢
      simp only [getChild_modify, node_child]
      grind
  · rw [Bool.not_eq_true', Bool.not_eq_false] at hex
    obtain ⟨n, hn⟩ := nodeExists_iff.mp hex
    rw [node_eq hn, not_not] at ht
    refine h.put none (h.ne_nil hn) (fun x hx => ?_) ?_ (fun a b => ?_) (by simp)
    · rw [lookup_modify, if_neg hx]
    · rw [lookup_modify, if_pos rfl, node_eq hn]
      exact ⟨_, rfl, ht⟩
    · have ha := h.not_link_root hn ht a
      unfold Link at ha ⊢
      simp only [getChild_modify, node_child]
      grind

/-! ### Moving and removing nodes -/

lemma WellFormed.mem_keys (h : f.WellFormed) {p c : NodeId} (hl : Link f p c) :
    c ∈ f.keys.toFinset := by
  obtain ⟨n, hn, -⟩ := h.child hl
  rw [List.mem_toFinset, ← AList.mem_keys, ← AList.lookup_isSome, hn]
  rfl

lemma mem_keys_of_lookup (hn : f.lookup id = some n) : id ∈ f.keys.toFinset := by
  rw [List.mem_toFinset, ← AList.mem_keys, ← AList.lookup_isSome, hn]
  rfl

lemma card_keys (f : Forest NodeId Priority) : f.keys.toFinset.card = f.numNodes :=
  List.toFinset_card_of_nodup f.keys_nodup

lemma WellFormed.rank_lt_numNodes (h : f.WellFormed) (hid : id ∈ f.keys.toFinset) :
    rank (Link f) f.keys.toFinset id < f.numNodes := by
  rw [← card_keys]
  exact rank_lt_card h.acyclic hid

/-- The loop down the children finds the descendants. -/
lemma WellFormed.findsBelow (h : f.WellFormed) {q : NodeId} {fuel : ℕ} (last : NodeId)
    (hfuel : rank (Link f) f.keys.toFinset last < fuel) :
    ∃ found, f.findsBelow q fuel last = some found ∧
      (found = true ↔ TransGen (Link f) last q) := by
  induction fuel generalizing last with
  | zero => exact absurd hfuel (Nat.not_lt_zero _)
  | succ fuel ih =>
    rw [Forest.findsBelow, node_child]
    by_cases hnil : f.getChild last = default
    · refine ⟨false, if_pos hnil, by simp, fun hpath => ?_⟩
      obtain ⟨c, hl, -⟩ := TransGen.head'_iff.mp hpath
      exact absurd (hl.2.symm.trans hnil) hl.1
    have hl : Link f last (f.getChild last) := ⟨hnil, rfl⟩
    rw [if_neg hnil]
    by_cases hq : f.getChild last = q
    · exact ⟨true, if_pos hq, fun _ => .single (hq ▸ hl), fun _ => rfl⟩
    have hrank := rank_lt h.acyclic (h.mem_keys hl) hl
    obtain ⟨found, hfound, hiff⟩ := ih (f.getChild last) (by omega)
    refine ⟨found, (if_neg hq).trans hfound, hiff.trans ⟨fun hpath => .head hl hpath, ?_⟩⟩
    intro hpath
    obtain ⟨c, hlc, hcq⟩ := TransGen.head'_iff.mp hpath
    have hc : c = f.getChild last := hlc.2.symm
    subst hc
    rcases hcq.cases_head with heq | ⟨d, hd, hdq⟩
    · exact absurd heq hq
    · exact TransGen.head' hd hdq

/-- A node is moved below another one that has no child and is none of its descendants. -/
lemma WellFormed.move (h : f.WellFormed) {parent : NodeId} {np : Node NodeId Priority}
    (hn : f.lookup id = some n) (hnp : f.lookup parent = some np)
    (hchild : f.getChild parent = default) (hcycle : ¬ ReflTransGen (Link f) id parent)
    (unordered : Bool) :
    (((if (f.node id).type ≠ .rootNode then
        f.modify (f.node id).dependsOn.parent fun n => { n with child := default } else f).modify id
      fun n =>
        { n with type := nonrootType unordered, dependsOn := .parentId parent }).modify parent
      fun n => { n with child := id }).WellFormed := by
  have hnil := h.ne_nil hn
  have hself : parent ≠ id := by
    rintro rfl
    exact hcycle .refl
  have hbelow : ∀ p, some parent = some p → ¬ ReflTransGen (Link f) id p := by
    rintro p ⟨⟩
    exact hcycle
  rw [node_eq hn]
  split_ifs with ht
  · obtain ⟨hl, hunique⟩ := h.exists_parent hn ht
    have hne := h.acyclic.ne hl
    have hnew : parent ≠ n.dependsOn.parent := by
      rintro rfl
      exact hl.1 (hl.2.symm.trans hchild)
    refine h.put (some parent) (h.ne_nil hn) (fun x hx => ?_) ?_ (fun a b => ?_) hbelow
    · simp only [lookup_modify, node_modify, if_neg hx, if_neg hnew, if_neg hself]
      split_ifs with hxp hxo
      · rw [hxp, hnp, node_eq hnp]
        rfl
      · obtain ⟨no, hno⟩ := h.link_lookup hl
        rw [hxo, hno, node_eq hno]
        rfl
      · rfl
    · rw [lookup_modify, if_neg hself.symm, lookup_modify, if_pos rfl]
      exact ⟨_, rfl, nonrootType_ne unordered, rfl⟩
    · have ha := hunique a
      unfold Link at ha ⊢
      simp only [getChild_modify, node_child]
      grind
  · rw [not_not] at ht
    refine h.put (some parent) (h.ne_nil hn) (fun x hx => ?_) ?_ (fun a b => ?_) hbelow
    · simp only [lookup_modify, node_modify, if_neg hx, if_neg hself]
      split_ifs with hxp
      · rw [hxp, hnp, node_eq hnp]
        rfl
      · rfl
    · rw [lookup_modify, if_neg hself.symm, lookup_modify, if_pos rfl]
      exact ⟨_, rfl, nonrootType_ne unordered, rfl⟩
    · have ha := h.not_link_root hn ht a
      unfold Link at ha ⊢
      simp only [getChild_modify, node_child]
      grind

lemma WellFormed.setParent (h : f.WellFormed) (id parent : NodeId) (unordered : Bool) :
    ∃ ok g, f.setParent id parent unordered = some (ok, g) ∧ g.WellFormed ∧
      (ok = false → g = f) := by
  unfold Forest.setParent
  by_cases hex : (!f.nodeExists id || !f.nodeExists parent) = true
  · exact ⟨false, f, if_pos hex, h, fun _ => rfl⟩
  rw [if_neg hex]
  rw [Bool.or_eq_true, not_or, Bool.not_eq_true', Bool.not_eq_false, Bool.not_eq_true',
    Bool.not_eq_false] at hex
  obtain ⟨n, hn⟩ := nodeExists_iff.mp hex.1
  obtain ⟨np, hnp⟩ := nodeExists_iff.mp hex.2
  by_cases hsame : (f.node parent).child = id
  · -- the parent stays, only the order changes
    have hl : Link f parent id := ⟨h.ne_nil hn, by rw [← node_child, hsame]⟩
    obtain ⟨n', hn', ht, -⟩ := h.child hl
    rw [hn] at hn'
    cases hn'
    refine ⟨true, _, if_pos hsame, h.congr fun x => ?_, by simp⟩
    rw [lookup_modify]
    split_ifs with hx
    · rw [hx, hn, node_eq hn]
      simp only [Option.map_some, nonrootType_ne, ht]
    · rfl
  rw [if_neg hsame]
  by_cases hchild : (f.node parent).child ≠ default
  · exact ⟨false, f, if_pos hchild, h, fun _ => rfl⟩
  rw [if_neg hchild]
  rw [not_not, node_child] at hchild
  by_cases hself : id = parent
  · exact ⟨false, f, if_pos hself, h, fun _ => rfl⟩
  rw [if_neg hself]
  have hrank := h.rank_lt_numNodes (mem_keys_of_lookup hn)
  obtain ⟨found, hfound, hiff⟩ := h.findsBelow (q := parent) id (hrank.trans (Nat.lt_succ_self _))
  rw [hfound]
  cases found with
  | true => exact ⟨false, f, rfl, h, fun _ => rfl⟩
  | false =>
    refine ⟨true, _, rfl, h.move hn hnp hchild (fun hpath => ?_) unordered, by simp⟩
    rcases reflTransGen_iff_eq_or_transGen.mp hpath with heq | hpath
    · exact hself heq.symm
    · exact Bool.false_ne_true (hiff.mpr hpath)

/-- A change of one node under a condition, seen from all nodes. -/
lemma lookup_modify_if (f : Forest NodeId Priority) (id : NodeId) (P : Prop) [Decidable P]
    (change : Node NodeId Priority → Node NodeId Priority) (hn : P → ∃ n, f.lookup id = some n)
    (x : NodeId) :
    (if P then f.modify id change else f).lookup x =
      (f.lookup x).map fun m => if P ∧ x = id then change m else m := by
  by_cases hP : P
  · obtain ⟨n, hn⟩ := hn hP
    simp only [hP, if_true, true_and]
    rw [lookup_modify]
    split_ifs with hx
    · rw [hx, hn, node_eq hn, Option.map_some]
    · rw [Option.map_id']
  · simp only [hP, if_false, false_and, Option.map_id']

/-- What is left of the parent of a removed node. -/
def Node.skip (m n : Node NodeId Priority) : Node NodeId Priority := { m with child := n.child }

/-- What becomes of the child of a removed node. -/
def Node.raise (m n : Node NodeId Priority) : Node NodeId Priority :=
  { m with
    dependsOn := n.dependsOn
    type := if n.type = .rootNode then .rootNode
      else if n.type = .nonrootOrdered then .nonrootOrdered else m.type }

/-- The nodes after a removal: the child of the node takes its place. -/
lemma WellFormed.lookup_removeNode (h : f.WellFormed) (hn : f.lookup id = some n) :
    (f.removeNode id).1 = true ∧ ∀ x, (f.removeNode id).2.lookup x = if x = id then none else
      (f.lookup x).map fun m =>
        let m := if n.type ≠ .rootNode ∧ x = n.dependsOn.parent then Node.skip m n else m
        if n.child ≠ default ∧ x = n.child then Node.raise m n else m := by
  have hex : f.nodeExists id = true := nodeExists_iff.mpr ⟨n, hn⟩
  -- the forest after the parent was changed
  set f₁ := if n.type ≠ .rootNode then
    f.modify n.dependsOn.parent fun m => Node.skip m n else f with hf₁
  have hlookup₁ := lookup_modify_if f n.dependsOn.parent (n.type ≠ .rootNode)
    (fun m => Node.skip m n) fun ht => h.link_lookup (h.exists_parent hn ht).1
  rw [← hf₁] at hlookup₁
  have hn₁ : f₁.lookup id = some n := by
    rw [hlookup₁, hn, Option.map_some]
    split_ifs with ht
    · exact absurd ht.2 (h.acyclic.ne (h.exists_parent hn ht.1).1).symm
    · rfl
  have hlookup₂ := lookup_modify_if f₁ n.child (n.child ≠ default)
    (fun m => Node.raise m n) fun hc => by
      obtain ⟨nc, hnc, -⟩ := h.child (show Link f id n.child from ⟨hc, getChild_eq hn⟩)
      rw [hlookup₁, hnc]
      exact ⟨_, rfl⟩
  have hresult : f.removeNode id = (true, (if n.child ≠ default then
      f₁.modify n.child fun m => Node.raise m n else f₁).erase id) := by
    have hnode := node_eq hn
    have hnode₁ := node_eq hn₁
    simp only [Forest.removeNode, hex, hnode, Bool.not_true, Bool.false_eq_true, if_false]
    rw [hf₁] at hnode₁ ⊢
    simp only [Node.skip] at hnode₁ ⊢
    rw [hnode₁]
    rfl
  rw [hresult]
  refine ⟨rfl, fun x => ?_⟩
  rw [lookup_erase_eq, hlookup₂, hlookup₁, Option.map_map]
  rfl

/-- The links after a removal bypass the removed node. -/
lemma WellFormed.link_removeNode (h : f.WellFormed) (hn : f.lookup id = some n) (a b : NodeId) :
    Link (f.removeNode id).2 a b ↔ Bypass (Link f) id a b := by
  have hlookup := (h.lookup_removeNode hn).2 a
  have hchild : (f.removeNode id).2.getChild a = if a = id then default else
      if n.type ≠ .rootNode ∧ a = n.dependsOn.parent then n.child else f.getChild a := by
    unfold getChild
    rw [hlookup]
    by_cases ha : a = id
    · simp only [ha, if_true]
    simp only [ha, if_false]
    cases hfa : f.lookup a with
    | none =>
      by_cases hp : n.type ≠ .rootNode ∧ a = n.dependsOn.parent
      · obtain ⟨np, hnp⟩ := h.link_lookup (h.exists_parent hn hp.1).1
        rw [← hp.2, hfa] at hnp
        cases hnp
      · simp only [hp, if_false, Option.map_none]
    | some m =>
      simp only [Option.map_some]
      split_ifs <;> rfl
  have hself := getChild_eq hn
  have hloop : ¬ Link f id id := fun hl => h.acyclic.ne hl rfl
  have hparent : Link f a id ↔ n.type ≠ .rootNode ∧ a = n.dependsOn.parent := by
    by_cases ht : n.type = .rootNode
    · exact ⟨fun hl => absurd hl (h.not_link_root hn ht a), fun hp => absurd ht hp.1⟩
    · rw [(h.exists_parent hn ht).2 a]
      exact ⟨fun ha => ⟨ht, ha⟩, And.right⟩
  unfold Bypass
  unfold Link at hparent hloop ⊢
  rw [hchild]
  grind

lemma WellFormed.removeNode (h : f.WellFormed) (id : NodeId) : (f.removeNode id).2.WellFormed := by
  cases hn : f.lookup id with
  | none =>
    have hex : f.nodeExists id = false := by rw [nodeExists, hn]; rfl
    simp only [Forest.removeNode, hex, Bool.not_false, if_true]
    exact h
  | some n =>
    have hlookup := (h.lookup_removeNode hn).2
    have hlink := h.link_removeNode hn
    refine ⟨?_, ?_, ?_, ?_⟩
    · rw [hlookup, h.nil]
      split_ifs <;> rfl
    · intro x m hm ht
      rw [hlookup] at hm
      by_cases hx : x = id
      · rw [if_pos hx] at hm
        cases hm
      rw [if_neg hx] at hm
      obtain ⟨m', hm', hmeq⟩ := Option.map_eq_some_iff.mp hm
      by_cases hc : n.child ≠ default ∧ x = n.child
      · -- the child of the removed node
        simp only [hc, ne_eq, not_false_eq_true, and_self, if_true] at hmeq
        have htn : n.type ≠ .rootNode := by
          intro htn
          rw [← hmeq] at ht
          exact ht (if_pos htn)
        obtain ⟨p, hp, hl⟩ := h.parent hn htn
        refine ⟨p, by rw [← hmeq]; exact hp, (hlink p x).mpr (.inr ⟨hl, ?_⟩)⟩
        rw [hc.2]
        exact ⟨hc.1, getChild_eq hn⟩
      · have hplace : m.type = m'.type ∧ m.dependsOn = m'.dependsOn := by
          rw [← hmeq]
          simp only [hc, if_false]
          split_ifs <;> exact ⟨rfl, rfl⟩
        rw [hplace.1] at ht
        obtain ⟨p, hp, hl⟩ := h.parent hm' ht
        refine ⟨p, hplace.2.trans hp, (hlink p x).mpr (.inl ⟨?_, hx, hl⟩)⟩
        rintro rfl
        rw [Link, getChild_eq hn] at hl
        exact hc ⟨hl.2 ▸ hl.1, hl.2.symm⟩
    · intro a b hab
      rcases (hlink a b).mp hab with ⟨ha, hb, hl⟩ | ⟨hal, hbl⟩
      · obtain ⟨m, hm, ht, hdep⟩ := h.child hl
        have hc : ¬ (n.child ≠ default ∧ b = n.child) := by
          rintro ⟨hc, rfl⟩
          exact ha (h.parent_unique hl ⟨hc, getChild_eq hn⟩)
        rw [hlookup, if_neg hb, hm, Option.map_some]
        simp only [hc, if_false]
        split_ifs <;> exact ⟨_, rfl, ht, hdep⟩
      · obtain ⟨m, hm, ht, -⟩ := h.child hbl
        obtain ⟨n', hn', htn, hdep⟩ := h.child hal
        rw [hn] at hn'
        cases hn'
        have hb : b = n.child := hbl.2.symm.trans (getChild_eq hn)
        have hbne : b ≠ id := fun heq => h.acyclic.ne hbl heq.symm
        have hc : n.child ≠ default ∧ b = n.child := ⟨hb ▸ hbl.1, hb⟩
        rw [hlookup, if_neg hbne, hm, Option.map_some]
        simp only [hc, ne_eq, not_false_eq_true, and_self, if_true]
        have htype : ∀ m : Node NodeId Priority, m.type ≠ .rootNode →
            (Node.raise m n).type ≠ .rootNode := by
          intro m hm
          simp only [Node.raise, if_neg htn]
          split_ifs
          · simp
          · exact hm
        refine ⟨_, rfl, htype _ ?_, hdep⟩
        split_ifs <;> exact ht
    · exact (h.acyclic.bypass id).mono fun a b hab => (hlink a b).mp hab

/-! ### Validation -/

/-- The loop over the children of a node ends before the count is too high. -/
lemma WellFormed.validateChain (h : f.WellFormed) {fuel count : ℕ} {child : NodeId}
    (hchild : child ≠ default → TransGen (Link f) id child ∧
      count + rank (Link f) f.keys.toFinset child < f.numNodes ∧
      rank (Link f) f.keys.toFinset child + 1 < fuel) (hfuel : 0 < fuel) :
    f.validateChain id fuel count child = true := by
  induction fuel generalizing count child with
  | zero => exact absurd hfuel (lt_irrefl 0)
  | succ fuel ih =>
    rw [Forest.validateChain]
    by_cases hnil : child = default
    · rw [if_pos hnil]
    obtain ⟨hpath, hcount, hrank⟩ := hchild hnil
    have hne : ¬ (count > f.numNodes ∨ id = child) := by
      rintro (hgt | rfl)
      · omega
      · exact h.acyclic id hpath
    rw [if_neg hnil, if_neg hne]
    refine ih (fun hnil' => ?_) (by omega)
    have hl : Link f child (f.getChild child) := ⟨hnil', rfl⟩
    have hlt := rank_lt h.acyclic (h.mem_keys hl) hl
    exact ⟨hpath.tail hl, by omega, by omega⟩

theorem WellFormed.validateInvariantsForTests (h : f.WellFormed) :
    f.validateInvariantsForTests = true := by
  unfold Forest.validateInvariantsForTests
  rw [List.all_eq_true]
  rintro ⟨id, n⟩ hmem
  have hn : f.lookup id = some n := AList.mem_lookup_iff.mpr hmem
  simp only [Bool.and_eq_true, Bool.or_eq_true, decide_eq_true_eq]
  refine ⟨⟨?_, ?_⟩, ?_⟩
  · by_cases ht : n.type = .rootNode
    · exact .inl ht
    · obtain ⟨hl, -⟩ := h.exists_parent hn ht
      exact .inr ⟨nodeExists_iff.mpr (h.link_lookup hl), hl.2⟩
  · by_cases hc : n.child = default
    · exact .inl hc
    · obtain ⟨c, hlookup, ht, hdep⟩ := h.child (show Link f id n.child from ⟨hc, getChild_eq hn⟩)
      refine .inr ⟨nodeExists_iff.mpr ⟨c, hlookup⟩, ?_⟩
      rw [getParent, hlookup]
      simp only [if_pos ht, hdep]
      rfl
  · refine h.validateChain (fun hc => ?_) (Nat.succ_pos _)
    have hl : Link f id n.child := ⟨hc, getChild_eq hn⟩
    have hlt := h.rank_lt_numNodes (h.mem_keys hl)
    exact ⟨.single hl, by omega, by omega⟩

/-! ### Walking the forest -/

/-- The node IDs from a node down its children. -/
def chainFrom (f : Forest NodeId Priority) : ℕ → NodeId → List NodeId
  | 0, _ => []
  | fuel + 1, id => if id = default then [] else id :: chainFrom f fuel (f.getChild id)

def roots (f : Forest NodeId Priority) : List NodeId :=
  f.keys.filter fun id => (f.node id).type = .rootNode

/-- The nodes that are met when following the children from each root. -/
def walk (f : Forest NodeId Priority) : List NodeId := f.roots.flatMap (f.chainFrom f.numNodes)

lemma chainFrom_default (fuel : ℕ) : f.chainFrom fuel default = [] := by
  cases fuel with
  | zero => rfl
  | succ fuel => exact if_pos rfl

lemma not_link_of_childless (hc : f.getChild id = default) (x : NodeId) : ¬ Link f id x :=
  fun hl => hl.1 (hl.2.symm.trans hc)

/-- The chain of a node holds the node and its descendants, each once. -/
lemma WellFormed.chainFrom (h : f.WellFormed) {fuel : ℕ} (hid : id ≠ default)
    (hfuel : rank (Link f) f.keys.toFinset id < fuel) :
    (f.chainFrom fuel id).Nodup ∧
      ∀ x, x ∈ f.chainFrom fuel id ↔ ReflTransGen (Link f) id x := by
  induction fuel generalizing id with
  | zero => exact absurd hfuel (Nat.not_lt_zero _)
  | succ fuel ih =>
    rw [Forest.chainFrom, if_neg hid]
    by_cases hc : f.getChild id = default
    · rw [hc, chainFrom_default]
      refine ⟨List.nodup_singleton id, fun x => ?_⟩
      rw [List.mem_singleton, ReflTransGen.cases_head_iff]
      constructor
      · exact fun hx => .inl hx.symm
      · rintro (hx | ⟨c, hl, -⟩)
        · exact hx.symm
        · exact absurd hl (not_link_of_childless hc c)
    have hl : Link f id (f.getChild id) := ⟨hc, rfl⟩
    have hlt := rank_lt h.acyclic (h.mem_keys hl) hl
    obtain ⟨hnodup, hmem⟩ := ih hc (by omega)
    constructor
    · rw [List.nodup_cons, hmem]
      exact ⟨fun hpath => h.acyclic id (.head' hl hpath), hnodup⟩
    · intro x
      rw [List.mem_cons, hmem, ReflTransGen.cases_head_iff (a := id)]
      constructor
      · rintro (rfl | hpath)
        · exact .inl rfl
        · exact .inr ⟨_, hl, hpath⟩
      · rintro (rfl | ⟨c, hlc, hpath⟩)
        · exact .inl rfl
        · have hcc : f.getChild id = c := hlc.2
          exact .inr (hcc ▸ hpath)

lemma mem_roots : id ∈ f.roots ↔ ∃ n, f.lookup id = some n ∧ n.type = .rootNode := by
  rw [roots, List.mem_filter, ← AList.mem_keys, ← AList.lookup_isSome, Option.isSome_iff_exists,
    decide_eq_true_eq]
  constructor
  · rintro ⟨⟨n, hn⟩, ht⟩
    rw [node_eq hn] at ht
    exact ⟨n, hn, ht⟩
  · rintro ⟨n, hn, ht⟩
    rw [node_eq hn]
    exact ⟨⟨n, hn⟩, ht⟩

/-- Each node is below a root. -/
lemma WellFormed.exists_root (h : f.WellFormed) (hn : f.lookup id = some n) :
    ∃ r ∈ f.roots, ReflTransGen (Link f) r id := by
  induction hk : rank (Function.swap (Link f)) f.keys.toFinset id using Nat.strong_induction_on
    generalizing id n with
  | _ k ih =>
    by_cases ht : n.type = .rootNode
    · exact ⟨id, mem_roots.mpr ⟨n, hn, ht⟩, .refl⟩
    · obtain ⟨hl, -⟩ := h.exists_parent hn ht
      obtain ⟨np, hnp⟩ := h.link_lookup hl
      have hlt := rank_lt h.acyclic.swap (mem_keys_of_lookup hnp)
        (show Function.swap (Link f) id n.dependsOn.parent from hl)
      obtain ⟨r, hr, hpath⟩ := ih _ (hk ▸ hlt) hnp rfl
      exact ⟨r, hr, hpath.tail hl⟩

/-- A root is below no other node. -/
lemma WellFormed.eq_of_path_to_root (h : f.WellFormed) {r x : NodeId} (hr : r ∈ f.roots)
    (hpath : ReflTransGen (Link f) x r) : x = r := by
  obtain ⟨n, hn, ht⟩ := mem_roots.mp hr
  rcases hpath.cases_tail with heq | ⟨p, -, hl⟩
  · exact heq.symm
  · exact absurd hl (h.not_link_root hn ht p)

/-- Following the children from the roots meets every node exactly once. -/
theorem WellFormed.walk_perm (h : f.WellFormed) : f.walk.Perm f.keys := by
  have hchain : ∀ r ∈ f.roots, (f.chainFrom f.numNodes r).Nodup ∧
      ∀ x, x ∈ f.chainFrom f.numNodes r ↔ ReflTransGen (Link f) r x := by
    intro r hr
    obtain ⟨n, hn, -⟩ := mem_roots.mp hr
    exact h.chainFrom (h.ne_nil hn) (h.rank_lt_numNodes (mem_keys_of_lookup hn))
  have hnodup : f.walk.Nodup := by
    unfold walk
    rw [List.nodup_flatMap]
    refine ⟨fun r hr => (hchain r hr).1, ?_⟩
    refine (f.keys_nodup.filter _).pairwise_of_forall_ne fun r hr r' hr' hne => ?_
    rw [Function.onFun, List.disjoint_left]
    intro x hx hx'
    rw [(hchain r hr).2] at hx
    rw [(hchain r' hr').2] at hx'
    -- a node has one parent, so that one of the roots is above the other
    have htotal := ReflTransGen.total_of_right_unique (r := Function.swap (Link f))
      (fun a b c hab hac => h.parent_unique hab hac)
      (reflTransGen_swap.mpr hx) (reflTransGen_swap.mpr hx')
    rcases htotal with hpath | hpath
    · exact hne (h.eq_of_path_to_root hr (reflTransGen_swap.mp hpath)).symm
    · exact hne (h.eq_of_path_to_root hr' (reflTransGen_swap.mp hpath))
  rw [List.perm_ext_iff_of_nodup hnodup f.keys_nodup]
  intro x
  rw [← AList.mem_keys, ← AList.lookup_isSome, Option.isSome_iff_exists, walk, List.mem_flatMap]
  constructor
  · rintro ⟨r, hr, hx⟩
    obtain ⟨n, hn, -⟩ := mem_roots.mp hr
    rw [(hchain r hr).2] at hx
    rcases hx.cases_tail with rfl | ⟨p, -, hl⟩
    · exact ⟨n, hn⟩
    · obtain ⟨m, hm, -⟩ := h.child hl
      exact ⟨m, hm⟩
  · rintro ⟨n, hn⟩
    obtain ⟨r, hr, hpath⟩ := h.exists_root hn
    exact ⟨r, hr, ((hchain r hr).2 x).mpr hpath⟩

end Forest

/-! ### Runs -/

/-- The calls that change the forest. -/
inductive Event (NodeId Priority : Type*)
  | addRootNode (id : NodeId) (priority : Priority)
  | addNonRootNode (id parent : NodeId) (unordered : Bool)
  | removeNode (id : NodeId)
  | setPriority (id : NodeId) (priority : Priority)
  | setParent (id parent : NodeId) (unordered : Bool)
  | markReadyToRead (id : NodeId)
  | markNoLongerReadyToRead (id : NodeId)
  | markReadyToWrite (id : NodeId)
  | markNoLongerReadyToWrite (id : NodeId)

/-- The IDs that a call names. -/
def Event.ids : Event NodeId Priority → List NodeId
  | .addNonRootNode id parent _ | .setParent id parent _ => [id, parent]
  | .addRootNode id _ | .removeNode id | .setPriority id _ | .markReadyToRead id
  | .markNoLongerReadyToRead id | .markReadyToWrite id | .markNoLongerReadyToWrite id => [id]

namespace Forest
variable {f g : Forest NodeId Priority} {id x : NodeId} {n : Node NodeId Priority}

/-- One call: what it returns and the forest after it. -/
def step (f : Forest NodeId Priority) :
    Event NodeId Priority → Option (Bool × Forest NodeId Priority)
  | .addRootNode id priority => some (f.addRootNode id priority)
  | .addNonRootNode id parent unordered => some (f.addNonRootNode id parent unordered)
  | .removeNode id => some (f.removeNode id)
  | .setPriority id priority => some (f.setPriority id priority)
  | .setParent id parent unordered => f.setParent id parent unordered
  | .markReadyToRead id => some (f.mark id kReadyToRead)
  | .markNoLongerReadyToRead id => some (f.unmark id kReadyToRead)
  | .markReadyToWrite id => some (f.mark id kReadyToWrite)
  | .markNoLongerReadyToWrite id => some (f.unmark id kReadyToWrite)

def run (f : Forest NodeId Priority) (events : List (Event NodeId Priority)) :
    Option (Forest NodeId Priority) :=
  events.foldlM (fun f event => (f.step event).map Prod.snd) f

/-- The flags say nothing of the links. -/
lemma WellFormed.modify_flags (h : f.WellFormed) (hex : f.nodeExists id = true)
    (flags : BitVec 32 → BitVec 32) :
    (f.modify id fun n => { n with flags := flags n.flags }).WellFormed := by
  apply h.congr
  intro x
  rw [lookup_modify]
  split_ifs with hx
  · obtain ⟨n, hn⟩ := nodeExists_iff.mp hex
    rw [hx, hn, node_eq hn]
    rfl
  · rfl

lemma WellFormed.mark (h : f.WellFormed) (id : NodeId) (flag : BitVec 32) :
    (f.mark id flag).2.WellFormed := by
  unfold Forest.mark
  split_ifs with hex
  · exact h
  · apply h.modify_flags _ fun flags => flags ||| flag
    simpa using hex

lemma WellFormed.unmark (h : f.WellFormed) (id : NodeId) (flag : BitVec 32) :
    (f.unmark id flag).2.WellFormed := by
  unfold Forest.unmark
  split_ifs with hex
  · exact h
  · apply h.modify_flags _ fun flags => flags &&& ~~~flag
    simpa using hex

lemma mark_unchanged (id : NodeId) (flag : BitVec 32) :
    (f.mark id flag).1 = false → (f.mark id flag).2 = f := by
  unfold Forest.mark
  split_ifs <;> simp

lemma unmark_unchanged (id : NodeId) (flag : BitVec 32) :
    (f.unmark id flag).1 = false → (f.unmark id flag).2 = f := by
  unfold Forest.unmark
  split_ifs <;> simp

lemma wellFormed_empty : (∅ : Forest NodeId Priority).WellFormed := by
  have hlink : ∀ a b, ¬ Link (∅ : Forest NodeId Priority) a b := fun a b hl => hl.1 hl.2.symm
  constructor
  · exact AList.lookup_empty default
  · intro id n hn
    rw [AList.lookup_empty] at hn
    cases hn
  · intro id c hl
    exact absurd hl (hlink id c)
  · intro x hx
    obtain ⟨y, hy, -⟩ := TransGen.head'_iff.mp hx
    exact hlink x y hy

/-- Each call returns, keeps the forest well formed, and does nothing when it returns
false. -/
theorem WellFormed.step (h : f.WellFormed) (event : Event NodeId Priority) :
    ∃ ok g, f.step event = some (ok, g) ∧ (ok = false → g = f) ∧
      ((∀ id ∈ event.ids, id ≠ default) → g.WellFormed) := by
  cases event with
  | addRootNode id p =>
    refine ⟨(f.addRootNode id p).1, (f.addRootNode id p).2, rfl, ?_,
      fun hid => h.addRootNode (hid id (by simp [Event.ids])) p⟩
    unfold Forest.addRootNode
    split_ifs <;> simp
  | addNonRootNode id parent unordered =>
    refine ⟨(f.addNonRootNode id parent unordered).1, (f.addNonRootNode id parent unordered).2,
      rfl, ?_, fun hid => h.addNonRootNode (hid id (by simp [Event.ids])) parent unordered⟩
    unfold Forest.addNonRootNode
    split_ifs <;> simp
  | removeNode id =>
    refine ⟨(f.removeNode id).1, (f.removeNode id).2, rfl, ?_, fun _ => h.removeNode id⟩
    unfold Forest.removeNode
    by_cases hex : (!f.nodeExists id) = true
    · rw [if_pos hex]
      simp
    · rw [if_neg hex]
      simp
  | setPriority id p =>
    refine ⟨(f.setPriority id p).1, (f.setPriority id p).2, rfl, ?_, fun _ => h.setPriority id p⟩
    unfold Forest.setPriority
    by_cases hex : (!f.nodeExists id) = true
    · rw [if_pos hex]
      simp
    · rw [if_neg hex]
      simp
  | setParent id parent unordered =>
    obtain ⟨ok, g, hresult, hg, hsame⟩ := h.setParent id parent unordered
    exact ⟨ok, g, hresult, hsame, fun _ => hg⟩
  | markReadyToRead id => exact ⟨_, _, rfl, mark_unchanged id _, fun _ => h.mark id _⟩
  | markReadyToWrite id => exact ⟨_, _, rfl, mark_unchanged id _, fun _ => h.mark id _⟩
  | markNoLongerReadyToRead id => exact ⟨_, _, rfl, unmark_unchanged id _, fun _ => h.unmark id _⟩
  | markNoLongerReadyToWrite id => exact ⟨_, _, rfl, unmark_unchanged id _, fun _ => h.unmark id _⟩

lemma WellFormed.run (h : f.WellFormed) (events : List (Event NodeId Priority))
    (hids : ∀ event ∈ events, ∀ id ∈ event.ids, id ≠ default) :
    ∃ g, f.run events = some g ∧ g.WellFormed := by
  induction events generalizing f with
  | nil => exact ⟨f, rfl, h⟩
  | cons event events ih =>
    rw [List.forall_mem_cons] at hids
    obtain ⟨ok, f', hstep, -, hf'⟩ := h.step event
    obtain ⟨g, hg, hwf⟩ := ih (hf' hids.1) hids.2
    refine ⟨g, ?_, hwf⟩
    rw [Forest.run, List.foldlM_cons, hstep]
    exact hg

/-- What a removal does to the other nodes: none goes away, and their descendants among
each other are the same. -/
lemma WellFormed.removeNode_others (h : f.WellFormed) (hn : f.lookup id = some n) :
    (∀ x, (f.removeNode id).2.nodeExists x = true ↔ f.nodeExists x = true ∧ x ≠ id) ∧
      ∀ a b, a ≠ id → b ≠ id →
        (TransGen (Link (f.removeNode id).2) a b ↔ TransGen (Link f) a b) := by
  constructor
  · intro x
    rw [nodeExists, (h.lookup_removeNode hn).2 x]
    by_cases hx : x = id
    · simp [hx]
    · simp [hx, nodeExists]
  · intro a b ha hb
    have hlink : Link (f.removeNode id).2 = Bypass (Link f) id := by
      ext a b
      exact h.link_removeNode hn a b
    rw [hlink]
    exact transGen_bypass_iff (fun hl => h.acyclic.ne hl rfl) ha hb

/-- The forest stays a forest over every run of calls. -/
theorem run_wellFormed (events : List (Event NodeId Priority))
    (hids : ∀ event ∈ events, ∀ id ∈ event.ids, id ≠ default) :
    ∃ f : Forest NodeId Priority, run ∅ events = some f ∧
      f.validateInvariantsForTests = true ∧ f.WellFormed ∧ f.walk.Perm f.keys ∧
      (∀ event, ∃ ok g, f.step event = some (ok, g) ∧ (ok = false → g = f)) ∧
      ∀ id, f.nodeExists id = true → (f.removeNode id).1 = true ∧
        (∀ x, (f.removeNode id).2.nodeExists x = true ↔ f.nodeExists x = true ∧ x ≠ id) ∧
        ∀ a b, a ≠ id → b ≠ id →
          (TransGen (Link (f.removeNode id).2) a b ↔ TransGen (Link f) a b) := by
  obtain ⟨f, hrun, h⟩ := wellFormed_empty.run events hids
  refine ⟨f, hrun, h.validateInvariantsForTests, h, h.walk_perm, fun event => ?_, fun id hid => ?_⟩
  · obtain ⟨ok, g, hstep, hsame, -⟩ := h.step event
    exact ⟨ok, g, hstep, hsame⟩
  · obtain ⟨n, hn⟩ := nodeExists_iff.mp hid
    exact ⟨(h.lookup_removeNode hn).1, h.removeNode_others hn⟩

/-- A list of three nodes, out of which the middle one is taken. -/
theorem run_wellFormed_list :
    ∃ f : Forest ℕ ℕ, run ∅ [.addRootNode 1 7, .addNonRootNode 2 1 false,
        .addNonRootNode 3 2 true, .removeNode 2, .setParent 1 3 false] = some f ∧
      f.validateInvariantsForTests = true := by
  obtain ⟨f, hrun, hvalid, -⟩ := run_wellFormed
    ([.addRootNode 1 7, .addNonRootNode 2 1 false, .addNonRootNode 3 2 true, .removeNode 2,
      .setParent 1 3 false] : List (Event ℕ ℕ)) (by simp [Event.ids])
  exact ⟨f, hrun, hvalid⟩

end Forest

end Chromium.SpdyPriorityForest
