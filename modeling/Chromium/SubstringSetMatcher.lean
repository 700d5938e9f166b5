import Chromium.BreadthFirst
import Chromium.SortedMap
import Chromium.WireFormat

/-!
# The Aho-Corasick tree

`extensions/common/matcher/substring_set_matcher.cc`: the tree is rebuilt from all registered
patterns, its failure edges are set in breadth-first order, and a text is searched by one walk
through it. An index that is out of range, and a loop that does not end, give `none`.

Node numbers are naturals. A vector whose last index does not fit a `uint32` is larger than
what the allocator gives out (`base/security_unittest.cc`).
-/
namespace Chromium.SubstringSet

open WireFormat

/-- A signed `char`; a map goes through its keys in this order. -/
structure SignedChar where
  byte : Byte

instance : LinearOrder SignedChar :=
  LinearOrder.lift' (fun c => c.byte.toInt) fun c d h => by
    cases c
    cases d
    exact congrArg SignedChar.mk (BitVec.toInt_inj.mp h)

abbrev Text := List SignedChar

abbrev ID := ℤ

structure StringPattern where
  pattern : Text
  id : ID
  deriving DecidableEq

/-- `operator<` of the strings, which goes by unsigned bytes. -/
def comparePatterns (a b : StringPattern) : Bool :=
  a.pattern.map (fun c => c.byte.toNat) < b.pattern.map fun c => c.byte.toNat

def kNoSuchEdge : ℕ := 2 ^ 32 - 1

structure AhoCorasickNode where
  edges : SortedMap SignedChar ℕ := ∅
  failure : ℕ := kNoSuchEdge
  found : Finset ID := ∅
  deriving DecidableEq

namespace AhoCorasickNode

/-- `kNoSuchEdge` is `none` here. -/
def getEdge (node : AhoCorasickNode) (c : SignedChar) : Option ℕ := node.edges.find c

def setEdge (node : AhoCorasickNode) (c : SignedChar) (target : ℕ) : AhoCorasickNode :=
  { node with edges := node.edges.assign c target }

def setFailure (node : AhoCorasickNode) (failure : ℕ) : AhoCorasickNode :=
  { node with failure }

def addMatch (node : AhoCorasickNode) (id : ID) : AhoCorasickNode :=
  { node with found := insert id node.found }

def addMatches (node : AhoCorasickNode) (ids : Finset ID) : AhoCorasickNode :=
  { node with found := node.found ∪ ids }

end AhoCorasickNode

abbrev Tree := List AhoCorasickNode

/-- `tree_[i]` is changed in place. -/
def updateNode (tree : Tree) (i : ℕ) (f : AhoCorasickNode → AhoCorasickNode) : Option Tree := do
  let node ← tree[i]?
  some (tree.set i (f node))

/-- The first loop of `InsertPatternIntoAhoCorasickTree`: the node reached, and what is left. -/
def followPaths (tree : Tree) : ℕ → Text → Option (ℕ × Text)
  | current, [] => some (current, [])
  | current, c :: text => do
    let node ← tree[current]?
    match node.getEdge c with
    | none => some (current, c :: text)
    | some next => followPaths tree next text

/-- The second loop. -/
def createNodes : Tree → ℕ → Text → Option (Tree × ℕ)
  | tree, current, [] => some (tree, current)
  | tree, current, c :: text => do
    let created := tree.length
    let tree ← updateNode (tree ++ [{}]) current fun node => node.setEdge c created
    createNodes tree created text

def insertPatternIntoAhoCorasickTree (tree : Tree) (pattern : StringPattern) : Option Tree := do
  let (current, rest) ← followPaths tree 0 pattern.pattern
  let (tree, current) ← createNodes tree current rest
  updateNode tree current fun node => node.addMatch pattern.id

/-- The search for an edge along the failures, from a node on: the last node, and its edge. -/
def followFailures (tree : Tree) (c : SignedChar) : ℕ → ℕ → Option (ℕ × Option ℕ)
  | 0, _ => none
  | fuel + 1, current => do
    let node ← tree[current]?
    match node.getEdge c with
    | some next => some (current, some next)
    | none =>
      if current = 0 then some (current, none) else followFailures tree c fuel node.failure

/-- The body of the inner loop of `CreateFailureEdges`, for one edge of the current node. -/
def createFailureEdge (current : ℕ) (tree : Tree) (e : SignedChar × ℕ) : Option Tree := do
  let node ← tree[current]?
  let (_, edge_from_failure) ← followFailures tree e.1 tree.length node.failure
  let follow_in_case_of_failure := edge_from_failure.getD 0
  let tree ← updateNode tree e.2 fun node => node.setFailure follow_in_case_of_failure
  let failure ← tree[follow_in_case_of_failure]?
  updateNode tree e.2 fun node => node.addMatches failure.found

/-- The targets of the edges of a node, as they go into the queue. -/
def AhoCorasickNode.targets (node : AhoCorasickNode) : List ℕ := node.edges.entries.map Prod.snd

/-- The outer loop. -/
def serveQueue : ℕ → Tree → List ℕ → Option Tree
  | _, tree, [] => some tree
  | 0, _, _ :: _ => none
  | fuel + 1, tree, current :: queue => do
    let node ← tree[current]?
    let tree ← node.edges.entries.foldlM (createFailureEdge current) tree
    serveQueue fuel tree (queue ++ node.targets)

/-- The body of the first loop of `CreateFailureEdges`. -/
def linkToRoot (tree : Tree) (leads_to : ℕ) : Option Tree :=
  updateNode tree leads_to fun node => node.setFailure 0

def createFailureEdges (tree : Tree) : Option Tree := do
  let tree ← updateNode tree 0 fun root => root.setFailure 0
  let root ← tree[0]?
  let tree ← root.targets.foldlM linkToRoot tree
  serveQueue tree.length tree root.targets

def rebuildAhoCorasickTree (sorted_patterns : List StringPattern) : Option Tree := do
  let root : AhoCorasickNode := {}
  let tree ← sorted_patterns.foldlM insertPatternIntoAhoCorasickTree [root.setFailure 0]
  createFailureEdges tree

structure SubstringSetMatcher where
  patterns : SortedMap ID StringPattern
  tree : Tree

namespace SubstringSetMatcher

/-- The constructor. -/
def create : Option SubstringSetMatcher := do
  let tree ← rebuildAhoCorasickTree []
  some { patterns := ∅, tree }

/-- `std::sort` leaves equal patterns in any order. -/
def registerAndUnregisterPatterns (m : SubstringSetMatcher)
    (to_register to_unregister : List StringPattern) : Option SubstringSetMatcher := do
  let registered := to_register.foldl (fun ps p => ps.assign p.id p) m.patterns
  let patterns := to_unregister.foldl (fun ps p => ps.erase p.id) registered
  let sorted_patterns := (patterns.entries.map Prod.snd).mergeSort fun a b => !comparePatterns b a
  let tree ← rebuildAhoCorasickTree sorted_patterns
  some { patterns, tree }

def registerPatterns (m : SubstringSetMatcher) (patterns : List StringPattern) :
    Option SubstringSetMatcher :=
  m.registerAndUnregisterPatterns patterns []

def unregisterPatterns (m : SubstringSetMatcher) (patterns : List StringPattern) :
    Option SubstringSetMatcher :=
  m.registerAndUnregisterPatterns [] patterns

/-- The body of the loop of `Match`. -/
def matchStep (tree : Tree) (state : ℕ × Finset ID) (c : SignedChar) :
    Option (ℕ × Finset ID) := do
  let (current, edge_from_current) ← followFailures tree c tree.length state.1
  match edge_from_current with
  | some next => do
    let node ← tree[next]?
    some (next, state.2 ∪ node.found)
  | none => some (current, state.2)

/-- `Match`: the output set afterwards, and what is returned. -/
def matchText (m : SubstringSetMatcher) (text : Text) (ids : Finset ID) :
    Option (Finset ID × Bool) := do
  let root ← m.tree[0]?
  let (_, found) ← text.foldlM (matchStep m.tree) (0, ids ∪ root.found)
  some (found, ids.card != found.card)

end SubstringSetMatcher
end Chromium.SubstringSet
