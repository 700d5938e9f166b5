import Mathlib.Logic.Function.Basic
import Mathlib.Data.BitVec
import Mathlib.Tactic

/-!
# The strike register

The register of observed nonces of QUIC's crypto handshake
(net/quic/crypto/strike_register.cc): a crit-bit tree in a fixed block of memory.
Inner nodes are two packed words, free nodes are threaded on lists through the
memory of the nodes themselves, and a full register drops its leftmost entry to
make room. A failed `CHECK` and a walk that does not end are both `none`.
-/
namespace Chromium.StrikeRegister

abbrev Word := BitVec 32

abbrev Byte := BitVec 8

def kNil : Word := (1 <<< 31) ||| 1

def kExternalFlag : Word := 1 <<< 23

def kCreationTimeFromInternalEpoch : Word := 63115200

/-- The first word packs the left child and the critical byte, the second the
right child and the other bits. -/
structure InternalNode where
  data0 : Word
  data1 : Word
  deriving DecidableEq

namespace InternalNode

def data (n : InternalNode) : Bool → Word
  | false => n.data0
  | true => n.data1

def setData (n : InternalNode) (direction : Bool) (w : Word) : InternalNode :=
  match direction with
  | false => { n with data0 := w }
  | true => { n with data1 := w }

def setChild (n : InternalNode) (direction : Bool) (child : Word) : InternalNode :=
  n.setData direction ((n.data direction &&& 0xff#32) ||| (child <<< 8))

def setCritByte (n : InternalNode) (critbyte : Byte) : InternalNode :=
  { n with data0 := (n.data0 &&& 0xffffff00#32) ||| critbyte.setWidth 32 }

def setOtherBits (n : InternalNode) (otherbits : Byte) : InternalNode :=
  { n with data1 := (n.data1 &&& 0xffffff00#32) ||| otherbits.setWidth 32 }

def setNextPtr (n : InternalNode) (next : Word) : InternalNode :=
  { n with data0 := next }

def next (n : InternalNode) : Word := n.data0

def child (n : InternalNode) (d : Bool) : Word := n.data d >>> 8

def critbyte (n : InternalNode) : Byte := n.data0.setWidth 8

def otherbits (n : InternalNode) : Byte := n.data1.setWidth 8

end InternalNode

/-- A stored value: four bytes of internal time and twenty random bytes. -/
abbrev ExternalNode := Fin 24 → Byte

abbrev Nonce := Fin 32 → Byte

/-- A big-endian 32-bit number. -/
def timeFromBytes (d0 d1 d2 d3 : Byte) : Word :=
  (d0.setWidth 32 <<< 24) ||| (d1.setWidth 32 <<< 16) ||| (d2.setWidth 32 <<< 8) |||
    d3.setWidth 32

namespace ExternalNode

/-- The little-endian word at the start of a node: its time while it is stored,
the next pointer while it is free. -/
def word (v : ExternalNode) : Word := timeFromBytes (v 3) (v 2) (v 1) (v 0)

/-- `memcpy` of a word of a little-endian host over the first four bytes. -/
def setWord (v : ExternalNode) (w : Word) : ExternalNode :=
  fun i => if i.val < 4 then (w >>> (8 * i.val)).setWidth 8 else v i

/-- The byte at an offset that is known to be in range. -/
def byte (v : ExternalNode) (i : ℕ) : Byte := if h : i < 24 then v ⟨i, h⟩ else 0

/-- `TimeFromBytes` of the first four bytes, as `DropNode` reads them. -/
def time (v : ExternalNode) : Word := timeFromBytes (v 0) (v 1) (v 2) (v 3)

end ExternalNode

structure State where
  maxEntries : ℕ
  windowSecs : Word
  internalEpoch : Word
  orbit : Fin 8 → Byte
  horizon : Word
  horizonValid : Bool
  internalNodeFreeHead : Word
  externalNodeFreeHead : Word
  internalNodeHead : Word
  internalNodes : Word → InternalNode
  externalNodes : Word → ExternalNode

/-- The address of a word that holds a child in its upper 24 bits. -/
inductive Place
  | head
  | data (i : Word) (direction : Bool)
  deriving DecidableEq

/-- `wherep[1]` for a pointer to a left child. -/
def Place.succ : Place → Place
  | .head => .head
  | .data i _ => .data i true

inductive StartupType
  | denyRequestsAtStartup
  | noStartupPeriodNeeded
  deriving DecidableEq

/-- The branch that a node with these other bits takes on byte `b`. -/
def direction (otherbits b : Byte) : Bool :=
  (1 + (otherbits ||| b).setWidth 32 : Word) >>> 8 = 1

/-- All bits set except the most significant one of `x`. -/
def foldOtherBits (x : Byte) : Byte :=
  let x := x ||| (x >>> 1)
  let x := x ||| (x >>> 2)
  let x := x ||| (x >>> 4)
  (x &&& ~~~(x >>> 1)) ^^^ 255

/-- Thread a free list through the first `n` nodes of an array. -/
def thread {ν : Type} (setNextPtr : ν → Word → ν) (n : ℕ) (nodes : Word → ν) : Word → ν :=
  let nodes := (List.range (n - 1)).foldl (fun nodes i =>
    Function.update nodes (BitVec.ofNat 32 i)
      (setNextPtr (nodes (BitVec.ofNat 32 i)) (BitVec.ofNat 32 (i + 1)))) nodes
  Function.update nodes (BitVec.ofNat 32 (n - 1))
    (setNextPtr (nodes (BitVec.ofNat 32 (n - 1))) kNil)

namespace State

def load (s : State) : Place → Word
  | .head => s.internalNodeHead
  | .data i d => (s.internalNodes i).data d

def store (s : State) (p : Place) (w : Word) : State :=
  match p with
  | .head => { s with internalNodeHead := w }
  | .data i d =>
    { s with internalNodes := Function.update s.internalNodes i ((s.internalNodes i).setData d w) }

def setInternalNode (s : State) (i : Word) (n : InternalNode) : State :=
  { s with internalNodes := Function.update s.internalNodes i n }

def setExternalNode (s : State) (i : Word) (v : ExternalNode) : State :=
  { s with externalNodes := Function.update s.externalNodes i v }

def reset (s : State) : State :=
  { s with
    internalNodeFreeHead := 0
    internalNodes := thread InternalNode.setNextPtr s.maxEntries s.internalNodes
    externalNodeFreeHead := 0
    externalNodes := thread ExternalNode.setWord s.maxEntries s.externalNodes
    internalNodeHead := kNil }

/-- The constructor, over the memory that `new` returned. -/
def create (internalNodes : Word → InternalNode) (externalNodes : Word → ExternalNode)
    (maxEntries : ℕ) (currentTime windowSecs : Word) (orbit : Fin 8 → Byte)
    (startup : StartupType) : Option State :=
  let internalEpoch := if currentTime > kCreationTimeFromInternalEpoch
    then currentTime - kCreationTimeFromInternalEpoch else 0
  if maxEntries < 2 ^ 23 ∧ 1 < maxEntries then
    some (reset {
      maxEntries, windowSecs, internalEpoch, orbit
      horizon := currentTime - internalEpoch + windowSecs
      horizonValid := startup = .denyRequestsAtStartup
      internalNodeFreeHead := 0
      externalNodeFreeHead := 0
      internalNodeHead := 0
      internalNodes, externalNodes })
  else none

def externalTimeToInternal (s : State) (externalTime : Word) : Word :=
  externalTime - s.internalEpoch

def bestMatchLoop (s : State) (v : ExternalNode) : ℕ → Word → Option Word
  | 0, _ => none
  | fuel + 1, next =>
    if next &&& kExternalFlag = 0 then
      let node := s.internalNodes next
      let b := v.byte node.critbyte.toNat
      s.bestMatchLoop v fuel (node.child (direction node.otherbits b))
    else some (next &&& ~~~kExternalFlag)

/-- The external node which could possibly match `v`, or `kNil` in an empty tree. -/
def bestMatch (s : State) (v : ExternalNode) : Option Word :=
  if s.internalNodeHead = kNil then some kNil
  else s.bestMatchLoop v s.maxEntries (s.internalNodeHead >>> 8)

def freeExternalNode (s : State) (index : Word) : State :=
  { s.setExternalNode index ((s.externalNodes index).setWord s.externalNodeFreeHead) with
    externalNodeFreeHead := index }

def freeInternalNode (s : State) (index : Word) : State :=
  { s.setInternalNode index ((s.internalNodes index).setNextPtr s.internalNodeFreeHead) with
    internalNodeFreeHead := index }

/-- The walk of `DropNode` to the leftmost entry: its pointer, where that pointer
is stored, and where the pointer to the parent is stored. -/
def dropLoop (s : State) : ℕ → Word → Place → Option Place → Option (Word × Place × Option Place)
  | 0, _, _, _ => none
  | fuel + 1, p, wherep, whereq =>
    if p &&& kExternalFlag = 0 then
      s.dropLoop fuel ((s.internalNodes p).data false >>> 8) (.data p false) (some wherep)
    else some (p, wherep, whereq)

def dropWalk (s : State) : Option (Word × Place × Option Place) :=
  s.dropLoop s.maxEntries (s.internalNodeHead >>> 8) .head none

def dropNode (s : State) : Option State := do
  let (p, wherep, whereq) ← s.dropWalk
  let extIndex := p &&& ~~~kExternalFlag
  let s := { s with horizon := (s.externalNodes extIndex).time }
  match whereq with
  | none => return ({ s with internalNodeHead := kNil }).freeExternalNode extIndex
  | some whereq =>
    let otherChild := s.load wherep.succ
    let s := s.freeInternalNode (s.load whereq >>> 8)
    let s := s.store whereq ((s.load whereq &&& 0xff#32) ||| (otherChild &&& 0xffffff00#32))
    return s.freeExternalNode extIndex

/-- Take a node off the free list; an empty list is refilled by `DropNode`. -/
def getFreeExternalNode : ℕ → State → Option (Word × State)
  | 0, _ => none
  | fuel + 1, s =>
    if s.externalNodeFreeHead = kNil then do
      let s ← s.dropNode
      getFreeExternalNode fuel s
    else
      let index := s.externalNodeFreeHead
      some (index, { s with externalNodeFreeHead := (s.externalNodes index).word })

def getFreeInternalNode : ℕ → State → Option (Word × State)
  | 0, _ => none
  | fuel + 1, s =>
    if s.internalNodeFreeHead = kNil then do
      let s ← s.dropNode
      getFreeInternalNode fuel s
    else
      let index := s.internalNodeFreeHead
      some (index, { s with internalNodeFreeHead := (s.internalNodes index).next })

def nonceTime (s : State) (nonce : Nonce) : Word :=
  s.externalTimeToInternal (timeFromBytes (nonce 0) (nonce 1) (nonce 2) (nonce 3))

/-- The checks that reject a nonce for its orbit, the horizon or the time window. -/
def admits (s : State) (nonce : Nonce) (currentTimeExternal : Word) : Bool :=
  let currentTime := s.externalTimeToInternal currentTimeExternal
  let nonceTime := s.nonceTime nonce
  (∀ i : Fin 8, nonce (i.natAdd 4 |>.castLE (by omega)) = s.orbit i) ∧
    ¬ (s.horizonValid ∧ nonceTime ≤ s.horizon) ∧
    ¬ ((currentTime > s.windowSecs ∧ nonceTime < currentTime - s.windowSecs) ∨
      nonceTime > currentTime + s.windowSecs)

/-- The nonce with its time made internal and its orbit stripped. -/
def value (s : State) (nonce : Nonce) : ExternalNode :=
  ExternalNode.setWord (fun i => nonce (i.natAdd 8)) (s.nonceTime nonce)

/-- The first byte in which two values differ. -/
def differingByte (v w : ExternalNode) : Option (Fin 24) :=
  Fin.find? fun i => v i ^^^ w i ≠ 0

/-- The place above which the new inner node goes. -/
def whereLoop (s : State) (value : ExternalNode) (differingByte newOtherBits : Byte) :
    ℕ → Place → Option Place
  | 0, _ => none
  | fuel + 1, place =>
    if (s.load place >>> 8) &&& kExternalFlag = 0 then
      let index := s.load place >>> 8
      let node := s.internalNodes index
      if node.critbyte > differingByte then some place
      else if node.critbyte = differingByte ∧ node.otherbits > newOtherBits then some place
      else if node.critbyte = differingByte ∧ node.otherbits = newOtherBits then none
      else
        let c := value.byte node.critbyte.toNat
        s.whereLoop value differingByte newOtherBits fuel
          (.data index (direction node.otherbits c))
    else some place

/-- Put the new inner node between a place and what it pointed to. -/
def splice (s : State) (place : Place) (index : Word) (newdirection : Bool) : State :=
  let s := s.setInternalNode index
    ((s.internalNodes index).setChild (!newdirection) (s.load place >>> 8))
  s.store place ((s.load place &&& 0xff#32) ||| (index <<< 8))

/-- Write the value and its inner node to the given nodes and link them at the
first bit where the value differs from its best match. -/
def linkValue (s : State) (value : ExternalNode)
    (internalNodeIndex externalNodeIndex bestMatchIndex : Word) : Option (State × Bool) := do
  let bestMatch := s.externalNodes bestMatchIndex
  let differingByte ← differingByte value bestMatch
  let newOtherBits := foldOtherBits (value differingByte ^^^ bestMatch differingByte)
  let newdirection : Bool := (newOtherBits ||| value differingByte) = 0xff
  let s := s.setExternalNode externalNodeIndex value
  let inode := (s.internalNodes internalNodeIndex).setChild newdirection
    (externalNodeIndex ||| kExternalFlag)
  let inode := (inode.setCritByte (BitVec.ofNat 8 differingByte)).setOtherBits newOtherBits
  let s := s.setInternalNode internalNodeIndex inode
  let place ← s.whereLoop value (BitVec.ofNat 8 differingByte) newOtherBits s.maxEntries .head
  return (s.splice place internalNodeIndex newdirection, true)

/-- The part of `Insert` that adds a value to a non-empty tree. -/
def insertValue (s : State) (value : ExternalNode) (bestMatchIndex : Word) :
    Option (State × Bool) := do
  let (internalNodeIndex, s) ← getFreeInternalNode 2 s
  let (externalNodeIndex, s) ← getFreeExternalNode 2 s
  -- the best match may just have been evicted
  let bestMatchIndex ←
    if externalNodeIndex = bestMatchIndex then s.bestMatch value else some bestMatchIndex
  s.linkValue value internalNodeIndex externalNodeIndex bestMatchIndex

def insert (s : State) (nonce : Nonce) (currentTimeExternal : Word) : Option (State × Bool) :=
  if s.admits nonce currentTimeExternal then do
    let value := s.value nonce
    let bestMatchIndex ← s.bestMatch value
    if bestMatchIndex = kNil then
      let (index, s) ← getFreeExternalNode 2 s
      return ({ s.setExternalNode index value with
        internalNodeHead := (index ||| kExternalFlag) <<< 8 }, true)
    else if s.externalNodes bestMatchIndex = value then
      return (s, false)
    else s.insertValue value bestMatchIndex
  else some (s, false)

/-- The entry that `DropNode` would evict. -/
def oldest (s : State) : Option ExternalNode :=
  s.dropWalk.map fun walk => s.externalNodes (walk.1 &&& ~~~kExternalFlag)

/-- `Insert` will add the nonce to a full register. -/
def Evicts (s : State) (nonce : Nonce) (currentTimeExternal : Word) : Prop :=
  s.admits nonce currentTimeExternal ∧ s.externalNodeFreeHead = kNil ∧
    (s.bestMatch (s.value nonce)).all fun i => s.externalNodes i ≠ s.value nonce

end State

end Chromium.StrikeRegister
