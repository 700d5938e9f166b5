import Chromium.KeyedCancellation
import Chromium.PrefixSet
import Chromium.WireFormat
import Mathlib.Data.List.Lex
import Mathlib.Data.Prod.Lex

/-!
# Subs that knock out adds

A sub names the add it takes back by chunk and prefix, or by chunk and full hash. The lists of a
safe browsing store are netted out in passes over sorted vectors, and the items of deleted chunks
are dropped last.
-/
namespace Chromium.SafeBrowsing

open WireFormat

/-- A full hash; a union with its prefix, on a little-endian machine. -/
structure SBFullHash where
  fullHash : Fin 32 → Byte
  deriving DecidableEq

def SBFullHash.sbPrefix (h : SBFullHash) : SBPrefix :=
  toInt32 (ofBytes ((List.ofFn h.fullHash).take 4))

structure SBAddPrefix where
  chunkId : ℤ
  sbPrefix : SBPrefix
  deriving DecidableEq

structure SBSubPrefix where
  chunkId : ℤ
  addChunkId : ℤ
  addPrefix : SBPrefix
  deriving DecidableEq

structure SBAddFullHash where
  chunkId : ℤ
  received : ℤ
  fullHash : SBFullHash
  deriving DecidableEq

structure SBSubFullHash where
  chunkId : ℤ
  addChunkId : ℤ
  fullHash : SBFullHash
  deriving DecidableEq

/-- What the templates `SBAddPrefixLess` and `RemoveDeleted` use of an item. -/
class PrefixItem (α : Type) where
  chunkId : α → ℤ
  getAddChunkId : α → ℤ
  getAddPrefix : α → SBPrefix

class HashItem (α : Type) extends PrefixItem α where
  fullHash : α → SBFullHash
  getAddPrefix_eq : ∀ a, getAddPrefix a = (fullHash a).sbPrefix

instance : PrefixItem SBAddPrefix where
  chunkId a := a.chunkId
  getAddChunkId a := a.chunkId
  getAddPrefix a := a.sbPrefix

instance : PrefixItem SBSubPrefix where
  chunkId a := a.chunkId
  getAddChunkId a := a.addChunkId
  getAddPrefix a := a.addPrefix

instance : HashItem SBAddFullHash where
  chunkId a := a.chunkId
  getAddChunkId a := a.chunkId
  getAddPrefix a := a.fullHash.sbPrefix
  fullHash a := a.fullHash
  getAddPrefix_eq _ := rfl

instance : HashItem SBSubFullHash where
  chunkId a := a.chunkId
  getAddChunkId a := a.addChunkId
  getAddPrefix a := a.fullHash.sbPrefix
  fullHash a := a.fullHash
  getAddPrefix_eq _ := rfl

open PrefixItem

variable {α β : Type}

def sbAddPrefixLess [PrefixItem α] [PrefixItem β] (a : α) (b : β) : Bool :=
  if getAddChunkId a ≠ getAddChunkId b then getAddChunkId a < getAddChunkId b
  else getAddPrefix a < getAddPrefix b

/-- The first bytes that differ decide, as unsigned numbers. -/
def memcmp : List Byte → List Byte → ℤ
  | a :: as, b :: bs => if a = b then memcmp as bs else (a.toNat : ℤ) - b.toNat
  | _, _ => 0

def sbAddPrefixHashLess [HashItem α] [HashItem β] (a : α) (b : β) : Bool :=
  if sbAddPrefixLess a b then true
  else if sbAddPrefixLess b a then false
  else memcmp (List.ofFn (HashItem.fullHash a).fullHash)
    (List.ofFn (HashItem.fullHash b).fullHash) < 0

/-! ### The passes -/

def knockoutLoop (predAddSub : α → β → Bool) (predSubAdd : β → α → Bool) (subs : Compaction β)
    (adds : Compaction α) (addsRemoved : List α) : Compaction β × Compaction α × List α :=
  match hadd : adds.next, hsub : subs.next with
  | some add, some sub =>
    if predSubAdd sub add then knockoutLoop predAddSub predSubAdd subs.keep adds addsRemoved
    else if predAddSub add sub then knockoutLoop predAddSub predSubAdd subs adds.keep addsRemoved
    else knockoutLoop predAddSub predSubAdd subs.skip adds.skip (addsRemoved ++ [add])
  | _, _ => (subs, adds, addsRemoved)
termination_by subs.unread + adds.unread
decreasing_by
  · exact Nat.add_lt_add_right (Compaction.unread_keep_lt hsub) _
  · exact Nat.add_lt_add_left (Compaction.unread_keep_lt hadd) _
  · exact Nat.add_lt_add (Compaction.unread_skip_lt hsub) (Compaction.unread_skip_lt hadd)

structure Knockout (α β : Type) where
  subs : List β
  adds : List α
  addsRemoved : List α

def knockoutSubs (subs : List β) (adds : List α) (predAddSub : α → β → Bool)
    (predSubAdd : β → α → Bool) : Knockout α β :=
  let r := knockoutLoop predAddSub predSubAdd (.start subs) (.start adds) []
  ⟨r.1.erase, r.2.1.erase, r.2.2⟩

/-- `++hash_iter` while the items are not behind `remove`. -/
def skipMatching [PrefixItem α] [PrefixItem β] (remove : α) (hashes : Compaction β) :
    Compaction β :=
  match h : hashes.next with
  | none => hashes
  | some hash =>
    if sbAddPrefixLess remove hash then hashes else skipMatching remove hashes.skip
termination_by hashes.unread
decreasing_by exact Compaction.unread_skip_lt h

/-- The loop of `RemoveMatchingPrefixes` from `remove_iter` on. -/
def removeMatchingLoop [PrefixItem α] [PrefixItem β] (removes : List α)
    (hashes : Compaction β) : Compaction β :=
  match removes with
  | [] => hashes
  | remove :: removes =>
    match h : hashes.next with
    | none => hashes
    | some hash =>
      if sbAddPrefixLess hash remove then removeMatchingLoop (remove :: removes) hashes.keep
      else if sbAddPrefixLess remove hash then removeMatchingLoop removes hashes
      else removeMatchingLoop removes (skipMatching remove hashes.skip)
termination_by (removes.length, hashes.unread)
decreasing_by
  · exact Prod.Lex.right _ (Compaction.unread_keep_lt h)
  · exact Prod.Lex.left _ _ (Nat.lt_succ_self _)
  · exact Prod.Lex.left _ _ (Nat.lt_succ_self _)

def removeMatchingPrefixes [PrefixItem α] [PrefixItem β] (removes : List α)
    (fullHashes : List β) : List β :=
  (removeMatchingLoop removes (.start fullHashes)).erase

def removeDeletedLoop [PrefixItem α] (delSet : Finset ℤ) (items : Compaction α) :
    Compaction α :=
  match h : items.next with
  | none => items
  | some item =>
    if chunkId item ∉ delSet then removeDeletedLoop delSet items.keep
    else removeDeletedLoop delSet items.skip
termination_by items.unread
decreasing_by
  · exact Compaction.unread_keep_lt h
  · exact Compaction.unread_skip_lt h

def removeDeleted [PrefixItem α] (items : List α) (delSet : Finset ℤ) : List α :=
  (removeDeletedLoop delSet (.start items)).erase

/-! ### `SBProcessSubs` -/

structure SBLists where
  addPrefixes : List SBAddPrefix
  subPrefixes : List SBSubPrefix
  addFullHashes : List SBAddFullHash
  subFullHashes : List SBSubFullHash
  deriving DecidableEq

/-- What `std::sort` may leave: equal items stand in any order. -/
def StdSort (less : α → α → Bool) (l sorted : List α) : Prop :=
  sorted.Perm l ∧ sorted.Pairwise fun a b => less b a = false

structure SBLists.SortedTo (s sorted : SBLists) : Prop where
  addPrefixes : StdSort sbAddPrefixLess s.addPrefixes sorted.addPrefixes
  subPrefixes : StdSort sbAddPrefixLess s.subPrefixes sorted.subPrefixes
  addFullHashes : StdSort sbAddPrefixHashLess s.addFullHashes sorted.addFullHashes
  subFullHashes : StdSort sbAddPrefixHashLess s.subFullHashes sorted.subFullHashes

/-- The passes over the sorted vectors that take subs off adds. -/
def SBLists.knockout (s : SBLists) : SBLists :=
  let prefixes := knockoutSubs s.subPrefixes s.addPrefixes sbAddPrefixLess sbAddPrefixLess
  let addFullHashes := removeMatchingPrefixes prefixes.addsRemoved s.addFullHashes
  let subFullHashes := removeMatchingPrefixes prefixes.addsRemoved s.subFullHashes
  let hashes := knockoutSubs subFullHashes addFullHashes sbAddPrefixHashLess sbAddPrefixHashLess
  ⟨prefixes.adds, prefixes.subs, hashes.adds, hashes.subs⟩

def SBLists.removeDeleted (s : SBLists) (addChunksDeleted subChunksDeleted : Finset ℤ) :
    SBLists :=
  { addPrefixes := SafeBrowsing.removeDeleted s.addPrefixes addChunksDeleted
    subPrefixes := SafeBrowsing.removeDeleted s.subPrefixes subChunksDeleted
    addFullHashes := SafeBrowsing.removeDeleted s.addFullHashes addChunksDeleted
    subFullHashes := SafeBrowsing.removeDeleted s.subFullHashes subChunksDeleted }

/-- The call leaves `result` where it found `s`. -/
def SBProcessSubs (s : SBLists) (addChunksDeleted subChunksDeleted : Finset ℤ)
    (result : SBLists) : Prop :=
  ∃ sorted, s.SortedTo sorted ∧
    result = sorted.knockout.removeDeleted addChunksDeleted subChunksDeleted

end Chromium.SafeBrowsing
