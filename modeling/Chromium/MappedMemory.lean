import Chromium.FencedAllocatorSizes

/-!
# Memory mapped into the service

`gpu/command_buffer/client/mapped_memory.cc`: a manager of chunks of shared memory, each with a
fenced allocator. Pointers are addresses of the client, and the command buffer maps a new transfer
buffer where no chunk is.
-/
namespace Chromium.MappedMemory

open CommandTokens FencedAllocator
open Tiling (Region)

structure MemoryChunk where
  shmId : ℤ
  ptr : ℕ
  size : UInt32
  blocks : List Block
  bytesInUse : ℕ

namespace MemoryChunk

/-- A chunk on a new transfer buffer. -/
def create (shmId : ℤ) (ptr : ℕ) (size : UInt32) : MemoryChunk :=
  ⟨shmId, ptr, size, (Allocator.initial size Tokens.initial).blocks, 0⟩

/-- The allocator of the chunk, which uses the helper of the manager. -/
def allocator (tokens : Tokens) (c : MemoryChunk) : Allocator := ⟨c.blocks, c.bytesInUse, tokens⟩

def withAllocator (c : MemoryChunk) (a : Allocator) : MemoryChunk :=
  { c with blocks := a.blocks, bytesInUse := a.bytesInUse }

/-- `GetLargestFreeSizeWithoutWaiting` -/
def getLargestFreeSizeWithoutWaiting (tokens : Tokens) (c : MemoryChunk) : MemoryChunk × ℕ :=
  let (a, size) := getLargestFreeSize (c.allocator tokens)
  (c.withAllocator a, size)

/-- `GetLargestFreeSizeWithWaiting` -/
def getLargestFreeSizeWithWaiting (tokens : Tokens) (c : MemoryChunk) : ℕ :=
  getLargestFreeOrPendingSize (c.allocator tokens)

def freeUnused (tokens : Tokens) (c : MemoryChunk) : MemoryChunk :=
  c.withAllocator (FencedAllocator.freeUnused (c.allocator tokens))

def free (tokens : Tokens) (pointer : ℕ) (c : MemoryChunk) : MemoryChunk :=
  c.withAllocator (FencedAllocator.free (c.allocator tokens) (pointer - c.ptr))

def freePendingToken (tokens : Tokens) (pointer token : ℕ) (c : MemoryChunk) : MemoryChunk :=
  c.withAllocator
    (FencedAllocator.freePendingToken (c.allocator tokens) (pointer - c.ptr) token)

/-- `IsInChunk` -/
def isInChunk (pointer : ℕ) (c : MemoryChunk) : Bool :=
  c.ptr ≤ pointer ∧ pointer < c.ptr + c.size.toNat

/-- `InUse` -/
def inUse (c : MemoryChunk) : Bool :=
  c.blocks.length ≠ 1 ∨ c.blocks.head?.any fun b => b.state ≠ .free

end MemoryChunk

/-- What `Alloc` returns: the pointer, and where it is in shared memory. -/
structure Allocation where
  pointer : ℕ
  shmId : ℤ
  shmOffset : ℕ
  size : UInt32
  deriving DecidableEq

/-- `Alloc` of a chunk, with what the manager makes of its result. -/
def MemoryChunk.alloc (service : ℕ → ℕ) (tokens : Tokens) (size : UInt32) (c : MemoryChunk) :
    MemoryChunk × Tokens × Option Allocation :=
  let (a, offset) := FencedAllocator.alloc service (c.allocator tokens) size
  (c.withAllocator a, a.tokens,
    offset.map fun offset => ⟨c.ptr + offset, c.shmId, offset, size⟩)

structure Manager where
  chunkSizeMultiple : UInt32
  chunks : List MemoryChunk
  tokens : Tokens
  allocatedMemory : ℕ
  maxFreeBytes : ℕ

/-- `MemoryLimit::kNoLimit` -/
def kNoLimit : ℕ := 0

/-- A loop of `Alloc` over the chunks, up to the first one that fits. `progress` says which token
the service has come to when so many chunks are left. -/
def allocFromChunks (fits : Tokens → MemoryChunk → MemoryChunk × Bool) (progress service : ℕ → ℕ)
    (size : UInt32) : Tokens → List MemoryChunk →
      Tokens × List MemoryChunk × Option (Option Allocation)
  | tokens, [] => (tokens, [], none)
  | tokens, c :: cs =>
    let tokens := tokens.advance (progress cs.length)
    let (c, found) := fits tokens c
    if found then
      let (c, tokens, result) := c.alloc service tokens size
      (tokens, c :: cs, some result)
    else
      let (tokens, cs, result) := allocFromChunks fits progress service size tokens cs
      (tokens, c :: cs, result)

/-- The test of the first loop. -/
def fitsWithoutWaiting (size : UInt32) (tokens : Tokens) (c : MemoryChunk) : MemoryChunk × Bool :=
  let (c, largest) := (c.freeUnused tokens).getLargestFreeSizeWithoutWaiting tokens
  (c, size.toNat ≤ largest)

/-- The test of the second loop. -/
def fitsWithWaiting (size : UInt32) (tokens : Tokens) (c : MemoryChunk) : MemoryChunk × Bool :=
  (c, size.toNat ≤ c.getLargestFreeSizeWithWaiting tokens)

/-- The size of a chunk for a request, in 32-bit arithmetic. -/
def chunkSize (multiple size : UInt32) : UInt32 := (size + multiple - 1) / multiple * multiple

/-- The end of `Alloc`: a new chunk for the request, unless there is no transfer buffer. -/
def allocInNewChunk (service : ℕ → ℕ) (transferBuffer : Option (ℤ × ℕ)) (size : UInt32)
    (m : Manager) : Manager × Option Allocation :=
  match transferBuffer with
  | none => (m, none)
  | some (shmId, ptr) =>
    let mc := MemoryChunk.create shmId ptr (chunkSize m.chunkSizeMultiple size)
    let (mc, tokens, result) := mc.alloc service m.tokens size
    ({ m with
        chunks := m.chunks ++ [mc]
        tokens := tokens
        allocatedMemory := m.allocatedMemory + mc.size.toNat }, result)

/-- The part of `Alloc` that looks for an existing chunk. -/
def allocInOldChunk (progress service : ℕ → ℕ) (size : UInt32) (m : Manager) :
    Manager × Option (Option Allocation) :=
  if size.toNat ≤ m.allocatedMemory then
    match allocFromChunks (fitsWithoutWaiting size) progress service size m.tokens m.chunks with
    | (tokens, chunks, some result) => ({ m with tokens := tokens, chunks := chunks }, some result)
    | (tokens, chunks, none) =>
      let m := { m with tokens := tokens, chunks := chunks }
      let totalBytesInUse := (m.chunks.map MemoryChunk.bytesInUse).sum
      if m.maxFreeBytes ≠ kNoLimit ∧ m.maxFreeBytes ≤ m.allocatedMemory - totalBytesInUse then
        let (tokens, chunks, result) :=
          allocFromChunks (fitsWithWaiting size) progress service size m.tokens m.chunks
        ({ m with tokens := tokens, chunks := chunks }, result)
      else (m, none)
  else (m, none)

/-- `Alloc` -/
def alloc (progress service : ℕ → ℕ) (transferBuffer : Option (ℤ × ℕ)) (size : UInt32)
    (m : Manager) : Manager × Option Allocation :=
  match allocInOldChunk progress service size m with
  | (m, some result) => (m, result)
  | (m, none) => allocInNewChunk service transferBuffer size m

/-- The first chunk that the pointer is in. -/
def updateChunk (f : MemoryChunk → MemoryChunk) (pointer : ℕ) : List MemoryChunk → List MemoryChunk
  | [] => []
  | c :: cs => if c.isInChunk pointer then f c :: cs else c :: updateChunk f pointer cs

/-- `Free` -/
def free (pointer : ℕ) (m : Manager) : Manager :=
  { m with chunks := updateChunk (MemoryChunk.free m.tokens pointer) pointer m.chunks }

/-- `FreePendingToken` -/
def freePendingToken (pointer token : ℕ) (m : Manager) : Manager :=
  { m with
    chunks := updateChunk (MemoryChunk.freePendingToken m.tokens pointer token) pointer m.chunks }

/-- The loop of `FreeUnused`, with the memory that stays allocated. -/
def freeUnusedChunks (progress : ℕ → ℕ) :
    Tokens → ℕ → List MemoryChunk → Tokens × ℕ × List MemoryChunk
  | tokens, allocatedMemory, [] => (tokens, allocatedMemory, [])
  | tokens, allocatedMemory, c :: cs =>
    let tokens := tokens.advance (progress cs.length)
    let c := c.freeUnused tokens
    if ¬ c.inUse then
      freeUnusedChunks progress tokens (allocatedMemory - c.size.toNat) cs
    else
      let (tokens, allocatedMemory, cs) := freeUnusedChunks progress tokens allocatedMemory cs
      (tokens, allocatedMemory, c :: cs)

/-- `FreeUnused` -/
def freeUnused (progress : ℕ → ℕ) (m : Manager) : Manager :=
  let (tokens, allocatedMemory, chunks) :=
    freeUnusedChunks progress m.tokens m.allocatedMemory m.chunks
  { m with tokens := tokens, allocatedMemory := allocatedMemory, chunks := chunks }

/-- The manager with its history: `live` holds what was handed out and not freed, and `refused`
the sizes for which nothing was returned although a transfer buffer could be created. -/
structure World where
  manager : Manager
  live : List Allocation
  refused : List UInt32

def World.initial (multiple : UInt32) (limit : ℕ) : World :=
  ⟨⟨multiple, [], Tokens.initial, 0, limit⟩, [], []⟩

inductive Event
  | alloc (progress service : ℕ → ℕ) (size : UInt32)
  | free (pointer : ℕ)
  | freePendingToken (pointer token : ℕ)
  | freeUnused
  | setChunkSizeMultiple (multiple : UInt32)
  | insertToken

/-- The addresses of a transfer buffer that the command buffer creates are in no chunk. -/
def Unmapped (chunks : List MemoryChunk) (ptr size : ℕ) : Prop :=
  ∀ c ∈ chunks, Region.Disjoint ⟨c.ptr, c.size.toNat⟩ ⟨ptr, size⟩

/-- The calls of a client. It frees what it was given, once, and has a transfer buffer for every
`Alloc` that needs one. -/
inductive Step : World → Event → World → Prop
  | alloc (w : World) (size : UInt32) (progress service : ℕ → ℕ) (shmId : ℤ) (ptr : ℕ)
      (hsize : 0 < size)
      (hptr : Unmapped w.manager.chunks ptr (chunkSize w.manager.chunkSizeMultiple size).toNat) :
      Step w (.alloc progress service size)
        (match alloc progress service (some (shmId, ptr)) size w.manager with
        | (m, some r) => { w with manager := m, live := r :: w.live }
        | (m, none) => { w with manager := m, refused := size :: w.refused })
  | free (w : World) (r : Allocation) (hr : r ∈ w.live) :
      Step w (.free r.pointer)
        { w with
          manager := free r.pointer w.manager
          live := w.live.filter fun s => s.pointer ≠ r.pointer }
  | freePendingToken (w : World) (r : Allocation) (token : ℕ) (hr : r ∈ w.live)
      (htoken : token < tokenModulus) :
      Step w (.freePendingToken r.pointer token)
        { w with
          manager := freePendingToken r.pointer token w.manager
          live := w.live.filter fun s => s.pointer ≠ r.pointer }
  | freeUnused (w : World) (progress : ℕ → ℕ) :
      Step w .freeUnused { w with manager := freeUnused progress w.manager }
  | setChunkSizeMultiple (w : World) (multiple : UInt32) (h : 0 < multiple) :
      Step w (.setChunkSizeMultiple multiple)
        { w with manager := { w.manager with chunkSizeMultiple := multiple } }
  | insertToken (w : World) :
      Step w .insertToken
        { w with manager := { w.manager with tokens := w.manager.tokens.insertToken } }

end Chromium.MappedMemory
