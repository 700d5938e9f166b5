import Chromium.Runs
import Chromium.MappedMemory

/-!
# Runs of the memory manager

A request that makes a new chunk is safe if the chunk's allocator can serve it: the chunk size is
rounded to the multiple of the manager, and the allocator rounds it down to its own.
-/
namespace Chromium.MappedMemory

open CommandTokens FencedAllocator Tiling Segments Runs

/-! ### One chunk -/

variable {n : ℕ} {size : UInt32} {c : MemoryChunk} {regions : List Region} {tokens : Tokens}

/-- The chunk's blocks stand for what was handed out of it, given by offset and size. -/
def ChunkHolds (c : MemoryChunk) (regions : List Region) : Prop :=
  ∀ tokens, FencedAllocator.Invariant (roundDown c.size).toNat ⟨c.allocator tokens, regions, []⟩

lemma chunkHolds_of_invariant (h : FencedAllocator.Invariant (roundDown c.size).toNat
    ⟨c.allocator tokens, regions, []⟩) : ChunkHolds c regions :=
  fun _ => ⟨h.consistent, h.bytes, h.live_nodup, h.live_block, by simp⟩

lemma chunkHolds_create (shmId : ℤ) (ptr : ℕ) (size : UInt32) :
    ChunkHolds (.create shmId ptr size) [] :=
  chunkHolds_of_invariant (invariant_initial size Tokens.initial)

lemma ChunkHolds.freeUnused (h : ChunkHolds c regions) (tokens : Tokens) :
    ChunkHolds (c.freeUnused tokens) regions :=
  chunkHolds_of_invariant ((h tokens).freeUnusedLoop 0)

lemma ChunkHolds.free (h : ChunkHolds c regions) (tokens : Tokens) {r : Region}
    (hr : r ∈ regions) :
    ChunkHolds (c.free tokens (c.ptr + r.offset))
      (regions.filter fun s => s.offset ≠ r.offset) := by
  have hfree := (h tokens).free hr
  rw [MemoryChunk.free, Nat.add_sub_cancel_left]
  exact chunkHolds_of_invariant hfree

lemma withAllocator_freePendingToken (t t' : Tokens) (offset token : ℕ) (c : MemoryChunk) :
    c.withAllocator (FencedAllocator.freePendingToken (c.allocator t) offset token) =
      c.withAllocator (FencedAllocator.freePendingToken (c.allocator t') offset token) := by
  simp only [FencedAllocator.freePendingToken, MemoryChunk.allocator]
  cases c.blocks[getBlockByOffset c.blocks offset]? with
  | none => rfl
  | some b => rfl

/-- A counter that has come to a token. -/
def readTokens (token : ℕ) : Tokens := ⟨token, token, le_rfl, Nat.div_mul_le_self _ _⟩

/-- A token may be any that the counter has, since no fence is kept. -/
lemma ChunkHolds.freePendingToken (h : ChunkHolds c regions) (tokens : Tokens) {r : Region}
    (hr : r ∈ regions) {token : ℕ} (htoken : token < tokenModulus) :
    ChunkHolds (c.freePendingToken tokens (c.ptr + r.offset) token)
      (regions.filter fun s => s.offset ≠ r.offset) := by
  obtain ⟨pre, b, post, hsplit, -, -, hindex, -⟩ := (h tokens).live_split hr
  have hget : (c.allocator tokens).blocks[getBlockByOffset (c.allocator tokens).blocks r.offset]? =
      some b := by
    rw [hsplit, hindex, List.getElem?_append_right le_rfl, Nat.sub_self, List.getElem?_cons_zero]
  have hfreed := (h (readTokens token)).freePendingToken hr hget (le_refl token)
  rw [Nat.mod_eq_of_lt htoken] at hfreed
  rw [MemoryChunk.freePendingToken, Nat.add_sub_cancel_left,
    withAllocator_freePendingToken tokens (readTokens token)]
  exact chunkHolds_of_invariant ⟨hfreed.consistent, hfreed.bytes,
    hfreed.live_nodup, hfreed.live_block, by simp⟩

lemma ChunkHolds.laid (h : ChunkHolds c regions) (tokens : Tokens) :
    Laid (roundDown c.size).toNat (c.allocator tokens).blocks :=
  ⟨(h tokens).consistent.tiles, (h tokens).consistent.separated⟩

/-- What the chunk is mapped to. -/
def MemoryChunk.memory (c : MemoryChunk) : ℤ × ℕ × UInt32 := (c.shmId, c.ptr, c.size)

/-- A request that the free or pending memory of the chunk has room for. -/
lemma ChunkHolds.alloc (h : ChunkHolds c regions) (service : ℕ → ℕ) (tokens : Tokens)
    (hsize : 0 < size) (hround : size.toNat + 15 < 2 ^ 32)
    (hroom : (roundUp size).toNat ≤ getLargestFreeOrPendingSize (c.allocator tokens)) :
    ∃ c' tokens' offset,
      c.alloc service tokens size = (c', tokens', some ⟨c.ptr + offset, c.shmId, offset, size⟩) ∧
      c'.memory = c.memory ∧ offset + size.toNat ≤ c.size.toNat ∧
      ChunkHolds c' (⟨offset, size.toNat⟩ :: regions) := by
  obtain ⟨offset, hoffset⟩ := Option.isSome_iff_exists.mp
    (((h.laid tokens).alloc_isSome service hsize hround).mpr hroom)
  have hinv := (h tokens).alloc service (.inl hround)
  simp only [hoffset, Option.map_some, Option.toList_some, List.singleton_append] at hinv
  refine ⟨c.withAllocator (FencedAllocator.alloc service (c.allocator tokens) size).1,
    (FencedAllocator.alloc service (c.allocator tokens) size).1.tokens, offset, ?_, rfl, ?_, ?_⟩
  · simp only [MemoryChunk.alloc, hoffset, Option.map_some]
  · obtain ⟨-, hinside, -⟩ := hinv.wellFormed.live_region _ List.mem_cons_self
    have hdown := roundDown_toNat c.size
    dsimp only at hinside
    omega
  · exact chunkHolds_of_invariant hinv

/-- Free and pending memory comes in multiples of the alignment. -/
lemma ChunkHolds.roundUp_le (h : ChunkHolds c regions) (tokens : Tokens)
    (hle : size.toNat ≤ getLargestFreeOrPendingSize (c.allocator tokens)) :
    size.toNat + 15 < 2 ^ 32 ∧
      (roundUp size).toNat ≤ getLargestFreeOrPendingSize (c.allocator tokens) := by
  have hmax := (h.laid tokens).getLargestFreeOrPendingSize_le
  have hdown := roundDown_toNat c.size
  have hlt := c.size.toNat_lt
  obtain ⟨k, hk⟩ : 16 ∣ getLargestFreeOrPendingSize (c.allocator tokens) := by
    rw [getLargestFreeOrPendingSize_eq]
    obtain ⟨seg, hsub, -, hsum⟩ := exists_infix_eq_largestSegment
      (fun b => b.state ≠ .inUse) Block.size (c.allocator tokens).blocks
    rw [← hsum]
    refine List.dvd_sum fun x hx => ?_
    obtain ⟨b, hb, rfl⟩ := List.mem_map.mp hx
    exact (h tokens).consistent.aligned b (hsub.subset hb)
  have hround : size.toNat + 15 < 2 ^ 32 := by omega
  refine ⟨hround, ?_⟩
  rw [roundUp_toNat, Nat.mod_eq_of_lt hround]
  omega

/-! ### The chunks of a manager -/

variable {live : List Allocation} {chunks : List MemoryChunk} {r : Allocation}

/-- What was handed out of a chunk. -/
def regionsIn (c : MemoryChunk) (live : List Allocation) : List Region :=
  (live.filter fun r => c.isInChunk r.pointer).map fun r => ⟨r.pointer - c.ptr, r.size.toNat⟩

/-- The chunk that an allocation is in. -/
def PlacedIn (r : Allocation) (c : MemoryChunk) : Prop :=
  c.shmId = r.shmId ∧ r.pointer = c.ptr + r.shmOffset ∧ c.isInChunk r.pointer

def Apart (c d : MemoryChunk) : Prop :=
  Region.Disjoint ⟨c.ptr, c.size.toNat⟩ ⟨d.ptr, d.size.toNat⟩

lemma isInChunk_iff {pointer : ℕ} :
    c.isInChunk pointer = true ↔ c.ptr ≤ pointer ∧ pointer < c.ptr + c.size.toNat := by
  simp [MemoryChunk.isInChunk]

section Memory

variable {d : MemoryChunk} (h : d.memory = c.memory)
include h

lemma isInChunk_congr (pointer : ℕ) : d.isInChunk pointer = c.isInChunk pointer := by
  simp only [MemoryChunk.memory, Prod.mk.injEq] at h
  simp only [MemoryChunk.isInChunk, h.2.1, h.2.2]

lemma regionsIn_congr (live : List Allocation) : regionsIn d live = regionsIn c live := by
  simp only [MemoryChunk.memory, Prod.mk.injEq] at h
  simp only [regionsIn, MemoryChunk.isInChunk, h.2.1, h.2.2]

lemma placedIn_congr (r : Allocation) : PlacedIn r d ↔ PlacedIn r c := by
  simp only [MemoryChunk.memory, Prod.mk.injEq] at h
  simp only [PlacedIn, MemoryChunk.isInChunk, h.1, h.2.1, h.2.2]

end Memory

/-- Whether chunks are apart depends on what they are mapped to. -/
lemma pairwise_apart_congr {chunks' : List MemoryChunk}
    (h : chunks'.map MemoryChunk.memory = chunks.map MemoryChunk.memory)
    (hapart : chunks.Pairwise Apart) : chunks'.Pairwise Apart := by
  have hmap : ∀ cs : List MemoryChunk, cs.Pairwise Apart ↔
      (cs.map MemoryChunk.memory).Pairwise fun m n =>
        Region.Disjoint ⟨m.2.1, m.2.2.toNat⟩ ⟨n.2.1, n.2.2.toNat⟩ := by
    intro cs
    rw [List.pairwise_map]
    rfl
  rw [hmap, h, ← hmap]
  exact hapart

lemma Apart.not_isInChunk {d : MemoryChunk} {pointer : ℕ} (h : Apart c d)
    (hc : c.isInChunk pointer = true) : d.isInChunk pointer = false := by
  rw [isInChunk_iff] at hc
  rw [Bool.eq_false_iff, ne_eq, isInChunk_iff]
  simp only [Apart, Region.Disjoint] at h
  omega

lemma Apart.symm {d : MemoryChunk} (h : Apart c d) : Apart d c := Or.symm h

instance : Std.Symm Apart := ⟨fun _ _ => Apart.symm⟩

instance : Std.Symm Region.Disjoint := ⟨fun _ _ => Or.symm⟩

lemma regionsIn_cons_of_not_isInChunk (h : c.isInChunk r.pointer = false) :
    regionsIn c (r :: live) = regionsIn c live := by
  rw [regionsIn, List.filter_cons_of_neg (by simp [h]), regionsIn]

lemma regionsIn_cons_of_isInChunk (h : c.isInChunk r.pointer = true) :
    regionsIn c (r :: live) = ⟨r.pointer - c.ptr, r.size.toNat⟩ :: regionsIn c live := by
  rw [regionsIn, List.filter_cons_of_pos (by simpa using h), regionsIn, List.map_cons]

/-- What `Alloc` of a manager owes for a request: an allocation in one of the chunks, which all
stand for it as well. -/
structure Served (size : UInt32) (live : List Allocation) (chunks : List MemoryChunk)
    (r : Allocation) : Prop where
  size_eq : r.size = size
  placed : ∃ c ∈ chunks, PlacedIn r c
  holds : ∀ c ∈ chunks, ChunkHolds c (regionsIn c (r :: live))

lemma ChunkHolds.served (h : ChunkHolds c (regionsIn c live)) (service : ℕ → ℕ) (tokens : Tokens)
    (hsize : 0 < size) (hround : size.toNat + 15 < 2 ^ 32)
    (hroom : (roundUp size).toNat ≤ getLargestFreeOrPendingSize (c.allocator tokens)) :
    ∃ c' tokens' r, c.alloc service tokens size = (c', tokens', some r) ∧
      c'.memory = c.memory ∧ r.size = size ∧ PlacedIn r c' ∧
      ChunkHolds c' (regionsIn c' (r :: live)) := by
  obtain ⟨c', tokens', offset, halloc, hmemory, hinside, hholds⟩ :=
    ChunkHolds.alloc h service tokens hsize hround hroom
  have hpos : 0 < size.toNat := hsize
  have hin : c'.isInChunk (c.ptr + offset) = true := by
    rw [isInChunk_congr hmemory, isInChunk_iff]
    omega
  refine ⟨c', tokens', _, halloc, hmemory, rfl, ?_, ?_⟩
  · simp only [MemoryChunk.memory, Prod.mk.injEq] at hmemory
    exact ⟨hmemory.1, by rw [hmemory.2.1], hin⟩
  · rw [regionsIn_cons_of_isInChunk hin, regionsIn_congr hmemory]
    simp only [MemoryChunk.memory, Prod.mk.injEq] at hmemory
    rw [hmemory.2.1, Nat.add_sub_cancel_left]
    exact hholds

/-- A test of a loop keeps the chunk, and finds no more room than there is. -/
structure Test (fits : Tokens → MemoryChunk → MemoryChunk × Bool) (size : UInt32) : Prop where
  memory : ∀ tokens c, (fits tokens c).1.memory = c.memory
  holds : ∀ tokens {c regions}, ChunkHolds c regions → ChunkHolds (fits tokens c).1 regions
  room : ∀ {tokens c regions}, ChunkHolds c regions → (fits tokens c).2 = true →
    size.toNat ≤ getLargestFreeOrPendingSize ((fits tokens c).1.allocator tokens)

lemma allocFromChunks_spec {fits : Tokens → MemoryChunk → MemoryChunk × Bool}
    (hfits : Test fits size) (progress service : ℕ → ℕ) (hsize : 0 < size) (tokens : Tokens)
    (hapart : chunks.Pairwise Apart) (hholds : ∀ c ∈ chunks, ChunkHolds c (regionsIn c live)) :
    (allocFromChunks fits progress service size tokens chunks).2.1.map MemoryChunk.memory =
        chunks.map MemoryChunk.memory ∧
      (((allocFromChunks fits progress service size tokens chunks).2.2 = none ∧
        ∀ c ∈ (allocFromChunks fits progress service size tokens chunks).2.1,
          ChunkHolds c (regionsIn c live)) ∨
      ∃ r, (allocFromChunks fits progress service size tokens chunks).2.2 = some (some r) ∧
        Served size live (allocFromChunks fits progress service size tokens chunks).2.1 r) := by
  induction chunks generalizing tokens with
  | nil => exact ⟨rfl, .inl ⟨rfl, by simp [allocFromChunks]⟩⟩
  | cons c cs ih =>
    obtain ⟨hc, hcs⟩ := List.forall_mem_cons.mp hholds
    obtain ⟨-, htail⟩ := List.pairwise_cons.mp hapart
    rw [allocFromChunks]
    set tokens' := tokens.advance (progress cs.length)
    have hmemory := hfits.memory tokens' c
    have hkept := hfits.holds tokens' hc
    rw [← regionsIn_congr hmemory] at hkept
    by_cases hfound : (fits tokens' c).2 = true
    · obtain ⟨hround, hroom⟩ := hkept.roundUp_le tokens' (hfits.room hc hfound)
      obtain ⟨c', tokens'', r, halloc, hmemory', hrsize, hplaced, hserved⟩ :=
        hkept.served service tokens' hsize hround hroom
      have hmap : (c' :: cs).map MemoryChunk.memory = (c :: cs).map MemoryChunk.memory := by
        rw [List.map_cons, List.map_cons, hmemory', hmemory]
      obtain ⟨hhead, -⟩ := List.pairwise_cons.mp (pairwise_apart_congr hmap hapart)
      simp only [hfound, if_true, halloc]
      refine ⟨hmap, .inr ⟨r, rfl, hrsize, ⟨c', List.mem_cons_self, hplaced⟩, ?_⟩⟩
      refine List.forall_mem_cons.mpr ⟨hserved, fun d hd => ?_⟩
      rw [regionsIn_cons_of_not_isInChunk ((hhead d hd).not_isInChunk hplaced.2.2)]
      exact hcs d hd
    · obtain ⟨hrest, hout⟩ := ih tokens' htail hcs
      simp only [hfound, Bool.false_eq_true, if_false]
      have hmap : ((fits tokens' c).1 ::
          (allocFromChunks fits progress service size tokens' cs).2.1).map MemoryChunk.memory =
            (c :: cs).map MemoryChunk.memory := by
        rw [List.map_cons, List.map_cons, hmemory, hrest]
      refine ⟨hmap, ?_⟩
      rcases hout with ⟨hnone, hheld⟩ | ⟨r, hsome, hserved⟩
      · exact .inl ⟨hnone, List.forall_mem_cons.mpr ⟨hkept, hheld⟩⟩
      · obtain ⟨d, hd, hplaced⟩ := hserved.placed
        obtain ⟨hhead, -⟩ := List.pairwise_cons.mp (pairwise_apart_congr hmap hapart)
        refine .inr ⟨r, hsome, hserved.size_eq, ⟨d, List.mem_cons_of_mem _ hd, hplaced⟩, ?_⟩
        refine List.forall_mem_cons.mpr ⟨?_, hserved.holds⟩
        rw [regionsIn_cons_of_not_isInChunk ((hhead d hd).symm.not_isInChunk hplaced.2.2)]
        exact hkept

lemma test_fitsWithoutWaiting (size : UInt32) : Test (fitsWithoutWaiting size) size where
  memory _ _ := rfl
  holds _ _ _ h := (h.freeUnused _).freeUnused _
  room _ hfound := (of_decide_eq_true hfound).trans (largestFreeSize_le _)

lemma test_fitsWithWaiting (size : UInt32) : Test (fitsWithWaiting size) size where
  memory _ _ := rfl
  holds _ _ _ h := h
  room _ hfound := of_decide_eq_true hfound

/-! ### Runs -/

/-- The allocator of a new chunk has room for the request. -/
def Fits (multiple size : UInt32) : Prop :=
  size.toNat + 15 < 2 ^ 32 ∧ roundUp size ≤ roundDown (chunkSize multiple size)

/-- A request is served by an old chunk, or a new one is large enough. -/
def Admissible (w : World) : Event → Prop
  | .alloc progress service size =>
    (allocInOldChunk progress service size w.manager).2.isSome ∨
      Fits w.manager.chunkSizeMultiple size
  | _ => True

def SafeStep (w : World) (e : Event) (w' : World) : Prop := Admissible w e ∧ Step w e w'

/-- What holds between any two steps. -/
structure Invariant (w : World) : Prop where
  apart : w.manager.chunks.Pairwise Apart
  chunks : ∀ c ∈ w.manager.chunks, ChunkHolds c (regionsIn c w.live)
  placed : ∀ r ∈ w.live, ∃ c ∈ w.manager.chunks, PlacedIn r c
  pointers : (w.live.map Allocation.pointer).Nodup
  allocated : w.manager.allocatedMemory = (w.manager.chunks.map fun c => c.size.toNat).sum
  refused : w.refused = []

variable {w : World}

lemma invariant_initial (multiple : UInt32) (limit : ℕ) :
    Invariant (.initial multiple limit) where
  apart := .nil
  chunks := by simp [World.initial]
  placed := by simp [World.initial]
  pointers := .nil
  allocated := rfl
  refused := rfl

lemma placed_congr {chunks' : List MemoryChunk}
    (h : chunks'.map MemoryChunk.memory = chunks.map MemoryChunk.memory)
    (hplaced : ∃ c ∈ chunks, PlacedIn r c) : ∃ c ∈ chunks', PlacedIn r c := by
  obtain ⟨c, hc, hr⟩ := hplaced
  have hmem : c.memory ∈ chunks'.map MemoryChunk.memory := h ▸ List.mem_map_of_mem hc
  obtain ⟨d, hd, hdc⟩ := List.mem_map.mp hmem
  exact ⟨d, hd, (placedIn_congr hdc r).mpr hr⟩

lemma sum_size_congr {chunks' : List MemoryChunk}
    (h : chunks'.map MemoryChunk.memory = chunks.map MemoryChunk.memory) :
    (chunks'.map fun c => c.size.toNat).sum = (chunks.map fun c => c.size.toNat).sum := by
  have hmap : ∀ cs : List MemoryChunk, (cs.map fun c => c.size.toNat) =
      (cs.map MemoryChunk.memory).map fun m => m.2.2.toNat := by
    intro cs
    rw [List.map_map]
    rfl
  rw [hmap, h, ← hmap]

/-- The pointer of a request that was served is not handed out. -/
lemma Served.pointer_not_mem (h : Served size live chunks r) :
    r.pointer ∉ live.map Allocation.pointer := by
  obtain ⟨c, hc, hplaced⟩ := h.placed
  have hnodup := (h.holds c hc Tokens.initial).live_nodup
  rw [regionsIn_cons_of_isInChunk hplaced.2.2, List.map_cons, List.nodup_cons] at hnodup
  intro hmem
  obtain ⟨s, hs, hpointer⟩ := List.mem_map.mp hmem
  refine hnodup.1 (List.mem_map.mpr ⟨⟨s.pointer - c.ptr, s.size.toNat⟩, ?_, by rw [hpointer]⟩)
  refine List.mem_map.mpr ⟨s, List.mem_filter.mpr ⟨hs, ?_⟩, rfl⟩
  rw [hpointer]
  exact hplaced.2.2

lemma Invariant.served (h : Invariant w) {m : Manager} (hserved : Served size w.live m.chunks r)
    (hapart : m.chunks.Pairwise Apart)
    (hplaced : ∀ s, (∃ c ∈ w.manager.chunks, PlacedIn s c) → ∃ c ∈ m.chunks, PlacedIn s c)
    (hallocated : m.allocatedMemory = (m.chunks.map fun c => c.size.toNat).sum) :
    Invariant { w with manager := m, live := r :: w.live } where
  apart := hapart
  chunks := hserved.holds
  placed := List.forall_mem_cons.mpr
    ⟨hserved.placed, fun s hs => hplaced s (h.placed s hs)⟩
  pointers := List.nodup_cons.mpr ⟨hserved.pointer_not_mem, h.pointers⟩
  allocated := hallocated
  refused := h.refused

lemma Invariant.withChunks (h : Invariant w) {chunks' : List MemoryChunk} (tokens' : Tokens)
    (hmap : chunks'.map MemoryChunk.memory = w.manager.chunks.map MemoryChunk.memory)
    (hholds : ∀ c ∈ chunks', ChunkHolds c (regionsIn c w.live)) :
    Invariant { w with manager := { w.manager with tokens := tokens', chunks := chunks' } } where
  apart := pairwise_apart_congr hmap h.apart
  chunks := hholds
  placed r hr := placed_congr hmap (h.placed r hr)
  pointers := h.pointers
  allocated := h.allocated.trans (sum_size_congr hmap).symm
  refused := h.refused

lemma Invariant.servedByChunks (h : Invariant w) {chunks' : List MemoryChunk} (tokens' : Tokens)
    (hmap : chunks'.map MemoryChunk.memory = w.manager.chunks.map MemoryChunk.memory)
    (hserved : Served size w.live chunks' r) :
    Invariant { w with
      manager := { w.manager with tokens := tokens', chunks := chunks' }
      live := r :: w.live } :=
  h.served hserved (pairwise_apart_congr hmap h.apart) (fun _ hs => placed_congr hmap hs)
    (h.allocated.trans (sum_size_congr hmap).symm)

/-- What a request leaves of the manager that no old chunk serves. -/
structure Kept (w : World) (m : Manager) : Prop where
  multiple : m.chunkSizeMultiple = w.manager.chunkSizeMultiple
  memory : m.chunks.map MemoryChunk.memory = w.manager.chunks.map MemoryChunk.memory
  invariant : Invariant { w with manager := m }

/-- The old chunks serve a request or stay what they are. -/
lemma Invariant.allocInOldChunk (h : Invariant w) (progress service : ℕ → ℕ) (hsize : 0 < size) :
    (∃ m, allocInOldChunk progress service size w.manager = (m, none) ∧ Kept w m) ∨
    ∃ m r, MappedMemory.allocInOldChunk progress service size w.manager = (m, some (some r)) ∧
      Invariant { w with manager := m, live := r :: w.live } := by
  rw [MappedMemory.allocInOldChunk]
  by_cases hle : size.toNat ≤ w.manager.allocatedMemory
  · rw [if_pos hle]
    obtain ⟨hmap, hout⟩ := allocFromChunks_spec (test_fitsWithoutWaiting size) progress service
      hsize w.manager.tokens h.apart h.chunks
    generalize allocFromChunks (fitsWithoutWaiting size) progress service size w.manager.tokens
      w.manager.chunks = out at hmap hout
    obtain ⟨tokens, chunks, result⟩ := out
    rcases hout with ⟨rfl, hheld⟩ | ⟨r, rfl, hserved⟩
    · have hkept := h.withChunks tokens hmap hheld
      dsimp only
      split_ifs with hwait
      · obtain ⟨hmap', hout'⟩ := allocFromChunks_spec (test_fitsWithWaiting size) progress service
          hsize tokens hkept.apart hkept.chunks
        dsimp only at hmap' hout'
        generalize allocFromChunks (fitsWithWaiting size) progress service size tokens chunks =
          out at hmap' hout'
        obtain ⟨tokens', chunks', result'⟩ := out
        rcases hout' with ⟨rfl, hheld'⟩ | ⟨r, rfl, hserved⟩
        · exact .inl ⟨_, rfl, rfl, hmap'.trans hmap, hkept.withChunks tokens' hmap' hheld'⟩
        · exact .inr ⟨_, r, rfl, hkept.servedByChunks tokens' hmap' hserved⟩
      · exact .inl ⟨_, rfl, rfl, hmap, hkept⟩
    · exact .inr ⟨_, r, rfl, h.servedByChunks tokens hmap hserved⟩
  · rw [if_neg hle]
    exact .inl ⟨_, rfl, rfl, rfl, h⟩

lemma getLargestFreeOrPendingSize_create (shmId : ℤ) (ptr : ℕ) (size : UInt32) (tokens : Tokens) :
    getLargestFreeOrPendingSize ((MemoryChunk.create shmId ptr size).allocator tokens) =
      (roundDown size).toNat := by
  simp [getLargestFreeOrPendingSize, MemoryChunk.create, MemoryChunk.allocator, Allocator.initial,
    scanSegment]

/-- A new chunk that is large enough serves the request. -/
lemma Invariant.allocInNewChunk (h : Invariant w) (service : ℕ → ℕ) (shmId : ℤ) {ptr : ℕ}
    (hsize : 0 < size) (hfits : Fits w.manager.chunkSizeMultiple size)
    (hptr : Unmapped w.manager.chunks ptr (chunkSize w.manager.chunkSizeMultiple size).toNat) :
    ∃ m r, allocInNewChunk service (some (shmId, ptr)) size w.manager = (m, some r) ∧
      Invariant { w with manager := m, live := r :: w.live } := by
  set mc := MemoryChunk.create shmId ptr (chunkSize w.manager.chunkSizeMultiple size) with hmc
  have happart : ∀ c ∈ w.manager.chunks, Apart c mc := hptr
  have hempty : regionsIn mc w.live = [] := by
    rw [regionsIn, List.map_eq_nil_iff, List.filter_eq_nil_iff]
    intro r hr
    obtain ⟨c, hc, hplaced⟩ := h.placed r hr
    rw [(happart c hc).not_isInChunk hplaced.2.2]
    exact Bool.false_ne_true
  have hholds : ChunkHolds mc (regionsIn mc w.live) := by
    rw [hempty]
    exact chunkHolds_create _ _ _
  obtain ⟨mc', tokens', r, halloc, hmemory, hrsize, hplaced, hserved⟩ :=
    hholds.served service w.manager.tokens hsize hfits.1
      (by rw [getLargestFreeOrPendingSize_create]; exact hfits.2)
  refine ⟨_, r, by rw [MappedMemory.allocInNewChunk, ← hmc, halloc], ?_⟩
  have hmap : (w.manager.chunks ++ [mc']).map MemoryChunk.memory =
      (w.manager.chunks ++ [mc]).map MemoryChunk.memory := by
    rw [List.map_append, List.map_append, List.map_singleton, List.map_singleton, hmemory]
  have hapart : (w.manager.chunks ++ [mc']).Pairwise Apart := by
    refine pairwise_apart_congr hmap (List.pairwise_append.mpr ⟨h.apart, by simp, ?_⟩)
    intro c hc d hd
    rw [List.mem_singleton.mp hd]
    exact happart c hc
  refine h.served ⟨hrsize, ⟨mc', List.mem_append_right _ List.mem_cons_self, hplaced⟩, ?_⟩ hapart
    ?_ ?_
  · intro c hc
    rcases List.mem_append.mp hc with hold | hnew
    · have hcd := (List.pairwise_append.mp hapart).2.2 c hold mc' List.mem_cons_self
      rw [regionsIn_cons_of_not_isInChunk (hcd.symm.not_isInChunk hplaced.2.2)]
      exact h.chunks c hold
    · rw [List.mem_singleton.mp hnew]
      exact hserved
  · intro s ⟨c, hc, hs⟩
    exact ⟨c, List.mem_append_left _ hc, hs⟩
  · have hsum := sum_size_congr hmap
    rw [List.map_append, List.sum_append, List.map_append, List.sum_append] at hsum
    simp only [List.map_append, List.sum_append, List.map_singleton, List.sum_singleton] at hsum ⊢
    rw [h.allocated]

lemma Invariant.alloc (h : Invariant w) (progress service : ℕ → ℕ) (shmId : ℤ) {ptr : ℕ}
    (hsize : 0 < size)
    (hptr : Unmapped w.manager.chunks ptr (chunkSize w.manager.chunkSizeMultiple size).toNat)
    (hok : Admissible w (.alloc progress service size)) :
    ∃ m r, alloc progress service (some (shmId, ptr)) size w.manager = (m, some r) ∧
      Invariant { w with manager := m, live := r :: w.live } := by
  rw [MappedMemory.alloc]
  obtain ⟨m, hold, hkept⟩ | ⟨m, r, hold, hinv⟩ := h.allocInOldChunk progress service hsize
  · rw [hold]
    rcases hok with hserved | hfits
    · rw [hold] at hserved
      cases hserved
    · rw [← hkept.multiple] at hfits hptr
      refine hkept.invariant.allocInNewChunk service shmId hsize hfits ?_
      intro c hc
      have hmem : c.memory ∈ w.manager.chunks.map MemoryChunk.memory :=
        hkept.memory ▸ List.mem_map_of_mem hc
      obtain ⟨d, hd, hdc⟩ := List.mem_map.mp hmem
      simp only [MemoryChunk.memory, Prod.mk.injEq] at hdc
      rw [← hdc.2.1, ← hdc.2.2]
      exact hptr d hd
  · rw [hold]
    exact ⟨m, r, rfl, hinv⟩

/-- The regions of a chunk after a pointer was freed. -/
lemma regionsIn_filter {pointer : ℕ} :
    regionsIn c (live.filter fun s => s.pointer ≠ pointer) =
      if c.isInChunk pointer then
        (regionsIn c live).filter fun s => s.offset ≠ pointer - c.ptr
      else regionsIn c live := by
  split_ifs with hin
  · rw [regionsIn, regionsIn, List.filter_map, List.filter_filter, List.filter_filter]
    refine congrArg _ (List.filter_congr fun s _ => ?_)
    rw [isInChunk_iff] at hin
    rw [Bool.eq_iff_iff]
    simp only [Bool.and_eq_true, isInChunk_iff, decide_eq_true_eq, Function.comp_apply]
    omega
  · rw [regionsIn, regionsIn, List.filter_filter]
    refine congrArg _ (List.filter_congr fun s _ => ?_)
    by_cases hs : s.pointer = pointer
    · rw [hs, Bool.eq_false_iff.mpr hin, Bool.false_and]
    · simp [hs]

lemma mem_regionsIn (hr : r ∈ live) (hin : c.isInChunk r.pointer = true) :
    ⟨r.pointer - c.ptr, r.size.toNat⟩ ∈ regionsIn c live :=
  List.mem_map.mpr ⟨r, List.mem_filter.mpr ⟨hr, hin⟩, rfl⟩

/-- Freeing a pointer in the chunk that it is in. -/
lemma updateChunk_spec {f : MemoryChunk → MemoryChunk} {pointer : ℕ}
    (hmemory : ∀ c, (f c).memory = c.memory)
    (hf : ∀ c, c.isInChunk pointer = true → ChunkHolds c (regionsIn c live) →
      ChunkHolds (f c) ((regionsIn c live).filter fun s => s.offset ≠ pointer - c.ptr))
    (hapart : chunks.Pairwise Apart) (hholds : ∀ c ∈ chunks, ChunkHolds c (regionsIn c live)) :
    (updateChunk f pointer chunks).map MemoryChunk.memory = chunks.map MemoryChunk.memory ∧
      ∀ c ∈ updateChunk f pointer chunks,
        ChunkHolds c (regionsIn c (live.filter fun s => s.pointer ≠ pointer)) := by
  induction chunks with
  | nil => exact ⟨rfl, by simp [updateChunk]⟩
  | cons c cs ih =>
    obtain ⟨hc, hcs⟩ := List.forall_mem_cons.mp hholds
    obtain ⟨hhead, htail⟩ := List.pairwise_cons.mp hapart
    rw [updateChunk]
    split_ifs with hin
    · refine ⟨by rw [List.map_cons, List.map_cons, hmemory], List.forall_mem_cons.mpr ⟨?_, ?_⟩⟩
      · rw [regionsIn_congr (hmemory c), regionsIn_filter, if_pos hin]
        exact hf c hin hc
      · intro d hd
        rw [regionsIn_filter, (hhead d hd).not_isInChunk hin, if_neg Bool.false_ne_true]
        exact hcs d hd
    · obtain ⟨hmap, hrest⟩ := ih htail hcs
      refine ⟨by rw [List.map_cons, List.map_cons, hmap], List.forall_mem_cons.mpr ⟨?_, hrest⟩⟩
      rw [regionsIn_filter, if_neg hin]
      exact hc

lemma Invariant.updateChunk (h : Invariant w) {f : MemoryChunk → MemoryChunk} {pointer : ℕ}
    (hmemory : ∀ c, (f c).memory = c.memory)
    (hf : ∀ c, c.isInChunk pointer = true → ChunkHolds c (regionsIn c w.live) →
      ChunkHolds (f c) ((regionsIn c w.live).filter fun s => s.offset ≠ pointer - c.ptr)) :
    Invariant { w with
      manager := { w.manager with chunks := updateChunk f pointer w.manager.chunks }
      live := w.live.filter fun s => s.pointer ≠ pointer } := by
  obtain ⟨hmap, hholds⟩ := updateChunk_spec hmemory hf h.apart h.chunks
  exact ⟨pairwise_apart_congr hmap h.apart, hholds,
    fun r hr => placed_congr hmap (h.placed r (List.mem_of_mem_filter hr)),
    h.pointers.sublist (List.filter_sublist.map _), h.allocated.trans (sum_size_congr hmap).symm,
    h.refused⟩

lemma Invariant.free (h : Invariant w) (hr : r ∈ w.live) :
    Invariant { w with
      manager := free r.pointer w.manager
      live := w.live.filter fun s => s.pointer ≠ r.pointer } := by
  refine h.updateChunk (fun _ => rfl) fun c hin hholds => ?_
  have hfree := hholds.free w.manager.tokens (mem_regionsIn hr hin)
  rwa [Nat.add_sub_cancel' (isInChunk_iff.mp hin).1] at hfree

lemma Invariant.freePendingToken (h : Invariant w) (hr : r ∈ w.live) {token : ℕ}
    (htoken : token < tokenModulus) :
    Invariant { w with
      manager := freePendingToken r.pointer token w.manager
      live := w.live.filter fun s => s.pointer ≠ r.pointer } := by
  refine h.updateChunk (fun _ => rfl) fun c hin hholds => ?_
  have hfree := hholds.freePendingToken w.manager.tokens (mem_regionsIn hr hin) htoken
  rwa [Nat.add_sub_cancel' (isInChunk_iff.mp hin).1] at hfree

/-- A chunk that is not in use stands for nothing. -/
lemma ChunkHolds.eq_nil_of_not_inUse (h : ChunkHolds c regions) (hc : c.inUse = false) :
    regions = [] := by
  rw [List.eq_nil_iff_forall_not_mem]
  intro r hr
  obtain ⟨-, b, hb, hstate, -⟩ := (h Tokens.initial).live_block r hr
  simp only [MemoryChunk.inUse, decide_eq_false_iff_not, not_or, not_not] at hc
  obtain ⟨a, ha⟩ := List.length_eq_one_iff.mp hc.1
  have hb' : b ∈ c.blocks := hb
  rw [ha, List.mem_singleton] at hb'
  rw [ha, ← hb'] at hc
  simp [hstate] at hc

lemma freeUnusedChunks_spec (progress : ℕ → ℕ) (tokens : Tokens) (allocatedMemory rest : ℕ)
    (hholds : ∀ c ∈ chunks, ChunkHolds c (regionsIn c live))
    (hallocated : allocatedMemory = rest + (chunks.map fun c => c.size.toNat).sum) :
    ∃ kept, List.Sublist kept chunks ∧
      (freeUnusedChunks progress tokens allocatedMemory chunks).2.2.map MemoryChunk.memory =
        kept.map MemoryChunk.memory ∧
      (∀ c ∈ chunks, regionsIn c live = [] ∨ c ∈ kept) ∧
      (∀ c ∈ (freeUnusedChunks progress tokens allocatedMemory chunks).2.2,
        ChunkHolds c (regionsIn c live)) ∧
      (freeUnusedChunks progress tokens allocatedMemory chunks).2.1 =
        rest + (kept.map fun c => c.size.toNat).sum := by
  induction chunks generalizing tokens allocatedMemory rest with
  | nil => exact ⟨[], List.Sublist.refl _, rfl, by simp, by simp [freeUnusedChunks], hallocated⟩
  | cons c cs ih =>
    obtain ⟨hc, hcs⟩ := List.forall_mem_cons.mp hholds
    rw [List.map_cons, List.sum_cons] at hallocated
    rw [freeUnusedChunks]
    set tokens' := tokens.advance (progress cs.length)
    have hfreed := hc.freeUnused tokens'
    by_cases huse : (c.freeUnused tokens').inUse = true
    · obtain ⟨kept, hsub, hmap, hkept, hheld, hsum⟩ := ih tokens'
        allocatedMemory (rest + c.size.toNat) hcs (by omega)
      simp only [huse, not_true_eq_false, if_false]
      refine ⟨c :: kept, hsub.cons_cons c, ?_, ?_, ?_, ?_⟩
      · rw [List.map_cons, List.map_cons, hmap]
        rfl
      · refine List.forall_mem_cons.mpr ⟨.inr List.mem_cons_self, fun d hd => ?_⟩
        exact (hkept d hd).imp_right (List.mem_cons_of_mem c)
      · exact List.forall_mem_cons.mpr ⟨hfreed, hheld⟩
      · rw [hsum, List.map_cons, List.sum_cons, Nat.add_assoc]
    · have hempty := hfreed.eq_nil_of_not_inUse (Bool.eq_false_iff.mpr huse)
      obtain ⟨kept, hsub, hmap, hkept, hheld, hsum⟩ := ih tokens'
        (allocatedMemory - c.size.toNat) rest hcs (by omega)
      simp only [huse]
      refine ⟨kept, hsub.cons c, hmap, ?_, hheld, hsum⟩
      exact List.forall_mem_cons.mpr ⟨.inl hempty, hkept⟩

lemma Invariant.freeUnused (h : Invariant w) (progress : ℕ → ℕ) :
    Invariant { w with manager := freeUnused progress w.manager } := by
  obtain ⟨kept, hsub, hmap, hkept, hheld, hsum⟩ := freeUnusedChunks_spec progress
    w.manager.tokens w.manager.allocatedMemory 0 h.chunks (by rw [Nat.zero_add, h.allocated])
  refine ⟨pairwise_apart_congr hmap (h.apart.sublist hsub), hheld, fun r hr => ?_, h.pointers, ?_,
    h.refused⟩
  · obtain ⟨c, hc, hplaced⟩ := h.placed r hr
    refine placed_congr hmap ⟨c, ?_, hplaced⟩
    rcases hkept c hc with hempty | hmem
    · have hmem := mem_regionsIn hr hplaced.2.2
      rw [hempty] at hmem
      cases hmem
    · exact hmem
  · exact hsum.trans ((Nat.zero_add _).trans (sum_size_congr hmap).symm)

/-- What one step keeps. -/
lemma Invariant.step {w' : World} {e : Event} (h : Invariant w) (hs : SafeStep w e w') :
    Invariant w' := by
  obtain ⟨hok, hs⟩ := hs
  cases hs with
  | alloc size progress service shmId ptr hsize hptr =>
    obtain ⟨m, r, halloc, hinv⟩ := h.alloc progress service shmId hsize hptr hok
    rw [halloc]
    exact hinv
  | free r hr => exact h.free hr
  | freePendingToken r token hr htoken => exact h.freePendingToken hr htoken
  | freeUnused progress => exact h.freeUnused progress
  | setChunkSizeMultiple multiple _ =>
    exact ⟨h.apart, h.chunks, h.placed, h.pointers, h.allocated, h.refused⟩
  | insertToken => exact ⟨h.apart, h.chunks, h.placed, h.pointers, h.allocated, h.refused⟩

/-- What a client may rely on: every request was served, what it holds is inside the shared memory
of a chunk and apart from everything else it holds, and the chunks are accounted for. -/
structure Sound (w : World) : Prop where
  served : w.refused = []
  inside : ∀ r ∈ w.live, ∃ c ∈ w.manager.chunks, c.shmId = r.shmId ∧
    r.pointer = c.ptr + r.shmOffset ∧ r.shmOffset + r.size.toNat ≤ c.size.toNat
  disjoint : w.live.Pairwise fun r s =>
    Region.Disjoint ⟨r.pointer, r.size.toNat⟩ ⟨s.pointer, s.size.toNat⟩
  allocated : w.manager.allocatedMemory = (w.manager.chunks.map fun c => c.size.toNat).sum

/-- The end of what was handed out, and where two regions of a chunk lie. -/
lemma ChunkHolds.regions_spec (h : ChunkHolds c regions) :
    (∀ x ∈ regions, x.offset + x.size ≤ c.size.toNat) ∧ regions.Pairwise Region.Disjoint := by
  have hwell := (h Tokens.initial).wellFormed
  refine ⟨fun x hx => ?_, hwell.live_disjoint⟩
  have hinside := (hwell.live_region x hx).2.1
  have hdown := roundDown_toNat c.size
  omega

lemma Invariant.sound (h : Invariant w) : Sound w where
  served := h.refused
  inside r hr := by
    obtain ⟨c, hc, hid, hpointer, hin⟩ := h.placed r hr
    have hend := (h.chunks c hc).regions_spec.1 _ (mem_regionsIn hr hin)
    rw [hpointer, Nat.add_sub_cancel_left] at hend
    exact ⟨c, hc, hid, hpointer, hend⟩
  disjoint := by
    refine (List.pairwise_map.mp h.pointers).imp_of_mem fun {r s} hr hs hne => ?_
    obtain ⟨c, hc, -, -, hrc⟩ := h.placed r hr
    obtain ⟨d, hd, -, -, hsd⟩ := h.placed s hs
    have hrend := (h.chunks c hc).regions_spec.1 _ (mem_regionsIn hr hrc)
    have hsend := (h.chunks d hd).regions_spec.1 _ (mem_regionsIn hs hsd)
    dsimp only at hrend hsend
    have hr' := isInChunk_iff.mp hrc
    have hs' := isInChunk_iff.mp hsd
    by_cases hcd : c = d
    · subst hcd
      have hne' : (⟨r.pointer - c.ptr, r.size.toNat⟩ : Region) ≠
          ⟨s.pointer - c.ptr, s.size.toNat⟩ := by
        intro heq
        have hoffset := congrArg Region.offset heq
        dsimp only at hoffset
        omega
      have hpair := (h.chunks c hc).regions_spec.2.forall (mem_regionsIn hr hrc)
        (mem_regionsIn hs hsd) hne'
      simp only [Region.Disjoint] at hpair ⊢
      omega
    · have hpair := h.apart.forall hc hd hcd
      simp only [Apart, Region.Disjoint] at hpair ⊢
      omega
  allocated := h.allocated

instance (multiple size : UInt32) : Decidable (Fits multiple size) :=
  inferInstanceAs (Decidable (_ ∧ _))

/-- In each run whose requests are served by old chunks or fit into a new one, with any multiple,
the client can rely on the manager. -/
theorem alloc_sound (multiple : UInt32) (limit : ℕ) (es : List Event)
    (h : Reaches SafeStep (.initial multiple limit) es w) : Sound w :=
  (h.invariant Invariant (invariant_initial multiple limit)
    fun _ _ _ hinv hs => hinv.step hs).sound

/-- Twenty bytes with a chunk multiple of 32. -/
theorem alloc_sound_twenty : ∃ w, Reaches SafeStep (.initial 32 0)
    [.alloc id id 20, .freeUnused] w ∧ Sound w := by
  have halloc := Step.alloc (.initial 32 0) 20 id id 1 4096 (by decide)
    (by simp [Unmapped, World.initial])
  have hsafe : Admissible (.initial 32 0) (.alloc id id 20) := .inr (by decide +kernel)
  have hfirst : SafeStep (.initial 32 0) (.alloc id id 20) _ := ⟨hsafe, halloc⟩
  have hsecond : ∀ w, SafeStep w .freeUnused { w with manager := freeUnused id w.manager } :=
    fun w => ⟨trivial, Step.freeUnused w id⟩
  have hrun := (Reaches.refl.snoc hfirst).snoc (hsecond _)
  exact ⟨_, hrun, alloc_sound 32 0 _ hrun⟩

/-- With the multiple that managers start with, a chunk of 17 bytes has no room for 17 bytes. -/
theorem alloc_not_sound : ¬ ∀ (multiple : UInt32) (limit : ℕ) (es : List Event) (w : World),
    0 < multiple → Reaches Step (.initial multiple limit) es w → Sound w := by
  intro h
  have halloc := Step.alloc (.initial 1 0) 17 id id 1 4096 (by decide)
    (by simp [Unmapped, World.initial])
  have hserved := (h 1 0 _ _ (by decide) (Reaches.refl.snoc halloc)).served
  exact absurd (congrArg List.length hserved) (by decide +kernel)

end Chromium.MappedMemory
