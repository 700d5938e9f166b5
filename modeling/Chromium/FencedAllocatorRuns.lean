import Chromium.FencedAllocator

/-!
# Runs of the fenced allocator

The run state adds two ghost records to the allocator: the regions handed out
and not yet freed, and every region ever freed with a token. One invariant ties
both to the block vector, and each operation is shown to keep it as long as a
request that wraps in `RoundUp` finds no block to use.
-/
namespace Chromium.FencedAllocator
open CommandTokens Tiling Runs

/-- The block vector of a buffer of `size` bytes. An empty buffer keeps its one
block of size zero. -/
structure Consistent (size : ℕ) (blocks : List Block) : Prop where
  tiles : Tiles Block.offset Block.size 0 blocks size
  separated : Separated blocks
  nonzero : (size = 0 ∧ blocks = [⟨.free, 0, 0, kUnusedToken⟩]) ∨ ∀ b ∈ blocks, 0 < b.size
  aligned : ∀ b ∈ blocks, 16 ∣ b.size

/-- The sum of the sizes of the blocks in use. -/
def inUseBytes (blocks : List Block) : ℕ :=
  ((blocks.filter fun b => b.state = .inUse).map Block.size).sum

@[simp] lemma inUseBytes_nil : inUseBytes [] = 0 := rfl

@[simp] lemma inUseBytes_append (as bs : List Block) :
    inUseBytes (as ++ bs) = inUseBytes as + inUseBytes bs := by
  simp [inUseBytes]

@[simp] lemma inUseBytes_cons (b : Block) (bs : List Block) :
    inUseBytes (b :: bs) = (if b.state = .inUse then b.size else 0) + inUseBytes bs := by
  by_cases hb : b.state = .inUse <;> simp [inUseBytes, hb]

lemma inUseBytes_eq_zero {bs : List Block} (h : ∀ b ∈ bs, b.state = .free) :
    inUseBytes bs = 0 := by
  induction bs with
  | nil => rfl
  | cons b bs ih =>
    simp only [List.mem_cons, forall_eq_or_imp] at h
    simp [h.1, ih h.2]

/-- Freeing a block keeps the vector consistent and touches no other block that
is in use or pending. -/
lemma Consistent.freeBlock {size : ℕ} {pre post : List Block} {b : Block}
    (h : Consistent size (pre ++ b :: post)) (hb : b.state ≠ .free) :
    ∃ pre' m post',
      FencedAllocator.freeBlock (pre ++ b :: post) pre.length = (pre' ++ m :: post', pre'.length) ∧
      m.state = .free ∧ b.size ≤ m.size ∧ Consistent size (pre' ++ m :: post') ∧
      (∀ x, x.state ≠ .free → (x ∈ pre' ++ m :: post' ↔ x ∈ pre ∨ x ∈ post)) ∧
      inUseBytes (pre' ++ m :: post') = inUseBytes pre + inUseBytes post := by
  obtain ⟨hpre, hbpost, -⟩ := List.isChain_append.mp h.separated
  have hpost := (List.isChain_cons.mp hbpost).2
  have hpos : ∀ x ∈ pre ++ b :: post, 0 < x.size := by
    rcases h.nonzero with ⟨-, hempty⟩ | hpos
    · have hmem : b ∈ pre ++ b :: post := by simp
      rw [hempty, List.mem_singleton] at hmem
      exact absurd (by rw [hmem]) hb
    · exact hpos
  obtain ⟨pre', left, right, post', m, rfl, rfl, hout, hfree, hm, htile, hsep⟩ :=
    freeBlock_focus b hpre hpost
  have hperm : pre' ++ left ++ b :: (right ++ post') = pre' ++ ((left ++ b :: right) ++ post') := by
    simp
  have htiles := h.tiles
  rw [hperm, tiles_append] at htiles
  obtain ⟨o, hpre', hrest⟩ := htiles
  obtain ⟨e, hmid, hpost'⟩ := (tiles_append _ _ _ _ _ _).mp hrest
  have hmtile := htile o e hmid
  have hmsize : m.size = ((left ++ b :: right).map Block.size).sum := by
    have h1 := hmid.sum_size
    have h2 := hmtile.sum_size
    simp only [List.map_cons, List.map_nil, List.sum_cons, List.sum_nil] at h2
    omega
  have hmem : ∀ x, x ∈ pre' ++ m :: post' → x = m ∨ x ∈ pre' ++ left ++ b :: (right ++ post') := by
    intro x hx
    simp only [List.mem_append, List.mem_cons] at hx ⊢
    tauto
  have hbm : b.size ≤ m.size := by
    rw [hmsize]
    simp only [List.map_append, List.map_cons, List.sum_append, List.sum_cons]
    omega
  refine ⟨pre', m, post', hout, hm, hbm, ⟨?_, hsep, .inr ?_, ?_⟩, ?_, ?_⟩
  · rw [tiles_append]
    exact ⟨o, hpre',
      (tiles_append Block.offset Block.size o size [m] post').mpr ⟨e, hmtile, hpost'⟩⟩
  · intro x hx
    rcases hmem x hx with rfl | hx
    · exact (hpos b (by simp)).trans_le hbm
    · exact hpos x hx
  · intro x hx
    rcases hmem x hx with rfl | hx
    · rw [hmsize]
      refine List.dvd_sum fun n hn => ?_
      obtain ⟨y, hy, rfl⟩ := List.mem_map.mp hn
      refine h.aligned y ?_
      simp only [List.mem_append, List.mem_cons] at hy ⊢
      tauto
    · exact h.aligned x hx
  · intro x hx
    have hxl : x ∉ left := fun hl => hx (hfree x (by simp [hl]))
    have hxr : x ∉ right := fun hr => hx (hfree x (by simp [hr]))
    have hxm : x ≠ m := fun he => hx (he ▸ hm)
    simp [hxl, hxr, hxm]
  · have hl := inUseBytes_eq_zero fun x hx => hfree x (List.mem_append_left right hx)
    have hr := inUseBytes_eq_zero fun x hx => hfree x (List.mem_append_right left hx)
    simp [hm, hl, hr]

lemma insertIdx_focus (pre post : List Block) (b c : Block) :
    (pre ++ b :: post).insertIdx (pre.length + 1) c = pre ++ b :: c :: post := by
  induction pre with
  | nil => rfl
  | cons p pre ih => simpa using ih

/-- Taking the front of a free block keeps the vector consistent. What is left
of it, if anything, is one free block. -/
lemma Consistent.allocInBlock {size n : ℕ} {a : Allocator} {pre post : List Block} {b : Block}
    (h : Consistent size a.blocks) (ha : a.blocks = pre ++ b :: post) (hb : b.state = .free)
    (hn : 0 < n) (hle : n ≤ b.size) (hal : 16 ∣ n) :
    ∃ rest, (∀ x ∈ rest, x.state = .free) ∧
      FencedAllocator.allocInBlock a pre.length n =
        ({ a with
            blocks := pre ++ ⟨.inUse, b.offset, n, b.token⟩ :: (rest ++ post)
            bytesInUse := a.bytesInUse + n }, some b.offset) ∧
      Consistent size (pre ++ ⟨.inUse, b.offset, n, b.token⟩ :: (rest ++ post)) := by
  have hpos : ∀ x ∈ a.blocks, 0 < x.size := by
    rcases h.nonzero with ⟨-, hempty⟩ | hpos
    · have hmem : b ∈ a.blocks := by simp [ha]
      rw [hempty, List.mem_singleton] at hmem
      simp only [hmem] at hle
      omega
    · exact hpos
  obtain ⟨htiles, hsep, -, haligned⟩ := h
  rw [ha] at htiles hsep hpos haligned
  obtain ⟨hpre, hbpost, -⟩ := List.isChain_append.mp hsep
  obtain ⟨hhead, hpost⟩ := List.isChain_cons.mp hbpost
  obtain ⟨o, ht1, ht2⟩ := (tiles_append _ _ _ _ _ _).mp htiles
  obtain ⟨hbo, ht3⟩ := ht2
  by_cases heq : b.size = n
  · refine ⟨[], by simp, ?_, ⟨?_, ?_, .inr ?_, ?_⟩⟩
    · simp [FencedAllocator.allocInBlock, ha, heq, List.modify_eq_set_getElem?]
    · rw [tiles_append]
      exact ⟨o, ht1, hbo, by simpa [heq] using ht3⟩
    · exact separated_around hpre hpost (by simp) (by simp)
    · intro x hx
      simp only [List.nil_append, List.mem_append, List.mem_cons] at hx
      rcases hx with hx | rfl | hx
      · exact hpos x (by simp [hx])
      · exact hn
      · exact hpos x (by simp [hx])
    · intro x hx
      simp only [List.nil_append, List.mem_append, List.mem_cons] at hx
      rcases hx with hx | rfl | hx
      · exact haligned x (by simp [hx])
      · exact hal
      · exact haligned x (by simp [hx])
  · have hlt : n < b.size := lt_of_le_of_ne hle (Ne.symm heq)
    refine ⟨[⟨.free, b.offset + n, b.size - n, kUnusedToken⟩], by simp, ?_,
      ⟨?_, ?_, .inr ?_, ?_⟩⟩
    · simp [FencedAllocator.allocInBlock, ha, heq, List.modify_eq_set_getElem?,
        insertIdx_focus]
    · rw [tiles_append]
      refine ⟨o, ht1, hbo, by simp [hbo], ?_⟩
      have : o + n + (b.size - n) = o + b.size := by omega
      simpa [this] using ht3
    · refine separated_around hpre (List.isChain_cons.mpr ⟨?_, hpost⟩) (by simp) (by simp)
      rintro c hc ⟨-, hfree⟩
      exact hhead c hc ⟨hb, hfree⟩
    · intro x hx
      simp only [List.cons_append, List.nil_append, List.mem_append, List.mem_cons] at hx
      rcases hx with hx | rfl | rfl | hx
      · exact hpos x (by simp [hx])
      · exact hn
      · exact Nat.sub_pos_of_lt hlt
      · exact hpos x (by simp [hx])
    · intro x hx
      simp only [List.cons_append, List.nil_append, List.mem_append, List.mem_cons] at hx
      rcases hx with hx | rfl | rfl | hx
      · exact haligned x (by simp [hx])
      · exact hal
      · exact Nat.dvd_sub (haligned b (by simp)) hal
      · exact haligned x (by simp [hx])

/-- The block that waits for a fence. -/
def fenceBlock (f : Fence) : Block :=
  ⟨.freePendingToken, f.region.offset, f.region.size, f.token % tokenModulus⟩

/-- The allocator with its history: `live` holds the regions handed out, with
the size asked for, and `fences` every region ever freed with a token. -/
structure World where
  allocator : Allocator
  live : List Region
  fences : List Fence

def World.initial (size : UInt32) (tokens : Tokens) : World :=
  ⟨Allocator.initial size tokens, [], []⟩

/-- The calls of a client, and the progress of the token counter between them. -/
inductive Event
  | alloc (size : UInt32) (service : ℕ → ℕ)
  | free (offset : ℕ)
  | freePendingToken (offset token : ℕ)
  | freeUnused
  | insertToken
  | advance (r : ℕ)

/-- One call. Only live offsets are freed, and only with a token that was
inserted, given by its unwrapped number. -/
inductive Step : World → Event → World → Prop
  | alloc (w : World) (size : UInt32) (service : ℕ → ℕ) :
      Step w (.alloc size service)
        { w with
          allocator := (alloc service w.allocator size).1
          live := ((alloc service w.allocator size).2.map (⟨·, size.toNat⟩)).toList ++ w.live }
  | free (w : World) (r : Region) (hr : r ∈ w.live) :
      Step w (.free r.offset)
        { w with
          allocator := free w.allocator r.offset
          live := w.live.filter fun s => s.offset ≠ r.offset }
  | freePendingToken (w : World) (r : Region) (b : Block) (u : ℕ) (hr : r ∈ w.live)
      (hb : w.allocator.blocks[getBlockByOffset w.allocator.blocks r.offset]? = some b)
      (hu : u ≤ w.allocator.tokens.issued) :
      Step w (.freePendingToken r.offset u)
        { allocator := freePendingToken w.allocator r.offset (u % tokenModulus)
          live := w.live.filter fun s => s.offset ≠ r.offset
          fences := ⟨⟨r.offset, b.size⟩, u⟩ :: w.fences }
  | freeUnused (w : World) :
      Step w .freeUnused { w with allocator := freeUnused w.allocator }
  | insertToken (w : World) :
      Step w .insertToken
        { w with allocator := { w.allocator with tokens := w.allocator.tokens.insertToken } }
  | advance (w : World) (r : ℕ) :
      Step w (.advance r)
        { w with allocator := { w.allocator with tokens := w.allocator.tokens.advance r } }

/-- What ties the ghost records to the block vector. -/
structure Invariant (size : ℕ) (w : World) : Prop where
  consistent : Consistent size w.allocator.blocks
  bytes : w.allocator.bytesInUse = inUseBytes w.allocator.blocks
  live_nodup : (w.live.map Region.offset).Nodup
  live_block : ∀ r ∈ w.live, 0 < r.size ∧
    ∃ b ∈ w.allocator.blocks, b.state = .inUse ∧ b.offset = r.offset ∧ r.size ≤ b.size
  fenced : ∀ f ∈ w.fences, f.token ≤ w.allocator.tokens.issued ∧
    (f.token ≤ w.allocator.tokens.read ∨ fenceBlock f ∈ w.allocator.blocks)

lemma invariant_initial (size : UInt32) (tokens : Tokens) :
    Invariant (roundDown size).toNat (World.initial size tokens) := by
  refine ⟨⟨⟨rfl, by simp⟩, List.isChain_singleton _, ?_, ?_⟩,
    by simp [World.initial, Allocator.initial],
    by simp [World.initial], by simp [World.initial], by simp [World.initial]⟩
  · by_cases hz : (roundDown size).toNat = 0
    · exact .inl ⟨hz, by simp [World.initial, Allocator.initial, hz]⟩
    · exact .inr (by simp [World.initial, Allocator.initial]; omega)
  · simp [World.initial, Allocator.initial, roundDown_toNat]

/-- Sorted offsets make the lower bound find the block itself. -/
lemma getBlockByOffset_focus {size : ℕ} {pre post : List Block} {b : Block}
    (ht : Tiles Block.offset Block.size 0 (pre ++ b :: post) size)
    (hpos : ∀ x ∈ pre ++ b :: post, 0 < x.size) :
    getBlockByOffset (pre ++ b :: post) b.offset = pre.length := by
  have hlt : ∀ x ∈ pre, x.offset < b.offset := by
    intro x hx
    have := (List.pairwise_append.mp ht.pairwise).2.2 x hx b (by simp)
    have := hpos x (by simp [hx])
    omega
  unfold getBlockByOffset
  rw [List.findIdx_append, if_neg]
  · simp [List.findIdx_cons]
  · rw [List.findIdx_lt_length]
    rintro ⟨x, hx, hle⟩
    have := hlt x hx
    simp only [decide_eq_true_eq] at hle
    omega

/-- A live region names a block in use, and the lower bound finds it. -/
lemma Invariant.live_split {size : ℕ} {w : World} (h : Invariant size w) {r : Region}
    (hr : r ∈ w.live) :
    ∃ pre b post, w.allocator.blocks = pre ++ b :: post ∧ b.state = .inUse ∧
      b.offset = r.offset ∧ getBlockByOffset (pre ++ b :: post) r.offset = pre.length ∧
      (∀ x ∈ pre ++ b :: post, 0 < x.size) := by
  obtain ⟨-, b, hb, hstate, hoff, -⟩ := h.live_block r hr
  have hpos : ∀ x ∈ w.allocator.blocks, 0 < x.size := by
    rcases h.consistent.nonzero with ⟨-, hempty⟩ | hpos
    · rw [hempty, List.mem_singleton] at hb
      simp [hb] at hstate
    · exact hpos
  obtain ⟨pre, post, hsplit⟩ := List.append_of_mem hb
  have ht := h.consistent.tiles
  rw [hsplit] at ht hpos
  refine ⟨pre, b, post, hsplit, hstate, hoff, ?_, hpos⟩
  rw [← hoff]
  exact getBlockByOffset_focus ht hpos

/-- Waiting for a pending block and freeing it keeps the invariant: the fences
it stood for have been read. -/
lemma Invariant.freePending {size : ℕ} {w : World} (h : Invariant size w)
    {pre post : List Block} {b : Block} (hsplit : w.allocator.blocks = pre ++ b :: post)
    (hb : b.state = .freePendingToken) (tokens : Tokens)
    (hissued : tokens.issued = w.allocator.tokens.issued)
    (hread : w.allocator.tokens.read ≤ tokens.read)
    (hpassed : ∀ u ≤ w.allocator.tokens.issued, u % tokenModulus = b.token → u ≤ tokens.read) :
    Invariant size { w with
      allocator := { w.allocator with
        blocks := (freeBlock w.allocator.blocks pre.length).1
        tokens := tokens } } := by
  have hcons := h.consistent
  rw [hsplit] at hcons
  obtain ⟨pre', m, post', hout, -, -, hcons', hmem, hbytes⟩ := hcons.freeBlock (by simp [hb])
  rw [hsplit, hout]
  refine ⟨hcons', ?_, h.live_nodup, ?_, ?_⟩
  · have := h.bytes
    rw [hsplit] at this
    simpa [hb, hbytes] using this
  · intro r hr
    obtain ⟨hpos, c, hc, hstate, hoff, hle⟩ := h.live_block r hr
    refine ⟨hpos, c, ?_, hstate, hoff, hle⟩
    rw [hsplit] at hc
    have hne : c ≠ b := fun he => by simp [he, hb] at hstate
    refine (hmem c (by simp [hstate])).mpr ?_
    simpa [hne] using hc
  · intro f hf
    obtain ⟨hle, hor⟩ := h.fenced f hf
    refine ⟨hissued ▸ hle, ?_⟩
    rcases hor with hpass | hblock
    · exact .inl (hpass.trans hread)
    · by_cases heq : fenceBlock f = b
      · exact .inl (hpassed _ hle (by rw [← heq]; rfl))
      · rw [hsplit] at hblock
        refine .inr ((hmem _ (by simp [fenceBlock])).mpr ?_)
        simpa [heq] using hblock

/-- The region handed out by `AllocInBlock` joins the live ones. -/
lemma Invariant.allocInBlock {size n : ℕ} {w : World} (h : Invariant size w)
    {pre post : List Block} {b : Block} (hsplit : w.allocator.blocks = pre ++ b :: post)
    (hb : b.state = .free) (hle : n ≤ b.size) (hal : 16 ∣ n) {want : ℕ} (hwant : 0 < want)
    (hn : want ≤ n) :
    Invariant size { w with
      allocator := (FencedAllocator.allocInBlock w.allocator pre.length n).1
      live := ((FencedAllocator.allocInBlock w.allocator pre.length n).2.map
        (⟨·, want⟩)).toList ++ w.live } := by
  obtain ⟨rest, hrest, hout, hcons⟩ :=
    h.consistent.allocInBlock hsplit hb (hwant.trans_le hn) hle hal
  have hkeep : ∀ x ∈ w.allocator.blocks, x.state ≠ .free →
      x ∈ pre ++ ⟨.inUse, b.offset, n, b.token⟩ :: (rest ++ post) := by
    intro x hx hstate
    rw [hsplit] at hx
    have hne : x ≠ b := fun he => hstate (he ▸ hb)
    simp only [List.mem_append, List.mem_cons, hne, false_or] at hx ⊢
    tauto
  have hnew : ∀ r ∈ w.live, r.offset ≠ b.offset := by
    intro r hr heq
    obtain ⟨-, c, hc, hstate, hoff, -⟩ := h.live_block r hr
    have hbmem : b ∈ w.allocator.blocks := by simp [hsplit]
    have hbc : b = c := by
      rcases h.consistent.nonzero with ⟨-, hempty⟩ | hpos
      · rw [hempty, List.mem_singleton] at hbmem hc
        rw [hbmem, hc]
      · exact h.consistent.tiles.eq_of_offset_eq hpos hbmem hc (heq.symm.trans hoff.symm)
    simp [← hbc, hb] at hstate
  simp only [hout, Option.map_some, Option.toList_some, List.cons_append, List.nil_append]
  refine ⟨hcons, ?_, ?_, ?_, ?_⟩
  · have := h.bytes
    rw [hsplit] at this
    simp only [this, inUseBytes_append, inUseBytes_cons, hb, inUseBytes_eq_zero hrest]
    simp
    omega
  · simp only [List.map_cons, List.nodup_cons]
    refine ⟨fun hmem => ?_, h.live_nodup⟩
    obtain ⟨r, hr, heq⟩ := List.mem_map.mp hmem
    exact hnew r hr heq
  · intro r hr
    rcases List.mem_cons.mp hr with rfl | hr
    · exact ⟨hwant, ⟨.inUse, b.offset, n, b.token⟩, by simp, rfl, rfl, hn⟩
    · obtain ⟨hpos, c, hc, hstate, hrest⟩ := h.live_block r hr
      exact ⟨hpos, c, hkeep c hc (by simp [hstate]), hstate, hrest⟩
  · intro f hf
    obtain ⟨hle, hor⟩ := h.fenced f hf
    exact ⟨hle, hor.imp_right fun hblock => hkeep _ hblock (by simp [fenceBlock])⟩

/-- `WaitForTokenAndFreeBlock` on a pending block, with the free block it leaves
at the index it returns. -/
lemma Invariant.waitForTokenAndFreeBlock {size i : ℕ} {w : World} (h : Invariant size w)
    (service : ℕ → ℕ) {b : Block} (hget : w.allocator.blocks[i]? = some b)
    (hb : b.state = .freePendingToken) :
    ∃ pre m post, m.state = .free ∧
      (FencedAllocator.waitForTokenAndFreeBlock service w.allocator i).2 = pre.length ∧
      (FencedAllocator.waitForTokenAndFreeBlock service w.allocator i).1.blocks =
        pre ++ m :: post ∧
      Invariant size { w with
        allocator := (FencedAllocator.waitForTokenAndFreeBlock service w.allocator i).1 } := by
  obtain ⟨pre, post, hsplit, rfl⟩ := split_at hget
  have hcons := h.consistent
  rw [hsplit] at hcons
  obtain ⟨pre', m, post', hout, hm, -⟩ := hcons.freeBlock (by simp [hb])
  have hinv := h.freePending hsplit hb (w.allocator.tokens.waitForToken service b.token)
    (Tokens.waitForToken_issued ..) (Tokens.read_le_waitForToken ..)
    (fun u hu htoken => htoken ▸ Tokens.le_read_waitForToken service _ hu)
  refine ⟨pre', m, post', hm, ?_, ?_, ?_⟩
  · simp [FencedAllocator.waitForTokenAndFreeBlock, hsplit, hout]
  · simp [FencedAllocator.waitForTokenAndFreeBlock, hsplit, hout]
  · simpa [FencedAllocator.waitForTokenAndFreeBlock, hget] using hinv

/-- The waiting loop of `Alloc` keeps the invariant, wherever it stops. -/
lemma Invariant.allocPending {size n : ℕ} {w : World} (h : Invariant size w)
    (service : ℕ → ℕ) (hal : 16 ∣ n) {want : ℕ} (hwant : 0 < want) (hn : want ≤ n) (i : ℕ) :
    Invariant size { w with
      allocator := (FencedAllocator.allocPending service w.allocator n i).1
      live := ((FencedAllocator.allocPending service w.allocator n i).2.map
        (⟨·, want⟩)).toList ++ w.live } := by
  obtain ⟨a, live, fences⟩ := w
  -- one case for each way through the loop body
  induction a, i using FencedAllocator.allocPending.induct service n with
  | case1 a i hnone =>
    rw [FencedAllocator.allocPending]
    split
    · simpa using h
    · simp_all
  | case2 a i b hget hstate ih =>
    rw [FencedAllocator.allocPending]
    split
    · simp_all
    · next b' hget' =>
      obtain rfl : b = b' := by simpa [hget] using hget'
      simpa [hstate] using ih h
  | case3 a i b hget hstate waited hfit =>
    rw [FencedAllocator.allocPending]
    split
    · simp_all
    · next b' hget' =>
      obtain rfl : b = b' := by simpa [hget] using hget'
      obtain ⟨pre, m, post, hm, hpos, hblocks, hinv⟩ :=
        h.waitForTokenAndFreeBlock service hget (not_not.mp hstate)
      have hle : n ≤ m.size := by
        simpa [waited, hpos, hblocks] using hfit
      simp only [hstate, if_false, waited, hfit, if_true]
      rw [hpos]
      exact hinv.allocInBlock hblocks hm hle hal hwant hn
  | case4 a i b hget hstate waited hfit ih =>
    rw [FencedAllocator.allocPending]
    split
    · simp_all
    · next b' hget' =>
      obtain rfl : b = b' := by simpa [hget] using hget'
      obtain ⟨pre, m, post, hm, hpos, hblocks, hinv⟩ :=
        h.waitForTokenAndFreeBlock service hget (not_not.mp hstate)
      simp only [hstate, if_false, waited, hfit]
      exact ih hinv

/-- With every block in use the waiting loop gives up. -/
lemma allocPending_of_inUse {a : Allocator} (h : ∀ b ∈ a.blocks, b.state = .inUse)
    (service : ℕ → ℕ) (n i : ℕ) : FencedAllocator.allocPending service a n i = (a, none) := by
  induction a, i using FencedAllocator.allocPending.induct service n with
  | case1 a i hnone =>
    rw [FencedAllocator.allocPending]
    split <;> simp_all
  | case2 a i b hget hstate ih =>
    rw [FencedAllocator.allocPending]
    split
    · rfl
    · simp_all
  | case3 a i b hget hstate waited hfit => simp [h b (List.mem_of_getElem? hget)] at hstate
  | case4 a i b hget hstate waited hfit ih => simp [h b (List.mem_of_getElem? hget)] at hstate

/-- When `Alloc` is safe: the rounding of the request does not wrap, or there is
no block it could be served from. -/
def AllocSafe (a : Allocator) (size : UInt32) : Prop :=
  size.toNat + 15 < 2 ^ 32 ∨ ∀ b ∈ a.blocks, b.state = .inUse

lemma Invariant.alloc {size : ℕ} {w : World} (h : Invariant size w) (service : ℕ → ℕ)
    {n : UInt32} (hsafe : AllocSafe w.allocator n) :
    Invariant size { w with
      allocator := (FencedAllocator.alloc service w.allocator n).1
      live := ((FencedAllocator.alloc service w.allocator n).2.map
        (⟨·, n.toNat⟩)).toList ++ w.live } := by
  unfold FencedAllocator.alloc
  split_ifs with hzero
  · simpa using h
  have hpos : 0 < n.toNat := Nat.pos_of_ne_zero fun hz => hzero (UInt32.toNat.inj hz)
  have hround := roundUp_toNat n
  have hal : 16 ∣ (roundUp n).toNat := by
    rw [hround]
    exact Nat.dvd_mul_left _ _
  simp only
  rcases hsafe with hnowrap | hinUse
  · have hle : n.toNat ≤ (roundUp n).toNat := by
      rw [hround, Nat.mod_eq_of_lt hnowrap]
      omega
    cases hfind : w.allocator.blocks.findIdx?
        fun b => b.state = .free ∧ (roundUp n).toNat ≤ b.size with
    | none => exact h.allocPending service hal hpos hle 0
    | some i =>
      obtain ⟨hi, hb, -⟩ := List.findIdx?_eq_some_iff_getElem.mp hfind
      obtain ⟨pre, post, hsplit, rfl⟩ := split_at (List.getElem?_eq_getElem hi)
      simp only [decide_eq_true_eq] at hb
      exact h.allocInBlock hsplit hb.1 hb.2 hal hpos hle
  · have hnone : (w.allocator.blocks.findIdx?
        fun b => b.state = .free ∧ (roundUp n).toNat ≤ b.size) = none := by
      refine List.findIdx?_eq_none_iff.mpr fun b hb => ?_
      simp [hinUse b hb]
    simp only [hnone, allocPending_of_inUse hinUse]
    simpa using h

lemma Invariant.freeUnusedLoop {size : ℕ} {w : World} (h : Invariant size w) (i : ℕ) :
    Invariant size { w with
      allocator := { w.allocator with
        blocks := FencedAllocator.freeUnusedLoop w.allocator.tokens.lastTokenRead
          w.allocator.blocks i } } := by
  obtain ⟨⟨blocks, bytesInUse, tokens⟩, live, fences⟩ := w
  simp only at *
  induction blocks, i using FencedAllocator.freeUnusedLoop.induct tokens.lastTokenRead with
  | case1 blocks i hnone =>
    rw [FencedAllocator.freeUnusedLoop]
    split <;> simp_all
  | case2 blocks i b hget hpend ih =>
    rw [FencedAllocator.freeUnusedLoop]
    split
    · simp_all
    · next b' hget' =>
      obtain rfl : b = b' := by simpa [hget] using hget'
      rw [dif_pos hpend]
      obtain ⟨pre, post, hsplit, rfl⟩ := split_at hget
      refine ih ?_
      exact h.freePending hsplit hpend.1 tokens rfl le_rfl
        fun u hu htoken => tokens.le_read_of_le_lastTokenRead hu (htoken ▸ hpend.2)
  | case3 blocks i b hget hpend ih =>
    rw [FencedAllocator.freeUnusedLoop]
    split
    · simp_all
    · next b' hget' =>
      obtain rfl : b = b' := by simpa [hget] using hget'
      rw [dif_neg hpend]
      exact ih h

/-- The live regions other than `r` have their blocks elsewhere. -/
lemma Invariant.live_others {size : ℕ} {w : World} (h : Invariant size w)
    {pre post : List Block} {b : Block} (hsplit : w.allocator.blocks = pre ++ b :: post)
    {r : Region} (hoff : b.offset = r.offset) :
    ((w.live.filter fun s => s.offset ≠ r.offset).map Region.offset).Nodup ∧
      ∀ s ∈ w.live.filter fun s => s.offset ≠ r.offset, 0 < s.size ∧
        ∃ c, (c ∈ pre ∨ c ∈ post) ∧ c.state = .inUse ∧ c.offset = s.offset ∧
          s.size ≤ c.size := by
  refine ⟨h.live_nodup.sublist (List.filter_sublist.map _), fun s hs => ?_⟩
  obtain ⟨hs, hne⟩ := List.mem_filter.mp hs
  obtain ⟨hpos, c, hc, hstate, hcoff, hle⟩ := h.live_block s hs
  refine ⟨hpos, c, ?_, hstate, hcoff, hle⟩
  have hcb : c ≠ b := by
    rintro rfl
    simp [← hcoff, hoff] at hne
  rw [hsplit] at hc
  simpa [hcb] using hc

lemma Invariant.free {size : ℕ} {w : World} (h : Invariant size w) {r : Region}
    (hr : r ∈ w.live) :
    Invariant size { w with
      allocator := FencedAllocator.free w.allocator r.offset
      live := w.live.filter fun s => s.offset ≠ r.offset } := by
  obtain ⟨pre, b, post, hsplit, hstate, hoff, hindex, -⟩ := h.live_split hr
  have hcons := h.consistent
  rw [hsplit] at hcons
  obtain ⟨pre', m, post', hout, -, -, hcons', hmem, hbytes⟩ := hcons.freeBlock (by simp [hstate])
  have hfree : FencedAllocator.free w.allocator r.offset =
      { w.allocator with
        blocks := pre' ++ m :: post'
        bytesInUse := w.allocator.bytesInUse - b.size } := by
    unfold FencedAllocator.free
    simp [hindex, hsplit, hstate, hout]
  obtain ⟨hnodup, hothers⟩ := h.live_others hsplit hoff
  rw [hfree]
  refine ⟨hcons', ?_, hnodup, ?_, ?_⟩
  · have := h.bytes
    rw [hsplit] at this
    simp only [hbytes]
    simp only [this, inUseBytes_append, inUseBytes_cons, hstate, if_true]
    omega
  · intro s hs
    obtain ⟨hpos, c, hc, hcstate, hrest⟩ := hothers s hs
    exact ⟨hpos, c, (hmem c (by simp [hcstate])).mpr hc, hcstate, hrest⟩
  · intro f hf
    obtain ⟨hle, hor⟩ := h.fenced f hf
    refine ⟨hle, hor.imp_right fun hblock => (hmem _ (by simp [fenceBlock])).mpr ?_⟩
    have hne : fenceBlock f ≠ b := fun he => by simp [← he, fenceBlock] at hstate
    rw [hsplit] at hblock
    simpa [hne] using hblock

lemma Invariant.freePendingToken {size : ℕ} {w : World} (h : Invariant size w) {r : Region}
    (hr : r ∈ w.live) {b : Block}
    (hget : w.allocator.blocks[getBlockByOffset w.allocator.blocks r.offset]? = some b) {u : ℕ}
    (hu : u ≤ w.allocator.tokens.issued) :
    Invariant size
      { allocator := FencedAllocator.freePendingToken w.allocator r.offset (u % tokenModulus)
        live := w.live.filter fun s => s.offset ≠ r.offset
        fences := ⟨⟨r.offset, b.size⟩, u⟩ :: w.fences } := by
  obtain ⟨pre, b', post, hsplit, hstate, hoff, hindex, hpos⟩ := h.live_split hr
  obtain rfl : b' = b := by simpa [hindex, hsplit] using hget
  have hfree : FencedAllocator.freePendingToken w.allocator r.offset (u % tokenModulus) =
      { w.allocator with
        blocks := pre ++ ⟨.freePendingToken, b'.offset, b'.size, u % tokenModulus⟩ :: post
        bytesInUse := w.allocator.bytesInUse - b'.size } := by
    unfold FencedAllocator.freePendingToken
    simp [hindex, hsplit, hstate, List.modify_eq_set_getElem?]
  obtain ⟨hnodup, hothers⟩ := h.live_others hsplit hoff
  obtain ⟨htiles, hsep, -, haligned⟩ := h.consistent
  rw [hsplit] at htiles hsep haligned
  obtain ⟨hpre, hbpost, -⟩ := List.isChain_append.mp hsep
  rw [hfree]
  refine ⟨⟨?_, ?_, .inr ?_, ?_⟩, ?_, hnodup, ?_, ?_⟩
  · rw [tiles_append] at htiles ⊢
    exact htiles
  · exact separated_around hpre (List.isChain_cons.mp hbpost).2 (by simp) (by simp)
  · intro x hx
    simp only [List.mem_append, List.mem_cons] at hx
    rcases hx with hx | rfl | hx
    · exact hpos x (by simp [hx])
    · exact hpos b' (by simp)
    · exact hpos x (by simp [hx])
  · intro x hx
    simp only [List.mem_append, List.mem_cons] at hx
    rcases hx with hx | rfl | hx
    · exact haligned x (by simp [hx])
    · exact haligned b' (by simp)
    · exact haligned x (by simp [hx])
  · have := h.bytes
    rw [hsplit] at this
    simp only [this, inUseBytes_append, inUseBytes_cons, hstate, if_true]
    simp
    omega
  · intro s hs
    obtain ⟨hspos, c, hc, hrest⟩ := hothers s hs
    exact ⟨hspos, c, by simp; tauto, hrest⟩
  · intro f hf
    rcases List.mem_cons.mp hf with rfl | hf
    · exact ⟨hu, .inr (by simp [fenceBlock, hoff])⟩
    · obtain ⟨hle, hor⟩ := h.fenced f hf
      refine ⟨hle, hor.imp_right fun hblock => ?_⟩
      have hne : fenceBlock f ≠ b' := fun he => by simp [← he, fenceBlock] at hstate
      rw [hsplit] at hblock
      simp only [List.mem_append, List.mem_cons, hne, false_or] at hblock ⊢
      tauto

/-- The condition on one call: only `Alloc` has one. -/
def Admissible (w : World) : Event → Prop
  | .alloc size _ => AllocSafe w.allocator size
  | _ => True

/-- A call that meets its condition. -/
def SafeStep (w : World) (e : Event) (w' : World) : Prop := Admissible w e ∧ Step w e w'

/-- What one call preserves. -/
lemma Invariant.step {size : ℕ} {w w' : World} {e : Event} (h : Invariant size w)
    (hs : SafeStep w e w') : Invariant size w' := by
  obtain ⟨hok, hs⟩ := hs
  cases hs with
  | alloc n service => exact h.alloc service hok
  | free r hr => exact h.free hr
  | freePendingToken r b u hr hb hu => exact h.freePendingToken hr hb hu
  | freeUnused => exact h.freeUnusedLoop 0
  | insertToken =>
    refine ⟨h.consistent, h.bytes, h.live_nodup, h.live_block, fun f hf => ?_⟩
    obtain ⟨hle, hor⟩ := h.fenced f hf
    exact ⟨hle.trans (Tokens.issued_le_insertToken _),
      hor.imp_left fun hr => hr.trans (Tokens.read_le_insertToken _)⟩
  | advance r =>
    refine ⟨h.consistent, h.bytes, h.live_nodup, h.live_block, fun f hf => ?_⟩
    obtain ⟨hle, hor⟩ := h.fenced f hf
    exact ⟨hle, hor.imp_left fun hr => hr.trans (Tokens.read_le_advance _ _)⟩

/-- What a client may rely on between two calls on a buffer of which `size`
bytes are managed. -/
structure WellFormed (size : ℕ) (w : World) : Prop where
  contiguous : Tiles Block.offset Block.size 0 w.allocator.blocks size
  sorted : w.allocator.blocks.Pairwise fun a b => a.offset < b.offset
  separated : Separated w.allocator.blocks
  nonzero : size ≠ 0 → ∀ b ∈ w.allocator.blocks, 0 < b.size
  bytes : w.allocator.bytesInUse = inUseBytes w.allocator.blocks
  live_disjoint : w.live.Pairwise Region.Disjoint
  live_region : ∀ r ∈ w.live, 16 ∣ r.offset ∧ r.offset + r.size ≤ size ∧
    ∃ b ∈ w.allocator.blocks, b.state = .inUse ∧ b.offset = r.offset ∧ r.size ≤ b.size
  fenced : ∀ f ∈ w.fences, w.allocator.tokens.read < f.token →
    ∀ b ∈ w.allocator.blocks, b.state = .inUse → Region.Disjoint ⟨b.offset, b.size⟩ f.region

lemma Invariant.wellFormed {size : ℕ} {w : World} (h : Invariant size w) :
    WellFormed size w := by
  have htiles := h.consistent.tiles
  have hpos : size ≠ 0 → ∀ b ∈ w.allocator.blocks, 0 < b.size := by
    intro hsize
    rcases h.consistent.nonzero with ⟨hz, -⟩ | hpos
    · exact absurd hz hsize
    · exact hpos
  refine ⟨htiles, ?_, h.consistent.separated, hpos, h.bytes, ?_, ?_, ?_⟩
  · rcases h.consistent.nonzero with ⟨-, hempty⟩ | hpos
    · rw [hempty]
      exact List.pairwise_singleton _ _
    · refine htiles.pairwise.imp_of_mem fun {a b} ha _ hab => ?_
      have := hpos a ha
      omega
  · refine (List.pairwise_map.mp h.live_nodup).imp_of_mem fun {r s} hr hs hne => ?_
    obtain ⟨-, b, hb, -, hbo, hbs⟩ := h.live_block r hr
    obtain ⟨-, c, hc, -, hco, hcs⟩ := h.live_block s hs
    unfold Region.Disjoint
    rcases htiles.disjoint_or_eq hb hc with rfl | hlt | hlt
    · exact absurd (hbo.symm.trans hco) hne
    · omega
    · omega
  · intro r hr
    obtain ⟨-, b, hb, hstate, hbo, hbs⟩ := h.live_block r hr
    have hdvd := htiles.dvd_offset (dvd_zero 16) h.consistent.aligned b hb
    have hbounds := htiles.mem_bounds hb
    exact ⟨hbo ▸ hdvd, by omega, b, hb, hstate, hbo, hbs⟩
  · intro f hf hunread b hb hstate
    obtain ⟨-, hread | hblock⟩ := h.fenced f hf
    · omega
    · rcases htiles.disjoint_or_eq hb hblock with rfl | hdisj
      · simp [fenceBlock] at hstate
      · exact hdisj

end Chromium.FencedAllocator
