import Chromium.Segments
import Chromium.FencedAllocatorRuns

/-!
# What the fenced allocator can still give out

`GetLargestFreeSize` and `GetLargestFreeOrPendingSize` scan the blocks once. `Alloc` waits for one
pending block after another and collapses what it frees.
-/
namespace Chromium.FencedAllocator

open CommandTokens Tiling Segments

/-- One block in the scan of `GetLargestFreeSize`. -/
def scanFree (maxSize : ℕ) (block : Block) : ℕ :=
  if block.state = .free then max maxSize block.size else maxSize

/-- `GetLargestFreeSize`, without the `FreeUnused` that comes first. -/
def largestFreeSize (blocks : List Block) : ℕ := blocks.foldl scanFree 0

/-- `GetLargestFreeSize` -/
def getLargestFreeSize (a : Allocator) : Allocator × ℕ :=
  (freeUnused a, largestFreeSize (freeUnused a).blocks)

/-- One block in the scan of `GetLargestFreeOrPendingSize`: the largest segment so far, and the
size of the current one. -/
def scanSegment (acc : ℕ × ℕ) (block : Block) : ℕ × ℕ :=
  if block.state = .inUse then (max acc.1 acc.2, 0) else (acc.1, acc.2 + block.size)

/-- `GetLargestFreeOrPendingSize` -/
def getLargestFreeOrPendingSize (a : Allocator) : ℕ :=
  let acc := a.blocks.foldl scanSegment (0, 0)
  max acc.1 acc.2

/-- A call of the allocator, or progress of the tokens. Offsets and tokens are what the caller
makes of them. -/
inductive Call
  | alloc (service : ℕ → ℕ) (size : UInt32)
  | free (offset : ℕ)
  | freePendingToken (offset token : ℕ)
  | freeUnused
  | tokens (tokens : Tokens)

def Allocator.call (a : Allocator) : Call → Allocator
  | .alloc service size => (alloc service a size).1
  | .free offset => free a offset
  | .freePendingToken offset token => freePendingToken a offset token
  | .freeUnused => freeUnused a
  | .tokens tokens => { a with tokens := tokens }

/-! ### The blocks in any run of calls -/

/-- The blocks cover the buffer, and no free block has a free neighbour. -/
structure Laid (size : ℕ) (blocks : List Block) : Prop where
  tiles : Tiles Block.offset Block.size 0 blocks size
  separated : Separated blocks

variable {size n : ℕ} {blocks pre post : List Block} {b : Block} {a : Allocator}

/-- What freeing does to the blocks around. -/
lemma Laid.freeBlock (h : Laid size (pre ++ b :: post)) :
    ∃ pre' left right post' m, pre = pre' ++ left ∧ post = right ++ post' ∧
      freeBlock (pre ++ b :: post) pre.length = (pre' ++ m :: post', pre'.length) ∧
      (∀ x ∈ left ++ right, x.state = .free) ∧ m.state = .free ∧
      m.size = ((left ++ b :: right).map Block.size).sum ∧ Laid size (pre' ++ m :: post') := by
  obtain ⟨hpre, hrest, -⟩ := List.isChain_append.mp h.separated
  obtain ⟨-, hpost⟩ := List.isChain_cons.mp hrest
  obtain ⟨pre', left, right, post', m, rfl, rfl, hfree, hstates, hm, htiles, hseparated⟩ :=
    freeBlock_focus b hpre hpost
  have hwhole : Tiles Block.offset Block.size 0 (pre' ++ ((left ++ b :: right) ++ post')) size := by
    simpa [List.append_assoc] using h.tiles
  obtain ⟨o, hpre', hrest'⟩ := (tiles_append ..).mp hwhole
  obtain ⟨e, hseg, hpost'⟩ := (tiles_append ..).mp hrest'
  have hmerged := htiles o e hseg
  refine ⟨pre', left, right, post', m, rfl, rfl, hfree, hstates, hm, ?_, ?_, hseparated⟩
  · have hsum := hseg.sum_size
    rw [tiles_cons, tiles_nil] at hmerged
    omega
  · rw [tiles_append]
    refine ⟨o, hpre', ?_⟩
    have happend := tiles_append Block.offset Block.size o size [m] post'
    exact happend.mpr ⟨e, hmerged, hpost'⟩

/-- A block whose state changes, but not to free. -/
lemma Laid.changeState (h : Laid size (pre ++ b :: post)) {c : Block}
    (hoffset : c.offset = b.offset) (hsize : c.size = b.size) (hstate : c.state ≠ .free) :
    Laid size (pre ++ c :: post) := by
  obtain ⟨hpre, hrest, -⟩ := List.isChain_append.mp h.separated
  have hpost := (List.isChain_cons.mp hrest).2
  refine ⟨?_, separated_around hpre hpost (fun hfree => absurd hfree hstate)
    (fun hfree => absurd hfree hstate)⟩
  have htiles := h.tiles
  rw [tiles_append] at htiles ⊢
  simpa [hoffset, hsize] using htiles

lemma Laid.allocInBlock (h : Laid size a.blocks) (ha : a.blocks = pre ++ b :: post)
    (hb : b.state = .free) (hle : n ≤ b.size) :
    Laid size (allocInBlock a pre.length n).1.blocks ∧
      (FencedAllocator.allocInBlock a pre.length n).2 = some b.offset := by
  rw [ha] at h
  by_cases hsize : b.size = n
  · have hexact : FencedAllocator.allocInBlock a pre.length n =
        ({ a with
            blocks := pre ++ { b with state := .inUse } :: post
            bytesInUse := a.bytesInUse + n }, some b.offset) := by
      simp [FencedAllocator.allocInBlock, ha, hsize, List.modify_eq_set_getElem?]
    rw [hexact]
    exact ⟨h.changeState rfl rfl (by simp), rfl⟩
  · have hsplit : FencedAllocator.allocInBlock a pre.length n =
        ({ a with
            blocks := pre ++ { b with state := .inUse, size := n } ::
              ⟨.free, b.offset + n, b.size - n, kUnusedToken⟩ :: post
            bytesInUse := a.bytesInUse + n }, some b.offset) := by
      simp [FencedAllocator.allocInBlock, ha, hsize, List.modify_eq_set_getElem?, insertIdx_focus]
    rw [hsplit]
    obtain ⟨hpre, hrest, -⟩ := List.isChain_append.mp h.separated
    obtain ⟨hhead, hpost⟩ := List.isChain_cons.mp hrest
    refine ⟨⟨?_, separated_around hpre (List.isChain_cons.mpr ⟨?_, hpost⟩) (by simp) (by simp)⟩,
      rfl⟩
    · have htiles := h.tiles
      rw [tiles_append] at htiles ⊢
      obtain ⟨o, hpre', hoffset, hpost'⟩ := htiles
      refine ⟨o, hpre', hoffset, by rw [hoffset], ?_⟩
      have hend : o + n + (b.size - n) = o + b.size := by omega
      simpa only [hend] using hpost'
    · rintro c hc ⟨-, hfree⟩
      exact hhead c hc ⟨hb, hfree⟩

/-- What a wait for a pending block makes of the blocks. -/
lemma Laid.waitForTokenAndFreeBlock (h : Laid size a.blocks) (service : ℕ → ℕ) {i : ℕ}
    (hget : a.blocks[i]? = some b) (hb : b.state = .freePendingToken) :
    ∃ pre m post, m.state = .free ∧
      (waitForTokenAndFreeBlock service a i).2 = pre.length ∧
      (FencedAllocator.waitForTokenAndFreeBlock service a i).1.blocks = pre ++ m :: post ∧
      Laid size (pre ++ m :: post) ∧ pre <+: a.blocks.take i ∧ post <:+ a.blocks ∧
      largestSegment (fun b => b.state ≠ .inUse) Block.size 0 (pre ++ m :: post) =
        largestSegment (fun b => b.state ≠ .inUse) Block.size 0 a.blocks := by
  obtain ⟨pre, post, hsplit, rfl⟩ := split_at hget
  rw [hsplit] at h
  obtain ⟨pre', left, right, post', m, hpre, hpost, hfree, hstates, hm, hsize, hlaid⟩ :=
    h.freeBlock
  refine ⟨pre', m, post', hm, ?_, ?_, hlaid, ?_, ?_, ?_⟩
  · simp only [FencedAllocator.waitForTokenAndFreeBlock, hget]
    rw [hsplit, hfree]
  · simp only [FencedAllocator.waitForTokenAndFreeBlock, hget]
    rw [hsplit, hfree]
  · rw [hsplit, List.take_left, hpre]
    exact List.prefix_append pre' left
  · exact ⟨pre ++ b :: right, by rw [hsplit, hpost, List.append_assoc, List.cons_append]⟩
  · have hseg : ∀ x ∈ left ++ b :: right, x.state ≠ .inUse := by
      intro x hx
      rcases List.mem_append.mp hx with hx | hx
      · rw [hstates x (List.mem_append_left right hx)]
        decide
      · rcases List.mem_cons.mp hx with rfl | hx
        · rw [hb]
          decide
        · rw [hstates x (List.mem_append_right left hx)]
          decide
    rw [largestSegment_merge hseg (by rw [hm]; decide) hsize, hsplit, hpre, hpost]
    simp only [List.append_assoc, List.cons_append]

lemma Laid.allocPending (h : Laid size a.blocks) (service : ℕ → ℕ) (n i : ℕ) :
    Laid size (allocPending service a n i).1.blocks := by
  induction a, i using FencedAllocator.allocPending.induct service n with
  | case1 a i hnone =>
    rw [FencedAllocator.allocPending]
    split
    · exact h
    · simp_all
  | case2 a i b hget hstate ih =>
    rw [FencedAllocator.allocPending]
    split
    · simp_all
    · next b' hget' =>
      obtain rfl : b = b' := by simpa [hget] using hget'
      simpa [hstate] using ih h
  | case3 a i b hget hstate waited hfit =>
    rw [FencedAllocator.allocPending]
    split
    · simp_all
    · next b' hget' =>
      obtain rfl : b = b' := by simpa [hget] using hget'
      obtain ⟨pre, m, post, hm, hpos, hblocks, hlaid, -, -, -⟩ :=
        h.waitForTokenAndFreeBlock service hget (not_not.mp hstate)
      have hle : n ≤ m.size := by simpa [waited, hpos, hblocks] using hfit
      simp only [hstate, if_false, waited, hfit, if_true]
      rw [hpos]
      exact (Laid.allocInBlock (hblocks ▸ hlaid) hblocks hm hle).1
  | case4 a i b hget hstate waited hfit ih =>
    rw [FencedAllocator.allocPending]
    split
    · simp_all
    · next b' hget' =>
      obtain rfl : b = b' := by simpa [hget] using hget'
      obtain ⟨pre, m, post, hm, hpos, hblocks, hlaid, -, -, -⟩ :=
        h.waitForTokenAndFreeBlock service hget (not_not.mp hstate)
      simp only [hstate, if_false, waited, hfit]
      exact ih (hblocks ▸ hlaid)

/-- The second loop succeeds exactly if there is a segment to wait for: no block before the index
is pending, and no free block is large enough. -/
lemma Laid.allocPending_isSome (h : Laid size a.blocks) (service : ℕ → ℕ) (hn : 0 < n) {i : ℕ}
    (hbefore : ∀ b ∈ a.blocks.take i, b.state ≠ .freePendingToken)
    (hsmall : ∀ b ∈ a.blocks, b.state = .free → b.size < n) :
    (FencedAllocator.allocPending service a n i).2.isSome ↔
      n ≤ largestSegment (fun b => b.state ≠ .inUse) Block.size 0 a.blocks := by
  induction a, i using FencedAllocator.allocPending.induct service n with
  | case1 a i hnone =>
    rw [FencedAllocator.allocPending]
    split
    · -- nothing is pending any more, so every segment is one free block
      rw [List.take_of_length_le (List.getElem?_eq_none_iff.mp hnone)] at hbefore
      have hfree : ∀ b ∈ a.blocks, b.state ≠ .inUse → b.state = .free := by
        intro b hb hinUse
        have hpending := hbefore b hb
        cases hstate : b.state with
        | inUse => exact absurd hstate hinUse
        | free => rfl
        | freePendingToken => exact absurd hstate hpending
      have hlt : largestSegment (fun b => b.state ≠ .inUse) Block.size 0 a.blocks < n := by
        refine largestSegment_lt_of_isChain hn ?_ fun b hb hinUse =>
          hsmall b hb (hfree b hb hinUse)
        refine List.IsChain.imp_of_mem_imp ?_ h.separated
        rintro b c hb hc hnot ⟨hb', hc'⟩
        exact hnot ⟨hfree b hb hb', hfree c hc hc'⟩
      simpa using hlt
    · simp_all
  | case2 a i b hget hstate ih =>
    rw [FencedAllocator.allocPending]
    split
    · simp_all
    · next b' hget' =>
      obtain rfl : b = b' := by simpa [hget] using hget'
      simp only [hstate, ne_eq, not_false_eq_true, if_true]
      refine ih h ?_ hsmall
      intro c hc
      rw [List.take_add_one, hget, Option.toList_some, List.mem_append, List.mem_singleton] at hc
      rcases hc with hc | rfl
      · exact hbefore c hc
      · exact hstate
  | case3 a i b hget hstate waited hfit =>
    rw [FencedAllocator.allocPending]
    split
    · simp_all
    · next b' hget' =>
      obtain rfl : b = b' := by simpa [hget] using hget'
      obtain ⟨pre, m, post, hm, hpos, hblocks, hlaid, -, -, hlargest⟩ :=
        h.waitForTokenAndFreeBlock service hget (not_not.mp hstate)
      have hle : n ≤ m.size := by simpa [waited, hpos, hblocks] using hfit
      simp only [hstate, if_false, waited, hfit, if_true]
      rw [hpos, (Laid.allocInBlock (hblocks ▸ hlaid) hblocks hm hle).2, ← hlargest]
      have hmem : m ∈ pre ++ m :: post := List.mem_append_right pre List.mem_cons_self
      refine iff_of_true rfl (hle.trans ?_)
      exact le_largestSegment_of_mem (fun b => b.state ≠ .inUse) Block.size hmem (by simp [hm]) 0
  | case4 a i b hget hstate waited hfit ih =>
    rw [FencedAllocator.allocPending]
    split
    · simp_all
    · next b' hget' =>
      obtain rfl : b = b' := by simpa [hget] using hget'
      obtain ⟨pre, m, post, hm, hpos, hblocks, hlaid, hpre, hsuffix, hlargest⟩ :=
        h.waitForTokenAndFreeBlock service hget (not_not.mp hstate)
      have hlt : m.size < n := by simpa [waited, hpos, hblocks] using hfit
      simp only [hstate, if_false, waited, hfit]
      rw [← hlargest, ← hblocks]
      refine ih (hblocks ▸ hlaid) ?_ ?_
      · intro c hc
        rw [hpos, hblocks, List.take_add_one, List.take_left, List.mem_append] at hc
        rcases hc with hc | hc
        · exact hbefore c (hpre.subset hc)
        · obtain rfl : c = m := by simpa using hc
          rw [hm]
          decide
      · intro c hc hfree
        rw [hblocks, List.mem_append, List.mem_cons] at hc
        rcases hc with hc | rfl | hc
        · exact hsmall c (List.mem_of_mem_take (hpre.subset hc)) hfree
        · exact hlt
        · exact hsmall c (hsuffix.subset hc) hfree

lemma Laid.alloc (h : Laid size a.blocks) (service : ℕ → ℕ) (k : UInt32) :
    Laid size (alloc service a k).1.blocks := by
  unfold FencedAllocator.alloc
  split_ifs with hzero
  · exact h
  dsimp only
  split
  · next i hfind =>
    obtain ⟨hi, hb, -⟩ := List.findIdx?_eq_some_iff_getElem.mp hfind
    obtain ⟨pre, post, hsplit, rfl⟩ := split_at (List.getElem?_eq_getElem hi)
    simp only [decide_eq_true_eq] at hb
    exact (h.allocInBlock hsplit hb.1 hb.2).1
  · exact h.allocPending service _ 0

lemma Laid.free (h : Laid size a.blocks) (offset : ℕ) : Laid size (free a offset).blocks := by
  unfold FencedAllocator.free
  dsimp only
  split
  · next b hget =>
    obtain ⟨pre, post, hsplit, hlength⟩ := split_at hget
    rw [hsplit] at h
    obtain ⟨pre', -, -, post', m, -, -, hfree, -, -, -, hlaid⟩ := h.freeBlock
    rw [← hlength, hsplit, hfree]
    exact hlaid
  · exact h

lemma Laid.freePendingToken (h : Laid size a.blocks) (offset token : ℕ) :
    Laid size (freePendingToken a offset token).blocks := by
  unfold FencedAllocator.freePendingToken
  dsimp only
  split
  · next b hget =>
    obtain ⟨pre, post, hsplit, hlength⟩ := split_at hget
    rw [hsplit] at h
    have hmodify := h.changeState
      (c := { b with state := .freePendingToken, token := token }) rfl rfl (by simp)
    rw [← hlength, hsplit]
    simpa [List.modify_eq_set_getElem?] using hmodify
  · exact h

lemma Laid.freeUnusedLoop (lastTokenRead : ℕ) (h : Laid size blocks) (i : ℕ) :
    Laid size (freeUnusedLoop lastTokenRead blocks i) := by
  induction blocks, i using FencedAllocator.freeUnusedLoop.induct lastTokenRead with
  | case1 blocks i hnone =>
    rw [FencedAllocator.freeUnusedLoop]
    split
    · exact h
    · simp_all
  | case2 blocks i b hget hpend ih =>
    rw [FencedAllocator.freeUnusedLoop]
    split
    · simp_all
    · next b' hget' =>
      obtain rfl : b = b' := by simpa [hget] using hget'
      rw [dif_pos hpend]
      obtain ⟨pre, post, hsplit, rfl⟩ := split_at hget
      refine ih ?_
      rw [hsplit] at h ⊢
      obtain ⟨pre', -, -, post', m, -, -, hfree, -, -, -, hlaid⟩ := h.freeBlock
      rw [hfree]
      exact hlaid
  | case3 blocks i b hget hpend ih =>
    rw [FencedAllocator.freeUnusedLoop]
    split
    · simp_all
    · next b' hget' =>
      obtain rfl : b = b' := by simpa [hget] using hget'
      rw [dif_neg hpend]
      exact ih h

/-- What one call keeps. -/
lemma Laid.call (h : Laid size a.blocks) (c : Call) : Laid size (a.call c).blocks := by
  cases c with
  | alloc service k => exact h.alloc service k
  | free offset => exact h.free offset
  | freePendingToken offset token => exact h.freePendingToken offset token
  | freeUnused => exact h.freeUnusedLoop _ 0
  | tokens tokens => exact h

lemma laid_initial (k : UInt32) (tokens : Tokens) :
    Laid (roundDown k).toNat (Allocator.initial k tokens).blocks where
  tiles := ⟨rfl, by simp⟩
  separated := List.isChain_singleton _

/-- Any run of calls, also with sizes that overflow and offsets that are no block's. -/
lemma laid_run (k : UInt32) (tokens : Tokens) (calls : List Call) :
    Laid (roundDown k).toNat (calls.foldl Allocator.call (.initial k tokens)).blocks := by
  induction calls using List.reverseRecOn with
  | nil => exact laid_initial k tokens
  | append_singleton calls c ih =>
    rw [List.foldl_append]
    exact ih.call c

/-! ### The two scans -/

lemma foldl_scanSegment (blocks : List Block) (m c : ℕ) :
    max (blocks.foldl scanSegment (m, c)).1 (blocks.foldl scanSegment (m, c)).2 =
      max m (largestSegment (fun b => b.state ≠ .inUse) Block.size c blocks) := by
  induction blocks generalizing m c with
  | nil => rfl
  | cons b blocks ih =>
    rw [List.foldl_cons, largestSegment, scanSegment]
    by_cases hb : b.state = .inUse
    · rw [if_pos hb, if_neg (not_not.mpr hb), ih, max_assoc]
    · rw [if_neg hb, if_pos hb, ih]

lemma getLargestFreeOrPendingSize_eq (a : Allocator) :
    getLargestFreeOrPendingSize a =
      largestSegment (fun b => b.state ≠ .inUse) Block.size 0 a.blocks :=
  (foldl_scanSegment a.blocks 0 0).trans (Nat.zero_max _)

/-- What is free without waiting is free with waiting. -/
lemma largestFreeSize_le (a : Allocator) :
    largestFreeSize a.blocks ≤ getLargestFreeOrPendingSize a := by
  have hscan : ∀ (blocks : List Block) (m k : ℕ),
      (∀ b ∈ blocks, b.state = .free → b.size ≤ k) → m ≤ k → blocks.foldl scanFree m ≤ k := by
    intro blocks
    induction blocks with
    | nil => exact fun m k _ hm => hm
    | cons b blocks ih =>
      intro m k hle hm
      obtain ⟨hb, hblocks⟩ := List.forall_mem_cons.mp hle
      refine ih _ k hblocks ?_
      rw [scanFree]
      split_ifs with hfree
      · exact max_le hm (hb hfree)
      · exact hm
  rw [getLargestFreeOrPendingSize_eq]
  refine hscan a.blocks 0 _ (fun b hb hfree => ?_) (Nat.zero_le _)
  exact le_largestSegment_of_mem (fun b => b.state ≠ .inUse) Block.size hb (by simp [hfree]) 0

/-- The 32-bit sums of the scan do not overflow. -/
lemma Laid.getLargestFreeOrPendingSize_le (h : Laid size a.blocks) :
    getLargestFreeOrPendingSize a ≤ size := by
  have hsum := h.tiles.sum_size
  obtain ⟨seg, hsub, -, hseg⟩ := exists_infix_eq_largestSegment
    (fun b : Block => b.state ≠ .inUse) Block.size a.blocks
  rw [getLargestFreeOrPendingSize_eq, ← hseg]
  have hsub := (hsub.sublist.map Block.size).sum_le_sum fun x _ => Nat.zero_le x
  omega

lemma Laid.alloc_isSome (h : Laid size a.blocks) (service : ℕ → ℕ) {k : UInt32} (hk : 0 < k)
    (hround : k.toNat + 15 < 2 ^ 32) :
    (FencedAllocator.alloc service a k).2.isSome ↔
      (roundUp k).toNat ≤ getLargestFreeOrPendingSize a := by
  have hpos : 0 < (roundUp k).toNat := by
    have hk' : 0 < k.toNat := hk
    rw [roundUp_toNat, Nat.mod_eq_of_lt hround]
    omega
  have hzero : k ≠ 0 := by
    rintro rfl
    exact absurd hk (by decide)
  rw [getLargestFreeOrPendingSize_eq, FencedAllocator.alloc, if_neg hzero]
  dsimp only
  split
  · next i hfind =>
    obtain ⟨hi, hb, -⟩ := List.findIdx?_eq_some_iff_getElem.mp hfind
    simp only [decide_eq_true_eq] at hb
    obtain ⟨pre, post, hsplit, hlength⟩ := split_at (List.getElem?_eq_getElem hi)
    rw [← hlength, (h.allocInBlock hsplit hb.1 hb.2).2]
    refine iff_of_true rfl (hb.2.trans ?_)
    exact le_largestSegment_of_mem (fun b => b.state ≠ .inUse) Block.size (List.getElem_mem hi)
      (by simp [hb.1]) 0
  · next hfind =>
    refine h.allocPending_isSome service hpos (by simp) fun b hb hfree => ?_
    have hnot := List.findIdx?_eq_none_iff.mp hfind b hb
    simpa [hfree] using hnot

/-- In every state that calls reach, a request succeeds exactly if its rounded size is at most
what `GetLargestFreeOrPendingSize` returns. -/
theorem alloc_isSome_iff_le_getLargestFreeOrPendingSize (size : UInt32) (tokens : Tokens)
    (calls : List Call) (service : ℕ → ℕ) (k : UInt32) (hk : 0 < k)
    (hround : k.toNat + 15 < 2 ^ 32) :
    (alloc service (calls.foldl Allocator.call (.initial size tokens)) k).2.isSome ↔
      (roundUp k).toNat ≤
        getLargestFreeOrPendingSize (calls.foldl Allocator.call (.initial size tokens)) :=
  (laid_run size tokens calls).alloc_isSome service hk hround

/-- After two blocks were freed behind each other, one at once and one with a token. -/
theorem alloc_isSome_iff_le_getLargestFreeOrPendingSize_pending :
    (alloc id ([Call.alloc id 32, .alloc id 32, .freePendingToken 0 1, .free 32].foldl
        Allocator.call (.initial 64 Tokens.initial)) 60).2.isSome ↔
      (roundUp 60).toNat ≤ getLargestFreeOrPendingSize
        ([Call.alloc id 32, .alloc id 32, .freePendingToken 0 1, .free 32].foldl
          Allocator.call (.initial 64 Tokens.initial)) :=
  alloc_isSome_iff_le_getLargestFreeOrPendingSize 64 Tokens.initial _ id 60 (by decide) (by decide)

end Chromium.FencedAllocator
