import Chromium.CommandTokens
import Chromium.Tiling
import Chromium.Runs

/-!
# The fenced allocator

A first-fit allocator over a buffer it never touches: the book-keeping is a
vector of blocks in offset order. A block is freed at once, or pending a token of
the command stream, in which case it is reused only after the token was read.

Sizes are requested as 32-bit values and rounded with 32-bit arithmetic. Offsets
and sizes of blocks are natural numbers: they never exceed the buffer size.
-/
namespace Chromium.FencedAllocator
open CommandTokens Tiling Runs

/-- Status of a block of memory. -/
inductive State
  | inUse
  | free
  | freePendingToken
  deriving DecidableEq, Repr

/-- Book-keeping of one block; `token` matters only while it is pending. -/
structure Block where
  state : State
  offset : ℕ
  size : ℕ
  token : ℕ
  deriving DecidableEq, Repr

/-- Allocation alignment, a power of two. -/
def kAllocAlignment : UInt32 := 16

def kUnusedToken : ℕ := 0

/-- Round down to a multiple of the alignment. -/
def roundDown (size : UInt32) : UInt32 := size &&& ~~~(kAllocAlignment - 1)

/-- Round up to a multiple of the alignment, in 32-bit arithmetic. -/
def roundUp (size : UInt32) : UInt32 :=
  (size + (kAllocAlignment - 1)) &&& ~~~(kAllocAlignment - 1)

/-- Clearing the low bits is rounding down. -/
lemma and_alignment_mask (x : UInt32) :
    (x &&& ~~~(kAllocAlignment - 1)).toNat = x.toNat / 16 * 16 := by
  have hmask : (~~~(kAllocAlignment - 1) : UInt32).toNat = (2 ^ 28 - 1) <<< 4 := by decide
  have hshift : x.toNat / 16 * 16 = (x.toNat >>> 4) <<< 4 := by
    simp [Nat.shiftRight_eq_div_pow, Nat.shiftLeft_eq]
  rw [UInt32.toNat_and, hmask, hshift]
  refine Nat.eq_of_testBit_eq fun i => ?_
  simp only [Nat.testBit_and, Nat.testBit_shiftLeft, Nat.testBit_shiftRight,
    Nat.testBit_two_pow_sub_one]
  by_cases hi : 4 ≤ i
  · by_cases h32 : i < 32
    · have : i - 4 < 28 := by omega
      simp [hi, this]
    · have : x.toNat.testBit i = false :=
        Nat.testBit_lt_two_pow (x.toNat_lt.trans_le (Nat.pow_le_pow_right (by omega) (by omega)))
      simp [hi, this]
  · simp [hi]

lemma roundDown_toNat (size : UInt32) : (roundDown size).toNat = size.toNat / 16 * 16 := by
  rw [roundDown, and_alignment_mask]

lemma roundUp_toNat (size : UInt32) :
    (roundUp size).toNat = (size.toNat + 15) % 2 ^ 32 / 16 * 16 := by
  rw [roundUp, and_alignment_mask, UInt32.toNat_add]
  rfl

/-- The allocator, with the token counter of its helper. -/
structure Allocator where
  blocks : List Block
  bytesInUse : ℕ
  tokens : Tokens

/-- The constructor: one free block. -/
def Allocator.initial (size : UInt32) (tokens : Tokens) : Allocator where
  blocks := [⟨.free, 0, (roundDown size).toNat, kUnusedToken⟩]
  bytesInUse := 0
  tokens := tokens

/-- Collapse a block with the next one and then with the previous one, when
these are free. Returns the vector and the index of the collapsed block. -/
def collapseFreeBlock (blocks : List Block) (index : ℕ) : List Block × ℕ :=
  let blocks := match blocks[index + 1]? with
    | some next =>
      if next.state = .free then
        (blocks.modify index fun b => { b with size := b.size + next.size }).eraseIdx (index + 1)
      else blocks
    | none => blocks
  match index with
  | 0 => (blocks, 0)
  | i + 1 =>
    match blocks[i]?, blocks[i + 1]? with
    | some prev, some block =>
      if prev.state = .free then
        ((blocks.modify i fun p => { p with size := p.size + block.size }).eraseIdx (i + 1), i)
      else (blocks, i + 1)
    | _, _ => (blocks, i + 1)

/-- Mark a block free and collapse it. -/
def freeBlock (blocks : List Block) (index : ℕ) : List Block × ℕ :=
  collapseFreeBlock (blocks.modify index fun b => { b with state := .free }) index

/-- Wait for the block's token, then free and collapse it. -/
def waitForTokenAndFreeBlock (service : ℕ → ℕ) (a : Allocator) (index : ℕ) : Allocator × ℕ :=
  match a.blocks[index]? with
  | some block =>
    let collapsed := freeBlock a.blocks index
    ({ a with
        blocks := collapsed.1
        tokens := a.tokens.waitForToken service block.token }, collapsed.2)
  | none => (a, index)

/-- Use a free block of exactly the requested size, or split a larger one. -/
def allocInBlock (a : Allocator) (index size : ℕ) : Allocator × Option ℕ :=
  match a.blocks[index]? with
  | some block =>
    let bytesInUse := a.bytesInUse + size
    if block.size = size then
      ({ a with
          blocks := a.blocks.modify index fun b => { b with state := .inUse }
          bytesInUse := bytesInUse }, some block.offset)
    else
      let newblock : Block :=
        ⟨.free, block.offset + size, block.size - size, kUnusedToken⟩
      ({ a with
          blocks := (a.blocks.modify index
            fun b => { b with state := .inUse, size := size }).insertIdx (index + 1) newblock
          bytesInUse := bytesInUse }, some block.offset)
  | none => (a, none)

/-- No two neighbours are both free. -/
def Separated (blocks : List Block) : Prop :=
  blocks.IsChain fun a b => ¬ (a.state = .free ∧ b.state = .free)

lemma separated_around {pre post : List Block} {b : Block} (hpre : Separated pre)
    (hpost : Separated post) (hl : b.state = .free → ∀ p ∈ pre.getLast?, p.state ≠ .free)
    (hr : b.state = .free → ∀ c ∈ post.head?, c.state ≠ .free) :
    Separated (pre ++ b :: post) := by
  refine List.isChain_append.mpr ⟨hpre, List.isChain_cons.mpr ⟨?_, hpost⟩, ?_⟩
  · rintro c hc ⟨hb, hfree⟩
    exact hr hb c hc hfree
  · intro p hp c hc
    simp only [List.head?_cons, Option.mem_def, Option.some.injEq] at hc
    subst hc
    rintro ⟨hfree, hb⟩
    exact hl hb p hp hfree

/-- What absorbing a free next block does to the block and to the tail. -/
def absorbNext (b : Block) : List Block → Block × List Block
  | c :: post =>
    if c.state = .free then ({ b with size := b.size + c.size }, post) else (b, c :: post)
  | [] => (b, [])

lemma collapseFreeBlock_focus (pre post : List Block) (b : Block) :
    collapseFreeBlock (pre ++ b :: post) pre.length =
      match pre.getLast? with
      | some p =>
        if p.state = .free then
          (pre.dropLast ++ { p with size := p.size + (absorbNext b post).1.size } ::
            (absorbNext b post).2, pre.length - 1)
        else (pre ++ (absorbNext b post).1 :: (absorbNext b post).2, pre.length)
      | none => (pre ++ (absorbNext b post).1 :: (absorbNext b post).2, pre.length) := by
  have hnext : (match (pre ++ b :: post)[pre.length + 1]? with
      | some next =>
        if next.state = .free then
          ((pre ++ b :: post).modify pre.length
            fun b => { b with size := b.size + next.size }).eraseIdx (pre.length + 1)
        else pre ++ b :: post
      | none => pre ++ b :: post) =
      pre ++ (absorbNext b post).1 :: (absorbNext b post).2 := by
    cases post with
    | nil => simp [absorbNext]
    | cons c post =>
      by_cases hc : c.state = .free
      · simp [absorbNext, hc, List.modify_eq_set_getElem?, List.eraseIdx_append]
      · simp [absorbNext, hc]
  unfold collapseFreeBlock
  rw [hnext]
  rcases List.eq_nil_or_concat pre with rfl | ⟨pre', p, rfl⟩
  · rfl
  · simp only [List.concat_eq_append, List.length_append, List.length_cons, List.length_nil,
      zero_add, List.append_assoc, List.cons_append, List.nil_append,
      List.getLast?_append, List.getLast?_singleton, Option.some_or, List.dropLast_concat]
    by_cases hp : p.state = .free
    · simp [hp, List.modify_eq_set_getElem?, List.eraseIdx_append]
    · simp [hp]

/-- The tail splits into the absorbed free block, if any, and a tail that does
not start with a free block. -/
lemma absorbNext_spec {post : List Block} (b : Block) (hpost : Separated post) :
    ∃ right post', post = right ++ post' ∧
      absorbNext b post = ({ b with size := b.size + (right.map Block.size).sum }, post') ∧
      (∀ x ∈ right, x.state = .free) ∧ Separated post' ∧
      ∀ c ∈ post'.head?, c.state ≠ .free := by
  cases post with
  | nil => exact ⟨[], [], rfl, by simp [absorbNext], by simp, hpost, by simp⟩
  | cons c post =>
    obtain ⟨hhead, htail⟩ := List.isChain_cons.mp hpost
    by_cases hc : c.state = .free
    · refine ⟨[c], post, rfl, by simp [absorbNext, hc], by simpa using hc, htail, ?_⟩
      intro d hd hfree
      exact hhead d hd ⟨hc, hfree⟩
    · exact ⟨[], c :: post, rfl, by simp [absorbNext, hc], by simp, hpost, by simpa using hc⟩

/-- Freeing a block replaces it and its free neighbours by one free block. -/
lemma freeBlock_focus {pre post : List Block} (b : Block) (hpre : Separated pre)
    (hpost : Separated post) :
    ∃ pre' left right post' m, pre = pre' ++ left ∧ post = right ++ post' ∧
      freeBlock (pre ++ b :: post) pre.length = (pre' ++ m :: post', pre'.length) ∧
      (∀ x ∈ left ++ right, x.state = .free) ∧ m.state = .free ∧
      (∀ o e, Tiles Block.offset Block.size o (left ++ b :: right) e →
        Tiles Block.offset Block.size o [m] e) ∧
      Separated (pre' ++ m :: post') := by
  obtain ⟨right, post', hsplit, habsorb, hright, hpost', hhead⟩ :=
    absorbNext_spec { b with state := .free } hpost
  have hfocus : freeBlock (pre ++ b :: post) pre.length =
      collapseFreeBlock (pre ++ { b with state := .free } :: post) pre.length := by
    simp [freeBlock, List.modify_eq_set_getElem?]
  rw [collapseFreeBlock_focus, habsorb] at hfocus
  rcases List.eq_nil_or_concat pre with rfl | ⟨pre', p, rfl⟩
  · refine ⟨[], [], right, post', _, rfl, hsplit, hfocus, by simpa using hright, rfl, ?_,
      separated_around hpre hpost' (by simp) (fun _ => hhead)⟩
    intro o e ht
    have hsum := ht.2.sum_size
    simp only [List.nil_append, tiles_cons] at ht
    simp only [tiles_cons, tiles_nil]
    exact ⟨ht.1, by omega⟩
  · simp only [List.concat_eq_append] at hpre hfocus ⊢
    have hpre' : Separated pre' := (List.isChain_append.mp hpre).1
    by_cases hp : p.state = .free
    · simp only [List.getLast?_append, List.getLast?_singleton, Option.some_or, hp, if_pos,
        List.dropLast_concat, List.length_append, List.length_singleton,
        Nat.add_sub_cancel] at hfocus
      refine ⟨pre', [p], right, post',
        { p with size := p.size + (b.size + (right.map Block.size).sum) }, rfl, hsplit,
        by simpa [hp] using hfocus, ?_, hp, ?_, ?_⟩
      · intro x hx
        rcases List.mem_append.mp hx with hx | hx
        · simpa [List.mem_singleton.mp hx] using hp
        · exact hright x hx
      · intro o e ht
        simp only [List.cons_append, List.nil_append, tiles_cons] at ht
        have hsum := ht.2.2.sum_size
        simp only [tiles_cons, tiles_nil]
        exact ⟨ht.1, by omega⟩
      · refine separated_around hpre' hpost' (fun _ q hq hfree => ?_) (fun _ => hhead)
        exact (List.isChain_append.mp hpre).2.2 q hq p (by simp) ⟨hfree, hp⟩
    · simp only [List.getLast?_append, List.getLast?_singleton, Option.some_or, hp, if_neg,
        not_false_eq_true] at hfocus
      refine ⟨pre' ++ [p], [], right, post', _, by simp, hsplit, hfocus,
        by simpa using hright, rfl, ?_, separated_around hpre hpost' (by simpa using hp)
        (fun _ => hhead)⟩
      intro o e ht
      have hsum := ht.2.sum_size
      simp only [List.nil_append, tiles_cons] at ht
      simp only [tiles_cons, tiles_nil]
      exact ⟨ht.1, by omega⟩

lemma split_at {blocks : List Block} {i : ℕ} {b : Block} (h : blocks[i]? = some b) :
    ∃ pre post, blocks = pre ++ b :: post ∧ pre.length = i := by
  obtain ⟨hi, hb⟩ := List.getElem?_eq_some_iff.mp h
  refine ⟨blocks.take i, blocks.drop (i + 1), ?_, by simp; omega⟩
  rw [← hb, List.getElem_cons_drop, List.take_append_drop]

/-- The number of blocks waiting for a token. -/
def pendingCount (blocks : List Block) : ℕ :=
  blocks.countP fun b => b.state = .freePendingToken

lemma absorbNext_length (b : Block) (post : List Block) :
    (absorbNext b post).2.length ≤ post.length := by
  unfold absorbNext
  split
  · split_ifs <;> simp
  · simp

lemma absorbNext_state (b : Block) (post : List Block) :
    (absorbNext b post).1.state = b.state := by
  unfold absorbNext
  split
  · split_ifs <;> rfl
  · rfl

lemma absorbNext_pendingCount (b : Block) (post : List Block) :
    pendingCount (absorbNext b post).2 = pendingCount post := by
  unfold absorbNext
  split
  · split_ifs with hc
    · simp [pendingCount, hc]
    · rfl
  · rfl

/-- Freeing a block never moves the scan position away from the end, and leaves
one pending block less when the block was pending. -/
lemma freeBlock_measure {blocks : List Block} {i : ℕ} {b : Block} (h : blocks[i]? = some b) :
    (freeBlock blocks i).1.length - (freeBlock blocks i).2 ≤ blocks.length - i ∧
      (freeBlock blocks i).2 < (freeBlock blocks i).1.length ∧
      (b.state = .freePendingToken →
        pendingCount (freeBlock blocks i).1 + 1 = pendingCount blocks) := by
  obtain ⟨pre, post, rfl, rfl⟩ := split_at h
  have hfocus : freeBlock (pre ++ b :: post) pre.length =
      collapseFreeBlock (pre ++ { b with state := .free } :: post) pre.length := by
    simp [freeBlock, List.modify_eq_set_getElem?]
  have hlen := absorbNext_length { b with state := .free } post
  have hcount := absorbNext_pendingCount { b with state := .free } post
  have hstate := absorbNext_state { b with state := .free } post
  rw [hfocus, collapseFreeBlock_focus]
  rcases List.eq_nil_or_concat pre with rfl | ⟨pre', p, rfl⟩
  · simp only [List.getLast?_nil, List.nil_append, List.length_cons, List.length_nil]
    refine ⟨by omega, by omega, fun hb => ?_⟩
    simp only [pendingCount, List.countP_cons] at hcount ⊢
    simp only at hstate
    simp [hstate, hb, hcount]
  · simp only [List.concat_eq_append, List.getLast?_append, List.getLast?_singleton,
      Option.some_or, List.dropLast_concat]
    split_ifs with hp
    · simp only [List.length_append, List.length_cons, List.length_nil]
      refine ⟨by omega, by omega, fun hb => ?_⟩
      simp only [pendingCount, List.countP_append, List.countP_cons, List.countP_nil] at hcount ⊢
      simp only [hp, hb, hcount]
      simp
      omega
    · simp only [List.length_append, List.length_cons, List.length_nil]
      refine ⟨by omega, by omega, fun hb => ?_⟩
      simp only [pendingCount, List.countP_append, List.countP_cons, List.countP_nil] at hcount ⊢
      simp only at hstate
      simp only [hstate, hb, hcount]
      simp
      omega

/-- The second loop of `Alloc`, from index `i` on: wait for each pending block
in turn until one, collapsed, is large enough. -/
def allocPending (service : ℕ → ℕ) (a : Allocator) (size i : ℕ) : Allocator × Option ℕ :=
  match _h : a.blocks[i]? with
  | none => (a, none)
  | some block =>
    if block.state ≠ .freePendingToken then allocPending service a size (i + 1)
    else
      let waited := waitForTokenAndFreeBlock service a i
      if (waited.1.blocks[waited.2]?).any fun b => size ≤ b.size then
        allocInBlock waited.1 waited.2 size
      else allocPending service waited.1 size (waited.2 + 1)
termination_by a.blocks.length - i
decreasing_by
  · have := (List.getElem?_eq_some_iff.mp _h).1
    omega
  · have hm := freeBlock_measure _h
    simp only [waitForTokenAndFreeBlock, _h]
    omega

/-- First fit among the free blocks, then among the pending ones. `none` stands
for `kInvalidOffset`. -/
def alloc (service : ℕ → ℕ) (a : Allocator) (size : UInt32) : Allocator × Option ℕ :=
  if size = 0 then (a, none)
  else
    let size := (roundUp size).toNat
    match a.blocks.findIdx? fun b => b.state = .free ∧ size ≤ b.size with
    | some i => allocInBlock a i size
    | none => allocPending service a size 0

/-- `std::lower_bound` by offset. -/
def getBlockByOffset (blocks : List Block) (offset : ℕ) : ℕ :=
  blocks.findIdx fun b => offset ≤ b.offset

/-- Mark the block free and collapse it. -/
def free (a : Allocator) (offset : ℕ) : Allocator :=
  let index := getBlockByOffset a.blocks offset
  match a.blocks[index]? with
  | some block =>
    { a with
      bytesInUse := if block.state = .inUse then a.bytesInUse - block.size else a.bytesInUse
      blocks := (freeBlock a.blocks index).1 }
  | none => a

/-- Mark the block free once its token has been read. -/
def freePendingToken (a : Allocator) (offset token : ℕ) : Allocator :=
  let index := getBlockByOffset a.blocks offset
  match a.blocks[index]? with
  | some block =>
    { a with
      bytesInUse := if block.state = .inUse then a.bytesInUse - block.size else a.bytesInUse
      blocks := a.blocks.modify index fun b =>
        { b with state := .freePendingToken, token := token } }
  | none => a

/-- The scan of `FreeUnused`, from index `i` on. -/
def freeUnusedLoop (lastTokenRead : ℕ) (blocks : List Block) (i : ℕ) : List Block :=
  match _h : blocks[i]? with
  | none => blocks
  | some block =>
    if _hp : block.state = .freePendingToken ∧ block.token ≤ lastTokenRead then
      freeUnusedLoop lastTokenRead (freeBlock blocks i).1 (freeBlock blocks i).2
    else freeUnusedLoop lastTokenRead blocks (i + 1)
termination_by pendingCount blocks + (blocks.length - i)
decreasing_by
  · have hm := freeBlock_measure _h
    have := hm.2.2 _hp.1
    omega
  · have := (List.getElem?_eq_some_iff.mp _h).1
    omega

/-- Free the pending blocks whose token has been read. -/
def freeUnused (a : Allocator) : Allocator :=
  { a with blocks := freeUnusedLoop a.tokens.lastTokenRead a.blocks 0 }

end Chromium.FencedAllocator
