import Chromium.CommandTokens
import Chromium.Runs

/-!
# The ring buffer allocator

Memory is handed out in ring order, one allocation at a time, and each
allocation is given back pending a token before the next one. The blocks in
use form a queue. At the end of the buffer a padding block takes up what a
request does not fit into.

Offsets and sizes are unsigned 32-bit values, here natural numbers with
explicit 32-bit sums and differences. A failed assertion is `none`.
-/
namespace Chromium.RingBuffer
open CommandTokens Tiling

/-- A 32-bit unsigned sum. -/
def add32 (a b : ℕ) : ℕ := (a + b) % 2 ^ 32

/-- A 32-bit unsigned difference. -/
def sub32 (a b : ℕ) : ℕ := (a + 2 ^ 32 - b) % 2 ^ 32

lemma add32_of_lt {a b : ℕ} (h : a + b < 2 ^ 32) : add32 a b = a + b := Nat.mod_eq_of_lt h

lemma sub32_of_le {a b : ℕ} (h : b ≤ a) (ha : a < 2 ^ 32) : sub32 a b = a - b := by
  unfold sub32
  omega

lemma sub32_add32 {a b : ℕ} (ha : a < 2 ^ 32) (hb : b < 2 ^ 32) :
    sub32 (add32 a b) b = a := by
  unfold sub32 add32
  omega

inductive State
  | inUse
  | padding
  | freePendingToken
  deriving DecidableEq, Repr

/-- Book-keeping of one block. -/
structure Block where
  offset : ℕ
  size : ℕ
  token : ℕ
  state : State
  deriving DecidableEq, Repr

/-- The allocator, with the token counter of its helper. -/
structure Ring where
  baseOffset : ℕ
  size : ℕ
  blocks : List Block
  freeOffset : ℕ
  inUseOffset : ℕ
  tokens : Tokens

/-- The constructor. -/
def Ring.initial (baseOffset size : UInt32) (tokens : Tokens) : Ring :=
  ⟨baseOffset.toNat, size.toNat, [], 0, 0, tokens⟩

/-- `in_use_offset_` and `free_offset_` once a block of `blockSize` bytes is
retired at the front. -/
def offsetsPast (size inUseOffset freeOffset blockSize : ℕ) : ℕ × ℕ :=
  let advanced := add32 inUseOffset blockSize
  let inUseOffset := if advanced = size then 0 else advanced
  -- if they match then the entire buffer is free
  if inUseOffset = freeOffset then (0, 0) else (inUseOffset, freeOffset)

/-- Retire the block at the front, waiting for its token. -/
def freeOldestBlock (service : ℕ → ℕ) (r : Ring) : Option Ring :=
  match r.blocks with
  | [] => none
  | block :: rest =>
    if block.state = .inUse then none
    else
      some { r with
        blocks := rest
        inUseOffset := (offsetsPast r.size r.inUseOffset r.freeOffset block.size).1
        freeOffset := (offsetsPast r.size r.inUseOffset r.freeOffset block.size).2
        tokens :=
          if block.state = .freePendingToken then r.tokens.waitForToken service block.token
          else r.tokens }

lemma freeOldestBlock_blocks {service : ℕ → ℕ} {r r' : Ring}
    (h : freeOldestBlock service r = some r') : r'.blocks = r.blocks.tail ∧ r.blocks ≠ [] := by
  unfold freeOldestBlock at h
  cases hb : r.blocks with
  | nil => simp [hb] at h
  | cons b rest =>
    simp only [hb] at h
    by_cases hstate : b.state = .inUse
    · simp [hstate] at h
    · simp only [hstate, if_false, Option.some.injEq] at h
      subst h
      simp

lemma freeOldestBlock_length {service : ℕ → ℕ} {r r' : Ring}
    (h : freeOldestBlock service r = some r') : r'.blocks.length < r.blocks.length := by
  obtain ⟨htail, hne⟩ := freeOldestBlock_blocks h
  have := List.length_pos_of_ne_nil hne
  rw [htail, List.length_tail]
  omega

/-- The loop of `GetLargestFreeSizeNoWaiting`: retire the blocks whose token
has been read. -/
def retirePassed (service : ℕ → ℕ) (lastTokenRead : ℕ) (r : Ring) : Ring :=
  match r.blocks with
  | [] => r
  | block :: _ =>
    if lastTokenRead < block.token ∨ block.state = .inUse then r
    else
      match _h : freeOldestBlock service r with
      | some r' => retirePassed service lastTokenRead r'
      | none => r
termination_by r.blocks.length
decreasing_by exact freeOldestBlock_length _h

lemma retirePassed_nil (service : ℕ → ℕ) (last : ℕ) {r : Ring} (h : r.blocks = []) :
    retirePassed service last r = r := by
  rw [retirePassed]
  simp [h]

lemma retirePassed_stop (service : ℕ → ℕ) {last : ℕ} {r : Ring} {b : Block} {rest : List Block}
    (h : r.blocks = b :: rest) (hstop : last < b.token ∨ b.state = .inUse) :
    retirePassed service last r = r := by
  rw [retirePassed]
  simp [h, hstop]

lemma retirePassed_step {service : ℕ → ℕ} {last : ℕ} {r r' : Ring} {b : Block}
    {rest : List Block} (h : r.blocks = b :: rest) (hgo : ¬ (last < b.token ∨ b.state = .inUse))
    (hfree : freeOldestBlock service r = some r') :
    retirePassed service last r = retirePassed service last r' := by
  rw [retirePassed]
  simp only [h, hgo, if_false]
  split
  · next r'' heq =>
    rw [hfree, Option.some.injEq] at heq
    rw [heq]
  · next hnone => simp [hfree] at hnone

/-- What the offsets say about the free space. -/
def largestFree (r : Ring) : ℕ :=
  if r.freeOffset = r.inUseOffset then
    if r.blocks = [] then r.size else 0
  else if r.inUseOffset < r.freeOffset then
    -- free from `free_offset_` to the end and from 0 to `in_use_offset_`
    max (sub32 r.size r.freeOffset) r.inUseOffset
  else sub32 r.inUseOffset r.freeOffset

/-- The size of the largest block available without waiting. -/
def getLargestFreeSizeNoWaiting (service : ℕ → ℕ) (r : Ring) : Ring × ℕ :=
  let r' := retirePassed service r.tokens.lastTokenRead r
  (r', largestFree r')

lemma retirePassed_suffix (service : ℕ → ℕ) (lastTokenRead : ℕ) (r : Ring) :
    (retirePassed service lastTokenRead r).blocks <:+ r.blocks := by
  induction r using retirePassed.induct service lastTokenRead with
  | case1 r hnil => rw [retirePassed_nil _ _ hnil]
  | case2 r b rest hcons hstop => rw [retirePassed_stop _ hcons hstop]
  | case3 r b rest hcons hgo r' hfree ih =>
    rw [retirePassed_step hcons hgo hfree]
    have htail := (freeOldestBlock_blocks hfree).1
    rw [hcons, List.tail_cons] at htail
    rw [htail] at ih
    exact hcons ▸ ih.trans (List.suffix_cons _ _)
  | case4 r b rest hcons hgo hnone =>
    rw [retirePassed]
    simp only [hcons, hgo, if_false]
    split
    · next r' hsome => simp [hnone] at hsome
    · simp [hcons]

/-- The loop of `Alloc`: wait until there is enough room. -/
def waitForRoom (service : ℕ → ℕ) (size : ℕ) (r : Ring) : Option Ring :=
  if size ≤ (getLargestFreeSizeNoWaiting service r).2 then
    some (getLargestFreeSizeNoWaiting service r).1
  else
    match _h : freeOldestBlock service (getLargestFreeSizeNoWaiting service r).1 with
    | some r' => waitForRoom service size r'
    | none => none
termination_by r.blocks.length
decreasing_by
  exact (freeOldestBlock_length _h).trans_le (retirePassed_suffix _ _ _).length_le

/-- Put the block at `free_offset_`, after padding when it does not fit before
the end. Returns the offset of the block. -/
def place (r : Ring) (size : ℕ) : Ring × ℕ :=
  let padded :=
    if r.size < add32 size r.freeOffset then
      { r with
        blocks := r.blocks ++ [⟨r.freeOffset, sub32 r.size r.freeOffset, 0, .padding⟩]
        freeOffset := 0 }
    else r
  let offset := padded.freeOffset
  let advanced := add32 padded.freeOffset size
  ({ padded with
      blocks := padded.blocks ++ [⟨offset, size, 0, .inUse⟩]
      freeOffset := if advanced = padded.size then 0 else advanced },
    offset)

/-- `Alloc`. An allocation of 0 allocates one byte. -/
def alloc (service : ℕ → ℕ) (r : Ring) (size : ℕ) : Option (Ring × ℕ) :=
  if r.size < size ∨ r.blocks.getLast?.any (fun b => b.state = .inUse) then none
  else
    (waitForRoom service (max size 1) r).map fun r' =>
      ((place r' (max size 1)).1, add32 (place r' (max size 1)).2 r.baseOffset)

/-- `FreePendingToken`. The blocks are searched from the back. -/
def freePendingToken (r : Ring) (offset token : ℕ) : Option Ring :=
  match r.blocks.reverse.span (fun b => b.offset ≠ sub32 offset r.baseOffset) with
  | (newer, block :: older) =>
    if block.state = .inUse then
      some { r with
        blocks := (newer ++
          { block with token := token, state := .freePendingToken } :: older).reverse }
    else none
  | (_, []) => none

/-- The offsets and the queue of blocks agree. Two equal offsets with no block
between them are both zero. -/
structure Consistent (size inUse free : ℕ) (blocks : List Block) : Prop where
  size_lt : size < 2 ^ 32
  free_lt : free < size
  inUse_lt : inUse < size
  nonzero : ∀ b ∈ blocks, 0 < b.size
  tiles : CircularTiles Block.offset Block.size size inUse free blocks
  empty : blocks = [] → inUse = 0 ∧ free = 0

/-- Retiring the oldest block keeps the offsets and the queue in agreement. -/
lemma Consistent.offsetsPast {size i f : ℕ} {b : Block} {rest : List Block}
    (h : Consistent size i f (b :: rest)) :
    Consistent size (RingBuffer.offsetsPast size i f b.size).1
      (RingBuffer.offsetsPast size i f b.size).2 rest := by
  obtain ⟨hsize, hf, hi, hpos, htiles, -⟩ := h
  have hbpos := hpos b (by simp)
  have hrest : ∀ x ∈ rest, 0 < x.size := fun x hx => hpos x (List.mem_cons_of_mem _ hx)
  unfold RingBuffer.offsetsPast
  rcases htiles with ⟨hbo, ht⟩ | ⟨as, cs, hsplit, hne, has, hcs, hle⟩
  · -- the blocks end before the end of the buffer
    have hle := ht.le
    have hadd : add32 i b.size = i + b.size := add32_of_lt (by omega)
    have hns : i + b.size ≠ size := by omega
    simp only [hadd, hns, if_false]
    split_ifs with heq
    · obtain rfl : rest = [] := Tiles.eq_nil (heq ▸ ht) hrest
      exact ⟨hsize, by omega, by omega, hrest, .inl rfl, by simp⟩
    · refine ⟨hsize, hf, by omega, hrest, .inl ht, ?_⟩
      rintro rfl
      exact absurd ht heq
  · obtain ⟨a, as, rfl⟩ := List.exists_cons_of_ne_nil hne
    simp only [List.cons_append, List.cons.injEq] at hsplit
    obtain ⟨rfl, rfl⟩ := hsplit
    obtain ⟨hbo, has⟩ := has
    have hasle := has.le
    have hadd : add32 i b.size = i + b.size := add32_of_lt (by omega)
    simp only [hadd]
    by_cases hend : i + b.size = size
    · -- the block at the end is retired
      obtain rfl : as = [] :=
        Tiles.eq_nil (hend ▸ has) fun x hx => hrest x (List.mem_append_left _ hx)
      simp only [hend, if_true, List.nil_append] at hrest ⊢
      split_ifs with heq
      · obtain rfl : cs = [] := Tiles.eq_nil (heq ▸ hcs) hrest
        exact ⟨hsize, by omega, by omega, hrest, .inl rfl, by simp⟩
      · refine ⟨hsize, hf, by omega, hrest, .inl hcs, ?_⟩
        rintro rfl
        exact absurd hcs heq
    · have hasne : as ≠ [] := by
        rintro rfl
        exact hend has
      have hfne : i + b.size ≠ f := by omega
      simp only [hend, hfne, if_false]
      refine ⟨hsize, hf, by omega, hrest, .inr ⟨as, cs, rfl, hasne, has, hcs, by omega⟩, ?_⟩
      simp [hasne]

/-- A block put at `free_offset_` keeps the agreement when it ends before the
end of the buffer, or before `in_use_offset_` once the blocks have wrapped. -/
lemma Consistent.push {size i f : ℕ} {blocks : List Block} (h : Consistent size i f blocks)
    (b : Block) (hb : b.offset = f) (hpos : 0 < b.size)
    (hroom : (Tiles Block.offset Block.size i blocks f ∧ f + b.size ≤ size) ∨ f + b.size ≤ i) :
    Consistent size i (if f + b.size = size then 0 else f + b.size) (blocks ++ [b]) := by
  obtain ⟨hsize, hf, hi, hnonzero, htiles, -⟩ := h
  have hnonzero' : ∀ x ∈ blocks ++ [b], 0 < x.size := by
    intro x hx
    rcases List.mem_append.mp hx with hx | hx
    · exact hnonzero x hx
    · rwa [List.mem_singleton.mp hx]
  rcases hroom with ⟨ht, hle⟩ | hle
  · have hsnoc := ht.snoc hb
    split_ifs with hend
    · rw [hend] at hsnoc
      exact ⟨hsize, by omega, hi, hnonzero',
        .inr ⟨blocks ++ [b], [], by simp, by simp, hsnoc, rfl, Nat.zero_le _⟩, by simp⟩
    · exact ⟨hsize, by omega, hi, hnonzero', .inl hsnoc, by simp⟩
  · have hend : f + b.size ≠ size := by omega
    rcases htiles with ht | ⟨as, cs, rfl, hne, has, hcs, -⟩
    · have := ht.le
      omega
    · rw [if_neg hend]
      exact ⟨hsize, by omega, hi, hnonzero',
        .inr ⟨as, cs ++ [b], by simp, hne, has, hcs.snoc hb, hle⟩, by simp⟩

/-- The offsets of a ring agree with its queue. -/
def Ring.Consistent (r : Ring) : Prop :=
  RingBuffer.Consistent r.size r.inUseOffset r.freeOffset r.blocks

/-- The free space, read off a consistent ring. -/
lemma Ring.Consistent.largestFree_le {r : Ring} (h : r.Consistent) :
    largestFree r ≤ r.size ∧ (r.blocks = [] → largestFree r = r.size) := by
  obtain ⟨hsize, hf, hi, -, -, hempty⟩ := h
  unfold largestFree
  constructor
  · have h1 : sub32 r.size r.freeOffset ≤ r.size := by
      rw [sub32_of_le hf.le hsize]
      omega
    have h2 : r.freeOffset ≤ r.inUseOffset → sub32 r.inUseOffset r.freeOffset ≤ r.size := by
      intro hle
      rw [sub32_of_le hle (hi.trans hsize)]
      omega
    split_ifs <;> omega
  · intro hnil
    obtain ⟨h1, h2⟩ := hempty hnil
    simp [h1, h2, hnil]

/-- Where room for `n` bytes can be: after `free_offset_`, or at the start of
the buffer with nothing but padding before it. -/
lemma Ring.Consistent.room {r : Ring} (h : r.Consistent) {n : ℕ} (hn : 0 < n)
    (hroom : n ≤ largestFree r) :
    (Tiles Block.offset Block.size r.inUseOffset r.blocks r.freeOffset ∧
        r.freeOffset + n ≤ r.size) ∨ r.freeOffset + n ≤ r.inUseOffset ∨
      (Tiles Block.offset Block.size r.inUseOffset r.blocks r.freeOffset ∧
        r.size < r.freeOffset + n ∧ n ≤ r.inUseOffset ∧ r.inUseOffset < r.freeOffset) := by
  obtain ⟨hsize, hf, hi, -, htiles, hempty⟩ := h
  unfold largestFree at hroom
  split_ifs at hroom with heq hnil hlt
  · obtain ⟨h1, h2⟩ := hempty hnil
    refine .inl ⟨?_, by omega⟩
    rw [hnil]
    exact h1.trans h2.symm
  · omega
  · rw [sub32_of_le hf.le hsize] at hroom
    have ht : Tiles Block.offset Block.size r.inUseOffset r.blocks r.freeOffset := by
      rcases htiles with ht | ⟨as, cs, -, -, -, -, hle⟩
      · exact ht
      · omega
    by_cases hfit : r.freeOffset + n ≤ r.size
    · exact .inl ⟨ht, hfit⟩
    · exact .inr (.inr ⟨ht, by omega, by omega, hlt⟩)
  · rw [sub32_of_le (by omega) (hi.trans hsize)] at hroom
    exact .inr (.inl (by omega))

lemma place_of_fit {r : Ring} {n : ℕ} (hsize : r.size < 2 ^ 32)
    (hfit : r.freeOffset + n ≤ r.size) :
    place r n = ({ r with
      blocks := r.blocks ++ [⟨r.freeOffset, n, 0, .inUse⟩]
      freeOffset := if r.freeOffset + n = r.size then 0 else r.freeOffset + n },
      r.freeOffset) := by
  have hadd : add32 r.freeOffset n = r.freeOffset + n := add32_of_lt (by omega)
  have hadd' : add32 n r.freeOffset = r.freeOffset + n := by
    rw [add32_of_lt (by omega), Nat.add_comm]
  simp [place, hadd, hadd', not_lt.mpr hfit]

lemma place_of_padding {r : Ring} {n : ℕ} (hsize : r.size < 2 ^ 32) (hn : n < r.size)
    (hf : r.freeOffset < r.size) (hpad : r.size < r.freeOffset + n)
    (hsum : r.freeOffset + n < 2 ^ 32) :
    place r n = ({ r with
      blocks := r.blocks ++ [⟨r.freeOffset, r.size - r.freeOffset, 0, .padding⟩] ++
        [⟨0, n, 0, .inUse⟩]
      freeOffset := n }, 0) := by
  have hadd : add32 n r.freeOffset = r.freeOffset + n := by
    rw [add32_of_lt (by omega), Nat.add_comm]
  have hadd' : add32 0 n = n := by
    rw [add32_of_lt (by omega), Nat.zero_add]
  simp [place, hadd, hadd', hpad, hn.ne, sub32_of_le hf.le hsize]

/-- The new block lies in the free space, and padding is needed only when the
space before the end is too small. -/
lemma Ring.Consistent.place {r : Ring} (h : r.Consistent) (hmax : r.size ≤ 2 ^ 31 + 1) {n : ℕ}
    (hn : 0 < n) (hroom : n ≤ largestFree r) :
    ∃ padding o f, (∀ b ∈ padding, b.state = .padding ∧ b.token = 0) ∧
      RingBuffer.place r n = ({ r with
        blocks := r.blocks ++ padding ++ [⟨o, n, 0, .inUse⟩]
        freeOffset := f }, o) ∧
      RingBuffer.Consistent r.size r.inUseOffset f
        (r.blocks ++ padding ++ [⟨o, n, 0, .inUse⟩]) := by
  have hsize := h.size_lt
  have hf := h.free_lt
  have hi := h.inUse_lt
  rcases h.room hn hroom with hfit | hfit | ⟨ht, hpad, hle, hlt⟩
  · have hpush := h.push ⟨r.freeOffset, n, 0, .inUse⟩ rfl hn (.inl hfit)
    exact ⟨[], r.freeOffset, _, by simp, by simpa using place_of_fit hsize hfit.2,
      by simpa using hpush⟩
  · have hpush := h.push ⟨r.freeOffset, n, 0, .inUse⟩ rfl hn (.inr hfit)
    exact ⟨[], r.freeOffset, _, by simp, by simpa using place_of_fit hsize (by omega),
      by simpa using hpush⟩
  · -- the sum stays below `2 ^ 32` because the ring is at most `2 ^ 31 + 1` long
    have hsum : r.freeOffset + n < 2 ^ 32 := by omega
    have hend : r.freeOffset + (r.size - r.freeOffset) = r.size := by omega
    have hpadded := h.push ⟨r.freeOffset, r.size - r.freeOffset, 0, .padding⟩ rfl
      (by dsimp only; omega) (.inl ⟨ht, by dsimp only; omega⟩)
    rw [if_pos hend] at hpadded
    have hpushed := hpadded.push ⟨0, n, 0, .inUse⟩ rfl hn (.inr (by dsimp only; omega))
    rw [Nat.zero_add, if_neg (by dsimp only; omega)] at hpushed
    exact ⟨_, 0, n, by simp, place_of_padding hsize (by omega) hf hpad hsum, hpushed⟩

/-- The blocks `gone` were retired between `r` and `r'`, each after its token had
been read. -/
structure Retires (r r' : Ring) (gone : List Block) : Prop where
  consistent : r'.Consistent
  size_eq : r'.size = r.size
  base_eq : r'.baseOffset = r.baseOffset
  blocks_eq : r.blocks = gone ++ r'.blocks
  issued_eq : r'.tokens.issued = r.tokens.issued
  read_le : r.tokens.read ≤ r'.tokens.read
  idle : ∀ b ∈ gone, b.state ≠ .inUse
  passed : ∀ b ∈ gone, b.state = .freePendingToken →
    ∀ u ≤ r.tokens.issued, u % tokenModulus = b.token → u ≤ r'.tokens.read

lemma Retires.refl {r : Ring} (h : r.Consistent) : Retires r r [] :=
  ⟨h, rfl, rfl, rfl, rfl, le_rfl, by simp, by simp⟩

lemma Retires.trans {r r' r'' : Ring} {as bs : List Block} (h : Retires r r' as)
    (h' : Retires r' r'' bs) : Retires r r'' (as ++ bs) := by
  refine ⟨h'.consistent, h'.size_eq.trans h.size_eq, h'.base_eq.trans h.base_eq, ?_,
    h'.issued_eq.trans h.issued_eq, h.read_le.trans h'.read_le, ?_, ?_⟩
  · rw [h.blocks_eq, h'.blocks_eq, List.append_assoc]
  · exact fun b hb => (List.mem_append.mp hb).elim (h.idle b) (h'.idle b)
  · intro b hb hstate u hu htoken
    rcases List.mem_append.mp hb with hb | hb
    · exact (h.passed b hb hstate u hu htoken).trans h'.read_le
    · exact h'.passed b hb hstate u (h.issued_eq ▸ hu) htoken

/-- `FreeOldestBlock` retires the block at the front. -/
lemma Ring.Consistent.freeOldestBlock {r : Ring} (h : r.Consistent) (service : ℕ → ℕ) {b : Block}
    {rest : List Block} (hb : r.blocks = b :: rest) (hstate : b.state ≠ .inUse) :
    ∃ r', RingBuffer.freeOldestBlock service r = some r' ∧ Retires r r' [b] ∧
      r'.tokens = if b.state = .freePendingToken then r.tokens.waitForToken service b.token
        else r.tokens := by
  have hcons : RingBuffer.Consistent r.size r.inUseOffset r.freeOffset (b :: rest) := by
    rw [← hb]
    exact h
  have hpast := hcons.offsetsPast
  unfold RingBuffer.freeOldestBlock
  simp only [hb, hstate, if_false]
  refine ⟨_, rfl, ⟨hpast, rfl, rfl, hb, ?_, ?_, by simpa using hstate, ?_⟩, rfl⟩
  · dsimp only
    split_ifs <;> simp
  · dsimp only
    split_ifs
    · exact Tokens.read_le_waitForToken ..
    · exact le_rfl
  · intro c hc hpend u hu htoken
    rw [List.mem_singleton.mp hc] at hpend htoken
    simp only [hpend, if_true, ← htoken]
    exact Tokens.le_read_waitForToken service _ hu

/-- The loop of `GetLargestFreeSizeNoWaiting` waits for nothing and stops at a
block it may not retire. -/
lemma Ring.Consistent.retirePassed {r : Ring} (h : r.Consistent) (service : ℕ → ℕ) :
    ∃ gone, Retires r (RingBuffer.retirePassed service r.tokens.lastTokenRead r) gone ∧
      (RingBuffer.retirePassed service r.tokens.lastTokenRead r).tokens = r.tokens ∧
      ∀ b ∈ (RingBuffer.retirePassed service r.tokens.lastTokenRead r).blocks.head?,
        r.tokens.lastTokenRead < b.token ∨ b.state = .inUse := by
  generalize hlast : r.tokens.lastTokenRead = last
  induction r using RingBuffer.retirePassed.induct service last with
  | case1 r hnil =>
    rw [retirePassed_nil _ _ hnil]
    exact ⟨[], .refl h, rfl, by simp [hnil]⟩
  | case2 r b rest hcons hor =>
    rw [retirePassed_stop _ hcons hor]
    exact ⟨[], .refl h, rfl, by simpa [hcons] using hor⟩
  | case3 r b rest hcons hnor r' hfree ih =>
    obtain ⟨hpassed, hstate⟩ := not_or.mp hnor
    obtain ⟨r'', hfree', hret, htokens⟩ := h.freeOldestBlock service hcons hstate
    obtain rfl : r' = r'' := by simpa [hfree] using hfree'
    have hsame : r'.tokens = r.tokens := by
      rw [htokens, Tokens.waitForToken_of_le service (by omega), ite_self]
    obtain ⟨gone, hret', htokens', hhead⟩ := ih hret.consistent (hsame ▸ hlast)
    rw [retirePassed_step hcons hnor hfree]
    exact ⟨[b] ++ gone, hret.trans hret', htokens'.trans hsame, hhead⟩
  | case4 r b rest hcons hnor hnone =>
    obtain ⟨r'', hfree', -⟩ := h.freeOldestBlock service hcons (not_or.mp hnor).2
    simp [hfree'] at hnone

/-- The loop of `Alloc` ends with enough room, whatever the request, when the
queue holds nothing in use. -/
lemma Ring.Consistent.waitForRoom {r : Ring} (h : r.Consistent) (service : ℕ → ℕ) {n : ℕ}
    (hn : n ≤ r.size) (hfree : ∀ b ∈ r.blocks, b.state ≠ .inUse) :
    ∃ r' gone, RingBuffer.waitForRoom service n r = some r' ∧ Retires r r' gone ∧
      n ≤ largestFree r' := by
  induction r using RingBuffer.waitForRoom.induct service n with
  | case1 r hroom =>
    obtain ⟨gone, hret, -⟩ := h.retirePassed service
    refine ⟨_, gone, ?_, hret, hroom⟩
    rw [RingBuffer.waitForRoom]
    simp only [hroom, if_true]
    rfl
  | case2 r hroom r' hsome ih =>
    obtain ⟨gone, hret, -⟩ := h.retirePassed service
    have hfree' : ∀ b ∈ (getLargestFreeSizeNoWaiting service r).1.blocks, b.state ≠ .inUse :=
      fun b hb => hfree b (hret.blocks_eq ▸ List.mem_append_right _ hb)
    obtain ⟨b, rest, hcons⟩ := List.exists_cons_of_ne_nil (freeOldestBlock_blocks hsome).2
    obtain ⟨r'', hsome', hold, -⟩ :=
      hret.consistent.freeOldestBlock service hcons (hfree' b (by simp [hcons]))
    obtain rfl : r' = r'' := Option.some.inj (hsome.symm.trans hsome')
    have hboth := hret.trans hold
    obtain ⟨r'', gone', hwait, hret', hroom'⟩ := ih hboth.consistent (hboth.size_eq ▸ hn)
      fun c hc => hfree c (hboth.blocks_eq ▸ List.mem_append_right _ hc)
    refine ⟨r'', gone ++ [b] ++ gone', ?_, hboth.trans hret', hroom'⟩
    rw [RingBuffer.waitForRoom, if_neg hroom]
    split <;> simp_all
  | case3 r hroom hnone =>
    obtain ⟨gone, hret, -⟩ := h.retirePassed service
    cases hblocks : (getLargestFreeSizeNoWaiting service r).1.blocks with
    | nil =>
      have hall := hret.consistent.largestFree_le.2 hblocks
      rw [hret.size_eq] at hall
      exact absurd (hn.trans_eq hall.symm) hroom
    | cons b rest =>
      have hstate : b.state ≠ .inUse := by
        refine hfree b (hret.blocks_eq ▸ List.mem_append_right _ ?_)
        exact hblocks ▸ List.mem_cons_self ..
      obtain ⟨r'', hsome, -⟩ := hret.consistent.freeOldestBlock service hblocks hstate
      exact absurd (hsome.symm.trans hnone) (by simp)

end Chromium.RingBuffer
