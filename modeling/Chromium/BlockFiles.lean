import Mathlib.Algebra.BigOperators.Intervals
import Mathlib.Tactic
import Chromium.Runs

/-!
# The block files of the disk cache

A block file (net/disk_cache/block_files.cc) hands out runs of one to four blocks.
Its header keeps a bitmap of the blocks in use, read as groups of four blocks, and
for each number of blocks how many groups have that many free blocks at their end.
The counters are never recomputed while the file is in use: each allocation and each
deletion corrects them from the bits of one group.
-/
namespace Chromium.BlockFiles
open Function

section Header

/-- The maximum number of consecutive blocks of an entry, and of blocks in a group. -/
def kMaxNumBlocks : ℕ := 4
def kBlockHeaderSize : ℕ := 8192
def kMaxBlocks : ℕ := (kBlockHeaderSize - 80) * 8

/-- From the bit pattern of a group to the number of consecutive blocks that can be
stored there. -/
def sTypes : List ℕ := [4, 3, 2, 2, 1, 1, 1, 1, 0, 0, 0, 0, 0, 0, 0, 0]

def getMapBlockType (value : BitVec 8) : ℕ := sTypes.getD (value &&& 0xf).toNat 0

/-- The fields of a `BlockFileHeader` that the allocator uses. -/
structure BlockFileHeader where
  nextFile : ℤ
  entrySize : ℕ
  numEntries : ℤ
  maxEntries : ℕ
  empty : ℕ → ℤ
  hints : ℕ → ℕ
  updating : ℕ
  allocationMap : ℕ → BitVec 32

/-- One more, or less, free group of a type. -/
def count (empty : ℕ → ℤ) (type : ℕ) (n : ℤ) : ℕ → ℤ :=
  update empty (type - 1) (empty (type - 1) + n)

/-- The inner loop of `FixAllocationCounters`, over the groups of a word. -/
def fixGroups : ℕ → BitVec 32 → (ℕ → ℤ) → ℕ → ℤ
  | 0, _, empty => empty
  | n + 1, mapBlock, empty =>
    let type := getMapBlockType (mapBlock.setWidth 8)
    fixGroups n (mapBlock >>> 4) (if type ≠ 0 then count empty type 1 else empty)

def BlockFileHeader.fixAllocationCounters (h : BlockFileHeader) : BlockFileHeader :=
  { h with
    hints := fun _ => 0
    empty := (List.range (h.maxEntries / 32)).foldl
      (fun empty i => fixGroups 8 (h.allocationMap i) empty) fun _ => 0 }

/-- The first of the sizes that are large enough with a free group. -/
def BlockFileHeader.target (h : BlockFileHeader) (size : ℕ) : Option ℕ :=
  (List.range' size (kMaxNumBlocks + 1 - size)).find? fun i => h.empty (i - 1) ≠ 0

/-- The first of the remaining groups of a word with this type. -/
def searchGroups (target : ℕ) : ℕ → ℕ → BitVec 32 → Option ℕ
  | 0, _, _ => none
  | n + 1, j, mapBlock =>
    if getMapBlockType (mapBlock.setWidth 8) ≠ target then
      searchGroups target n (j + 1) (mapBlock >>> 4)
    else some j

/-- The words from `current` on, and then from the start. -/
def BlockFileHeader.searchWords (h : BlockFileHeader) (target : ℕ) : ℕ → ℕ → Option (ℕ × ℕ)
  | 0, _ => none
  | n + 1, current =>
    let current := if current = h.maxEntries / 32 then 0 else current
    match searchGroups target 8 0 (h.allocationMap current) with
    | some j => some (current, j)
    | none => h.searchWords target n (current + 1)

/-- The header after the call, and the index of the new block. -/
def BlockFileHeader.createMapBlock (h : BlockFileHeader) (size : ℕ) : BlockFileHeader × Option ℕ :=
  match h.target size with
  | none => (h, none)
  | some target =>
    match h.searchWords target (h.maxEntries / 32) (h.hints (target - 1)) with
    | none => (h.fixAllocationCounters, none)
    | some (current, j) =>
      let indexOffset := j * 4 + 4 - target
      let toAdd := ((1#32 <<< size) - 1#32) <<< indexOffset
      let empty := count h.empty target (-1)
      ({ h with
          numEntries := h.numEntries + 1
          allocationMap := update h.allocationMap current (h.allocationMap current ||| toAdd)
          hints := update h.hints (target - 1) current
          empty := if target ≠ size then count empty (target - size) 1 else empty },
        some (current * 32 + indexOffset))

/-- `allocation_map` as an array of bytes. -/
def BlockFileHeader.byteMap (h : BlockFileHeader) (i : ℕ) : BitVec 8 :=
  (h.allocationMap (i / 4) >>> (8 * (i % 4))).setWidth 8

/-- A block that is in use ends inside its group, so that `bits_at_end` is not
negative. -/
def BlockFileHeader.deleteMapBlock (h : BlockFileHeader) (index size : ℕ) : BlockFileHeader :=
  if size > kMaxNumBlocks then h
  else
    let byteIndex := index / 8
    let mapBlock := if index % 8 ≥ 4 then h.byteMap byteIndex >>> 4 else h.byteMap byteIndex
    let bitsAtEnd := 4 - size - index % 4
    let endMask := (0xf#8 <<< (4 - bitsAtEnd)) &&& 0xf#8
    let updateCounters := mapBlock &&& endMask = 0
    let newValue := mapBlock &&& ~~~(((1#8 <<< size) - 1#8) <<< (index % 4))
    let newType := getMapBlockType newValue
    let toClear := ((1#8 <<< size) - 1#8) <<< (index % 8)
    let word := h.allocationMap (byteIndex / 4) &&&
      ~~~(toClear.setWidth 32 <<< (8 * (byteIndex % 4)))
    { h with
      allocationMap := update h.allocationMap (byteIndex / 4) word
      empty :=
        if updateCounters then
          count (if bitsAtEnd ≠ 0 then count h.empty bitsAtEnd (-1) else h.empty) newType 1
        else h.empty
      numEntries := h.numEntries - 1 }

def BlockFileHeader.canAllocate (h : BlockFileHeader) (blockCount : ℕ) : Bool :=
  (List.range' (blockCount - 1) (kMaxNumBlocks + 1 - blockCount)).any fun i => h.empty i ≠ 0

def BlockFileHeader.emptyBlocks (h : BlockFileHeader) : ℤ :=
  if (List.range kMaxNumBlocks).any fun i => h.empty i < 0 then 0
  else ((List.range kMaxNumBlocks).map fun i => h.empty i * (i + 1)).sum

def BlockFileHeader.validateCounters (h : BlockFileHeader) : Bool :=
  ¬ (h.maxEntries > kMaxBlocks ∨ h.numEntries < 0) ∧ ¬ h.emptyBlocks + h.numEntries > h.maxEntries

end Header

section Bits

/-- The number of free blocks at the end of a group with these blocks in use. -/
def freeAtEnd (b₀ b₁ b₂ b₃ : Bool) : ℕ :=
  if b₃ then 0 else if b₂ then 1 else if b₁ then 2 else if b₀ then 3 else 4

lemma getMapBlockType_ofNat : ∀ n < 256, getMapBlockType (BitVec.ofNat 8 n) =
    freeAtEnd (n.testBit 0) (n.testBit 1) (n.testBit 2) (n.testBit 3) := by
  decide +kernel

lemma getMapBlockType_eq (v : BitVec 8) : getMapBlockType v =
    freeAtEnd (v.getLsbD 0) (v.getLsbD 1) (v.getLsbD 2) (v.getLsbD 3) := by
  have h := getMapBlockType_ofNat v.toNat v.isLt
  rwa [BitVec.ofNat_toNat, BitVec.setWidth_eq] at h

/-- The block is in use. -/
def usedIn (map : ℕ → BitVec 32) (n : ℕ) : Bool := (map (n / 32)).getLsbD (n % 32)

abbrev BlockFileHeader.used (h : BlockFileHeader) : ℕ → Bool := usedIn h.allocationMap

/-- The number of free blocks at the end of a group. -/
def groupType (used : ℕ → Bool) (g : ℕ) : ℕ :=
  freeAtEnd (used (4 * g)) (used (4 * g + 1)) (used (4 * g + 2)) (used (4 * g + 3))

lemma getMapBlockType_word (h : BlockFileHeader) {i j : ℕ} (hj : j < 8) :
    getMapBlockType ((h.allocationMap i >>> (4 * j)).setWidth 8) =
      groupType h.used (8 * i + j) := by
  have hbit : ∀ k < 4, h.used (4 * (8 * i + j) + k) =
      (h.allocationMap i).getLsbD (4 * j + k) := fun k hk => by
    rw [BlockFileHeader.used, usedIn, (by omega : (4 * (8 * i + j) + k) / 32 = i),
      (by omega : (4 * (8 * i + j) + k) % 32 = 4 * j + k)]
  have hbit0 := hbit 0 (by omega)
  rw [Nat.add_zero, Nat.add_zero] at hbit0
  rw [getMapBlockType_eq, groupType, hbit 1 (by omega), hbit 2 (by omega), hbit 3 (by omega), hbit0]
  simp

/-- `size` bits from `offset` on. -/
lemma getLsbD_ones {w size : ℕ} (hsize : size < w) (offset n : ℕ) (hn : n < w) :
    (((1#w <<< size) - 1#w) <<< offset).getLsbD n = decide (offset ≤ n ∧ n < offset + size) := by
  have hpow : 2 ^ size < 2 ^ w := Nat.pow_lt_pow_right (by omega) hsize
  have hone : 1 % 2 ^ w = 1 := Nat.mod_eq_of_lt (Nat.one_lt_two_pow (by omega))
  have htoNat : ((1#w <<< size) - 1#w).toNat = 2 ^ size - 1 := by
    have hpos := Nat.two_pow_pos size
    rw [BitVec.toNat_sub, BitVec.toNat_shiftLeft, BitVec.toNat_ofNat, hone, Nat.one_shiftLeft,
      Nat.mod_eq_of_lt hpow, (by omega : 2 ^ w - 1 + 2 ^ size = 2 ^ size - 1 + 2 ^ w),
      Nat.add_mod_right, Nat.mod_eq_of_lt (by omega)]
  rw [BitVec.getLsbD_shiftLeft, ← BitVec.testBit_toNat, htoNat, Nat.testBit_two_pow_sub_one]
  by_cases hle : offset ≤ n
  · simp [hn, hle, Nat.not_lt.mpr hle, Nat.sub_lt_iff_lt_add' hle]
  · simp [hle, Nat.not_le.mp hle]

lemma usedIn_set (map : ℕ → BitVec 32) {i offset size n : ℕ} (hend : offset + size ≤ 32)
    (hsize : size < 32) :
    usedIn (update map i (map i ||| ((1#32 <<< size) - 1#32) <<< offset)) n =
      (usedIn map n || decide (i * 32 + offset ≤ n ∧ n < i * 32 + offset + size)) := by
  by_cases hi : n / 32 = i
  · subst hi
    rw [usedIn, update_self, BitVec.getLsbD_or, getLsbD_ones hsize _ _ (Nat.mod_lt _ (by omega)),
      usedIn]
    congr 1
    exact decide_eq_decide.mpr (by omega)
  · have hout : ¬ (i * 32 + offset ≤ n ∧ n < i * 32 + offset + size) := by omega
    rw [usedIn, update_of_ne hi, usedIn, decide_eq_false hout, Bool.or_false]

lemma usedIn_clear (map : ℕ → BitVec 32) {i offset size n : ℕ} (hend : offset + size ≤ 32)
    (mask : BitVec 32)
    (hmask : ∀ k < 32, mask.getLsbD k = decide (offset ≤ k ∧ k < offset + size)) :
    usedIn (update map i (map i &&& ~~~mask)) n =
      (usedIn map n && !decide (i * 32 + offset ≤ n ∧ n < i * 32 + offset + size)) := by
  by_cases hi : n / 32 = i
  · subst hi
    have hlt : n % 32 < 32 := Nat.mod_lt _ (by omega)
    rw [usedIn, update_self, BitVec.getLsbD_and, BitVec.getLsbD_not, hmask _ hlt, usedIn]
    simp only [hlt, decide_true, Bool.true_and]
    congr 2
    exact decide_eq_decide.mpr (by omega)
  · have hout : ¬ (i * 32 + offset ≤ n ∧ n < i * 32 + offset + size) := by omega
    rw [usedIn, update_of_ne hi, usedIn, decide_eq_false hout, Bool.not_false, Bool.and_true]

/-- A mask of one byte, at the place of the byte in its word. -/
lemma getLsbD_byteMask {index size k : ℕ} (hend : index % 8 + size ≤ 8) (hsize : size < 8)
    (hk : k < 32) :
    (((((1#8 <<< size) - 1#8) <<< (index % 8)).setWidth 32) <<<
        (8 * (index / 8 % 4))).getLsbD k =
      decide (index % 32 ≤ k ∧ k < index % 32 + size) := by
  have hplace : index % 32 = 8 * (index / 8 % 4) + index % 8 := by omega
  rw [BitVec.getLsbD_shiftLeft, BitVec.getLsbD_setWidth, decide_eq_true hk, Bool.true_and]
  by_cases hle : 8 * (index / 8 % 4) ≤ k
  · by_cases hlt : k - 8 * (index / 8 % 4) < 8
    · rw [getLsbD_ones hsize _ _ hlt, decide_eq_false (Nat.not_lt.mpr hle),
        decide_eq_true (by omega), Bool.not_false, Bool.true_and, Bool.true_and]
      exact decide_eq_decide.mpr (by omega)
    · rw [BitVec.getLsbD_of_ge _ _ (Nat.not_lt.mp hlt), Bool.and_false, Bool.and_false]
      exact (decide_eq_false (by omega)).symm
  · rw [decide_eq_true (Nat.not_le.mp hle), Bool.not_true, Bool.false_and]
    exact (decide_eq_false (by omega)).symm

/-- Block `k` of a group is one of the `size` blocks from `offset` on. -/
def within (offset size k : ℕ) : Bool := decide (offset ≤ k ∧ k < offset + size)

/-- A block of `size` takes the first blocks of the free ones at the end. -/
lemma freeAtEnd_set : ∀ b₀ b₁ b₂ b₃ : Bool, ∀ type < 5, freeAtEnd b₀ b₁ b₂ b₃ = type →
    ∀ size < 5, size ≤ type →
    freeAtEnd (b₀ || within (4 - type) size 0) (b₁ || within (4 - type) size 1)
      (b₂ || within (4 - type) size 2) (b₃ || within (4 - type) size 3) = type - size := by
  decide +kernel

/-- No more than the blocks behind a block in use are free at the end. -/
lemma freeAtEnd_eq_of_used : ∀ b₀ b₁ b₂ b₃ : Bool, ∀ offset < 4, ∀ size < 5,
    1 ≤ size → 4 - size - offset ≤ freeAtEnd b₀ b₁ b₂ b₃ →
      ((!within offset size 0 || b₀) && (!within offset size 1 || b₁) &&
        (!within offset size 2 || b₂) && (!within offset size 3 || b₃)) = true →
    freeAtEnd b₀ b₁ b₂ b₃ = 4 - size - offset := by
  decide +kernel

/-- With the blocks behind it free, a block that is given back is at the end. -/
lemma freeAtEnd_clear_end : ∀ b₀ b₁ b₂ b₃ : Bool, ∀ offset < 4, ∀ size < 5,
    1 ≤ size ∧ offset + size ≤ 4 ∧ 4 - size - offset ≤ freeAtEnd b₀ b₁ b₂ b₃ →
    1 ≤ freeAtEnd (b₀ && !within offset size 0) (b₁ && !within offset size 1)
        (b₂ && !within offset size 2) (b₃ && !within offset size 3) := by
  decide +kernel

/-- With a block in use behind it, the end of the group does not change. -/
lemma freeAtEnd_clear_inside : ∀ b₀ b₁ b₂ b₃ : Bool, ∀ offset < 4, ∀ size < 5,
    offset + size ≤ 4 → ¬ 4 - size - offset ≤ freeAtEnd b₀ b₁ b₂ b₃ →
    freeAtEnd (b₀ && !within offset size 0) (b₁ && !within offset size 1)
      (b₂ && !within offset size 2) (b₃ && !within offset size 3) = freeAtEnd b₀ b₁ b₂ b₃ := by
  decide +kernel

lemma endMask_ofNat : ∀ bits < 5, ∀ n < 256,
    (BitVec.ofNat 8 n &&& ((0xf#8 <<< (4 - bits)) &&& 0xf#8) = 0 ↔
      bits ≤ freeAtEnd (n.testBit 0) (n.testBit 1) (n.testBit 2) (n.testBit 3)) := by
  decide +kernel

/-- The last `bits` blocks of a group are free. -/
lemma and_endMask_eq_zero (v : BitVec 8) {bits : ℕ} (hbits : bits < 5) :
    v &&& ((0xf#8 <<< (4 - bits)) &&& 0xf#8) = 0 ↔
      bits ≤ freeAtEnd (v.getLsbD 0) (v.getLsbD 1) (v.getLsbD 2) (v.getLsbD 3) := by
  have h := endMask_ofNat bits hbits v.toNat v.isLt
  rwa [BitVec.ofNat_toNat, BitVec.setWidth_eq] at h

end Bits

section Counters

/-- The groups below `groups` with `k` free blocks at their end. -/
def freeGroups (used : ℕ → Bool) (groups k : ℕ) : Finset ℕ :=
  (Finset.range groups).filter fun g => groupType used g = k

lemma card_freeGroups (used : ℕ → Bool) (groups k : ℕ) : ((freeGroups used groups k).card : ℤ) =
    ∑ g ∈ Finset.range groups, if groupType used g = k then 1 else 0 := by
  rw [freeGroups, Finset.card_filter]
  push_cast
  rfl

/-- One group changes its type. -/
lemma card_freeGroups_change {used used' : ℕ → Bool} {groups g : ℕ} (hg : g < groups)
    (hsame : ∀ g', g' ≠ g → groupType used' g' = groupType used g') (k : ℕ) :
    ((freeGroups used' groups k).card : ℤ) = (freeGroups used groups k).card -
      (if groupType used g = k then 1 else 0) + if groupType used' g = k then 1 else 0 := by
  have hmem : g ∈ Finset.range groups := Finset.mem_range.mpr hg
  have hrest : ∑ g' ∈ (Finset.range groups).erase g, (if groupType used' g' = k then (1 : ℤ) else 0)
      = ∑ g' ∈ (Finset.range groups).erase g, if groupType used g' = k then 1 else 0 := by
    refine Finset.sum_congr rfl fun g' hg' => ?_
    rw [hsame g' (Finset.ne_of_mem_erase hg')]
  rw [card_freeGroups, card_freeGroups, ← Finset.add_sum_erase _ _ hmem, hrest,
    ← Finset.add_sum_erase (Finset.range groups)
      (fun g => if groupType used g = k then 1 else 0) hmem]
  ring

lemma count_apply (empty : ℕ → ℤ) {type k : ℕ} (htype : 1 ≤ type) (hk : 1 ≤ k) (n : ℤ) :
    count empty type n (k - 1) = empty (k - 1) + if type = k then n else 0 := by
  rw [count]
  by_cases h : type = k
  · subst h
    simp
  · have hne : k - 1 ≠ type - 1 := by omega
    rw [update_of_ne hne, if_neg h, add_zero]

lemma fixGroups_apply (n : ℕ) (mapBlock : BitVec 32) (empty : ℕ → ℤ) {k : ℕ} (hk : 1 ≤ k) :
    fixGroups n mapBlock empty (k - 1) = empty (k - 1) + ∑ j ∈ Finset.range n,
      if getMapBlockType ((mapBlock >>> (4 * j)).setWidth 8) = k then 1 else 0 := by
  induction n generalizing mapBlock empty with
  | zero => simp [fixGroups]
  | succ n ih =>
    have hshift : ∀ j, mapBlock >>> 4 >>> (4 * j) = mapBlock >>> (4 * (j + 1)) := fun j => by
      rw [← BitVec.shiftRight_add]
      congr 1
      omega
    rw [fixGroups, ih, Finset.sum_range_succ']
    simp only [hshift, Nat.mul_zero, BitVec.ushiftRight_zero]
    by_cases h0 : getMapBlockType (mapBlock.setWidth 8) = 0
    · have hne : ¬ 0 = k := by omega
      simp [h0, hne]
    · rw [if_pos h0, count_apply _ (by omega) hk]
      ring

/-- `FixAllocationCounters` counts the groups of the bitmap. -/
theorem fixAllocationCounters_empty {h : BlockFileHeader} (hmax : 32 ∣ h.maxEntries) {k : ℕ}
    (hk : 1 ≤ k) : h.fixAllocationCounters.empty (k - 1) =
      (freeGroups h.used (h.maxEntries / 4) k).card := by
  have hwords : ∀ n, ((List.range n).foldl
      (fun empty i => fixGroups 8 (h.allocationMap i) empty) fun _ => 0) (k - 1) =
        ∑ g ∈ Finset.range (8 * n), if groupType h.used g = k then (1 : ℤ) else 0 := by
    intro n
    induction n with
    | zero => rfl
    | succ n ih =>
      rw [List.range_succ, List.foldl_append, List.foldl_cons, List.foldl_nil,
        fixGroups_apply _ _ _ hk, ih, Nat.mul_succ, Finset.sum_range_add]
      congr 1
      refine Finset.sum_congr rfl fun j hj => ?_
      rw [getMapBlockType_word h (Finset.mem_range.mp hj)]
  refine (hwords _).trans ?_
  rw [card_freeGroups, (by omega : 8 * (h.maxEntries / 32) = h.maxEntries / 4)]

end Counters

section File

/-- A mapped block file: the header and the length of the whole file. -/
structure MappedFile where
  header : BlockFileHeader
  length : ℕ

/-- `BlockFiles::FixBlockFileHeader`. -/
def MappedFile.fixBlockFileHeader (f : MappedFile) : MappedFile × Bool :=
  let h := f.header
  if f.length < kBlockHeaderSize then (f, false)
  else if h.entrySize < 36 ∨ h.entrySize > 4096 ∨ h.numEntries < 0 then (f, false)
  else
    let h := { h with updating := 1 }
    let expected := h.entrySize * h.maxEntries + kBlockHeaderSize
    let maxExpected := h.entrySize * kMaxBlocks + kBlockHeaderSize
    if f.length ≠ expected ∧ (f.length < expected ∨ h.empty 3 ≠ 0 ∨ f.length > maxExpected) then
      ({ f with header := h }, false)
    else
      let h :=
        if f.length ≠ expected then
          { h with maxEntries := (f.length - kBlockHeaderSize) / h.entrySize }
        else h
      let h := h.fixAllocationCounters
      let h :=
        if h.emptyBlocks + h.numEntries > h.maxEntries then
          { h with numEntries := h.maxEntries - h.emptyBlocks }
        else h
      if h.validateCounters then ({ f with header := { h with updating := 0 } }, true)
      else ({ f with header := h }, false)

/-- `BlockFiles::GrowBlockFile`, when `SetLength` succeeds or not. -/
def MappedFile.growBlockFile (f : MappedFile) (setLength : Bool) : MappedFile × Bool :=
  let h := f.header
  if kMaxBlocks = h.maxEntries then (f, false)
  else
    let newSize := if h.maxEntries + 1024 > kMaxBlocks then kMaxBlocks else h.maxEntries + 1024
    let newSizeBytes := newSize * h.entrySize + kBlockHeaderSize
    if setLength then
      ({ header :=
          { h with
            empty := update h.empty 3 ((newSize - h.maxEntries) / 4 : ℕ)
            maxEntries := newSize }
         length := newSizeBytes }, true)
    else if h.updating < 10 then
      let (fixed, ok) := f.fixBlockFileHeader
      if ok then (fixed, fixed.header.maxEntries ≥ newSize)
      else ({ fixed with header := { fixed.header with updating := 100 } }, false)
    else (f, h.maxEntries ≥ newSize)

end File

end Chromium.BlockFiles
