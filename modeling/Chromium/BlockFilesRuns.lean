import Chromium.BlockFiles

/-!
# Allocations and deletions in a block file

Along every sequence of allocations, deletions and growth, the bitmap is the blocks
in use, and each counter is the number of groups it stands for, so that an
allocation that the counters allow finds its group.
-/
namespace Chromium.BlockFiles
open Function Runs

section Search
variable {h : BlockFileHeader} {target : ℕ}

lemma target_of_canAllocate {size : ℕ} (hsize : 1 ≤ size) (hmax : size ≤ 4)
    (hcan : h.canAllocate size = true) :
    ∃ type, h.target size = some type ∧ size ≤ type ∧ type ≤ 4 ∧ h.empty (type - 1) ≠ 0 := by
  have hsome : (h.target size).isSome := by
    rw [BlockFileHeader.canAllocate, List.any_eq_true] at hcan
    obtain ⟨i, hi, hne⟩ := hcan
    rw [List.mem_range'_1, kMaxNumBlocks] at hi
    rw [BlockFileHeader.target, List.find?_isSome]
    refine ⟨i + 1, ?_, by simpa using hne⟩
    rw [List.mem_range'_1, kMaxNumBlocks]
    omega
  obtain ⟨type, htype⟩ := Option.isSome_iff_exists.mp hsome
  have hmem := List.mem_of_find?_eq_some htype
  have hne := List.find?_some htype
  rw [List.mem_range'_1, kMaxNumBlocks] at hmem
  exact ⟨type, htype, hmem.1, by omega, by simpa using hne⟩

lemma searchGroups_some (mapBlock : BitVec 32) {n j j' : ℕ}
    (hfound : searchGroups target n j (mapBlock >>> (4 * j)) = some j') :
    j ≤ j' ∧ j' < j + n ∧ getMapBlockType ((mapBlock >>> (4 * j')).setWidth 8) = target := by
  induction n generalizing j with
  | zero => cases hfound
  | succ n ih =>
    have hshift : mapBlock >>> (4 * j) >>> 4 = mapBlock >>> (4 * (j + 1)) :=
      (BitVec.shiftRight_add _ _ _).symm
    rw [searchGroups, hshift] at hfound
    split_ifs at hfound with htype
    · obtain ⟨hle, hlt, htype'⟩ := ih hfound
      exact ⟨by omega, by omega, htype'⟩
    · cases hfound
      exact ⟨le_rfl, by omega, not_not.mp htype⟩

lemma searchGroups_none (mapBlock : BitVec 32) {n j : ℕ}
    (hnone : searchGroups target n j (mapBlock >>> (4 * j)) = none) {j' : ℕ} (hle : j ≤ j')
    (hlt : j' < j + n) : getMapBlockType ((mapBlock >>> (4 * j')).setWidth 8) ≠ target := by
  induction n generalizing j with
  | zero => omega
  | succ n ih =>
    have hshift : mapBlock >>> (4 * j) >>> 4 = mapBlock >>> (4 * (j + 1)) :=
      (BitVec.shiftRight_add _ _ _).symm
    rw [searchGroups, hshift] at hnone
    split_ifs at hnone with htype
    by_cases hj : j' = j
    · rwa [hj]
    · exact ih hnone (by omega) (by omega)

lemma searchWords_some {n current i j : ℕ} (hpos : 0 < h.maxEntries / 32)
    (hcurrent : current ≤ h.maxEntries / 32)
    (hfound : h.searchWords target n current = some (i, j)) :
    i < h.maxEntries / 32 ∧ j < 8 ∧ groupType h.used (8 * i + j) = target := by
  induction n generalizing current with
  | zero => cases hfound
  | succ n ih =>
    rw [BlockFileHeader.searchWords] at hfound
    set start := if current = h.maxEntries / 32 then 0 else current with hstart
    have hlt : start < h.maxEntries / 32 := by
      rw [hstart]
      split_ifs <;> omega
    cases hgroups : searchGroups target 8 0 (h.allocationMap start) with
    | none =>
      rw [hgroups] at hfound
      exact ih (by omega) hfound
    | some j' =>
      rw [hgroups] at hfound
      simp only [Option.some.injEq, Prod.mk.injEq] at hfound
      obtain ⟨hi, rfl⟩ := hfound
      rw [← hi]
      obtain ⟨-, hj, htype⟩ := searchGroups_some (h.allocationMap start) (j := 0)
        (by simpa using hgroups)
      exact ⟨hlt, by omega, (getMapBlockType_word h (by omega)).symm.trans htype⟩

/-- The search comes to every word. -/
lemma searchWords_none {n current : ℕ} (hcurrent : current ≤ h.maxEntries / 32)
    (hnone : h.searchWords target n current = none) {i k : ℕ} (hi : i < n)
    (hk : k = (current + i) % (h.maxEntries / 32)) {j : ℕ} (hj : j < 8)
    (hpos : 0 < h.maxEntries / 32) : groupType h.used (8 * k + j) ≠ target := by
  induction n generalizing current i with
  | zero => omega
  | succ n ih =>
    rw [BlockFileHeader.searchWords] at hnone
    set start := if current = h.maxEntries / 32 then 0 else current with hstart
    have hmod : start = current % (h.maxEntries / 32) := by
      rw [hstart]
      split_ifs with heq
      · rw [heq, Nat.mod_self]
      · rw [Nat.mod_eq_of_lt (by omega)]
    have hlt : start < h.maxEntries / 32 := hmod ▸ Nat.mod_lt _ hpos
    cases hgroups : searchGroups target 8 0 (h.allocationMap start) with
    | some j' =>
      rw [hgroups] at hnone
      cases hnone
    | none =>
      rw [hgroups] at hnone
      cases i with
      | zero =>
        rw [Nat.add_zero, ← hmod] at hk
        subst hk
        rw [← getMapBlockType_word h hj]
        exact searchGroups_none (h.allocationMap start) (j := 0) (by simpa using hgroups)
          (Nat.zero_le _) (by omega)
      | succ i =>
        refine ih (by omega) hnone (i := i) (by omega) ?_
        rw [hk, hmod, Nat.add_assoc (current % _), Nat.mod_add_mod, Nat.add_comm i 1]

/-- A group that is counted is found. -/
theorem exists_searchWords {groups : ℕ} (hint : ℕ) (hhint : hint ≤ h.maxEntries / 32)
    (hgroups : groups = h.maxEntries / 4) (hmax : 32 ∣ h.maxEntries)
    (hfree : (freeGroups h.used groups target).card ≠ 0) :
    ∃ i j, h.searchWords target (h.maxEntries / 32) hint = some (i, j) ∧
      i < h.maxEntries / 32 ∧ j < 8 ∧ groupType h.used (8 * i + j) = target := by
  obtain ⟨g, hg⟩ := Finset.card_ne_zero.mp hfree
  rw [freeGroups, Finset.mem_filter, Finset.mem_range, hgroups] at hg
  have hpos : 0 < h.maxEntries / 32 := by omega
  cases hsearch : h.searchWords target (h.maxEntries / 32) hint with
  | some found => exact ⟨found.1, found.2, rfl, searchWords_some hpos hhint hsearch⟩
  | none =>
    -- the word of the group is visited after so many others
    have hword : ∃ i < h.maxEntries / 32, g / 8 = (hint + i) % (h.maxEntries / 32) := by
      by_cases hle : hint ≤ g / 8
      · refine ⟨g / 8 - hint, by omega, ?_⟩
        rw [Nat.add_sub_cancel' hle, Nat.mod_eq_of_lt (by omega)]
      · refine ⟨h.maxEntries / 32 - hint + g / 8, by omega, ?_⟩
        rw [(by omega : hint + (h.maxEntries / 32 - hint + g / 8) = h.maxEntries / 32 + g / 8),
          Nat.add_mod_left, Nat.mod_eq_of_lt (by omega)]
    obtain ⟨i, hi, hk⟩ := hword
    have hne := searchWords_none hhint hsearch hi hk (Nat.mod_lt g (by omega : 0 < 8)) hpos
    rw [(by omega : 8 * (g / 8) + g % 8 = g)] at hne
    exact absurd hg.2 hne

end Search

section Invariant

/-- A run of blocks that was handed out. -/
structure Block where
  index : ℕ
  size : ℕ
  deriving DecidableEq

/-- The block covers the block number `n`. -/
def Block.Covers (b : Block) (n : ℕ) : Prop := b.index ≤ n ∧ n < b.index + b.size

/-- The header says what the blocks in use say. -/
structure Consistent (h : BlockFileHeader) (live : List Block) : Prop where
  maxEntries_dvd : 32 ∣ h.maxEntries
  maxEntries_le : h.maxEntries ≤ kMaxBlocks
  hints_le : ∀ k, h.hints k ≤ h.maxEntries / 32
  inGroup : ∀ b ∈ live, 1 ≤ b.size ∧ b.index % 4 + b.size ≤ 4 ∧ b.index + b.size ≤ h.maxEntries
  disjoint : live.Pairwise fun a b => ∀ n, ¬ (a.Covers n ∧ b.Covers n)
  map : ∀ n, h.used n = true ↔ ∃ b ∈ live, b.Covers n
  numEntries : h.numEntries = live.length
  empty : ∀ k, 1 ≤ k → k ≤ 4 → h.empty (k - 1) = (freeGroups h.used (h.maxEntries / 4) k).card

lemma groupType_congr {used used' : ℕ → Bool} {g : ℕ}
    (h : ∀ k < 4, used' (4 * g + k) = used (4 * g + k)) : groupType used' g = groupType used g := by
  have h0 := h 0 (by omega)
  rw [Nat.add_zero] at h0
  rw [groupType, groupType, h0, h 1 (by omega), h 2 (by omega), h 3 (by omega)]

/-- The blocks of a group that changes are changed one by one. -/
lemma groupType_change {used used' : ℕ → Bool} {g : ℕ} (f : ℕ → Bool → Bool)
    (h : ∀ k < 4, used' (4 * g + k) = f k (used (4 * g + k))) :
    groupType used' g = freeAtEnd (f 0 (used (4 * g))) (f 1 (used (4 * g + 1)))
      (f 2 (used (4 * g + 2))) (f 3 (used (4 * g + 3))) := by
  have h0 := h 0 (by omega)
  rw [Nat.add_zero] at h0
  rw [groupType, h0, h 1 (by omega), h 2 (by omega), h 3 (by omega)]

lemma groupType_le (used : ℕ → Bool) (g : ℕ) : groupType used g ≤ 4 := by
  rw [groupType, freeAtEnd]
  split_ifs <;> omega

/-- The blocks that a group of this type has at its end are free. -/
lemma used_eq_false {used : ℕ → Bool} {g k : ℕ} (hlow : 4 - groupType used g ≤ k) (hk : k < 4) :
    used (4 * g + k) = false := by
  simp only [groupType, freeAtEnd] at hlow
  have hcases : k = 0 ∨ k = 1 ∨ k = 2 ∨ k = 3 := by omega
  rcases hcases with rfl | rfl | rfl | rfl <;> split_ifs at hlow <;> simp_all

/-- The header after the allocation of `size` blocks in a group of type `type`. -/
lemma Consistent.create {h h' : BlockFileHeader} {live : List Block} (hc : Consistent h live)
    {size g : ℕ} (hsize : 1 ≤ size) (hle : size ≤ groupType h.used g)
    (hg : g < h.maxEntries / 4) (hmax : h'.maxEntries = h.maxEntries)
    (hhints : ∀ k, h'.hints k ≤ h.maxEntries / 32)
    (hused : ∀ n, h'.used n = (h.used n || decide (4 * g + (4 - groupType h.used g) ≤ n ∧
      n < 4 * g + (4 - groupType h.used g) + size)))
    (hnum : h'.numEntries = h.numEntries + 1)
    (hempty : h'.empty = if groupType h.used g ≠ size then
        count (count h.empty (groupType h.used g) (-1)) (groupType h.used g - size) 1
      else count h.empty (groupType h.used g) (-1)) :
    Consistent h' (live ++ [⟨4 * g + (4 - groupType h.used g), size⟩]) := by
  have htype := groupType_le h.used g
  have hfree : ∀ n, 4 * g + (4 - groupType h.used g) ≤ n →
      n < 4 * g + (4 - groupType h.used g) + size → h.used n = false := fun n hlo hhi => by
    have := @used_eq_false h.used g (n - 4 * g) (by omega) (by omega)
    rwa [(by omega : 4 * g + (n - 4 * g) = n)] at this
  have hother : ∀ g', g' ≠ g → groupType h'.used g' = groupType h.used g' := fun g' hne => by
    refine groupType_congr fun k hk => ?_
    rw [hused, decide_eq_false (by omega), Bool.or_false]
  have hgroup : groupType h'.used g = groupType h.used g - size := by
    rw [groupType_change (fun k b => b || within (4 - groupType h.used g) size k) fun k hk => ?_]
    · exact freeAtEnd_set _ _ _ _ (groupType h.used g) (by omega) rfl size (by omega) hle
    · rw [hused, within]
      congr 1
      exact decide_eq_decide.mpr (by omega)
  refine ⟨hmax ▸ hc.maxEntries_dvd, hmax ▸ hc.maxEntries_le, hmax ▸ hhints, ?_, ?_, ?_, ?_, ?_⟩
  · intro b hb
    rw [List.mem_append, List.mem_singleton] at hb
    rw [hmax]
    rcases hb with hb | rfl
    · exact hc.inGroup b hb
    · refine ⟨hsize, ?_, ?_⟩ <;> dsimp only <;> omega
  · rw [List.pairwise_append]
    refine ⟨hc.disjoint, List.pairwise_singleton _ _, fun a ha b hb n hcovers => ?_⟩
    rw [List.mem_singleton] at hb
    subst hb
    have hin : h.used n = true := (hc.map n).mpr ⟨a, ha, hcovers.1⟩
    rw [hfree n hcovers.2.1 hcovers.2.2] at hin
    cases hin
  · intro n
    rw [hused, Bool.or_eq_true, hc.map n, decide_eq_true_eq]
    simp only [List.mem_append, List.mem_singleton, or_and_right, exists_or, exists_eq_left]
    rfl
  · rw [hnum, hc.numEntries, List.length_append]
    rfl
  · intro k hk hk4
    rw [hmax, card_freeGroups_change hg hother k, ← hc.empty k hk hk4, hgroup, hempty]
    by_cases heq : groupType h.used g = size
    · have hne : ¬ groupType h.used g - size = k := by omega
      rw [if_neg (not_not.mpr heq), count_apply _ (by omega) hk, if_neg hne]
      split_ifs <;> omega
    · rw [if_pos heq, count_apply _ (by omega) hk, count_apply _ (by omega) hk]
      split_ifs <;> omega

/-- An allocation that the counters allow succeeds. -/
theorem createMapBlock_spec {h : BlockFileHeader} {live : List Block} (hc : Consistent h live)
    {size : ℕ} (hsize : 1 ≤ size) (hmax : size ≤ 4) (hcan : h.canAllocate size = true) :
    ∃ h' index, h.createMapBlock size = (h', some index) ∧
      Consistent h' (live ++ [⟨index, size⟩]) ∧ h'.maxEntries = h.maxEntries ∧
      h'.entrySize = h.entrySize ∧ h'.updating = h.updating := by
  obtain ⟨type, htarget, hle, htype, hne⟩ := target_of_canAllocate hsize hmax hcan
  have hfree : (freeGroups h.used (h.maxEntries / 4) type).card ≠ 0 := by
    have := hc.empty type (by omega) htype
    omega
  obtain ⟨i, j, hsearch, hi, hj, rfl⟩ :=
    exists_searchWords (h.hints (type - 1)) (hc.hints_le _) rfl hc.maxEntries_dvd hfree
  have hindex : i * 32 + (j * 4 + 4 - groupType h.used (8 * i + j)) =
      4 * (8 * i + j) + (4 - groupType h.used (8 * i + j)) := by omega
  have hdvd := hc.maxEntries_dvd
  rw [BlockFileHeader.createMapBlock, htarget]
  dsimp only
  rw [hsearch]
  refine ⟨_, _, rfl, ?_, rfl, rfl, rfl⟩
  rw [hindex]
  refine hc.create hsize hle (by omega) rfl (fun k => ?_) (fun n => ?_) rfl rfl
  · dsimp only
    by_cases hk : k = groupType h.used (8 * i + j) - 1
    · rw [hk, update_self]
      omega
    · rw [update_of_ne hk]
      exact hc.hints_le k
  · rw [← hindex]
    exact usedIn_set h.allocationMap (by omega) (by omega)

/-- The four blocks of a group as `DeleteMapBlock` reads them. -/
lemma byteMap_group (h : BlockFileHeader) (index : ℕ) {k : ℕ} (hk : k < 4) :
    (if index % 8 ≥ 4 then h.byteMap (index / 8) >>> 4 else h.byteMap (index / 8)).getLsbD k =
      h.used (4 * (index / 4) + k) := by
  rw [BlockFileHeader.used, usedIn, (by omega : (4 * (index / 4) + k) / 32 = index / 8 / 4)]
  have hplace : (4 * (index / 4) + k) % 32 =
      8 * (index / 8 % 4) + if index % 8 ≥ 4 then 4 + k else k := by
    split_ifs <;> omega
  rw [hplace]
  split_ifs with hhigh
  · rw [BitVec.getLsbD_ushiftRight, BlockFileHeader.byteMap, BitVec.getLsbD_setWidth,
      BitVec.getLsbD_ushiftRight, decide_eq_true (by omega), Bool.true_and]
  · rw [BlockFileHeader.byteMap, BitVec.getLsbD_setWidth, BitVec.getLsbD_ushiftRight,
      decide_eq_true (by omega), Bool.true_and]

lemma updateCounters_iff (h : BlockFileHeader) (index : ℕ) {bits : ℕ} (hbits : bits < 5) :
    (if index % 8 ≥ 4 then h.byteMap (index / 8) >>> 4 else h.byteMap (index / 8)) &&&
        ((0xf#8 <<< (4 - bits)) &&& 0xf#8) = 0 ↔ bits ≤ groupType h.used (index / 4) := by
  rw [and_endMask_eq_zero _ hbits, byteMap_group h index (by omega),
    byteMap_group h index (by omega),
    byteMap_group h index (by omega), byteMap_group h index (by omega)]
  rfl

/-- The type of the group without the blocks that are given back. -/
lemma newType_eq (h : BlockFileHeader) (index : ℕ) {size : ℕ} (hsize : size < 8)
    (used' : ℕ → Bool) (hused : ∀ k < 4, used' (4 * (index / 4) + k) =
      (h.used (4 * (index / 4) + k) && !within (index % 4) size k)) :
    getMapBlockType ((if index % 8 ≥ 4 then h.byteMap (index / 8) >>> 4
        else h.byteMap (index / 8)) &&& ~~~(((1#8 <<< size) - 1#8) <<< (index % 4))) =
      groupType used' (index / 4) := by
  have hbit : ∀ k < 4, ((if index % 8 ≥ 4 then h.byteMap (index / 8) >>> 4
      else h.byteMap (index / 8)) &&& ~~~(((1#8 <<< size) - 1#8) <<< (index % 4))).getLsbD k =
        used' (4 * (index / 4) + k) := fun k hk => by
    rw [BitVec.getLsbD_and, BitVec.getLsbD_not, getLsbD_ones hsize _ _ (by omega),
      byteMap_group h index hk, hused k hk, within, decide_eq_true (by omega : k < 8),
      Bool.true_and]
  rw [getMapBlockType_eq, hbit 0 (by omega), hbit 1 (by omega), hbit 2 (by omega),
    hbit 3 (by omega)]
  rfl

/-- The block and the others cover no block together. -/
lemma Consistent.erase_covers {h : BlockFileHeader} {live : List Block} (hc : Consistent h live)
    {b : Block} (hb : b ∈ live) (n : ℕ) :
    (∃ a ∈ live.erase b, a.Covers n) ↔ (∃ a ∈ live, a.Covers n) ∧ ¬ b.Covers n := by
  have hperm := List.perm_cons_erase hb
  have hdisjoint : (b :: live.erase b).Pairwise fun a b => ∀ n, ¬ (a.Covers n ∧ b.Covers n) :=
    (hperm.pairwise_iff fun {x y} hxy n hboth => hxy n hboth.symm).mp hc.disjoint
  have hb' := (List.pairwise_cons.mp hdisjoint).1
  simp only [hperm.mem_iff, List.mem_cons, or_and_right, exists_or, exists_eq_left]
  constructor
  · rintro ⟨a, ha, hcovers⟩
    exact .inr ⟨⟨a, ha, hcovers⟩, fun hbn => hb' a ha n ⟨hbn, hcovers⟩⟩
  · rintro (⟨hbn, hnot⟩ | ⟨hrest, -⟩)
    · exact absurd hbn hnot
    · exact hrest

/-- The header after the deletion of a block in use. -/
lemma Consistent.delete {h h' : BlockFileHeader} {live : List Block} (hc : Consistent h live)
    {b : Block} (hb : b ∈ live) (hmax : h'.maxEntries = h.maxEntries) (hhints : h'.hints = h.hints)
    (hused : ∀ n, h'.used n = (h.used n && !decide (b.index ≤ n ∧ n < b.index + b.size)))
    (hnum : h'.numEntries = h.numEntries - 1)
    (hempty : h'.empty =
      if 4 - b.size - b.index % 4 ≤ groupType h.used (b.index / 4) then
        count (if 4 - b.size - b.index % 4 ≠ 0 then
            count h.empty (4 - b.size - b.index % 4) (-1) else h.empty)
          (groupType h'.used (b.index / 4)) 1
      else h.empty) : Consistent h' (live.erase b) := by
  obtain ⟨hsize, hend, hbound⟩ := hc.inGroup b hb
  have hdvd := hc.maxEntries_dvd
  have hgroup : b.index / 4 < h.maxEntries / 4 := by omega
  have hin : ∀ k, within (b.index % 4) b.size k = true → h.used (4 * (b.index / 4) + k) = true := by
    intro k hk
    rw [within, decide_eq_true_eq] at hk
    exact (hc.map _).mpr ⟨b, hb, by rw [Block.Covers]; omega⟩
  have hother : ∀ g', g' ≠ b.index / 4 → groupType h'.used g' = groupType h.used g' := by
    intro g' hne
    refine groupType_congr fun k hk => ?_
    rw [hused, decide_eq_false (by omega), Bool.not_false, Bool.and_true]
  have hnew : groupType h'.used (b.index / 4) =
      freeAtEnd (h.used (4 * (b.index / 4)) && !within (b.index % 4) b.size 0)
        (h.used (4 * (b.index / 4) + 1) && !within (b.index % 4) b.size 1)
        (h.used (4 * (b.index / 4) + 2) && !within (b.index % 4) b.size 2)
        (h.used (4 * (b.index / 4) + 3) && !within (b.index % 4) b.size 3) := by
    refine groupType_change (fun k b' => b' && !within (b.index % 4) b.size k) fun k hk => ?_
    rw [hused, within]
    congr 2
    exact decide_eq_decide.mpr (by omega)
  refine ⟨hmax ▸ hc.maxEntries_dvd, hmax ▸ hc.maxEntries_le, ?_, ?_, ?_, ?_, ?_, ?_⟩
  · rw [hmax, hhints]
    exact hc.hints_le
  · intro a ha
    rw [hmax]
    exact hc.inGroup a (List.mem_of_mem_erase ha)
  · exact hc.disjoint.sublist List.erase_sublist
  · intro n
    rw [hused, hc.erase_covers hb, ← hc.map n, Block.Covers, Bool.and_eq_true, Bool.not_eq_true',
      decide_eq_false_iff_not]
  · have hpos := List.length_pos_of_mem hb
    rw [hnum, hc.numEntries, List.length_erase_of_mem hb]
    omega
  · intro k hk hk4
    rw [hmax, card_freeGroups_change hgroup hother k, ← hc.empty k hk hk4, hempty]
    by_cases hlast : 4 - b.size - b.index % 4 ≤ groupType h.used (b.index / 4)
    · have hall : ((!within (b.index % 4) b.size 0 || h.used (4 * (b.index / 4))) &&
          (!within (b.index % 4) b.size 1 || h.used (4 * (b.index / 4) + 1)) &&
          (!within (b.index % 4) b.size 2 || h.used (4 * (b.index / 4) + 2)) &&
          (!within (b.index % 4) b.size 3 || h.used (4 * (b.index / 4) + 3))) = true := by
        have himp : ∀ k,
            (!within (b.index % 4) b.size k || h.used (4 * (b.index / 4) + k)) = true :=
          fun k => by
            cases hk : within (b.index % 4) b.size k with
            | false => rfl
            | true => exact hin k hk
        have h0 := himp 0
        rw [Nat.add_zero] at h0
        rw [h0, himp 1, himp 2, himp 3]
        rfl
      have hold : groupType h.used (b.index / 4) = 4 - b.size - b.index % 4 :=
        freeAtEnd_eq_of_used _ _ _ _ _ (Nat.mod_lt _ (by omega)) _ (by omega) hsize hlast hall
      have hpos : 1 ≤ groupType h'.used (b.index / 4) := by
        rw [hnew]
        exact freeAtEnd_clear_end _ _ _ _ _ (Nat.mod_lt _ (by omega)) _ (by omega)
          ⟨hsize, hend, hlast⟩
      rw [if_pos hlast, count_apply _ hpos hk, hold]
      by_cases hzero : 4 - b.size - b.index % 4 = 0
      · have hne : ¬ 4 - b.size - b.index % 4 = k := by omega
        rw [if_neg (not_not.mpr hzero), if_neg hne, sub_zero]
      · rw [if_pos hzero, count_apply _ (by omega) hk]
        split_ifs <;> omega
    · have hsame : groupType h'.used (b.index / 4) = groupType h.used (b.index / 4) := by
        rw [hnew]
        exact freeAtEnd_clear_inside _ _ _ _ _ (Nat.mod_lt _ (by omega)) _ (by omega) hend hlast
      rw [if_neg hlast, hsame]
      omega

/-- A deletion of a block in use corrects the counters. -/
theorem deleteMapBlock_spec {h : BlockFileHeader} {live : List Block} (hc : Consistent h live)
    {b : Block} (hb : b ∈ live) : Consistent (h.deleteMapBlock b.index b.size) (live.erase b) := by
  obtain ⟨hsize, hend, hbound⟩ := hc.inGroup b hb
  have hle : ¬ b.size > kMaxNumBlocks := by
    rw [kMaxNumBlocks]
    omega
  have hused : ∀ n, (h.deleteMapBlock b.index b.size).used n =
      (h.used n && !decide (b.index ≤ n ∧ n < b.index + b.size)) := by
    intro n
    have hclear := usedIn_clear h.allocationMap (i := b.index / 8 / 4) (n := n)
      (by omega : b.index % 32 + b.size ≤ 32) _
      fun k hk => getLsbD_byteMask (by omega : b.index % 8 + b.size ≤ 8) (by omega) hk
    rw [(by omega : b.index / 8 / 4 * 32 + b.index % 32 = b.index)] at hclear
    rw [← hclear, BlockFileHeader.deleteMapBlock, if_neg hle]
  refine hc.delete hb ?_ ?_ hused ?_ ?_
  · rw [BlockFileHeader.deleteMapBlock, if_neg hle]
  · rw [BlockFileHeader.deleteMapBlock, if_neg hle]
  · rw [BlockFileHeader.deleteMapBlock, if_neg hle]
  · have hcond := updateCounters_iff h b.index (by omega : 4 - b.size - b.index % 4 < 5)
    have htype := newType_eq h b.index (by omega : b.size < 8)
      (h.deleteMapBlock b.index b.size).used fun k hk => by
        rw [hused, within]
        congr 2
        exact decide_eq_decide.mpr (by omega)
    rw [← htype, BlockFileHeader.deleteMapBlock, if_neg hle]
    dsimp only
    simp only [hcond]

end Invariant

section Growth

/-- The free blocks that the counters promise, and the blocks in use. -/
lemma sum_groupType_add_used (used : ℕ → Bool) (groups : ℕ) :
    ∑ g ∈ Finset.range groups, groupType used g +
      ((Finset.range (4 * groups)).filter fun n => used n = true).card ≤ 4 * groups := by
  simp only [Finset.card_filter]
  induction groups with
  | zero => simp
  | succ n ih =>
    have hgroup : groupType used n + ((if used (4 * n) = true then 1 else 0) +
        (if used (4 * n + 1) = true then 1 else 0) + (if used (4 * n + 2) = true then 1 else 0) +
        if used (4 * n + 3) = true then 1 else 0) ≤ 4 := by
      rw [groupType]
      cases used (4 * n) <;> cases used (4 * n + 1) <;> cases used (4 * n + 2) <;>
        cases used (4 * n + 3) <;> decide
    rw [Finset.sum_range_succ, Nat.mul_succ, Finset.sum_range_succ, Finset.sum_range_succ,
      Finset.sum_range_succ, Finset.sum_range_succ]
    omega

lemma sum_freeGroups (used : ℕ → Bool) (groups : ℕ) :
    ∑ k ∈ Finset.range 4, (freeGroups used groups (k + 1)).card * (k + 1) =
      ∑ g ∈ Finset.range groups, groupType used g := by
  simp only [freeGroups, Finset.card_filter, Finset.sum_mul]
  rw [Finset.sum_comm]
  refine Finset.sum_congr rfl fun g _ => ?_
  have hle := groupType_le used g
  simp only [Finset.sum_range_succ, Finset.sum_range_zero]
  interval_cases groupType used g <;> rfl

/-- Every block in use takes a block number of its own. -/
lemma Consistent.length_le {h : BlockFileHeader} {live : List Block} (hc : Consistent h live) :
    live.length ≤
      ((Finset.range (4 * (h.maxEntries / 4))).filter fun n => h.used n = true).card := by
  have hdvd := hc.maxEntries_dvd
  have hcovers : ∀ b ∈ live, b.Covers b.index := fun b hb => by
    have := (hc.inGroup b hb).1
    rw [Block.Covers]
    omega
  have hnodup : (live.map Block.index).Nodup := by
    rw [List.Nodup, List.pairwise_map]
    refine hc.disjoint.imp_of_mem fun {a b} ha hb hdisjoint heq => ?_
    exact hdisjoint a.index ⟨hcovers a ha, heq ▸ hcovers b hb⟩
  rw [← List.length_map (f := Block.index), ← List.toFinset_card_of_nodup hnodup]
  refine Finset.card_le_card fun n hn => ?_
  rw [List.mem_toFinset, List.mem_map] at hn
  obtain ⟨b, hb, rfl⟩ := hn
  obtain ⟨hsize, -, hbound⟩ := hc.inGroup b hb
  rw [Finset.mem_filter, Finset.mem_range]
  exact ⟨by omega, (hc.map _).mpr ⟨b, hb, hcovers b hb⟩⟩

lemma emptyBlocks_eq {h : BlockFileHeader} {groups : ℕ} {used : ℕ → Bool}
    (hempty : ∀ k, 1 ≤ k → k ≤ 4 → h.empty (k - 1) = (freeGroups used groups k).card) :
    h.emptyBlocks = ∑ g ∈ Finset.range groups, (groupType used g : ℤ) := by
  have h0 := hempty 1 (by omega) (by omega)
  have h1 := hempty 2 (by omega) (by omega)
  have h2 := hempty 3 (by omega) (by omega)
  have h3 := hempty 4 (by omega) (by omega)
  have hsum := sum_freeGroups used groups
  simp only [Finset.sum_range_succ, Finset.sum_range_zero] at hsum
  simp only [Nat.reduceSub] at h0 h1 h2 h3
  have hneg : ¬ ((List.range kMaxNumBlocks).any fun i => h.empty i < 0) = true := by
    simp [kMaxNumBlocks, List.range_succ, h0, h1, h2, h3]
  rw [BlockFileHeader.emptyBlocks, if_neg hneg, ← Nat.cast_sum, ← hsum]
  simp [kMaxNumBlocks, List.range_succ, h0, h1, h2, h3]
  ring

/-- The counters pass their own check. -/
lemma Consistent.counters_le {h : BlockFileHeader} {live : List Block} (hc : Consistent h live) :
    0 ≤ h.emptyBlocks ∧ h.emptyBlocks + h.numEntries ≤ h.maxEntries := by
  have hsum := sum_groupType_add_used h.used (h.maxEntries / 4)
  have hlen := hc.length_le
  have hempty := emptyBlocks_eq hc.empty
  rw [← Nat.cast_sum] at hempty
  rw [hempty, hc.numEntries]
  omega

lemma Consistent.validateCounters {h : BlockFileHeader} {live : List Block}
    (hc : Consistent h live) : h.validateCounters = true := by
  have hle := hc.counters_le.2
  have hmax := hc.maxEntries_le
  have hnum := hc.numEntries
  rw [BlockFileHeader.validateCounters, decide_eq_true_eq]
  omega

lemma Consistent.fixAllocationCounters {h : BlockFileHeader} {live : List Block}
    (hc : Consistent h live) : Consistent h.fixAllocationCounters live :=
  ⟨hc.maxEntries_dvd, hc.maxEntries_le, fun _ => Nat.zero_le _, hc.inGroup, hc.disjoint, hc.map,
    hc.numEntries, fun _ hk _ => fixAllocationCounters_empty hc.maxEntries_dvd hk⟩

/-- The file is as long as its header says, and no repair is going on. -/
structure FileConsistent (f : MappedFile) (live : List Block) : Prop where
  header : Consistent f.header live
  entrySize : 36 ≤ f.header.entrySize ∧ f.header.entrySize ≤ 4096
  length : f.length = f.header.entrySize * f.header.maxEntries + kBlockHeaderSize
  updating : f.header.updating = 0

lemma Consistent.set_updating {h : BlockFileHeader} {live : List Block} (hc : Consistent h live)
    (n : ℕ) : Consistent { h with updating := n } live :=
  ⟨hc.maxEntries_dvd, hc.maxEntries_le, hc.hints_le, hc.inGroup, hc.disjoint, hc.map,
    hc.numEntries, hc.empty⟩

/-- The repair of a header that is right changes the hints at most. -/
theorem fixBlockFileHeader_spec {f : MappedFile} {live : List Block} (hf : FileConsistent f live) :
    ∃ f', f.fixBlockFileHeader = (f', true) ∧ FileConsistent f' live := by
  obtain ⟨hmin, hmax⟩ := hf.entrySize
  have hc := (hf.header.set_updating 1).fixAllocationCounters
  have hnum : ¬ f.header.numEntries < 0 := by
    rw [hf.header.numEntries]
    omega
  have hlength : ¬ f.length < kBlockHeaderSize := by
    rw [hf.length]
    omega
  have hle := hc.counters_le.2
  refine ⟨{ f with header := { ({ f.header with updating := 1 } : BlockFileHeader
    ).fixAllocationCounters with updating := 0 } }, ?_, hc.set_updating 0, hf.entrySize, hf.length,
    rfl⟩
  rw [MappedFile.fixBlockFileHeader, if_neg hlength, if_neg (by omega)]
  dsimp only
  rw [if_neg fun h => h.1 hf.length, if_neg (not_not.mpr hf.length), if_neg (not_lt.mpr hle),
    if_pos hc.validateCounters]

/-- The groups that a file grows by are free. -/
lemma card_freeGroups_grow {used : ℕ → Bool} {groups groups' : ℕ} (hle : groups ≤ groups')
    (hfree : ∀ n, 4 * groups ≤ n → used n = false) (k : ℕ) :
    (freeGroups used groups' k).card =
      (freeGroups used groups k).card + if k = 4 then groups' - groups else 0 := by
  obtain ⟨m, rfl⟩ := Nat.exists_eq_add_of_le hle
  have hnew : ∀ g, groupType used (groups + g) = 4 := fun g => by
    rw [groupType, hfree _ (by omega), hfree _ (by omega), hfree _ (by omega), hfree _ (by omega)]
    rfl
  simp only [freeGroups, Finset.card_filter]
  rw [Finset.sum_range_add]
  congr 1
  by_cases hk : k = 4
  · simp [hnew, hk]
  · have hne : ¬ 4 = k := fun h => hk h.symm
    simp [hnew, hk, hne]

theorem growBlockFile_spec {f : MappedFile} {live : List Block} (hf : FileConsistent f live)
    (hempty : f.header.empty 3 = 0) (setLength : Bool) :
    FileConsistent (f.growBlockFile setLength).1 live := by
  have hc := hf.header
  have hdvd := hc.maxEntries_dvd
  have hmax := hc.maxEntries_le
  have hkMax : kMaxBlocks = 64896 := rfl
  rw [MappedFile.growBlockFile]
  by_cases hfull : kMaxBlocks = f.header.maxEntries
  · rw [if_pos hfull]
    exact hf
  rw [if_neg hfull]
  cases setLength with
  | false =>
    obtain ⟨f', hfix, hf'⟩ := fixBlockFileHeader_spec hf
    have hlt : f.header.updating < 10 := by
      rw [hf.updating]
      omega
    simpa [hlt, hfix] using hf'
  | true =>
    set newSize := if f.header.maxEntries + 1024 > kMaxBlocks then kMaxBlocks
      else f.header.maxEntries + 1024 with hnew
    have hle : f.header.maxEntries ≤ newSize ∧ newSize ≤ kMaxBlocks ∧ 32 ∣ newSize := by
      rw [hnew]
      split_ifs <;> omega
    have hfree : ∀ n, 4 * (f.header.maxEntries / 4) ≤ n → f.header.used n = false := fun n hn => by
      by_contra hused
      rw [Bool.not_eq_false] at hused
      obtain ⟨b, hb, hcovers⟩ := (hc.map n).mp hused
      obtain ⟨-, -, hbound⟩ := hc.inGroup b hb
      rw [Block.Covers] at hcovers
      omega
    rw [if_pos rfl]
    generalize newSize = size at hle
    refine ⟨⟨hle.2.2, hle.2.1, fun k => ?_, fun b hb => ?_, hc.disjoint, hc.map, hc.numEntries, ?_⟩,
      hf.entrySize, ?_, hf.updating⟩
    · have := hc.hints_le k
      exact this.trans (Nat.div_le_div_right hle.1)
    · obtain ⟨hsize, hend, hbound⟩ := hc.inGroup b hb
      exact ⟨hsize, hend, hbound.trans hle.1⟩
    · intro k hk hk4
      have hgrow := card_freeGroups_grow (Nat.div_le_div_right hle.1) hfree k
      have hold := hc.empty k hk hk4
      change update f.header.empty 3 ((size - f.header.maxEntries) / 4 : ℕ) (k - 1) =
        ((freeGroups f.header.used (size / 4) k).card : ℤ)
      rw [hgrow]
      by_cases hk' : k = 4
      · subst hk'
        rw [hempty] at hold
        rw [update_self, if_pos rfl]
        omega
      · rw [update_of_ne (by omega), if_neg hk', hold, Nat.add_zero]
    · dsimp only
      rw [Nat.mul_comm]

end Growth

section Runs

structure World where
  file : MappedFile
  live : List Block

inductive Event
  | create (size : ℕ)
  | delete (block : Block)
  | grow (setLength : Bool)

inductive Step : World → Event → World → Prop
  | create {w : World} {size : ℕ} (hsize : 1 ≤ size) (hmax : size ≤ 4)
      (hcan : w.file.header.canAllocate size = true) :
      Step w (.create size)
        ⟨{ w.file with header := (w.file.header.createMapBlock size).1 },
          w.live ++ ((w.file.header.createMapBlock size).2.map fun index => ⟨index, size⟩).toList⟩
  | delete {w : World} {b : Block} (hb : b ∈ w.live) :
      Step w (.delete b)
        ⟨{ w.file with header := w.file.header.deleteMapBlock b.index b.size }, w.live.erase b⟩
  /-- No group is free when the file grows. -/
  | grow {w : World} {setLength : Bool} (hempty : w.file.header.empty 3 = 0) :
      Step w (.grow setLength) ⟨(w.file.growBlockFile setLength).1, w.live⟩

/-- The file that `CreateBlockFile` writes. -/
def World.initial (entrySize : ℕ) : World where
  file :=
    { header :=
        { nextFile := 0, entrySize := entrySize, numEntries := 0, maxEntries := 0,
          empty := fun _ => 0, hints := fun _ => 0, updating := 0, allocationMap := fun _ => 0 }
      length := kBlockHeaderSize }
  live := []

/-- The map and the counters are exact. -/
structure World.Exact (w : World) : Prop where
  disjoint : w.live.Pairwise fun a b => ∀ n, ¬ (a.Covers n ∧ b.Covers n)
  inGroup : ∀ b ∈ w.live, 1 ≤ b.size ∧ b.size ≤ 4 ∧ b.index / 4 = (b.index + b.size - 1) / 4 ∧
    b.index + b.size ≤ w.file.header.maxEntries
  map : ∀ n, w.file.header.used n = true ↔ ∃ b ∈ w.live, b.Covers n
  numEntries : w.file.header.numEntries = w.live.length
  empty : ∀ k, 1 ≤ k → k ≤ 4 → w.file.header.empty (k - 1) =
    (freeGroups w.file.header.used (w.file.header.maxEntries / 4) k).card
  recomputed : ∀ k < 4, w.file.header.fixAllocationCounters.empty k = w.file.header.empty k
  succeeds : ∀ size, 1 ≤ size → size ≤ 4 → w.file.header.canAllocate size = true →
    ∃ index, (w.file.header.createMapBlock size).2 = some index

lemma FileConsistent.exact {w : World} (h : FileConsistent w.file w.live) : w.Exact := by
  have hc := h.header
  refine ⟨hc.disjoint, fun b hb => ?_, hc.map, hc.numEntries, hc.empty, fun k hk => ?_,
    fun size hsize hmax hcan => ?_⟩
  · obtain ⟨hsize, hend, hbound⟩ := hc.inGroup b hb
    omega
  · have hfix := fixAllocationCounters_empty hc.maxEntries_dvd (by omega : 1 ≤ k + 1)
    have hempty := hc.empty (k + 1) (by omega) (by omega)
    rw [Nat.add_sub_cancel] at hfix hempty
    rw [hfix, hempty]
  · obtain ⟨h', index, hcreate, -⟩ := createMapBlock_spec hc hsize hmax hcan
    exact ⟨index, by rw [hcreate]⟩

lemma fileConsistent_initial {entrySize : ℕ} (hmin : 36 ≤ entrySize) (hmax : entrySize ≤ 4096) :
    FileConsistent (World.initial entrySize).file (World.initial entrySize).live := by
  refine ⟨⟨dvd_zero _, Nat.zero_le _, fun _ => Nat.zero_le _, ?_, List.Pairwise.nil, fun n => ?_,
    rfl, fun k _ _ => ?_⟩, ⟨hmin, hmax⟩, ?_, rfl⟩
  · intro b hb
    cases hb
  · simp [World.initial, usedIn]
  · simp [World.initial, freeGroups]
  · simp [World.initial]

lemma Step.fileConsistent {w w' : World} {e : Event} (hstep : Step w e w')
    (h : FileConsistent w.file w.live) : FileConsistent w'.file w'.live := by
  cases hstep with
  | create hsize hmax hcan =>
    obtain ⟨h', index, hcreate, hc, hmaxEntries, hentry, hupdating⟩ :=
      createMapBlock_spec h.header hsize hmax hcan
    rw [hcreate]
    refine ⟨hc, ?_, ?_, hupdating.trans h.updating⟩
    · rw [hentry]
      exact h.entrySize
    · rw [hentry, hmaxEntries]
      exact h.length
  | @delete b hb =>
    have hframe : (w.file.header.deleteMapBlock b.index b.size).entrySize =
        w.file.header.entrySize ∧ (w.file.header.deleteMapBlock b.index b.size).maxEntries =
        w.file.header.maxEntries ∧ (w.file.header.deleteMapBlock b.index b.size).updating =
        w.file.header.updating := by
      rw [BlockFileHeader.deleteMapBlock]
      split_ifs <;> exact ⟨rfl, rfl, rfl⟩
    refine ⟨deleteMapBlock_spec h.header hb, ?_, ?_, hframe.2.2.trans h.updating⟩
    · rw [hframe.1]
      exact h.entrySize
    · rw [hframe.1, hframe.2.1]
      exact h.length
  | grow hempty => exact growBlockFile_spec h hempty _

end Runs

end Chromium.BlockFiles
