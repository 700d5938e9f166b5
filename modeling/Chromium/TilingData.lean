import Chromium.GfxRect

/-!
# The tiles of a layer

`cc/base/tiling_data.cc`: a layer is cut into tiles no larger than a texture, which overlap by
their borders. What the source does for x and for y alike is said once, of an axis.
-/
namespace Chromium.Cc

open Gfx

def computeNumTiles (maxTextureSize totalSize borderTexels : ℤ) : ℤ :=
  if maxTextureSize - 2 * borderTexels ≤ 0 then
    if totalSize > 0 ∧ maxTextureSize ≥ totalSize then 1 else 0
  else
    let numTiles := max 1
      (1 + (totalSize - 1 - 2 * borderTexels).tdiv (maxTextureSize - 2 * borderTexels))
    if totalSize > 0 then numTiles else 0

/-! ### One axis -/

structure Axis where
  maxTextureSize : ℤ
  totalSize : ℤ
  borderTexels : ℤ

namespace Axis

def numTiles (a : Axis) : ℤ := computeNumTiles a.maxTextureSize a.totalSize a.borderTexels

def innerTileSize (a : Axis) : ℤ := a.maxTextureSize - 2 * a.borderTexels

/-- The three index functions differ in the position they divide. -/
def indexOf (a : Axis) (position : ℤ) : ℤ :=
  if a.numTiles ≤ 1 then 0
  else min (max (position.tdiv a.innerTileSize) 0) (a.numTiles - 1)

def tileIndexFromSrcCoord (a : Axis) (srcPosition : ℤ) : ℤ :=
  a.indexOf (srcPosition - a.borderTexels)

def firstBorderTileIndexFromSrcCoord (a : Axis) (srcPosition : ℤ) : ℤ :=
  a.indexOf (srcPosition - 2 * a.borderTexels)

def lastBorderTileIndexFromSrcCoord (a : Axis) (srcPosition : ℤ) : ℤ := a.indexOf srcPosition

/-- Where a tile begins and ends, in `TileBounds`. -/
def lo (a : Axis) (i : ℤ) : ℤ :=
  if i ≠ 0 then a.innerTileSize * i + a.borderTexels else a.innerTileSize * i

def hi (a : Axis) (i : ℤ) : ℤ :=
  let hi := a.innerTileSize * (i + 1) + a.borderTexels
  min (if i + 1 = a.numTiles then hi + a.borderTexels else hi) a.totalSize

/-- Where a tile begins and ends, in `TileBoundsWithBorder`. -/
def loWithBorder (a : Axis) (i : ℤ) : ℤ := a.innerTileSize * i

def hiWithBorder (a : Axis) (i : ℤ) : ℤ :=
  min (a.loWithBorder i + a.innerTileSize + 2 * a.borderTexels) a.totalSize

def tilePosition (a : Axis) (index : ℤ) : ℤ :=
  let pos := (a.maxTextureSize - 2 * a.borderTexels) * index
  if index ≠ 0 then pos + a.borderTexels else pos

def tileSize (a : Axis) (index : ℤ) : ℤ :=
  if index = 0 ∧ a.numTiles = 1 then a.totalSize
  else if index = 0 ∧ a.numTiles > 1 then a.maxTextureSize - a.borderTexels
  else if index < a.numTiles - 1 then a.maxTextureSize - 2 * a.borderTexels
  else if index = a.numTiles - 1 then a.totalSize - a.tilePosition index
  else 0

end Axis

/-! ### Both axes -/

/-- The numbers of tiles are computed from the rest. -/
structure TilingData where
  maxTextureSize : Size
  totalSize : Size
  borderTexels : ℤ

namespace TilingData

def xAxis (t : TilingData) : Axis := ⟨t.maxTextureSize.width, t.totalSize.width, t.borderTexels⟩

def yAxis (t : TilingData) : Axis := ⟨t.maxTextureSize.height, t.totalSize.height, t.borderTexels⟩

def numTilesX (t : TilingData) : ℤ := t.xAxis.numTiles

def numTilesY (t : TilingData) : ℤ := t.yAxis.numTiles

def tileXIndexFromSrcCoord (t : TilingData) : ℤ → ℤ := t.xAxis.tileIndexFromSrcCoord

def tileYIndexFromSrcCoord (t : TilingData) : ℤ → ℤ := t.yAxis.tileIndexFromSrcCoord

def firstBorderTileXIndexFromSrcCoord (t : TilingData) : ℤ → ℤ :=
  t.xAxis.firstBorderTileIndexFromSrcCoord

def firstBorderTileYIndexFromSrcCoord (t : TilingData) : ℤ → ℤ :=
  t.yAxis.firstBorderTileIndexFromSrcCoord

def lastBorderTileXIndexFromSrcCoord (t : TilingData) : ℤ → ℤ :=
  t.xAxis.lastBorderTileIndexFromSrcCoord

def lastBorderTileYIndexFromSrcCoord (t : TilingData) : ℤ → ℤ :=
  t.yAxis.lastBorderTileIndexFromSrcCoord

def tileBounds (t : TilingData) (i j : ℤ) : Rect :=
  .ofInts (t.xAxis.lo i) (t.yAxis.lo j) (t.xAxis.hi i - t.xAxis.lo i)
    (t.yAxis.hi j - t.yAxis.lo j)

def tileBoundsWithBorder (t : TilingData) (i j : ℤ) : Rect :=
  .ofInts (t.xAxis.loWithBorder i) (t.yAxis.loWithBorder j)
    (t.xAxis.hiWithBorder i - t.xAxis.loWithBorder i)
    (t.yAxis.hiWithBorder j - t.yAxis.loWithBorder j)

def tilePositionX (t : TilingData) : ℤ → ℤ := t.xAxis.tilePosition

def tilePositionY (t : TilingData) : ℤ → ℤ := t.yAxis.tilePosition

def tileSizeX (t : TilingData) : ℤ → ℤ := t.xAxis.tileSize

def tileSizeY (t : TilingData) : ℤ → ℤ := t.yAxis.tileSize

/-- What `AssertTile` asks for. -/
def IsTile (t : TilingData) (i j : ℤ) : Prop :=
  (0 ≤ i ∧ i < t.numTilesX) ∧ 0 ≤ j ∧ j < t.numTilesY

end TilingData

/-! ### Where the tiles are -/

namespace Axis
variable {a : Axis} {i k p q l r : ℤ}

/-- The division truncates. -/
lemma tdiv_nonpos {d : ℤ} (hq : q < 0) (hd : 0 ≤ d) : q.tdiv d ≤ 0 := by
  have hneg := Int.tdiv_nonneg (show 0 ≤ -q by omega) hd
  rw [Int.neg_tdiv] at hneg
  omega

/-- There is one tile for all, or the last of many tiles ends behind the others. -/
lemma numTiles_cases (h : 0 < a.numTiles) :
    a.numTiles = 1 ∧ 0 < a.totalSize ∧ a.totalSize ≤ a.maxTextureSize ∨
      1 < a.numTiles ∧ 0 < a.innerTileSize ∧
        a.innerTileSize * (a.numTiles - 1) + 2 * a.borderTexels < a.totalSize ∧
        a.totalSize ≤ a.innerTileSize * a.numTiles + 2 * a.borderTexels := by
  have hinner : a.innerTileSize = a.maxTextureSize - 2 * a.borderTexels := rfl
  have hnum : a.numTiles = computeNumTiles a.maxTextureSize a.totalSize a.borderTexels := rfl
  rw [computeNumTiles, ← hinner] at hnum
  dsimp only at hnum
  split_ifs at hnum with hsmall hone htotal
  · exact .inl ⟨hnum, hone.1, hone.2⟩
  · omega
  · -- the quotient of what is left without a border at either end
    by_cases hneg : a.totalSize - 1 - 2 * a.borderTexels < a.innerTileSize
    · have hquot : (a.totalSize - 1 - 2 * a.borderTexels).tdiv a.innerTileSize ≤ 0 := by
        by_cases hpos : 0 ≤ a.totalSize - 1 - 2 * a.borderTexels
        · rw [Int.tdiv_eq_zero_of_lt hpos hneg]
        · exact tdiv_nonpos (not_le.mp hpos) (by omega)
      exact .inl ⟨by omega, htotal, by omega⟩
    · rw [Int.tdiv_eq_ediv_of_nonneg (by omega)] at hnum
      have hquot : 1 ≤ (a.totalSize - 1 - 2 * a.borderTexels) / a.innerTileSize := by
        rw [Int.le_ediv_iff_mul_le (by omega)]
        omega
      have hn : a.numTiles - 1 = (a.totalSize - 1 - 2 * a.borderTexels) / a.innerTileSize := by
        omega
      have hle := Int.mul_ediv_self_le (x := a.totalSize - 1 - 2 * a.borderTexels)
        (k := a.innerTileSize) (by omega)
      have hlt := Int.lt_mul_ediv_self_add (x := a.totalSize - 1 - 2 * a.borderTexels)
        (k := a.innerTileSize) (by omega)
      rw [← hn] at hle hlt
      rw [mul_sub_one] at hle hlt ⊢
      exact .inr ⟨by omega, by omega, by omega, by omega⟩
  · omega

lemma indexOf_bounds (h : 0 < a.numTiles) : 0 ≤ a.indexOf q ∧ a.indexOf q < a.numTiles := by
  rw [indexOf]
  split_ifs <;> omega

section Index
variable (hn : 1 < a.numTiles) (hinner : 0 < a.innerTileSize)
include hn hinner

lemma indexOf_le_iff (hk : 0 ≤ k) (hlt : k < a.numTiles) :
    a.indexOf q ≤ k ↔ k = a.numTiles - 1 ∨ q < a.innerTileSize * (k + 1) := by
  have hquot : q.tdiv a.innerTileSize ≤ k ↔ q < a.innerTileSize * (k + 1) := by
    by_cases hq : 0 ≤ q
    · rw [Int.tdiv_eq_ediv_of_nonneg hq, mul_comm, ← Int.ediv_lt_iff_lt_mul hinner]
      omega
    · have hnonpos := tdiv_nonpos (not_le.mp hq) hinner.le
      have hpos := mul_pos hinner (show 0 < k + 1 by omega)
      omega
  rw [indexOf, if_neg (by omega), ← hquot]
  omega

lemma le_indexOf_iff (hk : 0 ≤ k) (hlt : k < a.numTiles) :
    k ≤ a.indexOf q ↔ k = 0 ∨ a.innerTileSize * k ≤ q := by
  have hquot : 0 < k → (k ≤ q.tdiv a.innerTileSize ↔ a.innerTileSize * k ≤ q) := by
    intro hpos
    by_cases hq : 0 ≤ q
    · rw [Int.tdiv_eq_ediv_of_nonneg hq, mul_comm, Int.le_ediv_iff_mul_le hinner]
    · have hnonpos := tdiv_nonpos (not_le.mp hq) hinner.le
      have hpos := mul_pos hinner hpos
      omega
  rw [indexOf, if_neg (by omega)]
  by_cases hzero : k = 0
  · omega
  · rw [← hquot (by omega)]
    omega

end Index

variable (h : 0 < a.numTiles) (hborder : 0 ≤ a.borderTexels) (hi : 0 ≤ i) (hlt : i < a.numTiles)
include h hborder hi hlt

/-- The sides of a tile, with its border and without. -/
lemma sides : 0 ≤ a.loWithBorder i ∧ a.loWithBorder i ≤ a.lo i ∧ a.lo i < a.hi i ∧
    a.hi i ≤ a.hiWithBorder i ∧ a.hiWithBorder i ≤ a.totalSize ∧
    a.hiWithBorder i - a.loWithBorder i ≤ a.maxTextureSize ∧
    a.lo i = a.tilePosition i ∧ a.hi i - a.lo i = a.tileSize i := by
  have hdef : a.innerTileSize = a.maxTextureSize - 2 * a.borderTexels := rfl
  simp only [loWithBorder, hiWithBorder, lo, Axis.hi, tilePosition, tileSize, ← hdef, mul_add_one,
    true_and]
  rcases numTiles_cases h with ⟨hone, hpos, hle⟩ | ⟨hmany, hinner, hlow, hhigh⟩
  · obtain rfl : i = 0 := by omega
    simp only [mul_zero, hone]
    split_ifs <;> omega
  · rw [mul_sub_one] at hlow
    have hnonneg := mul_nonneg hinner.le hi
    rcases Int.lt_or_eq_of_le (show i ≤ a.numTiles - 1 by omega) with hbefore | hlast
    · -- the tile ends before the last one begins
      have hnext := mul_le_mul_of_nonneg_left (show i + 1 ≤ a.numTiles - 1 by omega) hinner.le
      rw [mul_add_one, mul_sub_one] at hnext
      split_ifs <;> omega
    · have hthis : a.innerTileSize * i + a.innerTileSize = a.innerTileSize * a.numTiles := by
        rw [hlast, mul_sub_one, sub_add_cancel]
      split_ifs <;> omega

/-- The one tile that a position is in, without borders. -/
lemma mem_iff (hp : 0 ≤ p) (hpt : p < a.totalSize) :
    a.lo i ≤ p ∧ p < a.hi i ↔ i = a.tileIndexFromSrcCoord p := by
  rcases numTiles_cases h with ⟨hone, hpos, hle⟩ | ⟨hmany, hinner, hlow, hhigh⟩
  · have hdef : a.innerTileSize = a.maxTextureSize - 2 * a.borderTexels := rfl
    obtain rfl : i = 0 := by omega
    rw [tileIndexFromSrcCoord, indexOf, if_pos hone.le]
    simp only [lo, Axis.hi, hone, mul_zero, mul_one, zero_add]
    simp
    omega
  · have hindex : i = a.tileIndexFromSrcCoord p ↔
        a.tileIndexFromSrcCoord p ≤ i ∧ i ≤ a.tileIndexFromSrcCoord p := by omega
    rw [hindex, tileIndexFromSrcCoord, indexOf_le_iff hmany hinner hi hlt,
      le_indexOf_iff hmany hinner hi hlt, lo, Axis.hi]
    have hzero : i = 0 → a.innerTileSize * i = 0 := by
      rintro rfl
      exact mul_zero _
    by_cases hlast : i = a.numTiles - 1
    · have hnum : i + 1 = a.numTiles := by omega
      rw [← hnum] at hhigh
      split_ifs <;> omega
    · split_ifs <;> omega

/-- The tiles whose borders meet a part of the axis are those between two indices. -/
lemma borders_meet_iff (hl : 0 ≤ l) (hlr : l < r) (hr : r ≤ a.totalSize) :
    max (a.loWithBorder i) l < min (a.hiWithBorder i) r ↔
      a.firstBorderTileIndexFromSrcCoord l ≤ i ∧ i ≤ a.lastBorderTileIndexFromSrcCoord (r - 1) := by
  have hsides := sides h hborder hi hlt
  rw [firstBorderTileIndexFromSrcCoord, lastBorderTileIndexFromSrcCoord]
  have hmeet : max (a.loWithBorder i) l < min (a.hiWithBorder i) r ↔
      a.loWithBorder i < r ∧ l < a.hiWithBorder i := by omega
  rw [hmeet, hiWithBorder, loWithBorder]
  rcases numTiles_cases h with ⟨hone, hpos, hle⟩ | ⟨hmany, hinner, hlow, hhigh⟩
  · have hdef : a.innerTileSize = a.maxTextureSize - 2 * a.borderTexels := rfl
    obtain rfl : i = 0 := by omega
    rw [indexOf, indexOf, if_pos hone.le, if_pos hone.le, mul_zero]
    omega
  · rw [indexOf_le_iff hmany hinner hi hlt, le_indexOf_iff hmany hinner hi hlt, mul_add_one]
    by_cases hlast : i = a.numTiles - 1
    · have hthis : a.innerTileSize * i + a.innerTileSize = a.innerTileSize * a.numTiles := by
        rw [hlast, mul_sub_one, sub_add_cancel]
      by_cases hzero : i = 0
      · omega
      · omega
    · by_cases hzero : i = 0
      · subst hzero
        rw [mul_zero]
        omega
      · omega

omit hi hlt in
lemma firstBorder_le_lastBorder (hl : 0 ≤ l) (hlr : l < r) (hr : r ≤ a.totalSize) :
    a.firstBorderTileIndexFromSrcCoord l ≤ a.lastBorderTileIndexFromSrcCoord (r - 1) := by
  -- the tile in which the part begins
  have hindex : 0 ≤ a.tileIndexFromSrcCoord l ∧ a.tileIndexFromSrcCoord l < a.numTiles :=
    indexOf_bounds h
  have hsides := sides h hborder hindex.1 hindex.2
  have hin := (mem_iff h hborder hindex.1 hindex.2 hl (by omega)).mpr rfl
  have hmeet := (borders_meet_iff h hborder hindex.1 hindex.2 hl hlr hr).mp (by omega)
  exact hmeet.1.trans hmeet.2

end Axis

namespace TilingData
variable {t : TilingData} {i j x y : ℤ}

section Bounds
variable (hborder : 0 ≤ t.borderTexels) (h : t.IsTile i j)
include hborder h

lemma sides_x : 0 ≤ t.xAxis.loWithBorder i ∧ t.xAxis.loWithBorder i ≤ t.xAxis.lo i ∧
    t.xAxis.lo i < t.xAxis.hi i ∧ t.xAxis.hi i ≤ t.xAxis.hiWithBorder i ∧
    t.xAxis.hiWithBorder i ≤ t.totalSize.width ∧
    t.xAxis.hiWithBorder i - t.xAxis.loWithBorder i ≤ t.maxTextureSize.width ∧
    t.xAxis.lo i = t.tilePositionX i ∧ t.xAxis.hi i - t.xAxis.lo i = t.tileSizeX i :=
  t.xAxis.sides (lt_of_le_of_lt h.1.1 h.1.2) hborder h.1.1 h.1.2

lemma sides_y : 0 ≤ t.yAxis.loWithBorder j ∧ t.yAxis.loWithBorder j ≤ t.yAxis.lo j ∧
    t.yAxis.lo j < t.yAxis.hi j ∧ t.yAxis.hi j ≤ t.yAxis.hiWithBorder j ∧
    t.yAxis.hiWithBorder j ≤ t.totalSize.height ∧
    t.yAxis.hiWithBorder j - t.yAxis.loWithBorder j ≤ t.maxTextureSize.height ∧
    t.yAxis.lo j = t.tilePositionY j ∧ t.yAxis.hi j - t.yAxis.lo j = t.tileSizeY j :=
  t.yAxis.sides (lt_of_le_of_lt h.2.1 h.2.2) hborder h.2.1 h.2.2

lemma right_tileBounds : (t.tileBounds i j).right = t.xAxis.hi i := by
  have hsides := sides_x hborder h
  rw [tileBounds, Rect.right_ofInts (by omega)]
  omega

lemma bottom_tileBounds : (t.tileBounds i j).bottom = t.yAxis.hi j := by
  have hsides := sides_y hborder h
  rw [tileBounds, Rect.bottom_ofInts (by omega)]
  omega

lemma right_tileBoundsWithBorder :
    (t.tileBoundsWithBorder i j).right = t.xAxis.hiWithBorder i := by
  have hsides := sides_x hborder h
  rw [tileBoundsWithBorder, Rect.right_ofInts (by omega)]
  omega

lemma bottom_tileBoundsWithBorder :
    (t.tileBoundsWithBorder i j).bottom = t.yAxis.hiWithBorder j := by
  have hsides := sides_y hborder h
  rw [tileBoundsWithBorder, Rect.bottom_ofInts (by omega)]
  omega

/-- A tile lies in the layer, at its position and of its size. -/
theorem tileBounds_spec :
    (Rect.ofSize t.totalSize).containsRect (t.tileBounds i j) ∧ ¬ (t.tileBounds i j).isEmpty ∧
      (t.tileBounds i j).x = t.tilePositionX i ∧ (t.tileBounds i j).y = t.tilePositionY j ∧
      (t.tileBounds i j).width = t.tileSizeX i ∧ (t.tileBounds i j).height = t.tileSizeY j := by
  have hsidesX := sides_x hborder h
  have hsidesY := sides_y hborder h
  have hright := right_tileBounds hborder h
  have hbottom := bottom_tileBounds hborder h
  have hx : (t.tileBounds i j).x = t.xAxis.lo i := rfl
  have hy : (t.tileBounds i j).y = t.yAxis.lo j := rfl
  have hwidth : (t.tileBounds i j).right = (t.tileBounds i j).x + (t.tileBounds i j).width := rfl
  have hheight : (t.tileBounds i j).bottom = (t.tileBounds i j).y + (t.tileBounds i j).height :=
    rfl
  have hrest : (t.tileBounds i j).x = t.tilePositionX i ∧
      (t.tileBounds i j).y = t.tilePositionY j ∧ (t.tileBounds i j).width = t.tileSizeX i ∧
      (t.tileBounds i j).height = t.tileSizeY j := by omega
  refine ⟨?_, ?_, hrest⟩
  · simp only [Rect.containsRect, Bool.and_eq_true, decide_eq_true_eq]
    rw [hright, hbottom, hx, hy, Rect.right_ofSize, Rect.bottom_ofSize]
    simp only [Rect.ofSize]
    omega
  · rw [Rect.isEmpty_iff]
    omega

/-- With its border it is larger, but no larger than a texture. -/
theorem tileBoundsWithBorder_spec :
    (t.tileBoundsWithBorder i j).containsRect (t.tileBounds i j) ∧
      (t.tileBoundsWithBorder i j).width ≤ t.maxTextureSize.width ∧
      (t.tileBoundsWithBorder i j).height ≤ t.maxTextureSize.height := by
  have hsidesX := sides_x hborder h
  have hsidesY := sides_y hborder h
  have hright := right_tileBoundsWithBorder hborder h
  have hbottom := bottom_tileBoundsWithBorder hborder h
  have hx : (t.tileBoundsWithBorder i j).x = t.xAxis.loWithBorder i := rfl
  have hy : (t.tileBoundsWithBorder i j).y = t.yAxis.loWithBorder j := rfl
  refine ⟨?_, ?_, ?_⟩
  · simp only [Rect.containsRect, Bool.and_eq_true, decide_eq_true_eq]
    rw [right_tileBounds hborder h, bottom_tileBounds hborder h, hright, hbottom, hx, hy]
    exact ⟨⟨⟨hsidesX.2.1, by omega⟩, hsidesY.2.1⟩, by omega⟩
  · rw [Rect.right, hx] at hright
    omega
  · rw [Rect.bottom, hy] at hbottom
    omega

/-- The tile that a point is in, without borders. -/
lemma contains_tileBounds_iff (hpoint : (Rect.ofSize t.totalSize).contains x y) :
    (t.tileBounds i j).contains x y ↔
      i = t.tileXIndexFromSrcCoord x ∧ j = t.tileYIndexFromSrcCoord y := by
  rw [Rect.contains_iff] at hpoint ⊢
  rw [Rect.right_ofSize, Rect.bottom_ofSize] at hpoint
  rw [right_tileBounds hborder h, bottom_tileBounds hborder h]
  exact and_congr
    (t.xAxis.mem_iff (lt_of_le_of_lt h.1.1 h.1.2) hborder h.1.1 h.1.2 hpoint.1.1 hpoint.1.2)
    (t.yAxis.mem_iff (lt_of_le_of_lt h.2.1 h.2.2) hborder h.2.1 h.2.2 hpoint.2.1 hpoint.2.2)

end Bounds

/-- The indices are those of a tile. -/
lemma isTile_index (hx : 0 < t.numTilesX) (hy : 0 < t.numTilesY) (x y : ℤ) :
    t.IsTile (t.xAxis.indexOf x) (t.yAxis.indexOf y) :=
  ⟨Axis.indexOf_bounds hx, Axis.indexOf_bounds hy⟩

/-- Every point of the layer is in one tile. -/
theorem existsUnique_tile (hborder : 0 ≤ t.borderTexels) (hx : 0 < t.numTilesX)
    (hy : 0 < t.numTilesY) (hpoint : (Rect.ofSize t.totalSize).contains x y) :
    ∃! c : ℤ × ℤ, t.IsTile c.1 c.2 ∧ (t.tileBounds c.1 c.2).contains x y := by
  have htile := isTile_index hx hy (x - t.borderTexels) (y - t.borderTexels)
  refine ⟨(t.tileXIndexFromSrcCoord x, t.tileYIndexFromSrcCoord y), ⟨htile, ?_⟩, ?_⟩
  · exact (contains_tileBounds_iff hborder htile hpoint).mpr ⟨rfl, rfl⟩
  · rintro ⟨i, j⟩ ⟨hij, hcontains⟩
    obtain ⟨rfl, rfl⟩ := (contains_tileBounds_iff hborder hij hpoint).mp hcontains
    rfl

end TilingData

end Chromium.Cc
