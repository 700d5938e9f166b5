import Chromium.Enumeration
import Chromium.TilingData
import Mathlib.Data.Int.Interval
import Mathlib.Data.Set.Finite.Lattice

/-!
# The iterators over tiles

`cc/base/tiling_data.cc`: an iterator goes through the tiles whose borders meet a rectangle, row
by row. A difference iterator leaves out those that meet another rectangle.
-/
namespace Chromium.Cc

open Gfx

/-- The sides of a block of tiles: `left_`, `right_` and so on. -/
structure TileRange where
  left : ℤ
  top : ℤ
  right : ℤ
  bottom : ℤ

namespace TileRange

def Contains (r : TileRange) (i j : ℤ) : Prop :=
  (r.left ≤ i ∧ i ≤ r.right) ∧ r.top ≤ j ∧ j ≤ r.bottom

instance (r : TileRange) (i j : ℤ) : Decidable (r.Contains i j) :=
  inferInstanceAs (Decidable (_ ∧ _))

end TileRange

/-- The tiles between the first and the last index of a rectangle. -/
def TilingData.tileRange (t : TilingData) (rect : Rect) : TileRange where
  left := t.firstBorderTileXIndexFromSrcCoord rect.x
  top := t.firstBorderTileYIndexFromSrcCoord rect.y
  right := t.lastBorderTileXIndexFromSrcCoord (rect.right - 1)
  bottom := t.lastBorderTileYIndexFromSrcCoord (rect.bottom - 1)

structure Iterator where
  indexX : ℤ
  indexY : ℤ
  left : ℤ
  right : ℤ
  bottom : ℤ

namespace Iterator

def done (it : Iterator) : Iterator := { it with indexX := -1, indexY := -1 }

/-- The tile it stands at, while it is true. -/
def index (it : Iterator) : Option (ℤ × ℤ) :=
  if it.indexX ≠ -1 ∧ it.indexY ≠ -1 then some (it.indexX, it.indexY) else none

def new (t : TilingData) (rect : Rect) : Iterator :=
  if t.numTilesX ≤ 0 ∨ t.numTilesY ≤ 0 then ⟨-1, -1, -1, -1, -1⟩
  else
    let rect := rect.intersect (.ofSize t.totalSize)
    let range := t.tileRange rect
    let it := ⟨range.left, range.top, range.left, range.right, range.bottom⟩
    if !(t.tileBoundsWithBorder range.left range.top).intersects rect then it.done else it

/-- `operator++`. -/
def next (it : Iterator) : Iterator :=
  if it.index = none then it
  else
    let it := { it with indexX := it.indexX + 1 }
    if it.indexX > it.right then
      let it := { it with indexX := it.left, indexY := it.indexY + 1 }
      if it.indexY > it.bottom then it.done else it
    else it

end Iterator

structure DifferenceIterator where
  indexX : ℤ
  indexY : ℤ
  consider : TileRange
  ignore : TileRange

namespace DifferenceIterator

def done (it : DifferenceIterator) : DifferenceIterator := { it with indexX := -1, indexY := -1 }

def index (it : DifferenceIterator) : Option (ℤ × ℤ) :=
  if it.indexX ≠ -1 ∧ it.indexY ≠ -1 then some (it.indexX, it.indexY) else none

abbrev InIgnoreRect (it : DifferenceIterator) : Prop := it.ignore.Contains it.indexX it.indexY

/-- `operator++` behind the end of a row. -/
def nextRow (it : DifferenceIterator) : DifferenceIterator :=
  let it := { it with indexX := it.consider.left, indexY := it.indexY + 1 }
  let it :=
    if it.InIgnoreRect then
      let it := { it with indexX := it.ignore.right + 1 }
      if it.InIgnoreRect ∨ it.indexX > it.consider.right then
        { it with indexY := it.ignore.bottom + 1, indexX := it.consider.left }
      else it
    else it
  if it.indexY > it.consider.bottom then it.done else it

/-- `operator++`. -/
def next (it : DifferenceIterator) : DifferenceIterator :=
  if it.index = none then it
  else
    let it := { it with indexX := it.indexX + 1 }
    let it := if it.InIgnoreRect then { it with indexX := it.ignore.right + 1 } else it
    if it.indexX > it.consider.right then it.nextRow else it

def new (t : TilingData) (consider ignore : Rect) : DifferenceIterator :=
  let unset : TileRange := ⟨-1, -1, -1, -1⟩
  if t.numTilesX ≤ 0 ∨ t.numTilesY ≤ 0 then ⟨-1, -1, unset, unset⟩
  else
    let bounds := Rect.ofSize t.totalSize
    let consider := consider.intersect bounds
    let ignore := ignore.intersect bounds
    if consider.isEmpty then ⟨-1, -1, unset, unset⟩
    else
      let c := t.tileRange consider
      -- the range to ignore is clamped to the other
      let g : TileRange :=
        if !ignore.isEmpty then
          let g := t.tileRange ignore
          ⟨max g.left c.left, max g.top c.top, min g.right c.right, min g.bottom c.bottom⟩
        else unset
      if g.left = c.left ∧ g.right = c.right ∧ g.top = c.top ∧ g.bottom = c.bottom then
        ⟨-1, -1, c, g⟩
      else
        let it : DifferenceIterator := ⟨c.left, c.top, c, g⟩
        if it.InIgnoreRect then it.next else it

end DifferenceIterator

/-! ### Row by row -/

/-- A tile comes before another. -/
def Before (a b : ℤ × ℤ) : Prop := a.2 < b.2 ∨ a.2 = b.2 ∧ a.1 < b.1

instance : IsStrictOrder (ℤ × ℤ) Before where
  irrefl a := by
    rw [Before]
    omega
  trans a b c hab hbc := by
    rw [Before] at *
    omega

/-- The tiles of one range that are not in another. -/
def difference (consider ignore : TileRange) : Set (ℤ × ℤ) :=
  {c | consider.Contains c.1 c.2 ∧ ¬ ignore.Contains c.1 c.2}

lemma mem_difference {consider ignore : TileRange} {p : ℤ × ℤ} : p ∈ difference consider ignore ↔
    consider.Contains p.1 p.2 ∧ ¬ ignore.Contains p.1 p.2 :=
  Iff.rfl

lemma finite_difference (consider ignore : TileRange) : (difference consider ignore).Finite := by
  apply ((Set.finite_Icc consider.left consider.right).prod
    (Set.finite_Icc consider.top consider.bottom)).subset
  exact fun c hc => ⟨hc.1.1, hc.1.2⟩

namespace DifferenceIterator
variable {c g : TileRange} {x y x' y' : ℤ}

lemma index_eq_some (hx : 0 ≤ x) (hy : 0 ≤ y) : index ⟨x, y, c, g⟩ = some (x, y) :=
  if_pos ⟨by dsimp only; omega, by dsimp only; omega⟩

/-- The next tile in the rows is the next one to visit, unless the rows have come to their end. -/
lemma atFirst_of_le (hleft : 0 ≤ c.left) (htop : 0 ≤ c.top) (hx : c.left ≤ x' ∧ x' ≤ c.right)
    (hy : c.top ≤ y') (hnot : ¬ g.Contains x' y') (hbefore : Before (x, y) (x', y'))
    (hleast : ∀ i j, c.Contains i j → ¬ g.Contains i j → Before (x, y) (i, j) →
      (i, j) = (x', y') ∨ Before (x', y') (i, j)) :
    Enumeration.AtFirst Before (difference c g) (Before (x, y))
      (if y' > c.bottom then done ⟨x', y', c, g⟩ else ⟨x', y', c, g⟩).index := by
  by_cases hend : y' > c.bottom
  · rw [if_pos hend]
    rintro ⟨i, j⟩ ⟨hin, hout⟩ hlt
    have hnone := hleast i j hin hout hlt
    rw [Before, Prod.mk.injEq] at hnone
    rw [TileRange.Contains] at hin
    dsimp only at hin hnone
    omega
  · rw [if_neg hend, index_eq_some (by omega) (by omega)]
    refine ⟨⟨⟨hx, hy, not_lt.mp hend⟩, hnot⟩, hbefore, ?_⟩
    rintro ⟨i, j⟩ ⟨hin, hout⟩ hlt
    exact hleast i j hin hout hlt

/-- Where nothing is left in a row, the iterator goes to the rows behind it. -/
lemma atFirst_nextRow (hleft : 0 ≤ c.left) (htop : 0 ≤ c.top) (hin : c.Contains x y) (x₁ : ℤ)
    (hrow : ∀ i, x < i → i ≤ c.right → g.Contains i y) :
    Enumeration.AtFirst Before (difference c g) (Before (x, y)) (nextRow ⟨x₁, y, c, g⟩).index := by
  obtain ⟨hx, hy⟩ := hin
  have hlast : ∀ i j, c.Contains i j → ¬ g.Contains i j → Before (x, y) (i, j) → y + 1 ≤ j := by
    intro i j hin hout hlt
    by_contra hle
    rw [Before] at hlt
    have hsame : y = j := by omega
    subst hsame
    exact hout (hrow i (by omega) hin.1.2)
  unfold nextRow
  dsimp only [InIgnoreRect]
  by_cases hignore : g.Contains c.left (y + 1)
  · rw [if_pos hignore]
    obtain ⟨⟨hgleft, hgright⟩, hgtop, hgbottom⟩ := hignore
    have hout : ∀ j, ¬ g.Contains (g.right + 1) j := fun j hin => by
      have hle := hin.1.2
      omega
    by_cases hright : g.right + 1 > c.right
    · -- the rows that are left out are left out as a whole
      have hskip : g.Contains (g.right + 1) (y + 1) ∨ g.right + 1 > c.right := .inr hright
      rw [if_pos hskip]
      dsimp only
      apply atFirst_of_le hleft htop
      · exact ⟨le_rfl, by omega⟩
      · omega
      · exact fun hin => absurd hin.2.2 (by omega)
      · exact .inl (by dsimp only; omega)
      · intro i j hin hnot hlt
        have hj := hlast i j hin hnot hlt
        simp only [TileRange.Contains, Before, Prod.mk.injEq] at hin hnot ⊢
        omega
    · have hstay : ¬ (g.Contains (g.right + 1) (y + 1) ∨ g.right + 1 > c.right) :=
        not_or.mpr ⟨hout _, hright⟩
      rw [if_neg hstay]
      dsimp only
      apply atFirst_of_le hleft htop
      · exact ⟨by omega, by omega⟩
      · omega
      · exact hout _
      · exact .inl (by dsimp only; omega)
      · intro i j hin hnot hlt
        have hj := hlast i j hin hnot hlt
        simp only [TileRange.Contains, Before, Prod.mk.injEq] at hin hnot ⊢
        omega
  · rw [if_neg hignore]
    dsimp only
    apply atFirst_of_le hleft htop
    · exact ⟨le_rfl, by omega⟩
    · omega
    · exact hignore
    · exact .inl (by dsimp only; omega)
    · intro i j hin hnot hlt
      have hj := hlast i j hin hnot hlt
      simp only [TileRange.Contains, Before, Prod.mk.injEq] at hin ⊢
      omega

/-- From a tile of the rows, the iterator goes to the next one that is not left out. -/
lemma atFirst_next (hleft : 0 ≤ c.left) (htop : 0 ≤ c.top) (hin : c.Contains x y) :
    Enumeration.AtFirst Before (difference c g) (Before (x, y)) (next ⟨x, y, c, g⟩).index := by
  have hindex : index ⟨x, y, c, g⟩ ≠ none := by
    rw [index_eq_some (hleft.trans hin.1.1) (htop.trans hin.2.1)]
    exact Option.some_ne_none _
  -- within the row it is as at its end, but for the end of the rows
  have hwithin : ∀ x', (⟨x', y, c, g⟩ : DifferenceIterator) =
      if y > c.bottom then done ⟨x', y, c, g⟩ else ⟨x', y, c, g⟩ := by
    intro x'
    rw [if_neg (not_lt.mpr hin.2.2)]
  unfold next
  rw [if_neg hindex]
  dsimp only [InIgnoreRect]
  obtain ⟨hx, hy⟩ := id hin
  by_cases hnext : g.Contains (x + 1) y
  · rw [if_pos hnext]
    dsimp only
    obtain ⟨⟨hgleft, hgright⟩, hgy⟩ := hnext
    by_cases hright : g.right + 1 > c.right
    · rw [if_pos hright]
      apply atFirst_nextRow hleft htop hin
      exact fun i hlt hle => ⟨⟨by omega, by omega⟩, hgy⟩
    · rw [if_neg hright, hwithin]
      apply atFirst_of_le hleft htop
      · exact ⟨by omega, by omega⟩
      · exact hy.1
      · exact fun hin => absurd hin.1.2 (by omega)
      · exact .inr ⟨rfl, by dsimp only; omega⟩
      · intro i j hin hnot hlt
        simp only [TileRange.Contains, Before, Prod.mk.injEq] at hin hnot hlt ⊢
        omega
  · rw [if_neg hnext]
    dsimp only
    by_cases hright : x + 1 > c.right
    · rw [if_pos hright]
      apply atFirst_nextRow hleft htop hin
      exact fun i hlt hle => by omega
    · rw [if_neg hright, hwithin]
      apply atFirst_of_le hleft htop
      · exact ⟨by omega, by omega⟩
      · exact hy.1
      · exact hnext
      · exact .inr ⟨rfl, by dsimp only; omega⟩
      · intro i j hin hnot hlt
        simp only [TileRange.Contains, Before, Prod.mk.injEq] at hin hlt ⊢
        omega

lemma ranges_next (it : DifferenceIterator) :
    it.next.consider = it.consider ∧ it.next.ignore = it.ignore := by
  unfold next nextRow done
  dsimp only
  split_ifs <;> exact ⟨rfl, rfl⟩

/-- From the first tile on, the iterator visits those of the one range that are not in the
other. -/
theorem exists_visited (hleft : 0 ≤ c.left) (htop : 0 ≤ c.top) {it : DifferenceIterator}
    (hranges : it.consider = c ∧ it.ignore = g)
    (hfirst : Enumeration.AtFirst Before (difference c g) (fun _ => True) it.index) :
    ∃ fuel l, Enumeration.visited index next fuel it = some l ∧ l.Nodup ∧
      ∀ p, p ∈ l ↔ p ∈ difference c g := by
  have hnext : ∀ (s : DifferenceIterator) a, (s.consider = c ∧ s.ignore = g ∧
      ∀ a, s.index = some a → a ∈ difference c g) → s.index = some a →
      Enumeration.AtFirst Before (difference c g) (Before a) s.next.index := by
    rintro ⟨x, y, c', g'⟩ a ⟨rfl, rfl, hin⟩ ha
    have hmem := hin a ha
    rw [index] at ha
    split_ifs at ha
    obtain rfl := Option.some.inj ha
    exact atFirst_next hleft htop hmem.1
  apply Enumeration.exists_visited (finite_difference c g) _ hnext _ hfirst
  · rintro s a ⟨hc, hg, hin⟩ ha
    obtain ⟨hc', hg'⟩ := ranges_next s
    refine ⟨hc'.trans hc, hg'.trans hg, fun b hb => ?_⟩
    have hat := hnext s a ⟨hc, hg, hin⟩ ha
    rw [hb] at hat
    exact hat.1
  · refine ⟨hranges.1, hranges.2, fun b hb => ?_⟩
    rw [hb] at hfirst
    exact hfirst.1

end DifferenceIterator

/-! ### Which tiles -/

namespace TilingData
variable {t : TilingData} {i j : ℤ} {rect : Rect}

/-- A rectangle that is not empty, and lies in the layer. -/
structure InLayer (t : TilingData) (rect : Rect) : Prop where
  x_nonneg : 0 ≤ rect.x
  x_lt : rect.x < rect.right
  right_le : rect.right ≤ t.totalSize.width
  y_nonneg : 0 ≤ rect.y
  y_lt : rect.y < rect.bottom
  bottom_le : rect.bottom ≤ t.totalSize.height

/-- A tile with its border meets a rectangle where it meets what is in the layer of it. -/
lemma intersects_intersect (hborder : 0 ≤ t.borderTexels) (h : t.IsTile i j) (rect : Rect) :
    ((rect.intersect (.ofSize t.totalSize)).isEmpty ∧
        ¬ (t.tileBoundsWithBorder i j).intersects rect) ∨
      t.InLayer (rect.intersect (.ofSize t.totalSize)) ∧
        ((t.tileBoundsWithBorder i j).intersects rect ↔
          (t.tileBoundsWithBorder i j).intersects (rect.intersect (.ofSize t.totalSize))) := by
  have hsidesX := sides_x hborder h
  have hsidesY := sides_y hborder h
  have hright := right_tileBoundsWithBorder hborder h
  have hbottom := bottom_tileBoundsWithBorder hborder h
  have hx : (t.tileBoundsWithBorder i j).x = t.xAxis.loWithBorder i := rfl
  have hy : (t.tileBoundsWithBorder i j).y = t.yAxis.loWithBorder j := rfl
  have hspec := rect.intersect_spec (.ofSize t.totalSize)
  rw [Rect.intersects_iff, Rect.right_ofSize, Rect.bottom_ofSize] at hspec
  rw [Rect.intersects_iff, Rect.intersects_iff]
  rcases hspec with ⟨hempty, hapart⟩ | ⟨hfull, hrx, hrright, hry, hrbottom⟩
  · refine .inl ⟨hempty, ?_⟩
    simp only [Rect.ofSize] at hapart
    omega
  · rw [Rect.isEmpty_iff] at hfull
    simp only [Rect.ofSize] at hfull hrx hrright hry hrbottom ⊢
    refine .inr ⟨⟨by omega, by omega, by omega, by omega, by omega, by omega⟩, ?_⟩
    omega

variable (hborder : 0 ≤ t.borderTexels) (hx : 0 < t.numTilesX) (hy : 0 < t.numTilesY)
  (hrect : t.InLayer rect)
include hborder hx hy hrect

/-- The range of a rectangle has the tiles whose borders meet it. -/
lemma contains_tileRange_iff : (t.tileRange rect).Contains i j ↔
    t.IsTile i j ∧ (t.tileBoundsWithBorder i j).intersects rect := by
  have hmeet : t.IsTile i j → ((t.tileRange rect).Contains i j ↔
      (t.tileBoundsWithBorder i j).intersects rect) := by
    intro h
    rw [Rect.intersects_iff, right_tileBoundsWithBorder hborder h,
      bottom_tileBoundsWithBorder hborder h]
    exact and_congr
      (Axis.borders_meet_iff hx hborder h.1.1 h.1.2 hrect.x_nonneg hrect.x_lt hrect.right_le).symm
      (Axis.borders_meet_iff hy hborder h.2.1 h.2.2 hrect.y_nonneg hrect.y_lt
        hrect.bottom_le).symm
  constructor
  · intro h
    have htile : t.IsTile i j := by
      obtain ⟨⟨hi, hi'⟩, hj, hj'⟩ := id h
      exact ⟨⟨(Axis.indexOf_bounds hx).1.trans hi, hi'.trans_lt (Axis.indexOf_bounds hx).2⟩,
        (Axis.indexOf_bounds hy).1.trans hj, hj'.trans_lt (Axis.indexOf_bounds hy).2⟩
    exact ⟨htile, (hmeet htile).mp h⟩
  · rintro ⟨htile, hin⟩
    exact (hmeet htile).mpr hin

/-- The range is not empty. -/
lemma contains_tileRange_first :
    (t.tileRange rect).Contains (t.tileRange rect).left (t.tileRange rect).top :=
  ⟨⟨le_rfl, Axis.firstBorder_le_lastBorder hx hborder hrect.x_nonneg hrect.x_lt hrect.right_le⟩,
    le_rfl, Axis.firstBorder_le_lastBorder hy hborder hrect.y_nonneg hrect.y_lt hrect.bottom_le⟩

end TilingData

/-! ### From the beginning -/

/-- Where the iterator begins, unless it is to ignore everything. -/
lemma DifferenceIterator.exists_visited_start {c g : TileRange} (hleft : 0 ≤ c.left)
    (htop : 0 ≤ c.top) (hfirst : c.Contains c.left c.top) :
    ∃ fuel l, Enumeration.visited index next fuel
        (if g.left = c.left ∧ g.right = c.right ∧ g.top = c.top ∧ g.bottom = c.bottom then
          ⟨-1, -1, c, g⟩
        else if g.Contains c.left c.top then next ⟨c.left, c.top, c, g⟩
        else ⟨c.left, c.top, c, g⟩) = some l ∧ l.Nodup ∧ ∀ p, p ∈ l ↔ p ∈ difference c g := by
  have hleast : ∀ p ∈ difference c g, p = (c.left, c.top) ∨ Before (c.left, c.top) p := by
    rintro ⟨i, j⟩ ⟨hin, -⟩
    simp only [TileRange.Contains, Before, Prod.mk.injEq] at hin ⊢
    omega
  by_cases hall : g.left = c.left ∧ g.right = c.right ∧ g.top = c.top ∧ g.bottom = c.bottom
  · rw [if_pos hall]
    apply exists_visited hleft htop ⟨rfl, rfl⟩
    rintro ⟨i, j⟩ ⟨hin, hout⟩ -
    simp only [TileRange.Contains] at hin hout
    omega
  rw [if_neg hall]
  by_cases hignore : g.Contains c.left c.top
  · rw [if_pos hignore]
    apply exists_visited hleft htop (ranges_next _)
    have hat := atFirst_next (g := g) hleft htop hfirst
    cases hnext : (next ⟨c.left, c.top, c, g⟩).index with
    | none =>
      rw [hnext] at hat
      rintro p hp -
      rcases hleast p hp with rfl | hlt
      · exact hp.2 hignore
      · exact hat p hp hlt
    | some a =>
      rw [hnext] at hat
      refine ⟨hat.1, trivial, fun p hp _ => ?_⟩
      rcases hleast p hp with rfl | hlt
      · exact absurd hignore hp.2
      · exact hat.2.2 p hp hlt
  · rw [if_neg hignore]
    apply exists_visited hleft htop ⟨rfl, rfl⟩
    rw [index_eq_some hleft htop]
    exact ⟨⟨hfirst, hignore⟩, trivial, fun p hp _ => hleast p hp⟩

namespace Iterator

/-- An iterator is a difference iterator that leaves nothing out. -/
def toDifference (top : ℤ) (it : Iterator) : DifferenceIterator :=
  ⟨it.indexX, it.indexY, ⟨it.left, top, it.right, it.bottom⟩, ⟨0, 0, -1, -1⟩⟩

lemma not_contains (i j : ℤ) : ¬ (⟨0, 0, -1, -1⟩ : TileRange).Contains i j := by
  simp only [TileRange.Contains]
  omega

lemma next_toDifference (top : ℤ) (it : Iterator) {a : ℤ × ℤ} (h : it.index = some a) :
    (it.toDifference top).next = it.next.toDifference top := by
  have hindex : (it.toDifference top).index = it.index := rfl
  have hsome : ¬ it.index = none := by
    rw [h]
    exact Option.some_ne_none a
  rw [DifferenceIterator.next, next, hindex, if_neg hsome, if_neg hsome]
  simp only [toDifference, DifferenceIterator.InIgnoreRect, DifferenceIterator.nextRow,
    not_contains, if_false]
  split_ifs <;> rfl

lemma visited_toDifference (top : ℤ) (fuel : ℕ) (it : Iterator) :
    Enumeration.visited DifferenceIterator.index DifferenceIterator.next fuel
      (it.toDifference top) = Enumeration.visited index next fuel it :=
  Enumeration.visited_map (toDifference top) (fun _ => rfl)
    (fun s _ hs => next_toDifference top s hs) fuel it

end Iterator

section Visits
variable {t : TilingData} (hborder : 0 ≤ t.borderTexels) (hx : 0 < t.numTilesX)
  (hy : 0 < t.numTilesY)
include hborder hx hy

/-- An iterator visits the tiles whose borders meet the rectangle. -/
theorem Iterator.exists_visited (rect : Rect) :
    ∃ fuel l, Enumeration.visited index next fuel (new t rect) = some l ∧ l.Nodup ∧
      ∀ p, p ∈ l ↔ t.IsTile p.1 p.2 ∧ (t.tileBoundsWithBorder p.1 p.2).intersects rect := by
  have htile := TilingData.isTile_index hx hy 0 0
  rw [new, if_neg (by omega)]
  dsimp only
  set r := rect.intersect (.ofSize t.totalSize) with hr
  by_cases hempty : r.isEmpty
  · have hnot : ∀ bounds : Rect, bounds.intersects r = false := by
      intro bounds
      rw [Rect.intersects, hempty]
      simp
    rw [hnot, Bool.not_false, if_pos rfl]
    refine ⟨1, [], rfl, .nil, fun p => ?_⟩
    simp only [List.not_mem_nil, false_iff, not_and]
    intro hp
    rcases TilingData.intersects_intersect hborder hp rect with ⟨-, hout⟩ | ⟨-, hiff⟩
    · exact hout
    · rw [hiff, ← hr, hnot]
      exact Bool.false_ne_true
  · obtain ⟨hempty', -⟩ | ⟨hrect, -⟩ := TilingData.intersects_intersect hborder htile rect
    · exact absurd hempty' hempty
    rw [← hr] at hrect
    have hfirst := TilingData.contains_tileRange_first hborder hx hy hrect
    obtain ⟨hbounds, hmeet⟩ := (TilingData.contains_tileRange_iff hborder hx hy hrect).mp hfirst
    rw [hmeet, Bool.not_true, if_neg Bool.false_ne_true]
    obtain ⟨fuel, l, hl, hnodup, hmem⟩ := @DifferenceIterator.exists_visited_start
      (t.tileRange r) ⟨0, 0, -1, -1⟩ hbounds.1.1 hbounds.2.1 hfirst
    rw [if_neg, if_neg (not_contains _ _)] at hl
    · refine ⟨fuel, l, ?_, hnodup, fun p => ?_⟩
      · rw [← hl]
        exact (visited_toDifference (t.tileRange r).top fuel _).symm
      · rw [hmem, mem_difference, and_iff_left (not_contains _ _),
          TilingData.contains_tileRange_iff hborder hx hy hrect]
        apply and_congr_right
        intro hp
        rcases TilingData.intersects_intersect hborder hp rect with ⟨hempty', -⟩ | ⟨-, hiff⟩
        · exact absurd hempty' hempty
        · exact hiff.symm
    · have hright := hfirst.1.2
      have hleft := hbounds.1.1
      dsimp only
      omega

/-- A difference iterator visits those of them whose borders do not meet the other rectangle. -/
theorem DifferenceIterator.exists_visited_new (consider ignore : Rect) :
    ∃ fuel l, Enumeration.visited index next fuel (new t consider ignore) = some l ∧ l.Nodup ∧
      ∀ p, p ∈ l ↔ t.IsTile p.1 p.2 ∧ (t.tileBoundsWithBorder p.1 p.2).intersects consider ∧
        ¬ (t.tileBoundsWithBorder p.1 p.2).intersects ignore := by
  have htile := TilingData.isTile_index hx hy 0 0
  rw [new]
  dsimp only
  rw [if_neg (by omega)]
  by_cases hempty : (consider.intersect (.ofSize t.totalSize)).isEmpty
  · rw [if_pos hempty]
    refine ⟨1, [], rfl, .nil, fun p => ?_⟩
    simp only [List.not_mem_nil, false_iff, not_and]
    intro hp hin
    rcases TilingData.intersects_intersect hborder hp consider with ⟨-, hout⟩ | ⟨hrect, -⟩
    · exact absurd hin hout
    · rw [Rect.isEmpty_iff] at hempty
      have hwide := hrect.x_lt
      have htall := hrect.y_lt
      omega
  obtain ⟨hempty', -⟩ | ⟨hrect, -⟩ := TilingData.intersects_intersect hborder htile consider
  · exact absurd hempty' hempty
  rw [if_neg hempty]
  have hfirst := TilingData.contains_tileRange_first hborder hx hy hrect
  obtain ⟨hbounds, -⟩ := (TilingData.contains_tileRange_iff hborder hx hy hrect).mp hfirst
  generalize hg : (if (!(ignore.intersect (.ofSize t.totalSize)).isEmpty) = true then _ else _) = g
  -- within the range to consider, the clamped range has the tiles that meet the rectangle
  have hignore : ∀ i j, t.IsTile i j →
      (t.tileRange (consider.intersect (.ofSize t.totalSize))).Contains i j →
      (g.Contains i j ↔ (t.tileBoundsWithBorder i j).intersects ignore) := by
    intro i j hij hin
    rcases TilingData.intersects_intersect hborder hij ignore with ⟨hempty', hout⟩ | ⟨hrect', hiff⟩
    · rw [← hg, hempty', Bool.not_true, if_neg Bool.false_ne_true, iff_false_right hout]
      have hi := hij.1.1
      simp only [TileRange.Contains]
      omega
    · have hfull : (ignore.intersect (.ofSize t.totalSize)).isEmpty = false := by
        rw [← Bool.not_eq_true, Rect.isEmpty_iff]
        have hwide := hrect'.x_lt
        have htall := hrect'.y_lt
        omega
      have hmeet := TilingData.contains_tileRange_iff (i := i) (j := j) hborder hx hy hrect'
      rw [and_iff_right hij] at hmeet
      rw [hiff, ← hmeet, ← hg, hfull, Bool.not_false, if_pos rfl]
      simp only [TileRange.Contains] at hin ⊢
      omega
  obtain ⟨fuel, l, hl, hnodup, hmem⟩ :=
    @exists_visited_start _ g hbounds.1.1 hbounds.2.1 hfirst
  refine ⟨fuel, l, hl, hnodup, fun p => ?_⟩
  rw [hmem, mem_difference]
  constructor
  · rintro ⟨hin, hout⟩
    obtain ⟨hp, hmeet⟩ := (TilingData.contains_tileRange_iff hborder hx hy hrect).mp hin
    rcases TilingData.intersects_intersect hborder hp consider with ⟨hempty', -⟩ | ⟨-, hiff⟩
    · exact absurd hempty' hempty
    · exact ⟨hp, hiff.mpr hmeet, fun hin' => hout ((hignore _ _ hp hin).mpr hin')⟩
  · rintro ⟨hp, hmeet, hout⟩
    rcases TilingData.intersects_intersect hborder hp consider with ⟨hempty', -⟩ | ⟨-, hiff⟩
    · exact absurd hempty' hempty
    · have hin := (TilingData.contains_tileRange_iff hborder hx hy hrect).mpr ⟨hp, hiff.mp hmeet⟩
      exact ⟨hin, fun hin' => hout ((hignore _ _ hp hin).mp hin')⟩

end Visits

/-- The tiles partition the layer, and the iterators visit those that they are to visit. -/
theorem tiles_partition_and_iterate (t : TilingData) (hborder : 0 ≤ t.borderTexels)
    (hx : 0 < t.numTilesX) (hy : 0 < t.numTilesY) :
    (∀ x y, (Rect.ofSize t.totalSize).contains x y →
      (∃! c : ℤ × ℤ, t.IsTile c.1 c.2 ∧ (t.tileBounds c.1 c.2).contains x y) ∧
        t.IsTile (t.tileXIndexFromSrcCoord x) (t.tileYIndexFromSrcCoord y) ∧
        (t.tileBounds (t.tileXIndexFromSrcCoord x) (t.tileYIndexFromSrcCoord y)).contains x y) ∧
    (∀ i j, t.IsTile i j →
      ((Rect.ofSize t.totalSize).containsRect (t.tileBounds i j) ∧ ¬ (t.tileBounds i j).isEmpty ∧
        (t.tileBounds i j).x = t.tilePositionX i ∧ (t.tileBounds i j).y = t.tilePositionY j ∧
        (t.tileBounds i j).width = t.tileSizeX i ∧ (t.tileBounds i j).height = t.tileSizeY j) ∧
      (t.tileBoundsWithBorder i j).containsRect (t.tileBounds i j) ∧
        (t.tileBoundsWithBorder i j).width ≤ t.maxTextureSize.width ∧
        (t.tileBoundsWithBorder i j).height ≤ t.maxTextureSize.height) ∧
    (∀ rect, ∃ fuel l,
      Enumeration.visited Iterator.index Iterator.next fuel (.new t rect) = some l ∧ l.Nodup ∧
        ∀ c, c ∈ l ↔ t.IsTile c.1 c.2 ∧ (t.tileBoundsWithBorder c.1 c.2).intersects rect) ∧
    ∀ consider ignore, ∃ fuel l,
      Enumeration.visited DifferenceIterator.index DifferenceIterator.next fuel
        (.new t consider ignore) = some l ∧ l.Nodup ∧
        ∀ c, c ∈ l ↔ t.IsTile c.1 c.2 ∧ (t.tileBoundsWithBorder c.1 c.2).intersects consider ∧
          ¬ (t.tileBoundsWithBorder c.1 c.2).intersects ignore := by
  refine ⟨fun x y hpoint => ?_, fun i j hij => ?_, ?_, ?_⟩
  · have htile : t.IsTile (t.tileXIndexFromSrcCoord x) (t.tileYIndexFromSrcCoord y) :=
      TilingData.isTile_index hx hy _ _
    exact ⟨TilingData.existsUnique_tile hborder hx hy hpoint, htile,
      (TilingData.contains_tileBounds_iff hborder htile hpoint).mpr ⟨rfl, rfl⟩⟩
  · exact ⟨TilingData.tileBounds_spec hborder hij, TilingData.tileBoundsWithBorder_spec hborder hij⟩
  · exact Iterator.exists_visited hborder hx hy
  · exact DifferenceIterator.exists_visited_new hborder hx hy

/-- Three times two tiles, with a border of one. -/
theorem tiles_partition_and_iterate_ten :
    let t : TilingData := ⟨.ofInts 5 5, .ofInts 10 8, 1⟩
    ∃! c : ℤ × ℤ, t.IsTile c.1 c.2 ∧ (t.tileBounds c.1 c.2).contains 4 7 := by
  intro t
  exact ((tiles_partition_and_iterate t (by decide) (by decide) (by decide)).1 4 7
    (by decide)).1

end Chromium.Cc
