import Mathlib.Tactic

/-!
# Rectangles

`ui/gfx/size_base.h` and `ui/gfx/rect_base_impl.h`, with sizes that are not negative.
-/
namespace Chromium.Gfx

structure Size where
  width : ℤ
  height : ℤ
  width_nonneg : 0 ≤ width
  height_nonneg : 0 ≤ height

namespace Size

/-- Negative sizes are taken for zero. -/
def ofInts (width height : ℤ) : Size where
  width := if width < 0 then 0 else width
  height := if height < 0 then 0 else height
  width_nonneg := by split_ifs <;> omega
  height_nonneg := by split_ifs <;> omega

def isEmpty (s : Size) : Bool := s.width = 0 || s.height = 0

end Size

structure Rect where
  x : ℤ
  y : ℤ
  size : Size

namespace Rect

def ofInts (x y width height : ℤ) : Rect := ⟨x, y, .ofInts width height⟩

def ofSize (size : Size) : Rect := ⟨0, 0, size⟩

def width (r : Rect) : ℤ := r.size.width

def height (r : Rect) : ℤ := r.size.height

def right (r : Rect) : ℤ := r.x + r.width

def bottom (r : Rect) : ℤ := r.y + r.height

def isEmpty (r : Rect) : Bool := r.size.isEmpty

/-- `Contains`, of a point. -/
def contains (r : Rect) (pointX pointY : ℤ) : Bool :=
  pointX ≥ r.x && pointX < r.right && pointY ≥ r.y && pointY < r.bottom

/-- `Contains`, of another rectangle. -/
def containsRect (r rect : Rect) : Bool :=
  rect.x ≥ r.x && rect.right ≤ r.right && rect.y ≥ r.y && rect.bottom ≤ r.bottom

def intersects (r rect : Rect) : Bool :=
  !(r.isEmpty || rect.isEmpty || rect.x ≥ r.right || rect.right ≤ r.x || rect.y ≥ r.bottom ||
    rect.bottom ≤ r.y)

def intersect (r rect : Rect) : Rect :=
  if r.isEmpty || rect.isEmpty then ofInts 0 0 0 0
  else
    let rx := max r.x rect.x
    let ry := max r.y rect.y
    let rr := min r.right rect.right
    let rb := min r.bottom rect.bottom
    if rx ≥ rr || ry ≥ rb then ofInts 0 0 0 0
    else ofInts rx ry (rr - rx) (rb - ry)

section Lemmas
variable {r rect : Rect} {x y : ℤ}

lemma le_right (r : Rect) : r.x ≤ r.right := by
  have := r.size.width_nonneg
  rw [right, width]
  omega

lemma le_bottom (r : Rect) : r.y ≤ r.bottom := by
  have := r.size.height_nonneg
  rw [bottom, height]
  omega

lemma isEmpty_iff : r.isEmpty ↔ r.right ≤ r.x ∨ r.bottom ≤ r.y := by
  have hwidth := r.size.width_nonneg
  have hheight := r.size.height_nonneg
  rw [isEmpty, Size.isEmpty, right, bottom, width, height, Bool.or_eq_true, decide_eq_true_eq,
    decide_eq_true_eq]
  omega

lemma contains_iff : r.contains x y ↔ (r.x ≤ x ∧ x < r.right) ∧ r.y ≤ y ∧ y < r.bottom := by
  simp [contains, and_assoc]

lemma right_ofInts {width height : ℤ} (h : 0 ≤ width) :
    (ofInts x y width height).right = x + width := by
  simp [right, Rect.width, ofInts, Size.ofInts, not_lt.mpr h]

lemma bottom_ofInts {width height : ℤ} (h : 0 ≤ height) :
    (ofInts x y width height).bottom = y + height := by
  simp [bottom, Rect.height, ofInts, Size.ofInts, not_lt.mpr h]

lemma right_ofSize (size : Size) : (ofSize size).right = size.width := zero_add _

lemma bottom_ofSize (size : Size) : (ofSize size).bottom = size.height := zero_add _

/-- Two rectangles intersect when both their sides do. -/
lemma intersects_iff : r.intersects rect ↔
    (max r.x rect.x < min r.right rect.right) ∧ max r.y rect.y < min r.bottom rect.bottom := by
  have hwidth := r.le_right
  have hwidth' := rect.le_right
  have hheight := r.le_bottom
  have hheight' := rect.le_bottom
  rw [intersects, Bool.not_eq_true', ← Bool.not_eq_true]
  simp only [Bool.or_eq_true, decide_eq_true_eq, isEmpty_iff]
  omega

/-- The intersection of two rectangles is that of their sides, unless it is empty. -/
lemma intersect_spec (r rect : Rect) :
    ((r.intersect rect).isEmpty ∧ ¬ r.intersects rect) ∨
      (¬ (r.intersect rect).isEmpty ∧ (r.intersect rect).x = max r.x rect.x ∧
        (r.intersect rect).right = min r.right rect.right ∧
        (r.intersect rect).y = max r.y rect.y ∧
        (r.intersect rect).bottom = min r.bottom rect.bottom) := by
  have hnone : (ofInts 0 0 0 0).isEmpty := rfl
  rw [intersects_iff, intersect]
  by_cases hempty : r.isEmpty || rect.isEmpty
  · rw [if_pos hempty]
    rw [Bool.or_eq_true, isEmpty_iff, isEmpty_iff] at hempty
    exact .inl ⟨hnone, by omega⟩
  rw [if_neg hempty]
  dsimp only
  by_cases hapart : decide (max r.x rect.x ≥ min r.right rect.right) ||
      decide (max r.y rect.y ≥ min r.bottom rect.bottom)
  · rw [if_pos hapart]
    rw [Bool.or_eq_true, decide_eq_true_eq, decide_eq_true_eq] at hapart
    exact .inl ⟨hnone, by omega⟩
  · rw [if_neg hapart]
    rw [Bool.or_eq_true, decide_eq_true_eq, decide_eq_true_eq, not_or] at hapart
    rw [isEmpty_iff, right_ofInts (by omega), bottom_ofInts (by omega)]
    exact .inr ⟨by simp only [ofInts]; omega, rfl, by omega, rfl, by omega⟩

end Lemmas

end Rect

end Chromium.Gfx
