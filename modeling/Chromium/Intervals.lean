import Mathlib.Order.Interval.Set.Basic
import Mathlib.Tactic

/-!
# Lists of intervals

A set of points that is a union of finitely many half-open intervals has one list of intervals in
increasing order with a gap between neighbours. The points are those of any linear order.
-/
namespace Chromium.Intervals

open Set

variable {α : Type*} [LinearOrder α]

/-- The points of the intervals `[r.1, r.2)`. -/
def points (rs : List (α × α)) : Set α := {x | ∃ r ∈ rs, x ∈ Ico r.1 r.2}

@[simp] lemma points_nil : points ([] : List (α × α)) = ∅ := by
  ext x
  simp [points]

@[simp] lemma points_cons (r : α × α) (rs : List (α × α)) :
    points (r :: rs) = Ico r.1 r.2 ∪ points rs := by
  ext x
  simp [points]

/-- Intervals that are not empty, in increasing order, and neither overlap nor touch. -/
structure Canonical (rs : List (α × α)) : Prop where
  nonempty : ∀ r ∈ rs, r.1 < r.2
  separate : rs.Pairwise fun r s => r.2 < s.1

lemma Canonical.nil : Canonical ([] : List (α × α)) := ⟨by simp, List.Pairwise.nil⟩

lemma canonical_cons {r : α × α} {rs : List (α × α)} :
    Canonical (r :: rs) ↔ r.1 < r.2 ∧ (∀ s ∈ rs, r.2 < s.1) ∧ Canonical rs := by
  constructor
  · intro h
    obtain ⟨hgap, hsep⟩ := List.pairwise_cons.mp h.separate
    exact ⟨h.nonempty r List.mem_cons_self, hgap,
      fun s hs => h.nonempty s (List.mem_cons_of_mem r hs), hsep⟩
  · intro ⟨hr, hgap, hrs⟩
    refine ⟨?_, List.pairwise_cons.mpr ⟨hgap, hrs.separate⟩⟩
    intro s hs
    obtain rfl | hs := List.mem_cons.mp hs
    · exact hr
    · exact hrs.nonempty s hs

/-- Every point lies behind a bound for the starts. -/
lemma lt_of_mem_points {rs : List (α × α)} {b x : α} (hb : ∀ s ∈ rs, b < s.1)
    (hx : x ∈ points rs) : b < x := by
  obtain ⟨s, hs, hsx, -⟩ := hx
  exact (hb s hs).trans_le hsx

/-- The points behind the first interval. -/
lemma points_tail {r : α × α} {rs : List (α × α)} (h : Canonical (r :: rs)) :
    points rs = points (r :: rs) ∩ Ici r.2 := by
  obtain ⟨hr, hgap, hrs⟩ := canonical_cons.mp h
  ext x
  constructor
  · intro hx
    refine ⟨?_, (lt_of_mem_points hgap hx).le⟩
    rw [points_cons]
    exact .inr hx
  · intro ⟨hx, hle⟩
    rw [points_cons] at hx
    obtain hx | hx := hx
    · exact absurd hx.2 hle.not_gt
    · exact hx

/-- The first interval starts at the first point. -/
lemma start_le_of_mem_points {r : α × α} {rs : List (α × α)} (h : Canonical (r :: rs)) {x : α}
    (hx : x ∈ points (r :: rs)) : r.1 ≤ x := by
  obtain ⟨hr, hgap, -⟩ := canonical_cons.mp h
  rw [points_cons] at hx
  obtain hx | hx := hx
  · exact hx.1
  · exact (hr.trans (lt_of_mem_points hgap hx)).le

lemma start_mem_points {r : α × α} {rs : List (α × α)} (h : Canonical (r :: rs)) :
    r.1 ∈ points (r :: rs) := by
  rw [points_cons]
  exact .inl ⟨le_rfl, (canonical_cons.mp h).1⟩

/-- The end of the first interval is no point. -/
lemma end_notMem_points {r : α × α} {rs : List (α × α)} (h : Canonical (r :: rs)) :
    r.2 ∉ points (r :: rs) := by
  obtain ⟨hr, hgap, -⟩ := canonical_cons.mp h
  intro hx
  rw [points_cons] at hx
  obtain hx | hx := hx
  · exact lt_irrefl _ hx.2
  · exact lt_irrefl _ (lt_of_mem_points hgap hx)

lemma end_le_of_points_eq {r s : α × α} {rs ss : List (α × α)} (hr : Canonical (r :: rs))
    (hs : Canonical (s :: ss)) (hpoints : points (r :: rs) = points (s :: ss))
    (hstart : r.1 = s.1) : s.2 ≤ r.2 := by
  by_contra hlt
  have hmem : r.2 ∈ points (s :: ss) := by
    rw [points_cons]
    exact .inl ⟨hstart ▸ (canonical_cons.mp hr).1.le, not_le.mp hlt⟩
  exact end_notMem_points hr (hpoints ▸ hmem)

/-- Two such lists with the same points are the same. -/
theorem Canonical.eq_of_points_eq {rs ss : List (α × α)} (hrs : Canonical rs) (hss : Canonical ss)
    (hpoints : points rs = points ss) : rs = ss := by
  induction rs generalizing ss with
  | nil =>
    cases ss with
    | nil => rfl
    | cons s ss =>
      have hmem := start_mem_points hss
      rw [← hpoints, points_nil] at hmem
      exact absurd hmem (notMem_empty _)
  | cons r rs ih =>
    cases ss with
    | nil =>
      have hmem := start_mem_points hrs
      rw [hpoints, points_nil] at hmem
      exact absurd hmem (notMem_empty _)
    | cons s ss =>
      have hstart : r.1 = s.1 := le_antisymm
        (start_le_of_mem_points hrs (hpoints ▸ start_mem_points hss))
        (start_le_of_mem_points hss (hpoints ▸ start_mem_points hrs))
      have hend : r.2 = s.2 := le_antisymm
        (end_le_of_points_eq hss hrs hpoints.symm hstart.symm)
        (end_le_of_points_eq hrs hss hpoints hstart)
      have htail : points rs = points ss := by
        rw [points_tail hrs, points_tail hss, hpoints, hend]
      rw [Prod.ext hstart hend, ih (canonical_cons.mp hrs).2.2 (canonical_cons.mp hss).2.2 htail]

end Chromium.Intervals
