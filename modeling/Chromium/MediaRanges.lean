import Chromium.Intervals

/-!
# Media ranges

`media/base/ranges.h`: the buffered ranges of a media element, as a list of intervals
`[start, end)`. However the intervals are added, the list is the one canonical list of their union,
and the intersection of two such lists is the canonical list of the points in both.
-/
namespace Chromium.MediaRanges

open Intervals Set

variable {α : Type*} [LinearOrder α]

/-- `media::Ranges` -/
structure Ranges (α : Type*) where
  ranges_ : List (α × α) := []
  deriving DecidableEq, Repr

/-- The last loop of `Add`: the ranges behind `r` that begin inside it or at its end become part of
it. -/
def mergeFollowing (r : α × α) : List (α × α) → List (α × α)
  | [] => [r]
  | next :: rest =>
    if next.1 ≤ r.2 then mergeFollowing (r.1, max r.2 next.2) rest else r :: next :: rest

/-- `Add` from the first range on, for an interval that is not empty. -/
def addFrom (start stop : α) : List (α × α) → List (α × α)
  | [] => [(start, stop)]
  | r :: rest =>
    if r.2 < start then r :: addFrom start stop rest
    else if stop < r.1 then (start, stop) :: r :: rest
    else
      mergeFollowing (if start < r.1 then start else r.1, if r.2 < stop then stop else r.2) rest

namespace Ranges

def size (a : Ranges α) : ℕ := a.ranges_.length

/-- `Ranges::Add`, with the number of ranges that it returns -/
def add (a : Ranges α) (start stop : α) : Ranges α × ℕ :=
  if start = stop then (a, a.size)
  else
    let added : Ranges α := ⟨addFrom start stop a.ranges_⟩
    (added, added.size)

/-- The loop of `IntersectionWith`, over what is left of both lists. -/
def intersectionLoop (result : Ranges α) : List (α × α) → List (α × α) → Ranges α
  | r :: rs, s :: ss =>
    let max_start := max r.1 s.1
    let min_end := min r.2 s.2
    let result := if max_start < min_end then (result.add max_start min_end).1 else result
    if r.2 < s.2 then intersectionLoop result rs (s :: ss)
    else intersectionLoop result (r :: rs) ss
  | _, _ => result
termination_by rs ss => rs.length + ss.length

/-- `Ranges::IntersectionWith` -/
def intersectionWith (a b : Ranges α) : Ranges α := intersectionLoop {} a.ranges_ b.ranges_

/-- A sequence of calls of `Add` on a new object. -/
def addAll (adds : List (α × α)) : Ranges α := adds.foldl (fun a r => (a.add r.1 r.2).1) {}

end Ranges

/-! ### Adding one interval -/

lemma lt_start_mergeFollowing {b : α} {r : α × α} {rest : List (α × α)} (hr : b < r.1)
    (hrest : ∀ s ∈ rest, b < s.1) : ∀ s ∈ mergeFollowing r rest, b < s.1 := by
  induction rest generalizing r with
  | nil => simpa [mergeFollowing] using hr
  | cons next rest ih =>
    obtain ⟨hnext, hrest⟩ := List.forall_mem_cons.mp hrest
    rw [mergeFollowing]
    split_ifs with hle
    · exact ih hr hrest
    · exact List.forall_mem_cons.mpr ⟨hr, List.forall_mem_cons.mpr ⟨hnext, hrest⟩⟩

lemma mergeFollowing_spec {r : α × α} {rest : List (α × α)} (hr : r.1 < r.2)
    (hrest : Canonical rest) (hstarts : ∀ s ∈ rest, r.1 < s.1) :
    Canonical (mergeFollowing r rest) ∧
      points (mergeFollowing r rest) = Ico r.1 r.2 ∪ points rest := by
  induction rest generalizing r with
  | nil =>
    rw [mergeFollowing, points_cons]
    exact ⟨canonical_cons.mpr ⟨hr, by simp, .nil⟩, rfl⟩
  | cons next rest ih =>
    obtain ⟨hnext, hgap, htail⟩ := canonical_cons.mp hrest
    obtain ⟨hstart, hstarts⟩ := List.forall_mem_cons.mp hstarts
    rw [mergeFollowing]
    split_ifs with hle
    · obtain ⟨hcanonical, hpoints⟩ := ih (r := (r.1, max r.2 next.2)) (lt_max_of_lt_left hr)
        htail hstarts
      refine ⟨hcanonical, ?_⟩
      rw [hpoints, points_cons, ← union_assoc, Ico_union_Ico' hle (hstart.trans hnext).le,
        min_eq_left hstart.le]
    · refine ⟨canonical_cons.mpr ⟨hr, ?_, hrest⟩, points_cons _ _⟩
      intro s hs
      obtain rfl | hs := List.mem_cons.mp hs
      · exact not_le.mp hle
      · exact (not_le.mp hle).trans (hnext.trans (hgap s hs))

/-- Where an added interval and a range overlap or touch, they are one interval. -/
lemma extend_eq {start stop : α} {r : α × α} :
    (if start < r.1 then start else r.1, if r.2 < stop then stop else r.2) =
      (min start r.1, max stop r.2) := by
  congr 1
  · split_ifs with h
    · rw [min_eq_left h.le]
    · rw [min_eq_right (not_lt.mp h)]
  · split_ifs with h
    · rw [max_eq_left h.le]
    · rw [max_eq_right (not_lt.mp h)]

lemma addFrom_of_touching {start stop : α} {r : α × α} {rest : List (α × α)}
    (hskip : ¬ r.2 < start) (hbefore : ¬ stop < r.1) :
    addFrom start stop (r :: rest) = mergeFollowing (min start r.1, max stop r.2) rest := by
  rw [addFrom, if_neg hskip, if_neg hbefore, extend_eq]

lemma lt_start_addFrom {b start stop : α} {rs : List (α × α)} (hstart : b < start)
    (hrs : ∀ s ∈ rs, b < s.1) : ∀ s ∈ addFrom start stop rs, b < s.1 := by
  induction rs with
  | nil => simpa [addFrom] using hstart
  | cons r rest ih =>
    obtain ⟨hr, hrest⟩ := List.forall_mem_cons.mp hrs
    by_cases hskip : r.2 < start
    · rw [addFrom, if_pos hskip]
      exact List.forall_mem_cons.mpr ⟨hr, ih hrest⟩
    by_cases hbefore : stop < r.1
    · rw [addFrom, if_neg hskip, if_pos hbefore]
      exact List.forall_mem_cons.mpr ⟨hstart, List.forall_mem_cons.mpr ⟨hr, hrest⟩⟩
    · rw [addFrom_of_touching hskip hbefore]
      exact lt_start_mergeFollowing (lt_min hstart hr) hrest

lemma addFrom_spec {start stop : α} {rs : List (α × α)} (h : start < stop) (hrs : Canonical rs) :
    Canonical (addFrom start stop rs) ∧
      points (addFrom start stop rs) = Ico start stop ∪ points rs := by
  induction rs with
  | nil =>
    rw [addFrom, points_cons]
    exact ⟨canonical_cons.mpr ⟨h, by simp, .nil⟩, rfl⟩
  | cons r rest ih =>
    obtain ⟨hr, hgap, hrest⟩ := canonical_cons.mp hrs
    by_cases hskip : r.2 < start
    · obtain ⟨hcanonical, hpoints⟩ := ih hrest
      rw [addFrom, if_pos hskip]
      refine ⟨canonical_cons.mpr ⟨hr, lt_start_addFrom hskip hgap, hcanonical⟩, ?_⟩
      rw [points_cons, hpoints, points_cons, union_left_comm]
    by_cases hbefore : stop < r.1
    · rw [addFrom, if_neg hskip, if_pos hbefore]
      refine ⟨canonical_cons.mpr ⟨h, List.forall_mem_cons.mpr ⟨hbefore, ?_⟩, hrs⟩,
        points_cons _ _⟩
      intro s hs
      exact hbefore.trans (hr.trans (hgap s hs))
    · rw [addFrom_of_touching hskip hbefore]
      have hstarts : ∀ s ∈ rest, min start r.1 < s.1 := fun s hs =>
        (min_le_right _ _).trans_lt (hr.trans (hgap s hs))
      obtain ⟨hcanonical, hpoints⟩ := mergeFollowing_spec (r := (min start r.1, max stop r.2))
        ((min_le_left _ _).trans_lt (h.trans_le (le_max_left _ _))) hrest hstarts
      refine ⟨hcanonical, ?_⟩
      rw [hpoints, points_cons, ← union_assoc,
        Ico_union_Ico' (not_lt.mp hbefore) (not_lt.mp hskip)]

/-! ### The set of added points -/

namespace Ranges

/-- The points in the ranges. -/
def points (a : Ranges α) : Set α := Intervals.points a.ranges_

/-- What the ranges are between two calls. -/
def Canonical (a : Ranges α) : Prop := Intervals.Canonical a.ranges_

/-- There is one object for each set of points. -/
lemma eq_of_points_eq {a b : Ranges α} (ha : a.Canonical) (hb : b.Canonical)
    (h : a.points = b.points) : a = b := by
  cases a
  cases b
  exact congrArg _ (ha.eq_of_points_eq hb h)

lemma add_spec {a : Ranges α} {start stop : α} (h : start ≤ stop) (ha : a.Canonical) :
    (a.add start stop).1.Canonical ∧
      (a.add start stop).1.points = Ico start stop ∪ a.points := by
  rw [add]
  split_ifs with heq
  · rw [heq, Ico_self, empty_union]
    exact ⟨ha, rfl⟩
  · exact addFrom_spec (lt_of_le_of_ne h heq) ha

lemma foldl_add_spec {a : Ranges α} (ha : a.Canonical) {adds : List (α × α)}
    (h : ∀ r ∈ adds, r.1 ≤ r.2) :
    (adds.foldl (fun a r => (a.add r.1 r.2).1) a).Canonical ∧
      (adds.foldl (fun a r => (a.add r.1 r.2).1) a).points =
        Intervals.points adds ∪ a.points := by
  induction adds generalizing a with
  | nil =>
    rw [List.foldl_nil, points_nil, empty_union]
    exact ⟨ha, rfl⟩
  | cons r adds ih =>
    obtain ⟨hr, hadds⟩ := List.forall_mem_cons.mp h
    obtain ⟨hcanonical, hpoints⟩ := add_spec hr ha
    obtain ⟨hrun, hunion⟩ := ih hcanonical hadds
    rw [List.foldl_cons]
    refine ⟨hrun, ?_⟩
    rw [hunion, hpoints, points_cons, union_left_comm, union_assoc]

lemma canonical_empty : ({} : Ranges α).Canonical := .nil

lemma addAll_spec {adds : List (α × α)} (h : ∀ r ∈ adds, r.1 ≤ r.2) :
    (addAll adds).Canonical ∧ (addAll adds).points = Intervals.points adds := by
  obtain ⟨hcanonical, hpoints⟩ := foldl_add_spec canonical_empty h
  refine ⟨hcanonical, hpoints.trans ?_⟩
  simp [points]

/-! ### Intersection -/

/-- An interval that ends first, or with the other, meets nothing behind the other. -/
lemma inter_points_of_le {r s : α × α} {ss : List (α × α)} (hs : Intervals.Canonical (s :: ss))
    (hle : r.2 ≤ s.2) : Ico r.1 r.2 ∩ Intervals.points ss = ∅ := by
  ext x
  simp only [mem_inter_iff, mem_empty_iff_false, iff_false, not_and]
  intro hx hmem
  have hlt := lt_of_mem_points (canonical_cons.mp hs).2.1 hmem
  exact absurd (hx.2.trans_le hle) hlt.not_gt

/-- The first ranges of both lists, when the one in the first list ends no later. -/
lemma inter_points_cons {r s : α × α} {rs ss : List (α × α)}
    (hs : Intervals.Canonical (s :: ss)) (hle : r.2 ≤ s.2) :
    Intervals.points (r :: rs) ∩ Intervals.points (s :: ss) =
      Ico r.1 r.2 ∩ Ico s.1 s.2 ∪ Intervals.points rs ∩ Intervals.points (s :: ss) := by
  have hfirst : Ico r.1 r.2 ∩ Intervals.points (s :: ss) = Ico r.1 r.2 ∩ Ico s.1 s.2 := by
    rw [points_cons, inter_union_distrib_left, inter_points_of_le hs hle, union_empty]
  rw [points_cons r, union_inter_distrib_right, hfirst]

/-- What one round of the loop adds. -/
lemma add_inter_spec {result : Ranges α} (hresult : result.Canonical) (r s : α × α) :
    (if max r.1 s.1 < min r.2 s.2 then (result.add (max r.1 s.1) (min r.2 s.2)).1
      else result).Canonical ∧
    (if max r.1 s.1 < min r.2 s.2 then (result.add (max r.1 s.1) (min r.2 s.2)).1
      else result).points = Ico r.1 r.2 ∩ Ico s.1 s.2 ∪ result.points := by
  rw [Ico_inter_Ico]
  split_ifs with hlt
  · exact add_spec hlt.le hresult
  · rw [Ico_eq_empty hlt, empty_union]
    exact ⟨hresult, rfl⟩

lemma intersectionLoop_spec {result : Ranges α} {rs ss : List (α × α)} (hresult : result.Canonical)
    (hrs : Intervals.Canonical rs) (hss : Intervals.Canonical ss) :
    (intersectionLoop result rs ss).Canonical ∧
      (intersectionLoop result rs ss).points =
        result.points ∪ Intervals.points rs ∩ Intervals.points ss := by
  fun_induction intersectionLoop result rs ss with
  | case1 result r rs s ss max_start min_end added hlt ih =>
    obtain ⟨hadded, hpoints⟩ := add_inter_spec hresult r s
    change added.points = _ at hpoints
    obtain ⟨hcanonical, hloop⟩ := ih hadded (canonical_cons.mp hrs).2.2 hss
    refine ⟨hcanonical, hloop.trans ?_⟩
    rw [hpoints, inter_points_cons hss hlt.le, union_comm (Ico _ _ ∩ _), union_assoc]
  | case2 result r rs s ss max_start min_end added hlt ih =>
    obtain ⟨hadded, hpoints⟩ := add_inter_spec hresult r s
    change added.points = _ at hpoints
    obtain ⟨hcanonical, hloop⟩ := ih hadded hrs (canonical_cons.mp hss).2.2
    refine ⟨hcanonical, hloop.trans ?_⟩
    rw [hpoints, inter_comm (Intervals.points (r :: rs)) (Intervals.points (s :: ss)),
      inter_points_cons hrs (not_lt.mp hlt), union_comm (Ico _ _ ∩ _), union_assoc,
      inter_comm (Ico s.1 s.2), inter_comm (Intervals.points ss)]
  | case3 result rs ss hnil =>
    refine ⟨hresult, ?_⟩
    have hempty : Intervals.points rs ∩ Intervals.points ss = ∅ := by
      cases rs with
      | nil => rw [points_nil, empty_inter]
      | cons r rs =>
        cases ss with
        | nil => rw [points_nil, inter_empty]
        | cons s ss => exact (hnil r rs s ss rfl rfl).elim
    rw [hempty, union_empty]

lemma intersectionWith_spec {a b : Ranges α} (ha : a.Canonical) (hb : b.Canonical) :
    (a.intersectionWith b).Canonical ∧ (a.intersectionWith b).points = a.points ∩ b.points := by
  obtain ⟨hcanonical, hpoints⟩ := intersectionLoop_spec canonical_empty ha hb
  refine ⟨hcanonical, hpoints.trans ?_⟩
  simp [points]

/-- However they are added, intervals make the one list of their union, and two such lists
intersect in the one list of the points in both. -/
theorem addAll_canonical {adds others : List (α × α)} (hadds : ∀ r ∈ adds, r.1 ≤ r.2)
    (hothers : ∀ r ∈ others, r.1 ≤ r.2) :
    (addAll adds).Canonical ∧ (addAll adds).points = ⋃ r ∈ adds, Ico r.1 r.2 ∧
    (∀ reordered : List (α × α), reordered.Perm adds → addAll reordered = addAll adds) ∧
    ((addAll adds).intersectionWith (addAll others)).Canonical ∧
    ((addAll adds).intersectionWith (addAll others)).points =
      (addAll adds).points ∩ (addAll others).points ∧
    (addAll adds).intersectionWith (addAll others) =
      (addAll others).intersectionWith (addAll adds) := by
  obtain ⟨hcanonical, hpoints⟩ := addAll_spec hadds
  obtain ⟨hcanonical', hpoints'⟩ := addAll_spec hothers
  obtain ⟨hinter, hboth⟩ := intersectionWith_spec hcanonical hcanonical'
  obtain ⟨hinter', hboth'⟩ := intersectionWith_spec hcanonical' hcanonical
  refine ⟨hcanonical, ?_, ?_, hinter, hboth, ?_⟩
  · rw [hpoints]
    ext x
    simp only [Intervals.points, mem_ofPred_eq, mem_iUnion, exists_prop]
  · intro reordered hperm
    have hreordered : ∀ r ∈ reordered, r.1 ≤ r.2 := fun r hr => hadds r (hperm.mem_iff.mp hr)
    obtain ⟨hcanonical'', hpoints''⟩ := addAll_spec hreordered
    apply eq_of_points_eq hcanonical'' hcanonical
    rw [hpoints, hpoints'']
    ext x
    simp [Intervals.points, hperm.mem_iff]
  · apply eq_of_points_eq hinter hinter'
    rw [hboth, hboth', inter_comm]

theorem addAll_canonical_small :
    (addAll [((3 : ℤ), 5), (0, 1), (1, 2)]).intersectionWith (addAll [(1, 4)]) =
      (addAll [((1 : ℤ), 4)]).intersectionWith (addAll [(3, 5), (0, 1), (1, 2)]) :=
  (addAll_canonical (by decide) (by decide)).2.2.2.2.2

end Ranges

end Chromium.MediaRanges
