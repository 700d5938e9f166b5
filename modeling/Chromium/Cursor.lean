import Mathlib.Data.Finset.Max
import Mathlib.Tactic

/-!
# Cursors over a finite ordered set

A cursor is the position of an iterator in an ordered container: an element, or
`none` past either end. The container is a finite set, so inserting an element
leaves a cursor where it is, as it does for a balanced tree. What holds in one
direction of travel holds in the other, and the lemmas are stated for both at
once.
-/
namespace Chromium.Cursor

variable {K : Type*} [LinearOrder K]

def smallest (s : Finset K) : Option K := if h : s.Nonempty then some (s.min' h) else none

def largest (s : Finset K) : Option K := if h : s.Nonempty then some (s.max' h) else none

/-- The first element not below the target. -/
def lowerBound (s : Finset K) (target : K) : Option K := smallest (s.filter (target ≤ ·))

def next (s : Finset K) (k : K) : Option K := smallest (s.filter (k < ·))

def prev (s : Finset K) (k : K) : Option K := largest (s.filter (· < k))

inductive Direction
  | forward
  | reverse
  deriving DecidableEq, Repr

/-- `Ahead d a b`: travelling in direction `d`, `b` comes after `a`. -/
def Ahead : Direction → K → K → Prop
  | .forward, a, b => a < b
  | .reverse, a, b => b < a

/-- One step in the direction of travel. -/
def step : Direction → Finset K → K → Option K
  | .forward => next
  | .reverse => prev

section Order
variable {d : Direction} {a b c : K}

theorem Ahead.irrefl : ¬ Ahead d a a := by
  cases d <;> exact lt_irrefl a

theorem Ahead.trans (h : Ahead d a b) (h' : Ahead d b c) : Ahead d a c := by
  cases d
  · exact lt_trans h h'
  · exact lt_trans h' h

theorem Ahead.asymm (h : Ahead d a b) : ¬ Ahead d b a := fun h' => (h.trans h').irrefl

theorem ahead_trichotomy (d : Direction) (a b : K) : Ahead d a b ∨ a = b ∨ Ahead d b a := by
  cases d
  · exact lt_trichotomy a b
  · rcases lt_trichotomy a b with h | h | h
    · exact .inr (.inr h)
    · exact .inr (.inl h)
    · exact .inl h

theorem ahead_of_not_ahead (hne : a ≠ b) (h : ¬ Ahead d a b) : Ahead d b a :=
  ((ahead_trichotomy d a b).resolve_left h).resolve_left hne

end Order

/-- The cursor stands at the first element of `s` with property `p`, or past the
end when there is none. -/
def At (d : Direction) (s : Finset K) (p : K → Prop) : Option K → Prop
  | some k => k ∈ s ∧ p k ∧ ∀ x ∈ s, p x → x = k ∨ Ahead d k x
  | none => ∀ x ∈ s, ¬ p x

/-- The cursor has gone past `x`. -/
def Passed (d : Direction) (x : K) : Option K → Prop
  | some k => Ahead d x k
  | none => True

theorem At.not_passed {d : Direction} {s : Finset K} {p : K → Prop} {pos : Option K}
    (h : At d s p pos) {x : K} (hx : x ∈ s) (hp : p x) : ¬ Passed d x pos := by
  cases pos with
  | none => exact absurd hp (h x hx)
  | some k =>
    rcases h.2.2 x hx hp with rfl | hahead
    · exact Ahead.irrefl
    · exact hahead.asymm

theorem At.mem {d : Direction} {s : Finset K} {p : K → Prop} {k : K} (h : At d s p (some k)) :
    k ∈ s ∧ p k :=
  ⟨h.1, h.2.1⟩

theorem At.congr {d : Direction} {s : Finset K} {p q : K → Prop} {pos : Option K}
    (h : At d s p pos) (hpq : ∀ x ∈ s, p x ↔ q x) : At d s q pos := by
  cases pos with
  | none => exact fun x hx hq => h x hx ((hpq x hx).mpr hq)
  | some k => exact ⟨h.1, (hpq k h.1).mp h.2.1, fun x hx hq => h.2.2 x hx ((hpq x hx).mpr hq)⟩

theorem at_smallest (s : Finset K) : At .forward s (fun _ => True) (smallest s) := by
  unfold smallest
  split_ifs with h
  · refine ⟨s.min'_mem h, trivial, fun x hx _ => ?_⟩
    exact (s.min'_le x hx).eq_or_lt.imp Eq.symm id
  · exact fun x hx _ => h ⟨x, hx⟩

theorem at_largest (s : Finset K) : At .reverse s (fun _ => True) (largest s) := by
  unfold largest
  split_ifs with h
  · refine ⟨s.max'_mem h, trivial, fun x hx _ => ?_⟩
    exact (s.le_max' x hx).eq_or_lt
  · exact fun x hx _ => h ⟨x, hx⟩

/-- A cursor of a filtered set is a cursor of the set. -/
theorem At.of_filter {d : Direction} {s : Finset K} {p : K → Prop} [DecidablePred p]
    {pos : Option K} (h : At d (s.filter p) (fun _ => True) pos) : At d s p pos := by
  cases pos with
  | none => exact fun x hx hp => h x (Finset.mem_filter.mpr ⟨hx, hp⟩) trivial
  | some k =>
    obtain ⟨hk, hpk⟩ := Finset.mem_filter.mp h.1
    exact ⟨hk, hpk, fun x hx hp => h.2.2 x (Finset.mem_filter.mpr ⟨hx, hp⟩) trivial⟩

theorem at_lowerBound (s : Finset K) (target : K) :
    At .forward s (target ≤ ·) (lowerBound s target) :=
  (at_smallest _).of_filter

/-- One step goes to the first element ahead. -/
theorem at_step (d : Direction) (s : Finset K) (k : K) : At d s (Ahead d k) (step d s k) := by
  cases d
  · exact ((at_smallest (s.filter (k < ·))).of_filter).congr fun _ _ => Iff.rfl
  · exact ((at_largest (s.filter (· < k))).of_filter).congr fun _ _ => Iff.rfl

theorem ahead_of_step {d : Direction} {s : Finset K} {k k' : K} (h : step d s k = some k') :
    k' ∈ s ∧ Ahead d k k' :=
  (h ▸ at_step d s k).mem

/-- A step passes what was passed before and the element it leaves. -/
theorem passed_step {d : Direction} {s : Finset K} {k x : K} (hx : x ∈ s)
    (h : Passed d x (step d s k)) : Ahead d x k ∨ x = k := by
  by_contra hne
  rw [not_or] at hne
  exact (at_step d s k).not_passed hx (ahead_of_not_ahead hne.2 hne.1) h

theorem Passed.step {d : Direction} {x k : K} (h : Ahead d x k ∨ x = k) (s : Finset K) :
    Passed d x (step d s k) := by
  have hat := at_step d s k
  cases hs : Cursor.step d s k with
  | none => trivial
  | some k' =>
    rw [hs] at hat
    rcases h with h | rfl
    · exact h.trans hat.mem.2
    · exact hat.mem.2

/-- From the lower bound of `k` one step back leads to the last element below. -/
theorem at_prev_lowerBound {s : Finset K} {k k' : K} (h : lowerBound s k = some k') :
    At .reverse s (· < k) (prev s k') := by
  have hlow := at_lowerBound s k
  rw [h] at hlow
  refine (at_step .reverse s k').congr fun x hx => ?_
  constructor
  · intro hlt
    by_contra hge
    rcases hlow.2.2 x hx (not_lt.mp hge) with rfl | hahead
    · exact lt_irrefl _ hlt
    · exact lt_asymm hlt hahead
  · intro hlt
    exact lt_of_lt_of_le hlt hlow.2.1

/-- Without an element from `k` on the last element is below `k`. -/
theorem at_largest_of_lowerBound {s : Finset K} {k : K} (h : lowerBound s k = none) :
    At .reverse s (· < k) (largest s) := by
  have hlow := at_lowerBound s k
  rw [h] at hlow
  refine (at_largest s).congr fun x hx => ?_
  simpa using not_le.mp (hlow x hx)

/-- The lower bound of `k`, or its successor when it is `k` itself, is the first
element above `k`. -/
theorem at_above_lowerBound (s : Finset K) (k : K) :
    At .forward s (k < ·) (if lowerBound s k = some k then next s k else lowerBound s k) := by
  split_ifs with h
  · exact at_step .forward s k
  · have hlow := at_lowerBound s k
    refine hlow.congr fun x hx => ⟨fun hle => lt_of_le_of_ne hle ?_, le_of_lt⟩
    rintro rfl
    cases hs : lowerBound s k with
    | none =>
      rw [hs] at hlow
      exact hlow k hx le_rfl
    | some k' =>
      rw [hs] at hlow h
      rcases hlow.2.2 k hx le_rfl with rfl | hlt
      · exact h rfl
      · exact absurd hlow.2.1 (not_le.mpr hlt)

end Chromium.Cursor
