import Mathlib.Data.List.Chain
import Mathlib.Data.List.Infix
import Mathlib.Tactic

/-!
# Segments of a list

The largest total size of neighbouring elements that all satisfy a predicate, as one scan from the
left finds it.
-/
namespace Chromium.Segments

variable {β : Type*} (p : β → Prop) [DecidablePred p] (size : β → ℕ)

/-- The largest segment, where the list continues a segment of size `c`. -/
def largestSegment : ℕ → List β → ℕ
  | c, [] => c
  | c, b :: l =>
    if p b then largestSegment (c + size b) l else max c (largestSegment 0 l)

variable {p size}

lemma le_largestSegment (c : ℕ) (l : List β) : c ≤ largestSegment p size c l := by
  induction l generalizing c with
  | nil => exact le_rfl
  | cons b l ih =>
    rw [largestSegment]
    split_ifs with hb
    · exact (Nat.le_add_right c (size b)).trans (ih (c + size b))
    · exact le_max_left _ _

/-- A segment counts as one element of its total size. -/
lemma largestSegment_append {seg : List β} (h : ∀ b ∈ seg, p b) (c : ℕ) (l : List β) :
    largestSegment p size c (seg ++ l) = largestSegment p size (c + (seg.map size).sum) l := by
  induction seg generalizing c with
  | nil => rfl
  | cons b seg ih =>
    rw [List.cons_append, largestSegment, if_pos (h b List.mem_cons_self),
      ih fun x hx => h x (List.mem_cons_of_mem b hx), List.map_cons, List.sum_cons, Nat.add_assoc]

lemma largestSegment_congr_right {l l' : List β}
    (h : ∀ c, largestSegment p size c l = largestSegment p size c l') (pre : List β) (c : ℕ) :
    largestSegment p size c (pre ++ l) = largestSegment p size c (pre ++ l') := by
  induction pre generalizing c with
  | nil => exact h c
  | cons b pre ih =>
    rw [List.cons_append, List.cons_append, largestSegment, largestSegment, ih, ih]

/-- A segment may be replaced by one element of its total size. -/
lemma largestSegment_merge {seg : List β} {m : β} (hseg : ∀ b ∈ seg, p b) (hm : p m)
    (hsize : size m = (seg.map size).sum) (pre post : List β) (c : ℕ) :
    largestSegment p size c (pre ++ m :: post) =
      largestSegment p size c (pre ++ (seg ++ post)) := by
  refine largestSegment_congr_right (fun d => ?_) pre c
  rw [largestSegment, if_pos hm, largestSegment_append hseg, hsize]

variable (p size)

/-- Every segment of the list is counted. -/
lemma le_largestSegment_of_segment {seg l : List β} (hsub : seg <:+: l) (h : ∀ b ∈ seg, p b)
    (c : ℕ) : (seg.map size).sum ≤ largestSegment p size c l := by
  obtain ⟨pre, post, rfl⟩ := hsub
  rw [List.append_assoc]
  induction pre generalizing c with
  | nil =>
    rw [List.nil_append, largestSegment_append h]
    exact (Nat.le_add_left _ c).trans (le_largestSegment _ post)
  | cons b pre ih =>
    rw [List.cons_append, largestSegment]
    split_ifs with hb
    · exact ih (c + size b)
    · exact (ih 0).trans (le_max_right _ _)

/-- An element that satisfies the predicate is a segment. -/
lemma le_largestSegment_of_mem {b : β} {l : List β} (hb : b ∈ l) (hp : p b) (c : ℕ) :
    size b ≤ largestSegment p size c l := by
  obtain ⟨pre, post, rfl⟩ := List.append_of_mem hb
  have hsub : [b] <:+: pre ++ b :: post := ⟨pre, post, by simp⟩
  simpa using le_largestSegment_of_segment p size hsub (by simpa using hp) c

/-- The largest segment is one of the list, or continues the one before it. -/
lemma exists_infix_largestSegment (c : ℕ) (l : List β) :
    (∃ seg, seg <:+: l ∧ (∀ b ∈ seg, p b) ∧ (seg.map size).sum = largestSegment p size c l) ∨
      ∃ seg, seg <+: l ∧ (∀ b ∈ seg, p b) ∧
        c + (seg.map size).sum = largestSegment p size c l := by
  induction l generalizing c with
  | nil => exact .inr ⟨[], List.prefix_rfl, by simp, rfl⟩
  | cons b l ih =>
    rw [largestSegment]
    split_ifs with hb
    · obtain ⟨seg, hsub, hseg, hsum⟩ | ⟨seg, hpre, hseg, hsum⟩ := ih (c + size b)
      · exact .inl ⟨seg, hsub.trans (List.infix_cons List.infix_rfl), hseg, hsum⟩
      · refine .inr ⟨b :: seg, List.cons_prefix_cons.mpr ⟨rfl, hpre⟩, ?_, ?_⟩
        · exact List.forall_mem_cons.mpr ⟨hb, hseg⟩
        · rw [List.map_cons, List.sum_cons, ← Nat.add_assoc]
          exact hsum
    · rcases le_total (largestSegment p size 0 l) c with hle | hle
      · exact .inr ⟨[], List.nil_prefix, by simp, by simp [max_eq_left hle]⟩
      · rw [max_eq_right hle]
        obtain ⟨seg, hsub, hseg, hsum⟩ | ⟨seg, hpre, hseg, hsum⟩ := ih 0
        · exact .inl ⟨seg, hsub.trans (List.infix_cons List.infix_rfl), hseg, hsum⟩
        · rw [Nat.zero_add] at hsum
          exact .inl ⟨seg, hpre.isInfix.trans (List.infix_cons List.infix_rfl), hseg, hsum⟩

lemma exists_infix_eq_largestSegment (l : List β) :
    ∃ seg, seg <:+: l ∧ (∀ b ∈ seg, p b) ∧ (seg.map size).sum = largestSegment p size 0 l := by
  obtain hinside | ⟨seg, hpre, hseg, hsum⟩ :=
    exists_infix_largestSegment p size 0 l
  · exact hinside
  · rw [Nat.zero_add] at hsum
    exact ⟨seg, hpre.isInfix, hseg, hsum⟩

variable {p size}

/-- A number is at most the largest segment exactly if it is at most the size of some segment. -/
theorem le_largestSegment_iff {n : ℕ} (l : List β) :
    n ≤ largestSegment p size 0 l ↔
      ∃ seg, seg <:+: l ∧ (∀ b ∈ seg, p b) ∧ n ≤ (seg.map size).sum := by
  constructor
  · intro hle
    obtain ⟨seg, hsub, hseg, hsum⟩ := exists_infix_eq_largestSegment p size l
    exact ⟨seg, hsub, hseg, hsum ▸ hle⟩
  · rintro ⟨seg, hsub, hseg, hle⟩
    exact hle.trans (le_largestSegment_of_segment p size hsub hseg 0)

/-- Where no two neighbours satisfy the predicate, a segment is one element. -/
lemma largestSegment_lt_of_isChain {n : ℕ} (hn : 0 < n) {l : List β}
    (hchain : l.IsChain fun a b => ¬ (p a ∧ p b)) (hsize : ∀ b ∈ l, p b → size b < n) :
    largestSegment p size 0 l < n := by
  rw [← not_le, le_largestSegment_iff]
  rintro ⟨seg, hsub, hseg, hle⟩
  cases seg with
  | nil => exact absurd hle (not_le.mpr hn)
  | cons a seg =>
    cases seg with
    | nil =>
      have ha := hsize a (hsub.subset List.mem_cons_self) (hseg a List.mem_cons_self)
      simp only [List.map_cons, List.map_nil, List.sum_cons, List.sum_nil, Nat.add_zero] at hle
      omega
    | cons b seg =>
      have hpair := (List.isChain_cons_cons.mp ( List.IsChain.infix hchain hsub)).1
      exact hpair ⟨hseg a List.mem_cons_self, hseg b (List.mem_cons_of_mem a List.mem_cons_self)⟩

end Chromium.Segments
