import Chromium.PartialData

/-!
# Sub-ranges tile the request

The sub-ranges that are announced cover the requested bytes in order, and they are cached where
all of their bytes are. The last of them is known as long as nothing is inferred from a search
that was cut at the largest length there is.
-/
namespace Chromium.PartialRequest

/-- Sub-ranges that follow one another. -/
def Covers : ℤ → List Round → ℤ → Prop
  | o, [], e => o = e
  | o, r :: rounds, e => r.first = o ∧ r.first ≤ r.last ∧ Covers (r.last + 1) rounds e

/-- The bytes that are requested of a resource. -/
def requested (r : HttpByteRange) (size : ℤ) : ℤ × ℤ :=
  if r.isSuffixByteRange then (size - min size r.suffix_length, size - 1)
  else if r.hasFirstBytePosition then
    (r.first_byte_position,
      if r.hasLastBytePosition then min (size - 1) r.last_byte_position else size - 1)
  else (0, size - 1)

/-- The request is split into sub-ranges as it should be: they cover what was read, more is
announced until all of it was, which is after at most so many rounds, and what is said of them is
true. -/
structure Splits (first last : ℤ) (stored : Set ℤ) (rounds : List Round) (p : PartialData) :
    Prop where
  covers : Covers first rounds p.current_range_start
  le : p.current_range_start ≤ last + 1
  ends : ∀ answer, (p.shouldValidateCache answer).1 = 0 ↔ p.current_range_start = last + 1
  goesOn : p.current_range_start ≠ last + 1 → ∀ stored answer,
    Answer stored p.current_range_start p.getNextRangeLen answer →
      ∃ p₁, p.shouldValidateCache answer = (1, p₁)
  terminates : rounds.length ≤ last + 1 - first
  cached : ∀ r ∈ rounds, r.cached ↔ ∀ i, r.first ≤ i → i ≤ r.last → i ∈ stored
  isLast : ∀ r ∈ rounds, r.final ↔ r.last = last

/-- A search of the cache reached the end of the request, or it found something and not as much
as there can be. -/
def Round.Conclusive (last : ℤ) (r : Round) : Prop :=
  last + 1 - r.first ≤ kint32max ∨
    (r.answer.1 ≠ 0 ∧ ¬ (r.answer.2 = r.first ∧ r.answer.1 = kint32max))

namespace PartialData

/-- A sparse entry whose request ends at a known byte. -/
structure Ready (p : PartialData) (last : ℤ) : Prop where
  sparse : p.sparse_entry = true
  bound : p.byte_range.last_byte_position = last
  nonneg : 0 ≤ p.current_range_start
  pos : 0 ≤ last
  le : p.current_range_start ≤ last + 1

section
variable {p p₁ p₂ p' : PartialData} {last : ℤ}

lemma Ready.hasLast (h : p.Ready last) : p.byte_range.hasLastBytePosition = true := by
  have hpos := h.pos
  rw [HttpByteRange.hasLastBytePosition, h.bound, kPositionNotSpecified]
  exact decide_eq_true (by omega)

lemma toInt32_of_le {n : ℤ} (hlow : 0 ≤ n) (hhigh : n ≤ kint32max) : toInt32 n = n := by
  rw [kint32max] at hhigh
  exact Int.bmod_eq_of_le (by omega) (by omega)

lemma Ready.getNextRangeLen (h : p.Ready last) :
    p.getNextRangeLen = min (last + 1 - p.current_range_start) kint32max := by
  have hle := h.le
  have hmax : 0 ≤ kint32max := by decide
  rw [PartialData.getNextRangeLen, h.hasLast, if_pos rfl, h.bound]
  split_ifs with hlong
  · rw [toInt32_of_le hmax le_rfl]
    omega
  · rw [toInt32_of_le (by omega) (by omega)]
    omega

lemma Answer.nonneg {stored : Set ℤ} {offset len : ℤ} {answer : ℤ × ℤ}
    (h : Answer stored offset len answer) : 0 ≤ answer.1 := by
  cases h with
  | none => exact le_rfl
  | some hpos => exact hpos.le

/-- The end of the request is found. -/
lemma Ready.shouldValidateCache (h : p.Ready last) {answer : ℤ × ℤ} (hanswer : 0 ≤ answer.1) :
    p.shouldValidateCache answer = if p.current_range_start = last + 1 then (0, p)
      else (1, { p with cached_min_len := answer.1, cached_start := answer.2 }) := by
  have hle := h.le
  have hmax : 0 < kint32max := by decide
  have hlen := h.getNextRangeLen
  rw [PartialData.shouldValidateCache]
  by_cases hend : p.current_range_start = last + 1
  · have hzero : p.getNextRangeLen = 0 := by omega
    rw [if_pos hend, if_pos hzero]
  · have hne : ¬ p.getNextRangeLen = 0 := by omega
    rw [if_neg hend, if_neg hne, h.sparse, if_pos rfl]
    dsimp only
    rw [if_neg (not_lt.mpr hanswer)]

/-- The end of the request is found, whatever the cache answers. -/
lemma Ready.shouldValidateCache_eq_zero (h : p.Ready last) (answer : ℤ × ℤ) :
    (p.shouldValidateCache answer).1 = 0 ↔ p.current_range_start = last + 1 := by
  have hle := h.le
  have hmax : 0 < kint32max := by decide
  have hlen := h.getNextRangeLen
  rw [PartialData.shouldValidateCache]
  by_cases hend : p.current_range_start = last + 1
  · have hzero : p.getNextRangeLen = 0 := by omega
    rw [if_pos hzero]
    exact iff_of_true rfl hend
  · have hne : ¬ p.getNextRangeLen = 0 := by omega
    rw [if_neg hne, h.sparse, if_pos rfl]
    dsimp only
    refine iff_of_false ?_ hend
    split_ifs with hneg
    · exact hneg.ne
    · exact one_ne_zero

/-- The sub-range that is announced, from the answer of the cache. -/
structure Announced (p : PartialData) (last : ℤ) (stored : Set ℤ) (r : Round) : Prop where
  first : r.first = p.current_range_start
  le : r.first ≤ r.last
  within : r.last ≤ last
  cached : r.cached ↔ ∀ i, r.first ≤ i → i ≤ r.last → i ∈ stored
  final : p.final_range = false → (r.final ↔ r.answer.1 = 0 ∨
    r.answer.2 = r.first ∧ r.answer.1 = min (last + 1 - r.first) kint32max)
  short : r.answer.1 ≤ min (last + 1 - r.first) kint32max
  end_none : r.answer.1 = 0 → r.last + 1 = r.first + min (last + 1 - r.first) kint32max
  end_some : r.answer.1 ≠ 0 → r.answer.2 = r.first → r.last + 1 = r.first + r.answer.1
  end_first : r.answer.1 ≠ 0 → r.answer.2 ≠ r.first → r.last ≠ last

lemma prepare_none (h : p.Ready last) (hlt : p.current_range_start ≤ last) (start : ℤ) :
    ({ p with cached_min_len := 0, cached_start := start } : PartialData).prepareCacheValidation =
      ({ p with
          cached_min_len := 0
          cached_start := p.current_range_start + p.getNextRangeLen
          range_present := false
          final_range := true },
        p.current_range_start, p.current_range_start + p.getNextRangeLen - 1) := by
  have hlen := h.getNextRangeLen
  have hmax : 0 < kint32max := by decide
  have hne : ¬ p.current_range_start = p.current_range_start + p.getNextRangeLen := by omega
  have hsame : PartialData.getNextRangeLen
      { p with cached_min_len := 0, cached_start := start } = p.getNextRangeLen := rfl
  rw [prepareCacheValidation, hsame]
  simp only [if_true, h.hasLast, if_neg hne]

lemma prepare_some {n : ℤ} (hn : n ≠ 0) (start : ℤ) :
    ({ p with cached_min_len := n, cached_start := start } : PartialData).prepareCacheValidation =
      if p.current_range_start = start then
        ({ p with
            cached_min_len := n, cached_start := start, range_present := true
            final_range := if p.getNextRangeLen = n then true else p.final_range },
          p.current_range_start, start + n - 1)
      else
        ({ p with cached_min_len := n, cached_start := start, range_present := false },
          p.current_range_start, start - 1) := by
  have hsame : PartialData.getNextRangeLen
      { p with cached_min_len := n, cached_start := start } = p.getNextRangeLen := rfl
  rw [prepareCacheValidation, hsame]
  simp only [if_neg hn]

lemma announced (h : p.Ready last) {stored : Set ℤ} {answer : ℤ × ℤ} {first end' : ℤ}
    (hanswer : Answer stored p.current_range_start p.getNextRangeLen answer)
    (hshould : p.shouldValidateCache answer = (1, p₁))
    (hprepare : p₁.prepareCacheValidation = (p₂, first, end')) :
    p₂.Ready last ∧ p₂.current_range_start = p.current_range_start ∧
      Announced p last stored ⟨answer, first, end', p₂.isCurrentRangeCached, p₂.isLastRange⟩ := by
  have hmax : 0 < kint32max := by decide
  have hlen := h.getNextRangeLen
  have hle := h.le
  rw [h.shouldValidateCache (Answer.nonneg hanswer)] at hshould
  split_ifs at hshould with hend
  · have hzero : (0 : ℤ) = 1 := congrArg Prod.fst hshould
    exact absurd hzero (by decide)
  obtain ⟨-, rfl⟩ := Prod.mk.inj hshould
  have hready : ∀ q : PartialData, q.sparse_entry = p.sparse_entry →
      q.byte_range = p.byte_range → q.current_range_start = p.current_range_start →
      q.Ready last := fun q hsparse hrange hstart =>
    ⟨hsparse.trans h.sparse, by rw [hrange]; exact h.bound, by rw [hstart]; exact h.nonneg, h.pos,
      by rw [hstart]; exact h.le⟩
  cases hanswer with
  | none start hnone =>
    have hcur := hnone p.current_range_start le_rfl (by omega)
    rw [prepare_none h (by omega)] at hprepare
    simp only [Prod.mk.injEq] at hprepare
    obtain ⟨rfl, rfl, rfl⟩ := hprepare
    refine ⟨hready _ rfl rfl rfl, rfl, ?_⟩
    constructor <;> dsimp only [isCurrentRangeCached, isLastRange]
    · omega
    · omega
    · exact ⟨fun hfalse => absurd hfalse Bool.false_ne_true,
        fun hall => absurd (hall _ le_rfl (by omega)) hcur⟩
    · simp
    · omega
    · intro _
      omega
    · exact fun hne => absurd rfl hne
    · exact fun hne => absurd rfl hne
  | @some n start hpos hstart hend' hrun hfirst =>
    rw [prepare_some hpos.ne'] at hprepare
    by_cases hpresent : p.current_range_start = start
    · rw [if_pos hpresent, Prod.mk.injEq, Prod.mk.injEq] at hprepare
      obtain ⟨rfl, rfl, rfl⟩ := hprepare
      refine ⟨hready _ rfl rfl rfl, rfl, ?_⟩
      constructor <;> dsimp only [isCurrentRangeCached, isLastRange]
      · omega
      · omega
      · refine iff_of_true rfl fun i hlow hhigh => hrun i (by omega) (by omega)
      · intro hfinal
        rw [hfinal, ← hlen]
        by_cases hfull : p.getNextRangeLen = n
        · rw [if_pos hfull]
          exact iff_of_true rfl (Or.inr ⟨hpresent.symm, hfull.symm⟩)
        · rw [if_neg hfull]
          refine iff_of_false Bool.false_ne_true ?_
          rintro (hzero | ⟨-, heq⟩)
          · omega
          · exact hfull heq.symm
      · omega
      · intro hzero
        omega
      · intro _ _
        omega
      · exact fun _ hne => absurd hpresent.symm hne
    · have hcur := hfirst p.current_range_start le_rfl (by omega)
      rw [if_neg hpresent, Prod.mk.injEq, Prod.mk.injEq] at hprepare
      obtain ⟨rfl, rfl, rfl⟩ := hprepare
      refine ⟨hready _ rfl rfl rfl, rfl, ?_⟩
      constructor <;> dsimp only [isCurrentRangeCached, isLastRange]
      · omega
      · omega
      · exact ⟨fun hfalse => absurd hfalse Bool.false_ne_true,
          fun hall => absurd (hall _ le_rfl (by omega)) hcur⟩
      · intro hfinal
        rw [hfinal]
        refine iff_of_false Bool.false_ne_true ?_
        rintro (hzero | ⟨heq, -⟩)
        · omega
        · exact hpresent heq.symm
      · omega
      · intro hzero
        omega
      · exact fun _ heq => absurd heq.symm hpresent
      · intro _ _
        omega

/-- Reading moves the position and leaves the request alone. -/
lemma Reads.moved {n : ℤ} (h : Reads p n p') (hn : 0 ≤ n) :
    p'.current_range_start = p.current_range_start + n ∧ p'.sparse_entry = p.sparse_entry ∧
      p'.byte_range = p.byte_range ∧ p'.final_range = p.final_range := by
  induction h with
  | done => simp
  | @cache p p' n result hle h ih =>
    obtain ⟨hstart, hsparse, hrange, hfinal⟩ := ih (by omega)
    rw [onCacheReadCompleted] at hstart hsparse hrange hfinal
    split_ifs at hstart hsparse hrange hfinal with hpos
    · exact ⟨by rw [hstart]; dsimp only; omega, hsparse, hrange, hfinal⟩
    · exact ⟨by rw [hstart]; omega, hsparse, hrange, hfinal⟩
  | @network p p' n result hle h ih =>
    obtain ⟨hstart, hsparse, hrange, hfinal⟩ := ih (by omega)
    rw [onNetworkReadCompleted] at hstart hsparse hrange hfinal
    split_ifs at hstart hsparse hrange hfinal with hpos
    · exact ⟨by rw [hstart]; dsimp only; omega, hsparse, hrange, hfinal⟩
    · exact ⟨by rw [hstart]; omega, hsparse, hrange, hfinal⟩

/-- Of one sub-range the last one is told exactly when the search was conclusive. -/
lemma Announced.final_iff {stored : Set ℤ} {r : Round} (h : Announced p last stored r)
    (hfinal : p.final_range = false) : (r.final ↔ r.last = last) ↔ r.Conclusive last := by
  have hiff := h.final hfinal
  have hshort := h.short
  have hnone := h.end_none
  have hsome := h.end_some
  have hfirst := h.end_first
  have hle := h.le
  have hwithin := h.within
  rw [hiff, Round.Conclusive]
  constructor
  · intro hexact
    by_contra hnot
    rw [not_or, not_and_or, not_not, not_not] at hnot
    obtain ⟨hlong, hzero | ⟨hat, hfull⟩⟩ := hnot
    · have hlast := hexact.mp (Or.inl hzero)
      have hend := hnone hzero
      omega
    · have hlast := hexact.mp (Or.inr ⟨hat, by omega⟩)
      have hmax : 0 < kint32max := by decide
      have hend := hsome (by omega) hat
      omega
  · intro hconclusive
    constructor
    · rintro (hzero | ⟨hat, hfull⟩)
      · have hend := hnone hzero
        omega
      · by_cases hzero : r.answer.1 = 0
        · have hend := hnone hzero
          omega
        · have hend := hsome hzero hat
          rcases hconclusive with hreach | ⟨-, hnot⟩
          · omega
          · have hne : r.answer.1 ≠ kint32max := fun heq => hnot ⟨hat, heq⟩
            omega
    · intro hlast
      by_cases hzero : r.answer.1 = 0
      · exact Or.inl hzero
      · by_cases hat : r.answer.2 = r.first
        · have hend := hsome hzero hat
          exact Or.inr ⟨hat, by omega⟩
        · exact absurd hlast (hfirst hzero hat)

end

end PartialData

/-! ### Whole runs -/

section
variable {p p' : PartialData} {last : ℤ} {stored : Set ℤ} {rounds : List Round}

lemma Covers.first_le {o e : ℤ} (h : Covers o rounds e) : o ≤ e ∧ ∀ r ∈ rounds, o ≤ r.first := by
  induction rounds generalizing o with
  | nil => exact ⟨le_of_eq h, by simp⟩
  | cons r rounds ih =>
    obtain ⟨hfirst, hle, hrest⟩ := h
    obtain ⟨hend, hmem⟩ := ih hrest
    refine ⟨by omega, fun q hq => ?_⟩
    rcases List.mem_cons.mp hq with rfl | hq
    · omega
    · have hq' := hmem q hq
      omega

/-- One round of a run. -/
lemma ready_of_round {p₁ p₂ p₃ : PartialData} {answer : ℤ × ℤ} {first end' : ℤ}
    (h : p.Ready last)
    (hanswer : Answer stored p.current_range_start p.getNextRangeLen answer)
    (hshould : p.shouldValidateCache answer = (1, p₁))
    (hprepare : p₁.prepareCacheValidation = (p₂, first, end'))
    (hreads : Reads p₂ (end' - first + 1) p₃) :
    p₃.Ready last ∧ p₃.current_range_start = end' + 1 ∧
      p₃.final_range = p₂.isLastRange ∧ PartialData.Announced p last stored
        ⟨answer, first, end', p₂.isCurrentRangeCached, p₂.isLastRange⟩ := by
  obtain ⟨hready, hstart, hannounced⟩ := PartialData.announced h hanswer hshould hprepare
  have hfirst := hannounced.first
  have hle := hannounced.le
  have hwithin := hannounced.within
  dsimp only at hfirst hle hwithin
  have hnonneg := h.nonneg
  obtain ⟨hmoved, hsparse, hrange, hfinal⟩ := PartialData.Reads.moved hreads (by omega)
  exact ⟨⟨hsparse.trans hready.sparse, by rw [hrange]; exact hready.bound, by omega, h.pos,
    by omega⟩, by omega, hfinal, hannounced⟩

/-- The sub-ranges of a run cover what was read, and they are cached where all is stored. -/
lemma Run.covers (hrun : Run stored p rounds p') (h : p.Ready last) :
    p'.Ready last ∧ Covers p.current_range_start rounds p'.current_range_start ∧
      rounds.length ≤ p'.current_range_start - p.current_range_start ∧
      ∀ r ∈ rounds, r.cached ↔ ∀ i, r.first ≤ i → i ≤ r.last → i ∈ stored := by
  induction hrun with
  | done => exact ⟨h, rfl, by simp, by simp⟩
  | round hanswer hshould hprepare hreads hstored hrest ih =>
    obtain ⟨hready, hnext, -, hannounced⟩ := ready_of_round h hanswer hshould hprepare hreads
    obtain ⟨hready', hcovers, hlength, hcached⟩ := ih hready
    have hfirst := hannounced.first
    have hle := hannounced.le
    have hmem := hcovers.first_le
    dsimp only at hfirst hle
    rw [hnext] at hcovers hlength hmem hstored
    refine ⟨hready', ⟨hfirst, hle, hcovers⟩, ?_, fun r hr => ?_⟩
    · rw [List.length_cons]
      push_cast
      omega
    · rcases List.mem_cons.mp hr with rfl | hr
      · exact hannounced.cached
      · have hlow := hmem.2 r hr
        rw [hcached r hr]
        refine forall_congr' fun i => ?_
        constructor <;> intro hall hi hi'
        · exact (hstored i (by omega)).mp (hall hi hi')
        · exact (hstored i (by omega)).mpr (hall hi hi')

/-- The last sub-range is told exactly when all searches were conclusive. -/
lemma Run.final_iff (hrun : Run stored p rounds p') (h : p.Ready last)
    (hfinal : p.final_range = false) :
    (∀ r ∈ rounds, r.final ↔ r.last = last) ↔ ∀ r ∈ rounds, r.Conclusive last := by
  induction hrun with
  | done => simp
  | @round _ _ p p₁ p₂ p₃ p' answer first end' rounds hanswer hshould hprepare hreads hstored
      hrest ih =>
    obtain ⟨hready, hnext, hsame, hannounced⟩ := ready_of_round h hanswer hshould hprepare hreads
    have hone := hannounced.final_iff hfinal
    rw [List.forall_mem_cons, List.forall_mem_cons, hone]
    refine and_congr_right fun hconclusive => ?_
    by_cases hend : end' = last
    · -- then the run is over
      obtain ⟨hready', hcovers, -, -⟩ := hrest.covers hready
      have hnil : rounds = [] := by
        cases rounds with
        | nil => rfl
        | cons r rounds =>
          obtain ⟨hfirst, hle, hcovers⟩ := hcovers
          have hbound := hready'.le
          have hlow := hcovers.first_le.1
          omega
      simp [hnil]
    · refine ih hready ?_
      have hnot := mt (hone.mpr hconclusive).mp hend
      rw [hsame]
      simpa using hnot

end

/-! ### Requests that are accepted -/

/-- A new object, for a request with a range or without one. -/
inductive Started : HttpByteRange → PartialData → Prop
  | range {p q : PartialData} {r : HttpByteRange} (h : q.init r = some p) : Started r p
  | none (q : PartialData) : Started {} q.withoutRange

/-- The ranges that are read from a request: a first position, or a suffix. -/
def HttpByteRange.Parsed (r : HttpByteRange) : Prop :=
  r.has_computed_bounds = false ∧
    (r.suffix_length = kPositionNotSpecified ∨
      r.first_byte_position = kPositionNotSpecified ∧
        r.last_byte_position = kPositionNotSpecified)

namespace HttpByteRange
variable {r : HttpByteRange} {size : ℤ}

lemma computeBounds_suffix (hr : r.Parsed) (hsuffix : r.isSuffixByteRange) (hvalid : r.isValid)
    (hsize : 0 < size) : r.computeBounds size = (true, { r with
      has_computed_bounds := true
      first_byte_position := size - min size r.suffix_length
      last_byte_position := size - 1 }) := by
  rw [computeBounds, if_neg (by omega), hr.1, if_neg Bool.false_ne_true]
  exact (if_neg fun h => h.2.2 hsuffix).trans
    ((if_neg (not_not.mpr hvalid)).trans (if_pos hsuffix))

lemma first_nonneg (hsuffix : ¬ r.isSuffixByteRange) (hvalid : r.isValid) :
    0 ≤ r.first_byte_position ∧ (r.last_byte_position = kPositionNotSpecified ∨
      r.first_byte_position ≤ r.last_byte_position) := by
  have hnone : r.suffix_length = kPositionNotSpecified := by
    by_contra hne
    exact hsuffix (decide_eq_true hne)
  rw [isValid, hnone, if_neg (by decide)] at hvalid
  exact of_decide_eq_true hvalid

lemma computeBounds_first (hr : r.Parsed) (hsuffix : ¬ r.isSuffixByteRange) (hvalid : r.isValid)
    (hsize : 0 < size) : r.computeBounds size =
      if r.first_byte_position < size then
        (true, { r with
          has_computed_bounds := true
          last_byte_position :=
            if r.hasLastBytePosition then min (size - 1) r.last_byte_position else size - 1 })
      else (false, { r with has_computed_bounds := true }) := by
  have hfirst : r.hasFirstBytePosition := by
    have hpos := (first_nonneg hsuffix hvalid).1
    exact decide_eq_true (by rw [kPositionNotSpecified]; omega)
  rw [computeBounds, if_neg (by omega), hr.1, if_neg Bool.false_ne_true]
  refine (if_neg fun h => h.1 hfirst).trans ((if_neg (not_not.mpr hvalid)).trans
    ((if_neg hsuffix).trans ?_))
  by_cases hlt : r.first_byte_position < size
  · simp only [if_pos hlt]
    by_cases hlast : r.hasLastBytePosition
    · rw [if_pos hlast]
      exact if_pos hlast
    · rw [if_neg hlast]
      exact if_neg hlast
  · simp only [if_neg hlt]

end HttpByteRange

lemma ready_of_accepted {r : HttpByteRange} {p₀ p₁ p : PartialData} {size : ℤ} (hr : r.Parsed)
    (hstart : Started r p₀) (hstored : p₀.updateFromStoredHeaders size = some p₁)
    (hok : p₁.isRequestedRangeOK = (true, p)) :
    p.Ready (requested r size).2 ∧ p.current_range_start = (requested r size).1 ∧
      p.final_range = false := by
  rw [PartialData.updateFromStoredHeaders] at hstored
  split_ifs at hstored with hempty
  obtain rfl := Option.some.inj hstored
  have hsize : 0 < size := not_le.mp hempty
  cases hstart with
  | @range _ q r h =>
    rw [PartialData.init] at h
    dsimp only at h
    split_ifs at h with hvalid
    obtain rfl := Option.some.inj h
    rw [PartialData.isRequestedRangeOK] at hok
    dsimp only at hok
    rw [if_pos hvalid] at hok
    by_cases hsuffix : r.isSuffixByteRange
    · have hne : r.suffix_length ≠ kPositionNotSpecified := of_decide_eq_true hsuffix
      have hfirst : r.first_byte_position = -1 := (hr.2.resolve_left hne).1
      have hlow : 0 ≤ size - min size r.suffix_length := by omega
      have hpos : 0 < r.suffix_length := by
        by_contra hnot
        rw [HttpByteRange.isValid, if_neg hnot] at hvalid
        have hge := (of_decide_eq_true hvalid).1
        omega
      rw [HttpByteRange.computeBounds_suffix hr hsuffix hvalid hsize] at hok
      simp only [not_true, if_false, Bool.false_eq_true, hfirst] at hok
      rw [if_pos (by decide), if_pos hlow, Prod.mk.injEq] at hok
      obtain ⟨-, rfl⟩ := hok
      rw [requested, if_pos hsuffix]
      exact ⟨⟨rfl, rfl, hlow, by dsimp only; omega, by dsimp only; omega⟩, rfl, rfl⟩
    · obtain ⟨hfirst, hlast⟩ := HttpByteRange.first_nonneg hsuffix hvalid
      have hhas : r.hasFirstBytePosition :=
        decide_eq_true (by rw [kPositionNotSpecified]; omega)
      rw [HttpByteRange.computeBounds_first hr hsuffix hvalid hsize] at hok
      by_cases hlt : r.first_byte_position < size
      · rw [if_pos hlt] at hok
        simp only [not_true, if_false, Bool.false_eq_true] at hok
        rw [if_neg (by omega), if_pos hfirst, Prod.mk.injEq] at hok
        obtain ⟨-, rfl⟩ := hok
        rw [requested, if_neg hsuffix, if_pos hhas]
        have hlast' : r.hasLastBytePosition → r.first_byte_position ≤ r.last_byte_position :=
          fun h => hlast.resolve_left (of_decide_eq_true h)
        refine ⟨⟨rfl, rfl, hfirst, ?_, ?_⟩, rfl, rfl⟩ <;> dsimp only
        · split_ifs with hl
          · have hle := hlast' hl
            omega
          · omega
        · split_ifs with hl
          · have hle := hlast' hl
            omega
          · omega
      · rw [if_neg hlt] at hok
        simp at hok
  | none q =>
    have hwhole : PartialData.isRequestedRangeOK { q.withoutRange with resource_size := size } =
        (true, { q.withoutRange with
          resource_size := size, current_range_start := 0
          byte_range := { last_byte_position := size - 1 } }) := rfl
    obtain ⟨-, rfl⟩ := Prod.mk.inj (hwhole.symm.trans hok)
    have hrequested : requested {} size = (0, size - 1) := rfl
    rw [hrequested]
    exact ⟨⟨rfl, rfl, le_rfl, by dsimp only; omega, by dsimp only; omega⟩, rfl, rfl⟩

/-- A request is split as it should be exactly when every search was conclusive. -/
theorem splits_iff {r : HttpByteRange} {p₀ p₁ p p' : PartialData} {size : ℤ} {stored : Set ℤ}
    {rounds : List Round} (hr : r.Parsed) (hstart : Started r p₀)
    (hstored : p₀.updateFromStoredHeaders size = some p₁)
    (hok : p₁.isRequestedRangeOK = (true, p)) (hrun : Run stored p rounds p') :
    Splits (requested r size).1 (requested r size).2 stored rounds p' ↔
      ∀ q ∈ rounds, q.Conclusive (requested r size).2 := by
  obtain ⟨hready, hfirst, hfinal⟩ := ready_of_accepted hr hstart hstored hok
  obtain ⟨hready', hcovers, hlength, hcached⟩ := hrun.covers hready
  have hiff := hrun.final_iff hready hfinal
  constructor
  · exact fun h => hiff.mp h.isLast
  · intro hconclusive
    have hle := hready'.le
    refine ⟨by rw [← hfirst]; exact hcovers, hle, hready'.shouldValidateCache_eq_zero, ?_,
      by omega, hcached, hiff.mpr hconclusive⟩
    intro hmore stored answer hanswer
    rw [hready'.shouldValidateCache (PartialData.Answer.nonneg hanswer), if_neg hmore]
    exact ⟨_, rfl⟩

/-- A resource of three bytes of which the first one is stored. -/
theorem splits_small : ∃ (rounds : List Round) (p' : PartialData),
    rounds.map (fun q => (q.first, q.last, q.cached, q.final)) =
      [(0, 0, true, false), (1, 2, false, true)] ∧ Splits 0 2 {0} rounds p' := by
  have hrest : Run {0} ⟨1, 0, 3, 0, { last_byte_position := 2 }, true, false, true, false⟩
      [⟨(0, 0), 1, 2, false, true⟩]
      ⟨3, 3, 3, 0, { last_byte_position := 2 }, false, true, true, false⟩ := by
    have hanswer : Answer {0} 1 2 (0, 0) := .none 0 fun i hlow _ hi => by
      rw [Set.mem_singleton_iff] at hi
      omega
    have hreads : Reads ⟨1, 3, 3, 0, { last_byte_position := 2 }, false, true, true, false⟩ 2
        ⟨3, 3, 3, 0, { last_byte_position := 2 }, false, true, true, false⟩ :=
      .network 2 le_rfl (.done _)
    have hshould : PartialData.shouldValidateCache
        ⟨1, 0, 3, 0, { last_byte_position := 2 }, true, false, true, false⟩ (0, 0) =
        (1, ⟨1, 0, 3, 0, { last_byte_position := 2 }, true, false, true, false⟩) := rfl
    have hprepare : PartialData.prepareCacheValidation
        ⟨1, 0, 3, 0, { last_byte_position := 2 }, true, false, true, false⟩ =
        (⟨1, 3, 3, 0, { last_byte_position := 2 }, false, true, true, false⟩, 1, 2) := rfl
    exact .round hanswer hshould hprepare hreads (fun _ _ => Iff.rfl) (.done {0} _)
  have hrun : Run {0} ⟨0, 0, 3, 0, { last_byte_position := 2 }, false, false, true, false⟩
      [⟨(1, 0), 0, 0, true, false⟩, ⟨(0, 0), 1, 2, false, true⟩]
      ⟨3, 3, 3, 0, { last_byte_position := 2 }, false, true, true, false⟩ := by
    have hanswer : Answer {0} 0 3 (1, 0) :=
      .some one_pos le_rfl (by decide) (fun i hlow hhigh => by
        rw [Set.mem_singleton_iff]
        omega) fun i hlow hhigh => by omega
    have hreads : Reads ⟨0, 0, 3, 1, { last_byte_position := 2 }, true, false, true, false⟩ 1
        ⟨1, 0, 3, 0, { last_byte_position := 2 }, true, false, true, false⟩ :=
      .cache 1 le_rfl (.done _)
    have hshould : PartialData.shouldValidateCache
        ⟨0, 0, 3, 0, { last_byte_position := 2 }, false, false, true, false⟩ (1, 0) =
        (1, ⟨0, 0, 3, 1, { last_byte_position := 2 }, false, false, true, false⟩) := rfl
    have hprepare : PartialData.prepareCacheValidation
        ⟨0, 0, 3, 1, { last_byte_position := 2 }, false, false, true, false⟩ =
        (⟨0, 0, 3, 1, { last_byte_position := 2 }, true, false, true, false⟩, 0, 0) := rfl
    exact .round hanswer hshould hprepare hreads (fun _ _ => Iff.rfl) hrest
  have hstored : PartialData.updateFromStoredHeaders
      (PartialData.withoutRange ⟨0, 0, 0, 0, {}, false, false, true, false⟩) 3 =
      some ⟨0, 0, 3, 0, {}, false, false, true, false⟩ := rfl
  have hok : PartialData.isRequestedRangeOK ⟨0, 0, 3, 0, {}, false, false, true, false⟩ =
      (true, ⟨0, 0, 3, 0, { last_byte_position := 2 }, false, false, true, false⟩) := rfl
  have hsplits := (splits_iff ⟨rfl, Or.inl rfl⟩ (.none _) hstored hok hrun).mpr (by
    intro q hq
    refine Or.inl ?_
    rcases List.mem_cons.mp hq with rfl | hq
    · decide
    · rw [List.mem_singleton.mp hq]
      decide)
  exact ⟨_, _, rfl, hsplits⟩

/-- Nothing is stored in the first `kint32max` bytes, and there is one more. -/
theorem splits_large : ¬ ∀ {r : HttpByteRange} {p₀ p₁ p p' : PartialData} {size : ℤ}
    {stored : Set ℤ} {rounds : List Round}, r.Parsed → Started r p₀ →
    p₀.updateFromStoredHeaders size = some p₁ → p₁.isRequestedRangeOK = (true, p) →
    Run stored p rounds p' →
    Splits (requested r size).1 (requested r size).2 stored rounds p' := by
  intro h
  have hrun : Run ∅
      ⟨0, 0, 2 ^ 31, 0, { last_byte_position := 2 ^ 31 - 1 }, false, false, true, false⟩
      [⟨(0, 0), 0, 2 ^ 31 - 2, false, true⟩]
      ⟨2 ^ 31 - 1, 2 ^ 31 - 1, 2 ^ 31, 0, { last_byte_position := 2 ^ 31 - 1 }, false, true, true,
        false⟩ := by
    have hanswer : Answer ∅ 0 (2 ^ 31 - 1) (0, 0) := .none 0 fun i _ _ => Set.notMem_empty i
    have hreads : Reads ⟨0, 2 ^ 31 - 1, 2 ^ 31, 0, { last_byte_position := 2 ^ 31 - 1 }, false,
        true, true, false⟩ (2 ^ 31 - 1) ⟨2 ^ 31 - 1, 2 ^ 31 - 1, 2 ^ 31, 0,
          { last_byte_position := 2 ^ 31 - 1 }, false, true, true, false⟩ :=
      .network (2 ^ 31 - 1) le_rfl (.done _)
    have hshould : PartialData.shouldValidateCache ⟨0, 0, 2 ^ 31, 0,
        { last_byte_position := 2 ^ 31 - 1 }, false, false, true, false⟩ (0, 0) =
        (1, ⟨0, 0, 2 ^ 31, 0, { last_byte_position := 2 ^ 31 - 1 }, false, false, true, false⟩) :=
      rfl
    have hprepare : PartialData.prepareCacheValidation ⟨0, 0, 2 ^ 31, 0,
        { last_byte_position := 2 ^ 31 - 1 }, false, false, true, false⟩ =
        (⟨0, 2 ^ 31 - 1, 2 ^ 31, 0, { last_byte_position := 2 ^ 31 - 1 }, false, true, true,
          false⟩, 0, 2 ^ 31 - 2) := rfl
    exact .round hanswer hshould hprepare hreads (fun _ _ => Iff.rfl) (.done ∅ _)
  have hstored : PartialData.updateFromStoredHeaders
      (PartialData.withoutRange ⟨0, 0, 0, 0, {}, false, false, true, false⟩) (2 ^ 31) =
      some ⟨0, 0, 2 ^ 31, 0, {}, false, false, true, false⟩ := rfl
  have hok : PartialData.isRequestedRangeOK ⟨0, 0, 2 ^ 31, 0, {}, false, false, true, false⟩ =
      (true, ⟨0, 0, 2 ^ 31, 0, { last_byte_position := 2 ^ 31 - 1 }, false, false, true,
        false⟩) := rfl
  have hsplits := h ⟨rfl, Or.inl rfl⟩ (.none _) hstored hok hrun
  have hlast := (hsplits.isLast _ (List.mem_singleton_self _)).mp rfl
  exact absurd hlast (by decide)

end Chromium.PartialRequest
