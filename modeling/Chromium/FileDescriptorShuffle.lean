import Mathlib.Data.List.Basic
import Mathlib.Logic.Function.Basic
import Mathlib.Tactic

/-!
# Shuffling of file descriptors

`base/posix/file_descriptor_shuffle.cc`: a list of arcs says which descriptor each descriptor shall
be a copy of, in whatever order the arcs come. Where an arc overwrites the source of a later one,
the later arc gets a temporary descriptor as its source, which is closed at the end.
-/
namespace Chromium.FileDescriptorShuffle

open Function

/-- `base::InjectionArc` -/
structure InjectionArc where
  source : ℤ
  dest : ℤ
  close : Bool
  deriving DecidableEq, Repr

variable {φ : Type*}

/-- An `InjectionDelegate` with the table of what the descriptors refer to. What it will answer is
part of it: the unused descriptors that `Duplicate` returns in turn, and whether a call of `Move`
succeeds. -/
structure Delegate (φ : Type*) where
  table : ℤ → Option φ
  answers : List ℤ
  moves : List Bool
  temporaries : List ℤ := []

namespace Delegate

/-- `Duplicate`. It fails when there is no unused descriptor or `fd` is not open. -/
def duplicate (d : Delegate φ) (fd : ℤ) : Option (ℤ × Delegate φ) :=
  match d.answers with
  | [] => none
  | result :: answers =>
    if 0 ≤ result ∧ (d.table result).isNone ∧ (d.table fd).isSome then
      some (result, { d with
        table := update d.table result (d.table fd)
        answers := answers
        temporaries := d.temporaries ++ [result] })
    else none

/-- `Move` -/
def move (d : Delegate φ) (src dest : ℤ) : Option (Delegate φ) :=
  match d.moves with
  | true :: moves =>
    if (d.table src).isSome then
      some { d with
        table := update d.table dest (d.table src)
        moves := moves }
    else none
  | _ => none

/-- `Close` -/
def close (d : Delegate φ) (fd : ℤ) : Delegate φ := { d with table := update d.table fd none }

end Delegate

def kMaxExtraFDs : ℕ := 16

/-- The delegate and the temporaries that are to be closed. -/
structure Shuffle (φ : Type*) where
  delegate : Delegate φ
  extra_fds : List ℤ := []

namespace InjectionArc

def isIdentity (i : InjectionArc) : Bool := i.source = i.dest

end InjectionArc

/-- A new temporary. The ones that `extra_fds` has no place for are never closed. -/
def takeTemporary (s : Shuffle φ) (fd : ℤ) : Option (ℤ × Shuffle φ) :=
  (s.delegate.duplicate fd).map fun temp => (temp.1, {
    delegate := temp.2
    extra_fds :=
      if s.extra_fds.length < kMaxExtraFDs then s.extra_fds ++ [temp.1] else s.extra_fds })

/-- A later arc `j` whose source the arc `i` overwrites gets the temporary, which is `-1` until it
is needed. -/
def redirect (i : InjectionArc) (temp_fd : ℤ) (s : Shuffle φ) (j : InjectionArc) :
    Option (ℤ × Shuffle φ × InjectionArc) :=
  if !i.isIdentity ∧ i.dest = j.source then
    (if temp_fd = -1 then takeTemporary s i.dest else some (temp_fd, s)).map fun temp =>
      (temp.1, temp.2, { j with
        source := temp.1
        close := false })
  else some (temp_fd, s, j)

/-- Who closes the source of `i`: nobody when it is the destination of `j`, and `j` when it is its
source too. -/
def passClose (i j : InjectionArc) : InjectionArc × InjectionArc :=
  let i := if i.close ∧ i.source = j.dest then { i with close := false } else i
  if i.close ∧ i.source = j.source then ({ i with close := false }, { j with close := true })
  else (i, j)

/-- The loop over the arcs behind `i`. -/
def innerLoop (i : InjectionArc) (temp_fd : ℤ) (s : Shuffle φ) :
    List InjectionArc → Option (InjectionArc × Shuffle φ × List InjectionArc)
  | [] => some (i, s, [])
  | j :: rest =>
    (redirect i temp_fd s j).bind fun r =>
      let passed := passClose i r.2.2
      (innerLoop passed.1 r.1 r.2.1 rest).map fun l => (l.1, l.2.1, passed.2 :: l.2.2)

/-- One round of the loop over the arcs. -/
def round (i : InjectionArc) (rest : List InjectionArc) (s : Shuffle φ) :
    Option (List InjectionArc × Shuffle φ) :=
  (innerLoop i (-1) s rest).bind fun l =>
    if l.1.isIdentity then some (l.2.2, l.2.1)
    else
      (l.2.1.delegate.move l.1.source l.1.dest).map fun d =>
        (l.2.2, { l.2.1 with delegate := if l.1.close then d.close l.1.source else d })

def shuffleLoop : ℕ → List InjectionArc → Shuffle φ → Option (Shuffle φ)
  | n + 1, i :: rest, s => (round i rest s).bind fun next => shuffleLoop n next.1 next.2
  | _, _, s => some s

/-- `PerformInjectiveMultimap`, where `none` is the answer false -/
def performInjectiveMultimap (m : List InjectionArc) (delegate : Delegate φ) :
    Option (Delegate φ) :=
  (shuffleLoop m.length m { delegate := delegate }).map fun s =>
    s.extra_fds.foldl Delegate.close s.delegate

/-! ### The two parts of the inner loop -/

/-- The arcs whose source is `dest` get the temporary `t`. -/
def redirected (dest t : ℤ) (j : InjectionArc) : InjectionArc :=
  if dest = j.source then { j with
    source := t
    close := false }
  else j

/-- What becomes of the closing of `i`'s source. -/
def passedAlong (i : InjectionArc) : List InjectionArc → InjectionArc × List InjectionArc
  | [] => (i, [])
  | j :: rest =>
    let passed := passClose i j
    let l := passedAlong passed.1 rest
    (l.1, passed.2 :: l.2)

@[simp] lemma passClose_source (i j : InjectionArc) : (passClose i j).1.source = i.source := by
  rw [passClose]
  split_ifs <;> rfl

@[simp] lemma passClose_dest (i j : InjectionArc) : (passClose i j).1.dest = i.dest := by
  rw [passClose]
  split_ifs <;> rfl

lemma passClose_isIdentity (i j : InjectionArc) :
    (passClose i j).1.isIdentity = i.isIdentity := by
  rw [InjectionArc.isIdentity, passClose_source, passClose_dest, InjectionArc.isIdentity]

/-- No arc behind `i` needs a temporary. -/
lemma innerLoop_of_none {i : InjectionArc} {rest : List InjectionArc} {temp_fd : ℤ}
    (h : i.isIdentity = true ∨ ∀ j ∈ rest, i.dest ≠ j.source) (s : Shuffle φ) :
    innerLoop i temp_fd s rest =
      some ((passedAlong i rest).1, s, (passedAlong i rest).2) := by
  induction rest generalizing i with
  | nil => rfl
  | cons j rest ih =>
    have hno : ¬ (!i.isIdentity ∧ i.dest = j.source) := by
      intro ⟨hidentity, heq⟩
      obtain h | h := h
      · simp [h] at hidentity
      · exact h j List.mem_cons_self heq
    have hrest := ih (i := (passClose i j).1) (by
      rw [passClose_isIdentity, passClose_dest]
      exact h.imp_right fun h j' hj' => h j' (List.mem_cons_of_mem _ hj'))
    rw [innerLoop, redirect, if_neg hno, Option.bind_some]
    dsimp only
    rw [hrest]
    rfl

/-- The temporary is there already. -/
lemma innerLoop_of_temp {i : InjectionArc} (hi : i.isIdentity = false) {temp_fd : ℤ}
    (htemp : temp_fd ≠ -1) (s : Shuffle φ) (rest : List InjectionArc) :
    innerLoop i temp_fd s rest =
      some ((passedAlong i (rest.map (redirected i.dest temp_fd))).1, s,
        (passedAlong i (rest.map (redirected i.dest temp_fd))).2) := by
  induction rest generalizing i with
  | nil => rfl
  | cons j rest ih =>
    have hstep : redirect i temp_fd s j = some (temp_fd, s, redirected i.dest temp_fd j) := by
      rw [redirect, redirected]
      by_cases heq : i.dest = j.source
      · rw [if_pos ⟨by rw [hi]; rfl, heq⟩, if_neg htemp, if_pos heq]
        rfl
      · rw [if_neg fun h => heq h.2, if_neg heq]
    have hrest := ih (i := (passClose i (redirected i.dest temp_fd j)).1)
      (by rw [passClose_isIdentity, hi])
    rw [passClose_dest] at hrest
    rw [innerLoop, hstep, Option.bind_some]
    dsimp only
    rw [hrest]
    rfl

lemma takeTemporary_some {s s' : Shuffle φ} {fd t : ℤ} (h : takeTemporary s fd = some (t, s')) :
    0 ≤ t ∧ s.delegate.table t = none ∧ (s.delegate.table fd).isSome ∧
      s'.delegate.table = update s.delegate.table t (s.delegate.table fd) ∧
      s'.delegate.temporaries = s.delegate.temporaries ++ [t] ∧
      s'.extra_fds =
        if s.extra_fds.length < kMaxExtraFDs then s.extra_fds ++ [t] else s.extra_fds := by
  obtain ⟨temp, hduplicate, htemp⟩ := Option.map_eq_some_iff.mp h
  obtain ⟨rfl, rfl⟩ := Prod.ext_iff.mp htemp
  rw [Delegate.duplicate] at hduplicate
  cases hanswers : s.delegate.answers with
  | nil => simp [hanswers] at hduplicate
  | cons result answers =>
    rw [hanswers] at hduplicate
    dsimp only at hduplicate
    split_ifs at hduplicate with hfresh
    obtain rfl := Option.some_injective _ hduplicate
    exact ⟨hfresh.1, Option.isNone_iff_eq_none.mp hfresh.2.1, hfresh.2.2, rfl, rfl, rfl⟩

/-- The first arc that needs a temporary. -/
lemma innerLoop_of_exists {i : InjectionArc} (hi : i.isIdentity = false)
    {rest : List InjectionArc} (h : ∃ j ∈ rest, i.dest = j.source) (s : Shuffle φ) :
    innerLoop i (-1) s rest =
      (takeTemporary s i.dest).map fun temp =>
        ((passedAlong i (rest.map (redirected i.dest temp.1))).1, temp.2,
          (passedAlong i (rest.map (redirected i.dest temp.1))).2) := by
  induction rest generalizing i with
  | nil => simp at h
  | cons j rest ih =>
    by_cases heq : i.dest = j.source
    · rw [innerLoop, redirect, if_pos ⟨by rw [hi]; rfl, heq⟩, if_pos rfl]
      cases htake : takeTemporary s i.dest with
      | none => rfl
      | some temp =>
        have hne : temp.1 ≠ -1 := by
          have := (takeTemporary_some htake).1
          omega
        have hrest := innerLoop_of_temp (i := (passClose i (redirected i.dest temp.1 j)).1)
          (by rw [passClose_isIdentity, hi]) hne temp.2 rest
        rw [passClose_dest] at hrest
        rw [redirected, if_pos heq] at hrest
        rw [Option.map_some, Option.bind_some]
        dsimp only
        rw [hrest, Option.map_some, Option.map_some, List.map_cons, passedAlong, redirected,
          if_pos heq]
    · have hexists : ∃ j' ∈ rest, (passClose i j).1.dest = j'.source := by
        obtain ⟨j', hj', heq'⟩ := h
        obtain rfl | hj' := List.mem_cons.mp hj'
        · exact absurd heq' heq
        · exact ⟨j', hj', by rw [passClose_dest, heq']⟩
      have hrest := ih (i := (passClose i j).1) (by rw [passClose_isIdentity, hi]) hexists
      rw [passClose_dest] at hrest
      rw [innerLoop, redirect, if_neg fun h => heq h.2, Option.bind_some]
      dsimp only
      rw [hrest, Option.map_map]
      congr 1
      funext temp
      rw [Function.comp_apply, List.map_cons, passedAlong, redirected, if_neg heq]

lemma passedAlong_of_not_close {i : InjectionArc} (hi : i.close = false)
    (rest : List InjectionArc) : passedAlong i rest = (i, rest) := by
  induction rest with
  | nil => rfl
  | cons j rest ih =>
    have hpass : passClose i j = (i, j) := by simp [passClose, hi]
    rw [passedAlong, hpass]
    dsimp only
    rw [ih]

/-- The closing of `i`'s source is dropped because the source is a later destination, or is left to
`i`, or is passed to the first later arc with the same source. -/
inductive Passed (i : InjectionArc) (rest : List InjectionArc) :
    InjectionArc × List InjectionArc → Prop
  | dropped (h : i.close = false ∨ ∃ d ∈ rest, d.dest = i.source) :
    Passed i rest ({ i with close := false }, rest)
  | kept (hclose : i.close = true)
    (h : ∀ d ∈ rest, d.dest ≠ i.source ∧ d.source ≠ i.source) : Passed i rest (i, rest)
  | passed {pre post : List InjectionArc} {j : InjectionArc} (hclose : i.close = true)
    (hrest : rest = pre ++ j :: post) (hpre : ∀ d ∈ pre, d.dest ≠ i.source)
    (hdest : j.dest ≠ i.source) (hsource : j.source = i.source) :
    Passed i rest ({ i with close := false }, pre ++ { j with close := true } :: post)

lemma passed_passedAlong (i : InjectionArc) (rest : List InjectionArc) :
    Passed i rest (passedAlong i rest) := by
  induction rest with
  | nil =>
    cases hclose : i.close with
    | false =>
      have hi : i = { i with close := false } := by rw [← hclose]
      rw [passedAlong]
      nth_rewrite 2 [hi]
      exact .dropped (.inl hclose)
    | true => exact .kept hclose (by simp)
  | cons j rest ih =>
    cases hclose : i.close with
    | false =>
      have hi : i = { i with close := false } := by rw [← hclose]
      rw [passedAlong_of_not_close hclose]
      nth_rewrite 2 [hi]
      exact .dropped (.inl hclose)
    | true =>
      by_cases hdest : i.source = j.dest
      · have hpass : passClose i j = ({ i with close := false }, j) := by
          simp [passClose, hclose, hdest]
        rw [passedAlong, hpass]
        dsimp only
        rw [passedAlong_of_not_close rfl]
        exact .dropped (.inr ⟨j, List.mem_cons_self, hdest.symm⟩)
      by_cases hsource : i.source = j.source
      · have hpass :
            passClose i j = ({ i with close := false }, { j with close := true }) := by
          simp only [passClose, hdest, and_false, if_false]
          rw [if_pos ⟨hclose, hsource⟩]
        rw [passedAlong, hpass]
        dsimp only
        rw [passedAlong_of_not_close rfl]
        exact @Passed.passed i _ [] rest j hclose rfl (by simp) (Ne.symm hdest) hsource.symm
      · have hpass : passClose i j = (i, j) := by
          simp only [passClose, hdest, hsource, and_false, if_false]
        rw [passedAlong, hpass]
        dsimp only
        cases hp : passedAlong i rest with
        | mk i' rest' =>
        rw [hp] at ih
        cases ih with
        | dropped h =>
          refine .dropped (h.imp_right ?_)
          intro ⟨d, hd, heq⟩
          exact ⟨d, List.mem_cons_of_mem _ hd, heq⟩
        | kept _ h =>
          exact .kept hclose (List.forall_mem_cons.mpr ⟨⟨Ne.symm hdest, Ne.symm hsource⟩, h⟩)
        | @passed pre post k _ hrest hpre hd hs =>
          exact @Passed.passed i _ (j :: pre) post k hclose (by rw [hrest, List.cons_append])
            (List.forall_mem_cons.mpr ⟨Ne.symm hdest, hpre⟩) hd hs

namespace InjectionArc

/-- Where an arc begins and ends. -/
def ends (i : InjectionArc) : ℤ × ℤ := (i.source, i.dest)

end InjectionArc

section Passed
variable {i : InjectionArc} {rest : List InjectionArc} {l : InjectionArc × List InjectionArc}

lemma Passed.ends_eq (h : Passed i rest l) :
    l.2.map InjectionArc.ends = rest.map InjectionArc.ends := by
  cases h with
  | dropped _ => rfl
  | kept _ _ => rfl
  | passed _ hrest _ _ _ =>
    rw [hrest]
    simp [InjectionArc.ends]

lemma Passed.first_ends (h : Passed i rest l) : l.1.source = i.source ∧ l.1.dest = i.dest := by
  cases h <;> exact ⟨rfl, rfl⟩

/-- Whoever closes a descriptor still does. -/
lemma Passed.exists_close (h : Passed i rest l) {fd : ℤ}
    (hclose : ∃ r ∈ rest, r.source = fd ∧ r.close = true) :
    ∃ r ∈ l.2, r.source = fd ∧ r.close = true := by
  cases h with
  | dropped _ => exact hclose
  | kept _ _ => exact hclose
  | @passed pre post j _ hrest _ _ _ =>
    obtain ⟨r, hr, hfd, hr'⟩ := hclose
    rw [hrest, List.mem_append, List.mem_cons] at hr
    obtain hr | rfl | hr := hr
    · exact ⟨r, by simp [hr], hfd, hr'⟩
    · exact ⟨{ r with close := true }, by simp, hfd, rfl⟩
    · exact ⟨r, by simp [hr], hfd, hr'⟩

/-- Unless its source is a later destination, `i` closes it or passes that on. -/
lemma Passed.close_or_exists (h : Passed i rest l) (hclose : i.close = true)
    (hdest : ∀ d ∈ rest, d.dest ≠ i.source) :
    l.1.close = true ∨ ∃ r ∈ l.2, r.source = i.source ∧ r.close = true := by
  cases h with
  | dropped h =>
    obtain h | ⟨d, hd, heq⟩ := h
    · rw [h] at hclose
      cases hclose
    · exact absurd heq (hdest d hd)
  | kept _ _ => exact .inl hclose
  | @passed pre post j _ _ _ _ hsource =>
    exact .inr ⟨{ j with close := true }, by simp, hsource, rfl⟩

/-- An arc that closes did so before, or has it from `i`. -/
lemma Passed.close_cases (h : Passed i rest l) {r : InjectionArc} (hr : r ∈ l.2)
    (hclose : r.close = true) :
    r ∈ rest ∨ i.close = true ∧ r.source = i.source ∧ ∃ j ∈ rest, j.source = i.source := by
  cases h with
  | dropped _ => exact .inl hr
  | kept _ _ => exact .inl hr
  | @passed pre post j hi hrest _ _ hsource =>
    rw [List.mem_append, List.mem_cons] at hr
    obtain hr | rfl | hr := hr
    · exact .inl (by simp [hrest, hr])
    · exact .inr ⟨hi, hsource, j, by simp [hrest], hsource⟩
    · exact .inl (by simp [hrest, hr])

/-- When `i` closes its source, no later arc has to do with it. -/
lemma Passed.of_close (h : Passed i rest l) (hclose : l.1.close = true) :
    i.close = true ∧ ∀ d ∈ rest, d.dest ≠ i.source ∧ d.source ≠ i.source := by
  cases h with
  | dropped _ => cases hclose
  | kept hi h => exact ⟨hi, h⟩
  | passed _ _ _ _ _ => cases hclose

end Passed

end Chromium.FileDescriptorShuffle
