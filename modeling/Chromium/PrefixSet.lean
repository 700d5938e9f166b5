import Chromium.RunIndex

/-!
# The prefix set of safe browsing

Sorted prefixes are kept as runs of 16-bit deltas. A gap that does not fit in 16 bits or a run of
`kMaxRun` deltas starts a new run, and `index` holds the first prefix of each.
-/
namespace Chromium.SafeBrowsing

open RunIndex

/-- An `int32`, kept as an integer in this range. -/
abbrev SBPrefix := ℤ

def IsInt32 (n : ℤ) : Prop := -2 ^ 31 ≤ n ∧ n < 2 ^ 31

instance (n : ℤ) : Decidable (IsInt32 n) := inferInstanceAs (Decidable (_ ∧ _))

def toInt32 (n : ℤ) : ℤ := (n + 2 ^ 31) % 2 ^ 32 - 2 ^ 31

def toUnsigned (n : ℤ) : ℕ := (n % 2 ^ 32).toNat

def kMaxRun : ℕ := 100

structure PrefixSet where
  index : List (SBPrefix × ℕ)
  deltas : List ℕ
  deriving DecidableEq, Repr

/-! ### The constructor -/

/-- The variables of the constructor's loop. -/
structure Encoder where
  set : PrefixSet
  prevPrefix : SBPrefix
  runLength : ℕ

def Encoder.add (s : Encoder) (p : SBPrefix) : Encoder :=
  if p = s.prevPrefix then s
  else
    let delta := toUnsigned (p - s.prevPrefix)
    let delta16 := delta % 2 ^ 16
    if delta ≠ delta16 ∨ s.runLength ≥ kMaxRun then
      { set := { s.set with index := s.set.index ++ [(p, s.set.deltas.length)] }
        prevPrefix := p
        runLength := 0 }
    else
      { set := { s.set with deltas := s.set.deltas ++ [delta16] }
        prevPrefix := p
        runLength := s.runLength + 1 }

def PrefixSet.new : List SBPrefix → PrefixSet
  | [] => ⟨[], []⟩
  | p :: sortedPrefixes =>
    (sortedPrefixes.foldl Encoder.add
      { set := ⟨[(p, 0)], []⟩, prevPrefix := p, runLength := 0 }).set

/-! ### Reading -/

/-- `std::upper_bound` with `PrefixLess`: the first position behind `p`. -/
def upperBound (index : List (SBPrefix × ℕ)) (p : SBPrefix) : ℕ :=
  index.findIdx fun entry => decide (p < entry.1)

/-- The loop of `Exists`, as long as a match is possible. -/
def scanForward (p : SBPrefix) : SBPrefix → List ℕ → SBPrefix
  | current, [] => current
  | current, delta :: deltas =>
    if current < p then scanForward p (toInt32 (current + delta)) deltas else current

/-- `Exists` -/
def PrefixSet.prefixExists (s : PrefixSet) (p : SBPrefix) : Bool :=
  let iter := upperBound s.index p
  if iter = 0 then false
  else
    let bound := firstOffset s.deltas.length (s.index.drop iter)
    match s.index[iter - 1]? with
    | none => false
    | some (current, start) =>
      if current = p then true
      else scanForward p current (s.deltas.extract start bound) = p

/-- The prefixes of one run. -/
def runPrefixes : SBPrefix → List ℕ → List SBPrefix
  | current, [] => [current]
  | current, delta :: deltas => current :: runPrefixes (toInt32 (current + delta)) deltas

def getRuns (deltas : List ℕ) : List (SBPrefix × ℕ) → List SBPrefix
  | [] => []
  | (current, start) :: index =>
    runPrefixes current (deltas.extract start (firstOffset deltas.length index)) ++
      getRuns deltas index

def PrefixSet.getPrefixes (s : PrefixSet) : List SBPrefix := getRuns s.deltas s.index

/-! ### Runs -/

/-- The prefixes of all runs. -/
def expand (runs : List (SBPrefix × List ℕ)) : List SBPrefix :=
  runs.flatMap fun run => runPrefixes run.1 run.2

@[simp]
lemma expand_nil : expand [] = [] := rfl

@[simp]
lemma expand_cons (run : SBPrefix × List ℕ) (runs : List (SBPrefix × List ℕ)) :
    expand (run :: runs) = runPrefixes run.1 run.2 ++ expand runs := by simp [expand]

@[simp]
lemma expand_append (xs ys : List (SBPrefix × List ℕ)) :
    expand (xs ++ ys) = expand xs ++ expand ys := by simp [expand]

/-- The set holds these runs. -/
structure Encodes (s : PrefixSet) (runs : List (SBPrefix × List ℕ)) : Prop where
  index_eq : s.index = offsets 0 runs
  deltas_eq : s.deltas = items runs

lemma mem_runPrefixes (current : SBPrefix) (deltas : List ℕ) :
    current ∈ runPrefixes current deltas := by
  cases deltas <;> simp [runPrefixes]

lemma runPrefixes_append (current : SBPrefix) (deltas : List ℕ) (delta : ℕ) {last : SBPrefix}
    (hlast : (runPrefixes current deltas).getLast? = some last) :
    runPrefixes current (deltas ++ [delta]) =
      runPrefixes current deltas ++ [toInt32 (last + delta)] := by
  induction deltas generalizing current with
  | nil =>
    simp only [runPrefixes, List.getLast?_singleton, Option.some.injEq] at hlast
    subst hlast
    rfl
  | cons d deltas ih =>
    have hne : runPrefixes (toInt32 (current + d)) deltas ≠ [] :=
      List.ne_nil_of_mem (mem_runPrefixes _ _)
    have htail : (runPrefixes (toInt32 (current + d)) deltas).getLast? = some last := by
      rw [runPrefixes, List.getLast?_cons_of_ne_nil hne] at hlast
      exact hlast
    rw [List.cons_append, runPrefixes, ih _ htail, runPrefixes, List.cons_append]

/-- What stands in front only moves the offsets. -/
lemma getRuns_offsets (front : List ℕ) (runs : List (SBPrefix × List ℕ)) :
    getRuns (front ++ items runs) (offsets front.length runs) = expand runs := by
  induction runs generalizing front with
  | nil => rfl
  | cons run runs ih =>
    have hnext := firstOffset_offsets (front ++ run.2).length runs
    have htail := ih (front ++ run.2)
    have hlength : (front ++ items (run :: runs)).length =
        (front ++ run.2).length + (items runs).length := by
      simp only [items_cons, List.length_append]
      omega
    rw [List.length_append] at hnext htail
    rw [List.append_assoc] at htail
    rw [offsets, getRuns, hlength, List.length_append, hnext, items_cons, extract_run, htail,
      expand_cons]

lemma Encodes.getPrefixes {s : PrefixSet} {runs : List (SBPrefix × List ℕ)} (h : Encodes s runs) :
    s.getPrefixes = expand runs := by
  rw [PrefixSet.getPrefixes, h.index_eq, h.deltas_eq]
  exact getRuns_offsets [] runs

/-! ### Lookup -/

/-- The scan ends at the prefix exactly when the run has it. -/
lemma scanForward_eq_iff (p current : SBPrefix) (deltas : List ℕ)
    (hsorted : (runPrefixes current deltas).Pairwise (· < ·)) :
    scanForward p current deltas = p ↔ p ∈ runPrefixes current deltas := by
  induction deltas generalizing current with
  | nil => simp [scanForward, runPrefixes, eq_comm]
  | cons delta deltas ih =>
    rw [runPrefixes, List.pairwise_cons] at hsorted
    rw [scanForward, runPrefixes, List.mem_cons]
    split_ifs with hlt
    · rw [ih _ hsorted.2]
      constructor
      · exact .inr
      · rintro (heq | hmem)
        · exact absurd heq hlt.ne'
        · exact hmem
    · constructor
      · intro heq
        exact .inl heq.symm
      · rintro (heq | hmem)
        · exact heq.symm
        · exact absurd (hsorted.1 p hmem) hlt

/-- The runs that begin at or before `p`, and those behind it. -/
lemma upperBound_split (p : SBPrefix) (start : ℕ) (runs : List (SBPrefix × List ℕ)) :
    ∃ front back, runs = front ++ back ∧ upperBound (offsets start runs) p = front.length ∧
      (∀ run ∈ front, run.1 ≤ p) ∧ ∀ run ∈ back.head?, p < run.1 := by
  induction runs generalizing start with
  | nil => exact ⟨[], [], rfl, rfl, by simp, by simp⟩
  | cons run runs ih =>
    by_cases hlt : p < run.1
    · refine ⟨[], run :: runs, rfl, ?_, by simp, by simpa using hlt⟩
      simp [upperBound, offsets, List.findIdx_cons, hlt]
    · obtain ⟨front, back, rfl, hbound, hfront, hback⟩ := ih (start + run.2.length)
      refine ⟨run :: front, back, rfl, ?_, ?_, hback⟩
      · rw [upperBound] at hbound
        simp [upperBound, offsets, List.findIdx_cons, hlt, hbound]
      · intro r hr
        cases hr with
        | head => exact not_lt.mp hlt
        | tail _ hr => exact hfront r hr

/-- All prefixes of the runs behind `p` are behind it. -/
lemma lt_of_mem_back {p x : SBPrefix} {back : List (SBPrefix × List ℕ)}
    (hsorted : (expand back).Pairwise (· < ·)) (hback : ∀ run ∈ back.head?, p < run.1)
    (hx : x ∈ expand back) : p < x := by
  cases back with
  | nil => simp at hx
  | cons run runs =>
    have hfirst : p < run.1 := hback run rfl
    obtain ⟨current, deltas⟩ := run
    have hhead : ∃ rest, expand ((current, deltas) :: runs) = current :: rest := by
      cases deltas with
      | nil => exact ⟨_, rfl⟩
      | cons d deltas => exact ⟨_, rfl⟩
    obtain ⟨rest, hrest⟩ := hhead
    rw [hrest] at hsorted hx
    cases hx with
    | head => exact hfirst
    | tail _ hx => exact hfirst.trans ((List.pairwise_cons.mp hsorted).1 x hx)

lemma Encodes.prefixExists_iff {s : PrefixSet} {runs : List (SBPrefix × List ℕ)}
    (h : Encodes s runs) (hsorted : (expand runs).Pairwise (· < ·)) (p : SBPrefix) :
    s.prefixExists p = true ↔ p ∈ expand runs := by
  obtain ⟨front, back, rfl, hbound, hfront, hback⟩ := upperBound_split p 0 runs
  rw [expand_append] at hsorted ⊢
  obtain ⟨hsortedFront, hsortedBack, hbetween⟩ := List.pairwise_append.mp hsorted
  have hnotBack : p ∉ expand back := fun hmem =>
    (lt_of_mem_back hsortedBack hback hmem).false
  rw [List.mem_append, or_iff_left hnotBack]
  cases List.eq_nil_or_concat' front with
  | inl hnil =>
    subst hnil
    rw [PrefixSet.prefixExists, h.index_eq, hbound]
    simp
  | inr hconcat =>
    obtain ⟨init, ⟨current, deltas⟩, rfl⟩ := hconcat
    rw [expand_append, expand_cons, expand_nil, List.append_nil] at hsortedFront ⊢
    obtain ⟨-, hsortedRun, hbefore⟩ := List.pairwise_append.mp hsortedFront
    have hle : current ≤ p := hfront (current, deltas) (by simp)
    have hnotInit : p ∉ expand init := fun hmem =>
      absurd (hbefore p hmem current (mem_runPrefixes _ _)) (not_lt.mpr hle)
    rw [List.mem_append, or_iff_right hnotInit, ← scanForward_eq_iff p current deltas hsortedRun]
    rw [List.append_assoc, List.singleton_append] at h hbound
    have hitems : items (init ++ (current, deltas) :: back) =
        items init ++ (deltas ++ items back) := by simp
    have hlength : (items init ++ (deltas ++ items back)).length =
        (items init).length + deltas.length + (items back).length := by
      simp only [List.length_append]
      omega
    have hstop := firstOffset_offsets ((items init).length + deltas.length) back
    rw [PrefixSet.prefixExists, h.index_eq, h.deltas_eq, hbound, List.length_append,
      List.length_singleton, Nat.add_sub_cancel, getElem?_offsets, drop_offsets, hitems, hlength,
      zero_add]
    simp only [hstop, extract_run, Nat.add_eq_zero_iff, one_ne_zero, and_false, if_false]
    split_ifs with heq
    · subst heq
      have hscan := (scanForward_eq_iff current current deltas hsortedRun).mpr
        (mem_runPrefixes _ _)
      exact iff_of_true rfl hscan
    · exact decide_eq_true_iff

/-! ### The loop of the constructor -/

/-- What the loop has built from the prefixes `seen`; `run` is the one that is not finished. -/
structure Encoder.Builds (s : Encoder) (front : List (SBPrefix × List ℕ))
    (run : SBPrefix × List ℕ) (seen : List SBPrefix) : Prop where
  encodes : Encodes s.set (front ++ [run])
  sorted : (expand (front ++ [run])).Pairwise (· < ·)
  last : (runPrefixes run.1 run.2).getLast? = some s.prevPrefix
  mem_iff : ∀ x, x ∈ expand (front ++ [run]) ↔ x ∈ seen

/-- A delta that fits leads back to the prefix it was made for. -/
lemma toInt32_delta {p last : ℤ} (hp : IsInt32 p)
    (hfits : toUnsigned (p - last) = toUnsigned (p - last) % 2 ^ 16) :
    toInt32 (last + (toUnsigned (p - last) % 2 ^ 16 : ℕ)) = p := by
  rw [← hfits]
  obtain ⟨hlow, hhigh⟩ := hp
  unfold toInt32 toUnsigned
  omega

/-- The last prefix is the greatest one. -/
lemma Encoder.Builds.le_last {s : Encoder} {front : List (SBPrefix × List ℕ)}
    {run : SBPrefix × List ℕ} {seen : List SBPrefix} (h : s.Builds front run seen) :
    s.prevPrefix ∈ seen ∧ ∀ x ∈ seen, x ≤ s.prevPrefix := by
  obtain ⟨init, hinit⟩ := List.getLast?_eq_some_iff.mp h.last
  have hexpand : expand (front ++ [run]) = expand front ++ init ++ [s.prevPrefix] := by
    simp [hinit]
  have hmem := h.mem_iff
  have hsorted := h.sorted
  rw [hexpand] at hmem hsorted
  refine ⟨(hmem _).mp (by simp), ?_⟩
  intro x hx
  cases List.mem_append.mp ((hmem x).mpr hx) with
  | inl hx =>
    have hlt := (List.pairwise_append.mp hsorted).2.2 x hx s.prevPrefix (by simp)
    exact hlt.le
  | inr hx => exact (List.mem_singleton.mp hx).le

/-- A greater prefix goes to the end. -/
lemma expand_extended {E seen : List SBPrefix} {last p : SBPrefix}
    (hsorted : E.Pairwise (· < ·)) (hmem : ∀ x, x ∈ E ↔ x ∈ seen)
    (hle : ∀ x ∈ seen, x ≤ last) (hlt : last < p) :
    (E ++ [p]).Pairwise (· < ·) ∧ ∀ x, x ∈ E ++ [p] ↔ x ∈ seen ++ [p] := by
  constructor
  · rw [List.pairwise_append]
    refine ⟨hsorted, List.pairwise_singleton _ _, ?_⟩
    intro x hx y hy
    rw [List.mem_singleton.mp hy]
    exact lt_of_le_of_lt (hle x ((hmem x).mp hx)) hlt
  · intro x
    rw [List.mem_append, List.mem_append, hmem]

/-- One step of the loop. -/
lemma Encoder.Builds.add {s : Encoder} {front : List (SBPrefix × List ℕ)}
    {run : SBPrefix × List ℕ} {seen : List SBPrefix} (h : s.Builds front run seen) {p : SBPrefix}
    (hp : IsInt32 p) (hge : ∀ x ∈ seen, x ≤ p) :
    ∃ front' run', (s.add p).Builds front' run' (seen ++ [p]) := by
  obtain ⟨hlast, hle⟩ := h.le_last
  rw [Encoder.add]
  split_ifs with hsame
  · refine ⟨front, run, h.encodes, h.sorted, h.last, ?_⟩
    intro x
    rw [h.mem_iff, List.mem_append, List.mem_singleton, or_iff_left_of_imp]
    intro heq
    rw [heq, hsame]
    exact hlast
  have hlt : s.prevPrefix < p := lt_of_le_of_ne (hge _ hlast) (Ne.symm hsame)
  have hextended := expand_extended h.sorted h.mem_iff hle hlt
  dsimp only
  split_ifs with hbreak
  · -- a new run
    have hexpand : expand ((front ++ [run]) ++ [(p, [])]) = expand (front ++ [run]) ++ [p] := by
      rw [expand_append]
      rfl
    refine ⟨front ++ [run], (p, []), ⟨?_, ?_⟩, ?_, rfl, ?_⟩
    · rw [offsets_append 0 (front ++ [run]), ← h.encodes.index_eq, ← h.encodes.deltas_eq, zero_add]
      rfl
    · rw [items_append, ← h.encodes.deltas_eq]
      simp
    · rw [hexpand]
      exact hextended.1
    · rw [hexpand]
      exact hextended.2
  · -- the run goes on
    obtain ⟨first, deltas⟩ := run
    have hfits := not_not.mp (not_or.mp hbreak).1
    have hrun : runPrefixes first (deltas ++ [toUnsigned (p - s.prevPrefix) % 2 ^ 16]) =
        runPrefixes first deltas ++ [p] := by
      rw [runPrefixes_append first deltas _ h.last, toInt32_delta hp hfits]
    have hexpand : expand (front ++
        [(first, deltas ++ [toUnsigned (p - s.prevPrefix) % 2 ^ 16])]) =
          expand (front ++ [(first, deltas)]) ++ [p] := by
      rw [expand_append, expand_append, expand_cons, expand_cons, hrun]
      simp
    refine ⟨front, (first, deltas ++ [toUnsigned (p - s.prevPrefix) % 2 ^ 16]), ⟨?_, ?_⟩,
      ?_, ?_, ?_⟩
    · rw [h.encodes.index_eq, offsets_append, offsets_append]
      rfl
    · rw [h.encodes.deltas_eq]
      simp
    · rw [hexpand]
      exact hextended.1
    · rw [hrun]
      simp
    · rw [hexpand]
      exact hextended.2

/-- The whole loop. -/
lemma Encoder.Builds.foldl {s : Encoder} {front : List (SBPrefix × List ℕ)}
    {run : SBPrefix × List ℕ} {seen : List SBPrefix} (h : s.Builds front run seen)
    {prefixes : List SBPrefix} (hrange : ∀ p ∈ prefixes, IsInt32 p)
    (hsorted : (seen ++ prefixes).Pairwise (· ≤ ·)) :
    ∃ front' run', (prefixes.foldl Encoder.add s).Builds front' run' (seen ++ prefixes) := by
  induction prefixes generalizing s front run seen with
  | nil => exact ⟨front, run, by simpa using h⟩
  | cons p prefixes ih =>
    have hge : ∀ x ∈ seen, x ≤ p := fun x hx =>
      (List.pairwise_append.mp hsorted).2.2 x hx p List.mem_cons_self
    obtain ⟨front', run', hadded⟩ := h.add (hrange p List.mem_cons_self) hge
    rw [List.append_cons] at hsorted ⊢
    exact ih hadded (fun x hx => hrange x (List.mem_cons_of_mem _ hx)) hsorted

/-- The constructor keeps every prefix of the vector once, in order. -/
lemma new_encodes {prefixes : List SBPrefix} (hrange : ∀ p ∈ prefixes, IsInt32 p)
    (hsorted : prefixes.Pairwise (· ≤ ·)) :
    ∃ runs, Encodes (PrefixSet.new prefixes) runs ∧ (expand runs).Pairwise (· < ·) ∧
      ∀ x, x ∈ expand runs ↔ x ∈ prefixes := by
  cases prefixes with
  | nil => exact ⟨[], ⟨rfl, rfl⟩, List.Pairwise.nil, fun x => Iff.rfl⟩
  | cons p prefixes =>
    have hfirst : (⟨⟨[(p, 0)], []⟩, p, 0⟩ : Encoder).Builds [] (p, []) [p] :=
      { encodes := ⟨rfl, rfl⟩
        sorted := List.pairwise_singleton _ _
        last := rfl
        mem_iff := fun x => Iff.rfl }
    obtain ⟨front, run, hbuilds⟩ := hfirst.foldl
      (fun x hx => hrange x (List.mem_cons_of_mem _ hx)) hsorted
    exact ⟨_, hbuilds.encodes, hbuilds.sorted, hbuilds.mem_iff⟩

/-- The set is the vector it was made from: `Exists` finds what is in it, and `GetPrefixes` gives
it without the duplicates. -/
theorem prefixSet_new (prefixes : List SBPrefix) (hrange : ∀ p ∈ prefixes, IsInt32 p)
    (hsorted : prefixes.Pairwise (· ≤ ·)) :
    (∀ p, (PrefixSet.new prefixes).prefixExists p = true ↔ p ∈ prefixes) ∧
      (PrefixSet.new prefixes).getPrefixes = prefixes.dedup := by
  obtain ⟨runs, hencodes, hstrict, hmem⟩ := new_encodes hrange hsorted
  constructor
  · intro p
    rw [hencodes.prefixExists_iff hstrict, hmem]
  · have hnodup : (expand runs).Nodup := hstrict.imp fun h => h.ne
    have hperm : (expand runs).Perm prefixes.dedup := by
      rw [List.perm_ext_iff_of_nodup hnodup (List.nodup_dedup _)]
      intro x
      rw [hmem, List.mem_dedup]
    rw [hencodes.getPrefixes]
    exact hperm.eq_of_pairwise' (hstrict.imp fun h => h.le)
      (hsorted.sublist (List.dedup_sublist _))

/-- Both ends of the range and a duplicate. -/
theorem prefixSet_new_ends :
    (∀ p, (PrefixSet.new [-2147483648, 5, 5, 6, 2147483647]).prefixExists p = true ↔
        p ∈ [-2147483648, 5, 5, 6, 2147483647]) ∧
      (PrefixSet.new [-2147483648, 5, 5, 6, 2147483647]).getPrefixes =
        [-2147483648, 5, 5, 6, 2147483647].dedup :=
  prefixSet_new _ (by decide) (by decide)

end Chromium.SafeBrowsing
