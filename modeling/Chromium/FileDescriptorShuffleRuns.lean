import Chromium.FileDescriptorShuffle

/-!
# What a shuffle does

The arcs assign at once: every destination refers to what its source referred to at the start, and
what was to be closed is closed. It fails in two ways. A temporary may be a free descriptor that is
a later destination, and is closed at the end all the same. And an arc from a descriptor to itself
leaves its later arcs the descriptor as their source, and with it the closing of it.
-/
namespace Chromium.FileDescriptorShuffle

open Function

variable {φ : Type*}

/-- An arc from a descriptor to itself has an arc with the same source behind it, and one of them,
or of the arcs between, closes the source. -/
def ClosesIdentity : List InjectionArc → Prop
  | [] => False
  | d :: rest =>
    (d.source = d.dest ∧ (∃ r ∈ rest, r.source = d.source) ∧
      ∃ r ∈ d :: rest, r.source = d.source ∧ r.close = true) ∨ ClosesIdentity rest

/-! ### One round -/

/-- Before the move, the later arcs whose source is overwritten get a temporary. -/
inductive Prepared (i : InjectionArc) (rest : List InjectionArc) (s : Shuffle φ) :
    List InjectionArc → Shuffle φ → Prop
  | unneeded (h : i.source = i.dest ∨ ∀ j ∈ rest, j.source ≠ i.dest) : Prepared i rest s rest s
  | temporary {t : ℤ} {s' : Shuffle φ} (hi : i.source ≠ i.dest)
    (h : takeTemporary s i.dest = some (t, s')) :
    Prepared i rest s (rest.map (redirected i.dest t)) s'

/-- The move, and the closing of the source. -/
inductive Placed (i : InjectionArc) (close : Bool) (s : Shuffle φ) : Shuffle φ → Prop
  | identity (hi : i.source = i.dest) : Placed i close s s
  | moved {s' : Shuffle φ} (hi : i.source ≠ i.dest) (hopen : (s.delegate.table i.source).isSome)
    (htable : s'.delegate.table =
      if close then
        update (update s.delegate.table i.dest (s.delegate.table i.source)) i.source none
      else update s.delegate.table i.dest (s.delegate.table i.source))
    (htemporaries : s'.delegate.temporaries = s.delegate.temporaries)
    (hextra : s'.extra_fds = s.extra_fds) : Placed i close s s'

lemma isIdentity_iff (i : InjectionArc) : i.isIdentity = true ↔ i.source = i.dest :=
  decide_eq_true_iff

lemma innerLoop_cases {i : InjectionArc} {rest : List InjectionArc} {s : Shuffle φ}
    {l : InjectionArc × Shuffle φ × List InjectionArc} (h : innerLoop i (-1) s rest = some l) :
    ∃ mid, Prepared i rest s mid l.2.1 ∧ Passed i mid (l.1, l.2.2) := by
  by_cases hnone : i.isIdentity = true ∨ ∀ j ∈ rest, i.dest ≠ j.source
  · rw [innerLoop_of_none hnone] at h
    obtain rfl := Option.some_injective _ h
    refine ⟨rest, .unneeded ?_, passed_passedAlong i rest⟩
    exact hnone.imp (isIdentity_iff i).mp fun h j hj heq => h j hj heq.symm
  · push Not at hnone
    obtain ⟨hidentity, hexists⟩ := hnone
    have hi := Bool.eq_false_of_not_eq_true hidentity
    rw [innerLoop_of_exists hi hexists] at h
    obtain ⟨⟨t, s'⟩, htake, rfl⟩ := Option.map_eq_some_iff.mp h
    exact ⟨_, .temporary (fun heq => hidentity ((isIdentity_iff i).mpr heq)) htake,
      passed_passedAlong i _⟩

lemma round_cases {i : InjectionArc} {rest rest' : List InjectionArc} {s s' : Shuffle φ}
    (h : round i rest s = some (rest', s')) :
    ∃ mid s₁ last, Prepared i rest s mid s₁ ∧ Passed i mid (last, rest') ∧
      Placed i last.close s₁ s' := by
  obtain ⟨⟨last, s₁, rest₁⟩, hinner, h⟩ := Option.bind_eq_some_iff.mp h
  obtain ⟨mid, hprepared, hpassed⟩ := innerLoop_cases hinner
  obtain ⟨hsource, hdest⟩ := hpassed.first_ends
  dsimp only at h hsource hdest
  cases hidentity : last.isIdentity with
  | true =>
    rw [hidentity, if_pos rfl] at h
    obtain ⟨rfl, rfl⟩ := Prod.ext_iff.mp (Option.some_injective _ h)
    rw [isIdentity_iff, hsource, hdest] at hidentity
    exact ⟨mid, _, last, hprepared, hpassed, .identity hidentity⟩
  | false =>
    rw [hidentity, if_neg Bool.false_ne_true] at h
    obtain ⟨d, hmove, h⟩ := Option.map_eq_some_iff.mp h
    obtain ⟨rfl, rfl⟩ := Prod.ext_iff.mp h
    refine ⟨mid, s₁, last, hprepared, hpassed, ?_⟩
    have hne : i.source ≠ i.dest := by
      intro heq
      rw [← hsource, ← hdest, ← isIdentity_iff, hidentity] at heq
      cases heq
    rw [hsource, hdest, Delegate.move] at hmove
    cases hmoves : s₁.delegate.moves with
    | nil => simp [hmoves] at hmove
    | cons allowed moves =>
      rw [hmoves] at hmove
      cases allowed with
      | false => simp at hmove
      | true =>
        dsimp only at hmove
        split_ifs at hmove with hopen
        obtain rfl := Option.some_injective _ hmove
        refine .moved hne hopen ?_ ?_ rfl
        · cases last.close with
          | false => rfl
          | true => rw [if_pos rfl, if_pos rfl, Delegate.close, hsource]
        · cases last.close with
          | false => rfl
          | true => rfl

/-! ### Arcs from a descriptor to itself -/

lemma redirected_of_ne {dest t : ℤ} {r : InjectionArc} (h : r.source ≠ dest) :
    redirected dest t r = r := if_neg h.symm

lemma redirected_dest (dest t : ℤ) (r : InjectionArc) : (redirected dest t r).dest = r.dest := by
  rw [redirected]
  split_ifs <;> rfl

/-- An arc that has got the temporary does not close it. -/
lemma redirected_cases (dest t : ℤ) (r : InjectionArc) :
    r.source = dest ∧ (redirected dest t r).source = t ∧ (redirected dest t r).close = false ∨
      r.source ≠ dest ∧ redirected dest t r = r := by
  by_cases h : r.source = dest
  · rw [redirected, if_pos h.symm]
    exact .inl ⟨h, rfl, rfl⟩
  · exact .inr ⟨h, redirected_of_ne h⟩

lemma ClosesIdentity.redirected {dest t : ℤ} {rest : List InjectionArc} (h : ClosesIdentity rest)
    (hdest : ∀ d ∈ rest, d.dest ≠ dest) : ClosesIdentity (rest.map (redirected dest t)) := by
  induction rest with
  | nil => exact h
  | cons d rest ih =>
    obtain ⟨hd, hrest⟩ := List.forall_mem_cons.mp hdest
    obtain ⟨hidentity, ⟨r, hr, hsource⟩, r', hr', hsource', hclose⟩ | h := h
    · have hne : d.source ≠ dest := by rwa [hidentity]
      refine .inl ?_
      rw [redirected_of_ne hne]
      refine ⟨hidentity, ⟨r, List.mem_map.mpr ⟨r, hr, redirected_of_ne ?_⟩, hsource⟩, r', ?_,
        hsource', hclose⟩
      · rwa [hsource]
      obtain rfl | hr' := List.mem_cons.mp hr'
      · exact List.mem_cons_self
      · refine List.mem_cons_of_mem _ (List.mem_map.mpr ⟨r', hr', redirected_of_ne ?_⟩)
        rwa [hsource']
    · exact .inr (ih h hrest)

lemma closesIdentity_of_redirected {dest t : ℤ} {rest : List InjectionArc}
    (h : ClosesIdentity (rest.map (redirected dest t))) (ht : ∀ r ∈ rest, r.source ≠ t) :
    ClosesIdentity rest := by
  induction rest with
  | nil => exact h
  | cons d rest ih =>
    obtain ⟨hd, hrest⟩ := List.forall_mem_cons.mp ht
    obtain ⟨hidentity, ⟨r, hr, hsource⟩, r', hr', hsource', hclose⟩ | h := h
    · rw [← List.map_cons] at hr'
      obtain ⟨q', hq', rfl⟩ := List.mem_map.mp hr'
      obtain ⟨q, hq, rfl⟩ := List.mem_map.mp hr
      obtain ⟨-, -, hopen⟩ | ⟨-, heq'⟩ := redirected_cases dest t q'
      · rw [hopen] at hclose
        cases hclose
      rw [heq'] at hsource' hclose
      obtain ⟨-, ht', -⟩ | ⟨-, heqd⟩ := redirected_cases dest t d
      · -- nobody closes the temporary
        rw [ht'] at hsource'
        exact absurd hsource' (ht q' hq')
      rw [heqd] at hidentity hsource hsource'
      obtain ⟨-, htq, -⟩ | ⟨-, heq⟩ := redirected_cases dest t q
      · rw [htq] at hsource
        exact absurd hsource.symm hd
      rw [heq] at hsource
      exact .inl ⟨hidentity, ⟨q, hq, hsource⟩, q', hq', hsource', hclose⟩
    · exact .inr (ih h hrest)

/-- An arc that closes another descriptor than an identity's has no part in it. -/
lemma closesIdentity_replace {fd : ℤ} {j j' : InjectionArc} (hj : j.source = fd)
    (hdest : j.dest ≠ fd) {pre post : List InjectionArc} (hpre : ∀ d ∈ pre, d.dest ≠ fd)
    (h : ClosesIdentity (pre ++ j :: post)) : ClosesIdentity (pre ++ j' :: post) := by
  induction pre with
  | nil =>
    obtain ⟨hidentity, -⟩ | h := h
    · exact absurd (hidentity.symm.trans hj) hdest
    · exact .inr h
  | cons d pre ih =>
    obtain ⟨hd, hrest⟩ := List.forall_mem_cons.mp hpre
    obtain ⟨hidentity, ⟨r, hr, hsource⟩, r', hr', hsource', hclose⟩ | h := h
    · have hne : ∀ q : InjectionArc, q.source = d.source → q ≠ j := by
        rintro q hq rfl
        exact hd (hidentity ▸ hq ▸ hj)
      have hmem : ∀ q ∈ pre ++ j :: post, q.source = d.source → q ∈ pre ++ j' :: post := by
        intro q hq hqs
        simp only [List.mem_append, List.mem_cons] at hq ⊢
        exact hq.imp_right fun hq => .inr (hq.resolve_left (hne q hqs))
      refine .inl ⟨hidentity, ⟨r, hmem r hr hsource, hsource⟩, r', ?_, hsource', hclose⟩
      obtain rfl | hr' := List.mem_cons.mp hr'
      · exact List.mem_cons_self
      · exact List.mem_cons_of_mem _ (hmem r' hr' hsource')
    · exact .inr (ih hrest h)

lemma Passed.closesIdentity_iff {i : InjectionArc} {rest : List InjectionArc}
    {l : InjectionArc × List InjectionArc} (h : Passed i rest l) :
    ClosesIdentity l.2 ↔ ClosesIdentity rest := by
  cases h with
  | dropped _ => exact Iff.rfl
  | kept _ _ => exact Iff.rfl
  | @passed pre post j _ hrest hpre hdest hsource =>
    rw [hrest]
    constructor
    · intro h
      exact closesIdentity_replace (j := { j with close := true }) hsource hdest hpre h
    · intro h
      exact closesIdentity_replace hsource hdest hpre h

/-! ### The table in one round -/

/-- What each destination is still to refer to. -/
def Shuffle.targets (s : Shuffle φ) (rs : List InjectionArc) : List (ℤ × Option φ) :=
  rs.map fun r => (r.dest, s.delegate.table r.source)

section Prepared
variable {i : InjectionArc} {rest mid : List InjectionArc} {s s' : Shuffle φ}

/-- A temporary takes an unused place in the table. -/
lemma Prepared.table_eq (h : Prepared i rest s mid s') :
    ∃ ts, s'.delegate.temporaries = s.delegate.temporaries ++ ts ∧
      (∀ t ∈ ts, s.delegate.table t = none) ∧
      ∀ fd ∉ ts, s'.delegate.table fd = s.delegate.table fd := by
  cases h with
  | unneeded _ => exact ⟨[], (List.append_nil _).symm, by simp, fun fd _ => rfl⟩
  | @temporary t s' _ h =>
    obtain ⟨-, hfree, -, htable, htemporaries, -⟩ := takeTemporary_some h
    refine ⟨[t], htemporaries, by simpa using hfree, ?_⟩
    intro fd hfd
    rw [htable, update_of_ne (by simpa using hfd)]

/-- What is open stays as it is. -/
lemma Prepared.table_of_open (h : Prepared i rest s mid s') {fd : ℤ}
    (hfd : (s.delegate.table fd).isSome) : s'.delegate.table fd = s.delegate.table fd := by
  obtain ⟨ts, -, hfree, hrest⟩ := h.table_eq
  apply hrest
  intro hmem
  rw [hfree fd hmem] at hfd
  cases hfd

lemma Prepared.targets_eq (h : Prepared i rest s mid s')
    (hopen : ∀ r ∈ rest, (s.delegate.table r.source).isSome) :
    s'.targets mid = s.targets rest := by
  have hstay := fun fd => @Prepared.table_of_open φ i rest mid s s' h fd
  cases h with
  | unneeded _ => rfl
  | @temporary t s' _ h =>
    rw [Shuffle.targets, Shuffle.targets, List.map_map]
    apply List.map_congr_left
    intro r hr
    obtain ⟨hdest, ht, -⟩ | ⟨-, heq⟩ := redirected_cases i.dest t r
    · obtain ⟨-, -, -, htable, -⟩ := takeTemporary_some h
      rw [Function.comp_apply, redirected_dest, ht, htable, update_self, hdest]
    · rw [Function.comp_apply, heq, hstay _ (hopen r hr)]

lemma Prepared.dest_eq (h : Prepared i rest s mid s') :
    mid.map InjectionArc.dest = rest.map InjectionArc.dest := by
  cases h with
  | unneeded _ => rfl
  | temporary _ _ => simp [redirected_dest]

/-- After that the destination is the source of no later arc. -/
lemma Prepared.source_ne (h : Prepared i rest s mid s') (hi : i.source ≠ i.dest) :
    ∀ r ∈ mid, r.source ≠ i.dest := by
  cases h with
  | unneeded h => exact h.resolve_left hi
  | @temporary t s' _ h =>
    obtain ⟨-, hfree, hopen, -⟩ := takeTemporary_some h
    intro r' hr'
    obtain ⟨r, -, rfl⟩ := List.mem_map.mp hr'
    obtain ⟨-, ht, -⟩ | ⟨hne, heq⟩ := redirected_cases i.dest t r
    · rw [ht]
      rintro rfl
      rw [hfree] at hopen
      cases hopen
    · rwa [heq]

lemma Prepared.eq_of_identity (h : Prepared i rest s mid s') (hi : i.source = i.dest) :
    mid = rest := by
  cases h with
  | unneeded _ => rfl
  | temporary hne _ => exact absurd hi hne

lemma Prepared.mem_of_close (h : Prepared i rest s mid s') {r : InjectionArc} (hr : r ∈ mid)
    (hclose : r.close = true) : r ∈ rest := by
  cases h with
  | unneeded _ => exact hr
  | @temporary t s' _ _ =>
    obtain ⟨q, hq, rfl⟩ := List.mem_map.mp hr
    obtain ⟨-, -, hopen⟩ | ⟨-, heq⟩ := redirected_cases i.dest t q
    · rw [hopen] at hclose
      cases hclose
    · rwa [heq]

lemma Prepared.mem_of_ne (h : Prepared i rest s mid s') {r : InjectionArc} (hr : r ∈ rest)
    (hne : r.source ≠ i.dest) : r ∈ mid := by
  cases h with
  | unneeded _ => exact hr
  | temporary _ _ => exact List.mem_map.mpr ⟨r, hr, redirected_of_ne hne⟩

lemma Prepared.closesIdentity_iff (h : Prepared i rest s mid s')
    (hdest : ∀ d ∈ rest, d.dest ≠ i.dest)
    (hopen : ∀ r ∈ rest, (s.delegate.table r.source).isSome) :
    ClosesIdentity mid ↔ ClosesIdentity rest := by
  cases h with
  | unneeded _ => exact Iff.rfl
  | @temporary t s' _ h =>
    obtain ⟨-, hfree, -⟩ := takeTemporary_some h
    refine ⟨fun h => closesIdentity_of_redirected h ?_, fun h => h.redirected hdest⟩
    intro r hr heq
    have hr := hopen r hr
    rw [heq, hfree] at hr
    cases hr

end Prepared

section Placed
variable {i : InjectionArc} {close : Bool} {s s' : Shuffle φ}

lemma Placed.temporaries_eq (h : Placed i close s s') :
    s'.delegate.temporaries = s.delegate.temporaries := by
  cases h with
  | identity _ => rfl
  | moved _ _ _ h _ => exact h

lemma Placed.table_dest (h : Placed i close s s') :
    s'.delegate.table i.dest = s.delegate.table i.source := by
  cases h with
  | identity hi => rw [hi]
  | moved hi _ htable _ _ =>
    rw [htable]
    cases close with
    | false => rw [if_neg Bool.false_ne_true, update_self]
    | true => rw [if_pos rfl, update_of_ne (Ne.symm hi), update_self]

lemma Placed.table_of_ne (h : Placed i close s s') {fd : ℤ} (hdest : fd ≠ i.dest)
    (hsource : close = true → fd ≠ i.source) :
    s'.delegate.table fd = s.delegate.table fd := by
  cases h with
  | identity _ => rfl
  | moved _ _ htable _ _ =>
    rw [htable]
    cases close with
    | false => rw [if_neg Bool.false_ne_true, update_of_ne hdest]
    | true => rw [if_pos rfl, update_of_ne (hsource rfl), update_of_ne hdest]

lemma Placed.table_source (h : Placed i true s s') (hi : i.source ≠ i.dest) :
    s'.delegate.table i.source = none := by
  cases h with
  | identity h => exact absurd h hi
  | moved _ _ htable _ _ => rw [htable, if_pos rfl, update_self]

/-- No descriptor but the destination is opened. -/
lemma Placed.table_none (h : Placed i close s s') {fd : ℤ} (hdest : fd ≠ i.dest)
    (hnone : s.delegate.table fd = none) : s'.delegate.table fd = none := by
  cases h with
  | identity _ => exact hnone
  | moved _ _ htable _ _ =>
    rw [htable]
    cases close with
    | false => rwa [if_neg Bool.false_ne_true, update_of_ne hdest]
    | true =>
      rw [if_pos rfl]
      by_cases hfd : fd = i.source
      · rw [hfd, update_self]
      · rwa [update_of_ne hfd, update_of_ne hdest]

end Placed

/-! ### All rounds -/

/-- Some arc is to close the descriptor. -/
def Marked (m : List InjectionArc) (fd : ℤ) : Prop := ∃ a ∈ m, a.source = fd ∧ a.close = true

/-- What holds between two rounds, when the arcs `done` are done and `os` are not, and these have
become `rs`. -/
structure Inv (m : List InjectionArc) (table : ℤ → Option φ) (done os rs : List InjectionArc)
    (s : Shuffle φ) : Prop where
  arcs : m = done ++ os
  remaining : s.targets rs = os.map fun o => (o.dest, table o.source)
  placed : ∀ a ∈ done, s.delegate.table a.dest = table a.source
  closes : ∀ r ∈ rs, r.close = true →
    Marked m r.source ∧ r.source ∉ s.delegate.temporaries ∧ ∀ a ∈ done, a.dest ≠ r.source
  others : ∀ fd ∉ m.map InjectionArc.dest, fd ∉ s.delegate.temporaries →
    ((Marked m fd → ∃ r ∈ rs, r.source = fd ∧ r.close = true) ∧
      s.delegate.table fd = table fd) ∨ Marked m fd ∧ s.delegate.table fd = none
  temporaries : ∀ t ∈ s.delegate.temporaries, t ∉ m.map InjectionArc.dest →
    table t = none ∨ Marked m t
  identity : ¬ ClosesIdentity rs

section Step
variable {m done os rs rest rest' mid : List InjectionArc} {table : ℤ → Option φ}
  {s s₁ s' : Shuffle φ} {o i : InjectionArc} {l : InjectionArc × List InjectionArc}

lemma Inv.dest_eq (h : Inv m table done os rs s) :
    rs.map InjectionArc.dest = os.map InjectionArc.dest := by
  have hfst := congrArg (List.map Prod.fst) h.remaining
  simpa [Shuffle.targets, Function.comp_def] using hfst

/-- Every source that is still needed is open. -/
lemma Inv.isOpen (h : Inv m table done os rs s) (hopen : ∀ a ∈ m, (table a.source).isSome) :
    ∀ r ∈ rs, (s.delegate.table r.source).isSome := by
  intro r hr
  have hmem : (r.dest, s.delegate.table r.source) ∈ s.targets rs :=
    List.mem_map.mpr ⟨r, hr, rfl⟩
  rw [h.remaining] at hmem
  obtain ⟨o, ho, heq⟩ := List.mem_map.mp hmem
  have htable : table o.source = s.delegate.table r.source := congrArg Prod.snd heq
  rw [← htable]
  exact hopen o (by simp [h.arcs, ho])

lemma Passed.targets_eq (hpass : Passed i mid l) (s : Shuffle φ) :
    s.targets l.2 = s.targets mid := by
  have hends := congrArg (List.map fun e : ℤ × ℤ => (e.2, s.delegate.table e.1)) hpass.ends_eq
  simpa [Shuffle.targets, InjectionArc.ends, Function.comp_def] using hends

lemma Passed.exists_source (hpass : Passed i mid l) {r : InjectionArc} (hr : r ∈ l.2) :
    ∃ q ∈ mid, q.source = r.source ∧ q.dest = r.dest := by
  have hmem : r.ends ∈ l.2.map InjectionArc.ends := List.mem_map.mpr ⟨r, hr, rfl⟩
  rw [hpass.ends_eq] at hmem
  obtain ⟨q, hq, heq⟩ := List.mem_map.mp hmem
  exact ⟨q, hq, congrArg Prod.fst heq, congrArg Prod.snd heq⟩

variable (h : Inv m table done (o :: os) (i :: rest) s) (hnodup : (m.map InjectionArc.dest).Nodup)
  (hopen : ∀ a ∈ m, (table a.source).isSome) (hprepared : Prepared i rest s mid s₁)
  (hpassed : Passed i mid l) (hplaced : Placed i l.1.close s₁ s')

include h

lemma Inv.head : i.dest = o.dest ∧ s.delegate.table i.source = table o.source := by
  have hremaining := h.remaining
  rw [Shuffle.targets, List.map_cons, List.map_cons, List.cons.injEq] at hremaining
  exact ⟨congrArg Prod.fst hremaining.1, congrArg Prod.snd hremaining.1⟩

lemma Inv.tail : s.targets rest = os.map fun o => (o.dest, table o.source) := by
  have hremaining := h.remaining
  rw [Shuffle.targets, List.map_cons, List.map_cons, List.cons.injEq] at hremaining
  exact hremaining.2

lemma Inv.dest_mem : i.dest ∈ m.map InjectionArc.dest := by
  rw [h.head.1, h.arcs]
  simp

include hnodup in
/-- The destinations of the other arcs. -/
lemma Inv.dest_ne : (∀ a ∈ done, a.dest ≠ i.dest) ∧ ∀ d ∈ rest, d.dest ≠ i.dest := by
  have hnodup' := hnodup
  rw [h.arcs, List.map_append, ← h.dest_eq, List.map_cons, List.nodup_append,
    List.nodup_cons] at hnodup'
  obtain ⟨-, ⟨hrest, -⟩, hdone⟩ := hnodup'
  constructor
  · intro a ha
    exact hdone a.dest (List.mem_map.mpr ⟨a, ha, rfl⟩) i.dest List.mem_cons_self
  · intro d hd heq
    exact hrest (List.mem_map.mpr ⟨d, hd, heq⟩)

include hopen hprepared in
lemma Inv.table_source : s₁.delegate.table i.source = table o.source := by
  rw [hprepared.table_of_open (h.isOpen hopen i List.mem_cons_self), h.head.2]

include hopen hprepared hpassed hplaced in
lemma Inv.step_remaining : s'.targets l.2 = os.map fun o => (o.dest, table o.source) := by
  have hrest : ∀ r ∈ rest, (s.delegate.table r.source).isSome := fun r hr =>
    h.isOpen hopen r (List.mem_cons_of_mem _ hr)
  rw [← h.tail, ← hprepared.targets_eq hrest, ← hpassed.targets_eq s₁]
  apply List.map_congr_left
  intro r hr
  obtain ⟨q, hq, hsource, -⟩ := hpassed.exists_source hr
  by_cases hi : i.source = i.dest
  · cases hplaced with
    | identity _ => rfl
    | moved hne _ _ _ _ => exact absurd hi hne
  · rw [hplaced.table_of_ne (hsource ▸ hprepared.source_ne hi q hq)]
    intro hclose
    rw [← hsource]
    exact ((hpassed.of_close hclose).2 q hq).2

include hnodup hopen hprepared hpassed hplaced in
lemma Inv.step_placed : ∀ a ∈ done ++ [o], s'.delegate.table a.dest = table a.source := by
  intro a ha
  obtain ha | ha := List.mem_append.mp ha
  · rw [hplaced.table_of_ne ((h.dest_ne hnodup).1 a ha), hprepared.table_of_open, h.placed a ha]
    · rw [h.placed a ha]
      exact hopen a (by simp [h.arcs, ha])
    · intro hclose
      exact (h.closes i List.mem_cons_self (hpassed.of_close hclose).1).2.2 a ha
  · obtain rfl := List.mem_singleton.mp ha
    rw [← h.head.1, hplaced.table_dest, h.table_source hopen hprepared]

/-- What an arc that closes another descriptor than `i`'s destination knows of it. -/
lemma Inv.closes_next {q : InjectionArc} (hq : q ∈ i :: rest) (hclose : q.close = true)
    (hne : q.source ≠ i.dest) (hopen : ∀ a ∈ m, (table a.source).isSome)
    (hprepared : Prepared i rest s mid s₁) (hplaced : Placed i l.1.close s₁ s') :
    Marked m q.source ∧ q.source ∉ s'.delegate.temporaries ∧
      ∀ a ∈ done ++ [o], a.dest ≠ q.source := by
  obtain ⟨hmarked, htemporary, hdone⟩ := h.closes q hq hclose
  obtain ⟨ts, htemporaries, hfree, -⟩ := hprepared.table_eq
  refine ⟨hmarked, ?_, ?_⟩
  · rw [hplaced.temporaries_eq, htemporaries, List.mem_append]
    rintro (hmem | hmem)
    · exact htemporary hmem
    · have hq := h.isOpen hopen q hq
      rw [hfree _ hmem] at hq
      cases hq
  · intro a ha
    obtain ha | ha := List.mem_append.mp ha
    · exact hdone a ha
    · obtain rfl := List.mem_singleton.mp ha
      rw [← h.head.1]
      exact hne.symm

include hopen hprepared hpassed hplaced in
lemma Inv.step_closes : ∀ r ∈ l.2, r.close = true → Marked m r.source ∧
    r.source ∉ s'.delegate.temporaries ∧ ∀ a ∈ done ++ [o], a.dest ≠ r.source := by
  intro r hr hclose
  obtain hmem | ⟨hi, hsource, j, hj, hjs⟩ := hpassed.close_cases hr hclose
  · have hrest := hprepared.mem_of_close hmem hclose
    refine h.closes_next (List.mem_cons_of_mem _ hrest) hclose ?_ hopen hprepared hplaced
    by_cases hidentity : i.source = i.dest
    · intro heq
      exact h.identity (.inl ⟨hidentity, ⟨r, hrest, by rw [heq, hidentity]⟩, r,
        List.mem_cons_of_mem _ hrest, by rw [heq, hidentity], hclose⟩)
    · exact hprepared.source_ne hidentity r hmem
  · rw [hsource]
    refine h.closes_next List.mem_cons_self hi ?_ hopen hprepared hplaced
    intro hidentity
    rw [hprepared.eq_of_identity hidentity] at hj
    exact h.identity (.inl ⟨hidentity, ⟨j, hj, hjs⟩, i, List.mem_cons_self, rfl, hi⟩)

include hprepared hpassed hplaced in
lemma Inv.step_others : ∀ fd ∉ m.map InjectionArc.dest, fd ∉ s'.delegate.temporaries →
    ((Marked m fd → ∃ r ∈ l.2, r.source = fd ∧ r.close = true) ∧
      s'.delegate.table fd = table fd) ∨ Marked m fd ∧ s'.delegate.table fd = none := by
  intro fd hfd htemporary
  obtain ⟨ts, htemporaries, -, hsame⟩ := hprepared.table_eq
  rw [hplaced.temporaries_eq, htemporaries, List.mem_append, not_or] at htemporary
  have hdest : fd ≠ i.dest := fun heq => hfd (heq ▸ h.dest_mem)
  have hsame := hsame fd htemporary.2
  obtain ⟨hmarked, htable⟩ | ⟨hmarked, hnone⟩ := h.others fd hfd htemporary.1
  · by_cases hclose : l.1.close = true ∧ fd = i.source
    · obtain ⟨hclose, rfl⟩ := hclose
      rw [hclose] at hplaced
      exact .inr ⟨(h.closes i List.mem_cons_self (hpassed.of_close hclose).1).1,
        hplaced.table_source hdest⟩
    · refine .inl ⟨?_, ?_⟩
      · intro hm
        obtain ⟨r, hr, rfl, hrclose⟩ := hmarked hm
        obtain rfl | hr := List.mem_cons.mp hr
        · -- the closing is passed on, as the source is no destination
          have hdests : ∀ d ∈ mid, d.dest ≠ r.source := by
            intro d hd heq
            have hmem : d.dest ∈ rest.map InjectionArc.dest := by
              rw [← hprepared.dest_eq]
              exact List.mem_map.mpr ⟨d, hd, rfl⟩
            refine hfd (heq ▸ ?_)
            rw [h.arcs, List.map_append, ← h.dest_eq]
            simp [hmem]
          exact (hpassed.close_or_exists hrclose hdests).resolve_left fun hl => hclose ⟨hl, rfl⟩
        · exact hpassed.exists_close ⟨r, hprepared.mem_of_ne hr hdest, rfl, hrclose⟩
      · rw [hplaced.table_of_ne hdest fun hl heq => hclose ⟨hl, heq⟩, hsame, htable]
  · exact .inr ⟨hmarked, hplaced.table_none hdest (hsame.trans hnone)⟩

include hprepared hplaced in
lemma Inv.step_temporaries : ∀ t ∈ s'.delegate.temporaries, t ∉ m.map InjectionArc.dest →
    table t = none ∨ Marked m t := by
  intro t ht hdest
  obtain ⟨ts, htemporaries, hfree, -⟩ := hprepared.table_eq
  rw [hplaced.temporaries_eq, htemporaries, List.mem_append] at ht
  by_cases hold : t ∈ s.delegate.temporaries
  · exact h.temporaries t hold hdest
  · have hnone := hfree t (ht.resolve_left hold)
    obtain ⟨-, htable⟩ | ⟨hmarked, -⟩ := h.others t hdest hold
    · exact .inl (htable ▸ hnone)
    · exact .inr hmarked

include hnodup hopen hprepared hpassed hplaced in
/-- One round. -/
lemma Inv.step : Inv m table (done ++ [o]) os l.2 s' where
  arcs := by rw [h.arcs, List.append_assoc, List.singleton_append]
  remaining := h.step_remaining hopen hprepared hpassed hplaced
  placed := h.step_placed hnodup hopen hprepared hpassed hplaced
  closes := h.step_closes hopen hprepared hpassed hplaced
  others := h.step_others hprepared hpassed hplaced
  temporaries := h.step_temporaries hprepared hplaced
  identity := by
    rw [hpassed.closesIdentity_iff, hprepared.closesIdentity_iff (h.dest_ne hnodup).2]
    · exact fun hrest => h.identity (.inr hrest)
    · exact fun r hr => h.isOpen hopen r (List.mem_cons_of_mem _ hr)

end Step

section Runs
variable {m done os rs rest rest' : List InjectionArc} {table : ℤ → Option φ} {s s' : Shuffle φ}
  {i : InjectionArc}

lemma dest_round (h : round i rest s = some (rest', s')) :
    rest'.map InjectionArc.dest = rest.map InjectionArc.dest := by
  obtain ⟨mid, s₁, last, hprepared, hpassed, -⟩ := round_cases h
  have hends := congrArg (List.map Prod.snd) hpassed.ends_eq
  rw [List.map_map, List.map_map] at hends
  exact hends.trans hprepared.dest_eq

lemma length_round (h : round i rest s = some (rest', s')) : rest'.length = rest.length := by
  have hdests := congrArg List.length (dest_round h)
  rwa [List.length_map, List.length_map] at hdests

/-- What every round keeps holds at the end. -/
lemma shuffleLoop_induction {P : List InjectionArc → Shuffle φ → Prop}
    (hstep : ∀ i rest s rest' s', round i rest s = some (rest', s') → P (i :: rest) s → P rest' s')
    (h : P rs s) (hrun : shuffleLoop rs.length rs s = some s') : P [] s' := by
  induction hn : rs.length generalizing rs s with
  | zero =>
    obtain rfl := List.length_eq_zero_iff.mp hn
    obtain rfl := Option.some_injective _ hrun
    exact h
  | succ n ih =>
    cases rs with
    | nil => cases hn
    | cons i rest =>
      obtain ⟨⟨rest', s₁⟩, hround, hrun⟩ := Option.bind_eq_some_iff.mp hrun
      have hlength := length_round hround
      rw [← hlength] at hrun
      refine ih (hstep _ _ _ _ _ hround h) hrun ?_
      rw [hlength]
      simpa using hn

lemma Inv.run (hnodup : (m.map InjectionArc.dest).Nodup)
    (hopen : ∀ a ∈ m, (table a.source).isSome) (h : Inv m table done os rs s)
    (hrun : shuffleLoop rs.length rs s = some s') : Inv m table m [] [] s' := by
  have hend : ∃ done os, Inv m table done os [] s' := by
    refine shuffleLoop_induction (P := fun rs s => ∃ done os, Inv m table done os rs s) ?_
      ⟨done, os, h⟩ hrun
    rintro i rest s rest' s' hround ⟨done, os, h⟩
    obtain ⟨mid, s₁, last, hprepared, hpassed, hplaced⟩ := round_cases hround
    cases os with
    | nil => simpa using h.dest_eq
    | cons o os => exact ⟨_, _, h.step hnodup hopen hprepared hpassed hplaced⟩
  obtain ⟨done, os, h⟩ := hend
  have hos : os = [] := by simpa using h.dest_eq.symm
  have hdone : done = m := by rw [h.arcs, hos, List.append_nil]
  rwa [hos, hdone] at h

/-- The first temporaries are recorded. -/
lemma extra_fds_eq (h : s.extra_fds = s.delegate.temporaries.take kMaxExtraFDs)
    (hrun : shuffleLoop rs.length rs s = some s') :
    s'.extra_fds = s'.delegate.temporaries.take kMaxExtraFDs := by
  refine shuffleLoop_induction (P := fun _ (s : Shuffle φ) =>
    s.extra_fds = s.delegate.temporaries.take kMaxExtraFDs) ?_ h hrun
  intro i rest s rest' s' hround h
  obtain ⟨mid, s₁, last, hprepared, -, hplaced⟩ := round_cases hround
  have hs₁ : s₁.extra_fds = s₁.delegate.temporaries.take kMaxExtraFDs := by
    cases hprepared with
    | unneeded _ => exact h
    | temporary _ htake =>
      obtain ⟨-, -, -, -, htemporaries, hextra⟩ := takeTemporary_some htake
      rw [hextra, htemporaries, h, List.length_take, List.take_append]
      split_ifs with hlt
      · rw [List.take_of_length_le (by omega), List.take_of_length_le (by simp; omega)]
      · rw [show kMaxExtraFDs - s.delegate.temporaries.length = 0 by omega, List.take_zero,
          List.append_nil]
  cases hplaced with
  | identity _ => exact hs₁
  | moved _ _ _ htemporaries hextra => rw [hextra, htemporaries, hs₁]

/-! ### Lost destinations -/

/-- A destination whose arc is done, and that is closed, or taken for a temporary, or the source
of an arc that will close it. -/
def Lost (fd : ℤ) (rs : List InjectionArc) (s : Shuffle φ) : Prop :=
  fd ∉ rs.map InjectionArc.dest ∧ (s.delegate.table fd = none ∨ fd ∈ s.delegate.temporaries ∨
    ∃ r ∈ rs, r.source = fd ∧ r.close = true)

lemma Lost.step {fd : ℤ} (hround : round i rest s = some (rest', s'))
    (h : Lost fd (i :: rest) s) : Lost fd rest' s' := by
  obtain ⟨mid, s₁, last, hprepared, hpassed, hplaced⟩ := round_cases hround
  obtain ⟨ts, htemporaries, -, hsame⟩ := hprepared.table_eq
  obtain ⟨hdests, hlost⟩ := h
  rw [List.map_cons, List.mem_cons, not_or] at hdests
  obtain ⟨hdest, hrest⟩ := hdests
  refine ⟨dest_round hround ▸ hrest, ?_⟩
  rw [hplaced.temporaries_eq, htemporaries]
  obtain hnone | htemporary | ⟨r, hr, rfl, hclose⟩ := hlost
  · by_cases hts : fd ∈ ts
    · exact .inr (.inl (List.mem_append_right _ hts))
    · exact .inl (hplaced.table_none hdest ((hsame fd hts).trans hnone))
  · exact .inr (.inl (List.mem_append_left _ htemporary))
  · obtain rfl | hr := List.mem_cons.mp hr
    · have hne : ∀ d ∈ mid, d.dest ≠ r.source := by
        intro d hd heq
        rw [← hprepared.dest_eq, ← heq] at hrest
        exact hrest (List.mem_map.mpr ⟨d, hd, rfl⟩)
      obtain hlast | hpass := hpassed.close_or_exists hclose hne
      · dsimp only at hlast
        rw [hlast] at hplaced
        exact .inl (hplaced.table_source hdest)
      · exact .inr (.inr hpass)
    · exact .inr (.inr (hpassed.exists_close ⟨r, hprepared.mem_of_ne hr hdest, rfl, hclose⟩))

/-- An arc from a descriptor to itself loses it when an arc behind it closes it. -/
lemma ClosesIdentity.step (hround : round i rest s = some (rest', s'))
    (hnodup : ((i :: rest).map InjectionArc.dest).Nodup) (h : ClosesIdentity (i :: rest)) :
    ClosesIdentity rest' ∨ Lost i.dest rest' s' := by
  obtain ⟨mid, s₁, last, hprepared, hpassed, hplaced⟩ := round_cases hround
  rw [List.map_cons, List.nodup_cons] at hnodup
  obtain ⟨hidentity, ⟨r, hr, hsource⟩, r', hr', hsource', hclose⟩ | h := h
  · right
    obtain rfl := hprepared.eq_of_identity hidentity
    refine ⟨?_, .inr (.inr ?_)⟩
    · rw [dest_round hround]
      exact hnodup.1
    · rw [← hidentity]
      obtain rfl | hr' := List.mem_cons.mp hr'
      · have hne : ∀ d ∈ mid, d.dest ≠ r'.source := fun d hd heq =>
          hnodup.1 (hidentity ▸ heq ▸ List.mem_map.mpr ⟨d, hd, rfl⟩)
        refine (hpassed.close_or_exists hclose hne).resolve_left fun hlast => ?_
        exact ((hpassed.of_close hlast).2 r hr).2 hsource
      · exact hpassed.exists_close ⟨r', hr', hsource', hclose⟩
  · left
    rw [hpassed.closesIdentity_iff]
    have hdest : ∀ d ∈ rest, d.dest ≠ i.dest := fun d hd heq =>
      hnodup.1 (heq ▸ List.mem_map.mpr ⟨d, hd, rfl⟩)
    cases hprepared with
    | unneeded _ => exact h
    | temporary _ _ => exact h.redirected hdest

/-- Then a destination is closed at the end, or a temporary. -/
lemma ClosesIdentity.run (hnodup : (m.map InjectionArc.dest).Nodup) (h : ClosesIdentity m)
    (hrun : shuffleLoop m.length m s = some s') :
    ∃ a ∈ m, s'.delegate.table a.dest = none ∨ a.dest ∈ s'.delegate.temporaries := by
  have hend := shuffleLoop_induction (P := fun rs s =>
    (rs.map InjectionArc.dest).Nodup ∧ rs.map InjectionArc.dest ⊆ m.map InjectionArc.dest ∧
      (ClosesIdentity rs ∨ ∃ a ∈ m, Lost a.dest rs s)) ?_
    ⟨hnodup, fun _ hfd => hfd, .inl h⟩ hrun
  · obtain ⟨-, -, hlost⟩ := hend
    obtain ⟨a, ha, -, hlost⟩ := hlost.resolve_left id
    refine ⟨a, ha, hlost.imp_right fun hlost => hlost.resolve_right ?_⟩
    simp
  · intro i rest s rest' s' hround ⟨hdests, hsubset, hcases⟩
    refine ⟨?_, ?_, ?_⟩
    · rw [dest_round hround]
      exact (List.nodup_cons.mp hdests).2
    · rw [dest_round hround]
      exact fun fd hfd => hsubset (List.mem_cons_of_mem _ hfd)
    · obtain h | ⟨a, ha, hlost⟩ := hcases
      · obtain h | hlost := h.step hround hdests
        · exact .inl h
        · obtain ⟨a, ha, heq⟩ := List.mem_map.mp (hsubset List.mem_cons_self)
          exact .inr ⟨a, ha, heq ▸ hlost⟩
      · exact .inr ⟨a, ha, hlost.step hround⟩

end Runs

/-! ### The assignment -/

/-- Every destination refers to what its source referred to at the start, the temporaries are
closed, and so is what was to be closed; the rest stays. The descriptors in `leaked` are left
out. -/
structure Simultaneous (m : List InjectionArc) (table : ℤ → Option φ) (after : Delegate φ)
    (leaked : List ℤ) : Prop where
  dests : ∀ a ∈ m, after.table a.dest = table a.source
  temporaries : ∀ t ∈ after.temporaries, t ∉ m.map InjectionArc.dest → t ∉ leaked →
    after.table t = none
  closed : ∀ fd, (table fd).isSome → fd ∉ leaked →
    (after.table fd = none ↔ Marked m fd ∧ fd ∉ m.map InjectionArc.dest)
  others : ∀ fd ∉ m.map InjectionArc.dest, ¬ Marked m fd → fd ∉ leaked →
    after.table fd = table fd

lemma foldl_close (fds : List ℤ) (d : Delegate φ) (fd : ℤ) :
    (fds.foldl Delegate.close d).temporaries = d.temporaries ∧
      (fds.foldl Delegate.close d).table fd = if fd ∈ fds then none else d.table fd := by
  induction fds generalizing d with
  | nil => simp
  | cons t fds ih =>
    rw [List.foldl_cons, (ih _).1, (ih _).2]
    refine ⟨rfl, ?_⟩
    by_cases hfds : fd ∈ fds
    · rw [if_pos hfds, if_pos (List.mem_cons_of_mem _ hfds)]
    · have hclose : (d.close t).table = update d.table t none := rfl
      rw [if_neg hfds, hclose]
      by_cases ht : fd = t
      · rw [ht, if_pos List.mem_cons_self, update_self]
      · rw [if_neg (by simp [ht, hfds]), update_of_ne ht]

section Results
variable {m : List InjectionArc} {table : ℤ → Option φ} {answers : List ℤ} {moves : List Bool}
  {after : Delegate φ}

/-- The state at the end of the loop, and what the last loop does to it. -/
lemma performInjectiveMultimap_cases
    (hrun : performInjectiveMultimap m ⟨table, answers, moves, []⟩ = some after) :
    ∃ s : Shuffle φ,
      shuffleLoop m.length m { delegate := ⟨table, answers, moves, []⟩ } = some s ∧
      after.temporaries = s.delegate.temporaries ∧
      ∀ fd, after.table fd = if fd ∈ after.temporaries.take kMaxExtraFDs then none
        else s.delegate.table fd := by
  obtain ⟨s, hloop, rfl⟩ := Option.map_eq_some_iff.mp hrun
  have hextra := extra_fds_eq (by simp) hloop
  refine ⟨s, hloop, (foldl_close _ _ 0).1, ?_⟩
  intro fd
  rw [(foldl_close _ _ fd).2, (foldl_close _ _ fd).1, hextra]

lemma simultaneous (hnodup : (m.map InjectionArc.dest).Nodup)
    (hopen : ∀ a ∈ m, (table a.source).isSome)
    (hrun : performInjectiveMultimap m ⟨table, answers, moves, []⟩ = some after)
    (hdests : ∀ t ∈ after.temporaries.take kMaxExtraFDs, t ∉ m.map InjectionArc.dest)
    (hidentity : ¬ ClosesIdentity m) :
    Simultaneous m table after (after.temporaries.drop kMaxExtraFDs) := by
  obtain ⟨s, hloop, htemporaries, htable⟩ := performInjectiveMultimap_cases hrun
  have hinit : Inv m table [] m m { delegate := ⟨table, answers, moves, []⟩ } :=
    { arcs := rfl
      remaining := rfl
      placed := by simp
      closes := fun r hr hclose => ⟨⟨r, hr, rfl, hclose⟩, by simp, by simp⟩
      others := fun fd _ _ => .inl ⟨id, rfl⟩
      temporaries := by simp
      identity := hidentity }
  have hend := hinit.run hnodup hopen hloop
  have hdest : ∀ a ∈ m, after.table a.dest = table a.source := by
    intro a ha
    rw [htable, if_neg fun hmem => hdests _ hmem (List.mem_map.mpr ⟨a, ha, rfl⟩), hend.placed a ha]
  have htemporary : ∀ fd, fd ∈ after.temporaries →
      fd ∉ after.temporaries.drop kMaxExtraFDs → after.table fd = none := by
    intro fd hfd hleaked
    rw [← List.take_append_drop kMaxExtraFDs after.temporaries, List.mem_append] at hfd
    rw [htable, if_pos (hfd.resolve_right hleaked)]
  have hother : ∀ fd ∉ m.map InjectionArc.dest, fd ∉ after.temporaries →
      ¬ Marked m fd ∧ after.table fd = table fd ∨ Marked m fd ∧ after.table fd = none := by
    intro fd hfd hnot
    rw [htable, if_neg fun hmem => hnot (List.mem_of_mem_take hmem)]
    refine (hend.others fd hfd (htemporaries ▸ hnot)).imp_left fun h => ⟨fun hm => ?_, h.2⟩
    simpa using h.1 hm
  refine ⟨hdest, fun t ht _ => htemporary t ht, ?_, ?_⟩
  · intro fd hfd hleaked
    by_cases hmem : fd ∈ m.map InjectionArc.dest
    · obtain ⟨a, ha, rfl⟩ := List.mem_map.mp hmem
      have hsome := hopen a ha
      rw [← hdest a ha] at hsome
      refine iff_of_false (fun hnone => ?_) fun h => h.2 hmem
      rw [hnone] at hsome
      cases hsome
    · by_cases ht : fd ∈ after.temporaries
      · have hmarked := hend.temporaries fd (htemporaries ▸ ht) hmem
        refine iff_of_true (htemporary fd ht hleaked) ⟨hmarked.resolve_left fun hnone => ?_, hmem⟩
        rw [hnone] at hfd
        cases hfd
      · obtain ⟨hmarked, hsame⟩ | ⟨hmarked, hnone⟩ := hother fd hmem ht
        · refine iff_of_false (fun hnone => ?_) fun h => hmarked h.1
          rw [← hsame, hnone] at hfd
          cases hfd
        · exact iff_of_true hnone ⟨hmarked, hmem⟩
  · intro fd hmem hmarked hleaked
    by_cases ht : fd ∈ after.temporaries
    · rw [htemporary fd ht hleaked]
      exact ((hend.temporaries fd (htemporaries ▸ ht) hmem).resolve_right hmarked).symm
    · exact ((hother fd hmem ht).resolve_right fun h => hmarked h.1).2

lemma dests_of_simultaneous (hnodup : (m.map InjectionArc.dest).Nodup)
    (hopen : ∀ a ∈ m, (table a.source).isSome)
    (hrun : performInjectiveMultimap m ⟨table, answers, moves, []⟩ = some after)
    (hcount : after.temporaries.length ≤ kMaxExtraFDs)
    (hdest : ∀ a ∈ m, after.table a.dest = table a.source) :
    (∀ t ∈ after.temporaries, t ∉ m.map InjectionArc.dest) ∧ ¬ ClosesIdentity m := by
  obtain ⟨s, hloop, htemporaries, htable⟩ := performInjectiveMultimap_cases hrun
  rw [List.take_of_length_le hcount] at htable
  have hne : ∀ a ∈ m, after.table a.dest ≠ none := by
    intro a ha hnone
    have hsome := hopen a ha
    rw [← hdest a ha, hnone] at hsome
    cases hsome
  constructor
  · intro t ht hmem
    obtain ⟨a, ha, rfl⟩ := List.mem_map.mp hmem
    exact hne a ha (by rw [htable, if_pos ht])
  · intro h
    obtain ⟨a, ha, hlost⟩ := h.run hnodup hloop
    apply hne a ha
    rw [htable]
    split_ifs with hmem
    · rfl
    · exact hlost.resolve_right fun h => hmem (htemporaries ▸ h)

/-- With at most `kMaxExtraFDs` temporaries the shuffle is a simultaneous assignment if and only if
no temporary is a destination and no arc closes the descriptor of an earlier arc to itself. With
more of them only those beyond that number are left open. -/
theorem performInjectiveMultimap_iff (hnodup : (m.map InjectionArc.dest).Nodup)
    (hopen : ∀ a ∈ m, (table a.source).isSome)
    (hrun : performInjectiveMultimap m ⟨table, answers, moves, []⟩ = some after) :
    (after.temporaries.length ≤ kMaxExtraFDs →
      (Simultaneous m table after [] ↔
        (∀ t ∈ after.temporaries, t ∉ m.map InjectionArc.dest) ∧ ¬ ClosesIdentity m)) ∧
    ((∀ t ∈ after.temporaries.take kMaxExtraFDs, t ∉ m.map InjectionArc.dest) →
      ¬ ClosesIdentity m →
      Simultaneous m table after (after.temporaries.drop kMaxExtraFDs)) := by
  refine ⟨fun hcount => ⟨fun h => ?_, fun h => ?_⟩, simultaneous hnodup hopen hrun⟩
  · exact dests_of_simultaneous hnodup hopen hrun hcount h.dests
  · have hall := simultaneous hnodup hopen hrun
      (fun t ht => h.1 t (List.mem_of_mem_take ht)) h.2
    rwa [List.drop_eq_nil_of_le hcount] at hall

end Results

/-- Two descriptors that are open. -/
def twoOpen (fd : ℤ) : Option ℕ := if fd = 3 then some 0 else if fd = 4 then some 1 else none

/-- An exchange with a temporary that is no destination. -/
theorem performInjectiveMultimap_exchange :
    ∃ after, performInjectiveMultimap [⟨3, 4, false⟩, ⟨4, 3, false⟩]
        ⟨twoOpen, [5], [true, true], []⟩ = some after ∧
      (Simultaneous [⟨3, 4, false⟩, ⟨4, 3, false⟩] twoOpen after [] ↔
        (∀ t ∈ after.temporaries, t ∉ [4, 3]) ∧ ¬ ClosesIdentity [⟨3, 4, false⟩, ⟨4, 3, false⟩]) :=
  ⟨_, rfl, (@performInjectiveMultimap_iff ℕ _ _ [5] [true, true] _ (by decide) (by decide) rfl).1
    (by decide)⟩

/-- The first free descriptor, which becomes the temporary, is the last destination. -/
theorem performInjectiveMultimap_next :
    ¬ ∀ (m : List InjectionArc) (table : ℤ → Option ℕ) (answers : List ℤ) (moves : List Bool)
      (after : Delegate ℕ), (m.map InjectionArc.dest).Nodup →
      (∀ a ∈ m, (table a.source).isSome) →
      performInjectiveMultimap m ⟨table, answers, moves, []⟩ = some after →
      after.temporaries.length ≤ kMaxExtraFDs → Simultaneous m table after [] := by
  intro h
  obtain ⟨after, hrun, hcount, hnone⟩ : ∃ after : Delegate ℕ,
      performInjectiveMultimap [⟨3, 4, false⟩, ⟨4, 5, false⟩] ⟨twoOpen, [5], [true, true], []⟩ =
        some after ∧ after.temporaries.length ≤ kMaxExtraFDs ∧ after.table 5 = none :=
    ⟨_, rfl, by decide, rfl⟩
  have hdest := (h _ twoOpen _ _ after (by decide) (by decide) hrun hcount).dests ⟨4, 5, false⟩
    (by decide)
  rw [hnone] at hdest
  exact absurd hdest (by decide)

end Chromium.FileDescriptorShuffle
