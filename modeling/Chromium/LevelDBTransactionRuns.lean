import Chromium.LevelDBTransaction

/-!
# Runs of a transaction iterator

Every move positions both cursors at the first key with some property that is
closed in the direction of travel, and then settles. Settling is shown once, for
any such property and either direction: it lands on the first key of the view,
and leaves the cursor that is not current at the first key ahead. That is what
the next move starts from, unless a refresh going backward has lost the records.
-/
namespace Chromium.LevelDBTransaction
open Cursor Runs

variable {K : Type*} [LinearOrder K]

/-- The invariant of the loop: what the data cursor has passed is deleted and
passed by the other cursor, and what the database cursor has passed is shadowed
by a record that the data cursor has reached. -/
structure Merging (t : Transaction K) (d : Direction) (p : K → Prop) (data db : Option K) :
    Prop where
  data_mem : ∀ k, data = some k → k ∈ t.records ∧ p k
  db_mem : ∀ k, db = some k → k ∈ t.snapshot ∧ p k
  data_passed : ∀ x ∈ t.records, p x → Passed d x data → t.deleted x = true ∧ Passed d x db
  db_passed : ∀ x ∈ t.snapshot, p x → Passed d x db →
    x ∈ t.records ∧ (Passed d x data ∨ data = some x)

/-- Two cursors at the first key with property `p`. -/
lemma merging_of_at {t : Transaction K} {d : Direction} {p : K → Prop} {data db : Option K}
    (hdata : At d t.records p data) (hdb : At d t.snapshot p db) : Merging t d p data db where
  data_mem := fun _ hk => (hk ▸ hdata).mem
  db_mem := fun _ hk => (hk ▸ hdb).mem
  data_passed := fun _ hx hp hpassed => absurd hpassed (hdata.not_passed hx hp)
  db_passed := fun _ hx hp hpassed => absurd hpassed (hdb.not_passed hx hp)

lemma yieldToData_eq (t : Transaction K) (d : Direction) (data db : Option K) :
    yieldToData t d data db = db ∧ (∀ k, data = some k → db ≠ some k) ∨
      ∃ k, data = some k ∧ db = some k ∧ yieldToData t d data db = step d t.snapshot k := by
  cases data with
  | none => exact .inl ⟨rfl, by simp⟩
  | some k =>
    cases db with
    | none => exact .inl ⟨rfl, by simp⟩
    | some k' =>
      by_cases hk : k = k'
      · subst hk
        refine .inr ⟨k, rfl, rfl, ?_⟩
        cases d <;> simp [yieldToData, step]
      · refine .inl ⟨by simp [yieldToData, hk], ?_⟩
        rintro x hx
        rw [Option.some.injEq] at hx
        simpa [← hx] using Ne.symm hk

section Settle
variable {t : Transaction K} {d : Direction} {p : K → Prop}
variable (hclosed : ∀ x y, p x → Ahead d x y → p y)
include hclosed

/-- The first half of the loop body; afterwards the keys differ. -/
lemma Merging.yieldToData {data db : Option K} (h : Merging t d p data db) :
    Merging t d p data (LevelDBTransaction.yieldToData t d data db) ∧
      ∀ k, data = some k → LevelDBTransaction.yieldToData t d data db ≠ some k := by
  rcases yieldToData_eq t d data db with ⟨heq, hne⟩ | ⟨k, rfl, rfl, heq⟩
  · rw [heq]
    exact ⟨h, hne⟩
  rw [heq]
  obtain ⟨hk, hpk⟩ := h.data_mem k rfl
  refine ⟨⟨h.data_mem, ?_, ?_, ?_⟩, ?_⟩
  · intro k' hk'
    obtain ⟨hmem, hahead⟩ := ahead_of_step hk'
    exact ⟨hmem, hclosed k k' hpk hahead⟩
  · intro x hx hp hpassed
    obtain ⟨hdel, hdb⟩ := h.data_passed x hx hp hpassed
    exact ⟨hdel, Passed.step (.inl hdb) t.snapshot⟩
  · intro x hx hp hpassed
    rcases passed_step hx hpassed with hahead | rfl
    · exact h.db_passed x hx hp hahead
    · exact ⟨hk, .inr rfl⟩
  · intro k' hk' hstep
    rw [Option.some.injEq] at hk'
    subst hk'
    exact Ahead.irrefl (ahead_of_step hstep).2

/-- The second half: a delete marker in front is skipped. -/
lemma Merging.skip {k : K} {db : Option K} (h : Merging t d p (some k) db)
    (hdel : t.deleted k = true) (hfirst : Passed d k db) :
    Merging t d p (step d t.records k) db := by
  obtain ⟨hk, hpk⟩ := h.data_mem k rfl
  refine ⟨?_, h.db_mem, ?_, ?_⟩
  · intro k' hk'
    obtain ⟨hmem, hahead⟩ := ahead_of_step hk'
    exact ⟨hmem, hclosed k k' hpk hahead⟩
  · intro x hx hp hpassed
    rcases passed_step hx hpassed with hahead | rfl
    · exact h.data_passed x hx hp hahead
    · exact ⟨hdel, hfirst⟩
  · intro x hx hp hpassed
    obtain ⟨hrec, hdata⟩ := h.db_passed x hx hp hpassed
    refine ⟨hrec, .inl (Passed.step ?_ t.records)⟩
    rcases hdata with hahead | heq
    · exact .inl hahead
    · exact .inr (Option.some.inj heq).symm

omit hclosed in
lemma dataIsFirst_iff {k : K} {db : Option K} : dataIsFirst d k db = true ↔ Passed d k db := by
  cases db with
  | none => simp [dataIsFirst, Passed]
  | some k' => cases d <;> simp [dataIsFirst, Passed, Ahead]

/-- What holds when the loop ends. -/
structure Settled (t : Transaction K) (d : Direction) (p : K → Prop) (data db : Option K) : Prop
    extends Merging t d p data db where
  distinct : ∀ k, data = some k → db ≠ some k
  deleted_behind : ∀ k, data = some k → t.deleted k = true → ∃ k', db = some k' ∧ Ahead d k' k

lemma Merging.handleConflictsAndDeletes {data db : Option K} (h : Merging t d p data db) :
    Settled t d p (LevelDBTransaction.handleConflictsAndDeletes t d data db).1
      (LevelDBTransaction.handleConflictsAndDeletes t d data db).2 := by
  induction data, db using LevelDBTransaction.handleConflictsAndDeletes.induct t d with
  | case1 db =>
    rw [LevelDBTransaction.handleConflictsAndDeletes]
    obtain ⟨hm, hne⟩ := h.yieldToData hclosed
    exact ⟨hm, by simp, by simp⟩
  | case2 db k db' hskip ih =>
    rw [LevelDBTransaction.handleConflictsAndDeletes]
    obtain ⟨hm, hne⟩ := h.yieldToData hclosed
    simp only [db'] at hskip ih
    simp only [hskip, and_self, if_true]
    exact ih (hm.skip hclosed hskip.1 (dataIsFirst_iff.mp hskip.2))
  | case3 db k db' hskip =>
    rw [LevelDBTransaction.handleConflictsAndDeletes]
    obtain ⟨hm, hne⟩ := h.yieldToData hclosed
    simp only [db'] at hskip
    simp only [hskip, if_false]
    refine ⟨hm, hne, ?_⟩
    intro k' hk' hdel
    rw [Option.some.injEq] at hk'
    subst hk'
    rw [dataIsFirst_iff] at hskip
    cases hdb : LevelDBTransaction.yieldToData t d (some k) db with
    | none => simp [hdel, hdb, Passed] at hskip
    | some b =>
      refine ⟨b, rfl, ahead_of_not_ahead ?_ ?_⟩
      · rintro rfl
        exact hne k rfl hdb
      · simpa [hdel, hdb, Passed] using hskip

end Settle

lemma mem_view {t : Transaction K} {x : K} :
    x ∈ view t ↔ (x ∈ t.snapshot ∧ x ∉ t.records) ∨ (x ∈ t.records ∧ t.deleted x = false) := by
  simp [view]

/-- The key that `setCurrent` selects. -/
def selected (d : Direction) (data db : Option K) : Option K :=
  (Iterator.mk data db (setCurrent d data db) d false).key

/-- With distinct keys the current iterator is the one that comes first. -/
lemma setCurrent_cases (d : Direction) {data db : Option K}
    (hne : ∀ k, data = some k → db ≠ some k) :
    (setCurrent d data db = none ∧ data = none ∧ db = none) ∨
      (∃ k, setCurrent d data db = some .data ∧ data = some k ∧ Passed d k db) ∨
      ∃ k, setCurrent d data db = some .db ∧ db = some k ∧ Passed d k data := by
  cases data with
  | none =>
    cases db with
    | none => exact .inl ⟨rfl, rfl, rfl⟩
    | some b => exact .inr (.inr ⟨b, rfl, rfl, trivial⟩)
  | some k =>
    cases db with
    | none => exact .inr (.inl ⟨k, rfl, rfl, trivial⟩)
    | some b =>
      have hkb : k ≠ b := fun h => hne k rfl (h ▸ rfl)
      refine .inr ?_
      cases d with
      | forward =>
        by_cases hlt : b < k
        · exact .inr ⟨b, by simp [setCurrent, hlt], rfl, hlt⟩
        · exact .inl ⟨k, by simp [setCurrent, hlt], rfl, lt_of_le_of_ne (not_lt.mp hlt) hkb⟩
      | reverse =>
        by_cases hlt : k < b
        · exact .inr ⟨b, by simp [setCurrent, hlt], rfl, hlt⟩
        · exact .inl ⟨k, by simp [setCurrent, hlt], rfl,
            lt_of_le_of_ne (not_lt.mp hlt) (Ne.symm hkb)⟩

/-- The cursor that is not current stands at the first key ahead of the current
one. -/
structure Positioned (t : Transaction K) (i : Iterator K) : Prop where
  invalid : i.current = none → i.key = none
  data : i.current = some .data → ∃ k, i.data = some k ∧ k ∈ t.records ∧
    At i.direction t.snapshot (Ahead i.direction k) i.db
  db : i.current = some .db → ∃ k, i.db = some k ∧ k ∈ t.snapshot ∧
    (i.dataChanged = false → At i.direction t.records (Ahead i.direction k) i.data)

lemma Positioned.valid_iff {t : Transaction K} {i : Iterator K} (h : Positioned t i) :
    i.current = none ↔ i.key = none := by
  refine ⟨h.invalid, fun hkey => ?_⟩
  cases hcur : i.current with
  | none => rfl
  | some c =>
    cases c with
    | data =>
      obtain ⟨k, hk, -⟩ := h.data hcur
      simp [Iterator.key, hcur, hk] at hkey
    | db =>
      obtain ⟨k, hk, -⟩ := h.db hcur
      simp [Iterator.key, hcur, hk] at hkey

/-- What the loop leaves behind, seen from the current key. -/
lemma Settled.at_ahead {t : Transaction K} {d : Direction} {p : K → Prop} {data db : Option K}
    (hclosed : ∀ x y, p x → Ahead d x y → p y) (h : Settled t d p data db) :
    (∀ k, data = some k → Passed d k db → At d t.snapshot (Ahead d k) db) ∧
      ∀ k, db = some k → Passed d k data → At d t.records (Ahead d k) data := by
  constructor
  · rintro k rfl hpassed
    obtain ⟨-, hpk⟩ := h.data_mem k rfl
    -- what the database cursor has passed is at or before `k`
    have hkept : ∀ x ∈ t.snapshot, Ahead d k x → ¬ Passed d x db := by
      intro x hx hahead hx'
      obtain ⟨-, hdata | heq⟩ := h.db_passed x hx (hclosed k x hpk hahead) hx'
      · exact hahead.asymm hdata
      · exact Ahead.irrefl (Option.some.inj heq ▸ hahead)
    cases db with
    | none => exact fun x hx hahead => hkept x hx hahead trivial
    | some b =>
      refine ⟨(h.db_mem b rfl).1, hpassed, fun x hx hahead => ?_⟩
      rcases ahead_trichotomy d x b with hxb | rfl | hbx
      · exact absurd hxb (hkept x hx hahead)
      · exact .inl rfl
      · exact .inr hbx
  · rintro k rfl hpassed
    obtain ⟨-, hpk⟩ := h.db_mem k rfl
    have hkept : ∀ x ∈ t.records, Ahead d k x → ¬ Passed d x data := by
      intro x hx hahead hx'
      exact hahead.asymm (h.data_passed x hx (hclosed k x hpk hahead) hx').2
    cases data with
    | none => exact fun x hx hahead => hkept x hx hahead trivial
    | some b =>
      refine ⟨(h.data_mem b rfl).1, hpassed, fun x hx hahead => ?_⟩
      rcases ahead_trichotomy d x b with hxb | rfl | hbx
      · exact absurd hxb (hkept x hx hahead)
      · exact .inl rfl
      · exact .inr hbx

/-- The first key of the view is the first of the two cursors. -/
lemma Settled.at_view {t : Transaction K} {d : Direction} {p : K → Prop} {data db : Option K}
    (h : Settled t d p data db) : At d (view t) p (selected d data db) := by
  -- no key of the view was passed
  have hkept : ∀ x ∈ view t, p x → (x ∈ t.records ∧ ¬ Passed d x data) ∨
      (x ∈ t.snapshot ∧ ¬ Passed d x db) := by
    intro x hx hp
    rcases mem_view.mp hx with ⟨hsnap, hrec⟩ | ⟨hrec, hdel⟩
    · exact .inr ⟨hsnap, fun hpassed => hrec (h.db_passed x hsnap hp hpassed).1⟩
    · refine .inl ⟨hrec, fun hpassed => ?_⟩
      simp [(h.data_passed x hrec hp hpassed).1] at hdel
  have hfirst : ∀ {k : K} {pos : Option K} {x : K}, Passed d k pos → ¬ Passed d x pos →
      x = k ∨ Ahead d k x := by
    intro k pos x hk hx
    cases pos with
    | none => exact absurd trivial hx
    | some b =>
      rcases ahead_trichotomy d x k with hxk | rfl | hkx
      · exact absurd (hxk.trans hk) hx
      · exact .inl rfl
      · exact .inr hkx
  have hself : ∀ {k x : K}, ¬ Passed d x (some k) → x = k ∨ Ahead d k x := by
    intro k x hx
    rcases ahead_trichotomy d x k with hxk | rfl | hkx
    · exact absurd hxk hx
    · exact .inl rfl
    · exact .inr hkx
  rcases setCurrent_cases d h.distinct with ⟨hcur, rfl, rfl⟩ | ⟨k, hcur, rfl, hpassed⟩ |
    ⟨k, hcur, rfl, hpassed⟩
  · simp only [selected, hcur, Iterator.key]
    intro x hx hp
    rcases hkept x hx hp with ⟨-, hnot⟩ | ⟨-, hnot⟩
    · exact hnot trivial
    · exact hnot trivial
  · simp only [selected, hcur, Iterator.key]
    obtain ⟨hmem, hpk⟩ := h.data_mem k rfl
    refine ⟨mem_view.mpr (.inr ⟨hmem, ?_⟩), hpk, fun x hx hp => ?_⟩
    · by_contra hdel
      obtain ⟨b, rfl, hahead⟩ := h.deleted_behind k rfl (by simpa using hdel)
      exact hahead.asymm hpassed
    · rcases hkept x hx hp with ⟨-, hnot⟩ | ⟨-, hnot⟩
      · exact hself hnot
      · exact hfirst hpassed hnot
  · simp only [selected, hcur, Iterator.key]
    obtain ⟨hmem, hpk⟩ := h.db_mem k rfl
    refine ⟨mem_view.mpr (.inl ⟨hmem, fun hrec => ?_⟩), hpk, fun x hx hp => ?_⟩
    · exact Ahead.irrefl (h.data_passed k hrec hpk hpassed).2
    · rcases hkept x hx hp with ⟨-, hnot⟩ | ⟨-, hnot⟩
      · exact hfirst hpassed hnot
      · exact hself hnot

/-- Settling lands on the first key of the view and leaves the iterator
positioned. -/
lemma settle_spec {s : State K} {p : K → Prop}
    (hclosed : ∀ x y, p x → Ahead s.iterator.direction x y → p y)
    (hdata : At s.iterator.direction s.transaction.records p s.iterator.data)
    (hdb : At s.iterator.direction s.transaction.snapshot p s.iterator.db) :
    (settle s).transaction = s.transaction ∧
      At s.iterator.direction (view s.transaction) p (settle s).iterator.key ∧
      Positioned (settle s).transaction (settle s).iterator := by
  have hsettled := (merging_of_at hdata hdb).handleConflictsAndDeletes hclosed
  obtain ⟨hahead, hahead'⟩ := hsettled.at_ahead hclosed
  refine ⟨rfl, hsettled.at_view, ⟨?_, ?_, ?_⟩⟩
  · intro hcur
    simp [Iterator.key, hcur]
  · intro hcur
    rcases setCurrent_cases s.iterator.direction hsettled.distinct with ⟨hc, -⟩ |
      ⟨k, -, hk, hpassed⟩ | ⟨k, hc, -⟩
    · simp [settle, hc] at hcur
    · exact ⟨k, hk, (hsettled.data_mem k hk).1, hahead k hk hpassed⟩
    · simp [settle, hc] at hcur
  · intro hcur
    rcases setCurrent_cases s.iterator.direction hsettled.distinct with ⟨hc, -⟩ | ⟨k, hc, -⟩ |
      ⟨k, -, hk, hpassed⟩
    · simp [settle, hc] at hcur
    · simp [settle, hc] at hcur
    · exact ⟨k, hk, (hsettled.db_mem k hk).1, fun _ => hahead' k hk hpassed⟩

/-- The state in which a refresh going backward finds no record from the current
key on and leaves the data iterator past the end, with records before it. -/
def LosesRecords (s : State K) : Prop :=
  s.iterator.dataChanged = true ∧ s.iterator.direction = .reverse ∧
    s.iterator.current = some .db ∧
    ∀ k, s.iterator.db = some k → ∀ x ∈ s.transaction.records, x < k

lemma at_seekAfter (keys : Finset K) (k : K) :
    At .forward keys (Ahead .forward k) (seekAfter keys k) :=
  at_above_lowerBound keys k

lemma at_seekBefore (keys : Finset K) (k : K) :
    At .reverse keys (Ahead .reverse k) (seekBefore keys k) := by
  unfold seekBefore
  cases h : lowerBound keys k with
  | none => exact at_largest_of_lowerBound h
  | some k' => exact at_prev_lowerBound h

lemma refreshIfChanged_data {s : State K} (hcur : s.iterator.current = some .data) {k : K}
    (hk : s.iterator.data = some k) :
    refreshIfChanged s = { s with iterator := { s.iterator with dataChanged := false } } := by
  obtain ⟨t, data, db, current, direction, dataChanged⟩ := s
  simp only at hcur hk
  subst hcur hk
  cases dataChanged <;> simp [refreshIfChanged, refreshDataIterator]

lemma refreshIfChanged_db {s : State K} (hcur : s.iterator.current = some .db) {k : K}
    (hk : s.iterator.db = some k) :
    refreshIfChanged s = { s with iterator := { s.iterator with
      data := if s.iterator.dataChanged then
          refreshedData s.transaction.records s.iterator.direction k
        else s.iterator.data
      dataChanged := false } } := by
  obtain ⟨t, data, db, current, direction, dataChanged⟩ := s
  simp only at hcur hk
  subst hcur hk
  cases dataChanged <;> simp [refreshIfChanged, refreshDataIterator]

/-- Unless records are lost the data iterator is at the first record ahead of
the current key after the refresh. -/
lemma Positioned.at_refreshed {s : State K} (h : Positioned s.transaction s.iterator)
    (hcur : s.iterator.current = some .db) {k : K} (hk : s.iterator.db = some k)
    (hok : ¬ LosesRecords s) :
    At s.iterator.direction s.transaction.records (Ahead s.iterator.direction k)
      (if s.iterator.dataChanged then
        refreshedData s.transaction.records s.iterator.direction k
      else s.iterator.data) := by
  obtain ⟨k', hk', -, hat⟩ := h.db hcur
  obtain rfl : k = k' := Option.some.inj (hk.symm.trans hk')
  by_cases hchanged : s.iterator.dataChanged = true
  · rw [if_pos hchanged]
    cases hd : s.iterator.direction with
    | forward => exact at_seekAfter _ k
    | reverse =>
      unfold refreshedData
      cases hlow : lowerBound s.transaction.records k with
      | some k' => exact at_prev_lowerBound hlow
      | none =>
        refine absurd ⟨hchanged, hd, hcur, fun x hx y hy => ?_⟩ hok
        obtain rfl : k = x := Option.some.inj (hk.symm.trans hx)
        have hnone := at_lowerBound s.transaction.records k
        rw [hlow] at hnone
        exact not_le.mp (hnone y hy)
  · rw [if_neg hchanged]
    exact hat (by simpa using hchanged)

/-- `Key()` keeps the position. -/
lemma Positioned.refreshIfChanged {s : State K} (h : Positioned s.transaction s.iterator)
    (hcur : s.iterator.current ≠ none) (hok : ¬ LosesRecords s) :
    Positioned (LevelDBTransaction.refreshIfChanged s).transaction
        (LevelDBTransaction.refreshIfChanged s).iterator ∧
      (LevelDBTransaction.refreshIfChanged s).iterator.key = s.iterator.key := by
  cases hc : s.iterator.current with
  | none => exact absurd hc hcur
  | some c =>
    cases c with
    | data =>
      obtain ⟨k, hk, hmem, hat⟩ := h.data hc
      rw [refreshIfChanged_data hc hk]
      refine ⟨⟨by simp [hc], fun _ => ⟨k, hk, hmem, hat⟩, by simp [hc]⟩, rfl⟩
    | db =>
      obtain ⟨k, hk, hmem, -⟩ := h.db hc
      rw [refreshIfChanged_db hc hk]
      refine ⟨⟨by simp [hc], by simp [hc], fun _ => ⟨k, hk, hmem, fun _ => ?_⟩⟩, ?_⟩
      · exact h.at_refreshed hc hk hok
      · simp [Iterator.key, hc]

/-- Up to the settling, `Next` and `Prev` bring both cursors to the first key
ahead of the current one. -/
lemma Positioned.move {s : State K} (h : Positioned s.transaction s.iterator) {k : K}
    (hkey : s.iterator.key = some k) {d : Direction} {f : Finset K → K → Option K}
    (hf : ∀ keys, At d keys (Ahead d k) (f keys k))
    (hok : s.iterator.direction = d → ¬ LosesRecords s) :
    ∃ i, advanceCurrent d (turn d f (LevelDBTransaction.refreshIfChanged s)) =
        ⟨s.transaction, i⟩ ∧
      i.direction = d ∧ At d s.transaction.records (Ahead d k) i.data ∧
      At d s.transaction.snapshot (Ahead d k) i.db := by
  cases hc : s.iterator.current with
  | none => simp [Iterator.key, hc] at hkey
  | some c =>
    cases c with
    | data =>
      obtain ⟨k', hk, -, hat⟩ := h.data hc
      obtain rfl : k' = k := by simpa [Iterator.key, hc, hk] using hkey
      rw [refreshIfChanged_data hc hk]
      by_cases hd : s.iterator.direction = d
      · simp only [turn, hd, if_true, advanceCurrent, hc, hk, Option.bind_some]
        exact ⟨_, rfl, rfl, at_step d _ k', hd ▸ hat⟩
      · simp only [turn, hd, if_false, advanceCurrent, hc, hk, Iterator.key, Option.bind_some]
        exact ⟨_, rfl, rfl, at_step d _ k', hf _⟩
    | db =>
      obtain ⟨k', hk, -, -⟩ := h.db hc
      obtain rfl : k' = k := by simpa [Iterator.key, hc, hk] using hkey
      rw [refreshIfChanged_db hc hk]
      by_cases hd : s.iterator.direction = d
      · have hat := h.at_refreshed hc hk (hok hd)
        simp only [turn, hd, if_true, advanceCurrent, hc, hk, Option.bind_some]
        exact ⟨_, rfl, rfl, by simpa only [hd] using hat, at_step d _ k'⟩
      · simp only [turn, hd, if_false, advanceCurrent, hc, hk, Iterator.key, Option.bind_some]
        exact ⟨_, rfl, rfl, hf _, at_step d _ k'⟩

/-- The condition on one call: a refresh loses no records. `Next` is free of it,
since a turn repositions the data iterator. -/
def Admissible (s : State K) (e : Event K) : Prop :=
  e = .prev ∨ e = .key → ¬ LosesRecords s

/-- A call that meets its condition. -/
def SafeStep (s : State K) (e : Event K) (s' : State K) : Prop := Admissible s e ∧ Step s e s'

/-- Writes leave the iterator where it is. -/
lemma Positioned.set {s : State K} (h : Positioned s.transaction s.iterator) (key : K)
    (deleted : Bool) :
    Positioned (LevelDBTransaction.set key deleted s).transaction
        (LevelDBTransaction.set key deleted s).iterator ∧
      (LevelDBTransaction.set key deleted s).iterator.key = s.iterator.key := by
  unfold LevelDBTransaction.set
  by_cases hmem : key ∈ s.transaction.records
  · simp only [hmem, if_true, Finset.insert_eq_of_mem]
    exact ⟨⟨h.invalid, h.data, h.db⟩, trivial⟩
  · simp only [hmem, if_false]
    refine ⟨⟨h.invalid, fun hc => ?_, fun hc => ?_⟩, rfl⟩
    · obtain ⟨k, hk, hrec, hat⟩ := h.data hc
      exact ⟨k, hk, Finset.mem_insert_of_mem hrec, hat⟩
    · obtain ⟨k, hk, hsnap, -⟩ := h.db hc
      exact ⟨k, hk, hsnap, by simp⟩

/-- `Next` and `Prev` land on the next key of the view in their direction. -/
lemma Positioned.settle_move {s : State K} (h : Positioned s.transaction s.iterator) {k : K}
    (hkey : s.iterator.key = some k) {d : Direction} {f : Finset K → K → Option K}
    (hf : ∀ keys, At d keys (Ahead d k) (f keys k))
    (hok : s.iterator.direction = d → ¬ LosesRecords s) :
    Positioned
        (settle (advanceCurrent d
          (turn d f (LevelDBTransaction.refreshIfChanged s)))).transaction
        (settle (advanceCurrent d
          (turn d f (LevelDBTransaction.refreshIfChanged s)))).iterator ∧
      At d (view (settle (advanceCurrent d
          (turn d f (LevelDBTransaction.refreshIfChanged s)))).transaction) (Ahead d k)
        (settle (advanceCurrent d
          (turn d f (LevelDBTransaction.refreshIfChanged s)))).iterator.key := by
  obtain ⟨i, hmove, rfl, hdata, hdb⟩ := h.move hkey hf hok
  obtain ⟨ht, hat, hpos⟩ := settle_spec (s := ⟨s.transaction, i⟩)
    (fun x y hx hxy => hx.trans hxy) hdata hdb
  rw [hmove]
  exact ⟨hpos, ht ▸ hat⟩

/-- What one call preserves, and where it lands. -/
lemma Positioned.step {s s' : State K} {e : Event K} (h : Positioned s.transaction s.iterator)
    (hs : SafeStep s e s') : Positioned s'.transaction s'.iterator ∧ Lands s e s' := by
  obtain ⟨hok, hvalid, rfl⟩ := hs
  have hland : ∀ {s' : State K}, Positioned s'.transaction s'.iterator →
      (s'.iterator.current = none ↔ s'.iterator.key = none) := fun h => h.valid_iff
  cases e with
  | seek target =>
    obtain ⟨ht, hat, hpos⟩ := settle_spec
      (s := { s with iterator := { s.iterator with
        data := lowerBound s.transaction.records target
        db := lowerBound s.transaction.snapshot target
        direction := .forward } })
      (p := (target ≤ ·)) (fun x y hx hxy => hx.trans (le_of_lt hxy))
      (at_lowerBound _ _) (at_lowerBound _ _)
    exact ⟨hpos, hland hpos, hat⟩
  | seekToLast =>
    obtain ⟨ht, hat, hpos⟩ := settle_spec
      (s := { s with iterator := { s.iterator with
        data := largest s.transaction.records
        db := largest s.transaction.snapshot
        direction := .reverse } })
      (p := fun _ => True) (fun _ _ _ _ => trivial) (at_largest _) (at_largest _)
    exact ⟨hpos, hland hpos, hat⟩
  | next =>
    have hcur := hvalid (.inl rfl)
    obtain ⟨k, hkey⟩ := Option.ne_none_iff_exists'.mp (mt h.valid_iff.mpr hcur)
    obtain ⟨hpos, hat⟩ := h.settle_move hkey (d := .forward) (at_seekAfter · k)
      fun hd hloses => by simp [hloses.2.1] at hd
    simp only [apply, nextKey, hcur, if_false]
    refine ⟨hpos, hland hpos, fun k' hk' => ?_⟩
    obtain rfl : k = k' := Option.some.inj (hkey.symm.trans hk')
    exact hat
  | prev =>
    have hcur := hvalid (.inr rfl)
    obtain ⟨k, hkey⟩ := Option.ne_none_iff_exists'.mp (mt h.valid_iff.mpr hcur)
    obtain ⟨hpos, hat⟩ := h.settle_move hkey (d := .reverse) (at_seekBefore · k)
      fun _ => hok (.inl rfl)
    simp only [apply, prevKey, hcur, if_false]
    refine ⟨hpos, hland hpos, fun k' hk' => ?_⟩
    obtain rfl : k = k' := Option.some.inj (hkey.symm.trans hk')
    exact hat
  | key =>
    simp only [apply, key]
    split_ifs with hcur
    · exact ⟨h, hland h, rfl⟩
    · obtain ⟨hpos, hkey⟩ := h.refreshIfChanged hcur (hok (.inr rfl))
      exact ⟨hpos, hland hpos, hkey⟩
  | put k =>
    obtain ⟨hpos, hkey⟩ := h.set k false
    exact ⟨hpos, hland hpos, hkey⟩
  | remove k =>
    obtain ⟨hpos, hkey⟩ := h.set k true
    exact ⟨hpos, hland hpos, hkey⟩

/-- In every run in which no refresh loses records, every call lands where the
live view says. -/
theorem transactionIterator_lands (t : Transaction K) (es : List (Event K)) (s : State K)
    (e : Event K) (s' : State K) (hrun : Reaches SafeStep ⟨t, Iterator.initial⟩ es s)
    (hstep : SafeStep s e s') : Lands s e s' := by
  have hpos : Positioned s.transaction s.iterator := by
    refine hrun.invariant (fun s => Positioned s.transaction s.iterator) ?_ ?_
    · exact ⟨fun _ => rfl, by simp [Iterator.initial], by simp [Iterator.initial]⟩
    · intro s e s' h hs
      exact (h.step hs).1
  exact (hpos.step hstep).2

/-- A record put before the only key of the snapshot, and a seek. -/
theorem transactionIterator_lands_seek :
    Lands (put 1 ⟨⟨{2}, ∅, fun _ => false⟩, Iterator.initial⟩) (.seek 0)
      (seek 0 (put 1 ⟨⟨({2} : Finset ℕ), ∅, fun _ => false⟩, Iterator.initial⟩)) :=
  transactionIterator_lands ⟨{2}, ∅, fun _ => false⟩ [.put 1] _ (.seek 0) _
    (.snoc .refl ⟨by simp [Admissible], by simp, rfl⟩) ⟨by simp [Admissible], by simp, rfl⟩

/-- A record put before the only key of the snapshot: `SeekToLast` stands on the
key of the snapshot, and `Prev` loses the record. -/
theorem transactionIterator_prev_misses :
    ¬ ∀ (t : Transaction ℕ) (es : List (Event ℕ)) (s : State ℕ) (e : Event ℕ) (s' : State ℕ),
      Reaches Step ⟨t, Iterator.initial⟩ es s → Step s e s' → Lands s e s' := by
  intro h
  have hlast : seekToLast (put 1 ⟨⟨{2}, ∅, fun _ => false⟩, Iterator.initial⟩) =
      ⟨⟨{2}, {1}, Function.update (fun _ => false) 1 false⟩,
        ⟨some 1, some 2, some .db, .reverse, true⟩⟩ := by
    have h1 : largest ({1} : Finset ℕ) = some 1 := by decide
    have h2 : largest ({2} : Finset ℕ) = some 2 := by decide
    simp [seekToLast, settle, put, LevelDBTransaction.set, Iterator.initial, h1, h2,
      handleConflictsAndDeletes, yieldToData, setCurrent]
  have hprev : prevKey (seekToLast (put 1 ⟨⟨{2}, ∅, fun _ => false⟩, Iterator.initial⟩)) =
      ⟨⟨{2}, {1}, Function.update (fun _ => false) 1 false⟩,
        ⟨none, none, none, .reverse, false⟩⟩ := by
    have h1 : lowerBound ({1} : Finset ℕ) 2 = none := by decide
    have h2 : step .reverse ({2} : Finset ℕ) 2 = none := by decide
    rw [hlast]
    simp [prevKey, settle, advanceCurrent, turn, refreshIfChanged, refreshDataIterator,
      refreshedData, h1, h2, handleConflictsAndDeletes, yieldToData, setCurrent]
  have hrun : Reaches Step (⟨⟨{2}, ∅, fun _ => false⟩, Iterator.initial⟩ : State ℕ)
      [.put 1, .seekToLast]
      (seekToLast (put 1 ⟨⟨{2}, ∅, fun _ => false⟩, Iterator.initial⟩)) :=
    .snoc (.snoc .refl ⟨by simp, rfl⟩) ⟨by simp, rfl⟩
  have hland := (h _ _ _ .prev _ hrun ⟨fun _ => by simp [hlast], rfl⟩).2 2
    (by simp [hlast, Iterator.key])
  simp only [apply, hprev] at hland
  exact hland 1 (mem_view.mpr (.inr (by simp))) (by decide)

end Chromium.LevelDBTransaction
