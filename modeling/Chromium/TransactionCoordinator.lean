import Mathlib.Data.Finset.Sort
import Mathlib.Data.List.Nodup
import Mathlib.Tactic
import Chromium.Runs

/-!
# The transaction coordinator of IndexedDB

The coordinator keeps the queued and the started transactions of a database and
starts a queued one as soon as no store of its scope is locked. A transaction is
an object with a fixed mode and scope, so the type of transactions is arbitrary
and both are functions of it.
-/
namespace Chromium.TransactionCoordinator
open Runs

/-- A set with insertion order: the list and the set of `list_set` hold the same
elements, so the list has no duplicates. -/
structure ListSet (α : Type*) where
  toList : List α
  nodup : toList.Nodup

namespace ListSet
variable {α : Type*} [DecidableEq α]

def empty : ListSet α := ⟨[], List.nodup_nil⟩

def insert (s : ListSet α) (a : α) : ListSet α :=
  if h : a ∈ s.toList then s
  else ⟨s.toList ++ [a], List.nodup_append.mpr ⟨s.nodup, List.nodup_singleton a, by
    rintro x hx y hy rfl
    exact h (List.mem_singleton.mp hy ▸ hx)⟩⟩

def erase (s : ListSet α) (a : α) : ListSet α := ⟨s.toList.erase a, s.nodup.erase a⟩

lemma insert_of_notMem {s : ListSet α} {a : α} (h : a ∉ s.toList) :
    (s.insert a).toList = s.toList ++ [a] := by
  simp [insert, h]

@[simp] lemma mem_erase {s : ListSet α} {a b : α} :
    b ∈ (s.erase a).toList ↔ b ≠ a ∧ b ∈ s.toList :=
  s.nodup.mem_erase_iff

lemma erase_sublist (s : ListSet α) (a : α) : (s.erase a).toList.Sublist s.toList :=
  List.erase_sublist

end ListSet

inductive TransactionMode
  | readOnly
  | readWrite
  | versionChange
  deriving DecidableEq, Repr

inductive QueueStatus
  | created
  | blocked
  | unblocked
  deriving DecidableEq, Repr

/-- The merge loop over two ordered sets. -/
def intersectLoop : List ℤ → List ℤ → Bool
  | a :: as, b :: bs =>
    if a < b then intersectLoop as (b :: bs)
    else if b < a then intersectLoop (a :: as) bs
    else true
  | _, _ => false

/-- `DoSetsIntersect` over two sets of object store ids. -/
def doSetsIntersect (s t : Finset ℤ) : Bool := intersectLoop s.sort t.sort

lemma notMem_of_lt_head {a b : ℤ} {bs : List ℤ} (hb : (b :: bs).Pairwise (· < ·)) (hlt : a < b) :
    a ∉ b :: bs := by
  intro hmem
  rcases List.mem_cons.mp hmem with rfl | hmem
  · exact lt_irrefl _ hlt
  · exact lt_asymm hlt ((List.pairwise_cons.mp hb).1 a hmem)

/-- The smaller head cannot occur in the other list, so the loop misses no
common element. -/
lemma intersectLoop_iff {as bs : List ℤ} (ha : as.Pairwise (· < ·)) (hb : bs.Pairwise (· < ·)) :
    intersectLoop as bs = true ↔ ∃ x, x ∈ as ∧ x ∈ bs := by
  fun_induction intersectLoop as bs with
  | case1 a as b bs hlt ih =>
    rw [ih (List.pairwise_cons.mp ha).2 hb]
    have hnot := notMem_of_lt_head hb hlt
    refine exists_congr fun x => and_congr_left fun hx => ?_
    rw [List.mem_cons, or_iff_right]
    rintro rfl
    exact hnot hx
  | case2 a as b bs hge hlt ih =>
    rw [ih ha (List.pairwise_cons.mp hb).2]
    have hnot := notMem_of_lt_head ha hlt
    refine exists_congr fun x => and_congr_right fun hx => ?_
    rw [List.mem_cons, or_iff_right]
    rintro rfl
    exact hnot hx
  | case3 a as b bs hge hge' =>
    obtain rfl : a = b := le_antisymm (not_lt.mp hge') (not_lt.mp hge)
    simp
  | case4 as bs hcons =>
    rcases as with - | ⟨a, as⟩
    · simp
    · rcases bs with - | ⟨b, bs⟩
      · simp
      · exact absurd rfl (hcons a as b bs rfl)

lemma doSetsIntersect_iff (s t : Finset ℤ) :
    doSetsIntersect s t = true ↔ ¬ Disjoint s t := by
  rw [doSetsIntersect, intersectLoop_iff (Finset.sortedLT_sort s).pairwise
    (Finset.sortedLT_sort t).pairwise, Finset.not_disjoint_iff]
  simp

/-- The coordinator. `transactions` holds the registered ones, queued or not. -/
structure Coordinator (T : Type*) where
  transactions : Finset T
  queued : ListSet T
  started : ListSet T
  queueStatus : T → QueueStatus

section
variable {T : Type*} [DecidableEq T] (mode : T → TransactionMode) (scope : T → Finset ℤ)

/-- The stores of a read-write transaction; other modes lock nothing. -/
def lockedBy (t : T) : Finset ℤ := if mode t = .readWrite then scope t else ∅

def canRunTransaction (t : T) (lockedScope : Finset ℤ) : Bool :=
  match mode t with
  | .versionChange => true
  | .readOnly => true
  | .readWrite => !doSetsIntersect (scope t) lockedScope

/-- The second loop of `ProcessStartedTransactions`. The first argument is the
rest of the queue from the iterator on; only the element before the iterator is
ever erased. -/
def processLoop : List T → Coordinator T → Finset ℤ → Coordinator T
  | [], c, _ => c
  | t :: rest, c, lockedScope =>
    let c' : Coordinator T :=
      if canRunTransaction mode scope t lockedScope then
        { c with
          queueStatus := Function.update c.queueStatus t .unblocked
          queued := c.queued.erase t
          started := c.started.insert t }
      else { c with queueStatus := Function.update c.queueStatus t .blocked }
    processLoop rest c' (lockedScope ∪ lockedBy mode scope t)

/-- Start every queued transaction whose scope is not locked by a started
transaction or by one queued before it. -/
def processStartedTransactions (c : Coordinator T) : Coordinator T :=
  if c.queued.toList = [] then c
  else
    processLoop mode scope c.queued.toList c
      (c.started.toList.foldl (fun locked t => locked ∪ lockedBy mode scope t) ∅)

def didCreateTransaction (c : Coordinator T) (t : T) : Coordinator T :=
  { c with transactions := insert t c.transactions }

def didStartTransaction (c : Coordinator T) (t : T) : Coordinator T :=
  processStartedTransactions mode scope { c with queued := c.queued.insert t }

def didFinishTransaction (c : Coordinator T) (t : T) : Coordinator T :=
  let c' : Coordinator T :=
    if t ∈ c.queued.toList then { c with queued := c.queued.erase t }
    else { c with started := c.started.erase t }
  processStartedTransactions mode scope { c' with transactions := c'.transactions.erase t }

/-- How far a transaction object has come; `EnsureTasksRunning` starts it only
while it is unused, and `Commit` and `Abort` finish it only once. -/
inductive Phase
  | absent
  | unused
  | active
  | finished
  deriving DecidableEq

/-- The coordinator with the phases of the transactions and the order in which
they were queued. -/
structure World (T : Type*) where
  coordinator : Coordinator T
  phase : T → Phase
  arrivals : List T

def World.initial : World T :=
  ⟨⟨∅, .empty, .empty, fun _ => .created⟩, fun _ => .absent, []⟩

inductive Event (T : Type*)
  | didCreateTransaction (t : T)
  | didStartTransaction (t : T)
  | didFinishTransaction (t : T)

/-- One call, without version-change transactions. -/
inductive Step : World T → Event T → World T → Prop
  | create (w : World T) (t : T) (hphase : w.phase t = .absent)
      (hmode : mode t ≠ .versionChange) :
      Step w (.didCreateTransaction t)
        { w with
          coordinator := didCreateTransaction w.coordinator t
          phase := Function.update w.phase t .unused }
  | start (w : World T) (t : T) (hphase : w.phase t = .unused) :
      Step w (.didStartTransaction t)
        { coordinator := didStartTransaction mode scope w.coordinator t
          phase := Function.update w.phase t .active
          arrivals := w.arrivals ++ [t] }
  | finish (w : World T) (t : T) (hphase : w.phase t = .unused ∨ w.phase t = .active) :
      Step w (.didFinishTransaction t)
        { w with
          coordinator := didFinishTransaction mode scope w.coordinator t
          phase := Function.update w.phase t .finished }

/-- Two read-write transactions whose scopes intersect. -/
def Conflict (s t : T) : Prop :=
  mode s = .readWrite ∧ mode t = .readWrite ∧ ¬ Disjoint (scope s) (scope t)

/-- `s` was queued before `t`. -/
def World.QueuedBefore (w : World T) (s t : T) : Prop := [s, t].Sublist w.arrivals

/-- Safety, order and maximality of the schedule. -/
structure Scheduled (w : World T) : Prop where
  exclusive : ∀ s ∈ w.coordinator.started.toList, ∀ t ∈ w.coordinator.started.toList,
    s ≠ t → ¬ Conflict mode scope s t
  apart : ∀ t ∈ w.coordinator.queued.toList, t ∉ w.coordinator.started.toList
  ordered : ∀ s ∈ w.coordinator.queued.toList, ∀ t ∈ w.coordinator.started.toList,
    w.QueuedBefore s t → ¬ Conflict mode scope s t
  readOnly : ∀ t ∈ w.coordinator.queued.toList, mode t ≠ .readOnly
  maximal : ∀ t ∈ w.coordinator.queued.toList,
    (∃ s ∈ w.coordinator.started.toList, Conflict mode scope s t) ∨
      ∃ s ∈ w.coordinator.queued.toList, w.QueuedBefore s t ∧ Conflict mode scope s t

omit [DecidableEq T] in
lemma Conflict.symm {s t : T} (h : Conflict mode scope s t) : Conflict mode scope t s :=
  ⟨h.2.1, h.1, fun hd => h.2.2 hd.symm⟩

variable {mode scope}

omit [DecidableEq T] in
lemma mem_lockedBy {t : T} {x : ℤ} :
    x ∈ lockedBy mode scope t ↔ mode t = .readWrite ∧ x ∈ scope t := by
  unfold lockedBy
  split_ifs with h <;> simp [h]

omit [DecidableEq T] in
/-- A read-write transaction runs exactly when nothing that was locked conflicts
with it. -/
lemma canRunTransaction_iff {t : T} {locked : Finset ℤ} {holders : T → Prop}
    (hlocked : ∀ x, x ∈ locked ↔ ∃ s, holders s ∧ x ∈ lockedBy mode scope s) :
    canRunTransaction mode scope t locked = true ↔ ∀ s, holders s → ¬ Conflict mode scope s t := by
  have hdisj : mode t = .readWrite →
      (Disjoint (scope t) locked ↔ ∀ s, holders s → ¬ Conflict mode scope s t) := by
    intro hmode
    simp only [Finset.disjoint_left, hlocked, mem_lockedBy, Conflict, hmode]
    constructor
    · rintro h s hs ⟨hrw, -, hmeet⟩
      exact hmeet fun x hx hxt => h hxt ⟨s, hs, hrw, hx⟩
    · rintro h x hxt ⟨s, hs, hrw, hx⟩
      exact h s hs ⟨hrw, trivial, fun hd => hd hx hxt⟩
  unfold canRunTransaction
  cases hmode : mode t with
  | readOnly => simp [Conflict, hmode]
  | versionChange => simp [Conflict, hmode]
  | readWrite =>
    rw [← hdisj hmode, Bool.not_eq_true', Bool.eq_false_iff, ne_eq, doSetsIntersect_iff, not_not]

omit [DecidableEq T] in
lemma not_sublist_swap {l : List T} (hl : l.Nodup) {s t : T} (h : [s, t].Sublist l) :
    ¬ [t, s].Sublist l := by
  induction l with
  | nil => simp at h
  | cons a l ih =>
    obtain ⟨ha, hl⟩ := List.nodup_cons.mp hl
    intro h'
    rcases List.sublist_cons_iff.mp h with h | ⟨r, hr, h⟩ <;>
      rcases List.sublist_cons_iff.mp h' with h' | ⟨r', hr', h'⟩
    · exact ih hl h h'
    · simp only [List.cons.injEq] at hr'
      exact ha (hr'.1 ▸ h.subset (by simp))
    · simp only [List.cons.injEq] at hr
      exact ha (hr.1 ▸ h'.subset (by simp))
    · simp only [List.cons.injEq] at hr hr'
      obtain ⟨rfl, rfl⟩ := hr
      exact ha (h.subset (by simp [hr'.1]))

/-- What holds of the coordinator also in the middle of its loop. -/
structure Orderly (mode : T → TransactionMode) (scope : T → Finset ℤ) (arrivals : List T)
    (c : Coordinator T) : Prop where
  nodup : arrivals.Nodup
  queued_sublist : c.queued.toList.Sublist arrivals
  started_subset : ∀ t ∈ c.started.toList, t ∈ arrivals
  exclusive : ∀ s ∈ c.started.toList, ∀ t ∈ c.started.toList, s ≠ t → ¬ Conflict mode scope s t
  apart : ∀ t ∈ c.queued.toList, t ∉ c.started.toList
  ordered : ∀ s ∈ c.queued.toList, ∀ t ∈ c.started.toList, [s, t].Sublist arrivals →
    ¬ Conflict mode scope s t

/-- Moving a queued transaction to the started ones keeps the order when it
conflicts with no started one and with none queued before it. -/
lemma Orderly.run {arrivals : List T} {c : Coordinator T} (h : Orderly mode scope arrivals c)
    {kept rest : List T} {t : T} (hq : c.queued.toList = kept ++ t :: rest)
    (hfree : ∀ s, s ∈ c.started.toList ∨ s ∈ kept → ¬ Conflict mode scope s t)
    (status : T → QueueStatus) :
    (c.queued.erase t).toList = kept ++ rest ∧
      (c.started.insert t).toList = c.started.toList ++ [t] ∧
      Orderly mode scope arrivals
        { c with
          queueStatus := status, queued := c.queued.erase t, started := c.started.insert t } := by
  have hnodup := c.queued.nodup
  rw [hq] at hnodup
  have hkept : t ∉ kept := fun hmem =>
    (List.nodup_append.mp hnodup).2.2 t hmem t (by simp) rfl
  have hqueue : (c.queued.erase t).toList = kept ++ rest := by
    simp [ListSet.erase, hq, List.erase_append_right _ hkept]
  have hstarted := ListSet.insert_of_notMem (h.apart t (by simp [hq]))
  refine ⟨hqueue, hstarted, ⟨h.nodup, (ListSet.erase_sublist _ _).trans h.queued_sublist,
    ?_, ?_, ?_, ?_⟩⟩
  · rw [hstarted]
    intro s hs
    rcases List.mem_append.mp hs with hs | hs
    · exact h.started_subset s hs
    · exact h.queued_sublist.subset (by simp [hq, List.mem_singleton.mp hs])
  · rw [hstarted]
    intro a ha b hb hne
    rcases List.mem_append.mp ha with ha | ha <;> rcases List.mem_append.mp hb with hb | hb
    · exact h.exclusive a ha b hb hne
    · rw [List.mem_singleton.mp hb]
      exact hfree a (.inl ha)
    · rw [List.mem_singleton.mp ha]
      exact fun hc => hfree b (.inl hb) (Conflict.symm _ _ hc)
    · exact absurd ((List.mem_singleton.mp ha).trans (List.mem_singleton.mp hb).symm) hne
  · rw [hstarted]
    intro s hs hmem
    obtain ⟨hne, hs⟩ := ListSet.mem_erase.mp hs
    rcases List.mem_append.mp hmem with hmem | hmem
    · exact h.apart s hs hmem
    · exact hne (List.mem_singleton.mp hmem)
  · rw [hstarted]
    intro a ha b hb hbefore
    have ha' := (ListSet.mem_erase.mp ha).2
    rcases List.mem_append.mp hb with hb | hb
    · exact h.ordered a ha' b hb hbefore
    · rw [List.mem_singleton.mp hb] at hbefore ⊢
      rw [hqueue] at ha
      rcases List.mem_append.mp ha with ha | ha
      · exact hfree a (.inr ha)
      · -- what stands behind `t` in the queue was queued after it
        have hafter : [t, a].Sublist arrivals := by
          refine List.Sublist.trans ?_ h.queued_sublist
          rw [hq]
          exact ((List.singleton_sublist.mpr ha).cons_cons t).trans (List.sublist_append_right _ _)
        exact absurd hbefore (not_sublist_swap h.nodup hafter)

/-- A transaction that is queued for a reason. -/
def Waiting (mode : T → TransactionMode) (scope : T → Finset ℤ) (arrivals : List T)
    (started queued : List T) (t : T) : Prop :=
  mode t = .readWrite ∧ ((∃ s ∈ started, Conflict mode scope s t) ∨
    ∃ s ∈ queued, [s, t].Sublist arrivals ∧ Conflict mode scope s t)

/-- The loop, with `kept` the part of the queue it has passed over. -/
lemma Orderly.processLoop {arrivals : List T} (rest : List T) :
    ∀ {c : Coordinator T} {kept : List T} {locked : Finset ℤ}, Orderly mode scope arrivals c →
      c.queued.toList = kept ++ rest →
      (∀ x, x ∈ locked ↔
        ∃ s, (s ∈ c.started.toList ∨ s ∈ kept) ∧ x ∈ lockedBy mode scope s) →
      (∀ t ∈ rest, mode t ≠ .versionChange) →
      (∀ t ∈ kept, Waiting mode scope arrivals c.started.toList kept t) →
      Orderly mode scope arrivals
          (TransactionCoordinator.processLoop mode scope rest c locked) ∧
        ∀ t ∈ (TransactionCoordinator.processLoop mode scope rest c locked).queued.toList,
          Waiting mode scope arrivals
            (TransactionCoordinator.processLoop mode scope rest c locked).started.toList
            (TransactionCoordinator.processLoop mode scope rest c locked).queued.toList t := by
  induction rest with
  | nil =>
    intro c kept locked h hq _ _ hwait
    rw [List.append_nil] at hq
    exact ⟨h, fun t ht => hq ▸ hwait t (hq ▸ ht)⟩
  | cons t rest ih =>
    intro c kept locked h hq hlocked hmode hwait
    have hcan := canRunTransaction_iff (t := t) hlocked
    unfold TransactionCoordinator.processLoop
    by_cases hrun : canRunTransaction mode scope t locked = true
    · obtain ⟨hqueue, hstarted, horderly⟩ :=
        h.run hq (hcan.mp hrun) (Function.update c.queueStatus t .unblocked)
      rw [if_pos hrun]
      refine ih horderly hqueue ?_ (fun s hs => hmode s (List.mem_cons_of_mem _ hs)) ?_
      · intro x
        simp only [Finset.mem_union, hlocked, hstarted, List.mem_append, List.mem_singleton]
        constructor
        · rintro (⟨s, hs, hx⟩ | hx)
          · exact ⟨s, by tauto, hx⟩
          · exact ⟨t, by tauto, hx⟩
        · rintro ⟨s, (hs | rfl) | hs, hx⟩
          · exact .inl ⟨s, .inl hs, hx⟩
          · exact .inr hx
          · exact .inl ⟨s, .inr hs, hx⟩
      · intro s hs
        obtain ⟨hrw, hreason⟩ := hwait s hs
        refine ⟨hrw, hreason.imp_left ?_⟩
        rintro ⟨a, ha, hconf⟩
        exact ⟨a, by simp [hstarted, ha], hconf⟩
    · rw [if_neg hrun]
      have hrw : mode t = .readWrite := by
        cases hm : mode t with
        | readOnly => simp [canRunTransaction, hm] at hrun
        | readWrite => rfl
        | versionChange => exact absurd hm (hmode t (by simp))
      have hq' : c.queued.toList = (kept ++ [t]) ++ rest := by simpa using hq
      refine ih
        ⟨h.nodup, h.queued_sublist, h.started_subset, h.exclusive, h.apart, h.ordered⟩ hq' ?_
        (fun s hs => hmode s (List.mem_cons_of_mem _ hs)) ?_
      · intro x
        simp only [Finset.mem_union, hlocked, List.mem_append, List.mem_singleton]
        constructor
        · rintro (⟨s, hs, hx⟩ | hx)
          · exact ⟨s, by tauto, hx⟩
          · exact ⟨t, by tauto, hx⟩
        · rintro ⟨s, hs | hs | rfl, hx⟩
          · exact .inl ⟨s, .inl hs, hx⟩
          · exact .inl ⟨s, .inr hs, hx⟩
          · exact .inr hx
      · intro s hs
        rcases List.mem_append.mp hs with hs | hs
        · obtain ⟨hrw, hreason⟩ := hwait s hs
          refine ⟨hrw, hreason.imp_right ?_⟩
          rintro ⟨a, ha, hrest⟩
          exact ⟨a, List.mem_append_left _ ha, hrest⟩
        · rw [List.mem_singleton.mp hs]
          rw [hcan] at hrun
          push Not at hrun
          obtain ⟨a, ha | ha, hconf⟩ := hrun
          · exact ⟨hrw, .inl ⟨a, ha, hconf⟩⟩
          · refine ⟨hrw, .inr ⟨a, List.mem_append_left _ ha, ?_, hconf⟩⟩
            refine List.Sublist.trans ?_ h.queued_sublist
            rw [hq]
            exact (List.singleton_sublist.mpr ha).append (List.singleton_sublist.mpr (by simp))

/-- What `ProcessStartedTransactions` establishes. -/
lemma Orderly.processStartedTransactions {arrivals : List T} {c : Coordinator T}
    (h : Orderly mode scope arrivals c)
    (hmode : ∀ t ∈ c.queued.toList, mode t ≠ .versionChange) :
    Orderly mode scope arrivals (TransactionCoordinator.processStartedTransactions mode scope c) ∧
      ∀ t ∈ (TransactionCoordinator.processStartedTransactions mode scope c).queued.toList,
        Waiting mode scope arrivals
          (TransactionCoordinator.processStartedTransactions mode scope c).started.toList
          (TransactionCoordinator.processStartedTransactions mode scope c).queued.toList t := by
  unfold TransactionCoordinator.processStartedTransactions
  split_ifs with hnil
  · exact ⟨h, by simp [hnil]⟩
  · refine Orderly.processLoop _ h (List.nil_append _).symm ?_ hmode (by simp)
    have hfold : ∀ (ts : List T) (acc : Finset ℤ) (x : ℤ),
        x ∈ ts.foldl (fun locked t => locked ∪ lockedBy mode scope t) acc ↔
          x ∈ acc ∨ ∃ s ∈ ts, x ∈ lockedBy mode scope s := by
      intro ts
      induction ts with
      | nil => simp
      | cons t ts ih =>
        intro acc x
        simp [ih, or_assoc]
    intro x
    simp [hfold]

/-- A new arrival at the end of the queue. -/
lemma Orderly.enqueue {arrivals : List T} {c : Coordinator T} (h : Orderly mode scope arrivals c)
    {t : T} (ht : t ∉ arrivals) :
    Orderly mode scope (arrivals ++ [t]) { c with queued := c.queued.insert t } := by
  have hqueue := ListSet.insert_of_notMem fun hmem => ht (h.queued_sublist.subset hmem)
  have hold : ∀ a, ∀ b ∈ c.started.toList, [a, b].Sublist (arrivals ++ [t]) →
      [a, b].Sublist arrivals := by
    intro a b hb hsub
    obtain ⟨l₁, l₂, hsplit, hl₁, hl₂⟩ := List.sublist_append_iff.mp hsub
    rcases List.sublist_singleton.mp hl₂ with rfl | rfl
    · rwa [hsplit, List.append_nil]
    · have hlast : b = t := by
        have := congrArg List.getLast? hsplit
        simpa using this
      exact absurd (hlast ▸ h.started_subset b hb) ht
  refine ⟨?_, ?_, ?_, h.exclusive, ?_, ?_⟩
  · exact List.nodup_append.mpr ⟨h.nodup, List.nodup_singleton t, by
      rintro a ha b hb rfl
      exact ht (List.mem_singleton.mp hb ▸ ha)⟩
  · rw [hqueue]
    exact h.queued_sublist.append (List.Sublist.refl _)
  · exact fun s hs => List.mem_append_left _ (h.started_subset s hs)
  · rw [hqueue]
    intro s hs
    rcases List.mem_append.mp hs with hs | hs
    · exact h.apart s hs
    · rw [List.mem_singleton.mp hs]
      exact fun hmem => ht (h.started_subset t hmem)
  · rw [hqueue]
    intro a ha b hb hbefore
    have hbefore := hold a b hb hbefore
    rcases List.mem_append.mp ha with ha | ha
    · exact h.ordered a ha b hb hbefore
    · rw [List.mem_singleton.mp ha] at hbefore
      exact absurd (hbefore.subset (by simp)) ht

omit [DecidableEq T] in
/-- Dropping transactions from either set keeps the order. -/
lemma Orderly.mono {arrivals : List T} {c c' : Coordinator T} (h : Orderly mode scope arrivals c)
    (hq : c'.queued.toList.Sublist c.queued.toList)
    (hs : c'.started.toList ⊆ c.started.toList) : Orderly mode scope arrivals c' where
  nodup := h.nodup
  queued_sublist := hq.trans h.queued_sublist
  started_subset := fun t ht => h.started_subset t (hs ht)
  exclusive := fun a ha b hb => h.exclusive a (hs ha) b (hs hb)
  apart := fun t ht hmem => h.apart t (hq.subset ht) (hs hmem)
  ordered := fun a ha b hb => h.ordered a (hq.subset ha) b (hs hb)

/-- The schedule together with the life cycles of the transactions. -/
structure Invariant (mode : T → TransactionMode) (scope : T → Finset ℤ) (w : World T) : Prop where
  orderly : Orderly mode scope w.arrivals w.coordinator
  waiting : ∀ t ∈ w.coordinator.queued.toList, Waiting mode scope w.arrivals
    w.coordinator.started.toList w.coordinator.queued.toList t
  arrived : ∀ t ∈ w.arrivals, w.phase t = .active ∨ w.phase t = .finished
  known : ∀ t, w.phase t ≠ .absent → mode t ≠ .versionChange

omit [DecidableEq T] in
lemma invariant_initial : Invariant mode scope (World.initial : World T) where
  orderly := by
    constructor <;> simp [World.initial, ListSet.empty]
  waiting := by simp [World.initial, ListSet.empty]
  arrived := by simp [World.initial]
  known := by simp [World.initial]

/-- What one call preserves. -/
lemma Invariant.step {w w' : World T} {e : Event T} (h : Invariant mode scope w)
    (hs : Step mode scope w e w') : Invariant mode scope w' := by
  have hqueued : ∀ t ∈ w.coordinator.queued.toList, mode t ≠ .versionChange := by
    intro t ht
    simp [(h.waiting t ht).1]
  cases hs with
  | create t hphase hmode =>
    refine ⟨h.orderly.mono (List.Sublist.refl _) (List.Subset.refl _), h.waiting, ?_, ?_⟩
    · intro s hs
      have hne : s ≠ t := by
        rintro rfl
        simpa [hphase] using h.arrived s hs
      simpa [hne] using h.arrived s hs
    · intro s hs
      by_cases hst : s = t
      · exact hst ▸ hmode
      · exact h.known s (by simpa [hst] using hs)
  | start t hphase =>
    have ht : t ∉ w.arrivals := fun hmem => by simpa [hphase] using h.arrived t hmem
    have hmode := h.known t (by simp [hphase])
    obtain ⟨horderly, hwaiting⟩ :=
      (h.orderly.enqueue ht).processStartedTransactions (by
        intro s hs
        rw [ListSet.insert_of_notMem fun hmem => ht (h.orderly.queued_sublist.subset hmem)] at hs
        rcases List.mem_append.mp hs with hs | hs
        · exact hqueued s hs
        · exact List.mem_singleton.mp hs ▸ hmode)
    refine ⟨horderly, hwaiting, ?_, ?_⟩
    · intro s hs
      by_cases hst : s = t
      · simp [hst]
      · simpa [hst] using h.arrived s (by simpa [hst] using hs)
    · intro s hs
      by_cases hst : s = t
      · exact hst ▸ hmode
      · exact h.known s (by simpa [hst] using hs)
  | finish t hphase =>
    have hmode := h.known t (by rcases hphase with hp | hp <;> simp [hp])
    have hdone : Orderly mode scope w.arrivals
          (didFinishTransaction mode scope w.coordinator t) ∧
        ∀ s ∈ (didFinishTransaction mode scope w.coordinator t).queued.toList,
          Waiting mode scope w.arrivals
            (didFinishTransaction mode scope w.coordinator t).started.toList
            (didFinishTransaction mode scope w.coordinator t).queued.toList s := by
      unfold didFinishTransaction
      split_ifs with hmem
      · refine Orderly.processStartedTransactions (h.orderly.mono ?_ ?_) ?_
        · exact ListSet.erase_sublist _ t
        · exact List.Subset.refl _
        · exact fun s hs => hqueued s (ListSet.mem_erase.mp hs).2
      · refine Orderly.processStartedTransactions (h.orderly.mono ?_ ?_) hqueued
        · exact List.Sublist.refl _
        · exact (ListSet.erase_sublist _ t).subset
    refine ⟨hdone.1, hdone.2, ?_, ?_⟩
    · intro s hs
      by_cases hst : s = t
      · simp [hst]
      · simpa [hst] using h.arrived s hs
    · intro s hs
      by_cases hst : s = t
      · exact hst ▸ hmode
      · exact h.known s (by simpa [hst] using hs)

omit [DecidableEq T] in
lemma Invariant.scheduled {w : World T} (h : Invariant mode scope w) : Scheduled mode scope w where
  exclusive := h.orderly.exclusive
  apart := h.orderly.apart
  ordered := h.orderly.ordered
  readOnly := fun t ht => by simp [(h.waiting t ht).1]
  maximal := fun t ht => (h.waiting t ht).2

variable (mode scope)

/-- In every run without version-change transactions the schedule is safe,
ordered and maximal at every moment. -/
theorem coordinator_scheduled (es : List (Event T)) (w : World T)
    (hrun : Reaches (Step mode scope) World.initial es w) : Scheduled mode scope w := by
  refine Invariant.scheduled (hrun.invariant (Invariant mode scope) invariant_initial ?_)
  intro w e w' hinv hs
  exact hinv.step hs

end

/-- Two read-write transactions on one store: the second one waits. -/
theorem coordinator_scheduled_two :
    ∃ w, Reaches (Step (fun _ : Bool => .readWrite) fun _ => {1}) World.initial
        [.didCreateTransaction false, .didStartTransaction false, .didCreateTransaction true,
          .didStartTransaction true] w ∧
      Scheduled (fun _ : Bool => .readWrite) (fun _ => {1}) w := by
  have hrun : Reaches (Step (fun _ : Bool => .readWrite) fun _ => {1}) World.initial
      [.didCreateTransaction false, .didStartTransaction false, .didCreateTransaction true,
        .didStartTransaction true] _ :=
    .snoc (.snoc (.snoc (.snoc .refl (.create _ false rfl (by simp))) (.start _ false (by simp)))
      (.create _ true (by simp [World.initial]) (by simp))) (.start _ true (by simp))
  exact ⟨_, hrun, coordinator_scheduled _ _ _ _ hrun⟩

end Chromium.TransactionCoordinator
