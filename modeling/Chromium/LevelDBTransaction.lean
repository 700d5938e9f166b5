import Chromium.Cursor
import Chromium.Runs

/-!
# Iterators of a LevelDB transaction

A transaction keeps its uncommitted writes in an ordered map over a snapshot of
the database; a removed key stays in the map as a delete marker. Its iterator
merges a cursor over the map with a cursor over the snapshot. Keys are of any
linearly ordered type, and the values, which the iteration never looks at, are
left out.
-/
namespace Chromium.LevelDBTransaction
open Cursor Runs

variable {K : Type*} [LinearOrder K]

/-- The keys of the snapshot and the records of `data_`, with their delete
markers. -/
structure Transaction (K : Type*) where
  snapshot : Finset K
  records : Finset K
  deleted : K → Bool

/-- The underlying iterators. -/
inductive Source
  | data
  | db
  deriving DecidableEq, Repr

/-- `TransactionIterator`: two cursors, the one it currently stands at, the
direction of travel, and whether records were added since the last refresh. -/
structure Iterator (K : Type*) where
  data : Option K
  db : Option K
  current : Option Source
  direction : Direction
  dataChanged : Bool

structure State (K : Type*) where
  transaction : Transaction K
  iterator : Iterator K

/-- The iterator after its creation. -/
def Iterator.initial : Iterator K := ⟨none, none, none, .forward, false⟩

/-- The key of the current iterator, if there is one. -/
def Iterator.key (i : Iterator K) : Option K :=
  match i.current with
  | none => none
  | some .data => i.data
  | some .db => i.db

/-- `Set`: a new record notifies the iterators, an existing one is changed in
place. -/
def set (key : K) (deleted : Bool) (s : State K) : State K :=
  let t := s.transaction
  { transaction := { t with
      records := insert key t.records
      deleted := Function.update t.deleted key deleted }
    iterator :=
      if key ∈ t.records then s.iterator else { s.iterator with dataChanged := true } }

def put (key : K) : State K → State K := set key false

def remove (key : K) : State K → State K := set key true

/-- The number of records a data cursor has not left yet. -/
def remaining (d : Direction) (records : Finset K) : Option K → ℕ
  | none => 0
  | some k => match d with
    | .forward => (records.filter (k < ·)).card + 1
    | .reverse => (records.filter (· < k)).card + 1

lemma remaining_step (d : Direction) (records : Finset K) (k : K) :
    remaining d records (step d records k) < remaining d records (some k) := by
  cases h : step d records k with
  | none => cases d <;> simp [remaining]
  | some k' =>
    obtain ⟨hmem, hahead⟩ := ahead_of_step h
    cases d with
    | forward =>
      have hahead : k < k' := hahead
      refine Nat.succ_lt_succ (Finset.card_lt_card ?_)
      refine (Finset.ssubset_iff_of_subset ?_).mpr ⟨k', by simp [hmem, hahead], by simp⟩
      exact Finset.monotone_filter_right _ fun x _ hx => lt_trans hahead hx
    | reverse =>
      have hahead : k' < k := hahead
      refine Nat.succ_lt_succ (Finset.card_lt_card ?_)
      refine (Finset.ssubset_iff_of_subset ?_).mpr ⟨k', by simp [hmem, hahead], by simp⟩
      exact Finset.monotone_filter_right _ fun x _ hx => lt_trans hx hahead

/-- The database cursor after the first half of the loop body: for equal keys
the data iterator takes precedence. -/
def yieldToData (t : Transaction K) (d : Direction) (data db : Option K) : Option K :=
  match data, db with
  | some k, some k' =>
    if k = k' then
      match d with
      | .forward => next t.snapshot k'
      | .reverse => prev t.snapshot k'
    else some k'
  | _, db => db

/-- Whether the data cursor is before the database cursor, or alone. -/
def dataIsFirst (d : Direction) (k : K) : Option K → Bool
  | none => true
  | some k' => match d with
    | .forward => k < k'
    | .reverse => k' < k

/-- `HandleConflictsAndDeletes`: skip over delete markers until the data
iterator catches up with the database iterator. -/
def handleConflictsAndDeletes (t : Transaction K) (d : Direction) (data db : Option K) :
    Option K × Option K :=
  let db' := yieldToData t d data db
  match data with
  | none => (none, db')
  | some k =>
    if t.deleted k ∧ dataIsFirst d k db' then
      handleConflictsAndDeletes t d (step d t.records k) db'
    else (some k, db')
termination_by remaining d t.records data
decreasing_by exact remaining_step d t.records k

/-- `SetCurrentIteratorToSmallestKey` and `SetCurrentIteratorToLargestKey`. -/
def setCurrent (d : Direction) (data db : Option K) : Option Source :=
  match data, db with
  | none, none => none
  | some _, none => some .data
  | none, some _ => some .db
  | some k, some k' =>
    match d with
    | .forward => if k' < k then some .db else some .data
    | .reverse => if k < k' then some .db else some .data

/-- The common end of every move. -/
def settle (s : State K) : State K :=
  let cursors := handleConflictsAndDeletes s.transaction s.iterator.direction s.iterator.data
    s.iterator.db
  { s with iterator := { s.iterator with
      data := cursors.1
      db := cursors.2
      current := setCurrent s.iterator.direction cursors.1 cursors.2 } }

def seek (target : K) (s : State K) : State K :=
  settle { s with iterator := { s.iterator with
    data := lowerBound s.transaction.records target
    db := lowerBound s.transaction.snapshot target
    direction := .forward } }

def seekToLast (s : State K) : State K :=
  settle { s with iterator := { s.iterator with
    data := largest s.transaction.records
    db := largest s.transaction.snapshot
    direction := .reverse } }

/-- Seek a cursor to the first key after `k`. -/
def seekAfter (keys : Finset K) (k : K) : Option K :=
  if lowerBound keys k = some k then next keys k else lowerBound keys k

/-- Seek a cursor to the last key before `k`, as `Prev` does. -/
def seekBefore (keys : Finset K) (k : K) : Option K :=
  match lowerBound keys k with
  | some k' => prev keys k'
  | none => largest keys

/-- `RefreshDataIterator`, for a database iterator at `k`. Going backward it
steps back only from a valid position, unlike `Prev`. -/
def refreshedData (records : Finset K) (d : Direction) (k : K) : Option K :=
  match d with
  | .forward => seekAfter records k
  | .reverse =>
    match lowerBound records k with
    | some k' => prev records k'
    | none => none

def refreshDataIterator (s : State K) : State K :=
  let i := s.iterator
  if i.data.isSome ∧ i.current = some .data then
    { s with iterator := { i with dataChanged := false } }
  else
    match i.db with
    | none => { s with iterator := { i with dataChanged := false } }
    | some k =>
      { s with iterator := { i with
          data := refreshedData s.transaction.records i.direction k
          dataChanged := false } }

def refreshIfChanged (s : State K) : State K :=
  if s.iterator.dataChanged then refreshDataIterator s else s

/-- `Key()`, which refreshes first. -/
def key (s : State K) : State K := if s.iterator.current = none then s else refreshIfChanged s

/-- Turn around: reposition the iterator that is not current with `reposition`. -/
def turn (d : Direction) (reposition : Finset K → K → Option K) (s : State K) : State K :=
  if s.iterator.direction = d then s
  else
    match s.iterator.current, s.iterator.key with
    | some .db, some k =>
      { s with iterator := { s.iterator with
          data := reposition s.transaction.records k
          direction := d } }
    | some .data, some k =>
      { s with iterator := { s.iterator with
          db := reposition s.transaction.snapshot k
          direction := d } }
    | _, _ => s

/-- Move the current iterator one step. -/
def advanceCurrent (d : Direction) (s : State K) : State K :=
  match s.iterator.current with
  | some .data =>
    { s with iterator := { s.iterator with
        data := s.iterator.data.bind (step d s.transaction.records) } }
  | some .db =>
    { s with iterator := { s.iterator with
        db := s.iterator.db.bind (step d s.transaction.snapshot) } }
  | none => s

/-- `Next`; only while valid. -/
def nextKey (s : State K) : State K :=
  if s.iterator.current = none then s
  else settle (advanceCurrent .forward (turn .forward seekAfter (refreshIfChanged s)))

/-- `Prev`; only while valid. -/
def prevKey (s : State K) : State K :=
  if s.iterator.current = none then s
  else settle (advanceCurrent .reverse (turn .reverse seekBefore (refreshIfChanged s)))

/-- The snapshot overlaid with the uncommitted writes. -/
def view (t : Transaction K) : Finset K :=
  (t.snapshot \ t.records) ∪ t.records.filter fun k => t.deleted k = false

inductive Event (K : Type*)
  | seek (target : K)
  | seekToLast
  | next
  | prev
  | key
  | put (k : K)
  | remove (k : K)

def apply (s : State K) : Event K → State K
  | .seek target => seek target s
  | .seekToLast => seekToLast s
  | .next => nextKey s
  | .prev => prevKey s
  | .key => key s
  | .put k => put k s
  | .remove k => remove k s

/-- One call on the transaction or on its iterator, `Next` and `Prev` only while
the iterator is valid. -/
def Step (s : State K) (e : Event K) (s' : State K) : Prop :=
  (e = .next ∨ e = .prev → s.iterator.current ≠ none) ∧ s' = apply s e

/-- Where a call leaves the iterator. It is valid exactly when it has a key. -/
def Lands (s : State K) (e : Event K) (s' : State K) : Prop :=
  (s'.iterator.current = none ↔ s'.iterator.key = none) ∧
  match e with
  | .seek target => At .forward (view s'.transaction) (target ≤ ·) s'.iterator.key
  | .seekToLast => At .reverse (view s'.transaction) (fun _ => True) s'.iterator.key
  | .next => ∀ k, s.iterator.key = some k →
      At .forward (view s'.transaction) (k < ·) s'.iterator.key
  | .prev => ∀ k, s.iterator.key = some k →
      At .reverse (view s'.transaction) (· < k) s'.iterator.key
  | .key => s'.iterator.key = s.iterator.key
  | .put _ => s'.iterator.key = s.iterator.key
  | .remove _ => s'.iterator.key = s.iterator.key

end Chromium.LevelDBTransaction
