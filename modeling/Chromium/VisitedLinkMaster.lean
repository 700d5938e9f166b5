import Chromium.VisitedLinkTable
import Mathlib.Data.Finset.Sort

/-!
# The master of the visited links

`components/visitedlink/browser/visitedlink_master.cc`: URLs are added to the table and deleted
from it. While the table is rebuilt, the additions and deletions are kept as well, to be made
again on the new table.
-/
namespace Chromium.VisitedLink

/-- A `GURL`, with the `ComputeURLFingerprint` of its text and the salt of the table. -/
structure Url where
  isValid : Bool
  fingerprint : Fingerprint

/-- `table_builder_` is not null during a rebuild. -/
structure Master where
  table : Table
  addedSinceRebuild : Finset Fingerprint
  deletedSinceRebuild : Finset Fingerprint
  tableBuilder : Bool

/-- What a call finds outside: whether shared memory can be mapped, the first time it asks for it
and the second, and whether the load (a float) is within the limits of the table. -/
structure Outside where
  mapped : Bool
  mappedAgain : Bool
  withinLoad : ℤ → ℕ → Bool

def tableSizes : List ℤ :=
  [16381, 32767, 65521, 130051, 262127, 524269, 1048549, 2097143, 4194301, 8388571, 16777199,
    33554347]

/-- A number as an `int32`. -/
def int32 (x : ℤ) : ℤ := Int.bmod x (2 ^ 32)

def newTableSizeForCount (itemCount : ℤ) : ℤ :=
  let desired := int32 (itemCount * 3)
  match tableSizes.find? (· > desired) with
  | some size => size
  | none => int32 (itemCount * 2 - 1)

/-- Eight bytes a fingerprint, behind a header of twelve. -/
def allocSize (numEntries : ℤ) : ℤ := (numEntries * 8 + 12) % 2 ^ 32

/-- Whether `BeginReplaceURLTable` replaces the table. The memory has no more bytes than an
`int`. -/
def beginReplaceURLTable (numEntries : ℤ) (mapped : Bool) : Bool :=
  allocSize numEntries < 2 ^ 31 && mapped

namespace Master

def resizeTableIfNecessary (m : Master) (withinLoad : ℤ → ℕ → Bool) (mapped : Bool) :
    Master × Bool :=
  if withinLoad m.table.usedItems m.table.tableLength then (m, false)
  else
    let newSize := newTableSizeForCount m.table.usedItems
    ({ m with table := m.table.resizeTable newSize.toNat (beginReplaceURLTable newSize mapped) },
      true)

def deleteAll (t : Table) (fingerprints : List Fingerprint) : Table :=
  fingerprints.foldl (fun t fingerprint => (t.deleteFingerprint fingerprint).1) t

/-- The sets are read from their smallest fingerprint on. -/
def deleteFingerprintsFromCurrentTable (m : Master) (fingerprints : Finset Fingerprint)
    (withinLoad : ℤ → ℕ → Bool) (mapped : Bool) : Master :=
  let m := { m with table := deleteAll m.table fingerprints.sort }
  (m.resizeTableIfNecessary withinLoad mapped).1

/-- A table that is more than 80% full takes nothing more. -/
def tryToAddURL (m : Master) (url : Url) : Master × Option ℕ :=
  if ¬ url.isValid then (m, none)
  else
    let m :=
      if m.tableBuilder then
        { m with
          deletedSinceRebuild := m.deletedSinceRebuild.erase url.fingerprint
          addedSinceRebuild := insert url.fingerprint m.addedSinceRebuild }
      else m
    if m.table.usedItems.tdiv 8 > m.table.tableLength / 10 then (m, none)
    else
      let (table, hash) := m.table.addFingerprint url.fingerprint
      ({ m with table }, hash)

/-- One URL during a rebuild. -/
def deleteURL (m : Master) (url : Url) : Master :=
  if ¬ url.isValid then m
  else
    { m with
      deletedSinceRebuild := insert url.fingerprint m.deletedSinceRebuild
      addedSinceRebuild := m.addedSinceRebuild.erase url.fingerprint
      table := (m.table.deleteFingerprint url.fingerprint).1 }

def deleteURLs (m : Master) (urls : List Url) (o : Outside) : Master :=
  if urls.isEmpty then m
  else if m.tableBuilder then urls.foldl deleteURL m
  else
    let deletedFingerprints := ((urls.filter Url.isValid).map Url.fingerprint).toFinset
    m.deleteFingerprintsFromCurrentTable deletedFingerprints o.withinLoad o.mapped

/-- The new table gets what was found, then the additions, then the deletions. -/
def fillNewTable (m : Master) (newTableSize : ℕ) (fingerprints : List Fingerprint) (o : Outside) :
    Master :=
  let table := ((Table.create newTableSize).addAll fingerprints).addAll m.addedSinceRebuild.sort
  let m := { m with table, addedSinceRebuild := ∅ }
  { m.deleteFingerprintsFromCurrentTable m.deletedSinceRebuild o.withinLoad o.mappedAgain with
    deletedSinceRebuild := ∅ }

def onTableRebuildComplete (m : Master) (success : Bool) (fingerprints : List Fingerprint)
    (o : Outside) : Master :=
  let newTableSize :=
    newTableSizeForCount (int32 (fingerprints.length + m.addedSinceRebuild.card : ℕ))
  let m :=
    if success && beginReplaceURLTable newTableSize o.mapped then
      m.fillNewTable newTableSize.toNat fingerprints o
    else m
  { m with tableBuilder := false }

end Master

/-! ### Calls during a rebuild -/

inductive Call
  | tryToAddURL (url : Url)
  | deleteURLs (urls : List Url) (outside : Outside)

namespace Call

def exec (m : Master) : Call → Master
  | tryToAddURL url => (m.tryToAddURL url).1
  | deleteURLs urls outside => m.deleteURLs urls outside

/-- The operations on fingerprints that a call asks for. -/
def ops : Call → List Op
  | tryToAddURL url => if url.isValid then [.addFingerprint url.fingerprint] else []
  | deleteURLs urls _ =>
    (urls.filter Url.isValid).map fun url => .deleteFingerprint url.fingerprint

end Call

def execAll (m : Master) (calls : List Call) : Master := calls.foldl Call.exec m

def opsOf (calls : List Call) : List Op := calls.flatMap Call.ops

/-- The two sets hold what was added last, and what was deleted last. -/
structure KeepsOps (m : Master) (ops : List Op) : Prop where
  rebuilding : m.tableBuilder = true
  added : ∀ f, f ∈ m.addedSinceRebuild ↔ Added ops f
  deleted : ∀ f, f ∈ m.deletedSinceRebuild ↔ Deleted ops f

namespace KeepsOps
variable {m : Master} {ops : List Op}

lemma start {t : Table} : KeepsOps ⟨t, ∅, ∅, true⟩ [] where
  rebuilding := rfl
  added := fun f => by simp [not_added_nil]
  deleted := fun f => by simp [not_deleted_nil]

lemma tryToAddURL (h : KeepsOps m ops) (url : Url) :
    KeepsOps (m.tryToAddURL url).1 (ops ++ Call.ops (.tryToAddURL url)) := by
  rw [Master.tryToAddURL, Call.ops]
  by_cases hvalid : url.isValid = true
  case neg =>
    rw [if_pos hvalid, if_neg hvalid, List.append_nil]
    exact h
  rw [if_neg (not_not.mpr hvalid), if_pos hvalid, if_pos h.rebuilding]
  -- whether the table takes it or not, the sets are the same
  have hsets : ∀ t, KeepsOps ⟨t, insert url.fingerprint m.addedSinceRebuild,
      m.deletedSinceRebuild.erase url.fingerprint, m.tableBuilder⟩
      (ops ++ [.addFingerprint url.fingerprint]) := by
    intro t
    refine ⟨h.rebuilding, fun f => ?_, fun f => ?_⟩
    · rw [Finset.mem_insert, h.added, added_snoc]
      simp [eq_comm]
    · rw [Finset.mem_erase, h.deleted, deleted_snoc]
      simp [eq_comm]
  dsimp only
  split_ifs
  · exact hsets _
  · exact hsets _

lemma deleteURL (h : KeepsOps m ops) {url : Url} (hvalid : url.isValid = true) :
    KeepsOps (m.deleteURL url) (ops ++ [.deleteFingerprint url.fingerprint]) := by
  rw [Master.deleteURL, if_neg (not_not.mpr hvalid)]
  refine ⟨h.rebuilding, fun f => ?_, fun f => ?_⟩
  · rw [Finset.mem_erase, h.added, added_snoc]
    simp [eq_comm]
  · rw [Finset.mem_insert, h.deleted, deleted_snoc]
    simp [eq_comm]

lemma deleteURLs_foldl (h : KeepsOps m ops) (urls : List Url) :
    KeepsOps (urls.foldl Master.deleteURL m)
      (ops ++ (urls.filter Url.isValid).map fun url => .deleteFingerprint url.fingerprint) := by
  induction urls generalizing m ops with
  | nil =>
    rw [List.filter_nil, List.map_nil, List.append_nil]
    exact h
  | cons url urls ih =>
    rw [List.foldl_cons]
    by_cases hvalid : url.isValid = true
    · rw [List.filter_cons_of_pos hvalid, List.map_cons, ← List.singleton_append,
        ← List.append_assoc]
      exact ih (h.deleteURL hvalid)
    · rw [List.filter_cons_of_neg hvalid, Master.deleteURL, if_pos hvalid]
      exact ih h

lemma exec (h : KeepsOps m ops) (call : Call) : KeepsOps (call.exec m) (ops ++ call.ops) := by
  cases call with
  | tryToAddURL url => exact h.tryToAddURL url
  | deleteURLs urls outside =>
    rw [Call.exec, Call.ops, Master.deleteURLs]
    cases urls with
    | nil => simpa using h
    | cons url urls =>
      rw [List.isEmpty_cons, if_neg Bool.false_ne_true, if_pos h.rebuilding]
      exact h.deleteURLs_foldl (url :: urls)

/-- Over any interleaving of the calls. -/
theorem execAll (h : KeepsOps m ops) (calls : List Call) :
    KeepsOps (execAll m calls) (ops ++ opsOf calls) := by
  induction calls generalizing m ops with
  | nil =>
    rw [opsOf, List.flatMap_nil, List.append_nil]
    exact h
  | cons call calls ih =>
    rw [opsOf, List.flatMap_cons, ← List.append_assoc]
    exact ih (h.exec call)

end KeepsOps

/-! ### The end of the rebuild -/

/-- The table gets more slots than there are fingerprints, and its memory is small enough. -/
lemma newTableSizeForCount_spec {count : ℕ} (h : count < 2 ^ 27) :
    (count : ℤ) < newTableSizeForCount count ∧
      beginReplaceURLTable (newTableSizeForCount count) true = true := by
  have hthree : int32 (count * 3) = count * 3 := Int.bmod_eq_of_le (by omega) (by omega)
  have htwo : int32 (count * 2 - 1) = count * 2 - 1 := Int.bmod_eq_of_le (by omega) (by omega)
  have halloc : ∀ size : ℤ, 0 ≤ size → size < 2 ^ 28 - 2 →
      beginReplaceURLTable size true = true := by
    intro size hpos hlt
    rw [beginReplaceURLTable, allocSize, Bool.and_true, decide_eq_true_eq]
    omega
  rw [newTableSizeForCount, hthree]
  cases hfind : tableSizes.find? (· > (count * 3 : ℤ)) with
  | some size =>
    have hgt := List.find?_some hfind
    have hmem := List.mem_of_find?_eq_some hfind
    have hsizes : ∀ size ∈ tableSizes, 0 ≤ size ∧ size < 2 ^ 28 - 2 := by decide
    rw [decide_eq_true_eq] at hgt
    have hgt' : (count : ℤ) < size := by omega
    exact ⟨hgt', halloc size (hsizes size hmem).1 (hsizes size hmem).2⟩
  | none =>
    have hlarge := List.find?_eq_none.mp hfind 33554347 (by decide)
    rw [decide_eq_true_eq] at hlarge
    dsimp only
    rw [htwo]
    exact ⟨by omega, halloc _ (by omega) (by omega)⟩

section Complete
variable {m : Master}

lemma deleteAll_spec {t : Table} (h : t.Sound) (hfull : t.NotFull) (fs : List Fingerprint) :
    (Master.deleteAll t fs).Sound ∧ (Master.deleteAll t fs).NotFull ∧
      (Master.deleteAll t fs).stored.length ≤ t.stored.length ∧
      ∀ a, a ∈ (Master.deleteAll t fs).stored ↔ a ∈ t.stored ∧ a ∉ fs := by
  induction fs generalizing t with
  | nil => exact ⟨h, hfull, le_rfl, fun a => by simp [Master.deleteAll]⟩
  | cons f fs ih =>
    obtain ⟨hsound, hfull', -, hmem⟩ := Table.deleteFingerprint_spec h hfull f
    obtain ⟨hsound', hfull'', hle, hmem'⟩ := ih hsound hfull'
    have hless : (t.deleteFingerprint f).1.stored.length ≤ t.stored.length :=
      (hsound.probed.nodup.subperm fun a ha => ((hmem a).mp ha).1).length_le
    refine ⟨hsound', hfull'', hle.trans hless, fun a => (hmem' a).trans ?_⟩
    rw [hmem, List.mem_cons, not_or, and_assoc]

lemma resizeTableIfNecessary_spec (h : m.table.Sound) (hcount : m.table.stored.length < 2 ^ 27)
    (withinLoad : ℤ → ℕ → Bool) (mapped : Bool) :
    (m.resizeTableIfNecessary withinLoad mapped).1.table.Sound ∧
      ∀ a, a ∈ (m.resizeTableIfNecessary withinLoad mapped).1.table.stored ↔
        a ∈ m.table.stored := by
  rw [Master.resizeTableIfNecessary]
  split_ifs with hload
  · exact ⟨h, fun a => Iff.rfl⟩
  dsimp only
  obtain ⟨hlt, -⟩ := newTableSizeForCount_spec hcount
  rw [← h.used] at hlt
  cases hcreated : beginReplaceURLTable (newTableSizeForCount m.table.usedItems) mapped with
  | false => exact ⟨h, fun a => Iff.rfl⟩
  | true =>
    generalize newTableSizeForCount m.table.usedItems = size at hlt ⊢
    have hused := h.used
    obtain ⟨hsound, -, -, hmem⟩ := @Table.addAll_create_spec size.toNat m.table.stored
      (fun f hf => Table.stored_ne hf) (by omega)
    exact ⟨hsound, hmem⟩

lemma table_onTableRebuildComplete {fingerprints : List Fingerprint} {o : Outside}
    (h : beginReplaceURLTable (newTableSizeForCount
      (int32 (fingerprints.length + m.addedSinceRebuild.card : ℕ))) o.mapped = true) :
    (m.onTableRebuildComplete true fingerprints o).table =
      (m.fillNewTable (newTableSizeForCount (int32
        (fingerprints.length + m.addedSinceRebuild.card : ℕ))).toNat fingerprints o).table := by
  rw [Master.onTableRebuildComplete]
  generalize newTableSizeForCount _ = size at h ⊢
  rw [h]
  rfl

lemma represents_fillNewTable {ops : List Op} (h : KeepsOps m ops) {size : ℕ}
    {fingerprints : List Fingerprint} (o : Outside)
    (hcount : fingerprints.length + m.addedSinceRebuild.card < 2 ^ 27)
    (hsize : fingerprints.length + m.addedSinceRebuild.card < size) :
    Represents (m.fillNewTable size fingerprints o).table
      fun f => f ≠ 0 ∧ (f ∈ fingerprints ∨ Added ops f) ∧ ¬ Deleted ops f := by
  -- everything is added first
  set all := (fingerprints ++ m.addedSinceRebuild.sort).filter (· ≠ 0) with hall
  have hlength : all.length ≤ fingerprints.length + m.addedSinceRebuild.card := by
    rw [hall, ← Finset.length_sort (· ≤ ·), ← List.length_append]
    exact List.length_filter_le _ _
  have htable : ((Table.create size).addAll fingerprints).addAll m.addedSinceRebuild.sort =
      (Table.create size).addAll all := by
    rw [hall, ← Table.addAll_filter, Table.addAll, Table.addAll, Table.addAll, List.foldl_append]
  obtain ⟨hsound, hfull, hle, hmem⟩ := @Table.addAll_create_spec size all
    (fun f hf => by simpa using (List.mem_filter.mp hf).2) (by omega)
  -- then what was deleted is taken out
  obtain ⟨hsound', -, hless, hmem'⟩ := deleteAll_spec hsound hfull m.deletedSinceRebuild.sort
  rw [Master.fillNewTable, Master.deleteFingerprintsFromCurrentTable]
  dsimp only
  rw [htable]
  obtain ⟨hsound'', hmem''⟩ := @resizeTableIfNecessary_spec ⟨Master.deleteAll
    ((Table.create size).addAll all) m.deletedSinceRebuild.sort, ∅, m.deletedSinceRebuild,
    m.tableBuilder⟩ hsound' (by dsimp only; omega) o.withinLoad o.mappedAgain
  refine ⟨hsound'', fun f => (hmem'' f).trans ((hmem' f).trans ?_)⟩
  rw [hmem, hall, List.mem_filter, List.mem_append, Finset.mem_sort, Finset.mem_sort, h.added,
    h.deleted, decide_eq_true_eq]
  tauto

/-- The new table has what the rebuild found and what was added last, without what was deleted
last. -/
theorem represents_onTableRebuildComplete {ops : List Op} (h : KeepsOps m ops)
    {fingerprints : List Fingerprint} {o : Outside}
    (hcount : fingerprints.length + m.addedSinceRebuild.card < 2 ^ 27) (hmapped : o.mapped = true) :
    Represents (m.onTableRebuildComplete true fingerprints o).table
      fun f => f ≠ 0 ∧ (f ∈ fingerprints ∨ Added ops f) ∧ ¬ Deleted ops f := by
  obtain ⟨hlt, hbegin⟩ := newTableSizeForCount_spec hcount
  have hint : int32 (fingerprints.length + m.addedSinceRebuild.card : ℕ) =
      (fingerprints.length + m.addedSinceRebuild.card : ℕ) :=
    Int.bmod_eq_of_le (by omega) (by omega)
  rw [← hint] at hbegin
  rw [table_onTableRebuildComplete (by rw [hmapped]; exact hbegin), hint]
  generalize newTableSizeForCount _ = size at hlt
  exact represents_fillNewTable h o hcount (by omega)

end Complete

/-- The table is an exact set: in each state of a run in which it is never full, what was added
and not deleted since is visited, and after a rebuild whose table could be made, what was found or
added last and not deleted last. No fingerprint is stored twice, and the used items are counted. -/
theorem visited_exactly :
    (∀ (n : ℕ) (ops : List Op) (t : Table), 0 < n → Runs.Reaches Step (.create n) ops t →
      (∀ f, t.isVisited f ↔ Added ops f) ∧ t.usedItems = Set.ncard {f | Added ops f} ∧
        t.stored.Nodup) ∧
    ∀ (t : Table) (calls : List Call) (fingerprints : List Fingerprint) (o : Outside),
      fingerprints.length + (execAll ⟨t, ∅, ∅, true⟩ calls).addedSinceRebuild.card < 2 ^ 27 →
      o.mapped = true →
      let m := (execAll ⟨t, ∅, ∅, true⟩ calls).onTableRebuildComplete true fingerprints o
      let visited := fun f => f ≠ 0 ∧ (f ∈ fingerprints ∨ Added (opsOf calls) f) ∧
        ¬ Deleted (opsOf calls) f
      (∀ f, m.table.isVisited f ↔ visited f) ∧ m.table.usedItems = Set.ncard {f | visited f} ∧
        m.table.stored.Nodup := by
  constructor
  · intro n ops t hn hrun
    obtain ⟨h, -⟩ := represents_of_reaches hn hrun
    exact ⟨h.isVisited_iff, h.usedItems, h.sound.probed.nodup⟩
  · intro t calls fingerprints o hcount hmapped m visited
    have hkeeps : KeepsOps (execAll ⟨t, ∅, ∅, true⟩ calls) (opsOf calls) :=
      KeepsOps.start.execAll calls
    have h := represents_onTableRebuildComplete hkeeps hcount hmapped
    exact ⟨h.isVisited_iff, h.usedItems, h.sound.probed.nodup⟩

/-- Five is deleted from the cluster of nine; five is added during a rebuild that finds three and
seven, and three deleted. -/
theorem visited_exactly_five :
    let ops := [.addFingerprint 5, .addFingerprint 9, .deleteFingerprint 5]
    let t := ops.foldl Op.exec (.create 4)
    let o := ⟨true, true, fun _ _ => false⟩
    let calls := [.tryToAddURL ⟨true, 5⟩, .deleteURLs [⟨true, 3⟩] o]
    let m := (execAll ⟨t, ∅, ∅, true⟩ calls).onTableRebuildComplete true [3, 7] o
    (t.isVisited 9 ↔ Added ops 9) ∧
      (m.table.isVisited 5 ↔
        (5 ∈ [3, 7] ∨ Added (opsOf calls) 5) ∧ ¬ Deleted (opsOf calls) 5) := by
  intro ops t o calls m
  obtain ⟨hruns, hrebuilds⟩ := visited_exactly
  obtain ⟨hvisited, -⟩ := hruns 4 ops t (by decide) (.snoc (.snoc (.snoc .refl
    ⟨by decide, rfl, by decide⟩) ⟨by decide, rfl, by decide⟩) ⟨by decide, rfl, by decide⟩)
  obtain ⟨hrebuilt, -⟩ := hrebuilds t calls [3, 7] o (by decide) rfl
  exact ⟨hvisited 9, (hrebuilt 5).trans (and_iff_right (by decide))⟩

/-- No memory can be mapped for the new table: the old one stays, without what was found. -/
theorem found_not_visited : ¬ ∀ (t : Table) (calls : List Call) (fingerprints : List Fingerprint)
    (o : Outside) (f : Fingerprint), f ≠ 0 →
      (((execAll ⟨t, ∅, ∅, true⟩ calls).onTableRebuildComplete true fingerprints o).table.isVisited
        f ↔ (f ∈ fingerprints ∨ Added (opsOf calls) f) ∧ ¬ Deleted (opsOf calls) f) := by
  intro h
  have hseven := (h (.create 4) [] [7] ⟨false, false, fun _ _ => true⟩ 7 (by decide)).mpr
    ⟨.inl List.mem_cons_self, not_deleted_nil⟩
  exact absurd hseven (by decide)

end Chromium.VisitedLink
