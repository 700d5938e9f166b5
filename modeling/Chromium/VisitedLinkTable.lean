import Chromium.LinearProbing
import Chromium.Runs
import Mathlib.Data.Set.Card

/-!
# The table of visited links

`components/visitedlink/browser/visitedlink_master.cc` and
`components/visitedlink/common/visitedlink_common.cc`: fingerprints in a hash table that is
probed linearly. A fingerprint is deleted by taking out all that comes behind it and putting the
rest back.
-/
namespace Chromium.VisitedLink

open LinearProbing

/-- A number of 64 bits. -/
abbrev Fingerprint := ℕ

def nullFingerprint : Fingerprint := 0

/-- `hash_table_` with `table_length_`, and `used_items_`. -/
structure Table where
  hashTable : List Fingerprint
  usedItems : ℤ

namespace Table

def tableLength (t : Table) : ℕ := t.hashTable.length

def fingerprintAt (t : Table) (i : ℕ) : Fingerprint := read nullFingerprint t.hashTable i

def hashFingerprint (t : Table) (fingerprint : Fingerprint) : ℕ := fingerprint % t.tableLength

/-- `CreateURLTable`, with nothing in the table. -/
def create (numEntries : ℕ) : Table := ⟨List.replicate numEntries nullFingerprint, 0⟩

/-- The loop that `IsVisited` and `AddFingerprint` have in common: where it finds the fingerprint
or an empty slot, unless it comes around to its beginning. -/
def probe (t : Table) (fingerprint : Fingerprint) : Option ℕ :=
  search nullFingerprint t.hashFingerprint t.hashTable fingerprint

def isVisited (t : Table) (fingerprint : Fingerprint) : Bool :=
  match t.probe fingerprint with
  | none => false
  | some i => t.fingerprintAt i ≠ nullFingerprint

/-- The slot is the hash that is returned; `none` is `null_hash_`. -/
def addFingerprint (t : Table) (fingerprint : Fingerprint) : Table × Option ℕ :=
  match t.probe fingerprint with
  | none => (t, none)
  | some i =>
    if t.fingerprintAt i = fingerprint then (t, none)
    else (⟨t.hashTable.set i fingerprint, t.usedItems + 1⟩, some i)

/-- The last slot before an empty one, or before the first again. -/
def endRangeLoop (t : Table) (deletedHash : ℕ) : ℕ → ℕ → ℕ
  | 0, endRange => endRange
  | fuel + 1, endRange =>
    let nextHash := increment t.tableLength endRange
    if nextHash = deletedHash then endRange
    else if t.fingerprintAt nextHash = nullFingerprint then endRange
    else endRangeLoop t deletedHash fuel nextHash

/-- The table, and what is to be put back. -/
structure Shuffle where
  table : Table
  shuffled : List Fingerprint

/-- One slot is cleared. All but the deleted fingerprint is kept, and not counted until it is
added again. -/
def takeOut (fingerprint : Fingerprint) (i : ℕ) (s : Shuffle) : Shuffle :=
  let current := s.table.fingerprintAt i
  let hashTable := s.table.hashTable.set i nullFingerprint
  if current ≠ fingerprint then
    ⟨⟨hashTable, s.table.usedItems - 1⟩, s.shuffled ++ [current]⟩
  else ⟨⟨hashTable, s.table.usedItems⟩, s.shuffled⟩

def shuffleLoop (fingerprint : Fingerprint) (stopLoop : ℕ) : ℕ → ℕ → Shuffle → Shuffle
  | 0, _, s => s
  | fuel + 1, i, s =>
    if i = stopLoop then s
    else
      shuffleLoop fingerprint stopLoop fuel (increment s.table.tableLength i)
        (takeOut fingerprint i s)

def addAll (t : Table) (fingerprints : List Fingerprint) : Table :=
  fingerprints.foldl (fun t fingerprint => (t.addFingerprint fingerprint).1) t

def deleteFingerprint (t : Table) (fingerprint : Fingerprint) : Table × Bool :=
  if t.tableLength = 0 then (t, false)
  else if ¬ t.isVisited fingerprint then (t, false)
  else
    let deletedHash := t.hashFingerprint fingerprint
    let endRange := t.endRangeLoop deletedHash t.tableLength deletedHash
    let s := shuffleLoop fingerprint (increment t.tableLength endRange) t.tableLength deletedHash
      ⟨⟨t.hashTable, t.usedItems - 1⟩, []⟩
    (s.table.addAll s.shuffled, true)

/-- The old table stays when the new one cannot be created. -/
def resizeTable (t : Table) (newSize : ℕ) (created : Bool) : Table :=
  if created then (create newSize).addAll (t.hashTable.filter (· ≠ nullFingerprint)) else t

end Table

/-! ### Sound tables -/

namespace Table

/-- The fingerprints that are stored. -/
def stored (t : Table) : List Fingerprint := items nullFingerprint t.hashTable

structure Sound (t : Table) : Prop where
  probed : Probed nullFingerprint t.hashFingerprint t.hashTable
  used : t.usedItems = t.stored.length

def NotFull (t : Table) : Prop := t.stored.length < t.tableLength

instance (t : Table) : Decidable t.NotFull := inferInstanceAs (Decidable (_ < _))

section Sound
variable {t : Table} {f : Fingerprint}

lemma NotFull.length_pos (h : t.NotFull) : 0 < t.tableLength := Nat.zero_lt_of_lt h

lemma hashFingerprint_lt (h : 0 < t.tableLength) (f : Fingerprint) :
    t.hashFingerprint f < t.hashTable.length :=
  Nat.mod_lt f h

lemma stored_ne (h : f ∈ t.stored) : f ≠ 0 := (mem_items.mp h).1

lemma probe_of_length (h : t.tableLength = 0) (f : Fingerprint) : t.probe f = none := by
  have hlength : t.hashTable.length = 0 := h
  rw [probe, search, hlength]
  rfl

/-- `IsVisited` tells what is stored. -/
theorem isVisited_iff (h : t.Sound) (f : Fingerprint) : t.isVisited f ↔ f ∈ t.stored := by
  by_cases hpos : 0 < t.tableLength
  case neg =>
    have hlength : t.hashTable.length = 0 := by
      rw [tableLength] at hpos
      omega
    rw [isVisited, probe_of_length hlength, stored, List.length_eq_zero_iff.mp hlength]
    simp [items]
  have hhash := hashFingerprint_lt hpos f
  by_cases hzero : f = 0
  · subst hzero
    have hnot : (0 : Fingerprint) ∉ t.stored := fun hmem => stored_ne hmem rfl
    simp only [hnot, iff_false, isVisited]
    cases hprobe : t.probe 0 with
    | none => simp
    | some i =>
      obtain ⟨-, hread, -⟩ := search_eq_some hhash hprobe
      have hnull : t.fingerprintAt i = nullFingerprint := hread.elim id id
      simp [hnull]
  · rw [stored, h.probed.mem_iff_search hzero hhash, isVisited]
    cases hprobe : t.probe f with
    | none =>
      rw [probe] at hprobe
      simp [hprobe]
    | some i =>
      have hsearch := hprobe
      rw [probe] at hsearch
      obtain ⟨-, hread, -⟩ := search_eq_some hhash hsearch
      simp only [hsearch, Option.some.injEq, exists_eq_left', decide_eq_true_eq]
      constructor
      · exact fun hne => hread.resolve_right hne
      · intro hfound hnull
        exact hzero (hfound.symm.trans hnull)

/-- What `AddFingerprint` does: nothing, or one more is stored. -/
theorem addFingerprint_spec (h : t.Sound) (hf : f ≠ 0) :
    (t.addFingerprint f).1.Sound ∧ (t.addFingerprint f).1.tableLength = t.tableLength ∧
      ((t.addFingerprint f).1 = t ∧ (f ∈ t.stored ∨ ¬ t.NotFull) ∨
        f ∉ t.stored ∧ (t.addFingerprint f).1.stored.Perm (f :: t.stored)) := by
  by_cases hpos : 0 < t.tableLength
  case neg =>
    rw [addFingerprint, probe_of_length (by omega)]
    exact ⟨h, rfl, .inl ⟨rfl, .inr fun hfull => hpos hfull.length_pos⟩⟩
  have hhash := hashFingerprint_lt hpos f
  have hmem := h.probed.mem_iff_search hf hhash
  rw [addFingerprint]
  cases hprobe : t.probe f with
  | none =>
    refine ⟨h, rfl, .inl ⟨rfl, .inr fun hfull => ?_⟩⟩
    obtain ⟨i, hi, hempty⟩ := exists_empty hfull
    obtain ⟨k, hk, rfl⟩ := exists_offset hhash hi
    have hnone := scan_eq_none hhash hprobe k hk
    rw [hempty] at hnone
    simp at hnone
  | some i =>
    obtain ⟨hi, hread, -⟩ := search_eq_some hhash hprobe
    dsimp only
    by_cases hfound : t.fingerprintAt i = f
    · rw [if_pos hfound]
      exact ⟨h, rfl, .inl ⟨rfl, .inl (hmem.mpr ⟨i, hprobe, hfound⟩)⟩⟩
    · rw [if_neg hfound]
      have hempty := hread.resolve_left hfound
      obtain ⟨hprobed, hnot⟩ := h.probed.insert hf hhash hprobe hempty
      have hlength : (t.hashTable.set i f).length = t.hashTable.length := List.length_set
      have hperm : (items nullFingerprint (t.hashTable.set i f)).Perm (f :: t.stored) :=
        items_set hi hempty hf
      have hsame : hashFingerprint ⟨t.hashTable.set i f, t.usedItems + 1⟩ = t.hashFingerprint := by
        funext g
        rw [hashFingerprint, hashFingerprint, tableLength, tableLength, hlength]
      refine ⟨⟨hsame ▸ hprobed, ?_⟩, hlength, .inr ⟨hnot, hperm⟩⟩
      rw [stored, hperm.length_eq, List.length_cons, h.used]
      push_cast
      rfl

end Sound

/-! ### Many fingerprints -/

section Add
variable {t : Table} {fs : List Fingerprint}

lemma length_le_addFingerprint (h : t.Sound) {f : Fingerprint} (hf : f ≠ 0) :
    t.stored.length ≤ (t.addFingerprint f).1.stored.length ∧
      (t.addFingerprint f).1.stored.length ≤ t.stored.length + 1 := by
  obtain ⟨-, -, ⟨heq, -⟩ | ⟨-, hperm⟩⟩ := addFingerprint_spec h hf
  · rw [heq]
    omega
  · rw [hperm.length_eq, List.length_cons]
    omega

/-- One fingerprint is added, where the table is not full after it. -/
lemma mem_addFingerprint (h : t.Sound) {f : Fingerprint} (hf : f ≠ 0)
    (hfull : (t.addFingerprint f).1.NotFull) (a : Fingerprint) :
    a ∈ (t.addFingerprint f).1.stored ↔ a = f ∨ a ∈ t.stored := by
  obtain ⟨-, -, ⟨heq, hin | hno⟩ | ⟨-, hperm⟩⟩ := addFingerprint_spec h hf
  · rw [heq]
    constructor
    · exact .inr
    · rintro (rfl | ha)
      · exact hin
      · exact ha
  · rw [heq] at hfull
    exact absurd hfull hno
  · rw [hperm.mem_iff, List.mem_cons]

/-- The empty fingerprint is taken for one that is there. -/
lemma addFingerprint_zero (t : Table) : (t.addFingerprint 0).1 = t := by
  rw [addFingerprint]
  by_cases hpos : 0 < t.tableLength
  · cases hprobe : t.probe 0 with
    | none => rfl
    | some i =>
      obtain ⟨-, hread, -⟩ := search_eq_some (hashFingerprint_lt hpos 0) hprobe
      exact congrArg Prod.fst (if_pos (hread.elim id id))
  · rw [probe_of_length (by omega)]

lemma addAll_filter (t : Table) (fs : List Fingerprint) :
    t.addAll fs = t.addAll (fs.filter (· ≠ 0)) := by
  induction fs generalizing t with
  | nil => rfl
  | cons f fs ih =>
    by_cases hf : f = 0
    · subst hf
      rw [List.filter_cons_of_neg (by simp), ← ih, addAll, List.foldl_cons, addFingerprint_zero]
      rfl
    · rw [List.filter_cons_of_pos (by simpa using hf)]
      exact ih _

/-- All of the fingerprints are added, where the table is not full in the end. -/
theorem addAll_spec (h : t.Sound) (hfs : ∀ f ∈ fs, f ≠ 0) :
    (t.addAll fs).Sound ∧ (t.addAll fs).tableLength = t.tableLength ∧
      t.stored.length ≤ (t.addAll fs).stored.length ∧
      (t.addAll fs).stored.length ≤ t.stored.length + fs.length ∧
      ((t.addAll fs).NotFull → ∀ a, a ∈ (t.addAll fs).stored ↔ a ∈ fs ∨ a ∈ t.stored) := by
  induction fs generalizing t with
  | nil => exact ⟨h, rfl, le_rfl, le_rfl, fun _ a => by simp [addAll]⟩
  | cons f fs ih =>
    rw [List.forall_mem_cons] at hfs
    obtain ⟨hsound, hlength, -⟩ := addFingerprint_spec h hfs.1
    obtain ⟨hle, hle'⟩ := length_le_addFingerprint h hfs.1
    obtain ⟨hsound', hlength', hmore, hmore', hmem⟩ := ih hsound hfs.2
    have hcons : t.addAll (f :: fs) = (t.addFingerprint f).1.addAll fs := rfl
    rw [hcons]
    refine ⟨hsound', hlength'.trans hlength, by omega, ?_, fun hfull a => ?_⟩
    · rw [List.length_cons]
      omega
    · have hfirst : (t.addFingerprint f).1.NotFull := by
        rw [NotFull] at hfull ⊢
        omega
      rw [hmem hfull, mem_addFingerprint h hfs.1 hfirst, List.mem_cons]
      tauto

lemma sound_create (n : ℕ) : (create n).Sound ∧ (create n).stored = [] := by
  have hnone : items nullFingerprint (List.replicate n nullFingerprint) = [] := by
    rw [items, List.filter_eq_nil_iff]
    simp
  refine ⟨⟨probed_empty n, ?_⟩, hnone⟩
  rw [stored, create, hnone]
  rfl

end Add

/-! ### Deleting -/

section Delete
variable {t : Table} {f : Fingerprint}

/-- The slots from the first one on are taken, up to the one that is found. -/
lemma endRangeLoop_spec {first k fuel : ℕ} (hfirst : first < t.tableLength)
    (hfuel : k + fuel = t.tableLength) (hpos : 0 < fuel)
    (htaken : ∀ j, j ≤ k → t.fingerprintAt ((first + j) % t.tableLength) ≠ 0) :
    ∃ m < t.tableLength,
      t.endRangeLoop first fuel ((first + k) % t.tableLength) = (first + m) % t.tableLength ∧
      (∀ j, j ≤ m → t.fingerprintAt ((first + j) % t.tableLength) ≠ 0) ∧
      (m + 1 = t.tableLength ∨ t.fingerprintAt ((first + (m + 1)) % t.tableLength) = 0) := by
  induction fuel generalizing k with
  | zero => omega
  | succ fuel ih =>
    rw [endRangeLoop]
    by_cases hlast : k + 1 = t.tableLength
    · rw [if_pos ((increment_offset (by omega) hfirst).mpr hlast)]
      exact ⟨k, by omega, rfl, htaken, .inl hlast⟩
    rw [if_neg (fun h => hlast ((increment_offset (by omega) hfirst).mp h)),
      increment_mod (by omega), Nat.add_assoc]
    by_cases hempty : t.fingerprintAt ((first + (k + 1)) % t.tableLength) = nullFingerprint
    · rw [if_pos hempty]
      exact ⟨k, by omega, rfl, htaken, .inr hempty⟩
    · rw [if_neg hempty]
      apply ih (by omega) (by omega)
      intro j hj
      rcases Nat.lt_or_eq_of_le hj with hlt | rfl
      · exact htaken j (by omega)
      · exact hempty

lemma hashTable_takeOut (f : Fingerprint) (i : ℕ) (s : Shuffle) :
    (takeOut f i s).table.hashTable = s.table.hashTable.set i nullFingerprint := by
  unfold takeOut
  dsimp only
  split_ifs <;> rfl

lemma tableLength_takeOut (f : Fingerprint) (i : ℕ) (s : Shuffle) :
    (takeOut f i s).table.tableLength = s.table.tableLength := by
  rw [tableLength, hashTable_takeOut, List.length_set]
  rfl

lemma fingerprintAt_takeOut {i : ℕ} {s : Shuffle} (hi : i < s.table.tableLength)
    (f : Fingerprint) (j : ℕ) : (takeOut f i s).table.fingerprintAt j =
      if j = i then 0 else s.table.fingerprintAt j := by
  rw [fingerprintAt, hashTable_takeOut]
  exact read_set hi nullFingerprint j

/-- What a part of the shuffle does: `run` is taken out of the slots. -/
structure TakesOut (f : Fingerprint) (first k m : ℕ) (s s' : Shuffle) (run : List Fingerprint) :
    Prop where
  length_eq : s'.table.tableLength = s.table.tableLength
  cleared : ∀ l, k ≤ l → l < m → s'.table.fingerprintAt ((first + l) % s.table.tableLength) = 0
  kept : ∀ i, (∀ l, k ≤ l → l < m → i ≠ (first + l) % s.table.tableLength) →
    s'.table.fingerprintAt i = s.table.fingerprintAt i
  shuffled : s'.shuffled = s.shuffled ++ run.filter (· ≠ f)
  stored : s.table.stored.Perm (run ++ s'.table.stored)
  used : s'.table.usedItems = s.table.usedItems - (run.filter (· ≠ f)).length
  mem_run : ∀ l, k ≤ l → l < m →
    s.table.fingerprintAt ((first + l) % s.table.tableLength) ∈ run

lemma TakesOut.none {first m : ℕ} {s : Shuffle} : TakesOut f first m m s s [] where
  length_eq := rfl
  cleared := fun l hl hlt => by omega
  kept := fun _ _ => rfl
  shuffled := (List.append_nil _).symm
  stored := .refl _
  used := by simp
  mem_run := fun l hl hlt => by omega

/-- One slot, and those behind it. -/
lemma TakesOut.cons {first k m : ℕ} {s s' : Shuffle} {run : List Fingerprint}
    (hk : k < m) (hm : m ≤ s.table.tableLength)
    (hne : s.table.fingerprintAt ((first + k) % s.table.tableLength) ≠ 0)
    (h : TakesOut f first (k + 1) m (takeOut f ((first + k) % s.table.tableLength) s) s' run) :
    TakesOut f first k m s s'
      (s.table.fingerprintAt ((first + k) % s.table.tableLength) :: run) := by
  have hi : (first + k) % s.table.tableLength < s.table.tableLength := Nat.mod_lt _ (by omega)
  set i := (first + k) % s.table.tableLength with hidef
  set current := s.table.fingerprintAt i with hcurrent
  have hlength := tableLength_takeOut f i s
  have hread := fingerprintAt_takeOut hi f
  have hother : ∀ l, k + 1 ≤ l → l < m → (first + l) % s.table.tableLength ≠ i := by
    intro l hl hlt heq
    have := offset_injective (by omega) (by omega) heq
    omega
  constructor
  · rw [h.length_eq, hlength]
  · intro l hl hlt
    rcases Nat.eq_or_lt_of_le hl with rfl | hl
    · rw [h.kept, ← hidef, hread, if_pos rfl]
      intro l hl hlt heq
      rw [hlength] at heq
      exact hother l hl hlt heq.symm
    · have hcleared := h.cleared l hl hlt
      rwa [hlength] at hcleared
  · intro j hj
    rw [h.kept j (fun l hl hlt => by rw [hlength]; exact hj l (by omega) hlt), hread,
      if_neg (hj k le_rfl hk)]
  · rw [h.shuffled]
    unfold takeOut
    dsimp only
    rw [← hcurrent]
    by_cases hf : current = f
    · simp [hf]
    · simp [hf]
  · have hstored := h.stored
    have hout : s.table.stored.Perm (current :: (takeOut f i s).table.stored) := by
      rw [Table.stored, Table.stored, hashTable_takeOut]
      exact items_clear hi hne
    exact hout.trans (hstored.cons current)
  · rw [h.used]
    unfold takeOut
    dsimp only
    rw [← hcurrent]
    by_cases hf : current = f
    · simp [hf]
    · simp only [ne_eq, hf, not_false_eq_true, if_true, List.filter_cons_of_pos, decide_true,
        List.length_cons]
      push_cast
      omega
  · intro l hl hlt
    rcases Nat.eq_or_lt_of_le hl with rfl | hl
    · exact List.mem_cons_self
    · have hmem := h.mem_run l hl hlt
      rw [hlength, hread, if_neg (hother l hl hlt)] at hmem
      exact List.mem_cons_of_mem _ hmem

/-- The loop takes out the slots from one on, up to where it stops. -/
lemma shuffleLoop_spec {first k m fuel : ℕ} {s : Shuffle} (hkm : k ≤ m)
    (hm : m < s.table.tableLength) (hfuel : s.table.tableLength ≤ fuel + k)
    (htaken : ∀ l, k ≤ l → l < m →
      s.table.fingerprintAt ((first + l) % s.table.tableLength) ≠ 0) :
    ∃ run, TakesOut f first k m s (shuffleLoop f ((first + m) % s.table.tableLength) fuel
      ((first + k) % s.table.tableLength) s) run := by
  induction fuel generalizing k s with
  | zero => omega
  | succ fuel ih =>
    rw [shuffleLoop]
    by_cases hstop : k = m
    · subst hstop
      rw [if_pos rfl]
      exact ⟨[], .none⟩
    have hne : (first + k) % s.table.tableLength ≠ (first + m) % s.table.tableLength := by
      intro heq
      exact hstop (offset_injective (by omega) hm heq)
    rw [if_neg hne, increment_mod (by omega), Nat.add_assoc]
    set i := (first + k) % s.table.tableLength with hi
    have hlt : i < s.table.tableLength := Nat.mod_lt _ (by omega)
    have hlength := tableLength_takeOut f i s
    obtain ⟨run, hrun⟩ := @ih (k + 1) (takeOut f i s) (by omega) (by omega) (by omega) (by
      intro l hl hlm
      have hother : (first + l) % s.table.tableLength ≠ i := by
        intro heq
        have := offset_injective (by omega) (by omega) heq
        omega
      rw [hlength, fingerprintAt_takeOut hlt, if_neg hother]
      exact htaken l (by omega) hlm)
    rw [hlength] at hrun
    exact ⟨_, hrun.cons (by omega) (by omega) (htaken k le_rfl (by omega))⟩

/-- Of the run that is taken out, the deleted fingerprint is the only one that is not put back. -/
lemma TakesOut.length_run {first m : ℕ} {s s' : Shuffle} {run : List Fingerprint}
    (hrun : TakesOut f first 0 m s s' run) (h : s.table.stored.Nodup) (hf : f ∈ run) :
    run.length = (run.filter (· ≠ f)).length + 1 := by
  have hnodup : run.Nodup := (List.nodup_append.mp ((hrun.stored.nodup_iff).mp h)).1
  have herase : run.erase f = run.filter (· ≠ f) := by
    rw [hnodup.erase_eq_filter]
    congr 1
    funext a
    by_cases ha : a = f <;> simp [ha]
  rw [← herase, List.length_erase_of_mem hf]
  have hpos := List.length_pos_of_mem hf
  omega

/-- The fingerprint is not left behind the run. -/
lemma TakesOut.notMem {first m : ℕ} {s' : Shuffle} {run : List Fingerprint} {used : ℤ}
    (hrun : TakesOut f first 0 m ⟨⟨t.hashTable, used⟩, []⟩ s' run) (h : t.Sound) (hf : f ∈ run) :
    f ∉ s'.table.stored := by
  have hnodup := (hrun.stored.nodup_iff).mp h.probed.nodup
  exact fun hmem => List.disjoint_of_nodup_append hnodup hf hmem

/-- The table without the run. -/
lemma TakesOut.sound {first m : ℕ} {s' : Shuffle} {run : List Fingerprint}
    (hrun : TakesOut f first 0 m ⟨⟨t.hashTable, t.usedItems - 1⟩, []⟩ s' run) (h : t.Sound)
    (hend : t.fingerprintAt ((first + m) % t.tableLength) = 0) (hf : f ∈ run) :
    s'.table.Sound ∧ s'.table.tableLength = t.tableLength ∧
      s'.table.stored.length + s'.shuffled.length + 1 = t.stored.length ∧
      ∀ a, a ∈ t.stored ↔ a ∈ run ∨ a ∈ s'.table.stored := by
  have hlength : s'.table.tableLength = t.tableLength := hrun.length_eq
  have hstored : t.stored.Perm (run ++ s'.table.stored) := hrun.stored
  have hrunLength := hrun.length_run h.probed.nodup hf
  have hall := hstored.length_eq
  rw [List.length_append] at hall
  have hshuffled : s'.shuffled.length = (run.filter (· ≠ f)).length := by
    rw [hrun.shuffled, List.nil_append]
  have hhash : s'.table.hashFingerprint = t.hashFingerprint := by
    funext g
    rw [hashFingerprint, hashFingerprint, hlength]
  refine ⟨⟨?_, ?_⟩, hlength, by omega, fun a => by rw [hstored.mem_iff, List.mem_append]⟩
  · rw [hhash]
    apply h.probed.clear hlength hend
    · exact fun l hl => hrun.cleared l (Nat.zero_le l) hl
    · exact fun i _ hi => hrun.kept i fun l _ hl => hi l hl
    · exact (List.nodup_append.mp ((hstored.nodup_iff).mp h.probed.nodup)).2.1
  · have hused := hrun.used
    have hbefore := h.used
    dsimp only at hused
    omega

/-- A fingerprint is deleted, and everything else stays. -/
theorem deleteFingerprint_spec (h : t.Sound) (hfull : t.NotFull) (f : Fingerprint) :
    (t.deleteFingerprint f).1.Sound ∧ (t.deleteFingerprint f).1.NotFull ∧
      (t.deleteFingerprint f).1.tableLength = t.tableLength ∧
      ∀ a, a ∈ (t.deleteFingerprint f).1.stored ↔ a ∈ t.stored ∧ a ≠ f := by
  have hpos := hfull.length_pos
  rw [deleteFingerprint, if_neg (by omega)]
  by_cases hvisited : t.isVisited f = true
  case neg =>
    rw [if_pos hvisited]
    have hnot : f ∉ t.stored := fun hmem => hvisited ((isVisited_iff h f).mpr hmem)
    refine ⟨h, hfull, rfl, fun a => ⟨fun ha => ⟨ha, ?_⟩, And.left⟩⟩
    rintro rfl
    exact hnot ha
  rw [if_neg (not_not.mpr hvisited)]
  dsimp only
  have hmem := (isVisited_iff h f).mp hvisited
  have hzero := stored_ne hmem
  set first := t.hashFingerprint f with hfirst
  have hlt : first < t.tableLength := hashFingerprint_lt hpos f
  have hstart : (first + 0) % t.tableLength = first := Nat.mod_eq_of_lt hlt
  -- the fingerprint stands in the run that begins at its hash
  obtain ⟨-, i, hi, hread⟩ := mem_items.mp hmem
  obtain ⟨k, hk, hik, hpath⟩ := h.probed.reach i hi (by rw [hread]; exact hzero)
  rw [hread] at hik hpath
  have hrun : ∀ j, j ≤ k → t.fingerprintAt ((first + j) % t.tableLength) ≠ 0 := by
    intro j hj
    rcases Nat.lt_or_eq_of_le hj with hjk | rfl
    · exact hpath j hjk
    · rw [hfirst, tableLength, ← hik, fingerprintAt, hread]
      exact hzero
  obtain ⟨m, hm, hend, htaken, hstop⟩ := @endRangeLoop_spec t first 0 t.tableLength hlt
    (Nat.zero_add _) hpos fun j hj => hrun j (by omega)
  rw [hstart] at hend
  obtain ⟨e, he, hempty⟩ := exists_empty hfull
  obtain ⟨l, hl, rfl⟩ := exists_offset hlt he
  have hml : m < l := by
    by_contra hle
    exact htaken l (not_lt.mp hle) hempty
  have hafter : t.fingerprintAt ((first + (m + 1)) % t.tableLength) = 0 :=
    hstop.resolve_left (by omega)
  have hkm : k ≤ m := by
    by_contra hle
    exact hrun (m + 1) (by omega) hafter
  rw [hend, increment_mod hpos, Nat.add_assoc]
  obtain ⟨run, hrun'⟩ := @shuffleLoop_spec f first 0 (m + 1) t.tableLength
    ⟨⟨t.hashTable, t.usedItems - 1⟩, []⟩ (Nat.zero_le _) (show m + 1 < t.tableLength by omega)
    (Nat.le_add_right _ _) fun l _ hl => htaken l (by omega)
  change TakesOut f first 0 (m + 1) _ (shuffleLoop f ((first + (m + 1)) % t.tableLength)
    t.tableLength ((first + 0) % t.tableLength) _) run at hrun'
  rw [hstart] at hrun'
  generalize shuffleLoop f ((first + (m + 1)) % t.tableLength) _ _ _ = s' at hrun' ⊢
  have hf : f ∈ run := by
    have hmemRun := hrun'.mem_run k (Nat.zero_le k) (by omega)
    have hslot : t.fingerprintAt ((first + k) % t.tableLength) = f := by
      rw [hfirst, tableLength, ← hik, fingerprintAt, hread]
    exact hslot ▸ hmemRun
  obtain ⟨hsound, hlength, hcount, hmemTable⟩ := hrun'.sound h hafter hf
  have hrest : ∀ a ∈ s'.shuffled, a ≠ 0 := by
    intro a ha
    rw [hrun'.shuffled, List.nil_append] at ha
    exact stored_ne ((hmemTable a).mpr (.inl (List.mem_of_mem_filter ha)))
  obtain ⟨hsound', hlength', -, hle, hmem'⟩ := addAll_spec hsound hrest
  have hfull' : (s'.table.addAll s'.shuffled).NotFull := by
    rw [NotFull] at hfull ⊢
    omega
  refine ⟨hsound', hfull', hlength'.trans hlength, fun a => ?_⟩
  rw [hmem' hfull' a, hmemTable a, hrun'.shuffled, List.nil_append, List.mem_filter]
  have hout := hrun'.notMem h hf
  by_cases haf : a = f
  · subst haf
    simp [hout]
  · simp [haf]

end Delete

/-- The fingerprints are put into a table that has room for all of them. -/
lemma addAll_create_spec {n : ℕ} {fs : List Fingerprint} (hfs : ∀ f ∈ fs, f ≠ 0)
    (hroom : fs.length < n) : ((create n).addAll fs).Sound ∧ ((create n).addAll fs).NotFull ∧
      ((create n).addAll fs).stored.length ≤ fs.length ∧
      ∀ a, a ∈ ((create n).addAll fs).stored ↔ a ∈ fs := by
  obtain ⟨hsound, hnone⟩ := sound_create n
  obtain ⟨hsound', hlength, -, hle, hmem⟩ := @addAll_spec _ fs hsound hfs
  rw [hnone, List.length_nil, Nat.zero_add] at hle
  have hfull : ((create n).addAll fs).NotFull := by
    rw [NotFull, hlength, create, tableLength, List.length_replicate]
    exact Nat.lt_of_le_of_lt hle hroom
  refine ⟨hsound', hfull, hle, fun a => (hmem hfull a).trans ?_⟩
  simp [hnone]

/-- All but empty slots are put into a new table. -/
theorem resizeTable_spec {t : Table} (h : t.Sound) {newSize : ℕ} {created : Bool}
    (hfull : (t.resizeTable newSize created).NotFull) :
    (t.resizeTable newSize created).Sound ∧
      ∀ a, a ∈ (t.resizeTable newSize created).stored ↔ a ∈ t.stored := by
  rw [resizeTable] at hfull ⊢
  by_cases hcreated : created = true
  · rw [if_pos hcreated] at hfull ⊢
    obtain ⟨hsound, hnone⟩ := sound_create newSize
    obtain ⟨hsound', -, -, -, hmem⟩ :=
      @addAll_spec _ t.stored hsound fun f hf => stored_ne hf
    refine ⟨hsound', fun a => (hmem hfull a).trans ?_⟩
    simp [hnone]
  · rw [if_neg hcreated]
    exact ⟨h, fun a => Iff.rfl⟩

end Table

/-! ### Runs -/

inductive Op
  | addFingerprint (fingerprint : Fingerprint)
  | deleteFingerprint (fingerprint : Fingerprint)
  | resizeTable (newSize : ℕ) (created : Bool)
  deriving DecidableEq

namespace Op

def exec (t : Table) : Op → Table
  | addFingerprint fingerprint => (t.addFingerprint fingerprint).1
  | deleteFingerprint fingerprint => (t.deleteFingerprint fingerprint).1
  | resizeTable newSize created => t.resizeTable newSize created

def NonZero : Op → Prop
  | addFingerprint fingerprint => fingerprint ≠ 0
  | deleteFingerprint fingerprint => fingerprint ≠ 0
  | resizeTable _ _ => True

instance : DecidablePred NonZero := fun op => by
  cases op <;> (unfold NonZero; infer_instance)

end Op

/-- The table is not full after the step. -/
structure Step (t : Table) (op : Op) (t' : Table) : Prop where
  nonZero : op.NonZero
  eq_exec : t' = op.exec t
  notFull : t'.NotFull

/-- The fingerprint was added, and not deleted since. -/
def Added (ops : List Op) (f : Fingerprint) : Prop :=
  ∃ before after, ops = before ++ .addFingerprint f :: after ∧ .deleteFingerprint f ∉ after

/-- The fingerprint was deleted, and not added since. -/
def Deleted (ops : List Op) (f : Fingerprint) : Prop :=
  ∃ before after, ops = before ++ .deleteFingerprint f :: after ∧ .addFingerprint f ∉ after

section Last
variable {ops : List Op} {op : Op} {f : Fingerprint}

/-- The last operation of one kind, with none of the other behind it. -/
lemma last_snoc {a b : Op} (hab : a ≠ b) :
    (∃ before after, ops ++ [op] = before ++ a :: after ∧ b ∉ after) ↔
      op = a ∨ op ≠ b ∧ ∃ before after, ops = before ++ a :: after ∧ b ∉ after := by
  constructor
  · rintro ⟨before, after, heq, hnot⟩
    rcases List.eq_nil_or_concat after with rfl | ⟨after, last, rfl⟩
    · obtain ⟨-, hop⟩ := List.append_inj' heq rfl
      exact .inl (List.cons_eq_cons.mp hop).1
    · rw [List.concat_eq_append, ← List.cons_append, ← List.append_assoc] at heq
      obtain ⟨rfl, hop⟩ := List.append_inj' heq rfl
      obtain ⟨rfl, -⟩ := List.cons_eq_cons.mp hop
      rw [List.concat_eq_append, List.mem_append, List.mem_singleton, not_or] at hnot
      exact .inr ⟨fun h => hnot.2 h.symm, before, after, rfl, hnot.1⟩
  · rintro (rfl | ⟨hne, before, after, rfl, hnot⟩)
    · exact ⟨ops, [], rfl, List.not_mem_nil⟩
    · refine ⟨before, after ++ [op], by simp, ?_⟩
      rw [List.mem_append, List.mem_singleton, not_or]
      exact ⟨hnot, hne.symm⟩

lemma added_snoc : Added (ops ++ [op]) f ↔
    op = .addFingerprint f ∨ op ≠ .deleteFingerprint f ∧ Added ops f :=
  last_snoc nofun

lemma deleted_snoc : Deleted (ops ++ [op]) f ↔
    op = .deleteFingerprint f ∨ op ≠ .addFingerprint f ∧ Deleted ops f :=
  last_snoc nofun

lemma not_added_nil : ¬ Added [] f := by
  rintro ⟨before, after, heq, -⟩
  simp at heq

lemma not_deleted_nil : ¬ Deleted [] f := by
  rintro ⟨before, after, heq, -⟩
  simp at heq

end Last

/-- The table stands for a set. -/
structure Represents (t : Table) (visited : Fingerprint → Prop) : Prop where
  sound : t.Sound
  mem_iff : ∀ f, f ∈ t.stored ↔ visited f

namespace Represents
variable {t : Table} {visited : Fingerprint → Prop}

lemma isVisited_iff (h : Represents t visited) (f : Fingerprint) : t.isVisited f ↔ visited f :=
  (Table.isVisited_iff h.sound f).trans (h.mem_iff f)

lemma usedItems (h : Represents t visited) : t.usedItems = Set.ncard {f | visited f} := by
  have hset : {f | visited f} = (t.stored.toFinset : Set Fingerprint) := by
    ext f
    rw [Finset.mem_coe, List.mem_toFinset, h.mem_iff]
    rfl
  have hnodup : t.stored.Nodup := h.sound.probed.nodup
  rw [h.sound.used, hset, Set.ncard_coe_finset, List.toFinset_card_of_nodup hnodup]

end Represents

/-- One operation on the table is one on the set. -/
lemma Represents.step {t t' : Table} {ops : List Op} {op : Op} (h : Represents t (Added ops))
    (hfull : t.NotFull) (hstep : Step t op t') : Represents t' (Added (ops ++ [op])) := by
  obtain ⟨hnonZero, rfl, hfull'⟩ := hstep
  cases op with
  | addFingerprint g =>
    obtain ⟨hsound, -⟩ := Table.addFingerprint_spec h.sound hnonZero
    refine ⟨hsound, fun f => ?_⟩
    rw [added_snoc, ← h.mem_iff]
    exact (Table.mem_addFingerprint h.sound hnonZero hfull' f).trans (by simp [eq_comm])
  | deleteFingerprint g =>
    obtain ⟨hsound, -, -, hmem⟩ := Table.deleteFingerprint_spec h.sound hfull g
    refine ⟨hsound, fun f => ?_⟩
    rw [added_snoc, ← h.mem_iff]
    exact (hmem f).trans (by simp [eq_comm, and_comm])
  | resizeTable newSize created =>
    obtain ⟨hsound, hmem⟩ := Table.resizeTable_spec h.sound hfull'
    refine ⟨hsound, fun f => ?_⟩
    rw [added_snoc, ← h.mem_iff]
    exact (hmem f).trans (by simp)

/-- After a run from an empty table, what was added and not deleted is visited. -/
theorem represents_of_reaches {n : ℕ} {ops : List Op} {t : Table} (hn : 0 < n)
    (hrun : Runs.Reaches Step (.create n) ops t) : Represents t (Added ops) ∧ t.NotFull := by
  induction hrun with
  | refl =>
    obtain ⟨hsound, hnone⟩ := Table.sound_create n
    refine ⟨⟨hsound, fun f => ?_⟩, ?_⟩
    · simp [hnone, not_added_nil]
    · rw [Table.NotFull, hnone, Table.tableLength, Table.create, List.length_replicate]
      exact hn
  | snoc _ hstep ih => exact ⟨ih.1.step ih.2 hstep, hstep.notFull⟩

end Chromium.VisitedLink
