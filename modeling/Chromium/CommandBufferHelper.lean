import Chromium.Runs
import Chromium.CommandBufferService

/-!
# The put offset that the service knows

`gpu/command_buffer/client/cmd_buffer_helper.cc` on a `CommandBufferService` in the same process:
the helper remembers the last put offset it has sent and sends none twice. The ring may be freed
and is allocated again at the next use. What the service makes of the commands is left open, and so
is when it comes to them.
-/
namespace Chromium.CommandBufferHelper

open Runs CommandBufferService

/-- What a call of `Flush` found when it was made, and the service's put offset when it returned. -/
structure FlushRecord where
  put : ℤ
  lastPutSent : ℤ
  haveRingBuffer : Bool
  sent : Bool
  servicePut : ℤ
  deriving DecidableEq

/-- The helper with its service. `sent` says whether a put offset was sent since the ring was
allocated, and `flushed` keeps all calls of `Flush` on a usable helper. -/
structure World where
  haveRingBuffer : Bool
  totalEntryCount : ℤ
  put : ℤ
  lastPutSent : ℤ
  commandsIssued : ℕ
  usable : Bool
  flushAutomatically : Bool
  service : State
  sent : Bool
  flushed : List FlushRecord

/-- The helper and the service as they are constructed. -/
def World.initial (flushAutomatically : Bool) : World where
  haveRingBuffer := false
  totalEntryCount := 0
  put := 0
  lastPutSent := 0
  commandsIssued := 0
  usable := true
  flushAutomatically := flushAutomatically
  service := ⟨0, 0, 0, false, .setBuffer 0, []⟩
  sent := false
  flushed := []

/-- The commands the service comes to, with what the ring holds and the handler does. -/
abbrev Work := List ((ℤ → ℕ) × Handling)

def serve (work : Work) (s : State) : State :=
  work.foldl (fun s w => processCommand w.1 w.2 s) s

/-- `SetGetBuffer` on a service that has seen errors or not. -/
def setRing (n : ℕ) (s : State) : State :=
  { s with numEntries := n, putOffset := 0, getOffset := 0, parser := .setBuffer n }

/-- `DestroyTransferBuffer` of the ring. -/
def destroyRing (s : State) : State := { s with numEntries := 0, putOffset := 0, getOffset := 0 }

/-- `AllocateRingBuffer` of `n` entries. There may be no memory for it. -/
def allocateRingBuffer (n : ℕ) (created : Bool) (w : World) : World :=
  if ¬ w.usable ∨ w.haveRingBuffer then w
  else if ¬ created then { w with usable := false }
  else { w with
    haveRingBuffer := true
    totalEntryCount := n
    put := 0
    service := setRing n w.service
    sent := false }

/-- `FlushSync` on a usable helper, up to its result. -/
def flushSync (work : Work) (w : World) : World :=
  { w with
    lastPutSent := w.put
    service := serve work (CommandBufferService.flush w.put w.service)
    sent := true }

/-- `Flush` without the record of the call. -/
def sendPut (work : Work) (w : World) : World :=
  if w.lastPutSent ≠ w.put then flushSync work w else w

/-- `Flush` -/
def flush (work : Work) (w : World) : World :=
  if w.usable then
    let w' := sendPut work w
    { w' with flushed := w.flushed ++
      [⟨w.put, w.lastPutSent, w.haveRingBuffer, w.sent, w'.service.putOffset⟩] }
  else w

/-- `FreeResources` -/
def freeRingBuffer (w : World) : World :=
  if w.haveRingBuffer then
    { w with haveRingBuffer := false, service := destroyRing w.service, sent := false }
  else w

/-- A loop around `FlushSync`, as long as a condition holds. It is left with `false` when the
service has an error. -/
inductive Waits (condition : World → Prop) : World → Bool → World → Prop
  | done {w : World} (h : ¬ condition w) : Waits condition w true w
  | fail {w : World} (work : Work) (h : condition w)
      (herror : (flushSync work w).service.error = true) :
      Waits condition w false (flushSync work w)
  | again {w w' : World} {ok : Bool} (work : Work) (h : condition w)
      (herror : (flushSync work w).service.error = false)
      (hrest : Waits condition (flushSync work w) ok w') : Waits condition w ok w'

/-- `AvailableEntries` -/
def availableEntries (w : World) : ℤ :=
  (w.service.getOffset - w.put - 1 + w.totalEntryCount) % w.totalEntryCount

/-- The flush at the end of `WaitForAvailableEntries`, where `late` is what the clock says. -/
def flushIfDue (late : Bool) (work : Work) (w : World) : World :=
  let pending := (w.put + w.totalEntryCount - w.lastPutSent) % w.totalEntryCount
  let limit := w.totalEntryCount / (if w.service.getOffset = w.lastPutSent then 16 else 2)
  if limit < pending then flush work w
  else if w.flushAutomatically ∧ w.commandsIssued % 100 = 0 ∧ late then flush work w
  else w

/-- The wait for the reader to wrap, and the noops up to the end of the ring. -/
inductive WrapsAround (count : ℤ) : World → Bool → World → Prop
  | stays {w : World} (h : w.put + count ≤ w.totalEntryCount) : WrapsAround count w true w
  | fills {w w' : World} (h : w.totalEntryCount < w.put + count)
      (hwait : Waits (fun w => w.put < w.service.getOffset ∨ w.service.getOffset = 0) w true w') :
      WrapsAround count w true { w' with put := 0 }
  | fails {w w' : World} (h : w.totalEntryCount < w.put + count)
      (hwait : Waits (fun w => w.put < w.service.getOffset ∨ w.service.getOffset = 0) w false w') :
      WrapsAround count w false w'

/-- `WaitForAvailableEntries`. It returns early when the service has an error. -/
inductive WaitsForEntries (count : ℤ) : World → World → Prop
  | no_wrap {w w' : World} (h : WrapsAround count w false w') : WaitsForEntries count w w'
  | no_room {w w' w'' : World} (h : WrapsAround count w true w')
      (hwait : Waits (fun w => availableEntries w < count) w' false w'') :
      WaitsForEntries count w w''
  | room {w w' w'' : World} (late : Bool) (work : Work) (h : WrapsAround count w true w')
      (hwait : Waits (fun w => availableEntries w < count) w' true w'') :
      WaitsForEntries count w (flushIfDue late work w'')

/-- The space is taken whether the entries are available or not. -/
def takeEntries (count : ℤ) (w : World) : World :=
  { w with put := if w.put + count = w.totalEntryCount then 0 else w.put + count }

inductive Event
  | allocate
  | getSpace (entries : ℕ)
  | flush
  | flushSync
  | finish
  | freeRingBuffer
  | serve

/-- The calls of the client on a ring of `n` entries, and the service on its own. -/
inductive Step (n : ℕ) : World → Event → World → Prop
  | allocate (w : World) (created : Bool) : Step n w .allocate (allocateRingBuffer n created w)
  | getSpace_unusable (w : World) (entries : ℕ) (created : Bool)
      (h : (allocateRingBuffer n created w).usable = false) :
      Step n w (.getSpace entries) (allocateRingBuffer n created w)
  | getSpace (w w' : World) (entries : ℕ) (created : Bool) (hpos : 0 < entries)
      (hlt : entries < n) (h : (allocateRingBuffer n created w).usable = true)
      (hwait : WaitsForEntries entries { allocateRingBuffer n created w with
        commandsIssued := (allocateRingBuffer n created w).commandsIssued + 1 } w') :
      Step n w (.getSpace entries) (takeEntries entries w')
  | flush (w : World) (work : Work) : Step n w .flush (flush work w)
  | flushSync (w : World) (work : Work) (h : w.usable = true) :
      Step n w .flushSync (flushSync work w)
  | finish (w w' : World) (ok : Bool) (h : w.usable = true)
      (hwait : Waits (fun w => w.put ≠ w.service.getOffset) w ok w') : Step n w .finish w'
  | freeRingBuffer (w : World)
      (hcheck : w.put = w.service.getOffset ∨ w.service.error = true) :
      Step n w .freeRingBuffer (freeRingBuffer w)
  | serve (w : World) (work : Work) :
      Step n w .serve { w with service := serve work w.service }

/-! ### What the service keeps -/

variable {n : ℕ} {w w' : World}

@[simp] lemma serve_putOffset (work : Work) (s : State) :
    (serve work s).putOffset = s.putOffset := by
  induction work generalizing s with
  | nil => rfl
  | cons p work ih => exact ih _

@[simp] lemma serve_numEntries (work : Work) (s : State) :
    (serve work s).numEntries = s.numEntries := by
  induction work generalizing s with
  | nil => rfl
  | cons p work ih => exact ih _

@[simp] lemma flush_numEntries (putOffset : ℤ) (s : State) :
    (CommandBufferService.flush putOffset s).numEntries = s.numEntries := by
  rw [CommandBufferService.flush]
  split_ifs <;> rfl

/-- An offset is accepted from zero up to the number of entries. -/
lemma flush_putOffset (putOffset : ℤ) (s : State) :
    (CommandBufferService.flush putOffset s).putOffset =
      if 0 ≤ putOffset ∧ putOffset ≤ s.numEntries then putOffset else s.putOffset := by
  rw [CommandBufferService.flush]
  split_ifs with hrange hinside hinside
  · omega
  · rfl
  · rfl
  · omega

/-- The call found the ring allocated, an offset that the ring has, and no leftover of an earlier
ring in its way. -/
def FlushRecord.Regular (n : ℕ) (r : FlushRecord) : Prop :=
  r.put = 0 ∨ (r.haveRingBuffer = true ∧ r.put ≤ n ∧ (r.sent = true ∨ r.lastPutSent ≠ r.put))

/-- What holds between any two steps. -/
structure Invariant (n : ℕ) (w : World) : Prop where
  num_entries : w.service.numEntries = if w.haveRingBuffer then (n : ℤ) else 0
  put_nonneg : 0 ≤ w.put
  last_put_nonneg : 0 ≤ w.lastPutSent
  service_put : 0 ≤ w.service.putOffset ∧ w.service.putOffset ≤ w.service.numEntries
  sent : w.sent = true → w.lastPutSent ≤ w.service.numEntries →
    w.service.putOffset = w.lastPutSent
  not_sent : w.sent = false → w.service.putOffset = 0
  flushed : ∀ r ∈ w.flushed, r.servicePut = r.put ↔ r.Regular n

lemma invariant_initial (flushAutomatically : Bool) :
    Invariant n (.initial flushAutomatically) where
  num_entries := rfl
  put_nonneg := le_rfl
  last_put_nonneg := le_rfl
  service_put := ⟨le_rfl, le_rfl⟩
  sent := by simp [World.initial]
  not_sent := fun _ => rfl
  flushed := by simp [World.initial]

lemma Invariant.allocateRingBuffer (h : Invariant n w) (created : Bool) :
    Invariant n (allocateRingBuffer n created w) := by
  rw [CommandBufferHelper.allocateRingBuffer]
  by_cases hhave : ¬ w.usable ∨ w.haveRingBuffer
  · rw [if_pos hhave]
    exact h
  rw [if_neg hhave]
  by_cases hcreated : ¬ created
  · rw [if_pos hcreated]
    exact ⟨h.num_entries, h.put_nonneg, h.last_put_nonneg, h.service_put, h.sent, h.not_sent,
      h.flushed⟩
  · rw [if_neg hcreated]
    exact ⟨rfl, le_rfl, h.last_put_nonneg, ⟨le_rfl, Int.natCast_nonneg n⟩,
      (fun hfalse => by cases hfalse), fun _ => rfl, h.flushed⟩

lemma Invariant.freeRingBuffer (h : Invariant n w) : Invariant n (freeRingBuffer w) := by
  rw [CommandBufferHelper.freeRingBuffer]
  split_ifs with hhave
  · exact ⟨rfl, h.put_nonneg, h.last_put_nonneg, ⟨le_rfl, le_rfl⟩,
      (fun hfalse => by cases hfalse), fun _ => rfl, h.flushed⟩
  · exact h

lemma Invariant.flushSync (h : Invariant n w) (work : Work) :
    Invariant n (flushSync work w) := by
  have hput := h.put_nonneg
  have hservice := h.service_put
  refine ⟨?_, h.put_nonneg, h.put_nonneg, ?_, ?_, (fun hfalse => by cases hfalse), h.flushed⟩
  · exact (serve_numEntries _ _).trans ((flush_numEntries _ _).trans h.num_entries)
  · simp only [CommandBufferHelper.flushSync, serve_putOffset, serve_numEntries, flush_putOffset,
      flush_numEntries]
    split_ifs with hinside
    · exact hinside
    · exact hservice
  · rintro -
    simp only [CommandBufferHelper.flushSync, serve_putOffset, serve_numEntries, flush_putOffset,
      flush_numEntries]
    intro hle
    rw [if_pos ⟨hput, hle⟩]

lemma Invariant.sendPut (h : Invariant n w) (work : Work) : Invariant n (sendPut work w) := by
  rw [CommandBufferHelper.sendPut]
  split_ifs
  · exact h.flushSync work
  · exact h

/-- A call makes the offset visible exactly if it is regular. -/
lemma Invariant.sendPut_visible (h : Invariant n w) (work : Work) :
    (CommandBufferHelper.sendPut work w).service.putOffset = w.put ↔
      FlushRecord.Regular n ⟨w.put, w.lastPutSent, w.haveRingBuffer, w.sent,
        (CommandBufferHelper.sendPut work w).service.putOffset⟩ := by
  have hput := h.put_nonneg
  have hlast := h.last_put_nonneg
  have hservice := h.service_put
  have hentries := h.num_entries
  rw [FlushRecord.Regular, CommandBufferHelper.sendPut]
  dsimp only
  split_ifs with hchanged
  · -- the offset is sent, and the service looks at its range
    simp only [CommandBufferHelper.flushSync, serve_putOffset, flush_putOffset]
    cases hhave : w.haveRingBuffer with
    | false =>
      rw [hhave] at hentries
      simp only [Bool.false_eq_true, if_false] at hentries
      split_ifs with hinside
      · simp only [false_and, or_false]
        exact ⟨fun _ => by omega, fun _ => trivial⟩
      · simp only [false_and, or_false]
        omega
    | true =>
      rw [hhave] at hentries
      simp only [if_true] at hentries
      split_ifs with hinside
      · simp only [hchanged, ne_eq, not_false_eq_true, or_true, and_true, true_and, true_iff]
        omega
      · simp only [hchanged, ne_eq, not_false_eq_true, or_true, and_true, true_and]
        omega
  · -- nothing is sent, and the service knows what was sent on this ring
    rw [ne_eq, not_not] at hchanged
    cases hsent : w.sent with
    | true =>
      have hlast := h.sent hsent
      rw [hchanged] at hlast
      cases hhave : w.haveRingBuffer with
      | false =>
        rw [hhave] at hentries
        simp only [Bool.false_eq_true, if_false] at hentries
        simp only [false_and, or_false, Bool.false_eq_true]
        omega
      | true =>
        rw [hhave] at hentries
        simp only [if_true] at hentries
        simp only [true_or, and_true, true_and]
        omega
    | false =>
      have hzero := h.not_sent hsent
      simp only [Bool.false_eq_true, hchanged, ne_eq, not_true_eq_false, and_false, or_false]
      omega

lemma Invariant.flush (h : Invariant n w) (work : Work) : Invariant n (flush work w) := by
  rw [CommandBufferHelper.flush]
  split_ifs with husable
  · have hsend := h.sendPut work
    refine ⟨hsend.num_entries, hsend.put_nonneg, hsend.last_put_nonneg, hsend.service_put,
      hsend.sent, hsend.not_sent, ?_⟩
    intro r hr
    rcases List.mem_append.mp hr with hr | hr
    · exact h.flushed r hr
    · obtain rfl := List.mem_singleton.mp hr
      exact h.sendPut_visible work
  · exact h

lemma Invariant.waits {condition : World → Prop} {ok : Bool} (h : Invariant n w)
    (hwaits : Waits condition w ok w') : Invariant n w' := by
  induction hwaits with
  | done _ => exact h
  | fail work _ _ => exact h.flushSync work
  | again work _ _ _ ih => exact ih (h.flushSync work)

lemma Invariant.flushIfDue (h : Invariant n w) (late : Bool) (work : Work) :
    Invariant n (flushIfDue late work w) := by
  rw [CommandBufferHelper.flushIfDue]
  by_cases hdue : (w.totalEntryCount / if w.service.getOffset = w.lastPutSent then 16 else 2) <
      (w.put + w.totalEntryCount - w.lastPutSent) % w.totalEntryCount
  · rw [if_pos hdue]
    exact h.flush work
  rw [if_neg hdue]
  split_ifs
  · exact h.flush work
  · exact h

lemma Invariant.withPut (h : Invariant n w) {put : ℤ} (hput : 0 ≤ put) :
    Invariant n { w with put := put } :=
  ⟨h.num_entries, hput, h.last_put_nonneg, h.service_put, h.sent, h.not_sent, h.flushed⟩

lemma Invariant.wrapsAround {count : ℤ} {ok : Bool} (h : Invariant n w)
    (hwraps : WrapsAround count w ok w') : Invariant n w' := by
  cases hwraps with
  | stays _ => exact h
  | fills _ hwait => exact (h.waits hwait).withPut le_rfl
  | fails _ hwait => exact h.waits hwait

lemma Invariant.waitsForEntries {count : ℤ} (h : Invariant n w)
    (hwaits : WaitsForEntries count w w') : Invariant n w' := by
  cases hwaits with
  | no_wrap hwraps => exact h.wrapsAround hwraps
  | no_room hwraps hwait => exact (h.wrapsAround hwraps).waits hwait
  | room late work hwraps hwait => exact ((h.wrapsAround hwraps).waits hwait).flushIfDue late work

lemma Invariant.step {e : Event} (h : Invariant n w) (hstep : Step n w e w') :
    Invariant n w' := by
  cases hstep with
  | allocate created => exact h.allocateRingBuffer created
  | getSpace_unusable entries created _ => exact h.allocateRingBuffer created
  | getSpace w' entries created hpos hlt _ hwait =>
    have halloc := h.allocateRingBuffer created
    have hissued : Invariant n { CommandBufferHelper.allocateRingBuffer n created w with
        commandsIssued :=
          (CommandBufferHelper.allocateRingBuffer n created w).commandsIssued + 1 } :=
      ⟨halloc.num_entries, halloc.put_nonneg, halloc.last_put_nonneg, halloc.service_put,
        halloc.sent, halloc.not_sent, halloc.flushed⟩
    have hwaited := hissued.waitsForEntries hwait
    refine hwaited.withPut ?_
    have hput := hwaited.put_nonneg
    split_ifs
    · exact le_rfl
    · omega
  | flush work => exact h.flush work
  | flushSync work _ => exact h.flushSync work
  | finish _ ok _ hwait => exact h.waits hwait
  | freeRingBuffer _ => exact h.freeRingBuffer
  | serve work =>
    refine ⟨?_, h.put_nonneg, h.last_put_nonneg, ?_, ?_, ?_, h.flushed⟩
    · simpa using h.num_entries
    · simpa using h.service_put
    · simpa using h.sent
    · simpa using h.not_sent

/-- In each run, a call of `Flush` leaves the service with the put offset of the helper if and
only if it is regular. -/
theorem flush_visible_iff {flushAutomatically : Bool} {es : List Event}
    (h : Reaches (Step n) (.initial flushAutomatically) es w) :
    ∀ r ∈ w.flushed, r.servicePut = r.put ↔ r.Regular n :=
  (h.invariant (Invariant n) (invariant_initial flushAutomatically)
    (fun _ _ _ hinv hstep => hinv.step hstep)).flushed

/-- `GetSpace` where no wait is needed. -/
def getSpaceNow (n entries : ℕ) (w : World) : World :=
  takeEntries entries (flushIfDue false [] { allocateRingBuffer n true w with
    commandsIssued := (allocateRingBuffer n true w).commandsIssued + 1 })

lemma step_getSpaceNow {entries : ℕ} (hpos : 0 < entries) (hlt : entries < n)
    (husable : (allocateRingBuffer n true w).usable = true)
    (hput : (allocateRingBuffer n true w).put + entries ≤
      (allocateRingBuffer n true w).totalEntryCount)
    (hroom : entries ≤ availableEntries (allocateRingBuffer n true w)) :
    Step n w (.getSpace entries) (getSpaceNow n entries w) := by
  refine .getSpace w _ entries true hpos hlt husable ?_
  refine .room false [] (.stays hput) (.done ?_)
  exact not_lt.mpr hroom

theorem flush_visible_iff_once :
    (flush [] (getSpaceNow 8 2 (.initial false))).flushed.length = 1 ∧
      ∀ r ∈ (flush [] (getSpaceNow 8 2 (.initial false))).flushed,
        r.servicePut = r.put ↔ r.Regular 8 :=
  ⟨by decide, flush_visible_iff (.snoc (.snoc .refl (step_getSpaceNow (by decide) (by decide)
    (by decide) (by decide) (by decide))) (.flush _ _))⟩

/-- The first five entries are used, and the service has processed them. -/
def ringProcessed : World :=
  flush [(fun _ => 5, ⟨none, .noError⟩)] (getSpaceNow 8 5 (.initial false))

/-- On a second ring the same put offset is not sent again. -/
theorem flush_not_visible : ∃ w, Reaches (Step 8) (.initial false)
      [.getSpace 5, .flush, .freeRingBuffer, .getSpace 5, .flush] w ∧
    w.usable = true ∧ ∃ r ∈ w.flushed, r.servicePut ≠ r.put := by
  refine ⟨flush [] (getSpaceNow 8 5 (freeRingBuffer ringProcessed)), ?_, by decide,
    ⟨5, 5, true, false, 0⟩, ?_, by decide⟩
  · have hfirst : Step 8 (.initial false) (.getSpace 5) (getSpaceNow 8 5 (.initial false)) :=
      step_getSpaceNow (by decide) (by decide) (by decide) (by decide) (by decide)
    have hfree : Step 8 ringProcessed .freeRingBuffer (freeRingBuffer ringProcessed) :=
      .freeRingBuffer _ (.inl (by decide))
    have hsecond : Step 8 (freeRingBuffer ringProcessed) (.getSpace 5)
        (getSpaceNow 8 5 (freeRingBuffer ringProcessed)) :=
      step_getSpaceNow (by decide) (by decide) (by decide) (by decide) (by decide)
    exact .snoc (.snoc (.snoc (.snoc (.snoc .refl hfirst) (.flush _ _)) hfree) hsecond)
      (.flush _ _)
  · exact List.mem_append_right _ (List.mem_singleton.mpr (by decide))

end Chromium.CommandBufferHelper
