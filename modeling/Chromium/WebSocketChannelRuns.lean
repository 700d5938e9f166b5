import Chromium.WebSocketChannel

/-!
# Runs of the WebSocket channel

Every frame is accepted before it is written, and the account of the renderer's quota is
balanced against the frames that were accepted. A Close frame is accepted only when there is
none yet, and it is the last one.
-/
namespace Chromium.WebSocket.Channel

open Runs

/-! ### What stands only at the end of a list -/

section OnlyLast
variable {α : Type*} {p : α → Prop} {l l' : List α}

/-- Nothing comes after an element with `p`; so there is at most one. -/
def OnlyLast (p : α → Prop) (l : List α) : Prop :=
  ∀ pre x post, l = pre ++ x :: post → p x → post = []

lemma onlyLast_of_forall_not (h : ∀ x ∈ l, ¬ p x) : OnlyLast p l := by
  intro pre x post hl hx
  exact absurd hx (h x (by simp [hl]))

lemma onlyLast_append_singleton (h : ∀ x ∈ l, ¬ p x) (y : α) : OnlyLast p (l ++ [y]) := by
  intro pre x post hl hx
  rcases List.eq_nil_or_concat post with hpost | ⟨post', z, hpost⟩
  · exact hpost
  · have hinit : l = pre ++ x :: post' := by
      have hsnoc : l ++ [y] = (pre ++ x :: post') ++ [z] := by simp [hl, hpost]
      exact List.append_inj_left' hsnoc rfl
    exact absurd hx (h x (by simp [hinit]))

lemma OnlyLast.of_append (h : OnlyLast p (l ++ l')) : OnlyLast p l := by
  intro pre x post hl hx
  have hpost := h pre x (post ++ l') (by simp [hl]) hx
  exact (List.append_eq_nil_iff.mp hpost).1

end OnlyLast

/-! ### The account of the renderer -/

def IsClose (frame : WebSocketFrame) : Prop := frame.header.opcode = kOpCodeClose

def IsDrop (event : Event) : Prop := ∃ code reason, event = .onDropChannel code reason

/-- What a frame takes from the quota: only the data of the renderer counts. -/
def dataSize (frame : WebSocketFrame) : ℕ :=
  if isKnownDataOpCode frame.header.opcode then frame.payload.length else 0

def dataBytes (frames : List WebSocketFrame) : ℕ := (frames.map dataSize).sum

def grant : Event → ℤ
  | .onFlowControl quota => quota
  | _ => 0

def grants (events : List Event) : ℤ := (events.map grant).sum

@[simp]
lemma grants_append (events events' : List Event) :
    grants (events ++ events') = grants events + grants events' := by
  simp [grants]

/-- The frames that were accepted, and what the renderer was told of them. -/
structure Balanced (frames : List WebSocketFrame) (quota : ℤ) (events : List Event)
    (deleted : Bool) : Prop where
  quota_eq : quota = grants events - dataBytes frames
  quota_nonneg : 0 ≤ quota
  quota_le : quota ≤ kDefaultSendQuotaHighWaterMark
  drop_last : OnlyLast IsDrop events
  no_drop : deleted = false → ∀ e ∈ events, ¬ IsDrop e
  close_last : OnlyLast IsClose frames

section Balanced
variable {frames : List WebSocketFrame} {quota : ℤ} {events : List Event} {deleted : Bool}

lemma Balanced.send (h : Balanced frames quota events false) {event : Event}
    (hgrant : grant event = 0) (hdrop : ¬ IsDrop event) (deleted : Bool) :
    Balanced frames quota (events ++ [event]) deleted := by
  have hno : ∀ e ∈ events ++ [event], ¬ IsDrop e := by
    intro e he
    rcases List.mem_append.mp he with he | he
    · exact h.no_drop rfl e he
    · rwa [List.mem_singleton.mp he]
  constructor
  · rw [h.quota_eq]
    simp [grants, hgrant]
  · exact h.quota_nonneg
  · exact h.quota_le
  · exact onlyLast_of_forall_not hno
  · exact fun _ => hno
  · exact h.close_last

/-- The quota is filled up, and the renderer is told by how much. -/
lemma Balanced.refill (h : Balanced frames quota events false) (deleted : Bool) :
    Balanced frames kDefaultSendQuotaHighWaterMark
      (events ++ [.onFlowControl (kDefaultSendQuotaHighWaterMark - quota)]) deleted := by
  have hno : ∀ e ∈ events ++ [Event.onFlowControl (kDefaultSendQuotaHighWaterMark - quota)],
      ¬ IsDrop e := by
    intro e he
    rcases List.mem_append.mp he with he | he
    · exact h.no_drop rfl e he
    · rw [List.mem_singleton.mp he]
      simp [IsDrop]
  constructor
  · have := h.quota_eq
    rw [grants_append]
    simp only [grants, List.map_cons, grant, List.map_nil, List.sum_cons, List.sum_nil] at *
    omega
  · decide
  · exact le_rfl
  · exact onlyLast_of_forall_not hno
  · exact fun _ => hno
  · exact h.close_last

lemma Balanced.drop (h : Balanced frames quota events false) (code : BitVec 16)
    (reason : List Byte) : Balanced frames quota (events ++ [.onDropChannel code reason]) true := by
  constructor
  · rw [h.quota_eq]
    simp [grants, grant]
  · exact h.quota_nonneg
  · exact h.quota_le
  · exact onlyLast_append_singleton (h.no_drop rfl) _
  · simp
  · exact h.close_last

/-- A frame is accepted while there is no Close frame, and its data is paid for. -/
lemma Balanced.accept (h : Balanced frames quota events deleted)
    (hclose : ∀ f ∈ frames, ¬ IsClose f) (frame : WebSocketFrame) (hpaid : dataSize frame ≤ quota) :
    Balanced (frames ++ [frame]) (quota - dataSize frame) events deleted := by
  constructor
  · rw [h.quota_eq]
    simp only [dataBytes, List.map_append, List.map_cons, List.map_nil, List.sum_append,
      List.sum_cons, List.sum_nil]
    push_cast
    omega
  · omega
  · have := h.quota_le
    omega
  · exact h.drop_last
  · exact h.no_drop
  · exact onlyLast_append_singleton hclose frame

end Balanced

/-! ### Writing -/

namespace World
variable {w : World}

/-- The frames that were accepted: those given to the stream and those that wait. -/
def queue (w : World) : List WebSocketFrame := w.written ++ w.dataToSendNext.getD []

/-- The same before `data_being_sent_` is given to the stream. -/
def toWrite (w : World) : List WebSocketFrame :=
  w.written ++ w.dataBeingSent.getD [] ++ w.dataToSendNext.getD []

/-- The account of the channel against some frames. -/
def BalancedWith (w : World) (frames : List WebSocketFrame) : Prop :=
  Balanced frames w.currentSendQuota w.events w.deleted

/-- What a write does once `frames` are accepted. -/
structure Wrote (frames : List WebSocketFrame) (w w' : World) : Prop where
  queue_eq : w'.queue = frames
  balanced : w'.BalancedWith frames
  slots : w'.deleted = false → w'.dataBeingSent = none → w'.dataToSendNext = none
  state_eq : w'.deleted = false → w'.state = w.state
  handled_eq : w'.handled = w.handled

lemma andThen_of_alive (h : w.deleted = false) (rest : World → World) :
    w.andThen rest = rest w := by
  simp [andThen, h]

lemma andThen_of_deleted (h : w.deleted = true) (rest : World → World) : w.andThen rest = w := by
  simp [andThen, h]

/-- The end of a write that nothing waits for fills the quota up when it is low. -/
lemma onWriteDone_ok_wrote (hbal : w.BalancedWith w.queue) (halive : w.deleted = false)
    (hnext : w.dataToSendNext = none) (rest : World → World) :
    Wrote w.queue w (onWriteDone rest .ok w) ∧
      (onWriteDone rest .ok w).dataBeingSent = none := by
  simp only [onWriteDone, hnext]
  split_ifs with hlow
  · refine ⟨⟨?_, ?_, ?_, ?_, ?_⟩, ?_⟩
    · simp [send, queue, hnext]
    · have hfill := hbal
      rw [BalancedWith, halive] at hfill
      have := hfill.refill ((w.answers.head? = some .deleted : Bool))
      simpa [BalancedWith, send] using this
    · simp [send]
    · simp [send]
    · simp [send]
    · simp [send]
  · refine ⟨⟨?_, hbal, ?_, ?_, ?_⟩, ?_⟩
    · simp [queue, hnext]
    · simp
    · simp
    · simp
    · simp

lemma onWriteDone_wrote (hbal : w.BalancedWith w.queue) (halive : w.deleted = false)
    {rest : World → World}
    (hrest : ∀ v : World, v.deleted = false → v.BalancedWith v.toWrite → v.dataBeingSent.isSome →
      Wrote v.toWrite v (rest v)) (result : WriteResult) :
    Wrote w.queue w (onWriteDone rest result w) := by
  cases result with
  | ok =>
    cases hnext : w.dataToSendNext with
    | none => exact (onWriteDone_ok_wrote hbal halive hnext rest).1
    | some frames =>
      have hqueue : World.toWrite
          { w with dataBeingSent := some frames, dataToSendNext := none } = w.queue := by
        simp [toWrite, queue, hnext]
      have hwrote := hrest { w with dataBeingSent := some frames, dataToSendNext := none }
        halive (by rw [hqueue]; exact hbal) rfl
      rw [hqueue] at hwrote
      simp only [onWriteDone, hnext]
      exact ⟨hwrote.queue_eq, hwrote.balanced, hwrote.slots, hwrote.state_eq, hwrote.handled_eq⟩
  | error =>
    rw [BalancedWith, halive] at hbal
    constructor
    · rfl
    · exact hbal.drop _ _
    · simp [onWriteDone, onDropChannel]
    · simp [onWriteDone, onDropChannel]
    · rfl

/-- The loop goes on after a synchronous result as `OnWriteDone` does after another. -/
lemma writeFramesLoop_some (halive : w.deleted = false) (hbal : w.BalancedWith w.toWrite)
    (result : WriteResult) (writes : List (Option WriteResult)) :
    writeFramesLoop (some result :: writes) w =
      onWriteDone (writeFramesLoop writes) result w.streamWrite := by
  rw [writeFramesLoop]
  cases result with
  | ok =>
    cases hnext : w.dataToSendNext with
    | none =>
      have hqueue : w.streamWrite.queue = w.toWrite := rfl
      have hdone := onWriteDone_ok_wrote (w := w.streamWrite) (by rw [hqueue]; exact hbal) halive
        hnext
      have heq : onWriteDone id .ok w.streamWrite =
          onWriteDone (writeFramesLoop writes) .ok w.streamWrite := by
        have hnext' : w.streamWrite.dataToSendNext = none := hnext
        simp only [onWriteDone, hnext']
      rw [heq, andThen]
      simp [(hdone (writeFramesLoop writes)).2]
    | some frames =>
      have hnext' : w.streamWrite.dataToSendNext = some frames := hnext
      have halive' : w.streamWrite.deleted = false := halive
      simp [onWriteDone, hnext', andThen, halive']
  | error => simp [onWriteDone, onDropChannel, andThen]

/-- The frames stay with the stream until the write ends. -/
lemma writePending_wrote (hbal : w.BalancedWith w.toWrite) (hbeing : w.dataBeingSent.isSome) :
    Wrote w.toWrite w { w.streamWrite with writePending := true } := by
  constructor
  · rfl
  · exact hbal
  · intro _ hnone
    have hnone' : w.dataBeingSent = none := hnone
    simp [hnone'] at hbeing
  · exact fun _ => rfl
  · rfl

lemma writeFramesLoop_wrote (writes : List (Option WriteResult)) (halive : w.deleted = false)
    (hbal : w.BalancedWith w.toWrite) (hbeing : w.dataBeingSent.isSome) :
    Wrote w.toWrite w (writeFramesLoop writes w) := by
  induction writes generalizing w with
  | nil => exact writePending_wrote hbal hbeing
  | cons result writes ih =>
    cases result with
    | none => exact writePending_wrote hbal hbeing
    | some result =>
      rw [writeFramesLoop_some halive hbal]
      have hwrote := onWriteDone_wrote (w := w.streamWrite) hbal halive
        (fun v halive hbal hbeing => ih halive hbal hbeing) result
      exact ⟨hwrote.queue_eq, hwrote.balanced, hwrote.slots, hwrote.state_eq, hwrote.handled_eq⟩

lemma sendIOBuffer_wrote (halive : w.deleted = false)
    (hslots : w.dataBeingSent = none → w.dataToSendNext = none) {fin : Bool} {opCode : BitVec 32}
    {buffer : Option (List Byte)}
    (hbal : w.BalancedWith (w.queue ++ [outgoing fin opCode buffer])) :
    Wrote (w.queue ++ [outgoing fin opCode buffer]) w (sendIOBuffer fin opCode buffer w) := by
  rw [sendIOBuffer]
  split_ifs with hbeing
  · constructor
    · simp [queue]
    · exact hbal
    · intro _ hnone
      have hnone' : w.dataBeingSent = none := hnone
      simp [hnone'] at hbeing
    · exact fun _ => rfl
    · rfl
  · have hnone : w.dataBeingSent = none := by simpa using hbeing
    have hqueue : World.toWrite { w with dataBeingSent := some [outgoing fin opCode buffer] } =
        w.queue ++ [outgoing fin opCode buffer] := by
      simp [toWrite, queue, hslots hnone]
    have hwrote := writeFramesLoop_wrote
      (w := { w with dataBeingSent := some [outgoing fin opCode buffer] }) w.writes halive
      (by rw [hqueue]; exact hbal) rfl
    rw [hqueue] at hwrote
    exact ⟨hwrote.queue_eq, hwrote.balanced, hwrote.slots, hwrote.state_eq, hwrote.handled_eq⟩

end World

/-! ### The bodies of Close frames -/

/-- A body that may be sent: nothing, or a code that is valid and a short reason. -/
def ValidBody (body : List Byte) : Prop :=
  body = [] ∨ ∃ (code : BitVec 16) (reason : List Byte),
    body = writeBigEndian kWebSocketCloseCodeLength code.toNat ++ reason ∧
      isStrictlyValidCloseStatusCode code ∧ reason.length ≤ kMaximumCloseReasonLength

lemma isStrictlyValidCloseStatusCode_iff (code : BitVec 16) :
    isStrictlyValidCloseStatusCode code ↔
      1000 ≤ code.toNat ∧ code.toNat < 1005 ∨ 1007 ≤ code.toNat ∧ code.toNat < 1014 ∨
        3000 ≤ code.toNat ∧ code.toNat < 5000 := by
  have hlt := code.isLt
  simp only [isStrictlyValidCloseStatusCode, kInvalidRanges, List.takeWhile_cons,
    List.takeWhile_nil, decide_eq_true_eq]
  split_ifs <;> simp <;> omega

lemma writeBigEndian_code_inj {code code' : BitVec 16}
    (h : writeBigEndian kWebSocketCloseCodeLength code.toNat =
      writeBigEndian kWebSocketCloseCodeLength code'.toNat) : code = code' := by
  have hread := congrArg readBigEndian h
  rw [readBigEndian_writeBigEndian (by exact code.isLt),
    readBigEndian_writeBigEndian (by exact code'.isLt)] at hread
  exact BitVec.eq_of_toNat_eq hread

lemma validBody_closeBody_iff (code : BitVec 16) (reason : List Byte) :
    ValidBody (World.closeBody code reason) ↔
      code = kWebSocketErrorNoStatusReceived ∨
        isStrictlyValidCloseStatusCode code ∧ reason.length ≤ kMaximumCloseReasonLength := by
  by_cases hnone : code = kWebSocketErrorNoStatusReceived
  · simp [World.closeBody, ValidBody, hnone]
  · rw [World.closeBody, if_neg hnone]
    constructor
    · rintro (hnil | ⟨code', reason', hbody, hvalid, hreason⟩)
      · have := congrArg List.length hnil
        simp [kWebSocketCloseCodeLength] at this
      · obtain ⟨hcode, hreason'⟩ := List.append_inj hbody (by simp)
        rw [writeBigEndian_code_inj hcode, hreason']
        exact Or.inr ⟨hvalid, hreason⟩
    · rintro (h | ⟨hvalid, hreason⟩)
      · exact absurd h hnone
      · exact Or.inr ⟨code, reason, rfl, hvalid, hreason⟩

/-- The peer's Close frame, met by a channel that is connected, can be answered: it has no code,
or code 1005, or a code that may be sent with a reason that is not too long. -/
def Harmless (isStringUTF8 : List Byte → Bool) (met : State × WebSocketFrame) : Prop :=
  met.1 = .connected → IsClose met.2 →
    met.2.payload.length < kWebSocketCloseCodeLength ∨
      let code := BitVec.ofNat 16 (readBigEndian (met.2.payload.take kWebSocketCloseCodeLength))
      let reason := met.2.payload.drop kWebSocketCloseCodeLength
      code = kWebSocketErrorNoStatusReceived ∨
        isStrictlyValidCloseStatusCode code ∧
          (isStringUTF8 reason → reason.length ≤ kMaximumCloseReasonLength)

lemma inRange_of_valid {code : BitVec 16}
    (h : code = kWebSocketErrorNoStatusReceived ∨ isStrictlyValidCloseStatusCode code) :
    kWebSocketNormalClosure ≤ code ∧ code ≤ kWebSocketErrorPrivateReservedMax := by
  have hlow : kWebSocketNormalClosure.toNat = 1000 := rfl
  have hhigh : kWebSocketErrorPrivateReservedMax.toNat = 4999 := rfl
  rw [isStrictlyValidCloseStatusCode_iff] at h
  rw [BitVec.le_def, BitVec.le_def, hlow, hhigh]
  rcases h with rfl | h
  · decide
  · omega

/-- The answer to the peer's Close frame may be sent exactly when the frame is harmless. -/
lemma validBody_parseClose_iff (isStringUTF8 : List Byte → Bool) {frame : WebSocketFrame}
    (hclose : IsClose frame) :
    ValidBody (World.closeBody (World.parseClose isStringUTF8 frame.payload).1
        (World.parseClose isStringUTF8 frame.payload).2) ↔
      Harmless isStringUTF8 (.connected, frame) := by
  rw [validBody_closeBody_iff]
  simp only [Harmless, hclose, forall_const, World.parseClose]
  by_cases hshort : frame.payload.length < kWebSocketCloseCodeLength
  · simp [hshort]
  · simp only [hshort, if_false, false_or]
    set code := BitVec.ofNat 16 (readBigEndian (frame.payload.take kWebSocketCloseCodeLength))
    by_cases hrange : kWebSocketNormalClosure ≤ code ∧ code ≤ kWebSocketErrorPrivateReservedMax
    · simp only [hrange, and_self, if_true]
      cases isStringUTF8 (frame.payload.drop kWebSocketCloseCodeLength) <;> simp
    · -- the channel answers with 1006, which may not be sent
      have hbad : ¬ (code = kWebSocketErrorNoStatusReceived ∨
          isStrictlyValidCloseStatusCode code) := fun h => hrange (inRange_of_valid h)
      rw [not_or] at hbad
      have habnormal : isStrictlyValidCloseStatusCode kWebSocketErrorAbnormalClosure = false := by
        decide
      have hcode : kWebSocketErrorAbnormalClosure ≠ kWebSocketErrorNoStatusReceived := by decide
      simp [hrange, hbad, habnormal, hcode]

/-! ### The invariant -/

def Echoes (isStringUTF8 : List Byte → Bool) (frames : List WebSocketFrame)
    (handled : List (State × WebSocketFrame)) : Prop :=
  (∀ f ∈ frames, IsClose f → ValidBody f.payload) ↔ ∀ met ∈ handled, Harmless isStringUTF8 met

namespace World
variable {isStringUTF8 : List Byte → Bool} {w w' : World} {frames : List WebSocketFrame}

/-- What holds also in the middle of a method. -/
structure Sound (isStringUTF8 : List Byte → Bool) (w : World) : Prop where
  balanced : w.BalancedWith w.queue
  slots : w.deleted = false → w.dataBeingSent = none → w.dataToSendNext = none
  echoes : Echoes isStringUTF8 w.queue w.handled

/-- What holds between the calls on a channel after the connection succeeded. -/
structure Inv (isStringUTF8 : List Byte → Bool) (w : World) : Prop
    extends Sound isStringUTF8 w where
  state_mem : w.deleted = false →
    w.state = .connected ∨ w.state = .sendClosed ∨ w.state = .closeWait
  no_close : w.deleted = false → w.state = .connected → ∀ f ∈ w.queue, ¬ IsClose f

lemma Sound.inv_of_deleted (h : Sound isStringUTF8 w) (hdel : w.deleted = true) :
    Inv isStringUTF8 w where
  toSound := h
  state_mem := by simp [hdel]
  no_close := by simp [hdel]

lemma Inv.andThen (h : Inv isStringUTF8 w) {rest : World → World}
    (hrest : w.deleted = false → Inv isStringUTF8 (rest w)) :
    Inv isStringUTF8 (w.andThen rest) := by
  cases hdel : w.deleted with
  | true =>
    rw [andThen_of_deleted hdel]
    exact h
  | false =>
    rw [andThen_of_alive hdel]
    exact hrest hdel

lemma Wrote.sound (h : Wrote frames w w') (hechoes : Echoes isStringUTF8 frames w.handled) :
    Sound isStringUTF8 w' where
  balanced := by
    rw [h.queue_eq]
    exact h.balanced
  slots := h.slots
  echoes := by
    rw [h.queue_eq, h.handled_eq]
    exact hechoes

/-- A frame that is not a Close frame is no answer to one. -/
lemma echoes_append_other {handled : List (State × WebSocketFrame)}
    (h : Echoes isStringUTF8 frames handled) {frame : WebSocketFrame} (hother : ¬ IsClose frame) :
    Echoes isStringUTF8 (frames ++ [frame]) handled := by
  unfold Echoes at h ⊢
  rw [← h]
  simp [or_imp, forall_and, hother]

lemma echoes_append_valid {handled : List (State × WebSocketFrame)}
    (h : Echoes isStringUTF8 frames handled) (frame : WebSocketFrame)
    (hvalid : ValidBody frame.payload) : Echoes isStringUTF8 (frames ++ [frame]) handled := by
  unfold Echoes at h ⊢
  rw [← h]
  simp [or_imp, forall_and, hvalid]

/-- A frame that is met and needs no answer. -/
lemma echoes_met {handled : List (State × WebSocketFrame)}
    (h : Echoes isStringUTF8 frames handled) {met : State × WebSocketFrame}
    (hharmless : Harmless isStringUTF8 met) :
    Echoes isStringUTF8 frames (handled ++ [met]) := by
  unfold Echoes at h ⊢
  rw [h]
  simp [or_imp, forall_and, hharmless]

/-! ### Sending -/

/-- A control frame costs nothing. -/
lemma accept_control (hbal : w.BalancedWith w.queue) (hclose : ∀ f ∈ w.queue, ¬ IsClose f)
    (fin : Bool) (opCode : BitVec 32) (buffer : Option (List Byte))
    (hcontrol : isKnownDataOpCode opCode = false) :
    w.BalancedWith (w.queue ++ [outgoing fin opCode buffer]) := by
  have hsize : dataSize (outgoing fin opCode buffer) = 0 := by
    simp [dataSize, outgoing, hcontrol]
  have haccept := Balanced.accept hbal hclose (outgoing fin opCode buffer)
    (by rw [hsize]; exact hbal.quota_nonneg)
  simpa [BalancedWith, hsize] using haccept

lemma sendClose_spec (halive : w.deleted = false) (hbal : w.BalancedWith w.queue)
    (hslots : w.dataBeingSent = none → w.dataToSendNext = none)
    (hclose : ∀ f ∈ w.queue, ¬ IsClose f) {code : BitVec 16} {reason : List Byte}
    (hechoes : Echoes isStringUTF8
      (w.queue ++ [outgoing true kOpCodeClose (some (closeBody code reason))]) w.handled) :
    Sound isStringUTF8 (sendClose code reason w) ∧
      ((sendClose code reason w).deleted = false →
        (sendClose code reason w).state =
          if w.state = .connected then .sendClosed else .closeWait) := by
  have hwrote := sendIOBuffer_wrote (w := { w with timerRunning := true }) halive hslots
    (accept_control hbal hclose true kOpCodeClose (closeBody code reason) rfl)
  have hsound := hwrote.sound hechoes
  unfold sendClose
  cases hdel : (sendIOBuffer true kOpCodeClose (some (closeBody code reason))
      { w with timerRunning := true }).deleted with
  | true =>
    rw [andThen_of_deleted hdel]
    exact ⟨hsound, by simp [hdel]⟩
  | false =>
    rw [andThen_of_alive hdel]
    refine ⟨⟨hsound.balanced, hsound.slots, hsound.echoes⟩, fun _ => ?_⟩
    have hstate := hwrote.state_eq hdel
    simp [hstate]

/-- The channel starts to close. -/
lemma Inv.sendClose (h : Inv isStringUTF8 w) (halive : w.deleted = false)
    (hstate : w.state = .connected) {code : BitVec 16} {reason : List Byte}
    (hvalid : ValidBody (closeBody code reason)) : Inv isStringUTF8 (sendClose code reason w) := by
  obtain ⟨hsound, hnew⟩ := sendClose_spec halive h.balanced (h.slots halive)
    (h.no_close halive hstate)
    (echoes_append_valid h.echoes (outgoing true kOpCodeClose (some (closeBody code reason)))
      hvalid)
  rw [hstate] at hnew
  constructor
  · exact hsound
  · intro hdel
    exact Or.inr (Or.inl (hnew hdel))
  · intro hdel hconn
    rw [hnew hdel] at hconn
    cases hconn

lemma Sound.onDropChannel (h : Sound isStringUTF8 w) (halive : w.deleted = false)
    (code : BitVec 16) (reason : List Byte) :
    Inv isStringUTF8 (onDropChannel code reason { w with state := .closed }) := by
  apply Sound.inv_of_deleted
  · constructor
    · have hbal := h.balanced
      rw [BalancedWith, halive] at hbal
      exact hbal.drop code reason
    · intro hdel
      cases hdel
    · exact h.echoes
  · rfl

lemma Inv.drop (h : Inv isStringUTF8 w) (code : BitVec 16) (reason : List Byte) :
    Inv isStringUTF8
      (w.andThen fun w => World.onDropChannel code reason { w with state := .closed }) :=
  h.andThen fun hdel => h.toSound.onDropChannel hdel code reason

lemma Inv.failChannel (h : Inv isStringUTF8 w) (halive : w.deleted = false) (expose : ExposeError)
    {code : BitVec 16} {reason : List Byte} (hvalid : ValidBody (closeBody code reason)) :
    Inv isStringUTF8 (failChannel expose code reason w) := by
  have hgoing : ValidBody (closeBody kWebSocketErrorGoingAway (text "Internal Error")) := by
    rw [validBody_closeBody_iff]
    decide
  unfold World.failChannel
  split_ifs with hconn hreal
  · exact (h.sendClose halive hconn hvalid).drop code reason
  · exact (h.sendClose halive hconn hgoing).drop code reason
  · exact h.drop code reason

/-- A frame other than a Close frame was sent on a channel that is connected. -/
lemma Inv.sendIOBuffer (h : Inv isStringUTF8 w) (halive : w.deleted = false)
    (hstate : w.state = .connected) {fin : Bool} {opCode : BitVec 32} {buffer : Option (List Byte)}
    {quota : ℤ} (hother : opCode ≠ kOpCodeClose)
    (hbal : Balanced (w.queue ++ [outgoing fin opCode buffer]) quota w.events w.deleted) :
    Inv isStringUTF8 (sendIOBuffer fin opCode buffer { w with currentSendQuota := quota }) := by
  have hwrote := sendIOBuffer_wrote (w := { w with currentSendQuota := quota }) halive
    (h.slots halive) hbal
  constructor
  · exact hwrote.sound (echoes_append_other h.echoes hother)
  · intro hdel
    exact Or.inl ((hwrote.state_eq hdel).trans hstate)
  · intro _ _ f hf
    rw [hwrote.queue_eq] at hf
    rcases List.mem_append.mp hf with hf | hf
    · exact h.no_close halive hstate f hf
    · rw [List.mem_singleton.mp hf]
      exact hother

/-! ### The renderer's calls -/

lemma Inv.sendFrame (h : Inv isStringUTF8 w) (halive : w.deleted = false) (fin : Bool)
    (opCode : BitVec 32) (data : List Byte) : Inv isStringUTF8 (sendFrame fin opCode data w) := by
  unfold World.sendFrame
  split_ifs with hmax hstream hclosing hstate hquota hopcode
  · exact h
  · exact h
  · exact h
  · exact h
  · apply h.failChannel halive
    rw [validBody_closeBody_iff]
    decide
  · exact h
  · have hconn : w.state = .connected := by simpa using hstate
    have hdata : isKnownDataOpCode opCode = true := by simpa using hopcode
    have hsize : dataSize (outgoing fin opCode (some data)) = data.length := by
      simp [dataSize, outgoing, WebSocketFrame.payload, hdata]
    have hother : opCode ≠ kOpCodeClose := by
      rintro rfl
      exact absurd hdata (by decide)
    have hbal := Balanced.accept h.balanced (h.no_close halive hconn)
      (outgoing fin opCode (some data)) (by rw [hsize]; omega)
    rw [hsize] at hbal
    exact h.sendIOBuffer halive hconn hother hbal

lemma Inv.startClosingHandshake (h : Inv isStringUTF8 w) (halive : w.deleted = false)
    (code : BitVec 16) (reason : List Byte) :
    Inv isStringUTF8 (startClosingHandshake isStringUTF8 code reason w) := by
  unfold World.startClosingHandshake
  split
  · exact h
  split
  · exact h
  rename_i hstate
  have hconn : w.state = .connected := by simpa using hstate
  split
  · apply h.sendClose halive hconn
    rw [validBody_closeBody_iff]
    decide
  · rename_i hinvalid
    simp only [Bool.or_eq_true, Bool.not_eq_true', decide_eq_true_eq, not_or,
      Bool.not_eq_false, not_lt] at hinvalid
    apply h.sendClose halive hconn
    rw [validBody_closeBody_iff]
    refine Or.inr ⟨hinvalid.1, ?_⟩
    split_ifs
    · exact hinvalid.2
    · exact Nat.zero_le _

/-! ### Reading -/

/-- A call on the event interface that grants nothing. -/
lemma Inv.send (h : Inv isStringUTF8 w) (halive : w.deleted = false) (event : Event)
    (hgrant : grant event = 0) (hdrop : ¬ IsDrop event) : Inv isStringUTF8 (send event w) := by
  constructor
  · constructor
    · have hbal := h.balanced
      rw [BalancedWith, halive] at hbal
      exact hbal.send hgrant hdrop _
    · exact fun _ => h.slots halive
    · exact h.echoes
  · exact fun _ => h.state_mem halive
  · exact fun _ => h.no_close halive

/-- The fields that the invariant does not speak of. -/
lemma Inv.access (h : Inv isStringUTF8 w) (buffer : Option (List Byte)) :
    Inv isStringUTF8 (w.access buffer) :=
  ⟨⟨h.balanced, h.slots, h.echoes⟩, h.state_mem, h.no_close⟩

lemma Inv.closing (h : Inv isStringUTF8 w) (code : BitVec 16) (reason : List Byte) :
    Inv isStringUTF8 { w with closingCode := code, closingReason := reason } :=
  ⟨⟨h.balanced, h.slots, h.echoes⟩, h.state_mem, h.no_close⟩

/-- The peer's Close frame is answered at once. -/
lemma Inv.handleClose_connected (h : Inv isStringUTF8 w) (halive : w.deleted = false)
    (hstate : w.state = .connected) {frame : WebSocketFrame} (hclose : IsClose frame) :
    Inv isStringUTF8 (handleClose isStringUTF8 frame.data
      { w with handled := w.handled ++ [(.connected, frame)] }) := by
  set code := (parseClose isStringUTF8 frame.payload).1
  set reason := (parseClose isStringUTF8 frame.payload).2
  have hechoes : Echoes isStringUTF8
      (w.queue ++ [outgoing true kOpCodeClose (some (closeBody code reason))])
      (w.handled ++ [(.connected, frame)]) := by
    have hanswer := validBody_parseClose_iff isStringUTF8 hclose
    have hbody : (outgoing true kOpCodeClose (some (closeBody code reason))).payload =
        closeBody code reason := rfl
    have hkind : IsClose (outgoing true kOpCodeClose (some (closeBody code reason))) := rfl
    have hbefore := h.echoes
    unfold Echoes at hbefore ⊢
    simp only [List.mem_append, List.mem_singleton, or_imp, forall_and, forall_eq, hbody, hkind,
      forall_const]
    rw [hbefore, hanswer]
  obtain ⟨hsound, hnew⟩ := sendClose_spec
    (w := { World.access frame.data w with
      state := .recvClosed, handled := w.handled ++ [(.connected, frame)] })
    halive h.balanced (h.slots halive) (h.no_close halive hstate) hechoes
  have hanswered : Inv isStringUTF8 (World.sendClose code reason
      { World.access frame.data w with
        state := .recvClosed, handled := w.handled ++ [(.connected, frame)] }) := by
    constructor
    · exact hsound
    · intro hdel
      exact Or.inr (Or.inr (hnew hdel))
    · intro hdel hconn
      rw [hnew hdel] at hconn
      cases hconn
  have htold := hanswered.andThen fun hdel =>
    hanswered.send hdel .onClosingHandshake rfl (by simp [IsDrop])
  simp only [handleClose, hstate]
  exact htold.andThen fun _ => htold.closing code reason

/-- The second Close frame of the handshake is the peer's. -/
lemma Inv.handleClose_other (h : Inv isStringUTF8 w) (hstate : w.state ≠ .connected)
    (data : Option (List Byte)) : Inv isStringUTF8 (handleClose isStringUTF8 data w) := by
  simp only [handleClose]
  split
  · contradiction
  · exact ⟨⟨h.balanced, h.slots, h.echoes⟩, fun _ => Or.inr (Or.inr rfl), by simp⟩
  · exact h.access data

lemma Inv.met (h : Inv isStringUTF8 w) {met : State × WebSocketFrame}
    (hharmless : Harmless isStringUTF8 met) :
    Inv isStringUTF8 { w with handled := w.handled ++ [met] } :=
  ⟨⟨h.balanced, h.slots, echoes_met h.echoes hharmless⟩, h.state_mem, h.no_close⟩

/-- The errors of the protocol have codes and texts that may be sent. -/
lemma validBody_protocolError {reason : List Byte}
    (hreason : reason.length ≤ kMaximumCloseReasonLength) :
    ValidBody (closeBody kWebSocketErrorProtocolError reason) := by
  rw [validBody_closeBody_iff]
  exact Or.inr ⟨by decide, hreason⟩

lemma text_frameName_length (opcode : BitVec 32) :
    (text (frameName opcode) ++ text " received after close").length ≤
      kMaximumCloseReasonLength := by
  unfold frameName
  split_ifs <;> decide

/-- Frames other than the Close frame that a connected channel answers. -/
lemma Inv.handleFrame (h : Inv isStringUTF8 w) (halive : w.deleted = false)
    (opcode : BitVec 32) (final : Bool) (data : Option (List Byte))
    (hother : opcode = kOpCodeClose → w.state ≠ .connected) :
    Inv isStringUTF8 (handleFrame isStringUTF8 opcode final data w) := by
  unfold World.handleFrame
  split_ifs with hwait hdata hconn hping hconn' hpong hclose
  · exact h.failChannel halive _ (validBody_protocolError (text_frameName_length opcode))
  · exact (h.access data).send halive _ rfl (by simp [IsDrop])
  · exact h
  · exact h.sendIOBuffer halive hconn' (by decide)
      (accept_control h.balanced (h.no_close halive hconn') true kOpCodePong data rfl)
  · exact h
  · exact h
  · exact h.handleClose_other (hother hclose) data
  · exact h.failChannel halive _ (validBody_protocolError (by decide))

lemma Inv.processFrame (h : Inv isStringUTF8 w) (halive : w.deleted = false)
    (frame : WebSocketFrame) : Inv isStringUTF8 (processFrame isStringUTF8 frame w) := by
  unfold World.processFrame
  split_ifs with hmasked hfinal
  · exact h.failChannel halive _ (validBody_protocolError (by decide))
  · exact h.failChannel halive _ (validBody_protocolError (by decide))
  · by_cases hecho : w.state = .connected ∧ frame.header.opcode = kOpCodeClose
    · have hanswered := h.handleClose_connected halive hecho.1 hecho.2
      rw [World.handleFrame, hecho.1, hecho.2]
      simpa [isKnownDataOpCode, kOpCodeClose, kOpCodeContinuation, kOpCodeText, kOpCodeBinary,
        kOpCodePing, kOpCodePong, hecho.1] using hanswered
    · have hharmless : Harmless isStringUTF8 (w.state, frame) :=
        fun hconn hclose => absurd ⟨hconn, hclose⟩ hecho
      exact (h.met hharmless).handleFrame halive _ _ _ fun hclose hconn => hecho ⟨hconn, hclose⟩

lemma Inv.processFrames (h : Inv isStringUTF8 w) (halive : w.deleted = false)
    (frames : List WebSocketFrame) : Inv isStringUTF8 (processFrames isStringUTF8 frames w) := by
  induction frames generalizing w with
  | nil => exact h
  | cons frame frames ih =>
    have hframe := h.processFrame halive frame
    exact hframe.andThen fun hdel => ih hframe hdel

lemma Inv.onReadDone (h : Inv isStringUTF8 w) (halive : w.deleted = false)
    {rest : World → World}
    (hrest : ∀ v : World, Inv isStringUTF8 v → v.deleted = false → Inv isStringUTF8 (rest v))
    (result : ReadResult) : Inv isStringUTF8 (onReadDone isStringUTF8 rest result w) := by
  cases result with
  | ok frames =>
    have hframes := h.processFrames halive frames
    exact hframes.andThen fun hdel => hrest _ hframes hdel
  | wsProtocolError => exact h.failChannel halive _ (validBody_protocolError (by decide))
  | error =>
    simp only [World.onReadDone]
    split_ifs
    · exact h.toSound.onDropChannel halive _ _
    · exact h.toSound.onDropChannel halive _ _

lemma Inv.readFramesLoop (h : Inv isStringUTF8 w) (halive : w.deleted = false)
    (reads : List (Option ReadResult)) :
    Inv isStringUTF8 (readFramesLoop isStringUTF8 reads w) := by
  induction reads generalizing w with
  | nil => exact ⟨⟨h.balanced, h.slots, h.echoes⟩, h.state_mem, h.no_close⟩
  | cons result reads ih =>
    cases result with
    | none => exact ⟨⟨h.balanced, h.slots, h.echoes⟩, h.state_mem, h.no_close⟩
    | some result =>
      have hset : Inv isStringUTF8 { w with reads := reads } :=
        ⟨⟨h.balanced, h.slots, h.echoes⟩, h.state_mem, h.no_close⟩
      have hdone := hset.onReadDone halive (fun v hv _ => hv) result
      exact hdone.andThen fun hdel => ih hdone hdel

/-! ### Runs -/

/-- Before the connection succeeds only the answers may differ from the start. -/
def Fresh (w : World) : Prop :=
  w = { writes := w.writes, reads := w.reads, answers := w.answers }

lemma balanced_nil : Balanced [] 0 [] false := by
  constructor
  · rfl
  · exact le_rfl
  · decide
  · exact onlyLast_of_forall_not (by simp)
  · simp
  · exact onlyLast_of_forall_not (by simp)

lemma echoes_nil : Echoes isStringUTF8 [] [] := by
  simp [Echoes]

/-- The first quota of the renderer. -/
lemma Inv.firstGrant (h : Inv isStringUTF8 w) (hquota : w.currentSendQuota = 0) :
    Inv isStringUTF8 (w.andThen fun w =>
      World.send (.onFlowControl kDefaultSendQuotaHighWaterMark)
        { w with currentSendQuota := kDefaultSendQuotaHighWaterMark }) := by
  apply h.andThen
  intro halive
  constructor
  · constructor
    · have hbal := h.balanced
      rw [BalancedWith, halive, hquota] at hbal
      exact hbal.refill _
    · exact fun _ => h.slots halive
    · exact h.echoes
  · exact fun _ => h.state_mem halive
  · exact fun _ => h.no_close halive

lemma Fresh.onConnectSuccess (h : Fresh w) :
    Inv isStringUTF8 (onConnectSuccess isStringUTF8 w) := by
  have hconn : Inv isStringUTF8 { w with stream := true, state := .connected } := by
    rw [h]
    exact ⟨⟨balanced_nil, by simp, echoes_nil⟩, by simp, by simp [queue]⟩
  have halive : w.deleted = false := by rw [h]
  have hquota : w.currentSendQuota = 0 := by rw [h]
  have hresponse := hconn.send halive (.onAddChannelResponse false) rfl (by simp [IsDrop])
  have hgranted := hresponse.firstGrant hquota
  exact hgranted.andThen fun hdel => hgranted.readFramesLoop hdel _

lemma Fresh.perform (h : Fresh w) (call : Call) (henabled : w.enabled call) :
    Fresh (w.perform isStringUTF8 call) ∨ Inv isStringUTF8 (w.perform isStringUTF8 call) := by
  cases call with
  | onConnectSuccess => exact Or.inr h.onConnectSuccess
  | sendFrame fin opCode data =>
    left
    rw [h]
    simp [World.perform, World.sendFrame, Fresh]
  | sendFlowControl quota => exact Or.inl h
  | startClosingHandshake code reason =>
    left
    rw [h]
    simp [World.perform, World.startClosingHandshake, inClosingState, Fresh]
  | onWriteDone result =>
    rw [h] at henabled
    cases henabled
  | onReadDone result =>
    rw [h] at henabled
    cases henabled
  | closeTimeout =>
    rw [h] at henabled
    cases henabled

lemma Inv.perform (h : Inv isStringUTF8 w) (halive : w.deleted = false) (call : Call)
    (henabled : w.enabled call) : Inv isStringUTF8 (w.perform isStringUTF8 call) := by
  cases call with
  | onConnectSuccess =>
    have hstate : w.state = .connecting := by simpa [enabled] using henabled
    have hmem := h.state_mem halive
    simp [hstate] at hmem
  | sendFrame fin opCode data => exact h.sendFrame halive fin opCode data
  | sendFlowControl quota => exact h
  | startClosingHandshake code reason => exact h.startClosingHandshake halive code reason
  | onWriteDone result =>
    have hwrote : Wrote w.queue { w with writePending := false }
        (w.perform isStringUTF8 (.onWriteDone result)) :=
      onWriteDone_wrote (w := { w with writePending := false }) h.balanced halive
        (fun v hv hbal hbeing => writeFramesLoop_wrote v.writes hv hbal hbeing) result
    constructor
    · exact hwrote.sound h.echoes
    · intro hdel
      have hstate := hwrote.state_eq hdel
      exact hstate ▸ h.state_mem halive
    · intro hdel hconn f hf
      rw [hwrote.queue_eq] at hf
      exact h.no_close halive ((hwrote.state_eq hdel).symm.trans hconn) f hf
  | onReadDone result =>
    have hset : Inv isStringUTF8 { w with readPending := false } :=
      ⟨⟨h.balanced, h.slots, h.echoes⟩, h.state_mem, h.no_close⟩
    exact hset.onReadDone halive (fun v hv hdel => hv.readFramesLoop hdel v.reads) result
  | closeTimeout =>
    have hset : Sound isStringUTF8 { w with timerRunning := false } :=
      ⟨h.balanced, h.slots, h.echoes⟩
    exact hset.onDropChannel halive _ _

lemma step_reachable {t : Turn} (h : Fresh w ∨ Inv isStringUTF8 w)
    (hstep : Step isStringUTF8 w t w') : Fresh w' ∨ Inv isStringUTF8 w' := by
  unfold Step turn at hstep
  split_ifs at hstep with hguard
  rw [not_or, not_not] at hguard
  obtain ⟨halive, henabled⟩ := hguard
  rw [Bool.not_eq_true] at halive
  cases hstep
  rcases h with hfresh | hinv
  · exact Fresh.perform (w := { w with writes := t.writes, reads := t.reads, answers := t.answers })
      (by rw [Fresh, hfresh]) t.call henabled
  · have hset : Inv isStringUTF8
        { w with writes := t.writes, reads := t.reads, answers := t.answers } :=
      ⟨⟨hinv.balanced, hinv.slots, hinv.echoes⟩, hinv.state_mem, hinv.no_close⟩
    exact Or.inr (hset.perform halive t.call henabled)

/-- Everything that the invariant says of the logs holds after every run. -/
lemma sound_of_reaches {turns : List Turn} (h : Reaches (Step isStringUTF8) {} turns w) :
    Sound isStringUTF8 w := by
  have hreach := h.invariant (fun w => Fresh w ∨ Inv isStringUTF8 w) (Or.inl rfl)
    (fun _ _ _ => step_reachable)
  rcases hreach with hfresh | hinv
  · rw [hfresh]
    exact ⟨balanced_nil, by simp, echoes_nil⟩
  · exact hinv.toSound

/-- The closing protocol is orderly, and the renderer's quota is what it was granted less the
data that was accepted from it. -/
theorem orderly_of_reaches {turns : List Turn} (h : Reaches (Step isStringUTF8) {} turns w) :
    OnlyLast IsClose w.written ∧ OnlyLast IsDrop w.events ∧
      w.currentSendQuota = grants w.events - dataBytes (w.written ++ w.dataToSendNext.getD []) ∧
      0 ≤ w.currentSendQuota ∧ w.currentSendQuota ≤ kDefaultSendQuotaHighWaterMark := by
  have hbal := (sound_of_reaches h).balanced
  refine ⟨?_, hbal.drop_last, hbal.quota_eq, hbal.quota_nonneg, hbal.quota_le⟩
  exact hbal.close_last.of_append

lemma reaches_of_foldlM {turns : List Turn}
    (h : turns.foldlM (World.turn isStringUTF8) {} = some w) :
    Reaches (Step isStringUTF8) {} turns w :=
  Reaches.of_foldlM (fun _ _ _ h => h) h

/-- A frame as a peer may send it. -/
def incoming (opcode : BitVec 32) (payload : List Byte) : WebSocketFrame where
  header := { (outgoing true opcode payload).header with masked := false }
  data := payload
  payloadLength_eq := rfl

/-- The renderer sends while the peer closes, and the connection ends. -/
theorem orderly_of_reaches_closed :
    ∃ w : World,
      List.foldlM (World.turn fun _ => true) {}
        [{ call := .onConnectSuccess },
          { call := .sendFrame true kOpCodeText [1, 2, 3], writes := [none] },
          { call := .sendFrame true kOpCodeText [4] },
          { call := .onReadDone (.ok [incoming kOpCodePing [], incoming kOpCodeClose [3, 232]]) },
          { call := .onWriteDone .ok, writes := [some .ok] },
          { call := .onReadDone .error }] = some w ∧
      w.written.map (fun f => f.header.opcode) =
        [kOpCodeText, kOpCodeText, kOpCodePong, kOpCodeClose] ∧
      w.events = [.onAddChannelResponse false, .onFlowControl 131072, .onClosingHandshake,
        .onDropChannel 1000 []] ∧
      OnlyLast IsClose w.written ∧ OnlyLast IsDrop w.events ∧
      w.currentSendQuota = grants w.events - dataBytes (w.written ++ w.dataToSendNext.getD []) ∧
      0 ≤ w.currentSendQuota ∧ w.currentSendQuota ≤ kDefaultSendQuotaHighWaterMark := by
  have hlogs : Option.map
      (fun w : World => (w.written.map (fun f => f.header.opcode), w.events))
      (List.foldlM (World.turn fun _ => true) {}
        [{ call := .onConnectSuccess },
          { call := .sendFrame true kOpCodeText [1, 2, 3], writes := [none] },
          { call := .sendFrame true kOpCodeText [4] },
          { call := .onReadDone (.ok [incoming kOpCodePing [], incoming kOpCodeClose [3, 232]]) },
          { call := .onWriteDone .ok, writes := [some .ok] },
          { call := .onReadDone .error }]) =
      some ([kOpCodeText, kOpCodeText, kOpCodePong, kOpCodeClose],
        [.onAddChannelResponse false, .onFlowControl 131072, .onClosingHandshake,
          .onDropChannel 1000 []]) := by
    decide +kernel
  obtain ⟨w, hrun, hw⟩ := Option.map_eq_some_iff.mp hlogs
  rw [Prod.mk.injEq] at hw
  exact ⟨w, hrun, hw.1, hw.2, orderly_of_reaches (reaches_of_foldlM hrun)⟩

/-- The Close frames that the channel sends may be sent exactly when every Close frame of the
peer that it met while it was connected could be answered. -/
theorem closes_valid_of_reaches {turns : List Turn} (h : Reaches (Step isStringUTF8) {} turns w) :
    ((∀ f ∈ w.queue, IsClose f → ValidBody f.payload) ↔
      ∀ met ∈ w.handled, Harmless isStringUTF8 met) ∧
      ((∀ met ∈ w.handled, Harmless isStringUTF8 met) →
        ∀ f ∈ w.written, IsClose f → ValidBody f.payload) := by
  have hechoes := (sound_of_reaches h).echoes
  refine ⟨hechoes, fun hharmless f hf hclose => ?_⟩
  exact hechoes.mpr hharmless f (List.mem_append_left _ hf) hclose

/-- The peer closes the connection first. -/
def peerCloses (payload : List Byte) : List Turn :=
  [{ call := .onConnectSuccess },
    { call := .onReadDone (.ok [incoming kOpCodeClose payload]), writes := [some .ok] }]

theorem closes_valid_of_reaches_normal :
    ∃ w : World, (peerCloses [3, 232]).foldlM (World.turn fun _ => true) {} = some w ∧
      w.written = [outgoing true kOpCodeClose (some [3, 232])] ∧
      ((∀ f ∈ w.queue, IsClose f → ValidBody f.payload) ↔
        ∀ met ∈ w.handled, Harmless (fun _ => true) met) ∧
      ((∀ met ∈ w.handled, Harmless (fun _ => true) met) →
        ∀ f ∈ w.written, IsClose f → ValidBody f.payload) := by
  have hlog : Option.map World.written
      ((peerCloses [3, 232]).foldlM (World.turn fun _ => true) {}) =
        some [outgoing true kOpCodeClose (some [3, 232])] := by
    decide +kernel
  obtain ⟨w, hrun, hw⟩ := Option.map_eq_some_iff.mp hlog
  exact ⟨w, hrun, hw, closes_valid_of_reaches (reaches_of_foldlM hrun)⟩

/-- The peer's code 1006 comes back to it. -/
theorem abnormalClosure_echoed :
    ¬ ∀ (turns : List Turn) (w : World), Reaches (Step fun _ => true) {} turns w →
      ∀ f ∈ w.written, IsClose f → ValidBody f.payload := by
  intro hvalid
  have hlog : Option.map World.written
      ((peerCloses [3, 238]).foldlM (World.turn fun _ => true) {}) =
        some [outgoing true kOpCodeClose (some [3, 238])] := by
    decide +kernel
  obtain ⟨w, hrun, hw⟩ := Option.map_eq_some_iff.mp hlog
  have hbody : ValidBody (closeBody kWebSocketErrorAbnormalClosure []) :=
    hvalid _ w (reaches_of_foldlM hrun) (outgoing true kOpCodeClose (some [3, 238]))
      (by simp [hw]) rfl
  rw [validBody_closeBody_iff] at hbody
  revert hbody
  decide

end World

end Chromium.WebSocket.Channel
