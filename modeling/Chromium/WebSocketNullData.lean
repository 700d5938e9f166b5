import Chromium.WebSocketBasicStreamRuns
import Chromium.WebSocketChannelRuns

/-!
# Frames without a buffer

The stream passes on a frame without payload with a null buffer. The channel comes to look at the
data of such a frame in three places: when it hands the data to the renderer, when it parses a Close
frame, and when the answer to a Ping is written.
-/
namespace Chromium.WebSocket.Channel

open Runs

/-- A frame without a buffer whose data is looked at: at once, or when the answer to it, which has
the same buffer, is written. -/
def Touched (met : State × WebSocketFrame) : Prop :=
  met.2.data = none ∧
    (met.1 = .connected ∧ (isKnownDataOpCode met.2.header.opcode = true ∨
        met.2.header.opcode = kOpCodePing) ∨
      met.1 ≠ .closeWait ∧ met.2.header.opcode = kOpCodeClose)

namespace World
variable {isStringUTF8 : List Byte → Bool} {w v u : World}

def HasNull (frames : List WebSocketFrame) : Prop := ∃ frame ∈ frames, frame.data = none

/-- The data of a null buffer was looked at, or will be when the frames that wait are written. -/
def Exposed (w : World) : Prop := w.nullAccess = true ∨ HasNull (w.dataToSendNext.getD [])

/-- The same before `data_being_sent_` is given to the stream. -/
def ExposedBefore (w : World) : Prop :=
  w.nullAccess = true ∨ HasNull (w.dataBeingSent.getD []) ∨ HasNull (w.dataToSendNext.getD [])

/-- What a method does that looks at no null buffer. -/
structure Keeps (w v : World) : Prop where
  exposed : v.Exposed ↔ w.Exposed
  handled : v.handled = w.handled

/-- What a write does. -/
structure Writes (w v : World) : Prop where
  exposed : v.Exposed ↔ w.ExposedBefore
  handled : v.handled = w.handled

lemma Keeps.refl (w : World) : Keeps w w := ⟨Iff.rfl, rfl⟩

lemma Keeps.trans (h : Keeps w v) (h' : Keeps v u) : Keeps w u :=
  ⟨h'.exposed.trans h.exposed, h'.handled.trans h.handled⟩

lemma Keeps.andThen (h : Keeps w v) {rest : World → World}
    (hrest : v.deleted = false → Keeps v (rest v)) : Keeps w (v.andThen rest) := by
  unfold World.andThen
  split_ifs with hdel
  · exact h
  · exact h.trans (hrest (Bool.eq_false_iff.mpr hdel))

lemma keeps_send (event : Event) (w : World) : Keeps w (send event w) := ⟨Iff.rfl, rfl⟩

/-! ### Writing -/

lemma streamWrite_writes (w : World) : Writes w w.streamWrite := by
  refine ⟨?_, rfl⟩
  simp only [Exposed, ExposedBefore, streamWrite, HasNull, Bool.or_eq_true, List.any_eq_true,
    Option.isNone_iff_eq_none, or_assoc]

/-- The frames that wait are written next. -/
lemma onWriteDone_keeps (halive : w.deleted = false) {writeFrames : World → World}
    (hwrite : ∀ v : World, v.deleted = false → Writes v (writeFrames v)) (result : WriteResult) :
    Keeps w (onWriteDone writeFrames result w) := by
  cases result with
  | error => exact ⟨Iff.rfl, rfl⟩
  | ok =>
    rw [onWriteDone]
    cases hnext : w.dataToSendNext with
    | none =>
      simp only
      split_ifs
      · exact ⟨by simp [Exposed, World.send, hnext], rfl⟩
      · exact ⟨by simp [Exposed, hnext], rfl⟩
    | some frames =>
      have hwritten :=
        hwrite { w with dataBeingSent := some frames, dataToSendNext := none } halive
      refine ⟨hwritten.exposed.trans ?_, hwritten.handled⟩
      simp [Exposed, ExposedBefore, hnext, HasNull]

lemma writeFramesLoop_writes (writes : List (Option WriteResult)) (halive : w.deleted = false) :
    Writes w (writeFramesLoop writes w) := by
  induction writes generalizing w with
  | nil => exact ⟨(streamWrite_writes w).exposed, rfl⟩
  | cons result writes ih =>
    cases result with
    | none => exact ⟨(streamWrite_writes w).exposed, rfl⟩
    | some result =>
      have halive' : w.streamWrite.deleted = false := halive
      have hdone : Keeps w.streamWrite (writeFramesLoop (some result :: writes) w) := by
        rw [writeFramesLoop]
        cases result with
        | error =>
          have hdrop : Keeps w.streamWrite (onWriteDone id .error w.streamWrite) :=
            ⟨Iff.rfl, rfl⟩
          exact hdrop.andThen fun hdel => (by cases hdel)
        | ok =>
          cases hnext : w.streamWrite.dataToSendNext with
          | none =>
            have hend := @onWriteDone_keeps w.streamWrite halive' (writeFramesLoop writes)
              (fun v hv => ih hv) .ok
            have hsame : onWriteDone id .ok w.streamWrite =
                onWriteDone (writeFramesLoop writes) .ok w.streamWrite := by
              simp only [onWriteDone, hnext]
            have hempty : (onWriteDone id .ok w.streamWrite).dataBeingSent = none := by
              simp only [onWriteDone, hnext]
              split_ifs <;> rfl
            rw [hsame] at hempty ⊢
            refine hend.andThen fun _ => ?_
            rw [hempty]
            exact .refl _
          | some frames =>
            have hgo := @onWriteDone_keeps w.streamWrite halive' (writeFramesLoop writes)
              (fun v hv => ih hv) .ok
            simp only [onWriteDone, hnext, id_eq] at hgo ⊢
            rw [andThen_of_alive (by exact halive')]
            simpa using hgo
      exact ⟨hdone.exposed.trans (streamWrite_writes w).exposed, hdone.handled⟩

lemma writeFrames_writes (halive : w.deleted = false) : Writes w (writeFrames w) :=
  writeFramesLoop_writes w.writes halive

/-- What a method does that adds a frame with this buffer. -/
structure Adds (buffer : Option (List Byte)) (w v : World) : Prop where
  exposed : v.Exposed ↔ w.Exposed ∨ buffer = none
  handled : v.handled = w.handled

lemma Adds.keeps {buffer : List Byte} (h : Adds (some buffer) w v) : Keeps w v :=
  ⟨h.exposed.trans (by simp), h.handled⟩

lemma sendIOBuffer_adds (halive : w.deleted = false) (fin : Bool) (opCode : BitVec 32)
    (buffer : Option (List Byte)) : Adds buffer w (sendIOBuffer fin opCode buffer w) := by
  rw [sendIOBuffer]
  split_ifs with hbeing
  · refine ⟨?_, rfl⟩
    simp [Exposed, HasNull, outgoing, or_assoc, or_and_right, exists_or]
  · have hwritten := @writeFrames_writes
      { w with dataBeingSent := some [outgoing fin opCode buffer] } halive
    refine ⟨hwritten.exposed.trans ?_, hwritten.handled⟩
    simp only [Exposed, ExposedBefore, Option.getD_some, HasNull, List.mem_singleton,
      exists_eq_left]
    simp only [outgoing, or_assoc]
    exact or_congr_right or_comm

lemma sendClose_keeps (halive : w.deleted = false) (code : BitVec 16) (reason : List Byte) :
    Keeps w (sendClose code reason w) := by
  have hadds := @sendIOBuffer_adds { w with timerRunning := true } halive true kOpCodeClose
    (some (closeBody code reason))
  have hsent : Keeps w (sendIOBuffer true kOpCodeClose (some (closeBody code reason))
      { w with timerRunning := true }) := ⟨hadds.keeps.exposed, hadds.handled⟩
  exact hsent.andThen fun _ => ⟨Iff.rfl, rfl⟩

lemma failChannel_keeps (halive : w.deleted = false) (expose : ExposeError) (code : BitVec 16)
    (reason : List Byte) : Keeps w (failChannel expose code reason w) := by
  have hsent : Keeps w (if w.state = .connected then
      if expose = .sendRealError then sendClose code reason w
      else sendClose kWebSocketErrorGoingAway (text "Internal Error") w
      else w) := by
    split_ifs
    · exact sendClose_keeps halive _ _
    · exact sendClose_keeps halive _ _
    · exact .refl w
  unfold World.failChannel
  exact hsent.andThen fun _ => ⟨Iff.rfl, rfl⟩

/-! ### Reading -/

/-- What comes to `HandleFrame` is in the log, and what is exposed was touched there. -/
def Logged (w : World) : Prop := w.Exposed ↔ ∃ met ∈ w.handled, Touched met

lemma Keeps.logged (h : Keeps w v) (hw : w.Logged) : v.Logged := by
  rw [Logged, h.exposed, h.handled]
  exact hw

/-- A frame that is met. -/
lemma logged_met {met : State × WebSocketFrame} (hw : w.Logged)
    (hhandled : v.handled = w.handled ++ [met]) (hexposed : v.Exposed ↔ w.Exposed ∨ Touched met) :
    v.Logged := by
  rw [Logged, hexposed, hhandled, show w.Exposed ↔ _ from hw]
  simp [or_and_right, exists_or]

lemma exposed_access (buffer : Option (List Byte)) (w : World) :
    (w.access buffer).Exposed ↔ w.Exposed ∨ buffer = none := by
  simp only [Exposed, access, Bool.or_eq_true, Option.isNone_iff_eq_none, or_assoc]
  exact or_congr_right or_comm

lemma handleClose_exposed (halive : w.deleted = false) (data : Option (List Byte)) :
    Keeps (w.access data) (handleClose isStringUTF8 data w) := by
  rw [handleClose]
  simp only
  split
  · have hsent := @sendClose_keeps { w.access data with state := .recvClosed } halive
      (parseClose isStringUTF8 (data.getD [])).1 (parseClose isStringUTF8 (data.getD [])).2
    have hstart : Keeps (w.access data) { w.access data with state := .recvClosed } :=
      ⟨Iff.rfl, rfl⟩
    exact ((hstart.trans hsent).andThen fun _ => keeps_send _ _).andThen fun _ => ⟨Iff.rfl, rfl⟩
  · exact ⟨Iff.rfl, rfl⟩
  · exact .refl _

/-- What `HandleFrame` looks at is touched; `v` is the channel with the frame in the log. -/
lemma handleFrame_logged (halive : v.deleted = false) (hw : w.Logged) {frame : WebSocketFrame}
    (hhandled : v.handled = w.handled ++ [(v.state, frame)]) (hsame : v.Exposed ↔ w.Exposed) :
    (handleFrame isStringUTF8 frame.header.opcode frame.header.final frame.data v).Logged := by
  have huntouched : ∀ u, Keeps v u → ¬ Touched (v.state, frame) → u.Logged := by
    intro u hu hnot
    refine logged_met hw (hu.handled.trans hhandled) (hu.exposed.trans (hsame.trans ?_))
    simp [hnot]
  have htouched : ∀ u, Adds frame.data v u → (Touched (v.state, frame) ↔ frame.data = none) →
      u.Logged := by
    intro u hu hiff
    exact logged_met hw (hu.handled.trans hhandled) (hu.exposed.trans (or_congr hsame hiff.symm))
  unfold World.handleFrame
  split_ifs with hwait hdata hconn hping hconn hpong hclose
  · apply huntouched _ (failChannel_keeps halive _ _ _)
    simp [Touched, hwait]
  · refine htouched _ ⟨exposed_access _ _, rfl⟩ ?_
    simp [Touched, hconn, hdata]
  · have hother : frame.header.opcode ≠ kOpCodeClose := by
      intro hclose
      rw [hclose] at hdata
      exact absurd hdata (by decide)
    apply huntouched _ (.refl _)
    simp [Touched, hconn, hother]
  · apply htouched _ (sendIOBuffer_adds halive _ _ _)
    simp [Touched, hconn, hping]
  · apply huntouched _ (.refl _)
    simp only [Touched, hping]
    simp [hconn, kOpCodePing, kOpCodeClose]
  · apply huntouched _ (.refl _)
    simp only [Touched, hpong]
    simp [isKnownDataOpCode, kOpCodeContinuation, kOpCodeText, kOpCodeBinary, kOpCodePing,
      kOpCodePong, kOpCodeClose]
  · have hkeeps := @handleClose_exposed isStringUTF8 v halive frame.data
    refine htouched _ ⟨hkeeps.exposed.trans (exposed_access _ _), hkeeps.handled⟩ ?_
    simp [Touched, hwait, hclose]
  · apply huntouched _ (failChannel_keeps halive _ _ _)
    simp [Touched, hdata, hping, hclose]

/-! ### Runs -/

lemma processFrame_logged (halive : w.deleted = false) (hw : w.Logged) (frame : WebSocketFrame) :
    (processFrame isStringUTF8 frame w).Logged := by
  unfold World.processFrame
  split_ifs
  · exact (failChannel_keeps halive _ _ _).logged hw
  · exact (failChannel_keeps halive _ _ _).logged hw
  · exact @handleFrame_logged isStringUTF8 w { w with handled := w.handled ++ [(w.state, frame)] }
      halive hw frame rfl Iff.rfl

lemma Logged.andThen (hw : w.Logged) {rest : World → World}
    (hrest : w.deleted = false → (rest w).Logged) : (w.andThen rest).Logged := by
  unfold World.andThen
  split_ifs with hdel
  · exact hw
  · exact hrest (Bool.eq_false_iff.mpr hdel)

lemma processFrames_logged (frames : List WebSocketFrame) (halive : w.deleted = false)
    (hw : w.Logged) : (processFrames isStringUTF8 frames w).Logged := by
  induction frames generalizing w with
  | nil => exact hw
  | cons frame frames ih =>
    rw [processFrames]
    exact (processFrame_logged halive hw frame).andThen fun hdel => ih hdel
      (processFrame_logged halive hw frame)

lemma onReadDone_logged (halive : w.deleted = false) (hw : w.Logged)
    {readFrames : World → World}
    (hread : ∀ v : World, v.deleted = false → v.Logged → (readFrames v).Logged)
    (result : ReadResult) : (onReadDone isStringUTF8 readFrames result w).Logged := by
  cases result with
  | ok frames =>
    have hframes := @processFrames_logged isStringUTF8 w frames halive hw
    exact hframes.andThen fun hdel => hread _ hdel hframes
  | wsProtocolError => exact (failChannel_keeps halive _ _ _).logged hw
  | error =>
    rw [onReadDone]
    simp only
    split_ifs
    · exact hw
    · exact hw

lemma readFramesLoop_logged (reads : List (Option ReadResult)) (halive : w.deleted = false)
    (hw : w.Logged) : (readFramesLoop isStringUTF8 reads w).Logged := by
  induction reads generalizing w with
  | nil => exact hw
  | cons result reads ih =>
    cases result with
    | none => exact hw
    | some result =>
      have hdone : (onReadDone isStringUTF8 id result { w with reads := reads }).Logged :=
        @onReadDone_logged isStringUTF8 { w with reads := reads } halive hw id (fun _ _ hv => hv)
          result
      exact hdone.andThen fun hdel => ih hdel hdone

lemma sendFrame_keeps (halive : w.deleted = false) (fin : Bool) (opCode : BitVec 32)
    (data : List Byte) : Keeps w (sendFrame fin opCode data w) := by
  unfold World.sendFrame
  split_ifs
  · exact .refl w
  · exact .refl w
  · exact .refl w
  · exact .refl w
  · exact failChannel_keeps halive _ _ _
  · exact .refl w
  · have hadds := @sendIOBuffer_adds { w with currentSendQuota := w.currentSendQuota - data.length }
      halive fin opCode (some data)
    exact ⟨hadds.keeps.exposed, hadds.handled⟩

lemma startClosingHandshake_keeps (halive : w.deleted = false) (code : BitVec 16)
    (reason : List Byte) : Keeps w (startClosingHandshake isStringUTF8 code reason w) := by
  unfold World.startClosingHandshake
  split_ifs
  · exact .refl w
  · exact .refl w
  · exact sendClose_keeps halive _ _
  · exact sendClose_keeps halive _ _
  · exact sendClose_keeps halive _ _

lemma perform_logged (halive : w.deleted = false) (hw : w.Logged) (call : Call) :
    (w.perform isStringUTF8 call).Logged := by
  cases call with
  | onConnectSuccess =>
    have hsent : Keeps w (send (.onAddChannelResponse false)
        { w with stream := true, state := .connected }) := ⟨Iff.rfl, rfl⟩
    have htold : Keeps w ((send (.onAddChannelResponse false)
        { w with stream := true, state := .connected }).andThen fun w =>
          send (.onFlowControl kDefaultSendQuotaHighWaterMark)
            { w with currentSendQuota := kDefaultSendQuotaHighWaterMark }) :=
      hsent.andThen fun _ => ⟨Iff.rfl, rfl⟩
    exact (htold.logged hw).andThen fun hdel => readFramesLoop_logged _ hdel (htold.logged hw)
  | sendFrame fin opCode data => exact (sendFrame_keeps halive fin opCode data).logged hw
  | sendFlowControl quota => exact hw
  | startClosingHandshake code reason =>
    exact (startClosingHandshake_keeps halive code reason).logged hw
  | onWriteDone result =>
    have hdone := @onWriteDone_keeps { w with writePending := false } halive writeFrames
      (fun v hv => writeFrames_writes hv) result
    exact hdone.logged hw
  | onReadDone result =>
    exact @onReadDone_logged isStringUTF8 { w with readPending := false } halive hw _
      (fun v hv hlogged => readFramesLoop_logged v.reads hv hlogged) result
  | closeTimeout => exact hw

lemma step_logged {t : Turn} (hw : w.Logged) (hstep : Step isStringUTF8 w t v) : v.Logged := by
  unfold Step turn at hstep
  split_ifs at hstep with hguard
  rw [not_or, Bool.not_eq_true] at hguard
  cases hstep
  exact @perform_logged isStringUTF8
    { w with writes := t.writes, reads := t.reads, answers := t.answers } hguard.1 hw t.call

/-- Over every run, the data of a null buffer was looked at, or a frame with one waits to be
written, exactly when such a frame was touched; where none was, none was looked at. -/
theorem nullAccess_of_reaches {turns : List Turn} (h : Reaches (Step isStringUTF8) {} turns w) :
    ((w.nullAccess = true ∨ ∃ frame ∈ w.dataToSendNext.getD [], frame.data = none) ↔
      ∃ met ∈ w.handled, Touched met) ∧
    ((∀ met ∈ w.handled, ¬ Touched met) → w.nullAccess = false) := by
  have hlogged : w.Logged := by
    refine h.invariant World.Logged ?_ fun _ _ _ => step_logged
    simp [Logged, Exposed, HasNull]
  refine ⟨hlogged, ?_⟩
  intro hnone
  by_contra haccess
  rw [Bool.not_eq_false] at haccess
  obtain ⟨met, hmet, htouched⟩ := (show w.Exposed ↔ _ from hlogged).mp (.inl haccess)
  exact hnone met hmet htouched

/-- The frames that the stream makes of the bytes of one read. -/
def framesOf (bytes : List Byte) : Option (List WebSocketFrame) :=
  (({} : WebSocketBasicStream).readFrames [.bytes ⟨bytes, fun _ => 0⟩]).map fun result => result.2.1

/-- A channel that starts to close when the peer sends an empty text. -/
theorem nullAccess_of_reaches_closing :
    ∃ (frames : List WebSocketFrame) (w : World), framesOf [0x81, 0x00] = some frames ∧
      List.foldlM (World.turn fun _ => true) {}
        [{ call := .onConnectSuccess },
          { call := .startClosingHandshake kWebSocketNormalClosure [] },
          { call := .onReadDone (.ok frames) }] = some w ∧
      w.handled.map (fun met => met.2.data) = [none] ∧ w.nullAccess = false := by
  have hframes : (framesOf [0x81, 0x00]).bind (fun frames => Option.map World.handled
      (List.foldlM (World.turn fun _ => true) {}
        [{ call := .onConnectSuccess },
          { call := .startClosingHandshake kWebSocketNormalClosure [] },
          { call := .onReadDone (.ok frames) }])) =
      some [(.sendClosed, ⟨⟨true, false, false, false, kOpCodeText, false, 0⟩, none, rfl⟩)] := by
    decide +kernel
  obtain ⟨frames, hframes, hrun⟩ := Option.bind_eq_some_iff.mp hframes
  obtain ⟨w, hrun, hhandled⟩ := Option.map_eq_some_iff.mp hrun
  refine ⟨frames, w, hframes, hrun, by rw [hhandled]; rfl, ?_⟩
  apply (nullAccess_of_reaches (reaches_of_foldlM hrun)).2
  rw [hhandled, List.forall_mem_singleton]
  simp [Touched, kOpCodeText, kOpCodeClose]

/-- Whether a channel that is connected looks at a null buffer when the bytes come in one read. -/
def accessAfter (bytes : List Byte) : Option Bool :=
  ((framesOf bytes).bind fun frames => List.foldlM (World.turn fun _ => true) {}
    [{ call := .onConnectSuccess }, { call := .onReadDone (.ok frames) }]).map World.nullAccess

/-- A text, a Close frame and a ping of the peer without payload. -/
theorem nullAccess_of_empty :
    accessAfter [0x81, 0x00] = some true ∧ accessAfter [0x88, 0x00] = some true ∧
      accessAfter [0x89, 0x00] = some true := by
  decide +kernel

end World

end Chromium.WebSocket.Channel
