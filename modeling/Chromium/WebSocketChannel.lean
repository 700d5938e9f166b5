import Chromium.Runs
import Chromium.WebSocketFrame

/-!
# The WebSocket channel

`net/websockets/websocket_channel.cc`. The channel stands between the renderer and the
stream. Any event it sends to the renderer may delete it, and a method that returns
`CHANNEL_DELETED` has set `deleted`; its callers then do nothing more.
-/
namespace Chromium.WebSocket

def kOpCodeContinuation : BitVec 32 := 0x0
def kOpCodeText : BitVec 32 := 0x1
def kOpCodeBinary : BitVec 32 := 0x2
def kOpCodeClose : BitVec 32 := 0x8
def kOpCodePing : BitVec 32 := 0x9
def kOpCodePong : BitVec 32 := 0xA

def isKnownDataOpCode (opcode : BitVec 32) : Bool :=
  opcode = kOpCodeContinuation || opcode = kOpCodeText || opcode = kOpCodeBinary

def isKnownControlOpCode (opcode : BitVec 32) : Bool :=
  opcode = kOpCodeClose || opcode = kOpCodePing || opcode = kOpCodePong

/-- A frame owns as many bytes as its header says. Its buffer `data` may be null when there are
none. -/
structure WebSocketFrame where
  header : WebSocketFrameHeader
  data : Option (List Byte)
  payloadLength_eq : header.payloadLength = (data.getD []).length
  deriving DecidableEq

def WebSocketFrame.payload (frame : WebSocketFrame) : List Byte := frame.data.getD []

namespace Channel

def kDefaultSendQuotaLowWaterMark : ℤ := 2 ^ 16
def kDefaultSendQuotaHighWaterMark : ℤ := 2 ^ 17
def kWebSocketCloseCodeLength : ℕ := 2
def kMaximumCloseReasonLength : ℕ := 125 - kWebSocketCloseCodeLength
def kIntMax : ℕ := 2 ^ 31 - 1

def kWebSocketNormalClosure : BitVec 16 := 1000
def kWebSocketErrorGoingAway : BitVec 16 := 1001
def kWebSocketErrorProtocolError : BitVec 16 := 1002
def kWebSocketErrorNoStatusReceived : BitVec 16 := 1005
def kWebSocketErrorAbnormalClosure : BitVec 16 := 1006
def kWebSocketErrorInternalServerError : BitVec 16 := 1011
def kWebSocketMuxErrorSendQuotaViolation : BitVec 16 := 3005
def kWebSocketErrorPrivateReservedMax : BitVec 16 := 4999

/-- The boundaries of the codes that are bad and of those that are not, in turn. -/
def kInvalidRanges : List ℕ := [0, 1000, 1005, 1007, 1014, 3000, 5000, 65536]

/-- The place that `std::upper_bound` finds is even exactly after a whole range. -/
def isStrictlyValidCloseStatusCode (code : BitVec 16) : Bool :=
  (kInvalidRanges.takeWhile (· ≤ code.toNat)).length % 2 = 0

/-- The bytes of a text of the source. -/
def text (s : String) : List Byte := s.toList.map fun c => BitVec.ofNat 8 c.toNat

inductive State
  | freshlyConstructed
  | connecting
  | connected
  | sendClosed
  | recvClosed
  | closeWait
  | closed
  deriving DecidableEq

inductive ExposeError
  | sendRealError
  | sendGoingAway
  deriving DecidableEq

inductive ChannelState
  | alive
  | deleted
  deriving DecidableEq

/-- The calls on the event interface. -/
inductive Event
  | onAddChannelResponse (fail : Bool)
  | onDataFrame (fin : Bool) (type : BitVec 32) (data : List Byte)
  | onFlowControl (quota : ℤ)
  | onClosingHandshake
  | onDropChannel (code : BitVec 16) (reason : List Byte)
  deriving DecidableEq

/-- How a write ends. An error is any of the `ERR_` codes other than `ERR_IO_PENDING`. -/
inductive WriteResult
  | ok
  | error
  deriving DecidableEq

/-- How a read ends. -/
inductive ReadResult
  | ok (frames : List WebSocketFrame)
  | wsProtocolError
  | error
  deriving DecidableEq

/-- The channel with what it owns, the logs of what it did to the stream and to the renderer,
and what these will answer. An answer `none` of the stream is `ERR_IO_PENDING`. -/
structure World where
  state : State := .connecting
  stream : Bool := false
  dataBeingSent : Option (List WebSocketFrame) := none
  dataToSendNext : Option (List WebSocketFrame) := none
  currentSendQuota : ℤ := 0
  timerRunning : Bool := false
  closingCode : BitVec 16 := 0
  closingReason : List Byte := []
  deleted : Bool := false
  writePending : Bool := false
  readPending : Bool := false
  written : List WebSocketFrame := []
  events : List Event := []
  /-- The frames that came to `HandleFrame`, each with the state it met. -/
  handled : List (State × WebSocketFrame) := []
  /-- Whether `data()` was called for a buffer that is null. -/
  nullAccess : Bool := false
  writes : List (Option WriteResult) := []
  reads : List (Option ReadResult) := []
  answers : List ChannelState := []
  deriving DecidableEq

namespace World

/-- `if (... == CHANNEL_DELETED) return CHANNEL_DELETED;` before the rest of a method. -/
def andThen (w : World) (rest : World → World) : World := if w.deleted then w else rest w

/-- A call on the event interface, which may delete the channel. -/
def send (event : Event) (w : World) : World :=
  { w with
    events := w.events ++ [event]
    deleted := w.answers.head? = some .deleted
    answers := w.answers.tail }

/-- All implementations must delete the channel and return `CHANNEL_DELETED`. -/
def onDropChannel (code : BitVec 16) (reason : List Byte) (w : World) : World :=
  { w with events := w.events ++ [.onDropChannel code reason], deleted := true }

/-- `buffer->data()`. -/
def access (buffer : Option (List Byte)) (w : World) : World :=
  { w with nullAccess := w.nullAccess || buffer.isNone }

def inClosingState (w : World) : Bool :=
  w.state = .sendClosed || w.state = .closeWait || w.state = .closed

/-! ### Writing -/

/-- A synchronous call comes from the loop of `WriteFrames`, which goes on by itself; else
`writeFrames` is `WriteFrames`. -/
def onWriteDone (writeFrames : World → World) (result : WriteResult) (w : World) : World :=
  match result with
  | .ok =>
    match w.dataToSendNext with
    | some frames => writeFrames { w with dataBeingSent := some frames, dataToSendNext := none }
    | none =>
      let w := { w with dataBeingSent := none }
      if w.currentSendQuota < kDefaultSendQuotaLowWaterMark then
        let freshQuota := kDefaultSendQuotaHighWaterMark - w.currentSendQuota
        send (.onFlowControl freshQuota)
          { w with currentSendQuota := w.currentSendQuota + freshQuota }
      else w
  | .error =>
    onDropChannel kWebSocketErrorAbnormalClosure (text "Abnormal Closure")
      { w with state := .closed }

/-- `stream_->WriteFrames(data_being_sent_->frames(), ...)`, which copies the data of each frame. -/
def streamWrite (w : World) : World :=
  { w with
    written := w.written ++ w.dataBeingSent.getD []
    nullAccess := w.nullAccess || (w.dataBeingSent.getD []).any fun frame => frame.data.isNone
    writes := w.writes.tail }

/-- The stream's answers run out with `ERR_IO_PENDING`. -/
def writeFramesLoop : List (Option WriteResult) → World → World
  | [], w => { w.streamWrite with writePending := true }
  | none :: _, w => { w.streamWrite with writePending := true }
  | some result :: writes, w =>
    (w.streamWrite.onWriteDone id result).andThen fun w =>
      if result = .ok ∧ w.dataBeingSent.isSome then writeFramesLoop writes w else w

def writeFrames (w : World) : World := writeFramesLoop w.writes w

/-! ### Sending -/

/-- `WebSocketFrame` with the header that `SendIOBuffer` gives it. -/
def outgoing (fin : Bool) (opCode : BitVec 32) (buffer : Option (List Byte)) : WebSocketFrame where
  header :=
    { final := fin
      reserved1 := false
      reserved2 := false
      reserved3 := false
      opcode := opCode
      masked := true
      payloadLength := (buffer.getD []).length }
  data := buffer
  payloadLength_eq := rfl

def sendIOBuffer (fin : Bool) (opCode : BitVec 32) (buffer : Option (List Byte)) (w : World) :
    World :=
  let frame := outgoing fin opCode buffer
  if w.dataBeingSent.isSome then
    { w with dataToSendNext := some (w.dataToSendNext.getD [] ++ [frame]) }
  else
    writeFrames { w with dataBeingSent := some [frame] }

/-- The body of a Close frame. -/
def closeBody (code : BitVec 16) (reason : List Byte) : List Byte :=
  if code = kWebSocketErrorNoStatusReceived then []
  else writeBigEndian kWebSocketCloseCodeLength code.toNat ++ reason

def sendClose (code : BitVec 16) (reason : List Byte) (w : World) : World :=
  (sendIOBuffer true kOpCodeClose (some (closeBody code reason))
    { w with timerRunning := true }).andThen fun w =>
      { w with state := if w.state = .connected then .sendClosed else .closeWait }

def failChannel (expose : ExposeError) (code : BitVec 16) (reason : List Byte) (w : World) :
    World :=
  let w :=
    if w.state = .connected then
      if expose = .sendRealError then sendClose code reason w
      else sendClose kWebSocketErrorGoingAway (text "Internal Error") w
    else w
  w.andThen fun w => onDropChannel code reason { w with state := .closed }

/-! ### The renderer -/

def sendFrame (fin : Bool) (opCode : BitVec 32) (data : List Byte) (w : World) : World :=
  if data.length > kIntMax then w
  else if !w.stream then w
  else if w.inClosingState then w
  else if w.state ≠ .connected then w
  else if data.length > w.currentSendQuota then
    failChannel .sendGoingAway kWebSocketMuxErrorSendQuotaViolation (text "Send quota exceeded") w
  else if !isKnownDataOpCode opCode then w
  else
    sendIOBuffer fin opCode (some data)
      { w with currentSendQuota := w.currentSendQuota - data.length }

/-- Nothing is done with the quota yet. -/
def sendFlowControl (_quota : ℤ) (w : World) : World := w

variable (isStringUTF8 : List Byte → Bool)

def startClosingHandshake (code : BitVec 16) (reason : List Byte) (w : World) : World :=
  if w.inClosingState then w
  else if w.state ≠ .connected then w
  else if !isStrictlyValidCloseStatusCode code || reason.length > kMaximumCloseReasonLength then
    sendClose kWebSocketErrorInternalServerError (text "Internal Error") w
  else sendClose code (if isStringUTF8 reason then reason else []) w

/-! ### Reading -/

/-- The code and the reason. -/
def parseClose (data : List Byte) : BitVec 16 × List Byte :=
  if data.length < kWebSocketCloseCodeLength then (kWebSocketErrorNoStatusReceived, [])
  else
    let uncheckedCode :=
      BitVec.ofNat 16 (readBigEndian (data.take kWebSocketCloseCodeLength))
    let code :=
      if kWebSocketNormalClosure ≤ uncheckedCode ∧
          uncheckedCode ≤ kWebSocketErrorPrivateReservedMax then uncheckedCode
      else kWebSocketErrorAbnormalClosure
    let text := data.drop kWebSocketCloseCodeLength
    (code, if isStringUTF8 text then text else [])

def frameName (opcode : BitVec 32) : String :=
  if isKnownDataOpCode opcode then "Data frame"
  else if opcode = kOpCodePing then "Ping"
  else if opcode = kOpCodePong then "Pong"
  else if opcode = kOpCodeClose then "Close"
  else "Unknown frame type"

def handleClose (data : Option (List Byte)) (w : World) : World :=
  let (code, reason) := parseClose isStringUTF8 (data.getD [])
  let w := w.access data
  match w.state with
  | .connected =>
    ((sendClose code reason { w with state := .recvClosed }).andThen
      (send .onClosingHandshake)).andThen fun w =>
        { w with closingCode := code, closingReason := reason }
  | .sendClosed => { w with state := .closeWait, closingCode := code, closingReason := reason }
  | _ => w

def handleFrame (opcode : BitVec 32) (final : Bool) (data : Option (List Byte)) (w : World) :
    World :=
  if w.state = .closeWait then
    failChannel .sendRealError kWebSocketErrorProtocolError
      (text (frameName opcode) ++ text " received after close") w
  else if isKnownDataOpCode opcode then
    if w.state = .connected then send (.onDataFrame final opcode (data.getD [])) (w.access data)
    else w
  else if opcode = kOpCodePing then
    if w.state = .connected then sendIOBuffer true kOpCodePong data w else w
  else if opcode = kOpCodePong then w
  else if opcode = kOpCodeClose then handleClose isStringUTF8 data w
  else failChannel .sendRealError kWebSocketErrorProtocolError (text "Unknown opcode") w

def processFrame (frame : WebSocketFrame) (w : World) : World :=
  if frame.header.masked then
    failChannel .sendRealError kWebSocketErrorProtocolError (text "Masked frame from server") w
  else if isKnownControlOpCode frame.header.opcode && !frame.header.final then
    failChannel .sendRealError kWebSocketErrorProtocolError
      (text "Control message with FIN bit unset received") w
  else
    handleFrame isStringUTF8 frame.header.opcode frame.header.final frame.data
      { w with handled := w.handled ++ [(w.state, frame)] }

/-- The loop over `read_frames_`. -/
def processFrames : List WebSocketFrame → World → World
  | [], w => w
  | frame :: frames, w => (processFrame isStringUTF8 frame w).andThen (processFrames frames)

/-- A synchronous call comes from the loop of `ReadFrames`; else `readFrames` is `ReadFrames`. -/
def onReadDone (readFrames : World → World) (result : ReadResult) (w : World) : World :=
  match result with
  | .ok frames => (processFrames isStringUTF8 frames w).andThen readFrames
  | .wsProtocolError =>
    failChannel .sendRealError kWebSocketErrorProtocolError (text "WebSocket Protocol Error") w
  | .error =>
    let w := { w with state := .closed }
    if w.closingCode ≠ 0 then onDropChannel w.closingCode w.closingReason w
    else onDropChannel kWebSocketErrorAbnormalClosure (text "Abnormal Closure") w

/-- After an error there is no channel any more, so the loop goes on only after `OK`. -/
def readFramesLoop : List (Option ReadResult) → World → World
  | [], w => { w with readPending := true }
  | none :: reads, w => { w with readPending := true, reads := reads }
  | some result :: reads, w =>
    (onReadDone isStringUTF8 id result { w with reads := reads }).andThen
      (readFramesLoop reads)

def readFrames (w : World) : World := readFramesLoop isStringUTF8 w.reads w

/-! ### The callbacks -/

def onConnectSuccess (w : World) : World :=
  ((send (.onAddChannelResponse false)
    { w with stream := true, state := .connected }).andThen fun w =>
      send (.onFlowControl kDefaultSendQuotaHighWaterMark)
        { w with currentSendQuota := kDefaultSendQuotaHighWaterMark }).andThen
          (readFrames isStringUTF8)

def closeTimeout (w : World) : World :=
  onDropChannel kWebSocketErrorAbnormalClosure (text "Abnormal Closure")
    { w with state := .closed }

end World

/-- What comes from outside, between two turns of the message loop. -/
inductive Call
  | onConnectSuccess
  | sendFrame (fin : Bool) (opCode : BitVec 32) (data : List Byte)
  | sendFlowControl (quota : ℤ)
  | startClosingHandshake (code : BitVec 16) (reason : List Byte)
  | onWriteDone (result : WriteResult)
  | onReadDone (result : ReadResult)
  | closeTimeout
  deriving DecidableEq

/-- A call with the answers that the stream and the renderer give while it runs. -/
structure Turn where
  call : Call
  writes : List (Option WriteResult) := []
  reads : List (Option ReadResult) := []
  answers : List ChannelState := []
  deriving DecidableEq

namespace World
variable (isStringUTF8 : List Byte → Bool)

/-- The stream calls back only for what is pending, and the timer only when it runs. -/
def enabled (w : World) : Call → Bool
  | .onConnectSuccess => w.state = .connecting
  | .onWriteDone _ => w.writePending
  | .onReadDone _ => w.readPending
  | .closeTimeout => w.timerRunning
  | _ => true

def perform (w : World) : Call → World
  | .onConnectSuccess => onConnectSuccess isStringUTF8 w
  | .sendFrame fin opCode data => sendFrame fin opCode data w
  | .sendFlowControl quota => sendFlowControl quota w
  | .startClosingHandshake code reason => startClosingHandshake isStringUTF8 code reason w
  | .onWriteDone result => onWriteDone writeFrames result { w with writePending := false }
  | .onReadDone result =>
    onReadDone isStringUTF8 (readFrames isStringUTF8) result { w with readPending := false }
  | .closeTimeout => closeTimeout { w with timerRunning := false }

/-- One turn of the message loop. Nothing calls a channel that is deleted: it owns the stream
and the timer, and it takes their callbacks with it. -/
def turn (w : World) (t : Turn) : Option World :=
  if w.deleted ∨ ¬ w.enabled t.call then none
  else some (perform isStringUTF8
    { w with writes := t.writes, reads := t.reads, answers := t.answers } t.call)

def Step (w : World) (t : Turn) (w' : World) : Prop := w.turn isStringUTF8 t = some w'

end World
end Channel
end Chromium.WebSocket
