import Chromium.PrefixReader
import Chromium.WebSocketFrame

/-!
# The WebSocket frame parser

`net/websockets/websocket_frame_parser.cc`. Bytes come in with calls of `Decode`, cut
anywhere. The bytes of an incomplete header are kept for the next call, and payloads
are handed out in chunks as they come.
-/
namespace Chromium.WebSocket

open PrefixReader

/-- `WebSocketError`, as far as the parser sets it. -/
inductive WebSocketError
  | normalClosure
  | protocolError
  | messageTooBig
  deriving DecidableEq, Repr

structure WebSocketFrameChunk where
  header : Option WebSocketFrameHeader
  finalChunk : Bool
  data : Option (List Byte)

structure WebSocketFrameParser where
  buffer : List Byte := []
  currentReadPos : ℕ := 0
  currentFrameHeader : Option WebSocketFrameHeader := none
  maskingKey : WebSocketMaskingKey := fun _ => 0
  frameOffset : ℕ := 0
  websocketError : WebSocketError := .normalClosure

/-! ### Headers -/

/-- The payload length, after the second byte. -/
def readPayloadLength (secondByte : Byte) : Reader Byte (Except WebSocketError ℕ) :=
  let payloadLength := (secondByte &&& kPayloadLengthMask).toNat
  if payloadLength = kPayloadLengthWithTwoByteExtendedLengthField then
    (Reader.take 2).map fun bytes =>
      let payloadLength := readBigEndian bytes
      if payloadLength ≤ kMaxPayloadLengthWithoutExtendedLengthField then .error .protocolError
      else .ok payloadLength
  else if payloadLength = kPayloadLengthWithEightByteExtendedLengthField then
    (Reader.take 8).map fun bytes =>
      let payloadLength := readBigEndian bytes
      if payloadLength ≤ kuint16max ∨ payloadLength > kint64max then .error .protocolError
      else if payloadLength > kint32max then .error .messageTooBig
      else .ok payloadLength
  else Reader.pure (.ok payloadLength)

def readMaskingKey (masked : Bool) : Reader Byte WebSocketMaskingKey :=
  if masked then (Reader.take kMaskingKeyLength).map fun bytes i => bytes.getD i 0
  else Reader.pure fun _ => 0

/-- The header at the front of the bytes, while `Reader` waits for missing ones. An error
in the length is found before the key is there. -/
def readFrameHeader :
    Reader Byte (Except WebSocketError (WebSocketFrameHeader × WebSocketMaskingKey)) :=
  (Reader.take kBaseHeaderSize).bind fun bytes =>
    let firstByte := bytes.getD 0 0
    let secondByte := bytes.getD 1 0
    let masked := decide (secondByte &&& kMaskBit ≠ 0)
    (readPayloadLength secondByte).bind fun
      | .error error => Reader.pure (.error error)
      | .ok payloadLength => (readMaskingKey masked).map fun key => .ok
        ({ final := decide (firstByte &&& kFinalBit ≠ 0)
           reserved1 := decide (firstByte &&& kReserved1Bit ≠ 0)
           reserved2 := decide (firstByte &&& kReserved2Bit ≠ 0)
           reserved3 := decide (firstByte &&& kReserved3Bit ≠ 0)
           opcode := (firstByte &&& kOpCodeMask).setWidth 32
           masked, payloadLength }, key)

lemma exact_readPayloadLength (secondByte : Byte) :
    Reader.Exact (readPayloadLength secondByte) := by
  unfold readPayloadLength
  apply Reader.Exact.ite
  · exact (Reader.exact_take 2).map _
  · apply Reader.Exact.ite
    · exact (Reader.exact_take 8).map _
    · exact Reader.exact_pure _

lemma exact_readMaskingKey (masked : Bool) : Reader.Exact (readMaskingKey masked) := by
  unfold readMaskingKey
  apply Reader.Exact.ite
  · exact (Reader.exact_take kMaskingKeyLength).map _
  · exact Reader.exact_pure _

/-- A header is read off its own bytes. -/
lemma exact_readFrameHeader : Reader.Exact readFrameHeader := by
  unfold readFrameHeader
  apply (Reader.exact_take kBaseHeaderSize).bind
  intro bytes
  apply (exact_readPayloadLength _).bind
  intro length
  cases length with
  | error error => exact Reader.exact_pure _
  | ok payloadLength => exact (exact_readMaskingKey _).map _

lemma readFrameHeader_nil : readFrameHeader [] = none := rfl

lemma readPayloadLength_error {secondByte : Byte} {input rest : List Byte} {error : WebSocketError}
    (h : readPayloadLength secondByte input = some (.error error, rest)) :
    error ≠ .normalClosure := by
  unfold readPayloadLength at h
  split_ifs at h
  · obtain ⟨bytes, -, hbytes⟩ := Reader.map_eq_some.mp h
    dsimp only at hbytes
    split_ifs at hbytes
    cases hbytes
    decide
  · obtain ⟨bytes, -, hbytes⟩ := Reader.map_eq_some.mp h
    dsimp only at hbytes
    split_ifs at hbytes <;>
    · cases hbytes
      decide
  · cases h

/-- A wrong header sets an error. -/
lemma readFrameHeader_error {input rest : List Byte} {error : WebSocketError}
    (h : readFrameHeader input = some (.error error, rest)) : error ≠ .normalClosure := by
  obtain ⟨bytes, rest₁, -, h⟩ := Reader.bind_eq_some.mp h
  obtain ⟨length, rest₂, hlength, h⟩ := Reader.bind_eq_some.mp h
  cases length with
  | error error' =>
    cases h
    exact readPayloadLength_error hlength
  | ok payloadLength =>
    obtain ⟨key, -, hkey⟩ := Reader.map_eq_some.mp h
    cases hkey

namespace WebSocketFrameParser
variable (s : WebSocketFrameParser)

def decodeFrameHeader : WebSocketFrameParser :=
  match readFrameHeader (s.buffer.drop s.currentReadPos) with
  | none => s
  | some (.error error, _) =>
    { s with
      websocketError := error, buffer := [], currentReadPos := 0, currentFrameHeader := none
      frameOffset := 0 }
  | some (.ok (header, key), rest) =>
    { s with
      maskingKey := key, currentFrameHeader := some header
      currentReadPos := s.buffer.length - rest.length }

/-- The chunk's data lies at `address`. -/
def decodeFramePayload (header : WebSocketFrameHeader) (firstChunk : Bool) (address : ℕ) :
    WebSocketFrameChunk × WebSocketFrameParser :=
  let current := s.buffer.drop s.currentReadPos
  let nextSize := min current.length (header.payloadLength - s.frameOffset)
  let data := current.take nextSize
  let data := if header.masked then
    maskWebSocketFramePayload s.maskingKey s.frameOffset address data else data
  let frameOffset := s.frameOffset + nextSize
  let s := { s with currentReadPos := s.currentReadPos + nextSize }
  let finalChunk := decide (frameOffset = header.payloadLength)
  ({ header := if firstChunk then some header else none
     finalChunk
     data := if nextSize = 0 then none else some data },
   if finalChunk then { s with currentFrameHeader := none, frameOffset := 0 }
   else { s with frameOffset })

/-- The loop of `Decode`. The data of the `n`-th chunk lies at `address n`. -/
def decodeLoop (address : ℕ → ℕ) : ℕ → WebSocketFrameParser → List WebSocketFrameChunk →
    Option (Bool × WebSocketFrameParser × List WebSocketFrameChunk)
  | 0, _, _ => none
  | fuel + 1, s, frameChunks =>
    if s.currentReadPos < s.buffer.length then
      let firstChunk := s.currentFrameHeader.isNone
      let s := if firstChunk then s.decodeFrameHeader else s
      if firstChunk ∧ s.websocketError ≠ .normalClosure then some (false, s, frameChunks)
      else
        match s.currentFrameHeader with
        | none => some (true, s, frameChunks)
        | some header =>
          let (frameChunk, s) := s.decodeFramePayload header firstChunk (address frameChunks.length)
          if s.currentFrameHeader.isSome then some (true, s, frameChunks ++ [frameChunk])
          else decodeLoop address fuel s (frameChunks ++ [frameChunk])
    else some (true, s, frameChunks)

/-- What `Decode` returns, the parser after it and the chunks it adds. The buffers for the
chunks lie anywhere. -/
def decode (data : List Byte) (address : ℕ → ℕ) :
    Option (Bool × WebSocketFrameParser × List WebSocketFrameChunk) :=
  if s.websocketError ≠ .normalClosure then some (false, s, [])
  else if data = [] then some (true, s, [])
  else
    let s := { s with buffer := s.buffer ++ data }
    match decodeLoop address (s.buffer.length + 1) s [] with
    | some (true, s, frameChunks) =>
      some (true, { s with buffer := s.buffer.drop s.currentReadPos, currentReadPos := 0 },
        frameChunks)
    | result => result

end WebSocketFrameParser

/-! ### Byte by byte

What the parser is for, with the bytes coming in one at a time. -/

/-- What the chunks tell of the frames. -/
inductive FrameEvent
  | header (header : WebSocketFrameHeader)
  | byte (b : Byte)
  | final

/-- Between two bytes, a part of a header is there, or a part of a payload, or an error has
been found. -/
inductive Stage
  | inHeader (pending : List Byte)
  | inPayload (header : WebSocketFrameHeader) (key : WebSocketMaskingKey) (offset : ℕ)
  | failed (error : WebSocketError)

namespace Stage

/-- `websocket_error()`. -/
def error : Stage → WebSocketError
  | .failed error => error
  | _ => .normalClosure

/-- The stage inside a payload, or after it. -/
def advance (header : WebSocketFrameHeader) (key : WebSocketMaskingKey) (offset : ℕ) :
    List FrameEvent × Stage :=
  if offset = header.payloadLength then ([.final], .inHeader [])
  else ([], .inPayload header key offset)

/-- The stage after a header that is complete, or is wrong. -/
def enter : Except WebSocketError (WebSocketFrameHeader × WebSocketMaskingKey) →
    List FrameEvent × Stage
  | .error error => ([], .failed error)
  | .ok (header, key) => (.header header :: (advance header key 0).1, (advance header key 0).2)

def unmask (header : WebSocketFrameHeader) (key : WebSocketMaskingKey) (offset : ℕ)
    (data : List Byte) : List Byte :=
  if header.masked then maskWebSocketFramePayloadByBytes key (keyOffset offset) data else data

def feed : Stage → Byte → List FrameEvent × Stage
  | .inHeader pending, b =>
    match readFrameHeader (pending ++ [b]) with
    | none => ([], .inHeader (pending ++ [b]))
    | some (result, _) => enter result
  | .inPayload header key offset, b =>
    ((unmask header key offset [b]).map .byte ++ (advance header key (offset + 1)).1,
      (advance header key (offset + 1)).2)
  | .failed error, _ => ([], .failed error)

def feedAll : Stage → List Byte → List FrameEvent × Stage
  | stage, [] => ([], stage)
  | stage, b :: bytes =>
    ((feed stage b).1 ++ (feedAll (feed stage b).2 bytes).1, (feedAll (feed stage b).2 bytes).2)

lemma feedAll_append (stage : Stage) (xs ys : List Byte) :
    feedAll stage (xs ++ ys) = ((feedAll stage xs).1 ++ (feedAll (feedAll stage xs).2 ys).1,
      (feedAll (feedAll stage xs).2 ys).2) := by
  induction xs generalizing stage with
  | nil => rfl
  | cons b xs ih =>
    rw [List.cons_append, feedAll, ih, feedAll]
    simp only [List.append_assoc]

lemma feedAll_singleton (stage : Stage) (b : Byte) : feedAll stage [b] = feed stage b := by
  simp [feedAll]

lemma feedAll_failed (error : WebSocketError) (bytes : List Byte) :
    feedAll (.failed error) bytes = ([], .failed error) := by
  induction bytes with
  | nil => rfl
  | cons b bytes ih => rw [feedAll, feed, ih, List.append_nil]

/-- An incomplete header is kept. -/
lemma feedAll_incomplete {bytes : List Byte} (h : readFrameHeader bytes = none) :
    feedAll (.inHeader []) bytes = ([], .inHeader bytes) := by
  induction bytes using List.reverseRecOn with
  | nil => rfl
  | append_singleton bytes b ih =>
    have hpart := exact_readFrameHeader.none_of_prefix h (List.prefix_append bytes [b])
    rw [feedAll_append, ih hpart, feedAll_singleton, feed, h]
    rfl

/-- The last byte of a header completes it. -/
lemma feedAll_complete {bytes rest : List Byte}
    {result : Except WebSocketError (WebSocketFrameHeader × WebSocketMaskingKey)}
    (h : readFrameHeader bytes = some (result, rest)) :
    feedAll (.inHeader []) bytes = ((enter result).1 ++ (feedAll (enter result).2 rest).1,
      (feedAll (enter result).2 rest).2) := by
  obtain ⟨item, rfl, hread, hwait⟩ := exact_readFrameHeader _ _ _ h
  suffices hitem : feedAll (.inHeader []) item = enter result by
    rw [feedAll_append, hitem]
  have hread' := hread []
  rw [List.append_nil] at hread'
  cases item using List.reverseRecOn with
  | nil =>
    rw [readFrameHeader_nil] at hread'
    cases hread'
  | append_singleton first last =>
    have hfirst := hwait first (List.prefix_append first [last]) (by simp)
    rw [feedAll_append, feedAll_incomplete hfirst, feedAll_singleton, feed, hread']
    rfl

lemma unmask_append (header : WebSocketFrameHeader) (key : WebSocketMaskingKey) (offset : ℕ)
    (xs ys : List Byte) :
    unmask header key offset (xs ++ ys) =
      unmask header key offset xs ++ unmask header key (offset + xs.length) ys := by
  unfold unmask
  split_ifs
  · rw [maskByBytes_append, keyOffset_add]
  · rfl

/-- The bytes of a payload come out as they come in. -/
lemma feedAll_payload {header : WebSocketFrameHeader} {key : WebSocketMaskingKey} {offset : ℕ}
    {data : List Byte} (hdata : data ≠ [])
    (hle : offset + data.length ≤ header.payloadLength) :
    feedAll (.inPayload header key offset) data =
      ((unmask header key offset data).map .byte ++ (advance header key (offset + data.length)).1,
        (advance header key (offset + data.length)).2) := by
  induction data using List.reverseRecOn with
  | nil => exact absurd rfl hdata
  | append_singleton data b ih =>
    rw [List.length_append, List.length_singleton] at hle
    by_cases hnil : data = []
    · subst hnil
      rw [List.nil_append, feedAll_singleton]
      rfl
    · have hadvance : advance header key (offset + data.length) =
          ([], .inPayload header key (offset + data.length)) := if_neg (by omega)
      rw [feedAll_append, ih hnil (by omega), hadvance, feedAll_singleton, feed, unmask_append,
        List.map_append, List.length_append]
      simp only [List.append_nil, List.append_assoc, Nat.add_assoc, List.length_singleton]

/-- A payload is taken from the front of the bytes as far as it goes. -/
lemma feedAll_advance {header : WebSocketFrameHeader} (key : WebSocketMaskingKey) {offset n : ℕ}
    {bytes : List Byte} (hn : n = min bytes.length (header.payloadLength - offset))
    (hle : offset ≤ header.payloadLength) :
    ((advance header key offset).1 ++ (feedAll (advance header key offset).2 bytes).1,
      (feedAll (advance header key offset).2 bytes).2) =
    ((unmask header key offset (bytes.take n)).map .byte ++
        ((advance header key (offset + n)).1 ++
          (feedAll (advance header key (offset + n)).2 (bytes.drop n)).1),
      (feedAll (advance header key (offset + n)).2 (bytes.drop n)).2) := by
  by_cases hzero : n = 0
  · have hnil : unmask header key offset [] = [] := by
      unfold unmask
      split_ifs <;> rfl
    simp only [hzero, List.take_zero, List.drop_zero, Nat.add_zero, hnil, List.map_nil,
      List.nil_append]
  · have hlen : (bytes.take n).length = n := List.length_take_of_le (by omega)
    have hstart : advance header key offset = ([], .inPayload header key offset) :=
      if_neg (by omega)
    have hfeed : feedAll (.inPayload header key offset) (bytes.take n) = _ :=
      feedAll_payload (fun hnil => hzero (by rw [← hlen, hnil, List.length_nil])) (by omega)
    rw [hlen] at hfeed
    have happend := feedAll_append (.inPayload header key offset) (bytes.take n) (bytes.drop n)
    rw [List.take_append_drop, hfeed] at happend
    rw [hstart, happend]
    simp only [List.nil_append, List.append_assoc]

end Stage

def WebSocketFrameChunk.events (chunk : WebSocketFrameChunk) : List FrameEvent :=
  (chunk.header.map .header).toList ++ (chunk.data.getD []).map .byte ++
    if chunk.finalChunk then [.final] else []

namespace WebSocketFrameParser
variable {s : WebSocketFrameParser}

def stage (s : WebSocketFrameParser) : Stage :=
  if s.websocketError ≠ .normalClosure then .failed s.websocketError
  else
    match s.currentFrameHeader with
    | none => .inHeader (s.buffer.drop s.currentReadPos)
    | some header => .inPayload header s.maskingKey s.frameOffset

/-- The parser between two calls. -/
structure Between (s : WebSocketFrameParser) : Prop where
  readPos : s.currentReadPos = 0
  header : s.currentFrameHeader = none → s.frameOffset = 0 ∧ readFrameHeader s.buffer = none
  payload : ∀ header, s.currentFrameHeader = some header →
    s.buffer = [] ∧ s.frameOffset < header.payloadLength
  error : s.websocketError ≠ .normalClosure → s.currentFrameHeader = none

/-- The last step of `Decode`. -/
def drain (s : WebSocketFrameParser) : WebSocketFrameParser :=
  { s with buffer := s.buffer.drop s.currentReadPos, currentReadPos := 0 }

/-- The parser at the head of the loop. -/
structure InLoop (s : WebSocketFrameParser) : Prop where
  error : s.websocketError = .normalClosure
  readPos : s.currentReadPos ≤ s.buffer.length
  header : s.currentFrameHeader = none → s.frameOffset = 0
  payload : ∀ header, s.currentFrameHeader = some header → s.frameOffset < header.payloadLength

/-- The stage before the bytes that are still in the buffer. -/
def start (s : WebSocketFrameParser) : Stage :=
  match s.currentFrameHeader with
  | none => .inHeader []
  | some header => .inPayload header s.maskingKey s.frameOffset

/-- A chunk tells what the bytes of the payload do. -/
lemma decodeFramePayload_spec {header : WebSocketFrameHeader} {firstChunk : Bool} {address : ℕ}
    {chunk : WebSocketFrameChunk} {t : WebSocketFrameParser}
    (hresult : s.decodeFramePayload header firstChunk address = (chunk, t))
    (hheader : s.currentFrameHeader = some header) (hle : s.frameOffset ≤ header.payloadLength)
    (hpos : s.currentReadPos ≤ s.buffer.length) (herror : s.websocketError = .normalClosure) :
    ∃ n, n = min (s.buffer.drop s.currentReadPos).length (header.payloadLength - s.frameOffset) ∧
      chunk.events = (if firstChunk then [.header header] else []) ++
        ((Stage.unmask header s.maskingKey s.frameOffset
          ((s.buffer.drop s.currentReadPos).take n)).map .byte ++
          (Stage.advance header s.maskingKey (s.frameOffset + n)).1) ∧
      t.buffer.drop t.currentReadPos = (s.buffer.drop s.currentReadPos).drop n ∧
      t.start = (Stage.advance header s.maskingKey (s.frameOffset + n)).2 ∧ InLoop t ∧
      (t.currentFrameHeader.isSome = true → s.frameOffset + n < header.payloadLength) := by
  obtain ⟨n, hn⟩ : ∃ n, n = min (s.buffer.drop s.currentReadPos).length
    (header.payloadLength - s.frameOffset) := ⟨_, rfl⟩
  have hnlen : s.currentReadPos + n ≤ s.buffer.length := by
    rw [List.length_drop] at hn
    omega
  unfold decodeFramePayload at hresult
  rw [Prod.mk.injEq] at hresult
  obtain ⟨hchunk, ht⟩ := hresult
  rw [← hn] at hchunk ht
  refine ⟨n, hn, ?_, ?_⟩
  · have hdata : (if n = 0 then none else some (if header.masked = true then
        maskWebSocketFramePayload s.maskingKey s.frameOffset address
          ((s.buffer.drop s.currentReadPos).take n)
        else (s.buffer.drop s.currentReadPos).take n)).getD [] =
        Stage.unmask header s.maskingKey s.frameOffset
          ((s.buffer.drop s.currentReadPos).take n) := by
      unfold Stage.unmask
      rw [maskWebSocketFramePayload_eq]
      by_cases hzero : n = 0
      · rw [if_pos hzero, hzero, List.take_zero]
        split_ifs <;> rfl
      · rw [if_neg hzero, Option.getD_some]
    rw [← hchunk, WebSocketFrameChunk.events]
    simp only [hdata, Stage.advance, decide_eq_true_eq, List.append_assoc]
    split_ifs <;> rfl
  · by_cases hfinal : s.frameOffset + n = header.payloadLength
    · simp only [hfinal, decide_true, if_true] at ht
      subst ht
      refine ⟨List.drop_drop.symm, ?_, ⟨herror, hnlen, fun _ => rfl, ?_⟩, ?_⟩
      · simp [start, Stage.advance, hfinal]
      · intro header h
        cases h
      · intro h
        cases h
    · simp only [hfinal, decide_false, Bool.false_eq_true, if_false] at ht
      subst ht
      refine ⟨List.drop_drop.symm, ?_, ⟨herror, hnlen, ?_, ?_⟩, fun _ => ?_⟩
      · simp [start, Stage.advance, hfinal, hheader]
      · intro h
        rw [hheader] at h
        cases h
      · intro header' h
        rw [hheader] at h
        cases h
        simp only
        omega
      · omega

/-- What a `Decode` that comes to `(ok, t)` leaves. -/
def settle (ok : Bool) (t : WebSocketFrameParser) : WebSocketFrameParser :=
  if ok then t.drain else t

lemma InLoop.between_drain (h : InLoop s) (hrest : s.buffer.drop s.currentReadPos = []) :
    Between s.drain ∧ s.drain.stage = s.start := by
  constructor
  · constructor
    · rfl
    · intro hnone
      exact ⟨h.header hnone, by rw [drain, hrest]; rfl⟩
    · intro header hsome
      exact ⟨hrest, h.payload header hsome⟩
    · intro herror
      exact absurd h.error herror
  · have herror : ¬ s.drain.websocketError ≠ .normalClosure := not_not.mpr h.error
    rw [stage, if_neg herror, start]
    simp only [drain, hrest, List.drop_nil]

/-- A result of the loop that tells, with the chunks it adds, what the bytes do. -/
def Produces (frameChunks : List WebSocketFrameChunk)
    (result : Option (Bool × WebSocketFrameParser × List WebSocketFrameChunk))
    (fed : List FrameEvent × Stage) : Prop :=
  ∃ ok t new, result = some (ok, t, frameChunks ++ new) ∧
    new.flatMap WebSocketFrameChunk.events = fed.1 ∧ Between (settle ok t) ∧
    (settle ok t).stage = fed.2 ∧ (ok = true ↔ (settle ok t).websocketError = .normalClosure)

/-- The second half of a round of the loop, and the rounds after it. -/
lemma produces_payload (address : ℕ → ℕ) {fuel : ℕ} (frameChunks : List WebSocketFrameChunk)
    {header : WebSocketFrameHeader} (firstChunk : Bool)
    (hheader : s.currentFrameHeader = some header) (hle : s.frameOffset ≤ header.payloadLength)
    (hpos : s.currentReadPos ≤ s.buffer.length) (herror : s.websocketError = .normalClosure)
    (hfuel : ((s.buffer.drop s.currentReadPos).drop (min (s.buffer.drop s.currentReadPos).length
      (header.payloadLength - s.frameOffset))).length < fuel)
    (ih : ∀ t frameChunks, InLoop t → (t.buffer.drop t.currentReadPos).length < fuel →
      Produces frameChunks (decodeLoop address fuel t frameChunks)
        (Stage.feedAll t.start (t.buffer.drop t.currentReadPos))) :
    Produces frameChunks
      (let (frameChunk, t) := s.decodeFramePayload header firstChunk (address frameChunks.length)
       if t.currentFrameHeader.isSome then some (true, t, frameChunks ++ [frameChunk])
       else decodeLoop address fuel t (frameChunks ++ [frameChunk]))
      ((if firstChunk then [.header header] else []) ++
        ((Stage.advance header s.maskingKey s.frameOffset).1 ++
          (Stage.feedAll (Stage.advance header s.maskingKey s.frameOffset).2
            (s.buffer.drop s.currentReadPos)).1),
        (Stage.feedAll (Stage.advance header s.maskingKey s.frameOffset).2
          (s.buffer.drop s.currentReadPos)).2) := by
  obtain ⟨chunk, t, hresult⟩ : ∃ chunk t, s.decodeFramePayload header firstChunk
    (address frameChunks.length) = (chunk, t) := ⟨_, _, rfl⟩
  obtain ⟨n, hn, hevents, hrest, hstart, hloop, hsome⟩ :=
    decodeFramePayload_spec hresult hheader hle hpos herror
  have hfed := Stage.feedAll_advance s.maskingKey hn hle
  rw [Prod.mk.injEq] at hfed
  rw [hresult, hfed.1, hfed.2, ← hstart, ← hrest, ← List.append_assoc, ← List.append_assoc]
  simp only
  by_cases hend : t.currentFrameHeader.isSome = true
  · -- the payload is not complete, so that all bytes are used
    have hnil : t.buffer.drop t.currentReadPos = [] := by
      have hlt := hsome hend
      rw [hrest, List.drop_eq_nil_iff]
      omega
    obtain ⟨hbetween, hstage⟩ := hloop.between_drain hnil
    rw [if_pos hend, hnil]
    refine ⟨true, t, [chunk], rfl, ?_, hbetween, hstage, ?_⟩
    · rw [List.flatMap_singleton, hevents]
      simp only [Stage.feedAll, List.append_nil, List.append_assoc]
    · exact ⟨fun _ => hloop.error, fun _ => rfl⟩
  · rw [if_neg hend]
    rw [← hn, ← hrest] at hfuel
    obtain ⟨ok, u, new, hloopResult, hnew, hbetween, hstage, hok⟩ :=
      ih t (frameChunks ++ [chunk]) hloop hfuel
    refine ⟨ok, u, chunk :: new, ?_, ?_, hbetween, hstage, hok⟩
    · rw [hloopResult, List.append_assoc]
      rfl
    · rw [List.flatMap_cons, hnew, hevents]
      simp only [List.append_assoc]

/-- The loop does with the bytes in the buffer what they do one by one. -/
theorem decodeLoop_spec (address : ℕ → ℕ) {fuel : ℕ} (frameChunks : List WebSocketFrameChunk)
    (h : InLoop s) (hfuel : (s.buffer.drop s.currentReadPos).length < fuel) :
    Produces frameChunks (decodeLoop address fuel s frameChunks)
      (Stage.feedAll s.start (s.buffer.drop s.currentReadPos)) := by
  induction fuel generalizing s frameChunks with
  | zero => exact absurd hfuel (Nat.not_lt_zero _)
  | succ fuel ih =>
    rw [decodeLoop]
    by_cases hread : s.currentReadPos < s.buffer.length
    swap
    · have hnil : s.buffer.drop s.currentReadPos = [] := List.drop_eq_nil_of_le (not_lt.mp hread)
      obtain ⟨hbetween, hstage⟩ := h.between_drain hnil
      rw [if_neg hread, hnil]
      exact ⟨true, s, [], by rw [List.append_nil], rfl, hbetween, hstage, fun _ => h.error,
        fun _ => rfl⟩
    rw [if_pos hread]
    have hlen := List.length_drop (i := s.currentReadPos) (l := s.buffer)
    cases hheader : s.currentFrameHeader with
    | some header =>
      have hlt := h.payload header hheader
      have hstart : Stage.advance header s.maskingKey s.frameOffset = ([], s.start) := by
        rw [Stage.advance, if_neg hlt.ne, start, hheader]
      have hfuel' : ((s.buffer.drop s.currentReadPos).drop
          (min (s.buffer.drop s.currentReadPos).length
            (header.payloadLength - s.frameOffset))).length < fuel := by
        rw [List.length_drop]
        omega
      have hpayload := produces_payload address frameChunks false hheader hlt.le h.readPos h.error
        hfuel' fun t frameChunks ht => ih frameChunks ht
      rw [hstart] at hpayload
      simpa [hheader] using hpayload
    | none =>
      have hstart : s.start = .inHeader [] := by rw [start, hheader]
      rw [hstart]
      simp only [Option.isNone_none, if_true, true_and, decodeFrameHeader]
      cases hresult : readFrameHeader (s.buffer.drop s.currentReadPos) with
      | none =>
        rw [Stage.feedAll_incomplete hresult]
        simp only [h.error, hheader, ne_eq, not_true_eq_false, if_false]
        refine ⟨true, s, [], by rw [List.append_nil], rfl, ⟨rfl, ?_, ?_, ?_⟩, ?_, ?_⟩
        · exact fun _ => ⟨h.header hheader, hresult⟩
        · intro header hsome
          exact absurd (hheader.symm.trans hsome) (by simp)
        · exact fun herror => absurd h.error herror
        · simp [settle, drain, stage, h.error, hheader]
        · exact ⟨fun _ => h.error, fun _ => rfl⟩
      | some result =>
        obtain ⟨result, rest⟩ := result
        rw [Stage.feedAll_complete hresult]
        obtain ⟨item, hitem, hitemRead, -⟩ := exact_readFrameHeader _ _ _ hresult
        cases result with
        | error error =>
          have herror := readFrameHeader_error hresult
          simp only [ne_eq, herror, not_false_eq_true, if_true]
          refine ⟨false, _, [], by rw [List.append_nil], ?_, ⟨rfl, ?_, ?_, ?_⟩, ?_, ?_⟩
          · simp [Stage.enter, Stage.feedAll_failed]
          · exact fun _ => ⟨rfl, rfl⟩
          · intro header hsome
            cases hsome
          · exact fun _ => rfl
          · simp [settle, stage, herror, Stage.enter, Stage.feedAll_failed]
          · simp [settle, herror]
        | ok found =>
          obtain ⟨header, key⟩ := found
          have hne : item ≠ [] := by
            rintro rfl
            have hempty := hitemRead []
            cases hempty
          have hlength : s.buffer.length - s.currentReadPos = item.length + rest.length := by
            rw [← hlen, hitem, List.length_append]
          have hitemLength : 0 < item.length := List.length_pos_of_ne_nil hne
          -- the parser after the header
          obtain ⟨t, ht⟩ : ∃ t : WebSocketFrameParser, t = { s with
            maskingKey := key, currentFrameHeader := some header
            currentReadPos := s.buffer.length - rest.length } := ⟨_, rfl⟩
          have hrest : t.buffer.drop t.currentReadPos = rest := by
            have hsplit : s.buffer = s.buffer.take s.currentReadPos ++ item ++ rest := by
              rw [List.append_assoc, ← hitem, List.take_append_drop]
            rw [ht]
            simp only
            conv_lhs => rw [hsplit]
            rw [List.length_append, Nat.add_sub_cancel, List.drop_left]
          have hoffset : t.frameOffset = 0 := by rw [ht]; exact h.header hheader
          have hheader' : t.currentFrameHeader = some header := by rw [ht]
          have hfuel' : ((t.buffer.drop t.currentReadPos).drop
              (min (t.buffer.drop t.currentReadPos).length
                (header.payloadLength - t.frameOffset))).length < fuel := by
            rw [hrest, List.length_drop]
            omega
          have hpayload := produces_payload address frameChunks true hheader' (by omega)
            (by rw [ht]; exact Nat.sub_le _ _) (by rw [ht]; exact h.error) hfuel'
            fun t frameChunks ht => ih frameChunks ht
          rw [hrest, hoffset] at hpayload
          rw [ht] at hpayload
          simpa [h.error, Stage.enter] using hpayload

/-- The bytes of an incomplete header are fed again with those that follow. -/
lemma Between.feedAll_start (h : Between s) (herror : s.websocketError = .normalClosure)
    (data : List Byte) : Stage.feedAll s.start (s.buffer ++ data) = Stage.feedAll s.stage data := by
  rw [stage, if_neg (not_not.mpr herror), start, h.readPos, List.drop_zero]
  cases hheader : s.currentFrameHeader with
  | none =>
    simp only
    rw [Stage.feedAll_append, Stage.feedAll_incomplete (h.header hheader).2]
    rfl
  | some header =>
    rw [(h.payload header hheader).1]
    rfl

/-- `Decode` does with its bytes what they do one by one. -/
theorem decode_spec (h : Between s) (data : List Byte) (address : ℕ → ℕ) :
    ∃ ok t new, s.decode data address = some (ok, t, new) ∧
      new.flatMap WebSocketFrameChunk.events = (Stage.feedAll s.stage data).1 ∧ Between t ∧
      t.stage = (Stage.feedAll s.stage data).2 ∧
      (ok = true ↔ t.websocketError = .normalClosure) := by
  unfold decode
  by_cases herror : s.websocketError ≠ .normalClosure
  · have hstage : s.stage = .failed s.websocketError := if_pos herror
    rw [if_pos herror, hstage, Stage.feedAll_failed]
    exact ⟨false, s, [], rfl, rfl, h, hstage, by simp [herror]⟩
  rw [if_neg herror]
  rw [not_not] at herror
  by_cases hdata : data = []
  · rw [if_pos hdata, hdata]
    exact ⟨true, s, [], rfl, rfl, h, rfl, by simp [herror]⟩
  rw [if_neg hdata]
  have hloop : InLoop { s with buffer := s.buffer ++ data } := by
    constructor
    · exact herror
    · exact h.readPos ▸ Nat.zero_le _
    · exact fun hnone => (h.header hnone).1
    · exact fun header hsome => (h.payload header hsome).2
  have hdrop : (s.buffer ++ data).drop s.currentReadPos = s.buffer ++ data := by
    rw [h.readPos, List.drop_zero]
  have hfuel : ((s.buffer ++ data).drop s.currentReadPos).length <
      (s.buffer ++ data).length + 1 := by
    rw [hdrop]
    exact Nat.lt_succ_self _
  obtain ⟨ok, t, new, hresult, hevents, hbetween, hstage, hok⟩ :=
    decodeLoop_spec address [] hloop hfuel
  have hfed : Stage.feedAll (start { s with buffer := s.buffer ++ data })
      ((s.buffer ++ data).drop s.currentReadPos) = Stage.feedAll s.stage data := by
    rw [hdrop]
    exact h.feedAll_start herror data
  rw [hfed] at hevents hstage
  refine ⟨ok, settle ok t, new, ?_, hevents, hbetween, hstage, hok⟩
  simp only [hresult, List.nil_append]
  cases ok <;> rfl

end WebSocketFrameParser

/-! ### Calls -/

/-- A call of `Decode`, with the places of the buffers that it allocates. -/
structure DecodeCall where
  data : List Byte
  address : ℕ → ℕ

namespace WebSocketFrameParser
variable {s : WebSocketFrameParser}

/-- Calls one after another: what the last one returns, the parser, and all chunks. -/
def decodeAll : List DecodeCall → Bool × WebSocketFrameParser × List WebSocketFrameChunk →
    Option (Bool × WebSocketFrameParser × List WebSocketFrameChunk)
  | [], result => some result
  | call :: calls, (_, s, frameChunks) =>
    match s.decode call.data call.address with
    | none => none
    | some (ok, s, new) => decodeAll calls (ok, s, frameChunks ++ new)

/-- What the calls tell of the frames, and the error they end in. -/
def outcome (calls : List DecodeCall) : Option (List FrameEvent × WebSocketError × Bool) :=
  (decodeAll calls (true, {}, [])).map fun result =>
    (result.2.2.flatMap WebSocketFrameChunk.events, result.2.1.websocketError, result.1)

lemma stage_error (s : WebSocketFrameParser) : s.stage.error = s.websocketError := by
  unfold stage
  split_ifs with herror
  · rfl
  · cases s.currentFrameHeader <;> exact (not_not.mp herror).symm

lemma decodeAll_spec (h : Between s) {ok : Bool}
    (hok : ok = true ↔ s.websocketError = .normalClosure) (calls : List DecodeCall)
    (frameChunks : List WebSocketFrameChunk) :
    ∃ ok' t new, decodeAll calls (ok, s, frameChunks) = some (ok', t, frameChunks ++ new) ∧
      new.flatMap WebSocketFrameChunk.events =
        (Stage.feedAll s.stage (calls.flatMap DecodeCall.data)).1 ∧
      t.stage = (Stage.feedAll s.stage (calls.flatMap DecodeCall.data)).2 ∧
      (ok' = true ↔ t.websocketError = .normalClosure) := by
  induction calls generalizing s ok frameChunks with
  | nil => exact ⟨ok, s, [], by rw [List.append_nil]; rfl, rfl, rfl, hok⟩
  | cons call calls ih =>
    obtain ⟨ok₁, t, new, hresult, hevents, ht, hstage, hok₁⟩ := decode_spec h call.data call.address
    obtain ⟨ok', u, new', hresult', hevents', hstage', hok'⟩ := ih ht hok₁ (frameChunks ++ new)
    rw [hstage] at hevents' hstage'
    refine ⟨ok', u, new ++ new', ?_, ?_, ?_, hok'⟩
    · rw [decodeAll, hresult]
      simp only
      rw [hresult', List.append_assoc]
    · rw [List.flatMap_append, hevents, hevents', List.flatMap_cons, Stage.feedAll_append]
    · rw [hstage', List.flatMap_cons, Stage.feedAll_append]

lemma between_init : Between {} := by
  constructor
  · rfl
  · exact fun _ => ⟨rfl, rfl⟩
  · intro header h
    cases h
  · exact fun _ => rfl

/-- The outcome is a function of the bytes. -/
lemma outcome_eq (calls : List DecodeCall) :
    outcome calls = some ((Stage.feedAll (.inHeader []) (calls.flatMap DecodeCall.data)).1,
      (Stage.feedAll (.inHeader []) (calls.flatMap DecodeCall.data)).2.error,
      decide ((Stage.feedAll (.inHeader []) (calls.flatMap DecodeCall.data)).2.error =
        .normalClosure)) := by
  have hinit : stage {} = .inHeader [] := rfl
  have htrue : true = true ↔ ({} : WebSocketFrameParser).websocketError = .normalClosure := by simp
  obtain ⟨ok, t, new, hresult, hevents, hstage, hok⟩ := decodeAll_spec between_init htrue calls []
  rw [hinit] at hevents hstage
  rw [outcome, hresult, Option.map_some, List.nil_append, hevents, ← hstage, stage_error]
  have hbool : ok = decide (t.websocketError = .normalClosure) := by
    rw [Bool.eq_iff_iff, hok, decide_eq_true_eq]
  rw [hbool]

end WebSocketFrameParser

/-! ### Round trip -/

/-- A frame to be written: the opcode fits its four bits and the payload is not too long.
The payload is masked where it lies, at `address`. -/
structure Frame where
  header : WebSocketFrameHeader
  maskingKey : WebSocketMaskingKey
  payload : List Byte
  address : ℕ
  bufferSize : ℕ
  opcode_fits : header.opcode &&& kOpCodeMask.setWidth 32 = header.opcode
  length_eq : payload.length = header.payloadLength
  length_le : header.payloadLength ≤ kint32max
  size_le : getWebSocketFrameHeaderSize header ≤ bufferSize

/-- The frame on the wire. -/
def Frame.wire (f : Frame) : Option (List Byte) :=
  (writeWebSocketFrameHeader f.header f.maskingKey f.bufferSize).map fun bytes =>
    bytes ++ if f.header.masked then maskWebSocketFramePayload f.maskingKey 0 f.address f.payload
      else f.payload

def Frame.events (f : Frame) : List FrameEvent :=
  .header f.header :: f.payload.map .byte ++ [.final]

lemma secondByte_bits (masked : Bool) {n : ℕ} (hn : n < 128) :
    ((bit masked kMaskBit ||| BitVec.ofNat 8 n) &&& kPayloadLengthMask).toNat = n ∧
      decide ((bit masked kMaskBit ||| BitVec.ofNat 8 n) &&& kMaskBit ≠ 0) = masked := by
  have hall : ∀ (masked : Bool) (n : Fin 128),
      ((bit masked kMaskBit ||| BitVec.ofNat 8 n) &&& kPayloadLengthMask).toNat = n ∧
        decide ((bit masked kMaskBit ||| BitVec.ofNat 8 n) &&& kMaskBit ≠ 0) = masked := by
    decide +kernel
  exact hall masked ⟨n, hn⟩

lemma firstByte_bits : ∀ (final reserved1 reserved2 reserved3 : Bool) (opcode : Fin 16),
    let b := bit final kFinalBit ||| bit reserved1 kReserved1Bit ||| bit reserved2 kReserved2Bit |||
      bit reserved3 kReserved3Bit ||| ((BitVec.ofNat 32 opcode).setWidth 8 &&& kOpCodeMask)
    decide (b &&& kFinalBit ≠ 0) = final ∧ decide (b &&& kReserved1Bit ≠ 0) = reserved1 ∧
      decide (b &&& kReserved2Bit ≠ 0) = reserved2 ∧
      decide (b &&& kReserved3Bit ≠ 0) = reserved3 ∧
      (b &&& kOpCodeMask).setWidth 32 = BitVec.ofNat 32 opcode := by
  decide +kernel

lemma readPayloadLength_short {secondByte : Byte} {n : ℕ}
    (hn : (secondByte &&& kPayloadLengthMask).toNat = n) (hle : n ≤ 125) (rest : List Byte) :
    readPayloadLength secondByte rest = some (.ok n, rest) := by
  unfold readPayloadLength kPayloadLengthWithTwoByteExtendedLengthField
    kPayloadLengthWithEightByteExtendedLengthField
  rw [hn, if_neg (by omega), if_neg (by omega)]
  rfl

/-- The length is read as it was written. -/
lemma readPayloadLength_write (masked : Bool) {n : ℕ} (hn : n ≤ kint32max) :
    ∃ secondByte extended, writePayloadLength masked n = secondByte :: extended ∧
      decide (secondByte &&& kMaskBit ≠ 0) = masked ∧
      ∀ rest, readPayloadLength secondByte (extended ++ rest) = some (.ok n, rest) := by
  unfold writePayloadLength
  by_cases hshort : n ≤ kMaxPayloadLengthWithoutExtendedLengthField
  · obtain ⟨hlength, hmask⟩ := secondByte_bits masked (Nat.lt_of_le_of_lt hshort (by decide))
    rw [if_pos hshort]
    exact ⟨_, _, rfl, hmask, readPayloadLength_short hlength hshort⟩
  rw [if_neg hshort]
  by_cases hmedium : n ≤ kuint16max
  · obtain ⟨hlength, hmask⟩ := secondByte_bits masked
      (show kPayloadLengthWithTwoByteExtendedLengthField < 128 by decide)
    have hread : readBigEndian (writeBigEndian 2 n) = n :=
      readBigEndian_writeBigEndian (Nat.lt_of_le_of_lt hmedium (by decide))
    rw [if_pos hmedium]
    refine ⟨_, _, rfl, hmask, fun rest => ?_⟩
    have htake := Reader.take_append (writeBigEndian 2 n) rest
    rw [writeBigEndian_length] at htake
    unfold readPayloadLength
    rw [if_pos hlength, Reader.map_some htake, hread, if_neg hshort]
  · obtain ⟨hlength, hmask⟩ := secondByte_bits masked
      (show kPayloadLengthWithEightByteExtendedLengthField < 128 by decide)
    have hread : readBigEndian (writeBigEndian 8 n) = n :=
      readBigEndian_writeBigEndian (Nat.lt_of_le_of_lt hn (by decide))
    have hlarge : ¬ (n ≤ kuint16max ∨ n > kint64max) := by
      unfold kint32max at hn
      unfold kint64max
      omega
    rw [if_neg hmedium]
    refine ⟨_, _, rfl, hmask, fun rest => ?_⟩
    have htake := Reader.take_append (writeBigEndian 8 n) rest
    rw [writeBigEndian_length] at htake
    have hne : ¬ ((bit masked kMaskBit ||| BitVec.ofNat 8
        kPayloadLengthWithEightByteExtendedLengthField) &&& kPayloadLengthMask).toNat =
        kPayloadLengthWithTwoByteExtendedLengthField := by
      intro heq
      exact absurd (hlength.symm.trans heq) (by decide)
    unfold readPayloadLength
    rw [if_neg hne, if_pos hlength, Reader.map_some htake, hread, if_neg hlarge,
      if_neg (not_lt.mpr hn)]

lemma readMaskingKey_write (masked : Bool) (key : WebSocketMaskingKey) (rest : List Byte) :
    readMaskingKey masked ((if masked then List.ofFn key else []) ++ rest) =
      some (if masked then key else fun _ => 0, rest) := by
  cases masked with
  | false => rfl
  | true =>
    have htake := Reader.take_append (List.ofFn key) rest
    rw [List.length_ofFn] at htake
    have hkey : (fun i : Fin 4 => (List.ofFn key).getD i 0) = key := by
      funext i
      fin_cases i <;> rfl
    have hread := Reader.map_some (g := fun bytes (i : Fin 4) => bytes.getD i 0) htake
    rw [hkey] at hread
    exact hread

lemma exists_opcode {opcode : BitVec 32} (h : opcode &&& kOpCodeMask.setWidth 32 = opcode) :
    ∃ n : Fin 16, opcode = BitVec.ofNat 32 n := by
  have hlt : opcode.toNat < 16 := by
    rw [← h, BitVec.toNat_and]
    exact Nat.lt_of_le_of_lt Nat.and_le_right (by decide)
  exact ⟨⟨opcode.toNat, hlt⟩, by simp⟩

/-- A header is read as it was written. -/
theorem readFrameHeader_write (f : Frame) :
    ∃ bytes, writeWebSocketFrameHeader f.header f.maskingKey f.bufferSize = some bytes ∧
      ∀ rest, readFrameHeader (bytes ++ rest) =
        some (.ok (f.header, if f.header.masked then f.maskingKey else fun _ => 0), rest) := by
  obtain ⟨secondByte, extended, hwrite, hmasked, hlength⟩ :=
    readPayloadLength_write f.header.masked f.length_le
  refine ⟨_, if_neg (not_lt.mpr f.size_le), fun rest => ?_⟩
  obtain ⟨after, hafter⟩ : ∃ after, after =
    extended ++ ((if f.header.masked then List.ofFn f.maskingKey else []) ++ rest) := ⟨_, rfl⟩
  have htake : Reader.take kBaseHeaderSize (firstByte f.header :: secondByte :: after) =
      some ([firstByte f.header, secondByte], after) :=
    Reader.take_append [firstByte f.header, secondByte] after
  rw [hwrite]
  simp only [List.cons_append, List.append_assoc]
  rw [← hafter]
  unfold readFrameHeader
  rw [Reader.bind_some htake]
  simp only [List.getD_cons_succ, List.getD_cons_zero, hmasked]
  rw [hafter, Reader.bind_some (hlength _)]
  simp only
  rw [Reader.map_some (readMaskingKey_write f.header.masked f.maskingKey rest)]
  obtain ⟨opcode, hopcode⟩ := exists_opcode f.opcode_fits
  obtain ⟨hfinal, hreserved1, hreserved2, hreserved3, hop⟩ := firstByte_bits f.header.final
    f.header.reserved1 f.header.reserved2 f.header.reserved3 opcode
  rw [← hopcode] at hfinal hreserved1 hreserved2 hreserved3 hop
  unfold firstByte
  rw [hfinal, hreserved1, hreserved2, hreserved3, hop]

/-- A frame on the wire gives its header, its payload and its end. -/
lemma feedAll_wire (f : Frame) :
    ∃ wire, f.wire = some wire ∧
      ∀ rest, Stage.feedAll (.inHeader []) (wire ++ rest) =
        (f.events ++ (Stage.feedAll (.inHeader []) rest).1,
          (Stage.feedAll (.inHeader []) rest).2) := by
  obtain ⟨bytes, hbytes, hread⟩ := readFrameHeader_write f
  refine ⟨_, by rw [Frame.wire, hbytes]; rfl, fun rest => ?_⟩
  obtain ⟨data, hdata⟩ : ∃ data, data = if f.header.masked = true then
    maskWebSocketFramePayload f.maskingKey 0 f.address f.payload else f.payload := ⟨_, rfl⟩
  have hunmask : Stage.unmask f.header (if f.header.masked then f.maskingKey else fun _ => 0) 0
      data = f.payload := by
    rw [hdata, Stage.unmask, maskWebSocketFramePayload_eq]
    split_ifs
    · exact maskByBytes_maskByBytes _ _ _
    · rfl
  have hlen : data.length = f.header.payloadLength := by
    rw [hdata, maskWebSocketFramePayload_eq, ← f.length_eq]
    split_ifs
    · exact maskByBytes_length _ _ _
    · rfl
  rw [← hdata, List.append_assoc, Stage.feedAll_complete (hread _), Stage.enter]
  have hn : data.length = min (data ++ rest).length (f.header.payloadLength - 0) := by
    rw [List.length_append]
    omega
  have hadvance := Stage.feedAll_advance (if f.header.masked then f.maskingKey else fun _ => 0) hn
    (Nat.zero_le _)
  rw [List.take_left, List.drop_left, hunmask, hlen, Prod.mk.injEq] at hadvance
  have hend : Stage.advance f.header (if f.header.masked then f.maskingKey else fun _ => 0)
      (0 + f.header.payloadLength) = ([.final], .inHeader []) := if_pos (Nat.zero_add _)
  rw [hend] at hadvance
  simp only [List.cons_append, hadvance.1, hadvance.2, Frame.events, List.append_assoc]

/-- Frames on the wire, one after another. -/
lemma feedAll_wires (frames : List Frame) :
    ∃ wires, frames.mapM Frame.wire = some wires ∧
      Stage.feedAll (.inHeader []) wires.flatten = (frames.flatMap Frame.events, .inHeader []) := by
  induction frames with
  | nil => exact ⟨[], rfl, rfl⟩
  | cons f frames ih =>
    obtain ⟨wire, hwire, hfeed⟩ := feedAll_wire f
    obtain ⟨wires, hwires, hfeeds⟩ := ih
    refine ⟨wire :: wires, by rw [List.mapM_cons, hwire, hwires]; rfl, ?_⟩
    rw [List.flatten_cons, hfeed, hfeeds, List.flatMap_cons]

/-- Parsing does not depend on how the bytes are cut into calls, and it gives back the
frames that were written. -/
theorem outcome_cut_and_round_trip :
    (∀ calls calls' : List DecodeCall,
      calls.flatMap DecodeCall.data = calls'.flatMap DecodeCall.data →
      ∃ result, WebSocketFrameParser.outcome calls = some result ∧
        WebSocketFrameParser.outcome calls' = some result) ∧
    ∀ frames : List Frame, ∃ wires, frames.mapM Frame.wire = some wires ∧
      ∀ calls : List DecodeCall, calls.flatMap DecodeCall.data = wires.flatten →
        WebSocketFrameParser.outcome calls =
          some (frames.flatMap Frame.events, .normalClosure, true) := by
  constructor
  · intro calls calls' hbytes
    refine ⟨_, WebSocketFrameParser.outcome_eq calls, ?_⟩
    rw [WebSocketFrameParser.outcome_eq calls', hbytes]
  · intro frames
    obtain ⟨wires, hwires, hfeed⟩ := feedAll_wires frames
    refine ⟨wires, hwires, fun calls hcalls => ?_⟩
    rw [WebSocketFrameParser.outcome_eq, hcalls, hfeed]
    rfl

/-- A masked text frame, cut inside its header and inside its payload. -/
theorem outcome_cut_and_round_trip_text :
    ∃ f : Frame, f.payload = [0x61, 0x62, 0x63, 0x64, 0x65] ∧ f.header.masked = true ∧
      ∃ wire, f.wire = some wire ∧
        WebSocketFrameParser.outcome
          [⟨wire.take 3, fun _ => 0⟩, ⟨[], fun _ => 0⟩, ⟨(wire.drop 3).take 5, fun _ => 5⟩,
            ⟨wire.drop 8, fun _ => 1⟩] = some (f.events, .normalClosure, true) := by
  let f : Frame :=
    { header := ⟨true, false, false, false, 1, true, 5⟩
      maskingKey := fun i => BitVec.ofNat 8 (i + 1)
      payload := [0x61, 0x62, 0x63, 0x64, 0x65]
      address := 3
      bufferSize := 14
      opcode_fits := by decide
      length_eq := rfl
      length_le := by decide
      size_le := by decide }
  obtain ⟨wires, hwires, hround⟩ := outcome_cut_and_round_trip.2 [f]
  obtain ⟨wire, hwire, -⟩ := feedAll_wire f
  refine ⟨f, rfl, rfl, wire, hwire, ?_⟩
  rw [List.mapM_cons, List.mapM_nil, hwire] at hwires
  cases hwires
  rw [hround]
  · simp
  · have hdrop : (wire.drop 3).take 5 ++ wire.drop 8 = wire.drop 3 := by
      rw [← List.drop_drop (i := 5) (j := 3), List.take_append_drop]
    simp [hdrop]

end Chromium.WebSocket
