import Chromium.WebSocketChannel
import Chromium.WebSocketFrameParser

/-!
# The basic stream of a WebSocket

`net/websockets/websocket_basic_stream.cc`. The chunks of the parser become frames again: a data
frame is passed on in pieces, chunk by chunk, and a control frame is put together first.
-/
namespace Chromium.WebSocket

def kMaxControlFramePayload : ℕ := 125

/-- The results of a read. -/
inductive NetError
  | ok
  | errIOPending
  | errConnectionClosed
  | errWSProtocolError
  | errMsgTooBig
  /-- Any error of the socket. -/
  | errSocket
  deriving DecidableEq, Repr

def webSocketErrorToNetError : WebSocketError → NetError
  | .normalClosure => .ok
  | .protocolError => .errWSProtocolError
  | .messageTooBig => .errMsgTooBig

structure WebSocketBasicStream where
  httpReadBuffer : Option DecodeCall := none
  parser : WebSocketFrameParser := {}
  currentFrameHeader : Option WebSocketFrameHeader := none
  incompleteControlFrameBody : Option (List Byte) := none

namespace WebSocketBasicStream
variable (s : WebSocketBasicStream)

/-- The frame, where one is passed on, and `current_frame_header_` after it. -/
def createFrame (isFinalChunk : Bool) (data : Option (List Byte)) (header : WebSocketFrameHeader) :
    Option WebSocketFrame × Option WebSocketFrameHeader :=
  let isFinalChunkInMessage := isFinalChunk && header.final
  let dataSize := (data.getD []).length
  let (resultFrame, header) : Option WebSocketFrame × WebSocketFrameHeader :=
    if isFinalChunkInMessage ∨ dataSize > 0 ∨ header.opcode ≠ kOpCodeContinuation then
      (some
        { header := { header with final := isFinalChunkInMessage, payloadLength := dataSize }
          data
          payloadLength_eq := rfl },
        if isKnownDataOpCode header.opcode then { header with opcode := kOpCodeContinuation }
        else header)
    else (none, header)
  (resultFrame, if isFinalChunk then none else some header)

/-- The body after the data is added, which the buffer must have room for. -/
def addToIncompleteControlFrameBody (dataBuffer : Option (List Byte)) (body : List Byte) :
    Option (List Byte) :=
  match dataBuffer with
  | none => some body
  | some data =>
    if body.length + data.length ≤ kMaxControlFramePayload then some (body ++ data) else none

/-- The end of `ConvertChunkToFrame`, where the chunk makes a frame of its own. -/
def convertToWholeFrame (chunk : WebSocketFrameChunk) (header : WebSocketFrameHeader) :
    NetError × Option WebSocketFrame × WebSocketBasicStream :=
  let (frame, currentFrameHeader) := createFrame chunk.finalChunk chunk.data header
  (.ok, frame, { s with currentFrameHeader })

/-- There is no result where there is no header, or no room in the buffer. -/
def convertChunkToFrame (chunk : WebSocketFrameChunk) :
    Option (NetError × Option WebSocketFrame × WebSocketBasicStream) :=
  match chunk.header.or s.currentFrameHeader with
  | none => none
  | some header =>
    if isKnownControlOpCode header.opcode then
      if !header.final || header.payloadLength > kMaxControlFramePayload then
        some (.errWSProtocolError, none, { s with currentFrameHeader := none })
      else if !chunk.finalChunk then
        (addToIncompleteControlFrameBody chunk.data
          (s.incompleteControlFrameBody.getD [])).map fun body =>
            (.ok, none,
              { s with
                currentFrameHeader := some header, incompleteControlFrameBody := some body })
      else
        match s.incompleteControlFrameBody with
        | none => some (s.convertToWholeFrame chunk header)
        | some body =>
          (addToIncompleteControlFrameBody chunk.data body).map fun body =>
            let (frame, currentFrameHeader) := createFrame chunk.finalChunk (some body) header
            (.ok, frame, { s with currentFrameHeader, incompleteControlFrameBody := none })
    else some (s.convertToWholeFrame chunk header)

/-- The loop of `ConvertChunksToFrames`. -/
def convertLoop : List WebSocketFrameChunk → WebSocketBasicStream → List WebSocketFrame →
    Option (NetError × List WebSocketFrame × WebSocketBasicStream)
  | [], s, frames => some (.ok, frames, s)
  | chunk :: frameChunks, s, frames =>
    match s.convertChunkToFrame chunk with
    | none => none
    | some (result, frame, s) =>
      if result ≠ .ok then some (result, frames, s)
      else convertLoop frameChunks s (frames ++ frame.toList)

def convertChunksToFrames (frameChunks : List WebSocketFrameChunk) :
    Option (NetError × List WebSocketFrame × WebSocketBasicStream) :=
  (convertLoop frameChunks s []).map fun (result, frames, s) =>
    (if result = .ok ∧ frames = [] then .errIOPending else result, frames, s)

/-- What the socket gives: bytes, of which there are none at the end, or an error. -/
inductive SocketRead
  | bytes (call : DecodeCall)
  | error

/-- The common part of `ReadFrames` and `HandleReadResult`. -/
def decodeAndConvert (call : DecodeCall) :
    Option (NetError × List WebSocketFrame × WebSocketBasicStream) :=
  match s.parser.decode call.data call.address with
  | none => none
  | some (false, parser, _) =>
    some (webSocketErrorToNetError parser.websocketError, [], { s with parser })
  | some (true, parser, frameChunks) =>
    if frameChunks.isEmpty then some (.errIOPending, [], { s with parser })
    else convertChunksToFrames { s with parser } frameChunks

def handleReadResult (result : SocketRead) :
    Option (NetError × List WebSocketFrame × WebSocketBasicStream) :=
  match result with
  | .error => some (.errSocket, [], s)
  | .bytes call =>
    if call.data = [] then some (.errConnectionClosed, [], s) else s.decodeAndConvert call

/-- The loop of `ReadFrames`, which `OnReadComplete` continues: the socket's results are used up
until there is something to return, and the rest is left. -/
def readLoop : List SocketRead → WebSocketBasicStream →
    Option (NetError × List WebSocketFrame × WebSocketBasicStream × List SocketRead)
  | [], s => some (.errIOPending, [], s, [])
  | read :: reads, s =>
    match s.handleReadResult read with
    | none => none
    | some (result, frames, s) =>
      if result = .errIOPending then readLoop reads s else some (result, frames, s, reads)

def readFrames (reads : List SocketRead) :
    Option (NetError × List WebSocketFrame × WebSocketBasicStream × List SocketRead) :=
  match s.httpReadBuffer with
  | none => readLoop reads s
  | some bufferedData =>
    let s : WebSocketBasicStream := { s with httpReadBuffer := none }
    match s.decodeAndConvert bufferedData with
    | none => none
    | some (result, frames, s) =>
      if result = .errIOPending then readLoop reads s else some (result, frames, s, reads)

/-- Calls of `ReadFrames` one after another, until one waits for the socket or fails: all frames
that they give. -/
def readAll : ℕ → List SocketRead → WebSocketBasicStream →
    Option (NetError × List WebSocketFrame × WebSocketBasicStream)
  | 0, _, _ => none
  | calls + 1, reads, s =>
    match s.readFrames reads with
    | none => none
    | some (result, frames, s, reads) =>
      if result = .ok then
        (readAll calls reads s).map fun (result, more, s) => (result, frames ++ more, s)
      else some (result, frames, s)

end WebSocketBasicStream

/-! ### Frames in chunks -/

/-- Chunks after the first one of a frame. -/
def restChunks : List (Option (List Byte)) → List WebSocketFrameChunk
  | [] => []
  | data :: rest => ⟨none, rest.isEmpty, data⟩ :: restChunks rest

/-- A frame that is cut into chunks. -/
structure FrameCut where
  header : WebSocketFrameHeader
  first : Option (List Byte)
  rest : List (Option (List Byte))
  length_eq : ((first :: rest).flatMap fun data => data.getD []).length = header.payloadLength

namespace FrameCut
variable (cut : FrameCut)

def chunks : List WebSocketFrameChunk :=
  ⟨some cut.header, cut.rest.isEmpty, cut.first⟩ :: restChunks cut.rest

def payload : List Byte := (cut.first :: cut.rest).flatMap fun data => data.getD []

/-- What the stream gives for the chunks of the frame. -/
def pieces : List WebSocketFrame :=
  match WebSocketBasicStream.convertLoop cut.chunks {} [] with
  | some (_, frames, _) => frames
  | none => []

end FrameCut

namespace WebSocketFrameHeader

/-- The headers of valid frames: the opcodes are known, and a control frame is not fragmented and
not long. -/
def Valid (header : WebSocketFrameHeader) : Prop :=
  isKnownDataOpCode header.opcode = true ∨
    isKnownControlOpCode header.opcode = true ∧ header.final = true ∧
      header.payloadLength ≤ kMaxControlFramePayload

def reserved (header : WebSocketFrameHeader) : Bool × Bool × Bool :=
  (header.reserved1, header.reserved2, header.reserved3)

end WebSocketFrameHeader

/-- The pieces of a data frame: together they have its payload, the first has its opcode and its
reserved bits, the others continue it, and the last one ends what the frame ends. -/
structure DataDelivered (header : WebSocketFrameHeader) (payload : List Byte)
    (pieces : List WebSocketFrame) : Prop where
  payload_eq : pieces.flatMap WebSocketFrame.payload = payload
  head : ∀ piece ∈ pieces.head?,
    piece.header.opcode = header.opcode ∧ piece.header.reserved = header.reserved
  tail : ∀ piece ∈ pieces.tail,
    piece.header.opcode = kOpCodeContinuation ∧ piece.header.reserved = (false, false, false)
  init : ∀ piece ∈ pieces.dropLast, piece.header.final = false
  last : ∀ piece ∈ pieces.getLast?, piece.header.final = header.final
  nonempty : header.final = true ∨ header.opcode ≠ kOpCodeContinuation → pieces ≠ []

/-- A control frame is passed on once and whole. -/
def ControlDelivered (header : WebSocketFrameHeader) (payload : List Byte)
    (pieces : List WebSocketFrame) : Prop :=
  ∃ frame, pieces = [frame] ∧ frame.header = header ∧ frame.payload = payload

namespace FrameCut
variable (cut : FrameCut)

def Delivered : Prop :=
  (isKnownControlOpCode cut.header.opcode = true →
    ControlDelivered cut.header cut.payload cut.pieces) ∧
  (isKnownDataOpCode cut.header.opcode = true →
    DataDelivered cut.header cut.payload cut.pieces)

/-- A chunk of a data frame that is passed on: it has payload, or ends a message, or starts one. -/
def passesOn (header : WebSocketFrameHeader) (chunk : WebSocketFrameChunk) : Bool :=
  chunk.data.getD [] ≠ [] || (chunk.finalChunk && header.final) ||
    (chunk.header.isSome && header.opcode ≠ kOpCodeContinuation)

/-- A data frame with reserved bits has at most one chunk that is passed on. -/
def ReservedUnsplit : Prop :=
  isKnownDataOpCode cut.header.opcode = true → cut.header.reserved ≠ (false, false, false) →
    cut.chunks.countP (passesOn cut.header) ≤ 1

end FrameCut

namespace WebSocketBasicStream

section Converts
variable {s s' s'' : WebSocketBasicStream} {chunk : WebSocketFrameChunk}
  {chunks chunks' : List WebSocketFrameChunk} {frames frames' pieces pieces' : List WebSocketFrame}

/-- The loop ends well exactly when each chunk is converted. -/
lemma convertLoop_cons : convertLoop (chunk :: chunks) s frames = some (.ok, frames', s'') ↔
    ∃ frame s', s.convertChunkToFrame chunk = some (.ok, frame, s') ∧
      convertLoop chunks s' (frames ++ frame.toList) = some (.ok, frames', s'') := by
  rw [convertLoop]
  cases hstep : s.convertChunkToFrame chunk with
  | none => simp
  | some step =>
    obtain ⟨result, frame, t⟩ := step
    by_cases hok : result = .ok
    · subst hok
      simp
    · simp [hok]

lemma convertLoop_append : convertLoop (chunks ++ chunks') s frames = some (.ok, frames', s'') ↔
    ∃ middle s', convertLoop chunks s frames = some (.ok, middle, s') ∧
      convertLoop chunks' s' middle = some (.ok, frames', s'') := by
  induction chunks generalizing s frames with
  | nil => simp [convertLoop]
  | cons chunk chunks ih =>
    rw [List.cons_append, convertLoop_cons]
    simp only [convertLoop_cons, ih]
    constructor
    · rintro ⟨frame, t, hstep, middle, s', hfirst, hsecond⟩
      exact ⟨middle, s', ⟨frame, t, hstep, hfirst⟩, hsecond⟩
    · rintro ⟨middle, s', ⟨frame, t, hstep, hfirst⟩, hsecond⟩
      exact ⟨frame, t, hstep, middle, s', hfirst, hsecond⟩

/-- Chunks that are converted without an error, whatever frames are there before. -/
def Converts (s : WebSocketBasicStream) (chunks : List WebSocketFrameChunk)
    (pieces : List WebSocketFrame) (s' : WebSocketBasicStream) : Prop :=
  ∀ frames, convertLoop chunks s frames = some (.ok, frames ++ pieces, s')

lemma Converts.nil (s : WebSocketBasicStream) : Converts s [] [] s := by
  intro frames
  rw [convertLoop, List.append_nil]

lemma Converts.cons {frame : Option WebSocketFrame}
    (h : s.convertChunkToFrame chunk = some (.ok, frame, s'))
    (hrest : Converts s' chunks pieces s'') :
    Converts s (chunk :: chunks) (frame.toList ++ pieces) s'' := by
  intro frames
  rw [convertLoop_cons]
  exact ⟨frame, s', h, by rw [hrest, List.append_assoc]⟩

lemma Converts.append (h : Converts s chunks pieces s') (h' : Converts s' chunks' pieces' s'') :
    Converts s (chunks ++ chunks') (pieces ++ pieces') s'' := by
  intro frames
  rw [convertLoop_append]
  exact ⟨_, s', h frames, by rw [h', List.append_assoc]⟩

/-- What the loop adds does not depend on the frames before. -/
lemma converts_of_convertLoop (h : convertLoop chunks s frames = some (.ok, frames', s')) :
    ∃ pieces, frames' = frames ++ pieces ∧ Converts s chunks pieces s' := by
  induction chunks generalizing s frames with
  | nil =>
    rw [convertLoop] at h
    cases h
    exact ⟨[], (List.append_nil _).symm, .nil _⟩
  | cons chunk chunks ih =>
    obtain ⟨frame, t, hstep, hloop⟩ := convertLoop_cons.mp h
    obtain ⟨pieces, heq, hrest⟩ := ih hloop
    exact ⟨frame.toList ++ pieces, by rw [heq, List.append_assoc], .cons hstep hrest⟩

/-- Chunks that are converted together are converted in two parts. -/
lemma Converts.split (h : Converts s (chunks ++ chunks') pieces s'') :
    ∃ first second s', pieces = first ++ second ∧ Converts s chunks first s' ∧
      Converts s' chunks' second s'' := by
  obtain ⟨middle, s', hfirst, hsecond⟩ := convertLoop_append.mp (h [])
  obtain ⟨first, hmiddle, hfirst⟩ := converts_of_convertLoop hfirst
  obtain ⟨second, hpieces, hsecond⟩ := converts_of_convertLoop hsecond
  exact ⟨first, second, s', by rw [hmiddle] at hpieces; exact hpieces, hfirst, hsecond⟩

end Converts

/-! ### Data frames -/

variable {s : WebSocketBasicStream} {header : WebSocketFrameHeader} {chunk : WebSocketFrameChunk}

/-- The header for the pieces after the first one. -/
def continued (header : WebSocketFrameHeader) : WebSocketFrameHeader :=
  { header with opcode := kOpCodeContinuation }

/-- The piece of a data frame with the data of one chunk, where it is passed on. -/
def dataPiece (header : WebSocketFrameHeader) (finalChunk : Bool) (data : Option (List Byte)) :
    Option WebSocketFrame :=
  (createFrame finalChunk data header).1

def dataPieces : WebSocketFrameHeader → List (Option (List Byte)) → List WebSocketFrame
  | _, [] => []
  | header, data :: rest =>
    (dataPiece header rest.isEmpty data).toList ++ dataPieces (continued header) rest

lemma not_control_of_data (h : isKnownDataOpCode header.opcode = true) :
    isKnownControlOpCode header.opcode = false := by
  simp only [isKnownDataOpCode, Bool.or_eq_true, decide_eq_true_eq] at h
  cases h with
  | inl h =>
    cases h with
    | inl h => rw [h]; decide
    | inr h => rw [h]; decide
  | inr h => rw [h]; decide

/-- A chunk that is not passed on continues a frame already. -/
lemma createFrame_snd (h : isKnownDataOpCode header.opcode = true) (finalChunk : Bool)
    (data : Option (List Byte)) :
    (createFrame finalChunk data header).2 =
      if finalChunk then none else some (continued header) := by
  unfold createFrame
  by_cases hpass : (finalChunk && header.final) = true ∨ (data.getD []).length > 0 ∨
      header.opcode ≠ kOpCodeContinuation
  · dsimp only
    rw [if_pos hpass, if_pos h]
    rfl
  · dsimp only
    rw [if_neg hpass]
    simp only [not_or, not_not] at hpass
    rw [continued, ← hpass.2.2]

lemma convertChunkToFrame_data (h : isKnownDataOpCode header.opcode = true)
    (hheader : chunk.header.or s.currentFrameHeader = some header) :
    s.convertChunkToFrame chunk =
      some (.ok, dataPiece header chunk.finalChunk chunk.data,
        { s with
          currentFrameHeader := if chunk.finalChunk then none else some (continued header) }) := by
  rw [convertChunkToFrame, hheader]
  simp only [not_control_of_data h, Bool.false_eq_true, if_false]
  rw [convertToWholeFrame, ← createFrame_snd h chunk.finalChunk chunk.data]
  rfl

/-- The chunks after the first one. -/
lemma converts_restChunks (h : header.opcode = kOpCodeContinuation)
    {rest : List (Option (List Byte))} (hrest : rest ≠ []) :
    Converts { s with currentFrameHeader := some header } (restChunks rest)
      (dataPieces header rest) { s with currentFrameHeader := none } := by
  have hdata : isKnownDataOpCode header.opcode = true := by
    rw [h]
    decide
  have hcontinued : continued header = header := by rw [continued, ← h]
  induction rest with
  | nil => exact absurd rfl hrest
  | cons data rest ih =>
    rw [restChunks, dataPieces, hcontinued]
    refine .cons (convertChunkToFrame_data hdata rfl) ?_
    cases rest with
    | nil => exact .nil _
    | cons next rest =>
      simp only [List.isEmpty_cons, Bool.false_eq_true, if_false, hcontinued]
      exact ih (List.cons_ne_nil _ _)

/-- A data frame between other frames. -/
lemma converts_data (cut : FrameCut) (h : isKnownDataOpCode cut.header.opcode = true) :
    Converts { s with currentFrameHeader := none } cut.chunks
      (dataPieces cut.header (cut.first :: cut.rest)) { s with currentFrameHeader := none } := by
  rw [FrameCut.chunks, dataPieces]
  refine .cons (convertChunkToFrame_data h rfl) ?_
  cases hrest : cut.rest with
  | nil => exact .nil _
  | cons next rest =>
    rw [← hrest]
    have hne : cut.rest ≠ [] := by simp [hrest]
    simp only [List.isEmpty_eq_false_iff.mpr hne, Bool.false_eq_true, if_false]
    exact converts_restChunks rfl hne

lemma dataPiece_eq (finalChunk : Bool) (data : Option (List Byte)) :
    dataPiece header finalChunk data =
      if (finalChunk && header.final) = true ∨ (data.getD []).length > 0 ∨
          header.opcode ≠ kOpCodeContinuation then
        some
          { header :=
              { header with
                final := finalChunk && header.final, payloadLength := (data.getD []).length }
            data
            payloadLength_eq := rfl }
      else none := by
  unfold dataPiece createFrame
  dsimp only
  by_cases hpass : (finalChunk && header.final) = true ∨ (data.getD []).length > 0 ∨
      header.opcode ≠ kOpCodeContinuation
  · rw [if_pos hpass, if_pos hpass]
  · rw [if_neg hpass, if_neg hpass]

lemma dataPiece_some {finalChunk : Bool} {data : Option (List Byte)} {piece : WebSocketFrame}
    (h : dataPiece header finalChunk data = some piece) :
    piece.header.opcode = header.opcode ∧ piece.header.reserved = header.reserved ∧
      piece.header.final = (finalChunk && header.final) ∧ piece.payload = data.getD [] := by
  rw [dataPiece_eq] at h
  split_ifs at h
  cases h
  exact ⟨rfl, rfl, rfl, rfl⟩

lemma dataPiece_none {finalChunk : Bool} {data : Option (List Byte)}
    (h : dataPiece header finalChunk data = none) :
    (finalChunk && header.final) = false ∧ data.getD [] = [] ∧
      header.opcode = kOpCodeContinuation := by
  rw [dataPiece_eq] at h
  split_ifs at h with hpass
  simp only [not_or, not_not, gt_iff_lt, not_lt, Nat.le_zero_eq, List.length_eq_zero_iff,
    Bool.not_eq_true] at hpass
  exact hpass

lemma payload_dataPieces (header : WebSocketFrameHeader) (datas : List (Option (List Byte))) :
    (dataPieces header datas).flatMap WebSocketFrame.payload =
      datas.flatMap fun data => data.getD [] := by
  induction datas generalizing header with
  | nil => rfl
  | cons data rest ih =>
    rw [dataPieces, List.flatMap_append, ih, List.flatMap_cons]
    congr 1
    cases hpiece : dataPiece header rest.isEmpty data with
    | none => exact (dataPiece_none hpiece).2.1.symm
    | some piece =>
      rw [Option.toList_some, List.flatMap_singleton]
      exact (dataPiece_some hpiece).2.2.2

/-- Every piece has the reserved bits of the frame. -/
lemma reserved_dataPieces {datas : List (Option (List Byte))} {piece : WebSocketFrame}
    (hpiece : piece ∈ dataPieces header datas) : piece.header.reserved = header.reserved := by
  induction datas generalizing header with
  | nil => exact absurd hpiece List.not_mem_nil
  | cons data rest ih =>
    rw [dataPieces] at hpiece
    cases List.mem_append.mp hpiece with
    | inl hfirst => exact (dataPiece_some (Option.mem_toList.mp hfirst)).2.1
    | inr hlater => exact @ih (continued header) hlater

lemma opcode_dataPieces (h : header.opcode = kOpCodeContinuation)
    {datas : List (Option (List Byte))} {piece : WebSocketFrame}
    (hpiece : piece ∈ dataPieces header datas) : piece.header.opcode = kOpCodeContinuation := by
  induction datas generalizing header with
  | nil => exact absurd hpiece List.not_mem_nil
  | cons data rest ih =>
    rw [dataPieces] at hpiece
    cases List.mem_append.mp hpiece with
    | inl hfirst => exact (dataPiece_some (Option.mem_toList.mp hfirst)).1.trans h
    | inr hlater => exact ih rfl hlater

lemma head_dataPieces {datas : List (Option (List Byte))} {piece : WebSocketFrame}
    (hpiece : piece ∈ (dataPieces header datas).head?) : piece.header.opcode = header.opcode := by
  cases datas with
  | nil => cases hpiece
  | cons data rest =>
    rw [dataPieces] at hpiece
    cases hfirst : dataPiece header rest.isEmpty data with
    | none =>
      rw [hfirst] at hpiece
      rw [(dataPiece_none hfirst).2.2]
      exact opcode_dataPieces rfl (List.mem_of_mem_head? hpiece)
    | some first =>
      rw [hfirst] at hpiece
      cases hpiece
      exact (dataPiece_some hfirst).1

lemma tail_dataPieces {datas : List (Option (List Byte))} {piece : WebSocketFrame}
    (hpiece : piece ∈ (dataPieces header datas).tail) :
    piece.header.opcode = kOpCodeContinuation := by
  cases datas with
  | nil => exact absurd hpiece List.not_mem_nil
  | cons data rest =>
    rw [dataPieces] at hpiece
    cases hfirst : dataPiece header rest.isEmpty data with
    | none =>
      rw [hfirst] at hpiece
      exact opcode_dataPieces rfl (List.mem_of_mem_tail hpiece)
    | some first =>
      rw [hfirst] at hpiece
      exact opcode_dataPieces rfl hpiece

/-- Only the last piece may end the message, and it does when the frame does. -/
structure Ended (final : Bool) (pieces : List WebSocketFrame) : Prop where
  init : ∀ piece ∈ pieces.dropLast, piece.header.final = false
  last : ∀ piece ∈ pieces.getLast?, piece.header.final = final
  nonempty : final = true → pieces ≠ []

lemma Ended.cons {final : Bool} {pieces : List WebSocketFrame} (h : Ended final pieces)
    {piece : WebSocketFrame} (hpiece : piece.header.final = false) :
    Ended final (piece :: pieces) := by
  refine ⟨?_, ?_, fun _ => List.cons_ne_nil _ _⟩
  · cases pieces with
    | nil => simp
    | cons next pieces =>
      rw [List.dropLast_cons_cons, List.forall_mem_cons]
      exact ⟨hpiece, h.init⟩
  · cases pieces with
    | nil =>
      have hfinal : final = false := by
        by_contra hfinal
        exact h.nonempty (Bool.not_eq_false _ ▸ hfinal) rfl
      simp [hpiece, hfinal]
    | cons next pieces =>
      rw [List.getLast?_cons_cons]
      exact h.last

lemma ended_dataPieces {datas : List (Option (List Byte))} (hne : datas ≠ []) :
    Ended header.final (dataPieces header datas) := by
  induction datas generalizing header with
  | nil => exact absurd rfl hne
  | cons data rest ih =>
    rw [dataPieces]
    cases hrest : rest with
    | nil =>
      rw [List.isEmpty_nil, dataPieces, List.append_nil]
      cases hpiece : dataPiece header true data with
      | none =>
        have hfinal := (dataPiece_none hpiece).1
        rw [Bool.true_and] at hfinal
        exact ⟨by simp, by simp, by simp [hfinal]⟩
      | some piece =>
        have hfinal := (dataPiece_some hpiece).2.2.1
        rw [Bool.true_and] at hfinal
        exact ⟨by simp, by simp [hfinal], by simp⟩
    | cons next rest' =>
      rw [← hrest]
      have hlater : Ended header.final (dataPieces (continued header) rest) :=
        @ih (continued header) (by simp [hrest])
      have hmore : rest.isEmpty = false := by simp [hrest]
      rw [hmore]
      cases hpiece : dataPiece header false data with
      | none => exact hlater
      | some piece =>
        have hfinal := (dataPiece_some hpiece).2.2.1
        rw [Bool.false_and] at hfinal
        exact hlater.cons hfinal

/-- As many pieces as chunks that are passed on. -/
lemma length_restPieces (h : header.opcode = kOpCodeContinuation)
    (rest : List (Option (List Byte))) (header' : WebSocketFrameHeader)
    (hfinal : header'.final = header.final) :
    (dataPieces header rest).length = (restChunks rest).countP (FrameCut.passesOn header') := by
  have hcontinued : continued header = header := by rw [continued, ← h]
  induction rest with
  | nil => rfl
  | cons data rest ih =>
    rw [dataPieces, restChunks, List.countP_cons, List.length_append, hcontinued, ih, Nat.add_comm]
    congr 1
    rw [dataPiece_eq, h]
    by_cases hempty : data.getD [] = []
    · cases hend : rest.isEmpty && header.final with
      | true => simp [FrameCut.passesOn, hempty, hend, hfinal]
      | false => simp [FrameCut.passesOn, hempty, hend, hfinal]
    · simp [FrameCut.passesOn, hempty, List.length_pos_iff]

/-! ### Control frames -/

lemma createFrame_control (hfinal : header.final = true) {data : Option (List Byte)}
    (hlength : (data.getD []).length = header.payloadLength) :
    ∃ frame, createFrame true data header = (some frame, none) ∧ frame.header = header ∧
      frame.payload = data.getD [] := by
  refine ⟨⟨{ header with final := true, payloadLength := (data.getD []).length }, data, rfl⟩,
    ?_, ?_, rfl⟩
  · unfold createFrame
    simp only [hfinal, Bool.and_self, true_or, if_true]
  · dsimp only
    rw [hlength, ← hfinal]

lemma addToIncompleteControlFrameBody_eq {data : Option (List Byte)} {body : List Byte}
    (hroom : body.length + (data.getD []).length ≤ kMaxControlFramePayload) :
    addToIncompleteControlFrameBody data body = some (body ++ data.getD []) := by
  cases data with
  | none => rw [addToIncompleteControlFrameBody, Option.getD_none, List.append_nil]
  | some data => exact if_pos hroom

section Control
variable (hcontrol : isKnownControlOpCode header.opcode = true) (hfinal : header.final = true)
  (hle : header.payloadLength ≤ kMaxControlFramePayload)

include hcontrol hfinal hle

/-- A chunk that is not the last one is put away. -/
lemma convertChunkToFrame_put (hheader : chunk.header.or s.currentFrameHeader = some header)
    (hmore : chunk.finalChunk = false)
    (hroom : (s.incompleteControlFrameBody.getD []).length + (chunk.data.getD []).length ≤
      header.payloadLength) :
    s.convertChunkToFrame chunk =
      some (.ok, none,
        { s with
          currentFrameHeader := some header
          incompleteControlFrameBody :=
            some (s.incompleteControlFrameBody.getD [] ++ chunk.data.getD []) }) := by
  rw [convertChunkToFrame, hheader]
  simp only [hcontrol, hfinal, hmore, not_lt.mpr hle, if_true, Bool.not_true, Bool.not_false,
    decide_false, Bool.or_self, Bool.false_eq_true, if_false]
  rw [addToIncompleteControlFrameBody_eq (hroom.trans hle)]
  rfl

lemma converts_restChunks_control {rest : List (Option (List Byte))} (hrest : rest ≠ [])
    (body : List Byte)
    (hlength : body.length + (rest.flatMap fun data => data.getD []).length =
      header.payloadLength) :
    ∃ frame, (∀ s : WebSocketBasicStream, Converts
        { s with currentFrameHeader := some header, incompleteControlFrameBody := some body }
        (restChunks rest) [frame]
        { s with currentFrameHeader := none, incompleteControlFrameBody := none }) ∧
      frame.header = header ∧
      frame.payload = body ++ rest.flatMap fun data => data.getD [] := by
  induction rest generalizing body with
  | nil => exact absurd rfl hrest
  | cons data rest ih =>
    rw [List.flatMap_cons, List.length_append] at hlength
    rw [restChunks, List.flatMap_cons, ← List.append_assoc]
    cases rest with
    | nil =>
      rw [List.flatMap_nil, List.length_nil, Nat.add_zero] at hlength
      obtain ⟨frame, hframe, hheader, hpayload⟩ :=
        @createFrame_control header hfinal (some (body ++ data.getD [])) (by simpa using hlength)
      rw [List.flatMap_nil, List.append_nil]
      refine ⟨frame, fun s => ?_, hheader, hpayload⟩
      refine @Converts.cons _ _ _ _ _ _ (some frame) ?_ (.nil _)
      rw [convertChunkToFrame]
      simp only [Option.none_or, hcontrol, hfinal, not_lt.mpr hle, if_true, Bool.not_true,
        decide_false, Bool.or_self, Bool.false_eq_true, if_false, List.isEmpty_nil]
      rw [addToIncompleteControlFrameBody_eq (hlength.le.trans hle), Option.map_some, hframe]
    | cons next rest =>
      obtain ⟨frame, hconverts, hheader, hpayload⟩ := ih (List.cons_ne_nil _ _)
        (body ++ data.getD []) (by rw [List.length_append]; omega)
      refine ⟨frame, fun s => ?_, hheader, hpayload⟩
      refine @Converts.cons _ _ _ _ _ _ none
        (convertChunkToFrame_put hcontrol hfinal hle rfl rfl ?_) (hconverts s)
      simp only [Option.getD_some]
      omega

/-- A control frame between other frames. -/
lemma converts_control (cut : FrameCut) (hcut : cut.header = header) :
    ∃ frame, (∀ s : WebSocketBasicStream, Converts
        { s with currentFrameHeader := none, incompleteControlFrameBody := none } cut.chunks
        [frame] { s with currentFrameHeader := none, incompleteControlFrameBody := none }) ∧
      frame.header = header ∧ frame.payload = cut.payload := by
  have hlength := cut.length_eq
  rw [hcut, List.flatMap_cons, List.length_append] at hlength
  rw [FrameCut.chunks, FrameCut.payload, List.flatMap_cons, hcut]
  cases hrest : cut.rest with
  | nil =>
    rw [hrest, List.flatMap_nil, List.length_nil, Nat.add_zero] at hlength
    obtain ⟨frame, hframe, hheader, hpayload⟩ := createFrame_control hfinal hlength
    refine ⟨frame, fun s => ?_, hheader, by rw [List.flatMap_nil, List.append_nil]; exact hpayload⟩
    refine @Converts.cons _ _ _ _ _ _ (some frame) ?_ (.nil _)
    rw [convertChunkToFrame]
    simp only [Option.some_or, hcontrol, hfinal, not_lt.mpr hle, if_true, Bool.not_true,
      decide_false, Bool.or_self, Bool.false_eq_true, if_false, List.isEmpty_nil]
    rw [convertToWholeFrame, hframe]
  | cons next rest =>
    have hne : cut.rest ≠ [] := by simp [hrest]
    rw [← hrest]
    obtain ⟨frame, hconverts, hheader, hpayload⟩ :=
      converts_restChunks_control hcontrol hfinal hle hne (cut.first.getD []) hlength
    refine ⟨frame, fun s => ?_, hheader, hpayload⟩
    refine @Converts.cons _ _ _ _ _ _ none (convertChunkToFrame_put hcontrol hfinal hle rfl ?_ ?_)
      (hconverts s)
    · simp [hrest]
    · simp only [Option.getD_none, List.length_nil]
      omega

end Control

/-! ### Sequences of frames -/

/-- Between two frames. -/
def Idle (s : WebSocketBasicStream) : Prop :=
  s.currentFrameHeader = none ∧ s.incompleteControlFrameBody = none

lemma Idle.eq (h : s.Idle) :
    { s with currentFrameHeader := none, incompleteControlFrameBody := none } = s := by
  rw [← h.1, ← h.2]

lemma pieces_eq {cut : FrameCut} {pieces : List WebSocketFrame}
    (h : Converts {} cut.chunks pieces {}) : cut.pieces = pieces := by
  rw [FrameCut.pieces, h []]
  rfl

/-- A valid frame, however it is cut, leaves the stream as it was. -/
lemma Idle.converts_cut (h : s.Idle) (cut : FrameCut) (hvalid : cut.header.Valid) :
    Converts s cut.chunks cut.pieces s := by
  cases hvalid with
  | inl hdata =>
    have hconverts := converts_data (s := s) cut hdata
    rw [pieces_eq (converts_data (s := {}) cut hdata)]
    have hsame : { s with currentFrameHeader := none } = s := by rw [← h.1]
    rwa [hsame] at hconverts
  | inr hcontrol =>
    obtain ⟨frame, hconverts, -, -⟩ :=
      converts_control hcontrol.1 hcontrol.2.1 hcontrol.2.2 cut rfl
    rw [pieces_eq (hconverts {})]
    have hself := hconverts s
    rwa [h.eq] at hself

lemma Idle.converts_cuts (h : s.Idle) (cuts : List FrameCut)
    (hvalid : ∀ cut ∈ cuts, cut.header.Valid) :
    Converts s (cuts.flatMap FrameCut.chunks) (cuts.flatMap FrameCut.pieces) s := by
  induction cuts with
  | nil => exact .nil s
  | cons cut cuts ih =>
    rw [List.forall_mem_cons] at hvalid
    rw [List.flatMap_cons, List.flatMap_cons]
    exact (h.converts_cut cut hvalid.1).append (ih hvalid.2)

lemma length_dataPieces (cut : FrameCut) :
    (dataPieces cut.header (cut.first :: cut.rest)).length =
      cut.chunks.countP (FrameCut.passesOn cut.header) := by
  rw [dataPieces, FrameCut.chunks, List.countP_cons, List.length_append, Nat.add_comm,
    @length_restPieces (continued cut.header) rfl cut.rest cut.header rfl]
  congr 1
  rw [dataPiece_eq]
  by_cases hpass : (cut.rest.isEmpty && cut.header.final) = true ∨
      (cut.first.getD []).length > 0 ∨ cut.header.opcode ≠ kOpCodeContinuation
  · rw [if_pos hpass, if_pos]
    · rfl
    · rw [gt_iff_lt, List.length_pos_iff] at hpass
      simpa [FrameCut.passesOn, or_comm, or_left_comm] using hpass
  · rw [if_neg hpass, if_neg]
    · rfl
    · rw [gt_iff_lt, List.length_pos_iff] at hpass
      simpa [FrameCut.passesOn, or_comm, or_left_comm] using hpass

/-- The pieces of a data frame are as they should be, but for the reserved bits. -/
lemma dataDelivered_iff (cut : FrameCut) :
    DataDelivered cut.header cut.payload (dataPieces cut.header (cut.first :: cut.rest)) ↔
      (cut.header.reserved ≠ (false, false, false) →
        cut.chunks.countP (FrameCut.passesOn cut.header) ≤ 1) := by
  have hended : Ended cut.header.final (dataPieces cut.header (cut.first :: cut.rest)) :=
    ended_dataPieces (List.cons_ne_nil _ _)
  rw [← length_dataPieces]
  constructor
  · intro h hreserved
    by_contra hlong
    have htail : (dataPieces cut.header (cut.first :: cut.rest)).tail ≠ [] := by
      rw [← List.length_pos_iff, List.length_tail]
      omega
    obtain ⟨piece, hpiece⟩ := List.exists_mem_of_ne_nil _ htail
    have hnone := (h.tail piece hpiece).2
    rw [reserved_dataPieces (List.mem_of_mem_tail hpiece)] at hnone
    exact hreserved hnone
  · intro h
    constructor
    · exact payload_dataPieces _ _
    · intro piece hpiece
      exact ⟨head_dataPieces hpiece, reserved_dataPieces (List.mem_of_mem_head? hpiece)⟩
    · intro piece hpiece
      refine ⟨tail_dataPieces hpiece, ?_⟩
      rw [reserved_dataPieces (List.mem_of_mem_tail hpiece)]
      by_contra hreserved
      have hshort := h hreserved
      have hpos := List.length_pos_of_mem hpiece
      rw [List.length_tail] at hpos
      omega
    · exact hended.init
    · exact hended.last
    · intro hneeded hnil
      cases hneeded with
      | inl hfinal => exact hended.nonempty hfinal hnil
      | inr hopcode =>
        rw [dataPieces, List.append_eq_nil_iff, Option.toList_eq_nil_iff] at hnil
        exact hopcode (dataPiece_none hnil.1).2.2

/-- A valid frame is delivered exactly when, if it has reserved bits, it is not split. -/
lemma delivered_iff (cut : FrameCut) (hvalid : cut.header.Valid) :
    cut.Delivered ↔ cut.ReservedUnsplit := by
  cases hvalid with
  | inl hdata =>
    rw [FrameCut.Delivered, FrameCut.ReservedUnsplit, not_control_of_data hdata, hdata,
      pieces_eq (converts_data (s := {}) cut hdata), dataDelivered_iff]
    simp
  | inr hcontrol =>
    obtain ⟨frame, hconverts, hheader, hpayload⟩ :=
      converts_control hcontrol.1 hcontrol.2.1 hcontrol.2.2 cut rfl
    have hdata : ¬ isKnownDataOpCode cut.header.opcode = true := by
      intro hdata
      rw [not_control_of_data hdata] at hcontrol
      exact Bool.false_ne_true hcontrol.1
    have hdelivered : ControlDelivered cut.header cut.payload cut.pieces :=
      ⟨frame, pieces_eq (hconverts {}), hheader, hpayload⟩
    exact iff_of_true ⟨fun _ => hdelivered, fun h => absurd h hdata⟩ fun h => absurd h hdata

end WebSocketBasicStream

end Chromium.WebSocket
