import Chromium.QuicFramer

/-!
# The frames of a data packet on the wire

Each frame other than an ack is one segment of the packet: its bytes do not depend on the
place where they are written, and they are read back whatever comes after them. Only a
stream frame that ends the packet has no length, and takes all that is left.
-/
namespace Chromium.QuicFramer

open WireFormat Parser

/-! ### Fields -/

lemma appends_sequenceNumber (length : QuicSequenceNumberLength) (n : ℕ) :
    Appends (appendPacketSequenceNumber length n) (toBytes length.size n) := by
  intro w
  rw [appendPacketSequenceNumber]
  split_ifs with hroom
  · symm
    apply Writer.write_of_not_room
    rw [length_toBytes]
    omega
  · rfl

lemma appends_stringPiece16 {val : List Byte} (h : val.length ≤ kuint16max) :
    Appends (writeStringPiece16 val) (toBytes 2 val.length ++ val) := by
  intro w
  rw [writeStringPiece16, if_neg (by omega)]
  exact Writer.write_write w _ _

lemma reads_stringPiece16 {val : List Byte} (h : val.length ≤ kuint16max) (error : String) :
    Reads (readStringPiece16 error) (toBytes 2 val.length ++ val) val := by
  apply Reads.bind
  · exact reads_uint_of_lt (by simp only [kuint16max] at h; omega) error
  · exact reads_bytes rfl error

lemma reads_byte (b : Byte) (error : String) : Reads (readByte error) [b] b := by
  have hread : Reads (uint 1 error) (toBytes 1 b.toNat) b.toNat := reads_uint_of_lt b.isLt error
  have hbytes : toBytes 1 b.toNat = [b] := by simp [toBytes]
  have h := hread.map (BitVec.ofNat 8)
  rw [hbytes, BitVec.ofNat_toNat, BitVec.setWidth_eq] at h
  exact h

lemma reads_checkErrorCode {bound : ℕ} (code : Fin bound) (error : String) :
    Reads (checkErrorCode bound code error) [] code := by
  intro rest
  rw [checkErrorCode, dif_pos code.isLt]
  rfl

lemma ushiftRight_eq_zero_iff {width : ℕ} (x : BitVec width) (k : ℕ) :
    x >>> k = 0 ↔ x.toNat < 2 ^ k := by
  rw [← BitVec.toNat_inj, BitVec.toNat_ushiftRight, Nat.shiftRight_eq_div_pow]
  simp [Nat.div_eq_zero_iff]

/-- The size of a stream id is one of four, and the id fits in it. -/
lemma getStreamIdSize_spec (streamId : BitVec 32) :
    getStreamIdSize streamId ∈ [1, 2, 3, 4] ∧
      streamId.toNat < 2 ^ (8 * getStreamIdSize streamId) := by
  unfold getStreamIdSize
  cases hfind : [1, 2, 3, 4].find? fun i => decide (streamId >>> (8 * i) = 0) with
  | none =>
    have hlt := streamId.isLt
    exact ⟨by simp, hlt⟩
  | some i =>
    have hfits := List.find?_some hfind
    rw [decide_eq_true_eq, ushiftRight_eq_zero_iff] at hfits
    exact ⟨List.mem_of_find?_eq_some hfind, hfits⟩

/-- The size of an offset is never one, and the offset fits in it. -/
lemma getStreamOffsetSize_spec (offset : BitVec 64) :
    getStreamOffsetSize offset ∈ [0, 2, 3, 4, 5, 6, 7, 8] ∧
      offset.toNat < 2 ^ (8 * getStreamOffsetSize offset) := by
  unfold getStreamOffsetSize
  split_ifs with hzero
  · simp [hzero]
  · cases hfind : [2, 3, 4, 5, 6, 7, 8].find? fun i => decide (offset >>> (8 * i) = 0) with
    | none =>
      have hlt := offset.isLt
      exact ⟨by simp, hlt⟩
    | some i =>
      have hfits := List.find?_some hfind
      rw [decide_eq_true_eq, ushiftRight_eq_zero_iff] at hfits
      exact ⟨List.mem_cons_of_mem _ (List.mem_of_find?_eq_some hfind), hfits⟩

/-! ### Segments -/

/-- A part of the payload that is read as these frames, whatever comes after it. -/
def Segment (framer : Framer) (header : QuicPacketHeader) (item : List Byte)
    (frames : List QuicFrame) : Prop :=
  ∃ frameType body error read, item = frameType :: body ∧
    frameHandler framer header frameType = .frame error read ∧ Reads read body frames

lemma processFrames_segment {framer : Framer} {header : QuicPacketHeader} {item : List Byte}
    {frames : List QuicFrame} (h : Segment framer header item frames) (fuel : ℕ)
    (rest : List Byte) :
    processFrames framer header (fuel + 1) (item ++ rest) =
      ⟨frames ++ (processFrames framer header fuel rest).frames,
        (processFrames framer header fuel rest).error⟩ := by
  obtain ⟨frameType, body, error, read, rfl, hhandler, hread⟩ := h
  rw [List.cons_append, processFrames, hhandler]
  simp only [hread rest]

/-! ### Stream frames -/

/-- The bytes after the type byte. -/
def streamBytes (frame : QuicStreamFrame) (lastFrameInPacket : Bool) : List Byte :=
  toBytes (getStreamIdSize frame.streamId) frame.streamId.toNat ++
    (toBytes (getStreamOffsetSize frame.offset) frame.offset.toNat ++
      ((if lastFrameInPacket then [] else toBytes 2 frame.data.length) ++ frame.data))

lemma appends_streamFramePayload (frame : QuicStreamFrame) (lastFrameInPacket : Bool) :
    Appends (appendStreamFramePayload frame lastFrameInPacket)
      (streamBytes frame lastFrameInPacket) := by
  apply Appends.bind (appends_write _)
  apply Appends.bind (appends_write _)
  refine Appends.bind ?_ (appends_write _)
  cases lastFrameInPacket with
  | true => exact appends_some
  | false => exact appends_write _

/-- The four fields of the type byte come back. -/
lemma streamFlags_streamTypeByte : ∀ fin lastFrameInPacket : Bool,
    ∀ offsetLen ∈ [0, 2, 3, 4, 5, 6, 7, 8], ∀ streamIdLen ∈ [1, 2, 3, 4],
      streamFlags (streamTypeByte fin lastFrameInPacket offsetLen streamIdLen) =
        (streamIdLen, offsetLen, !lastFrameInPacket, fin) := by
  decide

lemma frameHandler_streamTypeByte (framer : Framer) (header : QuicPacketHeader)
    (fin lastFrameInPacket : Bool) {offsetLen streamIdLen : ℕ}
    (hoffset : offsetLen ∈ [0, 2, 3, 4, 5, 6, 7, 8]) (hid : streamIdLen ∈ [1, 2, 3, 4]) :
    frameHandler framer header (streamTypeByte fin lastFrameInPacket offsetLen streamIdLen) =
      .frame quicInvalidStreamData ((fun f => [.stream f]) <$>
        processStreamFrame (streamTypeByte fin lastFrameInPacket offsetLen streamIdLen)) := by
  have hmasks : ∀ fin lastFrameInPacket : Bool, ∀ offsetLen ∈ [0, 2, 3, 4, 5, 6, 7, 8],
      ∀ streamIdLen ∈ [1, 2, 3, 4],
        streamTypeByte fin lastFrameInPacket offsetLen streamIdLen &&&
            kQuicFrameTypeSpecialMask ≠ 0 ∧
          streamTypeByte fin lastFrameInPacket offsetLen streamIdLen &&&
            kQuicFrameTypeStreamMask ≠ 0 := by
    decide
  obtain ⟨hspecial, hstream⟩ := hmasks fin lastFrameInPacket offsetLen hoffset streamIdLen hid
  rw [frameHandler, if_pos hspecial, if_pos hstream]

/-- The type byte that a stream frame is written with. -/
def streamType (frame : QuicStreamFrame) (lastFrameInPacket : Bool) : Byte :=
  streamTypeByte frame.fin lastFrameInPacket (getStreamOffsetSize frame.offset)
    (getStreamIdSize frame.streamId)

lemma processStreamFrame_streamType (frame : QuicStreamFrame) (lastFrameInPacket : Bool) :
    processStreamFrame (streamType frame lastFrameInPacket) = (do
      let streamId ← uint (getStreamIdSize frame.streamId) "Unable to read stream_id."
      let offset ← uint (getStreamOffsetSize frame.offset) "Unable to read offset."
      let data ← readStreamData !lastFrameInPacket
      return { streamId := BitVec.ofNat 32 streamId, fin := frame.fin,
               offset := BitVec.ofNat 64 offset, data := data }) := by
  have hflags := streamFlags_streamTypeByte frame.fin lastFrameInPacket _
    (getStreamOffsetSize_spec frame.offset).1 _ (getStreamIdSize_spec frame.streamId).1
  rw [processStreamFrame, streamType, hflags]

/-- A stream frame with its length is a segment. -/
lemma segment_stream (framer : Framer) (header : QuicPacketHeader) {frame : QuicStreamFrame}
    (hdata : frame.data.length ≤ kuint16max) :
    Segment framer header (streamType frame false :: streamBytes frame false)
      [.stream frame] := by
  obtain ⟨hidMem, hid⟩ := getStreamIdSize_spec frame.streamId
  obtain ⟨hoffsetMem, hoffset⟩ := getStreamOffsetSize_spec frame.offset
  refine ⟨_, _, _, _, rfl, frameHandler_streamTypeByte framer header frame.fin false
    hoffsetMem hidMem, ?_⟩
  have hread : Reads (processStreamFrame (streamType frame false)) (streamBytes frame false)
      { streamId := BitVec.ofNat 32 frame.streamId.toNat, fin := frame.fin,
        offset := BitVec.ofNat 64 frame.offset.toNat, data := frame.data } := by
    rw [processStreamFrame_streamType]
    apply Reads.bind (reads_uint_of_lt hid _)
    apply Reads.bind (reads_uint_of_lt hoffset _)
    exact (reads_stringPiece16 hdata "Unable to read frame data.").bind_pure _
  rw [BitVec.ofNat_toNat, BitVec.ofNat_toNat, BitVec.setWidth_eq, BitVec.setWidth_eq] at hread
  exact hread.map _

/-- A stream frame without its length takes all that is left. -/
lemma processFrames_last_stream (framer : Framer) (header : QuicPacketHeader)
    (frame : QuicStreamFrame) (fuel : ℕ) (more : List Byte) :
    processFrames framer header (fuel + 1)
        (streamType frame true :: streamBytes frame true ++ more) =
      ⟨[.stream { frame with data := frame.data ++ more }], none⟩ := by
  obtain ⟨hidMem, hid⟩ := getStreamIdSize_spec frame.streamId
  obtain ⟨hoffsetMem, hoffset⟩ := getStreamOffsetSize_spec frame.offset
  have hhandler := frameHandler_streamTypeByte framer header frame.fin true hoffsetMem hidMem
  have hread : processStreamFrame (streamType frame true) (streamBytes frame true ++ more) =
      .ok ({ frame with data := frame.data ++ more }, []) := by
    have hidRead := reads_uint_of_lt hid "Unable to read stream_id."
    have hoffsetRead := reads_uint_of_lt hoffset "Unable to read offset."
    have hsame : QuicStreamFrame.mk (BitVec.ofNat 32 frame.streamId.toNat) frame.fin
        (BitVec.ofNat 64 frame.offset.toNat) (frame.data ++ more) =
          { frame with data := frame.data ++ more } := by
      rw [BitVec.ofNat_toNat, BitVec.ofNat_toNat, BitVec.setWidth_eq, BitVec.setWidth_eq]
    rw [processStreamFrame_streamType, streamBytes, List.append_assoc, List.append_assoc,
      hidRead.run_bind, hoffsetRead.run_bind, ← hsame]
    rfl
  rw [List.cons_append, processFrames, streamType, hhandler]
  have hmap : ((fun f => [QuicFrame.stream f]) <$> processStreamFrame (streamType frame true))
      (streamBytes frame true ++ more) =
        .ok ([.stream { frame with data := frame.data ++ more }], []) := by
    change (processStreamFrame (streamType frame true) _ >>= _) = _
    rw [hread]
    rfl
  rw [streamType] at hmap
  simp only [hmap]
  rw [processFrames]
  rfl

/-! ### Frames with an error code -/

def rstStreamBytes (frame : QuicRstStreamFrame) : List Byte :=
  toBytes 4 frame.streamId.toNat ++ (toBytes 4 frame.errorCode ++
    (toBytes 2 frame.errorDetails.length ++ frame.errorDetails))

def goAwayBytes (frame : QuicGoAwayFrame) : List Byte :=
  toBytes 4 frame.errorCode ++ (toBytes 4 frame.lastGoodStreamId.toNat ++
    (toBytes 2 frame.reasonPhrase.length ++ frame.reasonPhrase))

def connectionCloseBytes (frame : QuicConnectionCloseFrame) : List Byte :=
  toBytes 4 frame.errorCode ++ (toBytes 2 frame.errorDetails.length ++ frame.errorDetails)

lemma appends_rstStream {frame : QuicRstStreamFrame}
    (h : frame.errorDetails.length ≤ kuint16max) :
    Appends (appendRstStreamFramePayload frame) (rstStreamBytes frame) :=
  (appends_write _).bind ((appends_write _).bind (appends_stringPiece16 h))

lemma appends_goAway {frame : QuicGoAwayFrame} (h : frame.reasonPhrase.length ≤ kuint16max) :
    Appends (appendGoAwayFramePayload frame) (goAwayBytes frame) :=
  (appends_write _).bind ((appends_write _).bind (appends_stringPiece16 h))

lemma reads_streamId (streamId : BitVec 32) (error : String) :
    Reads (uint 4 error) (toBytes 4 streamId.toNat) streamId.toNat :=
  reads_uint_of_lt streamId.isLt error

lemma segment_rstStream (framer : Framer) (header : QuicPacketHeader) {frame : QuicRstStreamFrame}
    (h : frame.errorDetails.length ≤ kuint16max) :
    Segment framer header (1 :: rstStreamBytes frame) [.rstStream frame] := by
  refine ⟨_, _, quicInvalidRstStreamData, _, rfl, rfl, ?_⟩
  have hread : Reads processRstStreamFrame (rstStreamBytes frame)
      { streamId := BitVec.ofNat 32 frame.streamId.toNat, errorCode := frame.errorCode,
        errorDetails := frame.errorDetails } := by
    apply Reads.bind (reads_streamId frame.streamId _)
    apply Reads.bind (reads_uint_of_lt (lt_of_lt_of_le frame.errorCode.isLt (by decide)) _)
    apply (reads_checkErrorCode frame.errorCode _).bind
    exact (reads_stringPiece16 h _).bind_pure _
  rw [BitVec.ofNat_toNat, BitVec.setWidth_eq] at hread
  exact hread.map _

lemma segment_goAway (framer : Framer) (header : QuicPacketHeader) {frame : QuicGoAwayFrame}
    (h : frame.reasonPhrase.length ≤ kuint16max) :
    Segment framer header (3 :: goAwayBytes frame) [.goAway frame] := by
  refine ⟨_, _, quicInvalidGoAwayData, _, rfl, rfl, ?_⟩
  have hread : Reads processGoAwayFrame (goAwayBytes frame)
      { errorCode := frame.errorCode,
        lastGoodStreamId := BitVec.ofNat 32 frame.lastGoodStreamId.toNat,
        reasonPhrase := frame.reasonPhrase } := by
    apply Reads.bind (reads_uint_of_lt (lt_of_lt_of_le frame.errorCode.isLt (by decide)) _)
    apply (reads_checkErrorCode frame.errorCode _).bind
    apply Reads.bind (reads_streamId frame.lastGoodStreamId _)
    exact (reads_stringPiece16 h _).bind_pure _
  rw [BitVec.ofNat_toNat, BitVec.setWidth_eq] at hread
  exact hread.map _

lemma appends_connectionClose {version : QuicVersion} (hversion : ¬ version.number ≤ 11)
    (entropyHash : ℕ → Byte) {frame : QuicConnectionCloseFrame}
    (h : frame.errorDetails.length ≤ kuint16max) :
    Appends (appendConnectionCloseFramePayload version entropyHash frame)
      (connectionCloseBytes frame) := by
  have hlast : Appends (fun w => if version.number ≤ 11 then
      appendAckFramePayloadV11 entropyHash frame.ackFrame w else some w) [] := by
    intro w
    simp only [hversion, if_false]
    exact appends_some w
  have happend := (appends_write (toBytes 4 frame.errorCode)).bind
    ((appends_stringPiece16 h).bind hlast)
  rw [List.append_nil] at happend
  exact happend

lemma segment_connectionClose {framer : Framer} (hversion : ¬ framer.quicVersion.number ≤ 11)
    (header : QuicPacketHeader) {frame : QuicConnectionCloseFrame}
    (h : frame.errorDetails.length ≤ kuint16max) :
    Segment framer header (2 :: connectionCloseBytes frame)
      [.connectionClose { frame with ackFrame := {} }] := by
  refine ⟨_, _, quicInvalidConnectionCloseData, _, rfl, rfl, ?_⟩
  have hack : Reads (processCloseAck framer) [] {} := by
    rw [processCloseAck, if_neg hversion]
    exact reads_pure _
  have hread : Reads (processConnectionCloseFrame framer) (connectionCloseBytes frame)
      { frame with ackFrame := {} } := by
    apply Reads.bind (reads_uint_of_lt (lt_of_lt_of_le frame.errorCode.isLt (by decide)) _)
    apply (reads_checkErrorCode frame.errorCode _).bind
    apply (reads_stringPiece16 h _).bind_nil
    exact hack.bind_pure _
  have hmap := hread.map fun f : QuicConnectionCloseFrame =>
    (if framer.quicVersion.number ≤ 11 then [QuicFrame.ack f.ackFrame] else []) ++
      [.connectionClose f]
  simp only [hversion, if_false, List.nil_append] at hmap
  simpa only [hversion, if_false, List.nil_append] using hmap

/-! ### Congestion feedback -/

/-- The bytes of the packets after the lowest one. -/
def receivedBytes (lowestSequence : ℕ) (lowestTime : BitVec 64) :
    List (ℕ × BitVec 64) → List Byte
  | [] => []
  | (sequence, time) :: rest =>
    toBytes 2 (sequence - lowestSequence) ++ (toBytes 4 ((time - lowestTime).setWidth 32).toNat ++
      receivedBytes lowestSequence lowestTime rest)

/-- The entries of the map as they come back. -/
def decodeReceived (smallestReceived lowestSequence : ℕ) (lowestTime : BitVec 64) :
    List (ℕ × BitVec 64) → SortedMap ℕ (BitVec 64) → SortedMap ℕ (BitVec 64)
  | [], times => times
  | (sequence, time) :: rest, times =>
    decodeReceived smallestReceived lowestSequence lowestTime rest
      (times.insert ((smallestReceived + (sequence - lowestSequence)) % 2 ^ 64)
        (lowestTime + ((time - lowestTime).setWidth 32).signExtend 64))

lemma appends_receivedPackets {lowestSequence : ℕ} {lowestTime : BitVec 64}
    {entries : List (ℕ × BitVec 64)} (h : ∀ e ∈ entries, e.1 - lowestSequence ≤ kuint16max) :
    Appends (appendReceivedPackets lowestSequence lowestTime entries)
      (receivedBytes lowestSequence lowestTime entries) := by
  induction entries with
  | nil => exact appends_some
  | cons e entries ih =>
    rw [List.forall_mem_cons] at h
    intro w
    rw [appendReceivedPackets, if_neg (by omega)]
    exact (appends_write _).bind ((appends_write _).bind (ih h.2)) w

lemma reads_receivedPackets (smallestReceived : ℕ) {lowestSequence : ℕ} (lowestTime : BitVec 64)
    {entries : List (ℕ × BitVec 64)} (h : ∀ e ∈ entries, e.1 - lowestSequence ≤ kuint16max)
    (times : SortedMap ℕ (BitVec 64)) :
    Reads (readReceivedPackets smallestReceived lowestTime entries.length times)
      (receivedBytes lowestSequence lowestTime entries)
      (decodeReceived smallestReceived lowestSequence lowestTime entries times) := by
  induction entries generalizing times with
  | nil => exact reads_pure times
  | cons e entries ih =>
    rw [List.forall_mem_cons] at h
    have hsequence : e.1 - lowestSequence < 2 ^ (8 * 2) := by
      have := h.1
      simp only [kuint16max] at this
      omega
    apply Reads.bind (reads_uint_of_lt hsequence _)
    apply Reads.bind (reads_uint_of_lt ((e.2 - lowestTime).setWidth 32).isLt _)
    rw [BitVec.ofNat_toNat, BitVec.setWidth_eq]
    exact ih h.2 _

def interArrivalBytes (creationTime : BitVec 64) (times : SortedMap ℕ (BitVec 64)) : List Byte :=
  toBytes 1 times.size ++
    match times.entries with
    | [] => []
    | (lowestSequence, lowestTime) :: rest =>
      toBytes 6 lowestSequence ++ (toBytes 8 (lowestTime - creationTime).toNat ++
        receivedBytes lowestSequence lowestTime rest)

/-- The times as the peer sees them: the lowest number comes back from its low 48 bits. -/
def decodeTimes (framer : Framer) (times : SortedMap ℕ (BitVec 64)) : SortedMap ℕ (BitVec 64) :=
  match times.entries with
  | [] => ∅
  | (lowestSequence, lowestTime) :: rest =>
    let smallestReceived := calculatePacketSequenceNumberFromWire framer.lastSequenceNumber
      .packet6Byte (lowestSequence % 2 ^ 48)
    decodeReceived smallestReceived lowestSequence lowestTime rest
      (SortedMap.insert ∅ smallestReceived lowestTime)

/-- The distances to the lowest number fit, and so does the number of packets. -/
def InterArrivalFits (times : SortedMap ℕ (BitVec 64)) : Prop :=
  times.size ≤ kuint8max ∧ ∀ lowest, times.first = some lowest →
    ∀ e ∈ times.entries, e.1 - lowest.1 ≤ kuint16max

lemma appends_interArrival (creationTime : BitVec 64) {times : SortedMap ℕ (BitVec 64)}
    (h : InterArrivalFits times) :
    Appends (appendInterArrival creationTime times) (interArrivalBytes creationTime times) := by
  intro w
  rw [appendInterArrival, if_neg (by have := h.1; omega)]
  refine (appends_write _).bind ?_ w
  have hfits := h.2
  simp only [SortedMap.first] at hfits
  cases hentries : times.entries with
  | nil => exact appends_some
  | cons e rest =>
    rw [hentries] at hfits
    have hrest := (List.forall_mem_cons.mp (hfits e rfl)).2
    exact (appends_sequenceNumber .packet6Byte e.1).bind
      ((appends_write _).bind (appends_receivedPackets hrest))

lemma reads_interArrival (framer : Framer) {times : SortedMap ℕ (BitVec 64)}
    (h : InterArrivalFits times) :
    Reads (processInterArrival framer) (interArrivalBytes framer.creationTime times)
      (decodeTimes framer times) := by
  have hsize : times.size < 2 ^ (8 * 1) := by
    have := h.1
    simp only [kuint8max] at this
    omega
  apply Reads.bind (reads_uint_of_lt hsize _)
  obtain ⟨entries, sorted⟩ := times
  cases entries with
  | nil => exact reads_pure _
  | cons e rest =>
    have hrest := (List.forall_mem_cons.mp (h.2 e rfl)).2
    apply Reads.bind ((reads_uint 6 e.1 _).map _)
    apply Reads.bind (reads_uint_of_lt (e.2 - framer.creationTime).isLt _)
    rw [BitVec.ofNat_toNat, BitVec.setWidth_eq, BitVec.add_comm, BitVec.sub_add_cancel]
    exact reads_receivedPackets _ _ hrest _

def feedbackBytes (creationTime : BitVec 64) : QuicCongestionFeedbackFrame → List Byte
  | .tcp lost receiveWindow =>
    [(0 : Byte)] ++ (toBytes 2 lost.toNat ++ toBytes 2 (receiveWindow >>> 4))
  | .interArrival lost times =>
    [(1 : Byte)] ++ (toBytes 2 lost.toNat ++ interArrivalBytes creationTime times)
  | .fixRate bitrate => [(2 : Byte)] ++ toBytes 4 (bitrate / 8)

/-- A congestion feedback frame as the peer sees it. -/
def decodeFeedback (framer : Framer) : QuicCongestionFeedbackFrame → QuicCongestionFeedbackFrame
  | .tcp lost receiveWindow => .tcp lost ((receiveWindow >>> 4 % 2 ^ 16) <<< 4)
  | .interArrival lost times => .interArrival lost (decodeTimes framer times)
  | .fixRate bitrate => .fixRate (bitrate / 8 % 2 ^ 32 * 8)

def FeedbackFits : QuicCongestionFeedbackFrame → Prop
  | .interArrival _ times => InterArrivalFits times
  | _ => True

lemma appends_feedback (creationTime : BitVec 64) {frame : QuicCongestionFeedbackFrame}
    (h : FeedbackFits frame) :
    Appends (appendQuicCongestionFeedbackFramePayload creationTime frame)
      (feedbackBytes creationTime frame) := by
  cases frame with
  | tcp lost receiveWindow =>
    exact (appends_write _).bind ((appends_write _).bind (appends_write _))
  | interArrival lost times =>
    exact (appends_write _).bind ((appends_write _).bind (appends_interArrival creationTime h))
  | fixRate bitrate => exact (appends_write _).bind (appends_write _)

lemma reads_feedback (framer : Framer) {frame : QuicCongestionFeedbackFrame}
    (h : FeedbackFits frame) :
    Reads (processQuicCongestionFeedbackFrame framer) (feedbackBytes framer.creationTime frame)
      (decodeFeedback framer frame) := by
  have htype : ∀ n < 256, Reads (uint 1 "Unable to read congestion feedback type.")
      [BitVec.ofNat 8 n] n := by
    intro n hn
    exact reads_uint_of_lt (by omega) _
  have hlost : ∀ lost : BitVec 16,
      Reads (uint 2 "Unable to read accumulated number of lost packets.")
        (toBytes 2 lost.toNat) lost.toNat := fun lost => reads_uint_of_lt lost.isLt _
  cases frame with
  | tcp lost receiveWindow =>
    apply Reads.bind (htype 0 (by decide))
    apply Reads.bind (hlost lost)
    simp only [BitVec.ofNat_toNat, BitVec.setWidth_eq]
    exact (reads_uint 2 (receiveWindow >>> 4) _).bind_pure _
  | interArrival lost times =>
    apply Reads.bind (htype 1 (by decide))
    apply Reads.bind (hlost lost)
    simp only [BitVec.ofNat_toNat, BitVec.setWidth_eq]
    exact (reads_interArrival framer h).bind_pure _
  | fixRate bitrate =>
    apply Reads.bind (htype 2 (by decide))
    exact (reads_uint 4 (bitrate / 8) _).bind_pure _

lemma segment_feedback (framer : Framer) (header : QuicPacketHeader)
    {frame : QuicCongestionFeedbackFrame} (h : FeedbackFits frame) :
    Segment framer header
      (kQuicFrameTypeCongestionFeedbackMask :: feedbackBytes framer.creationTime frame)
      [.congestionFeedback (decodeFeedback framer frame)] :=
  ⟨_, _, quicInvalidCongestionFeedbackData, _, rfl, rfl, (reads_feedback framer h).map _⟩

end Chromium.QuicFramer
