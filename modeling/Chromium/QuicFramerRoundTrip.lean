import Chromium.QuicFrameSegments

/-!
# Data packets without acks

A packet of the computed size is filled exactly, and the frames are read back in order.
-/
namespace Chromium.QuicFramer

open WireFormat Parser

/-! ### Packet headers -/

def headerBytes (version : QuicVersion) (header : QuicPacketHeader) : List Byte :=
  [publicFlags header] ++ (toBytes header.guidLength.size header.guid.toNat ++
    ((if header.versionFlag then quicVersionToQuicTag version else []) ++
      (toBytes header.sequenceNumberLength.size header.packetSequenceNumber ++
        ([privateFlags header] ++ (if header.isInFecGroup then
          toBytes 1 (header.packetSequenceNumber + 2 ^ 64 - header.fecGroup) else [])))))

lemma length_quicVersionToQuicTag (version : QuicVersion) :
    (quicVersionToQuicTag version).length = kQuicVersionSize := by
  cases version <;> rfl

lemma length_headerBytes (version : QuicVersion) (header : QuicPacketHeader) :
    (headerBytes version header).length = getPacketHeaderSize header := by
  have hversion : (if header.versionFlag then quicVersionToQuicTag version else []).length =
      if header.versionFlag then kQuicVersionSize else 0 := by
    split_ifs
    · exact length_quicVersionToQuicTag version
    · rfl
  have hgroup : (if header.isInFecGroup then
      toBytes 1 (header.packetSequenceNumber + 2 ^ 64 - header.fecGroup) else []).length =
        if header.isInFecGroup then kFecGroupSize else 0 := by
    split_ifs
    · exact length_toBytes 1 _
    · rfl
  simp only [headerBytes, List.length_append, List.length_singleton, length_toBytes, hversion,
    hgroup, getPacketHeaderSize, kPublicFlagsSize, kPrivateFlagsSize]
  omega

def versionBytes (version : QuicVersion) (header : QuicPacketHeader) : List Byte :=
  if header.versionFlag then quicVersionToQuicTag version else []

lemma writeVersion_of_room (version : QuicVersion) (header : QuicPacketHeader) {w : Writer}
    (h : (versionBytes version header).length ≤ w.room) :
    w.write (versionBytes version header) = some (writeVersion version header w) := by
  obtain ⟨v, hv, -⟩ := Writer.write_of_room h
  unfold writeVersion versionBytes at *
  split_ifs at hv ⊢ with hflag
  · rw [hv]
    rfl
  · exact Writer.write_nil w

/-- What is written after the version. -/
lemma appends_afterVersion (header : QuicPacketHeader) :
    Appends (fun w => do
        let w ← appendPacketSequenceNumber header.sequenceNumberLength header.packetSequenceNumber w
        let w ← w.write [privateFlags header]
        writeFecGroup header w)
      (toBytes header.sequenceNumberLength.size header.packetSequenceNumber ++
        ([privateFlags header] ++ (if header.isInFecGroup then
          toBytes 1 (header.packetSequenceNumber + 2 ^ 64 - header.fecGroup) else []))) := by
  apply (appends_sequenceNumber _ _).bind
  apply (appends_write _).bind
  intro w
  unfold writeFecGroup
  split_ifs
  · rfl
  · exact appends_some w

/-- With room for the whole header the version is written too. -/
lemma appendPacketHeader_of_room {version : QuicVersion} {header : QuicPacketHeader} {w : Writer}
    (h : getPacketHeaderSize header ≤ w.room) :
    appendPacketHeader version header w = w.write (headerBytes version header) := by
  rw [← length_headerBytes version header] at h
  have hsplit : headerBytes version header =
      [publicFlags header] ++ (toBytes header.guidLength.size header.guid.toNat ++
        (versionBytes version header ++ _)) := rfl
  rw [hsplit] at h ⊢
  simp only [List.length_append, length_toBytes] at h
  obtain ⟨u, hu, -⟩ : ∃ u, w.write [publicFlags header] = some u ∧ _ :=
    Writer.write_of_room (by omega)
  have huroom := Writer.room_of_write hu
  obtain ⟨v, hv, -⟩ :
      ∃ v, u.write (toBytes header.guidLength.size header.guid.toNat) = some v ∧ _ :=
    Writer.write_of_room (by rw [length_toBytes]; omega)
  have hvroom := Writer.room_of_write hv
  rw [length_toBytes] at hvroom
  have hversion := writeVersion_of_room version header (w := v) (by omega)
  have hafter := appends_afterVersion header (writeVersion version header v)
  rw [← Writer.write_write, hu, Option.bind_some, ← Writer.write_write, hv, Option.bind_some,
    ← Writer.write_write, hversion, Option.bind_some, ← hafter]
  simp only [appendPacketHeader, hu, hv, Option.bind_eq_bind, Option.bind_some]

/-! ### Frames -/

/-- The bytes of a frame that is not an ack. -/
def frameBytes (framer : Framer) (frame : QuicFrame) (lastFrameInPacket : Bool) : List Byte :=
  match frame with
  | .stream frame => streamType frame lastFrameInPacket :: streamBytes frame lastFrameInPacket
  | .congestionFeedback frame =>
    kQuicFrameTypeCongestionFeedbackMask :: feedbackBytes framer.creationTime frame
  | .rstStream frame => 1 :: rstStreamBytes frame
  | .connectionClose frame => 2 :: connectionCloseBytes frame
  | .goAway frame => 3 :: goAwayBytes frame
  | .ack _ | .padding => []

/-- What the fields of a frame must fit in for it to be written at all. -/
def Fits (framer : Framer) : QuicFrame → Prop
  | .stream frame => frame.data.length ≤ kuint16max
  | .congestionFeedback frame => FeedbackFits frame
  | .rstStream frame => frame.errorDetails.length ≤ kuint16max
  | .connectionClose frame =>
    ¬ framer.quicVersion.number ≤ 11 ∧ frame.errorDetails.length ≤ kuint16max
  | .goAway frame => frame.reasonPhrase.length ≤ kuint16max
  | .ack _ | .padding => False

/-- A frame as the peer sees it. -/
def decodeFrame (framer : Framer) : QuicFrame → QuicFrame
  | .congestionFeedback frame => .congestionFeedback (decodeFeedback framer frame)
  | .connectionClose frame => .connectionClose { frame with ackFrame := {} }
  | frame => frame

section Frames
variable {framer : Framer} {frame : QuicFrame} {header : QuicPacketHeader}

lemma appends_frame (header : QuicPacketHeader) (hfits : Fits framer frame)
    (lastFrameInPacket : Bool) :
    Appends (fun w => (appendTypeByte framer.quicVersion frame lastFrameInPacket w).bind
        (appendPayload framer header frame lastFrameInPacket))
      (frameBytes framer frame lastFrameInPacket) := by
  cases frame with
  | stream frame =>
    exact (appends_write [streamType frame lastFrameInPacket]).bind
      (appends_streamFramePayload frame lastFrameInPacket)
  | congestionFeedback frame =>
    exact (appends_write [kQuicFrameTypeCongestionFeedbackMask]).bind
      (appends_feedback framer.creationTime hfits)
  | rstStream frame => exact (appends_write [1]).bind (appends_rstStream hfits)
  | connectionClose frame =>
    exact (appends_write [2]).bind (appends_connectionClose hfits.1 framer.entropyHash hfits.2)
  | goAway frame => exact (appends_write [3]).bind (appends_goAway hfits)
  | ack frame => exact absurd hfits id
  | padding => exact absurd hfits id

/-- Every frame is a segment, unless it is a stream frame that ends the packet. -/
lemma segment_frame (header : QuicPacketHeader) (hfits : Fits framer frame) {last : Bool}
    (hlast : last = false ∨ ∀ f, frame ≠ .stream f) :
    Segment framer header (frameBytes framer frame last) [decodeFrame framer frame] := by
  cases frame with
  | stream frame =>
    rcases hlast with rfl | hother
    · exact segment_stream framer header hfits
    · exact absurd rfl (hother frame)
  | congestionFeedback frame => exact segment_feedback framer header hfits
  | rstStream frame => exact segment_rstStream framer header hfits
  | connectionClose frame => exact segment_connectionClose hfits.1 header hfits.2
  | goAway frame => exact segment_goAway framer header hfits
  | ack frame => exact absurd hfits id
  | padding => exact absurd hfits id

lemma length_receivedBytes (lowestSequence : ℕ) (lowestTime : BitVec 64)
    (entries : List (ℕ × BitVec 64)) :
    (receivedBytes lowestSequence lowestTime entries).length = 6 * entries.length := by
  induction entries with
  | nil => rfl
  | cons e entries ih =>
    simp only [receivedBytes, List.length_append, length_toBytes, ih, List.length_cons]
    omega

lemma length_interArrivalBytes (creationTime : BitVec 64) (times : SortedMap ℕ (BitVec 64)) :
    (interArrivalBytes creationTime times).length =
      1 + if times.size > 0 then 6 + 8 + 6 * (times.size - 1) else 0 := by
  obtain ⟨entries, sorted⟩ := times
  cases entries with
  | nil => rfl
  | cons e rest =>
    simp only [interArrivalBytes, SortedMap.size, List.length_append, length_toBytes,
      length_receivedBytes, List.length_cons]
    simp
    omega

/-- The length that is computed for a frame is the one it is written with. -/
lemma length_frameBytes (hfits : Fits framer frame) (last : Bool)
    (length : QuicSequenceNumberLength) :
    (frameBytes framer frame last).length =
      computeFrameLength framer.quicVersion frame last length := by
  cases frame with
  | stream frame =>
    cases last <;>
    simp only [frameBytes, computeFrameLength, streamBytes, getMinStreamFrameSize,
      List.length_cons, List.length_append, length_toBytes, kQuicFrameTypeSize,
      kQuicStreamPayloadLengthSize] <;>
    simp <;> omega
  | congestionFeedback frame =>
    cases frame with
    | tcp lost receiveWindow => rfl
    | interArrival lost times =>
      simp only [frameBytes, feedbackBytes, computeFrameLength, List.length_cons,
        List.length_append, length_toBytes, length_interArrivalBytes, kQuicFrameTypeSize,
        QuicSequenceNumberLength.size, List.length_nil]
      omega
    | fixRate bitrate => rfl
  | rstStream frame =>
    simp only [frameBytes, rstStreamBytes, computeFrameLength, List.length_cons,
      List.length_append, length_toBytes, getMinRstStreamFrameSize, kQuicFrameTypeSize,
      kQuicMaxStreamIdSize, kQuicErrorCodeSize, kQuicErrorDetailsLengthSize]
    omega
  | connectionClose frame =>
    simp only [frameBytes, connectionCloseBytes, computeFrameLength, if_neg hfits.1,
      List.length_cons, List.length_append, length_toBytes, getMinConnectionCloseFrameSize,
      kQuicFrameTypeSize, kQuicErrorCodeSize, kQuicErrorDetailsLengthSize]
    omega
  | goAway frame =>
    simp only [frameBytes, goAwayBytes, computeFrameLength, List.length_cons,
      List.length_append, length_toBytes, getMinGoAwayFrameSize, kQuicFrameTypeSize,
      kQuicMaxStreamIdSize, kQuicErrorCodeSize, kQuicErrorDetailsLengthSize]
    omega
  | ack frame => exact absurd hfits id
  | padding => exact absurd hfits id

end Frames

/-! ### Packets -/

def framesBytes (framer : Framer) : List QuicFrame → List Byte
  | [] => []
  | frame :: frames => frameBytes framer frame frames.isEmpty ++ framesBytes framer frames

/-- The frames' part of the packet size, `last_frame` only for the last one. -/
def framesLength (version : QuicVersion) (length : QuicSequenceNumberLength) :
    List QuicFrame → ℕ
  | [] => 0
  | frame :: frames =>
    computeFrameLength version frame frames.isEmpty length + framesLength version length frames

section Packets
variable {framer : Framer} {frames : List QuicFrame}

lemma appends_frames (header : QuicPacketHeader) (hfits : ∀ f ∈ frames, Fits framer f) :
    Appends (appendFrames framer header frames) (framesBytes framer frames) := by
  induction frames with
  | nil => exact appends_some
  | cons frame frames ih =>
    rw [List.forall_mem_cons] at hfits
    intro w
    have happend := (appends_frame header hfits.1 frames.isEmpty).bind (ih hfits.2) w
    rw [framesBytes, ← happend]
    exact (Option.bind_assoc _ _ _).symm

lemma length_framesBytes (length : QuicSequenceNumberLength)
    (hfits : ∀ f ∈ frames, Fits framer f) :
    (framesBytes framer frames).length = framesLength framer.quicVersion length frames := by
  induction frames with
  | nil => rfl
  | cons frame frames ih =>
    rw [List.forall_mem_cons] at hfits
    rw [framesBytes, framesLength, List.length_append, length_frameBytes hfits.1 _ length,
      ih hfits.2]

/-- The packet holds the header and the frames, and nothing else. -/
lemma buildDataPacket_eq (header : QuicPacketHeader) (hfits : ∀ f ∈ frames, Fits framer f) :
    buildDataPacket framer header frames (getPacketHeaderSize header +
        framesLength framer.quicVersion header.sequenceNumberLength frames) =
      some
        { sequenceNumber := header.packetSequenceNumber
          sequenceNumberLength := header.sequenceNumberLength
          packet := headerBytes framer.quicVersion header ++ framesBytes framer frames
          entropyHash := getPacketEntropyHash header } := by
  set size := getPacketHeaderSize header +
    framesLength framer.quicVersion header.sequenceNumberLength frames with hsize
  have hheader := length_headerBytes framer.quicVersion header
  have hframes := length_framesBytes header.sequenceNumberLength hfits
  have hroom : (Writer.new size).room = size := rfl
  obtain ⟨w, hw, -, hdata⟩ : ∃ w, (Writer.new size).write
      (headerBytes framer.quicVersion header ++ framesBytes framer frames) = some w ∧ _ :=
    Writer.write_of_room (by rw [List.length_append, hroom]; omega)
  have hstart : appendPacketHeader framer.quicVersion header (Writer.new size) =
      (Writer.new size).write (headerBytes framer.quicVersion header) :=
    appendPacketHeader_of_room (by rw [hroom]; omega)
  have hwhole : ((appendPacketHeader framer.quicVersion header (Writer.new size)).bind
      (appendFrames framer header frames)) = some w := by
    rw [hstart, ← hw, ← Writer.write_write]
    congr 1
    funext v
    exact appends_frames header hfits v
  change ((appendPacketHeader framer.quicVersion header (Writer.new size)).bind fun w =>
    (appendFrames framer header frames w).bind _) = _
  rw [← Option.bind_assoc, hwhole, Option.bind_some, hdata]
  rfl

lemma frameBytes_ne_nil {frame : QuicFrame} (hfits : Fits framer frame) (last : Bool) :
    frameBytes framer frame last ≠ [] := by
  cases frame with
  | ack frame => exact absurd hfits id
  | padding => exact absurd hfits id
  | _ => simp [frameBytes]

/-- Every frame takes a turn of the loop, and the turns are enough. -/
lemma processFrames_framesBytes (header : QuicPacketHeader) (hfits : ∀ f ∈ frames, Fits framer f)
    {fuel : ℕ} (hfuel : (framesBytes framer frames).length ≤ fuel) :
    processFrames framer header fuel (framesBytes framer frames) =
      ⟨frames.map (decodeFrame framer), none⟩ := by
  induction frames generalizing fuel with
  | nil => rw [framesBytes, processFrames]; rfl
  | cons frame frames ih =>
    rw [List.forall_mem_cons] at hfits
    have hpos := List.length_pos_of_ne_nil (frameBytes_ne_nil hfits.1 frames.isEmpty)
    rw [framesBytes, List.length_append] at hfuel
    obtain ⟨fuel, rfl⟩ : ∃ n, fuel = n + 1 := ⟨fuel - 1, by omega⟩
    by_cases hlast : frames.isEmpty = false ∨ ∀ f, frame ≠ .stream f
    · have hsegment := segment_frame header hfits.1 hlast
      rw [framesBytes, processFrames_segment hsegment, ih hfits.2 (by omega)]
      rfl
    · -- the stream frame ends the packet and takes nothing more
      rw [not_or, not_forall_not, Bool.not_eq_false, List.isEmpty_iff] at hlast
      obtain ⟨rfl, f, rfl⟩ := hlast
      have hstream := processFrames_last_stream framer header f fuel []
      rw [List.append_nil] at hstream
      simpa [framesBytes, frameBytes, decodeFrame] using hstream

lemma processFrameData_framesBytes (header : QuicPacketHeader)
    (hfits : ∀ f ∈ frames, Fits framer f) (hne : frames ≠ []) :
    processFrameData framer header (framesBytes framer frames) =
      ⟨frames.map (decodeFrame framer), none⟩ := by
  have hbytes : framesBytes framer frames ≠ [] := by
    obtain ⟨frame, rest, rfl⟩ := List.exists_cons_of_ne_nil hne
    exact List.append_ne_nil_of_left_ne_nil
      (frameBytes_ne_nil (hfits _ List.mem_cons_self) _) _
  rw [processFrameData, if_neg (by simpa using hbytes),
    processFrames_framesBytes header hfits le_rfl]

end Packets

/-! ### Fields in the range of the wire -/

/-- The low 48 bits of the number are enough for the receiver to find it again. -/
def Recovered (lastSequenceNumber sequenceNumber : ℕ) : Prop :=
  calculatePacketSequenceNumberFromWire lastSequenceNumber .packet6Byte
    (sequenceNumber % 2 ^ 48) = sequenceNumber

/-- The distances to the lowest packet have 16 bits and the times since it 32. -/
structure TimesInRange (lastSequenceNumber : ℕ) (times : SortedMap ℕ (BitVec 64)) : Prop where
  size_le : times.size ≤ kuint8max
  lowest_recovered : ∀ lowest, times.first = some lowest →
    Recovered lastSequenceNumber lowest.1
  sequence_lt : ∀ lowest, times.first = some lowest →
    ∀ e ∈ times.entries, e.1 - lowest.1 < 2 ^ 16 ∧ e.1 < 2 ^ 64
  time_mem : ∀ lowest, times.first = some lowest →
    ∀ e ∈ times.entries, -2 ^ 31 ≤ (e.2 - lowest.2).toInt ∧ (e.2 - lowest.2).toInt < 2 ^ 31

def InRange (framer : Framer) : QuicFrame → Prop
  | .stream frame => frame.data.length < 2 ^ 16
  | .rstStream frame => frame.errorDetails.length < 2 ^ 16
  | .goAway frame => frame.reasonPhrase.length < 2 ^ 16
  | .connectionClose frame =>
    framer.quicVersion = .v12 ∧ frame.errorDetails.length < 2 ^ 16 ∧ frame.ackFrame = {}
  | .congestionFeedback (.tcp _ receiveWindow) => receiveWindow / 16 < 2 ^ 16
  | .congestionFeedback (.interArrival _ times) => TimesInRange framer.lastSequenceNumber times
  | .congestionFeedback (.fixRate bitrate) => bitrate / 8 < 2 ^ 32
  | .ack _ | .padding => False

/-- What a packet says of a frame: the window in units of 16 bytes, and the bit rate in bytes. -/
def rounded : QuicFrame → QuicFrame
  | .congestionFeedback (.tcp lost receiveWindow) =>
    .congestionFeedback (.tcp lost (receiveWindow / 16 * 16))
  | .congestionFeedback (.fixRate bitrate) => .congestionFeedback (.fixRate (bitrate / 8 * 8))
  | frame => frame

section Ranges
variable {framer : Framer}

lemma signExtend_setWidth {x : BitVec 64} (hlow : -2 ^ 31 ≤ x.toInt) (hhigh : x.toInt < 2 ^ 31) :
    (x.setWidth 32).signExtend 64 = x := by
  apply BitVec.eq_of_toInt_eq
  have hbmod : Int.bmod x.toNat (2 ^ 32) = Int.bmod x.toInt (2 ^ 32) := by
    rw [BitVec.toInt_eq_toNat_bmod, Int.bmod_bmod_of_dvd (by decide)]
  rw [BitVec.toInt_signExtend_of_le (by decide), BitVec.toInt_setWidth, hbmod]
  exact Int.bmod_eq_of_le_mul_two (by push_cast; omega) (by push_cast; omega)

/-- The entries of the map come back in their order. -/
lemma entries_decodeReceived {lowestSequence : ℕ} {lowestTime : BitVec 64}
    {entries : List (ℕ × BitVec 64)} {times : SortedMap ℕ (BitVec 64)}
    (hsorted : (times.entries ++ entries).Pairwise fun a b => a.1 < b.1)
    (hlow : ∀ e ∈ entries, lowestSequence ≤ e.1 ∧ e.1 < 2 ^ 64)
    (htime : ∀ e ∈ entries, -2 ^ 31 ≤ (e.2 - lowestTime).toInt ∧
      (e.2 - lowestTime).toInt < 2 ^ 31) :
    (decodeReceived lowestSequence lowestSequence lowestTime entries times).entries =
      times.entries ++ entries := by
  induction entries generalizing times with
  | nil => simp [decodeReceived]
  | cons e entries ih =>
    rw [List.forall_mem_cons] at hlow htime
    have hkey : (lowestSequence + (e.1 - lowestSequence)) % 2 ^ 64 = e.1 := by omega
    have hvalue : lowestTime + ((e.2 - lowestTime).setWidth 32).signExtend 64 = e.2 := by
      rw [signExtend_setWidth htime.1.1 htime.1.2, BitVec.add_comm, BitVec.sub_add_cancel]
    have hlast : ∀ e' ∈ times.entries, e'.1 < e.1 := by
      intro e' he'
      exact (List.pairwise_append.mp hsorted).2.2 e' he' e List.mem_cons_self
    have hentries : (times.insert e.1 e.2).entries = times.entries ++ [e] :=
      SortedMap.entries_insert_of_lt hlast
    rw [decodeReceived, hkey, hvalue, ih _ hlow.2 htime.2, hentries, List.append_assoc]
    · rfl
    · rw [hentries, List.append_assoc]
      exact hsorted

lemma decodeTimes_eq {times : SortedMap ℕ (BitVec 64)}
    (h : TimesInRange framer.lastSequenceNumber times) : decodeTimes framer times = times := by
  obtain ⟨entries, hsorted⟩ := times
  cases entries with
  | nil => rfl
  | cons e rest =>
    have hlow : ∀ e' ∈ rest, e.1 ≤ e'.1 ∧ e'.1 < 2 ^ 64 := by
      intro e' he'
      refine ⟨(List.rel_of_pairwise_cons hsorted he').le, ?_⟩
      exact (h.sequence_lt e rfl e' (List.mem_cons_of_mem _ he')).2
    have htime : ∀ e' ∈ rest, -2 ^ 31 ≤ (e'.2 - e.2).toInt ∧ (e'.2 - e.2).toInt < 2 ^ 31 :=
      fun e' he' => h.time_mem e rfl e' (List.mem_cons_of_mem _ he')
    have hrecovered := h.lowest_recovered e rfl
    rw [Recovered] at hrecovered
    have hdecoded : (decodeTimes framer ⟨e :: rest, hsorted⟩).entries = e :: rest := by
      simp only [decodeTimes, hrecovered]
      exact entries_decodeReceived hsorted hlow htime
    cases hmap : decodeTimes framer ⟨e :: rest, hsorted⟩
    simp only [hmap] at hdecoded
    subst hdecoded
    rfl

lemma fits_of_inRange {frame : QuicFrame} (h : InRange framer frame) : Fits framer frame := by
  cases frame with
  | stream frame => exact Nat.le_pred_of_lt h
  | rstStream frame => exact Nat.le_pred_of_lt h
  | goAway frame => exact Nat.le_pred_of_lt h
  | connectionClose frame =>
    refine ⟨?_, Nat.le_pred_of_lt h.2.1⟩
    rw [h.1]
    decide
  | congestionFeedback frame =>
    cases frame with
    | tcp lost receiveWindow => trivial
    | fixRate bitrate => trivial
    | interArrival lost times =>
      refine ⟨h.size_le, fun lowest hlowest e he => ?_⟩
      exact Nat.le_pred_of_lt (h.sequence_lt lowest hlowest e he).1
  | ack frame => exact absurd h id
  | padding => exact absurd h id

lemma decodeFrame_of_inRange {frame : QuicFrame} (h : InRange framer frame) :
    decodeFrame framer frame = rounded frame := by
  cases frame with
  | stream frame => rfl
  | rstStream frame => rfl
  | goAway frame => rfl
  | connectionClose frame =>
    obtain ⟨errorCode, errorDetails, ackFrame⟩ := frame
    obtain ⟨-, -, hack⟩ := h
    simp only at hack
    rw [hack]
    rfl
  | congestionFeedback frame =>
    cases frame with
    | tcp lost receiveWindow =>
      have hwindow : receiveWindow / 16 < 2 ^ 16 := h
      simp only [decodeFrame, decodeFeedback, rounded, Nat.shiftRight_eq_div_pow,
        Nat.shiftLeft_eq]
      rw [Nat.mod_eq_of_lt (by simpa using hwindow)]
    | fixRate bitrate =>
      have hbitrate : bitrate / 8 < 2 ^ 32 := h
      simp only [decodeFrame, decodeFeedback, rounded]
      rw [Nat.mod_eq_of_lt hbitrate]
    | interArrival lost times =>
      simp only [decodeFrame, decodeFeedback, rounded]
      rw [decodeTimes_eq h]
  | ack frame => exact absurd h id
  | padding => exact absurd h id

end Ranges

end Chromium.QuicFramer
