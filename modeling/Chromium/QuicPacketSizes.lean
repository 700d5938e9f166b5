import Chromium.QuicFecRecovery
import Chromium.QuicPacketCreator

/-!
# Packets as long as they were reckoned

Each frame is written with the length that was computed for it, unless it is an ack that is cut
off or a field is too long to be written at all. A packet of such frames fills its buffer.
-/
namespace Chromium.QuicPacketCreator

open WireFormat QuicFramer

/-! ### Lengths -/

lemma computeFrameLength_pos {version : QuicVersion} {frame : QuicFrame} (h : frame ≠ .padding)
    (last : Bool) (length : QuicSequenceNumberLength) :
    0 < computeFrameLength version frame last length := by
  cases frame with
  | padding => exact absurd rfl h
  | stream frame =>
    simp only [computeFrameLength, getMinStreamFrameSize, kQuicFrameTypeSize]
    omega
  | ack frame =>
    simp only [computeFrameLength, getAckFrameSize, getMinAckFrameSize, getMinAckFrameSizev11,
      kQuicFrameTypeSize]
    split <;> omega
  | congestionFeedback frame =>
    simp only [computeFrameLength, kQuicFrameTypeSize]
    omega
  | rstStream frame =>
    simp only [computeFrameLength, getMinRstStreamFrameSize, kQuicFrameTypeSize]
    omega
  | connectionClose frame =>
    simp only [computeFrameLength, getMinConnectionCloseFrameSize, getMinAckFrameSizev11,
      kQuicFrameTypeSize, kQuicErrorCodeSize]
    split <;> omega
  | goAway frame =>
    simp only [computeFrameLength, getMinGoAwayFrameSize, kQuicFrameTypeSize]
    omega

/-- Only a stream frame is shorter at the end of a packet. -/
lemma computeFrameLength_notLast (version : QuicVersion) (frame : QuicFrame)
    (length : QuicSequenceNumberLength) :
    computeFrameLength version frame false length = computeFrameLength version frame true length +
      if isStream frame then kQuicStreamPayloadLengthSize else 0 := by
  cases frame with
  | stream frame =>
    simp only [computeFrameLength, getMinStreamFrameSize, isStream, if_true, Bool.false_eq_true,
      if_false]
    omega
  | _ => rfl

/-- The frame that was the last one grows when another one is queued. -/
lemma framesLength_concat (version : QuicVersion) (length : QuicSequenceNumberLength)
    (frames : List QuicFrame) (frame : QuicFrame) :
    framesLength version length (frames ++ [frame]) = framesLength version length frames +
      (if frames.getLast?.any isStream then kQuicStreamPayloadLengthSize else 0) +
        computeFrameLength version frame true length := by
  induction frames with
  | nil => simp [framesLength]
  | cons f frames ih =>
    cases frames with
    | nil =>
      have hgrow := computeFrameLength_notLast version f length
      cases hstream : isStream f with
      | false => simp [framesLength, hgrow, hstream]
      | true => simp [framesLength, hgrow, hstream]
    | cons g frames =>
      have hlong : framesLength version length (f :: g :: frames) =
          computeFrameLength version f false length + framesLength version length (g :: frames) :=
        rfl
      rw [List.getLast?_cons_cons, hlong]
      show computeFrameLength version f false length +
        framesLength version length (g :: frames ++ [frame]) = _
      rw [ih]
      omega

/-! ### Frames -/

section Frames
variable {framer : Framer} {header : QuicPacketHeader} {w : Writer}

/-- The frame is written at this length. -/
def WritesFrame (framer : Framer) (header : QuicPacketHeader) (frame : QuicFrame) (last : Bool)
    (w : Writer) (length : ℕ) : Prop :=
  ∃ u, (appendTypeByte framer.quicVersion frame last w).bind
      (appendPayload framer header frame last) = some u ∧
    u.capacity = w.capacity ∧ u.data.length = w.data.length + length

lemma writesFrame_of_write {frame : QuicFrame} {last : Bool} {bytes : List Byte} {length : ℕ}
    (h : (appendTypeByte framer.quicVersion frame last w).bind
      (appendPayload framer header frame last) = w.write bytes)
    (hlength : bytes.length = length) (hroom : length ≤ w.room) :
    WritesFrame framer header frame last w length := by
  obtain ⟨u, hu, hcapacity, hdata⟩ := Writer.write_of_room (hlength.trans_le hroom)
  use u
  rw [h, hu, hdata, List.length_append, hlength]
  exact ⟨rfl, hcapacity, rfl⟩

lemma writesFrame_of_fits {frame : QuicFrame} {last : Bool} (hfits : Fits framer frame)
    (hroom : computeFrameLength framer.quicVersion frame last
      header.sequenceNumberLength ≤ w.room) :
    WritesFrame framer header frame last w
      (computeFrameLength framer.quicVersion frame last header.sequenceNumberLength) :=
  writesFrame_of_write (appends_frame header hfits last w)
    (length_frameBytes hfits last header.sequenceNumberLength) hroom

/-- The length of the data is written in two bytes, however long it is. -/
lemma writesFrame_stream {frame : QuicStreamFrame} {last : Bool}
    (hroom : computeFrameLength framer.quicVersion (.stream frame) last
      header.sequenceNumberLength ≤ w.room) :
    WritesFrame framer header (.stream frame) last w
      (computeFrameLength framer.quicVersion (.stream frame) last
        header.sequenceNumberLength) := by
  have hlength : (streamType frame last :: streamBytes frame last).length =
      computeFrameLength framer.quicVersion (.stream frame) last header.sequenceNumberLength := by
    cases last <;>
    simp [streamBytes, computeFrameLength, getMinStreamFrameSize, length_toBytes,
      kQuicFrameTypeSize, kQuicStreamPayloadLengthSize] <;> omega
  exact writesFrame_of_write (((appends_write [streamType frame last]).bind
    (appends_streamFramePayload frame last)) w) hlength hroom

/-- With room for all of its packets an ack of version 11 is not cut off. -/
lemma appendAckV11_full (entropyHash : ℕ → Byte) {frame : QuicAckFrame}
    (hroom : 19 + 6 * frame.receivedInfo.missingPackets.size ≤ w.room) :
    appendAckFramePayloadV11 entropyHash frame w =
      w.write (ackBytesV11 frame (fullContentV11 frame)) := by
  have hsize : frame.receivedInfo.missingPackets.keys.length =
      frame.receivedInfo.missingPackets.size := List.length_map _
  have hall : frame.receivedInfo.missingPackets.keys.length ≤ (w.room - 19) / 6 := by
    rw [hsize, Nat.le_div_iff_mul_le (by omega)]
    omega
  rw [appendAckV11_eq, if_pos (by omega), contentV11, if_pos hall, Option.bind_some]

lemma length_ackBytesV11_full (frame : QuicAckFrame) :
    (ackBytesV11 frame (fullContentV11 frame)).length =
      19 + 6 * frame.receivedInfo.missingPackets.size := by
  rw [ackBytesV11_eq, List.length_append, length_fixedBytesV11, length_sequenceNumbersBytes]
  exact congrArg (19 + 6 * ·) (List.length_map _)

lemma writesFrame_ackV11 (hold : framer.quicVersion.number ≤ 11) {frame : QuicAckFrame}
    {last : Bool} (hroom : computeFrameLength framer.quicVersion (.ack frame) last
      header.sequenceNumberLength ≤ w.room) :
    WritesFrame framer header (.ack frame) last w
      (computeFrameLength framer.quicVersion (.ack frame) last header.sequenceNumberLength) := by
  have hsize : computeFrameLength framer.quicVersion (.ack frame) last
      header.sequenceNumberLength = 20 + 6 * frame.receivedInfo.missingPackets.size := by
    rw [computeFrameLength, getAckFrameSize, if_pos hold]
    rfl
  rw [hsize] at hroom ⊢
  obtain ⟨v, hv, -⟩ : ∃ v, w.write [kQuicFrameTypeAckMask] = some v ∧ _ :=
    Writer.write_of_room (by rw [List.length_singleton]; omega)
  have hvroom := Writer.room_of_write hv
  rw [List.length_singleton] at hvroom
  have htype : appendTypeByte framer.quicVersion (.ack frame) last w = some v := by
    rw [appendTypeByte, if_neg (by omega), hv]
  have hwrite : (appendTypeByte framer.quicVersion (.ack frame) last w).bind
      (appendPayload framer header (.ack frame) last) =
        w.write ([kQuicFrameTypeAckMask] ++ ackBytesV11 frame (fullContentV11 frame)) := by
    rw [htype, Option.bind_some, appendPayload, if_pos hold,
      appendAckV11_full framer.entropyHash (by omega), ← Writer.write_write, hv,
      Option.bind_some]
  apply writesFrame_of_write hwrite _ hroom
  rw [List.length_append, List.length_singleton, length_ackBytesV11_full]
  omega

lemma writesFrame_ack (hnew : ¬ framer.quicVersion.number ≤ 11) {frame : QuicAckFrame}
    {last : Bool} (hranges : (getAckFrameInfo frame).nackRanges.length ≤ kuint8max)
    (hsmall : w.room < 2 ^ 64)
    (hroom : computeFrameLength framer.quicVersion (.ack frame) last
      header.sequenceNumberLength ≤ w.room) :
    WritesFrame framer header (.ack frame) last w
      (computeFrameLength framer.quicVersion (.ack frame) last header.sequenceNumberLength) := by
  have hsize := getAckFrameSize_eq hnew header frame
  rw [computeFrameLength] at hroom ⊢
  have hmax := maxNumRanges_eq header frame hsmall (show minAckSize framer.quicVersion header
    frame ≤ w.room by omega)
  have hunit : 0 < rangeSize frame := by
    rw [rangeSize, QuicSequenceNumberLength.size]
    omega
  have hall : (getAckFrameInfo frame).nackRanges.length ≤
      maxNumRanges framer.quicVersion header frame w.room := by
    rw [hmax, le_min_iff, Nat.le_div_iff_mul_le hunit]
    constructor
    · exact hranges
    · by_cases hnil : (getAckFrameInfo frame).nackRanges = []
      · simp [hnil]
      · rw [if_neg hnil] at hsize
        omega
  have htype : appendTypeByte framer.quicVersion (.ack frame) last w = some w := by
    rw [appendTypeByte, if_pos (by omega)]
  have hcontent := ackContent_full framer.entropyHash hall
  apply writesFrame_of_write _ _ hroom
  · exact ackType frame (ackContent framer.entropyHash frame
      (maxNumRanges framer.quicVersion header frame w.room)) ::
        ackBytes header frame (ackContent framer.entropyHash frame
          (maxNumRanges framer.quicVersion header frame w.room))
  · rw [htype, Option.bind_some, appendPayload, if_neg hnew, appendAck_eq]
  · rw [List.length_cons, length_ackBytes hnew, hsize, hcontent, List.length_reverse]

lemma writesFrame_connectionCloseV11 (hold : framer.quicVersion.number ≤ 11)
    {frame : QuicConnectionCloseFrame} {last : Bool}
    (hdetails : frame.errorDetails.length ≤ kuint16max)
    (hroom : computeFrameLength framer.quicVersion (.connectionClose frame) last
      header.sequenceNumberLength ≤ w.room) :
    WritesFrame framer header (.connectionClose frame) last w
      (computeFrameLength framer.quicVersion (.connectionClose frame) last
        header.sequenceNumberLength) := by
  have hsize : computeFrameLength framer.quicVersion (.connectionClose frame) last
      header.sequenceNumberLength = 26 + frame.errorDetails.length +
        6 * frame.ackFrame.receivedInfo.missingPackets.size := by
    rw [computeFrameLength, if_pos hold]
    rfl
  rw [hsize] at hroom ⊢
  -- the fields before the ack
  have hbefore := (appends_write [2]).bind ((appends_write (toBytes 4 frame.errorCode)).bind
    (appends_stringPiece16 hdetails))
  obtain ⟨v, hv, -⟩ : ∃ v, w.write ([2] ++ (toBytes 4 frame.errorCode ++
      (toBytes 2 frame.errorDetails.length ++ frame.errorDetails))) = some v ∧ _ :=
    Writer.write_of_room (by
      simp only [List.length_append, List.length_singleton, length_toBytes]
      omega)
  have hvroom := Writer.room_of_write hv
  simp only [List.length_append, List.length_singleton, length_toBytes] at hvroom
  have hwrite : (appendTypeByte framer.quicVersion (.connectionClose frame) last w).bind
      (appendPayload framer header (.connectionClose frame) last) =
        w.write ([2] ++ (toBytes 4 frame.errorCode ++
          (toBytes 2 frame.errorDetails.length ++ frame.errorDetails)) ++
            ackBytesV11 frame.ackFrame (fullContentV11 frame.ackFrame)) := by
    rw [← Writer.write_write, hv, Option.bind_some,
      ← appendAckV11_full framer.entropyHash (by omega)]
    have hwhole : (w.write [2]).bind (fun w => (w.write (toBytes 4 frame.errorCode)).bind
        (writeStringPiece16 frame.errorDetails)) = some v := (hbefore w).trans hv
    have hbind := congrArg
      (fun r => r.bind (appendAckFramePayloadV11 framer.entropyHash frame.ackFrame)) hwhole
    simp only [Option.bind_assoc, Option.bind_some] at hbind
    rw [← hbind, appendTypeByte]
    congr 1
    funext u
    simp only [appendPayload, appendConnectionCloseFramePayload, if_pos hold]
    rfl
  apply writesFrame_of_write hwrite _ hroom
  simp only [List.length_append, List.length_singleton, length_toBytes, length_ackBytesV11_full]
  omega

end Frames

/-! ### Packets -/

/-- A frame that can be written and that no packet cuts off: an ack, alone or in a connection
close, has room in a packet of its own and no more ranges than their number can tell. -/
def InFull (cfg : Config) (frame : QuicFrame) : Prop :=
  let fitsAlone := cfg.emptyPacketSize + computeFrameLength cfg.framer.quicVersion frame true
    cfg.options.sendSequenceNumberLength ≤ cfg.maxPlaintextSize
  match frame with
  | .stream _ | .padding => True
  | .ack frame => fitsAlone ∧ (¬ cfg.framer.quicVersion.number ≤ 11 →
      (getAckFrameInfo frame).nackRanges.length ≤ kuint8max)
  | .connectionClose frame => fitsAlone ∧ frame.errorDetails.length ≤ kuint16max
  | .congestionFeedback frame => FeedbackFits frame
  | .rstStream frame => frame.errorDetails.length ≤ kuint16max
  | .goAway frame => frame.reasonPhrase.length ≤ kuint16max

section Packets
variable {cfg : Config} {header : QuicPacketHeader}

lemma writesFrame_of_inFull {frame : QuicFrame} {last : Bool} {w : Writer}
    (hfull : InFull cfg frame) (hne : frame ≠ .padding) (hsmall : w.room < 2 ^ 64)
    (hroom : computeFrameLength cfg.framer.quicVersion frame last
      header.sequenceNumberLength ≤ w.room) :
    WritesFrame cfg.framer header frame last w
      (computeFrameLength cfg.framer.quicVersion frame last header.sequenceNumberLength) := by
  cases frame with
  | padding => exact absurd rfl hne
  | stream frame => exact writesFrame_stream hroom
  | congestionFeedback frame => exact writesFrame_of_fits hfull hroom
  | rstStream frame => exact writesFrame_of_fits hfull hroom
  | goAway frame => exact writesFrame_of_fits hfull hroom
  | ack frame =>
    by_cases hold : cfg.framer.quicVersion.number ≤ 11
    · exact writesFrame_ackV11 hold hroom
    · exact writesFrame_ack hold (hfull.2 hold) hsmall hroom
  | connectionClose frame =>
    by_cases hold : cfg.framer.quicVersion.number ≤ 11
    · exact writesFrame_connectionCloseV11 hold hfull.2 hroom
    · exact writesFrame_of_fits ⟨hold, hfull.2⟩ hroom

/-- Padding takes what is left of the packet. -/
lemma writesFrame_padding {framer : Framer} {w : Writer} (last : Bool) (hroom : 0 < w.room) :
    WritesFrame framer header .padding last w w.room := by
  obtain ⟨v, hv, hcapacity, hdata⟩ : ∃ v, w.write [0] = some v ∧ _ :=
    Writer.write_of_room (by rw [List.length_singleton]; omega)
  have hvroom := Writer.room_of_write hv
  have htype : appendTypeByte framer.quicVersion .padding last w = some v := hv
  use writePadding v
  constructor
  · rw [htype, Option.bind_some, appendPayload]
  constructor
  · exact hcapacity
  · rw [List.length_singleton] at hvroom
    rw [writePadding, List.length_append, List.length_replicate, hdata, List.length_append,
      List.length_singleton]
    omega

/-- The frames fill what was reckoned for them, and padding all the rest. -/
lemma appendFrames_inFull {frames : List QuicFrame} {w : Writer}
    (hfull : ∀ f ∈ frames, InFull cfg f) (hpadding : ∀ f ∈ frames.dropLast, f ≠ .padding)
    (hsmall : w.room < 2 ^ 64)
    (hroom : framesLength cfg.framer.quicVersion header.sequenceNumberLength frames +
      (if .padding ∈ frames then 1 else 0) ≤ w.room) :
    ∃ u, appendFrames cfg.framer header frames w = some u ∧ u.capacity = w.capacity ∧
      u.data.length = if .padding ∈ frames then w.capacity else w.data.length +
        framesLength cfg.framer.quicVersion header.sequenceNumberLength frames := by
  induction frames generalizing w with
  | nil => exact ⟨w, rfl, rfl, rfl⟩
  | cons frame frames ih =>
    have hcons : ∀ last, frames.isEmpty = last →
        appendFrames cfg.framer header (frame :: frames) w =
          ((appendTypeByte cfg.framer.quicVersion frame last w).bind
            (appendPayload cfg.framer header frame last)).bind
              (appendFrames cfg.framer header frames) := by
      intro last hlast
      rw [← hlast]
      exact (Option.bind_assoc _ _ _).symm
    have hfits := w.fits
    cases frames with
    | nil =>
      by_cases hne : frame = .padding
      · subst hne
        rw [if_pos (List.mem_singleton_self _)] at hroom
        obtain ⟨u, hu, hcapacity, hlength⟩ : WritesFrame cfg.framer header .padding true w w.room :=
          writesFrame_padding true (by omega)
        use u
        rw [hcons true rfl, hu, if_pos (List.mem_singleton_self _), hlength, Writer.room]
        exact ⟨rfl, hcapacity, by omega⟩
      · have hnot : QuicFrame.padding ∉ [frame] := by simpa using Ne.symm hne
        rw [if_neg hnot] at hroom
        obtain ⟨u, hu, hcapacity, hlength⟩ : WritesFrame cfg.framer header frame true w _ :=
          writesFrame_of_inFull (hfull frame List.mem_cons_self) hne hsmall hroom
        use u
        rw [hcons true rfl, hu, if_neg hnot, hlength]
        exact ⟨rfl, hcapacity, rfl⟩
    | cons g frames =>
      rw [List.dropLast_cons₂, List.forall_mem_cons] at hpadding
      rw [List.forall_mem_cons] at hfull
      have hmem : QuicFrame.padding ∈ frame :: g :: frames ↔ .padding ∈ g :: frames := by
        rw [List.mem_cons, or_iff_right hpadding.1.symm]
      rw [framesLength] at hroom ⊢
      simp only [hmem, List.isEmpty_cons] at hroom ⊢
      obtain ⟨v, hv, hcapacity, hlength⟩ : WritesFrame cfg.framer header frame false w _ :=
        writesFrame_of_inFull hfull.1 hpadding.1 hsmall (by omega)
      have hvroom : v.room + computeFrameLength cfg.framer.quicVersion frame false
          header.sequenceNumberLength = w.room := by
        have := v.fits
        rw [Writer.room, Writer.room] at *
        omega
      obtain ⟨u, hu, hcapacity', hlength'⟩ := @ih v hfull.2 hpadding.2 (by omega) (by omega)
      use u
      rw [hcons false rfl, hv, Option.bind_some, hu, hlength', hcapacity', hcapacity, hlength]
      refine ⟨rfl, rfl, ?_⟩
      split <;> omega

/-- Frames that are written in full fill the size that was reckoned for them. -/
lemma buildDataPacket_inFull {frames : List QuicFrame} {size : ℕ}
    (hfull : ∀ f ∈ frames, InFull cfg f) (hpadding : ∀ f ∈ frames.dropLast, f ≠ .padding)
    (hsmall : size < 2 ^ 64)
    (hsize : if .padding ∈ frames then
        getPacketHeaderSize header +
          framesLength cfg.framer.quicVersion header.sequenceNumberLength frames < size
      else size = getPacketHeaderSize header +
        framesLength cfg.framer.quicVersion header.sequenceNumberLength frames) :
    ∃ packet, buildDataPacket cfg.framer header frames size = some packet ∧
      packet.packet.length = size := by
  have hheader := length_headerBytes cfg.framer.quicVersion header
  have hnew : (Writer.new size).room = size := rfl
  have hroom : getPacketHeaderSize header ≤ size := by
    split at hsize <;> omega
  obtain ⟨w, hw, hcapacity, hdata⟩ := @Writer.write_of_room (Writer.new size)
    (headerBytes cfg.framer.quicVersion header) (by rw [hheader, hnew]; exact hroom)
  have hwroom := Writer.room_of_write hw
  have hwlength : w.data.length = getPacketHeaderSize header := by
    rw [hdata, List.length_append, hheader]
    exact Nat.zero_add _
  have hframes : framesLength cfg.framer.quicVersion header.sequenceNumberLength frames +
      (if .padding ∈ frames then 1 else 0) ≤ w.room := by
    split at hsize
    next hmem => rw [if_pos hmem]; omega
    next hmem => rw [if_neg hmem]; omega
  obtain ⟨u, hu, hcapacity', hlength⟩ := @appendFrames_inFull cfg header frames w hfull hpadding
    (by omega) hframes
  have hbuild : buildDataPacket cfg.framer header frames size = some
      { sequenceNumber := header.packetSequenceNumber
        sequenceNumberLength := header.sequenceNumberLength
        packet := u.data
        entropyHash := getPacketEntropyHash header } := by
    rw [buildDataPacket, appendPacketHeader_of_room (hnew ▸ hroom), hw]
    simp only [Option.bind_eq_bind, Option.bind_some, hu]
  refine ⟨_, hbuild, ?_⟩
  show u.data.length = size
  rw [hlength, hwlength, hcapacity]
  split at hsize
  next hmem => rw [if_pos hmem]; rfl
  next hmem => rw [if_neg hmem]; exact hsize.symm

/-- Whatever is built has room in the size that was reckoned. -/
lemma length_buildDataPacket_le {framer : Framer} {frames : List QuicFrame} {size : ℕ}
    {packet : SerializedPacket} (h : buildDataPacket framer header frames size = some packet)
    (hroom : getPacketHeaderSize header ≤ size) : packet.packet.length ≤ size := by
  obtain ⟨w, hheader, hframes⟩ := Option.bind_eq_some_iff.mp h
  obtain ⟨v, hv, hpacket⟩ := Option.bind_eq_some_iff.mp hframes
  rw [appendPacketHeader_of_room hroom] at hheader
  obtain ⟨-, hcapacity, -⟩ := Writer.write_eq_some hheader
  have hcapacity' := (QuicFec.processFrames_appendFrames rfl hv).1
  rw [← Option.some.inj hpacket]
  calc v.data.length ≤ v.capacity := v.fits
    _ = size := hcapacity'.trans hcapacity

end Packets

end Chromium.QuicPacketCreator
