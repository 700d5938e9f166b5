import Chromium.QuicAckFrames
import Chromium.QuicFecGroup
import Chromium.QuicFramerRoundTrip

/-!
# Frames of a revived packet

What was built is a row of segments, and so it is read in the same way when zeros stand behind
it. Only a stream frame at the end of the packet takes the zeros for its own data.
-/
namespace Chromium.QuicFec

open WireFormat Parser QuicFramer

/-! ### Frames that were written -/

lemma data_of_appends {step : Writer → Option Writer} {bytes : List Byte} {w v : Writer}
    (happends : Appends step bytes) (h : step w = some v) :
    v.capacity = w.capacity ∧ v.data = w.data ++ bytes := by
  rw [happends] at h
  exact (Writer.write_eq_some h).2

lemma length_of_writeStringPiece16 {val : List Byte} {w v : Writer}
    (h : writeStringPiece16 val w = some v) : val.length ≤ kuint16max := by
  by_contra hlong
  rw [writeStringPiece16, if_pos (by omega)] at h
  cases h

lemma distance_of_appendReceivedPackets {lowestSequence : ℕ} {lowestTime : BitVec 64}
    {entries : List (ℕ × BitVec 64)} {w v : Writer}
    (h : appendReceivedPackets lowestSequence lowestTime entries w = some v) :
    ∀ e ∈ entries, e.1 - lowestSequence ≤ kuint16max := by
  induction entries generalizing w with
  | nil => simp
  | cons e entries ih =>
    rw [appendReceivedPackets] at h
    split_ifs at h with hfar
    obtain ⟨w₁, -, h⟩ := Option.bind_eq_some_iff.mp h
    obtain ⟨w₂, -, h⟩ := Option.bind_eq_some_iff.mp h
    rw [List.forall_mem_cons]
    exact ⟨by omega, ih h⟩

lemma fits_of_appendInterArrival {creationTime : BitVec 64} {times : SortedMap ℕ (BitVec 64)}
    {w v : Writer} (h : appendInterArrival creationTime times w = some v) :
    InterArrivalFits times := by
  rw [appendInterArrival] at h
  split_ifs at h with hsize
  obtain ⟨w₁, -, h⟩ := Option.bind_eq_some_iff.mp h
  refine ⟨by omega, ?_⟩
  intro lowest hlowest
  rw [SortedMap.first] at hlowest
  cases hentries : times.entries with
  | nil => simp
  | cons e rest =>
    rw [hentries] at h hlowest
    obtain ⟨w₂, -, h⟩ := Option.bind_eq_some_iff.mp h
    obtain ⟨w₃, -, h⟩ := Option.bind_eq_some_iff.mp h
    cases hlowest
    rw [List.forall_mem_cons]
    exact ⟨by omega, distance_of_appendReceivedPackets h⟩

lemma fits_of_appendFeedback {creationTime : BitVec 64} {frame : QuicCongestionFeedbackFrame}
    {w v : Writer} (h : appendQuicCongestionFeedbackFramePayload creationTime frame w = some v) :
    FeedbackFits frame := by
  cases frame with
  | tcp lost receiveWindow => trivial
  | interArrival lost times =>
    obtain ⟨w₁, -, h⟩ := Option.bind_eq_some_iff.mp h
    obtain ⟨w₂, -, h⟩ := Option.bind_eq_some_iff.mp h
    exact fits_of_appendInterArrival h
  | fixRate bitrate => trivial

/-! ### Feedback of a peer with another clock -/

lemma exists_reads_receivedPackets (smallestReceived lowestSequence : ℕ)
    (timeReceived lowestTime : BitVec 64) (entries : List (ℕ × BitVec 64))
    (times : SortedMap ℕ (BitVec 64)) :
    ∃ value, Reads (readReceivedPackets smallestReceived timeReceived entries.length times)
      (receivedBytes lowestSequence lowestTime entries) value := by
  induction entries generalizing times with
  | nil => exact ⟨times, reads_pure times⟩
  | cons e entries ih =>
    obtain ⟨value, hvalue⟩ := ih _
    exact ⟨value, (reads_uint 2 _ _).bind ((reads_uint 4 _ _).bind hvalue)⟩

lemma exists_reads_interArrival (framer : Framer) (creationTime : BitVec 64)
    {times : SortedMap ℕ (BitVec 64)} (hsize : times.size ≤ kuint8max) :
    ∃ value, Reads (processInterArrival framer) (interArrivalBytes creationTime times) value := by
  have hlt : times.size < 2 ^ (8 * 1) := by
    rw [kuint8max] at hsize
    omega
  obtain ⟨entries, sorted⟩ := times
  cases entries with
  | nil => exact ⟨∅, (reads_uint_of_lt hlt _).bind (reads_pure _)⟩
  | cons e rest =>
    obtain ⟨value, hvalue⟩ := exists_reads_receivedPackets _ _ _ _ _ _
    exact ⟨value, (reads_uint_of_lt hlt _).bind (((reads_uint 6 _ _).map _).bind
      ((reads_uint 8 _ _).bind hvalue))⟩

lemma exists_reads_feedback (framer : Framer) (creationTime : BitVec 64)
    {frame : QuicCongestionFeedbackFrame} (hfits : FeedbackFits frame) :
    ∃ value, Reads (processQuicCongestionFeedbackFrame framer)
      (feedbackBytes creationTime frame) value := by
  cases frame with
  | tcp lost receiveWindow =>
    have hread := reads_feedback framer hfits
    exact ⟨_, hread⟩
  | fixRate bitrate =>
    have hread := reads_feedback framer hfits
    exact ⟨_, hread⟩
  | interArrival lost times =>
    obtain ⟨value, hvalue⟩ := exists_reads_interArrival framer creationTime hfits.1
    have htype : Reads (uint 1 "Unable to read congestion feedback type.") [(1 : Byte)] 1 :=
      reads_uint_of_lt (by decide) _
    exact ⟨_, htype.bind ((reads_uint 2 _ _).bind (hvalue.bind_pure _))⟩

/-! ### Segments -/

/-- The frame is not an ack that the header decides how to read. -/
def ReadAlike (version : QuicVersion) (header received : QuicPacketHeader) (frame : QuicFrame) :
    Prop :=
  version.number ≤ 11 ∨ (∀ f, frame ≠ .ack f) ∨
    received.sequenceNumberLength = header.sequenceNumberLength

section Written
variable {sender receiver : Framer} {header : QuicPacketHeader} {frame : QuicFrame} {last : Bool}
  {w v : Writer}

/-- The frame is written behind `w`, and what fits in a packet is read as a segment. -/
def Written (sender receiver : Framer) (header : QuicPacketHeader) (frame : QuicFrame)
    (w v : Writer) : Prop :=
  v.capacity = w.capacity ∧ ∃ bytes frames, v.data = w.data ++ bytes ∧ bytes ≠ [] ∧
    (bytes.length ≤ kMaxPacketSize → ∀ received : QuicPacketHeader,
      received.packetSequenceNumber = header.packetSequenceNumber →
        ReadAlike sender.quicVersion header received frame →
          Segment receiver received bytes frames)

lemma Written.of_appends {step : Writer → Option Writer} {bytes : List Byte}
    (frames : List QuicFrame) (happends : Appends step bytes) (h : step w = some v)
    (hne : bytes ≠ [])
    (hsegment : bytes.length ≤ kMaxPacketSize → ∀ received : QuicPacketHeader,
      received.packetSequenceNumber = header.packetSequenceNumber →
        ReadAlike sender.quicVersion header received frame →
          Segment receiver received bytes frames) :
    Written sender receiver header frame w v := by
  obtain ⟨hcap, hdata⟩ := data_of_appends happends h
  exact ⟨hcap, bytes, frames, hdata, hne, hsegment⟩

lemma written_ack (hversion : receiver.quicVersion = sender.quicVersion) {f : QuicAckFrame}
    (h : (appendTypeByte sender.quicVersion (.ack f) last w).bind
      (appendPayload sender header (.ack f) last) = some v) :
    Written sender receiver header (.ack f) w v := by
  by_cases hold : sender.quicVersion.number ≤ 11
  · obtain ⟨u, hu, h⟩ := Option.bind_eq_some_iff.mp h
    rw [appendTypeByte, if_neg (by omega)] at hu
    rw [appendPayload, if_pos hold, appendAckV11_eq] at h
    split_ifs at h
    obtain ⟨content, -, hwrite⟩ := Option.bind_eq_some_iff.mp h
    obtain ⟨-, hcap, hdata⟩ := Writer.write_eq_some hu
    obtain ⟨-, hcap', hdata'⟩ := Writer.write_eq_some hwrite
    have hall : v.data = w.data ++ (kQuicFrameTypeAckMask :: ackBytesV11 f content) := by
      rw [hdata', hdata, List.append_assoc, List.singleton_append]
    refine ⟨hcap'.trans hcap, _, [.ack (decodeAckV11 receiver.lastSequenceNumber f content)],
      hall, by simp, ?_⟩
    intro hsmall received _ _
    have hcount : content.missing.length ≤ kuint8max := by
      rw [List.length_cons, ackBytesV11_eq, List.length_append, length_fixedBytesV11,
        length_sequenceNumbersBytes, kMaxPacketSize] at hsmall
      rw [kuint8max]
      omega
    exact segment_ackV11 (hversion ▸ hold) received f hcount
  · obtain ⟨u, hu, h⟩ := Option.bind_eq_some_iff.mp h
    rw [appendTypeByte, if_pos (by omega)] at hu
    cases hu
    rw [appendPayload, if_neg hold, appendAck_eq] at h
    obtain ⟨-, hcap, hdata⟩ := Writer.write_eq_some h
    have hcount : (ackContent sender.entropyHash f
        (maxNumRanges sender.quicVersion header f w.room)).ranges.length ≤ kuint8max := by
      rw [length_ranges_ackContent]
      exact (min_le_right _ _).trans (min_le_left _ _)
    set content := ackContent sender.entropyHash f
      (maxNumRanges sender.quicVersion header f w.room)
    refine ⟨hcap, _, [.ack (decodeAck header header f content)], hdata, by simp, ?_⟩
    intro _ received hnumber halike
    have hlength : received.sequenceNumberLength = header.sequenceNumberLength := by
      rcases halike with hle | hother | hsame
      · exact absurd hle hold
      · exact absurd rfl (hother f)
      · exact hsame
    have hsame : decodeAck header received f content = decodeAck header header f content := by
      rw [decodeAck, decodeAck, hnumber]
    have hsegment : Segment receiver received _ _ :=
      segment_ack (hversion ▸ hold) hlength f hcount
    rw [hsame] at hsegment
    exact hsegment

lemma written_connectionClose (hversion : receiver.quicVersion = sender.quicVersion)
    {f : QuicConnectionCloseFrame}
    (h : (appendTypeByte sender.quicVersion (.connectionClose f) last w).bind
      (appendPayload sender header (.connectionClose f) last) = some v) :
    Written sender receiver header (.connectionClose f) w v := by
  obtain ⟨u, hu, h'⟩ := Option.bind_eq_some_iff.mp h
  obtain ⟨u₁, hu₁, h'⟩ := Option.bind_eq_some_iff.mp h'
  obtain ⟨u₂, hu₂, h'⟩ := Option.bind_eq_some_iff.mp h'
  have hdetails := length_of_writeStringPiece16 hu₂
  by_cases hold : sender.quicVersion.number ≤ 11
  · rw [if_pos hold, appendAckV11_eq] at h'
    split_ifs at h'
    obtain ⟨content, -, hwrite⟩ := Option.bind_eq_some_iff.mp h'
    obtain ⟨-, hcap, hdata⟩ := Writer.write_eq_some hu
    obtain ⟨-, hcap₁, hdata₁⟩ := Writer.write_eq_some hu₁
    obtain ⟨hcap₂, hdata₂⟩ := data_of_appends (appends_stringPiece16 hdetails) hu₂
    obtain ⟨-, hcap', hdata'⟩ := Writer.write_eq_some hwrite
    have hall : v.data = w.data ++
        (2 :: (connectionCloseBytes f ++ ackBytesV11 f.ackFrame content)) := by
      rw [hdata', hdata₂, hdata₁, hdata, connectionCloseBytes]
      simp only [List.append_assoc, List.cons_append, List.nil_append]
    refine ⟨hcap'.trans (hcap₂.trans (hcap₁.trans hcap)), _,
      [.ack (decodeAckV11 receiver.lastSequenceNumber f.ackFrame content),
        .connectionClose { f with
          ackFrame := decodeAckV11 receiver.lastSequenceNumber f.ackFrame content }],
      hall, by simp, ?_⟩
    intro hsmall received _ _
    have hcount : content.missing.length ≤ kuint8max := by
      rw [List.length_cons, List.length_append, ackBytesV11_eq, List.length_append,
        length_fixedBytesV11, length_sequenceNumbersBytes, kMaxPacketSize] at hsmall
      rw [kuint8max]
      omega
    exact segment_connectionCloseV11 (hversion ▸ hold) received hdetails hcount
  · have happends := (appends_write [2]).bind
      (appends_connectionClose hold sender.entropyHash hdetails)
    refine Written.of_appends [.connectionClose { f with ackFrame := {} }]
      happends h (by simp) ?_
    intro _ received _ _
    exact segment_connectionClose (hversion ▸ hold) received hdetails

/-- Each frame is a segment, unless it fills the packet or takes what is left of it. -/
lemma written_frame (hversion : receiver.quicVersion = sender.quicVersion)
    (h : (appendTypeByte sender.quicVersion frame last w).bind
      (appendPayload sender header frame last) = some v)
    (hpadding : frame ≠ .padding)
    (hlast : last = false ∨ ∀ f, frame ≠ .stream f) :
    Written sender receiver header frame w v := by
  cases frame with
  | padding => exact absurd rfl hpadding
  | ack f => exact written_ack hversion h
  | connectionClose f => exact written_connectionClose hversion h
  | stream f =>
    obtain rfl : last = false := hlast.resolve_right fun hother => hother f rfl
    have happends := (appends_write [streamType f false]).bind (appends_streamFramePayload f false)
    refine Written.of_appends [.stream f] happends h (by simp) ?_
    intro hsmall received _ _
    have hdata : f.data.length ≤ kuint16max := by
      simp only [streamBytes, List.length_append] at hsmall
      rw [kMaxPacketSize] at hsmall
      rw [kuint16max]
      omega
    exact segment_stream receiver received hdata
  | congestionFeedback f =>
    obtain ⟨u, -, happend⟩ := Option.bind_eq_some_iff.mp h
    have hfits := fits_of_appendFeedback happend
    obtain ⟨value, hvalue⟩ := exists_reads_feedback receiver sender.creationTime hfits
    have happends := (appends_write [kQuicFrameTypeCongestionFeedbackMask]).bind
      (appends_feedback sender.creationTime hfits)
    refine Written.of_appends [.congestionFeedback value] happends h (by simp) ?_
    intro _ received _ _
    exact ⟨_, _, quicInvalidCongestionFeedbackData, _, rfl, rfl, hvalue.map _⟩
  | rstStream f =>
    obtain ⟨u, -, happend⟩ := Option.bind_eq_some_iff.mp h
    obtain ⟨u₁, -, happend⟩ := Option.bind_eq_some_iff.mp happend
    obtain ⟨u₂, -, happend⟩ := Option.bind_eq_some_iff.mp happend
    have hdetails := length_of_writeStringPiece16 happend
    refine Written.of_appends [.rstStream f]
      ((appends_write [1]).bind (appends_rstStream hdetails)) h (by simp) ?_
    intro _ received _ _
    exact segment_rstStream receiver received hdetails
  | goAway f =>
    obtain ⟨u, -, happend⟩ := Option.bind_eq_some_iff.mp h
    obtain ⟨u₁, -, happend⟩ := Option.bind_eq_some_iff.mp happend
    obtain ⟨u₂, -, happend⟩ := Option.bind_eq_some_iff.mp happend
    have hreason := length_of_writeStringPiece16 happend
    refine Written.of_appends [.goAway f]
      ((appends_write [3]).bind (appends_goAway hreason)) h (by simp) ?_
    intro _ received _ _
    exact segment_goAway receiver received hreason

end Written

/-! ### Payloads with zeros behind them -/

section Payload
variable {sender receiver : Framer} {header : QuicPacketHeader} {frames : List QuicFrame}
  {w v : Writer}

/-- The stream frame at the end of the packet, with zeros at the end of its data. -/
def lastStream (frames : List QuicFrame) (zeros : ℕ) : List QuicFrame :=
  match frames.getLast? with
  | some (.stream frame) => [.stream { frame with data := frame.data ++ List.replicate zeros 0 }]
  | _ => []

lemma lastStream_cons {frame : QuicFrame} {zeros : ℕ}
    (h : frames.isEmpty = false ∨ ∀ f, frame ≠ .stream f) :
    lastStream (frame :: frames) zeros = lastStream frames zeros := by
  cases frames with
  | cons next frames =>
    rw [lastStream, List.getLast?_cons_cons]
    rfl
  | nil =>
    have hother := h.resolve_left (by simp)
    cases frame with
    | stream f => exact absurd rfl (hother f)
    | _ => rfl

/-- Zeros end the packet. -/
lemma processFrames_zeros (framer : Framer) (received : QuicPacketHeader) (fuel zeros : ℕ) :
    processFrames framer received fuel (List.replicate zeros 0) = ⟨[], none⟩ := by
  cases zeros with
  | zero => cases fuel <;> rfl
  | succ zeros => cases fuel <;> rfl

/-- What was written is read as some frames, and as the last stream frame with the zeros. -/
lemma processFrames_appendFrames (hversion : receiver.quicVersion = sender.quicVersion)
    (h : appendFrames sender header frames w = some v) :
    v.capacity = w.capacity ∧ ∃ bytes before, v.data = w.data ++ bytes ∧
      (bytes = [] → frames = []) ∧
      (bytes.length ≤ kMaxPacketSize → ∀ received : QuicPacketHeader,
        received.packetSequenceNumber = header.packetSequenceNumber →
          (∀ frame ∈ frames, ReadAlike sender.quicVersion header received frame) →
            ∀ zeros fuel, bytes.length + zeros ≤ fuel →
              processFrames receiver received fuel (bytes ++ List.replicate zeros 0) =
                ⟨before ++ lastStream frames zeros, none⟩) := by
  induction frames generalizing w with
  | nil =>
    cases h
    refine ⟨rfl, [], [], by simp, fun _ => rfl, ?_⟩
    intro _ received _ _ zeros fuel _
    exact processFrames_zeros receiver received fuel zeros
  | cons frame frames ih =>
    obtain ⟨u₀, hu₀, hafter⟩ := Option.bind_eq_some_iff.mp h
    obtain ⟨u, hu, hrest⟩ := Option.bind_eq_some_iff.mp hafter
    have hframe : (appendTypeByte sender.quicVersion frame frames.isEmpty w).bind
        (appendPayload sender header frame frames.isEmpty) = some u := by
      rw [hu₀]
      exact hu
    obtain ⟨hcap, bytes, before, hdata, hempty, hread⟩ := ih hrest
    by_cases hpadding : frame = .padding
    · -- nothing fits behind the padding
      subst hpadding
      obtain ⟨-, hcap₀, hdata₀⟩ := Writer.write_eq_some hu₀
      cases hu
      have hroom : bytes = [] := by
        have hfits := v.fits
        rw [hdata, hcap, List.length_append] at hfits
        have hfull : (writePadding u₀).data.length = (writePadding u₀).capacity := by
          have := u₀.fits
          simp only [writePadding, List.length_append, List.length_replicate, Writer.room]
          omega
        exact List.length_eq_zero_iff.mp (by omega)
      obtain rfl := hempty hroom
      cases hrest
      refine ⟨hcap₀, List.replicate (u₀.room + 1) 0, [], ?_, by simp, ?_⟩
      · rw [List.replicate_succ]
        simp only [writePadding, hdata₀, List.append_assoc, List.singleton_append]
      · intro _ received _ _ zeros fuel _
        rw [← List.replicate_add]
        exact processFrames_zeros receiver received fuel _
    · by_cases hlast : frames.isEmpty = false ∨ ∀ f, frame ≠ .stream f
      · obtain ⟨hcapFrame, item, reported, hitem, hne, hsegment⟩ :=
          written_frame hversion hframe hpadding hlast
        refine ⟨hcap.trans hcapFrame, item ++ bytes, reported ++ before, ?_, ?_, ?_⟩
        · rw [hdata, hitem, List.append_assoc]
        · intro hnil
          exact absurd (List.append_eq_nil_iff.mp hnil).1 hne
        · intro hsmall received hnumber halike zeros fuel hfuel
          rw [List.forall_mem_cons] at halike
          rw [List.length_append] at hsmall hfuel
          have hfirst := hsegment (by omega) received hnumber halike.1
          obtain ⟨frameType, body, error, read, rfl, -⟩ := hfirst
          obtain ⟨fuel, rfl⟩ : ∃ n, fuel = n + 1 :=
            ⟨fuel - 1, by rw [List.length_cons] at hfuel; omega⟩
          rw [List.length_cons] at hfuel
          rw [List.append_assoc, processFrames_segment
            (hsegment (by omega) received hnumber halike.1),
            hread (by omega) received hnumber halike.2 zeros fuel (by omega),
            lastStream_cons hlast, List.append_assoc]
      · -- the stream frame ends the packet
        rw [not_or, not_forall_not, Bool.not_eq_false, List.isEmpty_iff] at hlast
        obtain ⟨rfl, f, rfl⟩ := hlast
        have happends := (appends_write [streamType f true]).bind
          (appends_streamFramePayload f true)
        obtain ⟨hcapFrame, hitem⟩ := data_of_appends happends hframe
        cases hrest
        refine ⟨hcapFrame, _, [], hitem, by simp, ?_⟩
        intro _ received _ _ zeros fuel hfuel
        obtain ⟨fuel, rfl⟩ : ∃ n, fuel = n + 1 :=
          ⟨fuel - 1, by rw [List.length_append, List.length_singleton] at hfuel; omega⟩
        exact processFrames_last_stream receiver received f fuel (List.replicate zeros 0)

/-- An empty packet is an error, and has no frames. -/
lemma frames_processFrameData (framer : Framer) (received : QuicPacketHeader)
    (payload : List Byte) :
    (processFrameData framer received payload).frames =
      (processFrames framer received payload.length payload).frames := by
  cases payload with
  | nil => rfl
  | cons byte payload => rfl

/-- What a built packet reports when zeros stand behind its payload. -/
lemma BuiltPacket.processFrameData_zeros (p : BuiltPacket sender)
    (hversion : receiver.quicVersion = sender.quicVersion)
    (hsmall : p.payload.length ≤ kMaxPacketSize) :
    ∃ before, ∀ received : QuicPacketHeader,
      received.packetSequenceNumber = p.header.packetSequenceNumber →
        (∀ frame ∈ p.frames, ReadAlike sender.quicVersion p.header received frame) → ∀ zeros,
          (processFrameData receiver received (p.payload ++ List.replicate zeros 0)).frames =
            before ++ lastStream p.frames zeros := by
  obtain ⟨w, hheader, hframes⟩ := Option.bind_eq_some_iff.mp p.built
  obtain ⟨v, hv, hpacket⟩ := Option.bind_eq_some_iff.mp hframes
  have hroom : getPacketHeaderSize p.header ≤ (Writer.new p.packetSize).room := p.header_fits
  rw [appendPacketHeader_of_room hroom] at hheader
  obtain ⟨-, -, hw⟩ := Writer.write_eq_some hheader
  obtain ⟨-, bytes, before, hdata, -, hread⟩ := processFrames_appendFrames hversion hv
  have hpayload : p.payload = bytes := by
    have hpacketData : p.packet.packet = v.data := by rw [← Option.some.inj hpacket]
    have hstart : (Writer.new p.packetSize).data = [] := rfl
    rw [BuiltPacket.payload, hpacketData, hdata, hw, hstart, List.nil_append,
      ← length_headerBytes sender.quicVersion p.header, List.drop_left]
  rw [hpayload] at hsmall
  refine ⟨before, ?_⟩
  intro received hnumber halike zeros
  have houtcome := hread hsmall received hnumber halike zeros _ le_rfl
  rw [hpayload, frames_processFrameData, List.length_append, List.length_replicate, houtcome]

end Payload

/-! ### Recovery -/

/-- The header that `MaybeProcessRevivedPacket` has when it calls `Revive`, and the fields that it
sets afterwards. -/
def revivedHeader (guid : BitVec 64) (header : QuicPacketHeader) : QuicPacketHeader :=
  { header with
    guid := guid
    versionFlag := false
    resetFlag := false
    fecFlag := false
    isInFecGroup := false
    fecGroup := 0 }

namespace SentGroup
variable {sender : Framer}

/-- `MaybeProcessRevivedPacket`: a default header is filled in and the revived payload is read with
it. -/
def maybeProcessRevivedPacket (receiver : Framer) (guid : BitVec 64) (g : QuicFecGroup) :
    Option (QuicPacketHeader × Outcome) :=
  (g.revive {} kMaxPacketSize).map fun (header, payload, _) =>
    (header, processRevivedPacket receiver (revivedHeader guid header) payload)

/-- The frames that the receiver would have reported of a packet. -/
def reportedFrames (receiver : Framer) (p : BuiltPacket sender) : List QuicFrame :=
  (processFrameData receiver p.header p.payload).frames

/-- No ack of the packet depends on the length of its sequence number, which is 6 bytes in the
header of a revived packet. -/
def AcksReadable (version : QuicVersion) (p : BuiltPacket sender) : Prop :=
  version.number ≤ 11 ∨ (∀ f, .ack f ∉ p.frames) ∨ p.header.sequenceNumberLength = .packet6Byte

/-- No zeros are added to the packet, or they come after its last frame. -/
def PaddingHarmless (group : SentGroup sender) (lost : Fin group.packets.length) : Prop :=
  (∀ i, (group.packet i).payload.length ≤ (group.packet lost).payload.length) ∨
    ∀ f, (group.packet lost).frames.getLast? ≠ some (.stream f)

lemma lastStream_eq_iff (frames : List QuicFrame) (zeros : ℕ) :
    lastStream frames zeros = lastStream frames 0 ↔
      zeros = 0 ∨ ∀ f, frames.getLast? ≠ some (.stream f) := by
  unfold lastStream
  split
  · rename_i f hlast
    simp [hlast]
  · rename_i hother
    simp only [true_iff]
    exact .inr fun f hf => hother f hf

lemma zeros_eq_zero_iff (group : SentGroup sender) (lost : Fin group.packets.length) :
    group.maxLength - (group.packet lost).payload.length = 0 ↔
      ∀ i, (group.packet i).payload.length ≤ (group.packet lost).payload.length := by
  rw [Nat.sub_eq_zero_iff_le, maxLength, Finset.sup_le_iff]
  simp

/-- Exactly the frames of the lost packet come back, unless the zeros go into a stream frame. -/
lemma frames_processRevivedPacket (group : SentGroup sender) {receiver : Framer}
    (hversion : receiver.quicVersion = sender.quicVersion) {lost : Fin group.packets.length}
    {header : QuicPacketHeader}
    (hnumber : header.packetSequenceNumber = (group.packet lost).header.packetSequenceNumber)
    (hlength : header.sequenceNumberLength = .packet6Byte)
    (hacks : AcksReadable sender.quicVersion (group.packet lost)) :
    (processRevivedPacket receiver header ((group.packet lost).payload ++ List.replicate
        (group.maxLength - (group.packet lost).payload.length) 0)).frames =
      reportedFrames receiver (group.packet lost) ↔ group.PaddingHarmless lost := by
  have hle := group.length_payload_le_maxLength lost
  have hmax := group.maxLength_le
  obtain ⟨before, hframes⟩ := (group.packet lost).processFrameData_zeros hversion (hle.trans hmax)
  have hlost : reportedFrames receiver (group.packet lost) =
      before ++ lastStream (group.packet lost).frames 0 := by
    have halike : ∀ frame ∈ (group.packet lost).frames,
        ReadAlike sender.quicVersion (group.packet lost).header (group.packet lost).header frame :=
      fun _ _ => .inr (.inr rfl)
    have hreported := hframes _ rfl halike 0
    rw [List.replicate_zero, List.append_nil] at hreported
    exact hreported
  have halike : ∀ frame ∈ (group.packet lost).frames,
      ReadAlike sender.quicVersion (group.packet lost).header header frame := by
    intro frame hmem
    rcases hacks with hold | hnone | hsix
    · exact .inl hold
    · refine .inr (.inl ?_)
      rintro f rfl
      exact hnone f hmem
    · exact .inr (.inr (hlength.trans hsix.symm))
  have hrevived := hframes { header with entropyHash := getPacketEntropyHash header } hnumber halike
    (group.maxLength - (group.packet lost).payload.length)
  have hfits : ¬ ((group.packet lost).payload ++ List.replicate
      (group.maxLength - (group.packet lost).payload.length) 0).length > kMaxPacketSize := by
    rw [List.length_append, List.length_replicate]
    omega
  rw [processRevivedPacket, if_neg hfits, hrevived, hlost, List.append_cancel_left_eq,
    lastStream_eq_iff, zeros_eq_zero_iff, PaddingHarmless]

/-- Whatever reaches the receiver, in whatever order: a packet can be revived exactly when it is the
only one missing. It comes back with its number and its entropy flag, and with its frames as long as
no zeros are taken for the data of a stream. -/
theorem revived_frames_iff (receiver : Framer)
    (hversion : receiver.quicVersion = sender.quicVersion) (group : SentGroup sender)
    (guid : BitVec 64) (arrivals : List (Option (Fin group.packets.length))) :
    ((group.receiver arrivals).canRevive = true ↔
        ∃ lost, group.OnlyMissing arrivals.toFinset lost) ∧
      ∀ lost, group.OnlyMissing arrivals.toFinset lost → ∃ header outcome,
        maybeProcessRevivedPacket receiver guid (group.receiver arrivals) =
            some (header, outcome) ∧
          header.packetSequenceNumber = (group.packet lost).header.packetSequenceNumber ∧
          header.entropyFlag = (group.packet lost).header.entropyFlag ∧
          (AcksReadable sender.quicVersion (group.packet lost) →
            (outcome.frames = reportedFrames receiver (group.packet lost) ↔
              group.PaddingHarmless lost)) := by
  have hreceived := group.received_receiver arrivals
  refine ⟨hreceived.canRevive_iff, ?_⟩
  intro lost hlost
  have hrevived := hreceived.revive_eq hlost {}
  set header : QuicPacketHeader :=
    { packetSequenceNumber := (group.packet lost).header.packetSequenceNumber
      entropyFlag := (group.packet lost).header.entropyFlag } with hheader
  refine ⟨header, _, by rw [maybeProcessRevivedPacket, hrevived]; rfl, rfl, rfl, ?_⟩
  intro hacks
  exact group.frames_processRevivedPacket hversion rfl rfl hacks

/-- Two packets with one stream frame each, of one and of two bytes. -/
def streamGroup : SentGroup { quicVersion := .v12 } where
  first := 1
  packets :=
    [{ header := { packetSequenceNumber := 1, isInFecGroup := true, fecGroup := 1 }
       frames := [.stream ⟨5, false, 0, [7]⟩]
       packetSize := 20
       packet := ⟨1, .packet6Byte,
        [0x3c, 0, 0, 0, 0, 0, 0, 0, 0, 1, 0, 0, 0, 0, 0, 2, 0, 0x80, 5, 7], 0⟩
       header_fits := by decide
       built := by decide +kernel },
     { header := { packetSequenceNumber := 2, isInFecGroup := true, fecGroup := 1 }
       frames := [.stream ⟨5, false, 0, [8, 9]⟩]
       packetSize := 21
       packet := ⟨2, .packet6Byte,
        [0x3c, 0, 0, 0, 0, 0, 0, 0, 0, 2, 0, 0, 0, 0, 0, 2, 1, 0x80, 5, 8, 9], 0⟩
       header_fits := by decide
       built := by decide +kernel }]
  nonempty := List.cons_ne_nil _ _
  number := by decide
  length_payload_le := by decide +kernel
  number_lt := by decide

def short : Fin streamGroup.packets.length := ⟨0, by decide⟩

def long : Fin streamGroup.packets.length := ⟨1, by decide⟩

theorem revived_frames_iff_long :
    ∃ header outcome,
      maybeProcessRevivedPacket { quicVersion := .v12 } 0
          (streamGroup.receiver [none, some short]) = some (header, outcome) ∧
        header.packetSequenceNumber = 2 ∧
        outcome.frames = reportedFrames { quicVersion := .v12 } (streamGroup.packet long) := by
  obtain ⟨-, hrevive⟩ := revived_frames_iff { quicVersion := .v12 } rfl streamGroup 0
    [none, some short]
  obtain ⟨header, outcome, hprocess, hnumber, -, hframes⟩ := hrevive long (by decide +kernel)
  have hharmless : streamGroup.PaddingHarmless long := .inl (by decide +kernel)
  exact ⟨header, outcome, hprocess, hnumber, (hframes (.inr (.inr rfl))).mpr hharmless⟩

/-- One packet with an ack, and one byte for its number. -/
def ackGroup : SentGroup { quicVersion := .v12 } where
  first := 1
  packets :=
    [{ header :=
        { sequenceNumberLength := .packet1Byte, packetSequenceNumber := 1, isInFecGroup := true,
          fecGroup := 1 }
       frames := [.ack { sentInfo := ⟨0, 1⟩ }]
       packetSize := 19
       packet := ⟨1, .packet1Byte,
        [0x0c, 0, 0, 0, 0, 0, 0, 0, 0, 1, 2, 0, 0x40, 0, 0, 0, 0, 255, 255], 0⟩
       header_fits := by decide
       built := by decide +kernel }]
  nonempty := List.cons_ne_nil _ _
  number := by decide
  length_payload_le := by decide +kernel
  number_lt := by decide

/-- The shorter packet comes back with a zero in its stream, and the ack is not read at all. -/
theorem revived_frames_differ :
    (streamGroup.OnlyMissing [none, some long].toFinset short ∧
      reportedFrames { quicVersion := .v12 } (streamGroup.packet short) =
        [.stream ⟨5, false, 0, [7]⟩] ∧
      (maybeProcessRevivedPacket { quicVersion := .v12 } 0
        (streamGroup.receiver [none, some long])).map (fun revived => revived.2.frames) =
          some [.stream ⟨5, false, 0, [7, 0]⟩]) ∧
    ackGroup.OnlyMissing [none].toFinset ⟨0, by decide⟩ ∧
      reportedFrames { quicVersion := .v12 } (ackGroup.packet ⟨0, by decide⟩) ≠ [] ∧
      (maybeProcessRevivedPacket { quicVersion := .v12 } 0
        (ackGroup.receiver [none])).map (fun revived => revived.2.frames) = some [] := by
  decide +kernel

end SentGroup

end Chromium.QuicFec
