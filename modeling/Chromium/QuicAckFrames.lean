import Chromium.QuicFrameSegments

/-!
# Ack frames on the wire

An ack is written for the room that is left: it may lose its greatest ranges, or its
greatest missing packets. What is written is one segment of the packet in any case.
-/
namespace Chromium.QuicFramer

open WireFormat Parser

/-! ### Version 12 -/

def nackBytes (length : QuicSequenceNumberLength) : ℕ → List (ℕ × ℕ) → List Byte
  | _, [] => []
  | lastWritten, (first, more) :: ranges =>
    toBytes length.size (sub64 lastWritten (first + more)) ++
      (toBytes 1 more ++ nackBytes length (sub64 first 1) ranges)

/-- The missing packets as they are read back. -/
def decodeNacks (length : QuicSequenceNumberLength) :
    ℕ → ℕ → List (ℕ × ℕ) → SequenceNumberSet → SequenceNumberSet
  | _, _, [], missing => missing
  | lastRead, lastWritten, (first, more) :: ranges, missing =>
    let last := sub64 lastRead (sub64 lastWritten (first + more) % 2 ^ (8 * length.size))
    decodeNacks length (sub64 last (more % 2 ^ 8 + 1)) (sub64 first 1) ranges
      (insertRange last (more % 2 ^ 8 + 1) missing)

lemma length_nackBytes (length : QuicSequenceNumberLength) (lastWritten : ℕ)
    (ranges : List (ℕ × ℕ)) :
    (nackBytes length lastWritten ranges).length = ranges.length * (length.size + 1) := by
  induction ranges generalizing lastWritten with
  | nil => simp [nackBytes]
  | cons range ranges ih =>
    simp only [nackBytes, List.length_append, length_toBytes, ih, List.length_cons]
    ring

lemma appends_nackRanges (length : QuicSequenceNumberLength) (lastWritten : ℕ)
    (ranges : List (ℕ × ℕ)) :
    Appends (appendNackRanges length lastWritten ranges)
      (nackBytes length lastWritten ranges) := by
  induction ranges generalizing lastWritten with
  | nil => exact appends_some
  | cons range ranges ih =>
    exact (appends_sequenceNumber _ _).bind ((appends_sequenceNumber _ _).bind (ih _))

lemma reads_nackRanges (length : QuicSequenceNumberLength) (lastRead lastWritten : ℕ)
    (ranges : List (ℕ × ℕ)) (missing : SequenceNumberSet) :
    Reads (readNackRanges length ranges.length lastRead missing)
      (nackBytes length lastWritten ranges)
      (decodeNacks length lastRead lastWritten ranges missing) := by
  induction ranges generalizing lastRead lastWritten missing with
  | nil => exact reads_pure missing
  | cons range ranges ih =>
    apply Reads.bind (reads_uint length.size _ _)
    apply Reads.bind (reads_uint 1 range.2 _)
    exact ih _ _ _

/-- The number of ranges and the ranges, when there are any missing packets. -/
def rangesBytes (frame : QuicAckFrame) (content : AckContent) : List Byte :=
  if (getAckFrameInfo frame).nackRanges.isEmpty then []
  else toBytes 1 content.ranges.length ++
    nackBytes (getMinSequenceNumberLength (getAckFrameInfo frame).maxDelta)
      content.largestObserved content.ranges

/-- The type byte of an ack with some content. -/
def ackType (frame : QuicAckFrame) (content : AckContent) : Byte :=
  ackTypeByte (!(getAckFrameInfo frame).nackRanges.isEmpty) content.truncated
    (getMinSequenceNumberLength frame.receivedInfo.largestObserved)
    (getMinSequenceNumberLength (getAckFrameInfo frame).maxDelta)

def ackBytes (header : QuicPacketHeader) (frame : QuicAckFrame) (content : AckContent) :
    List Byte :=
  [frame.sentInfo.entropyHash] ++
    (toBytes header.sequenceNumberLength.size
        (sub64 header.packetSequenceNumber frame.sentInfo.leastUnacked) ++
      ([content.entropyHash] ++
        (toBytes (getMinSequenceNumberLength frame.receivedInfo.largestObserved).size
            content.largestObserved ++
          (toBytes 2 (toUFloat16 (deltaTime frame.receivedInfo.deltaTimeLargestObserved)) ++
            rangesBytes frame content))))

lemma length_ranges_ackContent (entropyHash : ℕ → Byte) (frame : QuicAckFrame) (maxRanges : ℕ) :
    (ackContent entropyHash frame maxRanges).ranges.length =
      min (getAckFrameInfo frame).nackRanges.length maxRanges := by
  unfold ackContent
  simp only
  split_ifs with htruncated
  · simp only [skipRanges]
    set nackRanges := (getAckFrameInfo frame).nackRanges
    cases hdrop : nackRanges.reverse.drop (nackRanges.length - maxRanges - 1) with
    | nil =>
      have := congrArg List.length hdrop
      simp only [List.length_drop, List.length_reverse, List.length_nil] at this
      omega
    | cons range ranges =>
      have := congrArg List.length hdrop
      simp only [List.length_drop, List.length_reverse, List.length_cons] at this
      simp only
      omega
  · simp only [List.length_reverse]
    omega

/-- What is written once it is known what the ack says. -/
lemma appends_ackContent (header : QuicPacketHeader) (frame : QuicAckFrame)
    (content : AckContent) {count : ℕ} (hcount : content.ranges.length = count) :
    Appends (fun w => do
        let w ← w.write [ackType frame content]
        let w ← w.write [frame.sentInfo.entropyHash]
        let w ← appendPacketSequenceNumber header.sequenceNumberLength
          (sub64 header.packetSequenceNumber frame.sentInfo.leastUnacked) w
        let w ← w.write [content.entropyHash]
        let w ← appendPacketSequenceNumber
          (getMinSequenceNumberLength frame.receivedInfo.largestObserved)
          content.largestObserved w
        let w ← w.write
          (toBytes 2 (toUFloat16 (deltaTime frame.receivedInfo.deltaTimeLargestObserved)))
        if (getAckFrameInfo frame).nackRanges.isEmpty then some w
        else do
          let w ← w.write (toBytes 1 count)
          appendNackRanges (getMinSequenceNumberLength (getAckFrameInfo frame).maxDelta)
            content.largestObserved content.ranges w)
      (ackType frame content :: ackBytes header frame content) := by
  subst hcount
  apply (appends_write [ackType frame content]).bind
  apply (appends_write _).bind
  apply (appends_sequenceNumber _ _).bind
  apply (appends_write _).bind
  apply (appends_sequenceNumber _ _).bind
  apply (appends_write _).bind
  intro w
  unfold rangesBytes
  split_ifs with hempty
  · exact appends_some w
  · have hwrite := appends_write (toBytes 1 content.ranges.length)
    exact hwrite.bind (appends_nackRanges _ content.largestObserved content.ranges) w

/-- The ack is written as one piece, chosen for the room that is left. -/
lemma appendAck_eq (version : QuicVersion) (entropyHash : ℕ → Byte) (header : QuicPacketHeader)
    (frame : QuicAckFrame) (w : Writer) :
    appendAckFramePayloadAndTypeByte version entropyHash header frame w =
      w.write (ackType frame (ackContent entropyHash frame
          (maxNumRanges version header frame w.room)) ::
        ackBytes header frame (ackContent entropyHash frame
          (maxNumRanges version header frame w.room))) := by
  rw [← appends_ackContent header frame _ (length_ranges_ackContent entropyHash frame
    (maxNumRanges version header frame w.room)) w]
  rw [appendAckFramePayloadAndTypeByte]
  rfl

lemma ackTypeByte_masks : ∀ hasNacks truncated : Bool,
    ∀ largestObservedLength missingLength : QuicSequenceNumberLength,
      ackTypeByte hasNacks truncated largestObservedLength missingLength &&&
          kQuicFrameTypeSpecialMask ≠ 0 ∧
        ¬ ackTypeByte hasNacks truncated largestObservedLength missingLength &&&
          kQuicFrameTypeStreamMask ≠ 0 ∧
        ackTypeByte hasNacks truncated largestObservedLength missingLength &&&
          kQuicFrameTypeAckMask ≠ 0 := by
  intro hasNacks truncated largestObservedLength missingLength
  cases hasNacks <;> cases truncated <;> cases largestObservedLength <;> cases missingLength <;>
    decide

/-- The fields of the type byte come back. -/
lemma ackTypeByte_fields : ∀ hasNacks truncated : Bool,
    ∀ largestObservedLength missingLength : QuicSequenceNumberLength,
      readSequenceNumberLength (ackTypeByte hasNacks truncated largestObservedLength
          missingLength) = missingLength ∧
        readSequenceNumberLength (ackTypeByte hasNacks truncated largestObservedLength
          missingLength >>> kQuicSequenceNumberLengthShift) = largestObservedLength ∧
        (ackTypeByte hasNacks truncated largestObservedLength missingLength >>>
          kQuicSequenceNumberLengthShift >>> kQuicSequenceNumberLengthShift &&&
            kQuicAckTruncatedMask ≠ 0 ↔ truncated = true) ∧
        (ackTypeByte hasNacks truncated largestObservedLength missingLength >>>
          kQuicSequenceNumberLengthShift >>> kQuicSequenceNumberLengthShift >>>
            kQuicAckTruncatedShift &&& kQuicHasNacksMask ≠ 0 ↔ hasNacks = true) := by
  intro hasNacks truncated largestObservedLength missingLength
  cases hasNacks <;> cases truncated <;> cases largestObservedLength <;> cases missingLength <;>
    decide

/-- What is received of an ack with this content. -/
def decodeReceivedInfo (frame : QuicAckFrame) (content : AckContent) : ReceivedPacketInfo :=
  let largestObserved := content.largestObserved %
    2 ^ (8 * (getMinSequenceNumberLength frame.receivedInfo.largestObserved).size)
  { entropyHash := content.entropyHash
    largestObserved := largestObserved
    deltaTimeLargestObserved := readDeltaTime (fromUFloat16
      (toUFloat16 (deltaTime frame.receivedInfo.deltaTimeLargestObserved) % 2 ^ (8 * 2)))
    missingPackets := if (getAckFrameInfo frame).nackRanges.isEmpty then ∅
      else decodeNacks (getMinSequenceNumberLength (getAckFrameInfo frame).maxDelta)
        largestObserved content.largestObserved content.ranges ∅
    isTruncated := content.truncated }

/-- An ack with this content as it is read with the header `received`. -/
def decodeAck (header received : QuicPacketHeader) (frame : QuicAckFrame) (content : AckContent) :
    QuicAckFrame :=
  { sentInfo :=
      { entropyHash := frame.sentInfo.entropyHash
        leastUnacked := sub64 received.packetSequenceNumber
          (sub64 header.packetSequenceNumber frame.sentInfo.leastUnacked %
            2 ^ (8 * header.sequenceNumberLength.size)) }
    receivedInfo := decodeReceivedInfo frame content }

lemma reads_missingRanges (frame : QuicAckFrame) (content : AckContent)
    (hcount : content.ranges.length ≤ kuint8max) (lastRead : ℕ) :
    Reads (readMissingRanges (!(getAckFrameInfo frame).nackRanges.isEmpty)
        (getMinSequenceNumberLength (getAckFrameInfo frame).maxDelta) lastRead)
      (rangesBytes frame content)
      (if (getAckFrameInfo frame).nackRanges.isEmpty then ∅
        else decodeNacks (getMinSequenceNumberLength (getAckFrameInfo frame).maxDelta) lastRead
          content.largestObserved content.ranges ∅) := by
  unfold readMissingRanges rangesBytes
  cases hempty : (getAckFrameInfo frame).nackRanges.isEmpty with
  | true => exact reads_pure ∅
  | false =>
    have hlt : content.ranges.length < 2 ^ (8 * 1) := by
      rw [kuint8max] at hcount
      omega
    apply Reads.bind (reads_uint_of_lt hlt _)
    exact reads_nackRanges _ lastRead content.largestObserved content.ranges ∅

lemma reads_receivedInfo (frame : QuicAckFrame) (content : AckContent)
    (hcount : content.ranges.length ≤ kuint8max) :
    Reads (processReceivedInfo (ackType frame content))
      ([content.entropyHash] ++
        (toBytes (getMinSequenceNumberLength frame.receivedInfo.largestObserved).size
            content.largestObserved ++
          (toBytes 2 (toUFloat16 (deltaTime frame.receivedInfo.deltaTimeLargestObserved)) ++
            rangesBytes frame content)))
      (decodeReceivedInfo frame content) := by
  obtain ⟨hmissing, hlargest, htruncated, hnacks⟩ := ackTypeByte_fields
    (!(getAckFrameInfo frame).nackRanges.isEmpty) content.truncated
    (getMinSequenceNumberLength frame.receivedInfo.largestObserved)
    (getMinSequenceNumberLength (getAckFrameInfo frame).maxDelta)
  unfold processReceivedInfo
  simp only [ackType, hmissing, hlargest, htruncated, hnacks, Bool.decide_eq_true]
  apply Reads.bind (reads_byte _ _)
  apply Reads.bind (reads_uint _ _ _)
  apply Reads.bind (reads_uint _ _ _)
  exact (reads_missingRanges frame content hcount _).bind_pure _

lemma frameHandler_ackType (framer : Framer) (header : QuicPacketHeader) (frame : QuicAckFrame)
    (content : AckContent) :
    frameHandler framer header (ackType frame content) =
      .frame quicInvalidAckData ((fun f => [.ack f]) <$>
        processAckFrame framer header (ackType frame content)) := by
  obtain ⟨hspecial, hstream, hack⟩ := ackTypeByte_masks
    (!(getAckFrameInfo frame).nackRanges.isEmpty) content.truncated
    (getMinSequenceNumberLength frame.receivedInfo.largestObserved)
    (getMinSequenceNumberLength (getAckFrameInfo frame).maxDelta)
  unfold ackType
  rw [frameHandler, if_pos hspecial, if_neg hstream, if_pos hack]

/-- An ack is a segment for each header with numbers of the same length. -/
lemma segment_ack {framer : Framer} (hversion : ¬ framer.quicVersion.number ≤ 11)
    {header received : QuicPacketHeader}
    (hlength : received.sequenceNumberLength = header.sequenceNumberLength)
    (frame : QuicAckFrame) {content : AckContent} (hcount : content.ranges.length ≤ kuint8max) :
    Segment framer received (ackType frame content :: ackBytes header frame content)
      [.ack (decodeAck header received frame content)] := by
  refine ⟨_, _, _, _, rfl, frameHandler_ackType framer received frame content, ?_⟩
  have hsent : Reads (processSentInfo framer received)
      ([frame.sentInfo.entropyHash] ++ toBytes header.sequenceNumberLength.size
        (sub64 header.packetSequenceNumber frame.sentInfo.leastUnacked))
      (decodeAck header received frame content).sentInfo := by
    unfold processSentInfo
    apply Reads.bind (reads_byte _ _)
    rw [if_neg hversion, hlength]
    exact (reads_uint _ _ _).bind_pure _
  have hreceived : processReceived framer (ackType frame content) =
      processReceivedInfo (ackType frame content) := if_neg hversion
  have hack : Reads (processAckFrame framer received (ackType frame content))
      (ackBytes header frame content) (decodeAck header received frame content) := by
    unfold ackBytes
    rw [← List.append_assoc]
    apply Reads.bind hsent
    rw [hreceived]
    exact (reads_receivedInfo frame content hcount).bind_pure _
  exact hack.map _

/-! ### Version 11 -/

/-- What an ack says, with the missing packets that are written. -/
structure AckContentV11 where
  entropyHash : Byte
  largestObserved : ℕ
  deltaTime : ℕ
  missing : List ℕ

def sequenceNumbersBytes (numbers : List ℕ) : List Byte := numbers.flatMap (toBytes 6)

lemma length_sequenceNumbersBytes (numbers : List ℕ) :
    (sequenceNumbersBytes numbers).length = 6 * numbers.length := by
  induction numbers with
  | nil => rfl
  | cons number numbers ih =>
    rw [sequenceNumbersBytes, List.flatMap_cons, List.length_append, length_toBytes]
    rw [sequenceNumbersBytes] at ih
    rw [ih, List.length_cons]
    ring

/-- The bytes after the type byte. -/
def ackBytesV11 (frame : QuicAckFrame) (content : AckContentV11) : List Byte :=
  [frame.sentInfo.entropyHash] ++
    (toBytes 6 frame.sentInfo.leastUnacked ++
      ([content.entropyHash] ++
        (toBytes 6 content.largestObserved ++
          (toBytes 4 content.deltaTime ++
            (toBytes 1 content.missing.length ++ sequenceNumbersBytes content.missing)))))

/-- The ack says all there is. -/
def fullContentV11 (frame : QuicAckFrame) : AckContentV11 :=
  { entropyHash := frame.receivedInfo.entropyHash
    largestObserved := frame.receivedInfo.largestObserved
    deltaTime := deltaTimeV11 frame.receivedInfo.deltaTimeLargestObserved
    missing := frame.receivedInfo.missingPackets.keys }

/-- The ack ends with `last`, after which come the packets that are not written. -/
def truncatedContentV11 (entropyHash : ℕ → Byte) (written : List ℕ) (last : ℕ)
    (rest : List ℕ) : AckContentV11 :=
  { entropyHash := entropyHash (calculateLargestObserved last rest)
    largestObserved := calculateLargestObserved last rest
    deltaTime := kInvalidDeltaTime
    missing := written }

lemma writeToOffset_eq {w : Writer} {before old after bytes : List Byte}
    (hdata : w.data = before ++ (old ++ after)) (hlength : bytes.length = old.length) :
    (writeToOffset bytes before.length w).data = before ++ (bytes ++ after) ∧
      (writeToOffset bytes before.length w).capacity = w.capacity := by
  have hfits : before.length + bytes.length ≤ w.data.length := by
    rw [hdata]
    simp only [List.length_append]
    omega
  unfold writeToOffset
  rw [dif_pos hfits]
  refine ⟨?_, rfl⟩
  dsimp only
  have hdrop : (before ++ (old ++ after)).drop (before.length + bytes.length) = after := by
    rw [hlength, ← List.append_assoc, ← List.length_append, List.drop_left]
  rw [hdata, List.take_left, hdrop, List.append_assoc]

/-- The fields before the missing packets. -/
def fixedBytesV11 (frame : QuicAckFrame) (entropyHash : Byte) (largestObserved deltaTime : ℕ)
    (numMissingPackets : ℕ) : List Byte :=
  [frame.sentInfo.entropyHash] ++
    (toBytes 6 frame.sentInfo.leastUnacked ++
      ([entropyHash] ++
        (toBytes 6 largestObserved ++
          (toBytes 4 deltaTime ++ toBytes 1 numMissingPackets))))

lemma ackBytesV11_eq (frame : QuicAckFrame) (content : AckContentV11) :
    ackBytesV11 frame content = fixedBytesV11 frame content.entropyHash content.largestObserved
      content.deltaTime content.missing.length ++ sequenceNumbersBytes content.missing := by
  simp only [ackBytesV11, fixedBytesV11, List.append_assoc]

lemma length_fixedBytesV11 (frame : QuicAckFrame) (entropyHash : Byte)
    (largestObserved deltaTime numMissingPackets : ℕ) :
    (fixedBytesV11 frame entropyHash largestObserved deltaTime numMissingPackets).length = 19 := by
  simp [fixedBytesV11, length_toBytes]

/-- Where the fields stand when the ack begins at `start`. -/
def ackOffsets (start : ℕ) : AckOffsets := ⟨start + 7, start + 8, start + 14, start + 18⟩

/-- A truncated ack has new fields before its missing packets. -/
lemma truncateAckV11_eq {w : Writer} {before after : List Byte} (entropyHash : ℕ → Byte)
    (frame : QuicAckFrame) {entropy : Byte} {largestObserved deltaTime numMissingPackets : ℕ}
    (hdata : w.data = before ++ (fixedBytesV11 frame entropy largestObserved deltaTime
      numMissingPackets ++ after)) (newLargest numWritten : ℕ) :
    (truncateAckV11 entropyHash (ackOffsets before.length) newLargest numWritten w).data =
        before ++ (fixedBytesV11 frame (entropyHash newLargest) newLargest kInvalidDeltaTime
          numWritten ++ after) ∧
      (truncateAckV11 entropyHash (ackOffsets before.length) newLargest numWritten w).capacity =
        w.capacity := by
  -- each field stands behind the ones before it
  have hfield : ∀ {w : Writer} {before old after : List Byte} (bytes : List Byte) (offset : ℕ),
      w.data = before ++ (old ++ after) → bytes.length = old.length → offset = before.length →
        (writeToOffset bytes offset w).data = before ++ (bytes ++ after) ∧
          (writeToOffset bytes offset w).capacity = w.capacity := by
    intro w before old after bytes offset hdata hlength hoffset
    rw [hoffset]
    exact writeToOffset_eq hdata hlength
  unfold truncateAckV11 ackOffsets
  dsimp only
  set sent := before ++ ([frame.sentInfo.entropyHash] ++ toBytes 6 frame.sentInfo.leastUnacked)
    with hsent
  have hstart : w.data = sent ++ ([entropy] ++ (toBytes 6 largestObserved ++
      (toBytes 4 deltaTime ++ (toBytes 1 numMissingPackets ++ after)))) := by
    rw [hdata, hsent, fixedBytesV11]
    simp only [List.append_assoc]
  have hlength : sent.length = before.length + 7 := by
    rw [hsent]
    simp only [List.length_append, List.length_singleton, length_toBytes]
  obtain ⟨hdata₁, hcap₁⟩ := hfield [entropyHash newLargest]
    (before.length + 7) hstart rfl hlength.symm
  rw [← List.append_assoc] at hdata₁
  obtain ⟨hdata₂, hcap₂⟩ := hfield (toBytes 6 newLargest)
    (before.length + 8) hdata₁ (by simp only [length_toBytes])
    (by simp only [List.length_append, List.length_singleton, hlength])
  rw [← List.append_assoc] at hdata₂
  obtain ⟨hdata₃, hcap₃⟩ := hfield (toBytes 4 kInvalidDeltaTime)
    (before.length + 14) hdata₂ (by simp only [length_toBytes])
    (by simp only [List.length_append, List.length_singleton, hlength, length_toBytes])
  rw [← List.append_assoc] at hdata₃
  obtain ⟨hdata₄, hcap₄⟩ := hfield (toBytes 1 numWritten)
    (before.length + 18) hdata₃ (by simp only [length_toBytes])
    (by simp only [List.length_append, List.length_singleton, hlength, length_toBytes])
  refine ⟨?_, hcap₄.trans (hcap₃.trans (hcap₂.trans hcap₁))⟩
  rw [hdata₄, hsent, fixedBytesV11]
  simp only [List.append_assoc]

/-- The loop writes the packets that there is room for. -/
lemma appendMissingPackets_eq (entropyHash : ℕ → Byte) (offsets : AckOffsets)
    (written rest : List ℕ) (w : Writer) :
    ∃ v, v.capacity = w.capacity ∧
      v.data = w.data ++ sequenceNumbersBytes (rest.take (w.room / 6)) ∧
      appendMissingPackets entropyHash offsets written.getLast? written.length rest w =
        if rest.length ≤ w.room / 6 then some v
        else (written ++ rest.take (w.room / 6)).getLast?.map fun last =>
          truncateAckV11 entropyHash offsets
            (calculateLargestObserved last (rest.drop (w.room / 6)))
            (written.length + w.room / 6) v := by
  induction rest generalizing written w with
  | nil => exact ⟨w, rfl, by simp [sequenceNumbersBytes], by simp [appendMissingPackets]⟩
  | cons missing rest ih =>
    rw [appendMissingPackets, appends_sequenceNumber]
    by_cases hroom : 6 ≤ w.room
    · have hbytes : (toBytes QuicSequenceNumberLength.packet6Byte.size missing).length ≤
          w.room := by
        rw [length_toBytes]
        exact hroom
      obtain ⟨u, hu, hcapacity, hdata⟩ := Writer.write_of_room hbytes
      obtain ⟨v, hcap, hv, heq⟩ := ih (written ++ [missing]) u
      have huroom : w.room / 6 = u.room / 6 + 1 := by
        have := Writer.room_of_write hu
        rw [length_toBytes] at this
        simp only [QuicSequenceNumberLength.size] at this
        omega
      refine ⟨v, hcap.trans hcapacity, ?_, ?_⟩
      · rw [hv, hdata, huroom, List.take_succ_cons]
        simp [sequenceNumbersBytes, QuicSequenceNumberLength.size]
      · rw [hu]
        dsimp only
        rw [List.getLast?_concat, List.length_append, List.length_singleton] at heq
        rw [heq, huroom, List.take_succ_cons, List.drop_succ_cons, List.length_cons]
        simp only [List.append_assoc, List.singleton_append, Nat.add_le_add_iff_right]
        rw [Nat.add_assoc, Nat.add_comm 1]
    · have hbytes : ¬ (toBytes QuicSequenceNumberLength.packet6Byte.size missing).length ≤
          w.room := by
        rw [length_toBytes]
        exact hroom
      have hzero : w.room / 6 = 0 := by omega
      refine ⟨w, rfl, by simp [hzero, sequenceNumbersBytes], ?_⟩
      rw [Writer.write_of_not_room hbytes, hzero]
      simp

/-- The fields are written first, whatever is missing. -/
lemma appendAckV11_fixed (entropyHash : ℕ → Byte) (frame : QuicAckFrame) (w : Writer) :
    appendAckFramePayloadV11 entropyHash frame w =
      (w.write (fixedBytesV11 frame frame.receivedInfo.entropyHash
        frame.receivedInfo.largestObserved
        (deltaTimeV11 frame.receivedInfo.deltaTimeLargestObserved)
        frame.receivedInfo.missingPackets.size)).bind
      (appendMissingPackets entropyHash (ackOffsets w.data.length) none 0
        frame.receivedInfo.missingPackets.keys) := by
  rw [fixedBytesV11]
  simp only [← Writer.write_write, Option.bind_assoc]
  apply Option.bind_congr
  intro w₁ h₁
  rw [appends_sequenceNumber]
  apply Option.bind_congr
  intro w₂ h₂
  apply Option.bind_congr
  intro w₃ h₃
  rw [appends_sequenceNumber]
  apply Option.bind_congr
  intro w₄ h₄
  apply Option.bind_congr
  intro w₅ h₅
  have hlength : ∀ {w v : Writer} {bytes : List Byte}, w.write bytes = some v →
      v.data.length = w.data.length + bytes.length := by
    intro w v bytes h
    rw [(Writer.write_eq_some h).2.2, List.length_append]
  have hoffsets : AckOffsets.mk w₂.data.length w₃.data.length w₄.data.length w₅.data.length =
      ackOffsets w.data.length := by
    rw [hlength h₅, hlength h₄, hlength h₃, hlength h₂, hlength h₁]
    simp only [length_toBytes, List.length_singleton]
    rfl
  dsimp only
  rw [hoffsets]
  rfl

/-- What is written of an ack in the room that is left. When there is no room for the first of the
packets, nothing is. -/
def contentV11 (entropyHash : ℕ → Byte) (frame : QuicAckFrame) (room : ℕ) :
    Option AckContentV11 :=
  let missing := frame.receivedInfo.missingPackets.keys
  let count := (room - 19) / 6
  if missing.length ≤ count then some (fullContentV11 frame)
  else (missing.take count).getLast?.map fun last =>
    truncatedContentV11 entropyHash (missing.take count) last (missing.drop count)

/-- The ack is written as one piece, chosen for the room that is left. -/
lemma appendAckV11_eq (entropyHash : ℕ → Byte) (frame : QuicAckFrame) (w : Writer) :
    appendAckFramePayloadV11 entropyHash frame w =
      if 19 ≤ w.room then (contentV11 entropyHash frame w.room).bind fun content =>
        w.write (ackBytesV11 frame content)
      else none := by
  rw [appendAckV11_fixed]
  split_ifs with hroom
  · have hfixed := length_fixedBytesV11 frame frame.receivedInfo.entropyHash
      frame.receivedInfo.largestObserved
      (deltaTimeV11 frame.receivedInfo.deltaTimeLargestObserved)
      frame.receivedInfo.missingPackets.size
    obtain ⟨u, hu, hcapacity, hdata⟩ := Writer.write_of_room (hfixed.trans_le hroom)
    have huroom : u.room = w.room - 19 := by
      have := Writer.room_of_write hu
      omega
    obtain ⟨v, hcap, hv, heq⟩ := appendMissingPackets_eq entropyHash (ackOffsets w.data.length)
      [] frame.receivedInfo.missingPackets.keys u
    rw [List.getLast?_nil, List.length_nil, List.nil_append, Nat.zero_add] at heq
    rw [huroom] at hv heq
    rw [hu, Option.bind_some, heq, contentV11]
    set missing := frame.receivedInfo.missingPackets.keys with hmissing
    by_cases hall : missing.length ≤ (w.room - 19) / 6
    · rw [if_pos hall, if_pos hall, Option.bind_some]
      symm
      apply Writer.write_of_data (hcap.trans hcapacity)
      rw [hv, hdata, List.take_of_length_le hall, ackBytesV11_eq, List.append_assoc]
      have hsize : missing.length = frame.receivedInfo.missingPackets.size := List.length_map _
      rw [fullContentV11, ← hmissing, hsize]
    · rw [if_neg hall, if_neg hall, Option.bind_map]
      rw [Option.map_eq_bind]
      apply Option.bind_congr
      intro last _
      have hwritten : (missing.take ((w.room - 19) / 6)).length = (w.room - 19) / 6 := by
        rw [List.length_take]
        omega
      have hfields := hv
      rw [hdata, List.append_assoc] at hfields
      obtain ⟨htruncated, hcapTruncated⟩ := truncateAckV11_eq entropyHash frame hfields
        (calculateLargestObserved last (missing.drop ((w.room - 19) / 6))) ((w.room - 19) / 6)
      symm
      apply Writer.write_of_data (hcapTruncated.trans (hcap.trans hcapacity))
      rw [htruncated, ackBytesV11_eq]
      simp only [truncatedContentV11, hwritten]
  · have hfixed : ¬ (fixedBytesV11 frame frame.receivedInfo.entropyHash
        frame.receivedInfo.largestObserved
        (deltaTimeV11 frame.receivedInfo.deltaTimeLargestObserved)
        frame.receivedInfo.missingPackets.size).length ≤ w.room := by
      rw [length_fixedBytesV11]
      exact hroom
    rw [Writer.write_of_not_room hfixed]
    rfl

/-- The missing packets as they are read back, each from its low 48 bits. -/
def decodeMissingV11 (lastSequenceNumber : ℕ) : List ℕ → SequenceNumberSet → SequenceNumberSet
  | [], missing => missing
  | number :: numbers, missing =>
    decodeMissingV11 lastSequenceNumber numbers
      (missing.insert (calculatePacketSequenceNumberFromWire lastSequenceNumber .packet6Byte
        (number % 2 ^ 48)) ())

lemma reads_missingPacketsV11 (lastSequenceNumber : ℕ) (numbers : List ℕ)
    (missing : SequenceNumberSet) :
    Reads (readMissingPacketsV11 lastSequenceNumber numbers.length missing)
      (sequenceNumbersBytes numbers)
      (decodeMissingV11 lastSequenceNumber numbers missing) := by
  induction numbers generalizing missing with
  | nil => exact reads_pure missing
  | cons number numbers ih =>
    rw [sequenceNumbersBytes, List.flatMap_cons]
    apply Reads.bind ((reads_uint 6 number _).map _)
    exact ih _

/-- What is received of an ack with this content. -/
def decodeReceivedInfoV11 (lastSequenceNumber : ℕ) (content : AckContentV11) :
    ReceivedPacketInfo :=
  { entropyHash := content.entropyHash
    largestObserved := calculatePacketSequenceNumberFromWire lastSequenceNumber .packet6Byte
      (content.largestObserved % 2 ^ 48)
    deltaTimeLargestObserved := readDeltaTimeV11 (content.deltaTime % 2 ^ 32)
    missingPackets := decodeMissingV11 lastSequenceNumber content.missing ∅ }

/-- An ack with this content as it is read back. -/
def decodeAckV11 (lastSequenceNumber : ℕ) (frame : QuicAckFrame) (content : AckContentV11) :
    QuicAckFrame :=
  { sentInfo :=
      { entropyHash := frame.sentInfo.entropyHash
        leastUnacked := calculatePacketSequenceNumberFromWire lastSequenceNumber .packet6Byte
          (frame.sentInfo.leastUnacked % 2 ^ 48) }
    receivedInfo := decodeReceivedInfoV11 lastSequenceNumber content }

lemma reads_ackV11 {framer : Framer} (hversion : framer.quicVersion.number ≤ 11)
    (received : QuicPacketHeader) (frameType : Byte) (frame : QuicAckFrame)
    {content : AckContentV11} (hcount : content.missing.length ≤ kuint8max) :
    Reads (processAckFrame framer received frameType) (ackBytesV11 frame content)
      (decodeAckV11 framer.lastSequenceNumber frame content) := by
  have hsent : Reads (processSentInfo framer received)
      ([frame.sentInfo.entropyHash] ++ toBytes 6 frame.sentInfo.leastUnacked)
      (decodeAckV11 framer.lastSequenceNumber frame content).sentInfo := by
    unfold processSentInfo
    apply Reads.bind (reads_byte _ _)
    rw [if_pos hversion]
    exact ((reads_uint 6 _ _).map _).bind_pure _
  have hlt : content.missing.length < 2 ^ (8 * 1) := by
    rw [kuint8max] at hcount
    omega
  have hreceived : Reads (processReceived framer frameType)
      ([content.entropyHash] ++ (toBytes 6 content.largestObserved ++
        (toBytes 4 content.deltaTime ++
          (toBytes 1 content.missing.length ++ sequenceNumbersBytes content.missing))))
      (decodeReceivedInfoV11 framer.lastSequenceNumber content) := by
    rw [processReceived, if_pos hversion]
    apply Reads.bind (reads_byte _ _)
    apply Reads.bind ((reads_uint 6 _ _).map _)
    apply Reads.bind (reads_uint 4 _ _)
    apply Reads.bind (reads_uint_of_lt hlt _)
    exact (reads_missingPacketsV11 _ _ _).bind_pure _
  unfold ackBytesV11
  rw [← List.append_assoc]
  apply Reads.bind hsent
  exact hreceived.bind_pure _

lemma segment_ackV11 {framer : Framer} (hversion : framer.quicVersion.number ≤ 11)
    (received : QuicPacketHeader) (frame : QuicAckFrame) {content : AckContentV11}
    (hcount : content.missing.length ≤ kuint8max) :
    Segment framer received (kQuicFrameTypeAckMask :: ackBytesV11 frame content)
      [.ack (decodeAckV11 framer.lastSequenceNumber frame content)] :=
  ⟨_, _, quicInvalidAckData, _, rfl, rfl, (reads_ackV11 hversion received _ frame hcount).map _⟩

/-- The ack that closes the connection is reported on its own as well. -/
lemma segment_connectionCloseV11 {framer : Framer} (hversion : framer.quicVersion.number ≤ 11)
    (received : QuicPacketHeader) {frame : QuicConnectionCloseFrame}
    (hdetails : frame.errorDetails.length ≤ kuint16max) {content : AckContentV11}
    (hcount : content.missing.length ≤ kuint8max) :
    Segment framer received
      (2 :: (connectionCloseBytes frame ++ ackBytesV11 frame.ackFrame content))
      [.ack (decodeAckV11 framer.lastSequenceNumber frame.ackFrame content),
        .connectionClose { frame with
          ackFrame := decodeAckV11 framer.lastSequenceNumber frame.ackFrame content }] := by
  refine ⟨_, _, quicInvalidConnectionCloseData, _, rfl, rfl, ?_⟩
  have hread : Reads (processConnectionCloseFrame framer)
      (connectionCloseBytes frame ++ ackBytesV11 frame.ackFrame content)
      { frame with
        ackFrame := decodeAckV11 framer.lastSequenceNumber frame.ackFrame content } := by
    rw [connectionCloseBytes, List.append_assoc]
    apply Reads.bind (reads_uint_of_lt (lt_of_lt_of_le frame.errorCode.isLt (by decide)) _)
    apply (reads_checkErrorCode frame.errorCode _).bind
    apply Reads.bind (reads_stringPiece16 hdetails _)
    rw [processCloseAck, if_pos hversion]
    exact (reads_ackV11 hversion _ _ frame.ackFrame hcount).bind_pure _
  have hmap := hread.map fun f : QuicConnectionCloseFrame =>
    (if framer.quicVersion.number ≤ 11 then [QuicFrame.ack f.ackFrame] else []) ++
      [.connectionClose f]
  simp only [hversion, if_true] at hmap
  simp only [hversion, if_true]
  exact hmap

/-! ### Sizes -/

section
variable {header : QuicPacketHeader} {frame : QuicAckFrame}

lemma ackContent_full (entropyHash : ℕ → Byte) {maxRanges : ℕ}
    (h : (getAckFrameInfo frame).nackRanges.length ≤ maxRanges) :
    ackContent entropyHash frame maxRanges =
      ⟨false, frame.receivedInfo.largestObserved, frame.receivedInfo.entropyHash,
        (getAckFrameInfo frame).nackRanges.reverse⟩ := by
  unfold ackContent
  exact if_neg (by omega)

/-- The bytes of one range. -/
def rangeSize (frame : QuicAckFrame) : ℕ :=
  (getMinSequenceNumberLength (getAckFrameInfo frame).maxDelta).size +
    QuicSequenceNumberLength.packet1Byte.size

/-- The size of an ack without missing packets. -/
def minAckSize (version : QuicVersion) (header : QuicPacketHeader) (frame : QuicAckFrame) : ℕ :=
  getMinAckFrameSize version header.sequenceNumberLength
    (getMinSequenceNumberLength frame.receivedInfo.largestObserved)

lemma length_ackBytes {version : QuicVersion} (hnew : ¬ version.number ≤ 11)
    (header : QuicPacketHeader) (frame : QuicAckFrame) (content : AckContent) :
    (ackBytes header frame content).length + 1 = minAckSize version header frame +
      if (getAckFrameInfo frame).nackRanges = [] then 0
      else 1 + content.ranges.length * rangeSize frame := by
  have hranges : (rangesBytes frame content).length =
      if (getAckFrameInfo frame).nackRanges = [] then 0
      else 1 + content.ranges.length * rangeSize frame := by
    unfold rangesBytes
    simp only [List.isEmpty_iff]
    split_ifs
    · rfl
    · rw [List.length_append, length_toBytes, length_nackBytes]
      rfl
  rw [minAckSize, getMinAckFrameSize, if_neg hnew]
  simp only [ackBytes, List.length_append, List.length_singleton, length_toBytes, hranges,
    kQuicFrameTypeSize, kQuicEntropyHashSize, kQuicDeltaTimeLargestObservedSize]
  omega

lemma getAckFrameSize_eq {version : QuicVersion} (hnew : ¬ version.number ≤ 11)
    (header : QuicPacketHeader) (frame : QuicAckFrame) :
    getAckFrameSize version frame header.sequenceNumberLength = minAckSize version header frame +
      if (getAckFrameInfo frame).nackRanges = [] then 0
      else 1 + (getAckFrameInfo frame).nackRanges.length * rangeSize frame := by
  rw [getAckFrameSize, if_neg hnew, minAckSize]
  simp only [List.isEmpty_iff, kNumberOfMissingPacketsSize, rangeSize]
  split_ifs with hempty
  · simp [hempty]
  · omega

lemma maxNumRanges_eq {version : QuicVersion} (header : QuicPacketHeader) (frame : QuicAckFrame)
    {size : ℕ} (hsize : size < 2 ^ 64)
    (hle : minAckSize version header frame ≤ size) :
    maxNumRanges version header frame size =
      min kuint8max ((size - minAckSize version header frame) / rangeSize frame) := by
  have hsub : sub64 size (minAckSize version header frame) =
      size - minAckSize version header frame := by
    rw [sub64]
    omega
  rw [← hsub]
  rfl

end

end Chromium.QuicFramer
