import Chromium.SortedMap
import Chromium.WireFormat

/-!
# The QUIC framer

`net/quic/quic_framer.cc`: how a list of frames becomes a data packet, and how the frames
are read back. The numbers of the packets and the frames that stand in them follow
`net/quic/quic_protocol.h`.
-/
namespace Chromium.QuicFramer

open WireFormat

/-! ### The protocol -/

inductive QuicVersion
  | unsupported
  | v10
  | v11
  | v12
  deriving DecidableEq

def QuicVersion.number : QuicVersion → ℕ
  | .unsupported => 0
  | .v10 => 10
  | .v11 => 11
  | .v12 => 12

inductive QuicSequenceNumberLength
  | packet1Byte
  | packet2Byte
  | packet4Byte
  | packet6Byte
  deriving DecidableEq

def QuicSequenceNumberLength.size : QuicSequenceNumberLength → ℕ
  | .packet1Byte => 1
  | .packet2Byte => 2
  | .packet4Byte => 4
  | .packet6Byte => 6

inductive QuicGuidLength
  | packet0Byte
  | packet1Byte
  | packet4Byte
  | packet8Byte
  deriving DecidableEq

def QuicGuidLength.size : QuicGuidLength → ℕ
  | .packet0Byte => 0
  | .packet1Byte => 1
  | .packet4Byte => 4
  | .packet8Byte => 8

/-- The codes below `QUIC_LAST_ERROR`. -/
abbrev QuicErrorCode := Fin 54

/-- The codes below `QUIC_STREAM_LAST_ERROR`. -/
abbrev QuicRstStreamErrorCode := Fin 7

def quicInvalidFrameData : QuicErrorCode := 4
def quicInvalidRstStreamData : QuicErrorCode := 6
def quicInvalidConnectionCloseData : QuicErrorCode := 7
def quicInvalidGoAwayData : QuicErrorCode := 8
def quicInvalidAckData : QuicErrorCode := 9
def quicPacketTooLarge : QuicErrorCode := 14
def quicInvalidStreamData : QuicErrorCode := 46
def quicInvalidCongestionFeedbackData : QuicErrorCode := 47
def quicMissingPayload : QuicErrorCode := 48

def kMaxPacketSize : ℕ := 1472
def kPublicFlagsSize : ℕ := 1
def kQuicVersionSize : ℕ := 4
def kPrivateFlagsSize : ℕ := 1
def kFecGroupSize : ℕ := 1
def kQuicFrameTypeSize : ℕ := 1
def kQuicErrorCodeSize : ℕ := 4
def kQuicErrorDetailsLengthSize : ℕ := 2
def kQuicMaxStreamIdSize : ℕ := 4
def kQuicStreamPayloadLengthSize : ℕ := 2
def kQuicEntropyHashSize : ℕ := 1
def kQuicv11DeltaTimeLargestObservedSize : ℕ := 4
def kQuicDeltaTimeLargestObservedSize : ℕ := 2
def kNumberOfMissingPacketsSize : ℕ := 1
def kuint8max : ℕ := 2 ^ 8 - 1
def kuint16max : ℕ := 2 ^ 16 - 1

/-- The public header is part of the record, and so are the versions it does not list. -/
structure QuicPacketHeader where
  guid : BitVec 64 := 0
  guidLength : QuicGuidLength := .packet8Byte
  resetFlag : Bool := false
  versionFlag : Bool := false
  sequenceNumberLength : QuicSequenceNumberLength := .packet6Byte
  fecFlag : Bool := false
  entropyFlag : Bool := false
  entropyHash : Byte := 0
  packetSequenceNumber : ℕ := 0
  isInFecGroup : Bool := false
  fecGroup : ℕ := 0
  deriving DecidableEq

structure QuicStreamFrame where
  streamId : BitVec 32
  fin : Bool
  offset : BitVec 64
  data : List Byte
  deriving DecidableEq

abbrev SequenceNumberSet := SortedMap ℕ Unit

structure SentPacketInfo where
  entropyHash : Byte := 0
  leastUnacked : ℕ := 0
  deriving DecidableEq

def kQuicInfiniteTimeUs : ℤ := 0x7fffffffffffffff / 10

/-- The delta is in microseconds. -/
structure ReceivedPacketInfo where
  entropyHash : Byte := 0
  largestObserved : ℕ := 0
  deltaTimeLargestObserved : ℤ := kQuicInfiniteTimeUs
  missingPackets : SequenceNumberSet := ∅
  isTruncated : Bool := false
  deriving DecidableEq

structure QuicAckFrame where
  sentInfo : SentPacketInfo := {}
  receivedInfo : ReceivedPacketInfo := {}
  deriving DecidableEq

/-- Times are microseconds in 64 bits, and the bit rate is in bits per second. -/
inductive QuicCongestionFeedbackFrame
  | tcp (accumulatedNumberOfLostPackets : BitVec 16) (receiveWindow : ℕ)
  | interArrival (accumulatedNumberOfLostPackets : BitVec 16)
      (receivedPacketTimes : SortedMap ℕ (BitVec 64))
  | fixRate (bitrate : ℕ)
  deriving DecidableEq

structure QuicRstStreamFrame where
  streamId : BitVec 32
  errorCode : QuicRstStreamErrorCode
  errorDetails : List Byte
  deriving DecidableEq

structure QuicConnectionCloseFrame where
  errorCode : QuicErrorCode
  errorDetails : List Byte
  ackFrame : QuicAckFrame := {}
  deriving DecidableEq

structure QuicGoAwayFrame where
  errorCode : QuicErrorCode
  lastGoodStreamId : BitVec 32
  reasonPhrase : List Byte
  deriving DecidableEq

inductive QuicFrame
  | padding
  | stream (frame : QuicStreamFrame)
  | ack (frame : QuicAckFrame)
  | congestionFeedback (frame : QuicCongestionFeedbackFrame)
  | rstStream (frame : QuicRstStreamFrame)
  | connectionClose (frame : QuicConnectionCloseFrame)
  | goAway (frame : QuicGoAwayFrame)
  deriving DecidableEq

/-- What the framer has of its own. `entropyHash` is the entropy calculator's. -/
structure Framer where
  quicVersion : QuicVersion
  lastSequenceNumber : ℕ := 0
  creationTime : BitVec 64 := 0
  entropyHash : ℕ → Byte := fun _ => 0

/-! ### Sizes -/

def getPacketHeaderSize (header : QuicPacketHeader) : ℕ :=
  kPublicFlagsSize + header.guidLength.size + (if header.versionFlag then kQuicVersionSize else 0) +
    header.sequenceNumberLength.size + kPrivateFlagsSize +
    (if header.isInFecGroup then kFecGroupSize else 0)

/-- The first number of bytes that the id fits in. -/
def getStreamIdSize (streamId : BitVec 32) : ℕ :=
  ([1, 2, 3, 4].find? fun i => streamId >>> (8 * i) = 0).getD 4

def getStreamOffsetSize (offset : BitVec 64) : ℕ :=
  if offset = 0 then 0
  else ([2, 3, 4, 5, 6, 7, 8].find? fun i => offset >>> (8 * i) = 0).getD 8

def getMinStreamFrameSize (streamId : BitVec 32) (offset : BitVec 64)
    (lastFrameInPacket : Bool) : ℕ :=
  kQuicFrameTypeSize + getStreamIdSize streamId + getStreamOffsetSize offset +
    (if lastFrameInPacket then 0 else kQuicStreamPayloadLengthSize)

def getMinAckFrameSizev11 : ℕ :=
  kQuicFrameTypeSize + kQuicEntropyHashSize + QuicSequenceNumberLength.packet6Byte.size +
    kQuicEntropyHashSize + QuicSequenceNumberLength.packet6Byte.size +
    kQuicv11DeltaTimeLargestObservedSize + kNumberOfMissingPacketsSize

def getMinAckFrameSize (version : QuicVersion)
    (sequenceNumberLength largestObservedLength : QuicSequenceNumberLength) : ℕ :=
  if version.number ≤ 11 then getMinAckFrameSizev11
  else kQuicFrameTypeSize + kQuicEntropyHashSize + sequenceNumberLength.size +
    kQuicEntropyHashSize + largestObservedLength.size + kQuicDeltaTimeLargestObservedSize

def getMinRstStreamFrameSize : ℕ :=
  kQuicFrameTypeSize + kQuicMaxStreamIdSize + kQuicErrorCodeSize + kQuicErrorDetailsLengthSize

def getMinConnectionCloseFrameSize : ℕ :=
  kQuicFrameTypeSize + kQuicErrorCodeSize + kQuicErrorDetailsLengthSize

def getMinGoAwayFrameSize : ℕ :=
  kQuicFrameTypeSize + kQuicErrorCodeSize + kQuicErrorDetailsLengthSize + kQuicMaxStreamIdSize

def getMinSequenceNumberLength (sequenceNumber : ℕ) : QuicSequenceNumberLength :=
  if sequenceNumber < 2 ^ 8 then .packet1Byte
  else if sequenceNumber < 2 ^ 16 then .packet2Byte
  else if sequenceNumber < 2 ^ 32 then .packet4Byte
  else .packet6Byte

/-- Each range is its first number and how many more follow it. -/
structure AckFrameInfo where
  maxDelta : ℕ := 0
  nackRanges : List (ℕ × ℕ) := []

/-- The loop over the missing packets; the keys of `nack_ranges` go up. -/
def getAckFrameInfoLoop (largestObserved : ℕ) :
    AckFrameInfo → ℕ → ℕ → List ℕ → AckFrameInfo
  | info, curRangeLength, lastMissing, [] =>
    { maxDelta := max info.maxDelta (largestObserved - lastMissing)
      nackRanges := info.nackRanges ++ [(lastMissing - curRangeLength, curRangeLength)] }
  | info, curRangeLength, lastMissing, missing :: rest =>
    let maxDelta := max info.maxDelta (missing - lastMissing)
    if curRangeLength ≠ kuint8max ∧ missing = lastMissing + 1 then
      getAckFrameInfoLoop largestObserved { info with maxDelta := maxDelta }
        (curRangeLength + 1) missing rest
    else
      getAckFrameInfoLoop largestObserved
        { maxDelta := maxDelta
          nackRanges := info.nackRanges ++ [(lastMissing - curRangeLength, curRangeLength)] }
        0 missing rest

def getAckFrameInfo (frame : QuicAckFrame) : AckFrameInfo :=
  match frame.receivedInfo.missingPackets.keys with
  | [] => {}
  | first :: rest => getAckFrameInfoLoop frame.receivedInfo.largestObserved {} 0 first rest

def getAckFrameSize (version : QuicVersion) (ack : QuicAckFrame)
    (sequenceNumberLength : QuicSequenceNumberLength) : ℕ :=
  if version.number ≤ 11 then
    getMinAckFrameSizev11 +
      QuicSequenceNumberLength.packet6Byte.size * ack.receivedInfo.missingPackets.size
  else
    let ackInfo := getAckFrameInfo ack
    getMinAckFrameSize version sequenceNumberLength
        (getMinSequenceNumberLength ack.receivedInfo.largestObserved) +
      (if ackInfo.nackRanges.isEmpty then 0 else kNumberOfMissingPacketsSize) +
      ackInfo.nackRanges.length * ((getMinSequenceNumberLength ackInfo.maxDelta).size +
        QuicSequenceNumberLength.packet1Byte.size)

def computeFrameLength (version : QuicVersion) (frame : QuicFrame) (lastFrameInPacket : Bool)
    (sequenceNumberLength : QuicSequenceNumberLength) : ℕ :=
  match frame with
  | .stream frame =>
    getMinStreamFrameSize frame.streamId frame.offset lastFrameInPacket + frame.data.length
  | .ack frame => getAckFrameSize version frame sequenceNumberLength
  | .congestionFeedback frame =>
    kQuicFrameTypeSize + 1 +
      match frame with
      | .interArrival _ receivedPacketTimes =>
        2 + 1 + (if receivedPacketTimes.size > 0 then
          QuicSequenceNumberLength.packet6Byte.size + 8 +
            QuicSequenceNumberLength.packet6Byte.size * (receivedPacketTimes.size - 1) else 0)
      | .fixRate _ => 4
      | .tcp _ _ => 4
  | .rstStream frame => getMinRstStreamFrameSize + frame.errorDetails.length
  | .connectionClose frame =>
    if version.number ≤ 11 then
      -- without the frame type of the ack
      getMinConnectionCloseFrameSize + getMinAckFrameSizev11 - 1 + frame.errorDetails.length +
        QuicSequenceNumberLength.packet6Byte.size * frame.ackFrame.receivedInfo.missingPackets.size
    else getMinConnectionCloseFrameSize + frame.errorDetails.length
  | .goAway frame => getMinGoAwayFrameSize + frame.reasonPhrase.length
  | .padding => 0

def canTruncate (version : QuicVersion) (frame : QuicFrame) (freeBytes : ℕ) : Bool :=
  match frame with
  | .ack _ | .connectionClose _ =>
    freeBytes ≥ getMinAckFrameSize version .packet6Byte .packet6Byte
  | _ => false

def getSerializedFrameLength (version : QuicVersion) (frame : QuicFrame) (freeBytes : ℕ)
    (firstFrame lastFrame : Bool) (sequenceNumberLength : QuicSequenceNumberLength) : ℕ :=
  if frame = .padding then freeBytes
  else
    let frameLen := computeFrameLength version frame lastFrame sequenceNumberLength
    if frameLen > freeBytes then
      if !firstFrame then 0
      else if canTruncate version frame freeBytes then freeBytes
      else frameLen
    else frameLen

/-! ### Writing -/

def kQuicFrameTypeSpecialMask : Byte := 0xE0
def kQuicFrameTypeStreamMask : Byte := 0x80
def kQuicFrameTypeAckMask : Byte := 0x40
def kQuicFrameTypeCongestionFeedbackMask : Byte := 0x20
def kQuicStreamIdShift : ℕ := 2
def kQuicStreamIDLengthMask : Byte := 0x03
def kQuicStreamOffsetShift : ℕ := 3
def kQuicStreamOffsetMask : Byte := 0x07
def kQuicStreamDataLengthShift : ℕ := 1
def kQuicStreamDataLengthMask : Byte := 0x01
def kQuicStreamFinMask : Byte := 0x01
def kQuicSequenceNumberLengthShift : ℕ := 2
def kQuicAckTruncatedShift : ℕ := 1
def kQuicAckTruncatedMask : Byte := 0x01
def kQuicHasNacksMask : Byte := 0x01
def kPublicHeaderSequenceNumberShift : ℕ := 4
def kInvalidDeltaTime : ℕ := 0xffffffff

def getSequenceNumberFlags : QuicSequenceNumberLength → Byte
  | .packet1Byte => 0
  | .packet2Byte => 1
  | .packet4Byte => 2
  | .packet6Byte => 3

/-- The bytes `Q`, `0`, `1` and the last digit; the tag is 0 for other versions. -/
def quicVersionToQuicTag : QuicVersion → List Byte
  | .v10 => [0x51, 0x30, 0x31, 0x30]
  | .v11 => [0x51, 0x30, 0x31, 0x31]
  | .v12 => [0x51, 0x30, 0x31, 0x32]
  | .unsupported => [0, 0, 0, 0]

/-- The masks keep the low bytes of the number, and the lowest byte is written first. -/
def appendPacketSequenceNumber (length : QuicSequenceNumberLength) (packetSequenceNumber : ℕ)
    (w : Writer) : Option Writer :=
  if w.room < length.size then none else w.write (toBytes length.size packetSequenceNumber)

def writeStringPiece16 (val : List Byte) (w : Writer) : Option Writer :=
  if val.length > kuint16max then none
  else (w.write (toBytes 2 val.length)).bind fun w => w.write val

def guidFlags : QuicGuidLength → Byte
  | .packet0Byte => 0
  | .packet1Byte => 4
  | .packet4Byte => 8
  | .packet8Byte => 12

def publicFlags (header : QuicPacketHeader) : Byte :=
  (if header.resetFlag then 2 else 0) ||| (if header.versionFlag then 1 else 0) |||
    (getSequenceNumberFlags header.sequenceNumberLength <<< kPublicHeaderSequenceNumberShift) |||
    guidFlags header.guidLength

def privateFlags (header : QuicPacketHeader) : Byte :=
  (if header.entropyFlag then 1 else 0) ||| (if header.isInFecGroup then 2 else 0) |||
    (if header.fecFlag then 4 else 0)

/-- Whether the version could be written is not asked. -/
def writeVersion (version : QuicVersion) (header : QuicPacketHeader) (w : Writer) : Writer :=
  if header.versionFlag then (w.write (quicVersionToQuicTag version)).getD w else w

/-- The offset to the first packet of the group is one byte. -/
def writeFecGroup (header : QuicPacketHeader) (w : Writer) : Option Writer :=
  if header.isInFecGroup then
    w.write (toBytes 1 (header.packetSequenceNumber + 2 ^ 64 - header.fecGroup))
  else some w

def appendPacketHeader (version : QuicVersion) (header : QuicPacketHeader) (w : Writer) :
    Option Writer := do
  let w ← w.write [publicFlags header]
  let w ← w.write (toBytes header.guidLength.size header.guid.toNat)
  let w := writeVersion version header w
  let w ← appendPacketSequenceNumber header.sequenceNumberLength header.packetSequenceNumber w
  let w ← w.write [privateFlags header]
  writeFecGroup header w

/-- The type byte of a stream frame has the lengths of its fields. -/
def streamTypeByte (fin lastFrameInPacket : Bool) (offsetLen streamIdLen : ℕ) : Byte :=
  let typeByte : Byte := if fin then kQuicStreamFinMask else 0
  let typeByte := (typeByte <<< kQuicStreamDataLengthShift) |||
    (if lastFrameInPacket then 0 else kQuicStreamDataLengthMask)
  let typeByte := (typeByte <<< kQuicStreamOffsetShift) |||
    (if offsetLen > 0 then BitVec.ofNat 8 (offsetLen - 1) else 0)
  (typeByte <<< kQuicStreamIdShift) ||| BitVec.ofNat 8 (streamIdLen - 1) |||
    kQuicFrameTypeStreamMask

/-- Version 12 writes the type byte of an ack with the rest of it. -/
def appendTypeByte (version : QuicVersion) (frame : QuicFrame) (lastFrameInPacket : Bool)
    (w : Writer) : Option Writer :=
  match frame with
  | .stream frame =>
    w.write [streamTypeByte frame.fin lastFrameInPacket (getStreamOffsetSize frame.offset)
      (getStreamIdSize frame.streamId)]
  | .ack _ => if version.number ≥ 12 then some w else w.write [kQuicFrameTypeAckMask]
  | .congestionFeedback _ => w.write [kQuicFrameTypeCongestionFeedbackMask]
  | .padding => w.write [0]
  | .rstStream _ => w.write [1]
  | .connectionClose _ => w.write [2]
  | .goAway _ => w.write [3]

/-- The last frame of a packet goes to its end. -/
def appendDataLength (lastFrameInPacket : Bool) (dataLength : ℕ) (w : Writer) : Option Writer :=
  if lastFrameInPacket then some w else w.write (toBytes 2 dataLength)

def appendStreamFramePayload (frame : QuicStreamFrame) (lastFrameInPacket : Bool) (w : Writer) :
    Option Writer := do
  let w ← w.write (toBytes (getStreamIdSize frame.streamId) frame.streamId.toNat)
  let w ← w.write (toBytes (getStreamOffsetSize frame.offset) frame.offset.toNat)
  let w ← appendDataLength lastFrameInPacket frame.data.length w
  w.write frame.data

/-- The packets after the first one: the distance to it in 16 bits, and the time since it in
the low 32 bits. -/
def appendReceivedPackets (lowestSequence : ℕ) (lowestTime : BitVec 64) :
    List (ℕ × BitVec 64) → Writer → Option Writer
  | [], w => some w
  | (sequence, time) :: rest, w =>
    if sequence - lowestSequence > kuint16max then none
    else do
      let w ← w.write (toBytes 2 (sequence - lowestSequence))
      let w ← w.write (toBytes 4 ((time - lowestTime).setWidth 32).toNat)
      appendReceivedPackets lowestSequence lowestTime rest w

def appendInterArrival (creationTime : BitVec 64) (times : SortedMap ℕ (BitVec 64)) (w : Writer) :
    Option Writer :=
  if times.size > kuint8max then none
  else (w.write (toBytes 1 times.size)).bind fun w =>
    match times.entries with
    | [] => some w
    | (lowestSequence, lowestTime) :: rest => do
      let w ← appendPacketSequenceNumber .packet6Byte lowestSequence w
      let w ← w.write (toBytes 8 (lowestTime - creationTime).toNat)
      appendReceivedPackets lowestSequence lowestTime rest w

def appendQuicCongestionFeedbackFramePayload (creationTime : BitVec 64)
    (frame : QuicCongestionFeedbackFrame) (w : Writer) : Option Writer :=
  match frame with
  | .tcp lost receiveWindow => do
    let w ← w.write [0]
    let w ← w.write (toBytes 2 lost.toNat)
    w.write (toBytes 2 (receiveWindow >>> 4))
  | .interArrival lost times => do
    let w ← w.write [1]
    let w ← w.write (toBytes 2 lost.toNat)
    appendInterArrival creationTime times w
  | .fixRate bitrate => do
    let w ← w.write [2]
    w.write (toBytes 4 (bitrate / 8))

def appendRstStreamFramePayload (frame : QuicRstStreamFrame) (w : Writer) : Option Writer := do
  let w ← w.write (toBytes 4 frame.streamId.toNat)
  let w ← w.write (toBytes 4 frame.errorCode)
  writeStringPiece16 frame.errorDetails w

def appendGoAwayFramePayload (frame : QuicGoAwayFrame) (w : Writer) : Option Writer := do
  let w ← w.write (toBytes 4 frame.errorCode)
  let w ← w.write (toBytes 4 frame.lastGoodStreamId.toNat)
  writeStringPiece16 frame.reasonPhrase w

/-! ### Acks of version 11 -/

/-- `missing` is what was written last and `rest` what comes after it in the set. -/
def calculateLargestObserved (missing : ℕ) : List ℕ → ℕ
  | [] => missing
  | next :: _ => if missing + 1 ≠ next then next - 1 else missing

/-- `WriteUInt8ToOffset` and its like: the bytes are put over what was written before. -/
def writeToOffset (bytes : List Byte) (offset : ℕ) (w : Writer) : Writer :=
  if h : offset + bytes.length ≤ w.data.length then
    ⟨w.capacity, w.data.take offset ++ bytes ++ w.data.drop (offset + bytes.length), by
      have := w.fits
      simp only [List.length_append, List.length_take, List.length_drop]
      omega⟩
  else w

/-- Where the fields stand that a truncated ack changes. -/
structure AckOffsets where
  receivedEntropy : ℕ
  largestObserved : ℕ
  deltaTimeLargestObserved : ℕ
  numMissingPackets : ℕ

/-- The ack ends with the packets that were written. -/
def truncateAckV11 (entropyHash : ℕ → Byte) (offsets : AckOffsets) (largestObserved : ℕ)
    (numMissingPacketsWritten : ℕ) (w : Writer) : Writer :=
  let w := writeToOffset [entropyHash largestObserved] offsets.receivedEntropy w
  let w := writeToOffset (toBytes 6 largestObserved) offsets.largestObserved w
  let w := writeToOffset (toBytes 4 kInvalidDeltaTime) offsets.deltaTimeLargestObserved w
  writeToOffset (toBytes 1 numMissingPacketsWritten) offsets.numMissingPackets w

/-- The loop over the missing packets. When there is no room for the first of them, the iterator
goes back from `begin()`, and there is no result. -/
def appendMissingPackets (entropyHash : ℕ → Byte) (offsets : AckOffsets) :
    Option ℕ → ℕ → List ℕ → Writer → Option Writer
  | _, _, [], w => some w
  | lastWritten, numWritten, missing :: rest, w =>
    match appendPacketSequenceNumber .packet6Byte missing w with
    | some w => appendMissingPackets entropyHash offsets (some missing) (numWritten + 1) rest w
    | none => lastWritten.map fun last =>
      truncateAckV11 entropyHash offsets (calculateLargestObserved last (missing :: rest))
        numWritten w

def deltaTimeV11 (delta : ℤ) : ℕ :=
  if delta = kQuicInfiniteTimeUs then kInvalidDeltaTime else (delta % 2 ^ 32).toNat

def appendAckFramePayloadV11 (entropyHash : ℕ → Byte) (frame : QuicAckFrame) (w : Writer) :
    Option Writer := do
  let w ← w.write [frame.sentInfo.entropyHash]
  let w ← appendPacketSequenceNumber .packet6Byte frame.sentInfo.leastUnacked w
  let receivedEntropyOffset := w.data.length
  let w ← w.write [frame.receivedInfo.entropyHash]
  let largestObservedOffset := w.data.length
  let w ← appendPacketSequenceNumber .packet6Byte frame.receivedInfo.largestObserved w
  let deltaTimeLargestObservedOffset := w.data.length
  let w ← w.write (toBytes 4 (deltaTimeV11 frame.receivedInfo.deltaTimeLargestObserved))
  let numMissingPacketsOffset := w.data.length
  let w ← w.write (toBytes 1 frame.receivedInfo.missingPackets.size)
  appendMissingPackets entropyHash
    ⟨receivedEntropyOffset, largestObservedOffset, deltaTimeLargestObservedOffset,
      numMissingPacketsOffset⟩ none 0 frame.receivedInfo.missingPackets.keys w

def appendConnectionCloseFramePayload (version : QuicVersion) (entropyHash : ℕ → Byte)
    (frame : QuicConnectionCloseFrame) (w : Writer) : Option Writer := do
  let w ← w.write (toBytes 4 frame.errorCode)
  let w ← writeStringPiece16 frame.errorDetails w
  if version.number ≤ 11 then appendAckFramePayloadV11 entropyHash frame.ackFrame w else some w

/-! ### Acks of version 12 -/

def kUFloat16MantissaBits : ℕ := 11
def kUFloat16MantissaEffectiveBits : ℕ := 12
def kUFloat16MaxExponent : ℕ := 30
def kUFloat16MaxValue : ℕ := (2 ^ kUFloat16MantissaEffectiveBits - 1) * 2 ^ kUFloat16MaxExponent

/-- The binary search for the exponent. -/
def ufloat16Shift : List ℕ → ℕ → ℕ → ℕ × ℕ
  | [], exponent, value => (exponent, value)
  | offset :: offsets, exponent, value =>
    if value ≥ 2 ^ (kUFloat16MantissaBits + offset) then
      ufloat16Shift offsets (exponent + offset) (value >>> offset)
    else ufloat16Shift offsets exponent value

def toUFloat16 (value : ℕ) : ℕ :=
  if value < 2 ^ kUFloat16MantissaEffectiveBits then value
  else if value ≥ kUFloat16MaxValue then kuint16max
  else
    let (exponent, value) := ufloat16Shift [16, 8, 4, 2, 1] 0 value
    value + exponent <<< kUFloat16MantissaBits

def deltaTime (delta : ℤ) : ℕ :=
  if delta = kQuicInfiniteTimeUs then kUFloat16MaxValue else (delta % 2 ^ 64).toNat

/-- Subtraction in 64 bits. -/
def sub64 (a b : ℕ) : ℕ := (a + 2 ^ 64 - b) % 2 ^ 64

def ackTypeByte (hasNacks truncated : Bool)
    (largestObservedLength missingSequenceNumberLength : QuicSequenceNumberLength) : Byte :=
  let typeByte : Byte := if hasNacks then kQuicHasNacksMask else 0
  let typeByte := (typeByte <<< kQuicAckTruncatedShift) |||
    (if truncated then kQuicAckTruncatedMask else 0)
  let typeByte := (typeByte <<< kQuicSequenceNumberLengthShift) |||
    getSequenceNumberFlags largestObservedLength
  (typeByte <<< kQuicSequenceNumberLengthShift) |||
    getSequenceNumberFlags missingSequenceNumberLength ||| kQuicFrameTypeAckMask

/-- The ranges from the greatest to the least, each by its distance from the last one. -/
def appendNackRanges (length : QuicSequenceNumberLength) :
    ℕ → List (ℕ × ℕ) → Writer → Option Writer
  | _, [], w => some w
  | lastSequenceWritten, (first, more) :: ranges, w => do
    let w ← appendPacketSequenceNumber length (sub64 lastSequenceWritten (first + more)) w
    let w ← appendPacketSequenceNumber .packet1Byte more w
    appendNackRanges length (sub64 first 1) ranges w

/-- The largest observed and the ranges that are left when the greatest are skipped. -/
def skipRanges (numRanges maxNumRanges largestObserved : ℕ) (ranges : List (ℕ × ℕ)) :
    ℕ × List (ℕ × ℕ) :=
  match ranges.drop (numRanges - maxNumRanges - 1) with
  | (first, _) :: ranges => (sub64 first 1, ranges)
  | [] => (largestObserved, [])

/-- How many ranges there is room for, as the framer reckons it. -/
def maxNumRanges (version : QuicVersion) (header : QuicPacketHeader) (frame : QuicAckFrame)
    (room : ℕ) : ℕ :=
  let availableRangeBytes := sub64 room (getMinAckFrameSize version header.sequenceNumberLength
    (getMinSequenceNumberLength frame.receivedInfo.largestObserved))
  min kuint8max (availableRangeBytes /
    ((getMinSequenceNumberLength (getAckFrameInfo frame).maxDelta).size +
      QuicSequenceNumberLength.packet1Byte.size))

/-- What an ack says when it has at most `maxRanges` ranges; they go down. -/
structure AckContent where
  truncated : Bool
  largestObserved : ℕ
  entropyHash : Byte
  ranges : List (ℕ × ℕ)

def ackContent (entropyHash : ℕ → Byte) (frame : QuicAckFrame) (maxRanges : ℕ) : AckContent :=
  let nackRanges := (getAckFrameInfo frame).nackRanges
  if nackRanges.length > maxRanges then
    let skipped := skipRanges nackRanges.length maxRanges frame.receivedInfo.largestObserved
      nackRanges.reverse
    ⟨true, skipped.1, entropyHash skipped.1, skipped.2⟩
  else
    ⟨false, frame.receivedInfo.largestObserved, frame.receivedInfo.entropyHash,
      nackRanges.reverse⟩

def appendAckFramePayloadAndTypeByte (version : QuicVersion) (entropyHash : ℕ → Byte)
    (header : QuicPacketHeader) (frame : QuicAckFrame) (w : Writer) : Option Writer := do
  let ackInfo := getAckFrameInfo frame
  let largestObservedLength := getMinSequenceNumberLength frame.receivedInfo.largestObserved
  let missingSequenceNumberLength := getMinSequenceNumberLength ackInfo.maxDelta
  let maxRanges := maxNumRanges version header frame w.room
  let content := ackContent entropyHash frame maxRanges
  let w ← w.write [ackTypeByte (!ackInfo.nackRanges.isEmpty) content.truncated
    largestObservedLength missingSequenceNumberLength]
  let w ← w.write [frame.sentInfo.entropyHash]
  let w ← appendPacketSequenceNumber header.sequenceNumberLength
    (sub64 header.packetSequenceNumber frame.sentInfo.leastUnacked) w
  let w ← w.write [content.entropyHash]
  let w ← appendPacketSequenceNumber largestObservedLength content.largestObserved w
  let w ← w.write (toBytes 2 (toUFloat16 (deltaTime frame.receivedInfo.deltaTimeLargestObserved)))
  if ackInfo.nackRanges.isEmpty then some w
  else do
    let w ← w.write (toBytes 1 (min ackInfo.nackRanges.length maxRanges))
    appendNackRanges missingSequenceNumberLength content.largestObserved content.ranges w

/-! ### Packets -/

lemma fits_padding (w : Writer) :
    (w.data ++ List.replicate w.room 0).length ≤ w.capacity := by
  have := w.fits
  simp only [List.length_append, List.length_replicate, Writer.room]
  omega

def writePadding (w : Writer) : Writer :=
  ⟨w.capacity, w.data ++ List.replicate w.room 0, fits_padding w⟩

def appendPayload (framer : Framer) (header : QuicPacketHeader) (frame : QuicFrame)
    (lastFrameInPacket : Bool) (w : Writer) : Option Writer :=
  match frame with
  | .padding => some (writePadding w)
  | .stream frame => appendStreamFramePayload frame lastFrameInPacket w
  | .ack frame =>
    if framer.quicVersion.number ≤ 11 then appendAckFramePayloadV11 framer.entropyHash frame w
    else appendAckFramePayloadAndTypeByte framer.quicVersion framer.entropyHash header frame w
  | .congestionFeedback frame =>
    appendQuicCongestionFeedbackFramePayload framer.creationTime frame w
  | .rstStream frame => appendRstStreamFramePayload frame w
  | .connectionClose frame =>
    appendConnectionCloseFramePayload framer.quicVersion framer.entropyHash frame w
  | .goAway frame => appendGoAwayFramePayload frame w

def appendFrames (framer : Framer) (header : QuicPacketHeader) :
    List QuicFrame → Writer → Option Writer
  | [], w => some w
  | frame :: frames, w => do
    let w ← appendTypeByte framer.quicVersion frame frames.isEmpty w
    let w ← appendPayload framer header frame frames.isEmpty w
    appendFrames framer header frames w

def getPacketEntropyHash (header : QuicPacketHeader) : Byte :=
  if header.entropyFlag then 1 <<< (header.packetSequenceNumber % 8) else 0

structure SerializedPacket where
  sequenceNumber : ℕ
  sequenceNumberLength : QuicSequenceNumberLength
  packet : List Byte
  entropyHash : Byte
  deriving DecidableEq

def buildDataPacket (framer : Framer) (header : QuicPacketHeader) (frames : List QuicFrame)
    (packetSize : ℕ) : Option SerializedPacket := do
  let w ← appendPacketHeader framer.quicVersion header (Writer.new packetSize)
  let w ← appendFrames framer header frames w
  some
    { sequenceNumber := header.packetSequenceNumber
      sequenceNumberLength := header.sequenceNumberLength
      packet := w.data
      entropyHash := getPacketEntropyHash header }

/-! ### Reading -/

def readSequenceNumberLength (flags : Byte) : QuicSequenceNumberLength :=
  if flags &&& 3 = 3 then .packet6Byte
  else if flags &&& 3 = 2 then .packet4Byte
  else if flags &&& 3 = 1 then .packet2Byte
  else .packet1Byte

/-- `Delta`, the distance of two numbers. -/
def delta (a b : ℕ) : ℕ := if a < b then b - a else a - b

def closestTo (target a b : ℕ) : ℕ := if delta target a < delta target b then a else b

/-- All in 64 bits: the epoch before the first one wraps around. -/
def calculatePacketSequenceNumberFromWire (lastSequenceNumber : ℕ)
    (length : QuicSequenceNumberLength) (packetSequenceNumber : ℕ) : ℕ :=
  let epochDelta := 2 ^ (8 * length.size)
  let nextSequenceNumber := (lastSequenceNumber + 1) % 2 ^ 64
  let epoch := lastSequenceNumber - lastSequenceNumber % epochDelta
  let prevEpoch := sub64 epoch epochDelta
  let nextEpoch := (epoch + epochDelta) % 2 ^ 64
  closestTo nextSequenceNumber ((epoch + packetSequenceNumber) % 2 ^ 64)
    (closestTo nextSequenceNumber ((prevEpoch + packetSequenceNumber) % 2 ^ 64)
      ((nextEpoch + packetSequenceNumber) % 2 ^ 64))

/-- A reader of the framer; its error is the detailed error. -/
abbrev Read (α : Type) := Parser String α

def processPacketSequenceNumber (lastSequenceNumber : ℕ) (length : QuicSequenceNumberLength)
    (error : String) : Read ℕ :=
  calculatePacketSequenceNumberFromWire lastSequenceNumber length <$> Parser.uint length.size error

def readStringPiece16 (error : String) : Read (List Byte) := do
  let size ← Parser.uint 2 error
  Parser.bytes size error

def readByte (error : String) : Read Byte := BitVec.ofNat 8 <$> Parser.uint 1 error

/-- `ReadStringPiece(&frame->data, reader_->BytesRemaining())`. -/
def readRemaining : Read (List Byte) := fun input => .ok (input, [])

/-- The flags of the type byte, from right to left. -/
def streamFlags (frameType : Byte) : ℕ × ℕ × Bool × Bool :=
  let flags := frameType &&& ~~~kQuicFrameTypeStreamMask
  let streamIdLength := (flags &&& kQuicStreamIDLengthMask).toNat + 1
  let flags := flags >>> kQuicStreamIdShift
  let offsetLength := (flags &&& kQuicStreamOffsetMask).toNat
  let offsetLength := if offsetLength > 0 then offsetLength + 1 else offsetLength
  let flags := flags >>> kQuicStreamOffsetShift
  let hasDataLength := flags &&& kQuicStreamDataLengthMask = kQuicStreamDataLengthMask
  let flags := flags >>> kQuicStreamDataLengthShift
  (streamIdLength, offsetLength, hasDataLength, flags &&& kQuicStreamFinMask = 1)

def readStreamData (hasDataLength : Bool) : Read (List Byte) :=
  if hasDataLength then readStringPiece16 "Unable to read frame data." else readRemaining

def processStreamFrame (frameType : Byte) : Read QuicStreamFrame := do
  let (streamIdLength, offsetLength, hasDataLength, fin) := streamFlags frameType
  let streamId ← Parser.uint streamIdLength "Unable to read stream_id."
  let offset ← Parser.uint offsetLength "Unable to read offset."
  let data ← readStreamData hasDataLength
  return { streamId := BitVec.ofNat 32 streamId, fin := fin, offset := BitVec.ofNat 64 offset,
           data := data }

def readDeltaTimeV11 (value : ℕ) : ℤ :=
  if value = kInvalidDeltaTime then kQuicInfiniteTimeUs else value

/-- The loop over the missing packets of an ack. -/
def readMissingPacketsV11 (lastSequenceNumber : ℕ) :
    ℕ → SequenceNumberSet → Read SequenceNumberSet
  | 0, missing => pure missing
  | count + 1, missing => do
    let sequenceNumber ← processPacketSequenceNumber lastSequenceNumber .packet6Byte
      "Unable to read sequence number in missing packets."
    readMissingPacketsV11 lastSequenceNumber count (missing.insert sequenceNumber ())

def processReceivedInfoV11 (lastSequenceNumber : ℕ) : Read ReceivedPacketInfo := do
  let entropyHash ← readByte "Unable to read entropy hash for received packets."
  let largestObserved ← processPacketSequenceNumber lastSequenceNumber .packet6Byte
    "Unable to read largest observed."
  let deltaTime ← Parser.uint 4 "Unable to read delta time largest observed."
  let numMissingPackets ← Parser.uint 1 "Unable to read num missing packets."
  let missing ← readMissingPacketsV11 lastSequenceNumber numMissingPackets ∅
  return { entropyHash := entropyHash, largestObserved := largestObserved,
           deltaTimeLargestObserved := readDeltaTimeV11 deltaTime, missingPackets := missing }

def fromUFloat16 (value : ℕ) : ℕ :=
  if value < 2 ^ kUFloat16MantissaEffectiveBits then value
  else
    let exponent := value >>> kUFloat16MantissaBits - 1
    (value - exponent <<< kUFloat16MantissaBits) <<< exponent

def readDeltaTime (value : ℕ) : ℤ :=
  if value = kUFloat16MaxValue then kQuicInfiniteTimeUs else value

/-- The numbers of one range, from the greatest down. -/
def insertRange (lastSequenceNumber : ℕ) : ℕ → SequenceNumberSet → SequenceNumberSet
  | 0, missing => missing
  | count + 1, missing =>
    (insertRange lastSequenceNumber count missing).insert (sub64 lastSequenceNumber count) ()

def readNackRanges (length : QuicSequenceNumberLength) :
    ℕ → ℕ → SequenceNumberSet → Read SequenceNumberSet
  | 0, _, missing => pure missing
  | count + 1, lastSequenceNumber, missing => do
    let missingDelta ← Parser.uint length.size "Unable to read missing sequence number delta."
    let rangeLength ← Parser.uint 1 "Unable to read missing sequence number range."
    let last := sub64 lastSequenceNumber missingDelta
    -- one more is subtracted, so that a delta of 0 is an adjacent range
    readNackRanges length count (sub64 last (rangeLength + 1))
      (insertRange last (rangeLength + 1) missing)

def readMissingRanges (hasNacks : Bool) (length : QuicSequenceNumberLength)
    (largestObserved : ℕ) : Read SequenceNumberSet :=
  if hasNacks then do
    let numMissingRanges ← Parser.uint 1 "Unable to read num missing packet ranges."
    readNackRanges length numMissingRanges largestObserved ∅
  else pure ∅

def processReceivedInfo (frameType : Byte) : Read ReceivedPacketInfo := do
  let missingSequenceNumberLength := readSequenceNumberLength frameType
  let frameType := frameType >>> kQuicSequenceNumberLengthShift
  let largestObservedLength := readSequenceNumberLength frameType
  let frameType := frameType >>> kQuicSequenceNumberLengthShift
  let isTruncated := frameType &&& kQuicAckTruncatedMask ≠ 0
  let frameType := frameType >>> kQuicAckTruncatedShift
  let hasNacks := frameType &&& kQuicHasNacksMask ≠ 0
  let entropyHash ← readByte "Unable to read entropy hash for received packets."
  let largestObserved ← Parser.uint largestObservedLength.size "Unable to read largest observed."
  let delta ← Parser.uint 2 "Unable to read delta time largest observed."
  let missing ← readMissingRanges hasNacks missingSequenceNumberLength largestObserved
  return { entropyHash := entropyHash, largestObserved := largestObserved,
           deltaTimeLargestObserved := readDeltaTime (fromUFloat16 delta),
           missingPackets := missing, isTruncated := isTruncated }

def processSentInfo (framer : Framer) (header : QuicPacketHeader) : Read SentPacketInfo := do
  let entropyHash ← readByte "Unable to read entropy hash for sent packets."
  if framer.quicVersion.number ≤ 11 then
    let leastUnacked ← processPacketSequenceNumber framer.lastSequenceNumber .packet6Byte
      "Unable to read least unacked."
    return { entropyHash := entropyHash, leastUnacked := leastUnacked }
  else
    let leastUnackedDelta ← Parser.uint header.sequenceNumberLength.size
      "Unable to read least unacked delta."
    return { entropyHash := entropyHash,
             leastUnacked := sub64 header.packetSequenceNumber leastUnackedDelta }

def processReceived (framer : Framer) (frameType : Byte) : Read ReceivedPacketInfo :=
  if framer.quicVersion.number ≤ 11 then processReceivedInfoV11 framer.lastSequenceNumber
  else processReceivedInfo frameType

def processAckFrame (framer : Framer) (header : QuicPacketHeader) (frameType : Byte) :
    Read QuicAckFrame := do
  let sentInfo ← processSentInfo framer header
  let receivedInfo ← processReceived framer frameType
  return { sentInfo := sentInfo, receivedInfo := receivedInfo }

/-- The packets after the smallest one. -/
def readReceivedPackets (smallestReceived : ℕ) (timeReceived : BitVec 64) :
    ℕ → SortedMap ℕ (BitVec 64) → Read (SortedMap ℕ (BitVec 64))
  | 0, times => pure times
  | count + 1, times => do
    let sequenceDelta ← Parser.uint 2 "Unable to read sequence delta in received packets."
    let timeDelta ← Parser.uint 4 "Unable to read time delta in received packets."
    readReceivedPackets smallestReceived timeReceived count
      (times.insert ((smallestReceived + sequenceDelta) % 2 ^ 64)
        (timeReceived + (BitVec.ofNat 32 timeDelta).signExtend 64))

def processInterArrival (framer : Framer) : Read (SortedMap ℕ (BitVec 64)) := do
  let numReceivedPackets ← Parser.uint 1 "Unable to read num received packets."
  if numReceivedPackets > 0 then
    let smallestReceived ← processPacketSequenceNumber framer.lastSequenceNumber .packet6Byte
      "Unable to read smallest received."
    let timeReceived ← Parser.uint 8 "Unable to read time received."
    let timeReceived := framer.creationTime + BitVec.ofNat 64 timeReceived
    readReceivedPackets smallestReceived timeReceived (numReceivedPackets - 1)
      (SortedMap.insert ∅ smallestReceived timeReceived)
  else return ∅

def processQuicCongestionFeedbackFrame (framer : Framer) : Read QuicCongestionFeedbackFrame := do
  let feedbackType ← Parser.uint 1 "Unable to read congestion feedback type."
  if feedbackType = 1 then
    let lost ← Parser.uint 2 "Unable to read accumulated number of lost packets."
    let times ← processInterArrival framer
    return .interArrival (BitVec.ofNat 16 lost) times
  else if feedbackType = 2 then
    let bitrate ← Parser.uint 4 "Unable to read bitrate."
    return .fixRate (bitrate * 8)
  else if feedbackType = 0 then
    let lost ← Parser.uint 2 "Unable to read accumulated number of lost packets."
    let receiveWindow ← Parser.uint 2 "Unable to read receive window."
    return .tcp (BitVec.ofNat 16 lost) (receiveWindow <<< 4)
  else Parser.fail "Illegal congestion feedback type."

/-- An error code that is below `bound`. -/
def checkErrorCode (bound : ℕ) (errorCode : ℕ) (error : String) : Read (Fin bound) :=
  if h : errorCode < bound then pure ⟨errorCode, h⟩ else Parser.fail error

def processRstStreamFrame : Read QuicRstStreamFrame := do
  let streamId ← Parser.uint 4 "Unable to read stream_id."
  let errorCode ← Parser.uint 4 "Unable to read rst stream error code."
  let errorCode ← checkErrorCode 7 errorCode "Invalid rst stream error code."
  let errorDetails ← readStringPiece16 "Unable to read rst stream error details."
  return { streamId := BitVec.ofNat 32 streamId, errorCode := errorCode,
           errorDetails := errorDetails }

/-- Version 12 does not send an ack with the frame. -/
def processCloseAck (framer : Framer) : Read QuicAckFrame :=
  if framer.quicVersion.number ≤ 11 then processAckFrame framer {} 0 else pure {}

def processConnectionCloseFrame (framer : Framer) : Read QuicConnectionCloseFrame := do
  let errorCode ← Parser.uint 4 "Unable to read connection close error code."
  let errorCode ← checkErrorCode 54 errorCode "Invalid error code."
  let errorDetails ← readStringPiece16 "Unable to read connection close error details."
  let ackFrame ← processCloseAck framer
  return { errorCode := errorCode, errorDetails := errorDetails, ackFrame := ackFrame }

def processGoAwayFrame : Read QuicGoAwayFrame := do
  let errorCode ← Parser.uint 4 "Unable to read go away error code."
  let errorCode ← checkErrorCode 54 errorCode "Invalid error code."
  let streamId ← Parser.uint 4 "Unable to read last good stream id."
  let reasonPhrase ← readStringPiece16 "Unable to read goaway reason."
  return { errorCode := errorCode, lastGoodStreamId := BitVec.ofNat 32 streamId,
           reasonPhrase := reasonPhrase }

/-- The frames that were reported to the visitor, and the error that was raised. -/
structure Outcome where
  frames : List QuicFrame
  error : Option (QuicErrorCode × String)
  deriving DecidableEq

/-- What the loop does with a type byte. A visitor that goes on is told of the frames. -/
inductive FrameHandler
  | done
  | illegal
  | frame (error : QuicErrorCode) (read : Read (List QuicFrame))

def frameHandler (framer : Framer) (header : QuicPacketHeader) (frameType : Byte) :
    FrameHandler :=
  if frameType &&& kQuicFrameTypeSpecialMask ≠ 0 then
    if frameType &&& kQuicFrameTypeStreamMask ≠ 0 then
      .frame quicInvalidStreamData ((fun f => [.stream f]) <$> processStreamFrame frameType)
    else if frameType &&& kQuicFrameTypeAckMask ≠ 0 then
      .frame quicInvalidAckData ((fun f => [.ack f]) <$> processAckFrame framer header frameType)
    else if frameType &&& kQuicFrameTypeCongestionFeedbackMask ≠ 0 then
      .frame quicInvalidCongestionFeedbackData
        ((fun f => [.congestionFeedback f]) <$> processQuicCongestionFeedbackFrame framer)
    else .illegal
  else if frameType = 0 then .done
  else if frameType = 1 then
    .frame quicInvalidRstStreamData ((fun f => [.rstStream f]) <$> processRstStreamFrame)
  else if frameType = 2 then
    .frame quicInvalidConnectionCloseData
      ((fun f => (if framer.quicVersion.number ≤ 11 then [.ack f.ackFrame] else []) ++
        [.connectionClose f]) <$> processConnectionCloseFrame framer)
  else if frameType = 3 then
    .frame quicInvalidGoAwayData ((fun f => [.goAway f]) <$> processGoAwayFrame)
  else .illegal

/-- The loop until nothing is left. Each turn takes the type byte at least, so that the length of
the payload is enough `fuel`. -/
def processFrames (framer : Framer) (header : QuicPacketHeader) : ℕ → List Byte → Outcome
  | _, [] => ⟨[], none⟩
  | 0, _ :: _ => ⟨[], none⟩
  | fuel + 1, frameType :: input =>
    match frameHandler framer header frameType with
    | .done => ⟨[], none⟩
    | .illegal => ⟨[], some (quicInvalidFrameData, "Illegal frame type.")⟩
    | .frame error read =>
      match read input with
      | .error detail => ⟨[], some (error, detail)⟩
      | .ok (frames, rest) =>
        let outcome := processFrames framer header fuel rest
        ⟨frames ++ outcome.frames, outcome.error⟩

def processFrameData (framer : Framer) (header : QuicPacketHeader) (payload : List Byte) :
    Outcome :=
  if payload.isEmpty then ⟨[], some (quicMissingPayload, "Packet has no frames.")⟩
  else processFrames framer header payload.length payload

def processRevivedPacket (framer : Framer) (header : QuicPacketHeader) (payload : List Byte) :
    Outcome :=
  let header := { header with entropyHash := getPacketEntropyHash header }
  if payload.length > kMaxPacketSize then
    ⟨[], some (quicPacketTooLarge, "Revived packet too large.")⟩
  else processFrameData framer header payload

end Chromium.QuicFramer
