import Chromium.QuicAckFrames
import Chromium.QuicFramerRoundTrip

/-!
# The packet creator

`net/quic/quic_packet_creator.cc` without FEC: frames are queued while they fit and the queue is
written as one packet. A stream frame that ends a packet goes without its two bytes of length,
which it gets back when another frame is queued behind it.
-/
namespace Chromium.QuicPacketCreator

open WireFormat QuicFramer

def kDefaultMaxPacketSize : ℕ := 1200

def kCryptoStreamId : BitVec 32 := 1

structure Options where
  maxPacketLength : ℕ := kDefaultMaxPacketSize
  sendGuidLength : QuicGuidLength := .packet8Byte
  sendSequenceNumberLength : QuicSequenceNumberLength := .packet1Byte

/-- What does not change while packets are filled. The encrypters of the framer are given by their
`GetMaxPlaintextSize`, and the random booleans by the packets they are drawn for. -/
structure Config where
  framer : Framer
  encrypters : List (ℕ → ℕ) := []
  randBool : ℕ → Bool := fun _ => false
  padHandshakePackets : Bool := false
  options : Options := {}
  guid : BitVec 64 := 0
  sendVersionInPacket : Bool

structure Creator extends Config where
  sequenceNumber : ℕ := 0
  sequenceNumberLength : QuicSequenceNumberLength := .packet1Byte
  packetSize : ℕ := 0
  queuedFrames : List QuicFrame := []
  queuedRetransmittableFrames : Option (List QuicFrame) := none

/-- `QuicFramer::GetMaxPlaintextSize`; the subtraction is in 64 bits. -/
def getMaxPlaintextSize (encrypters : List (ℕ → ℕ)) (ciphertextSize : ℕ) : ℕ :=
  encrypters.foldl (fun minPlaintextSize encrypter =>
    if encrypter ciphertextSize < minPlaintextSize then encrypter ciphertextSize
    else minPlaintextSize) (sub64 ciphertextSize 16)

def isStream : QuicFrame → Bool
  | .stream _ => true
  | _ => false

namespace Config

def maxPlaintextSize (cfg : Config) : ℕ :=
  getMaxPlaintextSize cfg.encrypters cfg.options.maxPacketLength

/-- The header of a packet as `PacketSize` reckons it. -/
def emptyPacketSize (cfg : Config) : ℕ :=
  getPacketHeaderSize
    { guidLength := cfg.options.sendGuidLength
      versionFlag := cfg.sendVersionInPacket
      sequenceNumberLength := cfg.options.sendSequenceNumberLength }

end Config

namespace Creator

/-- The fields that `FillPacketHeader` gives a data packet; the length of the guid is the default
of the header. -/
def header (c : Creator) (packetSequenceNumber : ℕ) : QuicPacketHeader :=
  { guid := c.guid
    resetFlag := false
    versionFlag := c.sendVersionInPacket
    fecFlag := false
    packetSequenceNumber := packetSequenceNumber
    sequenceNumberLength := c.sequenceNumberLength
    entropyFlag := if packetSequenceNumber = 1 then false else c.randBool packetSequenceNumber
    isInFecGroup := false
    fecGroup := 0 }

/-- `PacketSize` measures an empty packet anew. -/
def measured (c : Creator) : Creator :=
  if c.queuedFrames.isEmpty then
    { c with
      sequenceNumberLength := c.options.sendSequenceNumberLength
      packetSize := c.emptyPacketSize }
  else c

def hasTrailingStreamFrame (c : Creator) : Bool := c.queuedFrames.getLast?.any isStream

def bytesFree (c : Creator) : ℕ :=
  let expandedPacketSize := c.measured.packetSize +
    if c.hasTrailingStreamFrame then kQuicStreamPayloadLengthSize else 0
  if expandedPacketSize ≥ c.maxPlaintextSize then 0
  else c.maxPlaintextSize - expandedPacketSize

def hasRoomForStreamFrame (c : Creator) (id : BitVec 32) (offset : BitVec 64) : Bool :=
  c.bytesFree > getMinStreamFrameSize id offset true

/-- The frame and how much of the data is in it. -/
def createStreamFrame (c : Creator) (id : BitVec 32) (data : List Byte) (offset : BitVec 64)
    (fin : Bool) : QuicStreamFrame × ℕ :=
  if data.isEmpty then (⟨id, true, offset, []⟩, 0)
  else
    let minFrameSize := getMinStreamFrameSize id offset false
    let bytesConsumed :=
      if data.length + minFrameSize > c.bytesFree then
        min (sub64 c.bytesFree (getMinStreamFrameSize id offset true)) data.length
      else data.length
    (⟨id, fin && bytesConsumed = data.length, offset, data.take bytesConsumed⟩, bytesConsumed)

def shouldRetransmit : QuicFrame → Bool
  | .ack _ | .congestionFeedback _ | .padding => false
  | _ => true

/-- Whether the frame was queued. -/
def addFrame (c : Creator) (frame : QuicFrame) (saveRetransmittableFrames : Bool) :
    Bool × Creator :=
  let frameLen := getSerializedFrameLength c.framer.quicVersion frame c.bytesFree
    c.queuedFrames.isEmpty true c.options.sendSequenceNumberLength
  let c := c.measured
  if frameLen = 0 then (false, c)
  else (true, { c with
    packetSize := c.packetSize + frameLen +
      if c.hasTrailingStreamFrame then kQuicStreamPayloadLengthSize else 0
    queuedFrames := c.queuedFrames ++ [frame]
    queuedRetransmittableFrames :=
      if saveRetransmittableFrames && shouldRetransmit frame then
        some (c.queuedRetransmittableFrames.getD [] ++ [frame])
      else c.queuedRetransmittableFrames })

def addSavedFrame (c : Creator) (frame : QuicFrame) : Bool × Creator := c.addFrame frame true

def isHandshake : QuicFrame → Bool
  | .stream frame => frame.streamId = kCryptoStreamId
  | _ => false

def maybeAddPadding (c : Creator) : Creator :=
  if c.bytesFree = 0 then c.measured
  else if c.queuedFrames.any isHandshake then (c.addFrame .padding false).2
  else c.measured

end Creator

/-- What was asked of the framer for a packet, and what it made of it. -/
structure Packet where
  header : QuicPacketHeader
  frames : List QuicFrame
  packetSize : ℕ
  serialized : Option SerializedPacket
  retransmittableFrames : Option (List QuicFrame)

namespace Creator

def serializePacket (c : Creator) : Packet × Creator :=
  let packetSequenceNumber := (c.sequenceNumber + 1) % 2 ^ 64
  let header := c.header packetSequenceNumber
  let c := { c with sequenceNumber := packetSequenceNumber }
  let c := if c.padHandshakePackets then c.maybeAddPadding else c
  ({ header := header
     frames := c.queuedFrames
     packetSize := c.packetSize
     serialized := buildDataPacket c.framer header c.queuedFrames c.packetSize
     retransmittableFrames := c.queuedRetransmittableFrames },
    { c with packetSize := 0, queuedFrames := [], queuedRetransmittableFrames := none })

end Creator

/-! ### Packing a stream -/

inductive PackError
  | outOfFuel
  | frameNotAdded
  deriving DecidableEq

/-- The packet that is still open. -/
def flush (c : Creator) : List Packet × Creator :=
  if c.queuedFrames.isEmpty then ([], c)
  else ([c.serializePacket.1], c.serializePacket.2)

/-- Packs what remains of the data and the fin: a frame is queued while there is room for one, and
otherwise the packet is written. -/
def packStream (id : BitVec 32) :
    ℕ → Creator → List Byte → BitVec 64 → Bool → Except PackError (List Packet × Creator)
  | fuel, c, data, offset, fin =>
    if data.isEmpty && !fin then .ok (flush c)
    else
      match fuel with
      | 0 => .error .outOfFuel
      | fuel + 1 =>
        let room := c.hasRoomForStreamFrame id offset
        let c := c.measured
        if room then
          let created := c.createStreamFrame id data offset fin
          let added := c.addSavedFrame (.stream created.1)
          if added.1 then
            packStream id fuel added.2 (data.drop created.2)
              (offset + BitVec.ofNat 64 created.2) (fin && !created.1.fin)
          else .error .frameNotAdded
        else
          (packStream id fuel c.serializePacket.2 data offset fin).map fun r =>
            (c.serializePacket.1 :: r.1, r.2)

end Chromium.QuicPacketCreator
