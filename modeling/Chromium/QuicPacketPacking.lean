import Chromium.QuicPacketSizes

/-!
# Packing a stream into packets

While frames are queued the creator reckons the size of the packet. The last stream frame counts
without the length of its data, and every frame behind it pays for that.
-/
namespace Chromium.QuicPacketCreator

open WireFormat QuicFramer

namespace Creator

variable {c : Creator}

/-! ### The size of the open packet -/

lemma measured_of_nil (h : c.queuedFrames = []) :
    c.measured = { c with
      sequenceNumberLength := c.options.sendSequenceNumberLength
      packetSize := c.emptyPacketSize } := by
  rw [measured, h]
  rfl

lemma measured_of_ne_nil (h : c.queuedFrames ≠ []) : c.measured = c := by
  rw [measured, if_neg (by simpa using h)]

@[simp]
lemma queuedFrames_measured (c : Creator) : c.measured.queuedFrames = c.queuedFrames := by
  unfold measured
  split <;> rfl

@[simp]
lemma toConfig_measured (c : Creator) : c.measured.toConfig = c.toConfig := by
  unfold measured
  split <;> rfl

@[simp]
lemma measured_measured (c : Creator) : c.measured.measured = c.measured := by
  by_cases h : c.queuedFrames = []
  · rw [measured_of_nil h]
    exact measured_of_nil h
  · rw [measured_of_ne_nil h, measured_of_ne_nil h]

/-- What a stream frame at the end of the packet grows by when another frame is queued. -/
def growth (c : Creator) : ℕ :=
  if c.hasTrailingStreamFrame then kQuicStreamPayloadLengthSize else 0

lemma growth_of_nil (h : c.queuedFrames = []) : c.growth = 0 := by
  rw [growth, hasTrailingStreamFrame, h]
  rfl

@[simp]
lemma growth_measured (c : Creator) : c.measured.growth = c.growth := by
  unfold growth hasTrailingStreamFrame
  rw [queuedFrames_measured]

lemma bytesFree_eq (c : Creator) :
    c.bytesFree = c.maxPlaintextSize - (c.measured.packetSize + c.growth) := by
  show (if c.measured.packetSize + c.growth ≥ c.maxPlaintextSize then 0
    else c.maxPlaintextSize - (c.measured.packetSize + c.growth)) = _
  split <;> omega

@[simp]
lemma bytesFree_measured (c : Creator) : c.measured.bytesFree = c.bytesFree := by
  rw [bytesFree_eq, bytesFree_eq, measured_measured, growth_measured, toConfig_measured]

lemma bytesFree_of_nil (h : c.queuedFrames = []) :
    c.bytesFree = c.maxPlaintextSize - c.emptyPacketSize := by
  rw [bytesFree_eq, growth_of_nil h, measured_of_nil h, Nat.add_zero]

/-- The frames that are queued are in the size of the packet, except that what is cut off is
not. -/
structure Reckoned (c : Creator) : Prop where
  sequenceNumberLength :
    c.measured.sequenceNumberLength = c.options.sendSequenceNumberLength
  padding : ∀ f ∈ c.queuedFrames.dropLast, f ≠ .padding
  full : .padding ∈ c.queuedFrames → c.maxPlaintextSize ≤ c.measured.packetSize
  header_le : c.emptyPacketSize ≤ c.measured.packetSize
  size : (∀ f ∈ c.queuedFrames, InFull c.toConfig f) →
    if .padding ∈ c.queuedFrames then
      c.emptyPacketSize + framesLength c.framer.quicVersion c.options.sendSequenceNumberLength
        c.queuedFrames < c.measured.packetSize
    else c.measured.packetSize = c.emptyPacketSize +
      framesLength c.framer.quicVersion c.options.sendSequenceNumberLength c.queuedFrames

lemma reckoned_of_nil (h : c.queuedFrames = []) : c.Reckoned where
  sequenceNumberLength := by rw [measured_of_nil h]
  padding := by simp [h]
  full := by simp [h]
  header_le := by rw [measured_of_nil h]
  size := by simp [h, measured_of_nil h, framesLength]

lemma Reckoned.measured (h : c.Reckoned) : c.measured.Reckoned where
  sequenceNumberLength := by simpa using h.sequenceNumberLength
  padding := by simpa using h.padding
  full := by simpa using h.full
  header_le := by simpa using h.header_le
  size := by simpa using h.size

/-! ### Queueing a frame -/

/-- What `AddFrame` asks the framer. -/
def frameLength (c : Creator) (frame : QuicFrame) : ℕ :=
  getSerializedFrameLength c.framer.quicVersion frame c.bytesFree c.queuedFrames.isEmpty true
    c.options.sendSequenceNumberLength

def lastLength (c : Creator) (frame : QuicFrame) : ℕ :=
  computeFrameLength c.framer.quicVersion frame true c.options.sendSequenceNumberLength

lemma frameLength_padding (c : Creator) : c.frameLength .padding = c.bytesFree := by
  rw [frameLength, getSerializedFrameLength, if_pos rfl]

lemma frameLength_of_le {frame : QuicFrame} (hne : frame ≠ .padding)
    (h : c.lastLength frame ≤ c.bytesFree) : c.frameLength frame = c.lastLength frame := by
  rw [frameLength, getSerializedFrameLength, if_neg hne]
  exact if_neg (not_lt.mpr h)

/-- Behind other frames a frame that is too long is turned down. -/
lemma frameLength_of_lt {frame : QuicFrame} (hne : frame ≠ .padding)
    (h : c.bytesFree < c.lastLength frame) :
    c.frameLength frame =
      if c.queuedFrames.isEmpty then
        if canTruncate c.framer.quicVersion frame c.bytesFree then c.bytesFree
        else c.lastLength frame
      else 0 := by
  have hlong : computeFrameLength c.framer.quicVersion frame true
      c.options.sendSequenceNumberLength > c.bytesFree := h
  rw [frameLength, getSerializedFrameLength, if_neg hne]
  simp only [hlong, if_true]
  cases c.queuedFrames.isEmpty <;> rfl

lemma addFrame_of_zero {frame : QuicFrame} (h : c.frameLength frame = 0) (save : Bool) :
    c.addFrame frame save = (false, c.measured) := if_pos h

lemma addFrame_of_pos {frame : QuicFrame} (h : c.frameLength frame ≠ 0) (save : Bool) :
    (c.addFrame frame save).1 = true ∧
      (c.addFrame frame save).2.toConfig = c.toConfig ∧
      (c.addFrame frame save).2.queuedFrames = c.queuedFrames ++ [frame] ∧
      (c.addFrame frame save).2.sequenceNumberLength = c.measured.sequenceNumberLength ∧
      (c.addFrame frame save).2.packetSize =
        c.measured.packetSize + c.frameLength frame + c.growth := by
  have hadd : c.addFrame frame save = _ := if_neg h
  rw [hadd]
  simp only [queuedFrames_measured, toConfig_measured, true_and, ← growth_measured c]
  trivial

/-- Nothing is queued behind padding. -/
lemma Reckoned.not_mem_padding (h : c.Reckoned) {frame : QuicFrame}
    (hlength : c.frameLength frame ≠ 0) : .padding ∉ c.queuedFrames := by
  intro hmem
  have hfree : c.bytesFree = 0 := by
    have := h.full hmem
    rw [bytesFree_eq]
    omega
  have hqueue : c.queuedFrames.isEmpty = false := by
    cases hframes : c.queuedFrames with
    | nil => rw [hframes] at hmem; cases hmem
    | cons f frames => rfl
  apply hlength
  by_cases hne : frame = .padding
  · rw [hne, frameLength_padding, hfree]
  · have hpos : 0 < c.lastLength frame := computeFrameLength_pos hne true _
    rw [frameLength_of_lt hne (by omega), hqueue]
    rfl

/-- A frame that is not cut off counts with its whole length. -/
lemma frameLength_of_inFull {frame : QuicFrame} (hne : frame ≠ .padding)
    (hfull : InFull c.toConfig frame) (hlength : c.frameLength frame ≠ 0) :
    c.frameLength frame = c.lastLength frame := by
  by_cases hle : c.lastLength frame ≤ c.bytesFree
  · exact frameLength_of_le hne hle
  · rw [not_le] at hle
    have hlt := frameLength_of_lt hne hle
    by_cases hqueue : c.queuedFrames = []
    · rw [hlt, hqueue]
      have hfree := bytesFree_of_nil hqueue
      -- what could be cut off has room in a packet of its own
      have hnot : canTruncate c.framer.quicVersion frame c.bytesFree = false := by
        unfold lastLength at hle
        cases frame with
        | ack f =>
          have hfits := hfull.1
          omega
        | connectionClose f =>
          have hfits := hfull.1
          omega
        | _ => rfl
      rw [hnot]
      rfl
    · rw [hlt, if_neg (by simpa using hqueue)] at hlength
      exact absurd rfl hlength

lemma Reckoned.addFrame (h : c.Reckoned) (frame : QuicFrame) (save : Bool) :
    (c.addFrame frame save).2.Reckoned := by
  by_cases hlength : c.frameLength frame = 0
  · rw [addFrame_of_zero hlength]
    exact h.measured
  · obtain ⟨-, hconfig, hqueue, hnumber, hsize⟩ := addFrame_of_pos hlength save
    set d := (c.addFrame frame save).2
    have hnot := h.not_mem_padding hlength
    have hmeasured : d.measured = d := measured_of_ne_nil (by rw [hqueue]; simp)
    have hmem : .padding ∈ d.queuedFrames ↔ frame = .padding := by
      rw [hqueue, List.mem_append, List.mem_singleton, or_iff_right hnot, eq_comm]
    exact
      { sequenceNumberLength := by
          rw [hmeasured, hnumber, hconfig, h.sequenceNumberLength]
        padding := by
          rw [hqueue, List.dropLast_concat]
          exact fun f hf heq => hnot (heq ▸ hf)
        full := by
          intro hpadding
          rw [hmem] at hpadding
          rw [hpadding, frameLength_padding, bytesFree_eq] at hsize hlength
          rw [hmeasured, hconfig]
          omega
        header_le := by
          have := h.header_le
          rw [hmeasured, hconfig]
          omega
        size := by
          intro hfull
          rw [hconfig, hqueue, List.forall_mem_append, List.forall_mem_singleton] at hfull
          have hbefore := h.size hfull.1
          rw [if_neg hnot] at hbefore
          have hgrowth : framesLength c.framer.quicVersion c.options.sendSequenceNumberLength
              d.queuedFrames = framesLength c.framer.quicVersion
                c.options.sendSequenceNumberLength c.queuedFrames + c.growth +
                  c.lastLength frame := by
            rw [hqueue]
            exact framesLength_concat _ _ _ _
          simp only [hmem]
          rw [hmeasured, hconfig, hgrowth, hsize, hbefore]
          by_cases hpadding : frame = .padding
          · have hnone : c.lastLength .padding = 0 := rfl
            rw [if_pos hpadding, hpadding, hnone]
            rw [hpadding] at hlength
            omega
          · rw [if_neg hpadding, frameLength_of_inFull hpadding hfull.2 hlength]
            omega }

/-- A frame that fits keeps the packet within its limit. -/
lemma addFrame_le (hlength : c.frameLength frame ≠ 0) (hle : c.frameLength frame ≤ c.bytesFree)
    (save : Bool) : (c.addFrame frame save).2.packetSize ≤ c.maxPlaintextSize := by
  obtain ⟨-, -, -, -, hsize⟩ := addFrame_of_pos hlength save
  rw [bytesFree_eq] at hle
  omega

/-! ### Writing a packet -/

/-- The frames that were queued, without the padding that may stand behind them. -/
def dataFrames (frames : List QuicFrame) : List QuicFrame := frames.filter (· ≠ .padding)

/-- The packet before it is written: with padding behind it, when that is asked for. -/
lemma maybeAddPadding_spec (h : c.Reckoned) :
    c.maybeAddPadding.Reckoned ∧ c.maybeAddPadding.toConfig = c.toConfig ∧
      dataFrames c.maybeAddPadding.queuedFrames = dataFrames c.queuedFrames ∧
      (c.queuedFrames ≠ [] → c.maybeAddPadding.queuedFrames ≠ []) ∧
      (c.measured.packetSize ≤ c.maxPlaintextSize →
        c.maybeAddPadding.measured.packetSize ≤ c.maxPlaintextSize) := by
  have hmeasured : c.measured.Reckoned ∧ c.measured.toConfig = c.toConfig ∧
      dataFrames c.measured.queuedFrames = dataFrames c.queuedFrames ∧
      (c.queuedFrames ≠ [] → c.measured.queuedFrames ≠ []) ∧
      (c.measured.packetSize ≤ c.maxPlaintextSize →
        c.measured.measured.packetSize ≤ c.maxPlaintextSize) := by
    simpa using h.measured
  unfold maybeAddPadding
  split_ifs with hfree hhandshake
  · exact hmeasured
  · have hlength : c.frameLength .padding ≠ 0 := by rwa [frameLength_padding]
    obtain ⟨-, hconfig, hqueue, -, -⟩ := addFrame_of_pos hlength false
    have hne : (c.addFrame .padding false).2.queuedFrames ≠ [] := by
      rw [hqueue]
      simp
    refine ⟨h.addFrame .padding false, hconfig, ?_, fun _ => hne, fun _ => ?_⟩
    · rw [hqueue]
      simp [dataFrames]
    · rw [measured_of_ne_nil hne]
      exact addFrame_le hlength (frameLength_padding c).le false
  · exact hmeasured

end Creator

/-- A packet keeps to the limit, what is written of it keeps to its size, and it fills that size
when its frames are written in full. -/
structure Packet.Sized (cfg : Config) (p : Packet) : Prop where
  size_le : p.packetSize ≤ cfg.maxPlaintextSize
  length_le : ∀ packet, p.serialized = some packet → packet.packet.length ≤ p.packetSize
  filled : (∀ f ∈ p.frames, InFull cfg f) →
    ∃ packet, p.serialized = some packet ∧ packet.packet.length = p.packetSize

namespace Creator

variable {c : Creator}

lemma maxPlaintextSize_lt (cfg : Config) : cfg.maxPlaintextSize < 2 ^ 64 := by
  have hstart : sub64 cfg.options.maxPacketLength 16 < 2 ^ 64 := Nat.mod_lt _ (by decide)
  unfold Config.maxPlaintextSize getMaxPlaintextSize
  generalize sub64 cfg.options.maxPacketLength 16 = size at hstart ⊢
  induction cfg.encrypters generalizing size with
  | nil => exact hstart
  | cons encrypter encrypters ih =>
    rw [List.foldl_cons]
    apply ih
    split <;> omega

/-- `FillPacketHeader` leaves the length of the guid at eight bytes. -/
lemma getPacketHeaderSize_header (h : c.Reckoned) (hne : c.queuedFrames ≠ [])
    (hguid : c.options.sendGuidLength = .packet8Byte) (number : ℕ) :
    getPacketHeaderSize (c.header number) = c.emptyPacketSize := by
  have hlength := h.sequenceNumberLength
  rw [measured_of_ne_nil hne] at hlength
  simp only [getPacketHeaderSize, header, Config.emptyPacketSize, hguid, hlength]

/-- The creator at the moment when the framer is asked for the packet. -/
def closed (c : Creator) : Creator :=
  let numbered := { c with sequenceNumber := (c.sequenceNumber + 1) % 2 ^ 64 }
  if c.padHandshakePackets then numbered.maybeAddPadding else numbered

lemma serializePacket_eq (c : Creator) :
    let header := c.header ((c.sequenceNumber + 1) % 2 ^ 64)
    c.serializePacket =
      ({ header := header
         frames := c.closed.queuedFrames
         packetSize := c.closed.packetSize
         serialized := buildDataPacket c.closed.framer header c.closed.queuedFrames
           c.closed.packetSize
         retransmittableFrames := c.closed.queuedRetransmittableFrames },
        { c.closed with
          packetSize := 0
          queuedFrames := []
          queuedRetransmittableFrames := none }) := rfl

lemma closed_spec (h : c.Reckoned) (hne : c.queuedFrames ≠ []) :
    c.closed.Reckoned ∧ c.closed.toConfig = c.toConfig ∧
      dataFrames c.closed.queuedFrames = dataFrames c.queuedFrames ∧
      c.closed.queuedFrames ≠ [] ∧
      (c.packetSize ≤ c.maxPlaintextSize → c.closed.packetSize ≤ c.maxPlaintextSize) := by
  set numbered : Creator := { c with sequenceNumber := (c.sequenceNumber + 1) % 2 ^ 64 }
    with hnumbered
  have hmeasured : numbered.measured = numbered := measured_of_ne_nil hne
  have hreckoned : numbered.Reckoned := by
    obtain ⟨hlength, hpadding, hfull, hheader, hsize⟩ := h
    rw [measured_of_ne_nil hne] at hlength hfull hheader hsize
    exact
      { sequenceNumberLength := hmeasured.symm ▸ hlength
        padding := hpadding
        full := hmeasured.symm ▸ hfull
        header_le := hmeasured.symm ▸ hheader
        size := hmeasured.symm ▸ hsize }
  have hclosed : c.closed =
      if c.padHandshakePackets then numbered.maybeAddPadding else numbered := rfl
  rw [hclosed]
  split
  next =>
    obtain ⟨hpadded, hconfig, hframes, hqueue, hle⟩ := maybeAddPadding_spec hreckoned
    rw [hmeasured, measured_of_ne_nil (hqueue hne)] at hle
    exact ⟨hpadded, hconfig, hframes, hqueue hne, hle⟩
  next => exact ⟨hreckoned, rfl, rfl, hne, id⟩

lemma serializePacket_spec (h : c.Reckoned) (hne : c.queuedFrames ≠ [])
    (hguid : c.options.sendGuidLength = .packet8Byte) :
    c.serializePacket.2.queuedFrames = [] ∧ c.serializePacket.2.toConfig = c.toConfig ∧
      dataFrames c.serializePacket.1.frames = dataFrames c.queuedFrames ∧
      (c.measured.packetSize ≤ c.maxPlaintextSize →
        c.serializePacket.1.Sized c.toConfig) := by
  obtain ⟨hclosed, hconfig, hframes, hqueue, hle⟩ := closed_spec h hne
  have hheader := getPacketHeaderSize_header h hne hguid ((c.sequenceNumber + 1) % 2 ^ 64)
  have hnumber : (c.header ((c.sequenceNumber + 1) % 2 ^ 64)).sequenceNumberLength =
      c.options.sendSequenceNumberLength := by
    have hlength := h.sequenceNumberLength
    rwa [measured_of_ne_nil hne] at hlength
  have hmeasured := measured_of_ne_nil hqueue
  rw [serializePacket_eq]
  refine ⟨rfl, hconfig, hframes, ?_⟩
  intro hlimit
  rw [measured_of_ne_nil hne] at hlimit
  have hsmall := maxPlaintextSize_lt c.toConfig
  constructor
  · exact hle hlimit
  · intro packet hpacket
    apply length_buildDataPacket_le hpacket
    have hheader_le := hclosed.header_le
    rw [hmeasured, hconfig] at hheader_le
    rw [hheader]
    exact hheader_le
  · intro hfull
    have hsize := hclosed.size (hconfig ▸ hfull)
    rw [hmeasured, hconfig] at hsize
    dsimp only
    rw [hconfig]
    apply buildDataPacket_inFull hfull hclosed.padding (lt_of_le_of_lt (hle hlimit) hsmall)
    rw [hheader, hnumber]
    exact hsize

/-! ### A frame of the stream -/

/-- With room for a frame, the next one takes some of the data or the fin, and it fits. -/
lemma createStreamFrame_spec {id : BitVec 32} {data : List Byte} {offset : BitVec 64} {fin : Bool}
    (hroom : c.hasRoomForStreamFrame id offset = true) (hsome : data ≠ [] ∨ fin = true) :
    let created := c.createStreamFrame id data offset fin
    created.1.streamId = id ∧ created.1.offset = offset ∧
      created.1.data = data.take created.2 ∧ created.1.data.length = created.2 ∧
      created.1.fin = (fin && (data.drop created.2).isEmpty) ∧
      (data ≠ [] → 0 < created.2) ∧
      c.lastLength (.stream created.1) ≤ c.bytesFree := by
  intro created
  have hmin : getMinStreamFrameSize id offset true < c.bytesFree := by
    simpa [hasRoomForStreamFrame] using hroom
  by_cases hdata : data = []
  · have hfin : fin = true := hsome.resolve_left (absurd hdata)
    have hcreated : created = (⟨id, true, offset, []⟩, 0) := if_pos (by simp [hdata])
    rw [hcreated, hdata, hfin]
    refine ⟨rfl, rfl, rfl, rfl, rfl, fun hne => absurd rfl hne, ?_⟩
    show getMinStreamFrameSize id offset true + 0 ≤ c.bytesFree
    omega
  · have hlong : getMinStreamFrameSize id offset false =
        getMinStreamFrameSize id offset true + 2 := rfl
    have hfree : c.bytesFree < 2 ^ 64 := by
      have := maxPlaintextSize_lt c.toConfig
      rw [bytesFree_eq]
      omega
    have hsub : sub64 c.bytesFree (getMinStreamFrameSize id offset true) =
        c.bytesFree - getMinStreamFrameSize id offset true := by
      rw [sub64]
      omega
    have hpos : 0 < data.length := List.length_pos_of_ne_nil hdata
    obtain ⟨n, hn⟩ : ∃ n, n = if data.length + getMinStreamFrameSize id offset false > c.bytesFree
        then min (sub64 c.bytesFree (getMinStreamFrameSize id offset true)) data.length
        else data.length := ⟨_, rfl⟩
    have hcreated : created = (⟨id, fin && n = data.length, offset, data.take n⟩, n) := by
      rw [hn]
      exact if_neg (by simpa using hdata)
    rw [hsub, hlong] at hn
    have hbounds : 0 < n ∧ n ≤ data.length ∧
        getMinStreamFrameSize id offset true + n ≤ c.bytesFree := by
      split at hn <;> omega
    have hall : decide (n = data.length) = (data.drop n).isEmpty := by
      rw [Bool.eq_iff_iff, decide_eq_true_iff, List.isEmpty_iff, List.drop_eq_nil_iff]
      omega
    have hlength : (data.take n).length = n := by
      rw [List.length_take]
      omega
    rw [hcreated, hall]
    refine ⟨rfl, rfl, rfl, hlength, rfl, fun _ => hbounds.1, ?_⟩
    show getMinStreamFrameSize id offset true + (data.take n).length ≤ c.bytesFree
    omega

lemma hasRoomForStreamFrame_measured (c : Creator) (id : BitVec 32) (offset : BitVec 64) :
    c.measured.hasRoomForStreamFrame id offset = c.hasRoomForStreamFrame id offset := by
  rw [hasRoomForStreamFrame, hasRoomForStreamFrame, bytesFree_measured]

end Creator

/-! ### The whole stream -/

/-- The frames carry the data from the offset on, slice by slice, and the last one has the fin. -/
structure Slices (id : BitVec 32) (offset : BitVec 64) (data : List Byte) (fin : Bool)
    (sent : List QuicStreamFrame) : Prop where
  data_eq : sent.flatMap (·.data) = data
  frame : ∀ front f back, sent = front ++ f :: back → f.streamId = id ∧
    f.offset = offset + BitVec.ofNat 64 (front.flatMap (·.data)).length ∧
    (f.fin = true ↔ fin = true ∧ back = [])
  fin_sent : fin = true → sent ≠ []
  nothing : data = [] → fin = false → sent = []

lemma slices_nil (id : BitVec 32) (offset : BitVec 64) : Slices id offset [] false [] where
  data_eq := rfl
  frame front f back h := by simp at h
  fin_sent h := by cases h
  nothing _ _ := rfl

lemma Slices.cons {id : BitVec 32} {f : QuicStreamFrame} {rest : List Byte} {fin : Bool}
    {sent : List QuicStreamFrame} (hid : f.streamId = id) (hfin : f.fin = (fin && rest.isEmpty))
    (hsome : f.data ++ rest ≠ [] ∨ fin = true)
    (h : Slices id (f.offset + BitVec.ofNat 64 f.data.length) rest (fin && !f.fin) sent) :
    Slices id f.offset (f.data ++ rest) fin (f :: sent) := by
  -- the frame with the fin is the last one
  have hlast : f.fin = true ↔ fin = true ∧ sent = [] := by
    constructor
    · intro hf
      rw [hf] at hfin h
      rw [eq_comm, Bool.and_eq_true, List.isEmpty_iff] at hfin
      exact ⟨hfin.1, h.nothing hfin.2 (by simp)⟩
    · intro ⟨hf, hsent⟩
      have hrest : rest = [] := by rw [← h.data_eq, hsent]; rfl
      rw [hfin, hf, hrest]
      rfl
  constructor
  · rw [List.flatMap_cons, h.data_eq]
  · intro front g back heq
    cases front with
    | nil =>
      obtain ⟨rfl, rfl⟩ := List.cons.inj heq
      exact ⟨hid, by simp, hlast⟩
    | cons g' front =>
      obtain ⟨rfl, hsent⟩ := List.cons.inj heq
      obtain ⟨hgid, hoffset, hgfin⟩ := h.frame front g back hsent
      have hnot : f.fin = false := by
        rw [← Bool.not_eq_true, hlast]
        intro hf
        rw [hsent] at hf
        simp at hf
      rw [hnot, Bool.not_false, Bool.and_true] at hgfin
      refine ⟨hgid, ?_, hgfin⟩
      rw [hoffset, List.flatMap_cons, List.length_append, BitVec.ofNat_add, BitVec.add_assoc]
  · intro _ hnil
    cases hnil
  · intro hnil hf
    cases hsome with
    | inl hne => exact absurd hnil hne
    | inr hf' => exact absurd (hf.symm.trans hf') (by decide)

/-- The frames and packets that packing a stream leaves. -/
structure Packed (c : Creator) (id : BitVec 32) (data : List Byte) (offset : BitVec 64) (fin : Bool)
    (packets : List Packet) (c' : Creator) : Prop where
  frames : ∃ sent, Creator.dataFrames (packets.flatMap (·.frames)) =
    Creator.dataFrames c.queuedFrames ++ sent.map .stream ∧ Slices id offset data fin sent
  sized : c.measured.packetSize ≤ c.maxPlaintextSize → ∀ p ∈ packets, p.Sized c.toConfig
  closed : c'.queuedFrames = []

/-- The rounds that are left: two for each byte and for the fin, as a round without room is
followed by one that takes something. -/
def rounds (c : Creator) (id : BitVec 32) (data : List Byte) (offset : BitVec 64) (fin : Bool) :
    ℕ :=
  2 * (data.length + fin.toNat) + if c.hasRoomForStreamFrame id offset then 0 else 1

section Stream
variable {id : BitVec 32}

lemma flush_packed {c : Creator} (h : c.Reckoned)
    (hguid : c.options.sendGuidLength = .packet8Byte) (offset : BitVec 64) :
    Packed c id [] offset false (flush c).1 (flush c).2 := by
  by_cases hne : c.queuedFrames = []
  · have hflush : flush c = ([], c) := if_pos (by simp [hne])
    rw [hflush]
    exact
      { frames := ⟨[], by simp [hne], slices_nil id offset⟩
        sized := by simp
        closed := hne }
  · have hflush : flush c = ([c.serializePacket.1], c.serializePacket.2) :=
      if_neg (by simpa using hne)
    obtain ⟨hclosed, -, hframes, hsized⟩ := Creator.serializePacket_spec h hne hguid
    rw [hflush]
    exact
      { frames := ⟨[], by simpa using hframes, slices_nil id offset⟩
        sized := by simpa using hsized
        closed := hclosed }

/-- A round with room queues a frame. -/
lemma packStream_queue {c : Creator} {data : List Byte} {offset : BitVec 64} {fin : Bool}
    (hsome : data ≠ [] ∨ fin = true) (hroom : c.hasRoomForStreamFrame id offset = true)
    (h : c.Reckoned) :
    ∃ (f : QuicStreamFrame) (rest : List Byte) (d : Creator), d.Reckoned ∧
      d.toConfig = c.toConfig ∧ d.queuedFrames = c.queuedFrames ++ [.stream f] ∧
      d.measured.packetSize ≤ d.maxPlaintextSize ∧
      f.streamId = id ∧ f.offset = offset ∧ data = f.data ++ rest ∧
      f.fin = (fin && rest.isEmpty) ∧
      rest.length + (fin && !f.fin).toNat < data.length + fin.toNat ∧
      ∀ fuel, packStream id (fuel + 1) c data offset fin = packStream id fuel d rest
        (offset + BitVec.ofNat 64 f.data.length) (fin && !f.fin) := by
  have hroom' : c.measured.hasRoomForStreamFrame id offset = true := by
    rw [Creator.hasRoomForStreamFrame_measured, hroom]
  obtain ⟨hid, hoffset, hdata, hlength, hfin, hpos, hle⟩ :=
    Creator.createStreamFrame_spec hroom' hsome
  set created := c.measured.createStreamFrame id data offset fin with hcreated
  set frame : QuicFrame := .stream created.1 with hframe
  have hne : frame ≠ .padding := by simp [hframe]
  have hframeLength := Creator.frameLength_of_le hne hle
  have hlengthPos : 0 < c.measured.lastLength frame := computeFrameLength_pos hne true _
  have hadded : c.measured.frameLength frame ≠ 0 := by omega
  obtain ⟨htrue, hconfig, hqueue, -, -⟩ := Creator.addFrame_of_pos hadded true
  rw [Creator.toConfig_measured] at hconfig
  rw [Creator.queuedFrames_measured] at hqueue
  have hlimit := Creator.addFrame_le hadded (hframeLength.trans_le hle) true
  set d := (c.measured.addFrame frame true).2 with hd
  have hmeasured : d.measured = d := Creator.measured_of_ne_nil (by rw [hqueue]; simp)
  refine ⟨created.1, data.drop created.2, d, h.measured.addFrame frame true, hconfig, hqueue, ?_,
    hid, hoffset, ?_, hfin, ?_, ?_⟩
  · rw [hmeasured, hconfig]
    simpa using hlimit
  · rw [hdata, List.take_append_drop]
  · rw [List.length_drop]
    by_cases hnil : data = []
    · have hend : fin = true := hsome.resolve_left (absurd hnil)
      rw [hfin, hend, hnil]
      simp
    · have htaken := hpos hnil
      have hall : created.2 ≤ data.length := by
        rw [← hlength, hdata, List.length_take]
        exact Nat.min_le_right _ _
      have hmore : (fin && !created.1.fin).toNat ≤ fin.toNat := by
        cases fin <;> cases created.1.fin <;> decide
      omega
  · intro fuel
    have hgoes : (data.isEmpty && !fin) = false := by
      cases hsome with
      | inl hne => simp [hne]
      | inr hend => simp [hend]
    rw [packStream, hgoes, hlength]
    simp only [Bool.false_eq_true, if_false, hroom, if_true]
    rw [← hcreated, ← hframe]
    show (if (c.measured.addFrame frame true).1 = true then _ else _) = _
    rw [htrue, if_pos rfl]
    rfl

/-- A round without room writes the packet. -/
lemma packStream_write {c : Creator} {data : List Byte} {offset : BitVec 64} {fin : Bool}
    (hsome : data ≠ [] ∨ fin = true) (hroom : c.hasRoomForStreamFrame id offset = false)
    (hne : c.queuedFrames ≠ []) (fuel : ℕ) :
    packStream id (fuel + 1) c data offset fin =
      (packStream id fuel c.serializePacket.2 data offset fin).map fun r =>
        (c.serializePacket.1 :: r.1, r.2) := by
  have hgoes : (data.isEmpty && !fin) = false := by
    cases hsome with
    | inl hne => simp [hne]
    | inr hend => simp [hend]
  rw [packStream, hgoes]
  simp only [Bool.false_eq_true, if_false, hroom, Creator.measured_of_ne_nil hne]

/-- An empty packet has room for a frame of the stream. -/
def RoomInEmptyPacket (cfg : Config) (id : BitVec 32) : Prop :=
  ∀ offset, cfg.emptyPacketSize + getMinStreamFrameSize id offset true < cfg.maxPlaintextSize

lemma hasRoom_of_nil {c : Creator} (hroom : RoomInEmptyPacket c.toConfig id)
    (hnil : c.queuedFrames = []) (offset : BitVec 64) :
    c.hasRoomForStreamFrame id offset = true := by
  have := hroom offset
  rw [Creator.hasRoomForStreamFrame, Creator.bytesFree_of_nil hnil, decide_eq_true_iff]
  omega

lemma packStream_done (c : Creator) (offset : BitVec 64) (fuel : ℕ) :
    packStream id fuel c [] offset false = .ok (flush c) := by
  cases fuel <;> rfl

/-- Packing ends after so many rounds, whatever is queued. -/
lemma packStream_packed {n : ℕ} {c : Creator} {data : List Byte} {offset : BitVec 64} {fin : Bool}
    (h : c.Reckoned) (hguid : c.options.sendGuidLength = .packet8Byte)
    (hroom : RoomInEmptyPacket c.toConfig id) (hrounds : rounds c id data offset fin ≤ n) :
    ∃ packets c', (∀ fuel, n ≤ fuel →
        packStream id fuel c data offset fin = .ok (packets, c')) ∧
      Packed c id data offset fin packets c' := by
  induction n generalizing c data offset fin with
  | zero =>
    have hdata : data = [] := List.length_eq_zero_iff.mp (by unfold rounds at hrounds; omega)
    have hfin : fin = false := by
      cases fin with
      | false => rfl
      | true => simp [rounds] at hrounds
    rw [hdata, hfin]
    exact ⟨_, _, fun fuel _ => packStream_done c offset fuel, flush_packed h hguid offset⟩
  | succ n ih =>
    by_cases hdone : data = [] ∧ fin = false
    · rw [hdone.1, hdone.2]
      exact ⟨_, _, fun fuel _ => packStream_done c offset fuel, flush_packed h hguid offset⟩
    have hsome : data ≠ [] ∨ fin = true := by
      rw [not_and_or, Bool.not_eq_false] at hdone
      exact hdone
    by_cases hfree : c.hasRoomForStreamFrame id offset = true
    · obtain ⟨f, rest, d, hreckoned, hconfig, hqueue, hlimit, hid, rfl, rfl, hfin, hless, hstep⟩ :=
        packStream_queue hsome hfree h
      have hless' : rounds d id rest (f.offset + BitVec.ofNat 64 f.data.length) (fin && !f.fin) ≤
          n := by
        unfold rounds at hrounds ⊢
        split <;> omega
      obtain ⟨packets, c', hruns, hpacked⟩ := ih hreckoned (hconfig ▸ hguid) (hconfig ▸ hroom)
        hless'
      obtain ⟨sent, hframes, hslices⟩ := hpacked.frames
      refine ⟨packets, c', ?_, ?_⟩
      · intro fuel hfuel
        obtain ⟨k, rfl⟩ : ∃ k, fuel = k + 1 := ⟨fuel - 1, by omega⟩
        rw [hstep, hruns k (by omega)]
      · exact
          { frames := by
              refine ⟨f :: sent, ?_, hslices.cons hid hfin hsome⟩
              rw [hframes, hqueue]
              simp [Creator.dataFrames]
            sized := fun _ => hconfig ▸ hpacked.sized hlimit
            closed := hpacked.closed }
    · rw [Bool.not_eq_true] at hfree
      have hne : c.queuedFrames ≠ [] := by
        intro hnil
        rw [hasRoom_of_nil hroom hnil] at hfree
        cases hfree
      obtain ⟨hclosed, hconfig, hwritten, hsized⟩ := Creator.serializePacket_spec h hne hguid
      have hroom' : RoomInEmptyPacket c.serializePacket.2.toConfig id := hconfig ▸ hroom
      have hless : rounds c.serializePacket.2 id data offset fin ≤ n := by
        have hnext := hasRoom_of_nil hroom' hclosed offset
        unfold rounds at hrounds ⊢
        rw [hfree] at hrounds
        rw [hnext]
        simp at hrounds ⊢
        omega
      obtain ⟨packets, c', hruns, hpacked⟩ := ih (Creator.reckoned_of_nil hclosed)
        (hconfig ▸ hguid) hroom' hless
      obtain ⟨sent, hframes, hslices⟩ := hpacked.frames
      refine ⟨c.serializePacket.1 :: packets, c', ?_, ?_⟩
      · intro fuel hfuel
        obtain ⟨k, rfl⟩ : ∃ k, fuel = k + 1 := ⟨fuel - 1, by omega⟩
        rw [packStream_write hsome hfree hne, hruns k (by omega)]
        rfl
      · have hsmall : c.serializePacket.2.measured.packetSize ≤
            c.serializePacket.2.maxPlaintextSize := by
          have hfirst := hroom offset
          rw [Creator.measured_of_nil hclosed, hconfig]
          show c.emptyPacketSize ≤ c.maxPlaintextSize
          omega
        exact
          { frames := by
              refine ⟨sent, ?_, hslices⟩
              rw [hclosed] at hframes
              rw [List.flatMap_cons, ← hwritten]
              unfold Creator.dataFrames at hframes ⊢
              rw [List.filter_append, hframes]
              simp
            sized := fun hle => List.forall_mem_cons.mpr
              ⟨hsized hle, hconfig ▸ hpacked.sized hsmall⟩
            closed := hpacked.closed }

end Stream

/-- What is queued by `AddSavedFrame`; a frame that it turns down is not. -/
def queueFrames (c : Creator) (frames : List QuicFrame) : Creator :=
  frames.foldl (fun c frame => (c.addSavedFrame frame).2) c

lemma reckoned_queueFrames {c : Creator} (h : c.Reckoned) (frames : List QuicFrame) :
    (queueFrames c frames).Reckoned ∧ (queueFrames c frames).toConfig = c.toConfig := by
  induction frames generalizing c with
  | nil => exact ⟨h, rfl⟩
  | cons frame frames ih =>
    have hconfig : (c.addSavedFrame frame).2.toConfig = c.toConfig := by
      by_cases hlength : c.frameLength frame = 0
      · rw [Creator.addSavedFrame, Creator.addFrame_of_zero hlength, Creator.toConfig_measured]
      · exact (Creator.addFrame_of_pos hlength true).2.1
    rw [← hconfig]
    exact ih (h.addFrame frame true)

/-- The first of some sizes, when none of them is greater than the one instead. -/
lemma find_getD_le {sizes : List ℕ} {greatest : ℕ} (p : ℕ → Bool)
    (h : ∀ size ∈ sizes, size ≤ greatest) : (sizes.find? p).getD greatest ≤ greatest := by
  cases hfind : sizes.find? p with
  | none => exact le_rfl
  | some size => exact h size (List.mem_of_find?_eq_some hfind)

lemma getMinStreamFrameSize_le (id : BitVec 32) (offset : BitVec 64) :
    getMinStreamFrameSize id offset true ≤ 13 := by
  have hid : getStreamIdSize id ≤ 4 := find_getD_le _ (by decide)
  have hoffset : getStreamOffsetSize offset ≤ 8 := by
    unfold getStreamOffsetSize
    split
    next => omega
    next => exact find_getD_le _ (by decide)
  show 1 + getStreamIdSize id + getStreamOffsetSize offset + 0 ≤ 13
  omega

/-- Without room in an empty packet, empty packets are written for ever. -/
lemma packStream_stuck {c : Creator} {id : BitVec 32} {data : List Byte} {offset : BitVec 64}
    {fin : Bool} (hsome : data ≠ [] ∨ fin = true) (hnil : c.queuedFrames = [])
    (hpadding : c.padHandshakePackets = false)
    (hroom : c.maxPlaintextSize ≤ c.emptyPacketSize + getMinStreamFrameSize id offset true)
    (fuel : ℕ) : packStream id fuel c data offset fin = .error .outOfFuel := by
  have hgoes : (data.isEmpty && !fin) = false := by
    cases hsome with
    | inl hne => simp [hne]
    | inr hend => simp [hend]
  induction fuel generalizing c with
  | zero =>
    rw [packStream, hgoes]
    rfl
  | succ fuel ih =>
    have hfree : c.hasRoomForStreamFrame id offset = false := by
      rw [Creator.hasRoomForStreamFrame, Creator.bytesFree_of_nil hnil, decide_eq_false_iff_not]
      omega
    have hclosed : c.measured.closed.toConfig = c.toConfig := by
      rw [Creator.closed, if_neg (by simp [hpadding])]
      exact Creator.toConfig_measured c
    have hconfig : c.measured.serializePacket.2.toConfig = c.toConfig := hclosed
    have hrest : packStream id fuel c.measured.serializePacket.2 data offset fin =
        .error .outOfFuel := by
      apply ih rfl
      · rw [hconfig, hpadding]
      · rw [hconfig]
        exact hroom
    rw [packStream, hgoes]
    simp only [Bool.false_eq_true, if_false, hfree, hrest]
    rfl

/-- The sizes that were reckoned for the packets, and how long they are. -/
def packetSizes (c : Creator) (others : List QuicFrame) (id : BitVec 32) (data : List Byte) :
    Option (List (ℕ × Option ℕ)) :=
  (packStream id (2 * data.length + 3) (queueFrames c others) data 0 false).toOption.map fun r =>
    r.1.map fun p => (p.packetSize, p.serialized.map (·.packet.length))

end Chromium.QuicPacketCreator
