import Chromium.QuicFramer
import Chromium.XorSum
import Mathlib.Data.List.GetD

/-!
# Groups with a redundant packet

`net/quic/quic_fec_group.cc`: the data packets of a group and one packet with their parity,
from which any one of the data packets can be made again. The original length of a packet is
not sent, so that it comes back with the zeros that make it as long as the longest one.
-/
namespace Chromium.QuicFec

open WireFormat QuicFramer XorSum

def kNoSequenceNumber : ℕ := 2 ^ 64 - 1

/-- The bytes of the parity are not set before the first packet. -/
structure QuicFecGroup where
  receivedPackets : Finset ℕ := ∅
  minProtectedPacket : ℕ := kNoSequenceNumber
  maxProtectedPacket : ℕ := kNoSequenceNumber
  payloadParity : List Byte := List.replicate kMaxPacketSize 0
  payloadParityLen : ℕ := 0
  entropyParity : Bool := false

structure QuicFecData where
  fecGroup : ℕ
  redundancy : List Byte

namespace QuicFecGroup

/-- The group is left as it is when the payload is too long. -/
def updateParity (payload : List Byte) (entropy : Bool) (g : QuicFecGroup) :
    Option QuicFecGroup :=
  if payload.length > kMaxPacketSize then none
  else
    let g := { g with payloadParityLen := max g.payloadParityLen payload.length }
    if g.receivedPackets = ∅ ∧ g.minProtectedPacket = kNoSequenceNumber then
      some
        { g with
          payloadParity := payload ++ List.replicate (kMaxPacketSize - payload.length) 0
          entropyParity := entropy }
    else
      some
        { g with
          payloadParity := g.payloadParity.mapIdx fun i byte => byte ^^^ payload.getD i 0
          entropyParity := g.entropyParity != entropy }

/-- There is no result when `Update` returns false; the group has not changed then. -/
def update (header : QuicPacketHeader) (decryptedPayload : List Byte) (g : QuicFecGroup) :
    Option QuicFecGroup :=
  if header.packetSequenceNumber ∈ g.receivedPackets then none
  else if g.minProtectedPacket ≠ kNoSequenceNumber ∧ g.maxProtectedPacket ≠ kNoSequenceNumber ∧
      (header.packetSequenceNumber < g.minProtectedPacket ∨
        header.packetSequenceNumber > g.maxProtectedPacket) then none
  else (g.updateParity decryptedPayload header.entropyFlag).map fun g =>
    { g with receivedPackets := insert header.packetSequenceNumber g.receivedPackets }

def updateFec (fecPacketSequenceNumber : ℕ) (fecPacketEntropy : Bool) (fec : QuicFecData)
    (g : QuicFecGroup) : Option QuicFecGroup :=
  if g.minProtectedPacket ≠ kNoSequenceNumber then none
  else if ∃ p ∈ g.receivedPackets, p < fec.fecGroup ∨ p ≥ fecPacketSequenceNumber then none
  else (g.updateParity fec.redundancy fecPacketEntropy).map fun g =>
    { g with
      minProtectedPacket := fec.fecGroup
      maxProtectedPacket := sub64 fecPacketSequenceNumber 1 }

def numMissingPackets (g : QuicFecGroup) : ℕ :=
  if g.minProtectedPacket = kNoSequenceNumber then 2 ^ 64 - 1
  else sub64 (sub64 g.maxProtectedPacket g.minProtectedPacket + 1) g.receivedPackets.card

def canRevive (g : QuicFecGroup) : Bool := g.numMissingPackets = 1

/-- The first of the protected packets that was not received. -/
def missingPacket (g : QuicFecGroup) : ℕ :=
  ((List.range' g.minProtectedPacket (g.maxProtectedPacket + 1 - g.minProtectedPacket)).find?
    fun i => i ∉ g.receivedPackets).getD kNoSequenceNumber

/-- The header and the payload of the revived packet, for a buffer of `decryptedPayloadLen`
bytes. -/
def revive (header : QuicPacketHeader) (decryptedPayloadLen : ℕ) (g : QuicFecGroup) :
    Option (QuicPacketHeader × List Byte × QuicFecGroup) :=
  if ¬ g.canRevive then none
  else if g.payloadParityLen > decryptedPayloadLen then none
  else some
    ({ header with packetSequenceNumber := g.missingPacket, entropyFlag := g.entropyParity },
      g.payloadParity.take g.payloadParityLen,
      { g with receivedPackets := insert g.missingPacket g.receivedPackets })

end QuicFecGroup

/-! ### The parity of the packets that arrived -/

/-- What a packet adds to the parity. -/
structure Share where
  payload : List Byte
  entropy : Bool

section Covers
variable {ι : Type} {share : ι → Share} {arrived : Finset ι} {g : QuicFecGroup}

/-- The parity is that of these packets. -/
structure Covers (share : ι → Share) (arrived : Finset ι) (g : QuicFecGroup) : Prop where
  length_parity : g.payloadParity.length = kMaxPacketSize
  parity : ∀ j, g.payloadParity.getD j 0 = xorSum arrived fun i => (share i).payload.getD j 0
  parityLen : g.payloadParityLen = arrived.sup fun i => (share i).payload.length
  entropy : BitVec.ofBool g.entropyParity =
    xorSum arrived fun i => BitVec.ofBool (share i).entropy

lemma getD_zeros (count j : ℕ) : (List.replicate count (0 : Byte)).getD j 0 = 0 := by
  rw [List.getD_eq_getElem?_getD, List.getElem?_getD_replicate_default_eq]

lemma covers_empty (share : ι → Share) : Covers share ∅ {} where
  length_parity := List.length_replicate
  parity := by
    intro j
    rw [xorSum_empty]
    exact getD_zeros kMaxPacketSize j
  parityLen := rfl
  entropy := rfl

lemma getD_append_zeros (payload : List Byte) (count j : ℕ) :
    (payload ++ List.replicate count 0).getD j 0 = payload.getD j 0 := by
  by_cases hj : j < payload.length
  · rw [List.getD_append _ _ _ _ hj]
  · rw [List.getD_append_right _ _ _ _ (by omega), getD_zeros,
      List.getD_eq_default _ _ (by omega)]

lemma getD_xor_payload {parity payload : List Byte} (h : payload.length ≤ parity.length) (j : ℕ) :
    (parity.mapIdx fun i byte => byte ^^^ payload.getD i 0).getD j 0 =
      parity.getD j 0 ^^^ payload.getD j 0 := by
  by_cases hj : j < parity.length
  · rw [List.getD_eq_getElem _ _ (by simpa using hj), List.getElem_mapIdx,
      List.getD_eq_getElem _ _ hj]
  · rw [List.getD_eq_default _ _ (by simpa using hj), List.getD_eq_default _ _ (by omega),
      List.getD_eq_default _ _ (by omega)]
    rfl

/-- A packet that was not seen before is added to the parity. -/
lemma Covers.updateParity [DecidableEq ι] (hcovers : Covers share arrived g) {i : ι}
    (hi : i ∉ arrived) (hsize : (share i).payload.length ≤ kMaxPacketSize)
    (hempty : g.receivedPackets = ∅ ∧ g.minProtectedPacket = kNoSequenceNumber → arrived = ∅) :
    ∃ g', g.updateParity (share i).payload (share i).entropy = some g' ∧
      Covers share (insert i arrived) g' ∧ g'.receivedPackets = g.receivedPackets ∧
      g'.minProtectedPacket = g.minProtectedPacket ∧
      g'.maxProtectedPacket = g.maxProtectedPacket := by
  have hlen : max g.payloadParityLen (share i).payload.length =
      (insert i arrived).sup fun i => (share i).payload.length := by
    rw [Finset.sup_insert, hcovers.parityLen, max_comm]
  unfold QuicFecGroup.updateParity
  rw [if_neg (by omega)]
  dsimp only
  split_ifs with hfirst
  · -- the first packet is the parity
    have hnone := hempty hfirst
    subst hnone
    refine ⟨_, rfl, ⟨?_, ?_, hlen, ?_⟩, rfl, rfl, rfl⟩
    · rw [List.length_append, List.length_replicate]
      omega
    · intro j
      rw [xorSum_insert hi, xorSum_empty, BitVec.xor_zero, getD_append_zeros]
    · rw [xorSum_insert hi, xorSum_empty, BitVec.xor_zero]
  · refine ⟨_, rfl, ⟨?_, ?_, hlen, ?_⟩, rfl, rfl, rfl⟩
    · rw [List.length_mapIdx, hcovers.length_parity]
    · intro j
      rw [getD_xor_payload (by rw [hcovers.length_parity]; exact hsize), hcovers.parity,
        xorSum_insert hi, BitVec.xor_comm]
    · rw [xorSum_insert hi, ← hcovers.entropy]
      cases g.entropyParity <;> cases (share i).entropy <;> rfl

end Covers

/-! ### The group of the sender -/

/-- A data packet of a group. Its size is at least that of the header. -/
structure BuiltPacket (framer : Framer) where
  header : QuicPacketHeader
  frames : List QuicFrame
  packetSize : ℕ
  packet : SerializedPacket
  header_fits : getPacketHeaderSize header ≤ packetSize
  built : buildDataPacket framer header frames packetSize = some packet

/-- `FecProtectedData`: what comes after the header. -/
def BuiltPacket.payload {framer : Framer} (p : BuiltPacket framer) : List Byte :=
  p.packet.packet.drop (getPacketHeaderSize p.header)

/-- The packets of one group have successive numbers, and the packet with the parity has the next
one. -/
structure SentGroup (framer : Framer) where
  first : ℕ
  packets : List (BuiltPacket framer)
  nonempty : packets ≠ []
  number : ∀ i : Fin packets.length, (packets.get i).header.packetSequenceNumber = first + i
  length_payload_le : ∀ p ∈ packets, p.payload.length ≤ kMaxPacketSize
  number_lt : first + packets.length < 2 ^ 64

namespace SentGroup
variable {framer : Framer} (group : SentGroup framer)

def packet (i : Fin group.packets.length) : BuiltPacket framer := group.packets.get i

/-- The group as the sender sees it when its packets were built. -/
def sender : QuicFecGroup :=
  group.packets.foldl (fun g p => (g.update p.header p.payload).getD g) {}

def fecPacketSequenceNumber : ℕ := group.first + group.packets.length

/-- `SerializeFec`. The receiver takes the number of the group from the header. -/
def fecData : QuicFecData :=
  { fecGroup := group.first
    redundancy := group.sender.payloadParity.take group.sender.payloadParityLen }

/-- A packet reaches the receiver: one with data, or the one with the parity. -/
def receive (g : QuicFecGroup) : Option (Fin group.packets.length) → QuicFecGroup
  | some i => (g.update (group.packet i).header (group.packet i).payload).getD g
  | none => (g.updateFec group.fecPacketSequenceNumber group.sender.entropyParity
      group.fecData).getD g

/-- The group as the receiver sees it after these packets, in this order. -/
def receiver (arrivals : List (Option (Fin group.packets.length))) : QuicFecGroup :=
  arrivals.foldl group.receive {}

def share : Option (Fin group.packets.length) → Share
  | some i => ⟨(group.packet i).payload, (group.packet i).header.entropyFlag⟩
  | none => ⟨group.fecData.redundancy, group.sender.entropyParity⟩

/-- The numbers of the data packets among those that arrived. -/
def numbers (arrived : Finset (Option (Fin group.packets.length))) : Finset ℕ :=
  (Finset.univ.filter fun i => some i ∈ arrived).image fun i => group.first + i.val

lemma mem_numbers {arrived : Finset (Option (Fin group.packets.length))} {s : ℕ} :
    s ∈ group.numbers arrived ↔ ∃ i, some i ∈ arrived ∧ group.first + i.val = s := by
  simp [numbers]

lemma numbers_insert_some (arrived : Finset (Option (Fin group.packets.length)))
    (i : Fin group.packets.length) :
    group.numbers (insert (some i) arrived) =
      insert (group.first + i.val) (group.numbers arrived) := by
  ext s
  simp only [mem_numbers, Finset.mem_insert, Option.some.injEq]
  constructor
  · rintro ⟨j, rfl | hj, rfl⟩
    · exact .inl rfl
    · exact .inr ⟨j, hj, rfl⟩
  · rintro (rfl | ⟨j, hj, rfl⟩)
    · exact ⟨i, .inl rfl, rfl⟩
    · exact ⟨j, .inr hj, rfl⟩

lemma numbers_insert_none (arrived : Finset (Option (Fin group.packets.length))) :
    group.numbers (insert none arrived) = group.numbers arrived := by
  ext s
  simp [mem_numbers]

/-- The state of a group after these packets. -/
structure Received (arrived : Finset (Option (Fin group.packets.length))) (g : QuicFecGroup) :
    Prop where
  covers : Covers group.share arrived g
  receivedPackets : g.receivedPackets = group.numbers arrived
  minProtected : g.minProtectedPacket = if none ∈ arrived then group.first else kNoSequenceNumber
  maxProtected : g.maxProtectedPacket = if none ∈ arrived
    then group.fecPacketSequenceNumber - 1 else kNoSequenceNumber

lemma length_packets_pos : 0 < group.packets.length := List.length_pos_of_ne_nil group.nonempty

lemma first_ne_none : group.first ≠ kNoSequenceNumber := by
  have hpos := group.length_packets_pos
  have hlt := group.number_lt
  rw [kNoSequenceNumber]
  omega

variable {group}
variable {arrived : Finset (Option (Fin group.packets.length))} {g : QuicFecGroup}

/-- A group without packets was given none. -/
lemma Received.eq_empty (h : group.Received arrived g)
    (hempty : g.receivedPackets = ∅ ∧ g.minProtectedPacket = kNoSequenceNumber) :
    arrived = ∅ := by
  obtain ⟨hreceived, hmin⟩ := hempty
  rw [h.receivedPackets] at hreceived
  rw [h.minProtected] at hmin
  apply Finset.eq_empty_of_forall_notMem
  intro a ha
  cases a with
  | none =>
    rw [if_pos ha] at hmin
    exact group.first_ne_none hmin
  | some i =>
    have hmem : group.first + i.val ∈ group.numbers arrived :=
      group.mem_numbers.mpr ⟨i, ha, rfl⟩
    rw [hreceived] at hmem
    exact Finset.notMem_empty _ hmem

lemma Received.mem_receivedPackets_iff (h : group.Received arrived g)
    (i : Fin group.packets.length) :
    group.first + i.val ∈ g.receivedPackets ↔ some i ∈ arrived := by
  rw [h.receivedPackets, mem_numbers]
  constructor
  · rintro ⟨j, hj, hsame⟩
    have hij : j = i := Fin.ext (by omega)
    rwa [hij] at hj
  · intro hi
    exact ⟨i, hi, rfl⟩

lemma Received.data (h : group.Received arrived g) (i : Fin group.packets.length) :
    group.Received (insert (some i) arrived) (group.receive g (some i)) := by
  have hnumber : (group.packet i).header.packetSequenceNumber = group.first + i.val :=
    group.number i
  rw [receive, QuicFecGroup.update, hnumber]
  by_cases hi : some i ∈ arrived
  · rw [if_pos ((h.mem_receivedPackets_iff i).mpr hi), Finset.insert_eq_of_mem hi]
    exact h
  · have hprotected : ¬ (g.minProtectedPacket ≠ kNoSequenceNumber ∧
        g.maxProtectedPacket ≠ kNoSequenceNumber ∧ (group.first + i.val < g.minProtectedPacket ∨
          group.first + i.val > g.maxProtectedPacket)) := by
      rintro ⟨hmin, -, hrange⟩
      have hlt := i.isLt
      rw [h.minProtected] at hmin hrange
      rw [h.maxProtected, fecPacketSequenceNumber] at hrange
      split_ifs at hmin hrange
      · omega
      · exact hmin rfl
    have hsize : (group.share (some i)).payload.length ≤ kMaxPacketSize :=
      group.length_payload_le _ (List.get_mem _ _)
    obtain ⟨g', hupdate, hcovers, hreceived, hmin, hmax⟩ :=
      h.covers.updateParity hi hsize h.eq_empty
    have hshare : g.updateParity (group.packet i).payload (group.packet i).header.entropyFlag =
        some g' := hupdate
    rw [if_neg (mt (h.mem_receivedPackets_iff i).mp hi), if_neg hprotected, hshare,
      Option.map_some, Option.getD_some]
    refine ⟨⟨hcovers.length_parity, hcovers.parity, hcovers.parityLen, hcovers.entropy⟩, ?_, ?_, ?_⟩
    · rw [numbers_insert_some, ← h.receivedPackets, ← hreceived]
    · simpa using hmin.trans h.minProtected
    · simpa using hmax.trans h.maxProtected

lemma Received.fec (h : group.Received arrived g)
    (hsize : group.fecData.redundancy.length ≤ kMaxPacketSize) :
    group.Received (insert none arrived) (group.receive g none) := by
  rw [receive, QuicFecGroup.updateFec]
  by_cases hnone : none ∈ arrived
  · have hmin : g.minProtectedPacket ≠ kNoSequenceNumber := by
      rw [h.minProtected, if_pos hnone]
      exact group.first_ne_none
    rw [if_pos hmin, Finset.insert_eq_of_mem hnone]
    exact h
  · have hmin : g.minProtectedPacket = kNoSequenceNumber := by
      rw [h.minProtected, if_neg hnone]
    have hinside : ¬ ∃ p ∈ g.receivedPackets,
        p < group.fecData.fecGroup ∨ p ≥ group.fecPacketSequenceNumber := by
      rintro ⟨p, hp, hout⟩
      rw [h.receivedPackets, mem_numbers] at hp
      obtain ⟨i, -, rfl⟩ := hp
      have hlt := i.isLt
      rw [fecPacketSequenceNumber] at hout
      change group.first + i.val < group.first ∨ _ at hout
      omega
    obtain ⟨g', hupdate, hcovers, hreceived, -, -⟩ :=
      h.covers.updateParity hnone hsize h.eq_empty
    have hshare : g.updateParity group.fecData.redundancy group.sender.entropyParity =
        some g' := hupdate
    rw [if_neg (not_not.mpr hmin), if_neg hinside, hshare, Option.map_some, Option.getD_some]
    refine ⟨⟨hcovers.length_parity, hcovers.parity, hcovers.parityLen, hcovers.entropy⟩, ?_, ?_, ?_⟩
    · rw [numbers_insert_none, ← h.receivedPackets, ← hreceived]
    · rw [if_pos (Finset.mem_insert_self _ _)]
      rfl
    · have hpos := group.length_packets_pos
      have hlt := group.number_lt
      rw [if_pos (Finset.mem_insert_self _ _)]
      change sub64 (group.first + group.packets.length) 1 = group.first + group.packets.length - 1
      rw [sub64]
      omega

/-- The state after any packets, each of them any number of times. -/
lemma Received.foldl (h : group.Received arrived g)
    (arrivals : List (Option (Fin group.packets.length)))
    (hsize : none ∈ arrivals → group.fecData.redundancy.length ≤ kMaxPacketSize) :
    group.Received (arrived ∪ arrivals.toFinset) (arrivals.foldl group.receive g) := by
  induction arrivals generalizing arrived g with
  | nil => simpa using h
  | cons a arrivals ih =>
    have hstep : group.Received (insert a arrived) (group.receive g a) := by
      cases a with
      | none => exact h.fec (hsize List.mem_cons_self)
      | some i => exact h.data i
    have hrun := ih hstep fun hnone => hsize (List.mem_cons_of_mem _ hnone)
    rw [List.foldl_cons, List.toFinset_cons, Finset.union_insert, ← Finset.insert_union]
    exact hrun

lemma received_empty : group.Received ∅ {} where
  covers := covers_empty group.share
  receivedPackets := by simp [numbers]
  minProtected := rfl
  maxProtected := rfl

/-! ### The redundant packet -/

variable (group)

/-- The length of the longest payload. -/
def maxLength : ℕ := Finset.univ.sup fun i => (group.packet i).payload.length

lemma length_payload_le_maxLength (i : Fin group.packets.length) :
    (group.packet i).payload.length ≤ group.maxLength :=
  Finset.le_sup (f := fun i => (group.packet i).payload.length) (Finset.mem_univ i)

lemma maxLength_le : group.maxLength ≤ kMaxPacketSize :=
  Finset.sup_le fun _ _ => group.length_payload_le _ (List.get_mem _ _)

/-- The sender's group has seen the data packets and no more. -/
lemma received_sender :
    group.Received (Finset.univ.map Function.Embedding.some) group.sender := by
  have hempty : group.Received ∅ {} := received_empty
  have hrun := hempty.foldl ((List.finRange group.packets.length).map some) (by simp)
  have harrived : (∅ : Finset (Option (Fin group.packets.length))) ∪
      ((List.finRange group.packets.length).map some).toFinset =
        Finset.univ.map Function.Embedding.some := by
    ext a
    simp
  have hsender : ((List.finRange group.packets.length).map some).foldl group.receive {} =
      group.sender := by
    have hpackets := congrArg
      (List.foldl (fun g p => (QuicFecGroup.update p.header p.payload g).getD g) {})
      (List.map_get_finRange group.packets)
    rw [sender, ← hpackets, List.foldl_map, List.foldl_map]
    rfl
  rw [harrived, hsender] at hrun
  exact hrun

lemma payloadParityLen_sender : group.sender.payloadParityLen = group.maxLength := by
  rw [group.received_sender.covers.parityLen, Finset.sup_map]
  rfl

lemma length_redundancy : group.fecData.redundancy.length = group.maxLength := by
  have hparity := group.received_sender.covers.length_parity
  have hmax := group.maxLength_le
  rw [fecData, List.length_take, payloadParityLen_sender, hparity, min_eq_left hmax]

/-- The state of the receiver's group after any packets. -/
lemma received_receiver (arrivals : List (Option (Fin group.packets.length))) :
    group.Received arrivals.toFinset (group.receiver arrivals) := by
  have hrun := received_empty.foldl arrivals fun _ =>
    group.length_redundancy.trans_le group.maxLength_le
  rw [Finset.empty_union] at hrun
  exact hrun

/-- Beyond the longest payload there is nothing. -/
lemma getD_redundancy (j : ℕ) :
    group.fecData.redundancy.getD j 0 =
      xorSum Finset.univ fun i => (group.packet i).payload.getD j 0 := by
  have hparity := group.received_sender.covers.parity j
  have hmap : xorSum (Finset.univ.map Function.Embedding.some)
      (fun a => (group.share a).payload.getD j 0) =
        xorSum Finset.univ fun i => (group.packet i).payload.getD j 0 := Finset.fold_map
  rw [hmap] at hparity
  by_cases hj : j < group.maxLength
  · rw [← hparity, fecData, payloadParityLen_sender, List.getD_eq_getElem?_getD,
      List.getElem?_take_of_lt hj, ← List.getD_eq_getElem?_getD]
  · have hzero : ∀ i ∈ Finset.univ, (group.packet i).payload.getD j 0 = 0#8 := by
      intro i _
      have hle := group.length_payload_le_maxLength i
      exact List.getD_eq_default _ _ (by omega)
    rw [xorSum_eq_zero hzero, List.getD_eq_default _ _ (by rw [length_redundancy]; omega)]
    rfl

/-- All the packets of the group together have no parity. -/
lemma xorSum_payload (j : ℕ) :
    xorSum Finset.univ (fun a => (group.share a).payload.getD j 0) = 0#8 := by
  have huniv : (Finset.univ : Finset (Option (Fin group.packets.length))) =
      Finset.univ.insertNone := rfl
  have hfec : (group.share none).payload.getD j 0 =
      xorSum Finset.univ fun i => (group.share (some i)).payload.getD j 0 :=
    group.getD_redundancy j
  rw [huniv, xorSum_insertNone, hfec, BitVec.xor_self]

lemma xorSum_entropy :
    xorSum Finset.univ (fun a => BitVec.ofBool (group.share a).entropy) = 0#1 := by
  have huniv : (Finset.univ : Finset (Option (Fin group.packets.length))) =
      Finset.univ.insertNone := rfl
  have hentropy := group.received_sender.covers.entropy
  have hmap : xorSum (Finset.univ.map Function.Embedding.some)
      (fun a => BitVec.ofBool (group.share a).entropy) =
        xorSum Finset.univ fun i => BitVec.ofBool (group.share (some i)).entropy := Finset.fold_map
  have hfec : BitVec.ofBool (group.share none).entropy =
      xorSum Finset.univ fun i => BitVec.ofBool (group.share (some i)).entropy :=
    hentropy.trans hmap
  rw [huniv, xorSum_insertNone, hfec, BitVec.xor_self]

/-! ### The packet that is missing -/

/-- Everything of the group arrived but this data packet. -/
def OnlyMissing (arrived : Finset (Option (Fin group.packets.length)))
    (lost : Fin group.packets.length) : Prop :=
  none ∈ arrived ∧ ∀ i, some i ∉ arrived ↔ i = lost

instance (arrived : Finset (Option (Fin group.packets.length)))
    (lost : Fin group.packets.length) : Decidable (group.OnlyMissing arrived lost) :=
  inferInstanceAs (Decidable (_ ∧ _))

variable {group}

lemma OnlyMissing.eq_sdiff {lost : Fin group.packets.length}
    (h : group.OnlyMissing arrived lost) : arrived = Finset.univ \ {some lost} := by
  ext a
  cases a with
  | none => simpa using h.1
  | some i =>
    have hi := h.2 i
    simp only [Finset.mem_sdiff, Finset.mem_univ, true_and, Finset.mem_singleton,
      Option.some.injEq]
    tauto

lemma card_numbers (arrived : Finset (Option (Fin group.packets.length))) :
    (group.numbers arrived).card + (Finset.univ.filter fun i => some i ∉ arrived).card =
      group.packets.length := by
  have hinjective : Function.Injective fun i : Fin group.packets.length => group.first + i.val := by
    intro i j hij
    exact Fin.ext (Nat.add_left_cancel hij)
  have hsplit := Finset.card_filter_add_card_filter_not (s := Finset.univ)
    fun i : Fin group.packets.length => some i ∈ arrived
  rw [numbers, Finset.card_image_of_injective _ hinjective, hsplit, Finset.card_univ,
    Fintype.card_fin]

/-- A packet can be revived exactly when it is the only one missing. -/
lemma Received.canRevive_iff (h : group.Received arrived g) :
    g.canRevive = true ↔ ∃ lost, group.OnlyMissing arrived lost := by
  have hcard := card_numbers arrived
  have hpos := group.length_packets_pos
  have hlt := group.number_lt
  have hmissing : g.canRevive = true ↔ none ∈ arrived ∧
      (Finset.univ.filter fun i => some i ∉ arrived).card = 1 := by
    rw [QuicFecGroup.canRevive, decide_eq_true_iff, QuicFecGroup.numMissingPackets, h.minProtected,
      h.maxProtected, h.receivedPackets]
    by_cases hnone : none ∈ arrived
    · rw [if_pos hnone, if_pos hnone, if_neg group.first_ne_none, fecPacketSequenceNumber, sub64,
        sub64]
      simp only [hnone, true_and]
      omega
    · rw [if_neg hnone, if_neg hnone, if_pos rfl]
      simp only [hnone, false_and, iff_false]
      omega
  rw [hmissing, Finset.card_eq_one]
  constructor
  · rintro ⟨hnone, lost, hlost⟩
    refine ⟨lost, hnone, fun i => ?_⟩
    have hi := Finset.ext_iff.mp hlost i
    simpa using hi
  · rintro ⟨lost, hnone, hlost⟩
    refine ⟨hnone, lost, ?_⟩
    ext i
    simpa using hlost i

section Revive
variable {lost : Fin group.packets.length}

lemma Received.missingPacket (h : group.Received arrived g)
    (hlost : group.OnlyMissing arrived lost) : g.missingPacket = group.first + lost.val := by
  have hrange : List.range' g.minProtectedPacket (g.maxProtectedPacket + 1 -
      g.minProtectedPacket) = List.range' group.first group.packets.length := by
    have hpos := group.length_packets_pos
    rw [h.minProtected, h.maxProtected, if_pos hlost.1, if_pos hlost.1, fecPacketSequenceNumber]
    congr 1
    omega
  have hnotReceived : group.first + lost.val ∉ g.receivedPackets := by
    rw [h.mem_receivedPackets_iff, hlost.2]
  rw [QuicFecGroup.missingPacket, hrange]
  cases hfind : (List.range' group.first group.packets.length).find?
      fun i => decide (i ∉ g.receivedPackets) with
  | none =>
    rw [List.find?_eq_none] at hfind
    have hmem : group.first + lost.val ∈ List.range' group.first group.packets.length := by
      rw [List.mem_range'_1]
      omega
    exact absurd (decide_eq_true hnotReceived) (hfind _ hmem)
  | some s =>
    have hmem := List.mem_of_find?_eq_some hfind
    have hmissing := List.find?_some hfind
    rw [decide_eq_true_eq] at hmissing
    rw [List.mem_range'_1] at hmem
    obtain ⟨i, rfl⟩ : ∃ i : Fin group.packets.length, s = group.first + i.val :=
      ⟨⟨s - group.first, by omega⟩, by simp only; omega⟩
    rw [h.mem_receivedPackets_iff, hlost.2] at hmissing
    rw [Option.getD_some, hmissing]

lemma Received.payloadParityLen (h : group.Received arrived g) (hnone : none ∈ arrived) :
    g.payloadParityLen = group.maxLength := by
  rw [h.covers.parityLen]
  apply le_antisymm
  · apply Finset.sup_le
    intro a _
    cases a with
    | none => exact group.length_redundancy.le
    | some i => exact group.length_payload_le_maxLength i
  · have hle := Finset.le_sup (f := fun a => (group.share a).payload.length) hnone
    exact group.length_redundancy.ge.trans hle

/-- The parity is the lost payload, with zeros behind it. -/
lemma Received.payloadParity (h : group.Received arrived g)
    (hlost : group.OnlyMissing arrived lost) :
    g.payloadParity.take g.payloadParityLen = (group.packet lost).payload ++
      List.replicate (group.maxLength - (group.packet lost).payload.length) 0 := by
  have hle := group.length_payload_le_maxLength lost
  have hmax := group.maxLength_le
  have hlength := h.covers.length_parity
  rw [h.payloadParityLen hlost.1]
  apply List.ext_getElem
  · rw [List.length_take, List.length_append, List.length_replicate, hlength]
    omega
  · intro j hj hj'
    rw [List.length_take] at hj
    have hparity := h.covers.parity j
    rw [hlost.eq_sdiff, xorSum_sdiff (Finset.subset_univ _), xorSum_payload, BitVec.zero_xor,
      ← insert_empty_eq, xorSum_insert (Finset.notMem_empty _), xorSum_empty,
      BitVec.xor_zero] at hparity
    have hzeros := getD_append_zeros (group.packet lost).payload
      (group.maxLength - (group.packet lost).payload.length) j
    rw [List.getElem_take, ← List.getD_eq_getElem _ 0, ← List.getD_eq_getElem _ 0 hj', hparity,
      hzeros]
    rfl

lemma Received.entropyParity (h : group.Received arrived g)
    (hlost : group.OnlyMissing arrived lost) :
    g.entropyParity = (group.packet lost).header.entropyFlag := by
  have hentropy := h.covers.entropy
  rw [hlost.eq_sdiff, xorSum_sdiff (Finset.subset_univ _), xorSum_entropy, BitVec.zero_xor,
    ← insert_empty_eq, xorSum_insert (Finset.notMem_empty _), xorSum_empty,
    BitVec.xor_zero] at hentropy
  exact BitVec.ofBool_eq_iff_eq.mp hentropy

/-- The lost packet comes back with its number, its entropy and its payload. -/
lemma Received.revive_eq (h : group.Received arrived g) (hlost : group.OnlyMissing arrived lost)
    (header : QuicPacketHeader) :
    g.revive header kMaxPacketSize = some
      ({ header with
          packetSequenceNumber := (group.packet lost).header.packetSequenceNumber
          entropyFlag := (group.packet lost).header.entropyFlag },
        (group.packet lost).payload ++
          List.replicate (group.maxLength - (group.packet lost).payload.length) 0,
        { g with receivedPackets := insert g.missingPacket g.receivedPackets }) := by
  have hcan := h.canRevive_iff.mpr ⟨lost, hlost⟩
  have hnumber : (group.packet lost).header.packetSequenceNumber = group.first + lost.val :=
    group.number lost
  have hfits : ¬ g.payloadParityLen > kMaxPacketSize := by
    rw [h.payloadParityLen hlost.1]
    exact not_lt.mpr group.maxLength_le
  rw [QuicFecGroup.revive, if_neg (not_not.mpr hcan), if_neg hfits, h.payloadParity hlost,
    h.entropyParity hlost, h.missingPacket hlost, hnumber]

end Revive

end SentGroup

end Chromium.QuicFec
