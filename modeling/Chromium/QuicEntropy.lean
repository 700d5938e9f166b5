import Mathlib.Data.Finset.Sort
import Mathlib.Order.Interval.Finset.Nat
import Chromium.Runs
import Chromium.XorSum

/-!
# QUIC entropy

`net/quic/quic_sent_entropy_manager.cc` and `net/quic/quic_received_packet_manager.cc`.
Each packet has an entropy, and the receiver proves in its acks which packets it has seen
by the exclusive or of their entropies. The sender keeps the entropies to check this. For
packets that the receiver will not get any more, the sender tells the hash.
-/
namespace Chromium.QuicEntropy

open Runs XorSum Finset

abbrev QuicPacketEntropyHash := BitVec 8

/-! ### The sender -/

/-- `packets_entropy_` is in the order in which the packets were recorded. -/
structure QuicSentEntropyManager where
  packetsEntropy :
    List (ℕ × QuicPacketEntropyHash × QuicPacketEntropyHash) := []
  packetsEntropyHash : QuicPacketEntropyHash := 0
  deriving DecidableEq

namespace QuicSentEntropyManager
variable (m : QuicSentEntropyManager)

def find (sequenceNumber : ℕ) :
    Option (QuicPacketEntropyHash × QuicPacketEntropyHash) :=
  m.packetsEntropy.lookup sequenceNumber

def recordPacketEntropyHash (sequenceNumber : ℕ)
    (entropyHash : QuicPacketEntropyHash) : QuicSentEntropyManager :=
  let packetsEntropyHash := m.packetsEntropyHash ^^^ entropyHash
  { packetsEntropyHash
    packetsEntropy := if (m.find sequenceNumber).isSome then m.packetsEntropy
      else m.packetsEntropy ++ [(sequenceNumber, entropyHash, packetsEntropyHash)] }

def entropyHash (sequenceNumber : ℕ) : QuicPacketEntropyHash :=
  match m.find sequenceNumber with
  | none => 0
  | some entry => entry.2

/-- No result when a missing packet is not in the map, whose end the code then reads. -/
def isValidEntropy (sequenceNumber : ℕ)
    (missingPackets : Finset ℕ) (entropyHash : QuicPacketEntropyHash) :
    Option Bool :=
  match m.find sequenceNumber with
  | none => some (0 = sequenceNumber)
  | some entry =>
    ((missingPackets.sort (· ≤ ·)).foldlM
      (fun expected missing => (m.find missing).map fun entry => expected ^^^ entry.1)
      entry.2).map fun expected => entropyHash = expected

/-- The loop of `ClearEntropyBefore`. It reads the end of the map when nothing is left. -/
def clearLoop (sequenceNumber : ℕ) :
    List (ℕ × QuicPacketEntropyHash × QuicPacketEntropyHash) →
    Option (List (ℕ × QuicPacketEntropyHash × QuicPacketEntropyHash))
  | [] => none
  | entry :: entries =>
    if entry.1 < sequenceNumber then clearLoop sequenceNumber entries else some (entry :: entries)

def clearEntropyBefore (sequenceNumber : ℕ) :
    Option QuicSentEntropyManager :=
  if m.packetsEntropy = [] then some m
  else (clearLoop sequenceNumber m.packetsEntropy).map fun packetsEntropy =>
    { m with packetsEntropy }

end QuicSentEntropyManager

/-! ### The receiver -/

structure ReceivedPacketInfo where
  entropyHash : QuicPacketEntropyHash := 0
  largestObserved : ℕ := 0
  missingPackets : Finset ℕ := ∅
  deriving DecidableEq

namespace ReceivedPacketInfo
variable (info : ReceivedPacketInfo)

def isAwaitingPacket (sequenceNumber : ℕ) : Bool :=
  sequenceNumber > info.largestObserved || sequenceNumber ∈ info.missingPackets

def insertMissingPacketsBetween (lower higher : ℕ) : ReceivedPacketInfo :=
  { info with missingPackets := info.missingPackets ∪ Ico lower higher }

end ReceivedPacketInfo

/-- `packets_entropy_` is a map; its order is of no account here. -/
structure QuicReceivedPacketManager where
  packetsEntropy : List (ℕ × QuicPacketEntropyHash) := []
  packetsEntropyHash : QuicPacketEntropyHash := 0
  largestSequenceNumber : ℕ := 0
  peerLeastPacketAwaitingAck : ℕ := 0
  receivedInfo : ReceivedPacketInfo := {}
  deriving DecidableEq

namespace QuicReceivedPacketManager
variable (m : QuicReceivedPacketManager)

def recordPacketEntropyHash (sequenceNumber : ℕ)
    (entropyHash : QuicPacketEntropyHash) : QuicReceivedPacketManager :=
  if sequenceNumber < m.largestSequenceNumber then m
  else
    { m with
      packetsEntropy := if sequenceNumber ∈ m.packetsEntropy.map Prod.fst then m.packetsEntropy
        else m.packetsEntropy ++ [(sequenceNumber, entropyHash)]
      packetsEntropyHash := m.packetsEntropyHash ^^^ entropyHash }

def recordPacketReceived (sequenceNumber : ℕ)
    (entropyHash : QuicPacketEntropyHash) : QuicReceivedPacketManager :=
  let info := m.receivedInfo.insertMissingPacketsBetween
    (max (m.receivedInfo.largestObserved + 1) m.peerLeastPacketAwaitingAck) sequenceNumber
  let info := if info.largestObserved > sequenceNumber then
    { info with missingPackets := info.missingPackets.erase sequenceNumber } else info
  let info := if sequenceNumber > info.largestObserved then
    { info with largestObserved := sequenceNumber } else info
  recordPacketEntropyHash { m with receivedInfo := info } sequenceNumber entropyHash

def entropyHash (sequenceNumber : ℕ) : QuicPacketEntropyHash :=
  if sequenceNumber = m.receivedInfo.largestObserved then m.packetsEntropyHash
  else (m.packetsEntropy.filter fun entry => sequenceNumber < entry.1).foldl
    (fun hash entry => hash ^^^ entry.2) m.packetsEntropyHash

def updateReceivedPacketInfo : ReceivedPacketInfo :=
  { m.receivedInfo with entropyHash := m.entropyHash m.receivedInfo.largestObserved }

def recalculateEntropyHash (peerLeastUnacked : ℕ)
    (entropyHash : QuicPacketEntropyHash) : QuicReceivedPacketManager :=
  if peerLeastUnacked < m.largestSequenceNumber then m
  else
    { m with
      largestSequenceNumber := peerLeastUnacked
      packetsEntropyHash := (m.packetsEntropy.filter fun entry => peerLeastUnacked ≤ entry.1).foldl
        (fun hash entry => hash ^^^ entry.2) entropyHash
      packetsEntropy := m.packetsEntropy.filter fun entry =>
        min peerLeastUnacked m.receivedInfo.largestObserved ≤ entry.1 }

/-- Whether missing packets were dropped, and the manager without them. -/
def dontWaitForPacketsBefore (leastUnacked : ℕ) :
    Bool × QuicReceivedPacketManager :=
  let missingPackets := m.receivedInfo.missingPackets.filter (leastUnacked ≤ ·)
  (m.receivedInfo.missingPackets.card ≠ missingPackets.card,
    { m with receivedInfo := { m.receivedInfo with missingPackets } })

def updatePacketInformationSentByPeer (leastUnacked : ℕ)
    (entropyHash : QuicPacketEntropyHash) : QuicReceivedPacketManager :=
  if leastUnacked > m.peerLeastPacketAwaitingAck then
    let (missedPackets, m) := m.dontWaitForPacketsBefore leastUnacked
    let m := if missedPackets ∨ leastUnacked > m.receivedInfo.largestObserved + 1 then
      m.recalculateEntropyHash leastUnacked entropyHash else m
    { m with peerLeastPacketAwaitingAck := leastUnacked }
  else m

end QuicReceivedPacketManager

/-! ### The two sides -/

/-- A packet on its way. It may carry `sent_info`: the least packet that the sender waits
for an ack of, and the hash of all packets before it. -/
structure Packet where
  sequenceNumber : ℕ
  entropyHash : QuicPacketEntropyHash
  sentInfo : Option (ℕ × QuicPacketEntropyHash)
  deriving DecidableEq

/-- The two sides, what has been sent, and the acks on their way back. `recorded` are the
packets that the receiver has recorded. -/
structure World where
  sender : QuicSentEntropyManager := {}
  receiver : QuicReceivedPacketManager := {}
  packets : List Packet := []
  recorded : List ℕ := []
  acks : List ReceivedPacketInfo := []
  deriving DecidableEq

inductive Event
  | send (leastUnacked : Option ℕ)
  | receive (p : Packet)
  | update (p : Packet)
  | ack
  | discard (info : ReceivedPacketInfo)
  | clear (sequenceNumber : ℕ)

/-- All numbers that a report names are from `n` on. -/
def ReportsFrom (n : ℕ) (info : ReceivedPacketInfo) : Prop :=
  n ≤ info.largestObserved ∧ ∀ missing ∈ info.missingPackets, n ≤ missing

instance (n : ℕ) (info : ReceivedPacketInfo) :
    Decidable (ReportsFrom n info) :=
  inferInstanceAs (Decidable (_ ∧ _))

namespace World
variable (entropy : ℕ → QuicPacketEntropyHash) (w : World)

/-- One step. Packets are numbered from 1, packet `n` with `entropy n`, and reach the
receiver in any order or not at all. -/
def step : Event → Option World
  | .send leastUnacked =>
    let sequenceNumber := w.packets.length + 1
    if ∀ n ∈ leastUnacked, n ≤ sequenceNumber then
      some { w with
        packets := w.packets ++ [⟨sequenceNumber, entropy sequenceNumber,
          leastUnacked.map fun n => (n, w.sender.entropyHash (n - 1))⟩]
        sender := w.sender.recordPacketEntropyHash sequenceNumber (entropy sequenceNumber) }
    else none
  | .receive p =>
    if p ∈ w.packets ∧ w.receiver.receivedInfo.isAwaitingPacket p.sequenceNumber then
      some { w with
        receiver := w.receiver.recordPacketReceived p.sequenceNumber p.entropyHash
        recorded := w.recorded ++ [p.sequenceNumber] }
    else none
  | .update p =>
    match p.sentInfo with
    | none => none
    | some (leastUnacked, entropyHash) =>
      -- the packet was recorded, and updates do not go back
      if p ∈ w.packets ∧ p.sequenceNumber ∈ w.recorded ∧
          w.receiver.peerLeastPacketAwaitingAck ≤ leastUnacked then
        some { w with
          receiver := w.receiver.updatePacketInformationSentByPeer leastUnacked entropyHash }
      else none
  | .ack => some { w with acks := w.acks ++ [w.receiver.updateReceivedPacketInfo] }
  | .discard info => some { w with acks := w.acks.erase info }
  | .clear sequenceNumber =>
    if ∀ info ∈ w.receiver.receivedInfo :: w.acks, ReportsFrom sequenceNumber info then
      (w.sender.clearEntropyBefore sequenceNumber).map fun sender => { w with sender }
    else none

end World

/-! ### What the receiver knows -/

section
variable {entropy : ℕ → QuicPacketEntropyHash}

/-- The packets that a report stands for. -/
def ReceivedPacketInfo.seen (info : ReceivedPacketInfo) : Finset ℕ :=
  Icc 1 info.largestObserved \ info.missingPackets

namespace QuicReceivedPacketManager
variable {m : QuicReceivedPacketManager}

/-- The hash is that of the packets seen, and the entropies of those from the base on are in
the map. -/
structure Inv (entropy : ℕ → QuicPacketEntropyHash)
    (m : QuicReceivedPacketManager) : Prop where
  base : m.largestSequenceNumber ≤ m.peerLeastPacketAwaitingAck
  awaiting : m.peerLeastPacketAwaitingAck ≤ m.receivedInfo.largestObserved
  missing : ∀ n ∈ m.receivedInfo.missingPackets,
    m.peerLeastPacketAwaitingAck ≤ n ∧ 1 ≤ n ∧ n < m.receivedInfo.largestObserved
  hash : m.packetsEntropyHash = xorSum m.receivedInfo.seen entropy
  nodup : (m.packetsEntropy.map Prod.fst).Nodup
  value : ∀ entry ∈ m.packetsEntropy, entry.2 = entropy entry.1
  keys : ∀ n, n ∈ m.packetsEntropy.map Prod.fst ↔
    n ∈ m.receivedInfo.seen ∧ m.largestSequenceNumber ≤ n

lemma inv_init : Inv entropy {} := by
  constructor <;> simp [ReceivedPacketInfo.seen]

/-- A loop over a part of the map. -/
lemma Inv.foldl_filter (h : Inv entropy m) (P : ℕ → Bool)
    (start : QuicPacketEntropyHash) (hbase : ∀ n, P n = true → m.largestSequenceNumber ≤ n) :
    (m.packetsEntropy.filter fun entry => P entry.1).foldl (fun hash entry => hash ^^^ entry.2)
      start = start ^^^ xorSum (m.receivedInfo.seen.filter fun n => P n = true) entropy := by
  have hsub : (m.packetsEntropy.filter fun entry => P entry.1).Sublist m.packetsEntropy :=
    List.filter_sublist
  have hnodup := h.nodup.sublist (hsub.map Prod.fst)
  rw [foldl_xor_eq hnodup fun entry hentry => h.value entry (hsub.mem hentry)]
  congr 2
  ext n
  rw [List.mem_toFinset, List.mem_map, mem_filter]
  constructor
  · rintro ⟨entry, hentry, rfl⟩
    obtain ⟨hmem, hP⟩ := List.mem_filter.mp hentry
    exact ⟨((h.keys _).mp (List.mem_map_of_mem hmem)).1, hP⟩
  · rintro ⟨hseen, hP⟩
    obtain ⟨entry, hentry, rfl⟩ := List.mem_map.mp ((h.keys n).mpr ⟨hseen, hbase n hP⟩)
    exact ⟨entry, List.mem_filter.mpr ⟨hentry, hP⟩, rfl⟩

/-- The hash up to a packet from the base on. -/
theorem Inv.entropyHash_eq (h : Inv entropy m) {n : ℕ}
    (hbase : m.largestSequenceNumber ≤ n) (hn : n ≤ m.receivedInfo.largestObserved) :
    m.entropyHash n = xorSum (Icc 1 n \ m.receivedInfo.missingPackets) entropy := by
  unfold entropyHash
  split_ifs with heq
  · rw [heq]
    exact h.hash
  rw [h.foldl_filter (fun k => decide (n < k)) _ fun k hk => hbase.trans (of_decide_eq_true hk).le,
    h.hash, ← xorSum_sdiff (filter_subset _ _)]
  congr 1
  ext k
  simp only [ReceivedPacketInfo.seen, mem_sdiff, mem_filter, mem_Icc, decide_eq_true_eq]
  grind

lemma Inv.updateReceivedPacketInfo (h : Inv entropy m) :
    m.updateReceivedPacketInfo.entropyHash = xorSum m.receivedInfo.seen entropy :=
  h.entropyHash_eq (h.base.trans h.awaiting) le_rfl

/-- Recording a packet makes it the only new one that is seen. -/
lemma Inv.recordPacketReceived_eq (h : Inv entropy m) {n : ℕ}
    (hpos : 1 ≤ n) (hawaiting : m.receivedInfo.isAwaitingPacket n = true)
    (hash : QuicPacketEntropyHash) :
    n ∉ m.receivedInfo.seen ∧ ∃ info : ReceivedPacketInfo,
      m.recordPacketReceived n hash = { m with
        receivedInfo := info
        packetsEntropy := m.packetsEntropy ++ [(n, hash)]
        packetsEntropyHash := m.packetsEntropyHash ^^^ hash } ∧
      info.seen = insert n m.receivedInfo.seen ∧
      info.largestObserved = max m.receivedInfo.largestObserved n ∧
      ∀ k ∈ info.missingPackets, k < info.largestObserved ∧
        (k ∈ m.receivedInfo.missingPackets ∨ m.receivedInfo.largestObserved < k) := by
  have hnew : m.receivedInfo.largestObserved < n ∨ n ∈ m.receivedInfo.missingPackets := by
    simpa [ReceivedPacketInfo.isAwaitingPacket] using hawaiting
  have hseen : n ∉ m.receivedInfo.seen := by
    simp only [ReceivedPacketInfo.seen, mem_sdiff, mem_Icc]
    rintro ⟨⟨-, hle⟩, hmissing⟩
    rcases hnew with hlt | hmem
    · omega
    · exact hmissing hmem
  have hbase : ¬ n < m.largestSequenceNumber := by
    have hle := h.base.trans h.awaiting
    rcases hnew with hlt | hmem
    · omega
    · exact not_lt.mpr (h.base.trans (h.missing n hmem).1)
  have hkey : n ∉ m.packetsEntropy.map Prod.fst := fun hmem => hseen ((h.keys n).mp hmem).1
  refine ⟨hseen, ?_⟩
  unfold QuicReceivedPacketManager.recordPacketReceived recordPacketEntropyHash
  simp only [hbase, hkey, if_false]
  refine ⟨_, rfl, ?_⟩
  have hmax : max (m.receivedInfo.largestObserved + 1) m.peerLeastPacketAwaitingAck =
      m.receivedInfo.largestObserved + 1 := by
    have := h.awaiting
    omega
  rw [hmax]
  unfold ReceivedPacketInfo.insertMissingPacketsBetween
  have hmissing := h.missing
  rcases hnew with hlt | hmem
  · -- the packets in between are missing now
    have hle : ¬ m.receivedInfo.largestObserved > n := by omega
    simp only [hle, if_false, gt_iff_lt, hlt, if_true]
    refine ⟨?_, (max_eq_right hlt.le).symm, fun k hk => ?_⟩
    · ext k
      simp only [ReceivedPacketInfo.seen, mem_sdiff, mem_Icc, mem_union, mem_Ico, mem_insert]
      grind
    · simp only [mem_union, mem_Ico] at hk
      grind
  · have hlt : n < m.receivedInfo.largestObserved := (h.missing n hmem).2.2
    have hle : ¬ m.receivedInfo.largestObserved < n := by omega
    have hempty : Ico (m.receivedInfo.largestObserved + 1) n = ∅ := Ico_eq_empty (by omega)
    simp only [hempty, union_empty, gt_iff_lt, hlt, hle, if_true, if_false]
    refine ⟨?_, (max_eq_left hlt.le).symm, fun k hk => ?_⟩
    · ext k
      simp only [ReceivedPacketInfo.seen, mem_sdiff, mem_Icc, mem_erase, mem_insert]
      grind
    · exact ⟨(h.missing k (mem_of_mem_erase hk)).2.2, .inl (mem_of_mem_erase hk)⟩

/-- The packets seen after another one is recorded. -/
lemma Inv.recordPacketReceived (h : Inv entropy m) {n : ℕ} (hpos : 1 ≤ n)
    (hawaiting : m.receivedInfo.isAwaitingPacket n = true) :
    Inv entropy (m.recordPacketReceived n (entropy n)) := by
  obtain ⟨hnew, info, hresult, hseen, hlargest, hmissing⟩ :=
    h.recordPacketReceived_eq hpos hawaiting (entropy n)
  have hbase := h.base
  have hle := h.awaiting
  have hn : m.largestSequenceNumber ≤ n := by
    have hnew : m.receivedInfo.largestObserved < n ∨ n ∈ m.receivedInfo.missingPackets := by
      simpa [ReceivedPacketInfo.isAwaitingPacket] using hawaiting
    rcases hnew with hlt | hmem
    · omega
    · exact hbase.trans (h.missing n hmem).1
  rw [hresult]
  constructor
  · exact hbase
  · rw [hlargest]
    exact hle.trans (le_max_left _ _)
  · intro k hk
    obtain ⟨hlt, hold | hold⟩ := hmissing k hk
    · exact ⟨(h.missing k hold).1, (h.missing k hold).2.1, hlt⟩
    · exact ⟨hle.trans hold.le, by omega, hlt⟩
  · simp only [hseen, xorSum_insert hnew, h.hash, BitVec.xor_comm]
  · rw [List.map_append, List.nodup_append]
    refine ⟨h.nodup, List.nodup_singleton _, ?_⟩
    intro k hk k' hk' heq
    rw [List.map_singleton, List.mem_singleton] at hk'
    rw [heq, hk'] at hk
    exact hnew ((h.keys n).mp hk).1
  · intro entry hentry
    rcases List.mem_append.mp hentry with hold | hlast
    · exact h.value entry hold
    · rw [List.mem_singleton.mp hlast]
  · intro k
    rw [List.map_append, List.mem_append, h.keys, hseen, mem_insert, List.map_singleton,
      List.mem_singleton]
    constructor
    · rintro (hold | rfl)
      · exact ⟨.inr hold.1, hold.2⟩
      · exact ⟨.inl rfl, hn⟩
    · rintro ⟨rfl | hold, hk⟩
      · exact .inr rfl
      · exact .inl ⟨hold, hk⟩

lemma mem_seen {info : ReceivedPacketInfo} {n : ℕ} :
    n ∈ info.seen ↔ (1 ≤ n ∧ n ≤ info.largestObserved) ∧ n ∉ info.missingPackets := by
  rw [ReceivedPacketInfo.seen, mem_sdiff, mem_Icc]

/-- With the hash of the packets before `leastUnacked`, these count as seen. -/
lemma Inv.recalculateEntropyHash (h : Inv entropy m) {leastUnacked : ℕ}
    {hash : QuicPacketEntropyHash} (hle : leastUnacked ≤ m.receivedInfo.largestObserved)
    (hbase : m.largestSequenceNumber ≤ leastUnacked)
    (hhash : hash = xorSum (Icc 1 (leastUnacked - 1)) entropy) :
    Inv entropy { (recalculateEntropyHash { m with receivedInfo := { m.receivedInfo with
      missingPackets := m.receivedInfo.missingPackets.filter (leastUnacked ≤ ·) } }
        leastUnacked hash) with peerLeastPacketAwaitingAck := leastUnacked } := by
  have hmin : min leastUnacked m.receivedInfo.largestObserved = leastUnacked := min_eq_left hle
  unfold QuicReceivedPacketManager.recalculateEntropyHash
  simp only [not_lt.mpr hbase, if_false, hmin]
  constructor
  · exact le_rfl
  · exact hle
  · intro n hn
    obtain ⟨hmem, hge⟩ := mem_filter.mp hn
    exact ⟨hge, (h.missing n hmem).2⟩
  · simp only
    have hdisjoint : Disjoint (Icc 1 (leastUnacked - 1))
        (m.receivedInfo.seen.filter fun n => decide (leastUnacked ≤ n) = true) := by
      rw [disjoint_left]
      intro n hn hn'
      rw [mem_Icc] at hn
      have hge := of_decide_eq_true (mem_filter.mp hn').2
      omega
    rw [h.foldl_filter (fun n => decide (leastUnacked ≤ n)) _ fun n hn =>
      hbase.trans (of_decide_eq_true hn), hhash, ← xorSum_union hdisjoint]
    congr 1
    ext n
    simp only [mem_union, mem_filter, mem_seen, mem_Icc, decide_eq_true_eq]
    grind
  · exact h.nodup.sublist (List.filter_sublist.map Prod.fst)
  · exact fun entry hentry => h.value entry (List.mem_of_mem_filter hentry)
  · intro n
    have hkeys := h.keys n
    simp only [List.mem_map, List.mem_filter, decide_eq_true_eq, mem_seen, mem_filter] at hkeys ⊢
    constructor
    · rintro ⟨entry, ⟨hentry, hge⟩, rfl⟩
      obtain ⟨hseen, -⟩ := hkeys.mp ⟨entry, hentry, rfl⟩
      exact ⟨⟨hseen.1, fun hn => hseen.2 hn.1⟩, hge⟩
    · rintro ⟨⟨hrange, hmissing⟩, hge⟩
      obtain ⟨entry, hentry, rfl⟩ := hkeys.mpr
        ⟨⟨hrange, fun hn => hmissing ⟨hn, hge⟩⟩, hbase.trans hge⟩
      exact ⟨entry, ⟨hentry, hge⟩, rfl⟩

/-- An update drops missing packets, or finds none to drop. -/
lemma Inv.updatePacketInformationSentByPeer (h : Inv entropy m) {leastUnacked : ℕ}
    {hash : QuicPacketEntropyHash} (hle : leastUnacked ≤ m.receivedInfo.largestObserved)
    (hhash : hash = xorSum (Icc 1 (leastUnacked - 1)) entropy ∨
      ∀ n ∈ m.receivedInfo.missingPackets, leastUnacked ≤ n) :
    Inv entropy (m.updatePacketInformationSentByPeer leastUnacked hash) ∧
      (m.updatePacketInformationSentByPeer leastUnacked hash).receivedInfo.largestObserved =
        m.receivedInfo.largestObserved ∧
      (m.updatePacketInformationSentByPeer leastUnacked hash).receivedInfo.missingPackets ⊆
        m.receivedInfo.missingPackets := by
  unfold QuicReceivedPacketManager.updatePacketInformationSentByPeer
  by_cases hlt : leastUnacked > m.peerLeastPacketAwaitingAck
  swap
  · rw [if_neg hlt]
    exact ⟨h, rfl, Subset.rfl⟩
  rw [if_pos hlt]
  have hbase : m.largestSequenceNumber ≤ leastUnacked := h.base.trans hlt.le
  have hfar : ¬ leastUnacked > m.receivedInfo.largestObserved + 1 := by omega
  simp only [dontWaitForPacketsBefore, hfar, or_false, decide_eq_true_eq]
  by_cases hnone : ∀ n ∈ m.receivedInfo.missingPackets, leastUnacked ≤ n
  · -- nothing is missing below, and nothing changes but the base
    have hfilter : m.receivedInfo.missingPackets.filter (leastUnacked ≤ ·) =
        m.receivedInfo.missingPackets := filter_true_of_mem hnone
    rw [hfilter, if_neg (not_not.mpr rfl)]
    refine ⟨⟨h.base.trans hlt.le, hle, fun n hn => ⟨hnone n hn, (h.missing n hn).2⟩, h.hash,
      h.nodup, h.value, h.keys⟩, rfl, Subset.rfl⟩
  · have hmissed : m.receivedInfo.missingPackets.card ≠
        (m.receivedInfo.missingPackets.filter (leastUnacked ≤ ·)).card := by
      intro heq
      exact hnone (filter_card_eq heq.symm)
    rw [if_pos hmissed]
    refine ⟨h.recalculateEntropyHash hle hbase (hhash.resolve_right hnone), ?_, ?_⟩
    · unfold QuicReceivedPacketManager.recalculateEntropyHash
      split_ifs <;> rfl
    · unfold QuicReceivedPacketManager.recalculateEntropyHash
      split_ifs <;> exact filter_subset _ _

end QuicReceivedPacketManager

/-! ### What the sender knows -/

namespace QuicSentEntropyManager
variable {m : QuicSentEntropyManager} {low sent : ℕ}

/-- The entry of a packet: its entropy and the hash of all packets up to it. -/
def entryOf (entropy : ℕ → QuicPacketEntropyHash) (n : ℕ) :
    ℕ × QuicPacketEntropyHash × QuicPacketEntropyHash :=
  (n, entropy n, xorSum (Icc 1 n) entropy)

/-- The packets from `low` on are kept of those sent. -/
structure Inv (entropy : ℕ → QuicPacketEntropyHash) (low sent : ℕ)
    (m : QuicSentEntropyManager) : Prop where
  pos : 1 ≤ low
  le : low ≤ sent + 1
  entries : m.packetsEntropy = (List.range' low (sent + 1 - low)).map (entryOf entropy)
  hash : m.packetsEntropyHash = xorSum (Icc 1 sent) entropy

lemma inv_init : Inv entropy 1 0 {} := by
  constructor <;> simp

lemma lookup_range (low count n : ℕ) :
    ((List.range' low count).map (entryOf entropy)).lookup n =
      if low ≤ n ∧ n < low + count then some (entryOf entropy n).2 else none := by
  induction count generalizing low with
  | zero =>
    rw [if_neg (by omega)]
    rfl
  | succ count ih =>
    rw [List.range'_succ, List.map_cons, List.lookup_cons, ih]
    by_cases heq : n = low
    · subst heq
      simp [entryOf]
    · have hne : (n == (entryOf entropy low).1) = false := by simpa [entryOf] using heq
      rw [hne]
      by_cases hin : low + 1 ≤ n ∧ n < low + 1 + count
      · rw [if_pos hin, if_pos (by omega)]
      · rw [if_neg hin, if_neg (by omega)]

lemma Inv.find_eq (h : Inv entropy low sent m) (n : ℕ) :
    m.find n = if low ≤ n ∧ n ≤ sent then some (entryOf entropy n).2 else none := by
  have hle := h.le
  unfold find
  rw [h.entries, lookup_range]
  by_cases hin : low ≤ n ∧ n ≤ sent
  · rw [if_pos hin, if_pos (by omega)]
  · rw [if_neg hin, if_neg (by omega)]

lemma Inv.recordPacketEntropyHash (h : Inv entropy low sent m) :
    Inv entropy low (sent + 1) (m.recordPacketEntropyHash (sent + 1) (entropy (sent + 1))) := by
  have hle := h.le
  have hsum : xorSum (Icc 1 (sent + 1)) entropy =
      xorSum (Icc 1 sent) entropy ^^^ entropy (sent + 1) := by
    have hinsert : Icc 1 (sent + 1) = insert (sent + 1) (Icc 1 sent) := by
      ext n
      simp only [mem_insert, mem_Icc]
      omega
    rw [hinsert, xorSum_insert (by simp), BitVec.xor_comm]
  have hfind : m.find (sent + 1) = none := by
    rw [h.find_eq, if_neg (by omega)]
  unfold QuicSentEntropyManager.recordPacketEntropyHash
  simp only [hfind, Option.isSome_none, Bool.false_eq_true, if_false]
  constructor
  · exact h.pos
  · omega
  · have hcount : sent + 1 + 1 - low = (sent + 1 - low) + 1 := by omega
    have hlast : low + 1 * (sent + 1 - low) = sent + 1 := by omega
    rw [hcount, List.range'_concat, List.map_append, h.entries, hlast, h.hash, ← hsum]
    rfl
  · rw [h.hash, hsum]

/-- The hash before a packet, or a value for a packet that the sender keeps no more. -/
lemma Inv.entropyHash_eq (h : Inv entropy low sent m) {n : ℕ} (hn : n ≤ sent + 1) :
    m.entropyHash (n - 1) = xorSum (Icc 1 (n - 1)) entropy ∨ n ≤ low := by
  by_cases hle : n ≤ low
  · exact .inr hle
  · left
    unfold entropyHash
    rw [h.find_eq, if_pos (by omega)]
    rfl

lemma clearLoop_range (entropy : ℕ → QuicPacketEntropyHash) (low : ℕ) {count n : ℕ}
    (hcount : 0 < count) (hn : n < low + count) :
    ∃ low', low ≤ low' ∧ (low' = low ∨ low' ≤ n) ∧ low' < low + count ∧
      clearLoop n ((List.range' low count).map (entryOf entropy)) =
        some ((List.range' low' (low + count - low')).map (entryOf entropy)) := by
  induction count generalizing low with
  | zero => exact absurd hcount (Nat.lt_irrefl 0)
  | succ count ih =>
    rw [List.range'_succ, List.map_cons, clearLoop]
    by_cases hlt : (entryOf entropy low).1 < n
    · have hlow : low < n := hlt
      obtain ⟨low', hle, hfirst, hend, hresult⟩ := ih (low + 1) (by omega) (by omega)
      have hsum : low + 1 + count = low + (count + 1) := by omega
      rw [if_pos hlt, hresult, hsum]
      exact ⟨low', by omega, .inr (by omega), by omega, rfl⟩
    · rw [if_neg hlt]
      refine ⟨low, le_rfl, .inl rfl, by omega, ?_⟩
      rw [Nat.add_sub_cancel_left, List.range'_succ, List.map_cons]

/-- What is cleared below a packet that was sent. -/
lemma Inv.clearEntropyBefore (h : Inv entropy low sent m) {n : ℕ} (hn : n ≤ sent) :
    ∃ m' low', m.clearEntropyBefore n = some m' ∧ Inv entropy low' sent m' ∧ low ≤ low' ∧
      (low' = low ∨ low' ≤ n) := by
  have hle := h.le
  unfold QuicSentEntropyManager.clearEntropyBefore
  by_cases hempty : m.packetsEntropy = []
  · rw [if_pos hempty]
    exact ⟨m, low, rfl, h, le_rfl, .inl rfl⟩
  have hcount : 0 < sent + 1 - low := by
    rw [h.entries] at hempty
    by_contra hzero
    apply hempty
    rw [Nat.eq_zero_of_not_pos hzero]
    rfl
  obtain ⟨low', hlow, hfirst, hend, hresult⟩ :=
    clearLoop_range entropy low hcount (show n < low + (sent + 1 - low) by omega)
  have hsum : low + (sent + 1 - low) = sent + 1 := by omega
  rw [hsum] at hresult hend
  rw [if_neg hempty, h.entries, hresult]
  exact ⟨_, low', rfl, ⟨h.pos.trans hlow, hend.le, rfl, h.hash⟩, hlow, hfirst⟩

/-- A loop over missing packets that are all kept. -/
lemma Inv.foldlM_missing (h : Inv entropy low sent m) {missing : List ℕ} (hnodup : missing.Nodup)
    (hkept : ∀ n ∈ missing, low ≤ n ∧ n ≤ sent) (start : QuicPacketEntropyHash) :
    missing.foldlM (fun expected n => (m.find n).map fun entry => expected ^^^ entry.1) start =
      some (start ^^^ xorSum missing.toFinset entropy) := by
  induction missing generalizing start with
  | nil => simp
  | cons n missing ih =>
    rw [List.nodup_cons] at hnodup
    rw [List.forall_mem_cons] at hkept
    rw [List.foldlM_cons, h.find_eq, if_pos hkept.1]
    simp only [Option.map_some, Option.bind_eq_bind, Option.bind_some]
    rw [ih hnodup.2 hkept.2, List.toFinset_cons, xorSum_insert (by simpa using hnodup.1),
      BitVec.xor_assoc]
    rfl

/-- A report of packets that the sender keeps, with the hash of those it stands for. -/
structure Honest (entropy : ℕ → QuicPacketEntropyHash) (low sent : ℕ)
    (info : ReceivedPacketInfo) : Prop where
  observed : info.largestObserved ≤ sent
  kept : info.largestObserved ≠ 0 → low ≤ info.largestObserved
  missing : ∀ n ∈ info.missingPackets, low ≤ n ∧ 1 ≤ n ∧ n < info.largestObserved
  hash : info.entropyHash = xorSum info.seen entropy

theorem Inv.isValidEntropy (h : Inv entropy low sent m) {info : ReceivedPacketInfo}
    (hinfo : Honest entropy low sent info) :
    m.isValidEntropy info.largestObserved info.missingPackets info.entropyHash = some true := by
  have hobserved := hinfo.observed
  unfold QuicSentEntropyManager.isValidEntropy
  rw [h.find_eq]
  by_cases hzero : info.largestObserved = 0
  · have hpos := h.pos
    rw [if_neg (by omega), hzero]
    rfl
  rw [if_pos ⟨hinfo.kept hzero, hobserved⟩]
  simp only
  rw [h.foldlM_missing (sort_nodup _ _)]
  · rw [sort_toFinset, Option.map_some, hinfo.hash, ReceivedPacketInfo.seen, xorSum_sdiff]
    · simp [entryOf]
    · intro n hn
      have hrange := hinfo.missing n hn
      rw [mem_Icc]
      omega
  · intro n hn
    have hrange := hinfo.missing n ((mem_sort _).mp hn)
    omega

end QuicSentEntropyManager

/-! ### Runs -/

namespace World
variable {w w' : World} {low : ℕ}

open QuicSentEntropyManager (Honest)

/-- Both sides know what they should, and the sender keeps what may still be reported. -/
structure Inv (entropy : ℕ → QuicPacketEntropyHash) (low : ℕ) (w : World) : Prop where
  sender : w.sender.Inv entropy low w.packets.length
  receiver : w.receiver.Inv entropy
  observed : w.receiver.receivedInfo.largestObserved ≤ w.packets.length
  kept : low = 1 ∨ low ≤ w.receiver.receivedInfo.largestObserved
  missing : ∀ n ∈ w.receiver.receivedInfo.missingPackets, low ≤ n
  acks : ∀ info ∈ w.acks, Honest entropy low w.packets.length info
  packets : ∀ p ∈ w.packets, 1 ≤ p.sequenceNumber ∧ p.sequenceNumber ≤ w.packets.length ∧
    p.entropyHash = entropy p.sequenceNumber
  updates : ∀ p ∈ w.packets, ∀ leastUnacked hash, p.sentInfo = some (leastUnacked, hash) →
    leastUnacked ≤ p.sequenceNumber ∧
      (hash = xorSum (Icc 1 (leastUnacked - 1)) entropy ∨ leastUnacked ≤ low)
  recorded : ∀ n ∈ w.recorded, n ≤ w.receiver.receivedInfo.largestObserved

lemma inv_init : Inv entropy 1 {} := by
  constructor
  · exact QuicSentEntropyManager.inv_init
  · exact QuicReceivedPacketManager.inv_init
  all_goals simp

/-- A report of what the receiver has seen is honest. -/
lemma Inv.honest (h : Inv entropy low w) :
    Honest entropy low w.packets.length w.receiver.updateReceivedPacketInfo := by
  constructor
  · exact h.observed
  · intro hne
    have hkept := h.kept
    change low ≤ w.receiver.receivedInfo.largestObserved
    change w.receiver.receivedInfo.largestObserved ≠ 0 at hne
    omega
  · exact fun n hn => ⟨h.missing n hn, (h.receiver.missing n hn).2⟩
  · exact h.receiver.updateReceivedPacketInfo

lemma Honest.mono {sent sent' : ℕ} {info : ReceivedPacketInfo} (h : Honest entropy low sent info)
    (hle : sent ≤ sent') : Honest entropy low sent' info :=
  ⟨h.observed.trans hle, h.kept, h.missing, h.hash⟩

lemma Inv.send (h : Inv entropy low w) (leastUnacked : Option ℕ)
    (hstep : w.step entropy (.send leastUnacked) = some w') : Inv entropy low w' := by
  rw [step] at hstep
  split_ifs at hstep with hle
  cases hstep
  have hlength : (w.packets ++ [(⟨w.packets.length + 1, entropy (w.packets.length + 1),
      leastUnacked.map fun n => (n, w.sender.entropyHash (n - 1))⟩ : Packet)]).length =
      w.packets.length + 1 := by
    rw [List.length_append, List.length_singleton]
  constructor
  · simp only [hlength]
    exact h.sender.recordPacketEntropyHash
  · exact h.receiver
  · simp only [hlength]
    exact h.observed.trans (Nat.le_succ _)
  · exact h.kept
  · exact h.missing
  · intro info hinfo
    simp only [hlength]
    exact Honest.mono (h.acks info hinfo) (Nat.le_succ _)
  · intro p hp
    simp only [hlength]
    rcases List.mem_append.mp hp with hold | hnew
    · obtain ⟨hpos, hle, hhash⟩ := h.packets p hold
      exact ⟨hpos, hle.trans (Nat.le_succ _), hhash⟩
    · rw [List.mem_singleton.mp hnew]
      exact ⟨Nat.succ_pos _, le_rfl, rfl⟩
  · intro p hp n hash hinfo
    rcases List.mem_append.mp hp with hold | hnew
    · exact h.updates p hold n hash hinfo
    · rw [List.mem_singleton.mp hnew] at hinfo ⊢
      obtain ⟨n', hn', heq⟩ := Option.map_eq_some_iff.mp hinfo
      cases heq
      exact ⟨hle n hn', h.sender.entropyHash_eq (hle n hn')⟩
  · exact h.recorded

lemma Inv.receive (h : Inv entropy low w) (p : Packet)
    (hstep : w.step entropy (.receive p) = some w') : Inv entropy low w' := by
  rw [step] at hstep
  split_ifs at hstep with hguard
  cases hstep
  obtain ⟨hmem, hawaiting⟩ := hguard
  obtain ⟨hpos, hsent, hhash⟩ := h.packets p hmem
  obtain ⟨-, info, hresult, -, hlargest, hmissing⟩ :=
    h.receiver.recordPacketReceived_eq hpos hawaiting p.entropyHash
  have hinfo : (w.receiver.recordPacketReceived p.sequenceNumber p.entropyHash).receivedInfo =
      info := by rw [hresult]
  have hobserved := h.observed
  have hkept := h.kept
  constructor
  · exact h.sender
  · simp only [hhash]
    exact h.receiver.recordPacketReceived hpos hawaiting
  · simp only [hinfo, hlargest]
    exact max_le hobserved hsent
  · simp only [hinfo, hlargest]
    omega
  · simp only [hinfo]
    intro n hn
    obtain ⟨-, hold | hold⟩ := hmissing n hn
    · exact h.missing n hold
    · omega
  · exact h.acks
  · exact h.packets
  · exact h.updates
  · simp only [hinfo, hlargest]
    intro n hn
    rcases List.mem_append.mp hn with hold | hnew
    · exact (h.recorded n hold).trans (le_max_left _ _)
    · rw [List.mem_singleton.mp hnew]
      exact le_max_right _ _

lemma Inv.update (h : Inv entropy low w) (p : Packet)
    (hstep : w.step entropy (.update p) = some w') : Inv entropy low w' := by
  rw [step] at hstep
  cases hinfo : p.sentInfo with
  | none =>
    rw [hinfo] at hstep
    cases hstep
  | some sentInfo =>
    obtain ⟨leastUnacked, hash⟩ := sentInfo
    rw [hinfo] at hstep
    simp only at hstep
    split_ifs at hstep with hguard
    cases hstep
    obtain ⟨hmem, hrecorded, -⟩ := hguard
    obtain ⟨hle, hhash⟩ := h.updates p hmem leastUnacked hash hinfo
    -- an update that the sender computed too late finds nothing missing
    have hupdate : hash = xorSum (Icc 1 (leastUnacked - 1)) entropy ∨
        ∀ n ∈ w.receiver.receivedInfo.missingPackets, leastUnacked ≤ n :=
      hhash.imp_right fun hlow n hn => hlow.trans (h.missing n hn)
    obtain ⟨hinv, hlargest, hsub⟩ := h.receiver.updatePacketInformationSentByPeer
      (hle.trans (h.recorded _ hrecorded)) hupdate
    constructor
    · exact h.sender
    · exact hinv
    · simp only [hlargest]
      exact h.observed
    · simp only [hlargest]
      exact h.kept
    · exact fun n hn => h.missing n (hsub hn)
    · exact h.acks
    · exact h.packets
    · exact h.updates
    · simp only [hlargest]
      exact h.recorded

lemma Inv.clear (h : Inv entropy low w) {n : ℕ}
    (hguard : ∀ info ∈ w.receiver.receivedInfo :: w.acks, ReportsFrom n info) :
    ∃ w' low', w.step entropy (.clear n) = some w' ∧ Inv entropy low' w' := by
  rw [step, if_pos hguard]
  rw [List.forall_mem_cons] at hguard
  obtain ⟨⟨hlargest, hmissing⟩, hacks⟩ := hguard
  obtain ⟨sender, low', hresult, hsender, hlow, hfirst⟩ :=
    h.sender.clearEntropyBefore (hlargest.trans h.observed)
  have hkept := h.kept
  rw [hresult]
  refine ⟨_, low', rfl, ?_⟩
  constructor
  · exact hsender
  · exact h.receiver
  · exact h.observed
  · simp only
    omega
  · intro k hk
    have hold := h.missing k hk
    have hnew := hmissing k hk
    omega
  · intro info hinfo
    have hold := h.acks info hinfo
    have hnew := hacks info hinfo
    refine ⟨hold.observed, fun hne => ?_, fun k hk => ⟨?_, (hold.missing k hk).2⟩, hold.hash⟩
    · have := hold.kept hne
      have := hnew.1
      omega
    · have := (hold.missing k hk).1
      have := hnew.2 k hk
      omega
  · exact h.packets
  · intro p hp leastUnacked hash hinfo
    obtain ⟨hle, hhash⟩ := h.updates p hp leastUnacked hash hinfo
    exact ⟨hle, hhash.imp_right fun hle => hle.trans hlow⟩
  · exact h.recorded

/-- Each step keeps what both sides know. -/
theorem Inv.step (h : Inv entropy low w) {event : Event}
    (hstep : w.step entropy event = some w') : ∃ low', Inv entropy low' w' := by
  cases event with
  | send leastUnacked => exact ⟨low, h.send leastUnacked hstep⟩
  | receive p => exact ⟨low, h.receive p hstep⟩
  | update p => exact ⟨low, h.update p hstep⟩
  | ack =>
    cases hstep
    refine ⟨low, { h with acks := fun info hinfo => ?_ }⟩
    rcases List.mem_append.mp hinfo with hold | hnew
    · exact h.acks info hold
    · rw [List.mem_singleton.mp hnew]
      exact h.honest
  | discard info =>
    cases hstep
    exact ⟨low, { h with acks := fun info' hinfo => h.acks info' (List.mem_of_mem_erase hinfo) }⟩
  | clear n =>
    have hguard : ∀ info ∈ w.receiver.receivedInfo :: w.acks, ReportsFrom n info := by
      by_contra hnot
      rw [World.step, if_neg hnot] at hstep
      cases hstep
    obtain ⟨w'', low', hresult, hinv⟩ := h.clear hguard
    rw [hresult] at hstep
    cases hstep
    exact ⟨low', hinv⟩

/-- The sender never rejects the acks of an honest receiver: those on their way and the one
that it builds next. -/
theorem isValidEntropy_of_reaches (entropy : ℕ → QuicPacketEntropyHash) {events : List Event}
    {w : World} (hrun : Reaches (fun w event w' => w.step entropy event = some w') {} events w) :
    (∀ info ∈ w.receiver.updateReceivedPacketInfo :: w.acks,
      w.sender.isValidEntropy info.largestObserved info.missingPackets info.entropyHash =
        some true) ∧
    (∀ n, w.receiver.largestSequenceNumber ≤ n → n ≤ w.receiver.receivedInfo.largestObserved →
      w.receiver.entropyHash n =
        xorSum (Icc 1 n \ w.receiver.receivedInfo.missingPackets) entropy) ∧
    ∀ n, (∀ info ∈ w.receiver.receivedInfo :: w.acks, ReportsFrom n info) →
      ∃ sender, w.sender.clearEntropyBefore n = some sender := by
  have hinv : ∃ low, Inv entropy low w := by
    apply hrun.invariant (fun w => ∃ low, Inv entropy low w) ⟨1, inv_init⟩
    intro t event u ht hstep
    obtain ⟨low, h⟩ := ht
    exact h.step hstep
  obtain ⟨low, h⟩ := hinv
  refine ⟨?_, fun n hbase hn => h.receiver.entropyHash_eq hbase hn, fun n hguard => ?_⟩
  · intro info hinfo
    rcases List.mem_cons.mp hinfo with rfl | hack
    · exact h.sender.isValidEntropy h.honest
    · exact h.sender.isValidEntropy (h.acks info hack)
  · obtain ⟨sender, low', hresult, -⟩ :=
      h.sender.clearEntropyBefore ((hguard _ List.mem_cons_self).1.trans h.observed)
    exact ⟨sender, hresult⟩

/-- Packets 2 and 3 are late, and the sender gives up on packet 2. -/
theorem isValidEntropy_of_reaches_late :
    ∃ w, [.send none, .send none, .send none, .send (some 3),
        .receive ⟨1, 1, none⟩, .receive ⟨4, 4, some (3, 3)⟩, .update ⟨4, 4, some (3, 3)⟩, .ack,
        .clear 3, .receive ⟨3, 3, none⟩, .ack].foldlM
          (fun w event => w.step (fun n => BitVec.ofNat 8 n) event) ({} : World) = some w ∧
      w.acks = [⟨7, 4, {3}⟩, ⟨4, 4, ∅⟩] ∧
      ∀ info ∈ w.acks, w.sender.isValidEntropy info.largestObserved info.missingPackets
        info.entropyHash = some true := by
  refine ⟨_, rfl, by decide, fun info hinfo => ?_⟩
  have hrun := Reaches.of_foldlM (fun _ _ _ h => h)
    (show [.send none, .send none, .send none, .send (some 3),
      .receive ⟨1, 1, none⟩, .receive ⟨4, 4, some (3, 3)⟩, .update ⟨4, 4, some (3, 3)⟩, .ack,
      .clear 3, .receive ⟨3, 3, none⟩, .ack].foldlM
        (fun w event => w.step (fun n => BitVec.ofNat 8 n) event) ({} : World) = some _ from rfl)
  exact (isValidEntropy_of_reaches _ hrun).1 info (List.mem_cons_of_mem _ hinfo)

end World
end

end Chromium.QuicEntropy
