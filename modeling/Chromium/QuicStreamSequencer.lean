import Chromium.Runs
import Chromium.SortedMap

/-!
# The QUIC stream sequencer

`net/quic/quic_stream_sequencer.cc`. Frames of a stream come in any order, and their bytes
go to the reader in the order of the stream: at once when they are next, and otherwise when
they are flushed or read. The reader may take a part of what it is offered.
-/
namespace Chromium.QuicStreamSequencer

open Runs

abbrev Byte := BitVec 8

/-- `numeric_limits<QuicStreamOffset>::max()`, which stands for no offset. -/
def kMaxOffset : ℕ := 2 ^ 64 - 1

structure QuicStreamFrame where
  offset : ℕ
  data : List Byte
  fin : Bool
  deriving DecidableEq

inductive QuicErrorCode
  | invalidStreamFrame
  | multipleTerminationOffsets
  | errorProcessingStream
  deriving DecidableEq

/-- The calls on the stream that owns the sequencer. -/
inductive Callback
  | processRawData (data : List Byte) (bytesConsumed : ℕ)
  | terminateFromPeer
  | close (error : QuicErrorCode)
  deriving DecidableEq

structure Sequencer where
  numBytesConsumed : ℕ := 0
  frames : SortedMap ℕ (List Byte) := ∅
  maxFrameMemory : ℕ := kMaxOffset
  closeOffset : ℕ := kMaxOffset

namespace Sequencer
variable (s : Sequencer)

def isHalfClosed : Bool := s.numBytesConsumed ≥ s.closeOffset

def hasBytesToRead : Bool :=
  match s.frames.first with
  | none => false
  | some (offset, _) => offset = s.numBytesConsumed

def isDuplicate (frame : QuicStreamFrame) : Bool :=
  frame.offset < s.numBytesConsumed || (s.frames.find frame.offset).isSome

def willAcceptStreamFrame (frame : QuicStreamFrame) : Bool :=
  if s.isDuplicate frame then true
  else if frame.data.length > s.maxFrameMemory then false
  else if frame.offset + frame.data.length - s.numBytesConsumed > s.maxFrameMemory then false
  else true

/-- `MaybeCloseStream`: the call on the stream, if it is half closed. -/
def maybeCloseStream : List Callback := if s.isHalfClosed then [.terminateFromPeer] else []

def closeStreamAtOffset (offset : ℕ) : Sequencer × List Callback :=
  if s.closeOffset ≠ kMaxOffset ∧ offset ≠ s.closeOffset then
    (s, [.close .multipleTerminationOffsets])
  else
    let s := { s with closeOffset := offset }
    (s, s.maybeCloseStream)

/-- The loop of `FlushBufferedFrames`. The reader takes `reader i data` bytes when it is
called for the `i`-th time. -/
def flushLoop (reader : ℕ → List Byte → ℕ) :
    ℕ → ℕ → Sequencer → Option (Sequencer × List Callback)
  | 0, _, _ => none
  | fuel + 1, i, s =>
    match s.frames.find s.numBytesConsumed with
    | none => some (s, [])
    | some data =>
      let offset := s.numBytesConsumed
      let bytesConsumed := reader i data
      let s := { s with numBytesConsumed := s.numBytesConsumed + bytesConsumed }
      if s.isHalfClosed then
        some (s, [.processRawData data bytesConsumed, .terminateFromPeer])
      else if bytesConsumed > data.length then
        some (s, [.processRawData data bytesConsumed, .close .errorProcessingStream])
      else if bytesConsumed = data.length then
        (flushLoop reader fuel (i + 1) { s with frames := s.frames.erase offset }).map
          fun result => (result.1, .processRawData data bytesConsumed :: result.2)
      else
        let frames := (s.frames.erase offset).insert s.numBytesConsumed (data.drop bytesConsumed)
        some ({ s with frames }, [.processRawData data bytesConsumed])

def flushBufferedFrames (reader : ℕ → List Byte → ℕ) (i : ℕ) :
    Option (Sequencer × List Callback) :=
  flushLoop reader (s.frames.size + 1) i s

/-- The rest of `OnStreamFrame`, for a frame with data. -/
def onData (reader : ℕ → List Byte → ℕ) (frame : QuicStreamFrame) :
    Option (Bool × Sequencer × List Callback) :=
  let data := frame.data
  if frame.offset = s.numBytesConsumed then
    let bytesConsumed := reader 0 data
    let s := { s with numBytesConsumed := s.numBytesConsumed + bytesConsumed }
    if s.isHalfClosed then
      some (true, s, [.processRawData data bytesConsumed, .terminateFromPeer])
    else if bytesConsumed > data.length then
      some (false, s, [.processRawData data bytesConsumed, .close .errorProcessingStream])
    else if bytesConsumed = data.length then
      (s.flushBufferedFrames reader 1).map fun result =>
        (true, result.1, .processRawData data bytesConsumed :: result.2)
    else
      let frames := s.frames.insert (frame.offset + bytesConsumed) (data.drop bytesConsumed)
      some (true, { s with frames }, [.processRawData data bytesConsumed])
  else some (true, { s with frames := s.frames.insert frame.offset data }, [])

def onStreamFrame (reader : ℕ → List Byte → ℕ) (frame : QuicStreamFrame) :
    Option (Bool × Sequencer × List Callback) :=
  if !s.willAcceptStreamFrame frame then some (false, s, [])
  else if s.isDuplicate frame then some (true, s, [])
  else if frame.data = [] ∧ !frame.fin then some (false, s, [.close .invalidStreamFrame])
  else if frame.fin then
    let (s, callbacks) := s.closeStreamAtOffset (frame.offset + frame.data.length)
    if frame.data = [] then some (true, s, callbacks)
    else (s.onData reader frame).map fun result =>
      (result.1, result.2.1, callbacks ++ result.2.2)
  else s.onData reader frame

/-- The regions that follow on each other from `offset` on. -/
def regionsFrom (offset : ℕ) : List (ℕ × List Byte) → List (List Byte)
  | [] => []
  | entry :: entries =>
    if entry.1 ≠ offset then [] else entry.2 :: regionsFrom (offset + entry.2.length) entries

def getReadableRegions (iovLen : ℕ) : List (List Byte) :=
  (regionsFrom s.numBytesConsumed s.frames.entries).take iovLen

/-- The loop of `Readv` over the buffers, of which only the sizes matter: the sequencer, the
offset in its first frame and the bytes copied. -/
def readvLoop : ℕ → Sequencer → List ℕ → ℕ → ℕ → List Byte →
    Option (Sequencer × ℕ × List Byte)
  | 0, _, _, _, _, _ => none
  | _ + 1, s, [], _, frameOffset, copied => some (s, frameOffset, copied)
  | fuel + 1, s, iovLen :: iovs, iovOffset, frameOffset, copied =>
    match s.frames.first with
    | none => some (s, frameOffset, copied)
    | some (offset, data) =>
      if offset ≠ s.numBytesConsumed then some (s, frameOffset, copied)
      else
        let bytesToRead := min (iovLen - iovOffset) (data.length - frameOffset)
        let copied := copied ++ (data.drop frameOffset).take bytesToRead
        let frameOffset := frameOffset + bytesToRead
        let iovOffset := iovOffset + bytesToRead
        let full := iovLen = iovOffset
        let iovs := if full then iovs else iovLen :: iovs
        let iovOffset := if full then 0 else iovOffset
        if data.length = frameOffset then
          readvLoop fuel { s with
            numBytesConsumed := s.numBytesConsumed + data.length
            frames := s.frames.erase offset } iovs iovOffset 0 copied
        else readvLoop fuel s iovs iovOffset frameOffset copied

/-- `Readv`: the sequencer after it and the bytes copied. -/
def readv (iovs : List ℕ) : Option (Sequencer × List Byte) :=
  match readvLoop (iovs.length + s.frames.size + 1) s iovs 0 0 [] with
  | none => none
  | some (s, frameOffset, copied) =>
    if frameOffset = 0 then some (s, copied)
    else
      match s.frames.first with
      | none => none
      | some (offset, data) =>
        some ({ s with
          frames := (s.frames.insert (offset + frameOffset) (data.drop frameOffset)).erase offset
          numBytesConsumed := s.numBytesConsumed + frameOffset }, copied)

/-- The loop of `MarkConsumed`: the sequencer, the bytes that are given up, and the calls on
the stream. -/
def markConsumedLoop (endOffset : ℕ) : ℕ → Sequencer → List Byte →
    Option (Sequencer × List Byte × List Callback)
  | 0, _, _ => none
  | fuel + 1, s, consumed =>
    match s.frames.first with
    | none => some (s, consumed, [])
    | some (offset, data) =>
      if endOffset = s.numBytesConsumed then some (s, consumed, [])
      else if offset ≠ s.numBytesConsumed then
        some (s, consumed, [.close .errorProcessingStream])
      else if offset + data.length ≤ endOffset then
        markConsumedLoop endOffset fuel { s with
          numBytesConsumed := s.numBytesConsumed + data.length
          frames := s.frames.erase offset } (consumed ++ data)
      else
        let delta := endOffset - offset
        some ({ s with
          numBytesConsumed := s.numBytesConsumed + delta
          frames := (s.frames.insert endOffset (data.drop delta)).erase offset },
          consumed ++ data.take delta, [])

def markConsumed (numBytesConsumed : ℕ) : Option (Sequencer × List Byte × List Callback) :=
  markConsumedLoop (s.numBytesConsumed + numBytesConsumed) (s.frames.size + 1) s []

end Sequencer

/-! ### Cutting a stream -/

def QuicStreamFrame.endOffset (f : QuicStreamFrame) : ℕ := f.offset + f.data.length

/-- The frames of a stream that is cut into pieces, with the FIN on the last of them. -/
def cutFrames : ℕ → List (List Byte) → List QuicStreamFrame
  | _, [] => []
  | offset, [piece] => [⟨offset, piece, true⟩]
  | offset, piece :: pieces => ⟨offset, piece, false⟩ :: cutFrames (offset + piece.length) pieces

/-- The bytes of the stream between two offsets. -/
def slice (stream : List Byte) (a b : ℕ) : List Byte := (stream.drop a).take (b - a)

/-- What the frames of a stream have in common, however it is cut. -/
structure IsCut (stream : List Byte) (cut : List QuicStreamFrame) : Prop where
  le : ∀ f ∈ cut, f.endOffset ≤ stream.length
  data : ∀ f ∈ cut, f.data = slice stream f.offset f.endOffset
  nonempty : ∀ f ∈ cut, f.data = [] → f.fin = true
  fin : ∀ f ∈ cut, f.fin = true → f.endOffset = stream.length
  existsFin : ∃ f ∈ cut, f.fin = true
  disjoint : ∀ f ∈ cut, ∀ g ∈ cut, f = g ∨ f.endOffset ≤ g.offset ∨ g.endOffset ≤ f.offset
  cover : ∀ n < stream.length, ∃ f ∈ cut, f.offset ≤ n ∧ n < f.endOffset

section Slice
variable (stream : List Byte) {a b c : ℕ}

lemma slice_length {stream : List Byte} (hb : b ≤ stream.length) :
    (slice stream a b).length = b - a := by
  rw [slice, List.length_take_of_le]
  rw [List.length_drop]
  omega

lemma slice_append (hab : a ≤ b) (hbc : b ≤ c) :
    slice stream a b ++ slice stream b c = slice stream a c := by
  have hc : c - a = (b - a) + (c - b) := by omega
  have hb : stream.drop b = (stream.drop a).drop (b - a) := by
    rw [List.drop_drop, Nat.add_sub_cancel' hab]
  unfold slice
  rw [hb, hc, List.take_add]

lemma slice_take (hbc : b ≤ c) : (slice stream a c).take (b - a) = slice stream a b := by
  unfold slice
  rw [List.take_take, Nat.min_eq_left (by omega)]

lemma slice_drop (hab : a ≤ b) : (slice stream a c).drop (b - a) = slice stream b c := by
  unfold slice
  rw [List.drop_take, List.drop_drop, Nat.add_sub_cancel' hab]
  congr 1
  omega

lemma slice_self (a : ℕ) : slice stream a a = [] := by
  rw [slice, Nat.sub_self, List.take_zero]

end Slice

lemma cutFrames_cons (offset : ℕ) (piece : List Byte) {pieces : List (List Byte)}
    (h : pieces ≠ []) : cutFrames offset (piece :: pieces) =
      ⟨offset, piece, false⟩ :: cutFrames (offset + piece.length) pieces := by
  cases pieces with
  | nil => exact absurd rfl h
  | cons _ _ => rfl

/-- The frames of a cut from `offset` on. -/
lemma mem_cutFrames {stream before : List Byte} {offset : ℕ} {pieces : List (List Byte)}
    (hstream : stream = before ++ pieces.flatten) (hoffset : before.length = offset) :
    ∀ f ∈ cutFrames offset pieces, offset ≤ f.offset ∧ f.endOffset ≤ stream.length ∧
      f.data = slice stream f.offset f.endOffset ∧
      (f.fin = true → f.endOffset = stream.length) := by
  induction pieces generalizing before offset with
  | nil => exact fun f hf => absurd hf List.not_mem_nil
  | cons piece pieces ih =>
    have hpiece : piece = slice stream offset (offset + piece.length) := by
      rw [hstream, List.flatten_cons, slice, ← hoffset, List.drop_left, Nat.add_sub_cancel_left,
        List.take_left]
    by_cases hnil : pieces = []
    · subst hnil
      have hlen : offset + piece.length = stream.length := by
        rw [hstream, List.length_append, hoffset]
        simp
      intro f hf
      rw [cutFrames, List.mem_singleton] at hf
      subst hf
      exact ⟨le_rfl, hlen.le, hpiece, fun _ => hlen⟩
    · have hstream' : stream = (before ++ piece) ++ pieces.flatten := by
        rw [hstream, List.flatten_cons, List.append_assoc]
      have hoffset' : (before ++ piece).length = offset + piece.length := by
        rw [List.length_append, hoffset]
      intro f hf
      rw [cutFrames_cons offset piece hnil, List.mem_cons] at hf
      rcases hf with rfl | hlater
      · refine ⟨le_rfl, ?_, hpiece, fun h => absurd h (by simp)⟩
        have hlen := congrArg List.length hstream'
        rw [List.length_append, hoffset'] at hlen
        exact hlen ▸ Nat.le_add_right _ _
      · obtain ⟨hle, hrest⟩ := ih hstream' hoffset' f hlater
        exact ⟨by omega, hrest⟩

lemma cutFrames_spec {stream before : List Byte} {offset : ℕ} {pieces : List (List Byte)}
    (hstream : stream = before ++ pieces.flatten) (hoffset : before.length = offset)
    (hpieces : pieces ≠ []) (hne : ∀ piece ∈ pieces.dropLast, piece ≠ []) :
    (∀ f ∈ cutFrames offset pieces, f.data = [] → f.fin = true) ∧
    (∃ f ∈ cutFrames offset pieces, f.fin = true) ∧
    (∀ f ∈ cutFrames offset pieces, ∀ g ∈ cutFrames offset pieces,
      f = g ∨ f.endOffset ≤ g.offset ∨ g.endOffset ≤ f.offset) ∧
    ∀ n, offset ≤ n → n < stream.length →
      ∃ f ∈ cutFrames offset pieces, f.offset ≤ n ∧ n < f.endOffset := by
  induction pieces generalizing before offset with
  | nil => exact absurd rfl hpieces
  | cons piece pieces ih =>
    by_cases hnil : pieces = []
    · subst hnil
      have hlen : offset + piece.length = stream.length := by
        rw [hstream, List.length_append, hoffset]
        simp
      have hmem : ∀ f, f ∈ cutFrames offset [piece] ↔ f = ⟨offset, piece, true⟩ := by
        intro f
        rw [cutFrames, List.mem_singleton]
      simp only [hmem]
      refine ⟨fun f hf _ => by rw [hf], ⟨_, rfl, rfl⟩, fun f hf g hg => .inl (hf.trans hg.symm), ?_⟩
      intro n hle hlt
      exact ⟨_, rfl, hle, hlt.trans_eq hlen.symm⟩
    · have hstream' : stream = (before ++ piece) ++ pieces.flatten := by
        rw [hstream, List.flatten_cons, List.append_assoc]
      have hoffset' : (before ++ piece).length = offset + piece.length := by
        rw [List.length_append, hoffset]
      rw [List.dropLast_cons_of_ne_nil hnil, List.forall_mem_cons] at hne
      obtain ⟨hnonempty, ⟨last, hlast, hfin⟩, hdisjoint, hcover⟩ :=
        ih hstream' hoffset' hnil hne.2
      have hlater := mem_cutFrames hstream' hoffset'
      rw [cutFrames_cons offset piece hnil]
      refine ⟨?_, ⟨last, List.mem_cons_of_mem _ hlast, hfin⟩, ?_, ?_⟩
      · rw [List.forall_mem_cons]
        exact ⟨fun h => absurd h hne.1, hnonempty⟩
      · intro f hf g hg
        rcases List.mem_cons.mp hf with rfl | hf' <;> rcases List.mem_cons.mp hg with rfl | hg'
        · exact .inl rfl
        · exact .inr (.inl (hlater g hg').1)
        · exact .inr (.inr (hlater f hf').1)
        · exact hdisjoint f hf' g hg'
      · intro n hle hlt
        by_cases hn : n < offset + piece.length
        · exact ⟨_, List.mem_cons_self, hle, hn⟩
        · obtain ⟨f, hf, hrange⟩ := hcover n (not_lt.mp hn) hlt
          exact ⟨f, List.mem_cons_of_mem _ hf, hrange⟩

lemma isCut_cutFrames {pieces : List (List Byte)} (hpieces : pieces ≠ [])
    (hne : ∀ piece ∈ pieces.dropLast, piece ≠ []) :
    IsCut pieces.flatten (cutFrames 0 pieces) := by
  have hmem := mem_cutFrames (List.nil_append pieces.flatten).symm rfl
  obtain ⟨hnonempty, hfin, hdisjoint, hcover⟩ :=
    cutFrames_spec (List.nil_append pieces.flatten).symm rfl hpieces hne
  constructor
  · exact fun f hf => (hmem f hf).2.1
  · exact fun f hf => (hmem f hf).2.2.1
  · exact hnonempty
  · exact fun f hf => (hmem f hf).2.2.2
  · exact hfin
  · exact hdisjoint
  · exact fun n hn => hcover n (Nat.zero_le n) hn

/-! ### What is stored -/

section
variable {stream : List Byte} {cut arrived : List QuicStreamFrame} {s t : Sequencer}

/-- The frame's part from `consumed` on is stored at `offset`. -/
def StoredAt (stream : List Byte) (consumed : ℕ) (f : QuicStreamFrame) (offset : ℕ)
    (data : List Byte) : Prop :=
  f.offset < f.endOffset ∧ consumed < f.endOffset ∧ offset = max f.offset consumed ∧
    data = slice stream offset f.endOffset

/-- What is stored is what has arrived and is not consumed. -/
structure Inv (stream : List Byte) (cut arrived : List QuicStreamFrame) (s : Sequencer) :
    Prop where
  le : s.numBytesConsumed ≤ stream.length
  stored : s.numBytesConsumed < stream.length → ∀ offset data,
    s.frames.find offset = some data ↔
      ∃ f ∈ arrived, StoredAt stream s.numBytesConsumed f offset data
  -- a frame that ends the stream may stay behind when it is flushed
  past : s.numBytesConsumed = stream.length → ∀ offset data,
    s.frames.find offset = some data → offset < stream.length
  sub : ∀ f ∈ arrived, f ∈ cut
  covered : ∀ f ∈ cut, f.offset < f.endOffset → f.offset < s.numBytesConsumed → f ∈ arrived
  close : s.closeOffset = kMaxOffset ∨ s.closeOffset = stream.length
  fin : (∃ f ∈ arrived, f.fin = true) → s.closeOffset = stream.length

lemma Inv.consumed_of_isHalfClosed (h : Inv stream cut arrived s)
    (hlen : stream.length ≤ kMaxOffset) (hclosed : s.isHalfClosed = true) :
    s.numBytesConsumed = stream.length := by
  have hge : s.closeOffset ≤ s.numBytesConsumed := of_decide_eq_true hclosed
  have hle := h.le
  rcases h.close with hclose | hclose <;> omega

/-- What can be read is a part of a frame, and there is some of it. -/
lemma Inv.find_consumed (h : Inv stream cut arrived s) (hcut : IsCut stream cut) {data : List Byte}
    (hfind : s.frames.find s.numBytesConsumed = some data) :
    ∃ f ∈ arrived, f.offset ≤ s.numBytesConsumed ∧ s.numBytesConsumed < f.endOffset ∧
      f.endOffset ≤ stream.length ∧ f.offset < f.endOffset ∧
      data = slice stream s.numBytesConsumed f.endOffset := by
  have hlt : s.numBytesConsumed < stream.length := by
    rcases h.le.lt_or_eq with hlt | heq
    · exact hlt
    · exact absurd (h.past heq _ _ hfind) (by omega)
  obtain ⟨f, hf, hpos, hend, hoffset, hdata⟩ := (h.stored hlt _ _).mp hfind
  exact ⟨f, hf, by omega, hend, hcut.le f (h.sub f hf), hpos, hdata⟩

/-- Two frames with a byte in common are the same. -/
lemma IsCut.eq_of_mem (hcut : IsCut stream cut) {f g : QuicStreamFrame} (hf : f ∈ cut)
    (hg : g ∈ cut) {n : ℕ} (hfn : f.offset ≤ n ∧ n < f.endOffset)
    (hgn : g.offset ≤ n ∧ n < g.endOffset) : f = g := by
  rcases hcut.disjoint f hf g hg with heq | hle | hle
  · exact heq
  · omega
  · omega

/-- What a part of the readable bytes is, and the frames that it comes from. -/
lemma Inv.read (h : Inv stream cut arrived s) (hcut : IsCut stream cut) {data : List Byte}
    (hfind : s.frames.find s.numBytesConsumed = some data) {n : ℕ} (hn : n ≤ data.length) :
    s.numBytesConsumed + n ≤ stream.length ∧
      data.take n = slice stream s.numBytesConsumed (s.numBytesConsumed + n) ∧
      ∀ g ∈ cut, g.offset < g.endOffset → g.offset < s.numBytesConsumed + n → g ∈ arrived := by
  obtain ⟨f, hf, hfle, hflt, hfend, hfpos, hdata⟩ := h.find_consumed hcut hfind
  have hlen : data.length = f.endOffset - s.numBytesConsumed := by
    rw [hdata, slice_length hfend]
  refine ⟨by omega, ?_, fun g hg hgpos hlt => ?_⟩
  · have htake := slice_take stream (a := s.numBytesConsumed)
      (show s.numBytesConsumed + n ≤ f.endOffset by omega)
    rw [Nat.add_sub_cancel_left] at htake
    rw [hdata, htake]
  · by_cases hold : g.offset < s.numBytesConsumed
    · exact h.covered g hg hgpos hold
    · rw [hcut.eq_of_mem hg (h.sub f hf) (n := g.offset) ⟨le_rfl, hgpos⟩ (by omega)]
      exact hf

/-- A part of what can be read is taken. -/
theorem Inv.consume (h : Inv stream cut arrived s) (hcut : IsCut stream cut) {data : List Byte}
    (hfind : s.frames.find s.numBytesConsumed = some data) {n : ℕ} (hn : n ≤ data.length)
    (hconsumed : t.numBytesConsumed = s.numBytesConsumed + n)
    (hclose : t.closeOffset = s.closeOffset)
    (hframes : ∀ offset, t.frames.find offset =
      if offset = s.numBytesConsumed + n ∧ n < data.length then some (data.drop n)
      else if offset = s.numBytesConsumed then none else s.frames.find offset) :
    Inv stream cut arrived t ∧
      data.take n = slice stream s.numBytesConsumed t.numBytesConsumed := by
  obtain ⟨f, hf, hfle, hflt, hfend, hfpos, hdata⟩ := h.find_consumed hcut hfind
  have hlen : data.length = f.endOffset - s.numBytesConsumed := by
    rw [hdata, slice_length hfend]
  have hlt : s.numBytesConsumed < stream.length := by omega
  -- the frames after this one
  have hother : ∀ g ∈ arrived, g.offset < g.endOffset → s.numBytesConsumed < g.endOffset →
      g ≠ f → f.endOffset ≤ g.offset := by
    intro g hg hgpos hgend hne
    rcases hcut.disjoint g (h.sub g hg) f (h.sub f hf) with heq | hle | hle
    · exact absurd heq hne
    · omega
    · exact hle
  have hdrop : data.drop n = slice stream (s.numBytesConsumed + n) f.endOffset := by
    rw [hdata]
    have := slice_drop stream (c := f.endOffset) (Nat.le_add_right s.numBytesConsumed n)
    rwa [Nat.add_sub_cancel_left] at this
  obtain ⟨-, htake, hcovered⟩ := h.read hcut hfind hn
  rw [← hconsumed] at htake hcovered
  refine ⟨⟨by omega, ?_, ?_, h.sub, hcovered, hclose ▸ h.close, hclose ▸ h.fin⟩, htake⟩
  · intro hlt' offset d
    rw [hframes, hconsumed]
    constructor
    · intro hd
      split_ifs at hd with hrest hnone
      · cases hd
        exact ⟨f, hf, hfpos, by omega, by omega, by rw [hdrop, hrest.1]⟩
      · obtain ⟨g, hg, hgpos, hgend, hoffset, hgdata⟩ := (h.stored hlt _ _).mp hd
        have hne : g ≠ f := by
          rintro rfl
          omega
        have hle := hother g hg hgpos hgend hne
        exact ⟨g, hg, hgpos, by omega, by omega, hgdata⟩
    · rintro ⟨g, hg, hgpos, hgend, hoffset, hgdata⟩
      by_cases hne : g = f
      · subst hne
        rw [if_pos (by omega), hgdata, hdrop]
        congr 2
        omega
      · have hle := hother g hg hgpos (by omega) hne
        rw [if_neg (by omega), if_neg (by omega)]
        exact (h.stored hlt _ _).mpr ⟨g, hg, hgpos, by omega, by omega, hgdata⟩
  · intro heq offset d hd
    rw [hframes] at hd
    split_ifs at hd with hrest hnone
    · omega
    · obtain ⟨g, hg, hgpos, hgend, hoffset, -⟩ := (h.stored hlt _ _).mp hd
      have := hcut.le g (h.sub g hg)
      omega

/-- The end of the stream is reached, whatever stays behind. -/
lemma Inv.finish (h : Inv stream cut arrived s) (hcut : IsCut stream cut) {data : List Byte}
    (hfind : s.frames.find s.numBytesConsumed = some data) {n : ℕ} (hn : n ≤ data.length)
    (hconsumed : t.numBytesConsumed = s.numBytesConsumed + n)
    (hclose : t.closeOffset = s.closeOffset)
    (hframes : ∀ offset d, t.frames.find offset = some d → s.frames.find offset = some d)
    (hend : t.numBytesConsumed = stream.length) :
    Inv stream cut arrived t ∧
      data.take n = slice stream s.numBytesConsumed t.numBytesConsumed := by
  obtain ⟨f, hf, -, hflt, hfend, -⟩ := h.find_consumed hcut hfind
  have hlt : s.numBytesConsumed < stream.length := by omega
  obtain ⟨-, htake, hcovered⟩ := h.read hcut hfind hn
  rw [← hconsumed] at htake hcovered
  refine ⟨⟨hend.le, fun hlt' => absurd hend hlt'.ne, ?_, h.sub, hcovered, hclose ▸ h.close,
    hclose ▸ h.fin⟩, htake⟩
  intro _ offset d hd
  obtain ⟨g, hg, hgpos, hgend, hoffset, -⟩ := (h.stored hlt _ _).mp (hframes offset d hd)
  have := hcut.le g (h.sub g hg)
  omega

/-! ### The operations -/

/-- The bytes that the reader takes in the calls. -/
def deliveredBy (callbacks : List Callback) : List Byte :=
  callbacks.flatMap fun
    | .processRawData data bytesConsumed => data.take bytesConsumed
    | _ => []

/-- How often the end of the stream is reported. -/
def reportsIn (callbacks : List Callback) : ℕ := callbacks.count .terminateFromPeer

/-- From `s` to `t`, the reader has got `bytes`. -/
structure Progress (stream : List Byte) (cut arrived : List QuicStreamFrame) (s t : Sequencer)
    (bytes : List Byte) : Prop where
  inv : Inv stream cut arrived t
  le : s.numBytesConsumed ≤ t.numBytesConsumed
  bytes : bytes = slice stream s.numBytesConsumed t.numBytesConsumed
  close : t.closeOffset = s.closeOffset
  memory : t.maxFrameMemory = s.maxFrameMemory

lemma Progress.refl (h : Inv stream cut arrived s) : Progress stream cut arrived s s [] :=
  ⟨h, le_rfl, (slice_self stream _).symm, rfl, rfl⟩

/-- What is stored before is of no account. -/
lemma Progress.congr {frames : SortedMap ℕ (List Byte)} {bytes : List Byte}
    (h : Progress stream cut arrived { s with frames } t bytes) :
    Progress stream cut arrived s t bytes :=
  ⟨h.inv, h.le, h.bytes, h.close, h.memory⟩

lemma Progress.trans {u : Sequencer} {bytes bytes' : List Byte}
    (hst : Progress stream cut arrived s t bytes) (htu : Progress stream cut arrived t u bytes') :
    Progress stream cut arrived s u (bytes ++ bytes') := by
  refine ⟨htu.inv, hst.le.trans htu.le, ?_, htu.close.trans hst.close,
    htu.memory.trans hst.memory⟩
  rw [hst.bytes, htu.bytes, slice_append stream hst.le htu.le]

/-- Nothing is stored inside of a readable frame. -/
lemma Inv.find_inside (h : Inv stream cut arrived s) (hcut : IsCut stream cut) {data : List Byte}
    (hfind : s.frames.find s.numBytesConsumed = some data) {n : ℕ} (hpos : 0 < n)
    (hn : n < data.length) : s.frames.find (s.numBytesConsumed + n) = none := by
  obtain ⟨f, hf, hfle, hflt, hfend, hfpos, hdata⟩ := h.find_consumed hcut hfind
  have hlen : data.length = f.endOffset - s.numBytesConsumed := by
    rw [hdata, slice_length hfend]
  by_contra hne
  obtain ⟨d, hd⟩ := Option.ne_none_iff_exists'.mp hne
  obtain ⟨g, hg, hgpos, hgend, hoffset, -⟩ := (h.stored (by omega) _ _).mp hd
  have heq := hcut.eq_of_mem (h.sub g hg) (h.sub f hf) (n := s.numBytesConsumed + n) (by omega)
    (by omega)
  rw [heq] at hoffset
  omega

/-- The rest of a frame is stored in its place. -/
lemma Inv.find_erase_insert (h : Inv stream cut arrived s) (hcut : IsCut stream cut)
    {data : List Byte} (hfind : s.frames.find s.numBytesConsumed = some data) {n : ℕ}
    (hn : n < data.length) (rest : List Byte) (offset : ℕ) :
    ((s.frames.erase s.numBytesConsumed).insert (s.numBytesConsumed + n) rest).find offset =
      if offset = s.numBytesConsumed + n then some rest
      else if offset = s.numBytesConsumed then none else s.frames.find offset := by
  have hnone : (s.frames.erase s.numBytesConsumed).find (s.numBytesConsumed + n) = none := by
    rw [SortedMap.find_erase]
    by_cases hzero : n = 0
    · rw [if_pos (by omega)]
    · rw [if_neg (by omega), h.find_inside hcut hfind (by omega) hn]
  rw [SortedMap.find_insert, hnone, SortedMap.find_erase]
  rfl

lemma Inv.find_insert_erase (h : Inv stream cut arrived s) (hcut : IsCut stream cut)
    {data : List Byte} (hfind : s.frames.find s.numBytesConsumed = some data) {n : ℕ}
    (hpos : 0 < n) (hn : n < data.length) (rest : List Byte) (offset : ℕ) :
    ((s.frames.insert (s.numBytesConsumed + n) rest).erase s.numBytesConsumed).find offset =
      if offset = s.numBytesConsumed + n then some rest
      else if offset = s.numBytesConsumed then none else s.frames.find offset := by
  rw [SortedMap.find_erase, SortedMap.find_insert, h.find_inside hcut hfind hpos hn]
  by_cases hnew : offset = s.numBytesConsumed + n
  · rw [if_neg (by omega), if_pos hnew, if_pos hnew]
    rfl
  · rw [if_neg hnew, if_neg hnew]

/-- A readable frame is taken as a whole. -/
lemma Inv.takeAll (h : Inv stream cut arrived s) (hcut : IsCut stream cut) {data : List Byte}
    (hfind : s.frames.find s.numBytesConsumed = some data) :
    Progress stream cut arrived s { s with
      numBytesConsumed := s.numBytesConsumed + data.length
      frames := s.frames.erase s.numBytesConsumed } data := by
  have hframes : ∀ offset, (s.frames.erase s.numBytesConsumed).find offset =
      if offset = s.numBytesConsumed + data.length ∧ data.length < data.length then
        some (data.drop data.length)
      else if offset = s.numBytesConsumed then none else s.frames.find offset := by
    intro offset
    rw [if_neg (by simp), SortedMap.find_erase]
  obtain ⟨hinv, hbytes⟩ := h.consume hcut hfind le_rfl
    (t := { s with
      numBytesConsumed := s.numBytesConsumed + data.length
      frames := s.frames.erase s.numBytesConsumed }) rfl rfl hframes
  rw [List.take_length] at hbytes
  exact ⟨hinv, Nat.le_add_right _ _, hbytes, rfl, rfl⟩

/-- A readable frame is taken in part, and the rest is stored again. -/
lemma Inv.takePart (h : Inv stream cut arrived s) (hcut : IsCut stream cut) {data : List Byte}
    (hfind : s.frames.find s.numBytesConsumed = some data) {n : ℕ} (hn : n < data.length)
    {frames : SortedMap ℕ (List Byte)}
    (hframes : ∀ offset, frames.find offset =
      if offset = s.numBytesConsumed + n then some (data.drop n)
      else if offset = s.numBytesConsumed then none else s.frames.find offset) :
    Progress stream cut arrived s
      { s with numBytesConsumed := s.numBytesConsumed + n, frames } (data.take n) := by
  obtain ⟨hinv, hbytes⟩ := h.consume hcut hfind hn.le
    (t := { s with numBytesConsumed := s.numBytesConsumed + n, frames }) rfl rfl (by
      intro offset
      simp only [hn, and_true]
      exact hframes offset)
  exact ⟨hinv, Nat.le_add_right _ _, hbytes, rfl, rfl⟩

lemma Inv.not_isHalfClosed (h : Inv stream cut arrived s) (hcut : IsCut stream cut)
    (hlen : stream.length ≤ kMaxOffset) {data : List Byte}
    (hfind : s.frames.find s.numBytesConsumed = some data) : s.isHalfClosed = false := by
  obtain ⟨f, -, -, hflt, hfend, -⟩ := h.find_consumed hcut hfind
  by_contra hclosed
  have := h.consumed_of_isHalfClosed hlen (by simpa using hclosed)
  omega

/-- When taking a part of a frame closes the stream, all of it is taken. What was stored may
stay behind. -/
lemma Inv.takeLast (h : Inv stream cut arrived s) (hcut : IsCut stream cut)
    (hlen : stream.length ≤ kMaxOffset) {data : List Byte}
    (hfind : s.frames.find s.numBytesConsumed = some data) {n : ℕ} (hn : n ≤ data.length)
    {frames : SortedMap ℕ (List Byte)}
    (hframes : ∀ offset d, frames.find offset = some d → s.frames.find offset = some d)
    (hclosed : Sequencer.isHalfClosed
      { s with numBytesConsumed := s.numBytesConsumed + n, frames }) :
    Progress stream cut arrived s { s with numBytesConsumed := s.numBytesConsumed + n, frames }
      (data.take n) := by
  have hge : s.closeOffset ≤ s.numBytesConsumed + n := of_decide_eq_true hclosed
  have hend : s.numBytesConsumed + n = stream.length := by
    obtain ⟨hle, -⟩ := h.read hcut hfind hn
    rcases h.close with hclose | hclose <;> omega
  obtain ⟨hinv, hbytes⟩ := h.finish hcut hfind hn
    (t := { s with numBytesConsumed := s.numBytesConsumed + n, frames }) rfl rfl hframes hend
  exact ⟨hinv, Nat.le_add_right _ _, hbytes, rfl, rfl⟩

/-- Flushing goes on until the reader takes less than a frame, or no frame is next. -/
theorem flushLoop_spec (hcut : IsCut stream cut) (hlen : stream.length ≤ kMaxOffset)
    {reader : ℕ → List Byte → ℕ} (hreader : ∀ i data, reader i data ≤ data.length) {fuel : ℕ}
    (i : ℕ) (h : Inv stream cut arrived s) (hfuel : s.frames.size < fuel) :
    ∃ t callbacks, Sequencer.flushLoop reader fuel i s = some (t, callbacks) ∧
      Progress stream cut arrived s t (deliveredBy callbacks) ∧
      reportsIn callbacks = if t.isHalfClosed ∧ ¬ s.isHalfClosed then 1 else 0 := by
  induction fuel generalizing s i with
  | zero => exact absurd hfuel (Nat.not_lt_zero _)
  | succ fuel ih =>
    rw [Sequencer.flushLoop]
    cases hfind : s.frames.find s.numBytesConsumed with
    | none => exact ⟨s, [], rfl, .refl h, by simp [reportsIn]⟩
    | some data =>
      have hopen := h.not_isHalfClosed hcut hlen hfind
      have hn := hreader i data
      simp only [hopen]
      by_cases hclosed : Sequencer.isHalfClosed
          { s with numBytesConsumed := s.numBytesConsumed + reader i data } = true
      · rw [if_pos hclosed]
        refine ⟨_, _, rfl, ?_, ?_⟩
        · simpa [deliveredBy] using h.takeLast hcut hlen hfind hn (fun _ _ hd => hd) hclosed
        · simp [reportsIn, hclosed]
      rw [if_neg hclosed, if_neg (not_lt.mpr hn)]
      by_cases hall : reader i data = data.length
      · -- the frame is gone, and the next one may follow
        have hstep := h.takeAll hcut hfind
        have hsize := SortedMap.size_erase hfind
        obtain ⟨t, callbacks, hloop, hprogress, hreports⟩ := ih (i + 1) hstep.inv (by
          simp only
          omega)
        rw [if_pos hall, hall, hloop]
        refine ⟨t, _, rfl, ?_, ?_⟩
        · have := hstep.trans hprogress
          simpa [deliveredBy] using this
        · rw [hall] at hclosed
          have hcount : reportsIn (.processRawData data data.length :: callbacks) =
              reportsIn callbacks := by simp [reportsIn]
          have hopen' : Sequencer.isHalfClosed { s with
              numBytesConsumed := s.numBytesConsumed + data.length
              frames := s.frames.erase s.numBytesConsumed } = false := by
            simpa [Sequencer.isHalfClosed] using hclosed
          simp only [hcount, hreports, hopen']
      · rw [if_neg hall]
        refine ⟨_, _, rfl, ?_, ?_⟩
        · have hlt : reader i data < data.length := lt_of_le_of_ne hn hall
          simpa [deliveredBy] using
            h.takePart hcut hfind hlt (h.find_erase_insert hcut hfind hlt _)
        · have hopen' : ∀ frames, Sequencer.isHalfClosed { s with
              numBytesConsumed := s.numBytesConsumed + reader i data, frames } = false := by
            intro frames
            simpa [Sequencer.isHalfClosed] using hclosed
          simp [reportsIn, hopen']

/-- A frame that has not been seen is stored. -/
lemma Inv.store (h : Inv stream cut arrived s) (hcut : IsCut stream cut) {f : QuicStreamFrame}
    (hf : f ∈ cut) (hnew : s.isDuplicate f = false) (hdata : f.data ≠ [])
    (hfin : f.fin = true → s.closeOffset = stream.length) :
    Inv stream cut (arrived ++ [f]) { s with frames := s.frames.insert f.offset f.data } := by
  have hnot : s.numBytesConsumed ≤ f.offset ∧ s.frames.find f.offset = none := by
    simpa [Sequencer.isDuplicate] using hnew
  obtain ⟨hle, hnone⟩ := hnot
  have hpos : f.offset < f.endOffset := by
    have := List.length_pos_of_ne_nil hdata
    rw [QuicStreamFrame.endOffset]
    omega
  have hend := hcut.le f hf
  have hlt : s.numBytesConsumed < stream.length := by omega
  constructor
  · exact h.le
  · intro _ offset d
    simp only
    rw [SortedMap.find_insert, hnone]
    constructor
    · intro hd
      split_ifs at hd with heq
      · cases hd
        refine ⟨f, by simp, hpos, by omega, by omega, ?_⟩
        rw [heq]
        exact hcut.data f hf
      · obtain ⟨g, hg, hstored⟩ := (h.stored hlt _ _).mp hd
        exact ⟨g, List.mem_append_left _ hg, hstored⟩
    · rintro ⟨g, hg, hstored⟩
      rcases List.mem_append.mp hg with hold | hlast
      · have hd := (h.stored hlt _ _).mpr ⟨g, hold, hstored⟩
        rw [if_neg, hd]
        rintro rfl
        rw [hnone] at hd
        cases hd
      · rw [List.mem_singleton.mp hlast] at hstored
        obtain ⟨-, -, hoffset, hd⟩ := hstored
        have heq : offset = f.offset := by omega
        rw [if_pos heq, hd, heq, ← hcut.data f hf]
        rfl
  · exact fun heq => absurd heq hlt.ne
  · intro g hg
    rcases List.mem_append.mp hg with hold | hlast
    · exact h.sub g hold
    · rw [List.mem_singleton.mp hlast]
      exact hf
  · exact fun g hg hgpos hgle => List.mem_append_left _ (h.covered g hg hgpos hgle)
  · exact h.close
  · rintro ⟨g, hg, hgfin⟩
    rcases List.mem_append.mp hg with hold | hlast
    · exact h.fin ⟨g, hold, hgfin⟩
    · rw [List.mem_singleton.mp hlast] at hgfin
      exact hfin hgfin

/-- A frame whose arrival changes nothing. -/
lemma Inv.again (h : Inv stream cut arrived s) {f : QuicStreamFrame} (hf : f ∈ arrived) :
    Inv stream cut (arrived ++ [f]) s := by
  have hmem : ∀ g, g ∈ arrived ++ [f] ↔ g ∈ arrived := by
    intro g
    rw [List.mem_append, List.mem_singleton]
    constructor
    · rintro (hg | rfl)
      · exact hg
      · exact hf
    · exact .inl
  constructor
  · exact h.le
  · simp only [hmem]
    exact h.stored
  · exact h.past
  · simp only [hmem]
    exact h.sub
  · simp only [hmem]
    exact h.covered
  · exact h.close
  · simp only [hmem]
    exact h.fin

/-- A duplicate has arrived before. -/
lemma Inv.mem_of_isDuplicate (h : Inv stream cut arrived s) (hcut : IsCut stream cut)
    {f : QuicStreamFrame} (hf : f ∈ cut) (hdup : s.isDuplicate f = true) : f ∈ arrived := by
  have hend := hcut.le f hf
  have hle := h.le
  have hendle : f.offset ≤ f.endOffset := Nat.le_add_right _ _
  have hcases : f.offset < s.numBytesConsumed ∨ ∃ d, s.frames.find f.offset = some d := by
    simpa [Sequencer.isDuplicate, Option.isSome_iff_exists] using hdup
  have hpos : f.offset < stream.length → f.offset < f.endOffset := by
    intro hlt
    by_contra hnot
    have hnil : f.data = [] := by
      rw [← List.length_eq_zero_iff]
      rw [QuicStreamFrame.endOffset] at hnot
      omega
    have := hcut.fin f hf (hcut.nonempty f hf hnil)
    omega
  rcases hcases with hlt | ⟨d, hd⟩
  · exact h.covered f hf (hpos (by omega)) hlt
  · rcases hle.lt_or_eq with hlt | heq
    · obtain ⟨g, hg, hgpos, hgend, hoffset, -⟩ := (h.stored hlt _ _).mp hd
      have hglt := hcut.le g (h.sub g hg)
      have hfpos := hpos (by omega)
      rw [hcut.eq_of_mem hf (h.sub g hg) (n := f.offset) ⟨le_rfl, hfpos⟩ (by omega)]
      exact hg
    · have hlt := h.past heq _ _ hd
      exact h.covered f hf (hpos hlt) (by omega)

/-- A frame with data that has not been seen is stored or handed on. -/
theorem onData_spec (hcut : IsCut stream cut) (hlen : stream.length ≤ kMaxOffset)
    {reader : ℕ → List Byte → ℕ} (hreader : ∀ i data, reader i data ≤ data.length)
    (h : Inv stream cut arrived s) {f : QuicStreamFrame} (hf : f ∈ cut)
    (hnew : s.isDuplicate f = false) (hdata : f.data ≠ [])
    (hfin : f.fin = true → s.closeOffset = stream.length) :
    ∃ t callbacks, s.onData reader f = some (true, t, callbacks) ∧
      Progress stream cut (arrived ++ [f]) s t (deliveredBy callbacks) ∧
      reportsIn callbacks = if t.isHalfClosed then 1 else 0 := by
  have hstore := h.store hcut hf hnew hdata hfin
  have hnot : s.numBytesConsumed ≤ f.offset ∧ s.frames.find f.offset = none := by
    simpa [Sequencer.isDuplicate] using hnew
  obtain ⟨hle, hnone⟩ := hnot
  have hpos := List.length_pos_of_ne_nil hdata
  have hend := hcut.le f hf
  unfold Sequencer.onData
  by_cases hnext : f.offset = s.numBytesConsumed
  swap
  · simp only [if_neg hnext]
    refine ⟨_, [], rfl, ⟨hstore, le_rfl, (slice_self stream _).symm, rfl, rfl⟩, ?_⟩
    have hopen : ¬ Sequencer.isHalfClosed
        { s with frames := s.frames.insert f.offset f.data } = true := by
      intro hclosed
      have heq : s.numBytesConsumed = stream.length :=
        hstore.consumed_of_isHalfClosed hlen hclosed
      rw [QuicStreamFrame.endOffset] at hend
      omega
    rw [if_neg hopen]
    rfl
  -- as if the frame were stored first and then read
  have hfound : (s.frames.insert f.offset f.data).find f.offset = some f.data := by
    rw [SortedMap.find_insert, if_pos rfl, hnone]
    rfl
  have hold : ∀ offset, offset ≠ s.numBytesConsumed →
      (s.frames.insert f.offset f.data).find offset = s.frames.find offset := by
    intro offset hne
    rw [SortedMap.find_insert, if_neg (hnext ▸ hne)]
  rw [hnext] at hfound hnone hstore hold
  have hn := hreader 0 f.data
  simp only [hnext]
  by_cases hclosed : Sequencer.isHalfClosed
      { s with numBytesConsumed := s.numBytesConsumed + reader 0 f.data } = true
  · rw [if_pos hclosed]
    refine ⟨_, _, rfl, ?_, ?_⟩
    · have hframes : ∀ offset d, s.frames.find offset = some d →
          (s.frames.insert s.numBytesConsumed f.data).find offset = some d := by
        intro offset d hd
        rw [hold, hd]
        rintro rfl
        rw [hnone] at hd
        cases hd
      have htake := hstore.takeLast hcut hlen hfound hn hframes hclosed
      simpa [deliveredBy] using htake.congr
    · simp [reportsIn, hclosed]
  rw [if_neg hclosed, if_neg (not_lt.mpr hn)]
  by_cases hall : reader 0 f.data = f.data.length
  · rw [hall] at hclosed
    have hframes : ∀ offset, s.frames.find offset =
        if offset = s.numBytesConsumed + f.data.length ∧ f.data.length < f.data.length then
          some (f.data.drop f.data.length)
        else if offset = s.numBytesConsumed then none
        else (s.frames.insert s.numBytesConsumed f.data).find offset := by
      intro offset
      rw [if_neg (by simp)]
      split_ifs with heq
      · rw [heq, hnone]
      · rw [hold offset heq]
    obtain ⟨hinv, hbytes⟩ := hstore.consume hcut hfound le_rfl
      (t := { s with numBytesConsumed := s.numBytesConsumed + f.data.length }) rfl rfl hframes
    rw [List.take_length] at hbytes
    have hfirst : Progress stream cut (arrived ++ [f]) s
        { s with numBytesConsumed := s.numBytesConsumed + f.data.length } f.data :=
      ⟨hinv, Nat.le_add_right _ _, hbytes, rfl, rfl⟩
    obtain ⟨t, callbacks, hloop, hprogress, hreports⟩ :=
      flushLoop_spec hcut hlen hreader 1 hinv (Nat.lt_succ_self _)
    rw [if_pos hall, hall, Sequencer.flushBufferedFrames, hloop]
    refine ⟨t, _, rfl, ?_, ?_⟩
    · simpa [deliveredBy] using hfirst.trans hprogress
    · have hcount : reportsIn (.processRawData f.data f.data.length :: callbacks) =
          reportsIn callbacks := by simp [reportsIn]
      rw [hcount, hreports]
      simp only [hclosed, Bool.false_eq_true, and_true, not_false_iff]
  · have hlt : reader 0 f.data < f.data.length := lt_of_le_of_ne hn hall
    have hinside : s.frames.find (s.numBytesConsumed + reader 0 f.data) = none := by
      by_cases hzero : reader 0 f.data = 0
      · rw [hzero, Nat.add_zero, hnone]
      · rw [← hold _ (by omega)]
        exact hstore.find_inside hcut hfound (Nat.pos_of_ne_zero hzero) hlt
    have hframes : ∀ offset, (s.frames.insert (s.numBytesConsumed + reader 0 f.data)
        (f.data.drop (reader 0 f.data))).find offset =
        if offset = s.numBytesConsumed + reader 0 f.data then some (f.data.drop (reader 0 f.data))
        else if offset = s.numBytesConsumed then none
        else (s.frames.insert s.numBytesConsumed f.data).find offset := by
      intro offset
      rw [SortedMap.find_insert, hinside]
      split_ifs with hnew heq
      · rfl
      · rw [heq, hnone]
      · rw [hold offset heq]
    rw [if_neg hall]
    refine ⟨_, _, rfl, ?_, ?_⟩
    · simpa [deliveredBy] using (hstore.takePart hcut hfound hlt hframes).congr
    · have hopen : ∀ frames, Sequencer.isHalfClosed { s with
          numBytesConsumed := s.numBytesConsumed + reader 0 f.data, frames } = false := by
        intro frames
        simpa [Sequencer.isHalfClosed] using hclosed
      simp [reportsIn, hopen]

/-- An empty frame with the FIN only says where the stream ends. -/
lemma Inv.arriveEmpty (h : Inv stream cut arrived s) {f : QuicStreamFrame} (hf : f ∈ cut)
    (hdata : f.data = []) (hclose : s.closeOffset = stream.length) :
    Inv stream cut (arrived ++ [f]) s := by
  have hempty : ¬ f.offset < f.endOffset := by
    rw [QuicStreamFrame.endOffset, hdata]
    exact Nat.lt_irrefl _
  constructor
  · exact h.le
  · intro hlt offset d
    rw [h.stored hlt]
    constructor
    · rintro ⟨g, hg, hstored⟩
      exact ⟨g, List.mem_append_left _ hg, hstored⟩
    · rintro ⟨g, hg, hstored⟩
      rcases List.mem_append.mp hg with hold | hlast
      · exact ⟨g, hold, hstored⟩
      · rw [List.mem_singleton.mp hlast] at hstored
        exact absurd hstored.1 hempty
  · exact h.past
  · intro g hg
    rcases List.mem_append.mp hg with hold | hlast
    · exact h.sub g hold
    · rw [List.mem_singleton.mp hlast]
      exact hf
  · exact fun g hg hgpos hgle => List.mem_append_left _ (h.covered g hg hgpos hgle)
  · exact h.close
  · exact fun _ => hclose

/-- What `OnStreamFrame` does with a frame of the stream. The end is reported when it is
reached, and again for an empty frame after the end. -/
theorem onStreamFrame_spec (hcut : IsCut stream cut) (hlen : stream.length ≤ kMaxOffset)
    {reader : ℕ → List Byte → ℕ} (hreader : ∀ i data, reader i data ≤ data.length)
    (h : Inv stream cut arrived s) {f : QuicStreamFrame} (hf : f ∈ cut) :
    ∃ ok t callbacks, s.onStreamFrame reader f = some (ok, t, callbacks) ∧
      Inv stream cut (if ok then arrived ++ [f] else arrived) t ∧
      s.numBytesConsumed ≤ t.numBytesConsumed ∧
      deliveredBy callbacks = slice stream s.numBytesConsumed t.numBytesConsumed ∧
      t.maxFrameMemory = s.maxFrameMemory ∧
      (reportsIn callbacks =
        if t.isHalfClosed ∧ (¬ s.isHalfClosed ∨ f.data = []) then 1 else 0) ∧
      (stream.length ≤ s.maxFrameMemory → ok = true) := by
  have hend := hcut.le f hf
  have hendle : f.endOffset = f.offset + f.data.length := rfl
  have hdelivered : deliveredBy [] = slice stream s.numBytesConsumed s.numBytesConsumed :=
    (slice_self stream _).symm
  unfold Sequencer.onStreamFrame
  by_cases hdup : s.isDuplicate f = true
  · -- an empty frame is no duplicate
    have haccept : s.willAcceptStreamFrame f = true := by
      rw [Sequencer.willAcceptStreamFrame, if_pos hdup]
    have hmem := h.mem_of_isDuplicate hcut hf hdup
    have hdata : s.isHalfClosed = true → f.data ≠ [] := by
      intro hclosed hnil
      have hconsumed := h.consumed_of_isHalfClosed hlen hclosed
      have hfin := hcut.fin f hf (hcut.nonempty f hf hnil)
      rw [hendle, hnil, List.length_nil] at hfin
      have hcases : f.offset < s.numBytesConsumed ∨ ∃ d, s.frames.find f.offset = some d := by
        simpa [Sequencer.isDuplicate, Option.isSome_iff_exists] using hdup
      rcases hcases with hlt | ⟨d, hd⟩
      · omega
      · have := h.past hconsumed _ _ hd
        omega
    simp only [haccept, Bool.not_true, Bool.false_eq_true, if_false, if_pos hdup]
    refine ⟨true, s, [], rfl, h.again hmem, le_rfl, hdelivered, rfl, ?_, fun _ => rfl⟩
    rw [if_neg]
    · rfl
    · rintro ⟨hclosed, hopen | hnil⟩
      · exact hopen hclosed
      · exact hdata hclosed hnil
  have hnot : s.numBytesConsumed ≤ f.offset := by
    by_contra hlt
    exact hdup (by simp [Sequencer.isDuplicate, not_le.mp hlt])
  -- after the end, only an empty frame is no duplicate
  have hafter : s.isHalfClosed = true → f.data = [] ∧ f.offset = s.numBytesConsumed := by
    intro hclosed
    have hconsumed := h.consumed_of_isHalfClosed hlen hclosed
    have hzero : f.data.length = 0 := by omega
    exact ⟨List.length_eq_zero_iff.mp hzero, by omega⟩
  by_cases haccept : s.willAcceptStreamFrame f = true
  swap
  · have haccept' : s.willAcceptStreamFrame f = false := by simpa using haccept
    simp only [haccept', Bool.not_false, if_true]
    have htoo : f.data.length > s.maxFrameMemory ∨
        f.offset + f.data.length - s.numBytesConsumed > s.maxFrameMemory := by
      by_contra hfits
      rw [not_or] at hfits
      apply haccept
      rw [Sequencer.willAcceptStreamFrame, if_neg hdup, if_neg hfits.1, if_neg hfits.2]
    refine ⟨false, s, [], rfl, h, le_rfl, hdelivered, rfl, ?_, fun hmemory => by omega⟩
    rw [if_neg]
    · rfl
    · rintro ⟨hclosed, -⟩
      obtain ⟨hnil, hoffset⟩ := hafter hclosed
      rw [hnil, List.length_nil] at htoo
      omega
  have hne : ¬ (f.data = [] ∧ (!f.fin) = true) := by
    rintro ⟨hnil, hfin⟩
    rw [hcut.nonempty f hf hnil] at hfin
    cases hfin
  simp only [haccept, Bool.not_true, Bool.false_eq_true, if_false, if_neg hdup, if_neg hne]
  have hnew : s.isDuplicate f = false := by simpa using hdup
  by_cases hfin : f.fin = true
  · have hclose : s.closeStreamAtOffset (f.offset + f.data.length) =
        ({ s with closeOffset := stream.length },
          Sequencer.maybeCloseStream { s with closeOffset := stream.length }) := by
      have hoffset : f.offset + f.data.length = stream.length := hcut.fin f hf hfin
      rw [Sequencer.closeStreamAtOffset, if_neg, hoffset]
      rw [hoffset]
      rintro ⟨hmax, hother⟩
      rcases h.close with hmax' | hsame
      · exact hmax hmax'
      · exact hother hsame.symm
    have hinv : Inv stream cut arrived { s with closeOffset := stream.length } :=
      ⟨h.le, h.stored, h.past, h.sub, h.covered, .inr rfl, fun _ => rfl⟩
    rw [if_pos hfin, hclose]
    by_cases hdata : f.data = []
    · simp only [if_pos hdata]
      refine ⟨true, _, _, rfl, hinv.arriveEmpty hf hdata rfl, le_rfl, ?_, rfl, ?_, fun _ => rfl⟩
      · rw [slice_self, Sequencer.maybeCloseStream]
        split_ifs <;> rfl
      · simp only [Sequencer.maybeCloseStream, hdata, or_true, and_true]
        split_ifs <;> rfl
    · have hopen : Sequencer.isHalfClosed { s with closeOffset := stream.length } = false := by
        have := List.length_pos_of_ne_nil hdata
        simp only [Sequencer.isHalfClosed, decide_eq_false_iff_not, not_le]
        omega
      obtain ⟨t, callbacks, hresult, hprogress, hreports⟩ :=
        onData_spec hcut hlen hreader hinv hf hnew hdata fun _ => rfl
      have hwasOpen : ¬ s.isHalfClosed = true := fun hclosed => hdata (hafter hclosed).1
      simp only [if_neg hdata, hresult, Sequencer.maybeCloseStream, hopen, Bool.false_eq_true,
        if_false, List.nil_append, Option.map_some]
      refine ⟨true, t, callbacks, rfl, hprogress.inv, hprogress.le, hprogress.bytes,
        hprogress.memory, ?_, fun _ => rfl⟩
      simp only [hreports, hwasOpen, Bool.false_eq_true, not_false_iff, true_or, and_true]
  · have hdata : f.data ≠ [] := fun hnil => hfin (hcut.nonempty f hf hnil)
    have hwasOpen : ¬ s.isHalfClosed = true := fun hclosed => hdata (hafter hclosed).1
    obtain ⟨t, callbacks, hresult, hprogress, hreports⟩ :=
      onData_spec hcut hlen hreader h hf hnew hdata fun hfin' => absurd hfin' hfin
    rw [if_neg hfin, hresult]
    refine ⟨true, t, callbacks, rfl, hprogress.inv, hprogress.le, hprogress.bytes,
      hprogress.memory, ?_, fun _ => rfl⟩
    simp only [hreports, hwasOpen, Bool.false_eq_true, not_false_iff, true_or, and_true]

/-- What can be read is what is stored first. -/
lemma Inv.first_eq (h : Inv stream cut arrived s) (hcut : IsCut stream cut) {data : List Byte}
    (hfind : s.frames.find s.numBytesConsumed = some data) :
    s.frames.first = some (s.numBytesConsumed, data) := by
  obtain ⟨f, -, -, hflt, hfend, -⟩ := h.find_consumed hcut hfind
  rw [SortedMap.first_eq_some]
  refine ⟨hfind, fun offset d hd => ?_⟩
  obtain ⟨g, -, -, -, hoffset, -⟩ := (h.stored (by omega) _ _).mp hd
  omega

/-- From `s` to `t`, and into the first frame of `t`, the reader has got `bytes`. -/
structure Reading (stream : List Byte) (cut arrived : List QuicStreamFrame) (s t : Sequencer)
    (frameOffset : ℕ) (bytes : List Byte) : Prop where
  inv : Inv stream cut arrived t
  le : s.numBytesConsumed ≤ t.numBytesConsumed
  bytes : bytes = slice stream s.numBytesConsumed (t.numBytesConsumed + frameOffset)
  inside : frameOffset ≠ 0 → ∃ data, t.frames.find t.numBytesConsumed = some data ∧
    frameOffset < data.length
  close : t.closeOffset = s.closeOffset
  memory : t.maxFrameMemory = s.maxFrameMemory

/-- Some more bytes of the first frame are copied. -/
lemma Reading.copy (hcut : IsCut stream cut) {frameOffset : ℕ} {bytes data : List Byte}
    (h : Reading stream cut arrived s t frameOffset bytes)
    (hfind : t.frames.find t.numBytesConsumed = some data) {n : ℕ}
    (hn : frameOffset + n ≤ data.length) :
    bytes ++ (data.drop frameOffset).take n =
      slice stream s.numBytesConsumed (t.numBytesConsumed + (frameOffset + n)) := by
  obtain ⟨-, htake, -⟩ := h.inv.read hcut hfind hn
  have hpart : (data.drop frameOffset).take n = slice stream (t.numBytesConsumed + frameOffset)
      (t.numBytesConsumed + (frameOffset + n)) := by
    have hdrop := slice_drop stream (c := t.numBytesConsumed + (frameOffset + n))
      (Nat.le_add_right t.numBytesConsumed frameOffset)
    rw [Nat.add_sub_cancel_left, ← htake, List.drop_take, Nat.add_sub_cancel_left] at hdrop
    exact hdrop
  rw [hpart, h.bytes, slice_append stream (h.le.trans (Nat.le_add_right _ _)) (by omega)]

/-- Each round of `Readv` fills a buffer or finishes a frame. -/
theorem readvLoop_spec (hcut : IsCut stream cut) {fuel : ℕ} {iovs : List ℕ} {iovOffset : ℕ}
    {frameOffset : ℕ} {copied : List Byte} (h : Reading stream cut arrived s t frameOffset copied)
    (hiov : ∀ iovLen ∈ iovs.head?, iovOffset ≤ iovLen)
    (hfuel : iovs.length + t.frames.size < fuel) :
    ∃ u frameOffset' copied', Sequencer.readvLoop fuel t iovs iovOffset frameOffset copied =
        some (u, frameOffset', copied') ∧
      Reading stream cut arrived s u frameOffset' copied' := by
  induction fuel generalizing t iovs iovOffset frameOffset copied with
  | zero => exact absurd hfuel (Nat.not_lt_zero _)
  | succ fuel ih =>
    cases iovs with
    | nil => exact ⟨t, frameOffset, copied, rfl, h⟩
    | cons iovLen iovs =>
      rw [Sequencer.readvLoop]
      cases hfirst : t.frames.first with
      | none => exact ⟨t, frameOffset, copied, rfl, h⟩
      | some entry =>
        obtain ⟨offset, data⟩ := entry
        by_cases hoffset : offset ≠ t.numBytesConsumed
        · simp only [if_pos hoffset]
          exact ⟨t, frameOffset, copied, rfl, h⟩
        rw [not_not] at hoffset
        subst hoffset
        have hfind := (SortedMap.first_eq_some.mp hfirst).1
        have hframe : frameOffset ≤ data.length := by
          by_cases hzero : frameOffset = 0
          · omega
          · obtain ⟨data', hfind', hlt⟩ := h.inside hzero
            rw [hfind] at hfind'
            cases hfind'
            exact hlt.le
        have hle : iovOffset ≤ iovLen := hiov iovLen rfl
        obtain ⟨n, hn⟩ : ∃ n, n = min (iovLen - iovOffset) (data.length - frameOffset) := ⟨_, rfl⟩
        have hcopy := h.copy hcut hfind (n := n) (by omega)
        simp only [ne_eq, not_true_eq_false, if_false, ← hn]
        -- the buffers that are left
        obtain ⟨iovs', hiovs'⟩ : ∃ iovs', iovs' =
          if iovLen = iovOffset + n then iovs else iovLen :: iovs := ⟨_, rfl⟩
        have hlength : iovs'.length ≤ iovs.length + 1 := by
          rw [hiovs']
          split_ifs
          · exact Nat.le_succ _
          · exact le_rfl
        have hiov' : ∀ iovLen' ∈ iovs'.head?,
            (if iovLen = iovOffset + n then 0 else iovOffset + n) ≤ iovLen' := by
          intro iovLen' hmem
          rw [hiovs'] at hmem
          split_ifs at hmem ⊢ with hfull
          · exact Nat.zero_le _
          · cases hmem
            omega
        rw [← hiovs']
        by_cases hdone : data.length = frameOffset + n
        · rw [if_pos hdone]
          have hall := h.inv.takeAll hcut hfind
          have hsize := SortedMap.size_erase hfind
          rw [List.length_cons] at hfuel
          apply ih _ hiov' (by simp only; omega)
          refine ⟨hall.inv, h.le.trans hall.le, ?_, fun hne => absurd rfl hne, h.close, h.memory⟩
          rw [hcopy, hdone, Nat.add_zero]
        · rw [if_neg hdone]
          have hfull : iovLen = iovOffset + n := by omega
          rw [if_pos hfull] at hiovs'
          rw [List.length_cons] at hfuel
          apply ih _ hiov' (by rw [hiovs']; omega)
          exact ⟨h.inv, h.le, hcopy, fun _ => ⟨data, hfind, by omega⟩, h.close, h.memory⟩

/-- What `Readv` copies is what comes next in the stream. -/
theorem readv_spec (hcut : IsCut stream cut) (h : Inv stream cut arrived s) (iovs : List ℕ) :
    ∃ t copied, s.readv iovs = some (t, copied) ∧ Progress stream cut arrived s t copied := by
  have hstart : Reading stream cut arrived s s 0 [] :=
    ⟨h, le_rfl, (slice_self stream _).symm, fun hne => absurd rfl hne, rfl, rfl⟩
  have hiov : ∀ iovLen ∈ iovs.head?, 0 ≤ iovLen := fun _ _ => Nat.zero_le _
  obtain ⟨t, frameOffset, copied, hloop, hread⟩ :=
    readvLoop_spec hcut hstart hiov (Nat.lt_succ_self (iovs.length + s.frames.size))
  rw [Sequencer.readv, hloop]
  by_cases hzero : frameOffset = 0
  · simp only [if_pos hzero]
    refine ⟨t, copied, rfl, hread.inv, hread.le, ?_, hread.close, hread.memory⟩
    rw [hread.bytes, hzero, Nat.add_zero]
  · obtain ⟨data, hfind, hlt⟩ := hread.inside hzero
    have hpart := hread.inv.takePart hcut hfind hlt
      (hread.inv.find_insert_erase hcut hfind (Nat.pos_of_ne_zero hzero) hlt _)
    simp only [if_neg hzero, hread.inv.first_eq hcut hfind]
    exact ⟨_, copied, rfl, hpart.inv, hread.le.trans hpart.le, hread.bytes, hread.close,
      hread.memory⟩

/-- `MarkConsumed` gives up frames from the front, up to `endOffset` at most. -/
theorem markConsumedLoop_spec (hcut : IsCut stream cut) {endOffset fuel : ℕ}
    {consumed : List Byte} (h : Progress stream cut arrived s t consumed)
    (hle : t.numBytesConsumed ≤ endOffset) (hfuel : t.frames.size < fuel) :
    ∃ u consumed' callbacks, Sequencer.markConsumedLoop endOffset fuel t consumed =
        some (u, consumed', callbacks) ∧
      Progress stream cut arrived s u consumed' ∧ reportsIn callbacks = 0 := by
  induction fuel generalizing t consumed with
  | zero => exact absurd hfuel (Nat.not_lt_zero _)
  | succ fuel ih =>
    rw [Sequencer.markConsumedLoop]
    cases hfirst : t.frames.first with
    | none => exact ⟨t, consumed, [], rfl, h, rfl⟩
    | some entry =>
      obtain ⟨offset, data⟩ := entry
      by_cases hend : endOffset = t.numBytesConsumed
      · simp only [if_pos hend]
        exact ⟨t, consumed, [], rfl, h, rfl⟩
      by_cases hoffset : offset ≠ t.numBytesConsumed
      · simp only [if_neg hend, if_pos hoffset]
        exact ⟨t, consumed, _, rfl, h, rfl⟩
      rw [not_not] at hoffset
      subst hoffset
      have hfind := (SortedMap.first_eq_some.mp hfirst).1
      simp only [if_neg hend, ne_eq, not_true_eq_false, if_false]
      by_cases hall : t.numBytesConsumed + data.length ≤ endOffset
      · rw [if_pos hall]
        have hsize := SortedMap.size_erase hfind
        exact ih (h.trans (h.inv.takeAll hcut hfind)) hall (by simp only; omega)
      · obtain ⟨n, hn⟩ : ∃ n, n = endOffset - t.numBytesConsumed := ⟨_, rfl⟩
        have hsum : endOffset = t.numBytesConsumed + n := by omega
        have hlt : n < data.length := by omega
        have hpart := h.inv.takePart hcut hfind hlt
          (h.inv.find_insert_erase hcut hfind (by omega) hlt _)
        rw [if_neg hall, ← hn, hsum]
        exact ⟨_, _, [], rfl, h.trans hpart, rfl⟩

theorem markConsumed_spec (hcut : IsCut stream cut) (h : Inv stream cut arrived s) (n : ℕ) :
    ∃ t consumed callbacks, s.markConsumed n = some (t, consumed, callbacks) ∧
      Progress stream cut arrived s t consumed ∧ reportsIn callbacks = 0 :=
  markConsumedLoop_spec hcut (.refl h) (Nat.le_add_right _ _) (Nat.lt_succ_self _)

/-- The regions that are shown are what comes next in the stream. -/
lemma regionsFrom_isPrefix {entries : List (ℕ × List Byte)}
    (h : ∀ entry ∈ entries, entry.2 <+: stream.drop entry.1) (offset : ℕ) :
    (Sequencer.regionsFrom offset entries).flatten <+: stream.drop offset := by
  induction entries generalizing offset with
  | nil => exact List.nil_prefix
  | cons entry entries ih =>
    rw [List.forall_mem_cons] at h
    rw [Sequencer.regionsFrom]
    by_cases hne : entry.1 ≠ offset
    · rw [if_pos hne]
      exact List.nil_prefix
    · rw [not_not] at hne
      rw [if_neg (not_not.mpr hne), List.flatten_cons, ← hne]
      obtain ⟨rest, hrest⟩ := h.1
      have hlater := ih h.2 (entry.1 + entry.2.length)
      rw [← List.drop_drop, ← hrest, List.drop_left] at hlater
      rw [← hrest]
      exact (List.prefix_append_right_inj _).mpr hlater

lemma Inv.getReadableRegions (h : Inv stream cut arrived s) (iovLen : ℕ) :
    (s.getReadableRegions iovLen).flatten <+: stream.drop s.numBytesConsumed := by
  have hall : (Sequencer.regionsFrom s.numBytesConsumed s.frames.entries).flatten <+:
      stream.drop s.numBytesConsumed := by
    rcases h.le.lt_or_eq with hlt | heq
    · apply regionsFrom_isPrefix
      intro entry hentry
      obtain ⟨f, -, -, -, -, hdata⟩ :=
        (h.stored hlt entry.1 entry.2).mp (SortedMap.find_eq_some.mpr hentry)
      rw [hdata]
      exact List.take_prefix _ _
    · -- what has stayed behind is not shown
      cases hentries : s.frames.entries with
      | nil => exact List.nil_prefix
      | cons entry entries =>
        have hmem : (entry.1, entry.2) ∈ s.frames.entries := by
          rw [hentries]
          exact List.mem_cons_self
        have hlt := h.past heq _ _ (SortedMap.find_eq_some.mpr hmem)
        rw [Sequencer.regionsFrom, if_pos (by omega)]
        exact List.nil_prefix
  apply List.IsPrefix.trans _ hall
  have hsplit := congrArg List.flatten
    (List.take_append_drop iovLen (Sequencer.regionsFrom s.numBytesConsumed s.frames.entries))
  rw [List.flatten_append] at hsplit
  exact ⟨_, hsplit⟩

/-- When all frames have arrived and nothing can be read, the stream is complete. -/
theorem Inv.complete (h : Inv stream cut arrived s) (hcut : IsCut stream cut)
    (harrived : ∀ f ∈ cut, f ∈ arrived) (hread : s.hasBytesToRead = false) :
    s.numBytesConsumed = stream.length ∧ s.isHalfClosed = true := by
  have hend : s.numBytesConsumed = stream.length := by
    rcases h.le.lt_or_eq with hlt | heq
    · obtain ⟨f, hf, hfle, hflt⟩ := hcut.cover _ hlt
      have hfind := (h.stored hlt s.numBytesConsumed _).mpr
        ⟨f, harrived f hf, by omega, hflt, by omega, rfl⟩
      rw [Sequencer.hasBytesToRead, h.first_eq hcut hfind] at hread
      simp at hread
    · exact heq
  obtain ⟨f, hf, hfin⟩ := hcut.existsFin
  refine ⟨hend, decide_eq_true ?_⟩
  rw [hend, h.fin ⟨f, harrived f hf, hfin⟩]

end

/-! ### Runs -/

/-- A reader takes at most what it is offered. It is asked for the `i`-th time in an
operation with some data. -/
structure Reader where
  accept : ℕ → List Byte → ℕ
  le : ∀ i data, accept i data ≤ data.length

/-- A reader that takes all it is offered. -/
def Reader.all : Reader := ⟨fun _ data => data.length, fun _ _ => le_rfl⟩

/-- A reader that takes nothing when it is called. -/
def Reader.none : Reader := ⟨fun _ _ => 0, fun _ _ => Nat.zero_le _⟩

inductive Event
  | onStreamFrame (frame : QuicStreamFrame) (reader : Reader)
  | flushBufferedFrames (reader : Reader)
  | readv (iovs : List ℕ)
  | markConsumed (numBytesConsumed : ℕ)

/-- The frames that come in are those of the stream. -/
def Event.From (cut : List QuicStreamFrame) : Event → Prop
  | .onStreamFrame frame _ => frame ∈ cut
  | _ => True

/-- Whether an operation reports the end of the stream when it finds it reached: it has not
been reached before, or a frame says where it is once more. -/
def Event.Reports (s : Sequencer) : Event → Prop
  | .onStreamFrame frame _ => ¬ s.isHalfClosed ∨ frame.data = []
  | .flushBufferedFrames _ => ¬ s.isHalfClosed
  | _ => False

instance (s : Sequencer) : (event : Event) → Decidable (event.Reports s)
  | .onStreamFrame frame _ =>
    inferInstanceAs (Decidable (¬ s.isHalfClosed = true ∨ frame.data = []))
  | .flushBufferedFrames _ => inferInstanceAs (Decidable (¬ s.isHalfClosed = true))
  | .readv _ => inferInstanceAs (Decidable False)
  | .markConsumed _ => inferInstanceAs (Decidable False)

/-- The sequencer, what the reader has got, the frames that were accepted, and how often the
end of the stream was reported. -/
structure World where
  sequencer : Sequencer
  delivered : List Byte := []
  arrived : List QuicStreamFrame := []
  reports : ℕ := 0

namespace World
variable {w w' : World} {stream : List Byte} {cut : List QuicStreamFrame}

def step (w : World) : Event → Option World
  | .onStreamFrame frame reader =>
    (w.sequencer.onStreamFrame reader.accept frame).map fun result =>
      { sequencer := result.2.1
        delivered := w.delivered ++ deliveredBy result.2.2
        arrived := if result.1 then w.arrived ++ [frame] else w.arrived
        reports := w.reports + reportsIn result.2.2 }
  | .flushBufferedFrames reader =>
    (w.sequencer.flushBufferedFrames reader.accept 0).map fun result =>
      { w with
        sequencer := result.1
        delivered := w.delivered ++ deliveredBy result.2
        reports := w.reports + reportsIn result.2 }
  | .readv iovs =>
    (w.sequencer.readv iovs).map fun result =>
      { w with sequencer := result.1, delivered := w.delivered ++ result.2 }
  | .markConsumed n =>
    (w.sequencer.markConsumed n).map fun result =>
      { w with
        sequencer := result.1
        delivered := w.delivered ++ result.2.1
        reports := w.reports + reportsIn result.2.2 }

/-- The reader has got the stream up to where the sequencer is. -/
structure Inv (stream : List Byte) (cut : List QuicStreamFrame) (w : World) : Prop where
  sequencer : QuicStreamSequencer.Inv stream cut w.arrived w.sequencer
  delivered : w.delivered = slice stream 0 w.sequencer.numBytesConsumed

lemma Inv.delivered_length (h : Inv stream cut w) :
    w.sequencer.numBytesConsumed = w.delivered.length := by
  rw [h.delivered, slice_length h.sequencer.le, Nat.sub_zero]

/-- Each operation on frames of the stream succeeds. -/
theorem Inv.step (h : Inv stream cut w) (hcut : IsCut stream cut)
    (hlen : stream.length ≤ kMaxOffset) (event : Event) (hfrom : event.From cut) :
    ∃ w', w.step event = some w' ∧ Inv stream cut w' ∧
      w'.sequencer.maxFrameMemory = w.sequencer.maxFrameMemory ∧
      (w'.reports = w.reports +
        if w'.sequencer.isHalfClosed ∧ event.Reports w.sequencer then 1 else 0) ∧
      (stream.length ≤ w.sequencer.maxFrameMemory → ∀ frame reader,
        event = .onStreamFrame frame reader → w'.arrived = w.arrived ++ [frame]) := by
  have happend : ∀ {t : Sequencer} {bytes : List Byte},
      w.sequencer.numBytesConsumed ≤ t.numBytesConsumed →
      bytes = slice stream w.sequencer.numBytesConsumed t.numBytesConsumed →
      w.delivered ++ bytes = slice stream 0 t.numBytesConsumed := by
    intro t bytes hle hbytes
    rw [h.delivered, hbytes, slice_append stream (Nat.zero_le _) hle]
  cases event with
  | onStreamFrame frame reader =>
    obtain ⟨ok, t, callbacks, hresult, hinv, hle, hbytes, hmemory, hreports, haccept⟩ :=
      onStreamFrame_spec hcut hlen reader.le h.sequencer hfrom
    refine ⟨_, by rw [World.step, hresult]; rfl, ⟨hinv, happend hle hbytes⟩, hmemory, ?_, ?_⟩
    · simp only [hreports]
      rfl
    · intro hfits frame' reader' heq
      cases heq
      simp only [haccept hfits, if_true]
  | flushBufferedFrames reader =>
    obtain ⟨t, callbacks, hresult, hprogress, hreports⟩ :=
      flushLoop_spec hcut hlen reader.le 0 h.sequencer (Nat.lt_succ_self _)
    refine ⟨_, by rw [World.step, Sequencer.flushBufferedFrames, hresult]; rfl,
      ⟨hprogress.inv, happend hprogress.le hprogress.bytes⟩, hprogress.memory, ?_, ?_⟩
    · simp only [hreports]
      rfl
    · intro _ frame reader' heq
      cases heq
  | readv iovs =>
    obtain ⟨t, copied, hresult, hprogress⟩ := readv_spec hcut h.sequencer iovs
    refine ⟨_, by rw [World.step, hresult]; rfl,
      ⟨hprogress.inv, happend hprogress.le hprogress.bytes⟩, hprogress.memory, ?_, ?_⟩
    · simp [Event.Reports]
    · intro _ frame reader' heq
      cases heq
  | markConsumed n =>
    obtain ⟨t, consumed, callbacks, hresult, hprogress, hreports⟩ :=
      markConsumed_spec hcut h.sequencer n
    refine ⟨_, by rw [World.step, hresult]; rfl,
      ⟨hprogress.inv, happend hprogress.le hprogress.bytes⟩, hprogress.memory, ?_, ?_⟩
    · simp [Event.Reports, hreports]
    · intro _ frame reader' heq
      cases heq

lemma inv_init (stream : List Byte) (cut : List QuicStreamFrame) (maxFrameMemory : ℕ) :
    Inv stream cut { sequencer := { maxFrameMemory } } := by
  refine ⟨⟨Nat.zero_le _, ?_, ?_, ?_, ?_, .inl rfl, ?_⟩, (slice_self stream 0).symm⟩
  · intro _ offset d
    simp
  · intro _ offset d hd
    simp at hd
  · intro f hf
    cases hf
  · intro f _ _ hlt
    exact absurd hlt (Nat.not_lt_zero _)
  · rintro ⟨f, hf, -⟩
    cases hf

/-- Runs on the frames of a stream. -/
def Runs (pieces : List (List Byte)) (maxFrameMemory : ℕ) (events : List Event) (w : World) :
    Prop :=
  Reaches (fun w event w' => event.From (cutFrames 0 pieces) ∧ w.step event = some w')
    { sequencer := { maxFrameMemory } } events w

/-- The sequencer delivers exactly the stream, and reports its end when a frame or a flush
finds it reached. -/
theorem delivers_of_runs {pieces : List (List Byte)} (hpieces : pieces ≠ [])
    (hne : ∀ piece ∈ pieces.dropLast, piece ≠ []) (hlen : pieces.flatten.length ≤ kMaxOffset)
    {maxFrameMemory : ℕ} {events : List Event} {w : World}
    (hrun : Runs pieces maxFrameMemory events w) :
    w.delivered <+: pieces.flatten ∧ w.sequencer.numBytesConsumed = w.delivered.length ∧
    (∀ iovLen, (w.sequencer.getReadableRegions iovLen).flatten <+:
      pieces.flatten.drop w.delivered.length) ∧
    ((∀ f ∈ cutFrames 0 pieces, f ∈ w.arrived) → w.sequencer.hasBytesToRead = false →
      w.delivered = pieces.flatten ∧ w.sequencer.isHalfClosed = true) ∧
    ∀ event : Event, event.From (cutFrames 0 pieces) → ∃ w', w.step event = some w' ∧
      (w'.reports = w.reports +
        if w'.sequencer.isHalfClosed ∧ event.Reports w.sequencer then 1 else 0) ∧
      (w'.sequencer.isHalfClosed = true → w'.delivered = pieces.flatten) ∧
      (pieces.flatten.length ≤ maxFrameMemory → ∀ frame reader,
        event = .onStreamFrame frame reader → w'.arrived = w.arrived ++ [frame]) := by
  have hcut := isCut_cutFrames hpieces hne
  have hinv : Inv pieces.flatten (cutFrames 0 pieces) w ∧
      w.sequencer.maxFrameMemory = maxFrameMemory := by
    apply hrun.invariant (fun w => Inv pieces.flatten (cutFrames 0 pieces) w ∧
      w.sequencer.maxFrameMemory = maxFrameMemory)
    · exact ⟨inv_init _ _ _, rfl⟩
    · intro t event u ht hstep
      obtain ⟨w', hresult, hw', hmemory, -⟩ := ht.1.step hcut hlen event hstep.1
      rw [hstep.2] at hresult
      cases hresult
      exact ⟨hw', hmemory.trans ht.2⟩
  obtain ⟨h, hmemory⟩ := hinv
  have hwhole : ∀ {w : World}, Inv pieces.flatten (cutFrames 0 pieces) w →
      w.sequencer.numBytesConsumed = pieces.flatten.length → w.delivered = pieces.flatten := by
    intro w h hend
    rw [h.delivered, hend, slice, List.drop_zero, Nat.sub_zero, List.take_length]
  refine ⟨?_, h.delivered_length, fun iovLen => ?_, fun harrived hread => ?_, fun event hfrom => ?_⟩
  · rw [h.delivered, slice, List.drop_zero]
    exact List.take_prefix _ _
  · rw [← h.delivered_length]
    exact h.sequencer.getReadableRegions iovLen
  · obtain ⟨hend, hclosed⟩ := h.sequencer.complete hcut harrived hread
    exact ⟨hwhole h hend, hclosed⟩
  · obtain ⟨w', hresult, hw', -, hreports, haccept⟩ := h.step hcut hlen event hfrom
    refine ⟨w', hresult, hreports, fun hclosed => ?_, hmemory ▸ haccept⟩
    exact hwhole hw' (hw'.sequencer.consumed_of_isHalfClosed hlen hclosed)

/-- Two frames that come in the wrong order. -/
theorem delivers_of_runs_reordered :
    ∃ w, Runs [[1, 2], [3]] kMaxOffset
        [.onStreamFrame ⟨2, [3], true⟩ .all, .onStreamFrame ⟨0, [1, 2], false⟩ .all] w ∧
      w.delivered = [1, 2, 3] ∧ w.reports = 1 ∧ w.sequencer.isHalfClosed = true := by
  have hrun : Runs [[1, 2], [3]] kMaxOffset
      [.onStreamFrame ⟨2, [3], true⟩ .all, .onStreamFrame ⟨0, [1, 2], false⟩ .all] _ :=
    .snoc (.snoc .refl ⟨by simp [Event.From, cutFrames], rfl⟩)
      ⟨by simp [Event.From, cutFrames], rfl⟩
  refine ⟨_, hrun, ?_⟩
  obtain ⟨-, -, -, hcomplete, -⟩ := delivers_of_runs (by simp) (by simp) (by decide) hrun
  obtain ⟨hdelivered, hclosed⟩ := hcomplete (by decide) (by decide)
  exact ⟨hdelivered, by decide, hclosed⟩

/-- A reader that takes nothing at first and reads all later hears nothing of the end. -/
theorem not_reported_of_readv :
    ¬ ∀ (pieces : List (List Byte)) (events : List Event) (w : World), pieces ≠ [] →
      (∀ piece ∈ pieces.dropLast, piece ≠ []) → Runs pieces kMaxOffset events w →
      (∀ f ∈ cutFrames 0 pieces, f ∈ w.arrived) → w.sequencer.hasBytesToRead = false →
      w.delivered = pieces.flatten ∧ w.reports = 1 := by
  intro hclaim
  have hrun : Runs [[1, 2, 3]] kMaxOffset
      [.onStreamFrame ⟨0, [1, 2, 3], true⟩ .none, .readv [3]] _ :=
    .snoc (.snoc .refl ⟨by simp [Event.From, cutFrames], rfl⟩) ⟨trivial, rfl⟩
  have hreports := (hclaim _ _ _ (by simp) (by simp) hrun (by decide) (by decide)).2
  revert hreports
  decide

end World

end Chromium.QuicStreamSequencer
