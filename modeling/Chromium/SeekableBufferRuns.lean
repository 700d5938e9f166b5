import Chromium.SeekableBuffer
import Chromium.Runs

/-!
# Runs of a seekable buffer

The buffer is compared with one string of all appended bytes and a position in it.
-/
namespace Chromium.SeekableBuffer

open WireFormat Runs

/-! ### Calls -/

inductive Call
  | append (b : DataBuffer)
  | appendBytes (data : List Byte)
  | read (size : ℕ)
  | peek (size forwardOffset : ℕ)
  | seek (offset : ℤ)
  | getCurrentChunk
  | clear

/-- What a call returns. -/
inductive Outcome
  | flag (result : Bool)
  | bytes (data : List Byte)
  | chunk (data : Option (List Byte))
  | done
  deriving DecidableEq

/-- There is no result when a division is by zero. -/
def Call.apply (s : Seekable) : Call → Option (Outcome × Seekable)
  | append b => some (.flag (appendBuffer b s).1, (appendBuffer b s).2)
  | appendBytes data =>
    some (.flag (SeekableBuffer.append data s).1, (SeekableBuffer.append data s).2)
  | read size => (SeekableBuffer.read size s).map fun result => (.bytes result.1, result.2)
  | peek size forwardOffset =>
    (SeekableBuffer.peek size forwardOffset s).map fun result => (.bytes result.1, result.2)
  | seek offset => (SeekableBuffer.seek offset s).map fun result => (.flag result.1, result.2)
  | getCurrentChunk => some (.chunk (SeekableBuffer.getCurrentChunk s), s)
  | clear => some (.done, SeekableBuffer.clear s)

/-- A read of so many bytes meets no empty buffer with a time, and the bytes behind the position
can be counted. -/
def ReadSafe (s : Seekable) (size : ℕ) : Prop :=
  (∀ b ∈ metByRead size s.position.offset s.position.rest, b.Timed) ∧
    s.position.behind.length + min size s.position.ahead.length < 2 ^ 31

/-- The same for a seek of so many bytes backward. -/
def BackSafe (s : Seekable) (size : ℕ) : Prop :=
  (∀ b ∈ landing size s.position.offset s.position.rest.head? s.position.before.reverse, b.Timed) ∧
    s.position.ahead.length + size < 2 ^ 31

/-- The condition under which a call does what it is for. -/
def Call.Safe (s : Seekable) : Call → Prop
  | append b => s.position.ahead.length + b.dataSize < 2 ^ 31
  | appendBytes data => s.position.ahead.length + data.length < 2 ^ 31
  | read size => ReadSafe s size
  | seek offset =>
    (0 < offset → offset.toNat ≤ s.position.ahead.length → ReadSafe s offset.toNat) ∧
      (offset < 0 → (-offset).toNat ≤ s.position.behind.length → BackSafe s (-offset).toNat)
  | _ => True

/-! ### One string with a position -/

/-- All bytes that were appended, and a position in them. -/
structure ByteString where
  bytes : List Byte
  position : ℕ

namespace ByteString

def ahead (a : ByteString) : List Byte := a.bytes.drop a.position

def next (a : ByteString) : Call × Outcome → ByteString
  | (.append b, _) => { a with bytes := a.bytes ++ b.data }
  | (.appendBytes data, _) => { a with bytes := a.bytes ++ data }
  | (.read _, .bytes data) => { a with position := a.position + data.length }
  | (.seek offset, .flag true) => { a with position := (a.position + offset).toNat }
  | (.clear, _) => ⟨[], 0⟩
  | _ => a

/-- The buffer holds the bytes from the position on and some of those in front of it. -/
structure Matches (a : ByteString) (s : Seekable) : Prop where
  position_le : a.position ≤ a.bytes.length
  ahead : s.position.ahead = a.ahead
  behind : s.position.behind <:+ a.bytes.take a.position

end ByteString

/-- Only whole buffers at the front are gone, each while more bytes than the capacity lay behind
the position. -/
def Discards (s t : Seekable) : Prop :=
  ∃ dropped, s.position.before ++ s.position.rest =
      dropped ++ (t.position.before ++ t.position.rest) ∧
    ∀ i < dropped.length, s.backwardCapacity <
      (t.position.behind.length : ℤ) + ((dropped.drop i).flatMap DataBuffer.data).length

/-- What a call answers and what it does to the buffers. -/
def Correct (a : ByteString) (s : Seekable) : Call → Outcome → Seekable → Prop
  | .append b, outcome, t =>
    outcome = .flag (decide (t.forwardBytes < t.forwardCapacity)) ∧
      t.position.before ++ t.position.rest = s.position.before ++ s.position.rest ++ [b]
  | .appendBytes data, outcome, t =>
    outcome = .flag (decide (t.forwardBytes < t.forwardCapacity)) ∧
      t.position.before ++ t.position.rest = s.position.before ++ s.position.rest ++
        if data = [] then [] else [.copyFrom data]
  | .read size, outcome, t => outcome = .bytes (a.ahead.take size) ∧ Discards s t
  | .peek size forwardOffset, outcome, t =>
    outcome = .bytes ((a.ahead.drop forwardOffset).take size) ∧ t = s
  | .seek offset, outcome, t =>
    (outcome = .flag true ∧ -(s.position.behind.length : ℤ) ≤ offset ∧
        offset ≤ a.ahead.length ∧ Discards s t) ∨
      (outcome = .flag false ∧ (offset < -(s.position.behind.length : ℤ) ∨
        a.ahead.length < offset) ∧ t = s)
  | .getCurrentChunk, outcome, t => t = s ∧ ∃ chunk, outcome = .chunk chunk ∧
      (chunk = none ↔ a.ahead = []) ∧ ∀ data ∈ chunk, data ≠ [] ∧ data <+: a.ahead
  | .clear, outcome, t => outcome = .done ∧ t.position.before ++ t.position.rest = []

section Steps
variable {s t : Seekable} {a : ByteString} {n : ℕ}

lemma Moved.discards (h : Moved s n t) : Discards s t := by
  obtain ⟨q, dropped, hadvances, hevicts, hposition⟩ := h.evicts
  have hrest : t.position.rest = q.rest := by rw [hposition]
  refine ⟨dropped, ?_, fun i hi => ?_⟩
  · rw [← hadvances.buffers, hevicts.buffers, hrest, List.append_assoc]
  · have hexceeds := hevicts.exceeds i hi
    have hbehind : q.behind = dropped.flatMap DataBuffer.data ++ t.position.behind := by
      rw [hposition, Position.behind, Position.behind, hevicts.buffers, List.flatMap_append,
        List.append_assoc]
    have hsplit := congrArg List.length
      (congrArg (List.flatMap DataBuffer.data) (List.take_append_drop i dropped))
    rw [List.flatMap_append, List.length_append] at hsplit
    rw [hbehind, List.length_append] at hexceeds
    push_cast at hexceeds
    omega

/-- As many bytes as were read. -/
lemma drop_length_take (xs : List Byte) (n : ℕ) : xs.drop (xs.take n).length = xs.drop n := by
  rcases le_total n xs.length with hle | hle
  · rw [List.length_take, min_eq_left hle]
  · rw [List.take_of_length_le hle, List.drop_length, List.drop_of_length_le hle]

lemma Moved.matches (h : Moved s n t) (hm : a.Matches s) :
    ByteString.Matches { a with position := a.position + (a.ahead.take n).length } t := by
  obtain ⟨q, dropped, hadvances, hevicts, hposition⟩ := h.evicts
  have hkept : t.position.behind <:+ q.behind := by
    refine ⟨dropped.flatMap DataBuffer.data, ?_⟩
    rw [hposition, Position.behind, Position.behind, hevicts.buffers, List.flatMap_append,
      List.append_assoc]
  refine ⟨?_, ?_, ?_⟩
  · have hle := hm.position_le
    have hlength : (a.ahead.take n).length ≤ a.bytes.length - a.position := by
      rw [List.length_take, ByteString.ahead, List.length_drop]
      exact min_le_right _ _
    dsimp only
    omega
  · rw [h.ahead, hm.ahead, ByteString.ahead, ByteString.ahead, ← List.drop_drop]
    exact (drop_length_take _ _).symm
  · refine hkept.trans ?_
    have htake : a.ahead.take (a.ahead.take n).length = a.ahead.take n :=
      (List.prefix_iff_eq_take.mp (List.take_prefix n a.ahead)).symm
    obtain ⟨gone, hgone⟩ := hm.behind
    refine ⟨gone, ?_⟩
    dsimp only
    rw [List.take_add, ← hgone, hadvances.behind, hm.ahead, List.append_assoc]
    exact congrArg (fun x => gone ++ (s.position.behind ++ x)) htake.symm

lemma Back.discards (h : Back s n t) : Discards s t :=
  ⟨[], h.advances.buffers, fun i hi => absurd hi (Nat.not_lt_zero i)⟩

lemma Back.matches (h : Back s n t) (hm : a.Matches s) :
    n ≤ a.position ∧ ByteString.Matches { a with position := a.position - n } t := by
  -- the last `n` bytes in front of the position lie ahead again
  have hlast : (t.position.ahead.take n).length = n := by
    rw [List.length_take, h.length]
    omega
  obtain ⟨gone, hgone⟩ := hm.behind
  have htake : a.bytes.take a.position =
      gone ++ t.position.behind ++ t.position.ahead.take n := by
    rw [← hgone, h.advances.behind, List.append_assoc]
  have hlength := congrArg List.length htake
  rw [List.length_append, hlast, List.length_take, min_eq_left hm.position_le] at hlength
  have hfront : (gone ++ t.position.behind).length = a.position - n := by omega
  have hbytes : a.bytes = (gone ++ t.position.behind) ++ t.position.ahead := by
    rw [← List.take_append_drop a.position a.bytes, htake, List.append_assoc,
      show a.bytes.drop a.position = a.ahead from rfl, ← hm.ahead, h.advances.ahead,
      List.take_append_drop]
  refine ⟨by omega, ⟨?_, ?_, ?_⟩⟩
  · exact le_trans (Nat.sub_le _ _) hm.position_le
  · rw [ByteString.ahead]
    dsimp only
    rw [← hfront, hbytes, List.drop_left]
  · dsimp only
    rw [← hfront, hbytes, List.take_left]
    exact List.suffix_append _ _

lemma ByteString.Matches.append {data : List Byte} (hm : a.Matches s) (h : Appended s data t) :
    ByteString.Matches { a with bytes := a.bytes ++ data } t where
  position_le := by
    rw [List.length_append]
    exact le_trans hm.position_le (Nat.le_add_right _ _)
  ahead := by
    rw [h.ahead, hm.ahead]
    exact (List.drop_append_of_le_length hm.position_le).symm
  behind := by
    rw [h.behind, List.take_append_of_le_length hm.position_le]
    exact hm.behind

/-- What a call leaves behind. -/
structure Kept (a : ByteString) (s : Seekable) : Prop where
  counted : Counted s
  string : a.Matches s

lemma kept_empty (hposition : s.position = ⟨[], [], 0⟩) (hforward : s.forwardBytes = 0)
    (hbackward : s.backwardBytes = 0) : Kept ⟨[], 0⟩ s := by
  have hahead : s.position.ahead = [] := by rw [hposition]; rfl
  have hbehind : s.position.behind = [] := by rw [hposition]; rfl
  refine ⟨⟨⟨fun b hb => ?_, fun _ => ?_⟩, ?_, ?_, ?_, ?_⟩, ⟨le_rfl, hahead, ?_⟩⟩
  · rw [hposition] at hb
    cases hb
  · rw [hposition]
    exact ⟨rfl, rfl⟩
  · rw [hforward, hahead]
    rfl
  · rw [hbackward, hbehind]
    rfl
  · rw [hahead]
    exact Nat.two_pow_pos 31
  · rw [hbehind]
    exact Nat.two_pow_pos 31
  · rw [hbehind]
    exact List.nil_suffix

lemma Kept.append (h : Kept a s) (b : DataBuffer)
    (hsafe : s.position.ahead.length + b.dataSize < 2 ^ 31) :
    Correct a s (.append b) (.flag (appendBuffer b s).1) (appendBuffer b s).2 ∧
      Kept { a with bytes := a.bytes ++ b.data } (appendBuffer b s).2 := by
  have happended := appendBuffer_spec h.counted b hsafe
  refine ⟨⟨rfl, ?_⟩, happended.counted, h.string.append happended⟩
  unfold appendBuffer
  dsimp only
  split_ifs with hrest
  · rw [hrest, List.append_nil, List.nil_append]
  · rw [List.append_assoc]

lemma Kept.moved {size : ℕ} (h : Kept a s) (hsafe : ReadSafe s size) :
    ∃ t, internalRead size true 0 s = some (a.ahead.take size, t) ∧ Discards s t ∧
      Kept { a with position := a.position + (a.ahead.take size).length } t := by
  obtain ⟨t, hread, hmoved⟩ := internalRead_advance h.counted size hsafe.1 hsafe.2
  rw [h.string.ahead] at hread
  exact ⟨t, hread, hmoved.discards, hmoved.counted, hmoved.matches h.string⟩

lemma Kept.back {size : ℕ} (h : Kept a s) (hsafe : BackSafe s size)
    (hsize : size ≤ s.position.behind.length) :
    ∃ t, seekBackward size s = some (true, t) ∧ Discards s t ∧ size ≤ a.position ∧
      Kept { a with position := a.position - size } t := by
  obtain ⟨t, hloop, hback, hhead⟩ := seekBackwardLoop_spec (s.position.before.length + 2) size
    h.counted (by omega) hsize hsafe.2
  have htimed : ∀ b ∈ t.position.rest.head?, b.Timed := by
    rw [hhead]
    exact hsafe.1
  obtain ⟨time, htime⟩ := updateCurrentTime_isSome htimed t.position.offset t.currentTime
  have hnot : ¬ s.backwardBytes < size := by
    rw [h.counted.backward]
    omega
  obtain ⟨hle, hmatches⟩ := hback.matches h.string
  refine ⟨{ t with currentTime := time }, ?_, hback.discards, hle, ?_, ?_⟩
  · rw [seekBackward, if_neg hnot, hloop, Option.bind_some, htime]
    rfl
  · exact ⟨hback.counted.valid, hback.counted.forward, hback.counted.backward,
      hback.counted.forward_lt, hback.counted.backward_lt⟩
  · exact ⟨hmatches.position_le, hmatches.ahead, hmatches.behind⟩

lemma Kept.seek {offset : ℤ} (h : Kept a s) (hsafe : Call.Safe s (.seek offset)) :
    ∃ result t, seek offset s = some (result, t) ∧
      Correct a s (.seek offset) (.flag result) t ∧
      Kept (a.next (.seek offset, .flag result)) t := by
  have hahead := congrArg List.length h.string.ahead
  unfold SeekableBuffer.seek
  split_ifs with hpos hneg
  · rw [seekForward, h.counted.forward]
    split_ifs with hfar
    · exact ⟨false, s, rfl, .inr ⟨rfl, .inr (by omega), rfl⟩, h⟩
    · obtain ⟨t, hread, hdiscards, hkept⟩ := h.moved (hsafe.1 hpos (by omega))
      refine ⟨true, t, by rw [hread]; rfl, .inl ⟨rfl, by omega, by omega, hdiscards⟩, ?_⟩
      have hnext : a.position + (a.ahead.take offset.toNat).length =
          (a.position + offset).toNat := by
        rw [List.length_take]
        omega
      rw [hnext] at hkept
      exact hkept
  · by_cases hfar : s.backwardBytes < (-offset).toNat
    · refine ⟨false, s, by rw [seekBackward, if_pos hfar], .inr ⟨rfl, .inl ?_, rfl⟩, h⟩
      rw [h.counted.backward] at hfar
      omega
    · rw [h.counted.backward] at hfar
      obtain ⟨t, hseek, hdiscards, hle, hkept⟩ := h.back (hsafe.2 hneg (by omega)) (by omega)
      refine ⟨true, t, hseek, .inl ⟨rfl, by omega, by omega, hdiscards⟩, ?_⟩
      have hnext : a.position - (-offset).toNat = (a.position + offset).toNat := by omega
      rw [hnext] at hkept
      exact hkept
  · obtain rfl : offset = 0 := by omega
    refine ⟨true, s, rfl, .inl ⟨rfl, by omega, by omega, [], rfl, ?_⟩, ?_⟩
    · exact fun i hi => absurd hi (Nat.not_lt_zero i)
    · rw [ByteString.next, add_zero, Int.toNat_natCast]
      exact h

/-- A call that meets its condition does what it is for. -/
lemma Kept.call {call : Call} (h : Kept a s) (hsafe : call.Safe s) :
    ∃ outcome t, call.apply s = some (outcome, t) ∧ Correct a s call outcome t ∧
      Kept (a.next (call, outcome)) t := by
  cases call with
  | append b =>
    obtain ⟨hcorrect, hkept⟩ := h.append b hsafe
    exact ⟨_, _, rfl, hcorrect, hkept⟩
  | appendBytes data =>
    refine ⟨_, _, rfl, ?_⟩
    unfold SeekableBuffer.append
    split_ifs with hpos
    · obtain ⟨⟨hflag, hbuffers⟩, hkept⟩ := h.append (.copyFrom data) hsafe
      refine ⟨⟨hflag, ?_⟩, hkept⟩
      rw [hbuffers, if_neg (List.length_pos_iff.mp hpos)]
    · have hnil : data = [] := List.eq_nil_of_length_eq_zero (by omega)
      subst hnil
      refine ⟨⟨rfl, by simp⟩, ?_⟩
      rw [ByteString.next, List.append_nil]
      exact h
  | read size =>
    obtain ⟨t, hread, hdiscards, hkept⟩ := h.moved hsafe
    exact ⟨_, t, by rw [Call.apply, SeekableBuffer.read, hread]; rfl, ⟨rfl, hdiscards⟩, hkept⟩
  | peek size forwardOffset =>
    refine ⟨_, s, by rw [Call.apply, SeekableBuffer.peek, internalRead_peek h.counted]; rfl,
      ⟨?_, rfl⟩, h⟩
    rw [h.string.ahead]
  | seek offset =>
    obtain ⟨result, t, hseek, hcorrect, hkept⟩ := h.seek hsafe
    exact ⟨_, t, by rw [Call.apply, hseek]; rfl, hcorrect, hkept⟩
  | getCurrentChunk =>
    obtain ⟨hnone, hsome⟩ := currentChunk_spec h.counted.valid.offset_le
    have hahead := h.string.ahead
    rw [Position.ahead] at hahead
    rw [hahead] at hnone hsome
    exact ⟨_, s, rfl, ⟨rfl, _, rfl, hnone, hsome⟩, h⟩
  | clear =>
    exact ⟨_, _, rfl, ⟨rfl, rfl⟩, kept_empty rfl rfl rfl⟩

end Steps

/-! ### Runs -/

/-- A call that meets its condition. -/
def SafeCall (s : Seekable) (label : Call × Outcome) (t : Seekable) : Prop :=
  label.1.Safe s ∧ label.1.apply s = some (label.2, t)

/-- The string after the calls. -/
def stringOf (log : List (Call × Outcome)) : ByteString := log.foldl ByteString.next ⟨[], 0⟩

lemma kept_of_run {backwardCapacity forwardCapacity : ℤ} {log : List (Call × Outcome)}
    {s : Seekable} (h : Reaches SafeCall (new backwardCapacity forwardCapacity) log s) :
    Kept (stringOf log) s := by
  induction h with
  | refl => exact kept_empty rfl rfl rfl
  | snoc _ hcall ih =>
    obtain ⟨outcome, t, happly, -, hkept⟩ := ih.call hcall.1
    rw [hcall.2] at happly
    obtain ⟨rfl, rfl⟩ := Prod.mk.inj (Option.some.inj happly)
    rw [stringOf, List.foldl_append]
    exact hkept

end Chromium.SeekableBuffer
