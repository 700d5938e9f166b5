import Chromium.WireFormat

/-!
# A seekable buffer

A queue of buffers with a position in it, counters of the bytes before and behind the position, and
the time of the position. Buffers in front of the position are evicted when too many bytes lie
before it.
-/
namespace Chromium.SeekableBuffer

open WireFormat

/-- `kNoTimestamp()`, in microseconds. -/
def kNoTimestamp : ℤ := -2 ^ 63

structure DataBuffer where
  data : List Byte
  timestamp : ℤ
  duration : ℤ

def DataBuffer.dataSize (b : DataBuffer) : ℕ := b.data.length

/-- `DataBuffer::CopyFrom`, which leaves the times at zero. -/
def DataBuffer.copyFrom (data : List Byte) : DataBuffer := ⟨data, 0, 0⟩

/-- `buffers_`, with `current_buffer_` at the head of `rest`, or at the end. -/
structure Position where
  before : List DataBuffer
  rest : List DataBuffer
  offset : ℕ

/-- The counters are of type `int`. -/
structure Seekable where
  position : Position
  backwardCapacity : ℤ
  backwardBytes : ℤ
  forwardCapacity : ℤ
  forwardBytes : ℤ
  currentTime : ℤ

/-- A sum in 32 bits. -/
def int32 (n : ℤ) : ℤ := n.bmod (2 ^ 32)

def new (backwardCapacity forwardCapacity : ℤ) : Seekable :=
  ⟨⟨[], [], 0⟩, backwardCapacity, 0, forwardCapacity, 0, kNoTimestamp⟩

def clear (s : Seekable) : Seekable :=
  { s with position := ⟨[], [], 0⟩, backwardBytes := 0, forwardBytes := 0,
           currentTime := kNoTimestamp }

/-- The loop of `GetCurrentChunk` over the buffers from the current one on. -/
def currentChunk : List DataBuffer → ℕ → Option (List Byte)
  | [], _ => none
  | b :: rest, offset =>
    if b.dataSize ≤ offset then currentChunk rest 0 else some (b.data.drop offset)

def getCurrentChunk (s : Seekable) : Option (List Byte) :=
  currentChunk s.position.rest s.position.offset

/-- `Append` of a buffer. The result advises to go on. -/
def appendBuffer (b : DataBuffer) (s : Seekable) : Bool × Seekable :=
  let empty : Bool := s.position.before.isEmpty && s.position.rest.isEmpty
  let forwardBytes := int32 (s.forwardBytes + b.dataSize)
  (decide (forwardBytes < s.forwardCapacity),
    { s with
      currentTime := if empty ∧ b.timestamp ≠ kNoTimestamp then b.timestamp else s.currentTime
      position :=
        if s.position.rest = [] then ⟨[], s.position.before ++ [b], s.position.offset⟩
        else { s.position with rest := s.position.rest ++ [b] }
      forwardBytes := forwardBytes })

/-- `Append` of bytes. -/
def append (data : List Byte) (s : Seekable) : Bool × Seekable :=
  if 0 < data.length then appendBuffer (.copyFrom data) s
  else (decide (s.forwardBytes < s.forwardCapacity), s)

/-- `UpdateCurrentTime` at the head of these buffers. There is no result when the division is by
zero. -/
def updateCurrentTime (rest : List DataBuffer) (offset : ℕ) (time : ℤ) : Option ℤ :=
  match rest with
  | [] => some time
  | b :: _ =>
    if b.timestamp = kNoTimestamp then some time
    else if b.dataSize = 0 then none
    else some (b.timestamp + (b.duration * offset).tdiv b.dataSize)

/-- `EvictBackwardBuffers` on the buffers in front of the current one. -/
def evictBackwardBuffers (capacity : ℤ) : List DataBuffer → ℤ → List DataBuffer × ℤ
  | [], bytes => ([], bytes)
  | b :: before, bytes =>
    if capacity < bytes then evictBackwardBuffers capacity before (int32 (bytes - b.dataSize))
    else (b :: before, bytes)

/-- What the loop of `InternalRead` has read, and where it is. -/
structure Reading where
  position : Position
  taken : List Byte
  currentTime : ℤ

/-- The loop of `InternalRead`, with `bytesToSkip` to go before anything is read. The time is
updated when the position advances. -/
def readLoop (size : ℕ) (advance : Bool) : ℕ → ℕ → Reading → Option Reading
  | 0, _, _ => none
  | fuel + 1, bytesToSkip, r =>
    if r.taken.length < size then
      match r.position.rest with
      | [] => some r
      | b :: after =>
        let remaining := b.dataSize - r.position.offset
        let moved := if bytesToSkip = 0 then min (size - r.taken.length) remaining
          else min remaining bytesToSkip
        let offset := r.position.offset + moved
        let taken := if bytesToSkip = 0 then
          r.taken ++ (b.data.drop r.position.offset).take moved else r.taken
        let bytesToSkip := bytesToSkip - moved
        if offset = b.dataSize then
          (if advance then updateCurrentTime (b :: after) offset r.currentTime
            else some r.currentTime).bind fun time =>
              if after = [] then some ⟨⟨r.position.before, b :: after, offset⟩, taken, time⟩
              else readLoop size advance fuel bytesToSkip
                ⟨⟨r.position.before ++ [b], after, 0⟩, taken, time⟩
        else readLoop size advance fuel bytesToSkip
          ⟨⟨r.position.before, b :: after, offset⟩, taken, r.currentTime⟩
    else some r

/-- Every round but one leaves a buffer behind. -/
def internalRead (size : ℕ) (advancePosition : Bool) (forwardOffset : ℕ) (s : Seekable) :
    Option (List Byte × Seekable) :=
  (readLoop size advancePosition (s.position.rest.length + 2) forwardOffset
      ⟨s.position, [], s.currentTime⟩).bind fun r =>
    if advancePosition then
      (updateCurrentTime r.position.rest r.position.offset r.currentTime).map fun time =>
        let backwardBytes := int32 (s.backwardBytes + r.taken.length)
        let evicted := evictBackwardBuffers s.backwardCapacity r.position.before backwardBytes
        (r.taken,
          { s with
            position := { r.position with before := evicted.1 }
            forwardBytes := int32 (s.forwardBytes - r.taken.length)
            backwardBytes := evicted.2
            currentTime := time })
    else some (r.taken, s)

def read (size : ℕ) (s : Seekable) : Option (List Byte × Seekable) := internalRead size true 0 s

def peek (size forwardOffset : ℕ) (s : Seekable) : Option (List Byte × Seekable) :=
  internalRead size false forwardOffset s

/-- The position moves back within the current buffer. -/
def stepBack (n : ℕ) (s : Seekable) : Seekable :=
  { s with
    position := { s.position with offset := s.position.offset - n }
    forwardBytes := int32 (s.forwardBytes + n)
    backwardBytes := int32 (s.backwardBytes - n) }

/-- The loop of `SeekBackward`, with `left` bytes to go. -/
def seekBackwardLoop : ℕ → ℕ → Seekable → Option Seekable
  | 0, _, _ => none
  | fuel + 1, left, s =>
    if 0 < left then
      let consumed := min left s.position.offset
      let s := stepBack consumed s
      if s.position.offset = 0 then
        match s.position.before.getLast? with
        | none => some s
        | some b =>
          seekBackwardLoop fuel (left - consumed)
            { s with position := ⟨s.position.before.dropLast, b :: s.position.rest, b.dataSize⟩ }
      else seekBackwardLoop fuel (left - consumed) s
    else some s

def seekForward (size : ℕ) (s : Seekable) : Option (Bool × Seekable) :=
  if s.forwardBytes < size then some (false, s)
  else (internalRead size true 0 s).map fun result => (true, result.2)

def seekBackward (size : ℕ) (s : Seekable) : Option (Bool × Seekable) :=
  if s.backwardBytes < size then some (false, s)
  else
    (seekBackwardLoop (s.position.before.length + 2) size s).bind fun t =>
      (updateCurrentTime t.position.rest t.position.offset t.currentTime).map fun time =>
        (true, { t with currentTime := time })

def seek (offset : ℤ) (s : Seekable) : Option (Bool × Seekable) :=
  if 0 < offset then seekForward offset.toNat s
  else if offset < 0 then seekBackward (-offset).toNat s
  else some (true, s)

/-! ### The bytes at a position -/

namespace Position

/-- The bytes of all buffers. -/
def held (p : Position) : List Byte := (p.before ++ p.rest).flatMap DataBuffer.data

/-- The bytes from the position on. -/
def ahead (p : Position) : List Byte := (p.rest.flatMap DataBuffer.data).drop p.offset

/-- The bytes in front of the position. -/
def behind (p : Position) : List Byte :=
  p.before.flatMap DataBuffer.data ++ (p.rest.flatMap DataBuffer.data).take p.offset

structure Valid (p : Position) : Prop where
  offset_le : ∀ b ∈ p.rest.head?, p.offset ≤ b.dataSize
  at_end : p.rest = [] → p.before = [] ∧ p.offset = 0

lemma behind_append_ahead (p : Position) : p.behind ++ p.ahead = p.held := by
  rw [behind, ahead, held, List.append_assoc, List.take_append_drop, List.flatMap_append]

lemma ahead_cons {before after : List DataBuffer} {b : DataBuffer} {offset : ℕ}
    (h : offset ≤ b.dataSize) :
    ahead ⟨before, b :: after, offset⟩ = b.data.drop offset ++ after.flatMap DataBuffer.data := by
  rw [ahead, List.flatMap_cons, List.drop_append_of_le_length h]

lemma Valid.offset_le_length {p : Position} (h : p.Valid) :
    p.offset ≤ (p.rest.flatMap DataBuffer.data).length := by
  cases hrest : p.rest with
  | nil => exact (h.at_end hrest).2.le
  | cons b rest =>
    have hb := h.offset_le b (by rw [hrest]; rfl)
    rw [List.flatMap_cons, List.length_append]
    exact le_trans hb (Nat.le_add_right _ _)

lemma Valid.length_behind {p : Position} (h : p.Valid) :
    p.behind.length = (p.before.flatMap DataBuffer.data).length + p.offset := by
  rw [behind, List.length_append, List.length_take, min_eq_left h.offset_le_length]

/-- The position `q` is `n` bytes behind `p` in the same buffers. -/
structure Advances (p : Position) (n : ℕ) (q : Position) : Prop where
  valid : q.Valid
  buffers : q.before ++ q.rest = p.before ++ p.rest
  ahead : q.ahead = p.ahead.drop n

lemma Advances.refl {p : Position} (h : p.Valid) : p.Advances 0 p := ⟨h, rfl, rfl⟩

lemma Advances.trans {p q r : Position} {m n : ℕ} (h : p.Advances m q) (h' : q.Advances n r) :
    p.Advances (m + n) r where
  valid := h'.valid
  buffers := h'.buffers.trans h.buffers
  ahead := by rw [h'.ahead, h.ahead, List.drop_drop]

lemma Advances.behind {p q : Position} {n : ℕ} (h : p.Advances n q) :
    q.behind = p.behind ++ p.ahead.take n := by
  have hheld : q.held = p.held := by rw [held, held, h.buffers]
  rw [← behind_append_ahead, ← behind_append_ahead, h.ahead, ← List.take_append_drop n p.ahead,
    ← List.append_assoc, List.take_append_drop] at hheld
  exact List.append_cancel_right hheld

lemma Advances.take {p q : Position} {m : ℕ} (h : p.Advances m q) (n : ℕ) :
    p.ahead.take (m + n) = p.ahead.take m ++ q.ahead.take n := by
  rw [List.take_add, h.ahead]

/-- There is nothing behind the end. -/
lemma Advances.of_end {p q : Position} {m n : ℕ} (h : p.Advances m q) (hend : p.ahead.length ≤ m)
    (hle : m ≤ n) : p.Advances n q where
  valid := h.valid
  buffers := h.buffers
  ahead := by rw [h.ahead, List.drop_of_length_le hend, List.drop_of_length_le (hend.trans hle)]

section Buffer
variable {before after : List DataBuffer} {b : DataBuffer} {offset n : ℕ}

lemma valid_cons (h : offset ≤ b.dataSize) : (mk before (b :: after) offset).Valid := by
  refine ⟨?_, fun hnil => absurd hnil (List.cons_ne_nil _ _)⟩
  rintro c ⟨⟩
  exact h

/-- The position moves within a buffer. -/
lemma advances_within (h : offset + n ≤ b.dataSize) :
    (mk before (b :: after) offset).Advances n (mk before (b :: after) (offset + n)) where
  valid := valid_cons h
  buffers := rfl
  ahead := by rw [Position.ahead, Position.ahead, List.drop_drop]

/-- The end of a buffer is the start of the next one. -/
lemma advances_next (h : after ≠ []) :
    (mk before (b :: after) b.dataSize).Advances 0 (mk (before ++ [b]) after 0) where
  valid := ⟨fun _ _ => Nat.zero_le _, fun hnil => absurd hnil h⟩
  buffers := by simp
  ahead := by
    rw [ahead_cons le_rfl, List.drop_of_length_le (show b.data.length ≤ b.dataSize from le_rfl)]
    rfl

lemma take_ahead_within (h : offset + n ≤ b.dataSize) :
    (mk before (b :: after) offset).ahead.take n = (b.data.drop offset).take n := by
  have hlength : (b.data.drop offset).length = b.dataSize - offset := List.length_drop
  rw [ahead_cons (by omega), List.take_append_of_le_length (by omega)]

end Buffer

end Position

/-! ### Reading -/

/-- The time of the buffer can be computed: it has none, or it is not empty. -/
def DataBuffer.Timed (b : DataBuffer) : Prop := b.timestamp = kNoTimestamp ∨ b.dataSize ≠ 0

lemma updateCurrentTime_isSome {rest : List DataBuffer} (h : ∀ b ∈ rest.head?, b.Timed)
    (offset : ℕ) (time : ℤ) : ∃ time', updateCurrentTime rest offset time = some time' := by
  cases rest with
  | nil => exact ⟨time, rfl⟩
  | cons b rest =>
    rw [updateCurrentTime]
    rcases h b rfl with hnone | hsize
    · exact ⟨time, if_pos hnone⟩
    · split_ifs
      · exact ⟨time, rfl⟩
      · exact ⟨_, rfl⟩

/-- The buffers at which a read of `n` bytes updates the time: those it leaves behind and the one
at which it ends. -/
def metByRead : ℕ → ℕ → List DataBuffer → List DataBuffer
  | _, _, [] => []
  | n, offset, b :: after =>
    if n = 0 ∨ n < b.dataSize - offset ∨ after = [] then [b]
    else b :: metByRead (n - (b.dataSize - offset)) 0 after

lemma head_mem_metByRead (n offset : ℕ) (b : DataBuffer) (after : List DataBuffer) :
    b ∈ metByRead n offset (b :: after) := by
  rw [metByRead]
  split_ifs <;> exact List.mem_cons_self

lemma head_of_metByRead {n offset : ℕ} {rest : List DataBuffer} {P : DataBuffer → Prop}
    (h : ∀ b ∈ metByRead n offset rest, P b) : ∀ b ∈ rest.head?, P b := by
  cases rest with
  | nil =>
    intro b hb
    cases hb
  | cons c after =>
    intro b hb
    cases hb
    exact h c (head_mem_metByRead _ _ _ _)

section ReadLoop
variable {size : ℕ} {advance : Bool} {r : Reading}

lemma readLoop_done (h : size ≤ r.taken.length) (fuel skip : ℕ) :
    readLoop size advance (fuel + 1) skip r = some r := by
  rw [readLoop, if_neg (Nat.not_lt.mpr h)]

/-- The loop reads the next bytes, and as many as there are. -/
lemma readLoop_spec (fuel : ℕ) (r : Reading) (hfuel : r.position.rest.length < fuel)
    (hvalid : r.position.Valid) (htaken : r.taken.length ≤ size)
    (hmet : advance = true →
      ∀ b ∈ metByRead (size - r.taken.length) r.position.offset r.position.rest, b.Timed) :
    ∃ t, readLoop size advance fuel 0 r = some t ∧
      r.position.Advances (size - r.taken.length) t.position ∧
      t.taken = r.taken ++ r.position.ahead.take (size - r.taken.length) ∧
      (advance = true → ∀ b ∈ t.position.rest.head?, b.Timed) := by
  induction fuel generalizing r with
  | zero => omega
  | succ fuel ih =>
    by_cases hlt : r.taken.length < size
    swap
    · have hzero : size - r.taken.length = 0 := by omega
      rw [hzero] at hmet ⊢
      refine ⟨r, readLoop_done (by omega) _ _, .refl hvalid, by simp, fun hadvance => ?_⟩
      exact head_of_metByRead (hmet hadvance)
    obtain ⟨⟨before, rest, offset⟩, taken, time⟩ := r
    cases rest with
    | nil =>
      refine ⟨⟨⟨before, [], offset⟩, taken, time⟩, ?_, ⟨hvalid, rfl, ?_⟩, ?_, ?_⟩
      · rw [readLoop, if_pos hlt]
      · simp [Position.ahead]
      · simp [Position.ahead]
      · intro _ b hb
        cases hb
    | cons b after =>
      have hoffset : offset ≤ b.dataSize := hvalid.offset_le b rfl
      dsimp only at hlt htaken hmet ⊢
      have htimed : advance = true → b.Timed := fun h => hmet h b (head_mem_metByRead _ _ _ _)
      rw [readLoop, if_pos hlt]
      dsimp only
      rw [if_pos rfl, if_pos rfl]
      obtain ⟨n, hn⟩ : ∃ n, n = min (size - taken.length) (b.dataSize - offset) := ⟨_, rfl⟩
      have hwithin : offset + n ≤ b.dataSize := by omega
      have hadvances : (Position.mk before (b :: after) offset).Advances n
          (.mk before (b :: after) (offset + n)) := Position.advances_within hwithin
      have htake : (Position.mk before (b :: after) offset).ahead.take n =
          (b.data.drop offset).take n := Position.take_ahead_within hwithin
      rw [← hn, ← htake, Nat.zero_sub]
      have hlength : (taken ++ (Position.mk before (b :: after) offset).ahead.take n).length =
          taken.length + n := by
        have hdata : (b.data.drop offset).length = b.dataSize - offset := List.length_drop
        rw [htake, List.length_append, List.length_take, hdata]
        omega
      by_cases hend : offset + n = b.dataSize
      · -- the buffer is consumed
        obtain ⟨time', htime⟩ : ∃ time', (if advance = true then
            updateCurrentTime (b :: after) (offset + n) time else some time) = some time' := by
          split_ifs with hadvance
          · refine updateCurrentTime_isSome (fun c hc => ?_) _ _
            cases hc
            exact htimed hadvance
          · exact ⟨time, rfl⟩
        rw [if_pos hend, htime, Option.bind_some]
        by_cases hafter : after = []
        · subst hafter
          have hall : (Position.mk before [b] offset).ahead.length ≤ n := by
            rw [Position.ahead_cons hoffset]
            simp only [List.flatMap_nil, List.append_nil, List.length_drop]
            exact Nat.sub_le_iff_le_add'.mpr hend.ge
          rw [if_pos rfl, List.take_of_length_le hall]
          refine ⟨_, rfl, hadvances.of_end hall (by omega), ?_, ?_⟩
          · rw [List.take_of_length_le (by omega)]
          · rintro hadvance c ⟨⟩
            exact htimed hadvance
        · have hnext : (Position.mk before (b :: after) offset).Advances n
              (.mk (before ++ [b]) after 0) := by
            rw [hend] at hadvances
            exact hadvances.trans (Position.advances_next hafter)
          have hleft : size - taken.length = n + (size - (taken.length + n)) := by omega
          have hmet' : advance = true →
              ∀ c ∈ metByRead (size - (taken.length + n)) 0 after, c.Timed := by
            intro hadvance c hc
            apply hmet hadvance
            rw [metByRead, if_neg (by simp only [hafter, or_false]; omega),
              show size - taken.length - (b.dataSize - offset) = size - (taken.length + n) by omega]
            exact List.mem_cons_of_mem _ hc
          rw [if_neg hafter]
          obtain ⟨t, hloop, hadvances', htaken', hhead⟩ :=
            ih ⟨.mk (before ++ [b]) after 0, _, time'⟩ (Nat.lt_of_succ_lt_succ hfuel) hnext.valid (by rw [hlength]; omega)
            (by rw [hlength]; exact hmet')
          rw [hlength] at hadvances' htaken'
          refine ⟨t, hloop, ?_, ?_, hhead⟩
          · rw [hleft]
            exact hnext.trans hadvances'
          · rw [htaken', hleft, hnext.take, List.append_assoc]
      · have hall : n = size - taken.length := by omega
        obtain ⟨fuel, rfl⟩ : ∃ m, fuel = m + 1 := ⟨fuel - 1, by simp at hfuel; omega⟩
        rw [if_neg hend, readLoop_done (by rw [hlength]; omega), ← hall]
        refine ⟨_, rfl, hadvances, rfl, ?_⟩
        rintro hadvance c ⟨⟩
        exact htimed hadvance

/-- Bytes are skipped first. -/
lemma readLoop_skip (fuel skip : ℕ) (r : Reading) (hfuel : r.position.rest.length + 1 < fuel)
    (hvalid : r.position.Valid) (htaken : r.taken.length ≤ size) :
    ∃ t, readLoop size false fuel skip r = some t ∧
      t.taken = r.taken ++ (r.position.ahead.drop skip).take (size - r.taken.length) := by
  induction fuel generalizing skip r with
  | zero => omega
  | succ fuel ih =>
    by_cases hskip : skip = 0
    · subst hskip
      obtain ⟨t, hloop, -, htaken', -⟩ := readLoop_spec (fuel + 1) r (by omega) hvalid htaken
        (fun hfalse => absurd hfalse Bool.false_ne_true)
      exact ⟨t, hloop, htaken'⟩
    by_cases hlt : r.taken.length < size
    swap
    · refine ⟨r, readLoop_done (by omega) _ _, ?_⟩
      rw [show size - r.taken.length = 0 by omega, List.take_zero, List.append_nil]
    obtain ⟨⟨before, rest, offset⟩, taken, time⟩ := r
    rw [readLoop, if_pos hlt]
    cases rest with
    | nil => exact ⟨_, rfl, by simp [Position.ahead]⟩
    | cons b after =>
      have hoffset : offset ≤ b.dataSize := hvalid.offset_le b rfl
      have hlength : (b.data.drop offset).length = b.dataSize - offset := List.length_drop
      dsimp only at hlt htaken hfuel ⊢
      rw [if_neg hskip, if_neg hskip, Position.ahead_cons hoffset]
      by_cases hend : b.dataSize - offset ≤ skip
      · have hbuffer : (b.data.drop offset ++ after.flatMap DataBuffer.data).drop skip =
            (after.flatMap DataBuffer.data).drop (skip - (b.dataSize - offset)) := by
          rw [List.drop_append, hlength, List.drop_of_length_le (hlength.trans_le hend),
            List.nil_append]
        rw [min_eq_left hend, if_pos (by omega), if_neg Bool.false_ne_true, Option.bind_some,
          hbuffer]
        by_cases hafter : after = []
        · subst hafter
          rw [if_pos rfl]
          exact ⟨_, rfl, by simp⟩
        · rw [if_neg hafter]
          obtain ⟨t, hloop, htaken'⟩ := ih (skip - (b.dataSize - offset))
            ⟨⟨before ++ [b], after, 0⟩, taken, time⟩ (Nat.lt_of_succ_lt_succ hfuel)
            ⟨fun _ _ => Nat.zero_le _, fun hnil => absurd hnil hafter⟩ htaken
          exact ⟨t, hloop, htaken'⟩
      · rw [min_eq_right (by omega), if_neg (by omega), Nat.sub_self]
        have hwithin : offset + skip ≤ b.dataSize := by omega
        obtain ⟨t, hloop, -, htaken', -⟩ := readLoop_spec fuel
          ⟨⟨before, b :: after, offset + skip⟩, taken, time⟩ (Nat.lt_of_succ_lt_succ hfuel)
          (Position.valid_cons hwithin) htaken (fun hfalse => absurd hfalse Bool.false_ne_true)
        refine ⟨t, hloop, ?_⟩
        rw [htaken', Position.ahead_cons hwithin, List.drop_append_of_le_length (by omega),
          List.drop_drop]

end ReadLoop

/-! ### The counters -/

/-- The counters tell the numbers of bytes, and fit into an `int`. -/
structure Counted (s : Seekable) : Prop where
  valid : s.position.Valid
  forward : s.forwardBytes = s.position.ahead.length
  backward : s.backwardBytes = s.position.behind.length
  forward_lt : s.position.ahead.length < 2 ^ 31
  backward_lt : s.position.behind.length < 2 ^ 31

lemma int32_of_lt {n : ℕ} (h : n < 2 ^ 31) : int32 n = n := by
  rw [int32]
  exact Int.bmod_eq_of_le (by omega) (by omega)

/-- Whole buffers are dropped from the front while the capacity is exceeded. -/
structure Evicts (capacity : ℤ) (before : List DataBuffer) (bytes : ℤ)
    (dropped kept : List DataBuffer) : Prop where
  buffers : before = dropped ++ kept
  exceeds : ∀ i < dropped.length,
    capacity < bytes - ((dropped.take i).flatMap DataBuffer.data).length
  enough : kept = [] ∨ bytes - (dropped.flatMap DataBuffer.data).length ≤ capacity

lemma evictBackwardBuffers_spec (capacity : ℤ) (before : List DataBuffer) {bytes : ℕ}
    (hbytes : (before.flatMap DataBuffer.data).length ≤ bytes) (hlt : bytes < 2 ^ 31) :
    ∃ dropped kept, Evicts capacity before bytes dropped kept ∧
      evictBackwardBuffers capacity before bytes =
        (kept, (bytes : ℤ) - (dropped.flatMap DataBuffer.data).length) := by
  induction before generalizing bytes with
  | nil =>
    refine ⟨[], [], ⟨rfl, ?_, .inl rfl⟩, by simp [evictBackwardBuffers]⟩
    exact fun i hi => absurd hi (Nat.not_lt_zero i)
  | cons b before ih =>
    rw [evictBackwardBuffers]
    split_ifs with hcapacity
    · rw [List.flatMap_cons, List.length_append] at hbytes
      have hsize : b.data.length = b.dataSize := rfl
      have hsub : int32 ((bytes : ℤ) - b.dataSize) = ((bytes - b.dataSize : ℕ) : ℤ) := by
        rw [← Nat.cast_sub (by omega), int32_of_lt (by omega)]
      obtain ⟨dropped, kept, hevicts, heq⟩ := @ih (bytes - b.dataSize) (by omega) (by omega)
      have hcast : ((bytes - b.dataSize : ℕ) : ℤ) = bytes - b.dataSize := Nat.cast_sub (by omega)
      refine ⟨b :: dropped, kept, ⟨?_, ?_, ?_⟩, ?_⟩
      · rw [hevicts.buffers, List.cons_append]
      · intro i hi
        cases i with
        | zero => simpa using hcapacity
        | succ i =>
          have := hevicts.exceeds i (Nat.lt_of_succ_lt_succ hi)
          rw [List.take_succ_cons, List.flatMap_cons, List.length_append]
          push_cast
          omega
      · rcases hevicts.enough with hnil | henough
        · exact .inl hnil
        · right
          rw [List.flatMap_cons, List.length_append]
          push_cast
          omega
      · rw [hsub, heq, hcast, List.flatMap_cons, List.length_append]
        push_cast
        congr 1
        omega
    · refine ⟨[], b :: before, ⟨rfl, ?_, .inr (by simpa using hcapacity)⟩, by simp⟩
      exact fun i hi => absurd hi (Nat.not_lt_zero i)

section Calls
variable {s t : Seekable}

/-- What an advance does to the buffer. -/
structure Moved (s : Seekable) (n : ℕ) (t : Seekable) : Prop where
  counted : Counted t
  capacity : t.backwardCapacity = s.backwardCapacity
  forwardCapacity : t.forwardCapacity = s.forwardCapacity
  ahead : t.position.ahead = s.position.ahead.drop n
  evicts : ∃ q dropped, s.position.Advances n q ∧
    Evicts s.backwardCapacity q.before q.behind.length dropped t.position.before ∧
    t.position = { q with before := t.position.before }

lemma internalRead_advance (h : Counted s) (size : ℕ)
    (hmet : ∀ b ∈ metByRead size s.position.offset s.position.rest, b.Timed)
    (hlt : s.position.behind.length + min size s.position.ahead.length < 2 ^ 31) :
    ∃ t, internalRead size true 0 s = some (s.position.ahead.take size, t) ∧ Moved s size t := by
  obtain ⟨r, hloop, hadvances, htaken, hhead⟩ := @readLoop_spec size true
    (s.position.rest.length + 2) ⟨s.position, [], s.currentTime⟩ (by dsimp only; omega) h.valid
    (Nat.zero_le size) (fun _ => hmet)
  obtain ⟨time, htime⟩ := updateCurrentTime_isSome (hhead rfl) r.position.offset r.currentTime
  simp only [List.nil_append, List.length_nil, Nat.sub_zero] at htaken hadvances
  have hlength : r.taken.length = min size s.position.ahead.length := by
    rw [htaken, List.length_take]
  have hbehind : r.position.behind.length = s.position.behind.length + r.taken.length := by
    rw [hadvances.behind, List.length_append, htaken]
  have hahead : r.position.ahead.length = s.position.ahead.length - r.taken.length := by
    rw [hadvances.ahead, List.length_drop, hlength]
    omega
  have hbefore : (r.position.before.flatMap DataBuffer.data).length ≤ r.position.behind.length := by
    rw [Position.behind, List.length_append]
    omega
  obtain ⟨dropped, kept, hevicts, hevict⟩ :=
    evictBackwardBuffers_spec s.backwardCapacity r.position.before hbefore (by omega)
  have hbackward : int32 (s.backwardBytes + r.taken.length) = (r.position.behind.length : ℤ) := by
    rw [h.backward, hbehind, ← Nat.cast_add, int32_of_lt (by omega)]
  have hforward : int32 (s.forwardBytes - r.taken.length) = (r.position.ahead.length : ℤ) := by
    rw [h.forward, hahead, ← Nat.cast_sub (by omega), int32_of_lt (by have := h.forward_lt; omega)]
  have hdropped : r.position.behind.length = (dropped.flatMap DataBuffer.data).length +
      (Position.mk kept r.position.rest r.position.offset).behind.length := by
    rw [Position.behind, Position.behind, hevicts.buffers, List.flatMap_append, List.append_assoc,
      List.length_append]
  refine ⟨{ s with
    position := ⟨kept, r.position.rest, r.position.offset⟩
    forwardBytes := r.position.ahead.length
    backwardBytes := (r.position.behind.length : ℤ) - (dropped.flatMap DataBuffer.data).length
    currentTime := time }, ?_, ⟨⟨⟨hadvances.valid.offset_le, fun hnil => ?_⟩, rfl, ?_, ?_, ?_⟩, rfl,
      rfl, hadvances.ahead, r.position, dropped, hadvances, hevicts, rfl⟩⟩
  · rw [internalRead, hloop, Option.bind_some, if_pos rfl, htime, Option.map_some]
    dsimp only
    rw [hbackward, hevict, hforward, htaken]
  · obtain ⟨hnone, hzero⟩ := hadvances.valid.at_end hnil
    have hkept := hevicts.buffers
    rw [hnone] at hkept
    exact ⟨(List.append_eq_nil_iff.mp hkept.symm).2, hzero⟩
  · dsimp only
    omega
  · dsimp only
    have hsame : (Position.mk kept r.position.rest r.position.offset).ahead =
        r.position.ahead := rfl
    have := h.forward_lt
    rw [hsame]
    omega
  · dsimp only
    omega

lemma internalRead_peek (h : Counted s) (size forwardOffset : ℕ) :
    internalRead size false forwardOffset s =
      some ((s.position.ahead.drop forwardOffset).take size, s) := by
  obtain ⟨r, hloop, htaken⟩ := readLoop_skip (s.position.rest.length + 2) forwardOffset
    ⟨s.position, [], s.currentTime⟩ (by dsimp only; omega) h.valid (Nat.zero_le size)
  rw [internalRead, hloop, Option.bind_some, if_neg Bool.false_ne_true, htaken]
  rfl

/-- The chunk is what the first buffer with bytes left has at the position. -/
lemma currentChunk_spec {rest : List DataBuffer} {offset : ℕ}
    (h : ∀ b ∈ rest.head?, offset ≤ b.dataSize) :
    (currentChunk rest offset = none ↔ (rest.flatMap DataBuffer.data).drop offset = []) ∧
      ∀ chunk ∈ currentChunk rest offset,
        chunk ≠ [] ∧ chunk <+: (rest.flatMap DataBuffer.data).drop offset := by
  induction rest generalizing offset with
  | nil => simp [currentChunk]
  | cons b rest ih =>
    have hoffset : offset ≤ b.data.length := h b rfl
    rw [currentChunk, List.flatMap_cons, List.drop_append_of_le_length hoffset]
    split_ifs with hend
    · rw [List.drop_of_length_le hend, List.nil_append]
      exact ih fun _ _ => Nat.zero_le _
    · have hne : b.data.drop offset ≠ [] := by
        rw [Ne, List.drop_eq_nil_iff]
        exact hend
      refine ⟨iff_of_false (by simp) (by simp [hne]), ?_⟩
      rintro chunk ⟨⟩
      exact ⟨hne, List.prefix_append _ _⟩

/-- What an append does to the buffer. -/
structure Appended (s : Seekable) (data : List Byte) (t : Seekable) : Prop where
  counted : Counted t
  capacity : t.backwardCapacity = s.backwardCapacity
  forwardCapacity : t.forwardCapacity = s.forwardCapacity
  ahead : t.position.ahead = s.position.ahead ++ data
  behind : t.position.behind = s.position.behind

lemma appendBuffer_spec (h : Counted s) (b : DataBuffer)
    (hlt : s.position.ahead.length + b.dataSize < 2 ^ 31) :
    Appended s b.data (appendBuffer b s).2 := by
  obtain ⟨hvalid, hforward, hbackward, -, hbackward_lt⟩ := h
  obtain ⟨⟨before, rest, offset⟩, backwardCapacity, backwardBytes, forwardCapacity, forwardBytes,
    currentTime⟩ := s
  dsimp only at hforward hbackward hbackward_lt hlt
  have hcount : int32 (forwardBytes + b.dataSize) =
      ((Position.ahead ⟨before, rest, offset⟩ ++ b.data).length : ℤ) := by
    rw [hforward, ← Nat.cast_add, int32_of_lt hlt, List.length_append]
    rfl
  have hfits : (Position.ahead ⟨before, rest, offset⟩ ++ b.data).length < 2 ^ 31 := by
    rwa [List.length_append]
  unfold appendBuffer
  dsimp only
  cases rest with
  | nil =>
    obtain ⟨hbefore, hoffset⟩ := hvalid.at_end rfl
    dsimp only at hbefore hoffset
    subst hbefore hoffset
    rw [if_pos rfl]
    have hahead : Position.ahead ⟨[], [] ++ [b], 0⟩ = Position.ahead ⟨[], [], 0⟩ ++ b.data := by
      simp [Position.ahead]
    refine ⟨⟨⟨fun _ _ => Nat.zero_le _, fun hnil => absurd hnil (List.cons_ne_nil _ _)⟩, ?_, ?_,
      ?_, ?_⟩, rfl, rfl, ?_, ?_⟩
    · rw [hahead]
      exact hcount
    · exact hbackward
    · rw [hahead]
      exact hfits
    · exact hbackward_lt
    · exact hahead
    · rfl
  | cons c rest =>
    have hoffset : offset ≤ c.dataSize := hvalid.offset_le c rfl
    rw [if_neg (List.cons_ne_nil _ _)]
    have hahead : Position.ahead ⟨before, c :: rest ++ [b], offset⟩ =
        Position.ahead ⟨before, c :: rest, offset⟩ ++ b.data := by
      rw [List.cons_append, Position.ahead_cons hoffset, Position.ahead_cons hoffset]
      simp
    have hbehind : Position.behind ⟨before, c :: rest ++ [b], offset⟩ =
        Position.behind ⟨before, c :: rest, offset⟩ := by
      rw [Position.behind, Position.behind, List.cons_append, List.flatMap_cons, List.flatMap_cons,
        List.take_append_of_le_length hoffset, List.take_append_of_le_length hoffset]
    refine ⟨⟨⟨hvalid.offset_le, fun hnil => absurd hnil (List.cons_ne_nil _ _)⟩, ?_, ?_,
      ?_, ?_⟩, rfl, rfl, hahead, hbehind⟩
    · rw [hahead]
      exact hcount
    · rw [hbehind]
      exact hbackward
    · rw [hahead]
      exact hfits
    · rw [hbehind]
      exact hbackward_lt

/-! ### Seeking backward -/

/-- The buffer at which a seek of `left` bytes backward ends, with the nearest buffers in front of
the current one first. -/
def landing : ℕ → ℕ → Option DataBuffer → List DataBuffer → Option DataBuffer
  | _, _, current, [] => current
  | left, offset, current, b :: earlier =>
    if left = 0 ∨ left < offset then current
    else landing (left - offset) b.dataSize (some b) earlier

lemma Counted.stepBack (h : Counted s) {n : ℕ} (hn : n ≤ s.position.offset)
    (hlt : s.position.ahead.length + n < 2 ^ 31) :
    Counted (stepBack n s) ∧ (stepBack n s).position.Advances n s.position ∧
      s.position.behind.length = (stepBack n s).position.behind.length + n ∧
      (stepBack n s).position.ahead.length = s.position.ahead.length + n := by
  have hvalid : (SeekableBuffer.stepBack n s).position.Valid := by
    refine ⟨fun b hb => ?_, fun hnil => ?_⟩
    · exact le_trans (Nat.sub_le _ _) (h.valid.offset_le b hb)
    · obtain ⟨hbefore, hzero⟩ := h.valid.at_end hnil
      exact ⟨hbefore, by rw [SeekableBuffer.stepBack]; dsimp only; omega⟩
  have hadvances : (SeekableBuffer.stepBack n s).position.Advances n s.position := by
    refine ⟨h.valid, rfl, ?_⟩
    rw [Position.ahead, Position.ahead, List.drop_drop]
    congr 1
    exact (Nat.sub_add_cancel hn).symm
  have hbehind : s.position.behind.length =
      (SeekableBuffer.stepBack n s).position.behind.length + n := by
    rw [h.valid.length_behind, hvalid.length_behind]
    show _ = (s.position.before.flatMap DataBuffer.data).length + (s.position.offset - n) + n
    omega
  have hahead : (SeekableBuffer.stepBack n s).position.ahead.length =
      s.position.ahead.length + n := by
    have hle := h.valid.offset_le_length
    rw [Position.ahead, Position.ahead, List.length_drop, List.length_drop]
    show (s.position.rest.flatMap DataBuffer.data).length - (s.position.offset - n) = _
    omega
  refine ⟨⟨hvalid, ?_, ?_, ?_, ?_⟩, hadvances, hbehind, hahead⟩
  · rw [hahead]
    show int32 (s.forwardBytes + n) = _
    rw [h.forward, ← Nat.cast_add, int32_of_lt hlt]
  · show int32 (s.backwardBytes - n) = _
    have hlt := h.backward_lt
    rw [h.backward, hbehind, Nat.cast_add, add_sub_cancel_right, int32_of_lt (by omega)]
  · rwa [hahead]
  · have hlt := h.backward_lt
    omega

/-- The position moves to the end of the buffer in front of the current one. -/
lemma Counted.previous (h : Counted s) {earlier : List DataBuffer} {b : DataBuffer}
    (hbefore : s.position.before = earlier ++ [b]) (hzero : s.position.offset = 0) :
    Counted { s with position := ⟨earlier, b :: s.position.rest, b.dataSize⟩ } ∧
      (Position.mk earlier (b :: s.position.rest) b.dataSize).Advances 0 s.position := by
  have hvalid : (Position.mk earlier (b :: s.position.rest) b.dataSize).Valid :=
    Position.valid_cons le_rfl
  have hahead : (Position.mk earlier (b :: s.position.rest) b.dataSize).ahead =
      s.position.ahead := by
    rw [Position.ahead_cons le_rfl, Position.ahead, hzero,
      List.drop_of_length_le (show b.data.length ≤ b.dataSize from le_rfl)]
    rfl
  have hlength : (Position.mk earlier (b :: s.position.rest) b.dataSize).behind.length =
      s.position.behind.length := by
    rw [hvalid.length_behind, h.valid.length_behind, hbefore, hzero, List.flatMap_append,
      List.length_append, List.flatMap_singleton]
    rfl
  refine ⟨⟨hvalid, ?_, ?_, ?_, ?_⟩, h.valid, ?_, ?_⟩
  · rw [hahead]
    exact h.forward
  · rw [hlength]
    exact h.backward
  · rw [hahead]
    exact h.forward_lt
  · rw [hlength]
    exact h.backward_lt
  · rw [hbefore, List.append_assoc]
    rfl
  · rw [hahead]
    rfl

lemma landing_stay {left offset : ℕ} (h : left = 0 ∨ left < offset) (current : Option DataBuffer)
    (earlier : List DataBuffer) : landing left offset current earlier = current := by
  cases earlier with
  | nil => rfl
  | cons b earlier => rw [landing, if_pos h]

lemma seekBackwardLoop_zero (fuel : ℕ) (s : Seekable) :
    seekBackwardLoop (fuel + 1) 0 s = some s := by
  rw [seekBackwardLoop, if_neg (Nat.lt_irrefl 0)]

/-- The position is `n` bytes back, and nothing else changed. -/
structure Back (s : Seekable) (n : ℕ) (t : Seekable) : Prop where
  counted : Counted t
  capacity : t.backwardCapacity = s.backwardCapacity
  forwardCapacity : t.forwardCapacity = s.forwardCapacity
  advances : t.position.Advances n s.position
  length : t.position.ahead.length = s.position.ahead.length + n

lemma seekBackwardLoop_spec (fuel left : ℕ) (h : Counted s)
    (hfuel : s.position.before.length + 1 < fuel) (hleft : left ≤ s.position.behind.length)
    (hlt : s.position.ahead.length + left < 2 ^ 31) :
    ∃ t, seekBackwardLoop fuel left s = some t ∧ Back s left t ∧
      t.position.rest.head? = landing left s.position.offset s.position.rest.head?
        s.position.before.reverse := by
  induction fuel generalizing left s with
  | zero => omega
  | succ fuel ih =>
    obtain ⟨fuel, rfl⟩ : ∃ m, fuel = m + 1 := ⟨fuel - 1, by omega⟩
    by_cases hpos : 0 < left
    swap
    · obtain rfl : left = 0 := by omega
      exact ⟨s, seekBackwardLoop_zero _ _, ⟨h, rfl, rfl, .refl h.valid, rfl⟩,
        (landing_stay (.inl rfl) _ _).symm⟩
    rw [seekBackwardLoop, if_pos hpos]
    dsimp only
    by_cases hwithin : left < s.position.offset
    · -- the seek ends in the current buffer
      have hmin : min left s.position.offset = left := min_eq_left hwithin.le
      have hne : ¬ (stepBack left s).position.offset = 0 := by
        show ¬ s.position.offset - left = 0
        omega
      obtain ⟨hcounted, hadvances, -, hahead⟩ := h.stepBack hwithin.le hlt
      rw [hmin, if_neg hne, Nat.sub_self]
      exact ⟨_, seekBackwardLoop_zero _ _, ⟨hcounted, rfl, rfl, hadvances, hahead⟩,
        (landing_stay (.inr hwithin) _ _).symm⟩
    have hmin : min left s.position.offset = s.position.offset := min_eq_right (by omega)
    have hzero : (stepBack s.position.offset s).position.offset = 0 := Nat.sub_self _
    obtain ⟨hcounted, hadvances, hbehind, hahead⟩ := h.stepBack le_rfl (by omega)
    rw [hmin, if_pos hzero]
    have hbefore : (stepBack s.position.offset s).position.before = s.position.before := rfl
    rcases List.eq_nil_or_concat' s.position.before with hnil | ⟨earlier, b, hconcat⟩
    · have hlength := h.valid.length_behind
      rw [hnil] at hlength
      have hall : left = s.position.offset := by
        simp only [List.flatMap_nil, List.length_nil] at hlength
        omega
      rw [hbefore, hnil, List.getLast?_nil]
      rw [hall]
      exact ⟨_, rfl, ⟨hcounted, rfl, rfl, hadvances, hahead⟩, rfl⟩
    · obtain ⟨hcounted', hadvances'⟩ := hcounted.previous (hbefore.trans hconcat) hzero
      have hsame := congrArg List.length hadvances'.behind
      have hsame' := congrArg List.length hadvances'.ahead
      rw [List.take_zero, List.append_nil] at hsame
      rw [List.drop_zero] at hsame'
      obtain ⟨t, hloop, hback, hhead⟩ := ih (left - s.position.offset) hcounted'
        (by dsimp only; rw [hconcat, List.length_append, List.length_singleton] at hfuel; omega)
        (by dsimp only; omega) (by dsimp only; omega)
      have hlast : (stepBack s.position.offset s).position.before.getLast? = some b := by
        rw [hbefore, hconcat, List.getLast?_concat]
      have hdrop : (stepBack s.position.offset s).position.before.dropLast = earlier := by
        rw [hbefore, hconcat, List.dropLast_concat]
      rw [hlast]
      dsimp only
      rw [hdrop]
      refine ⟨t, hloop, ⟨hback.counted, hback.capacity, hback.forwardCapacity, ?_, ?_⟩, ?_⟩
      · have htrans := (hback.advances.trans hadvances').trans hadvances
        rwa [Nat.add_zero, Nat.sub_add_cancel (by omega)] at htrans
      · have hlength := hback.length
        dsimp only at hlength
        omega
      · rw [hhead, hconcat, List.reverse_append, List.reverse_singleton, List.singleton_append,
          landing, if_neg (by omega)]
        rfl

end Calls

end Chromium.SeekableBuffer
