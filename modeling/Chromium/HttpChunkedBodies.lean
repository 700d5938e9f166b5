import Chromium.HttpChunkedDecoder

/-!
# Well-formed chunked bodies

A body is a sequence of lines and of the data of chunks, followed by bytes that do not belong to
it. `FilterBuf` reads it however it is cut into calls: a carriage return at the end of a call is
left out of the line, so that the decoder holds the line up to carriage returns.
-/
namespace Chromium.HttpChunkedDecoder

/-! ### Carriage returns that are left out -/

/-- Some carriage returns of a line are left out. -/
inductive DropsCr : List Byte → List Byte → Prop
  | nil : DropsCr [] []
  | keep (b : Byte) {xs ys : List Byte} : DropsCr xs ys → DropsCr (b :: xs) (b :: ys)
  | drop {xs ys : List Byte} : DropsCr xs ys → DropsCr (cr :: xs) ys

namespace DropsCr

variable {xs ys xs' ys' : List Byte}

lemma refl : ∀ xs, DropsCr xs xs
  | [] => nil
  | b :: xs => keep b (refl xs)

lemma append (h : DropsCr xs ys) (h' : DropsCr xs' ys') : DropsCr (xs ++ xs') (ys ++ ys') := by
  induction h with
  | nil => exact h'
  | keep b _ ih => exact keep b ih
  | drop _ ih => exact drop ih

lemma length_le (h : DropsCr xs ys) : ys.length ≤ xs.length := by
  induction h with
  | nil => exact le_rfl
  | keep b _ ih => exact Nat.succ_le_succ ih
  | drop _ ih => exact Nat.le_succ_of_le ih

lemma mem (h : DropsCr xs ys) {b : Byte} (hb : b ∈ xs) (hne : b ≠ cr) : b ∈ ys := by
  induction h with
  | nil => exact hb
  | keep c _ ih =>
    cases hb with
    | head => exact List.mem_cons_self
    | tail _ hb => exact List.mem_cons_of_mem _ (ih hb)
  | drop _ ih =>
    cases hb with
    | head => exact absurd rfl hne
    | tail _ hb => exact ih hb

/-- A part without carriage returns stays as it is. -/
lemma of_append (h : DropsCr (xs ++ xs') ys) (hno : cr ∉ xs) :
    ∃ rest, ys = xs ++ rest ∧ DropsCr xs' rest := by
  induction xs generalizing ys with
  | nil => exact ⟨ys, rfl, h⟩
  | cons b xs ih =>
    cases h with
    | keep _ h =>
      obtain ⟨rest, rfl, hrest⟩ := ih h fun hmem => hno (List.mem_cons_of_mem _ hmem)
      exact ⟨rest, rfl, hrest⟩
    | drop h => exact absurd List.mem_cons_self hno

lemma stripCr (line : List Byte) : DropsCr line (stripCr line) := by
  unfold HttpChunkedDecoder.stripCr
  split_ifs with h
  · obtain ⟨init, rfl⟩ := List.getLast?_eq_some_iff.mp h
    have hlast := (refl init).append (drop nil)
    simpa using hlast
  · exact refl line

end DropsCr

/-! ### Lines and data -/

inductive Segment
  | line (content : List Byte)
  | data (bytes : List Byte)

def Segment.bytes : Segment → List Byte
  | line content => content ++ [cr, lf]
  | data bytes => bytes

def Segment.output : Segment → List Byte
  | line _ => []
  | data bytes => bytes

def segmentsBytes (segments : List Segment) : List Byte := segments.flatMap Segment.bytes

def segmentsOutput (segments : List Segment) : List Byte := segments.flatMap Segment.output

/-- The decoder between two segments. -/
structure Decoder.Between (d : Decoder) (remaining : ℕ) (eof : Bool) : Prop where
  remaining_eq : d.chunkRemaining = remaining
  eof_eq : d.reachedEof = eof
  line_eq : d.lineBuf = []
  after_eq : d.bytesAfterEof = 0

/-- The segments take the decoder to the end. A line counts up to carriage returns. -/
inductive Accepts : Decoder → List Segment → Prop
  | eof {d : Decoder} : d.Between 0 true → Accepts d []
  | line {d d' : Decoder} {content : List Byte} {segments : List Segment} : d.Between 0 false →
      lf ∉ content → content.length ≤ kMaxLineBufLen →
      (∀ read, DropsCr content read → endLine d read = some d') →
      Accepts d' segments → Accepts d (.line content :: segments)
  | data {d : Decoder} {bytes : List Byte} {segments : List Segment} : bytes ≠ [] →
      d.Between bytes.length false →
      Accepts { d with chunkRemaining := 0, chunkTerminatorRemaining := true } segments →
      Accepts d (.data bytes :: segments)

/-- The decoder inside a body that `tail` follows: what is still to come, and the output that is
still missing. -/
inductive Reading (tail : List Byte) : Decoder → List Byte → List Byte → Prop
  | line {d : Decoder} {read unread lineBuf : List Byte} {segments : List Segment} :
      Accepts d (.line (read ++ unread) :: segments) → DropsCr read lineBuf →
      Reading tail { d with lineBuf := lineBuf }
        (unread ++ cr :: lf :: (segmentsBytes segments ++ tail)) (segmentsOutput segments)
  | lineFeed {d : Decoder} {content lineBuf : List Byte} {segments : List Segment} :
      Accepts d (.line content :: segments) → DropsCr content lineBuf →
      Reading tail { d with lineBuf := lineBuf }
        (lf :: (segmentsBytes segments ++ tail)) (segmentsOutput segments)
  | data {d : Decoder} {bytes : List Byte} {segments : List Segment} :
      Accepts d (.data bytes :: segments) →
      Reading tail d (bytes ++ (segmentsBytes segments ++ tail)) (bytes ++ segmentsOutput segments)
  | eof {d : Decoder} {passed rest : List Byte} : d.chunkRemaining = 0 → d.reachedEof = true →
      tail = passed ++ rest → d.bytesAfterEof = BitVec.ofNat 32 passed.length →
      Reading tail d rest []

/-- Between two segments. -/
lemma Accepts.reading {d : Decoder} {segments : List Segment} (h : Accepts d segments)
    (tail : List Byte) :
    Reading tail d (segmentsBytes segments ++ tail) (segmentsOutput segments) := by
  cases hsegments : segments with
  | nil =>
    subst hsegments
    cases h with
    | eof hd => exact .eof hd.remaining_eq hd.eof_eq (List.nil_append tail).symm hd.after_eq
  | cons segment segments =>
    subst hsegments
    cases segment with
    | line content =>
      have hline : d.lineBuf = [] := by
        cases h with
        | line hd => exact hd.line_eq
      have hsame : { d with lineBuf := [] } = d := by rw [← hline]
      have hreading := @Reading.line tail d [] content [] segments h .nil
      rw [hsame] at hreading
      simpa [segmentsBytes, segmentsOutput, Segment.bytes, Segment.output] using hreading
    | data bytes =>
      have hreading := @Reading.data tail d bytes segments h
      simpa [segmentsBytes, segmentsOutput, Segment.bytes, Segment.output] using hreading

lemma Accepts.line_inv {d : Decoder} {content : List Byte} {segments : List Segment}
    (h : Accepts d (.line content :: segments)) :
    ∃ d', d.Between 0 false ∧ lf ∉ content ∧ content.length ≤ kMaxLineBufLen ∧
      (∀ read, DropsCr content read → endLine d read = some d') ∧ Accepts d' segments := by
  cases h with
  | line hd hlf hshort hend hnext => exact ⟨_, hd, hlf, hshort, hend, hnext⟩

lemma Accepts.data_inv {d : Decoder} {bytes : List Byte} {segments : List Segment}
    (h : Accepts d (.data bytes :: segments)) :
    bytes ≠ [] ∧ d.Between bytes.length false ∧
      Accepts { d with chunkRemaining := 0, chunkTerminatorRemaining := true } segments := by
  cases h with
  | data hne hd hnext => exact ⟨hne, hd, hnext⟩

lemma Accepts.eof_eq_false {d : Decoder} {segment : Segment} {segments : List Segment}
    (h : Accepts d (segment :: segments)) : d.reachedEof = false := by
  cases h with
  | line hd => exact hd.eof_eq
  | data _ hd => exact hd.eof_eq

/-- The end is reached when no more than the bytes behind the body are to come. -/
lemma Reading.reachedEof_iff {tail rest out : List Byte} {d : Decoder}
    (h : Reading tail d rest out) :
    (d.reachedEof = true ↔ rest.length ≤ tail.length) ∧
      (d.reachedEof = true → out = [] ∧
        d.bytesAfterEof = BitVec.ofNat 32 (tail.length - rest.length)) := by
  have hnot : ∀ {d : Decoder} {rest : List Byte}, d.reachedEof = false →
      tail.length < rest.length → (d.reachedEof = true ↔ rest.length ≤ tail.length) ∧
        (d.reachedEof = true → out = [] ∧
          d.bytesAfterEof = BitVec.ofNat 32 (tail.length - rest.length)) := by
    intro d rest heof hlt
    rw [heof]
    exact ⟨iff_of_false Bool.false_ne_true (by omega), fun h => absurd h Bool.false_ne_true⟩
  cases h with
  | line haccepts =>
    apply hnot haccepts.eof_eq_false
    simp only [List.length_append, List.length_cons]
    omega
  | lineFeed haccepts =>
    apply hnot haccepts.eof_eq_false
    simp only [List.length_append, List.length_cons]
    omega
  | @data _ bytes segments haccepts =>
    apply hnot haccepts.eof_eq_false
    have hpos : 0 < bytes.length := by
      cases haccepts with
      | data hne => exact List.length_pos_iff.mpr hne
    simp only [List.length_append]
    omega
  | eof _ heof htail hafter =>
    have hlength := congrArg List.length htail
    rw [List.length_append] at hlength
    refine ⟨iff_of_true heof (by omega), fun _ => ⟨rfl, ?_⟩⟩
    rw [hafter, hlength, Nat.add_sub_cancel]

/-! ### One round of a call -/

lemma idxOf?_line {x : List Byte} (hx : lf ∉ x) (y : List Byte) :
    (x ++ lf :: y).idxOf? lf = some x.length := by
  rw [List.idxOf?_eq_some_iff]
  refine ⟨by simp, by simp, ?_⟩
  intro j hj heq
  rw [List.getElem_append_left hj] at heq
  exact hx (heq ▸ List.getElem_mem hj)

/-- A line that is complete in the buffer. -/
lemma scanForChunkRemaining_complete {d d' : Decoder} {x : List Byte} (hx : lf ∉ x)
    (y : List Byte) (hline : endLine d (d.lineBuf ++ stripCr x) = some d') :
    scanForChunkRemaining d (x ++ lf :: y) = some (d', x.length + 1) := by
  simp only [scanForChunkRemaining, idxOf?_line hx, List.take_left, hline, Option.bind_eq_bind,
    Option.bind_some]

/-- A part of a line that fits. -/
lemma scanForChunkRemaining_part {d : Decoder} {x : List Byte} (hx : lf ∉ x)
    (hshort : (d.lineBuf ++ stripCr x).length ≤ kMaxLineBufLen) :
    scanForChunkRemaining d x = some ({ d with lineBuf := d.lineBuf ++ stripCr x }, x.length) := by
  simp only [scanForChunkRemaining, List.idxOf?_eq_none_iff.mpr hx, if_neg (not_lt.mpr hshort)]

/-- A round takes `consumed` bytes of the buffer and puts `o` out. -/
structure Round (tail : List Byte) (d : Decoder) (buf more out : List Byte) (d' : Decoder)
    (consumed : ℕ) (o out' : List Byte) : Prop where
  consumed_pos : 0 < consumed
  loop_eq : ∀ fuel acc, filterLoop (fuel + 1) d buf acc =
    filterLoop fuel d' (buf.drop consumed) (acc ++ o)
  out_eq : out = o ++ out'
  reading : Reading tail d' (buf.drop consumed ++ more) out'

lemma Round.of_scan {tail : List Byte} {d : Decoder} {buf more out : List Byte} {d' : Decoder}
    {consumed : ℕ} (hbuf : buf ≠ []) (hr : d.chunkRemaining = 0) (he : d.reachedEof = false)
    (hpos : 0 < consumed) (hscan : scanForChunkRemaining d buf = some (d', consumed))
    (hreading : Reading tail d' (buf.drop consumed ++ more) out) :
    Round tail d buf more out d' consumed [] out where
  consumed_pos := hpos
  loop_eq := by
    intro fuel acc
    rw [filterLoop_scan hbuf hr he, hscan, Option.bind_some, List.append_nil]
  out_eq := rfl
  reading := hreading

lemma stripCr_concat (x : List Byte) : stripCr (x ++ [cr]) = x := by
  rw [stripCr, List.getLast?_concat, if_pos rfl, List.dropLast_concat]

/-- The buffer ends inside the content of a line. -/
lemma Round.line_part {tail : List Byte} {d : Decoder} {read lineBuf buf later : List Byte}
    {segments : List Segment} (haccepts : Accepts d (.line (read ++ (buf ++ later)) :: segments))
    (hdrops : DropsCr read lineBuf) (hbuf : buf ≠ []) :
    ∃ d' consumed o out', Round tail { d with lineBuf := lineBuf } buf
      (later ++ cr :: lf :: (segmentsBytes segments ++ tail)) (segmentsOutput segments) d'
      consumed o out' := by
  have hdrops' := hdrops.append (DropsCr.stripCr buf)
  have hmove := haccepts
  rw [← List.append_assoc] at hmove
  obtain ⟨-, hd, hlf, hshort, -, -⟩ := haccepts.line_inv
  have hbufLf : lf ∉ buf := fun hmem =>
    hlf (List.mem_append_right _ (List.mem_append_left _ hmem))
  have hfits : (lineBuf ++ stripCr buf).length ≤ kMaxLineBufLen := by
    have hle := hdrops'.length_le
    simp only [List.length_append] at hle hshort ⊢
    omega
  have hreading := @Reading.line tail _ _ _ _ _ hmove hdrops'
  refine ⟨_, _, _, _, Round.of_scan hbuf hd.remaining_eq hd.eof_eq (List.length_pos_iff.mpr hbuf)
    (scanForChunkRemaining_part hbufLf hfits) ?_⟩
  rw [List.drop_length, List.nil_append]
  exact hreading

/-- The buffer holds the rest of a line, or ends before the line feed. -/
lemma Round.line {tail : List Byte} {d : Decoder} {read unread lineBuf buf more : List Byte}
    {segments : List Segment} (haccepts : Accepts d (.line (read ++ unread) :: segments))
    (hdrops : DropsCr read lineBuf) (hbuf : buf ≠ [])
    (hrest : unread ++ cr :: lf :: (segmentsBytes segments ++ tail) = buf ++ more) :
    ∃ d' consumed o out', Round tail { d with lineBuf := lineBuf } buf more
      (segmentsOutput segments) d' consumed o out' := by
  cases List.append_eq_append_iff.mp hrest with
  | inr hinside =>
    obtain ⟨later, rfl, rfl⟩ := hinside
    exact Round.line_part haccepts hdrops hbuf
  | inl hbehind =>
    obtain ⟨a, rfl, ha⟩ := hbehind
    cases a with
    | nil =>
      rw [List.append_nil] at hbuf ⊢
      have hpart := @Round.line_part tail _ _ _ _ [] _
        (by rw [List.append_nil]; exact haccepts) hdrops hbuf
      rw [List.nil_append] at hpart ha
      rwa [← ha]
    | cons c a =>
      rw [List.cons_append, List.cons.injEq] at ha
      obtain ⟨rfl, ha⟩ := ha
      have hdrops' := hdrops.append (DropsCr.refl unread)
      obtain ⟨d', hd, hlf, hshort, hend, hnext⟩ := haccepts.line_inv
      have hlf' : lf ∉ unread ++ [cr] := by
        intro hmem
        cases List.mem_append.mp hmem with
        | inl hmem => exact hlf (List.mem_append_right _ hmem)
        | inr hmem => exact absurd (List.mem_singleton.mp hmem) (by decide)
      cases a with
      | nil =>
        -- the carriage return is the last byte of the buffer
        rw [List.nil_append] at ha
        have hfits : (lineBuf ++ stripCr (unread ++ [cr])).length ≤ kMaxLineBufLen := by
          rw [stripCr_concat]
          exact hdrops'.length_le.trans hshort
        have hreading := @Reading.lineFeed tail _ _ _ _ haccepts hdrops'
        refine ⟨_, _, _, _, Round.of_scan hbuf hd.remaining_eq hd.eof_eq
          (List.length_pos_iff.mpr hbuf) (scanForChunkRemaining_part hlf' hfits) ?_⟩
        rw [List.drop_length, List.nil_append, ← ha, stripCr_concat]
        exact hreading
      | cons c a =>
        rw [List.cons_append, List.cons.injEq] at ha
        obtain ⟨rfl, ha⟩ := ha
        have hline : endLine { d with lineBuf := lineBuf } (lineBuf ++ stripCr (unread ++ [cr])) =
            some d' := by
          rw [stripCr_concat, endLine_congr]
          exact hend _ hdrops'
        have hsplit : unread ++ cr :: lf :: a = (unread ++ [cr]) ++ lf :: a := by simp
        have hdrop : (unread ++ cr :: lf :: a).drop ((unread ++ [cr]).length + 1) = a := by
          rw [hsplit, List.drop_length_add_append]
          rfl
        refine ⟨_, _, _, _, Round.of_scan hbuf hd.remaining_eq hd.eof_eq (Nat.succ_pos _)
          (hsplit ▸ scanForChunkRemaining_complete hlf' a hline) ?_⟩
        rw [hdrop, ← ha]
        exact hnext.reading tail

/-- The line feed of a line that is read but for it. -/
lemma Round.lineFeed {tail : List Byte} {d : Decoder} {content lineBuf buf more : List Byte}
    {segments : List Segment} (haccepts : Accepts d (.line content :: segments))
    (hdrops : DropsCr content lineBuf) (hbuf : buf ≠ [])
    (hrest : lf :: (segmentsBytes segments ++ tail) = buf ++ more) :
    ∃ d' consumed o out', Round tail { d with lineBuf := lineBuf } buf more
      (segmentsOutput segments) d' consumed o out' := by
  cases buf with
  | nil => exact absurd rfl hbuf
  | cons c buf =>
    rw [List.cons_append, List.cons.injEq] at hrest
    obtain ⟨rfl, hrest⟩ := hrest
    obtain ⟨d', hd, -, -, hend, hnext⟩ := haccepts.line_inv
    have hline : endLine { d with lineBuf := lineBuf } (lineBuf ++ stripCr []) = some d' := by
      rw [stripCr_nil, List.append_nil, endLine_congr]
      exact hend _ hdrops
    refine ⟨_, _, _, _, Round.of_scan hbuf hd.remaining_eq hd.eof_eq (Nat.succ_pos _)
      (scanForChunkRemaining_complete (x := []) List.not_mem_nil buf hline) ?_⟩
    rw [List.length_nil, List.drop_one, List.tail_cons, ← hrest]
    exact hnext.reading tail

/-- A round in the data of a chunk. -/
lemma Round.data {tail : List Byte} {d : Decoder} {bytes buf more : List Byte}
    {segments : List Segment} (haccepts : Accepts d (.data bytes :: segments)) (hbuf : buf ≠ [])
    (hrest : bytes ++ (segmentsBytes segments ++ tail) = buf ++ more) :
    ∃ d' consumed o out', Round tail d buf more (bytes ++ segmentsOutput segments) d' consumed o
      out' := by
  obtain ⟨hne, hd, hnext⟩ := haccepts.data_inv
  have hr : d.chunkRemaining ≠ 0 := by
    rw [hd.remaining_eq]
    exact (List.length_pos_iff.mpr hne).ne'
  have hbufPos := List.length_pos_iff.mpr hbuf
  have hbytesPos := List.length_pos_iff.mpr hne
  cases List.append_eq_append_iff.mp hrest with
  | inl hbehind =>
    -- the chunk ends in the buffer
    obtain ⟨a, rfl, ha⟩ := hbehind
    have hmin : min d.chunkRemaining (bytes ++ a).length = bytes.length := by
      rw [hd.remaining_eq, List.length_append]
      omega
    have hpassed : d.passed bytes.length =
        { d with chunkRemaining := 0, chunkTerminatorRemaining := true } := by
      simp [Decoder.passed, hd.remaining_eq]
    refine ⟨{ d with chunkRemaining := 0, chunkTerminatorRemaining := true }, bytes.length, bytes,
        segmentsOutput segments, hbytesPos, ?_, rfl, ?_⟩
    · intro fuel acc
      rw [filterLoop_chunk hbuf hr, hmin, List.take_left, hpassed]
    · rw [List.drop_left, ← ha]
      exact hnext.reading tail
  | inr hinside =>
    -- the buffer ends in the chunk
    obtain ⟨later, rfl, rfl⟩ := hinside
    by_cases hlater : later = []
    · subst hlater
      rw [List.append_nil] at *
      have hmin : min d.chunkRemaining buf.length = buf.length := by
        rw [hd.remaining_eq, Nat.min_self]
      have hpassed : d.passed buf.length =
          { d with chunkRemaining := 0, chunkTerminatorRemaining := true } := by
        simp [Decoder.passed, hd.remaining_eq]
      refine ⟨{ d with chunkRemaining := 0, chunkTerminatorRemaining := true }, buf.length, buf,
          segmentsOutput segments, hbufPos, ?_, rfl, ?_⟩
      · intro fuel acc
        rw [filterLoop_chunk hbuf hr, hmin, List.take_length, hpassed]
      · rw [List.drop_length, List.nil_append, List.nil_append]
        exact hnext.reading tail
    · have hlaterPos := List.length_pos_iff.mpr hlater
      have hmin : min d.chunkRemaining buf.length = buf.length := by
        rw [hd.remaining_eq, List.length_append]
        omega
      have hrem : d.chunkRemaining - buf.length = later.length := by
        rw [hd.remaining_eq, List.length_append, Nat.add_sub_cancel_left]
      have haccepts : Accepts (d.passed buf.length) (.data later :: segments) := by
        refine .data hlater ⟨hrem, hd.eof_eq, hd.line_eq, hd.after_eq⟩ ?_
        exact hnext
      refine ⟨d.passed buf.length, buf.length, buf, later ++ segmentsOutput segments, hbufPos,
          ?_, ?_, ?_⟩
      · intro fuel acc
        rw [filterLoop_chunk hbuf hr, hmin, List.take_length]
      · rw [List.append_assoc]
      · rw [List.drop_length, List.nil_append]
        exact .data haccepts

/-- A round behind the end. -/
lemma Round.eof {tail : List Byte} {d : Decoder} {passed buf more : List Byte}
    (hr : d.chunkRemaining = 0) (he : d.reachedEof = true) (hbuf : buf ≠ [])
    (htail : tail = passed ++ (buf ++ more))
    (hafter : d.bytesAfterEof = BitVec.ofNat 32 passed.length) :
    ∃ d' consumed o out', Round tail d buf more [] d' consumed o out' := by
  refine ⟨{ d with bytesAfterEof := d.bytesAfterEof + BitVec.ofNat 32 buf.length }, buf.length, [],
    [], List.length_pos_iff.mpr hbuf, ?_, rfl, ?_⟩
  · intro fuel acc
    rw [filterLoop_eof hbuf hr he, List.drop_length, List.append_nil, filterLoop]
  · rw [List.drop_length, List.nil_append]
    refine @Reading.eof tail _ (passed ++ buf) _ hr he (by rw [htail, List.append_assoc]) ?_
    rw [hafter, List.length_append, BitVec.ofNat_add]

lemma Reading.round {tail out : List Byte} {d : Decoder} {rest buf more : List Byte}
    (h : Reading tail d rest out) (hrest : rest = buf ++ more) (hbuf : buf ≠ []) :
    ∃ d' consumed o out', Round tail d buf more out d' consumed o out' := by
  cases h with
  | line haccepts hdrops => exact Round.line haccepts hdrops hbuf hrest
  | lineFeed haccepts hdrops => exact Round.lineFeed haccepts hdrops hbuf hrest
  | data haccepts => exact Round.data haccepts hbuf hrest
  | eof hr he htail hafter => exact Round.eof hr he hbuf (hrest ▸ htail) hafter

/-- A whole call. -/
lemma Reading.filterLoop {tail out : List Byte} {d : Decoder} (fuel : ℕ) {buf more : List Byte}
    (h : Reading tail d (buf ++ more) out) (hfuel : buf.length ≤ fuel) (acc : List Byte) :
    ∃ d' o out', HttpChunkedDecoder.filterLoop fuel d buf acc = some (d', acc ++ o) ∧
      out = o ++ out' ∧ Reading tail d' more out' := by
  induction fuel generalizing d out buf acc with
  | zero =>
    have hnil : buf = [] := List.length_eq_zero_iff.mp (by omega)
    subst hnil
    exact ⟨d, [], out, by rw [HttpChunkedDecoder.filterLoop, List.append_nil], rfl, h⟩
  | succ fuel ih =>
    by_cases hbuf : buf = []
    · subst hbuf
      exact ⟨d, [], out, by rw [HttpChunkedDecoder.filterLoop, List.append_nil], rfl, h⟩
    · obtain ⟨d', consumed, o, out', hround⟩ := h.round rfl hbuf
      have hpos := hround.consumed_pos
      have hshorter : (buf.drop consumed).length ≤ fuel := by
        rw [List.length_drop]
        omega
      obtain ⟨d'', o', out'', hrun, hout, hreading⟩ := ih hround.reading hshorter (acc ++ o)
      refine ⟨d'', o ++ o', out'', ?_, ?_, hreading⟩
      · rw [hround.loop_eq, hrun, List.append_assoc]
      · rw [hround.out_eq, hout, List.append_assoc]

/-- Successive calls. -/
lemma Reading.filterBufs {tail out : List Byte} {d : Decoder} {bufs : List (List Byte)}
    {more : List Byte} (h : Reading tail d (bufs.flatten ++ more) out) :
    ∃ d' o out', HttpChunkedDecoder.filterBufs d bufs = (o, some d') ∧ out = o ++ out' ∧
      Reading tail d' more out' := by
  induction bufs generalizing d out with
  | nil => exact ⟨d, [], out, rfl, rfl, h⟩
  | cons buf bufs ih =>
    rw [List.flatten_cons, List.append_assoc] at h
    obtain ⟨d', o, out', hrun, hout, hreading⟩ := h.filterLoop buf.length le_rfl []
    obtain ⟨d'', o', out'', hrest, hout', hreading'⟩ := ih hreading
    refine ⟨d'', o ++ o', out'', ?_, ?_, hreading'⟩
    · rw [HttpChunkedDecoder.filterBufs, filterBuf, hrun]
      simp only [List.nil_append, hrest]
    · rw [hout, hout', List.append_assoc]

/-! ### Bodies -/

/-- A chunk extension with its semicolon, or none. -/
structure Extension (ext : List Byte) : Prop where
  semicolon : ext = [] ∨ ext.head? = some semicolon
  no_lf : lf ∉ ext

/-- A chunk with the spelling of its size. -/
structure Chunk where
  size : List Byte
  ext : List Byte
  data : List Byte
  size_eq : parseChunkSize size = some data.length
  ext_ok : Extension ext
  data_ne : data ≠ []
  fits : (size ++ ext).length ≤ kMaxLineBufLen

/-- A line of the trailer is not empty, even without carriage returns. -/
structure Trailer where
  content : List Byte
  no_lf : lf ∉ content
  visible : ∃ b ∈ content, b ≠ cr
  fits : content.length ≤ kMaxLineBufLen

structure Body where
  chunks : List Chunk
  lastSize : List Byte
  lastExt : List Byte
  trailers : List Trailer
  lastSize_eq : parseChunkSize lastSize = some 0
  lastExt_ok : Extension lastExt
  fits : (lastSize ++ lastExt).length ≤ kMaxLineBufLen

def Chunk.bytes (c : Chunk) : List Byte :=
  c.size ++ c.ext ++ [cr, lf] ++ c.data ++ [cr, lf]

def Body.bytes (b : Body) : List Byte :=
  b.chunks.flatMap Chunk.bytes ++ (b.lastSize ++ b.lastExt ++ [cr, lf]) ++
    b.trailers.flatMap (fun t => t.content ++ [cr, lf]) ++ [cr, lf]

/-- The data of all chunks. -/
def Body.data (b : Body) : List Byte := b.chunks.flatMap Chunk.data

def Chunk.segments (c : Chunk) : List Segment := [.line (c.size ++ c.ext), .data c.data, .line []]

def Body.segments (b : Body) : List Segment :=
  b.chunks.flatMap Chunk.segments ++ .line (b.lastSize ++ b.lastExt) ::
    (b.trailers.map (fun t => .line t.content) ++ [.line []])

lemma Body.segmentsBytes_eq (b : Body) : segmentsBytes b.segments = b.bytes := by
  have hchunks : ∀ c : Chunk, segmentsBytes c.segments = c.bytes := by
    intro c
    simp [segmentsBytes, Chunk.segments, Segment.bytes, Chunk.bytes]
  simp only [segmentsBytes] at hchunks
  simp [segmentsBytes, Body.segments, Body.bytes, List.flatMap_assoc, hchunks, List.flatMap_map,
    Segment.bytes]

lemma Body.segmentsOutput_eq (b : Body) : segmentsOutput b.segments = b.data := by
  have hchunks : ∀ c : Chunk, c.segments.flatMap Segment.output = c.data := by
    intro c
    simp [Chunk.segments, Segment.output]
  simp [segmentsOutput, Body.segments, Body.data, List.flatMap_assoc, hchunks, List.flatMap_map,
    Segment.output]

/-! ### The decoder accepts a body -/

lemma hexDigit_isSome {c : Byte} (h : (hexDigit c).isSome = true) :
    c ≠ semicolon ∧ c ≠ cr ∧ c ≠ lf := by
  refine ⟨?_, ?_, ?_⟩
  · rintro rfl
    exact absurd h (by decide)
  · rintro rfl
    exact absurd h (by decide)
  · rintro rfl
    exact absurd h (by decide)

/-- A spelling that is accepted has digits and spaces only, and is not empty. -/
lemma parseChunkSize_chars {size : List Byte} {n : ℕ} (h : parseChunkSize size = some n) :
    size ≠ [] ∧ ∀ c ∈ size, c ≠ semicolon ∧ c ≠ cr ∧ c ≠ lf := by
  have hsplit : size.rdropWhile (· = space) ++ size.rtakeWhile (· = space) = size :=
    List.rdropWhile_append_rtakeWhile
  constructor
  · rintro rfl
    cases h
  rw [parseChunkSize] at h
  split_ifs at h with hdigits
  · intro c hc
    rw [← hsplit] at hc
    cases List.mem_append.mp hc with
    | inl hc => exact hexDigit_isSome (List.all_eq_true.mp hdigits c hc)
    | inr hc =>
      have hspace := List.mem_rtakeWhile_imp hc
      have heq : c = space := by simpa using hspace
      subst heq
      decide

/-- The size is what stands before the extension, also when carriage returns are left out. -/
lemma endLine_size {size ext read : List Byte} {n : ℕ} (hsize : parseChunkSize size = some n)
    (hext : Extension ext) (hread : DropsCr (size ++ ext) read) :
    endLine {} read = some { chunkRemaining := n, reachedLastChunk := decide (n = 0) } := by
  obtain ⟨hne, hchars⟩ := parseChunkSize_chars hsize
  have hcr : cr ∉ size := fun hmem => (hchars cr hmem).2.1 rfl
  obtain ⟨rest, rfl, hrest⟩ := hread.of_append hcr
  have hstart : rest = [] ∨ rest.head? = some semicolon := by
    cases hext.semicolon with
    | inl hnil =>
      subst hnil
      cases hrest
      exact .inl rfl
    | inr hhead =>
      cases ext with
      | nil => cases hhead
      | cons c ext =>
        rw [List.head?_cons, Option.some.injEq] at hhead
        subst hhead
        have hsplit : DropsCr ([semicolon] ++ ext) rest := hrest
        obtain ⟨more, rfl, -⟩ := hsplit.of_append (by decide)
        exact .inr rfl
  have htake : (size ++ rest).takeWhile (· ≠ semicolon) = size := by
    have hall : ∀ c ∈ size, decide (c ≠ semicolon) = true := fun c hc =>
      decide_eq_true (hchars c hc).1
    rw [List.takeWhile_append_of_pos hall]
    cases rest with
    | nil => exact List.append_nil _
    | cons c rest =>
      cases hstart with
      | inl hnil => cases hnil
      | inr hhead =>
        rw [List.head?_cons, Option.some.injEq] at hhead
        subst hhead
        exact List.append_nil _
  have hline : (size ++ rest).isEmpty = false := by
    cases size with
    | nil => exact absurd rfl hne
    | cons c size => rfl
  rw [endLine, if_neg Bool.false_ne_true, if_neg Bool.false_ne_true, hline,
    if_neg Bool.false_ne_true, htake, hsize]
  rfl

lemma lf_not_mem_size {size ext : List Byte} {n : ℕ} (hsize : parseChunkSize size = some n)
    (hext : Extension ext) : lf ∉ size ++ ext := by
  intro hmem
  cases List.mem_append.mp hmem with
  | inl hmem => exact ((parseChunkSize_chars hsize).2 lf hmem).2.2 rfl
  | inr hmem => exact hext.no_lf hmem

/-- An empty line that ends in this decoder. -/
lemma Accepts.empty_line {d d' : Decoder} {segments : List Segment} (hd : d.Between 0 false)
    (hend : endLine d [] = some d') (h : Accepts d' segments) :
    Accepts d (.line [] :: segments) := by
  refine .line hd List.not_mem_nil (Nat.zero_le _) ?_ h
  intro read hread
  cases hread
  exact hend

lemma Accepts.chunk (c : Chunk) {segments : List Segment} (h : Accepts {} segments) :
    Accepts {} (c.segments ++ segments) := by
  have hpos : c.data.length ≠ 0 := (List.length_pos_iff.mpr c.data_ne).ne'
  refine .line ⟨rfl, rfl, rfl, rfl⟩ (lf_not_mem_size c.size_eq c.ext_ok) c.fits
    (fun read hread => endLine_size c.size_eq c.ext_ok hread) ?_
  rw [decide_eq_false hpos]
  refine .data c.data_ne ⟨rfl, rfl, rfl, rfl⟩ ?_
  exact .empty_line ⟨rfl, rfl, rfl, rfl⟩ rfl h

/-- The trailer is passed over up to the empty line. -/
lemma Accepts.trailers (trailers : List Trailer) :
    Accepts { reachedLastChunk := true }
      (trailers.map (fun t => .line t.content) ++ [.line []]) := by
  induction trailers with
  | nil =>
    have hend : Accepts { reachedLastChunk := true, reachedEof := true } [] :=
      .eof ⟨rfl, rfl, rfl, rfl⟩
    exact .empty_line ⟨rfl, rfl, rfl, rfl⟩ rfl hend
  | cons t trailers ih =>
    refine .line ⟨rfl, rfl, rfl, rfl⟩ t.no_lf t.fits ?_ ih
    intro read hread
    obtain ⟨b, hb, hne⟩ := t.visible
    have hread' : read.isEmpty = false :=
      List.isEmpty_eq_false_iff.mpr (List.ne_nil_of_mem (hread.mem hb hne))
    rw [endLine, if_pos rfl, hread']
    rfl

lemma Body.accepts (b : Body) : Accepts {} b.segments := by
  have hlast : Accepts {} (.line (b.lastSize ++ b.lastExt) ::
      (b.trailers.map (fun t => .line t.content) ++ [.line []])) :=
    .line ⟨rfl, rfl, rfl, rfl⟩ (lf_not_mem_size b.lastSize_eq b.lastExt_ok) b.fits
      (fun read hread => endLine_size b.lastSize_eq b.lastExt_ok hread)
      (Accepts.trailers b.trailers)
  rw [Body.segments]
  induction b.chunks with
  | nil => exact hlast
  | cons c chunks ih =>
    rw [List.flatMap_cons, List.append_assoc]
    exact Accepts.chunk c ih

/-- The calls up to any point of a body with bytes behind it. -/
lemma Body.filterBufs_spec (b : Body) (tail more : List Byte) (bufs : List (List Byte))
    (hbufs : bufs.flatten ++ more = b.bytes ++ tail) :
    ∃ d out missing, filterBufs {} bufs = (out, some d) ∧ b.data = out ++ missing ∧
      (d.reachedEof = true ↔ b.bytes.length ≤ bufs.flatten.length) ∧
      (d.reachedEof = true → missing = [] ∧
        d.bytesAfterEof = BitVec.ofNat 32 (bufs.flatten.length - b.bytes.length)) := by
  have hstart := b.accepts.reading tail
  rw [b.segmentsBytes_eq, b.segmentsOutput_eq, ← hbufs] at hstart
  obtain ⟨d, out, missing, hrun, hdata, hreading⟩ := hstart.filterBufs
  obtain ⟨heof, hafter⟩ := hreading.reachedEof_iff
  have hlength := congrArg List.length hbufs
  rw [List.length_append, List.length_append] at hlength
  have hle : more.length ≤ tail.length ↔ b.bytes.length ≤ bufs.flatten.length := by omega
  refine ⟨d, out, missing, hrun, hdata, heof.trans hle, ?_⟩
  intro hd
  have hcount : tail.length - more.length = bufs.flatten.length - b.bytes.length := by
    have hmore := heof.mp hd
    omega
  rw [← hcount]
  exact hafter hd

/-- A body with bytes behind it, up to any point and cut into calls in any way: the output is what
the chunks up to there hold, the end is reached when the last byte of the body is consumed, and
then the bytes behind it are counted in an `int`. -/
theorem filterBufs_body (b : Body) (tail more : List Byte) (bufs : List (List Byte))
    (hbufs : bufs.flatten ++ more = b.bytes ++ tail) :
    ∃ d out missing, filterBufs {} bufs = (out, some d) ∧ b.data = out ++ missing ∧
      (d.reachedEof = true ↔ b.bytes.length ≤ bufs.flatten.length) ∧
      (d.reachedEof = true → missing = [] ∧
        d.bytesAfterEof = BitVec.ofNat 32 (bufs.flatten.length - b.bytes.length) ∧
        (bufs.flatten.length - b.bytes.length < 2 ^ 31 →
          d.bytesAfterEof.toInt = (bufs.flatten.length - b.bytes.length : ℕ))) := by
  obtain ⟨d, out, missing, hrun, hdata, heof, hafter⟩ := b.filterBufs_spec tail more bufs hbufs
  refine ⟨d, out, missing, hrun, hdata, heof, ?_⟩
  intro hd
  obtain ⟨hmissing, hcount⟩ := hafter hd
  refine ⟨hmissing, hcount, ?_⟩
  intro hlt
  have hnat : (BitVec.ofNat 32 (bufs.flatten.length - b.bytes.length)).toNat =
      bufs.flatten.length - b.bytes.length := by
    rw [BitVec.toNat_ofNat]
    omega
  rw [hcount, BitVec.toInt_eq_toNat_of_lt (by omega), hnat]

/-- One chunk with an extension and a trailer that is a header. -/
def exampleBody : Body where
  chunks := [{
    size := [50, 32]
    ext := [59, 120]
    data := [104, 105]
    size_eq := by decide
    ext_ok := ⟨.inr rfl, by decide⟩
    data_ne := by decide
    fits := by decide }]
  lastSize := [48]
  lastExt := []
  trailers := [{ content := [65, 58], no_lf := by decide, visible := by decide, fits := by decide }]
  lastSize_eq := by decide
  lastExt_ok := ⟨.inl rfl, by decide⟩
  fits := by decide

/-- Cut between a carriage return and its line feed, with one byte behind the body. -/
theorem filterBufs_body_once :
    ∃ d out missing, filterBufs {} [exampleBody.bytes.take 5, exampleBody.bytes.drop 5 ++ [66]] =
        (out, some d) ∧ exampleBody.data = out ++ missing ∧
      (d.reachedEof = true ↔ exampleBody.bytes.length ≤
        [exampleBody.bytes.take 5, exampleBody.bytes.drop 5 ++ [66]].flatten.length) ∧
      (d.reachedEof = true → missing = [] ∧
        d.bytesAfterEof = BitVec.ofNat 32
          ([exampleBody.bytes.take 5, exampleBody.bytes.drop 5 ++ [66]].flatten.length -
            exampleBody.bytes.length) ∧
        ([exampleBody.bytes.take 5, exampleBody.bytes.drop 5 ++ [66]].flatten.length -
            exampleBody.bytes.length < 2 ^ 31 →
          d.bytesAfterEof.toInt =
            ([exampleBody.bytes.take 5, exampleBody.bytes.drop 5 ++ [66]].flatten.length -
              exampleBody.bytes.length : ℕ))) :=
  filterBufs_body exampleBody [66] [] _ (by simp [← List.append_assoc])

/-- The count of an `int` wraps around: a body and 2^31 bytes behind it, in two calls. -/
theorem filterBufs_body_overflow :
    ∃ d out, filterBufs {} [exampleBody.bytes, List.replicate (2 ^ 31 - 1) 66, [66]] =
        (out, some d) ∧ d.reachedEof = true ∧ d.bytesAfterEof.toInt = -2 ^ 31 ∧
      [exampleBody.bytes, List.replicate (2 ^ 31 - 1) 66, [66]].flatten =
        exampleBody.bytes ++ List.replicate (2 ^ 31) 66 := by
  have hbytes : [exampleBody.bytes, List.replicate (2 ^ 31 - 1) (66 : Byte), [66]].flatten =
      exampleBody.bytes ++ List.replicate (2 ^ 31) 66 := by
    have hlast : List.replicate (2 ^ 31 - 1) (66 : Byte) ++ [66] = List.replicate (2 ^ 31) 66 := by
      have hone : ([66] : List Byte) = List.replicate 1 66 := rfl
      rw [hone, ← List.replicate_add, Nat.sub_add_cancel (by norm_num)]
    rw [List.flatten_cons, List.flatten_cons, List.flatten_singleton, hlast]
  obtain ⟨d, out, missing, hrun, -, heof, hafter⟩ :=
    exampleBody.filterBufs_spec _ [] _ ((List.append_nil _).trans hbytes)
  have hlength := congrArg List.length hbytes
  rw [List.length_append, List.length_replicate] at hlength
  have hd : d.reachedEof = true := heof.mpr (by omega)
  refine ⟨d, out, hrun, hd, ?_, hbytes⟩
  rw [(hafter hd).2, hlength, Nat.add_sub_cancel_left]
  rfl

end Chromium.HttpChunkedDecoder
