import Mathlib.Data.List.Basic
import Mathlib.Data.List.DropRight
import Mathlib.Data.List.TakeDrop
import Mathlib.Tactic

/-!
# The decoder of chunked HTTP bodies

`net/http/http_chunked_decoder.cc`. `FilterBuf` is called with the bytes of a
response as they arrive and keeps the state of the decoding between the calls: how
much of the current chunk is missing, and the part of a line that has been read.

The reference is the decoder that reads byte by byte and keeps the partial line as
it came in. It cannot depend on how the bytes are cut into calls. `FilterBuf` agrees
with it as long as no call ends in a line that is too long to be kept, or between a
carriage return and a byte other than a line feed.
-/
namespace Chromium.HttpChunkedDecoder

abbrev Byte := UInt8

def cr : Byte := 13
def lf : Byte := 10
def semicolon : Byte := 59
def space : Byte := 32

def kMaxLineBufLen : ℕ := 16384

/-- The members of `HttpChunkedDecoder`. `bytes_after_eof_` is an `int`. -/
structure Decoder where
  chunkRemaining : ℕ := 0
  lineBuf : List Byte := []
  chunkTerminatorRemaining : Bool := false
  reachedLastChunk : Bool := false
  reachedEof : Bool := false
  bytesAfterEof : BitVec 32 := 0
  deriving DecidableEq, Repr

/-- The value of a hexadecimal digit. -/
def hexDigit (c : Byte) : Option ℕ :=
  if 48 ≤ c ∧ c ≤ 57 then some (c.toNat - 48)
  else if 97 ≤ c ∧ c ≤ 102 then some (c.toNat - 87)
  else if 65 ≤ c ∧ c ≤ 70 then some (c.toNat - 55)
  else none

/-- `HexStringToInt` on a string of hexadecimal digits: there is a digit, and the
number is an `int`. -/
def hexStringToInt (digits : List Byte) : Option ℕ :=
  if digits = [] then none
  else digits.foldlM (fun n c => do
    let n := n * 16 + (← hexDigit c)
    if n < 2 ^ 31 then some n else none) 0

/-- `ParseChunkSize`. -/
def parseChunkSize (line : List Byte) : Option ℕ :=
  let digits := line.rdropWhile (· = space)
  if digits.all fun c => (hexDigit c).isSome then hexStringToInt digits else none

/-- Eliminates a carriage return at the end. -/
def stripCr (line : List Byte) : List Byte :=
  if line.getLast? = some cr then line.dropLast else line

/-- What a complete line means to the decoder. -/
def endLine (d : Decoder) (line : List Byte) : Option Decoder :=
  if d.reachedLastChunk then
    some { d with reachedEof := d.reachedEof || line.isEmpty, lineBuf := [] }
  else if d.chunkTerminatorRemaining then
    if line.isEmpty then some { d with chunkTerminatorRemaining := false, lineBuf := [] } else none
  else if line.isEmpty then none
  else do
    let n ← parseChunkSize (line.takeWhile (· ≠ semicolon))
    some { d with
      chunkRemaining := n, reachedLastChunk := d.reachedLastChunk || n = 0, lineBuf := [] }

/-- `ScanForChunkRemaining`: the decoder and the number of bytes consumed, or an
error. -/
def scanForChunkRemaining (d : Decoder) (buf : List Byte) : Option (Decoder × ℕ) :=
  match buf.idxOf? lf with
  | some i => do
    let d ← endLine d (d.lineBuf ++ stripCr (buf.take i))
    some (d, i + 1)
  | none =>
    let line := d.lineBuf ++ stripCr buf
    if line.length > kMaxLineBufLen then none else some ({ d with lineBuf := line }, buf.length)

/-- The loop of `FilterBuf`: the bytes still to be looked at, and the decoded bytes
that were moved to the front of the buffer. Each round consumes a byte. -/
def filterLoop : ℕ → Decoder → List Byte → List Byte → Option (Decoder × List Byte)
  | _, d, [], out => some (d, out)
  | 0, _, _ :: _, _ => none
  | fuel + 1, d, buf@(_ :: _), out =>
    if d.chunkRemaining ≠ 0 then
      let num := min d.chunkRemaining buf.length
      let left := d.chunkRemaining - num
      filterLoop fuel { d with
          chunkRemaining := left
          chunkTerminatorRemaining := left = 0 || d.chunkTerminatorRemaining }
        (buf.drop num) (out ++ buf.take num)
    else if d.reachedEof then
      some ({ d with bytesAfterEof := d.bytesAfterEof + BitVec.ofNat 32 buf.length }, out)
    else do
      let (d, consumed) ← scanForChunkRemaining d buf
      filterLoop fuel d (buf.drop consumed) out

/-- `FilterBuf`: the decoded bytes, or an error. -/
def filterBuf (d : Decoder) (buf : List Byte) : Option (Decoder × List Byte) :=
  filterLoop buf.length d buf []

/-- Successive calls up to the first error: what they decoded, and the decoder after
the last one. -/
def filterBufs (d : Decoder) : List (List Byte) → List Byte × Option Decoder
  | [] => ([], some d)
  | buf :: bufs =>
    match filterBuf d buf with
    | none => ([], none)
    | some (d, out) =>
      let (outs, last) := filterBufs d bufs
      (out ++ outs, last)

/-! ### The reference -/

/-- Decodes one byte. -/
def feedByte (d : Decoder) (b : Byte) : Option (Decoder × List Byte) :=
  if d.chunkRemaining ≠ 0 then
    some ({ d with
      chunkRemaining := d.chunkRemaining - 1
      chunkTerminatorRemaining := d.chunkRemaining = 1 || d.chunkTerminatorRemaining }, [b])
  else if d.reachedEof then some ({ d with bytesAfterEof := d.bytesAfterEof + 1 }, [])
  else if b = lf then (endLine d (stripCr d.lineBuf)).map (·, [])
  else some ({ d with lineBuf := d.lineBuf ++ [b] }, [])

/-- Decodes bytes one after the other. -/
def feed (d : Decoder) : List Byte → Option (Decoder × List Byte)
  | [] => some (d, [])
  | b :: bs => do
    let (d, out) ← feedByte d b
    let (d, outs) ← feed d bs
    some (d, out ++ outs)

/-- No call ends in a line of which more than `kMaxLineBufLen` bytes would have to be
kept, and none ends after a carriage return in a line unless a line feed, or nothing,
comes next. Nothing is asked of the calls from an error on. -/
def SplitsCleanly (d : Decoder) : List (List Byte) → Prop
  | [] => True
  | buf :: bufs => ∀ p ∈ feed d buf,
      (stripCr p.1.lineBuf).length ≤ kMaxLineBufLen ∧
        (p.1.lineBuf.getLast? = some cr → ∀ b ∈ bufs.flatten.head?, b = lf) ∧
        SplitsCleanly p.1 bufs

instance SplitsCleanly.decidable : ∀ (d : Decoder) (bufs : List (List Byte)),
    Decidable (SplitsCleanly d bufs)
  | _, [] => inferInstanceAs (Decidable True)
  | d, buf :: bufs =>
    have : ∀ p : Decoder × List Byte, Decidable (SplitsCleanly p.1 bufs) :=
      fun p => SplitsCleanly.decidable p.1 bufs
    inferInstanceAs (Decidable (∀ p ∈ feed d buf,
      (stripCr p.1.lineBuf).length ≤ kMaxLineBufLen ∧
        (p.1.lineBuf.getLast? = some cr → ∀ b ∈ bufs.flatten.head?, b = lf) ∧
        SplitsCleanly p.1 bufs))

/-- What can be seen of successive calls: what they decoded, whether they failed, and
what the decoder reports of the end. -/
def observed (r : List Byte × Option Decoder) : List Byte × Option (Bool × BitVec 32) :=
  (r.1, r.2.map fun d => (d.reachedEof, d.bytesAfterEof))

/-- The outcome of successive calls. The call that fails reports none of the bytes it
decoded before the error, so that an error has no output. -/
def outcome (r : List Byte × Option Decoder) : Option (List Byte × Bool × BitVec 32) :=
  r.2.map fun d => (r.1, d.reachedEof, d.bytesAfterEof)

section Lines
variable {d : Decoder} {x y : List Byte}

lemma stripCr_append (hy : y ≠ []) : stripCr (x ++ y) = x ++ stripCr y := by
  simp only [stripCr, List.getLast?_append_of_ne_nil _ hy, List.dropLast_append_of_ne_nil hy]
  split <;> rfl

lemma stripCr_of_ne (h : x.getLast? ≠ some cr) : stripCr x = x := if_neg h

@[simp]
lemma stripCr_nil : stripCr [] = [] := rfl

lemma feed_append (d : Decoder) (x y : List Byte) :
    feed d (x ++ y) = (feed d x).bind fun p => (feed p.1 y).map fun q => (q.1, p.2 ++ q.2) := by
  induction x generalizing d with
  | nil =>
    simp only [List.nil_append, feed, Option.bind_some, List.nil_append]
    cases feed d y <;> rfl
  | cons b bs ih =>
    simp only [List.cons_append, feed, Option.bind_eq_bind]
    cases feedByte d b with
    | none => rfl
    | some p =>
      simp only [Option.bind_some, ih]
      cases feed p.1 bs with
      | none => rfl
      | some q =>
        simp only [Option.bind_some]
        cases feed q.1 y with
        | none => rfl
        | some r => simp only [Option.map_some, Option.bind_some, List.append_assoc]

/-- The decoder after `n` bytes of a chunk. -/
def Decoder.passed (d : Decoder) (n : ℕ) : Decoder :=
  { d with
    chunkRemaining := d.chunkRemaining - n
    chunkTerminatorRemaining := d.chunkRemaining - n = 0 || d.chunkTerminatorRemaining }

/-- Bytes of a chunk are handed on. -/
lemma feed_chunk (h : x.length ≤ d.chunkRemaining) (hx : x ≠ []) :
    feed d x = some (d.passed x.length, x) := by
  induction x generalizing d with
  | nil => exact absurd rfl hx
  | cons b bs ih =>
    rw [List.length_cons] at h
    have hne : d.chunkRemaining ≠ 0 := by omega
    simp only [feed, feedByte, if_pos hne, Option.bind_eq_bind, Option.bind_some]
    cases bs with
    | nil =>
      have hone : (d.chunkRemaining = 1) = (d.chunkRemaining - 1 = 0) := by
        rw [eq_iff_iff]
        omega
      simp only [feed, Option.bind_some, List.append_nil, List.length_singleton, hone,
        Decoder.passed]
    | cons b' bs' =>
      have hone : ¬ d.chunkRemaining = 1 := by
        rw [List.length_cons] at h
        omega
      rw [ih (show (b' :: bs').length ≤ d.chunkRemaining - 1 by omega) (by simp)]
      simp only [Option.bind_some, List.singleton_append, hone, decide_false, Bool.false_or,
        List.length_cons, Decoder.passed, Nat.sub_sub, Nat.add_comm 1]

/-- What is there of a chunk comes first. -/
lemma feed_eq_of_chunk (hx : x ≠ []) (hr : d.chunkRemaining ≠ 0) :
    feed d x = (feed (d.passed (min d.chunkRemaining x.length))
      (x.drop (min d.chunkRemaining x.length))).map
        fun q => (q.1, x.take (min d.chunkRemaining x.length) ++ q.2) := by
  have hpos : 0 < x.length := List.length_pos_iff.mpr hx
  have hlen : (x.take (min d.chunkRemaining x.length)).length = min d.chunkRemaining x.length := by
    rw [List.length_take]
    omega
  have hchunk := feed_chunk (d := d) (x := x.take (min d.chunkRemaining x.length))
    (by rw [hlen]; omega) (by rw [← List.length_pos_iff, hlen]; omega)
  rw [hlen] at hchunk
  conv_lhs => rw [← List.take_append_drop (min d.chunkRemaining x.length) x, feed_append, hchunk,
    Option.bind_some]

/-- Bytes after the end are counted. -/
lemma feed_eof (hd : d.chunkRemaining = 0) (he : d.reachedEof = true) (x : List Byte) :
    feed d x =
      some ({ d with bytesAfterEof := d.bytesAfterEof + BitVec.ofNat 32 x.length }, []) := by
  induction x generalizing d with
  | nil => simp [feed]
  | cons b bs ih =>
    have hbyte : feedByte d b = some ({ d with bytesAfterEof := d.bytesAfterEof + 1 }, []) := by
      rw [feedByte, if_neg (not_not_intro hd), if_pos he]
    have hcount : d.bytesAfterEof + 1 + BitVec.ofNat 32 bs.length =
        d.bytesAfterEof + BitVec.ofNat 32 (bs.length + 1) := by
      rw [BitVec.ofNat_add, BitVec.add_assoc, BitVec.add_comm (1 : BitVec 32)]
      rfl
    simp only [feed, hbyte, Option.bind_eq_bind, Option.bind_some]
    rw [ih (d := { d with bytesAfterEof := d.bytesAfterEof + 1 }) hd he]
    simp only [Option.bind_some, List.nil_append, List.length_cons, hcount]

/-- Bytes of a line are kept until the line feed. -/
lemma feed_line (hd : d.chunkRemaining = 0) (he : d.reachedEof = false) (hx : lf ∉ x) :
    feed d x = some ({ d with lineBuf := d.lineBuf ++ x }, []) := by
  induction x generalizing d with
  | nil => simp [feed]
  | cons b bs ih =>
    have hb : b ≠ lf := fun h => hx (h ▸ List.mem_cons_self)
    have hbyte : feedByte d b = some ({ d with lineBuf := d.lineBuf ++ [b] }, []) := by
      rw [feedByte, if_neg (not_not_intro hd), if_neg (by simp [he]), if_neg hb]
    simp only [feed, hbyte, Option.bind_eq_bind, Option.bind_some]
    rw [ih (d := { d with lineBuf := d.lineBuf ++ [b] }) hd he
      fun h => hx (List.mem_cons_of_mem b h)]
    simp only [Option.bind_some, List.nil_append, List.append_assoc, List.singleton_append]

/-- The first line feed cuts the bytes into a line and the rest. -/
lemma exists_line {i : ℕ} (h : x.idxOf? lf = some i) :
    lf ∉ x.take i ∧ x = x.take i ++ lf :: x.drop (i + 1) := by
  obtain ⟨hi, heq, hbefore⟩ := List.idxOf?_eq_some_iff.mp h
  constructor
  · intro hmem
    obtain ⟨j, hj, hget⟩ := List.mem_iff_getElem.mp hmem
    rw [List.length_take] at hj
    rw [List.getElem_take] at hget
    exact hbefore j (by omega) hget
  · have hdrop : x.drop i = x[i] :: x.drop (i + 1) := List.drop_eq_getElem_cons hi
    rw [heq] at hdrop
    rw [← hdrop, List.take_append_drop]

/-- A complete line comes first. -/
lemma feed_eq_of_line (hd : d.chunkRemaining = 0) (he : d.reachedEof = false) {i : ℕ}
    (h : x.idxOf? lf = some i) :
    feed d x = (endLine d (stripCr (d.lineBuf ++ x.take i))).bind fun d' =>
      feed d' (x.drop (i + 1)) := by
  obtain ⟨hnot, hsplit⟩ := exists_line h
  have hbyte : feedByte { d with lineBuf := d.lineBuf ++ x.take i } lf =
      (endLine d (stripCr (d.lineBuf ++ x.take i))).map (·, []) := by
    rw [feedByte, if_neg (not_not_intro hd), if_neg (by simp [he]), if_pos rfl]
    rfl
  conv_lhs => rw [hsplit, feed_append, feed_line hd he hnot, Option.bind_some]
  rw [feed, hbyte]
  cases endLine d (stripCr (d.lineBuf ++ x.take i)) with
  | none => rfl
  | some d' =>
    simp only [Option.map_some, Option.bind_eq_bind, Option.bind_some, List.nil_append]
    cases feed d' (x.drop (i + 1)) <;> rfl

end Lines

/-! ### The calls and the reference -/

section Calls
variable {d : Decoder} {buf out : List Byte}

/-- What is kept of a decoder at the end of a call: a carriage return at the end of
the partial line is dropped. -/
def Decoder.kept (d : Decoder) : Decoder := { d with lineBuf := stripCr d.lineBuf }

/-- Inside a chunk and after the end there is no partial line. -/
def Decoder.LineOnly (d : Decoder) : Prop :=
  d.chunkRemaining ≠ 0 ∨ d.reachedEof = true → d.lineBuf = []

lemma endLine_lineBuf {d' : Decoder} {line : List Byte} (h : endLine d line = some d') :
    d'.lineBuf = [] := by
  unfold endLine at h
  split_ifs at h
  · cases h
    rfl
  · cases h
    rfl
  · obtain ⟨n, -, h⟩ := Option.bind_eq_some_iff.mp h
    cases h
    rfl

lemma endLine_congr (d : Decoder) (buf line : List Byte) :
    endLine { d with lineBuf := buf } line = endLine d line := rfl

lemma Decoder.LineOnly.feedByte {d' : Decoder} {b : Byte} (hd : d.LineOnly)
    (h : HttpChunkedDecoder.feedByte d b = some (d', out)) : d'.LineOnly := by
  unfold HttpChunkedDecoder.feedByte at h
  split_ifs at h with hr he hb
  · cases h
    exact fun _ => hd (.inl hr)
  · cases h
    exact fun _ => hd (.inr he)
  · obtain ⟨d'', hline, heq⟩ := Option.map_eq_some_iff.mp h
    cases heq
    exact fun _ => endLine_lineBuf hline
  · cases h
    exact fun hin => absurd hin (by simp_all)

lemma Decoder.LineOnly.feed {d' : Decoder} (hd : d.LineOnly)
    (h : HttpChunkedDecoder.feed d buf = some (d', out)) : d'.LineOnly := by
  induction buf generalizing d out with
  | nil =>
    cases h
    exact hd
  | cons b bs ih =>
    obtain ⟨p, hp, h⟩ := Option.bind_eq_some_iff.mp h
    obtain ⟨q, hq, h⟩ := Option.bind_eq_some_iff.mp h
    cases h
    exact ih (hd.feedByte hp) hq

/-- One line of a call: the partial line before it and the new part are stripped of
a carriage return separately. -/
lemma stripCr_kept {line x : List Byte} (rest : List Byte)
    (hcr : line.getLast? = some cr → ∀ b ∈ (x ++ lf :: rest).head?, b = lf) (hx : lf ∉ x) :
    stripCr line ++ stripCr x = stripCr (line ++ x) := by
  cases x with
  | nil => rw [stripCr_nil, List.append_nil, List.append_nil]
  | cons b bs =>
    have hb : b ≠ lf := fun h => hx (h ▸ List.mem_cons_self)
    have hline : line.getLast? ≠ some cr := fun h => hb (hcr h b (by simp))
    rw [stripCr_of_ne hline, stripCr_append (List.cons_ne_nil b bs)]

/-- One round of a call inside a chunk. -/
lemma filterLoop_chunk {fuel : ℕ} (hbuf : buf ≠ []) (hr : d.chunkRemaining ≠ 0) :
    filterLoop (fuel + 1) d buf out =
      filterLoop fuel (d.passed (min d.chunkRemaining buf.length))
        (buf.drop (min d.chunkRemaining buf.length))
        (out ++ buf.take (min d.chunkRemaining buf.length)) := by
  cases buf with
  | nil => exact absurd rfl hbuf
  | cons b bs =>
    rw [filterLoop, if_pos hr]
    rfl

/-- One round of a call after the end. -/
lemma filterLoop_eof {fuel : ℕ} (hbuf : buf ≠ []) (hr : d.chunkRemaining = 0)
    (he : d.reachedEof = true) :
    filterLoop (fuel + 1) d buf out =
      some ({ d with bytesAfterEof := d.bytesAfterEof + BitVec.ofNat 32 buf.length }, out) := by
  cases buf with
  | nil => exact absurd rfl hbuf
  | cons b bs => rw [filterLoop, if_neg (not_not_intro hr), if_pos he]

/-- One round of a call in a line. -/
lemma filterLoop_scan {fuel : ℕ} (hbuf : buf ≠ []) (hr : d.chunkRemaining = 0)
    (he : d.reachedEof = false) :
    filterLoop (fuel + 1) d buf out = (scanForChunkRemaining d buf).bind fun p =>
      filterLoop fuel p.1 (buf.drop p.2) out := by
  cases buf with
  | nil => exact absurd rfl hbuf
  | cons b bs =>
    rw [filterLoop, if_neg (not_not_intro hr), if_neg (by simp [he])]
    rfl

lemma scanForChunkRemaining_line {i : ℕ} (hidx : buf.idxOf? lf = some i)
    (hcr : d.lineBuf.getLast? = some cr → ∀ b ∈ buf.head?, b = lf) :
    scanForChunkRemaining d.kept buf =
      (endLine d (stripCr (d.lineBuf ++ buf.take i))).map (·, i + 1) := by
  obtain ⟨hnot, hsplit⟩ := exists_line hidx
  have hline := stripCr_kept _ (fun h b hb => hcr h b (hsplit ▸ hb)) hnot
  simp only [scanForChunkRemaining, hidx, Decoder.kept, hline, endLine_congr]
  cases endLine d (stripCr (d.lineBuf ++ buf.take i)) <;> rfl

lemma scanForChunkRemaining_incomplete (hbuf : buf ≠ []) (hnot : lf ∉ buf)
    (hcr : d.lineBuf.getLast? = some cr → ∀ b ∈ buf.head?, b = lf)
    (hshort : (stripCr (d.lineBuf ++ buf)).length ≤ kMaxLineBufLen) :
    scanForChunkRemaining d.kept buf =
      some ({ d with lineBuf := d.lineBuf ++ buf }.kept, buf.length) := by
  have hline : stripCr d.lineBuf ++ stripCr buf = stripCr (d.lineBuf ++ buf) :=
    stripCr_kept [] (fun h b hb => by
      rw [List.head?_append_of_ne_nil _ hbuf] at hb
      exact hcr h b hb) hnot
  simp only [scanForChunkRemaining, List.idxOf?_eq_none_iff.mpr hnot, Decoder.kept, hline,
    if_neg (not_lt.mpr hshort)]

/-- A call that ends cleanly does what the reference does. -/
theorem filterLoop_eq {fuel : ℕ} (hfuel : buf.length ≤ fuel) (hd : d.LineOnly)
    (hcr : d.lineBuf.getLast? = some cr → ∀ b ∈ buf.head?, b = lf)
    (hlen : ∀ d' o, feed d buf = some (d', o) → (stripCr d'.lineBuf).length ≤ kMaxLineBufLen) :
    filterLoop fuel d.kept buf out = (feed d buf).map fun p => (p.1.kept, out ++ p.2) := by
  induction fuel generalizing d buf out with
  | zero =>
    rw [List.length_eq_zero_iff.mp (Nat.le_zero.mp hfuel)]
    simp [filterLoop, feed]
  | succ fuel ih =>
    by_cases hbuf : buf = []
    · subst hbuf
      simp [filterLoop, feed]
    have hpos : 0 < buf.length := List.length_pos_iff.mpr hbuf
    -- with no partial line the rest of the buffer is another call
    have hrest : ∀ {e : Decoder} {n : ℕ} {out' o : List Byte}, 0 < n → e.lineBuf = [] →
        (∀ d' o', feed e (buf.drop n) = some (d', o') → feed d buf = some (d', o ++ o')) →
        filterLoop fuel e.kept (buf.drop n) out' =
          (feed e (buf.drop n)).map fun p => (p.1.kept, out' ++ p.2) := by
      intro e n out' o hn hempty hfeed
      refine ih ?_ (fun _ => hempty) ?_ ?_
      · rw [List.length_drop]
        omega
      · intro h
        rw [hempty] at h
        cases h
      · intro d' o' h
        exact hlen d' _ (hfeed d' o' h)
    by_cases hr : d.chunkRemaining = 0
    swap
    · have hfeed := feed_eq_of_chunk hbuf hr
      rw [filterLoop_chunk (d := d.kept) hbuf hr, hfeed, Option.map_map]
      refine (hrest (e := d.passed (min d.chunkRemaining buf.length))
        (n := min d.chunkRemaining buf.length) (o := buf.take (min d.chunkRemaining buf.length))
        (by omega) (hd (.inl hr)) ?_).trans ?_
      · intro d' o' h
        rw [hfeed, h, Option.map_some]
      · simp only [Function.comp_def, List.append_assoc]
        rfl
    cases he : d.reachedEof with
    | true =>
      rw [feed_eof hr he, Option.map_some, List.append_nil,
        filterLoop_eof (d := d.kept) hbuf hr he]
      rfl
    | false =>
      rw [filterLoop_scan (d := d.kept) hbuf hr he]
      cases hidx : buf.idxOf? lf with
      | none =>
        -- the line goes on in the next call
        have hnot : lf ∉ buf := List.idxOf?_eq_none_iff.mp hidx
        have hfeed := feed_line hr he hnot
        rw [scanForChunkRemaining_incomplete hbuf hnot hcr (hlen _ _ hfeed), hfeed,
          Option.bind_some,
          Option.map_some, List.append_nil, List.drop_length]
        cases fuel <;> rfl
      | some i =>
        have hfeed := feed_eq_of_line hr he hidx
        rw [scanForChunkRemaining_line hidx hcr, hfeed]
        cases hend : endLine d (stripCr (d.lineBuf ++ buf.take i)) with
        | none => rfl
        | some e =>
          have hempty := endLine_lineBuf hend
          have hkept : e.kept = e := by rw [Decoder.kept, hempty, stripCr_nil, ← hempty]
          rw [Option.map_some, Option.bind_some, Option.bind_some]
          conv_lhs => rw [← hkept]
          refine hrest (o := []) (Nat.succ_pos i) hempty ?_
          intro d' o' h
          rw [hfeed, hend, Option.bind_some, h, List.nil_append]

/-- Successive calls do what the reference does, up to an error. -/
theorem outcome_filterBufs {bufs : List (List Byte)} (hd : d.LineOnly)
    (hcr : d.lineBuf.getLast? = some cr → ∀ b ∈ bufs.flatten.head?, b = lf)
    (h : SplitsCleanly d bufs) :
    outcome (filterBufs d.kept bufs) =
      (feed d bufs.flatten).map fun p => (p.2, p.1.reachedEof, p.1.bytesAfterEof) := by
  induction bufs generalizing d with
  | nil => rfl
  | cons buf bufs ih =>
    have hcall : filterBuf d.kept buf = (feed d buf).map fun p => (p.1.kept, p.2) := by
      refine (filterLoop_eq le_rfl hd (fun hlast b hb => ?_) fun d' o hfeed => ?_).trans ?_
      · refine hcr hlast b ?_
        rw [List.flatten_cons, List.head?_append_of_ne_nil _ (by rintro rfl; cases hb)]
        exact hb
      · exact (h (d', o) hfeed).1
      · simp only [List.nil_append]
    rw [List.flatten_cons, feed_append, filterBufs, hcall]
    cases hfeed : feed d buf with
    | none => rfl
    | some p =>
      obtain ⟨-, hlast, hrest⟩ := h p hfeed
      have hrun := ih (hd.feed hfeed) hlast hrest
      simp only [outcome, Option.map_some, Option.bind_some, Option.map_map] at hrun ⊢
      cases hlater : feed p.1 bufs.flatten with
      | none =>
        rw [hlater, Option.map_none, Option.map_eq_none_iff] at hrun
        rw [hrun]
        rfl
      | some q =>
        rw [hlater, Option.map_some, Option.map_eq_some_iff] at hrun
        obtain ⟨e, he, heq⟩ := hrun
        obtain ⟨hout, heof, hafter⟩ : _ ∧ _ ∧ _ := by simpa only [Prod.mk.injEq] using heq
        simp only [he, Option.map_some, Function.comp_apply, hout, heof, hafter]

/-- However a body is cut into calls, the outcome is the same. -/
theorem filterBufs_outcome_eq {bufs bufs' : List (List Byte)} (hsame : bufs.flatten = bufs'.flatten)
    (h : SplitsCleanly {} bufs) (h' : SplitsCleanly {} bufs') :
    outcome (filterBufs {} bufs) = outcome (filterBufs {} bufs') := by
  have hstart : ({} : Decoder).LineOnly := fun _ => rfl
  have hrun := outcome_filterBufs hstart (by simp) h
  have hrun' := outcome_filterBufs hstart (by simp) h'
  rw [hsame] at hrun
  exact hrun.trans hrun'.symm

/-- A chunk of one byte and the end, cut between a carriage return and its line feed. -/
theorem filterBufs_outcome_eq_split :
    outcome (filterBufs {} [[49, 13], [10, 65, 13, 10, 48], [13, 10, 13, 10, 66]]) =
      outcome (filterBufs {} [[49, 13, 10, 65, 13, 10, 48, 13, 10, 13, 10, 66]]) :=
  filterBufs_outcome_eq (by decide) (by decide +kernel) (by decide +kernel)

/-- A call that fails keeps back what it decoded: a chunk of one byte before a line
that is no size, in one call and in two. -/
theorem filterBufs_observed_ne :
    ¬ ∀ bufs bufs' : List (List Byte), bufs.flatten = bufs'.flatten →
      observed (filterBufs {} bufs) = observed (filterBufs {} bufs') := by
  intro h
  have := h [[49, 13, 10, 65, 13, 10, 88, 10]] [[49, 13, 10, 65], [13, 10, 88, 10]] (by decide)
  exact absurd this (by decide)

end Calls

end Chromium.HttpChunkedDecoder
