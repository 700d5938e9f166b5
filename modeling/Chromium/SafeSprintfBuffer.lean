import Chromium.ListRegions
import Chromium.StringNumber

/-!
# The buffer of SafeSPrintf

`base/strings/safe_sprintf.cc`: the output buffer, which counts what did not fit, and the
conversion of integers, which produces digits from the last one on. An access outside the
caller's memory has no result.
-/
namespace Chromium.SafeSprintf

open WireFormat StringNumber ListRegions

def kSSizeMax : ℕ := 2 ^ 63 - 1

def kUpCaseHexDigits : Text := ascii "0123456789ABCDEF"
def kDownCaseHexDigits : Text := ascii "0123456789abcdef"

/-- The last byte of the memory is not part of the size. -/
structure Buffer where
  buffer : List Byte
  size : ℕ
  count : ℕ := 0
  deriving DecidableEq, Repr

namespace Buffer

def outOfAddressableSpace (b : Buffer) : Bool := b.count = kSSizeMax - 1

/-- The count stays below its limit; the result says whether it did by itself. -/
def incrementCount (b : Buffer) (inc : ℕ) : Buffer × Bool :=
  if b.count > kSSizeMax - 1 - inc then ({ b with count := kSSizeMax - 1 }, false)
  else ({ b with count := b.count + inc }, true)

def out (b : Buffer) (ch : Byte) : Option (Buffer × Bool) :=
  if b.size ≥ 1 ∧ b.count < b.size then do
    let mem ← store b.buffer b.count ch
    some ({ b with buffer := mem }.incrementCount 1)
  else some ((b.incrementCount 1).1, false)

def pad (ch : Byte) (len : ℕ) : ℕ → Buffer → Option (Buffer × Bool)
  | 0, b => some (b, true)
  | padding + 1, b =>
    if padding + 1 > len then do
      let r ← b.out ch
      if r.2 then pad ch len padding r.1
      else if padding ≠ 0 then some ((r.1.incrementCount (padding - len)).1, false)
      else some (r.1, false)
    else some (b, true)

def insertionPoint (b : Buffer) : ℕ := if b.count > b.size then b.size else b.count

/-- The destructor writes the NUL. -/
def finish (b : Buffer) : Option (List Byte) := store b.buffer b.insertionPoint 0

/-! ### Integers -/

/-- The variables of the loop that converts an integer. -/
structure Conversion where
  out : Buffer
  num : ℕ
  minint : ℕ
  started : Bool := false
  reversePrefix : ℕ
  padding : ℕ
  discarded : ℕ := 0

/-- When the buffer is full, a digit that was put out before is given up or only counted. -/
def makeRoom (start : ℕ) (c : Conversion) : Option Conversion :=
  let b := c.out
  if b.count ≥ b.size then
    if start < b.size then do
      let mem ← shiftDown (b.size - 1 - start) start b.buffer
      some { c with out := { b with buffer := mem, count := b.count - 1 },
                    discarded := c.discarded + 1 }
    else if b.count - b.size > 1 then
      some { c with out := { b with count := b.count - 1 }, discarded := c.discarded + 1 }
    else some c
  else some c

def digitChar (upcase : Bool) (d : ℕ) : Byte :=
  (if upcase then kUpCaseHexDigits else kDownCaseHexDigits).getD d 0

section Conversion
variable (upcase : Bool) (base : ℕ) (pad : Byte) (prefixText : Text) (prefixLength start : ℕ)

/-- A digit as long as there are any, then the prefix from behind, then padding. -/
def nextChar (c : Conversion) : Option Byte :=
  if c.num = 0 ∧ c.started then
    if c.reversePrefix > 0 then prefixText[c.reversePrefix - 1]? else some pad
  else some (digitChar upcase (c.num % base + c.minint))

def behindChar (c : Conversion) : Conversion :=
  { c with
    num := c.num / base, minint := 0, started := true
    reversePrefix := if c.num = 0 ∧ c.started then c.reversePrefix - 1 else c.reversePrefix }

/-- One round of the loop. -/
def convertOne (c : Conversion) : Option Conversion := do
  let c ← makeRoom start c
  let ch ← nextChar upcase base pad prefixText c
  let r ← c.out.out ch
  let c := { behindChar base c with out := r.1 }
  if c.padding > 0 then
    let c := { c with padding := c.padding - 1 }
    if c.discarded > 8 * 8 + prefixLength then
      some { c with out := (c.out.incrementCount c.padding).1, padding := 0 }
    else some c
  else some c

/-- The loop, for at most so many rounds. -/
def convert : ℕ → Conversion → Option Conversion
  | 0, _ => none
  | rounds + 1, c => do
    let c ← convertOne upcase base pad prefixText prefixLength start c
    if c.num ≠ 0 ∨ c.padding ≠ 0 ∨ c.reversePrefix > 0 then convert rounds c else some c

end Conversion

/-- The prefix is put out in front of zeros. -/
def outPrefix : Text → ℕ → Buffer → Option (Buffer × ℕ)
  | [], padding, b => some (b, padding)
  | ch :: prefixText, padding, b => do
    let r ← b.out ch
    outPrefix prefixText (padding - 1) r.1

/-- The last part of `IToASCII`: the loop, and the characters are put in order. -/
def outDigits (b : Buffer) (upcase : Bool) (num minint base : ℕ) (pad : Byte) (padding : ℕ)
    (prefixText : Text) : Option (Buffer × Bool) := do
  let start := b.count
  let c ← convert upcase base pad prefixText prefixText.length start
    (65 + padding + prefixText.length)
    { out := b, num := num, minint := minint, reversePrefix := prefixText.length
      padding := padding }
  let mem ← reverseBetween c.out.insertionPoint start c.out.buffer
  some (({ c.out with buffer := mem }.incrementCount c.discarded).1, c.discarded = 0)

/-- The part of `IToASCII` behind the treatment of the sign. -/
def outNumber (b : Buffer) (upcase : Bool) (num minint base : ℕ) (pad : Byte) (padding : ℕ)
    (prefixText : Text) : Option (Buffer × Bool) :=
  if pad = char '0' then do
    let (b, padding) ← outPrefix prefixText padding b
    outDigits b upcase num minint base pad padding []
  else outDigits b upcase num minint base pad padding prefixText

/-- The smallest number has no absolute value in its type. -/
def iToASCII (b : Buffer) (sign upcase : Bool) (i : BitVec 64) (base : ℕ) (pad : Byte)
    (padding : ℕ) (prefixText : Text) : Option (Buffer × Bool) :=
  if sign ∧ i.toInt < 0 then
    if i = BitVec.intMin 64 then
      outNumber b upcase (-(i + 1)).toNat 1 base pad padding (ascii "-")
    else outNumber b upcase (-i).toNat 0 base pad padding (ascii "-")
  else outNumber b upcase i.toNat 0 base pad padding prefixText

/-! ### What the buffer holds -/

/-- Of the output the buffer holds what fits, behind it the memory is as it was, and all of the
output is counted. -/
structure Holds (mem : List Byte) (output : Text) (b : Buffer) : Prop where
  size : b.size + 1 = mem.length
  count : b.count = output.length
  buffer : b.buffer = output.take b.size ++ mem.drop (min output.length b.size)

/-- What the caller finds: the output up to the size and a NUL. -/
def filled (mem : List Byte) (output : Text) : List Byte :=
  output.take (mem.length - 1) ++ 0 :: mem.drop (min output.length (mem.length - 1) + 1)

variable {mem : List Byte} {output : Text} {b : Buffer}

lemma Holds.make (h : 0 < mem.length) : Holds mem [] ⟨mem, mem.length - 1, 0⟩ :=
  ⟨Nat.sub_add_cancel h, rfl, by simp⟩

lemma incrementCount_of_le {inc : ℕ} (h : b.count + inc ≤ kSSizeMax - 1) :
    b.incrementCount inc = ({ b with count := b.count + inc }, true) := by
  rw [incrementCount, if_neg (by omega)]

lemma exists_cons_drop {n : ℕ} (h : n < mem.length) : ∃ x rest, mem.drop n = x :: rest :=
  ⟨mem[n], mem.drop (n + 1), List.drop_eq_getElem_cons h⟩

lemma Holds.finish (h : Holds mem output b) : b.finish = some (filled mem output) := by
  have hsize := h.size
  have hpoint : b.insertionPoint = (output.take b.size).length := by
    rw [insertionPoint, h.count, List.length_take]
    split_ifs <;> omega
  obtain ⟨x, rest, hrest⟩ := exists_cons_drop (by omega : min output.length b.size < mem.length)
  have hdrop : mem.drop (min output.length b.size + 1) = rest := by
    rw [← List.drop_drop, hrest]
    rfl
  rw [Buffer.finish, h.buffer, hpoint, hrest, store_length, filled, ← hsize, Nat.add_sub_cancel,
    hdrop]

/-- One character. -/
lemma Holds.out (h : Holds mem output b) (hfits : output.length + 1 ≤ kSSizeMax - 1) (ch : Byte) :
    ∃ b', b.out ch = some (b', decide (output.length < b.size)) ∧ b'.size = b.size ∧
      Holds mem (output ++ [ch]) b' := by
  have hsize := h.size
  have hcount := h.count
  have hbuffer := h.buffer
  by_cases hroom : output.length < b.size
  · obtain ⟨x, rest, hrest⟩ := exists_cons_drop (by omega : output.length < mem.length)
    have hdrop : mem.drop (output.length + 1) = rest := by
      rw [← List.drop_drop, hrest]
      rfl
    rw [List.take_of_length_le hroom.le, min_eq_left hroom.le, hrest] at hbuffer
    refine ⟨{ b with buffer := output ++ ch :: rest, count := b.count + 1 }, ?_, rfl, hsize, ?_, ?_⟩
    · rw [Buffer.out, if_pos (by omega), hbuffer, hcount, store_length]
      simp only [Option.bind_eq_bind, Option.bind_some]
      rw [incrementCount_of_le (by dsimp only; omega), decide_eq_true hroom]
    · simp [hcount]
    · have hle : (output ++ [ch]).length ≤ b.size := by simpa using hroom
      rw [List.take_of_length_le hle, min_eq_left hle, List.length_append, List.length_singleton,
        hdrop]
      simp
  · have hle : b.size ≤ output.length := not_lt.mp hroom
    have hle' : b.size ≤ (output ++ [ch]).length := by
      rw [List.length_append]
      omega
    refine ⟨{ b with count := b.count + 1 }, ?_, rfl, hsize, ?_, ?_⟩
    · rw [Buffer.out, if_neg (by omega), incrementCount_of_le (by omega), decide_eq_false hroom]
    · simp [hcount]
    · rw [hbuffer, List.take_append_of_le_length hle, min_eq_right hle, min_eq_right hle']

/-- Characters that are only counted. -/
lemma Holds.skip (h : Holds mem output b) {text : Text} (hfull : b.size ≤ output.length)
    (hfits : output.length + text.length ≤ kSSizeMax - 1) :
    Holds mem (output ++ text) (b.incrementCount text.length).1 := by
  have hle : b.size ≤ (output ++ text).length := by
    rw [List.length_append]
    omega
  rw [incrementCount_of_le (by rw [h.count]; exact hfits)]
  refine ⟨h.size, by simp [h.count], ?_⟩
  dsimp only
  rw [h.buffer, List.take_append_of_le_length hfull, min_eq_right hfull, min_eq_right hle]

/-- A text, character by character. -/
def outAll : Text → Buffer → Option Buffer
  | [], b => some b
  | ch :: text, b => do
    let r ← b.out ch
    outAll text r.1

lemma Holds.outAll {text : Text} (h : Holds mem output b)
    (hfits : output.length + text.length ≤ kSSizeMax - 1) :
    ∃ b', outAll text b = some b' ∧ b'.size = b.size ∧ Holds mem (output ++ text) b' := by
  induction text generalizing output b with
  | nil => exact ⟨b, rfl, rfl, by rwa [List.append_nil]⟩
  | cons ch text ih =>
    rw [List.length_cons] at hfits
    obtain ⟨b₁, hout, hsize, h₁⟩ := h.out (by omega) ch
    obtain ⟨b', hrest, hsize', h'⟩ := ih h₁ (by
      rw [List.length_append, List.length_singleton]
      omega)
    refine ⟨b', ?_, hsize'.trans hsize, by simpa using h'⟩
    rw [Buffer.outAll, hout]
    exact hrest

/-- Padding stops when the buffer is full and counts the rest at once. -/
lemma Holds.pad {ch : Byte} {len padding : ℕ} (h : Holds mem output b)
    (hfits : output.length + (padding - len) ≤ kSSizeMax - 1) :
    ∃ r, Buffer.pad ch len padding b = some r ∧ r.1.size = b.size ∧
      Holds mem (output ++ List.replicate (padding - len) ch) r.1 := by
  induction padding generalizing output b with
  | zero => exact ⟨(b, true), rfl, rfl, by simpa using h⟩
  | succ padding ih =>
    rw [Buffer.pad]
    by_cases hmore : padding + 1 > len
    · obtain ⟨b₁, hout, hsize, h₁⟩ := h.out (by omega) ch
      have hsucc : padding + 1 - len = padding - len + 1 := by omega
      have hlength : (output ++ [ch]).length = output.length + 1 := by simp
      have hassoc : output ++ List.replicate (padding + 1 - len) ch =
          output ++ [ch] ++ List.replicate (padding - len) ch := by
        rw [hsucc, List.replicate_succ, List.append_assoc, List.singleton_append]
      rw [if_pos hmore, hout, hassoc]
      simp only [Option.bind_eq_bind, Option.bind_some]
      by_cases hroom : output.length < b.size
      · obtain ⟨r, hr, hsize', hholds⟩ := ih h₁ (by omega)
        rw [if_pos (by simpa using hroom)]
        exact ⟨r, hr, hsize'.trans hsize, hholds⟩
      · have hskip := @Holds.skip mem (output ++ [ch]) b₁ h₁ (List.replicate (padding - len) ch)
          (by omega) (by rw [List.length_replicate]; omega)
        rw [List.length_replicate] at hskip
        rw [if_neg (by simpa using hroom)]
        by_cases hpadding : padding = 0
        · refine ⟨(b₁, false), by rw [if_neg (by omega)], hsize, ?_⟩
          simpa [hpadding] using h₁
        · refine ⟨((b₁.incrementCount (padding - len)).1, false), by rw [if_pos hpadding], ?_,
            hskip⟩
          have hcount := h₁.count
          rw [incrementCount_of_le (by omega)]
          exact hsize
    · rw [if_neg hmore]
      exact ⟨(b, true), rfl, rfl, by simpa [Nat.sub_eq_zero_of_le (not_lt.mp hmore)] using h⟩

/-! ### Integers, digit by digit -/

/-- Behind the output the buffer holds those of the characters `emitted` that came last, as many
as fit; all of them are counted or discarded. -/
structure Emitted (mem : List Byte) (output emitted : Text) (b : Buffer) (discarded : ℕ) :
    Prop where
  size : b.size + 1 = mem.length
  count : b.count + discarded = output.length + emitted.length
  full : min b.count b.size = min (output.length + emitted.length) b.size
  buffer : b.buffer = output.take b.size ++
    emitted.drop (emitted.length - (b.size - output.length)) ++
      mem.drop (min (output.length + emitted.length) b.size)

/-- In the loop characters are discarded only when they have to be. -/
structure Emitting (mem : List Byte) (output emitted : Text) (b : Buffer) (discarded : ℕ) : Prop
    extends Emitted mem output emitted b discarded where
  least : output.length < b.size → discarded = output.length + emitted.length - b.size
  fewer : discarded ≤ emitted.length

section Emit
variable {emitted : Text}

lemma Holds.emitting (h : Holds mem output b) : Emitting mem output [] b 0 := by
  refine ⟨⟨h.size, by simp [h.count], by simp [h.count], ?_⟩, fun hlt => by simp; omega, le_rfl⟩
  rw [h.buffer]
  simp

lemma Emitting.emit {c : Conversion} (h : Emitting mem output emitted c.out c.discarded)
    (hfits : output.length + emitted.length + 1 ≤ kSSizeMax - 1) (ch : Byte) :
    ∃ b₁ d₁ r, makeRoom output.length c = some { c with out := b₁, discarded := d₁ } ∧
      b₁.out ch = some r ∧ r.1.size = c.out.size ∧
      Emitting mem output (emitted ++ [ch]) r.1 d₁ := by
  obtain ⟨⟨hsize, hcount, hfull, hbuffer⟩, hleast, hfewer⟩ := h
  have hlength : (emitted ++ [ch]).length = emitted.length + 1 := by simp
  by_cases hstart : output.length < c.out.size
  · have hdiscarded := hleast hstart
    rw [List.take_of_length_le hstart.le] at hbuffer
    by_cases hroom : output.length + emitted.length < c.out.size
    · -- there is room: nothing is given up
      have hpoint : c.out.count = (output ++ emitted).length := by
        rw [List.length_append]
        omega
      obtain ⟨x, rest, hrest⟩ :=
        exists_cons_drop (by omega : output.length + emitted.length < mem.length)
      have hdrop : mem.drop (output.length + emitted.length + 1) = rest := by
        rw [← List.drop_drop, hrest]
        rfl
      have hall : emitted.length - (c.out.size - output.length) = 0 := by omega
      rw [hall, List.drop_zero, min_eq_left hroom.le, hrest] at hbuffer
      refine ⟨c.out, c.discarded, ({ c.out with
        buffer := output ++ emitted ++ ch :: rest, count := c.out.count + 1 }, true), ?_, ?_, rfl,
        ⟨hsize, ?_, ?_, ?_⟩, ?_, ?_⟩
      · rw [makeRoom, if_neg (by omega)]
      · rw [out, if_pos (by omega), hbuffer, hpoint, store_length]
        simp only [Option.bind_eq_bind, Option.bind_some]
        rw [incrementCount_of_le (by dsimp only; omega)]
      · simp only [hlength]
        omega
      · simp only [hlength]
        omega
      · have hall' : (emitted ++ [ch]).length - (c.out.size - output.length) = 0 := by omega
        have hmin : min (output.length + (emitted ++ [ch]).length) c.out.size =
            output.length + emitted.length + 1 := by omega
        simp only [hall', List.drop_zero, hmin, hdrop, List.take_of_length_le hstart.le]
        simp
      · intro _
        simp only [hlength]
        omega
      · simp only [hlength]
        omega
    · -- the oldest of the characters is given up
      have hle := not_lt.mp hroom
      have hkept : (emitted.drop (emitted.length - (c.out.size - output.length))).length =
          c.out.size - output.length := by
        rw [List.length_drop]
        omega
      obtain ⟨x, ys, hys⟩ : ∃ x ys,
          emitted.drop (emitted.length - (c.out.size - output.length)) = x :: ys := by
        rw [← List.ne_nil_iff_exists_cons]
        intro hnil
        rw [hnil, List.length_nil] at hkept
        omega
      rw [hys, List.length_cons] at hkept
      have hdrop : emitted.drop (emitted.length + 1 - (c.out.size - output.length)) = ys := by
        have hsucc : emitted.length + 1 - (c.out.size - output.length) =
            emitted.length - (c.out.size - output.length) + 1 := by omega
        rw [hsucc, ← List.drop_drop, hys]
        rfl
      rw [hys, min_eq_right hle] at hbuffer
      have hcut : c.out.buffer = output ++ x :: (ys ++ mem.drop c.out.size) := by
        rw [hbuffer]
        simp
      obtain ⟨z, hz⟩ := shiftDown_append output x ys (mem.drop c.out.size)
      have hmoves : c.out.size - 1 - output.length = ys.length := by omega
      have hpoint : c.out.count - 1 = (output ++ ys).length := by
        rw [List.length_append]
        omega
      refine ⟨{ c.out with
          buffer := output ++ ys ++ z :: mem.drop c.out.size, count := c.out.count - 1 },
        c.discarded + 1,
        ({ c.out with
          buffer := output ++ ys ++ ch :: mem.drop c.out.size, count := c.out.count - 1 + 1 },
          true), ?_, ?_, rfl, ⟨hsize, ?_, ?_, ?_⟩, ?_, ?_⟩
      · rw [makeRoom, if_pos (by omega), if_pos hstart, hcut, hmoves, hz]
        rfl
      · rw [out, if_pos ⟨by dsimp only; omega, by dsimp only; omega⟩]
        dsimp only
        rw [hpoint, store_length]
        simp only [Option.bind_eq_bind, Option.bind_some]
        rw [incrementCount_of_le (by dsimp only; omega)]
      · simp only [hlength]
        omega
      · simp only [hlength]
        omega
      · have hmin : min (output.length + (emitted ++ [ch]).length) c.out.size = c.out.size := by
          omega
        have hlast : (emitted ++ [ch]).drop
            ((emitted ++ [ch]).length - (c.out.size - output.length)) = ys ++ [ch] := by
          rw [List.drop_append_of_le_length (by omega), hlength, hdrop]
        simp only [hmin, hlast, List.take_of_length_le hstart.le]
        simp
      · intro _
        simp only [hlength]
        omega
      · simp only [hlength]
        omega
  · -- the buffer was full before: characters are only counted
    have hfull' : c.out.size ≤ c.out.count := by omega
    have hnone : c.out.size - output.length = 0 := by omega
    rw [hnone, Nat.sub_zero, List.drop_length, List.append_nil] at hbuffer
    have hdone : ∀ b₁ d₁, makeRoom output.length c = some { c with out := b₁, discarded := d₁ } →
        b₁.size = c.out.size → b₁.buffer = c.out.buffer → c.out.size ≤ b₁.count →
        b₁.count + d₁ = c.out.count + c.discarded → d₁ ≤ c.discarded + 1 → ∃ b₁ d₁ r,
          makeRoom output.length c = some { c with out := b₁, discarded := d₁ } ∧
          b₁.out ch = some r ∧ r.1.size = c.out.size ∧
          Emitting mem output (emitted ++ [ch]) r.1 d₁ := by
      intro b₁ d₁ hmake hsize₁ hbuffer₁ hle hsum hone
      refine ⟨b₁, d₁, ({ b₁ with count := b₁.count + 1 }, false), hmake, ?_, hsize₁,
        ⟨?_, ?_, ?_, ?_⟩, ?_, by simp only [hlength]; omega⟩
      · rw [out, if_neg (by omega), incrementCount_of_le (by omega)]
      · simpa [hsize₁] using hsize
      · simp only [hlength]
        omega
      · simp only [hlength, hsize₁]
        omega
      · simp only [hsize₁, hnone, Nat.sub_zero, List.drop_length, List.append_nil, hbuffer₁,
          hbuffer]
        congr 2
        omega
      · intro hlt
        dsimp only at hlt
        omega
    by_cases hmore : c.out.count - c.out.size > 1
    · refine hdone { c.out with count := c.out.count - 1 } (c.discarded + 1) ?_ rfl rfl ?_ ?_
        le_rfl
      · rw [makeRoom, if_pos (by omega), if_neg hstart, if_pos hmore]
      · dsimp only
        omega
      · dsimp only
        omega
    · refine hdone c.out c.discarded ?_ rfl rfl hfull' rfl (Nat.le_succ _)
      rw [makeRoom, if_pos (by omega), if_neg hstart, if_neg hmore]

end Emit

end Buffer

end Chromium.SafeSprintf
