import Chromium.SafeSprintfNumbers

/-!
# SafeSPrintf

`internal::SafeSNPrintf` reads the format with the arguments beside it; the overload without
arguments copies the format.
-/
namespace Chromium.SafeSprintf

open WireFormat StringNumber

/-- A text with a NUL behind it, no larger than an object can be. -/
structure CString where
  chars : Text
  noNul : 0 ∉ chars
  fits : chars.length < kSSizeMax

/-- Integers are widened to 64 bits and keep the number of their bytes; a string that is not NULL
has an address. -/
inductive Arg
  | int (i : BitVec 64) (width : ℕ)
  | uint (i : BitVec 64) (width : ℕ)
  | string (str : Option (BitVec 64 × CString))
  | pointer (ptr : BitVec 64)

def nullText : Text := ascii "<NULL>"

namespace Arg

/-- `sizeof(NULL)` is that of a pointer. -/
def isZero : Arg → Bool
  | .int i width => width = 8 ∧ i = 0
  | _ => false

def isInt : Arg → Bool
  | .int _ _ => true
  | _ => false

/-- The value for `%c`, `%d`, `%o`, `%x` and `%X`; it is masked for those without a sign. -/
def integer (masked : Bool) : Arg → Option (BitVec 64)
  | .int i width | .uint i width =>
    some (if masked ∧ width < 8 then i &&& ((1#64 <<< (8 * width)) - 1) else i)
  | _ => none

/-- The value for `%p`. -/
def address : Arg → Option (BitVec 64)
  | .pointer ptr => some ptr
  | .string none => some 0
  | .string (some str) => some str.1
  | arg => if arg.isZero then some 0 else none

/-- The value for `%s`. -/
def str : Arg → Option Text
  | .string none => some nullText
  | .string (some str) => some str.2.chars
  | arg => if arg.isZero then some nullText else none

end Arg

/-- What a part of the format does with the buffer. -/
inductive Piece
  | verbatim (ch : Byte)
  | character (ch : Byte) (padding : ℕ)
  | integer (sign upcase : Bool) (i : BitVec 64) (base : ℕ) (pad : Byte) (padding : ℕ)
      (prefixText : Text)
  | text (s : Text) (padding : ℕ)
  | failed (ch : Byte)

/-- The result says whether formatting goes on. -/
def Piece.put (b : Buffer) : Piece → Option (Buffer × Bool)
  | .verbatim ch => (b.out ch).map fun r => (r.1, true)
  | .character ch padding => do
    let r ← Buffer.pad (char ' ') 1 padding b
    if ch = 0 then some (r.1, false) else (r.1.out ch).map fun r => (r.1, true)
  | .integer sign upcase i base pad padding prefixText =>
    (b.iToASCII sign upcase i base pad padding prefixText).map fun r => (r.1, true)
  | .text s padding => do
    let r ← Buffer.pad (char ' ') s.length padding b
    (Buffer.outAll s r.1).map fun b => (b, true)
  | .failed ch => do
    let r ← b.out (char '%')
    if ch = 0 then some (r.1, false) else (r.1.out ch).map fun r => (r.1, true)

def isDigit (ch : Byte) : Bool := char '0' ≤ ch ∧ ch ≤ char '9'

/-- The width in front of the format character, unless it is too large. -/
def readWidth : ℕ → Text → Option ℕ × Text
  | padding, [] => (some padding, [])
  | padding, ch :: fmt =>
    let max_padding := kSSizeMax - 1
    let digit := ch.toNat - 48
    if isDigit ch then
      if padding > max_padding / 10 ∨ 10 * padding > max_padding - digit then
        (none, fmt.dropWhile isDigit)
      else readWidth (10 * padding + digit) fmt
    else (some padding, ch :: fmt)

/-- A format character with its argument; without a result it is not expanded. -/
def expand (ch pad : Byte) (padding : ℕ) (arg : Arg) : Option Piece :=
  if ch = char 'c' then (arg.integer false).map fun i => .character (i.setWidth 8) padding
  else if ch = char 's' then arg.str.map fun s => .text s padding
  else
    (if ch = char 'p' then arg.address else arg.integer (ch ≠ char 'd')).map fun i =>
      .integer (ch = char 'd' ∧ arg.isInt) (ch ≠ char 'x') i
        (if ch = char 'o' then 8 else if ch = char 'd' then 10 else 16) pad padding
        (if ch = char 'p' then ascii "0x" else [])

def conversions : Text := ascii "cdoxXps"

/-- The counter of the arguments is an unsigned int. -/
def behindArg (args : List Arg) (cur_arg : ℕ) : ℕ :=
  if cur_arg < args.length then (cur_arg + 1) % 2 ^ 32 else cur_arg

def padOf (fmt : Text) : Byte := if fmt.head? = some (char '0') then char '0' else char ' '

/-- The directive behind a percent sign, the next argument and the rest of the format. Where the
format ends its NUL is read. -/
def directive (args : List Arg) (cur_arg : ℕ) (fmt : Text) : Piece × ℕ × Text :=
  let (padding, rest) := readWidth 0 fmt
  let ch := rest.headD 0
  match padding with
  | none => (.failed ch, behindArg args cur_arg, rest.tail)
  | some padding =>
    if ch ∈ conversions then
      ((args[cur_arg]?.bind (expand ch (padOf fmt) padding)).getD (.failed ch),
        behindArg args cur_arg, rest.tail)
    else if ch = char '%' then (.verbatim ch, cur_arg, rest.tail)
    else (.failed ch, cur_arg, rest.tail)

/-- The loop over the format, for at most so many rounds. -/
def format (args : List Arg) : ℕ → ℕ → Text → Buffer → Option Buffer
  | 0, _, _, _ => none
  | _ + 1, _, [], b => some b
  | rounds + 1, cur_arg, ch :: fmt, b =>
    if b.outOfAddressableSpace then some b
    else if ch = char '%' then do
      let d := directive args cur_arg fmt
      let r ← d.1.put b
      if r.2 then format args rounds d.2.1 d.2.2 r.1 else some r.1
    else do
      let r ← b.out ch
      format args rounds cur_arg fmt r.1

/-- The size as the code checks it, a return value and the memory of the caller. -/
def withBuffer (buf : List Byte) (sz : BitVec 64) (body : Buffer → Option Buffer) :
    Option (ℤ × List Byte) :=
  if sz.toInt < 1 then some (-1, buf)
  else do
    let sz := if sz.toNat > kSSizeMax then kSSizeMax else sz.toNat
    let b ← body ⟨buf, sz - 1, 0⟩
    let mem ← b.finish
    some (b.count, mem)

/-- `internal::SafeSNPrintf` -/
def safeSNPrintf (buf : List Byte) (sz : BitVec 64) (fmt : CString) (args : List Arg) :
    Option (ℤ × List Byte) :=
  withBuffer buf sz (format args (fmt.chars.length + 1) 0 fmt.chars)

def copyFormat : Text → Buffer → Option Buffer
  | [], b => some b
  | [ch], b => do
    let r ← b.out ch
    some r.1
  | ch :: next :: fmt, b => do
    let r ← b.out ch
    if ch = char '%' ∧ next = char '%' then copyFormat fmt r.1 else copyFormat (next :: fmt) r.1

/-- `SafeSNPrintf` without arguments -/
def safeSNPrintfFormat (buf : List Byte) (sz : BitVec 64) (fmt : CString) :
    Option (ℤ × List Byte) :=
  withBuffer buf sz (copyFormat fmt.chars)

end Chromium.SafeSprintf
