import Chromium.IcuUtf
import Chromium.StringNumber

/-!
# The JSON parser

`base/json/json_parser.cc`: a parser by recursive descent over a string of bytes. A token is
told by its first character, and every value leaves the parser on its last character. What
lies in memory behind the input is read at some places, and is a parameter here.
-/
namespace Chromium.Json

open WireFormat StringNumber

/-- `base::Value`. The entries of a dictionary are those of a `std::map`. -/
inductive Value (δ : Type)
  | null
  | boolean (value : Bool)
  | integer (value : BitVec 32)
  | double (value : δ)
  | string (value : Text)
  | binary (value : Text)
  | list (items : List (Value δ))
  | dictionary (entries : List (Text × Value δ))

/-- `DictionaryValue::SetWithoutPathExpansion` on the entries, which are in the order of the
keys. -/
def setWithoutPathExpansion {α : Type*} (key : Text) (value : α) : List (Text × α) → List (Text × α)
  | [] => [(key, value)]
  | (k, v) :: entries =>
    if key < k then (key, value) :: (k, v) :: entries
    else if key = k then (key, value) :: entries
    else (k, v) :: setWithoutPathExpansion key value entries

inductive JsonParseError
  | noError
  | invalidEscape
  | syntaxError
  | unexpectedToken
  | trailingComma
  | tooMuchNesting
  | unexpectedDataAfterRoot
  | unsupportedEncoding
  | unquotedDictionaryKey
  deriving DecidableEq

/-- `JSONParserOptions` -/
structure Options where
  allowTrailingCommas : Bool
  detachableChildren : Bool

/-- What the parser uses of floating point numbers. `strtod` gives the number, whether `errno` is
`ERANGE`, and how many characters it has read. -/
structure Doubles (δ : Type) where
  strtod : Text → δ × Bool × ℕ
  isFinite : δ → Bool

def kStackMaxDepth : ℕ := 100

inductive Token
  | objectBegin
  | objectEnd
  | arrayBegin
  | arrayEnd
  | string
  | number
  | boolTrue
  | boolFalse
  | null
  | listSeparator
  | objectPairSeparator
  | endOfInput
  | invalidToken
  deriving DecidableEq

/-- The bytes from `pos_` to `end_pos_`, or how far `pos_` is behind `end_pos_`, with the byte
before `pos_`. The nesting is an argument of the functions that look at it. -/
structure JSONParser where
  rest : Text
  past : ℕ := 0
  last : Option Byte := none
  index : ℕ := 0
  lineNumber : ℕ := 1
  indexLastLine : ℕ := 0

/-- `error_code_`, `error_line_` and `error_column_`. -/
structure ParseError where
  code : JsonParseError
  line : ℕ
  column : ℤ

inductive Failure
  | reported (error : ParseError)
  | outOfFuel

/-- What is reported in the place `p` of the parser. -/
def reportError {α : Type*} (code : JsonParseError) (columnAdjust : ℤ) (p : JSONParser) :
    Except Failure α :=
  .error (.reported ⟨code, p.lineNumber, (p.index : ℤ) - p.indexLastLine + columnAdjust⟩)

namespace JSONParser

variable (memory : ℕ → Byte)

/-- `CanConsume` of at least one byte. -/
def canConsume (n : ℕ) (p : JSONParser) : Prop := n ≤ p.rest.length

instance (n : ℕ) (p : JSONParser) : Decidable (p.canConsume n) :=
  inferInstanceAs (Decidable (n ≤ p.rest.length))

/-- `*pos_` -/
def peek (p : JSONParser) : Byte := p.rest.headD (memory p.past)

def nextChar (p : JSONParser) : JSONParser :=
  match p.rest with
  | c :: rest => { p with rest := rest, last := some c, index := p.index + 1 }
  | [] => { p with past := p.past + 1, last := some (memory p.past), index := p.index + 1 }

/-- `NextNChars` -/
def nextNChars (n : ℕ) (p : JSONParser) : JSONParser := (nextChar memory)^[n] p

/-- `StringPiece(pos_, n)` -/
def piece (n : ℕ) (p : JSONParser) : Text :=
  (List.range n).map fun i => (p.nextNChars memory i).peek memory

/-! ### Tokens -/

def isNewline (c : Byte) : Bool := c = char '\n' ∨ c = char '\r'

/-- The loop over a comment that ends with the line. -/
def eatLine : ℕ → JSONParser → Bool × JSONParser
  | 0, p => (false, p)
  | fuel + 1, p =>
    if p.canConsume 1 then
      let p := p.nextChar memory
      if isNewline (p.peek memory) then (true, p) else eatLine fuel p
    else (false, p)

/-- The loop over a comment that ends with a mark. -/
def eatBlock : ℕ → Byte → JSONParser → Bool × JSONParser
  | 0, _, p => (false, p)
  | fuel + 1, previous, p =>
    if p.canConsume 1 then
      let p := p.nextChar memory
      let next := p.peek memory
      if previous = char '*' ∧ next = char '/' then (true, p.nextChar memory)
      else eatBlock fuel next p
    else (false, p)

def eatComment (p : JSONParser) : Bool × JSONParser :=
  if p.peek memory ≠ char '/' ∨ ¬ p.canConsume 1 then (false, p)
  else
    let p := p.nextChar memory
    if p.peek memory = char '/' then eatLine memory p.rest.length p
    else if p.peek memory = char '*' then eatBlock memory p.rest.length 0 p
    else (false, p)

/-- A line feed behind a carriage return does not begin a line of its own. -/
def countLine (p : JSONParser) : JSONParser :=
  if isNewline (p.peek memory) then
    let isSecond := p.peek memory = char '\n' ∧ p.last = some (char '\r')
    { p with indexLastLine := p.index,
             lineNumber := if isSecond then p.lineNumber else p.lineNumber + 1 }
  else p

def isBlank (c : Byte) : Bool :=
  c = char '\r' ∨ c = char '\n' ∨ c = char ' ' ∨ c = char '\t'

def eatWhitespaceAndComments : ℕ → JSONParser → JSONParser
  | 0, p => p
  | fuel + 1, p =>
    if p.canConsume 1 then
      if isBlank (p.peek memory) then
        eatWhitespaceAndComments fuel ((p.countLine memory).nextChar memory)
      else if p.peek memory = char '/' then
        match p.eatComment memory with
        | (true, p) => eatWhitespaceAndComments fuel p
        | (false, p) => p
      else p
    else p

/-- The token that begins with a character. -/
def tokenOf (c : Byte) : Token :=
  if c = char '\x7b' then .objectBegin
  else if c = char '\x7d' then .objectEnd
  else if c = char '[' then .arrayBegin
  else if c = char ']' then .arrayEnd
  else if c = char '"' then .string
  else if (48 ≤ c.toNat ∧ c.toNat ≤ 57) ∨ c = char '-' then .number
  else if c = char 't' then .boolTrue
  else if c = char 'f' then .boolFalse
  else if c = char 'n' then .null
  else if c = char ',' then .listSeparator
  else if c = char ':' then .objectPairSeparator
  else .invalidToken

def getNextToken (p : JSONParser) : Token × JSONParser :=
  let p := p.eatWhitespaceAndComments memory p.rest.length
  if p.canConsume 1 then (tokenOf (p.peek memory), p) else (.endOfInput, p)

/-! ### Strings -/

/-- Counts bytes of the input as long as none of them is changed. -/
structure StringBuilder where
  pos : JSONParser
  length : ℕ := 0
  string : Option Text := none

namespace StringBuilder

def asString (b : StringBuilder) : Text := b.string.getD (b.pos.piece memory b.length)

def convert (b : StringBuilder) : StringBuilder := { b with string := some (b.asString memory) }

def append (c : Byte) (b : StringBuilder) : StringBuilder :=
  match b.string with
  | some s => { b with string := some (s ++ [c]) }
  | none => { b with length := b.length + 1 }

def appendString (str : Text) (b : StringBuilder) : StringBuilder :=
  { b with string := b.string.map (· ++ str) }

end StringBuilder

def decodeUTF8 (point : ℕ) (dest : StringBuilder) : StringBuilder :=
  if point < 0x80 then dest.append (BitVec.ofNat 8 point)
  else (dest.convert memory).appendString (IcuUtf.append point)

/-- The `int` as an unsigned number, as the macros for surrogates take it. -/
def unsigned (n : ℤ) : ℕ := (n % 2 ^ 32).toNat

/-- The code units are put at the end of a string up to the first null character. -/
def codeUnits (point : ℕ) : Text := (IcuUtf.append point).takeWhile (· ≠ 0)

/-- A failure leaves the parser where it stands. -/
def decodeUTF16 (p : JSONParser) : Except JSONParser (Text × JSONParser) :=
  if ¬ p.canConsume 4 then .error p
  else
    match hexStringToInt (p.piece memory 4) with
    | none => .error p
    | some high =>
      let p := p.nextNChars memory 3
      if IcuUtf.isSurrogate (unsigned high) then
        if ¬ IcuUtf.isSurrogateLead (unsigned high) then .error p
        else if ¬ p.canConsume 6 then .error p
        else
          let p := p.nextChar memory
          if p.peek memory ≠ char '\\' then .error p
          else
            let p := p.nextChar memory
            if p.peek memory ≠ char 'u' then .error p
            else
              let p := p.nextChar memory
              match hexStringToInt (p.piece memory 4) with
              | none => .error p
              | some low =>
                let p := p.nextNChars memory 3
                if ¬ IcuUtf.isTrail16 (unsigned low) then .error p
                else
                  .ok (codeUnits (IcuUtf.getSupplementary (unsigned high) (unsigned low)), p)
      else .ok (codeUnits (unsigned high), p)

/-- The characters that stand for one character behind a backslash. -/
def simpleEscape (c : Byte) : Option Byte :=
  if c = char '"' then some (char '"')
  else if c = char '\\' then some (char '\\')
  else if c = char '/' then some (char '/')
  else if c = char 'b' then some 8
  else if c = char 'f' then some 12
  else if c = char 'n' then some 10
  else if c = char 'r' then some 13
  else if c = char 't' then some 9
  else if c = char 'v' then some 11
  else none

/-- What is behind a backslash, up to its last character. Here `index_` is one ahead of
`pos_`. -/
def consumeEscape (string : StringBuilder) (p : JSONParser) :
    Except Failure (StringBuilder × JSONParser) :=
  if p.peek memory = char 'x' then
    if ¬ p.canConsume 2 then reportError .invalidEscape (1 + 1) p
    else
      let p := p.nextChar memory
      match hexStringToInt (p.piece memory 2) with
      | none => reportError .invalidEscape (1 - 1) p
      | some hexDigit =>
        let string :=
          if hexDigit < 0x80 then string.append (BitVec.ofInt 8 hexDigit)
          else decodeUTF8 memory hexDigit.toNat string
        .ok (string, p.nextChar memory)
  else if p.peek memory = char 'u' then
    if ¬ p.canConsume 5 then reportError .invalidEscape 1 p
    else
      match decodeUTF16 memory (p.nextChar memory) with
      | .error p => reportError .invalidEscape (1 - 1) p
      | .ok (utf8Units, p) => .ok (string.appendString utf8Units, p)
  else
    match simpleEscape (p.peek memory) with
    | some c => .ok (string.append c, p)
    | none => reportError .invalidEscape 1 p

/-- The loop of `ConsumeStringRaw` at `index_`. Once it has gone behind the end, nothing can be
consumed. -/
def consumeCharacters : ℕ → StringBuilder → JSONParser → Except Failure (StringBuilder × JSONParser)
  | 0, _, _ => .error .outOfFuel
  | fuel + 1, string, p =>
    if 0 < p.past then reportError .syntaxError 0 p
    else
      let result := IcuUtf.next (p.peek memory) p.rest.tail
      let q := p.nextNChars memory (result.2 + 1)
      match result.1 with
      | none => reportError .unsupportedEncoding 1 q
      | some c =>
        if ¬ IcuUtf.isValidCharacter c then reportError .unsupportedEncoding 1 q
        else if c = (char '\\').toNat then
          if ¬ p.canConsume 1 then reportError .invalidEscape 0 q
          else do
            let (string, q) ← consumeEscape memory (string.convert memory) q
            consumeCharacters fuel string (q.nextChar memory)
        else if c = (char '"').toNat then .ok (string, p)
        else consumeCharacters fuel (decodeUTF8 memory c string) q

def consumeStringRaw (p : JSONParser) : Except Failure (StringBuilder × JSONParser) :=
  if p.peek memory ≠ char '"' then reportError .unexpectedToken 1 p
  else
    let p := p.nextChar memory
    if ¬ p.canConsume 1 then reportError .syntaxError 0 p
    else consumeCharacters memory (p.rest.length + 2) { pos := p } p

/-! ### Numbers and literals -/

def isAsciiDigit (c : Byte) : Bool := 48 ≤ c.toNat ∧ c.toNat ≤ 57

/-- Reads as many digits as there are. -/
def readInt (allowLeadingZeros : Bool) (p : JSONParser) : Bool × JSONParser :=
  let len := (p.rest.takeWhile isAsciiDigit).length
  let isRead := len ≠ 0 ∧ ¬ (¬ allowLeadingZeros ∧ len > 1 ∧ p.peek memory = char '0')
  (isRead, p.nextNChars memory len)

def readFraction (p : JSONParser) : Except Failure JSONParser :=
  if p.peek memory = char '.' then
    if ¬ p.canConsume 1 then reportError .syntaxError 1 p
    else
      match readInt memory true (p.nextChar memory) with
      | (true, p) => .ok p
      | (false, p) => reportError .syntaxError 1 p
  else .ok p

def readExponent (p : JSONParser) : Except Failure JSONParser :=
  if p.peek memory = char 'e' ∨ p.peek memory = char 'E' then
    let p := p.nextChar memory
    let p := if p.peek memory = char '-' ∨ p.peek memory = char '+' then p.nextChar memory else p
    match readInt memory true p with
    | (true, p) => .ok p
    | (false, p) => reportError .syntaxError 1 p
  else .ok p

variable {δ : Type} (doubles : Doubles δ) (options : Options)

/-- `StringToDouble`, and `IsFinite` of what it gives. -/
def stringToDouble (input : Text) : Option δ :=
  let (output, erange, consumed) := doubles.strtod input
  if ¬ erange ∧ input ≠ [] ∧ consumed = input.length ∧
      (∀ c ∈ input.head?, ¬ localIsWhitespace c) ∧ doubles.isFinite output then some output
  else none

/-- A number that is out of range is not reported. -/
def numberValue (text : Text) : Except Failure (Value δ) :=
  match stringToInt text with
  | some n => .ok (.integer (BitVec.ofInt 32 n))
  | none =>
    match stringToDouble doubles text with
    | some d => .ok (.double d)
    | none => .error (.reported ⟨.noError, 0, 0⟩)

def endsNumber (token : Token) : Bool :=
  token = .objectEnd ∨ token = .arrayEnd ∨ token = .listSeparator ∨ token = .endOfInput

/-- Looks at the next token, and goes back to the last character of the number. The lines that
were counted on the way stay counted. -/
def consumeNumber (p : JSONParser) : Except Failure (Value δ × JSONParser) := do
  let q := if p.peek memory = char '-' then p.nextChar memory else p
  match readInt memory false q with
  | (false, q) => reportError .syntaxError 1 q
  | (true, q) =>
    let q ← readFraction memory q
    let q ← readExponent memory q
    let (token, t) := q.getNextToken memory
    if endsNumber token then
      let value ← numberValue doubles (p.piece memory (q.index - p.index))
      let exit := p.nextNChars memory (q.index - p.index - 1)
      .ok (value, { exit with lineNumber := t.lineNumber, indexLastLine := t.indexLastLine })
    else reportError .syntaxError 1 t

/-- One of the literals, whose last character is not asked for. -/
def consumeWord (word : Text) (value : Value δ) (p : JSONParser) :
    Except Failure (Value δ × JSONParser) :=
  if ¬ p.canConsume (word.length - 1) ∨ p.piece memory word.length ≠ word then
    reportError .syntaxError 1 p
  else .ok (value, p.nextNChars memory (word.length - 1))

def consumeLiteral (p : JSONParser) : Except Failure (Value δ × JSONParser) :=
  if p.peek memory = char 't' then consumeWord memory (ascii "true") (.boolean true) p
  else if p.peek memory = char 'f' then consumeWord memory (ascii "false") (.boolean false) p
  else if p.peek memory = char 'n' then consumeWord memory (ascii "null") .null p
  else reportError .unexpectedToken 1 p

/-! ### Values -/

def consumeString (p : JSONParser) : Except Failure (Value δ × JSONParser) := do
  let (string, p) ← consumeStringRaw memory p
  .ok (.string (string.asString memory), p)

mutual

def parseToken : ℕ → ℕ → Token → JSONParser → Except Failure (Value δ × JSONParser)
  | 0, _, _, _ => .error .outOfFuel
  | fuel + 1, depth, token, p =>
    match token with
    | .objectBegin => consumeDictionary fuel depth p
    | .arrayBegin => consumeList fuel depth p
    | .string => consumeString memory p
    | .number => consumeNumber memory doubles p
    | .boolTrue | .boolFalse | .null => consumeLiteral memory p
    | _ => reportError .unexpectedToken 1 p

def consumeDictionary : ℕ → ℕ → JSONParser → Except Failure (Value δ × JSONParser)
  | 0, _, _ => .error .outOfFuel
  | fuel + 1, depth, p =>
    if p.peek memory ≠ char '\x7b' then reportError .unexpectedToken 1 p
    else if kStackMaxDepth ≤ depth + 1 then reportError .tooMuchNesting 1 p
    else
      let (token, p) := (p.nextChar memory).getNextToken memory
      consumeEntries fuel (depth + 1) [] token p

/-- The loop of `ConsumeDictionary`. -/
def consumeEntries : ℕ → ℕ → List (Text × Value δ) → Token → JSONParser →
    Except Failure (Value δ × JSONParser)
  | 0, _, _, _, _ => .error .outOfFuel
  | fuel + 1, depth, dict, token, p =>
    if token = .objectEnd then .ok (.dictionary dict, p)
    else if token ≠ .string then reportError .unquotedDictionaryKey 1 p
    else do
      let (key, p) ← consumeStringRaw memory p
      let (token, p) := (p.nextChar memory).getNextToken memory
      if token ≠ .objectPairSeparator then reportError .syntaxError 1 p
      else
        let (token, p) := (p.nextChar memory).getNextToken memory
        let (value, p) ← parseToken fuel depth token p
        let dict := setWithoutPathExpansion (key.asString memory) value dict
        let (token, p) := (p.nextChar memory).getNextToken memory
        if token = .listSeparator then
          let (token, p) := (p.nextChar memory).getNextToken memory
          if token = .objectEnd ∧ ¬ options.allowTrailingCommas then
            reportError .trailingComma 1 p
          else consumeEntries fuel depth dict token p
        else if token ≠ .objectEnd then reportError .syntaxError 0 p
        else consumeEntries fuel depth dict token p

def consumeList : ℕ → ℕ → JSONParser → Except Failure (Value δ × JSONParser)
  | 0, _, _ => .error .outOfFuel
  | fuel + 1, depth, p =>
    if p.peek memory ≠ char '[' then reportError .unexpectedToken 1 p
    else if kStackMaxDepth ≤ depth + 1 then reportError .tooMuchNesting 1 p
    else
      let (token, p) := (p.nextChar memory).getNextToken memory
      consumeItems fuel (depth + 1) [] token p

/-- The loop of `ConsumeList`. -/
def consumeItems : ℕ → ℕ → List (Value δ) → Token → JSONParser →
    Except Failure (Value δ × JSONParser)
  | 0, _, _, _, _ => .error .outOfFuel
  | fuel + 1, depth, list, token, p =>
    if token = .arrayEnd then .ok (.list list, p)
    else do
      let (item, p) ← parseToken fuel depth token p
      let list := list ++ [item]
      let (token, p) := (p.nextChar memory).getNextToken memory
      if token = .listSeparator then
        let (token, p) := (p.nextChar memory).getNextToken memory
        if token = .arrayEnd ∧ ¬ options.allowTrailingCommas then
          reportError .trailingComma 1 p
        else consumeItems fuel depth list token p
      else if token ≠ .arrayEnd then reportError .syntaxError 1 p
      else consumeItems fuel depth list token p

end

/-- The byte order mark of UTF-8. -/
def byteOrderMark : Text := [0xEF, 0xBB, 0xBF]

end JSONParser

open JSONParser in
/-- `JSONParser::Parse`. Behind a copy of the input there is a null character. -/
def parse {δ : Type} (doubles : Doubles δ) (options : Options) (memory : ℕ → Byte)
    (input : Text) : Except Failure (Value δ) := do
  let memory := if options.detachableChildren then memory else fun _ => 0
  let start : JSONParser := { rest := input }
  let p := if start.canConsume 3 ∧ start.piece memory 3 = byteOrderMark then
    start.nextNChars memory 3 else start
  let (token, p) := p.getNextToken memory
  let (root, p) ← parseToken memory doubles options (3 * input.length + 1) 0 token p
  let (token, p) := p.getNextToken memory
  if token = .endOfInput then .ok root
  else if ¬ p.canConsume 1 then reportError .unexpectedDataAfterRoot 1 p
  else
    let (token, p) := (p.nextChar memory).getNextToken memory
    if token ≠ .endOfInput then reportError .unexpectedDataAfterRoot 1 p else .ok root

end Chromium.Json
