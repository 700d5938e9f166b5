import Chromium.JsonParser

/-!
# JSON texts

The texts of JSON as trees: white space and comments stand where they were written, and strings
are cut into the parts that stand for one character each. Beside the forms that the grammar
allows there are those that only the parser takes, and `Strict` leaves them out.
-/
namespace Chromium.Json

open WireFormat StringNumber JSONParser

/-! ### White space and comments -/

inductive Blank
  | space (c : Byte)
  | line (body : Text) (newline : Byte)
  | block (body : Text)

namespace Blank

def text : Blank → Text
  | space c => [c]
  | line body newline => char '/' :: char '/' :: (body ++ [newline])
  | block body => char '/' :: char '*' :: (body ++ [char '*', char '/'])

def Valid : Blank → Prop
  | space c => isBlank c = true
  | line body newline => (∀ c ∈ body, isNewline c = false) ∧ isNewline newline = true
  | block body => ¬ [char '*', char '/'] <:+: body

end Blank

/-- What stands before a token. A slash alone is passed too when a token follows it. -/
structure Gap where
  blanks : List Blank
  slash : Bool := false

namespace Gap

def text (g : Gap) : Text := g.blanks.flatMap Blank.text ++ if g.slash then [char '/'] else []

def Valid (g : Gap) : Prop := ∀ b ∈ g.blanks, b.Valid

def Strict (g : Gap) : Prop := g.slash = false

end Gap

/-- How the input can end behind white space and comments. -/
inductive Ending
  | plain
  | line (body : Text)
  | slash
  | block (body : Text)

namespace Ending

def text : Ending → Text
  | plain => []
  | line body => char '/' :: char '/' :: body
  | slash => [char '/']
  | block body => char '/' :: char '*' :: body

def Valid : Ending → Prop
  | line body => ∀ c ∈ body, isNewline c = false
  | block body => ¬ [char '*', char '/'] <:+: body
  | _ => True

/-- A comment up to the end of the line may also end with the input. -/
def Strict : Ending → Prop
  | plain | line _ => True
  | _ => False

end Ending

/-! ### Strings -/

/-- A part of a string that stands for one character. -/
inductive Piece
  | plain (c : ℕ)
  | escape (letter : Byte)
  | byte (digits : Text)
  | unit (digits : Text)
  | pair (high low : Text)

namespace Piece

def text : Piece → Text
  | plain c => IcuUtf.append c
  | escape letter => [char '\\', letter]
  | byte digits => char '\\' :: char 'x' :: digits
  | unit digits => char '\\' :: char 'u' :: digits
  | pair high low => char '\\' :: char 'u' :: (high ++ (char '\\' :: char 'u' :: low))

/-- The number that hexadecimal digits stand for, as an unsigned number. -/
def number (digits : Text) : Option ℕ := (hexStringToInt digits).map unsigned

def Valid : Piece → Prop
  | plain c => IcuUtf.isValidCharacter c = true ∧ c ≠ (char '"').toNat ∧ c ≠ (char '\\').toNat
  | escape letter => (simpleEscape letter).isSome = true
  | byte digits => digits.length = 2 ∧ (hexStringToInt digits).isSome = true
  | unit digits => digits.length = 4 ∧
      ∃ n, number digits = some n ∧ IcuUtf.isSurrogate n = false
  | pair high low => high.length = 4 ∧ low.length = 4 ∧
      (∃ n, number high = some n ∧ IcuUtf.isSurrogate n = true ∧
        IcuUtf.isSurrogateLead n = true) ∧
      ∃ n, number low = some n ∧ IcuUtf.isTrail16 n = true

def isHexDigit (c : Byte) : Bool := (charToDigit 16 c).isSome

/-- `H` in the grammar is a hexadecimal digit. -/
def Strict : Piece → Prop
  | byte digits | unit digits => ∀ c ∈ digits, isHexDigit c = true
  | pair high low => (∀ c ∈ high, isHexDigit c = true) ∧ ∀ c ∈ low, isHexDigit c = true
  | _ => True

end Piece

/-! ### Numbers -/

structure Number where
  minus : Bool
  int : Text
  fraction : Option Text
  exponent : Option (Byte × Option Byte × Text)

namespace Number

def signText (minus : Bool) : Text := if minus then [char '-'] else []

def fractionText : Option Text → Text
  | none => []
  | some digits => char '.' :: digits

def exponentText : Option (Byte × Option Byte × Text) → Text
  | none => []
  | some (mark, sign, digits) => mark :: (sign.toList ++ digits)

def text (n : Number) : Text :=
  signText n.minus ++ (n.int ++ (fractionText n.fraction ++ exponentText n.exponent))

def Digits (s : Text) : Prop := s ≠ [] ∧ ∀ c ∈ s, isAsciiDigit c = true

/-- The numbers of RFC 4627. -/
structure Valid (n : Number) : Prop where
  int_digits : Digits n.int
  int_zero : n.int.head? = some (char '0') → n.int.length = 1
  fraction_digits : ∀ digits ∈ n.fraction, Digits digits
  exponent_digits : ∀ e ∈ n.exponent, (e.1 = char 'e' ∨ e.1 = char 'E') ∧
    (∀ sign ∈ e.2.1, sign = char '-' ∨ sign = char '+') ∧ Digits e.2.2

end Number

/-! ### Values -/

mutual

inductive Tree
  | null
  | boolean (value : Bool)
  | number (n : Number)
  | string (pieces : List Piece)
  | list (gap : Gap) (items : Items)
  | dictionary (gap : Gap) (members : Members)

/-- Items with the gaps behind them. A comma before the end of the list is trailing. -/
inductive Items
  | nil
  | last (item : Tree) (gap : Gap)
  | cons (item : Tree) (gap gap' : Gap) (items : Items)

inductive Members
  | nil
  | last (key : List Piece) (gap gap' : Gap) (value : Tree) (gap'' : Gap)
  | cons (key : List Piece) (gap gap' : Gap) (value : Tree) (gap'' gap₃ : Gap)
      (members : Members)

end

/-- The characters between the quotes, and the quotes. -/
def stringText (pieces : List Piece) : Text :=
  char '"' :: (pieces.flatMap Piece.text ++ [char '"'])

def boolText (b : Bool) : Text := if b then ascii "true" else ascii "false"

mutual

def Tree.text : Tree → Text
  | .null => ascii "null"
  | .boolean b => boolText b
  | .number n => n.text
  | .string pieces => stringText pieces
  | .list gap items => char '[' :: (gap.text ++ (items.text ++ [char ']']))
  | .dictionary gap members => char '\x7b' :: (gap.text ++ (members.text ++ [char '\x7d']))

def Items.text : Items → Text
  | .nil => []
  | .last item gap => item.text ++ gap.text
  | .cons item gap gap' items => item.text ++ (gap.text ++ (char ',' :: (gap'.text ++ items.text)))

def Members.text : Members → Text
  | .nil => []
  | .last key gap gap' value gap'' =>
    stringText key ++ (gap.text ++ (char ':' :: (gap'.text ++ (value.text ++ gap''.text))))
  | .cons key gap gap' value gap'' gap₃ members =>
    stringText key ++ (gap.text ++ (char ':' :: (gap'.text ++ (value.text ++ (gap''.text ++
      (char ',' :: (gap₃.text ++ members.text)))))))

end

mutual

/-- How deep lists and dictionaries are nested. -/
def Tree.depth : Tree → ℕ
  | .list _ items => items.depth + 1
  | .dictionary _ members => members.depth + 1
  | _ => 0

def Items.depth : Items → ℕ
  | .nil => 0
  | .last item _ => item.depth
  | .cons item _ _ items => max item.depth items.depth

def Members.depth : Members → ℕ
  | .nil => 0
  | .last _ _ _ value _ => value.depth
  | .cons _ _ _ value _ _ members => max value.depth members.depth

end

mutual

def Tree.Valid (options : Options) : Tree → Prop
  | .null | .boolean _ => True
  | .number n => n.Valid
  | .string pieces => ∀ p ∈ pieces, p.Valid
  | .list gap items => gap.Valid ∧ items.Valid options
  | .dictionary gap members => gap.Valid ∧ members.Valid options

def Items.Valid (options : Options) : Items → Prop
  | .nil => True
  | .last item gap => item.Valid options ∧ gap.Valid
  | .cons item gap gap' items => item.Valid options ∧ gap.Valid ∧ gap'.Valid ∧
      items.Valid options ∧ (items = .nil → options.allowTrailingCommas = true)

def Members.Valid (options : Options) : Members → Prop
  | .nil => True
  | .last key gap gap' value gap'' => (∀ p ∈ key, p.Valid) ∧ gap.Valid ∧ gap'.Valid ∧
      value.Valid options ∧ gap''.Valid
  | .cons key gap gap' value gap'' gap₃ members => (∀ p ∈ key, p.Valid) ∧ gap.Valid ∧
      gap'.Valid ∧ value.Valid options ∧ gap''.Valid ∧ gap₃.Valid ∧ members.Valid options ∧
      (members = .nil → options.allowTrailingCommas = true)

end

/-! ### What a text stands for -/

/-- How the parts of strings and the numbers are read. -/
structure Reading (δ : Type) where
  piece : Piece → Text
  number : Number → Option (Value δ)

variable {δ : Type}

mutual

def Tree.value (reading : Reading δ) : Tree → Option (Value δ)
  | .null => some .null
  | .boolean b => some (.boolean b)
  | .number n => reading.number n
  | .string pieces => some (.string (pieces.flatMap reading.piece))
  | .list _ items => (items.values reading).map .list
  | .dictionary _ members => (members.entries reading []).map .dictionary

def Items.values (reading : Reading δ) : Items → Option (List (Value δ))
  | .nil => some []
  | .last item _ => (item.value reading).map fun v => [v]
  | .cons item _ _ items => do
    let v ← item.value reading
    let vs ← items.values reading
    some (v :: vs)

/-- The entries are set one after the other, so that the last one of a key is kept. -/
def Members.entries (reading : Reading δ) : List (Text × Value δ) → Members →
    Option (List (Text × Value δ))
  | dict, .nil => some dict
  | dict, .last key _ _ value _ =>
    (value.value reading).map fun v =>
      setWithoutPathExpansion (key.flatMap reading.piece) v dict
  | dict, .cons key _ _ value _ _ members => do
    let v ← value.value reading
    members.entries reading (setWithoutPathExpansion (key.flatMap reading.piece) v dict)

end

/-- A text that is to be parsed. -/
structure Document where
  mark : Bool
  gap : Gap
  tree : Tree
  blanks : List Blank
  ending : Ending

namespace Document

/-- What stands behind the value. -/
def tail (d : Document) : Text := d.blanks.flatMap Blank.text ++ d.ending.text

def text (d : Document) : Text :=
  (if d.mark then byteOrderMark else []) ++ (d.gap.text ++ (d.tree.text ++ d.tail))

structure Valid (options : Options) (d : Document) : Prop where
  gap : d.gap.Valid
  tree : d.tree.Valid options
  depth : d.tree.depth < kStackMaxDepth
  blanks : ∀ b ∈ d.blanks, b.Valid
  ending : d.ending.Valid

end Document

/-- As the parser reads them. -/
def Piece.read : Piece → Text
  | plain c => IcuUtf.append c
  | escape letter => (simpleEscape letter).toList
  | byte digits =>
    match hexStringToInt digits with
    | some n => if n < 0x80 then [BitVec.ofInt 8 n] else IcuUtf.append n.toNat
    | none => []
  | unit digits => (number digits).elim [] codeUnits
  | pair high low =>
    match number high, number low with
    | some h, some l => codeUnits (IcuUtf.getSupplementary h l)
    | _, _ => []

def Number.read (doubles : Doubles δ) (n : Number) : Option (Value δ) :=
  (numberValue doubles n.text).toOption

def parserReading (doubles : Doubles δ) : Reading δ where
  piece := Piece.read
  number := Number.read doubles

end Chromium.Json
