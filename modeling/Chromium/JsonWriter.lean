import Chromium.JsonParserAccepts
import Mathlib.Data.List.TakeWhile

/-!
# The JSON writer

`base/json/json_writer.cc` and `base/json/string_escape.cc`: a value is written as JSON, with
every character that is not printable ASCII as an escape of UTF-16. What is written is read
again as the same value when no string and no key holds a null character, since the parser drops
the null character that `\u0000` stands for.
-/
namespace Chromium.Json

open WireFormat StringNumber JSONParser

/-- `kPrettyPrintLineEnding` -/
def kPrettyPrintLineEnding (windows : Bool) : Text :=
  if windows then [char '\r', char '\n'] else [char '\n']

/-- The options of `JSONWriter::WriteWithOptions`, and the platform. -/
structure WriterOptions where
  doNotEscape : Bool := false
  omitBinaryValues : Bool := false
  omitDoubleTypePreservation : Bool := false
  prettyPrint : Bool := false
  windows : Bool := false

/-- What the writer uses of floating point numbers: `DoubleToString`, and the number as an
`int64` when it is one. -/
structure DoubleFormat (δ : Type) where
  doubleToString : δ → Text
  toInt64 : δ → Option ℤ

/-- `JsonSingleEscapeChar` -/
def jsonSingleEscapeChar (c : ℕ) : Option Text :=
  if c = 8 then some (ascii "\\b")
  else if c = 12 then some (ascii "\\f")
  else if c = 10 then some (ascii "\\n")
  else if c = 13 then some (ascii "\\r")
  else if c = 9 then some (ascii "\\t")
  else if c = (char '\\').toNat then some (ascii "\\\\")
  else if c = (char '"').toNat then some (ascii "\\\"")
  else none

/-- One round of the loop of `JsonDoubleQuoteT`, for a unit of 8 or 16 bits. -/
def quoteUnit (c : ℕ) : Text :=
  match jsonSingleEscapeChar c with
  | some escape => escape
  | none =>
    if c < 32 ∨ c > 126 ∨ c = (char '<').toNat ∨ c = (char '>').toNat then
      char '\\' :: char 'u' :: formatHex4 c
    else [BitVec.ofNat 8 c]

/-- `JsonDoubleQuote` with quotes around the string. -/
def jsonDoubleQuote (str : List ℕ) : Text := char '"' :: (str.flatMap quoteUnit ++ [char '"'])

def indentLine (depth : ℕ) : Text := List.replicate (depth * 3) (char ' ')

variable {δ : Type} (format : DoubleFormat δ) (writer : WriterOptions)

/-- A double is written with a point or an exponent, and with a digit before the point. -/
def realText (value : δ) : Text :=
  let real := format.doubleToString value
  let real := if real.all fun c => c ≠ char '.' ∧ c ≠ char 'e' ∧ c ≠ char 'E' then
    real ++ ascii ".0" else real
  if real.head? = some (char '.') then char '0' :: real
  else if real.take 2 = ascii "-." then ascii "-0" ++ real.drop 1
  else real

def doubleText (value : δ) : Text :=
  ((if writer.omitDoubleTypePreservation then format.toInt64 value else none).map formatInt).getD
    (realText format value)

/-- A text that is written for reading only. -/
def pretty (text : Text) : Text := if writer.prettyPrint then text else []

mutual

/-- `JSONWriter::BuildJSONString` -/
def buildJSONString : ℕ → Value δ → Text
  | _, .null => ascii "null"
  | _, .boolean value => boolText value
  | _, .integer value => formatInt value.toInt
  | _, .double value => doubleText format writer value
  | _, .string value =>
    if writer.doNotEscape then jsonDoubleQuote (value.map BitVec.toNat)
    else jsonDoubleQuote (IcuUtf.utf8ToUtf16 value)
  | _, .binary _ => []
  | depth, .list items =>
    ascii "[" ++ pretty writer (ascii " ") ++ buildItems depth true items ++
      pretty writer (ascii " ") ++ ascii "]"
  | depth, .dictionary entries =>
    ascii "\x7b" ++ pretty writer (kPrettyPrintLineEnding writer.windows) ++
      buildEntries depth true entries ++
      pretty writer (kPrettyPrintLineEnding writer.windows ++ indentLine depth) ++ ascii "\x7d"

/-- The loop over a list. The first item has no comma before it, written or not. -/
def buildItems : ℕ → Bool → List (Value δ) → Text
  | _, _, [] => []
  | depth, first, value :: items =>
    (match value, writer.omitBinaryValues with
      | .binary _, true => []
      | _, _ => (if first then [] else ascii "," ++ pretty writer (ascii " ")) ++
        buildJSONString depth value) ++ buildItems depth false items

/-- The loop over a dictionary. -/
def buildEntries : ℕ → Bool → List (Text × Value δ) → Text
  | _, _, [] => []
  | depth, first, (key, value) :: entries =>
    (match value, writer.omitBinaryValues with
      | .binary _, true => []
      | _, _ =>
        (if first then []
          else ascii "," ++ pretty writer (kPrettyPrintLineEnding writer.windows)) ++
        (pretty writer (indentLine (depth + 1)) ++
          (jsonDoubleQuote (IcuUtf.utf8ToUtf16 key) ++
            ((if writer.prettyPrint then ascii ": " else ascii ":") ++
              buildJSONString (depth + 1) value)))) ++ buildEntries depth false entries

end

/-- `JSONWriter::WriteWithOptions` -/
def writeWithOptions (node : Value δ) : Text :=
  buildJSONString format writer 0 node ++ pretty writer (kPrettyPrintLineEnding writer.windows)

/-! ### Strings -/

/-- A string of UTF-8. -/
def IsUtf8 (s : Text) : Prop :=
  ∃ cs : List ℕ, (∀ c ∈ cs, IcuUtf.isValidCodepoint c = true) ∧ s = cs.flatMap IcuUtf.append

/-- A string without its null characters. -/
def dropNull (s : Text) : Text := s.filter fun b => b ≠ 0

lemma append_ne_zero {c : ℕ} (hc : c ≠ 0) (hvalid : IcuUtf.isValidCodepoint c = true) :
    ∀ b ∈ IcuUtf.append c, b ≠ 0 := by
  rw [IcuUtf.isValidCodepoint_iff] at hvalid
  have hne : ∀ n, 0 < n → n < 256 → (BitVec.ofNat 8 n) ≠ 0 := by
    intro n hpos hlt hzero
    have hval := congrArg BitVec.toNat hzero
    rw [BitVec.toNat_ofNat, Nat.mod_eq_of_lt hlt] at hval
    exact absurd hval (by simp; omega)
  intro b hb
  rcases Nat.lt_or_ge c 0x80 with hone | hone
  · rw [IcuUtf.append_one hone, List.mem_singleton] at hb
    rw [hb]
    exact hne _ (by omega) (by omega)
  rcases Nat.lt_or_ge c 0x800 with htwo | htwo
  · rw [IcuUtf.append_two hone htwo] at hb
    simp only [List.mem_cons, List.not_mem_nil, or_false] at hb
    rcases hb with rfl | rfl <;> exact hne _ (by omega) (by omega)
  rcases Nat.lt_or_ge c 0x10000 with hthree | hthree
  · rw [IcuUtf.append_three htwo hthree] at hb
    simp only [List.mem_cons, List.not_mem_nil, or_false] at hb
    rcases hb with rfl | rfl | rfl <;> exact hne _ (by omega) (by omega)
  · rw [IcuUtf.append_four hthree (by omega)] at hb
    simp only [List.mem_cons, List.not_mem_nil, or_false] at hb
    rcases hb with rfl | rfl | rfl | rfl <;> exact hne _ (by omega) (by omega)

/-- Only the null character is lost between the code units and the string. -/
lemma codeUnits_eq {c : ℕ} (hvalid : IcuUtf.isValidCodepoint c = true) :
    codeUnits c = dropNull (IcuUtf.append c) := by
  by_cases hc : c = 0
  · subst hc
    rfl
  · have hne := append_ne_zero hc hvalid
    rw [codeUnits, dropNull, List.takeWhile_eq_self_iff.mpr (by simpa using hne),
      List.filter_eq_self.mpr (by simpa using hne)]

lemma unsigned_natCast {n : ℕ} (h : n < 2 ^ 32) : unsigned n = n := by
  rw [unsigned]
  omega

lemma number_formatHex4 {n : ℕ} (h : n < 65536) : Piece.number (formatHex4 n) = some n := by
  rw [Piece.number, hexStringToInt_formatHex4 h, Option.map_some, unsigned_natCast (by omega)]

/-- What is written for one character is one part of a string. -/
lemma exists_piece {c : ℕ} (hvalid : IcuUtf.isValidCodepoint c = true) :
    ∃ piece : Piece, piece.Valid ∧ piece.text = (IcuUtf.append16 c).flatMap quoteUnit ∧
      piece.read = dropNull (IcuUtf.append c) := by
  have hbounds := (IcuUtf.isValidCodepoint_iff c).mp hvalid
  rcases Nat.lt_or_ge c 0x10000 with hlow | hhigh
  · rw [IcuUtf.append16_low hlow, List.flatMap_singleton, quoteUnit]
    cases hescape : jsonSingleEscapeChar c with
    | some escape =>
      rw [jsonSingleEscapeChar] at hescape
      dsimp only
      split_ifs at hescape with h8 h12 h10 h13 h9 hslash hquote <;>
        obtain rfl := Option.some_injective _ hescape <;> subst c
      · exact ⟨.escape (char 'b'), rfl, rfl, rfl⟩
      · exact ⟨.escape (char 'f'), rfl, rfl, rfl⟩
      · exact ⟨.escape (char 'n'), rfl, rfl, rfl⟩
      · exact ⟨.escape (char 'r'), rfl, rfl, rfl⟩
      · exact ⟨.escape (char 't'), rfl, rfl, rfl⟩
      · exact ⟨.escape (char '\\'), rfl, rfl, rfl⟩
      · exact ⟨.escape (char '"'), rfl, rfl, rfl⟩
    | none =>
      dsimp only
      split_ifs with hprint
      · have hsingle : IcuUtf.isSurrogate c = false := by
          rw [Bool.eq_false_iff, Ne, IcuUtf.isSurrogate_iff (by omega)]
          omega
        refine ⟨.unit (formatHex4 c), ⟨rfl, c, number_formatHex4 hlow, hsingle⟩, rfl, ?_⟩
        rw [Piece.read, number_formatHex4 hlow, ← codeUnits_eq hvalid]
        rfl
      · have hcharacter : IcuUtf.isValidCharacter c = true := by
          rw [IcuUtf.isValidCharacter, decide_eq_true_iff]
          omega
        have hne : c ≠ (char '"').toNat ∧ c ≠ (char '\\').toNat := by
          rw [jsonSingleEscapeChar] at hescape
          split_ifs at hescape with _ _ _ _ _ hslash hquote
          exact ⟨hquote, hslash⟩
        refine ⟨.plain c, ⟨hcharacter, hne⟩, IcuUtf.append_one (by omega), ?_⟩
        have hzero := append_ne_zero (c := c) (by omega) hvalid
        rw [Piece.read, dropNull, List.filter_eq_self.mpr (by simpa using hzero)]
  · obtain ⟨lead, trail, hpair, hlead, htrail, hvalue⟩ := IcuUtf.append16_high hhigh (by omega)
    have hquote : ∀ n, 0xD800 ≤ n → n < 0xE000 →
        quoteUnit n = char '\\' :: char 'u' :: formatHex4 n := by
      intro n hn _
      have hnone : jsonSingleEscapeChar n = none := by
        rw [jsonSingleEscapeChar]
        have hslash : (char '\\').toNat = 92 := rfl
        have hquote : (char '"').toNat = 34 := rfl
        rw [if_neg (by omega), if_neg (by omega), if_neg (by omega), if_neg (by omega),
          if_neg (by omega), if_neg (by omega), if_neg (by omega)]
      rw [quoteUnit, hnone]
      exact if_pos (.inr (.inl (by omega)))
    refine ⟨.pair (formatHex4 lead) (formatHex4 trail), ⟨rfl, rfl, ?_, ?_⟩, ?_, ?_⟩
    · exact ⟨lead, number_formatHex4 (by omega),
        (IcuUtf.isSurrogate_iff (by omega)).mpr (by omega),
        (IcuUtf.isSurrogateLead_iff (by omega) (by omega)).mpr (by omega)⟩
    · exact ⟨trail, number_formatHex4 (by omega), (IcuUtf.isTrail16_iff (by omega)).mpr (by omega)⟩
    · rw [hpair]
      simp [Piece.text, hquote lead (by omega) (by omega), hquote trail (by omega) (by omega)]
    · simp only [Piece.read, number_formatHex4 (show lead < 65536 by omega),
        number_formatHex4 (show trail < 65536 by omega)]
      rw [hvalue, codeUnits_eq hvalid]

lemma exists_pieces {s : Text} (hs : IsUtf8 s) :
    ∃ pieces : List Piece, (∀ x ∈ pieces, x.Valid) ∧
      jsonDoubleQuote (IcuUtf.utf8ToUtf16 s) = stringText pieces ∧
      pieces.flatMap Piece.read = dropNull s := by
  obtain ⟨cs, hcs, rfl⟩ := hs
  rw [IcuUtf.utf8ToUtf16_append hcs, jsonDoubleQuote]
  induction cs with
  | nil => exact ⟨[], by simp, rfl, rfl⟩
  | cons c cs ih =>
    obtain ⟨piece, hvalid, htext, hread⟩ := exists_piece (hcs c (by simp))
    obtain ⟨pieces, hpieces, hquote, hreads⟩ := ih fun c' hc' => hcs c' (by simp [hc'])
    refine ⟨piece :: pieces, ?_, ?_, ?_⟩
    · intro x hx
      rcases List.mem_cons.mp hx with rfl | hx
      · exact hvalid
      · exact hpieces x hx
    · rw [stringText, List.cons_inj_right] at hquote
      rw [stringText, List.flatMap_cons, List.flatMap_append, List.flatMap_cons, List.append_assoc,
        hquote, htext, List.append_assoc]
    · rw [List.flatMap_cons, List.flatMap_cons, hread, hreads, dropNull, dropNull, dropNull,
        List.filter_append]

/-! ### Numbers -/

lemma isAsciiDigit_digit {d : ℕ} (h : d < 10) : isAsciiDigit (BitVec.ofNat 8 (48 + d)) = true := by
  have hbyte : (BitVec.ofNat 8 (48 + d)).toNat = 48 + d := by
    rw [BitVec.toNat_ofNat]
    omega
  rw [isAsciiDigit, hbyte, decide_eq_true_iff]
  omega

lemma exists_number (value : BitVec 32) (doubles : Doubles δ) :
    ∃ n : Number, n.Valid ∧ n.text = formatInt value.toInt ∧
      n.read doubles = some (.integer value) := by
  have hdigits : Number.Digits (decimal value.toInt.natAbs) := by
    rw [decimal_eq]
    obtain ⟨d, ds, hds, -⟩ := decimalDigits_head value.toInt.natAbs
    refine ⟨by simp [hds], ?_⟩
    intro c hc
    obtain ⟨d', hd', rfl⟩ := List.mem_map.mp hc
    exact isAsciiDigit_digit (decimalDigits_lt hd')
  have hzero : (decimal value.toInt.natAbs).head? = some (char '0') →
      (decimal value.toInt.natAbs).length = 1 := by
    rw [decimal_eq]
    obtain ⟨d, ds, hds, hhead⟩ := decimalDigits_head value.toInt.natAbs
    have hd : d < 10 := decimalDigits_lt (n := value.toInt.natAbs) (by simp [hds])
    intro hfirst
    rw [hds] at hfirst
    have hval : (BitVec.ofNat 8 (48 + d)).toNat = (char '0').toNat :=
      congrArg BitVec.toNat (by simpa using hfirst)
    have hd0 : d = 0 := by
      rw [BitVec.toNat_ofNat, show (char '0').toNat = 48 from rfl] at hval
      omega
    simp [hds, hhead hd0]
  have htext : (⟨decide (value.toInt < 0), decimal value.toInt.natAbs, none, none⟩ : Number).text =
      formatInt value.toInt := by
    rw [Number.text, formatInt]
    by_cases hneg : value.toInt < 0
    · simp [hneg, Number.signText, Number.fractionText, Number.exponentText]
    · simp [hneg, Number.signText, Number.fractionText, Number.exponentText]
  refine ⟨_, ⟨hdigits, hzero, by simp, by simp⟩, htext, ?_⟩
  have hlow : kint32min ≤ value.toInt := by
    have := value.le_toInt
    simpa [kint32min] using this
  have hhigh : value.toInt ≤ kint32max := by
    have := value.toInt_lt
    simp only [kint32max]
    omega
  rw [Number.read, htext, numberValue, stringToInt_formatInt hlow hhigh]
  simp only [BitVec.ofInt_toInt]
  rfl

/-! ### The text of a value -/

mutual

/-- How deep lists and dictionaries are nested. -/
def Value.depth : Value δ → ℕ
  | .list items => depthItems items + 1
  | .dictionary entries => depthEntries entries + 1
  | _ => 0

def depthItems : List (Value δ) → ℕ
  | [] => 0
  | value :: items => max value.depth (depthItems items)

def depthEntries : List (Text × Value δ) → ℕ
  | [] => 0
  | (_, value) :: entries => max value.depth (depthEntries entries)

end

mutual

/-- Values without doubles and binary data, whose strings are UTF-8. The keys of a dictionary are
in order. -/
def Value.Writable : Value δ → Prop
  | .null | .boolean _ | .integer _ => True
  | .double _ | .binary _ => False
  | .string s => IsUtf8 s
  | .list items => WritableItems items
  | .dictionary entries => (entries.map Prod.fst).Pairwise (· < ·) ∧ WritableEntries entries

def WritableItems : List (Value δ) → Prop
  | [] => True
  | value :: items => value.Writable ∧ WritableItems items

def WritableEntries : List (Text × Value δ) → Prop
  | [] => True
  | (key, value) :: entries => IsUtf8 key ∧ value.Writable ∧ WritableEntries entries

end

mutual

/-- A value whose strings and keys have lost their null characters. -/
def Value.dropNulls : Value δ → Value δ
  | .string s => .string (dropNull s)
  | .list items => .list (dropItems items)
  | .dictionary entries => .dictionary (dropEntries [] entries)
  | value => value

def dropItems : List (Value δ) → List (Value δ)
  | [] => []
  | value :: items => value.dropNulls :: dropItems items

/-- Keys that have become equal hold the last value. -/
def dropEntries : List (Text × Value δ) → List (Text × Value δ) → List (Text × Value δ)
  | dict, [] => dict
  | dict, (key, value) :: entries =>
    dropEntries (setWithoutPathExpansion (dropNull key) value.dropNulls dict) entries

end

/-- A gap of white space. -/
def spaces (s : Text) : Gap := ⟨s.map Blank.space, false⟩

@[simp]
lemma text_spaces (s : Text) : (spaces s).text = s := by
  simp only [Gap.text, spaces, List.flatMap_map, Blank.text, Bool.false_eq_true, if_false,
    List.append_nil]
  exact List.flatMap_singleton' s

lemma valid_spaces {s : Text} (h : ∀ c ∈ s, isBlank c = true) : (spaces s).Valid := by
  intro b hb
  obtain ⟨c, hc, rfl⟩ := List.mem_map.mp hb
  exact h c hc

lemma isBlank_lineEnding (windows : Bool) (depth : ℕ) :
    ∀ c ∈ kPrettyPrintLineEnding windows ++ indentLine depth, isBlank c = true := by
  intro c hc
  rcases List.mem_append.mp hc with hc | hc
  · have hall : ∀ c ∈ kPrettyPrintLineEnding windows, isBlank c = true := by
      cases windows <;> decide
    exact hall c hc
  · obtain ⟨-, rfl⟩ := List.mem_replicate.mp hc
    decide

lemma isBlank_pretty {s : Text} (h : ∀ c ∈ s, isBlank c = true) :
    ∀ c ∈ pretty writer s, isBlank c = true := by
  rw [pretty]
  split_ifs
  · exact h
  · simp

/-- The gap in front of a key, and in front of the brace. -/
def lineGap (depth : ℕ) : Text :=
  pretty writer (kPrettyPrintLineEnding writer.windows ++ indentLine depth)

lemma valid_lineGap (depth : ℕ) : (spaces (lineGap writer depth)).Valid :=
  valid_spaces (isBlank_pretty writer (isBlank_lineEnding _ _))

def spaceGap : Text := pretty writer (ascii " ")

lemma isBlank_spaceGap : ∀ c ∈ spaceGap writer, isBlank c = true :=
  isBlank_pretty writer (by decide)

lemma valid_spaceGap : (spaces (spaceGap writer)).Valid :=
  valid_spaces (isBlank_spaceGap writer)

lemma pretty_append (s t : Text) : pretty writer (s ++ t) = pretty writer s ++ pretty writer t := by
  rw [pretty, pretty, pretty]
  split_ifs <;> simp

variable (homit : writer.omitBinaryValues = false)

include homit in
lemma buildItems_cons (value : Value δ) (depth : ℕ) (first : Bool)
    (items : List (Value δ)) :
    buildItems format writer depth first (value :: items) =
      (if first then [] else char ',' :: spaceGap writer) ++
        (buildJSONString format writer depth value ++
          buildItems format writer depth false items) := by
  rw [buildItems]
  · simp only [List.append_assoc]
    rfl
  · intro data _ htrue
    rw [homit] at htrue
    cases htrue

include homit in
lemma buildEntries_cons (value : Value δ) (depth : ℕ) (first : Bool)
    (key : Text) (entries : List (Text × Value δ)) :
    buildEntries format writer depth first ((key, value) :: entries) =
      (if first then [] else char ',' :: pretty writer (kPrettyPrintLineEnding writer.windows)) ++
        (pretty writer (indentLine (depth + 1)) ++
          (jsonDoubleQuote (IcuUtf.utf8ToUtf16 key) ++ (char ':' :: (spaceGap writer ++
            (buildJSONString format writer (depth + 1) value ++
              buildEntries format writer depth false entries))))) := by
  have hcolon : (if writer.prettyPrint then ascii ": " else ascii ":") =
      char ':' :: spaceGap writer := by
    rw [spaceGap, pretty]
    split_ifs <;> rfl
  rw [buildEntries]
  · simp only [hcolon, List.append_assoc, List.cons_append]
    rfl
  · intro data _ htrue
    rw [homit] at htrue
    cases htrue

include homit in
/-- Behind the first item there is a comma. -/
lemma buildItems_false (value : Value δ) (items : List (Value δ)) (depth : ℕ) :
    buildItems format writer depth false (value :: items) =
      char ',' :: (spaceGap writer ++ buildItems format writer depth true (value :: items)) := by
  rw [buildItems_cons format writer homit, buildItems_cons format writer homit]
  rfl

include homit in
lemma buildEntries_false (entry : Text × Value δ) (entries : List (Text × Value δ)) (depth : ℕ) :
    buildEntries format writer depth false (entry :: entries) =
      char ',' :: (pretty writer (kPrettyPrintLineEnding writer.windows) ++
        buildEntries format writer depth true (entry :: entries)) := by
  rw [buildEntries_cons format writer homit, buildEntries_cons format writer homit]
  rfl

lemma valid_empty : (spaces []).Valid := valid_spaces (by simp)

section Tree

variable (options : Options) (doubles : Doubles δ)
variable (hwriter : writer.doNotEscape = false ∧ writer.omitBinaryValues = false)

include hwriter

mutual

/-- What is written is the text of a tree with the same value, but for the null characters. -/
theorem exists_tree (value : Value δ) (hvalue : value.Writable) (depth : ℕ) :
    ∃ t : Tree, t.Valid options ∧ t.text = buildJSONString format writer depth value ∧
      t.depth = value.depth ∧ t.value (parserReading doubles) = some value.dropNulls := by
  match value with
  | .null => exact ⟨.null, trivial, rfl, rfl, rfl⟩
  | .boolean b => exact ⟨.boolean b, trivial, rfl, rfl, rfl⟩
  | .integer n =>
    obtain ⟨number, hvalid, htext, hread⟩ := exists_number n doubles
    refine ⟨.number number, ?_, ?_, rfl, ?_⟩
    · rw [Tree.Valid]
      exact hvalid
    · rw [Tree.text, htext, buildJSONString]
    · rw [Tree.value]
      exact hread
  | .double d => simp [Value.Writable] at hvalue
  | .binary data => simp [Value.Writable] at hvalue
  | .string s =>
    rw [Value.Writable] at hvalue
    obtain ⟨pieces, hvalid, htext, hread⟩ := exists_pieces hvalue
    refine ⟨.string pieces, ?_, ?_, rfl, ?_⟩
    · rw [Tree.Valid]
      exact hvalid
    · rw [Tree.text, buildJSONString, hwriter.1, if_neg Bool.false_ne_true, htext]
    · rw [Tree.value, Value.dropNulls, ← hread]
      rfl
  | .list [] =>
    have hgap : (spaces (spaceGap writer ++ spaceGap writer)).Valid := by
      refine valid_spaces ?_
      intro c hc
      rcases List.mem_append.mp hc with hc | hc
      · exact isBlank_spaceGap writer c hc
      · exact isBlank_spaceGap writer c hc
    refine ⟨.list (spaces (spaceGap writer ++ spaceGap writer)) .nil, ?_, ?_, rfl, rfl⟩
    · rw [Tree.Valid]
      exact ⟨hgap, trivial⟩
    · simp only [Tree.text, Items.text, text_spaces, buildJSONString, buildItems, List.nil_append,
        List.append_nil, List.append_assoc]
      rfl
  | .list (item :: items) =>
    rw [Value.Writable] at hvalue
    obtain ⟨it, hvalid, htext, hdepth, hvalues⟩ :=
      exists_items (item :: items) hvalue (List.cons_ne_nil _ _) depth
    refine ⟨.list (spaces (spaceGap writer)) it, ?_, ?_, ?_, ?_⟩
    · rw [Tree.Valid]
      exact ⟨valid_spaceGap writer, hvalid.1⟩
    · rw [Tree.text, text_spaces, htext, buildJSONString]
      simp only [List.append_assoc]
      rfl
    · rw [Tree.depth, Value.depth, hdepth]
    · rw [Tree.value, hvalues, Value.dropNulls, Option.map_some]
  | .dictionary [] =>
    have hgap : (spaces (pretty writer (kPrettyPrintLineEnding writer.windows) ++
        lineGap writer depth)).Valid := by
      refine valid_spaces ?_
      intro c hc
      rcases List.mem_append.mp hc with hc | hc
      · have hline := isBlank_pretty writer (isBlank_lineEnding writer.windows 0)
        rw [indentLine, Nat.zero_mul, List.replicate_zero, List.append_nil] at hline
        exact hline c hc
      · exact isBlank_pretty writer (isBlank_lineEnding _ _) c hc
    refine ⟨.dictionary (spaces (pretty writer (kPrettyPrintLineEnding writer.windows) ++
      lineGap writer depth)) .nil, ?_, ?_, rfl, rfl⟩
    · rw [Tree.Valid]
      exact ⟨hgap, trivial⟩
    · simp only [Tree.text, Members.text, text_spaces, buildJSONString, buildEntries,
        List.nil_append, List.append_nil, List.append_assoc]
      rfl
  | .dictionary (entry :: entries) =>
    rw [Value.Writable] at hvalue
    obtain ⟨members, hvalid, htext, hdepth, hentries⟩ :=
      exists_members (entry :: entries) hvalue.2 (List.cons_ne_nil _ _) depth
    refine ⟨.dictionary (spaces (lineGap writer (depth + 1))) members, ?_, ?_, ?_, ?_⟩
    · rw [Tree.Valid]
      exact ⟨valid_lineGap writer _, hvalid.1⟩
    · rw [Tree.text, text_spaces, buildJSONString, lineGap, pretty_append]
      simp only [List.append_assoc]
      rw [← List.append_assoc (pretty writer (indentLine (depth + 1))), htext]
      simp only [lineGap, List.append_assoc]
      rfl
    · rw [Tree.depth, Value.depth, hdepth]
    · rw [Tree.value, hentries [], Value.dropNulls, Option.map_some]

theorem exists_items (items : List (Value δ)) (hitems : WritableItems items) (hne : items ≠ [])
    (depth : ℕ) :
    ∃ it : Items, (it.Valid options ∧ it ≠ .nil) ∧
      it.text = buildItems format writer depth true items ++ spaceGap writer ∧
      it.depth = depthItems items ∧ it.values (parserReading doubles) = some (dropItems items) := by
  match items with
  | [] => exact absurd rfl hne
  | [value] =>
    rw [WritableItems] at hitems
    obtain ⟨t, hvalid, htext, hdepth, hvalue⟩ := exists_tree value hitems.1 depth
    refine ⟨.last t (spaces (spaceGap writer)), ⟨?_, by simp⟩, ?_, ?_, ?_⟩
    · rw [Items.Valid]
      exact ⟨hvalid, valid_spaceGap writer⟩
    · rw [Items.text, text_spaces, htext, buildItems_cons format writer hwriter.2]
      simp [buildItems]
    · simp [Items.depth, depthItems, hdepth]
    · simp [Items.values, dropItems, hvalue]
  | value :: value' :: items =>
    rw [WritableItems] at hitems
    obtain ⟨t, hvalid, htext, hdepth, hvalue⟩ := exists_tree value hitems.1 depth
    obtain ⟨it, ⟨hvalid', hnil⟩, htext', hdepth', hvalues⟩ :=
      exists_items (value' :: items) hitems.2 (List.cons_ne_nil _ _) depth
    refine ⟨.cons t (spaces []) (spaces (spaceGap writer)) it, ⟨?_, by simp⟩, ?_, ?_, ?_⟩
    · rw [Items.Valid]
      exact ⟨hvalid, valid_empty, valid_spaceGap writer, hvalid', fun hnil' => absurd hnil' hnil⟩
    · rw [Items.text, text_spaces, text_spaces, htext, htext',
        buildItems_cons format writer hwriter.2 value, buildItems_false format writer hwriter.2]
      simp
    · rw [Items.depth, depthItems, hdepth, hdepth']
    · simp [Items.values, dropItems, hvalue, hvalues]

theorem exists_members (entries : List (Text × Value δ)) (hentries : WritableEntries entries)
    (hne : entries ≠ []) (depth : ℕ) :
    ∃ members : Members, (members.Valid options ∧ members ≠ .nil) ∧
      pretty writer (indentLine (depth + 1)) ++ members.text =
        buildEntries format writer depth true entries ++ lineGap writer depth ∧
      members.depth = depthEntries entries ∧
      ∀ dict, members.entries (parserReading doubles) dict = some (dropEntries dict entries) := by
  match entries with
  | [] => exact absurd rfl hne
  | [(key, value)] =>
    rw [WritableEntries] at hentries
    obtain ⟨pieces, hpieces, hquote, hread⟩ := exists_pieces hentries.1
    obtain ⟨t, hvalid, htext, hdepth, hvalue⟩ := exists_tree value hentries.2.1 (depth + 1)
    refine ⟨.last pieces (spaces []) (spaces (spaceGap writer)) t (spaces (lineGap writer depth)),
      ⟨?_, by simp⟩, ?_, ?_, ?_⟩
    · rw [Members.Valid]
      exact ⟨hpieces, valid_empty, valid_spaceGap writer, hvalid, valid_lineGap writer _⟩
    · rw [Members.text, text_spaces, text_spaces, text_spaces, htext,
        buildEntries_cons format writer hwriter.2, hquote]
      simp [buildEntries]
    · simp [Members.depth, depthEntries, hdepth]
    · intro dict
      have hkey : pieces.flatMap (parserReading doubles).piece = dropNull key := hread
      simp [Members.entries, dropEntries, hvalue, hkey]
  | (key, value) :: entry :: entries =>
    rw [WritableEntries] at hentries
    obtain ⟨pieces, hpieces, hquote, hread⟩ := exists_pieces hentries.1
    obtain ⟨t, hvalid, htext, hdepth, hvalue⟩ := exists_tree value hentries.2.1 (depth + 1)
    obtain ⟨members, ⟨hvalid', hnil⟩, htext', hdepth', hmembers⟩ :=
      exists_members (entry :: entries) hentries.2.2 (List.cons_ne_nil _ _) depth
    refine ⟨.cons pieces (spaces []) (spaces (spaceGap writer)) t (spaces [])
      (spaces (lineGap writer (depth + 1))) members, ⟨?_, by simp⟩, ?_, ?_, ?_⟩
    · rw [Members.Valid]
      exact ⟨hpieces, valid_empty, valid_spaceGap writer, hvalid, valid_empty,
        valid_lineGap writer _, hvalid', fun hnil' => absurd hnil' hnil⟩
    · have hgap : lineGap writer (depth + 1) ++ members.text =
          pretty writer (kPrettyPrintLineEnding writer.windows) ++
            (buildEntries format writer depth true (entry :: entries) ++ lineGap writer depth) := by
        rw [lineGap, pretty_append, List.append_assoc, htext']
      rw [Members.text, text_spaces, text_spaces, text_spaces, htext, hgap,
        buildEntries_cons format writer hwriter.2 value,
        buildEntries_false format writer hwriter.2, hquote]
      simp
    · rw [Members.depth, depthEntries, hdepth, hdepth']
    · intro dict
      have hkey : pieces.flatMap (parserReading doubles).piece = dropNull key := hread
      simp [Members.entries, dropEntries, hvalue, hkey, hmembers]

end

end Tree

/-! ### Null characters -/

mutual

/-- No string and no key holds a null character. -/
def Value.NullFree : Value δ → Prop
  | .string s => 0 ∉ s
  | .list items => NullFreeItems items
  | .dictionary entries => NullFreeEntries entries
  | _ => True

def NullFreeItems : List (Value δ) → Prop
  | [] => True
  | value :: items => value.NullFree ∧ NullFreeItems items

def NullFreeEntries : List (Text × Value δ) → Prop
  | [] => True
  | (key, value) :: entries => 0 ∉ key ∧ value.NullFree ∧ NullFreeEntries entries

end

lemma dropNull_eq_iff (s : Text) : dropNull s = s ↔ 0 ∉ s := by
  rw [dropNull, List.filter_eq_self]
  constructor
  · intro h hmem
    simpa using h 0 hmem
  · intro h b hb
    rw [decide_eq_true_iff]
    rintro rfl
    exact h hb

lemma zero_not_mem_dropNull (s : Text) : 0 ∉ dropNull s := by
  simp [dropNull]

lemma text_lt_asymm {s t : Text} (h : s < t) : ¬ t < s ∧ s ≠ t := by
  have hasymm : Std.Asymm (α := Byte) (· < ·) := ⟨fun a b hab hba => by bv_omega⟩
  have hnot : ¬ t < s := List.lt_asymm h
  refine ⟨hnot, ?_⟩
  rintro rfl
  exact hnot h

/-- A key behind all others is put at the end. -/
lemma setWithoutPathExpansion_end {α : Type*} {key : Text} {dict : List (Text × α)}
    (h : ∀ k ∈ dict.map Prod.fst, k < key) (value : α) :
    setWithoutPathExpansion key value dict = dict ++ [(key, value)] := by
  induction dict with
  | nil => rfl
  | cons entry dict ih =>
    obtain ⟨hnot, hne⟩ := text_lt_asymm (h entry.1 (by simp))
    have hrest := ih fun k hk => h k (by simp at hk ⊢; exact .inr hk)
    rw [setWithoutPathExpansion, if_neg hnot, if_neg (Ne.symm hne), hrest, List.cons_append]

lemma keys_setWithoutPathExpansion {α : Type*} {key k : Text} {value : α}
    {dict : List (Text × α)} (h : k ∈ (setWithoutPathExpansion key value dict).map Prod.fst) :
    k = key ∨ k ∈ dict.map Prod.fst := by
  induction dict with
  | nil => exact .inl (by simpa [setWithoutPathExpansion] using h)
  | cons entry dict ih =>
    rw [setWithoutPathExpansion] at h
    split_ifs at h with hlt heq
    · simpa using h
    · rcases List.mem_cons.mp h with rfl | h
      · exact .inl rfl
      · exact .inr (List.mem_cons_of_mem _ h)
    · rcases List.mem_cons.mp h with rfl | h
      · exact .inr (by simp)
      · rcases ih h with rfl | h
        · exact .inl rfl
        · exact .inr (List.mem_cons_of_mem _ h)

/-- Every key is an old one, or one without its null characters. -/
lemma keys_dropEntries {entries dict : List (Text × Value δ)} {k : Text}
    (h : k ∈ (dropEntries dict entries).map Prod.fst) :
    0 ∉ k ∨ k ∈ dict.map Prod.fst := by
  induction entries generalizing dict with
  | nil => exact .inr h
  | cons entry entries ih =>
    rw [dropEntries] at h
    rcases ih h with h | h
    · exact .inl h
    · rcases keys_setWithoutPathExpansion h with rfl | h
      · exact .inl (zero_not_mem_dropNull _)
      · exact .inr h

/-- Sorted keys without null characters stay as they are. -/
lemma dropEntries_eq_map {entries dict : List (Text × Value δ)}
    (hkeys : ∀ k ∈ entries.map Prod.fst, 0 ∉ k)
    (hsorted : ((dict ++ entries).map Prod.fst).Pairwise (· < ·)) :
    dropEntries dict entries = dict ++ entries.map fun e => (e.1, e.2.dropNulls) := by
  induction entries generalizing dict with
  | nil => simp [dropEntries]
  | cons entry entries ih =>
    have hkey : dropNull entry.1 = entry.1 := (dropNull_eq_iff _).mpr (hkeys _ (by simp))
    have hlast : ∀ k ∈ dict.map Prod.fst, k < entry.1 := by
      intro k hk
      rw [List.map_append, List.pairwise_append] at hsorted
      exact hsorted.2.2 k hk entry.1 (by simp)
    rw [dropEntries, hkey, setWithoutPathExpansion_end hlast, ih]
    · simp
    · intro k hk
      exact hkeys k (by simp at hk ⊢; exact .inr hk)
    · simpa using hsorted

mutual

/-- A value stays the same just when it holds no null character. -/
theorem dropNulls_eq_iff (value : Value δ) (hvalue : value.Writable) :
    value.dropNulls = value ↔ value.NullFree := by
  match value with
  | .null | .boolean _ | .integer _ => simp [Value.dropNulls, Value.NullFree]
  | .double _ | .binary _ => simp [Value.Writable] at hvalue
  | .string s =>
    rw [Value.dropNulls, Value.NullFree, Value.string.injEq]
    exact dropNull_eq_iff s
  | .list items =>
    rw [Value.Writable] at hvalue
    rw [Value.dropNulls, Value.NullFree, Value.list.injEq]
    exact dropItems_eq_iff items hvalue
  | .dictionary entries =>
    rw [Value.Writable] at hvalue
    obtain ⟨hsorted, hentries⟩ := hvalue
    have hmap := map_dropNulls_eq_iff entries hentries
    rw [Value.dropNulls, Value.NullFree, Value.dictionary.injEq]
    constructor
    · intro heq
      have hkeys : ∀ k ∈ entries.map Prod.fst, 0 ∉ k := by
        intro k hk
        rw [← heq] at hk
        rcases keys_dropEntries hk with hk | hk
        · exact hk
        · simp at hk
      have hdrop : dropEntries [] entries = [] ++ entries.map fun e => (e.1, e.2.dropNulls) :=
        dropEntries_eq_map hkeys hsorted
      rw [hdrop, List.nil_append] at heq
      exact hmap.mp ⟨hkeys, heq⟩
    · intro hfree
      obtain ⟨hkeys, heq⟩ := hmap.mpr hfree
      have hdrop : dropEntries [] entries = [] ++ entries.map fun e => (e.1, e.2.dropNulls) :=
        dropEntries_eq_map hkeys hsorted
      rw [hdrop, List.nil_append, heq]

theorem dropItems_eq_iff (items : List (Value δ)) (hitems : WritableItems items) :
    dropItems items = items ↔ NullFreeItems items := by
  match items with
  | [] => simp [dropItems, NullFreeItems]
  | value :: items =>
    rw [WritableItems] at hitems
    rw [dropItems, NullFreeItems, List.cons_eq_cons, dropNulls_eq_iff value hitems.1,
      dropItems_eq_iff items hitems.2]

theorem map_dropNulls_eq_iff (entries : List (Text × Value δ))
    (hentries : WritableEntries entries) :
    ((∀ k ∈ entries.map Prod.fst, 0 ∉ k) ∧
      entries.map (fun e => (e.1, e.2.dropNulls)) = entries) ↔ NullFreeEntries entries := by
  match entries with
  | [] => simp [NullFreeEntries]
  | (key, value) :: entries =>
    rw [WritableEntries] at hentries
    have hvalue := dropNulls_eq_iff value hentries.2.1
    have hrest := map_dropNulls_eq_iff entries hentries.2.2
    rw [NullFreeEntries, ← hvalue, ← hrest]
    simp only [List.map_cons, List.mem_cons, List.cons_eq_cons, Prod.mk.injEq, true_and]
    constructor
    · rintro ⟨hkeys, hv, hmap⟩
      exact ⟨hkeys key (.inl rfl), hv, fun k hk => hkeys k (.inr hk), hmap⟩
    · rintro ⟨hkey, hv, hkeys, hmap⟩
      refine ⟨?_, hv, hmap⟩
      rintro k (rfl | hk)
      · exact hkey
      · exact hkeys k hk

end

/-! ### Writing and reading -/

/-- What is written is read as the value without its null characters. -/
theorem parse_writeWithOptions (options : Options) (doubles : Doubles δ)
    (hwriter : writer.doNotEscape = false ∧ writer.omitBinaryValues = false)
    (value : Value δ) (hvalue : value.Writable)
    (hdepth : value.depth < kStackMaxDepth) :
    parse doubles options (fun _ => 0) (writeWithOptions format writer value) =
      .ok value.dropNulls := by
  obtain ⟨t, hvalid, htext, htdepth, hread⟩ :=
    exists_tree format writer options doubles hwriter value hvalue 0
  have hline := isBlank_pretty writer (isBlank_lineEnding writer.windows 0)
  rw [indentLine, Nat.zero_mul, List.replicate_zero, List.append_nil] at hline
  let d : Document := ⟨false, spaces [], t,
    (pretty writer (kPrettyPrintLineEnding writer.windows)).map Blank.space, .plain⟩
  have htail : d.tail = pretty writer (kPrettyPrintLineEnding writer.windows) := by
    have hgap := text_spaces (pretty writer (kPrettyPrintLineEnding writer.windows))
    simpa [Gap.text, spaces, Document.tail, Ending.text, d] using hgap
  have hd : d.Valid options :=
    ⟨valid_empty, hvalid, by rw [htdepth]; exact hdepth, valid_spaces hline, trivial⟩
  have hclear : d.Clear (memoryOf options fun _ => 0) := by
    have hmemory : memoryOf options (fun _ => 0) = fun _ => 0 := by
      rw [memoryOf]
      split_ifs <;> rfl
    intro n _ _
    rw [hmemory]
    exact ⟨by simp, fun _ _ => by decide, fun _ => by decide⟩
  have hwrite : writeWithOptions format writer value = d.text := by
    rw [writeWithOptions, Document.text, htail, ← htext]
    simp [d]
  rw [hwrite]
  exact parse_document hd hclear hread

/-- Writing and reading give the value back, pretty printed or not, just when no string and no key
holds a null character. -/
theorem write_then_read_iff (options : Options) (doubles : Doubles δ)
    (prettyPrint windows : Bool) (value : Value δ) (hvalue : value.Writable)
    (hdepth : value.depth < kStackMaxDepth) :
    parse doubles options (fun _ => 0)
        (writeWithOptions format { prettyPrint := prettyPrint, windows := windows } value) =
      .ok value ↔ value.NullFree := by
  rw [parse_writeWithOptions format _ options doubles ⟨rfl, rfl⟩ value hvalue hdepth,
    ← dropNulls_eq_iff value hvalue]
  constructor
  · intro h
    injection h
  · intro h
    rw [h]

/-- Numbers that are all the same, for values without any. -/
def noDoubles : Doubles Unit := ⟨fun s => ((), false, s.length), fun _ => true⟩

def noFormat : DoubleFormat Unit := ⟨fun _ => ascii "0", fun _ => none⟩

/-- A list of one string is read again. -/
theorem write_then_read_iff_list :
    parse noDoubles ⟨false, false⟩ (fun _ => 0) (writeWithOptions noFormat
        { prettyPrint := true, windows := false } (.list [.string (ascii "a<")])) =
      .ok (.list [.string (ascii "a<")]) := by
  have hutf8 : IsUtf8 (ascii "a<") := ⟨[97, 60], by decide, rfl⟩
  refine (write_then_read_iff _ _ _ true false (.list [.string (ascii "a<")]) ?_ (by decide)).mpr ?_
  · simp only [Value.Writable, WritableItems]
    exact ⟨hutf8, trivial⟩
  · simp only [Value.NullFree, NullFreeItems]
    decide

/-- The string of a null character is read as the empty string. -/
theorem not_write_then_read :
    ¬ ∀ (doubles : Doubles Unit) (format : DoubleFormat Unit) (options : Options)
      (prettyPrint windows : Bool) (value : Value Unit), value.Writable →
      value.depth < kStackMaxDepth →
      parse doubles options (fun _ => 0)
        (writeWithOptions format { prettyPrint := prettyPrint, windows := windows } value) =
      .ok value := by
  intro h
  have hutf8 : IsUtf8 [0] := ⟨[0], by decide, rfl⟩
  have hwritable : (Value.string (δ := Unit) [0]).Writable := by
    rw [Value.Writable]
    exact hutf8
  have hread := h noDoubles noFormat ⟨false, false⟩ false false (.string [0]) hwritable (by decide)
  rw [parse_writeWithOptions _ _ _ _ ⟨rfl, rfl⟩ _ hwritable (by decide)] at hread
  injection hread with hstring
  rw [Value.dropNulls] at hstring
  injection hstring with hnil
  exact absurd hnil (by decide)

end Chromium.Json
