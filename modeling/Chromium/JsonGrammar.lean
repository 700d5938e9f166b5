import Chromium.JsonParserReads
import Chromium.JsonUnambiguous

/-!
# The grammar of JSON

What the texts that follow the grammar denote, and when the parser takes an input for just what
it denotes. The parser takes more texts, refuses numbers that `strtod` reports, and leaves null
characters out of strings.
-/
namespace Chromium.Json

open WireFormat StringNumber JSONParser

/-! ### Documents that follow the grammar -/

mutual

def Tree.Strict : Tree → Prop
  | .null | .boolean _ | .number _ => True
  | .string pieces => ∀ p ∈ pieces, p.Strict
  | .list gap items => gap.Strict ∧ items.Strict
  | .dictionary gap members => gap.Strict ∧ members.Strict

def Items.Strict : Items → Prop
  | .nil => True
  | .last item gap => item.Strict ∧ gap.Strict
  | .cons item gap gap' items => item.Strict ∧ gap.Strict ∧ gap'.Strict ∧ items.Strict

def Members.Strict : Members → Prop
  | .nil => True
  | .last key gap gap' value gap'' => (∀ p ∈ key, p.Strict) ∧ gap.Strict ∧ gap'.Strict ∧
      value.Strict ∧ gap''.Strict
  | .cons key gap gap' value gap'' gap₃ members => (∀ p ∈ key, p.Strict) ∧ gap.Strict ∧
      gap'.Strict ∧ value.Strict ∧ gap''.Strict ∧ gap₃.Strict ∧ members.Strict

end

/-- Without a slash alone, an open comment, or anything but digits behind `\x` and `\u`. -/
structure Document.Strict (d : Document) : Prop where
  gap : d.gap.Strict
  tree : d.tree.Strict
  ending : d.ending.Strict

mutual

/-- The numbers in a value. -/
def Tree.numbers : Tree → List Number
  | .null | .boolean _ | .string _ => []
  | .number n => [n]
  | .list _ items => items.numbers
  | .dictionary _ members => members.numbers

def Items.numbers : Items → List Number
  | .nil => []
  | .last item _ => item.numbers
  | .cons item _ _ items => item.numbers ++ items.numbers

def Members.numbers : Members → List Number
  | .nil => []
  | .last _ _ _ value _ => value.numbers
  | .cons _ _ _ value _ _ members => value.numbers ++ members.numbers

end

/-! ### What they denote -/

/-- The number of hexadecimal digits. -/
def hexValue (digits : Text) : ℕ := behind 16 0 (digits.filterMap (charToDigit 16))

/-- The character that a part of a string denotes. -/
def Piece.denoted : Piece → Text
  | plain c => IcuUtf.append c
  | escape letter => (simpleEscape letter).toList
  | byte digits | unit digits => IcuUtf.append (hexValue digits)
  | pair high low =>
    IcuUtf.append (0x10000 + (hexValue high - 0xD800) * 0x400 + (hexValue low - 0xDC00))

namespace Number

/-- The integer that a number without fraction and exponent denotes. -/
def integer (n : Number) : ℤ :=
  let magnitude : ℤ := behind 10 0 (n.int.filterMap (charToDigit 10))
  if n.minus then -magnitude else magnitude

/-- An integer that an `int` holds. -/
def IsInt (n : Number) : Prop :=
  n.fraction = none ∧ n.exponent = none ∧ kint32min ≤ n.integer ∧ n.integer ≤ kint32max

instance (n : Number) : Decidable n.IsInt := inferInstanceAs (Decidable (_ ∧ _ ∧ _ ∧ _))

variable {δ : Type} (doubles : Doubles δ)

/-- A number that is not finite denotes nothing. -/
def denoted (n : Number) : Option (Value δ) :=
  if n.IsInt then some (.integer (BitVec.ofInt 32 n.integer))
  else if doubles.isFinite (doubles.strtod n.text).1 then some (.double (doubles.strtod n.text).1)
  else none

/-- `strtod` reads the whole number and reports no error. -/
def Taken (n : Number) : Prop :=
  n.IsInt ∨ ((doubles.strtod n.text).2.1 = false ∧ (doubles.strtod n.text).2.2 = n.text.length ∧
    doubles.isFinite (doubles.strtod n.text).1 = true)

end Number

/-- The escape of a null character. -/
def Piece.IsNull : Piece → Prop
  | unit digits => hexValue digits = 0
  | _ => False

instance (p : Piece) : Decidable p.IsNull := by
  cases p <;> unfold Piece.IsNull <;> infer_instance

variable {δ : Type}

def denotedReading (doubles : Doubles δ) : Reading δ where
  piece := Piece.denoted
  number := Number.denoted doubles

/-- The same without the null characters that are written as `\u0000`. -/
def withoutNulls (doubles : Doubles δ) : Reading δ where
  piece p := if p.IsNull then [] else p.denoted
  number := Number.denoted doubles

/-- The input follows the grammar, and denotes the value. -/
def Denotes (doubles : Doubles δ) (options : Options) (input : Text) (v : Value δ) : Prop :=
  ∃ d : Document, d.Valid options ∧ d.Strict ∧ d.text = input ∧
    d.tree.value (denotedReading doubles) = some v

/-! ### When the parser keeps to the grammar -/

section

variable (doubles : Doubles δ) (options : Options) (memory : ℕ → Byte)

/-- A document that the parser takes for what it denotes. -/
structure Document.Kept (d : Document) : Prop where
  strict : d.Strict
  clear : d.Clear memory
  taken : ∀ n ∈ d.tree.numbers, n.Taken doubles
  nulls : d.tree.value (withoutNulls doubles) = d.tree.value (denotedReading doubles)

/-- A document that denotes nothing, and that the parser does not take. -/
structure Document.Refused (d : Document) : Prop where
  denoted : ¬ d.Strict ∨ ∃ n ∈ d.tree.numbers, n.denoted doubles = none
  parsed : ¬ d.Clear memory ∨ ∃ n ∈ d.tree.numbers, ¬ n.Taken doubles

/-- The condition on an input for the parser to keep to the grammar. -/
structure Regular (input : Text) : Prop where
  not_completed : ¬ Completed (memoryOf options memory) input
  document : ∀ d : Document, d.Valid options → d.text = input →
    d.Kept doubles (memoryOf options memory) ∨ d.Refused doubles (memoryOf options memory)

end

/-! ### Digits -/

lemma mapM_eq_filterMap {α β : Type} {f : α → Option β} {l : List α}
    (h : ∀ a ∈ l, (f a).isSome = true) : l.mapM f = some (l.filterMap f) := by
  induction l with
  | nil => rfl
  | cons a l ih =>
    obtain ⟨b, hb⟩ := Option.isSome_iff_exists.mp (h a (by simp))
    rw [List.mapM_cons, hb, ih (fun a' ha' => h a' (by simp [ha'])), List.filterMap_cons_some hb]
    rfl

lemma mapM_eq_none {α β : Type} {f : α → Option β} {l : List α} {a : α} (ha : a ∈ l)
    (hnone : f a = none) : l.mapM f = none := by
  induction l with
  | nil => simp at ha
  | cons b l ih =>
    rw [List.mapM_cons]
    rcases List.mem_cons.mp ha with rfl | ha
    · rw [hnone]
      rfl
    · rw [ih ha]
      cases f b <;> rfl

/-- Digits stand for less than the power of the base. -/
lemma behind_lt {base : ℕ} {digits : List ℕ} (h : ∀ d ∈ digits, d < base) (n : ℕ) :
    behind base n digits < (n + 1) * base ^ digits.length := by
  induction digits generalizing n with
  | nil => simp [behind]
  | cons d digits ih =>
    have hd := h d (by simp)
    have hle : n * base + d + 1 ≤ (n + 1) * base := by
      rw [Nat.add_mul, Nat.one_mul]
      omega
    calc behind base n (d :: digits) < (n * base + d + 1) * base ^ digits.length :=
          ih (fun d' hd' => h d' (by simp [hd'])) _
      _ ≤ (n + 1) * base * base ^ digits.length := Nat.mul_le_mul_right _ hle
      _ = (n + 1) * base ^ (digits.length + 1) := by rw [pow_succ]; ring

lemma hexValue_lt {digits : Text} {k : ℕ} (hlength : digits.length ≤ k) :
    hexValue digits < 16 ^ k := by
  have hdigits : ∀ d ∈ digits.filterMap (charToDigit 16), d < 16 := by
    intro d hd
    obtain ⟨c, -, hc⟩ := List.mem_filterMap.mp hd
    exact charToDigit_lt hc
  have hlt := behind_lt hdigits 0
  have hle := (List.length_filterMap_le (charToDigit 16) digits).trans hlength
  have hpow : 16 ^ (digits.filterMap (charToDigit 16)).length ≤ 16 ^ k :=
    Nat.pow_le_pow_right (by decide) hle
  rw [hexValue]
  omega

/-- Hexadecimal digits are read as the number they stand for. -/
lemma number_eq_hexValue {digits : Text} (hne : digits ≠ []) (hlength : digits.length ≤ 4)
    (h : ∀ c ∈ digits, Piece.isHexDigit c = true) :
    hexStringToInt digits = some (hexValue digits : ℤ) ∧
      Piece.number digits = some (hexValue digits) := by
  have hlt : hexValue digits < 16 ^ 4 := hexValue_lt hlength
  have hread : hexStringToInt digits = some (hexValue digits : ℤ) := by
    rw [hexStringToInt, toNumber_hexDigits hne h, Sign.accumulate_first (by decide),
      mapM_eq_filterMap h, Option.bind_some]
    have hlimit : behind 16 0 (digits.filterMap (charToDigit 16)) ≤ Sign.positive.limit := by
      rw [hexValue] at hlt
      rw [Sign.limit]
      omega
    rw [if_pos hlimit]
    rfl
  refine ⟨hread, ?_⟩
  rw [Piece.number, hread, Option.map_some, unsigned]
  congr 1
  omega

namespace Number

variable {doubles : Doubles δ} {n : Number}

lemma digit_isSome {c : Byte} (h : isAsciiDigit c = true) : (charToDigit 10 c).isSome = true := by
  revert c
  decide

/-- A number is read as an integer when it is one that an `int` holds. -/
lemma stringToInt_text (hn : n.Valid) :
    stringToInt n.text = if n.IsInt then some n.integer else none := by
  set body := n.int ++ (fractionText n.fraction ++ exponentText n.exponent)
  have hdigits : ∀ c ∈ n.int, (charToDigit 10 c).isSome = true :=
    fun c hc => digit_isSome (hn.int_digits.2 c hc)
  have hmap : body.mapM (charToDigit 10) =
      if n.fraction = none ∧ n.exponent = none then some (n.int.filterMap (charToDigit 10))
      else none := by
    split_ifs with hnone
    · have hbody : body = n.int := by simp [body, hnone, fractionText, exponentText]
      rw [hbody, mapM_eq_filterMap hdigits]
    · cases hfraction : n.fraction with
      | some digits =>
        exact mapM_eq_none (a := char '.') (by simp [body, hfraction, fractionText]) (by decide)
      | none =>
        cases hexponent : n.exponent with
        | none => exact absurd ⟨hfraction, hexponent⟩ hnone
        | some e =>
          obtain ⟨mark, sign, digits⟩ := e
          refine mapM_eq_none (a := mark) (by simp [body, hexponent, exponentText]) ?_
          rcases (hn.exponent_digits _ hexponent).1 with hmark | hmark
          · rw [show mark = char 'e' from hmark]
            decide
          · rw [show mark = char 'E' from hmark]
            decide
  have hinvoke : ∀ sign : Sign, sign.invoke 10 body =
      if (n.fraction = none ∧ n.exponent = none) ∧
        behind 10 0 (n.int.filterMap (charToDigit 10)) ≤ sign.limit then
        some (sign.apply (behind 10 0 (n.int.filterMap (charToDigit 10)))) else none := by
    intro sign
    have hne : body ≠ [] := by simp [body, hn.int_digits.1]
    rw [Sign.invoke, if_neg hne]
    simp only [show ¬ (10 = 16) by decide, false_and, if_false]
    rw [Sign.accumulate_first (by decide), hmap]
    split_ifs <;> simp_all
  rw [stringToInt, Number.text]
  cases hminus : n.minus with
  | true =>
    rw [show signText true ++ body = char '-' :: body from rfl, toNumber, if_neg (by decide),
      if_pos rfl, hinvoke]
    have hinteger : n.integer = -(behind 10 0 (n.int.filterMap (charToDigit 10)) : ℤ) := by
      simp [integer, hminus]
    simp only [IsInt, hinteger, Sign.limit, Sign.apply, kint32min, kint32max]
    congr 1
    apply propext
    constructor
    · rintro ⟨⟨hfraction, hexponent⟩, hle⟩
      exact ⟨hfraction, hexponent, by omega, by omega⟩
    · rintro ⟨hfraction, hexponent, hlow, -⟩
      exact ⟨⟨hfraction, hexponent⟩, by omega⟩
  | false =>
    obtain ⟨c, r, hcr⟩ := List.exists_cons_of_ne_nil hn.int_digits.1
    have hc := hn.int_digits.2 c (by simp [hcr])
    have hspace : localIsWhitespace c = false :=
      (by decide : ∀ c : Byte, isAsciiDigit c = true → localIsWhitespace c = false) c hc
    have hbody : body = c :: (r ++ (fractionText n.fraction ++ exponentText n.exponent)) := by
      simp [body, hcr]
    rw [show signText false ++ body = body from rfl]
    conv_lhs => rw [hbody]
    rw [toNumber, hspace, if_neg Bool.false_ne_true, if_neg (digit_ne hc).1,
      if_neg (digit_ne hc).2.1, ← hbody, hinvoke]
    have hinteger : n.integer = (behind 10 0 (n.int.filterMap (charToDigit 10)) : ℤ) := by
      simp [integer, hminus]
    simp only [IsInt, hinteger, Sign.limit, Sign.apply, kint32min, kint32max]
    congr 1
    apply propext
    constructor
    · rintro ⟨⟨hfraction, hexponent⟩, hle⟩
      exact ⟨hfraction, hexponent, by omega, by omega⟩
    · rintro ⟨hfraction, hexponent, -, hhigh⟩
      exact ⟨⟨hfraction, hexponent⟩, by omega⟩

/-- The text of a number begins with no white space. -/
lemma head_not_space (hn : n.Valid) : n.text ≠ [] ∧ ∀ c ∈ n.text.head?, ¬ localIsWhitespace c := by
  obtain ⟨c, r, hcr, -, htoken⟩ := Number.starts hn
  rw [hcr]
  refine ⟨List.cons_ne_nil c r, ?_⟩
  intro c' hc'
  obtain rfl : c = c' := by simpa using hc'
  have hspace : ∀ c : Byte, tokenOf c = .number → localIsWhitespace c = false := by decide
  rw [hspace c htoken]
  exact Bool.false_ne_true

/-- What is taken is read as it is denoted. -/
lemma read_of_taken (hn : n.Valid) (h : n.Taken doubles) : n.read doubles = n.denoted doubles := by
  rw [Number.read, numberValue, stringToInt_text hn, denoted]
  split_ifs with hint hfinite
  · rfl
  · obtain ⟨hne, hspace⟩ := head_not_space hn
    obtain hint' | ⟨herange, hconsumed, -⟩ := h
    · exact absurd hint' hint
    have hdouble : stringToDouble doubles n.text = some (doubles.strtod n.text).1 := by
      rw [stringToDouble]
      dsimp only
      rw [if_pos ⟨by simp [herange], hne, hconsumed, hspace, hfinite⟩]
    rw [hdouble]
    rfl
  · obtain hint' | ⟨-, -, hfinite'⟩ := h
    · exact absurd hint' hint
    · exact absurd hfinite' hfinite

lemma read_of_not_taken (hn : n.Valid) (h : ¬ n.Taken doubles) : n.read doubles = none := by
  rw [Taken, not_or] at h
  rw [Number.read, numberValue, stringToInt_text hn, if_neg h.1]
  have hnone : stringToDouble doubles n.text = none := by
    rw [stringToDouble]
    dsimp only
    rw [if_neg]
    rintro ⟨herange, -, hconsumed, -, hfinite⟩
    exact h.2 ⟨by simpa using herange, hconsumed, hfinite⟩
  rw [hnone]
  rfl

lemma denoted_of_taken (h : n.Taken doubles) : n.denoted doubles ≠ none := by
  rw [denoted]
  split_ifs with hint hfinite
  · simp
  · simp
  · obtain hint' | ⟨-, -, hfinite'⟩ := h
    · exact absurd hint' hint
    · exact absurd hfinite' hfinite

end Number

/-! ### Parts of strings -/

/-- The bytes of a character that is not null are none of them null. -/
lemma codeUnits_of_pos {c : ℕ} (hpos : 0 < c) (hlt : c < 0x110000) :
    codeUnits c = IcuUtf.append c := by
  have hbyte : ∀ n, 0 < n → n < 256 → (BitVec.ofNat 8 n : Byte) ≠ 0 := by
    intro n hn hlt heq
    have htoNat := congrArg BitVec.toNat heq
    rw [BitVec.toNat_ofNat, Nat.mod_eq_of_lt hlt] at htoNat
    exact absurd htoNat (by simpa using hn.ne')
  have hall : ∀ b ∈ IcuUtf.append c, b ≠ 0 := by
    rcases Nat.lt_or_ge c 0x80 with hone | hone
    · rw [IcuUtf.append_one hone]
      simpa using hbyte c hpos (by omega)
    rcases Nat.lt_or_ge c 0x800 with htwo | htwo
    · rw [IcuUtf.append_two hone htwo]
      have h₁ := hbyte (0xC0 + c / 64) (by omega) (by omega)
      have h₂ := hbyte (0x80 + c % 64) (by omega) (by omega)
      simpa using ⟨h₁, h₂⟩
    rcases Nat.lt_or_ge c 0x10000 with hthree | hthree
    · rw [IcuUtf.append_three htwo hthree]
      have h₁ := hbyte (0xE0 + c / 4096) (by omega) (by omega)
      have h₂ := hbyte (0x80 + c / 64 % 64) (by omega) (by omega)
      have h₃ := hbyte (0x80 + c % 64) (by omega) (by omega)
      simpa using ⟨h₁, h₂, h₃⟩
    · rw [IcuUtf.append_four hthree hlt]
      have h₁ := hbyte (0xF0 + c / 262144) (by omega) (by omega)
      have h₂ := hbyte (0x80 + c / 4096 % 64) (by omega) (by omega)
      have h₃ := hbyte (0x80 + c / 64 % 64) (by omega) (by omega)
      have h₄ := hbyte (0x80 + c % 64) (by omega) (by omega)
      simpa using ⟨h₁, h₂, h₃, h₄⟩
  rw [codeUnits, List.takeWhile_eq_self_iff]
  intro b hb
  exact decide_eq_true (hall b hb)

/-- A part of a string is read as it is denoted, if it is not a null character. -/
lemma Piece.read_eq {p : Piece} (hp : p.Valid) (hstrict : p.Strict) :
    p.read = if p.IsNull then [] else p.denoted := by
  have hdigits : ∀ {digits : Text} {k : ℕ}, digits.length = k + 1 → k < 4 → digits ≠ [] := by
    rintro digits k hlength - rfl
    simp at hlength
  cases p with
  | plain c => exact (if_neg id).symm
  | escape letter => exact (if_neg id).symm
  | byte digits =>
    have hne := hdigits hp.1 (by decide)
    obtain ⟨hread, -⟩ := number_eq_hexValue hne (by rw [hp.1]; decide) hstrict
    rw [if_neg (by exact id), Piece.read, hread, Piece.denoted]
    dsimp only
    split_ifs with hlow
    · rw [IcuUtf.append_one (by omega), BitVec.ofInt_natCast]
    · rw [Int.toNat_natCast]
  | unit digits =>
    have hne := hdigits hp.1 (by decide)
    obtain ⟨-, hnumber⟩ := number_eq_hexValue hne (by rw [hp.1]) hstrict
    have hlt : hexValue digits < 16 ^ 4 := hexValue_lt (by rw [hp.1])
    rw [Piece.read, hnumber, Option.elim_some, Piece.denoted]
    split_ifs with hnull
    · rw [show hexValue digits = 0 from hnull]
      decide
    · exact codeUnits_of_pos (Nat.pos_of_ne_zero hnull) (by omega)
  | pair high low =>
    obtain ⟨hhigh, hlow, ⟨h, hnumber, hsurrogate, hlead⟩, l, hnumber', htrail⟩ := hp
    obtain ⟨-, hread⟩ := number_eq_hexValue (hdigits hhigh (by decide)) (by rw [hhigh]) hstrict.1
    obtain ⟨-, hread'⟩ := number_eq_hexValue (hdigits hlow (by decide)) (by rw [hlow]) hstrict.2
    have hlt : hexValue high < 16 ^ 4 := hexValue_lt (by rw [hhigh])
    have hlt' : hexValue low < 16 ^ 4 := hexValue_lt (by rw [hlow])
    obtain rfl : hexValue high = h := by simpa [hread] using hnumber
    obtain rfl : hexValue low = l := by simpa [hread'] using hnumber'
    rw [IcuUtf.isSurrogate_iff (by omega)] at hsurrogate
    rw [IcuUtf.isSurrogateLead_iff hsurrogate.1 hsurrogate.2] at hlead
    rw [IcuUtf.isTrail16_iff (by omega)] at htrail
    rw [if_neg (by exact id), Piece.read, hread, hread', Piece.denoted]
    dsimp only
    rw [IcuUtf.getSupplementary_eq hsurrogate.1 htrail.1, codeUnits_of_pos (by omega) (by omega)]

/-! ### Values -/

variable {doubles : Doubles δ} {options : Options} {memory : ℕ → Byte} {r r' : Reading δ}

lemma flatMap_read (hpiece : ∀ p : Piece, p.Valid → p.Strict → r.piece p = r'.piece p)
    {pieces : List Piece} (hvalid : ∀ p ∈ pieces, p.Valid) (hstrict : ∀ p ∈ pieces, p.Strict) :
    pieces.flatMap r.piece = pieces.flatMap r'.piece :=
  List.flatMap_congr fun p hp => hpiece p (hvalid p hp) (hstrict p hp)

mutual

theorem Tree.numbers_valid {t : Tree} (ht : t.Valid options) : ∀ n ∈ t.numbers, n.Valid := by
  match t with
  | .null | .boolean _ | .string _ => simp [Tree.numbers]
  | .number n =>
    intro n' hn'
    obtain rfl := List.mem_singleton.mp hn'
    exact ht
  | .list gap items => exact Items.numbers_valid ht.2
  | .dictionary gap members => exact Members.numbers_valid ht.2

theorem Items.numbers_valid {items : Items} (h : items.Valid options) :
    ∀ n ∈ items.numbers, n.Valid := by
  match items with
  | .nil => simp [Items.numbers]
  | .last item gap => exact Tree.numbers_valid h.1
  | .cons item gap gap' items =>
    intro n hn
    rcases List.mem_append.mp hn with hn | hn
    · exact Tree.numbers_valid h.1 n hn
    · exact Items.numbers_valid h.2.2.2.1 n hn

theorem Members.numbers_valid {members : Members} (h : members.Valid options) :
    ∀ n ∈ members.numbers, n.Valid := by
  match members with
  | .nil => simp [Members.numbers]
  | .last key gap gap' value gap'' => exact Tree.numbers_valid h.2.2.2.1
  | .cons key gap gap' value gap'' gap3 members =>
    intro n hn
    rcases List.mem_append.mp hn with hn | hn
    · exact Tree.numbers_valid h.2.2.2.1 n hn
    · exact Members.numbers_valid h.2.2.2.2.2.2.1 n hn

end

mutual

/-- The value only depends on how the parts and the numbers in it are read. -/
theorem Tree.value_congr
    (hpiece : ∀ p : Piece, p.Valid → p.Strict → r.piece p = r'.piece p) {t : Tree}
    (ht : t.Valid options) (hstrict : t.Strict)
    (hnumber : ∀ n ∈ t.numbers, r.number n = r'.number n) : t.value r = t.value r' := by
  match t with
  | .null | .boolean _ => rfl
  | .number n => exact hnumber n (by simp [Tree.numbers])
  | .string pieces =>
    rw [Tree.value, Tree.value, flatMap_read hpiece ht hstrict]
  | .list gap items =>
    rw [Tree.value, Tree.value, Items.values_congr hpiece ht.2 hstrict.2 hnumber]
  | .dictionary gap members =>
    rw [Tree.value, Tree.value, Members.entries_congr hpiece ht.2 hstrict.2 hnumber]

theorem Items.values_congr
    (hpiece : ∀ p : Piece, p.Valid → p.Strict → r.piece p = r'.piece p) {items : Items}
    (h : items.Valid options) (hstrict : items.Strict)
    (hnumber : ∀ n ∈ items.numbers, r.number n = r'.number n) :
    items.values r = items.values r' := by
  match items with
  | .nil => rfl
  | .last item gap => rw [Items.values, Items.values, Tree.value_congr hpiece h.1 hstrict.1 hnumber]
  | .cons item gap gap' items =>
    rw [Items.values, Items.values,
      Tree.value_congr hpiece h.1 hstrict.1 (fun n hn => hnumber n (List.mem_append_left _ hn)),
      Items.values_congr hpiece h.2.2.2.1 hstrict.2.2.2
        (fun n hn => hnumber n (List.mem_append_right _ hn))]

theorem Members.entries_congr
    (hpiece : ∀ p : Piece, p.Valid → p.Strict → r.piece p = r'.piece p)
    {members : Members} (h : members.Valid options)
    (hstrict : members.Strict) (hnumber : ∀ n ∈ members.numbers, r.number n = r'.number n)
    {dict : List (Text × Value δ)} : members.entries r dict = members.entries r' dict := by
  match members with
  | .nil => rfl
  | .last key gap gap' value gap'' =>
    rw [Members.entries, Members.entries, Tree.value_congr hpiece h.2.2.2.1 hstrict.2.2.2.1 hnumber,
      flatMap_read hpiece h.1 hstrict.1]
  | .cons key gap gap' value gap'' gap3 members =>
    rw [Members.entries, Members.entries, flatMap_read hpiece h.1 hstrict.1,
      Tree.value_congr hpiece h.2.2.2.1 hstrict.2.2.2.1
        (fun n hn => hnumber n (List.mem_append_left _ hn))]
    refine congrArg (Option.bind _) (funext fun v => ?_)
    exact Members.entries_congr hpiece h.2.2.2.2.2.2.1 hstrict.2.2.2.2.2.2
      (fun n hn => hnumber n (List.mem_append_right _ hn))

end

mutual

/-- A value is refused for the numbers in it alone. -/
theorem Tree.value_isSome (r : Reading δ) (t : Tree) :
    (t.value r).isSome = true ↔ ∀ n ∈ t.numbers, (r.number n).isSome = true := by
  match t with
  | .null | .boolean _ | .string _ => simp [Tree.value, Tree.numbers]
  | .number n => simp [Tree.value, Tree.numbers]
  | .list gap items =>
    rw [Tree.value, Option.isSome_map]
    exact Items.values_isSome r items
  | .dictionary gap members =>
    rw [Tree.value, Option.isSome_map]
    exact Members.entries_isSome r members []

theorem Items.values_isSome (r : Reading δ) (items : Items) :
    (items.values r).isSome = true ↔ ∀ n ∈ items.numbers, (r.number n).isSome = true := by
  match items with
  | .nil => simp [Items.values, Items.numbers]
  | .last item gap =>
    rw [Items.values, Option.isSome_map]
    exact Tree.value_isSome r item
  | .cons item gap gap' items =>
    have hitem := Tree.value_isSome r item
    have hitems := Items.values_isSome r items
    simp only [Items.values, Items.numbers, List.forall_mem_append, ← hitem, ← hitems]
    cases item.value r <;> cases items.values r <;> simp

theorem Members.entries_isSome (r : Reading δ) (members : Members)
    (dict : List (Text × Value δ)) : (members.entries r dict).isSome = true ↔
      ∀ n ∈ members.numbers, (r.number n).isSome = true := by
  match members with
  | .nil => simp [Members.entries, Members.numbers]
  | .last key gap gap' value gap'' =>
    rw [Members.entries, Option.isSome_map]
    exact Tree.value_isSome r value
  | .cons key gap gap' value gap'' gap3 members =>
    have hvalue := Tree.value_isSome r value
    simp only [Members.entries, Members.numbers, List.forall_mem_append, ← hvalue]
    cases value.value r with
    | none => simp
    | some v => simpa using Members.entries_isSome r members _

end

/-! ### The whole input -/

/-- Where memory completes the value, the input is no document. -/
lemma Completed.text_ne {input : Text} (h : Completed memory input) {d : Document}
    (hd : d.Valid options) : d.text ≠ input := by
  intro htext
  obtain ⟨mark, g, u, hg, hu, -, hinput⟩ := h
  have hstarts := (Tree.starts hd.tree).append d.tail
  obtain ⟨-, hbody⟩ := skip_mark_unique (hstarts.head_ne hd.gap d.tree.token_ne_invalid.1)
    (u.starts.head_ne hg u.token_ne) (htext.trans hinput)
  obtain ⟨-, hvalue⟩ := Gap.text_unique_starts hd.gap hg hstarts u.starts hbody
  have htoken := hstarts.token_unique u.starts hvalue
  have hlength := congrArg List.length hvalue
  rw [List.length_append] at hlength
  cases u with
  | null =>
    cases htree : d.tree with
    | null =>
      rw [htree, show (Tree.text .null).length = 4 from rfl,
        show Partial.null.text.length = 3 from rfl] at hlength
      omega
    | boolean b => cases b <;> simp [htree, Tree.token, Partial.token] at htoken
    | _ => simp [htree, Tree.token, Partial.token] at htoken
  | boolean b =>
    cases htree : d.tree with
    | boolean b' =>
      rw [htree] at htoken hlength
      obtain rfl : b' = b := by
        cases b <;> cases b' <;> simp_all [Tree.token, Partial.token]
      have hone : (Tree.text (.boolean b')).length = (Partial.boolean b').text.length + 1 := by
        cases b' <;> rfl
      omega
    | _ => cases b <;> simp [htree, Tree.token, Partial.token] at htoken
  | string pieces =>
    cases htree : d.tree with
    | string pieces' =>
      have hpieces' : ∀ x ∈ pieces', x.Valid := by simpa [htree, Tree.Valid] using hd.tree
      rw [htree] at hvalue
      have hinner : pieces'.flatMap Piece.text ++ char '"' :: d.tail =
          pieces.flatMap Piece.text ++ [] := by
        simpa [Tree.text, stringText, Partial.text] using hvalue
      obtain ⟨-, hend⟩ := pieces_unique hpieces' hu.1 (.inr ⟨d.tail, rfl⟩) (.inl rfl) hinner
      exact List.cons_ne_nil _ _ hend
    | boolean b => cases b <;> simp [htree, Tree.token, Partial.token] at htoken
    | _ => simp [htree, Tree.token, Partial.token] at htoken

/-- The parser takes the numbers of a value that it gives. -/
lemma taken_iff {t : Tree} (ht : t.Valid options) :
    (t.value (parserReading doubles)).isSome = true ↔ ∀ n ∈ t.numbers, n.Taken doubles := by
  rw [Tree.value_isSome]
  refine forall₂_congr fun n hn => ?_
  have hvalid := Tree.numbers_valid ht n hn
  constructor
  · intro hread
    by_contra htaken
    rw [show (parserReading doubles).number n = none from n.read_of_not_taken hvalid htaken]
      at hread
    cases hread
  · intro htaken
    rw [show (parserReading doubles).number n = _ from n.read_of_taken hvalid htaken]
    exact Option.isSome_iff_ne_none.mpr (Number.denoted_of_taken htaken)

/-- What the parser gives is what is denoted without the null characters. -/
lemma value_withoutNulls {t : Tree} (ht : t.Valid options) (hstrict : t.Strict)
    (htaken : ∀ n ∈ t.numbers, n.Taken doubles) :
    t.value (parserReading doubles) = t.value (withoutNulls doubles) :=
  Tree.value_congr (fun _ hp hs => Piece.read_eq hp hs) ht hstrict
    fun n hn => n.read_of_taken (Tree.numbers_valid ht n hn) (htaken n hn)

lemma denoted_isSome {t : Tree} : (t.value (denotedReading doubles)).isSome = true ↔
    ∀ n ∈ t.numbers, n.denoted doubles ≠ none := by
  rw [Tree.value_isSome]
  exact forall₂_congr fun n _ => Option.isSome_iff_ne_none

/-- The parser takes an input for just what it denotes if and only if the input is regular. -/
theorem parse_iff_denotes_iff_regular (doubles : Doubles δ) (options : Options)
    (memory : ℕ → Byte) (input : Text) :
    (∀ v, parse doubles options memory input = .ok v ↔ Denotes doubles options input v) ↔
      Regular doubles options memory input := by
  constructor
  · intro hsame
    have hnot : ¬ Completed (memoryOf options memory) input := by
      intro hcompleted
      have hparse : ∃ v, parse doubles options memory input = .ok v := parse_completed hcompleted
      obtain ⟨v, hv⟩ := hparse
      obtain ⟨d, hd, -, htext, -⟩ := (hsame v).mp hv
      exact hcompleted.text_ne hd htext
    refine ⟨hnot, ?_⟩
    rintro d hd rfl
    by_cases hparsed : d.Clear (memoryOf options memory) ∧ ∀ n ∈ d.tree.numbers, n.Taken doubles
    · obtain ⟨hclear, htaken⟩ := hparsed
      obtain ⟨v, hv⟩ := Option.isSome_iff_exists.mp ((taken_iff hd.tree).mpr htaken)
      obtain ⟨d', hd', hstrict, htext, hvalue⟩ := (hsame v).mp (parse_document hd hclear hv)
      obtain rfl := Document.text_unique hd' hd htext
      rw [value_withoutNulls hd.tree hstrict.tree htaken] at hv
      exact .inl ⟨hstrict, hclear, htaken, hv.trans hvalue.symm⟩
    · refine .inr ⟨?_, ?_⟩
      · by_contra hdenoted
        rw [not_or, not_not, not_exists] at hdenoted
        have hsome : (d.tree.value (denotedReading doubles)).isSome = true :=
          denoted_isSome.mpr fun n hn hnone => hdenoted.2 n ⟨hn, hnone⟩
        obtain ⟨v, hv⟩ := Option.isSome_iff_exists.mp hsome
        rcases parse_reads ((hsame v).mpr ⟨d, hd, hdenoted.1, rfl, hv⟩) with
          ⟨d', hd', hclear, htext, hvalue⟩ | hcompleted
        · obtain rfl := Document.text_unique hd' hd htext
          exact hparsed ⟨hclear, (taken_iff hd.tree).mp (by rw [hvalue]; rfl)⟩
        · exact hnot hcompleted
      · by_contra hrefused
        rw [not_or, not_not, not_exists] at hrefused
        refine hparsed ⟨hrefused.1, fun n hn => ?_⟩
        by_contra hn'
        exact hrefused.2 n ⟨hn, hn'⟩
  · rintro ⟨hnot, hdocument⟩ v
    constructor
    · intro hparse
      rcases parse_reads hparse with ⟨d, hd, hclear, htext, hvalue⟩ | hcompleted
      · have htaken := (taken_iff hd.tree).mp (by rw [hvalue]; rfl)
        rcases hdocument d hd htext with hkept | hrefused
        · rw [value_withoutNulls hd.tree hkept.strict.tree htaken, hkept.nulls] at hvalue
          exact ⟨d, hd, hkept.strict, htext, hvalue⟩
        · rcases hrefused.parsed with hnotClear | ⟨n, hn, hnotTaken⟩
          · exact absurd hclear hnotClear
          · exact absurd (htaken n hn) hnotTaken
      · exact absurd hcompleted hnot
    · rintro ⟨d, hd, hstrict, rfl, hvalue⟩
      rcases hdocument d hd rfl with hkept | hrefused
      · refine parse_document hd hkept.clear ?_
        rw [value_withoutNulls hd.tree hstrict.tree hkept.taken, hkept.nulls, hvalue]
      · rcases hrefused.denoted with hnotStrict | ⟨n, hn, hnone⟩
        · exact absurd hstrict hnotStrict
        · exact absurd hnone (denoted_isSome.mp (by rw [hvalue]; rfl) n hn)

/-- The slash that begins no comment is passed. -/
def slashedOne : Document where
  mark := false
  gap := ⟨[], true⟩
  tree := .number ⟨false, [char '1'], none, none⟩
  blanks := []
  ending := .plain

/-- `/1` is taken for the number one. -/
theorem slashedOne_not_denoted :
    ¬ ∀ v, parse (δ := Unit) ⟨fun _ => ((), false, 0), fun _ => true⟩ ⟨false, false⟩ (fun _ => 0)
        (ascii "/1") = .ok v ↔
      Denotes ⟨fun _ => ((), false, 0), fun _ => true⟩ ⟨false, false⟩ (ascii "/1") v := by
  intro hsame
  have hvalid : slashedOne.Valid ⟨false, false⟩ := by
    refine ⟨by simp [slashedOne, Gap.Valid], ?_, by decide, by simp [slashedOne], trivial⟩
    exact ⟨⟨by simp, by simp; decide⟩, by decide, by simp, by simp⟩
  have hone : ∀ n ∈ slashedOne.tree.numbers,
      n.Taken (δ := Unit) ⟨fun _ => ((), false, 0), fun _ => true⟩ := by
    intro n hn
    obtain rfl := List.mem_singleton.mp hn
    exact .inl (by decide)
  obtain ⟨v, hv⟩ := Option.isSome_iff_exists.mp ((taken_iff hvalid.tree).mpr hone)
  obtain ⟨d, hd, hstrict, htext, -⟩ :=
    (hsame v).mp (parse_document hvalid slashedOne.clear_zero hv)
  obtain rfl := Document.text_unique hd hvalid htext
  exact absurd hstrict.gap (by simp [slashedOne, Gap.Strict])

end Chromium.Json
