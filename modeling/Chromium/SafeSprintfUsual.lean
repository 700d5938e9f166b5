import Chromium.SafeSprintfOutput

/-!
# SafeSPrintf formats as usual and truncates exactly

The directives put out what they stand for, and a buffer of any size receives the first bytes of
the whole output.
-/
namespace Chromium.SafeSprintf

open WireFormat StringNumber Buffer

/-! ### What directives stand for -/

/-- The number in a base, without leading zeros. -/
def numeral (upcase : Bool) (base n : ℕ) : Text :=
  if n = 0 then ascii "0" else (Nat.digits base n).reverse.map (digitChar upcase)

def rightAligned (width : ℕ) (s : Text) : Text :=
  List.replicate (width - s.length) (char ' ') ++ s

def signText (value : ℤ) : Text := if value < 0 then ascii "-" else []

/-- An integer of so many bytes: `%d` takes its value, the other directives its bits. -/
def usualInteger (conv pad : Byte) (width bytes : ℕ) (i : BitVec 64) (value : ℤ) : Option Text :=
  let bits := i.toNat % 2 ^ (8 * bytes)
  if conv = char 'c' then some (rightAligned width [i.setWidth 8])
  else if conv = char 'd' then
    some (padded pad width (signText value) (numeral true 10 value.natAbs))
  else if conv = char 'o' then some (padded pad width [] (numeral true 8 bits))
  else if conv = char 'x' then some (padded pad width [] (numeral false 16 bits))
  else if conv = char 'X' then some (padded pad width [] (numeral true 16 bits))
  else none

def usualPointer (pad : Byte) (width : ℕ) (ptr : BitVec 64) : Text :=
  padded pad width (ascii "0x") (numeral true 16 ptr.toNat)

/-- What a directive stands for when its argument has the right type. -/
def usual (conv pad : Byte) (width : ℕ) : Arg → Option Text
  | .int i bytes => usualInteger conv pad width bytes i i.toInt
  | .uint i bytes => usualInteger conv pad width bytes i i.toNat
  | .string str =>
    if conv = char 's' then some (rightAligned width (str.elim nullText (·.2.chars)))
    else if conv = char 'p' then some (usualPointer pad width (str.elim 0 (·.1)))
    else none
  | .pointer ptr => if conv = char 'p' then some (usualPointer pad width ptr) else none

/-- The number that the digits of a width stand for. -/
def widthOf (digits : Text) : ℕ := digits.foldl (fun width d => 10 * width + (d.toNat - 48)) 0

/-! ### Directives put out what they stand for -/

lemma digitsUp_reverse (upcase : Bool) (base n : ℕ) :
    (digitsUp upcase base n).reverse = numeral upcase base n := by
  rw [digitsUp, numeral]
  split_ifs
  · cases upcase <;> rfl
  · rw [List.map_reverse]

lemma masked_toNat (i : BitVec 64) (bytes : ℕ) :
    (if bytes < 8 then i &&& ((1#64 <<< (8 * bytes)) - 1) else i).toNat =
      i.toNat % 2 ^ (8 * bytes) := by
  have hlt := i.isLt
  split_ifs with hbytes
  · have hmask : ((1#64 <<< (8 * bytes)) - 1).toNat = 2 ^ (8 * bytes) - 1 := by
      interval_cases bytes <;> decide
    rw [BitVec.toNat_and, hmask, Nat.and_two_pow_sub_one_eq_mod]
  · refine (Nat.mod_eq_of_lt (hlt.trans_le ?_)).symm
    exact Nat.pow_le_pow_right (by decide) (by omega)

lemma digitChar_ne_zero (upcase : Bool) {d : ℕ} (h : d < 16) : digitChar upcase d ≠ 0 := by
  cases upcase <;> interval_cases d <;> decide

lemma zero_notMem_numeral (upcase : Bool) {base : ℕ} (n : ℕ) (hbase : 1 < base) (hle : base ≤ 16) :
    0 ∉ numeral upcase base n := by
  rw [numeral]
  split_ifs
  · decide
  · intro hmem
    obtain ⟨d, hd, hzero⟩ := List.mem_map.mp hmem
    have hlt := Nat.digits_lt_base hbase (List.mem_reverse.mp hd)
    exact digitChar_ne_zero upcase (hlt.trans_le hle) hzero

lemma zero_notMem_padded {pad : Byte} {width : ℕ} {prefixText digits : Text} (hpad : pad ≠ 0)
    (hfront : 0 ∉ prefixText) (hdigits : 0 ∉ digits) :
    0 ∉ padded pad width prefixText digits := by
  have hfill : ∀ n, 0 ∉ List.replicate n pad := fun n hmem =>
    hpad (List.eq_of_mem_replicate hmem).symm
  rw [padded]
  split_ifs <;> simp only [List.mem_append, hfront, hfill, hdigits, or_self, not_false_iff]

/-- A part puts out a text, and a NUL in it ends the output. -/
structure Piece.PutsOut (piece : Piece) (text : Text) : Prop where
  output : piece.output = if 0 ∈ text then text.dropLast else text
  goesOn : piece.goesOn = decide (0 ∉ text)

lemma putsOut_integer {sign upcase : Bool} {i : BitVec 64} {base width : ℕ} {pad : Byte}
    {prefixText : Text} (hpad : pad ≠ 0) (hfront : 0 ∉ prefixText) (hbase : 1 < base)
    (hle : base ≤ 16) :
    (Piece.integer sign upcase i base pad width prefixText).PutsOut
      (padded pad width (if sign ∧ i.toInt < 0 then ascii "-" else prefixText)
        (numeral upcase base (magnitude sign i))) := by
  have hnone : 0 ∉ padded pad width (if sign ∧ i.toInt < 0 then ascii "-" else prefixText)
      (numeral upcase base (magnitude sign i)) := by
    refine zero_notMem_padded hpad ?_ (zero_notMem_numeral upcase _ hbase hle)
    split_ifs
    · decide
    · exact hfront
  refine ⟨?_, (decide_eq_true hnone).symm⟩
  rw [if_neg hnone, Piece.output, number, digitsUp_reverse]

lemma zero_notMem_rightAligned {s : Text} (width : ℕ) (hs : 0 ∉ s) :
    0 ∉ rightAligned width s := by
  rw [rightAligned, List.mem_append, List.mem_replicate]
  rintro (⟨-, hspace⟩ | hmem)
  · exact absurd hspace (by decide)
  · exact hs hmem

lemma putsOut_character (ch : Byte) (width : ℕ) :
    (Piece.character ch width).PutsOut (rightAligned width [ch]) := by
  by_cases hnul : ch = 0
  · subst hnul
    have hmem : 0 ∈ rightAligned width [0] := List.mem_append_right _ (List.mem_singleton_self 0)
    constructor
    · rw [if_pos hmem, Piece.output, if_pos rfl, rightAligned, List.dropLast_concat,
        List.append_nil]
      rfl
    · rw [Piece.goesOn, decide_eq_false (not_not.mpr rfl), decide_eq_false (not_not.mpr hmem)]
  · have hnone := zero_notMem_rightAligned width fun hmem =>
      hnul (List.mem_singleton.mp hmem).symm
    refine ⟨?_, ?_⟩
    · rw [if_neg hnone, Piece.output, if_neg hnul]
      rfl
    · rw [decide_eq_true hnone, Piece.goesOn, decide_eq_true hnul]

lemma putsOut_text {s : Text} (width : ℕ) (hs : 0 ∉ s) :
    (Piece.text s width).PutsOut (rightAligned width s) := by
  have hnone := zero_notMem_rightAligned width hs
  exact ⟨by rw [if_neg hnone]; rfl, (decide_eq_true hnone).symm⟩

lemma usualInteger_putsOut {conv pad : Byte} {width bytes : ℕ} {i : BitVec 64} {text : Text}
    {arg : Arg} {value : ℤ} (hpad : pad ≠ 0)
    (harg : arg = .int i bytes ∧ value = i.toInt ∨ arg = .uint i bytes ∧ value = i.toNat)
    (h : usualInteger conv pad width bytes i value = some text) :
    conv ∈ conversions ∧
      ∃ piece, expand conv pad width arg = some piece ∧ piece.PutsOut text := by
  have hplain : arg.integer false = some i := by
    rcases harg with ⟨rfl, -⟩ | ⟨rfl, -⟩ <;> simp [Arg.integer]
  have hmasked : arg.integer true =
      some (if bytes < 8 then i &&& ((1#64 <<< (8 * bytes)) - 1) else i) := by
    rcases harg with ⟨rfl, -⟩ | ⟨rfl, -⟩ <;> simp [Arg.integer]
  have hbits : ∀ (upcase : Bool) (base : ℕ), 1 < base → base ≤ 16 →
      (Piece.integer false upcase (if bytes < 8 then i &&& ((1#64 <<< (8 * bytes)) - 1) else i)
        base pad width []).PutsOut
        (padded pad width [] (numeral upcase base (i.toNat % 2 ^ (8 * bytes)))) := by
    intro upcase base hbase hle
    rw [← masked_toNat]
    exact @putsOut_integer false upcase _ base width pad [] hpad (List.not_mem_nil) hbase hle
  rw [usualInteger] at h
  split_ifs at h with hc hd ho hx hX <;> obtain rfl := Option.some.inj h <;> subst conv <;>
    refine ⟨by decide, ?_⟩
  · exact ⟨_, by rw [expand, if_pos rfl, hplain]; rfl, putsOut_character _ _⟩
  · refine ⟨.integer arg.isInt true i 10 pad width [], ?_, ?_⟩
    · have hexpand : expand (char 'd') pad width arg = (arg.integer false).map fun i =>
          .integer arg.isInt true i 10 pad width [] := by
        rcases harg with ⟨rfl, -⟩ | ⟨rfl, -⟩ <;> rfl
      rw [hexpand, hplain]
      rfl
    · have hputs := @putsOut_integer arg.isInt true i 10 width pad [] hpad (List.not_mem_nil)
        (by decide) (by decide)
      rcases harg with ⟨rfl, rfl⟩ | ⟨rfl, rfl⟩
      · simpa [Arg.isInt, magnitude, signText] using hputs
      · have hpos : ¬ (i.toNat : ℤ) < 0 := by omega
        simpa [Arg.isInt, magnitude, signText, hpos] using hputs
  · refine ⟨_, ?_, hbits true 8 (by decide) (by decide)⟩
    have hexpand : expand (char 'o') pad width arg = (arg.integer true).map fun i =>
        .integer false true i 8 pad width [] := by
      rcases harg with ⟨rfl, -⟩ | ⟨rfl, -⟩ <;> rfl
    rw [hexpand, hmasked]
    rfl
  · refine ⟨_, ?_, hbits false 16 (by decide) (by decide)⟩
    have hexpand : expand (char 'x') pad width arg = (arg.integer true).map fun i =>
        .integer false false i 16 pad width [] := by
      rcases harg with ⟨rfl, -⟩ | ⟨rfl, -⟩ <;> rfl
    rw [hexpand, hmasked]
    rfl
  · refine ⟨_, ?_, hbits true 16 (by decide) (by decide)⟩
    have hexpand : expand (char 'X') pad width arg = (arg.integer true).map fun i =>
        .integer false true i 16 pad width [] := by
      rcases harg with ⟨rfl, -⟩ | ⟨rfl, -⟩ <;> rfl
    rw [hexpand, hmasked]
    rfl

/-- A format character with an argument of the right type puts out what it stands for. -/
theorem usual_putsOut {conv pad : Byte} {width : ℕ} {arg : Arg} {text : Text} (hpad : pad ≠ 0)
    (h : usual conv pad width arg = some text) :
    conv ∈ conversions ∧
      ∃ piece, expand conv pad width arg = some piece ∧ piece.PutsOut text := by
  have hpointer : ∀ ptr : BitVec 64,
      (Piece.integer false true ptr 16 pad width (ascii "0x")).PutsOut
        (usualPointer pad width ptr) := fun ptr =>
    @putsOut_integer false true ptr 16 width pad (ascii "0x") hpad (by decide) (by decide)
      (by decide)
  cases arg with
  | int i bytes => exact usualInteger_putsOut hpad (Or.inl ⟨rfl, rfl⟩) h
  | uint i bytes => exact usualInteger_putsOut hpad (Or.inr ⟨rfl, rfl⟩) h
  | string str =>
    rw [usual] at h
    split_ifs at h with hs hp <;> obtain rfl := Option.some.inj h <;> subst conv <;>
      refine ⟨by decide, ?_⟩
    · have hnul : 0 ∉ str.elim nullText (·.2.chars) := by
        cases str with
        | none => decide
        | some str => exact str.2.noNul
      refine ⟨_, ?_, putsOut_text width hnul⟩
      cases str <;> rfl
    · refine ⟨_, ?_, hpointer _⟩
      cases str <;> rfl
  | pointer ptr =>
    rw [usual] at h
    split_ifs at h with hp
    obtain rfl := Option.some.inj h
    subst conv
    exact ⟨by decide, _, rfl, hpointer ptr⟩

/-! ### Widths -/

lemma isDigit_toNat {ch : Byte} (h : isDigit ch) : ch.toNat - 48 ≤ 9 := by
  have hle := (of_decide_eq_true h).2
  have hnat : ch.toNat ≤ 57 := hle
  omega

lemma le_foldl (digits : Text) (width : ℕ) :
    width ≤ digits.foldl (fun width d => 10 * width + (d.toNat - 48)) width := by
  induction digits generalizing width with
  | nil => exact le_rfl
  | cons d digits ih =>
    have hle : width ≤ 10 * width + (d.toNat - 48) := by omega
    exact hle.trans (ih _)

lemma readWidth_digits {digits rest : Text} {width : ℕ} (hdigits : ∀ d ∈ digits, isDigit d)
    (hrest : ∀ ch ∈ rest.head?, ¬ isDigit ch)
    (hmax : digits.foldl (fun width d => 10 * width + (d.toNat - 48)) width ≤ kSSizeMax - 1) :
    readWidth width (digits ++ rest) =
      (some (digits.foldl (fun width d => 10 * width + (d.toNat - 48)) width), rest) := by
  induction digits generalizing width with
  | nil =>
    cases rest with
    | nil => rfl
    | cons ch rest => rw [List.nil_append, readWidth, if_neg (hrest ch rfl)]; rfl
  | cons d digits ih =>
    have hd := hdigits d List.mem_cons_self
    have hle : 10 * width + (d.toNat - 48) ≤ kSSizeMax - 1 := (le_foldl digits _).trans hmax
    have hlt := isDigit_toNat hd
    rw [List.cons_append, readWidth, if_pos hd, if_neg (by omega), List.foldl_cons]
    exact ih (fun d hd => hdigits d (List.mem_cons_of_mem _ hd)) hmax

/-- A directive with a width and an argument of the right type. -/
theorem output_usual {args : List Arg} {cur_arg : ℕ} {digits rest text : Text} {conv : Byte}
    {arg : Arg} (hdigits : ∀ d ∈ digits, isDigit d) (hmax : widthOf digits ≤ kSSizeMax - 1)
    (harg : args[cur_arg]? = some arg)
    (husual : usual conv (padOf digits) (widthOf digits) arg = some text) :
    output args cur_arg (char '%' :: (digits ++ conv :: rest)) =
      if 0 ∈ text then text.dropLast
      else text ++ output args (behindArg args cur_arg) rest := by
  have hpad : padOf digits ≠ 0 := by
    rw [padOf]
    split_ifs <;> decide
  obtain ⟨hconv, piece, hexpand, houtput, hgoes⟩ := usual_putsOut hpad husual
  have hnot : ∀ ch ∈ conversions, ¬ isDigit ch ∧ ch ≠ char '0' := by decide
  have hsame : padOf (digits ++ conv :: rest) = padOf digits := by
    cases digits with
    | nil => simp [padOf, (hnot conv hconv).2]
    | cons d digits => rfl
  have hread := @readWidth_digits digits (conv :: rest) 0 hdigits (by
    intro ch hch
    obtain rfl := Option.some.inj hch
    exact (hnot _ hconv).1) hmax
  have hdirective : directive args cur_arg (digits ++ conv :: rest) =
      (piece, behindArg args cur_arg, rest) := by
    rw [directive_some hread, hsame]
    simp only [List.headD_cons, List.tail_cons, if_pos hconv, harg, Option.bind_some]
    rw [← widthOf, hexpand]
    rfl
  rw [output_directive, hdirective, houtput, hgoes]
  by_cases hnul : 0 ∈ text
  · rw [if_pos hnul, if_pos hnul, decide_eq_false (not_not.mpr hnul)]
    simp
  · rw [if_neg hnul, if_neg hnul, decide_eq_true hnul, if_pos rfl]

/-! ### Truncation -/

/-- For every size that is positive as a signed number, the result is the length of the whole
output and the buffer holds its first bytes. -/
theorem safeSNPrintf_truncates (buf : List Byte) (sz : BitVec 64) (fmt : CString)
    (args : List Arg) (hlength : buf.length = sz.toNat) (hpos : 1 ≤ sz.toNat)
    (hsigned : sz.toNat < 2 ^ 63) (hfits : (output args 0 fmt.chars).length < kSSizeMax - 1) :
    safeSNPrintf buf sz fmt args =
        some (((output args 0 fmt.chars).length : ℤ), filled buf (output args 0 fmt.chars)) ∧
      ∀ (cur_arg : ℕ) (digits rest text : Text) (conv : Byte) (arg : Arg),
        (∀ d ∈ digits, isDigit d) → widthOf digits ≤ kSSizeMax - 1 → args[cur_arg]? = some arg →
        usual conv (padOf digits) (widthOf digits) arg = some text →
        output args cur_arg (char '%' :: (digits ++ conv :: rest)) =
          if 0 ∈ text then text.dropLast
          else text ++ output args (behindArg args cur_arg) rest := by
  constructor
  · refine withBuffer_output hlength ?_ fun b hb => ?_
    · rw [BitVec.toInt_eq_toNat_of_lt (by omega)]
      omega
    · exact format_output hb (Nat.lt_succ_self _) (by rw [List.length_nil, Nat.zero_add]; omega)
  · intro cur_arg digits rest text conv arg hdigits hmax harg husual
    exact output_usual hdigits hmax harg husual

lemma output_singleton {args : List Arg} {fmt : Text} {piece : Piece} {cur_arg : ℕ}
    (h : directive args 0 fmt = (piece, cur_arg, [])) :
    output args 0 (char '%' :: fmt) = piece.output := by
  rw [output_directive, h]
  simp [output]

/-- A width, a sign and a buffer that is too small for the digits. -/
theorem safeSNPrintf_truncates_digits :
    safeSNPrintf (List.replicate 5 7) 5 ⟨ascii "%06d", by decide, by decide⟩
      [.int (-77) 4] = some (6, ascii "-000" ++ [0]) := by
  have houtput : output [.int (-77) 4] 0 (ascii "%06d") = ascii "-00077" :=
    (@output_singleton [.int (-77) 4] (ascii "06d")
      (.integer true true (-77) 10 (char '0') 6 []) 1 (by rfl)).trans (by decide +kernel)
  have htruncated := (safeSNPrintf_truncates (List.replicate 5 7) 5
    ⟨ascii "%06d", by decide, by decide⟩ [.int (-77) 4] (by decide) (by decide) (by decide)
    (by rw [houtput]; decide)).1
  rw [houtput] at htruncated
  exact htruncated.trans (by decide)

/-- A size that is negative as a signed number is refused, and a NUL ends the output. -/
theorem safeSNPrintf_not_truncated :
    (¬ ∀ (buf : List Byte) (sz : BitVec 64) (fmt : CString) (args : List Arg),
      buf.length = sz.toNat → 1 ≤ sz.toNat → (output args 0 fmt.chars).length < kSSizeMax - 1 →
      safeSNPrintf buf sz fmt args =
        some (((output args 0 fmt.chars).length : ℤ), filled buf (output args 0 fmt.chars))) ∧
    ¬ ∀ (args : List Arg) (cur_arg : ℕ) (digits rest text : Text) (conv : Byte) (arg : Arg),
      (∀ d ∈ digits, isDigit d) → widthOf digits ≤ kSSizeMax - 1 → args[cur_arg]? = some arg →
      usual conv (padOf digits) (widthOf digits) arg = some text →
      output args cur_arg (char '%' :: (digits ++ conv :: rest)) =
        text ++ output args (behindArg args cur_arg) rest := by
  constructor
  · intro h
    have hnil : output [] 0 [] = [] := by rw [output]
    have hlarge := h (List.replicate (2 ^ 63) 0) (BitVec.intMin 64) ⟨[], by decide, by decide⟩ []
      (by rw [List.length_replicate]; decide) (by decide) (by rw [hnil]; decide)
    rw [safeSNPrintf, withBuffer, if_pos (by decide), hnil] at hlarge
    have hreturn := congrArg Prod.fst (Option.some.inj hlarge)
    exact absurd hreturn (by decide)
  · intro h
    have hnul := h [.int 0 4] 0 [] (ascii "A") [0] (char 'c') (.int 0 4) (by simp) (by decide) rfl
      (by decide)
    have hlength := congrArg List.length hnul
    rw [List.nil_append, output_directive] at hlength
    have hdirective : directive [.int 0 4] 0 (char 'c' :: ascii "A") =
        (.character 0 0, 1, ascii "A") := by rfl
    rw [hdirective] at hlength
    simp [Piece.output, Piece.goesOn] at hlength

end Chromium.SafeSprintf
