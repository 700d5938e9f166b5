import Chromium.JsonParserAccepts
import Mathlib.Data.List.TakeWhile

/-!
# What the JSON parser reads

Whatever the parser takes is the text of a tree, nested less than `kStackMaxDepth` deep, and what
it gives is the value of the tree. Only where the input ends within a literal or a string of its
own can the memory behind it complete the value.
-/
namespace Chromium.Json

open WireFormat StringNumber

namespace JSONParser

variable {memory : ℕ → Byte} {p q : JSONParser} {s r : Text} {c : Byte} {token : Token}

/-! ### White space and comments -/

lemma exists_newline (s : Text) :
    (∃ body newline r, s = body ++ newline :: r ∧ (∀ b ∈ body, isNewline b = false) ∧
      isNewline newline = true) ∨ ∀ b ∈ s, isNewline b = false := by
  induction s with
  | nil => exact .inr (by simp)
  | cons c s ih =>
    cases hc : isNewline c with
    | true => exact .inl ⟨[], c, s, rfl, by simp, hc⟩
    | false =>
      rcases ih with ⟨body, newline, r, rfl, hbody, hnewline⟩ | hall
      · refine .inl ⟨c :: body, newline, r, rfl, ?_, hnewline⟩
        simpa [hc] using hbody
      · exact .inr (by simpa [hc] using hall)

lemma exists_mark (s : Text) :
    (∃ body r, s = body ++ char '*' :: char '/' :: r ∧ ¬ [char '*', char '/'] <:+: body) ∨
      ¬ [char '*', char '/'] <:+: s := by
  induction s with
  | nil => exact .inr (by simp)
  | cons a s ih =>
    by_cases hmark : [char '*', char '/'] <+: a :: s
    · obtain ⟨r, hr⟩ := hmark
      exact .inl ⟨[], r, hr.symm, by simp⟩
    · rcases ih with ⟨body, r, rfl, hbody⟩ | hnone
      · refine .inl ⟨a :: body, r, rfl, ?_⟩
        rw [List.infix_cons_iff]
        rintro (hpre | hsub)
        · exact hmark (hpre.trans (List.prefix_append (a :: body) _))
        · exact hbody hsub
      · refine .inr ?_
        rw [List.infix_cons_iff]
        rintro (hpre | hsub)
        · exact hmark hpre
        · exact hnone hsub

/-- Nothing but white space and comments. -/
def IsTail (s : Text) : Prop :=
  ∃ (bs : List Blank) (e : Ending), (∀ b ∈ bs, b.Valid) ∧ e.Valid ∧
    s = bs.flatMap Blank.text ++ e.text

/-- A gap in front of a character. -/
def IsGap (s : Text) : Prop :=
  ∃ (g : Gap) (c : Byte) (r : Text), g.Valid ∧ s = g.text ++ c :: r ∧ StopsAt g c

/-- Every text begins with a gap in front of a character, or holds nothing else. -/
lemma exists_gap (s : Text) : IsGap s ∨ IsTail s := by
  induction hlength : s.length using Nat.strong_induction_on generalizing s with
  | _ n ih =>
    -- A blank in front is put to the gap that follows it.
    have hblank : ∀ (b : Blank) (t : Text), b.Valid → t.length < n → s = b.text ++ t →
        IsGap s ∨ IsTail s := by
      intro b t hb hlt hs
      rcases ih t.length hlt t rfl with ⟨g, c, r, hg, ht, hc⟩ | ⟨bs, e, hbs, he, ht⟩
      · refine .inl ⟨⟨b :: g.blanks, g.slash⟩, c, r, ?_, ?_, hc⟩
        · intro b' hb'
          rcases List.mem_cons.mp hb' with rfl | hb'
          · exact hb
          · exact hg b' hb'
        · rw [hs, ht]
          simp [Gap.text]
      · refine .inr ⟨b :: bs, e, ?_, he, ?_⟩
        · intro b' hb'
          rcases List.mem_cons.mp hb' with rfl | hb'
          · exact hb
          · exact hbs b' hb'
        · rw [hs, ht]
          simp
    cases s with
    | nil => exact .inr ⟨[], .plain, by simp, trivial, rfl⟩
    | cons c s =>
      by_cases hc : isBlank c = true
      · exact hblank (.space c) s hc (by simp at hlength; omega) rfl
      by_cases hslash : c = char '/'
      · subst hslash
        cases s with
        | nil => exact .inr ⟨[], .slash, by simp, trivial, rfl⟩
        | cons d s =>
          by_cases hline : d = char '/'
          · subst hline
            rcases exists_newline s with ⟨body, newline, r, rfl, hbody, hnewline⟩ | hall
            · exact hblank (.line body newline) r ⟨hbody, hnewline⟩
                (by simp at hlength; omega) (by simp [Blank.text])
            · exact .inr ⟨[], .line s, by simp, hall, rfl⟩
          by_cases hstar : d = char '*'
          · subst hstar
            rcases exists_mark s with ⟨body, r, rfl, hbody⟩ | hnone
            · exact hblank (.block body) r hbody (by simp at hlength; omega) (by simp [Blank.text])
            · exact .inr ⟨[], .block s, by simp, hnone, rfl⟩
          · exact .inl ⟨⟨[], true⟩, d, s, by simp [Gap.Valid], rfl, hline, hstar⟩
      · exact .inl ⟨⟨[], false⟩, c, s, by simp [Gap.Valid], rfl, by simpa using hc, hslash⟩

/-- The token is the one of the character behind the gap, if there is one. -/
lemma At.getNextToken_cases (h : p.At s) (htoken : p.getNextToken memory = (token, q)) :
    (∃ (g : Gap) (c : Byte) (r : Text), g.Valid ∧ s = g.text ++ c :: r ∧ token = tokenOf c ∧
        q.At (c :: r)) ∨ (token = .endOfInput ∧ IsTail s) := by
  rcases exists_gap s with ⟨g, c, r, hg, rfl, hc⟩ | ⟨bs, e, hbs, he, rfl⟩
  · obtain ⟨q', htoken', hq'⟩ := h.getNextToken_stopsAt memory hg hc
    rw [htoken] at htoken'
    obtain ⟨rfl, rfl⟩ := Prod.mk.inj htoken'
    exact .inl ⟨g, c, r, hg, rfl, rfl, hq'⟩
  · have hend := h.getNextToken_ending memory hbs he
    rw [htoken] at hend
    exact .inr ⟨hend, bs, e, hbs, he, rfl⟩

variable (memory) in
lemma getNextToken_of_rest (h : p.rest = []) :
    (p.getNextToken memory).1 = .endOfInput := by
  rw [getNextToken, eatWhitespace_of_rest_nil memory h, if_neg (by simp [canConsume, h])]

variable (memory) in
lemma rest_nextChar (h : p.rest = []) : (p.nextChar memory).rest = [] := by
  rw [nextChar, h]

/-! ### Strings -/

variable {b b' : StringBuilder}

/-- Behind the end of the input nothing more is consumed. -/
lemma consumeCharacters_past (h : 0 < p.past) (fuel : ℕ) :
    consumeCharacters memory fuel b p ≠ .ok (b', q) := by
  cases fuel with
  | zero => simp [consumeCharacters]
  | succ fuel =>
    rw [consumeCharacters, if_pos h]
    simp [reportError]

lemma At.past_nextChar (h : p.At []) : 0 < (p.nextChar memory).past := by
  rw [JSONParser.nextChar, h.1]
  exact Nat.succ_pos _

/-- The four characters at the front. -/
lemma exists_digits (h : 4 ≤ s.length) : ∃ digits r, s = digits ++ r ∧ digits.length = 4 :=
  ⟨s.take 4, s.drop 4, (List.take_append_drop 4 s).symm, by simpa using h⟩

/-- What is decoded was written with one unit or with two. The last character of the second one
may lie behind the end of the input. -/
lemma At.decodeUTF16_reads (h : p.At s) {str : Text}
    (hdecode : decodeUTF16 memory p = .ok (str, q)) :
    (∃ (piece : Piece) (r : Text) (x : Byte), piece.Valid ∧
      char '\\' :: char 'u' :: s = piece.text ++ r ∧ (∀ c, piece ≠ .plain c) ∧ q.At (x :: r)) ∨
      q.At [] := by
  have hlength : 4 ≤ s.length := by
    by_contra hshort
    rw [JSONParser.decodeUTF16, if_pos (by rwa [h.canConsume_iff])] at hdecode
    cases hdecode
  obtain ⟨high, r, rfl, hhigh⟩ := exists_digits hlength
  obtain ⟨x, hx⟩ := h.nextNChars_three memory hhigh
  have hpiece := h.piece memory
  rw [hhigh] at hpiece
  rw [JSONParser.decodeUTF16, if_neg (by rw [h.canConsume_iff]; simpa using hlength), hpiece]
    at hdecode
  cases hn : hexStringToInt high with
  | none => simp [hn] at hdecode
  | some n =>
    rw [hn] at hdecode
    dsimp only at hdecode
    have hnumber : Piece.number high = some (unsigned n) := by rw [Piece.number, hn]; rfl
    split_ifs at hdecode with hsurrogate hlead hroom hslash hu
    · have hlong : 6 ≤ (x :: r).length := by
        rwa [hx.canConsume_iff] at hroom
      obtain ⟨y, z, r, rfl⟩ : ∃ y z r', r = y :: z :: r' := by
        cases r with
        | nil => simp at hlong
        | cons y r =>
          cases r with
          | nil => simp at hlong
          | cons z r => exact ⟨y, z, r, rfl⟩
      have hy := hx.nextChar memory
      have hz := hy.nextChar memory
      have hlow := hz.nextChar memory
      rw [hy.peek, not_not] at hslash
      rw [hz.peek, not_not] at hu
      subst hslash hu
      cases hm : hexStringToInt
          ((((p.nextNChars memory 3).nextChar memory).nextChar memory).nextChar memory
            |>.piece memory 4) with
      | none => simp [hm] at hdecode
      | some m =>
        rw [hm] at hdecode
        dsimp only at hdecode
        split_ifs at hdecode with htrail
        obtain ⟨-, rfl⟩ := Prod.mk.inj (Except.ok.inj hdecode)
        by_cases hfour : 4 ≤ r.length
        · obtain ⟨low, r', rfl, hlength'⟩ := exists_digits hfour
          obtain ⟨x', hx'⟩ := hlow.nextNChars_three memory hlength'
          have hpiece' := hlow.piece memory
          rw [hlength'] at hpiece'
          rw [hpiece'] at hm
          have hnumber' : Piece.number low = some (unsigned m) := by rw [Piece.number, hm]; rfl
          refine .inl ⟨.pair high low, r', x', ⟨hhigh, hlength', ⟨_, hnumber, hsurrogate,
            hlead⟩, _, hnumber', by simpa using htrail⟩, ?_, by simp, hx'⟩
          simp [Piece.text]
        · obtain ⟨d, e, f, rfl⟩ : ∃ d e f, r = [d, e, f] :=
            List.length_eq_three.mp (by simp at hlong hfour; omega)
          exact .inr (hlow.nextNChars (s := [d, e, f]) (r := []) memory)
    · obtain ⟨-, rfl⟩ := Prod.mk.inj (Except.ok.inj hdecode)
      refine .inl ⟨.unit high, r, x, ⟨hhigh, _, hnumber, by simpa using hsurrogate⟩, ?_,
        by simp, hx⟩
      simp [Piece.text]

lemma At.consumeEscape_reads (h : p.At s)
    (hconsume : consumeEscape memory b p = .ok (b', q)) :
    (∃ (piece : Piece) (r : Text) (x : Byte), piece.Valid ∧ char '\\' :: s = piece.text ++ r ∧
      (∀ c, piece ≠ .plain c) ∧ q.At (x :: r)) ∨ q.At [] := by
  rw [consumeEscape] at hconsume
  cases s with
  | nil =>
    have hnone : ∀ n, 0 < n → ¬ p.canConsume n := by
      intro n hn
      rw [h.canConsume_iff, List.length_nil]
      omega
    rw [if_pos (hnone 2 (by decide)), if_pos (hnone 5 (by decide))] at hconsume
    split_ifs at hconsume with hx hu
    · simp [reportError] at hconsume
    · simp [reportError] at hconsume
    · cases hescape : simpleEscape (p.peek memory) with
      | none => simp [hescape, reportError] at hconsume
      | some value =>
        rw [hescape] at hconsume
        obtain ⟨-, rfl⟩ := Prod.mk.inj (Except.ok.inj hconsume)
        exact .inr h
  | cons c s =>
    rw [h.peek] at hconsume
    split_ifs at hconsume with hx hroom hu hroom
    · subst hx
      cases s with
      | nil => exact absurd ((h.canConsume_iff 2).mp hroom) (by simp)
      | cons d s =>
        have hd := h.nextChar memory
        cases hn : hexStringToInt ((p.nextChar memory).piece memory 2) with
        | none => simp [hn, reportError] at hconsume
        | some n =>
          simp only [hn] at hconsume
          obtain ⟨-, rfl⟩ := Prod.mk.inj (Except.ok.inj hconsume)
          cases s with
          | nil => exact .inr (hd.nextChar memory)
          | cons e r =>
            have hpiece : (p.nextChar memory).piece memory 2 = [d, e] :=
              hd.piece (s := [d, e]) (r := r) memory
            rw [hpiece] at hn
            exact .inl ⟨.byte [d, e], r, e, ⟨rfl, by simp [hn]⟩, rfl, by simp, hd.nextChar memory⟩
    · simp [reportError] at hconsume
    · subst hu
      cases hdecode : decodeUTF16 memory (p.nextChar memory) with
      | error q' => simp [hdecode, reportError] at hconsume
      | ok result =>
        obtain ⟨str, q'⟩ := result
        rw [hdecode] at hconsume
        obtain ⟨-, rfl⟩ := Prod.mk.inj (Except.ok.inj hconsume)
        exact (h.nextChar memory).decodeUTF16_reads hdecode
    · simp [reportError] at hconsume
    · cases hescape : simpleEscape c with
      | none => simp [hescape, reportError] at hconsume
      | some value =>
        rw [hescape] at hconsume
        obtain ⟨-, rfl⟩ := Prod.mk.inj (Except.ok.inj hconsume)
        exact .inl ⟨.escape c, s, c, by simp [Piece.Valid, hescape], rfl, by simp, h⟩

/-- The characters before the quote are parts of a string. The quote itself may lie behind the
end of the input. -/
lemma At.consumeCharacters_reads (fuel : ℕ) (h : p.At s)
    (hconsume : consumeCharacters memory fuel b p = .ok (b', q)) :
    ∃ (pieces : List Piece) (r : Text), (∀ x ∈ pieces, x.Valid) ∧
      s = pieces.flatMap Piece.text ++ r ∧ q.At r ∧
      ((∃ r', r = char '"' :: r') ∨ (r = [] ∧ memory 0 = char '"')) := by
  induction fuel generalizing p s b with
  | zero => simp [consumeCharacters] at hconsume
  | succ fuel ih =>
    rw [consumeCharacters, if_neg (by rw [h.2]; decide)] at hconsume
    dsimp only at hconsume
    cases hnext : IcuUtf.next (p.peek memory) p.rest.tail with
    | mk point n =>
      rw [hnext] at hconsume
      cases point with
      | none => simp [reportError] at hconsume
      | some c =>
        dsimp only at hconsume
        obtain ⟨hvalid, trail, more, htail, hlength, happend⟩ := IcuUtf.next_eq_some hnext
        split_ifs at hconsume with hcharacter hslash hroom hquote
        · obtain ⟨x, s, rfl⟩ := List.exists_cons_of_length_pos ((h.canConsume_iff 1).mp hroom)
          rw [h.peek, hslash] at happend
          obtain ⟨rfl, rfl⟩ : char '\\' = x ∧ [] = trail := List.cons_eq_cons.mp happend
          obtain rfl : 0 = n := hlength
          have hfirst : p.nextNChars memory (0 + 1) = p.nextChar memory :=
            nextNChars_succ memory 0 p
          rw [hfirst] at hconsume
          cases hescape : consumeEscape memory (b.convert memory) (p.nextChar memory) with
          | error e => simp [hescape, bind, Except.bind] at hconsume
          | ok result =>
            obtain ⟨b₁, q₁⟩ := result
            simp only [hescape, bind, Except.bind] at hconsume
            rcases (h.nextChar memory).consumeEscape_reads hescape with
              ⟨piece, r, y, hpiece, htext, -, hq₁⟩ | hq₁
            · obtain ⟨pieces, r', hpieces, rfl, hq, hend⟩ := ih (hq₁.nextChar memory) hconsume
              refine ⟨piece :: pieces, r', ?_, ?_, hq, hend⟩
              · simpa using ⟨hpiece, hpieces⟩
              · rw [htext, List.flatMap_cons, List.append_assoc]
            · exact absurd hconsume (consumeCharacters_past hq₁.past_nextChar fuel)
        · simp [reportError] at hconsume
        · obtain ⟨rfl, rfl⟩ := Prod.mk.inj (Except.ok.inj hconsume)
          rw [hquote] at happend
          obtain ⟨hpeek, rfl⟩ : char '"' = p.peek memory ∧ [] = trail :=
            List.cons_eq_cons.mp happend
          refine ⟨[], s, by simp, rfl, h, ?_⟩
          cases s with
          | nil =>
            rw [h.peek_headD] at hpeek
            exact .inr ⟨rfl, hpeek.symm⟩
          | cons x s =>
            rw [h.peek] at hpeek
            exact .inl ⟨s, by rw [hpeek]⟩
        · cases s with
          | nil =>
            rw [h.1, List.tail_nil] at htail
            obtain ⟨rfl, rfl⟩ := List.append_eq_nil_iff.mp htail.symm
            obtain rfl : 0 = n := hlength
            have hfirst : p.nextNChars memory (0 + 1) = p.nextChar memory :=
              nextNChars_succ memory 0 p
            rw [hfirst] at hconsume
            exact absurd hconsume (consumeCharacters_past h.past_nextChar fuel)
          | cons x s =>
            rw [h.1, List.tail_cons] at htail
            rw [h.peek] at happend
            have hat : p.At ((Piece.plain c).text ++ more) := by
              rw [Piece.text, happend, List.cons_append, ← htail]
              exact h
            have hmore := hat.nextNChars memory
            rw [Piece.text, happend, List.length_cons, hlength] at hmore
            obtain ⟨pieces, r', hpieces, rfl, hq, hend⟩ := ih hmore hconsume
            refine ⟨.plain c :: pieces, r', ?_, ?_, hq, hend⟩
            · intro y hy
              rcases List.mem_cons.mp hy with rfl | hy
              · exact ⟨by simpa using hcharacter, hquote, hslash⟩
              · exact hpieces y hy
            · rw [List.flatMap_cons, Piece.text, happend, List.append_assoc, List.cons_append,
                ← htail]
        · simp [reportError] at hconsume

/-- A string is read up to its quote, or up to the end of the input with the quote behind it. -/
lemma At.consumeStringRaw_reads (h : p.At (char '"' :: s))
    (hconsume : JSONParser.consumeStringRaw memory p = .ok (b, q)) :
    (∃ (pieces : List Piece) (r : Text), (∀ x ∈ pieces, x.Valid) ∧
      char '"' :: s = stringText pieces ++ r ∧ q.At (char '"' :: r) ∧
      b.asString memory = pieces.flatMap Piece.read) ∨
    ∃ pieces : List Piece, (∀ x ∈ pieces, x.Valid) ∧ pieces ≠ [] ∧ s = pieces.flatMap Piece.text ∧
      q.At [] ∧ memory 0 = char '"' := by
  have hnext := h.nextChar memory
  have hread := hconsume
  rw [JSONParser.consumeStringRaw, h.peek, if_neg (by simp)] at hread
  dsimp only at hread
  split_ifs at hread with hroom
  · obtain ⟨pieces, r, hpieces, rfl, hq, hend⟩ := hnext.consumeCharacters_reads _ hread
    rcases hend with ⟨r', rfl⟩ | ⟨rfl, hmemory⟩
    · have htext : char '"' :: (pieces.flatMap Piece.text ++ char '"' :: r') =
          stringText pieces ++ r' := by
        simp [stringText]
      have hat : p.At (stringText pieces ++ r') := by
        rw [← htext]
        exact h
      obtain ⟨b₁, q₁, hconsume', hstring, -⟩ := hat.consumeStringRaw memory hpieces
      rw [hconsume] at hconsume'
      obtain ⟨rfl, rfl⟩ := Prod.mk.inj (Except.ok.inj hconsume')
      exact .inl ⟨pieces, r', hpieces, htext, hq, hstring⟩
    · refine .inr ⟨pieces, hpieces, ?_, by simp, hq, hmemory⟩
      rintro rfl
      exact absurd ((hnext.canConsume_iff 1).mp hroom) (by simp)
  · simp [reportError] at hread

/-! ### Numbers -/

/-- There are no digits behind the end of the input. -/
lemma readInt_of_rest (h : p.rest = []) (memory : ℕ → Byte) (allow : Bool) :
    (readInt memory allow p).1 = false := by
  simp [readInt, h]

lemma At.readInt_reads (h : p.At s) {allow : Bool} 
    (hread : JSONParser.readInt memory allow p = (true, q)) :
    ∃ digits r, s = digits ++ r ∧ Number.Digits digits ∧ (∀ c ∈ r.head?, isAsciiDigit c = false) ∧
      (allow = false → digits.head? = some (char '0') → digits.length = 1) ∧ q.At r := by
  have hsplit : s = s.takeWhile isAsciiDigit ++ s.dropWhile isAsciiDigit :=
    List.takeWhile_append_dropWhile.symm
  have hrest : ∀ c ∈ (s.dropWhile isAsciiDigit).head?, isAsciiDigit c = false := by
    intro c hc
    have hnot := List.head?_dropWhile_not isAsciiDigit s
    rw [Option.mem_def.mp hc] at hnot
    simpa using hnot
  rw [JSONParser.readInt, h.1] at hread
  obtain ⟨hisRead, rfl⟩ := Prod.mk.inj hread
  obtain ⟨hpos, hzero⟩ := of_decide_eq_true hisRead
  refine ⟨_, _, hsplit, ⟨by simpa using hpos, ?_⟩, hrest, ?_, ?_⟩
  · intro c hc
    exact List.mem_takeWhile_imp hc
  · intro hallow hhead
    by_contra hlength
    refine hzero ⟨by simp [hallow], by omega, ?_⟩
    cases hs : s with
    | nil => simp [hs] at hhead
    | cons c s' =>
      rw [hs, List.takeWhile_cons] at hhead
      split_ifs at hhead
      · rw [hs] at h
        rw [h.peek]
        simpa using hhead
      · simp at hhead
  · rw [hsplit] at h
    exact h.nextNChars memory

lemma At.readFraction_reads (h : p.At s) (hs : ∀ c ∈ s.head?, isAsciiDigit c = false)
    (hread : JSONParser.readFraction memory p = .ok q) :
    ∃ fraction r, s = Number.fractionText fraction ++ r ∧
      (∀ digits ∈ fraction, Number.Digits digits) ∧ (∀ c ∈ r.head?, isAsciiDigit c = false) ∧
      (fraction = none → r.headD (memory 0) ≠ char '.') ∧ q.At r := by
  rw [JSONParser.readFraction] at hread
  split_ifs at hread with hdot hroom
  · obtain ⟨c, s, rfl⟩ := List.exists_cons_of_length_pos ((h.canConsume_iff 1).mp hroom)
    rw [h.peek] at hdot
    subst hdot
    cases hint : JSONParser.readInt memory true (p.nextChar memory) with
    | mk isRead q' =>
      rw [hint] at hread
      cases isRead with
      | false => simp [reportError] at hread
      | true =>
        obtain rfl := Except.ok.inj hread
        obtain ⟨digits, r, rfl, hdigits, hr, -, hq⟩ := (h.nextChar memory).readInt_reads hint
        exact ⟨some digits, r, rfl, by simpa using hdigits, hr, by simp, hq⟩
  · simp [reportError] at hread
  · obtain rfl := Except.ok.inj hread
    rw [h.peek_headD] at hdot
    exact ⟨none, s, rfl, by simp, hs, fun _ => hdot, h⟩

lemma At.readExponent_reads (h : p.At s) (hs : ∀ c ∈ s.head?, isAsciiDigit c = false)
    (hread : JSONParser.readExponent memory p = .ok q) :
    ∃ exponent r, s = Number.exponentText exponent ++ r ∧
      (∀ e ∈ exponent, (e.1 = char 'e' ∨ e.1 = char 'E') ∧
        (∀ sign ∈ e.2.1, sign = char '-' ∨ sign = char '+') ∧ Number.Digits e.2.2) ∧
      (∀ c ∈ r.head?, isAsciiDigit c = false) ∧
      (exponent = none →
        r.headD (memory 0) ≠ char 'e' ∧ r.headD (memory 0) ≠ char 'E') ∧ q.At r := by
  rw [JSONParser.readExponent] at hread
  split_ifs at hread with hmark
  · dsimp only at hread
    cases s with
    | nil =>
      -- The mark lies behind the end, where there are no digits.
      have hfalse := readInt_of_rest (p := if (p.nextChar memory).peek memory = char '-' ∨
          (p.nextChar memory).peek memory = char '+' then (p.nextChar memory).nextChar memory
          else p.nextChar memory) (by
        have hnext := rest_nextChar memory h.1
        split_ifs
        · exact rest_nextChar memory hnext
        · exact hnext) memory true
      split at hread
      · next hint => rw [hint] at hfalse; cases hfalse
      · simp [reportError] at hread
    | cons mark s =>
      rw [h.peek] at hmark
      have hnext := h.nextChar memory
      by_cases hsign : (p.nextChar memory).peek memory = char '-' ∨
          (p.nextChar memory).peek memory = char '+'
      · rw [if_pos hsign] at hread
        split at hread
        · next q' hint =>
          obtain rfl := Except.ok.inj hread
          cases s with
          | nil =>
            have hfalse := readInt_of_rest (rest_nextChar memory hnext.1) memory true
            rw [hint] at hfalse
            cases hfalse
          | cons x s =>
            rw [hnext.peek] at hsign
            obtain ⟨digits, r, rfl, hdigits, hr, -, hq⟩ :=
              (hnext.nextChar memory).readInt_reads hint
            exact ⟨some (mark, some x, digits), r, rfl, by simpa using ⟨hmark, hsign, hdigits⟩, hr,
              by simp, hq⟩
        · simp [reportError] at hread
      · rw [if_neg hsign] at hread
        split at hread
        · next q' hint =>
          obtain rfl := Except.ok.inj hread
          obtain ⟨digits, r, rfl, hdigits, hr, -, hq⟩ := hnext.readInt_reads hint
          exact
            ⟨some (mark, none, digits), r, rfl, by simpa using ⟨hmark, hdigits⟩, hr, by simp, hq⟩
        · simp [reportError] at hread
  · obtain rfl := Except.ok.inj hread
    rw [h.peek_headD, not_or] at hmark
    exact ⟨none, s, rfl, by simp, hs, fun _ => hmark, h⟩

variable {δ : Type} {doubles : Doubles δ} {options : Options} {v : Value δ}

/-- The token does not depend on what was read before. -/
lemma At.getNextToken_eq {p' : JSONParser} (h : p.At s) (h' : p'.At s) :
    (p.getNextToken memory).1 = (p'.getNextToken memory).1 := by
  rcases exists_gap s with ⟨g, c, r, hg, rfl, hc⟩ | ⟨bs, e, hbs, he, rfl⟩
  · obtain ⟨q₁, htoken, -⟩ := h.getNextToken_stopsAt memory hg hc
    obtain ⟨q₂, htoken', -⟩ := h'.getNextToken_stopsAt memory hg hc
    rw [htoken, htoken']
  · rw [h.getNextToken_ending memory hbs he, h'.getNextToken_ending memory hbs he]

/-- The parts of a number as they are read. -/
lemma At.parts_read (h : p.At s) {q₁ q₂ q₃ : JSONParser}
    (hint : JSONParser.readInt memory false
      (if p.peek memory = char '-' then p.nextChar memory else p) = (true, q₁))
    (hfrac : JSONParser.readFraction memory q₁ = .ok q₂)
    (hexp : JSONParser.readExponent memory q₂ = .ok q₃) :
    ∃ (n : Number) (r : Text), n.Valid ∧ s = n.text ++ r ∧ Follows memory n r ∧ q₃.At r := by
  obtain ⟨minus, t, rfl, ht⟩ : ∃ minus t, s = Number.signText minus ++ t ∧
      (if p.peek memory = char '-' then p.nextChar memory else p).At t := by
    split_ifs at hint ⊢ with hminus
    · cases s with
      | nil =>
        have hfalse := readInt_of_rest (rest_nextChar memory h.1) memory false
        rw [hint] at hfalse
        cases hfalse
      | cons c s =>
        rw [h.peek] at hminus
        exact ⟨true, s, by rw [hminus]; rfl, h.nextChar memory⟩
    · exact ⟨false, s, rfl, h⟩
  obtain ⟨int, r₁, rfl, hdigits, hr₁, hzero, hq₁⟩ := ht.readInt_reads hint
  obtain ⟨fraction, r₂, rfl, hfraction, hr₂, hdot, hq₂⟩ := hq₁.readFraction_reads hr₁ hfrac
  obtain ⟨exponent, r₃, rfl, hexponent, hr₃, hmark, hq₃⟩ := hq₂.readExponent_reads hr₂ hexp
  refine ⟨⟨minus, int, fraction, exponent⟩, r₃, ⟨hdigits, hzero rfl, hfraction, hexponent⟩, ?_,
    ⟨hr₃, ?_, hmark⟩, hq₃⟩
  · simp [Number.text]
  · intro hnone hnone'
    have hne := hdot hnone
    rw [show exponent = none from hnone'] at hne
    exact hne

/-- A number is read, and what is behind it does not go on with it. -/
lemma At.consumeNumber_reads (h : p.At s)
    (hconsume : JSONParser.consumeNumber memory doubles p = .ok (v, q)) :
    ∃ (n : Number) (r : Text) (x : Byte), n.Valid ∧ s = n.text ++ r ∧ Follows memory n r ∧
      n.read doubles = some v ∧ isAsciiDigit x = true ∧ q.At (x :: r) := by
  have hread := hconsume
  rw [JSONParser.consumeNumber] at hread
  dsimp only at hread
  split at hread
  · simp [reportError] at hread
  · next q₁ hint =>
    cases hfrac : JSONParser.readFraction memory q₁ with
    | error e => simp [hfrac, bind, Except.bind] at hread
    | ok q₂ =>
      cases hexp : JSONParser.readExponent memory q₂ with
      | error e => simp [hfrac, hexp, bind, Except.bind] at hread
      | ok q₃ =>
        simp only [hfrac, hexp, bind, Except.bind] at hread
        split_ifs at hread with hends
        · obtain ⟨n, r, hn, rfl, hfollows, hq₃⟩ := h.parts_read hint hfrac hexp
          obtain ⟨q', x, hconsume', hq', hx⟩ := h.consumeNumber_eq memory hn hfollows
            (fun q'' hq'' => by rw [← hq₃.getNextToken_eq hq'']; exact hends) doubles
          rw [hconsume] at hconsume'
          refine ⟨n, r, x, hn, rfl, hfollows, ?_, hx, ?_⟩
          · cases hnumber : numberValue doubles n.text with
            | error e => simp [hnumber, Except.map] at hconsume'
            | ok v' =>
              simp only [hnumber, Except.map, Except.ok.injEq, Prod.mk.injEq] at hconsume'
              rw [Number.read, hnumber, hconsume'.1]
              rfl
          · cases hnumber : numberValue doubles n.text with
            | error e => simp [hnumber, Except.map] at hconsume'
            | ok v' =>
              simp only [hnumber, Except.map, Except.ok.injEq, Prod.mk.injEq] at hconsume'
              rw [hconsume'.2]
              exact hq'
        · simp [reportError] at hread

/-! ### Values -/

/-- A value that the input breaks off, with the byte behind it that completes it. -/
inductive Partial
  | null
  | boolean (value : Bool)
  | string (pieces : List Piece)

def Partial.text : Partial → Text
  | null => ascii "nul"
  | boolean b => (boolText b).dropLast
  | string pieces => char '"' :: pieces.flatMap Piece.text

def Partial.next : Partial → Byte
  | null => char 'l'
  | boolean _ => char 'e'
  | string _ => char '"'

def Partial.Valid : Partial → Prop
  | string pieces => (∀ x ∈ pieces, x.Valid) ∧ pieces ≠ []
  | _ => True

/-- The input breaks off within a value, and the memory behind it goes on with it. -/
def Broken (memory : ℕ → Byte) (s : Text) (q : JSONParser) : Prop :=
  q.rest = [] ∧ ∃ u : Partial, u.Valid ∧ s = u.text ∧ memory 0 = u.next

lemma piece_succ_last (n : ℕ) (p : JSONParser) :
    p.piece memory (n + 1) = p.piece memory n ++ [(p.nextNChars memory n).peek memory] := by
  rw [JSONParser.piece, List.range_succ, List.map_append]
  rfl

lemma At.consumeWord_reads (init : Text) (x : Byte) {value : Value δ} (h : p.At s)
    (hconsume : JSONParser.consumeWord memory (init ++ [x]) value p = .ok (v, q)) :
    v = value ∧ ((∃ r, s = init ++ x :: r ∧ q.At (x :: r)) ∨
      (s = init ∧ memory 0 = x ∧ q.At [])) := by
  rw [JSONParser.consumeWord, List.length_append, List.length_singleton,
    Nat.add_sub_cancel] at hconsume
  split_ifs at hconsume with hword
  · simp [reportError] at hconsume
  rw [not_or, not_not, not_not, h.canConsume_iff] at hword
  obtain ⟨rfl, rfl⟩ := Prod.mk.inj (Except.ok.inj hconsume)
  obtain ⟨front, r, rfl, hlength⟩ : ∃ front r, s = front ++ r ∧ front.length = init.length :=
    ⟨s.take init.length, s.drop init.length, (List.take_append_drop _ s).symm,
      by simpa using hword.1⟩
  have hpiece := hword.2
  rw [piece_succ_last, ← hlength, h.piece] at hpiece
  obtain ⟨rfl, hpeek⟩ := List.append_inj hpiece hlength
  have hrest := h.nextNChars memory
  refine ⟨rfl, ?_⟩
  cases r with
  | nil =>
    rw [hrest.peek_headD] at hpeek
    exact .inr ⟨List.append_nil _, by simpa using hpeek, hrest⟩
  | cons y r =>
    rw [hrest.peek] at hpeek
    obtain rfl : y = x := by simpa using hpeek
    exact .inl ⟨r, rfl, hrest⟩

/-- A literal is read, and only its last character may lie behind the end of the input. -/
lemma At.consumeLiteral_reads (h : p.At s)
    (hconsume : JSONParser.consumeLiteral memory p = .ok (v, q)) :
    (∃ (t : Tree) (r : Text), t.Valid options ∧ s = t.text ++ r ∧ t.depth = 0 ∧
        (∀ n, t ≠ .number n) ∧ t.value (parserReading doubles) = some v ∧ q.Leaves r) ∨
      Broken memory s q := by
  rw [JSONParser.consumeLiteral] at hconsume
  split_ifs at hconsume with htrue hfalse hnull
  · obtain ⟨rfl, ⟨r, rfl, hq⟩ | ⟨rfl, hmemory, hq⟩⟩ :=
      h.consumeWord_reads (ascii "tru") (char 'e') hconsume
    · exact .inl ⟨.boolean true, r, trivial, rfl, rfl, by simp, rfl, char 'e', by decide,
        by decide, hq⟩
    · exact .inr ⟨hq.1, .boolean true, trivial, rfl, hmemory⟩
  · obtain ⟨rfl, ⟨r, rfl, hq⟩ | ⟨rfl, hmemory, hq⟩⟩ :=
      h.consumeWord_reads (ascii "fals") (char 'e') hconsume
    · exact .inl ⟨.boolean false, r, trivial, rfl, rfl, by simp, rfl, char 'e', by decide,
        by decide, hq⟩
    · exact .inr ⟨hq.1, .boolean false, trivial, rfl, hmemory⟩
  · obtain ⟨rfl, ⟨r, rfl, hq⟩ | ⟨rfl, hmemory, hq⟩⟩ :=
      h.consumeWord_reads (ascii "nul") (char 'l') hconsume
    · exact .inl ⟨.null, r, trivial, rfl, rfl, by simp, rfl, char 'l', by decide, by decide, hq⟩
    · exact .inr ⟨hq.1, .null, trivial, rfl, hmemory⟩
  · simp [reportError] at hconsume

/-! ### One round of the loops, backwards -/

variable {fuel depth : ℕ}

/-- What a round of the loop over items has done, if the loop ends well. -/
lemma consumeItems_round {list : List (Value δ)} (htoken : token ≠ .arrayEnd)
    (hconsume : consumeItems memory doubles options (fuel + 1) depth list token p = .ok (v, q)) :
    ∃ item q₁ token₁ p₁, parseToken memory doubles options fuel depth token p = .ok (item, q₁) ∧
      (q₁.nextChar memory).getNextToken memory = (token₁, p₁) ∧
      ((token₁ = .arrayEnd ∧
          consumeItems memory doubles options fuel depth (list ++ [item]) .arrayEnd p₁ =
            .ok (v, q)) ∨
        (token₁ = .listSeparator ∧ ∃ token₂ p₂,
          (p₁.nextChar memory).getNextToken memory = (token₂, p₂) ∧
          (token₂ = .arrayEnd → options.allowTrailingCommas = true) ∧
          consumeItems memory doubles options fuel depth (list ++ [item]) token₂ p₂ =
            .ok (v, q))) := by
  rw [consumeItems, if_neg htoken] at hconsume
  cases hparse : parseToken memory doubles options fuel depth token p with
  | error e => simp [hparse, bind, Except.bind] at hconsume
  | ok result =>
    obtain ⟨item, q₁⟩ := result
    cases hnext : (q₁.nextChar memory).getNextToken memory with
    | mk token₁ p₁ =>
      simp only [hparse, bind, Except.bind, hnext] at hconsume
      refine ⟨item, q₁, token₁, p₁, rfl, hnext, ?_⟩
      split_ifs at hconsume with hcomma htrailing hend
      · simp [reportError] at hconsume
      · refine .inr ⟨hcomma, _, _, rfl, ?_, hconsume⟩
        intro hlast
        by_contra hallow
        exact htrailing ⟨hlast, hallow⟩
      · simp [reportError] at hconsume
      · rw [not_not] at hend
        rw [hend] at hconsume
        exact .inl ⟨hend, hconsume⟩

lemma consumeEntries_round {dict : List (Text × Value δ)} (htoken : token ≠ .objectEnd)
    (hconsume : consumeEntries memory doubles options (fuel + 1) depth dict token p =
      .ok (v, q)) :
    token = .string ∧ ∃ key q₀ p₁ token₁ p₂ value q₁ token₂ p₃,
      JSONParser.consumeStringRaw memory p = .ok (key, q₀) ∧
      (q₀.nextChar memory).getNextToken memory = (.objectPairSeparator, p₁) ∧
      (p₁.nextChar memory).getNextToken memory = (token₁, p₂) ∧
      parseToken memory doubles options fuel depth token₁ p₂ = .ok (value, q₁) ∧
      (q₁.nextChar memory).getNextToken memory = (token₂, p₃) ∧
      ((token₂ = .objectEnd ∧ consumeEntries memory doubles options fuel depth
          (setWithoutPathExpansion (key.asString memory) value dict) .objectEnd p₃ = .ok (v, q)) ∨
        (token₂ = .listSeparator ∧ ∃ token₃ p₄,
          (p₃.nextChar memory).getNextToken memory = (token₃, p₄) ∧
          (token₃ = .objectEnd → options.allowTrailingCommas = true) ∧
          consumeEntries memory doubles options fuel depth
            (setWithoutPathExpansion (key.asString memory) value dict) token₃ p₄ =
              .ok (v, q))) := by
  rw [consumeEntries, if_neg htoken] at hconsume
  split_ifs at hconsume with hstring
  · simp [reportError] at hconsume
  rw [not_not] at hstring
  refine ⟨hstring, ?_⟩
  cases hkey : JSONParser.consumeStringRaw memory p with
  | error e => simp [hkey, bind, Except.bind] at hconsume
  | ok result =>
    obtain ⟨key, q₀⟩ := result
    cases hcolon : (q₀.nextChar memory).getNextToken memory with
    | mk token₀ p₁ =>
      simp only [hkey, bind, Except.bind, hcolon] at hconsume
      split_ifs at hconsume with hpair
      · simp [reportError] at hconsume
      rw [not_not] at hpair
      cases hfirst : (p₁.nextChar memory).getNextToken memory with
      | mk token₁ p₂ =>
        cases hparse : parseToken memory doubles options fuel depth token₁ p₂ with
        | error e => simp [hfirst, hparse] at hconsume
        | ok result =>
          obtain ⟨value, q₁⟩ := result
          cases hnext : (q₁.nextChar memory).getNextToken memory with
          | mk token₂ p₃ =>
            simp only [hfirst, hparse, hnext] at hconsume
            refine ⟨key, q₀, p₁, token₁, p₂, value, q₁, token₂, p₃, rfl, by rw [hcolon, hpair],
              hfirst, hparse, hnext, ?_⟩
            split_ifs at hconsume with hcomma htrailing hend
            · simp [reportError] at hconsume
            · refine .inr ⟨hcomma, _, _, rfl, ?_, hconsume⟩
              intro hlast
              by_contra hallow
              exact htrailing ⟨hlast, hallow⟩
            · simp [reportError] at hconsume
            · rw [not_not] at hend
              rw [hend] at hconsume
              exact .inl ⟨hend, hconsume⟩

lemma parseToken_endOfInput : parseToken memory doubles options fuel depth .endOfInput p ≠
    .ok (v, q) := by
  cases fuel with
  | zero => simp [parseToken]
  | succ fuel => simp [parseToken, reportError]

lemma consumeItems_endOfInput {list : List (Value δ)} :
    consumeItems memory doubles options fuel depth list .endOfInput p ≠ .ok (v, q) := by
  cases fuel with
  | zero => simp [consumeItems]
  | succ fuel =>
    intro hconsume
    obtain ⟨item, q₁, token₁, p₁, hparse, -⟩ := consumeItems_round (by decide) hconsume
    exact parseToken_endOfInput hparse

lemma consumeEntries_endOfInput {dict : List (Text × Value δ)} :
    consumeEntries memory doubles options fuel depth dict .endOfInput p ≠ .ok (v, q) := by
  cases fuel with
  | zero => simp [consumeEntries]
  | succ fuel =>
    intro hconsume
    exact absurd (consumeEntries_round (by decide) hconsume).1 (by decide)

/-- The character that a token of one character is. -/
lemma char_of_tokenOf (c : Byte) : (tokenOf c = .arrayEnd → c = char ']') ∧
    (tokenOf c = .objectEnd → c = char '\x7d') ∧ (tokenOf c = .string → c = char '"') ∧
    (tokenOf c = .listSeparator → c = char ',') ∧
    (tokenOf c = .objectPairSeparator → c = char ':') ∧
    (tokenOf c = .arrayBegin → c = char '[') ∧ (tokenOf c = .objectBegin → c = char '\x7b') := by
  revert c
  decide

/-- A value was read from the front of the text `s`. -/
def Reads (memory : ℕ → Byte) (doubles : Doubles δ) (options : Options) (depth : ℕ) (s : Text)
    (v : Value δ) (q : JSONParser) : Prop :=
  ∃ (t : Tree) (r : Text), t.Valid options ∧ s = t.text ++ r ∧
    depth + t.depth < kStackMaxDepth ∧ (∀ n, t = .number n → Follows memory n r) ∧
    t.value (parserReading doubles) = some v ∧ q.Leaves r

/-- The next token, where the end of the input is not one. -/
lemma At.getNextToken_of_ne (h : p.At s) (htoken : p.getNextToken memory = (token, q))
    (hne : token ≠ .endOfInput) : ∃ (g : Gap) (c : Byte) (r : Text), g.Valid ∧
      s = g.text ++ c :: r ∧ token = tokenOf c ∧ q.At (c :: r) := by
  rcases h.getNextToken_cases htoken with hgap | ⟨hend, -⟩
  · exact hgap
  · exact absurd hend hne

/-- Behind a value that the input breaks off there is no token. -/
lemma Broken.getNextToken (h : Broken memory s q) :
    ((q.nextChar memory).getNextToken memory).1 = .endOfInput :=
  getNextToken_of_rest memory (rest_nextChar memory h.1)

mutual

/-- What is parsed is the text of a tree, unless the input breaks off. -/
theorem At.parseToken_reads (fuel depth : ℕ) (hdepth : depth < kStackMaxDepth) {p q : JSONParser}
    {c : Byte} {r : Text} {v : Value δ} (h : p.At (c :: r))
    (hparse : JSONParser.parseToken memory doubles options fuel depth (tokenOf c) p = .ok (v, q)) :
    Reads memory doubles options depth (c :: r) v q ∨ Broken memory (c :: r) q := by
  cases fuel with
  | zero => simp [JSONParser.parseToken] at hparse
  | succ fuel =>
    have hliteral : JSONParser.consumeLiteral memory p = .ok (v, q) →
        Reads memory doubles options depth (c :: r) v q ∨ Broken memory (c :: r) q := by
      intro hconsume
      rcases h.consumeLiteral_reads hconsume with
        ⟨t, s, ht, htext, hzero, hnumber, hvalue, hq⟩ | hbroken
      · exact .inl ⟨t, s, ht, htext, by omega, fun n hn => absurd hn (hnumber n), hvalue, hq⟩
      · exact .inr hbroken
    cases htoken : tokenOf c with
    | boolTrue =>
      rw [htoken, JSONParser.parseToken] at hparse
      exact hliteral hparse
    | boolFalse =>
      rw [htoken, JSONParser.parseToken] at hparse
      exact hliteral hparse
    | null =>
      rw [htoken, JSONParser.parseToken] at hparse
      exact hliteral hparse
    | number =>
      rw [htoken, JSONParser.parseToken] at hparse
      obtain ⟨n, s, x, hn, htext, hfollows, hvalue, hx, hq⟩ := h.consumeNumber_reads hparse
      refine .inl ⟨.number n, s, hn, htext, hdepth, ?_, hvalue, x, (digit_not_blank hx).1,
        (digit_not_blank hx).2, hq⟩
      intro n' hn'
      obtain rfl := Tree.number.inj hn'
      exact hfollows
    | string =>
      rw [htoken, JSONParser.parseToken, consumeString] at hparse
      obtain rfl := (char_of_tokenOf c).2.2.1 htoken
      cases hstring : JSONParser.consumeStringRaw memory p with
      | error e => simp [hstring, bind, Except.bind] at hparse
      | ok result =>
        obtain ⟨b, q'⟩ := result
        simp only [hstring, bind, Except.bind, Except.ok.injEq, Prod.mk.injEq] at hparse
        obtain ⟨rfl, rfl⟩ := hparse
        rcases h.consumeStringRaw_reads hstring with
          ⟨pieces, s, hpieces, htext, hq, hb⟩ | ⟨pieces, hpieces, hne, htext, hq, hmemory⟩
        · refine .inl ⟨.string pieces, s, hpieces, htext, hdepth, by simp, ?_, char '"',
            by decide, by decide, hq⟩
          rw [hb]
          rfl
        · exact .inr ⟨hq.1, .string pieces, ⟨hpieces, hne⟩, by rw [htext]; rfl, hmemory⟩
    | arrayBegin =>
      rw [htoken, JSONParser.parseToken] at hparse
      obtain rfl := (char_of_tokenOf c).2.2.2.2.2.1 htoken
      cases fuel with
      | zero => simp [consumeList] at hparse
      | succ fuel =>
        rw [consumeList, h.peek, if_neg (by simp)] at hparse
        split_ifs at hparse with hnested
        · simp [reportError] at hparse
        cases hnext : (p.nextChar memory).getNextToken memory with
        | mk token₁ p₁ =>
          simp only [hnext] at hparse
          obtain ⟨g, c₁, r₁, hg, htext, rfl, hp₁⟩ :=
            (h.nextChar memory).getNextToken_of_ne hnext (by
              intro hend
              rw [hend] at hparse
              exact consumeItems_endOfInput hparse)
          obtain ⟨items, s, vs, hitems, htext', hmax, hvs, hv, hq⟩ :=
            At.consumeItems_reads fuel (depth + 1) (by omega) hp₁ hparse
          refine .inl ⟨.list g items, s, ⟨hg, hitems⟩, ?_, ?_, by simp, ?_, char ']', by decide,
            by decide, hq⟩
          · rw [htext, htext']
            simp [Tree.text]
          · rw [Tree.depth]
            omega
          · rw [Tree.value, hvs, hv]
            rfl
    | objectBegin =>
      rw [htoken, JSONParser.parseToken] at hparse
      obtain rfl := (char_of_tokenOf c).2.2.2.2.2.2 htoken
      cases fuel with
      | zero => simp [consumeDictionary] at hparse
      | succ fuel =>
        rw [consumeDictionary, h.peek, if_neg (by simp)] at hparse
        split_ifs at hparse with hnested
        · simp [reportError] at hparse
        cases hnext : (p.nextChar memory).getNextToken memory with
        | mk token₁ p₁ =>
          simp only [hnext] at hparse
          obtain ⟨g, c₁, r₁, hg, htext, rfl, hp₁⟩ :=
            (h.nextChar memory).getNextToken_of_ne hnext (by
              intro hend
              rw [hend] at hparse
              exact consumeEntries_endOfInput hparse)
          obtain ⟨members, s, entries, hmembers, htext', hmax, hentries, hv, hq⟩ :=
            At.consumeEntries_reads fuel (depth + 1) (by omega) hp₁ hparse
          refine .inl ⟨.dictionary g members, s, ⟨hg, hmembers⟩, ?_, ?_, by simp, ?_, char '\x7d',
            by decide, by decide, hq⟩
          · rw [htext, htext']
            simp [Tree.text]
          · rw [Tree.depth]
            omega
          · rw [Tree.value, hentries, hv]
            rfl
    | _ => simp [htoken, JSONParser.parseToken, reportError] at hparse

/-- The items of a list are read up to the bracket. -/
theorem At.consumeItems_reads (fuel depth : ℕ) (hdepth : depth < kStackMaxDepth)
    {p q : JSONParser} {c : Byte} {r : Text} {v : Value δ} {list : List (Value δ)}
    (h : p.At (c :: r))
    (hconsume : JSONParser.consumeItems memory doubles options fuel depth list (tokenOf c) p =
      .ok (v, q)) :
    ∃ (items : Items) (s : Text) (vs : List (Value δ)), items.Valid options ∧
      c :: r = items.text ++ char ']' :: s ∧ depth + items.depth < kStackMaxDepth ∧
      items.values (parserReading doubles) = some vs ∧ v = .list (list ++ vs) ∧
      q.At (char ']' :: s) := by
  cases fuel with
  | zero => simp [JSONParser.consumeItems] at hconsume
  | succ fuel =>
    by_cases hlast : tokenOf c = .arrayEnd
    · obtain rfl := (char_of_tokenOf c).1 hlast
      rw [JSONParser.consumeItems, if_pos hlast] at hconsume
      obtain ⟨rfl, rfl⟩ := Prod.mk.inj (Except.ok.inj hconsume)
      exact ⟨.nil, r, [], trivial, rfl, hdepth, rfl, by rw [List.append_nil], h⟩
    obtain ⟨item, q₁, token₁, p₁, hparse, hnext, hrest⟩ := consumeItems_round hlast hconsume
    rcases At.parseToken_reads fuel depth hdepth h hparse with
      ⟨t, s₁, ht, htext, hmax, -, hvalue, hq₁⟩ | hbroken
    · obtain ⟨g, c₁, r₁, hg, rfl, rfl, hp₁⟩ :=
        (hq₁.nextChar memory).getNextToken_of_ne hnext (by
          rintro rfl
          rcases hrest with ⟨hfalse, -⟩ | ⟨hfalse, -⟩ <;> cases hfalse)
      rcases hrest with ⟨hend, hrest⟩ | ⟨hcomma, token₂, p₂, hnext', hallow, hrest⟩
      · obtain rfl := (char_of_tokenOf c₁).1 hend
        cases fuel with
        | zero => simp [JSONParser.consumeItems] at hrest
        | succ fuel =>
          rw [JSONParser.consumeItems, if_pos rfl] at hrest
          obtain ⟨rfl, rfl⟩ := Prod.mk.inj (Except.ok.inj hrest)
          refine ⟨.last t g, r₁, [item], ⟨ht, hg⟩, ?_, hmax, ?_, rfl, hp₁⟩
          · rw [htext, Items.text, List.append_assoc]
          · rw [Items.values, hvalue]
            rfl
      · obtain rfl := (char_of_tokenOf c₁).2.2.2.1 hcomma
        obtain ⟨g', c₂, r₂, hg', rfl, rfl, hp₂⟩ :=
          (hp₁.nextChar memory).getNextToken_of_ne hnext' (by
            rintro rfl
            exact consumeItems_endOfInput hrest)
        obtain ⟨items, s, vs, hitems, htext', hmax', hvs, rfl, hq⟩ :=
          At.consumeItems_reads fuel depth hdepth hp₂ hrest
        refine ⟨.cons t g g' items, s, item :: vs, ⟨ht, hg, hg', hitems, ?_⟩, ?_, ?_, ?_, ?_, hq⟩
        · rintro rfl
          rw [Items.text, List.nil_append] at htext'
          exact hallow (by rw [(List.cons_eq_cons.mp htext').1]; decide)
        · rw [htext, htext']
          simp [Items.text]
        · rw [Items.depth]
          omega
        · rw [Items.values, hvalue, hvs]
          rfl
        · rw [List.append_assoc, List.singleton_append]
    · have hend := hbroken.getNextToken
      rw [hnext] at hend
      rcases hrest with ⟨hfalse, -⟩ | ⟨hfalse, -⟩ <;> simp [hfalse] at hend

theorem At.consumeEntries_reads (fuel depth : ℕ) (hdepth : depth < kStackMaxDepth)
    {p q : JSONParser} {c : Byte} {r : Text} {v : Value δ} {dict : List (Text × Value δ)}
    (h : p.At (c :: r))
    (hconsume : JSONParser.consumeEntries memory doubles options fuel depth dict (tokenOf c) p =
      .ok (v, q)) :
    ∃ (members : Members) (s : Text) (entries : List (Text × Value δ)), members.Valid options ∧
      c :: r = members.text ++ char '\x7d' :: s ∧ depth + members.depth < kStackMaxDepth ∧
      members.entries (parserReading doubles) dict = some entries ∧ v = .dictionary entries ∧
      q.At (char '\x7d' :: s) := by
  cases fuel with
  | zero => simp [JSONParser.consumeEntries] at hconsume
  | succ fuel =>
    by_cases hlast : tokenOf c = .objectEnd
    · obtain rfl := (char_of_tokenOf c).2.1 hlast
      rw [JSONParser.consumeEntries, if_pos hlast] at hconsume
      obtain ⟨rfl, rfl⟩ := Prod.mk.inj (Except.ok.inj hconsume)
      exact ⟨.nil, r, dict, trivial, rfl, hdepth, rfl, rfl, h⟩
    obtain ⟨hstring, key, q₀, p₁, token₁, p₂, value, q₁, token₂, p₃, hkey, hcolon, hfirst, hparse,
      hnext, hrest⟩ := consumeEntries_round hlast hconsume
    obtain rfl := (char_of_tokenOf c).2.2.1 hstring
    rcases h.consumeStringRaw_reads hkey with
      ⟨pieces, s₀, hpieces, htext₀, hq₀, hb⟩ | ⟨pieces, -, -, -, hq₀, -⟩
    · obtain ⟨g, c₁, r₁, hg, rfl, hc₁, hp₁⟩ :=
        (hq₀.nextChar memory).getNextToken_of_ne hcolon (by decide)
      obtain rfl := (char_of_tokenOf c₁).2.2.2.2.1 hc₁.symm
      obtain ⟨g', c₂, r₂, hg', rfl, rfl, hp₂⟩ :=
        (hp₁.nextChar memory).getNextToken_of_ne hfirst (by
          rintro rfl
          exact parseToken_endOfInput hparse)
      rcases At.parseToken_reads fuel depth hdepth hp₂ hparse with
        ⟨t, s₁, ht, htext, hmax, -, hvalue, hq₁⟩ | hbroken
      · obtain ⟨g'', c₃, r₃, hg'', rfl, rfl, hp₃⟩ :=
          (hq₁.nextChar memory).getNextToken_of_ne hnext (by
            rintro rfl
            rcases hrest with ⟨hfalse, -⟩ | ⟨hfalse, -⟩ <;> cases hfalse)
        rcases hrest with ⟨hend, hrest⟩ | ⟨hcomma, token₃, p₄, hnext', hallow, hrest⟩
        · obtain rfl := (char_of_tokenOf c₃).2.1 hend
          cases fuel with
          | zero => simp [JSONParser.consumeEntries] at hrest
          | succ fuel =>
            rw [JSONParser.consumeEntries, if_pos rfl] at hrest
            obtain ⟨rfl, rfl⟩ := Prod.mk.inj (Except.ok.inj hrest)
            refine ⟨.last pieces g g' t g'', r₃, _, ⟨hpieces, hg, hg', ht, hg''⟩, ?_, hmax, ?_, rfl,
              hp₃⟩
            · rw [htext₀, htext]
              simp [Members.text]
            · rw [Members.entries, hvalue, hb]
              rfl
        · obtain rfl := (char_of_tokenOf c₃).2.2.2.1 hcomma
          obtain ⟨g3, c₄, r₄, hg3, rfl, rfl, hp₄⟩ :=
            (hp₃.nextChar memory).getNextToken_of_ne hnext' (by
              rintro rfl
              exact consumeEntries_endOfInput hrest)
          obtain ⟨members, s, entries, hmembers, htext', hmax', hentries, rfl, hq⟩ :=
            At.consumeEntries_reads fuel depth hdepth hp₄ hrest
          refine ⟨.cons pieces g g' t g'' g3 members, s, entries,
            ⟨hpieces, hg, hg', ht, hg'', hg3, hmembers, ?_⟩, ?_, ?_, ?_, rfl, hq⟩
          · rintro rfl
            rw [Members.text, List.nil_append] at htext'
            exact hallow (by rw [(List.cons_eq_cons.mp htext').1]; decide)
          · rw [htext₀, htext, htext']
            simp [Members.text]
          · rw [Members.depth]
            omega
          · rw [Members.entries, hvalue]
            rw [hb] at hentries
            exact hentries
      · have hend := hbroken.getNextToken
        rw [hnext] at hend
        rcases hrest with ⟨hfalse, -⟩ | ⟨hfalse, -⟩ <;> simp [hfalse] at hend
    · have hend := getNextToken_of_rest memory (rest_nextChar memory hq₀.1)
      rw [hcolon] at hend
      cases hend

end

end JSONParser

/-! ### The whole input -/

open JSONParser

/-- The input breaks off within its value, and the memory behind it completes the value. -/
def Completed (memory : ℕ → Byte) (input : Text) : Prop :=
  ∃ (mark : Bool) (g : Gap) (u : Partial), g.Valid ∧ u.Valid ∧ memory 0 = u.next ∧
    input = (if mark then byteOrderMark else []) ++ (g.text ++ u.text)

variable {δ : Type} {doubles : Doubles δ} {options : Options} {memory : ℕ → Byte}

lemma skip_mark_reads (memory : ℕ → Byte) (input : Text) :
    let start : JSONParser := { rest := input }
    let p := if start.canConsume 3 ∧ start.piece memory 3 = byteOrderMark then
      start.nextNChars memory 3 else start
    ∃ (mark : Bool) (s : Text), input = (if mark then byteOrderMark else []) ++ s ∧ p.At s := by
  intro start p
  have hstart : start.At input := ⟨rfl, rfl⟩
  by_cases hmark : start.canConsume 3 ∧ start.piece memory 3 = byteOrderMark
  · obtain ⟨front, s, rfl, hlength⟩ : ∃ front s, input = front ++ s ∧ front.length = 3 :=
      ⟨input.take 3, input.drop 3, (List.take_append_drop 3 input).symm,
        by simpa using (hstart.canConsume_iff 3).mp hmark.1⟩
    have hpiece := hstart.piece memory
    rw [hlength, hmark.2] at hpiece
    refine ⟨true, s, by rw [← hpiece]; rfl, ?_⟩
    simp only [p, hmark, and_self, if_true]
    rw [← hlength]
    exact hstart.nextNChars memory
  · refine ⟨false, input, rfl, ?_⟩
    simp only [p, if_neg hmark]
    exact hstart

/-- What is parsed is a document, unless the input breaks off. -/
theorem parse_reads {input : Text} {v : Value δ}
    (hparse : parse doubles options memory input = .ok v) :
    (∃ d : Document, d.Valid options ∧ d.Clear (memoryOf options memory) ∧ d.text = input ∧
      d.tree.value (parserReading doubles) = some v) ∨
    Completed (memoryOf options memory) input := by
  have hmemory : (if options.detachableChildren = true then memory else fun _ => 0) =
      memoryOf options memory := rfl
  obtain ⟨mark, s, hinput, hskip⟩ := skip_mark_reads (memoryOf options memory) input
  rw [parse] at hparse
  simp only [hmemory, bind, Except.bind] at hparse
  set start := (if ({ rest := input } : JSONParser).canConsume 3 ∧
    ({ rest := input } : JSONParser).piece (memoryOf options memory) 3 = byteOrderMark then
      ({ rest := input } : JSONParser).nextNChars (memoryOf options memory) 3
      else ({ rest := input } : JSONParser))
  cases hfirst : start.getNextToken (memoryOf options memory) with
  | mk token p =>
    cases hvalue : parseToken (memoryOf options memory) doubles options (3 * input.length + 1) 0
        token p with
    | error e => simp [hfirst, hvalue] at hparse
    | ok result =>
      obtain ⟨root, q⟩ := result
      simp only [hfirst, hvalue] at hparse
      obtain ⟨g, c, r, hg, rfl, rfl, hp⟩ := hskip.getNextToken_of_ne hfirst (by
        rintro rfl
        exact parseToken_endOfInput hvalue)
      rcases hp.parseToken_reads _ 0 (by decide) hvalue with
        ⟨t, s, ht, htext, hdepth, hfollows, htree, hq⟩ | ⟨-, u, hu, htext, hnext⟩
      · obtain ⟨x, hlast, hx⟩ := hq.getNextToken (memoryOf options memory)
        rw [hlast] at hparse
        dsimp only at hparse
        rw [if_neg (tokenOf_ne_endOfInput x), if_neg (by rw [hx.canConsume_iff]; simp)] at hparse
        cases hbehind : (q.nextChar (memoryOf options memory)).getNextToken
            (memoryOf options memory) with
        | mk token' q' =>
          rw [hbehind] at hparse
          dsimp only at hparse
          split_ifs at hparse with hend
          · simp [reportError] at hparse
          rw [not_not] at hend
          obtain rfl := Except.ok.inj hparse
          rcases (hx.nextChar (memoryOf options memory)).getNextToken_cases hbehind with
            ⟨g', c', r', -, -, htoken, -⟩ | ⟨-, bs, e, hbs, he, rfl⟩
          · exact absurd (htoken.symm.trans hend) (tokenOf_ne_endOfInput c')
          · refine .inl ⟨⟨mark, g, t, bs, e⟩, ⟨hg, ht, by simpa using hdepth, hbs, he⟩, ?_, ?_,
              htree⟩
            · intro n hn htail
              have hrest := hfollows n hn
              rwa [show bs.flatMap Blank.text ++ e.text = [] from htail] at hrest
            · rw [hinput, htext]
              rfl
      · exact .inr ⟨mark, g, u, hg, hu, hnext, by rw [hinput, htext]⟩

/-! ### Values that the input breaks off -/

namespace JSONParser

def Partial.token : Partial → Token
  | null => .null
  | boolean b => if b then .boolTrue else .boolFalse
  | string _ => .string

lemma Partial.starts (u : Partial) : Starts u.token u.text := by
  cases u with
  | null => exact ⟨char 'n', ascii "ul", rfl, by unfold Begins; decide, by decide⟩
  | boolean b =>
    cases b with
    | true => exact ⟨char 't', ascii "ru", rfl, by unfold Begins; decide, by decide⟩
    | false => exact ⟨char 'f', ascii "als", rfl, by unfold Begins; decide, by decide⟩
  | string pieces =>
    exact ⟨char '"', _, rfl, by unfold Begins; decide, by rw [Partial.token]; decide⟩

lemma Partial.token_ne (u : Partial) : u.token ≠ .invalidToken := by
  cases u with
  | boolean b => cases b <;> simp [Partial.token]
  | _ => simp [Partial.token]

variable {p q : JSONParser}

/-- The memory behind the input has the last character of the literal. -/
lemma At.consumeWord_partial {init : Text} {x : Byte} (hx : memory 0 = x)
    (value : Value δ) (h : p.At init) :
    ∃ q : JSONParser, JSONParser.consumeWord memory (init ++ [x]) value p = .ok (value, q) ∧
      q.At [] := by
  have hat : p.At (init ++ []) := by rwa [List.append_nil]
  have hend := hat.nextNChars memory
  refine ⟨_, ?_, hend⟩
  have hconsume : p.canConsume ((init ++ [x]).length - 1) := by
    rw [h.canConsume_iff]
    simp
  have hpiece : p.piece memory (init ++ [x]).length = init ++ [x] := by
    rw [List.length_append, List.length_singleton, piece_succ_last, hat.piece, hend.peek_headD,
      List.headD_nil, hx]
  rw [JSONParser.consumeWord, hpiece, if_neg (not_or.mpr ⟨not_not.mpr hconsume, not_not.mpr rfl⟩)]
  simp

lemma At.parseToken_partial {u : Partial} (hu : u.Valid) (hnext : memory 0 = u.next)
    (fuel : ℕ) (h : p.At u.text) :
    ∃ (v : Value δ) (q : JSONParser),
      JSONParser.parseToken memory doubles options (fuel + 1) 0 u.token p = .ok (v, q) ∧
        q.At [] := by
  cases u with
  | null =>
    have hat : p.At (char 'n' :: ascii "ul") := h
    obtain ⟨q, hword, hq⟩ := h.consumeWord_partial hnext (.null : Value δ)
    refine ⟨.null, q, ?_, hq⟩
    rw [Partial.token, JSONParser.parseToken, consumeLiteral, hat.peek, if_neg (by decide),
      if_neg (by decide), if_pos rfl]
    exact hword
  | boolean b =>
    obtain ⟨q, hword, hq⟩ := h.consumeWord_partial hnext (.boolean b : Value δ)
    refine ⟨.boolean b, q, ?_, hq⟩
    cases b with
    | true =>
      have hat : p.At (char 't' :: ascii "ru") := h
      rw [Partial.token, if_pos rfl, JSONParser.parseToken, consumeLiteral, hat.peek, if_pos rfl]
      exact hword
    | false =>
      have hat : p.At (char 'f' :: ascii "als") := h
      rw [Partial.token, if_neg Bool.false_ne_true, JSONParser.parseToken, consumeLiteral, hat.peek,
        if_neg (by decide), if_pos rfl]
      exact hword
  | string pieces =>
    obtain ⟨hpieces, hne⟩ := hu
    have hat : p.At (char '"' :: (pieces.flatMap Piece.text ++ [])) := by
      rw [List.append_nil]
      exact h
    have hnext' := hat.nextChar memory
    have hb : Builds { pos := p.nextChar memory } [] (pieces.flatMap Piece.text ++ []) :=
      ⟨hnext', rfl⟩
    have hlength := length_le_flatMap pieces
    have hpos : 0 < pieces.length := List.length_pos_iff.mpr hne
    obtain ⟨b, q, hconsume, -, hq⟩ := hb.consumeCharacters_pieces memory hpieces
      ((p.nextChar memory).rest.length + 2) (by rw [hnext'.1, List.length_append]; omega)
      (by rw [List.headD_nil, hnext]; rfl) hnext'
    refine ⟨.string (b.asString memory), q, ?_, hq⟩
    rw [Partial.token, JSONParser.parseToken, consumeString, JSONParser.consumeStringRaw, hat.peek,
      if_neg (by simp)]
    dsimp only
    rw [if_neg (by rw [hnext'.canConsume_iff, List.length_append]; omega), hconsume]
    rfl

end JSONParser

/-- Where memory completes the value, the input is taken. -/
theorem parse_completed {input : Text} (h : Completed (memoryOf options memory) input) :
    ∃ v : Value δ, parse doubles options memory input = .ok v := by
  obtain ⟨mark, g, u, hg, hu, hnext, hinput⟩ := h
  obtain ⟨p, hp, hfinish⟩ := parse_start doubles options memory mark hg u.starts
    u.token_ne hinput.symm
  obtain ⟨v, q, hparse, hq⟩ := hp.parseToken_partial hu
    hnext (3 * input.length)
  refine ⟨v, (hfinish v q hparse).trans ?_⟩
  have hend := getNextToken_of_rest (memoryOf options memory) hq.1
  dsimp only
  rw [if_pos hend]

end Chromium.Json
