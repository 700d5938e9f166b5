import Chromium.JsonText

/-!
# What the JSON parser accepts

The parser takes the text of every tree that is nested less than `kStackMaxDepth` deep, and gives
the value of the tree.
-/
namespace Chromium.Json

open WireFormat StringNumber

namespace JSONParser

/-- The parser stands in front of the text `s`, at the end of the input. -/
def At (s : Text) (p : JSONParser) : Prop := p.rest = s ∧ p.past = 0

variable (memory : ℕ → Byte) {p : JSONParser} {s r : Text} {c : Byte}

lemma At.peek (h : p.At (c :: s)) : p.peek memory = c := by
  rw [JSONParser.peek, h.1, List.headD_cons]

lemma At.nextChar (h : p.At (c :: s)) : (p.nextChar memory).At s := by
  rw [JSONParser.nextChar, h.1]
  exact ⟨rfl, h.2⟩

lemma At.canConsume_iff (h : p.At s) (n : ℕ) : p.canConsume n ↔ n ≤ s.length := by
  rw [canConsume, h.1]

lemma nextNChars_succ (n : ℕ) (p : JSONParser) :
    p.nextNChars memory (n + 1) = (p.nextChar memory).nextNChars memory n :=
  Function.iterate_succ_apply _ n p

lemma nextNChars_add (m n : ℕ) (p : JSONParser) :
    p.nextNChars memory (m + n) = (p.nextNChars memory m).nextNChars memory n := by
  rw [nextNChars, Nat.add_comm, Function.iterate_add_apply]
  rfl

lemma At.nextNChars (h : p.At (s ++ r)) : (p.nextNChars memory s.length).At r := by
  induction s generalizing p with
  | nil => exact h
  | cons c s ih =>
    rw [List.length_cons, nextNChars_succ]
    exact ih (h.nextChar memory)

lemma index_nextChar (p : JSONParser) : (p.nextChar memory).index = p.index + 1 := by
  rw [nextChar]
  split <;> rfl

lemma index_nextNChars (n : ℕ) (p : JSONParser) :
    (p.nextNChars memory n).index = p.index + n := by
  induction n generalizing p with
  | zero => rfl
  | succ n ih =>
    rw [nextNChars_succ, ih, index_nextChar]
    omega

lemma piece_succ (n : ℕ) (p : JSONParser) :
    p.piece memory (n + 1) = p.peek memory :: (p.nextChar memory).piece memory n := by
  rw [piece, List.range_succ_eq_map, List.map_cons, List.map_map]
  rfl

lemma At.piece (h : p.At (s ++ r)) : p.piece memory s.length = s := by
  induction s generalizing p with
  | nil => rfl
  | cons c s ih =>
    rw [List.length_cons, piece_succ, h.peek, ih (h.nextChar memory)]

/-! ### White space and comments -/

lemma At.countLine (h : p.At s) : (p.countLine memory).At s := by
  rw [JSONParser.countLine]
  split_ifs
  · exact h
  · exact h

/-- A line comment is passed up to the character that ends the line. -/
lemma eatLine_newline {body : Text} (hbody : ∀ b ∈ body, isNewline b = false) {newline : Byte}
    (hnewline : isNewline newline = true) (fuel : ℕ) (hfuel : body.length < fuel)
    (h : p.At (c :: (body ++ newline :: r))) :
    ∃ q, eatLine memory fuel p = (true, q) ∧ q.At (newline :: r) := by
  induction body generalizing p c fuel with
  | nil =>
    match fuel, hfuel with
    | fuel + 1, _ =>
      refine ⟨_, ?_, h.nextChar memory⟩
      rw [eatLine, if_pos ((h.canConsume_iff 1).mpr (by simp))]
      dsimp only
      rw [(h.nextChar memory).peek, if_pos hnewline]
  | cons b body ih =>
    match fuel, hfuel with
    | fuel + 1, hfuel =>
      have hb := hbody b (by simp)
      obtain ⟨q, heat, hq⟩ := ih (fun b' hb' => hbody b' (by simp [hb'])) fuel
        (by simpa using hfuel) (h.nextChar memory)
      refine ⟨q, ?_, hq⟩
      rw [eatLine, if_pos ((h.canConsume_iff 1).mpr (by simp))]
      dsimp only
      rw [(h.nextChar memory).peek, hb,
        if_neg Bool.false_ne_true, heat]

/-- A line comment may go up to the end of the input. -/
lemma eatLine_end {body : Text} (hbody : ∀ b ∈ body, isNewline b = false) (fuel : ℕ)
    (hfuel : body.length < fuel) (h : p.At (c :: body)) : (eatLine memory fuel p).2.rest = [] := by
  induction body generalizing p c fuel with
  | nil =>
    match fuel, hfuel with
    | fuel + 1, _ =>
      have hnext := h.nextChar memory
      rw [eatLine, if_pos ((h.canConsume_iff 1).mpr (by simp))]
      dsimp only
      split_ifs
      · exact hnext.1
      · cases fuel with
        | zero => exact hnext.1
        | succ fuel =>
          rw [eatLine, if_neg (mt (hnext.canConsume_iff 1).mp (by simp))]
          exact hnext.1
  | cons b body ih =>
    match fuel, hfuel with
    | fuel + 1, hfuel =>
      rw [eatLine, if_pos ((h.canConsume_iff 1).mpr (by simp))]
      dsimp only
      rw [(h.nextChar memory).peek,
        hbody b (by simp), if_neg Bool.false_ne_true]
      exact ih (fun b' hb' => hbody b' (by simp [hb'])) fuel (by simpa using hfuel)
        (h.nextChar memory)

/-- No mark in a text means none at its front and none behind. -/
lemma not_mark_cons {a b : Byte} {body : Text}
    (h : ¬ [char '*', char '/'] <:+: a :: b :: body) :
    ¬ (a = char '*' ∧ b = char '/') ∧ ¬ [char '*', char '/'] <:+: b :: body := by
  constructor
  · rintro ⟨rfl, rfl⟩
    exact h ⟨[], body, rfl⟩
  · intro hsub
    exact h (hsub.trans (List.suffix_cons a _).isInfix)

lemma eatBlock_mark {body : Text} {previous : Byte}
    (hbody : ¬ [char '*', char '/'] <:+: previous :: body) (fuel : ℕ)
    (hfuel : body.length + 1 < fuel)
    (h : p.At (c :: (body ++ char '*' :: char '/' :: r))) :
    ∃ q, eatBlock memory fuel previous p = (true, q) ∧ q.At r := by
  induction body generalizing p c fuel previous with
  | nil =>
    match fuel, hfuel with
    | fuel + 2, _ =>
      have hnext := h.nextChar memory
      refine ⟨_, ?_, (hnext.nextChar memory).nextChar memory⟩
      rw [eatBlock, if_pos ((h.canConsume_iff 1).mpr (by simp))]
      dsimp only
      rw [hnext.peek, if_neg (fun hmark => absurd hmark.2 (by decide)), eatBlock,
        if_pos ((hnext.canConsume_iff 1).mpr (by simp))]
      dsimp only
      rw [(hnext.nextChar memory).peek, if_pos ⟨rfl, rfl⟩]
  | cons b body ih =>
    match fuel, hfuel with
    | fuel + 1, hfuel =>
      obtain ⟨hfront, hrest⟩ := not_mark_cons hbody
      obtain ⟨q, heat, hq⟩ := ih hrest fuel (by simpa using hfuel) (h.nextChar memory)
      refine ⟨q, ?_, hq⟩
      rw [eatBlock, if_pos ((h.canConsume_iff 1).mpr (by simp))]
      dsimp only
      rw [(h.nextChar memory).peek, if_neg hfront,
        heat]

lemma eatBlock_end {body : Text} {previous : Byte}
    (hbody : ¬ [char '*', char '/'] <:+: previous :: body) (fuel : ℕ)
    (hfuel : body.length < fuel) (h : p.At (c :: body)) :
    (eatBlock memory fuel previous p).2.rest = [] := by
  induction body generalizing p c fuel previous with
  | nil =>
    match fuel, hfuel with
    | fuel + 1, _ =>
      have hnext := h.nextChar memory
      rw [eatBlock, if_pos ((h.canConsume_iff 1).mpr (by simp))]
      dsimp only
      split_ifs
      · rw [nextChar, hnext.1]
      · cases fuel with
        | zero => exact hnext.1
        | succ fuel =>
          rw [eatBlock, if_neg (mt (hnext.canConsume_iff 1).mp (by simp))]
          exact hnext.1
  | cons b body ih =>
    match fuel, hfuel with
    | fuel + 1, hfuel =>
      obtain ⟨hfront, hrest⟩ := not_mark_cons hbody
      rw [eatBlock, if_pos ((h.canConsume_iff 1).mpr (by simp))]
      dsimp only
      rw [(h.nextChar memory).peek, if_neg hfront]
      exact ih hrest fuel (by simpa using hfuel) (h.nextChar memory)

lemma not_mark_zero {body : Text} (h : ¬ [char '*', char '/'] <:+: body) :
    ¬ [char '*', char '/'] <:+: 0 :: body := by
  rw [List.infix_cons_iff]
  rintro (hpre | hsub)
  · exact absurd (List.cons_prefix_cons.mp hpre).1 (by decide)
  · exact h hsub

lemma At.eatComment_line {body : Text} (hbody : ∀ b ∈ body, isNewline b = false) {newline : Byte}
    (hnewline : isNewline newline = true)
    (h : p.At (char '/' :: char '/' :: (body ++ newline :: r))) :
    ∃ q, p.eatComment memory = (true, q) ∧ q.At (newline :: r) := by
  have hnext := h.nextChar memory
  obtain ⟨q, heat, hq⟩ := eatLine_newline memory hbody hnewline
    (p.nextChar memory).rest.length (by rw [hnext.1]; simp) hnext
  refine ⟨q, ?_, hq⟩
  rw [eatComment, if_neg (by simp [h.peek, h.canConsume_iff])]
  dsimp only
  rw [hnext.peek, if_pos rfl, heat]

lemma At.eatComment_block {body : Text} (hbody : ¬ [char '*', char '/'] <:+: body)
    (h : p.At (char '/' :: char '*' :: (body ++ char '*' :: char '/' :: r))) :
    ∃ q, p.eatComment memory = (true, q) ∧ q.At r := by
  have hnext := h.nextChar memory
  obtain ⟨q, heat, hq⟩ := eatBlock_mark memory (not_mark_zero hbody)
    (p.nextChar memory).rest.length (by rw [hnext.1]; simp) hnext
  refine ⟨q, ?_, hq⟩
  rw [eatComment, if_neg (by simp [h.peek, h.canConsume_iff])]
  dsimp only
  rw [hnext.peek, if_neg (by decide), if_pos rfl, heat]

/-- A slash alone is passed, and nothing is passed behind it. -/
lemma At.eatComment_slash (hslash : c ≠ char '/') (hstar : c ≠ char '*')
    (h : p.At (char '/' :: c :: r)) : p.eatComment memory = (false, p.nextChar memory) := by
  rw [eatComment, if_neg (by simp [h.peek, h.canConsume_iff])]
  dsimp only
  rw [(h.nextChar memory).peek, if_neg hslash, if_neg hstar]

/-- What is neither blank nor a slash can begin a token. -/
def Begins (c : Byte) : Prop := isBlank c = false ∧ c ≠ char '/' ∧ c ≠ char '*'

lemma At.eatWhitespace_begins (hc : isBlank c = false ∧ c ≠ char '/') (fuel : ℕ)
    (h : p.At (c :: r)) :
    p.eatWhitespaceAndComments memory fuel = p := by
  cases fuel with
  | zero => rfl
  | succ fuel =>
    rw [eatWhitespaceAndComments, if_pos ((h.canConsume_iff 1).mpr (by simp)), h.peek, hc.1,
      if_neg Bool.false_ne_true, if_neg hc.2]

lemma At.eatWhitespace_blank (hc : isBlank c = true) (fuel : ℕ) (h : p.At (c :: r)) :
    p.eatWhitespaceAndComments memory (fuel + 1) =
      ((p.countLine memory).nextChar memory).eatWhitespaceAndComments memory fuel := by
  rw [eatWhitespaceAndComments, if_pos ((h.canConsume_iff 1).mpr (by simp)), h.peek, if_pos hc]

lemma At.eatWhitespace_comment {q : JSONParser} (heat : p.eatComment memory = (true, q))
    (fuel : ℕ) (h : p.At (char '/' :: r)) :
    p.eatWhitespaceAndComments memory (fuel + 1) = q.eatWhitespaceAndComments memory fuel := by
  rw [eatWhitespaceAndComments, if_pos ((h.canConsume_iff 1).mpr (by simp)), h.peek,
    if_neg (by decide), if_pos rfl, heat]

lemma At.eatWhitespace_stop {q : JSONParser} (heat : p.eatComment memory = (false, q))
    (fuel : ℕ) (h : p.At (char '/' :: r)) :
    p.eatWhitespaceAndComments memory (fuel + 1) = q := by
  rw [eatWhitespaceAndComments, if_pos ((h.canConsume_iff 1).mpr (by simp)), h.peek,
    if_neg (by decide), if_pos rfl, heat]

/-- One blank is passed, and enough fuel is left for what is behind it. -/
lemma At.eatWhitespace_valid {b : Blank} (hb : b.Valid) (fuel : ℕ)
    (hfuel : (b.text ++ s).length ≤ fuel) (h : p.At (b.text ++ s)) :
    ∃ (q : JSONParser) (fuel' : ℕ), q.At s ∧ s.length ≤ fuel' ∧
      p.eatWhitespaceAndComments memory fuel = q.eatWhitespaceAndComments memory fuel' := by
  cases b with
  | space c =>
    match fuel, hfuel with
    | fuel + 1, hfuel =>
      exact ⟨_, fuel, (h.countLine memory).nextChar memory, by simpa [Blank.text] using hfuel,
        h.eatWhitespace_blank memory hb fuel⟩
  | line body newline =>
    match fuel, hfuel with
    | fuel + 2, hfuel =>
      have hblank : isBlank newline = true := by
        rcases (decide_eq_true_iff.mp hb.2 : newline = char '\n' ∨ newline = char '\r') with
          rfl | rfl <;> decide
      have hat : p.At (char '/' :: char '/' :: (body ++ newline :: s)) := by
        simpa [Blank.text] using h
      obtain ⟨q, heat, hq⟩ := hat.eatComment_line memory hb.1 hb.2
      refine ⟨_, fuel, (hq.countLine memory).nextChar memory, ?_, ?_⟩
      · simp only [Blank.text, List.cons_append, List.length_cons, List.length_append] at hfuel
        omega
      · rw [hat.eatWhitespace_comment memory heat, hq.eatWhitespace_blank memory hblank]
    | 1, hfuel => simp [Blank.text] at hfuel
  | block body =>
    match fuel, hfuel with
    | fuel + 1, hfuel =>
      have hat : p.At (char '/' :: char '*' :: (body ++ char '*' :: char '/' :: s)) := by
        simpa [Blank.text] using h
      obtain ⟨q, heat, hq⟩ := hat.eatComment_block memory hb
      refine ⟨q, fuel, hq, ?_, hat.eatWhitespace_comment memory heat fuel⟩
      simp only [Blank.text, List.cons_append, List.length_cons, List.length_append] at hfuel
      omega

lemma At.eatWhitespace_blanks {bs : List Blank} (hbs : ∀ b ∈ bs, b.Valid) (fuel : ℕ)
    (hfuel : (bs.flatMap Blank.text ++ s).length ≤ fuel) (h : p.At (bs.flatMap Blank.text ++ s)) :
    ∃ (q : JSONParser) (fuel' : ℕ), q.At s ∧ s.length ≤ fuel' ∧
      p.eatWhitespaceAndComments memory fuel = q.eatWhitespaceAndComments memory fuel' := by
  induction bs generalizing p fuel with
  | nil => exact ⟨p, fuel, h, hfuel, rfl⟩
  | cons b bs ih =>
    rw [List.flatMap_cons, List.append_assoc] at hfuel h
    obtain ⟨q, fuel', hq, hfuel', heat⟩ := h.eatWhitespace_valid memory (hbs b (by simp)) fuel hfuel
    obtain ⟨q', fuel'', hq', hfuel'', heat'⟩ :=
      ih (fun b' hb' => hbs b' (by simp [hb'])) fuel' hfuel' hq
    exact ⟨q', fuel'', hq', hfuel'', heat.trans heat'⟩

/-- The character `c` is where the parser stops behind a gap. -/
def StopsAt (g : Gap) (c : Byte) : Prop :=
  if g.slash then c ≠ char '/' ∧ c ≠ char '*' else isBlank c = false ∧ c ≠ char '/'

lemma Begins.stopsAt (hc : Begins c) (g : Gap) : StopsAt g c := by
  rw [StopsAt]
  split_ifs
  · exact hc.2
  · exact ⟨hc.1, hc.2.1⟩

/-- The token behind a gap is the one its first character says. -/
lemma At.getNextToken_stopsAt {g : Gap} (hg : g.Valid) (hc : StopsAt g c)
    (h : p.At (g.text ++ c :: r)) :
    ∃ q, p.getNextToken memory = (tokenOf c, q) ∧ q.At (c :: r) := by
  obtain ⟨q, hat, heat⟩ : ∃ q : JSONParser, q.At (c :: r) ∧
      p.eatWhitespaceAndComments memory p.rest.length = q := by
    rw [Gap.text, List.append_assoc] at h
    obtain ⟨q, fuel, hq, hfuel, heat⟩ :=
      h.eatWhitespace_blanks memory hg p.rest.length (by rw [h.1])
    rw [StopsAt] at hc
    cases hslash : g.slash with
    | false =>
      simp only [hslash, Bool.false_eq_true, if_false, List.nil_append] at hq hc
      exact ⟨q, hq, by rw [heat, hq.eatWhitespace_begins memory hc]⟩
    | true =>
      simp only [hslash, if_true, List.cons_append, List.nil_append,
        List.length_cons] at hq hc hfuel
      match fuel, hfuel with
      | fuel + 1, _ =>
        have hcomment := hq.eatComment_slash memory hc.1 hc.2
        exact ⟨_, hq.nextChar memory, by rw [heat, hq.eatWhitespace_stop memory hcomment]⟩
  refine ⟨q, ?_, hat⟩
  rw [getNextToken, heat, if_pos ((hat.canConsume_iff 1).mpr (by simp)), hat.peek]

lemma At.getNextToken_gap {g : Gap} (hg : g.Valid) (hc : Begins c)
    (h : p.At (g.text ++ c :: r)) :
    ∃ q, p.getNextToken memory = (tokenOf c, q) ∧ q.At (c :: r) :=
  h.getNextToken_stopsAt memory hg (hc.stopsAt g)

lemma eatWhitespace_of_rest_nil (hp : p.rest = []) (fuel : ℕ) :
    p.eatWhitespaceAndComments memory fuel = p := by
  cases fuel with
  | zero => rfl
  | succ fuel => rw [eatWhitespaceAndComments, if_neg (by simp [canConsume, hp])]

/-- A comment that reaches the end of the input leaves nothing, whether it is complete or not. -/
lemma At.eatWhitespace_comment_end (hend : (p.eatComment memory).2.rest = []) (fuel : ℕ)
    (h : p.At (char '/' :: r)) :
    (p.eatWhitespaceAndComments memory (fuel + 1)).rest = [] := by
  cases heat : p.eatComment memory with
  | mk closed q =>
    rw [heat] at hend
    cases closed with
    | true => rwa [h.eatWhitespace_comment memory heat, eatWhitespace_of_rest_nil memory hend]
    | false => rwa [h.eatWhitespace_stop memory heat]

lemma At.eatComment_ending {e : Ending} (he : e.Valid) (h : p.At (char '/' :: r))
    (htext : char '/' :: r = e.text) : (p.eatComment memory).2.rest = [] := by
  have hnext := h.nextChar memory
  rw [eatComment, if_neg (by simp [h.peek, h.canConsume_iff])]
  dsimp only
  cases e with
  | plain => cases htext
  | line body =>
    obtain ⟨-, rfl⟩ := List.cons_eq_cons.mp htext
    rw [hnext.peek, if_pos rfl]
    exact eatLine_end memory he _ (by rw [hnext.1]; simp) hnext
  | slash =>
    obtain ⟨-, rfl⟩ := List.cons_eq_cons.mp htext
    have hrest : (p.nextChar memory).rest = [] := hnext.1
    -- The loops have no fuel, and stand at the end all the same.
    rw [hrest]
    split_ifs
    · exact hrest
    · exact hrest
    · exact hrest
  | block body =>
    obtain ⟨-, rfl⟩ := List.cons_eq_cons.mp htext
    rw [hnext.peek, if_neg (by decide), if_pos rfl]
    exact eatBlock_end memory (not_mark_zero he) _ (by rw [hnext.1]; simp) hnext

/-- At the end of the input there is no token. -/
lemma At.getNextToken_ending {bs : List Blank} (hbs : ∀ b ∈ bs, b.Valid) {e : Ending}
    (he : e.Valid) (h : p.At (bs.flatMap Blank.text ++ e.text)) :
    (p.getNextToken memory).1 = .endOfInput := by
  obtain ⟨q, fuel, hq, hfuel, heat⟩ :=
    h.eatWhitespace_blanks memory hbs p.rest.length (by rw [h.1])
  have hend : (q.eatWhitespaceAndComments memory fuel).rest = [] := by
    cases htext : e.text with
    | nil =>
      have hrest : q.rest = [] := hq.1.trans htext
      rwa [eatWhitespace_of_rest_nil memory hrest]
    | cons c r =>
      have hc : c = char '/' := by
        cases e <;> simp_all [Ending.text]
      subst hc
      rw [htext] at hq hfuel
      match fuel, hfuel with
      | fuel + 1, _ =>
        exact hq.eatWhitespace_comment_end memory (hq.eatComment_ending memory he htext.symm) fuel
  rw [getNextToken, heat, if_neg (by simp [canConsume, hend])]

/-! ### Strings -/

/-- The builder holds the characters `content`, and `s` is still in front of the parser. As long
as nothing was changed, it is the input that holds them. -/
def Builds (b : StringBuilder) (content s : Text) : Prop :=
  match b.string with
  | some str => str = content
  | none => b.pos.At (content ++ s) ∧ b.length = content.length

variable {b : StringBuilder} {content : Text}

lemma Builds.asString (h : Builds b content s) : b.asString memory = content := by
  rw [StringBuilder.asString]
  rw [Builds] at h
  cases hstring : b.string with
  | some str =>
    rw [hstring] at h
    exact h
  | none =>
    rw [hstring] at h
    rw [Option.getD_none, h.2, h.1.piece]

lemma Builds.convert (h : Builds b content s) : (b.convert memory).string = some content := by
  rw [StringBuilder.convert, h.asString memory]

lemma Builds.append (h : Builds b content (c :: s)) : Builds (b.append c) (content ++ [c]) s := by
  rw [Builds] at h
  rw [StringBuilder.append]
  cases hstring : b.string with
  | some str =>
    simp only [hstring] at h
    simp [Builds, h]
  | none =>
    simp only [hstring] at h
    simpa [Builds, hstring] using h

lemma builds_of_string (h : b.string = some content) (s : Text) : Builds b content s := by
  simp [Builds, h]

lemma string_append (h : b.string = some content) (c : Byte) :
    (b.append c).string = some (content ++ [c]) := by
  simp [StringBuilder.append, h]

lemma string_appendString (h : b.string = some content) (str : Text) :
    (b.appendString str).string = some (content ++ str) := by
  simp [StringBuilder.appendString, h]

lemma string_decodeUTF8 (h : b.string = some content) (point : ℕ) :
    (decodeUTF8 memory point b).string = some (content ++ IcuUtf.append point) := by
  rw [decodeUTF8]
  split_ifs with hsmall
  · rw [string_append h, IcuUtf.append_one hsmall]
  · exact string_appendString ((builds_of_string h []).convert memory) _

/-- A character that is kept as it stands. -/
lemma Builds.decodeUTF8 {point : ℕ} (h : Builds b content (IcuUtf.append point ++ s)) :
    Builds (JSONParser.decodeUTF8 memory point b) (content ++ IcuUtf.append point) s := by
  rw [JSONParser.decodeUTF8]
  split_ifs with hsmall
  · rw [IcuUtf.append_one hsmall] at h ⊢
    exact h.append
  · exact builds_of_string (string_appendString (h.convert memory) _) s

/-! ### Escapes -/

lemma exists_four {digits : Text} (h : digits.length = 4) : ∃ x y z w, digits = [x, y, z, w] := by
  match digits, h with
  | [x, y, z, w], _ => exact ⟨x, y, z, w, rfl⟩

/-- The last of four characters. -/
lemma At.nextNChars_three {digits : Text} (hlength : digits.length = 4) (h : p.At (digits ++ s)) :
    ∃ x, (p.nextNChars memory 3).At (x :: s) := by
  obtain ⟨x, y, z, w, rfl⟩ := exists_four hlength
  exact ⟨w, JSONParser.At.nextNChars memory (s := [x, y, z]) h⟩

lemma At.decodeUTF16_unit {digits : Text} (hlength : digits.length = 4) {n : ℕ}
    (hn : Piece.number digits = some n) (hsingle : IcuUtf.isSurrogate n = false)
    (h : p.At (digits ++ s)) :
    ∃ q x, decodeUTF16 memory p = .ok (codeUnits n, q) ∧ q.At (x :: s) := by
  obtain ⟨high, hhigh, rfl⟩ := Option.map_eq_some_iff.mp hn
  obtain ⟨x, hx⟩ := h.nextNChars_three memory hlength
  refine ⟨_, x, ?_, hx⟩
  have hpiece := h.piece memory
  rw [hlength] at hpiece
  rw [decodeUTF16, if_neg (by rw [h.canConsume_iff]; simp; omega), hpiece, hhigh]
  simp only [hsingle, Bool.false_eq_true, if_false]

lemma At.decodeUTF16_pair {high low : Text} (hvalid : (Piece.pair high low).Valid)
    (h : p.At (high ++ (char '\\' :: char 'u' :: (low ++ s)))) :
    ∃ q x, decodeUTF16 memory p = .ok ((Piece.pair high low).read, q) ∧ q.At (x :: s) := by
  obtain ⟨hhigh, hlow, ⟨n, hn, hsurrogate, hlead⟩, m, hm, htrail⟩ := hvalid
  have hread : (Piece.pair high low).read = codeUnits (IcuUtf.getSupplementary n m) := by
    rw [Piece.read, hn, hm]
  obtain ⟨k, hk, rfl⟩ := Option.map_eq_some_iff.mp hn
  obtain ⟨j, hj, rfl⟩ := Option.map_eq_some_iff.mp hm
  obtain ⟨x, hx⟩ := h.nextNChars_three memory hhigh
  have hslash := hx.nextChar memory
  have hu := hslash.nextChar memory
  have hdigits := hu.nextChar memory
  obtain ⟨y, hy⟩ := hdigits.nextNChars_three memory hlow
  have hpiece := h.piece memory
  rw [hhigh] at hpiece
  have hpiece' := hdigits.piece memory
  rw [hlow] at hpiece'
  refine ⟨_, y, ?_, hy⟩
  rw [decodeUTF16, if_neg (by rw [h.canConsume_iff]; simp; omega), hpiece, hk]
  simp only [hsurrogate, hlead, if_true, not_true_eq_false, if_false]
  rw [if_neg (by rw [hx.canConsume_iff]; simp; omega), hslash.peek, if_neg (by simp), hu.peek,
    if_neg (by simp), hpiece', hj]
  simp only [htrail, not_true_eq_false, if_false, hread]

/-- What is behind the backslash of an escape is consumed up to its last character. -/
lemma At.consumeEscape_valid {piece : Piece} (hvalid : piece.Valid) {body : Text}
    (htext : piece.text = char '\\' :: body) (hplain : ∀ c, piece ≠ .plain c)
    (hb : b.string = some content) (h : p.At (body ++ s)) :
    ∃ b' q x, consumeEscape memory b p = .ok (b', q) ∧ b'.string = some (content ++ piece.read) ∧
      q.At (x :: s) := by
  cases piece with
  | plain c => exact absurd rfl (hplain c)
  | escape letter =>
    obtain ⟨-, rfl⟩ := List.cons_eq_cons.mp htext
    obtain ⟨value, hvalue⟩ := Option.isSome_iff_exists.mp hvalid
    have hx : letter ≠ char 'x' := by
      rintro rfl
      revert hvalue
      decide +revert
    have hu : letter ≠ char 'u' := by
      rintro rfl
      revert hvalue
      decide +revert
    have hread : (Piece.escape letter).read = [value] := by
      rw [Piece.read, hvalue]
      rfl
    refine ⟨b.append value, p, letter, ?_, by rw [hread, string_append hb], h⟩
    rw [consumeEscape, h.peek, if_neg hx, if_neg hu, hvalue]
  | byte digits =>
    obtain ⟨-, rfl⟩ := List.cons_eq_cons.mp htext
    obtain ⟨hlength, hsome⟩ := hvalid
    obtain ⟨n, hn⟩ := Option.isSome_iff_exists.mp hsome
    have hnext := h.nextChar memory
    have hpiece := hnext.piece memory
    rw [hlength] at hpiece
    match digits, hlength with
    | [y, z], _ =>
      have hlast : ((p.nextChar memory).nextChar memory).At (z :: s) := hnext.nextChar memory
      refine ⟨if n < 0x80 then b.append (BitVec.ofInt 8 n) else decodeUTF8 memory n.toNat b, _, z,
        ?_, ?_, hlast⟩
      · rw [consumeEscape, h.peek, if_pos rfl, if_neg (by rw [h.canConsume_iff]; simp)]
        dsimp only
        rw [hpiece, hn]
      · rw [Piece.read, hn]
        dsimp only
        split_ifs
        · rw [string_append hb]
        · rw [string_decodeUTF8 memory hb]
  | unit digits =>
    obtain ⟨-, rfl⟩ := List.cons_eq_cons.mp htext
    obtain ⟨hlength, n, hn, hsingle⟩ := hvalid
    obtain ⟨q, x, hdecode, hq⟩ :=
      (h.nextChar memory).decodeUTF16_unit memory hlength hn hsingle
    refine ⟨_, q, x, ?_, string_appendString hb _, hq⟩
    rw [consumeEscape, h.peek, if_neg (by decide), if_pos rfl,
      if_neg (by rw [h.canConsume_iff]; simp; omega), hdecode]
    simp [Piece.read, hn]
  | pair high low =>
    obtain ⟨-, rfl⟩ := List.cons_eq_cons.mp htext
    have hlength := hvalid.1
    have hnext : (p.nextChar memory).At (high ++ (char '\\' :: char 'u' :: (low ++ s))) := by
      simpa using h.nextChar memory
    obtain ⟨q, x, hdecode, hq⟩ := hnext.decodeUTF16_pair memory hvalid
    refine ⟨_, q, x, ?_, string_appendString hb _, hq⟩
    rw [consumeEscape, h.peek, if_neg (by decide), if_pos rfl,
      if_neg (by rw [h.canConsume_iff]; simp; omega), hdecode]

/-- One part of a string is consumed. -/
lemma Builds.consumeCharacters_piece {piece : Piece} (hvalid : piece.Valid) (fuel : ℕ)
    (h : p.At (piece.text ++ s)) (hb : Builds b content (piece.text ++ s)) :
    ∃ b' q, consumeCharacters memory (fuel + 1) b p = consumeCharacters memory fuel b' q ∧
      Builds b' (content ++ piece.read) s ∧ q.At s := by
  by_cases hplain : ∃ c, piece = .plain c
  · obtain ⟨c, rfl⟩ := hplain
    obtain ⟨hcharacter, hquote, hslash⟩ := hvalid
    obtain ⟨lead, trail, happend, hnext⟩ :=
      IcuUtf.next_append (IcuUtf.isValidCodepoint_of_character hcharacter)
    have hat : p.At (lead :: (trail ++ s)) := by simpa [Piece.text, happend] using h
    refine ⟨JSONParser.decodeUTF8 memory c b, _, ?_, hb.decodeUTF8 memory, h.nextNChars memory⟩
    rw [consumeCharacters, if_neg (by rw [h.2]; decide), hat.peek, hat.1, List.tail_cons, hnext]
    simp only [hcharacter, hquote, hslash, not_true_eq_false, if_false, Piece.text, happend,
      List.length_cons]
  · obtain ⟨body, hbody⟩ : ∃ body, piece.text = char '\\' :: body := by
      cases piece with
      | plain c => exact absurd ⟨c, rfl⟩ hplain
      | _ => exact ⟨_, rfl⟩
    have hat : p.At (char '\\' :: (body ++ s)) := by simpa [hbody] using h
    obtain ⟨b', q, x, hconsume, hstring, hq⟩ :=
      (hat.nextChar memory).consumeEscape_valid memory hvalid
      hbody (fun c hc => hplain ⟨c, hc⟩) (hb.convert memory)
    refine ⟨b', q.nextChar memory, ?_, builds_of_string hstring s, hq.nextChar memory⟩
    have hnext : IcuUtf.next (char '\\') (body ++ s) = (some (char '\\').toNat, 0) := rfl
    have hfirst : p.nextNChars memory 1 = p.nextChar memory := nextNChars_succ memory 0 p
    rw [consumeCharacters, if_neg (by rw [h.2]; decide), hat.peek, hat.1, List.tail_cons, hnext]
    simp only [hfirst]
    rw [if_neg (by decide), if_pos trivial, if_neg (by rw [hat.canConsume_iff]; simp), hconsume]
    rfl

/-- The parts of a string are consumed up to the quote, which may lie behind the end of the
input. -/
lemma Builds.consumeCharacters_pieces {pieces : List Piece} (hvalid : ∀ x ∈ pieces, x.Valid)
    (fuel : ℕ) (hfuel : pieces.length < fuel) (hr : r.headD (memory 0) = char '"')
    (h : p.At (pieces.flatMap Piece.text ++ r))
    (hb : Builds b content (pieces.flatMap Piece.text ++ r)) :
    ∃ b' q, consumeCharacters memory fuel b p = .ok (b', q) ∧
      b'.asString memory = content ++ pieces.flatMap Piece.read ∧ q.At r := by
  induction pieces generalizing p b content fuel with
  | nil =>
    match fuel, hfuel with
    | fuel + 1, _ =>
      have hpeek : p.peek memory = char '"' := by rw [JSONParser.peek, h.1, h.2]; exact hr
      have hnext : IcuUtf.next (char '"') p.rest.tail = (some (char '"').toNat, 0) := rfl
      refine ⟨b, p, ?_, by rw [hb.asString memory]; simp, h⟩
      rw [consumeCharacters, if_neg (by rw [h.2]; decide), hpeek, hnext]
      simp only
      rw [if_neg (by decide), if_neg (by decide), if_pos trivial]
  | cons piece pieces ih =>
    match fuel, hfuel with
    | fuel + 1, hfuel =>
      rw [List.flatMap_cons, List.append_assoc] at h hb
      obtain ⟨b', q, hstep, hb', hq⟩ :=
        hb.consumeCharacters_piece memory (hvalid piece (by simp)) fuel h
      obtain ⟨b'', q', hconsume, hstring, hq'⟩ :=
        ih (fun x hx => hvalid x (by simp [hx])) fuel (by simpa using hfuel) hq hb'
      refine ⟨b'', q', hstep.trans hconsume, ?_, hq'⟩
      rw [hstring, List.flatMap_cons, List.append_assoc]

lemma length_text_pos (piece : Piece) : 0 < piece.text.length := by
  cases piece with
  | plain c => exact IcuUtf.length_append_pos c
  | _ => simp [Piece.text]

lemma length_le_flatMap (pieces : List Piece) :
    pieces.length ≤ (pieces.flatMap Piece.text).length := by
  induction pieces with
  | nil => simp
  | cons piece pieces ih =>
    have hpos := length_text_pos piece
    rw [List.flatMap_cons, List.length_append, List.length_cons]
    omega

lemma At.consumeStringRaw {pieces : List Piece} (hvalid : ∀ x ∈ pieces, x.Valid)
    (h : p.At (stringText pieces ++ s)) :
    ∃ b' q, consumeStringRaw memory p = .ok (b', q) ∧
      b'.asString memory = pieces.flatMap Piece.read ∧ q.At (char '"' :: s) := by
  have hat : p.At (char '"' :: (pieces.flatMap Piece.text ++ char '"' :: s)) := by
    simpa [stringText] using h
  have hnext := hat.nextChar memory
  have hb : Builds { pos := p.nextChar memory } []
      (pieces.flatMap Piece.text ++ char '"' :: s) := ⟨hnext, rfl⟩
  have hfuel : pieces.length < (p.nextChar memory).rest.length + 2 := by
    have hle := length_le_flatMap pieces
    rw [hnext.1, List.length_append]
    omega
  obtain ⟨b', q, hconsume, hstring, hq⟩ :=
    hb.consumeCharacters_pieces memory hvalid _ hfuel rfl hnext
  refine ⟨b', q, ?_, hstring, hq⟩
  rw [JSONParser.consumeStringRaw, hat.peek, if_neg (by simp)]
  dsimp only
  rw [if_neg (by rw [hnext.canConsume_iff]; simp), hconsume]

/-! ### Numbers -/

/-- What may stand behind a number, with the byte of memory that is looked at when nothing
does. Behind a part that is there, it is not looked for again. -/
structure Follows (memory : ℕ → Byte) (n : Number) (s : Text) : Prop where
  not_digit : ∀ c ∈ s.head?, isAsciiDigit c = false
  not_dot : n.fraction = none → n.exponent = none → s.headD (memory 0) ≠ char '.'
  not_mark : n.exponent = none →
    s.headD (memory 0) ≠ char 'e' ∧ s.headD (memory 0) ≠ char 'E'

lemma At.peek_headD (h : p.At s) : p.peek memory = s.headD (memory 0) := by
  rw [JSONParser.peek, h.1, h.2]

lemma takeWhile_digits {digits : Text} (hdigits : ∀ c ∈ digits, isAsciiDigit c = true)
    (hs : ∀ c ∈ s.head?, isAsciiDigit c = false) :
    (digits ++ s).takeWhile isAsciiDigit = digits := by
  rw [List.takeWhile_append_of_pos hdigits]
  cases s with
  | nil => simp
  | cons c s => simp [hs c (by simp)]

lemma At.readInt {digits : Text} (hdigits : Number.Digits digits)
    (hs : ∀ c ∈ s.head?, isAsciiDigit c = false) (allow : Bool)
    (hzero : allow = false → digits.head? = some (char '0') → digits.length = 1)
    (h : p.At (digits ++ s)) :
    readInt memory allow p = (true, p.nextNChars memory digits.length) := by
  obtain ⟨hne, hall⟩ := hdigits
  have hpos : digits.length ≠ 0 := by simpa using hne
  rw [JSONParser.readInt, h.1, takeWhile_digits hall hs]
  simp only [Prod.mk.injEq, and_true, decide_eq_true_eq]
  refine ⟨hpos, ?_⟩
  rintro ⟨hallow, hlong, hfirst⟩
  match digits, hne with
  | c :: digits, _ =>
    rw [JSONParser.At.peek memory h] at hfirst
    have hone := hzero (by simpa using hallow) (by simp [hfirst])
    omega

lemma digit_ne {c : Byte} (h : isAsciiDigit c = true) :
    c ≠ char '-' ∧ c ≠ char '+' ∧ c ≠ char '.' ∧ c ≠ char 'e' ∧ c ≠ char 'E' := by
  revert c
  decide

lemma At.readFraction {fraction : Option Text}
    (hfraction : ∀ digits ∈ fraction, Number.Digits digits)
    (hs : ∀ c ∈ s.head?, isAsciiDigit c = false)
    (hdot : fraction = none → s.headD (memory 0) ≠ char '.')
    (h : p.At (Number.fractionText fraction ++ s)) :
    readFraction memory p = .ok (p.nextNChars memory (Number.fractionText fraction).length) := by
  cases fraction with
  | none =>
    have hat : p.At s := h
    rw [JSONParser.readFraction, hat.peek_headD, if_neg (hdot rfl)]
    rfl
  | some digits =>
    have hat : p.At (char '.' :: (digits ++ s)) := h
    have hread := (hat.nextChar memory).readInt memory (hfraction digits rfl) hs true
      (fun hfalse => by cases hfalse)
    rw [JSONParser.readFraction, hat.peek, if_pos rfl,
      if_neg (by rw [hat.canConsume_iff]; simp), hread]
    rfl

lemma At.readExponent {exponent : Option (Byte × Option Byte × Text)}
    (hexponent : ∀ e ∈ exponent, (e.1 = char 'e' ∨ e.1 = char 'E') ∧
      (∀ sign ∈ e.2.1, sign = char '-' ∨ sign = char '+') ∧ Number.Digits e.2.2)
    (hs : ∀ c ∈ s.head?, isAsciiDigit c = false)
    (hmark : exponent = none →
      s.headD (memory 0) ≠ char 'e' ∧ s.headD (memory 0) ≠ char 'E')
    (h : p.At (Number.exponentText exponent ++ s)) :
    readExponent memory p = .ok (p.nextNChars memory (Number.exponentText exponent).length) := by
  match exponent, hexponent with
  | none, _ =>
    have hat : p.At s := h
    obtain ⟨hlower, hupper⟩ := hmark rfl
    rw [JSONParser.readExponent, hat.peek_headD, if_neg (not_or.mpr ⟨hlower, hupper⟩)]
    rfl
  | some (mark, sign, digits), hexponent =>
    obtain ⟨hmark, hsign, hdigits⟩ := hexponent _ rfl
    have hat : p.At (mark :: (sign.toList ++ (digits ++ s))) := by
      simpa [Number.exponentText] using h
    have hnext := hat.nextChar memory
    rw [JSONParser.readExponent, hat.peek, if_pos hmark]
    dsimp only
    cases sign with
    | none =>
      obtain ⟨c, hc, htail⟩ : ∃ c tail, digits = c :: tail := List.exists_cons_of_ne_nil hdigits.1
      have hdigit := digit_ne (hdigits.2 c (by simp [htail]))
      have hpeek : (p.nextChar memory).peek memory = c := by
        rw [hnext.peek_headD, htail]
        rfl
      rw [hpeek, if_neg (by rintro (he | he); exacts [hdigit.1 he, hdigit.2.1 he]),
        JSONParser.At.readInt memory hdigits hs true (fun hfalse => by cases hfalse) hnext]
      rfl
    | some x =>
      have hat' : (p.nextChar memory).At (x :: (digits ++ s)) := hnext
      rw [hat'.peek, if_pos (hsign x rfl), (hat'.nextChar memory).readInt memory hdigits hs true
        (fun hfalse => by cases hfalse)]
      rfl

lemma Follows.exponent {n : Number} (hs : Follows memory n s)
    (hexponent : ∀ e ∈ n.exponent, e.1 = char 'e' ∨ e.1 = char 'E') :
    (∀ c ∈ (Number.exponentText n.exponent ++ s).head?, isAsciiDigit c = false) ∧
      (n.fraction = none →
        (Number.exponentText n.exponent ++ s).headD (memory 0) ≠ char '.') := by
  match hexp : n.exponent, hexponent with
  | none, _ => exact ⟨hs.not_digit, fun hfraction => hs.not_dot hfraction hexp⟩
  | some (mark, sign, digits), hexponent =>
    have hmark : isAsciiDigit mark = false ∧ mark ≠ char '.' := by
      rcases (hexponent _ rfl : mark = char 'e' ∨ mark = char 'E') with rfl | rfl <;> decide
    exact ⟨by simpa [Number.exponentText] using hmark.1, fun _ => hmark.2⟩

lemma head_fraction (fraction : Option Text) (hs : ∀ c ∈ s.head?, isAsciiDigit c = false) :
    ∀ c ∈ (Number.fractionText fraction ++ s).head?, isAsciiDigit c = false := by
  cases fraction with
  | none => exact hs
  | some digits =>
    intro c hc
    obtain rfl : char '.' = c := by simpa [Number.fractionText] using hc
    decide

def EndsWithDigit (t : Text) : Prop := ∃ init x, t = init ++ [x] ∧ isAsciiDigit x = true

lemma EndsWithDigit.append {t : Text} (h : EndsWithDigit t) (u : Text) :
    EndsWithDigit (u ++ t) := by
  obtain ⟨init, x, rfl, hx⟩ := h
  exact ⟨u ++ init, x, (List.append_assoc u init [x]).symm, hx⟩

lemma endsWithDigit_digits {digits : Text} (h : Number.Digits digits) : EndsWithDigit digits := by
  obtain ⟨init, x, rfl⟩ := List.eq_nil_or_concat digits |>.resolve_left h.1
  exact ⟨init, x, by simp, h.2 x (by simp)⟩

/-- A number ends with a digit. -/
lemma endsWithDigit_number {n : Number} (hn : n.Valid) : EndsWithDigit n.text := by
  rw [Number.text]
  refine EndsWithDigit.append ?_ _
  match hexp : n.exponent, hfrac : n.fraction with
  | some (mark, sign, digits), _ =>
    have hdigits := endsWithDigit_digits (hn.exponent_digits _ hexp).2.2
    exact (((hdigits.append sign.toList).append [mark]).append _).append n.int
  | none, some digits =>
    have hdigits := endsWithDigit_digits (hn.fraction_digits _ hfrac)
    rw [Number.exponentText, List.append_nil]
    exact (hdigits.append [char '.']).append n.int
  | none, none =>
    rw [Number.exponentText, Number.fractionText, List.append_nil, List.append_nil]
    exact endsWithDigit_digits hn.int_digits

variable {δ : Type} {doubles : Doubles δ}

/-- The parts of a number are read one after the other. -/
lemma At.read_parts {n : Number} (hn : n.Valid) (hs : Follows memory n s) (h : p.At (n.text ++ s)) :
    let q := if p.peek memory = char '-' then p.nextChar memory else p
    ∃ q₁ q₂, JSONParser.readInt memory false q = (true, q₁) ∧
      JSONParser.readFraction memory q₁ = .ok q₂ ∧
      JSONParser.readExponent memory q₂ = .ok (p.nextNChars memory n.text.length) := by
  intro q
  have htext : n.text ++ s = Number.signText n.minus ++ (n.int ++
      (Number.fractionText n.fraction ++ (Number.exponentText n.exponent ++ s))) := by
    simp [Number.text]
  rw [htext] at h
  obtain ⟨hexp, hdot⟩ := hs.exponent memory fun e he => (hn.exponent_digits e he).1
  have hfrac := head_fraction n.fraction hexp
  have hq : q = p.nextNChars memory (Number.signText n.minus).length := by
    cases hminus : n.minus with
    | true =>
      have hat : p.At (char '-' :: (n.int ++
          (Number.fractionText n.fraction ++ (Number.exponentText n.exponent ++ s)))) := by
        simpa [Number.signText, hminus] using h
      simp only [q, hat.peek, if_true]
      rfl
    | false =>
      obtain ⟨c, tail, hc⟩ := List.exists_cons_of_ne_nil hn.int_digits.1
      have hpeek : p.peek memory = c := by
        rw [h.peek_headD, hminus, hc]
        rfl
      have hne := (digit_ne (hn.int_digits.2 c (by simp [hc]))).1
      simp only [q, hpeek, if_neg hne]
      rfl
  have hat := h.nextNChars memory
  rw [← hq] at hat
  have hint := hat.readInt memory hn.int_digits hfrac false
    (fun _ hzero => hn.int_zero hzero)
  have hat₁ := hat.nextNChars memory
  have hat₂ := hat₁.nextNChars memory
  refine ⟨_, _, hint, hat₁.readFraction memory hn.fraction_digits hexp hdot, ?_⟩
  rw [hat₂.readExponent memory hn.exponent_digits hs.not_digit hs.not_mark, hq]
  simp only [← nextNChars_add, Number.text, List.length_append, Nat.add_assoc]

/-- A number is consumed, and its text is what counts. -/
lemma At.consumeNumber_eq {n : Number} (hn : n.Valid) (hs : Follows memory n s)
    (hends : ∀ q : JSONParser, q.At s → endsNumber (q.getNextToken memory).1 = true)
    (doubles : Doubles δ) (h : p.At (n.text ++ s)) :
    ∃ q x, consumeNumber memory doubles p = (numberValue doubles n.text).map (fun v => (v, q)) ∧
      q.At (x :: s) ∧ isAsciiDigit x = true := by
  obtain ⟨q₁, q₂, hint, hfrac, hexp⟩ := h.read_parts memory hn hs
  have hend := hends _ (h.nextNChars memory)
  obtain ⟨init, x, hlast, hx⟩ := endsWithDigit_number hn
  have hindex : (p.nextNChars memory n.text.length).index - p.index = n.text.length := by
    rw [index_nextNChars]
    omega
  have hexit : (p.nextNChars memory (n.text.length - 1)).At (x :: s) := by
    rw [hlast, List.append_assoc] at h
    have hat := h.nextNChars memory
    rw [hlast, List.length_append, List.length_singleton, Nat.add_sub_cancel]
    exact hat
  cases htoken : (p.nextNChars memory n.text.length).getNextToken memory with
  | mk token t =>
    rw [htoken] at hend
    refine ⟨{ p.nextNChars memory (n.text.length - 1) with
      lineNumber := t.lineNumber, indexLastLine := t.indexLastLine }, x, ?_, hexit, hx⟩
    rw [consumeNumber]
    simp only [hint, hfrac, hexp, htoken, hend, if_true, hindex, h.piece, bind, Except.bind]
    cases numberValue doubles n.text <;> rfl

lemma At.consumeNumber {n : Number} (hn : n.Valid) (hs : Follows memory n s)
    (hends : ∀ q : JSONParser, q.At s → endsNumber (q.getNextToken memory).1 = true)
    {v : Value δ} (hv : n.read doubles = some v) (h : p.At (n.text ++ s)) :
    ∃ q x, JSONParser.consumeNumber memory doubles p = .ok (v, q) ∧ q.At (x :: s) ∧
      isAsciiDigit x = true := by
  obtain ⟨q, x, hconsume, hq, hx⟩ := h.consumeNumber_eq memory hn hs hends doubles
  refine ⟨q, x, ?_, hq, hx⟩
  rw [Number.read] at hv
  cases hnumber : numberValue doubles n.text with
  | error e =>
    rw [hnumber] at hv
    cases hv
  | ok v' =>
    rw [hnumber] at hv hconsume
    obtain rfl : v' = v := by simpa [Except.toOption] using hv
    exact hconsume

/-! ### Values -/

/-- The parser is on the last character of something, with `s` behind it. -/
def Leaves (s : Text) (p : JSONParser) : Prop :=
  ∃ x, isBlank x = false ∧ x ≠ char '/' ∧ p.At (x :: s)

lemma Leaves.nextChar (h : p.Leaves s) : (p.nextChar memory).At s := by
  obtain ⟨x, -, -, hx⟩ := h
  exact hx.nextChar memory

lemma At.consumeWord {init : Text} {x : Byte} (hx : isBlank x = false ∧ x ≠ char '/')
    (value : Value δ) (h : p.At ((init ++ [x]) ++ s)) :
    ∃ q : JSONParser, consumeWord memory (init ++ [x]) value p = .ok (value, q) ∧ q.Leaves s := by
  have hat := h
  rw [List.append_assoc] at hat
  refine ⟨_, ?_, x, hx.1, hx.2, hat.nextNChars memory⟩
  have hconsume : p.canConsume ((init ++ [x]).length - 1) := by
    rw [h.canConsume_iff]
    simp
  rw [JSONParser.consumeWord, h.piece, if_neg (not_or.mpr ⟨not_not.mpr hconsume, not_not.mpr rfl⟩)]
  simp

/-- A number is over, and the next token says so. -/
structure Behind (n : Number) (s : Text) : Prop where
  follows : Follows memory n s
  ends : ∀ q : JSONParser, q.At s → endsNumber (q.getNextToken memory).1 = true

/-- Blanks are none of the characters that go on with a number. -/
lemma follows_cons {c : Byte} (hc : isBlank c = true ∨ c = char '/' ∨ c = char ',' ∨
    c = char ']' ∨ c = char '\x7d') (n : Number) : Follows memory n (c :: s) := by
  have hnot : isAsciiDigit c = false ∧ c ≠ char '.' ∧ c ≠ char 'e' ∧ c ≠ char 'E' := by
    revert c
    decide
  exact ⟨by simpa using hnot.1, fun _ _ => hnot.2.1, fun _ => hnot.2.2⟩

lemma follows_blanks {bs : List Blank} (hbs : ∀ b ∈ bs, b.Valid) {n : Number}
    (hs : Follows memory n s) : Follows memory n (bs.flatMap Blank.text ++ s) := by
  cases bs with
  | nil => exact hs
  | cons b bs =>
    cases b with
    | space c =>
      have hc : isBlank c = true := hbs (.space c) (by simp)
      exact follows_cons memory (.inl hc) n
    | line body newline => exact follows_cons memory (.inr (.inl rfl)) n
    | block body => exact follows_cons memory (.inr (.inl rfl)) n

lemma behind_gap {g : Gap} (hg : g.Valid) {c : Byte}
    (hc : c = char ',' ∨ c = char ']' ∨ c = char '\x7d') (n : Number) :
    Behind memory n (g.text ++ c :: s) := by
  have hbegins : Begins c ∧ endsNumber (tokenOf c) = true := by
    rcases hc with rfl | rfl | rfl <;> exact ⟨by unfold Begins; decide, by decide⟩
  constructor
  · rw [Gap.text, List.append_assoc]
    refine follows_blanks memory hg ?_
    cases g.slash with
    | true => exact follows_cons memory (.inr (.inl rfl)) n
    | false => exact follows_cons memory (.inr (.inr hc)) n
  · intro q hq
    obtain ⟨q', htoken, -⟩ := hq.getNextToken_gap memory hg hbegins.1
    rw [htoken]
    exact hbegins.2

end JSONParser

open JSONParser

/-- The token that a value begins with. -/
def Tree.token : Tree → Token
  | .null => .null
  | .boolean b => if b then .boolTrue else .boolFalse
  | .number _ => .number
  | .string _ => .string
  | .list _ _ => .arrayBegin
  | .dictionary _ _ => .objectBegin

def Items.token : Items → Token
  | .nil => .arrayEnd
  | .last item _ | .cons item _ _ _ => item.token

def Members.token : Members → Token
  | .nil => .objectEnd
  | .last _ _ _ _ _ | .cons _ _ _ _ _ _ _ => .string

/-- A text that begins with a token. -/
def Starts (token : Token) (t : Text) : Prop := ∃ c r, t = c :: r ∧ Begins c ∧ tokenOf c = token

lemma Starts.append {token : Token} {t : Text} (h : Starts token t) (s : Text) :
    Starts token (t ++ s) := by
  obtain ⟨c, r, rfl, hc⟩ := h
  exact ⟨c, r ++ s, rfl, hc⟩

lemma Number.starts {n : Number} (hn : n.Valid) : Starts .number n.text := by
  have hdigit : ∀ c : Byte, isAsciiDigit c = true → Begins c ∧ tokenOf c = .number := by
    unfold Begins
    decide
  rw [Number.text]
  cases n.minus with
  | true => exact ⟨char '-', _, rfl, by unfold Begins; decide, by decide⟩
  | false =>
    obtain ⟨c, tail, hc⟩ := List.exists_cons_of_ne_nil hn.int_digits.1
    rw [hc]
    exact ⟨c, _, rfl, hdigit c (hn.int_digits.2 c (by simp [hc]))⟩

lemma Tree.starts {options : Options} {t : Tree} (ht : t.Valid options) :
    Starts t.token t.text := by
  cases t with
  | null => exact ⟨char 'n', _, rfl, by unfold Begins; decide, by decide⟩
  | boolean b =>
    cases b with
    | true => exact ⟨char 't', _, rfl, by unfold Begins; decide, by decide⟩
    | false => exact ⟨char 'f', _, rfl, by unfold Begins; decide, by decide⟩
  | number n =>
    rw [Tree.Valid] at ht
    rw [Tree.text]
    exact Number.starts ht
  | string pieces =>
    have htoken : tokenOf (char '"') = .string := by decide
    exact ⟨char '"', _, rfl, by unfold Begins; decide, htoken⟩
  | list gap items =>
    have htoken : tokenOf (char '[') = .arrayBegin := by decide
    exact ⟨char '[', _, rfl, by unfold Begins; decide, htoken⟩
  | dictionary gap members =>
    have htoken : tokenOf (char '\x7b') = .objectBegin := by decide
    exact ⟨char '\x7b', _, rfl, by unfold Begins; decide, htoken⟩

lemma Items.starts {options : Options} {items : Items} (h : items.Valid options) (s : Text) :
    Starts items.token (items.text ++ char ']' :: s) := by
  cases items with
  | nil => exact ⟨char ']', s, rfl, by unfold Begins; decide, by unfold Items.token; decide⟩
  | last item gap =>
    rw [Items.Valid] at h
    rw [Items.text, List.append_assoc]
    exact (Tree.starts h.1).append _
  | cons item gap gap' items =>
    rw [Items.Valid] at h
    rw [Items.text, List.append_assoc]
    exact (Tree.starts h.1).append _

lemma Members.starts (members : Members) (s : Text) :
    Starts members.token (members.text ++ char '\x7d' :: s) := by
  cases members with
  | nil => exact ⟨char '\x7d', s, rfl, by unfold Begins; decide, by unfold Members.token; decide⟩
  | last key gap gap' value gap'' =>
    have htoken : tokenOf (char '"') = .string := by decide
    exact ⟨char '"', _, rfl, by unfold Begins; decide, htoken⟩
  | cons key gap gap' value gap'' gap₃ members =>
    have htoken : tokenOf (char '"') = .string := by decide
    exact ⟨char '"', _, rfl, by unfold Begins; decide, htoken⟩

lemma Tree.token_ne (t : Tree) : t.token ≠ .arrayEnd ∧ t.token ≠ .objectEnd := by
  cases t with
  | boolean b => cases b <;> exact ⟨by simp [Tree.token], by simp [Tree.token]⟩
  | _ => exact ⟨by simp [Tree.token], by simp [Tree.token]⟩

lemma Items.token_eq {items : Items} (h : items.token = .arrayEnd) : items = .nil := by
  cases items with
  | nil => rfl
  | last item gap => exact absurd h item.token_ne.1
  | cons item gap gap' items => exact absurd h item.token_ne.1

lemma Members.token_eq {members : Members} (h : members.token = .objectEnd) : members = .nil := by
  cases members with
  | nil => rfl
  | last key gap gap' value gap'' => cases h
  | cons key gap gap' value gap'' gap₃ members => cases h

namespace JSONParser

variable (memory : ℕ → Byte) {δ : Type} (doubles : Doubles δ) (options : Options)
variable {p q : JSONParser} {s t : Text} {token : Token} {v : Value δ} {fuel depth : ℕ}

/-- The token behind a value. -/
lemma Leaves.getNextToken_gap {g : Gap} (hg : g.Valid) {c : Byte} (hc : Begins c)
    (h : p.Leaves (g.text ++ c :: s)) :
    ∃ q, (p.nextChar memory).getNextToken memory = (tokenOf c, q) ∧ q.At (c :: s) :=
  (h.nextChar memory).getNextToken_gap memory hg hc

lemma At.getNextToken_starts {g : Gap} (hg : g.Valid) (ht : Starts token t)
    (h : p.At (g.text ++ t)) : ∃ q, p.getNextToken memory = (token, q) ∧ q.At t := by
  obtain ⟨c, r, rfl, hc, rfl⟩ := ht
  exact h.getNextToken_gap memory hg hc

lemma begins_comma : Begins (char ',') ∧ tokenOf (char ',') = .listSeparator := by
  unfold Begins
  decide

lemma begins_bracket : Begins (char ']') ∧ tokenOf (char ']') = .arrayEnd := by
  unfold Begins
  decide

lemma begins_brace : Begins (char '\x7d') ∧ tokenOf (char '\x7d') = .objectEnd := by
  unfold Begins
  decide

lemma begins_colon : Begins (char ':') ∧ tokenOf (char ':') = .objectPairSeparator := by
  unfold Begins
  decide

/-! ### One round of the loops -/

variable {doubles options}

lemma consumeItems_comma (list : List (Value δ)) (htoken : token ≠ .arrayEnd)
    (hparse : parseToken memory doubles options fuel depth token p = .ok (v, q)) {g g' : Gap}
    (hg : g.Valid) (hg' : g'.Valid) {token' : Token} (ht : Starts token' t)
    (hallow : token' = .arrayEnd → options.allowTrailingCommas = true)
    (hq : q.Leaves (g.text ++ char ',' :: (g'.text ++ t))) :
    ∃ q' : JSONParser, consumeItems memory doubles options (fuel + 1) depth list token p =
        consumeItems memory doubles options fuel depth (list ++ [v]) token' q' ∧ q'.At t := by
  obtain ⟨q₁, hcomma, hq₁⟩ := hq.getNextToken_gap memory hg begins_comma.1
  obtain ⟨q₂, hnext, hq₂⟩ := (hq₁.nextChar memory).getNextToken_starts memory hg' ht
  refine ⟨q₂, ?_, hq₂⟩
  rw [consumeItems, if_neg htoken, hparse]
  simp only [bind, Except.bind, hcomma, begins_comma.2, if_true, hnext]
  rw [if_neg (fun htrailing => htrailing.2 (hallow htrailing.1))]

lemma consumeItems_last (list : List (Value δ)) (htoken : token ≠ .arrayEnd)
    (hparse : parseToken memory doubles options fuel depth token p = .ok (v, q)) {g : Gap}
    (hg : g.Valid) (hq : q.Leaves (g.text ++ char ']' :: s)) :
    ∃ q' : JSONParser, consumeItems memory doubles options (fuel + 1) depth list token p =
        consumeItems memory doubles options fuel depth (list ++ [v]) .arrayEnd q' ∧
      q'.At (char ']' :: s) := by
  obtain ⟨q₁, hend, hq₁⟩ := hq.getNextToken_gap memory hg begins_bracket.1
  refine ⟨q₁, ?_, hq₁⟩
  rw [consumeItems, if_neg htoken, hparse]
  simp [bind, Except.bind, hend, begins_bracket.2]

/-- The key of an entry, up to the value. -/
lemma At.consume_key {key : List Piece} (hkey : ∀ x ∈ key, x.Valid) {g g' : Gap} (hg : g.Valid)
    (hg' : g'.Valid) (ht : Starts token t)
    (h : p.At (stringText key ++ (g.text ++ char ':' :: (g'.text ++ t)))) :
    ∃ b q q₁ q₂, JSONParser.consumeStringRaw memory p = .ok (b, q) ∧
      b.asString memory = key.flatMap Piece.read ∧
      (q.nextChar memory).getNextToken memory = (.objectPairSeparator, q₁) ∧
      (q₁.nextChar memory).getNextToken memory = (token, q₂) ∧ q₂.At t := by
  obtain ⟨b, q, hstring, hb, hq⟩ := h.consumeStringRaw memory hkey
  obtain ⟨q₁, hcolon, hq₁⟩ :=
    (hq.nextChar memory).getNextToken_gap memory hg begins_colon.1
  obtain ⟨q₂, hvalue, hq₂⟩ := (hq₁.nextChar memory).getNextToken_starts memory hg' ht
  exact ⟨b, q, q₁, q₂, hstring, hb, by rw [hcolon, begins_colon.2], hvalue, hq₂⟩

lemma consumeEntries_comma (dict : List (Text × Value δ)) {key : List Piece}
    (hkey : ∀ x ∈ key, x.Valid) {g g' g'' g₃ : Gap} (hg : g.Valid) (hg' : g'.Valid)
    (hg'' : g''.Valid) (hg₃ : g₃.Valid) {u : Text} (hu : Starts token u) {token' : Token}
    (ht : Starts token' t) (hallow : token' = .objectEnd → options.allowTrailingCommas = true)
    (hparse : ∀ q : JSONParser, q.At u → ∃ q',
      parseToken memory doubles options fuel depth token q = .ok (v, q') ∧
        q'.Leaves (g''.text ++ char ',' :: (g₃.text ++ t)))
    (h : p.At (stringText key ++ (g.text ++ char ':' :: (g'.text ++ u)))) :
    ∃ q' : JSONParser, consumeEntries memory doubles options (fuel + 1) depth dict .string p =
        consumeEntries memory doubles options fuel depth
          (setWithoutPathExpansion (key.flatMap Piece.read) v dict) token' q' ∧ q'.At t := by
  obtain ⟨b, q, q₁, q₂, hstring, hb, hcolon, hvalue, hq₂⟩ := h.consume_key memory hkey hg hg' hu
  obtain ⟨q₃, hv, hq₃⟩ := hparse q₂ hq₂
  obtain ⟨q₄, hcomma, hq₄⟩ := hq₃.getNextToken_gap memory hg'' begins_comma.1
  obtain ⟨q₅, hnext, hq₅⟩ := (hq₄.nextChar memory).getNextToken_starts memory hg₃ ht
  refine ⟨q₅, ?_, hq₅⟩
  rw [consumeEntries, if_neg (by decide), if_neg (by simp), hstring]
  simp only [bind, Except.bind, hcolon, ne_eq, not_true_eq_false, if_false, hvalue, hv, hb, hcomma,
    begins_comma.2, if_true, hnext]
  rw [if_neg (fun htrailing => htrailing.2 (hallow htrailing.1))]

lemma consumeEntries_last (dict : List (Text × Value δ)) {key : List Piece}
    (hkey : ∀ x ∈ key, x.Valid) {g g' g'' : Gap} (hg : g.Valid) (hg' : g'.Valid)
    (hg'' : g''.Valid) {u : Text} (hu : Starts token u)
    (hparse : ∀ q : JSONParser, q.At u → ∃ q',
      parseToken memory doubles options fuel depth token q = .ok (v, q') ∧
        q'.Leaves (g''.text ++ char '\x7d' :: s))
    (h : p.At (stringText key ++ (g.text ++ char ':' :: (g'.text ++ u)))) :
    ∃ q' : JSONParser, consumeEntries memory doubles options (fuel + 1) depth dict .string p =
        consumeEntries memory doubles options fuel depth
          (setWithoutPathExpansion (key.flatMap Piece.read) v dict) .objectEnd q' ∧
      q'.At (char '\x7d' :: s) := by
  obtain ⟨b, q, q₁, q₂, hstring, hb, hcolon, hvalue, hq₂⟩ := h.consume_key memory hkey hg hg' hu
  obtain ⟨q₃, hv, hq₃⟩ := hparse q₂ hq₂
  obtain ⟨q₄, hend, hq₄⟩ := hq₃.getNextToken_gap memory hg'' begins_brace.1
  refine ⟨q₄, ?_, hq₄⟩
  rw [consumeEntries, if_neg (by decide), if_neg (by simp), hstring]
  simp [bind, Except.bind, hcolon, hvalue, hv, hb, hend, begins_brace.2]

lemma At.consumeLiteral_null (h : p.At (ascii "null" ++ s)) :
    ∃ q : JSONParser, consumeLiteral (δ := δ) memory p = .ok (.null, q) ∧ q.Leaves s := by
  have hat : p.At (char 'n' :: (ascii "ull" ++ s)) := h
  have hword : p.At ((ascii "nul" ++ [char 'l']) ++ s) := h
  obtain ⟨q, hq, hleaves⟩ := hword.consumeWord memory (by decide) (Value.null (δ := δ))
  refine ⟨q, ?_, hleaves⟩
  rw [consumeLiteral, hat.peek, if_neg (by decide), if_neg (by decide), if_pos rfl]
  exact hq

lemma At.consumeLiteral_bool {b : Bool} (h : p.At (boolText b ++ s)) :
    ∃ q : JSONParser, consumeLiteral (δ := δ) memory p = .ok (.boolean b, q) ∧ q.Leaves s := by
  cases b with
  | true =>
    have hat : p.At (char 't' :: (ascii "rue" ++ s)) := h
    have hword : p.At ((ascii "tru" ++ [char 'e']) ++ s) := h
    obtain ⟨q, hq, hleaves⟩ := hword.consumeWord memory (by decide) (Value.boolean (δ := δ) true)
    refine ⟨q, ?_, hleaves⟩
    rw [consumeLiteral, hat.peek, if_pos rfl]
    exact hq
  | false =>
    have hat : p.At (char 'f' :: (ascii "alse" ++ s)) := h
    have hword : p.At ((ascii "fals" ++ [char 'e']) ++ s) := h
    obtain ⟨q, hq, hleaves⟩ := hword.consumeWord memory (by decide) (Value.boolean (δ := δ) false)
    refine ⟨q, ?_, hleaves⟩
    rw [consumeLiteral, hat.peek, if_neg (by decide), if_pos rfl]
    exact hq

lemma digit_not_blank {x : Byte} (h : isAsciiDigit x = true) :
    isBlank x = false ∧ x ≠ char '/' := by
  revert x
  decide

/-! ### All values -/

mutual

/-- A value is consumed up to its last character. -/
theorem At.parseToken {t : Tree} (ht : t.Valid options) {v : Value δ}
    (hv : t.value (parserReading doubles) = some v) (depth : ℕ)
    (hdepth : depth + t.depth < kStackMaxDepth) (fuel : ℕ) (hfuel : 3 * t.text.length + 1 ≤ fuel)
    {p : JSONParser} {s : Text} (hs : ∀ n, t = .number n → Behind memory n s)
    (h : p.At (t.text ++ s)) :
    ∃ q : JSONParser, JSONParser.parseToken memory doubles options fuel depth t.token p =
      .ok (v, q) ∧ q.Leaves s := by
  match fuel, hfuel with
  | fuel + 1, hfuel =>
    match t with
    | .null =>
      obtain rfl : Value.null = v := by simpa [Tree.value] using hv
      rw [Tree.text] at h
      obtain ⟨q, hq, hleaves⟩ := h.consumeLiteral_null (δ := δ) memory
      refine ⟨q, ?_, hleaves⟩
      rw [Tree.token, JSONParser.parseToken]
      exact hq
    | .boolean b =>
      obtain rfl : Value.boolean b = v := by simpa [Tree.value] using hv
      rw [Tree.text] at h
      obtain ⟨q, hq, hleaves⟩ := h.consumeLiteral_bool (δ := δ) memory
      refine ⟨q, ?_, hleaves⟩
      cases b with
      | true =>
        rw [Tree.token, if_pos rfl, JSONParser.parseToken]
        exact hq
      | false =>
        rw [Tree.token, if_neg Bool.false_ne_true, JSONParser.parseToken]
        exact hq
    | .number n =>
      rw [Tree.value] at hv
      rw [Tree.Valid] at ht
      rw [Tree.text] at h
      obtain ⟨q, x, hq, hat, hx⟩ := h.consumeNumber memory ht (hs n rfl).follows (hs n rfl).ends hv
      have hblank : isBlank x = false ∧ x ≠ char '/' := digit_not_blank hx
      refine ⟨q, ?_, x, hblank.1, hblank.2, hat⟩
      rw [Tree.token, JSONParser.parseToken]
      exact hq
    | .string pieces =>
      obtain rfl : Value.string (pieces.flatMap Piece.read) = v := by
        simpa [Tree.value, parserReading] using hv
      rw [Tree.Valid] at ht
      rw [Tree.text] at h
      obtain ⟨b, q, hstring, hb, hat⟩ := h.consumeStringRaw memory ht
      refine ⟨q, ?_, char '"', by decide, by decide, hat⟩
      rw [Tree.token, JSONParser.parseToken, consumeString, hstring]
      simp [bind, Except.bind, hb]
    | .list gap items =>
      rw [Tree.value] at hv
      obtain ⟨vs, hvs, rfl⟩ := Option.map_eq_some_iff.mp hv
      rw [Tree.Valid] at ht
      rw [Tree.depth] at hdepth
      simp only [Tree.text, List.length_cons, List.length_append, List.length_nil] at hfuel
      have hat : p.At (char '[' :: (gap.text ++ (items.text ++ char ']' :: s))) := by
        simpa [Tree.text] using h
      obtain ⟨q, htoken, hq⟩ := (hat.nextChar memory).getNextToken_starts memory ht.1
        (Items.starts ht.2 s)
      match fuel, hfuel with
      | fuel + 1, hfuel =>
        obtain ⟨q', hconsume, hq'⟩ := At.consumeItems ht.2 hvs (depth + 1) (by omega) fuel
          (by omega) [] hq
        refine ⟨q', ?_, char ']', by decide, by decide, hq'⟩
        rw [Tree.token, JSONParser.parseToken, consumeList, hat.peek, if_neg (by simp),
          if_neg (by omega), htoken]
        exact hconsume
    | .dictionary gap members =>
      rw [Tree.value] at hv
      obtain ⟨entries, hentries, rfl⟩ := Option.map_eq_some_iff.mp hv
      rw [Tree.Valid] at ht
      rw [Tree.depth] at hdepth
      simp only [Tree.text, List.length_cons, List.length_append, List.length_nil] at hfuel
      have hat : p.At (char '\x7b' :: (gap.text ++ (members.text ++ char '\x7d' :: s))) := by
        simpa [Tree.text] using h
      obtain ⟨q, htoken, hq⟩ := (hat.nextChar memory).getNextToken_starts memory ht.1
        (members.starts s)
      match fuel, hfuel with
      | fuel + 1, hfuel =>
        obtain ⟨q', hconsume, hq'⟩ := At.consumeEntries ht.2 [] hentries (depth + 1) (by omega) fuel
          (by omega) hq
        refine ⟨q', ?_, char '\x7d', by decide, by decide, hq'⟩
        rw [Tree.token, JSONParser.parseToken, consumeDictionary, hat.peek, if_neg (by simp),
          if_neg (by omega), htoken]
        exact hconsume

/-- The items of a list are consumed up to the bracket. -/
theorem At.consumeItems {items : Items} (ht : items.Valid options) {vs : List (Value δ)}
    (hvs : items.values (parserReading doubles) = some vs) (depth : ℕ)
    (hdepth : depth + items.depth < kStackMaxDepth) (fuel : ℕ)
    (hfuel : 3 * items.text.length + 2 ≤ fuel) (list : List (Value δ)) {p : JSONParser} {s : Text}
    (h : p.At (items.text ++ char ']' :: s)) :
    ∃ q : JSONParser,
      JSONParser.consumeItems memory doubles options fuel depth list items.token p =
        .ok (.list (list ++ vs), q) ∧ q.At (char ']' :: s) := by
  match fuel, hfuel with
  | fuel + 2, hfuel =>
    match items with
    | .nil =>
      obtain rfl : [] = vs := by simpa [Items.values] using hvs
      refine ⟨p, ?_, h⟩
      rw [Items.token, JSONParser.consumeItems, if_pos rfl, List.append_nil]
    | .last item gap =>
      rw [Items.values] at hvs
      obtain ⟨v, hv, rfl⟩ := Option.map_eq_some_iff.mp hvs
      rw [Items.Valid] at ht
      rw [Items.depth] at hdepth
      rw [Items.text, List.append_assoc] at h
      simp only [Items.text, List.length_append] at hfuel
      obtain ⟨q, hparse, hq⟩ := At.parseToken ht.1 hv depth hdepth (fuel + 1) (by omega)
        (fun n _ => behind_gap memory ht.2 (.inr (.inl rfl)) n) h
      obtain ⟨q', hround, hq'⟩ := consumeItems_last memory list item.token_ne.1 hparse ht.2 hq
      refine ⟨q', ?_, hq'⟩
      rw [Items.token, hround, JSONParser.consumeItems, if_pos rfl]
    | .cons item gap gap' items =>
      rw [Items.values] at hvs
      obtain ⟨v, hv, hvs⟩ := Option.bind_eq_some_iff.mp hvs
      obtain ⟨vs', hvs', hsome⟩ := Option.bind_eq_some_iff.mp hvs
      obtain rfl : v :: vs' = vs := by simpa using hsome
      rw [Items.Valid] at ht
      obtain ⟨hitem, hg, hg', hitems, hallow⟩ := ht
      rw [Items.depth] at hdepth
      simp only [Items.text, List.append_assoc, List.cons_append] at h
      simp only [Items.text, List.length_append, List.length_cons] at hfuel
      obtain ⟨q, hparse, hq⟩ := At.parseToken hitem hv depth (by omega) (fuel + 1) (by omega)
        (fun n _ => behind_gap memory hg (.inl rfl) n) h
      obtain ⟨q', hround, hq'⟩ := consumeItems_comma memory list item.token_ne.1 hparse hg hg'
        (Items.starts hitems s) (fun htoken => hallow (Items.token_eq htoken)) hq
      obtain ⟨q'', hrest, hq''⟩ := At.consumeItems hitems hvs' depth (by omega) (fuel + 1)
        (by omega)
        (list ++ [v]) hq'
      refine ⟨q'', ?_, hq''⟩
      rw [Items.token, hround, hrest, List.append_assoc, List.singleton_append]

theorem At.consumeEntries {members : Members} (ht : members.Valid options)
    (dict : List (Text × Value δ)) {entries : List (Text × Value δ)}
    (hentries : members.entries (parserReading doubles) dict = some entries) (depth : ℕ)
    (hdepth : depth + members.depth < kStackMaxDepth) (fuel : ℕ)
    (hfuel : 3 * members.text.length + 2 ≤ fuel) {p : JSONParser} {s : Text}
    (h : p.At (members.text ++ char '\x7d' :: s)) :
    ∃ q : JSONParser,
      JSONParser.consumeEntries memory doubles options fuel depth dict members.token p =
        .ok (.dictionary entries, q) ∧ q.At (char '\x7d' :: s) := by
  match fuel, hfuel with
  | fuel + 2, hfuel =>
    match members with
    | .nil =>
      obtain rfl : dict = entries := by simpa [Members.entries] using hentries
      refine ⟨p, ?_, h⟩
      rw [Members.token, JSONParser.consumeEntries, if_pos rfl]
    | .last key gap gap' value gap'' =>
      rw [Members.entries] at hentries
      obtain ⟨v, hv, rfl⟩ := Option.map_eq_some_iff.mp hentries
      rw [Members.Valid] at ht
      obtain ⟨hkey, hg, hg', hvalue, hg''⟩ := ht
      rw [Members.depth] at hdepth
      simp only [Members.text, List.append_assoc, List.cons_append] at h
      simp only [Members.text, List.length_append, List.length_cons] at hfuel
      obtain ⟨q', hround, hq'⟩ := consumeEntries_last memory dict hkey hg hg' hg''
        ((Tree.starts hvalue).append _)
        (fun q hq => At.parseToken hvalue hv depth hdepth (fuel + 1) (by omega)
          (fun n _ => behind_gap memory hg'' (.inr (.inr rfl)) n) hq) h
      refine ⟨q', ?_, hq'⟩
      rw [Members.token, hround, JSONParser.consumeEntries, if_pos rfl]
      rfl
    | .cons key gap gap' value gap'' gap3 members =>
      rw [Members.entries] at hentries
      obtain ⟨v, hv, hentries⟩ := Option.bind_eq_some_iff.mp hentries
      rw [Members.Valid] at ht
      obtain ⟨hkey, hg, hg', hvalue, hg'', hg3, hmembers, hallow⟩ := ht
      rw [Members.depth] at hdepth
      simp only [Members.text, List.append_assoc, List.cons_append] at h
      simp only [Members.text, List.length_append, List.length_cons] at hfuel
      obtain ⟨q', hround, hq'⟩ := consumeEntries_comma memory dict hkey hg hg' hg'' hg3
        ((Tree.starts hvalue).append _) (members.starts s)
        (fun htoken => hallow (Members.token_eq htoken))
        (fun q hq => At.parseToken hvalue hv depth (by omega) (fuel + 1) (by omega)
          (fun n _ => behind_gap memory hg'' (.inl rfl) n) hq) h
      obtain ⟨q'', hrest, hq''⟩ := At.consumeEntries hmembers _ hentries depth (by omega)
        (fuel + 1) (by omega) hq'
      refine ⟨q'', ?_, hq''⟩
      rw [Members.token, hround]
      exact hrest

end

end JSONParser

/-! ### The whole input -/

/-- Behind a number at the end of the input, the byte of memory does not go on with it. -/
def Document.Clear (memory : ℕ → Byte) (d : Document) : Prop :=
  ∀ n, d.tree = .number n → d.tail = [] → Follows memory n []

/-- Nothing that begins a document looks like a byte order mark. -/
lemma Starts.head_ne {token : Token} {g : Gap} {t : Text} (hg : g.Valid) (ht : Starts token t)
    (htoken : token ≠ .invalidToken) : ∃ c r, g.text ++ t = c :: r ∧ c ≠ 0xEF := by
  obtain ⟨c, r, rfl, -, rfl⟩ := ht
  have hblank : ∀ c : Byte, isBlank c = true → c ≠ 0xEF := by decide
  have hfirst : ∀ c : Byte, tokenOf c ≠ .invalidToken → c ≠ 0xEF := by decide
  have hslash : char '/' ≠ 0xEF := by decide
  rw [Gap.text]
  cases hbs : g.blanks with
  | nil =>
    cases g.slash with
    | true => exact ⟨_, _, rfl, hslash⟩
    | false => exact ⟨_, _, rfl, hfirst c htoken⟩
  | cons b bs =>
    cases b with
    | space c' =>
      have hb : isBlank c' = true := hg (.space c') (by simp [hbs])
      exact ⟨_, _, rfl, hblank c' hb⟩
    | line body newline => exact ⟨_, _, rfl, hslash⟩
    | block body => exact ⟨_, _, rfl, hslash⟩

lemma Tree.token_ne_invalid (t : Tree) : t.token ≠ .invalidToken ∧ t.token ≠ .endOfInput := by
  cases t with
  | boolean b => cases b <;> exact ⟨by simp [Tree.token], by simp [Tree.token]⟩
  | _ => exact ⟨by simp [Tree.token], by simp [Tree.token]⟩

variable {δ : Type} {doubles : Doubles δ} {options : Options} {memory : ℕ → Byte}

lemma Document.behind {d : Document} (hd : d.Valid options) (hclear : d.Clear memory) {n : Number}
    (hn : d.tree = .number n) : Behind memory n d.tail := by
  constructor
  · rw [Document.tail]
    by_cases htext : d.ending.text = []
    · rw [htext, List.append_nil]
      by_cases hblanks : d.blanks = []
      · rw [hblanks]
        exact hclear n hn (by simp [Document.tail, hblanks, htext])
      · obtain ⟨b, bs, hbs⟩ := List.exists_cons_of_ne_nil hblanks
        have hb : b.Valid := hd.blanks b (by simp [hbs])
        rw [hbs, List.flatMap_cons]
        cases b with
        | space c =>
          have hc : isBlank c = true := hb
          exact follows_cons memory (.inl hc) n
        | line body newline => exact follows_cons memory (.inr (.inl rfl)) n
        | block body => exact follows_cons memory (.inr (.inl rfl)) n
    · refine follows_blanks memory hd.blanks ?_
      cases hending : d.ending with
      | plain => simp [hending, Ending.text] at htext
      | line body => exact follows_cons memory (.inr (.inl rfl)) n
      | slash => exact follows_cons memory (.inr (.inl rfl)) n
      | block body => exact follows_cons memory (.inr (.inl rfl)) n
  · intro q hq
    rw [hq.getNextToken_ending memory hd.blanks hd.ending]
    rfl

/-- The byte of memory that the parser may look at. -/
def memoryOf (options : Options) (memory : ℕ → Byte) : ℕ → Byte :=
  if options.detachableChildren then memory else fun _ => 0

lemma tokenOf_ne_endOfInput (c : Byte) : tokenOf c ≠ .endOfInput := by
  revert c
  decide

/-- On the last character of a value there is no end of the input yet. -/
lemma JSONParser.Leaves.getNextToken (memory : ℕ → Byte) {p : JSONParser} {s : Text}
    (h : p.Leaves s) :
    ∃ x, (p.getNextToken memory) = (tokenOf x, p) ∧ p.At (x :: s) := by
  obtain ⟨x, hblank, hslash, hat⟩ := h
  have heat : p.eatWhitespaceAndComments memory p.rest.length = p := by
    rw [hat.1, List.length_cons, eatWhitespaceAndComments,
      if_pos ((hat.canConsume_iff 1).mpr (by simp)), hat.peek, hblank, if_neg Bool.false_ne_true,
      if_neg hslash]
  refine ⟨x, ?_, hat⟩
  rw [JSONParser.getNextToken, heat, if_pos ((hat.canConsume_iff 1).mpr (by simp)), hat.peek]

/-- The byte order mark is passed if it is there. -/
lemma skip_mark (memory : ℕ → Byte) (mark : Bool) {s : Text} (hs : ∃ c r, s = c :: r ∧ c ≠ 0xEF) :
    let start : JSONParser := { rest := (if mark then byteOrderMark else []) ++ s }
    let p := if start.canConsume 3 ∧ start.piece memory 3 = byteOrderMark then
      start.nextNChars memory 3 else start
    p.At s := by
  intro start p
  have hstart : start.At ((if mark then byteOrderMark else []) ++ s) := ⟨rfl, rfl⟩
  cases mark with
  | true =>
    have hpiece : start.piece memory 3 = byteOrderMark := hstart.piece memory
    have hconsume : start.canConsume 3 := by
      rw [hstart.canConsume_iff]
      simp [byteOrderMark]
    simp only [p, hpiece, hconsume, and_self, if_true]
    exact hstart.nextNChars memory
  | false =>
    obtain ⟨c, r, rfl, hc⟩ := hs
    simp only [Bool.false_eq_true, if_false, List.nil_append] at hstart
    have hpiece : start.piece memory 3 ≠ byteOrderMark := by
      rw [piece_succ, hstart.peek]
      intro heq
      exact hc (List.cons_eq_cons.mp heq).1
    simp only [p, hpiece, and_false, if_false]
    exact hstart

/-- What is done when the value has been parsed. -/
lemma parse_start (doubles : Doubles δ) (options : Options) (memory : ℕ → Byte) (mark : Bool)
    {g : Gap} {t input : Text} {token : Token} (hg : g.Valid)
    (ht : Starts token t) (htoken : token ≠ .invalidToken)
    (hinput : (if mark then byteOrderMark else []) ++ (g.text ++ t) = input) :
    ∃ p : JSONParser, p.At t ∧ ∀ (root : Value δ) (q : JSONParser),
      parseToken (memoryOf options memory) doubles options (3 * input.length + 1) 0 token p =
          .ok (root, q) →
        parse doubles options memory input =
          (let (token, p) := q.getNextToken (memoryOf options memory)
          if token = .endOfInput then .ok root
          else if ¬ p.canConsume 1 then reportError .unexpectedDataAfterRoot 1 p
          else
            let (token, p) := (p.nextChar (memoryOf options memory)).getNextToken
              (memoryOf options memory)
            if token ≠ .endOfInput then reportError .unexpectedDataAfterRoot 1 p
            else .ok root) := by
  have hskip := skip_mark (memoryOf options memory) mark (ht.head_ne hg htoken)
  obtain ⟨p, hfirst, hp⟩ := hskip.getNextToken_starts (memoryOf options memory) hg ht
  have hmemory : (if options.detachableChildren = true then memory else fun _ => 0) =
      memoryOf options memory := rfl
  refine ⟨p, hp, ?_⟩
  intro root q hparse
  rw [hinput] at hfirst
  rw [parse]
  simp only [hmemory, hfirst, hparse, bind, Except.bind]

/-- A document is parsed to its value. -/
theorem parse_document {d : Document} (hd : d.Valid options)
    (hclear : d.Clear (memoryOf options memory)) {v : Value δ}
    (hv : d.tree.value (parserReading doubles) = some v) :
    parse doubles options memory d.text = .ok v := by
  obtain ⟨q, hq, hfinish⟩ := parse_start doubles options memory d.mark
    hd.gap ((Tree.starts hd.tree).append d.tail) d.tree.token_ne_invalid.1 rfl
  have hfuel : 3 * d.tree.text.length + 1 ≤ 3 * d.text.length + 1 := by
    simp only [Document.text, List.length_append]
    omega
  have hdepth : 0 + d.tree.depth < kStackMaxDepth := by rw [Nat.zero_add]; exact hd.depth
  obtain ⟨q₁, hparse, hq₁⟩ := hq.parseToken (memoryOf options memory) hd.tree hv 0 hdepth _ hfuel
    (fun n hn => Document.behind hd hclear hn)
  obtain ⟨x, hlast, hx⟩ := hq₁.getNextToken (memoryOf options memory)
  have hend := (hx.nextChar (memoryOf options memory)).getNextToken_ending
    (memoryOf options memory) hd.blanks hd.ending
  refine (hfinish v q₁ hparse).trans ?_
  rw [hlast]
  dsimp only
  rw [if_neg (tokenOf_ne_endOfInput x), if_neg (by rw [hx.canConsume_iff]; simp), hend]
  simp

end Chromium.Json
