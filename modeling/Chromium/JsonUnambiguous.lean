import Chromium.JsonParserAccepts

/-!
# JSON texts are unambiguous

A text is the text of one document at most, also with the forms that only the parser takes. The
parts are codes that are told apart by what they begin with, and each of them ends where the next
one can begin.
-/
namespace Chromium.Json

open WireFormat StringNumber JSONParser

/-! ### Codes one behind the other -/

/-- Where no code is the front of another, and `G` is no front of a code, the codes in front of
`G` can be read back. -/
lemma flatMap_unique {α β : Type*} {f : α → List β} {V : α → Prop} {G : List β → Prop}
    (hcode : ∀ a b s t, V a → V b → f a ++ s = f b ++ t → a = b ∧ s = t)
    (hstop : ∀ a s t, V a → G t → f a ++ s ≠ t) {xs ys : List α} (hxs : ∀ x ∈ xs, V x)
    (hys : ∀ y ∈ ys, V y) {s t : List β} (hs : G s) (ht : G t)
    (h : xs.flatMap f ++ s = ys.flatMap f ++ t) : xs = ys ∧ s = t := by
  induction xs generalizing ys with
  | nil =>
    cases ys with
    | nil => exact ⟨rfl, h⟩
    | cons y ys =>
      rw [List.flatMap_cons, List.append_assoc] at h
      exact absurd h.symm (hstop y _ s (hys y (by simp)) hs)
  | cons x xs ih =>
    rw [List.flatMap_cons, List.append_assoc] at h
    cases ys with
    | nil => exact absurd h (hstop x _ t (hxs x (by simp)) ht)
    | cons y ys =>
      rw [List.flatMap_cons, List.append_assoc] at h
      obtain ⟨rfl, htail⟩ := hcode x y _ _ (hxs x (by simp)) (hys y (by simp)) h
      obtain ⟨rfl, hrest⟩ := ih (fun x' hx' => hxs x' (by simp [hx']))
        (fun y' hy' => hys y' (by simp [hy'])) htail
      exact ⟨rfl, hrest⟩

/-- The first element with a property is where a list is cut. -/
lemma cut_unique {β : Type*} {p : β → Bool} {u v s t : List β} {a b : β}
    (hu : ∀ c ∈ u, p c = false) (hv : ∀ c ∈ v, p c = false) (ha : p a = true) (hb : p b = true)
    (h : u ++ a :: s = v ++ b :: t) : u = v ∧ a = b ∧ s = t := by
  induction u generalizing v with
  | nil =>
    cases v with
    | nil =>
      obtain ⟨rfl, rfl⟩ := List.cons_eq_cons.mp h
      exact ⟨rfl, rfl, rfl⟩
    | cons d v =>
      obtain ⟨rfl, -⟩ := List.cons_eq_cons.mp h
      have hd := hv a (by simp)
      rw [ha] at hd
      cases hd
  | cons c u ih =>
    cases v with
    | nil =>
      obtain ⟨rfl, -⟩ := List.cons_eq_cons.mp h
      have hc := hu c (by simp)
      rw [hb] at hc
      cases hc
    | cons d v =>
      obtain ⟨rfl, htail⟩ := List.cons_eq_cons.mp h
      obtain ⟨rfl, rfl, rfl⟩ := ih (fun x hx => hu x (by simp [hx]))
        (fun x hx => hv x (by simp [hx])) htail
      exact ⟨rfl, rfl, rfl⟩

/-! ### White space and comments -/

variable {s t : Text}

/-- The first mark is where a comment ends. -/
lemma mark_unique {body body' : Text} (hbody : ¬ [char '*', char '/'] <:+: body)
    (hbody' : ¬ [char '*', char '/'] <:+: body')
    (h : body ++ char '*' :: char '/' :: s = body' ++ char '*' :: char '/' :: t) :
    body = body' ∧ s = t := by
  -- A mark at the front of one body would lie in the other one, or across its end.
  have hfront : ∀ {d : Byte} {u r r' : Text}, ¬ [char '*', char '/'] <:+: d :: u →
      char '*' :: char '/' :: r ≠ (d :: u) ++ char '*' :: char '/' :: r' := by
    intro d u r r' hu heq
    obtain ⟨rfl, htail⟩ := List.cons_eq_cons.mp heq
    cases u with
    | nil => exact absurd (List.cons_eq_cons.mp htail).1 (by decide)
    | cons e u =>
      obtain ⟨rfl, -⟩ := List.cons_eq_cons.mp htail
      exact hu ⟨[], u, rfl⟩
  induction body generalizing body' with
  | nil =>
    cases body' with
    | nil => exact ⟨rfl, by simpa using h⟩
    | cons d body' => exact absurd h (hfront hbody')
  | cons c body ih =>
    cases body' with
    | nil => exact absurd h.symm (hfront hbody)
    | cons d body' =>
      obtain ⟨rfl, htail⟩ := List.cons_eq_cons.mp h
      rw [List.infix_cons_iff, not_or] at hbody hbody'
      obtain ⟨rfl, rfl⟩ := ih hbody.2 hbody'.2 htail
      exact ⟨rfl, rfl⟩

lemma slash_not_blank : isBlank (char '/') = false := by decide

lemma Blank.text_unique {b b' : Blank} (hb : b.Valid) (hb' : b'.Valid)
    (h : b.text ++ s = b'.text ++ t) : b = b' ∧ s = t := by
  have hspace : ∀ {c : Byte} {r : Text}, isBlank c = true → c :: s ≠ char '/' :: r ∧
      c :: t ≠ char '/' :: r := by
    intro c r hc
    constructor
    all_goals
      intro heq
      rw [(List.cons_eq_cons.mp heq).1, slash_not_blank] at hc
      cases hc
  cases b with
  | space c =>
    cases b' with
    | space d =>
      obtain ⟨rfl, rfl⟩ := List.cons_eq_cons.mp h
      exact ⟨rfl, rfl⟩
    | line body newline => exact absurd h (hspace hb).1
    | block body => exact absurd h (hspace hb).1
  | line body newline =>
    cases b' with
    | space d => exact absurd h.symm (hspace hb').2
    | line body' newline' =>
      have hbodies : body ++ newline :: s = body' ++ newline' :: t := by
        simpa [Blank.text] using h
      obtain ⟨rfl, rfl, rfl⟩ := cut_unique hb.1 hb'.1 hb.2 hb'.2 hbodies
      exact ⟨rfl, rfl⟩
    | block body' =>
      exact absurd (List.cons_eq_cons.mp (List.cons_eq_cons.mp h).2).1 (by decide)
  | block body =>
    cases b' with
    | space d => exact absurd h.symm (hspace hb').2
    | line body' newline' =>
      exact absurd (List.cons_eq_cons.mp (List.cons_eq_cons.mp h).2).1 (by decide)
    | block body' =>
      have hbodies : body ++ char '*' :: char '/' :: s = body' ++ char '*' :: char '/' :: t := by
        simpa [Blank.text] using h
      obtain ⟨rfl, rfl⟩ := mark_unique hb hb' hbodies
      exact ⟨rfl, rfl⟩

/-- A text that begins with no blank: with a character of its own, or with a slash that begins no
comment. -/
def NoBlank (s : Text) : Prop :=
  (∃ c r, s = c :: r ∧ isBlank c = false ∧ c ≠ char '/') ∨
    ∃ c r, s = char '/' :: c :: r ∧ c ≠ char '/' ∧ c ≠ char '*'

lemma Blank.text_ne_noBlank {b : Blank} (hb : b.Valid) (ht : NoBlank t) : b.text ++ s ≠ t := by
  intro h
  rcases ht with ⟨c, r, rfl, hblank, hslash⟩ | ⟨c, r, rfl, hslash, hstar⟩
  · cases b with
    | space d =>
      obtain ⟨rfl, -⟩ := List.cons_eq_cons.mp h
      have hd : isBlank d = true := hb
      rw [hblank] at hd
      cases hd
    | line body newline => exact hslash (List.cons_eq_cons.mp h).1.symm
    | block body => exact hslash (List.cons_eq_cons.mp h).1.symm
  · cases b with
    | space d =>
      obtain ⟨rfl, -⟩ := List.cons_eq_cons.mp h
      have hd : isBlank (char '/') = true := hb
      rw [slash_not_blank] at hd
      cases hd
    | line body newline => exact hslash (List.cons_eq_cons.mp (List.cons_eq_cons.mp h).2).1.symm
    | block body => exact hstar (List.cons_eq_cons.mp (List.cons_eq_cons.mp h).2).1.symm

/-- A gap is told from what begins behind it. -/
lemma Gap.text_unique {g g' : Gap} (hg : g.Valid) (hg' : g'.Valid) {c d : Byte} (hc : Begins c)
    (hd : Begins d) (h : g.text ++ c :: s = g'.text ++ d :: t) : g = g' ∧ c = d ∧ s = t := by
  have hnoBlank : ∀ (slash : Bool) {c : Byte} (s : Text), Begins c →
      NoBlank ((if slash then [char '/'] else []) ++ c :: s) := by
    intro slash c s hc
    cases slash with
    | true => exact .inr ⟨c, s, rfl, hc.2⟩
    | false => exact .inl ⟨c, s, rfl, hc.1, hc.2.1⟩
  obtain ⟨blanks, slash⟩ := g
  obtain ⟨blanks', slash'⟩ := g'
  rw [Gap.text, Gap.text, List.append_assoc, List.append_assoc] at h
  obtain ⟨hblanks, hrest⟩ := flatMap_unique (V := Blank.Valid) (G := NoBlank)
    (fun a b s t ha hb hab => Blank.text_unique ha hb hab)
    (fun a s t ha ht => Blank.text_ne_noBlank ha ht) hg hg' (hnoBlank slash s hc)
    (hnoBlank slash' t hd) h
  obtain rfl : blanks = blanks' := hblanks
  cases slash with
  | true =>
    cases slash' with
    | true =>
      obtain ⟨-, htail⟩ := List.cons_eq_cons.mp hrest
      obtain ⟨rfl, rfl⟩ := List.cons_eq_cons.mp htail
      exact ⟨rfl, rfl, rfl⟩
    | false => exact absurd (List.cons_eq_cons.mp hrest).1.symm hd.2.1
  | false =>
    cases slash' with
    | true => exact absurd (List.cons_eq_cons.mp hrest).1 hc.2.1
    | false =>
      obtain ⟨rfl, rfl⟩ := List.cons_eq_cons.mp hrest
      exact ⟨rfl, rfl, rfl⟩

/-- No blank is the front of an ending. -/
lemma Blank.text_ne_ending {b : Blank} (hb : b.Valid) {e : Ending} (he : e.Valid) :
    b.text ++ s ≠ e.text := by
  intro h
  cases b with
  | space c =>
    have hc : isBlank c = true := hb
    have hfirst : c ≠ char '/' := by
      rintro rfl
      rw [slash_not_blank] at hc
      cases hc
    cases e with
    | plain => simp [Blank.text, Ending.text] at h
    | _ => exact hfirst (List.cons_eq_cons.mp h).1
  | line body newline =>
    cases e with
    | plain => simp [Blank.text, Ending.text] at h
    | slash => simp [Blank.text, Ending.text] at h
    | line body' =>
      obtain rfl : body ++ (newline :: s) = body' := by simpa [Blank.text, Ending.text] using h
      have hnot := he newline (by simp)
      rw [hb.2] at hnot
      cases hnot
    | block body' => exact absurd (List.cons_eq_cons.mp (List.cons_eq_cons.mp h).2).1 (by decide)
  | block body =>
    cases e with
    | plain => simp [Blank.text, Ending.text] at h
    | slash => simp [Blank.text, Ending.text] at h
    | line body' => exact absurd (List.cons_eq_cons.mp (List.cons_eq_cons.mp h).2).1 (by decide)
    | block body' =>
      obtain rfl : body ++ (char '*' :: char '/' :: s) = body' := by
        simpa [Blank.text, Ending.text] using h
      exact he ⟨body, s, by simp⟩

lemma Ending.text_unique {e e' : Ending} (h : e.text = e'.text) : e = e' := by
  have hslash : char '/' ≠ char '*' := by decide
  cases e <;> cases e' <;> simp_all [Ending.text]

lemma tail_unique {bs bs' : List Blank} (hbs : ∀ b ∈ bs, b.Valid) (hbs' : ∀ b ∈ bs', b.Valid)
    {e e' : Ending} (he : e.Valid) (he' : e'.Valid)
    (h : bs.flatMap Blank.text ++ e.text = bs'.flatMap Blank.text ++ e'.text) :
    bs = bs' ∧ e = e' := by
  obtain ⟨hblanks, hending⟩ := flatMap_unique (V := Blank.Valid)
    (G := fun t => ∃ e : Ending, e.Valid ∧ t = e.text)
    (fun a b s t ha hb hab => Blank.text_unique ha hb hab)
    (fun a s t ha ⟨e, he, ht⟩ => by rw [ht]; exact Blank.text_ne_ending ha he) hbs hbs'
    ⟨e, he, rfl⟩ ⟨e', he', rfl⟩ h
  exact ⟨hblanks, Ending.text_unique hending⟩

/-! ### Strings -/

lemma simpleEscape_x_u : simpleEscape (char 'x') = none ∧ simpleEscape (char 'u') = none := by
  decide

/-- The first byte of a plain character that is neither quote nor backslash is neither. -/
lemma plain_head {c : ℕ} (hc : (Piece.plain c).Valid) {x : Byte}
    (hx : x = char '"' ∨ x = char '\\') :
    IcuUtf.append c ++ s ≠ x :: t := by
  intro h
  obtain ⟨hcharacter, hquote, hslash⟩ := hc
  obtain ⟨lead, trail, happend, hnext⟩ :=
    IcuUtf.next_append (IcuUtf.isValidCodepoint_of_character hcharacter)
  rw [happend] at h
  obtain ⟨rfl, -⟩ := List.cons_eq_cons.mp h
  rcases hx with rfl | rfl
  · have hfirst : IcuUtf.next (char '"') (trail ++ []) = (some (char '"').toNat, 0) := rfl
    rw [hnext] at hfirst
    exact hquote (Option.some.inj (Prod.mk.inj hfirst).1)
  · have hfirst : IcuUtf.next (char '\\') (trail ++ []) = (some (char '\\').toNat, 0) := rfl
    rw [hnext] at hfirst
    exact hslash (Option.some.inj (Prod.mk.inj hfirst).1)

lemma plain_unique {c c' : ℕ} (hc : (Piece.plain c).Valid) (hc' : (Piece.plain c').Valid)
    (h : IcuUtf.append c ++ s = IcuUtf.append c' ++ t) : c = c' ∧ s = t := by
  obtain ⟨lead, trail, happend, hnext⟩ :=
    IcuUtf.next_append (IcuUtf.isValidCodepoint_of_character hc.1)
  obtain ⟨lead', trail', happend', hnext'⟩ :=
    IcuUtf.next_append (IcuUtf.isValidCodepoint_of_character hc'.1)
  have hcons := h
  rw [happend, happend'] at hcons
  obtain ⟨rfl, htail⟩ := List.cons_eq_cons.mp hcons
  have hread := hnext s
  rw [show trail ++ s = trail' ++ t from htail, hnext' t] at hread
  obtain rfl : c' = c := Option.some.inj (Prod.mk.inj hread).1
  exact ⟨rfl, List.append_cancel_left h⟩

/-- A part of a string begins with a backslash, if it is not one character. -/
lemma Piece.text_escape (p : Piece) (hplain : ∀ c, p ≠ .plain c) :
    ∃ letter r, p.text = char '\\' :: letter :: r := by
  cases p with
  | plain c => exact absurd rfl (hplain c)
  | _ => exact ⟨_, _, rfl⟩

lemma Piece.text_unique {p p' : Piece} (hp : p.Valid) (hp' : p'.Valid)
    (h : p.text ++ s = p'.text ++ t) : p = p' ∧ s = t := by
  have hletter : char 'x' ≠ char 'u' := by decide
  have hescape : ∀ {letter : Byte}, (Piece.escape letter).Valid → letter ≠ char 'x' ∧
      letter ≠ char 'u' := by
    intro letter hvalid
    constructor
    · rintro rfl
      rw [Piece.Valid, simpleEscape_x_u.1] at hvalid
      cases hvalid
    · rintro rfl
      rw [Piece.Valid, simpleEscape_x_u.2] at hvalid
      cases hvalid
  cases p with
  | plain c =>
    cases p' with
    | plain c' =>
      obtain ⟨rfl, rfl⟩ := plain_unique hp hp' h
      exact ⟨rfl, rfl⟩
    | _ => exact absurd h (plain_head hp (.inr rfl))
  | escape letter =>
    cases p' with
    | plain c' => exact absurd h.symm (plain_head hp' (.inr rfl))
    | escape letter' =>
      obtain ⟨rfl, rfl⟩ : letter = letter' ∧ s = t := by simpa [Piece.text] using h
      exact ⟨rfl, rfl⟩
    | byte digits =>
      exact absurd (List.cons_eq_cons.mp (List.cons_eq_cons.mp h).2).1 (hescape hp).1
    | unit digits =>
      exact absurd (List.cons_eq_cons.mp (List.cons_eq_cons.mp h).2).1 (hescape hp).2
    | pair high low =>
      exact absurd (List.cons_eq_cons.mp (List.cons_eq_cons.mp h).2).1 (hescape hp).2
  | byte digits =>
    cases p' with
    | plain c' => exact absurd h.symm (plain_head hp' (.inr rfl))
    | escape letter' =>
      exact absurd (List.cons_eq_cons.mp (List.cons_eq_cons.mp h).2).1.symm (hescape hp').1
    | byte digits' =>
      have hdigits : digits ++ s = digits' ++ t := by simpa [Piece.text] using h
      obtain ⟨rfl, rfl⟩ := List.append_inj hdigits (hp.1.trans hp'.1.symm)
      exact ⟨rfl, rfl⟩
    | unit digits' =>
      exact absurd (List.cons_eq_cons.mp (List.cons_eq_cons.mp h).2).1 hletter
    | pair high low =>
      exact absurd (List.cons_eq_cons.mp (List.cons_eq_cons.mp h).2).1 hletter
  | unit digits =>
    cases p' with
    | plain c' => exact absurd h.symm (plain_head hp' (.inr rfl))
    | escape letter' =>
      exact absurd (List.cons_eq_cons.mp (List.cons_eq_cons.mp h).2).1.symm (hescape hp').2
    | byte digits' =>
      exact absurd (List.cons_eq_cons.mp (List.cons_eq_cons.mp h).2).1.symm hletter
    | unit digits' =>
      have hdigits : digits ++ s = digits' ++ t := by simpa [Piece.text] using h
      obtain ⟨rfl, rfl⟩ := List.append_inj hdigits (hp.1.trans hp'.1.symm)
      exact ⟨rfl, rfl⟩
    | pair high low =>
      have hdigits : digits ++ s = high ++ (char '\\' :: char 'u' :: (low ++ t)) := by
        simpa [Piece.text] using h
      obtain ⟨rfl, -⟩ := List.append_inj hdigits (hp.1.trans hp'.1.symm)
      obtain ⟨-, n, hn, hsingle⟩ := hp
      obtain ⟨-, -, ⟨m, hm, hsurrogate, -⟩, -⟩ := hp'
      obtain rfl : n = m := by simpa [hn] using hm
      rw [hsingle] at hsurrogate
      cases hsurrogate
  | pair high low =>
    cases p' with
    | plain c' => exact absurd h.symm (plain_head hp' (.inr rfl))
    | escape letter' =>
      exact absurd (List.cons_eq_cons.mp (List.cons_eq_cons.mp h).2).1.symm (hescape hp').2
    | byte digits' =>
      exact absurd (List.cons_eq_cons.mp (List.cons_eq_cons.mp h).2).1.symm hletter
    | unit digits' =>
      have hdigits : high ++ (char '\\' :: char 'u' :: (low ++ s)) = digits' ++ t := by
        simpa [Piece.text] using h
      obtain ⟨rfl, -⟩ := List.append_inj hdigits (hp.1.trans hp'.1.symm)
      obtain ⟨-, n, hn, hsingle⟩ := hp'
      obtain ⟨-, -, ⟨m, hm, hsurrogate, -⟩, -⟩ := hp
      obtain rfl : n = m := by simpa [hn] using hm
      rw [hsingle] at hsurrogate
      cases hsurrogate
    | pair high' low' =>
      have hdigits : high ++ (char '\\' :: char 'u' :: (low ++ s)) =
          high' ++ (char '\\' :: char 'u' :: (low' ++ t)) := by
        simpa [Piece.text] using h
      obtain ⟨rfl, htail⟩ := List.append_inj hdigits (hp.1.trans hp'.1.symm)
      have hlow : low ++ s = low' ++ t := by simpa using htail
      obtain ⟨rfl, rfl⟩ := List.append_inj hlow (hp.2.1.trans hp'.2.1.symm)
      exact ⟨rfl, rfl⟩

/-- What stands behind the parts of a string: the quote, or nothing at all. -/
def EndsPieces (t : Text) : Prop := t = [] ∨ ∃ r, t = char '"' :: r

lemma pieces_unique {pieces pieces' : List Piece} (hp : ∀ x ∈ pieces, x.Valid)
    (hp' : ∀ x ∈ pieces', x.Valid) (hs : EndsPieces s) (ht : EndsPieces t)
    (h : pieces.flatMap Piece.text ++ s = pieces'.flatMap Piece.text ++ t) :
    pieces = pieces' ∧ s = t := by
  refine flatMap_unique (V := Piece.Valid) (G := EndsPieces)
    (fun a b s t ha hb hab => Piece.text_unique ha hb hab) ?_ hp hp' hs ht h
  intro p s t hvalid ht heq
  by_cases hplain : ∃ c, p = .plain c
  · obtain ⟨c, rfl⟩ := hplain
    rcases ht with rfl | ⟨r, rfl⟩
    · have hpos := IcuUtf.length_append_pos c
      have hlength := congrArg List.length heq
      simp only [Piece.text, List.length_append, List.length_nil] at hlength
      omega
    · exact plain_head hvalid (.inl rfl) heq
  · obtain ⟨letter, r, htext⟩ := p.text_escape (fun c hc => hplain ⟨c, hc⟩)
    rw [htext] at heq
    rcases ht with rfl | ⟨r', rfl⟩
    · simp at heq
    · exact absurd (List.cons_eq_cons.mp heq).1 (by decide)

lemma stringText_unique {pieces pieces' : List Piece} (hp : ∀ x ∈ pieces, x.Valid)
    (hp' : ∀ x ∈ pieces', x.Valid) (h : stringText pieces ++ s = stringText pieces' ++ t) :
    pieces = pieces' ∧ s = t := by
  have hpieces : pieces.flatMap Piece.text ++ char '"' :: s =
      pieces'.flatMap Piece.text ++ char '"' :: t := by
    simpa [stringText] using h
  obtain ⟨rfl, hrest⟩ := pieces_unique hp hp' (.inr ⟨s, rfl⟩) (.inr ⟨t, rfl⟩) hpieces
  exact ⟨rfl, (List.cons_eq_cons.mp hrest).2⟩

/-! ### Numbers -/

lemma digits_unique {ds ds' : Text} (hds : ∀ c ∈ ds, isAsciiDigit c = true)
    (hds' : ∀ c ∈ ds', isAsciiDigit c = true) (hs : ∀ c ∈ s.head?, isAsciiDigit c = false)
    (ht : ∀ c ∈ t.head?, isAsciiDigit c = false) (h : ds ++ s = ds' ++ t) : ds = ds' ∧ s = t := by
  have htake := congrArg (List.takeWhile isAsciiDigit) h
  rw [takeWhile_digits hds hs, takeWhile_digits hds' ht] at htake
  subst htake
  exact ⟨rfl, List.append_cancel_left h⟩

/-- A sign is no digit. -/
lemma digits_ne_sign {ds : Text} (hds : Number.Digits ds) {sign : Byte}
    (hsign : sign = char '-' ∨ sign = char '+') : ds ++ s ≠ sign :: t := by
  intro h
  obtain ⟨c, r, rfl⟩ := List.exists_cons_of_ne_nil hds.1
  have hne := digit_ne (hds.2 c (by simp))
  obtain ⟨rfl, -⟩ := List.cons_eq_cons.mp h
  rcases hsign with rfl | rfl
  · exact hne.1 rfl
  · exact hne.2.1 rfl

variable {memory : ℕ → Byte}

lemma sign_unique {sign sign' : Option Byte} {ds ds' : Text}
    (hsign : ∀ x ∈ sign, x = char '-' ∨ x = char '+')
    (hsign' : ∀ x ∈ sign', x = char '-' ∨ x = char '+') (hds : Number.Digits ds)
    (hds' : Number.Digits ds') (h : sign.toList ++ (ds ++ s) = sign'.toList ++ (ds' ++ t)) :
    sign = sign' ∧ ds ++ s = ds' ++ t := by
  cases sign with
  | none =>
    cases sign' with
    | none => exact ⟨rfl, h⟩
    | some x => exact absurd h (digits_ne_sign hds (hsign' x rfl))
  | some x =>
    cases sign' with
    | none => exact absurd h.symm (digits_ne_sign hds' (hsign x rfl))
    | some y =>
      obtain ⟨rfl, htail⟩ := List.cons_eq_cons.mp h
      exact ⟨rfl, htail⟩

/-- The parts of a number that are there are told by what they begin with. -/
lemma exponent_unique {n n' : Number} (hn : n.Valid) (hn' : n'.Valid) (hs : Follows memory n s)
    (ht : Follows memory n' t)
    (h : Number.exponentText n.exponent ++ s = Number.exponentText n'.exponent ++ t) :
    n.exponent = n'.exponent ∧ s = t := by
  have hno : ∀ {n n' : Number} {s t : Text}, n'.Valid → Follows memory n s →
      n.exponent = none → ∀ e, n'.exponent = some e →
      s ≠ Number.exponentText (some e) ++ t := by
    intro n n' s t hn' hs hnone e hsome heq
    obtain ⟨mark, sign, digits⟩ := e
    have hmark := hs.not_mark hnone
    rw [heq] at hmark
    rcases (hn'.exponent_digits _ hsome).1 with hfirst | hfirst
    · exact hmark.1 hfirst
    · exact hmark.2 hfirst
  cases hexp : n.exponent with
  | none =>
    rw [hexp] at h
    cases hexp' : n'.exponent with
    | none =>
      rw [hexp'] at h
      exact ⟨rfl, h⟩
    | some e =>
      rw [hexp'] at h
      exact absurd h (hno hn' hs hexp e hexp')
  | some e =>
    rw [hexp] at h
    cases hexp' : n'.exponent with
    | none =>
      rw [hexp'] at h
      exact absurd h.symm (hno hn ht hexp' e hexp)
    | some e' =>
      rw [hexp'] at h
      obtain ⟨mark, sign, ds⟩ := e
      obtain ⟨mark', sign', ds'⟩ := e'
      obtain ⟨-, hsign, hds⟩ := hn.exponent_digits _ hexp
      obtain ⟨-, hsign', hds'⟩ := hn'.exponent_digits _ hexp'
      simp only [Number.exponentText, List.cons_append, List.append_assoc] at h
      obtain ⟨rfl, htail⟩ := List.cons_eq_cons.mp h
      obtain ⟨rfl, hdigits⟩ := sign_unique hsign hsign' hds hds' htail
      obtain ⟨rfl, rfl⟩ := digits_unique hds.2 hds'.2 hs.not_digit ht.not_digit hdigits
      exact ⟨rfl, rfl⟩

lemma fraction_unique {fraction fraction' : Option Text}
    (hfraction : ∀ ds ∈ fraction, Number.Digits ds)
    (hfraction' : ∀ ds ∈ fraction', Number.Digits ds)
    (hs : ∀ c ∈ s.head?, isAsciiDigit c = false) (ht : ∀ c ∈ t.head?, isAsciiDigit c = false)
    (hdot : fraction = none → s.headD (memory 0) ≠ char '.')
    (hdot' : fraction' = none → t.headD (memory 0) ≠ char '.')
    (h : Number.fractionText fraction ++ s = Number.fractionText fraction' ++ t) :
    fraction = fraction' ∧ s = t := by
  cases fraction with
  | none =>
    cases fraction' with
    | none => exact ⟨rfl, h⟩
    | some ds =>
      refine absurd ?_ (hdot rfl)
      rw [show s = Number.fractionText (some ds) ++ t from h]
      rfl
  | some ds =>
    cases fraction' with
    | none =>
      refine absurd ?_ (hdot' rfl)
      rw [show t = Number.fractionText (some ds) ++ s from h.symm]
      rfl
    | some ds' =>
      obtain ⟨-, htail⟩ := List.cons_eq_cons.mp h
      obtain ⟨rfl, rfl⟩ := digits_unique (hfraction ds rfl).2 (hfraction' ds' rfl).2 hs ht htail
      exact ⟨rfl, rfl⟩

lemma Number.text_unique {n n' : Number} (hn : n.Valid) (hn' : n'.Valid) (hs : Follows memory n s)
    (ht : Follows memory n' t) (h : n.text ++ s = n'.text ++ t) : n = n' ∧ s = t := by
  have hexponent := hs.exponent memory (fun e he => (hn.exponent_digits e he).1)
  have hexponent' := ht.exponent memory (fun e he => (hn'.exponent_digits e he).1)
  simp only [Number.text, List.append_assoc] at h
  obtain ⟨hminus, htail⟩ : n.minus = n'.minus ∧
      n.int ++ (fractionText n.fraction ++ (exponentText n.exponent ++ s)) =
        n'.int ++ (fractionText n'.fraction ++ (exponentText n'.exponent ++ t)) := by
    cases hm : n.minus <;> cases hm' : n'.minus
    all_goals
      rw [hm, hm'] at h
    · exact ⟨rfl, h⟩
    · exact absurd h (digits_ne_sign hn.int_digits (.inl rfl))
    · exact absurd h.symm (digits_ne_sign hn'.int_digits (.inl rfl))
    · exact ⟨rfl, (List.cons_eq_cons.mp h).2⟩
  obtain ⟨hint, hrest⟩ := digits_unique hn.int_digits.2 hn'.int_digits.2
    (head_fraction n.fraction hexponent.1) (head_fraction n'.fraction hexponent'.1) htail
  obtain ⟨hfraction, hlast⟩ := fraction_unique hn.fraction_digits hn'.fraction_digits hexponent.1
    hexponent'.1 hexponent.2 hexponent'.2 hrest
  obtain ⟨hexp, rfl⟩ := exponent_unique hn hn' hs ht hlast
  obtain ⟨minus, int, fraction, exponent⟩ := n
  obtain ⟨minus', int', fraction', exponent'⟩ := n'
  obtain rfl : minus = minus' := hminus
  obtain rfl : int = int' := hint
  obtain rfl : fraction = fraction' := hfraction
  obtain rfl : exponent = exponent' := hexp
  exact ⟨rfl, rfl⟩

/-! ### Values -/

lemma Starts.token_unique {token token' : Token} (hs : Starts token s) (ht : Starts token' t)
    (h : s = t) : token = token' := by
  obtain ⟨c, r, rfl, -, rfl⟩ := hs
  obtain ⟨c', r', rfl, -, rfl⟩ := ht
  rw [(List.cons_eq_cons.mp h).1]

/-- A gap in front of a token. -/
lemma Gap.text_unique_starts {g g' : Gap} (hg : g.Valid) (hg' : g'.Valid) {token token' : Token}
    (hs : Starts token s) (ht : Starts token' t) (h : g.text ++ s = g'.text ++ t) :
    g = g' ∧ s = t := by
  obtain ⟨c, r, rfl, hc, -⟩ := hs
  obtain ⟨c', r', rfl, hc', -⟩ := ht
  obtain ⟨rfl, rfl, rfl⟩ := Gap.text_unique hg hg' hc hc' h
  exact ⟨rfl, rfl⟩

variable {options : Options}

mutual

theorem Tree.text_unique (memory : ℕ → Byte) {u u' : Tree} (hu : u.Valid options)
    (hu' : u'.Valid options)
    {s t : Text} (hs : ∀ n, u = .number n → Follows memory n s)
    (ht : ∀ n, u' = .number n → Follows memory n t) (h : u.text ++ s = u'.text ++ t) :
    u = u' ∧ s = t := by
  have htoken := ((Tree.starts hu).append s).token_unique ((Tree.starts hu').append t) h
  match u with
  | .null =>
    cases u' with
    | null => exact ⟨rfl, List.append_cancel_left h⟩
    | boolean b => cases b <;> simp [Tree.token] at htoken
    | _ => simp [Tree.token] at htoken
  | .boolean b =>
    cases u' with
    | boolean b' =>
      obtain rfl : b = b' := by
        cases b <;> cases b' <;> simp_all [Tree.token]
      exact ⟨rfl, List.append_cancel_left h⟩
    | _ => cases b <;> simp [Tree.token] at htoken
  | .number n =>
    cases u' with
    | number n' =>
      obtain ⟨rfl, rfl⟩ := Number.text_unique hu hu' (hs n rfl) (ht n' rfl) h
      exact ⟨rfl, rfl⟩
    | boolean b => cases b <;> simp [Tree.token] at htoken
    | _ => simp [Tree.token] at htoken
  | .string pieces =>
    cases u' with
    | string pieces' =>
      obtain ⟨rfl, rfl⟩ := stringText_unique hu hu' h
      exact ⟨rfl, rfl⟩
    | boolean b => cases b <;> simp [Tree.token] at htoken
    | _ => simp [Tree.token] at htoken
  | .list gap items =>
    cases u' with
    | list gap' items' =>
      have hinner : gap.text ++ (items.text ++ char ']' :: s) =
          gap'.text ++ (items'.text ++ char ']' :: t) := by
        simpa [Tree.text] using h
      obtain ⟨rfl, hitems⟩ := Gap.text_unique_starts hu.1 hu'.1 (Items.starts hu.2 s)
        (Items.starts hu'.2 t) hinner
      obtain ⟨rfl, rfl⟩ := Items.text_unique memory hu.2 hu'.2 hitems
      exact ⟨rfl, rfl⟩
    | boolean b => cases b <;> simp [Tree.token] at htoken
    | _ => simp [Tree.token] at htoken
  | .dictionary gap members =>
    cases u' with
    | dictionary gap' members' =>
      have hinner : gap.text ++ (members.text ++ char '\x7d' :: s) =
          gap'.text ++ (members'.text ++ char '\x7d' :: t) := by
        simpa [Tree.text] using h
      obtain ⟨rfl, hmembers⟩ := Gap.text_unique_starts hu.1 hu'.1 (members.starts s)
        (members'.starts t) hinner
      obtain ⟨rfl, rfl⟩ := Members.text_unique memory hu.2 hu'.2 hmembers
      exact ⟨rfl, rfl⟩
    | boolean b => cases b <;> simp [Tree.token] at htoken
    | _ => simp [Tree.token] at htoken

theorem Items.text_unique (memory : ℕ → Byte) {items items' : Items} (h : items.Valid options)
    (h' : items'.Valid options) {s t : Text}
    (htext : items.text ++ char ']' :: s = items'.text ++ char ']' :: t) :
    items = items' ∧ s = t := by
  have htoken := (Items.starts h s).token_unique (Items.starts h' t) htext
  match items with
  | .nil =>
    cases items' with
    | nil => exact ⟨rfl, (List.cons_eq_cons.mp htext).2⟩
    | last item' gap' => exact absurd htoken.symm item'.token_ne.1
    | cons item' gap' gap₁' items' => exact absurd htoken.symm item'.token_ne.1
  | .last item gap =>
    rw [Items.text, List.append_assoc] at htext
    have hitem : ∀ n, item = .number n → Follows memory n (gap.text ++ char ']' :: s) :=
      fun n _ => (behind_gap memory h.2 (.inr (.inl rfl)) n).follows
    cases items' with
    | nil => exact absurd htoken item.token_ne.1
    | last item' gap' =>
      rw [Items.text, List.append_assoc] at htext
      obtain ⟨rfl, hrest⟩ := Tree.text_unique memory h.1 h'.1 hitem
        (fun n _ => (behind_gap memory h'.2 (.inr (.inl rfl)) n).follows) htext
      obtain ⟨rfl, -, rfl⟩ := Gap.text_unique h.2 h'.2 begins_bracket.1 begins_bracket.1 hrest
      exact ⟨rfl, rfl⟩
    | cons item' gap' gap₁' items' =>
      simp only [Items.text, List.append_assoc, List.cons_append] at htext
      obtain ⟨rfl, hrest⟩ := Tree.text_unique memory h.1 h'.1 hitem
        (fun n _ => (behind_gap memory h'.2.1 (.inl rfl) n).follows) htext
      obtain ⟨-, hne, -⟩ := Gap.text_unique h.2 h'.2.1 begins_bracket.1 begins_comma.1 hrest
      exact absurd hne (by decide)
  | .cons item gap gap₁ items =>
    simp only [Items.text, List.append_assoc, List.cons_append] at htext
    have hitem : ∀ n, item = .number n → Follows memory n
        (gap.text ++ char ',' :: (gap₁.text ++ (items.text ++ char ']' :: s))) :=
      fun n _ => (behind_gap memory h.2.1 (.inl rfl) n).follows
    cases items' with
    | nil => exact absurd htoken item.token_ne.1
    | last item' gap' =>
      rw [Items.text, List.append_assoc] at htext
      obtain ⟨rfl, hrest⟩ := Tree.text_unique memory h.1 h'.1 hitem
        (fun n _ => (behind_gap memory h'.2 (.inr (.inl rfl)) n).follows) htext
      obtain ⟨-, hne, -⟩ := Gap.text_unique h.2.1 h'.2 begins_comma.1 begins_bracket.1 hrest
      exact absurd hne (by decide)
    | cons item' gap' gap₁' items' =>
      simp only [Items.text, List.append_assoc, List.cons_append] at htext
      obtain ⟨rfl, hrest⟩ := Tree.text_unique memory h.1 h'.1 hitem
        (fun n _ => (behind_gap memory h'.2.1 (.inl rfl) n).follows) htext
      obtain ⟨rfl, -, htail⟩ := Gap.text_unique h.2.1 h'.2.1 begins_comma.1 begins_comma.1 hrest
      obtain ⟨rfl, hitems⟩ := Gap.text_unique_starts h.2.2.1 h'.2.2.1
        (Items.starts h.2.2.2.1 s) (Items.starts h'.2.2.2.1 t) htail
      obtain ⟨rfl, rfl⟩ := Items.text_unique memory h.2.2.2.1 h'.2.2.2.1 hitems
      exact ⟨rfl, rfl⟩

theorem Members.text_unique (memory : ℕ → Byte) {members members' : Members}
    (h : members.Valid options)
    (h' : members'.Valid options) {s t : Text}
    (htext : members.text ++ char '\x7d' :: s = members'.text ++ char '\x7d' :: t) :
    members = members' ∧ s = t := by
  have htoken := (members.starts s).token_unique (members'.starts t) htext
  match members with
  | .nil =>
    cases members' with
    | nil => exact ⟨rfl, (List.cons_eq_cons.mp htext).2⟩
    | _ => simp [Members.token] at htoken
  | .last key gap gap₁ value gap₂ =>
    obtain ⟨hkey, hg, hg₁, hvalue, hg₂⟩ := h
    simp only [Members.text, List.append_assoc, List.cons_append] at htext
    cases members' with
    | nil => simp [Members.token] at htoken
    | last key' gap' gap₁' value' gap₂' =>
      obtain ⟨hkey', hg', hg₁', hvalue', hg₂'⟩ := h'
      simp only [Members.text, List.append_assoc, List.cons_append] at htext
      obtain ⟨rfl, hcolon⟩ := stringText_unique hkey hkey' htext
      obtain ⟨rfl, -, hbehind⟩ := Gap.text_unique hg hg' begins_colon.1 begins_colon.1 hcolon
      obtain ⟨rfl, hvalues⟩ := Gap.text_unique_starts hg₁ hg₁' ((Tree.starts hvalue).append _)
        ((Tree.starts hvalue').append _) hbehind
      obtain ⟨rfl, hrest⟩ := Tree.text_unique memory hvalue hvalue'
        (fun n _ => (behind_gap memory hg₂ (.inr (.inr rfl)) n).follows)
        (fun n _ => (behind_gap memory hg₂' (.inr (.inr rfl)) n).follows) hvalues
      obtain ⟨rfl, -, rfl⟩ := Gap.text_unique hg₂ hg₂' begins_brace.1 begins_brace.1 hrest
      exact ⟨rfl, rfl⟩
    | cons key' gap' gap₁' value' gap₂' gap₃' members' =>
      obtain ⟨hkey', hg', hg₁', hvalue', hg₂', -⟩ := h'
      simp only [Members.text, List.append_assoc, List.cons_append] at htext
      obtain ⟨rfl, hcolon⟩ := stringText_unique hkey hkey' htext
      obtain ⟨rfl, -, hbehind⟩ := Gap.text_unique hg hg' begins_colon.1 begins_colon.1 hcolon
      obtain ⟨rfl, hvalues⟩ := Gap.text_unique_starts hg₁ hg₁' ((Tree.starts hvalue).append _)
        ((Tree.starts hvalue').append _) hbehind
      obtain ⟨rfl, hrest⟩ := Tree.text_unique memory hvalue hvalue'
        (fun n _ => (behind_gap memory hg₂ (.inr (.inr rfl)) n).follows)
        (fun n _ => (behind_gap memory hg₂' (.inl rfl) n).follows) hvalues
      obtain ⟨-, hne, -⟩ := Gap.text_unique hg₂ hg₂' begins_brace.1 begins_comma.1 hrest
      exact absurd hne (by decide)
  | .cons key gap gap₁ value gap₂ gap₃ members =>
    obtain ⟨hkey, hg, hg₁, hvalue, hg₂, hg₃, hmembers, -⟩ := h
    simp only [Members.text, List.append_assoc, List.cons_append] at htext
    cases members' with
    | nil => simp [Members.token] at htoken
    | last key' gap' gap₁' value' gap₂' =>
      obtain ⟨hkey', hg', hg₁', hvalue', hg₂'⟩ := h'
      simp only [Members.text, List.append_assoc, List.cons_append] at htext
      obtain ⟨rfl, hcolon⟩ := stringText_unique hkey hkey' htext
      obtain ⟨rfl, -, hbehind⟩ := Gap.text_unique hg hg' begins_colon.1 begins_colon.1 hcolon
      obtain ⟨rfl, hvalues⟩ := Gap.text_unique_starts hg₁ hg₁' ((Tree.starts hvalue).append _)
        ((Tree.starts hvalue').append _) hbehind
      obtain ⟨rfl, hrest⟩ := Tree.text_unique memory hvalue hvalue'
        (fun n _ => (behind_gap memory hg₂ (.inl rfl) n).follows)
        (fun n _ => (behind_gap memory hg₂' (.inr (.inr rfl)) n).follows) hvalues
      obtain ⟨-, hne, -⟩ := Gap.text_unique hg₂ hg₂' begins_comma.1 begins_brace.1 hrest
      exact absurd hne (by decide)
    | cons key' gap' gap₁' value' gap₂' gap₃' members' =>
      obtain ⟨hkey', hg', hg₁', hvalue', hg₂', hg₃', hmembers', -⟩ := h'
      simp only [Members.text, List.append_assoc, List.cons_append] at htext
      obtain ⟨rfl, hcolon⟩ := stringText_unique hkey hkey' htext
      obtain ⟨rfl, -, hbehind⟩ := Gap.text_unique hg hg' begins_colon.1 begins_colon.1 hcolon
      obtain ⟨rfl, hvalues⟩ := Gap.text_unique_starts hg₁ hg₁' ((Tree.starts hvalue).append _)
        ((Tree.starts hvalue').append _) hbehind
      obtain ⟨rfl, hrest⟩ := Tree.text_unique memory hvalue hvalue'
        (fun n _ => (behind_gap memory hg₂ (.inl rfl) n).follows)
        (fun n _ => (behind_gap memory hg₂' (.inl rfl) n).follows) hvalues
      obtain ⟨rfl, -, htail⟩ := Gap.text_unique hg₂ hg₂' begins_comma.1 begins_comma.1 hrest
      obtain ⟨rfl, hlast⟩ := Gap.text_unique_starts hg₃ hg₃' (members.starts s)
        (members'.starts t) htail
      obtain ⟨rfl, rfl⟩ := Members.text_unique memory hmembers hmembers' hlast
      exact ⟨rfl, rfl⟩

end

/-! ### The whole input -/

/-- A text that does not look like a byte order mark, with the mark or without it. -/
lemma skip_mark_unique {mark mark' : Bool} (hs : ∃ c r, s = c :: r ∧ c ≠ 0xEF)
    (ht : ∃ c r, t = c :: r ∧ c ≠ 0xEF)
    (h : (if mark then byteOrderMark else []) ++ s = (if mark' then byteOrderMark else []) ++ t) :
    mark = mark' ∧ s = t := by
  obtain ⟨c, r, rfl, hc⟩ := hs
  obtain ⟨c', r', rfl, hc'⟩ := ht
  cases mark with
  | true =>
    cases mark' with
    | true => exact ⟨rfl, List.append_cancel_left h⟩
    | false => exact absurd (List.cons_eq_cons.mp h).1.symm hc'
  | false =>
    cases mark' with
    | true => exact absurd (List.cons_eq_cons.mp h).1 hc
    | false => exact ⟨rfl, h⟩

/-- A null character behind the input goes on with no number. -/
lemma Document.clear_zero (d : Document) : d.Clear fun _ => 0 := by
  intro n _ _
  exact ⟨by simp, fun _ _ => by decide, fun _ => by decide⟩

/-- A text is the text of one document at most. -/
theorem Document.text_unique {d d' : Document} (hd : d.Valid options) (hd' : d'.Valid options)
    (h : d.text = d'.text) : d = d' := by
  have hstarts := (Tree.starts hd.tree).append d.tail
  have hstarts' := (Tree.starts hd'.tree).append d'.tail
  obtain ⟨hmark, hbody⟩ := skip_mark_unique (hstarts.head_ne hd.gap d.tree.token_ne_invalid.1)
    (hstarts'.head_ne hd'.gap d'.tree.token_ne_invalid.1) h
  obtain ⟨hgap, hvalue⟩ := Gap.text_unique_starts hd.gap hd'.gap hstarts hstarts' hbody
  obtain ⟨htree, htail⟩ := Tree.text_unique (fun _ => 0) hd.tree hd'.tree
    (fun n hn => (Document.behind hd d.clear_zero hn).follows)
    (fun n hn => (Document.behind hd' d'.clear_zero hn).follows) hvalue
  obtain ⟨hblanks, hending⟩ := tail_unique hd.blanks hd'.blanks hd.ending hd'.ending htail
  obtain ⟨mark, gap, tree, blanks, ending⟩ := d
  obtain ⟨mark', gap', tree', blanks', ending'⟩ := d'
  obtain rfl : mark = mark' := hmark
  obtain rfl : gap = gap' := hgap
  obtain rfl : tree = tree' := htree
  obtain rfl : blanks = blanks' := hblanks
  obtain rfl : ending = ending' := hending
  rfl

end Chromium.Json
