import Chromium.UrlUnescape

/-!
# Escaping for URLs and for HTML

Unescaping with all rules undoes what a charmap escaped when it escapes the percent sign, and the
plus sign when it is read as a space. The five entities for HTML are read back without a condition.
-/
namespace Chromium.Escape

/-! ### Charmaps -/

def intToHex (i : BitVec 8) : BitVec 8 := char 8 ("0123456789ABCDEF".toList.getD i.toNat '0')

structure Charmap where
  map : List (BitVec 32)

def Charmap.contains (charmap : Charmap) (c : BitVec 8) : Bool :=
  charmap.map.getD (c >>> 5).toNat 0 &&& (1#32 <<< (c &&& 31).toNat) ≠ 0

def escape (text : List (BitVec 8)) (charmap : Charmap) (usePlus : Bool) : List (BitVec 8) :=
  text.flatMap fun c =>
    if usePlus ∧ c = char 8 ' ' then [char 8 '+']
    else if charmap.contains c then [char 8 '%', intToHex (c >>> 4), intToHex (c &&& 0xf)]
    else [c]

/-- Everything except alphanumerics and `!'()*-._~`. -/
def kQueryCharmap : Charmap := ⟨[
  0xffffffff, 0xfc00987d, 0x78000001, 0xb8000001,
  0xffffffff, 0xffffffff, 0xffffffff, 0xffffffff]⟩

/-- Non-printable, non-7bit, and (including space) "#%:<>?[\]^`{|}. -/
def kPathCharmap : Charmap := ⟨[
  0xffffffff, 0xd400002d, 0x78000000, 0xb8000001,
  0xffffffff, 0xffffffff, 0xffffffff, 0xffffffff]⟩

/-- Non-printable, non-7bit, and (including space) ?>=<;+'&%$#"![\]^`{|}. -/
def kUrlEscape : Charmap := ⟨[
  0xffffffff, 0xf80008fd, 0x78000001, 0xb8000001,
  0xffffffff, 0xffffffff, 0xffffffff, 0xffffffff]⟩

def escapeQueryParamValue (text : List (BitVec 8)) (usePlus : Bool) : List (BitVec 8) :=
  escape text kQueryCharmap usePlus

def escapePath (path : List (BitVec 8)) : List (BitVec 8) := escape path kPathCharmap false

def escapeUrlEncodedData (path : List (BitVec 8)) (usePlus : Bool) : List (BitVec 8) :=
  escape path kUrlEscape usePlus

/-- The rules under which every escape is replaced. -/
def allRules (plus : Bool) : Rules :=
  UnescapeRule.spaces ||| UnescapeRule.urlSpecialChars ||| UnescapeRule.controlChars |||
    if plus then UnescapeRule.replacePlusWithSpace else UnescapeRule.none

/-! ### Unescaping what was escaped -/

/-- The two digits of a byte stand for it. -/
lemma digits_spec : ∀ c : BitVec 8, isHexDigit (intToHex (c >>> 4)) = true ∧
    isHexDigit (intToHex (c &&& 0xf)) = true ∧
    escapedValue (intToHex (c >>> 4)) (intToHex (c &&& 0xf)) = c := by
  decide +kernel

lemma shouldUnescape_allRules (plus : Bool) : ∀ c : BitVec 8,
    shouldUnescape (allRules plus) c = true := by
  cases plus <;> decide +kernel

lemma unescapeLoop_escape {charmap : Charmap} {usePlus : Bool}
    (hpercent : charmap.contains (char 8 '%') = true)
    (hplus : usePlus = true → charmap.contains (char 8 '+') = true)
    (text : List (BitVec 8)) (i : ℕ) :
    (unescapeLoop (allRules usePlus) i (escape text charmap usePlus)).result = text := by
  induction text generalizing i with
  | nil => rfl
  | cons c text ih =>
    rw [escape, List.flatMap_cons, ← escape]
    split_ifs with hc hcontains
    · -- a space that is written as a plus
      obtain ⟨rfl, rfl⟩ := hc
      rw [List.singleton_append, unescapeLoop_other _ _ (by decide) (absurd · (by decide)),
        if_pos (by decide), Unescaping.result_push, ih]
    · -- an escape
      obtain ⟨hhigh, hlow, hvalue⟩ := digits_spec c
      have hnarrow : ¬ 128 ≤ ((char 8 '%').setWidth 8).toNat := by decide
      have heq : ((char 8 '%').setWidth 8 == char 8 '%') = true := by decide
      rw [List.cons_append, List.cons_append, List.singleton_append, unescapeLoop.eq_def]
      dsimp only
      rw [if_neg hnarrow, heq]
      dsimp only
      rw [if_pos ⟨hhigh, hlow⟩, hvalue, if_pos (shouldUnescape_allRules usePlus c),
        Unescaping.result_adjust, Unescaping.result_push, ih, BitVec.setWidth_eq]
    · -- a byte that stays
      have hne : c ≠ char 8 '%' := by
        rintro rfl
        exact hcontains hpercent
      rw [List.singleton_append]
      by_cases hhigh : 128 ≤ (c.setWidth 8).toNat
      · rw [unescapeLoop.eq_def]
        dsimp only
        rw [if_pos hhigh, Unescaping.result_push, ih]
      · rw [unescapeLoop_other _ _ hhigh fun h => absurd h (by rwa [BitVec.setWidth_eq]),
          if_neg, Unescaping.result_push, ih]
        rintro ⟨hrule, rfl⟩
        cases usePlus with
        | true => exact hcontains (hplus rfl)
        | false => exact hrule (by decide)

lemma unescapeURLComponent_charmap {charmap : Charmap} {usePlus : Bool}
    (hpercent : charmap.contains (char 8 '%') = true)
    (hplus : usePlus = true → charmap.contains (char 8 '+') = true) (text : List (BitVec 8)) :
    unescapeURLComponent (escape text charmap usePlus) (allRules usePlus) = text := by
  rw [unescapeURLComponent_eq (by cases usePlus <;> decide)]
  exact unescapeLoop_escape hpercent hplus text 0

/-- Query values, paths and form data survive escaping and unescaping, whatever bytes they have.
A plus is read as a space exactly when spaces were written so. -/
theorem unescapeURLComponent_escape (text : List (BitVec 8)) (usePlus : Bool) :
    unescapeURLComponent (escapeQueryParamValue text usePlus) (allRules usePlus) = text ∧
      unescapeURLComponent (escapeUrlEncodedData text usePlus) (allRules usePlus) = text ∧
      unescapeURLComponent (escapePath text) (allRules false) = text :=
  ⟨unescapeURLComponent_charmap (by decide) (fun _ => by decide) text,
    unescapeURLComponent_charmap (by decide) (fun _ => by decide) text,
    unescapeURLComponent_charmap (by decide) (fun h => absurd h (by decide)) text⟩

/-! ### Offsets -/

/-- Where the escapes are that are replaced. -/
def replacedAt {w : ℕ} (s : List (BitVec w)) (rules : Rules) : List ℕ :=
  if rules = UnescapeRule.none then [] else (unescapeLoop rules 0 s).adjustments

/-- Behind the percent sign of an escape that is replaced, and not behind its last digit. -/
def Inside (locations : List ℕ) (offset : ℕ) : Prop :=
  ∃ location ∈ locations, location < offset ∧ offset ≤ location + 2

section Offsets
variable {w : ℕ}

/-- One round takes a unit, or an escape whose place is kept. -/
lemma unescapeLoop_round (rules : Rules) (c : BitVec w) (rest : List (BitVec w)) :
    (∃ d, ∀ i, unescapeLoop rules i (c :: rest) = (unescapeLoop rules (i + 1) rest).push d) ∨
      ∃ d, 2 ≤ rest.length ∧ ∀ i, unescapeLoop rules i (c :: rest) =
        ((unescapeLoop rules (i + 3) (rest.drop 2)).push d).adjust i := by
  by_cases hhigh : 128 ≤ (c.setWidth 8).toNat
  · refine .inl ⟨c, fun i => ?_⟩
    rw [unescapeLoop.eq_def]
    dsimp only
    rw [if_pos hhigh]
  by_cases hshort : c.setWidth 8 = char 8 '%' → rest.length < 2
  · refine .inl ⟨if rules &&& UnescapeRule.replacePlusWithSpace ≠ 0 ∧ c = char w '+' then
      char w ' ' else c, fun i => ?_⟩
    rw [unescapeLoop_other rules i hhigh hshort]
    split_ifs <;> rfl
  · rw [Classical.not_imp, Nat.not_lt] at hshort
    obtain ⟨hc, hlength⟩ := hshort
    rcases rest with - | ⟨x, - | ⟨y, rest⟩⟩
    · simp at hlength
    · simp at hlength
    by_cases hreplaced : (isHexDigit x = true ∧ isHexDigit y = true) ∧
        shouldUnescape rules (escapedValue x y) = true
    · refine .inr ⟨(escapedValue x y).setWidth w, hlength, fun i => ?_⟩
      rw [unescapeLoop.eq_def]
      dsimp only
      rw [if_neg hhigh, beq_iff_eq.mpr hc]
      dsimp only
      rw [if_pos hreplaced.1, if_pos hreplaced.2]
      rfl
    · refine .inl ⟨char w '%', fun i => ?_⟩
      rw [unescapeLoop.eq_def]
      dsimp only
      rw [if_neg hhigh, beq_iff_eq.mpr hc]
      dsimp only
      split_ifs with hhex hshould
      · exact absurd ⟨hhex, hshould⟩ hreplaced
      · rfl
      · rfl

lemma rounds_induction (rules : Rules) {motive : List (BitVec w) → Prop} (nil : motive [])
    (unit : ∀ c rest d,
      (∀ i, unescapeLoop rules i (c :: rest) = (unescapeLoop rules (i + 1) rest).push d) →
      motive rest → motive (c :: rest))
    (escape : ∀ c rest d, 2 ≤ rest.length → (∀ i, unescapeLoop rules i (c :: rest) =
        ((unescapeLoop rules (i + 3) (rest.drop 2)).push d).adjust i) →
      motive (rest.drop 2) → motive (c :: rest)) : ∀ s, motive s
  | [] => nil
  | c :: rest => by
    obtain ⟨d, hround⟩ | ⟨d, hlength, hround⟩ := unescapeLoop_round rules c rest
    · exact unit c rest d hround (rounds_induction rules nil unit escape rest)
    · exact escape c rest d hlength hround (rounds_induction rules nil unit escape (rest.drop 2))
  termination_by s => s.length
  decreasing_by all_goals simp only [List.length_cons, List.length_drop]; omega

lemma result_unescapeLoop (rules : Rules) (s : List (BitVec w)) (i j : ℕ) :
    (unescapeLoop rules i s).result = (unescapeLoop rules j s).result := by
  induction s using rounds_induction rules generalizing i j with
  | nil => rfl
  | unit c rest d hround ih =>
    rw [hround, hround, Unescaping.result_push, Unescaping.result_push, ih]
  | escape c rest d _ hround ih =>
    rw [hround, hround, Unescaping.result_adjust, Unescaping.result_adjust,
      Unescaping.result_push, Unescaping.result_push, ih]

lemma le_adjustments (rules : Rules) (s : List (BitVec w)) (i : ℕ) :
    ∀ location ∈ (unescapeLoop rules i s).adjustments, i ≤ location := by
  induction s using rounds_induction rules generalizing i with
  | nil => simp [unescapeLoop]
  | unit c rest d hround ih =>
    rw [hround]
    exact fun location hmem => Nat.le_of_succ_le (ih (i + 1) location hmem)
  | escape c rest d _ hround ih =>
    rw [hround]
    intro location hmem
    obtain rfl | hmem := List.mem_cons.mp hmem
    · exact le_rfl
    · exact le_trans (Nat.le_add_right i 3) (ih (i + 3) location hmem)

/-- What becomes of an offset `n` units behind `i`, in front of which `base` units were made. -/
def Lands (rules : Rules) (s : List (BitVec w)) (i base n : ℕ) : Prop :=
  let unescaped := unescapeLoop rules i s
  let adjusted := adjustOffset (i + n) (base + n) unescaped.adjustments
  (Inside unescaped.adjustments (i + n) ∧ adjusted = npos) ∨
    (¬ Inside unescaped.adjustments (i + n) ∧ ∃ front : List (BitVec w), front.length ≤ n ∧
      unescaped.result = front ++ (unescapeLoop rules (i + n) (s.drop n)).result ∧
      adjusted = base + front.length)

lemma lands_zero (rules : Rules) (s : List (BitVec w)) (i base : ℕ) : Lands rules s i base 0 := by
  have hle := le_adjustments rules s i
  refine .inr ⟨fun ⟨l, hmem, hlt, _⟩ => absurd (hle l hmem) (by omega), [], le_rfl, rfl, ?_⟩
  cases hadjustments : (unescapeLoop rules i s).adjustments with
  | nil => rfl
  | cons l _ => exact if_pos (hle l (by rw [hadjustments]; exact List.mem_cons_self))

lemma lands (rules : Rules) (s : List (BitVec w)) (i base : ℕ) {n : ℕ} (hn : n ≤ s.length) :
    Lands rules s i base n := by
  induction s using rounds_induction rules generalizing i base n with
  | nil =>
    obtain rfl := Nat.le_zero.mp hn
    exact lands_zero rules [] i base
  | unit c rest d hround ih =>
    obtain - | n := n
    · exact lands_zero rules _ i base
    rw [Lands, hround, show i + (n + 1) = i + 1 + n by omega,
      show base + (n + 1) = base + 1 + n by omega]
    obtain h | ⟨hinside, front, hle, hresult, hadjusted⟩ :=
      ih (i + 1) (base + 1) (Nat.le_of_succ_le_succ hn)
    · exact .inl h
    · exact .inr ⟨hinside, d :: front, Nat.succ_le_succ hle, congrArg (d :: ·) hresult,
        hadjusted.trans (by rw [List.length_cons]; omega)⟩
  | escape c rest d hlength hround ih =>
    obtain rfl | hpos := Nat.eq_zero_or_pos n
    · exact lands_zero rules _ i base
    rw [Lands, hround]
    by_cases hlast : n ≤ 2
    · exact .inl ⟨⟨i, List.mem_cons_self, by omega, by omega⟩,
        (if_neg (by omega)).trans (if_pos (by omega))⟩
    obtain ⟨n, rfl⟩ := Nat.exists_eq_add_of_le' (Nat.not_le.mp hlast)
    have hlands := ih (i + 3) (base + 1) (n := n)
      (by rw [List.length_cons] at hn; rw [List.length_drop]; omega)
    rw [Lands] at hlands
    rw [show i + (n + 3) = i + 3 + n by omega]
    generalize unescapeLoop rules (i + 3) (rest.drop 2) = u at hlands ⊢
    have hfar : adjustOffset (i + 3 + n) (base + (n + 3)) (i :: u.adjustments) =
        adjustOffset (i + 3 + n) (base + 1 + n) u.adjustments := by
      rw [adjustOffset, if_neg (by omega), if_neg (by omega)]
      congr 1
      omega
    have hinsides : Inside (i :: u.adjustments) (i + 3 + n) ↔
        Inside u.adjustments (i + 3 + n) := by
      simp only [Inside, List.mem_cons, exists_eq_or_imp, or_iff_right_iff_imp]
      omega
    obtain ⟨hinside, hnpos⟩ | ⟨hinside, front, hle, hresult, hadjusted⟩ := hlands
    · exact .inl ⟨hinsides.mpr hinside, hfar.trans hnpos⟩
    · refine .inr ⟨fun h => hinside (hinsides.mp h), d :: front, Nat.succ_le_succ (by omega), ?_,
        hfar.trans (hadjusted.trans (by rw [List.length_cons]; omega))⟩
      rw [List.drop_succ_cons, Nat.add_comm n 2, ← List.drop_drop]
      exact congrArg (d :: ·) hresult

/-- An offset becomes that of what stood behind it, and is lost beyond the text and where it cuts an
escape that is replaced. -/
def Adjusts (s : List (BitVec w)) (rules : Rules) (offset adjusted : ℕ) : Prop :=
  (adjusted = npos ↔ s.length < offset ∨ Inside (replacedAt s rules) offset) ∧
    (adjusted ≠ npos → ∃ front : List (BitVec w), front.length = adjusted ∧
      unescapeURLComponent s rules = front ++ unescapeURLComponent (s.drop offset) rules)

/-- Every offset is adjusted to what became of the text in front of it. -/
theorem unescapeURLWithOffsetsImpl_adjusts (rules : Rules) (s : List (BitVec w))
    (hlength : s.length < npos) (offsets : List ℕ) :
    List.Forall₂ (Adjusts s rules) offsets (unescapeURLWithOffsetsImpl s rules offsets).2 := by
  have hlimit : ∀ offset, limitOffset s.length offset =
      if s.length < offset then npos else offset := fun _ => rfl
  rw [unescapeURLWithOffsetsImpl]
  by_cases hrules : rules = UnescapeRule.none
  · rw [if_pos hrules, List.forall₂_map_right_iff, List.forall₂_same]
    intro offset _
    rw [Adjusts, hlimit, replacedAt, if_pos hrules]
    split_ifs with hfar
    · exact ⟨iff_of_true rfl (.inl hfar), absurd rfl⟩
    · refine ⟨iff_of_false (by omega) (by simp [hfar, Inside]), fun _ => ⟨s.take offset, ?_, ?_⟩⟩
      · rw [List.length_take]
        omega
      · simp only [unescapeURLComponent, unescapeURLWithOffsetsImpl, if_pos hrules,
          List.take_append_drop]
  · rw [if_neg hrules]
    dsimp only
    rw [List.map_map, List.forall₂_map_right_iff, List.forall₂_same]
    intro offset _
    rw [Adjusts, Function.comp_apply, hlimit, replacedAt, if_neg hrules, adjustEncodingOffset]
    by_cases hfar : s.length < offset
    · rw [if_pos hfar, if_pos rfl]
      exact ⟨iff_of_true rfl (.inl hfar), absurd rfl⟩
    rw [if_neg hfar, if_neg (by omega), or_iff_right hfar, unescapeURLComponent_eq hrules,
      unescapeURLComponent_eq hrules]
    have hlands := lands rules s 0 0 (Nat.not_lt.mp hfar)
    simp only [Lands, Nat.zero_add] at hlands
    obtain ⟨hinside, hnpos⟩ | ⟨hinside, front, hle, hresult, hadjusted⟩ := hlands
    · exact ⟨iff_of_true hnpos hinside, absurd hnpos⟩
    · rw [hadjusted]
      refine ⟨iff_of_false (by omega) hinside, fun _ => ⟨front, rfl, ?_⟩⟩
      rw [hresult, result_unescapeLoop rules (s.drop offset) offset 0]

end Offsets

theorem unescapeURLWithOffsetsImpl_adjusts_escape :
    List.Forall₂ (Adjusts [0x25#8, 0x34#8, 0x31#8] UnescapeRule.normal) [1, 3]
      (unescapeURLWithOffsetsImpl [0x25#8, 0x34#8, 0x31#8] UnescapeRule.normal [1, 3]).2 :=
  unescapeURLWithOffsetsImpl_adjusts _ _ (by decide) _

/-! ### HTML -/

def kCharsToEscape : List (Char × String) :=
  [('<', "&lt;"), ('>', "&gt;"), ('&', "&amp;"), ('"', "&quot;"), ('\'', "&#39;")]

/-- An ASCII literal as code units. -/
def ascii (w : ℕ) (text : String) : List (BitVec w) := text.toList.map (char w)

def appendEscapedCharForHTML (c : BitVec 16) : List (BitVec 16) :=
  match kCharsToEscape.find? fun entry => c == char 16 entry.1 with
  | some entry => ascii 16 entry.2
  | none => [c]

def escapeForHTML (input : List (BitVec 16)) : List (BitVec 16) :=
  input.flatMap appendEscapedCharForHTML

def kEscapeToChars : List (String × Char) :=
  [("&lt;", '<'), ("&gt;", '>'), ("&amp;", '&'), ("&quot;", '"'), ("&#39;", '\'')]

/-- The loop from an iterator on. What was put in place of an entity is not read again. -/
def unescapeHTMLLoop : List (BitVec 16) → List (BitVec 16)
  | [] => []
  | c :: rest =>
    if c = char 16 '&' then
      match kEscapeToChars.find? fun entry => (ascii 16 entry.1).isPrefixOf (c :: rest) with
      | some entry =>
        char 16 entry.2 :: unescapeHTMLLoop (rest.drop ((ascii 16 entry.1).length - 1))
      | none => c :: unescapeHTMLLoop rest
    else c :: unescapeHTMLLoop rest
  termination_by text => text.length
  decreasing_by all_goals simp only [List.length_cons, List.length_drop]; omega

def unescapeForHTML (input : List (BitVec 16)) : List (BitVec 16) :=
  if char 16 '&' ∉ input then input else unescapeHTMLLoop input

lemma unescapeHTMLLoop_of_ne {c : BitVec 16} (h : c ≠ char 16 '&') (rest : List (BitVec 16)) :
    unescapeHTMLLoop (c :: rest) = c :: unescapeHTMLLoop rest := by
  rw [unescapeHTMLLoop, if_neg h]

lemma unescapeHTMLLoop_of_not_mem {input : List (BitVec 16)} (h : char 16 '&' ∉ input) :
    unescapeHTMLLoop input = input := by
  induction input with
  | nil => rw [unescapeHTMLLoop]
  | cons c input ih =>
    rw [List.mem_cons, not_or] at h
    rw [unescapeHTMLLoop_of_ne (Ne.symm h.1), ih h.2]

lemma unescapeHTMLLoop_entity {entry : Char × String} (h : entry ∈ kCharsToEscape)
    (rest : List (BitVec 16)) :
    unescapeHTMLLoop (ascii 16 entry.2 ++ rest) = char 16 entry.1 :: unescapeHTMLLoop rest := by
  fin_cases h <;> exact unescapeHTMLLoop.eq_2 _ _

lemma unescapeHTMLLoop_escape (input : List (BitVec 16)) :
    unescapeHTMLLoop (escapeForHTML input) = input := by
  induction input with
  | nil => exact unescapeHTMLLoop.eq_1
  | cons c input ih =>
    rw [escapeForHTML, List.flatMap_cons, ← escapeForHTML, appendEscapedCharForHTML]
    cases hfind : kCharsToEscape.find? fun entry => c == char 16 entry.1 with
    | some entry =>
      have hc : c = char 16 entry.1 := by simpa using List.find?_some hfind
      dsimp only
      rw [unescapeHTMLLoop_entity (List.mem_of_find?_eq_some hfind), ih, hc]
    | none =>
      have hne : c ≠ char 16 '&' := by
        rintro rfl
        exact absurd hfind (by decide)
      dsimp only
      rw [List.singleton_append, unescapeHTMLLoop_of_ne hne, ih]

/-- Text is read back from HTML as it was, and of the characters with a meaning in HTML only the
ampersands of the entities are written. -/
theorem unescapeForHTML_escape (input : List (BitVec 16)) :
    unescapeForHTML (escapeForHTML input) = input ∧
      ∀ entry ∈ kCharsToEscape, entry.1 ≠ '&' → char 16 entry.1 ∉ escapeForHTML input := by
  constructor
  · have hloop := unescapeHTMLLoop_escape input
    rw [unescapeForHTML]
    by_cases hmem : char 16 '&' ∉ escapeForHTML input
    · rwa [if_pos hmem, ← unescapeHTMLLoop_of_not_mem hmem]
    · rwa [if_neg hmem]
  · intro entry hentry hne hmem
    obtain ⟨c, -, hc⟩ := List.mem_flatMap.mp hmem
    rw [appendEscapedCharForHTML] at hc
    cases hfind : kCharsToEscape.find? fun entry => c == char 16 entry.1 with
    | some other =>
      rw [hfind] at hc
      have hclean : ∀ e ∈ kCharsToEscape, e.1 ≠ '&' → ∀ o ∈ kCharsToEscape,
          char 16 e.1 ∉ ascii 16 o.2 := by decide
      exact hclean entry hentry hne other (List.mem_of_find?_eq_some hfind) hc
    | none =>
      rw [hfind, List.mem_singleton] at hc
      have := List.find?_eq_none.mp hfind entry hentry
      simp [hc] at this

end Chromium.Escape
