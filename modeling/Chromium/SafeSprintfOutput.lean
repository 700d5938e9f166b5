import Chromium.SafeSprintf

/-!
# What SafeSPrintf puts out

The output of a format is that of its parts, one behind the other, and a buffer holds as much of
it as fits.
-/
namespace Chromium.SafeSprintf

open WireFormat StringNumber Buffer

/-! ### The parts -/

/-- What a part puts out. -/
def Piece.output : Piece → Text
  | .verbatim ch => [ch]
  | .character ch padding =>
    List.replicate (padding - 1) (char ' ') ++ if ch = 0 then [] else [ch]
  | .integer sign upcase i base pad padding prefixText =>
    number sign upcase i base pad padding prefixText
  | .text s padding => List.replicate (padding - s.length) (char ' ') ++ s
  | .failed ch => char '%' :: if ch = 0 then [] else [ch]

/-- A NUL ends the output. -/
def Piece.goesOn : Piece → Bool
  | .character ch _ | .failed ch => ch ≠ 0
  | _ => true

/-- Only decimal numbers have a sign. -/
def Piece.Valid : Piece → Prop
  | .integer sign _ _ base _ _ _ => 1 < base ∧ (sign → base = 10)
  | _ => True

section
variable {mem : List Byte} {before : Text} {b : Buffer}

lemma Piece.put_output {piece : Piece} (hvalid : piece.Valid) (h : Holds mem before b)
    (hfits : before.length + piece.output.length ≤ kSSizeMax - 1) :
    ∃ b', piece.put b = some (b', piece.goesOn) ∧ Holds mem (before ++ piece.output) b' := by
  cases piece with
  | verbatim ch =>
    obtain ⟨b', hout, _, h'⟩ := h.out hfits ch
    exact ⟨b', by rw [Piece.put, hout]; rfl, h'⟩
  | character ch padding =>
    simp only [Piece.output, List.length_append, List.length_replicate] at hfits
    obtain ⟨r, hpad, _, h₁⟩ := @Holds.pad mem before b (char ' ') 1 padding h (by omega)
    rw [Piece.put, hpad, Piece.output, Piece.goesOn]
    by_cases hnul : ch = 0
    · refine ⟨r.1, ?_, ?_⟩
      · simp [hnul]
      · simpa [hnul] using h₁
    · rw [if_neg hnul, List.length_singleton] at hfits
      obtain ⟨b', hout, _, h'⟩ := h₁.out (by simp; omega) ch
      refine ⟨b', ?_, by rw [if_neg hnul, ← List.append_assoc]; exact h'⟩
      simp only [Option.bind_eq_bind, Option.bind_some, if_neg hnul, hout, Option.map_some,
        decide_eq_true hnul]
  | integer sign upcase i base pad padding prefixText =>
    obtain ⟨r, hr, _, h'⟩ := @Holds.iToASCII mem before b h sign upcase i base pad padding
      prefixText hvalid.1 hvalid.2 hfits
    exact ⟨r.1, by rw [Piece.put, hr]; rfl, h'⟩
  | text s padding =>
    simp only [Piece.output, List.length_append, List.length_replicate] at hfits
    obtain ⟨r, hpad, _, h₁⟩ := @Holds.pad mem before b (char ' ') s.length padding h (by omega)
    obtain ⟨b', hall, _, h'⟩ := @Holds.outAll mem _ r.1 s h₁ (by simp; omega)
    refine ⟨b', ?_, by simpa [Piece.output] using h'⟩
    rw [Piece.put, hpad]
    simp [hall, Piece.goesOn]
  | failed ch =>
    simp only [Piece.output, List.length_cons] at hfits
    obtain ⟨b₁, hout, _, h₁⟩ := h.out (by omega) (char '%')
    rw [Piece.put, hout, Piece.output, Piece.goesOn]
    by_cases hnul : ch = 0
    · exact ⟨b₁, by simp [hnul], by simpa [hnul] using h₁⟩
    · rw [if_neg hnul, List.length_singleton] at hfits
      obtain ⟨b', hout', _, h'⟩ := h₁.out (by simp; omega) ch
      refine ⟨b', ?_, by rw [if_neg hnul]; simpa using h'⟩
      simp only [Option.bind_eq_bind, Option.bind_some, if_neg hnul, hout', Option.map_some,
        decide_eq_true hnul]

end

lemma expand_valid {ch pad : Byte} {padding : ℕ} {arg : Arg} {piece : Piece}
    (h : expand ch pad padding arg = some piece) : piece.Valid := by
  rw [expand] at h
  by_cases hc : ch = char 'c'
  · rw [if_pos hc] at h
    obtain ⟨i, -, rfl⟩ := Option.map_eq_some_iff.mp h
    trivial
  rw [if_neg hc] at h
  by_cases hs : ch = char 's'
  · rw [if_pos hs] at h
    obtain ⟨s, -, rfl⟩ := Option.map_eq_some_iff.mp h
    trivial
  · rw [if_neg hs] at h
    obtain ⟨i, -, rfl⟩ := Option.map_eq_some_iff.mp h
    constructor
    · split_ifs <;> decide
    · intro hsign
      have hd : ch = char 'd' := (of_decide_eq_true hsign).1
      rw [hd]
      decide

/-! ### The whole format -/

lemma readWidth_length (padding : ℕ) (fmt : Text) :
    (readWidth padding fmt).2.length ≤ fmt.length := by
  induction fmt generalizing padding with
  | nil => exact le_rfl
  | cons ch fmt ih =>
    have hskip := (List.dropWhile_suffix isDigit (l := fmt)).length_le
    have hrest := ih (10 * padding + (ch.toNat - 48))
    rw [readWidth]
    split_ifs
    · exact hskip.trans (Nat.le_succ _)
    · exact hrest.trans (Nat.le_succ _)
    · exact le_rfl

section
variable {args : List Arg} {cur_arg : ℕ} {fmt rest : Text}

lemma directive_none (h : readWidth 0 fmt = (none, rest)) :
    directive args cur_arg fmt =
      (.failed (rest.headD 0), behindArg args cur_arg, rest.tail) := by
  rw [directive, h]

lemma directive_some {padding : ℕ} (h : readWidth 0 fmt = (some padding, rest)) :
    directive args cur_arg fmt =
      if rest.headD 0 ∈ conversions then
        ((args[cur_arg]?.bind (expand (rest.headD 0) (padOf fmt) padding)).getD
          (.failed (rest.headD 0)), behindArg args cur_arg, rest.tail)
      else if rest.headD 0 = char '%' then (.verbatim (rest.headD 0), cur_arg, rest.tail)
      else (.failed (rest.headD 0), cur_arg, rest.tail) := by
  rw [directive, h]

end

lemma directive_length (args : List Arg) (cur_arg : ℕ) (fmt : Text) :
    (directive args cur_arg fmt).2.2.length ≤ fmt.length := by
  have hread := readWidth_length 0 fmt
  obtain ⟨⟨padding, rest⟩, hwidth⟩ : ∃ r, readWidth 0 fmt = r := ⟨_, rfl⟩
  have htail : rest.tail.length ≤ fmt.length := by
    rw [hwidth] at hread
    rw [List.length_tail]
    exact (Nat.sub_le _ _).trans hread
  cases padding with
  | none => rw [directive_none hwidth]; exact htail
  | some padding =>
    rw [directive_some hwidth]
    split_ifs <;> exact htail

lemma directive_valid (args : List Arg) (cur_arg : ℕ) (fmt : Text) :
    (directive args cur_arg fmt).1.Valid := by
  obtain ⟨⟨padding, rest⟩, hwidth⟩ : ∃ r, readWidth 0 fmt = r := ⟨_, rfl⟩
  cases padding with
  | none => rw [directive_none hwidth]; trivial
  | some padding =>
    rw [directive_some hwidth]
    split_ifs
    · cases hpiece : args[cur_arg]?.bind (expand (rest.headD 0) (padOf fmt) padding) with
      | none => trivial
      | some piece =>
        obtain ⟨arg, -, harg⟩ := Option.bind_eq_some_iff.mp hpiece
        exact expand_valid harg
    · trivial
    · trivial

/-- All that a format puts out. -/
def output (args : List Arg) : ℕ → Text → Text
  | _, [] => []
  | cur_arg, ch :: fmt =>
    if ch = char '%' then
      let d := directive args cur_arg fmt
      d.1.output ++ if d.1.goesOn then output args d.2.1 d.2.2 else []
    else ch :: output args cur_arg fmt
termination_by _ fmt => fmt.length
decreasing_by
  · exact Nat.lt_succ_of_le (directive_length args cur_arg fmt)
  · exact Nat.lt_succ_self _

section
variable {args : List Arg} {cur_arg : ℕ} {ch : Byte} {fmt : Text}

lemma output_directive : output args cur_arg (char '%' :: fmt) =
    (directive args cur_arg fmt).1.output ++ if (directive args cur_arg fmt).1.goesOn then
      output args (directive args cur_arg fmt).2.1 (directive args cur_arg fmt).2.2 else [] := by
  rw [output, if_pos rfl]

lemma output_verbatim (h : ch ≠ char '%') :
    output args cur_arg (ch :: fmt) = ch :: output args cur_arg fmt := by
  rw [output, if_neg h]

/-- The loop puts all of it into the buffer. -/
theorem format_output {mem : List Byte} {before : Text} {b : Buffer} {rounds : ℕ}
    (h : Holds mem before b) (hrounds : fmt.length < rounds)
    (hfits : before.length + (output args cur_arg fmt).length ≤ kSSizeMax - 1) :
    ∃ b', format args rounds cur_arg fmt b = some b' ∧
      Holds mem (before ++ output args cur_arg fmt) b' := by
  induction rounds generalizing cur_arg fmt before b with
  | zero => exact absurd hrounds (Nat.not_lt_zero _)
  | succ rounds ih =>
    cases fmt with
    | nil => exact ⟨b, rfl, by simpa [output] using h⟩
    | cons ch fmt =>
      rw [List.length_cons] at hrounds
      rw [format]
      by_cases hout : b.outOfAddressableSpace
      · -- then nothing is left
        have hcount : b.count = kSSizeMax - 1 := of_decide_eq_true hout
        have hlength := h.count
        have hnil : output args cur_arg (ch :: fmt) = [] :=
          List.length_eq_zero_iff.mp (by omega)
        rw [if_pos hout, hnil, List.append_nil]
        exact ⟨b, rfl, h⟩
      rw [if_neg hout]
      by_cases hpercent : ch = char '%'
      · subst hpercent
        rw [output_directive, List.length_append] at hfits
        obtain ⟨b₁, hput, h₁⟩ := @Piece.put_output _ before b _ (directive_valid args cur_arg fmt) h
          (by omega)
        have hrest := directive_length args cur_arg fmt
        rw [if_pos rfl, output_directive]
        dsimp only
        rw [hput]
        simp only [Option.bind_eq_bind, Option.bind_some]
        by_cases hgoes : (directive args cur_arg fmt).1.goesOn
        · rw [if_pos hgoes] at hfits ⊢
          rw [if_pos hgoes, ← List.append_assoc]
          exact ih h₁ (by omega) (by rw [List.length_append]; omega)
        · rw [if_neg hgoes, if_neg hgoes, List.append_nil]
          exact ⟨b₁, rfl, h₁⟩
      · rw [output_verbatim hpercent, List.length_cons] at hfits
        obtain ⟨b₁, hput, _, h₁⟩ := h.out (by omega) ch
        obtain ⟨b', hformat, h'⟩ := @ih cur_arg fmt _ _ h₁ (by omega) (by
          rw [List.length_append, List.length_singleton]
          omega)
        rw [if_neg hpercent, output_verbatim hpercent, hput]
        exact ⟨b', hformat, by simpa using h'⟩

end

/-- A body that puts out a text fills the memory. -/
lemma withBuffer_output {buf : List Byte} {sz : BitVec 64} {text : Text}
    {body : Buffer → Option Buffer} (hlength : buf.length = sz.toNat) (hpos : ¬ sz.toInt < 1)
    (hbody : ∀ b, Holds buf [] b → ∃ b', body b = some b' ∧ Holds buf text b') :
    withBuffer buf sz body = some ((text.length : ℤ), filled buf text) := by
  have hlt := sz.isLt
  have hsize : 0 < sz.toNat ∧ sz.toNat ≤ kSSizeMax := by
    rw [BitVec.toInt_eq_toNat_cond] at hpos
    rw [kSSizeMax]
    split_ifs at hpos <;> omega
  obtain ⟨b', hb', h'⟩ := hbody ⟨buf, sz.toNat - 1, 0⟩ (by
    rw [← hlength]
    exact Holds.make (by omega))
  rw [withBuffer, if_neg hpos]
  dsimp only
  rw [if_neg (by omega), hb']
  simp only [Option.bind_eq_bind, Option.bind_some]
  rw [h'.finish, h'.count]
  rfl

end Chromium.SafeSprintf
