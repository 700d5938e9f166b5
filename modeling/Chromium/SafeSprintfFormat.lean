import Chromium.SafeSprintfUsual

/-!
# A format without arguments

The overload without arguments copies the format; the loop, when it has no arguments, copies
directives too, except for their width.
-/
namespace Chromium.SafeSprintf

open WireFormat StringNumber Buffer

/-! ### The copy -/

/-- What the overload without arguments puts out. -/
def copied : Text → Text
  | [] => []
  | [ch] => [ch]
  | ch :: next :: fmt =>
    ch :: if ch = char '%' ∧ next = char '%' then copied fmt else copied (next :: fmt)

/-- A directive has a width. -/
def hasWidth : Text → Bool
  | [] | [_] => false
  | ch :: next :: fmt =>
    if ch = char '%' then
      if next = char '%' then hasWidth fmt else isDigit next || hasWidth (next :: fmt)
    else hasWidth (next :: fmt)

section
variable {ch : Byte} {fmt : Text}

lemma copied_verbatim (h : ch ≠ char '%') : copied (ch :: fmt) = ch :: copied fmt := by
  cases fmt with
  | nil => rfl
  | cons next fmt => rw [copied, if_neg (fun hpercent => h hpercent.1)]

lemma copied_percents : copied (char '%' :: char '%' :: fmt) = char '%' :: copied fmt := by
  rw [copied, if_pos ⟨rfl, rfl⟩]

lemma copied_directive (h : ch ≠ char '%') :
    copied (char '%' :: ch :: fmt) = char '%' :: ch :: copied fmt := by
  rw [copied, if_neg (fun hpercent => h hpercent.2), copied_verbatim h]

lemma isDigit_ne {ch : Byte} (h : isDigit ch) : ch ≠ char '%' := by
  rintro rfl
  exact absurd h (by decide)

lemma copied_digits {digits : Text} (h : ∀ d ∈ digits, isDigit d) :
    copied (digits ++ fmt) = digits ++ copied fmt := by
  induction digits with
  | nil => rfl
  | cons d digits ih =>
    rw [List.cons_append, copied_verbatim (isDigit_ne (h d List.mem_cons_self)),
      ih fun d hd => h d (List.mem_cons_of_mem _ hd)]
    rfl

lemma copied_length (fmt : Text) : (copied fmt).length ≤ fmt.length := by
  induction fmt using copied.induct with
  | case1 => exact le_rfl
  | case2 ch => exact le_rfl
  | case3 ch next fmt ih₁ ih₂ =>
    rw [copied]
    split_ifs with hpercents
    · simp only [List.length_cons]
      omega
    · simpa using ih₂

lemma copyFormat_copied {mem : List Byte} {before : Text} {b : Buffer} (h : Holds mem before b)
    (hfits : before.length + (copied fmt).length ≤ kSSizeMax - 1) :
    ∃ b', copyFormat fmt b = some b' ∧ Holds mem (before ++ copied fmt) b' := by
  induction fmt using copied.induct generalizing before b with
  | case1 => exact ⟨b, rfl, by simpa [copied] using h⟩
  | case2 ch =>
    obtain ⟨b', hout, _, h'⟩ := h.out hfits ch
    exact ⟨b', by rw [copyFormat, hout]; rfl, h'⟩
  | case3 ch next fmt ih₁ ih₂ =>
    rw [copied, List.length_cons] at hfits
    obtain ⟨b₁, hout, _, h₁⟩ := h.out (by omega) ch
    have hlength : (before ++ [ch]).length = before.length + 1 := by simp
    rw [copyFormat, hout, copied]
    simp only [Option.bind_eq_bind, Option.bind_some]
    split_ifs at hfits ⊢ with hpercents
    · obtain ⟨b', hcopy, h'⟩ := ih₁ h₁ (by omega)
      exact ⟨b', hcopy, by simpa using h'⟩
    · obtain ⟨b', hcopy, h'⟩ := ih₂ h₁ (by omega)
      exact ⟨b', hcopy, by simpa using h'⟩

end

/-! ### The loop without arguments -/

/-- The digits of a width; the width is too large only where there are digits. -/
lemma readWidth_split (padding : ℕ) (fmt : Text) : ∃ digits,
    fmt = digits ++ (readWidth padding fmt).2 ∧ (∀ d ∈ digits, isDigit d) ∧
      (∀ ch ∈ (readWidth padding fmt).2.head?, ¬ isDigit ch) ∧
      ((readWidth padding fmt).1 = none → digits ≠ []) := by
  induction fmt generalizing padding with
  | nil => exact ⟨[], rfl, by simp, by simp [readWidth], by simp [readWidth]⟩
  | cons ch fmt ih =>
    rw [readWidth]
    by_cases hdigit : isDigit ch
    · rw [if_pos hdigit]
      split_ifs
      · refine ⟨ch :: fmt.takeWhile isDigit, ?_, ?_, ?_, fun _ => List.cons_ne_nil _ _⟩
        · rw [List.cons_append, List.takeWhile_append_dropWhile]
        · intro d hd
          rcases List.mem_cons.mp hd with rfl | hd
          · exact hdigit
          · exact List.all_eq_true.mp List.all_takeWhile d hd
        · intro next hnext
          have hstop := List.head?_dropWhile_not isDigit fmt
          rw [Option.mem_def.mp hnext] at hstop
          rw [hstop]
          exact Bool.false_ne_true
      · obtain ⟨digits, hsplit, hall, hhead, -⟩ := ih (10 * padding + (ch.toNat - 48))
        refine ⟨ch :: digits, ?_, ?_, hhead, fun _ => List.cons_ne_nil _ _⟩
        · rw [List.cons_append, ← hsplit]
        · intro d hd
          rcases List.mem_cons.mp hd with rfl | hd
          · exact hdigit
          · exact hall d hd
    · rw [if_neg hdigit]
      refine ⟨[], rfl, by simp, ?_, fun h => absurd h (by simp)⟩
      intro next hnext
      obtain rfl := Option.some.inj hnext
      exact hdigit

/-- One digit is never too large a width. -/
lemma readWidth_none {fmt digits : Text} (hnone : (readWidth 0 fmt).1 = none)
    (hsplit : fmt = digits ++ (readWidth 0 fmt).2) : 2 ≤ digits.length := by
  cases fmt with
  | nil => simp [readWidth] at hnone
  | cons d fmt =>
    by_cases hdigit : isDigit d
    · have hle := isDigit_toNat hdigit
      have hnext : readWidth 0 (d :: fmt) = readWidth (10 * 0 + (d.toNat - 48)) fmt := by
        rw [readWidth, if_pos hdigit, if_neg]
        rw [kSSizeMax]
        omega
      obtain ⟨digits', hsplit', -, -, hne⟩ := readWidth_split (10 * 0 + (d.toNat - 48)) fmt
      rw [hnext] at hnone hsplit
      have hpos := List.length_pos_of_ne_nil (hne hnone)
      have hlength := congrArg List.length hsplit
      have hlength' := congrArg List.length hsplit'
      rw [List.length_append] at hlength hlength'
      rw [List.length_cons] at hlength
      omega
    · rw [readWidth, if_neg hdigit] at hnone
      exact absurd hnone (Option.some_ne_none _)

section
variable {cur_arg : ℕ} {ch : Byte} {fmt behind : Text}

lemma behindArg_nil : behindArg [] cur_arg = cur_arg := if_neg (Nat.not_lt_zero _)

lemma output_failed (hch : ch ≠ 0) (h : directive [] cur_arg fmt = (.failed ch, cur_arg, behind)) :
    output [] cur_arg (char '%' :: fmt) = char '%' :: ch :: output [] cur_arg behind := by
  rw [output_directive, h, Piece.output, Piece.goesOn, if_neg hch, decide_eq_true hch, if_pos rfl]
  rfl

/-- The loop stops at the end of the format, or it puts out a percent sign and, unless there were
two, the format character. -/
lemma output_width (hnul : 0 ∉ fmt) :
    ∃ digits rest, fmt = digits ++ rest ∧ (∀ d ∈ digits, isDigit d) ∧
      (∀ ch ∈ rest.head?, ¬ isDigit ch) ∧
      (rest = [] ∧ output [] cur_arg (char '%' :: fmt) = [char '%'] ∨
        ∃ ch behind, rest = ch :: behind ∧
          (output [] cur_arg (char '%' :: fmt) =
              char '%' :: ch :: output [] cur_arg behind ∧ (ch = char '%' → 2 ≤ digits.length) ∨
            output [] cur_arg (char '%' :: fmt) = char '%' :: output [] cur_arg behind ∧
              ch = char '%')) := by
  obtain ⟨digits, hsplit, hall, hhead, -⟩ := readWidth_split 0 fmt
  have hmany := @readWidth_none fmt digits
  obtain ⟨⟨width, rest⟩, hread⟩ : ∃ r, readWidth 0 fmt = r := ⟨_, rfl⟩
  rw [hread] at hsplit hhead hmany
  refine ⟨digits, rest, hsplit, hall, hhead, ?_⟩
  cases rest with
  | nil =>
    have hdirective : directive [] cur_arg fmt = (.failed 0, cur_arg, []) := by
      cases width with
      | none => rw [directive_none hread, behindArg_nil]; rfl
      | some width => rw [directive_some hread]; rfl
    refine Or.inl ⟨rfl, ?_⟩
    rw [output_directive, hdirective]
    rfl
  | cons ch behind =>
    have hch : ch ≠ 0 := by
      rintro rfl
      exact hnul (hsplit ▸ List.mem_append_right _ List.mem_cons_self)
    refine Or.inr ⟨ch, behind, rfl, ?_⟩
    cases width with
    | none =>
      have hdirective := @directive_none [] cur_arg fmt _ hread
      rw [behindArg_nil] at hdirective
      exact Or.inl ⟨output_failed hch hdirective, fun _ => hmany rfl hsplit⟩
    | some width =>
      have hdirective := @directive_some [] cur_arg fmt _ _ hread
      rw [behindArg_nil] at hdirective
      by_cases hpercent : ch = char '%'
      · subst hpercent
        refine Or.inr ⟨?_, rfl⟩
        rw [output_directive, hdirective]
        rfl
      · refine Or.inl ⟨output_failed hch ?_, fun h => absurd h hpercent⟩
        rw [hdirective]
        simp [hpercent]

end

/-- The cases of a format without NUL. -/
inductive Shape : Text → Prop
  | nil : Shape []
  | verbatim {ch : Byte} {fmt : Text} (h : ch ≠ char '%') : Shape (ch :: fmt)
  | last : Shape [char '%']
  | percents {fmt : Text} : Shape (char '%' :: char '%' :: fmt)
  | directive {ch : Byte} {fmt : Text} (hdigit : ¬ isDigit ch) (h : ch ≠ char '%') :
    Shape (char '%' :: ch :: fmt)
  | width {d : Byte} {fmt : Text} (hdigit : isDigit d) : Shape (char '%' :: d :: fmt)

lemma shape (fmt : Text) : Shape fmt := by
  match fmt with
  | [] => exact .nil
  | ch :: fmt =>
    by_cases hpercent : ch = char '%'
    · subst hpercent
      match fmt with
      | [] => exact .last
      | next :: fmt =>
        by_cases hdigit : isDigit next
        · exact .width hdigit
        · by_cases hnext : next = char '%'
          · rw [hnext]
            exact .percents
          · exact .directive hdigit hnext
    · exact .verbatim hpercent

/-! ### The two compared -/

section
variable {cur_arg : ℕ} {ch d : Byte} {fmt : Text}

/-- Without a width the format character stands behind the percent sign. -/
lemma eq_nil_of_head {digits rest : Text} (h : ch :: fmt = digits ++ rest)
    (hall : ∀ d ∈ digits, isDigit d) (hch : ¬ isDigit ch) : rest = ch :: fmt ∧ digits = [] := by
  cases digits with
  | nil => exact ⟨h.symm, rfl⟩
  | cons d digits =>
    obtain ⟨rfl, -⟩ := List.cons.inj h
    exact absurd (hall _ List.mem_cons_self) hch

lemma output_other (hnul : 0 ∉ ch :: fmt) (hdigit : ¬ isDigit ch) (h : ch ≠ char '%') :
    output [] cur_arg (char '%' :: ch :: fmt) = char '%' :: ch :: output [] cur_arg fmt := by
  obtain ⟨digits, rest, hsplit, hall, -, hcases⟩ := @output_width cur_arg _ hnul
  obtain ⟨rfl, -⟩ := eq_nil_of_head hsplit hall hdigit
  rcases hcases with ⟨hnil, -⟩ | ⟨next, behind, hrest, ⟨houtput, -⟩ | ⟨-, hpercent⟩⟩
  · exact absurd hnil (List.cons_ne_nil _ _)
  · obtain ⟨rfl, rfl⟩ := List.cons.inj hrest
    exact houtput
  · obtain ⟨rfl, rfl⟩ := List.cons.inj hrest
    exact absurd hpercent h

lemma output_percents (hnul : 0 ∉ fmt) :
    output [] cur_arg (char '%' :: char '%' :: fmt) = char '%' :: output [] cur_arg fmt := by
  obtain ⟨digits, rest, hsplit, hall, -, hcases⟩ := @output_width cur_arg (char '%' :: fmt) (by
    rw [List.mem_cons]
    rintro (hzero | hmem)
    · exact absurd hzero (by decide)
    · exact hnul hmem)
  obtain ⟨rfl, rfl⟩ := eq_nil_of_head hsplit hall (by decide)
  rcases hcases with ⟨hnil, -⟩ | ⟨next, behind, hrest, ⟨-, hmany⟩ | ⟨houtput, -⟩⟩
  · exact absurd hnil (List.cons_ne_nil _ _)
  · obtain ⟨rfl, rfl⟩ := List.cons.inj hrest
    exact absurd (hmany rfl) (by decide)
  · obtain ⟨rfl, rfl⟩ := List.cons.inj hrest
    exact houtput

lemma output_last : output [] cur_arg [char '%'] = [char '%'] := by
  obtain ⟨digits, rest, hsplit, -, -, hcases⟩ := @output_width cur_arg [] (List.not_mem_nil)
  obtain ⟨-, rfl⟩ := List.append_eq_nil_iff.mp hsplit.symm
  rcases hcases with ⟨-, houtput⟩ | ⟨next, behind, hrest, -⟩
  · exact houtput
  · exact absurd hrest.symm (List.cons_ne_nil _ _)

/-- With a width the loop puts out less than the copy, where it does so no more behind it. -/
lemma output_width_lt (hnul : 0 ∉ d :: fmt) (hdigit : isDigit d)
    (hbehind : ∀ behind : Text, behind.length ≤ fmt.length → 0 ∉ behind →
      (output [] cur_arg behind).length ≤ (copied behind).length ∧
        (output [] cur_arg behind).length ≤ (copied (char '%' :: behind)).length) :
    (output [] cur_arg (char '%' :: d :: fmt)).length <
      (copied (char '%' :: d :: fmt)).length := by
  obtain ⟨digits, rest, hsplit, hall, hhead, hcases⟩ := @output_width cur_arg _ hnul
  have hcopied : (copied (char '%' :: d :: fmt)).length =
      1 + digits.length + (copied rest).length := by
    rw [copied_directive (isDigit_ne hdigit), ← copied_verbatim (isDigit_ne hdigit), hsplit,
      copied_digits hall, List.length_cons, List.length_append]
    omega
  have hpos : 0 < digits.length := by
    cases digits with
    | nil =>
      rw [List.nil_append] at hsplit
      exact absurd hdigit (hhead d (by rw [← hsplit]; rfl))
    | cons d digits => exact Nat.succ_pos _
  have hlength := congrArg List.length hsplit
  rw [List.length_append, List.length_cons] at hlength
  rw [hcopied]
  rcases hcases with ⟨rfl, houtput⟩ | ⟨ch, behind, rfl, hcases⟩
  · rw [houtput, List.length_singleton]
    omega
  · rw [List.length_cons] at hlength
    obtain ⟨hle, hle'⟩ := hbehind behind (by omega) (fun hmem =>
      hnul (hsplit ▸ List.mem_append_right _ (List.mem_cons_of_mem _ hmem)))
    rcases hcases with ⟨houtput, hmany⟩ | ⟨houtput, rfl⟩
    · rw [houtput, List.length_cons, List.length_cons]
      by_cases hpercent : ch = char '%'
      · rw [hpercent]
        have htwo := hmany hpercent
        omega
      · rw [copied_verbatim hpercent, List.length_cons]
        omega
    · rw [houtput, List.length_cons]
      omega

/-- The loop never puts out more than the copy, not even behind a percent sign. -/
lemma output_length_le (hnul : 0 ∉ fmt) :
    (output [] cur_arg fmt).length ≤ (copied fmt).length ∧
      (output [] cur_arg fmt).length ≤ (copied (char '%' :: fmt)).length := by
  induction hn : fmt.length using Nat.strong_induction_on generalizing fmt with
  | _ n ih =>
    subst hn
    cases shape fmt with
    | nil => exact ⟨by simp [output], by simp [output]⟩
    | @verbatim ch fmt h =>
      obtain ⟨hle, -⟩ := ih fmt.length (Nat.lt_succ_self _) (fun h => hnul (.tail _ h)) rfl
      rw [output_verbatim h, copied_directive h, copied_verbatim h]
      simp only [List.length_cons]
      omega
    | last =>
      rw [output_last, copied_percents]
      exact ⟨le_rfl, by simp⟩
    | @percents fmt =>
      have hnul' : 0 ∉ fmt := fun h => hnul (.tail _ (.tail _ h))
      obtain ⟨hle, hle'⟩ := ih fmt.length (by simp) hnul' rfl
      rw [output_percents hnul', copied_percents, copied_percents]
      simp only [List.length_cons]
      omega
    | @directive ch fmt hdigit h =>
      obtain ⟨hle, -⟩ := ih fmt.length (by simp) (fun h => hnul (.tail _ (.tail _ h))) rfl
      rw [output_other (fun h => hnul (.tail _ h)) hdigit h, copied_percents, copied_directive h,
        copied_verbatim h]
      simp only [List.length_cons]
      omega
    | @width d fmt hdigit =>
      have hlt := @output_width_lt cur_arg d fmt (fun h => hnul (.tail _ h)) hdigit
        fun behind hle hnul => ih behind.length (by simp; omega) hnul rfl
      rw [copied_percents]
      rw [copied_directive (isDigit_ne hdigit)] at hlt ⊢
      rw [copied_verbatim (isDigit_ne hdigit)]
      simp only [List.length_cons] at hlt ⊢
      omega

lemma hasWidth_verbatim (h : ch ≠ char '%') : hasWidth (ch :: fmt) = hasWidth fmt := by
  cases fmt with
  | nil => rfl
  | cons next fmt => rw [hasWidth, if_neg h]

lemma hasWidth_directive (h : ch ≠ char '%') :
    hasWidth (char '%' :: ch :: fmt) = (isDigit ch || hasWidth fmt) := by
  rw [hasWidth, if_pos rfl, if_neg h, hasWidth_verbatim h]

/-- The texts differ in length exactly when there is a width. -/
lemma output_compare (hnul : 0 ∉ fmt) :
    if hasWidth fmt then (output [] cur_arg fmt).length < (copied fmt).length
    else output [] cur_arg fmt = copied fmt := by
  induction hn : fmt.length using Nat.strong_induction_on generalizing fmt with
  | _ n ih =>
    subst hn
    cases shape fmt with
    | nil => simp [hasWidth, output, copied]
    | @verbatim ch fmt h =>
      have hrest := ih fmt.length (Nat.lt_succ_self _) (fun h => hnul (.tail _ h)) rfl
      rw [hasWidth_verbatim h, output_verbatim h, copied_verbatim h]
      split_ifs at hrest ⊢
      · exact Nat.succ_lt_succ hrest
      · rw [hrest]
    | last => simp [hasWidth, output_last, copied]
    | @percents fmt =>
      have hnul' : 0 ∉ fmt := fun h => hnul (.tail _ (.tail _ h))
      have hrest := ih fmt.length (by simp) hnul' rfl
      rw [output_percents hnul', copied_percents, hasWidth, if_pos rfl, if_pos rfl]
      split_ifs at hrest ⊢
      · exact Nat.succ_lt_succ hrest
      · rw [hrest]
    | @directive ch fmt hdigit h =>
      have hrest := ih fmt.length (by simp) (fun h => hnul (.tail _ (.tail _ h))) rfl
      have hno : isDigit ch = false := by simpa using hdigit
      rw [output_other (fun h => hnul (.tail _ h)) hdigit h, copied_directive h,
        hasWidth_directive h, hno, Bool.false_or]
      split_ifs at hrest ⊢
      · exact Nat.succ_lt_succ (Nat.succ_lt_succ hrest)
      · rw [hrest]
    | @width d fmt hdigit =>
      rw [hasWidth_directive (isDigit_ne hdigit), hdigit, Bool.true_or, if_pos rfl]
      exact output_width_lt (fun h => hnul (.tail _ h)) hdigit
        fun behind _ hnul => output_length_le hnul

end

/-- The two entry points agree exactly when no directive has a width, or when the size is
refused. -/
theorem safeSNPrintfFormat_eq_iff (buf : List Byte) (sz : BitVec 64) (fmt : CString)
    (hlength : buf.length = sz.toNat) :
    safeSNPrintfFormat buf sz fmt = safeSNPrintf buf sz fmt [] ↔
      sz.toInt < 1 ∨ hasWidth fmt.chars = false := by
  have hcompare := @output_compare 0 fmt.chars fmt.noNul
  have hle := (@output_length_le 0 fmt.chars fmt.noNul).1
  have hcopied := copied_length fmt.chars
  have hfits := fmt.fits
  by_cases hrefused : sz.toInt < 1
  · rw [safeSNPrintfFormat, safeSNPrintf, withBuffer, withBuffer, if_pos hrefused, if_pos hrefused]
    exact ⟨fun _ => Or.inl hrefused, fun _ => rfl⟩
  · have hcopy : safeSNPrintfFormat buf sz fmt =
        some (((copied fmt.chars).length : ℤ), filled buf (copied fmt.chars)) :=
      withBuffer_output hlength hrefused fun b hb => copyFormat_copied hb (by
        rw [List.length_nil]
        omega)
    have hloop : safeSNPrintf buf sz fmt [] =
        some (((output [] 0 fmt.chars).length : ℤ), filled buf (output [] 0 fmt.chars)) :=
      withBuffer_output hlength hrefused fun b hb => format_output hb (Nat.lt_succ_self _) (by
        rw [List.length_nil]
        omega)
    rw [hcopy, hloop]
    by_cases hwidth : hasWidth fmt.chars
    · rw [if_pos hwidth] at hcompare
      constructor
      · intro heq
        have hreturn := congrArg Prod.fst (Option.some.inj heq)
        dsimp only at hreturn
        omega
      · rintro (h | h)
        · exact absurd h hrefused
        · rw [hwidth] at h
          exact absurd h (by decide)
    · rw [if_neg hwidth] at hcompare
      rw [hcompare]
      exact ⟨fun _ => Or.inr (by simpa using hwidth), fun _ => rfl⟩

/-- A format in which no directive has a width. -/
theorem safeSNPrintfFormat_eq_plain :
    safeSNPrintfFormat [7, 7, 7, 7, 7, 7] 6 ⟨ascii "%d%%", by decide, by decide⟩ =
      safeSNPrintf [7, 7, 7, 7, 7, 7] 6 ⟨ascii "%d%%", by decide, by decide⟩ [] :=
  (safeSNPrintfFormat_eq_iff _ _ _ (by decide)).mpr (by decide)

/-- The width is lost. -/
theorem safeSNPrintfFormat_ne_width :
    ¬ ∀ (buf : List Byte) (sz : BitVec 64) (fmt : CString), buf.length = sz.toNat →
      safeSNPrintfFormat buf sz fmt = safeSNPrintf buf sz fmt [] := by
  intro h
  have hwidth := h [7, 7, 7, 7, 7, 7] 6 ⟨ascii "%5d", by decide, by decide⟩ (by decide)
  exact absurd hwidth (by decide)

end Chromium.SafeSprintf
