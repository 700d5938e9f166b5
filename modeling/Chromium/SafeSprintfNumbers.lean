import Chromium.SafeSprintfBuffer
import Mathlib.Data.Nat.Digits.Lemmas

/-!
# Numbers in SafeSPrintf

`Buffer::IToASCII` puts out the number, its prefix and its padding in reverse order and, when the
buffer is full, gives up what came first. What it leaves is the text in the right order, cut at
the end.
-/
namespace Chromium.SafeSprintf.Buffer

open WireFormat StringNumber ListRegions

/-! ### The text of a number -/

/-- The digits of a number, the lowest first. -/
def digitsUp (upcase : Bool) (base n : ℕ) : Text :=
  if n = 0 then [digitChar upcase 0] else (Nat.digits base n).map (digitChar upcase)

/-- A number behind its prefix, padded on the left: zeros stand behind the prefix. -/
def padded (pad : Byte) (width : ℕ) (prefixText digits : Text) : Text :=
  let fill := List.replicate (width - (prefixText.length + digits.length)) pad
  if pad = char '0' then prefixText ++ fill ++ digits else fill ++ prefixText ++ digits

section Loop
variable (upcase : Bool) (base : ℕ) (pad : Byte) (prefixText : Text)

/-- What the loop still puts out of the number and its prefix. -/
def front (c : Conversion) : Text :=
  (if c.num + c.minint = 0 then if c.started then [] else [digitChar upcase 0]
    else (Nat.digits base (c.num + c.minint)).map (digitChar upcase)) ++
  (prefixText.take c.reversePrefix).reverse

/-- All that it still puts out. -/
def remaining (c : Conversion) : Text :=
  front upcase base prefixText c ++
    List.replicate (c.padding - (front upcase base prefixText c).length) pad

/-- Adding the one that is missing from the smallest number has no carry. -/
structure Ready (c : Conversion) : Prop where
  carry : c.num % base + c.minint < base
  minint : c.started → c.minint = 0
  reversePrefix : c.reversePrefix ≤ prefixText.length

end Loop

section Loop
variable {upcase : Bool} {base : ℕ} {pad : Byte} {prefixText : Text} {c : Conversion}

lemma Ready.behindChar (hbase : 1 < base) (hc : Ready base prefixText c) :
    Ready base prefixText (behindChar base c) := by
  refine ⟨?_, fun _ => rfl, ?_⟩
  · exact Nat.mod_lt _ (by omega)
  · have hle := hc.reversePrefix
    simp only [Buffer.behindChar]
    split_ifs <;> omega

lemma Ready.div (hbase : 1 < base) (hc : Ready base prefixText c) :
    (c.num + c.minint) / base = c.num / base ∧
      (c.num + c.minint) % base = c.num % base + c.minint := by
  have hcarry := hc.carry
  have hsplit := Nat.div_add_mod c.num base
  constructor
  · rw [Nat.div_eq_iff (by omega), Nat.mul_comm]
    omega
  · have hcut : c.num + c.minint = c.num % base + c.minint + base * (c.num / base) := by omega
    rw [hcut, Nat.add_mul_mod_self_left, Nat.mod_eq_of_lt hcarry]

lemma front_behind (h : c.num = 0 ∧ c.started) (hc : Ready base prefixText c) :
    front upcase base prefixText c = (prefixText.take c.reversePrefix).reverse := by
  simp [front, h.1, h.2, hc.minint h.2]

/-- One character of the number or its prefix. -/
lemma front_next (hbase : 1 < base) (hc : Ready base prefixText c)
    (hmore : front upcase base prefixText c ≠ []) :
    ∃ ch, nextChar upcase base pad prefixText c = some ch ∧
      front upcase base prefixText c = ch :: front upcase base prefixText (behindChar base c) := by
  by_cases hbehind : c.num = 0 ∧ c.started
  · rw [front_behind hbehind hc] at hmore ⊢
    have hpos : 0 < c.reversePrefix := by
      by_contra hzero
      have h0 : c.reversePrefix = 0 := by omega
      simp [h0] at hmore
    have hlt : c.reversePrefix - 1 < prefixText.length := by
      have hle := hc.reversePrefix
      omega
    refine ⟨prefixText[c.reversePrefix - 1], ?_, ?_⟩
    · rw [nextChar, if_pos hbehind, if_pos hpos, List.getElem?_eq_getElem hlt]
    · have hnext : (behindChar base c).num = 0 ∧ (behindChar base c).started := by
        simp [behindChar, hbehind.1]
      have hsucc : c.reversePrefix = c.reversePrefix - 1 + 1 := by omega
      rw [front_behind hnext (hc.behindChar hbase), behindChar, if_pos hbehind]
      conv_lhs => rw [hsucc, List.take_succ_eq_append_getElem hlt]
      simp
  · refine ⟨digitChar upcase (c.num % base + c.minint), by rw [nextChar, if_neg hbehind], ?_⟩
    obtain ⟨hdiv, hmod⟩ := hc.div hbase
    have hrest : front upcase base prefixText (behindChar base c) =
        (Nat.digits base (c.num / base)).map (digitChar upcase) ++
          (prefixText.take c.reversePrefix).reverse := by
      by_cases hzero : c.num / base = 0 <;> simp [front, behindChar, hbehind, hzero]
    rw [hrest, front]
    by_cases hzero : c.num + c.minint = 0
    · have hnum : c.num = 0 := by omega
      have hmin : c.minint = 0 := by omega
      have hnew : c.started = false := by
        by_contra hstarted
        exact hbehind ⟨hnum, by simpa using hstarted⟩
      simp [hnum, hmin, hnew]
    · rw [if_neg hzero, Nat.digits_eq_cons_digits_div hbase hzero, hdiv, hmod]
      rfl

lemma front_eq_nil (hc : Ready base prefixText c) (hstarted : c.started) :
    front upcase base prefixText c = [] ↔ c.num = 0 ∧ c.reversePrefix = 0 := by
  have hle := hc.reversePrefix
  have hmin := hc.minint hstarted
  by_cases hnum : c.num = 0
  · rw [front_behind ⟨hnum, hstarted⟩ hc, List.reverse_eq_nil_iff, List.take_eq_nil_iff]
    constructor
    · rintro (h | h)
      · exact ⟨hnum, h⟩
      · rw [h, List.length_nil] at hle
        exact ⟨hnum, by omega⟩
    · exact fun h => Or.inl h.2
  · simp [front, hnum, hmin, Nat.digits_ne_nil_iff_ne_zero]

lemma started_of_front_eq_nil (h : front upcase base prefixText c = []) : c.started := by
  by_contra hnew
  have hdigits := (List.append_eq_nil_iff.mp h).1
  by_cases hzero : c.num + c.minint = 0
  · rw [if_pos hzero, if_neg hnew] at hdigits
    exact List.cons_ne_nil _ _ hdigits
  · rw [if_neg hzero, List.map_eq_nil_iff] at hdigits
    exact Nat.digits_ne_nil_iff_ne_zero.mpr hzero hdigits

/-- One character of the loop. -/
lemma remaining_next (hbase : 1 < base) (hc : Ready base prefixText c)
    (hmore : remaining upcase base pad prefixText c ≠ []) :
    ∃ ch, nextChar upcase base pad prefixText c = some ch ∧
      remaining upcase base pad prefixText c = ch ::
        remaining upcase base pad prefixText
          { behindChar base c with padding := c.padding - 1 } ∧
      (front upcase base prefixText c).tail = front upcase base prefixText (behindChar base c) ∧
      (front upcase base prefixText c = [] → ch = pad) := by
  have hsame : front upcase base prefixText { behindChar base c with padding := c.padding - 1 } =
      front upcase base prefixText (behindChar base c) := rfl
  rw [remaining, remaining, hsame]
  by_cases hfront : front upcase base prefixText c = []
  · have hstarted := started_of_front_eq_nil hfront
    obtain ⟨hnum, hnone⟩ := (front_eq_nil hc hstarted).mp hfront
    have hbehind : behindChar base c = c := by
      obtain ⟨out, num, minint, started, reversePrefix, padding, discarded⟩ := c
      simp only at hnum hnone hstarted
      have hmin := hc.minint hstarted
      simp only at hmin
      simp [behindChar, hnum, hnone, hstarted, hmin]
    obtain ⟨n, hn⟩ : ∃ n, c.padding = n + 1 := by
      refine Nat.exists_eq_add_one_of_ne_zero fun hzero => hmore ?_
      simp [remaining, hfront, hzero]
    refine ⟨pad, ?_, ?_, ?_, fun _ => rfl⟩
    · rw [nextChar, if_pos ⟨hnum, hstarted⟩, if_neg (by omega)]
    · rw [hbehind, hfront, hn]
      rfl
    · rw [hbehind, hfront]
      rfl
  · obtain ⟨ch, hch, hnext⟩ := @front_next upcase base pad prefixText c hbase hc hfront
    refine ⟨ch, hch, ?_, by rw [hnext]; rfl, fun h => absurd h hfront⟩
    have hfill : c.padding - (ch :: front upcase base prefixText (behindChar base c)).length =
        c.padding - 1 - (front upcase base prefixText (behindChar base c)).length := by
      rw [List.length_cons]
      omega
    rw [hnext, hfill, List.cons_append]

/-- The loop goes on as long as something remains. -/
lemma remaining_ne_nil (hc : Ready base prefixText c) (hstarted : c.started) :
    (c.num ≠ 0 ∨ c.padding ≠ 0 ∨ c.reversePrefix > 0) ↔
      remaining upcase base pad prefixText c ≠ [] := by
  have hnil := @front_eq_nil upcase base prefixText c hc hstarted
  rw [remaining, ne_eq (_ ++ _), List.append_eq_nil_iff, List.replicate_eq_nil_iff]
  constructor
  · rintro hmore ⟨hfront, hpadding⟩
    rw [hfront, List.length_nil] at hpadding
    obtain ⟨hnum, hnone⟩ := hnil.mp hfront
    omega
  · intro hmore
    by_contra hdone
    refine hmore ⟨hnil.mpr (by omega), by omega⟩

end Loop

/-! ### What the loop leaves -/

section Emitted
variable {mem : List Byte} {output emitted : Text} {b : Buffer} {discarded : ℕ}

/-- The shortcut: when everything that was kept is padding, the rest of the padding is counted. -/
lemma Emitting.fill {pad : Byte} {texts : Text} {m p : ℕ}
    (h : Emitting mem output (texts ++ List.replicate m pad) b discarded)
    (hgone : texts.length < discarded)
    (hfits : output.length + (texts.length + m + p) ≤ kSSizeMax - 1) :
    Emitted mem output (texts ++ List.replicate m pad ++ List.replicate p pad)
      (b.incrementCount p).1 discarded := by
  obtain ⟨⟨hsize, hcount, hfull, hbuffer⟩, hleast, hfewer⟩ := h
  rw [List.length_append, List.length_replicate] at hcount hfull hbuffer hleast hfewer
  have hkept : ∀ q, b.size - output.length ≤ m + q →
      (texts ++ List.replicate (m + q) pad).drop
        (texts.length + (m + q) - (b.size - output.length)) =
      List.replicate (b.size - output.length) pad := by
    intro q hq
    have hsplit : texts.length + (m + q) - (b.size - output.length) =
        texts.length + (m + q - (b.size - output.length)) := by omega
    rw [hsplit, ← List.drop_drop, List.drop_left, List.drop_replicate]
    congr 1
    omega
  have hroom : b.size - output.length ≤ m := by omega
  have h0 := hkept 0 (by omega)
  rw [Nat.add_zero] at h0
  rw [h0] at hbuffer
  rw [List.append_assoc, ← List.replicate_add, incrementCount_of_le (by omega)]
  refine ⟨hsize, ?_, ?_, ?_⟩
  · simp only [List.length_append, List.length_replicate]
    omega
  · simp only [List.length_append, List.length_replicate]
    omega
  · simp only [List.length_append, List.length_replicate]
    rw [hkept p (by omega), hbuffer]
    congr 2
    omega

/-- Reversed, the characters stand as a text that is cut at the end. -/
lemma Emitted.reverse (h : Emitted mem output emitted b discarded)
    (hfits : output.length + emitted.length ≤ kSSizeMax - 1) :
    ∃ mem', reverseBetween b.insertionPoint output.length b.buffer = some mem' ∧
      Holds mem (output ++ emitted.reverse)
        ({ b with buffer := mem' }.incrementCount discarded).1 := by
  obtain ⟨hsize, hcount, hfull, hbuffer⟩ := h
  have hlength : (output ++ emitted.reverse).length = output.length + emitted.length := by simp
  have hpoint : b.insertionPoint = min b.count b.size := by
    rw [insertionPoint]
    split_ifs <;> omega
  by_cases hstart : output.length < b.size
  · rw [List.take_of_length_le hstart.le] at hbuffer
    have hback : b.insertionPoint = output.length +
        (emitted.drop (emitted.length - (b.size - output.length))).length := by
      rw [hpoint, hfull, List.length_drop]
      omega
    refine ⟨_, by rw [hback, hbuffer]; exact reverseBetween_append _ _ _, ?_⟩
    rw [incrementCount_of_le (by dsimp only; omega)]
    refine ⟨hsize, by rw [hlength]; exact hcount, ?_⟩
    dsimp only
    rw [hlength, List.take_append, List.take_of_length_le hstart.le, List.take_reverse]
  · have hnone : b.size - output.length = 0 := by omega
    rw [hnone, Nat.sub_zero, List.drop_length, List.append_nil] at hbuffer
    refine ⟨b.buffer, reverseBetween_of_le (by omega), ?_⟩
    rw [incrementCount_of_le (by dsimp only; omega)]
    refine ⟨hsize, by rw [hlength]; exact hcount, ?_⟩
    dsimp only
    rw [hlength, hbuffer, List.take_append_of_le_length (not_lt.mp hstart)]

end Emitted

section Convert
variable {mem : List Byte} {output emitted : Text} {upcase : Bool} {base : ℕ} {pad : Byte}
  {prefixText : Text} {prefixLength : ℕ} {c : Conversion}

lemma convertOne_eq {start d₁ : ℕ} {b₁ : Buffer} {ch : Byte} {r : Buffer × Bool}
    (hmake : makeRoom start c = some { c with out := b₁, discarded := d₁ })
    (hch : nextChar upcase base pad prefixText c = some ch) (hout : b₁.out ch = some r) :
    convertOne upcase base pad prefixText prefixLength start c =
      some (if c.padding > 0 ∧ d₁ > 8 * 8 + prefixLength then
        { behindChar base c with
          out := (r.1.incrementCount (c.padding - 1)).1, discarded := d₁, padding := 0 }
      else { behindChar base c with out := r.1, discarded := d₁, padding := c.padding - 1 }) := by
  have hsame : nextChar upcase base pad prefixText { c with out := b₁, discarded := d₁ } =
      nextChar upcase base pad prefixText c := rfl
  rw [convertOne, hmake]
  simp only [Option.bind_eq_bind, Option.bind_some]
  rw [hsame, hch]
  simp only [Option.bind_some]
  rw [hout]
  by_cases hpadding : c.padding > 0
  · by_cases hgone : d₁ > 8 * 8 + prefixLength <;> simp [behindChar, hpadding, hgone]
  · have hzero : c.padding = 0 := by omega
    simp [behindChar, hzero]

/-- What was put out is part of the number and its prefix, then padding. -/
structure Split (prefixLength : ℕ) (upcase : Bool) (base : ℕ) (pad : Byte) (prefixText : Text)
    (emitted : Text) (c : Conversion) (texts : Text) (m : ℕ) : Prop where
  emitted : emitted = texts ++ List.replicate m pad
  length : texts.length + (front upcase base prefixText c).length ≤ 8 * 8 + prefixLength
  padding : front upcase base prefixText c ≠ [] → m = 0

lemma Split.next {texts : Text} {m : ℕ} {ch : Byte} {c' : Conversion}
    (h : Split prefixLength upcase base pad prefixText emitted c texts m)
    (htail : (front upcase base prefixText c).tail = front upcase base prefixText c')
    (hpad : front upcase base prefixText c = [] → ch = pad) :
    ∃ texts' m', Split prefixLength upcase base pad prefixText (emitted ++ [ch]) c' texts' m' := by
  obtain ⟨hemitted, hlength, hpadding⟩ := h
  by_cases hfront : front upcase base prefixText c = []
  · have hfront' : front upcase base prefixText c' = [] := by rw [← htail, hfront]; rfl
    refine ⟨texts, m + 1, ?_, ?_, fun h => absurd hfront' h⟩
    · rw [hemitted, hpad hfront, List.replicate_succ', List.append_assoc]
    · rw [hfront']
      rw [hfront] at hlength
      exact hlength
  · refine ⟨texts ++ [ch], 0, ?_, ?_, fun _ => rfl⟩
    · rw [hemitted, hpadding hfront]
      simp
    · have hpos := List.length_pos_of_ne_nil hfront
      rw [← htail, List.length_append, List.length_singleton, List.length_tail]
      omega

/-- The loop ends, and it has put out what remained. -/
theorem convert_emitted (hbase : 1 < base) {rounds : ℕ} {texts : Text} {m : ℕ}
    (hc : Ready base prefixText c) (h : Emitting mem output emitted c.out c.discarded)
    (hsplit : Split prefixLength upcase base pad prefixText emitted c texts m)
    (hmore : remaining upcase base pad prefixText c ≠ [])
    (hrounds : (remaining upcase base pad prefixText c).length ≤ rounds)
    (hfits : output.length +
      (emitted.length + (remaining upcase base pad prefixText c).length) ≤ kSSizeMax - 1) :
    ∃ c', convert upcase base pad prefixText prefixLength output.length rounds c = some c' ∧
      c'.out.size = c.out.size ∧
      Emitted mem output (emitted ++ remaining upcase base pad prefixText c) c'.out
        c'.discarded := by
  induction rounds generalizing c emitted texts m with
  | zero => exact absurd (List.length_eq_zero_iff.mp (Nat.le_zero.mp hrounds)) hmore
  | succ rounds ih =>
    obtain ⟨ch, hch, hnext, htail, hpad⟩ :=
      @remaining_next upcase base pad prefixText c hbase hc hmore
    rw [hnext, List.length_cons] at hrounds hfits
    obtain ⟨b₁, d₁, r, hmake, hout, hsize, h'⟩ := h.emit (by omega) ch
    have hlength : (emitted ++ [ch]).length = emitted.length + 1 := by simp
    have hassoc : ∀ rest, emitted ++ ch :: rest = emitted ++ [ch] ++ rest := by simp
    have hfewer := h'.fewer
    obtain ⟨texts', m', hsplit'⟩ := hsplit.next htail hpad
    have hready := hc.behindChar hbase
    rw [convert, convertOne_eq hmake hch hout, hnext, hassoc]
    simp only [Option.bind_eq_bind, Option.bind_some]
    by_cases hshortcut : c.padding > 0 ∧ d₁ > 8 * 8 + prefixLength
    · have hlength' := hsplit'.length
      have hfront : front upcase base prefixText (behindChar base c) = [] := by
        by_contra hfront
        have hm := hsplit'.padding hfront
        have hall := congrArg List.length hsplit'.emitted
        rw [hm, List.replicate_zero, List.append_nil] at hall
        omega
      have hrest : remaining upcase base pad prefixText
          { behindChar base c with padding := c.padding - 1 } =
          List.replicate (c.padding - 1) pad := by
        have hsame : front upcase base prefixText
            { behindChar base c with padding := c.padding - 1 } = [] := hfront
        rw [remaining, hsame]
        rfl
      obtain ⟨hnum, hnone⟩ := (front_eq_nil hready rfl).mp hfront
      rw [hrest] at hfits ⊢
      rw [List.length_replicate] at hfits
      have hall := congrArg List.length hsplit'.emitted
      simp only [List.length_append, List.length_singleton, List.length_replicate] at hall
      rw [hsplit'.emitted] at h' ⊢
      have hfill := @Emitting.fill mem output _ _ _ _ m' (c.padding - 1) h' (by omega) (by omega)
      have hcount := h'.count
      rw [incrementCount_of_le (by
        rw [List.length_append, List.length_replicate] at hcount
        omega)] at hfill ⊢
      rw [if_pos hshortcut, if_neg (by dsimp only; omega)]
      exact ⟨_, rfl, hsize, hfill⟩
    · have hready' : Ready base prefixText
          { behindChar base c with out := r.1, discarded := d₁, padding := c.padding - 1 } :=
        ⟨hready.carry, hready.minint, hready.reversePrefix⟩
      have hgoes := @remaining_ne_nil upcase base pad prefixText _ hready' rfl
      have hsame : remaining upcase base pad prefixText
          { behindChar base c with out := r.1, discarded := d₁, padding := c.padding - 1 } =
          remaining upcase base pad prefixText
            { behindChar base c with padding := c.padding - 1 } := rfl
      rw [if_neg hshortcut, ← hsame]
      rw [← hsame] at hrounds hfits
      by_cases hdone : remaining upcase base pad prefixText
          { behindChar base c with out := r.1, discarded := d₁, padding := c.padding - 1 } = []
      · rw [if_neg (fun h => hgoes.mp h hdone), hdone, List.append_nil]
        exact ⟨_, rfl, hsize, h'.toEmitted⟩
      · rw [if_pos (hgoes.mpr hdone)]
        obtain ⟨c', hc', hsize', hemitted⟩ := ih hready' h'
          ⟨hsplit'.emitted, hsplit'.length, hsplit'.padding⟩ hdone (by omega) (by omega)
        exact ⟨c', hc', hsize'.trans hsize, hemitted⟩

/-- The loop and the reversal behind it. -/
lemma Holds.convert {b : Buffer} (h : Holds mem output b) (hbase : 1 < base) {rounds : ℕ}
    (hc : Ready base prefixText c) (hout : c.out = b) (hdiscarded : c.discarded = 0)
    (hnew : c.started = false) (hlength : prefixText.length = prefixLength)
    (hnum : c.num + c.minint < 2 ^ 64) (hrounds : 64 + c.padding + prefixLength ≤ rounds)
    (hfits : output.length + (remaining upcase base pad prefixText c).length ≤ kSSizeMax - 1) :
    ∃ c' mem', Buffer.convert upcase base pad prefixText prefixLength output.length rounds c =
        some c' ∧ reverseBetween c'.out.insertionPoint output.length c'.out.buffer = some mem' ∧
      Holds mem (output ++ (remaining upcase base pad prefixText c).reverse)
        ({ c'.out with buffer := mem' }.incrementCount c'.discarded).1 ∧
      ({ c'.out with buffer := mem' }.incrementCount c'.discarded).1.size = b.size := by
  have hfront : (front upcase base prefixText c).length ≤ 64 + prefixLength := by
    have hdigits : (Nat.digits base (c.num + c.minint)).length ≤ 64 :=
      (Nat.digits_length_le_iff hbase _).mpr (hnum.trans_le (Nat.pow_le_pow_left hbase 64))
    have hle : (prefixText.take c.reversePrefix).length ≤ prefixLength := by
      rw [List.length_take]
      omega
    rw [front, List.length_append, List.length_reverse]
    by_cases hzero : c.num + c.minint = 0
    · simp only [if_pos hzero, hnew, Bool.false_eq_true, if_false, List.length_singleton]
      omega
    · rw [if_neg hzero, List.length_map]
      omega
  have hmore : remaining upcase base pad prefixText c ≠ [] := by
    intro hnil
    have hstarted := started_of_front_eq_nil (List.append_eq_nil_iff.mp hnil).1
    rw [hnew] at hstarted
    exact absurd hstarted Bool.false_ne_true
  have hemitting : Emitting mem output [] c.out c.discarded := by
    rw [hout, hdiscarded]
    exact h.emitting
  have hlen : (remaining upcase base pad prefixText c).length ≤ rounds := by
    rw [remaining, List.length_append, List.length_replicate]
    omega
  obtain ⟨c', hc', hsize, hemitted⟩ := convert_emitted hbase hc hemitting
    (⟨rfl, by simpa using hfront, fun _ => rfl⟩ : Split prefixLength _ _ pad _ [] c [] 0)
    hmore hlen (by rw [List.length_nil, Nat.zero_add]; exact hfits)
  rw [List.nil_append] at hemitted
  obtain ⟨mem', hmem, hholds⟩ := hemitted.reverse hfits
  refine ⟨c', mem', hc', hmem, hholds, ?_⟩
  have hcount := hemitted.count
  rw [incrementCount_of_le (by dsimp only; omega)]
  exact hsize.trans (congrArg Buffer.size hout)

end Convert

/-! ### The whole conversion -/

/-- The absolute value, or the value of the bits. -/
def magnitude (sign : Bool) (i : BitVec 64) : ℕ := if sign then i.toInt.natAbs else i.toNat

/-- The usual text of an integer. -/
def number (sign upcase : Bool) (i : BitVec 64) (base : ℕ) (pad : Byte) (width : ℕ)
    (prefixText : Text) : Text :=
  padded pad width (if sign ∧ i.toInt < 0 then ascii "-" else prefixText)
    (digitsUp upcase base (magnitude sign i)).reverse

section
variable {mem : List Byte} {output : Text} {b : Buffer}

lemma outPrefix_eq (text : Text) (padding : ℕ) (b : Buffer) :
    outPrefix text padding b = (outAll text b).map fun b' => (b', padding - text.length) := by
  induction text generalizing padding b with
  | nil => rfl
  | cons ch text ih =>
    rw [outPrefix, outAll]
    cases b.out ch with
    | none => rfl
    | some r =>
      simp only [Option.bind_eq_bind, Option.bind_some]
      rw [ih, List.length_cons, Nat.sub_sub, Nat.add_comm 1]

lemma magnitude_lt (sign : Bool) (i : BitVec 64) : magnitude sign i < 2 ^ 64 := by
  have hlt := i.isLt
  rw [magnitude, BitVec.toInt_eq_toNat_cond]
  split_ifs <;> omega

lemma remaining_start (upcase : Bool) (base num minint padding : ℕ) (pad : Byte) (text : Text) :
    remaining upcase base pad text
      (⟨b, num, minint, false, text.length, padding, 0⟩ : Conversion) =
    digitsUp upcase base (num + minint) ++ text.reverse ++ List.replicate
      (padding - (text.length + (digitsUp upcase base (num + minint)).length)) pad := by
  have hfront : front upcase base text
      (⟨b, num, minint, false, text.length, padding, 0⟩ : Conversion) =
      digitsUp upcase base (num + minint) ++ text.reverse := by
    simp [front, digitsUp]
  rw [remaining, hfront, List.length_append, List.length_reverse, Nat.add_comm text.length]

lemma Holds.outDigits (h : Holds mem output b) {upcase : Bool} {num minint base padding : ℕ}
    {pad : Byte} {text : Text} (hbase : 1 < base) (hcarry : num % base + minint < base)
    (hnum : num + minint < 2 ^ 64)
    (hfits : output.length + ((digitsUp upcase base (num + minint)).length + text.length +
      (padding - (text.length + (digitsUp upcase base (num + minint)).length))) ≤ kSSizeMax - 1) :
    ∃ r, b.outDigits upcase num minint base pad padding text = some r ∧ r.1.size = b.size ∧
      Holds mem (output ++ (List.replicate
        (padding - (text.length + (digitsUp upcase base (num + minint)).length)) pad ++
        text ++ (digitsUp upcase base (num + minint)).reverse)) r.1 := by
  have hremaining := @remaining_start b upcase base num minint padding pad text
  obtain ⟨c', mem', hconvert, hmem, hholds, hsize⟩ := @Holds.convert mem output
    upcase base pad text text.length ⟨b, num, minint, false, text.length, padding, 0⟩ b h hbase
    (65 + padding + text.length) ⟨hcarry, fun h => absurd h Bool.false_ne_true, le_rfl⟩
    rfl rfl rfl rfl hnum (by dsimp only; omega) (by
      rw [hremaining]
      simpa [Nat.add_assoc] using hfits)
  refine ⟨(({ c'.out with buffer := mem' }.incrementCount c'.discarded).1,
    decide (c'.discarded = 0)), ?_, hsize, ?_⟩
  · rw [Buffer.outDigits, h.count, hconvert]
    simp only [Option.bind_eq_bind, Option.bind_some, hmem]
  · rw [hremaining] at hholds
    simpa using hholds

lemma Holds.outNumber (h : Holds mem output b) {upcase : Bool} {num minint base padding : ℕ}
    {pad : Byte} {prefixText : Text} (hbase : 1 < base) (hcarry : num % base + minint < base)
    (hnum : num + minint < 2 ^ 64)
    (hfits : output.length +
      (padded pad padding prefixText (digitsUp upcase base (num + minint)).reverse).length ≤
        kSSizeMax - 1) :
    ∃ r, b.outNumber upcase num minint base pad padding prefixText = some r ∧ r.1.size = b.size ∧
      Holds mem (output ++
        padded pad padding prefixText (digitsUp upcase base (num + minint)).reverse) r.1 := by
  rw [padded, List.length_reverse] at hfits ⊢
  rw [Buffer.outNumber]
  by_cases hzeros : pad = char '0'
  · -- the prefix stands before the zeros, the loop has none
    rw [if_pos hzeros] at hfits ⊢
    simp only [List.length_append, List.length_replicate, List.length_reverse] at hfits
    obtain ⟨b₁, hall, hsize, h₁⟩ := @Holds.outAll mem output b prefixText h (by omega)
    obtain ⟨r, hr, hsize', hholds⟩ := @Holds.outDigits mem _ b₁ h₁ upcase num minint base
      (padding - prefixText.length) pad [] hbase hcarry hnum (by
        rw [List.length_append, List.length_nil]
        omega)
    rw [outPrefix_eq, hall]
    refine ⟨r, hr, hsize'.trans hsize, ?_⟩
    rw [List.length_nil, Nat.zero_add, Nat.sub_sub] at hholds
    rw [if_pos hzeros]
    simpa using hholds
  · rw [if_neg hzeros] at hfits ⊢
    simp only [List.length_append, List.length_replicate, List.length_reverse] at hfits
    rw [if_neg hzeros]
    exact h.outDigits hbase hcarry hnum (by omega)

theorem Holds.iToASCII (h : Holds mem output b) {sign upcase : Bool} {i : BitVec 64} {base : ℕ}
    {pad : Byte} {padding : ℕ} {prefixText : Text} (hbase : 1 < base) (hsign : sign → base = 10)
    (hfits : output.length + (number sign upcase i base pad padding prefixText).length ≤
      kSSizeMax - 1) :
    ∃ r, b.iToASCII sign upcase i base pad padding prefixText = some r ∧ r.1.size = b.size ∧
      Holds mem (output ++ number sign upcase i base pad padding prefixText) r.1 := by
  have hlt := magnitude_lt sign i
  have hmod : ∀ num, num % base + 0 < base := fun num => Nat.mod_lt num (by omega)
  rw [Buffer.iToASCII]
  by_cases hneg : sign ∧ i.toInt < 0
  · rw [number, if_pos hneg] at hfits ⊢
    rw [if_pos hneg]
    obtain ⟨rfl, hlt0⟩ := hneg
    by_cases hmin : i = BitVec.intMin 64
    · subst hmin
      have hparts : magnitude true (BitVec.intMin 64) = (-(BitVec.intMin 64 + 1)).toNat + 1 := by
        decide
      rw [if_pos rfl]
      rw [hparts] at hfits hlt ⊢
      rw [hsign rfl] at hfits ⊢
      exact h.outNumber (by decide) (by decide) hlt hfits
    · have hparts : magnitude true i = (-i).toNat + 0 := (toNat_neg_of_neg hlt0).symm
      rw [if_neg hmin]
      rw [hparts] at hfits hlt ⊢
      exact h.outNumber hbase (hmod _) hlt hfits
  · have hparts : magnitude sign i = i.toNat + 0 := by
      cases sign with
      | false => rfl
      | true =>
        have hle := i.isLt
        have hpos : 0 ≤ i.toInt := not_lt.mp fun hlt => hneg ⟨rfl, hlt⟩
        rw [magnitude, if_pos rfl]
        rw [BitVec.toInt_eq_toNat_cond] at hpos ⊢
        split_ifs at hpos ⊢ <;> omega
    rw [number, if_neg hneg] at hfits ⊢
    rw [if_neg hneg]
    rw [hparts] at hfits hlt ⊢
    exact h.outNumber hbase (hmod _) hlt hfits

end

end Chromium.SafeSprintf.Buffer
