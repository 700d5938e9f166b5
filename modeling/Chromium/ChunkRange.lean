import Chromium.PrefixSet
import Chromium.StringNumber

/-!
# Chunk ranges of safe browsing

Chunk numbers are sent as ranges in a string such as `1-100,398,415` and read back. Loops over
`int`s take fuel, since they do not all end.
-/
namespace Chromium.SafeBrowsing

open StringNumber WireFormat

/-- A loop ends with `result`: from some amount of fuel on it gives it. -/
def Returns {α : Type} (loop : ℕ → Option α) (result : α) : Prop :=
  ∃ bound, ∀ fuel, bound ≤ fuel → loop fuel = some result

structure ChunkRange where
  start : ℤ
  stop : ℤ
  deriving DecidableEq, Repr

/-! ### `ChunksToRangeString` -/

/-- The loop over duplicates and increments. -/
def extendRange (rangeEnd : ℤ) : List ℤ → ℤ × List ℤ
  | [] => (rangeEnd, [])
  | c :: iter =>
    if c ≤ toInt32 (rangeEnd + 1) then extendRange c iter else (rangeEnd, c :: iter)

def appendRange (rangeBegin rangeEnd : ℤ) (result : Text) : Text :=
  let result := if result = [] then result else result ++ [char ',']
  let result := result ++ formatInt rangeBegin
  if rangeEnd > rangeBegin then result ++ (char '-' :: formatInt rangeEnd) else result

def rangeStringLoop : ℕ → List ℤ → Text → Option Text
  | 0, _, _ => none
  | _ + 1, [], result => some result
  | fuel + 1, c :: iter, result =>
    let (rangeEnd, iter) := extendRange c (c :: iter)
    rangeStringLoop fuel iter (appendRange c rangeEnd result)

def chunksToRangeString (fuel : ℕ) (chunks : List ℤ) : Option Text :=
  rangeStringLoop fuel (chunks.mergeSort (· ≤ ·)) []

/-! ### `RangesToChunks` -/

def expandRange (stop : ℤ) : ℕ → ℤ → List ℤ → Option (List ℤ)
  | 0, _, _ => none
  | fuel + 1, chunk, chunks =>
    if chunk ≤ stop then expandRange stop fuel (toInt32 (chunk + 1)) (chunks ++ [chunk])
    else some chunks

def rangesToChunks (fuel : ℕ) : List ChunkRange → List ℤ → Option (List ℤ)
  | [], chunks => some chunks
  | range :: ranges, chunks =>
    (expandRange range.stop fuel range.start chunks).bind (rangesToChunks fuel ranges)

/-! ### `StringToRanges` -/

/-- `TrimWhitespace` on both sides. -/
def trimWhitespace (text : Text) : Text :=
  ((text.dropWhile localIsWhitespace).reverse.dropWhile localIsWhitespace).reverse

/-- The loop of `SplitStringT`, with the characters behind the last separator. -/
def splitLoop (separator : Byte) : Text → List Text → Text → List Text
  | tmp, r, [] =>
    let tmp := trimWhitespace tmp
    if r ≠ [] ∨ tmp ≠ [] then r ++ [tmp] else r
  | tmp, r, c :: str =>
    if c = separator then splitLoop separator [] (r ++ [trimWhitespace tmp]) str
    else splitLoop separator (tmp ++ [c]) r str

def splitString (str : Text) (separator : Byte) : List Text := splitLoop separator [] [] str

/-- The digits at the front of a text behind those of `n`. -/
def digitsValue (n : ℕ) : Text → ℕ
  | [] => n
  | c :: str =>
    match charToDigit 10 c with
    | none => n
    | some digit => digitsValue (n * 10 + digit) str

/-- `atoi`: a `long` that is cut to an `int`. -/
def atoi (str : Text) : ℤ :=
  match str.dropWhile localIsWhitespace with
  | [] => 0
  | c :: str =>
    if c = char '-' then toInt32 (max (-digitsValue 0 str) (-2 ^ 63))
    else if c = char '+' then toInt32 (min (digitsValue 0 str) (2 ^ 63 - 1))
    else toInt32 (min (digitsValue 0 (c :: str)) (2 ^ 63 - 1))

/-- The loop over the parts. There is no result when the first of no parts is read. -/
def rangesLoop : List Text → List ChunkRange → Option (Bool × List ChunkRange)
  | [], ranges => some (true, ranges)
  | part :: chunkParts, ranges =>
    match splitString part (char '-') with
    | [] => none
    | first :: rest =>
      let start := atoi first
      let stop := match rest with
        | [second] => atoi second
        | _ => start
      if start = 0 ∨ stop = 0 then some (false, [])
      else rangesLoop chunkParts (ranges ++ [⟨start, stop⟩])

def stringToRanges (input : Text) (ranges : List ChunkRange) : Option (Bool × List ChunkRange) :=
  rangesLoop (splitString input (char ',')) ranges

/-! ### `IsChunkInRange` -/

def searchLoop (chunkNumber : ℤ) (ranges : List ChunkRange) : ℕ → ℤ → ℤ → Option Bool
  | 0, _, _ => none
  | fuel + 1, low, high =>
    if low ≤ high then
      let mid := (toUnsigned low + toUnsigned high) % 2 ^ 32 / 2
      match ranges[mid]? with
      | none => none
      | some chunk =>
        if chunk.stop ≥ chunkNumber ∧ chunk.start ≤ chunkNumber then some true
        else if chunk.stop < chunkNumber then searchLoop chunkNumber ranges fuel (mid + 1) high
        else searchLoop chunkNumber ranges fuel low (mid - 1)
    else some false

def isChunkInRange (fuel : ℕ) (chunkNumber : ℤ) (ranges : List ChunkRange) : Option Bool :=
  if ranges = [] then some false
  else searchLoop chunkNumber ranges fuel 0 (toInt32 (ranges.length - 1))

/-! ### Ranges of chunks -/

/-- The ranges hold these numbers, none of them the greatest `int`, with a gap between two. -/
structure Merged (ranges : List ChunkRange) (chunks : List ℤ) : Prop where
  apart : ranges.Pairwise fun range next => range.stop + 1 < next.start
  inside : ∀ range ∈ ranges, 0 < range.start ∧ range.start ≤ range.stop ∧ range.stop < kint32max
  mem_iff : ∀ c, (∃ range ∈ ranges, range.start ≤ c ∧ c ≤ range.stop) ↔ c ∈ chunks

lemma toInt32_of_range {n : ℤ} (h : IsInt32 n) : toInt32 n = n := by
  obtain ⟨hlow, hhigh⟩ := h
  unfold toInt32
  omega

lemma isInt32_toInt32 (n : ℤ) : IsInt32 (toInt32 n) := by
  unfold toInt32 IsInt32
  omega

/-- The numbers that one range takes from the sorted ones, and those it leaves. -/
lemma extendRange_spec (rangeEnd : ℤ) (iter : List ℤ) (hpos : 0 < rangeEnd)
    (hmax : rangeEnd < kint32max) (hsorted : (rangeEnd :: iter).Pairwise (· ≤ ·))
    (hlt : ∀ c ∈ iter, c < kint32max) :
    ∃ e taken rest, extendRange rangeEnd iter = (e, rest) ∧ iter = taken ++ rest ∧
      rangeEnd ≤ e ∧ e < kint32max ∧ (∀ c ∈ taken, rangeEnd ≤ c ∧ c ≤ e) ∧
      (∀ c, rangeEnd < c → c ≤ e → c ∈ taken) ∧ ∀ c ∈ rest, e + 1 < c := by
  induction iter generalizing rangeEnd with
  | nil =>
    refine ⟨rangeEnd, [], [], rfl, rfl, le_rfl, hmax, by simp, ?_, by simp⟩
    intro c hgt hle
    omega
  | cons c iter ih =>
    obtain ⟨hfirst, hrest⟩ := List.pairwise_cons.mp hsorted
    have hge := hfirst c List.mem_cons_self
    have hmaxc := hlt c List.mem_cons_self
    have hnext : toInt32 (rangeEnd + 1) = rangeEnd + 1 := by
      apply toInt32_of_range
      unfold kint32max at hmax
      constructor <;> omega
    rw [extendRange, hnext]
    split_ifs with hle
    · obtain ⟨e, taken, rest, hrun, rfl, hge', hmax', htaken, hall, hgap⟩ :=
        ih c (by omega) hmaxc hrest fun x hx => hlt x (List.mem_cons_of_mem _ hx)
      refine ⟨e, c :: taken, rest, hrun, rfl, hge.trans hge', hmax', ?_, ?_, hgap⟩
      · intro x hx
        cases hx with
        | head => exact ⟨hge, hge'⟩
        | tail _ hx =>
          have hbounds := htaken x hx
          exact ⟨hge.trans hbounds.1, hbounds.2⟩
      · intro x hgt hxe
        by_cases hxc : x = c
        · rw [hxc]
          exact List.mem_cons_self
        · exact List.mem_cons_of_mem _ (hall x (by omega) hxe)
    · refine ⟨rangeEnd, [], c :: iter, rfl, rfl, le_rfl, hmax, by simp, ?_, ?_⟩
      · intro x hgt hxe
        omega
      · intro x hx
        cases hx with
        | head => omega
        | tail _ hx =>
          have hcx := (List.pairwise_cons.mp hrest).1 x hx
          omega

/-- The ranges of sorted numbers, and the text they make. -/
lemma rangeStringLoop_spec (iter : List ℤ) (hpos : ∀ c ∈ iter, 0 < c)
    (hlt : ∀ c ∈ iter, c < kint32max) (hsorted : iter.Pairwise (· ≤ ·)) :
    ∃ ranges, Merged ranges iter ∧ ∀ fuel result, iter.length < fuel →
      rangeStringLoop fuel iter result =
        some (ranges.foldl (fun text range => appendRange range.start range.stop text) result) := by
  induction hlength : iter.length using Nat.strong_induction_on generalizing iter with
  | _ n ih =>
    cases iter with
    | nil =>
      refine ⟨[], ⟨List.Pairwise.nil, by simp, by simp⟩, ?_⟩
      intro fuel result hfuel
      obtain ⟨fuel, rfl⟩ := Nat.exists_eq_succ_of_ne_zero (by omega : fuel ≠ 0)
      rfl
    | cons c iter =>
      have hposc := hpos c List.mem_cons_self
      have hmaxc := hlt c List.mem_cons_self
      have hself : (c :: c :: iter).Pairwise (· ≤ ·) := by
        refine List.pairwise_cons.mpr ⟨?_, hsorted⟩
        intro x hx
        cases hx with
        | head => exact le_rfl
        | tail _ hx => exact (List.pairwise_cons.mp hsorted).1 x hx
      obtain ⟨e, taken, rest, hrun, hsplit, hge, hmax, htaken, hall, hgap⟩ :=
        extendRange_spec c (c :: iter) hposc hmaxc hself hlt
      -- the first number is taken by its own range
      have hctaken : c ∈ taken := by
        have hmem : c ∈ taken ++ rest := hsplit ▸ List.mem_cons_self
        cases List.mem_append.mp hmem with
        | inl hmem => exact hmem
        | inr hmem =>
          have hcgap := hgap c hmem
          omega
      have hshorter : rest.length < n := by
        have htotal := congrArg List.length hsplit
        rw [List.length_append] at htotal
        have hposTaken := List.length_pos_of_mem hctaken
        omega
      have hmemRest : ∀ x ∈ rest, x ∈ c :: iter := fun x hx => by
        rw [hsplit]
        exact List.mem_append_right _ hx
      have hsortedRest : rest.Pairwise (· ≤ ·) := by
        rw [hsplit] at hsorted
        exact (List.pairwise_append.mp hsorted).2.1
      obtain ⟨ranges, hmerged, hloop⟩ := ih rest.length hshorter rest
        (fun x hx => hpos x (hmemRest x hx)) (fun x hx => hlt x (hmemRest x hx)) hsortedRest rfl
      refine ⟨⟨c, e⟩ :: ranges, ⟨?_, ?_, ?_⟩, ?_⟩
      · refine List.pairwise_cons.mpr ⟨?_, hmerged.apart⟩
        intro range hrange
        have hin := hmerged.inside range hrange
        exact hgap range.start ((hmerged.mem_iff range.start).mp ⟨range, hrange, le_rfl, hin.2.1⟩)
      · intro range hrange
        cases hrange with
        | head => exact ⟨hposc, hge, hmax⟩
        | tail _ hrange => exact hmerged.inside range hrange
      · intro x
        rw [hsplit, List.mem_append, ← hmerged.mem_iff x, List.exists_mem_cons_iff]
        apply or_congr_left
        constructor
        · rintro ⟨hlow, hhigh⟩
          by_cases hxc : x = c
          · rw [hxc]
            exact hctaken
          · exact hall x (lt_of_le_of_ne hlow (Ne.symm hxc)) hhigh
        · exact htaken x
      · intro fuel result hfuel
        obtain ⟨fuel, rfl⟩ := Nat.exists_eq_succ_of_ne_zero (by omega : fuel ≠ 0)
        rw [rangeStringLoop, hrun, List.foldl_cons]
        exact hloop fuel _ (by omega)

/-! ### The text of ranges -/

def rangeText (range : ChunkRange) : Text :=
  if range.stop > range.start then formatInt range.start ++ char '-' :: formatInt range.stop
  else formatInt range.start

lemma appendRange_nil (range : ChunkRange) :
    appendRange range.start range.stop [] = rangeText range := by
  simp [appendRange, rangeText]

lemma appendRange_of_ne_nil (range : ChunkRange) {text : Text} (h : text ≠ []) :
    appendRange range.start range.stop text = text ++ char ',' :: rangeText range := by
  simp only [appendRange, rangeText, h, if_false]
  split_ifs <;> simp

lemma foldl_appendRange (ranges : List ChunkRange) {text : Text} (h : text ≠ []) :
    ranges.foldl (fun text range => appendRange range.start range.stop text) text =
      text ++ ranges.flatMap fun range => char ',' :: rangeText range := by
  induction ranges generalizing text with
  | nil => simp
  | cons range ranges ih =>
    rw [List.foldl_cons, appendRange_of_ne_nil range h, ih (by simp), List.flatMap_cons,
      List.append_assoc]

/-- A part that is found again when it is split off. -/
structure Plain (separator : Byte) (part : Text) : Prop where
  ne_nil : part ≠ []
  no_separator : ∀ c ∈ part, c ≠ separator
  no_space : ∀ c ∈ part, localIsWhitespace c = false

lemma trimWhitespace_of_no_space {text : Text} (h : ∀ c ∈ text, localIsWhitespace c = false) :
    trimWhitespace text = text := by
  have hfront : text.dropWhile localIsWhitespace = text := by
    cases text with
    | nil => rfl
    | cons c text => rw [List.dropWhile_cons, h c List.mem_cons_self]; rfl
  have hback : text.reverse.dropWhile localIsWhitespace = text.reverse := by
    cases hrev : text.reverse with
    | nil => rfl
    | cons c rest =>
      have hc : c ∈ text := List.mem_reverse.mp (hrev ▸ List.mem_cons_self)
      rw [List.dropWhile_cons, h c hc]
      rfl
  rw [trimWhitespace, hfront, hback, List.reverse_reverse]

lemma splitLoop_separator {separator : Byte} {part : Text} (h : ∀ c ∈ part, c ≠ separator)
    (tmp : Text) (r : List Text) (str : Text) :
    splitLoop separator tmp r (part ++ separator :: str) =
      splitLoop separator [] (r ++ [trimWhitespace (tmp ++ part)]) str := by
  induction part generalizing tmp with
  | nil => simp [splitLoop]
  | cons c part ih =>
    have htail := ih (fun x hx => h x (List.mem_cons_of_mem _ hx)) (tmp ++ [c])
    rw [List.cons_append, splitLoop, if_neg (h c List.mem_cons_self), htail, List.append_assoc,
      List.singleton_append]

lemma splitLoop_end {separator : Byte} {part : Text} (h : ∀ c ∈ part, c ≠ separator)
    (tmp : Text) (r : List Text) (hne : trimWhitespace (tmp ++ part) ≠ []) :
    splitLoop separator tmp r part = r ++ [trimWhitespace (tmp ++ part)] := by
  induction part generalizing tmp with
  | nil =>
    rw [List.append_nil] at hne ⊢
    simp [splitLoop, hne]
  | cons c part ih =>
    have hmove : tmp ++ c :: part = tmp ++ [c] ++ part := List.append_cons _ _ _
    rw [hmove] at hne ⊢
    rw [splitLoop, if_neg (h c List.mem_cons_self),
      ih (fun x hx => h x (List.mem_cons_of_mem _ hx)) (tmp ++ [c]) hne]

/-- Parts that were put together with separators. -/
lemma splitString_joined {separator : Byte} {first : Text} {rest : List Text}
    (h : ∀ part ∈ first :: rest, Plain separator part) :
    splitString (first ++ rest.flatMap fun part => separator :: part) separator =
      first :: rest := by
  have hloop : ∀ r, splitLoop separator [] r
      (first ++ rest.flatMap fun part => separator :: part) = r ++ first :: rest := by
    induction rest generalizing first with
    | nil =>
      intro r
      have hfirst := h first List.mem_cons_self
      have htrim : trimWhitespace ([] ++ first) = first :=
        trimWhitespace_of_no_space hfirst.no_space
      have hne : trimWhitespace ([] ++ first) ≠ [] := by
        rw [htrim]
        exact hfirst.ne_nil
      rw [List.flatMap_nil, List.append_nil, splitLoop_end hfirst.no_separator [] r hne, htrim]
    | cons part rest ih =>
      intro r
      have hfirst := h first List.mem_cons_self
      have htrim : trimWhitespace ([] ++ first) = first :=
        trimWhitespace_of_no_space hfirst.no_space
      rw [List.flatMap_cons, List.cons_append, splitLoop_separator hfirst.no_separator, htrim,
        ih fun x hx => h x (List.mem_cons_of_mem _ hx)]
      simp
  exact hloop []

/-! ### Numbers in the text -/

lemma formatInt_eq {n : ℤ} (h : 0 < n) :
    formatInt n = (decimalDigits n.toNat).map fun d => BitVec.ofNat 8 (48 + d) := by
  have hneg : ¬ n < 0 := by omega
  have habs : n.natAbs = n.toNat := by omega
  rw [formatInt, if_neg hneg, decimal_eq, habs]

lemma formatInt_ne_nil {n : ℤ} (h : 0 < n) : formatInt n ≠ [] := by
  obtain ⟨d, ds, hds, -⟩ := decimalDigits_head n.toNat
  rw [formatInt_eq h, hds]
  exact List.cons_ne_nil _ _

lemma mem_formatInt {n : ℤ} (h : 0 < n) {c : Byte} (hc : c ∈ formatInt n) :
    48 ≤ c.toNat ∧ c.toNat ≤ 57 := by
  rw [formatInt_eq h] at hc
  obtain ⟨d, hd, rfl⟩ := List.mem_map.mp hc
  have hlt := decimalDigits_lt hd
  rw [BitVec.toNat_ofNat]
  omega

lemma digitsValue_digits {ds : List ℕ} (h : ∀ d ∈ ds, d < 10) (n : ℕ) :
    digitsValue n (ds.map fun d => BitVec.ofNat 8 (48 + d)) = behind 10 n ds := by
  induction ds generalizing n with
  | nil => rfl
  | cons d ds ih =>
    rw [List.map_cons, digitsValue, charToDigit_ten (h d List.mem_cons_self)]
    exact ih (fun x hx => h x (List.mem_cons_of_mem _ hx)) (n * 10 + d)

lemma digitsValue_formatInt {n : ℤ} (h : 0 < n) : digitsValue 0 (formatInt n) = n.toNat := by
  rw [formatInt_eq h, digitsValue_digits fun d => decimalDigits_lt, behind_decimalDigits]

/-- A byte of a number is neither a separator nor a sign nor white space. -/
lemma digit_plain {c : Byte} (h : 48 ≤ c.toNat ∧ c.toNat ≤ 57) :
    c ≠ char ',' ∧ c ≠ char '-' ∧ c ≠ char '+' ∧ localIsWhitespace c = false := by
  refine ⟨?_, ?_, ?_, ?_⟩
  · rintro rfl
    exact absurd h (by decide)
  · rintro rfl
    exact absurd h (by decide)
  · rintro rfl
    exact absurd h (by decide)
  · simp only [localIsWhitespace, decide_eq_false_iff_not]
    omega

lemma atoi_formatInt {n : ℤ} (hpos : 0 < n) (hmax : n ≤ kint32max) : atoi (formatInt n) = n := by
  have hvalue := digitsValue_formatInt hpos
  have hmem := fun c => mem_formatInt (c := c) hpos
  have hne := formatInt_ne_nil hpos
  unfold kint32max at hmax
  cases htext : formatInt n with
  | nil => exact absurd htext hne
  | cons c str =>
    have hdigit := digit_plain (hmem c (htext ▸ List.mem_cons_self))
    rw [htext] at hvalue
    rw [atoi, List.dropWhile_cons, hdigit.2.2.2]
    simp only [Bool.false_eq_true, if_false, if_neg hdigit.2.1, if_neg hdigit.2.2.1, hvalue]
    have hmin : min ((n.toNat : ℕ) : ℤ) (2 ^ 63 - 1) = n := by omega
    rw [hmin]
    exact toInt32_of_range ⟨by omega, by omega⟩

/-! ### Reading the ranges -/

/-- A range of numbers that chunks can have. -/
def ChunkRange.Positive (range : ChunkRange) : Prop :=
  0 < range.start ∧ range.start ≤ range.stop ∧ range.stop ≤ kint32max

lemma plain_formatInt {n : ℤ} (h : 0 < n) : Plain (char '-') (formatInt n) where
  ne_nil := formatInt_ne_nil h
  no_separator := fun _ hc => (digit_plain (mem_formatInt h hc)).2.1
  no_space := fun _ hc => (digit_plain (mem_formatInt h hc)).2.2.2

lemma plain_rangeText {range : ChunkRange} (h : range.Positive) :
    Plain (char ',') (rangeText range) := by
  obtain ⟨hpos, hle, -⟩ := h
  have hstop : 0 < range.stop := by omega
  have hbytes : ∀ c ∈ rangeText range, c ≠ char ',' ∧ localIsWhitespace c = false := by
    intro c hc
    rw [rangeText] at hc
    split_ifs at hc
    · cases List.mem_append.mp hc with
      | inl hc =>
        have hdigit := digit_plain (mem_formatInt hpos hc)
        exact ⟨hdigit.1, hdigit.2.2.2⟩
      | inr hc =>
        cases hc with
        | head => decide
        | tail _ hc =>
          have hdigit := digit_plain (mem_formatInt hstop hc)
          exact ⟨hdigit.1, hdigit.2.2.2⟩
    · have hdigit := digit_plain (mem_formatInt hpos hc)
      exact ⟨hdigit.1, hdigit.2.2.2⟩
  refine ⟨?_, fun c hc => (hbytes c hc).1, fun c hc => (hbytes c hc).2⟩
  rw [rangeText]
  split_ifs
  · simp
  · exact formatInt_ne_nil hpos

lemma splitString_rangeText {range : ChunkRange} (h : range.Positive) :
    splitString (rangeText range) (char '-') =
      if range.stop > range.start then [formatInt range.start, formatInt range.stop]
      else [formatInt range.start] := by
  obtain ⟨hpos, hle, -⟩ := h
  have hstop : 0 < range.stop := by omega
  rw [rangeText]
  split_ifs
  · have hparts : ∀ part ∈ [formatInt range.start, formatInt range.stop],
        Plain (char '-') part := by
      intro part hpart
      simp only [List.mem_cons, List.not_mem_nil, or_false] at hpart
      cases hpart with
      | inl hpart => exact hpart ▸ plain_formatInt hpos
      | inr hpart => exact hpart ▸ plain_formatInt hstop
    have hsplit := splitString_joined hparts
    simpa using hsplit
  · have hparts : ∀ part ∈ [formatInt range.start], Plain (char '-') part := by
      intro part hpart
      rw [List.mem_singleton.mp hpart]
      exact plain_formatInt hpos
    have hsplit := splitString_joined hparts
    simpa using hsplit

lemma rangesLoop_rangeText {ranges : List ChunkRange} (h : ∀ range ∈ ranges, range.Positive)
    (before : List ChunkRange) :
    rangesLoop (ranges.map rangeText) before = some (true, before ++ ranges) := by
  induction ranges generalizing before with
  | nil => simp [rangesLoop]
  | cons range ranges ih =>
    have hrange := h range List.mem_cons_self
    obtain ⟨hpos, hle, hmax⟩ := hrange
    have hstart := atoi_formatInt hpos (hle.trans hmax)
    have hstop := atoi_formatInt (hpos.trans_le hle) hmax
    have hrest := ih (fun x hx => h x (List.mem_cons_of_mem _ hx)) (before ++ [range])
    rw [List.append_assoc, List.singleton_append] at hrest
    have hne : ¬ (range.start = 0 ∨ range.stop = 0) := by omega
    rw [List.map_cons, rangesLoop, splitString_rangeText (h range List.mem_cons_self)]
    split_ifs with hlt
    · simp only [hstart, hstop, if_neg hne]
      exact hrest
    · have heq : range.start = range.stop := by omega
      simp only [hstart, or_self, if_neg hpos.ne']
      have hrangeEq : (⟨range.start, range.start⟩ : ChunkRange) = range := by
        obtain ⟨start, stop⟩ := range
        simpa using heq
      rw [hrangeEq]
      exact hrest

/-- The text of ranges is read back. -/
lemma stringToRanges_text {ranges : List ChunkRange} (h : ∀ range ∈ ranges, range.Positive) :
    stringToRanges
      (ranges.foldl (fun text range => appendRange range.start range.stop text) []) [] =
        some (true, ranges) := by
  cases ranges with
  | nil => rfl
  | cons range ranges =>
    have hplain : ∀ part ∈ rangeText range :: ranges.map rangeText, Plain (char ',') part := by
      intro part hpart
      rw [← List.map_cons] at hpart
      obtain ⟨r, hr, rfl⟩ := List.mem_map.mp hpart
      exact plain_rangeText (h r hr)
    have hne := (hplain _ List.mem_cons_self).ne_nil
    have hsplit := splitString_joined hplain
    rw [List.flatMap_map, ← List.map_cons] at hsplit
    rw [List.foldl_cons, appendRange_nil, foldl_appendRange ranges hne, stringToRanges, hsplit,
      rangesLoop_rangeText h, List.nil_append]

/-! ### Expanding the ranges -/

/-- The numbers from `start` on. -/
def numbersFrom (start : ℤ) (count : ℕ) : List ℤ := (List.range count).map fun (i : ℕ) => start + i

lemma numbersFrom_succ (start : ℤ) (count : ℕ) :
    numbersFrom start (count + 1) = start :: numbersFrom (start + 1) count := by
  simp only [numbersFrom, List.range_succ_eq_map, List.map_cons, List.map_map, Nat.cast_zero,
    add_zero, List.cons.injEq, true_and]
  apply List.map_congr_left
  intro i _
  simp only [Function.comp_apply, Nat.cast_succ]
  ring

lemma mem_numbersFrom {start c : ℤ} {count : ℕ} :
    c ∈ numbersFrom start count ↔ start ≤ c ∧ c < start + count := by
  simp only [numbersFrom, List.mem_map, List.mem_range]
  constructor
  · rintro ⟨i, hi, rfl⟩
    omega
  · rintro ⟨hlow, hhigh⟩
    exact ⟨(c - start).toNat, by omega, by omega⟩

lemma pairwise_numbersFrom (start : ℤ) (count : ℕ) :
    (numbersFrom start count).Pairwise (· < ·) := by
  rw [numbersFrom, List.pairwise_map]
  exact List.pairwise_lt_range.imp fun h => by omega

def ChunkRange.numbers (range : ChunkRange) : List ℤ :=
  numbersFrom range.start (range.stop + 1 - range.start).toNat

lemma ChunkRange.mem_numbers {range : ChunkRange} {c : ℤ} :
    c ∈ range.numbers ↔ range.start ≤ c ∧ c ≤ range.stop := by
  rw [ChunkRange.numbers, mem_numbersFrom]
  omega

/-- Below the greatest `int` the loop over a range ends. -/
lemma expandRange_spec (stop : ℤ) (hstop : stop < kint32max) (fuel : ℕ) (chunk : ℤ)
    (hpos : 0 < chunk) (hle : chunk ≤ stop + 1) (hfuel : (stop + 1 - chunk).toNat < fuel)
    (chunks : List ℤ) :
    expandRange stop fuel chunk chunks =
      some (chunks ++ numbersFrom chunk (stop + 1 - chunk).toNat) := by
  induction fuel generalizing chunk chunks with
  | zero => omega
  | succ fuel ih =>
    rw [expandRange]
    split_ifs with hin
    · have hnext : toInt32 (chunk + 1) = chunk + 1 := by
        apply toInt32_of_range
        unfold kint32max at hstop
        constructor <;> omega
      have hcount : (stop + 1 - chunk).toNat = (stop + 1 - (chunk + 1)).toNat + 1 := by omega
      rw [hnext, ih (chunk + 1) (by omega) (by omega) (by omega), hcount, numbersFrom_succ,
        List.append_assoc, List.singleton_append]
    · have hzero : (stop + 1 - chunk).toNat = 0 := by omega
      rw [hzero]
      simp [numbersFrom]

lemma rangesToChunks_spec {ranges : List ChunkRange}
    (h : ∀ range ∈ ranges, 0 < range.start ∧ range.start ≤ range.stop ∧ range.stop < kint32max)
    {fuel : ℕ} (hfuel : 2 ^ 31 ≤ fuel) (chunks : List ℤ) :
    rangesToChunks fuel ranges chunks = some (chunks ++ ranges.flatMap ChunkRange.numbers) := by
  induction ranges generalizing chunks with
  | nil => simp [rangesToChunks]
  | cons range ranges ih =>
    obtain ⟨hpos, hle, hmax⟩ := h range List.mem_cons_self
    have hshort : (range.stop + 1 - range.start).toNat < fuel := by
      have hbound : range.stop < 2 ^ 31 - 1 := hmax
      omega
    rw [rangesToChunks, expandRange_spec range.stop hmax fuel range.start hpos (by omega) hshort,
      Option.bind_some, ih fun x hx => h x (List.mem_cons_of_mem _ hx)]
    simp [ChunkRange.numbers]

/-- Every `int` is inside a range that goes up to the greatest one, so the loop does not end. -/
lemma expandRange_max (fuel : ℕ) (chunk : ℤ) (hchunk : IsInt32 chunk) (chunks : List ℤ) :
    expandRange kint32max fuel chunk chunks = none := by
  induction fuel generalizing chunk chunks with
  | zero => rfl
  | succ fuel ih =>
    have hle : chunk ≤ kint32max := by
      have hhigh := hchunk.2
      unfold kint32max
      omega
    rw [expandRange, if_pos hle]
    exact ih _ (isInt32_toInt32 _) _

lemma expandRange_not_max {stop : ℤ} (hstop : IsInt32 stop) (fuel : ℕ) {chunk : ℤ}
    (hchunk : IsInt32 chunk) {chunks : List ℤ} (hnot : kint32max ∉ chunks) {numbers : List ℤ}
    (hrun : expandRange stop fuel chunk chunks = some numbers) : kint32max ∉ numbers := by
  by_cases hmax : stop = kint32max
  · rw [hmax, expandRange_max fuel chunk hchunk] at hrun
    cases hrun
  have hlt : stop < kint32max := by
    have hhigh := hstop.2
    unfold kint32max at hmax ⊢
    omega
  induction fuel generalizing chunk chunks with
  | zero => cases hrun
  | succ fuel ih =>
    rw [expandRange] at hrun
    split_ifs at hrun with hin
    · refine ih (isInt32_toInt32 _) ?_ hrun
      intro hmem
      cases List.mem_append.mp hmem with
      | inl hmem => exact hnot hmem
      | inr hmem =>
        have heq := List.mem_singleton.mp hmem
        omega
    · cases hrun
      exact hnot

def ChunkRange.IsInt (range : ChunkRange) : Prop := IsInt32 range.start ∧ IsInt32 range.stop

/-- When all loops end, the greatest `int` is not among the numbers. -/
lemma rangesToChunks_not_max {ranges : List ChunkRange} (h : ∀ range ∈ ranges, range.IsInt)
    (fuel : ℕ) {chunks : List ℤ} (hnot : kint32max ∉ chunks) {numbers : List ℤ}
    (hrun : rangesToChunks fuel ranges chunks = some numbers) : kint32max ∉ numbers := by
  induction ranges generalizing chunks with
  | nil =>
    cases hrun
    exact hnot
  | cons range ranges ih =>
    rw [rangesToChunks, Option.bind_eq_some_iff] at hrun
    obtain ⟨expanded, hrange, hrest⟩ := hrun
    have hint := h range List.mem_cons_self
    exact ih (fun x hx => h x (List.mem_cons_of_mem _ hx))
      (expandRange_not_max hint.2 fuel hint.1 hnot hrange) hrest

lemma isInt32_atoi (str : Text) : IsInt32 (atoi str) := by
  unfold atoi
  split
  · decide
  · split_ifs <;> exact isInt32_toInt32 _

lemma rangesLoop_isInt {parts : List Text} {before ranges : List ChunkRange} {ok : Bool}
    (hbefore : ∀ range ∈ before, range.IsInt)
    (hrun : rangesLoop parts before = some (ok, ranges)) : ∀ range ∈ ranges, range.IsInt := by
  induction parts generalizing before with
  | nil =>
    cases hrun
    exact hbefore
  | cons part parts ih =>
    rw [rangesLoop] at hrun
    cases hsplit : splitString part (char '-') with
    | nil =>
      rw [hsplit] at hrun
      cases hrun
    | cons first rest =>
      rw [hsplit] at hrun
      simp only at hrun
      generalize hstop : (match rest with
        | [second] => atoi second
        | _ => atoi first) = stop at hrun
      split_ifs at hrun with hzero
      · cases hrun
        exact fun _ hr => absurd hr List.not_mem_nil
      · refine ih ?_ hrun
        intro range hr
        cases List.mem_append.mp hr with
        | inl hr => exact hbefore range hr
        | inr hr =>
          rw [List.mem_singleton.mp hr]
          refine ⟨isInt32_atoi first, ?_⟩
          rw [← hstop]
          split
          · exact isInt32_atoi _
          · exact isInt32_atoi _

/-! ### The search -/

/-- The search over ranges that are apart from each other. -/
lemma searchLoop_spec {ranges : List ChunkRange}
    (hapart : ranges.Pairwise fun range next => range.stop + 1 < next.start)
    (hinside : ∀ range ∈ ranges, range.start ≤ range.stop) (hshort : ranges.length < 2 ^ 31)
    (c : ℤ) (fuel : ℕ) (low high : ℤ) (hlow : 0 ≤ low) (hhigh : high < ranges.length)
    (hfuel : (high + 1 - low).toNat < fuel)
    (hbetween : ∀ i (hi : i < ranges.length), ranges[i].start ≤ c → c ≤ ranges[i].stop →
      low ≤ i ∧ i ≤ high) :
    searchLoop c ranges fuel low high =
      some (decide (∃ range ∈ ranges, range.start ≤ c ∧ c ≤ range.stop)) := by
  have horder := List.pairwise_iff_getElem.mp hapart
  induction fuel generalizing low high with
  | zero => omega
  | succ fuel ih =>
    rw [searchLoop]
    split_ifs with hle
    · have hmid : (toUnsigned low + toUnsigned high) % 2 ^ 32 / 2 = ((low + high) / 2).toNat := by
        unfold toUnsigned
        omega
      rw [hmid]
      obtain ⟨mid, hmidEq⟩ : ∃ mid : ℕ, mid = ((low + high) / 2).toNat := ⟨_, rfl⟩
      rw [← hmidEq]
      have hmidLt : mid < ranges.length := by omega
      have hrange := hinside ranges[mid] (List.getElem_mem hmidLt)
      simp only [List.getElem?_eq_getElem hmidLt]
      split_ifs with hfound hless
      · have hex : ∃ range ∈ ranges, range.start ≤ c ∧ c ≤ range.stop :=
          ⟨ranges[mid], List.getElem_mem hmidLt, hfound.2, hfound.1⟩
        rw [decide_eq_true hex]
      · -- nothing up to the middle reaches the number
        apply ih (mid + 1) high (by omega) hhigh (by omega)
        intro i hi hstart hstop
        obtain ⟨-, hihigh⟩ := hbetween i hi hstart hstop
        refine ⟨?_, hihigh⟩
        by_contra hge
        by_cases hsame : i = mid
        · subst hsame
          omega
        · have hgap := horder i mid hi hmidLt (by omega)
          omega
      · -- everything from the middle on begins behind it
        apply ih low (mid - 1) hlow (by omega) (by omega)
        intro i hi hstart hstop
        obtain ⟨hilow, -⟩ := hbetween i hi hstart hstop
        refine ⟨hilow, ?_⟩
        by_contra hge
        by_cases hsame : i = mid
        · subst hsame
          omega
        · have hgap := horder mid i hmidLt hi (by omega)
          omega
    · have hnone : ¬ ∃ range ∈ ranges, range.start ≤ c ∧ c ≤ range.stop := by
        rintro ⟨range, hrange, hstart, hstop⟩
        obtain ⟨i, hi, rfl⟩ := List.getElem_of_mem hrange
        have hin := hbetween i hi hstart hstop
        omega
      rw [decide_eq_false hnone]

/-- Ranges with gaps between them are few. -/
lemma Merged.length_le {ranges : List ChunkRange} {chunks : List ℤ} (h : Merged ranges chunks) :
    2 * ranges.length ≤ 2 ^ 31 := by
  have hcount : ∀ (first : ℤ) (ranges : List ChunkRange),
      ranges.Pairwise (fun range next => range.stop + 1 < next.start) →
      (∀ range ∈ ranges, first ≤ range.start ∧ range.start ≤ range.stop ∧
        range.stop < kint32max) → first ≤ kint32max + 1 →
      first + 2 * ranges.length ≤ kint32max + 1 := by
    intro first ranges
    induction ranges generalizing first with
    | nil =>
      intro _ _ hfirst
      simpa using hfirst
    | cons range ranges ih =>
      intro hapart hinside _
      obtain ⟨hnext, hrest⟩ := List.pairwise_cons.mp hapart
      obtain ⟨hge, hle, hmax⟩ := hinside range List.mem_cons_self
      have htail := ih (first + 2) hrest (fun x hx => by
        have hgap := hnext x hx
        have hin := hinside x (List.mem_cons_of_mem _ hx)
        exact ⟨by omega, hin.2⟩) (by omega)
      rw [List.length_cons]
      push_cast
      omega
  have hfirst := hcount 1 ranges h.apart (fun range hrange => h.inside range hrange) (by decide)
  unfold kint32max at hfirst
  omega

lemma Merged.isChunkInRange {ranges : List ChunkRange} {chunks : List ℤ}
    (h : Merged ranges chunks) (c : ℤ) {fuel : ℕ} (hfuel : 2 ^ 31 ≤ fuel) :
    isChunkInRange fuel c ranges = some (decide (c ∈ chunks)) := by
  have hlength := h.length_le
  have hmem : decide (∃ range ∈ ranges, range.start ≤ c ∧ c ≤ range.stop) = decide (c ∈ chunks) :=
    decide_eq_decide.mpr (h.mem_iff c)
  rw [SafeBrowsing.isChunkInRange]
  split_ifs with hnil
  · subst hnil
    rw [← hmem]
    simp
  · have hpos := List.length_pos_iff.mpr hnil
    have hhigh : toInt32 (ranges.length - 1) = ranges.length - 1 :=
      toInt32_of_range ⟨by omega, by omega⟩
    rw [hhigh, ← hmem]
    apply searchLoop_spec h.apart (fun range hrange => (h.inside range hrange).2.1) (by omega) c
      fuel 0 _ le_rfl (by omega) (by omega)
    intro i hi _ _
    omega

/-! ### The round trip -/

/-- The numbers are written, read and expanded again without duplicates and in order, and the
search finds exactly them. -/
def RoundTrips (chunks : List ℤ) : Prop :=
  ∃ text ranges numbers,
    Returns (fun fuel => chunksToRangeString fuel chunks) text ∧
    stringToRanges text [] = some (true, ranges) ∧
    Returns (fun fuel => rangesToChunks fuel ranges []) numbers ∧
    numbers.Pairwise (· < ·) ∧ (∀ c, c ∈ numbers ↔ c ∈ chunks) ∧
    ∀ c, IsInt32 c → Returns (fun fuel => isChunkInRange fuel c ranges) (decide (c ∈ chunks))

lemma roundTrips_of_not_max {chunks : List ℤ} (h : ∀ c ∈ chunks, 0 < c ∧ c ≤ kint32max)
    (hmax : kint32max ∉ chunks) : RoundTrips chunks := by
  have hmem : ∀ c, c ∈ chunks.mergeSort (· ≤ ·) ↔ c ∈ chunks := fun c => List.mem_mergeSort
  have hsorted : (chunks.mergeSort (· ≤ ·)).Pairwise (· ≤ ·) := List.pairwise_mergeSort' _ _
  have hlt : ∀ c ∈ chunks.mergeSort (· ≤ ·), c < kint32max := by
    intro c hc
    refine lt_of_le_of_ne (h c ((hmem c).mp hc)).2 ?_
    rintro rfl
    exact hmax ((hmem _).mp hc)
  obtain ⟨ranges, hmerged, hloop⟩ := rangeStringLoop_spec _
    (fun c hc => (h c ((hmem c).mp hc)).1) hlt hsorted
  have hpositive : ∀ range ∈ ranges, range.Positive := fun range hrange =>
    have hin := hmerged.inside range hrange
    ⟨hin.1, hin.2.1, hin.2.2.le⟩
  refine ⟨_, ranges, ranges.flatMap ChunkRange.numbers, ⟨_, fun fuel hfuel =>
    hloop fuel [] hfuel⟩, stringToRanges_text hpositive, ⟨2 ^ 31, fun fuel hfuel => ?_⟩, ?_, ?_, ?_⟩
  · exact rangesToChunks_spec hmerged.inside hfuel []
  · rw [List.pairwise_flatMap]
    refine ⟨fun range _ => pairwise_numbersFrom _ _, hmerged.apart.imp ?_⟩
    intro range next hgap x hx y hy
    have hxin := ChunkRange.mem_numbers.mp hx
    have hyin := ChunkRange.mem_numbers.mp hy
    omega
  · intro c
    rw [List.mem_flatMap, ← hmem c, ← hmerged.mem_iff c]
    simp only [ChunkRange.mem_numbers]
  · intro c _
    refine ⟨2 ^ 31, fun fuel hfuel => ?_⟩
    have hfind := hmerged.isChunkInRange c hfuel
    simp only [hmem] at hfind
    exact hfind

lemma not_max_of_roundTrips {chunks : List ℤ} (h : RoundTrips chunks) : kint32max ∉ chunks := by
  obtain ⟨text, ranges, numbers, -, hread, ⟨bound, hexpand⟩, -, hmem, -⟩ := h
  rw [← hmem]
  have hint := rangesLoop_isInt (fun _ hr => absurd hr List.not_mem_nil) hread
  exact rangesToChunks_not_max hint bound List.not_mem_nil (hexpand bound le_rfl)

/-- Positive chunk numbers survive exactly when the greatest `int` is not among them. -/
theorem roundTrips_iff (chunks : List ℤ) (h : ∀ c ∈ chunks, 0 < c ∧ c ≤ kint32max) :
    RoundTrips chunks ↔ kint32max ∉ chunks :=
  ⟨not_max_of_roundTrips, roundTrips_of_not_max h⟩

theorem roundTrips_three : RoundTrips [7, 1, 2, 1] ↔ kint32max ∉ [7, 1, 2, 1] :=
  roundTrips_iff _ (by decide)

/-- The successor of the greatest `int` is the least one, so a range that begins there takes no
number. -/
lemma extendRange_max : extendRange kint32max [kint32max] = (kint32max, [kint32max]) := by decide

/-- The greatest `int` alone: the string is never finished, and the range that it would stand for
is never expanded. -/
theorem not_roundTrips_max :
    ¬ RoundTrips [kint32max] ∧ (∀ fuel, chunksToRangeString fuel [kint32max] = none) ∧
      ∀ fuel, rangesToChunks fuel [⟨kint32max, kint32max⟩] [] = none := by
  refine ⟨fun h => not_max_of_roundTrips h List.mem_cons_self, ?_, ?_⟩
  · intro fuel
    have hloop : ∀ result, rangeStringLoop fuel [kint32max] result = none := by
      induction fuel with
      | zero => exact fun _ => rfl
      | succ fuel ih =>
        intro result
        rw [rangeStringLoop, extendRange_max]
        exact ih _
    rw [chunksToRangeString, List.mergeSort_singleton]
    exact hloop []
  · intro fuel
    rw [rangesToChunks, expandRange_max fuel _ (by decide)]
    rfl

end Chromium.SafeBrowsing
