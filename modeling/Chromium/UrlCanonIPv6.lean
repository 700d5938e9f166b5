import Chromium.UrlCanonIPv4
import Mathlib.Data.List.GetD

/-!
# Canonical IPv6 addresses

`url/url_canon_ip.cc`: an address is eight groups of sixteen bits with colons between them. The
longest run of zeros is left out between two colons.
-/
namespace Chromium.UrlCanonIP

open Positional

def colon : ℕ := 58

def openBracket : ℕ := 91

def closeBracket : ℕ := 93

/-- The components are kept as text, with their number as the length. -/
structure IPv6Parsed where
  hexComponents : List Text
  indexOfContraction : Option ℕ
  ipv4Component : Option Text

namespace IPv6Parsed

def reset : IPv6Parsed := ⟨[], none, none⟩

/-- The end of a component. It may be empty only next to a contraction at an end. -/
def addComponent (p : IPv6Parsed) (cur : Text) (emptyAllowed : Bool) : Option IPv6Parsed :=
  if cur.length > 4 then none
  else if cur.length = 0 ∧ ¬ emptyAllowed then none
  else if cur.length > 0 then
    if p.hexComponents.length ≥ 8 then none
    else some { p with hexComponents := p.hexComponents ++ [cur] }
  else some p

/-- There can be one contraction. -/
def addContraction (p : IPv6Parsed) : Option IPv6Parsed :=
  if p.indexOfContraction ≠ none then none
  else some { p with indexOfContraction := some p.hexComponents.length }

end IPv6Parsed

/-- The loop of `ParseIPv6`, from a character on. Behind the last one stands the bracket. -/
def parseIPv6Loop (atBegin : Bool) (cur : Text) (p : IPv6Parsed) : Text → Option IPv6Parsed
  | [] => p.addComponent cur (p.indexOfContraction = some p.hexComponents.length)
  | c :: spec =>
    if c = colon then
      match spec with
      | [] => (p.addComponent cur false).bind fun p => parseIPv6Loop false [] p []
      | d :: rest =>
        if d = colon then
          ((p.addComponent cur atBegin).bind fun p => p.addContraction).bind fun p =>
            parseIPv6Loop false [] p rest
        else (p.addComponent cur false).bind fun p => parseIPv6Loop false [] p (d :: rest)
    else if c ≥ 0x80 then none
    else if ¬ IsCharOfType 16 c then
      -- the rest is taken for an IPv4 address
      if IsIPv4Char c then some { p with ipv4Component := some (cur ++ c :: spec) } else none
    else parseIPv6Loop false (cur ++ [c]) p spec

def parseIPv6 (host : Text) : Option IPv6Parsed :=
  if host = [] then none else parseIPv6Loop true [] .reset host

/-- The bytes that the contraction stands for. -/
def checkIPv6ComponentsSize (p : IPv6Parsed) : Option ℕ :=
  let numBytesWithoutContraction :=
    p.hexComponents.length * 2 + if p.ipv4Component.isSome then 4 else 0
  let numBytesOfContraction :=
    if p.indexOfContraction = none then 0
    else if 16 - numBytesWithoutContraction < 2 then 2
    else 16 - numBytesWithoutContraction
  if numBytesWithoutContraction + numBytesOfContraction ≠ 16 then none
  else some numBytesOfContraction

def ipv6HexComponentToNumber (component : Text) : ℕ := read 16 component % 2 ^ 16

/-- The loop over the components from the one with this index on. -/
def componentBytes (numBytesOfContraction : ℕ) (indexOfContraction : Option ℕ) :
    ℕ → List Text → List ℕ
  | i, [] => if some i = indexOfContraction then .replicate numBytesOfContraction 0 else []
  | i, component :: components =>
    let number := ipv6HexComponentToNumber component
    (if some i = indexOfContraction then .replicate numBytesOfContraction 0 else []) ++
      (number &&& 0xFF00) >>> 8 :: (number &&& 0x00FF) ::
        componentBytes numBytesOfContraction indexOfContraction (i + 1) components

def ipv6AddressToNumber (host : Text) : Option (List ℕ) :=
  if host.head? ≠ some openBracket ∨ host.getLast? ≠ some closeBracket then none
  else
    match parseIPv6 host.tail.dropLast with
    | none => none
    | some p =>
      match checkIPv6ComponentsSize p with
      | none => none
      | some numBytesOfContraction =>
        let address := componentBytes numBytesOfContraction p.indexOfContraction 0 p.hexComponents
        match p.ipv4Component with
        | none => some address
        | some component =>
          match ipv4AddressToNumber component with
          | .ipv4 bytes _ => some (address ++ bytes)
          | _ => none

/-- `url_parse::Component`, which is not valid when its length is -1. -/
structure Component where
  start : ℕ
  len : ℤ

namespace Component

def invalid : Component := ⟨0, -1⟩

/-- `end()`. -/
def stop (c : Component) : ℕ := c.start + c.len.toNat

end Component

def byteAt (address : List ℕ) (i : ℕ) : ℕ := address.getD i 0

/-- Two bytes from `i` on, with the longest run of zeros so far and the current one. -/
def chooseStep (address : List ℕ) (ranges : Component × Component) (i : ℕ) :
    Component × Component :=
  let maxRange := ranges.1
  let curRange := ranges.2
  if byteAt address i = 0 ∧ byteAt address (i + 1) = 0 then
    let curRange := if curRange.len = -1 then ⟨i, 0⟩ else curRange
    let curRange := { curRange with len := curRange.len + 2 }
    if i = 14 then
      (if curRange.len > 2 ∧ curRange.len > maxRange.len then curRange else maxRange, .invalid)
    else (maxRange, curRange)
  else (if curRange.len > 2 ∧ curRange.len > maxRange.len then curRange else maxRange, .invalid)

def chooseIPv6ContractionRange (address : List ℕ) : Component :=
  ([0, 2, 4, 6, 8, 10, 12, 14].foldl (chooseStep address) (.invalid, .invalid)).1

/-- The loop of `AppendIPv6Address` from byte `i` on. -/
def appendIPv6Loop (address : List ℕ) (contractionRange : Component) : ℕ → ℕ → Text → Text
  | 0, _, output => output
  | fuel + 1, i, output =>
    if i > 14 then output
    else if i = contractionRange.start ∧ contractionRange.len > 0 then
      let output := if i = 0 then output ++ [colon] else output
      appendIPv6Loop address contractionRange fuel contractionRange.stop (output ++ [colon])
    else
      let x := byteAt address i <<< 8 ||| byteAt address (i + 1)
      let i := i + 2
      let output := output ++ write 16 x
      appendIPv6Loop address contractionRange fuel i
        (if i < 16 then output ++ [colon] else output)

def appendIPv6Address (address : List ℕ) : Text :=
  appendIPv6Loop address (chooseIPv6ContractionRange address) 9 0 []

/-! ### Groups -/

/-- A group of two bytes. -/
def group (address : List ℕ) (k : ℕ) : ℕ :=
  byteAt address (2 * k) * 256 + byteAt address (2 * k + 1)

/-- The text of some groups, one after the other. -/
def groupTexts (address : List ℕ) (k m : ℕ) : List Text :=
  (List.range' k m).map fun j => write 16 (group address j)

/-- Texts with colons between them. -/
def colons : List Text → Text
  | [] => []
  | [s] => s
  | s :: rest => s ++ colon :: colons rest

lemma colons_cons_cons (s t : Text) (rest : List Text) :
    colons (s :: t :: rest) = s ++ colon :: colons (t :: rest) :=
  rfl

section Groups
variable {address : List ℕ} {k m : ℕ}

lemma byteAt_lt (hbytes : ∀ b ∈ address, b < 256) (i : ℕ) : byteAt address i < 256 := by
  rw [byteAt, List.getD_eq_getElem?_getD]
  cases h : address[i]? with
  | none => exact Nat.zero_lt_succ _
  | some b => exact hbytes b (List.mem_of_getElem? h)

lemma group_eq_or (hbytes : ∀ b ∈ address, b < 256) (k : ℕ) :
    byteAt address (2 * k) <<< 8 ||| byteAt address (2 * k + 1) = group address k := by
  rw [← Nat.shiftLeft_add_eq_or_of_lt (byteAt_lt hbytes _), Nat.shiftLeft_eq]
  rfl

lemma group_lt (hbytes : ∀ b ∈ address, b < 256) (k : ℕ) : group address k < 2 ^ 16 := by
  have hhigh := byteAt_lt hbytes (2 * k)
  have hlow := byteAt_lt hbytes (2 * k + 1)
  rw [group]
  omega

lemma groupTexts_succ : groupTexts address k (m + 1) =
    write 16 (group address k) :: groupTexts address (k + 1) m := by
  rw [groupTexts, List.range'_succ, List.map_cons]
  rfl

end Groups

/-! ### The contraction -/

/-- There is no contraction, or it stands for groups before the given one that are zero. -/
def Contracts (address : List ℕ) (k : ℕ) (c : Component) : Prop :=
  c = .invalid ∨ ∃ s n : ℕ, c = ⟨2 * s, 2 * n⟩ ∧ 0 < n ∧ s + n ≤ k ∧
    ∀ j, s ≤ j → j < s + n → group address j = 0

section Choose
variable {address : List ℕ} {k : ℕ}

lemma Contracts.succ {c : Component} (h : Contracts address k c) : Contracts address (k + 1) c := by
  rcases h with h | ⟨s, n, h, hn, hle, hzero⟩
  · exact .inl h
  · exact .inr ⟨s, n, h, hn, by omega, hzero⟩

/-- The current run ends before the group at hand. -/
def Runs (address : List ℕ) (k : ℕ) (c : Component) : Prop :=
  c = .invalid ∨ ∃ s n : ℕ, c = ⟨2 * s, 2 * n⟩ ∧ 0 < n ∧ s + n = k ∧
    ∀ j, s ≤ j → j < s + n → group address j = 0

lemma Runs.contracts {c : Component} (h : Runs address k c) : Contracts address k c := by
  rcases h with h | ⟨s, n, h, hn, heq, hzero⟩
  · exact .inl h
  · exact .inr ⟨s, n, h, hn, heq.le, hzero⟩

/-- A group of zeros begins a run or makes it longer. -/
lemma Runs.extend {c : Component} (h : Runs address k c) (hzero : group address k = 0) :
    Runs address (k + 1) { (if c.len = -1 then ⟨2 * k, 0⟩ else c) with
      len := (if c.len = -1 then ⟨2 * k, 0⟩ else c : Component).len + 2 } := by
  right
  rcases h with rfl | ⟨s, n, rfl, hn, heq, hbefore⟩
  · refine ⟨k, 1, rfl, by omega, rfl, fun j hj hlt => ?_⟩
    obtain rfl : j = k := by omega
    exact hzero
  · have hvalid : ¬ (2 * n : ℤ) = -1 := by omega
    refine ⟨s, n + 1, ?_, by omega, by omega, fun j hj hlt => ?_⟩
    · dsimp only
      rw [if_neg hvalid]
      push_cast
      rw [mul_add_one]
    · rcases Nat.lt_or_eq_of_le (show j ≤ k by omega) with hlt | rfl
      · exact hbefore j hj (by omega)
      · exact hzero

lemma chooseStep_spec {ranges : Component × Component} (hmax : Contracts address k ranges.1)
    (hcur : Runs address k ranges.2) :
    Contracts address (k + 1) (chooseStep address ranges (2 * k)).1 ∧
      Runs address (k + 1) (chooseStep address ranges (2 * k)).2 := by
  have hlonger : ∀ c, Contracts address (k + 1) c → Contracts address (k + 1)
      (if c.len > 2 ∧ c.len > ranges.1.len then c else ranges.1) := by
    intro c hc
    split_ifs
    · exact hc
    · exact hmax.succ
  rw [chooseStep]
  dsimp only
  by_cases hzero : byteAt address (2 * k) = 0 ∧ byteAt address (2 * k + 1) = 0
  · have hgroup : group address k = 0 := by
      rw [group, hzero.1, hzero.2]
    have hextend := hcur.extend hgroup
    rw [if_pos hzero]
    by_cases hlast : 2 * k = 14
    · rw [if_pos hlast]
      exact ⟨hlonger _ hextend.contracts, .inl rfl⟩
    · rw [if_neg hlast]
      exact ⟨hmax.succ, hextend⟩
  · rw [if_neg hzero]
    exact ⟨hlonger _ hcur.contracts.succ, .inl rfl⟩

/-- What is chosen stands for groups of zeros. -/
theorem chooseIPv6ContractionRange_spec (address : List ℕ) :
    Contracts address 8 (chooseIPv6ContractionRange address) := by
  have hrun : ∀ m k ranges, Contracts address k ranges.1 → Runs address k ranges.2 →
      Contracts address (k + m)
        (((List.range' k m).map (2 * ·)).foldl (chooseStep address) ranges).1 := by
    intro m
    induction m with
    | zero => exact fun k ranges hmax _ => hmax
    | succ m ih =>
      intro k ranges hmax hcur
      obtain ⟨hmax', hcur'⟩ := chooseStep_spec hmax hcur
      rw [List.range'_succ, List.map_cons, List.foldl_cons, show k + (m + 1) = k + 1 + m by omega]
      exact ih (k + 1) _ hmax' hcur'
  exact hrun 8 0 _ (.inl rfl) (.inl rfl)

end Choose

/-! ### Writing -/

section Append
variable {address : List ℕ} {k m fuel s n : ℕ} {output : Text}

/-- One group is written. -/
lemma appendIPv6Loop_group (hbytes : ∀ b ∈ address, b < 256) {range : Component} (hk : k < 8)
    (hrange : ¬ (2 * k = range.start ∧ range.len > 0)) :
    appendIPv6Loop address range (fuel + 1) (2 * k) output =
      appendIPv6Loop address range fuel (2 * (k + 1))
        (output ++ write 16 (group address k) ++ if k < 7 then [colon] else []) := by
  rw [appendIPv6Loop, if_neg (by omega), if_neg hrange, group_eq_or hbytes]
  dsimp only
  rw [show 2 * k + 2 = 2 * (k + 1) by ring]
  by_cases hlast : k < 7
  · rw [if_pos hlast, if_pos (by omega)]
  · rw [if_neg hlast, if_neg (by omega), List.append_nil]

/-- The groups behind the contraction are written with colons between them. -/
lemma appendIPv6Loop_rest (hbytes : ∀ b ∈ address, b < 256) {range : Component}
    (hrange : range.len ≤ 0 ∨ range.start < 2 * k) (hk : k + m = 8) (hfuel : m < fuel) :
    appendIPv6Loop address range fuel (2 * k) output =
      output ++ colons (groupTexts address k m) := by
  induction m generalizing k fuel output with
  | zero =>
    cases fuel with
    | zero => omega
    | succ fuel =>
      rw [appendIPv6Loop, if_pos (by omega)]
      exact (List.append_nil output).symm
  | succ m ih =>
    cases fuel with
    | zero => omega
    | succ fuel =>
      rw [appendIPv6Loop_group hbytes (by omega) (by omega),
        ih (by omega) (by omega) (by omega), groupTexts_succ]
      cases m with
      | zero =>
        rw [if_neg (by omega), List.append_nil]
        simp [groupTexts, colons]
      | succ m =>
        rw [if_pos (by omega), groupTexts_succ, colons_cons_cons]
        simp

/-- The groups before the contraction are written with a colon behind each. -/
lemma appendIPv6Loop_contraction (hbytes : ∀ b ∈ address, b < 256) (hn : 0 < n)
    (hk : k + m = s) (hsn : s + n ≤ 8) (hfuel : m + (8 - s - n) + 1 < fuel) :
    appendIPv6Loop address ⟨2 * s, 2 * n⟩ fuel (2 * k) output =
      output ++ (groupTexts address k m).flatMap (· ++ [colon]) ++
        (if s = 0 then [colon, colon] else [colon]) ++
        colons (groupTexts address (s + n) (8 - s - n)) := by
  induction m generalizing k fuel output with
  | zero =>
    cases fuel with
    | zero => omega
    | succ fuel =>
      obtain rfl : k = s := by omega
      have hstop : Component.stop ⟨2 * k, 2 * n⟩ = 2 * (k + n) := by
        rw [Component.stop]
        dsimp only
        omega
      have hhere : 2 * k = 2 * k ∧ (2 * n : ℤ) > 0 := ⟨rfl, by omega⟩
      rw [appendIPv6Loop, if_neg (by omega), if_pos hhere, hstop]
      dsimp only
      rw [appendIPv6Loop_rest (m := 8 - k - n) hbytes (.inr (by dsimp only; omega)) (by omega)
        (by omega)]
      by_cases hzero : k = 0
      · rw [if_pos (by omega), if_pos hzero]
        simp [groupTexts]
      · rw [if_neg (by omega), if_neg hzero]
        simp [groupTexts]
  | succ m ih =>
    cases fuel with
    | zero => omega
    | succ fuel =>
      rw [appendIPv6Loop_group hbytes (by omega) (by dsimp only; omega), if_pos (by omega),
        ih (by omega) (by omega), groupTexts_succ, List.flatMap_cons]
      simp

end Append

/-! ### Reading -/

/-- What stands between colons. -/
structure IsHexComponent (s : Text) : Prop where
  ne_nil : s ≠ []
  length_le : s.length ≤ 4
  digits : ∀ c ∈ s, IsDigit 16 c

section Parse
variable {atBegin : Bool} {cur s rest : Text} {p : IPv6Parsed} {components : List Text}

lemma ne_colon {c : ℕ} (h : IsDigit 16 c) : c ≠ colon := by
  obtain ⟨hc, -⟩ := h
  rw [colon]
  omega

lemma parseIPv6Loop_digit {c : ℕ} (h : IsDigit 16 c) :
    parseIPv6Loop atBegin cur p (c :: rest) = parseIPv6Loop false (cur ++ [c]) p rest := by
  obtain ⟨hchar, -⟩ := id h
  cases rest <;> conv_lhs =>
    rw [parseIPv6Loop, if_neg (ne_colon h), if_neg (by omega), if_neg (not_not.mpr h)]

lemma parseIPv6Loop_colon {c : ℕ} (hc : c ≠ colon) :
    parseIPv6Loop atBegin cur p (colon :: c :: rest) =
      (p.addComponent cur false).bind fun p => parseIPv6Loop false [] p (c :: rest) := by
  rw [parseIPv6Loop, if_pos rfl, if_neg hc]

lemma parseIPv6Loop_two_colons : parseIPv6Loop atBegin cur p (colon :: colon :: rest) =
    ((p.addComponent cur atBegin).bind fun p => p.addContraction).bind fun p =>
      parseIPv6Loop false [] p rest := by
  rw [parseIPv6Loop, if_pos rfl, if_pos rfl]

lemma parseIPv6Loop_digits (hs : ∀ c ∈ s, IsDigit 16 c) :
    parseIPv6Loop false cur p (s ++ rest) = parseIPv6Loop false (cur ++ s) p rest := by
  induction s generalizing cur with
  | nil => rw [List.nil_append, List.append_nil]
  | cons c s ih =>
    rw [List.forall_mem_cons] at hs
    rw [List.cons_append, parseIPv6Loop_digit hs.1, ih hs.2, List.append_assoc,
      List.singleton_append]

/-- A component is read up to its end. -/
lemma parseIPv6Loop_component (hs : IsHexComponent s) :
    parseIPv6Loop atBegin [] p (s ++ rest) = parseIPv6Loop false s p rest := by
  cases s with
  | nil => exact absurd rfl hs.ne_nil
  | cons c s =>
    have hdigits := List.forall_mem_cons.mp hs.digits
    rw [List.cons_append, parseIPv6Loop_digit hdigits.1, parseIPv6Loop_digits hdigits.2]
    rfl

lemma addComponent_hex (hs : IsHexComponent s) (hlength : p.hexComponents.length < 8)
    (emptyAllowed : Bool) : p.addComponent s emptyAllowed =
      some { p with hexComponents := p.hexComponents ++ [s] } := by
  have hpos := List.length_pos_of_ne_nil hs.ne_nil
  have hle := hs.length_le
  rw [IPv6Parsed.addComponent, if_neg (by omega), if_neg (by omega), if_pos hpos,
    if_neg (by omega)]

lemma head_colons (h : ∀ s ∈ components, IsHexComponent s) (hne : components ≠ []) :
    ∃ c rest, colons components = c :: rest ∧ c ≠ colon := by
  cases components with
  | nil => exact absurd rfl hne
  | cons s components =>
    rw [List.forall_mem_cons] at h
    cases s with
    | nil => exact absurd rfl h.1.ne_nil
    | cons c s =>
      have hc := ne_colon (h.1.digits c List.mem_cons_self)
      cases components with
      | nil => exact ⟨c, s, rfl, hc⟩
      | cons t components => exact ⟨c, s ++ colon :: colons (t :: components), rfl, hc⟩

/-- Components with colons between them are read up to the end. -/
lemma parseIPv6Loop_colons (h : ∀ s ∈ components, IsHexComponent s)
    (hlength : p.hexComponents.length + components.length ≤ 8)
    (hempty : components = [] → p.indexOfContraction = some p.hexComponents.length) :
    parseIPv6Loop atBegin [] p (colons components) =
      some { p with hexComponents := p.hexComponents ++ components } := by
  induction components generalizing atBegin p with
  | nil =>
    rw [colons, parseIPv6Loop, List.append_nil, decide_eq_true (hempty rfl)]
    rfl
  | cons s components ih =>
    rw [List.forall_mem_cons] at h
    rw [List.length_cons] at hlength
    have hadd := fun emptyAllowed => @addComponent_hex s p h.1 (by omega) emptyAllowed
    cases components with
    | nil =>
      have hcolons : colons [s] = s ++ [] := (List.append_nil s).symm
      rw [hcolons, parseIPv6Loop_component h.1, parseIPv6Loop, hadd]
    | cons t components =>
      obtain ⟨c, rest, heq, hc⟩ := head_colons h.2 (List.cons_ne_nil t components)
      have hrest := @ih false { p with hexComponents := p.hexComponents ++ [s] } h.2
        (by rw [List.length_append, List.length_singleton]; omega)
        (fun hnil => absurd hnil (List.cons_ne_nil _ _))
      rw [colons_cons_cons, parseIPv6Loop_component h.1, heq, parseIPv6Loop_colon hc, hadd,
        Option.bind_some, ← heq, hrest, List.append_assoc, List.singleton_append]

/-- Components before a contraction are read up to it. -/
lemma parseIPv6Loop_contraction (h : ∀ s ∈ components, IsHexComponent s) (hne : components ≠ [])
    (hlength : p.hexComponents.length + components.length ≤ 8)
    (hnone : p.indexOfContraction = none) :
    parseIPv6Loop atBegin [] p (components.flatMap (· ++ [colon]) ++ colon :: rest) =
      parseIPv6Loop false [] { p with
        hexComponents := p.hexComponents ++ components
        indexOfContraction := some (p.hexComponents.length + components.length) } rest := by
  induction components generalizing atBegin p with
  | nil => exact absurd rfl hne
  | cons s components ih =>
    rw [List.forall_mem_cons] at h
    rw [List.length_cons] at hlength
    have hadd := fun emptyAllowed => @addComponent_hex s p h.1 (by omega) emptyAllowed
    rw [List.flatMap_cons, List.append_assoc, List.append_assoc, parseIPv6Loop_component h.1,
      List.singleton_append]
    cases components with
    | nil =>
      have hnone' : ¬ (p.indexOfContraction ≠ none) := not_not.mpr hnone
      rw [List.flatMap_nil, List.nil_append, parseIPv6Loop_two_colons, hadd, Option.bind_some,
        IPv6Parsed.addContraction, if_neg hnone', Option.bind_some, List.length_append]
    | cons t components =>
      obtain ⟨c, more, heq, hc⟩ : ∃ c more, (t :: components).flatMap (· ++ [colon]) ++
          colon :: rest = c :: more ∧ c ≠ colon := by
        cases t with
        | nil => exact absurd rfl (h.2 _ List.mem_cons_self).ne_nil
        | cons c t =>
          exact ⟨c, _, rfl, ne_colon ((h.2 _ List.mem_cons_self).digits c List.mem_cons_self)⟩
      have hrest := @ih false { p with hexComponents := p.hexComponents ++ [s] } h.2
        (List.cons_ne_nil _ _) (by rw [List.length_append, List.length_singleton]; omega) hnone
      rw [heq, parseIPv6Loop_colon hc, hadd, Option.bind_some, ← heq, hrest, List.append_assoc,
        List.singleton_append, List.length_append, List.length_singleton]
      simp only [List.length_cons]
      rw [Nat.add_assoc, Nat.add_comm 1]

end Parse

/-! ### Bytes -/

/-- The two bytes of each group. -/
def groupBytes (address : List ℕ) (k m : ℕ) : List ℕ :=
  (List.range' k m).flatMap fun j => [byteAt address (2 * j), byteAt address (2 * j + 1)]

section Bytes
variable {address : List ℕ} {k m s n : ℕ}

lemma isHexComponent_write (hbytes : ∀ b ∈ address, b < 256) (k : ℕ) :
    IsHexComponent (write 16 (group address k)) where
  ne_nil := write_ne_nil _ _
  length_le := length_write_le (by omega) (by omega) (group_lt hbytes k)
  digits := fun _ hc => isDigit_of_mem_write (by omega) le_rfl hc

lemma isHexComponent_groupTexts (hbytes : ∀ b ∈ address, b < 256) (k m : ℕ) :
    ∀ t ∈ groupTexts address k m, IsHexComponent t := by
  intro t ht
  obtain ⟨j, -, rfl⟩ := List.mem_map.mp ht
  exact isHexComponent_write hbytes j

lemma length_groupTexts : (groupTexts address k m).length = m := by
  rw [groupTexts, List.length_map, List.length_range']

lemma ipv6HexComponentToNumber_write (hbytes : ∀ b ∈ address, b < 256) (k : ℕ) :
    ipv6HexComponentToNumber (write 16 (group address k)) = group address k := by
  rw [ipv6HexComponentToNumber, read_write (by omega) le_rfl, Nat.mod_eq_of_lt (group_lt hbytes k)]

/-- The halves of a group are its two bytes. -/
lemma halves_group (hbytes : ∀ b ∈ address, b < 256) (k : ℕ) :
    (group address k &&& 0xFF00) >>> 8 = byteAt address (2 * k) ∧
      group address k &&& 0x00FF = byteAt address (2 * k + 1) := by
  have hhigh := byteAt_lt hbytes (2 * k)
  have hlow := byteAt_lt hbytes (2 * k + 1)
  constructor
  · rw [Nat.shiftRight_and_distrib, show 0xFF00 >>> 8 = 2 ^ 8 - 1 from rfl,
      Nat.and_two_pow_sub_one_eq_mod, Nat.shiftRight_eq_div_pow, group]
    omega
  · rw [show 0x00FF = 2 ^ 8 - 1 from rfl, Nat.and_two_pow_sub_one_eq_mod, group]
    omega

lemma groupBytes_append (k m n : ℕ) :
    groupBytes address k m ++ groupBytes address (k + m) n = groupBytes address k (m + n) := by
  rw [groupBytes, groupBytes, groupBytes, ← List.flatMap_append, List.range'_append_1]

lemma groupBytes_succ : groupBytes address k (m + 1) =
    byteAt address (2 * k) :: byteAt address (2 * k + 1) :: groupBytes address (k + 1) m := by
  rw [groupBytes, List.range'_succ, List.flatMap_cons]
  rfl

/-- Groups of zeros are bytes that are zero. -/
lemma groupBytes_zero (h : ∀ j, k ≤ j → j < k + m → group address j = 0) :
    groupBytes address k m = .replicate (2 * m) 0 := by
  induction m generalizing k with
  | zero => rfl
  | succ m ih =>
    have hzero := h k le_rfl (by omega)
    rw [group] at hzero
    rw [groupBytes_succ, ih fun j hj hlt => h j (by omega) (by omega), mul_add_one,
      show byteAt address (2 * k) = 0 by omega, show byteAt address (2 * k + 1) = 0 by omega]
    rfl

lemma groupBytes_all (hlength : address.length = 16) : groupBytes address 0 8 = address := by
  have hdrop : ∀ m k, 2 * k + 2 * m = 16 → groupBytes address k m = address.drop (2 * k) := by
    intro m
    induction m with
    | zero =>
      intro k hk
      rw [List.drop_of_length_le (by omega)]
      rfl
    | succ m ih =>
      intro k hk
      rw [groupBytes_succ, ih (k + 1) (by omega), List.drop_eq_getElem_cons (by omega : 2 * k < _),
        List.drop_eq_getElem_cons (by omega : 2 * k + 1 < _), byteAt, byteAt,
        List.getD_eq_getElem _ _ (by omega), List.getD_eq_getElem _ _ (by omega)]
      rfl
  exact hdrop 8 0 rfl

/-- Behind the contraction come the bytes of the components. -/
lemma componentBytes_rest (hbytes : ∀ b ∈ address, b < 256) {index : Option ℕ} {i : ℕ}
    (hindex : ∀ j ∈ index, j < i) (numBytes k m : ℕ) :
    componentBytes numBytes index i (groupTexts address k m) = groupBytes address k m := by
  induction m generalizing i k with
  | zero =>
    have hnot : ¬ some i = index := fun h => Nat.lt_irrefl i (hindex i h.symm)
    exact if_neg hnot
  | succ m ih =>
    have hnot : ¬ some i = index := fun h => Nat.lt_irrefl i (hindex i h.symm)
    obtain ⟨hhigh, hlow⟩ := halves_group hbytes k
    rw [groupTexts_succ, componentBytes, if_neg hnot, ipv6HexComponentToNumber_write hbytes,
      hhigh, hlow, ih (fun j hj => (hindex j hj).trans (Nat.lt_succ_self i)), groupBytes_succ]
    rfl

/-- The bytes of the components, with zeros in the place of the contraction. -/
lemma componentBytes_contraction (hbytes : ∀ b ∈ address, b < 256) {i : ℕ}
    (numBytes k m k' m' : ℕ) :
    componentBytes numBytes (some (i + m)) i (groupTexts address k m ++ groupTexts address k' m') =
      groupBytes address k m ++ .replicate numBytes 0 ++ groupBytes address k' m' := by
  induction m generalizing i k with
  | zero =>
    have hrest := @componentBytes_rest address hbytes (some i) (i + 1)
      (fun j hj => by obtain rfl := Option.some.inj hj; omega) numBytes
    cases m' with
    | zero => simp [groupTexts, groupBytes, componentBytes]
    | succ m' =>
      obtain ⟨hhigh, hlow⟩ := halves_group hbytes k'
      have hnone : groupTexts address k 0 = [] := rfl
      rw [hnone, List.nil_append, groupTexts_succ, Nat.add_zero, componentBytes, if_pos rfl,
        ipv6HexComponentToNumber_write hbytes, hhigh, hlow, hrest, groupBytes_succ]
      rfl
  | succ m ih =>
    obtain ⟨hhigh, hlow⟩ := halves_group hbytes k
    have hnot : ¬ some i = some (i + (m + 1)) := by simp
    rw [groupTexts_succ, List.cons_append, componentBytes, if_neg hnot,
      ipv6HexComponentToNumber_write hbytes, hhigh, hlow,
      show i + (m + 1) = i + 1 + m by omega, ih, groupBytes_succ]
    rfl

end Bytes

/-! ### Round trip -/

section RoundTrip
variable {address : List ℕ}

/-- An address in brackets is read when its text is, and its size is right. -/
lemma ipv6AddressToNumber_brackets {text : Text} {p : IPv6Parsed} {numBytes : ℕ}
    (hparse : parseIPv6 text = some p) (hsize : checkIPv6ComponentsSize p = some numBytes)
    (hnone : p.ipv4Component = none) :
    ipv6AddressToNumber (openBracket :: (text ++ [closeBracket])) =
      some (componentBytes numBytes p.indexOfContraction 0 p.hexComponents) := by
  have hbrackets : ¬ ((openBracket :: (text ++ [closeBracket])).head? ≠ some openBracket ∨
      (openBracket :: (text ++ [closeBracket])).getLast? ≠ some closeBracket) := by
    rw [← List.cons_append, List.getLast?_concat]
    simp
  rw [ipv6AddressToNumber, if_neg hbrackets, List.tail_cons, List.dropLast_concat, hparse]
  dsimp only
  rw [hsize]
  dsimp only
  rw [hnone]

/-- Without a contraction. -/
lemma ipv6_read_groups (hlength : address.length = 16) (hbytes : ∀ b ∈ address, b < 256) :
    ipv6AddressToNumber (openBracket :: (colons (groupTexts address 0 8) ++ [closeBracket])) =
      some address := by
  have hcomponents := isHexComponent_groupTexts hbytes 0 8
  have hne : groupTexts address 0 8 ≠ [] :=
    List.ne_nil_of_length_pos (by rw [length_groupTexts]; omega)
  obtain ⟨c, rest, heq, -⟩ := head_colons hcomponents hne
  have hparse : parseIPv6 (colons (groupTexts address 0 8)) =
      some ⟨groupTexts address 0 8, none, none⟩ := by
    rw [parseIPv6, if_neg (heq ▸ List.cons_ne_nil c rest)]
    exact @parseIPv6Loop_colons true .reset _ hcomponents (by rw [length_groupTexts]; rfl)
      fun h => absurd h hne
  have hsize : checkIPv6ComponentsSize ⟨groupTexts address 0 8, none, none⟩ = some 0 := by
    rw [checkIPv6ComponentsSize, length_groupTexts]
    rfl
  have hnone : ∀ j ∈ (none : Option ℕ), j < 0 := by simp
  rw [ipv6AddressToNumber_brackets hparse hsize rfl, componentBytes_rest hbytes hnone,
    groupBytes_all hlength]

/-- With a contraction of `n` groups behind `s` others. -/
lemma ipv6_read_contraction (hlength : address.length = 16) (hbytes : ∀ b ∈ address, b < 256)
    {s n : ℕ} (hn : 0 < n) (hsn : s + n ≤ 8)
    (hzero : ∀ j, s ≤ j → j < s + n → group address j = 0) :
    ipv6AddressToNumber (openBracket :: ((groupTexts address 0 s).flatMap (· ++ [colon]) ++
        (if s = 0 then [colon, colon] else [colon]) ++
        colons (groupTexts address (s + n) (8 - s - n)) ++ [closeBracket])) = some address := by
  have hbefore := isHexComponent_groupTexts hbytes 0 s
  have hbehind := isHexComponent_groupTexts hbytes (s + n) (8 - s - n)
  have hrest := @parseIPv6Loop_colons false ⟨groupTexts address 0 s, some s, none⟩ _ hbehind
    (by rw [length_groupTexts, length_groupTexts]; omega)
    (fun _ => by rw [length_groupTexts])
  have hparse : parseIPv6 ((groupTexts address 0 s).flatMap (· ++ [colon]) ++
      (if s = 0 then [colon, colon] else [colon]) ++
      colons (groupTexts address (s + n) (8 - s - n))) =
      some ⟨groupTexts address 0 s ++ groupTexts address (s + n) (8 - s - n), some s, none⟩ := by
    rw [parseIPv6, if_neg (by split_ifs <;> simp)]
    by_cases hs : s = 0
    · subst hs
      exact (parseIPv6Loop_two_colons).trans hrest
    · rw [if_neg hs, List.append_assoc, List.singleton_append]
      have hne : groupTexts address 0 s ≠ [] :=
        List.ne_nil_of_length_pos (by rw [length_groupTexts]; omega)
      have hcontraction := @parseIPv6Loop_contraction true
        (colons (groupTexts address (s + n) (8 - s - n))) .reset _ hbefore hne
        (by rw [length_groupTexts]; simp only [IPv6Parsed.reset, List.length_nil]; omega) rfl
      rw [hcontraction, length_groupTexts]
      simp only [IPv6Parsed.reset, List.length_nil, Nat.zero_add, List.nil_append]
      exact hrest
  have hsize : checkIPv6ComponentsSize
      ⟨groupTexts address 0 s ++ groupTexts address (s + n) (8 - s - n), some s, none⟩ =
      some (2 * n) := by
    rw [checkIPv6ComponentsSize]
    simp only [List.length_append, length_groupTexts, Option.isSome_none, Bool.false_eq_true,
      if_false, reduceCtorEq, Nat.add_zero]
    rw [if_neg (by split_ifs <;> omega)]
    split_ifs <;> simp only [Option.some.injEq] <;> omega
  have hbytesAll := @componentBytes_contraction address hbytes 0 (2 * n) 0 s (s + n) (8 - s - n)
  rw [Nat.zero_add] at hbytesAll
  rw [ipv6AddressToNumber_brackets hparse hsize rfl, hbytesAll, ← groupBytes_zero hzero]
  have hjoin := @groupBytes_append address 0 s n
  have hjoin' := @groupBytes_append address 0 (s + n) (8 - s - n)
  rw [Nat.zero_add] at hjoin hjoin'
  rw [hjoin, hjoin', show s + n + (8 - s - n) = 8 by omega, groupBytes_all hlength]

/-- An address that is written is read again. -/
theorem ipv6AddressToNumber_append (hlength : address.length = 16)
    (hbytes : ∀ b ∈ address, b < 256) :
    ipv6AddressToNumber (openBracket :: (appendIPv6Address address ++ [closeBracket])) =
      some address := by
  rw [appendIPv6Address]
  rcases chooseIPv6ContractionRange_spec address with hnone | ⟨s, n, heq, hn, hsn, hzero⟩
  · rw [hnone]
    have hloop := @appendIPv6Loop_rest address 0 8 9 [] hbytes .invalid
      (.inl (by decide)) rfl (by omega)
    rw [Nat.mul_zero, List.nil_append] at hloop
    rw [hloop]
    exact ipv6_read_groups hlength hbytes
  · rw [heq]
    have hloop := @appendIPv6Loop_contraction address 0 s 9 s n [] hbytes hn (Nat.zero_add s) hsn
      (by omega)
    rw [Nat.mul_zero, List.nil_append] at hloop
    rw [hloop]
    exact ipv6_read_contraction hlength hbytes hn hsn hzero

end RoundTrip

end Chromium.UrlCanonIP
