import Chromium.Positional

/-!
# Canonical IPv4 addresses

`url/url_canon_ip.cc`: the parts of a host are read as numbers, the last of which fills the bytes
that are left. A host is a list of code units, of 8 bits or of 16: both instances of the templates
do the same.
-/
namespace Chromium.UrlCanonIP

open Positional

abbrev Text := List ℕ

/-- `CanonHostInfo::Family` with what is known of the address then. -/
inductive IPv4Result
  | neutral
  | broken
  | ipv4 (address : List ℕ) (numIPv4Components : ℕ)
  deriving DecidableEq

def dot : ℕ := 46

/-- `CHAR_HEX`, `CHAR_DEC` and `CHAR_OCT`, by the base. -/
abbrev IsCharOfType (base c : ℕ) : Prop := IsDigit base c

/-- Digits of base 16, a dot and `x`. -/
def IsIPv4Char (c : ℕ) : Prop := IsCharOfType 16 c ∨ c = dot ∨ c = 120 ∨ c = 88

instance (c : ℕ) : Decidable (IsIPv4Char c) := inferInstanceAs (Decidable (_ ∨ _))

/-- The loop of `FindIPv4Components`: the components so far and the current one. -/
def findIPv4Loop (components : List Text) (cur : Text) : Text → Option (List Text)
  | [] =>
    let components := components ++ [cur]
    if cur = [] ∧ components.length = 1 then none else some components
  | c :: spec =>
    if c = dot then
      let components := components ++ [cur]
      if cur = [] then none
      else if components.length = 4 then if spec = [] then some components else none
      else findIPv4Loop components [] spec
    else if c ≥ 0x80 ∨ ¬ IsIPv4Char c then none
    else findIPv4Loop components (cur ++ [c]) spec

def findIPv4Components (host : Text) : Option (List Text) :=
  if host = [] then none else findIPv4Loop [] [] host

inductive ComponentNumber
  | ipv4 (number : ℕ)
  | broken
  | neutral

def kMaxComponentLen : ℕ := 16

/-- The base of a component, and the length of the prefix that tells it. -/
def baseOf : Text → ℕ × ℕ
  | 48 :: c :: _ => if c = 88 ∨ c = 120 then (16, 2) else (8, 1)
  | _ => (10, 0)

/-- `_strtoui64` gets digits only, no more than fit into its buffer. -/
def ipv4ComponentToNumber (component : Text) : ComponentNumber :=
  let (base, prefixLen) := baseOf component
  let input := (component.drop prefixLen).dropWhile (· = 48)
  if ∀ c ∈ input, IsCharOfType base c then
    let num := read base (input.take kMaxComponentLen)
    if num > 2 ^ 32 - 1 then .broken else .ipv4 num
  else .neutral

/-- The loop over the components that are not empty. `none` is `NEUTRAL`; otherwise whether one
is broken, and the values of the others. -/
def componentValues : List Text → Option (Bool × List ℕ)
  | [] => some (false, [])
  | component :: components =>
    if component = [] then componentValues components
    else
      match ipv4ComponentToNumber component with
      | .neutral => none
      | .broken => (componentValues components).map fun (_, values) => (true, values)
      | .ipv4 number =>
        (componentValues components).map fun (broken, values) => (broken, number :: values)

/-- The loop that fills the bytes at the end, from the last on. -/
def fillBytes : ℕ → ℕ → List ℕ → List ℕ × ℕ
  | 0, lastValue, address => (address, lastValue)
  | k + 1, lastValue, address => fillBytes k (lastValue / 256) (lastValue % 256 :: address)

def ipv4AddressToNumber (host : Text) : IPv4Result :=
  match findIPv4Components host with
  | none => .neutral
  | some components =>
    match componentValues components with
    | none => .neutral
    | some (true, _) => .broken
    | some (false, values) =>
      if ∃ v ∈ values.dropLast, v > 255 then .broken
      else
        let (bytes, residual) := fillBytes (5 - values.length) (values.getLastD 0) []
        if residual ≠ 0 then .broken else .ipv4 (values.dropLast ++ bytes) values.length

def appendIPv4Address : List ℕ → Text
  | [] => []
  | [b] => write 10 b
  | b :: address => write 10 b ++ dot :: appendIPv4Address address

/-! ### Hosts of dotted parts -/

/-- A part of a host that is cut at its dots. -/
structure IsPart (s : Text) : Prop where
  ne_nil : s ≠ []
  plain : ∀ c ∈ s, c ≠ dot ∧ c < 0x80 ∧ IsIPv4Char c

/-- Parts with dots between them. -/
def join : List Text → Text
  | [] => []
  | [s] => s
  | s :: parts => s ++ dot :: join parts

section Parts
variable {s rest cur : Text} {components parts : List Text}

lemma findIPv4Loop_append (h : ∀ c ∈ s, c ≠ dot ∧ c < 0x80 ∧ IsIPv4Char c) :
    findIPv4Loop components cur (s ++ rest) = findIPv4Loop components (cur ++ s) rest := by
  induction s generalizing cur with
  | nil => rw [List.nil_append, List.append_nil]
  | cons c s ih =>
    rw [List.forall_mem_cons] at h
    obtain ⟨⟨hdot, hascii, hchar⟩, hrest⟩ := h
    have hvalid : ¬ (c ≥ 0x80 ∨ ¬ IsIPv4Char c) := by
      rw [not_or, not_not]
      exact ⟨not_le.mpr hascii, hchar⟩
    rw [List.cons_append, findIPv4Loop, if_neg hdot, if_neg hvalid, ih hrest,
      List.append_assoc, List.singleton_append]

/-- A dot at the end begins one more component, which is empty, unless there are four. -/
def endComponents (parts : List Text) (trailing : Bool) : List Text :=
  if trailing ∧ parts.length < 4 then parts ++ [[]] else parts

lemma findIPv4Loop_join (hparts : ∀ s ∈ parts, IsPart s) (hne : parts ≠ [])
    (hlength : (components ++ parts).length ≤ 4) (trailing : Bool) :
    findIPv4Loop components [] (join parts ++ if trailing then [dot] else []) =
      some (endComponents (components ++ parts) trailing) := by
  induction parts generalizing components with
  | nil => exact absurd rfl hne
  | cons s parts ih =>
    rw [List.forall_mem_cons] at hparts
    obtain ⟨hs, hrest⟩ := hparts
    cases parts with
    | nil =>
      rw [join, findIPv4Loop_append hs.plain, List.nil_append, endComponents]
      cases trailing with
      | false => simp [findIPv4Loop, hs.ne_nil]
      | true =>
        rw [if_pos rfl, findIPv4Loop, if_pos rfl, if_neg hs.ne_nil]
        by_cases hfour : (components ++ [s]).length = 4
        · rw [if_pos hfour, if_pos rfl, if_neg (by omega)]
        · have hone : ¬ (([] : Text) = [] ∧ (components ++ [s] ++ [[]]).length = 1) := by
            simp
          have hfew : (components ++ [s]).length < 4 := by omega
          rw [if_neg hfour, findIPv4Loop, if_neg hone, if_pos ⟨rfl, hfew⟩]
    | cons t parts =>
      have happend : components ++ s :: t :: parts = components ++ [s] ++ t :: parts := by simp
      have hfour : ¬ (components ++ [s]).length = 4 := by
        simp only [List.length_append, List.length_cons, List.length_nil] at hlength ⊢
        omega
      rw [join, List.append_assoc, findIPv4Loop_append hs.plain, List.nil_append,
        List.cons_append, findIPv4Loop, if_pos rfl, if_neg hs.ne_nil, if_neg hfour, happend]
      · exact ih hrest (List.cons_ne_nil _ _) (happend ▸ hlength)
      · exact List.cons_ne_nil _ _

lemma join_ne_nil (hparts : ∀ s ∈ parts, IsPart s) (hne : parts ≠ []) : join parts ≠ [] := by
  cases parts with
  | nil => exact absurd rfl hne
  | cons s parts =>
    rw [List.forall_mem_cons] at hparts
    cases parts with
    | nil => exact hparts.1.ne_nil
    | cons t parts => simp [join]

/-- The components of a host of parts are the parts. -/
theorem findIPv4Components_join (hparts : ∀ s ∈ parts, IsPart s) (hne : parts ≠ [])
    (hlength : parts.length ≤ 4) (trailing : Bool) :
    findIPv4Components (join parts ++ if trailing then [dot] else []) =
      some (endComponents parts trailing) := by
  rw [findIPv4Components, if_neg]
  · exact @findIPv4Loop_join [] parts hparts hne hlength trailing
  · exact List.append_ne_nil_of_left_ne_nil (join_ne_nil hparts hne) _

end Parts

/-! ### Numbers -/

/-- A decimal number, an octal number behind `0` or a hexadecimal one behind `0x`, and what it
stands for. -/
inductive Number : Text → ℕ → Prop
  | decimal {s : Text} (hne : s ≠ []) (hzero : s.head? ≠ some 48 ∨ s = [48])
      (hs : ∀ c ∈ s, IsDigit 10 c) : Number s (read 10 s)
  | octal {s : Text} (hne : s ≠ []) (hs : ∀ c ∈ s, IsDigit 8 c) : Number (48 :: s) (read 8 s)
  | hexadecimal {x : ℕ} {s : Text} (hx : x = 88 ∨ x = 120) (hs : ∀ c ∈ s, IsDigit 16 c) :
      Number (48 :: x :: s) (read 16 s)

section Numbers
variable {base v : ℕ} {s : Text}

lemma isDigit_mono {c : ℕ} (h : IsDigit base c) (hle : base ≤ 16) : IsDigit 16 c :=
  ⟨h.1, h.2.trans_le hle⟩

lemma plain_of_isDigit {c : ℕ} (h : IsDigit 16 c) : c ≠ dot ∧ c < 0x80 ∧ IsIPv4Char c := by
  obtain ⟨hc, -⟩ := id h
  refine ⟨?_, by omega, .inl h⟩
  rw [dot]
  omega

lemma Number.isPart (h : Number s v) : IsPart s := by
  have hzero : (48 : ℕ) ≠ dot ∧ 48 < 0x80 ∧ IsIPv4Char 48 := by decide
  cases h with
  | decimal hne _ hs =>
    exact ⟨hne, fun c hc => plain_of_isDigit (isDigit_mono (hs c hc) (by omega))⟩
  | octal _ hs =>
    refine ⟨List.cons_ne_nil _ _, List.forall_mem_cons.mpr ⟨hzero, fun c hc => ?_⟩⟩
    exact plain_of_isDigit (isDigit_mono (hs c hc) (by omega))
  | hexadecimal hx hs =>
    refine ⟨List.cons_ne_nil _ _, List.forall_mem_cons.mpr ⟨hzero,
      List.forall_mem_cons.mpr ⟨?_, fun c hc => plain_of_isDigit (hs c hc)⟩⟩⟩
    rcases hx with rfl | rfl <;> decide

/-- Sixteen digits, the first of which is not zero, are too many for 32 bits. -/
lemma read_take {s : Text} (hbase : 8 ≤ base) (hs : ∀ c ∈ s, IsDigit base c)
    (hhead : ∀ c ∈ s.head?, c ≠ 48) :
    (read base s < 2 ^ 32 → read base (s.take kMaxComponentLen) = read base s) ∧
      (2 ^ 32 ≤ read base s → 2 ^ 32 ≤ read base (s.take kMaxComponentLen)) := by
  by_cases hlength : s.length ≤ 16
  · rw [kMaxComponentLen, List.take_of_length_le hlength]
    exact ⟨fun _ => rfl, id⟩
  have hmany : ∀ t : Text, (∀ c ∈ t.head?, c ≠ 48) → (∀ c ∈ t, IsDigit base c) →
      16 ≤ t.length → 2 ^ 32 ≤ read base t := by
    intro t hhead ht hlength
    cases t with
    | nil => simp at hlength
    | cons c t =>
      have hc : value c ≠ 0 := fun h =>
        hhead c rfl ((value_eq_zero (ht c List.mem_cons_self)).mp h)
      have hle := @le_number_cons base (value c) (t.map value) hc
      rw [List.length_map] at hle
      rw [List.length_cons] at hlength
      calc 2 ^ 32 ≤ 8 ^ 15 := by norm_num
        _ ≤ base ^ 15 := Nat.pow_le_pow_left hbase 15
        _ ≤ base ^ t.length := Nat.pow_le_pow_right (by omega) (by omega)
        _ ≤ read base (c :: t) := hle
  have htake : 2 ^ 32 ≤ read base (s.take kMaxComponentLen) := by
    apply hmany
    · intro c hc
      rw [List.head?_take, if_neg (by decide)] at hc
      exact hhead c hc
    · exact fun c hc => hs c (List.mem_of_mem_take hc)
    · rw [kMaxComponentLen, List.length_take]
      omega
  have hall := hmany s hhead hs (by omega)
  exact ⟨fun hlt => by omega, fun _ => htake⟩

lemma read_dropWhile (hs : ∀ c ∈ s, IsDigit base c) :
    read base (s.dropWhile (· = 48)) = read base s := by
  induction s with
  | nil => rfl
  | cons c s ih =>
    rw [List.forall_mem_cons] at hs
    by_cases hc : c = 48
    · rw [List.dropWhile_cons_of_pos (by simpa using hc), ih hs.2, read_cons,
        (value_eq_zero hs.1).mpr hc]
      simp
    · rw [List.dropWhile_cons_of_neg (by simpa using hc)]

/-- What is behind the prefix is read as far as it fits. -/
lemma ipv4ComponentToNumber_digits {component : Text} {prefixLen : ℕ} (hbase : 8 ≤ base)
    (hstem : baseOf component = (base, prefixLen))
    (hs : ∀ c ∈ component.drop prefixLen, IsDigit base c) :
    ipv4ComponentToNumber component =
      if read base (component.drop prefixLen) < 2 ^ 32 then
        .ipv4 (read base (component.drop prefixLen))
      else .broken := by
  have hdigits : ∀ c ∈ (component.drop prefixLen).dropWhile (· = 48), IsDigit base c :=
    fun c hc => hs c (List.dropWhile_subset _ hc)
  obtain ⟨hsmall, hlarge⟩ := read_take hbase hdigits (by
    intro c hc hzero
    have hnot := List.head?_dropWhile_not (· = 48) (component.drop prefixLen)
    rw [Option.mem_def.mp hc] at hnot
    simp [hzero] at hnot)
  rw [read_dropWhile hs] at hsmall hlarge
  rw [ipv4ComponentToNumber, hstem]
  dsimp only
  rw [if_pos hdigits]
  by_cases hlt : read base (component.drop prefixLen) < 2 ^ 32
  · rw [hsmall hlt, if_neg (by omega), if_pos hlt]
  · rw [if_pos (by have := hlarge (not_lt.mp hlt); omega), if_neg hlt]

/-- A number is read, unless it has more than 32 bits. -/
theorem ipv4ComponentToNumber_number (h : Number s v) :
    ipv4ComponentToNumber s = if v < 2 ^ 32 then .ipv4 v else .broken := by
  cases h with
  | decimal hne hzero hs =>
    have hstem : baseOf s = (10, 0) := by
      rcases hzero with hhead | rfl
      · unfold baseOf
        split
        · exact absurd rfl hhead
        · rfl
      · rfl
    exact ipv4ComponentToNumber_digits (by omega) hstem hs
  | @octal s hne hs =>
    have hstem : baseOf (48 :: s) = (8, 1) := by
      cases s with
      | nil => exact absurd rfl hne
      | cons c s =>
        obtain ⟨hc, -⟩ := hs c List.mem_cons_self
        exact if_neg (by omega)
    exact ipv4ComponentToNumber_digits (by omega) hstem hs
  | @hexadecimal x s hx hs =>
    have hstem : baseOf (48 :: x :: s) = (16, 2) := if_pos hx
    exact ipv4ComponentToNumber_digits (by omega) hstem hs

/-- The numbers of the parts, where `vs` is what the parts stand for. -/
lemma componentValues_spec {parts : List Text} {vs : List ℕ} (h : List.Forall₂ Number parts vs)
    (rest : List Text) (hrest : rest = [] ∨ rest = [[]]) :
    ∃ broken values, componentValues (parts ++ rest) = some (broken, values) ∧
      (broken = true ↔ ∃ v ∈ vs, 2 ^ 32 ≤ v) ∧ (broken = false → values = vs) := by
  induction h with
  | nil => rcases hrest with rfl | rfl <;> exact ⟨false, [], rfl, by simp, fun _ => rfl⟩
  | @cons s v parts vs hnumber _ ih =>
    obtain ⟨broken, values, heq, hbroken, hvalues⟩ := ih
    rw [List.cons_append, componentValues, if_neg hnumber.isPart.ne_nil,
      ipv4ComponentToNumber_number hnumber, heq]
    by_cases hv : v < 2 ^ 32
    · rw [if_pos hv]
      refine ⟨broken, v :: values, rfl, ?_, fun h => by rw [hvalues h]⟩
      rw [hbroken, List.exists_mem_cons_iff, or_iff_right (not_le.mpr hv)]
    · rw [if_neg hv]
      exact ⟨true, values, rfl, iff_of_true rfl ⟨v, List.mem_cons_self, not_lt.mp hv⟩, nofun⟩

/-- The bytes of a number, the lowest last, and what does not fit. -/
lemma fillBytes_spec (k v : ℕ) (address : List ℕ) :
    ∃ bytes, fillBytes k v address = (bytes ++ address, v / 256 ^ k) ∧ bytes.length = k ∧
      (∀ b ∈ bytes, b < 256) ∧ number 256 bytes = v % 256 ^ k := by
  induction k generalizing v address with
  | zero => exact ⟨[], by simp [fillBytes], rfl, by simp, by simp [number, Nat.mod_one]⟩
  | succ k ih =>
    obtain ⟨bytes, heq, hlength, hbytes, hnumber⟩ := ih (v / 256) (v % 256 :: address)
    refine ⟨bytes ++ [v % 256], ?_, ?_, ?_, ?_⟩
    · rw [fillBytes, heq, Nat.div_div_eq_div_mul, ← Nat.pow_succ', List.append_assoc,
        List.singleton_append]
    · rw [List.length_append, hlength, List.length_singleton]
    · intro b hb
      rcases List.mem_append.mp hb with hb | hb
      · exact hbytes b hb
      · rw [List.mem_singleton.mp hb]
        exact Nat.mod_lt _ (by omega)
    · rw [number_append, hnumber, List.length_singleton, pow_one]
      have hone : number 256 [v % 256] = v % 256 := by simp [number]
      rw [hone, Nat.pow_succ', Nat.mod_mul, Nat.add_comm, Nat.mul_comm]

/-- All but the last number are bytes, and the last fits into the bytes that are left. -/
def Fits (vs : List ℕ) : Prop :=
  (∀ v ∈ vs.dropLast, v ≤ 255) ∧ vs.getLastD 0 < 256 ^ (5 - vs.length)

instance (vs : List ℕ) : Decidable (Fits vs) := inferInstanceAs (Decidable (_ ∧ _))

/-- The number of an address of the given parts. -/
def partsNumber (vs : List ℕ) : ℕ :=
  number 256 vs.dropLast * 256 ^ (5 - vs.length) + vs.getLastD 0

/-- The four bytes that the parts stand for. -/
def partsAddress (vs : List ℕ) : List ℕ :=
  vs.dropLast ++ (fillBytes (5 - vs.length) (vs.getLastD 0) []).1

lemma partsAddress_spec {vs : List ℕ} (hne : vs ≠ []) (hlength : vs.length ≤ 4) (h : Fits vs) :
    (partsAddress vs).length = 4 ∧ (∀ b ∈ partsAddress vs, b < 256) ∧
      number 256 (partsAddress vs) = partsNumber vs := by
  obtain ⟨bytes, heq, hcount, hbytes, hnumber⟩ := fillBytes_spec (5 - vs.length) (vs.getLastD 0) []
  rw [List.append_nil] at heq
  have hpos := List.length_pos_of_ne_nil hne
  rw [partsAddress, heq, partsNumber]
  dsimp only
  refine ⟨?_, ?_, ?_⟩
  · rw [List.length_append, List.length_dropLast, hcount]
    omega
  · intro b hb
    rcases List.mem_append.mp hb with hb | hb
    · exact Nat.lt_succ_of_le (h.1 b hb)
    · exact hbytes b hb
  · rw [number_append, hcount, hnumber, Nat.mod_eq_of_lt h.2]

/-- A host of one to four numbers is an address when they fit, and broken otherwise. -/
theorem ipv4AddressToNumber_numbers {parts : List Text} {vs : List ℕ}
    (h : List.Forall₂ Number parts vs) (hne : vs ≠ []) (hlength : vs.length ≤ 4)
    (trailing : Bool) :
    ipv4AddressToNumber (join parts ++ if trailing then [dot] else []) =
      if Fits vs then .ipv4 (partsAddress vs) vs.length else .broken := by
  have hcount := h.length_eq
  have hpos := List.length_pos_of_ne_nil hne
  have hparts : ∀ s ∈ parts, IsPart s := by
    intro s hs
    obtain ⟨i, hi, rfl⟩ := List.mem_iff_getElem.mp hs
    exact (h.get hi (hcount ▸ hi)).isPart
  have hsome : parts ≠ [] := List.ne_nil_of_length_pos (by omega)
  obtain ⟨rest, hrest, hend⟩ : ∃ rest, (rest = [] ∨ rest = [[]]) ∧
      endComponents parts trailing = parts ++ rest := by
    rw [endComponents]
    split_ifs
    · exact ⟨[[]], .inr rfl, rfl⟩
    · exact ⟨[], .inl rfl, (List.append_nil _).symm⟩
  obtain ⟨broken, values, heq, hbroken, hvalues⟩ := componentValues_spec h rest hrest
  rw [ipv4AddressToNumber, findIPv4Components_join hparts hsome (by omega) trailing]
  dsimp only
  rw [hend, heq]
  cases broken with
  | true =>
    -- a number of more than 32 bits fits nowhere
    obtain ⟨v, hv, hlarge⟩ := hbroken.mp rfl
    rw [if_neg]
    rintro ⟨hinit, hlast⟩
    rw [← List.dropLast_append_getLast hne, List.mem_append, List.mem_singleton] at hv
    rcases hv with hv | rfl
    · have hle := hinit v hv
      omega
    · rw [List.getLastD_eq_getLast?, List.getLast?_eq_some_getLast hne, Option.getD_some] at hlast
      have hpow : 256 ^ (5 - vs.length) ≤ 256 ^ 4 := Nat.pow_le_pow_right (by omega) (by omega)
      omega
  | false =>
    obtain rfl := hvalues rfl
    obtain ⟨bytes, hfill, -⟩ := fillBytes_spec (5 - values.length) (values.getLastD 0) []
    dsimp only
    by_cases hinit : ∃ v ∈ values.dropLast, v > 255
    · rw [if_pos hinit, if_neg]
      rintro ⟨hle, -⟩
      obtain ⟨v, hv, hgt⟩ := hinit
      have := hle v hv
      omega
    · have hle : ∀ v ∈ values.dropLast, v ≤ 255 :=
        fun v hv => not_lt.mp fun hgt => hinit ⟨v, hv, hgt⟩
      rw [if_neg hinit, hfill]
      dsimp only
      by_cases hfits : values.getLastD 0 < 256 ^ (5 - values.length)
      · rw [Nat.div_eq_of_lt hfits, if_neg (not_not.mpr rfl), if_pos ⟨hle, hfits⟩, partsAddress,
          hfill]
      · have hresidual : values.getLastD 0 / 256 ^ (5 - values.length) ≠ 0 := by
          rw [Nat.div_ne_zero_iff]
          exact ⟨by positivity, not_lt.mp hfits⟩
        rw [if_pos hresidual, if_neg fun h => hfits h.2]

end Numbers

/-! ### Round trip -/

lemma appendIPv4Address_eq_join (address : List ℕ) :
    appendIPv4Address address = join (address.map (write 10)) := by
  induction address with
  | nil => rfl
  | cons b address ih =>
    cases address with
    | nil => rfl
    | cons b' address =>
      rw [appendIPv4Address, ih]
      · rfl
      · exact List.cons_ne_nil _ _

lemma number_write (b : ℕ) : Number (write 10 b) b := by
  have hdigits : ∀ c ∈ write 10 b, IsDigit 10 c :=
    fun c hc => isDigit_of_mem_write (by omega) (by omega) hc
  have hzero : (write 10 b).head? ≠ some 48 ∨ write 10 b = [48] := by
    by_cases hb : b = 0
    · exact .inr (by rw [write, if_pos hb])
    · obtain ⟨c, s, heq, hc⟩ := @head_write 10 b (by omega) hb
      left
      rw [heq, List.head?_cons]
      simpa using hc
  have h := Number.decimal (write_ne_nil 10 b) hzero hdigits
  rwa [read_write (by omega) (by omega)] at h

/-- An address that is written is read again, with its four components. -/
theorem ipv4AddressToNumber_append {address : List ℕ} (hlength : address.length = 4)
    (hbytes : ∀ b ∈ address, b < 256) :
    ipv4AddressToNumber (appendIPv4Address address) = .ipv4 address 4 := by
  have hnumbers : List.Forall₂ Number (address.map (write 10)) address := by
    rw [List.forall₂_map_left_iff]
    exact List.forall₂_same.mpr fun b _ => number_write b
  have hne : address ≠ [] := List.ne_nil_of_length_pos (by omega)
  have hread := ipv4AddressToNumber_numbers hnumbers hne hlength.le false
  rw [appendIPv4Address_eq_join]
  rw [if_neg Bool.false_ne_true, List.append_nil] at hread
  have hlast := hbytes _ (List.getLast_mem hne)
  have hgetLast : address.getLastD 0 = address.getLast hne := by
    rw [List.getLastD_eq_getLast?, List.getLast?_eq_some_getLast hne, Option.getD_some]
  have hfits : Fits address := by
    refine ⟨fun b hb => Nat.le_of_lt_succ (hbytes b (List.mem_of_mem_dropLast hb)), ?_⟩
    rw [hgetLast, hlength]
    exact hlast
  have haddress : partsAddress address = address := by
    rw [partsAddress, hgetLast, hlength, fillBytes, fillBytes, Nat.mod_eq_of_lt hlast]
    exact List.dropLast_append_getLast hne
  rw [hread, if_pos hfits, haddress, hlength]

/-! ### Every host -/

/-- There are at most four components, and one of them is not empty. -/
lemma findIPv4Loop_components {components : List Text} {cur spec : Text} {result : List Text}
    (h : findIPv4Loop components cur spec = some result) (hlength : components.length ≤ 3)
    (hne : ∀ s ∈ components, s ≠ []) : result.length ≤ 4 ∧ ∃ s ∈ result, s ≠ [] := by
  induction spec generalizing components cur with
  | nil =>
    rw [findIPv4Loop] at h
    split_ifs at h with hempty
    obtain rfl := Option.some.inj h
    rw [List.length_append, List.length_singleton] at hempty ⊢
    refine ⟨by omega, ?_⟩
    by_cases hcur : cur = []
    · cases components with
      | nil => exact absurd ⟨hcur, rfl⟩ hempty
      | cons s components => exact ⟨s, List.mem_cons_self, hne s List.mem_cons_self⟩
    · exact ⟨cur, List.mem_append_right _ (List.mem_singleton_self cur), hcur⟩
  | cons c spec ih =>
    rw [findIPv4Loop] at h
    dsimp only at h
    split_ifs at h with hdot hcur hfour hend hvalid
    · obtain rfl := Option.some.inj h
      exact ⟨hfour.le, cur, List.mem_append_right _ (List.mem_singleton_self cur), hcur⟩
    · rw [List.length_append, List.length_singleton] at hfour
      apply ih h
      · rw [List.length_append, List.length_singleton]
        omega
      · intro s hs
        rcases List.mem_append.mp hs with hs | hs
        · exact hne s hs
        · rwa [List.mem_singleton.mp hs]
    · exact ih h hlength hne

lemma componentValues_length {components : List Text} {broken : Bool} {values : List ℕ}
    (h : componentValues components = some (broken, values)) :
    values.length ≤ components.length ∧
      (broken = false → (∃ s ∈ components, s ≠ []) → values ≠ []) := by
  induction components generalizing broken values with
  | nil =>
    obtain ⟨rfl, rfl⟩ := Prod.mk.inj (Option.some.inj h)
    exact ⟨le_rfl, fun _ hs => by simp at hs⟩
  | cons s components ih =>
    rw [componentValues] at h
    by_cases hempty : s = []
    · rw [if_pos hempty] at h
      obtain ⟨hle, hsome⟩ := ih h
      refine ⟨hle.trans (Nat.le_succ _), fun hbroken hs => hsome hbroken ?_⟩
      obtain ⟨s', hs', hne⟩ := hs
      rcases List.mem_cons.mp hs' with rfl | hs'
      · exact absurd hempty hne
      · exact ⟨s', hs', hne⟩
    rw [if_neg hempty] at h
    cases hnumber : ipv4ComponentToNumber s with
    | neutral =>
      rw [hnumber] at h
      cases h
    | broken =>
      rw [hnumber] at h
      obtain ⟨⟨b, vs⟩, hrest, heq⟩ := Option.map_eq_some_iff.mp h
      obtain ⟨rfl, rfl⟩ := Prod.mk.inj heq
      exact ⟨(ih hrest).1.trans (Nat.le_succ _), nofun⟩
    | ipv4 number =>
      rw [hnumber] at h
      obtain ⟨⟨b, vs⟩, hrest, heq⟩ := Option.map_eq_some_iff.mp h
      obtain ⟨rfl, rfl⟩ := Prod.mk.inj heq
      exact ⟨Nat.succ_le_succ (ih hrest).1, fun _ _ => List.cons_ne_nil _ _⟩

/-- An address that is read has four bytes. -/
theorem ipv4AddressToNumber_bytes {host : Text} {address : List ℕ} {num : ℕ}
    (h : ipv4AddressToNumber host = .ipv4 address num) :
    address.length = 4 ∧ ∀ b ∈ address, b < 256 := by
  rw [ipv4AddressToNumber] at h
  cases hfind : findIPv4Components host with
  | none =>
    rw [hfind] at h
    cases h
  | some components =>
    rw [hfind] at h
    dsimp only at h
    rw [findIPv4Components] at hfind
    split_ifs at hfind
    obtain ⟨hcount, hsome⟩ := findIPv4Loop_components hfind (Nat.zero_le 3) (by simp)
    cases hvalues : componentValues components with
    | none =>
      rw [hvalues] at h
      cases h
    | some result =>
      obtain ⟨broken, values⟩ := result
      rw [hvalues] at h
      obtain ⟨hle, hne⟩ := componentValues_length hvalues
      cases broken with
      | true => cases h
      | false =>
        dsimp only at h
        obtain ⟨bytes, hfill, hlength, hbytes, -⟩ :=
          fillBytes_spec (5 - values.length) (values.getLastD 0) []
        rw [hfill, List.append_nil] at h
        split_ifs at h with hinit hresidual
        obtain ⟨rfl, -⟩ := IPv4Result.ipv4.inj h
        have hpos := List.length_pos_of_ne_nil (hne rfl hsome)
        constructor
        · rw [List.length_append, List.length_dropLast, hlength]
          omega
        · intro b hb
          rcases List.mem_append.mp hb with hb | hb
          · exact Nat.lt_succ_of_le (not_lt.mp fun hgt => hinit ⟨b, hb, hgt⟩)
          · exact hbytes b hb

end Chromium.UrlCanonIP
