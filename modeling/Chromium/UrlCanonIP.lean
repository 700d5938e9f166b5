import Chromium.UrlCanonIPv6

/-!
# Canonical addresses

`url/url_canon_ip.cc`: a host is taken for an IPv4 address first, then for an IPv6 address. What is
written for it is the same when it is read again.
-/
namespace Chromium.UrlCanonIP

open Positional

inductive Family
  | neutral
  | broken
  | ipv4
  | ipv6
  deriving DecidableEq

/-- `CanonHostInfo`, with `out_host` as text. -/
structure CanonHostInfo where
  family : Family
  address : List ℕ
  numIPv4Components : ℕ
  outHost : Text

def canonicalizeIPAddress (host : Text) : CanonHostInfo :=
  match ipv4AddressToNumber host with
  | .ipv4 address num => ⟨.ipv4, address, num, appendIPv4Address address⟩
  | .broken => ⟨.broken, [], 0, []⟩
  | .neutral =>
    match ipv6AddressToNumber host with
    | some address =>
      ⟨.ipv6, address, 0, openBracket :: (appendIPv6Address address ++ [closeBracket])⟩
    | none =>
      -- these characters stand in no other host
      if ∃ c ∈ host, c = openBracket ∨ c = closeBracket ∨ c = colon then ⟨.broken, [], 0, []⟩
      else ⟨.neutral, [], 0, []⟩

/-! ### Every IPv6 host -/

section IPv6
variable {p q : IPv6Parsed} {cur : Text}

/-- The contraction stands before one of the components, or behind the last. -/
def IPv6Parsed.Ordered (p : IPv6Parsed) : Prop :=
  ∀ j ∈ p.indexOfContraction, j ≤ p.hexComponents.length

lemma IPv6Parsed.Ordered.addComponent (h : p.Ordered) {emptyAllowed : Bool}
    (hadd : p.addComponent cur emptyAllowed = some q) : q.Ordered := by
  rw [IPv6Parsed.addComponent] at hadd
  split_ifs at hadd
  · obtain rfl := Option.some.inj hadd
    intro j hj
    rw [List.length_append]
    exact (h j hj).trans (Nat.le_add_right _ _)
  · obtain rfl := Option.some.inj hadd
    exact h

lemma IPv6Parsed.Ordered.addContraction (hadd : p.addContraction = some q) : q.Ordered := by
  rw [IPv6Parsed.addContraction] at hadd
  split_ifs at hadd
  obtain rfl := Option.some.inj hadd
  intro j hj
  obtain rfl := Option.some.inj hj
  exact le_rfl

lemma parseIPv6Loop_ordered {atBegin : Bool} {spec : Text} (h : p.Ordered)
    (hparse : parseIPv6Loop atBegin cur p spec = some q) : q.Ordered := by
  fun_induction parseIPv6Loop atBegin cur p spec with
  | case1 atBegin cur p => exact h.addComponent hparse
  | case2 atBegin cur p ih =>
    obtain ⟨p', hadd, hrest⟩ := Option.bind_eq_some_iff.mp hparse
    exact ih p' (h.addComponent hadd) hrest
  | case3 atBegin cur p rest ih =>
    obtain ⟨p', hadd, hrest⟩ := Option.bind_eq_some_iff.mp hparse
    obtain ⟨p'', -, hcontraction⟩ := Option.bind_eq_some_iff.mp hadd
    exact ih p' (.addContraction hcontraction) hrest
  | case4 atBegin cur p d rest _ ih =>
    obtain ⟨p', hadd, hrest⟩ := Option.bind_eq_some_iff.mp hparse
    exact ih p' (h.addComponent hadd) hrest
  | case5 => cases hparse
  | case6 =>
    obtain rfl := Option.some.inj hparse
    exact h
  | case7 => cases hparse
  | case8 atBegin cur p c spec _ _ _ ih => exact ih h hparse

lemma parseIPv6_ordered {host : Text} (h : parseIPv6 host = some p) : p.Ordered := by
  rw [parseIPv6] at h
  split_ifs at h
  exact parseIPv6Loop_ordered (fun j hj => by cases hj) h

/-- There are two bytes for each component, and those of the contraction where it stands. -/
lemma length_componentBytes (numBytes : ℕ) (index : Option ℕ) (i : ℕ) (components : List Text) :
    (componentBytes numBytes index i components).length = 2 * components.length +
      if ∃ j ∈ index, i ≤ j ∧ j ≤ i + components.length then numBytes else 0 := by
  induction components generalizing i with
  | nil =>
    rw [componentBytes]
    by_cases h : some i = index
    · rw [if_pos h, if_pos ⟨i, h.symm, le_rfl, le_rfl⟩, List.length_replicate]
      simp
    · rw [if_neg h, if_neg]
      · rfl
      · rintro ⟨j, hj, hle, hle'⟩
        obtain rfl : i = j := by simp only [List.length_nil] at hle'; omega
        exact h hj.symm
  | cons component components ih =>
    rw [componentBytes, List.length_append, List.length_cons, List.length_cons, ih,
      List.length_cons]
    by_cases h : some i = index
    · have hlater : ¬ ∃ j ∈ index, i + 1 ≤ j ∧ j ≤ i + 1 + components.length := by
        rintro ⟨j, hj, hle, -⟩
        obtain rfl := Option.some.inj (h.trans hj)
        omega
      rw [if_pos h, if_neg hlater, if_pos ⟨i, h.symm, by omega, by omega⟩, List.length_replicate]
      omega
    · have hsame : (∃ j ∈ index, i + 1 ≤ j ∧ j ≤ i + 1 + components.length) ↔
          ∃ j ∈ index, i ≤ j ∧ j ≤ i + (components.length + 1) := by
        constructor
        · rintro ⟨j, hj, hle, hle'⟩
          exact ⟨j, hj, by omega, by omega⟩
        · rintro ⟨j, hj, hle, hle'⟩
          have hne : i ≠ j := fun heq => h (heq ▸ hj.symm)
          exact ⟨j, hj, by omega, by omega⟩
      rw [if_neg h, List.length_nil]
      simp only [hsame]
      omega

lemma componentBytes_lt (numBytes : ℕ) (index : Option ℕ) (i : ℕ) (components : List Text) :
    ∀ b ∈ componentBytes numBytes index i components, b < 256 := by
  have hzeros : ∀ i : ℕ, ∀ b ∈ (if some i = index then List.replicate numBytes 0 else []),
      b < 256 := by
    intro i b hb
    split_ifs at hb
    · rw [List.eq_of_mem_replicate hb]
      omega
    · cases hb
  induction components generalizing i with
  | nil => exact hzeros i
  | cons component components ih =>
    intro b hb
    rw [componentBytes, List.mem_append, List.mem_cons, List.mem_cons] at hb
    rcases hb with hb | rfl | rfl | hb
    · exact hzeros i b hb
    · rw [Nat.shiftRight_and_distrib]
      exact Nat.lt_of_le_of_lt Nat.and_le_right (by decide)
    · exact Nat.lt_of_le_of_lt Nat.and_le_right (by decide)
    · exact ih _ b hb

/-- An address that is read has sixteen bytes. -/
theorem ipv6AddressToNumber_bytes {host : Text} {address : List ℕ}
    (h : ipv6AddressToNumber host = some address) :
    address.length = 16 ∧ ∀ b ∈ address, b < 256 := by
  rw [ipv6AddressToNumber] at h
  split_ifs at h
  cases hparse : parseIPv6 host.tail.dropLast with
  | none =>
    rw [hparse] at h
    cases h
  | some p =>
    rw [hparse] at h
    dsimp only at h
    have hordered := parseIPv6_ordered hparse
    cases hsize : checkIPv6ComponentsSize p with
    | none =>
      rw [hsize] at h
      cases h
    | some numBytes =>
      rw [hsize] at h
      dsimp only at h
      have hlt := componentBytes_lt numBytes p.indexOfContraction 0 p.hexComponents
      have hlength := length_componentBytes numBytes p.indexOfContraction 0 p.hexComponents
      have htotal : (componentBytes numBytes p.indexOfContraction 0 p.hexComponents).length +
          (if p.ipv4Component.isSome then 4 else 0) = 16 := by
        rw [checkIPv6ComponentsSize] at hsize
        rw [hlength]
        generalize (if p.ipv4Component.isSome = true then 4 else 0) = tail at hsize ⊢
        cases hindex : p.indexOfContraction with
        | none =>
          rw [hindex, if_pos rfl] at hsize
          split_ifs at hsize with hsum
          have hnot : ¬ ∃ j ∈ (none : Option ℕ), 0 ≤ j ∧ j ≤ 0 + p.hexComponents.length := by
            simp
          rw [if_neg hnot]
          omega
        | some j =>
          have hle := hordered j hindex
          rw [hindex, if_neg (Option.some_ne_none j)] at hsize
          generalize (if 16 - _ < 2 then 2 else _) = n at hsize
          split_ifs at hsize with hsum
          obtain rfl := Option.some.inj hsize
          have hin : ∃ j' ∈ some j, 0 ≤ j' ∧ j' ≤ 0 + p.hexComponents.length :=
            ⟨j, rfl, Nat.zero_le j, by omega⟩
          rw [if_pos hin]
          omega
      cases hcomponent : p.ipv4Component with
      | none =>
        rw [hcomponent] at h htotal
        obtain rfl := Option.some.inj h
        exact ⟨htotal, hlt⟩
      | some component =>
        rw [hcomponent] at h htotal
        dsimp only at h
        cases hnumber : ipv4AddressToNumber component with
        | neutral =>
          rw [hnumber] at h
          cases h
        | broken =>
          rw [hnumber] at h
          cases h
        | ipv4 bytes num =>
          rw [hnumber] at h
          obtain rfl := Option.some.inj h
          obtain ⟨hfour, hbytes⟩ := ipv4AddressToNumber_bytes hnumber
          constructor
          · rw [List.length_append, hfour]
            exact htotal
          · intro b hb
            rcases List.mem_append.mp hb with hb | hb
            · exact hlt b hb
            · exact hbytes b hb

end IPv6

/-! ### Again -/

/-- What is written in brackets is not taken for an IPv4 address. -/
lemma ipv4AddressToNumber_brackets (text : Text) :
    ipv4AddressToNumber (openBracket :: text) = .neutral := by
  have hfind : findIPv4Components (openBracket :: text) = none := by
    rw [findIPv4Components, if_neg (List.cons_ne_nil _ _), findIPv4Loop, if_neg (by decide),
      if_pos (.inr (by decide))]
  rw [ipv4AddressToNumber, hfind]

lemma canonicalizeIPAddress_ipv4 {address : List ℕ} (hlength : address.length = 4)
    (hbytes : ∀ b ∈ address, b < 256) :
    canonicalizeIPAddress (appendIPv4Address address) =
      ⟨.ipv4, address, 4, appendIPv4Address address⟩ := by
  rw [canonicalizeIPAddress, ipv4AddressToNumber_append hlength hbytes]

lemma canonicalizeIPAddress_ipv6 {address : List ℕ} (hlength : address.length = 16)
    (hbytes : ∀ b ∈ address, b < 256) :
    canonicalizeIPAddress (openBracket :: (appendIPv6Address address ++ [closeBracket])) =
      ⟨.ipv6, address, 0, openBracket :: (appendIPv6Address address ++ [closeBracket])⟩ := by
  rw [canonicalizeIPAddress, ipv4AddressToNumber_brackets,
    ipv6AddressToNumber_append hlength hbytes]

/-- A host that is an address is written so that it is the same address. -/
theorem canonicalizeIPAddress_again (host : Text)
    (h : (canonicalizeIPAddress host).family = .ipv4 ∨
      (canonicalizeIPAddress host).family = .ipv6) :
    (canonicalizeIPAddress (canonicalizeIPAddress host).outHost).family =
        (canonicalizeIPAddress host).family ∧
      (canonicalizeIPAddress (canonicalizeIPAddress host).outHost).address =
        (canonicalizeIPAddress host).address ∧
      (canonicalizeIPAddress (canonicalizeIPAddress host).outHost).outHost =
        (canonicalizeIPAddress host).outHost := by
  cases hv4 : ipv4AddressToNumber host with
  | ipv4 address num =>
    obtain ⟨hlength, hbytes⟩ := ipv4AddressToNumber_bytes hv4
    have hthis : canonicalizeIPAddress host =
        ⟨.ipv4, address, num, appendIPv4Address address⟩ := by
      rw [canonicalizeIPAddress, hv4]
    rw [hthis]
    dsimp only
    rw [canonicalizeIPAddress_ipv4 hlength hbytes]
    exact ⟨rfl, rfl, rfl⟩
  | broken =>
    rw [canonicalizeIPAddress, hv4] at h
    rcases h with h | h <;> cases h
  | neutral =>
    cases hv6 : ipv6AddressToNumber host with
    | some address =>
      obtain ⟨hlength, hbytes⟩ := ipv6AddressToNumber_bytes hv6
      have hthis : canonicalizeIPAddress host =
          ⟨.ipv6, address, 0, openBracket :: (appendIPv6Address address ++ [closeBracket])⟩ := by
        rw [canonicalizeIPAddress, hv4]
        dsimp only
        rw [hv6]
      rw [hthis]
      dsimp only
      rw [canonicalizeIPAddress_ipv6 hlength hbytes]
      exact ⟨rfl, rfl, rfl⟩
    | none =>
      rw [canonicalizeIPAddress, hv4] at h
      dsimp only at h
      rw [hv6] at h
      dsimp only at h
      split_ifs at h <;> rcases h with h | h <;> cases h

/-- Addresses are kept: those that are written are read, hosts that are addresses are written so
that they stay what they are, and a host of numbers is what the numbers say. -/
theorem addresses_kept :
    (∀ address : List ℕ, address.length = 16 → (∀ b ∈ address, b < 256) →
      ipv6AddressToNumber (openBracket :: (appendIPv6Address address ++ [closeBracket])) =
        some address) ∧
    (∀ address : List ℕ, address.length = 4 → (∀ b ∈ address, b < 256) →
      ipv4AddressToNumber (appendIPv4Address address) = .ipv4 address 4) ∧
    (∀ host : Text, (canonicalizeIPAddress host).family = .ipv4 ∨
        (canonicalizeIPAddress host).family = .ipv6 →
      let again := canonicalizeIPAddress (canonicalizeIPAddress host).outHost
      again.family = (canonicalizeIPAddress host).family ∧
        again.address = (canonicalizeIPAddress host).address ∧
        again.outHost = (canonicalizeIPAddress host).outHost) ∧
    ∀ (parts : List Text) (vs : List ℕ) (trailing : Bool), List.Forall₂ Number parts vs →
      vs ≠ [] → vs.length ≤ 4 →
      let info := canonicalizeIPAddress (join parts ++ if trailing then [dot] else [])
      (Fits vs → info.family = .ipv4 ∧ info.address.length = 4 ∧ (∀ b ∈ info.address, b < 256) ∧
        number 256 info.address = partsNumber vs) ∧
        (¬ Fits vs → info.family = .broken) := by
  refine ⟨fun address => ipv6AddressToNumber_append, fun address => ipv4AddressToNumber_append,
    canonicalizeIPAddress_again, ?_⟩
  intro parts vs trailing hparts hne hlength
  have hnumber := ipv4AddressToNumber_numbers hparts hne hlength trailing
  dsimp only
  rw [canonicalizeIPAddress, hnumber]
  constructor
  · intro hfits
    rw [if_pos hfits]
    exact ⟨rfl, partsAddress_spec hne hlength hfits⟩
  · intro hfits
    rw [if_neg hfits]

/-- `0x7f.1` is `127.0.0.1`. -/
theorem addresses_kept_loopback :
    let host := join [[48, 120, 55, 102], [49]]
    (canonicalizeIPAddress host).family = .ipv4 ∧
      number 256 (canonicalizeIPAddress host).address = 127 * 256 ^ 3 + 1 := by
  intro host
  have hparts : List.Forall₂ Number [[48, 120, 55, 102], [49]] [127, 1] := by
    refine .cons ?_ (.cons ?_ .nil)
    · exact .hexadecimal (s := [55, 102]) (.inr rfl) (by decide)
    · exact .decimal (s := [49]) (by decide) (.inl (by decide)) (by decide)
  obtain ⟨hfamily, -, -, hnumber⟩ := (addresses_kept.2.2.2 _ _ false hparts (by decide)
    (by decide)).1 (by decide)
  exact ⟨hfamily, hnumber⟩

end Chromium.UrlCanonIP
