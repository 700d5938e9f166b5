import Mathlib.Data.List.Basic
import Mathlib.Tactic

/-!
# Readers of a prefix

A reader takes an item from the front of a list, or waits when the list holds too
little. The readers here are exact: whether the item is there, and what it is, is
decided by the bytes of the item alone.
-/
namespace Chromium.PrefixReader

/-- A reader gives an item and what is left, or nothing when the input is too short. -/
abbrev Reader (β α : Type*) := List β → Option (α × List β)

variable {α β γ : Type*}

namespace Reader

def pure (a : α) : Reader β α := fun input => some (a, input)

def bind (r : Reader β α) (next : α → Reader β γ) : Reader β γ := fun input =>
  match r input with
  | none => none
  | some (a, rest) => next a rest

def map (g : α → γ) (r : Reader β α) : Reader β γ := r.bind fun a => pure (g a)

/-- Reads `n` elements. -/
def take (n : ℕ) : Reader β (List β) := fun input =>
  if input.length < n then none else some (input.take n, input.drop n)

/-- An item is read off its own elements, and not before the last of them is there. -/
def Exact (r : Reader β α) : Prop :=
  ∀ input a rest, r input = some (a, rest) → ∃ item, input = item ++ rest ∧
    (∀ more, r (item ++ more) = some (a, more)) ∧
    ∀ part, part <+: item → part ≠ item → r part = none

lemma bind_some {r : Reader β α} {next : α → Reader β γ} {input rest : List β} {a : α}
    (h : r input = some (a, rest)) : r.bind next input = next a rest := by
  rw [bind, h]

lemma bind_none {r : Reader β α} {next : α → Reader β γ} {input : List β}
    (h : r input = none) : r.bind next input = none := by
  rw [bind, h]

lemma map_some {r : Reader β α} {g : α → γ} {input rest : List β} {a : α}
    (h : r input = some (a, rest)) : r.map g input = some (g a, rest) :=
  bind_some h

lemma bind_eq_some {r : Reader β α} {next : α → Reader β γ} {input : List β} {c : γ × List β} :
    r.bind next input = some c ↔ ∃ a rest, r input = some (a, rest) ∧ next a rest = some c := by
  constructor
  · intro h
    cases hr : r input with
    | none =>
      rw [bind_none hr] at h
      cases h
    | some result => exact ⟨result.1, result.2, rfl, by rwa [bind_some hr] at h⟩
  · rintro ⟨a, rest, hr, h⟩
    rwa [bind_some hr]

lemma map_eq_some {r : Reader β α} {g : α → γ} {input rest : List β} {c : γ} :
    r.map g input = some (c, rest) ↔ ∃ a, r input = some (a, rest) ∧ g a = c := by
  unfold map
  rw [bind_eq_some]
  constructor
  · rintro ⟨a, rest', h, hc⟩
    cases hc
    exact ⟨a, h, rfl⟩
  · rintro ⟨a, h, rfl⟩
    exact ⟨a, rest, h, rfl⟩

lemma take_append (xs ys : List β) : take xs.length (xs ++ ys) = some (xs, ys) := by
  unfold take
  rw [if_neg (by simp), List.take_left, List.drop_left]

lemma exact_pure (a : α) : Exact (pure a : Reader β α) := by
  intro input b rest h
  cases h
  refine ⟨[], rfl, fun more => rfl, fun part hpart hne => ?_⟩
  exact absurd (List.prefix_nil.mp hpart) hne

lemma exact_take (n : ℕ) : Exact (take n : Reader β (List β)) := by
  intro input a rest h
  unfold take at h
  split_ifs at h with hlen
  cases h
  have hitem : (input.take n).length = n := List.length_take_of_le (not_lt.mp hlen)
  refine ⟨input.take n, (List.take_append_drop n input).symm, fun more => ?_, fun part hp hne => ?_⟩
  · have := take_append (input.take n) more
    rwa [hitem] at this
  · have hle := hp.length_le
    have hneq : part.length ≠ (input.take n).length := fun heq => hne (hp.eq_of_length heq)
    exact if_pos (by omega)

/-- Reading one item after another is exact. -/
lemma Exact.bind {r : Reader β α} {next : α → Reader β γ} (hr : Exact r)
    (hnext : ∀ a, Exact (next a)) : Exact (r.bind next) := by
  intro input c rest h
  cases hfirst : r input with
  | none =>
    rw [bind_none hfirst] at h
    cases h
  | some result =>
    obtain ⟨a, mid⟩ := result
    rw [bind_some hfirst] at h
    obtain ⟨first, rfl, hread, hwait⟩ := hr _ _ _ hfirst
    obtain ⟨second, rfl, hread', hwait'⟩ := hnext a _ _ _ h
    refine ⟨first ++ second, (List.append_assoc _ _ _).symm, fun more => ?_, fun part hp hne => ?_⟩
    · rw [List.append_assoc, bind_some (hread _), hread']
    · obtain ⟨after, hafter⟩ := hp
      rcases List.append_eq_append_iff.mp hafter with ⟨left, hpart, -⟩ | ⟨tail, rfl, htail⟩
      · by_cases heq : part = first
        · -- the first item is complete and nothing of the second is there
          subst heq
          have := hread []
          rw [List.append_nil] at this
          rw [bind_some this]
          apply hwait' [] (List.nil_prefix)
          rintro rfl
          exact hne (List.append_nil _).symm
        · exact bind_none (hwait part ⟨left, hpart.symm⟩ heq)
      · rw [bind_some (hread tail)]
        exact hwait' tail ⟨after, htail.symm⟩ fun heq => hne (by rw [heq])

lemma Exact.map {r : Reader β α} (hr : Exact r) (g : α → γ) : Exact (r.map g) :=
  hr.bind fun a => exact_pure (g a)

lemma Exact.ite {r s : Reader β α} {P : Prop} [Decidable P] (hr : Exact r) (hs : Exact s) :
    Exact (if P then r else s) := by
  split_ifs
  · exact hr
  · exact hs

/-- An item that can be read stays there when more comes in. -/
lemma Exact.append {r : Reader β α} (hr : Exact r) {input rest : List β} {a : α}
    (h : r input = some (a, rest)) (more : List β) :
    r (input ++ more) = some (a, rest ++ more) := by
  obtain ⟨item, rfl, hread, -⟩ := hr _ _ _ h
  rw [List.append_assoc]
  exact hread (rest ++ more)

/-- While an item is incomplete, so was it with less of the input. -/
lemma Exact.none_of_prefix {r : Reader β α} (hr : Exact r) {part input : List β}
    (h : r input = none) (hp : part <+: input) : r part = none := by
  obtain ⟨more, rfl⟩ := hp
  cases hpart : r part with
  | none => rfl
  | some result =>
    rw [hr.append hpart more] at h
    cases h

/-! ### Items that tell their size -/

/-- Reads an item whose first `header` elements tell its size. -/
def framed (header : ℕ) (size : List β → ℕ) : Reader β (List β) := fun input =>
  if input.length < header ∨ input.length < size input then none
  else some (input.take (size input), input.drop (size input))

section Framed
variable {header : ℕ} {size : List β → ℕ} {input item rest : List β}

lemma framed_append (hsize : ∀ xs ys, header ≤ xs.length → size (xs ++ ys) = size xs)
    (hheader : header ≤ item.length) (h : item.length = size item) (rest : List β) :
    framed header size (item ++ rest) = some (item, rest) := by
  have hlength : (item ++ rest).length = item.length + rest.length := List.length_append
  rw [framed, hsize item rest hheader, if_neg (by omega), ← h, List.take_left, List.drop_left]

lemma framed_eq_some (hsize : ∀ xs ys, header ≤ xs.length → size (xs ++ ys) = size xs)
    (hmin : ∀ xs, header ≤ size xs) (h : framed header size input = some (item, rest)) :
    input = item ++ rest ∧ header ≤ item.length ∧ item.length = size item := by
  unfold framed at h
  split_ifs at h with hshort
  rw [not_or, not_lt, not_lt] at hshort
  have hle := hmin input
  have hlength : (input.take (size input)).length = size input :=
    List.length_take_of_le hshort.2
  have hitem : size (input.take (size input)) = size input := by
    rw [← hsize _ (input.drop (size input)) (by omega), List.take_append_drop]
  cases h
  exact ⟨(List.take_append_drop _ _).symm, by omega, by omega⟩

lemma exact_framed (hsize : ∀ xs ys, header ≤ xs.length → size (xs ++ ys) = size xs)
    (hmin : ∀ xs, header ≤ size xs) : Exact (framed header size) := by
  intro input item rest h
  obtain ⟨hinput, hheader, hlength⟩ := framed_eq_some hsize hmin h
  refine ⟨item, hinput, framed_append hsize hheader hlength, fun part hpart hne => ?_⟩
  have hlt : part.length < item.length := by
    apply lt_of_le_of_ne hpart.length_le
    intro heq
    exact hne (hpart.eq_of_length heq)
  obtain ⟨tail, rfl⟩ := hpart
  apply if_pos
  by_contra hfull
  rw [not_or, not_lt, not_lt] at hfull
  rw [hsize part tail hfull.1] at hlength
  omega

end Framed

end Reader

end Chromium.PrefixReader
