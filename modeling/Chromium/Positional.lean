import Mathlib.Data.Nat.Digits.Lemmas
import Mathlib.Tactic

/-!
# Positional notation

Numbers as lists of digits, the highest first, and as text in a base up to sixteen.
-/
namespace Chromium.Positional

/-- The number that digits stand for. -/
def number (base : ℕ) (digits : List ℕ) : ℕ := digits.foldl (fun n d => n * base + d) 0

section Number
variable {base d n : ℕ} {ds es : List ℕ}

/-- The same, in the library's order. -/
lemma number_eq_ofDigits (base : ℕ) (ds : List ℕ) :
    number base ds = Nat.ofDigits base ds.reverse := by
  induction ds using List.reverseRecOn with
  | nil => rfl
  | append_singleton ds d ih =>
    rw [number, List.foldl_append, List.reverse_append, List.reverse_singleton,
      List.singleton_append, Nat.ofDigits_cons, ← ih, Nat.add_comm, Nat.mul_comm]
    rfl

lemma number_append :
    number base (ds ++ es) = number base ds * base ^ es.length + number base es := by
  rw [number_eq_ofDigits, number_eq_ofDigits, number_eq_ofDigits, List.reverse_append,
    Nat.ofDigits_append, List.length_reverse, Nat.add_comm, Nat.mul_comm]

lemma number_cons : number base (d :: ds) = d * base ^ ds.length + number base ds := by
  rw [← List.singleton_append, number_append]
  simp [number]

/-- A digit that is not zero counts as much as its place. -/
lemma le_number_cons (hd : d ≠ 0) : base ^ ds.length ≤ number base (d :: ds) := by
  rw [number_cons]
  calc base ^ ds.length ≤ d * base ^ ds.length := Nat.le_mul_of_pos_left _ (by omega)
    _ ≤ d * base ^ ds.length + number base ds := Nat.le_add_right _ _

end Number

/-! ### Text -/

/-- A digit as a character; behind nine come the letters from `a` on. -/
def char (d : ℕ) : ℕ := if d < 10 then 48 + d else 87 + d

/-- The value of a digit, where letters are large or small. -/
def value (c : ℕ) : ℕ := if c < 58 then c - 48 else if c < 97 then c - 55 else c - 87

/-- A character that is a digit. -/
def IsDigit (base c : ℕ) : Prop :=
  ((48 ≤ c ∧ c ≤ 57) ∨ (65 ≤ c ∧ c ≤ 70) ∨ (97 ≤ c ∧ c ≤ 102)) ∧ value c < base

instance (base c : ℕ) : Decidable (IsDigit base c) := inferInstanceAs (Decidable (_ ∧ _))

/-- What is read from text. -/
def read (base : ℕ) (s : List ℕ) : ℕ := number base (s.map value)

/-- What is written for a number, without zeros in front. -/
def write (base n : ℕ) : List ℕ := if n = 0 then [48] else (Nat.digits base n).reverse.map char

section Text
variable {base d n k : ℕ} {s t : List ℕ}

lemma value_char (h : d < 16) : value (char d) = d := by
  rw [value, char]
  split_ifs <;> omega

lemma isDigit_char (hd : d < base) (h : d < 16) : IsDigit base (char d) := by
  refine ⟨?_, ?_⟩
  · rw [char]
    split_ifs <;> omega
  · rwa [value_char h]

lemma value_eq_zero {c : ℕ} (h : IsDigit base c) : value c = 0 ↔ c = 48 := by
  obtain ⟨hc, -⟩ := h
  rw [value]
  split_ifs <;> omega

lemma read_cons {c : ℕ} : read base (c :: s) = value c * base ^ s.length + read base s := by
  rw [read, List.map_cons, number_cons, List.length_map]
  rfl

lemma write_ne_nil (base n : ℕ) : write base n ≠ [] := by
  rw [write]
  split_ifs with h
  · exact List.cons_ne_nil _ _
  · simpa [Nat.digits_ne_nil_iff_ne_zero] using h

lemma isDigit_of_mem_write (hbase : 1 < base) (hle : base ≤ 16) {c : ℕ} (h : c ∈ write base n) :
    IsDigit base c := by
  rw [write] at h
  split_ifs at h
  · obtain rfl := List.mem_singleton.mp h
    exact ⟨by omega, Nat.lt_of_le_of_lt (Nat.le_of_eq rfl) (Nat.zero_lt_of_lt hbase)⟩
  · obtain ⟨d, hd, rfl⟩ := List.mem_map.mp h
    have hlt := Nat.digits_lt_base hbase (List.mem_reverse.mp hd)
    exact isDigit_char hlt (by omega)

/-- What is written is read again. -/
theorem read_write (hbase : 1 < base) (hle : base ≤ 16) (n : ℕ) : read base (write base n) = n := by
  rw [write]
  split_ifs with h
  · rw [h]
    simp [read, number, value]
  · have hmap : ((Nat.digits base n).reverse.map char).map value = (Nat.digits base n).reverse := by
      rw [List.map_map]
      refine (List.map_congr_left fun d hd => ?_).trans (List.map_id _)
      have hlt := Nat.digits_lt_base hbase (List.mem_reverse.mp hd)
      exact value_char (by omega)
    rw [read, hmap, number_eq_ofDigits, List.reverse_reverse, Nat.ofDigits_digits]

/-- A number below a power of the base has no more digits. -/
lemma length_write_le (hbase : 1 < base) (hk : 0 < k) (h : n < base ^ k) :
    (write base n).length ≤ k := by
  rw [write]
  split_ifs with hn
  · exact hk
  · rw [List.length_map, List.length_reverse]
    exact (Nat.digits_length_le_iff hbase n).mpr h

/-- Only zero is written with a zero in front. -/
lemma head_write (hbase : 1 < base) (hn : n ≠ 0) :
    ∃ c s, write base n = c :: s ∧ c ≠ 48 := by
  rw [write, if_neg hn]
  cases h : (Nat.digits base n).reverse with
  | nil =>
    rw [List.reverse_eq_nil_iff, Nat.digits_eq_nil_iff_eq_zero] at h
    exact absurd h hn
  | cons d ds =>
    have hdigits : Nat.digits base n = ds.reverse ++ [d] := by
      rw [← List.reverse_reverse (Nat.digits base n), h, List.reverse_cons]
    have hlt : d < base := Nat.digits_lt_base hbase (hdigits ▸ List.mem_append_right _
      (List.mem_singleton_self d))
    have hlast := Nat.getLast_digit_ne_zero base hn
    simp only [hdigits, List.getLast_append_singleton] at hlast
    refine ⟨char d, ds.map char, rfl, ?_⟩
    rw [char]
    split_ifs <;> omega

end Text

end Chromium.Positional
