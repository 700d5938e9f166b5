import Mathlib.Data.List.Basic
import Mathlib.Tactic

/-!
# Words of bits

A list of words as one row of bits, from the lowest bit of the first word on.
-/
namespace Chromium.BitWords

variable {w : ℕ} {words words' : List (BitVec w)}

/-- The bit at the place `k` of the row. -/
def bit (words : List (BitVec w)) (k : ℕ) : Bool := (words.getD (k / w) 0).getLsbD (k % w)

lemma bit_mul_add (words : List (BitVec w)) (j : ℕ) {i : ℕ} (hi : i < w) :
    bit words (w * j + i) = (words.getD j 0).getLsbD i := by
  rw [bit, Nat.mul_add_div (by omega), Nat.div_eq_of_lt hi, Nat.add_zero, Nat.mul_add_mod,
    Nat.mod_eq_of_lt hi]

/-- Rows with the same bits are the same. -/
lemma ext_bit (hlength : words.length = words'.length)
    (hbit : ∀ k < w * words.length, bit words k = bit words' k) : words = words' := by
  apply List.ext_getElem hlength
  intro j hj hj'
  ext i hi
  have hlt : w * j + i < w * words.length :=
    calc w * j + i < w * j + w := by omega
      _ = w * (j + 1) := (Nat.mul_succ w j).symm
      _ ≤ w * words.length := Nat.mul_le_mul_left w hj
  have h := hbit _ hlt
  rw [bit_mul_add words j hi, bit_mul_add words' j hi] at h
  simpa [List.getD_eq_getElem?_getD, hj, hj', BitVec.getLsbD_eq_getElem hi] using h

/-- One word is another one. -/
lemma bit_set {j : ℕ} (hj : j < words.length) (x : BitVec w) (k : ℕ) :
    bit (words.set j x) k = if k / w = j then x.getLsbD (k % w) else bit words k := by
  rw [bit, bit]
  by_cases hk : k / w = j
  · rw [if_pos hk, hk]
    simp [List.getD_eq_getElem?_getD, hj]
  · rw [if_neg hk]
    simp [List.getD_eq_getElem?_getD, List.getElem?_set_ne (Ne.symm hk)]

/-- A word and its negative have the lowest bit of the word in common. -/
lemma and_neg_self {x : BitVec w} {k : ℕ} (hk : x.getLsbD k = true)
    (hleast : ∀ j < k, x.getLsbD j = false) : x &&& -x = BitVec.twoPow w k := by
  have hlt : k < w := BitVec.lt_of_getLsbD hk
  ext i hi
  rw [← BitVec.getLsbD_eq_getElem hi, ← BitVec.getLsbD_eq_getElem hi, BitVec.getLsbD_and,
    BitVec.getLsbD_neg, BitVec.getLsbD_twoPow]
  rcases Nat.lt_trichotomy i k with hik | rfl | hik
  · simp [hleast i hik, Nat.ne_of_gt hik]
  · have hnone : ¬ ∃ j < i, x.getLsbD j = true := by
      rintro ⟨j, hj, hbit⟩
      rw [hleast j hj] at hbit
      cases hbit
    simp [hk, hlt, hnone]
  · have hexists : ∃ j < i, x.getLsbD j = true := ⟨k, hik, hk⟩
    simp [hi, hexists, Nat.ne_of_lt hik]

/-- A word that is not zero has a lowest bit. -/
lemma exists_lowest {x : BitVec w} (hx : x ≠ 0) :
    ∃ k < w, x.getLsbD k = true ∧ ∀ j < k, x.getLsbD j = false := by
  have hex : ∃ k, x.getLsbD k = true := by
    by_contra hnone
    push Not at hnone
    apply hx
    ext i hi
    rw [← BitVec.getLsbD_eq_getElem hi]
    simpa using hnone i
  refine ⟨Nat.find hex, BitVec.lt_of_getLsbD (Nat.find_spec hex), Nat.find_spec hex, ?_⟩
  intro j hj
  exact Bool.eq_false_of_not_eq_true (Nat.find_min hex hj)

end Chromium.BitWords
