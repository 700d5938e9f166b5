import Chromium.QuicFramerRoundTrip

/-!
# Numbers that lose bits on the wire

A sequence number is sent without its epoch and a time as a float of 16 bits. The first is found
again near the number that is expected next, the second is rounded down.
-/
namespace Chromium.QuicFramer

open WireFormat Parser

/-! ### Truncated sequence numbers -/

lemma closestTo_eq_or (target a b : ℕ) : closestTo target a b = a ∨ closestTo target a b = b := by
  unfold closestTo
  split_ifs
  · exact .inl rfl
  · exact .inr rfl

lemma delta_eq (a b : ℕ) : delta a b = (a - b) + (b - a) := by
  unfold delta
  split_ifs <;> omega

lemma closestTo_left {target a b : ℕ} (h : delta target a < delta target b) :
    closestTo target a b = a := if_pos h

lemma closestTo_right {target a b : ℕ} (h : delta target b ≤ delta target a) :
    closestTo target a b = b := if_neg (not_lt.mpr h)

lemma closestTo_near {target x a b : ℕ} (ha : delta target x < delta target a)
    (hb : delta target x < delta target b) :
    delta target x < delta target (closestTo target a b) := by
  cases closestTo_eq_or target a b with
  | inl h => rwa [h]
  | inr h => rwa [h]

/-- `start` is the epoch of the last number, `target` the number after it and `s` the number that
is sent. -/
structure NearEpoch (E start target s : ℕ) : Prop where
  whole : start + E ≤ 2 ^ 64
  small : 4 * E ≤ 2 ^ 64
  target_ge : start ≤ target
  target_le : target ≤ start + E
  near : 2 * delta target s < E
  lt : s < 2 ^ 64

section NearEpoch

variable {E start target s : ℕ} (h : NearEpoch E start target s)

include h

lemma NearEpoch.distance : 2 * ((target - s) + (s - target)) < E := by
  rw [← delta_eq]
  exact h.near

/-- The choice among the three epochs for the bits `r` that are sent. -/
lemma NearEpoch.recovered {r : ℕ} (hr : r < E)
    (hs : s = start + r ∨ s + E = start + r ∨ s = start + E + r) :
    closestTo target ((start + r) % 2 ^ 64) (closestTo target ((sub64 start E + r) % 2 ^ 64)
      (((start + E) % 2 ^ 64 + r) % 2 ^ 64)) = s := by
  have hnear := h.distance
  obtain ⟨hwhole, hsmall, hge, hle, -, hlt⟩ := h
  rcases hs with hs | hs | hs
  · -- the epoch of the last number
    have hself : (start + r) % 2 ^ 64 = s := by omega
    rw [hself]
    apply closestTo_left
    apply closestTo_near
    · rw [delta_eq, delta_eq, sub64]
      omega
    · rw [delta_eq, delta_eq]
      omega
  · -- the epoch before
    have hself : (sub64 start E + r) % 2 ^ 64 = s := by
      rw [sub64]
      omega
    have hafter : ((start + E) % 2 ^ 64 + r) % 2 ^ 64 = start + E + r ∨
        ((start + E) % 2 ^ 64 + r) % 2 ^ 64 + 2 ^ 64 = start + E + r := by omega
    have hinner : closestTo target s (((start + E) % 2 ^ 64 + r) % 2 ^ 64) = s := by
      apply closestTo_left
      rw [delta_eq, delta_eq]
      generalize ((start + E) % 2 ^ 64 + r) % 2 ^ 64 = after at hafter
      omega
    rw [hself, hinner]
    apply closestTo_right
    rw [delta_eq, delta_eq]
    omega
  · -- the epoch after
    have hself : ((start + E) % 2 ^ 64 + r) % 2 ^ 64 = s := by omega
    have hinner : closestTo target ((sub64 start E + r) % 2 ^ 64) s = s := by
      apply closestTo_right
      rw [delta_eq, delta_eq, sub64]
      omega
    rw [hself, hinner]
    apply closestTo_right
    rw [delta_eq, delta_eq]
    omega

end NearEpoch

/-- A number near the expected one lies in the epoch of the last number or next to it. -/
lemma near_epochs {E last s : ℕ} (hE : 0 < E)
    (hnear : 2 * ((last + 1 - s) + (s - (last + 1))) < E) :
    s = last - last % E + s % E ∨ s + E = last - last % E + s % E ∨
      s = last - last % E + E + s % E := by
  have hlast := Nat.div_add_mod last E
  have hdiv := Nat.div_add_mod s E
  have hlastLt := Nat.mod_lt last hE
  have hlt := Nat.mod_lt s hE
  have hupper : s / E < last / E + 2 := by
    by_contra hle
    have hmul : E * (last / E + 2) ≤ E * (s / E) := Nat.mul_le_mul_left E (not_lt.mp hle)
    rw [Nat.mul_add] at hmul
    omega
  have hlower : last / E < s / E + 2 := by
    by_contra hle
    have hmul : E * (s / E + 2) ≤ E * (last / E) := Nat.mul_le_mul_left E (not_lt.mp hle)
    rw [Nat.mul_add] at hmul
    omega
  have hcases : s / E = last / E ∨ s / E + 1 = last / E ∨ s / E = last / E + 1 := by omega
  rcases hcases with heq | heq | heq
  · rw [heq] at hdiv
    omega
  · rw [← heq, Nat.mul_add] at hlast
    omega
  · rw [heq, Nat.mul_add] at hdiv
    omega

lemma epoch_size (length : QuicSequenceNumberLength) :
    ∃ k, 2 ^ 64 = 2 ^ (8 * length.size) * k ∧ 4 * 2 ^ (8 * length.size) ≤ 2 ^ 64 := by
  cases length
  · exact ⟨2 ^ 56, by decide, by decide⟩
  · exact ⟨2 ^ 48, by decide, by decide⟩
  · exact ⟨2 ^ 32, by decide, by decide⟩
  · exact ⟨2 ^ 16, by decide, by decide⟩

/-- The epoch of a number of 64 bits ends inside the 64 bits. -/
lemma epoch_whole {E k last : ℕ} (hk : 2 ^ 64 = E * k) (hlast : last < 2 ^ 64) :
    last - last % E + E ≤ 2 ^ 64 := by
  have hdiv := Nat.div_add_mod last E
  have hlt : last / E < k := Nat.div_lt_of_lt_mul (by omega)
  have hmul : E * (last / E + 1) ≤ E * k := Nat.mul_le_mul_left E hlt
  rw [Nat.mul_add] at hmul
  omega

lemma calculatePacketSequenceNumberFromWire_mod {last s : ℕ} (length : QuicSequenceNumberLength)
    (hlast : last + 1 < 2 ^ 64) (hs : s < 2 ^ 64)
    (hnear : 2 * delta (last + 1) s < 2 ^ (8 * length.size)) :
    calculatePacketSequenceNumberFromWire last length (s % 2 ^ (8 * length.size)) = s := by
  obtain ⟨k, hk, hsmall⟩ := epoch_size length
  unfold calculatePacketSequenceNumberFromWire
  generalize 2 ^ (8 * length.size) = E at *
  have hE : 0 < E := by omega
  have hlastLt := Nat.mod_lt last hE
  have hepoch : NearEpoch E (last - last % E) (last + 1) s :=
    { whole := epoch_whole hk (by omega)
      small := hsmall
      target_ge := by omega
      target_le := by
        have hle := Nat.mod_le last E
        omega
      near := hnear
      lt := hs }
  rw [Nat.mod_eq_of_lt hlast]
  exact hepoch.recovered (Nat.mod_lt s hE) (near_epochs hE hepoch.distance)

/-! ### Floats of 16 bits -/

def ufloat16Bytes (value : ℕ) : List Byte := toBytes 2 (toUFloat16 value)

/-- `WriteUFloat16` -/
def writeUFloat16 (value : ℕ) (w : Writer) : Option Writer := w.write (ufloat16Bytes value)

/-- `ReadUFloat16` -/
def readUFloat16 (error : String) : Read ℕ := fromUFloat16 <$> Parser.uint 2 error

/-- No offset goes beyond those that follow it by more than one. -/
def Halving : List ℕ → Prop
  | [] => True
  | offset :: offsets => offset ≤ offsets.sum + 1 ∧ Halving offsets

/-- The search moves the highest bit to the place of the hidden bit. -/
lemma ufloat16Shift_spec (offsets : List ℕ) (hoffsets : Halving offsets) (exponent value : ℕ)
    (hge : 2 ^ kUFloat16MantissaBits ≤ value)
    (hlt : value < 2 ^ (kUFloat16MantissaEffectiveBits + offsets.sum)) :
    ∃ shift, ufloat16Shift offsets exponent value = (exponent + shift, value / 2 ^ shift) ∧
      2 ^ kUFloat16MantissaBits ≤ value / 2 ^ shift ∧
      value / 2 ^ shift < 2 ^ kUFloat16MantissaEffectiveBits := by
  induction offsets generalizing exponent value with
  | nil => exact ⟨0, by simp [ufloat16Shift], by simpa using hge, by simpa using hlt⟩
  | cons offset offsets ih =>
    obtain ⟨hoffset, hrest⟩ := hoffsets
    rw [List.sum_cons] at hlt
    rw [ufloat16Shift]
    split_ifs with htaken
    · rw [Nat.shiftRight_eq_div_pow]
      have hge' : 2 ^ kUFloat16MantissaBits ≤ value / 2 ^ offset := by
        rw [Nat.le_div_iff_mul_le (by positivity), ← pow_add]
        exact htaken
      have hlt' : value / 2 ^ offset < 2 ^ (kUFloat16MantissaEffectiveBits + offsets.sum) := by
        rw [Nat.div_lt_iff_lt_mul (by positivity), ← pow_add]
        have hsum : kUFloat16MantissaEffectiveBits + offsets.sum + offset =
            kUFloat16MantissaEffectiveBits + (offset + offsets.sum) := by omega
        rwa [hsum]
      obtain ⟨shift, hrun, hbits⟩ := ih hrest (exponent + offset) (value / 2 ^ offset) hge' hlt'
      rw [Nat.div_div_eq_div_mul, ← pow_add] at hrun hbits
      exact ⟨offset + shift, by rw [hrun, add_assoc], hbits⟩
    · have hle : kUFloat16MantissaBits + offset ≤
          kUFloat16MantissaEffectiveBits + offsets.sum := by
        rw [kUFloat16MantissaBits, kUFloat16MantissaEffectiveBits]
        omega
      have hpow : 2 ^ (kUFloat16MantissaBits + offset) ≤
          2 ^ (kUFloat16MantissaEffectiveBits + offsets.sum) := Nat.pow_le_pow_right (by decide) hle
      exact ih hrest exponent value hge (by omega)

/-- A normalized mantissa is read with its exponent, the hidden bit counting as one more. -/
lemma fromUFloat16_normalized {mantissa : ℕ} (hge : 2 ^ kUFloat16MantissaBits ≤ mantissa)
    (hlt : mantissa < 2 ^ kUFloat16MantissaEffectiveBits) (exponent : ℕ) :
    fromUFloat16 (mantissa + exponent <<< kUFloat16MantissaBits) = mantissa * 2 ^ exponent := by
  rw [kUFloat16MantissaBits] at hge
  rw [kUFloat16MantissaEffectiveBits] at hlt
  simp only [fromUFloat16, kUFloat16MantissaBits, kUFloat16MantissaEffectiveBits,
    Nat.shiftLeft_eq, Nat.shiftRight_eq_div_pow]
  split_ifs with hsmall
  · have hzero : exponent = 0 := by omega
    subst hzero
    simp
  · have hexponent : (mantissa + exponent * 2 ^ 11) / 2 ^ 11 - 1 = exponent := by omega
    rw [hexponent, Nat.add_sub_cancel]

/-- Every code is a mantissa of twelve bits that is moved by at most the greatest exponent. -/
lemma fromUFloat16_eq {u : ℕ} (hu : u < 2 ^ 16) :
    ∃ mantissa exponent, fromUFloat16 u = mantissa * 2 ^ exponent ∧
      mantissa < 2 ^ kUFloat16MantissaEffectiveBits ∧ exponent ≤ kUFloat16MaxExponent := by
  by_cases hsmall : u < 2 ^ kUFloat16MantissaEffectiveBits
  · exact ⟨u, 0, by simp [fromUFloat16, hsmall], hsmall, Nat.zero_le _⟩
  · rw [kUFloat16MantissaEffectiveBits] at hsmall ⊢
    rw [kUFloat16MaxExponent]
    have hsplit : u = (2 ^ 11 + u % 2 ^ 11) + (u / 2 ^ 11 - 1) <<< kUFloat16MantissaBits := by
      rw [Nat.shiftLeft_eq, kUFloat16MantissaBits]
      omega
    refine ⟨2 ^ 11 + u % 2 ^ 11, u / 2 ^ 11 - 1, ?_, by omega, by omega⟩
    conv_lhs => rw [hsplit]
    apply fromUFloat16_normalized
    · rw [kUFloat16MantissaBits]
      omega
    · rw [kUFloat16MantissaEffectiveBits]
      omega

/-- Cutting off the low bits gives the greatest float below: one with a smaller exponent is
smaller, one with a greater exponent loses nothing. -/
lemma mantissa_le_cut {k m i v e : ℕ} (hm : m < 2 ^ (k + 1)) (hle : m * 2 ^ i ≤ v)
    (hv : 2 ^ k ≤ v / 2 ^ e) : m * 2 ^ i ≤ v / 2 ^ e * 2 ^ e := by
  by_cases hie : i < e
  · have hpow : 2 ^ (k + 1) * 2 ^ i ≤ 2 ^ k * 2 ^ e := by
      rw [← pow_add, ← pow_add]
      exact Nat.pow_le_pow_right (by decide) (by omega)
    calc m * 2 ^ i ≤ 2 ^ (k + 1) * 2 ^ i := Nat.mul_le_mul_right _ hm.le
      _ ≤ 2 ^ k * 2 ^ e := hpow
      _ ≤ v / 2 ^ e * 2 ^ e := Nat.mul_le_mul_right _ hv
  · have hsplit : m * 2 ^ i = m * 2 ^ (i - e) * 2 ^ e := by
      rw [mul_assoc, ← pow_add, Nat.sub_add_cancel (not_lt.mp hie)]
    rw [hsplit] at hle ⊢
    exact Nat.mul_le_mul_right _ ((Nat.le_div_iff_mul_le (by positivity)).mpr hle)

/-- The values that have a code. -/
def ufloat16Values : Set ℕ := {x | ∃ u < 2 ^ 16, fromUFloat16 u = x}

lemma ufloat16Values_le {x : ℕ} (hx : x ∈ ufloat16Values) : x ≤ kUFloat16MaxValue := by
  obtain ⟨u, hu, rfl⟩ := hx
  obtain ⟨m, e, hvalue, hm, he⟩ := fromUFloat16_eq hu
  rw [hvalue, kUFloat16MaxValue]
  exact Nat.mul_le_mul (Nat.le_pred_of_lt hm) (Nat.pow_le_pow_right (by decide) he)

/-- Between the two ends the value is cut to twelve bits. -/
lemma toUFloat16_middle {v : ℕ} (hge : 2 ^ kUFloat16MantissaEffectiveBits ≤ v)
    (hlt : v < kUFloat16MaxValue) :
    ∃ e, toUFloat16 v < 2 ^ 16 ∧ fromUFloat16 (toUFloat16 v) = v / 2 ^ e * 2 ^ e ∧
      2 ^ kUFloat16MantissaBits ≤ v / 2 ^ e := by
  have hlow : 2 ^ kUFloat16MantissaBits ≤ v := le_trans (by decide) hge
  have hhigh : v < 2 ^ (kUFloat16MantissaEffectiveBits + [16, 8, 4, 2, 1].sum) :=
    lt_trans hlt (by decide)
  have hhalving : Halving [16, 8, 4, 2, 1] := by simp [Halving]
  obtain ⟨e, hrun, hbit, hmantissa⟩ := ufloat16Shift_spec _ hhalving 0 v hlow hhigh
  rw [zero_add] at hrun
  have hcode : toUFloat16 v = v / 2 ^ e + e <<< kUFloat16MantissaBits := by
    rw [toUFloat16, if_neg (not_lt.mpr hge), if_neg (not_le.mpr hlt), hrun]
  have he : e ≤ kUFloat16MaxExponent := by
    rw [Nat.le_div_iff_mul_le (by positivity), ← pow_add] at hbit
    have hpow : 2 ^ (kUFloat16MantissaBits + e) < 2 ^ 42 :=
      lt_of_le_of_lt hbit (lt_trans hlt (by decide))
    have hexponent := (Nat.pow_lt_pow_iff_right (by decide)).mp hpow
    rw [kUFloat16MantissaBits] at hexponent
    rw [kUFloat16MaxExponent]
    omega
  refine ⟨e, ?_, ?_, hbit⟩
  · rw [hcode, Nat.shiftLeft_eq]
    rw [kUFloat16MantissaEffectiveBits] at hmantissa
    rw [kUFloat16MaxExponent] at he
    rw [kUFloat16MantissaBits]
    omega
  · rw [hcode, fromUFloat16_normalized hbit hmantissa]

lemma toUFloat16_lt (v : ℕ) : toUFloat16 v < 2 ^ 16 := by
  by_cases hsmall : v < 2 ^ kUFloat16MantissaEffectiveBits
  · rw [toUFloat16, if_pos hsmall]
    exact lt_trans hsmall (by decide)
  by_cases hlarge : kUFloat16MaxValue ≤ v
  · rw [toUFloat16, if_neg hsmall, if_pos hlarge]
    decide
  obtain ⟨e, hlt, -⟩ := toUFloat16_middle (not_lt.mp hsmall) (not_le.mp hlarge)
  exact hlt

/-- The value is rounded down to one that has a code. -/
lemma fromUFloat16_toUFloat16 (v : ℕ) :
    IsGreatest {x | x ∈ ufloat16Values ∧ x ≤ min v kUFloat16MaxValue}
      (fromUFloat16 (toUFloat16 v)) := by
  have hcode : fromUFloat16 (toUFloat16 v) ∈ ufloat16Values := ⟨_, toUFloat16_lt v, rfl⟩
  have hmax := ufloat16Values_le hcode
  by_cases hsmall : v < 2 ^ kUFloat16MantissaEffectiveBits
  · have hvalue : fromUFloat16 (toUFloat16 v) = v := by
      rw [toUFloat16, if_pos hsmall, fromUFloat16, if_pos hsmall]
    refine ⟨⟨hcode, ?_⟩, ?_⟩
    · rw [hvalue] at hmax ⊢
      exact le_min le_rfl hmax
    · intro x hx
      rw [hvalue]
      exact hx.2.trans (min_le_left _ _)
  by_cases hlarge : kUFloat16MaxValue ≤ v
  · have hvalue : fromUFloat16 (toUFloat16 v) = kUFloat16MaxValue := by
      rw [toUFloat16, if_neg hsmall, if_pos hlarge]
      decide
    refine ⟨⟨hcode, ?_⟩, ?_⟩
    · rw [hvalue]
      exact le_min hlarge le_rfl
    · intro x hx
      rw [hvalue]
      exact hx.2.trans (min_le_right _ _)
  · obtain ⟨e, -, hvalue, hbit⟩ := toUFloat16_middle (not_lt.mp hsmall) (not_le.mp hlarge)
    refine ⟨⟨hcode, le_min ?_ hmax⟩, ?_⟩
    · rw [hvalue]
      exact Nat.div_mul_le_self v (2 ^ e)
    · intro x hx
      obtain ⟨⟨u, hu, rfl⟩, hle⟩ := hx
      obtain ⟨m, i, hform, hm, -⟩ := fromUFloat16_eq hu
      rw [hvalue]
      rw [hform] at hle ⊢
      exact mantissa_le_cut hm (hle.trans (min_le_left _ _)) hbit

lemma fromUFloat16_toUFloat16_mono {v v' : ℕ} (h : v ≤ v') :
    fromUFloat16 (toUFloat16 v) ≤ fromUFloat16 (toUFloat16 v') := by
  have hv := (fromUFloat16_toUFloat16 v).1
  exact (fromUFloat16_toUFloat16 v').2 ⟨hv.1, hv.2.trans (min_le_min_right _ h)⟩

lemma fromUFloat16_toUFloat16_of_mem {x : ℕ} (hx : x ∈ ufloat16Values) :
    fromUFloat16 (toUFloat16 x) = x := by
  have hgreatest := fromUFloat16_toUFloat16 x
  apply le_antisymm
  · exact hgreatest.1.2.trans (min_le_left _ _)
  · exact hgreatest.2 ⟨hx, le_min le_rfl (ufloat16Values_le hx)⟩

lemma readUFloat16_bytes (v : ℕ) (error : String) (rest : List Byte) :
    readUFloat16 error (ufloat16Bytes v ++ rest) = .ok (fromUFloat16 (toUFloat16 v), rest) :=
  (reads_uint_of_lt (toUFloat16_lt v) error).map fromUFloat16 rest

/-- What is written with room for two bytes is read back as the greatest value below that has a
code; a number that loses its epoch is found again within half an epoch of the expected one. -/
theorem wire_numbers_recovered :
    (∀ (last s : ℕ) (length : QuicSequenceNumberLength), last < 2 ^ 64 - 1 → s < 2 ^ 64 →
      |(s : ℤ) - (last + 1)| < 2 ^ (8 * length.size) / 2 →
        calculatePacketSequenceNumberFromWire last length (s % 2 ^ (8 * length.size)) = s) ∧
    (∀ v < 2 ^ 64, ∀ w : Writer, 2 ≤ w.room → ∃ w' x, writeUFloat16 v w = some w' ∧
      w'.data = w.data ++ ufloat16Bytes v ∧
      (∀ error rest, readUFloat16 error (ufloat16Bytes v ++ rest) = .ok (x, rest)) ∧
      IsGreatest {y | y ∈ ufloat16Values ∧ y ≤ min v kUFloat16MaxValue} x) ∧
    (∀ v v' x x' error rest, v ≤ v' →
      readUFloat16 error (ufloat16Bytes v ++ rest) = .ok (x, rest) →
      readUFloat16 error (ufloat16Bytes v' ++ rest) = .ok (x', rest) → x ≤ x') ∧
    (∀ x ∈ ufloat16Values, ∀ error rest,
      readUFloat16 error (ufloat16Bytes x ++ rest) = .ok (x, rest)) := by
  refine ⟨?_, ?_, ?_, ?_⟩
  · intro last s length hlast hs hnear
    apply calculatePacketSequenceNumberFromWire_mod length (by omega) hs
    rw [delta_eq]
    have hcast : ((2 ^ (8 * length.size) : ℕ) : ℤ) = 2 ^ (8 * length.size) := by push_cast; rfl
    rw [← hcast] at hnear
    rw [abs_lt] at hnear
    omega
  · intro v _ w hroom
    have hlength : (ufloat16Bytes v).length ≤ w.room := by rwa [ufloat16Bytes, length_toBytes]
    obtain ⟨w', hwrite, hbytes⟩ := Writer.write_of_room hlength
    exact ⟨w', fromUFloat16 (toUFloat16 v), hwrite, hbytes.2, readUFloat16_bytes v,
      fromUFloat16_toUFloat16 v⟩
  · intro v v' x x' error rest hle hx hx'
    rw [readUFloat16_bytes] at hx hx'
    cases hx
    cases hx'
    exact fromUFloat16_toUFloat16_mono hle
  · intro x hx error rest
    rw [readUFloat16_bytes, fromUFloat16_toUFloat16_of_mem hx]

/-- The first number of the second epoch, and a time that loses its last bits. -/
theorem wire_numbers_recovered_once :
    calculatePacketSequenceNumberFromWire 250 .packet1Byte (256 % 2 ^ 8) = 256 ∧
      (∃ w' x, writeUFloat16 4097 (Writer.new 2) = some w' ∧
        w'.data = (Writer.new 2).data ++ ufloat16Bytes 4097 ∧
        (∀ error rest, readUFloat16 error (ufloat16Bytes 4097 ++ rest) = .ok (x, rest)) ∧
        IsGreatest {y | y ∈ ufloat16Values ∧ y ≤ min 4097 kUFloat16MaxValue} x) ∧
      4096 ≤ 4098 ∧ readUFloat16 "" (ufloat16Bytes 5 ++ []) = .ok (5, []) :=
  ⟨wire_numbers_recovered.1 250 256 .packet1Byte (by decide) (by decide) (by decide),
    wire_numbers_recovered.2.1 4097 (by decide) (Writer.new 2) (by decide),
    wire_numbers_recovered.2.2.1 4097 4099 4096 4098 "" [] (by decide) rfl rfl,
    wire_numbers_recovered.2.2.2 5 ⟨5, by decide, by decide⟩ "" []⟩

end Chromium.QuicFramer
