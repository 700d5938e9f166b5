import Chromium.ByteMemory
import Chromium.WebSocketFrame

/-!
# Masking in place

`MaskWebSocketFramePayload` on the memory of a machine: a prologue up to a word boundary, the main
loop over whole words, and an epilogue behind the last one. The masking of lists of bytes is what
the buffer holds afterwards.
-/
namespace Chromium.WebSocket

open ByteMemory

/-- The word is `size_t`, with what the compile-time assertion says of it. -/
structure Machine where
  order : ByteOrder
  wordSize : ℕ
  wordSize_ge : kMaskingKeyLength ≤ wordSize
  wordSize_mod : wordSize % kMaskingKeyLength = 0

/-- `masking_key_offset++`, which begins anew behind the last byte of the key. -/
abbrev nextKeyOffset (maskingKeyOffset : Fin 4) : Fin 4 := maskingKeyOffset + keyOffset 1

/-- `MaskWebSocketFramePayloadByBytes` over `count` bytes. -/
def maskBytes (key : WebSocketMaskingKey) : Fin 4 → ℕ → ℕ → Memory → Memory
  | _, _, 0, memory => memory
  | offset, masked, count + 1, memory =>
    maskBytes key (nextKeyOffset offset) (masked + 1) count
      (Function.update memory masked (memory masked ^^^ key offset))

/-- The main loop, which ends where `merged` meets `alignedEnd`. -/
def maskWordLoop (machine : Machine) (packedMaskKey alignedEnd : ℕ) :
    ℕ → ℕ → Memory → Option Memory
  | 0, _, _ => none
  | fuel + 1, merged, memory =>
    if merged = alignedEnd then some memory
    else
      maskWordLoop machine packedMaskKey alignedEnd fuel (merged + machine.wordSize)
        (machine.order.store machine.wordSize memory merged
          (machine.order.load machine.wordSize memory merged ^^^ packedMaskKey))

/-- `MaskWebSocketFramePayload`. Offsets are 64 bits wide, differences of pointers a word. -/
def Machine.maskPayload (machine : Machine) (key : WebSocketMaskingKey)
    (frameOffset data dataSize : ℕ) (memory : Memory) : Option Memory :=
  let wordSize := machine.wordSize
  let dataEnd := data + dataSize
  if dataSize ≤ wordSize * 2 then
    some (maskBytes key (keyOffset frameOffset) data (dataEnd - data) memory)
  else
    let dataModulus := data % wordSize
    let alignedBegin := if dataModulus = 0 then data else data + wordSize - dataModulus
    let memory := maskBytes key (keyOffset frameOffset) data (alignedBegin - data) memory
    let endModulus := dataEnd % wordSize
    let alignedEnd := dataEnd - endModulus
    let realignedMask := maskWebSocketFramePayloadByBytes key
      (keyOffset ((frameOffset + alignedBegin - data) % 2 ^ (8 * wordSize)))
      (List.replicate kMaskingKeyLength 0)
    let packedMaskKey := machine.order.word
      (List.replicate (wordSize / kMaskingKeyLength) realignedMask).flatten
    (maskWordLoop machine packedMaskKey alignedEnd (dataSize + 1) alignedBegin memory).map
      (maskBytes key (keyOffset ((frameOffset + (alignedEnd - data)) % 2 ^ 64)) alignedEnd
        (dataEnd - alignedEnd))

/-- The key as it lies over a payload. -/
def keyPattern (key : WebSocketMaskingKey) (offset : Fin 4) (i : ℕ) : Byte :=
  key (offset + keyOffset i)

section Patterns

variable (key : WebSocketMaskingKey) (offset : Fin 4)

lemma keyPattern_add (count i : ℕ) :
    keyPattern key offset (count + i) = keyPattern key (offset + keyOffset count) i := by
  rw [keyPattern, keyPattern, keyOffset_add, add_assoc]

lemma maskBytes_eq (masked count : ℕ) (memory : Memory) :
    maskBytes key offset masked count memory =
      xorRange (keyPattern key offset) masked count memory := by
  induction count generalizing offset masked memory with
  | zero => rw [maskBytes, xorRange_zero]
  | succ count ih =>
    have hone : xorRange (keyPattern key offset) masked 1 memory =
        Function.update memory masked (memory masked ^^^ key offset) := by
      funext a
      by_cases ha : a = masked
      · subst ha
        simp [xorRange, keyPattern, keyOffset]
      · have hout : ¬ (masked ≤ a ∧ a < masked + 1) := by omega
        rw [Function.update_of_ne ha, xorRange, if_neg hout]
    have hrest : (fun i => keyPattern key offset (1 + i)) =
        keyPattern key (nextKeyOffset offset) := by
      funext i
      exact keyPattern_add key offset 1 i
    rw [maskBytes, ih, add_comm count 1, xorRange_add, hone, hrest]

/-- Behind `count` bytes the key lies as from the offset there. -/
lemma keyPattern_shift (frameOffset count : ℕ) :
    (fun i => keyPattern key (keyOffset frameOffset) (count + i)) =
      keyPattern key (keyOffset (frameOffset + count)) := by
  funext i
  rw [keyPattern_add, keyOffset_add]

lemma keyOffset_multiple {n : ℕ} (h : n % kMaskingKeyLength = 0) : keyOffset n = 0 := by
  apply Fin.ext
  rw [kMaskingKeyLength] at h
  simpa [keyOffset] using h

/-- A multiple of the key's length does not move the key. -/
lemma keyPattern_multiple {n : ℕ} (h : n % kMaskingKeyLength = 0) :
    (fun i => keyPattern key offset (n + i)) = keyPattern key offset := by
  funext i
  rw [keyPattern_add, keyOffset_multiple h, add_zero]

/-- The key over the bytes of a list. -/
lemma maskByBytes_eq_zipWith (data : List Byte) :
    maskWebSocketFramePayloadByBytes key offset data =
      List.zipWith (· ^^^ ·) data ((List.range data.length).map (keyPattern key offset)) := by
  induction data generalizing offset with
  | nil => rfl
  | cons b data ih =>
    have hfirst : keyPattern key offset 0 = key offset := by simp [keyPattern, keyOffset]
    have hrest : keyPattern key offset ∘ Nat.succ = keyPattern key (offset + 1) := by
      funext i
      rw [Function.comp_apply, ← Nat.one_add, keyPattern_add]
      rfl
    rw [maskWebSocketFramePayloadByBytes, ih, List.length_cons, List.range_succ_eq_map,
      List.map_cons, List.map_map, hfirst, hrest, List.zipWith_cons_cons]

/-- Zeros become the key. -/
lemma maskByBytes_zeros (count : ℕ) :
    maskWebSocketFramePayloadByBytes key offset (List.replicate count 0) =
      (List.range count).map (keyPattern key offset) := by
  rw [maskByBytes_eq_zipWith, List.length_replicate]
  apply List.ext_getElem
  · simp
  · intro i h h'
    simp

/-- The packed key is the key for a whole word. -/
lemma flatten_realignedMask (words : ℕ) :
    (List.replicate words (maskWebSocketFramePayloadByBytes key offset
      (List.replicate kMaskingKeyLength 0))).flatten =
        (List.range (kMaskingKeyLength * words)).map (keyPattern key offset) := by
  rw [maskByBytes_zeros]
  induction words with
  | zero => rfl
  | succ words ih =>
    have hshift : keyPattern key offset ∘ (kMaskingKeyLength + ·) = keyPattern key offset :=
      keyPattern_multiple key offset rfl
    rw [List.replicate_succ, List.flatten_cons, ih, Nat.mul_succ, Nat.add_comm, List.range_add,
      List.map_append, List.map_map, hshift]

lemma maskWordLoop_eq (machine : Machine) {alignedEnd : ℕ} (words fuel merged : ℕ)
    (hend : alignedEnd = merged + machine.wordSize * words) (hfuel : words < fuel)
    (memory : Memory) :
    maskWordLoop machine
        (machine.order.word ((List.range machine.wordSize).map (keyPattern key offset)))
        alignedEnd fuel merged memory =
      some (xorRange (keyPattern key offset) merged (machine.wordSize * words) memory) := by
  have hpos : 0 < machine.wordSize := lt_of_lt_of_le (by decide) machine.wordSize_ge
  induction words generalizing fuel merged memory with
  | zero =>
    obtain ⟨fuel, rfl⟩ := Nat.exists_eq_succ_of_ne_zero (by omega : fuel ≠ 0)
    have hdone : merged = alignedEnd := by omega
    rw [maskWordLoop, if_pos hdone, Nat.mul_zero, xorRange_zero]
  | succ words ih =>
    obtain ⟨fuel, rfl⟩ := Nat.exists_eq_succ_of_ne_zero (by omega : fuel ≠ 0)
    rw [Nat.mul_succ] at hend
    have hne : merged ≠ alignedEnd := by omega
    rw [maskWordLoop, if_neg hne, machine.order.store_xor,
      ih fuel (merged + machine.wordSize) (by omega) (by omega), Nat.mul_succ,
      Nat.add_comm (machine.wordSize * words), xorRange_add,
      keyPattern_multiple key offset machine.wordSize_mod]

end Patterns

/-- Wrapping around does not move the key. -/
lemma keyOffset_wrapped (n : ℕ) {bits : ℕ} (h : 2 ≤ bits) :
    keyOffset (n % 2 ^ bits) = keyOffset n := by
  have hdvd : 4 ∣ 2 ^ bits := pow_dvd_pow 2 h
  apply Fin.ext
  simp only [keyOffset, Fin.val_ofNat]
  exact Nat.mod_mod_of_dvd n hdvd

/-- The first word boundary at or behind an address. -/
lemma aligned_begin {wordSize : ℕ} (hpos : 0 < wordSize) (data : ℕ) :
    ∃ skipped < wordSize, wordSize ∣ data + skipped ∧
      (if data % wordSize = 0 then data else data + wordSize - data % wordSize) =
        data + skipped := by
  have hlt := Nat.mod_lt data hpos
  by_cases hzero : data % wordSize = 0
  · exact ⟨0, hpos, Nat.dvd_of_mod_eq_zero hzero, if_pos hzero⟩
  · have hcancel : data + (wordSize - data % wordSize) = data - data % wordSize + wordSize := by
      have hle := Nat.mod_le data wordSize
      omega
    refine ⟨wordSize - data % wordSize, by omega, ?_, ?_⟩
    · rw [hcancel]
      exact Nat.dvd_add (Nat.dvd_sub_mod data) dvd_rfl
    · rw [if_neg hzero]
      omega

/-- Masking by words is masking by bytes, wherever the buffer lies. -/
lemma Machine.maskPayload_eq (machine : Machine) (key : WebSocketMaskingKey)
    (frameOffset data dataSize : ℕ) (memory : Memory) :
    machine.maskPayload key frameOffset data dataSize memory =
      some (xorRange (keyPattern key (keyOffset frameOffset)) data dataSize memory) := by
  have hge := machine.wordSize_ge
  rw [kMaskingKeyLength] at hge
  rw [Machine.maskPayload]
  split_ifs with hsmall
  · rw [maskBytes_eq, Nat.add_sub_cancel_left]
  obtain ⟨skipped, hskipped, hbeginDvd, hbegin⟩ :=
    aligned_begin (by omega : 0 < machine.wordSize) data
  have hendDvd : machine.wordSize ∣ data + dataSize - (data + dataSize) % machine.wordSize :=
    Nat.dvd_sub_mod _
  have hleft := Nat.mod_lt (data + dataSize) (by omega : machine.wordSize > 0)
  simp only [hbegin]
  generalize (data + dataSize) % machine.wordSize = left at hendDvd hleft
  obtain ⟨words, hwords⟩ := Nat.dvd_sub hendDvd hbeginDvd
  -- the three parts
  have hend : data + dataSize - left = data + skipped + machine.wordSize * words := by omega
  have hcount : words ≤ machine.wordSize * words := Nat.le_mul_of_pos_left words (by omega)
  have hlast : data + dataSize - (data + skipped + machine.wordSize * words) = left := by omega
  have hsize : dataSize = skipped + machine.wordSize * words + left := by omega
  have hkeyWords : kMaskingKeyLength * (machine.wordSize / kMaskingKeyLength) =
      machine.wordSize :=
    Nat.mul_div_cancel' (Nat.dvd_of_mod_eq_zero machine.wordSize_mod)
  have hbeginOffset : frameOffset + (data + skipped) - data = frameOffset + skipped := by omega
  have hendOffset : data + skipped + machine.wordSize * words - data =
      skipped + machine.wordSize * words := by omega
  have hbits : 2 ≤ 8 * machine.wordSize := by omega
  rw [hend, hbeginOffset, hendOffset, hlast, keyOffset_wrapped _ hbits,
    keyOffset_wrapped _ (by decide : 2 ≤ 64), flatten_realignedMask, hkeyWords, maskBytes_eq,
    Nat.add_sub_cancel_left,
    maskWordLoop_eq key _ machine words _ _ rfl (by omega), Option.map_some, maskBytes_eq]
  conv_rhs => rw [hsize, xorRange_add, xorRange_add]
  congr 1
  rw [keyPattern_shift, keyPattern_shift, Nat.add_assoc]

/-- A buffer that is masked in consecutive pieces. -/
def Machine.maskPieces (machine : Machine) (key : WebSocketMaskingKey) :
    ℕ → ℕ → List ℕ → Memory → Option Memory
  | _, _, [], memory => some memory
  | frameOffset, data, size :: sizes, memory =>
    (machine.maskPayload key frameOffset data size memory).bind
      (machine.maskPieces key ((frameOffset + size) % 2 ^ 64) (data + size) sizes)

lemma Machine.maskPieces_eq (machine : Machine) (key : WebSocketMaskingKey)
    (frameOffset data : ℕ) (sizes : List ℕ) (memory : Memory) :
    machine.maskPieces key frameOffset data sizes memory =
      some (xorRange (keyPattern key (keyOffset frameOffset)) data sizes.sum memory) := by
  induction sizes generalizing frameOffset data memory with
  | nil => rw [Machine.maskPieces, List.sum_nil, xorRange_zero]
  | cons size sizes ih =>
    rw [Machine.maskPieces, machine.maskPayload_eq, Option.bind_some, ih, List.sum_cons,
      xorRange_add, keyPattern_shift, keyOffset_wrapped _ (by decide : 2 ≤ 64)]

/-- Every byte of the buffer is combined with the byte of the key that lies over it and no other
byte changes; masking again gives the memory back, and pieces make the same as the whole. -/
theorem maskPayload_spec (machine : Machine) (key : WebSocketMaskingKey)
    (frameOffset data dataSize : ℕ) (memory : Memory) :
    (∃ masked, machine.maskPayload key frameOffset data dataSize memory = some masked ∧
      (∀ i < dataSize,
        masked (data + i) = memory (data + i) ^^^ key (keyOffset (frameOffset + i))) ∧
      (∀ a, a < data ∨ data + dataSize ≤ a → masked a = memory a) ∧
      machine.maskPayload key frameOffset data dataSize masked = some memory) ∧
    ∀ sizes : List ℕ, machine.maskPieces key frameOffset data sizes memory =
      machine.maskPayload key frameOffset data sizes.sum memory := by
  refine ⟨⟨_, machine.maskPayload_eq key frameOffset data dataSize memory, ?_, ?_, ?_⟩, ?_⟩
  · intro i hi
    have hin : data ≤ data + i ∧ data + i < data + dataSize := by omega
    rw [xorRange, if_pos hin, Nat.add_sub_cancel_left, keyPattern, keyOffset_add]
  · intro a ha
    have hout : ¬ (data ≤ a ∧ a < data + dataSize) := by omega
    rw [xorRange, if_neg hout]
  · rw [machine.maskPayload_eq, xorRange_xorRange]
  · intro sizes
    rw [machine.maskPieces_eq, machine.maskPayload_eq]

end Chromium.WebSocket
