import Chromium.WireFormat

/-!
# Words in a memory of bytes

A memory is a byte for each address. Words are numbers that are read and written in the byte order
of the machine; combining a word with a key by exclusive or combines each of its bytes.
-/
namespace Chromium.ByteMemory

open WireFormat

abbrev Memory := ℕ → Byte

inductive ByteOrder
  | littleEndian
  | bigEndian
  deriving DecidableEq, Repr

/-- The bytes of a word from the lowest on, from those in the order of the memory or back. -/
def ByteOrder.arrange : ByteOrder → List Byte → List Byte
  | littleEndian, bytes => bytes
  | bigEndian, bytes => bytes.reverse

def readBytes (memory : Memory) (address size : ℕ) : List Byte :=
  (List.range size).map fun i => memory (address + i)

def writeBytes (memory : Memory) (address : ℕ) (bytes : List Byte) : Memory := fun a =>
  if address ≤ a then (bytes[a - address]?).getD (memory a) else memory a

def ByteOrder.word (order : ByteOrder) (bytes : List Byte) : ℕ := ofBytes (order.arrange bytes)

def ByteOrder.load (order : ByteOrder) (size : ℕ) (memory : Memory) (address : ℕ) : ℕ :=
  order.word (readBytes memory address size)

def ByteOrder.store (order : ByteOrder) (size : ℕ) (memory : Memory) (address value : ℕ) : Memory :=
  writeBytes memory address (order.arrange (toBytes size value))

@[simp]
lemma length_readBytes (memory : Memory) (address size : ℕ) :
    (readBytes memory address size).length = size := by simp [readBytes]

@[simp]
lemma ByteOrder.length_arrange (order : ByteOrder) (bytes : List Byte) :
    (order.arrange bytes).length = bytes.length := by
  cases order with
  | littleEndian => rfl
  | bigEndian => exact List.length_reverse

@[simp]
lemma ByteOrder.arrange_arrange (order : ByteOrder) (bytes : List Byte) :
    order.arrange (order.arrange bytes) = bytes := by
  cases order with
  | littleEndian => rfl
  | bigEndian => exact List.reverse_reverse bytes

lemma ByteOrder.arrange_zipWith (order : ByteOrder) (f : Byte → Byte → Byte)
    {xs ys : List Byte} (h : xs.length = ys.length) :
    order.arrange (List.zipWith f xs ys) =
      List.zipWith f (order.arrange xs) (order.arrange ys) := by
  cases order with
  | littleEndian => rfl
  | bigEndian => exact List.reverse_zipWith h

/-- The bytes of an exclusive or. -/
lemma toBytes_xor {xs ys : List Byte} (h : xs.length = ys.length) :
    toBytes xs.length (ofBytes xs ^^^ ofBytes ys) = List.zipWith (· ^^^ ·) xs ys := by
  induction xs generalizing ys with
  | nil => rfl
  | cons x xs ih =>
    cases ys with
    | nil => simp at h
    | cons y ys =>
      have hlow : (ofBytes (x :: xs) ^^^ ofBytes (y :: ys)) % 2 ^ 8 = x.toNat ^^^ y.toNat := by
        rw [Nat.xor_mod_two_pow, ofBytes, ofBytes, Nat.add_mul_mod_self_left,
          Nat.add_mul_mod_self_left, Nat.mod_eq_of_lt x.isLt, Nat.mod_eq_of_lt y.isLt]
      have hhigh : (ofBytes (x :: xs) ^^^ ofBytes (y :: ys)) / 2 ^ 8 =
          ofBytes xs ^^^ ofBytes ys := by
        rw [Nat.xor_div_two_pow, ofBytes, ofBytes, Nat.add_mul_div_left _ _ (by decide),
          Nat.add_mul_div_left _ _ (by decide), Nat.div_eq_of_lt x.isLt,
          Nat.div_eq_of_lt y.isLt, Nat.zero_add, Nat.zero_add]
      have hbyte : BitVec.ofNat 8 (ofBytes (x :: xs) ^^^ ofBytes (y :: ys)) = x ^^^ y := by
        apply BitVec.eq_of_toNat_eq
        rw [BitVec.toNat_ofNat, hlow, BitVec.toNat_xor]
      rw [List.length_cons, toBytes, hbyte, hhigh, ih (by simpa using h), List.zipWith_cons_cons]

/-! ### Exclusive or over a range -/

/-- The bytes of a range are combined with a pattern, the others stay. -/
def xorRange (pattern : ℕ → Byte) (start count : ℕ) (memory : Memory) : Memory := fun a =>
  if start ≤ a ∧ a < start + count then memory a ^^^ pattern (a - start) else memory a

@[simp]
lemma xorRange_zero (pattern : ℕ → Byte) (start : ℕ) (memory : Memory) :
    xorRange pattern start 0 memory = memory := by
  funext a
  simp only [xorRange]
  split_ifs with h
  · omega
  · rfl

/-- Two ranges next to each other. -/
lemma xorRange_add (pattern : ℕ → Byte) (start count more : ℕ) (memory : Memory) :
    xorRange pattern start (count + more) memory =
      xorRange (fun i => pattern (count + i)) (start + count) more
        (xorRange pattern start count memory) := by
  funext a
  simp only [xorRange]
  by_cases hlow : a < start + count
  · have hout : ¬ (start + count ≤ a ∧ a < start + count + more) := by omega
    rw [if_neg hout]
    split_ifs with h h' h'
    · rfl
    · omega
    · omega
    · rfl
  · have hout : ¬ (start ≤ a ∧ a < start + count) := by omega
    rw [if_neg hout]
    split_ifs with h h' h'
    · have hindex : count + (a - (start + count)) = a - start := by omega
      rw [hindex]
    · omega
    · omega
    · rfl

lemma xorRange_xorRange (pattern : ℕ → Byte) (start count : ℕ) (memory : Memory) :
    xorRange pattern start count (xorRange pattern start count memory) = memory := by
  funext a
  simp only [xorRange]
  split_ifs
  · rw [BitVec.xor_assoc, BitVec.xor_self, BitVec.xor_zero]
  · rfl

/-- A word that is combined with a word of the key. -/
lemma ByteOrder.store_xor (order : ByteOrder) (memory : Memory) (address : ℕ) (size : ℕ)
    (pattern : ℕ → Byte) :
    order.store size memory address (order.load size memory address ^^^
        order.word ((List.range size).map pattern)) =
      xorRange pattern address size memory := by
  have hlength : (order.arrange (readBytes memory address size)).length =
      (order.arrange ((List.range size).map pattern)).length := by simp
  have hbytes := toBytes_xor hlength
  rw [order.length_arrange, length_readBytes] at hbytes
  funext a
  rw [ByteOrder.store, ByteOrder.load, ByteOrder.word, ByteOrder.word, hbytes,
    order.arrange_zipWith _ hlength, order.arrange_arrange, order.arrange_arrange, writeBytes,
    xorRange]
  by_cases hlow : address ≤ a
  · by_cases hhigh : a < address + size
    · have hindex : a - address < size := by omega
      have hadd : address + (a - address) = a := by omega
      rw [if_pos hlow, if_pos ⟨hlow, hhigh⟩]
      simp [readBytes, hindex, hadd]
    · have hout : ¬ (address ≤ a ∧ a < address + size) := by omega
      have hindex : size ≤ a - address := by omega
      rw [if_pos hlow, if_neg hout]
      simp [readBytes, hindex]
  · have hout : ¬ (address ≤ a ∧ a < address + size) := by omega
    rw [if_neg hlow, if_neg hout]

end Chromium.ByteMemory
