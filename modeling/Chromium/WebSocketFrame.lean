import Mathlib.Data.Fin.Basic
import Mathlib.Data.List.Basic
import Mathlib.Tactic

/-!
# WebSocket frames

`net/websockets/websocket_frame.cc`: the header of a frame as it is written, and the
masking of payloads, which is done a word at a time where the buffer is aligned.
-/
namespace Chromium.WebSocket

abbrev Byte := BitVec 8

def kFinalBit : Byte := 0x80
def kReserved1Bit : Byte := 0x40
def kReserved2Bit : Byte := 0x20
def kReserved3Bit : Byte := 0x10
def kOpCodeMask : Byte := 0xF
def kMaskBit : Byte := 0x80
def kPayloadLengthMask : Byte := 0x7F
def kMaxPayloadLengthWithoutExtendedLengthField : ℕ := 125
def kPayloadLengthWithTwoByteExtendedLengthField : ℕ := 126
def kPayloadLengthWithEightByteExtendedLengthField : ℕ := 127
def kuint16max : ℕ := 2 ^ 16 - 1
def kint32max : ℕ := 2 ^ 31 - 1
def kint64max : ℕ := 2 ^ 63 - 1
def kBaseHeaderSize : ℕ := 2
def kMaskingKeyLength : ℕ := 4
def kPackedMaskKeySize : ℕ := 8

structure WebSocketFrameHeader where
  final : Bool
  reserved1 : Bool
  reserved2 : Bool
  reserved3 : Bool
  opcode : BitVec 32
  masked : Bool
  payloadLength : ℕ
  deriving DecidableEq, Repr

/-- `WebSocketMaskingKey`, its `kMaskingKeyLength` bytes. -/
abbrev WebSocketMaskingKey := Fin 4 → Byte

/-! ### Masking -/

/-- `offset % kMaskingKeyLength`. -/
def keyOffset (offset : ℕ) : Fin 4 := Fin.ofNat 4 offset

/-- The offset into the key starts again when it reaches `kMaskingKeyLength`. -/
def maskWebSocketFramePayloadByBytes (maskingKey : WebSocketMaskingKey) :
    Fin 4 → List Byte → List Byte
  | _, [] => []
  | offset, b :: data =>
    (b ^^^ maskingKey offset) :: maskWebSocketFramePayloadByBytes maskingKey (offset + 1) data

/-- The main loop: each word is combined with the packed key. -/
def maskWords (packedMaskKey : List Byte) : ℕ → List Byte → List Byte
  | 0, data => data
  | words + 1, data =>
    List.zipWith (· ^^^ ·) (data.take kPackedMaskKeySize) packedMaskKey ++
      maskWords packedMaskKey words (data.drop kPackedMaskKeySize)

/-- The data lies at `address`. -/
def maskWebSocketFramePayload (maskingKey : WebSocketMaskingKey) (frameOffset address : ℕ)
    (data : List Byte) : List Byte :=
  if data.length ≤ kPackedMaskKeySize * 2 then
    maskWebSocketFramePayloadByBytes maskingKey (keyOffset frameOffset) data
  else
    let dataModulus := address % kPackedMaskKeySize
    let alignedBegin := if dataModulus = 0 then 0 else kPackedMaskKeySize - dataModulus
    let endModulus := (address + data.length) % kPackedMaskKeySize
    let alignedEnd := data.length - endModulus
    let realignedMask := maskWebSocketFramePayloadByBytes maskingKey
      (keyOffset (frameOffset + alignedBegin)) (List.replicate kMaskingKeyLength 0)
    let packedMaskKey :=
      (List.replicate (kPackedMaskKeySize / kMaskingKeyLength) realignedMask).flatten
    maskWebSocketFramePayloadByBytes maskingKey (keyOffset frameOffset)
        (data.take alignedBegin) ++
      maskWords packedMaskKey ((alignedEnd - alignedBegin) / kPackedMaskKeySize)
        ((data.take alignedEnd).drop alignedBegin) ++
      maskWebSocketFramePayloadByBytes maskingKey (keyOffset (frameOffset + alignedEnd))
        (data.drop alignedEnd)

section Masking
variable (key : WebSocketMaskingKey) (offset : Fin 4)

lemma maskByBytes_append (xs ys : List Byte) :
    maskWebSocketFramePayloadByBytes key offset (xs ++ ys) =
      maskWebSocketFramePayloadByBytes key offset xs ++
        maskWebSocketFramePayloadByBytes key (offset + keyOffset xs.length) ys := by
  induction xs generalizing offset with
  | nil => simp [maskWebSocketFramePayloadByBytes, keyOffset]
  | cons b xs ih =>
    have hoffset : offset + 1 + keyOffset xs.length =
        offset + keyOffset (b :: xs).length := by
      apply Fin.ext
      simp only [keyOffset, Fin.val_add, Fin.val_ofNat, List.length_cons, Fin.val_one]
      omega
    rw [List.cons_append, maskWebSocketFramePayloadByBytes, ih, hoffset]
    rfl

lemma keyOffset_add (a b : ℕ) : keyOffset (a + b) = keyOffset a + keyOffset b := by
  apply Fin.ext
  simp only [keyOffset, Fin.val_add, Fin.val_ofNat]
  omega

@[simp]
lemma maskByBytes_length (data : List Byte) :
    (maskWebSocketFramePayloadByBytes key offset data).length = data.length := by
  induction data generalizing offset with
  | nil => rfl
  | cons b data ih => simp [maskWebSocketFramePayloadByBytes, ih]

/-- Masking twice gives the data back. -/
lemma maskByBytes_maskByBytes (data : List Byte) :
    maskWebSocketFramePayloadByBytes key offset
      (maskWebSocketFramePayloadByBytes key offset data) = data := by
  induction data generalizing offset with
  | nil => rfl
  | cons b data ih =>
    simp only [maskWebSocketFramePayloadByBytes, ih]
    rw [BitVec.xor_assoc, BitVec.xor_self, BitVec.xor_zero]

/-- What zeros become under the key is the key itself. -/
lemma zipWith_maskByBytes_replicate (data : List Byte) :
    List.zipWith (· ^^^ ·) data (maskWebSocketFramePayloadByBytes key offset
      (List.replicate data.length 0)) = maskWebSocketFramePayloadByBytes key offset data := by
  induction data generalizing offset with
  | nil => rfl
  | cons b data ih =>
    have hzero : (0 : Byte) ^^^ key offset = key offset := BitVec.zero_xor
    simp only [List.length_cons, List.replicate_succ, maskWebSocketFramePayloadByBytes,
      List.zipWith_cons_cons, ih, hzero]

lemma add_kMaskingKeyLength : offset + keyOffset kMaskingKeyLength = offset := by
  revert offset
  decide

lemma add_kPackedMaskKeySize : offset + keyOffset kPackedMaskKeySize = offset := by
  revert offset
  decide

/-- The packed key is the key for a whole word. -/
lemma packedMaskKey_eq :
    (List.replicate (kPackedMaskKeySize / kMaskingKeyLength)
      (maskWebSocketFramePayloadByBytes key offset (List.replicate kMaskingKeyLength 0))).flatten =
      maskWebSocketFramePayloadByBytes key offset (List.replicate kPackedMaskKeySize 0) := by
  have hsplit : List.replicate kPackedMaskKeySize (0 : Byte) =
      List.replicate kMaskingKeyLength 0 ++ List.replicate kMaskingKeyLength 0 := rfl
  rw [hsplit, maskByBytes_append, List.length_replicate, add_kMaskingKeyLength]
  simp [kPackedMaskKeySize, kMaskingKeyLength]

lemma maskWords_eq {words : ℕ} {data : List Byte} (h : data.length = kPackedMaskKeySize * words) :
    maskWords (maskWebSocketFramePayloadByBytes key offset
      (List.replicate kPackedMaskKeySize 0)) words data =
      maskWebSocketFramePayloadByBytes key offset data := by
  induction words generalizing data with
  | zero =>
    rw [Nat.mul_zero, List.length_eq_zero_iff] at h
    rw [h]
    rfl
  | succ words ih =>
    have htake : (data.take kPackedMaskKeySize).length = kPackedMaskKeySize := by
      rw [List.length_take_of_le (by rw [h]; exact Nat.le_mul_of_pos_right _ (Nat.succ_pos _))]
    have hword := zipWith_maskByBytes_replicate key offset (data.take kPackedMaskKeySize)
    rw [htake] at hword
    rw [maskWords, hword, ih (by rw [List.length_drop, h, Nat.mul_succ, Nat.add_sub_cancel])]
    nth_rewrite 3 [← List.take_append_drop kPackedMaskKeySize data]
    rw [maskByBytes_append, htake, add_kPackedMaskKeySize]

/-- Masking by words is masking by bytes, wherever the buffer lies. -/
theorem maskWebSocketFramePayload_eq (frameOffset address : ℕ) (data : List Byte) :
    maskWebSocketFramePayload key frameOffset address data =
      maskWebSocketFramePayloadByBytes key (keyOffset frameOffset) data := by
  unfold maskWebSocketFramePayload
  split_ifs with hsmall
  · rfl
  simp only
  rw [packedMaskKey_eq]
  unfold kPackedMaskKeySize at hsmall ⊢
  generalize hbegin : (if address % 8 = 0 then 0 else 8 - address % 8) = first
  generalize hend : data.length - (address + data.length) % 8 = last
  have hfirst : first < 8 ∧ (address + first) % 8 = 0 := by
    split_ifs at hbegin <;> omega
  have hlen : ((data.take last).drop first).length = 8 * ((last - first) / 8) := by
    rw [List.length_drop, List.length_take]
    omega
  have hdata : data = data.take first ++ (data.take last).drop first ++ data.drop last := by
    have htake : data.take first = (data.take last).take first := by
      rw [List.take_take, Nat.min_eq_left (by omega)]
    rw [htake, List.take_append_drop, List.take_append_drop]
  have hfirstlen : (data.take first).length = first := List.length_take_of_le (by omega)
  have hlastlen : (data.take first ++ (data.take last).drop first).length = last := by
    rw [List.length_append, hlen, hfirstlen]
    omega
  have hwords := maskWords_eq key (keyOffset (frameOffset + first)) hlen
  unfold kPackedMaskKeySize at hwords
  rw [hwords]
  conv_rhs => rw [hdata, maskByBytes_append, maskByBytes_append, hfirstlen, hlastlen]
  rw [keyOffset_add, keyOffset_add]

end Masking

/-! ### Writing headers -/

/-- `ReadBigEndian`. -/
def readBigEndian (bytes : List Byte) : ℕ := bytes.foldl (fun n b => n * 2 ^ 8 + b.toNat) 0

/-- `WriteBigEndian`, for an integer of `size` bytes. -/
def writeBigEndian : ℕ → ℕ → List Byte
  | 0, _ => []
  | size + 1, n => writeBigEndian size (n >>> 8) ++ [BitVec.ofNat 8 n]

def getWebSocketFrameHeaderSize (header : WebSocketFrameHeader) : ℕ :=
  let extendedLengthSize :=
    if header.payloadLength > kMaxPayloadLengthWithoutExtendedLengthField ∧
        header.payloadLength ≤ kuint16max then 2
    else if header.payloadLength > kuint16max then 8
    else 0
  kBaseHeaderSize + extendedLengthSize + if header.masked then kMaskingKeyLength else 0

def bit (flag : Bool) (mask : Byte) : Byte := if flag then mask else 0

def firstByte (header : WebSocketFrameHeader) : Byte :=
  bit header.final kFinalBit ||| bit header.reserved1 kReserved1Bit |||
    bit header.reserved2 kReserved2Bit ||| bit header.reserved3 kReserved3Bit |||
    (header.opcode.setWidth 8 &&& kOpCodeMask)

/-- The second byte and the extended payload length. -/
def writePayloadLength (masked : Bool) (payloadLength : ℕ) : List Byte :=
  if payloadLength ≤ kMaxPayloadLengthWithoutExtendedLengthField then
    [bit masked kMaskBit ||| BitVec.ofNat 8 payloadLength]
  else if payloadLength ≤ kuint16max then
    (bit masked kMaskBit ||| BitVec.ofNat 8 kPayloadLengthWithTwoByteExtendedLengthField) ::
      writeBigEndian 2 payloadLength
  else
    (bit masked kMaskBit ||| BitVec.ofNat 8 kPayloadLengthWithEightByteExtendedLengthField) ::
      writeBigEndian 8 payloadLength

/-- What is written into the buffer; nothing when it is too small. -/
def writeWebSocketFrameHeader (header : WebSocketFrameHeader) (maskingKey : WebSocketMaskingKey)
    (bufferSize : ℕ) : Option (List Byte) :=
  if getWebSocketFrameHeaderSize header > bufferSize then none
  else some (firstByte header :: writePayloadLength header.masked header.payloadLength ++
    if header.masked then List.ofFn maskingKey else [])

@[simp]
lemma writeBigEndian_length (size n : ℕ) : (writeBigEndian size n).length = size := by
  induction size generalizing n with
  | zero => rfl
  | succ size ih => simp [writeBigEndian, ih]

lemma readBigEndian_writeBigEndian {size n : ℕ} (h : n < 2 ^ (8 * size)) :
    readBigEndian (writeBigEndian size n) = n := by
  induction size generalizing n with
  | zero =>
    simp only [Nat.mul_zero, pow_zero, Nat.lt_one_iff] at h
    rw [h]
    rfl
  | succ size ih =>
    have hshift : n >>> 8 = n / 2 ^ 8 := Nat.shiftRight_eq_div_pow n 8
    have hlt : n >>> 8 < 2 ^ (8 * size) := by
      rw [hshift]
      apply Nat.div_lt_of_lt_mul
      rwa [← pow_add, Nat.add_comm, ← Nat.mul_succ]
    have hread := ih hlt
    unfold readBigEndian at hread ⊢
    rw [writeBigEndian, List.foldl_append, hread, hshift]
    simp only [List.foldl_cons, List.foldl_nil, BitVec.toNat_ofNat]
    omega

end Chromium.WebSocket
