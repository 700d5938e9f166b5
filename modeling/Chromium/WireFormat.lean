import Mathlib.Data.List.Basic
import Mathlib.Tactic

/-!
# Wire formats

Little-endian numbers, a writer into a buffer of fixed size, and parsers that take items
from the front of the input. What is written as one item and read back as one item are put
together piece by piece: `Appends` and `Reads` are closed under sequencing.
-/
namespace Chromium.WireFormat

abbrev Byte := BitVec 8

/-! ### Little-endian numbers -/

/-- The low `size` bytes of `n`. -/
def toBytes : ℕ → ℕ → List Byte
  | 0, _ => []
  | size + 1, n => BitVec.ofNat 8 n :: toBytes size (n / 2 ^ 8)

def ofBytes : List Byte → ℕ
  | [] => 0
  | b :: bytes => b.toNat + 2 ^ 8 * ofBytes bytes

@[simp]
lemma length_toBytes (size n : ℕ) : (toBytes size n).length = size := by
  induction size generalizing n with
  | zero => rfl
  | succ size ih => simp [toBytes, ih]

lemma ofBytes_toBytes (size n : ℕ) : ofBytes (toBytes size n) = n % 2 ^ (8 * size) := by
  induction size generalizing n with
  | zero => simp [toBytes, ofBytes, Nat.mod_one]
  | succ size ih =>
    have hsplit : 2 ^ (8 * (size + 1)) = 2 ^ 8 * 2 ^ (8 * size) := by
      rw [Nat.mul_add, Nat.pow_add, Nat.mul_comm]
    rw [toBytes, ofBytes, ih, hsplit, Nat.mod_mul, BitVec.toNat_ofNat]

lemma ofBytes_toBytes_of_lt {size n : ℕ} (h : n < 2 ^ (8 * size)) :
    ofBytes (toBytes size n) = n := by
  rw [ofBytes_toBytes, Nat.mod_eq_of_lt h]

/-! ### Writing -/

/-- A buffer of `capacity` bytes that is filled from the front. -/
@[ext]
structure Writer where
  capacity : ℕ
  data : List Byte
  fits : data.length ≤ capacity

namespace Writer

def new (capacity : ℕ) : Writer := ⟨capacity, [], Nat.zero_le _⟩

/-- All of the bytes, or nothing when there is no room for them. -/
def write (bytes : List Byte) (w : Writer) : Option Writer :=
  if h : (w.data ++ bytes).length ≤ w.capacity then some ⟨w.capacity, w.data ++ bytes, h⟩
  else none

/-- The bytes that are still free. -/
def room (w : Writer) : ℕ := w.capacity - w.data.length

@[simp]
lemma write_nil (w : Writer) : w.write [] = some w := by
  have h : (w.data ++ []).length ≤ w.capacity := by simpa using w.fits
  rw [write, dif_pos h]
  congr 1
  ext1
  · rfl
  · simp

lemma write_of_room {w : Writer} {bytes : List Byte} (h : bytes.length ≤ w.room) :
    ∃ v, w.write bytes = some v ∧ v.capacity = w.capacity ∧ v.data = w.data ++ bytes := by
  have hfits : (w.data ++ bytes).length ≤ w.capacity := by
    have := w.fits
    rw [room] at h
    rw [List.length_append]
    omega
  exact ⟨_, dif_pos hfits, rfl, rfl⟩

lemma write_of_not_room {w : Writer} {bytes : List Byte} (h : ¬ bytes.length ≤ w.room) :
    w.write bytes = none := by
  apply dif_neg
  rw [room] at h
  rw [List.length_append]
  omega

lemma write_eq_some {w v : Writer} {bytes : List Byte} (h : w.write bytes = some v) :
    bytes.length ≤ w.room ∧ v.capacity = w.capacity ∧ v.data = w.data ++ bytes := by
  by_cases hroom : bytes.length ≤ w.room
  · obtain ⟨v', hv', hcap, hdata⟩ := write_of_room hroom
    rw [h] at hv'
    cases hv'
    exact ⟨hroom, hcap, hdata⟩
  · rw [write_of_not_room hroom] at h
    cases h

lemma write_of_data {w v : Writer} {bytes : List Byte} (hcap : v.capacity = w.capacity)
    (hdata : v.data = w.data ++ bytes) : w.write bytes = some v := by
  have hfits : (w.data ++ bytes).length ≤ w.capacity := by
    rw [← hdata, ← hcap]
    exact v.fits
  rw [write, dif_pos hfits]
  congr 1
  ext1
  · exact hcap.symm
  · exact hdata.symm

lemma room_of_write {w v : Writer} {bytes : List Byte} (h : w.write bytes = some v) :
    v.room + bytes.length = w.room := by
  obtain ⟨hroom, hcap, hdata⟩ := write_eq_some h
  rw [room] at hroom
  rw [room, room, hcap, hdata, List.length_append]
  omega

/-- Writing in two parts succeeds exactly when writing at once does. -/
lemma write_write (w : Writer) (xs ys : List Byte) :
    ((w.write xs).bind fun v => v.write ys) = w.write (xs ++ ys) := by
  by_cases hx : xs.length ≤ w.room
  · obtain ⟨v, hv, hcap, hdata⟩ := write_of_room hx
    rw [hv, Option.bind_some]
    simp only [write, hcap, hdata, List.append_assoc]
  · rw [write_of_not_room hx, Option.bind_none, write_of_not_room]
    rw [List.length_append]
    omega

end Writer

/-- The step appends exactly these bytes, and fails only for want of room. -/
def Appends (step : Writer → Option Writer) (bytes : List Byte) : Prop :=
  ∀ w, step w = w.write bytes

lemma appends_write (bytes : List Byte) : Appends (Writer.write bytes) bytes := fun _ => rfl

lemma appends_some : Appends some [] := fun w => w.write_nil.symm

lemma Appends.bind {f g : Writer → Option Writer} {xs ys : List Byte} (hf : Appends f xs)
    (hg : Appends g ys) : Appends (fun w => (f w).bind g) (xs ++ ys) := by
  intro w
  change (f w).bind g = _
  rw [← Writer.write_write, hf w]
  congr 1
  funext v
  exact hg v

/-! ### Reading -/

/-- A parser takes an item from the front of the input, or gives an error. -/
abbrev Parser (ε α : Type) := StateT (List Byte) (Except ε) α

namespace Parser
variable {ε α γ : Type}

def bytes (size : ℕ) (error : ε) : Parser ε (List Byte) := fun input =>
  if input.length < size then .error error else .ok (input.take size, input.drop size)

/-- A little-endian number. -/
def uint (size : ℕ) (error : ε) : Parser ε ℕ := ofBytes <$> bytes size error

def fail (error : ε) : Parser ε α := fun _ => .error error

/-- The item is read off its own bytes, whatever comes after them. -/
def Reads (p : Parser ε α) (item : List Byte) (a : α) : Prop :=
  ∀ rest, p (item ++ rest) = .ok (a, rest)

lemma reads_pure (a : α) : Reads (pure a : Parser ε α) [] a := fun _ => rfl

/-- After the item the rest of the parser goes on. -/
lemma Reads.run_bind {p : Parser ε α} {item : List Byte} {a : α} (hp : Reads p item a)
    (f : α → Parser ε γ) (rest : List Byte) : (p >>= f) (item ++ rest) = f a rest := by
  change (p (item ++ rest) >>= fun x => f x.1 x.2) = _
  rw [hp rest]
  rfl

lemma Reads.bind {p : Parser ε α} {f : α → Parser ε γ} {item item' : List Byte} {a : α} {c : γ}
    (hp : Reads p item a) (hf : Reads (f a) item' c) : Reads (p >>= f) (item ++ item') c := by
  intro rest
  rw [List.append_assoc, hp.run_bind]
  exact hf rest

/-- What comes after the item takes nothing. -/
lemma Reads.bind_nil {p : Parser ε α} {f : α → Parser ε γ} {item : List Byte} {a : α} {c : γ}
    (hp : Reads p item a) (hf : Reads (f a) [] c) : Reads (p >>= f) item c := by
  have h := hp.bind hf
  rwa [List.append_nil] at h

/-- The last item of a parser is put into its result. -/
lemma Reads.bind_pure {p : Parser ε α} {item : List Byte} {a : α} (hp : Reads p item a)
    (g : α → γ) : Reads (p >>= fun x => pure (g x)) item (g a) := by
  intro rest
  change (p (item ++ rest) >>= fun x => pure (g x.1, x.2)) = _
  rw [hp rest]
  rfl

lemma Reads.map {p : Parser ε α} {item : List Byte} {a : α} (hp : Reads p item a) (g : α → γ) :
    Reads (g <$> p) item (g a) := by
  intro rest
  change (p (item ++ rest) >>= fun x => pure (g x.1, x.2)) = _
  rw [hp rest]
  rfl

lemma reads_bytes {item : List Byte} {size : ℕ} (h : item.length = size) (error : ε) :
    Reads (bytes size error) item item := by
  intro rest
  rw [bytes, if_neg (by simp [h]), List.take_left' h, List.drop_left' h]

lemma reads_uint (size n : ℕ) (error : ε) :
    Reads (uint size error) (toBytes size n) (n % 2 ^ (8 * size)) := by
  have h := (reads_bytes (length_toBytes size n) error).map ofBytes
  rw [ofBytes_toBytes] at h
  exact h

lemma reads_uint_of_lt {size n : ℕ} (h : n < 2 ^ (8 * size)) (error : ε) :
    Reads (uint size error) (toBytes size n) n := by
  have hread := reads_uint size n error
  rwa [Nat.mod_eq_of_lt h] at hread

end Parser

end Chromium.WireFormat
