import Chromium.WireFormat

/-!
# Names in DNS packets

`net/dns/dns_response.cc`: a name is a series of labels, and pointers to where the name goes on.
Pointers may form loops, so the bytes that are seen are counted.
-/
namespace Chromium.Dns

open WireFormat

/-! ### Reading -/

/-- The bytes of a response. The size of its buffer is an `int`. -/
structure Packet where
  data : List Byte
  length_lt : data.length < 2 ^ 31

def Packet.length (packet : Packet) : ℕ := packet.data.length

def Packet.slice (packet : Packet) (pos size : ℕ) : List Byte :=
  (packet.data.drop pos).take size

def kLabelMask : Byte := 0xc0
def kLabelPointer : Byte := 0xc0
def kLabelDirect : Byte := 0x0
def kOffsetMask : ℕ := 0x3fff

/-- A number whose highest byte comes first. -/
def bigEndian (bytes : List Byte) : ℕ := bytes.foldl (fun n b => 2 ^ 8 * n + b.toNat) 0

/-- A dot comes before every label but the first. -/
def appendLabel (out label : List Byte) : List Byte :=
  if out ≠ [] then out ++ [0x2e] ++ label else out ++ label

/-- The loop of `ReadName`. No result stands for a byte that is read outside of the packet, and
for a loop that does not end; `out` is `none` when the name is not stored. -/
def readNameLoop (packet : Packet) (pos : ℕ) :
    ℕ → ℕ → ℕ → ℕ → Option (List Byte) → Option (ℕ × Option (List Byte))
  | 0, _, _, _, _ => none
  | fuel + 1, p, seen, consumed, out =>
    match packet.data[p]? with
    | none => none
    | some b =>
      if b &&& kLabelMask = kLabelPointer then
        if p + 2 > packet.length then some (0, out)
        else if consumed = 0 ∧ out = none then some (p - pos + 2, out)
        else if (seen + 2) % 2 ^ 32 > packet.length then some (0, out)
        else
          match packet.data[p + 1]? with
          | none => none
          | some b' =>
            let offset := bigEndian [b, b'] &&& kOffsetMask
            if offset ≥ packet.length then some (0, out)
            else readNameLoop packet pos fuel offset ((seen + 2) % 2 ^ 32)
              (if consumed = 0 then p - pos + 2 else consumed) out
      else if b &&& kLabelMask = kLabelDirect then
        if b.toNat = 0 then some (if consumed = 0 then p + 1 - pos else consumed, out)
        else if p + 1 + b.toNat ≥ packet.length then some (0, out)
        else readNameLoop packet pos fuel (p + 1 + b.toNat) ((seen + (1 + b.toNat)) % 2 ^ 32)
          consumed (out.map (appendLabel · (packet.slice (p + 1) b.toNat)))
      else some (0, out)

/-- The number of bytes that the name takes at `pos`, or 0; and the name, even a part of it. -/
def readName (packet : Packet) (pos : ℕ) (out : Option (List Byte)) :
    Option (ℕ × Option (List Byte)) :=
  if pos ≥ packet.length then some (0, out)
  else readNameLoop packet pos (2 * packet.length + 1) pos 0 0 (out.map fun _ => [])

/-! ### What a name is -/

/-- A label, or a jump to where the name goes on. -/
inductive Step
  | label (bytes : List Byte)
  | jump

/-- The steps from a position to the label of the root. -/
inductive Follows (packet : Packet) : ℕ → List Step → Prop
  | root {p : ℕ} (hroot : packet.data[p]? = some 0) : Follows packet p []
  | label {p : ℕ} {b : Byte} {steps : List Step} (hb : packet.data[p]? = some b)
      (hdirect : b &&& kLabelMask = kLabelDirect) (hne : b.toNat ≠ 0)
      (hrest : Follows packet (p + 1 + b.toNat) steps) :
      Follows packet p (.label (packet.slice (p + 1) b.toNat) :: steps)
  | jump {p : ℕ} {b b' : Byte} {steps : List Step} (hb : packet.data[p]? = some b)
      (hpointer : b &&& kLabelMask = kLabelPointer) (hb' : packet.data[p + 1]? = some b')
      (hrest : Follows packet (bigEndian [b, b'] &&& kOffsetMask) steps) :
      Follows packet p (.jump :: steps)

/-- The bytes up to the last jump, those of a loop again each time. -/
def visited : List Step → ℕ
  | [] => 0
  | .label bytes :: rest => if visited rest = 0 then 0 else 1 + bytes.length + visited rest
  | .jump :: rest => 2 + visited rest

/-- The bytes up to the first jump, or to the end. -/
def taken : List Step → ℕ
  | [] => 1
  | .label bytes :: rest => 1 + bytes.length + taken rest
  | .jump :: _ => 2

def labels : List Step → List (List Byte)
  | [] => []
  | .label bytes :: rest => bytes :: labels rest
  | .jump :: rest => labels rest

def dotted (labels : List (List Byte)) : List Byte := List.intercalate [0x2e] labels

/-! ### Steps of a name -/

section Steps
variable {packet : Packet} {p : ℕ} {b : Byte} {steps : List Step}

lemma length_slice {pos size : ℕ} (h : pos + size ≤ packet.length) :
    (packet.slice pos size).length = size := by
  rw [Packet.length] at h
  rw [Packet.slice, List.length_take, List.length_drop]
  omega

lemma lt_of_getElem? (hb : packet.data[p]? = some b) : p < packet.length :=
  (List.getElem?_eq_some_iff.mp hb).1

lemma Follows.lt (h : Follows packet p steps) : p < packet.length := by
  cases h with
  | root hb => exact lt_of_getElem? hb
  | label hb _ _ _ => exact lt_of_getElem? hb
  | jump hb _ _ _ => exact lt_of_getElem? hb

lemma ne_zero_of_pointer (h : b &&& kLabelMask = kLabelPointer) : b ≠ 0 := by
  rintro rfl
  exact absurd h (by decide)

lemma not_direct_of_pointer (h : b &&& kLabelMask = kLabelPointer) :
    b &&& kLabelMask ≠ kLabelDirect := by
  rw [h]
  decide

/-- Where a pointer stands, the name goes on where it points to. -/
lemma Follows.of_pointer (h : Follows packet p steps) (hb : packet.data[p]? = some b)
    (hpointer : b &&& kLabelMask = kLabelPointer) :
    ∃ b' rest, packet.data[p + 1]? = some b' ∧ steps = .jump :: rest ∧
      Follows packet (bigEndian [b, b'] &&& kOffsetMask) rest := by
  cases h with
  | root hroot =>
    rw [hb] at hroot
    exact absurd (Option.some.inj hroot) (ne_zero_of_pointer hpointer)
  | label hb' hdirect hne hrest =>
    obtain rfl := Option.some.inj (hb.symm.trans hb')
    exact absurd hdirect (not_direct_of_pointer hpointer)
  | jump hb' _ hnext hrest =>
    obtain rfl := Option.some.inj (hb.symm.trans hb')
    exact ⟨_, _, hnext, rfl, hrest⟩

/-- Where a length stands, a label comes, or the name ends. -/
lemma Follows.of_direct (h : Follows packet p steps) (hb : packet.data[p]? = some b)
    (hdirect : b &&& kLabelMask = kLabelDirect) :
    (b.toNat = 0 ∧ steps = []) ∨
      (b.toNat ≠ 0 ∧ ∃ rest, steps = .label (packet.slice (p + 1) b.toNat) :: rest ∧
        Follows packet (p + 1 + b.toNat) rest) := by
  cases h with
  | root hroot =>
    obtain rfl := Option.some.inj (hb.symm.trans hroot)
    exact .inl ⟨rfl, rfl⟩
  | label hb' _ hne hrest =>
    obtain rfl := Option.some.inj (hb.symm.trans hb')
    exact .inr ⟨hne, _, rfl, hrest⟩
  | jump hb' hpointer _ _ =>
    obtain rfl := Option.some.inj (hb.symm.trans hb')
    exact absurd hdirect (not_direct_of_pointer hpointer)

/-- A name begins with nothing else. -/
lemma Follows.pointer_or_direct (h : Follows packet p steps) (hb : packet.data[p]? = some b) :
    b &&& kLabelMask = kLabelPointer ∨ b &&& kLabelMask = kLabelDirect := by
  cases h with
  | root hroot =>
    obtain rfl := Option.some.inj (hb.symm.trans hroot)
    exact .inr (by decide)
  | label hb' hdirect _ _ =>
    obtain rfl := Option.some.inj (hb.symm.trans hb')
    exact .inr hdirect
  | jump hb' hpointer _ _ =>
    obtain rfl := Option.some.inj (hb.symm.trans hb')
    exact .inl hpointer

lemma Follows.labels_ne_nil (h : Follows packet p steps) : ∀ l ∈ labels steps, l ≠ [] := by
  induction h with
  | root => simp [labels]
  | @label p b steps hb hdirect hne hrest ih =>
    have hlt := hrest.lt
    rw [labels, List.forall_mem_cons]
    refine ⟨fun hnil => hne ?_, ih⟩
    have hsize : (packet.slice (p + 1) b.toNat).length = b.toNat := length_slice (by omega)
    rw [← hsize, hnil, List.length_nil]
  | jump hb _ _ _ ih => rwa [labels]

end Steps

lemma taken_pos (steps : List Step) : 0 < taken steps := by
  cases steps with
  | nil => rw [taken]; omega
  | cons step rest => cases step <;> rw [taken] <;> omega

/-- The loop may still see the bytes up to the last jump. -/
def Fits (length seen : ℕ) (steps : List Step) : Prop :=
  visited steps = 0 ∨ seen + visited steps ≤ length

lemma fits_label {length seen : ℕ} {bytes : List Byte} {rest : List Step} :
    Fits length seen (.label bytes :: rest) ↔ Fits length (seen + (1 + bytes.length)) rest := by
  rw [Fits, Fits, visited]
  split_ifs <;> omega

lemma fits_jump {length seen : ℕ} {rest : List Step} :
    Fits length seen (.jump :: rest) ↔ seen + 2 ≤ length ∧ Fits length (seen + 2) rest := by
  rw [Fits, Fits, visited]
  omega

/-- Dots come between the labels, as none of them is empty. -/
lemma foldl_appendLabel {names : List (List Byte)} (h : ∀ l ∈ names, l ≠ []) :
    names.foldl appendLabel [] = dotted names := by
  have hmore : ∀ (names : List (List Byte)) (out : List Byte), out ≠ [] →
      names.foldl appendLabel out = dotted (out :: names) := by
    intro names
    induction names with
    | nil => simp [dotted, List.intercalate]
    | cons name names ih =>
      intro out hout
      rw [List.foldl_cons, appendLabel, if_pos hout, ih _ (by simp)]
      cases names <;> simp [dotted, List.intercalate]
  cases names with
  | nil => rfl
  | cons name names =>
    rw [List.foldl_cons, appendLabel, if_neg (by simp), List.nil_append]
    exact hmore names name (h name List.mem_cons_self)

/-! ### The loop -/

/-- What the loop has to give from a state on: a name when there is one that is not too long. -/
structure Found (packet : Packet) (pos p seen consumed : ℕ) (out : List Byte) (n : ℕ)
    (name : List Byte) : Prop where
  exists_steps : n ≠ 0 → ∃ steps, Follows packet p steps ∧ Fits packet.length seen steps
  result : ∀ steps, Follows packet p steps → Fits packet.length seen steps →
    n = (if consumed = 0 then p - pos + taken steps else consumed) ∧
      name = (labels steps).foldl appendLabel out

section Loop
variable {packet : Packet} {pos p seen consumed n : ℕ} {out name : List Byte} {b b' : Byte}

lemma Found.none (h : ∀ steps, Follows packet p steps → ¬ Fits packet.length seen steps) :
    Found packet pos p seen consumed out 0 out :=
  ⟨fun hn => absurd rfl hn, fun steps hsteps hfits => absurd hfits (h steps hsteps)⟩

lemma Found.root (hb : packet.data[p]? = some b) (hdirect : b &&& kLabelMask = kLabelDirect)
    (hzero : b.toNat = 0) (hpos : consumed = 0 → pos ≤ p) :
    Found packet pos p seen consumed out (if consumed = 0 then p + 1 - pos else consumed) out := by
  obtain rfl : b = 0 := BitVec.eq_of_toNat_eq hzero
  refine ⟨fun _ => ⟨[], .root hb, .inl rfl⟩, fun steps hsteps _ => ?_⟩
  rcases hsteps.of_direct hb hdirect with ⟨-, rfl⟩ | ⟨hne, -⟩
  · refine ⟨?_, rfl⟩
    rw [taken]
    split_ifs with hfirst
    · have := hpos hfirst
      omega
    · rfl
  · exact absurd hzero hne

lemma Found.label (hb : packet.data[p]? = some b) (hdirect : b &&& kLabelMask = kLabelDirect)
    (hne : b.toNat ≠ 0) (hlt : p + 1 + b.toNat < packet.length) (hpos : consumed = 0 → pos ≤ p)
    (h : Found packet pos (p + 1 + b.toNat) (seen + (1 + b.toNat)) consumed
      (appendLabel out (packet.slice (p + 1) b.toNat)) n name) :
    Found packet pos p seen consumed out n name := by
  have hslice : (packet.slice (p + 1) b.toNat).length = b.toNat := length_slice (by omega)
  constructor
  · intro hn
    obtain ⟨rest, hrest, hfits⟩ := h.exists_steps hn
    exact ⟨_, .label hb hdirect hne hrest, fits_label.mpr (by rwa [hslice])⟩
  · intro steps hsteps hfits
    rcases hsteps.of_direct hb hdirect with ⟨hzero, -⟩ | ⟨-, rest, rfl, hrest⟩
    · exact absurd hzero hne
    rw [fits_label, hslice] at hfits
    obtain ⟨hn, hname⟩ := h.result rest hrest hfits
    refine ⟨?_, hname⟩
    rw [hn, taken, hslice]
    split_ifs with hfirst
    · have := hpos hfirst
      omega
    · rfl

lemma Found.jump (hb : packet.data[p]? = some b) (hpointer : b &&& kLabelMask = kLabelPointer)
    (hb' : packet.data[p + 1]? = some b') (hseen : seen + 2 ≤ packet.length)
    (h : Found packet pos (bigEndian [b, b'] &&& kOffsetMask) (seen + 2)
      (if consumed = 0 then p - pos + 2 else consumed) out n name) :
    Found packet pos p seen consumed out n name := by
  have hne : (if consumed = 0 then p - pos + 2 else consumed) ≠ 0 := by split_ifs <;> omega
  constructor
  · intro hn
    obtain ⟨rest, hrest, hfits⟩ := h.exists_steps hn
    exact ⟨_, .jump hb hpointer hb' hrest, fits_jump.mpr ⟨hseen, hfits⟩⟩
  · intro steps hsteps hfits
    obtain ⟨b'', rest, hb'', rfl, hrest⟩ := hsteps.of_pointer hb hpointer
    obtain rfl := Option.some.inj (hb'.symm.trans hb'')
    obtain ⟨hn, hname⟩ := h.result rest hrest (fits_jump.mp hfits).2
    rw [hn, if_neg hne, taken]
    exact ⟨rfl, hname⟩

lemma exists_getElem? (hp : p < packet.length) : ∃ b, packet.data[p]? = some b :=
  ⟨_, List.getElem?_eq_getElem hp⟩

/-- The loop returns, and it finds the name if there is one that is not too long. The bytes seen
are never more than the packet has up to here and once more. -/
theorem readNameLoop_spec {fuel : ℕ} (out : List Byte) (hp : p < packet.length)
    (hseen : seen ≤ packet.length + p) (hfuel : 2 * packet.length < fuel + seen)
    (hpos : consumed = 0 → pos ≤ p) :
    ∃ n name, readNameLoop packet pos fuel p seen consumed (some out) = some (n, some name) ∧
      Found packet pos p seen consumed out n name := by
  have hlength := packet.length_lt
  rw [← Packet.length] at hlength
  induction fuel generalizing p seen consumed out with
  | zero => omega
  | succ fuel ih =>
    obtain ⟨b, hb⟩ := exists_getElem? hp
    rw [readNameLoop, hb]
    dsimp only
    by_cases hpointer : b &&& kLabelMask = kLabelPointer
    · rw [if_pos hpointer]
      by_cases htruncated : p + 2 > packet.length
      · rw [if_pos htruncated]
        refine ⟨0, out, rfl, .none fun steps hsteps _ => ?_⟩
        obtain ⟨b', rest, hb', -, -⟩ := hsteps.of_pointer hb hpointer
        have hlt := lt_of_getElem? hb'
        omega
      rw [if_neg htruncated, if_neg (by simp), Nat.mod_eq_of_lt (by omega)]
      by_cases hloop : seen + 2 > packet.length
      · rw [if_pos hloop]
        refine ⟨0, out, rfl, .none fun steps hsteps hfits => ?_⟩
        obtain ⟨b', rest, -, rfl, -⟩ := hsteps.of_pointer hb hpointer
        rw [fits_jump] at hfits
        omega
      rw [if_neg hloop]
      have hnext : p + 1 < packet.length := by omega
      obtain ⟨b', hb'⟩ := exists_getElem? hnext
      rw [hb']
      dsimp only
      by_cases hbeyond : bigEndian [b, b'] &&& kOffsetMask ≥ packet.length
      · rw [if_pos hbeyond]
        refine ⟨0, out, rfl, .none fun steps hsteps _ => ?_⟩
        obtain ⟨b'', rest, hb'', -, hrest⟩ := hsteps.of_pointer hb hpointer
        obtain rfl := Option.some.inj (hb'.symm.trans hb'')
        exact absurd hrest.lt (not_lt.mpr hbeyond)
      rw [if_neg hbeyond]
      have hoffset := not_le.mp hbeyond
      have hlast := not_lt.mp hloop
      have hconsumed : (if consumed = 0 then p - pos + 2 else consumed) ≠ 0 := by
        split_ifs <;> omega
      obtain ⟨n, name, hresult, hfound⟩ := @ih _ (seen + 2) _ out hoffset (by omega) (by omega)
        (fun h => absurd h hconsumed)
      exact ⟨n, name, hresult, hfound.jump hb hpointer hb' hlast⟩
    rw [if_neg hpointer]
    by_cases hdirect : b &&& kLabelMask = kLabelDirect
    · rw [if_pos hdirect]
      by_cases hzero : b.toNat = 0
      · rw [if_pos hzero]
        exact ⟨_, out, rfl, .root hb hdirect hzero hpos⟩
      rw [if_neg hzero]
      by_cases htruncated : p + 1 + b.toNat ≥ packet.length
      · rw [if_pos htruncated]
        refine ⟨0, out, rfl, .none fun steps hsteps _ => ?_⟩
        rcases hsteps.of_direct hb hdirect with ⟨h, -⟩ | ⟨-, rest, -, hrest⟩
        · exact absurd h hzero
        · exact absurd hrest.lt (not_lt.mpr htruncated)
      rw [if_neg htruncated, Nat.mod_eq_of_lt (by omega), Option.map_some]
      have hlt := not_le.mp htruncated
      obtain ⟨n, name, hresult, hfound⟩ := @ih (p + 1 + b.toNat) (seen + (1 + b.toNat)) consumed
        (appendLabel out (packet.slice (p + 1) b.toNat)) hlt (by omega) (by omega)
        (fun h => by have := hpos h; omega)
      exact ⟨n, name, hresult, hfound.label hb hdirect hzero hlt hpos⟩
    · rw [if_neg hdirect]
      refine ⟨0, out, rfl, .none fun steps hsteps _ => ?_⟩
      rcases hsteps.pointer_or_direct hb with h | h
      · exact absurd h hpointer
      · exact absurd h hdirect

/-- Without a name to store the loop ends at the first pointer, and takes as much. -/
theorem readNameLoop_null {fuel : ℕ} (hp : p < packet.length) (hseen : seen ≤ packet.length + p)
    (hfuel : packet.length < fuel + p) (hpos : pos ≤ p) :
    ∃ n, readNameLoop packet pos fuel p seen 0 none = some (n, none) ∧
      (n ≠ 0 → pos + n ≤ packet.length) ∧
      ∀ steps, Follows packet p steps → n = p - pos + taken steps := by
  have hlength := packet.length_lt
  rw [← Packet.length] at hlength
  induction fuel generalizing p seen with
  | zero => omega
  | succ fuel ih =>
    obtain ⟨b, hb⟩ := exists_getElem? hp
    rw [readNameLoop, hb]
    dsimp only
    by_cases hpointer : b &&& kLabelMask = kLabelPointer
    · rw [if_pos hpointer]
      by_cases htruncated : p + 2 > packet.length
      · rw [if_pos htruncated]
        refine ⟨0, rfl, fun h => absurd rfl h, fun steps hsteps => ?_⟩
        obtain ⟨b', rest, hb', -, -⟩ := hsteps.of_pointer hb hpointer
        have hlt := lt_of_getElem? hb'
        omega
      rw [if_neg htruncated, if_pos ⟨rfl, rfl⟩]
      refine ⟨_, rfl, fun _ => by omega, fun steps hsteps => ?_⟩
      obtain ⟨b', rest, -, rfl, -⟩ := hsteps.of_pointer hb hpointer
      rfl
    rw [if_neg hpointer]
    by_cases hdirect : b &&& kLabelMask = kLabelDirect
    · rw [if_pos hdirect]
      by_cases hzero : b.toNat = 0
      · rw [if_pos hzero, if_pos rfl]
        refine ⟨_, rfl, fun _ => by omega, fun steps hsteps => ?_⟩
        rcases hsteps.of_direct hb hdirect with ⟨-, rfl⟩ | ⟨hne, -⟩
        · rw [taken]
          omega
        · exact absurd hzero hne
      rw [if_neg hzero]
      by_cases htruncated : p + 1 + b.toNat ≥ packet.length
      · rw [if_pos htruncated]
        refine ⟨0, rfl, fun h => absurd rfl h, fun steps hsteps => ?_⟩
        rcases hsteps.of_direct hb hdirect with ⟨h, -⟩ | ⟨-, rest, -, hrest⟩
        · exact absurd h hzero
        · exact absurd hrest.lt (not_lt.mpr htruncated)
      rw [if_neg htruncated, Nat.mod_eq_of_lt (by omega), Option.map_none]
      obtain ⟨n, hresult, hle, hall⟩ := @ih (p + 1 + b.toNat) (seen + (1 + b.toNat))
        (not_le.mp htruncated) (by omega) (by omega) (by omega)
      refine ⟨n, hresult, hle, fun steps hsteps => ?_⟩
      rcases hsteps.of_direct hb hdirect with ⟨h, -⟩ | ⟨-, rest, rfl, hrest⟩
      · exact absurd h hzero
      · rw [hall rest hrest, taken, length_slice (by omega)]
        omega
    · rw [if_neg hdirect]
      refine ⟨0, rfl, fun h => absurd rfl h, fun steps hsteps => ?_⟩
      rcases hsteps.pointer_or_direct hb with h | h
      · exact absurd h hpointer
      · exact absurd h hdirect

end Loop

/-! ### `ReadName` -/

lemma fits_zero {length : ℕ} {steps : List Step} :
    Fits length 0 steps ↔ visited steps ≤ length := by
  rw [Fits]
  omega

/-- Outside of the packet nothing is read, and what was stored before stays. -/
lemma readName_beyond {packet : Packet} {pos : ℕ} (h : pos ≥ packet.length)
    (out : Option (List Byte)) : readName packet pos out = some (0, out) := if_pos h

/-- A name that is not too long is read as the labels with dots between them. -/
theorem readName_stored (packet : Packet) (pos : ℕ) (out : List Byte) :
    ∃ n name, readName packet pos (some out) = some (n, some name) ∧
      (0 < n ↔ ∃ steps, Follows packet pos steps ∧ visited steps ≤ packet.length) ∧
      ∀ steps, Follows packet pos steps → visited steps ≤ packet.length →
        name = dotted (labels steps) ∧ n = taken steps := by
  by_cases hpos : pos ≥ packet.length
  · refine ⟨0, out, readName_beyond hpos _, ?_, fun steps hsteps => absurd hsteps.lt (by omega)⟩
    constructor
    · intro h
      omega
    · rintro ⟨steps, hsteps, -⟩
      exact absurd hsteps.lt (by omega)
  · obtain ⟨n, name, hresult, hfound⟩ := @readNameLoop_spec packet pos pos 0 0
      (2 * packet.length + 1) [] (not_le.mp hpos) (by omega) (by omega) fun _ => le_rfl
    have hall : ∀ steps, Follows packet pos steps → visited steps ≤ packet.length →
        name = dotted (labels steps) ∧ n = taken steps := by
      intro steps hsteps hvisited
      obtain ⟨hn, hname⟩ := hfound.result steps hsteps (fits_zero.mpr hvisited)
      rw [if_pos rfl, Nat.sub_self, Nat.zero_add] at hn
      exact ⟨hname.trans (foldl_appendLabel hsteps.labels_ne_nil), hn⟩
    refine ⟨n, name, by rw [readName, if_neg hpos]; exact hresult, ?_, hall⟩
    constructor
    · intro hn
      obtain ⟨steps, hsteps, hfits⟩ := hfound.exists_steps (by omega)
      exact ⟨steps, hsteps, fits_zero.mp hfits⟩
    · rintro ⟨steps, hsteps, hvisited⟩
      rw [(hall steps hsteps hvisited).2]
      exact taken_pos steps

/-- A name that is not stored is read up to its first pointer. -/
theorem readName_null (packet : Packet) (pos : ℕ) :
    ∃ n, readName packet pos none = some (n, none) ∧ (n ≠ 0 → pos + n ≤ packet.length) ∧
      ∀ steps, Follows packet pos steps → n = taken steps := by
  by_cases hpos : pos ≥ packet.length
  · exact ⟨0, readName_beyond hpos _, fun h => absurd rfl h,
      fun steps hsteps => absurd hsteps.lt (by omega)⟩
  · obtain ⟨n, hresult, hle, hall⟩ := @readNameLoop_null packet pos pos 0
      (2 * packet.length + 1) (not_le.mp hpos) (by omega) (by omega) le_rfl
    refine ⟨n, by rw [readName, if_neg hpos]; exact hresult, hle, fun steps hsteps => ?_⟩
    rw [hall steps hsteps, Nat.sub_self, Nat.zero_add]

end Chromium.Dns
