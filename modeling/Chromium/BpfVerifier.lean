import Chromium.Bpf

/-!
# The evaluator of the sandbox verifier

`sandbox/linux/seccomp-bpf/verifier.cc`: `EvaluateBPF` runs a filter program on one record of
system call data. Programs are not trusted here. Each access to the program and to the record, and
each operation that C++ leaves undefined, is a fault of the model when its bounds are not met.
-/
namespace Chromium.Bpf.Verifier

/-! ### Operation codes -/

def bpfAdd : BitVec 16 := 0x00
def bpfSub : BitVec 16 := 0x10
def bpfMul : BitVec 16 := 0x20
def bpfDiv : BitVec 16 := 0x30
def bpfOr : BitVec 16 := 0x40
def bpfLsh : BitVec 16 := 0x60
def bpfRsh : BitVec 16 := 0x70
def bpfNeg : BitVec 16 := 0x80
def bpfMod : BitVec 16 := 0x90
def bpfXor : BitVec 16 := 0xa0

def bpfSize (code : BitVec 16) : BitVec 16 := code &&& 0x18
def bpfMode (code : BitVec 16) : BitVec 16 := code &&& 0xe0
def bpfSrc (code : BitVec 16) : BitVec 16 := code &&& 0x08

def seccompRetTrap : BitVec 32 := 0x00030000
def seccompRetErrno : BitVec 32 := 0x00050000
def seccompRetAllow : BitVec 32 := 0x7fff0000
def seccompRetAction : BitVec 32 := 0xffff0000

/-- `SECCOMP_MAX_PROGRAM_SIZE` -/
def maxProgramSize : ℕ := 2 ^ 30

/-! ### The data record -/

/-- `struct arch_seccomp_data` -/
structure ArchSeccompData where
  nr : BitVec 32
  arch : BitVec 32
  instructionPointer : BitVec 64
  args : Vector (BitVec 64) 6

/-- The bytes of a number in memory, the lowest first. -/
def toBytes {w : ℕ} (n : ℕ) (x : BitVec w) : List (BitVec 8) :=
  (List.range n).map fun i => (x >>> (8 * i)).setWidth 8

def ArchSeccompData.bytes (data : ArchSeccompData) : List (BitVec 8) :=
  toBytes 4 data.nr ++ toBytes 4 data.arch ++ toBytes 8 data.instructionPointer ++
    data.args.toList.flatMap (toBytes 8)

/-- `sizeof(struct arch_seccomp_data)` -/
def sizeofData : ℕ := 64

/-! ### Checked operations -/

inductive Fault
  | programIndex
  | dataIndex
  | undefinedArithmetic
  deriving DecidableEq, Repr

/-- `program[ip]` -/
def fetch (program : List SockFilter) (ip : BitVec 32) : Except Fault SockFilter :=
  match program[ip.toNat]? with
  | some insn => .ok insn
  | none => .error .programIndex

/-- The copy of four bytes of the record. -/
def readWord (data : ArchSeccompData) (k : BitVec 32) : Except Fault (BitVec 32) :=
  match data.bytes[k.toNat]?, data.bytes[k.toNat + 1]?, data.bytes[k.toNat + 2]?,
      data.bytes[k.toNat + 3]? with
  | some a, some b, some c, some d => .ok (d ++ c ++ b ++ a)
  | _, _, _, _ => .error .dataIndex

/-- Division and modulo are undefined for zero. -/
def checkDivisor (k value : BitVec 32) : Except Fault (BitVec 32) :=
  if k = 0 then .error .undefinedArithmetic else .ok value

/-- Shifts are undefined from the width of the operand on. -/
def checkShift (k value : BitVec 32) : Except Fault (BitVec 32) :=
  if 32 ≤ k.toNat then .error .undefinedArithmetic else .ok value

/-! ### The instructions -/

structure State where
  ip : BitVec 32
  accumulator : BitVec 32
  accIsValid : Bool

/-- What an instruction does: the state it leaves, with the error it sets. -/
abbrev Effect := Except Fault (State × Option String)

def ld (data : ArchSeccompData) (insn : SockFilter) (state : State) : Effect :=
  if bpfSize insn.code ≠ bpfW ∨ bpfMode insn.code ≠ bpfAbs then
    .ok (state, some "Invalid BPF_LD instruction")
  else if insn.k.toNat < sizeofData ∧ insn.k &&& 3 = 0 then do
    let word ← readWord data insn.k
    .ok ({ state with accumulator := word, accIsValid := true }, none)
  else .ok (state, some "Invalid operand in BPF_LD instruction")

/-- The conditions of the conditional jumps. -/
def condition (op : BitVec 16) (accumulator k : BitVec 32) : Option Bool :=
  if op = bpfJeq then some (accumulator = k)
  else if op = bpfJgt then some (accumulator > k)
  else if op = bpfJge then some (accumulator ≥ k)
  else if op = bpfJset then some (accumulator &&& k ≠ 0)
  else none

/-- Targets are computed in 32 bits and compared with the size of the program. -/
def jmp (size : ℕ) (insn : SockFilter) (state : State) : State × Option String :=
  if bpfOp insn.code = bpfJa then
    if size ≤ (state.ip + insn.k + 1).toNat ∨ state.ip + insn.k + 1 ≤ state.ip then
      (state, some "Invalid BPF_JMP instruction")
    else ({ state with ip := state.ip + insn.k }, none)
  else if bpfSrc insn.code ≠ bpfK ∨ ¬ state.accIsValid ∨
      size ≤ (state.ip + insn.jt.setWidth 32 + 1).toNat ∨
      size ≤ (state.ip + insn.jf.setWidth 32 + 1).toNat then
    (state, some "Invalid BPF_JMP instruction")
  else
    match condition (bpfOp insn.code) state.accumulator insn.k with
    | some true => ({ state with ip := state.ip + insn.jt.setWidth 32 }, none)
    | some false => ({ state with ip := state.ip + insn.jf.setWidth 32 }, none)
    | none => (state, some "Invalid BPF_JMP instruction")

def ret (insn : SockFilter) : BitVec 32 × Option String :=
  if bpfSrc insn.code ≠ bpfK then (0, some "Invalid BPF_RET instruction") else (insn.k, none)

/-- The operators with the operand of the instruction, or the error they set. -/
def aluK (op : BitVec 16) (accumulator k : BitVec 32) : Except Fault (BitVec 32 ⊕ String) :=
  if op = bpfAdd then .ok (.inl (accumulator + k))
  else if op = bpfSub then .ok (.inl (accumulator - k))
  else if op = bpfMul then .ok (.inl (accumulator * k))
  else if op = bpfDiv then
    if k = 0 then .ok (.inr "Illegal division by zero")
    else (checkDivisor k (accumulator / k)).map .inl
  else if op = bpfMod then
    if k = 0 then .ok (.inr "Illegal division by zero")
    else (checkDivisor k (accumulator % k)).map .inl
  else if op = bpfOr then .ok (.inl (accumulator ||| k))
  else if op = bpfXor then .ok (.inl (accumulator ^^^ k))
  else if op = bpfAnd then .ok (.inl (accumulator &&& k))
  else if op = bpfLsh then
    if 32 < k.toNat then .ok (.inr "Illegal shift operation")
    else (checkShift k (accumulator <<< k)).map .inl
  else if op = bpfRsh then
    if 32 < k.toNat then .ok (.inr "Illegal shift operation")
    else (checkShift k (accumulator >>> k)).map .inl
  else .ok (.inr "Invalid operator in arithmetic operation")

def alu (insn : SockFilter) (state : State) : Effect :=
  if bpfOp insn.code = bpfNeg then .ok ({ state with accumulator := -state.accumulator }, none)
  else if bpfSrc insn.code ≠ bpfK then
    .ok (state, some "Unexpected source operand in arithmetic operation")
  else do
    match ← aluK (bpfOp insn.code) state.accumulator insn.k with
    | .inl accumulator => .ok ({ state with accumulator := accumulator }, none)
    | .inr err => .ok (state, some err)

/-! ### The loop -/

/-- One round of the loop goes on with a state, or ends with a value and an error. -/
inductive Round
  | next (state : State)
  | done (value : BitVec 32) (err : Option String)

/-- The end of a round: the loop is left when an error is set. -/
def continueWith : State × Option String → Round
  | (state, none) => .next { state with ip := state.ip + 1 }
  | (_, some err) => .done 0 (some err)

def evaluateRet (insn : SockFilter) : Round :=
  let (r, err) := ret insn
  let action := r &&& seccompRetAction
  if action = seccompRetTrap ∨ action = seccompRetErrno ∨ action = seccompRetAllow then .done r err
  else .done 0 (some "Unexpected return code found in BPF program")

def round (program : List SockFilter) (data : ArchSeccompData) (state : State) :
    Except Fault Round :=
  if program.length ≤ state.ip.toNat then
    .ok (.done 0 (some "Invalid instruction pointer in BPF program"))
  else do
    let insn ← fetch program state.ip
    if bpfClass insn.code = bpfLd then
      let effect ← ld data insn state
      .ok (continueWith effect)
    else if bpfClass insn.code = bpfJmp then .ok (continueWith (jmp program.length insn state))
    else if bpfClass insn.code = bpfRet then .ok (evaluateRet insn)
    else if bpfClass insn.code = bpfAlu then
      let effect ← alu insn state
      .ok (continueWith effect)
    else .ok (.done 0 (some "Unexpected instruction in BPF program"))

/-- A run that is over has a value with an error, or a fault. -/
inductive Run
  | finished (value : BitVec 32) (err : Option String)
  | faulted (fault : Fault)
  | running
  deriving DecidableEq

def loop (program : List SockFilter) (data : ArchSeccompData) : ℕ → State → Run
  | 0, _ => .running
  | fuel + 1, state =>
    match round program data state with
    | .error fault => .faulted fault
    | .ok (.done value err) => .finished value err
    | .ok (.next state') => loop program data fuel state'

def State.initial : State := ⟨0, 0, false⟩

/-- `EvaluateBPF`, with as many rounds as there is fuel for. -/
def evaluateBPF (fuel : ℕ) (program : List SockFilter) (data : ArchSeccompData) : Run :=
  if program.length < 1 ∨ maxProgramSize ≤ program.length then
    .finished 0 (some "Invalid program length")
  else loop program data fuel .initial

/-! ### What a round does -/

variable {program : List SockFilter} {data : ArchSeccompData} {insn : SockFilter}
  {state state' : State}

lemma length_toBytes {w : ℕ} (n : ℕ) (x : BitVec w) : (toBytes n x).length = n := by
  simp [toBytes]

/-- The record has 64 bytes. -/
lemma ArchSeccompData.length_bytes (data : ArchSeccompData) : data.bytes.length = sizeofData := by
  simp only [bytes, List.length_append, length_toBytes, List.length_flatMap]
  rw [List.map_const', List.sum_replicate, Vector.length_toList]
  rfl

/-- A word at a multiple of four below the size lies in the record. -/
lemma readWord_ok {k : BitVec 32} (hk : k.toNat < sizeofData) (halign : k &&& 3 = 0) :
    ∃ word, readWord data k = .ok word := by
  have hmod : k.toNat % 4 = 0 := by
    have hand := congrArg BitVec.toNat halign
    rw [BitVec.toNat_and, show (3 : BitVec 32).toNat = 2 ^ 2 - 1 by decide,
      Nat.and_two_pow_sub_one_eq_mod] at hand
    exact hand
  have hlength := data.length_bytes
  rw [sizeofData] at hk hlength
  rw [readWord, List.getElem?_eq_getElem (by omega), List.getElem?_eq_getElem (by omega),
    List.getElem?_eq_getElem (by omega), List.getElem?_eq_getElem (by omega)]
  exact ⟨_, rfl⟩

lemma ld_ok (data : ArchSeccompData) (insn : SockFilter) (state : State) :
    ∃ effect, ld data insn state = .ok effect ∧ effect.1.ip = state.ip := by
  rw [ld]
  split_ifs with hcode hk
  · exact ⟨_, rfl, rfl⟩
  · have hread : ∃ word, readWord data insn.k = .ok word := readWord_ok hk.1 hk.2
    obtain ⟨word, hword⟩ := hread
    rw [hword]
    exact ⟨_, rfl, rfl⟩
  · exact ⟨_, rfl, rfl⟩

/-- A shift by the width of the operand, which the check lets through. -/
def ShiftsBy32 (insn : SockFilter) : Prop :=
  bpfClass insn.code = bpfAlu ∧ bpfSrc insn.code = bpfK ∧
    (bpfOp insn.code = bpfLsh ∨ bpfOp insn.code = bpfRsh) ∧ insn.k = 32

lemma checkDivisor_ok {k value : BitVec 32} (h : k ≠ 0) : checkDivisor k value = .ok value :=
  if_neg h

/-- Below the bound of the check only the bound itself is undefined. -/
lemma checkShift_error_iff {k value : BitVec 32} (h : ¬ 32 < k.toNat) {fault : Fault} :
    checkShift k value = .error fault ↔ fault = .undefinedArithmetic ∧ k = 32 := by
  have hk : 32 ≤ k.toNat ↔ k = 32 := by
    rw [← BitVec.toNat_inj, show (32 : BitVec 32).toNat = 32 by decide]
    omega
  rw [checkShift, ← hk]
  split_ifs with hlarge
  · simp [hlarge, eq_comm]
  · simp [hlarge]

lemma map_error_iff {α β : Type} {x : Except Fault α} {f : α → β} {fault : Fault} :
    x.map f = .error fault ↔ x = .error fault := by
  cases x <;> simp [Except.map]

lemma aluK_error_iff {op : BitVec 16} {accumulator k : BitVec 32} {fault : Fault} :
    aluK op accumulator k = .error fault ↔
      fault = .undefinedArithmetic ∧ (op = bpfLsh ∨ op = bpfRsh) ∧ k = 32 := by
  have hdefined : ∀ {α : Type} {x : α}, ¬ ((op = bpfLsh ∨ op = bpfRsh) ∧ k = 32) →
      ((.ok x : Except Fault α) = .error fault ↔
        fault = .undefinedArithmetic ∧ (op = bpfLsh ∨ op = bpfRsh) ∧ k = 32) := by
    intro α x hshift
    constructor
    · intro heq
      cases heq
    · rintro ⟨-, heq⟩
      exact absurd heq hshift
  have hok : ∀ {α : Type} {x : α}, ¬ (op = bpfLsh ∨ op = bpfRsh) →
      ((.ok x : Except Fault α) = .error fault ↔
        fault = .undefinedArithmetic ∧ (op = bpfLsh ∨ op = bpfRsh) ∧ k = 32) :=
    fun hop => hdefined (fun hshift => hop hshift.1)
  have hlimit : 32 < k.toNat → k ≠ 32 := by
    rintro hk rfl
    exact absurd hk (by decide)
  rw [aluK]
  by_cases hadd : op = bpfAdd
  · rw [if_pos hadd]
    exact hok (by rw [hadd]; decide)
  rw [if_neg hadd]
  by_cases hsub : op = bpfSub
  · rw [if_pos hsub]
    exact hok (by rw [hsub]; decide)
  rw [if_neg hsub]
  by_cases hmul : op = bpfMul
  · rw [if_pos hmul]
    exact hok (by rw [hmul]; decide)
  rw [if_neg hmul]
  by_cases hdiv : op = bpfDiv
  · rw [if_pos hdiv]
    by_cases hk : k = 0
    · rw [if_pos hk]
      exact hok (by rw [hdiv]; decide)
    · rw [if_neg hk, map_error_iff, checkDivisor_ok hk]
      exact hok (by rw [hdiv]; decide)
  rw [if_neg hdiv]
  by_cases hmod : op = bpfMod
  · rw [if_pos hmod]
    by_cases hk : k = 0
    · rw [if_pos hk]
      exact hok (by rw [hmod]; decide)
    · rw [if_neg hk, map_error_iff, checkDivisor_ok hk]
      exact hok (by rw [hmod]; decide)
  rw [if_neg hmod]
  by_cases hor : op = bpfOr
  · rw [if_pos hor]
    exact hok (by rw [hor]; decide)
  rw [if_neg hor]
  by_cases hxor : op = bpfXor
  · rw [if_pos hxor]
    exact hok (by rw [hxor]; decide)
  rw [if_neg hxor]
  by_cases hand : op = bpfAnd
  · rw [if_pos hand]
    exact hok (by rw [hand]; decide)
  rw [if_neg hand]
  by_cases hlsh : op = bpfLsh
  · rw [if_pos hlsh]
    by_cases hk : 32 < k.toNat
    · rw [if_pos hk]
      exact hdefined (fun hshift => hlimit hk hshift.2)
    · rw [if_neg hk, map_error_iff, checkShift_error_iff hk]
      simp [hlsh]
  rw [if_neg hlsh]
  by_cases hrsh : op = bpfRsh
  · rw [if_pos hrsh]
    by_cases hk : 32 < k.toNat
    · rw [if_pos hk]
      exact hdefined (fun hshift => hlimit hk hshift.2)
    · rw [if_neg hk, map_error_iff, checkShift_error_iff hk]
      simp [hrsh]
  rw [if_neg hrsh]
  exact hok (not_or.mpr ⟨hlsh, hrsh⟩)

lemma alu_error_iff {fault : Fault} (hclass : bpfClass insn.code = bpfAlu) :
    alu insn state = .error fault ↔ fault = .undefinedArithmetic ∧ ShiftsBy32 insn := by
  have hneg : bpfNeg ≠ bpfLsh ∧ bpfNeg ≠ bpfRsh := by decide
  rw [alu, ShiftsBy32]
  split_ifs with hop hsrc
  · simp [hop, hneg]
  · simp [hsrc]
  · rw [not_not] at hsrc
    have haluK : aluK (bpfOp insn.code) state.accumulator insn.k = .error fault ↔
        fault = .undefinedArithmetic ∧ (bpfOp insn.code = bpfLsh ∨ bpfOp insn.code = bpfRsh) ∧
          insn.k = 32 := aluK_error_iff
    cases hresult : aluK (bpfOp insn.code) state.accumulator insn.k with
    | error fault' =>
      rw [hresult] at haluK
      simpa [bind, Except.bind, hclass, hsrc] using haluK
    | ok result =>
      rw [hresult] at haluK
      cases result <;> simpa [bind, Except.bind, hclass, hsrc] using haluK

lemma alu_ip {effect : State × Option String} (h : alu insn state = .ok effect) :
    effect.1.ip = state.ip := by
  rw [alu] at h
  split_ifs at h with hop hsrc
  · obtain rfl := Except.ok.inj h
    rfl
  · obtain rfl := Except.ok.inj h
    rfl
  · cases hresult : aluK (bpfOp insn.code) state.accumulator insn.k with
    | error fault => simp [hresult, bind, Except.bind] at h
    | ok result =>
      cases result with
      | inl accumulator =>
        simp only [hresult, bind, Except.bind] at h
        obtain rfl := Except.ok.inj h
        rfl
      | inr err =>
        simp only [hresult, bind, Except.bind] at h
        obtain rfl := Except.ok.inj h
        rfl

/-- A jump that sets no error goes forward, and not beyond the program. -/
lemma jmp_forward (hip : state.ip.toNat < program.length) (hsize : program.length < maxProgramSize)
    (h : jmp program.length insn state = (state', none)) :
    state.ip.toNat < (state'.ip + 1).toNat := by
  have hbranch : ∀ offset : BitVec 8,
      state.ip.toNat < (state.ip + offset.setWidth 32 + 1).toNat := by
    intro offset
    have hoffset : (offset.setWidth 32).toNat = offset.toNat :=
      BitVec.toNat_setWidth_of_le (by decide)
    have hlt := offset.isLt
    rw [maxProgramSize] at hsize
    rw [BitVec.toNat_add, BitVec.toNat_add, hoffset, show (1 : BitVec 32).toNat = 1 by decide]
    omega
  rw [jmp] at h
  split_ifs at h with hja htarget hoperand
  · simp at h
  · obtain ⟨rfl, -⟩ := Prod.mk.inj h
    rw [not_or, not_le, BitVec.not_le] at htarget
    exact htarget.2
  · simp at h
  · split at h
    · obtain ⟨rfl, -⟩ := Prod.mk.inj h
      exact hbranch insn.jt
    · obtain ⟨rfl, -⟩ := Prod.mk.inj h
      exact hbranch insn.jf
    · simp at h

/-- The faults of a round: only the undefined shift. -/
lemma round_error_iff {fault : Fault} : round program data state = .error fault ↔
    fault = .undefinedArithmetic ∧ ∃ insn, program[state.ip.toNat]? = some insn ∧
      ShiftsBy32 insn := by
  rw [round]
  by_cases hip : program.length ≤ state.ip.toNat
  · rw [if_pos hip, List.getElem?_eq_none hip]
    simp
  rw [if_neg hip, fetch]
  rw [not_le] at hip
  rw [List.getElem?_eq_getElem hip]
  simp only [bind, Except.bind, Option.some.injEq, exists_eq_left']
  set insn := program[state.ip.toNat]
  have hclass : bpfClass insn.code ≠ bpfAlu → ∀ x : Round,
      ((.ok x : Except Fault Round) = .error fault ↔
        fault = .undefinedArithmetic ∧ ShiftsBy32 insn) := by
    intro hne x
    constructor
    · intro heq
      cases heq
    · rintro ⟨-, hshift⟩
      exact absurd hshift.1 hne
  by_cases hld : bpfClass insn.code = bpfLd
  · obtain ⟨effect, heffect, -⟩ := ld_ok data insn state
    rw [if_pos hld, heffect]
    exact hclass (by rw [hld]; decide) _
  rw [if_neg hld]
  by_cases hjmp : bpfClass insn.code = bpfJmp
  · rw [if_pos hjmp]
    exact hclass (by rw [hjmp]; decide) _
  rw [if_neg hjmp]
  by_cases hret : bpfClass insn.code = bpfRet
  · rw [if_pos hret]
    exact hclass (by rw [hret]; decide) _
  rw [if_neg hret]
  by_cases halu : bpfClass insn.code = bpfAlu
  · rw [if_pos halu, ← @alu_error_iff insn state _ halu]
    cases alu insn state with
    | error fault' => simp
    | ok effect => simp
  rw [if_neg halu]
  exact hclass halu _

/-- A round that goes on goes forward. -/
lemma round_forward (hsize : program.length < maxProgramSize)
    (h : round program data state = .ok (.next state')) :
    state.ip.toNat < program.length ∧ state.ip.toNat < state'.ip.toNat := by
  have hnext : ∀ {effect : State × Option String}, continueWith effect = .next state' →
      effect.2 = none ∧ state'.ip = effect.1.ip + 1 := by
    rintro ⟨s, err⟩ heq
    cases err with
    | none =>
      obtain rfl := Round.next.inj heq
      exact ⟨rfl, rfl⟩
    | some err => cases heq
  rw [round] at h
  by_cases hip : program.length ≤ state.ip.toNat
  · rw [if_pos hip] at h
    cases h
  rw [if_neg hip, fetch, List.getElem?_eq_getElem (not_le.mp hip)] at h
  rw [not_le] at hip
  simp only [bind, Except.bind] at h
  refine ⟨hip, ?_⟩
  have hplus : state.ip.toNat < (state.ip + 1).toNat := by
    rw [maxProgramSize] at hsize
    rw [BitVec.toNat_add, show (1 : BitVec 32).toNat = 1 by decide]
    omega
  split_ifs at h with hld hjmp hret halu
  · obtain ⟨effect, heffect, hsame⟩ := ld_ok data program[state.ip.toNat] state
    rw [heffect] at h
    obtain ⟨-, hstep⟩ := hnext (Except.ok.inj h)
    rw [hstep, hsame]
    exact hplus
  · cases heffect : jmp program.length program[state.ip.toNat] state with
    | mk s err =>
      rw [heffect] at h
      obtain ⟨rfl, hstep⟩ := hnext (Except.ok.inj h)
      rw [hstep]
      exact jmp_forward hip hsize heffect
  · rw [evaluateRet] at h
    dsimp only at h
    split_ifs at h <;> cases h
  · cases heffect : alu program[state.ip.toNat] state with
    | error fault => simp [heffect] at h
    | ok effect =>
      rw [heffect] at h
      obtain ⟨-, hstep⟩ := hnext (Except.ok.inj h)
      rw [hstep, alu_ip heffect]
      exact hplus
  · cases h

/-! ### Whole runs -/

/-- The states that the loop comes to at the head of a round. -/
inductive Reached (program : List SockFilter) (data : ArchSeccompData) : State → Prop
  | initial (hpos : 1 ≤ program.length) (hsize : program.length < maxProgramSize) :
      Reached program data .initial
  | next {state state' : State} (h : Reached program data state)
      (hround : round program data state = .ok (.next state')) : Reached program data state'

/-- As jumps only go forward, no run has more rounds than instructions and one. -/
lemma loop_ne_running (hsize : program.length < maxProgramSize) (fuel : ℕ)
    (hfuel : program.length - state.ip.toNat < fuel) : loop program data fuel state ≠ .running := by
  induction fuel generalizing state with
  | zero => omega
  | succ fuel ih =>
    rw [loop]
    cases hround : round program data state with
    | error fault => simp
    | ok result =>
      cases result with
      | done value err => simp
      | next state' =>
        obtain ⟨hip, hforward⟩ := round_forward hsize hround
        exact ih (by omega)

/-- A run that faults comes to a round that faults. -/
lemma Reached.of_loop_faulted {fault : Fault} (fuel : ℕ) (h : Reached program data state)
    (hloop : loop program data fuel state = .faulted fault) :
    ∃ s, Reached program data s ∧ round program data s = .error fault := by
  induction fuel generalizing state with
  | zero => cases hloop
  | succ fuel ih =>
    rw [loop] at hloop
    cases hround : round program data state with
    | error fault' =>
      rw [hround] at hloop
      obtain rfl := Run.faulted.inj hloop
      exact ⟨state, h, hround⟩
    | ok result =>
      rw [hround] at hloop
      cases result with
      | done value err => cases hloop
      | next state' => exact ih (h.next hround) hloop

/-- A state that is reached is reached by the loop, which goes on from there. -/
lemma Reached.exists_fuel (h : Reached program data state) :
    ∃ n, ∀ fuel, evaluateBPF (n + fuel) program data = loop program data fuel state := by
  induction h with
  | initial hpos hsize =>
    refine ⟨0, fun fuel => ?_⟩
    rw [evaluateBPF, if_neg (by omega), Nat.zero_add]
  | @next s s' hs hround ih =>
    obtain ⟨n, hn⟩ := ih
    refine ⟨n + 1, fun fuel => ?_⟩
    rw [Nat.add_assoc, Nat.add_comm 1 fuel, hn, loop, hround]

/-- The evaluation ends, reads the program and the record within their bounds, and does no
undefined arithmetic. -/
structure Safe (program : List SockFilter) (data : ArchSeccompData) : Prop where
  terminates : ∀ fuel, program.length < fuel → evaluateBPF fuel program data ≠ .running
  in_program : ∀ fuel, evaluateBPF fuel program data ≠ .faulted .programIndex
  in_data : ∀ fuel, evaluateBPF fuel program data ≠ .faulted .dataIndex
  defined : ∀ fuel, evaluateBPF fuel program data ≠ .faulted .undefinedArithmetic

lemma evaluateBPF_ne_running (fuel : ℕ) (hfuel : program.length < fuel) :
    evaluateBPF fuel program data ≠ .running := by
  rw [evaluateBPF]
  split_ifs with hlength
  · simp
  · rw [not_or, not_le] at hlength
    refine loop_ne_running hlength.2 fuel ?_
    omega

/-- Each fault of an evaluation is a shift by the width of the operand. -/
lemma evaluateBPF_faulted {fault : Fault} (fuel : ℕ)
    (h : evaluateBPF fuel program data = .faulted fault) : fault = .undefinedArithmetic ∧
      ∃ s insn, Reached program data s ∧ program[s.ip.toNat]? = some insn ∧ ShiftsBy32 insn := by
  rw [evaluateBPF] at h
  split_ifs at h with hlength
  rw [not_or, not_le, not_lt] at hlength
  obtain ⟨s, hs, hround⟩ := (Reached.initial hlength.1 hlength.2).of_loop_faulted fuel h
  obtain ⟨hfault, insn, hinsn, hshift⟩ := round_error_iff.mp hround
  exact ⟨hfault, s, insn, hs, hinsn, hshift⟩

/-- An evaluation is safe unless it comes to a shift by exactly 32. -/
theorem evaluateBPF_safe_iff (program : List SockFilter) (data : ArchSeccompData) :
    Safe program data ↔ ∀ s insn, Reached program data s →
      program[s.ip.toNat]? = some insn → ¬ ShiftsBy32 insn := by
  constructor
  · intro hsafe s insn hs hinsn hshift
    obtain ⟨n, hn⟩ := hs.exists_fuel
    have hround : round program data s = .error .undefinedArithmetic :=
      round_error_iff.mpr ⟨rfl, insn, hinsn, hshift⟩
    refine hsafe.defined (n + 1) ?_
    rw [hn, loop, hround]
  · intro hshift
    have hnone : ∀ fuel fault, evaluateBPF fuel program data ≠ .faulted fault := by
      intro fuel fault hfault
      obtain ⟨-, s, insn, hs, hinsn, hshift'⟩ := evaluateBPF_faulted fuel hfault
      exact hshift s insn hs hinsn hshift'
    exact ⟨fun fuel => evaluateBPF_ne_running fuel, fun fuel => hnone fuel _,
      fun fuel => hnone fuel _, fun fuel => hnone fuel _⟩

/-- A left shift by 32, and a return. -/
def shiftProgram : List SockFilter :=
  [⟨bpfAlu ||| bpfLsh, 0, 0, 32⟩, ⟨bpfRet, 0, 0, seccompRetAllow⟩]

/-- The check of the operand lets the undefined shift through. -/
theorem shiftProgram_not_safe :
    ¬ Safe shiftProgram ⟨0, 0, 0, Vector.replicate 6 0⟩ := by
  intro hsafe
  exact hsafe.defined 1 (by decide +kernel)

end Chromium.Bpf.Verifier
