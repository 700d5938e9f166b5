import Mathlib.Data.List.Basic
import Mathlib.Tactic

/-!
# Classic BPF programs

The filter machine of `<linux/filter.h>`: an instruction is an operation code
with two 8-bit branch offsets and a 32-bit operand, all jumps go forward, and a
program ends at a return instruction. What an operation does to the machine is a
parameter, so that results about control flow hold for any set of operations.

A program is related to the decision diagram it unfolds to. Running the program
then is evaluating the diagram.
-/
namespace Chromium.Bpf

def bpfLd : BitVec 16 := 0x00
def bpfAlu : BitVec 16 := 0x04
def bpfJmp : BitVec 16 := 0x05
def bpfRet : BitVec 16 := 0x06

def bpfW : BitVec 16 := 0x00
def bpfAbs : BitVec 16 := 0x20
def bpfK : BitVec 16 := 0x00
def bpfAnd : BitVec 16 := 0x50

def bpfJa : BitVec 16 := 0x00
def bpfJeq : BitVec 16 := 0x10
def bpfJgt : BitVec 16 := 0x20
def bpfJge : BitVec 16 := 0x30
def bpfJset : BitVec 16 := 0x40

/-- `BPF_CLASS`. -/
def bpfClass (code : BitVec 16) : BitVec 16 := code &&& 0x07

/-- `BPF_OP`. -/
def bpfOp (code : BitVec 16) : BitVec 16 := code &&& 0xf0

/-- How an instruction continues. -/
inductive Kind
  | ret
  | goto
  | branch
  | op
  deriving DecidableEq, Repr

/-- An instruction returns, jumps always, jumps on a condition, or is followed
by the next instruction. -/
def kind (code : BitVec 16) : Kind :=
  if bpfClass code = bpfJmp then
    if bpfOp code = bpfJa then .goto else .branch
  else if bpfClass code = bpfRet then .ret else .op

/-- `struct sock_filter`. -/
structure SockFilter where
  code : BitVec 16
  jt : BitVec 8
  jf : BitVec 8
  k : BitVec 32
  deriving DecidableEq, Repr

/-- The meaning of the single operations. An operation can stop the program with
a result of its own, such as an error. -/
structure Machine (σ ρ : Type*) where
  exec : BitVec 16 → BitVec 32 → σ → Except ρ σ
  test : BitVec 16 → BitVec 32 → σ → Bool
  ret : BitVec 16 → BitVec 32 → σ → ρ

variable {σ ρ : Type*}

/-- Runs a program from the instruction at `pc`. There is no result if the
program runs past its end. -/
def runFrom (m : Machine σ ρ) (program : List SockFilter) : ℕ → ℕ → σ → Option ρ
  | 0, _, _ => none
  | fuel + 1, pc, s =>
    match program[pc]? with
    | none => none
    | some insn =>
      match kind insn.code with
      | .ret => some (m.ret insn.code insn.k s)
      | .goto => runFrom m program fuel (pc + 1 + insn.k.toNat) s
      | .branch =>
        if m.test insn.code insn.k s then runFrom m program fuel (pc + 1 + insn.jt.toNat) s
        else runFrom m program fuel (pc + 1 + insn.jf.toNat) s
      | .op =>
        match m.exec insn.code insn.k s with
        | .error r => some r
        | .ok s' => runFrom m program fuel (pc + 1) s'

/-- Jumps only go forward, so that no run takes more steps than there are
instructions. -/
def run (m : Machine σ ρ) (program : List SockFilter) (s : σ) : Option ρ :=
  runFrom m program program.length 0 s

/-- The decision diagram of a program, with its shared parts copied. -/
inductive Code
  | ret (code : BitVec 16) (k : BitVec 32)
  | op (code : BitVec 16) (k : BitVec 32) (next : Code)
  | goto (next : Code)
  | branch (code : BitVec 16) (k : BitVec 32) (jt jf : Code)
  deriving DecidableEq

namespace Code

/-- The result of a diagram on a state of the machine. -/
def eval (m : Machine σ ρ) : Code → σ → ρ
  | ret code k, s => m.ret code k s
  | op code k next, s =>
    match m.exec code k s with
    | .error r => r
    | .ok s' => next.eval m s'
  | goto next, s => next.eval m s
  | branch code k jt jf, s => if m.test code k s then jt.eval m s else jf.eval m s

@[simp]
lemma eval_ret (m : Machine σ ρ) (code : BitVec 16) (k : BitVec 32) (s : σ) :
    (ret code k).eval m s = m.ret code k s := rfl

@[simp]
lemma eval_branch (m : Machine σ ρ) (code : BitVec 16) (k : BitVec 32) (jt jf : Code) (s : σ) :
    (branch code k jt jf).eval m s = if m.test code k s then jt.eval m s else jf.eval m s := rfl

end Code

/-- `Decodes program code`: the program does what the diagram says, up to
unconditional jumps. -/
inductive Decodes : List SockFilter → Code → Prop
  | ret {insn : SockFilter} {rest : List SockFilter} (h : kind insn.code = .ret) :
      Decodes (insn :: rest) (.ret insn.code insn.k)
  | op {insn : SockFilter} {rest : List SockFilter} {c : Code} (h : kind insn.code = .op)
      (hnext : Decodes rest c) : Decodes (insn :: rest) (.op insn.code insn.k c)
  | jump {insn : SockFilter} {rest : List SockFilter} {c : Code} (h : kind insn.code = .goto)
      (hnext : Decodes (rest.drop insn.k.toNat) c) : Decodes (insn :: rest) c
  | label {rest : List SockFilter} {c : Code} (hnext : Decodes rest c) : Decodes rest (.goto c)
  | branch {insn : SockFilter} {rest : List SockFilter} {ct cf : Code}
      (h : kind insn.code = .branch) (hjt : Decodes (rest.drop insn.jt.toNat) ct)
      (hjf : Decodes (rest.drop insn.jf.toNat) cf) :
      Decodes (insn :: rest) (.branch insn.code insn.k ct cf)

lemma drop_eq_cons {α : Type*} {l rest : List α} {n : ℕ} {x : α} (h : x :: rest = l.drop n) :
    l[n]? = some x ∧ rest = l.drop (n + 1) := by
  refine ⟨?_, ?_⟩
  · have := congrArg (·[0]?) h
    simpa using this.symm
  · have := congrArg List.tail h
    simpa using this

/-- A program returns what the diagram it decodes to evaluates to. -/
theorem Decodes.runFrom_eq {m : Machine σ ρ} {program suffix : List SockFilter} {c : Code}
    (h : Decodes suffix c) {fuel pc : ℕ} (hs : suffix = program.drop pc)
    (hfuel : suffix.length ≤ fuel) (s : σ) :
    runFrom m program fuel pc s = some (c.eval m s) := by
  induction h generalizing fuel pc s with
  | label _ ih => exact ih hs hfuel s
  | ret h =>
    obtain ⟨hget, -⟩ := drop_eq_cons hs
    obtain _ | fuel := fuel
    · simp at hfuel
    · simp only [runFrom, hget, h, Code.eval_ret]
  | @op insn rest c h _ ih =>
    obtain ⟨hget, hrest⟩ := drop_eq_cons hs
    obtain _ | fuel := fuel
    · simp at hfuel
    · simp only [runFrom, hget, h, Code.eval]
      cases m.exec insn.code insn.k s with
      | error r => rfl
      | ok s' => exact ih hrest (by simpa using hfuel) s'
  | @jump insn rest c h _ ih =>
    obtain ⟨hget, hrest⟩ := drop_eq_cons hs
    obtain _ | fuel := fuel
    · simp at hfuel
    · simp only [runFrom, hget, h]
      refine ih (by rw [hrest, List.drop_drop]) ?_ s
      simp only [List.length_cons, List.length_drop] at hfuel ⊢
      omega
  | @branch insn rest ct cf h _ _ iht ihf =>
    obtain ⟨hget, hrest⟩ := drop_eq_cons hs
    obtain _ | fuel := fuel
    · simp at hfuel
    · simp only [runFrom, hget, h, Code.eval_branch]
      simp only [List.length_cons] at hfuel
      split
      · refine iht (by rw [hrest, List.drop_drop]) ?_ s
        rw [List.length_drop]
        omega
      · refine ihf (by rw [hrest, List.drop_drop]) ?_ s
        rw [List.length_drop]
        omega

theorem Decodes.run_eq {m : Machine σ ρ} {program : List SockFilter} {c : Code}
    (h : Decodes program c) (s : σ) : run m program s = some (c.eval m s) :=
  h.runFrom_eq List.drop_zero.symm le_rfl s

end Chromium.Bpf
