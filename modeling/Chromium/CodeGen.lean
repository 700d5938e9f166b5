import Mathlib.Logic.Function.Basic
import Mathlib.Logic.Relation
import Mathlib.Tactic
import Chromium.Bpf

/-!
# The seccomp code generator

`sandbox/linux/seccomp-bpf/codegen.cc`. Instructions are allocated by the code
generator and linked by pointers. Once the graph is cut into basic blocks and the
blocks are sorted topologically, the relative jumps are computed and the instructions
emitted one after the other.

A pointer to an instruction is its index in `instructions_`, a pointer to a basic
block its index in `basic_blocks_`. The addresses of the instructions are a parameter.
`SANDBOX_DIE`, and following a null pointer, is `none`.
-/
namespace Chromium.Seccomp

open Bpf

/-- A pointer to an instruction. -/
abbrev Ptr := ℕ

/-- A pointer to a basic block. -/
abbrev BlockPtr := ℕ

/-- `struct Instruction`. The field `next` of a non-jumping instruction shares the
storage of `jt_ptr`, and the relative offsets `jt` and `jf` are written over both
when the pointers are no longer needed. -/
structure Instruction where
  code : BitVec 16
  jtPtr : Option Ptr
  jfPtr : Option Ptr
  k : BitVec 32
  rel : Option (BitVec 8 × BitVec 8) := none
  deriving DecidableEq

/-- The successor of a non-jumping instruction. -/
def Instruction.next (insn : Instruction) : Option Ptr := insn.jtPtr

/-- Where the objects of the code generator are in memory. -/
structure Layout where
  insnAddr : Ptr → ℕ
  blockAddr : BlockPtr → ℕ

variable (layout : Layout)

/-! ### Basic blocks -/

/-- `struct BasicBlock`. No instruction is in two blocks, so that a block holds the
instructions themselves. -/
structure BasicBlock where
  instructions : List Instruction
  offset : ℤ := 0

/-- `std::map<const Instruction*, BasicBlock*>`, in the order of its keys. -/
abbrev TargetsToBlocks := List (Ptr × BlockPtr)

/-- `blocks.find(target)->second`. -/
def TargetsToBlocks.find (blocks : TargetsToBlocks) (target : Option Ptr) : Option BlockPtr :=
  target.bind (blocks.lookup ·)

/-! ### Relative jumps -/

/-- An "always" jump over `k` instructions, to the instruction that `target` points to. -/
def relativeJa (target : Option Ptr) (k : ℤ) : Instruction :=
  ⟨bpfJmp + bpfJa, target, none, BitVec.ofInt 32 k, some (0, 0)⟩

/-- A conditional jump at the end of a block with the "always" jumps that it needs
because it reaches no further than 255 instructions. -/
def relativeBranch (insn : Instruction) (jt jf : ℤ) : List Instruction :=
  let (far, jt, jf) :=
    if jt > 255 ∨ (jt = 255 ∧ jf > 255) then ([relativeJa insn.jtPtr jt], 0, jf + 1)
    else ([], jt, jf)
  let (far, jt, jf) :=
    if jf > 255 then (relativeJa insn.jfPtr jf :: far, jt + 1, 0) else (far, jt, jf)
  { insn with rel := some (BitVec.ofInt 8 jt, BitVec.ofInt 8 jf) } :: far

/-- The instructions of a block with its jumps made relative, `offset` instructions
before the end of the program. -/
def relativeBlock (pool : List BasicBlock) (blocks : TargetsToBlocks) (bb : BasicBlock)
    (lastBlock : Option BlockPtr) (offset : ℤ) : Option (List Instruction) := do
  let insn ← bb.instructions.getLast?
  let offsetOf (target : Option Ptr) : Option ℤ := do
    let block ← blocks.find target
    let bb ← pool[block]?
    some bb.offset
  match kind insn.code with
  | .goto =>
    let jmp := offset - (← offsetOf insn.jtPtr)
    some (bb.instructions.dropLast ++
      [{ insn with k := BitVec.ofInt 32 jmp, rel := some (0, 0) }])
  | .branch =>
    let jt := offset - (← offsetOf insn.jtPtr)
    let jf := offset - (← offsetOf insn.jfPtr)
    some (bb.instructions.dropLast ++ relativeBranch insn jt jf)
  | .op => if (blocks.find insn.next) ≠ lastBlock then none else some bb.instructions
  | .ret => some bb.instructions

/-- `ComputeRelativeJumps`, with the offset reached. The loop goes over the blocks in
reverse. -/
def computeRelativeJumps (blocks : TargetsToBlocks) :
    List BlockPtr → List BasicBlock → Option (List BasicBlock × ℤ)
  | [], pool => some (pool, 0)
  | block :: rest, pool => do
    let (pool, offset) ← computeRelativeJumps blocks rest pool
    let bb ← pool[block]?
    let insns ← relativeBlock pool blocks bb rest.head? offset
    let offset := offset + insns.length
    some (pool.set block ⟨insns, offset⟩, offset)

/-! ### The program -/

/-- The `sock_filter` of an instruction. Where no offsets were written, `jt` and `jf`
are the low bytes of the pointer in their place. -/
def sockFilter (insn : Instruction) : SockFilter :=
  let addr := insn.next.elim 0 layout.insnAddr
  let (jt, jf) := insn.rel.getD (BitVec.ofNat 8 addr, BitVec.ofNat 8 (addr / 256))
  ⟨insn.code, jt, jf, insn.k⟩

/-- `ConcatenateBasicBlocks`. -/
def concatenateBasicBlocks (pool : List BasicBlock) : List BlockPtr → Option (List SockFilter)
  | [] => some []
  | block :: rest => do
    let bb ← pool[block]?
    let program ← concatenateBasicBlocks pool rest
    some (bb.instructions.map (sockFilter layout) ++ program)

end Chromium.Seccomp
