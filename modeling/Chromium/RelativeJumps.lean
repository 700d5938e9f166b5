import Chromium.CodeGen

/-!
# Relative jumps

`CodeGen::ComputeRelativeJumps` and `CodeGen::ConcatenateBasicBlocks`: the blocks are laid out from
the end of the program, so that the distance to every later block is known when a jump to it is
made relative. A conditional jump that reaches no further than 255 instructions gets one or two
"always" jumps behind it, and each of these moves what the other branch goes to. An "always" jump
holds its distance in 32 bits.
-/
namespace Chromium.Seccomp

open Bpf

variable (layout : Layout) (pool : List BasicBlock) (blocks : TargetsToBlocks)

/-! ### The lay-out of the blocks -/

def blockSize (block : BlockPtr) : ℕ := (pool[block]?.map fun bb => bb.instructions.length).getD 0

/-- The number of instructions in front of a block. -/
def blockStart (target : BlockPtr) : List BlockPtr → ℕ
  | [] => 0
  | block :: rest =>
    if block = target then 0 else blockSize pool block + blockStart target rest

/-- The number of instructions in all blocks. -/
def totalSize (sorted : List BlockPtr) : ℕ := (sorted.map (blockSize pool)).sum

/-- What a block can be followed by: its successors come later, and the next one at once when it
does not end in a jump. -/
def Follows (last : Instruction) (rest : List BlockPtr) : Prop :=
  match kind last.code with
  | .ret => True
  | .goto => ∃ t ∈ rest, blocks.find last.jtPtr = some t
  | .branch =>
    (∃ t ∈ rest, blocks.find last.jtPtr = some t) ∧ ∃ f ∈ rest, blocks.find last.jfPtr = some f
  | .op => ∃ t, rest.head? = some t ∧ blocks.find last.next = some t

/-- Blocks in an order in which every successor of a block comes later. -/
def Sorted : List BlockPtr → Prop
  | [] => True
  | block :: rest =>
    (∃ bb last, pool[block]? = some bb ∧ bb.instructions.getLast? = some last ∧
      Follows blocks last rest) ∧ Sorted rest

/-! ### One conditional jump -/

/-- The offsets in a conditional jump over `jt` and `jf` instructions, after the "always" jumps
that it needs were put behind it. -/
def relativeOffsets (jt jf : ℤ) : ℤ × ℤ :=
  let p := if jt > 255 ∨ (jt = 255 ∧ jf > 255) then (0, jf + 1) else (jt, jf)
  if p.2 > 255 then (p.1 + 1, 0) else p

/-- The "always" jumps behind it. -/
def farJumps (insn : Instruction) (jt jf : ℤ) : List Instruction :=
  let isFar := jt > 255 ∨ (jt = 255 ∧ jf > 255)
  let far := if isFar then [relativeJa insn.jtPtr jt] else []
  let jf := if isFar then jf + 1 else jf
  if jf > 255 then relativeJa insn.jfPtr jf :: far else far

lemma relativeBranch_eq (insn : Instruction) (jt jf : ℤ) :
    relativeBranch insn jt jf =
      { insn with rel := some (BitVec.ofInt 8 (relativeOffsets jt jf).1,
        BitVec.ofInt 8 (relativeOffsets jt jf).2) } :: farJumps insn jt jf := by
  rw [relativeBranch, relativeOffsets, farJumps]
  by_cases hfar : jt > 255 ∨ (jt = 255 ∧ jf > 255)
  · simp only [if_pos hfar]
    split_ifs <;> rfl
  · simp only [if_neg hfar]
    split_ifs <;> rfl

/-- Behind the conditional jump, over `j` instructions, the target at the distance `d` is reached,
with one "always" jump at most. -/
def FarReaches (target : Option Ptr) (far : List Instruction) (j d : ℕ) : Prop :=
  j = far.length + d ∨
    ∃ k : ℕ, far[j]? = some (relativeJa target k) ∧ j + 1 + k = far.length + d

/-- Both offsets fit into 8 bits, whatever the distances are. -/
lemma relativeOffsets_spec (insn : Instruction) (dt df : ℕ) :
    ∃ jt jf : ℕ, relativeOffsets dt df = (↑jt, ↑jf) ∧ jt ≤ 255 ∧ jf ≤ 255 ∧
      FarReaches insn.jtPtr (farJumps insn dt df) jt dt ∧
      FarReaches insn.jfPtr (farJumps insn dt df) jf df := by
  rw [relativeOffsets, farJumps]
  by_cases hfar : (dt : ℤ) > 255 ∨ ((dt : ℤ) = 255 ∧ (df : ℤ) > 255)
  · simp only [if_pos hfar]
    by_cases hjf : (df : ℤ) + 1 > 255
    · -- both branches need a jump
      rw [if_pos hjf, if_pos hjf]
      refine ⟨1, 0, rfl, by omega, by omega, .inr ⟨dt, rfl, ?_⟩, .inr ⟨df + 1, rfl, ?_⟩⟩
      · simp only [List.length_cons, List.length_nil]
      · simp only [List.length_cons, List.length_nil]
        omega
    · rw [if_neg hjf, if_neg hjf]
      refine ⟨0, df + 1, rfl, by omega, by omega, .inr ⟨dt, rfl, ?_⟩, .inl ?_⟩
      · simp only [List.length_cons, List.length_nil]
      · simp only [List.length_cons, List.length_nil]
        omega
  · simp only [if_neg hfar]
    by_cases hjf : (df : ℤ) > 255
    · rw [if_pos hjf, if_pos hjf]
      refine ⟨dt + 1, 0, rfl, by omega, by omega, .inl ?_, .inr ⟨df, rfl, ?_⟩⟩
      · simp only [List.length_cons, List.length_nil]
        omega
      · simp only [List.length_cons, List.length_nil]
    · rw [if_neg hjf, if_neg hjf]
      refine ⟨dt, df, rfl, by omega, by omega, .inl ?_, .inl ?_⟩
      · simp only [List.length_nil, zero_add]
      · simp only [List.length_nil, zero_add]

/-! ### All blocks -/

section Sizes
variable {pool} {pool' : List BasicBlock}

lemma totalSize_cons (block : BlockPtr) (rest : List BlockPtr) :
    totalSize pool (block :: rest) = blockSize pool block + totalSize pool rest := by
  rw [totalSize, List.map_cons, List.sum_cons, totalSize]

lemma totalSize_append (pre post : List BlockPtr) :
    totalSize pool (pre ++ post) = totalSize pool pre + totalSize pool post := by
  rw [totalSize, List.map_append, List.sum_append, totalSize, totalSize]

lemma blockStart_append {target : BlockPtr} {pre : List BlockPtr} (h : target ∉ pre)
    (rest : List BlockPtr) :
    blockStart pool target (pre ++ rest) = totalSize pool pre + blockStart pool target rest := by
  induction pre with
  | nil => exact (Nat.zero_add _).symm
  | cons block pre ih =>
    rw [List.mem_cons, not_or] at h
    rw [List.cons_append, blockStart, if_neg (Ne.symm h.1), ih h.2, totalSize_cons, Nat.add_assoc]

lemma blockStart_self (target : BlockPtr) (rest : List BlockPtr) :
    blockStart pool target (target :: rest) = 0 := if_pos rfl

lemma blockSize_of_getElem? {block : BlockPtr} {bb : BasicBlock} (h : pool[block]? = some bb) :
    blockSize pool block = bb.instructions.length := by
  rw [blockSize, h]
  rfl

lemma totalSize_congr {sorted : List BlockPtr} (h : ∀ c ∈ sorted, pool'[c]? = pool[c]?) :
    totalSize pool' sorted = totalSize pool sorted := by
  rw [totalSize, totalSize, List.map_congr_left]
  intro c hc
  rw [blockSize, h c hc, blockSize]

lemma blockStart_congr {sorted : List BlockPtr} (h : ∀ c ∈ sorted, pool'[c]? = pool[c]?)
    (target : BlockPtr) : blockStart pool' target sorted = blockStart pool target sorted := by
  induction sorted with
  | nil => rfl
  | cons block rest ih =>
    obtain ⟨hblock, hrest⟩ := List.forall_mem_cons.mp h
    rw [blockStart, blockStart, blockSize, hblock, ih hrest, blockSize]

end Sizes

/-- The instructions of a block after its jump was made relative, over the blocks behind it. -/
inductive Relative (bb : BasicBlock) (post : List BlockPtr) : List Instruction → Prop
  | plain {last : Instruction} (hlast : bb.instructions.getLast? = some last)
    (hkind : kind last.code = .ret ∨ kind last.code = .op) : Relative bb post bb.instructions
  | goto {last : Instruction} {t : BlockPtr} (hlast : bb.instructions.getLast? = some last)
    (hkind : kind last.code = .goto) (ht : t ∈ post) (hfind : blocks.find last.jtPtr = some t) :
    Relative bb post (bb.instructions.dropLast ++ [{ last with
      k := BitVec.ofInt 32 (blockStart pool t post)
      rel := some (0, 0) }])
  | branch {last : Instruction} {t f : BlockPtr} (hlast : bb.instructions.getLast? = some last)
    (hkind : kind last.code = .branch) (ht : t ∈ post) (hfind : blocks.find last.jtPtr = some t)
    (hf : f ∈ post) (hfindf : blocks.find last.jfPtr = some f) :
    Relative bb post (bb.instructions.dropLast ++
      relativeBranch last (blockStart pool t post) (blockStart pool f post))

/-- Every block is relative to the blocks behind it, and knows its distance from the end. -/
def Laid (pool₀ : List BasicBlock) (sorted : List BlockPtr) : Prop :=
  ∀ pre block post, sorted = pre ++ block :: post → ∃ bb insns,
    pool₀[block]? = some bb ∧ pool[block]? = some ⟨insns, totalSize pool (block :: post)⟩ ∧
      Relative pool blocks bb post insns

section Laid
variable {pool blocks} {pool₀ : List BasicBlock} {rest : List BlockPtr}

/-- The distance to a later block. -/
lemma Laid.offset_eq (h : Laid pool blocks pool₀ rest) (hnodup : rest.Nodup) {t : BlockPtr}
    (ht : t ∈ rest) : ∃ bb, pool[t]? = some bb ∧
      (totalSize pool rest : ℤ) - bb.offset = blockStart pool t rest := by
  obtain ⟨pre, post, rfl⟩ := List.append_of_mem ht
  obtain ⟨bb, insns, -, hblock, -⟩ := h pre t post rfl
  refine ⟨_, hblock, ?_⟩
  have hpre : t ∉ pre := by
    intro hmem
    exact (List.nodup_append.mp hnodup).2.2 t hmem t List.mem_cons_self rfl
  rw [blockStart_append hpre, blockStart_self, totalSize_append]
  push_cast
  ring

/-- The block in front of the others. -/
lemma Laid.relativeBlock (h : Laid pool blocks pool₀ rest) (hnodup : rest.Nodup) {bb : BasicBlock}
    {last : Instruction} (hlast : bb.instructions.getLast? = some last)
    (hfollows : Follows blocks last rest) :
    ∃ insns, relativeBlock pool blocks bb rest.head? (totalSize pool rest) = some insns ∧
      Relative pool blocks bb rest insns := by
  rw [Follows] at hfollows
  cases hkind : kind last.code with
  | ret =>
    refine ⟨bb.instructions, ?_, .plain hlast (.inl hkind)⟩
    simp [Seccomp.relativeBlock, hlast, hkind]
  | op =>
    rw [hkind] at hfollows
    obtain ⟨t, hhead, hfind⟩ := hfollows
    refine ⟨bb.instructions, ?_, .plain hlast (.inr hkind)⟩
    simp [Seccomp.relativeBlock, hlast, hkind, hhead, hfind]
  | goto =>
    rw [hkind] at hfollows
    obtain ⟨t, ht, hfind⟩ := hfollows
    obtain ⟨target, htarget, hoffset⟩ := h.offset_eq hnodup ht
    refine ⟨_, ?_, .goto hlast hkind ht hfind⟩
    rw [← hoffset]
    simp [Seccomp.relativeBlock, hlast, hkind, hfind, htarget]
  | branch =>
    rw [hkind] at hfollows
    obtain ⟨⟨t, ht, hfind⟩, f, hf, hfindf⟩ := hfollows
    obtain ⟨target, htarget, hoffset⟩ := h.offset_eq hnodup ht
    obtain ⟨targetf, htargetf, hoffsetf⟩ := h.offset_eq hnodup hf
    refine ⟨_, ?_, .branch hlast hkind ht hfind hf hfindf⟩
    rw [← hoffset, ← hoffsetf]
    simp [Seccomp.relativeBlock, hlast, hkind, hfind, htarget, hfindf, htargetf]

lemma Relative.congr {pool' : List BasicBlock} {bb : BasicBlock} {insns : List Instruction}
    (hpool : ∀ c ∈ rest, pool'[c]? = pool[c]?) (h : Relative pool blocks bb rest insns) :
    Relative pool' blocks bb rest insns := by
  cases h with
  | plain hlast hkind => exact .plain hlast hkind
  | goto hlast hkind ht hfind =>
    rw [← blockStart_congr hpool]
    exact .goto hlast hkind ht hfind
  | branch hlast hkind ht hfind hf hfindf =>
    rw [← blockStart_congr hpool, ← blockStart_congr hpool]
    exact .branch hlast hkind ht hfind hf hfindf

/-- The loop, from the last block to the first. -/
lemma exists_computeRelativeJumps {sorted : List BlockPtr} (hsorted : Sorted pool₀ blocks sorted)
    (hnodup : sorted.Nodup) :
    ∃ pool, computeRelativeJumps blocks sorted pool₀ = some (pool, (totalSize pool sorted : ℤ)) ∧
      (∀ c ∉ sorted, pool[c]? = pool₀[c]?) ∧ Laid pool blocks pool₀ sorted := by
  induction sorted with
  | nil => exact ⟨pool₀, rfl, fun c _ => rfl, fun pre block post h => by simp at h⟩
  | cons block rest ih =>
    obtain ⟨⟨bb, last, hbb, hlast, hfollows⟩, hrest⟩ := hsorted
    obtain ⟨hnot, hnodup⟩ := List.nodup_cons.mp hnodup
    obtain ⟨pool, hcompute, hsame, hlaid⟩ := ih hrest hnodup
    obtain ⟨insns, hinsns, hrelative⟩ := hlaid.relativeBlock hnodup hlast hfollows
    have hblock : pool[block]? = some bb := (hsame block hnot).trans hbb
    have hlt : block < pool.length := (List.getElem?_eq_some_iff.mp hblock).1
    obtain ⟨pool', hpool'⟩ : ∃ pool', pool' = pool.set block
      ⟨insns, (totalSize pool rest : ℤ) + insns.length⟩ := ⟨_, rfl⟩
    have hself : pool'[block]? = some ⟨insns, (totalSize pool rest : ℤ) + insns.length⟩ := by
      rw [hpool', List.getElem?_set_self hlt]
    have hother : ∀ c, c ≠ block → pool'[c]? = pool[c]? := by
      intro c hc
      rw [hpool', List.getElem?_set_ne (Ne.symm hc)]
    have hothers : ∀ c ∈ rest, pool'[c]? = pool[c]? := fun c hc =>
      hother c fun heq => hnot (heq ▸ hc)
    have htotal : (totalSize pool rest : ℤ) + insns.length = totalSize pool' (block :: rest) := by
      rw [totalSize_cons, totalSize_congr hothers, blockSize_of_getElem? hself]
      push_cast
      ring
    refine ⟨pool', ?_, ?_, ?_⟩
    · rw [← htotal, computeRelativeJumps, hcompute, hpool']
      simp [hblock, hinsns]
    · intro c hc
      rw [List.mem_cons, not_or] at hc
      rw [hother c hc.1, hsame c hc.2]
    · intro pre c post heq
      cases pre with
      | nil =>
        obtain ⟨rfl, rfl⟩ := List.cons.inj heq
        exact ⟨bb, insns, hbb, htotal ▸ hself, hrelative.congr hothers⟩
      | cons d pre =>
        obtain ⟨rfl, rfl⟩ := List.cons.inj heq
        obtain ⟨bb', insns', hbb', hblock', hrelative'⟩ := hlaid pre c post rfl
        have hpost : ∀ e ∈ c :: post, pool'[e]? = pool[e]? := fun e he =>
          hothers e (List.mem_append_right _ he)
        refine ⟨bb', insns', hbb', ?_, ?_⟩
        · rw [hpost c List.mem_cons_self, hblock', totalSize_congr hpost]
        · exact hrelative'.congr fun e he => hpost e (List.mem_cons_of_mem _ he)

end Laid

/-! ### The program -/

/-- The instructions of the blocks, one behind another. -/
def programOf (sorted : List BlockPtr) : List SockFilter :=
  sorted.flatMap fun block =>
    ((pool[block]?.map fun bb => bb.instructions).getD []).map (sockFilter layout)

/-- From the place `at` the target is reached, at once or over an "always" jump. -/
def Reaches (program : List SockFilter) (start target : ℕ) : Prop :=
  start = target ∨ ∃ ja : SockFilter, program[start]? = some ja ∧ ja.code = bpfJmp + bpfJa ∧
    ∃ d : ℕ, ja.k = BitVec.ofNat 32 d ∧ start + 1 + d = target

/-- What has become of the jump `last` at the end of a block, now the instruction `insn` at the
place `pc`, when the block ends at `stop`. The offsets are those of the variables that are written
to its 8-bit fields. -/
def JumpsTo (sorted : List BlockPtr) (program : List SockFilter) (last : Instruction) (pc stop : ℕ)
    (insn : SockFilter) : Prop :=
  match kind last.code with
  | .goto => ∃ t ∈ sorted, blocks.find last.jtPtr = some t ∧
      ∃ d : ℕ, insn.k = BitVec.ofNat 32 d ∧ pc + 1 + d = blockStart pool t sorted
  | .branch => ∃ t ∈ sorted, ∃ f ∈ sorted, blocks.find last.jtPtr = some t ∧
      blocks.find last.jfPtr = some f ∧ insn.k = last.k ∧
      ∃ jt jf : ℕ, jt ≤ 255 ∧ jf ≤ 255 ∧
        relativeOffsets ((blockStart pool t sorted : ℤ) - stop)
          ((blockStart pool f sorted : ℤ) - stop) = (↑jt, ↑jf) ∧
        insn.jt = BitVec.ofNat 8 jt ∧ insn.jf = BitVec.ofNat 8 jf ∧
        Reaches program (pc + 1 + jt) (blockStart pool t sorted) ∧
        Reaches program (pc + 1 + jf) (blockStart pool f sorted)
  | _ => True

section Program
variable {layout pool blocks} {sorted : List BlockPtr}

lemma programOf_append (pre post : List BlockPtr) :
    programOf layout pool (pre ++ post) =
      programOf layout pool pre ++ programOf layout pool post :=
  List.flatMap_append

lemma programOf_cons {block : BlockPtr} {bb : BasicBlock} (h : pool[block]? = some bb)
    (rest : List BlockPtr) :
    programOf layout pool (block :: rest) =
      bb.instructions.map (sockFilter layout) ++ programOf layout pool rest := by
  rw [programOf, List.flatMap_cons, h]
  rfl

lemma length_programOf (sorted : List BlockPtr) :
    (programOf layout pool sorted).length = totalSize pool sorted := by
  rw [programOf, List.length_flatMap, totalSize]
  congr 1
  apply List.map_congr_left
  intro block _
  rw [List.length_map, blockSize]
  cases pool[block]? with
  | none => rfl
  | some bb => rfl

lemma concatenateBasicBlocks_eq (h : ∀ block ∈ sorted, (pool[block]?).isSome) :
    concatenateBasicBlocks layout pool sorted = some (programOf layout pool sorted) := by
  induction sorted with
  | nil => rfl
  | cons block rest ih =>
    obtain ⟨hblock, hrest⟩ := List.forall_mem_cons.mp h
    obtain ⟨bb, hbb⟩ := Option.isSome_iff_exists.mp hblock
    rw [programOf_cons hbb, concatenateBasicBlocks, ih hrest, hbb]
    rfl

/-- Over the "always" jumps behind a conditional jump. -/
lemma FarReaches.reaches {target : Option Ptr} {far : List Instruction} {j d : ℕ}
    (h : FarReaches target far j d) (before after : List SockFilter) :
    Reaches (before ++ (far.map (sockFilter layout) ++ after)) (before.length + j)
      (before.length + far.length + d) := by
  obtain rfl | ⟨k, hja, hk⟩ := h
  · exact .inl (Nat.add_assoc _ _ _).symm
  · refine .inr ⟨sockFilter layout (relativeJa target k), ?_, rfl, k, ?_, by omega⟩
    · rw [List.getElem?_append_right (by omega), Nat.add_sub_cancel_left,
        List.getElem?_append_left, List.getElem?_map, hja]
      · rfl
      · rw [List.length_map]
        exact (List.getElem?_eq_some_iff.mp hja).1
    · rw [sockFilter, relativeJa]
      exact BitVec.ofInt_natCast _ _

variable {pool₀ : List BasicBlock} {pre post : List BlockPtr} {block : BlockPtr}

/-- Where a block stands, and those behind it. -/
lemma blockStart_split (hnodup : (pre ++ block :: post).Nodup) :
    blockStart pool block (pre ++ block :: post) = totalSize pool pre ∧
      ∀ t ∈ post, blockStart pool t (pre ++ block :: post) =
        totalSize pool pre + blockSize pool block + blockStart pool t post := by
  obtain ⟨-, hrest, hdisjoint⟩ := List.nodup_append.mp hnodup
  constructor
  · rw [blockStart_append, blockStart_self, Nat.add_zero]
    exact fun hmem => hdisjoint block hmem block List.mem_cons_self rfl
  · intro t ht
    rw [blockStart_append fun hmem => hdisjoint t hmem t (List.mem_cons_of_mem _ ht) rfl,
      blockStart, if_neg, Nat.add_assoc]
    rintro rfl
    exact (List.nodup_cons.mp hrest).1 ht

/-- The jump at the end of a block. -/
lemma Relative.jumpsTo {bb : BasicBlock} {insns : List Instruction} {offset : ℤ}
    (h : Relative pool blocks bb post insns) (hblock : pool[block]? = some ⟨insns, offset⟩)
    (hnodup : (pre ++ block :: post).Nodup)
    {last : Instruction} (hlast : bb.instructions.getLast? = some last) :
    ∃ insn, (programOf layout pool (pre ++ block :: post))[totalSize pool pre +
        (bb.instructions.length - 1)]? = some insn ∧ insn.code = last.code ∧
      JumpsTo pool blocks (pre ++ block :: post)
        (programOf layout pool (pre ++ block :: post)) last
        (totalSize pool pre + (bb.instructions.length - 1))
        (totalSize pool pre + blockSize pool block) insn := by
  obtain ⟨-, hstart⟩ := @blockStart_split pool pre post block hnodup
  have hsize := blockSize_of_getElem? hblock
  have hinit : bb.instructions = bb.instructions.dropLast ++ [last] :=
    (List.dropLast_append_getLast? _ hlast).symm
  have hlength : bb.instructions.dropLast.length = bb.instructions.length - 1 :=
    List.length_dropLast
  have hpos : 0 < bb.instructions.length := by
    rw [hinit, List.length_append, List.length_singleton]
    omega
  -- the instructions in front of the jump
  obtain ⟨before, hbefore⟩ : ∃ before, before = programOf layout pool pre ++
    bb.instructions.dropLast.map (sockFilter layout) := ⟨_, rfl⟩
  have hpc : before.length = totalSize pool pre + (bb.instructions.length - 1) := by
    rw [hbefore, List.length_append, length_programOf, List.length_map, hlength]
  have hprogram : ∀ tail, insns = bb.instructions.dropLast ++ tail →
      programOf layout pool (pre ++ block :: post) =
        before ++ (tail.map (sockFilter layout) ++ programOf layout pool post) := by
    intro tail htail
    rw [programOf_append, programOf_cons hblock, htail, hbefore, List.map_append,
      List.append_assoc, List.append_assoc]
  have hmem : ∀ t ∈ post, t ∈ pre ++ block :: post := fun t ht =>
    List.mem_append_right _ (List.mem_cons_of_mem _ ht)
  rw [← hpc]
  cases h with
  | @plain last' hlast' hkind =>
    obtain rfl := Option.some_injective _ (hlast'.symm.trans hlast)
    rw [hprogram [last'] hinit]
    refine ⟨sockFilter layout last', by simp, rfl, ?_⟩
    rw [JumpsTo]
    obtain hkind | hkind := hkind
    · rw [hkind]
      trivial
    · rw [hkind]
      trivial
  | @goto last' t hlast' hkind ht hfind =>
    obtain rfl := Option.some_injective _ (hlast'.symm.trans hlast)
    rw [hprogram _ rfl]
    refine ⟨_, by simp; rfl, rfl, ?_⟩
    rw [JumpsTo, hkind]
    refine ⟨t, hmem t ht, hfind, blockStart pool t post, BitVec.ofInt_natCast _ _, ?_⟩
    rw [hstart t ht, hpc, hsize, List.length_append, hlength, List.length_singleton]
    omega
  | @branch last' t f hlast' hkind ht hfind hf hfindf =>
    obtain rfl := Option.some_injective _ (hlast'.symm.trans hlast)
    obtain ⟨jt, jf, hoffsets, hjt, hjf, hreacht, hreachf⟩ :=
      relativeOffsets_spec last' (blockStart pool t post) (blockStart pool f post)
    rw [relativeBranch_eq, hoffsets] at hprogram hsize
    rw [hprogram _ rfl]
    generalize farJumps last' (blockStart pool t post) (blockStart pool f post) = far at *
    have hstop : totalSize pool pre + blockSize pool block = before.length + 1 + far.length := by
      rw [hsize, hpc, List.length_append, hlength, List.length_cons]
      omega
    obtain ⟨insn, hinsn⟩ : ∃ insn, insn = sockFilter layout { last' with
      rel := some (BitVec.ofInt 8 jt, BitVec.ofInt 8 jf) } := ⟨_, rfl⟩
    have hafter : ∀ {target j d}, FarReaches target far j d →
        Reaches (before ++ (insn :: far.map (sockFilter layout) ++ programOf layout pool post))
          (before.length + 1 + j) (before.length + 1 + far.length + d) := by
      intro target j d hreach
      have hfar := @FarReaches.reaches layout _ _ _ _ hreach (before ++ [insn])
        (programOf layout pool post)
      rwa [List.append_assoc, List.length_append, List.length_singleton] at hfar
    rw [List.map_cons, ← hinsn]
    refine ⟨insn, by simp, by rw [hinsn]; rfl, ?_⟩
    rw [JumpsTo, hkind]
    refine ⟨t, hmem t ht, f, hmem f hf, hfind, hfindf, by rw [hinsn]; rfl, jt, jf, hjt, hjf, ?_,
      ?_, ?_, ?_, ?_⟩
    · rw [hstart t ht, hstart f hf, ← hoffsets]
      push_cast
      congr 1 <;> ring
    · rw [hinsn]
      exact BitVec.ofInt_natCast _ _
    · rw [hinsn]
      exact BitVec.ofInt_natCast _ _
    · rw [hstart t ht, hstop]
      exact hafter hreacht
    · rw [hstart f hf, hstop]
      exact hafter hreachf

/-- The program of the blocks stands at their start. -/
lemma programOf_drop {bb : BasicBlock} (hblock : pool[block]? = some bb)
    (hnodup : (pre ++ block :: post).Nodup) :
    bb.instructions.map (sockFilter layout) <+:
      (programOf layout pool (pre ++ block :: post)).drop
        (blockStart pool block (pre ++ block :: post)) := by
  rw [(blockStart_split hnodup).1, programOf_append, programOf_cons hblock,
    ← @length_programOf layout, List.drop_left]
  exact List.prefix_append _ _

end Program

/-- Whatever the sizes of the blocks are, every jump goes to the first instruction of its target,
over one "always" jump at most, and the offsets of a conditional jump fit into its fields. -/
theorem computeRelativeJumps_exact {sorted : List BlockPtr} (hsorted : Sorted pool blocks sorted)
    (hnodup : sorted.Nodup) :
    ∃ pool' offset program, computeRelativeJumps blocks sorted pool = some (pool', offset) ∧
      concatenateBasicBlocks layout pool' sorted = some program ∧
      ∀ block ∈ sorted, ∃ bb bb' last, pool[block]? = some bb ∧ pool'[block]? = some bb' ∧
        bb.instructions.getLast? = some last ∧
        bb'.instructions.map (sockFilter layout) <+:
          program.drop (blockStart pool' block sorted) ∧
        ∃ pc insn, pc = blockStart pool' block sorted + (bb.instructions.length - 1) ∧
          program[pc]? = some insn ∧ insn.code = last.code ∧
          JumpsTo pool' blocks sorted program last pc
            (blockStart pool' block sorted + bb'.instructions.length) insn := by
  obtain ⟨pool', hcompute, -, hlaid⟩ := exists_computeRelativeJumps hsorted hnodup
  have hsome : ∀ block ∈ sorted, (pool'[block]?).isSome := by
    intro block hmem
    obtain ⟨pre, post, rfl⟩ := List.append_of_mem hmem
    obtain ⟨bb, insns, -, hblock, -⟩ := hlaid pre block post rfl
    rw [hblock]
    rfl
  refine ⟨pool', _, _, hcompute, concatenateBasicBlocks_eq hsome, ?_⟩
  intro block hmem
  obtain ⟨pre, post, rfl⟩ := List.append_of_mem hmem
  obtain ⟨bb, insns, hbb, hblock, hrelative⟩ := hlaid pre block post rfl
  have hlast : ∃ last, bb.instructions.getLast? = some last := by
    cases hrelative with
    | plain hlast _ => exact ⟨_, hlast⟩
    | goto hlast _ _ _ => exact ⟨_, hlast⟩
    | branch hlast _ _ _ _ _ => exact ⟨_, hlast⟩
  obtain ⟨last, hlast⟩ := hlast
  obtain ⟨insn, hinsn, hcode, hjumps⟩ := hrelative.jumpsTo hblock hnodup hlast
  rw [blockSize_of_getElem? hblock, ← (blockStart_split hnodup).1] at hjumps
  rw [← (@blockStart_split pool' pre post block hnodup).1] at hinsn
  exact ⟨bb, _, last, hbb, hblock, hlast, programOf_drop hblock hnodup, _, insn, rfl, hinsn,
    hcode, hjumps⟩

/-- A conditional jump between two blocks that return. -/
def twoWay : List BasicBlock :=
  [⟨[⟨bpfJmp + bpfJeq, some 1, some 2, 0, none⟩], 0⟩, ⟨[⟨bpfRet, none, none, 0, none⟩], 0⟩,
    ⟨[⟨bpfRet, none, none, 1, none⟩], 0⟩]

theorem computeRelativeJumps_twoWay :
    ∃ pool' offset program,
      computeRelativeJumps [(1, 1), (2, 2)] [0, 1, 2] twoWay = some (pool', offset) ∧
      concatenateBasicBlocks ⟨id, id⟩ pool' [0, 1, 2] = some program := by
  have hsorted : Sorted twoWay [(1, 1), (2, 2)] [0, 1, 2] := by
    refine ⟨⟨_, _, rfl, rfl, ?_⟩, ⟨_, _, rfl, rfl, ?_⟩, ⟨_, _, rfl, rfl, ?_⟩, trivial⟩
    · change (∃ t ∈ [1, 2], TargetsToBlocks.find [(1, 1), (2, 2)] (some 1) = some t) ∧
        ∃ f ∈ [1, 2], TargetsToBlocks.find [(1, 1), (2, 2)] (some 2) = some f
      exact ⟨⟨1, by decide, rfl⟩, 2, by decide, rfl⟩
    · trivial
    · trivial
  obtain ⟨pool', offset, program, hcompute, hconcatenate, -⟩ :=
    computeRelativeJumps_exact ⟨id, id⟩ twoWay [(1, 1), (2, 2)] hsorted (by decide)
  exact ⟨pool', offset, program, hcompute, hconcatenate⟩

end Chromium.Seccomp
