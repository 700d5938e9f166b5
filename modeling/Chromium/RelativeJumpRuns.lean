import Chromium.RelativeJumps

/-!
# What the emitted program means

The graph of the basic blocks can be run by itself, along the pointers of the last instructions.
`ComputeRelativeJumps` and `ConcatenateBasicBlocks` turn it into instructions with forward offsets
that return the same.
-/
namespace Chromium.Seccomp

open Bpf

variable {σ ρ : Type*} (m : Machine σ ρ)

/-! ### Running the graph -/

/-- The operations in front of the last instruction of a block. -/
def execOps : List Instruction → σ → Except ρ σ
  | [], s => .ok s
  | insn :: insns, s =>
    match m.exec insn.code insn.k s with
    | .error r => .error r
    | .ok s' => execOps insns s'

/-- Runs the graph from a block on. Every block takes one unit of fuel. -/
def runBlocks (pool : List BasicBlock) (blocks : TargetsToBlocks) :
    ℕ → Option BlockPtr → σ → Option ρ
  | fuel + 1, some block, s =>
    match pool[block]? with
    | none => none
    | some bb =>
      match bb.instructions.getLast? with
      | none => none
      | some last =>
        match execOps m bb.instructions.dropLast s with
        | .error r => some r
        | .ok s' =>
          match kind last.code with
          | .ret => some (m.ret last.code last.k s')
          | .goto => runBlocks pool blocks fuel (blocks.find last.jtPtr) s'
          | .branch =>
            runBlocks pool blocks fuel
              (blocks.find (if m.test last.code last.k s' then last.jtPtr else last.jfPtr)) s'
          | .op =>
            match m.exec last.code last.k s' with
            | .error r => some r
            | .ok s'' => runBlocks pool blocks fuel (blocks.find last.next) s''
  | _, _, _ => none

/-- Only the last instruction of the block can be a jump or a return. -/
def Straight (bb : BasicBlock) : Prop :=
  ∀ insn ∈ bb.instructions.dropLast, kind insn.code = .op

/-- The diagram behind some operations. -/
def opsCode (insns : List Instruction) (c : Code) : Code :=
  insns.foldr (fun insn c => .op insn.code insn.k c) c

variable {m} {layout : Layout}

lemma eval_opsCode (insns : List Instruction) (c : Code) (s : σ) :
    (opsCode insns c).eval m s =
      match execOps m insns s with
      | .error r => r
      | .ok s' => c.eval m s' := by
  induction insns generalizing s with
  | nil => rfl
  | cons insn insns ih =>
    rw [opsCode, List.foldr_cons, Code.eval, execOps]
    cases m.exec insn.code insn.k s with
    | error r => rfl
    | ok s' => exact ih s'

lemma decodes_opsCode {insns : List Instruction} (h : ∀ insn ∈ insns, kind insn.code = .op)
    {program : List SockFilter} {c : Code} (hc : Decodes program c) :
    Decodes (insns.map (sockFilter layout) ++ program) (opsCode insns c) := by
  induction insns with
  | nil => exact hc
  | cons insn insns ih =>
    obtain ⟨hinsn, hinsns⟩ := List.forall_mem_cons.mp h
    exact @Decodes.op (sockFilter layout insn) _ _ hinsn (ih hinsns)

/-! ### One jump -/

lemma kind_ja : kind (bpfJmp + bpfJa) = .goto := by decide

lemma toNat_offset {w d : ℕ} (h : d < 2 ^ w) : (BitVec.ofInt w d).toNat = d := by
  rw [BitVec.ofInt_natCast, BitVec.toNat_ofNat, Nat.mod_eq_of_lt h]

/-- Over the "always" jumps behind a conditional jump, the diagram of the target. -/
lemma FarReaches.decodes {target : Option Ptr} {far : List Instruction} {j d : ℕ}
    (h : FarReaches target far j d) {program : List SockFilter} {c : Code}
    (hsize : far.length + d ≤ 2 ^ 32) (hc : Decodes (program.drop d) c) :
    Decodes ((far.map (sockFilter layout) ++ program).drop j) c := by
  have hskip : (far.map (sockFilter layout) ++ program).drop (far.length + d) =
      program.drop d := by
    rw [← List.drop_drop, List.drop_left' (by simp)]
  obtain rfl | ⟨k, hja, hk⟩ := h
  · rwa [hskip]
  · -- an "always" jump is there, and goes on to the target
    have hlt : j < far.length := (List.getElem?_eq_some_iff.mp hja).1
    have hlt' : j < (far.map (sockFilter layout) ++ program).length := by
      rw [List.length_append, List.length_map]
      omega
    have hget : (far.map (sockFilter layout) ++ program)[j] =
        sockFilter layout (relativeJa target k) := by
      apply Option.some_injective
      rw [← List.getElem?_eq_getElem, List.getElem?_append_left (by simpa using hlt),
        List.getElem?_map, hja]
      rfl
    have hk32 : (sockFilter layout (relativeJa target k)).k.toNat = k := toNat_offset (by omega)
    rw [List.drop_eq_getElem_cons hlt', hget]
    refine .jump (by exact kind_ja) ?_
    rwa [hk32, List.drop_drop, hk, hskip]

/-! ### The graph and the program -/

section Graph
variable {pool pool₀ : List BasicBlock} {blocks : TargetsToBlocks} {rest : List BlockPtr}

/-- The diagram of the program from a block on, which is that of the graph. -/
def Means (layout : Layout) (pool₀ pool : List BasicBlock) (blocks : TargetsToBlocks)
    (m : Machine σ ρ) (rest : List BlockPtr) (target : BlockPtr) : Prop :=
  ∃ c, Decodes ((programOf layout pool rest).drop (blockStart pool target rest)) c ∧
    ∀ fuel, rest.length ≤ fuel → ∀ s,
      runBlocks m pool₀ blocks fuel (some target) s = some (c.eval m s)

lemma blockStart_le {target : BlockPtr} (h : target ∈ rest) :
    blockStart pool target rest ≤ totalSize pool rest := by
  induction rest with
  | nil => simp at h
  | cons block rest ih =>
    rw [blockStart, totalSize_cons]
    split_ifs with heq
    · exact Nat.zero_le _
    · exact Nat.add_le_add_left (ih ((List.mem_cons.mp h).resolve_left (Ne.symm heq))) _

/-- The block in front of the others, whose jump has been made relative to them. -/
lemma Relative.means {block : BlockPtr} {bb : BasicBlock} {insns : List Instruction} {offset : ℤ}
    {last : Instruction} (h : Relative pool blocks bb rest insns) (hbb : pool₀[block]? = some bb)
    (hblock : pool[block]? = some ⟨insns, offset⟩)
    (hlast : bb.instructions.getLast? = some last) (hfollows : Follows blocks last rest)
    (hstraight : Straight bb) (hsize : totalSize pool (block :: rest) ≤ 2 ^ 32)
    (hmeans : ∀ target ∈ rest, Means layout pool₀ pool blocks m rest target) :
    Means layout pool₀ pool blocks m (block :: rest) block := by
  have hinit : bb.instructions = bb.instructions.dropLast ++ [last] :=
    (List.dropLast_append_getLast? _ hlast).symm
  rw [totalSize_cons, blockSize_of_getElem? hblock] at hsize
  rw [Means, blockStart_self, List.drop_zero, programOf_cons hblock]
  -- it is enough to know what the end of the block means
  suffices hend : ∃ tail c, insns = bb.instructions.dropLast ++ tail ∧
      Decodes (tail.map (sockFilter layout) ++ programOf layout pool rest) c ∧
      ∀ fuel, rest.length ≤ fuel → ∀ s s', execOps m bb.instructions.dropLast s = .ok s' →
        runBlocks m pool₀ blocks (fuel + 1) (some block) s = some (c.eval m s') by
    obtain ⟨tail, c, rfl, hdecodes, hrun⟩ := hend
    refine ⟨opsCode bb.instructions.dropLast c, ?_, ?_⟩
    · rw [List.map_append, List.append_assoc]
      exact decodes_opsCode hstraight hdecodes
    · intro fuel hfuel s
      obtain ⟨fuel, rfl⟩ := Nat.exists_eq_add_of_lt (show 0 < fuel from Nat.lt_of_lt_of_le
        (Nat.succ_pos _) hfuel)
      rw [Nat.zero_add, eval_opsCode]
      cases hops : execOps m bb.instructions.dropLast s with
      | error r => simp only [runBlocks, hbb, hlast, hops]
      | ok s' => exact hrun fuel (by simpa using hfuel) s s' hops
  cases h with
  | @plain last' hlast' hkind =>
    obtain rfl := Option.some_injective _ (hlast'.symm.trans hlast)
    obtain hkind | hkind := hkind
    · refine ⟨[last'], .ret last'.code last'.k, hinit,
        @Decodes.ret (sockFilter layout last') _ hkind, ?_⟩
      intro fuel _ s s' hops
      simp only [runBlocks, hbb, hlast, hops, hkind, Code.eval_ret]
    · rw [Follows, hkind] at hfollows
      obtain ⟨target, hhead, hfind⟩ := hfollows
      obtain ⟨c, hc, hrun⟩ := hmeans target (List.mem_of_mem_head? hhead)
      have hstart : blockStart pool target rest = 0 := by
        obtain ⟨tail, rfl⟩ := List.head?_eq_some_iff.mp hhead
        exact blockStart_self target tail
      rw [hstart, List.drop_zero] at hc
      refine ⟨[last'], .op last'.code last'.k c, hinit,
        @Decodes.op (sockFilter layout last') _ _ hkind hc, ?_⟩
      intro fuel hfuel s s' hops
      simp only [runBlocks, hbb, hlast, hops, hkind, Code.eval]
      cases m.exec last'.code last'.k s' with
      | error r => rfl
      | ok s'' =>
        simp only [hfind]
        exact hrun fuel hfuel s''
  | @goto last' target hlast' hkind htarget hfind =>
    obtain rfl := Option.some_injective _ (hlast'.symm.trans hlast)
    obtain ⟨c, hc, hrun⟩ := hmeans target htarget
    have hle : blockStart pool target rest ≤ totalSize pool rest := blockStart_le htarget
    rw [List.length_append, List.length_singleton] at hsize
    refine ⟨_, c, rfl, .jump (by exact hkind) ?_, ?_⟩
    · change Decodes ((programOf layout pool rest).drop
        (BitVec.ofInt 32 (blockStart pool target rest)).toNat) c
      rwa [toNat_offset (by omega)]
    · intro fuel hfuel s s' hops
      simp only [runBlocks, hbb, hlast, hops, hkind, hfind]
      exact hrun fuel hfuel s'
  | @branch last' t f hlast' hkind ht hfind hf hfindf =>
    obtain rfl := Option.some_injective _ (hlast'.symm.trans hlast)
    obtain ⟨ct, hct, hrunt⟩ := hmeans t ht
    obtain ⟨cf, hcf, hrunf⟩ := hmeans f hf
    have hlet : blockStart pool t rest ≤ totalSize pool rest := blockStart_le ht
    have hlef : blockStart pool f rest ≤ totalSize pool rest := blockStart_le hf
    obtain ⟨jt, jf, hoffsets, hjt, hjf, hreacht, hreachf⟩ :=
      relativeOffsets_spec last' (blockStart pool t rest) (blockStart pool f rest)
    rw [relativeBranch_eq, hoffsets, List.length_append, List.length_cons] at hsize
    refine ⟨_, .branch last'.code last'.k ct cf, rfl, ?_, ?_⟩
    · rw [relativeBranch_eq, hoffsets]
      refine @Decodes.branch (sockFilter layout { last' with
        rel := some (BitVec.ofInt 8 jt, BitVec.ofInt 8 jf) }) _ _ _ hkind ?_ ?_
      · change Decodes (List.drop (BitVec.ofInt 8 jt).toNat _) ct
        rw [toNat_offset (by omega)]
        exact hreacht.decodes (by omega) hct
      · change Decodes (List.drop (BitVec.ofInt 8 jf).toNat _) cf
        rw [toNat_offset (by omega)]
        exact hreachf.decodes (by omega) hcf
    · intro fuel hfuel s s' hops
      simp only [runBlocks, hbb, hlast, hops, hkind, Code.eval_branch]
      cases m.test last'.code last'.k s' with
      | true =>
        simp only [if_true, hfind]
        exact hrunt fuel hfuel s'
      | false =>
        simp only [Bool.false_eq_true, if_false, hfindf]
        exact hrunf fuel hfuel s'

/-- From every block on, the program does what the graph does. -/
lemma Laid.means (hlaid : Laid pool blocks pool₀ rest) (hsorted : Sorted pool₀ blocks rest)
    (hnodup : rest.Nodup)
    (hstraight : ∀ block ∈ rest, ∀ bb, pool₀[block]? = some bb → Straight bb)
    (hsize : totalSize pool rest ≤ 2 ^ 32) :
    ∀ target ∈ rest, Means layout pool₀ pool blocks m rest target := by
  induction rest with
  | nil => simp
  | cons block rest ih =>
    obtain ⟨⟨bb, last, hbb, hlast, hfollows⟩, hsorted⟩ := hsorted
    obtain ⟨hnot, hnodup⟩ := List.nodup_cons.mp hnodup
    obtain ⟨hblock, hothers⟩ := List.forall_mem_cons.mp hstraight
    have hmeans := ih (fun pre c post heq => hlaid (block :: pre) c post (congrArg _ heq)) hsorted
      hnodup hothers (by rw [totalSize_cons] at hsize; omega)
    obtain ⟨bb', insns, hbb', hinsns, hrelative⟩ := hlaid [] block rest rfl
    obtain rfl := Option.some_injective _ (hbb'.symm.trans hbb)
    intro target htarget
    obtain rfl | htarget := List.mem_cons.mp htarget
    · exact hrelative.means hbb hinsns hlast hfollows (hblock bb' hbb) hsize hmeans
    · obtain ⟨c, hc, hrun⟩ := hmeans target htarget
      have hne : block ≠ target := by
        rintro rfl
        exact hnot htarget
      refine ⟨c, ?_, fun fuel hfuel s => hrun fuel (Nat.le_of_succ_le hfuel) s⟩
      rw [programOf_cons hinsns, blockStart, if_neg hne, blockSize_of_getElem? hinsns,
        ← List.drop_drop, List.drop_left' (by simp)]
      exact hc

end Graph

/-- The emitted program and the sorted graph of the blocks return the same on every state of every
machine, as long as 32-bit offsets reach over the program. -/
theorem run_concatenateBasicBlocks (layout : Layout) {pool : List BasicBlock}
    {blocks : TargetsToBlocks} {first : BlockPtr} {rest : List BlockPtr}
    (hsorted : Sorted pool blocks (first :: rest)) (hnodup : (first :: rest).Nodup)
    (hstraight : ∀ block ∈ first :: rest, ∀ bb, pool[block]? = some bb → Straight bb) :
    ∃ pool' offset program,
      computeRelativeJumps blocks (first :: rest) pool = some (pool', offset) ∧
      concatenateBasicBlocks layout pool' (first :: rest) = some program ∧
      (program.length ≤ 2 ^ 32 → ∀ (m : Machine σ ρ) (s : σ), ∃ r, run m program s = some r ∧
        runBlocks m pool blocks (rest.length + 1) (some first) s = some r) := by
  obtain ⟨pool', hcompute, -, hlaid⟩ := exists_computeRelativeJumps hsorted hnodup
  have hsome : ∀ block ∈ first :: rest, (pool'[block]?).isSome := by
    intro block hmem
    obtain ⟨pre, post, heq⟩ := List.append_of_mem hmem
    obtain ⟨bb, insns, -, hblock, -⟩ := hlaid pre block post heq
    rw [hblock]
    rfl
  refine ⟨pool', _, _, hcompute, concatenateBasicBlocks_eq hsome, ?_⟩
  intro hsize m s
  rw [length_programOf] at hsize
  obtain ⟨c, hc, hrun⟩ :=
    @Laid.means _ _ m layout _ _ _ _ hlaid hsorted hnodup hstraight hsize first List.mem_cons_self
  rw [blockStart_self, List.drop_zero] at hc
  exact ⟨c.eval m s, hc.run_eq s, hrun _ le_rfl s⟩

theorem run_concatenateBasicBlocks_twoWay :
    ∃ pool' offset program,
      computeRelativeJumps [(1, 1), (2, 2)] [0, 1, 2] twoWay = some (pool', offset) ∧
      concatenateBasicBlocks ⟨id, id⟩ pool' [0, 1, 2] = some program ∧
      (program.length ≤ 2 ^ 32 → ∀ (m : Machine ℕ ℕ) (s : ℕ), ∃ r, run m program s = some r ∧
        runBlocks m twoWay [(1, 1), (2, 2)] 3 (some 0) s = some r) := by
  refine run_concatenateBasicBlocks ⟨id, id⟩ ?_ (by decide) ?_
  · refine ⟨⟨_, _, rfl, rfl, ?_⟩, ⟨_, _, rfl, rfl, trivial⟩, ⟨_, _, rfl, rfl, trivial⟩, trivial⟩
    exact ⟨⟨1, by decide, rfl⟩, 2, by decide, rfl⟩
  · have hshort : ∀ bb ∈ twoWay, Straight bb := by
      simp [twoWay, Straight]
    exact fun _ _ bb hbb => hshort bb (List.mem_of_getElem? hbb)

end Chromium.Seccomp
