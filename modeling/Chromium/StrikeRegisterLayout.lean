import Chromium.CritBit
import Chromium.FreeList
import Chromium.StrikeRegister

/-!
# The memory of the strike register

The packed words are read as a crit-bit tree over the bits of the stored values,
counted from the most significant bit of the first byte. The walks of the code
follow the tree, and dropping and splicing nodes change it as the abstract
operations do.
-/
namespace Chromium.StrikeRegister
open CritBit FreeList BitTree

section Packing

private lemma getElem_lowMask : ∀ (i : ℕ) (_ : i < 32), (255#32)[i] = decide (i < 8) := by
  decide

private lemma getElem_highMask :
    ∀ (i : ℕ) (_ : i < 32), (0xffffff00#32)[i] = decide (8 ≤ i) := by
  decide

private lemma getElem_byteMask : ∀ (i : ℕ) (_ : i < 8), (255#8)[i] = true := by
  decide

private lemma getElem_flag : ∀ (i : ℕ) (_ : i < 32), kExternalFlag[i] = decide (i = 23) := by
  decide

/-- A word whose upper 24 bits are replaced. -/
def repoint (w child : Word) : Word := (w &&& 0xff#32) ||| (child <<< 8)

lemma repoint_shift {w child : Word} (h : child.toNat < 2 ^ 24) :
    repoint w child >>> 8 = child := by
  have hlow : (w &&& 0xff#32).toNat = w.toNat % 2 ^ 8 := by
    rw [← Nat.and_two_pow_sub_one_eq_mod]
    rfl
  have hhigh : (child <<< 8).toNat = child.toNat <<< 8 := by
    rw [BitVec.toNat_shiftLeft, Nat.shiftLeft_eq]
    omega
  have hzero : (w.toNat % 2 ^ 8) >>> 8 = 0 := by
    rw [Nat.shiftRight_eq_div_pow]
    omega
  apply BitVec.eq_of_toNat_eq
  rw [repoint, BitVec.toNat_ushiftRight, BitVec.toNat_or, hlow, hhigh,
    Nat.shiftRight_or_distrib, hzero, Nat.zero_or, Nat.shiftLeft_shiftRight]

lemma repoint_low (w child : Word) : (repoint w child).setWidth 8 = w.setWidth 8 := by
  ext i hi
  simp [repoint, getElem_byteMask]

lemma repoint_mask (w child : Word) : repoint w child &&& 0xff#32 = w &&& 0xff#32 := by
  ext i hi
  simp only [repoint, BitVec.getElem_and, BitVec.getElem_or, BitVec.getElem_shiftLeft]
  have := getElem_lowMask i hi
  by_cases h : i < 8 <;> simp_all

/-- `DropNode` masks the other child where `Insert` shifts. -/
lemma mask_eq_repoint (w other : Word) :
    (w &&& 0xff#32) ||| (other &&& 0xffffff00#32) = repoint w (other >>> 8) := by
  ext i hi
  simp only [repoint, BitVec.getElem_and, BitVec.getElem_or, BitVec.getElem_shiftLeft]
  have := getElem_highMask i hi
  by_cases h : i < 8
  · simp_all
  · have : 8 + (i - 8) = i := by omega
    simp_all [Nat.not_lt.mpr]

private lemma lowByte_set (w : Word) (b : Byte) :
    ((w &&& 0xffffff00#32) ||| b.setWidth 32).setWidth 8 = b := by
  ext i hi
  simp

private lemma shift_set (w : Word) (b : Byte) :
    ((w &&& 0xffffff00#32) ||| b.setWidth 32) >>> 8 = w >>> 8 := by
  ext i hi
  rcases Nat.lt_or_ge (8 + i) 32 with h | h
  · simp [h, getElem_highMask, BitVec.getLsbD_eq_getElem]
  · simp [h]

lemma getLsbD_of_lt {i : Word} (h : i.toNat < 2 ^ 23) : i.getLsbD 23 = false := by
  rw [BitVec.getLsbD, Nat.testBit_lt_two_pow h]

lemma and_flag_eq_zero {i : Word} (h : i.toNat < 2 ^ 23) : i &&& kExternalFlag = 0 := by
  ext j hj
  have := getLsbD_of_lt h
  by_cases hj' : j = 23
  · subst hj'
    simpa [getElem_flag] using this
  · simp [getElem_flag, hj']

lemma or_flag_and_flag_ne_zero (i : Word) : (i ||| kExternalFlag) &&& kExternalFlag ≠ 0 := by
  intro hz
  have := congrArg (fun w : Word => w[23]) hz
  simp [getElem_flag] at this

lemma or_flag_and_not_flag {i : Word} (h : i.toNat < 2 ^ 23) :
    (i ||| kExternalFlag) &&& ~~~kExternalFlag = i := by
  ext j hj
  have := getLsbD_of_lt h
  by_cases hj' : j = 23
  · subst hj'
    simpa [getElem_flag] using this
  · simp [getElem_flag, hj']

lemma or_flag_lt {i : Word} (h : i.toNat < 2 ^ 23) : (i ||| kExternalFlag).toNat < 2 ^ 24 := by
  rw [BitVec.toNat_or]
  exact Nat.or_lt_two_pow (by omega) (by decide)

namespace InternalNode
variable (n : InternalNode) (d : Bool)

lemma setChild_eq (c : Word) : n.setChild d c = n.setData d (repoint (n.data d) c) := rfl

lemma child_setChild_self {c : Word} (h : c.toNat < 2 ^ 24) : (n.setChild d c).child d = c := by
  cases d <;> exact repoint_shift h

@[simp] lemma child_setChild_not (c : Word) : (n.setChild d c).child (!d) = n.child (!d) := by
  cases d <;> rfl

@[simp] lemma child_not_setChild (c : Word) : (n.setChild (!d) c).child d = n.child d := by
  cases d <;> rfl

@[simp] lemma critbyte_setChild (c : Word) : (n.setChild d c).critbyte = n.critbyte := by
  cases d
  · exact repoint_low _ _
  · rfl

@[simp] lemma otherbits_setChild (c : Word) : (n.setChild d c).otherbits = n.otherbits := by
  cases d
  · rfl
  · exact repoint_low _ _

@[simp] lemma child_setCritByte (b : Byte) : (n.setCritByte b).child d = n.child d := by
  cases d
  · exact shift_set _ _
  · rfl

@[simp] lemma child_setOtherBits (b : Byte) : (n.setOtherBits b).child d = n.child d := by
  cases d
  · rfl
  · exact shift_set _ _

@[simp] lemma critbyte_setCritByte (b : Byte) : (n.setCritByte b).critbyte = b :=
  lowByte_set _ _

@[simp] lemma critbyte_setOtherBits (b : Byte) : (n.setOtherBits b).critbyte = n.critbyte := rfl

@[simp] lemma otherbits_setOtherBits (b : Byte) : (n.setOtherBits b).otherbits = b :=
  lowByte_set _ _

end InternalNode

lemma timeFromBytes_bytes (w : Word) : timeFromBytes ((w >>> 24).setWidth 8)
    ((w >>> 16).setWidth 8) ((w >>> 8).setWidth 8) (w.setWidth 8) = w := by
  ext i hi
  simp only [timeFromBytes, BitVec.getElem_or, BitVec.getElem_shiftLeft, BitVec.getElem_setWidth,
    BitVec.getLsbD_setWidth, BitVec.getLsbD_ushiftRight]
  interval_cases i <;> simp

lemma ExternalNode.word_setWord (v : ExternalNode) (w : Word) : (v.setWord w).word = w :=
  timeFromBytes_bytes w

end Packing

section Bits

/-- The bits of a value, from the most significant one of the first byte. -/
def bit (v : ExternalNode) (j : ℕ) : Bool := (v.byte (j / 8)).getMsbD (j % 8)

/-- All the bits of a byte except bit `j`, counted from the most significant one. -/
def allBut (j : ℕ) : Byte := ~~~((0x80 : Byte) >>> j)

lemma foldOtherBits_spec : ∀ x : Byte, x ≠ 0 →
    ∃ j < 8, foldOtherBits x = allBut j ∧ x.getMsbD j = true ∧ ∀ i < j, x.getMsbD i = false := by
  decide +kernel

lemma direction_allBut : ∀ j < 8, ∀ b : Byte, direction (allBut j) b = b.getMsbD j := by
  decide +kernel

lemma allBut_or_eq : ∀ j < 8, ∀ b : Byte, allBut j ||| b = 0xff ↔ b.getMsbD j = true := by
  decide +kernel

lemma allBut_lt_allBut : ∀ j < 8, ∀ j' < 8, allBut j < allBut j' ↔ j < j' := by
  decide +kernel

lemma allBut_inj : ∀ j < 8, ∀ j' < 8, allBut j = allBut j' ↔ j = j' := by
  decide +kernel

/-- The byte and the folded bits that `Insert` computes name the first bit in which
two values differ. -/
lemma firstDiff_of_ne {v w : ExternalNode} (h : w ≠ v) :
    ∃ (d : Fin 24) (c : ℕ), State.differingByte v w = some d ∧ c < 192 ∧ c / 8 = d ∧
      foldOtherBits (v d ^^^ w d) = allBut (c % 8) ∧ FirstDiff bit c v w := by
  obtain ⟨i, hi⟩ := Function.ne_iff.mp h.symm
  have hsome : (State.differingByte v w).isSome := by
    rw [State.differingByte, Fin.isSome_find?_iff]
    refine ⟨i, ?_⟩
    simpa [BitVec.xor_eq_zero_iff] using hi
  obtain ⟨d, hd⟩ := Option.isSome_iff_exists.mp hsome
  obtain ⟨hne, hbefore⟩ := Fin.find?_eq_some_iff.mp hd
  obtain ⟨j, hj, hfold, hset, hclear⟩ := foldOtherBits_spec (v d ^^^ w d) (by simpa using hne)
  have hbyte : ∀ (u : ExternalNode) (k : ℕ) (hk : k < 24), u.byte k = u ⟨k, hk⟩ :=
    fun u k hk => dif_pos hk
  have hdlt := d.isLt
  have hdiv : (8 * d.val + j) / 8 = d := by omega
  have hmod : (8 * d.val + j) % 8 = j := by omega
  refine ⟨d, 8 * d + j, hd, by omega, hdiv, by rw [hmod, hfold], fun k hk => ?_, ?_⟩
  · rw [bit, bit]
    rcases Nat.lt_or_ge (k / 8) d with hlt | hge
    · have := hbefore ⟨k / 8, by omega⟩ hlt
      rw [hbyte v _ (by omega), hbyte w _ (by omega)]
      rw [decide_eq_false_iff_not, not_not] at this
      rw [BitVec.xor_eq_zero_iff.mp this]
    · have hkd : k / 8 = d := by omega
      have := hclear (k % 8) (by omega)
      rw [BitVec.getMsbD_xor] at this
      rw [hkd, hbyte v d hdlt, hbyte w d hdlt]
      simpa using this
  · rw [bit, bit, hdiv, hmod, hbyte v d hdlt, hbyte w d hdlt]
    rw [BitVec.getMsbD_xor] at hset
    simpa using hset

/-- The node branches on bit `c`. -/
structure Branches (n : InternalNode) (c : ℕ) : Prop where
  lt : c < 192
  critbyte : n.critbyte = BitVec.ofNat 8 (c / 8)
  otherbits : n.otherbits = allBut (c % 8)

namespace Branches
variable {n : InternalNode} {c : ℕ}

lemma critbyte_toNat (h : Branches n c) : n.critbyte.toNat = c / 8 := by
  have := h.lt
  rw [h.critbyte, BitVec.toNat_ofNat, Nat.mod_eq_of_lt (by omega)]

lemma direction (h : Branches n c) (v : ExternalNode) :
    direction n.otherbits (v.byte n.critbyte.toNat) = bit v c := by
  rw [h.critbyte_toNat, h.otherbits, direction_allBut _ (Nat.mod_lt _ (by omega)), bit]

lemma setChild (h : Branches n c) (d : Bool) (p : Word) : Branches (n.setChild d p) c :=
  ⟨h.lt, by rw [InternalNode.critbyte_setChild, h.critbyte],
    by rw [InternalNode.otherbits_setChild, h.otherbits]⟩

/-- The order in which `Insert` compares two critical bits. -/
lemma compare (h : Branches n c) {c' : ℕ} (hc' : c' < 192) :
    ((n.critbyte > BitVec.ofNat 8 (c' / 8) ∨
      (n.critbyte = BitVec.ofNat 8 (c' / 8) ∧ n.otherbits > allBut (c' % 8))) ↔ c' < c) ∧
    ((n.critbyte = BitVec.ofNat 8 (c' / 8) ∧ n.otherbits = allBut (c' % 8)) ↔ c' = c) := by
  have hlt := h.lt
  have hbyte : (BitVec.ofNat 8 (c' / 8)).toNat = c' / 8 := by
    rw [BitVec.toNat_ofNat, Nat.mod_eq_of_lt (by omega)]
  rw [gt_iff_lt, gt_iff_lt, h.otherbits, allBut_lt_allBut _ (Nat.mod_lt _ (by omega)) _
    (Nat.mod_lt _ (by omega)), allBut_inj _ (Nat.mod_lt _ (by omega)) _
    (Nat.mod_lt _ (by omega)), BitVec.lt_def, ← BitVec.toNat_inj, h.critbyte_toNat, hbyte]
  constructor <;> omega

end Branches

end Bits

/-- The entries of a register, with the indices of the nodes that hold them. -/
abbrev Entries := BitTree Word Word ExternalNode

section Representation

/-- The pointer `p` leads to the tree `t` in the memory of the nodes. -/
def Rep (ints : Word → InternalNode) (exts : Word → ExternalNode) : Word → Entries → Prop
  | p, leaf i v => p = i ||| kExternalFlag ∧ i.toNat < 2 ^ 23 ∧ exts i = v
  | p, node i c l r =>
    p = i ∧ i.toNat < 2 ^ 23 ∧ Branches (ints i) c ∧
      Rep ints exts ((ints i).child false) l ∧ Rep ints exts ((ints i).child true) r

/-- The indices of the external nodes of a tree. -/
def labels (t : Entries) : List Word := t.leaves.map Prod.fst

variable {ints ints' : Word → InternalNode} {exts exts' : Word → ExternalNode} {p : Word}
  {t : Entries}

@[simp] lemma labels_leaf (i : Word) (v : ExternalNode) :
    labels (leaf i v : Entries) = [i] := rfl

@[simp] lemma labels_node (i : Word) (c : ℕ) (l r : Entries) :
    labels (node i c l r) = labels l ++ labels r := by
  simp [labels]

lemma Rep.congr (h : Rep ints exts p t) (hi : ∀ i ∈ t.inner, ints' i = ints i)
    (he : ∀ i ∈ labels t, exts' i = exts i) : Rep ints' exts' p t := by
  induction t generalizing p with
  | leaf i v =>
    obtain ⟨hp, hlt, hv⟩ := h
    exact ⟨hp, hlt, (he i (by simp)).trans hv⟩
  | node i c l r ihl ihr =>
    obtain ⟨hp, hlt, hb, hl, hr⟩ := h
    have hself := hi i (by simp)
    refine ⟨hp, hlt, hself ▸ hb, ?_, ?_⟩
    · rw [hself]
      exact ihl hl (fun j hj => hi j (by simp [hj])) fun j hj => he j (by simp [hj])
    · rw [hself]
      exact ihr hr (fun j hj => hi j (by simp [hj])) fun j hj => he j (by simp [hj])

lemma Rep.lt (h : Rep ints exts p t) : p.toNat < 2 ^ 24 := by
  cases t with
  | leaf i v =>
    obtain ⟨rfl, hlt, -⟩ := h
    exact or_flag_lt hlt
  | node i c l r =>
    obtain ⟨rfl, hlt, -⟩ := h
    omega

lemma Rep.value {e : Word × ExternalNode} (h : Rep ints exts p t) (he : e ∈ t.leaves) :
    exts e.1 = e.2 ∧ e.1.toNat < 2 ^ 23 := by
  induction t generalizing p with
  | leaf i v =>
    obtain ⟨-, hlt, hv⟩ := h
    rw [leaves_leaf, List.mem_singleton] at he
    exact he ▸ ⟨hv, hlt⟩
  | node i c l r ihl ihr =>
    obtain ⟨-, -, -, hl, hr⟩ := h
    rw [leaves_node, List.mem_append] at he
    exact he.elim (ihl hl) (ihr hr)

/-- One step of any walk: the child on side `d`. -/
lemma Rep.child {i : Word} {c : ℕ} {l r : Entries} (h : Rep ints exts p (node i c l r))
    (d : Bool) : Rep ints exts ((ints p).child d) (if d then r else l) := by
  obtain ⟨rfl, -, -, hl, hr⟩ := h
  cases d
  · exact hl
  · exact hr

/-- A node whose subtree on side `d` was replaced. -/
def withChild (d : Bool) (i : Word) (c : ℕ) (l r x : Entries) : Entries :=
  if d then node i c l x else node i c x r

lemma Rep.withChild {i : Word} {c : ℕ} {l r x : Entries} {d : Bool}
    (h : Rep ints exts p (node i c l r))
    (hself : ints' i = ints i ∨ ∃ w, ints' i = (ints i).setChild d w)
    (hx : Rep ints' exts' ((ints' i).child d) x)
    (hints : ∀ j ∈ (if d then l else r).inner, ints' j = ints j)
    (hexts : ∀ j ∈ labels (if d then l else r), exts' j = exts j) :
    Rep ints' exts' p (withChild d i c l r x) := by
  obtain ⟨rfl, hlt, hb, hl, hr⟩ := h
  have hb' : Branches (ints' p) c := by
    rcases hself with hself | ⟨w, hself⟩
    · exact hself ▸ hb
    · exact hself ▸ hb.setChild d w
  have hother : (ints' p).child (!d) = (ints p).child (!d) := by
    rcases hself with hself | ⟨w, hself⟩ <;> rw [hself]
    exact InternalNode.child_setChild_not _ _ _
  cases d
  · refine ⟨rfl, hlt, hb', hx, ?_⟩
    rw [show true = !false from rfl, hother]
    exact hr.congr hints hexts
  · refine ⟨rfl, hlt, hb', ?_, hx⟩
    rw [show false = !true from rfl, hother]
    exact hl.congr hints hexts

end Representation

section Places

/-- The place is one of the two words of node `i`. -/
def Place.In (q : Place) (i : Word) : Prop := ∃ d, q = .data i d

variable {s : State} {q q' : Place} {i : Word} {w : Word}

lemma store_externalNodes : (s.store q w).externalNodes = s.externalNodes := by
  cases q <;> rfl

lemma store_internalNodes (h : ¬ q.In i) :
    (s.store q w).internalNodes i = s.internalNodes i := by
  cases q with
  | head => rfl
  | data j d =>
    refine Function.update_of_ne ?_ _ _
    rintro rfl
    exact h ⟨d, rfl⟩

lemma load_store_self : (s.store q w).load q = w := by
  cases q with
  | head => rfl
  | data j d => cases d <;> simp [State.store, State.load, InternalNode.setData, InternalNode.data]

lemma load_store_of_ne (h : q' ≠ q) : (s.store q w).load q' = s.load q' := by
  cases q with
  | head =>
    cases q' with
    | head => exact absurd rfl h
    | data j' d' => rfl
  | data j d =>
    cases q' with
    | head => rfl
    | data j' d' =>
      by_cases hj : j' = j
      · subst hj
        have hd : d' ≠ d := fun hd => h (by rw [hd])
        cases d <;> cases d' <;>
          simp_all [State.store, State.load, InternalNode.setData, InternalNode.data]
      · simp [State.store, State.load, hj]

lemma load_setInternalNode (h : ¬ q.In i) (n : InternalNode) :
    (s.setInternalNode i n).load q = s.load q := by
  cases q with
  | head => rfl
  | data j d =>
    have hj : j ≠ i := by
      rintro rfl
      exact h ⟨d, rfl⟩
    simp [State.setInternalNode, State.load, hj]

lemma store_repoint (s : State) (i : Word) (d : Bool) (w : Word) :
    (s.store (.data i d) (repoint (s.load (.data i d)) w)).internalNodes i =
      (s.internalNodes i).setChild d w := by
  simp [State.store, State.load, InternalNode.setChild_eq]

end Places

section Walks
variable {s : State} {t : Entries} {p : Word} {fuel : ℕ}

lemma Rep.isInternal {ints : Word → InternalNode} {exts : Word → ExternalNode} {i : Word}
    {c : ℕ} {l r : Entries} (h : Rep ints exts p (node i c l r)) : p &&& kExternalFlag = 0 := by
  obtain ⟨rfl, hlt, -⟩ := h
  exact and_flag_eq_zero hlt

lemma exists_succ_of_leaves (h : t.leaves.length ≤ fuel) : ∃ f, fuel = f + 1 :=
  ⟨fuel - 1, by have := leaves_length_pos t; omega⟩

lemma leaves_child_length {i : Word} {c : ℕ} {l r : Entries} (d : Bool)
    (h : (node i c l r).leaves.length ≤ fuel + 1) :
    (if d then r else l).leaves.length ≤ fuel := by
  have hl := leaves_length_pos l
  have hr := leaves_length_pos r
  rw [leaves_node, List.length_append] at h
  cases d <;> simp only [Bool.false_eq_true, if_true, if_false] <;> omega

/-- `BestMatch` is the search of the tree. -/
lemma bestMatchLoop_eq (v : ExternalNode)
    (h : Rep s.internalNodes s.externalNodes p t) (hfuel : t.leaves.length ≤ fuel) :
    s.bestMatchLoop v fuel p = some (t.find bit v).1 := by
  induction t generalizing p fuel with
  | leaf i v' =>
    obtain ⟨fuel, rfl⟩ := exists_succ_of_leaves hfuel
    obtain ⟨rfl, hlt, -⟩ := h
    rw [State.bestMatchLoop, if_neg (or_flag_and_flag_ne_zero i),
      or_flag_and_not_flag hlt, find]
  | node i c l r ihl ihr =>
    obtain ⟨fuel, rfl⟩ := exists_succ_of_leaves hfuel
    have hb : Branches (s.internalNodes p) c := by
      obtain ⟨rfl, -, hb, -⟩ := h
      exact hb
    have hchild := h.child (bit v c)
    have hlen := leaves_child_length (bit v c) hfuel
    rw [State.bestMatchLoop, if_pos h.isInternal]
    dsimp only
    rw [hb.direction, find]
    split_ifs at hchild hlen ⊢ with hbit
    · exact ihr hchild hlen
    · exact ihl hchild hlen

/-- The place lies outside the nodes of the tree. -/
def Place.Off (q : Place) (t : Entries) : Prop := ∀ i ∈ t.inner, ¬ q.In i

lemma Place.off_child {i : Word} {c : ℕ} {l r : Entries}
    (hnodup : (node i c l r).inner.Nodup) (d : Bool) :
    (Place.data i d).Off l ∧ (Place.data i d).Off r := by
  rw [inner_node, List.nodup_cons, List.mem_append, not_or] at hnodup
  constructor
  all_goals
    rintro j hj ⟨d', hd⟩
    cases hd
  · exact hnodup.1.1 hj
  · exact hnodup.1.2 hj

/-- A place that is `q` or a left child below it. -/
lemma Place.ne_of_off {q q' : Place} {t : Entries} (hoff : q.Off t) {i : Word} (hi : i ∈ t.inner)
    {d : Bool} (hq : q' = .data i d) : q ≠ q' := by
  rintro rfl
  exact hoff i hi ⟨d, hq⟩

/-- The tree after its first leaf is unlinked: the parent `a` of that leaf has
any new contents `n`, and what pointed to it points to the leaf's sibling. -/
def unlink (s : State) (q : Place) (a : Word) (n : InternalNode) : State :=
  let s' := s.setInternalNode a n
  s'.store q (repoint (s'.load q) ((s.internalNodes a).child true))

/-- The walk of `DropNode` ends at the first leaf, and unlinking there drops it. -/
lemma dropLoop_spec {q : Place} (whereq : Option Place) {a : Word} {t' : Entries}
    (h : Rep s.internalNodes s.externalNodes (s.load q >>> 8) t) (hnodup : t.inner.Nodup)
    (hoff : q.Off t) (hdrop : t.dropFirst = some (a, t')) (hfuel : t.leaves.length ≤ fuel) :
    ∃ q', s.dropLoop fuel (s.load q >>> 8) q whereq =
        some (t.first.1 ||| kExternalFlag, .data a false, some q') ∧
      s.load q' >>> 8 = a ∧ ¬ q'.In a ∧ (q' = q ∨ ∃ i ∈ t.inner, q' = .data i false) ∧
      ∀ n, Rep (unlink s q' a n).internalNodes s.externalNodes
        ((unlink s q' a n).load q >>> 8) t' := by
  induction t generalizing q whereq fuel t' with
  | leaf => simp [dropFirst] at hdrop
  | node i c l r ihl ihr =>
    obtain ⟨fuel, rfl⟩ := exists_succ_of_leaves hfuel
    have hlen := leaves_child_length false hfuel
    have hi : s.load q >>> 8 = i := h.1
    have hq : ¬ q.In i := hoff i (by simp)
    have hleft : Rep _ _ _ l := h.child false
    have hright : Rep _ _ _ r := h.child true
    rw [hi] at hleft hright
    have hnd := hnodup
    rw [inner_node, List.nodup_cons, List.mem_append, not_or, List.nodup_append] at hnd
    obtain ⟨⟨hil, hir⟩, hndl, hndr, hdisj⟩ := hnd
    rw [State.dropLoop, if_pos h.isInternal, hi]
    rw [dropFirst] at hdrop
    split at hdrop
    next hl =>
      obtain ⟨b, v, rfl⟩ := dropFirst_eq_none.mp hl
      cases hdrop
      obtain ⟨hb, hlt, -⟩ := hleft
      obtain ⟨fuel, rfl⟩ := exists_succ_of_leaves hlen
      refine ⟨q, ?_, hi, hq, .inl rfl, fun n => ?_⟩
      · have hb' : (s.internalNodes a).data false >>> 8 = b ||| kExternalFlag := hb
        rw [hb', State.dropLoop, if_neg (or_flag_and_flag_ne_zero b)]
        rfl
      · rw [unlink, load_store_self, repoint_shift hright.lt]
        refine hright.congr (fun j hj => ?_) fun _ _ => rfl
        have hja : j ≠ a := fun hja => hir (hja ▸ hj)
        rw [store_internalNodes (hoff j (by simp [hj]))]
        exact Function.update_of_ne hja _ _
    next a' l' hl =>
      cases hdrop
      obtain ⟨hoffl, hoffr⟩ := Place.off_child hnodup false
      have hload : s.load (.data i false) >>> 8 = (s.internalNodes i).child false := rfl
      have ha : a ∈ l.inner := (inner_dropFirst_perm hl).mem_iff.mpr (by simp)
      have hai : i ≠ a := fun hai => hil (hai ▸ ha)
      obtain ⟨q', heq, hq', hnotin, hplace, hrep⟩ :=
        ihl (q := .data i false) (some q) (hload ▸ hleft) hndl hoffl hl hlen
      refine ⟨q', heq, hq', hnotin, .inr ?_, fun n => ?_⟩
      · rcases hplace with rfl | ⟨j, hj, rfl⟩
        · exact ⟨i, by simp, rfl⟩
        · exact ⟨j, by simp [hj], rfl⟩
      have hmem : ∃ j ∈ i :: l.inner, q' = .data j false := by
        rcases hplace with rfl | ⟨j, hj, rfl⟩
        · exact ⟨i, by simp, rfl⟩
        · exact ⟨j, by simp [hj], rfl⟩
      have hfix : (unlink s q' a n).load q = s.load q := by
        obtain ⟨j, hj, hq'⟩ := hmem
        have hj' : j ∈ (node i c l r).inner := by
          rw [inner_node, ← List.cons_append]
          exact List.mem_append_left _ hj
        rw [unlink, load_store_of_ne (Place.ne_of_off hoff hj' hq'),
          load_setInternalNode (hoff a (by simp [ha]))]
      rw [hfix]
      refine h.withChild (d := false) ?_ (hrep n) ?_ ?_
      · -- the word of node `i` that was changed, if any, is its left child
        have hset : (s.setInternalNode a n).internalNodes i = s.internalNodes i :=
          Function.update_of_ne hai _ _
        rcases hplace with rfl | ⟨j, hj, rfl⟩
        · refine .inr ⟨(s.internalNodes a).child true, ?_⟩
          rw [unlink, store_repoint, hset]
        · refine .inl ?_
          rw [unlink, store_internalNodes, hset]
          rintro ⟨d, hd⟩
          cases hd
          exact hil hj
      · intro j hj
        have hja : j ≠ a := fun hja => hdisj a ha j hj hja.symm
        rw [unlink, store_internalNodes]
        · exact Function.update_of_ne hja _ _
        · rintro ⟨d, rfl⟩
          obtain ⟨j', hj', hd⟩ := hmem
          cases hd
          rcases List.mem_cons.mp hj' with rfl | hj'
          · exact hir hj
          · exact hdisj j hj' j hj rfl
      · exact fun _ _ => rfl

/-- Node `i` is ready to branch on bit `c`, with the new value `v` below it. -/
structure NewNode (s : State) (i e : Word) (c : ℕ) (v : ExternalNode) : Prop where
  inner_lt : i.toNat < 2 ^ 23
  label_lt : e.toNat < 2 ^ 23
  branches : Branches (s.internalNodes i) c
  child : (s.internalNodes i).child (bit v c) = e ||| kExternalFlag
  value : s.externalNodes e = v

lemma splice_eq (s : State) (q : Place) (i : Word) (d : Bool) :
    s.splice q i d =
      (s.setInternalNode i ((s.internalNodes i).setChild (!d) (s.load q >>> 8))).store q
        (repoint ((s.setInternalNode i
          ((s.internalNodes i).setChild (!d) (s.load q >>> 8))).load q) i) := rfl

lemma splice_externalNodes (s : State) (q : Place) (i : Word) (d : Bool) :
    (s.splice q i d).externalNodes = s.externalNodes := by
  rw [splice_eq, store_externalNodes]
  rfl

lemma splice_low (s : State) (q : Place) (i : Word) (d : Bool) :
    (s.splice q i d).internalNodeHead &&& 0xff#32 = s.internalNodeHead &&& 0xff#32 := by
  cases q with
  | head => exact repoint_mask _ _
  | data j d' => rfl

/-- Splicing above a tree joins it with the new leaf. -/
lemma NewNode.join {q : Place} {i e : Word} {c : ℕ} {v : ExternalNode} (hnew : NewNode s i e c v)
    (h : Rep s.internalNodes s.externalNodes (s.load q >>> 8) t) (hoff : q.Off t)
    (hq : ¬ q.In i) (hi : i ∉ t.inner) :
    Rep (s.splice q i (bit v c)).internalNodes s.externalNodes
      ((s.splice q i (bit v c)).load q >>> 8) (join bit i c e v t) := by
  have hself : (s.splice q i (bit v c)).internalNodes i =
      (s.internalNodes i).setChild (!bit v c) (s.load q >>> 8) := by
    rw [splice_eq, store_internalNodes hq]
    exact Function.update_self _ _ _
  have hrest : ∀ j ∈ t.inner,
      (s.splice q i (bit v c)).internalNodes j = s.internalNodes j := fun j hj => by
    rw [splice_eq, store_internalNodes (hoff j hj)]
    have hji : j ≠ i := fun hji => hi (hji ▸ hj)
    exact Function.update_of_ne hji _ _
  have hb := hnew.branches.setChild (!bit v c) (s.load q >>> 8)
  have htree := h.congr hrest fun _ _ => rfl
  have hold : ((s.splice q i (bit v c)).internalNodes i).child (!bit v c) = s.load q >>> 8 := by
    rw [hself, InternalNode.child_setChild_self _ _ h.lt]
  have hleaf : ((s.splice q i (bit v c)).internalNodes i).child (bit v c) =
      e ||| kExternalFlag := by
    rw [hself, InternalNode.child_not_setChild, hnew.child]
  have hroot : (s.splice q i (bit v c)).load q >>> 8 = i := by
    have := hnew.inner_lt
    rw [splice_eq, load_store_self, repoint_shift (by omega)]
  rw [hroot, BitTree.join]
  rw [← hself] at hb
  have hnewleaf : Rep (s.splice q i (bit v c)).internalNodes s.externalNodes
      (e ||| kExternalFlag) (leaf e v) := ⟨rfl, hnew.label_lt, hnew.value⟩
  cases hbit : bit v c
  · simp only [hbit, Bool.not_false] at hb hold hleaf htree hnewleaf
    exact ⟨rfl, hnew.inner_lt, hb, hleaf ▸ hnewleaf, hold ▸ htree⟩
  · simp only [hbit, Bool.not_true] at hb hold hleaf htree hnewleaf
    exact ⟨rfl, hnew.inner_lt, hb, hold ▸ htree, hleaf ▸ hnewleaf⟩

lemma insert_node_eq {i j e : Word} {c c' : ℕ} {v : ExternalNode} {l r : Entries} (h : ¬ c < c') :
    (node j c' l r : Entries).insert bit i c e v =
      withChild (bit v c') j c' l r
        ((if bit v c' then r else l).insert bit i c e v) := by
  rw [BitTree.insert, if_neg h, withChild]
  split_ifs <;> rfl

/-- The walk of `Insert` stops where the new node belongs. -/
lemma whereLoop_spec {q : Place} {i e : Word} {c lo : ℕ} {v : ExternalNode}
    (hnew : NewNode s i e c v)
    (h : Rep s.internalNodes s.externalNodes (s.load q >>> 8) t) (hnodup : t.inner.Nodup)
    (hoff : q.Off t) (hq : ¬ q.In i) (hi : i ∉ t.inner) (hwf : Wf bit lo t)
    (hc : FirstDiff bit c v (t.find bit v).2) (hfuel : t.leaves.length ≤ fuel) :
    ∃ q', s.whereLoop v (BitVec.ofNat 8 (c / 8)) (allBut (c % 8)) fuel q = some q' ∧
      (q' = q ∨ ∃ j ∈ t.inner, ∃ d, q' = .data j d) ∧
      Rep (s.splice q' i (bit v c)).internalNodes s.externalNodes
        ((s.splice q' i (bit v c)).load q >>> 8) (t.insert bit i c e v) := by
  have hc192 := hnew.branches.lt
  induction t generalizing q fuel lo with
  | leaf i' v' =>
    obtain ⟨fuel, rfl⟩ := exists_succ_of_leaves hfuel
    refine ⟨q, ?_, .inl rfl, hnew.join h hoff hq hi⟩
    rw [State.whereLoop, h.1, if_neg (or_flag_and_flag_ne_zero i')]
  | node j c' l r ihl ihr =>
    obtain ⟨fuel, rfl⟩ := exists_succ_of_leaves hfuel
    have hj : s.load q >>> 8 = j := h.1
    have hb : Branches (s.internalNodes j) c' := h.2.2.1
    obtain ⟨hlt, heq⟩ := hb.compare hc192
    have hne := hwf.crit_ne hc
    rw [State.whereLoop, if_pos h.isInternal]
    dsimp only
    rw [hj]
    by_cases hcc : c < c'
    · refine ⟨q, ?_, .inl rfl, ?_⟩
      · rcases hlt.mpr hcc with hgt | hgt
        · rw [if_pos hgt]
        · split_ifs
          · rfl
          · rfl
      · rw [BitTree.insert, if_pos hcc]
        exact hnew.join h hoff hq hi
    · obtain ⟨hgt, hgt'⟩ := not_or.mp (mt hlt.mp hcc)
      rw [if_neg hgt, if_neg hgt', if_neg (mt heq.mp (Ne.symm hne)), hb.direction,
        insert_node_eq hcc]
      have hnd := hnodup
      rw [inner_node, List.nodup_cons, List.mem_append, not_or, List.nodup_append] at hnd
      obtain ⟨⟨hjl, hjr⟩, hndl, hndr, hdisj⟩ := hnd
      rw [inner_node, List.mem_cons, List.mem_append, not_or, not_or] at hi
      obtain ⟨hij, hil, hir⟩ := hi
      obtain ⟨-, hwl, hwr, -⟩ := hwf
      obtain ⟨hoffl, hoffr⟩ := Place.off_child hnodup (bit v c')
      have hchild := h.child (bit v c')
      have hlen := leaves_child_length (bit v c') hfuel
      have hin : ¬ (Place.data j (bit v c')).In i := by
        rintro ⟨d, hd⟩
        cases hd
        exact hij rfl
      rw [hj] at hchild
      rw [find] at hc
      obtain ⟨q', hwalk, hplace, hrep⟩ : ∃ q', s.whereLoop v (BitVec.ofNat 8 (c / 8))
            (allBut (c % 8)) fuel (.data j (bit v c')) = some q' ∧
          (q' = .data j (bit v c') ∨
            ∃ k ∈ (if bit v c' then r else l).inner, ∃ d, q' = .data k d) ∧
          Rep (s.splice q' i (bit v c)).internalNodes s.externalNodes
            ((s.splice q' i (bit v c)).load (.data j (bit v c')) >>> 8)
            ((if bit v c' then r else l).insert bit i c e v) := by
        split_ifs at hc hchild hlen ⊢
        · exact ihr hchild hndr hoffr hin hir hwr hc hlen
        · exact ihl hchild hndl hoffl hin hil hwl hc hlen
      have hside : ∀ k ∈ (if bit v c' then r else l).inner, k ∈ l.inner ++ r.inner := by
        intro k hk
        rw [List.mem_append]
        split_ifs at hk
        · exact .inr hk
        · exact .inl hk
      have hother : ∀ k ∈ (if bit v c' then l else r).inner,
          k ≠ i ∧ k ≠ j ∧ k ∉ (if bit v c' then r else l).inner := by
        intro k hk
        split_ifs at hk ⊢
        · exact ⟨fun hki => hil (hki ▸ hk), fun hkj => hjl (hkj ▸ hk),
            fun hkr => hdisj k hk k hkr rfl⟩
        · exact ⟨fun hki => hir (hki ▸ hk), fun hkj => hjr (hkj ▸ hk),
            fun hkl => hdisj k hkl k hk rfl⟩
      refine ⟨q', hwalk, .inr ?_, ?_⟩
      · rcases hplace with rfl | ⟨k, hk, d, rfl⟩
        · exact ⟨j, by simp, _, rfl⟩
        · exact ⟨k, List.mem_cons_of_mem j (hside k hk), d, rfl⟩
      have hfix : (s.splice q' i (bit v c)).load q = s.load q := by
        have hqq' : q ≠ q' := by
          rcases hplace with hd | ⟨k, hk, d, hd⟩
          · exact Place.ne_of_off hoff (by simp) hd
          · exact Place.ne_of_off hoff (List.mem_cons_of_mem j (hside k hk)) hd
        rw [splice_eq, load_store_of_ne hqq', load_setInternalNode hq]
      rw [hfix]
      refine h.withChild ?_ hrep (fun k hk => ?_) fun _ _ => rfl
      · have hset : ∀ n, (s.setInternalNode i n).internalNodes j = s.internalNodes j :=
          fun n => Function.update_of_ne (Ne.symm hij) _ _
        rcases hplace with rfl | ⟨k, hk, d, rfl⟩
        · refine .inr ⟨i, ?_⟩
          rw [splice_eq, store_repoint, hset]
        · refine .inl ?_
          rw [splice_eq, store_internalNodes, hset]
          rintro ⟨d', hd⟩
          cases hd
          exact (List.mem_append.mp (hside j hk)).elim hjl hjr
      · obtain ⟨hki, hkj, hkside⟩ := hother k hk
        rw [splice_eq, store_internalNodes]
        · exact Function.update_of_ne hki _ _
        · rintro ⟨d, rfl⟩
          rcases hplace with hd | ⟨k', hk', d', hd⟩
          · cases hd
            exact hkj rfl
          · cases hd
            exact hkside hk'

end Walks

end Chromium.StrikeRegister
