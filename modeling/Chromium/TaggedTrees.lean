import Mathlib.Data.List.Flatten
import Mathlib.Tactic

/-!
# Reading tagged trees from bytes

A tree is written as a tag with either the payload of a leaf or a count and that many
trees. A reader takes such a tree from the front of a byte string. It may accept,
reject, or look at a byte past the end. Whether it does is a matter of the bytes
alone: it reaches a place where a tree has to start, and what is there cannot be read.
-/
namespace Chromium.TaggedTree

/-- The outcome of reading. -/
inductive Reading (α : Type*)
  | accepts (value : α)
  | rejects
  /-- A byte past the end has been looked at. -/
  | outside
  /-- The recursion goes deeper than was allowed for. -/
  | unfinished
  deriving DecidableEq, Repr

namespace Reading
variable {α β : Type*}

instance : Monad Reading where
  pure := accepts
  bind
    | accepts a, f => f a
    | rejects, _ => rejects
    | outside, _ => outside
    | unfinished, _ => unfinished

def ofOption : Option α → Reading α
  | some a => accepts a
  | none => rejects

def toOption : Reading α → Option α
  | accepts a => some a
  | _ => none

/-- Neither past the end nor endless. -/
def Safe (x : Reading α) : Prop := x ≠ outside ∧ x ≠ unfinished

@[simp] lemma pure_eq (a : α) : (pure a : Reading α) = accepts a := rfl

@[simp] lemma accepts_bind {α β : Type} (a : α) (f : α → Reading β) : (accepts a >>= f) = f a := rfl

@[simp] lemma rejects_bind {α β : Type} (f : α → Reading β) : (rejects >>= f) = rejects := rfl

@[simp] lemma outside_bind {α β : Type} (f : α → Reading β) : (outside >>= f) = outside := rfl

@[simp] lemma unfinished_bind {α β : Type} (f : α → Reading β) :
    (unfinished >>= f) = unfinished := rfl

section Bind
variable {α β : Type} {x : Reading α} {f : α → Reading β}

lemma bind_eq_accepts {b : β} : (x >>= f) = accepts b ↔ ∃ a, x = accepts a ∧ f a = accepts b := by
  cases x <;> simp

lemma bind_eq_outside : (x >>= f) = outside ↔ x = outside ∨ ∃ a, x = accepts a ∧ f a = outside := by
  cases x <;> simp

lemma bind_eq_unfinished :
    (x >>= f) = unfinished ↔ x = unfinished ∨ ∃ a, x = accepts a ∧ f a = unfinished := by
  cases x <;> simp

lemma toOption_bind : (x >>= f).toOption = x.toOption.bind fun a => (f a).toOption := by
  cases x <;> rfl

end Bind

@[simp] lemma ofOption_eq_accepts {x : Option α} {a : α} :
    ofOption x = accepts a ↔ x = some a := by
  cases x <;> simp [ofOption]

@[simp] lemma ofOption_ne_outside (x : Option α) : ofOption x ≠ outside := by
  cases x <;> simp [ofOption]

@[simp] lemma ofOption_ne_unfinished (x : Option α) : ofOption x ≠ unfinished := by
  cases x <;> simp [ofOption]

@[simp] lemma toOption_ofOption (x : Option α) : (ofOption x).toOption = x := by
  cases x <;> rfl

end Reading

open Reading

abbrev Bytes := List UInt8

/-- How to read one kind of tree. -/
structure Format (β : Type) where
  arrayTag : UInt8
  /-- The end of the bytes is looked for before a tag is read. -/
  checked : Bool
  count : Bytes → Reading (ℕ × Bytes)
  leaf : UInt8 → Bytes → Reading (β × Bytes)
  array : List β → β

variable {β : Type}

/-- A number of trees, one after the other. -/
def readMany (read : Bytes → Reading (β × Bytes)) : ℕ → Bytes → Reading (List β × Bytes)
  | 0, s => return ([], s)
  | n + 1, s => do
    let (v, s) ← read s
    let (vs, s) ← readMany read n s
    return (v :: vs, s)

lemma forall_of_readMany {read : Bytes → Reading (β × Bytes)} {p : β → Prop}
    (hread : ∀ {s v rest}, read s = .accepts (v, rest) → p v) {n : ℕ} {s rest : Bytes} {vs : List β}
    (h : readMany read n s = .accepts (vs, rest)) : vs.length = n ∧ ∀ v ∈ vs, p v := by
  induction n generalizing s vs with
  | zero =>
    cases h
    simp
  | succ n ih =>
    simp only [readMany, bind_eq_accepts, pure_eq, Reading.accepts.injEq, Prod.exists,
      Prod.mk.injEq] at h
    obtain ⟨v, mid, hfirst, vs, rest', hothers, rfl, rfl⟩ := h
    obtain ⟨hlen, hall⟩ := ih hothers
    exact ⟨by rw [List.length_cons, hlen], List.forall_mem_cons.mpr ⟨hread hfirst, hall⟩⟩

/-- The nesting depth bounds the recursion. -/
def Format.read (F : Format β) : ℕ → Bytes → Reading (β × Bytes)
  | 0, _ => .unfinished
  | _ + 1, [] => if F.checked then .rejects else .outside
  | depth + 1, tag :: s =>
    if tag = F.arrayTag then do
      let (n, s) ← F.count s
      let (vs, s) ← readMany (F.read depth) n s
      return (F.array vs, s)
    else F.leaf tag s

/-- The bytes that stand for counts and for leaves, and those where the reading of a leaf
leaves the bytes. -/
structure Grammar (β : Type) where
  Count : Bytes → ℕ → Prop
  Leaf : UInt8 → Bytes → β → Prop
  Bad : UInt8 → Bytes → Prop

/-- The format reads what the grammar describes. -/
structure Format.Reads (F : Format β) (G : Grammar β) : Prop where
  count : ∀ {s n rest}, F.count s = .accepts (n, rest) ↔
    ∃ length, G.Count length n ∧ s = length ++ rest
  count_safe : ∀ s, (F.count s).Safe
  leaf : ∀ {tag s v rest}, tag ≠ F.arrayTag → (F.leaf tag s = .accepts (v, rest) ↔
    ∃ payload, G.Leaf tag payload v ∧ s = payload ++ rest)
  leaf_outside : ∀ {tag s}, tag ≠ F.arrayTag → (F.leaf tag s = .outside ↔ G.Bad tag s)
  leaf_finishes : ∀ tag s, F.leaf tag s ≠ .unfinished

/-- The bytes of all the trees. -/
def bytesOf (trees : List (Bytes × β)) : Bytes := (trees.map Prod.fst).flatten

@[simp] lemma bytesOf_nil : bytesOf ([] : List (Bytes × β)) = [] := rfl

@[simp] lemma bytesOf_cons (tree : Bytes × β) (trees : List (Bytes × β)) :
    bytesOf (tree :: trees) = tree.1 ++ bytesOf trees := rfl

section Grammar
variable (F : Format β) (G : Grammar β)

/-- The bytes of a whole tree and its value. -/
inductive Tree : Bytes → β → Prop
  | leaf {tag : UInt8} {payload : Bytes} {v : β} (htag : tag ≠ F.arrayTag)
      (hleaf : G.Leaf tag payload v) : Tree (tag :: payload) v
  | array {length : Bytes} {trees : List (Bytes × β)} (hcount : G.Count length trees.length)
      (htrees : ∀ tree ∈ trees, Tree tree.1 tree.2) :
      Tree (F.arrayTag :: (length ++ bytesOf trees)) (F.array (trees.map Prod.snd))

/-- At the second string, within the first, a tree has to start: before it there are only
arrays that have begun and their first trees. -/
inductive Reaches : Bytes → Bytes → Prop
  | here (s : Bytes) : Reaches s s
  | child {length rest t : Bytes} {n : ℕ} {trees : List (Bytes × β)} (hcount : G.Count length n)
      (htrees : ∀ tree ∈ trees, Tree F G tree.1 tree.2) (hlt : trees.length < n)
      (h : Reaches rest t) : Reaches (F.arrayTag :: (length ++ (bytesOf trees ++ rest))) t

/-- What is here cannot be read without looking past the end. -/
def Stuck (t : Bytes) : Prop :=
  (t = [] ∧ F.checked = false) ∨ ∃ tag s, t = tag :: s ∧ tag ≠ F.arrayTag ∧ G.Bad tag s

end Grammar

section Readings
variable {F : Format β} {G : Grammar β}

lemma Tree.length_pos {bytes : Bytes} {v : β} (h : Tree F G bytes v) : 0 < bytes.length := by
  cases h <;> simp

/-- The trees that have been read. -/
lemma readMany_sound {read : Bytes → Reading (β × Bytes)}
    (hread : ∀ {s v rest}, read s = .accepts (v, rest) →
      ∃ bytes, Tree F G bytes v ∧ s = bytes ++ rest)
    {n : ℕ} {s rest : Bytes} {vs : List β} (h : readMany read n s = .accepts (vs, rest)) :
    ∃ trees : List (Bytes × β), trees.length = n ∧ trees.map Prod.snd = vs ∧
      (∀ tree ∈ trees, Tree F G tree.1 tree.2) ∧ s = bytesOf trees ++ rest := by
  induction n generalizing s vs with
  | zero =>
    cases h
    exact ⟨[], rfl, rfl, by simp, rfl⟩
  | succ n ih =>
    simp only [readMany, bind_eq_accepts, pure_eq, Reading.accepts.injEq, Prod.exists,
      Prod.mk.injEq] at h
    obtain ⟨v, mid, hfirst, vs, rest', hothers, rfl, rfl⟩ := h
    obtain ⟨bytes, htree, rfl⟩ := hread hfirst
    obtain ⟨trees, rfl, rfl, htrees, rfl⟩ := ih hothers
    exact ⟨(bytes, v) :: trees, rfl, rfl, by simpa using ⟨htree, by simpa using htrees⟩, by simp⟩

/-- What is accepted is a tree. -/
theorem read_sound (hF : F.Reads G) {depth : ℕ} {s rest : Bytes} {v : β}
    (h : F.read depth s = .accepts (v, rest)) : ∃ bytes, Tree F G bytes v ∧ s = bytes ++ rest := by
  induction depth generalizing s v rest with
  | zero => cases h
  | succ depth ih =>
    cases s with
    | nil =>
      rw [Format.read] at h
      split_ifs at h
    | cons tag s =>
      rw [Format.read] at h
      split_ifs at h with htag
      · simp only [bind_eq_accepts, pure_eq, Reading.accepts.injEq, Prod.exists,
          Prod.mk.injEq] at h
        obtain ⟨n, s', hn, vs, rest', hmany, rfl, rfl⟩ := h
        obtain ⟨length, hcount, rfl⟩ := hF.count.mp hn
        obtain ⟨trees, rfl, rfl, htrees, rfl⟩ := readMany_sound ih hmany
        rw [htag]
        exact ⟨_, .array hcount htrees, by simp⟩
      · obtain ⟨payload, hleaf, rfl⟩ := (hF.leaf htag).mp h
        exact ⟨_, .leaf htag hleaf, rfl⟩

lemma read_length_le (hF : F.Reads G) {depth : ℕ} {s rest : Bytes} {v : β}
    (h : F.read depth s = .accepts (v, rest)) : rest.length < s.length := by
  obtain ⟨bytes, htree, rfl⟩ := read_sound hF h
  have hpos := htree.length_pos
  rw [List.length_append]
  omega

lemma readMany_complete {read : Bytes → Reading (β × Bytes)} {trees : List (Bytes × β)}
    (hread : ∀ tree ∈ trees, ∀ rest, read (tree.1 ++ rest) = .accepts (tree.2, rest))
    (rest : Bytes) : readMany read trees.length (bytesOf trees ++ rest) =
      .accepts (trees.map Prod.snd, rest) := by
  induction trees with
  | nil => rfl
  | cons tree trees ih =>
    rw [List.forall_mem_cons] at hread
    rw [List.length_cons, readMany, bytesOf_cons, List.append_assoc, hread.1, accepts_bind]
    dsimp only
    rw [ih hread.2]
    rfl

lemma length_le_bytesOf {trees : List (Bytes × β)} {tree : Bytes × β} (h : tree ∈ trees) :
    tree.1.length ≤ (bytesOf trees).length := by
  induction trees with
  | nil => cases h
  | cons first trees ih =>
    rw [bytesOf_cons, List.length_append]
    rcases List.mem_cons.mp h with rfl | h
    · omega
    · have := ih h
      omega

/-- Every tree is accepted, whatever follows it. -/
theorem Tree.read (hF : F.Reads G) {bytes : Bytes} {v : β} (h : Tree F G bytes v) (rest : Bytes)
    {depth : ℕ} (hdepth : bytes.length ≤ depth) :
    F.read depth (bytes ++ rest) = .accepts (v, rest) := by
  induction h generalizing rest depth with
  | @leaf tag payload v htag hleaf =>
    obtain ⟨depth, rfl⟩ : ∃ d, depth = d + 1 :=
      ⟨depth - 1, by rw [List.length_cons] at hdepth; omega⟩
    rw [List.cons_append, Format.read, if_neg htag]
    exact (hF.leaf htag).mpr ⟨payload, hleaf, rfl⟩
  | @array length trees hcount htrees ih =>
    rw [List.length_cons, List.length_append] at hdepth
    obtain ⟨depth, rfl⟩ : ∃ d, depth = d + 1 := ⟨depth - 1, by omega⟩
    have hchildren : ∀ tree ∈ trees, ∀ rest,
        F.read depth (tree.1 ++ rest) = .accepts (tree.2, rest) := by
      intro tree hmem rest
      have hle := length_le_bytesOf hmem
      exact ih tree hmem rest (by omega)
    have hlength : F.count (length ++ (bytesOf trees ++ rest)) =
        .accepts (trees.length, bytesOf trees ++ rest) := hF.count.mpr ⟨length, hcount, rfl⟩
    rw [List.cons_append, Format.read, if_pos rfl, List.append_assoc, hlength, accepts_bind]
    dsimp only
    rw [readMany_complete hchildren, accepts_bind]
    rfl

lemma readMany_finishes (hF : F.Reads G) {depth : ℕ}
    (hread : ∀ s : Bytes, s.length < depth → F.read depth s ≠ .unfinished) (n : ℕ) {s : Bytes}
    (hs : s.length < depth) : readMany (F.read depth) n s ≠ .unfinished := by
  induction n generalizing s with
  | zero => simp [readMany]
  | succ n ih =>
    intro h
    simp only [readMany, bind_eq_unfinished, pure_eq, reduceCtorEq, and_false, exists_false,
      or_false, Prod.exists] at h
    rcases h with h | ⟨v, mid, hfirst, h⟩
    · exact hread s hs h
    · have hlt := read_length_le hF hfirst
      exact ih (by omega) h

/-- A depth larger than the number of bytes is enough. -/
theorem read_finishes (hF : F.Reads G) {depth : ℕ} {s : Bytes} (hs : s.length < depth) :
    F.read depth s ≠ .unfinished := by
  induction depth generalizing s with
  | zero => omega
  | succ depth ih =>
    cases s with
    | nil =>
      rw [Format.read]
      split_ifs <;> simp
    | cons tag s =>
      rw [List.length_cons] at hs
      rw [Format.read]
      split_ifs with htag
      · intro h
        simp only [bind_eq_unfinished, pure_eq, reduceCtorEq, and_false, exists_false, or_false,
          Prod.exists] at h
        rcases h with h | ⟨n, s', hn, h⟩
        · exact (hF.count_safe s).2 h
        · obtain ⟨length, -, rfl⟩ := hF.count.mp hn
          rw [List.length_append] at hs
          exact readMany_finishes hF (fun _ => ih) n (by omega) h
      · exact hF.leaf_finishes tag s

/-- The trees before the one where the reading left the bytes. -/
lemma readMany_outside (hF : F.Reads G) {depth n : ℕ} {s : Bytes}
    (h : readMany (F.read depth) n s = .outside) :
    ∃ (trees : List (Bytes × β)) (rest : Bytes), trees.length < n ∧
      (∀ tree ∈ trees, Tree F G tree.1 tree.2) ∧ s = bytesOf trees ++ rest ∧
      F.read depth rest = .outside := by
  induction n generalizing s with
  | zero => simp [readMany] at h
  | succ n ih =>
    simp only [readMany, bind_eq_outside, pure_eq, reduceCtorEq, and_false, exists_false, or_false,
      Prod.exists] at h
    rcases h with h | ⟨v, mid, hfirst, h⟩
    · exact ⟨[], s, Nat.succ_pos n, by simp, rfl, h⟩
    · obtain ⟨bytes, htree, rfl⟩ := read_sound hF hfirst
      obtain ⟨trees, rest, hlt, htrees, rfl, hrest⟩ := ih h
      exact ⟨(bytes, v) :: trees, rest, Nat.succ_lt_succ hlt,
        by simpa using ⟨htree, by simpa using htrees⟩, by simp, hrest⟩

lemma exists_reaches (hF : F.Reads G) {depth : ℕ} {s : Bytes} (h : F.read depth s = .outside) :
    ∃ t, Reaches F G s t ∧ Stuck F G t := by
  induction depth generalizing s with
  | zero => cases h
  | succ depth ih =>
    cases s with
    | nil =>
      rw [Format.read] at h
      refine ⟨[], .here [], .inl ⟨rfl, ?_⟩⟩
      by_contra hchecked
      rw [if_pos (by simpa using hchecked)] at h
      cases h
    | cons tag s =>
      rw [Format.read] at h
      split_ifs at h with htag
      · simp only [bind_eq_outside, pure_eq, reduceCtorEq, and_false, exists_false, or_false,
          Prod.exists] at h
        rcases h with h | ⟨n, s', hn, h⟩
        · exact absurd h (hF.count_safe s).1
        · obtain ⟨length, hcount, rfl⟩ := hF.count.mp hn
          obtain ⟨trees, rest, hlt, htrees, rfl, hrest⟩ := readMany_outside hF h
          obtain ⟨t, hreaches, hstuck⟩ := ih hrest
          rw [htag]
          exact ⟨t, .child hcount htrees hlt hreaches, hstuck⟩
      · exact ⟨_, .here _, .inr ⟨tag, s, rfl, htag, (hF.leaf_outside htag).mp h⟩⟩

lemma readMany_of_outside {read : Bytes → Reading (β × Bytes)} {trees : List (Bytes × β)}
    (hread : ∀ tree ∈ trees, ∀ rest, read (tree.1 ++ rest) = .accepts (tree.2, rest))
    {rest : Bytes} (hrest : read rest = .outside) {n : ℕ} (hlt : trees.length < n) :
    readMany read n (bytesOf trees ++ rest) = .outside := by
  obtain ⟨n, rfl⟩ : ∃ m, n = m + 1 := ⟨n - 1, by omega⟩
  induction trees generalizing n with
  | nil => rw [bytesOf_nil, List.nil_append, readMany, hrest, outside_bind]
  | cons tree trees ih =>
    rw [List.forall_mem_cons] at hread
    rw [List.length_cons] at hlt
    obtain ⟨n, rfl⟩ : ∃ m, n = m + 1 := ⟨n - 1, by omega⟩
    rw [readMany, bytesOf_cons, List.append_assoc, hread.1, accepts_bind]
    dsimp only
    rw [ih hread.2 n (by omega), outside_bind]

lemma Reaches.read (hF : F.Reads G) {s t : Bytes} (h : Reaches F G s t) (hstuck : Stuck F G t)
    {depth : ℕ} (hdepth : s.length < depth) : F.read depth s = .outside := by
  induction h generalizing depth with
  | here s =>
    obtain ⟨depth, rfl⟩ : ∃ d, depth = d + 1 := ⟨depth - 1, by omega⟩
    rcases hstuck with ⟨rfl, hchecked⟩ | ⟨tag, s, rfl, htag, hbad⟩
    · rw [Format.read, hchecked]
      rfl
    · rw [Format.read, if_neg htag]
      exact (hF.leaf_outside htag).mpr hbad
  | @child length rest t n trees hcount htrees hlt h ih =>
    simp only [List.length_cons, List.length_append] at hdepth
    obtain ⟨depth, rfl⟩ : ∃ d, depth = d + 1 := ⟨depth - 1, by omega⟩
    have hchildren : ∀ tree ∈ trees, ∀ rest,
        F.read depth (tree.1 ++ rest) = .accepts (tree.2, rest) := by
      intro tree hmem rest
      have hle := length_le_bytesOf hmem
      exact (htrees tree hmem).read hF rest (by omega)
    have hlength : F.count (length ++ (bytesOf trees ++ rest)) =
        .accepts (n, bytesOf trees ++ rest) := hF.count.mpr ⟨length, hcount, rfl⟩
    rw [Format.read, if_pos rfl, hlength, accepts_bind]
    dsimp only
    rw [readMany_of_outside hchildren (ih hstuck (by omega)) hlt, outside_bind]

/-- The reading looks past the end exactly when it reaches a place where it has to. -/
theorem read_eq_outside (hF : F.Reads G) {depth : ℕ} {s : Bytes} (hs : s.length < depth) :
    F.read depth s = .outside ↔ ∃ t, Reaches F G s t ∧ Stuck F G t := by
  refine ⟨exists_reaches hF, fun h => ?_⟩
  obtain ⟨t, hreaches, hstuck⟩ := h
  exact hreaches.read hF hstuck hs

end Readings

end Chromium.TaggedTree
