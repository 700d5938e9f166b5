import Mathlib.Data.List.Sort
import Mathlib.Tactic

/-!
# Cancelling sorted lists against each other

A vector is compacted in place: the items that stay are moved to its front, over items that were
read before. Two lists that are sorted by a key are cancelled against each other item by item, and
from a sorted list all items are dropped whose key is in another one.
-/
namespace Chromium

/-- A vector that is read from `iter` on, with the items that stay before `out`. -/
structure Compaction (α : Type*) where
  items : List α
  out : ℕ
  iter : ℕ
  out_le : out ≤ iter
  iter_le : iter ≤ items.length

namespace Compaction

variable {α : Type*}

def start (items : List α) : Compaction α := ⟨items, 0, 0, Nat.le_refl 0, Nat.zero_le _⟩

/-- The next item; at the end there is none. -/
def next (c : Compaction α) : Option α := c.items[c.iter]?

def unread (c : Compaction α) : ℕ := c.items.length - c.iter

/-- Moves the next item to the front. -/
def keep (c : Compaction α) : Compaction α :=
  if h : c.iter < c.items.length then
    { items := c.items.set c.out c.items[c.iter]
      out := c.out + 1
      iter := c.iter + 1
      out_le := Nat.succ_le_succ c.out_le
      iter_le := by rw [List.length_set]; exact h }
  else c

def skip (c : Compaction α) : Compaction α :=
  if h : c.iter < c.items.length then
    { c with iter := c.iter + 1, out_le := Nat.le_succ_of_le c.out_le, iter_le := h }
  else c

/-- Erases the gap. -/
def erase (c : Compaction α) : List α := c.items.take c.out ++ c.items.drop c.iter

def kept (c : Compaction α) : List α := c.items.take c.out

def rest (c : Compaction α) : List α := c.items.drop c.iter

@[simp] lemma kept_start (items : List α) : (start items).kept = [] := rfl

@[simp] lemma rest_start (items : List α) : (start items).rest = items := rfl

lemma erase_eq (c : Compaction α) : c.erase = c.kept ++ c.rest := rfl

lemma next_eq (c : Compaction α) : c.next = c.rest.head? := by
  rw [next, rest, List.head?_drop]

lemma unread_eq (c : Compaction α) : c.unread = c.rest.length := by
  rw [unread, rest, List.length_drop]

lemma iter_lt_of_next {c : Compaction α} {a : α} (h : c.next = some a) :
    c.iter < c.items.length := (List.getElem?_eq_some_iff.mp h).1

lemma rest_of_next {c : Compaction α} {a : α} (h : c.next = some a) :
    c.rest = a :: c.rest.tail := by
  rw [next_eq] at h
  exact (List.cons_head?_tail h).symm

lemma rest_of_next_none {c : Compaction α} (h : c.next = none) : c.rest = [] := by
  rw [next_eq] at h
  exact List.head?_eq_none_iff.mp h

lemma kept_keep {c : Compaction α} {a : α} (h : c.next = some a) : c.keep.kept = c.kept ++ [a] := by
  have hlt := iter_lt_of_next h
  have hout : c.out < c.items.length := lt_of_le_of_lt c.out_le hlt
  have ha : c.items[c.iter] = a := (List.getElem?_eq_some_iff.mp h).2
  have hset : (c.items.set c.out a).take (c.out + 1) = c.items.take c.out ++ [a] := by
    rw [List.take_succ_eq_append_getElem (by simpa using hout), List.take_set_of_le le_rfl,
      List.getElem_set_self]
  rw [keep, dif_pos hlt]
  show (c.items.set c.out c.items[c.iter]).take (c.out + 1) = c.items.take c.out ++ [a]
  rw [ha, hset]

lemma rest_keep {c : Compaction α} {a : α} (h : c.next = some a) : c.keep.rest = c.rest.tail := by
  have hlt := iter_lt_of_next h
  have hbehind := c.out_le
  rw [keep, dif_pos hlt, rest, rest, List.tail_drop, List.drop_set_of_lt]
  show c.out < c.iter + 1
  omega

lemma kept_skip (c : Compaction α) : c.skip.kept = c.kept := by
  unfold skip
  split <;> rfl

lemma rest_skip {c : Compaction α} {a : α} (h : c.next = some a) : c.skip.rest = c.rest.tail := by
  rw [skip, dif_pos (iter_lt_of_next h), rest, rest, List.tail_drop]

lemma unread_keep_lt {c : Compaction α} {a : α} (h : c.next = some a) :
    c.keep.unread < c.unread := by
  rw [unread_eq, unread_eq, rest_keep h, rest_of_next h]
  simp

lemma unread_skip_lt {c : Compaction α} {a : α} (h : c.next = some a) :
    c.skip.unread < c.unread := by
  rw [unread_eq, unread_eq, rest_skip h, rest_of_next h]
  simp

end Compaction

/-! ### Lists sorted by a key -/

namespace Keyed

variable {α β κ : Type*} [LinearOrder κ]

def SortedBy (f : α → κ) (l : List α) : Prop := l.Pairwise fun a b => f a ≤ f b

/-- The number of items with a key. -/
def count (f : α → κ) (k : κ) (l : List α) : ℕ := l.countP fun a => f a = k

lemma count_cons (f : α → κ) (k : κ) (a : α) (l : List α) :
    count f k (a :: l) = count f k l + if f a = k then 1 else 0 := by
  simp [count, List.countP_cons]

lemma count_eq_count_map (f : α → κ) (k : κ) (l : List α) :
    count f k l = (l.map f).count k := by
  rw [count, List.count_eq_countP, List.countP_map]
  congr 1

lemma count_eq_zero_iff {f : α → κ} {k : κ} {l : List α} :
    count f k l = 0 ↔ ∀ a ∈ l, f a ≠ k := by
  simp [count, List.countP_eq_zero]

lemma count_pos_iff {f : α → κ} {k : κ} {l : List α} : 0 < count f k l ↔ ∃ a ∈ l, f a = k := by
  simp [count, List.countP_pos_iff]

lemma count_eq_of_perm {f : α → κ} {l l' : List α} (h : l.Perm l') (k : κ) :
    count f k l = count f k l' := h.countP_eq _

/-- A filter that goes by the keys drops all items with a key or none. -/
lemma count_filter {f : α → κ} {k : κ} {p : α → Bool} {drops : Prop} [Decidable drops]
    (h : ∀ a, f a = k → (p a = false ↔ drops)) (l : List α) :
    count f k (l.filter p) = if drops then 0 else count f k l := by
  split
  next hd =>
    rw [count_eq_zero_iff]
    intro a ha hk
    have hp := (List.mem_filter.mp ha).2
    rw [(h a hk).mpr hd] at hp
    cases hp
  next hd =>
    rw [count, count, List.countP_filter]
    apply List.countP_congr
    intro a _
    have hp : f a = k → p a = true := by
      intro hk
      rw [← Bool.not_eq_false, h a hk]
      exact hd
    simpa using hp

/-- Nothing is below the first key. -/
lemma count_of_lt_head {f : α → κ} {k : κ} {a : α} {l : List α} (h : SortedBy f (a :: l))
    (hlt : k < f a) : count f k (a :: l) = 0 := by
  rw [count_eq_zero_iff]
  intro x hx
  cases hx with
  | head => exact ne_of_gt hlt
  | tail _ hx => exact ne_of_gt (lt_of_lt_of_le hlt (List.rel_of_pairwise_cons h hx))

lemma dropWhile_eq_filter {f : α → κ} {l : List α} (h : SortedBy f l) (k : κ) :
    (l.dropWhile fun a => ¬ k < f a) = l.filter fun a => k < f a := by
  induction l with
  | nil => rfl
  | cons a l ih =>
    by_cases hlt : k < f a
    · have hall : ∀ x ∈ a :: l, k < f x := by
        intro x hx
        cases hx with
        | head => exact hlt
        | tail _ hx => exact lt_of_lt_of_le hlt (List.rel_of_pairwise_cons h hx)
      rw [List.dropWhile_cons_of_neg (by simpa using hlt)]
      exact (List.filter_eq_self.mpr fun x hx => decide_eq_true (hall x hx)).symm
    · rw [List.dropWhile_cons_of_pos (by simpa using hlt), ih h.of_cons,
        List.filter_cons_of_neg (by simpa using hlt)]

/-- The keys of sorted lists are those that their counts name. -/
lemma map_eq_of_count {f : α → κ} {l l' : List α} (hl : SortedBy f l) (hl' : SortedBy f l')
    (h : ∀ k, count f k l = count f k l') : l.map f = l'.map f := by
  have hperm : (l.map f).Perm (l'.map f) := by
    rw [List.perm_iff_count]
    intro k
    rw [← count_eq_count_map, ← count_eq_count_map, h]
  exact hperm.eq_of_pairwise' (List.pairwise_map.mpr hl) (List.pairwise_map.mpr hl')

lemma exists_sortedBy (f : α → κ) (l : List α) : ∃ sorted, sorted.Perm l ∧ SortedBy f sorted := by
  have hsorted := @List.pairwise_mergeSort α (fun a b => decide (f a ≤ f b))
    (fun a b c hab hbc => by simpa using le_trans (by simpa using hab) (by simpa using hbc))
    (fun a b => by simpa using le_total (f a) (f b)) l
  exact ⟨l.mergeSort fun a b => f a ≤ f b, List.mergeSort_perm _ _,
    hsorted.imp fun h => by simpa using h⟩

/-- Items with one key are one item. -/
def Uniform (f : α → κ) (l : List α) : Prop := ∀ a ∈ l, ∀ b ∈ l, f a = f b → a = b

lemma Uniform.of_perm {f : α → κ} {l l' : List α} (h : Uniform f l) (hperm : l.Perm l') :
    Uniform f l' := fun a ha b hb => h a (hperm.mem_iff.mpr ha) b (hperm.mem_iff.mpr hb)

lemma eq_of_perm_of_uniform {f : α → κ} {l l' : List α} (hl : SortedBy f l)
    (hl' : SortedBy f l') (hperm : l.Perm l') (huniform : Uniform f l) : l = l' := by
  apply hperm.eq_of_pairwise _ hl hl'
  intro a b ha hb hab hba
  exact huniform a ha b (hperm.mem_iff.mpr hb) (le_antisymm hab hba)

/-! ### Cancelling -/

structure Cancelled (α β : Type*) where
  left : List α
  right : List β
  removed : List α

/-- Drops equal items of two sorted lists pair by pair. -/
def cancel (f : α → κ) (g : β → κ) : List α → List β → Cancelled α β
  | a :: as, b :: bs =>
    if g b < f a then
      let r := cancel f g (a :: as) bs
      ⟨r.left, b :: r.right, r.removed⟩
    else if f a < g b then
      let r := cancel f g as (b :: bs)
      ⟨a :: r.left, r.right, r.removed⟩
    else
      let r := cancel f g as bs
      ⟨r.left, r.right, a :: r.removed⟩
  | as, bs => ⟨as, bs, []⟩
termination_by as bs => as.length + bs.length

variable {f : α → κ} {g : β → κ}

@[simp] lemma cancel_nil_left (bs : List β) : cancel f g [] bs = ⟨[], bs, []⟩ := by
  simp [cancel]

@[simp] lemma cancel_nil_right (as : List α) : cancel f g as [] = ⟨as, [], []⟩ := by
  simp [cancel]

lemma cancel_of_gt {a : α} {b : β} (h : g b < f a) (as : List α) (bs : List β) :
    cancel f g (a :: as) (b :: bs) =
      ⟨(cancel f g (a :: as) bs).left, b :: (cancel f g (a :: as) bs).right,
        (cancel f g (a :: as) bs).removed⟩ := by
  rw [cancel, if_pos h]

lemma cancel_of_lt {a : α} {b : β} (h : f a < g b) (as : List α) (bs : List β) :
    cancel f g (a :: as) (b :: bs) =
      ⟨a :: (cancel f g as (b :: bs)).left, (cancel f g as (b :: bs)).right,
        (cancel f g as (b :: bs)).removed⟩ := by
  rw [cancel, if_neg (not_lt_of_gt h), if_pos h]

lemma cancel_of_eq {a : α} {b : β} (h : f a = g b) (as : List α) (bs : List β) :
    cancel f g (a :: as) (b :: bs) =
      ⟨(cancel f g as bs).left, (cancel f g as bs).right, a :: (cancel f g as bs).removed⟩ := by
  rw [cancel, if_neg (not_lt_of_ge h.le), if_neg (not_lt_of_ge h.ge)]

lemma cancel_sublist (as : List α) (bs : List β) :
    (cancel f g as bs).left.Sublist as ∧ (cancel f g as bs).right.Sublist bs ∧
      (cancel f g as bs).removed.Sublist as := by
  induction as, bs using cancel.induct f g with
  | case1 a as b bs h ih =>
    rw [cancel_of_gt h]
    exact ⟨ih.1, ih.2.1.cons_cons b, ih.2.2⟩
  | case2 a as b bs h h' ih =>
    rw [cancel_of_lt h']
    exact ⟨ih.1.cons_cons a, ih.2.1, ih.2.2.cons a⟩
  | case3 a as b bs h h' ih =>
    rw [cancel_of_eq (le_antisymm (not_lt.mp h) (not_lt.mp h'))]
    exact ⟨ih.1.cons a, ih.2.1.cons b, ih.2.2.cons_cons a⟩
  | case4 as bs hnot =>
    rw [cancel.eq_2 f g as bs hnot]
    exact ⟨List.Sublist.refl as, List.Sublist.refl bs, List.nil_sublist as⟩

/-- Equal items are gone one for one, and what one list has more of stays. -/
lemma count_cancel {as : List α} {bs : List β} (has : SortedBy f as) (hbs : SortedBy g bs) (k : κ) :
    count f k (cancel f g as bs).left = count f k as - count g k bs ∧
      count g k (cancel f g as bs).right = count g k bs - count f k as ∧
      count f k (cancel f g as bs).removed = min (count f k as) (count g k bs) := by
  induction as, bs using cancel.induct f g with
  | case1 a as b bs h ih =>
    have ih := ih has hbs.of_cons
    rw [cancel_of_gt h]
    dsimp only
    rw [count_cons g, count_cons g]
    by_cases hk : g b = k
    · -- the right list alone has items with this key
      have hzero := count_of_lt_head has (hk ▸ h)
      rw [if_pos hk]
      rw [hzero] at ih ⊢
      omega
    · rw [if_neg hk]
      exact ih
  | case2 a as b bs h h' ih =>
    have ih := ih has.of_cons hbs
    rw [cancel_of_lt h']
    dsimp only
    rw [count_cons f, count_cons f]
    by_cases hk : f a = k
    · have hzero := count_of_lt_head hbs (hk ▸ h')
      rw [if_pos hk]
      rw [hzero] at ih ⊢
      omega
    · rw [if_neg hk]
      exact ih
  | case3 a as b bs h h' ih =>
    have ih := ih has.of_cons hbs.of_cons
    have heq : f a = g b := le_antisymm (not_lt.mp h) (not_lt.mp h')
    rw [cancel_of_eq heq]
    dsimp only
    rw [count_cons f, count_cons g, count_cons f, ← heq]
    split <;> omega
  | case4 as bs hnot =>
    rw [cancel.eq_2 f g as bs hnot]
    cases as with
    | nil => simp [count]
    | cons a as =>
      cases bs with
      | nil => simp [count]
      | cons b bs => exact (hnot a as b bs rfl rfl).elim

end Keyed

end Chromium
