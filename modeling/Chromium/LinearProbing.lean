import Mathlib.Data.List.Basic
import Mathlib.Data.List.GetD
import Mathlib.Data.List.Perm.Basic
import Mathlib.Data.Nat.ModEq
import Mathlib.Tactic

/-!
# Linear probing

A table of slots, some of which are empty. A key is put into the first empty slot from its hash
on, around the end of the table, so that no slot between the two is empty. A run of slots up to
an empty one can be cleared without any harm to the keys that stay.
-/
namespace Chromium.LinearProbing

/-! ### Going around -/

/-- The next slot, the first one after the last. -/
def increment (n i : ℕ) : ℕ := if i ≥ n - 1 then 0 else i + 1

lemma increment_mod {n : ℕ} (hn : 0 < n) (i : ℕ) : increment n (i % n) = (i + 1) % n := by
  have hlt := Nat.mod_lt i hn
  rw [increment, Nat.add_mod_eq_ite]
  by_cases hone : n = 1
  · subst hone
    simp [Nat.mod_one]
  · rw [Nat.mod_eq_of_lt (show 1 < n by omega)]
    split_ifs <;> omega

/-- Two ways to one slot go on together. -/
lemma mod_add_congr {n x y : ℕ} (h : x % n = y % n) (t : ℕ) : (x + t) % n = (y + t) % n :=
  Nat.ModEq.add_right t h

lemma offset_injective {n first j k : ℕ} (hj : j < n) (hk : k < n)
    (h : (first + j) % n = (first + k) % n) : j = k :=
  Nat.ModEq.eq_of_lt_of_lt (Nat.ModEq.add_left_cancel' first h) hj hk

/-- Every slot is so far from the first one. -/
lemma exists_offset {n first i : ℕ} (hfirst : first < n) (hi : i < n) :
    ∃ k < n, i = (first + k) % n := by
  by_cases h : first ≤ i
  · exact ⟨i - first, by omega, by rw [Nat.add_sub_cancel' h, Nat.mod_eq_of_lt hi]⟩
  · refine ⟨i + n - first, by omega, ?_⟩
    rw [Nat.add_sub_cancel' (by omega), Nat.add_mod_right, Nat.mod_eq_of_lt hi]

/-- The first slot from `cur` on where the search stops, unless it comes back to where it
began. -/
def scan (stop : ℕ → Bool) (n first : ℕ) : ℕ → ℕ → Option ℕ
  | 0, _ => none
  | fuel + 1, cur =>
    if stop cur then some cur
    else if increment n cur = first then none
    else scan stop n first fuel (increment n cur)

section Scan
variable {stop : ℕ → Bool} {n first k fuel : ℕ}

lemma increment_offset (hk : k < n) (hfirst : first < n) :
    increment n ((first + k) % n) = first ↔ k + 1 = n := by
  rw [increment_mod (by omega), Nat.add_assoc]
  constructor
  · intro h
    by_contra hne
    have hzero : 0 = k + 1 := by
      apply @offset_injective n first 0 (k + 1) (by omega) (by omega)
      rw [h, Nat.add_zero, Nat.mod_eq_of_lt hfirst]
    omega
  · intro h
    rw [h, Nat.add_mod_right, Nat.mod_eq_of_lt hfirst]

lemma scan_from (hfirst : first < n) (hfuel : k + fuel = n) (hpos : 0 < fuel) :
    (∀ i, scan stop n first fuel ((first + k) % n) = some i → ∃ l, k ≤ l ∧ l < n ∧
        i = (first + l) % n ∧ stop i ∧ ∀ j, k ≤ j → j < l → ¬ stop ((first + j) % n)) ∧
      (scan stop n first fuel ((first + k) % n) = none →
        ∀ j, k ≤ j → j < n → ¬ stop ((first + j) % n)) := by
  induction fuel generalizing k with
  | zero => omega
  | succ fuel ih =>
    rw [scan]
    by_cases hstop : stop ((first + k) % n) = true
    · rw [if_pos hstop]
      refine ⟨fun i hi => ?_, nofun⟩
      obtain rfl := Option.some.inj hi
      exact ⟨k, le_rfl, by omega, rfl, hstop, fun j hj hlt => by omega⟩
    rw [if_neg hstop]
    by_cases hlast : k + 1 = n
    · rw [if_pos ((increment_offset (by omega) hfirst).mpr hlast)]
      refine ⟨nofun, fun _ j hj hlt => ?_⟩
      obtain rfl : j = k := by omega
      exact hstop
    · rw [if_neg (fun h => hlast ((increment_offset (by omega) hfirst).mp h)),
        increment_mod (by omega), Nat.add_assoc]
      obtain ⟨hsome, hnone⟩ := @ih (k + 1) (by omega) (by omega)
      constructor
      · intro i hi
        obtain ⟨l, hle, hlt, rfl, hl, hbefore⟩ := hsome i hi
        refine ⟨l, by omega, hlt, rfl, hl, fun j hj hjl => ?_⟩
        rcases Nat.eq_or_lt_of_le hj with rfl | hj
        · exact hstop
        · exact hbefore j hj hjl
      · intro h j hj hlt
        rcases Nat.eq_or_lt_of_le hj with rfl | hj
        · exact hstop
        · exact hnone h j hj hlt

lemma scan_eq_some (hfirst : first < n) {i : ℕ} (h : scan stop n first n first = some i) :
    ∃ k < n, i = (first + k) % n ∧ stop i ∧ ∀ j < k, ¬ stop ((first + j) % n) := by
  have hstart : (first + 0) % n = first := Nat.mod_eq_of_lt hfirst
  obtain ⟨hsome, -⟩ := @scan_from stop n first 0 n hfirst (Nat.zero_add n) (by omega)
  rw [hstart] at hsome
  obtain ⟨k, -, hlt, hi, hstop, hbefore⟩ := hsome i h
  exact ⟨k, hlt, hi, hstop, fun j hj => hbefore j (Nat.zero_le j) hj⟩

lemma scan_eq_none (hfirst : first < n) (h : scan stop n first n first = none) :
    ∀ k < n, ¬ stop ((first + k) % n) := by
  have hstart : (first + 0) % n = first := Nat.mod_eq_of_lt hfirst
  obtain ⟨-, hnone⟩ := @scan_from stop n first 0 n hfirst (Nat.zero_add n) (by omega)
  rw [hstart] at hnone
  exact fun k hk => hnone h k (Nat.zero_le k) hk

end Scan

/-! ### Slots -/

section Slots
variable {α : Type*} {null : α} {slots : List α} {i j n : ℕ} {a : α}

/-- What is in a slot. -/
def read (null : α) (slots : List α) (i : ℕ) : α := slots.getD i null

lemma read_set (hi : i < slots.length) (a : α) (j : ℕ) :
    read null (slots.set i a) j = if j = i then a else read null slots j := by
  rw [read, read, List.getD_eq_getElem?_getD, List.getD_eq_getElem?_getD, List.getElem?_set]
  by_cases h : i = j
  · subst h
    simp [hi]
  · rw [if_neg h, if_neg (fun heq => h heq.symm)]

/-- The slots around one of them. -/
lemma split_at (hi : i < slots.length) : ∃ front back, slots = front ++ read null slots i :: back ∧
    ∀ b, slots.set i b = front ++ b :: back := by
  refine ⟨slots.take i, slots.drop (i + 1), ?_, fun b => ?_⟩
  · rw [read, List.getD_eq_getElem _ _ hi, ← List.drop_eq_getElem_cons hi,
      List.take_append_drop]
  · rw [List.set_eq_take_append_cons_drop, if_pos hi]

variable [DecidableEq α]

/-- The keys that are stored. -/
def items (null : α) (slots : List α) : List α := slots.filter (· ≠ null)

lemma mem_items : a ∈ items null slots ↔ a ≠ null ∧ ∃ i < slots.length, read null slots i = a := by
  rw [items, List.mem_filter, decide_eq_true_eq, and_comm, List.mem_iff_getElem]
  have hread : ∀ i (h : i < slots.length), read null slots i = slots.get ⟨i, h⟩ := by
    intro i h
    rw [read, List.getD_eq_getElem _ _ h]
    rfl
  constructor
  · rintro ⟨hne, i, hi, rfl⟩
    exact ⟨hne, i, hi, hread i hi⟩
  · rintro ⟨hne, i, hi, rfl⟩
    exact ⟨hne, i, hi, (hread i hi).symm⟩

/-- A key is added to an empty slot. -/
lemma items_set (hi : i < slots.length) (hempty : read null slots i = null) (ha : a ≠ null) :
    (items null (slots.set i a)).Perm (a :: items null slots) := by
  obtain ⟨front, back, hslots, hset⟩ := @split_at α null slots i hi
  rw [hset, hslots, hempty, items, items, List.filter_append, List.filter_append,
    List.filter_cons_of_pos (by simpa using ha), List.filter_cons_of_neg (by simp)]
  exact List.perm_middle

/-- A key is taken out of its slot. -/
lemma items_clear (hi : i < slots.length) (hne : read null slots i ≠ null) :
    (items null slots).Perm (read null slots i :: items null (slots.set i null)) := by
  obtain ⟨front, back, hslots, hset⟩ := @split_at α null slots i hi
  rw [hset]
  nth_rewrite 1 [hslots]
  rw [items, items, List.filter_append, List.filter_append,
    List.filter_cons_of_pos (by simpa using hne), List.filter_cons_of_neg (by simp)]
  exact List.perm_middle

lemma exists_empty (h : (items null slots).length < slots.length) :
    ∃ i < slots.length, read null slots i = null := by
  by_contra hfull
  have hall : items null slots = slots := by
    rw [items, List.filter_eq_self]
    intro a ha
    obtain ⟨i, hi, rfl⟩ := List.mem_iff_getElem.mp ha
    rw [decide_eq_true_eq]
    intro hnull
    apply hfull
    exact ⟨i, hi, by rw [read, List.getD_eq_getElem _ _ hi, hnull]⟩
  rw [hall] at h
  exact Nat.lt_irrefl _ h

/-! ### Tables that are probed -/

/-- No key is stored twice, and no slot is empty between the hash of a key and its slot. -/
structure Probed (null : α) (hash : α → ℕ) (slots : List α) : Prop where
  nodup : (items null slots).Nodup
  reach : ∀ i < slots.length, read null slots i ≠ null → ∃ k < slots.length,
    i = (hash (read null slots i) + k) % slots.length ∧
      ∀ j < k, read null slots ((hash (read null slots i) + j) % slots.length) ≠ null

variable {hash : α → ℕ}

/-- The search for a key ends at its slot, or at an empty one. -/
def search (null : α) (hash : α → ℕ) (slots : List α) (a : α) : Option ℕ :=
  scan (fun i => read null slots i = a ∨ read null slots i = null) slots.length (hash a)
    slots.length (hash a)

lemma probed_empty (n : ℕ) : Probed null hash (List.replicate n null) := by
  have hread : ∀ i, read null (List.replicate n null) i = null := by
    intro i
    rw [read, List.getD_eq_getElem?_getD, List.getElem?_replicate]
    split_ifs <;> rfl
  refine ⟨?_, fun i _ hne => absurd (hread i) hne⟩
  rw [items, List.filter_eq_nil_iff.mpr (by simp)]
  exact .nil

lemma search_eq_some (hhash : hash a < slots.length)
    (h : search null hash slots a = some i) : i < slots.length ∧
      (read null slots i = a ∨ read null slots i = null) ∧ ∃ k < slots.length,
        i = (hash a + k) % slots.length ∧
          ∀ j < k, read null slots ((hash a + j) % slots.length) ≠ null := by
  obtain ⟨k, hk, rfl, hstop, hbefore⟩ := scan_eq_some hhash h
  simp only [decide_eq_true_eq, not_or] at hstop hbefore
  exact ⟨Nat.mod_lt _ (by omega), hstop, k, hk, rfl, fun j hj => (hbefore j hj).2⟩

namespace Probed

/-- The search finds what is stored, and nothing else. -/
theorem mem_iff_search (h : Probed null hash slots) (ha : a ≠ null)
    (hhash : hash a < slots.length) :
    a ∈ items null slots ↔ ∃ i, search null hash slots a = some i ∧ read null slots i = a := by
  constructor
  · intro hmem
    obtain ⟨-, i, hi, rfl⟩ := mem_items.mp hmem
    obtain ⟨k, hk, hik, hpath⟩ := h.reach i hi ha
    cases hsearch : search null hash slots (read null slots i) with
    | none =>
      have hnone := scan_eq_none hhash hsearch k hk
      rw [← hik] at hnone
      simp at hnone
    | some i' =>
      obtain ⟨l, hl, rfl, hstop, hbefore⟩ := scan_eq_some hhash hsearch
      refine ⟨_, rfl, ?_⟩
      simp only [decide_eq_true_eq, not_or] at hstop hbefore
      rcases hstop with hfound | hempty
      · exact hfound
      · -- an empty slot cannot come before the key
        rcases lt_trichotomy l k with hlt | rfl | hgt
        · exact absurd hempty (hpath l hlt)
        · rw [← hik] at hempty
          exact absurd hempty ha
        · exact absurd (congrArg _ hik.symm) (hbefore k hgt).1
  · rintro ⟨i, hsearch, rfl⟩
    exact mem_items.mpr ⟨ha, i, (search_eq_some hhash hsearch).1, rfl⟩

/-- A key is put where its search ends. -/
theorem insert (h : Probed null hash slots) (ha : a ≠ null) (hhash : hash a < slots.length)
    (hsearch : search null hash slots a = some i) (hempty : read null slots i = null) :
    Probed null hash (slots.set i a) ∧ a ∉ items null slots := by
  obtain ⟨hi, -, k, hk, hik, hpath⟩ := search_eq_some hhash hsearch
  have hnot : a ∉ items null slots := by
    intro hmem
    obtain ⟨i', hsearch', hread⟩ := (h.mem_iff_search ha hhash).mp hmem
    obtain rfl := Option.some.inj (hsearch.symm.trans hsearch')
    exact ha (hread.symm.trans hempty)
  -- what is not empty stays so
  have hkeep : ∀ j, read null slots j ≠ null → read null (slots.set i a) j ≠ null := by
    intro j hj
    rw [read_set hi]
    split_ifs
    · exact ha
    · exact hj
  refine ⟨⟨?_, fun j hj hne => ?_⟩, hnot⟩
  · rw [(items_set hi hempty ha).nodup_iff, List.nodup_cons]
    exact ⟨hnot, h.nodup⟩
  · rw [List.length_set] at hj ⊢
    rw [read_set hi] at hne ⊢
    by_cases hji : j = i
    · subst hji
      rw [if_pos rfl]
      exact ⟨k, hk, hik, fun l hl => hkeep _ (hpath l hl)⟩
    · rw [if_neg hji] at hne ⊢
      obtain ⟨l, hl, hjl, hpath'⟩ := h.reach j hj hne
      exact ⟨l, hl, hjl, fun m hm => hkeep _ (hpath' m hm)⟩

/-- A run of slots up to an empty one is cleared. A key that stays behind the run would have it
on its way, and then the empty slot too. -/
theorem clear {cleared : List α} {first m : ℕ} (h : Probed null hash slots)
    (hlength : cleared.length = slots.length)
    (hend : read null slots ((first + m) % slots.length) = null)
    (hin : ∀ l < m, read null cleared ((first + l) % slots.length) = null)
    (hout : ∀ i < slots.length, (∀ l < m, i ≠ (first + l) % slots.length) →
      read null cleared i = read null slots i)
    (hitems : (items null cleared).Nodup) : Probed null hash cleared := by
  refine ⟨hitems, fun i hi hne => ?_⟩
  rw [hlength] at hi ⊢
  have hstays : ∀ l < m, i ≠ (first + l) % slots.length := by
    intro l hl heq
    rw [heq] at hne
    exact hne (hin l hl)
  have hread := hout i hi hstays
  rw [hread] at hne ⊢
  obtain ⟨k, hk, hik, hpath⟩ := h.reach i hi hne
  refine ⟨k, hk, hik, fun j hj => ?_⟩
  have hpos : 0 < slots.length := by omega
  rw [hout _ (Nat.mod_lt _ hpos)]
  · exact hpath j hj
  intro l hl heq
  -- from here the way of the key and the run go together, up to the key or to the empty slot
  by_cases hreach : l + (k - j) < m
  · apply hstays (l + (k - j)) hreach
    have htogether := mod_add_congr heq (k - j)
    rw [hik, ← Nat.add_assoc, ← htogether]
    congr 1
    omega
  · have htogether := mod_add_congr heq (m - l)
    rw [show first + l + (m - l) = first + m by omega] at htogether
    rw [← htogether] at hend
    by_cases hlast : j + (m - l) < k
    · apply hpath (j + (m - l)) hlast
      rw [← Nat.add_assoc]
      exact hend
    · have hsame : i = (hash (read null slots i) + j + (m - l)) % slots.length :=
        hik.trans (congrArg (· % slots.length) (by omega))
      exact hne (hsame ▸ hend)

end Probed

end Slots

end Chromium.LinearProbing
