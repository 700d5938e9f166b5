import Chromium.SortedMap
import Mathlib.Algebra.BigOperators.Group.Finset.Basic
import Mathlib.Tactic

/-!
# Choice by cumulative weights

Each candidate is entered in a map under the sum of the weights up to and with its own, and a
number below the whole sum chooses the first entry behind it. The sums are taken modulo a number,
as those of a machine word. Candidates are chosen by as many numbers as they weigh exactly when
the sums do not wrap around and nothing without weight is entered behind something with weight.
-/
namespace Chromium

namespace SortedMap

variable {κ α : Type*} [LinearOrder κ]

/-- The value of the first entry whose key is greater than `r`. -/
def upperBound (m : SortedMap κ α) (r : κ) : Option α :=
  (m.entries.find? fun e => decide (r < e.1)).map Prod.snd

lemma entries_assign {m : SortedMap κ α} {k : κ} (h : ∀ e ∈ m.entries, e.1 ≤ k) (a : α) :
    (m.assign k a).entries = m.entries.filter (fun e => e.1 ≠ k) ++ [(k, a)] := by
  rw [assign, entries_insert_of_lt]
  · rfl
  · intro e he
    obtain ⟨hmem, hne⟩ := List.mem_filter.mp he
    exact lt_of_le_of_ne (h e hmem) (by simpa using hne)

lemma mem_entries_assign {m : SortedMap κ α} {k : κ} {a : α} {e : κ × α}
    (he : e ∈ (m.assign k a).entries) : e = (k, a) ∨ e ∈ m.entries := by
  cases mem_insertEntry he with
  | inl heq => exact .inl heq
  | inr hmem => exact .inr (List.mem_filter.mp hmem).1

lemma self_mem_entries_assign (m : SortedMap κ α) (k : κ) (a : α) :
    (k, a) ∈ (m.assign k a).entries := by
  rw [← find_eq_some, assign, find_insert]
  simp [find_erase]

lemma upperBound_mem {m : SortedMap κ α} {r : κ} {a : α} (h : m.upperBound r = some a) :
    ∃ k, (k, a) ∈ m.entries := by
  obtain ⟨e, he, rfl⟩ := Option.map_eq_some_iff.mp h
  exact ⟨e.1, List.mem_of_find?_eq_some he⟩

lemma upperBound_isSome {m : SortedMap κ α} {r k : κ} {a : α} (h : (k, a) ∈ m.entries)
    (hlt : r < k) : ∃ b, m.upperBound r = some b := by
  have hfound : (m.entries.find? fun e => decide (r < e.1)).isSome := by
    rw [List.find?_isSome]
    exact ⟨(k, a), h, by simpa using hlt⟩
  obtain ⟨e, he⟩ := Option.isSome_iff_exists.mp hfound
  exact ⟨e.2, by rw [upperBound, he, Option.map_some]⟩

lemma upperBound_eq_none {m : SortedMap κ α} {r : κ} (h : ∀ e ∈ m.entries, e.1 ≤ r) :
    m.upperBound r = none := by
  rw [upperBound, Option.map_eq_none_iff, List.find?_eq_none]
  intro e he
  simpa using h e he

/-- A key at the end takes what no other key is behind. -/
lemma upperBound_assign {m : SortedMap κ α} {k : κ} (h : ∀ e ∈ m.entries, e.1 < k) (a : α) (r : κ) :
    (m.assign k a).upperBound r = (m.upperBound r).or (if r < k then some a else none) := by
  have hfilter : m.entries.filter (fun e => e.1 ≠ k) = m.entries :=
    List.filter_eq_self.mpr fun e he => by simpa using (h e he).ne
  rw [upperBound, upperBound, entries_assign fun e he => (h e he).le, hfilter, List.find?_append]
  cases m.entries.find? (fun e => decide (r < e.1)) with
  | some e => rfl
  | none =>
    by_cases hlt : r < k
    · simp [hlt]
    · simp [hlt]

end SortedMap

namespace WeightedChoice

variable {α : Type*}

/-- The sum so far and the map of the sums. -/
structure Table (α : Type*) where
  total : ℕ
  sums : SortedMap ℕ α

def Table.add (modulus : ℕ) (t : Table α) (weight : ℕ) (a : α) : Table α :=
  let total := (t.total + weight) % modulus
  ⟨total, t.sums.assign total a⟩

def Table.empty : Table α := ⟨0, ∅⟩

/-- The table of candidates in the order in which they are entered. -/
def table (modulus : ℕ) (weight : α → ℕ) (candidates : List α) : Table α :=
  candidates.foldl (fun t a => t.add modulus (weight a) a) Table.empty

variable (modulus : ℕ) (weight : α → ℕ)

@[simp]
lemma table_concat (candidates : List α) (a : α) :
    table modulus weight (candidates ++ [a]) =
      (table modulus weight candidates).add modulus (weight a) a := by
  simp [table]

lemma mem_of_entries (candidates : List α) {e : ℕ × α}
    (he : e ∈ (table modulus weight candidates).sums.entries) : e.2 ∈ candidates := by
  induction candidates using List.reverseRecOn with
  | nil => exact absurd he List.not_mem_nil
  | append_singleton candidates b ih =>
    rw [table_concat] at he
    cases SortedMap.mem_entries_assign he with
    | inl heq =>
      rw [heq]
      simp
    | inr hmem => exact List.mem_append_left _ (ih hmem)

lemma mem_of_upperBound (candidates : List α) {r : ℕ} {a : α}
    (h : (table modulus weight candidates).sums.upperBound r = some a) : a ∈ candidates := by
  obtain ⟨k, hk⟩ := SortedMap.upperBound_mem h
  exact mem_of_entries modulus weight candidates hk

/-- A number below the sum always chooses one. -/
lemma exists_upperBound (candidates : List α) {r : ℕ}
    (hr : r < (table modulus weight candidates).total) :
    ∃ a ∈ candidates, (table modulus weight candidates).sums.upperBound r = some a := by
  have hlast : ∃ a, ((table modulus weight candidates).total, a) ∈
      (table modulus weight candidates).sums.entries := by
    cases List.eq_nil_or_concat' candidates with
    | inl hnil =>
      subst hnil
      exact absurd hr (Nat.not_lt_zero r)
    | inr hconcat =>
      obtain ⟨init, a, rfl⟩ := hconcat
      rw [table_concat]
      exact ⟨a, SortedMap.self_mem_entries_assign _ _ a⟩
  obtain ⟨b, hb⟩ := hlast
  obtain ⟨a, ha⟩ := SortedMap.upperBound_isSome hb hr
  exact ⟨a, mem_of_upperBound modulus weight candidates ha, ha⟩

/-- Without overflow the sum is that of the weights. -/
lemma total_eq (candidates : List α) (h : (candidates.map weight).sum < modulus) :
    (table modulus weight candidates).total = (candidates.map weight).sum := by
  induction candidates using List.reverseRecOn with
  | nil => rfl
  | append_singleton candidates a ih =>
    simp only [List.map_append, List.map_singleton, List.sum_append, List.sum_singleton] at h ⊢
    rw [table_concat, Table.add, ih (by omega)]
    exact Nat.mod_eq_of_lt h

lemma key_le (candidates : List α) (h : (candidates.map weight).sum < modulus) {e : ℕ × α}
    (he : e ∈ (table modulus weight candidates).sums.entries) :
    e.1 ≤ (candidates.map weight).sum := by
  induction candidates using List.reverseRecOn with
  | nil => exact absurd he List.not_mem_nil
  | append_singleton candidates a ih =>
    simp only [List.map_append, List.map_singleton, List.sum_append, List.sum_singleton] at h ⊢
    have htotal := total_eq modulus weight candidates (by omega)
    rw [table_concat] at he
    cases SortedMap.mem_entries_assign he with
    | inl heq =>
      rw [heq, htotal, Nat.mod_eq_of_lt h]
    | inr hmem => exact (ih (by omega) hmem).trans (Nat.le_add_right _ _)

/-- A candidate with weight leaves the choices of the others alone. -/
lemma upperBound_concat (candidates : List α) {a : α} (hpos : 0 < weight a)
    (h : (candidates.map weight).sum + weight a < modulus) (r : ℕ) :
    (table modulus weight (candidates ++ [a])).sums.upperBound r =
      ((table modulus weight candidates).sums.upperBound r).or
        (if r < (candidates.map weight).sum + weight a then some a else none) := by
  have htotal := total_eq modulus weight candidates (by omega)
  rw [table_concat, Table.add, htotal, Nat.mod_eq_of_lt h]
  apply SortedMap.upperBound_assign
  intro e he
  have hle := key_le modulus weight candidates (by omega) he
  omega

/-- A candidate without weight takes the place of the last one. -/
lemma upperBound_concat_zero (candidates : List α) {a : α} (hzero : weight a = 0)
    (h : (candidates.map weight).sum < modulus) (hpos : 0 < (candidates.map weight).sum) :
    (table modulus weight (candidates ++ [a])).sums.upperBound ((candidates.map weight).sum - 1) =
      some a := by
  have htotal := total_eq modulus weight candidates h
  have hkeys := fun e he => key_le modulus weight candidates h (e := e) he
  rw [table_concat, Table.add, htotal, hzero, Nat.add_zero, Nat.mod_eq_of_lt h,
    SortedMap.upperBound, SortedMap.entries_assign hkeys, List.find?_append]
  have hnone : ((table modulus weight candidates).sums.entries.filter
      fun e => e.1 ≠ (candidates.map weight).sum).find?
        (fun e => decide ((candidates.map weight).sum - 1 < e.1)) = none := by
    rw [List.find?_eq_none]
    intro e he
    obtain ⟨hmem, hne⟩ := List.mem_filter.mp he
    have hle := hkeys e hmem
    have hne' : e.1 ≠ (candidates.map weight).sum := by simpa using hne
    simp only [decide_eq_true_eq]
    omega
  have hlt : (candidates.map weight).sum - 1 < (candidates.map weight).sum := by omega
  rw [hnone, Option.none_or, List.find?_singleton]
  simp [hlt]

/-- Nothing without weight comes behind something with weight. -/
def WeightsLast (candidates : List α) : Prop :=
  candidates.Pairwise fun a b => 0 < weight a → 0 < weight b

/-- Otherwise a candidate without weight is chosen. -/
lemma exists_zero_chosen (candidates : List α) (h : (candidates.map weight).sum < modulus)
    (hnot : ¬ WeightsLast weight candidates) :
    ∃ r < (candidates.map weight).sum, ∃ a ∈ candidates, weight a = 0 ∧
      (table modulus weight candidates).sums.upperBound r = some a := by
  induction candidates using List.reverseRecOn with
  | nil => exact absurd List.Pairwise.nil hnot
  | append_singleton candidates a ih =>
    simp only [List.map_append, List.map_singleton, List.sum_append, List.sum_singleton] at h ⊢
    by_cases hzero : weight a = 0
    · have hpos : 0 < (candidates.map weight).sum := by
        by_contra hsum
        have hall : ∀ b ∈ candidates, weight b = 0 := by
          intro b hb
          have hle := List.le_sum_of_mem (List.mem_map_of_mem (f := weight) hb)
          omega
        apply hnot
        rw [WeightsLast, List.pairwise_iff_forall_sublist]
        intro b c hsub hb
        have hmem := hsub.subset (List.mem_cons_self)
        cases List.mem_append.mp hmem with
        | inl hmem => exact absurd (hall b hmem) hb.ne'
        | inr hmem =>
          rw [List.mem_singleton.mp hmem, hzero] at hb
          exact absurd hb (lt_irrefl 0)
      exact ⟨_, by omega, a, by simp, hzero,
        upperBound_concat_zero modulus weight candidates hzero (by omega) hpos⟩
    · have hpos : 0 < weight a := Nat.pos_of_ne_zero hzero
      have hnot' : ¬ WeightsLast weight candidates := by
        intro hlast
        apply hnot
        rw [WeightsLast, List.pairwise_append]
        refine ⟨hlast, List.pairwise_singleton _ _, ?_⟩
        intro b _ c hc _
        rw [List.mem_singleton.mp hc]
        exact hpos
      obtain ⟨r, hr, b, hb, hbzero, hchosen⟩ := ih (by omega) hnot'
      refine ⟨r, by omega, b, List.mem_append_left _ hb, hbzero, ?_⟩
      rw [upperBound_concat modulus weight candidates hpos h, hchosen, Option.some_or]

/-! ### Shares -/

variable [DecidableEq α]

/-- How many numbers below the sum choose `a`. -/
def Table.share (t : Table α) (a : α) : ℕ :=
  ((Finset.range t.total).filter fun r => t.sums.upperBound r = some a).card

/-- The shares do not overlap. -/
lemma sum_share_le (candidates : List α) (t : Table α) :
    ∑ a ∈ candidates.toFinset, t.share a ≤ t.total := by
  have hdisjoint : ∀ a ∈ candidates.toFinset, ∀ b ∈ candidates.toFinset, a ≠ b →
      Disjoint ((Finset.range t.total).filter fun r => t.sums.upperBound r = some a)
        ((Finset.range t.total).filter fun r => t.sums.upperBound r = some b) := by
    intro a _ b _ hne
    rw [Finset.disjoint_filter]
    intro r _ ha hb
    rw [ha] at hb
    exact hne (Option.some.inj hb)
  calc ∑ a ∈ candidates.toFinset, t.share a
      = (candidates.toFinset.biUnion fun a =>
          (Finset.range t.total).filter fun r => t.sums.upperBound r = some a).card :=
        (Finset.card_biUnion hdisjoint).symm
    _ ≤ (Finset.range t.total).card := Finset.card_le_card (by
        intro r hr
        obtain ⟨a, -, ha⟩ := Finset.mem_biUnion.mp hr
        exact (Finset.mem_filter.mp ha).1)
    _ = t.total := Finset.card_range t.total

/-- A candidate with weight at the end. -/
lemma share_concat (candidates : List α) {a : α} (hpos : 0 < weight a)
    (h : (candidates.map weight).sum + weight a < modulus) (b : α) :
    (table modulus weight (candidates ++ [a])).share b =
      (table modulus weight candidates).share b + if a = b then weight a else 0 := by
  have htotal := total_eq modulus weight candidates (by omega)
  have htotal' := total_eq modulus weight (candidates ++ [a]) (by simpa using h)
  simp only [List.map_append, List.map_singleton, List.sum_append, List.sum_singleton] at htotal'
  rw [Table.share, Table.share, htotal', htotal, Finset.card_filter, Finset.card_filter,
    Finset.sum_range_add]
  congr 1
  · apply Finset.sum_congr rfl
    intro r hr
    rw [← htotal, Finset.mem_range] at hr
    obtain ⟨c, -, hc⟩ := exists_upperBound modulus weight candidates hr
    rw [upperBound_concat modulus weight candidates hpos h, hc, Option.some_or]
  · have hevery : ∀ r ∈ Finset.range (weight a),
        (if (table modulus weight (candidates ++ [a])).sums.upperBound
          ((candidates.map weight).sum + r) = some b then 1 else 0) = if a = b then 1 else 0 := by
      intro r hr
      have hlt : (candidates.map weight).sum + r < (candidates.map weight).sum + weight a := by
        have hr' := Finset.mem_range.mp hr
        omega
      have hnone : (table modulus weight candidates).sums.upperBound
          ((candidates.map weight).sum + r) = none := by
        apply SortedMap.upperBound_eq_none
        intro e he
        exact (key_le modulus weight candidates (by omega) he).trans (Nat.le_add_right _ _)
      rw [upperBound_concat modulus weight candidates hpos h, hnone, Option.none_or, if_pos hlt]
      simp only [Option.some.injEq]
    rw [Finset.sum_congr rfl hevery, Finset.sum_const, Finset.card_range]
    split_ifs <;> simp

lemma share_of_not_mem {candidates : List α} {a : α} (ha : a ∉ candidates) :
    (table modulus weight candidates).share a = 0 := by
  rw [Table.share, Finset.card_eq_zero, Finset.filter_eq_empty_iff]
  intro r _ hchosen
  exact ha (mem_of_upperBound modulus weight candidates hchosen)

/-- Everyone is chosen by as many numbers as it weighs. -/
lemma share_eq_weight (candidates : List α) (hnodup : candidates.Nodup)
    (h : (candidates.map weight).sum < modulus) (hlast : WeightsLast weight candidates) {a : α}
    (ha : a ∈ candidates) : (table modulus weight candidates).share a = weight a := by
  induction candidates using List.reverseRecOn with
  | nil => exact absurd ha List.not_mem_nil
  | append_singleton candidates b ih =>
    obtain ⟨hlast', -, hbetween⟩ := List.pairwise_append.mp hlast
    obtain ⟨hnodup', -, hdisjoint⟩ := List.nodup_append.mp hnodup
    have hb : b ∉ candidates := fun hmem => hdisjoint b hmem b (List.mem_singleton_self b) rfl
    by_cases hzero : weight b = 0
    · -- nothing has weight
      have hall : ∀ c ∈ candidates ++ [b], weight c = 0 := by
        intro c hc
        cases List.mem_append.mp hc with
        | inl hc =>
          by_contra hne
          have hpos := hbetween c hc b (List.mem_singleton_self b) (Nat.pos_of_ne_zero hne)
          omega
        | inr hc => rw [List.mem_singleton.mp hc, hzero]
      have hsum : ((candidates ++ [b]).map weight).sum = 0 := by
        rw [List.sum_eq_zero_iff]
        intro n hn
        obtain ⟨c, hc, rfl⟩ := List.mem_map.mp hn
        exact hall c hc
      have htotal := total_eq modulus weight _ h
      rw [hsum] at htotal
      rw [Table.share, htotal, hall a ha]
      rfl
    · have hpos : 0 < weight b := Nat.pos_of_ne_zero hzero
      simp only [List.map_append, List.map_singleton, List.sum_append, List.sum_singleton] at h
      rw [share_concat modulus weight candidates hpos h]
      by_cases heq : b = a
      · subst heq
        rw [if_pos rfl, share_of_not_mem modulus weight hb, Nat.zero_add]
      · have hmem : a ∈ candidates := by
          cases List.mem_append.mp ha with
          | inl hmem => exact hmem
          | inr hmem => exact absurd (List.mem_singleton.mp hmem).symm heq
        rw [if_neg heq, Nat.add_zero]
        exact ih hnodup' (by omega) hlast' hmem

/-- Candidates with weight have their shares exactly when the sums do not wrap around and nothing
without weight comes behind something with weight. -/
theorem share_eq_weight_iff (candidates : List α) (hnodup : candidates.Nodup)
    (hmodulus : 0 < modulus) :
    (∀ a ∈ candidates, 0 < weight a → (table modulus weight candidates).share a = weight a) ↔
      (candidates.map weight).sum < modulus ∧ WeightsLast weight candidates := by
  constructor
  · intro hfair
    have hshare : ∀ a ∈ candidates.toFinset,
        weight a ≤ (table modulus weight candidates).share a := by
      intro a ha
      by_cases hpos : 0 < weight a
      · exact (hfair a (List.mem_toFinset.mp ha) hpos).ge
      · omega
    have hsum : (candidates.map weight).sum = ∑ a ∈ candidates.toFinset, weight a :=
      (List.sum_toFinset weight hnodup).symm
    have hle := Finset.sum_le_sum hshare
    have hshares := sum_share_le candidates (table modulus weight candidates)
    have htotalLt : (table modulus weight candidates).total < modulus := by
      cases List.eq_nil_or_concat' candidates with
      | inl hnil =>
        subst hnil
        exact hmodulus
      | inr hconcat =>
        obtain ⟨init, a, rfl⟩ := hconcat
        rw [table_concat]
        exact Nat.mod_lt _ hmodulus
    have hlt : (candidates.map weight).sum < modulus := by omega
    refine ⟨hlt, ?_⟩
    by_contra hnot
    obtain ⟨r, hr, a, ha, hzero, hchosen⟩ := exists_zero_chosen modulus weight candidates hlt hnot
    have htotal := total_eq modulus weight candidates hlt
    -- all shares are used up by the weights, but `a` is chosen
    have heq : ∑ a ∈ candidates.toFinset, weight a =
        ∑ a ∈ candidates.toFinset, (table modulus weight candidates).share a := by omega
    have hzeroShare := (Finset.sum_eq_sum_iff_of_le hshare).mp heq a (List.mem_toFinset.mpr ha)
    have hmem : r ∈ (Finset.range (table modulus weight candidates).total).filter
        fun r => (table modulus weight candidates).sums.upperBound r = some a :=
      Finset.mem_filter.mpr ⟨Finset.mem_range.mpr (by omega), hchosen⟩
    have hpos := Finset.card_pos.mpr ⟨r, hmem⟩
    rw [Table.share] at hzeroShare
    omega
  · rintro ⟨hlt, hlast⟩ a ha -
    exact share_eq_weight modulus weight candidates hnodup hlt hlast ha

end WeightedChoice

end Chromium
