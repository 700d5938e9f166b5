import Mathlib.Data.Set.Card
import Mathlib.Tactic

/-!
# Iterators

A loop reads what an iterator points at and advances it, until there is nothing more. When every
step leads to the next member of a finite set, in some order, the loop reads the members from the
first one on, each of them once.
-/
namespace Chromium.Enumeration

variable {σ α : Type*}

/-- What the loop reads, where `current` is `none` at the end. -/
def visited (current : σ → Option α) (next : σ → σ) : ℕ → σ → Option (List α)
  | 0, _ => none
  | fuel + 1, s =>
    match current s with
    | none => some []
    | some a => (visited current next fuel (next s)).map (a :: ·)

/-- An iterator in another form reads the same. -/
lemma visited_map {τ : Type*} {current : σ → Option α} {next : σ → σ} {current' : τ → Option α}
    {next' : τ → τ} (f : σ → τ) (hcurrent : ∀ s, current' (f s) = current s)
    (hnext : ∀ s a, current s = some a → next' (f s) = f (next s)) (fuel : ℕ) (s : σ) :
    visited current' next' fuel (f s) = visited current next fuel s := by
  induction fuel generalizing s with
  | zero => rfl
  | succ fuel ih =>
    rw [visited, visited, hcurrent]
    cases hs : current s with
    | none => rfl
    | some a =>
      dsimp only
      rw [hnext s a hs, ih]

/-- Where the iterator stands: at the first member of the set that satisfies the condition, or at
the end when there is none. -/
def AtFirst (lt : α → α → Prop) (S : Set α) (p : α → Prop) : Option α → Prop
  | none => ∀ c ∈ S, ¬ p c
  | some b => b ∈ S ∧ p b ∧ ∀ c ∈ S, p c → c = b ∨ lt b c

section Visited
variable {lt : α → α → Prop} [IsStrictOrder α lt] {S : Set α} {current : σ → Option α}
  {next : σ → σ} {I : σ → Prop}

/-- From a member on, the loop reads it and those behind it. -/
theorem exists_visited_of_current (hS : S.Finite)
    (hI : ∀ s a, I s → current s = some a → I (next s))
    (hnext : ∀ s a, I s → current s = some a → AtFirst lt S (lt a) (current (next s)))
    {s : σ} {a : α} (hs : I s) (ha : current s = some a) (haS : a ∈ S) :
    ∃ fuel l, visited current next fuel s = some l ∧ l.Pairwise lt ∧
      ∀ c, c ∈ l ↔ c ∈ S ∧ (c = a ∨ lt a c) := by
  -- by the number of members that are still to come
  induction h : {c ∈ S | lt a c}.ncard using Nat.strong_induction_on generalizing s a with
  | h n ih =>
    have hat := hnext s a hs ha
    cases hcurrent : current (next s) with
    | none =>
      rw [hcurrent] at hat
      refine ⟨2, [a], by simp [visited, ha, hcurrent], List.pairwise_singleton _ _, fun c => ?_⟩
      rw [List.mem_singleton]
      constructor
      · rintro rfl
        exact ⟨haS, .inl rfl⟩
      · rintro ⟨hc, heq | hlt⟩
        · exact heq
        · exact absurd hlt (hat c hc)
    | some b =>
      rw [hcurrent] at hat
      obtain ⟨hbS, hab, hleast⟩ := hat
      have hfewer : {c ∈ S | lt b c}.ncard < n := by
        rw [← h]
        apply Set.ncard_lt_ncard _ (hS.subset fun c hc => hc.1)
        refine ⟨fun c hc => ⟨hc.1, trans_of lt hab hc.2⟩, fun hsub => ?_⟩
        exact irrefl_of lt b (hsub ⟨hbS, hab⟩).2
      obtain ⟨fuel, l, hl, hsorted, hmem⟩ := ih _ hfewer (hI s a hs ha) hcurrent hbS rfl
      refine ⟨fuel + 1, a :: l, ?_, ?_, fun c => ?_⟩
      · rw [visited, ha]
        dsimp only
        rw [hl]
        rfl
      · rw [List.pairwise_cons]
        refine ⟨fun c hc => ?_, hsorted⟩
        obtain ⟨-, rfl | hbc⟩ := (hmem c).mp hc
        · exact hab
        · exact trans_of lt hab hbc
      · rw [List.mem_cons, hmem]
        constructor
        · rintro (rfl | ⟨hc, rfl | hbc⟩)
          · exact ⟨haS, .inl rfl⟩
          · exact ⟨hc, .inr hab⟩
          · exact ⟨hc, .inr (trans_of lt hab hbc)⟩
        · rintro ⟨hc, heq | hac⟩
          · exact .inl heq
          · exact .inr ⟨hc, hleast c hc hac⟩

/-- From the first member on, the loop reads the set. -/
theorem exists_visited (hS : S.Finite) (hI : ∀ s a, I s → current s = some a → I (next s))
    (hnext : ∀ s a, I s → current s = some a → AtFirst lt S (lt a) (current (next s)))
    {s : σ} (hs : I s) (hfirst : AtFirst lt S (fun _ => True) (current s)) :
    ∃ fuel l, visited current next fuel s = some l ∧ l.Nodup ∧ ∀ c, c ∈ l ↔ c ∈ S := by
  cases hcurrent : current s with
  | none =>
    rw [hcurrent] at hfirst
    refine ⟨1, [], by simp [visited, hcurrent], .nil, fun c => ?_⟩
    simpa using fun hc => hfirst c hc trivial
  | some a =>
    rw [hcurrent] at hfirst
    obtain ⟨haS, -, hleast⟩ := hfirst
    obtain ⟨fuel, l, hl, hsorted, hmem⟩ := exists_visited_of_current hS hI hnext hs hcurrent haS
    refine ⟨fuel, l, hl, hsorted.imp fun hlt heq => ?_, fun c => ?_⟩
    · exact irrefl_of lt _ (heq ▸ hlt)
    · rw [hmem, and_iff_left_iff_imp]
      exact fun hc => hleast c hc trivial

end Visited

end Chromium.Enumeration
