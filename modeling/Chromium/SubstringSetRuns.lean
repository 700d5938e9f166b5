import Chromium.SubstringSetFailures

/-!
# Searches after any calls

A matcher stands for the patterns that are registered, by their ids. Whatever calls have been
made, a search adds the ids of the patterns that occur in the text, and says whether there
were new ones among them.
-/
namespace Chromium.SubstringSet

open AhoCorasickNode PrefixTrie SubstringSetMatcher

variable {tree : Tree} {node : AhoCorasickNode} {T : PrefixTrie SignedChar}
variable {i : ℕ} {c : SignedChar} {t text : Text} {own : ℕ → Finset ID} {out ids : Finset ID}

/-! ### Searches -/

/-- The output is what the nodes own whose words occur in the text. -/
def Occurs (T : PrefixTrie SignedChar) (own : ℕ → Finset ID) (ids : Finset ID) (t : Text)
    (out : Finset ID) : Prop :=
  ∀ a, a ∈ out ↔ a ∈ ids ∨ ∃ k < T.size, T.word k <:+: t ∧ a ∈ own k

/-- Each letter of the text leads to the longest suffix of what has been read. -/
lemma matchStep_spec (h : Ready T own tree) (hi : T.Longest t i) (hout : Occurs T own ids t out)
    (c : SignedChar) :
    ∃ j out', matchStep tree (i, out) c = some (j, out') ∧ T.Longest (t ++ [c]) j ∧
      Occurs T own ids (t ++ [c]) out' := by
  obtain ⟨j, e, hrun, hlongest, hroot⟩ := followFailures_spec h.represents
    (fun k _ _ node => h.linked k node) (hi.candidate c)
    (h.represents.length ▸ length_word_lt hi.lt)
  rw [matchStep, hrun]
  have hends : ∀ k < T.size, T.word k <:+: t ++ [c] ↔
      T.word k <:+ T.word (e.getD 0) ∨ T.word k <:+: t := by
    intro k hk
    rw [List.infix_concat_iff]
    apply or_congr_left
    exact ⟨hlongest.suffix_word hk, fun hsuf => hsuf.trans hlongest.suffix⟩
  have hsplit : ∀ a, (a ∈ ids ∨ ∃ k < T.size, T.word k <:+: t ++ [c] ∧ a ∈ own k) ↔
      a ∈ out ∨ ∃ k < T.size, T.word k <:+ T.word (e.getD 0) ∧ a ∈ own k := by
    intro a
    rw [hout a]
    constructor
    · rintro (ha | ⟨k, hk, hin, ha⟩)
      · exact .inl (.inl ha)
      · rcases (hends k hk).mp hin with hsuf | hin
        · exact .inr ⟨k, hk, hsuf, ha⟩
        · exact .inl (.inr ⟨k, hk, hin, ha⟩)
    · rintro ((ha | ⟨k, hk, hin, ha⟩) | ⟨k, hk, hsuf, ha⟩)
      · exact .inl ha
      · exact .inr ⟨k, hk, (hends k hk).mpr (.inr hin), ha⟩
      · exact .inr ⟨k, hk, (hends k hk).mpr (.inl hsuf), ha⟩
  -- what the root owns is in the output from the start
  have hown_root : ∀ a ∈ own 0, a ∈ out := by
    intro a ha
    rw [hout a]
    exact .inr ⟨0, T.size_pos, by rw [T.word_root]; exact List.nil_infix, ha⟩
  have hcollects : ∀ node, tree[e.getD 0]? = some node →
      ∀ a, a ∈ out ∪ node.found ↔ a ∈ out ∨
        ∃ k < T.size, T.word k <:+ T.word (e.getD 0) ∧ a ∈ own k := by
    intro node hnode a
    rw [Finset.mem_union, ← (h.linked _ node hnode).collects a]
    constructor
    · exact fun ha => ha.imp_right .inl
    · rintro (ha | ha | ha)
      · exact .inl ha
      · exact .inr ha
      · exact .inl (hown_root a ha)
  cases e with
  | some next =>
    obtain ⟨node, hget, -⟩ := h.represents.get hlongest.lt
    refine ⟨next, out ∪ node.found, ?_, hlongest, ?_⟩
    · simp only [Option.bind_eq_bind, Option.bind_some]
      rw [Option.getD_some] at hget
      rw [hget]
      rfl
    · intro a
      rw [hsplit, hcollects node hget]
  | none =>
    refine ⟨j, out, rfl, by rwa [hroot rfl], ?_⟩
    intro a
    rw [hsplit]
    constructor
    · exact .inl
    · rintro (ha | ⟨k, hk, hsuf, ha⟩)
      · exact ha
      · rw [Option.getD_none, T.word_root] at hsuf
        rw [(word_eq_nil hk).mp (List.suffix_nil.mp hsuf)] at ha
        exact hown_root a ha

lemma matchSteps_spec (h : Ready T own tree) (text : Text) (hi : T.Longest t i)
    (hout : Occurs T own ids t out) :
    ∃ j out', text.foldlM (matchStep tree) (i, out) = some (j, out') ∧
      Occurs T own ids (t ++ text) out' := by
  induction text generalizing t i out with
  | nil => exact ⟨i, out, rfl, by rwa [List.append_nil]⟩
  | cons c text ih =>
    obtain ⟨j, out', hstep, hj, hout'⟩ := matchStep_spec h hi hout c
    obtain ⟨l, out'', hrest, hout''⟩ := ih hj hout'
    refine ⟨l, out'', ?_, by rwa [List.append_assoc] at hout''⟩
    rw [List.foldlM_cons, hstep]
    exact hrest

lemma matchText_spec {m : SubstringSetMatcher} (h : Ready T own m.tree) (text : Text)
    (ids : Finset ID) :
    ∃ out, m.matchText text ids = some (out, ids.card != out.card) ∧ Occurs T own ids text out := by
  obtain ⟨root, hget, -⟩ := h.represents.get T.size_pos
  have hroot : root.found = own 0 := by rw [← foundAt_eq hget, h.root]
  have hstart : Occurs T own ids [] (ids ∪ root.found) := by
    intro a
    rw [Finset.mem_union, hroot]
    apply or_congr_right
    constructor
    · exact fun ha => ⟨0, T.size_pos, by rw [T.word_root], ha⟩
    · rintro ⟨k, hk, hin, ha⟩
      rwa [(word_eq_nil hk).mp (List.infix_nil.mp hin)] at ha
  obtain ⟨j, out, hrun, hout⟩ := matchSteps_spec h text T.longest_nil hstart
  refine ⟨out, ?_, hout⟩
  rw [matchText, hget]
  simp only [Option.bind_eq_bind, Option.bind_some, hrun]

/-! ### Calls -/

/-- The patterns that are registered, by their ids. -/
abbrev Registry := ID → Option Text

def Registry.register (r : Registry) (p : StringPattern) : Registry :=
  Function.update r p.id (some p.pattern)

def Registry.unregister (r : Registry) (p : StringPattern) : Registry :=
  Function.update r p.id none

inductive Call
  | registerPatterns (patterns : List StringPattern)
  | unregisterPatterns (patterns : List StringPattern)
  | registerAndUnregisterPatterns (to_register to_unregister : List StringPattern)

def Call.run (m : SubstringSetMatcher) : Call → Option SubstringSetMatcher
  | .registerPatterns ps => m.registerPatterns ps
  | .unregisterPatterns ps => m.unregisterPatterns ps
  | .registerAndUnregisterPatterns ps qs => m.registerAndUnregisterPatterns ps qs

def Call.effect (r : Registry) : Call → Registry
  | .registerPatterns ps => ps.foldl Registry.register r
  | .unregisterPatterns ps => ps.foldl Registry.unregister r
  | .registerAndUnregisterPatterns ps qs =>
    qs.foldl Registry.unregister (ps.foldl Registry.register r)

/-- The matcher after some calls. -/
def runCalls (calls : List Call) : Option SubstringSetMatcher := do
  let m ← create
  calls.foldlM Call.run m

/-- The patterns registered by some calls. -/
def registered (calls : List Call) : Registry := calls.foldl Call.effect fun _ => none

/-- The map of the patterns. -/
def Lists (patterns : SortedMap ID StringPattern) (r : Registry) : Prop :=
  ∀ a p, patterns.find a = some p ↔ p.id = a ∧ r a = some p.pattern

/-- The matcher finds the patterns that are registered. -/
structure Serves (m : SubstringSetMatcher) (r : Registry) : Prop where
  lists : Lists m.patterns r
  ready : ∃ T own, Ready T own m.tree ∧
    (∀ i < T.size, ∀ a, a ∈ own i ↔ r a = some (T.word i)) ∧
    ∀ a pattern, r a = some pattern → ∃ i < T.size, T.word i = pattern

lemma rebuild_spec (ps : List StringPattern) :
    ∃ T own tree, rebuildAhoCorasickTree ps = some tree ∧ Ready T own tree ∧
      (∀ i < T.size, ∀ a, a ∈ own i ↔ ∃ p ∈ ps, p.id = a ∧ p.pattern = T.word i) ∧
      ∀ p ∈ ps, ∃ i < T.size, T.word i = p.pattern := by
  obtain ⟨T, tree, hinsert, h⟩ := insertPatterns_spec [] ps holdsPatterns_root
  obtain ⟨tree', hfailures, hready⟩ := createFailureEdges_spec h.represents
  refine ⟨T, foundAt tree, tree', ?_, hready, h.mem_foundAt, h.exists_word⟩
  rw [rebuildAhoCorasickTree]
  simp only [Option.bind_eq_bind, hinsert, Option.bind_some]
  exact hfailures

lemma Lists.register {patterns : SortedMap ID StringPattern} {r : Registry}
    (h : Lists patterns r) (p : StringPattern) :
    Lists (patterns.assign p.id p) (r.register p) := by
  intro a q
  rw [SortedMap.find_assign, Registry.register, Function.update_apply]
  split_ifs with ha
  · rw [ha, Option.some.injEq, Option.some.injEq]
    constructor
    · rintro rfl
      exact ⟨rfl, rfl⟩
    · rintro ⟨hid, hpattern⟩
      cases p
      cases q
      cases hid
      cases hpattern
      rfl
  · exact h a q

lemma Lists.unregister {patterns : SortedMap ID StringPattern} {r : Registry}
    (h : Lists patterns r) (p : StringPattern) :
    Lists (patterns.erase p.id) (r.unregister p) := by
  intro a q
  rw [SortedMap.find_erase, Registry.unregister, Function.update_apply]
  split_ifs with ha
  · simp
  · exact h a q

lemma Lists.registerAll {patterns : SortedMap ID StringPattern} {r : Registry}
    (h : Lists patterns r) (ps : List StringPattern) :
    Lists (ps.foldl (fun m p => m.assign p.id p) patterns) (ps.foldl Registry.register r) := by
  induction ps generalizing patterns r with
  | nil => exact h
  | cons p ps ih => exact ih (h.register p)

lemma Lists.unregisterAll {patterns : SortedMap ID StringPattern} {r : Registry}
    (h : Lists patterns r) (ps : List StringPattern) :
    Lists (ps.foldl (fun m p => m.erase p.id) patterns) (ps.foldl Registry.unregister r) := by
  induction ps generalizing patterns r with
  | nil => exact h
  | cons p ps ih => exact ih (h.unregister p)

lemma create_serves : ∃ m, create = some m ∧ Serves m fun _ => none := by
  obtain ⟨T, own, tree, hrun, hready, hown, -⟩ := rebuild_spec []
  refine ⟨⟨∅, tree⟩, by rw [create, hrun]; rfl, ?_, T, own, hready, ?_, ?_⟩
  · intro a p
    simp
  · intro i hi a
    rw [hown i hi a]
    simp
  · rintro a pattern ⟨⟩

lemma Serves.registerAndUnregister {m : SubstringSetMatcher} {r : Registry} (h : Serves m r)
    (ps qs : List StringPattern) :
    ∃ m', m.registerAndUnregisterPatterns ps qs = some m' ∧
      Serves m' (qs.foldl Registry.unregister (ps.foldl Registry.register r)) := by
  have hlists := (h.lists.registerAll ps).unregisterAll qs
  generalize hr : qs.foldl Registry.unregister (ps.foldl Registry.register r) = r' at hlists
  rw [registerAndUnregisterPatterns]
  generalize qs.foldl _ _ = patterns at hlists
  generalize hsorted : (patterns.entries.map Prod.snd).mergeSort _ = sorted_patterns
  have hmem : ∀ p, p ∈ sorted_patterns ↔ r' p.id = some p.pattern := by
    intro p
    rw [← hsorted, List.mem_mergeSort, List.mem_map]
    constructor
    · rintro ⟨⟨a, q⟩, he, rfl⟩
      obtain ⟨hid, hpattern⟩ := (hlists a q).mp (SortedMap.find_eq_some.mpr he)
      exact hid ▸ hpattern
    · intro hp
      exact ⟨(p.id, p), SortedMap.find_eq_some.mp ((hlists p.id p).mpr ⟨rfl, hp⟩), rfl⟩
  obtain ⟨T, own, tree, hrun, hready, hown, hword⟩ := rebuild_spec sorted_patterns
  refine ⟨⟨patterns, tree⟩, by rw [hrun]; rfl, hlists, T, own, hready, ?_, ?_⟩
  · intro i hi a
    rw [hown i hi a]
    constructor
    · rintro ⟨p, hp, rfl, hpattern⟩
      rw [← hpattern]
      exact (hmem p).mp hp
    · intro ha
      exact ⟨⟨T.word i, a⟩, (hmem _).mpr ha, rfl, rfl⟩
  · intro a pattern ha
    exact hword ⟨pattern, a⟩ ((hmem _).mpr ha)

lemma Serves.call {m : SubstringSetMatcher} {r : Registry} (h : Serves m r) (call : Call) :
    ∃ m', call.run m = some m' ∧ Serves m' (call.effect r) := by
  cases call with
  | registerPatterns ps => exact h.registerAndUnregister ps []
  | unregisterPatterns ps => exact h.registerAndUnregister [] ps
  | registerAndUnregisterPatterns ps qs => exact h.registerAndUnregister ps qs

lemma Serves.calls {m : SubstringSetMatcher} {r : Registry} (h : Serves m r) (calls : List Call) :
    ∃ m', calls.foldlM Call.run m = some m' ∧ Serves m' (calls.foldl Call.effect r) := by
  induction calls generalizing m r with
  | nil => exact ⟨m, rfl, h⟩
  | cons call calls ih =>
    obtain ⟨m', hrun, h'⟩ := h.call call
    obtain ⟨m'', hrest, h''⟩ := ih h'
    refine ⟨m'', ?_, h''⟩
    rw [List.foldlM_cons, hrun]
    exact hrest

lemma runCalls_serves (calls : List Call) :
    ∃ m, runCalls calls = some m ∧ Serves m (registered calls) := by
  obtain ⟨m, hcreate, h⟩ := create_serves
  obtain ⟨m', hrun, h'⟩ := h.calls calls
  refine ⟨m', ?_, h'⟩
  rw [runCalls, hcreate]
  exact hrun

/-- What has been added to a set makes it larger. -/
lemma card_bne_iff (h : ids ⊆ out) : (ids.card != out.card) = true ↔ ids ⊂ out := by
  rw [bne_iff_ne, Finset.ssubset_iff_subset_ne]
  constructor
  · intro hne
    exact ⟨h, fun heq => hne (congrArg Finset.card heq)⟩
  · rintro ⟨-, hne⟩ hcard
    exact hne (Finset.eq_of_subset_of_card_le h hcard.ge)

/-- After any calls, a search ends and finds the patterns that occur in the text. -/
theorem match_finds_substrings (calls : List Call) (text : Text) (ids : Finset ID) :
    ∃ m out grew, runCalls calls = some m ∧ m.matchText text ids = some (out, grew) ∧
      (∀ a, a ∈ out ↔ a ∈ ids ∨ ∃ pattern, registered calls a = some pattern ∧ pattern <:+: text) ∧
      (grew = true ↔ ids ⊂ out) := by
  obtain ⟨m, hrun, h⟩ := runCalls_serves calls
  obtain ⟨T, own, hready, hown, hword⟩ := h.ready
  obtain ⟨out, hmatch, hout⟩ := matchText_spec hready text ids
  have hsub : ids ⊆ out := fun a ha => (hout a).mpr (.inl ha)
  refine ⟨m, out, _, hrun, hmatch, ?_, card_bne_iff hsub⟩
  intro a
  rw [hout a]
  apply or_congr_right
  constructor
  · rintro ⟨i, hi, hin, ha⟩
    exact ⟨T.word i, (hown i hi a).mp ha, hin⟩
  · rintro ⟨pattern, ha, hin⟩
    obtain ⟨i, hi, rfl⟩ := hword a pattern ha
    exact ⟨i, hi, hin, (hown i hi a).mpr ha⟩

end Chromium.SubstringSet
