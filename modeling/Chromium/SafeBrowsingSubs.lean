import Chromium.SafeBrowsingStore

/-!
# What subs leave

The comparisons of a safe browsing store order its items by keys: the add chunk and the prefix, or
these and the full hash. With them the passes over the sorted vectors cancel subs and adds.
-/
namespace Chromium.SafeBrowsing

open WireFormat PrefixItem Keyed

variable {α β : Type}

abbrev PrefixKey := ℤ ×ₗ SBPrefix

abbrev HashKey := ℤ ×ₗ SBPrefix ×ₗ List ℕ

def SBFullHash.bytes (h : SBFullHash) : List ℕ := (List.ofFn h.fullHash).map BitVec.toNat

def prefixKey [PrefixItem α] (a : α) : PrefixKey := toLex (getAddChunkId a, getAddPrefix a)

def hashKey [HashItem α] (a : α) : HashKey :=
  toLex (getAddChunkId a, toLex (getAddPrefix a, (HashItem.fullHash a).bytes))

/-- The prefix item that a full hash belongs to. -/
def HashKey.prefixKey (k : HashKey) : PrefixKey := toLex ((ofLex k).1, (ofLex (ofLex k).2).1)

@[simp]
lemma prefixKey_hashKey [HashItem α] (a : α) : (hashKey a).prefixKey = prefixKey a := rfl

/-! ### The comparisons -/

lemma sbAddPrefixLess_eq [PrefixItem α] [PrefixItem β] (a : α) (b : β) :
    sbAddPrefixLess a b = decide (prefixKey a < prefixKey b) := by
  unfold sbAddPrefixLess prefixKey
  rw [Bool.eq_iff_iff, decide_eq_true_iff, Prod.Lex.toLex_lt_toLex]
  split
  next hne => simp [hne]
  next heq => simp [not_not.mp heq]

lemma memcmp_neg_iff {as bs : List Byte} (h : as.length = bs.length) :
    memcmp as bs < 0 ↔ as.map BitVec.toNat < bs.map BitVec.toNat := by
  induction as generalizing bs with
  | nil =>
    rw [List.length_eq_zero_iff.mp h.symm]
    simp [memcmp]
  | cons a as ih =>
    cases bs with
    | nil => simp at h
    | cons b bs =>
      rw [memcmp, List.map_cons, List.map_cons, List.cons_lt_cons_iff]
      split
      next heq => simp [heq, ih (Nat.succ_injective h)]
      next hne =>
        have hne' : a.toNat ≠ b.toNat := fun h => hne (BitVec.eq_of_toNat_eq h)
        simp only [hne', false_and, or_false]
        omega

lemma sbAddPrefixHashLess_eq [HashItem α] [HashItem β] (a : α) (b : β) :
    sbAddPrefixHashLess a b = decide (hashKey a < hashKey b) := by
  have hmem : memcmp (List.ofFn (HashItem.fullHash a).fullHash)
      (List.ofFn (HashItem.fullHash b).fullHash) < 0 ↔
        (HashItem.fullHash a).bytes < (HashItem.fullHash b).bytes := memcmp_neg_iff (by simp)
  unfold sbAddPrefixHashLess
  simp only [sbAddPrefixLess_eq, hmem, decide_eq_true_iff]
  unfold prefixKey hashKey
  simp only [Prod.Lex.toLex_lt_toLex]
  rw [Bool.eq_iff_iff]
  split
  next hlt => simp; grind
  next hnot => simp; grind

/-! ### The passes -/

section Knockout

variable {predAddSub : α → β → Bool} {predSubAdd : β → α → Bool}

variable {κ : Type} [LinearOrder κ] {f : α → κ} {g : β → κ}

/-- The loop keeps and removes what cancelling the unread items does. -/
lemma knockoutLoop_eq (hAddSub : ∀ a b, predAddSub a b = decide (f a < g b))
    (hSubAdd : ∀ b a, predSubAdd b a = decide (g b < f a)) (subs : Compaction β)
    (adds : Compaction α) (addsRemoved : List α) :
    (knockoutLoop predAddSub predSubAdd subs adds addsRemoved).1.erase =
        subs.kept ++ (cancel f g adds.rest subs.rest).right ∧
      (knockoutLoop predAddSub predSubAdd subs adds addsRemoved).2.1.erase =
        adds.kept ++ (cancel f g adds.rest subs.rest).left ∧
      (knockoutLoop predAddSub predSubAdd subs adds addsRemoved).2.2 =
        addsRemoved ++ (cancel f g adds.rest subs.rest).removed := by
  fun_induction knockoutLoop predAddSub predSubAdd subs adds addsRemoved with
  | case1 subs adds addsRemoved add sub hadd hsub hlt ih =>
    have hkey : g sub < f add := by simpa [hSubAdd] using hlt
    rw [Compaction.rest_of_next hsub, Compaction.rest_of_next hadd, cancel_of_gt hkey,
      ← Compaction.rest_of_next hadd, ← Compaction.rest_keep hsub]
    simpa [Compaction.kept_keep hsub] using ih
  | case2 subs adds addsRemoved add sub hadd hsub hlt hlt' ih =>
    have hkey : f add < g sub := by simpa [hAddSub] using hlt'
    rw [Compaction.rest_of_next hsub, Compaction.rest_of_next hadd, cancel_of_lt hkey,
      ← Compaction.rest_of_next hsub, ← Compaction.rest_keep hadd]
    simpa [Compaction.kept_keep hadd] using ih
  | case3 subs adds addsRemoved add sub hadd hsub hlt hlt' ih =>
    have hkey : f add = g sub := by
      apply le_antisymm
      · simpa [hSubAdd] using hlt
      · simpa [hAddSub] using hlt'
    rw [Compaction.rest_of_next hsub, Compaction.rest_of_next hadd, cancel_of_eq hkey,
      ← Compaction.rest_skip hsub, ← Compaction.rest_skip hadd]
    simpa [Compaction.kept_skip] using ih
  | case4 subs adds addsRemoved hnot =>
    cases hadd : adds.next with
    | none => simp [Compaction.erase_eq, Compaction.rest_of_next_none hadd]
    | some add =>
      cases hsub : subs.next with
      | none => simp [Compaction.erase_eq, Compaction.rest_of_next_none hsub]
      | some sub => exact (hnot add sub hadd hsub).elim

lemma knockoutSubs_eq (hAddSub : ∀ a b, predAddSub a b = decide (f a < g b))
    (hSubAdd : ∀ b a, predSubAdd b a = decide (g b < f a)) (subs : List β) (adds : List α) :
    knockoutSubs subs adds predAddSub predSubAdd =
      ⟨(cancel f g adds subs).right, (cancel f g adds subs).left,
        (cancel f g adds subs).removed⟩ := by
  have h := knockoutLoop_eq hAddSub hSubAdd (.start subs) (.start adds) []
  simp only [Compaction.kept_start, Compaction.rest_start, List.nil_append] at h
  rw [knockoutSubs, h.1, h.2.1, h.2.2]

end Knockout

section Matching

variable [PrefixItem α] [PrefixItem β]

/-- The items up to the removed key are skipped. -/
lemma skipMatching_spec (remove : α) (hashes : Compaction β) :
    (skipMatching remove hashes).kept = hashes.kept ∧
      (skipMatching remove hashes).rest =
        hashes.rest.dropWhile fun hash => ¬ prefixKey remove < prefixKey hash := by
  fun_induction skipMatching remove hashes with
  | case1 hashes hnext =>
    rw [Compaction.rest_of_next_none hnext]
    exact ⟨rfl, rfl⟩
  | case2 hashes hash hnext hlt =>
    have hkey : prefixKey remove < prefixKey hash := by simpa [sbAddPrefixLess_eq] using hlt
    rw [Compaction.rest_of_next hnext, List.dropWhile_cons_of_neg (by simp [hkey])]
    exact ⟨rfl, rfl⟩
  | case3 hashes hash hnext hlt ih =>
    have hkey : ¬ prefixKey remove < prefixKey hash := by simpa [sbAddPrefixLess_eq] using hlt
    rw [ih.1, ih.2, Compaction.kept_skip, Compaction.rest_skip hnext,
      Compaction.rest_of_next hnext, List.dropWhile_cons_of_pos (by simp [hkey])]
    exact ⟨rfl, rfl⟩

/-- Of sorted items those stay whose key is not removed. -/
lemma removeMatchingLoop_erase (removes : List α) (hashes : Compaction β)
    (hremoves : SortedBy prefixKey removes) (hhashes : SortedBy prefixKey hashes.rest) :
    (removeMatchingLoop removes hashes).erase = hashes.kept ++
      hashes.rest.filter fun hash => ∀ remove ∈ removes, prefixKey remove ≠ prefixKey hash := by
  fun_induction removeMatchingLoop removes hashes with
  | case1 hashes => simp [Compaction.erase_eq]
  | case2 hashes remove removes hnext =>
    rw [Compaction.erase_eq, Compaction.rest_of_next_none hnext]
    rfl
  | case3 hashes remove removes hash hnext hlt ih =>
    have hkey : prefixKey hash < prefixKey remove := by simpa [sbAddPrefixLess_eq] using hlt
    have hrest := Compaction.rest_of_next hnext
    have hstays : ∀ r ∈ remove :: removes, prefixKey r ≠ prefixKey hash :=
      count_eq_zero_iff.mp (count_of_lt_head hremoves hkey)
    have ih := ih hremoves (by
      rw [Compaction.rest_keep hnext]
      exact (hrest ▸ hhashes).of_cons)
    rw [ih, Compaction.kept_keep hnext, Compaction.rest_keep hnext, hrest, List.tail_cons,
      List.filter_cons_of_pos (by simpa using hstays), List.append_assoc, List.singleton_append]
  | case4 hashes remove removes hash hnext hlt hlt' ih =>
    have hkey : prefixKey remove < prefixKey hash := by simpa [sbAddPrefixLess_eq] using hlt'
    have hrest := Compaction.rest_of_next hnext
    have hnone : ∀ x ∈ hash :: hashes.rest.tail, prefixKey x ≠ prefixKey remove :=
      count_eq_zero_iff.mp (count_of_lt_head (hrest ▸ hhashes) hkey)
    rw [ih hremoves.of_cons hhashes]
    congr 1
    apply List.filter_congr
    intro x hx
    have hne : prefixKey remove ≠ prefixKey x := (hnone x (hrest ▸ hx)).symm
    simp [hne]
  | case5 hashes remove removes hash hnext hlt hlt' ih =>
    have hkey : prefixKey remove = prefixKey hash := by
      apply le_antisymm
      · simpa [sbAddPrefixLess_eq] using hlt
      · simpa [sbAddPrefixLess_eq] using hlt'
    have hrest := Compaction.rest_of_next hnext
    have hsorted : SortedBy prefixKey (hash :: hashes.rest.tail) := hrest ▸ hhashes
    obtain ⟨hkept, hskip⟩ := skipMatching_spec remove hashes.skip
    rw [Compaction.rest_skip hnext] at hskip
    have ih := ih hremoves.of_cons (by
      rw [hskip]
      exact hsorted.of_cons.sublist (List.dropWhile_sublist _))
    rw [ih, hkept, Compaction.kept_skip, hskip, dropWhile_eq_filter hsorted.of_cons,
      List.filter_filter, hrest, List.tail_cons,
      List.filter_cons_of_neg (by simpa using fun h => (h hkey).elim)]
    congr 1
    apply List.filter_congr
    intro x hx
    have hle : prefixKey remove ≤ prefixKey x := by
      rw [hkey]
      exact List.rel_of_pairwise_cons hsorted hx
    rw [Bool.eq_iff_iff]
    simp [lt_iff_le_and_ne, hle, and_comm]

lemma removeMatchingPrefixes_eq {removes : List α} {fullHashes : List β}
    (hremoves : SortedBy prefixKey removes) (hhashes : SortedBy prefixKey fullHashes) :
    removeMatchingPrefixes removes fullHashes =
      fullHashes.filter fun hash => ∀ remove ∈ removes, prefixKey remove ≠ prefixKey hash :=
  removeMatchingLoop_erase removes (.start fullHashes) hremoves hhashes

end Matching

lemma removeDeletedLoop_erase [PrefixItem α] (delSet : Finset ℤ) (items : Compaction α) :
    (removeDeletedLoop delSet items).erase =
      items.kept ++ items.rest.filter fun item => chunkId item ∉ delSet := by
  fun_induction removeDeletedLoop delSet items with
  | case1 items hnext =>
    rw [Compaction.erase_eq, Compaction.rest_of_next_none hnext]
    rfl
  | case2 items item hnext hdel ih =>
    rw [ih, Compaction.kept_keep hnext, Compaction.rest_keep hnext,
      Compaction.rest_of_next hnext, List.filter_cons_of_pos (by simpa using hdel),
      List.tail_cons, List.append_assoc, List.singleton_append]
  | case3 items item hnext hdel ih =>
    rw [ih, Compaction.kept_skip, Compaction.rest_skip hnext, Compaction.rest_of_next hnext,
      List.filter_cons_of_neg (by simpa using hdel), List.tail_cons]

lemma removeDeleted_eq [PrefixItem α] (items : List α) (delSet : Finset ℤ) :
    removeDeleted items delSet = items.filter fun item => chunkId item ∉ delSet :=
  removeDeletedLoop_erase delSet (.start items)

/-! ### The whole call -/

structure SBLists.Perm (s t : SBLists) : Prop where
  addPrefixes : s.addPrefixes.Perm t.addPrefixes
  subPrefixes : s.subPrefixes.Perm t.subPrefixes
  addFullHashes : s.addFullHashes.Perm t.addFullHashes
  subFullHashes : s.subFullHashes.Perm t.subFullHashes

structure SBLists.IsSorted (s : SBLists) : Prop where
  addPrefixes : SortedBy prefixKey s.addPrefixes
  subPrefixes : SortedBy prefixKey s.subPrefixes
  addFullHashes : SortedBy hashKey s.addFullHashes
  subFullHashes : SortedBy hashKey s.subFullHashes

/-- A sub met an add with this key. -/
def SBLists.KnockedOut (s : SBLists) (k : PrefixKey) : Prop :=
  0 < count prefixKey k s.addPrefixes ∧ 0 < count prefixKey k s.subPrefixes

instance (s : SBLists) (k : PrefixKey) : Decidable (s.KnockedOut k) :=
  inferInstanceAs (Decidable (_ ∧ _))

/-- `kept` is what the subs of `s` leave of it: in each list some of its items, and as many with
each key as the other side does not cancel. -/
structure SBLists.Netted (s kept : SBLists) : Prop where
  sorted : kept.IsSorted
  addPrefixes : kept.addPrefixes.Subperm s.addPrefixes
  subPrefixes : kept.subPrefixes.Subperm s.subPrefixes
  addFullHashes : kept.addFullHashes.Subperm s.addFullHashes
  subFullHashes : kept.subFullHashes.Subperm s.subFullHashes
  count_addPrefixes : ∀ k, count prefixKey k kept.addPrefixes =
    count prefixKey k s.addPrefixes - count prefixKey k s.subPrefixes
  count_subPrefixes : ∀ k, count prefixKey k kept.subPrefixes =
    count prefixKey k s.subPrefixes - count prefixKey k s.addPrefixes
  count_addFullHashes : ∀ k, count hashKey k kept.addFullHashes =
    if s.KnockedOut k.prefixKey then 0
    else count hashKey k s.addFullHashes - count hashKey k s.subFullHashes
  count_subFullHashes : ∀ k, count hashKey k kept.subFullHashes =
    if s.KnockedOut k.prefixKey then 0
    else count hashKey k s.subFullHashes - count hashKey k s.addFullHashes

lemma sortedBy_prefixKey_of_hashKey [HashItem α] {l : List α} (h : SortedBy hashKey l) :
    SortedBy prefixKey l := by
  apply h.imp
  intro a b hab
  rw [← not_lt, prefixKey, prefixKey, Prod.Lex.toLex_lt_toLex]
  rw [← not_lt, hashKey, hashKey, Prod.Lex.toLex_lt_toLex, Prod.Lex.toLex_lt_toLex] at hab
  intro hlt
  cases hlt with
  | inl hlt => exact hab (.inl hlt)
  | inr hlt => exact hab (.inr ⟨hlt.1, .inl hlt.2⟩)

lemma SBLists.SortedTo.perm {s sorted : SBLists} (h : s.SortedTo sorted) : s.Perm sorted where
  addPrefixes := h.addPrefixes.1.symm
  subPrefixes := h.subPrefixes.1.symm
  addFullHashes := h.addFullHashes.1.symm
  subFullHashes := h.subFullHashes.1.symm

lemma SBLists.SortedTo.isSorted {s sorted : SBLists} (h : s.SortedTo sorted) :
    sorted.IsSorted where
  addPrefixes := h.addPrefixes.2.imp fun h => by simpa [sbAddPrefixLess_eq] using h
  subPrefixes := h.subPrefixes.2.imp fun h => by simpa [sbAddPrefixLess_eq] using h
  addFullHashes := h.addFullHashes.2.imp fun h => by simpa [sbAddPrefixHashLess_eq] using h
  subFullHashes := h.subFullHashes.2.imp fun h => by simpa [sbAddPrefixHashLess_eq] using h

/-- The hashes of no removed prefix. -/
def survivors [HashItem α] (removed : List SBAddPrefix) (l : List α) : List α :=
  l.filter fun hash => ∀ remove ∈ removed, prefixKey remove ≠ prefixKey hash

/-- The passes over sorted vectors, as cancellations by the two keys. -/
lemma knockout_eq {s : SBLists} (h : s.IsSorted) :
    let prefixes := cancel prefixKey prefixKey s.addPrefixes s.subPrefixes
    let hashes := cancel hashKey hashKey (survivors prefixes.removed s.addFullHashes)
      (survivors prefixes.removed s.subFullHashes)
    s.knockout = ⟨prefixes.left, prefixes.right, hashes.left, hashes.right⟩ := by
  intro prefixes hashes
  have hprefixes := knockoutSubs_eq sbAddPrefixLess_eq sbAddPrefixLess_eq s.subPrefixes
    s.addPrefixes
  have hremoved : SortedBy prefixKey prefixes.removed :=
    h.addPrefixes.sublist (cancel_sublist s.addPrefixes s.subPrefixes).2.2
  have hadd := removeMatchingPrefixes_eq hremoved (sortedBy_prefixKey_of_hashKey h.addFullHashes)
  have hsub := removeMatchingPrefixes_eq hremoved (sortedBy_prefixKey_of_hashKey h.subFullHashes)
  have hhashes := knockoutSubs_eq sbAddPrefixHashLess_eq sbAddPrefixHashLess_eq
    (survivors prefixes.removed s.subFullHashes) (survivors prefixes.removed s.addFullHashes)
  unfold SBLists.knockout
  rw [hprefixes]
  dsimp only
  rw [hadd, hsub]
  exact congrArg (fun r : Knockout SBAddFullHash SBSubFullHash =>
    (⟨prefixes.left, prefixes.right, r.adds, r.subs⟩ : SBLists)) hhashes

/-- The removed adds have the keys that were knocked out. -/
lemma count_survivors [HashItem α] {s : SBLists} (h : s.IsSorted) (k : HashKey) (l : List α) :
    count hashKey k (survivors (cancel prefixKey prefixKey s.addPrefixes s.subPrefixes).removed l) =
      if s.KnockedOut k.prefixKey then 0 else count hashKey k l := by
  apply count_filter
  intro a hk
  have hcount := (count_cancel h.addPrefixes h.subPrefixes k.prefixKey).2.2
  have hknocked : s.KnockedOut k.prefixKey ↔
      0 < count prefixKey k.prefixKey
        (cancel prefixKey prefixKey s.addPrefixes s.subPrefixes).removed := by
    rw [hcount, lt_min_iff]
    rfl
  rw [hknocked, count_pos_iff, ← hk, prefixKey_hashKey]
  simp

/-- The passes net out sorted lists. -/
lemma knockout_netted {s : SBLists} (h : s.IsSorted) : s.Netted s.knockout := by
  have heq := knockout_eq h
  have hprefixes := cancel_sublist (f := prefixKey) (g := prefixKey) s.addPrefixes s.subPrefixes
  have hcount := count_cancel h.addPrefixes h.subPrefixes
  have hadd := fun k => count_survivors h k s.addFullHashes
  have hsub := fun k => count_survivors h k s.subFullHashes
  generalize cancel prefixKey prefixKey s.addPrefixes s.subPrefixes = prefixes at *
  have hadds : (survivors prefixes.removed s.addFullHashes).Sublist s.addFullHashes :=
    List.filter_sublist
  have hsubs : (survivors prefixes.removed s.subFullHashes).Sublist s.subFullHashes :=
    List.filter_sublist
  have hhashes := cancel_sublist (f := hashKey) (g := hashKey)
    (survivors prefixes.removed s.addFullHashes) (survivors prefixes.removed s.subFullHashes)
  have hcount' := count_cancel (h.addFullHashes.sublist hadds) (h.subFullHashes.sublist hsubs)
  dsimp only at heq
  rw [heq]
  exact
    { sorted :=
        { addPrefixes := h.addPrefixes.sublist hprefixes.1
          subPrefixes := h.subPrefixes.sublist hprefixes.2.1
          addFullHashes := h.addFullHashes.sublist (hhashes.1.trans hadds)
          subFullHashes := h.subFullHashes.sublist (hhashes.2.1.trans hsubs) }
      addPrefixes := hprefixes.1.subperm
      subPrefixes := hprefixes.2.1.subperm
      addFullHashes := (hhashes.1.trans hadds).subperm
      subFullHashes := (hhashes.2.1.trans hsubs).subperm
      count_addPrefixes := fun k => (hcount k).1
      count_subPrefixes := fun k => (hcount k).2.1
      count_addFullHashes := fun k => by
        rw [(hcount' k).1, hadd, hsub]
        split
        next => rfl
        next => rfl
      count_subFullHashes := fun k => by
        rw [(hcount' k).2.1, hadd, hsub]
        split
        next => rfl
        next => rfl }

/-- Only what the lists hold matters for what is netted, not its order. -/
lemma SBLists.Netted.of_perm {s t kept : SBLists} (h : t.Netted kept) (hperm : s.Perm t) :
    s.Netted kept := by
  have hadd := count_eq_of_perm (f := prefixKey) hperm.addPrefixes
  have hsub := count_eq_of_perm (f := prefixKey) hperm.subPrefixes
  have hknocked : ∀ k, s.KnockedOut k ↔ t.KnockedOut k := by
    intro k
    rw [KnockedOut, KnockedOut, hadd, hsub]
  exact
    { sorted := h.sorted
      addPrefixes := h.addPrefixes.trans hperm.addPrefixes.symm.subperm
      subPrefixes := h.subPrefixes.trans hperm.subPrefixes.symm.subperm
      addFullHashes := h.addFullHashes.trans hperm.addFullHashes.symm.subperm
      subFullHashes := h.subFullHashes.trans hperm.subFullHashes.symm.subperm
      count_addPrefixes := fun k => by rw [hadd, hsub, h.count_addPrefixes]
      count_subPrefixes := fun k => by rw [hadd, hsub, h.count_subPrefixes]
      count_addFullHashes := fun k => by
        rw [h.count_addFullHashes, count_eq_of_perm hperm.addFullHashes,
          count_eq_of_perm hperm.subFullHashes]
        simp only [hknocked]
      count_subFullHashes := fun k => by
        rw [h.count_subFullHashes, count_eq_of_perm hperm.addFullHashes,
          count_eq_of_perm hperm.subFullHashes]
        simp only [hknocked] }

/-- The keys of all items, list by list and in their order. -/
def SBLists.keys (s : SBLists) : List PrefixKey × List PrefixKey × List HashKey × List HashKey :=
  (s.addPrefixes.map prefixKey, s.subPrefixes.map prefixKey, s.addFullHashes.map hashKey,
    s.subFullHashes.map hashKey)

lemma SBLists.Netted.keys_eq {s kept kept' : SBLists} (h : s.Netted kept) (h' : s.Netted kept') :
    kept.keys = kept'.keys := by
  have hadd := map_eq_of_count h.sorted.addPrefixes h'.sorted.addPrefixes fun k => by
    rw [h.count_addPrefixes, h'.count_addPrefixes]
  have hsub := map_eq_of_count h.sorted.subPrefixes h'.sorted.subPrefixes fun k => by
    rw [h.count_subPrefixes, h'.count_subPrefixes]
  have hadd' := map_eq_of_count h.sorted.addFullHashes h'.sorted.addFullHashes fun k => by
    rw [h.count_addFullHashes, h'.count_addFullHashes]
  have hsub' := map_eq_of_count h.sorted.subFullHashes h'.sorted.subFullHashes fun k => by
    rw [h.count_subFullHashes, h'.count_subFullHashes]
  rw [keys, keys, hadd, hsub, hadd', hsub']

/-- An add prefix is its key. -/
lemma prefixKey_injective : Function.Injective (prefixKey : SBAddPrefix → PrefixKey) := by
  intro a b h
  have h := congrArg ofLex h
  cases a
  cases b
  have hchunk := congrArg Prod.fst h
  have hpre := congrArg Prod.snd h
  dsimp [prefixKey, getAddChunkId, getAddPrefix] at hchunk hpre
  rw [hchunk, hpre]

/-- Items with the same key are identical: of subs the chunks, of full hashes the times too. -/
structure SBLists.Uniform (s : SBLists) : Prop where
  subPrefixes : Keyed.Uniform prefixKey s.subPrefixes
  addFullHashes : Keyed.Uniform hashKey s.addFullHashes
  subFullHashes : Keyed.Uniform hashKey s.subFullHashes

/-- Without different items under one key there is one way to sort. -/
lemma SBLists.IsSorted.eq_of_perm {s t : SBLists} (hs : s.IsSorted) (ht : t.IsSorted)
    (hperm : s.Perm t) (huniform : s.Uniform) : s = t := by
  have hadd := eq_of_perm_of_uniform hs.addPrefixes ht.addPrefixes hperm.addPrefixes
    fun _ _ _ _ h => prefixKey_injective h
  have hsub := eq_of_perm_of_uniform hs.subPrefixes ht.subPrefixes hperm.subPrefixes
    huniform.subPrefixes
  have hadd' := eq_of_perm_of_uniform hs.addFullHashes ht.addFullHashes hperm.addFullHashes
    huniform.addFullHashes
  have hsub' := eq_of_perm_of_uniform hs.subFullHashes ht.subFullHashes hperm.subFullHashes
    huniform.subFullHashes
  cases s
  cases t
  congr

lemma SBLists.Perm.symm {s t : SBLists} (h : s.Perm t) : t.Perm s where
  addPrefixes := h.addPrefixes.symm
  subPrefixes := h.subPrefixes.symm
  addFullHashes := h.addFullHashes.symm
  subFullHashes := h.subFullHashes.symm

lemma SBLists.Perm.trans {s t u : SBLists} (h : s.Perm t) (h' : t.Perm u) : s.Perm u where
  addPrefixes := h.addPrefixes.trans h'.addPrefixes
  subPrefixes := h.subPrefixes.trans h'.subPrefixes
  addFullHashes := h.addFullHashes.trans h'.addFullHashes
  subFullHashes := h.subFullHashes.trans h'.subFullHashes

lemma SBLists.Uniform.of_perm {s t : SBLists} (h : s.Uniform) (hperm : s.Perm t) : t.Uniform where
  subPrefixes := h.subPrefixes.of_perm hperm.subPrefixes
  addFullHashes := h.addFullHashes.of_perm hperm.addFullHashes
  subFullHashes := h.subFullHashes.of_perm hperm.subFullHashes

lemma exists_sortedTo (s : SBLists) : ∃ sorted, s.SortedTo sorted := by
  obtain ⟨adds, hadds, hadds'⟩ := exists_sortedBy prefixKey s.addPrefixes
  obtain ⟨subs, hsubs, hsubs'⟩ := exists_sortedBy prefixKey s.subPrefixes
  obtain ⟨addFull, haddFull, haddFull'⟩ := exists_sortedBy hashKey s.addFullHashes
  obtain ⟨subFull, hsubFull, hsubFull'⟩ := exists_sortedBy hashKey s.subFullHashes
  exact ⟨⟨adds, subs, addFull, subFull⟩,
    { addPrefixes := ⟨hadds, hadds'.imp fun h => by simpa [sbAddPrefixLess_eq] using h⟩
      subPrefixes := ⟨hsubs, hsubs'.imp fun h => by simpa [sbAddPrefixLess_eq] using h⟩
      addFullHashes := ⟨haddFull, haddFull'.imp fun h => by simpa [sbAddPrefixHashLess_eq] using h⟩
      subFullHashes :=
        ⟨hsubFull, hsubFull'.imp fun h => by simpa [sbAddPrefixHashLess_eq] using h⟩ }⟩

/-- The items whose chunk was not deleted. -/
def SBLists.without (s : SBLists) (addChunksDeleted subChunksDeleted : Finset ℤ) : SBLists :=
  { addPrefixes := s.addPrefixes.filter fun item => chunkId item ∉ addChunksDeleted
    subPrefixes := s.subPrefixes.filter fun item => chunkId item ∉ subChunksDeleted
    addFullHashes := s.addFullHashes.filter fun item => chunkId item ∉ addChunksDeleted
    subFullHashes := s.subFullHashes.filter fun item => chunkId item ∉ subChunksDeleted }

lemma removeDeleted_eq_without (s : SBLists) (addChunksDeleted subChunksDeleted : Finset ℤ) :
    s.removeDeleted addChunksDeleted subChunksDeleted =
      s.without addChunksDeleted subChunksDeleted := by
  unfold SBLists.removeDeleted SBLists.without
  rw [removeDeleted_eq, removeDeleted_eq, removeDeleted_eq, removeDeleted_eq]

lemma SBLists.IsSorted.without {s : SBLists} (h : s.IsSorted)
    (addChunksDeleted subChunksDeleted : Finset ℤ) :
    (s.without addChunksDeleted subChunksDeleted).IsSorted where
  addPrefixes := h.addPrefixes.sublist List.filter_sublist
  subPrefixes := h.subPrefixes.sublist List.filter_sublist
  addFullHashes := h.addFullHashes.sublist List.filter_sublist
  subFullHashes := h.subFullHashes.sublist List.filter_sublist

/-- Any call nets the lists out, then drops the deleted chunks and leaves sorted lists. Another
order of the same items nets out to the same keys and the same adds; only which of several
different items with one key is left may change. -/
theorem sbProcessSubs_nets (addChunksDeleted subChunksDeleted : Finset ℤ) (s : SBLists) :
    (∃ result, SBProcessSubs s addChunksDeleted subChunksDeleted result) ∧
      ∀ result, SBProcessSubs s addChunksDeleted subChunksDeleted result →
        result.IsSorted ∧ ∃ kept, s.Netted kept ∧
          result = kept.without addChunksDeleted subChunksDeleted ∧
          ∀ t result', s.Perm t → SBProcessSubs t addChunksDeleted subChunksDeleted result' →
            result'.addPrefixes = result.addPrefixes ∧
            (∃ kept', s.Netted kept' ∧ kept'.keys = kept.keys ∧
              result' = kept'.without addChunksDeleted subChunksDeleted) ∧
            (s.Uniform → result' = result) := by
  constructor
  · obtain ⟨sorted, hsorted⟩ := exists_sortedTo s
    exact ⟨_, sorted, hsorted, rfl⟩
  intro result ⟨sorted, hsorted, hresult⟩
  rw [removeDeleted_eq_without] at hresult
  have hnetted := (knockout_netted hsorted.isSorted).of_perm hsorted.perm
  constructor
  · rw [hresult]
    exact hnetted.sorted.without addChunksDeleted subChunksDeleted
  use sorted.knockout, hnetted, hresult
  intro t result' hperm ⟨sorted', hsorted', hresult'⟩
  rw [removeDeleted_eq_without] at hresult'
  have hperm' := hperm.trans hsorted'.perm
  have hnetted' := (knockout_netted hsorted'.isSorted).of_perm hperm'
  have hkeys := hnetted'.keys_eq hnetted
  constructor
  · have hadds : sorted'.knockout.addPrefixes = sorted.knockout.addPrefixes :=
      List.map_injective_iff.mpr prefixKey_injective (congrArg Prod.fst hkeys)
    rw [hresult, hresult']
    unfold SBLists.without
    rw [hadds]
  constructor
  · exact ⟨sorted'.knockout, hnetted', hkeys, hresult'⟩
  · intro huniform
    have heq : sorted' = sorted := hsorted'.isSorted.eq_of_perm hsorted.isSorted
      (hperm'.symm.trans hsorted.perm) (huniform.of_perm hperm')
    rw [hresult, hresult', heq]

/-- Of subs for one add the first is used up. -/
lemma knockout_subs_of_add (a : SBAddPrefix) (b : SBSubPrefix) (subs : List SBSubPrefix)
    (h : SBLists.IsSorted ⟨[a], b :: subs, [], []⟩) (hkey : prefixKey a = prefixKey b) :
    SBLists.knockout ⟨[a], b :: subs, [], []⟩ = ⟨[], subs, [], []⟩ := by
  rw [knockout_eq h]
  dsimp only
  rw [cancel_of_eq hkey, cancel_nil_left, survivors, survivors, List.filter_nil, List.filter_nil,
    cancel_nil_left]

/-- Of two subs for one add the first is used up. The other one is left, and it is dropped when its
chunk was deleted. -/
theorem sbProcessSubs_order_matters :
    SBLists.Perm ⟨[⟨5, 7⟩], [⟨1, 5, 7⟩, ⟨2, 5, 7⟩], [], []⟩
        ⟨[⟨5, 7⟩], [⟨2, 5, 7⟩, ⟨1, 5, 7⟩], [], []⟩ ∧
      SBProcessSubs ⟨[⟨5, 7⟩], [⟨1, 5, 7⟩, ⟨2, 5, 7⟩], [], []⟩ ∅ {2} ⟨[], [], [], []⟩ ∧
      SBProcessSubs ⟨[⟨5, 7⟩], [⟨2, 5, 7⟩, ⟨1, 5, 7⟩], [], []⟩ ∅ {2}
        ⟨[], [⟨1, 5, 7⟩], [], []⟩ := by
  constructor
  · exact ⟨.refl _, .swap _ _ _, .refl _, .refl _⟩
  constructor
  · have hsorted : SBLists.SortedTo ⟨[⟨5, 7⟩], [⟨1, 5, 7⟩, ⟨2, 5, 7⟩], [], []⟩
        ⟨[⟨5, 7⟩], [⟨1, 5, 7⟩, ⟨2, 5, 7⟩], [], []⟩ := by
      constructor <;> exact ⟨.refl _, by decide⟩
    use ⟨[⟨5, 7⟩], [⟨1, 5, 7⟩, ⟨2, 5, 7⟩], [], []⟩, hsorted
    rw [knockout_subs_of_add ⟨5, 7⟩ ⟨1, 5, 7⟩ [⟨2, 5, 7⟩] hsorted.isSorted rfl,
      removeDeleted_eq_without]
    rfl
  · have hsorted : SBLists.SortedTo ⟨[⟨5, 7⟩], [⟨2, 5, 7⟩, ⟨1, 5, 7⟩], [], []⟩
        ⟨[⟨5, 7⟩], [⟨2, 5, 7⟩, ⟨1, 5, 7⟩], [], []⟩ := by
      constructor <;> exact ⟨.refl _, by decide⟩
    use ⟨[⟨5, 7⟩], [⟨2, 5, 7⟩, ⟨1, 5, 7⟩], [], []⟩, hsorted
    rw [knockout_subs_of_add ⟨5, 7⟩ ⟨2, 5, 7⟩ [⟨1, 5, 7⟩] hsorted.isSorted rfl,
      removeDeleted_eq_without]
    rfl

end Chromium.SafeBrowsing
