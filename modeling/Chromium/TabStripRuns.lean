import Chromium.TabStripModel

/-!
# Invariants of the tab strip

In every strip that calls lead to, the selection is over tabs that exist, mini-tabs come first
and no contents are there twice.
-/
namespace Chromium.TabStrip

open ListMoves ListSelection

/-- A tab without its openers and groups. -/
structure Tab where
  contents : WebContents
  pinned : Bool
  deriving DecidableEq, Repr

def Tab.mini (t : Tab) : Bool := t.pinned || t.contents.isApp

def WebContentsData.tab (d : WebContentsData) : Tab := ⟨d.webContents, d.pinned⟩

/-- The first `f` tabs and no others are mini-tabs. -/
def Boundary (tabs : List Tab) (f : ℕ) : Prop :=
  f ≤ tabs.length ∧ ∀ k t, tabs[k]? = some t → (t.mini = true ↔ k < f)

section Boundary
variable {tabs : List Tab} {f i j : ℕ} {t : Tab}

lemma Boundary.nil : Boundary [] 0 := ⟨le_rfl, by simp⟩

lemma Boundary.findIdx (h : Boundary tabs f) : tabs.findIdx (fun t => ¬ t.mini) = f := by
  rcases Nat.lt_or_ge f tabs.length with hlt | hge
  · refine (List.findIdx_eq hlt).mpr ⟨?_, fun k hk => ?_⟩
    · have hnot := mt (h.2 f _ (List.getElem?_eq_getElem hlt)).mp (lt_irrefl f)
      simpa using hnot
    · have hmini := (h.2 k _ (List.getElem?_eq_getElem (hk.trans hlt))).mpr hk
      simpa using hmini
  · obtain rfl : f = tabs.length := le_antisymm h.1 hge
    refine List.findIdx_eq_length.mpr fun t ht => ?_
    obtain ⟨k, hk, rfl⟩ := List.mem_iff_getElem.mp ht
    have hmini := (h.2 k _ (List.getElem?_eq_getElem hk)).mpr hk
    simpa using hmini

lemma Boundary.insertIdx (h : Boundary tabs f) (hi : i ≤ tabs.length)
    (ht : if t.mini then i ≤ f else f ≤ i) :
    Boundary (tabs.insertIdx i t) (if t.mini then f + 1 else f) := by
  refine ⟨?_, fun k t' hk => ?_⟩
  · rw [List.length_insertIdx_of_le_length hi]
    have := h.1
    split_ifs <;> omega
  · rw [List.getElem?_insertIdx] at hk
    split_ifs at hk with hlt heq
    · rw [h.2 k t' hk]
      split_ifs at ht ⊢ <;> omega
    · cases hk
      split_ifs at ht ⊢ with hmini
      · exact iff_of_true hmini (by omega)
      · exact iff_of_false hmini (by omega)
    · rw [h.2 _ t' hk]
      split_ifs at ht ⊢ <;> omega

lemma Boundary.eraseIdx (h : Boundary tabs f) (hi : i < tabs.length) :
    Boundary (tabs.eraseIdx i) (if i < f then f - 1 else f) := by
  have hle := h.1
  refine ⟨?_, fun k t' hk => ?_⟩
  · rw [List.length_eraseIdx_of_lt hi]
    split_ifs <;> omega
  · rw [List.getElem?_eraseIdx] at hk
    split_ifs at hk with hlt <;> rw [h.2 _ t' hk] <;> split_ifs <;> omega

/-- A move within a group keeps the groups. -/
lemma Boundary.move (h : Boundary tabs f) (hi : i < tabs.length) (hj : j < tabs.length)
    (hgroup : i < f ↔ j < f) : Boundary (move tabs i j) f := by
  refine ⟨by rw [length_move hi hj]; exact h.1, fun k t' hk => ?_⟩
  rw [getElem?_move hi hj] at hk
  rw [h.2 _ t' hk, source]
  split_ifs <;> omega

lemma Boundary.set (h : Boundary tabs f) (ht : tabs[i]?.map Tab.mini = some t.mini) :
    Boundary (tabs.set i t) f := by
  refine ⟨by rw [List.length_set]; exact h.1, fun k t' hk => ?_⟩
  rcases eq_or_ne i k with rfl | hne
  · obtain ⟨old, hold, hsame⟩ := Option.map_eq_some_iff.mp ht
    have hi : i < tabs.length := (List.getElem?_eq_some_iff.mp hold).1
    rw [List.getElem?_set_self hi] at hk
    cases hk
    rw [← hsame, h.2 i old hold]
  · rw [List.getElem?_set_ne hne] at hk
    exact h.2 k t' hk

end Boundary

namespace TabStripModel

variable {s s' : TabStripModel}

def tabs (s : TabStripModel) : List Tab := s.contentsData.map WebContentsData.tab

@[simp] lemma length_tabs (s : TabStripModel) : s.tabs.length = s.contentsData.length :=
  List.length_map _

/-- The invariant. -/
structure Wf (s : TabStripModel) : Prop where
  selection : s.selectionModel.Valid s.tabs.length
  boundary : ∃ f, Boundary s.tabs f
  nodup : (s.tabs.map Tab.contents).Nodup
  appPinned : ∀ t ∈ s.tabs, t.contents.isApp → t.pinned

/-! ### Openers and groups do not count -/

lemma tabs_map {update : WebContentsData → WebContentsData}
    (h : ∀ d, (update d).tab = d.tab) :
    (s.contentsData.map update).map WebContentsData.tab = s.tabs := by
  rw [List.map_map]
  exact List.map_congr_left fun d _ => h d

lemma tabs_modify (update : WebContentsData → WebContentsData)
    (h : ∀ d, (update d).tab = d.tab) (i : ℕ) :
    (s.contentsData.modify i update).map WebContentsData.tab = s.tabs := by
  apply List.ext_getElem?
  intro k
  rw [tabs, List.getElem?_map, List.getElem?_map, List.getElem?_modify]
  cases s.contentsData[k]? with
  | none => rfl
  | some d => by_cases hk : i = k <;> simp [hk, h]

/-- A tab is changed at one place. -/
lemma tabs_modify_set {update : WebContentsData → WebContentsData} {i : ℕ} {d : WebContentsData}
    (hd : s.contentsData[i]? = some d) :
    (s.contentsData.modify i update).map WebContentsData.tab = s.tabs.set i (update d).tab := by
  apply List.ext_getElem?
  intro k
  have hi := (List.getElem?_eq_some_iff.mp hd).1
  rw [tabs, List.getElem?_map, List.getElem?_modify, Option.map_eq_map, Option.map_map]
  rcases eq_or_ne i k with rfl | hne
  · rw [List.getElem?_set_self (by simpa using hi), hd]
    simp
  · rw [List.getElem?_set_ne hne, List.getElem?_map]
    simp only [hne, if_false]
    rfl

@[simp] lemma tabs_forgetAllOpeners (s : TabStripModel) : s.forgetAllOpeners.tabs = s.tabs :=
  tabs_map fun _ => rfl

@[simp] lemma tabs_forgetGroup (s : TabStripModel) (contents : WebContents) :
    (s.forgetGroup contents).tabs = s.tabs :=
  tabs_modify (fun d => { d with group := none, opener := none }) (fun _ => rfl) _

@[simp] lemma tabs_forgetOpenersAndGroupsReferencing (s : TabStripModel) (tab : WebContents) :
    (s.forgetOpenersAndGroupsReferencing tab).tabs = s.tabs :=
  tabs_map fun _ => rfl

@[simp] lemma tabs_setOpenerOfWebContentsAt (s : TabStripModel) (index : ℤ)
    (opener : WebContents) : (s.setOpenerOfWebContentsAt index opener).tabs = s.tabs :=
  tabs_modify (fun d => { d with opener := some opener }) (fun _ => rfl) _

/-- Only openers and groups differ. -/
structure Same (s s' : TabStripModel) : Prop where
  tabs : s'.tabs = s.tabs
  selection : s'.selectionModel = s.selectionModel

lemma Same.refl (s : TabStripModel) : Same s s := ⟨rfl, rfl⟩

lemma Same.trans {s'' : TabStripModel} (h : Same s s') (h' : Same s' s'') : Same s s'' :=
  ⟨h'.tabs.trans h.tabs, h'.selection.trans h.selection⟩

lemma Same.wf (h : Same s s') (hs : s.Wf) : s'.Wf := by
  constructor
  · rw [h.tabs, h.selection]
    exact hs.selection
  · rw [h.tabs]
    exact hs.boundary
  · rw [h.tabs]
    exact hs.nodup
  · rw [h.tabs]
    exact hs.appPinned

lemma same_forgetAllOpeners (s : TabStripModel) : Same s s.forgetAllOpeners :=
  ⟨tabs_forgetAllOpeners s, rfl⟩

lemma same_forgetGroup (s : TabStripModel) (contents : WebContents) :
    Same s (s.forgetGroup contents) :=
  ⟨tabs_forgetGroup s contents, rfl⟩

lemma same_activeTabChanged (s : TabStripModel) (oldContents newContents : Option WebContents)
    (index : ℤ) (userGesture : Bool) :
    Same s (s.activeTabChanged oldContents newContents index userGesture) := by
  unfold activeTabChanged
  extract_lets oldData oldOpener s' newOpener
  have hsame : Same s s' := by
    subst s'
    cases oldData with
    | none => exact .refl s
    | some data =>
      dsimp only
      split_ifs
      exacts [same_forgetGroup s _, .refl s]
  split_ifs
  · exact hsame.trans (same_forgetAllOpeners s')
  · exact hsame

/-- The active tab exists afterwards. -/
lemma same_notifyIfActiveTabChanged {oldContents : Option WebContents} {userGesture : Bool}
    (h : s.notifyIfActiveTabChanged oldContents userGesture = some s') :
    Same s s' ∧ 0 ≤ s.activeIndex ∧ s.activeIndex < s.count := by
  unfold notifyIfActiveTabChanged at h
  cases hactive : s.getWebContentsAt s.activeIndex with
  | none => simp [hactive] at h
  | some newContents =>
    have hin : s.containsIndex s.activeIndex := by
      by_contra hout
      simp [getWebContentsAt, data?, hout] at hactive
    rw [containsIndex, decide_eq_true_iff] at hin
    rw [hactive] at h
    dsimp only at h
    split_ifs at h
    · cases h
      exact ⟨same_activeTabChanged s _ _ _ _, hin⟩
    · cases h
      exact ⟨.refl s, hin⟩

lemma Wf.setSelection {selection : ListSelectionModel} {userGesture : Bool} (hs : s.Wf)
    (hselection : selection.Valid s.tabs.length)
    (h : s.setSelection selection userGesture = some s') : s'.Wf :=
  (same_notifyIfActiveTabChanged h).1.wf ⟨hselection, hs.boundary, hs.nodup, hs.appPinned⟩

/-! ### Each call keeps the invariant -/

lemma indexOfFirstNonMiniTab_eq {f : ℕ} (h : Boundary s.tabs f) :
    s.indexOfFirstNonMiniTab = f := by
  have hfind := h.findIdx
  rw [tabs, List.findIdx_map] at hfind
  rw [indexOfFirstNonMiniTab, ← hfind]
  rfl

lemma count_eq (s : TabStripModel) : s.count = s.tabs.length := by
  rw [count, length_tabs]

lemma containsIndex_iff {index : ℤ} :
    s.containsIndex index = true ↔ ∃ i : ℕ, index = i ∧ i < s.tabs.length := by
  rw [containsIndex, decide_eq_true_iff, count_eq]
  constructor
  · rintro ⟨hpos, hlt⟩
    exact ⟨index.toNat, by omega, by omega⟩
  · rintro ⟨i, rfl, hi⟩
    omega

lemma data?_eq (s : TabStripModel) {i : ℕ} (hi : i < s.tabs.length) :
    s.data? i = s.contentsData[i]? := by
  rw [data?, if_pos (containsIndex_iff.mpr ⟨i, rfl, hi⟩), Int.toNat_natCast]

lemma exists_data (s : TabStripModel) {i : ℕ} (hi : i < s.tabs.length) :
    ∃ d, s.data? i = some d ∧ s.contentsData[i]? = some d ∧ s.tabs[i]? = some d.tab := by
  rw [data?_eq s hi]
  rw [length_tabs] at hi
  refine ⟨_, List.getElem?_eq_getElem hi, List.getElem?_eq_getElem hi, ?_⟩
  rw [tabs, List.getElem?_map, List.getElem?_eq_getElem hi]
  rfl

lemma Wf.insertWebContentsAt (hs : s.Wf) {index : ℤ} {contents : WebContents}
    {addTypes : AddTypes} (hnew : ∀ d ∈ s.contentsData, d.webContents ≠ contents)
    (h : s.insertWebContentsAt index contents addTypes = some s') : s'.Wf := by
  obtain ⟨f, hf⟩ := hs.boundary
  unfold TabStripModel.insertWebContentsAt at h
  extract_lets pin i activeContents inheritGroup inheritOpener data s₁ s₂ at h
  have hle := hf.1
  have hi : ∃ n : ℕ, i = n ∧ n ≤ s.tabs.length ∧ if pin then n ≤ f else f ≤ n := by
    have hrange : 0 ≤ i ∧ i ≤ s.tabs.length ∧ if pin then i ≤ f else f ≤ i := by
      simp only [i, constrainInsertionIndex, indexOfFirstNonMiniTab_eq hf, count_eq]
      split_ifs <;> omega
    refine ⟨i.toNat, by omega, by omega, ?_⟩
    obtain ⟨hpos, -, hgroup⟩ := hrange
    split_ifs at hgroup ⊢ <;> omega
  obtain ⟨n, hn, hlen, hgroup⟩ := hi
  have hmini : (Tab.mk contents pin).mini = pin := by
    simp only [Tab.mini, pin]
    cases contents.isApp <;> simp
  have hsame : Same s s₁ := by
    simp only [s₁]
    split_ifs
    exacts [same_forgetAllOpeners s, .refl s]
  have htabs : s₂.tabs = s.tabs.insertIdx n ⟨contents, pin⟩ := by
    simp only [s₂, tabs, List.map_insertIdx, hn, Int.toNat_natCast]
    exact congrArg (fun l => l.insertIdx n ⟨contents, pin⟩) hsame.tabs
  have hwf : s₂.Wf := by
    refine ⟨?_, ⟨_, htabs ▸ hf.insertIdx hlen (by rwa [hmini])⟩, ?_, ?_⟩
    · rw [htabs, List.length_insertIdx_of_le_length hlen]
      have hselection : s₂.selectionModel = s.selectionModel.incrementFrom i := by
        simp only [s₂, hsame.selection]
      rw [hselection]
      exact hs.selection.incrementFrom i
    · rw [htabs, List.map_insertIdx]
      refine (List.perm_insertIdx _ _ (by simpa using hlen)).nodup_iff.mpr ?_
      refine List.nodup_cons.mpr ⟨fun hmem => ?_, hs.nodup⟩
      simp only [tabs, List.map_map, List.mem_map] at hmem
      obtain ⟨d, hd, heq⟩ := hmem
      exact hnew d hd heq
    · rw [htabs]
      intro t ht happ
      rcases List.eq_or_mem_of_mem_insertIdx ht with rfl | ht
      · simp only [pin] at happ ⊢
        simp [happ]
      · exact hs.appPinned t ht happ
  split_ifs at h
  · refine hwf.setSelection (.setSelectedIndex ?_) h
    rw [htabs, List.length_insertIdx_of_le_length hlen, hn]
    omega
  · exact Option.some_injective _ h ▸ hwf

lemma Wf.addWebContents (hs : s.Wf) {index : ℤ} {contents : WebContents}
    {transition : PageTransition} {addTypes : AddTypes}
    (hnew : ∀ d ∈ s.contentsData, d.webContents ≠ contents)
    (h : s.addWebContents contents index transition addTypes = some s') : s'.Wf := by
  unfold TabStripModel.addWebContents at h
  extract_lets linked i inheritGroup at h
  obtain ⟨s₁, hinsert, rfl⟩ := Option.map_eq_some_iff.mp h
  have hwf := hs.insertWebContentsAt hnew hinsert
  split_ifs
  · exact Same.wf ⟨tabs_modify (fun d => { d with resetGroupOnSelect := true })
      (fun _ => rfl) _, rfl⟩ hwf
  · exact hwf

lemma exists_of_data? {index : ℤ} {d : WebContentsData} (h : s.data? index = some d) :
    ∃ i : ℕ, index = i ∧ i < s.tabs.length ∧ s.contentsData[i]? = some d ∧
      s.tabs[i]? = some d.tab := by
  have hin : s.containsIndex index := by
    by_contra hout
    simp [data?, hout] at h
  obtain ⟨i, rfl, hi⟩ := containsIndex_iff.mp hin
  obtain ⟨d', hd', hdata, htab⟩ := exists_data s hi
  cases hd'.symm.trans h
  exact ⟨i, rfl, hi, hdata, htab⟩

lemma Wf.mini_eq (hs : s.Wf) {t : Tab} (ht : t ∈ s.tabs) : t.mini = t.pinned := by
  rw [Tab.mini]
  cases hp : t.pinned with
  | true => rfl
  | false =>
    cases happ : t.contents.isApp with
    | false => rfl
    | true => exact absurd (hs.appPinned t ht happ) (by simp [hp])

lemma isMiniTab_eq {i : ℕ} {t : Tab} (h : s.tabs[i]? = some t) : s.isMiniTab i = t.mini := by
  obtain ⟨d, hd, -, htab⟩ := exists_data s (List.getElem?_eq_some_iff.mp h).1
  cases htab.symm.trans h
  simp [isMiniTab, isTabPinned, isAppTab, getWebContentsAt, hd, WebContentsData.tab, Tab.mini]

lemma Wf.replaceWebContentsAt (hs : s.Wf) {index : ℤ} {newContents : WebContents}
    (hnew : ∀ d ∈ s.contentsData, d.webContents ≠ newContents)
    (happ : newContents.isApp → s.isMiniTab index) :
    (s.replaceWebContentsAt index newContents).Wf := by
  unfold TabStripModel.replaceWebContentsAt
  cases hdata : s.data? index with
  | none => exact hs
  | some old =>
    obtain ⟨i, rfl, hi, -, htab⟩ := exists_of_data? hdata
    obtain ⟨f, hf⟩ := hs.boundary
    have holdmini := hs.mini_eq (List.mem_of_getElem? htab)
    rw [isMiniTab_eq htab, holdmini] at happ
    set new : Tab := ⟨newContents, old.pinned⟩ with hnewTab
    have hmini : new.mini = old.pinned := by
      cases hp : old.pinned with
      | true => simp [hnewTab, Tab.mini, hp]
      | false =>
        have hnot : newContents.isApp = false := by
          by_contra hne
          have hpinned := happ (by simpa using hne)
          simp [WebContentsData.tab, hp] at hpinned
        simp [hnewTab, Tab.mini, hp, hnot]
    dsimp only
    set s₁ := s.forgetOpenersAndGroupsReferencing old.webContents with hs₁
    have htabs : TabStripModel.tabs { s₁ with
        contentsData := s₁.contentsData.modify ((i : ℤ).toNat)
          fun d => { d with webContents := newContents } } = s.tabs.set i new := by
      have hdata' : (s₁.contentsData[i]?).map WebContentsData.tab = some old.tab := by
        rw [← List.getElem?_map, ← htab, ← tabs_forgetOpenersAndGroupsReferencing s]
        rfl
      obtain ⟨d, hd, heq⟩ := Option.map_eq_some_iff.mp hdata'
      have hpin : d.pinned = old.pinned := congrArg Tab.pinned heq
      rw [Int.toNat_natCast, tabs, tabs_modify_set hd, hs₁,
        tabs_forgetOpenersAndGroupsReferencing, hnewTab, ← hpin]
      rfl
    have hwf : TabStripModel.Wf { s₁ with
        contentsData := s₁.contentsData.modify ((i : ℤ).toNat)
          fun d => { d with webContents := newContents } } := by
      refine ⟨?_, ⟨f, ?_⟩, ?_, ?_⟩
      · rw [htabs, List.length_set]
        exact hs.selection
      · rw [htabs]
        refine hf.set ?_
        rw [htab, Option.map_some, holdmini, hmini]
        rfl
      · rw [htabs, List.map_set]
        refine hs.nodup.set fun hmem => ?_
        simp only [tabs, List.map_map, List.mem_map] at hmem
        obtain ⟨d, hd, heq⟩ := hmem
        exact hnew d hd heq
      · rw [htabs]
        intro t ht hisApp
        rcases List.mem_or_eq_of_mem_set ht with ht | rfl
        · exact hs.appPinned t ht hisApp
        · exact happ hisApp
    split_ifs
    · exact (same_activeTabChanged _ _ _ _ _).wf hwf
    · exact hwf

lemma Wf.detachWebContentsAt (hs : s.Wf) {index : ℤ}
    (h : s.detachWebContentsAt index = some s') : s'.Wf := by
  unfold TabStripModel.detachWebContentsAt at h
  cases hdata : s.data? index with
  | none =>
    rw [hdata] at h
    exact Option.some_injective _ h ▸ hs
  | some removed =>
    obtain ⟨i, rfl, hi, -, -⟩ := exists_of_data? hdata
    obtain ⟨f, hf⟩ := hs.boundary
    rw [hdata] at h
    dsimp -zeta only at h
    extract_lets next s₁ s₂ oldActive decremented selection at h
    have htabs : s₂.tabs = s.tabs.eraseIdx i := by
      rw [tabs_forgetOpenersAndGroupsReferencing, tabs, tabs, ← List.eraseIdx_map,
        Int.toNat_natCast]
    have hlength : s₂.tabs.length + 1 = s.tabs.length := by
      rw [htabs, List.length_eraseIdx_of_lt hi]
      omega
    have hwf : ∀ selection : ListSelectionModel, selection.Valid s₂.tabs.length →
        TabStripModel.Wf { s₂ with selectionModel := selection } := by
      intro selection hselection
      refine ⟨hselection, ⟨_, htabs ▸ hf.eraseIdx hi⟩, ?_, ?_⟩
      · show (s₂.tabs.map Tab.contents).Nodup
        rw [htabs, ← List.eraseIdx_map]
        exact hs.nodup.sublist (List.eraseIdx_sublist _ _)
      · show ∀ t ∈ s₂.tabs, _
        rw [htabs]
        exact fun t ht => hs.appPinned t (List.mem_of_mem_eraseIdx ht)
    have hdecremented : decremented.Valid s₂.tabs.length := by
      have hvalid := hs.selection
      rw [← hlength] at hvalid
      exact hvalid.decrementFrom (by omega)
    split_ifs at h with hnil hactive
    · exact Option.some_injective _ h ▸ hwf _ (.clear _)
    · obtain ⟨hsame, hin⟩ := same_notifyIfActiveTabChanged h
      rw [count_eq] at hin
      refine hsame.wf (hwf selection ?_)
      have hactive : 0 ≤ selection.active ∧ selection.active < s₂.tabs.length := hin
      cases hselected : decremented.selectedIndices with
      | nil =>
        have hnext : selection = .setSelectedIndex next := by simp only [selection, hselected]
        rw [hnext] at hactive ⊢
        have hpos : 0 ≤ next := hactive.1
        exact .setSelectedIndex ⟨by omega, hactive.2⟩
      | cons first rest =>
        have hfirst : selection = { decremented with active := first, anchor := first } := by
          simp only [selection, hselected]
        rw [hfirst] at hactive ⊢
        have hpos : 0 ≤ first := hactive.1
        exact hdecremented.withActive ⟨by omega, hactive.2⟩ ⟨by omega, hactive.2⟩
    · exact Option.some_injective _ h ▸ hwf _ hdecremented

lemma Wf.toggleSelectionAt (hs : s.Wf) {index : ℤ} (hin : s.containsIndex index)
    (h : s.toggleSelectionAt index = some s') : s'.Wf := by
  obtain ⟨i, rfl, hi⟩ := containsIndex_iff.mp hin
  unfold TabStripModel.toggleSelectionAt at h
  extract_lets selection removed active at h
  have hselection : selection.Valid s.tabs.length := hs.selection
  split_ifs at h with hselected hone
  · exact Option.some_injective _ h ▸ hs
  · have hremoved : removed.Valid s.tabs.length := hselection.removeIndexFromSelection i
    refine hs.setSelection (hremoved.withActive ?_ ⟨by omega, by omega⟩) h
    have hactive := hremoved.active
    simp only [active]
    split_ifs
    · cases hfirst : removed.selectedIndices with
      | nil =>
        dsimp only [List.headD_nil]
        omega
      | cons first rest =>
        have hin := hremoved.selected first (by simp [hfirst])
        dsimp only [List.headD_cons]
        omega
    · exact hactive
  · have hadded : (selection.addIndexToSelection i).Valid s.tabs.length :=
      hselection.addIndexToSelection (by omega)
    exact hs.setSelection (hadded.withActive ⟨by omega, by omega⟩ ⟨by omega, by omega⟩) h

end TabStripModel

end Chromium.TabStrip
