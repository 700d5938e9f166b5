import Chromium.TabStripRuns

/-!
# Moved tabs

What a tab is, selected, active or the anchor, goes with it when tabs are moved.
-/
namespace Chromium.TabStrip

open ListMoves ListSelection

/-- A tab and what the selection says of it. -/
structure TabView where
  tab : Tab
  selected : Bool
  active : Bool
  anchor : Bool
  deriving DecidableEq, Repr

namespace TabStripModel

variable {s : TabStripModel} {i j f : ℕ}

def view (s : TabStripModel) : List TabView :=
  s.tabs.mapIdx fun k t =>
    ⟨t, s.selectionModel.isSelected k, s.selectionModel.active = k, s.selectionModel.anchor = k⟩

@[simp] lemma length_view (s : TabStripModel) : s.view.length = s.tabs.length :=
  List.length_mapIdx

lemma map_tab_view (s : TabStripModel) : s.view.map TabView.tab = s.tabs := by
  apply List.ext_getElem?
  intro k
  rw [view, List.getElem?_map, List.getElem?_mapIdx, Option.map_map]
  cases s.tabs[k]? <;> rfl

/-- The selected indices are the places of the selected tabs. -/
lemma selectedIndices_eq (h : s.selectionModel.Valid s.tabs.length) :
    s.selectionModel.selectedIndices = (s.view.findIdxs TabView.selected).map Nat.cast := by
  refine h.sorted.eq_of_mem_iff ?_ fun k => ?_
  · exact List.Pairwise.map _ (fun a b hlt => by omega) List.pairwise_findIdxs
  · simp only [List.mem_map, List.mem_findIdxs_iff_exists_getElem_pos, length_view]
    constructor
    · intro hk
      have hin := h.selected k hk
      refine ⟨k.toNat, ⟨by omega, ?_⟩, by omega⟩
      simp only [view, List.getElem_mapIdx, ListSelectionModel.isSelected_iff]
      rwa [Int.toNat_of_nonneg hin.1]
    · rintro ⟨n, ⟨hn, hsel⟩, rfl⟩
      simpa [view] using hsel

/-! ### One move -/

section Impl
variable (hi : i < s.tabs.length) (hj : j < s.tabs.length)
include hi

lemma moveWebContentsAtImpl_tabs (select : Bool) :
    (s.moveWebContentsAtImpl i j select).tabs = move s.tabs i j := by
  obtain ⟨d, hd, -, htab⟩ := exists_data s hi
  unfold moveWebContentsAtImpl
  rw [hd]
  dsimp only
  rw [tabs_forgetOpenersAndGroupsReferencing, tabs, List.map_insertIdx, ← List.eraseIdx_map,
    Int.toNat_natCast, Int.toNat_natCast, move, htab]
  rfl

lemma moveWebContentsAtImpl_selection :
    (s.moveWebContentsAtImpl i j false).selectionModel = s.selectionModel.move i j := by
  obtain ⟨d, hd, -, -⟩ := exists_data s hi
  unfold moveWebContentsAtImpl
  rw [hd]
  simp [forgetOpenersAndGroupsReferencing]

include hj

/-- Every tab takes along what it is. -/
theorem view_moveWebContentsAtImpl (hij : i ≠ j) :
    (s.moveWebContentsAtImpl i j false).view = move s.view i j := by
  refine eq_move (by simpa using hi) (by simpa using hj) fun k => ?_
  rw [view, view, List.getElem?_mapIdx, List.getElem?_mapIdx, moveWebContentsAtImpl_tabs hi,
    getElem?_move hi hj, moveWebContentsAtImpl_selection hi]
  refine congrArg (fun g => Option.map g _) (funext fun t => ?_)
  have hselected : (s.selectionModel.move i j).isSelected k =
      s.selectionModel.isSelected (source i j k) := by
    rw [Bool.eq_iff_iff, ListSelectionModel.isSelected_iff, ListSelectionModel.isSelected_iff,
      ListSelectionModel.mem_move hij]
  simp only [hselected, ListSelectionModel.active_move, ListSelectionModel.anchor_move]

lemma Wf.moveWebContentsAtImpl (hs : s.Wf) (hf : Boundary s.tabs f) (hgroup : i < f ↔ j < f)
    (select : Bool) : (s.moveWebContentsAtImpl i j select).Wf := by
  have htabs := moveWebContentsAtImpl_tabs hi (j := j) select
  have hperm := perm_move hi hj
  refine ⟨?_, ⟨f, htabs ▸ hf.move hi hj hgroup⟩, ?_, ?_⟩
  · rw [htabs, length_move hi hj]
    obtain ⟨d, hd, -, -⟩ := exists_data s hi
    unfold TabStripModel.moveWebContentsAtImpl
    rw [hd]
    dsimp only [forgetOpenersAndGroupsReferencing]
    generalize (if select = true then (1 : ℤ) else 0) = probe
    split_ifs
    · exact .setSelectedIndex (by omega)
    · exact hs.selection.move hi hj
  · rw [htabs]
    exact (hperm.map _).nodup_iff.mpr hs.nodup
  · rw [htabs]
    exact fun t ht => hs.appPinned t (hperm.mem_iff.mp ht)

end Impl

section Move
variable (hf : Boundary s.tabs f)
include hf

lemma moveWebContentsAt_of_same (hij : i ≠ j) (hgroup : i < f ↔ j < f) (select : Bool) :
    s.moveWebContentsAt i j select = s.moveWebContentsAtImpl i j select := by
  rw [moveWebContentsAt, if_neg (by omega)]
  dsimp only
  rw [indexOfFirstNonMiniTab_eq hf, if_neg (by omega)]

lemma moveWebContentsAt_of_refused (hgroup : ¬ (i < f ↔ j < f)) (select : Bool) :
    s.moveWebContentsAt i j select = s := by
  rw [moveWebContentsAt]
  split_ifs
  · rfl
  · dsimp only
    rw [indexOfFirstNonMiniTab_eq hf, if_pos (by omega)]

end Move

lemma Wf.moveWebContentsAt (hs : s.Wf) (hi : i < s.tabs.length) (hj : j < s.tabs.length)
    (select : Bool) : (s.moveWebContentsAt i j select).Wf := by
  obtain ⟨f, hf⟩ := hs.boundary
  rcases eq_or_ne i j with rfl | hij
  · rwa [TabStripModel.moveWebContentsAt, if_pos rfl]
  · by_cases hgroup : i < f ↔ j < f
    · rw [moveWebContentsAt_of_same hf hij hgroup]
      exact hs.moveWebContentsAtImpl hi hj hf hgroup select
    · rwa [moveWebContentsAt_of_refused hf hgroup]

/-! ### Moves by the parts of the strip -/

section Parts
variable {as bs cs : List TabView} {t : TabView} {b : Bool}

lemma boundary_lt_iff (hf : Boundary s.tabs f) (h : s.view = as ++ t :: bs) :
    as.length < f ↔ t.tab.mini = true := by
  refine (hf.2 as.length t.tab ?_).symm
  rw [← map_tab_view, h, List.map_append, List.map_cons, ← List.length_map TabView.tab]
  exact getElem?_length_append _ _ _

/-- The place of a selected tab in the selection. -/
lemma selectedIndex_eq (hs : s.Wf) (h : s.view = as ++ t :: bs) (ht : t.selected)
    {place : ℕ} (hplace : as.countP TabView.selected = place) :
    s.selectedIndex place = as.length := by
  rw [selectedIndex, selectedIndices_eq hs.selection, h, List.findIdxs_append, List.map_append,
    List.getD_eq_getElem?_getD, List.getElem?_append_right (by simp [hplace]), List.findIdxs_cons,
    if_pos ht]
  simp [hplace]

/-- A tab is moved behind others of its group. -/
lemma moveWebContentsAt_forward (hs : s.Wf) (h : s.view = as ++ t :: (bs ++ cs)) (hbs : bs ≠ [])
    (hgroup : ∀ u ∈ t :: bs, u.tab.mini = b) :
    (s.moveWebContentsAt as.length (as.length + bs.length : ℕ) false).Wf ∧
      (s.moveWebContentsAt as.length (as.length + bs.length : ℕ) false).view =
        as ++ bs ++ t :: cs := by
  obtain ⟨f, hf⟩ := hs.boundary
  have hlength : s.tabs.length = as.length + (1 + bs.length + cs.length) := by
    rw [← length_view, h]
    simp only [List.length_append, List.length_cons]
    omega
  have hpos : 0 < bs.length := List.length_pos_of_ne_nil hbs
  have hi : as.length < s.tabs.length := by omega
  have hj : as.length + bs.length < s.tabs.length := by omega
  have hsame : as.length < f ↔ as.length + bs.length < f := by
    rcases List.eq_nil_or_concat bs with rfl | ⟨bs', u, rfl⟩
    · exact absurd rfl hbs
    · have hlast : s.view = (as ++ t :: bs') ++ u :: cs := by simp [h]
      have hu := boundary_lt_iff hf hlast
      rw [boundary_lt_iff hf h, hgroup t (by simp), ← hgroup u (by simp), ← hu]
      simp only [List.length_append, List.length_cons, List.length_concat]
  refine ⟨hs.moveWebContentsAt hi hj false, ?_⟩
  rw [moveWebContentsAt_of_same hf (by omega) hsame,
    view_moveWebContentsAtImpl hi hj (by omega), h, move_forward]

/-- A tab is moved in front of others of its group. -/
lemma moveWebContentsAt_backward (hs : s.Wf) (h : s.view = as ++ bs ++ t :: cs) (hbs : bs ≠ [])
    (hgroup : ∀ u ∈ t :: bs, u.tab.mini = b) :
    (s.moveWebContentsAt (as.length + bs.length : ℕ) as.length false).Wf ∧
      (s.moveWebContentsAt (as.length + bs.length : ℕ) as.length false).view =
        as ++ t :: (bs ++ cs) := by
  obtain ⟨f, hf⟩ := hs.boundary
  have hlength : s.tabs.length = as.length + (1 + bs.length + cs.length) := by
    rw [← length_view, h]
    simp only [List.length_append, List.length_cons]
    omega
  have hpos : 0 < bs.length := List.length_pos_of_ne_nil hbs
  have hi : as.length < s.tabs.length := by omega
  have hj : as.length + bs.length < s.tabs.length := by omega
  have hsame : as.length + bs.length < f ↔ as.length < f := by
    have ht := boundary_lt_iff hf h
    rcases bs with _ | ⟨u, bs⟩
    · exact absurd rfl hbs
    · have hfirst : s.view = as ++ u :: (bs ++ t :: cs) := by simp [h]
      rw [boundary_lt_iff hf hfirst, hgroup u (by simp), ← hgroup t (by simp), ← ht,
        List.length_append]
  refine ⟨hs.moveWebContentsAt hj hi false, ?_⟩
  rw [moveWebContentsAt_of_same hf (by omega) hsame,
    view_moveWebContentsAtImpl hj hi (by omega), h, move_backward]

end Parts

/-! ### The loops -/

section Loops
variable {b : Bool}

/-- The first loop moves the selected tabs of `xs`, one by one, behind those it moved before. -/
lemma moveBefore_spec {ps xs ys zs : List TabView} {rest : ℕ} (hs : s.Wf)
    (hview : s.view = ps ++ xs ++ ys ++ zs) (hys : ∀ u ∈ ys, u.selected = true)
    (hgroup : ∀ u ∈ xs ++ ys, u.tab.mini = b)
    (hlast : ∀ u, xs.getLast? = some u → u.selected = false)
    (hrest : rest ≤ (ys ++ zs).countP TabView.selected) :
    ∃ s' : TabStripModel, moveBefore (ps.length + xs.countP fun u => !u.selected)
        (ps.length + xs.length + ys.length) (ps.countP TabView.selected)
        (xs.countP TabView.selected + rest) s = (s', rest) ∧ s'.Wf ∧
      s'.view = ps ++ (xs.filter fun u => !u.selected) ++ (ys ++ xs.filter TabView.selected) ++
        zs := by
  induction hk : xs.countP TabView.selected generalizing s xs ys with
  | zero =>
    have hnone : ∀ u ∈ xs, u.selected = false := by simpa using hk
    have hstop : moveBefore (ps.length + xs.countP fun u => !u.selected)
        (ps.length + xs.length + ys.length) (ps.countP TabView.selected) (0 + rest) s =
          (s, rest) := by
      rw [Nat.zero_add]
      rcases rest with _ | rest
      · rfl
      · have hpos : 0 < (ys ++ zs).countP TabView.selected := by omega
        obtain ⟨ws, u, ws', hws, hunselected, hu⟩ := exists_first hpos
        have hat : s.view = (ps ++ xs ++ ws) ++ u :: ws' := by
          rw [hview, List.append_assoc, hws, ← List.append_assoc]
        have hindex : s.selectedIndex (ps.countP TabView.selected) = (ps ++ xs ++ ws).length := by
          refine selectedIndex_eq hs hat hu ?_
          have hws : ws.countP TabView.selected = 0 :=
            List.countP_eq_zero.mpr (by simpa using hunselected)
          rw [List.countP_append, List.countP_append, hk, hws, Nat.add_zero]
        have hcount : (xs.countP fun u => !u.selected) = xs.length :=
          List.countP_eq_length.mpr (by simpa using hnone)
        rw [moveBefore, if_neg]
        rw [hindex, hcount]
        simp only [List.length_append]
        omega
    refine ⟨s, hstop, hs, ?_⟩
    rw [hview, filter_not_eq_self hnone, filter_eq_nil_of_forall hnone, List.append_nil]
  | succ k ih =>
    have hpos : 0 < xs.countP TabView.selected := by omega
    obtain ⟨fs, t, xs', rfl, hfs, ht⟩ := exists_first hpos
    -- the last one of `xs` is not selected, so some are left behind `t`
    have hlast' : ∀ u, xs'.getLast? = some u → u.selected = false := by
      intro u hu
      refine hlast u ?_
      rw [List.getLast?_append_of_ne_nil _ (List.cons_ne_nil t xs')]
      rcases xs' with _ | ⟨x, xs'⟩
      · cases hu
      · rwa [List.getLast?_cons_cons]
    have hne : xs' ≠ [] := by
      rintro rfl
      have hfalse := hlast t (by simp)
      simp [ht] at hfalse
    have hunselected : 0 < xs'.countP fun u => !u.selected := by
      obtain ⟨xs'', u, rfl⟩ := List.eq_nil_or_concat xs' |>.resolve_left hne
      have hu := hlast' u (by simp)
      simp [hu]
    have hfcount : fs.countP TabView.selected = 0 :=
      List.countP_eq_zero.mpr (by simpa using hfs)
    have hfcount' : (fs.countP fun u => !u.selected) = fs.length :=
      List.countP_eq_length.mpr (by simpa using hfs)
    have hat : s.view = (ps ++ fs) ++ t :: ((xs' ++ ys) ++ zs) := by
      rw [hview]
      simp only [List.append_assoc, List.cons_append]
    have hindex : s.selectedIndex (ps.countP TabView.selected) = (ps ++ fs).length := by
      refine selectedIndex_eq hs hat ht ?_
      rw [List.countP_append, hfcount, Nat.add_zero]
    obtain ⟨hwf, hmoved⟩ := moveWebContentsAt_forward hs hat (by simp [hne])
      (b := b) fun u hu => hgroup u (by
        simp only [List.mem_append, List.mem_cons] at hu ⊢
        tauto)
    have hcount : ((fs ++ xs').countP fun u => !u.selected) =
        ((fs ++ t :: xs').countP fun u => !u.selected) := by
      simp [ht]
    have htarget : (ps.length + (fs ++ t :: xs').length + ys.length : ℤ) - 1 =
        ((ps ++ fs).length + (xs' ++ ys).length : ℕ) := by
      simp only [List.length_append, List.length_cons]
      omega
    have hstep : moveBefore (ps.length + (fs ++ t :: xs').countP fun u => !u.selected)
        (ps.length + (fs ++ t :: xs').length + ys.length) (ps.countP TabView.selected)
        (k + 1 + rest) s =
        moveBefore (ps.length + (fs ++ xs').countP fun u => !u.selected)
        (ps.length + (fs ++ xs').length + (ys ++ [t]).length) (ps.countP TabView.selected)
        (k + rest) (s.moveWebContentsAt (ps ++ fs).length
          ((ps ++ fs).length + (xs' ++ ys).length : ℕ) false) := by
      rw [Nat.add_right_comm k 1 rest, moveBefore, hindex, if_pos, htarget, hcount]
      · congr 1
        simp only [List.length_append, List.length_cons, List.length_nil]
        omega
      · simp only [List.length_append, List.countP_append, hfcount', List.countP_cons]
        omega
    rw [hstep]
    obtain ⟨s', hrun, hwf', hview'⟩ := @ih _ (fs ++ xs') (ys ++ [t]) hwf
      (by rw [hmoved]; simp only [List.append_assoc, List.singleton_append])
      (by simpa [or_imp, forall_and, ht] using hys)
      (fun u hu => hgroup u (by
        simp only [List.mem_append, List.mem_cons] at hu ⊢
        tauto))
      (fun u hu => hlast' u (by rwa [List.getLast?_append_of_ne_nil _ hne] at hu))
      (by
        rw [List.countP_append] at hrest ⊢
        rw [List.countP_append]
        omega)
      (by simpa [ht, hfcount] using hk)
    refine ⟨s', hrun, hwf', hview'.trans ?_⟩
    simp [ht, List.filter_append, filter_eq_nil_of_forall hfs]

/-- The second loop brings the selected tabs of `xs` to its front. -/
lemma moveAfter_spec {ps xs zs : List TabView} {stop : ℕ} (hs : s.Wf)
    (hview : s.view = ps ++ xs ++ zs) (hgroup : ∀ u ∈ xs, u.tab.mini = b)
    (hstop : ps.countP TabView.selected + xs.countP TabView.selected = stop) :
    (moveAfter stop (xs.countP TabView.selected) ps.length s).Wf ∧
      (moveAfter stop (xs.countP TabView.selected) ps.length s).view =
        ps ++ xs.filter TabView.selected ++ (xs.filter fun u => !u.selected) ++ zs := by
  induction hk : xs.countP TabView.selected generalizing s ps xs with
  | zero =>
    have hnone : ∀ u ∈ xs, u.selected = false := by simpa using hk
    refine ⟨hs, ?_⟩
    rw [moveAfter, hview, filter_not_eq_self hnone, filter_eq_nil_of_forall hnone, List.append_nil]
  | succ k ih =>
    have hpos : 0 < xs.countP TabView.selected := by omega
    obtain ⟨fs, t, xs', rfl, hfs, ht⟩ := exists_first hpos
    have hfcount : fs.countP TabView.selected = 0 :=
      List.countP_eq_zero.mpr (by simpa using hfs)
    have hat : s.view = (ps ++ fs) ++ t :: (xs' ++ zs) := by
      rw [hview]
      simp only [List.append_assoc, List.cons_append]
    have hindex : s.selectedIndex (stop - (k + 1)) = (ps ++ fs).length := by
      refine selectedIndex_eq hs hat ht ?_
      rw [List.countP_append, hfcount]
      omega
    set s₁ := if ((ps ++ fs).length : ℤ) ≠ ps.length then
      s.moveWebContentsAt (ps ++ fs).length ps.length false else s with hs₁
    -- the tab stands behind those placed before, whether it was moved there or was there already
    have hmoved : s₁.Wf ∧ s₁.view = (ps ++ [t]) ++ (fs ++ xs') ++ zs := by
      rcases fs with _ | ⟨v, fs⟩
      · rw [hs₁, if_neg (by simp)]
        exact ⟨hs, by rw [hview]; simp⟩
      · rw [hs₁, if_pos (by simp; omega), List.length_append]
        obtain ⟨hwf, hview'⟩ := moveWebContentsAt_backward hs hat (List.cons_ne_nil v fs)
          (b := b) fun u hu => hgroup u (by
            simp only [List.mem_append, List.mem_cons] at hu ⊢
            tauto)
        refine ⟨hwf, hview'.trans ?_⟩
        simp only [List.append_assoc, List.cons_append, List.nil_append]
    have hstep : moveAfter stop (k + 1) ps.length s =
        moveAfter stop k (ps ++ [t]).length s₁ := by
      rw [moveAfter, hindex]
      simp [hs₁]
    obtain ⟨hwf', hview'⟩ := @ih s₁ (ps ++ [t]) (fs ++ xs') hmoved.1 hmoved.2
      (fun u hu => hgroup u (by
        simp only [List.mem_append, List.mem_cons] at hu ⊢
        tauto))
      (by
        rw [List.countP_append, List.countP_cons_of_pos ht] at hstop
        rw [List.countP_append, List.countP_append, List.countP_singleton, if_pos ht]
        omega)
      (by simpa [ht, hfcount] using hk)
    rw [hstep]
    refine ⟨hwf', hview'.trans ?_⟩
    simp [ht, List.filter_append, filter_eq_nil_of_forall hfs]

/-- The loop that counts stops at the first selected tab behind the index. -/
lemma countBeforeIndex_eq {xs ys : List TabView} {first : ℕ} {index count : ℤ}
    (hlast : ∀ u, xs.getLast? = some u → u.selected = false)
    (hindex : index + count = first + xs.countP fun u => !u.selected) :
    countBeforeIndex index (((xs ++ ys).findIdxs TabView.selected first).map Nat.cast) count =
      count + xs.countP TabView.selected := by
  induction xs generalizing first count with
  | nil =>
    rw [List.nil_append, List.countP_nil]
    cases hfound : ys.findIdxs TabView.selected first with
    | nil => simp [countBeforeIndex]
    | cons k rest =>
      have hge := List.ge_of_mem_findIdxs k (hfound ▸ List.mem_cons_self)
      rw [List.countP_nil] at hindex
      rw [List.map_cons, countBeforeIndex, if_neg (by omega)]
      simp
  | cons x xs ih =>
    have hlast' : ∀ u, xs.getLast? = some u → u.selected = false := by
      intro u hu
      refine hlast u ?_
      rcases xs with _ | ⟨y, xs⟩
      · cases hu
      · rwa [List.getLast?_cons_cons]
    rw [List.cons_append, List.findIdxs_cons]
    cases hx : x.selected with
    | false =>
      rw [List.countP_cons_of_pos (by simp [hx])] at hindex
      rw [if_neg (by simp), List.countP_cons_of_neg (by simp [hx]), ih hlast' (by omega)]
    | true =>
      rw [List.countP_cons_of_neg (by simp [hx])] at hindex
      have hpos : 0 < xs.countP fun u => !u.selected := by
        rcases List.eq_nil_or_concat xs with rfl | ⟨xs, u, rfl⟩
        · have hfalse := hlast x rfl
          simp [hx] at hfalse
        · simp [hlast' u (by simp)]
      rw [if_pos rfl, List.map_cons, countBeforeIndex, if_pos (by omega),
        List.countP_cons_of_pos hx, ih hlast' (by omega)]
      omega

/-- The selected tabs of `ms` are gathered behind the first `u` others. -/
theorem moveSelectedTabsToImpl_spec {ps ms zs : List TabView} {u : ℕ} (hs : s.Wf)
    (hview : s.view = ps ++ ms ++ zs) (hgroup : ∀ t ∈ ms, t.tab.mini = b)
    (hu : u ≤ ms.countP fun t => !t.selected) :
    (s.moveSelectedTabsToImpl (ps.length + u) (ps.countP TabView.selected)
      (ms.countP TabView.selected)).Wf ∧
    (s.moveSelectedTabsToImpl (ps.length + u) (ps.countP TabView.selected)
      (ms.countP TabView.selected)).view =
        ps ++ (ms.filter fun t => !t.selected).take u ++ ms.filter TabView.selected ++
          (ms.filter fun t => !t.selected).drop u ++ zs := by
  obtain ⟨xs, ys, rfl, hcount, hlast⟩ := exists_cut hu
  have hselection : ((s.selectionModel.selectedIndices.drop (ps.countP TabView.selected)).take
      ((xs ++ ys).countP TabView.selected)) =
        ((xs ++ ys).findIdxs TabView.selected ps.length).map Nat.cast := by
    rw [selectedIndices_eq hs.selection, hview, ← List.map_drop, ← List.map_take,
      List.findIdxs_append, List.findIdxs_append, Nat.zero_add, List.append_assoc,
      List.drop_left' List.length_findIdxs, List.take_left' List.length_findIdxs]
  have hbefore : countBeforeIndex (ps.length + u) ((s.selectionModel.selectedIndices.drop
      (ps.countP TabView.selected)).take ((xs ++ ys).countP TabView.selected)) 0 =
        (xs.countP TabView.selected : ℤ) := by
    rw [hselection, countBeforeIndex_eq hlast (by omega), Int.zero_add]
  obtain ⟨s', hrun, hwf, hview'⟩ := @moveBefore_spec s b ps xs [] (ys ++ zs)
    (ys.countP TabView.selected) hs (by simpa using hview) (by simp)
    (fun t ht => hgroup t (by simp at ht; simp [ht])) hlast (by simp)
  have hlength : (xs.filter fun t => !t.selected).length = u := by
    rw [← List.countP_eq_length_filter, hcount]
  have hsum : xs.length = xs.countP TabView.selected + u := by
    rw [List.length_eq_length_filter_add TabView.selected, hlength, List.countP_eq_length_filter]
  set front : List TabView :=
    ps ++ (xs.filter fun t => !t.selected) ++ ([] ++ xs.filter TabView.selected) with hfront
  have hplace : front.length = ps.length + u + xs.countP TabView.selected := by
    rw [hfront, List.length_append, List.length_append, List.nil_append, hlength,
      List.countP_eq_length_filter]
  have htarget : (ps.length + u : ℤ) + (xs.countP TabView.selected : ℤ) = front.length := by
    rw [hplace]
    push_cast
    ring
  have hfirst : moveBefore (ps.length + u) (ps.length + u + (xs.countP TabView.selected : ℤ))
      (ps.countP TabView.selected) ((xs ++ ys).countP TabView.selected) s =
        (s', ys.countP TabView.selected) := by
    rw [← hrun, hcount, List.countP_append]
    congr 1
    rw [hsum, List.length_nil]
    push_cast
    ring
  have himpl : s.moveSelectedTabsToImpl (ps.length + u) (ps.countP TabView.selected)
      ((xs ++ ys).countP TabView.selected) =
        moveAfter (ps.countP TabView.selected + (xs ++ ys).countP TabView.selected)
          (ys.countP TabView.selected) front.length s' := by
    rw [moveSelectedTabsToImpl, hbefore, hfirst, htarget]
  have hmarked : front.countP TabView.selected + ys.countP TabView.selected =
      ps.countP TabView.selected + (xs ++ ys).countP TabView.selected := by
    have hout : (xs.filter fun t => !t.selected).countP TabView.selected = 0 := by
      rw [List.countP_eq_zero]
      intro t ht
      simpa using (List.mem_filter.mp ht).2
    have hin : (xs.filter TabView.selected).countP TabView.selected =
        xs.countP TabView.selected := by
      rw [List.countP_eq_length_filter, List.countP_eq_length_filter, List.filter_filter]
      simp
    rw [hfront, List.countP_append, List.countP_append, List.nil_append, hout, hin,
      List.countP_append]
    omega
  obtain ⟨hwf', hview''⟩ := @moveAfter_spec s' b front ys zs _ hwf
    (by rw [hview', List.append_assoc _ ys zs]) (fun t ht => hgroup t (by simp [ht])) hmarked
  rw [himpl]
  refine ⟨hwf', hview''.trans ?_⟩
  rw [List.filter_append, List.filter_append, ← hlength, List.take_left, List.drop_left, hfront,
    List.nil_append]
  simp only [List.append_assoc]

end Loops

/-! ### All selected tabs -/

/-- The tabs with the selected ones gathered behind the first `u` others. -/
def gather (u : ℕ) (tabs : List TabView) : List TabView :=
  (tabs.filter fun t => !t.selected).take u ++ tabs.filter TabView.selected ++
    (tabs.filter fun t => !t.selected).drop u

section Gather
variable {u : ℕ} {ts : List TabView}

lemma gather_perm (u : ℕ) (ts : List TabView) : (gather u ts).Perm ts := by
  have hswap : (gather u ts).Perm (ts.filter TabView.selected ++
      ((ts.filter fun t => !t.selected).take u ++ (ts.filter fun t => !t.selected).drop u)) := by
    rw [gather, List.append_assoc]
    exact List.perm_append_comm_assoc _ _ _
  rw [List.take_append_drop] at hswap
  exact hswap.trans (List.filter_append_perm TabView.selected ts)

lemma gather_of_none (h : ts.countP TabView.selected = 0) : gather u ts = ts := by
  have hnone : ∀ t ∈ ts, t.selected = false := by simpa using h
  rw [gather, filter_eq_nil_of_forall hnone, filter_not_eq_self hnone, List.append_nil,
    List.take_append_drop]

end Gather

def minis (s : TabStripModel) : List TabView := s.view.filter fun t => t.tab.mini

def others (s : TabStripModel) : List TabView := s.view.filter fun t => !t.tab.mini

lemma minis_append_others {f : ℕ} (hf : Boundary s.tabs f) :
    s.view = s.minis ++ s.others ∧ s.minis.length = f := by
  have hmini : ∀ k t, s.view[k]? = some t → (t.tab.mini = true ↔ k < f) := by
    intro k t hk
    refine hf.2 k t.tab ?_
    rw [← map_tab_view, List.getElem?_map, hk]
    rfl
  have htake : ∀ t ∈ s.view.take f, t.tab.mini = true := by
    intro t ht
    obtain ⟨k, hk, rfl⟩ := List.mem_iff_getElem.mp ht
    have hlt : k < f := by
      rw [List.length_take] at hk
      omega
    refine (hmini k _ ?_).mpr hlt
    rw [← List.getElem?_eq_getElem, List.getElem?_take_of_lt hlt]
  have hdrop : ∀ t ∈ s.view.drop f, t.tab.mini = false := by
    intro t ht
    obtain ⟨k, hk, rfl⟩ := List.mem_iff_getElem.mp ht
    have hat : s.view[f + k]? = some (s.view.drop f)[k] := by
      rw [← List.getElem?_eq_getElem, List.getElem?_drop]
    simpa using (hmini _ _ hat).not.mpr (by omega)
  have hminis : s.minis = s.view.take f := by
    rw [minis]
    conv_lhs => rw [← List.take_append_drop f s.view]
    rw [List.filter_append, List.filter_eq_self.mpr htake,
      List.filter_eq_nil_iff.mpr (by simpa using hdrop), List.append_nil]
  have hothers : s.others = s.view.drop f := by
    rw [others]
    conv_lhs => rw [← List.take_append_drop f s.view]
    rw [List.filter_append, List.filter_eq_nil_iff.mpr (by simpa using htake),
      List.filter_eq_self.mpr (by simpa using hdrop), List.nil_append]
  rw [hminis, hothers, List.take_append_drop, List.length_take, length_view]
  exact ⟨rfl, min_eq_left hf.1⟩

/-- The loop over the selected mini-tabs stops at the first other tab. -/
lemma selectedMiniCount_eq (hs : s.Wf) :
    (s.selectionModel.selectedIndices.takeWhile s.isMiniTab).length =
      s.minis.countP TabView.selected := by
  obtain ⟨f, hf⟩ := hs.boundary
  obtain ⟨hview, hlength⟩ := minis_append_others hf
  have hmini : ∀ k : ℕ, k < s.tabs.length → (s.isMiniTab k = true ↔ k < f) := by
    intro k hk
    rw [isMiniTab_eq (List.getElem?_eq_getElem hk)]
    exact hf.2 k _ (List.getElem?_eq_getElem hk)
  have hle := hf.1
  rw [selectedIndices_eq hs.selection, hview, List.findIdxs_append, List.map_append, Nat.zero_add,
    hlength, List.takeWhile_append_of_pos]
  · have hnil : ((s.others.findIdxs TabView.selected f).map Nat.cast).takeWhile s.isMiniTab =
        [] := by
      cases hfound : s.others.findIdxs TabView.selected f with
      | nil => rfl
      | cons k rest =>
        have hmem : k ∈ s.others.findIdxs TabView.selected f := hfound ▸ List.mem_cons_self
        have hge := List.ge_of_mem_findIdxs k hmem
        have hlt := List.lt_add_of_mem_findIdxs k hmem
        have hsum : s.tabs.length = f + s.others.length := by
          rw [← length_view, hview, List.length_append, hlength]
        rw [List.map_cons, List.takeWhile_cons_of_neg]
        rw [hmini k (by omega)]
        omega
    rw [hnil, List.append_nil, List.length_map, List.length_findIdxs]
  · intro k hk
    obtain ⟨n, hn, rfl⟩ := List.mem_map.mp hk
    have hlt := List.lt_add_of_mem_findIdxs n hn
    rw [hmini n (by omega)]
    omega

/-- Where the other tabs go. -/
def othersTarget (s : TabStripModel) (n : ℕ) : ℕ :=
  let m := s.minis.length
  let selected := s.minis.countP TabView.selected
  max (if 0 < selected ∧ m - selected < n then n + selected else n) m

theorem moveSelectedTabsTo_spec (hs : s.Wf) {n : ℕ}
    (hn : n + s.selectionModel.selectedIndices.length ≤ s.tabs.length) :
    (s.moveSelectedTabsTo n).Wf ∧
      (s.moveSelectedTabsTo n).view =
        gather (min n (s.minis.length - s.minis.countP TabView.selected)) s.minis ++
          gather (s.othersTarget n - s.minis.length) s.others := by
  obtain ⟨f, hf⟩ := hs.boundary
  obtain ⟨hview, hlength⟩ := minis_append_others hf
  have hmini : ∀ t ∈ s.minis, t.tab.mini = true := fun t ht => (List.mem_filter.mp ht).2
  have hother : ∀ t ∈ s.others, t.tab.mini = false := by
    intro t ht
    simpa using (List.mem_filter.mp ht).2
  have hunselected : ∀ ts : List TabView,
      ts.length = ts.countP TabView.selected + ts.countP fun t => !t.selected := by
    intro ts
    rw [List.countP_eq_length_filter, List.countP_eq_length_filter]
    exact List.length_eq_length_filter_add _
  have hm := hunselected s.minis
  have ho := hunselected s.others
  have hselected : s.selectionModel.selectedIndices.length =
      s.minis.countP TabView.selected + s.others.countP TabView.selected := by
    rw [selectedIndices_eq hs.selection, List.length_map, List.length_findIdxs]
    conv_lhs => rw [hview]
    exact List.countP_append
  have htotal : s.tabs.length = f + s.others.length := by
    rw [← length_view, hview, List.length_append, hlength]
  rw [moveSelectedTabsTo, selectedMiniCount_eq hs, indexOfFirstNonMiniTab_eq hf, othersTarget]
  rw [hlength] at hm ⊢
  generalize ha : s.minis.countP TabView.selected = a at *
  set moved : TabStripModel :=
    if a > 0 then s.moveSelectedTabsToImpl (min ((f : ℤ) - a) n) 0 a else s with hmovedEq
  have hmoved : moved.Wf ∧ moved.view = gather (min n (f - a)) s.minis ++ s.others := by
    rw [hmovedEq]
    split_ifs with hpos
    · have hspec := @moveSelectedTabsToImpl_spec s true [] s.minis s.others (min n (f - a)) hs
        (by rw [List.nil_append]; exact hview) hmini (by omega)
      have hindex : min ((f : ℤ) - a) n =
          (([] : List TabView).length : ℤ) + (min n (f - a) : ℕ) := by
        rw [List.length_nil]
        omega
      rw [hindex]
      simpa only [ha, gather, List.countP_nil, List.nil_append] using hspec
    · refine ⟨hs, ?_⟩
      have hzero : s.minis.countP TabView.selected = 0 := by
        omega
      rw [gather_of_none hzero]
      exact hview
  have hgatherLength : (gather (min n (f - a)) s.minis).length = f := by
    rw [(gather_perm _ _).length_eq, hlength]
  have hgatherCount : (gather (min n (f - a)) s.minis).countP TabView.selected = a := by
    rw [(gather_perm _ _).countP_eq, ha]
  by_cases hall : a = s.selectionModel.selectedIndices.length
  · have hzero : s.others.countP TabView.selected = 0 := by omega
    rw [if_pos hall, gather_of_none hzero]
    exact hmoved
  · have hspec := @moveSelectedTabsToImpl_spec moved false (gather (min n (f - a)) s.minis)
      s.others [] (max (if 0 < a ∧ f - a < n then n + a else n) f - f) hmoved.1
      (by rw [List.append_nil]; exact hmoved.2) hother (by split_ifs <;> omega)
    have hindex : max (if a > 0 ∧ (n : ℤ) > f - a then (n : ℤ) + a else n) f =
        ((gather (min n (f - a)) s.minis).length : ℤ) + (max (if 0 < a ∧ f - a < n then n + a else n) f - f : ℕ) := by
      rw [hgatherLength]
      split_ifs <;> omega
    have hcount : s.selectionModel.selectedIndices.length - a =
        s.others.countP TabView.selected := by
      omega
    rw [if_neg hall, hindex, hcount]
    rw [hgatherCount] at hspec
    refine ⟨hspec.1, hspec.2.trans ?_⟩
    simp only [gather, List.append_nil, List.append_assoc]

/-! ### Reachable strips -/

/-- A tab that is no application changes its group and stands at the boundary afterwards. -/
lemma Wf.regroup {s' : TabStripModel} {t : Tab} {pinned : Bool} (hs : s.Wf)
    (ht : s.tabs[i]? = some t) (happ : t.contents.isApp = false) (hj : j < s.tabs.length)
    (htabs : s'.tabs = (s.tabs.eraseIdx i).insertIdx j ⟨t.contents, pinned⟩)
    (hboundary : ∃ f, Boundary s'.tabs f) (hselection : s'.selectionModel.Valid s.tabs.length) :
    s'.Wf := by
  obtain ⟨hi, hget⟩ := List.getElem?_eq_some_iff.mp ht
  have hcontents : s'.tabs.map Tab.contents = move (s.tabs.map Tab.contents) i j := by
    rw [move, List.getElem?_map, ht, htabs, List.map_insertIdx, ← List.eraseIdx_map]
    rfl
  have hi' : i < (s.tabs.map Tab.contents).length := by rwa [List.length_map]
  have hj' : j < (s.tabs.map Tab.contents).length := by rwa [List.length_map]
  refine ⟨?_, hboundary, ?_, ?_⟩
  · have hlength := congrArg List.length hcontents
    rw [length_move hi' hj', List.length_map, List.length_map] at hlength
    rwa [hlength]
  · rw [hcontents]
    exact (perm_move hi' hj').nodup_iff.mpr hs.nodup
  · rw [htabs]
    intro u hu hisApp
    rcases List.eq_or_mem_of_mem_insertIdx hu with rfl | hu
    · rw [happ] at hisApp
      exact absurd hisApp Bool.false_ne_true
    · exact hs.appPinned u (List.mem_of_mem_eraseIdx hu) hisApp

lemma Wf.setTabPinned (hs : s.Wf) {index : ℤ} (hin : s.containsIndex index) (pinned : Bool) :
    (s.setTabPinned index pinned).Wf := by
  obtain ⟨i, rfl, hi⟩ := containsIndex_iff.mp hin
  obtain ⟨f, hf⟩ := hs.boundary
  obtain ⟨d, hd, hdata, htab⟩ := exists_data s hi
  have hle := hf.1
  have hmini := hf.2 i _ htab
  rw [hs.mini_eq (List.mem_of_getElem? htab)] at hmini
  have hisPinned : s.isTabPinned i = d.pinned := by simp [isTabPinned, hd]
  have hisApp : s.isAppTab i = d.webContents.isApp := by simp [isAppTab, getWebContentsAt, hd]
  rw [TabStripModel.setTabPinned, indexOfFirstNonMiniTab_eq hf, hisPinned, hisApp]
  dsimp only
  set s₁ : TabStripModel := { s with
    contentsData := s.contentsData.modify ((i : ℤ).toNat) fun d => { d with pinned := pinned } }
    with hs₁
  have htabs : s₁.tabs = s.tabs.set i ⟨d.webContents, pinned⟩ := by
    rw [hs₁, tabs, Int.toNat_natCast, tabs_modify_set hdata]
    rfl
  have hi₁ : i < s₁.tabs.length := by rwa [htabs, List.length_set]
  by_cases hsame : d.pinned = pinned
  · rwa [if_pos hsame]
  · rw [if_neg hsame]
    cases happ : d.webContents.isApp with
    | true =>
      have hpinned : d.pinned = true := hs.appPinned _ (List.mem_of_getElem? htab) happ
      rw [hpinned] at hsame
      rw [if_pos rfl, if_pos (by simpa using Ne.symm hsame)]
      exact hs
    | false =>
      rw [if_neg Bool.false_ne_true]
      have herased := hf.eraseIdx hi
      have hlength : (s.tabs.eraseIdx i).length = s.tabs.length - 1 := List.length_eraseIdx_of_lt hi
      have hnew : (Tab.mk d.webContents pinned).mini = pinned := by simp [Tab.mini, happ]
      cases pinned with
      | true =>
        have hge : ¬ i < f := by
          rw [← hmini]
          exact hsame
        rw [if_neg hge] at herased
        have hboundary := herased.insertIdx (by omega : f ≤ _) (t := ⟨d.webContents, true⟩)
          (by rw [if_pos hnew])
        by_cases hif : (i : ℤ) = f
        · rw [if_neg (by simp [hif]), if_neg (by simp)]
          obtain rfl : i = f := by omega
          rw [set_eq hi] at htabs
          exact hs.regroup htab happ hi htabs ⟨_, htabs ▸ hboundary⟩ hs.selection
        · rw [if_pos ⟨rfl, hif⟩]
          have hmoved := moveWebContentsAtImpl_tabs hi₁ (j := f) false
          rw [htabs, move_set hi] at hmoved
          refine hs.regroup htab happ (by omega) hmoved ⟨_, hmoved ▸ hboundary⟩ ?_
          rw [moveWebContentsAtImpl_selection hi₁]
          exact hs.selection.move hi (by omega)
      | false =>
        have hpinned : d.pinned = true := by simpa using hsame
        have hlt : i < f := hmini.mp hpinned
        rw [if_pos hlt] at herased
        have hboundary := herased.insertIdx (by omega : f - 1 ≤ _) (t := ⟨d.webContents, false⟩)
          (by simp [hnew])
        by_cases hif : (i : ℤ) + 1 = f
        · rw [if_neg (by simp), if_neg (by simp [hif])]
          obtain rfl : i = f - 1 := by omega
          rw [set_eq hi] at htabs
          exact hs.regroup htab happ hi htabs ⟨_, htabs ▸ hboundary⟩ hs.selection
        · rw [if_neg (by simp), if_pos ⟨by simp, hif⟩]
          have hcast : (f : ℤ) - 1 = (f - 1 : ℕ) := by omega
          rw [hcast]
          have hmoved := moveWebContentsAtImpl_tabs hi₁ (j := f - 1) false
          rw [htabs, move_set hi] at hmoved
          refine hs.regroup htab happ (by omega) hmoved ⟨_, hmoved ▸ hboundary⟩ ?_
          rw [moveWebContentsAtImpl_selection hi₁]
          exact hs.selection.move hi (by omega)

lemma Wf.step {s' : TabStripModel} {op : Op} (hs : s.Wf) (h : Step s op s') : s'.Wf := by
  obtain ⟨hallowed, happly⟩ := h
  cases op with
  | addWebContents contents index transition addTypes => exact hs.addWebContents hallowed happly
  | insertWebContentsAt index contents addTypes => exact hs.insertWebContentsAt hallowed happly
  | replaceWebContentsAt index newContents =>
    exact Option.some_injective _ happly ▸ hs.replaceWebContentsAt hallowed.1 hallowed.2
  | detachWebContentsAt index => exact hs.detachWebContentsAt happly
  | activateTabAt index userGesture =>
    obtain ⟨i, rfl, hi⟩ := containsIndex_iff.mp hallowed
    exact hs.setSelection (.setSelectedIndex (by omega)) happly
  | addTabAtToSelection index =>
    obtain ⟨i, rfl, hi⟩ := containsIndex_iff.mp hallowed
    exact hs.setSelection (hs.selection.addIndexToSelection (by omega)) happly
  | extendSelectionTo index =>
    obtain ⟨i, rfl, hi⟩ := containsIndex_iff.mp hallowed
    exact hs.setSelection (hs.selection.setSelectionFromAnchorTo (by omega)) happly
  | addSelectionFromAnchorTo index =>
    obtain ⟨i, rfl, hi⟩ := containsIndex_iff.mp hallowed
    exact hs.setSelection (hs.selection.addSelectionFromAnchorTo (by omega)) happly
  | toggleSelectionAt index => exact hs.toggleSelectionAt hallowed happly
  | setSelectionFromModel source =>
    refine hs.setSelection ?_ happly
    rw [length_tabs]
    exact hallowed
  | moveWebContentsAt index toPosition selectAfterMove =>
    obtain ⟨i, rfl, hi⟩ := containsIndex_iff.mp hallowed.1
    obtain ⟨j, rfl, hj⟩ := containsIndex_iff.mp hallowed.2
    exact Option.some_injective _ happly ▸ hs.moveWebContentsAt hi hj selectAfterMove
  | moveSelectedTabsTo index =>
    obtain ⟨hpos, hle⟩ := hallowed
    lift index to ℕ using hpos
    rw [count_eq] at hle
    exact Option.some_injective _ happly ▸ (moveSelectedTabsTo_spec hs (by omega)).1
  | setTabPinned index pinned =>
    exact Option.some_injective _ happly ▸ hs.setTabPinned hallowed pinned
  | setOpenerOfWebContentsAt index opener =>
    exact Option.some_injective _ happly ▸
      Same.wf ⟨tabs_setOpenerOfWebContentsAt s index opener, rfl⟩ hs
  | forgetAllOpeners => exact Option.some_injective _ happly ▸ (same_forgetAllOpeners s).wf hs
  | forgetGroup contents =>
    exact Option.some_injective _ happly ▸ (same_forgetGroup s contents).wf hs

lemma Wf.empty : Wf {} :=
  ⟨.clear 0, ⟨0, .nil⟩, List.nodup_nil, by simp [tabs]⟩

/-- In every strip that calls lead to the invariant holds. -/
theorem Reachable.wf (h : s.Reachable) : s.Wf := by
  obtain ⟨ops, hops⟩ := h
  exact hops.invariant Wf Wf.empty fun _ _ _ hs hstep => hs.step hstep

/-! ### Three tabs and four -/

def first : WebContents := ⟨1, false⟩
def second : WebContents := ⟨2, false⟩
def third : WebContents := ⟨3, false⟩

/-- Three tabs of which the last is active. -/
def threeTabs : TabStripModel where
  contentsData := [{ webContents := first }, { webContents := second }, { webContents := third }]
  selectionModel := { selectedIndices := [2], active := 2, anchor := 2 }

/-- Of the four tabs the first two are mini-tabs; the first and the last are selected. -/
def fourTabs : TabStripModel where
  contentsData := [{ webContents := ⟨4, true⟩, pinned := true },
    { webContents := first, pinned := true }, { webContents := second }, { webContents := third }]
  selectionModel := { selectedIndices := [0, 3], active := 0, anchor := 0 }

lemma threeTabs_reachable : threeTabs.Reachable :=
  @reachable_of_run threeTabs [.insertWebContentsAt 0 first {}, .insertWebContentsAt 1 second {},
    .insertWebContentsAt 2 third { addActive := true }] (by decide)

lemma fourTabs_reachable : fourTabs.Reachable :=
  @reachable_of_run fourTabs [.insertWebContentsAt 0 ⟨4, true⟩ { addActive := true },
    .insertWebContentsAt 1 first { addPinned := true }, .insertWebContentsAt 2 second {},
    .insertWebContentsAt 3 third {}, .addTabAtToSelection 3] (by decide)

/-- The selected mini-tabs are gathered among the mini-tabs, the other selected tabs among the
others, and all tabs stay what they are. -/
theorem selected_tabs_gathered (hs : s.Reachable) {n : ℕ}
    (hn : n ≤ s.count - s.selectionModel.selectedIndices.length) :
    (s.moveSelectedTabsTo n).minis =
        gather (min n (s.minis.length - s.minis.countP TabView.selected)) s.minis ∧
      (s.moveSelectedTabsTo n).view =
        (s.moveSelectedTabsTo n).minis ++ (s.moveSelectedTabsTo n).others ∧
      (s.moveSelectedTabsTo n).others = gather (s.othersTarget n - s.minis.length) s.others ∧
      (s.moveSelectedTabsTo n).view.Perm s.view := by
  rw [count_eq] at hn
  obtain ⟨hwf, hview⟩ := moveSelectedTabsTo_spec hs.wf (n := n) (by omega)
  obtain ⟨f, hf⟩ := hs.wf.boundary
  obtain ⟨f', hf'⟩ := hwf.boundary
  have hminis : ∀ u, ∀ t ∈ gather u s.minis, t.tab.mini = true := fun u t ht =>
    (List.mem_filter.mp ((gather_perm u _).mem_iff.mp ht)).2
  have hothers : ∀ u, ∀ t ∈ gather u s.others, t.tab.mini = false := fun u t ht => by
    simpa using (List.mem_filter.mp ((gather_perm u _).mem_iff.mp ht)).2
  refine ⟨?_, (minis_append_others hf').1, ?_, ?_⟩
  · rw [minis, hview, List.filter_append, List.filter_eq_self.mpr (hminis _),
      filter_eq_nil_of_forall (hothers _), List.append_nil]
  · rw [others, hview, List.filter_append, filter_not_eq_self (hothers _),
      List.filter_eq_nil_iff.mpr (by simpa using hminis _), List.nil_append]
  · rw [hview]
    conv_rhs => rw [(minis_append_others hf).1]
    exact (gather_perm _ _).append (gather_perm _ _)

theorem selected_tabs_gathered_four :
    (fourTabs.moveSelectedTabsTo 1).minis =
        gather (min 1 (fourTabs.minis.length - fourTabs.minis.countP TabView.selected))
          fourTabs.minis ∧
      (fourTabs.moveSelectedTabsTo 1).view =
        (fourTabs.moveSelectedTabsTo 1).minis ++ (fourTabs.moveSelectedTabsTo 1).others ∧
      (fourTabs.moveSelectedTabsTo 1).others =
        gather (fourTabs.othersTarget 1 - fourTabs.minis.length) fourTabs.others ∧
      (fourTabs.moveSelectedTabsTo 1).view.Perm fourTabs.view :=
  @selected_tabs_gathered fourTabs fourTabs_reachable 1 (by decide)

/-! ### Moves that select -/

/-- The selected tabs, as they are told apart outside the strip. -/
def selectedTabs (s : TabStripModel) : List WebContents :=
  (s.view.filter TabView.selected).map fun t => t.tab.contents

/-- What a move is to do: the order is that of the move, the selection stays with the tabs, and a
tab that is to be selected is, without others being dropped if it was. -/
def MoveKeeps (s : TabStripModel) (i j : ℕ) (select : Bool) : Prop :=
  (s.moveWebContentsAt i j select).tabs = move s.tabs i j ∧
    if select then
      (s.moveWebContentsAt i j select).isTabSelected j = true ∧
        (s.isTabSelected i = true →
          ∀ c, c ∈ (s.moveWebContentsAt i j select).selectedTabs ↔ c ∈ s.selectedTabs)
    else (s.moveWebContentsAt i j select).view = move s.view i j

/-- The question is asked of the tab that comes to stand at index 1. -/
def MoveSelects (s : TabStripModel) (i j : ℕ) : Prop :=
  if s.isTabSelected i then
    s.isTabSelected (source i j 1) = true ∨ s.selectionModel.selectedIndices = [(i : ℤ)]
  else s.isTabSelected (source i j 1) = false

lemma mem_selectedTabs {c : WebContents} :
    c ∈ s.selectedTabs ↔
      ∃ (k : ℕ) (t : Tab), s.tabs[k]? = some t ∧ s.isTabSelected k = true ∧ t.contents = c := by
  simp only [selectedTabs, List.mem_map, List.mem_filter]
  constructor
  · rintro ⟨v, ⟨hv, hselected⟩, rfl⟩
    obtain ⟨k, hk⟩ := List.mem_iff_getElem?.mp hv
    rw [view, List.getElem?_mapIdx] at hk
    obtain ⟨t, ht, rfl⟩ := Option.map_eq_some_iff.mp hk
    exact ⟨k, t, ht, hselected, rfl⟩
  · rintro ⟨k, t, ht, hselected, rfl⟩
    have hv : s.view[k]? = some ⟨t, s.selectionModel.isSelected k, s.selectionModel.active = k,
        s.selectionModel.anchor = k⟩ := by
      rw [view, List.getElem?_mapIdx, ht]
      rfl
    exact ⟨_, ⟨List.mem_of_getElem? hv, hselected⟩, rfl⟩

/-- The selection after a move that selects. -/
lemma moveWebContentsAtImpl_select (hi : i < s.tabs.length) (hij : i ≠ j) :
    (s.moveWebContentsAtImpl i j true).selectionModel =
      if s.isTabSelected (source i j 1) then s.selectionModel.move i j
      else .setSelectedIndex j := by
  have hprobe : (s.selectionModel.move i j).isSelected 1 = s.isTabSelected (source i j 1) := by
    rw [isTabSelected, Bool.eq_iff_iff, ListSelectionModel.isSelected_iff,
      ListSelectionModel.isSelected_iff]
    exact ListSelectionModel.mem_move hij 1
  obtain ⟨d, hd, -, -⟩ := exists_data s hi
  unfold moveWebContentsAtImpl
  rw [hd]
  dsimp only [forgetOpenersAndGroupsReferencing]
  rw [if_pos rfl, hprobe]
  cases s.isTabSelected (source i j 1) <;> simp

/-- Only one tab is selected exactly if no other contents are. -/
lemma selected_alone_iff (hs : s.Wf) {t : Tab} (ht : s.tabs[i]? = some t)
    (hselected : s.isTabSelected i = true) :
    (∀ c, c = t.contents ↔ c ∈ s.selectedTabs) ↔
      s.selectionModel.selectedIndices = [(i : ℤ)] := by
  have hmem : (i : ℤ) ∈ s.selectionModel.selectedIndices :=
    ListSelectionModel.isSelected_iff.mp hselected
  constructor
  · intro h
    have hall : ∀ k ∈ s.selectionModel.selectedIndices, k = (i : ℤ) := by
      intro k hk
      obtain ⟨hpos, hlt⟩ := hs.selection.selected k hk
      lift k to ℕ using hpos
      have hlt' : k < s.tabs.length := by omega
      have hk' := List.getElem?_eq_getElem hlt'
      have hcontents := (h s.tabs[k].contents).mpr (mem_selectedTabs.mpr
        ⟨k, _, hk', ListSelectionModel.isSelected_iff.mpr hk, rfl⟩)
      have hsame : k = i := (List.getElem?_inj (by simpa using hlt') hs.nodup).mp (by
        rw [List.getElem?_map, List.getElem?_map, ht, hk', Option.map_some, hcontents]
        rfl)
      rw [hsame]
    have hnodup : s.selectionModel.selectedIndices.Nodup := hs.selection.sorted.imp ne_of_lt
    exact (List.perm_singleton.mp ((List.perm_ext_iff_of_nodup hnodup (by simp)).mpr fun k =>
      ⟨fun hk => by simpa using hall k hk, fun hk => by simpa [List.mem_singleton.mp hk]⟩))
  · intro hone c
    rw [mem_selectedTabs]
    constructor
    · rintro rfl
      exact ⟨i, t, ht, hselected, rfl⟩
    · rintro ⟨k, u, hu, hk, rfl⟩
      rw [isTabSelected, ListSelectionModel.isSelected_iff, hone, List.mem_singleton] at hk
      obtain rfl : k = i := by omega
      cases ht.symm.trans hu
      rfl

theorem moveKeeps_iff (hs : s.Reachable) (hi : i < s.tabs.length) (hj : j < s.tabs.length)
    (hij : i ≠ j) (hgroup : s.isMiniTab i = s.isMiniTab j) (select : Bool) :
    s.MoveKeeps i j select ↔ (select = true → s.MoveSelects i j) := by
  have hwf := hs.wf
  obtain ⟨f, hf⟩ := hwf.boundary
  have hsame : i < f ↔ j < f := by
    have hgi := hf.2 i _ (List.getElem?_eq_getElem hi)
    have hgj := hf.2 j _ (List.getElem?_eq_getElem hj)
    rw [isMiniTab_eq (List.getElem?_eq_getElem hi), isMiniTab_eq (List.getElem?_eq_getElem hj)]
      at hgroup
    rw [← hgi, ← hgj, hgroup]
  have htabs := moveWebContentsAtImpl_tabs hi (j := j) select
  have hti := List.getElem?_eq_getElem hi
  rw [MoveKeeps, moveWebContentsAt_of_same hf hij hsame]
  cases select with
  | false =>
    simp only [Bool.false_eq_true, if_false, false_imp_iff, iff_true]
    exact ⟨htabs, view_moveWebContentsAtImpl hi hj hij⟩
  | true =>
    have hselection := moveWebContentsAtImpl_select (j := j) hi hij
    simp only [htabs, true_and, if_true, true_imp_iff]
    rw [MoveSelects]
    cases hprobe : s.isTabSelected (source i j 1) with
    | true =>
      rw [hprobe, if_pos rfl] at hselection
      have hat : ∀ k : ℕ, (s.moveWebContentsAtImpl i j true).isTabSelected k =
          s.isTabSelected (source i j k) := by
        intro k
        rw [isTabSelected, hselection, isTabSelected, Bool.eq_iff_iff,
          ListSelectionModel.isSelected_iff, ListSelectionModel.isSelected_iff]
        exact ListSelectionModel.mem_move hij k
      rw [hat, source_self]
      have hset : ∀ c, c ∈ (s.moveWebContentsAtImpl i j true).selectedTabs ↔
          c ∈ s.selectedTabs := by
        intro c
        rw [mem_selectedTabs, mem_selectedTabs, htabs]
        constructor
        · rintro ⟨k, t, ht, hk, rfl⟩
          rw [getElem?_move hi hj] at ht
          exact ⟨source i j k, t, ht, by rw [← hat, hk], rfl⟩
        · rintro ⟨k, t, ht, hk, rfl⟩
          refine ⟨source j i k, t, ?_, ?_, rfl⟩
          · rw [getElem?_move hi hj, source_source, ht]
          · rw [hat, source_source, hk]
      cases s.isTabSelected i <;> simp [hset]
    | false =>
      rw [hprobe, if_neg Bool.false_ne_true] at hselection
      have hat : ∀ k : ℕ, (s.moveWebContentsAtImpl i j true).isTabSelected k = true ↔ k = j := by
        intro k
        rw [isTabSelected, hselection, ListSelectionModel.isSelected_iff,
          ListSelectionModel.setSelectedIndex, kUnselectedIndex, if_pos (by omega),
          List.mem_singleton]
        omega
      have hset : ∀ c, c ∈ (s.moveWebContentsAtImpl i j true).selectedTabs ↔
          c = s.tabs[i].contents := by
        intro c
        rw [mem_selectedTabs, htabs]
        constructor
        · rintro ⟨k, t, ht, hk, rfl⟩
          obtain rfl := (hat k).mp hk
          rw [getElem?_move hi hj, source_self, hti] at ht
          cases ht
          rfl
        · rintro rfl
          exact ⟨j, _, by rw [getElem?_move hi hj, source_self, hti], (hat j).mpr rfl, rfl⟩
      simp only [(hat j).mpr rfl, true_and, hset]
      cases hselected : s.isTabSelected i with
      | true => simp [selected_alone_iff hwf hti hselected]
      | false => simp

theorem moveKeeps_iff_three :
    threeTabs.MoveKeeps 2 0 true ↔ (true = true → threeTabs.MoveSelects 2 0) :=
  moveKeeps_iff threeTabs_reachable (by decide) (by decide) (by decide) (by decide) true

/-- The first tab is moved behind the others and the second one asked about. -/
theorem moved_tab_not_selected :
    ¬ ∀ (s : TabStripModel) (i j : ℕ) (select : Bool), s.Reachable → i < s.tabs.length →
      j < s.tabs.length → i ≠ j → s.isMiniTab i = s.isMiniTab j → s.MoveKeeps i j select := by
  intro h
  have hkeeps := h threeTabs 0 2 true threeTabs_reachable (by decide) (by decide) (by decide) rfl
  exact absurd hkeeps.2.1 (by decide)

end TabStripModel

end Chromium.TabStrip
