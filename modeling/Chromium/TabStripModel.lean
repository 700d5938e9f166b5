import Chromium.ListSelectionModel
import Chromium.Runs

/-!
# The tab strip

`chrome/browser/ui/tabs/tab_strip_model.cc` with `tab_strip_model_order_controller.cc`: the
tabs of a window with their openers and groups, and the selection over their indices. A call
whose `CHECK` fails has no result.
-/
namespace Chromium.TabStrip

open ListMoves ListSelection

/-- The contents of a tab; whether they are an application is fixed before they are added. -/
structure WebContents where
  id : ℕ
  isApp : Bool
  deriving DecidableEq, Repr

structure WebContentsData where
  webContents : WebContents
  group : Option WebContents := none
  opener : Option WebContents := none
  resetGroupOnSelect : Bool := false
  pinned : Bool := false
  deriving DecidableEq, Repr

def WebContentsData.isMini (d : WebContentsData) : Bool := d.pinned || d.webContents.isApp

structure AddTypes where
  addActive : Bool := false
  addPinned : Bool := false
  addForceIndex : Bool := false
  addInheritGroup : Bool := false
  addInheritOpener : Bool := false

inductive PageTransition
  | link
  | typed
  | other
  deriving DecidableEq

structure TabStripModel where
  contentsData : List WebContentsData := []
  selectionModel : ListSelectionModel := {}
  deriving DecidableEq, Repr

def kNoTab : ℤ := -1

namespace TabStripModel

variable (s : TabStripModel)

def count : ℤ := s.contentsData.length

def activeIndex : ℤ := s.selectionModel.active

def containsIndex (index : ℤ) : Bool := 0 ≤ index ∧ index < s.count

def data? (index : ℤ) : Option WebContentsData :=
  if s.containsIndex index then s.contentsData[index.toNat]? else none

def getWebContentsAt (index : ℤ) : Option WebContents :=
  (s.data? index).map WebContentsData.webContents

def getActiveWebContents : Option WebContents := s.getWebContentsAt s.activeIndex

def getIndexOfWebContents (contents : WebContents) : ℤ :=
  match s.contentsData.findIdx? (·.webContents = contents) with
  | some i => i
  | none => kNoTab

def getOpenerOfWebContentsAt (index : ℤ) : Option WebContents :=
  (s.data? index).bind WebContentsData.opener

def isTabPinned (index : ℤ) : Bool := ((s.data? index).map WebContentsData.pinned).getD false

def isAppTab (index : ℤ) : Bool := ((s.getWebContentsAt index).map WebContents.isApp).getD false

def isMiniTab (index : ℤ) : Bool := s.isTabPinned index || s.isAppTab index

def isTabSelected (index : ℤ) : Bool := s.selectionModel.isSelected index

def indexOfFirstNonMiniTab : ℤ := s.contentsData.findIdx fun d => ¬ d.isMini

def constrainInsertionIndex (index : ℤ) (miniTab : Bool) : ℤ :=
  if miniTab then min (max 0 index) s.indexOfFirstNonMiniTab
  else min s.count (max index s.indexOfFirstNonMiniTab)

/-! ### Openers and groups -/

def openerMatches (data : WebContentsData) (opener : WebContents) (useGroup : Bool) : Bool :=
  data.opener = some opener || (useGroup && data.group = some opener)

/-- Tabs behind the start come first, then those before it from the nearest on. -/
def getIndexOfNextWebContentsOpenedBy (opener : WebContents) (startIndex : ℤ)
    (useGroup : Bool) : ℤ :=
  let opened (i : ℕ) : Bool := match s.contentsData[i]? with
    | some data => openerMatches data opener useGroup
    | none => false
  let start := startIndex.toNat
  match (List.range' (start + 1) (s.contentsData.length - (start + 1))).find? opened with
  | some i => i
  | none =>
    match (List.range start).reverse.find? opened with
    | some i => i
    | none => kNoTab

def getIndexOfLastWebContentsOpenedBy (opener : WebContents) (startIndex : ℤ) : ℤ :=
  let start := startIndex.toNat
  match (List.range' (start + 1) (s.contentsData.length - (start + 1))).reverse.find? fun i =>
      match s.contentsData[i]? with
      | some data => data.opener = some opener
      | none => false with
  | some i => i
  | none => kNoTab

def forgetAllOpeners : TabStripModel :=
  { s with contentsData := s.contentsData.map fun d => { d with opener := none } }

def forgetGroup (contents : WebContents) : TabStripModel :=
  { s with
    contentsData := s.contentsData.modify (s.getIndexOfWebContents contents).toNat
      (fun d => { d with group := none, opener := none }) }

def forgetOpenersAndGroupsReferencing (tab : WebContents) : TabStripModel :=
  { s with contentsData := s.contentsData.map fun d =>
      { d with group := if d.group = some tab then none else d.group
               opener := if d.opener = some tab then none else d.opener } }

def setOpenerOfWebContentsAt (index : ℤ) (opener : WebContents) : TabStripModel :=
  { s with contentsData := s.contentsData.modify index.toNat fun d =>
      { d with opener := some opener } }

/-! ### The order controller -/

def determineInsertionIndex (transition : PageTransition) (foreground : Bool) : ℤ :=
  if s.contentsData = [] then 0
  else if transition = .link ∧ s.activeIndex ≠ -1 then
    if foreground then s.activeIndex + 1
    else
      match s.getActiveWebContents with
      | none => s.activeIndex + 1
      | some opener =>
        let index := s.getIndexOfLastWebContentsOpenedBy opener s.activeIndex
        if index ≠ kNoTab then index + 1 else s.activeIndex + 1
  else s.count

def getValidIndex (index removingIndex : ℤ) : ℤ :=
  if removingIndex < index then max 0 (index - 1) else index

/-- The first tab that the removed one opened, then the next of the same opener, then the
opener, then the next tab. -/
def determineNewSelectedIndex (removingIndex : ℤ) : ℤ :=
  let parentOpener := s.getOpenerOfWebContentsAt removingIndex
  let openedBy (opener : Option WebContents) : ℤ := match opener with
    | none => kNoTab
    | some opener => s.getIndexOfNextWebContentsOpenedBy opener removingIndex false
  let parentIndex := match parentOpener with
    | none => kNoTab
    | some opener => s.getIndexOfWebContents opener
  let child := openedBy (s.getWebContentsAt removingIndex)
  if child ≠ kNoTab then getValidIndex child removingIndex
  else if openedBy parentOpener ≠ kNoTab then getValidIndex (openedBy parentOpener) removingIndex
  else if parentIndex ≠ kNoTab then getValidIndex parentIndex removingIndex
  else if s.activeIndex ≥ s.count - 1 then s.activeIndex - 1
  else s.activeIndex

/-- What the order controller does when it hears that another tab is active. -/
def activeTabChanged (oldContents newContents : Option WebContents) (index : ℤ)
    (userGesture : Bool) : TabStripModel :=
  let oldData := oldContents.bind fun contents => s.data? (s.getIndexOfWebContents contents)
  let oldOpener := oldData.bind WebContentsData.opener
  let s := match oldData with
    | none => s
    | some data => if data.resetGroupOnSelect then s.forgetGroup data.webContents else s
  let newOpener := s.getOpenerOfWebContentsAt index
  if userGesture ∧ newOpener ≠ oldOpener ∧
      ((oldContents = none ∧ newOpener = none) ∨ newOpener ≠ oldContents) ∧
      ((newContents = none ∧ oldOpener = none) ∨ oldOpener ≠ newContents) then
    s.forgetAllOpeners
  else s

/-! ### The selection -/

/-- The active index is checked. -/
def notifyIfActiveTabChanged (oldContents : Option WebContents) (userGesture : Bool) :
    Option TabStripModel :=
  match s.getWebContentsAt s.activeIndex with
  | none => none
  | some newContents =>
    if oldContents ≠ some newContents then
      some (s.activeTabChanged oldContents (some newContents) s.activeIndex userGesture)
    else some s

def setSelection (newModel : ListSelectionModel) (userGesture : Bool) : Option TabStripModel :=
  { s with selectionModel := newModel }.notifyIfActiveTabChanged s.getActiveWebContents userGesture

def activateTabAt (index : ℤ) (userGesture : Bool) : Option TabStripModel :=
  s.setSelection (.setSelectedIndex index) userGesture

def addTabAtToSelection (index : ℤ) : Option TabStripModel :=
  s.setSelection (s.selectionModel.addIndexToSelection index) false

def extendSelectionTo (index : ℤ) : Option TabStripModel :=
  s.setSelection (s.selectionModel.setSelectionFromAnchorTo index) false

def addSelectionFromAnchorTo (index : ℤ) : Option TabStripModel :=
  s.setSelection (s.selectionModel.addSelectionFromAnchorTo index) false

def toggleSelectionAt (index : ℤ) : Option TabStripModel :=
  let selection := s.selectionModel
  if selection.isSelected index then
    if selection.selectedIndices.length = 1 then some s
    else
      let removed := selection.removeIndexFromSelection index
      let active := if removed.active = index ∨ removed.active = kUnselectedIndex then
        removed.selectedIndices.headD 0 else removed.active
      s.setSelection { removed with anchor := index, active := active } false
  else
    s.setSelection
      { selection.addIndexToSelection index with anchor := index, active := index } false

/-! ### Tabs come, go and change -/

def insertWebContentsAt (index : ℤ) (contents : WebContents) (addTypes : AddTypes) :
    Option TabStripModel :=
  let pin := contents.isApp || addTypes.addPinned
  let index := s.constrainInsertionIndex index pin
  let activeContents := s.getActiveWebContents
  let inheritGroup : Bool := addTypes.addInheritGroup && activeContents.isSome
  let inheritOpener : Bool := inheritGroup || (addTypes.addInheritOpener && activeContents.isSome)
  let data : WebContentsData :=
    { webContents := contents
      group := if inheritGroup then activeContents else none
      opener := if inheritOpener then activeContents else none
      pinned := pin }
  let s := if inheritOpener && addTypes.addActive then s.forgetAllOpeners else s
  let s : TabStripModel :=
    { contentsData := s.contentsData.insertIdx index.toNat data
      selectionModel := s.selectionModel.incrementFrom index }
  if addTypes.addActive then s.setSelection (.setSelectedIndex index) false else some s

def addWebContents (contents : WebContents) (index : ℤ) (transition : PageTransition)
    (addTypes : AddTypes) : Option TabStripModel :=
  let linked : Bool := transition = .link ∧ ¬ addTypes.addForceIndex
  let index := if linked then s.determineInsertionIndex transition addTypes.addActive
    else if index < 0 ∨ index > s.count then s.count else index
  let inheritGroup : Bool := addTypes.addInheritGroup ∨ linked ∨
    (transition = .typed ∧ index = s.count)
  (s.insertWebContentsAt index contents { addTypes with addInheritGroup := inheritGroup }).map
    fun s =>
      if inheritGroup ∧ transition = .typed then
        { s with
          contentsData := s.contentsData.modify (s.getIndexOfWebContents contents).toNat
            (fun d => { d with resetGroupOnSelect := true }) }
      else s

def replaceWebContentsAt (index : ℤ) (newContents : WebContents) : TabStripModel :=
  match s.data? index with
  | none => s
  | some old =>
    let s := s.forgetOpenersAndGroupsReferencing old.webContents
    let s := { s with contentsData := s.contentsData.modify index.toNat fun d =>
      { d with webContents := newContents } }
    if s.activeIndex = index then
      s.activeTabChanged (some old.webContents) (some newContents) s.activeIndex false
    else s

def detachWebContentsAt (index : ℤ) : Option TabStripModel :=
  match s.data? index with
  | none => some s
  | some removed =>
    let nextSelectedIndex := s.determineNewSelectedIndex index
    let s := { s with contentsData := s.contentsData.eraseIdx index.toNat }
    let s := s.forgetOpenersAndGroupsReferencing removed.webContents
    if s.contentsData = [] then some { s with selectionModel := .clear }
    else
      let oldActive := s.activeIndex
      let selection := s.selectionModel.decrementFrom index
      if index = oldActive then
        let selection := match selection.selectedIndices with
          | first :: _ => { selection with active := first, anchor := first }
          | [] => .setSelectedIndex nextSelectedIndex
        { s with selectionModel := selection }.notifyIfActiveTabChanged
          (some removed.webContents) false
      else some { s with selectionModel := selection }

/-! ### Moves -/

/-- The question whether the tab is selected is asked of the index that stands for `true`. -/
def moveWebContentsAtImpl (index toPosition : ℤ) (selectAfterMove : Bool) : TabStripModel :=
  match s.data? index with
  | none => s
  | some moved =>
    let selection := s.selectionModel.move index toPosition
    let selection :=
      if ¬ selection.isSelected (if selectAfterMove then 1 else 0) ∧ selectAfterMove then
        .setSelectedIndex toPosition
      else selection
    let s : TabStripModel :=
      { contentsData := (s.contentsData.eraseIdx index.toNat).insertIdx toPosition.toNat moved
        selectionModel := selection }
    s.forgetOpenersAndGroupsReferencing moved.webContents

def moveWebContentsAt (index toPosition : ℤ) (selectAfterMove : Bool) : TabStripModel :=
  if index = toPosition then s
  else
    let firstNonMiniTab := s.indexOfFirstNonMiniTab
    if (index < firstNonMiniTab ∧ toPosition ≥ firstNonMiniTab) ∨
        (toPosition < firstNonMiniTab ∧ index ≥ firstNonMiniTab) then s
    else s.moveWebContentsAtImpl index toPosition selectAfterMove

def setTabPinned (index : ℤ) (pinned : Bool) : TabStripModel :=
  let setPinned (s : TabStripModel) : TabStripModel :=
    { s with contentsData := s.contentsData.modify index.toNat fun d =>
        { d with pinned := pinned } }
  if s.isTabPinned index = pinned then s
  else if s.isAppTab index then
    if ¬ pinned then s else setPinned s
  else
    let nonMiniTabIndex := s.indexOfFirstNonMiniTab
    let s := setPinned s
    if pinned ∧ index ≠ nonMiniTabIndex then s.moveWebContentsAtImpl index nonMiniTabIndex false
    else if ¬ pinned ∧ index + 1 ≠ nonMiniTabIndex then
      s.moveWebContentsAtImpl index (nonMiniTabIndex - 1) false
    else s

/-- The selected index at a place of the selection. -/
def selectedIndex (place : ℕ) : ℤ := s.selectionModel.selectedIndices.getD place 0

/-- How many of the selected tabs stand before the index once it counts them too. -/
def countBeforeIndex (index : ℤ) : List ℤ → ℤ → ℤ
  | [], countBefore => countBefore
  | selected :: rest, countBefore =>
    if selected < index + countBefore then countBeforeIndex index rest (countBefore + 1)
    else countBefore

/-- The loop over the tabs before the index, which always moves the first of them; the result
says how many are left. -/
def moveBefore (index targetIndex : ℤ) (start : ℕ) : ℕ → TabStripModel → TabStripModel × ℕ
  | 0, s => (s, 0)
  | remaining + 1, s =>
    if s.selectedIndex start < index then
      moveBefore index targetIndex start remaining
        (s.moveWebContentsAt (s.selectedIndex start) (targetIndex - 1) false)
    else (s, remaining + 1)

/-- The loop over the tabs behind the index. -/
def moveAfter (stop : ℕ) : ℕ → ℤ → TabStripModel → TabStripModel
  | 0, _, s => s
  | remaining + 1, targetIndex, s =>
    let index := s.selectedIndex (stop - (remaining + 1))
    moveAfter stop remaining (targetIndex + 1)
      (if index ≠ targetIndex then s.moveWebContentsAt index targetIndex false else s)

def moveSelectedTabsToImpl (index : ℤ) (start length : ℕ) : TabStripModel :=
  let countBefore :=
    countBeforeIndex index ((s.selectionModel.selectedIndices.drop start).take length) 0
  let targetIndex := index + countBefore
  let moved := moveBefore index targetIndex start length s
  moveAfter (start + length) moved.2 targetIndex moved.1

def moveSelectedTabsTo (index : ℤ) : TabStripModel :=
  let totalMiniCount := s.indexOfFirstNonMiniTab
  let selectedCount := s.selectionModel.selectedIndices.length
  let selectedMiniCount := (s.selectionModel.selectedIndices.takeWhile s.isMiniTab).length
  let room := totalMiniCount - selectedMiniCount
  let moved := if selectedMiniCount > 0 then
    s.moveSelectedTabsToImpl (min room index) 0 selectedMiniCount else s
  let index := if selectedMiniCount > 0 ∧ index > room then index + selectedMiniCount else index
  if selectedMiniCount = selectedCount then moved
  else moved.moveSelectedTabsToImpl (max index totalMiniCount) selectedMiniCount
    (selectedCount - selectedMiniCount)

/-! ### Runs -/

/-- The calls that change a strip. -/
inductive Op
  | addWebContents (contents : WebContents) (index : ℤ) (transition : PageTransition)
      (addTypes : AddTypes)
  | insertWebContentsAt (index : ℤ) (contents : WebContents) (addTypes : AddTypes)
  | replaceWebContentsAt (index : ℤ) (newContents : WebContents)
  | detachWebContentsAt (index : ℤ)
  | activateTabAt (index : ℤ) (userGesture : Bool)
  | addTabAtToSelection (index : ℤ)
  | extendSelectionTo (index : ℤ)
  | addSelectionFromAnchorTo (index : ℤ)
  | toggleSelectionAt (index : ℤ)
  | setSelectionFromModel (source : ListSelectionModel)
  | moveWebContentsAt (index toPosition : ℤ) (selectAfterMove : Bool)
  | moveSelectedTabsTo (index : ℤ)
  | setTabPinned (index : ℤ) (pinned : Bool)
  | setOpenerOfWebContentsAt (index : ℤ) (opener : WebContents)
  | forgetAllOpeners
  | forgetGroup (contents : WebContents)

/-- What callers keep to: indices are in the strip, contents are new to it, a selection fits, and
only a mini-tab is replaced by an application. -/
def Op.Allowed : Op → Prop
  | addWebContents contents _ _ _ | insertWebContentsAt _ contents _ =>
    ∀ d ∈ s.contentsData, d.webContents ≠ contents
  | replaceWebContentsAt index newContents =>
    (∀ d ∈ s.contentsData, d.webContents ≠ newContents) ∧
      (newContents.isApp → s.isMiniTab index)
  | setSelectionFromModel source => source.Valid s.contentsData.length
  | moveWebContentsAt index toPosition _ => s.containsIndex index ∧ s.containsIndex toPosition
  | moveSelectedTabsTo index =>
    0 ≤ index ∧ index ≤ s.count - s.selectionModel.selectedIndices.length
  | detachWebContentsAt _ | forgetAllOpeners | forgetGroup _ => True
  | activateTabAt index _ | addTabAtToSelection index | extendSelectionTo index
  | addSelectionFromAnchorTo index | toggleSelectionAt index | setTabPinned index _
  | setOpenerOfWebContentsAt index _ => s.containsIndex index

def Op.apply : Op → Option TabStripModel
  | addWebContents contents index transition addTypes =>
    s.addWebContents contents index transition addTypes
  | insertWebContentsAt index contents addTypes => s.insertWebContentsAt index contents addTypes
  | replaceWebContentsAt index newContents => some (s.replaceWebContentsAt index newContents)
  | detachWebContentsAt index => s.detachWebContentsAt index
  | activateTabAt index userGesture => s.activateTabAt index userGesture
  | addTabAtToSelection index => s.addTabAtToSelection index
  | extendSelectionTo index => s.extendSelectionTo index
  | addSelectionFromAnchorTo index => s.addSelectionFromAnchorTo index
  | toggleSelectionAt index => s.toggleSelectionAt index
  | setSelectionFromModel source => s.setSelection source false
  | moveWebContentsAt index toPosition selectAfterMove =>
    some (s.moveWebContentsAt index toPosition selectAfterMove)
  | moveSelectedTabsTo index => some (s.moveSelectedTabsTo index)
  | setTabPinned index pinned => some (s.setTabPinned index pinned)
  | setOpenerOfWebContentsAt index opener => some (s.setOpenerOfWebContentsAt index opener)
  | forgetAllOpeners => some s.forgetAllOpeners
  | forgetGroup contents => some (s.forgetGroup contents)

def Step (s : TabStripModel) (op : Op) (t : TabStripModel) : Prop :=
  op.Allowed s ∧ op.apply s = some t

/-- A strip that calls lead to. -/
def Reachable (s : TabStripModel) : Prop := ∃ ops, Runs.Reaches Step {} ops s

instance : (op : Op) → Decidable (op.Allowed s)
  | .addWebContents contents _ _ _ | .insertWebContentsAt _ contents _ =>
    inferInstanceAs (Decidable (∀ d ∈ s.contentsData, d.webContents ≠ contents))
  | .replaceWebContentsAt index newContents =>
    inferInstanceAs (Decidable ((∀ d ∈ s.contentsData, d.webContents ≠ newContents) ∧
      (newContents.isApp → s.isMiniTab index)))
  | .setSelectionFromModel source =>
    inferInstanceAs (Decidable (source.Valid s.contentsData.length))
  | .moveWebContentsAt index toPosition _ =>
    inferInstanceAs (Decidable (s.containsIndex index ∧ s.containsIndex toPosition))
  | .moveSelectedTabsTo index =>
    inferInstanceAs (Decidable (0 ≤ index ∧
      index ≤ s.count - s.selectionModel.selectedIndices.length))
  | .detachWebContentsAt _ | .forgetAllOpeners | .forgetGroup _ => inferInstanceAs (Decidable True)
  | .activateTabAt index _ | .addTabAtToSelection index | .extendSelectionTo index
  | .addSelectionFromAnchorTo index | .toggleSelectionAt index | .setTabPinned index _
  | .setOpenerOfWebContentsAt index _ => inferInstanceAs (Decidable (s.containsIndex index = true))

/-- The strip after some calls, if they are allowed and no check fails. -/
def run (ops : List Op) : Option TabStripModel :=
  ops.foldlM (fun s op => if op.Allowed s then op.apply s else none) {}

lemma reachable_of_run {s : TabStripModel} {ops : List Op} (h : run ops = some s) :
    s.Reachable := by
  refine ⟨ops, .of_foldlM (fun s op t happly => ?_) h⟩
  split_ifs at happly with hallowed
  exact ⟨hallowed, happly⟩

end TabStripModel

end Chromium.TabStrip
