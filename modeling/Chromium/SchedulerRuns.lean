import Chromium.Runs
import Chromium.SchedulerStateMachine

/-!
# Runs of the compositor scheduler

The states of the commit, the readback, the forced draw, the trees and the output surface are
tied together by an invariant of all runs. Each action of the scheduler uses something up, so
that it always comes to a state where there is nothing to do.
-/
namespace Chromium.Scheduler

open Runs

/-- How the parts of the state belong together. -/
structure Consistent (s : State) : Prop where
  pendingTree : s.hasPendingTree = true → s.commitState = .waitingForFirstDraw
  activeTree : s.activeTreeNeedsFirstDraw = true → s.commitState = .waitingForFirstDraw
  firstDraw : s.commitState = .waitingForFirstDraw →
    s.hasPendingTree = true ∨ s.activeTreeNeedsFirstDraw = true
  forcedActivation : s.forcedRedrawState = .waitingForActivation → s.hasPendingTree = true
  forcedDraw : s.forcedRedrawState = .waitingForDraw →
    s.activeTreeNeedsFirstDraw = true ∧ s.hasPendingTree = false
  readbackBegin : s.readbackState = .needsBeginMainFrame →
    s.commitState = .idle ∨ s.commitState = .waitingForFirstDraw
  readbackCommit : s.readbackState = .waitingForCommit →
    s.commitState = .frameInProgress ∨ s.commitState = .readyToCommit
  readbackReplacement : s.readbackState = .waitingForReplacementCommit →
    s.commitState ≠ .waitingForFirstDraw
  readbackActivation : s.readbackState = .waitingForActivation → s.hasPendingTree = true
  replacementActivation : s.readbackState = .waitingForReplacementActivation →
    s.hasPendingTree = true
  readbackDraw : s.readbackState = .waitingForDrawAndReadback →
    s.activeTreeNeedsFirstDraw = true ∧ s.hasPendingTree = false
  oneActivation : s.forcedRedrawState = .waitingForActivation →
    s.readbackState ≠ .waitingForActivation
  oneDraw : s.forcedRedrawState = .waitingForDraw → s.readbackState ≠ .waitingForDrawAndReadback
  outputSurface : s.outputSurfaceState = .waitingForFirstActivation → s.hasPendingTree = true
  textures : s.mainThreadNeedsLayerTextures = true → s.textureState ≠ .acquiredByMainThread

lemma consistent_initial : Consistent initial := by
  constructor <;> decide

namespace Consistent
variable {settings : SchedulerSettings} {s s' : State}

/-- There is no tree that waits for something while the main thread prepares a commit. -/
lemma no_tree (h : Consistent s) (hcommit : s.commitState ≠ .waitingForFirstDraw) :
    s.hasPendingTree = false ∧ s.activeTreeNeedsFirstDraw = false := by
  constructor
  · exact Bool.eq_false_iff.mpr fun heq => hcommit (h.pendingTree heq)
  · exact Bool.eq_false_iff.mpr fun heq => hcommit (h.activeTree heq)

/-- The states of the readback in which there can be a commit. -/
lemma readback_cases (h : Consistent s)
    (hcommit : s.commitState = .frameInProgress ∨ s.commitState = .readyToCommit) :
    s.readbackState = .idle ∨ s.readbackState = .waitingForCommit ∨
      s.readbackState = .waitingForReplacementCommit := by
  have hnot : s.commitState ≠ .waitingForFirstDraw := by
    rcases hcommit with heq | heq <;> simp [heq]
  obtain ⟨hpending, hactive⟩ := h.no_tree hnot
  cases hreadback : s.readbackState with
  | idle => simp
  | needsBeginMainFrame =>
    rcases hcommit with heq | heq <;> simpa [heq] using h.readbackBegin hreadback
  | waitingForCommit => simp
  | waitingForActivation => simpa [hpending] using h.readbackActivation hreadback
  | waitingForDrawAndReadback => simpa [hactive] using h.readbackDraw hreadback
  | waitingForReplacementCommit => simp
  | waitingForReplacementActivation => simpa [hpending] using h.replacementActivation hreadback

/-- The states of the forced draw in which there can be a commit. -/
lemma forced_cases (h : Consistent s) (hcommit : s.commitState ≠ .waitingForFirstDraw) :
    s.forcedRedrawState = .idle ∨ s.forcedRedrawState = .waitingForCommit := by
  obtain ⟨hpending, hactive⟩ := h.no_tree hcommit
  cases hforced : s.forcedRedrawState with
  | idle => simp
  | waitingForCommit => simp
  | waitingForActivation => simpa [hpending] using h.forcedActivation hforced
  | waitingForDraw => simpa [hactive] using h.forcedDraw hforced

end Consistent

/-! ### Commits -/

/-- What a commit does, of which there is a pending tree or not. -/
structure Commits (aborted pending : Bool) (s s' : State) : Prop where
  pendingTree : s'.hasPendingTree = pending
  readback : State.readbackOnCommit pending s.readbackState = some s'.readbackState
  forced : s'.forcedRedrawState =
    if (s'.readbackState = .idle ∨ s'.readbackState = .waitingForReplacementActivation) ∧
      s.forcedRedrawState = .waitingForCommit
    then if pending then .waitingForActivation else .waitingForDraw
    else s.forcedRedrawState
  outputSurface : s'.outputSurfaceState = .waitingForFirstActivation → pending = true
  commitState : s'.commitState =
    if aborted = false ∨ s'.readbackState ≠ .idle ∨ s'.forcedRedrawState ≠ .idle
    then .waitingForFirstDraw else .idle
  activeTree : s'.activeTreeNeedsFirstDraw =
    if pending = false ∧ (aborted = false ∨ s'.readbackState = .waitingForDrawAndReadback ∨
      s'.forcedRedrawState = .waitingForDraw)
    then true else s.activeTreeNeedsFirstDraw
  textures : s'.textureState ≠ .acquiredByMainThread
  unchanged : s'.mainThreadNeedsLayerTextures = s.mainThreadNeedsLayerTextures ∧
    s'.hasUpdatedVisibleTilesThisFrame = s.hasUpdatedVisibleTilesThisFrame ∧
    s'.needsManageTiles = s.needsManageTiles ∧ s'.needsCommit = s.needsCommit
  lost : s'.outputSurfaceState = .lost → s.outputSurfaceState = .lost

section Commit
variable {settings : SchedulerSettings} {s s' : State} {aborted : Bool}

/-- The forced draw after a commit. -/
def forcedOnCommit (s : State) : ForcedRedrawOnTimeoutState :=
  if (s.readbackState = .idle ∨ s.readbackState = .waitingForReplacementActivation) ∧
      s.forcedRedrawState = .waitingForCommit
    then if s.hasPendingTree then .waitingForActivation else .waitingForDraw
    else s.forcedRedrawState

lemma advanceOnCommit_eq (h : s.outputSurfaceState ≠ .waitingForFirstActivation) :
    ∃ t surface redraw, s.advanceOnCommit = some t ∧
      (surface = .waitingForFirstActivation → s.hasPendingTree = true) ∧
      (surface = .lost → s.outputSurfaceState = .lost) ∧ t = { s with
        forcedRedrawState := forcedOnCommit s
        outputSurfaceState := surface
        needsRedraw := redraw } := by
  unfold State.advanceOnCommit forcedOnCommit dcheck
  by_cases hreadback : s.readbackState = .idle ∨
      s.readbackState = .waitingForReplacementActivation
  · simp only [if_pos h, hreadback, true_and]
    split_ifs <;> refine ⟨_, _, _, rfl, fun heq => ?_, fun heq => ?_, rfl⟩ <;> simp_all
  · simp only [hreadback, false_and, if_false]
    exact ⟨_, s.outputSurfaceState, s.needsRedraw, rfl, fun heq => absurd heq h, id, rfl⟩

lemma commitStateOnCommit_eq (h : aborted = false → s.commitState = .readyToCommit) :
    ∃ t, s.commitStateOnCommit aborted = some t ∧ t = { s with commitState :=
      if aborted = false ∨ s.readbackState ≠ .idle ∨ s.forcedRedrawState ≠ .idle
      then .waitingForFirstDraw else .idle } := by
  refine ⟨_, ?_, rfl⟩
  unfold State.commitStateOnCommit dcheck
  cases aborted with
  | false => simp [h rfl]
  | true => 
    simp only [Bool.not_true, Bool.false_eq_true, if_false, Bool.true_eq_false, false_or]
    split_ifs <;> rfl

lemma afterCommit_textures (s : State) : s.afterCommit.textureState ≠ .acquiredByMainThread := by
  unfold State.afterCommit
  dsimp only
  split_ifs <;> decide

lemma activeTreeOnCommit_eq (s : State) : ∃ redraw, s.activeTreeOnCommit aborted = { s with
    needsRedraw := redraw
    activeTreeNeedsFirstDraw :=
      if s.hasPendingTree = false ∧ (aborted = false ∨
        s.readbackState = .waitingForDrawAndReadback ∨ s.forcedRedrawState = .waitingForDraw)
      then true else s.activeTreeNeedsFirstDraw } := by
  unfold State.activeTreeOnCommit
  simp only [Bool.not_eq_true']
  split_ifs
  · exact ⟨true, rfl⟩
  · exact ⟨s.needsRedraw, rfl⟩

/-- A commit passes its checks when it belongs to the readback, and the output surface does not
wait for a tree. -/
lemma updateStateOnCommit_spec {readback : SynchronousReadbackState}
    (hreadback : State.readbackOnCommit (settings.implSidePainting && !aborted)
      s.readbackState = some readback)
    (hsurface : s.outputSurfaceState ≠ .waitingForFirstActivation)
    (hcommit : aborted = false → s.commitState = .readyToCommit) :
    ∃ s', s.updateStateOnCommit settings aborted = some s' ∧
      Commits aborted (settings.implSidePainting && !aborted) s s' := by
  generalize hpending : (settings.implSidePainting && !aborted) = pending at hreadback ⊢
  generalize hbegin : { s with
    commitCount := s.commitCount + 1
    hasPendingTree := pending
    readbackState := readback } = t
  have hsurface' : t.outputSurfaceState ≠ .waitingForFirstActivation := by
    rw [← hbegin]
    exact hsurface
  obtain ⟨u, surface, redraw, hadvance, hwait, hlost, hadvanced⟩ := advanceOnCommit_eq hsurface'
  have hcommit' : aborted = false → u.commitState = .readyToCommit := by
    rw [hadvanced, ← hbegin]
    exact hcommit
  obtain ⟨v, hstate, hcommitted⟩ := commitStateOnCommit_eq hcommit'
  obtain ⟨again, hactive⟩ : ∃ redraw, v.activeTreeOnCommit aborted = _ := activeTreeOnCommit_eq v
  refine ⟨(v.activeTreeOnCommit aborted).afterCommit, ?_, ?_⟩
  · unfold State.updateStateOnCommit
    rw [hpending]
    simp only [hreadback, Option.bind_eq_bind, Option.bind_some, hbegin, hadvance, hstate]
    rfl
  · subst hbegin hadvanced hcommitted
    refine ⟨?_, ?_, ?_, ?_, ?_, ?_, afterCommit_textures _, ?_, ?_⟩
    all_goals rw [hactive]
    · rfl
    · exact hreadback
    · rfl
    · exact hwait
    · rfl
    · rfl
    · exact ⟨rfl, rfl, rfl, rfl⟩
    · exact hlost

lemma Commits.consistent {pending : Bool} (h : Commits aborted pending s s')
    (hreadback : s.readbackState = .idle ∨ s.readbackState = .waitingForCommit ∨
      s.readbackState = .waitingForReplacementCommit)
    (hforced : s.forcedRedrawState = .idle ∨ s.forcedRedrawState = .waitingForCommit)
    (hactive : s.activeTreeNeedsFirstDraw = false) (hpending : aborted = true → pending = false) :
    Consistent s' := by
  obtain ⟨htree, hback, hforce, hsurface, hcommit, hdraw, htextures, -, -⟩ := h
  rw [eq_comm] at hback
  -- the readback and the forced draw each move on or stay, with a pending tree or without
  cases aborted <;> cases pending <;> simp at hpending <;>
    rcases hreadback with hr | hr | hr <;> rcases hforced with hf | hf <;>
    simp [hr, State.readbackOnCommit] at hback <;> simp [hback, hf] at hforce <;>
    simp [hback, hforce] at hcommit <;> simp [hback, hforce, hactive] at hdraw <;>
    constructor <;> simp_all

/-- A commit of a consistent state passes its checks, and the state stays consistent. -/
lemma Consistent.updateStateOnCommit (h : Consistent s)
    (hcommit : s.commitState = if aborted then .frameInProgress else .readyToCommit) :
    ∃ s', s.updateStateOnCommit settings aborted = some s' ∧
      Commits aborted (settings.implSidePainting && !aborted) s s' ∧ Consistent s' := by
  have hstate : s.commitState = .frameInProgress ∨ s.commitState = .readyToCommit := by
    cases aborted
    · exact Or.inr hcommit
    · exact Or.inl hcommit
  have hnot : s.commitState ≠ .waitingForFirstDraw := by
    rcases hstate with heq | heq <;> simp [heq]
  have hready : aborted = false → s.commitState = .readyToCommit := by
    rintro rfl
    exact hcommit
  obtain ⟨htree, hactive⟩ := h.no_tree hnot
  have hsurface : s.outputSurfaceState ≠ .waitingForFirstActivation := by
    intro heq
    simp [h.outputSurface heq] at htree
  have hreadback := h.readback_cases hstate
  have hforced := h.forced_cases hnot
  have hpending : aborted = true → (settings.implSidePainting && !aborted) = false := by
    rintro rfl
    simp
  obtain ⟨readback, hnew⟩ : ∃ readback, State.readbackOnCommit
      (settings.implSidePainting && !aborted) s.readbackState = some readback := by
    rcases hreadback with heq | heq | heq <;> rw [heq] <;> exact ⟨_, rfl⟩
  obtain ⟨s', hs', hcommits⟩ := updateStateOnCommit_spec hnew hsurface hready
  exact ⟨s', hs', hcommits, hcommits.consistent hreadback hforced hactive hpending⟩

end Commit

/-! ### Activations and draws -/

section Draw
variable {s s' : State}

lemma Consistent.updateStateOnActivation (h : Consistent s) (htree : s.hasPendingTree = true) :
    Consistent s.updateStateOnActivation := by
  have hcommit := h.pendingTree htree
  obtain ⟨-, -, -, -, hforced, hbegin, hback, hreplacement, -, -, hdraw, hone, -, -, htextures⟩ := h
  unfold State.updateStateOnActivation
  constructor <;> dsimp only
  · simp
  · exact fun _ => hcommit
  · simp
  · split_ifs <;> simp_all
  · simp
  · exact fun _ => Or.inr hcommit
  · split_ifs <;> simp_all
  · split_ifs <;> simp_all
  · split_ifs <;> simp_all
  · split_ifs <;> simp_all
  · simp
  · split_ifs <;> simp_all
  · split_ifs <;> simp_all
  · split_ifs <;> simp_all
  · exact htextures

/-- A draw is for a readback, for a forced draw, for the commit, or for none of them. -/
lemma Consistent.releaseOnDraw (h : Consistent s) : ∃ t, s.releaseOnDraw = some t ∧
    ((s.readbackState = .waitingForDrawAndReadback ∧ t = { s with
      commitState := .frameInProgress
      readbackState := .waitingForReplacementCommit }) ∨
    (s.readbackState ≠ .waitingForDrawAndReadback ∧ s.forcedRedrawState = .waitingForDraw ∧
      t = { s with commitState := .idle, forcedRedrawState := .idle }) ∨
    (s.readbackState ≠ .waitingForDrawAndReadback ∧ s.forcedRedrawState ≠ .waitingForDraw ∧
      s.hasPendingTree = false ∧ s.commitState = .waitingForFirstDraw ∧
      t = { s with commitState := .idle }) ∨
    (s.readbackState ≠ .waitingForDrawAndReadback ∧ s.forcedRedrawState ≠ .waitingForDraw ∧
      (s.commitState = .waitingForFirstDraw → s.hasPendingTree = true) ∧ t = s)) := by
  unfold State.releaseOnDraw dcheck
  by_cases hreadback : s.readbackState = .waitingForDrawAndReadback
  · obtain ⟨hactive, htree⟩ := h.readbackDraw hreadback
    rw [if_pos hreadback, if_pos ⟨h.activeTree hactive, by simp [htree]⟩]
    exact ⟨_, rfl, Or.inl ⟨hreadback, rfl⟩⟩
  rw [if_neg hreadback]
  by_cases hforced : s.forcedRedrawState = .waitingForDraw
  · obtain ⟨hactive, htree⟩ := h.forcedDraw hforced
    rw [if_pos hforced, if_pos (h.activeTree hactive)]
    exact ⟨_, rfl, Or.inr (Or.inl ⟨hreadback, hforced, rfl⟩)⟩
  rw [if_neg hforced]
  split_ifs with hcommit
  · obtain ⟨hcommit, htree⟩ := hcommit
    refine ⟨_, rfl, Or.inr (Or.inr (Or.inl ⟨hreadback, hforced, ?_, hcommit, rfl⟩))⟩
    simpa using htree
  · refine ⟨_, rfl, Or.inr (Or.inr (Or.inr ⟨hreadback, hforced, fun heq => ?_, rfl⟩))⟩
    by_contra htree
    exact hcommit ⟨heq, by simpa using htree⟩

/-- What a draw does: the active tree is drawn, and who waited for that goes on. -/
structure Draws (s s' : State) : Prop where
  activeTree : s'.activeTreeNeedsFirstDraw = false
  redraw : s'.needsRedraw = false
  pendingTree : s'.hasPendingTree = s.hasPendingTree
  waiting : s'.readbackState ≠ .waitingForDrawAndReadback
  forced : s'.forcedRedrawState ≠ .waitingForDraw
  ready : s'.commitState = .readyToCommit → s.commitState = .readyToCommit
  outputSurface : s'.outputSurfaceState = s.outputSurfaceState
  unchanged : s'.mainThreadNeedsLayerTextures = s.mainThreadNeedsLayerTextures ∧
    s'.hasUpdatedVisibleTilesThisFrame = s.hasUpdatedVisibleTilesThisFrame ∧
    s'.needsManageTiles = s.needsManageTiles ∧ s'.needsCommit = s.needsCommit

/-- A draw of a consistent state passes its checks, and the state stays consistent. -/
lemma Consistent.updateStateOnDraw (h : Consistent s) (didSwap : Bool)
    (hreadback : s.readbackState ≠ .waitingForReplacementCommit ∧
      s.readbackState ≠ .waitingForReplacementActivation) :
    ∃ s', s.updateStateOnDraw didSwap = some s' ∧ Draws s s' ∧ Consistent s' := by
  obtain ⟨t, ht, hcases⟩ := h.releaseOnDraw
  refine ⟨t.afterDraw didSwap, ?_, ?_, ?_⟩
  · unfold State.updateStateOnDraw dcheck
    rw [if_pos hreadback, ht, Option.map_some]
  · rcases hcases with ⟨hr, rfl⟩ | ⟨hr, hf, rfl⟩ | ⟨hr, hf, htree, hc, rfl⟩ | ⟨hr, hf, htree, rfl⟩
    · refine ⟨rfl, rfl, rfl, by simp [State.afterDraw], ?_, by simp [State.afterDraw],
        rfl, rfl, rfl, rfl, rfl⟩
      exact fun hforced => h.oneDraw hforced hr
    · exact ⟨rfl, rfl, rfl, hr, by simp [State.afterDraw], by simp [State.afterDraw],
        rfl, rfl, rfl, rfl, rfl⟩
    · exact ⟨rfl, rfl, rfl, hr, hf, by simp [State.afterDraw], rfl, rfl, rfl, rfl, rfl⟩
    · exact ⟨rfl, rfl, rfl, hr, hf, id, rfl, rfl, rfl, rfl, rfl⟩
  · have htextures : s.mainThreadNeedsLayerTextures = true →
        (if s.textureState = .acquiredByImplThread then TextureState.unlocked
          else s.textureState) ≠ .acquiredByMainThread := by
      intro hneeds
      split_ifs
      · decide
      · exact h.textures hneeds
    obtain ⟨h1, h2, h3, h4, h5, h6, h7, h8, h9, h10, h11, h12, h13, h14, -⟩ := h
    rcases hcases with ⟨hr, rfl⟩ | ⟨hr, hf, rfl⟩ | ⟨hr, hf, htree, hc, rfl⟩ |
      ⟨hr, hf, htree, rfl⟩ <;>
      constructor <;> simp_all [State.afterDraw]

end Draw

/-! ### Actions -/

/-- The condition under which an action is chosen. -/
def Action.guard (settings : SchedulerSettings) (s : State) : Action → Bool
  | .none => true
  | .sendBeginMainFrame => s.shouldSendBeginMainFrame settings
  | .commit => s.shouldCommit
  | .updateVisibleTiles => s.shouldUpdateVisibleTiles settings
  | .activatePendingTree => s.shouldActivatePendingTree
  | .drawAndSwapIfPossible => s.shouldDraw
  | .drawAndSwapForced => s.shouldDraw
  | .drawAndSwapAbort => s.shouldDraw
  | .drawAndReadback => s.shouldDraw
  | .beginOutputSurfaceCreation => s.shouldBeginOutputSurfaceCreation
  | .acquireLayerTexturesForMainThread => s.shouldAcquireLayerTexturesForMainThread
  | .manageTiles => s.shouldManageTiles

/-- What actions use up. A commit leads to an activation, and both lead to a draw. -/
def budget (s : State) : ℕ :=
  10 * (decide (s.commitState = .readyToCommit)).toNat + 5 * s.hasPendingTree.toNat +
    s.needsRedraw.toNat + s.activeTreeNeedsFirstDraw.toNat +
    (decide (s.forcedRedrawState = .waitingForDraw)).toNat +
    (decide (s.readbackState = .waitingForDrawAndReadback)).toNat +
    s.mainThreadNeedsLayerTextures.toNat + (!s.hasUpdatedVisibleTilesThisFrame).toNat +
    s.needsManageTiles.toNat + s.needsCommit.toNat +
    (decide (s.outputSurfaceState = .lost)).toNat

section Actions
variable {settings : SchedulerSettings} {s s' : State}

lemma guard_nextAction (settings : SchedulerSettings) (s : State) :
    (s.nextAction settings).guard settings s = true := by
  unfold State.nextAction
  split_ifs with h1 h2 h3 h4 h5 h6 h7 h8
  · exact h1
  · exact h2
  · exact h3
  · exact h4
  · unfold State.drawAction
    split_ifs <;> exact h5
  · exact h6
  · exact h7
  · exact h8
  · rfl

lemma shouldSendBeginMainFrame_spec (h : s.shouldSendBeginMainFrame settings = true) :
    s.needsCommit = true ∧ s.commitState = .idle ∧ s.hasPendingTree = false ∧
      (s.visible = true ∨ s.readbackState = .needsBeginMainFrame) := by
  unfold State.shouldSendBeginMainFrame at h
  split at h
  · cases h
  split at h
  · cases h
  split at h
  · cases h
  rename_i hneeds hcommit htree
  refine ⟨by simpa using hneeds, not_not.mp hcommit, by simpa using htree, ?_⟩
  split at h
  · exact Or.inr (by assumption)
  split at h
  · cases h
  · exact Or.inl (by simp_all)

lemma shouldActivatePendingTree_spec (h : s.shouldActivatePendingTree = true) :
    s.hasPendingTree = true ∧ s.activeTreeNeedsFirstDraw = false := by
  unfold State.shouldActivatePendingTree at h
  split_ifs at h
  · simp_all
  · simp_all

lemma shouldDraw_spec (h : s.shouldDraw = true) :
    (s.readbackState ≠ .waitingForReplacementCommit ∧
      s.readbackState ≠ .waitingForReplacementActivation) ∧
    (s.readbackState = .waitingForDrawAndReadback ∨ s.activeTreeNeedsFirstDraw = true ∨
      s.forcedRedrawState = .waitingForDraw ∨ s.needsRedraw = true) := by
  unfold State.shouldDraw at h
  split_ifs at h <;> simp_all

lemma shouldBeginOutputSurfaceCreation_spec (h : s.shouldBeginOutputSurfaceCreation = true) :
    s.commitState = .idle ∧ s.activeTreeNeedsFirstDraw = false ∧ s.hasPendingTree = false ∧
      s.outputSurfaceState = .lost := by
  unfold State.shouldBeginOutputSurfaceCreation at h
  split_ifs at h
  simp_all

lemma shouldAcquireLayerTextures_spec (h : s.shouldAcquireLayerTexturesForMainThread = true) :
    s.mainThreadNeedsLayerTextures = true := by
  unfold State.shouldAcquireLayerTexturesForMainThread at h
  split_ifs at h
  simp_all

lemma shouldUpdateVisibleTiles_spec (h : s.shouldUpdateVisibleTiles settings = true) :
    s.hasUpdatedVisibleTilesThisFrame = false := by
  unfold State.shouldUpdateVisibleTiles at h
  split_ifs at h
  simp_all

lemma shouldManageTiles_spec (h : s.shouldManageTiles = true) : s.needsManageTiles = true := by
  unfold State.shouldManageTiles at h
  split_ifs at h
  exact h

lemma Consistent.sendBeginMainFrame (h : Consistent s)
    (hsend : s.shouldSendBeginMainFrame settings = true) :
    ∃ s', s.sendBeginMainFrame = some s' ∧ Consistent s' ∧ budget s' < budget s := by
  obtain ⟨hneeds, hcommit, htree, hvisible⟩ := shouldSendBeginMainFrame_spec hsend
  have hactive := (h.no_tree (by simp [hcommit])).2
  have hforced := h.forced_cases (by simp [hcommit])
  refine ⟨{ s with
    commitState := .frameInProgress
    needsCommit := false
    readbackState := if s.readbackState = .needsBeginMainFrame then .waitingForCommit
      else s.readbackState
    lastFrameNumberBeginMainFrameSent := s.currentFrameNumber }, ?_, ?_, ?_⟩
  · unfold State.sendBeginMainFrame dcheck
    rw [if_pos (by simp [htree]), if_pos hvisible]
  · obtain ⟨-, -, -, h4, h5, h6, h7, h8, h9, h10, h11, h12, h13, h14, h15⟩ := h
    by_cases hreadback : s.readbackState = .needsBeginMainFrame <;>
      constructor <;> simp_all
  · by_cases hreadback : s.readbackState = .needsBeginMainFrame <;>
      simp [budget, State.hasUpdatedVisibleTilesThisFrame, hneeds, hcommit, hreadback]

lemma Consistent.beginOutputSurfaceCreation (h : Consistent s)
    (hbegin : s.shouldBeginOutputSurfaceCreation = true) :
    ∃ s', s.beginOutputSurfaceCreation = some s' ∧ Consistent s' ∧ budget s' < budget s := by
  obtain ⟨hcommit, hactive, htree, hlost⟩ := shouldBeginOutputSurfaceCreation_spec hbegin
  refine ⟨{ s with outputSurfaceState := .creating }, ?_, ?_, ?_⟩
  · unfold State.beginOutputSurfaceCreation dcheck
    rw [if_pos hlost, if_pos hcommit, if_pos (by simp [htree]), if_pos (by simp [hactive])]
  · exact { h with outputSurface := by simp }
  · simp [budget, State.hasUpdatedVisibleTilesThisFrame, hlost]

lemma toNat_decide_le {p q : Prop} [Decidable p] [Decidable q] (h : p → q) :
    (decide p).toNat ≤ (decide q).toNat := by
  by_cases hp : p
  · simp [hp, h hp]
  · simp [hp]

lemma budget_activation (htree : s.hasPendingTree = true) :
    budget s.updateStateOnActivation < budget s := by
  have hforced := Bool.toNat_le
    (decide (s.updateStateOnActivation.forcedRedrawState = .waitingForDraw))
  have hreadback := Bool.toNat_le
    (decide (s.updateStateOnActivation.readbackState = .waitingForDrawAndReadback))
  have hlost : s.updateStateOnActivation.outputSurfaceState = .lost →
      s.outputSurfaceState = .lost := by
    unfold State.updateStateOnActivation
    dsimp only
    split_ifs
    · simp
    · exact id
  have hsurface := toNat_decide_le hlost
  have htiles : s.updateStateOnActivation.hasUpdatedVisibleTilesThisFrame =
    s.hasUpdatedVisibleTilesThisFrame := rfl
  have hcommit : s.updateStateOnActivation.commitState = s.commitState := rfl
  unfold budget
  rw [htiles, hcommit]
  simp only [State.updateStateOnActivation, htree, Bool.toNat_true, Bool.toNat_false] at *
  omega

lemma Draws.budget (h : Draws s s') (hdraw : s.shouldDraw = true) :
    Scheduler.budget s' < Scheduler.budget s := by
  have hready := toNat_decide_le h.ready
  obtain ⟨hneeds, htiles, hmanage, hcommit⟩ := h.unchanged
  unfold Scheduler.budget
  rw [h.activeTree, h.redraw, h.pendingTree, h.outputSurface, hneeds, htiles, hmanage, hcommit,
    decide_eq_false h.waiting, decide_eq_false h.forced, Bool.toNat_false]
  rcases (shouldDraw_spec hdraw).2 with heq | heq | heq | heq
  · rw [decide_eq_true heq, Bool.toNat_true]
    omega
  · rw [heq, Bool.toNat_true]
    omega
  · rw [decide_eq_true heq, Bool.toNat_true]
    omega
  · rw [heq, Bool.toNat_true]
    omega

lemma Commits.budget {aborted pending : Bool} (h : Commits aborted pending s s')
    (hready : s.commitState = .readyToCommit) :
    Scheduler.budget s' < Scheduler.budget s := by
  have hstate : s'.commitState ≠ .readyToCommit := by
    rw [h.commitState]
    split_ifs <;> simp
  have hsurface := toNat_decide_le h.lost
  have htree := Bool.toNat_le s'.hasPendingTree
  have hredraw := Bool.toNat_le s'.needsRedraw
  have hactive := Bool.toNat_le s'.activeTreeNeedsFirstDraw
  have hforced := Bool.toNat_le (decide (s'.forcedRedrawState = .waitingForDraw))
  have hreadback := Bool.toNat_le (decide (s'.readbackState = .waitingForDrawAndReadback))
  obtain ⟨hneeds, htiles, hmanage, hcommit⟩ := h.unchanged
  unfold Scheduler.budget
  rw [decide_eq_false hstate, decide_eq_true hready, hneeds, htiles, hmanage, hcommit,
    Bool.toNat_true, Bool.toNat_false]
  omega

/-- A draw passes its checks, keeps the state consistent, and uses something up. -/
lemma Consistent.draw (h : Consistent s) (hdraw : s.shouldDraw = true) (didSwap : Bool) :
    ∃ s', s.updateStateOnDraw didSwap = some s' ∧ Consistent s' ∧ budget s' < budget s := by
  obtain ⟨s', hs', hdraws, hconsistent⟩ := h.updateStateOnDraw didSwap (shouldDraw_spec hdraw).1
  exact ⟨s', hs', hconsistent, hdraws.budget hdraw⟩

/-- An action that is chosen passes its checks, keeps the state consistent, and uses something
up. -/
lemma Consistent.updateState (h : Consistent s) {action : Action}
    (hguard : action.guard settings s = true) (hne : action ≠ .none) : ∃ s',
    s.updateState settings action = some s' ∧ Consistent s' ∧ budget s' < budget s := by
  cases action with
  | none => exact absurd rfl hne
  | sendBeginMainFrame => exact h.sendBeginMainFrame hguard
  | commit =>
    have hready : s.commitState = .readyToCommit := of_decide_eq_true hguard
    obtain ⟨s', hs', hcommits, hconsistent⟩ : ∃ s', s.updateStateOnCommit settings false = some s' ∧
      Commits false _ s s' ∧ Consistent s' := h.updateStateOnCommit hready
    exact ⟨s', hs', hconsistent, hcommits.budget hready⟩
  | updateVisibleTiles =>
    have htiles := shouldUpdateVisibleTiles_spec hguard
    refine ⟨_, rfl, { h with }, ?_⟩
    rw [State.hasUpdatedVisibleTilesThisFrame] at htiles
    simp [budget, State.hasUpdatedVisibleTilesThisFrame, htiles]
  | activatePendingTree =>
    have htree := (shouldActivatePendingTree_spec hguard).1
    exact ⟨_, rfl, h.updateStateOnActivation htree, budget_activation htree⟩
  | drawAndSwapIfPossible => exact h.draw hguard true
  | drawAndSwapForced => exact h.draw hguard true
  | drawAndSwapAbort => exact h.draw hguard false
  | drawAndReadback => exact h.draw hguard false
  | beginOutputSurfaceCreation => exact h.beginOutputSurfaceCreation hguard
  | acquireLayerTexturesForMainThread =>
    have hneeds := shouldAcquireLayerTextures_spec hguard
    refine ⟨_, rfl, { h with textures := by simp }, ?_⟩
    simp [budget, State.hasUpdatedVisibleTilesThisFrame, hneeds]
  | manageTiles =>
    have htiles := shouldManageTiles_spec hguard
    refine ⟨_, rfl, { h with }, ?_⟩
    show budget { s with needsManageTiles := false } < budget s
    simp [budget, State.hasUpdatedVisibleTilesThisFrame, htiles]

/-- The action that comes next passes its checks and keeps the state consistent. -/
lemma Consistent.nextAction (h : Consistent s) (settings : SchedulerSettings) : ∃ s',
    s.updateState settings (s.nextAction settings) = some s' ∧ Consistent s' := by
  by_cases hnone : s.nextAction settings = .none
  · rw [hnone]
    exact ⟨s, rfl, h⟩
  · obtain ⟨s', hs', hconsistent, -⟩ := h.updateState (guard_nextAction settings s) hnone
    exact ⟨s', hs', hconsistent⟩

end Actions

/-! ### Events -/

section Events
variable {settings : SchedulerSettings} {s s' : State}

lemma Consistent.didDrawIfPossibleCompleted (h : Consistent s) (success : Bool) :
    Consistent (s.didDrawIfPossibleCompleted settings success) := by
  unfold State.didDrawIfPossibleCompleted
  dsimp only
  split_ifs
  · exact { h with }
  · exact { h with
      forcedActivation := by simp
      forcedDraw := by simp
      oneActivation := by simp
      oneDraw := by simp }
  · exact { h with }
  · exact { h with
      forcedActivation := by simp
      forcedDraw := by simp
      oneActivation := by simp
      oneDraw := by simp }

lemma Consistent.setNeedsForcedCommitForReadback (h : Consistent s)
    (hready : s.commitState ≠ .readyToCommit) :
    Consistent s.setNeedsForcedCommitForReadback := by
  unfold State.setNeedsForcedCommitForReadback
  split_ifs with hframe
  · exact { h with
      readbackBegin := by simp
      readbackCommit := fun _ => Or.inl hframe
      readbackReplacement := by simp
      readbackActivation := by simp
      replacementActivation := by simp
      readbackDraw := by simp
      oneActivation := by simp
      oneDraw := by simp }
  · have hcommit : s.commitState = .idle ∨ s.commitState = .waitingForFirstDraw := by
      cases hstate : s.commitState <;> simp_all
    exact { h with
      readbackBegin := fun _ => hcommit
      readbackCommit := by simp
      readbackReplacement := by simp
      readbackActivation := by simp
      replacementActivation := by simp
      readbackDraw := by simp
      oneActivation := by simp
      oneDraw := by simp }

/-- While the main thread prepares a commit, the commit can become ready or be given up. -/
lemma Consistent.setCommitState (h : Consistent s) (hframe : s.commitState = .frameInProgress)
    {state : CommitState} (hstate : state ≠ .waitingForFirstDraw)
    (hwaiting : s.readbackState = .waitingForCommit → state = .readyToCommit) (needs : Bool) :
    Consistent { s with commitState := state, needsCommit := needs } := by
  obtain ⟨htree, hactive⟩ := h.no_tree (by simp [hframe])
  exact { h with
    pendingTree := by simp [htree]
    activeTree := by simp [hactive]
    firstDraw := fun heq => absurd heq hstate
    readbackBegin := fun heq => by simpa [hframe] using h.readbackBegin heq
    readbackCommit := fun heq => Or.inr (hwaiting heq)
    readbackReplacement := fun _ => hstate }

/-- An event that is allowed passes the checks inside, and keeps the state consistent. -/
lemma Consistent.event (h : Consistent s) {e : Event} (hentry : e.entry s = true) :
    ∃ s', e.apply settings s = some s' ∧ Consistent s' := by
  cases e with
  | setMainThreadNeedsLayerTextures =>
    refine ⟨_, rfl, { h with textures := fun _ => ?_ }⟩
    exact (of_decide_eq_true hentry).2
  | setSkipBeginMainFrameToReduceLatency => exact ⟨_, rfl, { h with }⟩
  | onBeginImplFrame => exact ⟨_, rfl, { h with }⟩
  | onBeginImplFrameDeadlinePending => exact ⟨_, rfl, { h with }⟩
  | onBeginImplFrameDeadline => exact ⟨_, rfl, { h with }⟩
  | onBeginImplFrameIdle => exact ⟨_, rfl, { h with }⟩
  | didEnterPollForAnticipatedDrawTriggers => exact ⟨_, rfl, { h with }⟩
  | didLeavePollForAnticipatedDrawTriggers => exact ⟨_, rfl, { h with }⟩
  | setVisible => exact ⟨_, rfl, { h with }⟩
  | setCanStart => exact ⟨_, rfl, { h with }⟩
  | setCanDraw => exact ⟨_, rfl, { h with }⟩
  | setNeedsRedraw => exact ⟨_, rfl, { h with }⟩
  | setNeedsManageTiles => exact ⟨_, rfl, { h with }⟩
  | setSwapUsedIncompleteTile => exact ⟨_, rfl, { h with }⟩
  | setSmoothnessTakesPriority => exact ⟨_, rfl, { h with }⟩
  | didDrawIfPossibleCompleted success => exact ⟨_, rfl, h.didDrawIfPossibleCompleted success⟩
  | setNeedsCommit => exact ⟨_, rfl, { h with }⟩
  | setNeedsForcedCommitForReadback =>
    exact ⟨_, rfl, h.setNeedsForcedCommitForReadback (of_decide_eq_true hentry).2⟩
  | finishCommit =>
    have hframe : s.commitState = .frameInProgress := of_decide_eq_true hentry
    exact ⟨_, rfl, h.setCommitState hframe (by simp) (fun _ => rfl) s.needsCommit⟩
  | beginMainFrameAborted didHandle =>
    obtain ⟨hframe, hhandle⟩ : s.commitState = .frameInProgress ∧
      (didHandle = true ∨ s.readbackState ≠ .waitingForCommit) := of_decide_eq_true hentry
    cases didHandle with
    | true =>
      obtain ⟨s', hs', -, hconsistent⟩ : ∃ s', s.updateStateOnCommit settings true = some s' ∧
        Commits true _ s s' ∧ Consistent s' := h.updateStateOnCommit hframe
      exact ⟨s', hs', hconsistent⟩
    | false =>
      refine ⟨_, rfl, h.setCommitState hframe (by simp) (fun heq => ?_) true⟩
      simp [heq] at hhandle
  | didManageTiles => exact ⟨_, rfl, { h with }⟩
  | didLoseOutputSurface =>
    refine ⟨_, rfl, ?_⟩
    unfold State.didLoseOutputSurface
    split_ifs
    · exact h
    · exact { h with outputSurface := by simp }
  | notifyReadyToActivate =>
    refine ⟨_, rfl, ?_⟩
    split_ifs
    · exact { h with }
    · exact h
  | didCreateAndInitializeOutputSurface =>
    exact ⟨_, rfl, { h with outputSurface := by simp [State.didCreateAndInitializeOutputSurface] }⟩

end Events

/-! ### Runs -/

inductive Label
  | event (e : Event)
  | action (a : Action)

/-- An event that is allowed comes in, or the next action is done. -/
def Step (settings : SchedulerSettings) (s : State) (label : Label) (s' : State) : Prop :=
  match label with
  | .event e => e.entry s = true ∧ e.apply settings s = some s'
  | .action a => a = s.nextAction settings ∧ s.updateState settings a = some s'

/-- The actions that come next, one after the other. -/
def runActions (settings : SchedulerSettings) : ℕ → State → Option State
  | 0, s => some s
  | n + 1, s => (s.updateState settings (s.nextAction settings)).bind (runActions settings n)

/-- A tree becomes the active tree, by an activation or by a commit without a pending tree. -/
def Label.NewActiveTree (settings : SchedulerSettings) : Label → Prop
  | .action .activatePendingTree => True
  | .action .commit => settings.implSidePainting = false
  | _ => False

def Label.IsDraw : Label → Prop
  | .action .drawAndSwapIfPossible => True
  | .action .drawAndSwapForced => True
  | .action .drawAndSwapAbort => True
  | .action .drawAndReadback => True
  | _ => False

/-- There is a draw between two trees that become the active tree. -/
def DrawsBetween (settings : SchedulerSettings) (labels : List Label) : Prop :=
  ∀ before first between second after,
    labels = before ++ first :: between ++ second :: after →
    first.NewActiveTree settings → second.NewActiveTree settings →
    ∃ label ∈ between, label.IsDraw

/-- What holds of each state that is reached. -/
structure Sound (settings : SchedulerSettings) (s : State) : Prop where
  oneDraw : ¬ (s.forcedRedrawState = .waitingForDraw ∧
    s.readbackState = .waitingForDrawAndReadback)
  readbackDraw : s.readbackState = .waitingForDrawAndReadback →
    s.commitState = .waitingForFirstDraw
  forcedDraw : s.forcedRedrawState = .waitingForDraw → s.commitState = .waitingForFirstDraw
  firstDraw : s.commitState = .waitingForFirstDraw →
    s.hasPendingTree = true ∨ s.activeTreeNeedsFirstDraw = true
  actionChecks : s.updateState settings (s.nextAction settings) ≠ none
  eventChecks : ∀ e : Event, e.entry s = true → e.apply settings s ≠ none
  ends : ∃ n t, runActions settings n s = some t ∧ t.nextAction settings = .none

section Run
variable {settings : SchedulerSettings} {s s' : State} {label : Label}

/-- The actions come to an end, since each of them uses something up. -/
lemma Consistent.ends (h : Consistent s) (settings : SchedulerSettings) :
    ∃ n t, runActions settings n s = some t ∧ t.nextAction settings = .none := by
  induction hbudget : budget s using Nat.strong_induction_on generalizing s with
  | _ total ih =>
    by_cases hnone : s.nextAction settings = .none
    · exact ⟨0, s, rfl, hnone⟩
    · obtain ⟨s', hs', hconsistent, hlt⟩ := h.updateState (guard_nextAction settings s) hnone
      obtain ⟨n, t, hrun, ht⟩ := ih (budget s') (hbudget ▸ hlt) hconsistent rfl
      refine ⟨n + 1, t, ?_, ht⟩
      rw [runActions, hs', Option.bind_some, hrun]

lemma Consistent.sound (h : Consistent s) (settings : SchedulerSettings) : Sound settings s := by
  refine ⟨?_, ?_, ?_, h.firstDraw, ?_, ?_, h.ends settings⟩
  · rintro ⟨hforced, hreadback⟩
    exact h.oneDraw hforced hreadback
  · intro hreadback
    exact h.activeTree (h.readbackDraw hreadback).1
  · intro hforced
    exact h.activeTree (h.forcedDraw hforced).1
  · obtain ⟨s', hs', -⟩ := h.nextAction settings
    rw [hs']
    exact Option.some_ne_none s'
  · intro e hentry
    obtain ⟨s', hs', -⟩ := h.event hentry
    rw [hs']
    exact Option.some_ne_none s'

lemma Consistent.step (h : Consistent s) (hstep : Step settings s label s') : Consistent s' := by
  cases label with
  | event e =>
    obtain ⟨t, ht, hconsistent⟩ := h.event hstep.1
    cases ht.symm.trans hstep.2
    exact hconsistent
  | action a =>
    obtain ⟨t, ht, hconsistent⟩ := h.nextAction settings
    rw [← hstep.1, hstep.2] at ht
    cases ht
    exact hconsistent

lemma Consistent.event_active (h : Consistent s) {e : Event} (hentry : e.entry s = true)
    (happly : e.apply settings s = some s') (hactive : s.activeTreeNeedsFirstDraw = true) :
    s'.activeTreeNeedsFirstDraw = true := by
  cases e with
  | beginMainFrameAborted didHandle =>
    have hframe : s.commitState = .frameInProgress := (of_decide_eq_true hentry).1
    exact absurd (h.activeTree hactive) (by simp [hframe])
  | didDrawIfPossibleCompleted success =>
    cases happly
    unfold State.didDrawIfPossibleCompleted
    dsimp only
    split_ifs <;> exact hactive
  | setNeedsForcedCommitForReadback =>
    cases happly
    unfold State.setNeedsForcedCommitForReadback
    split_ifs <;> exact hactive
  | didLoseOutputSurface =>
    cases happly
    unfold State.didLoseOutputSurface
    split_ifs <;> exact hactive
  | notifyReadyToActivate =>
    cases happly
    split_ifs <;> exact hactive
  | _ =>
    cases happly
    exact hactive

/-- Only a draw takes the mark from the active tree. -/
lemma Consistent.step_active (h : Consistent s) (hstep : Step settings s label s')
    (hdraw : ¬ label.IsDraw) (hactive : s.activeTreeNeedsFirstDraw = true) :
    s'.activeTreeNeedsFirstDraw = true := by
  cases label with
  | event e => exact h.event_active hstep.1 hstep.2 hactive
  | action a =>
    obtain ⟨ha, hupdate⟩ := hstep
    have hguard := guard_nextAction settings s
    rw [← ha] at hguard
    cases a with
    | commit =>
      have hready : s.commitState = .readyToCommit := of_decide_eq_true hguard
      exact absurd (h.activeTree hactive) (by simp [hready])
    | sendBeginMainFrame =>
      have hidle := (shouldSendBeginMainFrame_spec hguard).2.1
      exact absurd (h.activeTree hactive) (by simp [hidle])
    | beginOutputSurfaceCreation =>
      have hidle := (shouldBeginOutputSurfaceCreation_spec hguard).1
      exact absurd (h.activeTree hactive) (by simp [hidle])
    | drawAndSwapIfPossible => exact absurd trivial hdraw
    | drawAndSwapForced => exact absurd trivial hdraw
    | drawAndSwapAbort => exact absurd trivial hdraw
    | drawAndReadback => exact absurd trivial hdraw
    | activatePendingTree =>
      cases hupdate
      rfl
    | _ =>
      cases hupdate
      exact hactive

/-- A tree becomes the active tree when the one before was drawn, and then has to be drawn. -/
lemma Consistent.newActiveTree (h : Consistent s) (hstep : Step settings s label s')
    (hnew : label.NewActiveTree settings) :
    s.activeTreeNeedsFirstDraw = false ∧ s'.activeTreeNeedsFirstDraw = true := by
  cases label with
  | event e => exact hnew.elim
  | action a =>
    obtain ⟨ha, hupdate⟩ := hstep
    have hguard := guard_nextAction settings s
    rw [← ha] at hguard
    cases a with
    | activatePendingTree =>
      cases hupdate
      exact ⟨(shouldActivatePendingTree_spec hguard).2, rfl⟩
    | commit =>
      have hready : s.commitState = .readyToCommit := of_decide_eq_true hguard
      obtain ⟨t, ht, hcommits, -⟩ : ∃ t, s.updateStateOnCommit settings false = some t ∧
        Commits false _ s t ∧ Consistent t := h.updateStateOnCommit hready
      cases ht.symm.trans hupdate
      refine ⟨(h.no_tree (by simp [hready])).2, ?_⟩
      have himpl : settings.implSidePainting = false := hnew
      rw [hcommits.activeTree, himpl]
      rfl
    | _ => exact hnew.elim

/-- The active tree has to be drawn since the last tree that became it. -/
def Owed (settings : SchedulerSettings) (labels : List Label) (s : State) : Prop :=
  ∀ before first rest, labels = before ++ first :: rest → first.NewActiveTree settings →
    (∀ label ∈ rest, ¬ label.IsDraw) → s.activeTreeNeedsFirstDraw = true

lemma Owed.step {labels : List Label} (h : Owed settings labels s) (hs : Consistent s)
    (hstep : Step settings s label s') : Owed settings (labels ++ [label]) s' := by
  intro before first rest heq hnew hrest
  rcases List.eq_nil_or_concat rest with rfl | ⟨rest, last, rfl⟩
  · obtain ⟨-, rfl⟩ := List.append_inj' heq rfl |>.imp id List.singleton_inj.mp
    exact (hs.newActiveTree hstep hnew).2
  · rw [List.concat_eq_append, ← List.cons_append, ← List.append_assoc] at heq
    obtain ⟨hlabels, hlast⟩ := List.append_inj' heq rfl
    obtain rfl := List.singleton_inj.mp hlast
    rw [List.concat_eq_append] at hrest
    have hactive := h before first rest hlabels hnew
      fun l hl => hrest l (List.mem_append_left _ hl)
    exact hs.step_active hstep (hrest _ (by simp)) hactive

lemma DrawsBetween.step {labels : List Label} (h : DrawsBetween settings labels)
    (howed : Owed settings labels s) (hs : Consistent s) (hstep : Step settings s label s') :
    DrawsBetween settings (labels ++ [label]) := by
  intro before first between second after heq hfirst hsecond
  rcases List.eq_nil_or_concat after with rfl | ⟨after, last, rfl⟩
  · obtain ⟨hlabels, hlast⟩ := List.append_inj' heq rfl
    obtain rfl := List.singleton_inj.mp hlast
    by_contra hnone
    have hactive := howed before first between hlabels hfirst
      fun l hl hdraw => hnone ⟨l, hl, hdraw⟩
    simp [(hs.newActiveTree hstep hsecond).1] at hactive
  · rw [List.concat_eq_append, ← List.cons_append, ← List.append_assoc] at heq
    obtain ⟨hlabels, -⟩ := List.append_inj' heq rfl
    exact h before first between second after hlabels hfirst hsecond

lemma run_invariant {labels : List Label} (h : Reaches (Step settings) initial labels s) :
    Consistent s ∧ Owed settings labels s ∧ DrawsBetween settings labels := by
  induction h with
  | refl =>
    refine ⟨consistent_initial, ?_, ?_⟩
    · intro before first rest heq
      simp at heq
    · intro before first between second after heq
      simp at heq
  | snoc _ hstep ih =>
    obtain ⟨hs, howed, hbetween⟩ := ih
    exact ⟨hs.step hstep, howed.step hs hstep, hbetween.step howed hs hstep⟩

end Run

/-- In each run the parts of the state belong together, all checks hold, the actions come to an
end, and there is a draw between two trees that become the active tree. -/
theorem scheduler_consistent (settings : SchedulerSettings) (labels : List Label) (s : State)
    (h : Reaches (Step settings) initial labels s) :
    Sound settings s ∧ DrawsBetween settings labels := by
  obtain ⟨hs, -, hbetween⟩ := run_invariant h
  exact ⟨hs.sound settings, hbetween⟩

/-- Settings with a pending tree. -/
def implSideSettings : SchedulerSettings := ⟨true, true, true, 3, false, true⟩

/-- The output surface is created, and a readback waits for its draw. -/
def readbackLabels : List Label :=
  [.event .setCanStart, .action .beginOutputSurfaceCreation,
    .event .didCreateAndInitializeOutputSurface, .event (.setVisible true),
    .event (.setCanDraw true), .event .setNeedsCommit, .action .sendBeginMainFrame,
    .event .setNeedsForcedCommitForReadback, .event .finishCommit, .action .commit,
    .event .notifyReadyToActivate, .action .activatePendingTree]

theorem scheduler_consistent_readback :
    ∃ s, s.readbackState = .waitingForDrawAndReadback ∧ Sound implSideSettings s ∧
      DrawsBetween implSideSettings readbackLabels := by
  have hrun : ∃ s, s.readbackState = .waitingForDrawAndReadback ∧
      Reaches (Step implSideSettings) initial readbackLabels s :=
    ⟨_, rfl, .cons ⟨rfl, rfl⟩ <| .cons ⟨rfl, rfl⟩ <| .cons ⟨rfl, rfl⟩ <| .cons ⟨rfl, rfl⟩ <|
      .cons ⟨rfl, rfl⟩ <| .cons ⟨rfl, rfl⟩ <| .cons ⟨rfl, rfl⟩ <| .cons ⟨rfl, rfl⟩ <|
      .cons ⟨rfl, rfl⟩ <| .cons ⟨rfl, rfl⟩ <| .cons ⟨rfl, rfl⟩ <| .cons ⟨rfl, rfl⟩ .refl⟩
  obtain ⟨s, hreadback, hreaches⟩ := hrun
  exact ⟨s, hreadback, scheduler_consistent _ _ s hreaches⟩

end Chromium.Scheduler
