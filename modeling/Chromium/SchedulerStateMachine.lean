import Mathlib.Data.Int.Basic
import Mathlib.Order.Basic

/-!
# The compositor scheduler

`cc/scheduler/scheduler_state_machine.cc`: the state machine of the impl thread. Events change
its state, `nextAction` says what the scheduler should do, and `updateState` records that it was
done. A check of the source that fails is `none`.
-/
namespace Chromium.Scheduler

structure SchedulerSettings where
  deadlineSchedulingEnabled : Bool
  implSidePainting : Bool
  timeoutAndDrawWhenAnimationCheckerboards : Bool
  maximumNumberOfFailedDrawsBeforeDrawIsForced : ℤ
  usingSynchronousRendererCompositor : Bool
  throttleFrameProduction : Bool

inductive OutputSurfaceState
  | active
  | lost
  | creating
  | waitingForFirstCommit
  | waitingForFirstActivation
  deriving DecidableEq

inductive BeginImplFrameState
  | idle
  | beginFrameStarting
  | insideBeginFrame
  | insideDeadline
  deriving DecidableEq

inductive CommitState
  | idle
  | frameInProgress
  | readyToCommit
  | waitingForFirstDraw
  deriving DecidableEq

inductive TextureState
  | unlocked
  | acquiredByMainThread
  | acquiredByImplThread
  deriving DecidableEq

inductive SynchronousReadbackState
  | idle
  | needsBeginMainFrame
  | waitingForCommit
  | waitingForActivation
  | waitingForDrawAndReadback
  | waitingForReplacementCommit
  | waitingForReplacementActivation
  deriving DecidableEq

inductive ForcedRedrawOnTimeoutState
  | idle
  | waitingForCommit
  | waitingForActivation
  | waitingForDraw
  deriving DecidableEq

inductive Action
  | none
  | sendBeginMainFrame
  | commit
  | updateVisibleTiles
  | activatePendingTree
  | drawAndSwapIfPossible
  | drawAndSwapForced
  | drawAndSwapAbort
  | drawAndReadback
  | beginOutputSurfaceCreation
  | acquireLayerTexturesForMainThread
  | manageTiles
  deriving DecidableEq

structure State where
  outputSurfaceState : OutputSurfaceState
  beginImplFrameState : BeginImplFrameState
  commitState : CommitState
  textureState : TextureState
  forcedRedrawState : ForcedRedrawOnTimeoutState
  readbackState : SynchronousReadbackState
  commitCount : ℤ
  currentFrameNumber : ℤ
  lastFrameNumberSwapPerformed : ℤ
  lastFrameNumberBeginMainFrameSent : ℤ
  lastFrameNumberUpdateVisibleTilesWasCalled : ℤ
  lastFrameNumberManageTilesCalled : ℤ
  consecutiveFailedDraws : ℤ
  needsRedraw : Bool
  needsManageTiles : Bool
  swapUsedIncompleteTile : Bool
  needsCommit : Bool
  mainThreadNeedsLayerTextures : Bool
  insidePollForAnticipatedDrawTriggers : Bool
  visible : Bool
  canStart : Bool
  canDraw : Bool
  hasPendingTree : Bool
  pendingTreeIsReadyForActivation : Bool
  activeTreeNeedsFirstDraw : Bool
  drawIfPossibleFailed : Bool
  didCreateAndInitializeFirstOutputSurface : Bool
  smoothnessTakesPriority : Bool
  skipBeginMainFrameToReduceLatency : Bool
  deriving DecidableEq

def initial : State where
  outputSurfaceState := .lost
  beginImplFrameState := .idle
  commitState := .idle
  textureState := .unlocked
  forcedRedrawState := .idle
  readbackState := .idle
  commitCount := 0
  currentFrameNumber := 0
  lastFrameNumberSwapPerformed := -1
  lastFrameNumberBeginMainFrameSent := -1
  lastFrameNumberUpdateVisibleTilesWasCalled := -1
  lastFrameNumberManageTilesCalled := -1
  consecutiveFailedDraws := 0
  needsRedraw := false
  needsManageTiles := false
  swapUsedIncompleteTile := false
  needsCommit := false
  mainThreadNeedsLayerTextures := false
  insidePollForAnticipatedDrawTriggers := false
  visible := false
  canStart := false
  canDraw := false
  hasPendingTree := false
  pendingTreeIsReadyForActivation := false
  activeTreeNeedsFirstDraw := false
  drawIfPossibleFailed := false
  didCreateAndInitializeFirstOutputSurface := false
  smoothnessTakesPriority := false
  skipBeginMainFrameToReduceLatency := false

/-- There is no result when a check of the source fails. -/
def dcheck {α : Type} (p : Prop) [Decidable p] (result : Option α) : Option α :=
  if p then result else none

namespace State

/-! ### What to do next -/

def commitPending (s : State) : Bool :=
  s.commitState = .frameInProgress ∨ s.commitState = .readyToCommit

def hasSentBeginMainFrameThisFrame (s : State) : Bool :=
  s.currentFrameNumber = s.lastFrameNumberBeginMainFrameSent

def hasUpdatedVisibleTilesThisFrame (s : State) : Bool :=
  s.currentFrameNumber = s.lastFrameNumberUpdateVisibleTilesWasCalled

def hasSwappedThisFrame (s : State) : Bool :=
  s.currentFrameNumber = s.lastFrameNumberSwapPerformed

def hasInitializedOutputSurface (s : State) : Bool :=
  match s.outputSurfaceState with
  | .lost | .creating => false
  | .active | .waitingForFirstCommit | .waitingForFirstActivation => true

def pendingActivationsShouldBeForced (s : State) : Bool :=
  if s.textureState = .acquiredByMainThread then true
  else if s.outputSurfaceState = .lost then true
  else false

def pendingDrawsShouldBeAborted (s : State) : Bool :=
  if s.pendingActivationsShouldBeForced then true
  else if !s.canDraw then true
  else if !s.visible then true
  else false

def shouldBeginOutputSurfaceCreation (s : State) : Bool :=
  if !s.canStart then false
  else if s.commitState ≠ .idle then false
  else if s.activeTreeNeedsFirstDraw || s.hasPendingTree then false
  else s.outputSurfaceState = .lost

def shouldDraw (s : State) : Bool :=
  if s.readbackState = .waitingForReplacementCommit ∨
      s.readbackState = .waitingForReplacementActivation then false
  else if s.readbackState = .waitingForDrawAndReadback then true
  else if s.pendingDrawsShouldBeAborted then s.activeTreeNeedsFirstDraw
  else if s.hasSwappedThisFrame then false
  else if s.beginImplFrameState ≠ .insideDeadline then false
  else if s.forcedRedrawState = .waitingForDraw then true
  else s.needsRedraw

def shouldAcquireLayerTexturesForMainThread (s : State) : Bool :=
  if !s.mainThreadNeedsLayerTextures then false
  else if s.textureState = .unlocked then true
  else false

def shouldActivatePendingTree (s : State) : Bool :=
  if !s.hasPendingTree then false
  else if s.activeTreeNeedsFirstDraw then false
  else if s.pendingActivationsShouldBeForced then true
  else s.pendingTreeIsReadyForActivation

def shouldUpdateVisibleTiles (settings : SchedulerSettings) (s : State) : Bool :=
  if !settings.implSidePainting then false
  else if s.hasUpdatedVisibleTilesThisFrame then false
  else if !s.hasInitializedOutputSurface then false
  else if s.beginImplFrameState ≠ .insideDeadline then false
  else if s.swapUsedIncompleteTile then true
  else false

def supportsProactiveBeginImplFrame (settings : SchedulerSettings) : Bool :=
  !settings.usingSynchronousRendererCompositor && settings.throttleFrameProduction

def beginImplFrameNeededToDraw (s : State) : Bool :=
  if !s.hasInitializedOutputSurface then false
  else if !s.canDraw then false
  else if s.forcedRedrawState = .waitingForDraw then true
  else if !s.visible then false
  else if s.swapUsedIncompleteTile then true
  else s.needsRedraw

def proactiveBeginImplFrameWanted (s : State) : Bool :=
  if !s.hasInitializedOutputSurface then false
  else if !s.visible then false
  else if s.needsCommit ∨ s.commitState ≠ .idle then true
  else if s.hasPendingTree then true
  else if s.needsManageTiles then true
  else if s.lastFrameNumberSwapPerformed = s.currentFrameNumber then true
  else false

def beginImplFrameNeeded (settings : SchedulerSettings) (s : State) : Bool :=
  if !supportsProactiveBeginImplFrame settings then s.beginImplFrameNeededToDraw
  else s.beginImplFrameNeededToDraw || s.proactiveBeginImplFrameWanted

def shouldSendBeginMainFrame (settings : SchedulerSettings) (s : State) : Bool :=
  if !s.needsCommit then false
  else if s.commitState ≠ .idle then false
  else if s.hasPendingTree then false
  else if s.readbackState = .needsBeginMainFrame then !s.commitPending
  else if !s.visible then false
  else if s.outputSurfaceState = .waitingForFirstCommit then true
  else if settings.deadlineSchedulingEnabled ∧ s.beginImplFrameState = .idle ∧
      s.beginImplFrameNeeded settings then false
  else if s.forcedRedrawState = .waitingForCommit then true
  else if s.hasSentBeginMainFrameThisFrame then false
  else if !s.hasInitializedOutputSurface then false
  else if s.skipBeginMainFrameToReduceLatency then false
  else true

def shouldCommit (s : State) : Bool := s.commitState = .readyToCommit

def shouldManageTiles (s : State) : Bool :=
  if s.lastFrameNumberManageTilesCalled = s.currentFrameNumber then false
  else if s.beginImplFrameState ≠ .insideDeadline ∧
      !s.insidePollForAnticipatedDrawTriggers then false
  else s.needsManageTiles

/-- Which draw it is when the scheduler should draw. -/
def drawAction (s : State) : Action :=
  if s.readbackState = .waitingForDrawAndReadback then .drawAndReadback
  else if s.pendingDrawsShouldBeAborted then .drawAndSwapAbort
  else if s.forcedRedrawState = .waitingForDraw then .drawAndSwapForced
  else .drawAndSwapIfPossible

def nextAction (settings : SchedulerSettings) (s : State) : Action :=
  if s.shouldAcquireLayerTexturesForMainThread then .acquireLayerTexturesForMainThread
  else if s.shouldUpdateVisibleTiles settings then .updateVisibleTiles
  else if s.shouldActivatePendingTree then .activatePendingTree
  else if s.shouldCommit then .commit
  else if s.shouldDraw then s.drawAction
  else if s.shouldManageTiles then .manageTiles
  else if s.shouldSendBeginMainFrame settings then .sendBeginMainFrame
  else if s.shouldBeginOutputSurfaceCreation then .beginOutputSurfaceCreation
  else .none

/-! ### What was done -/

/-- The state of a readback after a commit. It is checked that the commit has to do with it. -/
def readbackOnCommit (hasPendingTree : Bool) :
    SynchronousReadbackState → Option SynchronousReadbackState
  | .waitingForCommit =>
    some (if hasPendingTree then .waitingForActivation else .waitingForDrawAndReadback)
  | .waitingForReplacementCommit =>
    some (if hasPendingTree then .waitingForReplacementActivation else .idle)
  | .idle => some .idle
  | _ => none

/-- Readbacks interrupt forced draws and the initialization of the output surface, which go on
outside of them. -/
def advanceOnCommit (s : State) : Option State :=
  if s.readbackState = .idle ∨ s.readbackState = .waitingForReplacementActivation then
    let forced := if s.forcedRedrawState = .waitingForCommit then
        if s.hasPendingTree then .waitingForActivation else .waitingForDraw
      else s.forcedRedrawState
    dcheck (s.outputSurfaceState ≠ .waitingForFirstActivation) <|
      if s.outputSurfaceState = .waitingForFirstCommit then
        if s.hasPendingTree then
          some { s with
            forcedRedrawState := forced
            outputSurfaceState := .waitingForFirstActivation }
        else
          some { s with
            forcedRedrawState := forced
            outputSurfaceState := .active
            needsRedraw := true }
      else some { s with forcedRedrawState := forced }
  else some s

/-- One waits for a draw unless the commit was aborted and nobody needs one. -/
def commitStateOnCommit (commitWasAborted : Bool) (s : State) : Option State :=
  if !commitWasAborted then
    dcheck (s.commitState = .readyToCommit) <|
      some { s with commitState := .waitingForFirstDraw }
  else if s.readbackState ≠ .idle ∨ s.forcedRedrawState ≠ .idle then
    some { s with commitState := .waitingForFirstDraw }
  else some { s with commitState := .idle }

/-- The new active tree has to be drawn, or the old one for a readback or a forced draw. -/
def activeTreeOnCommit (commitWasAborted : Bool) (s : State) : State :=
  if !s.hasPendingTree ∧ (!commitWasAborted ∨ s.readbackState = .waitingForDrawAndReadback ∨
      s.forcedRedrawState = .waitingForDraw) then
    { s with needsRedraw := true, activeTreeNeedsFirstDraw := true }
  else s

/-- The work after the commit that is common to all of them. -/
def afterCommit (s : State) : State :=
  { s with
    pendingTreeIsReadyForActivation := false
    lastFrameNumberSwapPerformed :=
      if s.drawIfPossibleFailed then -1 else s.lastFrameNumberSwapPerformed
    textureState :=
      if s.hasPendingTree || s.needsRedraw then .acquiredByImplThread else .unlocked }

def updateStateOnCommit (settings : SchedulerSettings) (commitWasAborted : Bool) (s : State) :
    Option State := do
  let hasPendingTree := settings.implSidePainting && !commitWasAborted
  let readback ← readbackOnCommit hasPendingTree s.readbackState
  let s ← advanceOnCommit { s with
    commitCount := s.commitCount + 1
    hasPendingTree := hasPendingTree
    readbackState := readback }
  let s ← commitStateOnCommit commitWasAborted s
  return (s.activeTreeOnCommit commitWasAborted).afterCommit

def updateStateOnActivation (s : State) : State :=
  { s with
    outputSurfaceState := if s.outputSurfaceState = .waitingForFirstActivation then .active
      else s.outputSurfaceState
    forcedRedrawState := if s.forcedRedrawState = .waitingForActivation then .waitingForDraw
      else s.forcedRedrawState
    readbackState := if s.readbackState = .waitingForActivation then .waitingForDrawAndReadback
      else if s.readbackState = .waitingForReplacementActivation then .idle
      else s.readbackState
    hasPendingTree := false
    pendingTreeIsReadyForActivation := false
    activeTreeNeedsFirstDraw := true
    needsRedraw := true }

/-- The states of the commit, the readback and the forced draw after a draw. -/
def releaseOnDraw (s : State) : Option State :=
  if s.readbackState = .waitingForDrawAndReadback then
    dcheck (s.commitState = .waitingForFirstDraw ∧ !s.hasPendingTree) <|
      some { s with
        commitState := .frameInProgress
        readbackState := .waitingForReplacementCommit }
  else if s.forcedRedrawState = .waitingForDraw then
    dcheck (s.commitState = .waitingForFirstDraw) <|
      some { s with commitState := .idle, forcedRedrawState := .idle }
  else if s.commitState = .waitingForFirstDraw ∧ !s.hasPendingTree then
    some { s with commitState := .idle }
  else some s

/-- The work after the draw that is common to all of them. -/
def afterDraw (didSwap : Bool) (s : State) : State :=
  { s with
    textureState := if s.textureState = .acquiredByImplThread then .unlocked else s.textureState
    needsRedraw := false
    drawIfPossibleFailed := false
    activeTreeNeedsFirstDraw := false
    lastFrameNumberSwapPerformed := if didSwap then s.currentFrameNumber
      else s.lastFrameNumberSwapPerformed }

def updateStateOnDraw (didSwap : Bool) (s : State) : Option State :=
  dcheck (s.readbackState ≠ .waitingForReplacementCommit ∧
      s.readbackState ≠ .waitingForReplacementActivation) <|
    s.releaseOnDraw.map (afterDraw didSwap)

def updateStateOnManageTiles (s : State) : State := { s with needsManageTiles := false }

def sendBeginMainFrame (s : State) : Option State :=
  dcheck (!s.hasPendingTree) <|
    dcheck (s.visible ∨ s.readbackState = .needsBeginMainFrame) <|
      some { s with
        commitState := .frameInProgress
        needsCommit := false
        readbackState := if s.readbackState = .needsBeginMainFrame then .waitingForCommit
          else s.readbackState
        lastFrameNumberBeginMainFrameSent := s.currentFrameNumber }

def beginOutputSurfaceCreation (s : State) : Option State :=
  dcheck (s.outputSurfaceState = .lost) <|
    dcheck (s.commitState = .idle) <|
      dcheck (!s.hasPendingTree) <|
        dcheck (!s.activeTreeNeedsFirstDraw) <|
          some { s with outputSurfaceState := .creating }

def updateState (settings : SchedulerSettings) (s : State) : Action → Option State
  | .none => some s
  | .updateVisibleTiles =>
    some { s with lastFrameNumberUpdateVisibleTilesWasCalled := s.currentFrameNumber }
  | .activatePendingTree => some s.updateStateOnActivation
  | .sendBeginMainFrame => s.sendBeginMainFrame
  | .commit => s.updateStateOnCommit settings false
  | .drawAndSwapForced => s.updateStateOnDraw true
  | .drawAndSwapIfPossible => s.updateStateOnDraw true
  | .drawAndSwapAbort => s.updateStateOnDraw false
  | .drawAndReadback => s.updateStateOnDraw false
  | .beginOutputSurfaceCreation => s.beginOutputSurfaceCreation
  | .acquireLayerTexturesForMainThread =>
    some { s with
      textureState := .acquiredByMainThread
      mainThreadNeedsLayerTextures := false }
  | .manageTiles => some s.updateStateOnManageTiles

end State

/-! ### Events -/

inductive Event
  | setMainThreadNeedsLayerTextures
  | setSkipBeginMainFrameToReduceLatency (skip : Bool)
  | onBeginImplFrame
  | onBeginImplFrameDeadlinePending
  | onBeginImplFrameDeadline
  | onBeginImplFrameIdle
  | didEnterPollForAnticipatedDrawTriggers
  | didLeavePollForAnticipatedDrawTriggers
  | setVisible (visible : Bool)
  | setCanStart
  | setCanDraw (canDraw : Bool)
  | setNeedsRedraw
  | setNeedsManageTiles
  | setSwapUsedIncompleteTile (usedIncompleteTile : Bool)
  | setSmoothnessTakesPriority (smoothnessTakesPriority : Bool)
  | didDrawIfPossibleCompleted (success : Bool)
  | setNeedsCommit
  | setNeedsForcedCommitForReadback
  | finishCommit
  | beginMainFrameAborted (didHandle : Bool)
  | didManageTiles
  | didLoseOutputSurface
  | notifyReadyToActivate
  | didCreateAndInitializeOutputSurface

namespace State

def didDrawIfPossibleCompleted (settings : SchedulerSettings) (success : Bool) (s : State) :
    State :=
  if !success then
    let s := { s with drawIfPossibleFailed := true, needsRedraw := true }
    if s.forcedRedrawState ≠ .idle then s
    else if settings.timeoutAndDrawWhenAnimationCheckerboards ∧
        s.consecutiveFailedDraws + 1 ≥ settings.maximumNumberOfFailedDrawsBeforeDrawIsForced then
      { s with
        needsCommit := true
        consecutiveFailedDraws := 0
        forcedRedrawState := .waitingForCommit }
    else
      { s with
        needsCommit := true
        consecutiveFailedDraws := s.consecutiveFailedDraws + 1 }
  else
    { s with
      drawIfPossibleFailed := false
      consecutiveFailedDraws := 0
      forcedRedrawState := .idle }

def setNeedsForcedCommitForReadback (s : State) : State :=
  if s.commitState = .frameInProgress then { s with readbackState := .waitingForCommit }
  else { s with readbackState := .needsBeginMainFrame }

def didLoseOutputSurface (s : State) : State :=
  if s.outputSurfaceState = .lost ∨ s.outputSurfaceState = .creating then s
  else
    { s with
      outputSurfaceState := .lost
      needsRedraw := false
      beginImplFrameState := .idle }

def didCreateAndInitializeOutputSurface (s : State) : State :=
  { s with
    outputSurfaceState := .waitingForFirstCommit
    needsCommit := s.needsCommit || s.didCreateAndInitializeFirstOutputSurface
    didCreateAndInitializeFirstOutputSurface := true }

end State

namespace Event

/-- The checks at the entry of the event. A readback is not requested when a commit is ready. -/
def entry (s : State) : Event → Bool
  | setMainThreadNeedsLayerTextures =>
    !s.mainThreadNeedsLayerTextures ∧ s.textureState ≠ .acquiredByMainThread
  | onBeginImplFrame => s.beginImplFrameState = .idle
  | onBeginImplFrameDeadlinePending => s.beginImplFrameState = .beginFrameStarting
  | onBeginImplFrameDeadline => s.beginImplFrameState = .insideBeginFrame
  | onBeginImplFrameIdle => s.beginImplFrameState = .insideDeadline
  | setNeedsForcedCommitForReadback =>
    (s.readbackState = .idle ∨ s.readbackState = .waitingForReplacementCommit) ∧
      s.commitState ≠ .readyToCommit
  | finishCommit => s.commitState = .frameInProgress
  | beginMainFrameAborted didHandle =>
    s.commitState = .frameInProgress ∧ (didHandle ∨ s.readbackState ≠ .waitingForCommit)
  | didCreateAndInitializeOutputSurface => s.outputSurfaceState = .creating
  | _ => true

/-- What an event does. Only a commit that was aborted has checks inside. -/
def apply (settings : SchedulerSettings) (s : State) : Event → Option State
  | setMainThreadNeedsLayerTextures => some { s with mainThreadNeedsLayerTextures := true }
  | setSkipBeginMainFrameToReduceLatency skip =>
    some { s with skipBeginMainFrameToReduceLatency := skip }
  | onBeginImplFrame =>
    some { s with
      currentFrameNumber := s.currentFrameNumber + 1
      beginImplFrameState := .beginFrameStarting }
  | onBeginImplFrameDeadlinePending => some { s with beginImplFrameState := .insideBeginFrame }
  | onBeginImplFrameDeadline => some { s with beginImplFrameState := .insideDeadline }
  | onBeginImplFrameIdle => some { s with beginImplFrameState := .idle }
  | didEnterPollForAnticipatedDrawTriggers =>
    some { s with
      currentFrameNumber := s.currentFrameNumber + 1
      insidePollForAnticipatedDrawTriggers := true }
  | didLeavePollForAnticipatedDrawTriggers =>
    some { s with insidePollForAnticipatedDrawTriggers := false }
  | setVisible visible => some { s with visible := visible }
  | setCanStart => some { s with canStart := true }
  | setCanDraw canDraw => some { s with canDraw := canDraw }
  | setNeedsRedraw => some { s with needsRedraw := true }
  | setNeedsManageTiles => some { s with needsManageTiles := true }
  | setSwapUsedIncompleteTile usedIncompleteTile =>
    some { s with swapUsedIncompleteTile := usedIncompleteTile }
  | setSmoothnessTakesPriority smoothnessTakesPriority =>
    some { s with smoothnessTakesPriority := smoothnessTakesPriority }
  | didDrawIfPossibleCompleted success => some (s.didDrawIfPossibleCompleted settings success)
  | setNeedsCommit => some { s with needsCommit := true }
  | setNeedsForcedCommitForReadback => some s.setNeedsForcedCommitForReadback
  | finishCommit => some { s with commitState := .readyToCommit }
  | beginMainFrameAborted didHandle =>
    if didHandle then s.updateStateOnCommit settings true
    else some { s with commitState := .idle, needsCommit := true }
  | didManageTiles =>
    some { s with
      needsManageTiles := false
      lastFrameNumberManageTilesCalled := s.currentFrameNumber }
  | didLoseOutputSurface => some s.didLoseOutputSurface
  | notifyReadyToActivate =>
    some (if s.hasPendingTree then { s with pendingTreeIsReadyForActivation := true } else s)
  | didCreateAndInitializeOutputSurface => some s.didCreateAndInitializeOutputSurface

end Event

end Chromium.Scheduler
