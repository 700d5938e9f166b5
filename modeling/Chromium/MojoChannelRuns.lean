import Chromium.MojoMessagePipe
import Chromium.Runs

/-!
# A channel with many pipes

One process attaches message pipes to its channel, runs them, writes, reads and closes, while
messages come in for any identifier. It is asked when the checks of the pipes and the fatal
errors of the channel can be reached.
-/
namespace Chromium.MojoChannel

open WireFormat MojoMessagePipe Runs

/-- A process with its message pipes. It knows the identifiers that were given out for them and
which of them were run. -/
structure Process where
  channel : Channel
  pipes : ℕ → MessagePipe
  ids : ℕ → Option EndpointId
  ran : ℕ → Bool

inductive Event
  | attach (pipe : ℕ)
  | run (pipe : ℕ) (remoteId : EndpointId)
  | write (pipe : ℕ) (bytes : List Byte)
  | read (pipe : ℕ) (maxBytes : ℕ) (mayDiscard : Bool)
  | close (pipe : ℕ)
  | receiveData (destinationId : EndpointId) (bytes : List Byte)
  | receivePeerClosed (destinationId : EndpointId)
  | rawChannelDies
  deriving DecidableEq

namespace Process

def initial : Process :=
  ⟨.initial, fun _ => localProxy (some .new) (some .new), fun _ => none, fun _ => false⟩

/-- A call on a pipe was made. -/
def called {α : Type} (w : Process) (pipe : ℕ) (called : Called MessagePipe α) : Process :=
  { w with channel := called.channel, pipes := Function.update w.pipes pipe called.endpoint }

def attachMessagePipeEndpoint (w : Process) (pipe : ℕ) : Option Process :=
  (w.channel.allocateId pipe).map fun allocated =>
    { w.called pipe ((w.pipes pipe).attach allocated.2 .one allocated.1) with
      ids := Function.update w.ids pipe (some allocated.1) }

def runMessagePipeEndpoint (w : Process) (localId remoteId : EndpointId) : Process :=
  match w.channel.localIdToEndpointInfoMap localId with
  | none => { w with channel := w.channel.crash }
  | some pipe => w.called pipe ((w.pipes pipe).run w.channel .one remoteId)

def onReadMessageForDownstream (w : Process) (destinationId : EndpointId) (body : Body) :
    Process :=
  match w.channel.findEndpointInfo destinationId with
  | none => w
  | some pipe => w.called pipe (w.channel.enqueueForDownstream (w.pipes pipe) body)

/-- A pipe is attached once, and run once after that. The local port is used until it is closed. -/
def Enabled (w : Process) : Event → Prop
  | .attach pipe => w.ids pipe = none
  | .run pipe remoteId =>
    w.ids pipe ≠ none ∧ w.ran pipe = false ∧ remoteId ≠ kInvalidEndpointId
  | .write pipe _ => (w.pipes pipe).endpoint0 ≠ none
  | .read pipe _ _ => (w.pipes pipe).endpoint0 ≠ none
  | .close pipe => (w.pipes pipe).endpoint0 ≠ none
  | .receiveData _ _ => True
  | .receivePeerClosed _ => True
  | .rawChannelDies => True

def next (w : Process) : Event → Option Process
  | .attach pipe => w.attachMessagePipeEndpoint pipe
  | .run pipe remoteId =>
    (w.ids pipe).map fun localId =>
      { w.runMessagePipeEndpoint localId remoteId with ran := Function.update w.ran pipe true }
  | .write pipe bytes => some (w.called pipe ((w.pipes pipe).writeMessage w.channel .zero bytes))
  | .read pipe maxBytes mayDiscard =>
    some (w.called pipe ((w.pipes pipe).readMessage w.channel .zero maxBytes mayDiscard))
  | .close pipe => some (w.called pipe ((w.pipes pipe).close w.channel .zero))
  | .receiveData destinationId bytes =>
    some (w.onReadMessageForDownstream destinationId (.messagePipeEndpoint bytes))
  | .receivePeerClosed destinationId =>
    some (w.onReadMessageForDownstream destinationId .peerClosed)
  | .rawChannelDies => some { w with channel := { w.channel with isDead := true } }

def Step (w : Process) (e : Event) (w' : Process) : Prop := w.Enabled e ∧ w.next e = some w'

/-- No check failed and the process did not crash. -/
def Safe (w : Process) : Prop := w.channel.dchecks = true ∧ w.channel.crashed = false

/-- A pipe is run while its proxy is there, and not when messages were written before the local
port was closed. No data comes in for a port that is closed while its proxy is there. -/
def Careful (w : Process) : Event → Prop
  | .run pipe _ =>
    match (w.pipes pipe).endpoint1 with
    | some (.proxyEndpoint d) => (w.pipes pipe).endpoint0 = none →
        ∀ message ∈ d.pausedMessageQueue, message.body.isMessagePipe = true
    | _ => False
  | .receiveData destinationId _ =>
    match w.channel.findEndpointInfo destinationId with
    | none => True
    | some pipe => (w.pipes pipe).endpoint0 ≠ none
  | _ => True

/-- A step that takes care. -/
def CarefulStep (w : Process) (e : Event) (w' : Process) : Prop := w.Step e w' ∧ w.Careful e

instance (w : Process) : (e : Event) → Decidable (w.Enabled e)
  | .attach _ => inferInstanceAs (Decidable (_ = _))
  | .run _ _ => inferInstanceAs (Decidable (_ ∧ _ ∧ _))
  | .write _ _ => inferInstanceAs (Decidable (_ ≠ _))
  | .read _ _ _ => inferInstanceAs (Decidable (_ ≠ _))
  | .close _ => inferInstanceAs (Decidable (_ ≠ _))
  | .receiveData _ _ => inferInstanceAs (Decidable True)
  | .receivePeerClosed _ => inferInstanceAs (Decidable True)
  | .rawChannelDies => inferInstanceAs (Decidable True)

end Process

/-! ### The invariant -/

/-- What holds of the two ends of a pipe that has the identifier `id`, and that was run or not. -/
structure Ends (id : Option EndpointId) (ran : Bool) (e : Option LocalMessagePipeEndpoint)
    (d : Option ProxyMessagePipeEndpoint) : Prop where
  valid : ∀ localId, id = some localId → localId ≠ kInvalidEndpointId
  localEnd : ∀ l, e = some l → l.isOpen = true ∧ l.isPeerOpen = d.isSome
  proxyEnd : ∀ p, d = some p → p.isOpen = true ∧ p.isPeerOpen = e.isSome ∧
    p.isAttached = id.isSome ∧ (∀ localId, id = some localId → p.localId = localId) ∧
    p.isRunning = ran
  running : ran = true → ∀ p, d = some p →
    e.isSome = true ∧ id.isSome = true ∧ p.pausedMessageQueue = []
  detached : id = none → d.isSome = true ∧ ran = false

structure Inv (w : Process) : Prop where
  safe : w.Safe
  ends : ∀ pipe, ∃ e d, w.pipes pipe = localProxy e d ∧ Ends (w.ids pipe) (w.ran pipe) e d
  map : ∀ localId pipe, w.channel.localIdToEndpointInfoMap localId = some pipe ↔
    w.ids pipe = some localId ∧ (w.pipes pipe).endpoint1 ≠ none

lemma inv_initial : Inv Process.initial where
  safe := ⟨rfl, rfl⟩
  ends := fun _ => ⟨some .new, some .new, rfl,
    { valid := by simp [Process.initial]
      localEnd := by
        rintro l ⟨⟩
        exact ⟨rfl, rfl⟩
      proxyEnd := by
        rintro p ⟨⟩
        exact ⟨rfl, rfl, rfl, by simp [Process.initial], rfl⟩
      running := by simp [Process.initial]
      detached := fun _ => ⟨rfl, rfl⟩ }⟩
  map := by simp [Process.initial, Channel.initial]

section Calls
variable {w w' : Process} {pipe : ℕ} {e e' : Option LocalMessagePipeEndpoint}
  {d d' : Option ProxyMessagePipeEndpoint}

/-- The pipes on which no call was made. -/
lemma Inv.ends_called (h : Inv w) (hids : w'.ids = w.ids)
    (hran : ∀ other, other ≠ pipe → w'.ran other = w.ran other)
    (hpipes : w'.pipes = Function.update w.pipes pipe (localProxy e' d'))
    (hends : Ends (w.ids pipe) (w'.ran pipe) e' d') (other : ℕ) :
    ∃ e d, w'.pipes other = localProxy e d ∧ Ends (w'.ids other) (w'.ran other) e d := by
  by_cases heq : other = pipe
  · subst heq
    exact ⟨e', d', by simp [hpipes], by rwa [hids]⟩
  · obtain ⟨a, b, hother, hends'⟩ := h.ends other
    refine ⟨a, b, by simp [hpipes, heq, hother], ?_⟩
    rw [hran other heq, hids]
    exact hends'

/-- A call that leaves the proxy where it is. -/
lemma Inv.keeps (h : Inv w) (hpipe : w.pipes pipe = localProxy e d) (hids : w'.ids = w.ids)
    (hran : ∀ other, other ≠ pipe → w'.ran other = w.ran other) (hsafe : w'.Safe)
    (hmap : w'.channel.localIdToEndpointInfoMap = w.channel.localIdToEndpointInfoMap)
    (hpipes : w'.pipes = Function.update w.pipes pipe (localProxy e' d'))
    (hproxy : d'.isSome = d.isSome) (hends : Ends (w.ids pipe) (w'.ran pipe) e' d') : Inv w' where
  safe := hsafe
  ends := h.ends_called hids hran hpipes hends
  map := by
    intro localId other
    have hiff := h.map localId other
    by_cases heq : other = pipe
    · subst heq
      have hgone : d' = none ↔ d = none := by
        cases d <;> cases d' <;> simp at hproxy ⊢
      simpa [hmap, hids, hpipes, hpipe, localProxy, hgone] using hiff
    · simpa [hmap, hids, hpipes, heq] using hiff

/-- A call that ends with the proxy gone and detached. -/
lemma Inv.drops (h : Inv w) {p : ProxyMessagePipeEndpoint}
    (hpipe : w.pipes pipe = localProxy e (some p)) (hids : w'.ids = w.ids)
    (hran : ∀ other, other ≠ pipe → w'.ran other = w.ran other) (hsafe : w'.Safe)
    (hid : w.ids pipe = some p.localId)
    (hmap : w'.channel.localIdToEndpointInfoMap =
      Function.update w.channel.localIdToEndpointInfoMap p.localId none)
    (hpipes : w'.pipes = Function.update w.pipes pipe (localProxy e' none))
    (hends : Ends (w.ids pipe) (w'.ran pipe) e' none) : Inv w' where
  safe := hsafe
  ends := h.ends_called hids hran hpipes hends
  map := by
    intro localId other
    -- the identifier led to this pipe and to no other
    have hpoints : w.channel.localIdToEndpointInfoMap p.localId = some pipe :=
      (h.map p.localId pipe).mpr ⟨hid, by simp [hpipe, localProxy]⟩
    have hiff := h.map localId other
    by_cases heq : other = pipe
    · subst heq
      by_cases hlocal : localId = p.localId
      · subst hlocal
        simp [hmap, hpipes, localProxy]
      · have hne : ¬ w.ids other = some localId := by
          rw [hid, Option.some.injEq]
          exact fun heq => hlocal heq.symm
        rw [hmap, Function.update_of_ne hlocal, hiff, hids]
        simp [hne]
    · by_cases hlocal : localId = p.localId
      · subst hlocal
        have hnot : ¬ (w.ids other = some p.localId ∧ (w.pipes other).endpoint1 ≠ none) := by
          rw [← hiff, hpoints, Option.some.injEq]
          exact fun heq' => heq heq'.symm
        simpa [hmap, hids, hpipes, heq] using hnot
      · simpa [hmap, hids, hpipes, heq, hlocal] using hiff

end Calls

/-! ### One step -/

section Steps
variable {w w' : Process} {pipe : ℕ}

lemma dchecks_writeMessage (c : Channel) (message : Message) :
    (c.writeMessage message).1.dchecks = c.dchecks ∧
      (c.writeMessage message).1.crashed = c.crashed ∧
      (c.writeMessage message).1.localIdToEndpointInfoMap = c.localIdToEndpointInfoMap := by
  unfold Channel.writeMessage
  split_ifs
  · exact ⟨rfl, rfl, rfl⟩
  · exact ⟨rfl, rfl, rfl⟩

/-- The local port of a pipe that is open. -/
lemma Inv.ends_open (h : Inv w) (hopen : (w.pipes pipe).endpoint0 ≠ none) :
    ∃ l d, w.pipes pipe = localProxy (some l) d ∧ Ends (w.ids pipe) (w.ran pipe) (some l) d := by
  obtain ⟨e, d, hpipe, hends⟩ := h.ends pipe
  cases e with
  | none =>
    rw [hpipe] at hopen
    exact absurd rfl hopen
  | some l => exact ⟨l, d, hpipe, hends⟩

lemma Inv.write (h : Inv w) (hopen : (w.pipes pipe).endpoint0 ≠ none) (bytes : List Byte) :
    Inv (w.called pipe ((w.pipes pipe).writeMessage w.channel .zero bytes)) := by
  obtain ⟨l, d, hpipe, hends⟩ := h.ends_open hopen
  cases d with
  | none =>
    rw [hpipe, write_alone]
    exact h.keeps hpipe rfl (fun _ _ => rfl) h.safe rfl rfl rfl hends
  | some p =>
    obtain ⟨hisOpen, hpeer, hattached, hlocalId, hrunning⟩ := hends.proxyEnd p rfl
    cases hrun : p.isRunning with
    | false =>
      rw [hpipe, write_paused hisOpen hpeer hrun]
      refine h.keeps hpipe rfl (fun _ _ => rfl) h.safe rfl rfl rfl ?_
      exact
        { valid := hends.valid
          localEnd := hends.localEnd
          proxyEnd := by
            rintro q ⟨⟩
            exact ⟨hisOpen, hpeer, hattached, hlocalId, hrunning⟩
          running := fun hran => absurd (hrun.symm.trans (hrunning.trans hran)) (by simp)
          detached := hends.detached }
    | true =>
      rw [hpipe, write_running hisOpen hpeer hrun]
      obtain ⟨hdchecks, hcrashed, hmap⟩ := dchecks_writeMessage w.channel
        (p.address (.messagePipeEndpoint bytes))
      refine h.keeps hpipe rfl (fun _ _ => rfl) ?_ hmap rfl rfl hends
      exact ⟨hdchecks.trans h.safe.1, hcrashed.trans h.safe.2⟩

lemma Inv.read (h : Inv w) (hopen : (w.pipes pipe).endpoint0 ≠ none) (maxBytes : ℕ)
    (mayDiscard : Bool) :
    Inv (w.called pipe ((w.pipes pipe).readMessage w.channel .zero maxBytes mayDiscard)) := by
  obtain ⟨l, d, hpipe, hends⟩ := h.ends_open hopen
  obtain ⟨hisOpen, hpeer⟩ := hends.localEnd l rfl
  obtain ⟨hchannel, messages, rest, -, hend⟩ :=
    readMessage_cases (c := w.channel) hisOpen maxBytes mayDiscard
  rw [hpipe, read_localProxy, Called.map, hchannel, hend]
  refine h.keeps hpipe rfl (fun _ _ => rfl) h.safe rfl rfl rfl ?_
  exact
    { valid := hends.valid
      localEnd := by
        rintro m ⟨⟩
        exact ⟨hisOpen, hpeer⟩
      proxyEnd := hends.proxyEnd
      running := hends.running
      detached := hends.detached }

lemma Inv.close (h : Inv w) (hopen : (w.pipes pipe).endpoint0 ≠ none) :
    Inv (w.called pipe ((w.pipes pipe).close w.channel .zero)) := by
  obtain ⟨l, d, hpipe, hends⟩ := h.ends_open hopen
  obtain ⟨hl, -⟩ := hends.localEnd l rfl
  cases d with
  | none =>
    rw [hpipe, close_alone hl]
    refine h.keeps hpipe rfl (fun _ _ => rfl) h.safe rfl rfl rfl ?_
    exact
      { valid := hends.valid
        localEnd := by simp
        proxyEnd := by simp
        running := by simp
        detached := hends.detached }
  | some p =>
    obtain ⟨hisOpen, hpeer, hattached, hlocalId, hrunning⟩ := hends.proxyEnd p rfl
    cases hrun : p.isRunning with
    | false =>
      have hran : w.ran pipe = false := hrunning.symm.trans hrun
      rw [hpipe, close_paused hl hisOpen hpeer hrun]
      refine h.keeps hpipe rfl (fun _ _ => rfl) h.safe rfl rfl rfl ?_
      exact
        { valid := hends.valid
          localEnd := by simp
          proxyEnd := by
            rintro q ⟨⟩
            exact ⟨hisOpen, rfl, hattached, hlocalId, hrunning⟩
          running := fun hran' => absurd (hran.symm.trans hran') (by simp)
          detached := fun _ => ⟨rfl, hran⟩ }
    | true =>
      obtain ⟨-, hsome, hpaused⟩ := hends.running (hrunning.symm.trans hrun) p rfl
      obtain ⟨localId, hid⟩ := Option.isSome_iff_exists.mp hsome
      rw [hpipe, close_running hl hisOpen hpeer (hattached.trans hsome) hrun hpaused]
      obtain ⟨hdchecks, hcrashed, hmap⟩ := dchecks_writeMessage w.channel (p.address .peerClosed)
      refine h.drops hpipe rfl (fun _ _ => rfl) ⟨hdchecks.trans h.safe.1, hcrashed.trans h.safe.2⟩
        (by rw [hlocalId localId hid, hid]) ?_ rfl ?_
      · rw [Channel.detachMessagePipeEndpoint, hmap]
        rfl
      · exact
          { valid := hends.valid
            localEnd := by simp
            proxyEnd := by simp
            running := by simp
            detached := by simp [hid] }

/-- The proxy of the pipe that an identifier leads to. -/
lemma Inv.ends_found (h : Inv w) {localId : EndpointId}
    (hmap : w.channel.localIdToEndpointInfoMap localId = some pipe) :
    ∃ e p, w.pipes pipe = localProxy e (some p) ∧ Ends (w.ids pipe) (w.ran pipe) e (some p) ∧
      w.ids pipe = some localId := by
  obtain ⟨hid, hproxy⟩ := (h.map localId pipe).mp hmap
  obtain ⟨e, d, hpipe, hends⟩ := h.ends pipe
  cases d with
  | none =>
    rw [hpipe] at hproxy
    exact absurd rfl hproxy
  | some p => exact ⟨e, p, hpipe, hends, hid⟩

lemma findEndpointInfo_eq_some {c : Channel} {destinationId : EndpointId}
    (h : c.findEndpointInfo destinationId = some pipe) :
    c.localIdToEndpointInfoMap destinationId = some pipe := by
  unfold Channel.findEndpointInfo at h
  split_ifs at h
  exact h

lemma Inv.receiveData (h : Inv w) {destinationId : EndpointId} {bytes : List Byte}
    (hcareful : w.Careful (.receiveData destinationId bytes)) :
    Inv (w.onReadMessageForDownstream destinationId (.messagePipeEndpoint bytes)) := by
  unfold Process.onReadMessageForDownstream
  split
  · exact h
  · next pipe hfind =>
    have hopen : (w.pipes pipe).endpoint0 ≠ none := by
      rw [Process.Careful, hfind] at hcareful
      exact hcareful
    obtain ⟨e, p, hpipe, hends, hid⟩ := h.ends_found (findEndpointInfo_eq_some hfind)
    cases e with
    | none =>
      rw [hpipe] at hopen
      exact absurd rfl hopen
    | some l =>
      obtain ⟨hl, hpeer⟩ := hends.localEnd l rfl
      rw [hpipe, receive_data hl, hpeer]
      refine h.keeps hpipe rfl (fun _ _ => rfl) ?_ rfl rfl rfl ?_
      · simpa [Process.Safe, Process.called] using h.safe
      · exact
          { valid := hends.valid
            localEnd := by
              rintro m ⟨⟩
              exact ⟨hl, rfl⟩
            proxyEnd := hends.proxyEnd
            running := hends.running
            detached := hends.detached }

lemma Inv.receivePeerClosed (h : Inv w) (destinationId : EndpointId) :
    Inv (w.onReadMessageForDownstream destinationId .peerClosed) := by
  unfold Process.onReadMessageForDownstream
  split
  · exact h
  · next pipe hfind =>
    obtain ⟨e, p, hpipe, hends, hid⟩ := h.ends_found (findEndpointInfo_eq_some hfind)
    obtain ⟨hisOpen, -, hattached, hlocalId, -⟩ := hends.proxyEnd p rfl
    rw [hpipe, receive_peerClosed hisOpen (by rw [hattached, hid]; rfl)
      (fun l hl => hends.localEnd l hl)]
    refine h.drops hpipe rfl (fun _ _ => rfl) h.safe (by rw [hlocalId _ hid, hid]) rfl rfl ?_
    exact
      { valid := hends.valid
        localEnd := by
          intro l hl
          obtain ⟨m, hm, rfl⟩ := Option.map_eq_some_iff.mp hl
          exact ⟨(hends.localEnd m hm).1, rfl⟩
        proxyEnd := by simp
        running := by simp
        detached := by simp [hid] }

lemma careful_run {remoteId : EndpointId} (h : w.Careful (.run pipe remoteId)) :
    ∃ d, (w.pipes pipe).endpoint1 = some (.proxyEndpoint d) ∧
      ((w.pipes pipe).endpoint0 = none →
        ∀ message ∈ d.pausedMessageQueue, message.body.isMessagePipe = true) := by
  simp only [Process.Careful] at h
  split at h
  · next d hproxy => exact ⟨d, hproxy, h⟩
  · exact h.elim

lemma Inv.run (h : Inv w) {remoteId : EndpointId} (henabled : w.Enabled (.run pipe remoteId))
    (hcareful : w.Careful (.run pipe remoteId)) (hnext : w.next (.run pipe remoteId) = some w') :
    Inv w' := by
  obtain ⟨hattach, hran, hremote⟩ := henabled
  obtain ⟨localId, hid⟩ := Option.ne_none_iff_exists'.mp hattach
  obtain ⟨p, hproxy, hpaused⟩ := careful_run hcareful
  have hfound : w.channel.localIdToEndpointInfoMap localId = some pipe :=
    (h.map localId pipe).mpr ⟨hid, by simp [hproxy]⟩
  obtain ⟨e, q, hpipe, hends, -⟩ := h.ends_found hfound
  have hpq : q = p := by
    rw [hpipe] at hproxy
    simpa [localProxy] using hproxy
  subst hpq
  obtain ⟨hisOpen, hpeer, hattached, hlocalId, hrunning⟩ := hends.proxyEnd q rfl
  have hrun : q.isRunning = false := hrunning.trans hran
  have hrun' : { q with remoteId := remoteId }.isRunning = true := by
    simpa [ProxyMessagePipeEndpoint.isRunning] using hremote
  have hatt : q.isAttached = true := by rw [hattached, hid]; rfl
  simp only [Process.next, hid, Option.map_some, Option.some.injEq,
    Process.runMessagePipeEndpoint, hfound] at hnext
  subst hnext
  cases e with
  | some l =>
    rw [hpipe, run_peer_open hremote hatt hrun hpeer, enqueueAll_eq hrun']
    refine h.keeps hpipe rfl (fun other hne => by simp [hne]) ?_ rfl rfl rfl ?_
    · have hsafe := h.safe
      simp only [Process.Safe] at hsafe
      simp [Process.Safe, Process.called, hsafe, hisOpen, hpeer]
    · exact
        { valid := hends.valid
          localEnd := hends.localEnd
          proxyEnd := by
            rintro r ⟨⟩
            exact ⟨hisOpen, hpeer, hattached, hlocalId,
              hrun'.trans (Function.update_self pipe true w.ran).symm⟩
          running := by
            rintro - r ⟨⟩
            exact ⟨rfl, by simp [hid], rfl⟩
          detached := by simp [hid] }
  | none =>
    rw [hpipe, run_peer_closed hremote hisOpen hatt hrun hpeer, enqueueAll_eq hrun']
    refine h.drops hpipe rfl (fun other hne => by simp [hne]) ?_ (by rw [hlocalId _ hid, hid])
      rfl rfl ?_
    · have hcontrol := hpaused (by simp [hpipe, localProxy])
      have hsafe := h.safe
      simp only [Process.Safe] at hsafe
      simpa [Process.Safe, Process.called, Channel.detachMessagePipeEndpoint, hsafe, hisOpen,
        hpeer] using hcontrol
    · exact
        { valid := hends.valid
          localEnd := by simp
          proxyEnd := by simp
          running := by simp
          detached := by simp [hid] }

lemma Inv.attach (h : Inv w) (henabled : w.ids pipe = none)
    (hnext : w.attachMessagePipeEndpoint pipe = some w') : Inv w' := by
  obtain ⟨⟨localId, c⟩, halloc, heq⟩ := Option.map_eq_some_iff.mp hnext
  obtain ⟨⟨hvalid, hfree⟩, hc⟩ := allocateId_eq_some halloc
  subst heq
  dsimp only
  obtain ⟨e, d, hpipe, hends⟩ := h.ends pipe
  obtain ⟨hsome, hran⟩ := hends.detached henabled
  obtain ⟨p, rfl⟩ := Option.isSome_iff_exists.mp hsome
  obtain ⟨hisOpen, hpeer, hattached, -, hrunning⟩ := hends.proxyEnd p rfl
  rw [henabled] at hattached
  rw [hpipe, attach_localProxy hvalid hattached]
  constructor
  · rw [hc]
    exact h.safe
  · intro other
    by_cases heq : other = pipe
    · subst heq
      refine ⟨e, some { p with isAttached := true, localId := localId },
        by simp [Process.called], ?_⟩
      simp only [Process.called, Function.update_self]
      exact
        { valid := by
            rintro found ⟨⟩
            exact hvalid
          localEnd := hends.localEnd
          proxyEnd := by
            rintro q ⟨⟩
            exact ⟨hisOpen, hpeer, rfl, by simp, hrunning⟩
          running := fun hran' => absurd (hran.symm.trans hran') (by simp)
          detached := by simp }
    · obtain ⟨a, b, hother, hends'⟩ := h.ends other
      exact ⟨a, b, by simp [Process.called, heq, hother],
        by simpa [Process.called, heq] using hends'⟩
  · intro found other
    have hiff := h.map found other
    by_cases hfound : found = localId
    · subst hfound
      rw [hfree] at hiff
      by_cases heq : other = pipe
      · subst heq
        simp [Process.called, hc, localProxy]
      · have hne : ¬ pipe = other := fun h => heq h.symm
        simpa [Process.called, hc, heq, hne] using hiff
    · by_cases heq : other = pipe
      · subst heq
        have hne : ¬ localId = found := fun h => hfound h.symm
        simpa [Process.called, hc, hfound, hne, henabled] using hiff
      · simpa [Process.called, hc, hfound, heq] using hiff

/-- A step that takes care keeps the invariant. -/
lemma Inv.step (h : Inv w) {e : Event} (hstep : w.CarefulStep e w') : Inv w' := by
  obtain ⟨⟨henabled, hnext⟩, hcareful⟩ := hstep
  cases e with
  | attach pipe => exact h.attach henabled hnext
  | run pipe remoteId => exact h.run henabled hcareful hnext
  | write pipe bytes =>
    cases hnext
    exact h.write henabled bytes
  | read pipe maxBytes mayDiscard =>
    cases hnext
    exact h.read henabled maxBytes mayDiscard
  | close pipe =>
    cases hnext
    exact h.close henabled
  | receiveData destinationId bytes =>
    cases hnext
    exact h.receiveData hcareful
  | receivePeerClosed destinationId =>
    cases hnext
    exact h.receivePeerClosed destinationId
  | rawChannelDies =>
    cases hnext
    exact ⟨h.safe, h.ends, h.map⟩

end Steps

/-- Along every run whose steps take care no check fails and the process does not crash. -/
theorem careful_runs_safe {es : List Event} {w : Process}
    (h : Reaches Process.CarefulStep Process.initial es w) : w.Safe :=
  (h.invariant Inv inv_initial fun _ _ _ ht hstep => ht.step hstep).safe

/-- A pipe is attached, run, written to and closed by the other side. -/
theorem careful_runs_safe_exchange : ∃ w, Reaches Process.CarefulStep Process.initial
    [.attach 0, .run 0 1, .write 0 [7], .receiveData 1 [8], .receivePeerClosed 1, .close 0] w ∧
      w.Safe := by
  have hrun : Reaches Process.CarefulStep Process.initial
      [.attach 0, .run 0 1, .write 0 [7], .receiveData 1 [8], .receivePeerClosed 1, .close 0] _ :=
    .cons ⟨⟨by decide +kernel, rfl⟩, trivial⟩ <|
    .cons ⟨⟨by decide +kernel, rfl⟩, fun hnone => absurd hnone (Option.some_ne_none _)⟩ <|
    .cons ⟨⟨by decide +kernel, rfl⟩, trivial⟩ <|
    .cons ⟨⟨trivial, rfl⟩, Option.some_ne_none _⟩ <|
    .cons ⟨⟨trivial, rfl⟩, trivial⟩ <|
    .cons ⟨⟨by decide +kernel, rfl⟩, trivial⟩ .refl
  exact ⟨_, hrun, careful_runs_safe hrun⟩

/-- Data comes in for a port that was closed before the pipe is run. -/
theorem data_crashes_closed_port :
    ¬ ∀ es w, Reaches Process.Step Process.initial es w → w.Safe := by
  intro hall
  have hrun : Reaches Process.Step Process.initial
      [.attach 0, .close 0, .receiveData 1 [8]] _ :=
    .cons ⟨by decide +kernel, rfl⟩ <| .cons ⟨by decide +kernel, rfl⟩ <| .cons ⟨trivial, rfl⟩ .refl
  exact absurd (hall _ _ hrun).2 (by decide +kernel)

end Chromium.MojoChannel
