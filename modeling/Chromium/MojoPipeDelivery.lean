import Chromium.MojoMessagePipe
import Chromium.Runs

/-!
# Message pipes across a channel

Two processes, each with a message pipe whose port 1 is attached to a channel, and the channels
joined by a queue in each direction. What a lock protects is one step. A process that crashes
takes no further step; a check of the debug build is passed over, as in a release.
-/
namespace Chromium.MojoPipeDelivery

open WireFormat MojoMessagePipe Runs

/-- One process: the call that attaches and the call that runs are made in two sections each, and
so is the handling of a message, which stays in `arriving` meanwhile. The messages that were
written with success are recorded, and those that were removed by reading. -/
structure Side where
  channel : Channel
  pipe : MessagePipe
  localId : Option EndpointId
  attached : Bool
  foundToRun : Bool
  ran : Bool
  arriving : Option Body
  written : List (List Byte)
  removed : List (List Byte)

namespace Side

def initial : Side :=
  ⟨.initial, localProxy (some .new) (some .new), none, false, false, false, none, [], []⟩

/-- A call on the pipe was made. -/
def called {α : Type} (a : Side) (called : Called MessagePipe α) : Side :=
  { a with channel := called.channel, pipe := called.endpoint }

def localEnd (a : Side) : Option LocalMessagePipeEndpoint :=
  match a.pipe.endpoint0 with
  | some (.localEndpoint l) => some l
  | _ => none

def proxyEnd (a : Side) : Option ProxyMessagePipeEndpoint :=
  match a.pipe.endpoint1 with
  | some (.proxyEndpoint p) => some p
  | _ => none

/-- The data that waits to be read. -/
def queue (a : Side) : List (List Byte) :=
  match a.localEnd with
  | some l => l.messageQueue.map fun message => message.body.data
  | none => []

def allocate (a : Side) : Option Side :=
  (a.channel.allocateId 0).map fun allocated =>
    { a with channel := allocated.2, localId := some allocated.1 }

def attach (a : Side) : Option Side :=
  a.localId.map fun localId =>
    { a.called (a.pipe.attach a.channel .one localId) with attached := true }

def write (a : Side) (bytes : List Byte) : Side :=
  let called := a.pipe.writeMessage a.channel .zero bytes
  { a.called called with
    written := if called.result = .ok then a.written ++ [bytes] else a.written }

/-- What is not in the queue any more was removed from its front. -/
def read (a : Side) (maxBytes : ℕ) (mayDiscard : Bool) : Side :=
  let after := a.called (a.pipe.readMessage a.channel .zero maxBytes mayDiscard)
  { after with
    removed := a.removed ++ a.queue.take (a.queue.length - after.queue.length) }

def close (a : Side) : Side := a.called (a.pipe.close a.channel .zero)

/-- The first section of `RunMessagePipeEndpoint`. -/
def findToRun (a : Side) : Option Side :=
  a.localId.map fun localId =>
    match a.channel.localIdToEndpointInfoMap localId with
    | none => { a with channel := a.channel.crash }
    | some _ => { a with foundToRun := true }

def run (a : Side) (remoteId : EndpointId) : Side :=
  { a.called (a.pipe.run a.channel .one remoteId) with ran := true }

/-- A message comes in. When no endpoint is found for it, it is dropped. -/
def arrive (a : Side) (message : Message) : Side :=
  { a with
    arriving := (a.channel.findEndpointInfo message.destinationId).map fun _ => message.body }

def deliver (a : Side) (body : Body) : Side :=
  { a.called (a.channel.enqueueForDownstream a.pipe body) with arriving := none }

end Side

inductive Event
  | allocate
  | attach
  | write (bytes : List Byte)
  | read (maxBytes : ℕ) (mayDiscard : Bool)
  | close
  | findToRun
  | run
  | arrive
  | deliver

/-- The two processes. -/
abbrev World := Bool → Side

namespace World

def initial : World := fun _ => .initial

/-- Run is called on a side after both sides have attached. -/
def Enabled (w : World) (side : Bool) (e : Event) : Prop :=
  (w side).channel.crashed = false ∧
    match e with
    | .allocate => (w side).localId = none
    | .attach => (w side).localId ≠ none ∧ (w side).attached = false
    | .write _ => (w side).pipe.endpoint0 ≠ none
    | .read _ _ => (w side).pipe.endpoint0 ≠ none
    | .close => (w side).pipe.endpoint0 ≠ none
    | .findToRun =>
      (w side).attached = true ∧ (w !side).attached = true ∧ (w side).foundToRun = false
    | .run => (w side).foundToRun = true ∧ (w side).ran = false
    | .arrive => (w side).arriving = none
    | .deliver => True

def next (w : World) (side : Bool) : Event → Option World
  | .allocate => (w side).allocate.map (Function.update w side)
  | .attach => (w side).attach.map (Function.update w side)
  | .write bytes => some (Function.update w side ((w side).write bytes))
  | .read maxBytes mayDiscard => some (Function.update w side ((w side).read maxBytes mayDiscard))
  | .close => some (Function.update w side (w side).close)
  | .findToRun => (w side).findToRun.map (Function.update w side)
  | .run =>
    (w !side).localId.map fun remoteId => Function.update w side ((w side).run remoteId)
  | .arrive =>
    match (w !side).channel.outgoing with
    | [] => none
    | message :: rest =>
      let sender := { w !side with channel := { (w !side).channel with outgoing := rest } }
      some (Function.update (Function.update w (!side) sender) side ((w side).arrive message))
  | .deliver =>
    (w side).arriving.map fun body => Function.update w side ((w side).deliver body)

def Step (w : World) (e : Bool × Event) (w' : World) : Prop :=
  w.Enabled e.1 e.2 ∧ w.next e.1 e.2 = some w'

end World

/-! ### The invariant -/

namespace Side

/-- The messages on their way to the other side. -/
def sent (a : Side) : List Body := a.channel.outgoing.map Message.body

/-- The messages that wait in the proxy. -/
def paused (a : Side) : List Body :=
  match a.proxyEnd with
  | some p => p.pausedMessageQueue.map Message.body
  | none => []

end Side

/-- What holds of one side. -/
structure Proper (a : Side) : Prop where
  kind : a.pipe = localProxy a.localEnd a.proxyEnd
  localEnd : ∀ l, a.localEnd = some l → l.isOpen = true ∧ l.isPeerOpen = a.proxyEnd.isSome
  proxyEnd : ∀ p, a.proxyEnd = some p → p.isOpen = true ∧ p.isPeerOpen = a.localEnd.isSome ∧
    p.isAttached = a.attached ∧ p.isRunning = a.ran
  localId : a.attached = true → ∀ p, a.proxyEnd = some p → a.localId = some p.localId
  running : a.ran = true → ∀ p, a.proxyEnd = some p → p.pausedMessageQueue = []
  alive : a.channel.isDead = false
  map : ∀ id, a.localId = some id → id ≠ kInvalidEndpointId ∧
    (a.proxyEnd ≠ none → a.channel.localIdToEndpointInfoMap id = some 0)
  allocated : a.attached = true → a.localId ≠ none
  found : a.foundToRun = true → a.attached = true
  ran : a.ran = true → a.foundToRun = true

/-- The messages between the pipe of `a` and the pipe of `b`. -/
def stream (a b : Side) : List Body := b.arriving.toList ++ (a.sent ++ a.paused)

/-- The notice that `a` was closed, while `b` does not know yet. -/
def notice (a : Side) (l : LocalMessagePipeEndpoint) : List Body :=
  if a.localEnd = none ∧ l.isPeerOpen = true then [.peerClosed] else []

/-- What holds of the messages from `a` to `b`. While `b` is open, they are those that were
removed, those in the queue, and those on the way with the notice at their end. -/
structure Linked (a b : Side) : Prop where
  attached : b.arriving ≠ none ∨ a.channel.outgoing ≠ [] ∨ a.foundToRun = true →
    a.attached = true ∧ b.attached = true
  address : ∀ message ∈ a.channel.outgoing, b.localId = some message.destinationId
  remote : a.ran = true → ∀ p, a.proxyEnd = some p → b.localId = some p.remoteId
  closed : ∀ body ∈ stream a b, body.isMessagePipe = true →
    body = .peerClosed ∧ a.localEnd = none
  gone : a.proxyEnd = none → a.localEnd = none ∨ b.localEnd = none
  passed : b.removed <+: a.written
  flow : ∀ l, b.localEnd = some l → ∃ data : List (List Byte),
    b.removed ++ (b.queue ++ data) = a.written ∧
      stream a b = data.map .messagePipeEndpoint ++ notice a l ∧
      (l.isPeerOpen = false → a.localEnd = none ∧ data = [])

/-- The invariant of both sides. -/
structure Inv (w : World) : Prop where
  proper : ∀ side, Proper (w side)
  linked : ∀ side, Linked (w side) (w !side)

section Sides
variable {a a' b b' : Side}

lemma localEnd_of_pipe {e : Option LocalMessagePipeEndpoint}
    {d : Option ProxyMessagePipeEndpoint} (h : a.pipe = localProxy e d) : a.localEnd = e := by
  rw [Side.localEnd, h]
  cases e <;> rfl

lemma proxyEnd_of_pipe {e : Option LocalMessagePipeEndpoint}
    {d : Option ProxyMessagePipeEndpoint} (h : a.pipe = localProxy e d) : a.proxyEnd = d := by
  rw [Side.proxyEnd, h]
  cases d <;> rfl

lemma endpoint0_ne_none (h : Proper a) (hopen : a.pipe.endpoint0 ≠ none) :
    ∃ l, a.localEnd = some l := by
  cases hl : a.localEnd with
  | none =>
    rw [h.kind, hl] at hopen
    exact absurd rfl hopen
  | some l => exact ⟨l, rfl⟩

/-- The sender is left alone. -/
lemma Linked.receiver (h : Linked a b) (harriving : b'.arriving = b.arriving)
    (hattached : b.attached = true → b'.attached = true) (hid : b'.localId = b.localId)
    (hremoved : b'.removed = b.removed)
    (hlocal : b'.localEnd = b.localEnd ∨ b'.localEnd = none) : Linked a b' where
  attached := by
    rw [harriving]
    exact fun hused => ⟨(h.attached hused).1, hattached (h.attached hused).2⟩
  address := by
    rw [hid]
    exact h.address
  remote := by
    rw [hid]
    exact h.remote
  closed := by
    rw [stream, harriving]
    exact h.closed
  gone := by
    intro hgone
    rcases hlocal with hsame | hnone
    · rw [hsame]
      exact h.gone hgone
    · exact Or.inr hnone
  passed := by
    rw [hremoved]
    exact h.passed
  flow := by
    intro l hl
    rcases hlocal with hsame | hnone
    · rw [hsame] at hl
      rw [stream, harriving, hremoved, Side.queue, hsame]
      exact h.flow l hl
    · rw [hnone] at hl
      cases hl

/-- The receiver is left alone. -/
lemma Linked.sender (h : Linked a b) (houtgoing : a'.channel.outgoing = a.channel.outgoing)
    (hattached : a.attached = true → a'.attached = true)
    (hfound : a'.foundToRun = true → a'.attached = true ∧ b.attached = true)
    (hremote : a'.ran = true → ∀ p, a'.proxyEnd = some p → b.localId = some p.remoteId)
    (hpaused : a'.paused = a.paused) (hgone : a'.proxyEnd = none → a.proxyEnd = none)
    (hlocal : a'.localEnd = none ↔ a.localEnd = none) (hwritten : a'.written = a.written) :
    Linked a' b := by
  have hstream : stream a' b = stream a b := by
    rw [stream, stream, Side.sent, Side.sent, houtgoing, hpaused]
  constructor
  · rw [houtgoing]
    rintro (harriving | hout | hf)
    · have := h.attached (Or.inl harriving)
      exact ⟨hattached this.1, this.2⟩
    · have := h.attached (Or.inr (Or.inl hout))
      exact ⟨hattached this.1, this.2⟩
    · exact hfound hf
  · rw [houtgoing]
    exact h.address
  · exact hremote
  · rw [hstream, hlocal]
    exact h.closed
  · rw [hlocal]
    exact fun hnone => h.gone (hgone hnone)
  · rw [hwritten]
    exact h.passed
  · rw [hstream, hwritten, hlocal]
    simpa only [notice, hlocal] using h.flow

/-- The two ends of a side that was changed. -/
lemma proper_of {e : Option LocalMessagePipeEndpoint} {d : Option ProxyMessagePipeEndpoint}
    (hpipe : a.pipe = localProxy e d)
    (hlocal : ∀ l, e = some l → l.isOpen = true ∧ l.isPeerOpen = d.isSome)
    (hproxy : ∀ p, d = some p → p.isOpen = true ∧ p.isPeerOpen = e.isSome ∧
      p.isAttached = a.attached ∧ p.isRunning = a.ran)
    (hid : a.attached = true → ∀ p, d = some p → a.localId = some p.localId)
    (hpaused : a.ran = true → ∀ p, d = some p → p.pausedMessageQueue = [])
    (halive : a.channel.isDead = false)
    (hmap : ∀ id, a.localId = some id → id ≠ kInvalidEndpointId ∧
      (d ≠ none → a.channel.localIdToEndpointInfoMap id = some 0))
    (hallocated : a.attached = true → a.localId ≠ none)
    (hfound : a.foundToRun = true → a.attached = true)
    (hran : a.ran = true → a.foundToRun = true) : Proper a := by
  have hl := localEnd_of_pipe hpipe
  have hd := proxyEnd_of_pipe hpipe
  subst hl
  subst hd
  exact ⟨hpipe, hlocal, hproxy, hid, hpaused, halive, hmap, hallocated, hfound, hran⟩

/-! ### Attaching -/

lemma Proper.allocate (h : Proper a) (hnone : a.localId = none) (hnext : a.allocate = some a') :
    Proper a' := by
  obtain ⟨⟨id, c⟩, halloc, rfl⟩ := Option.map_eq_some_iff.mp hnext
  obtain ⟨⟨hvalid, -⟩, rfl⟩ := allocateId_eq_some halloc
  have hattached : a.attached = false := by
    by_contra hatt
    exact h.allocated (by simpa using hatt) hnone
  refine proper_of h.kind h.localEnd h.proxyEnd ?_ h.running h.alive ?_ (by simp) h.found h.ran
  · intro hatt
    rw [hattached] at hatt
    cases hatt
  · rintro found ⟨⟩
    exact ⟨hvalid, fun _ => Function.update_self _ _ _⟩

lemma Linked.allocate (h : Linked a b) (hnext : a.allocate = some a') : Linked a' b := by
  obtain ⟨⟨localId, c⟩, halloc, rfl⟩ := Option.map_eq_some_iff.mp hnext
  obtain ⟨-, rfl⟩ := allocateId_eq_some halloc
  exact h.sender rfl id (fun hf => h.attached (Or.inr (Or.inr hf))) h.remote rfl id Iff.rfl rfl

/-- Nothing was sent to a side before it has an identifier. -/
lemma Linked.allocate_receiver (h : Linked a b) (ha : Proper a) (hb : Proper b)
    (hnone : b.localId = none) (hnext : b.allocate = some b') : Linked a b' := by
  obtain ⟨⟨id, c⟩, halloc, rfl⟩ := Option.map_eq_some_iff.mp hnext
  have hattached : ¬ b.attached = true := fun hatt => hb.allocated hatt hnone
  exact
    { attached := h.attached
      address := fun message hmem =>
        absurd (h.attached (Or.inr (Or.inl (List.ne_nil_of_mem hmem)))).2 hattached
      remote := fun hran => absurd (h.attached (Or.inr (Or.inr (ha.ran hran)))).2 hattached
      closed := h.closed
      gone := h.gone
      passed := h.passed
      flow := h.flow }

lemma Side.attach_cases (h : Proper a) (hattached : a.attached = false)
    (hnext : a.attach = some a') : ∃ localId, a.localId = some localId ∧
      ((a.proxyEnd = none ∧
          a' = { a with channel := (a.channel.check false).crash, attached := true }) ∨
        ∃ p, a.proxyEnd = some p ∧ a' = { a with
          pipe := localProxy a.localEnd (some { p with isAttached := true, localId := localId })
          attached := true }) := by
  obtain ⟨localId, hid, rfl⟩ := Option.map_eq_some_iff.mp hnext
  obtain ⟨hvalid, -⟩ := h.map localId hid
  refine ⟨localId, hid, ?_⟩
  cases hd : a.proxyEnd with
  | none =>
    left
    refine ⟨rfl, ?_⟩
    rw [h.kind, hd, attach_gone hvalid]
    simp only [Side.called]
  | some p =>
    right
    refine ⟨p, rfl, ?_⟩
    obtain ⟨-, -, hatt, -⟩ := h.proxyEnd p hd
    rw [h.kind, hd, attach_localProxy hvalid (hatt.trans hattached)]
    rfl

lemma Proper.attach (h : Proper a) (hattached : a.attached = false)
    (hnext : a.attach = some a') : Proper a' := by
  obtain ⟨localId, hid, ⟨hd, rfl⟩ | ⟨p, hd, rfl⟩⟩ := Side.attach_cases h hattached hnext
  · refine proper_of h.kind h.localEnd ?_ ?_ ?_ h.alive h.map (by simp [hid]) (by simp) h.ran
    · simp [hd]
    · simp [hd]
    · simp [hd]
  · obtain ⟨hisOpen, hpeer, -, hrunning⟩ := h.proxyEnd p hd
    refine proper_of rfl ?_ ?_ ?_ ?_ h.alive ?_ (by simp [hid]) (by simp) h.ran
    · intro l hl
      obtain ⟨hopen, hpeer'⟩ := h.localEnd l hl
      exact ⟨hopen, by rw [hpeer', hd]; rfl⟩
    · rintro q ⟨⟩
      exact ⟨hisOpen, hpeer, rfl, hrunning⟩
    · rintro - q ⟨⟩
      exact hid
    · rintro hran q ⟨⟩
      exact h.running hran p hd
    · intro found hfound
      obtain ⟨hvalid, hmap⟩ := h.map found hfound
      exact ⟨hvalid, fun _ => hmap (by simp [hd])⟩

lemma Linked.attach (h : Linked a b) (ha : Proper a) (hattached : a.attached = false)
    (hnext : a.attach = some a') : Linked a' b := by
  obtain ⟨localId, hid, ⟨hd, rfl⟩ | ⟨p, hd, rfl⟩⟩ := Side.attach_cases ha hattached hnext
  · exact h.sender rfl (fun _ => rfl) (fun hf => ⟨rfl, (h.attached (Or.inr (Or.inr hf))).2⟩)
      h.remote rfl id Iff.rfl rfl
  · refine h.sender rfl (fun _ => rfl) (fun hf => ⟨rfl, (h.attached (Or.inr (Or.inr hf))).2⟩)
      ?_ ?_ ?_ ?_ rfl
    · intro hran q hq
      rw [proxyEnd_of_pipe rfl] at hq
      cases hq
      exact h.remote hran p hd
    · rw [Side.paused, Side.paused, hd, proxyEnd_of_pipe rfl]
    · rw [proxyEnd_of_pipe rfl]
      simp
    · rw [localEnd_of_pipe rfl]

lemma Linked.attach_receiver (h : Linked a b) (hb : Proper b) (hattached : b.attached = false)
    (hnext : b.attach = some b') : Linked a b' := by
  obtain ⟨localId, hid, ⟨hd, rfl⟩ | ⟨p, hd, rfl⟩⟩ := Side.attach_cases hb hattached hnext
  · exact h.receiver rfl (fun _ => rfl) rfl rfl (Or.inl rfl)
  · exact h.receiver rfl (fun _ => rfl) rfl rfl (Or.inl (localEnd_of_pipe rfl))

/-! ### Writing -/

lemma Side.write_cases (h : Proper a) {l : LocalMessagePipeEndpoint} (hl : a.localEnd = some l)
    (bytes : List Byte) :
    (a.proxyEnd = none ∧ a.write bytes = a) ∨
      (∃ p, a.proxyEnd = some p ∧ a.ran = false ∧ a.write bytes = { a with
        pipe := localProxy (some l) (some { p with
          pausedMessageQueue :=
            p.pausedMessageQueue ++ [.create (.messagePipeEndpoint bytes)] })
        written := a.written ++ [bytes] }) ∨
      ∃ p, a.proxyEnd = some p ∧ a.ran = true ∧ a.write bytes = { a with
        channel := { a.channel with
          outgoing := a.channel.outgoing ++ [p.address (.messagePipeEndpoint bytes)] }
        written := a.written ++ [bytes] } := by
  have hkind := h.kind
  rw [hl] at hkind
  cases hd : a.proxyEnd with
  | none =>
    left
    rw [hd] at hkind
    refine ⟨rfl, ?_⟩
    unfold Side.write
    rw [hkind, write_alone]
    simp only [Side.called, reduceCtorEq, if_false]
    rw [← hkind]
  | some p =>
    right
    rw [hd] at hkind
    obtain ⟨hisOpen, hpeer, -, hrunning⟩ := h.proxyEnd p hd
    rw [hl] at hpeer
    cases hran : a.ran with
    | false =>
      left
      refine ⟨p, rfl, rfl, ?_⟩
      unfold Side.write
      rw [hkind, write_paused hisOpen hpeer (hrunning.trans hran)]
      simp [Side.called, hran]
    | true =>
      right
      refine ⟨p, rfl, rfl, ?_⟩
      unfold Side.write
      rw [hkind, write_running hisOpen hpeer (hrunning.trans hran)]
      simp [Side.called, hran, Channel.writeMessage, h.alive]

lemma Proper.write (h : Proper a) {l : LocalMessagePipeEndpoint} (hl : a.localEnd = some l)
    (bytes : List Byte) : Proper (a.write bytes) := by
  rcases Side.write_cases h hl bytes with ⟨-, heq⟩ | ⟨p, hd, hran, heq⟩ | ⟨p, hd, hran, heq⟩
  · rwa [heq]
  · rw [heq]
    obtain ⟨hisOpen, hpeer, hattached, hrunning⟩ := h.proxyEnd p hd
    refine proper_of rfl ?_ ?_ ?_ ?_ h.alive ?_ h.allocated h.found h.ran
    · rintro m ⟨⟩
      obtain ⟨hopen, hpeer'⟩ := h.localEnd l hl
      exact ⟨hopen, by rw [hpeer', hd]; rfl⟩
    · rintro q ⟨⟩
      exact ⟨hisOpen, by rw [hpeer, hl], hattached, hrunning⟩
    · rintro hatt q ⟨⟩
      exact h.localId hatt p hd
    · rintro hran' q ⟨⟩
      rw [hran] at hran'
      cases hran'
    · intro found hfound
      obtain ⟨hvalid, hmap⟩ := h.map found hfound
      exact ⟨hvalid, fun _ => hmap (by simp [hd])⟩
  · rw [heq]
    exact ⟨h.kind, h.localEnd, h.proxyEnd, h.localId, h.running, h.alive, h.map, h.allocated,
      h.found, h.ran⟩

/-- A message is added at the end of the stream. -/
lemma Linked.pushes (h : Linked a b) (hopen : a.localEnd ≠ none) {bytes : List Byte}
    (hstream : stream a' b = stream a b ++ [.messagePipeEndpoint bytes])
    (hlocal : a'.localEnd ≠ none) (hproxy : a'.proxyEnd ≠ none)
    (hattached : a'.channel.outgoing ≠ [] ∨ a'.foundToRun = true →
      a'.attached = true ∧ b.attached = true)
    (haddress : ∀ message ∈ a'.channel.outgoing, b.localId = some message.destinationId)
    (hremote : a'.ran = true → ∀ p, a'.proxyEnd = some p → b.localId = some p.remoteId)
    (hatt : a'.attached = a.attached) (hwritten : a'.written = a.written ++ [bytes]) :
    Linked a' b where
  attached := by
    rintro (harriving | hused)
    · rw [hatt]
      exact h.attached (Or.inl harriving)
    · exact hattached hused
  address := haddress
  remote := hremote
  closed := by
    intro body hmem hcontrol
    rw [hstream, List.mem_append, List.mem_singleton] at hmem
    rcases hmem with hmem | rfl
    · exact absurd (h.closed body hmem hcontrol).2 hopen
    · cases hcontrol
  gone := fun hgone => absurd hgone hproxy
  passed := by
    rw [hwritten]
    exact h.passed.trans (List.prefix_append _ _)
  flow := by
    intro l hl
    obtain ⟨data, hdata, hflow, hpeer⟩ := h.flow l hl
    refine ⟨data ++ [bytes], ?_, ?_, fun hclosed => absurd (hpeer hclosed).1 hopen⟩
    · rw [hwritten, ← hdata]
      simp only [List.append_assoc]
    · have hnotice : notice a l = [] := if_neg fun hboth => hopen hboth.1
      have hnotice' : notice a' l = [] := if_neg fun hboth => hlocal hboth.1
      rw [hstream, hflow, hnotice, hnotice']
      simp

/-- While the proxy runs nothing is paused, and what is sent comes last. -/
lemma stream_running (ha : Proper a) (hran : a.ran = true) (message : Message)
    (houtgoing : a'.channel.outgoing = a.channel.outgoing ++ [message])
    (hproxy : a'.paused = a.paused) {body : Body} (hbody : message.body = body) :
    stream a' b = stream a b ++ [body] := by
  have hpaused : a.paused = [] := by
    unfold Side.paused
    split
    · next p hd => rw [ha.running hran p hd, List.map_nil]
    · rfl
  rw [stream, stream, Side.sent, Side.sent, houtgoing, hproxy, hpaused, ← hbody]
  simp

lemma Linked.write (h : Linked a b) (ha : Proper a) {l : LocalMessagePipeEndpoint}
    (hl : a.localEnd = some l) (bytes : List Byte) : Linked (a.write bytes) b := by
  have hopen : a.localEnd ≠ none := by simp [hl]
  rcases Side.write_cases ha hl bytes with ⟨-, heq⟩ | ⟨p, hd, hran, heq⟩ | ⟨p, hd, hran, heq⟩
  · rwa [heq]
  · rw [heq]
    refine h.pushes hopen ?_ ?_ ?_ (fun hused => h.attached (Or.inr hused)) h.address ?_ rfl rfl
    · rw [stream, stream, Side.sent, Side.sent, Side.paused, Side.paused, hd, proxyEnd_of_pipe rfl]
      simp [Message.create]
    · rw [localEnd_of_pipe rfl]
      simp
    · rw [proxyEnd_of_pipe rfl]
      simp
    · intro hran'
      rw [hran] at hran'
      cases hran'
  · rw [heq]
    have hfound := ha.ran hran
    have hproxy : a.proxyEnd ≠ none := by simp [hd]
    refine h.pushes hopen ?_ hopen hproxy ?_ ?_ h.remote rfl rfl
    · refine stream_running ha hran (p.address (.messagePipeEndpoint bytes)) ?_ ?_ ?_
      · rfl
      · rfl
      · rfl
    · exact fun _ => h.attached (Or.inr (Or.inr hfound))
    · intro message hmem
      rw [List.mem_append, List.mem_singleton] at hmem
      rcases hmem with hmem | rfl
      · exact h.address message hmem
      · exact h.remote hran p hd

lemma Linked.write_receiver (h : Linked a b) (hb : Proper b) {l : LocalMessagePipeEndpoint}
    (hl : b.localEnd = some l) (bytes : List Byte) : Linked a (b.write bytes) := by
  rcases Side.write_cases hb hl bytes with ⟨-, heq⟩ | ⟨p, hd, hran, heq⟩ | ⟨p, hd, hran, heq⟩
  · rwa [heq]
  · rw [heq]
    exact h.receiver rfl id rfl rfl (Or.inl ((localEnd_of_pipe rfl).trans hl.symm))
  · rw [heq]
    exact h.receiver rfl id rfl rfl (Or.inl rfl)

/-! ### Reading -/

lemma Side.read_cases (h : Proper a) {l : LocalMessagePipeEndpoint} (hl : a.localEnd = some l)
    (maxBytes : ℕ) (mayDiscard : Bool) :
    ∃ messages rest, l.messageQueue = messages ++ rest ∧
      a.read maxBytes mayDiscard = { a with
        pipe := localProxy (some { l with messageQueue := rest }) a.proxyEnd
        removed := a.removed ++ messages.map fun message => message.body.data } := by
  have hkind := h.kind
  rw [hl] at hkind
  obtain ⟨hisOpen, -⟩ := h.localEnd l hl
  obtain ⟨hchannel, messages, rest, hqueue, hend⟩ :=
    readMessage_cases (c := a.channel) hisOpen maxBytes mayDiscard
  have hafter : a.called (a.pipe.readMessage a.channel .zero maxBytes mayDiscard) = { a with
      pipe := localProxy (some { l with messageQueue := rest }) a.proxyEnd } := by
    rw [hkind, read_localProxy]
    simp only [Side.called, Called.map, hchannel, hend]
  refine ⟨messages, rest, hqueue, ?_⟩
  unfold Side.read
  rw [hafter]
  have hbefore : a.queue = (messages.map fun message => message.body.data) ++
      rest.map fun message => message.body.data := by
    rw [Side.queue, hl]
    simp [hqueue]
  have hleft : Side.queue { a with
      pipe := localProxy (some { l with messageQueue := rest }) a.proxyEnd } =
        rest.map fun message => message.body.data := by
    rw [Side.queue, localEnd_of_pipe rfl]
  dsimp only
  rw [hleft, hbefore, List.length_append, Nat.add_sub_cancel, List.take_left]

lemma Proper.read (h : Proper a) {l : LocalMessagePipeEndpoint} (hl : a.localEnd = some l)
    (maxBytes : ℕ) (mayDiscard : Bool) : Proper (a.read maxBytes mayDiscard) := by
  obtain ⟨messages, rest, -, heq⟩ := Side.read_cases h hl maxBytes mayDiscard
  rw [heq]
  refine proper_of rfl ?_ ?_ h.localId h.running h.alive h.map h.allocated h.found h.ran
  · rintro m ⟨⟩
    exact h.localEnd l hl
  · intro p hd
    obtain ⟨hisOpen, hpeer, hrest⟩ := h.proxyEnd p hd
    exact ⟨hisOpen, by rw [hpeer, hl]; rfl, hrest⟩

lemma Linked.read (h : Linked a b) (ha : Proper a) {l : LocalMessagePipeEndpoint}
    (hl : a.localEnd = some l) (maxBytes : ℕ) (mayDiscard : Bool) :
    Linked (a.read maxBytes mayDiscard) b := by
  obtain ⟨messages, rest, -, heq⟩ := Side.read_cases ha hl maxBytes mayDiscard
  have hproxy : (a.read maxBytes mayDiscard).proxyEnd = a.proxyEnd := by
    rw [heq]
    exact proxyEnd_of_pipe rfl
  rw [heq] at hproxy ⊢
  refine h.sender rfl id (fun hf => h.attached (Or.inr (Or.inr hf))) ?_ ?_ ?_ ?_ rfl
  · rw [hproxy]
    exact h.remote
  · rw [Side.paused, hproxy, ← Side.paused]
  · rw [hproxy]
    exact id
  · rw [localEnd_of_pipe rfl, hl]
    simp

lemma Linked.read_receiver (h : Linked a b) (hb : Proper b) {l : LocalMessagePipeEndpoint}
    (hl : b.localEnd = some l) (maxBytes : ℕ) (mayDiscard : Bool) :
    Linked a (b.read maxBytes mayDiscard) := by
  obtain ⟨messages, rest, hqueue, heq⟩ := Side.read_cases hb hl maxBytes mayDiscard
  obtain ⟨data, hdata, hflow, hpeer⟩ := h.flow l hl
  have hsplit : b.queue = (messages.map fun message => message.body.data) ++
      rest.map fun message => message.body.data := by
    rw [Side.queue, hl]
    simp [hqueue]
  have hlocal : (b.read maxBytes mayDiscard).localEnd = some { l with messageQueue := rest } := by
    rw [heq]
    exact localEnd_of_pipe rfl
  have hqueue' : (b.read maxBytes mayDiscard).queue =
      rest.map fun message => message.body.data := by
    rw [Side.queue, hlocal]
  rw [heq] at hlocal hqueue' ⊢
  exact
    { attached := h.attached
      address := h.address
      remote := h.remote
      closed := h.closed
      gone := fun hgone => Or.inl ((h.gone hgone).resolve_right (by simp [hl]))
      passed := by
        rw [← hdata, hsplit]
        simp only [List.append_assoc]
        rw [← List.append_assoc b.removed]
        exact List.prefix_append _ _
      flow := by
        intro m hm
        rw [hlocal] at hm
        cases hm
        refine ⟨data, ?_, hflow, hpeer⟩
        rw [hqueue', ← hdata, hsplit]
        simp only [List.append_assoc] }

/-! ### Closing -/

lemma Side.close_cases (h : Proper a) {l : LocalMessagePipeEndpoint} (hl : a.localEnd = some l) :
    (a.proxyEnd = none ∧ a.close = { a with pipe := localProxy none none }) ∨
      (∃ p, a.proxyEnd = some p ∧ a.ran = false ∧ a.close = { a with
        pipe := localProxy none (some { p with
          isPeerOpen := false
          pausedMessageQueue := p.pausedMessageQueue ++ [.create .peerClosed] }) }) ∨
      ∃ p, a.proxyEnd = some p ∧ a.ran = true ∧ a.close = { a with
        channel := { a.channel with
          outgoing := a.channel.outgoing ++ [p.address .peerClosed]
          localIdToEndpointInfoMap :=
            Function.update a.channel.localIdToEndpointInfoMap p.localId none }
        pipe := localProxy none none } := by
  have hkind := h.kind
  rw [hl] at hkind
  obtain ⟨hopen, -⟩ := h.localEnd l hl
  cases hd : a.proxyEnd with
  | none =>
    left
    rw [hd] at hkind
    refine ⟨rfl, ?_⟩
    rw [Side.close, hkind, close_alone hopen]
    rfl
  | some p =>
    right
    rw [hd] at hkind
    obtain ⟨hisOpen, hpeer, hattached, hrunning⟩ := h.proxyEnd p hd
    rw [hl] at hpeer
    cases hran : a.ran with
    | false =>
      left
      refine ⟨p, rfl, rfl, ?_⟩
      rw [Side.close, hkind, close_paused hopen hisOpen hpeer (hrunning.trans hran)]
      simp [Side.called, hran]
    | true =>
      right
      refine ⟨p, rfl, rfl, ?_⟩
      have hatt : p.isAttached = true := hattached.trans (h.found (h.ran hran))
      rw [Side.close, hkind, close_running hopen hisOpen hpeer hatt (hrunning.trans hran)
        (h.running hran p hd)]
      simp [Side.called, hran, Channel.writeMessage, Channel.detachMessagePipeEndpoint, h.alive]

lemma Side.localEnd_close (h : Proper a) {l : LocalMessagePipeEndpoint}
    (hl : a.localEnd = some l) : a.close.localEnd = none := by
  rcases Side.close_cases h hl with ⟨-, heq⟩ | ⟨p, -, -, heq⟩ | ⟨p, -, -, heq⟩
  · rw [heq]
    exact localEnd_of_pipe rfl
  · rw [heq]
    exact localEnd_of_pipe rfl
  · rw [heq]
    exact localEnd_of_pipe rfl

/-- A side with both ends gone. -/
lemma Proper.ends_gone (h : Proper a) (hpipe : a'.pipe = localProxy none none)
    (halive : a'.channel.isDead = false) (hid : a'.localId = a.localId)
    (hattached : a'.attached = a.attached) (hfound : a'.foundToRun = a.foundToRun)
    (hran : a'.ran = true → a'.foundToRun = true) : Proper a' := by
  apply proper_of hpipe
  · simp
  · simp
  · simp
  · simp
  · exact halive
  · rw [hid]
    exact fun found hfound => ⟨(h.map found hfound).1, fun hne => absurd rfl hne⟩
  · rw [hattached, hid]
    exact h.allocated
  · rw [hfound, hattached]
    exact h.found
  · exact hran

lemma Proper.close (h : Proper a) {l : LocalMessagePipeEndpoint} (hl : a.localEnd = some l) :
    Proper a.close := by
  rcases Side.close_cases h hl with ⟨-, heq⟩ | ⟨p, hd, hran, heq⟩ | ⟨p, hd, hran, heq⟩
  · rw [heq]
    exact h.ends_gone rfl h.alive rfl rfl rfl h.ran
  · rw [heq]
    obtain ⟨hisOpen, -, hattached, hrunning⟩ := h.proxyEnd p hd
    refine proper_of rfl (by simp) ?_ ?_ ?_ h.alive ?_ h.allocated h.found h.ran
    · rintro q ⟨⟩
      exact ⟨hisOpen, rfl, hattached, hrunning⟩
    · rintro hatt q ⟨⟩
      exact h.localId hatt p hd
    · intro hran'
      rw [hran] at hran'
      cases hran'
    · intro found hfound
      obtain ⟨hvalid, hmap⟩ := h.map found hfound
      exact ⟨hvalid, fun _ => hmap (by simp [hd])⟩
  · rw [heq]
    exact h.ends_gone rfl h.alive rfl rfl rfl h.ran

/-- The notice is added at the end of the stream, or nobody is there to read it. -/
lemma Linked.closes (h : Linked a b) (hopen : a.localEnd ≠ none) (hlocal : a'.localEnd = none)
    (hstream : stream a' b = stream a b ++ [.peerClosed] ∨
      stream a' b = stream a b ∧ b.localEnd = none)
    (hattached : a'.channel.outgoing ≠ [] ∨ a'.foundToRun = true →
      a'.attached = true ∧ b.attached = true)
    (haddress : ∀ message ∈ a'.channel.outgoing, b.localId = some message.destinationId)
    (hremote : a'.ran = true → ∀ p, a'.proxyEnd = some p → b.localId = some p.remoteId)
    (hatt : a'.attached = a.attached) (hwritten : a'.written = a.written) : Linked a' b where
  attached := by
    rintro (harriving | hused)
    · rw [hatt]
      exact h.attached (Or.inl harriving)
    · exact hattached hused
  address := haddress
  remote := hremote
  closed := by
    intro body hmem hcontrol
    refine ⟨?_, hlocal⟩
    rcases hstream with hpush | ⟨hsame, -⟩
    · rw [hpush, List.mem_append, List.mem_singleton] at hmem
      rcases hmem with hmem | rfl
      · exact (h.closed body hmem hcontrol).1
      · rfl
    · rw [hsame] at hmem
      exact (h.closed body hmem hcontrol).1
  gone := fun _ => Or.inl hlocal
  passed := by
    rw [hwritten]
    exact h.passed
  flow := by
    intro l hl
    rcases hstream with hpush | ⟨-, hnone⟩
    · obtain ⟨data, hdata, hflow, hpeer⟩ := h.flow l hl
      have hisOpen : l.isPeerOpen = true := by
        by_contra hclosed
        exact hopen (hpeer (by simpa using hclosed)).1
      have hnotice : notice a l = [] := if_neg fun hboth => hopen hboth.1
      have hnotice' : notice a' l = [.peerClosed] := if_pos ⟨hlocal, hisOpen⟩
      refine ⟨data, by rw [hwritten, hdata], ?_, fun hclosed => ?_⟩
      · rw [hpush, hflow, hnotice, hnotice', List.append_nil]
      · rw [hisOpen] at hclosed
        cases hclosed
    · rw [hnone] at hl
      cases hl

lemma Linked.close (h : Linked a b) (ha : Proper a) {l : LocalMessagePipeEndpoint}
    (hl : a.localEnd = some l) : Linked a.close b := by
  have hopen : a.localEnd ≠ none := by simp [hl]
  have hlocal := Side.localEnd_close ha hl
  rcases Side.close_cases ha hl with ⟨hd, heq⟩ | ⟨p, hd, hran, heq⟩ | ⟨p, hd, hran, heq⟩
  · rw [heq] at hlocal ⊢
    refine h.closes hopen hlocal (Or.inr ⟨?_, (h.gone hd).resolve_left hopen⟩)
      (fun hused => h.attached (Or.inr hused)) h.address ?_ rfl rfl
    · rw [stream, stream, Side.sent, Side.sent, Side.paused, Side.paused, hd, proxyEnd_of_pipe rfl]
    · rw [proxyEnd_of_pipe rfl]
      simp
  · rw [heq] at hlocal ⊢
    refine h.closes hopen hlocal (Or.inl ?_) (fun hused => h.attached (Or.inr hused)) h.address
      ?_ rfl rfl
    · rw [stream, stream, Side.sent, Side.sent, Side.paused, Side.paused, hd, proxyEnd_of_pipe rfl]
      simp [Message.create]
    · intro hran'
      rw [hran] at hran'
      cases hran'
  · rw [heq] at hlocal ⊢
    have hfound := ha.ran hran
    have hpaused : a.paused = [] := by
      rw [Side.paused, hd]
      simp [ha.running hran p hd]
    refine h.closes hopen hlocal (Or.inl ?_) (fun _ => h.attached (Or.inr (Or.inr hfound))) ?_ ?_
      rfl rfl
    · refine stream_running ha hran (p.address .peerClosed) ?_ ?_ ?_
      · rfl
      · rw [hpaused, Side.paused, proxyEnd_of_pipe rfl]
      · rfl
    · intro message hmem
      rw [List.mem_append, List.mem_singleton] at hmem
      rcases hmem with hmem | rfl
      · exact h.address message hmem
      · exact h.remote hran p hd
    · rw [proxyEnd_of_pipe rfl]
      simp

lemma Linked.close_receiver (h : Linked a b) (hb : Proper b) {l : LocalMessagePipeEndpoint}
    (hl : b.localEnd = some l) : Linked a b.close := by
  have hlocal := Side.localEnd_close hb hl
  rcases Side.close_cases hb hl with ⟨-, heq⟩ | ⟨p, -, -, heq⟩ | ⟨p, -, -, heq⟩
  · rw [heq] at hlocal ⊢
    exact h.receiver rfl id rfl rfl (Or.inr hlocal)
  · rw [heq] at hlocal ⊢
    exact h.receiver rfl id rfl rfl (Or.inr hlocal)
  · rw [heq] at hlocal ⊢
    exact h.receiver rfl id rfl rfl (Or.inr hlocal)

/-! ### Running -/

lemma Side.findToRun_cases (hnext : a.findToRun = some a') :
    a' = { a with channel := a.channel.crash } ∨ a' = { a with foundToRun := true } := by
  obtain ⟨localId, -, rfl⟩ := Option.map_eq_some_iff.mp hnext
  split
  · exact Or.inl rfl
  · exact Or.inr rfl

lemma Proper.findToRun (h : Proper a) (hattached : a.attached = true)
    (hnext : a.findToRun = some a') : Proper a' := by
  rcases Side.findToRun_cases hnext with rfl | rfl
  · exact ⟨h.kind, h.localEnd, h.proxyEnd, h.localId, h.running, h.alive, h.map, h.allocated,
      h.found, h.ran⟩
  · exact ⟨h.kind, h.localEnd, h.proxyEnd, h.localId, h.running, h.alive, h.map, h.allocated,
      fun _ => hattached, fun _ => rfl⟩

lemma Linked.findToRun (h : Linked a b) (ha : a.attached = true) (hb : b.attached = true)
    (hnext : a.findToRun = some a') : Linked a' b := by
  rcases Side.findToRun_cases hnext with rfl | rfl
  · exact h.sender rfl id (fun _ => ⟨ha, hb⟩) h.remote rfl id Iff.rfl rfl
  · exact h.sender rfl id (fun _ => ⟨ha, hb⟩) h.remote rfl id Iff.rfl rfl

lemma Linked.findToRun_receiver (h : Linked a b) (hnext : b.findToRun = some b') :
    Linked a b' := by
  rcases Side.findToRun_cases hnext with rfl | rfl
  · exact h.receiver rfl id rfl rfl (Or.inl rfl)
  · exact h.receiver rfl id rfl rfl (Or.inl rfl)

/-- What running does: it crashes, or all that was paused is sent to the other side. -/
lemma Side.run_cases (h : Proper a) (hfound : a.foundToRun = true) (hran : a.ran = false)
    {remoteId : EndpointId} (hid : remoteId ≠ kInvalidEndpointId) :
    (a.proxyEnd = none ∧ a.run remoteId =
        { a with channel := (a.channel.check false).crash, ran := true }) ∨
      ∃ p q c, a.proxyEnd = some p ∧
        a.run remoteId = { a with channel := c, pipe := localProxy a.localEnd q, ran := true } ∧
        c.outgoing = a.channel.outgoing ++ p.pausedMessageQueue.map
          (fun message => { p with remoteId := remoteId }.address message.body) ∧
        c.isDead = false ∧
        ((q = some { p with remoteId := remoteId, pausedMessageQueue := [] } ∧
            c.localIdToEndpointInfoMap = a.channel.localIdToEndpointInfoMap) ∨
          (q = none ∧ a.localEnd = none)) := by
  have hkind := h.kind
  cases hd : a.proxyEnd with
  | none =>
    left
    rw [hd] at hkind
    refine ⟨rfl, ?_⟩
    rw [Side.run, hkind, run_gone hid]
    simp only [Side.called]
  | some p =>
    right
    rw [hd] at hkind
    obtain ⟨hisOpen, hpeer, hattached, hrunning⟩ := h.proxyEnd p hd
    have hrun : p.isRunning = false := hrunning.trans hran
    have hatt : p.isAttached = true := hattached.trans (h.found hfound)
    have hrun' : { p with remoteId := remoteId }.isRunning = true := by
      simpa [ProxyMessagePipeEndpoint.isRunning] using hid
    cases hl : a.localEnd with
    | some l =>
      rw [hl] at hpeer
      refine ⟨p, some { p with remoteId := remoteId, pausedMessageQueue := [] },
        { p with remoteId := remoteId }.enqueueAll a.channel p.pausedMessageQueue, rfl, ?_, ?_,
        ?_, Or.inl ⟨rfl, ?_⟩⟩
      · rw [Side.run, hkind, run_peer_open hid hatt hrun hpeer, hl]
        rfl
      · rw [enqueueAll_eq hrun', h.alive]
        rfl
      · rw [enqueueAll_eq hrun']
        exact h.alive
      · rw [enqueueAll_eq hrun']
    | none =>
      rw [hl] at hpeer
      refine ⟨p, none, ({ p with remoteId := remoteId }.enqueueAll a.channel
        p.pausedMessageQueue).detachMessagePipeEndpoint p.localId, rfl, ?_, ?_, ?_,
        Or.inr ⟨rfl, rfl⟩⟩
      · rw [Side.run, hkind, run_peer_closed hid hisOpen hatt hrun hpeer, hl]
        rfl
      · rw [enqueueAll_eq hrun', Channel.detachMessagePipeEndpoint, h.alive]
        rfl
      · rw [enqueueAll_eq hrun']
        exact h.alive

lemma Proper.run (h : Proper a) (hfound : a.foundToRun = true) (hran : a.ran = false)
    {remoteId : EndpointId} (hid : remoteId ≠ kInvalidEndpointId) : Proper (a.run remoteId) := by
  rcases Side.run_cases h hfound hran hid with
    ⟨hd, heq⟩ | ⟨p, q, c, hd, heq, -, halive, ⟨rfl, hmap⟩ | ⟨rfl, hl⟩⟩
  · rw [heq]
    refine proper_of h.kind h.localEnd ?_ ?_ ?_ h.alive ?_ h.allocated h.found fun _ => hfound
    · simp [hd]
    · simp [hd]
    · simp [hd]
    · exact fun found hfound => ⟨(h.map found hfound).1, fun hne => absurd hd hne⟩
  · rw [heq]
    obtain ⟨hisOpen, hpeer, hattached, -⟩ := h.proxyEnd p hd
    refine proper_of rfl ?_ ?_ ?_ ?_ halive ?_ h.allocated h.found fun _ => hfound
    · intro l hl
      obtain ⟨hopen, hpeer'⟩ := h.localEnd l hl
      exact ⟨hopen, by rw [hpeer', hd]; rfl⟩
    · rintro r ⟨⟩
      refine ⟨hisOpen, hpeer, hattached, ?_⟩
      simpa [ProxyMessagePipeEndpoint.isRunning] using hid
    · rintro hatt r ⟨⟩
      exact h.localId hatt p hd
    · rintro - r ⟨⟩
      rfl
    · intro found hfound
      obtain ⟨hvalid, hmap'⟩ := h.map found hfound
      refine ⟨hvalid, fun _ => ?_⟩
      show c.localIdToEndpointInfoMap found = some 0
      rw [hmap]
      exact hmap' (by simp [hd])
  · rw [heq]
    exact h.ends_gone (by rw [hl]) halive rfl rfl rfl fun _ => hfound

lemma Linked.run (h : Linked a b) (ha : Proper a) (hfound : a.foundToRun = true)
    (hran : a.ran = false) {remoteId : EndpointId} (hid : remoteId ≠ kInvalidEndpointId)
    (hb : b.localId = some remoteId) : Linked (a.run remoteId) b := by
  have hboth := h.attached (Or.inr (Or.inr hfound))
  rcases Side.run_cases ha hfound hran hid with ⟨hd, heq⟩ | ⟨p, q, c, hd, heq, hout, -, hends⟩
  · rw [heq]
    exact h.sender rfl id (fun _ => hboth) (fun _ p hp => absurd (hd.symm.trans hp) (by simp)) rfl
      id Iff.rfl rfl
  · have hlocal : (a.run remoteId).localEnd = a.localEnd := by
      rw [heq]
      exact localEnd_of_pipe rfl
    have hproxy : (a.run remoteId).proxyEnd = q := by
      rw [heq]
      exact proxyEnd_of_pipe rfl
    have hpaused : (a.run remoteId).paused = [] := by
      rw [Side.paused, hproxy]
      rcases hends with ⟨rfl, -⟩ | ⟨rfl, -⟩
      · rfl
      · rfl
    have hsent : (a.run remoteId).sent = a.sent ++ a.paused := by
      rw [Side.sent, Side.sent, Side.paused, hd, heq]
      simp [hout, ProxyMessagePipeEndpoint.address]
    have hstream : stream (a.run remoteId) b = stream a b := by
      rw [stream, stream, hsent, hpaused, List.append_nil]
    constructor
    · intro _
      rw [heq]
      exact hboth
    · rw [heq, hout]
      intro message hmem
      rw [List.mem_append, List.mem_map] at hmem
      rcases hmem with hmem | ⟨original, -, rfl⟩
      · exact h.address message hmem
      · exact hb
    · rw [hproxy]
      rintro - r rfl
      rcases hends with ⟨hr, -⟩ | ⟨hr, -⟩
      · cases hr
        exact hb
      · cases hr
    · rw [hstream, hlocal]
      exact h.closed
    · rw [hproxy, hlocal]
      rintro rfl
      rcases hends with ⟨hr, -⟩ | ⟨-, hnone⟩
      · cases hr
      · exact Or.inl hnone
    · rw [heq]
      exact h.passed
    · rw [hstream, hlocal]
      simp only [notice, hlocal]
      rw [heq]
      exact h.flow

lemma Linked.run_receiver (h : Linked a b) (hb : Proper b) (hfound : b.foundToRun = true)
    (hran : b.ran = false) {remoteId : EndpointId} (hid : remoteId ≠ kInvalidEndpointId) :
    Linked a (b.run remoteId) := by
  rcases Side.run_cases hb hfound hran hid with ⟨-, heq⟩ | ⟨p, q, c, -, heq, -⟩
  · rw [heq]
    exact h.receiver rfl id rfl rfl (Or.inl rfl)
  · rw [heq]
    exact h.receiver rfl id rfl rfl (Or.inl (localEnd_of_pipe rfl))

/-! ### Messages that come in -/

/-- While a side is open and something is on the way to it, its endpoint is found. -/
lemma findEndpointInfo_open (h : Linked a b) (hb : Proper b) {l : LocalMessagePipeEndpoint}
    (hl : b.localEnd = some l) {message : Message} (hmem : message ∈ a.channel.outgoing) :
    b.channel.findEndpointInfo message.destinationId = some 0 := by
  obtain ⟨data, -, hflow, hpeer⟩ := h.flow l hl
  obtain ⟨-, hproxy⟩ := hb.localEnd l hl
  have hisOpen : l.isPeerOpen = true := by
    by_contra hclosed
    rw [Bool.not_eq_true] at hclosed
    have hnotice : notice a l = [] := if_neg fun hboth => by simp [hclosed] at hboth
    have hbody : message.body ∈ stream a b := by
      simp only [stream, Side.sent, List.mem_append]
      exact Or.inr (Or.inl (List.mem_map_of_mem hmem))
    rw [hflow, hnotice, (hpeer hclosed).2] at hbody
    cases hbody
  obtain ⟨hvalid, hmap⟩ := hb.map _ (h.address message hmem)
  rw [Channel.findEndpointInfo, if_neg hvalid]
  apply hmap
  rw [← Option.isSome_iff_ne_none, ← hproxy, hisOpen]

lemma Proper.arrive (h : Proper a) (message : Message) : Proper (a.arrive message) :=
  ⟨h.kind, h.localEnd, h.proxyEnd, h.localId, h.running, h.alive, h.map, h.allocated, h.found,
    h.ran⟩

lemma Proper.sends (h : Proper a) (rest : List Message) :
    Proper { a with channel := { a.channel with outgoing := rest } } :=
  ⟨h.kind, h.localEnd, h.proxyEnd, h.localId, h.running, h.alive, h.map, h.allocated, h.found,
    h.ran⟩

/-- The first message on the way arrives. It can only be dropped when nobody is there to read. -/
lemma Linked.arrive (h : Linked a b) (hb : Proper b) (harriving : b.arriving = none)
    {message : Message} {rest : List Message} (hout : a.channel.outgoing = message :: rest) :
    Linked { a with channel := { a.channel with outgoing := rest } } (b.arrive message) := by
  have hmem : message ∈ a.channel.outgoing := by simp [hout]
  have hboth := h.attached (Or.inr (Or.inl (by simp [hout])))
  have hold : stream a b = message.body :: (rest.map Message.body ++ a.paused) := by
    rw [stream, harriving, Side.sent, hout]
    rfl
  have hnew : stream { a with channel := { a.channel with outgoing := rest } } (b.arrive message) =
      ((b.channel.findEndpointInfo message.destinationId).map fun _ => message.body).toList ++
        (rest.map Message.body ++ a.paused) := rfl
  have hsub : ∀ body ∈ stream { a with channel := { a.channel with outgoing := rest } }
      (b.arrive message), body ∈ stream a b := by
    intro body hbody
    rw [hnew, List.mem_append] at hbody
    rw [hold, List.mem_cons]
    rcases hbody with hbody | hbody
    · left
      rw [Option.mem_toList, Option.map_eq_some_iff] at hbody
      obtain ⟨-, -, heq⟩ := hbody
      exact heq.symm
    · exact Or.inr hbody
  exact
    { attached := fun _ => hboth
      address := fun m hm => h.address m (by rw [hout]; exact List.mem_cons_of_mem _ hm)
      remote := h.remote
      closed := fun body hbody => h.closed body (hsub body hbody)
      gone := h.gone
      passed := h.passed
      flow := by
        intro l hl
        have hsame : stream { a with channel := { a.channel with outgoing := rest } }
            (b.arrive message) = stream a b := by
          rw [hnew, hold, findEndpointInfo_open h hb hl hmem]
          rfl
        rw [hsame]
        exact h.flow l hl }

lemma Linked.arrive_receiver (h : Linked a b) (message : Message) (rest : List Message) :
    Linked (a.arrive message) { b with channel := { b.channel with outgoing := rest } } := by
  have hsender : Linked (a.arrive message) b :=
    h.sender rfl id (fun hf => h.attached (Or.inr (Or.inr hf))) h.remote rfl id Iff.rfl rfl
  exact hsender.receiver rfl id rfl rfl (Or.inl rfl)

/-- What a message does to a side: it is added to the queue, it closes the proxy, or the process
crashes, which is so only when the end that it is for is gone. -/
lemma Side.deliver_cases (h : Proper a) (hattached : a.attached = true) {body : Body}
    (hbody : body.isMessagePipe = true → body = .peerClosed) :
    (∃ l bytes c, a.localEnd = some l ∧ body = .messagePipeEndpoint bytes ∧
        a.deliver body = { a with
          channel := c
          pipe := localProxy (some { l with
            messageQueue := l.messageQueue ++ [.create (.messagePipeEndpoint bytes)] }) a.proxyEnd
          arriving := none } ∧
        c.outgoing = a.channel.outgoing ∧ c.isDead = a.channel.isDead ∧
        c.localIdToEndpointInfoMap = a.channel.localIdToEndpointInfoMap) ∨
      (∃ c, a.deliver body = { a with channel := c, arriving := none } ∧
        (a.localEnd = none ∨ body = .peerClosed ∧ a.proxyEnd = none) ∧
        c.outgoing = a.channel.outgoing ∧ c.isDead = a.channel.isDead ∧
        c.localIdToEndpointInfoMap = a.channel.localIdToEndpointInfoMap) ∨
      ∃ p, a.proxyEnd = some p ∧ body = .peerClosed ∧ a.deliver body = { a with
        channel := a.channel.detachMessagePipeEndpoint p.localId
        pipe := localProxy (a.localEnd.map fun l => { l with isPeerOpen := false }) none
        arriving := none } := by
  have hkind := h.kind
  cases body with
  | messagePipeEndpoint bytes =>
    cases hl : a.localEnd with
    | some l =>
      left
      obtain ⟨hopen, -⟩ := h.localEnd l hl
      rw [hl] at hkind
      refine ⟨l, bytes, (a.channel.check a.proxyEnd.isSome).check l.isPeerOpen, rfl, rfl, ?_,
        rfl, rfl, rfl⟩
      rw [Side.deliver, hkind, receive_data hopen]
      rfl
    | none =>
      right
      left
      rw [hl] at hkind
      refine ⟨(a.channel.check a.proxyEnd.isSome).crash, ?_, Or.inl rfl, rfl, rfl, rfl⟩
      rw [Side.deliver, hkind, receive_data_closed]
      simp only [Side.called]
  | messagePipe subtype =>
    have hpeer := hbody rfl
    rw [hpeer]
    cases hd : a.proxyEnd with
    | none =>
      right
      left
      rw [hd] at hkind
      refine ⟨(a.channel.check false).crash, ?_, Or.inr ⟨rfl, rfl⟩, rfl, rfl, rfl⟩
      rw [Side.deliver, hkind, receive_peerClosed_gone]
      simp only [Side.called]
    | some p =>
      right
      right
      rw [hd] at hkind
      obtain ⟨hisOpen, -, hatt, -⟩ := h.proxyEnd p hd
      refine ⟨p, rfl, rfl, ?_⟩
      rw [Side.deliver, hkind, receive_peerClosed hisOpen (hatt.trans hattached) ?_]
      · rfl
      · intro l hl
        obtain ⟨hopen, hpeer'⟩ := h.localEnd l hl
        exact ⟨hopen, by rw [hpeer', hd]; rfl⟩

lemma Proper.deliver (h : Proper a) (hattached : a.attached = true) {body : Body}
    (hbody : body.isMessagePipe = true → body = .peerClosed) : Proper (a.deliver body) := by
  rcases Side.deliver_cases h hattached hbody with
    ⟨l, bytes, c, hl, -, heq, -, hdead, hmap⟩ | ⟨c, heq, -, -, hdead, hmap⟩ | ⟨p, hd, -, heq⟩
  · rw [heq]
    refine proper_of rfl ?_ ?_ h.localId h.running (hdead.trans h.alive) ?_ h.allocated h.found
      h.ran
    · rintro m ⟨⟩
      exact h.localEnd l hl
    · intro p hp
      obtain ⟨hisOpen, hpeer, hrest⟩ := h.proxyEnd p hp
      exact ⟨hisOpen, by rw [hpeer, hl]; rfl, hrest⟩
    · dsimp only
      rw [hmap]
      exact h.map
  · rw [heq]
    refine proper_of h.kind h.localEnd h.proxyEnd h.localId h.running (hdead.trans h.alive) ?_
      h.allocated h.found h.ran
    dsimp only
    rw [hmap]
    exact h.map
  · rw [heq]
    refine proper_of rfl ?_ (by simp) (by simp) (by simp) h.alive ?_ h.allocated h.found h.ran
    · intro l hl
      obtain ⟨m, hm, rfl⟩ := Option.map_eq_some_iff.mp hl
      exact ⟨(h.localEnd m hm).1, rfl⟩
    · exact fun found hfound => ⟨(h.map found hfound).1, fun hne => absurd rfl hne⟩

/-- The side whose proxy was closed by the other side has nobody to send to any more. -/
lemma Linked.deliver (h : Linked a b) (ha : Proper a) (hattached : a.attached = true)
    {body : Body} (hbody : body.isMessagePipe = true → body = .peerClosed ∧ b.localEnd = none) :
    Linked (a.deliver body) b := by
  rcases Side.deliver_cases ha hattached fun hc => (hbody hc).1 with
    ⟨l, bytes, c, hl, -, heq, hout, -, -⟩ | ⟨c, heq, -, hout, -, -⟩ | ⟨p, hd, hpeer, heq⟩
  · have hproxy : (a.deliver body).proxyEnd = a.proxyEnd := by
      rw [heq]
      exact proxyEnd_of_pipe rfl
    rw [heq] at hproxy ⊢
    refine h.sender hout id (fun hf => h.attached (Or.inr (Or.inr hf))) ?_ ?_ ?_ ?_ rfl
    · rw [hproxy]
      exact h.remote
    · rw [Side.paused, hproxy, ← Side.paused]
    · rw [hproxy]
      exact id
    · rw [localEnd_of_pipe rfl, hl]
      simp
  · rw [heq]
    exact h.sender hout id (fun hf => h.attached (Or.inr (Or.inr hf))) h.remote rfl id Iff.rfl rfl
  · obtain ⟨-, hnone⟩ := hbody (by rw [hpeer]; rfl)
    have hproxy : (a.deliver body).proxyEnd = none := by
      rw [heq]
      exact proxyEnd_of_pipe rfl
    have hlocal : a.localEnd = none → (a.deliver body).localEnd = none := by
      intro hl
      rw [heq, hl]
      exact localEnd_of_pipe rfl
    have hsub : ∀ x ∈ stream (a.deliver body) b, x ∈ stream a b := by
      intro x hx
      rw [stream, Side.paused, hproxy, Side.sent, heq, List.append_nil, List.mem_append] at hx
      rw [stream, List.mem_append, List.mem_append]
      exact hx.imp_right Or.inl
    exact
      { attached := by
          rw [heq]
          exact h.attached
        address := by
          rw [heq]
          exact h.address
        remote := by
          rw [hproxy]
          simp
        closed := fun x hx hc =>
          ⟨(h.closed x (hsub x hx) hc).1, hlocal (h.closed x (hsub x hx) hc).2⟩
        gone := fun _ => Or.inr hnone
        passed := by
          rw [heq]
          exact h.passed
        flow := by
          rw [hnone]
          simp }

lemma first_data {l : LocalMessagePipeEndpoint} {bytes : List Byte} {rest : List Body}
    {data : List (List Byte)}
    (h : .messagePipeEndpoint bytes :: rest = data.map .messagePipeEndpoint ++ notice a l) :
    ∃ data', data = bytes :: data' ∧ rest = data'.map .messagePipeEndpoint ++ notice a l := by
  cases data with
  | nil =>
    unfold notice at h
    split_ifs at h
    · cases h
    · cases h
  | cons first data =>
    rw [List.map_cons, List.cons_append, List.cons.injEq, Body.messagePipeEndpoint.injEq] at h
    obtain ⟨rfl, hrest⟩ := h
    exact ⟨data, rfl, hrest⟩

lemma first_peerClosed {l : LocalMessagePipeEndpoint} {rest : List Body}
    {data : List (List Byte)}
    (h : .peerClosed :: rest = data.map .messagePipeEndpoint ++ notice a l) :
    data = [] ∧ rest = [] ∧ a.localEnd = none := by
  cases data with
  | nil =>
    unfold notice at h
    split_ifs at h with hboth
    · cases h
      exact ⟨rfl, rfl, hboth.1⟩
    · cases h
  | cons first data => cases h

/-- The message that arrived was the first on the way. -/
lemma Linked.deliver_receiver (h : Linked a b) (hb : Proper b) (hattached : b.attached = true)
    {body : Body} (harriving : b.arriving = some body)
    (hbody : body.isMessagePipe = true → body = .peerClosed) : Linked a (b.deliver body) := by
  have hold : stream a b = body :: (a.sent ++ a.paused) := by
    rw [stream, harriving]
    rfl
  have hnew : stream a (b.deliver body) = a.sent ++ a.paused := rfl
  have hclosed : ∀ x ∈ stream a (b.deliver body), x.isMessagePipe = true →
      x = .peerClosed ∧ a.localEnd = none := by
    intro x hx
    apply h.closed x
    rw [hold]
    exact List.mem_cons_of_mem _ hx
  have hboth := h.attached (Or.inl (by simp [harriving]))
  rcases Side.deliver_cases hb hattached hbody with
    ⟨l, bytes, c, hl, hdata, heq, -, -, -⟩ | ⟨c, heq, hgone, -, -, -⟩ | ⟨p, hd, hpeer, heq⟩
  · have hlocal : (b.deliver body).localEnd = some { l with
        messageQueue := l.messageQueue ++ [.create (.messagePipeEndpoint bytes)] } := by
      rw [heq]
      exact localEnd_of_pipe rfl
    have hqueue : (b.deliver body).queue = b.queue ++ [bytes] := by
      rw [Side.queue, hlocal, Side.queue, hl]
      simp [Message.create, Body.data]
    have hremoved : (b.deliver body).removed = b.removed := rfl
    refine ⟨fun _ => hboth, h.address, h.remote, hclosed, ?_, h.passed, ?_⟩
    · intro hgone
      exact Or.inl ((h.gone hgone).resolve_right (by simp [hl]))
    · intro m hm
      rw [hlocal] at hm
      cases hm
      obtain ⟨data, hwritten, hflow, hpeer⟩ := h.flow l hl
      rw [hold, hdata] at hflow
      obtain ⟨rest, rfl, hrest⟩ := first_data hflow
      refine ⟨rest, ?_, hnew.trans hrest, fun hfalse => ?_⟩
      · rw [hqueue, hremoved, ← hwritten]
        simp only [List.append_assoc, List.singleton_append]
      · exact absurd (hpeer hfalse).2 (by simp)
  · have hlocal : b.localEnd = none := by
      rcases hgone with hnone | ⟨-, hproxy⟩
      · exact hnone
      · -- a side that knows of the closing gets nothing more
        by_contra hopen
        obtain ⟨l, hl⟩ := Option.ne_none_iff_exists'.mp hopen
        obtain ⟨data, -, hflow, hpeer⟩ := h.flow l hl
        have hfalse : l.isPeerOpen = false := by
          rw [(hb.localEnd l hl).2, hproxy]
          rfl
        have hnotice : notice a l = [] := if_neg fun hboth => by simp [hfalse] at hboth
        rw [hold, (hpeer hfalse).2, hnotice] at hflow
        cases hflow
    rw [heq] at hclosed ⊢
    exact
      { attached := fun _ => hboth
        address := h.address
        remote := h.remote
        closed := hclosed
        gone := h.gone
        passed := h.passed
        flow := fun l hl => absurd (hlocal.symm.trans hl) (by simp) }
  · have hlocal : (b.deliver body).localEnd =
        b.localEnd.map fun l => { l with isPeerOpen := false } := by
      rw [heq]
      exact localEnd_of_pipe rfl
    have hremoved : (b.deliver body).removed = b.removed := rfl
    refine ⟨fun _ => hboth, h.address, h.remote, hclosed, ?_, h.passed, ?_⟩
    · rw [hlocal, Option.map_eq_none_iff]
      exact h.gone
    · intro m hm
      rw [hlocal] at hm
      obtain ⟨l, hl, rfl⟩ := Option.map_eq_some_iff.mp hm
      obtain ⟨data, hwritten, hflow, -⟩ := h.flow l hl
      rw [hold, hpeer] at hflow
      obtain ⟨rfl, hrest, hnone⟩ := first_peerClosed hflow
      have hqueue : (b.deliver body).queue = b.queue := by
        rw [Side.queue, hlocal, Side.queue, hl]
        rfl
      have hnotice : notice a { l with isPeerOpen := false } = [] := if_neg (by simp)
      refine ⟨[], ?_, ?_, fun _ => ⟨hnone, rfl⟩⟩
      · rw [hqueue, hremoved, hwritten]
      · rw [hnew, hrest, hnotice]
        rfl

end Sides

/-! ### Both sides -/

lemma inv_initial : Inv World.initial where
  proper := fun _ =>
    { kind := rfl
      localEnd := by
        rintro l ⟨⟩
        exact ⟨rfl, rfl⟩
      proxyEnd := by
        rintro p ⟨⟩
        exact ⟨rfl, rfl, rfl, rfl⟩
      localId := fun hattached => by cases hattached
      running := fun hran => by cases hran
      alive := rfl
      map := fun id hid => by cases hid
      allocated := fun hattached => by cases hattached
      found := fun hfound => by cases hfound
      ran := fun hran => by cases hran }
  linked := fun _ =>
    { attached := by
        rintro (h | h | h)
        · exact absurd rfl h
        · exact absurd rfl h
        · cases h
      address := fun message hmem => by cases hmem
      remote := fun hran => by cases hran
      closed := fun body hmem => by cases hmem
      gone := fun hgone => by cases hgone
      passed := List.prefix_refl _
      flow := by
        rintro l ⟨⟩
        exact ⟨[], rfl, rfl, fun hfalse => by cases hfalse⟩ }

/-- It is enough to look at one side and the other. -/
lemma inv_of {w : World} (side : Bool) (hthis : Proper (w side)) (hother : Proper (w !side))
    (hsends : Linked (w side) (w !side)) (hreceives : Linked (w !side) (w side)) : Inv w := by
  cases side with
  | false => exact ⟨Bool.forall_bool.mpr ⟨hthis, hother⟩, Bool.forall_bool.mpr ⟨hsends, hreceives⟩⟩
  | true => exact ⟨Bool.forall_bool.mpr ⟨hother, hthis⟩, Bool.forall_bool.mpr ⟨hreceives, hsends⟩⟩

section Steps
variable {w w' : World} {side : Bool}

lemma Inv.receives (h : Inv w) (side : Bool) : Linked (w !side) (w side) := by
  have := h.linked !side
  rwa [Bool.not_not] at this

/-- One side goes on. -/
lemma Inv.update (h : Inv w) {a : Side} (hproper : Proper a) (hsends : Linked a (w !side))
    (hreceives : Linked (w !side) a) : Inv (Function.update w side a) := by
  have hne : (!side) ≠ side := by simp
  apply inv_of side
  · rwa [Function.update_self]
  · rw [Function.update_of_ne hne]
    exact h.proper !side
  · rwa [Function.update_self, Function.update_of_ne hne]
  · rwa [Function.update_self, Function.update_of_ne hne]

lemma Inv.arrive (h : Inv w) (harriving : (w side).arriving = none)
    (hnext : w.next side .arrive = some w') : Inv w' := by
  simp only [World.next] at hnext
  split at hnext
  · cases hnext
  · next message rest hout =>
    cases hnext
    have hne : (!side) ≠ side := by simp
    apply inv_of side
    · rw [Function.update_self]
      exact (h.proper side).arrive message
    · rw [Function.update_of_ne hne, Function.update_self]
      exact (h.proper !side).sends rest
    · rw [Function.update_self, Function.update_of_ne hne, Function.update_self]
      exact (h.linked side).arrive_receiver message rest
    · rw [Function.update_self, Function.update_of_ne hne, Function.update_self]
      exact (h.receives side).arrive (h.proper side) harriving hout

lemma Inv.deliver (h : Inv w) (hnext : w.next side .deliver = some w') : Inv w' := by
  obtain ⟨body, harriving, rfl⟩ := Option.map_eq_some_iff.mp hnext
  have hreceives := h.receives side
  have hattached := (hreceives.attached (Or.inl (by simp [harriving]))).2
  have hmem : body ∈ stream (w !side) (w side) := by
    rw [stream, harriving]
    exact List.mem_cons_self
  have hbody := hreceives.closed body hmem
  apply h.update
  · exact (h.proper side).deliver hattached fun hc => (hbody hc).1
  · exact (h.linked side).deliver (h.proper side) hattached hbody
  · exact hreceives.deliver_receiver (h.proper side) hattached harriving fun hc => (hbody hc).1

/-- Each step keeps the invariant. -/
lemma Inv.step (h : Inv w) {e : Event} (henabled : w.Enabled side e)
    (hnext : w.next side e = some w') : Inv w' := by
  have hthis := h.proper side
  have hother := h.proper !side
  have hsends := h.linked side
  have hreceives := h.receives side
  obtain ⟨-, henabled⟩ := henabled
  cases e with
  | allocate =>
    obtain ⟨a, ha, rfl⟩ := Option.map_eq_some_iff.mp hnext
    exact h.update (hthis.allocate henabled ha) (hsends.allocate ha)
      (hreceives.allocate_receiver hother hthis henabled ha)
  | attach =>
    obtain ⟨a, ha, rfl⟩ := Option.map_eq_some_iff.mp hnext
    exact h.update (hthis.attach henabled.2 ha) (hsends.attach hthis henabled.2 ha)
      (hreceives.attach_receiver hthis henabled.2 ha)
  | write bytes =>
    cases hnext
    obtain ⟨l, hl⟩ := endpoint0_ne_none hthis henabled
    exact h.update (hthis.write hl bytes) (hsends.write hthis hl bytes)
      (hreceives.write_receiver hthis hl bytes)
  | read maxBytes mayDiscard =>
    cases hnext
    obtain ⟨l, hl⟩ := endpoint0_ne_none hthis henabled
    exact h.update (hthis.read hl maxBytes mayDiscard) (hsends.read hthis hl maxBytes mayDiscard)
      (hreceives.read_receiver hthis hl maxBytes mayDiscard)
  | close =>
    cases hnext
    obtain ⟨l, hl⟩ := endpoint0_ne_none hthis henabled
    exact h.update (hthis.close hl) (hsends.close hthis hl) (hreceives.close_receiver hthis hl)
  | findToRun =>
    obtain ⟨a, ha, rfl⟩ := Option.map_eq_some_iff.mp hnext
    exact h.update (hthis.findToRun henabled.1 ha) (hsends.findToRun henabled.1 henabled.2.1 ha)
      (hreceives.findToRun_receiver ha)
  | run =>
    obtain ⟨remoteId, hid, rfl⟩ := Option.map_eq_some_iff.mp hnext
    have hvalid := (hother.map remoteId hid).1
    exact h.update (hthis.run henabled.1 henabled.2 hvalid)
      (hsends.run hthis henabled.1 henabled.2 hvalid hid)
      (hreceives.run_receiver hthis henabled.1 henabled.2 hvalid)
  | arrive => exact h.arrive henabled hnext
  | deliver => exact h.deliver hnext

end Steps

/-- What `ReadMessage` on a side would return. -/
def readResult (a : Side) (maxBytes : ℕ) (mayDiscard : Bool) : MojoResult :=
  (a.pipe.readMessage a.channel .zero maxBytes mayDiscard).result

lemma readResult_failed {a : Side} (h : Proper a) {l : LocalMessagePipeEndpoint}
    (hl : a.localEnd = some l) {maxBytes : ℕ} {mayDiscard : Bool}
    (hresult : readResult a maxBytes mayDiscard = .failedPrecondition) :
    a.queue = [] ∧ l.isPeerOpen = false := by
  have hkind := h.kind
  rw [hl] at hkind
  rw [readResult, hkind, read_localProxy] at hresult
  simp only [Called.map, LocalMessagePipeEndpoint.readMessage] at hresult
  rw [Side.queue, hl]
  cases hqueue : l.messageQueue with
  | nil =>
    rw [hqueue] at hresult
    cases hpeer : l.isPeerOpen with
    | false => exact ⟨by simp [hqueue], rfl⟩
    | true =>
      rw [hpeer] at hresult
      cases hresult
  | cons message rest =>
    rw [hqueue] at hresult
    dsimp only at hresult
    split_ifs at hresult

/-- In every interleaving a side reads the messages that were written on the other side, in order
and each once; and it is told that the other side was closed only when it has read all of them. -/
theorem delivered_in_order {es : List (Bool × Event)} {w : World}
    (h : Reaches World.Step World.initial es w) (side : Bool) :
    (w side).removed <+: (w !side).written ∧
      ∀ maxBytes mayDiscard, (w side).pipe.endpoint0 ≠ none →
        readResult (w side) maxBytes mayDiscard = .failedPrecondition →
        (w !side).pipe.endpoint0 = none ∧ (w side).removed = (w !side).written := by
  have hinv : Inv w := h.invariant Inv inv_initial fun _ _ _ ht hstep => ht.step hstep.1 hstep.2
  have hreceives := hinv.receives side
  refine ⟨hreceives.passed, fun maxBytes mayDiscard hopen hresult => ?_⟩
  have hproper := hinv.proper side
  obtain ⟨l, hl⟩ := endpoint0_ne_none hproper hopen
  obtain ⟨hqueue, hpeer⟩ := readResult_failed hproper hl hresult
  obtain ⟨data, hwritten, -, hclosed⟩ := hreceives.flow l hl
  obtain ⟨hnone, rfl⟩ := hclosed hpeer
  constructor
  · rw [(hinv.proper !side).kind, hnone]
    rfl
  · rw [← hwritten, hqueue]
    simp

/-- A message is written before the pipe is run and the pipe is closed; the other side reads the
message and then learns of the closing. -/
theorem delivered_in_order_exchange : ∃ w : World,
    (w true).removed = [[7]] ∧ readResult (w true) 0 false = .failedPrecondition ∧
      (w false).pipe.endpoint0 = none ∧ (w true).removed = (w false).written := by
  have hrun : Reaches World.Step World.initial
      [(false, .allocate), (false, .attach), (true, .allocate), (true, .attach),
        (false, .write [7]), (false, .close), (false, .findToRun), (false, .run),
        (true, .arrive), (true, .deliver), (true, .arrive), (true, .deliver),
        (true, .read 8 false)] _ :=
    .cons ⟨⟨rfl, rfl⟩, rfl⟩ <| .cons ⟨⟨rfl, by decide +kernel, rfl⟩, rfl⟩ <|
    .cons ⟨⟨rfl, rfl⟩, rfl⟩ <| .cons ⟨⟨rfl, by decide +kernel, rfl⟩, rfl⟩ <|
    .cons ⟨⟨rfl, Option.some_ne_none _⟩, rfl⟩ <| .cons ⟨⟨rfl, Option.some_ne_none _⟩, rfl⟩ <|
    .cons ⟨⟨rfl, rfl, rfl, rfl⟩, rfl⟩ <| .cons ⟨⟨rfl, rfl, rfl⟩, rfl⟩ <|
    .cons ⟨⟨rfl, rfl⟩, rfl⟩ <| .cons ⟨⟨rfl, trivial⟩, rfl⟩ <|
    .cons ⟨⟨rfl, rfl⟩, rfl⟩ <| .cons ⟨⟨rfl, trivial⟩, rfl⟩ <|
    .cons ⟨⟨rfl, Option.some_ne_none _⟩, rfl⟩ .refl
  refine ⟨_, ?_, ?_, (delivered_in_order hrun true).2 0 false (Option.some_ne_none _) ?_⟩
  · decide +kernel
  · decide +kernel
  · decide +kernel

end Chromium.MojoPipeDelivery
