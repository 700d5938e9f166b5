import Chromium.WireFormat
import Mathlib.Logic.Function.Basic

/-!
# Message pipes and channels

`mojo/system/message_pipe.cc` with its two kinds of endpoints, and the part of
`mojo/system/channel.cc` that leads messages to them. A local endpoint is read from, a proxy
endpoint sends what it is given over a channel, and keeps it until it is run.
-/
namespace Chromium.MojoMessagePipe

open WireFormat

abbrev EndpointId := BitVec 32

def kInvalidEndpointId : EndpointId := 0
def kBootstrapEndpointId : EndpointId := 1

/-- The type of a message, with its data or its subtype. -/
inductive Body
  | messagePipeEndpoint (bytes : List Byte)
  | messagePipe (subtype : ℕ)
  deriving DecidableEq

def kSubtypeMessagePipePeerClosed : ℕ := 0

namespace Body

def peerClosed : Body := .messagePipe kSubtypeMessagePipePeerClosed

def isMessagePipe : Body → Bool
  | .messagePipeEndpoint _ => false
  | .messagePipe _ => true

/-- Control messages have no data. -/
def data : Body → List Byte
  | .messagePipeEndpoint bytes => bytes
  | .messagePipe _ => []

end Body

structure Message where
  body : Body
  sourceId : EndpointId
  destinationId : EndpointId
  deriving DecidableEq

/-- The identifiers are set when the message is sent. -/
def Message.create (body : Body) : Message := ⟨body, kInvalidEndpointId, kInvalidEndpointId⟩

inductive MojoResult
  | ok
  | notFound
  | failedPrecondition
  | resourceExhausted
  | unknown
  | internal
  deriving DecidableEq

/-! ### The channel -/

/-- The channel of a process. Its map leads to message pipes, always to their port 1, and what it
wrote waits in `outgoing`. It is recorded that all checks held, and whether the process crashed:
by a fatal error or a check of the release build, or at a null pointer. -/
structure Channel where
  localIdToEndpointInfoMap : EndpointId → Option ℕ
  nextLocalId : EndpointId
  /-- The raw channel accepts nothing any more. -/
  isDead : Bool
  outgoing : List Message
  dchecks : Bool
  crashed : Bool

namespace Channel

def initial : Channel := ⟨fun _ => none, kBootstrapEndpointId, false, [], true, false⟩

def check (c : Channel) (condition : Bool) : Channel :=
  { c with dchecks := c.dchecks && condition }

def crash (c : Channel) : Channel := { c with crashed := true }

def writeMessage (c : Channel) (message : Message) : Channel × Bool :=
  if c.isDead then (c, false) else ({ c with outgoing := c.outgoing ++ [message] }, true)

def detachMessagePipeEndpoint (c : Channel) (localId : EndpointId) : Channel :=
  { c with
    localIdToEndpointInfoMap := Function.update c.localIdToEndpointInfoMap localId none }

/-- The loop that looks for a free identifier. It does not end when there is none. -/
def nextFreeId (map : EndpointId → Option ℕ) : ℕ → EndpointId → Option EndpointId
  | 0, _ => none
  | tries + 1, id =>
    if id = kInvalidEndpointId ∨ map id ≠ none then nextFreeId map tries (id + 1) else some id

/-- The first section of `AttachMessagePipeEndpoint`. -/
def allocateId (c : Channel) (messagePipe : ℕ) : Option (EndpointId × Channel) :=
  (nextFreeId c.localIdToEndpointInfoMap (2 ^ 32) c.nextLocalId).map fun localId =>
    (localId, { c with
      nextLocalId := localId + 1
      localIdToEndpointInfoMap :=
        Function.update c.localIdToEndpointInfoMap localId (some messagePipe) })

end Channel

/-! ### The endpoints -/

structure LocalMessagePipeEndpoint where
  isOpen : Bool
  isPeerOpen : Bool
  messageQueue : List Message
  deriving DecidableEq

structure ProxyMessagePipeEndpoint where
  isAttached : Bool
  localId : EndpointId
  remoteId : EndpointId
  isOpen : Bool
  isPeerOpen : Bool
  pausedMessageQueue : List Message
  deriving DecidableEq

inductive Endpoint
  | localEndpoint (endpoint : LocalMessagePipeEndpoint)
  | proxyEndpoint (endpoint : ProxyMessagePipeEndpoint)
  deriving DecidableEq

/-- The channel and the endpoint after a call on it, and what the call returned. -/
structure Called (ε α : Type) where
  channel : Channel
  endpoint : ε
  result : α

def Called.map {ε ε' α : Type} (f : ε → ε') (called : Called ε α) : Called ε' α :=
  ⟨called.channel, f called.endpoint, called.result⟩

namespace LocalMessagePipeEndpoint

def new : LocalMessagePipeEndpoint := ⟨true, true, []⟩

def close (e : LocalMessagePipeEndpoint) (c : Channel) : Called LocalMessagePipeEndpoint Unit :=
  ⟨c.check e.isOpen, { e with isOpen := false, messageQueue := [] }, ()⟩

def onPeerClose (e : LocalMessagePipeEndpoint) (c : Channel) :
    Called LocalMessagePipeEndpoint Bool :=
  ⟨(c.check e.isOpen).check e.isPeerOpen, { e with isPeerOpen := false }, true⟩

def enqueueMessage (e : LocalMessagePipeEndpoint) (c : Channel) (message : Message) :
    Called LocalMessagePipeEndpoint MojoResult :=
  ⟨(c.check e.isOpen).check e.isPeerOpen,
    { e with messageQueue := e.messageQueue ++ [message] }, .ok⟩

/-- A message that does not fit stays, unless it may be discarded. -/
def readMessage (e : LocalMessagePipeEndpoint) (c : Channel) (maxBytes : ℕ) (mayDiscard : Bool) :
    Called LocalMessagePipeEndpoint MojoResult :=
  let c := c.check e.isOpen
  match e.messageQueue with
  | [] => ⟨c, e, if e.isPeerOpen then .notFound else .failedPrecondition⟩
  | message :: rest =>
    let notEnoughSpace : Bool := message.body.data.length > maxBytes
    ⟨c, if !notEnoughSpace || mayDiscard then { e with messageQueue := rest } else e,
      if notEnoughSpace then .resourceExhausted else .ok⟩

end LocalMessagePipeEndpoint

namespace ProxyMessagePipeEndpoint

def new : ProxyMessagePipeEndpoint :=
  ⟨false, kInvalidEndpointId, kInvalidEndpointId, true, true, []⟩

def isRunning (e : ProxyMessagePipeEndpoint) : Bool := e.remoteId ≠ kInvalidEndpointId

/-- Without a channel there is nothing to detach from. -/
def close (e : ProxyMessagePipeEndpoint) (c : Channel) : Called ProxyMessagePipeEndpoint Unit :=
  let c := (c.check e.isOpen).check e.isAttached
  ⟨if e.isAttached then c.detachMessagePipeEndpoint e.localId else c.crash,
    { e with
      isOpen := false, isAttached := false, localId := kInvalidEndpointId
      remoteId := kInvalidEndpointId, pausedMessageQueue := [] }, ()⟩

def enqueueMessage (e : ProxyMessagePipeEndpoint) (c : Channel) (message : Message) :
    Called ProxyMessagePipeEndpoint MojoResult :=
  let c := (c.check e.isOpen).check (e.isPeerOpen || message.body.isMessagePipe)
  if e.isRunning then
    let written := c.writeMessage
      { message with sourceId := e.localId, destinationId := e.remoteId }
    ⟨written.1, e, if written.2 then .ok else .failedPrecondition⟩
  else ⟨c, { e with pausedMessageQueue := e.pausedMessageQueue ++ [message] }, .ok⟩

def onPeerClose (e : ProxyMessagePipeEndpoint) (c : Channel) :
    Called ProxyMessagePipeEndpoint Bool :=
  let c := (c.check e.isOpen).check e.isPeerOpen
  let called := { e with isPeerOpen := false }.enqueueMessage c (.create .peerClosed)
  ⟨called.channel, called.endpoint, !called.endpoint.pausedMessageQueue.isEmpty⟩

def attach (e : ProxyMessagePipeEndpoint) (c : Channel) (localId : EndpointId) :
    Called ProxyMessagePipeEndpoint Unit :=
  let c := c.check (localId ≠ kInvalidEndpointId)
  ⟨c.check (!e.isAttached), { e with isAttached := true, localId := localId }, ()⟩

/-- The messages that were paused are sent one after the other. -/
def enqueueAll (e : ProxyMessagePipeEndpoint) (c : Channel) (messages : List Message) : Channel :=
  messages.foldl (fun c message => (e.enqueueMessage c message).channel) c

def run (e : ProxyMessagePipeEndpoint) (c : Channel) (remoteId : EndpointId) :
    Called ProxyMessagePipeEndpoint Bool :=
  let c := c.check (remoteId ≠ kInvalidEndpointId)
  let c := (c.check e.isAttached).check (!e.isRunning)
  let e := { e with remoteId := remoteId }
  ⟨e.enqueueAll c e.pausedMessageQueue, { e with pausedMessageQueue := [] }, e.isPeerOpen⟩

end ProxyMessagePipeEndpoint

/-! The virtual functions. Reading from a proxy and running a local endpoint is not reached. -/

namespace Endpoint

def close (e : Endpoint) (c : Channel) : Called Endpoint Unit :=
  match e with
  | .localEndpoint e => (e.close c).map .localEndpoint
  | .proxyEndpoint e => (e.close c).map .proxyEndpoint

def onPeerClose (e : Endpoint) (c : Channel) : Called Endpoint Bool :=
  match e with
  | .localEndpoint e => (e.onPeerClose c).map .localEndpoint
  | .proxyEndpoint e => (e.onPeerClose c).map .proxyEndpoint

def enqueueMessage (e : Endpoint) (c : Channel) (message : Message) :
    Called Endpoint MojoResult :=
  match e with
  | .localEndpoint e => (e.enqueueMessage c message).map .localEndpoint
  | .proxyEndpoint e => (e.enqueueMessage c message).map .proxyEndpoint

def readMessage (e : Endpoint) (c : Channel) (maxBytes : ℕ) (mayDiscard : Bool) :
    Called Endpoint MojoResult :=
  match e with
  | .localEndpoint e => (e.readMessage c maxBytes mayDiscard).map .localEndpoint
  | .proxyEndpoint e => ⟨c.check false, .proxyEndpoint e, .internal⟩

def attach (e : Endpoint) (c : Channel) (localId : EndpointId) : Called Endpoint Unit :=
  match e with
  | .localEndpoint e => ⟨c.check false, .localEndpoint e, ()⟩
  | .proxyEndpoint e => (e.attach c localId).map .proxyEndpoint

def run (e : Endpoint) (c : Channel) (remoteId : EndpointId) : Called Endpoint Bool :=
  match e with
  | .localEndpoint e => ⟨c.check false, .localEndpoint e, true⟩
  | .proxyEndpoint e => (e.run c remoteId).map .proxyEndpoint

end Endpoint

/-! ### The pipe -/

inductive Port
  | zero
  | one
  deriving DecidableEq

def getPeerPort : Port → Port
  | .zero => .one
  | .one => .zero

structure MessagePipe where
  endpoint0 : Option Endpoint
  endpoint1 : Option Endpoint
  deriving DecidableEq

namespace MessagePipe

def endpoints (p : MessagePipe) : Port → Option Endpoint
  | .zero => p.endpoint0
  | .one => p.endpoint1

def reset (p : MessagePipe) (port : Port) (e : Option Endpoint) : MessagePipe :=
  match port with
  | .zero => { p with endpoint0 := e }
  | .one => { p with endpoint1 := e }

def close (p : MessagePipe) (c : Channel) (port : Port) : Called MessagePipe Unit :=
  let destinationPort := getPeerPort port
  match p.endpoints port with
  | none => ⟨(c.check false).crash, p, ()⟩
  | some e =>
    let c := (e.close c).channel
    match p.endpoints destinationPort with
    | none => ⟨c, p.reset port none, ()⟩
    | some destination =>
      let told := destination.onPeerClose c
      if told.result then
        ⟨told.channel, (p.reset destinationPort (some told.endpoint)).reset port none, ()⟩
      else
        ⟨(told.endpoint.close told.channel).channel,
          (p.reset destinationPort none).reset port none, ()⟩

def handleControlMessage (p : MessagePipe) (c : Channel) (port : Port) (subtype : ℕ) :
    Called MessagePipe MojoResult :=
  if subtype = kSubtypeMessagePipePeerClosed then
    let sourcePort := getPeerPort port
    match p.endpoints sourcePort with
    | none => ⟨(c.check false).crash, p, .ok⟩
    | some source =>
      let c := (source.close c).channel
      match p.endpoints port with
      | none => ⟨c, p.reset sourcePort none, .ok⟩
      | some e =>
        let told := e.onPeerClose c
        ⟨told.channel, (p.reset port (some told.endpoint)).reset sourcePort none, .ok⟩
  else ⟨c, p, .unknown⟩

/-- The port that the message is for need not be open. -/
def enqueueMessage (p : MessagePipe) (c : Channel) (port : Port) (message : Message) :
    Called MessagePipe MojoResult :=
  match message.body with
  | .messagePipe subtype => p.handleControlMessage c port subtype
  | .messagePipeEndpoint _ =>
    let c := c.check (p.endpoints (getPeerPort port)).isSome
    match p.endpoints port with
    | none => ⟨c, p, .failedPrecondition⟩
    | some e =>
      (e.enqueueMessage c message).map fun e => p.reset port (some e)

def writeMessage (p : MessagePipe) (c : Channel) (port : Port) (bytes : List Byte) :
    Called MessagePipe MojoResult :=
  p.enqueueMessage c (getPeerPort port) (.create (.messagePipeEndpoint bytes))

def readMessage (p : MessagePipe) (c : Channel) (port : Port) (maxBytes : ℕ)
    (mayDiscard : Bool) : Called MessagePipe MojoResult :=
  match p.endpoints port with
  | none => ⟨(c.check false).crash, p, .internal⟩
  | some e => (e.readMessage c maxBytes mayDiscard).map fun e => p.reset port (some e)

def attach (p : MessagePipe) (c : Channel) (port : Port) (localId : EndpointId) :
    Called MessagePipe Unit :=
  let c := c.check (localId ≠ kInvalidEndpointId)
  match p.endpoints port with
  | none => ⟨(c.check false).crash, p, ()⟩
  | some e => (e.attach c localId).map fun e => p.reset port (some e)

def run (p : MessagePipe) (c : Channel) (port : Port) (remoteId : EndpointId) :
    Called MessagePipe Unit :=
  let c := c.check (remoteId ≠ kInvalidEndpointId)
  match p.endpoints port with
  | none => ⟨(c.check false).crash, p, ()⟩
  | some e =>
    let called := e.run c remoteId
    if called.result then ⟨called.channel, p.reset port (some called.endpoint), ()⟩
    else ⟨(called.endpoint.close called.channel).channel, p.reset port none, ()⟩

end MessagePipe

/-! ### Messages for pipes -/

namespace Channel

/-- The first section of `OnReadMessageForDownstream`: the pipe that the message is for. An error
of the remote side is only logged. -/
def findEndpointInfo (c : Channel) (destinationId : EndpointId) : Option ℕ :=
  if destinationId = kInvalidEndpointId then none else c.localIdToEndpointInfoMap destinationId

/-- The rest of it. A pipe that does not take the message is a fatal error. -/
def enqueueForDownstream (c : Channel) (p : MessagePipe) (body : Body) :
    Called MessagePipe Unit :=
  let called := p.enqueueMessage c (getPeerPort .one) (.create body)
  ⟨if called.result = .ok then called.channel else called.channel.crash, called.endpoint, ()⟩

end Channel

/-- The identifier that is given out is valid and leads nowhere yet. -/
lemma nextFreeId_eq_some {map : EndpointId → Option ℕ} {tries : ℕ} {start localId : EndpointId}
    (h : Channel.nextFreeId map tries start = some localId) :
    localId ≠ kInvalidEndpointId ∧ map localId = none := by
  induction tries generalizing start with
  | zero => cases h
  | succ tries ih =>
    rw [Channel.nextFreeId] at h
    split_ifs at h with htaken
    · exact ih h
    · cases h
      simpa using htaken

lemma allocateId_eq_some {c c' : Channel} {pipe : ℕ} {localId : EndpointId}
    (h : c.allocateId pipe = some (localId, c')) :
    (localId ≠ kInvalidEndpointId ∧ c.localIdToEndpointInfoMap localId = none) ∧
      c' = { c with
        nextLocalId := localId + 1
        localIdToEndpointInfoMap :=
          Function.update c.localIdToEndpointInfoMap localId (some pipe) } := by
  obtain ⟨found, hfree, heq⟩ := Option.map_eq_some_iff.mp h
  rw [Prod.mk.injEq] at heq
  obtain ⟨rfl, rfl⟩ := heq
  exact ⟨nextFreeId_eq_some hfree, rfl⟩

/-! ### Pipes between a local endpoint and a proxy -/

/-- Port 0 is local and port 1 is a proxy; each may be gone. -/
def localProxy (e : Option LocalMessagePipeEndpoint) (d : Option ProxyMessagePipeEndpoint) :
    MessagePipe :=
  ⟨e.map .localEndpoint, d.map .proxyEndpoint⟩

section LocalProxy
variable {c : Channel} {l : LocalMessagePipeEndpoint} {d : ProxyMessagePipeEndpoint}
  {e : Option LocalMessagePipeEndpoint} {o : Option ProxyMessagePipeEndpoint}

@[simp]
lemma Channel.check_true (c : Channel) : c.check true = c := by
  rw [Channel.check, Bool.and_true]

/-- The message as it is sent. -/
def ProxyMessagePipeEndpoint.address (d : ProxyMessagePipeEndpoint) (body : Body) : Message :=
  ⟨body, d.localId, d.remoteId⟩

@[simp]
lemma isMessagePipe_peerClosed : Body.peerClosed.isMessagePipe = true := rfl

lemma onPeerClose_paused (hd : d.isOpen = true) (hpeer : d.isPeerOpen = true)
    (hrun : d.isRunning = false) : d.onPeerClose c =
      ⟨c, { d with
        isPeerOpen := false
        pausedMessageQueue := d.pausedMessageQueue ++ [.create .peerClosed] }, true⟩ := by
  have hid : d.remoteId = kInvalidEndpointId := by
    simpa [ProxyMessagePipeEndpoint.isRunning] using hrun
  simp [ProxyMessagePipeEndpoint.onPeerClose, ProxyMessagePipeEndpoint.enqueueMessage,
    ProxyMessagePipeEndpoint.isRunning, Message.create, hd, hpeer, hid]

lemma onPeerClose_running (hd : d.isOpen = true) (hpeer : d.isPeerOpen = true)
    (hrun : d.isRunning = true) (hpaused : d.pausedMessageQueue = []) : d.onPeerClose c =
      ⟨(c.writeMessage (d.address .peerClosed)).1, { d with isPeerOpen := false }, false⟩ := by
  have hid : d.remoteId ≠ kInvalidEndpointId := by
    simpa [ProxyMessagePipeEndpoint.isRunning] using hrun
  simp [ProxyMessagePipeEndpoint.onPeerClose, ProxyMessagePipeEndpoint.enqueueMessage,
    ProxyMessagePipeEndpoint.isRunning, Message.create, ProxyMessagePipeEndpoint.address, hd,
    hpeer, hid, hpaused]

lemma close_alone (hl : l.isOpen = true) :
    (localProxy (some l) none).close c .zero = ⟨c, localProxy none none, ()⟩ := by
  simp [localProxy, MessagePipe.close, MessagePipe.endpoints, MessagePipe.reset, getPeerPort,
    Endpoint.close, Called.map, LocalMessagePipeEndpoint.close, hl]

/-- The proxy that does not run yet keeps the notice for later. -/
lemma close_paused (hl : l.isOpen = true) (hd : d.isOpen = true) (hpeer : d.isPeerOpen = true)
    (hrun : d.isRunning = false) :
    (localProxy (some l) (some d)).close c .zero =
      ⟨c, localProxy none (some { d with
        isPeerOpen := false
        pausedMessageQueue := d.pausedMessageQueue ++ [.create .peerClosed] }), ()⟩ := by
  simp [localProxy, MessagePipe.close, MessagePipe.endpoints, MessagePipe.reset, getPeerPort,
    Endpoint.close, Endpoint.onPeerClose, Called.map, LocalMessagePipeEndpoint.close, hl,
    onPeerClose_paused hd hpeer hrun]

/-- The proxy that runs sends the notice and is gone. -/
lemma close_running (hl : l.isOpen = true) (hd : d.isOpen = true) (hpeer : d.isPeerOpen = true)
    (hattached : d.isAttached = true) (hrun : d.isRunning = true)
    (hpaused : d.pausedMessageQueue = []) :
    (localProxy (some l) (some d)).close c .zero =
      ⟨(c.writeMessage (d.address .peerClosed)).1.detachMessagePipeEndpoint d.localId,
        localProxy none none, ()⟩ := by
  simp [localProxy, MessagePipe.close, MessagePipe.endpoints, MessagePipe.reset, getPeerPort,
    Endpoint.close, Endpoint.onPeerClose, Called.map, LocalMessagePipeEndpoint.close,
    ProxyMessagePipeEndpoint.close, hl, hd, hattached, onPeerClose_running hd hpeer hrun hpaused]

lemma write_alone (bytes : List Byte) :
    (localProxy (some l) none).writeMessage c .zero bytes =
      ⟨c, localProxy (some l) none, .failedPrecondition⟩ := by
  simp [localProxy, MessagePipe.writeMessage, MessagePipe.enqueueMessage, MessagePipe.endpoints,
    getPeerPort, Message.create]

lemma write_paused (hd : d.isOpen = true) (hpeer : d.isPeerOpen = true)
    (hrun : d.isRunning = false) (bytes : List Byte) :
    (localProxy (some l) (some d)).writeMessage c .zero bytes =
      ⟨c, localProxy (some l) (some { d with
        pausedMessageQueue :=
          d.pausedMessageQueue ++ [.create (.messagePipeEndpoint bytes)] }), .ok⟩ := by
  simp [localProxy, MessagePipe.writeMessage, MessagePipe.enqueueMessage, MessagePipe.endpoints,
    MessagePipe.reset, getPeerPort, Message.create, Endpoint.enqueueMessage, Called.map,
    ProxyMessagePipeEndpoint.enqueueMessage, hd, hpeer, hrun]

lemma write_running (hd : d.isOpen = true) (hpeer : d.isPeerOpen = true)
    (hrun : d.isRunning = true) (bytes : List Byte) :
    (localProxy (some l) (some d)).writeMessage c .zero bytes =
      ⟨(c.writeMessage (d.address (.messagePipeEndpoint bytes))).1,
        localProxy (some l) (some d),
        if (c.writeMessage (d.address (.messagePipeEndpoint bytes))).2 then .ok
        else .failedPrecondition⟩ := by
  simp [localProxy, MessagePipe.writeMessage, MessagePipe.enqueueMessage, MessagePipe.endpoints,
    MessagePipe.reset, getPeerPort, Message.create, Endpoint.enqueueMessage, Called.map,
    ProxyMessagePipeEndpoint.enqueueMessage, ProxyMessagePipeEndpoint.address, hd, hpeer, hrun]
  rfl

lemma read_localProxy (maxBytes : ℕ) (mayDiscard : Bool) :
    (localProxy (some l) o).readMessage c .zero maxBytes mayDiscard =
      (l.readMessage c maxBytes mayDiscard).map fun l => localProxy (some l) o := by
  rfl

/-- Reading takes messages from the front of the queue, and nothing else changes. -/
lemma readMessage_cases (hl : l.isOpen = true) (maxBytes : ℕ) (mayDiscard : Bool) :
    (l.readMessage c maxBytes mayDiscard).channel = c ∧
      ∃ messages rest, l.messageQueue = messages ++ rest ∧
        (l.readMessage c maxBytes mayDiscard).endpoint = { l with messageQueue := rest } := by
  obtain ⟨isOpen, isPeerOpen, messageQueue⟩ := l
  subst hl
  cases messageQueue with
  | nil => exact ⟨Channel.check_true c, [], [], rfl, rfl⟩
  | cons message rest =>
    refine ⟨Channel.check_true c, ?_⟩
    simp only [LocalMessagePipeEndpoint.readMessage]
    split_ifs
    · exact ⟨[message], rest, rfl, rfl⟩
    · exact ⟨[], message :: rest, rfl, rfl⟩

lemma attach_localProxy {localId : EndpointId} (hid : localId ≠ kInvalidEndpointId)
    (hattached : d.isAttached = false) :
    (localProxy e (some d)).attach c .one localId =
      ⟨c, localProxy e (some { d with isAttached := true, localId := localId }), ()⟩ := by
  simp [localProxy, MessagePipe.attach, MessagePipe.endpoints, MessagePipe.reset,
    Endpoint.attach, Called.map, ProxyMessagePipeEndpoint.attach, hid, hattached]

lemma attach_gone {localId : EndpointId} (hid : localId ≠ kInvalidEndpointId) :
    (localProxy e none).attach c .one localId =
      ⟨(c.check false).crash, localProxy e none, ()⟩ := by
  simp [localProxy, MessagePipe.attach, MessagePipe.endpoints, hid]

/-- What sending the paused messages does to the channel. -/
lemma enqueueAll_eq (hrun : d.isRunning = true) (messages : List Message) :
    d.enqueueAll c messages = { c with
      outgoing := if c.isDead then c.outgoing
        else c.outgoing ++ messages.map fun message => d.address message.body
      dchecks := c.dchecks && messages.all fun message =>
        d.isOpen && (d.isPeerOpen || message.body.isMessagePipe) } := by
  induction messages generalizing c with
  | nil => simp [ProxyMessagePipeEndpoint.enqueueAll]
  | cons message messages ih =>
    have hcons : d.enqueueAll c (message :: messages) =
        d.enqueueAll (d.enqueueMessage c message).channel messages := rfl
    rw [hcons, ih, ProxyMessagePipeEndpoint.enqueueMessage, if_pos hrun]
    cases hdead : c.isDead with
    | true => simp [Channel.writeMessage, Channel.check, hdead, Bool.and_assoc]
    | false =>
      simp [Channel.writeMessage, Channel.check, hdead, Bool.and_assoc,
        ProxyMessagePipeEndpoint.address]

/-- The proxy runs on while its peer is open. -/
lemma run_peer_open {remoteId : EndpointId} (hid : remoteId ≠ kInvalidEndpointId)
    (hattached : d.isAttached = true) (hrun : d.isRunning = false) (hpeer : d.isPeerOpen = true) :
    (localProxy e (some d)).run c .one remoteId =
      ⟨{ d with remoteId := remoteId }.enqueueAll c d.pausedMessageQueue,
        localProxy e (some { d with remoteId := remoteId, pausedMessageQueue := [] }), ()⟩ := by
  simp [localProxy, MessagePipe.run, MessagePipe.endpoints, MessagePipe.reset,
    Endpoint.run, Called.map, ProxyMessagePipeEndpoint.run, hid, hattached, hrun, hpeer]

/-- The proxy whose peer was closed is gone after it sent what was paused. -/
lemma run_peer_closed {remoteId : EndpointId} (hid : remoteId ≠ kInvalidEndpointId)
    (hd : d.isOpen = true) (hattached : d.isAttached = true) (hrun : d.isRunning = false)
    (hpeer : d.isPeerOpen = false) :
    (localProxy e (some d)).run c .one remoteId =
      ⟨({ d with remoteId := remoteId }.enqueueAll c
        d.pausedMessageQueue).detachMessagePipeEndpoint d.localId, localProxy e none, ()⟩ := by
  simp [localProxy, MessagePipe.run, MessagePipe.endpoints, MessagePipe.reset, Endpoint.close,
    Endpoint.run, Called.map, ProxyMessagePipeEndpoint.run, ProxyMessagePipeEndpoint.close, hid,
    hd, hattached, hrun, hpeer]

lemma run_gone {remoteId : EndpointId} (hid : remoteId ≠ kInvalidEndpointId) :
    (localProxy e none).run c .one remoteId =
      ⟨(c.check false).crash, localProxy e none, ()⟩ := by
  simp [localProxy, MessagePipe.run, MessagePipe.endpoints, hid]

lemma receive_data (hl : l.isOpen = true) (bytes : List Byte) :
    c.enqueueForDownstream (localProxy (some l) o) (.messagePipeEndpoint bytes) =
      ⟨(c.check o.isSome).check l.isPeerOpen,
        localProxy (some { l with
          messageQueue := l.messageQueue ++ [.create (.messagePipeEndpoint bytes)] }) o, ()⟩ := by
  simp [localProxy, Channel.enqueueForDownstream, MessagePipe.enqueueMessage, Message.create,
    MessagePipe.endpoints, MessagePipe.reset, getPeerPort, Endpoint.enqueueMessage, Called.map,
    LocalMessagePipeEndpoint.enqueueMessage, hl]

/-- Data for a port that was closed is fatal. -/
lemma receive_data_closed (bytes : List Byte) :
    c.enqueueForDownstream (localProxy none o) (.messagePipeEndpoint bytes) =
      ⟨(c.check o.isSome).crash, localProxy none o, ()⟩ := by
  simp [localProxy, Channel.enqueueForDownstream, MessagePipe.enqueueMessage, Message.create,
    MessagePipe.endpoints, getPeerPort]

lemma receive_peerClosed (hd : d.isOpen = true) (hattached : d.isAttached = true)
    (he : ∀ l, e = some l → l.isOpen = true ∧ l.isPeerOpen = true) :
    c.enqueueForDownstream (localProxy e (some d)) .peerClosed =
      ⟨c.detachMessagePipeEndpoint d.localId,
        localProxy (e.map fun l => { l with isPeerOpen := false }) none, ()⟩ := by
  cases e with
  | none =>
    simp [localProxy, Channel.enqueueForDownstream, MessagePipe.enqueueMessage, Message.create,
      Body.peerClosed, MessagePipe.handleControlMessage, MessagePipe.endpoints, MessagePipe.reset,
      getPeerPort, Endpoint.close, Called.map, ProxyMessagePipeEndpoint.close, hd, hattached]
  | some l =>
    obtain ⟨hl, hpeer⟩ := he l rfl
    simp [localProxy, Channel.enqueueForDownstream, MessagePipe.enqueueMessage, Message.create,
      Body.peerClosed, MessagePipe.handleControlMessage, MessagePipe.endpoints, MessagePipe.reset,
      getPeerPort, Endpoint.close, Endpoint.onPeerClose, Called.map,
      ProxyMessagePipeEndpoint.close, LocalMessagePipeEndpoint.onPeerClose, hd, hattached, hl,
      hpeer]

lemma receive_peerClosed_gone :
    c.enqueueForDownstream (localProxy e none) .peerClosed =
      ⟨(c.check false).crash, localProxy e none, ()⟩ := by
  simp [localProxy, Channel.enqueueForDownstream, MessagePipe.enqueueMessage, Message.create,
    Body.peerClosed, MessagePipe.handleControlMessage, MessagePipe.endpoints, getPeerPort]

end LocalProxy

end Chromium.MojoMessagePipe
