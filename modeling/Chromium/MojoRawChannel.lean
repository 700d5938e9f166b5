import Chromium.PrefixReader
import Chromium.WireFormat
import Chromium.Runs

/-!
# Raw channels

`mojo/system/raw_channel_posix.cc`: messages go over a stream of bytes that takes and gives
them in pieces. An end keeps the messages it could not write yet, with an offset into the
first of them, and the bytes it read that are not a whole message yet. Two ends are joined by
a stream in each direction.
-/
namespace Chromium.MojoRawChannel

open WireFormat PrefixReader Runs

def kReadSize : ℕ := 4096

/-! ### Messages -/

/-- `sizeof(MessageInTransit)`: the size of the data, the type, the subtype, the source and the
destination. -/
def headerSize : ℕ := 16

def kMessageAlignment : ℕ := 8

/-- The mask keeps the multiple of the alignment. -/
def roundUpMessageAlignment (n : ℕ) : ℕ :=
  (n + kMessageAlignment - 1) / kMessageAlignment * kMessageAlignment

/-- The first field of the header. -/
def dataSize (bytes : List Byte) : ℕ := ofBytes (bytes.take 4)

def sizeWithHeaderAndPadding (bytes : List Byte) : ℕ :=
  roundUpMessageAlignment (headerSize + dataSize bytes)

/-- A message in memory: the header, the data and the padding. -/
structure MessageInTransit where
  bytes : List Byte
  header_le : headerSize ≤ bytes.length
  length_eq : bytes.length = sizeWithHeaderAndPadding bytes

/-- The bytes of messages one after the other. -/
def stream (messages : List MessageInTransit) : List Byte :=
  (messages.map MessageInTransit.bytes).flatten

/-- The first message of the buffer, when all of it is there. -/
def readMessage : Reader Byte (List Byte) := Reader.framed headerSize sizeWithHeaderAndPadding

lemma sizeWithHeaderAndPadding_append (xs ys : List Byte) (h : headerSize ≤ xs.length) :
    sizeWithHeaderAndPadding (xs ++ ys) = sizeWithHeaderAndPadding xs := by
  have hfour : 4 ≤ xs.length := le_trans (by decide) h
  rw [sizeWithHeaderAndPadding, sizeWithHeaderAndPadding, dataSize, dataSize,
    List.take_append_of_le_length hfour]

lemma headerSize_le (xs : List Byte) : headerSize ≤ sizeWithHeaderAndPadding xs := by
  unfold sizeWithHeaderAndPadding roundUpMessageAlignment kMessageAlignment headerSize
  omega

lemma kMessageAlignment_dvd (xs : List Byte) :
    kMessageAlignment ∣ sizeWithHeaderAndPadding xs :=
  Dvd.intro_left _ rfl

lemma exact_readMessage : Reader.Exact readMessage :=
  Reader.exact_framed sizeWithHeaderAndPadding_append headerSize_le

lemma readMessage_append (message : MessageInTransit) (rest : List Byte) :
    readMessage (message.bytes ++ rest) = some (message.bytes, rest) :=
  Reader.framed_append sizeWithHeaderAndPadding_append message.header_le message.length_eq rest

lemma readMessage_eq_some {input message rest : List Byte}
    (h : readMessage input = some (message, rest)) :
    input = message ++ rest ∧ headerSize ≤ message.length ∧
      message.length = sizeWithHeaderAndPadding message :=
  Reader.framed_eq_some sizeWithHeaderAndPadding_append headerSize_le h

lemma length_of_readMessage {input message rest : List Byte}
    (h : readMessage input = some (message, rest)) : rest.length < input.length := by
  obtain ⟨rfl, hheader, -⟩ := readMessage_eq_some h
  rw [headerSize] at hheader
  rw [List.length_append]
  omega

/-! ### One end -/

/-- One end of the channel. The flag `dchecks` tells that no check failed so far. -/
structure Channel where
  /-- The descriptor is open and watched for reading. -/
  isOpen : Bool
  isDead : Bool
  writeMessageQueue : List MessageInTransit
  writeMessageOffset : ℕ
  /-- The watcher for writing waits for the descriptor. -/
  writeArmed : Bool
  /-- A call of `WaitToWrite` was posted. -/
  waitPosted : Bool
  readBuffer : List Byte
  dchecks : Bool

namespace Channel

/-- The state after `Init`. -/
def init : Channel := ⟨true, false, [], 0, false, false, [], true⟩

def check (c : Channel) (condition : Bool) : Channel :=
  { c with dchecks := c.dchecks && condition }

def waitToWrite (c : Channel) : Channel :=
  let c := c.check c.isOpen
  { c with writeArmed := true }

/-- The offset stays as it is. -/
def cancelPendingWritesNoLock (c : Channel) : Channel :=
  let c := c.check (!c.isDead)
  { c with isDead := true, writeMessageQueue := [] }

def shutdown (c : Channel) : Channel :=
  let c := if c.isDead then c else c.cancelPendingWritesNoLock
  let c := c.check c.isOpen
  { c with isOpen := false, waitPosted := false, writeArmed := false }

end Channel

/-- What `write` says. -/
inductive WriteOutcome
  | bytes (n : ℕ)
  | wouldBlock
  | error
  deriving DecidableEq

/-- The end after a write, the bytes that went out, and what the function returned. -/
structure Written where
  channel : Channel
  bytes : List Byte
  result : Bool

/-- Nothing is left after an error. While there is more to write, the channel is to `wait`. -/
def Written.orWait (written : Written) (wait : Channel → Channel) : Written :=
  let c := written.channel.check (written.result || written.channel.writeMessageQueue.isEmpty)
  if written.result = false ∨ c.writeMessageQueue = [] then ⟨c, written.bytes, written.result⟩
  else ⟨wait c, written.bytes, written.result⟩

namespace Channel

/-- The front message is written on from the offset, as far as the outcome says. -/
def writeUpTo (c : Channel) (message : MessageInTransit) (rest : List MessageInTransit) (n : ℕ) :
    Written :=
  let pending := message.bytes.drop c.writeMessageOffset
  let bytes := pending.take n
  if bytes.length < pending.length then
    ⟨{ c with writeMessageOffset := c.writeMessageOffset + bytes.length }, bytes, true⟩
  else ⟨{ c with writeMessageQueue := rest, writeMessageOffset := 0 }, bytes, true⟩

def writeFrontMessageNoLock (c : Channel) (outcome : WriteOutcome) : Written :=
  let c := c.check (!c.isDead)
  match c.writeMessageQueue with
  | [] => ⟨c.check false, [], true⟩
  | message :: rest =>
    let c := c.check (c.writeMessageOffset < message.bytes.length)
    match outcome with
    | .error => ⟨c.cancelPendingWritesNoLock, [], false⟩
    | .wouldBlock => c.writeUpTo message rest 0
    | .bytes n => c.writeUpTo message rest n

/-- The fatal error of a failed write is posted and does not change the channel. -/
def writeMessage (c : Channel) (message : MessageInTransit) (onIoThread : Bool)
    (outcome : WriteOutcome) : Written :=
  if c.isDead then ⟨c, [], false⟩
  else if c.writeMessageQueue ≠ [] then
    ⟨{ c with writeMessageQueue := c.writeMessageQueue ++ [message] }, [], true⟩
  else
    let c := { c with writeMessageQueue := [message] }
    let written := (c.check (c.writeMessageOffset = 0)).writeFrontMessageNoLock outcome
    written.orWait fun c => if onIoThread then c.waitToWrite else { c with waitPosted := true }

/-- The watch is for one time. -/
def onFileCanWriteWithoutBlocking (c : Channel) (outcome : WriteOutcome) : Written :=
  let c := { c with writeArmed := false }
  let c := c.check (!c.isDead)
  let c := c.check (!c.writeMessageQueue.isEmpty)
  (c.writeFrontMessageNoLock outcome).orWait waitToWrite

end Channel

/-- What `read` says; no bytes are read at the end of the file. -/
inductive ReadOutcome
  | bytes (n : ℕ)
  | wouldBlock
  | error
  deriving DecidableEq

/-- How the call that reads came to its end. -/
inductive ReadEnd
  | finished
  | failed
  | shutDown
  deriving DecidableEq

/-- What one call read: the messages it passed on, what it left in the buffer and in the stream,
whether every message was aligned, and the outcomes it did not ask for. -/
structure Reading where
  messages : List (List Byte)
  readBuffer : List Byte
  stream : List Byte
  aligned : Bool
  unused : List ReadOutcome
  ending : ReadEnd

/-- The loop that dispatches all messages that are complete. The delegate may shut the channel
down while it is given a message, the one that `shutdownAt` counts. -/
def dispatchMessages (readBufferStart : ℕ) (shutdownAt : Option ℕ) (buffer stream : List Byte)
    (unused : List ReadOutcome) : Reading :=
  match _hread : readMessage buffer with
  | none =>
    ⟨[], buffer, stream,
      buffer.length < headerSize ∨ readBufferStart % kMessageAlignment = 0, unused, .finished⟩
  | some (message, rest) =>
    let aligned : Bool := readBufferStart % kMessageAlignment = 0
    match shutdownAt with
    | some 0 => ⟨[message], buffer, stream, aligned, unused, .shutDown⟩
    | _ =>
      let reading := dispatchMessages (readBufferStart + message.length)
        (shutdownAt.map fun n => n - 1) rest stream unused
      { reading with
        messages := message :: reading.messages, aligned := aligned && reading.aligned }
termination_by buffer.length
decreasing_by exact length_of_readMessage _hread

/-- The loop of `OnFileCanReadWithoutBlocking`. The messages that were dispatched are taken from
the buffer, so that it begins with a message each time. -/
def readLoop (shutdownAt : Option ℕ) (buffer stream : List Byte) : List ReadOutcome → Reading
  | [] => ⟨[], buffer, stream, true, [], .finished⟩
  | .wouldBlock :: unused => ⟨[], buffer, stream, true, unused, .finished⟩
  | .error :: unused => ⟨[], buffer, stream, true, unused, .failed⟩
  | .bytes n :: outcomes =>
    let bytesRead := stream.take (min n kReadSize)
    let reading := dispatchMessages 0 shutdownAt (buffer ++ bytesRead)
      (stream.drop (min n kReadSize)) outcomes
    if reading.messages ≠ [] ∨ bytesRead.length < kReadSize then reading
    else
      let next := readLoop shutdownAt reading.readBuffer reading.stream outcomes
      { next with aligned := reading.aligned && next.aligned }

namespace Channel

/-- The channel after the call. A call that finds an error cancels the writes. -/
def onFileCanReadWithoutBlocking (c : Channel) (reading : Reading) : Channel :=
  let c := { c with readBuffer := reading.readBuffer }.check reading.aligned
  match reading.ending with
  | .finished => c
  | .failed => c.cancelPendingWritesNoLock
  | .shutDown => c.shutdown

end Channel

/-! ### Two ends -/

/-- Two ends, with the bytes on the way from each. It is recorded which messages `WriteMessage`
accepted at an end and which were passed to `OnReadMessage` there. -/
structure World where
  channel : Bool → Channel
  stream : Bool → List Byte
  accepted : Bool → List MessageInTransit
  delivered : Bool → List (List Byte)

inductive Event
  | writeMessage (side : Bool) (message : MessageInTransit) (onIoThread : Bool)
      (outcome : WriteOutcome)
  | canWrite (side : Bool) (outcome : WriteOutcome)
  | canRead (side : Bool) (outcomes : List ReadOutcome) (shutdownAt : Option ℕ)
  | runWaitToWrite (side : Bool)
  | shutdown (side : Bool)

namespace World

def initial : World := ⟨fun _ => .init, fun _ => [], fun _ => [], fun _ => []⟩

/-- An end goes on, with bytes that went out and messages that were accepted. -/
def advance (w : World) (side : Bool) (c : Channel) (bytes : List Byte)
    (messages : List MessageInTransit) : World :=
  { w with
    channel := Function.update w.channel side c
    stream := Function.update w.stream side (w.stream side ++ bytes)
    accepted := Function.update w.accepted side (w.accepted side ++ messages) }

/-- What an end reads comes from the stream that leaves the other. -/
def reading (w : World) (side : Bool) (outcomes : List ReadOutcome) (shutdownAt : Option ℕ) :
    Reading :=
  readLoop shutdownAt (w.channel side).readBuffer (w.stream !side) outcomes

def receive (w : World) (side : Bool) (reading : Reading) : World :=
  { w with
    stream := Function.update w.stream (!side) reading.stream
    delivered := Function.update w.delivered side (w.delivered side ++ reading.messages) }

/-- The message loop makes a call that an end waits for. A call that reads is described by the
outcomes it asks for, and by the message in which it is shut down if it is. -/
def Enabled (w : World) : Event → Prop
  | .writeMessage .. => True
  | .canWrite side _ => (w.channel side).writeArmed = true
  | .canRead side outcomes shutdownAt =>
    (w.channel side).isOpen = true ∧ (w.reading side outcomes shutdownAt).unused = [] ∧
      (shutdownAt ≠ none → (w.reading side outcomes shutdownAt).ending = .shutDown)
  | .runWaitToWrite side => (w.channel side).waitPosted = true
  | .shutdown side => (w.channel side).isOpen = true

def next (w : World) : Event → World
  | .writeMessage side message onIoThread outcome =>
    let written := (w.channel side).writeMessage message onIoThread outcome
    w.advance side written.channel written.bytes (if written.result then [message] else [])
  | .canWrite side outcome =>
    let written := (w.channel side).onFileCanWriteWithoutBlocking outcome
    w.advance side written.channel written.bytes []
  | .canRead side outcomes shutdownAt =>
    let reading := w.reading side outcomes shutdownAt
    (w.receive side reading).advance side
      ((w.channel side).onFileCanReadWithoutBlocking reading) [] []
  | .runWaitToWrite side =>
    w.advance side { w.channel side with waitPosted := false }.waitToWrite [] []
  | .shutdown side => w.advance side (w.channel side).shutdown [] []

def Step (w : World) (e : Event) (w' : World) : Prop := w.Enabled e ∧ w' = w.next e

end World

/-- The offset is within the front message. -/
def OffsetWithin (c : Channel) : Prop :=
  match c.writeMessageQueue with
  | [] => c.writeMessageOffset = 0
  | message :: _ => c.writeMessageOffset < message.bytes.length

/-- What should hold in each state: the messages that were passed on are the first of those that
were accepted at the other end, the offsets are within, and no check failed. -/
structure Sound (w : World) : Prop where
  delivered : ∀ side, w.delivered side <+: (w.accepted !side).map MessageInTransit.bytes
  offset : ∀ side, OffsetWithin (w.channel side)
  dchecks : ∀ side, (w.channel side).dchecks = true

/-- Cancelling leaves nothing behind that a check or the offset could trip over. -/
def Cancellable (c : Channel) : Prop := c.isDead = false ∧ c.writeMessageOffset = 0

/-- The channel is not marked dead a second time, a channel that is dead does not write, and
nothing is cancelled in the middle of a message. -/
def Careful (w : World) : Event → Prop
  | .writeMessage .. => True
  | .canWrite side outcome =>
    (w.channel side).isDead = false ∧
      (outcome = .error → (w.channel side).writeMessageOffset = 0)
  | .canRead side outcomes shutdownAt =>
    (.error ∈ outcomes → Cancellable (w.channel side)) ∧
      (shutdownAt ≠ none →
        (w.channel side).isDead = true ∨ (w.channel side).writeMessageOffset = 0)
  | .runWaitToWrite _ => True
  | .shutdown side =>
    (w.channel side).isDead = true ∨ (w.channel side).writeMessageOffset = 0

/-- A step that takes care. -/
def CarefulStep (w : World) (e : Event) (w' : World) : Prop := w.Step e w' ∧ Careful w e

/-! ### What a call does to an end -/

/-- The bytes that are still to be written. -/
def pending (c : Channel) : List Byte := (stream c.writeMessageQueue).drop c.writeMessageOffset

/-- What holds of an end in every state. -/
structure Healthy (c : Channel) : Prop where
  dchecks : c.dchecks = true
  offset : OffsetWithin c
  dead : c.isDead = true → c.writeMessageQueue = []
  waiting : c.writeArmed = true ∨ c.waitPosted = true →
    c.isOpen = true ∧ (c.isDead = true ∨ c.writeMessageQueue ≠ [])
  once : ¬ (c.writeArmed = true ∧ c.waitPosted = true)
  closed : c.isOpen = false → c.isDead = true

section Calls
variable {c : Channel} {message : MessageInTransit} {outcome : WriteOutcome}

@[simp]
lemma stream_nil : stream [] = [] := rfl

@[simp]
lemma stream_cons (message : MessageInTransit) (messages : List MessageInTransit) :
    stream (message :: messages) = message.bytes ++ stream messages := rfl

@[simp]
lemma stream_append (xs ys : List MessageInTransit) :
    stream (xs ++ ys) = stream xs ++ stream ys := by
  simp [stream]

lemma check_of {condition : Bool} (h : condition = true) : c.check condition = c := by
  rw [Channel.check, h, Bool.and_true]

/-- What is written and what is pending afterwards is what was pending. -/
lemma writeUpTo_eq {rest : List MessageInTransit} (n : ℕ)
    (hqueue : c.writeMessageQueue = message :: rest)
    (hoffset : c.writeMessageOffset < message.bytes.length) :
    ∃ queue offset bytes, c.writeUpTo message rest n =
        ⟨{ c with writeMessageQueue := queue, writeMessageOffset := offset }, bytes, true⟩ ∧
      OffsetWithin { c with writeMessageQueue := queue, writeMessageOffset := offset } ∧
      bytes ++ (stream queue).drop offset = pending c := by
  have hpending : pending c = message.bytes.drop c.writeMessageOffset ++ stream rest := by
    rw [pending, hqueue, stream_cons, List.drop_append_of_le_length hoffset.le]
  unfold Channel.writeUpTo
  dsimp only
  split_ifs with hpart
  · refine ⟨message :: rest, _, _, by rw [← hqueue], ?_, ?_⟩
    · simp only [OffsetWithin]
      simp only [List.length_take, List.length_drop] at hpart ⊢
      omega
    · have hle : c.writeMessageOffset + ((message.bytes.drop c.writeMessageOffset).take n).length
          ≤ message.bytes.length := by
        simp only [List.length_take, List.length_drop]
        omega
      rw [hpending, stream_cons, List.drop_append_of_le_length hle, ← List.append_assoc,
        ← List.drop_drop, List.length_take]
      congr 1
      rw [List.length_take] at hpart
      rw [min_eq_left (by omega), List.take_append_drop]
  · refine ⟨rest, 0, _, rfl, ?_, ?_⟩
    · simp only [OffsetWithin]
      cases rest with
      | nil => trivial
      | cons first rest => exact lt_of_lt_of_le (by decide) first.header_le
    · rw [hpending, List.drop_zero]
      congr 1
      rw [List.length_take] at hpart
      exact List.take_of_length_le (by omega)

/-- A channel that is not dead and has a message writes some of it, or it is cancelled. -/
lemma writeFrontMessageNoLock_cases (outcome : WriteOutcome) (hdead : c.isDead = false)
    (hqueue : c.writeMessageQueue ≠ []) (hoffset : OffsetWithin c) :
    (outcome = .error ∧ c.writeFrontMessageNoLock outcome =
        ⟨{ c with isDead := true, writeMessageQueue := [] }, [], false⟩) ∨
      (outcome ≠ .error ∧ ∃ queue offset bytes, c.writeFrontMessageNoLock outcome =
          ⟨{ c with writeMessageQueue := queue, writeMessageOffset := offset }, bytes, true⟩ ∧
        OffsetWithin { c with writeMessageQueue := queue, writeMessageOffset := offset } ∧
        bytes ++ (stream queue).drop offset = pending c) := by
  obtain ⟨message, rest, hcons⟩ := List.exists_cons_of_ne_nil hqueue
  have hlt : c.writeMessageOffset < message.bytes.length := by
    rw [OffsetWithin, hcons] at hoffset
    exact hoffset
  have hfront : c.writeFrontMessageNoLock outcome = match outcome with
      | .error => ⟨c.cancelPendingWritesNoLock, [], false⟩
      | .wouldBlock => c.writeUpTo message rest 0
      | .bytes n => c.writeUpTo message rest n := by
    unfold Channel.writeFrontMessageNoLock
    rw [check_of (by rw [hdead]; rfl)]
    simp only [hcons]
    rw [check_of (decide_eq_true hlt)]
  rw [hfront]
  cases outcome with
  | error =>
    left
    refine ⟨rfl, ?_⟩
    simp only [Channel.cancelPendingWritesNoLock]
    rw [check_of (by rw [hdead]; rfl)]
  | wouldBlock => exact Or.inr ⟨by simp, writeUpTo_eq 0 hcons hlt⟩
  | bytes n => exact Or.inr ⟨by simp, writeUpTo_eq n hcons hlt⟩

/-- An end goes on: some of what was pending went out as `bytes`, and `messages` were accepted.
What an end that dies had pending is lost. -/
structure Progress (c c' : Channel) (bytes : List Byte) (messages : List MessageInTransit) :
    Prop where
  healthy : Healthy c'
  isOpen : c'.isOpen = true → c.isOpen = true
  readBuffer : c'.readBuffer = c.readBuffer
  dead : c.isDead = true → c'.isDead = true ∧ bytes = [] ∧ messages = []
  flow : c.isDead = false → ∃ tail, bytes ++ tail = pending c ++ stream messages ∧
    (c'.isDead = false → tail = pending c')

/-- While nothing waits, the next message is written at once. -/
lemma Healthy.not_waiting (h : Healthy c) (hdead : c.isDead = false)
    (hqueue : c.writeMessageQueue = []) : c.writeArmed = false ∧ c.waitPosted = false := by
  have hnot : ¬ (c.writeArmed = true ∨ c.waitPosted = true) := by
    intro hwait
    rcases (h.waiting hwait).2 with hd | hq
    · rw [hdead] at hd
      cases hd
    · exact hq hqueue
  simpa using hnot

lemma Healthy.isOpen_of_not_dead (h : Healthy c) (hdead : c.isDead = false) :
    c.isOpen = true := by
  by_contra hclosed
  rw [h.closed (Bool.eq_false_of_not_eq_true hclosed)] at hdead
  cases hdead

/-- The end dies at a message boundary. -/
lemma progress_dies (h : Healthy c) (hdead : c.isDead = false) (hoffset : c.writeMessageOffset = 0)
    {armed : Bool} (harmed : armed = true → c.writeArmed = true) :
    Progress c { c with isDead := true, writeMessageQueue := [], writeArmed := armed } [] [] where
  healthy :=
    { dchecks := h.dchecks
      offset := hoffset
      dead := fun _ => rfl
      waiting := fun hwait => ⟨(h.waiting (hwait.imp_left harmed)).1, Or.inl rfl⟩
      once := fun hboth => h.once ⟨harmed hboth.1, hboth.2⟩
      closed := fun _ => rfl }
  isOpen := id
  readBuffer := rfl
  dead := fun hd => by
    rw [hdead] at hd
    cases hd
  flow := fun _ => ⟨pending c, (List.append_nil _).symm, fun hd => by cases hd⟩

/-- The end writes on, and waits if it is not done. -/
lemma progress_writes (h : Healthy c) (hdead : c.isDead = false) {queue : List MessageInTransit}
    {offset : ℕ} {bytes : List Byte} {messages : List MessageInTransit} {armed posted : Bool}
    (hoffset : OffsetWithin { c with writeMessageQueue := queue, writeMessageOffset := offset })
    (hbytes : bytes ++ (stream queue).drop offset = pending c ++ stream messages)
    (hwait : armed = true ∨ posted = true → queue ≠ []) (honce : ¬ (armed = true ∧ posted = true)) :
    Progress c
      { c with
        writeMessageQueue := queue, writeMessageOffset := offset, writeArmed := armed,
        waitPosted := posted } bytes messages where
  healthy :=
    { dchecks := h.dchecks
      offset := hoffset
      dead := fun hd => by
        rw [hdead] at hd
        cases hd
      waiting := fun hw => ⟨h.isOpen_of_not_dead hdead, Or.inr (hwait hw)⟩
      once := honce
      closed := h.closed }
  isOpen := id
  readBuffer := rfl
  dead := fun hd => by
    rw [hdead] at hd
    cases hd
  flow := fun _ => ⟨_, hbytes, fun _ => rfl⟩

/-- Nothing that concerns the messages changes. -/
lemma progress_refl (h : Healthy c) : Progress c c [] [] where
  healthy := h
  isOpen := id
  readBuffer := rfl
  dead := fun hd => ⟨hd, rfl, rfl⟩
  flow := fun _ => ⟨pending c, by simp, fun _ => rfl⟩

lemma orWait_error {bytes : List Byte} (hqueue : c.writeMessageQueue = [])
    (wait : Channel → Channel) : (Written.mk c bytes false).orWait wait = ⟨c, bytes, false⟩ := by
  unfold Written.orWait
  dsimp only
  rw [if_pos (Or.inl rfl), check_of (by rw [hqueue]; rfl)]

lemma orWait_written {bytes : List Byte} (wait : Channel → Channel) :
    (Written.mk c bytes true).orWait wait =
      ⟨if c.writeMessageQueue = [] then c else wait c, bytes, true⟩ := by
  unfold Written.orWait
  dsimp only
  rw [check_of (Bool.true_or _)]
  by_cases hqueue : c.writeMessageQueue = []
  · rw [if_pos (Or.inr hqueue), if_pos hqueue]
  · rw [if_neg (by simp [hqueue]), if_neg hqueue]

lemma writeMessage_dead (hdead : c.isDead = true) (onIoThread : Bool) :
    c.writeMessage message onIoThread outcome = ⟨c, [], false⟩ :=
  if_pos hdead

/-- The message waits behind the others. -/
lemma writeMessage_behind (hdead : c.isDead = false) (hqueue : c.writeMessageQueue ≠ [])
    (onIoThread : Bool) : c.writeMessage message onIoThread outcome =
      ⟨{ c with writeMessageQueue := c.writeMessageQueue ++ [message] }, [], true⟩ := by
  unfold Channel.writeMessage
  rw [if_neg (by simp [hdead]), if_pos hqueue]

lemma writeMessage_first (hdead : c.isDead = false) (hqueue : c.writeMessageQueue = [])
    (hoffset : c.writeMessageOffset = 0) (onIoThread : Bool) :
    c.writeMessage message onIoThread outcome =
      ({ c with writeMessageQueue := [message] }.writeFrontMessageNoLock outcome).orWait
        fun c => if onIoThread then c.waitToWrite else { c with waitPosted := true } := by
  unfold Channel.writeMessage
  rw [if_neg (by simp [hdead]), if_neg (not_not_intro hqueue)]
  dsimp only
  rw [check_of (decide_eq_true hoffset)]

lemma progress_behind (h : Healthy c) (hdead : c.isDead = false)
    (hqueue : c.writeMessageQueue ≠ []) (message : MessageInTransit) :
    Progress c { c with writeMessageQueue := c.writeMessageQueue ++ [message] } [] [message] := by
  obtain ⟨first, rest, hcons⟩ := List.exists_cons_of_ne_nil hqueue
  have hoffset := h.offset
  rw [OffsetWithin, hcons] at hoffset
  apply progress_writes h hdead
  · rw [OffsetWithin, hcons]
    exact hoffset
  · have hle : c.writeMessageOffset ≤ (stream c.writeMessageQueue).length := by
      rw [hcons, stream_cons, List.length_append]
      exact le_trans hoffset.le (Nat.le_add_right _ _)
    rw [pending, List.nil_append, stream_append, List.drop_append_of_le_length hle]
  · intro _
    simp
  · exact h.once

lemma progress_first (h : Healthy c) (hdead : c.isDead = false)
    (hqueue : c.writeMessageQueue = []) (onIoThread : Bool) :
    let written := c.writeMessage message onIoThread outcome
    Progress c written.channel written.bytes (if written.result then [message] else []) := by
  have hoffset : c.writeMessageOffset = 0 := by
    have := h.offset
    rwa [OffsetWithin, hqueue] at this
  obtain ⟨harmed, hposted⟩ := h.not_waiting hdead hqueue
  have hwithin : OffsetWithin { c with writeMessageQueue := [message] } := by
    show c.writeMessageOffset < message.bytes.length
    rw [hoffset]
    exact lt_of_lt_of_le (by decide) message.header_le
  intro written
  have heq : written = _ := writeMessage_first hdead hqueue hoffset onIoThread
  rcases writeFrontMessageNoLock_cases (c := { c with writeMessageQueue := [message] }) outcome
      hdead (by simp) hwithin with
    ⟨-, hfront⟩ | ⟨-, queue, offset, bytes, hfront, hoffset', hbytes⟩
  · rw [hfront, orWait_error rfl] at heq
    rw [heq]
    exact progress_dies h hdead hoffset id
  · have hpending : bytes ++ (stream queue).drop offset = pending c ++ stream [message] := by
      rw [hbytes, pending, pending, hqueue, hoffset]
      simp
    rw [hfront, orWait_written] at heq
    rw [heq]
    dsimp only
    rw [if_pos rfl]
    split_ifs with hdone hio
    · exact progress_writes h hdead hoffset' hpending (by simp [harmed, hposted])
        (by simp [harmed])
    · rw [Channel.waitToWrite, check_of (h.isOpen_of_not_dead hdead)]
      exact progress_writes h hdead hoffset' hpending (fun _ => hdone) (by simp [hposted])
    · exact progress_writes h hdead hoffset' hpending (fun _ => hdone) (by simp [harmed])

lemma progress_writeMessage (h : Healthy c) (onIoThread : Bool) :
    let written := c.writeMessage message onIoThread outcome
    Progress c written.channel written.bytes (if written.result then [message] else []) := by
  by_cases hdead : c.isDead = true
  · rw [writeMessage_dead hdead]
    exact progress_refl h
  rw [Bool.not_eq_true] at hdead
  by_cases hqueue : c.writeMessageQueue = []
  · exact progress_first h hdead hqueue onIoThread
  · rw [writeMessage_behind hdead hqueue]
    exact progress_behind h hdead hqueue message

lemma onFileCanWriteWithoutBlocking_eq (hdead : c.isDead = false)
    (hqueue : c.writeMessageQueue ≠ []) : c.onFileCanWriteWithoutBlocking outcome =
      ({ c with writeArmed := false }.writeFrontMessageNoLock outcome).orWait
        Channel.waitToWrite := by
  unfold Channel.onFileCanWriteWithoutBlocking
  dsimp only
  rw [check_of (c := { c with writeArmed := false }) (by rw [hdead]; rfl),
    check_of (by simp [hqueue])]

lemma Healthy.queue_of_waiting (h : Healthy c) (hdead : c.isDead = false)
    (hwait : c.writeArmed = true ∨ c.waitPosted = true) : c.writeMessageQueue ≠ [] := by
  rcases (h.waiting hwait).2 with hd | hq
  · rw [hdead] at hd
    cases hd
  · exact hq

lemma progress_canWrite (h : Healthy c) (harmed : c.writeArmed = true) (hdead : c.isDead = false)
    (herror : outcome = .error → c.writeMessageOffset = 0) :
    let written := c.onFileCanWriteWithoutBlocking outcome
    Progress c written.channel written.bytes [] := by
  have hqueue := h.queue_of_waiting hdead (Or.inl harmed)
  have hposted : c.waitPosted = false := by
    have := h.once
    simpa [harmed] using this
  intro written
  have heq : written = _ := onFileCanWriteWithoutBlocking_eq hdead hqueue
  rcases writeFrontMessageNoLock_cases (c := { c with writeArmed := false }) outcome hdead hqueue
      h.offset with
    ⟨hout, hfront⟩ | ⟨-, queue, offset, bytes, hfront, hoffset, hbytes⟩
  · rw [hfront, orWait_error rfl] at heq
    rw [heq]
    exact progress_dies h hdead (herror hout) (by simp)
  · have hpending : bytes ++ (stream queue).drop offset = pending c ++ stream [] := by
      rw [hbytes, stream_nil, List.append_nil]
      rfl
    rw [hfront, orWait_written] at heq
    rw [heq]
    dsimp only
    split_ifs with hdone
    · exact progress_writes h hdead hoffset hpending (by simp [hposted]) (by simp)
    · rw [Channel.waitToWrite, check_of (h.isOpen_of_not_dead hdead)]
      exact progress_writes h hdead hoffset hpending (fun _ => hdone) (by simp [hposted])

/-- The posted call arms the watcher. -/
lemma progress_waitToWrite (h : Healthy c) (hposted : c.waitPosted = true) :
    Progress c { c with waitPosted := false }.waitToWrite [] [] := by
  obtain ⟨hopen, hrest⟩ := h.waiting (Or.inr hposted)
  rw [Channel.waitToWrite, check_of hopen]
  exact
    { healthy :=
        { dchecks := h.dchecks
          offset := h.offset
          dead := h.dead
          waiting := fun _ => ⟨hopen, hrest⟩
          once := by simp
          closed := h.closed }
      isOpen := id
      readBuffer := rfl
      dead := fun hd => ⟨hd, rfl, rfl⟩
      flow := fun _ => ⟨pending c, by simp, fun _ => rfl⟩ }

lemma progress_cancel (h : Healthy c) (hc : Cancellable c) :
    Progress c c.cancelPendingWritesNoLock [] [] := by
  rw [Channel.cancelPendingWritesNoLock, check_of (by rw [hc.1]; rfl)]
  exact progress_dies h hc.1 hc.2 id

lemma isDead_cancelled : (if c.isDead then c else c.cancelPendingWritesNoLock).isDead = true := by
  split_ifs with hdead
  · exact hdead
  · rfl

lemma progress_cancelled (h : Healthy c) (hc : c.isDead = true ∨ c.writeMessageOffset = 0) :
    Progress c (if c.isDead then c else c.cancelPendingWritesNoLock) [] [] := by
  split_ifs with hdead
  · exact progress_refl h
  · have hoffset : c.writeMessageOffset = 0 := hc.resolve_left hdead
    rw [Bool.not_eq_true] at hdead
    exact progress_cancel h ⟨hdead, hoffset⟩

lemma progress_shutdown (h : Healthy c) (hopen : c.isOpen = true)
    (hc : c.isDead = true ∨ c.writeMessageOffset = 0) : Progress c c.shutdown [] [] := by
  have hdead := isDead_cancelled (c := c)
  have hopen' : (if c.isDead then c else c.cancelPendingWritesNoLock).isOpen = true := by
    split_ifs
    · exact hopen
    · exact hopen
  have hp := progress_cancelled h hc
  unfold Channel.shutdown
  dsimp only
  rw [check_of hopen']
  exact
    { healthy :=
        { dchecks := hp.healthy.dchecks
          offset := hp.healthy.offset
          dead := hp.healthy.dead
          waiting := by simp
          once := by simp
          closed := fun _ => hdead }
      isOpen := fun _ => hopen
      readBuffer := hp.readBuffer
      dead := hp.dead
      flow := fun hd => by
        obtain ⟨tail, htail, -⟩ := hp.flow hd
        exact ⟨tail, htail, fun halive => absurd (hdead.symm.trans halive) (by simp)⟩ }

end Calls

/-! ### What a call reads -/

section Reading
variable {buffer rest bytes : List Byte} {unused : List ReadOutcome}

/-- What was passed on and what is left is what was there. The messages that the stream is made of
are passed on as they are. -/
structure Delivers (messages : List MessageInTransit) (tail : List Byte) (reading : Reading) :
    Prop where
  split : ∃ rest, messages.map MessageInTransit.bytes =
      reading.messages ++ rest.map MessageInTransit.bytes ∧
    (reading.ending ≠ .shutDown → reading.readBuffer ++ reading.stream ++ tail = stream rest)
  aligned : reading.aligned = true

lemma dispatchMessages_none (h : readMessage buffer = none) (start : ℕ) (shutdownAt : Option ℕ) :
    dispatchMessages start shutdownAt buffer bytes unused =
      ⟨[], buffer, bytes, buffer.length < headerSize ∨ start % kMessageAlignment = 0, unused,
        .finished⟩ := by
  rw [dispatchMessages]
  split
  · rfl
  · next hsome =>
    rw [h] at hsome
    cases hsome

lemma dispatchMessages_some {message : List Byte} (h : readMessage buffer = some (message, rest))
    (start : ℕ) (shutdownAt : Option ℕ) :
    dispatchMessages start shutdownAt buffer bytes unused =
      if shutdownAt = some 0 then
        ⟨[message], buffer, bytes, start % kMessageAlignment = 0, unused, .shutDown⟩
      else
        let reading := dispatchMessages (start + message.length) (shutdownAt.map fun n => n - 1)
          rest bytes unused
        { reading with
          messages := message :: reading.messages
          aligned := decide (start % kMessageAlignment = 0) && reading.aligned } := by
  rw [dispatchMessages]
  split
  · next hnone =>
    rw [h] at hnone
    cases hnone
  · next hsome =>
    rw [h] at hsome
    cases hsome
    split
    · rw [if_pos rfl]
    · next hne => rw [if_neg (fun heq => hne heq)]

lemma delivers_dispatch {messages : List MessageInTransit} {tail : List Byte} {start : ℕ}
    (hstream : buffer ++ (bytes ++ tail) = stream messages)
    (hstart : start % kMessageAlignment = 0) (shutdownAt : Option ℕ)
    (unused : List ReadOutcome) :
    Delivers messages tail (dispatchMessages start shutdownAt buffer bytes unused) := by
  induction messages generalizing buffer start shutdownAt with
  | nil =>
    obtain ⟨rfl, -⟩ := List.append_eq_nil_iff.mp hstream
    rw [dispatchMessages_none (by decide)]
    exact ⟨⟨[], rfl, fun _ => by rwa [List.append_assoc]⟩, by simp [hstart]⟩
  | cons first more ih =>
    cases hread : readMessage buffer with
    | none =>
      rw [dispatchMessages_none hread]
      exact ⟨⟨first :: more, rfl, fun _ => by rwa [List.append_assoc]⟩, by simp [hstart]⟩
    | some result =>
      obtain ⟨message, rest⟩ := result
      -- the message is read off the stream as well, and there it is the first
      have happend := exact_readMessage.append hread (bytes ++ tail)
      rw [hstream, stream_cons, readMessage_append, Option.some.injEq, Prod.mk.injEq] at happend
      obtain ⟨rfl, hmore⟩ := happend
      have hstart' : (start + first.bytes.length) % kMessageAlignment = 0 := by
        obtain ⟨k, hk⟩ := kMessageAlignment_dvd first.bytes
        rw [first.length_eq, hk, Nat.add_mul_mod_self_left, hstart]
      rw [dispatchMessages_some hread]
      split_ifs with hshut
      · exact ⟨⟨more, rfl, fun hne => absurd rfl hne⟩, by simp [hstart]⟩
      · obtain ⟨⟨left, hsplit, hleft⟩, haligned⟩ :=
          ih hmore.symm hstart' (shutdownAt.map fun n => n - 1)
        refine ⟨⟨left, ?_, hleft⟩, by simp [hstart, haligned]⟩
        rw [List.map_cons, hsplit]
        rfl

/-- How the dispatching ends. -/
lemma ending_dispatch (start : ℕ) (shutdownAt : Option ℕ) (buffer bytes : List Byte)
    (unused : List ReadOutcome) :
    (dispatchMessages start shutdownAt buffer bytes unused).unused = unused ∧
      ((dispatchMessages start shutdownAt buffer bytes unused).ending = .finished ∨
        ((dispatchMessages start shutdownAt buffer bytes unused).ending = .shutDown ∧
          (dispatchMessages start shutdownAt buffer bytes unused).messages ≠ [] ∧
          shutdownAt ≠ none)) := by
  fun_induction dispatchMessages start shutdownAt buffer bytes unused with
  | case1 => exact ⟨rfl, Or.inl rfl⟩
  | case2 => exact ⟨rfl, Or.inr ⟨rfl, by simp, by simp⟩⟩
  | case3 =>
    rename_i ih
    obtain ⟨hunused, hfinished | ⟨hshut, -, hsome⟩⟩ := ih
    · exact ⟨hunused, Or.inl hfinished⟩
    · refine ⟨hunused, Or.inr ⟨hshut, by simp, ?_⟩⟩
      intro hnone
      rw [hnone] at hsome
      exact hsome rfl

lemma stream_congr {xs ys : List MessageInTransit}
    (h : xs.map MessageInTransit.bytes = ys.map MessageInTransit.bytes) :
    stream xs = stream ys := by
  rw [stream, stream, h]

lemma delivers_nothing {messages : List MessageInTransit} {tail : List Byte}
    (hstream : buffer ++ (bytes ++ tail) = stream messages) (unused : List ReadOutcome)
    (ending : ReadEnd) : Delivers messages tail ⟨[], buffer, bytes, true, unused, ending⟩ :=
  ⟨⟨messages, rfl, fun _ => by rwa [List.append_assoc]⟩, rfl⟩

lemma delivers_readLoop {messages : List MessageInTransit} {tail : List Byte}
    (hstream : buffer ++ (bytes ++ tail) = stream messages) (shutdownAt : Option ℕ)
    (outcomes : List ReadOutcome) :
    Delivers messages tail (readLoop shutdownAt buffer bytes outcomes) := by
  induction outcomes generalizing buffer bytes with
  | nil => exact delivers_nothing hstream _ _
  | cons outcome outcomes ih =>
    cases outcome with
    | wouldBlock => exact delivers_nothing hstream _ _
    | error => exact delivers_nothing hstream _ _
    | bytes n =>
      have hcut : buffer ++ bytes.take (min n kReadSize) ++
          (bytes.drop (min n kReadSize) ++ tail) = stream messages := by
        rw [← hstream, List.append_assoc, ← List.append_assoc (bytes.take _),
          List.take_append_drop]
      have hdispatch := delivers_dispatch hcut (Nat.zero_mod _) shutdownAt outcomes
      unfold readLoop
      dsimp only
      split_ifs with hstop
      · exact hdispatch
      · rw [not_or, not_not] at hstop
        obtain ⟨⟨rest, hsplit, hrest⟩, haligned⟩ := hdispatch
        rw [hstop.1, List.nil_append] at hsplit
        have hgoes : (dispatchMessages 0 shutdownAt (buffer ++ bytes.take (min n kReadSize))
            (bytes.drop (min n kReadSize)) outcomes).ending ≠ .shutDown := by
          intro hshut
          rcases (ending_dispatch 0 shutdownAt _ _ _).2 with hfinished | ⟨-, hsome, -⟩
          · rw [hfinished] at hshut
            cases hshut
          · exact hsome hstop.1
        have hnext := hrest hgoes
        rw [← stream_congr hsplit, List.append_assoc] at hnext
        obtain ⟨hsplit', haligned'⟩ := ih hnext
        exact ⟨hsplit', by simp [haligned, haligned']⟩

/-- The call fails when a read does, and only a delegate shuts the channel down. -/
lemma ending_readLoop (shutdownAt : Option ℕ) (buffer bytes : List Byte)
    (outcomes : List ReadOutcome) :
    let reading := readLoop shutdownAt buffer bytes outcomes
    (reading.ending = .failed → .error ∈ outcomes) ∧
      (.error ∈ outcomes → reading.unused = [] → reading.ending = .failed) ∧
      (reading.ending = .shutDown → shutdownAt ≠ none) := by
  induction outcomes generalizing buffer bytes with
  | nil => simp [readLoop]
  | cons outcome outcomes ih =>
    cases outcome with
    | wouldBlock =>
      simp only [readLoop, List.mem_cons, reduceCtorEq, false_or]
      refine ⟨by simp, fun hmem hnil => ?_, by simp⟩
      rw [hnil] at hmem
      cases hmem
    | error => simp [readLoop]
    | bytes n =>
      obtain ⟨hunused, hending⟩ := ending_dispatch 0 shutdownAt
        (buffer ++ bytes.take (min n kReadSize)) (bytes.drop (min n kReadSize)) outcomes
      unfold readLoop
      dsimp only
      split_ifs with hstop
      · rw [hunused]
        simp only [List.mem_cons, reduceCtorEq, false_or]
        refine ⟨fun hfailed => ?_, fun hmem hnil => ?_, fun hshut => ?_⟩
        · rw [hfailed] at hending
          simp at hending
        · rw [hnil] at hmem
          cases hmem
        · rw [hshut] at hending
          simp only [reduceCtorEq, false_or, true_and] at hending
          exact hending.2
      · simpa using ih _ _

end Reading

/-! ### The stream from one end to the other -/

/-- The messages that were accepted are those that were passed on and those that are on the way:
in the buffer of the reader, in the stream, and still to be written. -/
structure Flows (sender receiver : Channel) (bytes : List Byte)
    (accepted : List MessageInTransit) (delivered : List (List Byte)) : Prop where
  passed : delivered <+: accepted.map MessageInTransit.bytes
  underway : receiver.isOpen = true → ∃ rest tail,
    accepted.map MessageInTransit.bytes = delivered ++ rest.map MessageInTransit.bytes ∧
      receiver.readBuffer ++ (bytes ++ tail) = stream rest ∧
      (sender.isDead = false → tail = pending sender)

section Flows
variable {sender sender' receiver receiver' : Channel} {bytes more : List Byte}
  {accepted messages : List MessageInTransit} {delivered : List (List Byte)}

/-- The sender goes on. -/
lemma Flows.sends (h : Flows sender receiver bytes accepted delivered)
    (hp : Progress sender sender' more messages) :
    Flows sender' receiver (bytes ++ more) (accepted ++ messages) delivered where
  passed := by
    rw [List.map_append]
    exact h.passed.trans (List.prefix_append _ _)
  underway := by
    intro hopen
    obtain ⟨rest, tail, hsplit, hstream, htail⟩ := h.underway hopen
    by_cases hdead : sender.isDead = true
    · obtain ⟨hdead', rfl, rfl⟩ := hp.dead hdead
      refine ⟨rest, tail, ?_, ?_, fun halive => ?_⟩
      · rwa [List.append_nil]
      · rwa [List.append_nil]
      · rw [hdead'] at halive
        cases halive
    · rw [Bool.not_eq_true] at hdead
      obtain ⟨tail', hmore, htail'⟩ := hp.flow hdead
      refine ⟨rest ++ messages, tail', ?_, ?_, htail'⟩
      · rw [List.map_append, List.map_append, hsplit, List.append_assoc]
      · rw [List.append_assoc bytes, hmore, ← htail hdead, stream_append, ← hstream]
        simp only [List.append_assoc]

/-- The receiver goes on with what it has to send itself. -/
lemma Flows.receiver_sends (h : Flows sender receiver bytes accepted delivered)
    (hp : Progress receiver receiver' more messages) :
    Flows sender receiver' bytes accepted delivered where
  passed := h.passed
  underway := fun hopen => by
    rw [hp.readBuffer]
    exact h.underway (hp.isOpen hopen)

lemma Flows.sender_readBuffer (h : Flows sender receiver bytes accepted delivered)
    (readBuffer : List Byte) :
    Flows { sender with readBuffer := readBuffer } receiver bytes accepted delivered :=
  ⟨h.passed, h.underway⟩

/-- The receiver reads. It is shut down if the delegate does that. -/
lemma Flows.reads (h : Flows sender receiver bytes accepted delivered)
    (hopen : receiver.isOpen = true) (shutdownAt : Option ℕ) (outcomes : List ReadOutcome) :
    let reading := readLoop shutdownAt receiver.readBuffer bytes outcomes
    reading.aligned = true ∧ delivered ++ reading.messages <+: accepted.map MessageInTransit.bytes ∧
      (reading.ending ≠ .shutDown →
        Flows sender { receiver with readBuffer := reading.readBuffer } reading.stream accepted
          (delivered ++ reading.messages)) := by
  intro reading
  obtain ⟨rest, tail, hsplit, hstream, htail⟩ := h.underway hopen
  obtain ⟨⟨left, hleft, hrest⟩, haligned⟩ := delivers_readLoop hstream shutdownAt outcomes
  have hall : accepted.map MessageInTransit.bytes =
      delivered ++ reading.messages ++ left.map MessageInTransit.bytes := by
    rw [hsplit, hleft, List.append_assoc]
  have hpre : delivered ++ reading.messages <+: accepted.map MessageInTransit.bytes := by
    rw [hall]
    exact List.prefix_append _ _
  refine ⟨haligned, hpre, fun hgoes => ⟨hpre, fun _ => ⟨left, tail, hall, ?_, htail⟩⟩⟩
  rw [← hrest hgoes, List.append_assoc]

end Flows

/-- The invariant of two ends. -/
structure Inv (w : World) : Prop where
  healthy : ∀ side, Healthy (w.channel side)
  flows : ∀ side, Flows (w.channel side) (w.channel !side) (w.stream side) (w.accepted side)
    (w.delivered !side)

lemma Inv.sound {w : World} (h : Inv w) : Sound w where
  delivered := fun side => by
    have := (h.flows !side).passed
    rwa [Bool.not_not] at this
  offset := fun side => (h.healthy side).offset
  dchecks := fun side => (h.healthy side).dchecks

lemma inv_initial : Inv World.initial where
  healthy := fun _ =>
    { dchecks := rfl
      offset := rfl
      dead := fun hd => by cases hd
      waiting := fun hwait => by rcases hwait with h | h <;> cases h
      once := fun hboth => by cases hboth.1
      closed := fun hclosed => by cases hclosed }
  flows := fun _ => ⟨List.prefix_refl _, fun _ => ⟨[], [], rfl, rfl, fun _ => rfl⟩⟩

/-- The end that goes on keeps the invariant, in both directions. -/
lemma Inv.advance {w : World} (h : Inv w) {side : Bool} {c : Channel} {bytes : List Byte}
    {messages : List MessageInTransit} (hp : Progress (w.channel side) c bytes messages) :
    Inv (w.advance side c bytes messages) where
  healthy := by
    intro other
    by_cases heq : other = side
    · subst heq
      simpa [World.advance] using hp.healthy
    · simpa [World.advance, heq] using h.healthy other
  flows := by
    intro other
    by_cases heq : other = side
    · subst heq
      simpa [World.advance] using (h.flows other).sends hp
    · have hside : side = !other := by
        revert heq
        cases side <;> cases other <;> simp
      subst hside
      simpa [World.advance] using (h.flows other).receiver_sends hp

lemma Healthy.readBuffer {c : Channel} (h : Healthy c) (readBuffer : List Byte) :
    Healthy { c with readBuffer := readBuffer } :=
  ⟨h.dchecks, h.offset, h.dead, h.waiting, h.once, h.closed⟩

/-- What a call that reads does to the writing half of the end. -/
lemma progress_canRead {c : Channel} (h : Healthy c) (hopen : c.isOpen = true) {reading : Reading}
    (haligned : reading.aligned = true) (hfailed : reading.ending = .failed → Cancellable c)
    (hshut : reading.ending = .shutDown → c.isDead = true ∨ c.writeMessageOffset = 0) :
    Progress { c with readBuffer := reading.readBuffer }
      (c.onFileCanReadWithoutBlocking reading) [] [] := by
  have hbuffer := h.readBuffer reading.readBuffer
  unfold Channel.onFileCanReadWithoutBlocking
  rw [check_of haligned]
  cases hending : reading.ending with
  | finished => exact progress_refl hbuffer
  | failed => exact progress_cancel hbuffer (hfailed hending)
  | shutDown => exact progress_shutdown hbuffer hopen (hshut hending)

/-- The end that read keeps the invariant, in both directions. -/
lemma Inv.receive {w : World} (h : Inv w) {side : Bool} {reading : Reading} {c : Channel}
    (hp : Progress { w.channel side with readBuffer := reading.readBuffer } c [] [])
    (hflows : Flows (w.channel !side) c reading.stream (w.accepted !side)
      (w.delivered side ++ reading.messages)) :
    Inv ((w.receive side reading).advance side c [] []) where
  healthy := by
    intro other
    by_cases heq : other = side
    · subst heq
      simpa [World.advance] using hp.healthy
    · simpa [World.advance, World.receive, heq] using h.healthy other
  flows := by
    intro other
    by_cases heq : other = side
    · subst heq
      have := ((h.flows other).sender_readBuffer _).sends hp
      simpa [World.advance, World.receive] using this
    · have hother : other = !side := by
        revert heq
        cases side <;> cases other <;> simp
      subst hother
      simpa [World.advance, World.receive] using hflows

lemma Inv.canRead {w : World} (h : Inv w) {side : Bool} {outcomes : List ReadOutcome}
    {shutdownAt : Option ℕ} (henabled : w.Enabled (.canRead side outcomes shutdownAt))
    (hcareful : Careful w (.canRead side outcomes shutdownAt)) :
    Inv (w.next (.canRead side outcomes shutdownAt)) := by
  obtain ⟨hopen, -, -⟩ := henabled
  obtain ⟨herror, hshut⟩ := hcareful
  have hreads := h.flows !side
  rw [Bool.not_not] at hreads
  obtain ⟨haligned, hpassed, hgoes⟩ := hreads.reads hopen shutdownAt outcomes
  obtain ⟨hfailed, -, hnone⟩ :=
    ending_readLoop shutdownAt (w.channel side).readBuffer (w.stream !side) outcomes
  have hp := progress_canRead (h.healthy side) hopen haligned (fun hf => herror (hfailed hf))
    (fun hs => hshut (hnone hs))
  apply h.receive hp
  by_cases hending : (w.reading side outcomes shutdownAt).ending = .shutDown
  · -- nothing is read after the channel was shut down
    have hclosed : ((w.channel side).onFileCanReadWithoutBlocking
        (w.reading side outcomes shutdownAt)).isOpen = false := by
      unfold Channel.onFileCanReadWithoutBlocking
      rw [hending]
      rfl
    exact ⟨hpassed, fun hopen' => absurd (hclosed.symm.trans hopen') (by simp)⟩
  · exact (hgoes hending).receiver_sends hp

/-- A step that takes care keeps the invariant. -/
lemma Inv.step {w w' : World} {e : Event} (h : Inv w) (hstep : CarefulStep w e w') : Inv w' := by
  obtain ⟨⟨henabled, rfl⟩, hcareful⟩ := hstep
  cases e with
  | writeMessage side message onIoThread outcome =>
    exact h.advance (progress_writeMessage (h.healthy side) onIoThread)
  | canWrite side outcome =>
    exact h.advance (progress_canWrite (h.healthy side) henabled hcareful.1 hcareful.2)
  | canRead side outcomes shutdownAt => exact h.canRead henabled hcareful
  | runWaitToWrite side => exact h.advance (progress_waitToWrite (h.healthy side) henabled)
  | shutdown side => exact h.advance (progress_shutdown (h.healthy side) henabled hcareful)

/-! ### Steps that take no care -/

section Careless
variable {c : Channel} {outcome : WriteOutcome}

lemma dchecks_check {condition : Bool} (h : (c.check condition).dchecks = true) :
    c.dchecks = true ∧ condition = true := by
  simpa [Channel.check] using h

/-- Without care a check fails or the offset stays. -/
lemma careful_of_cancel (hdchecks : c.cancelPendingWritesNoLock.dchecks = true)
    (hoffset : OffsetWithin c.cancelPendingWritesNoLock) : Cancellable c := by
  obtain ⟨-, hdead⟩ := dchecks_check hdchecks
  exact ⟨by simpa using hdead, hoffset⟩

lemma careful_of_shutdown (hoffset : OffsetWithin c.shutdown) :
    c.isDead = true ∨ c.writeMessageOffset = 0 := by
  by_cases hdead : c.isDead = true
  · exact Or.inl hdead
  · right
    unfold Channel.shutdown at hoffset
    rw [if_neg hdead] at hoffset
    exact hoffset

lemma dchecks_canWrite_empty (hqueue : c.writeMessageQueue = []) :
    (c.onFileCanWriteWithoutBlocking outcome).channel.dchecks = false := by
  simp [Channel.onFileCanWriteWithoutBlocking, Channel.writeFrontMessageNoLock, Channel.check,
    Written.orWait, hqueue]

lemma careful_of_canWrite (h : Healthy c) (harmed : c.writeArmed = true)
    (hdchecks : (c.onFileCanWriteWithoutBlocking outcome).channel.dchecks = true)
    (hoffset : OffsetWithin (c.onFileCanWriteWithoutBlocking outcome).channel) :
    c.isDead = false ∧ (outcome = .error → c.writeMessageOffset = 0) := by
  have hdead : c.isDead = false := by
    by_contra hdead
    rw [Bool.not_eq_false] at hdead
    rw [dchecks_canWrite_empty (h.dead hdead)] at hdchecks
    cases hdchecks
  refine ⟨hdead, fun herror => ?_⟩
  have hqueue := h.queue_of_waiting hdead (Or.inl harmed)
  rcases writeFrontMessageNoLock_cases (c := { c with writeArmed := false }) outcome hdead hqueue
      h.offset with ⟨-, hfront⟩ | ⟨hne, -⟩
  · rw [onFileCanWriteWithoutBlocking_eq hdead hqueue, hfront, orWait_error rfl] at hoffset
    exact hoffset
  · exact absurd herror hne

lemma careful_of_canRead {reading : Reading} (halign : reading.aligned = true)
    (hdchecks : (c.onFileCanReadWithoutBlocking reading).dchecks = true)
    (hoffset : OffsetWithin (c.onFileCanReadWithoutBlocking reading)) :
    (reading.ending = .failed → Cancellable c) ∧
      (reading.ending = .shutDown → c.isDead = true ∨ c.writeMessageOffset = 0) := by
  unfold Channel.onFileCanReadWithoutBlocking at hdchecks hoffset
  rw [check_of halign] at hdchecks hoffset
  constructor
  · intro hending
    rw [hending] at hdchecks hoffset
    exact careful_of_cancel hdchecks hoffset
  · intro hending
    rw [hending] at hoffset
    exact careful_of_shutdown (c := { c with readBuffer := reading.readBuffer }) hoffset

end Careless

/-- From a state that care led to, only a step without care goes wrong. -/
lemma Inv.careful {w w' : World} {e : Event} (h : Inv w) (hstep : w.Step e w') (hs : Sound w') :
    Careful w e := by
  obtain ⟨henabled, rfl⟩ := hstep
  cases e with
  | writeMessage => trivial
  | canWrite side outcome =>
    have hdchecks := hs.dchecks side
    have hoffset := hs.offset side
    simp only [World.next, World.advance, Function.update_self] at hdchecks hoffset
    exact careful_of_canWrite (h.healthy side) henabled hdchecks hoffset
  | canRead side outcomes shutdownAt =>
    obtain ⟨hopen, hunused, hshut⟩ := henabled
    have hdchecks := hs.dchecks side
    have hoffset := hs.offset side
    simp only [World.next, World.advance, Function.update_self] at hdchecks hoffset
    have hreads := h.flows !side
    rw [Bool.not_not] at hreads
    obtain ⟨haligned, -, -⟩ := hreads.reads hopen shutdownAt outcomes
    obtain ⟨hcancel, hclose⟩ := careful_of_canRead haligned hdchecks hoffset
    obtain ⟨-, hfailed, -⟩ :=
      ending_readLoop shutdownAt (w.channel side).readBuffer (w.stream !side) outcomes
    exact ⟨fun herror => hcancel (hfailed herror hunused), fun hsome => hclose (hshut hsome)⟩
  | runWaitToWrite => trivial
  | shutdown side =>
    have hoffset := hs.offset side
    simp only [World.next, World.advance, Function.update_self] at hoffset
    exact careful_of_shutdown hoffset

/-- Along every run whose steps take care the channel is sound, and a further step goes wrong
just when it takes no care. -/
theorem transfers_whole_messages {es : List Event} {w : World}
    (h : Reaches CarefulStep World.initial es w) :
    Sound w ∧ ∀ e w', w.Step e w' → (Sound w' ↔ Careful w e) := by
  have hinv : Inv w := h.invariant Inv inv_initial fun _ _ _ ht hstep => ht.step hstep
  refine ⟨hinv.sound, fun e w' hstep => ⟨hinv.careful hstep, fun hcareful => ?_⟩⟩
  exact (hinv.step ⟨hstep, hcareful⟩).sound

/-- A message without data. -/
def emptyMessage : MessageInTransit := ⟨List.replicate 16 0, by decide, by decide⟩

/-- The message goes over in two pieces. -/
theorem transfers_whole_messages_pieces :
    ∃ w, w.delivered true = [emptyMessage.bytes] ∧ Sound w := by
  have hrun : Reaches CarefulStep World.initial
      [.writeMessage false emptyMessage true (.bytes 10), .canWrite false (.bytes 20),
        .canRead true [.bytes 12] none, .canRead true [.bytes 20] none] _ :=
    .cons ⟨⟨trivial, rfl⟩, trivial⟩ <|
    .cons ⟨⟨rfl, rfl⟩, rfl, by simp⟩ <|
    .cons ⟨⟨⟨rfl, by decide +kernel, by simp⟩, rfl⟩, by simp, by simp⟩ <|
    .cons ⟨⟨⟨by decide +kernel, by decide +kernel, by simp⟩, rfl⟩, by simp, by simp⟩ .refl
  exact ⟨_, by decide +kernel, (transfers_whole_messages hrun).1⟩

/-- A write fails and kills the channel, and the read that fails after it finds it dead. -/
theorem read_error_after_write_error :
    ¬ ∀ es w, Reaches World.Step World.initial es w → Sound w := by
  intro hall
  have hrun : Reaches World.Step World.initial
      [.writeMessage false emptyMessage true .error, .canRead false [.error] none] _ :=
    .cons ⟨trivial, rfl⟩ <| .cons ⟨⟨rfl, rfl, fun hne => absurd rfl hne⟩, rfl⟩ .refl
  have hdchecks := (hall _ _ hrun).dchecks false
  revert hdchecks
  decide

end Chromium.MojoRawChannel
