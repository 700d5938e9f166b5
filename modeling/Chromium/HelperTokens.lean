import Chromium.CommandRing
import Chromium.CommandTokens

/-!
# Tokens in the command ring

`InsertToken` of `gpu/command_buffer/client/cmd_buffer_helper.cc` puts a `SetToken` command with
the next 31-bit value into the ring, and `WaitForToken` flushes until the service's token has come
to a value. The helper sees the service through the last state that its `CommandBuffer` has
received, and an error in that state ends every wait. From the error on the state stays as it is.

The ring is freed and allocated again on the way. What was written to earlier rings, the tokens
inserted and the waits that have returned are kept as history.
-/
namespace Chromium.HelperTokens

open Runs CommandRing CommandTokens

/-- The id of `cmd::SetToken`. -/
def kSetToken : ℕ := 1

/-- `cmd::SetToken`, which takes two entries. -/
def setToken (token : ℕ) : Command where
  head := header kSetToken 2
  args := [token]
  size_eq := headerSize_header kSetToken (by decide)

/-- The entries are those of a `SetToken` command. -/
def setsToken (entries : List ℕ) : Bool :=
  entries.head?.any fun e => headerCommand e = kSetToken

/-- `HandleSetToken`. No other command changes the token. -/
def tokenAfter (token : ℕ) (entries : List ℕ) : ℕ :=
  if setsToken entries then entries.getD 1 0 else token

/-- A call of `InsertToken` that has returned a token, and what was written before the call. -/
structure Insertion where
  token : ℕ
  before : List Frame

/-- A call of `WaitForToken` that has returned: whether the state then carried an error, the tokens
inserted by then, and the commands executed. -/
structure Return where
  token : ℕ
  lost : Bool
  insertions : List Insertion
  executed : List (List ℕ)

/-- The call the helper is in. In `idle` it may be in a call of `GetSpace`, and in `inserting` it
is in the one that `InsertToken` makes. -/
inductive Call
  | idle
  | inserting (before : List Frame)
  | finishing (before : Option (List Frame))
  | waiting (token : ℕ)
  | fatal

/-- The helper may be in a call of `GetSpace`. -/
def Call.inGetSpace : Call → Bool
  | .idle | .inserting _ => true
  | _ => false

def Call.isFatal : Call → Bool
  | .fatal => true
  | _ => false

/-- The helper on its ring. `flushing` says that a loop has called `FlushSync` and has not yet
looked at the result. `lost`, `lastTokenRead` and `statePut` are the error, the token and the put
offset of the last state received, and `tokenSeen` counts the commands executed by the time of its
token. `tokens` and `puts` are the tokens and put offsets the service has had on this ring. -/
structure World where
  ring : CommandRing.World
  haveRingBuffer : Bool
  usable : Bool
  token : ℕ
  call : Call
  flushing : Bool
  lost : Bool
  lastTokenRead : ℕ
  statePut : ℕ
  tokens : List ℕ
  puts : List ℕ
  tokenSeen : ℕ
  past : List Frame
  pastExecuted : List (List ℕ)
  insertions : List Insertion
  returns : List Return

/-- The helper as it is constructed. -/
def World.initial (flushAutomatically : Bool) : World where
  ring := .initial (fun _ => 0) flushAutomatically
  haveRingBuffer := false
  usable := true
  token := 0
  call := .idle
  flushing := false
  lost := false
  lastTokenRead := 0
  statePut := 0
  tokens := [0]
  puts := [0]
  tokenSeen := 0
  past := []
  pastExecuted := []
  insertions := []
  returns := []

/-- All that was written, to this ring and to earlier ones. -/
def World.written (w : World) : List Frame := w.past ++ w.ring.written

def World.executed (w : World) : List (List ℕ) := w.pastExecuted ++ w.ring.executed

/-- No call is going on. -/
def World.isIdle (w : World) : Bool :=
  match w.call, w.ring.client.phase with
  | .idle, .idle => true
  | _, _ => false

/-- What `AllocateRingBuffer` gets: no memory, a ring that the service takes, or memory that the
service is not told of, since there was an error. The state is then the one received last, and its
number of entries may not be large enough. -/
inductive Creation
  | refused
  | fresh (buffer : ℕ → ℕ)
  | stale (buffer : ℕ → ℕ) (largeEnough : Bool)

/-- The service starts with an empty ring, and its token stays. -/
def freshRing (buffer : ℕ → ℕ) (w : World) : World :=
  { w with
    ring := { CommandRing.World.initial buffer w.ring.client.flushAutomatically with
      client := { w.ring.client with put := 0, getOffset := 0 } }
    haveRingBuffer := true
    lastTokenRead := w.tokens.getLastD 0
    statePut := 0
    tokens := [w.tokens.getLastD 0]
    puts := [0]
    tokenSeen := 0
    past := w.written
    pastExecuted := w.executed }

/-- `AllocateRingBuffer` -/
def allocateRingBuffer (created : Creation) (w : World) : World :=
  if ¬ w.usable ∨ w.haveRingBuffer then w
  else match created with
  | .refused => { w with usable := false }
  | .fresh buffer => freshRing buffer w
  | .stale buffer largeEnough =>
    { w with
      ring := { w.ring with
        client := { w.ring.client with
          put := if largeEnough then w.statePut else w.ring.client.put }
        buffer := buffer }
      haveRingBuffer := true
      usable := largeEnough
      lost := true }

/-- `Flush`. Without a ring there is no offset that the service would accept. -/
def flush (w : World) : World :=
  if ¬ w.usable then w
  else if w.haveRingBuffer then { w with ring := CommandRing.flush w.ring }
  else { w with ring := { w.ring with
    client := { w.ring.client with lastPutSent := w.ring.client.put } } }

/-- `FlushSync` of the client. -/
def flushSync (w : World) : World :=
  if ¬ w.usable then w
  else if w.haveRingBuffer then { w with ring := CommandRing.flushSync w.ring }
  else { w with ring := { w.ring with
    client := { w.ring.client with lastPutSent := w.ring.client.put } } }

/-- `FlushSync` in a loop. -/
def flushInLoop (w : World) : World :=
  { w with ring := CommandRing.flushSync w.ring, flushing := true }

/-- `InsertToken` up to its call of `GetSpace`. -/
def insertToken (n : ℕ) (w : World) : World :=
  if w.usable then
    { w with
      ring := CommandRing.getSpace n [setToken ((w.token + 1) % tokenModulus)] w.ring
      token := (w.token + 1) % tokenModulus
      call := .inserting w.written }
  else { w with insertions := w.insertions ++ [⟨w.token, w.written⟩] }

/-- `InsertToken` returns. -/
def endInsert (before : List Frame) (w : World) : World :=
  { w with call := .idle, flushing := false, insertions := w.insertions ++ [⟨w.token, before⟩] }

/-- `Finish` up to its loop. -/
def finish (w : World) : World :=
  if ¬ w.usable ∨ w.ring.client.put = w.ring.client.getOffset then w
  else { w with call := .finishing none }

/-- `Finish` returns, to `InsertToken` if that has called it. -/
def endFinish (before : Option (List Frame)) (w : World) : World :=
  match before with
  | none => { w with call := .idle, flushing := false }
  | some before => endInsert before w

/-- `WaitForToken` returns. -/
def endWait (token : ℕ) (w : World) : World :=
  { w with
    call := .idle
    flushing := false
    returns := w.returns ++ [⟨token, w.lost, w.insertions, w.executed⟩] }

/-- `WaitForToken` up to its loop. -/
def waitForToken (token : ℕ) (w : World) : World :=
  if ¬ w.usable ∨ ¬ w.haveRingBuffer then endWait token w
  -- we wrapped
  else if w.token < token then endWait token w
  else { w with call := .waiting token }

/-- The condition of the loop of `WaitForAvailableEntries` that the client is at. -/
def mustWait (n : ℕ) (c : Client) : Bool :=
  match c.phase with
  | .wrapWait _ => c.put < c.getOffset ∨ c.getOffset = 0
  | .entriesWait cs => availableEntries n c < totalSize cs
  | _ => false

/-- `WaitForAvailableEntries` has returned early, and `GetSpace` takes the space all the same. -/
def cutShort (n : ℕ) (w : World) : World :=
  match w.ring.client.phase with
  | .wrapWait cs | .entriesWait cs =>
    let advanced := w.ring.client.put + totalSize cs
    { w with
      ring := { w.ring with client := { w.ring.client with
        put := if advanced = n then 0 else advanced
        phase := .write w.ring.client.put cs 0 } }
      flushing := false }
  | _ => { w with flushing := false }

/-- A step of the client inside a call of `GetSpace`. -/
def ringStep (n : ℕ) (late : Bool) (w : World) : World :=
  if w.flushing then
    if w.lost then cutShort n w else { w with flushing := false }
  else
    { w with
      ring := CommandRing.clientStep n late w.ring
      flushing := mustWait n w.ring.client }

/-- The next step of the client inside a call. -/
def clientStep (n : ℕ) (late : Bool) (w : World) : World :=
  match w.call with
  | .idle => ringStep n late w
  | .inserting before =>
    match w.ring.client.phase with
    | .idle =>
      -- the token wrapped
      if w.token = 0 then { w with call := .finishing (some before) } else endInsert before w
    | _ => ringStep n late w
  | .finishing before =>
    if w.flushing then
      if w.lost then endFinish before w else { w with flushing := false }
    else if w.ring.client.put = w.ring.client.getOffset then endFinish before w
    else flushInLoop w
  | .waiting token =>
    if w.flushing then
      if w.lost then endWait token w else { w with flushing := false }
    else if token ≤ w.lastTokenRead then endWait token w
    else if w.ring.client.getOffset = w.ring.client.put then { w with call := .fatal }
    else flushInLoop w
  | .fatal => w

/-- The calls of the client, the steps inside them, and what happens outside of the helper. -/
inductive Event
  | allocateRingBuffer (created : Creation)
  | getSpace (cs : List Command)
  | insertToken
  | flush
  | flushSync
  | finish
  | waitForToken (token : ℕ)
  | freeRingBuffer
  | client (late : Bool)
  | see (i k put : ℕ)
  | lose
  | deliver
  | processCommand

/-- One step of either party, if it can be made. A token in a state is of the same time as the get
offset in it or later, since `SetToken` updates the state before the get offset is set. Only
`InsertToken` writes `SetToken` commands. -/
def next (n : ℕ) (w : World) : Event → Option World
  | .allocateRingBuffer created =>
    match created with
    | .fresh _ => if w.isIdle ∧ w.lost = false then some (allocateRingBuffer created w) else none
    | _ => if w.isIdle then some (allocateRingBuffer created w) else none
  | .getSpace cs =>
    if w.isIdle ∧ w.usable ∧ w.haveRingBuffer ∧ 1 ≤ totalSize cs ∧ totalSize cs < n ∧
        cs.all (fun c => !setsToken c.entries) then
      some { w with ring := CommandRing.getSpace n cs w.ring }
    else none
  | .insertToken =>
    if w.isIdle ∧ (w.usable → w.haveRingBuffer ∧ 2 < n) then some (insertToken n w) else none
  | .flush => if w.isIdle then some (flush w) else none
  | .flushSync => if w.isIdle then some (flushSync w) else none
  | .finish => if w.isIdle ∧ w.haveRingBuffer then some (finish w) else none
  | .waitForToken token => if w.isIdle then some (waitForToken token w) else none
  | .freeRingBuffer =>
    if w.isIdle ∧ (w.ring.client.put = w.ring.client.getOffset ∨ w.lost) then
      some { w with haveRingBuffer := false }
    else none
  | .client late => some (clientStep n late w)
  | .see i k put =>
    if w.haveRingBuffer ∧ w.lost = false ∧ w.ring.seen ≤ i ∧ i ≤ k ∧ w.tokenSeen ≤ k ∧
        put ∈ w.puts then
      match w.ring.gets[i]?, w.tokens[k]? with
      | some get, some token =>
        some { w with
          ring := { w.ring with client := { w.ring.client with getOffset := get }, seen := i }
          lastTokenRead := token
          statePut := put
          tokenSeen := k }
      | _, _ => none
    else none
  | .lose => some { w with lost := true }
  | .deliver =>
    match w.ring.messages with
    | [] => none
    | put :: rest =>
      some { w with
        ring := { w.ring with parser := { w.ring.parser with put := put }, messages := rest }
        puts := w.puts ++ [put] }
  | .processCommand =>
    match CommandRing.processCommand n w.ring.buffer w.ring.parser with
    | .ok (some (entries, get)) =>
      some { w with
        ring := { w.ring with
          parser := { w.ring.parser with get := get }
          gets := w.ring.gets ++ [get]
          executed := w.ring.executed ++ [entries] }
        tokens := w.tokens ++ [tokenAfter (w.tokens.getLastD 0) entries] }
    | _ => none

def Step (n : ℕ) (w : World) (e : Event) (w' : World) : Prop := next n w e = some w'

/-- Tokens order the work: the process has not been aborted, and a wait for a token that has
returned without an error has returned after all that was written before the token was inserted
had been processed. -/
structure Ordered (w : World) : Prop where
  not_fatal : w.call ≠ .fatal
  returns : ∀ r ∈ w.returns, r.lost = false → ∀ i ∈ r.insertions, i.token = r.token →
    commandsOf i.before <+: r.executed.filter isCommand

/-- An error is about to cut a wait of `GetSpace` short. -/
def World.CutsShort (w : World) : Prop :=
  w.flushing = true ∧ w.lost = true ∧ w.call.inGetSpace = true

instance (w : World) : Decidable w.CutsShort := inferInstanceAs (Decidable (_ ∧ _ ∧ _))

/-- The step neither cuts a wait of `GetSpace` short nor starts, after an error, from another
offset than the one the service has come to. -/
def Careful (w : World) : Event → Prop
  | .client _ => ¬ w.CutsShort
  | .allocateRingBuffer (.stale _ _) => w.usable = true → w.haveRingBuffer = false →
    w.ring.client.put = w.ring.client.getOffset ∧ w.statePut = w.ring.client.put
  | _ => True

instance (w : World) (e : Event) : Decidable (Careful w e) := by
  unfold Careful
  split <;> infer_instance

structure SafeStep (n : ℕ) (w : World) (e : Event) (w' : World) : Prop where
  step : Step n w e w'
  careful : Careful w e

end Chromium.HelperTokens
