import Mathlib.Data.List.TakeDrop
import Mathlib.Logic.Function.Basic
import Mathlib.Tactic
import Chromium.Runs

/-!
# The command ring between the client and the GPU service

The client helper writes commands into a ring of entries and tells the service
how far it has come with a put offset; the parser of the service works up to the
put offset it has received. Both sides compare offsets modulo the number of
entries, the client with a get offset that may be out of date.

A call of `GetSpace` waits in two loops and may send put offsets on the way. It
is therefore split into phases, and every phase is one step of the client, so
that the service can take steps in between.
-/
namespace Chromium.CommandRing
open Runs

/-- `CommandHeader::kMaxSize`, the largest value of the 21-bit size field. -/
def kMaxSize : ℕ := 2 ^ 21 - 1

/-- The id of `cmd::Noop`. -/
def kNoop : ℕ := 0

/-- The `size` field of the entry read as a `CommandHeader`. -/
def headerSize (entry : ℕ) : ℕ := entry % 2 ^ 21

/-- The `command` field of the entry read as a `CommandHeader`. -/
def headerCommand (entry : ℕ) : ℕ := entry / 2 ^ 21 % 2 ^ 11

/-- `CommandHeader::Init`. -/
def header (command size : ℕ) : ℕ := command * 2 ^ 21 + size

@[simp] lemma headerSize_header {size : ℕ} (command : ℕ) (h : size < 2 ^ 21) :
    headerSize (header command size) = size := by
  unfold headerSize header
  omega

@[simp] lemma headerCommand_header {command size : ℕ} (hc : command < 2 ^ 11)
    (h : size < 2 ^ 21) : headerCommand (header command size) = command := by
  unfold headerCommand header
  omega

/-- A command as the client writes it: its header holds its number of entries. -/
structure Command where
  head : ℕ
  args : List ℕ
  size_eq : headerSize head = args.length + 1

def Command.entries (c : Command) : List ℕ := c.head :: c.args

def Command.size (c : Command) : ℕ := c.entries.length

/-- The number of entries of a sequence of commands. -/
def totalSize (cs : List Command) : ℕ := (cs.map Command.size).sum

/-- Where the client stands in a call of `GetSpace` and in the writing of the
commands the space was asked for. -/
inductive Phase
  | idle
  | wrapWait (cs : List Command)
  | fillNoops (cs : List Command) (numEntries : ℕ)
  | entriesWait (cs : List Command)
  | reserve (cs : List Command)
  | write (space : ℕ) (cs : List Command) (done : ℕ)

/-- The helper. `getOffset` is the get offset of the last state it has seen. -/
structure Client where
  put : ℕ
  lastPutSent : ℕ
  getOffset : ℕ
  commandsIssued : ℕ
  flushAutomatically : Bool
  phase : Phase

/-- The offsets of the parser. -/
structure Parser where
  get : ℕ
  put : ℕ

/-- What lies in the ring: a command of the client, or a skipped stretch with
only its header written. -/
inductive Frame
  | command (c : Command)
  | skip (size : ℕ)

def Frame.size : Frame → ℕ
  | .command c => c.size
  | .skip size => size

/-- The entries that were written for a frame. -/
def Frame.stored : Frame → List ℕ
  | .command c => c.entries
  | .skip size => [header kNoop size]

/-- Both parties, the ring between them and the put offsets on their way. The
rest is history: the values `get` has had, which of them the client has seen,
the frames completed by the client, and the entries of the commands executed. -/
structure World where
  client : Client
  parser : Parser
  buffer : ℕ → ℕ
  messages : List ℕ
  gets : List ℕ
  seen : ℕ
  written : List Frame
  executed : List (List ℕ)

def World.initial (buffer : ℕ → ℕ) (flushAutomatically : Bool) : World where
  client := ⟨0, 0, 0, 0, flushAutomatically, .idle⟩
  parser := ⟨0, 0⟩
  buffer := buffer
  messages := []
  gets := [0]
  seen := 0
  written := []
  executed := []

/-- `FlushSync` up to the wait: the put offset is sent unconditionally. -/
def flushSync (w : World) : World :=
  { w with
    client := { w.client with lastPutSent := w.client.put }
    messages := w.messages ++ [w.client.put] }

/-- `Flush` sends the put offset when it has changed. -/
def flush (w : World) : World :=
  if w.client.lastPutSent ≠ w.client.put then flushSync w else w

/-- `AvailableEntries`. -/
def availableEntries (total : ℕ) (c : Client) : ℕ :=
  (c.getOffset + total - c.put - 1) % total

/-- The flush at the end of `WaitForAvailableEntries`: when the ring is getting
half full, or earlier when the reader is known to be idle, or when the clock
says so (`late`). -/
def flushIfDue (total : ℕ) (late : Bool) (w : World) : World :=
  let pending := (w.client.put + total - w.client.lastPutSent) % total
  let limit := total / (if w.client.getOffset = w.client.lastPutSent then 16 else 2)
  if limit < pending then flush w
  else if w.client.flushAutomatically ∧ w.client.commandsIssued % 100 = 0 ∧ late then flush w
  else w

/-- The next step of the client inside a call. -/
def clientStep (total : ℕ) (late : Bool) (w : World) : World :=
  match w.client.phase with
  | .idle => w
  | .wrapWait cs =>
    -- the noops may be written once `get` has wrapped and is 1 or more
    if w.client.put < w.client.getOffset ∨ w.client.getOffset = 0 then flushSync w
    else { w with client := { w.client with phase := .fillNoops cs (total - w.client.put) } }
  | .fillNoops cs numEntries =>
    if 0 < numEntries then
      let numToSkip := min kMaxSize numEntries
      { w with
        client := { w.client with
          put := w.client.put + numToSkip
          phase := .fillNoops cs (numEntries - numToSkip) }
        buffer := Function.update w.buffer w.client.put (header kNoop numToSkip)
        written := w.written ++ [.skip numToSkip] }
    else { w with client := { w.client with put := 0, phase := .entriesWait cs } }
  | .entriesWait cs =>
    if availableEntries total w.client < totalSize cs then flushSync w
    else { w with client := { w.client with phase := .reserve cs } }
  | .reserve cs =>
    let w' := flushIfDue total late w
    let advanced := w'.client.put + totalSize cs
    { w' with client := { w'.client with
        put := if advanced = total then 0 else advanced
        phase := .write w'.client.put cs 0 } }
  | .write _ [] _ => { w with client := { w.client with phase := .idle } }
  | .write space (c :: cs) done =>
    let buffer := Function.update w.buffer (space + done) (c.entries.getD done 0)
    if done + 1 = c.size then
      { w with
        client := { w.client with phase := .write (space + c.size) cs 0 }
        buffer := buffer
        written := w.written ++ [.command c] }
    else
      { w with
        client := { w.client with phase := .write space (c :: cs) (done + 1) }
        buffer := buffer }

/-- A call of `GetSpace` for the commands `cs`, up to the first loop. -/
def getSpace (total : ℕ) (cs : List Command) (w : World) : World :=
  { w with client := { w.client with
      commandsIssued := w.client.commandsIssued + 1
      phase := if total < w.client.put + totalSize cs then .wrapWait cs else .entriesWait cs } }

inductive ParseError
  | invalidSize
  | outOfBounds
  deriving DecidableEq, Repr

/-- `ProcessCommand`: the entries handed to the handler and the next `get`. A
command the handler defers changes nothing. -/
def processCommand (total : ℕ) (buffer : ℕ → ℕ) (p : Parser) :
    Except ParseError (Option (List ℕ × ℕ)) :=
  if p.get = p.put then .ok none
  else
    let size := headerSize (buffer p.get)
    if size = 0 then .error .invalidSize
    else if total < size + p.get then .error .outOfBounds
    else .ok (some ((List.range size).map fun i => buffer (p.get + i), (p.get + size) % total))

inductive Event
  | getSpace (cs : List Command)
  | flush
  | flushSync
  | client (late : Bool)
  | see (i : ℕ)
  | deliver
  | processCommand

/-- One step of either party. Calls are made by an idle client, which has then
written all it asked space for; the client may see any value of `get` since the
last one it has seen. -/
inductive Step (total : ℕ) : World → Event → World → Prop
  | getSpace (w : World) (cs : List Command) (hidle : w.client.phase = .idle)
      (hpos : 1 ≤ totalSize cs) (hlt : totalSize cs < total) :
      Step total w (.getSpace cs) (getSpace total cs w)
  | flush (w : World) (hidle : w.client.phase = .idle) : Step total w .flush (flush w)
  | flushSync (w : World) (hidle : w.client.phase = .idle) :
      Step total w .flushSync (flushSync w)
  | client (w : World) (late : Bool) : Step total w (.client late) (clientStep total late w)
  | see (w : World) (i get : ℕ) (hi : w.seen ≤ i) (hget : w.gets[i]? = some get) :
      Step total w (.see i) { w with client := { w.client with getOffset := get }, seen := i }
  | deliver (w : World) (put : ℕ) (rest : List ℕ) (hmsg : w.messages = put :: rest) :
      Step total w .deliver { w with parser := { w.parser with put := put }, messages := rest }
  | processCommand (w : World) (entries : List ℕ) (get : ℕ)
      (h : processCommand total w.buffer w.parser = .ok (some (entries, get))) :
      Step total w .processCommand
        { w with
          parser := { w.parser with get := get }
          gets := w.gets ++ [get]
          executed := w.executed ++ [entries] }

/-- The entries of a command other than `Noop`. -/
def isCommand (entries : List ℕ) : Bool := entries.head?.any fun e => headerCommand e ≠ kNoop

/-- The commands other than `Noop` among the frames, in order. -/
def commandsOf (fs : List Frame) : List (List ℕ) :=
  (fs.map Frame.stored).filter isCommand

/-- The offset, not reduced, at which frame `j` starts. -/
def startOf (fs : List Frame) (j : ℕ) : ℕ := ((fs.take j).map Frame.size).sum

/-- Delivery of the commands, between any two steps. -/
structure Delivers (total : ℕ) (w : World) : Prop where
  in_order : w.executed.filter isCommand <+: commandsOf w.written
  intact : ∀ j f, w.executed.length ≤ j → w.written[j]? = some f →
    ∀ i e, f.stored[i]? = some e → w.buffer (startOf w.written j % total + i) = e
  in_progress : ∀ space c cs done, w.client.phase = .write space (c :: cs) done →
    ∀ i < done, ∀ e, c.entries[i]? = some e → w.buffer (space + i) = e
  caught_up : w.client.phase = .idle → w.client.lastPutSent = w.client.put → w.messages = [] →
    w.parser.get = w.parser.put → w.executed.filter isCommand = commandsOf w.written
  no_error : ∀ e, processCommand total w.buffer w.parser ≠ .error e

end Chromium.CommandRing
