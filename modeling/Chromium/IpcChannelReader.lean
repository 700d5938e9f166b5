import Chromium.PrefixReader
import Chromium.WireFormat

/-!
# The reader of an IPC channel

`ipc/ipc_channel_reader.cc`: what was read from the pipe is cut into messages, and the part
of a message that is left over waits in the overflow buffer. The stream itself says which
messages there are; the reader is compared with that, for every way to cut the stream.
-/
namespace Chromium.IpcChannelReader

open WireFormat PrefixReader

def kMaximumMessageSize : ℕ := 128 * 1024 * 1024
def kReadBufferSize : ℕ := 4 * 1024

/-- `sizeof(Message::Header)`: the payload size, the routing, the type, the flags, the number of
descriptors and the padding. -/
def messageHeaderSize : ℕ := 20

/-- The first field of the header. -/
def payloadSize (input : List Byte) : ℕ := ofBytes (input.take 4)

/-- `Pickle::FindNext` with the header of a message: the message and what comes after it. -/
def findNext : Reader Byte (List Byte) := fun input =>
  if input.length < 4 then none
  else if input.length < messageHeaderSize ∨
      input.length - messageHeaderSize < payloadSize input then none
  else some (input.take (messageHeaderSize + payloadSize input),
    input.drop (messageHeaderSize + payloadSize input))

/-- `MSG_ROUTING_NONE`, which is -2 in 32 bits. -/
def msgRoutingNone : ℕ := 2 ^ 32 - 2
def helloMessageType : ℕ := 2 ^ 16 - 1
def closeFdMessageType : ℕ := helloMessageType - 1

def routingId (message : List Byte) : ℕ := ofBytes ((message.drop 4).take 4)
def messageType (message : List Byte) : ℕ := ofBytes ((message.drop 8).take 4)

def isInternalMessage (message : List Byte) : Bool :=
  routingId message = msgRoutingNone ∧ messageType message ≥ closeFdMessageType ∧
    messageType message ≤ helloMessageType

/-- Who was given the message. -/
inductive Dispatched
  | internal (message : List Byte)
  | listener (message : List Byte)
  deriving DecidableEq

def dispatch (message : List Byte) : Dispatched :=
  if isInternalMessage message then .internal message else .listener message

lemma payloadSize_append {input : List Byte} (h : 4 ≤ input.length) (more : List Byte) :
    payloadSize (input ++ more) = payloadSize input := by
  rw [payloadSize, payloadSize, List.take_append_of_le_length h]

/-- The size of the message that begins the input. -/
def messageSize (input : List Byte) : ℕ := messageHeaderSize + payloadSize input

lemma messageSize_append (xs ys : List Byte) (h : messageHeaderSize ≤ xs.length) :
    messageSize (xs ++ ys) = messageSize xs := by
  rw [messageHeaderSize] at h
  rw [messageSize, messageSize, payloadSize_append (by omega)]

lemma findNext_eq_framed : findNext = Reader.framed messageHeaderSize messageSize := by
  funext input
  have hheader : messageHeaderSize = 20 := rfl
  unfold findNext Reader.framed messageSize
  split_ifs <;> first | rfl | omega

lemma findNext_eq_some {input message rest : List Byte}
    (h : findNext input = some (message, rest)) :
    input = message ++ rest ∧ message.length = messageHeaderSize + payloadSize message := by
  rw [findNext_eq_framed] at h
  obtain ⟨hinput, -, hlength⟩ :=
    Reader.framed_eq_some messageSize_append (fun xs => Nat.le_add_right _ _) h
  exact ⟨hinput, hlength⟩

/-- A message is found as soon as it is complete. -/
lemma findNext_append {message : List Byte}
    (h : message.length = messageHeaderSize + payloadSize message) (rest : List Byte) :
    findNext (message ++ rest) = some (message, rest) := by
  rw [findNext_eq_framed]
  exact Reader.framed_append messageSize_append (by omega) h rest

lemma exact_findNext : Reader.Exact findNext := by
  rw [findNext_eq_framed]
  exact Reader.exact_framed messageSize_append fun xs => Nat.le_add_right _ _

lemma findNext_of_part {message part : List Byte}
    (h : message.length = messageHeaderSize + payloadSize message) (hpart : part <+: message)
    (hne : part ≠ message) : findNext part = none := by
  obtain ⟨item, hitem, -, hwait⟩ := exact_findNext _ _ _ (findNext_append h [])
  rw [List.append_cancel_right hitem] at hpart hne
  exact hwait part hpart hne

lemma length_of_findNext {input message rest : List Byte}
    (h : findNext input = some (message, rest)) :
    input.length = message.length + rest.length ∧ messageHeaderSize ≤ message.length := by
  obtain ⟨rfl, hlength⟩ := findNext_eq_some h
  rw [List.length_append]
  omega

section Reading

/- What the channel of the platform does in `WillDispatchInputMessage`, from its own state; the
channel fails when there is no next state. A stream of bytes brings no descriptors, so that
`DidEmptyInputBuffers` has nothing to object to. -/
variable {σ : Type*} (willDispatchInputMessage : σ → List Byte → Option σ)

/-- The loop that dispatches all complete messages. It fails, or leaves what is partial. -/
def dispatchMessages (state : σ) (input : List Byte) :
    List Dispatched × Option (List Byte × σ) :=
  match _hfind : findNext input with
  | none => ([], some (input, state))
  | some (message, rest) =>
    match willDispatchInputMessage state message with
    | none => ([], none)
    | some next =>
      let result := dispatchMessages next rest
      (dispatch message :: result.1, result.2)
termination_by input.length
decreasing_by
  have := length_of_findNext _hfind
  rw [messageHeaderSize] at this
  omega

def dispatchInputData (state : σ) (inputOverflowBuf inputData : List Byte) :
    List Dispatched × Option (List Byte × σ) :=
  if inputOverflowBuf.isEmpty then dispatchMessages willDispatchInputMessage state inputData
  else if inputOverflowBuf.length + inputData.length > kMaximumMessageSize then ([], none)
  else dispatchMessages willDispatchInputMessage state (inputOverflowBuf ++ inputData)

/-- The messages that were dispatched, and whether the channel failed. -/
@[ext]
structure Outcome where
  messages : List Dispatched
  failed : Bool
  deriving DecidableEq

/-- More messages were dispatched before. -/
def Outcome.after (messages : List Dispatched) (outcome : Outcome) : Outcome :=
  ⟨messages ++ outcome.messages, outcome.failed⟩

/-- The channel is not read any more after it failed. -/
def run (state : σ) (inputOverflowBuf : List Byte) : List (List Byte) → Outcome
  | [] => ⟨[], false⟩
  | inputData :: chunks =>
    match dispatchInputData willDispatchInputMessage state inputOverflowBuf inputData with
    | (messages, none) => ⟨messages, true⟩
    | (messages, some (rest, next)) => (run next rest chunks).after messages

/-- The pieces that a stream is read in. -/
structure Chunks (stream : List Byte) (chunks : List (List Byte)) : Prop where
  flatten_eq : chunks.flatten = stream
  pos : ∀ chunk ∈ chunks, 1 ≤ chunk.length
  le : ∀ chunk ∈ chunks, chunk.length ≤ kReadBufferSize

/-- What a stream says, however it is read: its messages up to the first that is too big. -/
def outcome (state : σ) (stream : List Byte) : Outcome :=
  match _hfind : findNext stream with
  | none => ⟨[], kMaximumMessageSize < stream.length⟩
  | some (message, rest) =>
    if kMaximumMessageSize < message.length then ⟨[], true⟩
    else
      match willDispatchInputMessage state message with
      | none => ⟨[], true⟩
      | some next => (outcome next rest).after [dispatch message]
termination_by stream.length
decreasing_by
  have := length_of_findNext _hfind
  rw [messageHeaderSize] at this
  omega

/-- Each message that is dispatched, with the bytes that could be read together with the end of
it, is within the limit. Pieces of up to `size` bytes are read. -/
def Roomy (size : ℕ) (state : σ) (stream : List Byte) : Prop :=
  match _hfind : findNext stream with
  | none => True
  | some (message, rest) =>
    message.length ≤ kMaximumMessageSize →
      match willDispatchInputMessage state message with
      | none => True
      | some next =>
        message.length + min (size - 1) rest.length ≤ kMaximumMessageSize ∧
          Roomy size next rest
termination_by stream.length
decreasing_by
  have := length_of_findNext _hfind
  rw [messageHeaderSize] at this
  omega

/-! ### One message at a time -/

section Steps
variable {willDispatchInputMessage} {state next : σ} {stream message rest : List Byte}

lemma dispatchMessages_none (h : findNext stream = none) :
    dispatchMessages willDispatchInputMessage state stream = ([], some (stream, state)) := by
  rw [dispatchMessages]
  split
  · rfl
  · simp_all

lemma dispatchMessages_some (h : findNext stream = some (message, rest)) :
    dispatchMessages willDispatchInputMessage state stream =
      match willDispatchInputMessage state message with
      | none => ([], none)
      | some next =>
        (dispatch message :: (dispatchMessages willDispatchInputMessage next rest).1,
          (dispatchMessages willDispatchInputMessage next rest).2) := by
  rw [dispatchMessages]
  split
  · simp_all
  · rename_i hfind
    rw [h] at hfind
    cases hfind
    rfl

lemma outcome_none (h : findNext stream = none) :
    outcome willDispatchInputMessage state stream =
      ⟨[], kMaximumMessageSize < stream.length⟩ := by
  rw [outcome]
  split
  · rfl
  · simp_all

lemma outcome_some (h : findNext stream = some (message, rest)) :
    outcome willDispatchInputMessage state stream =
      if kMaximumMessageSize < message.length then ⟨[], true⟩
      else
        match willDispatchInputMessage state message with
        | none => ⟨[], true⟩
        | some next => (outcome willDispatchInputMessage next rest).after [dispatch message] := by
  rw [outcome]
  split
  · simp_all
  · rename_i hfind
    rw [h] at hfind
    cases hfind
    rfl

lemma roomy_none {size : ℕ} (h : findNext stream = none) :
    Roomy willDispatchInputMessage size state stream := by
  rw [Roomy]
  split
  · trivial
  · simp_all

lemma roomy_some {size : ℕ} (h : findNext stream = some (message, rest)) :
    Roomy willDispatchInputMessage size state stream ↔
      (message.length ≤ kMaximumMessageSize →
        match willDispatchInputMessage state message with
        | none => True
        | some next =>
          message.length + min (size - 1) rest.length ≤ kMaximumMessageSize ∧
            Roomy willDispatchInputMessage size next rest) := by
  rw [Roomy]
  split
  · simp_all
  · rename_i hfind
    rw [h] at hfind
    cases hfind
    exact Iff.rfl

/-- The rest of a stream is as roomy as the stream. -/
lemma Roomy.tail {size : ℕ} (hroomy : Roomy willDispatchInputMessage size state stream)
    (hfind : findNext stream = some (message, rest))
    (hsize : message.length ≤ kMaximumMessageSize)
    (hwill : willDispatchInputMessage state message = some next) :
    message.length + min (size - 1) rest.length ≤ kMaximumMessageSize ∧
      Roomy willDispatchInputMessage size next rest := by
  have h := (roomy_some hfind).mp hroomy hsize
  rwa [hwill] at h

end Steps

/-! ### One read -/

section Reads
variable {willDispatchInputMessage} {state next : σ} {input more rest : List Byte}
  {messages : List Dispatched} {size : ℕ}

lemma Outcome.after_after (first second : List Dispatched) (outcome : Outcome) :
    (outcome.after second).after first = outcome.after (first ++ second) := by
  ext1
  · exact (List.append_assoc _ _ _).symm
  · rfl

/-- A message that fails the channel fails it whatever comes after. -/
lemma outcome_of_failed
    (h : dispatchMessages willDispatchInputMessage state input = (messages, none))
    (hsize : input.length ≤ kMaximumMessageSize) (more : List Byte) :
    outcome willDispatchInputMessage state (input ++ more) = ⟨messages, true⟩ := by
  fun_induction dispatchMessages willDispatchInputMessage state input generalizing messages with
  | case1 => cases h
  | case2 state input message rest hfind hwill =>
    cases h
    have hlength := length_of_findNext hfind
    rw [outcome_some (exact_findNext.append hfind more), if_neg (by omega), hwill]
  | case3 state input message rest hfind next hwill result =>
    rename_i ih
    have hlength := length_of_findNext hfind
    have hresult : result = (result.1, none) := Prod.ext rfl (Prod.mk.inj h).2
    rw [outcome_some (exact_findNext.append hfind more), if_neg (by omega), hwill]
    simp only [ih hresult (by omega), ← (Prod.mk.inj h).1]
    rfl

/-- The stream goes on with what the read left. -/
structure Continues (willDispatchInputMessage : σ → List Byte → Option σ) (state next : σ)
    (input rest : List Byte) (messages : List Dispatched) : Prop where
  outcome_eq : ∀ more, outcome willDispatchInputMessage state (input ++ more) =
    (outcome willDispatchInputMessage next (rest ++ more)).after messages
  partial_rest : findNext rest = none
  length_le : rest.length ≤ input.length
  roomy : ∀ size more, Roomy willDispatchInputMessage size state (input ++ more) →
    Roomy willDispatchInputMessage size next (rest ++ more)

lemma continues_of_dispatched
    (h : dispatchMessages willDispatchInputMessage state input = (messages, some (rest, next)))
    (hsize : input.length ≤ kMaximumMessageSize) :
    Continues willDispatchInputMessage state next input rest messages := by
  fun_induction dispatchMessages willDispatchInputMessage state input generalizing messages with
  | case1 state input hfind =>
    cases h
    exact ⟨fun more => rfl, hfind, le_rfl, fun size more => id⟩
  | case2 => cases h
  | case3 state input message left hfind middle hwill result =>
    rename_i ih
    have hlength := length_of_findNext hfind
    have hresult : result = (result.1, some (rest, next)) := Prod.ext rfl (Prod.mk.inj h).2
    have htail := ih hresult (by omega)
    have hmessages := (Prod.mk.inj h).1
    refine ⟨fun more => ?_, htail.partial_rest, by have := htail.length_le; omega,
      fun size more hroomy => ?_⟩
    · rw [outcome_some (exact_findNext.append hfind more), if_neg (by omega), hwill,
        ← hmessages]
      simp only [htail.outcome_eq, Outcome.after_after]
      rfl
    · apply htail.roomy
      exact (hroomy.tail (exact_findNext.append hfind more) (by omega) hwill).2

end Reads

/-! ### All reads -/

section Runs
variable {willDispatchInputMessage} {state next : σ} {buf data more message rest : List Byte}
  {size : ℕ} {chunks : List (List Byte)}

/-- A message is longer than any part of it that waits in the buffer. -/
lemma length_lt_of_waiting (hbuf : findNext buf = none)
    (h : findNext (buf ++ more) = some (message, rest)) : buf.length < message.length := by
  obtain ⟨hsplit, hlength⟩ := findNext_eq_some h
  by_contra hle
  obtain ⟨tail, rfl⟩ : message <+: buf :=
    List.prefix_of_prefix_length_le ⟨rest, hsplit.symm⟩ (List.prefix_append _ _) (not_lt.mp hle)
  rw [findNext_append hlength] at hbuf
  cases hbuf

/-- With room for the end of every message, a read that is too much is of a message that is. -/
lemma outcome_of_tooBig (hbuf : findNext buf = none) (hdata : data.length ≤ size)
    (hbig : buf.length + data.length > kMaximumMessageSize)
    (hroomy : Roomy willDispatchInputMessage size state (buf ++ (data ++ more))) :
    outcome willDispatchInputMessage state (buf ++ (data ++ more)) = ⟨[], true⟩ := by
  cases hfind : findNext (buf ++ (data ++ more)) with
  | none =>
    rw [outcome_none hfind]
    simp only [List.length_append, Outcome.mk.injEq, true_and, decide_eq_true_eq]
    omega
  | some found =>
    obtain ⟨message, rest⟩ := found
    have hlength := (length_of_findNext hfind).1
    have hwaiting := length_lt_of_waiting hbuf hfind
    rw [List.length_append, List.length_append] at hlength
    rw [outcome_some hfind]
    split_ifs with hlong
    · rfl
    · cases hwill : willDispatchInputMessage state message with
      | none => rfl
      | some next =>
        have hroom := (hroomy.tail hfind (by omega) hwill).1
        omega

lemma dispatchInputData_eq
    (hsmall : buf = [] ∨ buf.length + data.length ≤ kMaximumMessageSize) :
    dispatchInputData willDispatchInputMessage state buf data =
      dispatchMessages willDispatchInputMessage state (buf ++ data) := by
  unfold dispatchInputData
  split_ifs with hempty hbig
  · rw [List.isEmpty_iff.mp hempty]
    rfl
  · rw [List.isEmpty_iff] at hempty
    exact absurd hbig (not_lt.mpr (hsmall.resolve_left hempty))
  · rfl

lemma run_cons_failed {messages : List Dispatched}
    (h : dispatchInputData willDispatchInputMessage state buf data = (messages, none)) :
    run willDispatchInputMessage state buf (data :: chunks) = ⟨messages, true⟩ := by
  rw [run, h]

lemma run_cons_continued {messages : List Dispatched}
    (h : dispatchInputData willDispatchInputMessage state buf data =
      (messages, some (rest, next))) :
    run willDispatchInputMessage state buf (data :: chunks) =
      (run willDispatchInputMessage next rest chunks).after messages := by
  rw [run, h]

lemma run_cons_tooBig (hne : buf ≠ [])
    (hbig : buf.length + data.length > kMaximumMessageSize) :
    run willDispatchInputMessage state buf (data :: chunks) = ⟨[], true⟩ := by
  apply run_cons_failed
  rw [dispatchInputData, if_neg (by rwa [List.isEmpty_iff]), if_pos hbig]

/-- In a roomy stream it does not matter where the reads fall. -/
theorem run_eq_outcome (hsize : size ≤ kMaximumMessageSize)
    (hle : ∀ chunk ∈ chunks, chunk.length ≤ size) (hbuf : findNext buf = none)
    (hlength : buf.length ≤ kMaximumMessageSize)
    (hroomy : Roomy willDispatchInputMessage size state (buf ++ chunks.flatten)) :
    run willDispatchInputMessage state buf chunks =
      outcome willDispatchInputMessage state (buf ++ chunks.flatten) := by
  induction chunks generalizing state buf with
  | nil =>
    rw [List.flatten_nil, List.append_nil, outcome_none hbuf, run]
    simpa using hlength
  | cons data chunks ih =>
    rw [List.forall_mem_cons] at hle
    rw [List.flatten_cons] at hroomy ⊢
    by_cases hbig : buf ≠ [] ∧ buf.length + data.length > kMaximumMessageSize
    · rw [run_cons_tooBig hbig.1 hbig.2, outcome_of_tooBig hbuf hle.1 hbig.2 hroomy]
    · have hsmall : buf = [] ∨ buf.length + data.length ≤ kMaximumMessageSize := by
        rw [not_and_or, not_not, not_lt] at hbig
        exact hbig
      have hinput : (buf ++ data).length ≤ kMaximumMessageSize := by
        rw [List.length_append]
        rcases hsmall with rfl | hsmall
        · rw [List.length_nil]
          omega
        · exact hsmall
      have hdispatch : dispatchInputData willDispatchInputMessage state buf data = _ :=
        dispatchInputData_eq hsmall
      rw [← List.append_assoc] at hroomy ⊢
      match hresult : dispatchMessages willDispatchInputMessage state (buf ++ data) with
      | (messages, none) =>
        rw [run_cons_failed (hdispatch.trans hresult), outcome_of_failed hresult hinput]
      | (messages, some (rest, next)) =>
        have hcontinues := continues_of_dispatched hresult hinput
        rw [run_cons_continued (hdispatch.trans hresult), hcontinues.outcome_eq,
          ih hle.2 hcontinues.partial_rest (hcontinues.length_le.trans hinput)
            (hcontinues.roomy _ _ hroomy)]

/-- Every byte comes by itself. -/
def singles (stream : List Byte) : List (List Byte) := stream.map fun b => [b]

lemma flatten_singles (stream : List Byte) : (singles stream).flatten = stream := by
  induction stream with
  | nil => rfl
  | cons b stream ih =>
    rw [singles, List.map_cons, List.flatten_cons, ← singles, ih]
    rfl

lemma length_of_mem_singles {stream chunk : List Byte} (h : chunk ∈ singles stream) :
    chunk.length = 1 := by
  obtain ⟨b, -, rfl⟩ := List.mem_map.mp h
  rfl

lemma chunks_singles (stream : List Byte) : Chunks stream (singles stream) where
  flatten_eq := flatten_singles stream
  pos chunk h := (length_of_mem_singles h).ge
  le chunk h := by
    rw [length_of_mem_singles h]
    decide

lemma Chunks.append {stream stream' : List Byte} {chunks chunks' : List (List Byte)}
    (h : Chunks stream chunks) (h' : Chunks stream' chunks') :
    Chunks (stream ++ stream') (chunks ++ chunks') where
  flatten_eq := by rw [List.flatten_append, h.flatten_eq, h'.flatten_eq]
  pos := List.forall_mem_append.mpr ⟨h.pos, h'.pos⟩
  le := List.forall_mem_append.mpr ⟨h.le, h'.le⟩

/-- Byte by byte no read goes beyond the end of a message. -/
lemma roomy_one (state : σ) (stream : List Byte) :
    Roomy willDispatchInputMessage 1 state stream := by
  fun_induction outcome willDispatchInputMessage state stream with
  | case1 state stream hfind => exact roomy_none hfind
  | case2 state stream message rest hfind hlong =>
    rw [roomy_some hfind]
    intro hle
    omega
  | case3 state stream message rest hfind hlong hwill =>
    rw [roomy_some hfind, hwill]
    exact fun _ => trivial
  | case4 state stream message rest hfind hlong next hwill ih =>
    rw [roomy_some hfind, hwill]
    exact fun hle => ⟨by simpa using hle, ih⟩

lemma run_singles_eq_outcome (state : σ) (stream : List Byte) :
    run willDispatchInputMessage state [] (singles stream) =
      outcome willDispatchInputMessage state stream := by
  have h : run willDispatchInputMessage state [] (singles stream) = _ :=
    run_eq_outcome (show 1 ≤ kMaximumMessageSize by decide)
      (fun chunk hc => (length_of_mem_singles hc).le) rfl (Nat.zero_le _) (roomy_one _ _)
  rwa [List.nil_append, flatten_singles] at h

/-- The bytes of an incomplete message go to the buffer. -/
lemma run_singles_part (hmessage : message.length = messageHeaderSize + payloadSize message)
    (hsize : message.length ≤ kMaximumMessageSize) {xs : List Byte} (hpart : buf ++ xs <+: message)
    (hne : buf ++ xs ≠ message) :
    run willDispatchInputMessage state buf (singles xs ++ chunks) =
      run willDispatchInputMessage state (buf ++ xs) chunks := by
  induction xs generalizing buf with
  | nil => rw [List.append_nil]; rfl
  | cons x xs ih =>
    have hsplit : buf ++ x :: xs = buf ++ [x] ++ xs := by simp
    rw [hsplit] at hpart hne ⊢
    have hbuf : buf ++ [x] <+: message := (List.prefix_append _ _).trans hpart
    have hpartial : findNext (buf ++ [x]) = none := by
      apply findNext_of_part hmessage hbuf
      intro heq
      rw [heq] at hpart hne
      exact hne (hpart.eq_of_length (le_antisymm hpart.length_le (by simp)))
    have hread : dispatchInputData willDispatchInputMessage state buf [x] =
        ([], some (buf ++ [x], state)) := by
      rw [dispatchInputData_eq (.inr _), dispatchMessages_none hpartial]
      have := hbuf.length_le
      rw [List.length_append] at this
      omega
    exact (run_cons_continued hread).trans (ih hpart hne)

/-- The last byte of a message is not the first one. -/
lemma exists_concat (hmessage : message.length = messageHeaderSize + payloadSize message) :
    ∃ init last, init ≠ [] ∧ message = init ++ [last] := by
  rcases List.eq_nil_or_concat' message with rfl | ⟨init, last, rfl⟩
  · rw [messageHeaderSize, List.length_nil] at hmessage
    omega
  · refine ⟨init, last, ?_, rfl⟩
    rintro rfl
    rw [messageHeaderSize, List.nil_append, List.length_singleton] at hmessage
    omega

lemma run_singles_message (hmessage : message.length = messageHeaderSize + payloadSize message)
    (hsize : message.length ≤ kMaximumMessageSize)
    (hwill : willDispatchInputMessage state message = some next) :
    run willDispatchInputMessage state [] (singles message ++ chunks) =
      (run willDispatchInputMessage next [] chunks).after [dispatch message] := by
  obtain ⟨init, last, -, rfl⟩ := exists_concat hmessage
  have hsplit : singles (init ++ [last]) ++ chunks = singles init ++ [last] :: chunks := by
    simp [singles]
  have hfind : findNext (init ++ [last]) = some (init ++ [last], []) := by
    have := findNext_append hmessage []
    rwa [List.append_nil] at this
  have hread : dispatchInputData willDispatchInputMessage state init [last] =
      ([dispatch (init ++ [last])], some ([], next)) := by
    rw [dispatchInputData_eq (.inr (by rwa [List.length_append] at hsize)),
      dispatchMessages_some hfind, hwill]
    simp only [dispatchMessages_none (show findNext [] = none from rfl)]
  rw [hsplit, run_singles_part hmessage hsize (List.prefix_append _ _) (by simp)]
  exact run_cons_continued hread

lemma Outcome.after_injective (messages : List Dispatched) :
    Function.Injective (Outcome.after messages) := by
  intro o o' h
  obtain ⟨hmessages, hfailed⟩ := (Outcome.mk.injEq ..).mp h
  ext1
  · exact List.append_cancel_left hmessages
  · exact hfailed

/-- Where a stream is not roomy, there are reads that fail for the bytes after a message. -/
lemma exists_chunks_of_not_roomy {stream : List Byte}
    (h : ¬ Roomy willDispatchInputMessage kReadBufferSize state stream) :
    ∃ chunks, Chunks stream chunks ∧ run willDispatchInputMessage state [] chunks ≠
      outcome willDispatchInputMessage state stream := by
  fun_induction outcome willDispatchInputMessage state stream with
  | case1 state stream hfind => exact absurd (roomy_none hfind) h
  | case2 state stream message rest hfind hlong =>
    exact absurd ((roomy_some hfind).mpr fun hle => absurd hlong (not_lt.mpr hle)) h
  | case3 state stream message rest hfind hlong hwill =>
    exact absurd ((roomy_some hfind).mpr fun _ => by rw [hwill]; trivial) h
  | case4 state stream message rest hfind hlong next hwill ih =>
    obtain ⟨rfl, hmessage⟩ := findNext_eq_some hfind
    rw [not_lt] at hlong
    by_cases hroom : message.length + min (kReadBufferSize - 1) rest.length ≤ kMaximumMessageSize
    · -- the message itself is read whole, and the rest of the stream is at fault
      have hrest : ¬ Roomy willDispatchInputMessage kReadBufferSize next rest := by
        intro hrest
        apply h
        rw [roomy_some hfind, hwill]
        exact fun _ => ⟨hroom, hrest⟩
      obtain ⟨chunks, hchunks, hne⟩ := ih hrest
      refine ⟨singles message ++ chunks, (chunks_singles message).append hchunks, ?_⟩
      rw [run_singles_message hmessage hlong hwill]
      exact fun heq => hne (Outcome.after_injective _ heq)
    · -- the last byte of the message comes with as much as can be read
      obtain ⟨init, last, hinit, rfl⟩ := exists_concat hmessage
      set long := last :: rest.take (kReadBufferSize - 1) with hlongRead
      have hlength : long.length = 1 + min (kReadBufferSize - 1) rest.length := by
        rw [hlongRead, List.length_cons, List.length_take]
        omega
      have hchunk : Chunks long [long] := by
        refine ⟨List.flatten_singleton, fun chunk hc => ?_, fun chunk hc => ?_⟩ <;>
        rw [List.mem_singleton.mp hc, hlength]
        · omega
        · rw [kReadBufferSize]
          omega
      refine ⟨singles init ++ ([long] ++ singles (rest.drop (kReadBufferSize - 1))), ?_, ?_⟩
      · have hsplit : init ++ [last] ++ rest =
            init ++ (long ++ rest.drop (kReadBufferSize - 1)) := by
          rw [hlongRead, List.cons_append, List.take_append_drop]
          simp
        rw [hsplit]
        exact (chunks_singles init).append (hchunk.append (chunks_singles _))
      · rw [run_singles_part hmessage hlong (List.prefix_append _ _) (by simp), List.nil_append,
          List.singleton_append, run_cons_tooBig hinit]
        · intro heq
          exact absurd (congrArg Outcome.messages heq) (by simp [Outcome.after])
        · rw [List.length_append, List.length_singleton] at hroom
          omega

/-- A stream of messages that are not too big is dispatched completely. -/
lemma outcome_flatten {messages : List (List Byte)}
    (hmessages : ∀ m ∈ messages, m.length = messageHeaderSize + payloadSize m ∧
      m.length ≤ kMaximumMessageSize)
    (hwill : (messages.foldlM willDispatchInputMessage state).isSome) :
    outcome willDispatchInputMessage state messages.flatten =
      ⟨messages.map dispatch, false⟩ := by
  induction messages generalizing state with
  | nil => rw [List.flatten_nil, outcome_none rfl]; rfl
  | cons message messages ih =>
    rw [List.forall_mem_cons] at hmessages
    rw [List.foldlM_cons] at hwill
    cases hnext : willDispatchInputMessage state message with
    | none =>
      rw [hnext] at hwill
      cases hwill
    | some next =>
      rw [hnext] at hwill
      rw [List.flatten_cons, outcome_some (findNext_append hmessages.1.1 _),
        if_neg (not_lt.mpr hmessages.1.2), hnext]
      simp only [ih hmessages.2 hwill]
      rfl

end Runs

/-- Where the reads fall does not matter exactly when each message that is dispatched leaves room
for what may be read behind it. -/
theorem reads_irrelevant_iff (state : σ) (stream : List Byte) :
    ((∀ chunks chunks', Chunks stream chunks → Chunks stream chunks' →
        run willDispatchInputMessage state [] chunks =
          run willDispatchInputMessage state [] chunks') ∧
      ∀ messages : List (List Byte), messages.flatten = stream →
        (∀ m ∈ messages, m.length = messageHeaderSize + payloadSize m ∧
          m.length ≤ kMaximumMessageSize) →
        (messages.foldlM willDispatchInputMessage state).isSome →
        ∀ chunks, Chunks stream chunks →
          run willDispatchInputMessage state [] chunks = ⟨messages.map dispatch, false⟩) ↔
      Roomy willDispatchInputMessage kReadBufferSize state stream := by
  constructor
  · rintro ⟨hsame, -⟩
    by_contra hroomy
    obtain ⟨chunks, hchunks, hne⟩ := exists_chunks_of_not_roomy hroomy
    apply hne
    rw [hsame chunks (singles stream) hchunks (chunks_singles stream), run_singles_eq_outcome]
  · intro hroomy
    have hrun : ∀ chunks, Chunks stream chunks →
        run willDispatchInputMessage state [] chunks =
          outcome willDispatchInputMessage state stream := by
      intro chunks hchunks
      have h := run_eq_outcome (by decide) hchunks.le rfl (Nat.zero_le _)
        (by rwa [List.nil_append, hchunks.flatten_eq])
      rwa [List.nil_append, hchunks.flatten_eq] at h
    constructor
    · intro chunks chunks' hchunks hchunks'
      rw [hrun chunks hchunks, hrun chunks' hchunks']
    · rintro messages rfl hmessages hwill chunks hchunks
      rw [hrun chunks hchunks, outcome_flatten hmessages hwill]

end Reading

/-- A message of the maximum size. -/
def fullMessage : List Byte :=
  toBytes 4 (kMaximumMessageSize - messageHeaderSize) ++
    List.replicate (kMaximumMessageSize - 4) 0

/-- A message without a payload. -/
def emptyMessage : List Byte := List.replicate messageHeaderSize 0

/-- The two messages are within the limit, and still it matters where the reads fall. -/
theorem fullMessage_lost :
    (∀ m ∈ [fullMessage, emptyMessage], m.length = messageHeaderSize + payloadSize m ∧
      m.length ≤ kMaximumMessageSize) ∧
    ∃ chunks chunks', Chunks (fullMessage ++ emptyMessage) chunks ∧
      Chunks (fullMessage ++ emptyMessage) chunks' ∧
      run (fun _ _ => some ()) () [] chunks ≠ run (fun _ _ => some ()) () [] chunks' := by
  have hlength : fullMessage.length = kMaximumMessageSize := by
    rw [fullMessage, List.length_append, length_toBytes, List.length_replicate]
    rfl
  have hpayload : payloadSize fullMessage = kMaximumMessageSize - messageHeaderSize := by
    rw [fullMessage, payloadSize_append (length_toBytes _ _).ge, payloadSize,
      List.take_of_length_le (length_toBytes _ _).le, ofBytes_toBytes_of_lt (by decide)]
  have hfull : fullMessage.length = messageHeaderSize + payloadSize fullMessage := by
    rw [hlength, hpayload]
    rfl
  refine ⟨?_, ?_⟩
  · rw [List.forall_mem_cons, List.forall_mem_singleton]
    exact ⟨⟨hfull, hlength.le⟩, by decide⟩
  · have hroomy : ¬ Roomy (fun _ _ => some ()) kReadBufferSize ()
      (fullMessage ++ emptyMessage) := by
      rw [roomy_some (findNext_append hfull _), hlength]
      intro h
      have hroom := (h le_rfl).1
      rw [emptyMessage, List.length_replicate] at hroom
      exact absurd hroom (by decide)
    obtain ⟨chunks, hchunks, hne⟩ := exists_chunks_of_not_roomy hroomy
    refine ⟨chunks, singles (fullMessage ++ emptyMessage), hchunks, chunks_singles _, ?_⟩
    rwa [run_singles_eq_outcome]

end Chromium.IpcChannelReader
