import Chromium.CommandRingRuns
import Chromium.HelperTokens

/-!
# Tokens order the work

The tokens are numbered without wrapping around. The number of a token is found in the ring: it is
the number of `SetToken` commands up to it. What the helper has seen of the ring is never ahead of
what it has seen of the token, so a ring that it has seen to be empty has no token left in it.
-/
namespace Chromium.HelperTokens

open Runs CommandRing CommandTokens

variable {n : ℕ}

/-! ### The tokens among the frames -/

section Frames

variable {fs gs : List Frame} {k : ℕ}

/-- The number of tokens that are set. -/
def count (fs : List Frame) : ℕ := fs.countP fun f => setsToken f.stored

@[simp] lemma count_nil : count [] = 0 := rfl

@[simp] lemma count_append (fs gs : List Frame) : count (fs ++ gs) = count fs + count gs :=
  List.countP_append

lemma count_cons (f : Frame) (fs : List Frame) : count (f :: fs) = count [f] + count fs :=
  count_append [f] fs

lemma count_le_of_beginning (h : fs <+: gs) : count fs ≤ count gs := h.sublist.countP_le

/-- A noop sets no token. -/
lemma count_skip {size : ℕ} (h : size ≤ kMaxSize) : count [.skip size] = 0 := by
  have hsize : size < 2 ^ 21 := by
    unfold kMaxSize at h
    omega
  have hnoop := headerCommand_header (show kNoop < 2 ^ 11 by decide) hsize
  simp [count, Frame.stored, setsToken, hnoop]
  decide

lemma count_commands {cs : List Command} (h : ∀ c ∈ cs, setsToken c.entries = false) :
    count (cs.map .command) = 0 := by
  rw [count, List.countP_map, List.countP_eq_zero]
  intro c hc
  simp [Frame.stored, h c hc]

lemma setsToken_setToken (token : ℕ) : setsToken (setToken token).entries = true := by
  simp [setsToken, setToken, Command.entries,
    headerCommand_header (show kSetToken < 2 ^ 11 by decide) (show 2 < 2 ^ 21 by decide)]

lemma count_setToken (token : ℕ) : count [.command (setToken token)] = 1 := by
  simp [count, Frame.stored, setsToken_setToken]

/-- The tokens set by the frames follow the one with number `k`. -/
def Numbered : ℕ → List Frame → Prop
  | _, [] => True
  | k, f :: fs =>
    (setsToken f.stored = true → f.stored.getD 1 0 = (k + 1) % tokenModulus) ∧
      Numbered (k + count [f]) fs

lemma numbered_append : Numbered k (fs ++ gs) ↔ Numbered k fs ∧ Numbered (k + count fs) gs := by
  induction fs generalizing k with
  | nil => simp [Numbered]
  | cons f fs ih =>
    rw [List.cons_append, Numbered, Numbered, ih, count_cons f fs, Nat.add_assoc, and_assoc]

/-- Frames that set no token are numbered in any way. -/
lemma numbered_of_count (h : count fs = 0) : Numbered k fs := by
  induction fs generalizing k with
  | nil => trivial
  | cons f fs ih =>
    rw [count_cons, Nat.add_eq_zero_iff] at h
    refine ⟨fun hf => ?_, ih h.2⟩
    have hone : count [f] = 1 := by simp [count, hf]
    omega

/-- The token of the service follows the frames. -/
lemma Numbered.tokenAfter_stored (h : Numbered k fs) {j : ℕ} {f : Frame} (hf : fs[j]? = some f) :
    tokenAfter ((k + count (fs.take j)) % tokenModulus) f.stored =
      (k + count (fs.take (j + 1))) % tokenModulus := by
  obtain ⟨hj, rfl⟩ := List.getElem?_eq_some_iff.mp hf
  have hsplit : fs.take j ++ fs[j] :: fs.drop (j + 1) = fs := by
    rw [List.getElem_cons_drop hj, List.take_append_drop]
  have hnumbered := h
  rw [← hsplit, numbered_append] at hnumbered
  have hlast := hnumbered.2.1
  rw [List.take_add_one, hf, Option.toList_some, count_append, tokenAfter]
  split_ifs with hsets
  · rw [hlast hsets, count, count, List.countP_singleton, if_pos hsets, Nat.add_assoc]
  · rw [count, count, List.countP_singleton, if_neg hsets, Nat.add_zero]

end Frames

/-- The commands that the client has space for and has not written yet. -/
def remaining : Phase → List Command
  | .idle => []
  | .wrapWait cs | .fillNoops cs _ | .entriesWait cs | .reserve cs | .write _ cs _ => cs

/-- What is written and what is going to be. -/
def planned (r : CommandRing.World) : List Frame :=
  r.written ++ (remaining r.client.phase).map .command

/-! ### Steps of the client on the ring -/

/-- What a step of the client keeps of the ring. -/
structure Keeps (r r' : CommandRing.World) : Prop where
  executed : r'.executed = r.executed
  seen : r'.seen = r.seen
  written : r.written <+: r'.written
  count : count (planned r') = count (planned r)
  numbered : ∀ k, Numbered k (planned r) → Numbered k (planned r')

section Ring

variable {r r' : CommandRing.World}

lemma Keeps.of_eq (hexecuted : r'.executed = r.executed) (hseen : r'.seen = r.seen)
    (hwritten : r'.written = r.written)
    (hremaining : remaining r'.client.phase = remaining r.client.phase) : Keeps r r' := by
  have hplanned : planned r' = planned r := by rw [planned, planned, hwritten, hremaining]
  exact ⟨hexecuted, hseen, hwritten ▸ List.prefix_rfl, by rw [hplanned], fun k h => hplanned ▸ h⟩

lemma keeps_flushSync (r : CommandRing.World) : Keeps r (CommandRing.flushSync r) :=
  .of_eq rfl rfl rfl rfl

lemma keeps_flush (r : CommandRing.World) : Keeps r (CommandRing.flush r) := by
  rw [CommandRing.flush]
  split_ifs
  · exact keeps_flushSync r
  · exact .of_eq rfl rfl rfl rfl

lemma keeps_clientStep (n : ℕ) (late : Bool) (r : CommandRing.World) :
    Keeps r (CommandRing.clientStep n late r) := by
  rw [CommandRing.clientStep]
  split
  · exact .of_eq rfl rfl rfl rfl
  · next cs hphase =>
    split_ifs
    · exact keeps_flushSync r
    · exact .of_eq rfl rfl rfl (by rw [hphase]; rfl)
  · next cs numEntries hphase =>
    split_ifs with hpos
    · -- a noop is put in front of what remains
      have hskip := count_skip (min_le_left kMaxSize numEntries)
      refine ⟨rfl, rfl, List.prefix_append _ _, ?_, fun k h => ?_⟩
      · simp only [planned, count_append, hskip, hphase, remaining, Nat.add_zero]
      · simp only [planned, numbered_append, count_append, hskip, hphase, remaining,
          Nat.add_zero] at h ⊢
        exact ⟨⟨h.1, numbered_of_count hskip⟩, h.2⟩
    · exact .of_eq rfl rfl rfl (by rw [hphase]; rfl)
  · next cs hphase =>
    split_ifs
    · exact keeps_flushSync r
    · exact .of_eq rfl rfl rfl (by rw [hphase]; rfl)
  · next cs hphase =>
    rcases flushIfDue_eq n late r with heq | heq
    · rw [heq]
      exact .of_eq rfl rfl rfl (by rw [hphase]; rfl)
    · rw [heq]
      exact .of_eq rfl rfl rfl (by rw [hphase]; rfl)
  · next space done hphase => exact .of_eq rfl rfl rfl (by rw [hphase]; rfl)
  · next space c cs done hphase =>
    dsimp only
    split_ifs
    · have hplanned : (r.written ++ [Frame.command c]) ++ cs.map .command = planned r := by
        simp [planned, hphase, remaining]
      refine ⟨rfl, rfl, List.prefix_append _ _, ?_, fun k h => ?_⟩
      · exact congrArg HelperTokens.count hplanned
      · exact (congrArg (Numbered k) hplanned).mpr h
    · exact .of_eq rfl rfl rfl (by rw [hphase]; rfl)

/-- The ring is sound, but for the put offset sent last, which may be one of an earlier ring. -/
def Ringed (n : ℕ) (r : CommandRing.World) : Prop :=
  ∃ lastPutSent, CommandRing.Invariant n
    { r with client := { r.client with lastPutSent := lastPutSent } }

lemma Ringed.flushSync (h : Ringed n r)
    (hput : r.client.put = startOf r.written r.written.length % n) :
    Ringed n (CommandRing.flushSync r) := by
  obtain ⟨_, h⟩ := h
  exact ⟨r.client.put, h.flushSync hput⟩

lemma Ringed.put_eq (h : Ringed n r) (hidle : r.client.phase = .idle) :
    r.client.put = startOf r.written r.written.length % n := by
  obtain ⟨_, h⟩ := h
  have hphase := h.phase
  simp only [PhaseOk, hidle] at hphase
  exact hphase.1

lemma Ringed.flush (h : Ringed n r) (hidle : r.client.phase = .idle) :
    Ringed n (CommandRing.flush r) := by
  rw [CommandRing.flush]
  split_ifs
  · exact h.flushSync (h.put_eq hidle)
  · exact h

lemma Ringed.getSpace (h : Ringed n r) (hidle : r.client.phase = .idle) {cs : List Command}
    (hlt : totalSize cs < n) : Ringed n (CommandRing.getSpace n cs r) := by
  obtain ⟨lastPutSent, h⟩ := h
  exact ⟨lastPutSent, h.getSpace hidle hlt⟩

/-- The put offset sent last matters only where the client may flush. -/
lemma Ringed.clientStep (h : Ringed n r) (late : Bool) :
    Ringed n (CommandRing.clientStep n late r) := by
  obtain ⟨lastPutSent, h⟩ := h
  have hstep := h.clientStep late
  obtain ⟨⟨put, lastPut, getOffset, commandsIssued, flushAutomatically, phase⟩, parser, buffer,
    messages, gets, seen, written, executed⟩ := r
  cases phase with
  | idle => exact ⟨lastPutSent, hstep⟩
  | wrapWait cs =>
    simp only [CommandRing.clientStep] at hstep ⊢
    split_ifs at hstep ⊢
    · exact ⟨put, hstep⟩
    · exact ⟨lastPutSent, hstep⟩
  | fillNoops cs numEntries =>
    simp only [CommandRing.clientStep] at hstep ⊢
    split_ifs at hstep ⊢
    · exact ⟨lastPutSent, hstep⟩
    · exact ⟨lastPutSent, hstep⟩
  | entriesWait cs =>
    by_cases hroom : (getOffset + n - put - 1) % n < totalSize cs
    · simp only [CommandRing.clientStep, availableEntries, hroom, if_true] at hstep ⊢
      exact ⟨put, hstep⟩
    · simp only [CommandRing.clientStep, availableEntries, hroom, if_false] at hstep ⊢
      exact ⟨lastPutSent, hstep⟩
  | reserve cs =>
    simp only [CommandRing.clientStep]
    rcases flushIfDue_eq n late ⟨⟨put, lastPut, getOffset, commandsIssued, flushAutomatically,
      .reserve cs⟩, parser, buffer, messages, gets, seen, written, executed⟩ with heq | heq
    · rw [heq]
      exact ⟨lastPutSent, h.reserve rfl⟩
    · rw [heq]
      exact ⟨put, (h.flushSync h.phase.1).reserve rfl⟩
  | write space cs done =>
    cases cs with
    | nil => exact ⟨lastPutSent, hstep⟩
    | cons c cs =>
      simp only [CommandRing.clientStep] at hstep ⊢
      split_ifs at hstep ⊢
      · exact ⟨lastPutSent, hstep⟩
      · exact ⟨lastPutSent, hstep⟩

lemma Ringed.seen_le (h : Ringed n r) :
    r.seen ≤ r.executed.length ∧ r.executed.length ≤ r.written.length := by
  obtain ⟨_, h⟩ := h
  obtain ⟨received, sent, transit, hlink⟩ := h.linked
  exact ⟨hlink.seen_le, hlink.executed_le_length⟩

/-- An idle client that sees its own put offset has seen all that it has written. -/
lemma Ringed.seen_eq (h : Ringed n r) (hidle : r.client.phase = .idle)
    (heq : r.client.put = r.client.getOffset) : r.seen = r.written.length := by
  obtain ⟨_, h⟩ := h
  obtain ⟨received, sent, transit, hlink⟩ := h.linked
  have hphase := h.phase
  simp only [PhaseOk, hidle] at hphase
  obtain ⟨hput, hlimit⟩ := hphase
  have hle : r.seen ≤ r.written.length := hlink.seen_le.trans hlink.executed_le_length
  have hslot : startOf r.written r.seen % n = startOf r.written r.written.length % n :=
    hlink.getOffset.symm.trans (heq.symm.trans hput)
  exact h.laid.eq_of_startOf_eq hle le_rfl
    (eq_of_slot_eq (startOf_mono r.written hle) hlimit hslot)

end Ring

/-! ### The helper -/

/-- The number of the token inserted last, with the one that is being written. -/
def issued (w : World) : ℕ := count w.past + count (planned w.ring)

/-- The number of the token in the state received last. -/
def read (w : World) : ℕ := count w.past + count (w.ring.written.take w.tokenSeen)

/-- No token of an earlier round is unread. -/
def Synced (w : World) : Prop := issued w / tokenModulus * tokenModulus ≤ read w

/-- What holds in a call. -/
def CallOk (w : World) : Prop :=
  match w.call with
  | .idle => w.lost = false → Synced w
  | .inserting before =>
    w.haveRingBuffer = true ∧ before <+: w.written ∧ count before < issued w ∧
      (w.lost = false → (issued w - 1) / tokenModulus * tokenModulus ≤ read w)
  | .finishing none =>
    w.haveRingBuffer = true ∧ w.ring.client.phase = .idle ∧ (w.lost = false → Synced w)
  | .finishing (some before) =>
    w.haveRingBuffer = true ∧ w.ring.client.phase = .idle ∧ before <+: w.written ∧
      count before < issued w
  | .waiting token =>
    w.haveRingBuffer = true ∧ w.ring.client.phase = .idle ∧ w.usable = true ∧ token ≤ w.token ∧
      (w.lost = false → Synced w)
  | .fatal => False

/-- The invariant of the careful runs. -/
structure Invariant (n : ℕ) (w : World) : Prop where
  ring : Ringed n w.ring
  numbered : Numbered (count w.past) (planned w.ring)
  token : w.token = issued w % tokenModulus
  tokens : w.tokens = (List.range (w.ring.executed.length + 1)).map fun k =>
    (count w.past + count (w.ring.written.take k)) % tokenModulus
  tokenSeen : w.ring.seen ≤ w.tokenSeen ∧ w.tokenSeen ≤ w.ring.executed.length
  lastTokenRead : w.lastTokenRead = read w % tokenModulus
  pastExecuted : w.pastExecuted.filter isCommand = commandsOf w.past
  no_ring : w.haveRingBuffer = false → w.ring.client.phase = .idle ∧
    (w.lost = false → w.ring.executed.length = w.ring.written.length)
  unusable : w.usable = false → w.haveRingBuffer = false ∨ w.lost = true
  insertions : ∀ i ∈ w.insertions, i.before <+: w.written ∧
    (w.usable = true → ∃ u ≤ issued w, i.token = u % tokenModulus ∧ count i.before < u)
  call : CallOk w
  returns : ∀ r ∈ w.returns, r.lost = false → ∀ i ∈ r.insertions, i.token = r.token →
    commandsOf i.before <+: r.executed.filter isCommand

lemma ringed_initial (n : ℕ) (buffer : ℕ → ℕ) (client : Client) (hput : client.put = 0)
    (hget : client.getOffset = 0) (hphase : client.phase = .idle) :
    Ringed n { CommandRing.World.initial buffer client.flushAutomatically with
      client := client } := by
  refine ⟨0, ⟨0, 0, [], ?_⟩, ?_, rfl, ?_⟩
  · constructor <;> simp [CommandRing.World.initial, startOf, hget]
  · constructor <;> simp [CommandRing.World.initial]
  · simp [CommandRing.World.initial, PhaseOk, startOf, hput, hphase]

lemma invariant_initial (n : ℕ) (flushAutomatically : Bool) :
    Invariant n (.initial flushAutomatically) where
  ring := ringed_initial n (fun _ => 0) ⟨0, 0, 0, 0, flushAutomatically, .idle⟩ rfl rfl rfl
  numbered := trivial
  token := rfl
  tokens := rfl
  tokenSeen := ⟨le_rfl, le_rfl⟩
  lastTokenRead := rfl
  pastExecuted := rfl
  no_ring _ := ⟨rfl, fun _ => rfl⟩
  unusable h := by cases h
  insertions i hi := by cases hi
  call _ := by simp [Synced, issued, planned, remaining, World.initial, CommandRing.World.initial]
  returns r hr := by cases hr

section Helper

variable {w w' : World}

lemma isIdle_iff : w.isIdle = true ↔ w.call = .idle ∧ w.ring.client.phase = .idle := by
  rw [World.isIdle]
  split
  · next hcall hphase => simp [hcall, hphase]
  · next h =>
    simp only [Bool.false_eq_true, false_iff, not_and]
    exact fun hcall hphase => h hcall hphase

lemma planned_idle (hidle : w.ring.client.phase = .idle) : planned w.ring = w.ring.written := by
  simp [planned, hidle, remaining]

lemma read_le_issued (w : World) : read w ≤ issued w := by
  have hpre : w.ring.written.take w.tokenSeen <+: planned w.ring :=
    (List.take_prefix _ _).trans (List.prefix_append _ _)
  exact Nat.add_le_add_left (count_le_of_beginning hpre) _

lemma count_written (hidle : w.ring.client.phase = .idle) : count w.written = issued w := by
  rw [World.written, count_append, issued, planned_idle hidle]

/-- A helper that sees its own put offset has seen the last token. -/
lemma Invariant.read_eq (h : Invariant n w) (hidle : w.ring.client.phase = .idle)
    (heq : w.ring.client.put = w.ring.client.getOffset) : read w = issued w := by
  have hseen := h.ring.seen_eq hidle heq
  have htoken := h.tokenSeen.1
  rw [read, issued, planned_idle hidle, List.take_of_length_le (by omega)]

lemma synced_of_read_eq (h : read w = issued w) : Synced w := by
  rw [Synced, h]
  exact Nat.div_mul_le_self _ _

lemma commandsOf_append (fs gs : List Frame) :
    commandsOf (fs ++ gs) = commandsOf fs ++ commandsOf gs := by
  simp [commandsOf]

lemma commandsOf_prefix {fs gs : List Frame} (h : fs <+: gs) : commandsOf fs <+: commandsOf gs :=
  (h.map Frame.stored).filter isCommand

/-- What is executed is a beginning of what is written. -/
lemma Invariant.executed_eq (h : Invariant n w) : w.executed.filter isCommand =
    commandsOf (w.past ++ w.ring.written.take w.ring.executed.length) := by
  obtain ⟨_, hring⟩ := h.ring
  rw [World.executed, List.filter_append, h.pastExecuted, commandsOf_append]
  exact congrArg (commandsOf w.past ++ ·) hring.executed

/-- What was written before a token that is read has been executed. -/
lemma Invariant.covers (h : Invariant n w) {before : List Frame} {u : ℕ}
    (hbefore : before <+: w.written) (hcount : count before < u) (hread : u ≤ read w) :
    commandsOf before <+: w.executed.filter isCommand := by
  have htake : w.past ++ w.ring.written.take w.tokenSeen <+: w.written :=
    (List.prefix_append_right_inj w.past).mpr (List.take_prefix _ _)
  rw [h.executed_eq]
  refine commandsOf_prefix ?_
  rcases List.prefix_or_prefix_of_prefix hbefore htake with hle | hle
  · refine hle.trans ((List.prefix_append_right_inj w.past).mpr ?_)
    exact List.take_prefix_take_left h.tokenSeen.2
  · -- otherwise the token itself was written before
    have hcontra := count_le_of_beginning hle
    rw [count_append] at hcontra
    rw [read] at hread
    omega

/-! ### Steps of the helper -/

lemma Invariant.setCall (h : Invariant n w) {call : Call} (flushing : Bool)
    (hcall : CallOk { w with call := call }) :
    Invariant n { w with call := call, flushing := flushing } :=
  ⟨h.ring, h.numbered, h.token, h.tokens, h.tokenSeen, h.lastTokenRead, h.pastExecuted, h.no_ring,
    h.unusable, h.insertions, hcall, h.returns⟩

/-- What holds in a call still holds when more is written, or seen without an error. -/
lemma CallOk.mono (h : CallOk w) (hcall : w'.call = w.call)
    (hhave : w'.haveRingBuffer = w.haveRingBuffer) (husable : w'.usable = w.usable)
    (htoken : w'.token = w.token) (hissued : issued w' = issued w)
    (hwritten : w.written <+: w'.written)
    (hphase : w.call.inGetSpace = true ∨ w'.ring.client.phase = w.ring.client.phase)
    (hread : w'.lost = false → w.lost = false ∧ read w ≤ read w') : CallOk w' := by
  have hsynced : (w.lost = false → Synced w) → w'.lost = false → Synced w' := by
    intro hsynced hlost
    rw [Synced, hissued]
    exact (hsynced (hread hlost).1).trans (hread hlost).2
  rw [CallOk] at h ⊢
  rw [hcall, hhave, husable, htoken, hissued]
  cases hc : w.call with
  | idle =>
    simp only [hc] at h
    exact hsynced h
  | inserting before =>
    simp only [hc] at h
    obtain ⟨hring, hbefore, hcount, hlast⟩ := h
    exact ⟨hring, hbefore.trans hwritten, hcount, fun hlost =>
      (hlast (hread hlost).1).trans (hread hlost).2⟩
  | finishing before =>
    have hsame : w'.ring.client.phase = w.ring.client.phase := by
      simpa [hc, Call.inGetSpace] using hphase
    cases before with
    | none =>
      simp only [hc] at h
      exact ⟨h.1, hsame.trans h.2.1, hsynced h.2.2⟩
    | some before =>
      simp only [hc] at h
      exact ⟨h.1, hsame.trans h.2.1, h.2.2.1.trans hwritten, h.2.2.2⟩
  | waiting token =>
    have hsame : w'.ring.client.phase = w.ring.client.phase := by
      simpa [hc, Call.inGetSpace] using hphase
    simp only [hc] at h
    exact ⟨h.1, hsame.trans h.2.1, h.2.2.1, h.2.2.2.1, hsynced h.2.2.2.2⟩
  | fatal => simp only [hc] at h

/-- A step of either party that keeps what was written, executed and seen. -/
lemma Invariant.withRing (h : Invariant n w) {r : CommandRing.World} (flushing : Bool)
    (puts : List ℕ) (hring : Ringed n r) (hkeeps : Keeps w.ring r)
    (hphase : w.call.inGetSpace = true ∨ r.client.phase = w.ring.client.phase)
    (hno : w.haveRingBuffer = false →
      r.client.phase = w.ring.client.phase ∧ r.written = w.ring.written) :
    Invariant n { w with ring := r, flushing := flushing, puts := puts } := by
  have hlength := h.ring.seen_le.2
  have htake : ∀ k ≤ w.ring.executed.length, r.written.take k = w.ring.written.take k := by
    intro k hk
    obtain ⟨more, hmore⟩ := hkeeps.written
    rw [← hmore, List.take_append_of_le_length (hk.trans hlength)]
  have hissued : issued { w with ring := r, flushing := flushing, puts := puts } = issued w := by
    rw [issued, issued, hkeeps.count]
  have hread : read { w with ring := r, flushing := flushing, puts := puts } = read w := by
    simp only [read, htake _ h.tokenSeen.2]
  have hwritten : w.written <+:
      World.written { w with ring := r, flushing := flushing, puts := puts } :=
    (List.prefix_append_right_inj w.past).mpr hkeeps.written
  refine ⟨hring, hkeeps.numbered _ h.numbered, ?_, ?_, ?_, ?_, h.pastExecuted, ?_, h.unusable, ?_,
    ?_, h.returns⟩
  · rw [hissued]
    exact h.token
  · dsimp only
    rw [hkeeps.executed, h.tokens]
    refine List.map_congr_left fun k hk => ?_
    rw [htake k (by rw [List.mem_range] at hk; omega)]
  · dsimp only
    rw [hkeeps.executed, hkeeps.seen]
    exact h.tokenSeen
  · rw [hread]
    exact h.lastTokenRead
  · intro hhave
    obtain ⟨hidle, hall⟩ := h.no_ring hhave
    obtain ⟨hsame, hsame'⟩ := hno hhave
    refine ⟨hsame.trans hidle, fun hlost => ?_⟩
    dsimp only
    rw [hkeeps.executed, hsame']
    exact hall hlost
  · intro i hi
    rw [hissued]
    exact ⟨(h.insertions i hi).1.trans hwritten, (h.insertions i hi).2⟩
  · exact h.call.mono rfl rfl rfl rfl hissued hwritten hphase fun hlost => ⟨hlost, hread.ge⟩

/-- `InsertToken` returns the token it has inserted. -/
lemma Invariant.endInsert (h : Invariant n w) {before : List Frame}
    (hbefore : before <+: w.written) (hcount : count before < issued w)
    (hsynced : w.lost = false → Synced w) : Invariant n (endInsert before w) := by
  refine ⟨h.ring, h.numbered, h.token, h.tokens, h.tokenSeen, h.lastTokenRead, h.pastExecuted,
    h.no_ring, h.unusable, ?_, hsynced, h.returns⟩
  intro i hi
  rcases List.mem_append.mp hi with hi | hi
  · exact h.insertions i hi
  · obtain rfl := List.mem_singleton.mp hi
    exact ⟨hbefore, fun _ => ⟨issued w, le_rfl, h.token, hcount⟩⟩

/-- `WaitForToken` returns. -/
lemma Invariant.endWait (h : Invariant n w) {token : ℕ} (hsynced : w.lost = false → Synced w)
    (hcovers : w.lost = false → ∀ i ∈ w.insertions, i.token = token →
      commandsOf i.before <+: w.executed.filter isCommand) : Invariant n (endWait token w) := by
  refine ⟨h.ring, h.numbered, h.token, h.tokens, h.tokenSeen, h.lastTokenRead, h.pastExecuted,
    h.no_ring, h.unusable, h.insertions, hsynced, ?_⟩
  intro r hr
  rcases List.mem_append.mp hr with hr | hr
  · exact h.returns r hr
  · obtain rfl := List.mem_singleton.mp hr
    exact hcovers

/-- Without a ring all that was written has been executed. -/
lemma Invariant.covers_no_ring (h : Invariant n w) (hring : w.haveRingBuffer = false)
    (hlost : w.lost = false) {i : Insertion} (hi : i ∈ w.insertions) :
    commandsOf i.before <+: w.executed.filter isCommand := by
  rw [h.executed_eq, (h.no_ring hring).2 hlost, List.take_length]
  exact commandsOf_prefix (h.insertions i hi).1

/-- A token above the last one is of an earlier round, which has been read. -/
lemma Invariant.covers_wrapped (h : Invariant n w) (husable : w.usable = true)
    (hsynced : Synced w) {i : Insertion} (hi : i ∈ w.insertions) (hlt : w.token < i.token) :
    commandsOf i.before <+: w.executed.filter isCommand := by
  obtain ⟨hbefore, hinserted⟩ := h.insertions i hi
  obtain ⟨u, hu, htoken, hcount⟩ := hinserted husable
  refine h.covers hbefore hcount ?_
  rw [h.token, htoken] at hlt
  unfold Synced tokenModulus at *
  omega

/-- A token up to the one received last has been read. -/
lemma Invariant.covers_read (h : Invariant n w) (husable : w.usable = true) (hsynced : Synced w)
    {i : Insertion} (hi : i ∈ w.insertions) (hle : i.token ≤ w.lastTokenRead) :
    commandsOf i.before <+: w.executed.filter isCommand := by
  obtain ⟨hbefore, hinserted⟩ := h.insertions i hi
  obtain ⟨u, hu, htoken, hcount⟩ := hinserted husable
  refine h.covers hbefore hcount ?_
  rw [h.lastTokenRead, htoken] at hle
  exact Tokens.le_read_of_le_lastTokenRead ⟨issued w, read w, read_le_issued w, hsynced⟩ hu hle

lemma Invariant.flushInLoop (h : Invariant n w) (hidle : w.ring.client.phase = .idle) :
    Invariant n (flushInLoop w) :=
  h.withRing true w.puts (h.ring.flushSync (h.ring.put_eq hidle)) (keeps_flushSync w.ring)
    (.inr rfl) (fun _ => ⟨rfl, rfl⟩)

/-- Inside `GetSpace` nothing is cut short. -/
lemma Invariant.ringStep (h : Invariant n w)
    (hcall : w.call.inGetSpace = true) (hcut : ¬ w.CutsShort) (late : Bool) :
    Invariant n (ringStep n late w) := by
  rw [HelperTokens.ringStep]
  split_ifs with hflushing hlost
  · exact absurd ⟨hflushing, hlost, hcall⟩ hcut
  · exact h.withRing false w.puts h.ring (.of_eq rfl rfl rfl rfl) (.inr rfl)
      (fun _ => ⟨rfl, rfl⟩)
  · refine h.withRing _ w.puts (h.ring.clientStep late) (keeps_clientStep n late w.ring)
      (.inl hcall) fun hhave => ?_
    rw [CommandRing.clientStep, (h.no_ring hhave).1]
    exact ⟨(h.no_ring hhave).1, rfl⟩

lemma Invariant.clientStep (h : Invariant n w) (hcut : ¬ w.CutsShort) (late : Bool) :
    Invariant n (clientStep n late w) := by
  have hcall := h.call
  rw [CallOk] at hcall
  rw [HelperTokens.clientStep]
  cases hc : w.call with
  | idle => exact h.ringStep (by rw [hc]; rfl) hcut late
  | inserting before =>
    simp only [hc] at hcall ⊢
    obtain ⟨hhave, hbefore, hcount, hsynced⟩ := hcall
    split
    · next hidle =>
      split_ifs with hwrapped
      · refine h.setCall w.flushing ?_
        exact ⟨hhave, hidle, hbefore, hcount⟩
      · refine h.endInsert hbefore hcount fun hlost => ?_
        obtain ⟨k, hk⟩ := Nat.exists_eq_succ_of_ne_zero (Nat.ne_zero_of_lt hcount)
        have hread := hsynced hlost
        rw [h.token] at hwrapped
        rw [hk] at hread hwrapped
        rw [Synced, hk]
        exact synced_insert hread hwrapped
    · exact h.ringStep (by rw [hc]; rfl) hcut late
  | finishing before =>
    have hend : (w.lost = false → Synced w) → Invariant n (endFinish before w) := by
      intro hsynced
      cases before with
      | none => exact h.setCall false hsynced
      | some before =>
        simp only [hc] at hcall
        exact h.endInsert hcall.2.2.1 hcall.2.2.2 hsynced
    have hidle : w.ring.client.phase = .idle := by
      cases before with
      | none =>
        simp only [hc] at hcall
        exact hcall.2.1
      | some before =>
        simp only [hc] at hcall
        exact hcall.2.1
    dsimp only
    split_ifs with hflushing hlost hput
    · exact hend fun hfalse => absurd (hfalse.symm.trans hlost) (by decide)
    · exact h.setCall false (by rw [← hc]; exact h.call)
    · exact hend fun _ => synced_of_read_eq (h.read_eq hidle hput)
    · exact h.flushInLoop hidle
  | waiting token =>
    simp only [hc] at hcall
    obtain ⟨hhave, hidle, husable, hle, hsynced⟩ := hcall
    dsimp only
    split_ifs with hflushing hlost hread hput
    · exact h.endWait hsynced fun hfalse => absurd (hfalse.symm.trans hlost) (by decide)
    · exact h.setCall false (by rw [← hc]; exact h.call)
    · refine h.endWait hsynced fun hlost i hi htoken => ?_
      exact h.covers_read husable (hsynced hlost) hi (htoken ▸ hread)
    · -- the ring is empty, so the last token has been read
      have hlast := h.lastTokenRead
      rw [h.read_eq hidle hput.symm, ← h.token] at hlast
      exact absurd (hlast ▸ hle) hread
    · exact h.flushInLoop hidle
  | fatal => simp only [hc] at hcall

/-! ### The calls of the client -/

lemma callOk_idle (hcall : w.call = .idle) (h : w.lost = false → Synced w) : CallOk w := by
  rw [CallOk, hcall]
  exact h

lemma CallOk.synced (h : CallOk w) (hcall : w.call = .idle) : w.lost = false → Synced w := by
  simpa only [CallOk, hcall] using h

/-- A new ring, with nothing of the old one left to execute. -/
lemma Invariant.freshRing (h : Invariant n w) (hcall : w.call = .idle)
    (hidle : w.ring.client.phase = .idle) (hhave : w.haveRingBuffer = false)
    (husable : w.usable = true) (hlost : w.lost = false) (buffer : ℕ → ℕ) :
    Invariant n (freshRing buffer w) := by
  have hall := (h.no_ring hhave).2 hlost
  have hplanned : planned (HelperTokens.freshRing buffer w).ring = [] := by
    simp [planned, HelperTokens.freshRing, CommandRing.World.initial, hidle, remaining]
  have hissued : issued (HelperTokens.freshRing buffer w) = issued w := by
    rw [issued, hplanned, count_nil, Nat.add_zero]
    exact count_written hidle
  have hread : read (HelperTokens.freshRing buffer w) = issued w := by
    rw [read]
    exact count_written hidle
  have hlast : w.tokens.getLastD 0 = issued w % tokenModulus := by
    rw [h.tokens, List.range_succ, List.map_append, List.map_singleton, List.getLastD_concat, hall,
      List.take_length, issued, planned_idle hidle]
  have hwritten : World.written (HelperTokens.freshRing buffer w) = w.written :=
    List.append_nil _
  refine ⟨ringed_initial n buffer _ rfl rfl hidle, ?_, ?_, ?_, ⟨le_rfl, le_rfl⟩, ?_, ?_,
    (fun hfalse => by cases hfalse), ?_, ?_, ?_, h.returns⟩
  · rw [hplanned]
    trivial
  · rw [hissued]
    exact h.token
  · simp only [HelperTokens.freshRing, hlast, CommandRing.World.initial, List.length_nil]
    rw [← count_written hidle]
    rfl
  · rw [hread]
    exact hlast
  · have hexecuted := h.executed_eq
    rw [hall, List.take_length] at hexecuted
    exact hexecuted
  · exact fun hfalse => absurd (husable.symm.trans hfalse) (by decide)
  · intro i hi
    rw [hwritten, hissued]
    exact h.insertions i hi
  · exact callOk_idle hcall fun _ => synced_of_read_eq (hread.trans hissued.symm)

/-- The memory of the ring is replaced, when nothing in it is left to execute. -/
lemma Ringed.withBuffer {r : CommandRing.World} (h : Ringed n r)
    (hidle : r.client.phase = .idle) (hall : r.written.length ≤ r.executed.length)
    (buffer : ℕ → ℕ) : Ringed n { r with buffer := buffer } := by
  obtain ⟨lastPutSent, h⟩ := h
  obtain ⟨received, sent, transit, hlink⟩ := h.linked
  refine ⟨lastPutSent, ⟨received, sent, transit, ?_⟩, ?_, h.executed, ?_⟩
  · exact ⟨hlink.executed_le, hlink.chain, hlink.last, hlink.sent_le, hlink.seen_le, hlink.gets,
      hlink.get, hlink.put, hlink.messages, hlink.lastPutSent, hlink.getOffset⟩
  · refine ⟨h.laid.pos, h.laid.header, h.laid.fits, fun j f hj hf => ?_⟩
    have hlt := (List.getElem?_eq_some_iff.mp hf).1
    exact absurd (hall.trans hj) (not_le.mpr hlt)
  · have hphase := h.phase
    simp only [PhaseOk, hidle] at hphase ⊢
    exact hphase

lemma Invariant.allocateRingBuffer (h : Invariant n w) (hcall : w.call = .idle)
    (hidle : w.ring.client.phase = .idle) {created : Creation}
    (hfresh : ∀ buffer, created = .fresh buffer → w.lost = false)
    (hcareful : Careful w (.allocateRingBuffer created)) :
    Invariant n (allocateRingBuffer created w) := by
  unfold HelperTokens.allocateRingBuffer
  split_ifs with hskip
  · exact h
  obtain ⟨husable, hhave⟩ : w.usable = true ∧ w.haveRingBuffer = false := by
    simpa [not_or] using hskip
  have hsynced := h.call.synced hcall
  cases created with
  | refused =>
    refine ⟨h.ring, h.numbered, h.token, h.tokens, h.tokenSeen, h.lastTokenRead, h.pastExecuted,
      h.no_ring, fun _ => .inl hhave, fun i hi => ?_, ?_, h.returns⟩
    · exact ⟨(h.insertions i hi).1, fun hfalse => by cases hfalse⟩
    · exact callOk_idle hcall hsynced
  | fresh buffer => exact h.freshRing hcall hidle hhave husable (hfresh buffer rfl) buffer
  | stale buffer largeEnough =>
    obtain ⟨hget, hput⟩ := hcareful husable hhave
    have hseen := h.ring.seen_eq hidle hget
    have hexecuted := h.ring.seen_le.1
    have hsame : (if largeEnough then w.statePut else w.ring.client.put) = w.ring.client.put := by
      rw [hput, ite_self]
    dsimp only
    rw [hsame]
    refine ⟨h.ring.withBuffer hidle (by omega) buffer, h.numbered, h.token, h.tokens, h.tokenSeen,
      h.lastTokenRead, h.pastExecuted, (fun hfalse => by cases hfalse), fun _ => .inr rfl,
      fun i hi => ?_, ?_, h.returns⟩
    · exact ⟨(h.insertions i hi).1, fun _ => (h.insertions i hi).2 husable⟩
    · exact callOk_idle hcall fun hfalse => by cases hfalse

/-- What is no command sets no token. -/
lemma not_setsToken {entries : List ℕ} (h : ¬ isCommand entries = true) :
    setsToken entries = false := by
  cases entries with
  | nil => rfl
  | cons e es =>
    have hnoop : headerCommand e = kNoop := by simpa [isCommand] using h
    simp [setsToken, hnoop, kNoop, kSetToken]

/-- `GetSpace` for commands that set no token. -/
lemma keeps_getSpace {r : CommandRing.World} (hidle : r.client.phase = .idle)
    {cs : List Command} (h : ∀ c ∈ cs, setsToken c.entries = false) :
    Keeps r (CommandRing.getSpace n cs r) := by
  have hcount := count_commands h
  have hplanned : planned (CommandRing.getSpace n cs r) = planned r ++ cs.map .command := by
    rw [planned, planned, hidle, CommandRing.getSpace]
    dsimp only
    split_ifs <;> simp [remaining]
  refine ⟨rfl, rfl, List.prefix_rfl, ?_, fun k hk => ?_⟩
  · rw [hplanned, count_append, hcount, Nat.add_zero]
  · rw [hplanned, numbered_append]
    exact ⟨hk, numbered_of_count hcount⟩

/-- `InsertToken` plans the next token. -/
lemma Invariant.insertToken (h : Invariant n w) (hcall : w.call = .idle)
    (hidle : w.ring.client.phase = .idle)
    (hring : w.usable = true → w.haveRingBuffer = true ∧ 2 < n) :
    Invariant n (insertToken n w) := by
  have hsynced := h.call.synced hcall
  rw [HelperTokens.insertToken]
  split_ifs with husable
  · obtain ⟨hhave, hn⟩ := hring husable
    have htoken : (w.token + 1) % tokenModulus = (issued w + 1) % tokenModulus := by
      rw [h.token, Nat.mod_add_mod]
    rw [htoken]
    generalize hcommand : setToken ((issued w + 1) % tokenModulus) = command
    have hplanned : planned (CommandRing.getSpace n [command] w.ring) =
        planned w.ring ++ [.command command] := by
      rw [planned, planned, hidle, CommandRing.getSpace]
      dsimp only
      split_ifs <;> simp [remaining]
    have hone : count [.command command] = 1 := by
      rw [← hcommand]
      exact count_setToken _
    have hsize : totalSize [command] = 2 := by
      rw [← hcommand]
      rfl
    have hissued : count w.past + count (planned (CommandRing.getSpace n [command] w.ring)) =
        issued w + 1 := by
      rw [hplanned, count_append, hone, ← Nat.add_assoc, issued]
    refine ⟨h.ring.getSpace hidle (by omega), ?_, congrArg (· % tokenModulus) hissued.symm,
      h.tokens, h.tokenSeen, h.lastTokenRead, h.pastExecuted, ?_, h.unusable, fun i hi => ?_, ?_,
      h.returns⟩
    · rw [hplanned, numbered_append]
      refine ⟨h.numbered, fun _ => ?_, trivial⟩
      rw [← hcommand]
      rfl
    · exact fun hfalse => absurd (hhave.symm.trans hfalse) (by decide)
    · refine ⟨(h.insertions i hi).1, fun _ => ?_⟩
      obtain ⟨u, hu, hinserted⟩ := (h.insertions i hi).2 husable
      exact ⟨u, hu.trans ((Nat.le_succ _).trans_eq hissued.symm), hinserted⟩
    · refine ⟨hhave, List.prefix_rfl, ?_, fun hlost => ?_⟩
      · rw [count_written hidle]
        exact Nat.lt_of_lt_of_eq (Nat.lt_succ_self _) hissued.symm
      · have hread := hsynced hlost
        rw [Synced] at hread
        rw [issued, hissued, Nat.add_sub_cancel]
        exact hread
  · refine ⟨h.ring, h.numbered, h.token, h.tokens, h.tokenSeen, h.lastTokenRead, h.pastExecuted,
      h.no_ring, h.unusable, fun i hi => ?_, ?_, h.returns⟩
    · rcases List.mem_append.mp hi with hi | hi
      · exact h.insertions i hi
      · obtain rfl := List.mem_singleton.mp hi
        exact ⟨List.prefix_rfl, fun htrue => absurd htrue husable⟩
    · exact callOk_idle hcall hsynced

lemma Invariant.waitForToken (h : Invariant n w) (hcall : w.call = .idle)
    (hidle : w.ring.client.phase = .idle) (token : ℕ) : Invariant n (waitForToken token w) := by
  have hsynced := h.call.synced hcall
  rw [HelperTokens.waitForToken]
  split_ifs with hno hwrapped
  · refine h.endWait hsynced fun hlost i hi _ => h.covers_no_ring ?_ hlost hi
    rcases hno with husable | hhave
    · exact (h.unusable (by simpa using husable)).resolve_right (by simp [hlost])
    · simpa using hhave
  · rw [not_or, not_not, not_not] at hno
    exact h.endWait hsynced fun hlost i hi htoken =>
      h.covers_wrapped hno.1 (hsynced hlost) hi (htoken ▸ hwrapped)
  · rw [not_or, not_not, not_not] at hno
    exact h.setCall w.flushing ⟨hno.2, hidle, hno.1, not_lt.mp hwrapped, hsynced⟩

/-- The helper receives a later state. -/
lemma Invariant.see (h : Invariant n w) (hlost : w.lost = false) {i k get token : ℕ} (put : ℕ)
    (hi : w.ring.seen ≤ i) (hik : i ≤ k) (hk : w.tokenSeen ≤ k) (hget : w.ring.gets[i]? = some get)
    (htoken : w.tokens[k]? = some token) :
    Invariant n { w with
      ring := { w.ring with client := { w.ring.client with getOffset := get }, seen := i }
      lastTokenRead := token
      statePut := put
      tokenSeen := k } := by
  obtain ⟨lastPutSent, hring⟩ := h.ring
  rw [h.tokens] at htoken
  obtain ⟨hlt, hval⟩ := List.getElem?_eq_some_iff.mp htoken
  simp only [List.length_map, List.length_range] at hlt
  simp only [List.getElem_map, List.getElem_range] at hval
  have hread : read w ≤ count w.past + count (w.ring.written.take k) :=
    Nat.add_le_add_left (count_le_of_beginning (List.take_prefix_take_left hk)) _
  refine ⟨⟨lastPutSent, hring.see hi hget⟩, h.numbered, h.token, h.tokens,
    ⟨hik, Nat.lt_succ_iff.mp hlt⟩,
    hval.symm, h.pastExecuted, h.no_ring, h.unusable, h.insertions, ?_, h.returns⟩
  exact h.call.mono rfl rfl rfl rfl rfl List.prefix_rfl (.inr rfl) fun _ => ⟨hlost, hread⟩

/-- After an error nothing is promised of the tokens. -/
lemma Invariant.lose (h : Invariant n w) : Invariant n { w with lost := true } := by
  refine ⟨h.ring, h.numbered, h.token, h.tokens, h.tokenSeen, h.lastTokenRead, h.pastExecuted,
    fun hhave => ⟨(h.no_ring hhave).1, fun hfalse => by cases hfalse⟩, fun _ => .inr rfl,
    h.insertions, ?_, h.returns⟩
  exact h.call.mono rfl rfl rfl rfl rfl List.prefix_rfl (.inr rfl)
    fun hfalse => by cases hfalse

/-- The service handles a command, and its token follows. -/
lemma Invariant.processCommand (h : Invariant n w) {entries : List ℕ} {get : ℕ}
    (hp : CommandRing.processCommand n w.ring.buffer w.ring.parser = .ok (some (entries, get))) :
    Invariant n { w with
      ring := { w.ring with
        parser := { w.ring.parser with get := get }
        gets := w.ring.gets ++ [get]
        executed := w.ring.executed ++ [entries] }
      tokens := w.tokens ++ [tokenAfter (w.tokens.getLastD 0) entries] } := by
  have hlength := h.ring.seen_le.2
  obtain ⟨lastPutSent, hring⟩ := h.ring
  obtain ⟨f, entries', hf, -, hsame, hentries, hsome⟩ :=
    (hring.processCommand).resolve_left (by simp [hp])
  obtain ⟨rfl, -⟩ : entries = entries' ∧ get = _ := by simpa [hp] using hsome
  have hafter : ∀ token, tokenAfter token entries = tokenAfter token f.stored := by
    intro token
    by_cases hcommand : isCommand f.stored = true
    · rw [hentries hcommand]
    · rw [tokenAfter, tokenAfter, not_setsToken (hsame ▸ hcommand), not_setsToken hcommand]
      rfl
  have hlast : w.tokens.getLastD 0 =
      (count w.past + count (w.ring.written.take w.ring.executed.length)) % tokenModulus := by
    rw [h.tokens, List.range_succ, List.map_append, List.map_singleton, List.getLastD_concat]
  have hnumbered := (numbered_append.mp h.numbered).1
  refine ⟨⟨lastPutSent, hring.execute hp⟩, h.numbered, h.token, ?_,
    ⟨h.tokenSeen.1, h.tokenSeen.2.trans (by simp)⟩, h.lastTokenRead, h.pastExecuted,
    fun hhave => ⟨(h.no_ring hhave).1, fun hlost => ?_⟩, h.unusable, h.insertions, h.call,
    h.returns⟩
  · dsimp only
    rw [hafter, hlast, hnumbered.tokenAfter_stored hf, h.tokens, List.length_append,
      List.length_singleton, List.range_succ (n := w.ring.executed.length + 1), List.map_append,
      List.map_singleton]
  · have hall := (h.no_ring hhave).2 hlost
    have hlt := (List.getElem?_eq_some_iff.mp hf).1
    dsimp only at hlt
    omega

/-- What one careful step of either party preserves. -/
lemma Invariant.step (h : Invariant n w) {e : Event} (hstep : SafeStep n w e w') :
    Invariant n w' := by
  obtain ⟨hnext, hcareful⟩ := hstep
  rw [Step] at hnext
  cases e with
  | allocateRingBuffer created =>
    have hmade : w.isIdle = true ∧ (∀ buffer, created = .fresh buffer → w.lost = false) ∧
        some (HelperTokens.allocateRingBuffer created w) = some w' := by
      cases created with
      | refused =>
        obtain ⟨hidle, hw⟩ := Option.ite_none_right_eq_some.mp hnext
        exact ⟨hidle, (fun _ hfalse => by cases hfalse), hw⟩
      | fresh buffer =>
        obtain ⟨⟨hidle, hlost⟩, hw⟩ := Option.ite_none_right_eq_some.mp hnext
        exact ⟨hidle, fun _ _ => hlost, hw⟩
      | stale buffer largeEnough =>
        obtain ⟨hidle, hw⟩ := Option.ite_none_right_eq_some.mp hnext
        exact ⟨hidle, (fun _ hfalse => by cases hfalse), hw⟩
    obtain ⟨hidle, hfresh, hw⟩ := hmade
    obtain ⟨hcall, hphase⟩ := isIdle_iff.mp hidle
    exact Option.some.inj hw ▸ h.allocateRingBuffer hcall hphase hfresh hcareful
  | getSpace cs =>
    obtain ⟨⟨hidle, -, hhave, -, hlt, hcs⟩, hw⟩ := Option.ite_none_right_eq_some.mp hnext
    obtain ⟨hcall, hphase⟩ := isIdle_iff.mp hidle
    have hnone : ∀ c ∈ cs, setsToken c.entries = false := by simpa using hcs
    refine Option.some.inj hw ▸ h.withRing w.flushing w.puts (h.ring.getSpace hphase hlt)
      (keeps_getSpace hphase hnone) (.inl (by rw [hcall]; rfl)) fun hfalse => ?_
    exact absurd (hhave.symm.trans hfalse) (by decide)
  | insertToken =>
    obtain ⟨⟨hidle, hring⟩, hw⟩ := Option.ite_none_right_eq_some.mp hnext
    obtain ⟨hcall, hphase⟩ := isIdle_iff.mp hidle
    exact Option.some.inj hw ▸ h.insertToken hcall hphase hring
  | flush =>
    obtain ⟨hidle, hw⟩ := Option.ite_none_right_eq_some.mp hnext
    obtain ⟨hcall, hphase⟩ := isIdle_iff.mp hidle
    obtain rfl := Option.some.inj hw
    rw [HelperTokens.flush]
    split_ifs with husable hhave
    · exact h.withRing w.flushing w.puts (h.ring.flush hphase) (keeps_flush w.ring)
        (.inl (by rw [hcall]; rfl)) fun hfalse => absurd (hhave.symm.trans hfalse) (by decide)
    · exact h.withRing w.flushing w.puts h.ring (.of_eq rfl rfl rfl rfl) (.inr rfl)
        (fun _ => ⟨rfl, rfl⟩)
    · exact h
  | flushSync =>
    obtain ⟨hidle, hw⟩ := Option.ite_none_right_eq_some.mp hnext
    have hphase := (isIdle_iff.mp hidle).2
    obtain rfl := Option.some.inj hw
    rw [HelperTokens.flushSync]
    split_ifs
    · exact h.withRing w.flushing w.puts (h.ring.flushSync (h.ring.put_eq hphase))
        (keeps_flushSync w.ring) (.inr rfl) (fun _ => ⟨rfl, rfl⟩)
    · exact h.withRing w.flushing w.puts h.ring (.of_eq rfl rfl rfl rfl) (.inr rfl)
        (fun _ => ⟨rfl, rfl⟩)
    · exact h
  | finish =>
    obtain ⟨⟨hidle, hhave⟩, hw⟩ := Option.ite_none_right_eq_some.mp hnext
    obtain ⟨hcall, hphase⟩ := isIdle_iff.mp hidle
    obtain rfl := Option.some.inj hw
    rw [HelperTokens.finish]
    split_ifs
    · exact h
    · exact h.setCall w.flushing ⟨hhave, hphase, h.call.synced hcall⟩
  | waitForToken token =>
    obtain ⟨hidle, hw⟩ := Option.ite_none_right_eq_some.mp hnext
    obtain ⟨hcall, hphase⟩ := isIdle_iff.mp hidle
    obtain rfl := Option.some.inj hw
    exact h.waitForToken hcall hphase token
  | freeRingBuffer =>
    obtain ⟨⟨hidle, hcheck⟩, hw⟩ := Option.ite_none_right_eq_some.mp hnext
    obtain ⟨hcall, hphase⟩ := isIdle_iff.mp hidle
    obtain rfl := Option.some.inj hw
    refine ⟨h.ring, h.numbered, h.token, h.tokens, h.tokenSeen, h.lastTokenRead, h.pastExecuted,
      fun _ => ⟨hphase, fun hlost => ?_⟩, fun _ => .inl rfl, h.insertions, ?_, h.returns⟩
    · have hput := hcheck.resolve_right (by simpa using hlost)
      have hseen := h.ring.seen_eq hphase hput
      have hle := h.ring.seen_le
      dsimp only
      omega
    · exact callOk_idle hcall (h.call.synced hcall)
  | client late => exact Option.some.inj hnext ▸ h.clientStep hcareful late
  | see i k put =>
    obtain ⟨⟨-, hlost, hi, hik, hk, -⟩, hw⟩ := Option.ite_none_right_eq_some.mp hnext
    split at hw
    · next get token hget htoken =>
      exact Option.some.inj hw ▸ h.see hlost put hi hik hk hget htoken
    · cases hw
  | lose => exact Option.some.inj hnext ▸ h.lose
  | deliver =>
    simp only [next] at hnext
    split at hnext
    · cases hnext
    · next put rest hmessages =>
      obtain ⟨lastPutSent, hring⟩ := h.ring
      exact Option.some.inj hnext ▸ h.withRing w.flushing (w.puts ++ [put])
        ⟨lastPutSent, hring.deliver hmessages⟩ (.of_eq rfl rfl rfl rfl) (.inr rfl)
        (fun _ => ⟨rfl, rfl⟩)
  | processCommand =>
    simp only [next] at hnext
    split at hnext
    · next entries get hprocess => exact Option.some.inj hnext ▸ h.processCommand hprocess
    · cases hnext

lemma Invariant.ordered (h : Invariant n w) : Ordered w := by
  refine ⟨fun hfatal => ?_, h.returns⟩
  have hcall := h.call
  simp only [CallOk, hfatal] at hcall

/-- In every careful run the tokens order the work. -/
theorem tokens_order_work {flushAutomatically : Bool} {es : List Event}
    (h : Reaches (SafeStep n) (.initial flushAutomatically) es w) : Ordered w :=
  (h.invariant (Invariant n) (invariant_initial n flushAutomatically)
    (fun _ _ _ hinv hstep => hinv.step hstep)).ordered

def carefulNext (n : ℕ) (w : World) (e : Event) : Option World :=
  if Careful w e then next n w e else none

lemma safeStep_of_carefulNext {e : Event} (h : carefulNext n w e = some w') :
    SafeStep n w e w' := by
  obtain ⟨hcareful, hnext⟩ := Option.ite_none_right_eq_some.mp h
  exact ⟨hnext, hcareful⟩

/-- A command of one entry, a token, and the wait for it. -/
def orderedRun : List Event :=
  [.allocateRingBuffer (.fresh fun _ => 0), .getSpace [⟨header 7 1, [], rfl⟩], .client false,
    .client false, .client false, .client false, .insertToken, .client false, .client false,
    .client false, .client false, .client false, .client false, .waitForToken 1, .client false,
    .deliver, .deliver, .processCommand, .processCommand, .see 2 2 3, .client false, .client false]

/-- An error while a token is unread, and a call of `GetSpace` that it cuts short. -/
def cutRun : List Event :=
  [.allocateRingBuffer (.fresh fun _ => 0), .insertToken, .client false, .client false,
    .client false, .client false, .client false, .client false, .lose,
    .getSpace [⟨header 7 2, [0], rfl⟩], .client false, .client false, .client false, .client false,
    .client false, .waitForToken 1, .client false]

end Helper

/-- The wait for the token ends when the service has executed it. -/
theorem tokens_order_work_once :
    ∃ w, Reaches (SafeStep 4) (.initial false) orderedRun w ∧
      (w.returns.map fun r => (r.token, r.lost, r.insertions.length)) = [(1, false, 1)] ∧
      Ordered w := by
  have hrun : (orderedRun.foldlM (carefulNext 4) (.initial false)).map
      (fun w => w.returns.map fun r => (r.token, r.lost, r.insertions.length)) =
        some [(1, false, 1)] := by decide +kernel
  obtain ⟨w, hw, hreturns⟩ := Option.map_eq_some_iff.mp hrun
  have hreaches : Reaches (SafeStep 4) (.initial false) orderedRun w :=
    .of_foldlM (fun _ _ _ => safeStep_of_carefulNext) hw
  exact ⟨w, hreaches, hreturns, tokens_order_work hreaches⟩

/-- The put offset comes round to the one that the service is at, and the wait aborts the
process. -/
theorem tokens_not_ordered : ¬ ∀ (n : ℕ) (flushAutomatically : Bool) (es : List Event) (w : World),
    Reaches (Step n) (.initial flushAutomatically) es w → Ordered w := by
  intro hordered
  have hrun : (cutRun.foldlM (next 4) (.initial false)).map (fun w => w.call.isFatal) =
      some true := by decide +kernel
  obtain ⟨w, hw, hfatal⟩ := Option.map_eq_some_iff.mp hrun
  have hreaches : Reaches (Step 4) (.initial false) cutRun w :=
    .of_foldlM (fun _ _ _ hnext => hnext) hw
  refine (hordered 4 false cutRun w hreaches).not_fatal ?_
  cases hcall : w.call with
  | fatal => rfl
  | _ => simp [hcall, Call.isFatal] at hfatal

end Chromium.HelperTokens
