import Mathlib.Data.List.TakeDrop
import Chromium.CommandRing

/-!
# The service side of the command buffer

`gpu/command_buffer/service`: `CommandBufferService` keeps the offsets that clients and the
scheduler see, and `CommandParser` reads commands from the ring. The client is not trusted. It may
send any offset, and change what is in the ring between any two reads of it.
-/
namespace Chromium.CommandBufferService

open CommandRing (headerSize)

/-- What the handler returns for a command. -/
inductive Result
  | noError
  | deferCommandUntilLater
  | error
  deriving DecidableEq

/-- What the handler does with one command: it may move `get` itself. -/
structure Handling where
  setGet : Option ℤ
  result : Result

structure CommandParser where
  get : ℤ
  put : ℤ
  entryCount : ℤ

namespace CommandParser

/-- `SetBuffer` -/
def setBuffer (entryCount : ℤ) : CommandParser := ⟨0, 0, entryCount⟩

/-- `set_get` -/
def setGet (get : ℤ) (p : CommandParser) : CommandParser :=
  if 0 ≤ get ∧ get < p.entryCount then { p with get := get } else p

/-- `set_put` -/
def setPut (put : ℤ) (p : CommandParser) : CommandParser := { p with put := put }

/-- What the handler leaves of the parser. -/
def handle (handling : Handling) (p : CommandParser) : CommandParser :=
  match handling.setGet with
  | some get => p.setGet get
  | none => p

/-- `ProcessCommand` on a ring with the given contents: the result, the entries that were read or
handed to the handler, and the parser after it. -/
def processCommand (contents : ℤ → ℕ) (handling : Handling) (p : CommandParser) :
    Result × List ℤ × CommandParser :=
  if p.get = p.put then (.noError, [], p)
  else
    let size := headerSize (contents p.get)
    if size = 0 then (.error, [p.get], p)
    else if (size : ℤ) + p.get > p.entryCount then (.error, [p.get], p)
    else
      let reads := (List.range size).map fun (i : ℕ) => p.get + i
      let q := p.handle handling
      -- if get was not set somewhere else advance it
      let next := if q.get = p.get ∧ handling.result ≠ .deferCommandUntilLater then
        { q with get := (p.get + size) % q.entryCount } else q
      (handling.result, p.get :: reads, next)

end CommandParser

/-- The service, its parser, and the entries of the ring that were read so far. -/
structure State where
  numEntries : ℤ
  putOffset : ℤ
  getOffset : ℤ
  error : Bool
  parser : CommandParser
  reads : List ℤ

/-- `SetGetBuffer` with a ring of `n` entries. -/
def setGetBuffer (n : ℕ) : State := ⟨n, 0, 0, false, .setBuffer n, []⟩

/-- `Flush`, and `FlushSync`, which does the same with one more argument. -/
def flush (putOffset : ℤ) (s : State) : State :=
  if putOffset < 0 ∨ s.numEntries < putOffset then { s with error := true }
  else { s with putOffset := putOffset, parser := s.parser.setPut putOffset }

/-- One command of the scheduler's loop, with the offset that it reports. -/
def processCommand (contents : ℤ → ℕ) (handling : Handling) (s : State) : State :=
  let (result, reads, parser) := s.parser.processCommand contents handling
  { s with
    parser := parser
    getOffset := if result = .deferCommandUntilLater then s.getOffset else parser.get
    error := s.error || result = .error
    reads := s.reads ++ reads }

inductive Event
  | flush (putOffset : ℤ)
  | flushSync (putOffset lastKnownGet : ℤ)
  | processCommand (contents : ℤ → ℕ) (handling : Handling)

def step (s : State) : Event → State
  | .flush putOffset | .flushSync putOffset _ => flush putOffset s
  | .processCommand contents handling => processCommand contents handling s

/-- The events in order, on a ring of `n` entries. -/
def run (n : ℕ) (es : List Event) : State := es.foldl step (setGetBuffer n)

/-- An event that sends the offset. -/
def Event.Sends (putOffset : ℤ) : Event → Prop
  | .flush put | .flushSync put _ => put = putOffset
  | .processCommand _ _ => False

/-! ### Positions in the ring -/

/-- The offset is one of an entry of the ring. -/
def InRing (n : ℕ) (offset : ℤ) : Prop := 0 ≤ offset ∧ offset < n

/-- A run in which the parser comes to the offset. -/
def CanTake (n : ℕ) (offset : ℤ) : Prop := ∃ es, (run n es).parser.get = offset

/-- What does not depend on the offsets that clients send. -/
structure Sound (n : ℕ) (s : State) : Prop where
  num_entries : s.numEntries = n
  entry_count : s.parser.entryCount = n
  get : InRing n s.getOffset
  parser_get : InRing n s.parser.get
  same_put : s.parser.put = s.putOffset
  reads : ∀ i ∈ s.reads, InRing n i

variable {n : ℕ} {s : State}

lemma sound_setGetBuffer (hn : 0 < n) : Sound n (setGetBuffer n) := by
  have hzero : InRing n 0 := ⟨le_rfl, by exact_mod_cast hn⟩
  exact ⟨rfl, rfl, hzero, hzero, rfl, by simp [setGetBuffer]⟩

lemma CommandParser.setGet_spec {p : CommandParser} (get : ℤ) (hcount : p.entryCount = n)
    (hget : InRing n p.get) : (p.setGet get).entryCount = n ∧ InRing n (p.setGet get).get ∧
      (p.setGet get).put = p.put := by
  rw [CommandParser.setGet]
  split_ifs with hinside
  · rw [hcount] at hinside
    exact ⟨hcount, hinside, rfl⟩
  · exact ⟨hcount, hget, rfl⟩

lemma CommandParser.handle_spec {p : CommandParser} (handling : Handling)
    (hcount : p.entryCount = n) (hget : InRing n p.get) : (p.handle handling).entryCount = n ∧
      InRing n (p.handle handling).get ∧ (p.handle handling).put = p.put := by
  rw [CommandParser.handle]
  cases handling.setGet with
  | none => exact ⟨hcount, hget, rfl⟩
  | some get => exact CommandParser.setGet_spec get hcount hget

/-- The entries of a command that the size check lets through. -/
lemma inRing_reads {get : ℤ} {size : ℕ} (hget : InRing n get) (hsize : (size : ℤ) + get ≤ n) :
    ∀ i ∈ get :: (List.range size).map fun (i : ℕ) => get + (i : ℤ), InRing n i := by
  intro i hi
  rcases List.mem_cons.mp hi with rfl | hi
  · exact hget
  · obtain ⟨j, hj, rfl⟩ := List.mem_map.mp hi
    have hlt := List.mem_range.mp hj
    have hge := hget.1
    exact ⟨by omega, by omega⟩

/-- The parser reads within the ring, and stays in it, whatever the ring holds. -/
lemma CommandParser.processCommand_spec {p : CommandParser} (contents : ℤ → ℕ)
    (handling : Handling) (hcount : p.entryCount = n) (hget : InRing n p.get) :
    (∀ i ∈ (p.processCommand contents handling).2.1, InRing n i) ∧
      (p.processCommand contents handling).2.2.entryCount = n ∧
      InRing n (p.processCommand contents handling).2.2.get ∧
      (p.processCommand contents handling).2.2.put = p.put := by
  have hpos : (0 : ℤ) < n := lt_of_le_of_lt hget.1 hget.2
  have hfirst : ∀ i ∈ [p.get], InRing n i := by simpa using hget
  obtain ⟨hqcount, hqget, hqput⟩ := CommandParser.handle_spec handling hcount hget
  rw [CommandParser.processCommand]
  dsimp only
  split_ifs with hempty hzero hlarge hadvance
  · exact ⟨by simp, hcount, hget, rfl⟩
  · exact ⟨hfirst, hcount, hget, rfl⟩
  · exact ⟨hfirst, hcount, hget, rfl⟩
  · rw [hcount, gt_iff_lt, not_lt] at hlarge
    refine ⟨inRing_reads hget hlarge, hqcount, ?_, hqput⟩
    rw [hqcount]
    exact ⟨Int.emod_nonneg _ hpos.ne', Int.emod_lt_of_pos _ hpos⟩
  · rw [hcount, gt_iff_lt, not_lt] at hlarge
    exact ⟨inRing_reads hget hlarge, hqcount, hqget, hqput⟩

lemma Sound.flush (h : Sound n s) (putOffset : ℤ) :
    Sound n (CommandBufferService.flush putOffset s) := by
  rw [CommandBufferService.flush]
  split_ifs
  · exact ⟨h.num_entries, h.entry_count, h.get, h.parser_get, h.same_put, h.reads⟩
  · exact ⟨h.num_entries, h.entry_count, h.get, h.parser_get, rfl, h.reads⟩

lemma Sound.processCommand (h : Sound n s) (contents : ℤ → ℕ) (handling : Handling) :
    Sound n (CommandBufferService.processCommand contents handling s) := by
  obtain ⟨hreads, hcount, hget, hput⟩ :=
    CommandParser.processCommand_spec contents handling h.entry_count h.parser_get
  refine ⟨h.num_entries, hcount, ?_, hget, hput.trans h.same_put, ?_⟩
  · rw [CommandBufferService.processCommand]
    dsimp only
    split_ifs
    · exact h.get
    · exact hget
  · intro i hi
    rcases List.mem_append.mp hi with hi | hi
    · exact h.reads i hi
    · exact hreads i hi

lemma Sound.step (h : Sound n s) (e : Event) : Sound n (CommandBufferService.step s e) := by
  cases e with
  | flush putOffset => exact h.flush putOffset
  | flushSync putOffset lastKnownGet => exact h.flush putOffset
  | processCommand contents handling => exact h.processCommand contents handling

lemma run_append (n : ℕ) (es : List Event) (e : Event) :
    run n (es ++ [e]) = step (run n es) e := by
  rw [run, List.foldl_append]
  rfl

/-- Each run keeps the parser and its reads inside the ring. -/
theorem sound_run (hn : 0 < n) (es : List Event) : Sound n (run n es) := by
  induction es using List.reverseRecOn with
  | nil => exact sound_setGetBuffer hn
  | append_singleton es e ih =>
    rw [run_append]
    exact ih.step e

/-- Commands of one entry each bring the parser to every entry of the ring. -/
theorem canTake_iff (hn : 0 < n) (offset : ℤ) : CanTake n offset ↔ InRing n offset := by
  constructor
  · rintro ⟨es, rfl⟩
    exact (sound_run hn es).parser_get
  · rintro ⟨hnonneg, hlt⟩
    obtain ⟨k, rfl⟩ := Int.eq_ofNat_of_zero_le hnonneg
    have hk : k < n := by exact_mod_cast hlt
    clear hnonneg hlt
    induction k with
    | zero => exact ⟨[], rfl⟩
    | succ k ih =>
      obtain ⟨es, hes⟩ := ih (by omega)
      have hsound := sound_run hn es
      refine ⟨es ++ [.flush (k + 1)] ++ [.processCommand (fun _ => 1) ⟨none, .noError⟩], ?_⟩
      rw [run_append, run_append]
      have hflush : flush (k + 1) (run n es) =
          { run n es with
            putOffset := (k : ℤ) + 1, parser := (run n es).parser.setPut (k + 1) } := by
        rw [flush, hsound.num_entries, if_neg (by omega), ← hsound.num_entries]
      have hsize : headerSize 1 = 1 := rfl
      simp only [step, hflush, processCommand, CommandParser.processCommand, CommandParser.setPut,
        CommandParser.handle, hes, hsound.entry_count, hsize]
      rw [if_neg (by omega), if_neg (by omega), if_neg (by omega),
        if_pos ⟨trivial, by decide⟩]
      dsimp only
      rw [Nat.cast_one, Int.emod_eq_of_lt (by omega) (by omega), Nat.cast_add, Nat.cast_one]

/-! ### The offset that clients send -/

/-- Both offsets name entries of the ring, `get` can come to where `put` is, and nothing outside
was read. -/
structure Inside (n : ℕ) (s : State) : Prop where
  put : InRing n s.putOffset
  get : InRing n s.getOffset
  parser : InRing n s.parser.put ∧ InRing n s.parser.get
  can_take : CanTake n s.putOffset
  reads : ∀ i ∈ s.reads, InRing n i

lemma inside_iff (hn : 0 < n) (h : Sound n s) : Inside n s ↔ InRing n s.putOffset := by
  constructor
  · intro hinside
    exact hinside.put
  · intro hput
    exact ⟨hput, h.get, ⟨h.same_put ▸ hput, h.parser_get⟩, (canTake_iff hn _).mpr hput, h.reads⟩

/-- Only the offset one behind the last entry is accepted without being one of an entry. -/
lemma putOffset_step (h : Sound n s) (hput : InRing n s.putOffset) (e : Event) :
    InRing n (step s e).putOffset ↔ ¬ e.Sends n := by
  have hflush : ∀ putOffset : ℤ, InRing n (flush putOffset s).putOffset ↔ putOffset ≠ n := by
    intro putOffset
    have hnonneg := hput.1
    have hlt := hput.2
    rw [flush, h.num_entries]
    split_ifs with hrange
    · exact iff_of_true hput (by omega)
    · simp only [InRing]
      omega
  cases e with
  | flush putOffset => exact hflush putOffset
  | flushSync putOffset lastKnownGet => exact hflush putOffset
  | processCommand contents handling => exact iff_of_true hput id

/-- The offsets stay inside a ring if and only if no client sends the number of its entries. -/
theorem inside_iff_not_sends (n : ℕ) (hn : 0 < n) (es : List Event) :
    (∀ es', es' <+: es → Inside n (run n es')) ↔ ∀ e ∈ es, ¬ e.Sends n := by
  induction es using List.reverseRecOn with
  | nil =>
    constructor
    · simp
    · rintro - es' hpre
      obtain rfl := List.prefix_nil.mp hpre
      have hzero : InRing n 0 := ⟨le_rfl, by exact_mod_cast hn⟩
      exact (inside_iff hn (sound_run hn [])).mpr hzero
  | append_singleton es e ih =>
    have hsound := sound_run hn es
    constructor
    · intro hinside e' he'
      have hes : ∀ es', es' <+: es → Inside n (run n es') := fun es' hpre =>
        hinside es' (hpre.trans (List.prefix_append es [e]))
      rcases List.mem_append.mp he' with he' | he'
      · exact ih.mp hes e' he'
      · obtain rfl := List.mem_singleton.mp he'
        have hlast := (hinside _ (List.prefix_refl _)).put
        rw [run_append] at hlast
        exact (putOffset_step hsound (hes es (List.prefix_refl es)).put e').mp hlast
    · intro hsends es' hpre
      have hes := ih.mpr fun e' he' => hsends e' (List.mem_append_left _ he')
      rw [List.prefix_concat_iff] at hpre
      rcases hpre with rfl | hpre
      · rw [inside_iff hn (sound_run hn _), run_append]
        exact (putOffset_step hsound (hes es (List.prefix_refl es)).put e).mpr
          (hsends e (by simp))
      · exact hes es' hpre

theorem inside_iff_not_sends_four : 0 < 4 ∧ ((∀ es',
    es' <+: [.flush 3, .processCommand (fun _ => 3) ⟨none, .noError⟩, .flushSync (-1) 3] →
      Inside 4 (run 4 es')) ↔
    ∀ e ∈ [Event.flush 3, .processCommand (fun _ => 3) ⟨none, .noError⟩, .flushSync (-1) 3],
      ¬ e.Sends ((4 : ℕ) : ℤ)) :=
  ⟨by decide, inside_iff_not_sends 4 (by decide) _⟩

/-- The offset behind the last entry is accepted. -/
theorem not_inside_flush_one : ¬ ∀ (n : ℕ), 0 < n → ∀ es, Inside n (run n es) := by
  intro hinside
  have hput := (hinside 1 (by decide) [.flush 1]).put
  exact absurd hput.2 (by decide)

end Chromium.CommandBufferService
