import Chromium.CommandRing

/-!
# Delivery through the command ring

Every offset of the protocol is the start of a frame, reduced modulo the size of
the ring. The invariant names the frames: how many were executed, up to which
frame put offsets were received and sent, and which frame the client believes
the parser to be at. The ring never holds more than `total - 1` entries counted
from the last `get` the client has seen, so reduced offsets determine frames.
-/
namespace Chromium.CommandRing
open Runs

lemma startOf_append {fs gs : List Frame} {j : ℕ} (hj : j ≤ fs.length) :
    startOf (fs ++ gs) j = startOf fs j := by
  simp [startOf, List.take_append_of_le_length hj]

lemma startOf_succ {fs : List Frame} {j : ℕ} {f : Frame} (hf : fs[j]? = some f) :
    startOf fs (j + 1) = startOf fs j + f.size := by
  simp [startOf, List.take_add_one, hf]

lemma startOf_mono (fs : List Frame) {i j : ℕ} (hij : i ≤ j) : startOf fs i ≤ startOf fs j := by
  unfold startOf
  exact ((List.take_sublist_take_left hij).map Frame.size).sum_le_sum fun _ _ => Nat.zero_le _

lemma startOf_length_append (fs : List Frame) (f : Frame) :
    startOf (fs ++ [f]) (fs ++ [f]).length = startOf fs fs.length + f.size := by
  simp [startOf]

/-- Positions less than one ring apart are in different slots. -/
lemma slot_ne {total p q : ℕ} (hlt : p < q) (hnear : q < p + total) : p % total ≠ q % total := by
  intro heq
  have hdvd : total ∣ q - p := (Nat.modEq_iff_dvd' hlt.le).mp heq
  have := Nat.le_of_dvd (by omega) hdvd
  omega

/-- Positions less than one ring apart in the same slot are equal. -/
lemma eq_of_slot_eq {total p q : ℕ} (hle : p ≤ q) (hnear : q ≤ p + (total - 1))
    (heq : p % total = q % total) : p = q := by
  by_contra hne
  exact slot_ne (show p < q by omega) (by omega) heq

lemma slot_add {total p i n : ℕ} (hfit : p % total + n ≤ total) (hi : i < n) :
    (p + i) % total = p % total + i := by
  rw [Nat.add_mod, Nat.mod_eq_of_lt (show i < total by omega), Nat.mod_eq_of_lt (by omega)]

/-- The frames of the ring: none is empty, none crosses the end, and those not
yet executed are still in the buffer. -/
structure Laid (total : ℕ) (buffer : ℕ → ℕ) (fs : List Frame) (parsed : ℕ) : Prop where
  pos : ∀ f ∈ fs, 0 < f.size
  header : ∀ f ∈ fs, ∃ e es, f.stored = e :: es ∧ headerSize e = f.size ∧
    f.stored.length ≤ f.size ∧ (isCommand f.stored → f.stored.length = f.size)
  fits : ∀ j f, fs[j]? = some f → startOf fs j % total + f.size ≤ total
  intact : ∀ j f, parsed ≤ j → fs[j]? = some f →
    ∀ i e, f.stored[i]? = some e → buffer (startOf fs j % total + i) = e

/-- A write behind the last frame, less than one ring ahead of the parser, hits
no entry of a frame that is still to be parsed. -/
lemma Laid.update {total : ℕ} {buffer : ℕ → ℕ} {fs : List Frame} {parsed : ℕ}
    (h : Laid total buffer fs parsed) {d : ℕ}
    (hnear : startOf fs fs.length + d < startOf fs parsed + total) (e : ℕ) :
    Laid total (Function.update buffer ((startOf fs fs.length + d) % total) e) fs parsed := by
  refine ⟨h.pos, h.header, h.fits, fun j f hj hf i e' he' => ?_⟩
  rw [Function.update_of_ne]
  · exact h.intact j f hj hf i e' he'
  · have hmem := List.mem_of_getElem? hf
    obtain ⟨-, -, -, -, hlen, -⟩ := h.header f hmem
    have hi : i < f.size := ((List.getElem?_eq_some_iff.mp he').1).trans_le hlen
    have hjlen := (List.getElem?_eq_some_iff.mp hf).1
    have hend : startOf fs j + f.size ≤ startOf fs fs.length := by
      rw [← startOf_succ hf]
      exact startOf_mono fs hjlen
    have hstart := startOf_mono fs hj
    rw [← slot_add (h.fits j f hf) hi]
    exact slot_ne (by omega) (by omega)

/-- A frame is complete once its entries are in the buffer. -/
lemma Laid.push {total : ℕ} {buffer : ℕ → ℕ} {fs : List Frame} {parsed : ℕ}
    (h : Laid total buffer fs parsed) {f : Frame} (hpos : 0 < f.size)
    (hheader : ∃ e es, f.stored = e :: es ∧ headerSize e = f.size ∧
      f.stored.length ≤ f.size ∧ (isCommand f.stored → f.stored.length = f.size))
    (hfits : startOf fs fs.length % total + f.size ≤ total)
    (hin : ∀ i e, f.stored[i]? = some e → buffer (startOf fs fs.length % total + i) = e) :
    Laid total buffer (fs ++ [f]) parsed := by
  have hcases : ∀ j g, (fs ++ [f])[j]? = some g →
      (j < fs.length ∧ fs[j]? = some g) ∨ (j = fs.length ∧ g = f) := by
    intro j g hg
    rcases lt_or_ge j fs.length with hj | hj
    · exact .inl ⟨hj, by rwa [List.getElem?_append_left hj] at hg⟩
    · rw [List.getElem?_append_right hj] at hg
      obtain ⟨hlt, hget⟩ := List.getElem?_eq_some_iff.mp hg
      simp only [List.length_singleton] at hlt
      exact .inr ⟨by omega, by simpa using hget.symm⟩
  refine ⟨?_, ?_, ?_, ?_⟩
  · intro g hg
    rcases List.mem_append.mp hg with hg | hg
    · exact h.pos g hg
    · rwa [List.mem_singleton.mp hg]
  · intro g hg
    rcases List.mem_append.mp hg with hg | hg
    · exact h.header g hg
    · rwa [List.mem_singleton.mp hg]
  · intro j g hg
    rcases hcases j g hg with ⟨hj, hg⟩ | ⟨rfl, rfl⟩
    · rw [startOf_append hj.le]
      exact h.fits j g hg
    · rwa [startOf_append le_rfl]
  · intro j g hparsed hg
    rcases hcases j g hg with ⟨hj, hg⟩ | ⟨rfl, rfl⟩
    · rw [startOf_append hj.le]
      exact h.intact j g hparsed hg
    · rwa [startOf_append le_rfl]

/-- No frame is empty, so frames that start at the same position are equal. -/
lemma Laid.eq_of_startOf_eq {total : ℕ} {buffer : ℕ → ℕ} {fs : List Frame} {parsed : ℕ}
    (h : Laid total buffer fs parsed) {i j : ℕ} (hij : i ≤ j) (hj : j ≤ fs.length)
    (heq : startOf fs i = startOf fs j) : i = j := by
  by_contra hne
  obtain ⟨f, hf⟩ : ∃ f, fs[i]? = some f :=
    ⟨_, List.getElem?_eq_getElem (show i < fs.length by omega)⟩
  have hstart := startOf_succ hf
  have hpos := h.pos f (List.mem_of_getElem? hf)
  have hmono := startOf_mono fs (show i + 1 ≤ j by omega)
  omega

/-- The free space the client computes is the space up to one ring ahead of the
`get` it has seen. -/
lemma available_eq {total a s : ℕ} (ht : 0 < total) (hle : a ≤ s) (hnear : s ≤ a + (total - 1)) :
    (a % total + total - s % total - 1) % total = a + (total - 1) - s := by
  obtain ⟨d, rfl⟩ := Nat.exists_eq_add_of_le hle
  have hlt := Nat.mod_lt a ht
  rcases lt_or_ge (a % total + d) total with hd | hd
  · have hs : (a + d) % total = a % total + d := by
      rw [Nat.add_mod, Nat.mod_eq_of_lt (show d < total by omega), Nat.mod_eq_of_lt hd]
    rw [hs, Nat.mod_eq_of_lt (by omega)]
    omega
  · have hs : (a + d) % total = a % total + d - total := by
      rw [Nat.add_mod, Nat.mod_eq_of_lt (show d < total by omega), Nat.mod_eq_sub_mod hd,
        Nat.mod_eq_of_lt (by omega)]
    rw [hs, Nat.mod_eq_sub_mod (by omega), Nat.mod_eq_of_lt (by omega)]
    omega

/-- Once the `get` the client has seen is past the start of the ring and not
ahead of `put`, the rest of the ring may be filled. -/
lemma wrap_room {total a s : ℕ} (ht : 0 < total) (hle : a ≤ s) (hnear : s ≤ a + (total - 1))
    (hseen : ¬ (s % total < a % total ∨ a % total = 0)) :
    total ∣ s + (total - s % total) ∧ s + (total - s % total) ≤ a + (total - 1) := by
  have hlt := Nat.mod_lt s ht
  constructor
  · have hdiv := Nat.div_add_mod s total
    refine ⟨s / total + 1, ?_⟩
    rw [Nat.mul_add, Nat.mul_one]
    omega
  · obtain ⟨d, rfl⟩ := Nat.exists_eq_add_of_le hle
    have hlt' := Nat.mod_lt a ht
    rcases lt_or_ge (a % total + d) total with hd | hd
    · have hs : (a + d) % total = a % total + d := by
        rw [Nat.add_mod, Nat.mod_eq_of_lt (show d < total by omega), Nat.mod_eq_of_lt hd]
      omega
    · have hs : (a + d) % total = a % total + d - total := by
        rw [Nat.add_mod, Nat.mod_eq_of_lt (show d < total by omega), Nat.mod_eq_sub_mod hd,
          Nat.mod_eq_of_lt (by omega)]
      omega

/-- The offsets of the protocol as starts of frames: `received` and `sent` are
the frames of the parser's and of the last put offset, `transit` those of the
put offsets in between. -/
structure Linked (total : ℕ) (fs : List Frame) (w : World) (received sent : ℕ)
    (transit : List ℕ) : Prop where
  executed_le : w.executed.length ≤ received
  chain : (received :: transit).IsChain (· ≤ ·)
  last : (received :: transit).getLast? = some sent
  sent_le : sent ≤ fs.length
  seen_le : w.seen ≤ w.executed.length
  gets : w.gets = (List.range (w.executed.length + 1)).map (startOf fs · % total)
  get : w.parser.get = startOf fs w.executed.length % total
  put : w.parser.put = startOf fs received % total
  messages : w.messages = transit.map (startOf fs · % total)
  lastPutSent : w.client.lastPutSent = startOf fs sent % total
  getOffset : w.client.getOffset = startOf fs w.seen % total

lemma Linked.le_sent {total : ℕ} {fs : List Frame} {w : World} {received sent : ℕ}
    {transit : List ℕ} (h : Linked total fs w received sent transit) :
    ∀ j ∈ received :: transit, j ≤ sent := by
  intro j hj
  have hpair := h.chain.pairwise
  obtain ⟨init, hinit⟩ : ∃ init, received :: transit = init ++ [sent] :=
    ⟨_, (List.dropLast_append_getLast? sent h.last).symm⟩
  rw [hinit] at hpair hj
  rcases List.mem_append.mp hj with hj | hj
  · exact (List.pairwise_append.mp hpair).2.2 j hj sent (by simp)
  · exact (List.mem_singleton.mp hj).le

/-- A further frame moves none of the offsets. -/
lemma Linked.append {total : ℕ} {fs : List Frame} {w : World} {received sent : ℕ}
    {transit : List ℕ} (h : Linked total fs w received sent transit) (gs : List Frame) :
    Linked total (fs ++ gs) w received sent transit := by
  have hsent := h.sent_le
  have hle := h.le_sent
  have hreceived := hle received (by simp)
  have hexec := h.executed_le
  have hseen := h.seen_le
  refine ⟨hexec, h.chain, h.last, by simp; omega, hseen, ?_, ?_, ?_, ?_, ?_, ?_⟩
  · rw [h.gets]
    refine List.map_congr_left fun j hj => ?_
    rw [List.mem_range] at hj
    rw [startOf_append (by omega)]
  · rw [h.get, startOf_append (by omega)]
  · rw [h.put, startOf_append (by omega)]
  · rw [h.messages]
    refine List.map_congr_left fun j hj => ?_
    have := hle j (List.mem_cons_of_mem _ hj)
    rw [startOf_append (by omega)]
  · rw [h.lastPutSent, startOf_append hsent]
  · rw [h.getOffset, startOf_append (by omega)]

/-- What holds in each phase of the client, when the frames end at `stop` and
`limit` is the last position the client may fill. -/
def PhaseOk (total : ℕ) (c : Client) (buffer : ℕ → ℕ) (stop limit : ℕ) : Prop :=
  match c.phase with
  | .idle => c.put = stop % total ∧ stop ≤ limit
  | .wrapWait cs => c.put = stop % total ∧ stop ≤ limit ∧ totalSize cs < total
  | .fillNoops cs n =>
    c.put + n = total ∧ total ∣ stop + n ∧ stop + n ≤ limit ∧ totalSize cs < total
  | .entriesWait cs =>
    c.put = stop % total ∧ stop ≤ limit ∧ totalSize cs < total ∧ c.put + totalSize cs ≤ total
  | .reserve cs =>
    c.put = stop % total ∧ stop + totalSize cs ≤ limit ∧ totalSize cs < total ∧
      c.put + totalSize cs ≤ total
  | .write space cs done =>
    (cs ≠ [] → space = stop % total) ∧ space + totalSize cs ≤ total ∧
      stop + totalSize cs ≤ limit ∧ c.put = (stop + totalSize cs) % total ∧
      ∀ d ds, cs = d :: ds → done < d.size ∧
        ∀ i < done, ∀ e, d.entries[i]? = some e → buffer (space + i) = e

/-- The invariant of the protocol. -/
structure Invariant (total : ℕ) (w : World) : Prop where
  linked : ∃ received sent transit, Linked total w.written w received sent transit
  laid : Laid total w.buffer w.written w.executed.length
  executed : w.executed.filter isCommand = commandsOf (w.written.take w.executed.length)
  phase : PhaseOk total w.client w.buffer (startOf w.written w.written.length)
    (startOf w.written w.seen + (total - 1))

lemma invariant_initial (total : ℕ) (buffer : ℕ → ℕ) (flushAutomatically : Bool) :
    Invariant total (World.initial buffer flushAutomatically) := by
  refine ⟨⟨0, 0, [], ?_⟩, ?_, rfl, ?_⟩
  · constructor <;> simp [World.initial, startOf]
  · constructor <;> simp [World.initial]
  · simp [World.initial, PhaseOk, startOf]

/-- The position of the parser the client knows is at most one ring behind. -/
lemma Linked.seen_bounds {total : ℕ} {fs : List Frame} {w : World} {received sent : ℕ}
    {transit : List ℕ} (h : Linked total fs w received sent transit) :
    startOf fs w.seen ≤ startOf fs w.executed.length ∧
      startOf fs w.executed.length ≤ startOf fs fs.length := by
  have hreceived := h.le_sent received (by simp)
  exact ⟨startOf_mono fs h.seen_le,
    startOf_mono fs (h.executed_le.trans (hreceived.trans h.sent_le))⟩

/-- A put offset that is sent is the end of the frames. -/
lemma Invariant.flushSync {total : ℕ} {w : World} (h : Invariant total w)
    (hput : w.client.put = startOf w.written w.written.length % total) :
    Invariant total (CommandRing.flushSync w) := by
  obtain ⟨received, sent, transit, hlink⟩ := h.linked
  refine ⟨⟨received, w.written.length, transit ++ [w.written.length], ?_⟩, h.laid, h.executed,
    h.phase⟩
  refine ⟨hlink.executed_le, ?_, ?_, le_rfl, hlink.seen_le, hlink.gets, hlink.get, hlink.put, ?_,
    hput, hlink.getOffset⟩
  · rw [← List.cons_append]
    refine List.isChain_append.mpr ⟨hlink.chain, List.isChain_singleton _, ?_⟩
    intro a ha b hb
    rw [hlink.last, Option.mem_some_iff] at ha
    simp only [List.head?_cons, Option.mem_some_iff] at hb
    exact ha ▸ hb ▸ hlink.sent_le
  · rw [← List.cons_append, List.getLast?_append]
    rfl
  · simp [CommandRing.flushSync, hlink.messages, hput]

lemma Invariant.flush {total : ℕ} {w : World} (h : Invariant total w)
    (hput : w.client.put = startOf w.written w.written.length % total) :
    Invariant total (CommandRing.flush w) := by
  unfold CommandRing.flush
  split_ifs
  · exact h.flushSync hput
  · exact h

lemma flushIfDue_eq (total : ℕ) (late : Bool) (w : World) :
    flushIfDue total late w = w ∨ flushIfDue total late w = flushSync w := by
  have hflush : flush w = w ∨ flush w = flushSync w := by
    unfold flush
    split_ifs
    · exact .inr rfl
    · exact .inl rfl
  unfold flushIfDue
  dsimp only
  generalize total / (if w.client.getOffset = w.client.lastPutSent then 16 else 2) = limit
  split_ifs
  · exact hflush
  · exact hflush
  · exact .inl rfl

/-- A step of the client that touches only its put offset and its phase. -/
lemma Invariant.setPhase {total : ℕ} {w : World} (h : Invariant total w) (put : ℕ) (phase : Phase)
    (issued : ℕ)
    (hphase : PhaseOk total
      { w.client with put := put, phase := phase, commandsIssued := issued } w.buffer
      (startOf w.written w.written.length) (startOf w.written w.seen + (total - 1))) :
    Invariant total { w with client :=
      { w.client with put := put, phase := phase, commandsIssued := issued } } := by
  obtain ⟨received, sent, transit, hlink⟩ := h.linked
  exact ⟨⟨received, sent, transit, hlink.executed_le, hlink.chain, hlink.last, hlink.sent_le,
    hlink.seen_le, hlink.gets, hlink.get, hlink.put, hlink.messages, hlink.lastPutSent,
    hlink.getOffset⟩, h.laid, h.executed, hphase⟩

lemma Invariant.getSpace {total : ℕ} {w : World} (h : Invariant total w)
    (hidle : w.client.phase = .idle) {cs : List Command} (hlt : totalSize cs < total) :
    Invariant total (CommandRing.getSpace total cs w) := by
  have hphase := h.phase
  simp only [PhaseOk, hidle] at hphase
  refine h.setPhase w.client.put _ _ ?_
  split_ifs with hwrap
  · exact ⟨hphase.1, hphase.2, hlt⟩
  · exact ⟨hphase.1, hphase.2, hlt, not_lt.mp hwrap⟩

/-- Reserving the space, after the flush. -/
lemma Invariant.reserve {total : ℕ} {w : World} (h : Invariant total w) {cs : List Command}
    (hw : w.client.phase = .reserve cs) :
    Invariant total { w with client := { w.client with
      put := if w.client.put + totalSize cs = total then 0 else w.client.put + totalSize cs
      phase := .write w.client.put cs 0 } } := by
  have hphase := h.phase
  simp only [PhaseOk, hw] at hphase
  obtain ⟨hput, hlimit, hlt, hfit⟩ := hphase
  refine h.setPhase _ _ w.client.commandsIssued ⟨fun _ => hput, hfit, hlimit, ?_, ?_⟩
  · have hmod : (startOf w.written w.written.length + totalSize cs) % total =
        (w.client.put + totalSize cs) % total := by
      rw [hput, Nat.mod_add_mod]
    rw [hmod]
    split_ifs with hend
    · rw [hend, Nat.mod_self]
    · rw [Nat.mod_eq_of_lt (by omega)]
  · rintro d ds -
    exact ⟨Nat.succ_pos _, by simp⟩

/-- A frame completed by the client. -/
lemma Linked.complete {total : ℕ} {w : World} {received sent : ℕ} {transit : List ℕ}
    (h : Linked total w.written w received sent transit) (f : Frame) (put : ℕ) (phase : Phase)
    (buffer : ℕ → ℕ) :
    Linked total (w.written ++ [f])
      { w with
        client := { w.client with put := put, phase := phase }
        buffer := buffer
        written := w.written ++ [f] } received sent transit := by
  have := h.append [f]
  exact ⟨this.executed_le, this.chain, this.last, this.sent_le, this.seen_le, this.gets, this.get,
    this.put, this.messages, this.lastPutSent, this.getOffset⟩

lemma slot_of_dvd {total stop n put : ℕ} (hput : put + n = total) (hn : 0 < n)
    (hdvd : total ∣ stop + n) : stop % total = put := by
  obtain ⟨q, hq⟩ := hdvd
  cases q with
  | zero => omega
  | succ q =>
    have hstop : stop = total * q + put := by
      rw [Nat.mul_add, Nat.mul_one] at hq
      omega
    rw [hstop, Nat.mul_add_mod, Nat.mod_eq_of_lt (by omega)]

lemma commandsOf_take_append {fs gs : List Frame} {k : ℕ} (hk : k ≤ fs.length) :
    commandsOf ((fs ++ gs).take k) = commandsOf (fs.take k) := by
  rw [List.take_append_of_le_length hk]

lemma Linked.executed_le_length {total : ℕ} {fs : List Frame} {w : World} {received sent : ℕ}
    {transit : List ℕ} (h : Linked total fs w received sent transit) :
    w.executed.length ≤ fs.length :=
  h.executed_le.trans ((h.le_sent received (by simp)).trans h.sent_le)

/-- One noop of the fill. -/
lemma Invariant.fillNoops {total : ℕ} {w : World} (h : Invariant total w) {cs : List Command}
    {n : ℕ} (hw : w.client.phase = .fillNoops cs n) (hn : 0 < n) :
    Invariant total { w with
      client := { w.client with
        put := w.client.put + min kMaxSize n
        phase := .fillNoops cs (n - min kMaxSize n) }
      buffer := Function.update w.buffer w.client.put (header kNoop (min kMaxSize n))
      written := w.written ++ [.skip (min kMaxSize n)] } := by
  have hphase := h.phase
  simp only [PhaseOk, hw] at hphase
  obtain ⟨hput, hdvd, hlimit, hlt⟩ := hphase
  obtain ⟨received, sent, transit, hlink⟩ := h.linked
  obtain ⟨hseen, hexec⟩ := hlink.seen_bounds
  have hskip : min kMaxSize n ≤ n ∧ 0 < min kMaxSize n ∧ min kMaxSize n < 2 ^ 21 := by
    unfold kMaxSize
    omega
  generalize min kMaxSize n = skip at hskip ⊢
  obtain ⟨hle, hpos, hmax⟩ := hskip
  have hslot := slot_of_dvd hput hn hdvd
  have hsize : (Frame.skip skip).size = skip := rfl
  have hstop := startOf_length_append w.written (.skip skip)
  have hseen' : startOf (w.written ++ [.skip skip]) w.seen = startOf w.written w.seen :=
    startOf_append (hlink.seen_le.trans hlink.executed_le_length)
  refine ⟨⟨received, sent, transit, hlink.complete _ _ _ _⟩, ?_, ?_, ?_⟩
  · have hupdate := h.laid.update (d := 0) (by omega) (header kNoop skip)
    rw [Nat.add_zero, hslot] at hupdate
    refine hupdate.push hpos ⟨_, [], rfl, ?_, hpos, ?_⟩ (by rw [hslot, hsize]; omega) ?_
    · exact headerSize_header kNoop hmax
    · intro hcommand
      simp [Frame.stored, isCommand, headerCommand_header (show kNoop < 2 ^ 11 by decide) hmax]
        at hcommand
    · intro i e he
      obtain ⟨rfl, rfl⟩ : i = 0 ∧ header kNoop skip = e := by
        simpa [Frame.stored, List.getElem?_singleton] using he
      rw [hslot, Nat.add_zero, Function.update_self]
  · dsimp only
    rw [commandsOf_take_append hlink.executed_le_length]
    exact h.executed
  · simp only [PhaseOk]
    rw [hstop, hsize, hseen']
    refine ⟨by omega, ?_, by omega, hlt⟩
    have : startOf w.written w.written.length + skip + (n - skip) =
        startOf w.written w.written.length + n := by omega
    rwa [this]

/-- One entry of a command, which completes the command or not. -/
lemma Invariant.writeEntry {total : ℕ} {w : World} (h : Invariant total w) {space done : ℕ}
    {c : Command} {cs : List Command} (hw : w.client.phase = .write space (c :: cs) done)
    (late : Bool) : Invariant total (clientStep total late w) := by
  have hphase := h.phase
  simp only [PhaseOk, hw] at hphase
  obtain ⟨hspace, hfit, hlimit, hput, hdone⟩ := hphase
  obtain ⟨hlt, hentries⟩ := hdone c cs rfl
  replace hspace := hspace (List.cons_ne_nil c cs)
  obtain ⟨received, sent, transit, hlink⟩ := h.linked
  obtain ⟨hseen, hexec⟩ := hlink.seen_bounds
  have htotal : totalSize (c :: cs) = c.size + totalSize cs := by simp [totalSize]
  rw [htotal] at hfit hlimit hput
  have hslot : (startOf w.written w.written.length + done) % total = space + done := by
    rw [hspace]
    exact slot_add (n := c.size) (by omega) hlt
  have hupdate := h.laid.update (d := done) (by omega) (c.entries.getD done 0)
  rw [hslot] at hupdate
  have hentries' : ∀ i < done + 1, ∀ e, c.entries[i]? = some e →
      Function.update w.buffer (space + done) (c.entries.getD done 0) (space + i) = e := by
    intro i hi e he
    by_cases hid : i = done
    · subst hid
      rw [Function.update_self, List.getD_eq_getElem?_getD, he]
      rfl
    · rw [Function.update_of_ne (by omega)]
      exact hentries i (by omega) e he
  unfold clientStep
  simp only [hw]
  split_ifs with hend
  · -- the command is complete
    have hstop := startOf_length_append w.written (.command c)
    have hseen' : startOf (w.written ++ [.command c]) w.seen = startOf w.written w.seen :=
      startOf_append (hlink.seen_le.trans hlink.executed_le_length)
    have hsize : (Frame.command c).size = c.size := rfl
    refine ⟨⟨received, sent, transit, hlink.complete _ w.client.put _ _⟩, ?_, ?_, ?_⟩
    · refine hupdate.push (f := .command c) (by rw [hsize]; omega)
        ⟨c.head, c.args, rfl, c.size_eq, le_rfl, fun _ => rfl⟩
        (by rw [← hspace, hsize]; omega) ?_
      intro i e he
      rw [← hspace]
      refine hentries' i ?_ e he
      have := (List.getElem?_eq_some_iff.mp he).1
      rw [hend]
      exact this
    · dsimp only
      rw [commandsOf_take_append hlink.executed_le_length]
      exact h.executed
    · simp only [PhaseOk]
      rw [hstop, hsize, hseen']
      refine ⟨?_, by omega, by omega, ?_, ?_⟩
      · intro hne
        obtain ⟨d, ds, rfl⟩ := List.exists_cons_of_ne_nil hne
        have hd : totalSize (d :: ds) = d.args.length + 1 + totalSize ds := by
          simp [totalSize, Command.size, Command.entries]
        rw [hspace]
        exact (slot_add (n := c.size + 1) (by omega) (by omega)).symm
      · rw [hput, Nat.add_assoc]
      · rintro d ds -
        exact ⟨Nat.succ_pos _, by simp⟩
  · refine ⟨⟨received, sent, transit, ?_⟩, hupdate, h.executed, ?_⟩
    · exact ⟨hlink.executed_le, hlink.chain, hlink.last, hlink.sent_le, hlink.seen_le, hlink.gets,
        hlink.get, hlink.put, hlink.messages, hlink.lastPutSent, hlink.getOffset⟩
    · simp only [PhaseOk]
      rw [htotal]
      refine ⟨fun _ => hspace, hfit, hlimit, hput, ?_⟩
      intro d ds heq
      obtain ⟨rfl, rfl⟩ := List.cons.inj heq
      exact ⟨by omega, hentries'⟩

/-- What one step of the client inside a call preserves. -/
lemma Invariant.clientStep {total : ℕ} {w : World} (h : Invariant total w) (late : Bool) :
    Invariant total (CommandRing.clientStep total late w) := by
  have hphase := h.phase
  obtain ⟨received, sent, transit, hlink⟩ := h.linked
  obtain ⟨hseen, hexec⟩ := hlink.seen_bounds
  cases hw : w.client.phase with
  | idle => simpa only [CommandRing.clientStep, hw] using h
  | wrapWait cs =>
    simp only [PhaseOk, hw] at hphase
    obtain ⟨hput, hlimit, hlt⟩ := hphase
    simp only [CommandRing.clientStep, hw]
    split_ifs with hwait
    · exact h.flushSync hput
    · rw [hput, hlink.getOffset] at hwait
      obtain ⟨hdvd, hroom⟩ := wrap_room (by omega) (hseen.trans hexec) hlimit hwait
      rw [← hput] at hdvd hroom
      have hle : w.client.put ≤ total := hput ▸ (Nat.mod_lt _ (by omega)).le
      exact h.setPhase _ _ w.client.commandsIssued ⟨Nat.add_sub_of_le hle, hdvd, hroom, hlt⟩
  | fillNoops cs n =>
    by_cases hn : 0 < n
    · have hfill := h.fillNoops hw hn
      simpa only [CommandRing.clientStep, hw, hn, if_true] using hfill
    · simp only [PhaseOk, hw] at hphase
      obtain ⟨hput, hdvd, hlimit, hlt⟩ := hphase
      obtain rfl : n = 0 := by omega
      simp only [CommandRing.clientStep, hw, hn, if_false]
      refine h.setPhase 0 _ w.client.commandsIssued
        ⟨(Nat.mod_eq_zero_of_dvd hdvd).symm, hlimit, hlt, ?_⟩
      dsimp only
      omega
  | entriesWait cs =>
    simp only [PhaseOk, hw] at hphase
    obtain ⟨hput, hlimit, hlt, hfit⟩ := hphase
    simp only [CommandRing.clientStep, hw]
    split_ifs with hwait
    · exact h.flushSync hput
    · unfold availableEntries at hwait
      rw [hput, hlink.getOffset,
        available_eq (by omega) (hseen.trans hexec) hlimit] at hwait
      exact h.setPhase _ _ w.client.commandsIssued ⟨hput, by omega, hlt, hfit⟩
  | reserve cs =>
    have hput : w.client.put = startOf w.written w.written.length % total := by
      simp only [PhaseOk, hw] at hphase
      exact hphase.1
    simp only [CommandRing.clientStep, hw]
    rcases flushIfDue_eq total late w with heq | heq
    · rw [heq]
      exact h.reserve hw
    · rw [heq]
      exact (h.flushSync hput).reserve hw
  | write space cs done =>
    cases cs with
    | nil =>
      simp only [PhaseOk, hw, totalSize, List.map_nil, List.sum_nil, Nat.add_zero] at hphase
      simp only [CommandRing.clientStep, hw]
      exact h.setPhase w.client.put _ w.client.commandsIssued ⟨hphase.2.2.2.1, hphase.2.2.1⟩
    | cons c cs => exact h.writeEntry hw late

/-- The client sees a later `get`; it may only fill more. -/
lemma Invariant.see {total : ℕ} {w : World} (h : Invariant total w) {i get : ℕ} (hi : w.seen ≤ i)
    (hget : w.gets[i]? = some get) :
    Invariant total { w with client := { w.client with getOffset := get }, seen := i } := by
  obtain ⟨received, sent, transit, hlink⟩ := h.linked
  rw [hlink.gets] at hget
  obtain ⟨hlt, hval⟩ := List.getElem?_eq_some_iff.mp hget
  simp only [List.length_map, List.length_range] at hlt
  simp only [List.getElem_map, List.getElem_range] at hval
  refine ⟨⟨received, sent, transit, ?_⟩, h.laid, h.executed, ?_⟩
  · exact ⟨hlink.executed_le, hlink.chain, hlink.last, hlink.sent_le, by dsimp only; omega,
      hlink.gets, hlink.get, hlink.put, hlink.messages, hlink.lastPutSent, hval.symm⟩
  · have hmono := startOf_mono w.written hi
    have hphase := h.phase
    unfold PhaseOk at hphase ⊢
    dsimp only at hphase ⊢
    split <;> rename_i heq <;> simp only [heq] at hphase
    · exact ⟨hphase.1, by omega⟩
    · exact ⟨hphase.1, by omega, hphase.2.2⟩
    · exact ⟨hphase.1, hphase.2.1, by omega, hphase.2.2.2⟩
    · exact ⟨hphase.1, by omega, hphase.2.2⟩
    · exact ⟨hphase.1, by omega, hphase.2.2⟩
    · exact ⟨hphase.1, hphase.2.1, by omega, hphase.2.2.2⟩

lemma Invariant.deliver {total : ℕ} {w : World} (h : Invariant total w) {put : ℕ} {rest : List ℕ}
    (hmsg : w.messages = put :: rest) :
    Invariant total { w with parser := { w.parser with put := put }, messages := rest } := by
  obtain ⟨received, sent, transit, hlink⟩ := h.linked
  have hmap := hlink.messages
  rw [hmsg] at hmap
  cases transit with
  | nil => simp at hmap
  | cons j transit =>
    simp only [List.map_cons, List.cons.injEq] at hmap
    obtain ⟨hle, hchain⟩ := List.isChain_cons_cons.mp hlink.chain
    refine ⟨⟨j, sent, transit, ?_⟩, h.laid, h.executed, h.phase⟩
    exact ⟨hlink.executed_le.trans hle, hchain, by simpa using hlink.last, hlink.sent_le,
      hlink.seen_le, hlink.gets, hlink.get, hmap.1, hmap.2, hlink.lastPutSent, hlink.getOffset⟩

/-- What `ProcessCommand` finds: nothing to do, or the next frame. -/
lemma Invariant.processCommand {total : ℕ} {w : World} (h : Invariant total w) :
    CommandRing.processCommand total w.buffer w.parser = .ok none ∨
      ∃ f entries, w.written[w.executed.length]? = some f ∧
        (∃ received sent transit, Linked total w.written w received sent transit ∧
          w.executed.length < received) ∧
        isCommand entries = isCommand f.stored ∧ (isCommand f.stored → entries = f.stored) ∧
        CommandRing.processCommand total w.buffer w.parser = .ok (some (entries,
          startOf w.written (w.executed.length + 1) % total)) := by
  obtain ⟨received, sent, transit, hlink⟩ := h.linked
  unfold CommandRing.processCommand
  by_cases heq : w.parser.get = w.parser.put
  · exact .inl (if_pos heq)
  refine .inr ?_
  have hlt : w.executed.length < received := by
    refine lt_of_le_of_ne hlink.executed_le fun hk => heq ?_
    rw [hlink.get, hlink.put, hk]
  have hlen : w.executed.length < w.written.length :=
    hlt.trans_le ((hlink.le_sent received (by simp)).trans hlink.sent_le)
  obtain ⟨f, hf⟩ : ∃ f, w.written[w.executed.length]? = some f :=
    ⟨_, List.getElem?_eq_getElem hlen⟩
  obtain ⟨e, es, hstored, hheader, -, hfull⟩ := h.laid.header f (List.mem_of_getElem? hf)
  have hpos := h.laid.pos f (List.mem_of_getElem? hf)
  have hfits := h.laid.fits _ f hf
  have hintact := h.laid.intact _ f le_rfl hf
  rw [← hlink.get] at hfits hintact
  have hhead : w.buffer w.parser.get = e := hintact 0 e (by simp [hstored])
  have hsize : headerSize (w.buffer w.parser.get) = f.size := by rw [hhead, hheader]
  have hnext : (w.parser.get + f.size) % total =
      startOf w.written (w.executed.length + 1) % total := by
    rw [startOf_succ hf, hlink.get, Nat.mod_add_mod]
  refine ⟨f, (List.range f.size).map fun i => w.buffer (w.parser.get + i), hf,
    ⟨received, sent, transit, hlink, hlt⟩, ?_, ?_, ?_⟩
  · obtain ⟨n, hn⟩ := Nat.exists_eq_succ_of_ne_zero hpos.ne'
    rw [hn, List.range_succ_eq_map, hstored]
    simp [isCommand, hhead]
  · intro hcommand
    refine List.ext_getElem (by simp [hfull hcommand]) fun i hi hi' => ?_
    simp only [List.getElem_map, List.getElem_range]
    exact hintact i _ (List.getElem?_eq_getElem hi')
  · simp only [heq, if_false, hsize, hpos.ne', not_lt.mpr (Nat.add_comm f.size _ ▸ hfits), hnext]

lemma Invariant.execute {total : ℕ} {w : World} (h : Invariant total w) {entries : List ℕ}
    {get : ℕ}
    (hp : CommandRing.processCommand total w.buffer w.parser = .ok (some (entries, get))) :
    Invariant total
      { w with
        parser := { w.parser with get := get }
        gets := w.gets ++ [get]
        executed := w.executed ++ [entries] } := by
  rcases h.processCommand with hnone |
    ⟨f, entries', hf, ⟨received, sent, transit, hlink, hlt⟩, hsame, hentries, hsome⟩
  · simp [hp] at hnone
  simp only [hp, Except.ok.injEq, Option.some.injEq, Prod.mk.injEq] at hsome
  obtain ⟨rfl, rfl⟩ := hsome
  refine ⟨⟨received, sent, transit, ?_⟩, ?_, ?_, h.phase⟩
  · have hseen := hlink.seen_le
    refine ⟨by simpa using hlt, hlink.chain, hlink.last, hlink.sent_le,
      by simp only [List.length_append, List.length_singleton]; omega, ?_, by simp, hlink.put,
      hlink.messages, hlink.lastPutSent,
      hlink.getOffset⟩
    rw [hlink.gets, List.length_append, List.length_singleton,
      List.range_succ (n := w.executed.length + 1),
      List.map_append]
    rfl
  · refine ⟨h.laid.pos, h.laid.header, h.laid.fits, fun j g hj => h.laid.intact j g ?_⟩
    simp only [List.length_append, List.length_singleton] at hj
    omega
  · simp only [List.filter_append, h.executed, List.length_append, List.length_singleton,
      List.take_add_one, hf, commandsOf, List.map_append]
    congr 1
    by_cases hc : isCommand f.stored
    · simp [hentries hc]
    · simp [hsame, hc]

/-- What one step of either party preserves. -/
lemma Invariant.step {total : ℕ} {w w' : World} {e : Event} (h : Invariant total w)
    (hs : Step total w e w') : Invariant total w' := by
  have hidle : w.client.phase = .idle →
      w.client.put = startOf w.written w.written.length % total := by
    intro hidle
    have hphase := h.phase
    simp only [PhaseOk, hidle] at hphase
    exact hphase.1
  cases hs with
  | getSpace cs hphase hpos hlt => exact h.getSpace hphase hlt
  | flush hphase => exact h.flush (hidle hphase)
  | flushSync hphase => exact h.flushSync (hidle hphase)
  | client late => exact h.clientStep late
  | see i get hi hget => exact h.see hi hget
  | deliver put rest hmsg => exact h.deliver hmsg
  | processCommand entries get hp => exact h.execute hp

/-- A flushed client and a parser that has caught up stand at the same frame. -/
lemma Invariant.all_executed {total : ℕ} {w : World} (h : Invariant total w)
    (hidle : w.client.phase = .idle) (hflushed : w.client.lastPutSent = w.client.put)
    (hmessages : w.messages = []) (hget : w.parser.get = w.parser.put) :
    w.executed.length = w.written.length := by
  obtain ⟨received, sent, transit, hlink⟩ := h.linked
  have hphase := h.phase
  simp only [PhaseOk, hidle] at hphase
  obtain ⟨hput, hlimit⟩ := hphase
  obtain ⟨hseen, hexec⟩ := hlink.seen_bounds
  have hreceived := hlink.le_sent received (by simp)
  have htransit : transit = [] := by simpa [hlink.messages] using hmessages
  have hsent : received = sent := by simpa [htransit] using hlink.last
  -- the positions are at most one ring apart, so equal offsets are equal positions
  have hinj : ∀ {i j}, w.executed.length ≤ i → i ≤ j → j ≤ w.written.length →
      startOf w.written i % total = startOf w.written j % total → i = j := by
    intro i j hi hij hj heq
    have h1 := startOf_mono w.written hi
    have h2 := startOf_mono w.written hij
    have h3 := startOf_mono w.written hj
    exact h.laid.eq_of_startOf_eq hij hj (eq_of_slot_eq h2 (by omega) heq)
  have hk : w.executed.length = received :=
    hinj le_rfl hlink.executed_le (hreceived.trans hlink.sent_le)
      (hlink.get.symm.trans (hget.trans hlink.put))
  have hs : sent = w.written.length :=
    hinj (hlink.executed_le.trans hreceived) hlink.sent_le le_rfl
      (hlink.lastPutSent.symm.trans (hflushed.trans hput))
  omega

lemma Invariant.delivers {total : ℕ} {w : World} (h : Invariant total w) : Delivers total w := by
  refine ⟨?_, h.laid.intact, ?_, ?_, ?_⟩
  · rw [h.executed]
    exact ((List.take_prefix _ _).map _).filter _
  · intro space c cs done hw
    have hphase := h.phase
    simp only [PhaseOk, hw] at hphase
    exact (hphase.2.2.2.2 c cs rfl).2
  · intro hidle hflushed hmessages hget
    rw [h.executed, h.all_executed hidle hflushed hmessages hget, List.take_length]
  · intro e he
    rcases h.processCommand with hnone | ⟨f, entries, -, -, -, -, hsome⟩
    · simp [he] at hnone
    · simp [he] at hsome

/-- In every interleaving of the client and the service the commands are
delivered once and in order. -/
theorem commandRing_delivers (total : ℕ) (buffer : ℕ → ℕ) (flushAutomatically : Bool)
    (es : List Event) (w : World)
    (hrun : Reaches (Step total) (World.initial buffer flushAutomatically) es w) :
    Delivers total w := by
  refine Invariant.delivers (hrun.invariant (Invariant total)
    (invariant_initial total buffer flushAutomatically) ?_)
  intro w e w' hinv hs
  exact hinv.step hs

/-- One command of one entry goes through a ring of four entries. -/
theorem commandRing_delivers_one :
    ∃ w, Reaches (Step 4) (World.initial (fun _ => 0) true)
        [.getSpace [⟨header 7 1, [], rfl⟩], .client false, .client false, .client false,
          .client false, .flush, .deliver, .processCommand] w ∧
      w.executed = [[header 7 1]] ∧ Delivers 4 w := by
  have hrun : Reaches (Step 4) (World.initial (fun _ => 0) true)
      [.getSpace [⟨header 7 1, [], rfl⟩], .client false, .client false, .client false,
        .client false, .flush, .deliver, .processCommand] _ :=
    .snoc (.snoc (.snoc (.snoc (.snoc (.snoc (.snoc (.snoc .refl
      (.getSpace _ _ rfl (by decide) (by decide))) (.client _ false)) (.client _ false))
      (.client _ false)) (.client _ false)) (.flush _ rfl)) (.deliver _ 1 [] rfl))
      (.processCommand _ [header 7 1] 1 rfl)
  exact ⟨_, hrun, rfl, commandRing_delivers 4 _ true _ _ hrun⟩

end Chromium.CommandRing
