import Chromium.RingBuffer
import Chromium.Runs

/-!
# Runs of the ring buffer allocator

The run state adds the region handed out and not yet given back, and every
region ever given back with its token. The size of the ring decides whether all
runs are sound: up to `2 ^ 31 + 1` bytes the sum `size + free_offset_` in
`Alloc` stays below `2 ^ 32`, above it does not.
-/
namespace Chromium.RingBuffer
open CommandTokens Tiling Runs

/-- The block that waits for a fence. -/
def fenceBlock (f : Fence) : Block :=
  ⟨f.region.offset, f.region.size, f.token % tokenModulus, .freePendingToken⟩

/-- The ring with its history. Offsets are relative to `base_offset_`. -/
structure World where
  ring : Ring
  live : Option Region
  fences : List Fence

def World.initial (baseOffset size : UInt32) (tokens : Tokens) : World :=
  ⟨Ring.initial baseOffset size tokens, none, []⟩

/-- The calls of a client, and the progress of the token counter between them. -/
inductive Event
  | alloc (size : ℕ) (service : ℕ → ℕ)
  | freePendingToken (token : ℕ)
  | getLargestFreeSizeNoWaiting (service : ℕ → ℕ)
  | insertToken
  | advance (r : ℕ)

/-- One call. Each allocation is freed before the next, with a token that was
inserted, given by its unwrapped number. -/
inductive Step : World → Event → World → Prop
  | alloc (w : World) (size : ℕ) (service : ℕ → ℕ) (ring : Ring) (o : ℕ) (hlive : w.live = none)
      (hsize : size ≤ w.ring.size) (h : alloc service w.ring size = some (ring, o)) :
      Step w (.alloc size service)
        { w with ring := ring, live := some ⟨sub32 o ring.baseOffset, max size 1⟩ }
  | freePendingToken (w : World) (r : Region) (u : ℕ) (ring : Ring) (hlive : w.live = some r)
      (hu : u ≤ w.ring.tokens.issued)
      (h : freePendingToken w.ring (add32 r.offset w.ring.baseOffset) (u % tokenModulus) =
        some ring) :
      Step w (.freePendingToken u) ⟨ring, none, ⟨r, u⟩ :: w.fences⟩
  | getLargestFreeSizeNoWaiting (w : World) (service : ℕ → ℕ) :
      Step w (.getLargestFreeSizeNoWaiting service)
        { w with ring := (getLargestFreeSizeNoWaiting service w.ring).1 }
  | insertToken (w : World) :
      Step w .insertToken { w with ring := { w.ring with tokens := w.ring.tokens.insertToken } }
  | advance (w : World) (r : ℕ) :
      Step w (.advance r) { w with ring := { w.ring with tokens := w.ring.tokens.advance r } }

/-- `Alloc` succeeds without a wait. The counters of the helper change in a call
exactly when `WaitForToken` blocks. -/
def ReturnsWithoutWaiting (service : ℕ → ℕ) (r : Ring) (size : ℕ) : Prop :=
  ∃ r' o, alloc service r size = some (r', o) ∧ r'.tokens = r.tokens

/-- What a client may rely on between two calls. A request of 0 bytes counts as
one of 1 byte. -/
structure Sound (w : World) : Prop where
  inside : ∀ r ∈ w.live, r.offset + r.size ≤ w.ring.size
  disjoint : ∀ r ∈ w.live, ∀ f ∈ w.fences, w.ring.tokens.read < f.token → r.Disjoint f.region
  tiles : CircularTiles Block.offset Block.size w.ring.size w.ring.inUseOffset w.ring.freeOffset
    w.ring.blocks
  succeeds : w.live = none → ∀ n ≤ w.ring.size, ∀ service, (alloc service w.ring n).isSome
  largest : w.live = none → ∀ service,
    (getLargestFreeSizeNoWaiting service w.ring).2 ≤ w.ring.size ∧
    ∀ n ≤ w.ring.size, ReturnsWithoutWaiting service w.ring n ↔
      max n 1 ≤ (getLargestFreeSizeNoWaiting service w.ring).2

/-- The condition on one call: the 31-bit counter does not wrap while a block
waits for its token, and blocks are freed with tokens of the current round. -/
def Admissible (w : World) : Event → Prop
  | .insertToken => (w.ring.tokens.issued + 1) % tokenModulus = 0 →
      ∀ b ∈ w.ring.blocks, b.state ≠ .freePendingToken
  | .freePendingToken u => u / tokenModulus = w.ring.tokens.issued / tokenModulus
  | _ => True

/-- A call that meets its condition. -/
def SafeStep (w : World) (e : Event) (w' : World) : Prop := Admissible w e ∧ Step w e w'

/-- What ties the records to the queue. -/
structure Invariant (size : ℕ) (w : World) : Prop where
  size_eq : w.ring.size = size
  base_lt : w.ring.baseOffset < 2 ^ 32
  consistent : w.ring.Consistent
  idle : w.live = none → ∀ b ∈ w.ring.blocks, b.state ≠ .inUse
  busy : ∀ r ∈ w.live, ∃ older, w.ring.blocks = older ++ [⟨r.offset, r.size, 0, .inUse⟩] ∧
    ∀ b ∈ older, b.state ≠ .inUse
  padding : ∀ b ∈ w.ring.blocks, b.state = .padding → b.token = 0
  round : ∀ b ∈ w.ring.blocks, b.state = .freePendingToken → b.token ≤ w.ring.tokens.token
  fenced : ∀ f ∈ w.fences, f.token ≤ w.ring.tokens.issued ∧
    (f.token ≤ w.ring.tokens.read ∨ fenceBlock f ∈ w.ring.blocks)

lemma invariant_initial (baseOffset size : UInt32) (tokens : Tokens) (hsize : 0 < size.toNat) :
    Invariant size.toNat (World.initial baseOffset size tokens) where
  size_eq := rfl
  base_lt := baseOffset.toNat_lt
  consistent := ⟨size.toNat_lt, hsize, hsize, by simp [World.initial, Ring.initial], .inl rfl,
    fun _ => ⟨rfl, rfl⟩⟩
  idle := by simp [World.initial, Ring.initial]
  busy := by simp [World.initial]
  padding := by simp [World.initial, Ring.initial]
  round := by simp [World.initial, Ring.initial]
  fenced := by simp [World.initial]

/-- Retiring blocks at the front keeps the invariant; the block in use, if there
is one, is not among them. -/
lemma Invariant.retires {size : ℕ} {w : World} (h : Invariant size w) {r' : Ring}
    {gone : List Block} (hret : Retires w.ring r' gone) :
    Invariant size { w with ring := r' } := by
  have hmem : ∀ b ∈ r'.blocks, b ∈ w.ring.blocks :=
    fun b hb => hret.blocks_eq ▸ List.mem_append_right _ hb
  refine ⟨hret.size_eq.trans h.size_eq, hret.base_eq ▸ h.base_lt, hret.consistent,
    fun hl b hb => h.idle hl b (hmem b hb), ?_, fun b hb => h.padding b (hmem b hb), ?_, ?_⟩
  · intro r hr
    obtain ⟨older, hblocks, holder⟩ := h.busy r hr
    rw [hret.blocks_eq] at hblocks
    rcases List.append_eq_append_iff.mp hblocks with ⟨as, rfl, hlast⟩ | ⟨cs, rfl, hlast⟩
    · exact ⟨as, hlast, fun b hb => holder b (List.mem_append_right _ hb)⟩
    · rcases List.append_eq_singleton_iff.mp hlast.symm with ⟨-, hlast⟩ | ⟨rfl, -⟩
      · exact ⟨[], hlast, by simp⟩
      · exact absurd rfl (hret.idle ⟨r.offset, r.size, 0, .inUse⟩ (by simp))
  · intro b hb hstate
    have hround := h.round b (hmem b hb) hstate
    simpa [Tokens.token, hret.issued_eq] using hround
  · intro f hf
    obtain ⟨hle, hor⟩ := h.fenced f hf
    refine ⟨hret.issued_eq ▸ hle, ?_⟩
    rcases hor with hread | hblock
    · exact .inl (hread.trans hret.read_le)
    · rw [hret.blocks_eq] at hblock
      rcases List.mem_append.mp hblock with hmem | hmem
      · exact .inl (hret.passed _ hmem rfl _ hle rfl)
      · exact .inr hmem

/-- `Alloc` on an idle ring of up to `2 ^ 31 + 1` bytes. -/
lemma Ring.Consistent.alloc {r : Ring} (h : r.Consistent) (hmax : r.size ≤ 2 ^ 31 + 1)
    (hfree : ∀ b ∈ r.blocks, b.state ≠ .inUse) (service : ℕ → ℕ) {n : ℕ} (hn : n ≤ r.size) :
    ∃ r' gone padding o f, Retires r r' gone ∧
      RingBuffer.waitForRoom service (max n 1) r = some r' ∧
      (∀ b ∈ padding, b.state = .padding ∧ b.token = 0) ∧
      RingBuffer.alloc service r n =
        some ({ r' with
          blocks := r'.blocks ++ padding ++ [⟨o, max n 1, 0, .inUse⟩]
          freeOffset := f }, add32 o r.baseOffset) ∧
      RingBuffer.Consistent r'.size r'.inUseOffset f
        (r'.blocks ++ padding ++ [⟨o, max n 1, 0, .inUse⟩]) := by
  have hpos := h.inUse_lt
  obtain ⟨r', gone, hwait, hret, hroom⟩ :=
    h.waitForRoom service (show max n 1 ≤ r.size by omega) hfree
  obtain ⟨padding, o, f, hpad, hplace, hcons⟩ :=
    hret.consistent.place (hret.size_eq ▸ hmax) (show 0 < max n 1 by omega) hroom
  refine ⟨r', gone, padding, o, f, hret, hwait, hpad, ?_, hcons⟩
  have hlast : r.blocks.getLast?.any (fun b => b.state = .inUse) = false := by
    rw [Option.any_eq_false]
    intro b hb
    simpa using hfree b (List.mem_of_getLast? hb)
  unfold RingBuffer.alloc
  simp [not_lt.mpr hn, hlast, hwait, hplace]

lemma Invariant.alloc {size : ℕ} {w : World} (h : Invariant size w) (hmax : size ≤ 2 ^ 31 + 1)
    (hlive : w.live = none) (service : ℕ → ℕ) {n : ℕ} (hn : n ≤ w.ring.size) {ring : Ring} {o : ℕ}
    (halloc : RingBuffer.alloc service w.ring n = some (ring, o)) :
    Invariant size
      { w with ring := ring, live := some ⟨sub32 o ring.baseOffset, max n 1⟩ } := by
  obtain ⟨r', gone, padding, o', f, hret, -, hpad, halloc', hcons⟩ :=
    h.consistent.alloc (h.size_eq ▸ hmax) (h.idle hlive) service hn
  rw [halloc', Option.some.injEq, Prod.mk.injEq] at halloc
  obtain ⟨rfl, rfl⟩ := halloc
  have hr := h.retires hret
  have ho : sub32 (add32 o' w.ring.baseOffset) r'.baseOffset = o' := by
    rw [hret.base_eq]
    refine sub32_add32 ?_ h.base_lt
    have := hcons.tiles.mem_bounds hcons.free_lt.le (b := ⟨o', max n 1, 0, .inUse⟩) (by simp)
    have := hcons.size_lt
    dsimp only at *
    omega
  have hidle : ∀ b ∈ r'.blocks ++ padding, b.state ≠ .inUse := by
    intro b hb
    rcases List.mem_append.mp hb with hb | hb
    · exact hr.idle hlive b hb
    · simp [(hpad b hb).1]
  refine ⟨hr.size_eq, hr.base_lt, hcons, by simp, ?_, ?_, ?_, ?_⟩
  · simp only [Option.mem_some_iff, forall_eq']
    exact ⟨r'.blocks ++ padding, by simp [ho], hidle⟩
  · intro b hb hstate
    simp only [List.mem_append, List.mem_singleton] at hb
    rcases hb with (hb | hb) | rfl
    · exact hr.padding b hb hstate
    · exact (hpad b hb).2
    · rfl
  · intro b hb hstate
    simp only [List.mem_append, List.mem_singleton] at hb
    rcases hb with (hb | hb) | rfl
    · exact hr.round b hb hstate
    · simp [(hpad b hb).1] at hstate
    · simp at hstate
  · intro g hg
    obtain ⟨hle, hor⟩ := hr.fenced g hg
    refine ⟨hle, hor.imp_right fun hblock => ?_⟩
    simp only [List.append_assoc]
    exact List.mem_append_left _ hblock

/-- The search from the back finds the last block first. -/
lemma freePendingToken_last {r : Ring} {older : List Block} {o n t : ℕ}
    (hblocks : r.blocks = older ++ [⟨o, n, 0, .inUse⟩]) (ho : o < 2 ^ 32)
    (hbase : r.baseOffset < 2 ^ 32) :
    freePendingToken r (add32 o r.baseOffset) t =
      some { r with blocks := older ++ [⟨o, n, t, .freePendingToken⟩] } := by
  unfold freePendingToken
  rw [sub32_add32 ho hbase, hblocks]
  simp [List.span, List.span.loop]

lemma Invariant.freePendingToken {size : ℕ} {w : World} (h : Invariant size w) {r : Region}
    (hlive : w.live = some r) {u : ℕ} (hu : u ≤ w.ring.tokens.issued)
    (hround : u / tokenModulus = w.ring.tokens.issued / tokenModulus) {ring : Ring}
    (hfree : RingBuffer.freePendingToken w.ring (add32 r.offset w.ring.baseOffset)
      (u % tokenModulus) = some ring) :
    Invariant size ⟨ring, none, ⟨r, u⟩ :: w.fences⟩ := by
  obtain ⟨older, hblocks, holder⟩ := h.busy r hlive
  have hcons := h.consistent
  have hoff : r.offset < 2 ^ 32 := by
    have := hcons.tiles.mem_bounds hcons.free_lt.le (b := ⟨r.offset, r.size, 0, .inUse⟩)
      (by simp [hblocks])
    have := hcons.size_lt
    dsimp only at *
    omega
  have hring : ring = { w.ring with
      blocks := older ++ [⟨r.offset, r.size, u % tokenModulus, .freePendingToken⟩] } := by
    rw [freePendingToken_last hblocks hoff h.base_lt, Option.some.injEq] at hfree
    exact hfree.symm
  subst hring
  have hkeep : ∀ b ∈ w.ring.blocks, b.state ≠ .inUse → b ∈ older := by
    intro b hb hstate
    rw [hblocks] at hb
    rcases List.mem_append.mp hb with hb | hb
    · exact hb
    · exact absurd (by rw [List.mem_singleton.mp hb]) hstate
  have hold : ∀ b ∈ older, b ∈ w.ring.blocks := by
    intro b hb
    simp [hblocks, hb]
  obtain ⟨hsize, hf, hi, hnonzero, htiles, hempty⟩ := hcons
  rw [hblocks] at hnonzero htiles
  refine ⟨h.size_eq, h.base_lt, ⟨hsize, hf, hi, ?_, htiles.replace_last rfl rfl, by simp⟩, ?_,
    by simp,
    ?_, ?_, ?_⟩
  · intro b hb
    rcases List.mem_append.mp hb with hb | hb
    · exact hnonzero b (List.mem_append_left _ hb)
    · rw [List.mem_singleton.mp hb]
      exact hnonzero ⟨r.offset, r.size, 0, .inUse⟩ (by simp)
  · intro _ b hb
    rcases List.mem_append.mp hb with hb | hb
    · exact holder b hb
    · simp [List.mem_singleton.mp hb]
  · intro b hb hstate
    rcases List.mem_append.mp hb with hb | hb
    · exact h.padding b (hold b hb) hstate
    · simp [List.mem_singleton.mp hb] at hstate
  · intro b hb hstate
    rcases List.mem_append.mp hb with hb | hb
    · exact h.round b (hold b hb) hstate
    · rw [List.mem_singleton.mp hb]
      simp only [Tokens.token]
      unfold tokenModulus at *
      omega
  · intro f hf
    rcases List.mem_cons.mp hf with rfl | hf
    · exact ⟨hu, .inr (by simp [fenceBlock])⟩
    · obtain ⟨hle, hor⟩ := h.fenced f hf
      refine ⟨hle, hor.imp_right fun hblock => List.mem_append_left _ ?_⟩
      exact hkeep _ hblock (by simp [fenceBlock])

/-- A token inserted without wrapping raises the counter. -/
lemma Invariant.insertToken {size : ℕ} {w : World} (h : Invariant size w)
    (hwrap : (w.ring.tokens.issued + 1) % tokenModulus = 0 →
      ∀ b ∈ w.ring.blocks, b.state ≠ .freePendingToken) :
    Invariant size { w with ring := { w.ring with tokens := w.ring.tokens.insertToken } } := by
  refine ⟨h.size_eq, h.base_lt, h.consistent, h.idle, h.busy, h.padding, ?_, fun f hf => ?_⟩
  · intro b hb hstate
    have hround := h.round b hb hstate
    by_cases hzero : (w.ring.tokens.issued + 1) % tokenModulus = 0
    · exact absurd hstate (hwrap hzero b hb)
    · refine hround.trans ?_
      simp only [Tokens.token, Tokens.insertToken, hzero, dif_neg, not_false_eq_true]
      unfold tokenModulus at *
      omega
  · obtain ⟨hle, hor⟩ := h.fenced f hf
    exact ⟨hle.trans (Tokens.issued_le_insertToken _),
      hor.imp_left fun hr => hr.trans (Tokens.read_le_insertToken _)⟩

/-- What one call preserves, up to `2 ^ 31 + 1` bytes. -/
lemma Invariant.step {size : ℕ} (hmax : size ≤ 2 ^ 31 + 1) {w w' : World} {e : Event}
    (h : Invariant size w) (hs : SafeStep w e w') : Invariant size w' := by
  obtain ⟨hok, hs⟩ := hs
  cases hs with
  | alloc n service ring o hlive hn halloc => exact h.alloc hmax hlive service hn halloc
  | freePendingToken r u ring hlive hu hfree => exact h.freePendingToken hlive hu hok hfree
  | getLargestFreeSizeNoWaiting service =>
    obtain ⟨gone, hret, -⟩ := h.consistent.retirePassed service
    exact h.retires hret
  | insertToken => exact h.insertToken hok
  | advance r =>
    refine ⟨h.size_eq, h.base_lt, h.consistent, h.idle, h.busy, h.padding, h.round, fun f hf => ?_⟩
    obtain ⟨hle, hor⟩ := h.fenced f hf
    exact ⟨hle, hor.imp_left fun hr => hr.trans (Tokens.read_le_advance _ _)⟩

/-- Without room `Alloc` blocks on the oldest token, which is of the current
round. -/
lemma Invariant.read_lt_waitForRoom {size : ℕ} {w : World} (h : Invariant size w)
    (hlive : w.live = none) (service : ℕ → ℕ) {n : ℕ} (hn : n ≤ w.ring.size)
    (hroom : ¬ n ≤ (getLargestFreeSizeNoWaiting service w.ring).2) {r' : Ring}
    (hwait : waitForRoom service n w.ring = some r') :
    w.ring.tokens.read < r'.tokens.read := by
  obtain ⟨gone, hret, htokens, hhead⟩ := h.consistent.retirePassed service
  have hmem : ∀ b ∈ (getLargestFreeSizeNoWaiting service w.ring).1.blocks, b ∈ w.ring.blocks :=
    fun b hb => hret.blocks_eq ▸ List.mem_append_right _ hb
  rw [waitForRoom, if_neg hroom] at hwait
  split at hwait
  · next r₁ hold =>
    obtain ⟨b, rest, hcons⟩ := List.exists_cons_of_ne_nil (freeOldestBlock_blocks hold).2
    have hb := hmem b (by simp [hcons])
    have hstate := h.idle hlive b hb
    have hunread : w.ring.tokens.lastTokenRead < b.token := by
      refine (hhead b ?_).resolve_right hstate
      rw [show (retirePassed service w.ring.tokens.lastTokenRead w.ring).blocks = b :: rest
        from hcons]
      rfl
    have hpend : b.state = .freePendingToken := by
      cases hs : b.state with
      | inUse => exact absurd hs hstate
      | padding =>
        have := h.padding b hb hs
        omega
      | freePendingToken => rfl
    obtain ⟨r₂, hold', hret₁, htokens₁⟩ :=
      hret.consistent.freeOldestBlock service hcons hstate
    obtain rfl : r₁ = r₂ := Option.some.inj (hold.symm.trans hold')
    have hboth := hret.trans hret₁
    obtain ⟨r₃, gone₃, hwait', hret₃, -⟩ := hboth.consistent.waitForRoom service
      (hboth.size_eq ▸ hn) fun c hc => h.idle hlive c
        (hboth.blocks_eq ▸ List.mem_append_right _ hc)
    obtain rfl : r' = r₃ := Option.some.inj (hwait.symm.trans hwait')
    have hblocked := Tokens.read_lt_waitForToken service (h.round b hb hpend) hunread
    rw [if_pos hpend, htokens] at htokens₁
    rw [← htokens₁] at hblocked
    exact hblocked.trans_le hret₃.read_le
  · simp at hwait

lemma Invariant.returnsWithoutWaiting {size : ℕ} {w : World} (h : Invariant size w)
    (hmax : size ≤ 2 ^ 31 + 1) (hlive : w.live = none) (service : ℕ → ℕ) {n : ℕ}
    (hn : n ≤ w.ring.size) :
    ReturnsWithoutWaiting service w.ring n ↔
      max n 1 ≤ (getLargestFreeSizeNoWaiting service w.ring).2 := by
  obtain ⟨r', gone, padding, o, f, hret, hwait, -, halloc, -⟩ :=
    h.consistent.alloc (h.size_eq ▸ hmax) (h.idle hlive) service hn
  obtain ⟨gone', hret', htokens, hhead⟩ := h.consistent.retirePassed service
  have hiff : ReturnsWithoutWaiting service w.ring n ↔ r'.tokens = w.ring.tokens := by
    simp [ReturnsWithoutWaiting, halloc]
  rw [hiff]
  constructor
  · intro hsame
    by_contra hroom
    have hpos := h.consistent.inUse_lt
    have hlt := h.read_lt_waitForRoom hlive service (by omega) hroom hwait
    rw [hsame] at hlt
    exact lt_irrefl _ hlt
  · intro hroom
    rw [waitForRoom, if_pos hroom, Option.some.injEq] at hwait
    rw [← hwait]
    exact htokens

lemma Invariant.sound {size : ℕ} {w : World} (h : Invariant size w) (hmax : size ≤ 2 ^ 31 + 1) :
    Sound w := by
  have hcons := h.consistent
  have hbounds : ∀ b ∈ w.ring.blocks, b.offset + b.size ≤ w.ring.size :=
    fun b hb => hcons.tiles.mem_bounds hcons.free_lt.le hb
  refine ⟨?_, ?_, hcons.tiles, ?_, ?_⟩
  · intro r hr
    obtain ⟨older, hblocks, -⟩ := h.busy r hr
    exact hbounds ⟨r.offset, r.size, 0, .inUse⟩ (by simp [hblocks])
  · intro r hr f hf hunread
    obtain ⟨older, hblocks, -⟩ := h.busy r hr
    have hpair := hcons.tiles.pairwise
    rw [hblocks] at hpair
    obtain ⟨-, hread | hblock⟩ := h.fenced f hf
    · omega
    · rw [hblocks] at hblock
      have hold : fenceBlock f ∈ older := by
        rcases List.mem_append.mp hblock with hmem | hmem
        · exact hmem
        · simp [fenceBlock] at hmem
      exact ((List.pairwise_append.mp hpair).2.2 _ hold _ (List.mem_singleton.mpr rfl)).symm
  · intro hlive n hn service
    obtain ⟨r', gone, padding, o, f, -, -, -, halloc, -⟩ :=
      hcons.alloc (h.size_eq ▸ hmax) (h.idle hlive) service hn
    simp [halloc]
  · intro hlive service
    obtain ⟨gone, hret, -⟩ := hcons.retirePassed service
    refine ⟨hret.size_eq ▸ hret.consistent.largestFree_le.1, fun n hn => ?_⟩
    exact h.returnsWithoutWaiting hmax hlive service hn

/-- A ring of no bytes cannot serve the byte that a request of 0 takes. -/
lemma not_sound_of_size_zero (baseOffset : UInt32) (tokens : Tokens) :
    ¬ Sound (World.initial baseOffset 0 tokens) := by
  intro h
  have hsome := h.succeeds rfl 0 (Nat.zero_le _) id
  have hretire := retirePassed_nil id tokens.lastTokenRead
    (show (Ring.initial baseOffset 0 tokens).blocks = [] from rfl)
  have hgetLargest : getLargestFreeSizeNoWaiting id (Ring.initial baseOffset 0 tokens) =
      (Ring.initial baseOffset 0 tokens, 0) := by
    unfold getLargestFreeSizeNoWaiting
    rw [show (Ring.initial baseOffset 0 tokens).tokens = tokens from rfl, hretire]
    rfl
  have hwait : waitForRoom id 1 (Ring.initial baseOffset 0 tokens) = none := by
    rw [waitForRoom, hgetLargest, if_neg (by simp)]
    rfl
  have hnone : alloc id (Ring.initial baseOffset 0 tokens) 0 = none := by
    unfold alloc
    simp [hwait]
  simp [World.initial, hnone] at hsome

/-- `Alloc` with enough room, as an equation. -/
lemma alloc_of_room {service : ℕ → ℕ} {r r' : Ring} {n : ℕ} (hpos : 0 < n) (hn : n ≤ r.size)
    (hlast : ∀ b ∈ r.blocks.getLast?, b.state ≠ .inUse)
    (hretire : retirePassed service r.tokens.lastTokenRead r = r') (hroom : n ≤ largestFree r') :
    alloc service r n = some ((place r' n).1, add32 (place r' n).2 r.baseOffset) := by
  have hmax : max n 1 = n := by omega
  have hget : getLargestFreeSizeNoWaiting service r = (r', largestFree r') := by
    unfold getLargestFreeSizeNoWaiting
    rw [hretire]
  have hany : r.blocks.getLast?.any (fun b => b.state = .inUse) = false := by
    rw [Option.any_eq_false]
    intro b hb
    simpa using hlast b hb
  have hwait : waitForRoom service n r = some r' := by
    rw [waitForRoom, hget, if_pos hroom]
  unfold alloc
  simp [not_lt.mpr hn, hany, hmax, hwait]

/-- The first request of the overflow run takes all but two bytes. -/
lemma alloc_all_but_two {base size : ℕ} (tokens : Tokens) (hmin : 2 < size)
    (hsize : size < 2 ^ 32) :
    alloc id ⟨base, size, [], 0, 0, tokens⟩ (size - 2) =
      some (⟨base, size, [⟨0, size - 2, 0, .inUse⟩], size - 2, 0, tokens⟩, add32 0 base) := by
  have hpos : 0 < size - 2 := by omega
  rw [alloc_of_room hpos (Nat.sub_le _ _) (by simp) (retirePassed_nil _ _ rfl)
    (by simp [largestFree]), place_of_fit hsize (by simp)]
  have hend : size - 2 ≠ size := by omega
  simp [hend]

/-- The second one takes one of the two bytes at the end. -/
lemma alloc_last_but_one {base size token : ℕ} (tokens : Tokens) (hmin : 2 < size)
    (hsize : size < 2 ^ 32) (hunread : tokens.lastTokenRead < token) :
    alloc id ⟨base, size, [⟨0, size - 2, token, .freePendingToken⟩], size - 2, 0, tokens⟩ 1 =
      some (⟨base, size, [⟨0, size - 2, token, .freePendingToken⟩, ⟨size - 2, 1, 0, .inUse⟩],
        size - 1, 0, tokens⟩, add32 (size - 2) base) := by
  have hfree : sub32 size (size - 2) = 2 := by
    rw [sub32_of_le (by omega) hsize]
    omega
  have hroom : 1 ≤ largestFree
      ⟨base, size, [⟨0, size - 2, token, .freePendingToken⟩], size - 2, 0, tokens⟩ := by
    have h0 : size - 2 ≠ 0 := by omega
    have h1 : 0 < size - 2 := by omega
    simp only [largestFree, h0, h1, if_false, if_true, hfree]
    omega
  rw [alloc_of_room Nat.one_pos (by dsimp only; omega) (by simp)
    (retirePassed_stop _ rfl (.inl hunread)) hroom,
    place_of_fit hsize (by dsimp only; omega)]
  have hnext : size - 2 + 1 = size - 1 := by omega
  have hend : size - 1 ≠ size := by omega
  simp [hnext, hend]

/-- In a ring of more than `2 ^ 31 + 1` bytes the third request does not see the
end of the buffer: the sum with `free_offset_` wraps, no padding is added, and
the block starts at the last byte. -/
lemma alloc_past_end {base size t₁ t₂ : ℕ} (tokens : Tokens) (hmin : 2 ^ 31 + 2 ≤ size)
    (hsize : size < 2 ^ 32) (hread : t₁ ≤ tokens.lastTokenRead)
    (hunread : tokens.lastTokenRead < t₂) :
    alloc id ⟨base, size, [⟨0, size - 2, t₁, .freePendingToken⟩,
        ⟨size - 2, 1, t₂, .freePendingToken⟩], size - 1, 0, tokens⟩ (size - 2) =
      some (⟨base, size, [⟨size - 2, 1, t₂, .freePendingToken⟩,
        ⟨size - 1, size - 2, 0, .inUse⟩], 2 * size - 3 - 2 ^ 32, size - 2, tokens⟩,
        add32 (size - 1) base) := by
  have hpast : offsetsPast size 0 (size - 1) (size - 2) = (size - 2, size - 1) := by
    have hadd : add32 0 (size - 2) = size - 2 := by
      rw [add32_of_lt (by omega), Nat.zero_add]
    have h1 : size - 2 ≠ size := by omega
    have h2 : size - 2 ≠ size - 1 := by omega
    simp [offsetsPast, hadd, h1, h2]
  have hfree : freeOldestBlock id ⟨base, size, [⟨0, size - 2, t₁, .freePendingToken⟩,
      ⟨size - 2, 1, t₂, .freePendingToken⟩], size - 1, 0, tokens⟩ =
      some ⟨base, size, [⟨size - 2, 1, t₂, .freePendingToken⟩], size - 1, size - 2, tokens⟩ := by
    simp [freeOldestBlock, hpast, Tokens.waitForToken_of_le id hread]
  have hretire : retirePassed id tokens.lastTokenRead ⟨base, size,
      [⟨0, size - 2, t₁, .freePendingToken⟩, ⟨size - 2, 1, t₂, .freePendingToken⟩],
      size - 1, 0, tokens⟩ =
      ⟨base, size, [⟨size - 2, 1, t₂, .freePendingToken⟩], size - 1, size - 2, tokens⟩ := by
    rw [retirePassed_step rfl (by simpa using hread) hfree]
    exact retirePassed_stop _ rfl (.inl hunread)
  have hroom : size - 2 ≤ largestFree
      ⟨base, size, [⟨size - 2, 1, t₂, .freePendingToken⟩], size - 1, size - 2, tokens⟩ := by
    have h1 : size - 1 ≠ size - 2 := by omega
    have h2 : size - 2 < size - 1 := by omega
    simp only [largestFree, h1, h2, if_false, if_true]
    exact le_max_right _ _
  have hwrap : add32 (size - 2) (size - 1) = 2 * size - 3 - 2 ^ 32 := by
    unfold add32
    omega
  have hwrap' : add32 (size - 1) (size - 2) = 2 * size - 3 - 2 ^ 32 := by
    unfold add32
    omega
  have hnopad : ¬ size < 2 * size - 3 - 2 ^ 32 := by omega
  have hend : 2 * size - 3 - 2 ^ 32 ≠ size := by omega
  have hpos : 0 < size - 2 := by omega
  rw [alloc_of_room hpos (Nat.sub_le _ _) (by simp) hretire hroom]
  simp only [place, hwrap, hwrap', hnopad, hend, if_false, List.cons_append, List.nil_append]

lemma Step.alloc_at {w : World} {n o : ℕ} {ring : Ring} (hlive : w.live = none)
    (hpos : 0 < n) (hn : n ≤ w.ring.size)
    (h : RingBuffer.alloc id w.ring n = some (ring, add32 o ring.baseOffset)) (ho : o < 2 ^ 32)
    (hbase : ring.baseOffset < 2 ^ 32) :
    Step w (.alloc n id) { w with ring := ring, live := some ⟨o, n⟩ } := by
  have hstep := Step.alloc w n id ring _ hlive hn h
  rwa [sub32_add32 ho hbase, max_eq_left (show 1 ≤ n from hpos)] at hstep

lemma Step.free_at (w : World) (older : List Block) {o n : ℕ} (u : ℕ) (hlive : w.live = some ⟨o, n⟩)
    (hblocks : w.ring.blocks = older ++ [⟨o, n, 0, .inUse⟩]) (hu : u ≤ w.ring.tokens.issued)
    (ho : o < 2 ^ 32) (hbase : w.ring.baseOffset < 2 ^ 32) :
    Step w (.freePendingToken u)
      ⟨{ w.ring with blocks := older ++ [⟨o, n, u % tokenModulus, .freePendingToken⟩] }, none,
        ⟨⟨o, n⟩, u⟩ :: w.fences⟩ :=
  .freePendingToken w ⟨o, n⟩ u _ hlive hu (freePendingToken_last hblocks ho hbase)

/-- The overflow run: two requests, each freed with its own token, the first
token is read, and the third request is handed memory past the end. -/
lemma exists_unsound_run (baseOffset size : UInt32) (hmin : 2 ^ 31 + 2 ≤ size.toNat) :
    ∃ es w, Reaches SafeStep (World.initial baseOffset size Tokens.initial) es w ∧ ¬ Sound w := by
  have hsize := size.toNat_lt
  have hbase := baseOffset.toNat_lt
  unfold World.initial Ring.initial
  generalize size.toNat = s at hmin hsize
  generalize baseOffset.toNat = base at hbase
  have hpos : 0 < s - 2 := by omega
  have hs : s - 2 ≤ s := by omega
  have h1 := Step.alloc_at (w := ⟨⟨base, s, [], 0, 0, Tokens.initial⟩, none, []⟩) rfl hpos hs
    (alloc_all_but_two Tokens.initial (by omega) hsize) (by omega) hbase
  have h2 := Step.insertToken
    ⟨⟨base, s, [⟨0, s - 2, 0, .inUse⟩], s - 2, 0, Tokens.initial⟩, some ⟨0, s - 2⟩, []⟩
  have h3 := Step.free_at
    ⟨⟨base, s, [⟨0, s - 2, 0, .inUse⟩], s - 2, 0, Tokens.initial.insertToken⟩,
      some ⟨0, s - 2⟩, []⟩ [] 1 rfl rfl (show 1 ≤ Tokens.initial.insertToken.issued by decide)
    (by omega) hbase
  have h4 := Step.alloc_at
    (w := ⟨⟨base, s, [⟨0, s - 2, 1, .freePendingToken⟩], s - 2, 0, Tokens.initial.insertToken⟩,
      none, [⟨⟨0, s - 2⟩, 1⟩]⟩) rfl Nat.one_pos (by dsimp only; omega)
    (alloc_last_but_one Tokens.initial.insertToken (by omega) hsize (by decide)) (by omega) hbase
  have h5 := Step.insertToken
    ⟨⟨base, s, [⟨0, s - 2, 1, .freePendingToken⟩, ⟨s - 2, 1, 0, .inUse⟩], s - 1, 0,
      Tokens.initial.insertToken⟩, some ⟨s - 2, 1⟩, [⟨⟨0, s - 2⟩, 1⟩]⟩
  have h6 := Step.free_at
    ⟨⟨base, s, [⟨0, s - 2, 1, .freePendingToken⟩, ⟨s - 2, 1, 0, .inUse⟩], s - 1, 0,
      Tokens.initial.insertToken.insertToken⟩, some ⟨s - 2, 1⟩, [⟨⟨0, s - 2⟩, 1⟩]⟩
    [⟨0, s - 2, 1, .freePendingToken⟩] 2 rfl rfl
    (show 2 ≤ Tokens.initial.insertToken.insertToken.issued by decide) (by omega) hbase
  have h7 := Step.advance
    ⟨⟨base, s, [⟨0, s - 2, 1, .freePendingToken⟩, ⟨s - 2, 1, 2, .freePendingToken⟩], s - 1, 0,
      Tokens.initial.insertToken.insertToken⟩, none, [⟨⟨s - 2, 1⟩, 2⟩, ⟨⟨0, s - 2⟩, 1⟩]⟩ 1
  have h8 := Step.alloc_at
    (w := ⟨⟨base, s, [⟨0, s - 2, 1, .freePendingToken⟩, ⟨s - 2, 1, 2, .freePendingToken⟩], s - 1,
      0, Tokens.initial.insertToken.insertToken.advance 1⟩, none,
      [⟨⟨s - 2, 1⟩, 2⟩, ⟨⟨0, s - 2⟩, 1⟩]⟩) rfl hpos hs
    (alloc_past_end _ hmin hsize (by decide) (by decide)) (by omega) hbase
  refine ⟨_, _, .snoc (.snoc (.snoc (.snoc (.snoc (.snoc (.snoc (.snoc .refl ⟨?_, h1⟩)
    ⟨?_, h2⟩) ⟨?_, h3⟩) ⟨?_, h4⟩) ⟨?_, h5⟩) ⟨?_, h6⟩) ⟨?_, h7⟩) ⟨?_, h8⟩, ?_⟩
  · trivial
  · exact fun hzero => absurd hzero
      (by decide : (Tokens.initial.issued + 1) % tokenModulus ≠ 0)
  · exact (by decide : 1 / tokenModulus = Tokens.initial.insertToken.issued / tokenModulus)
  · trivial
  · exact fun hzero => absurd hzero
      (by decide : (Tokens.initial.insertToken.issued + 1) % tokenModulus ≠ 0)
  · exact (by decide : 2 / tokenModulus =
      Tokens.initial.insertToken.insertToken.issued / tokenModulus)
  · trivial
  · trivial
  · intro hsound
    have := hsound.inside _ rfl
    dsimp only at this
    omega

end Chromium.RingBuffer
