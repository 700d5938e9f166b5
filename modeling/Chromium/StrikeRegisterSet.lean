import Mathlib.Data.Finset.Card
import Chromium.StrikeRegisterRuns

/-!
# The strike register as a set

The nodes of a register in use are a crit-bit tree, and the register is the set of the values in
its leaves. A full register gives up the value in its leftmost leaf for a new one.
-/
namespace Chromium.StrikeRegister

open CritBit CritBit.BitTree Runs

/-- The register is the memory of a crit-bit tree of the values, or of nothing. In `Memory` each
inner node has its two children and its bit in memory, the bits increase downwards and agree with
all leaves below, and the nodes of the tree and the free lists partition both arrays. -/
inductive Represents (s : State) : Finset ExternalNode → Prop
  | empty (h : Vacant s) : Represents s ∅
  | tree (t : Entries) (h : Memory s [] [] t) (hdistinct : t.keys.Nodup)
      (hcount : t.inner.length + 1 = (labels t).length) : Represents s t.keys.toFinset

variable {s s' : State} {keys : List ExternalNode} {stored : Finset ExternalNode}

lemma Holds.represents (h : Holds s keys) : keys.Nodup ∧ Represents s keys.toFinset := by
  rcases h with ⟨hvacant, rfl⟩ | ⟨t, hmemory, rfl⟩
  · exact ⟨List.nodup_nil, .empty hvacant⟩
  · have hnodup := hmemory.wf.keys_nodup
    refine ⟨hnodup, .tree t hmemory hnodup ?_⟩
    rw [labels, List.length_map, leaves_length]

/-- The free list of the external nodes is empty when there are as many values as nodes. -/
lemma Holds.length_iff (h : Holds s keys) :
    keys.length ≤ s.maxEntries ∧ (s.externalNodeFreeHead = kNil ↔ keys.length = s.maxEntries) := by
  rcases h with ⟨hvacant, rfl⟩ | ⟨t, hmemory, rfl⟩
  · have htwo := hvacant.two_le
    refine ⟨Nat.zero_le _, iff_of_false hvacant.free_ne_kNil ?_⟩
    rw [List.length_nil]
    omega
  · have hiff := hmemory.external.head_eq_nil_iff (kNil_notMem_indices hmemory.lt)
    rw [length_indices, List.nil_append, labels, List.length_map] at hiff
    rw [BitTree.keys, List.length_map]
    exact ⟨hmemory.length_le, hiff⟩

/-- What `Insert` does to the set: a nonce that passes the tests is turned down exactly if its
value is stored, and otherwise joins the values, of which a full register loses one. -/
structure InsertsInto (s : State) (stored : Finset ExternalNode) (nonce : Nonce) (now : Word)
    (s' : State) (ok : Bool) (stored' : Finset ExternalNode) : Prop where
  represents : Represents s' stored'
  turned_down : s.admits nonce now = true → (ok = false ↔ s.value nonce ∈ stored)
  unchanged : ok = false → s' = s ∧ stored' = stored
  added : ok = true → (stored.card < s.maxEntries ∧ stored' = insert (s.value nonce) stored) ∨
    (stored.card = s.maxEntries ∧
      ∃ old ∈ stored, stored' = insert (s.value nonce) (stored.erase old))

lemma toFinset_replaces {v : ExternalNode} {keys' : List ExternalNode} (h : Holds s keys)
    (hreplaces : Memory.Replaces s s' v keys keys') :
    (keys.toFinset.card < s.maxEntries ∧ keys'.toFinset = insert v keys.toFinset) ∨
      (keys.toFinset.card = s.maxEntries ∧
        ∃ old ∈ keys.toFinset, keys'.toFinset = insert v (keys.toFinset.erase old)) := by
  have hnodup := h.represents.1
  obtain ⟨hle, hfull⟩ := h.length_iff
  rw [List.toFinset_card_of_nodup hnodup]
  rcases hreplaces with ⟨hroom, -, hperm⟩ | ⟨hfree, old, rest, -, -, rfl, hperm⟩
  · rw [Ne, hfull] at hroom
    refine .inl ⟨lt_of_le_of_ne hle hroom, ?_⟩
    rw [List.toFinset_eq_of_perm _ _ hperm, List.toFinset_cons]
  · refine .inr ⟨hfull.mp hfree, old, by simp, ?_⟩
    have hnot : old ∉ rest.toFinset := by
      rw [List.mem_toFinset]
      exact (List.nodup_cons.mp hnodup).1
    rw [List.toFinset_eq_of_perm _ _ hperm, List.toFinset_cons, List.toFinset_cons,
      Finset.erase_insert hnot]

lemma Holds.insertsInto (h : Holds s keys) (nonce : Nonce) (now : Word) :
    ∃ s' ok keys', s.insert nonce now = some (s', ok) ∧ Holds s' keys' ∧
      InsertsInto s keys.toFinset nonce now s' ok keys'.toFinset := by
  obtain ⟨s', ok, keys', hinsert, -, hholds, hinserts⟩ := h.inserts nonce now
  refine ⟨s', ok, keys', hinsert, hholds, hholds.represents.2, ?_, ?_, ?_⟩
  · intro hadmits
    rw [List.mem_toFinset]
    cases hinserts with
    | rejected hrejected =>
      rw [hadmits] at hrejected
      cases hrejected
    | found _ hv => exact iff_of_true rfl hv
    | added _ hv _ => exact iff_of_false Bool.true_eq_false.mp hv
  · rintro rfl
    cases hinserts with
    | rejected _ => exact ⟨rfl, rfl⟩
    | found _ _ => exact ⟨rfl, rfl⟩
  · rintro rfl
    cases hinserts with
    | added _ _ hreplaces => exact toFinset_replaces h hreplaces

/-- One call of `Insert`, whatever it returns. -/
def Inserted (s : State) (call : Nonce × Word) (s' : State) : Prop :=
  ∃ ok, s.insert call.1 call.2 = some (s', ok)

lemma Represents.exists_holds (h : Represents s stored) :
    ∃ keys, Holds s keys ∧ stored = keys.toFinset := by
  cases h with
  | empty hvacant => exact ⟨[], .inl ⟨hvacant, rfl⟩, rfl⟩
  | tree t hmemory _ _ => exact ⟨t.keys, .inr ⟨t, hmemory, rfl⟩, rfl⟩

/-- After any calls of `Insert` the register represents a set, and each further call returns and
works on this set. -/
theorem strikeRegister_represents_set (ints : Word → InternalNode) (exts : Word → ExternalNode)
    (maxEntries : ℕ) (now window : Word) (orbit : Fin 8 → Byte) (startup : StartupType)
    (s s' : State) (calls : List (Nonce × Word))
    (hcreate : State.create ints exts maxEntries now window orbit startup = some s)
    (hrun : Reaches Inserted s calls s') :
    (∃ stored, Represents s' stored) ∧
      ∀ stored, Represents s' stored → ∀ nonce now, ∃ s'' ok stored',
        s'.insert nonce now = some (s'', ok) ∧ InsertsInto s' stored nonce now s'' ok stored' := by
  have hholds : ∃ keys, Holds s' keys := by
    refine hrun.invariant (fun s => ∃ keys, Holds s keys) ⟨[], .inl ⟨vacant_create hcreate, rfl⟩⟩ ?_
    rintro t call u ⟨keys, hkeys⟩ ⟨ok, hinsert⟩
    obtain ⟨u', ok', keys', hinsert', -, hholds, -⟩ := hkeys.inserts call.1 call.2
    rw [hinsert'] at hinsert
    cases hinsert
    exact ⟨keys', hholds⟩
  constructor
  · obtain ⟨keys, hkeys⟩ := hholds
    exact ⟨keys.toFinset, hkeys.represents.2⟩
  · intro stored hstored nonce now
    obtain ⟨keys, hkeys, rfl⟩ := hstored.exists_holds
    obtain ⟨s'', ok, keys', hinsert, -, hinto⟩ := hkeys.insertsInto nonce now
    exact ⟨s'', ok, keys'.toFinset, hinsert, hinto⟩

lemma inserted_of_map (s : State) (call : Nonce × Word) (s' : State)
    (h : (s.insert call.1 call.2).map Prod.fst = some s') : Inserted s call s' := by
  obtain ⟨⟨u, ok⟩, hinsert, rfl⟩ := Option.map_eq_some_iff.mp h
  exact ⟨ok, hinsert⟩

/-- Three nonces in a register for two, of which the first is given up. -/
theorem strikeRegister_represents_set_full :
    ∃ s s', smallRegister .noStartupPeriodNeeded = some s ∧
      Reaches Inserted s [(nonceAt 0x04000004 1, 0x04000004), (nonceAt 0x04000004 2, 0x04000004),
        (nonceAt 0x04000004 3, 0x04000004)] s' ∧
      (∃ stored, Represents s' stored) ∧
        ∀ stored, Represents s' stored → ∀ nonce now, ∃ s'' ok stored',
          s'.insert nonce now = some (s'', ok) ∧
            InsertsInto s' stored nonce now s'' ok stored' := by
  have h : ((smallRegister .noStartupPeriodNeeded).bind fun s =>
      [(nonceAt 0x04000004 1, 0x04000004), (nonceAt 0x04000004 2, 0x04000004),
        (nonceAt 0x04000004 3, 0x04000004)].foldlM
          (fun s call => (s.insert call.1 call.2).map Prod.fst) s).isSome = true := by
    decide +kernel
  obtain ⟨s', hs'⟩ := Option.isSome_iff_exists.mp h
  obtain ⟨s, hs, hfold⟩ := Option.bind_eq_some_iff.mp hs'
  have hrun := Reaches.of_foldlM inserted_of_map hfold
  exact ⟨s, s', hs, hrun, strikeRegister_represents_set (fun _ => ⟨0, 0⟩) (fun _ _ => 0) 2
    63115200 1000 (fun _ => 0) _ s s' _ hs hrun⟩

end Chromium.StrikeRegister
