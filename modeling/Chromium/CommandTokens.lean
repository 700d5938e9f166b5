import Chromium.Tiling

/-!
# The token counter of the command buffer helper

`CommandBufferHelper::InsertToken` puts a `SetToken` command carrying the next
31-bit value into the command stream, and `WaitForToken` blocks until the
service has executed it. The 31-bit values repeat after `2 ^ 31` insertions, and
at that moment `InsertToken` calls `Finish`, so all earlier tokens are read.

The state below keeps the unwrapped numbers of the last token inserted and of
the last token read. The 31-bit values the code stores and compares are their
remainders.
-/
namespace Chromium.CommandTokens

/-- The modulus of `(token_ + 1) & 0x7FFFFFFF`. -/
def tokenModulus : ℕ := 2 ^ 31

/-- Unwrapped token numbers. `synced` is the effect of the `Finish` call made
when the counter wraps: nothing of an earlier round is still unread. -/
structure Tokens where
  issued : ℕ
  read : ℕ
  read_le : read ≤ issued
  synced : issued / tokenModulus * tokenModulus ≤ read

/-- `token_`, the value most recently inserted. -/
def Tokens.token (t : Tokens) : ℕ := t.issued % tokenModulus

/-- `last_token_read()`. -/
def Tokens.lastTokenRead (t : Tokens) : ℕ := t.read % tokenModulus

/-- A region freed pending the token with unwrapped number `token`. -/
structure Fence where
  region : Tiling.Region
  token : ℕ

/-- Before the first token both counters are zero. -/
def Tokens.initial : Tokens := ⟨0, 0, le_rfl, by simp⟩

/-- The last token read belongs to the same round as the last one inserted. -/
lemma Tokens.round_eq (t : Tokens) : t.read / tokenModulus = t.issued / tokenModulus := by
  have hs := t.synced
  have hr := t.read_le
  unfold tokenModulus at *
  omega

lemma synced_insert {issued read : ℕ} (hs : issued / tokenModulus * tokenModulus ≤ read)
    (hne : (issued + 1) % tokenModulus ≠ 0) :
    (issued + 1) / tokenModulus * tokenModulus ≤ read := by
  have hdvd : ¬ tokenModulus ∣ issued + 1 := fun h => hne (Nat.mod_eq_zero_of_dvd h)
  rwa [Nat.succ_div_of_not_dvd hdvd]

/-- `InsertToken`. The wrapped counter makes the helper wait for the service. -/
def Tokens.insertToken (t : Tokens) : Tokens :=
  if h : (t.issued + 1) % tokenModulus = 0 then
    { issued := t.issued + 1
      read := t.issued + 1
      read_le := le_rfl
      synced := Nat.div_mul_le_self _ _ }
  else
    { issued := t.issued + 1
      read := t.read
      read_le := t.read_le.trans (Nat.le_succ _)
      synced := synced_insert t.synced h }

/-- The service reads further tokens, up to number `r` if so many exist. -/
def Tokens.advance (t : Tokens) (r : ℕ) : Tokens where
  issued := t.issued
  read := max t.read (min r t.issued)
  read_le := max_le t.read_le (min_le_right _ _)
  synced := t.synced.trans (le_max_left _ _)

/-- `WaitForToken(token)`. A value above `token_` is from an earlier round and a
value up to `last_token_read()` has passed; neither waits. Otherwise the loop
ends when the service has read the token, and `service` says how much further
it has come by then. -/
def Tokens.waitForToken (service : ℕ → ℕ) (t : Tokens) (token : ℕ) : Tokens :=
  if t.token < token then t
  else if token ≤ t.lastTokenRead then t
  else t.advance (max (t.issued / tokenModulus * tokenModulus + token) (service t.read))

theorem Tokens.issued_le_insertToken (t : Tokens) : t.issued ≤ t.insertToken.issued := by
  simp only [insertToken]
  split_ifs <;> exact Nat.le_succ _

theorem Tokens.read_le_insertToken (t : Tokens) : t.read ≤ t.insertToken.read := by
  simp only [insertToken]
  split_ifs
  · exact t.read_le.trans (Nat.le_succ _)
  · exact le_rfl

theorem Tokens.read_le_advance (t : Tokens) (r : ℕ) : t.read ≤ (t.advance r).read :=
  le_max_left _ _

@[simp] theorem Tokens.waitForToken_issued (service : ℕ → ℕ) (t : Tokens) (token : ℕ) :
    (t.waitForToken service token).issued = t.issued := by
  simp only [waitForToken]
  split_ifs <;> rfl

theorem Tokens.read_le_waitForToken (service : ℕ → ℕ) (t : Tokens) (token : ℕ) :
    t.read ≤ (t.waitForToken service token).read := by
  simp only [waitForToken]
  split_ifs
  · exact le_rfl
  · exact le_rfl
  · exact t.read_le_advance _

/-- A token that was read is not waited for. -/
theorem Tokens.waitForToken_of_le (service : ℕ → ℕ) {t : Tokens} {token : ℕ}
    (h : token ≤ t.lastTokenRead) : t.waitForToken service token = t := by
  simp only [waitForToken]
  split_ifs <;> rfl

/-- A call of `WaitForToken` that gets past both early returns ends only after
the service has read another token. -/
theorem Tokens.read_lt_waitForToken (service : ℕ → ℕ) {t : Tokens} {token : ℕ}
    (hround : token ≤ t.token) (hunread : t.lastTokenRead < token) :
    t.read < (t.waitForToken service token).read := by
  have hs := t.round_eq
  have hr := t.read_le
  simp only [waitForToken, not_lt.mpr hround, not_le.mpr hunread, if_false, advance]
  simp only [Tokens.token, Tokens.lastTokenRead] at hround hunread
  unfold tokenModulus at *
  omega

/-- The contract of `WaitForToken`: when it returns, the token with unwrapped
number `u` has been read, whichever round it was inserted in. -/
theorem Tokens.le_read_waitForToken (service : ℕ → ℕ) (t : Tokens) {u : ℕ}
    (hu : u ≤ t.issued) : u ≤ (t.waitForToken service (u % tokenModulus)).read := by
  have hs := t.synced
  have hr := t.read_le
  unfold waitForToken token lastTokenRead
  split_ifs with hwrap hread
  · unfold tokenModulus at *
    omega
  · unfold tokenModulus at *
    omega
  · simp only [advance, tokenModulus] at *
    omega

/-- A token whose 31-bit value is at most `last_token_read()` has been read. -/
theorem Tokens.le_read_of_le_lastTokenRead (t : Tokens) {u : ℕ} (hu : u ≤ t.issued)
    (h : u % tokenModulus ≤ t.lastTokenRead) : u ≤ t.read := by
  have hs := t.synced
  have hr := t.read_le
  unfold lastTokenRead tokenModulus at *
  omega

end Chromium.CommandTokens
