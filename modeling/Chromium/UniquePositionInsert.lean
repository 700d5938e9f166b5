import Chromium.Runs
import Chromium.UniquePosition

/-!
# Insertions between unique positions

`sync/internal_api/public/base/unique_position.cc`: a new position is found digit by digit,
so that it sorts before, after or between positions that exist.
-/
namespace Chromium

/-- The compressed bytes, and whether the bytes they stand for are those of a position. -/
structure UniquePosition where
  compressed : List WireFormat.Byte
  isValid : Bool
  deriving DecidableEq

namespace UniquePosition

open WireFormat ListOrder Runs

/-! ### The search -/

def kSuffixLength : ℕ := 28

/-- Only the length is looked at. -/
def isValidSuffix (suffix : List Byte) : Bool := suffix.length = kSuffixLength

def isValidBytes (bytes : List Byte) : Bool :=
  kSuffixLength ≤ bytes.length ∧ bytes.getLast? ≠ some 0

/-- `none` is `npos`. -/
def findFirstNotOf (str : List Byte) (c : Byte) : Option ℕ := str.findIdx? (· ≠ c)

/-- A position outside of the string throws. -/
def substr (str : List Byte) (pos : ℕ) : Option (List Byte) :=
  if pos ≤ str.length then some (str.drop pos) else none

/-- What put in front of the suffix makes it smaller than the reference. Reading from `npos` on
throws. -/
def findSmallerWithSuffix (reference suffix : List Byte) : Option (List Byte) :=
  match findFirstNotOf reference 0, findFirstNotOf suffix 0 with
  | none, _ => none
  | some _, none => some []
  | some refZeroes, some suffixZeroes =>
    if suffixZeroes > refZeroes then some []
    else
      (substr suffix suffixZeroes).bind fun suffixRest =>
      (substr reference refZeroes).bind fun referenceRest =>
        if suffixRest < referenceRest then
          some (List.replicate (refZeroes - suffixZeroes) 0)
        else if suffixZeroes > 1 then
          some (List.replicate (refZeroes - suffixZeroes + 1) 0)
        else
          reference[refZeroes]?.map fun digit =>
            List.replicate refZeroes 0 ++ [BitVec.ofNat 8 (digit.toNat / 2)]

/-- What put in front of the suffix makes it greater than the reference. -/
def findGreaterWithSuffix (reference suffix : List Byte) : Option (List Byte) :=
  let refFFs := (findFirstNotOf reference 0xff).getD reference.length
  let suffixFFs := (findFirstNotOf suffix 0xff).getD suffix.length
  if suffixFFs > refFFs then some []
  else
    (substr suffix suffixFFs).bind fun suffixRest =>
    (substr reference refFFs).bind fun referenceRest =>
      if referenceRest < suffixRest then
        some (List.replicate (refFFs - suffixFFs) 0xff)
      else if suffixFFs > 1 then
        some (List.replicate (refFFs - suffixFFs + 1) 0xff)
      else
        reference[refFFs]?.map fun digit =>
          List.replicate refFFs 0xff ++ [BitVec.ofNat 8 (digit.toNat + (255 - digit.toNat + 1) / 2)]

/-- The loop over the digits of both strings, from the one where they are read on. -/
def findBetweenLoop (suffix mid : List Byte) : List Byte → List Byte → Option (List Byte)
  | aDigit :: before, bDigit :: after =>
    if aDigit.toNat + 2 ≤ bDigit.toNat then
      some (mid ++ [BitVec.ofNat 8 (aDigit.toNat + (bDigit.toNat - aDigit.toNat) / 2)])
    else if aDigit = bDigit then
      if before < suffix ∧ suffix < after then some (mid ++ [aDigit])
      else findBetweenLoop suffix (mid ++ [aDigit]) before after
    else
      (findGreaterWithSuffix before suffix).bind fun greater =>
        let midA := mid ++ aDigit :: greater
        if after.length > 0 then
          (findSmallerWithSuffix after suffix).bind fun smaller =>
            let midB := mid ++ bDigit :: smaller
            if midB.length < midA.length then some midB else some midA
        else some midA
  | _, after => (findSmallerWithSuffix after suffix).map fun smaller => mid ++ smaller

def findBetweenWithSuffix (before after suffix : List Byte) : Option (List Byte) :=
  if before < suffix ∧ suffix < after then some []
  else findBetweenLoop suffix [] before after

/-! ### Positions -/

/-- The `CHECK`s of the compression end the program. -/
def ofUncompressed (uncompressed : List Byte) : Option UniquePosition :=
  (compressImpl uncompressed).map fun compressed => ⟨compressed, isValidBytes uncompressed⟩

/-- What comes from another client is taken as it is. -/
def ofInternalRep (internalRep : List Byte) : UniquePosition :=
  ⟨internalRep, isValidBytes (uncompress internalRep)⟩

def initialPosition (suffix : List Byte) : Option UniquePosition := ofUncompressed suffix

def before (x : UniquePosition) (suffix : List Byte) : Option UniquePosition :=
  (findSmallerWithSuffix (uncompress x.compressed) suffix).bind fun found =>
    ofUncompressed (found ++ suffix)

def after (x : UniquePosition) (suffix : List Byte) : Option UniquePosition :=
  (findGreaterWithSuffix (uncompress x.compressed) suffix).bind fun found =>
    ofUncompressed (found ++ suffix)

def between (x y : UniquePosition) (suffix : List Byte) : Option UniquePosition :=
  (findBetweenWithSuffix (uncompress x.compressed) (uncompress y.compressed) suffix).bind
    fun found => ofUncompressed (found ++ suffix)

def lessThan (x y : UniquePosition) : Prop := x.compressed < y.compressed

instance (x y : UniquePosition) : Decidable (x.lessThan y) :=
  inferInstanceAs (Decidable (x.compressed < y.compressed))

/-! ### Runs at the front -/

lemma findFirstNotOf_replicate {c d : Byte} (hd : d ≠ c) (n : ℕ) (rest : List Byte) :
    findFirstNotOf (List.replicate n c ++ d :: rest) c = some n := by
  induction n with
  | zero => simp [findFirstNotOf, List.findIdx?_cons, hd]
  | succ n ih =>
    rw [findFirstNotOf] at ih ⊢
    rw [List.replicate_succ, List.cons_append, List.findIdx?_cons, ih]
    simp

lemma findFirstNotOf_all (c : Byte) (n : ℕ) :
    findFirstNotOf (List.replicate n c) c = none := by
  rw [findFirstNotOf, List.findIdx?_eq_none_iff]
  intro d hd
  simp [List.eq_of_mem_replicate hd]

/-- A string is a run of the byte, and nothing or a string that begins with another one. -/
lemma exists_run (c : Byte) (str : List Byte) :
    ∃ n rest, str = List.replicate n c ++ rest ∧ rest.head? ≠ some c := by
  induction str with
  | nil => exact ⟨0, [], rfl, by simp⟩
  | cons d str ih =>
    by_cases hd : d = c
    · obtain ⟨n, rest, rfl, hrest⟩ := ih
      exact ⟨n + 1, rest, by rw [hd, List.replicate_succ, List.cons_append], hrest⟩
    · exact ⟨0, d :: str, rfl, by simpa using hd⟩

/-- The string has a byte, and its last one is not zero. -/
def LastNonzero (str : List Byte) : Prop := ∃ d, str.getLast? = some d ∧ d ≠ 0

lemma LastNonzero.ne_nil {str : List Byte} (h : LastNonzero str) : str ≠ [] := by
  rintro rfl
  obtain ⟨d, hd, -⟩ := h
  cases hd

lemma LastNonzero.tail {c : Byte} {str : List Byte} (h : LastNonzero (c :: str))
    (hne : str ≠ []) : LastNonzero str := by
  obtain ⟨d, hd, hzero⟩ := h
  obtain ⟨e, str, rfl⟩ := List.exists_cons_of_ne_nil hne
  exact ⟨d, by rwa [List.getLast?_cons_cons] at hd, hzero⟩

lemma LastNonzero.append (xs : List Byte) {str : List Byte} (h : LastNonzero str) :
    LastNonzero (xs ++ str) := by
  obtain ⟨d, hd, hzero⟩ := h
  exact ⟨d, by rw [List.getLast?_append, hd, Option.some_or], hzero⟩

/-- The run of zeroes at the front ends. -/
lemma LastNonzero.exists_run {str : List Byte} (h : LastNonzero str) :
    ∃ n d rest, str = List.replicate n 0 ++ d :: rest ∧ d ≠ 0 := by
  obtain ⟨n, rest, rfl, hrest⟩ := UniquePosition.exists_run 0 str
  cases rest with
  | nil =>
    obtain ⟨d, hd, hzero⟩ := h
    rw [List.append_nil] at hd
    exact absurd (List.eq_of_mem_replicate (List.mem_of_getLast? hd)) hzero
  | cons d rest => exact ⟨n, d, rest, rfl, by simpa using hrest⟩

/-- What is found is a front of the reference, and at most one more byte. -/
def Near (reference found : List Byte) : Prop :=
  ∃ front extra, found = front ++ extra ∧ front <+: reference ∧ extra.length ≤ 1

lemma Near.nil (reference : List Byte) : Near reference [] :=
  ⟨[], [], rfl, List.nil_prefix, by simp⟩

lemma Near.cons {reference found : List Byte} (h : Near reference found) (c : Byte) :
    Near (c :: reference) (c :: found) := by
  obtain ⟨front, extra, rfl, hfront, hextra⟩ := h
  exact ⟨c :: front, extra, rfl, (List.prefix_cons_inj c).mpr hfront, hextra⟩

lemma Near.run {n k : ℕ} (h : k ≤ n) (c : Byte) (rest : List Byte) :
    Near (List.replicate n c ++ rest) (List.replicate k c) := by
  refine ⟨List.replicate k c, [], (List.append_nil _).symm, ?_, by simp⟩
  apply List.IsPrefix.trans _ (List.prefix_append _ _)
  rw [List.prefix_replicate_iff, List.length_replicate]
  exact ⟨h, rfl⟩

/-! ### Smaller and greater -/

section Search
variable {reference suffix : List Byte}

lemma cons_lt_cons_of_lt {c d : Byte} (h : c < d) (xs ys : List Byte) : c :: xs < d :: ys :=
  List.cons_lt_cons_iff.mpr (.inl h)

lemma substr_replicate (n : ℕ) (c : Byte) (rest : List Byte) :
    substr (List.replicate n c ++ rest) n = some rest := by
  rw [substr, if_pos (by simp), List.drop_left' (List.length_replicate ..)]

/-- A string with a longer run of zeroes is smaller. -/
lemma longer_zeroes_lt {r s : ℕ} {d : Byte} (h : r < s) (hd : d ≠ 0) (xs ys : List Byte) :
    List.replicate s 0 ++ xs < List.replicate r 0 ++ d :: ys := by
  rw [replicate_split h, append_left_lt_iff]
  apply cons_lt_cons_of_lt
  rw [BitVec.lt_def]
  exact Nat.pos_of_ne_zero fun hzero => hd (BitVec.eq_of_toNat_eq hzero)

theorem findSmallerWithSuffix_spec (hr : LastNonzero reference) (hs : LastNonzero suffix) :
    ∃ found, findSmallerWithSuffix reference suffix = some found ∧
      found ++ suffix < reference ∧ Near reference found := by
  obtain ⟨r, d, ref, rfl, hd⟩ := hr.exists_run
  obtain ⟨s, e, suf, rfl, he⟩ := hs.exists_run
  rw [findSmallerWithSuffix, findFirstNotOf_replicate hd, findFirstNotOf_replicate he]
  dsimp only
  rw [substr_replicate, substr_replicate, Option.bind_some, Option.bind_some]
  by_cases hlonger : s > r
  · rw [if_pos hlonger]
    exact ⟨[], rfl, longer_zeroes_lt hlonger hd _ _, .nil _⟩
  rw [if_neg hlonger]
  have hle : s ≤ r := not_lt.mp hlonger
  by_cases hrest : e :: suf < d :: ref
  · rw [if_pos hrest]
    refine ⟨_, rfl, ?_, .run (Nat.sub_le r s) 0 _⟩
    rw [← List.append_assoc, List.replicate_append_replicate, Nat.sub_add_cancel hle,
      append_left_lt_iff]
    exact hrest
  rw [if_neg hrest]
  by_cases hmany : s > 1
  · rw [if_pos hmany]
    refine ⟨_, rfl, ?_, .run (by omega) 0 _⟩
    rw [← List.append_assoc, List.replicate_append_replicate]
    exact longer_zeroes_lt (by omega) hd _ _
  · -- half of the first digit that is not zero
    rw [if_neg hmany, List.getElem?_append_right (by simp), List.length_replicate,
      Nat.sub_self, List.getElem?_cons_zero]
    refine ⟨_, rfl, ?_, _, _, rfl, List.prefix_append _ _, by simp⟩
    rw [List.append_assoc, append_left_lt_iff]
    apply cons_lt_cons_of_lt
    have hpos : d.toNat ≠ 0 := fun hzero => hd (BitVec.eq_of_toNat_eq hzero)
    have hlt := d.isLt
    rw [BitVec.lt_def, BitVec.toNat_ofNat]
    omega

/-- A string with a longer run of the greatest byte is greater. -/
lemma longer_FFs_gt {r s : ℕ} {ys : List Byte} (h : r < s) (hys : ys.head? ≠ some 0xff)
    (xs : List Byte) : List.replicate r 0xff ++ ys < List.replicate s 0xff ++ xs := by
  rw [replicate_split h, append_left_lt_iff]
  cases ys with
  | nil => exact List.nil_lt_cons _ _
  | cons d ys =>
    apply cons_lt_cons_of_lt
    have hne : d.toNat ≠ 255 := fun hmax => hys (congrArg some (BitVec.eq_of_toNat_eq hmax))
    have hlt := d.isLt
    rw [BitVec.lt_def, show (0xff : Byte).toNat = 255 from rfl]
    omega

lemma findFirstNotOf_getD {n : ℕ} {c : Byte} {rest : List Byte} (h : rest.head? ≠ some c) :
    (findFirstNotOf (List.replicate n c ++ rest) c).getD (List.replicate n c ++ rest).length =
      n := by
  cases rest with
  | nil => rw [List.append_nil, findFirstNotOf_all, List.length_replicate, Option.getD_none]
  | cons d rest => rw [findFirstNotOf_replicate (by simpa using h), Option.getD_some]

theorem findGreaterWithSuffix_spec (reference : List Byte) (hs : 2 ≤ suffix.length) :
    ∃ found, findGreaterWithSuffix reference suffix = some found ∧
      reference < found ++ suffix ∧ Near reference found := by
  obtain ⟨r, ref, rfl, href⟩ := exists_run 0xff reference
  obtain ⟨s, suf, rfl, hsuf⟩ := exists_run 0xff suffix
  rw [findGreaterWithSuffix, findFirstNotOf_getD href, findFirstNotOf_getD hsuf]
  rw [substr_replicate, substr_replicate, Option.bind_some, Option.bind_some]
  by_cases hlonger : s > r
  · rw [if_pos hlonger]
    exact ⟨[], rfl, longer_FFs_gt hlonger href _, .nil _⟩
  rw [if_neg hlonger]
  have hle : s ≤ r := not_lt.mp hlonger
  by_cases hrest : ref < suf
  · rw [if_pos hrest]
    refine ⟨_, rfl, ?_, .run (Nat.sub_le r s) 0xff _⟩
    rw [← List.append_assoc, List.replicate_append_replicate, Nat.sub_add_cancel hle,
      append_left_lt_iff]
    exact hrest
  rw [if_neg hrest]
  by_cases hmany : s > 1
  · rw [if_pos hmany]
    refine ⟨_, rfl, ?_, .run (by omega) 0xff _⟩
    rw [← List.append_assoc, List.replicate_append_replicate]
    exact longer_FFs_gt (by omega) href _
  · rw [if_neg hmany]
    cases ref with
    | nil =>
      -- a suffix that is not greater than nothing is a run, which is not that short
      obtain rfl : suf = [] := by
        cases suf with
        | nil => rfl
        | cons e suf => exact absurd (List.nil_lt_cons e suf) hrest
      rw [List.append_nil, List.length_replicate] at hs
      omega
    | cons d ref =>
      rw [List.getElem?_append_right (by simp), List.length_replicate, Nat.sub_self,
        List.getElem?_cons_zero]
      refine ⟨_, rfl, ?_, _, _, rfl, List.prefix_append _ _, by simp⟩
      rw [List.append_assoc, append_left_lt_iff]
      apply cons_lt_cons_of_lt
      have hne : d.toNat ≠ 255 := fun hmax => href (congrArg some (BitVec.eq_of_toNat_eq hmax))
      have hlt := d.isLt
      rw [BitVec.lt_def, BitVec.toNat_ofNat]
      omega

end Search

/-! ### Between -/

theorem findBetweenLoop_spec {suffix before after : List Byte} (hs : LastNonzero suffix)
    (hlength : 2 ≤ suffix.length) (hafter : LastNonzero after) (h : before < after)
    (mid : List Byte) :
    ∃ found, findBetweenLoop suffix mid before after = some (mid ++ found) ∧
      before < found ++ suffix ∧ found ++ suffix < after ∧
      (Near before found ∨ Near after found) := by
  fun_induction findBetweenLoop suffix mid before after with
  | case1 mid a before b after hfar =>
    refine ⟨_, rfl, ?_, ?_, .inl ⟨[], _, rfl, List.nil_prefix, by simp⟩⟩
    · apply cons_lt_cons_of_lt
      have hlt := b.isLt
      rw [BitVec.lt_def, BitVec.toNat_ofNat]
      omega
    · apply cons_lt_cons_of_lt
      have hlt := b.isLt
      rw [BitVec.lt_def, BitVec.toNat_ofNat]
      omega
  | case2 mid before a after hfits hfar =>
    have hnear : Near (a :: before) [a] := (Near.nil before).cons a
    exact ⟨[a], rfl, List.cons_lt_cons_iff.mpr (.inr ⟨rfl, hfits.1⟩),
      List.cons_lt_cons_iff.mpr (.inr ⟨rfl, hfits.2⟩), .inl hnear⟩
  | case3 mid before a after hfits hfar ih =>
    have hrest : before < after := by
      rcases List.cons_lt_cons_iff.mp h with hlt | ⟨-, hlt⟩
      · exact absurd hlt (BitVec.lt_irrefl a)
      · exact hlt
    have hne : after ≠ [] := by
      rintro rfl
      exact List.not_lt_nil _ hrest
    obtain ⟨found, hfound, hgreater, hsmaller, hnear⟩ := ih (hafter.tail hne) hrest
    refine ⟨a :: found, ?_, List.cons_lt_cons_iff.mpr (.inr ⟨rfl, hgreater⟩),
      List.cons_lt_cons_iff.mpr (.inr ⟨rfl, hsmaller⟩), hnear.imp (·.cons a) (·.cons a)⟩
    rw [hfound, List.append_assoc]
    rfl
  | case4 mid a before b after hfar hne =>
    have hlt : a < b := by
      rcases List.cons_lt_cons_iff.mp h with hlt | ⟨heq, -⟩
      · exact hlt
      · exact absurd heq hne
    obtain ⟨greater, hgreater, hlow, hnear⟩ := findGreaterWithSuffix_spec before hlength
    have hdown : a :: before < a :: greater ++ suffix ∧ a :: greater ++ suffix < b :: after :=
      ⟨List.cons_lt_cons_iff.mpr (.inr ⟨rfl, hlow⟩), cons_lt_cons_of_lt hlt _ _⟩
    have hA : ∃ found, some (mid ++ a :: greater) = some (mid ++ found) ∧
        a :: before < found ++ suffix ∧ found ++ suffix < b :: after ∧
        (Near (a :: before) found ∨ Near (b :: after) found) :=
      ⟨a :: greater, rfl, hdown.1, hdown.2, .inl (hnear.cons a)⟩
    rw [hgreater, Option.bind_some]
    dsimp only
    split_ifs with hmore
    · obtain ⟨smaller, hsmaller, hhigh, hnear'⟩ :=
        findSmallerWithSuffix_spec (hafter.tail (List.length_pos_iff.mp hmore)) hs
      rw [hsmaller, Option.bind_some]
      split_ifs with hshorter
      · exact ⟨b :: smaller, rfl, cons_lt_cons_of_lt hlt _ _,
          List.cons_lt_cons_iff.mpr (.inr ⟨rfl, hhigh⟩), .inr (hnear'.cons b)⟩
      · exact hA
    · exact hA
  | case5 before mid after hend =>
    -- one of the strings has ended, and it is the smaller one
    obtain rfl : before = [] := by
      cases before with
      | nil => rfl
      | cons a before =>
        obtain ⟨b, after, rfl⟩ := List.exists_cons_of_ne_nil hafter.ne_nil
        exact absurd rfl (hend a before b after rfl)
    obtain ⟨found, hfound, hsmaller, hnear⟩ := findSmallerWithSuffix_spec hafter hs
    refine ⟨found, by rw [hfound, Option.map_some], ?_, hsmaller, .inr hnear⟩
    obtain ⟨c, cs, hc⟩ :=
      List.exists_cons_of_ne_nil (List.append_ne_nil_of_right_ne_nil found hs.ne_nil)
    rw [hc]
    exact List.nil_lt_cons c cs

theorem findBetweenWithSuffix_spec {suffix before after : List Byte} (hs : LastNonzero suffix)
    (hlength : 2 ≤ suffix.length) (hafter : LastNonzero after) (h : before < after) :
    ∃ found, findBetweenWithSuffix before after suffix = some found ∧
      before < found ++ suffix ∧ found ++ suffix < after ∧
      (Near before found ∨ Near after found) := by
  rw [findBetweenWithSuffix]
  split_ifs with hfits
  · exact ⟨[], rfl, hfits.1, hfits.2, .inl (.nil before)⟩
  · exact findBetweenLoop_spec hs hlength hafter h []

/-! ### Lengths of runs -/

/-- No byte is repeated that often. -/
def RunsBelow (n : ℕ) (str : List Byte) : Prop := ∀ digit, ¬ List.replicate n digit <:+: str

lemma RunsBelow.of_infix {n : ℕ} {xs ys : List Byte} (h : RunsBelow n ys) (hsub : xs <:+: ys) :
    RunsBelow n xs :=
  fun digit hinside => h digit (hinside.trans hsub)

lemma replicate_infix_replicate {m n : ℕ} (h : m ≤ n) (digit : Byte) :
    List.replicate m digit <:+: List.replicate n digit := by
  rw [List.infix_replicate_iff, List.length_replicate]
  exact ⟨h, rfl⟩

lemma RunsBelow.mono {m n : ℕ} {str : List Byte} (h : RunsBelow m str) (hle : m ≤ n) :
    RunsBelow n str :=
  fun digit hinside => h digit ((replicate_infix_replicate hle digit).trans hinside)

lemma runsBelow_of_length {n : ℕ} {str : List Byte} (h : str.length < n) : RunsBelow n str := by
  intro digit hinside
  have hle := hinside.length_le
  rw [List.length_replicate] at hle
  omega

/-- A run in two strings is a run in one of them, or goes from one to the other. -/
lemma run_append {n : ℕ} {digit : Byte} {xs ys : List Byte}
    (h : List.replicate n digit <:+: xs ++ ys) :
    List.replicate n digit <:+: xs ∨ List.replicate n digit <:+: ys ∨
      ∃ i j, n = i + j ∧ List.replicate i digit <:+ xs ∧ List.replicate j digit <+: ys := by
  rcases List.infix_append_iff.mp h with hxs | hys | ⟨us, vs, hsplit, hus, hvs⟩
  · exact .inl hxs
  · exact .inr (.inl hys)
  · obtain ⟨hlength, hu, hv⟩ := List.append_eq_replicate_iff.mp hsplit.symm
    rw [hu] at hus
    rw [hv] at hvs
    exact .inr (.inr ⟨us.length, vs.length, hlength.symm, hus, hvs⟩)

/-- A few more bytes make the runs so much longer. -/
lemma RunsBelow.append {n : ℕ} {xs : List Byte} (h : RunsBelow n xs) (ys : List Byte) :
    RunsBelow (n + 1 + ys.length) (xs ++ ys) := by
  intro digit hinside
  rcases run_append hinside with hxs | hys | ⟨i, j, hsum, hi, hj⟩
  · exact h digit ((replicate_infix_replicate (by omega) digit).trans hxs)
  · have hle := hys.length_le
    rw [List.length_replicate] at hle
    omega
  · have hle := hj.length_le
    rw [List.length_replicate] at hle
    exact h digit ((replicate_infix_replicate (by omega) digit).trans hi.isInfix)

/-- A run does not go on where another byte follows. -/
lemma replicate_prefix_le {m n : ℕ} {digit : Byte} {rest : List Byte}
    (hnext : rest.head? ≠ some digit)
    (h : List.replicate m digit <+: List.replicate n digit ++ rest) : m ≤ n := by
  by_contra hlt
  obtain ⟨after, hafter⟩ := h
  rw [replicate_split (not_le.mp hlt), List.append_cancel_left_eq] at hafter
  rw [← hafter] at hnext
  exact hnext rfl

lemma Compressed.front_lt {m : ℕ} {digit : Byte} {str output : List Byte}
    (h : Compressed str output) (hfront : List.replicate m digit <+: str) : m < 2 ^ 31 := by
  by_cases hm : m < 4
  · omega
  · obtain ⟨after, rfl⟩ := hfront
    obtain ⟨length, rest, -, -, hmax, hnext, -, hstr, -⟩ :=
      h.exists_repeated (take_four_replicate (not_lt.mp hm) after)
    have hle : m ≤ length := by
      apply replicate_prefix_le hnext
      rw [← hstr]
      exact List.prefix_append _ _
    omega

/-- Up to eight bytes of a run may stand in a plain block before it. -/
lemma Compressed.runsBelow {str output : List Byte} (h : Compressed str output) :
    RunsBelow (2 ^ 31 + 8) str := by
  induction h with
  | nil => exact runsBelow_of_length (by decide)
  | @repeated digit length rest output hmin hmax hnext hrest ih =>
    intro digit' hinside
    rcases run_append hinside with hrun | hafter | ⟨i, j, hsum, hi, hj⟩
    · have hle := hrun.length_le
      rw [List.length_replicate, List.length_replicate] at hle
      omega
    · exact ih digit' hafter
    · have hle := hi.length_le
      rw [List.length_replicate, List.length_replicate] at hle
      have hlt := hrest.front_lt hj
      by_cases hzero : i = 0
      · omega
      · -- the run of the block would go on
        have hmem : digit' ∈ List.replicate length digit := by
          apply hi.subset
          exact List.mem_replicate.mpr ⟨hzero, rfl⟩
        obtain rfl := List.eq_of_mem_replicate hmem
        have hzero : j ≤ 0 := replicate_prefix_le (n := 0) hnext hj
        omega
  | @plain str output hplain hne hrest ih =>
    intro digit hinside
    rw [← List.take_append_drop 8 str] at hinside
    have htake := str.length_take_le 8
    rcases run_append hinside with hfront | hafter | ⟨i, j, hsum, hi, hj⟩
    · have hle := hfront.length_le
      rw [List.length_replicate] at hle
      omega
    · exact ih digit hafter
    · have hle := hi.length_le
      have hlt := hrest.front_lt hj
      rw [List.length_replicate] at hle
      omega

/-- Where the lengths of the runs are not cut, the `CHECK`s say that the blocks are right. -/
lemma compressed_of_compressImpl {str output : List Byte} (hruns : RunsBelow (2 ^ 32) str)
    (h : compressImpl str = some output) : Compressed str output := by
  fun_induction compressImpl str generalizing output with
  | case1 =>
    obtain rfl := Option.some.inj h
    exact .nil
  | case2 repDigit tail hrepeated runsUntil runLength =>
    rename_i ih
    have hsplit : repDigit :: tail = List.replicate runLength repDigit ++ runsUntil :=
      eq_replicate_append_dropWhile repDigit tail
    have hmin : 4 ≤ runLength := by
      have := length_dropWhile_of_repeated hrepeated
      simp only [runLength, runsUntil, List.length_cons]
      omega
    have hcounted : runLength < 2 ^ 32 := by
      by_contra hle
      apply hruns repDigit
      rw [hsplit]
      apply (replicate_infix_replicate (not_lt.mp hle) repDigit).trans
      exact (List.prefix_append _ _).isInfix
    have hsuffix : runsUntil <:+: repDigit :: tail := by
      rw [hsplit]
      exact (List.suffix_append _ _).isInfix
    obtain ⟨encoded, hwrite, h⟩ := Option.bind_eq_some_iff.mp h
    obtain ⟨after, hafter, h⟩ := Option.bind_eq_some_iff.mp h
    rw [Nat.mod_eq_of_lt hcounted, writeEncodedRunLength] at hwrite
    split_ifs at hwrite with hcheck
    obtain rfl := Option.some.inj hwrite
    obtain rfl := Option.some.inj h
    rw [hsplit, take_four_replicate hmin]
    exact .repeated hmin (by omega) (head?_dropWhile_ne repDigit tail)
      (ih (hruns.of_infix hsuffix) hafter)
  | case3 repDigit tail hplain ih =>
    obtain ⟨after, hafter, h⟩ := Option.bind_eq_some_iff.mp h
    obtain rfl := Option.some.inj h
    exact .plain hplain (List.cons_ne_nil _ _)
      (ih (hruns.of_infix (List.drop_suffix 8 _).isInfix) hafter)

lemma Near.runsBelow {reference found : List Byte} (h : Near reference found)
    (hruns : RunsBelow (2 ^ 31 + 8) reference) {suffix : List Byte}
    (hsuffix : suffix.length = kSuffixLength) : RunsBelow (2 ^ 32) (found ++ suffix) := by
  obtain ⟨front, extra, rfl, hfront, hextra⟩ := h
  rw [List.append_assoc]
  apply ((hruns.of_infix hfront.isInfix).append (extra ++ suffix)).mono
  rw [List.length_append, hsuffix, kSuffixLength]
  omega

/-! ### Positions that stand for bytes -/

/-- The position is what the bytes are compressed to. -/
structure Made (bytes : List Byte) (p : UniquePosition) : Prop where
  valid : isValidBytes bytes
  counted : RunsBelow (2 ^ 32) bytes
  compressed : compressImpl bytes = some p.compressed
  isValid : p.isValid

/-- A position that is valid and was made here: its runs are counted as the compression does. -/
def Canonical (p : UniquePosition) : Prop := ∃ bytes, Made bytes p

/-- A suffix as long as the others, whose last byte is not zero. -/
structure UniqueSuffix (suffix : List Byte) : Prop where
  valid : isValidSuffix suffix
  last : suffix.getLast? ≠ some 0

section Positions
variable {x y suffix : List Byte} {p q : UniquePosition}

lemma lastNonzero_of_ne {str : List Byte} (hne : str ≠ []) (h : str.getLast? ≠ some 0) :
    LastNonzero str := by
  refine ⟨str.getLast hne, List.getLast?_eq_some_getLast hne, fun hzero => h ?_⟩
  rw [List.getLast?_eq_some_getLast hne, hzero]

lemma UniqueSuffix.length_eq (h : UniqueSuffix suffix) : suffix.length = kSuffixLength := by
  simpa only [isValidSuffix, decide_eq_true_eq] using h.valid

lemma UniqueSuffix.lastNonzero (h : UniqueSuffix suffix) : LastNonzero suffix := by
  apply lastNonzero_of_ne _ h.last
  rintro rfl
  cases h.length_eq

lemma UniqueSuffix.two_le (h : UniqueSuffix suffix) : 2 ≤ suffix.length := by
  rw [h.length_eq]
  decide

lemma UniqueSuffix.isValidBytes (h : UniqueSuffix suffix) (found : List Byte) :
    isValidBytes (found ++ suffix) := by
  obtain ⟨d, hd, hzero⟩ := h.lastNonzero.append found
  have hlength := h.length_eq
  simp only [UniquePosition.isValidBytes, decide_eq_true_eq]
  refine ⟨by rw [List.length_append]; omega, ?_⟩
  rw [hd]
  exact fun heq => hzero (Option.some.inj heq)

lemma Made.blocks (h : Made x p) : Compressed x p.compressed :=
  compressed_of_compressImpl h.counted h.compressed

lemma Made.uncompress_eq (h : Made x p) : uncompress p.compressed = x := h.blocks.uncompress_eq

lemma Made.lastNonzero (h : Made x p) : LastNonzero x := by
  have hvalid := h.valid
  simp only [UniquePosition.isValidBytes, decide_eq_true_eq] at hvalid
  apply lastNonzero_of_ne _ hvalid.2
  rintro rfl
  cases hvalid.1

/-- Positions sort like the bytes they stand for. -/
lemma Made.lessThan_iff (hp : Made x p) (hq : Made y q) : p.lessThan q ↔ x < y := by
  refine ⟨fun h => ?_, hp.blocks.lt hq.blocks⟩
  by_contra hnot
  rcases List.le_iff_lt_or_eq.mp (List.not_lt.mp hnot) with hlt | rfl
  · exact List.lt_asymm h (hq.blocks.lt hp.blocks hlt)
  · have heq := Option.some.inj (hp.compressed.symm.trans hq.compressed)
    rw [lessThan, heq] at h
    exact List.lt_irrefl _ h

/-- What is found near a position makes a position, if its runs can be written. -/
lemma made_of_runsBelow (hs : UniqueSuffix suffix) (hruns : RunsBelow (2 ^ 32) (x ++ suffix))
    (hq : ofUncompressed (x ++ suffix) = some q) : Made (x ++ suffix) q := by
  obtain ⟨compressed, hcompressed, rfl⟩ := Option.map_eq_some_iff.mp hq
  exact ⟨hs.isValidBytes x, hruns, hcompressed, hs.isValidBytes x⟩

lemma Made.place (h : Made y p) (hnear : Near y x) (hs : UniqueSuffix suffix)
    (hq : ofUncompressed (x ++ suffix) = some q) : Made (x ++ suffix) q :=
  made_of_runsBelow hs (hnear.runsBelow h.blocks.runsBelow hs.length_eq) hq

lemma isSome_ofUncompressed (h : RunsShort x) : (ofUncompressed x).isSome := by
  obtain ⟨compressed, hcompressed, -⟩ := compressed_of_runsShort h
  rw [ofUncompressed, hcompressed]
  rfl

lemma lessThan_trans {r : UniquePosition} (h : p.lessThan q) (h' : q.lessThan r) :
    p.lessThan r :=
  List.lt_trans h h'

/-- What is promised of a position that is made: something is found, only a run that is too long
ends the program, and the position is valid, ends in the suffix and is where it is wanted. -/
structure Places (found : Option (List Byte)) (made : Option UniquePosition)
    (suffix : List Byte) (wanted : UniquePosition → Prop) : Prop where
  finds : ∃ bytes, found = some bytes ∧ (RunsShort (bytes ++ suffix) → made.isSome)
  placed : ∀ p, made = some p → Canonical p ∧ suffix <:+ uncompress p.compressed ∧ wanted p

lemma Places.of_made {found : Option (List Byte)} {wanted : UniquePosition → Prop}
    (hfound : found = some x)
    (hplaced : ∀ q, ofUncompressed (x ++ suffix) = some q → Made (x ++ suffix) q ∧ wanted q) :
    Places found (found.bind fun bytes => ofUncompressed (bytes ++ suffix)) suffix wanted := by
  subst hfound
  refine ⟨⟨x, rfl, isSome_ofUncompressed⟩, fun q hq => ?_⟩
  obtain ⟨hmade, hwanted⟩ := hplaced q hq
  refine ⟨⟨_, hmade⟩, ?_, hwanted⟩
  rw [hmade.uncompress_eq]
  exact List.suffix_append x suffix

lemma initialPosition_canonical (hs : UniqueSuffix suffix) (hq : initialPosition suffix = some q) :
    Canonical q := by
  have hruns : RunsBelow (2 ^ 32) suffix := by
    apply runsBelow_of_length
    rw [hs.length_eq, kSuffixLength]
    omega
  exact ⟨_, made_of_runsBelow (x := []) hs hruns hq⟩

lemma before_places (hq : Canonical q) (hs : UniqueSuffix suffix) :
    Places (findSmallerWithSuffix (uncompress q.compressed) suffix) (before q suffix) suffix
      (·.lessThan q) := by
  obtain ⟨y, hq⟩ := hq
  obtain ⟨found, hfound, hlt, hnear⟩ :=
    findSmallerWithSuffix_spec hq.lastNonzero hs.lastNonzero
  rw [← hq.uncompress_eq] at hfound
  refine .of_made hfound fun r hr => ?_
  have hmade := hq.place hnear hs hr
  exact ⟨hmade, (hmade.lessThan_iff hq).mpr hlt⟩

lemma after_places (hp : Canonical p) (hs : UniqueSuffix suffix) :
    Places (findGreaterWithSuffix (uncompress p.compressed) suffix) (after p suffix) suffix
      (p.lessThan ·) := by
  obtain ⟨x, hp⟩ := hp
  obtain ⟨found, hfound, hlt, hnear⟩ := findGreaterWithSuffix_spec x hs.two_le
  rw [← hp.uncompress_eq] at hfound
  refine .of_made hfound fun r hr => ?_
  have hmade := hp.place hnear hs hr
  exact ⟨hmade, (hp.lessThan_iff hmade).mpr hlt⟩

lemma between_places (hp : Canonical p) (hq : Canonical q) (h : p.lessThan q)
    (hs : UniqueSuffix suffix) :
    Places (findBetweenWithSuffix (uncompress p.compressed) (uncompress q.compressed) suffix)
      (between p q suffix) suffix (fun r => p.lessThan r ∧ r.lessThan q) := by
  obtain ⟨x, hp⟩ := hp
  obtain ⟨y, hq⟩ := hq
  obtain ⟨found, hfound, hlow, hhigh, hnear⟩ := findBetweenWithSuffix_spec hs.lastNonzero
    hs.two_le hq.lastNonzero ((hp.lessThan_iff hq).mp h)
  rw [← hp.uncompress_eq, ← hq.uncompress_eq] at hfound
  refine .of_made hfound fun r hr => ?_
  have hmade : Made (found ++ suffix) r := by
    rcases hnear with hnear | hnear
    · exact hp.place hnear hs hr
    · exact hq.place hnear hs hr
  exact ⟨hmade, (hp.lessThan_iff hmade).mpr hlow, (hmade.lessThan_iff hq).mpr hhigh⟩

end Positions

/-! ### Runs as positions -/

lemma dropWhile_run (n : ℕ) {digit : Byte} {rest : List Byte} (hnext : rest.head? ≠ some digit) :
    (List.replicate n digit ++ rest).dropWhile (· = digit) = rest := by
  induction n with
  | zero =>
    cases rest with
    | nil => rfl
    | cons next rest => exact List.dropWhile_cons_of_neg (by simpa using hnext)
  | succ n ih =>
    rw [List.replicate_succ, List.cons_append, List.dropWhile_cons_of_pos (by simp), ih]

/-- A run at the front is compressed to one block. -/
lemma compressImpl_replicate {n : ℕ} {digit : Byte} {rest : List Byte} (hmin : 4 ≤ n)
    (hnext : rest.head? ≠ some digit) :
    compressImpl (List.replicate n digit ++ rest) =
      (writeEncodedRunLength (n % 2 ^ 32) (encodeHigh digit rest)).bind fun encoded =>
        (compressImpl rest).bind fun output =>
          some (List.replicate 4 digit ++ (encoded ++ output)) := by
  have hrepeated : isRepeatedCharPrefix (List.replicate n digit ++ rest) :=
    (isRepeatedCharPrefix_iff _).mpr ⟨digit, take_four_replicate hmin rest⟩
  have htake : (List.replicate n digit ++ rest).take 4 = List.replicate 4 digit :=
    take_four_replicate hmin rest
  obtain ⟨k, rfl⟩ : ∃ k, n = k + 1 := ⟨n - 1, by omega⟩
  rw [List.replicate_succ, List.cons_append] at hrepeated htake ⊢
  rw [compressImpl, if_pos hrepeated, htake, dropWhile_run k hnext, List.length_cons,
    List.length_append, List.length_replicate, Nat.add_right_comm]
  dsimp only
  rw [Nat.add_sub_cancel]

/-- A run up to the end is compressed to eight bytes. -/
lemma compressImpl_run {n : ℕ} (digit : Byte) (hmin : 4 ≤ n) (hmax : n < 2 ^ 31) :
    compressImpl (List.replicate n digit) = some (List.replicate 4 digit ++ bigEndian n) := by
  have hrun := @compressImpl_replicate n digit [] hmin (by simp)
  rw [List.append_nil] at hrun
  rw [hrun, Nat.mod_eq_of_lt (by omega), writeEncodedRunLength, if_neg (by omega), compressImpl]
  simp [encodeHigh, encodedRunLength]

lemma made_run {n : ℕ} {digit : Byte} (hmin : kSuffixLength ≤ n) (hmax : n < 2 ^ 31)
    (hdigit : digit ≠ 0) :
    Made (List.replicate n digit) ⟨List.replicate 4 digit ++ bigEndian n, true⟩ := by
  rw [kSuffixLength] at hmin
  refine ⟨?_, ?_, compressImpl_run digit (by omega) hmax, rfl⟩
  · have hlast : (List.replicate n digit).getLast? = some digit := by
      rw [List.getLast?_replicate, if_neg (by omega)]
    simp only [isValidBytes, decide_eq_true_eq, List.length_replicate, kSuffixLength, hlast]
    exact ⟨hmin, fun h => hdigit (Option.some.inj h)⟩
  · apply runsBelow_of_length
    rw [List.length_replicate]
    omega

/-- Before a run of zeroes that is as long as can be written, one more zero is asked for. -/
lemma before_none {n : ℕ} (hn : n = 2 ^ 31 - 1) :
    ∃ b, Canonical b ∧ before b (List.replicate 28 2) = none := by
  have hnext : (List.replicate 28 (1 : Byte)).head? ≠ some 0 := by decide
  have hwrite : writeEncodedRunLength (n % 2 ^ 32) true = some (bigEndian (0xffffffff - n)) := by
    rw [Nat.mod_eq_of_lt (by omega), writeEncodedRunLength, if_neg (by omega)]
    rfl
  have hcompressed : compressImpl (List.replicate n 0 ++ List.replicate 28 1) =
      some (List.replicate 4 0 ++ (bigEndian (0xffffffff - n) ++
        (List.replicate 4 1 ++ bigEndian 28))) := by
    rw [compressImpl_replicate (by omega) hnext, compressImpl_run 1 (by decide) (by decide)]
    rw [show encodeHigh 0 (List.replicate 28 1) = true from rfl, hwrite]
    rfl
  have hmade : Made (List.replicate n 0 ++ List.replicate 28 1)
      ⟨List.replicate 4 0 ++ (bigEndian (0xffffffff - n) ++
        (List.replicate 4 1 ++ bigEndian 28)), true⟩ := by
    refine ⟨UniqueSuffix.isValidBytes ⟨by decide, by decide⟩ _, ?_, hcompressed, rfl⟩
    apply runsBelow_of_length
    rw [List.length_append, List.length_replicate, List.length_replicate]
    omega
  refine ⟨_, ⟨_, hmade⟩, ?_⟩
  have hzeroes : findFirstNotOf (List.replicate n 0 ++ List.replicate 28 (1 : Byte)) 0 = some n :=
    findFirstNotOf_replicate (by decide) n (List.replicate 27 1)
  have hdigit : (List.replicate n 0 ++ List.replicate 28 (1 : Byte))[n]? = some 1 := by
    rw [List.getElem?_append_right (by simp), List.length_replicate, Nat.sub_self]
    rfl
  have hfound : findSmallerWithSuffix (List.replicate n 0 ++ List.replicate 28 1)
      (List.replicate 28 2) = some (List.replicate n 0 ++ [0]) := by
    rw [findSmallerWithSuffix, hzeroes,
      show findFirstNotOf (List.replicate 28 (2 : Byte)) 0 = some 0 from rfl]
    dsimp only
    rw [if_neg (Nat.not_lt_zero n), substr_replicate, hdigit]
    rfl
  rw [before, hmade.uncompress_eq, hfound, Option.bind_some, ofUncompressed, List.append_assoc]
  have hrun : List.replicate n (0 : Byte) ++ ([0] ++ List.replicate 28 2) =
      List.replicate (n + 1) 0 ++ List.replicate 28 2 := by
    rw [← List.append_assoc, List.replicate_add n 1]
    rfl
  rw [hrun, compressImpl_replicate (by omega) (by decide), Nat.mod_eq_of_lt (by omega),
    writeEncodedRunLength, if_pos (.inr (by omega))]
  rfl

/-! ### Insertions one after the other -/

/-- The position of what is put between two lists. -/
def positionAt (front back : List UniquePosition) (suffix : List Byte) : Option UniquePosition :=
  match front.getLast?, back.head? with
  | none, none => initialPosition suffix
  | none, some y => before y suffix
  | some x, none => after x suffix
  | some x, some y => between x y suffix

/-- The label is the index where the new position is wanted, and its suffix. -/
def Insertion (positions : List UniquePosition) (label : ℕ × List Byte)
    (positions' : List UniquePosition) : Prop :=
  UniqueSuffix label.2 ∧
    ∃ p, positionAt (positions.take label.1) (positions.drop label.1) label.2 = some p ∧
      positions' = positions.take label.1 ++ p :: positions.drop label.1

/-- The positions sort as they stand in the list. -/
structure Ordered (positions : List UniquePosition) : Prop where
  sorted : positions.Pairwise lessThan
  canonical : ∀ p ∈ positions, Canonical p

lemma Ordered.nodup {positions : List UniquePosition} (h : Ordered positions) :
    (positions.map compressed).Nodup := by
  rw [List.Nodup, List.pairwise_map]
  refine h.sorted.imp fun {p q} hlt heq => ?_
  rw [lessThan, heq] at hlt
  exact List.lt_irrefl _ hlt

/-- The last of a sorted list is the greatest. -/
lemma lessThan_of_getLast? {front : List UniquePosition} {x p : UniquePosition}
    (hsorted : front.Pairwise lessThan) (hx : front.getLast? = some x) (h : x.lessThan p) :
    ∀ z ∈ front, z.lessThan p := by
  obtain ⟨init, rfl⟩ := List.getLast?_eq_some_iff.mp hx
  intro z hz
  rcases List.mem_append.mp hz with hinit | hlast
  · have hlt := (List.pairwise_append.mp hsorted).2.2 z hinit x (List.mem_singleton_self x)
    exact lessThan_trans hlt h
  · rwa [List.mem_singleton.mp hlast]

lemma lessThan_of_head? {back : List UniquePosition} {y p : UniquePosition}
    (hsorted : back.Pairwise lessThan) (hy : back.head? = some y) (h : p.lessThan y) :
    ∀ z ∈ back, p.lessThan z := by
  obtain ⟨rest, rfl⟩ := List.head?_eq_some_iff.mp hy
  intro z hz
  rcases List.mem_cons.mp hz with rfl | hrest
  · exact h
  · exact lessThan_trans h ((List.pairwise_cons.mp hsorted).1 z hrest)

/-- A position is where it is wanted with respect to its neighbours. -/
lemma positionAt_placed {front back : List UniquePosition} {suffix : List Byte}
    {p : UniquePosition} (h : Ordered (front ++ back)) (hs : UniqueSuffix suffix)
    (hp : positionAt front back suffix = some p) :
    Canonical p ∧ (∀ x, front.getLast? = some x → x.lessThan p) ∧
      ∀ y, back.head? = some y → p.lessThan y := by
  have hfront : ∀ x, front.getLast? = some x → x ∈ front := fun x => List.mem_of_getLast?
  have hback : ∀ y, back.head? = some y → y ∈ back := fun y => List.mem_of_head?
  have hcanonical : ∀ x, x ∈ front ∨ x ∈ back → Canonical x :=
    fun x hx => h.canonical x (List.mem_append.mpr hx)
  rw [positionAt] at hp
  cases hlast : front.getLast? with
  | none =>
    cases hhead : back.head? with
    | none =>
      simp only [hlast, hhead] at hp
      exact ⟨initialPosition_canonical hs hp, by simp, by simp⟩
    | some y =>
      simp only [hlast, hhead] at hp
      obtain ⟨hmade, -, hlt⟩ :=
        (before_places (hcanonical y (.inr (hback y hhead))) hs).placed p hp
      exact ⟨hmade, by simp, by simpa using hlt⟩
  | some x =>
    have hx := hcanonical x (.inl (hfront x hlast))
    cases hhead : back.head? with
    | none =>
      simp only [hlast, hhead] at hp
      obtain ⟨hmade, -, hlt⟩ := (after_places hx hs).placed p hp
      exact ⟨hmade, by simpa using hlt, by simp⟩
    | some y =>
      simp only [hlast, hhead] at hp
      have hxy := (List.pairwise_append.mp h.sorted).2.2 x (hfront x hlast) y (hback y hhead)
      obtain ⟨hmade, -, hlow, hhigh⟩ :=
        (between_places hx (hcanonical y (.inr (hback y hhead))) hxy hs).placed p hp
      exact ⟨hmade, by simpa using hlow, by simpa using hhigh⟩

lemma Ordered.insertion {positions positions' : List UniquePosition} {label : ℕ × List Byte}
    (h : Ordered positions) (hstep : Insertion positions label positions') :
    Ordered positions' := by
  obtain ⟨hs, p, hp, rfl⟩ := hstep
  rw [← List.take_append_drop label.1 positions] at h
  obtain ⟨hmade, hlow, hhigh⟩ := positionAt_placed h hs hp
  generalize positions.take label.1 = front at *
  generalize positions.drop label.1 = back at *
  obtain ⟨hfront, hback, hacross⟩ := List.pairwise_append.mp h.sorted
  have hbelow : ∀ z ∈ front, z.lessThan p := by
    cases hlast : front.getLast? with
    | none =>
      rw [List.getLast?_eq_none_iff.mp hlast]
      exact fun z hz => absurd hz List.not_mem_nil
    | some x => exact lessThan_of_getLast? hfront hlast (hlow x hlast)
  have habove : ∀ z ∈ back, p.lessThan z := by
    cases hhead : back.head? with
    | none =>
      rw [List.head?_eq_none_iff.mp hhead]
      exact fun z hz => absurd hz List.not_mem_nil
    | some y => exact lessThan_of_head? hback hhead (hhigh y hhead)
  constructor
  · rw [List.pairwise_append]
    refine ⟨hfront, List.pairwise_cons.mpr ⟨habove, hback⟩, fun z hz z' hz' => ?_⟩
    rcases List.mem_cons.mp hz' with rfl | hz'
    · exact hbelow z hz
    · exact hacross z hz z' hz'
  · intro z hz
    rcases List.mem_append.mp hz with hz | hz
    · exact h.canonical z (List.mem_append_left back hz)
    · rcases List.mem_cons.mp hz with rfl | hz
      · exact hmade
      · exact h.canonical z (List.mem_append_right front hz)

/-- A position can be made before, after and between others, and any sequence of insertions
keeps the positions in the order of the list. -/
theorem insertion_spec {a b : UniquePosition} (ha : Canonical a) (hb : Canonical b)
    (hlt : a.lessThan b) {suffix : List Byte} (hs : UniqueSuffix suffix) :
    Places (findSmallerWithSuffix (uncompress b.compressed) suffix) (before b suffix) suffix
        (·.lessThan b) ∧
      Places (findGreaterWithSuffix (uncompress a.compressed) suffix) (after a suffix) suffix
        (a.lessThan ·) ∧
      Places (findBetweenWithSuffix (uncompress a.compressed) (uncompress b.compressed) suffix)
        (between a b suffix) suffix (fun p => a.lessThan p ∧ p.lessThan b) ∧
      ∀ positions labels positions', Ordered positions →
        Reaches Insertion positions labels positions' →
          Ordered positions' ∧ (positions'.map compressed).Nodup := by
  refine ⟨before_places hb hs, after_places ha hs, between_places ha hb hlt hs, ?_⟩
  intro positions labels positions' hordered hrun
  have hordered' : Ordered positions' :=
    hrun.invariant Ordered hordered fun _ _ _ h hstep => h.insertion hstep
  exact ⟨hordered', hordered'.nodup⟩

/-- Runs of two different bytes, and a suffix between them. -/
theorem insertion_spec_runs :
    ∃ a b suffix, Canonical a ∧ Canonical b ∧ a.lessThan b ∧ UniqueSuffix suffix ∧
      Places (findBetweenWithSuffix (uncompress a.compressed) (uncompress b.compressed) suffix)
        (between a b suffix) suffix (fun p => a.lessThan p ∧ p.lessThan b) := by
  have ha : Canonical ⟨List.replicate 4 1 ++ bigEndian 30, true⟩ :=
    ⟨_, made_run (by decide) (by decide) (by decide)⟩
  have hb : Canonical ⟨List.replicate 4 3 ++ bigEndian 28, true⟩ :=
    ⟨_, made_run (by decide) (by decide) (by decide)⟩
  have hs : UniqueSuffix (List.replicate 28 2) := ⟨by decide, by decide⟩
  exact ⟨_, _, _, ha, hb, by decide, hs, (insertion_spec ha hb (by decide) hs).2.2.1⟩

/-- A position of another client may be counted the other way, and sorts in another place than
its bytes; and a run of zeroes may be too long. -/
theorem insertion_breaks :
    (∃ a suffix p, a = ofInternalRep (List.replicate 4 0x41 ++ [0, 0, 0, 5] ++
          (List.replicate 4 0x42 ++ [0, 0, 0, 24])) ∧ a.isValid ∧
        UniqueSuffix suffix ∧ before a suffix = some p ∧ ¬ p.lessThan a) ∧
      ∃ b suffix, Canonical b ∧ UniqueSuffix suffix ∧ before b suffix = none := by
  constructor
  · have huncompress : uncompress (List.replicate 4 0x41 ++ [0, 0, 0, 5] ++
        (List.replicate 4 0x42 ++ [0, 0, 0, 24])) =
          List.replicate 5 0x41 ++ List.replicate 24 0x42 := by
      rw [uncompress_block (by rfl), ← List.append_nil (List.replicate 4 0x42 ++ [0, 0, 0, 24]),
        uncompress_block (by rfl), uncompress]
      rfl
    have hcompressed : compressImpl (List.replicate 6 0x41 ++ List.replicate 22 0x5a) =
        some (List.replicate 4 0x41 ++ (bigEndian 0xfffffff9 ++
          (List.replicate 4 0x5a ++ bigEndian 22))) := by
      rw [compressImpl_replicate (by decide) (by decide),
        compressImpl_run 0x5a (by decide) (by decide)]
      rfl
    have hbefore : before (ofInternalRep (List.replicate 4 0x41 ++ [0, 0, 0, 5] ++
        (List.replicate 4 0x42 ++ [0, 0, 0, 24])))
          (List.replicate 6 0x41 ++ List.replicate 22 0x5a) =
        some ⟨List.replicate 4 0x41 ++ (bigEndian 0xfffffff9 ++
          (List.replicate 4 0x5a ++ bigEndian 22)), true⟩ := by
      rw [before, ofInternalRep, huncompress,
        show findSmallerWithSuffix (List.replicate 5 0x41 ++ List.replicate 24 0x42)
          (List.replicate 6 0x41 ++ List.replicate 22 0x5a) = some [] by decide,
        Option.bind_some, ofUncompressed, List.nil_append, hcompressed]
      rfl
    refine ⟨_, List.replicate 6 0x41 ++ List.replicate 22 0x5a, _, rfl, ?_,
      ⟨by decide, by decide⟩, hbefore, by decide⟩
    rw [ofInternalRep, huncompress]
    decide
  · obtain ⟨b, hb, hnone⟩ := before_none rfl
    exact ⟨b, List.replicate 28 2, hb, ⟨by decide, by decide⟩, hnone⟩

end UniquePosition

end Chromium
