import Mathlib.Tactic

/-!
# Lists of blocks that tile an interval

An allocator's book-keeping is a list of blocks, each with an offset and a size.
`Tiles o bs e` says that the blocks, in list order, cover `[o, e)` without gaps
and without overlap. The type of blocks is arbitrary.
-/
namespace Chromium.Tiling

/-- A half-open interval of offsets. -/
structure Region where
  offset : ℕ
  size : ℕ
  deriving DecidableEq, Repr

/-- Two regions share no byte. -/
def Region.Disjoint (r s : Region) : Prop :=
  r.offset + r.size ≤ s.offset ∨ s.offset + s.size ≤ r.offset

variable {β : Type*} (offset size : β → ℕ)

/-- Consecutive blocks start where their predecessor ends. -/
def Tiles : ℕ → List β → ℕ → Prop
  | o, [], e => o = e
  | o, b :: bs, e => offset b = o ∧ Tiles (o + size b) bs e

@[simp] theorem tiles_nil (o e : ℕ) : Tiles offset size o [] e ↔ o = e := Iff.rfl

@[simp] theorem tiles_cons (o e : ℕ) (b : β) (bs : List β) :
    Tiles offset size o (b :: bs) e ↔ offset b = o ∧ Tiles offset size (o + size b) bs e :=
  Iff.rfl

theorem tiles_append (o e : ℕ) (as bs : List β) :
    Tiles offset size o (as ++ bs) e ↔
      ∃ m, Tiles offset size o as m ∧ Tiles offset size m bs e := by
  induction as generalizing o with
  | nil => simp
  | cons a as ih =>
    simp only [List.cons_append, tiles_cons, ih]
    constructor
    · rintro ⟨ha, m, hm, hb⟩
      exact ⟨m, ⟨ha, hm⟩, hb⟩
    · rintro ⟨m, ⟨ha, hm⟩, hb⟩
      exact ⟨ha, m, hm, hb⟩

variable {offset size}

theorem Tiles.le {o e : ℕ} {bs : List β} (h : Tiles offset size o bs e) : o ≤ e := by
  induction bs generalizing o with
  | nil => exact le_of_eq h
  | cons b bs ih => exact (Nat.le_add_right _ _).trans (ih h.2)

/-- Every block lies inside the tiled interval. -/
theorem Tiles.mem_bounds {o e : ℕ} {bs : List β} (h : Tiles offset size o bs e) {b : β}
    (hb : b ∈ bs) : o ≤ offset b ∧ offset b + size b ≤ e := by
  induction bs generalizing o with
  | nil => simp at hb
  | cons a bs ih =>
    obtain ⟨ha, ht⟩ := h
    rcases List.mem_cons.mp hb with rfl | hb
    · have := ht.le
      omega
    · have := ih ht hb
      omega

/-- Blocks are listed in the order of their positions. -/
theorem Tiles.pairwise {o e : ℕ} {bs : List β} (h : Tiles offset size o bs e) :
    bs.Pairwise (fun a b => offset a + size a ≤ offset b) := by
  induction bs generalizing o with
  | nil => exact List.Pairwise.nil
  | cons a bs ih =>
    obtain ⟨ha, ht⟩ := h
    refine List.Pairwise.cons (fun b hb => ?_) (ih ht)
    have := ht.mem_bounds hb
    omega

/-- The sizes of the blocks add up to the length of the interval. -/
theorem Tiles.sum_size {o e : ℕ} {bs : List β} (h : Tiles offset size o bs e) :
    o + (bs.map size).sum = e := by
  induction bs generalizing o with
  | nil => simpa using h
  | cons a bs ih =>
    have := ih h.2
    simp only [List.map_cons, List.sum_cons]
    omega

/-- An alignment shared by the start and by all sizes is shared by all offsets. -/
theorem Tiles.dvd_offset {o e k : ℕ} {bs : List β} (h : Tiles offset size o bs e) (ho : k ∣ o)
    (hs : ∀ b ∈ bs, k ∣ size b) : ∀ b ∈ bs, k ∣ offset b := by
  induction bs generalizing o with
  | nil => simp
  | cons a bs ih =>
    obtain ⟨ha, ht⟩ := h
    have hsa := hs a (List.mem_cons_self ..)
    have hrest := ih ht (Nat.dvd_add ho hsa) fun b hb => hs b (List.mem_cons_of_mem _ hb)
    intro b hb
    rcases List.mem_cons.mp hb with rfl | hb
    · rwa [ha]
    · exact hrest b hb

/-- Two listed blocks are the same entry or do not overlap. -/
theorem Tiles.disjoint_or_eq {o e : ℕ} {bs : List β} (h : Tiles offset size o bs e) {a b : β}
    (ha : a ∈ bs) (hb : b ∈ bs) :
    a = b ∨ offset a + size a ≤ offset b ∨ offset b + size b ≤ offset a := by
  induction bs generalizing o with
  | nil => simp at ha
  | cons c bs ih =>
    obtain ⟨hc, ht⟩ := h
    rcases List.mem_cons.mp ha with rfl | ha'
    · rcases List.mem_cons.mp hb with rfl | hb'
      · exact .inl rfl
      · have := ht.mem_bounds hb'
        exact .inr (.inl (by omega))
    · rcases List.mem_cons.mp hb with rfl | hb'
      · have := ht.mem_bounds ha'
        exact .inr (.inr (by omega))
      · exact ih ht ha' hb'

/-- Blocks of positive size with one offset are one entry. -/
theorem Tiles.eq_of_offset_eq {o e : ℕ} {bs : List β} (h : Tiles offset size o bs e)
    (hpos : ∀ b ∈ bs, 0 < size b) {a b : β} (ha : a ∈ bs) (hb : b ∈ bs)
    (hab : offset a = offset b) : a = b := by
  have hpa := hpos a ha
  have hpb := hpos b hb
  rcases h.disjoint_or_eq ha hb with heq | hlt | hlt
  · exact heq
  · omega
  · omega

theorem Tiles.snoc {o e : ℕ} {bs : List β} (h : Tiles offset size o bs e) {b : β}
    (hb : offset b = e) : Tiles offset size o (bs ++ [b]) (e + size b) :=
  (tiles_append ..).mpr ⟨e, h, hb, rfl⟩

/-- Blocks of positive size that cover nothing are none. -/
theorem Tiles.eq_nil {o : ℕ} {bs : List β} (h : Tiles offset size o bs o)
    (hpos : ∀ b ∈ bs, 0 < size b) : bs = [] := by
  cases bs with
  | nil => rfl
  | cons b bs =>
    have hb := hpos b (List.mem_cons_self ..)
    have hle := h.2.le
    omega

/-- The blocks, in list order, cover the circular interval of length `s` that
runs from `i` to `f`: without passing the end, or in two pieces around it. When
`i = f` the interval is empty in the first form and full in the second. -/
def CircularTiles (offset size : β → ℕ) (s i f : ℕ) (bs : List β) : Prop :=
  Tiles offset size i bs f ∨
    ∃ as cs, bs = as ++ cs ∧ as ≠ [] ∧ Tiles offset size i as s ∧
      Tiles offset size 0 cs f ∧ f ≤ i

/-- Blocks of a circular tiling do not overlap. -/
theorem CircularTiles.pairwise {s i f : ℕ} {bs : List β}
    (h : CircularTiles offset size s i f bs) :
    bs.Pairwise fun a b => Region.Disjoint ⟨offset a, size a⟩ ⟨offset b, size b⟩ := by
  rcases h with h | ⟨as, cs, rfl, -, has, hcs, hle⟩
  · exact h.pairwise.imp fun hab => .inl hab
  · refine List.pairwise_append.mpr
      ⟨has.pairwise.imp fun hab => .inl hab, hcs.pairwise.imp fun hab => .inl hab, ?_⟩
    intro a ha c hc
    have hab := has.mem_bounds ha
    have hcb := hcs.mem_bounds hc
    refine .inr ?_
    dsimp only
    omega

/-- Blocks of a circular tiling lie inside the ring. -/
theorem CircularTiles.mem_bounds {s i f : ℕ} {bs : List β}
    (h : CircularTiles offset size s i f bs) (hf : f ≤ s) {b : β} (hb : b ∈ bs) :
    offset b + size b ≤ s := by
  rcases h with h | ⟨as, cs, rfl, -, has, hcs, hle⟩
  · exact (h.mem_bounds hb).2.trans hf
  · rcases List.mem_append.mp hb with hb | hb
    · exact (has.mem_bounds hb).2
    · exact (hcs.mem_bounds hb).2.trans hf

theorem Tiles.replace_last {o e : ℕ} {bs : List β} {b b' : β}
    (h : Tiles offset size o (bs ++ [b]) e) (ho : offset b' = offset b) (hs : size b' = size b) :
    Tiles offset size o (bs ++ [b']) e := by
  rw [tiles_append] at h ⊢
  simpa [ho, hs] using h

/-- A tiling sees only the offset and the size of its last block. -/
theorem CircularTiles.replace_last {s i f : ℕ} {bs : List β} {b b' : β}
    (h : CircularTiles offset size s i f (bs ++ [b])) (ho : offset b' = offset b)
    (hs : size b' = size b) : CircularTiles offset size s i f (bs ++ [b']) := by
  rcases h with h | ⟨as, cs, hsplit, hne, has, hcs, hle⟩
  · exact .inl (h.replace_last ho hs)
  · rcases List.eq_nil_or_concat cs with rfl | ⟨cs, c, rfl⟩
    · rw [List.append_nil] at hsplit
      subst hsplit
      exact .inr ⟨bs ++ [b'], [], by simp, by simp, has.replace_last ho hs, hcs, hle⟩
    · rw [List.concat_eq_append, ← List.append_assoc] at hsplit
      obtain ⟨rfl, hlast⟩ := List.append_inj' hsplit rfl
      obtain rfl : b = c := by simpa using hlast
      rw [List.concat_eq_append] at hcs
      exact .inr ⟨as, cs ++ [b'], by simp, hne, has, hcs.replace_last ho hs, hle⟩

end Chromium.Tiling
