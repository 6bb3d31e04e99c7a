import Mathlib.Data.Nat.Bitwise
import Mathlib.Data.List.Perm.Basic
import Mathlib.Data.Set.Lattice
import Mathlib.Order.Interval.Set.Nat
import Mathlib.Order.CompletePartialOrder

/-!
# Dyadic blocks

A block of order `k` is a run of `2 ^ k` consecutive naturals that starts at a multiple of
`2 ^ k`. Two aligned blocks are nested or disjoint, so an aligned page that is not the first
page of the block it lies in shares that block with its buddy. `Tiles L S` says that the blocks
of `L` cut the set `S` into pieces; halving a block and joining two buddies keep it.
-/

namespace Kernel64

/-- A run of `2 ^ order` pages from `start` on. -/
structure Block where
  /-- the first page -/
  start : ℕ
  /-- the binary logarithm of the number of pages -/
  order : ℕ
  deriving DecidableEq

namespace Block

/-- The pages of a block. -/
def pages (b : Block) : Set ℕ :=
  {p | b.start ≤ p ∧ p < b.start + 2 ^ b.order}

/-- The block starts at a multiple of its size. -/
def Aligned (b : Block) : Prop :=
  2 ^ b.order ∣ b.start

/-- The two blocks share no page. -/
def Apart (b c : Block) : Prop :=
  ∀ p ∈ b.pages, p ∉ c.pages

theorem Apart.symm {b c : Block} (h : b.Apart c) : c.Apart b :=
  fun p hc hb => h p hb hc

instance : Std.Symm Apart :=
  ⟨fun _ _ h => h.symm⟩

@[simp] theorem mem_pages {b : Block} {p : ℕ} :
    p ∈ b.pages ↔ b.start ≤ p ∧ p < b.start + 2 ^ b.order :=
  Iff.rfl

theorem start_mem_pages (b : Block) : b.start ∈ b.pages :=
  ⟨le_rfl, Nat.lt_add_of_pos_right (Nat.two_pow_pos _)⟩

end Block

/-- The start of the other half of the block of order `k + 1` around `p`. -/
def buddyOf (p k : ℕ) : ℕ :=
  p ^^^ 2 ^ k

/-! ### Buddies -/

theorem xor_one_of_even {m : ℕ} (h : 2 ∣ m) : m ^^^ 1 = m + 1 := by
  obtain ⟨i, rfl⟩ := h
  refine Nat.eq_of_testBit_eq fun j => ?_
  cases j with
  | zero => simp [Nat.testBit_zero]
  | succ j =>
    rw [Nat.testBit_xor, Nat.testBit_succ, Nat.testBit_succ, Nat.testBit_succ]
    have h₁ : 2 * i / 2 = i := by omega
    have h₂ : (2 * i + 1) / 2 = i := by omega
    simp [h₁, h₂]

theorem buddyOf_mul (m k : ℕ) : buddyOf (2 ^ k * m) k = 2 ^ k * (m ^^^ 1) := by
  have h : 2 ^ k * m = m <<< k := by rw [Nat.shiftLeft_eq, Nat.mul_comm]
  have h₁ : 2 ^ k = 1 <<< k := by rw [Nat.shiftLeft_eq, Nat.one_mul]
  rw [buddyOf, h]
  nth_rewrite 1 [h₁]
  rw [← Nat.shiftLeft_xor_distrib, Nat.shiftLeft_eq, Nat.mul_comm]

/-- The lower buddy is twice as well aligned, and its buddy follows it. -/
theorem buddyOf_lower {p k : ℕ} (h : 2 ^ (k + 1) ∣ p) : buddyOf p k = p + 2 ^ k := by
  obtain ⟨m, rfl⟩ := h
  rw [Nat.pow_succ, Nat.mul_assoc, buddyOf_mul, xor_one_of_even ⟨m, rfl⟩, Nat.mul_add,
    Nat.mul_one]

/-- The upper buddy is not, and its buddy precedes it. -/
theorem buddyOf_upper {p k : ℕ} (h : 2 ^ k ∣ p) (h' : ¬ 2 ^ (k + 1) ∣ p) :
    2 ^ (k + 1) ∣ buddyOf p k ∧ buddyOf p k + 2 ^ k = p := by
  obtain ⟨m, rfl⟩ := h
  have hodd : ¬ 2 ∣ m := fun hm => h' (by rw [Nat.pow_succ]; exact Nat.mul_dvd_mul_left _ hm)
  obtain ⟨i, rfl⟩ : ∃ i, m = 2 * i + 1 := ⟨m / 2, by omega⟩
  have hx : (2 * i + 1) ^^^ 1 = 2 * i := by
    rw [← xor_one_of_even ⟨i, rfl⟩, Nat.xor_assoc, Nat.xor_self, Nat.xor_zero]
  rw [buddyOf_mul, hx]
  refine ⟨by rw [Nat.pow_succ]; exact Nat.mul_dvd_mul_left _ ⟨i, rfl⟩, ?_⟩
  rw [Nat.mul_add, Nat.mul_one]

theorem buddyOf_ne (p k : ℕ) : buddyOf p k ≠ p := by
  intro h
  have h0 : p ^^^ 2 ^ k = p ^^^ 0 := by rw [Nat.xor_zero]; exact h
  exact absurd (Nat.xor_right_injective h0) (Nat.two_pow_pos k).ne'

@[simp] theorem buddyOf_buddyOf (p k : ℕ) : buddyOf (buddyOf p k) k = p := by
  rw [buddyOf, buddyOf, Nat.xor_assoc, Nat.xor_self, Nat.xor_zero]

theorem dvd_buddyOf {p k : ℕ} (h : 2 ^ k ∣ p) : 2 ^ k ∣ buddyOf p k := by
  obtain ⟨m, rfl⟩ := h
  rw [buddyOf_mul]
  exact Nat.dvd_mul_right _ _

/-! ### Nesting -/

namespace Block

/-- A page aligned at least as well as the block it lies in is the block's first. -/
theorem Aligned.start_eq {b : Block} {q k : ℕ} (hb : b.Aligned) (hq : 2 ^ k ∣ q)
    (hmem : q ∈ b.pages) (hk : b.order ≤ k) : b.start = q := by
  have hq' : 2 ^ b.order ∣ q := (Nat.pow_dvd_pow 2 hk).trans hq
  obtain ⟨i, hi⟩ := hb
  obtain ⟨j, hj⟩ := hq'
  obtain ⟨h₁, h₂⟩ := hmem
  rw [hi, hj] at h₁ h₂
  have hpos := Nat.two_pow_pos b.order
  have hij : i ≤ j := Nat.le_of_mul_le_mul_left h₁ hpos
  have hji : j < i + 1 := by
    rw [← Nat.mul_succ] at h₂
    exact Nat.lt_of_mul_lt_mul_left h₂
  rw [hi, hj, show i = j by omega]

/-- A block of higher order that holds a page holds the page's whole aligned neighbourhood. -/
theorem Aligned.pages_subset {b : Block} {q k : ℕ} (hb : b.Aligned) (hq : 2 ^ k ∣ q)
    (hmem : q ∈ b.pages) (hk : k ≤ b.order) : (Block.mk q k).pages ⊆ b.pages := by
  obtain ⟨i, hi⟩ : 2 ^ k ∣ b.start := (Nat.pow_dvd_pow 2 hk).trans hb
  obtain ⟨d, hd⟩ : 2 ^ k ∣ 2 ^ b.order := Nat.pow_dvd_pow 2 hk
  obtain ⟨j, hj⟩ := hq
  obtain ⟨h₁, h₂⟩ := hmem
  intro p ⟨hp₁, hp₂⟩
  simp only at hp₁ hp₂
  refine ⟨h₁.trans hp₁, ?_⟩
  rw [hi, hj, hd, ← Nat.mul_add] at h₂
  have hlt : j < i + d := Nat.lt_of_mul_lt_mul_left h₂
  have hle := Nat.mul_le_mul_left (2 ^ k) (Nat.succ_le_of_lt hlt)
  rw [hi, hd]
  rw [hj] at hp₂
  rw [Nat.mul_succ, Nat.mul_add] at hle
  omega

/-- Two buddies lie in the same blocks of higher order. -/
theorem Aligned.buddyOf_mem {b : Block} {q k : ℕ} (hb : b.Aligned) (hq : 2 ^ k ∣ q)
    (hmem : buddyOf q k ∈ b.pages) (hk : k < b.order) : q ∈ b.pages := by
  by_cases hlow : 2 ^ (k + 1) ∣ q
  · rw [buddyOf_lower hlow] at hmem
    obtain ⟨i, hi⟩ : 2 ^ (k + 1) ∣ b.start := (Nat.pow_dvd_pow 2 hk).trans hb
    obtain ⟨j, hj⟩ := hlow
    obtain ⟨h₁, h₂⟩ := hmem
    refine ⟨?_, by omega⟩
    -- the first multiple of `2 ^ (k + 1)` below `q + 2 ^ k` is `q`
    rw [hi, hj] at h₁
    have hlt : 2 ^ (k + 1) * i < 2 ^ (k + 1) * (j + 1) := by
      rw [Nat.mul_succ, Nat.pow_succ] at *
      have := Nat.two_pow_pos k
      omega
    have hij : i < j + 1 := Nat.lt_of_mul_lt_mul_left hlt
    rw [hi, hj]
    exact Nat.mul_le_mul_left _ (Nat.le_of_lt_succ hij)
  · obtain ⟨hdvd, heq⟩ := buddyOf_upper hq hlow
    refine hb.pages_subset hdvd hmem hk ⟨?_, ?_⟩
    · simp only
      omega
    · simp only [Nat.pow_succ]
      have := Nat.two_pow_pos k
      omega

end Block

/-! ### Tilings -/

/-- The pages of a list of blocks. -/
def coverage (L : List Block) : Set ℕ :=
  {p | ∃ b ∈ L, p ∈ b.pages}

@[simp] theorem mem_coverage {L : List Block} {p : ℕ} :
    p ∈ coverage L ↔ ∃ b ∈ L, p ∈ b.pages :=
  Iff.rfl

theorem coverage_cons (b : Block) (L : List Block) :
    coverage (b :: L) = b.pages ∪ coverage L := by
  ext p
  simp

theorem coverage_append (L M : List Block) :
    coverage (L ++ M) = coverage L ∪ coverage M := by
  ext p
  simp [or_and_right, exists_or]

theorem coverage_perm {L M : List Block} (h : L.Perm M) : coverage L = coverage M := by
  ext p
  simp [h.mem_iff]

/-- The blocks of `L` are aligned, share no page and cover exactly `S`. -/
structure Tiles (L : List Block) (S : Set ℕ) : Prop where
  aligned : ∀ b ∈ L, b.Aligned
  apart : L.Pairwise Block.Apart
  covers : coverage L = S

theorem tiles_nil : Tiles [] ∅ :=
  ⟨by simp, List.Pairwise.nil, by ext; simp⟩

theorem Tiles.perm {L M : List Block} {S : Set ℕ} (h : Tiles L S) (hp : L.Perm M) :
    Tiles M S :=
  ⟨fun b hb => h.aligned b (hp.mem_iff.mpr hb),
    (hp.pairwise_iff fun h => h.symm).mp h.apart, (coverage_perm hp) ▸ h.covers⟩

theorem tiles_cons {b : Block} {L : List Block} {S : Set ℕ} :
    Tiles (b :: L) S ↔ b.Aligned ∧ (∀ p ∈ b.pages, p ∉ coverage L) ∧
      Tiles L (coverage L) ∧ b.pages ∪ coverage L = S := by
  constructor
  · intro h
    refine ⟨h.aligned b (by simp), fun p hp ⟨c, hc, hpc⟩ => ?_, ⟨?_, h.apart.of_cons, rfl⟩, ?_⟩
    · exact (List.pairwise_cons.mp h.apart).1 c hc p hp hpc
    · exact fun c hc => h.aligned c (List.mem_cons_of_mem _ hc)
    · rw [← coverage_cons, h.covers]
  · rintro ⟨hb, hd, hL, rfl⟩
    refine ⟨?_, List.pairwise_cons.mpr ⟨fun c hc p hp hpc => hd p hp ⟨c, hc, hpc⟩, hL.apart⟩,
      coverage_cons b L⟩
    intro c hc
    rcases List.mem_cons.mp hc with rfl | hc
    · exact hb
    · exact hL.aligned c hc

/-- A block of the tiling is found by any of its pages. -/
theorem Tiles.exists_mem {L : List Block} {S : Set ℕ} (h : Tiles L S) {p : ℕ} (hp : p ∈ S) :
    ∃ b ∈ L, p ∈ b.pages := by
  rw [← h.covers] at hp
  exact hp

/-- Two blocks of the tiling that share a page are the same block. -/
theorem Tiles.eq_of_mem {L : List Block} {S : Set ℕ} (h : Tiles L S) {b c : Block} {p : ℕ}
    (hb : b ∈ L) (hc : c ∈ L) (hpb : p ∈ b.pages) (hpc : p ∈ c.pages) : b = c := by
  by_contra hne
  exact h.apart.forall hb hc hne p hpb hpc

/-- What the first part of a tiling covers is what the second part leaves. -/
theorem Tiles.coverage_left {L M : List Block} {S : Set ℕ} (h : Tiles (L ++ M) S) :
    coverage L = S \ coverage M := by
  ext p
  rw [← h.covers, coverage_append]
  constructor
  · intro hp
    refine ⟨Or.inl hp, fun hp' => ?_⟩
    obtain ⟨b, hb, hpb⟩ := hp
    obtain ⟨c, hc, hpc⟩ := hp'
    exact (List.pairwise_append.mp h.apart).2.2 b hb c hc p hpb hpc
  · rintro ⟨hp | hp, hp'⟩
    · exact hp
    · exact absurd hp hp'

/-- The two halves of a block. -/
theorem pages_halves (p k : ℕ) :
    (Block.mk p (k + 1)).pages = (Block.mk p k).pages ∪ (Block.mk (p + 2 ^ k) k).pages := by
  ext q
  simp only [Block.mem_pages, Set.mem_union, Nat.pow_succ]
  omega

/-- **Splitting and joining.** A block and its two halves tile the same set. -/
theorem tiles_halves {p k : ℕ} {L : List Block} {S : Set ℕ} (h : 2 ^ (k + 1) ∣ p) :
    Tiles (⟨p, k⟩ :: ⟨p + 2 ^ k, k⟩ :: L) S ↔ Tiles (⟨p, k + 1⟩ :: L) S := by
  have hk : 2 ^ k ∣ p := (Nat.pow_dvd_pow 2 (Nat.le_succ k)).trans h
  have hk' : 2 ^ k ∣ p + 2 ^ k := (Nat.dvd_add_right hk).mpr dvd_rfl
  have happ : ∀ q ∈ (Block.mk p k).pages, q ∉ (Block.mk (p + 2 ^ k) k).pages := by
    intro q hq hq'
    simp only [Block.mem_pages] at hq hq'
    omega
  simp only [tiles_cons, coverage_cons, pages_halves, Block.Aligned, h, hk, hk', true_and,
    Set.mem_union, not_or]
  constructor
  · rintro ⟨h₁, ⟨h₂, h₃, -⟩, rfl⟩
    refine ⟨fun q hq => ?_, h₃, Set.union_assoc _ _ _⟩
    rcases hq with hq | hq
    · exact (h₁ q hq).2
    · exact h₂ q hq
  · rintro ⟨h₁, h₂, rfl⟩
    exact ⟨fun q hq => ⟨happ q hq, h₁ q (Or.inl hq)⟩,
      ⟨fun q hq => h₁ q (Or.inr hq), h₂, trivial⟩, (Set.union_assoc _ _ _).symm⟩

/-! ### Canonical tilings -/

/-- The block of the next order around a block. -/
def Block.parent (b : Block) : Block := ⟨b.start / 2 ^ (b.order + 1) * 2 ^ (b.order + 1), b.order + 1⟩

theorem Block.parent_aligned (b : Block) : b.parent.Aligned :=
  Nat.dvd_mul_left _ _

theorem Block.start_mem_parent (b : Block) : b.start ∈ b.parent.pages := by
  have hpos := Nat.two_pow_pos (b.order + 1)
  have hdiv := Nat.div_add_mod' b.start (2 ^ (b.order + 1))
  have hmod := Nat.mod_lt b.start hpos
  refine ⟨?_, ?_⟩
  · simp only [Block.parent]
    omega
  · simp only [Block.parent]
    omega

/-- The buddy of a block lies in its parent. -/
theorem Block.Aligned.buddyOf_mem_parent {b : Block} (h : b.Aligned) :
    buddyOf b.start b.order ∈ b.parent.pages := by
  refine b.parent_aligned.buddyOf_mem (dvd_buddyOf h) ?_ (Nat.lt_succ_self _)
  rw [buddyOf_buddyOf]
  exact b.start_mem_parent

/-- A block of higher order that holds the first page of a block holds its parent. -/
theorem Block.Aligned.parent_subset {b c : Block} (hc : c.Aligned) (hmem : b.start ∈ c.pages)
    (hlt : b.order < c.order) : b.parent.pages ⊆ c.pages := by
  -- the parent starts inside `c`, as no block boundary of `c` is inside the parent
  have hstart : b.parent.start ∈ c.pages := by
    obtain ⟨i, hi⟩ : 2 ^ (b.order + 1) ∣ c.start := (Nat.pow_dvd_pow 2 hlt).trans hc
    obtain ⟨h₁, h₂⟩ := hmem
    have hle := Nat.div_mul_le_self b.start (2 ^ (b.order + 1))
    refine ⟨?_, lt_of_le_of_lt hle h₂⟩
    have hdiv : i ≤ b.start / 2 ^ (b.order + 1) := by
      rw [Nat.le_div_iff_mul_le (Nat.two_pow_pos _), Nat.mul_comm, ← hi]
      exact h₁
    rw [hi, Nat.mul_comm]
    exact Nat.mul_le_mul_right _ hdiv
  exact hc.pages_subset b.parent_aligned hstart hlt

/-- A tiling by blocks of orders below `N` in which no two buddies could be joined. -/
structure Canonical (N : ℕ) (L : List Block) (S : Set ℕ) : Prop where
  tiles : Tiles L S
  order_lt : ∀ b ∈ L, b.order < N
  maximal : ∀ b ∈ L, b.order + 1 < N → ⟨buddyOf b.start b.order, b.order⟩ ∉ L

section Canonical

variable {N : ℕ} {L M : List Block} {S : Set ℕ}

/-- The pages of a block are in the set that is tiled. -/
theorem Tiles.pages_subset (h : Tiles L S) {b : Block} (hb : b ∈ L) : b.pages ⊆ S := by
  intro p hp
  rw [← h.covers]
  exact ⟨b, hb, hp⟩

/-- The parent of a block of a canonical tiling is not in the set. -/
theorem Canonical.not_parent_subset (h : Canonical N L S) {b : Block} (hb : b ∈ L)
    (hN : b.order + 1 < N) : ¬b.parent.pages ⊆ S := by
  -- by induction on the order: a smaller block inside the buddy has its parent inside it too
  induction hk : b.order using Nat.strong_induction_on generalizing b with
  | _ k ih =>
    subst hk
    intro hsub
    have hal := h.tiles.aligned b hb
    obtain ⟨c, hc, hmem⟩ := h.tiles.exists_mem (hsub hal.buddyOf_mem_parent)
    have hcal := h.tiles.aligned c hc
    have hle : c.order ≤ b.order := by
      by_contra hlt
      have hstart := hcal.buddyOf_mem hal hmem (Nat.lt_of_not_le hlt)
      obtain rfl := h.tiles.eq_of_mem hc hb hstart b.start_mem_pages
      exact hlt le_rfl
    have hstart := hcal.start_eq (dvd_buddyOf hal) hmem hle
    rcases Nat.lt_or_eq_of_le hle with hlt | heq
    · refine ih c.order hlt hc (by omega) rfl fun p hp => hsub ?_
      have hparent : c.parent.pages ⊆ b.parent.pages :=
        b.parent_aligned.parent_subset (hstart ▸ hal.buddyOf_mem_parent)
          (show c.order < b.order + 1 by omega)
      exact hparent hp
    · have hcb : c = ⟨buddyOf b.start b.order, b.order⟩ := by
        rw [← hstart, ← heq]
      exact h.maximal b hb hN (hcb ▸ hc)

/-- A block whose pages are in the set lies in a block of a canonical tiling. -/
theorem Canonical.exists_ge (h : Canonical N L S) {b : Block} (hal : b.Aligned) (hN : b.order < N)
    (hsub : b.pages ⊆ S) : ∃ c ∈ L, b.order ≤ c.order ∧ b.start ∈ c.pages := by
  obtain ⟨c, hc, hmem⟩ := h.tiles.exists_mem (hsub b.start_mem_pages)
  refine ⟨c, hc, ?_, hmem⟩
  by_contra hlt
  rw [not_le] at hlt
  -- a smaller block has its parent inside, and the tiling would have joined it with its buddy
  have hstart := (h.tiles.aligned c hc).start_eq hal hmem hlt.le
  have hparent := hal.parent_subset (hstart ▸ b.start_mem_pages) hlt
  exact h.not_parent_subset hc (by omega) (hparent.trans hsub)

/-- **Canonical tilings are unique.** -/
theorem Canonical.mem_of_mem (h : Canonical N L S) (h' : Canonical N M S) {b : Block}
    (hb : b ∈ L) : b ∈ M := by
  obtain ⟨c, hc, hmem⟩ := h'.tiles.exists_mem (h.tiles.pages_subset hb b.start_mem_pages)
  have hbal := h.tiles.aligned b hb
  have hcal := h'.tiles.aligned c hc
  rcases Nat.lt_trichotomy b.order c.order with hlt | heq | hlt
  · refine absurd ((hcal.parent_subset hmem hlt).trans (h'.tiles.pages_subset hc)) ?_
    exact h.not_parent_subset hb (by have := h'.order_lt c hc; omega)
  · have hstart := hcal.start_eq hbal hmem heq.ge
    have hbc : b = c := by
      cases b
      cases c
      simp_all
    exact hbc ▸ hc
  · have hstart := hcal.start_eq hbal hmem hlt.le
    refine absurd ((hbal.parent_subset (hstart ▸ b.start_mem_pages) hlt).trans
      (h.tiles.pages_subset hb)) ?_
    exact h'.not_parent_subset hc (by have := h.order_lt b hb; omega)

theorem Canonical.mem_iff (h : Canonical N L S) (h' : Canonical N M S) {b : Block} :
    b ∈ L ↔ b ∈ M :=
  ⟨h.mem_of_mem h', h'.mem_of_mem h⟩

/-- Blocks that share no page are different. -/
theorem Tiles.nodup (h : Tiles L S) : L.Nodup := by
  refine h.apart.imp ?_
  rintro b _ happ rfl
  exact happ b.start b.start_mem_pages b.start_mem_pages

end Canonical

end Kernel64
