import Kernel64.Paging.Model
import Mathlib.Algebra.BigOperators.Intervals
import Mathlib.Algebra.BigOperators.Ring.Finset
import Mathlib.Algebra.Order.BigOperators.Group.Finset
import Mathlib.Order.Interval.Finset.Nat

/-!
# Counted page tables

A table at level `k < 3` is known by its level and by the number `g` of the group of `512 ^ (k + 1)`
pages it serves. `C k p` is how often page `p` is counted by the tables of level `k`, and a table is
`Live` while it counts something. `PtOk` says that the tables in memory are the live ones: each is
linked from its parent, its `u.refcount` is its count, and no two share a page of memory.

The levels are counted apart because a call changes them one after the other, the upper ones first
when it populates a range and last when it releases one; the counts never grow towards the lower
levels.
-/

namespace Kernel64

namespace Paging

/-! ### Counts -/

/-- Count the pages from `a` to `b` once more. -/
def raiseOn (f : ℕ → ℕ) (a b : ℕ) : ℕ → ℕ := fun p => if a ≤ p ∧ p < b then f p + 1 else f p

/-- Count the pages from `a` to `b` once less. -/
def lowerOn (f : ℕ → ℕ) (a b : ℕ) : ℕ → ℕ := fun p => if a ≤ p ∧ p < b then f p - 1 else f p

theorem sum_raiseOn (f : ℕ → ℕ) {x a b y : ℕ} (hxa : x ≤ a) (hby : b ≤ y) :
    ∑ p ∈ Finset.Ico x y, raiseOn f a b p = ∑ p ∈ Finset.Ico x y, f p + (b - a) := by
  have hsplit : ∀ p, raiseOn f a b p = f p + if a ≤ p ∧ p < b then 1 else 0 := by
    intro p
    simp only [raiseOn]
    split_ifs <;> rfl
  have hfilter : (Finset.Ico x y).filter (fun p => a ≤ p ∧ p < b) = Finset.Ico a b := by
    ext p
    simp only [Finset.mem_filter, Finset.mem_Ico]
    omega
  simp only [hsplit, Finset.sum_add_distrib, Finset.sum_boole, hfilter, Nat.card_Ico, Nat.cast_id]

theorem raiseOn_lowerOn {f : ℕ → ℕ} {a b : ℕ} (h : ∀ p, a ≤ p → p < b → 1 ≤ f p) :
    raiseOn (lowerOn f a b) a b = f := by
  funext p
  simp only [raiseOn, lowerOn]
  split_ifs with hp
  · exact Nat.sub_add_cancel (h p hp.1 hp.2)
  · rfl

theorem sum_lowerOn {f : ℕ → ℕ} {x a b y : ℕ} (hxa : x ≤ a) (hby : b ≤ y)
    (h : ∀ p, a ≤ p → p < b → 1 ≤ f p) :
    ∑ p ∈ Finset.Ico x y, lowerOn f a b p + (b - a) = ∑ p ∈ Finset.Ico x y, f p := by
  rw [← sum_raiseOn (lowerOn f a b) hxa hby, raiseOn_lowerOn h]

/-- Counts of the pages by the tables of each level. -/
abbrev Counts : Type := ℕ → ℕ → ℕ

/-- The pages a table at level `k` serves. -/
def serves (k g : ℕ) : Finset ℕ :=
  Finset.Ico (g * 512 ^ (k + 1)) (g * 512 ^ (k + 1) + 512 ^ (k + 1))

theorem span_pos (k : ℕ) : 0 < 512 ^ k := Nat.pow_pos (by omega)

theorem mem_serves {k g p : ℕ} : p ∈ serves k g ↔ p / 512 ^ (k + 1) = g := by
  have hpos := span_pos (k + 1)
  rw [serves, Finset.mem_Ico, Nat.div_eq_iff hpos]
  omega

/-- The pages of a table are among those of its parent. -/
theorem mem_serves_parent {k g p : ℕ} (h : p ∈ serves k g) : p ∈ serves (k + 1) (g / 512) := by
  rw [mem_serves] at h ⊢
  rw [← h, Nat.div_div_eq_div_mul, pow_succ 512 (k + 1)]

/-- The count of a table. -/
def load (C : Counts) (k g : ℕ) : ℕ := ∑ p ∈ serves k g, C k p

theorem load_pos_iff {C : Counts} {k g : ℕ} : 0 < load C k g ↔ ∃ p ∈ serves k g, 0 < C k p := by
  rw [load, Finset.sum_pos_iff]

theorem load_congr {C C' : Counts} {k g : ℕ} (h : ∀ p ∈ serves k g, C k p = C' k p) :
    load C k g = load C' k g :=
  Finset.sum_congr rfl h

theorem load_mono {C C' : Counts} {k g : ℕ} (h : ∀ p, C k p ≤ C' k p) : load C k g ≤ load C' k g :=
  Finset.sum_le_sum fun p _ => h p

/-- Count pages once more, or once less, at one level. -/
def raiseAt (C : Counts) (k a b : ℕ) : Counts := Function.update C k (raiseOn (C k) a b)

def lowerAt (C : Counts) (k a b : ℕ) : Counts := Function.update C k (lowerOn (C k) a b)

/-- Count pages once more, or once less, at all levels below `k`. -/
def raiseBelow (C : Counts) (k a b : ℕ) : Counts := fun j => if j < k then raiseOn (C j) a b else C j

def lowerBelow (C : Counts) (k a b : ℕ) : Counts := fun j => if j < k then lowerOn (C j) a b else C j

/-! ### Tables in memory -/

/-- Whether a table is needed: the one at the top always, the others while they count something. -/
def Live (C : Counts) (k g : ℕ) : Prop := k = 3 ∧ g = 0 ∨ k < 3 ∧ 0 < load C k g

/-- The page of a table, given the top one and the entries that point to the others. -/
def tab (root : Pfn) (E : ℕ → ℕ → Pte) (k g : ℕ) : Pfn := if k = 3 then root else (E k g).pfn

/-- The lower half of the address space has `2 ^ 35` pages. -/
def userPages : ℕ := 2 ^ 35

/-- **Counted tables.** The tables under `root` are the live ones, with the entries `E`. -/
structure PtOk (s : Phys) (root : Pfn) (E : ℕ → ℕ → Pte) (C : Counts) : Prop where
  mono : ∀ k p, k < 2 → C k p ≤ C (k + 1) p
  user : ∀ k p, k < 3 → userPages ≤ p → C k p = 0
  bound : ∀ k g, k < 3 → load C k g < 2 ^ 64
  entry : ∀ k g, k < 3 → g < 256 * 512 ^ (2 - k) → Live C (k + 1) (g / 512) →
    s.table (tab root E (k + 1) (g / 512)) (g % 512) = if 0 < load C k g then E k g else .zero
  shape : ∀ k g, k < 3 → 0 < load C k g → (E k g).present = true ∧ (E k g).large = false
  count : ∀ k g, k < 3 → 0 < load C k g → s.u (E k g).pfn = BitVec.ofNat 64 (load C k g)
  inj : ∀ k g k' g', Live C k g → Live C k' g' → tab root E k g = tab root E k' g' →
    k = k' ∧ g = g'
  busy : ∀ k g, Live C k g → s.free (tab root E k g) = false

/-- No page outside the tables. -/
def OffTables (root : Pfn) (E : ℕ → ℕ → Pte) (C : Counts) (p : Pfn) : Prop :=
  ∀ k g, Live C k g → tab root E k g ≠ p

section

variable {s s' : Phys} {root : Pfn} {E E' : ℕ → ℕ → Pte} {C C' : Counts} {k g a b : ℕ}

theorem tab_of_lt (h : k < 3) : tab root E k g = (E k g).pfn := by
  rw [tab, if_neg (by omega)]

theorem live_iff_of_lt (h : k < 3) : Live C k g ↔ 0 < load C k g := by
  unfold Live
  constructor
  · rintro (⟨rfl, -⟩ | ⟨-, hl⟩)
    · omega
    · exact hl
  · exact fun hl => Or.inr ⟨h, hl⟩

/-- The parent of a live table is live. -/
theorem PtOk.live_parent (h : PtOk s root E C) (hk : k < 3) (hl : 0 < load C k g) :
    Live C (k + 1) (g / 512) := by
  obtain ⟨p, hp, hpos⟩ := load_pos_iff.1 hl
  rcases Nat.lt_or_ge k 2 with hk2 | hk2
  · rw [live_iff_of_lt (by omega), load_pos_iff]
    exact ⟨p, mem_serves_parent hp, lt_of_lt_of_le hpos (h.mono k p hk2)⟩
  · obtain rfl : k = 2 := by omega
    refine Or.inl ⟨rfl, ?_⟩
    have hp' : p < userPages := by
      by_contra hge
      rw [h.user 2 p (by omega) (by omega)] at hpos
      omega
    rw [mem_serves] at hp
    unfold userPages at hp'
    norm_num at hp hp'
    omega

/-- A live table serves pages of the lower half. -/
theorem PtOk.group_lt (h : PtOk s root E C) (hk : k < 3) (hl : 0 < load C k g) :
    g < 256 * 512 ^ (2 - k) := by
  obtain ⟨p, hp, hpos⟩ := load_pos_iff.1 hl
  have hp' : p < userPages := by
    by_contra hge
    rw [h.user k p hk (by omega)] at hpos
    omega
  rw [mem_serves] at hp
  rw [← hp, Nat.div_lt_iff_lt_mul (span_pos _), Nat.mul_assoc, ← pow_add]
  have : 2 - k + (k + 1) = 3 := by omega
  rw [this]
  exact lt_of_lt_of_le hp' (by norm_num [userPages])

/-! ### Counting at one level -/

/-- The pages from `a` to `b` are served by one table. -/
def Within (k g a b : ℕ) : Prop := g * 512 ^ (k + 1) ≤ a ∧ a ≤ b ∧ b ≤ g * 512 ^ (k + 1) + 512 ^ (k + 1)

theorem Within.mem (h : Within k g a b) {p : ℕ} (hp : a ≤ p ∧ p < b) : p ∈ serves k g := by
  rw [serves, Finset.mem_Ico]
  obtain ⟨h₁, h₂, h₃⟩ := h
  omega

/-- The pages of the lower half are served by the table at the top. -/
theorem within_root (hab : a ≤ b) (hb : b ≤ userPages) : Within 3 0 a b := by
  unfold userPages at hb
  unfold Within
  norm_num
  omega

theorem load_lowerAt_self (h : Within k g a b) (hC : ∀ p, a ≤ p → p < b → 1 ≤ C k p) :
    load (lowerAt C k a b) k g + (b - a) = load C k g := by
  rw [load, load, lowerAt, Function.update_self]
  exact sum_lowerOn h.1 h.2.2 hC

theorem load_raiseAt_self (h : Within k g a b) :
    load (raiseAt C k a b) k g = load C k g + (b - a) := by
  rw [load, load, raiseAt, Function.update_self]
  exact sum_raiseOn _ h.1 h.2.2

theorem load_lowerAt_of_ne (h : Within k g a b) {k' g' : ℕ} (hne : ¬(k' = k ∧ g' = g)) :
    load (lowerAt C k a b) k' g' = load C k' g' := by
  refine load_congr fun p hp => ?_
  by_cases hk : k' = k
  · subst hk
    rw [lowerAt, Function.update_self, lowerOn, if_neg]
    intro hpab
    have h₁ := mem_serves.1 (h.mem hpab)
    rw [mem_serves] at hp
    exact hne ⟨rfl, hp.symm.trans h₁⟩
  · rw [lowerAt, Function.update_of_ne hk]

theorem load_raiseAt_of_ne (h : Within k g a b) {k' g' : ℕ} (hne : ¬(k' = k ∧ g' = g)) :
    load (raiseAt C k a b) k' g' = load C k' g' := by
  refine load_congr fun p hp => ?_
  by_cases hk : k' = k
  · subst hk
    rw [raiseAt, Function.update_self, raiseOn, if_neg]
    intro hpab
    have h₁ := mem_serves.1 (h.mem hpab)
    rw [mem_serves] at hp
    exact hne ⟨rfl, hp.symm.trans h₁⟩
  · rw [raiseAt, Function.update_of_ne hk]

theorem lowerAt_le (C : Counts) (k a b j p : ℕ) : lowerAt C k a b j p ≤ C j p := by
  by_cases hj : j = k
  · subst hj
    rw [lowerAt, Function.update_self, lowerOn]
    split_ifs <;> omega
  · rw [lowerAt, Function.update_of_ne hj]

theorem Live.mono (hle : ∀ j p, C j p ≤ C' j p) (h : Live C k g) : Live C' k g := by
  rcases h with h | ⟨hk, hl⟩
  · exact Or.inl h
  · obtain ⟨p, hp, hpos⟩ := load_pos_iff.1 hl
    exact Or.inr ⟨hk, load_pos_iff.2 ⟨p, hp, lt_of_lt_of_le hpos (hle k p)⟩⟩

/-! ### Dropping references -/

/-- Some tables have lost references, and those with none left are gone. -/
structure Shrink (root : Pfn) (E : ℕ → ℕ → Pte) (s : Phys) (C : Counts) (s' : Phys) (C' : Counts) :
    Prop where
  ok : PtOk s' root E C'
  le : ∀ k p, C' k p ≤ C k p
  off : ∀ p, OffTables root E C p →
    s'.table p = s.table p ∧ s'.u p = s.u p ∧ s'.free p = s.free p
  bytes : s'.bytes = s.bytes
  supply : s'.supply = s.supply
  leaf : ∀ g, 0 < load C' 0 g → s'.table (E 0 g).pfn = s.table (E 0 g).pfn
  freed : ∀ k g, Live C k g → ¬Live C' k g → s'.free (tab root E k g) = true
  upper : ∀ i, 256 ≤ i → s'.table root i = s.table root i
  top : s'.u root = s.u root

theorem PtOk.shrink_self (h : PtOk s root E C) : Shrink root E s C s C :=
  ⟨h, fun _ _ => le_rfl, fun _ _ => ⟨rfl, rfl, rfl⟩, rfl, rfl, fun _ _ => rfl,
    fun _ _ hl hn => absurd hl hn, fun _ _ => rfl, rfl⟩

theorem Shrink.trans {s₁ s₂ s₃ : Phys} {C₁ C₂ C₃ : Counts} (h₁ : PtOk s₁ root E C₁)
    (h : Shrink root E s₁ C₁ s₂ C₂) (h' : Shrink root E s₂ C₂ s₃ C₃) :
    Shrink root E s₁ C₁ s₃ C₃ := by
  have hoff : ∀ p, OffTables root E C₁ p → OffTables root E C₂ p := fun p hp k g hl =>
    hp k g (hl.mono h.le)
  refine ⟨h'.ok, fun k p => (h'.le k p).trans (h.le k p), fun p hp => ?_,
    h'.bytes.trans h.bytes, h'.supply.trans h.supply, fun g hg => ?_, fun k g hl hn => ?_,
    fun i hi => (h'.upper i hi).trans (h.upper i hi), h'.top.trans h.top⟩
  · obtain ⟨h₁, h₂, h₃⟩ := h.off p hp
    obtain ⟨h₁', h₂', h₃'⟩ := h'.off p (hoff p hp)
    exact ⟨h₁'.trans h₁, h₂'.trans h₂, h₃'.trans h₃⟩
  · have hlive := (live_iff_of_lt (by omega)).1
      (Live.mono h'.le ((live_iff_of_lt (by omega : (0 : ℕ) < 3)).2 hg))
    rw [h'.leaf g hg, h.leaf g hlive]
  · by_cases hl₂ : Live C₂ k g
    · exact h'.freed k g hl₂ hn
    · -- the page of a dead table is not one of the others
      have hp : OffTables root E C₂ (tab root E k g) := by
        intro k' g' hl' heq
        obtain ⟨rfl, rfl⟩ := h₁.inj k' g' k g (hl'.mono h.le) hl heq
        exact hl₂ hl'
      rw [(h'.off _ hp).2.2]
      exact h.freed k g hl hl₂

/-- Storing an entry of a table. -/
theorem update_entry_apply (f : Pfn → ℕ → Pte) (t : Pfn) (i : ℕ) (e : Pte) (t' : Pfn) (i' : ℕ) :
    Function.update f t (Function.update (f t) i e) t' i' =
      if t' = t ∧ i' = i then e else f t' i' := by
  by_cases ht : t' = t
  · subst ht
    rw [Function.update_self]
    by_cases hi : i' = i
    · subst hi
      simp
    · simp [hi]
  · simp [ht]

/-- The state after `dropTable`. -/
def dropped (s : Phys) (parent : Pfn) (i : ℕ) (pt : Pfn) (pages : ℕ) : Phys :=
  let w := s.u pt - BitVec.ofNat 64 pages
  { s with
    u := Function.update s.u pt w
    table := fun t j => if w = 0#64 ∧ t = parent ∧ j = i then .zero else s.table t j
    free := fun p => if w = 0#64 ∧ p = pt then true else s.free p }

theorem ensures_dropTable {parent pt : Pfn} {i pages : ℕ} {Q : Unit → Phys → Prop}
    (hbusy : s.free pt = false) :
    Ensures (dropTable parent i pt pages) s Q ↔ Q () (dropped s parent i pt pages) := by
  have htable : Function.update s.table parent (Function.update (s.table parent) i .zero) =
      fun t j => if t = parent ∧ j = i then .zero else s.table t j := by
    funext t j
    exact update_entry_apply _ _ _ _ _ _
  have hfree : Function.update s.free pt true = fun p => if p = pt then true else s.free p := by
    funext p
    exact Function.update_apply _ _ _ _
  simp only [dropTable, setU, setEntry, freePages, ensures_bind, ensures_get, ensures_modify,
    Function.update_self, dropped, ensures_ite, ensures_pure, htable, hfree, hbusy,
    Bool.false_eq_true]
  by_cases h : s.u pt - BitVec.ofNat 64 pages = 0#64
  · simp [h]
  · simp [h]

/-- **Dropping references** of the pages from `a` to `b` from the table that serves them, when the
tables below it have done so. -/
theorem PtOk.shrink_dropped (h : PtOk s root E C) (hk : k < 3) (hw : Within k g a b) (hab : a < b)
    (hC : ∀ p, a ≤ p → p < b → 1 ≤ C k p)
    (hbelow : ∀ j p, j + 1 = k → a ≤ p → p < b → C j p + 1 ≤ C k p) :
    Shrink root E s C (dropped s (tab root E (k + 1) (g / 512)) (g % 512) (E k g).pfn (b - a))
      (lowerAt C k a b) := by
  have hself := load_lowerAt_self (C := C) hw hC
  have hlive : 0 < load C k g := by omega
  have hliveP := h.live_parent hk hlive
  have hlt : load C k g < 2 ^ 64 := h.bound k g hk
  have hle := lowerAt_le C k a b
  set n := load (lowerAt C k a b) k g with hn
  set parent := tab root E (k + 1) (g / 512) with hparent
  set s' := dropped s parent (g % 512) (E k g).pfn (b - a) with hs'
  have hword : s.u (E k g).pfn - BitVec.ofNat 64 (b - a) = BitVec.ofNat 64 n := by
    rw [h.count k g hk hlive, ← hself, BitVec.ofNat_add, BitVec.add_sub_cancel]
  have hzero : BitVec.ofNat 64 n = 0#64 ↔ n = 0 := by
    rw [← BitVec.toNat_inj, BitVec.toNat_ofNat, Nat.mod_eq_of_lt (by omega)]
    rfl
  have hu : s'.u = Function.update s.u (E k g).pfn (BitVec.ofNat 64 n) := by
    simp only [hs', dropped, hword]
  have htable : ∀ t j, s'.table t j =
      if n = 0 ∧ t = parent ∧ j = g % 512 then .zero else s.table t j := by
    intro t j
    simp only [hs', dropped, hword, hzero]
  have hfree : ∀ p, s'.free p = if n = 0 ∧ p = (E k g).pfn then true else s.free p := by
    intro p
    simp only [hs', dropped, hword, hzero]
  have hpt : tab root E k g = (E k g).pfn := tab_of_lt hk
  have hLive : Live C k g := (live_iff_of_lt hk).2 hlive
  have hlive' : ∀ k' g', Live (lowerAt C k a b) k' g' → Live C k' g' := fun k' g' hl =>
    hl.mono hle
  have hother : ∀ k' g', ¬(k' = k ∧ g' = g) → load (lowerAt C k a b) k' g' = load C k' g' :=
    fun k' g' hne => load_lowerAt_of_ne hw hne
  have hne_pt : ∀ k' g', Live C k' g' → ¬(k' = k ∧ g' = g) → tab root E k' g' ≠ (E k g).pfn := by
    intro k' g' hl hne heq
    exact hne (h.inj k' g' k g hl hLive (heq.trans hpt.symm))
  -- a table other than the parent keeps its entries
  have hkeep : ∀ k' g', Live C k' g' → ¬(k' = k + 1 ∧ g' = g / 512) →
      s'.table (tab root E k' g') = s.table (tab root E k' g') := by
    intro k' g' hl hne
    funext j
    rw [htable, if_neg]
    rintro ⟨-, heq, -⟩
    exact hne (h.inj k' g' (k + 1) (g / 512) hl hliveP heq)
  refine
    { ok :=
        { mono := ?_
          user := fun j p hj hp => Nat.le_zero.1 ((hle j p).trans (h.user j p hj hp).le)
          bound := fun j g' hj => lt_of_le_of_lt (load_mono (hle j)) (h.bound j g' hj)
          entry := ?_
          shape := ?_
          count := ?_
          inj := fun k₁ g₁ k₂ g₂ h₁ h₂ => h.inj k₁ g₁ k₂ g₂ (hlive' _ _ h₁) (hlive' _ _ h₂)
          busy := ?_ }
      le := hle
      off := ?_
      bytes := rfl
      supply := rfl
      leaf := ?_
      freed := ?_
      upper := ?_
      top := ?_ }
  · intro j p hj
    by_cases hjk : j + 1 = k
    · have hj' : j ≠ k := by omega
      rw [lowerAt, Function.update_of_ne hj', hjk, Function.update_self, lowerOn]
      have := h.mono j p hj
      rw [hjk] at this
      split_ifs with hp
      · exact Nat.le_sub_one_of_lt (hbelow j p hjk hp.1 hp.2)
      · exact this
    · refine (hle j p).trans ?_
      rw [lowerAt, Function.update_of_ne hjk]
      exact h.mono j p hj
  · intro k' g' hk' hg' hl
    have hold := h.entry k' g' hk' hg' (hlive' _ _ hl)
    by_cases hsame : k' = k ∧ g' = g
    · obtain ⟨rfl, rfl⟩ := hsame
      rw [htable, ← hn]
      by_cases hn0 : n = 0
      · rw [if_pos ⟨hn0, rfl, rfl⟩, if_neg (by omega)]
      · rw [if_neg (by tauto), hold, if_pos hlive, if_pos (by omega)]
    · rw [hother k' g' hsame, ← hold, htable, if_neg]
      rintro ⟨-, heq, hidx⟩
      obtain ⟨hk₁, hg₁⟩ := h.inj _ _ _ _ (hlive' _ _ hl) hliveP heq
      exact hsame ⟨by omega, by omega⟩
  · intro k' g' hk' hl
    exact h.shape k' g' hk' ((live_iff_of_lt hk').1 (hlive' _ _ ((live_iff_of_lt hk').2 hl)))
  · intro k' g' hk' hl
    by_cases hsame : k' = k ∧ g' = g
    · obtain ⟨rfl, rfl⟩ := hsame
      rw [hu, Function.update_self]
    · have hl' := hl
      rw [hother k' g' hsame] at hl' ⊢
      have hne := hne_pt k' g' ((live_iff_of_lt hk').2 hl') hsame
      rw [tab_of_lt hk'] at hne
      rw [hu, Function.update_of_ne hne]
      exact h.count k' g' hk' hl'
  · intro k' g' hl
    rw [hfree, if_neg]
    · exact h.busy k' g' (hlive' _ _ hl)
    · rintro ⟨hn0, heq⟩
      by_cases hsame : k' = k ∧ g' = g
      · obtain ⟨rfl, rfl⟩ := hsame
        have := (live_iff_of_lt hk).1 hl
        omega
      · exact hne_pt k' g' (hlive' _ _ hl) hsame heq
  · intro p hp
    have hpne : p ≠ (E k g).pfn := fun heq => hp k g hLive (hpt.trans heq.symm)
    refine ⟨?_, ?_, ?_⟩
    · funext j
      rw [htable, if_neg]
      rintro ⟨-, heq, -⟩
      exact hp (k + 1) (g / 512) hliveP heq.symm
    · rw [hu, Function.update_of_ne hpne]
    · rw [hfree, if_neg fun hc => hpne hc.2]
  · intro g' hl
    have hl' := hlive' 0 g' ((live_iff_of_lt (by omega)).2 hl)
    have := hkeep 0 g' hl' (by omega)
    rwa [tab_of_lt (by omega)] at this
  · intro k' g' hl hdead
    by_cases hsame : k' = k ∧ g' = g
    · obtain ⟨rfl, rfl⟩ := hsame
      have hn0 : n = 0 := by
        rw [live_iff_of_lt hk] at hdead
        omega
      rw [hfree, if_pos ⟨hn0, hpt⟩]
    · refine absurd ?_ hdead
      rcases hl with hl | ⟨hk', hl⟩
      · exact Or.inl hl
      · exact Or.inr ⟨hk', (hother k' g' hsame).symm ▸ hl⟩
  · intro i hi
    rw [htable, if_neg]
    rintro ⟨-, heq, hidx⟩
    -- only the entries of the lower half lead to tables
    have hlevel := (h.inj 3 0 (k + 1) (g / 512) (Or.inl ⟨rfl, rfl⟩) hliveP heq).1
    have hlow := h.group_lt hk hlive
    obtain rfl : k = 2 := by omega
    omega
  · have hne : root ≠ (E k g).pfn := fun heq => by
      have := (h.inj 3 0 k g (Or.inl ⟨rfl, rfl⟩) ((live_iff_of_lt hk).2 hlive)
        (heq.trans (tab_of_lt hk).symm)).1
      omega
    rw [hu, Function.update_of_ne hne]

/-! ### Releasing a range -/

theorem lowerOn_lowerOn (f : ℕ → ℕ) {a m b : ℕ} (ham : a ≤ m) (hmb : m ≤ b) :
    lowerOn (lowerOn f a m) m b = lowerOn f a b := by
  funext p
  simp only [lowerOn]
  split_ifs <;> omega

theorem raiseOn_raiseOn (f : ℕ → ℕ) {a m b : ℕ} (ham : a ≤ m) (hmb : m ≤ b) :
    raiseOn (raiseOn f a m) m b = raiseOn f a b := by
  funext p
  simp only [raiseOn]
  split_ifs <;> omega

theorem lowerBelow_trans (C : Counts) {k a m b : ℕ} (ham : a ≤ m) (hmb : m ≤ b) :
    lowerBelow (lowerBelow C k a m) k m b = lowerBelow C k a b := by
  funext j
  by_cases hj : j < k
  · simp only [lowerBelow, hj, if_true, lowerOn_lowerOn _ ham hmb]
  · simp only [lowerBelow, hj, if_false]

theorem lowerBelow_empty (C : Counts) (k a : ℕ) : lowerBelow C k a a = C := by
  funext j
  have hempty : lowerOn (C j) a a = C j := by
    funext p
    rw [lowerOn, if_neg (by omega)]
  rw [lowerBelow, hempty, ite_self]

theorem lowerAt_lowerBelow (C : Counts) (k a b : ℕ) :
    lowerAt (lowerBelow C k a b) k a b = lowerBelow C (k + 1) a b := by
  funext j
  rcases Nat.lt_trichotomy j k with hj | rfl | hj
  · rw [lowerAt, Function.update_of_ne (by omega)]
    simp only [lowerBelow, hj, if_true, Nat.lt_succ_of_lt hj]
  · rw [lowerAt, Function.update_self]
    simp only [lowerBelow, lt_irrefl, if_false, Nat.lt_succ_self, if_true]
  · rw [lowerAt, Function.update_of_ne (by omega)]
    simp only [lowerBelow, show ¬j < k by omega, show ¬j < k + 1 by omega, if_false]

/-- What one turn of a loop over the entries of a table covers. -/
theorem chunk_spec {k h v hi : ℕ} (hw : Within (k + 1) h v hi) (hlt : v < hi) :
    v < v + chunk (512 ^ (k + 1)) v hi ∧ v + chunk (512 ^ (k + 1)) v hi ≤ hi ∧
    Within k (v / 512 ^ (k + 1)) v (v + chunk (512 ^ (k + 1)) v hi) ∧
    v / 512 ^ (k + 1) / 512 = h ∧
    (v + chunk (512 ^ (k + 1)) v hi < hi →
      entryIndex (512 ^ (k + 1)) (v + chunk (512 ^ (k + 1)) v hi) =
        entryIndex (512 ^ (k + 1)) v + 1) := by
  obtain ⟨hlo, hle, hhi⟩ := hw
  have hpos := span_pos (k + 1)
  have hparent : v / 512 ^ (k + 1) / 512 = h := by
    rw [Nat.div_div_eq_div_mul, ← pow_succ]
    exact mem_serves.1 (Finset.mem_Ico.2 ⟨hlo, by omega⟩)
  have hpow : 512 ^ (k + 1 + 1) = 512 ^ (k + 1) * 512 := pow_succ 512 (k + 1)
  set S := 512 ^ (k + 1) with hS
  set g := v / S with hg
  have hmod : v % S < S := Nat.mod_lt v hpos
  have hdiv : S * g + v % S = v := Nat.div_add_mod v S
  have hcomm : g * S = S * g := Nat.mul_comm g S
  have hchunk : chunk S v hi = min (S - v % S) (hi - v) := rfl
  refine ⟨by omega, by omega, ⟨?_, by omega, ?_⟩, hparent, fun hnext => ?_⟩
  · rw [← hS]
    omega
  · rw [← hS]
    omega
  · have hend : v + chunk S v hi = S * (g + 1) := by
      rw [Nat.mul_succ]
      omega
    have hlast : g + 1 < (h + 1) * 512 := by
      rw [hend] at hnext
      have : S * (g + 1) < S * ((h + 1) * 512) := by
        rw [← Nat.mul_assoc, Nat.mul_comm S (h + 1), Nat.mul_assoc, ← hpow, Nat.succ_mul]
        omega
      exact lt_of_mul_lt_mul_left this (Nat.zero_le S)
    rw [entryIndex, entryIndex, hend, Nat.mul_div_cancel_left _ hpos, ← hg, ptSize]
    omega

/-- `f` releases ranges under the tables at level `k`. -/
def Releases (root : Pfn) (E : ℕ → ℕ → Pte) (k : ℕ) (f : Pfn → ℕ → ℕ → PhysM Unit) : Prop :=
  ∀ (s : Phys) (C : Counts) (g a b : ℕ), PtOk s root E C → Live C k g → Within k g a b →
    (∀ j p, j < k → a ≤ p → p < b → 1 ≤ C j p) →
    Ensures (f (tab root E k g) a b) s fun _ s' => Shrink root E s C s' (lowerBelow C k a b)

theorem releases_zero : Releases root E 0 fun _ _ _ => pure () := by
  intro s C g a b h _ _ _
  rw [ensures_pure, show lowerBelow C 0 a b = C by funext j; simp [lowerBelow]]
  exact h.shrink_self

/-- The loop over the entries of a table, given what it does at each of them. -/
theorem ensures_releaseLoop {child : Pfn → ℕ → ℕ → PhysM Unit} {descends : Pte → Bool} {h hi : ℕ}
    (hk : k < 3) (hchild : Releases root E k child)
    (hdesc : ∀ e : Pte, e.present = true → e.large = false → descends e = true) :
    ∀ (n i v : ℕ) (s : Phys) (C : Counts), PtOk s root E C → Live C (k + 1) h →
      Within (k + 1) h v hi → (∀ j p, j < k + 1 → v ≤ p → p < hi → 1 ≤ C j p) → 1 ≤ n →
      (v < hi → i = entryIndex (512 ^ (k + 1)) v ∧ 513 ≤ n + i) →
      Ensures (releaseLoop (512 ^ (k + 1)) descends child (tab root E (k + 1) h) hi n i v) s
        fun _ s' => Shrink root E s C s' (lowerBelow C (k + 1) v hi)
  | 0, _, _, _, _, _, _, _, _, hn, _ => absurd hn (by omega)
  | n + 1, i, v, s, C, hok, hlive, hw, hC, _, hi' => by
    rw [releaseLoop]
    rcases Nat.lt_or_ge v hi with hlt | hge
    · obtain ⟨hstep, hle, hwc, hparent, hnext⟩ := chunk_spec hw hlt
      set c := chunk (512 ^ (k + 1)) v hi with hc
      set g := v / 512 ^ (k + 1) with hg
      obtain ⟨hidx, hfuel⟩ := hi' hlt
      have hload : 0 < load C k g := load_pos_iff.2 ⟨v, mem_serves.2 hg.symm,
        hC k v (by omega) le_rfl hlt⟩
      have hgl := (live_iff_of_lt hk).2 hload
      have hentry : s.table (tab root E (k + 1) h) i = E k g := by
        have := hok.entry k g hk (hok.group_lt hk hload) (hok.live_parent hk hload)
        rw [hparent, if_pos hload] at this
        rw [hidx]
        exact this
      obtain ⟨hpres, hlarge⟩ := hok.shape k g hk hload
      have hpfn : (E k g).pfn = tab root E k g := (tab_of_lt hk).symm
      rw [if_neg (by omega), ensures_bind, ensures_get, hentry, if_pos (hdesc _ hpres hlarge),
        ensures_bind]
      rw [hpfn]
      refine (hchild s C g v (v + c) hok hgl hwc fun j p hj h₁ h₂ =>
        hC j p (by omega) h₁ (by omega)).mono fun _ s₁ h₁ => ?_
      -- the tables below have dropped the pages, now this one does
      have hk₁ : ∀ p, lowerBelow C k v (v + c) k p = C k p := fun p => by
        simp only [lowerBelow, lt_irrefl, if_false]
      have h₂ := h₁.ok.shrink_dropped hk hwc hstep
        (fun p h₁ h₂ => by rw [hk₁]; exact hC k p (by omega) h₁ (by omega))
        (fun j p hj h₁ h₂ => by
          have hmono := hok.mono j p (by omega)
          have hpos := hC j p (by omega) h₁ (by omega)
          rw [hj] at hmono
          rw [hk₁]
          simp only [lowerBelow, show j < k by omega, if_true, lowerOn, h₁, h₂, and_self]
          omega)
      rw [hparent, Nat.add_sub_cancel_left, lowerAt_lowerBelow, hpfn] at h₂
      have hgidx : g % 512 = i := hidx.symm
      rw [hgidx] at h₂
      have hload₁ : 0 < load (lowerBelow C k v (v + c)) k g := by
        rw [load_congr fun p _ => hk₁ p]
        exact hload
      rw [ensures_bind, ensures_dropTable (h₁.ok.busy k g ((live_iff_of_lt hk).2 hload₁))]
      have h₁₂ := h₁.trans hok h₂
      have hlive₂ : Live (lowerBelow C (k + 1) v (v + c)) (k + 1) h := by
        rcases hlive with hroot | ⟨hk', hl⟩
        · exact Or.inl hroot
        · refine Or.inr ⟨hk', ?_⟩
          rwa [load_congr fun p _ => ?_]
          simp only [lowerBelow, lt_irrefl, if_false]
      have hrest := ensures_releaseLoop hk hchild hdesc n (i + 1) (v + c) _ _ h₂.ok hlive₂
        ⟨hw.1.trans hstep.le, hle, hw.2.2⟩ (fun j p hj h₁ h₂ => ?_) (by
          have : entryIndex (512 ^ (k + 1)) v < 512 := Nat.mod_lt _ (by decide)
          omega) fun hlt' => ⟨?_, by omega⟩
      · refine hrest.mono fun _ s₃ h₃ => ?_
        rw [lowerBelow_trans C hstep.le hle] at h₃
        exact h₁₂.trans hok h₃
      · simp only [lowerBelow, hj, if_true, lowerOn]
        rw [if_neg (by omega)]
        exact hC j p hj (by omega) h₂
      · rw [hnext hlt', hidx]
    · obtain rfl : v = hi := le_antisymm hw.2.1 hge
      rw [if_pos rfl, ensures_pure, lowerBelow_empty]
      exact hok.shrink_self

/-- Releasing under a table, given how its children do it. -/
theorem releases_releaseTable {child : Pfn → ℕ → ℕ → PhysM Unit} {descends : Pte → Bool}
    (hk : k < 3) (hchild : Releases root E k child)
    (hdesc : ∀ e : Pte, e.present = true → e.large = false → descends e = true) :
    Releases root E (k + 1) (releaseTable (512 ^ (k + 1)) descends child) := by
  intro s C g a b hok hlive hw hC
  refine ensures_releaseLoop hk hchild hdesc _ _ _ s C hok hlive hw hC (by decide) fun _ => ⟨rfl, ?_⟩
  rw [ptSize]
  omega

theorem releases_pml2 : Releases root E 1 ptReleasePml2 :=
  releases_releaseTable (by omega) releases_zero fun e h₁ h₂ => by simp [h₁, h₂]

theorem releases_pml3 : Releases root E 2 ptReleasePml3 :=
  releases_releaseTable (by omega) releases_pml2 fun e h₁ _ => h₁

/-- **Releasing a range** of pages that are all counted takes one count from each of them. -/
theorem releases_pml4 : Releases root E 3 ptReleasePml4 :=
  releases_releaseTable (by omega) releases_pml3 fun e h₁ _ => h₁

end

end Paging

end Kernel64
