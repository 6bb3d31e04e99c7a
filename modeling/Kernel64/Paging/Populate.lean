import Kernel64.Paging.Tables

/-!
# Populating a range

`Grow` says what a call that succeeds does to the tables: the old ones stay where they are, the new
ones are made of free pages and empty. When an allocation fails on the way, the call takes back what
it did (`Restored`), so that it either counts the whole range once more or leaves everything as it
was.
-/

namespace Kernel64

namespace Paging

section

variable {s s' s₁ s₂ : Phys} {root : Pfn} {E E₁ E₂ : ℕ → ℕ → Pte} {C C₁ C₂ : Counts}
  {k g a b : ℕ}

/-! ### What a call does -/

/-- Some tables have got references, those that had none are new. -/
structure Grow (root : Pfn) (E : ℕ → ℕ → Pte) (s : Phys) (C : Counts) (E' : ℕ → ℕ → Pte)
    (s' : Phys) (C' : Counts) : Prop where
  ok : PtOk s' root E' C'
  le : ∀ k p, C k p ≤ C' k p
  off : ∀ p, s.free p = false → OffTables root E C p →
    s'.table p = s.table p ∧ s'.u p = s.u p ∧ s'.bytes p = s.bytes p ∧ s'.free p = false
  same : ∀ k g, k < 3 → 0 < load C k g → E' k g = E k g
  leaf : ∀ g, 0 < load C 0 g → s'.table (E 0 g).pfn = s.table (E 0 g).pfn
  fresh : ∀ g, ¬0 < load C 0 g → 0 < load C' 0 g → ∀ i, s'.table (E' 0 g).pfn i = .zero
  new : ∀ k g, Live C' k g → ¬Live C k g → s.free (tab root E' k g) = true
  kept : ∀ p, s.free p = true → OffTables root E' C' p → s'.free p = true
  freed : ∀ p, s'.free p = true → s.free p = true
  upper : ∀ i, 256 ≤ i → s'.table root i = s.table root i
  top : s'.u root = s.u root

/-- The tables are as they were. -/
structure Restored (root : Pfn) (E : ℕ → ℕ → Pte) (s : Phys) (C : Counts) (s' : Phys) : Prop where
  ok : PtOk s' root E C
  off : ∀ p, s.free p = false → OffTables root E C p →
    s'.table p = s.table p ∧ s'.u p = s.u p ∧ s'.bytes p = s.bytes p ∧ s'.free p = false
  leaf : ∀ g, 0 < load C 0 g → s'.table (E 0 g).pfn = s.table (E 0 g).pfn
  free : ∀ p, s'.free p = s.free p
  upper : ∀ i, 256 ≤ i → s'.table root i = s.table root i
  top : s'.u root = s.u root

/-- What the invariant of the tables reads of the memory. -/
theorem PtOk.of_eq (h : PtOk s root E C) (htable : s'.table = s.table) (hu : s'.u = s.u)
    (hfree : s'.free = s.free) : PtOk s' root E C :=
  ⟨h.mono, h.user, h.bound, htable ▸ h.entry, h.shape, hu ▸ h.count, h.inj, hfree ▸ h.busy⟩

/-- It reads the entries of the live tables only. -/
theorem PtOk.of_entries (h : PtOk s root E₁ C) (hE : ∀ k g, k < 3 → 0 < load C k g → E₁ k g = E k g) :
    PtOk s root E C := by
  have htab : ∀ k g, Live C k g → tab root E k g = tab root E₁ k g := by
    intro k g hl
    rcases hl with ⟨rfl, -⟩ | ⟨hk, hl⟩
    · rfl
    · rw [tab_of_lt hk, tab_of_lt hk, hE k g hk hl]
  refine ⟨h.mono, h.user, h.bound, fun k g hk hg hl => ?_, fun k g hk hl => ?_, fun k g hk hl => ?_,
    fun k g k' g' hl hl' heq => ?_, fun k g hl => ?_⟩
  · rw [htab _ _ hl, h.entry k g hk hg hl]
    split_ifs with hpos
    · exact hE k g hk hpos
    · rfl
  · exact hE k g hk hl ▸ h.shape k g hk hl
  · exact hE k g hk hl ▸ h.count k g hk hl
  · rw [htab _ _ hl, htab _ _ hl'] at heq
    exact h.inj k g k' g' hl hl' heq
  · rw [htab _ _ hl]
    exact h.busy k g hl

theorem PtOk.grow_self (h : PtOk s root E C) : Grow root E s C E s C :=
  ⟨h, fun _ _ => le_rfl, fun _ hf _ => ⟨rfl, rfl, rfl, hf⟩, fun _ _ _ _ => rfl, fun _ _ => rfl,
    fun _ hn hl => absurd hl hn, fun _ _ hl hn => absurd hl hn, fun _ hf _ => hf, fun _ hf => hf,
    fun _ _ => rfl, rfl⟩

/-- A table that was live is where it was. -/
theorem Grow.tab_eq (h : Grow root E s C E₁ s₁ C₁) (hl : Live C k g) :
    tab root E₁ k g = tab root E k g := by
  rcases hl with ⟨rfl, -⟩ | ⟨hk, hl⟩
  · rfl
  · rw [tab_of_lt hk, tab_of_lt hk, h.same k g hk hl]

theorem Grow.load_pos (h : Grow root E s C E₁ s₁ C₁) (hk : k < 3) (hl : 0 < load C k g) :
    0 < load C₁ k g :=
  (live_iff_of_lt hk).1 (((live_iff_of_lt hk).2 hl).mono h.le)

/-- A busy page off the tables stays off them. -/
theorem Grow.off_tables (h : Grow root E s C E₁ s₁ C₁) {p : Pfn} (hf : s.free p = false)
    (hp : OffTables root E C p) : OffTables root E₁ C₁ p := by
  intro k g hl heq
  by_cases hold : Live C k g
  · exact hp k g hold ((h.tab_eq hold).symm.trans heq)
  · have := h.new k g hl hold
    rw [heq, hf] at this
    exact Bool.false_ne_true this

theorem Grow.trans (h : Grow root E s C E₁ s₁ C₁) (h' : Grow root E₁ s₁ C₁ E₂ s₂ C₂) :
    Grow root E s C E₂ s₂ C₂ := by
  refine
    { ok := h'.ok
      le := fun k p => (h.le k p).trans (h'.le k p)
      off := fun p hf hp => ?_
      same := fun k g hk hl => (h'.same k g hk (h.load_pos hk hl)).trans (h.same k g hk hl)
      leaf := fun g hl => ?_
      fresh := fun g hn hl i => ?_
      new := fun k g hl hn => ?_
      kept := fun p hf hp => h'.kept p (h.kept p hf fun k g hl heq => ?_) hp
      freed := fun p hf => h.freed p (h'.freed p hf)
      upper := fun i hi => (h'.upper i hi).trans (h.upper i hi)
      top := h'.top.trans h.top }
  · obtain ⟨h₁, h₂, h₃, h₄⟩ := h.off p hf hp
    obtain ⟨h₁', h₂', h₃', h₄'⟩ := h'.off p h₄ (h.off_tables hf hp)
    exact ⟨h₁'.trans h₁, h₂'.trans h₂, h₃'.trans h₃, h₄'⟩
  · have h₁ := h'.leaf g (h.load_pos (by omega) hl)
    rw [h.same 0 g (by omega) hl] at h₁
    rw [h₁, h.leaf g hl]
  · by_cases hmid : 0 < load C₁ 0 g
    · rw [h'.same 0 g (by omega) hmid, h'.leaf g hmid]
      exact h.fresh g hn hmid i
    · exact h'.fresh g hmid hl i
  · by_cases hmid : Live C₁ k g
    · rw [h'.tab_eq hmid]
      exact h.new k g hmid hn
    · exact h.freed _ (h'.new k g hl hmid)
  · exact hp k g (hl.mono h'.le) ((h'.tab_eq hl).trans heq)

/-- A failed call changes nothing. -/
theorem Restored.grow (h : Restored root E s C s₁) : Grow root E s C E s₁ C where
  ok := h.ok
  le _ _ := le_rfl
  off := h.off
  same _ _ _ _ := rfl
  leaf := h.leaf
  fresh _ hn hl := absurd hl hn
  new _ _ hl hn := absurd hl hn
  kept p hf _ := (h.free p).trans hf
  freed p hf := (h.free p).symm.trans hf
  upper := h.upper
  top := h.top

/-- A failed call after one that succeeded. -/
theorem Grow.restored (h : Grow root E s C E₁ s₁ C₁) (h' : Restored root E₁ s₁ C₁ s₂) :
    Grow root E s C E₁ s₂ C₁ := h.trans h'.grow

/-- Taking back what was done. -/
theorem Grow.shrink_back (h₀ : PtOk s root E C) (h : Grow root E s C E₁ s₁ C₁)
    (h' : Shrink root E₁ s₁ C₁ s₂ C) : Restored root E s C s₂ := by
  have hok : PtOk s₂ root E C := h'.ok.of_entries h.same
  refine ⟨hok, fun p hf hp => ?_, fun g hl => ?_, fun p => ?_,
    fun i hi => (h'.upper i hi).trans (h.upper i hi), h'.top.trans h.top⟩
  · obtain ⟨h₁, h₂, h₃, h₄⟩ := h.off p hf hp
    obtain ⟨h₁', h₂', h₃'⟩ := h'.off p (h.off_tables hf hp)
    exact ⟨h₁'.trans h₁, h₂'.trans h₂, (congrFun h'.bytes p).trans h₃, h₃'.trans h₄⟩
  · have h₁ := h'.leaf g hl
    rw [h.same 0 g (by omega) hl] at h₁
    rw [h₁, h.leaf g hl]
  · cases hf : s.free p with
    | true =>
      by_cases hp : OffTables root E₁ C₁ p
      · rw [(h'.off p hp).2.2]
        exact h.kept p hf hp
      · -- a table made on the way is free again
        unfold OffTables at hp
        push Not at hp
        obtain ⟨k, g, hl, rfl⟩ := hp
        by_cases hold : Live C k g
        · have := h₀.busy k g hold
          rw [← h.tab_eq hold, hf] at this
          exact absurd this.symm Bool.false_ne_true
        · exact h'.freed k g hl hold
    | false =>
      by_cases hp : OffTables root E C p
      · rw [(h'.off p (h.off_tables hf hp)).2.2]
        exact (h.off p hf hp).2.2.2
      · unfold OffTables at hp
        push Not at hp
        obtain ⟨k, g, hl, rfl⟩ := hp
        exact hok.busy k g hl

/-! ### Adding references -/

/-- The table that serves the pages from `a` to `b` can count them once more. -/
structure Raisable (C : Counts) (k g a b : ℕ) : Prop where
  level : k < 3
  within : Within k g a b
  lt : a < b
  user : b ≤ userPages
  bound : load C k g + (b - a) < 2 ^ 64
  above : ∀ p, k < 2 → a ≤ p → p < b → C k p + 1 ≤ C (k + 1) p

theorem raiseOn_le (f : ℕ → ℕ) {b' : ℕ} (h : b ≤ b') (p : ℕ) :
    raiseOn f a b p ≤ raiseOn f a b' p := by
  simp only [raiseOn]
  split_ifs <;> omega

theorem le_raiseAt (C : Counts) (k a b j p : ℕ) : C j p ≤ raiseAt C k a b j p := by
  by_cases hj : j = k
  · subst hj
    rw [raiseAt, Function.update_self, raiseOn]
    split_ifs <;> omega
  · rw [raiseAt, Function.update_of_ne hj]

theorem PtOk.counts_raiseAt (h : PtOk s root E C) (hr : Raisable C k g a b) :
    (∀ j p, j < 2 → raiseAt C k a b j p ≤ raiseAt C k a b (j + 1) p) ∧
    (∀ j p, j < 3 → userPages ≤ p → raiseAt C k a b j p = 0) ∧
    ∀ j g', j < 3 → load (raiseAt C k a b) j g' < 2 ^ 64 := by
  have hself : ∀ p, raiseAt C k a b k p = if a ≤ p ∧ p < b then C k p + 1 else C k p := fun p => by
    rw [raiseAt, Function.update_self, raiseOn]
  have hother : ∀ j p, j ≠ k → raiseAt C k a b j p = C j p := fun j p hj => by
    rw [raiseAt, Function.update_of_ne hj]
  refine ⟨fun j p hj => ?_, fun j p hj hp => ?_, fun j g' hj => ?_⟩
  · by_cases hjk : j = k
    · subst hjk
      rw [hself, hother _ _ (by omega)]
      split_ifs with hp
      · exact hr.above p hj hp.1 hp.2
      · exact h.mono j p hj
    · rw [hother j p hjk]
      exact (h.mono j p hj).trans (le_raiseAt C k a b _ p)
  · by_cases hjk : j = k
    · subst hjk
      have := hr.user
      rw [hself, if_neg (by omega)]
      exact h.user j p hj hp
    · rw [hother j p hjk]
      exact h.user j p hj hp
  · by_cases hsame : j = k ∧ g' = g
    · obtain ⟨rfl, rfl⟩ := hsame
      rw [load_raiseAt_self hr.within]
      exact hr.bound
    · rw [load_raiseAt_of_ne hr.within hsame]
      exact h.bound j g' hj

/-- Counting pages once more makes no other table live. -/
theorem live_raiseAt (hw : Within k g a b) {k' g' : ℕ} (hne : ¬(k' = k ∧ g' = g)) :
    Live (raiseAt C k a b) k' g' ↔ Live C k' g' := by
  rw [Live, Live, load_raiseAt_of_ne hw hne]

/-- The state after a table has got references. -/
def recounted (s : Phys) (pt : Pfn) (pages : ℕ) : Phys :=
  { s with u := Function.update s.u pt (s.u pt + BitVec.ofNat 64 pages) }

/-- **More references** for a table that is there. -/
theorem PtOk.grow_recounted (h : PtOk s root E C) (hr : Raisable C k g a b)
    (hlive : 0 < load C k g) :
    Grow root E s C E (recounted s (E k g).pfn (b - a)) (raiseAt C k a b) := by
  obtain ⟨hmono, huser, hbound⟩ := h.counts_raiseAt hr
  have hk := hr.level
  have hw := hr.within
  have hself := load_raiseAt_self (C := C) hw
  have hLive : Live C k g := (live_iff_of_lt hk).2 hlive
  have hlive_iff : ∀ k' g', Live (raiseAt C k a b) k' g' ↔ Live C k' g' := by
    intro k' g'
    by_cases hsame : k' = k ∧ g' = g
    · obtain ⟨rfl, rfl⟩ := hsame
      exact ⟨fun _ => hLive, fun hl => hl.mono (le_raiseAt C k' a b)⟩
    · exact live_raiseAt hw hsame
  have hpos_iff : ∀ k' g', k' < 3 → (0 < load (raiseAt C k a b) k' g' ↔ 0 < load C k' g') :=
    fun k' g' hk' => by rw [← live_iff_of_lt hk', hlive_iff, live_iff_of_lt hk']
  have hroot : root ≠ (E k g).pfn := fun heq => by
    have := (h.inj 3 0 k g (Or.inl ⟨rfl, rfl⟩) hLive (heq.trans (tab_of_lt hk).symm)).1
    omega
  refine
    { ok :=
        { mono := hmono
          user := huser
          bound := hbound
          entry := fun k' g' hk' hg' hl => ?_
          shape := fun k' g' hk' hl => h.shape k' g' hk' ((hpos_iff k' g' hk').1 hl)
          count := fun k' g' hk' hl => ?_
          inj := fun k₁ g₁ k₂ g₂ h₁ h₂ => h.inj k₁ g₁ k₂ g₂ ((hlive_iff _ _).1 h₁)
            ((hlive_iff _ _).1 h₂)
          busy := fun k' g' hl => h.busy k' g' ((hlive_iff _ _).1 hl) }
      le := le_raiseAt C k a b
      off := fun p hf hp => ?_
      same := fun _ _ _ _ => rfl
      leaf := fun _ _ => rfl
      fresh := fun g' hn hl => absurd ((hpos_iff 0 g' (by omega)).1 hl) hn
      new := fun k' g' hl hn => absurd ((hlive_iff k' g').1 hl) hn
      kept := fun _ hf _ => hf
      freed := fun _ hf => hf
      upper := fun _ _ => rfl
      top := Function.update_of_ne hroot _ _ }
  · have hold := h.entry k' g' hk' hg' ((hlive_iff _ _).1 hl)
    simp only [hpos_iff k' g' hk']
    exact hold
  · have hl' := (hpos_iff k' g' hk').1 hl
    by_cases hsame : k' = k ∧ g' = g
    · obtain ⟨rfl, rfl⟩ := hsame
      rw [recounted, hself, BitVec.ofNat_add]
      simp only [Function.update_self]
      rw [h.count k' g' hk' hl']
    · have hne : (E k' g').pfn ≠ (E k g).pfn := fun heq => by
        refine hsame (h.inj k' g' k g ((live_iff_of_lt hk').2 hl') hLive ?_)
        rw [tab_of_lt hk', tab_of_lt hk, heq]
      rw [recounted, load_raiseAt_of_ne hw hsame]
      simp only [Function.update_of_ne hne]
      exact h.count k' g' hk' hl'
  · have hne : p ≠ (E k g).pfn := fun heq => hp k g hLive ((tab_of_lt hk).trans heq.symm)
    refine ⟨rfl, ?_, rfl, hf⟩
    simp only [recounted, Function.update_of_ne hne]

/-- The state after a table has been made of the page `p` and entered in its parent. -/
def added (s : Phys) (parent : Pfn) (i : ℕ) (p : Pfn) (e : Pte) (pages : ℕ) : Phys where
  u := Function.update s.u p (BitVec.ofNat 64 pages)
  table := fun t j =>
    if t = parent ∧ j = i then e else if t = p then .zero else s.table t j
  bytes := Function.update s.bytes p fun _ => 0
  free := Function.update s.free p false
  supply := fun n => s.supply (n + 1)

/-- The entries with one more. -/
def withEntry (E : ℕ → ℕ → Pte) (k g : ℕ) (e : Pte) : ℕ → ℕ → Pte :=
  Function.update E k (Function.update (E k) g e)

theorem withEntry_self (E : ℕ → ℕ → Pte) (k g : ℕ) (e : Pte) : withEntry E k g e k g = e := by
  rw [withEntry, Function.update_self, Function.update_self]

theorem withEntry_of_ne {k' g' : ℕ} (e : Pte) (hne : ¬(k' = k ∧ g' = g)) :
    withEntry E k g e k' g' = E k' g' := by
  rw [withEntry]
  by_cases hk : k' = k
  · subst hk
    rw [Function.update_self, Function.update_of_ne fun hg => hne ⟨rfl, hg⟩]
  · rw [Function.update_of_ne hk]

/-- **A new table.** -/
theorem PtOk.grow_added (h : PtOk s root E C) (hr : Raisable C k g a b)
    (hdead : load C k g = 0) (hg : g < 256 * 512 ^ (2 - k)) (hparent : Live C (k + 1) (g / 512))
    {p : Pfn} (hp : s.free p = true) {e : Pte} (he : e.pfn = p ∧ e.present = true ∧ e.large = false) :
    Grow root E s C (withEntry E k g e)
      (added s (tab root E (k + 1) (g / 512)) (g % 512) p e (b - a)) (raiseAt C k a b) := by
  obtain ⟨hmono, huser, hbound⟩ := h.counts_raiseAt hr
  obtain ⟨hpfn, hpres, hlarge⟩ := he
  have hk := hr.level
  have hw := hr.within
  have hself : load (raiseAt C k a b) k g = b - a := by
    rw [load_raiseAt_self hw, hdead, Nat.zero_add]
  have hpos : 0 < load (raiseAt C k a b) k g := by
    have := hr.lt
    omega
  have hnot : ¬Live C k g := by rw [live_iff_of_lt hk]; omega
  set E' := withEntry E k g e with hE'
  have hEself : E' k g = e := withEntry_self E k g e
  have hEne : ∀ k' g', ¬(k' = k ∧ g' = g) → E' k' g' = E k' g' := fun _ _ hne =>
    withEntry_of_ne e hne
  have htab : tab root E' k g = p := by rw [tab_of_lt hk, hEself, hpfn]
  have htab_ne : ∀ k' g', ¬(k' = k ∧ g' = g) → tab root E' k' g' = tab root E k' g' := by
    intro k' g' hne
    rw [tab, tab, hEne k' g' hne]
  -- a page of the old tables is not the new one
  have hbusy : ∀ k' g', Live C k' g' → tab root E k' g' ≠ p := by
    intro k' g' hl heq
    have := h.busy k' g' hl
    rw [heq, hp] at this
    exact Bool.false_ne_true this.symm
  have hne_of : ∀ k' g', Live C k' g' → ¬(k' = k ∧ g' = g) := by
    rintro k' g' hl ⟨rfl, rfl⟩
    exact hnot hl
  have hlive_ne : ∀ k' g', ¬(k' = k ∧ g' = g) → (Live (raiseAt C k a b) k' g' ↔ Live C k' g') :=
    fun k' g' hne => live_raiseAt hw hne
  set parent := tab root E (k + 1) (g / 512) with hparent_def
  set s' := added s parent (g % 512) p e (b - a) with hs'
  have hparent_ne : parent ≠ p := hbusy _ _ hparent
  have hkeep : ∀ k' g', Live C k' g' → ∀ j, ¬(k' = k + 1 ∧ g' = g / 512 ∧ j = g % 512) →
      s'.table (tab root E k' g') j = s.table (tab root E k' g') j := by
    intro k' g' hl j hne
    simp only [hs', added]
    rw [if_neg, if_neg (hbusy k' g' hl)]
    rintro ⟨heq, hj⟩
    obtain ⟨h₁, h₂⟩ := h.inj _ _ _ _ hl hparent heq
    exact hne ⟨h₁, h₂, hj⟩
  refine
    { ok :=
        { mono := hmono
          user := huser
          bound := hbound
          entry := fun k' g' hk' hg' hl => ?_
          shape := fun k' g' hk' hl => ?_
          count := fun k' g' hk' hl => ?_
          inj := fun k₁ g₁ k₂ g₂ h₁ h₂ heq => ?_
          busy := fun k' g' hl => ?_ }
      le := le_raiseAt C k a b
      off := fun q hf hq => ?_
      same := fun k' g' hk' hl => hEne k' g' (hne_of k' g' ((live_iff_of_lt hk').2 hl))
      leaf := fun g' hl => ?_
      fresh := fun g' hn hl i => ?_
      new := fun k' g' hl hn => ?_
      kept := fun q hf hq => ?_
      freed := fun q hf => ?_
      upper := fun i hi => ?_
      top := ?_ }
  · by_cases hsame : k' = k ∧ g' = g
    · obtain ⟨rfl, rfl⟩ := hsame
      rw [htab_ne _ _ (by omega), if_pos hpos, hEself]
      simp only [hs', added, hparent_def, and_self, if_true]
    · rw [load_raiseAt_of_ne hw hsame, hEne k' g' hsame]
      by_cases hchild : k' + 1 = k ∧ g' / 512 = g
      · -- the entries of the new table
        obtain ⟨hk₁, hg₁⟩ := hchild
        have hdead' : ¬0 < load C k' g' := fun hl' => by
          have := h.live_parent hk' hl'
          rw [hk₁, hg₁] at this
          exact hnot this
        rw [if_neg hdead', hk₁, hg₁, htab]
        simp only [hs', added]
        rw [if_neg fun hc => hparent_ne hc.1.symm, if_pos trivial]
      · rw [hlive_ne _ _ hchild] at hl
        rw [htab_ne _ _ hchild, ← h.entry k' g' hk' hg' hl]
        refine hkeep _ _ hl _ ?_
        rintro ⟨h₁, h₂, h₃⟩
        exact hsame ⟨by omega, by omega⟩
  · by_cases hsame : k' = k ∧ g' = g
    · obtain ⟨rfl, rfl⟩ := hsame
      rw [hEself]
      exact ⟨hpres, hlarge⟩
    · rw [load_raiseAt_of_ne hw hsame] at hl
      rw [hEne k' g' hsame]
      exact h.shape k' g' hk' hl
  · by_cases hsame : k' = k ∧ g' = g
    · obtain ⟨rfl, rfl⟩ := hsame
      rw [hEself, hpfn, hself]
      simp only [hs', added, Function.update_self]
    · rw [load_raiseAt_of_ne hw hsame] at hl ⊢
      have hne := hbusy k' g' ((live_iff_of_lt hk').2 hl)
      rw [tab_of_lt hk'] at hne
      rw [hEne k' g' hsame]
      simp only [hs', added, Function.update_of_ne hne]
      exact h.count k' g' hk' hl
  · by_cases h₁' : k₁ = k ∧ g₁ = g
    · by_cases h₂' : k₂ = k ∧ g₂ = g
      · exact ⟨h₁'.1.trans h₂'.1.symm, h₁'.2.trans h₂'.2.symm⟩
      · rw [h₁'.1, h₁'.2, htab, htab_ne _ _ h₂'] at heq
        exact absurd heq.symm (hbusy _ _ ((hlive_ne _ _ h₂').1 h₂))
    · by_cases h₂' : k₂ = k ∧ g₂ = g
      · rw [h₂'.1, h₂'.2, htab, htab_ne _ _ h₁'] at heq
        exact absurd heq (hbusy _ _ ((hlive_ne _ _ h₁').1 h₁))
      · rw [htab_ne _ _ h₁', htab_ne _ _ h₂'] at heq
        exact h.inj _ _ _ _ ((hlive_ne _ _ h₁').1 h₁) ((hlive_ne _ _ h₂').1 h₂) heq
  · by_cases hsame : k' = k ∧ g' = g
    · rw [hsame.1, hsame.2, htab]
      simp only [hs', added, Function.update_self]
    · rw [hlive_ne _ _ hsame] at hl
      rw [htab_ne _ _ hsame]
      simp only [hs', added, Function.update_of_ne (hbusy _ _ hl)]
      exact h.busy _ _ hl
  · have hqp : q ≠ p := fun heq => by
      rw [heq, hp] at hf
      exact Bool.false_ne_true hf.symm
    have hqparent : q ≠ parent := fun heq => hq _ _ hparent heq.symm
    simp only [hs', added, Function.update_of_ne hqp, hqp, hqparent, false_and, if_false, hf,
      and_self]
  · have hl' := (live_iff_of_lt (by omega : (0 : ℕ) < 3)).2 hl
    funext j
    have := hkeep 0 g' hl' j (by omega)
    rwa [tab_of_lt (by omega)] at this
  · by_cases hsame : 0 = k ∧ g' = g
    · obtain ⟨rfl, rfl⟩ := hsame
      rw [hEself, hpfn]
      simp only [hs', added]
      rw [if_neg fun hc => hparent_ne hc.1.symm, if_pos trivial]
    · rw [load_raiseAt_of_ne hw hsame] at hl
      exact absurd hl hn
  · by_cases hsame : k' = k ∧ g' = g
    · rw [hsame.1, hsame.2, htab]
      exact hp
    · exact absurd ((hlive_ne _ _ hsame).1 hl) hn
  · have hqp : q ≠ p := fun heq => hq k g ((live_iff_of_lt hk).2 hpos) (htab.trans heq.symm)
    simp only [hs', added, Function.update_of_ne hqp]
    exact hf
  · by_cases hqp : q = p
    · rw [hqp]
      exact hp
    · simpa only [hs', added, Function.update_of_ne hqp] using hf
  · have hroot : Live C 3 0 := Or.inl ⟨rfl, rfl⟩
    refine hkeep 3 0 hroot i fun hr => ?_
    obtain ⟨hlevel, hgroup, hidx⟩ := hr
    -- only the entries of the lower half lead to tables
    obtain rfl : k = 2 := by omega
    omega
  · have hne : root ≠ p := fun heq =>
      Bool.false_ne_true ((h.busy 3 0 (Or.inl ⟨rfl, rfl⟩)).symm.trans (heq ▸ hp))
    simp only [hs', added, Function.update_of_ne hne]

/-! ### Allocating a table -/

/-- The state after a call of the allocator that returned nothing. -/
def refused (s : Phys) : Phys := { s with supply := fun n => s.supply (n + 1) }

theorem PtOk.restored_refused (h : PtOk s root E C) : Restored root E s C (refused s) :=
  ⟨h.of_eq rfl rfl rfl, fun _ hf _ => ⟨rfl, rfl, rfl, hf⟩, fun _ _ => rfl, fun _ => rfl,
    fun _ _ => rfl, rfl⟩

/-- The state after a page has been allocated for a table. -/
def allocated (s : Phys) (p : Pfn) : Phys where
  u := Function.update s.u p 0#64
  table := Function.update s.table p fun _ => .zero
  bytes := Function.update s.bytes p fun _ => 0
  free := Function.update s.free p false
  supply := fun n => s.supply (n + 1)

theorem ensures_allocPageTable {flags : PteFlags} {Q : Option Pfn → Phys → Prop}
    (hsome : ∀ p, s.free p = true → Q (some p) (allocated s p)) (hnone : Q none (refused s)) :
    Ensures (allocPageTable flags) s Q := by
  rw [allocPageTable, allocPages]
  simp only [ensures_bind, ensures_get, ensures_set]
  cases hsupply : s.supply 0 with
  | none =>
    simp only [ensures_pure]
    exact hnone
  | some r =>
    obtain ⟨p, w⟩ := r
    simp only
    by_cases hp : s.free p = true
    · simp only [hp, if_true, setU, clearPage, ensures_bind, ensures_modify, ensures_pure,
        Function.update_idem]
      exact hsome p hp
    · simp only [hp, Bool.false_eq_true, if_false, ensures_pure]
      exact hnone

/-- Entering the new page in its parent and counting its pages. -/
theorem allocated_eq_added (s : Phys) (t : Pfn) (i : ℕ) (p : Pfn) (e : Pte) (pages : ℕ) :
    ({ allocated s p with
      u := Function.update (allocated s p).u p
        ((allocated s p).u p + BitVec.ofNat 64 pages)
      table := Function.update (allocated s p).table t
        (Function.update ((allocated s p).table t) i e) } : Phys) = added s t i p e pages := by
  have hu : Function.update (allocated s p).u p ((allocated s p).u p + BitVec.ofNat 64 pages) =
      Function.update s.u p (BitVec.ofNat 64 pages) := by
    simp only [allocated, Function.update_self, Function.update_idem, BitVec.zero_add]
  have htable : Function.update (allocated s p).table t
      (Function.update ((allocated s p).table t) i e) =
      fun t' j => if t' = t ∧ j = i then e else if t' = p then .zero else s.table t' j := by
    funext t' j
    rw [update_entry_apply]
    simp only [allocated, Function.update_apply]
    split_ifs <;> rfl
  rw [hu, htable]
  rfl

/-! ### Populating under a table -/

theorem raiseBelow_trans (C : Counts) {k a m b : ℕ} (ham : a ≤ m) (hmb : m ≤ b) :
    raiseBelow (raiseBelow C k a m) k m b = raiseBelow C k a b := by
  funext j
  by_cases hj : j < k
  · simp only [raiseBelow, hj, if_true, raiseOn_raiseOn _ ham hmb]
  · simp only [raiseBelow, hj, if_false]

theorem raiseBelow_empty (C : Counts) (k a : ℕ) : raiseBelow C k a a = C := by
  funext j
  have hempty : raiseOn (C j) a a = C j := by
    funext p
    rw [raiseOn, if_neg (by omega)]
  rw [raiseBelow, hempty, ite_self]

theorem raiseBelow_raiseAt (C : Counts) (k a b : ℕ) :
    raiseBelow (raiseAt C k a b) k a b = raiseBelow C (k + 1) a b := by
  funext j
  rcases Nat.lt_trichotomy j k with hj | rfl | hj
  · simp only [raiseBelow, hj, if_true, Nat.lt_succ_of_lt hj, raiseAt,
      Function.update_of_ne hj.ne]
  · simp only [raiseBelow, lt_irrefl, if_false, Nat.lt_succ_self, if_true, raiseAt,
      Function.update_self]
  · simp only [raiseBelow, show ¬j < k by omega, show ¬j < k + 1 by omega, if_false, raiseAt,
      Function.update_of_ne hj.ne']

theorem raiseBelow_pos {C : Counts} {k lo v j p : ℕ} (hj : j < k + 1) (h₁ : lo ≤ p) (h₂ : p < v) :
    1 ≤ raiseBelow C (k + 1) lo v j p := by
  simp only [raiseBelow, hj, if_true, raiseOn, h₁, h₂, and_self]
  omega

theorem lowerOn_raiseOn (f : ℕ → ℕ) (a b : ℕ) : lowerOn (raiseOn f a b) a b = f := by
  funext p
  simp only [lowerOn, raiseOn]
  split_ifs <;> rfl

theorem lowerBelow_raiseBelow (C : Counts) (k a b : ℕ) :
    lowerBelow (raiseBelow C k a b) k a b = C := by
  funext j
  by_cases hj : j < k
  · simp only [lowerBelow, raiseBelow, hj, if_true, lowerOn_raiseOn]
  · simp only [lowerBelow, raiseBelow, hj, if_false]

theorem lowerAt_raiseAt (C : Counts) (k a b : ℕ) : lowerAt (raiseAt C k a b) k a b = C := by
  rw [lowerAt, raiseAt, Function.update_self, lowerOn_raiseOn, Function.update_idem,
    Function.update_eq_self]

/-- Counts at a level and below it change in either order. -/
theorem lowerBelow_raiseAt (C : Counts) (k lo v v' : ℕ) :
    lowerBelow (raiseAt (raiseBelow C (k + 1) lo v) k v v') (k + 1) lo v = raiseAt C k v v' := by
  funext j p
  by_cases hj : j < k + 1
  · by_cases hjk : j = k
    · subst hjk
      simp only [lowerBelow, raiseAt, raiseBelow, hj, if_true, Function.update_self, lowerOn,
        raiseOn]
      split_ifs <;> omega
    · simp only [lowerBelow, raiseAt, raiseBelow, hj, if_true, Function.update_of_ne hjk,
        lowerOn_raiseOn]
  · have hjk : j ≠ k := by omega
    simp only [lowerBelow, raiseAt, raiseBelow, hj, if_false, Function.update_of_ne hjk]

/-- The pages from `a` to `b` can be counted once more below level `k`. -/
structure Fits (C : Counts) (k a b : ℕ) : Prop where
  user : b ≤ userPages
  bound : ∀ j g, j < k → load (raiseBelow C k a b) j g < 2 ^ 64
  above : ∀ j p, j + 1 = k → k < 3 → a ≤ p → p < b → C j p + 1 ≤ C k p

/-- What a call of one of the functions does: all of its range, or nothing. -/
def Populated (root : Pfn) (E : ℕ → ℕ → Pte) (s : Phys) (C C' : Counts) (rc : ℤ) (s' : Phys) :
    Prop :=
  (rc = 0 ∧ ∃ E', Grow root E s C E' s' C') ∨ (rc = -ENOMEM ∧ Restored root E s C s')

/-- `f` populates ranges under the tables at level `k`. -/
def Populates (root : Pfn) (k : ℕ) (f : Pfn → ℕ → ℕ → PhysM ℤ) : Prop :=
  ∀ (s : Phys) (C : Counts) (E : ℕ → ℕ → Pte) (g a b : ℕ), PtOk s root E C → Live C k g →
    Within k g a b → Fits C k a b →
    Ensures (f (tab root E k g) a b) s (Populated root E s C (raiseBelow C k a b))

/-- How far a call has come: the range is counted up to `v`. -/
structure Progress (root : Pfn) (E₀ : ℕ → ℕ → Pte) (s₀ : Phys) (C₀ : Counts) (k h lo hi v : ℕ)
    (E : ℕ → ℕ → Pte) (s : Phys) : Prop where
  before : PtOk s₀ root E₀ C₀
  grow : Grow root E₀ s₀ C₀ E s (raiseBelow C₀ (k + 1) lo v)
  live : Live C₀ (k + 1) h
  lo_le : lo ≤ v
  within : Within (k + 1) h lo hi
  le_hi : v ≤ hi
  fits : Fits C₀ (k + 1) lo hi

namespace Progress

variable {E₀ : ℕ → ℕ → Pte} {s₀ : Phys} {C₀ : Counts} {h lo hi v : ℕ}

/-- The pages not yet counted. -/
theorem rest (P : Progress root E₀ s₀ C₀ k h lo hi v E s) : Within (k + 1) h v hi :=
  ⟨P.within.1.trans P.lo_le, P.le_hi, P.within.2.2⟩

theorem tab_eq (P : Progress root E₀ s₀ C₀ k h lo hi v E s) :
    tab root E (k + 1) h = tab root E₀ (k + 1) h := P.grow.tab_eq P.live

theorem live_now (P : Progress root E₀ s₀ C₀ k h lo hi v E s) :
    Live (raiseBelow C₀ (k + 1) lo v) (k + 1) h := P.live.mono P.grow.le

/-- The next table can count its part of the range. -/
theorem raisable (P : Progress root E₀ s₀ C₀ k h lo hi v E s) (hk : k < 3) (hlt : v < hi) :
    Raisable (raiseBelow C₀ (k + 1) lo v) k (v / 512 ^ (k + 1)) v
      (v + chunk (512 ^ (k + 1)) v hi) := by
  obtain ⟨hstep, hle, hw, -, -⟩ := chunk_spec P.rest hlt
  have hlo := P.lo_le
  have hCk : ∀ p, v ≤ p → raiseBelow C₀ (k + 1) lo v k p = C₀ k p := fun p hp => by
    simp only [raiseBelow, Nat.lt_succ_self, if_true, raiseOn]
    rw [if_neg (by omega)]
  refine ⟨hk, hw, hstep, hle.trans P.fits.user, ?_, fun p hk2 h₁ h₂ => ?_⟩
  · rw [← load_raiseAt_self hw]
    refine lt_of_le_of_lt (load_mono fun p => ?_) (P.fits.bound k _ (Nat.lt_succ_self k))
    simp only [raiseAt, Function.update_self, raiseBelow, Nat.lt_succ_self, if_true]
    rw [raiseOn_raiseOn _ hlo hstep.le]
    exact raiseOn_le _ hle p
  · rw [hCk p h₁]
    simp only [raiseBelow, lt_irrefl, if_false]
    exact P.fits.above k p rfl (by omega) (by omega) (by omega)

/-- The entry of the next table. -/
theorem entry_eq (P : Progress root E₀ s₀ C₀ k h lo hi v E s) (hk : k < 3) (hlt : v < hi) :
    v / 512 ^ (k + 1) < 256 * 512 ^ (2 - k) ∧
    s.table (tab root E₀ (k + 1) h) (entryIndex (512 ^ (k + 1)) v) =
      if 0 < load (raiseBelow C₀ (k + 1) lo v) k (v / 512 ^ (k + 1)) then
        E k (v / 512 ^ (k + 1)) else .zero := by
  obtain ⟨-, -, -, hparent, -⟩ := chunk_spec P.rest hlt
  have hg : v / 512 ^ (k + 1) < 256 * 512 ^ (2 - k) := by
    have huser := P.fits.user
    rw [Nat.div_lt_iff_lt_mul (span_pos _), Nat.mul_assoc, ← pow_add,
      show 2 - k + (k + 1) = 3 by omega]
    exact lt_of_lt_of_le (by omega : v < userPages) (by decide)
  have hold := P.grow.ok.entry k (v / 512 ^ (k + 1)) hk hg (by rw [hparent]; exact P.live_now)
  rw [hparent, P.tab_eq] at hold
  exact ⟨hg, hold⟩

/-- Going on with the rest. -/
theorem advance (P : Progress root E₀ s₀ C₀ k h lo hi v E s) (hlt : v < hi)
    (hgrow : Grow root E s (raiseBelow C₀ (k + 1) lo v) E₁ s₁
      (raiseBelow (raiseBelow C₀ (k + 1) lo v) (k + 1) v (v + chunk (512 ^ (k + 1)) v hi))) :
    Progress root E₀ s₀ C₀ k h lo hi (v + chunk (512 ^ (k + 1)) v hi) E₁ s₁ := by
  obtain ⟨hstep, hle, -, -, -⟩ := chunk_spec P.rest hlt
  rw [raiseBelow_trans C₀ P.lo_le hstep.le] at hgrow
  exact ⟨P.before, P.grow.trans hgrow, P.live, P.lo_le.trans hstep.le, P.within, hle, P.fits⟩

theorem finished (P : Progress root E₀ s₀ C₀ k h lo hi hi E s) :
    Populated root E₀ s₀ C₀ (raiseBelow C₀ (k + 1) lo hi) 0 s := Or.inl ⟨rfl, E, P.grow⟩

/-- Nothing was allocated for the next part: what was done is taken back. -/
theorem ensures_undo (P : Progress root E₀ s₀ C₀ k h lo hi v E s)
    {release : Pfn → ℕ → ℕ → PhysM Unit} (hrel : Releases root E (k + 1) release) :
    Ensures (release (tab root E₀ (k + 1) h) lo v) (refused s) fun _ s' =>
      Restored root E₀ s₀ C₀ s' := by
  have hgrow := P.grow.restored P.grow.ok.restored_refused
  rw [← P.tab_eq]
  refine (hrel _ _ h lo v hgrow.ok P.live_now ⟨P.within.1, P.lo_le, P.le_hi.trans P.within.2.2⟩
    fun j p hj h₁ h₂ => raiseBelow_pos hj h₁ h₂).mono fun _ s' h' => ?_
  rw [lowerBelow_raiseBelow] at h'
  exact hgrow.shrink_back P.before h'

/-- The next part failed after its table had counted it: that is taken back too. -/
theorem ensures_undo_drop (P : Progress root E₀ s₀ C₀ k h lo hi v E s) (hk : k < 3) (hlt : v < hi)
    {release : Pfn → ℕ → ℕ → PhysM Unit} (hrel : Releases root E₁ (k + 1) release)
    (hgrow : Grow root E s (raiseBelow C₀ (k + 1) lo v) E₁ s₁
      (raiseAt (raiseBelow C₀ (k + 1) lo v) k v (v + chunk (512 ^ (k + 1)) v hi))) :
    Ensures (do
      release (tab root E₀ (k + 1) h) lo v
      dropTable (tab root E₀ (k + 1) h) (entryIndex (512 ^ (k + 1)) v)
        (tab root E₁ k (v / 512 ^ (k + 1))) (chunk (512 ^ (k + 1)) v hi)) s₁
      fun _ s' => Restored root E₀ s₀ C₀ s' := by
  obtain ⟨hstep, hle, hw, hparent, -⟩ := chunk_spec P.rest hlt
  set c := chunk (512 ^ (k + 1)) v hi with hc
  set g := v / 512 ^ (k + 1) with hg
  have hall := P.grow.trans hgrow
  have hlive := P.live_now.mono hgrow.le
  have htab : tab root E₁ (k + 1) h = tab root E₀ (k + 1) h := hall.tab_eq P.live
  rw [ensures_bind, ← htab]
  refine (hrel _ _ h lo v hgrow.ok hlive ⟨P.within.1, P.lo_le, P.le_hi.trans P.within.2.2⟩
    fun j p hj h₁ h₂ => (raiseBelow_pos hj h₁ h₂).trans (hgrow.le j p)).mono fun _ s₂ h₂ => ?_
  rw [lowerBelow_raiseAt C₀ k lo v] at h₂
  have hCk : ∀ p, v ≤ p → p < v + c → raiseAt C₀ k v (v + c) k p = C₀ k p + 1 := fun p h₁ h₂ => by
    rw [raiseAt, Function.update_self, raiseOn, if_pos ⟨h₁, h₂⟩]
  have h₃ := h₂.ok.shrink_dropped hk hw hstep (fun p h₁ h₂ => by rw [hCk p h₁ h₂]; omega)
    (fun j p hj h₁ h₂ => by
      have := P.before.mono j p (by omega)
      rw [hj] at this
      rw [hCk p h₁ h₂, raiseAt, Function.update_of_ne (by omega)]
      omega)
  have hidx : g % 512 = entryIndex (512 ^ (k + 1)) v := rfl
  have hload : 0 < load (raiseAt C₀ k v (v + c)) k g := by
    rw [load_raiseAt_self hw]
    omega
  rw [ensures_dropTable (h₂.ok.busy k g ((live_iff_of_lt hk).2 hload)), tab_of_lt hk]
  rw [hparent, Nat.add_sub_cancel_left, lowerAt_raiseAt, hidx] at h₃
  exact hall.shrink_back P.before (h₂.trans hgrow.ok h₃)

end Progress

/-! ### The loops -/

section Loops

variable {E₀ : ℕ → ℕ → Pte} {s₀ : Phys} {C₀ : Counts} {h lo hi v : ℕ} {flags : PteFlags}

theorem Raisable.child (hr : Raisable C (k + 1) g a b) (hok : PtOk s root E C)
    (hbound : ∀ j g, j < k + 1 → load (raiseBelow C (k + 1) a b) j g < 2 ^ 64) :
    Fits (raiseAt C (k + 1) a b) (k + 1) a b := by
  have hlt := hr.level
  refine ⟨hr.user, fun j g hj => ?_, fun j p hj _ h₁ h₂ => ?_⟩
  · have hsame : ∀ p ∈ serves j g, raiseBelow (raiseAt C (k + 1) a b) (k + 1) a b j p =
        raiseBelow C (k + 1) a b j p := fun p _ => by
      simp only [raiseBelow, hj, if_true, raiseAt, Function.update_of_ne (by omega : j ≠ k + 1)]
    rw [load_congr hsame]
    exact hbound j g hj
  · have := hok.mono j p (by omega)
    rw [hj] at this
    rw [raiseAt, Function.update_of_ne (by omega), Function.update_self, raiseOn,
      if_pos ⟨h₁, h₂⟩]
    omega

/-- The table for the next part of the range has to be populated in turn. -/
theorem Progress.child (P : Progress root E₀ s₀ C₀ (k + 1) h lo hi v E s) (hk : k + 1 < 3) (hlt : v < hi) :
    Live (raiseAt (raiseBelow C₀ (k + 1 + 1) lo v) (k + 1) v (v + chunk (512 ^ (k + 1 + 1)) v hi)) (k + 1)
      (v / 512 ^ (k + 1 + 1)) ∧
    Fits (raiseAt (raiseBelow C₀ (k + 1 + 1) lo v) (k + 1) v (v + chunk (512 ^ (k + 1 + 1)) v hi)) (k + 1) v
      (v + chunk (512 ^ (k + 1 + 1)) v hi) := by
  obtain ⟨hstep, hle, hw, -, -⟩ := chunk_spec P.rest hlt
  refine ⟨?_, (P.raisable hk hlt).child P.grow.ok fun j g hj => ?_⟩
  · rw [live_iff_of_lt hk, load_raiseAt_self hw]
    omega
  · refine lt_of_le_of_lt (load_mono fun p => ?_) (P.fits.bound j g (by omega))
    simp only [raiseBelow, hj, show j < k + 1 + 1 by omega, if_true]
    rw [raiseOn_raiseOn _ P.lo_le hstep.le]
    exact raiseOn_le _ hle p

/-- A table for the next part of the range, found or made. -/
theorem Progress.ensures_ensureTable (P : Progress root E₀ s₀ C₀ k h lo hi v E s) (hk : k < 3)
    (hlt : v < hi) {Q : Option Pfn → Phys → Prop} (hnone : Q none (refused s))
    (hsome : ∀ E₁ s₁ pt, pt = tab root E₁ k (v / 512 ^ (k + 1)) →
      Grow root E s (raiseBelow C₀ (k + 1) lo v) E₁
        (recounted s₁ pt (chunk (512 ^ (k + 1)) v hi))
        (raiseAt (raiseBelow C₀ (k + 1) lo v) k v (v + chunk (512 ^ (k + 1)) v hi)) →
      Q (some pt) s₁) :
    Ensures (ensureTable flags (tab root E₀ (k + 1) h) (entryIndex (512 ^ (k + 1)) v)) s Q := by
  obtain ⟨hg, hentry⟩ := P.entry_eq hk hlt
  obtain ⟨-, -, -, hparent, -⟩ := chunk_spec P.rest hlt
  have hr := P.raisable hk hlt
  have hok := P.grow.ok
  set c := chunk (512 ^ (k + 1)) v hi with hc
  set g := v / 512 ^ (k + 1) with hg_def
  rw [ensureTable, ensures_bind, ensures_get, hentry]
  by_cases hpos : 0 < load (raiseBelow C₀ (k + 1) lo v) k g
  · obtain ⟨hpres, -⟩ := hok.shape k g hk hpos
    rw [if_pos hpos, if_pos hpres, ensures_pure]
    refine hsome E s _ (tab_of_lt hk).symm ?_
    have := hok.grow_recounted hr hpos
    rwa [Nat.add_sub_cancel_left] at this
  · simp only [hpos, if_false, Pte.zero, Bool.false_eq_true]
    rw [ensures_bind]
    refine ensures_allocPageTable (fun p hp => ?_) ?_
    · set e := pageEntry p { flags with large := false } with he
      simp only [setEntry, ensures_bind, ensures_modify, ensures_pure]
      refine hsome (withEntry E k g e) _ p ?_ ?_
      · rw [tab_of_lt hk, withEntry_self]
        rfl
      · have hnew := hok.grow_added hr (by omega) hg (by rw [hparent]; exact P.live_now) hp
          (e := e) ⟨rfl, rfl, rfl⟩
        rw [Nat.add_sub_cancel_left, hparent, P.tab_eq] at hnew
        have hidx : g % 512 = entryIndex (512 ^ (k + 1)) v := rfl
        rw [hidx, ← allocated_eq_added] at hnew
        exact hnew
    · simp only [ensures_pure]
      exact hnone

/-- The loop of the upper levels. -/
theorem Progress.ensures_populateLoop {done : ℕ → ℕ → Bool} {child : Pfn → ℕ → ℕ → PhysM ℤ}
    {release : Pfn → ℕ → ℕ → PhysM Unit} (hk : k + 1 < 3)
    (hdone : ∀ v hi, v ≤ hi → (done v hi = true ↔ v = hi))
    (hchild : Populates root (k + 1) child) (hrel : ∀ E, Releases root E (k + 1 + 1) release) :
    ∀ (n i v : ℕ) (E : ℕ → ℕ → Pte) (s : Phys), Progress root E₀ s₀ C₀ (k + 1) h lo hi v E s →
      1 ≤ n → (v < hi → i = entryIndex (512 ^ (k + 1 + 1)) v ∧ 513 ≤ n + i) →
      Ensures (populateLoop (512 ^ (k + 1 + 1)) done child release flags (tab root E₀ (k + 1 + 1) h) lo hi
        n i v) s (Populated root E₀ s₀ C₀ (raiseBelow C₀ (k + 1 + 1) lo hi))
  | 0, _, _, _, _, _, hn, _ => absurd hn (by omega)
  | n + 1, i, v, E, s, P, _, hi' => by
    rw [populateLoop]
    rcases Nat.lt_or_ge v hi with hlt | hge
    · obtain ⟨hstep, hle, hw, hparent, hnext⟩ := chunk_spec P.rest hlt
      obtain ⟨hidx, hfuel⟩ := hi' hlt
      have hnd : ¬done v hi = true := fun hd => by
        rw [hdone v hi P.le_hi] at hd
        omega
      rw [if_neg hnd, ensures_bind, hidx]
      refine P.ensures_ensureTable hk hlt ?_ fun E₁ s₁ pt hpt hgrow => ?_
      · simp only [ensures_bind, ensures_pure]
        exact (P.ensures_undo (hrel E)).mono fun _ s' h' => Or.inr ⟨rfl, h'⟩
      · subst hpt
        simp only [ensures_bind, ensures_get, setU, ensures_modify]
        obtain ⟨hlive₁, hfits₁⟩ := P.child hk hlt
        refine (hchild _ _ E₁ _ v (v + chunk (512 ^ (k + 1 + 1)) v hi) hgrow.ok hlive₁ hw hfits₁).mono
          fun rc s₂ h₂ => ?_
        rcases h₂ with ⟨rfl, E₂, h₂⟩ | ⟨rfl, h₂⟩
        · rw [if_neg (by simp)]
          rw [raiseBelow_raiseAt] at h₂
          have hfull := hgrow.trans h₂
          refine Progress.ensures_populateLoop hk hdone hchild hrel n _ _ E₂ s₂
            (P.advance hlt hfull) ?_ fun hlt' => ⟨?_, by omega⟩
          · have : entryIndex (512 ^ (k + 1 + 1)) v < 512 := Nat.mod_lt _ (by decide)
            omega
          · rw [hnext hlt']
        · rw [if_pos (by decide)]
          have hall := hgrow.restored h₂
          rw [← bind_assoc, ensures_bind]
          exact (P.ensures_undo_drop hk hlt (hrel E₁) hall).mono fun _ s' h' =>
            ensures_pure.2 (Or.inr ⟨rfl, h'⟩)
    · obtain rfl : v = hi := le_antisymm P.le_hi hge
      rw [if_pos ((hdone v v le_rfl).2 rfl), ensures_pure]
      exact P.finished

/-- The loop of the lowest level with tables below it. -/
theorem Progress.ensures_populatePml2Loop (hflags : flags.large = false) :
    ∀ (n i v : ℕ) (E : ℕ → ℕ → Pte) (s : Phys), Progress root E₀ s₀ C₀ 0 h lo hi v E s →
      1 ≤ n → (v < hi → i = entryIndex 512 v ∧ 513 ≤ n + i) →
      Ensures (populatePml2Loop flags (tab root E₀ 1 h) lo hi n i v) s
        (Populated root E₀ s₀ C₀ (raiseBelow C₀ 1 lo hi))
  | 0, _, _, _, _, _, hn, _ => absurd hn (by omega)
  | n + 1, i, v, E, s, P, _, hi' => by
    rw [populatePml2Loop]
    rcases Nat.lt_or_ge v hi with hlt | hge
    · obtain ⟨hstep, hle, hw, hparent, hnext⟩ := chunk_spec P.rest hlt
      obtain ⟨hg, hentry⟩ := P.entry_eq (by omega) hlt
      obtain ⟨hidx, hfuel⟩ := hi' hlt
      have hr := P.raisable (by omega) hlt
      have hok := P.grow.ok
      simp only [Nat.zero_add, pow_one] at hstep hle hw hparent hnext hg hentry hr
      set c := chunk 512 v hi with hc
      set g := v / 512 with hg_def
      have hback : ∀ C : Counts, raiseAt C 0 v (v + c) = raiseBelow C 1 v (v + c) := fun C => by
        rw [← raiseBelow_raiseAt C 0 v (v + c)]
        funext j
        simp [raiseBelow]
      -- the turns after this one
      have hgo : ∀ E₁ s₁, Grow root E s (raiseBelow C₀ 1 lo v) E₁ s₁
          (raiseAt (raiseBelow C₀ 1 lo v) 0 v (v + c)) →
          Ensures (populatePml2Loop flags (tab root E₀ 1 h) lo hi n (i + 1) (v + c)) s₁
            (Populated root E₀ s₀ C₀ (raiseBelow C₀ 1 lo hi)) := by
        intro E₁ s₁ hgrow
        rw [hback] at hgrow
        have hadv := P.advance hlt (by simpa only [Nat.zero_add, pow_one] using hgrow)
        simp only [Nat.zero_add, pow_one] at hadv
        refine Progress.ensures_populatePml2Loop hflags n (i + 1) (v + c) E₁ s₁ hadv ?_
          fun hlt' => ⟨?_, by omega⟩
        · have : entryIndex 512 v < 512 := Nat.mod_lt _ (by decide)
          omega
        · rw [hnext hlt', hidx]
      rw [if_neg (by omega), ensures_bind, ensures_get, hidx, hentry]
      by_cases hpos : 0 < load (raiseBelow C₀ 1 lo v) 0 g
      · obtain ⟨hpres, hlarge⟩ := hok.shape 0 g (by omega) hpos
        simp only [hpos, if_true, hpres, hlarge, not_true_eq_false, false_and, if_false,
          Bool.false_eq_true, not_false_eq_true, and_self, ensures_bind, ensures_get, setU,
          ensures_modify]
        have hmore := hok.grow_recounted hr hpos
        rw [Nat.add_sub_cancel_left] at hmore
        rw [← hidx]
        exact hgo E _ hmore
      · simp only [hpos, if_false, Pte.zero, hflags, Bool.false_eq_true, not_false_eq_true,
          and_self, if_true]
        rw [ensures_bind]
        refine ensures_allocPageTable (fun p hp => ?_) ?_
        · simp only [ensures_bind, ensures_get, setU, setEntry, ensures_modify]
          have hnew := hok.grow_added hr (Nat.eq_zero_of_not_pos hpos) hg
            (by rw [hparent]; exact P.live_now) hp (e := pageEntry p flags) ⟨rfl, rfl, hflags⟩
          rw [Nat.add_sub_cancel_left, hparent, P.tab_eq] at hnew
          have hidx' : g % 512 = entryIndex 512 v := rfl
          rw [hidx', ← allocated_eq_added] at hnew
          rw [← hidx] at hnew ⊢
          exact hgo _ _ hnew
        · simp only [ensures_bind, ensures_pure]
          exact (P.ensures_undo releases_pml2).mono fun _ s' h' => Or.inr ⟨rfl, h'⟩
    · obtain rfl : v = hi := le_antisymm P.le_hi hge
      rw [if_pos rfl, ensures_pure]
      exact P.finished

/-- The start of a call. -/
theorem PtOk.progress (hok : PtOk s root E C) (hlive : Live C (k + 1) h)
    (hw : Within (k + 1) h lo hi) (hf : Fits C (k + 1) lo hi) :
    Progress root E s C k h lo hi lo E s := by
  refine ⟨hok, ?_, hlive, le_rfl, hw, hw.2.1, hf⟩
  rw [raiseBelow_empty]
  exact hok.grow_self

end Loops

/-! ### The levels -/

theorem populates_pml2 {flags : PteFlags} (hflags : flags.large = false) :
    Populates root 1 (ptPopulatePml2 flags) := by
  intro s C E g a b hok hlive hw hf
  refine Progress.ensures_populatePml2Loop hflags _ _ _ E s (hok.progress hlive hw hf) (by decide)
    fun _ => ⟨rfl, ?_⟩
  rw [ptSize]
  omega

theorem populates_pml3 {flags : PteFlags} (hflags : flags.large = false) :
    Populates root 2 (ptPopulatePml3 flags) := by
  intro s C E g a b hok hlive hw hf
  refine Progress.ensures_populateLoop (by omega) (fun v hi _ => by simp) (populates_pml2 hflags)
    (fun _ => releases_pml3) _ _ _ E s (hok.progress hlive hw hf) (by decide) fun _ => ⟨rfl, ?_⟩
  rw [ptSize]
  omega

/-- **Populating a range** counts every page of it once more, or fails and leaves the tables as
they were. -/
theorem populates_pml4 {flags : PteFlags} (hflags : flags.large = false) :
    Populates root 3 (ptPopulatePml4 flags) := by
  intro s C E g a b hok hlive hw hf
  refine Progress.ensures_populateLoop (by omega) (fun v hi hle => ?_) (populates_pml3 hflags)
    (fun _ => releases_pml4) _ _ _ E s (hok.progress hlive hw hf) (by decide) fun _ => ⟨rfl, ?_⟩
  · rw [decide_eq_true_iff]
    omega
  · rw [ptSize]
    omega

end

end Paging

end Kernel64
