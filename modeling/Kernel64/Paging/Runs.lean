import Kernel64.Paging.Populate

/-!
# Runs of populating and releasing

Each page of the lower half has a count: how often it was populated, less how often it was
released. A walk from the top of the tables finds a table exactly when a page under it has a count,
and the `u.refcount` of the table is the sum of the counts under it. That is so as long as no such
sum reaches the width of the counter.
-/

namespace Kernel64

namespace Paging

/-! ### Walking to a table -/

/-- The table found by following the entries for the group `g` from the pml4, `n` levels down. -/
def walkTo (s : Phys) (pml4 : Pfn) : ℕ → ℕ → Option Pfn
  | 0, _ => some pml4
  | n + 1, g =>
    match walkTo s pml4 n (g / 512) with
    | none => none
    | some t =>
      let pte := s.table t (g % 512)
      if pte.present ∧ ¬pte.large then some pte.pfn else none

/-- The table at level `k` for the group `g`. -/
def tableAt (s : Phys) (pml4 : Pfn) (k g : ℕ) : Option Pfn := walkTo s pml4 (3 - k) g

section

variable {s s' s₀ : Phys} {root : Pfn} {E E' : ℕ → ℕ → Pte} {C : Counts} {k g a b lo hi : ℕ}
  {c : ℕ → ℕ} {flags : PteFlags}

/-- A walk finds the live tables. -/
theorem PtOk.walkTo_eq (h : PtOk s root E C) :
    ∀ n k g, k + n + 1 = 3 → g < 256 * 512 ^ n →
      walkTo s root (n + 1) g = if 0 < load C k g then some (E k g).pfn else none := by
  have hfound : ∀ k g, k < 3 → ((if 0 < load C k g then E k g else Pte.zero).present = true ∧
      ¬(if 0 < load C k g then E k g else Pte.zero).large = true ↔ 0 < load C k g) := by
    intro k g hk
    by_cases hl : 0 < load C k g
    · obtain ⟨h₁, h₂⟩ := h.shape k g hk hl
      rw [if_pos hl, h₁, h₂]
      exact iff_of_true ⟨rfl, Bool.false_ne_true⟩ hl
    · rw [if_neg hl]
      exact iff_of_false (fun hc => Bool.false_ne_true hc.1) hl
  -- what the last step of the walk does, once it is at the parent
  have hstep : ∀ k g t, k < 3 → g < 256 * 512 ^ (2 - k) → Live C (k + 1) (g / 512) →
      t = tab root E (k + 1) (g / 512) →
      (if (s.table t (g % 512)).present = true ∧ ¬(s.table t (g % 512)).large = true then
        some (s.table t (g % 512)).pfn else none) =
      if 0 < load C k g then some (E k g).pfn else none := by
    rintro k g t hk hg hl rfl
    rw [h.entry k g hk hg hl]
    simp only [hfound k g hk]
    by_cases hload : 0 < load C k g
    · simp only [if_pos hload]
    · simp only [if_neg hload]
  intro n
  induction n with
  | zero =>
    intro k g hk hg
    obtain rfl : k = 2 := by omega
    have hg0 : g / 512 = 0 := by omega
    exact hstep 2 g root (by omega) hg (Or.inl ⟨rfl, hg0⟩) rfl
  | succ n ih =>
    intro k g hk hg
    have hparent := ih (k + 1) (g / 512) (by omega) (by
      rw [pow_succ, ← Nat.mul_assoc] at hg
      exact Nat.div_lt_of_lt_mul (by rwa [Nat.mul_comm] at hg))
    rw [walkTo, hparent]
    by_cases hload : 0 < load C (k + 1) (g / 512)
    · have hn : 2 - k = n + 1 := by omega
      simp only [if_pos hload]
      exact hstep k g _ (by omega) (hn ▸ hg) ((live_iff_of_lt (by omega)).2 hload)
        (tab_of_lt (by omega)).symm
    · have hdead : ¬0 < load C k g := fun hl =>
        hload ((live_iff_of_lt (by omega)).1 (h.live_parent (by omega) hl))
      simp only [if_neg hload, if_neg hdead]

theorem PtOk.tableAt_eq (h : PtOk s root E C) (hk : k < 3) (hg : g < 256 * 512 ^ (2 - k)) :
    tableAt s root k g = if 0 < load C k g then some (E k g).pfn else none := by
  rw [tableAt, show 3 - k = 2 - k + 1 by omega]
  exact h.walkTo_eq (2 - k) k g (by omega) hg

/-! ### Runs -/

/-- The same counts at all levels. -/
def flat (c : ℕ → ℕ) : Counts := fun k => if k < 3 then c else fun _ => 0

theorem load_flat (hk : k < 3) : load (flat c) k g = ∑ p ∈ serves k g, c p := by
  rw [load, flat, if_pos hk]

theorem raiseBelow_flat : raiseBelow (flat c) 3 a b = flat (raiseOn c a b) := by
  funext j
  by_cases hj : j < 3 <;> simp [raiseBelow, flat, hj]

theorem lowerBelow_flat : lowerBelow (flat c) 3 a b = flat (lowerOn c a b) := by
  funext j
  by_cases hj : j < 3 <;> simp [lowerBelow, flat, hj]

/-- No sum of counts under a table reaches the width of the counter. -/
def Countable64 (c : ℕ → ℕ) : Prop := ∀ k g, k < 3 → ∑ p ∈ serves k g, c p < 2 ^ 64

/-- **Runs** of successful calls on ranges of the lower half, with the counts of the pages after
them; `P` is asked of the counts after each call that populates. -/
inductive PtRun (P : (ℕ → ℕ) → Prop) (pml4 : Pfn) (s₀ : Phys) : Phys → (ℕ → ℕ) → Prop
  | start : PtRun P pml4 s₀ s₀ fun _ => 0
  | populate {s s' : Phys} {c : ℕ → ℕ} {lo hi : ℕ} {flags : PteFlags} (hrun : PtRun P pml4 s₀ s c)
      (hlt : lo < hi) (hhi : hi ≤ 2 ^ 47) (hflags : flags.large = false)
      (hcall : ptPopulateRange pml4 lo hi flags s = .ok (0, s'))
      (hP : P (raiseOn c (pageDown lo) (pageUp hi))) :
      PtRun P pml4 s₀ s' (raiseOn c (pageDown lo) (pageUp hi))
  | release {s s' : Phys} {c : ℕ → ℕ} {lo hi : ℕ} (hrun : PtRun P pml4 s₀ s c)
      (hlt : lo < hi) (hhi : hi ≤ 2 ^ 47) (hc : ∀ p, pageDown lo ≤ p → p < pageUp hi → 0 < c p)
      (hcall : ptReleaseRange pml4 lo hi s = .ok ((), s')) :
      PtRun P pml4 s₀ s' (lowerOn c (pageDown lo) (pageUp hi))

/-- The tables during a run: those in memory are the counted ones, made of pages that were free. -/
structure Accounted (pml4 : Pfn) (s₀ s : Phys) (c : ℕ → ℕ) (E : ℕ → ℕ → Pte) : Prop where
  ok : PtOk s pml4 E (flat c)
  free : ∀ p, s.free p = true ↔ s₀.free p = true ∧ OffTables pml4 E (flat c) p
  made : ∀ k g, k < 3 → 0 < load (flat c) k g → s₀.free (E k g).pfn = true
  upper : ∀ i, 256 ≤ i → s.table pml4 i = s₀.table pml4 i

/-- The pages of a range of the lower half. -/
theorem range_pages (hlt : lo < hi) (hhi : hi ≤ 2 ^ 47) :
    linear lo < linear hi ∧ pageDown lo ≤ pageUp hi ∧ pageUp hi ≤ userPages := by
  have hlo : linear lo = lo := Nat.mod_eq_of_lt (by omega)
  have hhi' : linear hi = hi := Nat.mod_eq_of_lt (by omega)
  rw [pageDown, pageUp, hlo, hhi', pageSize, userPages]
  omega

/-- An empty pml4 counts nothing. -/
theorem accounted_start (hzero : ∀ i < 256, s₀.table root i = .zero) (hbusy : s₀.free root = false) :
    Accounted root s₀ s₀ (fun _ => 0) E := by
  have hload : ∀ k g, load (flat fun _ => 0) k g = 0 := fun k g => by
    rw [load]
    exact Finset.sum_eq_zero fun p _ => by simp [flat]
  have hdead : ∀ k g, ¬0 < load (flat fun _ => 0) k g := fun k g hl => by
    rw [hload] at hl
    exact absurd hl (lt_irrefl 0)
  have hlive : ∀ k g, Live (flat fun _ => 0) k g → k = 3 ∧ g = 0 := fun k g hl =>
    hl.resolve_right fun hl => hdead k g hl.2
  have hzero' : ∀ k p, flat (fun _ => 0) k p = 0 := fun k p => by simp [flat]
  refine ⟨⟨fun k p _ => ?_, fun k p _ _ => hzero' k p, fun k g _ => ?_, fun k g hk hg hl => ?_,
    fun k g _ hl => absurd hl (hdead k g), fun k g _ hl => absurd hl (hdead k g),
    fun k g k' g' hl hl' _ => ?_, fun k g hl => ?_⟩, fun p => ?_,
    fun k g _ hl => absurd hl (hdead k g), fun _ _ => rfl⟩
  · rw [hzero', hzero']
  · rw [hload]
    norm_num
  · obtain ⟨hk3, hg0⟩ := hlive _ _ hl
    obtain rfl : k = 2 := by omega
    rw [if_neg (hdead 2 g)]
    exact hzero (g % 512) (by omega)
  · obtain ⟨rfl, rfl⟩ := hlive k g hl
    obtain ⟨rfl, rfl⟩ := hlive k' g' hl'
    exact ⟨rfl, rfl⟩
  · obtain ⟨rfl, rfl⟩ := hlive k g hl
    exact hbusy
  · refine ⟨fun hp => ⟨hp, fun k g hl heq => ?_⟩, fun hp => hp.1⟩
    obtain ⟨rfl, rfl⟩ := hlive k g hl
    have hroot : root = p := heq
    rw [← hroot, hbusy] at hp
    exact Bool.false_ne_true hp

/-- **Populating** a range once more. -/
theorem Accounted.populate (h : Accounted root s₀ s c E) (hlt : lo < hi) (hhi : hi ≤ 2 ^ 47)
    (hflags : flags.large = false) (hc : Countable64 (raiseOn c (pageDown lo) (pageUp hi))) :
    Ensures (ptPopulateRange root lo hi flags) s fun rc s' =>
      (rc = 0 ∧ ∃ E', Accounted root s₀ s' (raiseOn c (pageDown lo) (pageUp hi)) E') ∨
        rc = -ENOMEM := by
  obtain ⟨hlin, hle, huser⟩ := range_pages hlt hhi
  have hfits : Fits (flat c) 3 (pageDown lo) (pageUp hi) := by
    refine ⟨huser, fun j g hj => ?_, fun j p _ hk => absurd hk (by omega)⟩
    rw [raiseBelow_flat, load_flat hj]
    exact hc j g hj
  have hpml4 : Populates root 3 (ptPopulatePml4 flags) := populates_pml4 hflags
  have hpop := hpml4 s _ E 0 _ _ h.ok (Or.inl ⟨rfl, rfl⟩)
    (within_root hle huser) hfits
  have htop : tab root E 3 0 = root := rfl
  rw [htop] at hpop
  rw [ptPopulateRange, dbgAssert, if_pos hlin, ensures_bind, ensures_pure]
  refine hpop.mono ?_
  rintro rc s' (⟨hrc, E', hgrow⟩ | ⟨hrc, -⟩)
  · rw [raiseBelow_flat] at hgrow
    have hoff : ∀ p, OffTables root E' (flat (raiseOn c (pageDown lo) (pageUp hi))) p →
        OffTables root E (flat c) p := fun p hp k g hl heq =>
      hp k g (hl.mono hgrow.le) ((hgrow.tab_eq hl).trans heq)
    refine Or.inl ⟨hrc, E', hgrow.ok, fun p => ⟨fun hp => ⟨?_, fun k g hl heq => ?_⟩, ?_⟩,
      fun k g hk hl => ?_, fun i hi => (hgrow.upper i hi).trans (h.upper i hi)⟩
    · exact ((h.free p).1 (hgrow.freed p hp)).1
    · have := hgrow.ok.busy k g hl
      rw [heq, hp] at this
      exact nomatch this
    · intro ⟨hp, hp'⟩
      exact hgrow.kept p ((h.free p).2 ⟨hp, hoff p hp'⟩) hp'
    · by_cases hold : 0 < load (flat c) k g
      · rw [hgrow.same k g hk hold]
        exact h.made k g hk hold
      · have hnew := hgrow.new k g ((live_iff_of_lt hk).2 hl) fun hl' =>
          hold ((live_iff_of_lt hk).1 hl')
        rw [tab_of_lt hk] at hnew
        exact ((h.free _).1 hnew).1
  · exact Or.inr hrc

/-- **Releasing** a range of counted pages. -/
theorem Accounted.release (h : Accounted root s₀ s c E) (hlt : lo < hi) (hhi : hi ≤ 2 ^ 47)
    (hc : ∀ p, pageDown lo ≤ p → p < pageUp hi → 0 < c p) :
    Ensures (ptReleaseRange root lo hi) s fun _ s' =>
      Accounted root s₀ s' (lowerOn c (pageDown lo) (pageUp hi)) E := by
  obtain ⟨hlin, hle, huser⟩ := range_pages hlt hhi
  have hpml4 : Releases root E 3 ptReleasePml4 := releases_pml4
  have hrel := hpml4 s (flat c) 0 _ _ h.ok (Or.inl ⟨rfl, rfl⟩)
    (within_root hle huser) fun j p hj h₁ h₂ => by
      rw [flat, if_pos hj]
      exact hc p h₁ h₂
  have htop : tab root E 3 0 = root := rfl
  rw [htop] at hrel
  rw [ptReleaseRange, dbgAssert, if_pos hlin, ensures_bind, ensures_pure]
  refine hrel.mono fun _ s' hshrink => ?_
  rw [lowerBelow_flat] at hshrink
  refine ⟨hshrink.ok, fun p => ?_, fun k g hk hl => ?_,
    fun i hi => (hshrink.upper i hi).trans (h.upper i hi)⟩
  swap
  · refine h.made k g hk ((live_iff_of_lt hk).1 ?_)
    exact Live.mono hshrink.le ((live_iff_of_lt hk).2 hl)
  by_cases hoff : OffTables root E (flat c) p
  · rw [(hshrink.off p hoff).2.2, h.free]
    exact ⟨fun hp => ⟨hp.1, fun k g hl => hoff k g (hl.mono hshrink.le)⟩, fun hp => ⟨hp.1, hoff⟩⟩
  · -- a table before the call: it is free now unless it is still one
    unfold OffTables at hoff
    push Not at hoff
    obtain ⟨k, g, hl, rfl⟩ := hoff
    by_cases hl' : Live (flat (lowerOn c (pageDown lo) (pageUp hi))) k g
    · rw [hshrink.ok.busy k g hl']
      exact iff_of_false Bool.false_ne_true fun hc => hc.2 k g hl' rfl
    · refine iff_of_true (hshrink.freed k g hl hl') ⟨?_, fun k' g' hl₁ heq => ?_⟩
      · rcases hl with ⟨rfl, rfl⟩ | ⟨hk, hl⟩
        · exact absurd (Or.inl ⟨rfl, rfl⟩) hl'
        · rw [tab_of_lt hk]
          exact h.made k g hk hl
      · obtain ⟨rfl, rfl⟩ := h.ok.inj k' g' k g (hl₁.mono hshrink.le) hl heq
        exact hl' hl₁

theorem PtRun.accounted (hzero : ∀ i < 256, s₀.table root i = .zero) (hbusy : s₀.free root = false)
    (hrun : PtRun Countable64 root s₀ s c) : ∃ E, Accounted root s₀ s c E := by
  induction hrun with
  | start => exact ⟨fun _ _ => .zero, accounted_start hzero hbusy⟩
  | populate hrun hlt hhi hflags hcall hP ih =>
    obtain ⟨E, h⟩ := ih
    rcases (h.populate hlt hhi hflags hP).of_run hcall with ⟨-, h'⟩ | hrc
    · exact h'
    · exact absurd hrc (by decide)
  | release hrun hlt hhi hc hcall ih =>
    obtain ⟨E, h⟩ := ih
    exact ⟨E, (h.release hlt hhi hc).of_run hcall⟩

/-- **What the tables say** of the counts `c` of the pages, after calls from the state `s₀`. -/
structure TablesCount (pml4 : Pfn) (s₀ s : Phys) (c : ℕ → ℕ) : Prop where
  /-- a table is there exactly when it is needed -/
  present : ∀ k g, k < 3 → g < 256 * 512 ^ (2 - k) →
    ((tableAt s pml4 k g).isSome ↔ ∃ p ∈ serves k g, 0 < c p)
  /-- and its counter is the sum of the counts it covers -/
  refcount : ∀ k g t, k < 3 → g < 256 * 512 ^ (2 - k) → tableAt s pml4 k g = some t →
    (s.u t).toNat = ∑ p ∈ serves k g, c p
  /-- no two tables share a page -/
  apart : ∀ k g k' g' t, k < 3 → g < 256 * 512 ^ (2 - k) → k' < 3 → g' < 256 * 512 ^ (2 - k') →
    tableAt s pml4 k g = some t → tableAt s pml4 k' g' = some t → k = k' ∧ g = g'
  /-- the tables are made of pages that were free, and the others of these are still free -/
  free : ∀ p, s.free p = true ↔ s₀.free p = true ∧
    ∀ k g, k < 3 → g < 256 * 512 ^ (2 - k) → tableAt s pml4 k g ≠ some p
  /-- when nothing is counted, everything is as it was -/
  restored : (∀ p, c p = 0) → (∀ i < 512, s.table pml4 i = s₀.table pml4 i) ∧ s.free = s₀.free

theorem Accounted.tablesCount (h : Accounted root s₀ s c E)
    (hzero : ∀ i < 256, s₀.table root i = .zero) (hbusy : s₀.free root = false) :
    TablesCount root s₀ s c := by
  have htable : ∀ {k g t}, k < 3 → g < 256 * 512 ^ (2 - k) → tableAt s root k g = some t →
      0 < load (flat c) k g ∧ t = (E k g).pfn := by
    intro k g t hk hg ht
    rw [h.ok.tableAt_eq hk hg] at ht
    split_ifs at ht with hl
    exact ⟨hl, (Option.some_inj.1 ht).symm⟩
  have hfree : ∀ p, s.free p = true ↔ s₀.free p = true ∧
      ∀ k g, k < 3 → g < 256 * 512 ^ (2 - k) → tableAt s root k g ≠ some p := by
    intro p
    rw [h.free]
    refine and_congr_right fun hp => ⟨fun hoff k g hk hg ht => ?_, fun hnot k g hl heq => ?_⟩
    · obtain ⟨hl, rfl⟩ := htable hk hg ht
      exact hoff k g ((live_iff_of_lt hk).2 hl) (tab_of_lt hk)
    · rcases hl with ⟨rfl, rfl⟩ | ⟨hk, hl⟩
      · have hroot : root = p := heq
        rw [← hroot, hbusy] at hp
        exact Bool.false_ne_true hp
      · have hg := h.ok.group_lt hk hl
        refine hnot k g hk hg ?_
        rw [h.ok.tableAt_eq hk hg, if_pos hl, ← heq, tab_of_lt hk]
  refine ⟨fun k g hk hg => ?_, fun k g t hk hg ht => ?_, fun k g k' g' t hk hg hk' hg' ht ht' => ?_,
    hfree, fun hc => ⟨fun i hi => ?_, ?_⟩⟩
  · rw [h.ok.tableAt_eq hk hg]
    by_cases hl : 0 < load (flat c) k g
    · rw [if_pos hl]
      rw [load_flat hk, Finset.sum_pos_iff] at hl
      exact iff_of_true rfl hl
    · rw [if_neg hl]
      rw [load_flat hk, Finset.sum_pos_iff] at hl
      exact iff_of_false (by simp) hl
  · obtain ⟨hl, rfl⟩ := htable hk hg ht
    rw [h.ok.count k g hk hl, BitVec.toNat_ofNat, Nat.mod_eq_of_lt (h.ok.bound k g hk),
      load_flat hk]
  · obtain ⟨hl, rfl⟩ := htable hk hg ht
    obtain ⟨hl', heq⟩ := htable hk' hg' ht'
    refine h.ok.inj k g k' g' ((live_iff_of_lt hk).2 hl) ((live_iff_of_lt hk').2 hl') ?_
    rw [tab_of_lt hk, tab_of_lt hk', heq]
  · have hdead : ∀ g, ¬0 < load (flat c) 2 g := fun g hl => by
      rw [load_flat (by omega), Finset.sum_eq_zero fun p _ => hc p] at hl
      exact absurd hl (lt_irrefl 0)
    rcases Nat.lt_or_ge i 256 with hlow | hhigh
    · have hentry := h.ok.entry 2 i (by omega) (by omega) (Or.inl ⟨rfl, by omega⟩)
      rw [if_neg (hdead i), Nat.mod_eq_of_lt hi, Nat.div_eq_of_lt hi] at hentry
      rw [hzero i hlow]
      exact hentry
    · exact h.upper i hhigh
  · funext p
    rw [Bool.eq_iff_iff, h.free]
    refine and_iff_left_of_imp fun hp k g hl heq => ?_
    rcases hl with ⟨rfl, rfl⟩ | ⟨hk, hl⟩
    · have hroot : root = p := heq
      rw [← hroot, hbusy] at hp
      exact Bool.false_ne_true hp
    · rw [load_flat hk, Finset.sum_eq_zero fun p _ => hc p] at hl
      exact absurd hl (lt_irrefl 0)

/-- **The tables count the pages**, after every run in which no counter overflows; and then the
next calls return: one that populates does so or runs out of memory, and one that releases counted
pages succeeds. -/
theorem ptRun_tablesCount (hzero : ∀ i < 256, s₀.table root i = .zero)
    (hbusy : s₀.free root = false) (hrun : PtRun Countable64 root s₀ s c) :
    TablesCount root s₀ s c ∧
    (∀ lo hi flags, lo < hi → hi ≤ 2 ^ 47 → flags.large = false →
      Countable64 (raiseOn c (pageDown lo) (pageUp hi)) →
      Ensures (ptPopulateRange root lo hi flags) s fun rc s' => (rc = 0 ∧
        TablesCount root s₀ s' (raiseOn c (pageDown lo) (pageUp hi))) ∨ rc = -ENOMEM) ∧
    ∀ lo hi, lo < hi → hi ≤ 2 ^ 47 → (∀ p, pageDown lo ≤ p → p < pageUp hi → 0 < c p) →
      Ensures (ptReleaseRange root lo hi) s fun _ s' =>
        TablesCount root s₀ s' (lowerOn c (pageDown lo) (pageUp hi)) := by
  obtain ⟨E, h⟩ := hrun.accounted hzero hbusy
  refine ⟨h.tablesCount hzero hbusy, fun lo hi flags hlt hhi hflags hc => ?_,
    fun lo hi hlt hhi hc => ?_⟩
  · refine (h.populate hlt hhi hflags hc).mono ?_
    rintro rc s' (⟨rfl, E', h'⟩ | hrc)
    · exact Or.inl ⟨rfl, h'.tablesCount hzero hbusy⟩
    · exact Or.inr hrc
  · exact (h.release hlt hhi hc).mono fun _ s' h' => h'.tablesCount hzero hbusy

/-! ### A counter that overflows -/

/-- Tables for the first page are there. -/
structure FirstPage (s : Phys) (pml4 : Pfn) (E : ℕ → Pte) : Prop where
  top : s.table pml4 0 = E 2
  middle : s.table (E 2).pfn 0 = E 1
  bottom : s.table (E 1).pfn 0 = E 0
  there : ∀ k < 3, (E k).present = true ∧ (E k).large = false

theorem chunk_one {n : ℕ} (hn : 0 < n) : chunk n 0 1 = 1 := by
  rw [chunk, Nat.zero_mod]
  omega

/-- One turn of the loop over the entries, for the first page. -/
theorem ensures_populateLoop_one {done : ℕ → ℕ → Bool} {child : Pfn → ℕ → ℕ → PhysM ℤ}
    {release : Pfn → ℕ → ℕ → PhysM Unit} {span n : ℕ} {t : Pfn} {Q : Phys → Prop}
    (hspan : 0 < span) (hdone : done 0 1 = false) (hdone' : done 1 1 = true)
    (hthere : (s.table t 0).present = true)
    (hchild : Ensures (child (s.table t 0).pfn 0 1) (recounted s (s.table t 0).pfn 1)
      fun rc s' => rc = 0 ∧ Q s') :
    Ensures (populateLoop span done child release flags t 0 1 (n + 2) 0 0) s fun rc s' =>
      rc = 0 ∧ Q s' := by
  rw [populateLoop, if_neg (by rw [hdone]; exact Bool.false_ne_true), ensures_bind, ensureTable,
    ensures_bind, ensures_get, if_pos hthere, ensures_pure, chunk_one hspan]
  simp only [ensures_bind, ensures_get, setU, ensures_modify]
  refine hchild.mono ?_
  rintro rc s' ⟨rfl, hQ⟩
  rw [if_neg (fun hc => hc rfl), populateLoop, if_pos hdone', ensures_pure]
  exact ⟨rfl, hQ⟩

/-- Populating the first page again succeeds and makes no table. -/
theorem FirstPage.populate {E : ℕ → Pte} (h : FirstPage s root E) :
    Ensures (ptPopulateRange root 0 4096 flags) s fun rc s' => rc = 0 ∧ FirstPage s' root E := by
  obtain ⟨h₂, -⟩ := h.there 2 (by omega)
  obtain ⟨h₁, -⟩ := h.there 1 (by omega)
  obtain ⟨h₀, h₀'⟩ := h.there 0 (by omega)
  have hpages : linear 0 < linear 4096 ∧ pageDown 0 = 0 ∧ pageUp 4096 = 1 := by decide
  rw [ptPopulateRange, dbgAssert, if_pos hpages.1, hpages.2.1, hpages.2.2, ensures_bind,
    ensures_pure]
  refine ensures_populateLoop_one (by decide) rfl rfl (h.top.symm ▸ h₂) ?_
  rw [h.top]
  refine ensures_populateLoop_one (by decide) rfl rfl (h.middle.symm ▸ h₁) ?_
  have hmiddle : (recounted s (E 2).pfn 1).table (E 2).pfn 0 = E 1 := h.middle
  rw [hmiddle, ptPopulatePml2, ptSize, populatePml2Loop, if_neg (by omega), ensures_bind,
    ensures_get]
  have hbottom : (recounted (recounted s (E 2).pfn 1) (E 1).pfn 1).table (E 1).pfn 0 = E 0 :=
    h.bottom
  simp only [entryIndex, Nat.zero_div, Nat.zero_mod, chunk_one (by omega : 0 < 512), hbottom, h₀,
    h₀', not_true_eq_false, false_and, if_false, Bool.false_eq_true, not_false_eq_true, and_self,
    if_true, ensures_bind, ensures_get, setU, ensures_modify]
  rw [populatePml2Loop, if_pos rfl, ensures_pure]
  exact ⟨rfl, h.top, h.middle, h.bottom, h.there⟩

/-- A pml4 without entries in page 0, and all other pages free. -/
def freshTables : Phys :=
  ⟨fun _ => 0#64, fun _ _ => .zero, fun _ _ => 0, fun p => p ≠ 0, fun n => some (n + 1, 0#64)⟩

/-- The state after the first page has been populated once. -/
def onePopulated : Phys :=
  match ptPopulateRange 0 0 4096 ptePtFlags freshTables with
  | .ok (_, s) => s
  | .error _ => freshTables

theorem populate_freshTables :
    ptPopulateRange 0 0 4096 ptePtFlags freshTables = .ok (0, onePopulated) := rfl

theorem firstPage_onePopulated :
    FirstPage onePopulated 0 fun k => pageEntry (3 - k) ptePtFlags := by
  refine ⟨rfl, rfl, rfl, fun k _ => ⟨rfl, rfl⟩⟩

/-- The first page can be populated any number of times. -/
theorem exists_ptRun_first (n : ℕ) : ∃ s, FirstPage s 0 (fun k => pageEntry (3 - k) ptePtFlags) ∧
    PtRun (fun _ => True) 0 freshTables s fun p => if p = 0 then n + 1 else 0 := by
  have hraise : ∀ f : ℕ → ℕ, raiseOn f (pageDown 0) (pageUp 4096) =
      fun p => if p = 0 then f p + 1 else f p := fun f => by
    have hpages : pageDown 0 = 0 ∧ pageUp 4096 = 1 := by decide
    rw [hpages.1, hpages.2]
    funext p
    simp only [raiseOn, Nat.zero_le, true_and, Nat.lt_one_iff]
  induction n with
  | zero =>
    refine ⟨onePopulated, firstPage_onePopulated, ?_⟩
    have hrun := PtRun.populate (PtRun.start : PtRun (fun _ => True) 0 freshTables _ _) (by omega : 0 < 4096)
      (by omega) rfl populate_freshTables trivial
    rwa [hraise] at hrun
  | succ n ih =>
    obtain ⟨s, hfirst, hrun⟩ := ih
    have hone : Ensures (ptPopulateRange _ 0 4096 ptePtFlags) s _ := hfirst.populate
    obtain ⟨rc, s', hcall, rfl, hfirst'⟩ := hone
    refine ⟨s', hfirst', ?_⟩
    have hrun' := PtRun.populate hrun (by omega : 0 < 4096) (by omega) rfl hcall trivial
    rw [hraise] at hrun'
    convert hrun' using 1
    funext p
    by_cases hp : p = 0 <;> simp [hp]

/-- A counter does not hold the sum of the counts it covers once that is `2 ^ 64`. -/
theorem not_tablesCount_overflow : ∃ s c, PtRun (fun _ => True) 0 freshTables s c ∧
    ¬TablesCount 0 freshTables s c := by
  obtain ⟨s, -, hrun⟩ := exists_ptRun_first (2 ^ 64 - 1)
  refine ⟨s, _, hrun, fun hc => ?_⟩
  have hmem : 0 ∈ serves 0 0 := mem_serves.2 (by norm_num)
  have hsome := (hc.present 0 0 (by omega) (by norm_num)).2 ⟨0, hmem, by simp⟩
  obtain ⟨t, ht⟩ := Option.isSome_iff_exists.1 hsome
  have hcount := hc.refcount 0 0 t (by omega) (by norm_num) ht
  rw [Finset.sum_ite_eq' (serves 0 0) 0, if_pos hmem] at hcount
  have := (s.u t).isLt
  omega

/-- The tables count a page that was populated once. -/
theorem ptRun_tablesCount_onePopulated :
    PtRun Countable64 0 freshTables onePopulated (raiseOn (fun _ => 0) (pageDown 0) (pageUp 4096)) ∧
    TablesCount 0 freshTables onePopulated (raiseOn (fun _ => 0) (pageDown 0) (pageUp 4096)) := by
  have hfits : Countable64 (raiseOn (fun _ => 0) (pageDown 0) (pageUp 4096)) := by
    intro k g hk
    have hle : ∑ p ∈ serves k g, raiseOn (fun _ => 0) (pageDown 0) (pageUp 4096) p ≤ 512 ^ (k + 1) := by
      have := Finset.sum_le_card_nsmul (serves k g) (raiseOn (fun _ => 0) (pageDown 0) (pageUp 4096)) 1
        fun p _ => by
          simp only [raiseOn]
          split_ifs <;> omega
      rwa [serves, Nat.card_Ico, Nat.add_sub_cancel_left, Nat.nsmul_eq_mul, Nat.mul_one] at this
    have hpow : 512 ^ (k + 1) ≤ 512 ^ 3 := Nat.pow_le_pow_right (by omega) (by omega)
    exact lt_of_le_of_lt (hle.trans hpow) (by decide)
  have hrun := PtRun.populate (PtRun.start : PtRun Countable64 0 freshTables _ _) (by omega : 0 < 4096)
    (by omega) rfl populate_freshTables hfits
  exact ⟨hrun, (ptRun_tablesCount (fun _ _ => rfl) rfl hrun).1⟩

end

end Paging

end Kernel64
