import Kernel64.Lib.Supply
import Kernel64.Paging.Populate

/-!
# The pages that populating takes

Populating a range takes a page for each table that is missing, and no others (`newTables`): when the allocator has
as many, the call succeeds.
-/

namespace Kernel64

namespace Paging

/-- The calls of the page allocator that are still to come. -/
def Phys.pages (s : Phys) : Supply Pfn := ⟨s.free, fun i => (s.supply i).map Prod.fst⟩

/-- The tables at level `k` that serve the pages from `a` to `b`. -/
def tablesOf (k a b : ℕ) : Finset ℕ := (Finset.Ico a b).image (· / 512 ^ (k + 1))

/-- How many of them are missing: those that count nothing. -/
def missing (C : Counts) (k a b : ℕ) : ℕ := ((tablesOf k a b).filter fun g => load C k g = 0).card

/-- How many tables are missing below level `k`. -/
def newTables (C : Counts) (k a b : ℕ) : ℕ := ∑ j ∈ Finset.range k, missing C j a b

section

variable {s s' s₁ : Phys} {root : Pfn} {E E₁ : ℕ → ℕ → Pte} {C C' : Counts} {k g a b v hi h j : ℕ}

/-! ### Counting the missing tables -/

/-- There are no more tables than pages, at each level. -/
theorem newTables_le (C : Counts) (k a b : ℕ) : newTables C k a b ≤ k * (b - a) := by
  have hlevel : ∀ j ∈ Finset.range k, missing C j a b ≤ b - a := fun j _ =>
    calc missing C j a b ≤ (tablesOf j a b).card := Finset.card_filter_le _ _
      _ ≤ (Finset.Ico a b).card := Finset.card_image_le
      _ = b - a := Nat.card_Ico a b
  have hsum := Finset.sum_le_card_nsmul _ _ _ hlevel
  rwa [Finset.card_range] at hsum

theorem missing_congr (hload : ∀ p, a ≤ p → p < b → load C' k (p / 512 ^ (k + 1)) = load C k (p / 512 ^ (k + 1))) :
    missing C' k a b = missing C k a b := by
  rw [missing, missing]
  refine congrArg Finset.card (Finset.filter_congr fun g hg => ?_)
  obtain ⟨p, hp, rfl⟩ := Finset.mem_image.1 hg
  obtain ⟨h₁, h₂⟩ := Finset.mem_Ico.1 hp
  rw [hload p h₁ h₂]

/-- One table serves the range. -/
theorem missing_within (hw : Within k g a b) (hab : a < b) :
    missing C k a b = if load C k g = 0 then 1 else 0 := by
  have hone : tablesOf k a b = {g} := by
    ext g'
    rw [tablesOf, Finset.mem_image, Finset.mem_singleton]
    constructor
    · rintro ⟨p, hp, rfl⟩
      exact mem_serves.1 (hw.mem (Finset.mem_Ico.1 hp))
    · rintro rfl
      exact ⟨a, Finset.mem_Ico.2 ⟨le_rfl, hab⟩, mem_serves.1 (hw.mem ⟨le_rfl, hab⟩)⟩
  rw [missing, hone, Finset.filter_singleton]
  split_ifs <;> rfl

/-- No table serves pages on both sides of `v`. -/
theorem missing_split (hav : a ≤ v) (hvb : v ≤ b)
    (hv : ∀ p q, p < v → v ≤ q → q < b → p / 512 ^ (k + 1) ≠ q / 512 ^ (k + 1)) :
    missing C k a b = missing C k a v + missing C k v b := by
  have hunion : tablesOf k a b = tablesOf k a v ∪ tablesOf k v b := by
    rw [tablesOf, tablesOf, tablesOf, ← Finset.image_union, Finset.Ico_union_Ico_eq_Ico hav hvb]
  have hdisjoint : Disjoint (tablesOf k a v) (tablesOf k v b) := by
    refine Finset.disjoint_left.2 fun g hg hg' => ?_
    obtain ⟨p, hp, rfl⟩ := Finset.mem_image.1 hg
    obtain ⟨q, hq, heq⟩ := Finset.mem_image.1 hg'
    obtain ⟨-, hpv⟩ := Finset.mem_Ico.1 hp
    obtain ⟨hvq, hqb⟩ := Finset.mem_Ico.1 hq
    exact hv p q hpv hvq hqb heq.symm
  rw [missing, missing, missing, hunion, Finset.filter_union,
    Finset.card_union_of_disjoint (Finset.disjoint_filter_filter hdisjoint)]

/-- A turn of a loop ends where the tables below end too. -/
theorem chunk_boundary (hj : j ≤ k) {p q : ℕ} (hp : p < v + chunk (512 ^ (k + 1)) v hi)
    (hq : v + chunk (512 ^ (k + 1)) v hi ≤ q) (hlt : q < hi) : p / 512 ^ (j + 1) < q / 512 ^ (j + 1) := by
  set S := 512 ^ (k + 1) with hS
  have hmod : v % S < S := Nat.mod_lt v (span_pos (k + 1))
  have hdiv : S * (v / S) + v % S = v := Nat.div_add_mod v S
  have hchunk : chunk S v hi = min (S - v % S) (hi - v) := rfl
  have hend : v + chunk S v hi = S * (v / S + 1) := by
    rw [Nat.mul_succ]
    omega
  obtain ⟨c, hc⟩ : 512 ^ (j + 1) ∣ v + chunk S v hi := by
    rw [hend]
    exact Dvd.dvd.mul_right (Nat.pow_dvd_pow 512 (by omega)) _
  rw [hc] at hp hq
  refine lt_of_lt_of_le (Nat.div_lt_of_lt_mul hp) ?_
  exact (Nat.le_div_iff_mul_le (span_pos _)).2 ((Nat.mul_comm _ _).trans_le hq)

/-- Counting pages at one level changes nothing at the others. -/
theorem newTables_raiseAt {a' b' : ℕ} : newTables (raiseAt C k a' b') k a b = newTables C k a b := by
  refine Finset.sum_congr rfl fun j hj => missing_congr fun p _ _ => ?_
  have hne : j ≠ k := (Finset.mem_range.1 hj).ne
  refine load_congr fun p _ => ?_
  rw [raiseAt, Function.update_of_ne hne]

/-- **A turn of a loop**: the table for the next part of the range, the tables below it, and the other turns. -/
theorem newTables_chunk (hw : Within (k + 1) h v hi) (hlt : v < hi) :
    newTables C (k + 1) v hi = (if load C k (v / 512 ^ (k + 1)) = 0 then 1 else 0) +
      newTables C k v (v + chunk (512 ^ (k + 1)) v hi) +
      newTables (raiseBelow C (k + 1) v (v + chunk (512 ^ (k + 1)) v hi)) (k + 1)
        (v + chunk (512 ^ (k + 1)) v hi) hi := by
  obtain ⟨hstep, hle, hwc, -, -⟩ := chunk_spec hw hlt
  set v' := v + chunk (512 ^ (k + 1)) v hi with hv'
  have hsplit : newTables C (k + 1) v hi = newTables C (k + 1) v v' + newTables C (k + 1) v' hi := by
    rw [newTables, newTables, newTables, ← Finset.sum_add_distrib]
    refine Finset.sum_congr rfl fun j hj => missing_split hstep.le hle fun p q hp hq hlt => ?_
    have := Finset.mem_range.1 hj
    exact (chunk_boundary (by omega) hp hq hlt).ne
  have hrest : newTables (raiseBelow C (k + 1) v v') (k + 1) v' hi = newTables C (k + 1) v' hi := by
    refine Finset.sum_congr rfl fun j hj => missing_congr fun q h₁ h₂ => ?_
    have hj := Finset.mem_range.1 hj
    refine load_congr fun p hp => ?_
    rw [raiseBelow, if_pos hj, raiseOn, if_neg]
    rintro ⟨-, hlt⟩
    have hboundary := chunk_boundary (k := k) (j := j) (by omega) hlt h₁ h₂
    rw [mem_serves.1 hp] at hboundary
    exact absurd hboundary (lt_irrefl _)
  have hlast : newTables C (k + 1) v v' = newTables C k v v' + missing C k v v' := Finset.sum_range_succ _ k
  rw [hsplit, hrest, hlast, missing_within hwc hstep]
  omega

theorem newTables_empty : newTables C k a a = 0 := by
  refine Finset.sum_eq_zero fun j _ => ?_
  rw [missing, tablesOf, Finset.Ico_self]
  rfl

/-! ### Calls that are granted -/

/-- The allocator returns a page when the next call is granted. -/
theorem supply_of_grants (hg : s.pages.Grants 1) :
    ∃ p word, s.supply 0 = some (p, word) ∧ s.free p = true ∧ s.pages.after 1 = s.pages.take p := by
  obtain ⟨p, hnext, hfree⟩ := Supply.grants_one.1 hg
  obtain ⟨⟨p', word⟩, hsupply, rfl⟩ := Option.map_eq_some_iff.1 hnext
  exact ⟨p', word, hsupply, hfree, Supply.after_one hnext⟩

theorem ensures_allocPageTable_granted {flags : PteFlags} (hg : s.pages.Grants 1) :
    Ensures (allocPageTable flags) s fun r s₁ => ∃ p, r = some p ∧ s.free p = true ∧ s₁ = allocated s p ∧
      s₁.pages = s.pages.after 1 := by
  obtain ⟨p, word, hsupply, hfree, hafter⟩ := supply_of_grants hg
  rw [allocPageTable, allocPages]
  simp only [ensures_bind, ensures_get, ensures_set, hsupply, hfree, if_true, setU, clearPage, ensures_modify,
    ensures_pure, Function.update_idem]
  exact ⟨p, rfl, hfree, rfl, hafter.symm⟩

section Loops

variable {E₀ : ℕ → ℕ → Pte} {s₀ : Phys} {C₀ : Counts} {lo n : ℕ} {flags : PteFlags}

/-- A table for the next part of the range is allocated when it is missing. -/
theorem Progress.ensureTable_granted (P : Progress root E₀ s₀ C₀ k h lo hi v E s) (hk : k < 3) (hlt : v < hi)
    (hg : s.pages.Grants (if load (raiseBelow C₀ (k + 1) lo v) k (v / 512 ^ (k + 1)) = 0 then 1 else 0)) :
    Ensures (ensureTable flags (tab root E₀ (k + 1) h) (entryIndex (512 ^ (k + 1)) v)) s fun r s₁ => r ≠ none ∧
      s₁.pages = s.pages.after (if load (raiseBelow C₀ (k + 1) lo v) k (v / 512 ^ (k + 1)) = 0 then 1 else 0) := by
  obtain ⟨-, hentry⟩ := P.entry_eq hk hlt
  rw [ensureTable, ensures_bind, ensures_get, hentry]
  by_cases hpos : 0 < load (raiseBelow C₀ (k + 1) lo v) k (v / 512 ^ (k + 1))
  · obtain ⟨hpres, -⟩ := P.grow.ok.shape k _ hk hpos
    rw [if_pos hpos, if_pos hpres, ensures_pure, if_neg hpos.ne']
    exact ⟨Option.some_ne_none _, Supply.after_zero.symm⟩
  · have hzero := Nat.eq_zero_of_not_pos hpos
    rw [if_pos hzero] at hg ⊢
    simp only [hpos, if_false, Pte.zero, Bool.false_eq_true]
    rw [ensures_bind]
    refine (ensures_allocPageTable_granted hg).mono ?_
    rintro _ s₁ ⟨p, rfl, -, -, hafter⟩
    simp only [setEntry, ensures_bind, ensures_modify, ensures_pure]
    exact ⟨Option.some_ne_none p, hafter⟩

/-- `f` populates ranges under the tables at level `k`, when it gets a page for each table that is missing. -/
def Demands (root : Pfn) (k : ℕ) (f : Pfn → ℕ → ℕ → PhysM ℤ) : Prop :=
  ∀ (s : Phys) (C : Counts) (E : ℕ → ℕ → Pte) (g a b : ℕ), PtOk s root E C → Live C k g → Within k g a b →
    Fits C k a b → s.pages.Grants (newTables C k a b) →
    Ensures (f (tab root E k g) a b) s fun rc s' => rc = 0 ∧ s'.pages = s.pages.after (newTables C k a b)

/-- The loop of the upper levels takes the pages for the turns to come. -/
theorem Progress.populateLoop_granted {done : ℕ → ℕ → Bool} {child : Pfn → ℕ → ℕ → PhysM ℤ}
    {release : Pfn → ℕ → ℕ → PhysM Unit} (hk : k + 1 < 3) (hdone : ∀ v hi, v ≤ hi → (done v hi = true ↔ v = hi))
    (hpop : Populates root (k + 1) child) (hchild : Demands root (k + 1) child) :
    ∀ (n i v : ℕ) (E : ℕ → ℕ → Pte) (s : Phys), Progress root E₀ s₀ C₀ (k + 1) h lo hi v E s →
      1 ≤ n → (v < hi → i = entryIndex (512 ^ (k + 1 + 1)) v ∧ 513 ≤ n + i) →
      s.pages.Grants (newTables (raiseBelow C₀ (k + 1 + 1) lo v) (k + 1 + 1) v hi) →
      Ensures (populateLoop (512 ^ (k + 1 + 1)) done child release flags (tab root E₀ (k + 1 + 1) h) lo hi n i v) s
        fun rc s' => rc = 0 ∧
          s'.pages = s.pages.after (newTables (raiseBelow C₀ (k + 1 + 1) lo v) (k + 1 + 1) v hi)
  | 0, _, _, _, _, _, hn, _, _ => absurd hn (by omega)
  | n + 1, i, v, E, s, P, _, hi', hg => by
    rw [populateLoop]
    rcases Nat.lt_or_ge v hi with hlt | hge
    · obtain ⟨hstep, hle, hw, -, hnext⟩ := chunk_spec P.rest hlt
      obtain ⟨hidx, hfuel⟩ := hi' hlt
      have hnd : ¬done v hi = true := fun hd => by
        rw [hdone v hi P.le_hi] at hd
        omega
      rw [newTables_chunk P.rest hlt, raiseBelow_trans C₀ P.lo_le hstep.le] at hg ⊢
      set v' := v + chunk (512 ^ (k + 1 + 1)) v hi with hv'
      obtain ⟨hg₁₂, hg₃⟩ := Supply.grants_add.1 hg
      obtain ⟨hg₁, hg₂⟩ := Supply.grants_add.1 hg₁₂
      rw [if_neg hnd, ensures_bind, hidx]
      -- the table, with what it does to the others and the pages it takes
      have htable : Ensures (ensureTable flags _ _) s _ := P.ensures_ensureTable hk hlt
        (Q := fun r s₁ => r ≠ none → ∃ E₁, r = some (tab root E₁ (k + 1) (v / 512 ^ (k + 1 + 1))) ∧
          Grow root E s (raiseBelow C₀ (k + 1 + 1) lo v) E₁
            (recounted s₁ (tab root E₁ (k + 1) (v / 512 ^ (k + 1 + 1))) (chunk (512 ^ (k + 1 + 1)) v hi))
            (raiseAt (raiseBelow C₀ (k + 1 + 1) lo v) (k + 1) v v'))
        (fun hne => absurd rfl hne) fun E₁ s₁ pt hpt hgrow _ => ⟨E₁, congrArg some hpt, hpt ▸ hgrow⟩
      refine (htable.and_yields (P.ensureTable_granted hk hlt hg₁).yields).mono ?_
      rintro r s₁ ⟨hr, hne, hpages₁⟩
      obtain ⟨E₁, rfl, hgrow⟩ := hr hne
      simp only [ensures_bind, ensures_get, setU, ensures_modify]
      obtain ⟨hlive₁, hfits₁⟩ := P.child hk hlt
      have hg₂' : (recounted s₁ (tab root E₁ (k + 1) (v / 512 ^ (k + 1 + 1)))
          (chunk (512 ^ (k + 1 + 1)) v hi)).pages.Grants (newTables (raiseAt (raiseBelow C₀ (k + 1 + 1) lo v)
            (k + 1) v v') (k + 1) v v') := by
        rw [newTables_raiseAt]
        exact hpages₁ ▸ hg₂
      refine ((hchild _ _ E₁ _ v v' hgrow.ok hlive₁ hw hfits₁ hg₂').and_yields
        (hpop _ _ E₁ _ v v' hgrow.ok hlive₁ hw hfits₁).yields).mono ?_
      rintro _ s₂ ⟨⟨rfl, hpages₂⟩, hdone₂⟩
      obtain ⟨-, E₂, hgrow₂⟩ | ⟨hrc, -⟩ := hdone₂
      swap
      · exact absurd hrc (by decide)
      rw [if_neg (not_not.2 rfl)]
      rw [raiseBelow_raiseAt] at hgrow₂
      have hpages : s₂.pages = s.pages.after ((if load (raiseBelow C₀ (k + 1 + 1) lo v) (k + 1)
          (v / 512 ^ (k + 1 + 1)) = 0 then 1 else 0) + newTables (raiseBelow C₀ (k + 1 + 1) lo v) (k + 1) v v') := by
        rw [Supply.after_add hg₁, ← hpages₁, hpages₂, newTables_raiseAt]
        rfl
      rw [Supply.after_add hg₁₂, ← hpages]
      refine Progress.populateLoop_granted hk hdone hpop hchild n _ _ E₂ s₂ (P.advance hlt (hgrow.trans hgrow₂)) ?_
        (fun hlt' => ⟨?_, by omega⟩) (hpages ▸ hg₃)
      · have : entryIndex (512 ^ (k + 1 + 1)) v < 512 := Nat.mod_lt _ (by decide)
        omega
      · rw [hnext hlt']
    · obtain rfl : v = hi := le_antisymm P.le_hi hge
      rw [if_pos ((hdone v v le_rfl).2 rfl), ensures_pure, newTables_empty]
      exact ⟨rfl, Supply.after_zero.symm⟩

/-- The loop of the lowest level with tables below it. -/
theorem Progress.populatePml2Loop_granted (hflags : flags.large = false) :
    ∀ (n i v : ℕ) (E : ℕ → ℕ → Pte) (s : Phys), Progress root E₀ s₀ C₀ 0 h lo hi v E s →
      1 ≤ n → (v < hi → i = entryIndex 512 v ∧ 513 ≤ n + i) →
      s.pages.Grants (newTables (raiseBelow C₀ 1 lo v) 1 v hi) →
      Ensures (populatePml2Loop flags (tab root E₀ 1 h) lo hi n i v) s
        fun rc s' => rc = 0 ∧ s'.pages = s.pages.after (newTables (raiseBelow C₀ 1 lo v) 1 v hi)
  | 0, _, _, _, _, _, hn, _, _ => absurd hn (by omega)
  | n + 1, i, v, E, s, P, _, hi', hg => by
    rw [populatePml2Loop]
    rcases Nat.lt_or_ge v hi with hlt | hge
    · obtain ⟨hstep, hle, hw, hparent, hnext⟩ := chunk_spec P.rest hlt
      obtain ⟨hgl, hentry⟩ := P.entry_eq (by omega) hlt
      obtain ⟨hidx, hfuel⟩ := hi' hlt
      have hr := P.raisable (by omega) hlt
      have hok := P.grow.ok
      have hneed := newTables_chunk (C := raiseBelow C₀ 1 lo v) P.rest hlt
      simp only [Nat.zero_add, pow_one] at hstep hle hw hparent hnext hgl hentry hr hneed
      set c := chunk 512 v hi with hc
      set g := v / 512 with hg_def
      have hnone : newTables (raiseBelow C₀ 1 lo v) 0 v (v + c) = 0 := rfl
      have hback : raiseAt (raiseBelow C₀ 1 lo v) 0 v (v + c) = raiseBelow (raiseBelow C₀ 1 lo v) 1 v (v + c) := by
        rw [← raiseBelow_raiseAt _ 0 v (v + c)]
        funext j
        simp [raiseBelow]
      rw [hnone, Nat.add_zero, raiseBelow_trans C₀ P.lo_le hstep.le] at hneed
      rw [hneed] at hg ⊢
      obtain ⟨hg₁, hg₂⟩ := Supply.grants_add.1 hg
      rw [Supply.after_add hg₁]
      -- the turns after this one
      have hgo : ∀ E₁ s₁, Grow root E s (raiseBelow C₀ 1 lo v) E₁ s₁ (raiseAt (raiseBelow C₀ 1 lo v) 0 v (v + c)) →
          s₁.pages = s.pages.after (if load (raiseBelow C₀ 1 lo v) 0 g = 0 then 1 else 0) →
          Ensures (populatePml2Loop flags (tab root E₀ 1 h) lo hi n (i + 1) (v + c)) s₁ fun rc s' => rc = 0 ∧
            s'.pages = Supply.after (newTables (raiseBelow C₀ 1 lo (v + c)) 1 (v + c) hi)
              (s.pages.after (if load (raiseBelow C₀ 1 lo v) 0 g = 0 then 1 else 0)) := by
        intro E₁ s₁ hgrow hpages
        rw [hback] at hgrow
        have hadv := P.advance hlt (by simpa only [Nat.zero_add, pow_one] using hgrow)
        simp only [Nat.zero_add, pow_one] at hadv
        rw [← hpages] at hg₂ ⊢
        refine Progress.populatePml2Loop_granted hflags n (i + 1) (v + c) E₁ s₁ hadv ?_
          (fun hlt' => ⟨?_, by omega⟩) hg₂
        · have : entryIndex 512 v < 512 := Nat.mod_lt _ (by decide)
          omega
        · rw [hnext hlt', hidx]
      rw [if_neg (by omega), ensures_bind, ensures_get, hidx, hentry]
      by_cases hpos : 0 < load (raiseBelow C₀ 1 lo v) 0 g
      · obtain ⟨hpres, hlarge⟩ := hok.shape 0 g (by omega) hpos
        rw [if_neg hpos.ne'] at hgo ⊢
        simp only [hpos, if_true, hpres, hlarge, not_true_eq_false, false_and, if_false, Bool.false_eq_true,
          not_false_eq_true, and_self, ensures_bind, ensures_get, setU, ensures_modify]
        have hmore := hok.grow_recounted hr hpos
        rw [Nat.add_sub_cancel_left] at hmore
        rw [← hidx]
        exact hgo E _ hmore Supply.after_zero.symm
      · have hzero := Nat.eq_zero_of_not_pos hpos
        rw [if_pos hzero] at hg₁ hgo ⊢
        simp only [hpos, if_false, Pte.zero, hflags, Bool.false_eq_true, not_false_eq_true, and_self, if_true]
        rw [ensures_bind]
        refine (ensures_allocPageTable_granted hg₁).mono ?_
        rintro _ _ ⟨p, rfl, hfree, rfl, hafter⟩
        simp only [ensures_bind, ensures_get, setU, setEntry, ensures_modify]
        have hnew := hok.grow_added hr hzero hgl (by rw [hparent]; exact P.live_now) hfree
          (e := pageEntry p flags) ⟨rfl, rfl, hflags⟩
        rw [Nat.add_sub_cancel_left, hparent, P.tab_eq] at hnew
        have hidx' : g % 512 = entryIndex 512 v := rfl
        rw [hidx', ← allocated_eq_added] at hnew
        rw [← hidx] at hnew ⊢
        exact hgo _ _ hnew hafter
    · obtain rfl : v = hi := le_antisymm P.le_hi hge
      rw [if_pos rfl, ensures_pure, newTables_empty]
      exact ⟨rfl, Supply.after_zero.symm⟩

end Loops

/-! ### The levels -/

theorem demands_pml2 {flags : PteFlags} (hflags : flags.large = false) : Demands root 1 (ptPopulatePml2 flags) := by
  intro s C E g a b hok hlive hw hf hg
  have hstart := hok.progress hlive hw hf
  have hrun := hstart.populatePml2Loop_granted hflags (ptSize + 1) (entryIndex 512 a) a E s (by decide)
    fun _ => ⟨rfl, by rw [ptSize]; omega⟩
  rw [raiseBelow_empty] at hrun
  exact hrun hg

/-- One of the upper levels, from the level below it. -/
theorem demands_upper {done : ℕ → ℕ → Bool} {child : Pfn → ℕ → ℕ → PhysM ℤ} {release : Pfn → ℕ → ℕ → PhysM Unit}
    {flags : PteFlags} (hk : k + 1 < 3) (hdone : ∀ v hi, v ≤ hi → (done v hi = true ↔ v = hi))
    (hpop : Populates root (k + 1) child) (hchild : Demands root (k + 1) child) :
    Demands root (k + 1 + 1) fun t lo hi => populateLoop (512 ^ (k + 1 + 1)) done child release flags t lo hi
      (ptSize + 1) (entryIndex (512 ^ (k + 1 + 1)) lo) lo := by
  intro s C E g a b hok hlive hw hf hg
  have hstart := hok.progress hlive hw hf
  have hrun : _ → Ensures (populateLoop _ done child release flags _ a b (ptSize + 1) _ a) s _ :=
    hstart.populateLoop_granted hk hdone hpop hchild (ptSize + 1) (entryIndex (512 ^ (k + 1 + 1)) a) a E s (by decide)
      fun _ => ⟨rfl, by rw [ptSize]; omega⟩
  rw [raiseBelow_empty] at hrun
  exact hrun hg

theorem demands_pml3 {flags : PteFlags} (hflags : flags.large = false) : Demands root 2 (ptPopulatePml3 flags) :=
  demands_upper (by omega) (fun v hi _ => by simp) (populates_pml2 hflags) (demands_pml2 hflags)

/-- **Populating a range** takes a page for each table that is missing. -/
theorem demands_pml4 {flags : PteFlags} (hflags : flags.large = false) : Demands root 3 (ptPopulatePml4 flags) :=
  demands_upper (by omega) (fun v hi hle => by rw [decide_eq_true_iff]; omega) (populates_pml3 hflags)
    (demands_pml3 hflags)

end

end Paging

end Kernel64
