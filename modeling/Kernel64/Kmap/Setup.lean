import Kernel64.Kmap.Windows
import Kernel64.Paging.Populate

/-!
# Setting the kmap area up

`setup_kmap_mapping` makes one free range of the area and populates it. The tables above it are there, since
the kernel is mapped next to it.
-/

namespace Kernel64

namespace Paging

/-- The upper tables of the kernel, before the area is populated. -/
structure KernelTables (s : Phys) (pml4 : Pfn) : Prop where
  top : Linked (s.table pml4 511)
  pml3 : Linked (s.table (s.table pml4 511).pfn 511)
  bare : ∀ k < 256, (s.table (s.table (s.table pml4 511).pfn 511).pfn (256 + k)).present = false
  busy4 : s.free pml4 = false
  busy3 : s.free (s.table pml4 511).pfn = false
  busy2 : s.free (s.table (s.table pml4 511).pfn 511).pfn = false
  apart4 : pml4 ≠ (s.table (s.table pml4 511).pfn 511).pfn
  apart3 : (s.table pml4 511).pfn ≠ (s.table (s.table pml4 511).pfn 511).pfn

/-- The first `m` tables of the area are there, and empty. -/
structure AreaTables (s : Phys) (pml4 : Pfn) (e3 e2 : Pte) (m : ℕ) : Prop where
  top : s.table pml4 511 = e3
  pml3 : s.table e3.pfn 511 = e2
  busy4 : s.free pml4 = false
  busy3 : s.free e3.pfn = false
  busy2 : s.free e2.pfn = false
  linked : ∀ k < m, Linked (s.table e2.pfn (256 + k))
  busy : ∀ k < m, s.free (s.table e2.pfn (256 + k)).pfn = false
  inj : ∀ k k', k < m → k' < m → (s.table e2.pfn (256 + k)).pfn = (s.table e2.pfn (256 + k')).pfn → k = k'
  apart : ∀ k < m, (s.table e2.pfn (256 + k)).pfn ≠ pml4 ∧ (s.table e2.pfn (256 + k)).pfn ≠ e3.pfn ∧
    (s.table e2.pfn (256 + k)).pfn ≠ e2.pfn
  empty : ∀ k < m, ∀ i, s.table (s.table e2.pfn (256 + k)).pfn i = .zero
  bare : ∀ k, m ≤ k → k < 256 → (s.table e2.pfn (256 + k)).present = false

/-- The flags that the area is populated with. -/
def kmapFlags : PteFlags := ⟨true, false, false, true⟩

section

variable {s s' : Phys} {pml4 p : Pfn} {e3 e2 : Pte} {m lo hi n v : ℕ}

/-- Counting pages leaves the tables. -/
theorem AreaTables.setU (h : AreaTables s pml4 e3 e2 m) (t : Pfn) (w : BitVec 64) :
    AreaTables { s with u := Function.update s.u t w } pml4 e3 e2 m :=
  { h with }

/-- One more table. -/
theorem AreaTables.add (h : AreaTables s pml4 e3 e2 m) (hm : m < 256) (hfree : s.free p = true)
    (h4 : pml4 ≠ e2.pfn) (h3 : e3.pfn ≠ e2.pfn)
    (htable : s'.table = Function.update (Function.update s.table p fun _ => .zero) e2.pfn
      (Function.update (Function.update s.table p (fun _ => .zero) e2.pfn) (256 + m) (pageEntry p kmapFlags)))
    (hbusy : s'.free = Function.update s.free p false) : AreaTables s' pml4 e3 e2 (m + 1) := by
  have hp4 : p ≠ pml4 := fun hc => nomatch (hc ▸ hfree).symm.trans h.busy4
  have hp3 : p ≠ e3.pfn := fun hc => nomatch (hc ▸ hfree).symm.trans h.busy3
  have hp2 : p ≠ e2.pfn := fun hc => nomatch (hc ▸ hfree).symm.trans h.busy2
  have hpk : ∀ k < m, p ≠ (s.table e2.pfn (256 + k)).pfn :=
    fun k hk hc => nomatch (hc ▸ hfree).symm.trans (h.busy k hk)
  -- the entries and the tables after the step
  have hother : ∀ t, t ≠ e2.pfn → t ≠ p → s'.table t = s.table t := by
    intro t ht htp
    rw [htable, Function.update_of_ne ht, Function.update_of_ne htp]
  have hnew : s'.table p = fun _ => .zero := by
    rw [htable, Function.update_of_ne hp2, Function.update_self]
  have hentry : ∀ k, s'.table e2.pfn (256 + k) =
      if k = m then pageEntry p kmapFlags else s.table e2.pfn (256 + k) := by
    intro k
    rw [htable, Function.update_self, Function.update_of_ne hp2.symm]
    by_cases hk : k = m
    · rw [if_pos hk, hk, Function.update_self]
    · rw [if_neg hk, Function.update_of_ne (by omega)]
  have hfree' : ∀ t, t ≠ p → s'.free t = s.free t := by
    intro t ht
    rw [hbusy, Function.update_of_ne ht]
  have hlt : ∀ k, k < m + 1 → k = m ∨ k < m ∧ s'.table e2.pfn (256 + k) = s.table e2.pfn (256 + k) := by
    intro k hk
    rcases Nat.lt_or_eq_of_le (Nat.lt_succ_iff.1 hk) with hk | hk
    · refine Or.inr ⟨hk, ?_⟩
      rw [hentry, if_neg (by omega)]
    · exact Or.inl hk
  have hlast : s'.table e2.pfn (256 + m) = pageEntry p kmapFlags := by
    rw [hentry, if_pos rfl]
  constructor
  case top =>
    rw [hother pml4 h4 hp4.symm]
    exact h.top
  case pml3 =>
    rw [hother e3.pfn h3 hp3.symm]
    exact h.pml3
  case busy4 => exact (hfree' _ hp4.symm).trans h.busy4
  case busy3 => exact (hfree' _ hp3.symm).trans h.busy3
  case busy2 => exact (hfree' _ hp2.symm).trans h.busy2
  case linked =>
    intro k hk
    rcases hlt k hk with rfl | ⟨hk, heq⟩
    · rw [hlast]
      exact ⟨rfl, rfl, rfl⟩
    · rw [heq]
      exact h.linked k hk
  case busy =>
    intro k hk
    rcases hlt k hk with rfl | ⟨hk, heq⟩
    · rw [hlast, hbusy]
      exact Function.update_self _ _ _
    · rw [heq, hfree' _ (hpk k hk).symm]
      exact h.busy k hk
  case inj =>
    intro k k' hk hk' hpfn
    rcases hlt k hk with rfl | ⟨hk, heq⟩
    · rcases hlt k' hk' with rfl | ⟨hk', heq'⟩
      · rfl
      · rw [hlast, heq'] at hpfn
        exact absurd hpfn (hpk k' hk')
    · rcases hlt k' hk' with rfl | ⟨hk', heq'⟩
      · rw [hlast, heq] at hpfn
        exact absurd hpfn.symm (hpk k hk)
      · rw [heq, heq'] at hpfn
        exact h.inj k k' hk hk' hpfn
  case apart =>
    intro k hk
    rcases hlt k hk with rfl | ⟨hk, heq⟩
    · rw [hlast]
      exact ⟨hp4, hp3, hp2⟩
    · rw [heq]
      exact h.apart k hk
  case empty =>
    intro k hk i
    rcases hlt k hk with rfl | ⟨hk, heq⟩
    · rw [hlast]
      exact congrFun hnew i
    · rw [heq, hother _ (h.apart k hk).2.2 (hpk k hk).symm]
      exact h.empty k hk i
  case bare =>
    intro k hk hk'
    rw [hentry, if_neg (by omega)]
    exact h.bare k (by omega) hk'

/-- The loop over the tables of the area. -/
theorem AreaTables.yields_pml2Loop (h4 : pml4 ≠ e2.pfn) (h3 : e3.pfn ≠ e2.pfn) : ∀ (n m : ℕ) {s : Phys},
    AreaTables s pml4 e3 e2 m → m ≤ 256 →
    Yields (populatePml2Loop kmapFlags e2.pfn (kmapPage 0) (kmapPage kmapPages) n (256 + m)
      (min (kmapPage (512 * m)) (kmapPage kmapPages))) s fun rc s' =>
        rc = 0 → AreaTables s' pml4 e3 e2 256 := by
  intro n
  induction n with
  | zero => exact fun m s _ _ => yields_throw
  | succ n ih =>
    intro m s h hm
    have hpages := kmapPages_eq
    rw [populatePml2Loop]
    by_cases hend : m = 256
    · rw [if_pos (by unfold kmapPage; omega)]
      subst hend
      exact yields_pure fun _ => h
    · have hlt : m < 256 := by omega
      have hv : min (kmapPage (512 * m)) (kmapPage kmapPages) = kmapPage (512 * m) := by
        unfold kmapPage
        omega
      have hnext : kmapPage (512 * m) + chunk 512 (kmapPage (512 * m)) (kmapPage kmapPages) =
          min (kmapPage (512 * (m + 1))) (kmapPage kmapPages) := by
        unfold chunk kmapPage
        omega
      rw [hv, if_neg (by unfold kmapPage; omega)]
      refine Yields.bind (ensures_get.2 ?_).yields
      have hbare := h.bare m le_rfl hlt
      dsimp only
      rw [if_pos ⟨by rw [hbare]; exact Bool.false_ne_true, by decide⟩]
      refine Yields.bind (Ensures.yields (ensures_allocPageTable (fun p hp => ?_) ?_))
      · dsimp only
        refine Yields.bind (ensures_get.2 ?_).yields
        refine Yields.bind (ensures_modify.2 ?_).yields
        refine Yields.bind (ensures_modify.2 ?_).yields
        rw [hnext, show 256 + m + 1 = 256 + (m + 1) by omega]
        exact ih (m + 1) (h.add hlt hp h4 h3 rfl rfl) (by omega)
      · exact Yields.bind (yields_true fun _ _ => yields_pure fun hc => (by cases hc))

/-- A loop over an upper table that takes one turn: the table below is there. -/
theorem yields_populateLoop_one {span : ℕ} {done : ℕ → ℕ → Bool} {child : Pfn → ℕ → ℕ → PhysM ℤ}
    {release : Pfn → ℕ → ℕ → PhysM Unit} {flags : PteFlags} {t : Pfn} {i : ℕ} {Q : Phys → Prop}
    (hdone : done lo hi = false) (hend : done hi hi = true) (hchunk : lo + chunk span lo hi = hi)
    (hpresent : (s.table t i).present = true)
    (hchild : ∀ w, Yields (child (s.table t i).pfn lo hi)
      { s with u := Function.update s.u (s.table t i).pfn w } fun rc s' => rc = 0 → Q s') :
    Yields (populateLoop span done child release flags t lo hi (n + 1) i lo) s fun rc s' =>
      rc = 0 → Q s' := by
  rw [populateLoop, if_neg (by rw [hdone]; exact Bool.false_ne_true)]
  refine Yields.bind (Ensures.yields ?_)
  unfold ensureTable
  simp only [ensures_bind, ensures_get]
  rw [if_pos hpresent, ensures_pure]
  dsimp only
  refine Yields.bind (ensures_get.2 ?_).yields
  refine Yields.bind (ensures_modify.2 ?_).yields
  rw [hchunk]
  refine Yields.bind ((hchild _).mono fun rc s' hQ => ?_)
  by_cases hrc : rc = 0
  · rw [if_neg (not_not.2 hrc)]
    cases n with
    | zero => exact yields_throw
    | succ n =>
      rw [populateLoop, if_pos hend]
      exact yields_pure fun _ => hQ hrc
  · rw [if_pos hrc]
    refine Yields.bind (yields_true fun _ _ => ?_)
    exact Yields.bind (yields_true fun _ _ => yields_pure fun hc => absurd hc hrc)

/-- **Populating the area.** -/
theorem KernelTables.yields_populate (h : KernelTables s pml4) :
    Yields (ptPopulateRange pml4 kmapBase (kmapBase + kmapSize) kmapFlags) s fun rc s' =>
      rc = 0 → AreaTables s' pml4 (s.table pml4 511) (s.table (s.table pml4 511).pfn 511) 256 := by
  have hlo : pageDown kmapBase = kmapPage 0 := by decide
  have hhi : pageUp (kmapBase + kmapSize) = kmapPage kmapPages := by decide
  have hstart : min (kmapPage (512 * 0)) (kmapPage kmapPages) = kmapPage 0 := by decide
  rw [ptPopulateRange]
  refine Yields.bind (Ensures.yields ?_)
  rw [dbgAssert, if_pos (by decide), ensures_pure, hlo, hhi]
  have hi4 : entryIndex (512 ^ 3) (kmapPage 0) = 511 := by decide
  have hi3 : entryIndex (512 ^ 2) (kmapPage 0) = 511 := by decide
  have hi2 : entryIndex 512 (kmapPage 0) = 256 + 0 := by decide
  rw [ptPopulatePml4, hi4]
  refine yields_populateLoop_one (by decide) (by decide) (by decide) h.top.present fun w₄ => ?_
  rw [ptPopulatePml3, hi3]
  refine yields_populateLoop_one (by decide) (by decide) (by decide) h.pml3.present fun w₃ => ?_
  rw [ptPopulatePml2, hi2]
  have hzero : AreaTables s pml4 (s.table pml4 511) (s.table (s.table pml4 511).pfn 511) 0 :=
    { top := rfl
      pml3 := rfl
      busy4 := h.busy4
      busy3 := h.busy3
      busy2 := h.busy2
      linked := fun _ hk => absurd hk (Nat.not_lt_zero _)
      busy := fun _ hk => absurd hk (Nat.not_lt_zero _)
      inj := fun _ _ hk => absurd hk (Nat.not_lt_zero _)
      apart := fun _ hk => absurd hk (Nat.not_lt_zero _)
      empty := fun _ hk => absurd hk (Nat.not_lt_zero _)
      bare := fun k _ hk => h.bare k hk }
  have hloop := AreaTables.yields_pml2Loop h.apart4 h.apart3 (ptSize + 1) 0
    ((hzero.setU (s.table pml4 511).pfn w₄).setU (s.table (s.table pml4 511).pfn 511).pfn w₃)
    (Nat.zero_le _)
  rw [hstart] at hloop
  exact hloop

/-! ### Populating with enough memory -/

/-- The allocator returns one page after the other, from `q` on. -/
def Plenty (s : Phys) (q : ℕ) : Prop := ∀ n, (∃ w, s.supply n = some (q + n, w)) ∧ s.free (q + n) = true

/-- The program returns 0, and leaves enough memory. -/
def Succeeds (m : PhysM ℤ) (s : Phys) : Prop := Ensures m s fun rc s' => rc = 0 ∧ ∃ q, Plenty s' q

theorem Plenty.ensures_allocPageTable {flags : PteFlags} {q : ℕ} (h : Plenty s q) :
    Ensures (allocPageTable flags) s fun r s' => r = some q ∧ Plenty s' (q + 1) := by
  obtain ⟨⟨w, hsupply⟩, hfree⟩ := h 0
  have hnext : ∀ n, q + 1 + n = q + (n + 1) := fun n => by omega
  rw [Nat.add_zero] at hsupply hfree
  rw [allocPageTable, allocPages]
  simp only [ensures_bind, ensures_get, ensures_set, hsupply, hfree, if_true, setU, clearPage, ensures_modify,
    ensures_pure, true_and]
  intro n
  rw [hnext]
  obtain ⟨hs, hf⟩ := h (n + 1)
  refine ⟨hs, ?_⟩
  dsimp only
  have hne : q + (n + 1) ≠ q := by omega
  rw [Function.update_of_ne hne]
  exact hf

/-- With enough memory each turn of the lowest loop goes on to the next one, whatever the tables are. -/
theorem Plenty.succeeds_populatePml2Loop {flags : PteFlags} {t g : ℕ} : ∀ (n i v q : ℕ) (s : Phys), Plenty s q →
    Within 1 g v hi → 1 ≤ n → (v < hi → i = entryIndex 512 v ∧ 513 ≤ n + i) →
    Succeeds (populatePml2Loop flags t lo hi n i v) s
  | 0, _, _, _, _, _, _, hn, _ => absurd hn (by omega)
  | n + 1, i, v, q, s, h, hw, _, hi' => by
    unfold Succeeds
    rw [populatePml2Loop]
    rcases Nat.lt_or_ge v hi with hlt | hge
    swap
    · rw [if_pos (le_antisymm hw.2.1 hge), ensures_pure]
      exact ⟨rfl, q, h⟩
    obtain ⟨hstep, hle, -, -, hnext⟩ := chunk_spec (show Within (0 + 1) g v hi from hw) hlt
    simp only [Nat.zero_add, pow_one] at hstep hle hnext
    obtain ⟨hidx, hfuel⟩ := hi' hlt
    have hlt512 : entryIndex 512 v < 512 := Nat.mod_lt _ (by decide)
    have hgo : ∀ q s₁, Plenty s₁ q → Ensures (populatePml2Loop flags t lo hi n (i + 1) (v + chunk 512 v hi)) s₁
        fun rc s' => rc = 0 ∧ ∃ q, Plenty s' q := fun q s₁ h₁ =>
      Plenty.succeeds_populatePml2Loop n _ _ q s₁ h₁ ⟨hw.1.trans hstep.le, hle, hw.2.2⟩ (by omega)
        fun hlt' => ⟨by rw [hnext hlt', hidx], by omega⟩
    rw [if_neg hlt.ne, ensures_bind, ensures_get]
    dsimp only
    split_ifs with hnew hold
    · rw [ensures_bind]
      refine h.ensures_allocPageTable.mono ?_
      rintro r s₁ ⟨rfl, h₁⟩
      simp only [ensures_bind, ensures_get, setU, setEntry, ensures_modify]
      exact hgo _ _ h₁
    · simp only [ensures_bind, ensures_get, setU, ensures_modify]
      exact hgo q _ h
    · exact hgo q s h

theorem Plenty.succeeds_populateLoop {span k : ℕ} {done : ℕ → ℕ → Bool} {child : Pfn → ℕ → ℕ → PhysM ℤ}
    {release : Pfn → ℕ → ℕ → PhysM Unit} {flags : PteFlags} {t g : ℕ} (hspan : span = 512 ^ (k + 1))
    (hdone : ∀ v hi, v ≤ hi → (done v hi = true ↔ v = hi))
    (hchild : ∀ t g a b q s, Plenty s q → Within k g a b → Succeeds (child t a b) s) :
    ∀ (n i v q : ℕ) (s : Phys), Plenty s q → Within (k + 1) g v hi → 1 ≤ n →
      (v < hi → i = entryIndex span v ∧ 513 ≤ n + i) →
      Succeeds (populateLoop span done child release flags t lo hi n i v) s
  | 0, _, _, _, _, _, _, hn, _ => absurd hn (by omega)
  | n + 1, i, v, q, s, h, hw, _, hi' => by
    unfold Succeeds
    rw [populateLoop]
    rcases Nat.lt_or_ge v hi with hlt | hge
    swap
    · rw [if_pos ((hdone v hi hw.2.1).2 (le_antisymm hw.2.1 hge)), ensures_pure]
      exact ⟨rfl, q, h⟩
    obtain ⟨hstep, hle, hwc, -, hnext⟩ := chunk_spec hw hlt
    rw [← hspan] at hstep hle hwc hnext
    obtain ⟨hidx, hfuel⟩ := hi' hlt
    have hlt512 : entryIndex span v < 512 := Nat.mod_lt _ (by decide)
    have htable : Ensures (ensureTable flags t i) s fun r s₁ => (∃ pt, r = some pt) ∧ ∃ q, Plenty s₁ q := by
      rw [ensureTable, ensures_bind, ensures_get]
      dsimp only
      split_ifs
      · exact ensures_pure.2 ⟨⟨_, rfl⟩, q, h⟩
      · rw [ensures_bind]
        refine h.ensures_allocPageTable.mono ?_
        rintro r s₁ ⟨rfl, h₁⟩
        simp only [ensures_bind, setEntry, ensures_modify, ensures_pure]
        exact ⟨⟨q, rfl⟩, _, h₁⟩
    rw [if_neg fun hd => hlt.ne ((hdone v hi hw.2.1).1 hd), ensures_bind]
    refine htable.mono ?_
    rintro r s₁ ⟨⟨pt, rfl⟩, q₁, h₁⟩
    simp only [ensures_bind, ensures_get, setU, ensures_modify]
    have hcounted : ∀ u, Plenty { s₁ with u := u } q₁ := fun _ => h₁
    refine (hchild pt _ _ _ q₁ _ (hcounted _) hwc).mono ?_
    rintro rc s₂ ⟨rfl, q₂, h₂⟩
    rw [if_neg (not_not.2 rfl)]
    exact Plenty.succeeds_populateLoop hspan hdone hchild n _ _ q₂ s₂ h₂ ⟨hw.1.trans hstep.le, hle, hw.2.2⟩ (by omega)
      fun hlt' => ⟨by rw [hnext hlt', hidx], by omega⟩

/-- **Populating a range** succeeds when there is enough memory. -/
theorem Plenty.succeeds_ptPopulateRange {flags : PteFlags} {t : Pfn} {q : ℕ} (h : Plenty s q)
    (hlt : linear lo < linear hi) : Succeeds (ptPopulateRange t lo hi flags) s := by
  have hw : Within 3 0 (pageDown lo) (pageUp hi) := by
    have hhi : linear hi < 2 ^ 48 := Nat.mod_lt _ (by omega)
    unfold pageDown pageUp pageSize
    refine ⟨by omega, by omega, ?_⟩
    norm_num
    omega
  have hpml2 : ∀ t g a b q s, Plenty s q → Within 1 g a b → Succeeds (ptPopulatePml2 flags t a b) s :=
    fun t g a b q s h hw => h.succeeds_populatePml2Loop _ _ _ _ _ hw (by decide) fun _ => ⟨rfl, by
      rw [ptSize]
      omega⟩
  have hpml3 : ∀ t g a b q s, Plenty s q → Within 2 g a b → Succeeds (ptPopulatePml3 flags t a b) s :=
    fun t g a b q s h hw => h.succeeds_populateLoop rfl (fun _ _ _ => decide_eq_true_iff) hpml2 _ _ _ _ _ hw (by decide)
      fun _ => ⟨rfl, by
        rw [ptSize]
        omega⟩
  unfold Succeeds
  rw [ptPopulateRange, dbgAssert, if_pos hlt, pure_bind]
  refine h.succeeds_populateLoop (k := 2) rfl (fun v hi hle => ?_) hpml3 _ _ _ _ _ hw (by decide) fun _ => ⟨rfl, ?_⟩
  · rw [decide_eq_true_iff]
    exact ⟨fun h => le_antisymm hle h, ge_of_eq⟩
  · rw [ptSize]
    omega

/-! ### The first state -/

theorem ensures_onMemory {α : Type} {c : PhysM α} {k : Kmap} {Q : α → Kmap → Prop} :
    Ensures (onMemory c) k Q ↔ Ensures c k.phys fun a s => Q a { k with phys := s } := by
  unfold Ensures onMemory
  cases hc : c k.phys with
  | error e => simp [Except.map]
  | ok r =>
    obtain ⟨a, s⟩ := r
    simp [Except.map]

theorem yields_onMemory {α : Type} {c : PhysM α} {k : Kmap} {Q : α → Kmap → Prop}
    (h : Yields c k.phys fun a s => Q a { k with phys := s }) : Yields (onMemory c) k Q := by
  intro a k' hrun
  obtain ⟨a₁, s, hc, rfl, rfl⟩ := ensures_onMemory.1
    (⟨a, k', hrun, rfl, rfl⟩ : Ensures (onMemory c) k fun a₁ k₁ => a₁ = a ∧ k₁ = k')
  exact h _ _ hc

/-- A top table with the entry of the kernel, apart from the tables of the area. -/
structure Shares (s : Phys) (pml4 root : Pfn) : Prop where
  top : s.table root 511 = s.table pml4 511
  apart : ∀ k < 256, (s.table (s.table (s.table pml4 511).pfn 511).pfn (256 + k)).pfn ≠ root

/-- **`setup_kmap_mapping`** leaves one range that is free, and tables without entries. -/
theorem KernelTables.yields_setup {k : Kmap} (h : KernelTables k.phys pml4) :
    Yields (setupKmapMapping pml4) k fun rc k' => rc = 0 →
      (∃ l, RangesOk k' l ∧ ∀ g ∈ l, g.free = true) ∧ Shares k'.phys pml4 pml4 ∧
      ∀ roots : Set Pfn, (∀ root ∈ roots, Shares k'.phys pml4 root) →
        ∃ e3 e2 e1, KmapTables k'.phys roots e3 e2 e1 ∧ ∀ i < kmapPages, leafEntry k'.phys e1 i = .zero := by
  have hpages := kmapPages_eq
  unfold setupKmapMapping
  refine Yields.bind (ensures_modify.2 ?_).yields
  refine Yields.bind (pending_all.ensures_kmapFreeRange.mono fun _ k₁ ⟨hphys, l, hl, hused, _⟩ => ?_).yields
  have h₁ : KernelTables k₁.phys pml4 := by
    rw [hphys]
    exact h
  refine yields_onMemory (h₁.yields_populate.mono fun rc s' hs hrc => ⟨⟨l, ?_, ?_⟩, ⟨rfl, fun j hj => ?_⟩,
    fun roots hroots => ?_⟩)
  · exact ⟨hl.row, hl.tagged, hl.listed.congr rfl⟩
  · intro g hg
    cases hfree : g.free with
    | true => rfl
    | false => exact absurd ((hused g hfree).1 hg) (List.not_mem_nil)
  · have ha := hs hrc
    dsimp only
    rw [ha.top, ha.pml3]
    exact (ha.apart j hj).1
  · have ha := hs hrc
    refine ⟨_, _, fun j => s'.table (k₁.phys.table (k₁.phys.table pml4 511).pfn 511).pfn (256 + j),
      ⟨fun root hroot => (hroots root hroot).top.trans ha.top, ha.pml3, fun _ _ => rfl, h₁.top, h₁.pml3,
        ha.linked, ha.inj, fun j hj => ⟨fun hc => ?_, (ha.apart j hj).2⟩⟩, fun i hi => ?_⟩
    · have := (hroots _ hc).apart j hj
      dsimp only at this
      rw [ha.top, ha.pml3] at this
      exact this rfl
    · rw [kmapPages_eq] at hi
      exact ha.empty (i / 512) (by omega) (i % 512)

end

end Paging

end Kernel64
