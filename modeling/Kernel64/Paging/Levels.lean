import Kernel64.Paging.Populate
import Kernel64.Paging.Walk

/-!
# Tables with any counts

`__munmap` takes references from the tables of its whole range, also for pages that nobody counts. A table whose
count comes to zero is freed then, whatever its entries lead to; the tables below it are lost, as no entry leads
to them any more. What holds whatever the counts are is that a table has one level, that the allocator has none of
the tables, lost or not, and that no two entries lead to the same one (`Leveled`). So to populate or to release a
range always returns, and no table is freed twice (`Leveled.ensures_ptPopulateRange`,
`Leveled.ensures_ptReleaseRange`).
-/

namespace Kernel64

namespace Paging

/-- The levels of the tables. -/
abbrev Levels : Type := Pfn → Option ℕ

/-- The entries of a table at level `k` that are those of the address space: the upper half of the top table is
that of the kernel. -/
def Own (k i : ℕ) : Prop := i < 512 ∧ (k = 3 → i < 256)

/-- Each table has one level, the allocator has none of them, and no two entries lead to the same one. No page is
mapped. -/
structure Leveled (s : Phys) (L : Levels) : Prop where
  busy : ∀ {t k}, L t = some k → s.free t = false
  leaf : ∀ {t i}, L t = some 0 → i < 512 → s.table t i = .zero
  child : ∀ {t k i}, L t = some (k + 1) → Own (k + 1) i → (s.table t i).present = true →
    (s.table t i).large = false ∧ L (s.table t i).pfn = some k
  inj : ∀ {t t' k i i'}, L t = some (k + 1) → L t' = some (k + 1) → Own (k + 1) i → Own (k + 1) i' →
    (s.table t i).present = true → (s.table t' i').present = true →
    (s.table t i).pfn = (s.table t' i').pfn → t = t' ∧ i = i'

/-- What work under a table at level `k` on the pages from `a` to `b` leaves: the tables from that level up are the
same, and only the entries of this one for these pages have changed. -/
structure WorksOn (k : ℕ) (t : Pfn) (a b : ℕ) (s : Phys) (L : Levels) (s' : Phys) (L' : Levels) : Prop where
  ok : Leveled s' L'
  level : ∀ {t' j}, k ≤ j → (L' t' = some j ↔ L t' = some j)
  other : ∀ {t' j}, k ≤ j → L t' = some j → t' ≠ t → s'.table t' = s.table t'
  entry : ∀ {i}, (∀ p, a ≤ p → p < b → entryIndex (512 ^ k) p ≠ i) → s'.table t i = s.table t i

section

variable {s s' s₁ s₂ : Phys} {L L' L₁ L₂ : Levels} {t p pt : Pfn} {e : Pte} {k i v a b a' b' lo hi pages : ℕ}

theorem own_entryIndex (hv : v < userPages) : Own k (entryIndex (512 ^ k) v) := by
  refine ⟨Nat.mod_lt _ (by decide), ?_⟩
  rintro rfl
  unfold userPages at hv
  unfold entryIndex ptSize
  omega

theorem Leveled.not_free (h : Leveled s L) (hp : s.free p = true) : L p = none := by
  cases hl : L p with
  | none => rfl
  | some k => exact absurd (h.busy hl) (by simp [hp])

/-! ### Putting work together -/

/-- The counts do not matter. -/
theorem Leveled.worksOn_of_eq (h : Leveled s L) (htable : s'.table = s.table) (hfree : s'.free = s.free) :
    WorksOn k t a b s L s' L := by
  refine ⟨⟨fun hl => ?_, fun hl hi => ?_, fun hl hi hpres => ?_, fun hl hl' hi hi' hpres hpres' heq => ?_⟩,
    fun _ => Iff.rfl, fun _ _ _ => by rw [htable], fun _ => by rw [htable]⟩
  · rw [hfree]
    exact h.busy hl
  · rw [htable]
    exact h.leaf hl hi
  · rw [htable] at hpres ⊢
    exact h.child hl hi hpres
  · rw [htable] at hpres hpres' heq
    exact h.inj hl hl' hi hi' hpres hpres' heq

theorem WorksOn.mono (h : WorksOn k t a b s L s' L') (ha : a' ≤ a) (hb : b ≤ b') : WorksOn k t a' b' s L s' L' :=
  ⟨h.ok, h.level, h.other, fun hout => h.entry fun p h₁ h₂ => hout p (ha.trans h₁) (h₂.trans_le hb)⟩

theorem WorksOn.trans (h : WorksOn k t a b s L s₁ L₁) (h' : WorksOn k t a b s₁ L₁ s₂ L₂) :
    WorksOn k t a b s L s₂ L₂ where
  ok := h'.ok
  level := fun hj => (h'.level hj).trans (h.level hj)
  other := fun hj hl hne => (h'.other hj ((h.level hj).2 hl) hne).trans (h.other hj hl hne)
  entry := fun hout => (h'.entry hout).trans (h.entry hout)

/-- Work under a table below. -/
theorem WorksOn.below (h : WorksOn k pt a b s L s₁ L₁) (ht : L t = some (k + 1)) (hpt : L pt = some k) :
    WorksOn (k + 1) t a b s L s₁ L₁ ∧ s₁.table t = s.table t := by
  have hne : ∀ {t' j}, k + 1 ≤ j → L t' = some j → t' ≠ pt := by
    rintro t' j hj hl rfl
    have := Option.some.inj (hl.symm.trans hpt)
    omega
  have hsame := h.other (Nat.le_succ k) ht (hne le_rfl ht)
  exact ⟨⟨h.ok, fun hj => h.level (Nat.le_of_succ_le hj),
    fun hj hl _ => h.other (Nat.le_of_succ_le hj) hl (hne hj hl), fun _ => by rw [hsame]⟩, hsame⟩

/-! ### Dropping and linking a table -/

/-- **Dropping references** from a table, whatever its count is: it may be freed, and its entry goes then. -/
theorem Leveled.worksOn_dropped (h : Leveled s L) (ht : L t = some (k + 1)) (hv : v < userPages) (ha : a ≤ v)
    (hb : v < b) (hi : i = entryIndex (512 ^ (k + 1)) v) (hpres : (s.table t i).present = true)
    (hpt : (s.table t i).pfn = pt) : ∃ L', WorksOn (k + 1) t a b s L (dropped s t i pt pages) L' := by
  have hown : Own (k + 1) i := hi ▸ own_entryIndex hv
  obtain ⟨-, hk⟩ := h.child ht hown hpres
  rw [hpt] at hk
  by_cases hzero : s.u pt - BitVec.ofNat 64 pages = 0#64
  swap
  · have heq : (dropped s t i pt pages).table = s.table ∧ (dropped s t i pt pages).free = s.free := by
      simp [dropped, hzero]
    exact ⟨L, h.worksOn_of_eq heq.1 heq.2⟩
  have htable : ∀ t' j, (dropped s t i pt pages).table t' j = if t' = t ∧ j = i then .zero else s.table t' j := by
    simp [dropped, hzero]
  have hfree : ∀ t', t' ≠ pt → (dropped s t i pt pages).free t' = s.free t' := fun t' hne => by
    simp [dropped, hne]
  have hkeep : ∀ {t' j}, Function.update L pt none t' = some j → t' ≠ pt ∧ L t' = some j := by
    intro t' j hl
    by_cases hne : t' = pt
    · subst hne
      rw [Function.update_self] at hl
      cases hl
    · rw [Function.update_of_ne hne] at hl
      exact ⟨hne, hl⟩
  have hold : ∀ {t' j}, ((dropped s t i pt pages).table t' j).present = true →
      ¬(t' = t ∧ j = i) ∧ (dropped s t i pt pages).table t' j = s.table t' j := by
    intro t' j hp
    rw [htable] at hp ⊢
    split_ifs at hp ⊢ with hc
    · cases hp
    · exact ⟨hc, rfl⟩
  refine ⟨Function.update L pt none, ⟨fun hl => ?_, fun {t' j} hl hj => ?_, fun {t' j i'} hl hi' hp => ?_,
    fun hl hl' h₁ h₂ hp hp' heq => ?_⟩, fun {t' j} hj => ?_, fun {t' j} hj hl hne => ?_, fun {i'} hout => ?_⟩
  · obtain ⟨hne, hl⟩ := hkeep hl
    rw [hfree _ hne]
    exact h.busy hl
  · obtain ⟨-, hl⟩ := hkeep hl
    rw [htable]
    split_ifs
    · rfl
    · exact h.leaf hl hj
  · obtain ⟨-, hl⟩ := hkeep hl
    obtain ⟨hc, heq⟩ := hold hp
    rw [heq] at hp ⊢
    obtain ⟨hlarge, hlevel⟩ := h.child hl hi' hp
    refine ⟨hlarge, ?_⟩
    -- another entry leads to another table
    rw [Function.update_of_ne, hlevel]
    intro hpfn
    obtain rfl : j = k := Option.some.inj (hlevel.symm.trans (hpfn ▸ hk))
    exact hc (h.inj hl ht hi' hown hp hpres (hpfn.trans hpt.symm))
  · obtain ⟨-, hl⟩ := hkeep hl
    obtain ⟨-, hl'⟩ := hkeep hl'
    have hsame := (hold hp).2
    have hsame' := (hold hp').2
    rw [hsame] at hp heq
    rw [hsame'] at hp' heq
    exact h.inj hl hl' h₁ h₂ hp hp' heq
  · refine ⟨fun hl => (hkeep hl).2, fun hl => ?_⟩
    rw [Function.update_of_ne, hl]
    rintro rfl
    have := Option.some.inj (hl.symm.trans hk)
    omega
  · funext i'
    rw [htable, if_neg fun hc => hne hc.1]
  · rw [htable, if_neg]
    rintro ⟨-, rfl⟩
    exact hout v ha hb hi.symm

/-- **Linking a new table** where there is none. -/
theorem Leveled.worksOn_linked (h : Leveled s L) (ht : L t = some (k + 1)) (hv : v < userPages) (ha : a ≤ v)
    (hb : v < b) (hi : i = entryIndex (512 ^ (k + 1)) v) (habsent : ¬(s.table t i).present = true)
    (hp : s.free p = true) (hpfn : e.pfn = p) (hlarge : e.large = false)
    (htable : ∀ t' j, s'.table t' j = if t' = t ∧ j = i then e else if t' = p then .zero else s.table t' j)
    (hfree : s'.free = Function.update s.free p false) :
    WorksOn (k + 1) t a b s L s' (Function.update L p (some k)) := by
  have hown : Own (k + 1) i := hi ▸ own_entryIndex hv
  have hnone := h.not_free hp
  have htp : t ≠ p := by
    rintro rfl
    exact nomatch hnone.symm.trans ht
  have hkeep : ∀ {t' j}, Function.update L p (some k) t' = some j → t' = p ∧ j = k ∨ t' ≠ p ∧ L t' = some j := by
    intro t' j hl
    by_cases hne : t' = p
    · subst hne
      rw [Function.update_self] at hl
      exact Or.inl ⟨rfl, (Option.some.inj hl).symm⟩
    · rw [Function.update_of_ne hne] at hl
      exact Or.inr ⟨hne, hl⟩
  have hlevel : ∀ {t' j}, L t' = some j → Function.update L p (some k) t' = some j := by
    intro t' j hl
    rw [Function.update_of_ne, hl]
    rintro rfl
    exact nomatch hnone.symm.trans hl
  -- the entries that are present are the new one and the old ones
  have hold : ∀ {t' j}, (s'.table t' j).present = true → (t' = t ∧ j = i) ∧ s'.table t' j = e ∨
      t' ≠ p ∧ ¬(t' = t ∧ j = i) ∧ s'.table t' j = s.table t' j := by
    intro t' j hpr
    rw [htable] at hpr ⊢
    split_ifs at hpr ⊢ with hc hne
    · exact Or.inl ⟨hc, rfl⟩
    · exact nomatch hpr
    · exact Or.inr ⟨hne, hc, rfl⟩
  have hchild : ∀ {t' j i'}, Function.update L p (some k) t' = some (j + 1) → Own (j + 1) i' →
      (s'.table t' i').present = true → ((t' = t ∧ i' = i) ∧ s'.table t' i' = e) ∨
        (L t' = some (j + 1) ∧ s'.table t' i' = s.table t' i' ∧ (s.table t' i').present = true ∧
          (s.table t' i').large = false ∧ L (s.table t' i').pfn = some j) := by
    intro t' j i' hl hi' hpr
    rcases hold hpr with hnew | ⟨hne, -, heq⟩
    · exact Or.inl hnew
    · obtain ⟨-, hl⟩ := (hkeep hl).resolve_left fun hc => hne hc.1
      rw [heq] at hpr
      exact Or.inr ⟨hl, heq, hpr, h.child hl hi' hpr⟩
  have hfar : ∀ {q j}, L q = some j → q ≠ p := by
    rintro q j hl rfl
    exact nomatch hnone.symm.trans hl
  refine ⟨⟨fun {t' j} hl => ?_, fun {t' j} hl hj => ?_, fun {t' j i'} hl hi' hpr => ?_,
    fun {t₁ t₂ j i₁ i₂} hl hl' h₁ h₂ hpr hpr' heq => ?_⟩, fun {t' j} hj => ?_, fun {t' j} hj hl hne => ?_,
    fun {i'} hout => ?_⟩
  · rw [hfree]
    rcases hkeep hl with ⟨rfl, -⟩ | ⟨hne, hl⟩
    · exact Function.update_self _ _ _
    · rw [Function.update_of_ne hne]
      exact h.busy hl
  · rw [htable]
    rcases hkeep hl with ⟨rfl, -⟩ | ⟨hne, hl⟩
    · rw [if_neg fun hc => htp hc.1.symm, if_pos rfl]
    · rw [if_neg, if_neg hne]
      · exact h.leaf hl hj
      · rintro ⟨rfl, -⟩
        exact nomatch hl.symm.trans ht
  · rcases hchild hl hi' hpr with ⟨⟨rfl, rfl⟩, heq⟩ | ⟨hl, heq, -, hlarge', hl'⟩
    · obtain ⟨-, hl⟩ := (hkeep hl).resolve_left fun hc => htp hc.1
      obtain rfl : j = k := Nat.succ.inj (Option.some.inj (hl.symm.trans ht))
      rw [heq, hpfn]
      exact ⟨hlarge, Function.update_self _ _ _⟩
    · rw [heq]
      exact ⟨hlarge', hlevel hl'⟩
  · rcases hchild hl h₁ hpr with ⟨⟨rfl, rfl⟩, heq₁⟩ | ⟨hl₁, heq₁, hpr₁, -, hk₁⟩ <;>
      rcases hchild hl' h₂ hpr' with ⟨⟨rfl, rfl⟩, heq₂⟩ | ⟨hl₂, heq₂, hpr₂, -, hk₂⟩
    · exact ⟨rfl, rfl⟩
    · rw [heq₁, heq₂, hpfn] at heq
      exact absurd heq.symm (hfar hk₂)
    · rw [heq₁, heq₂, hpfn] at heq
      exact absurd heq (hfar hk₁)
    · rw [heq₁, heq₂] at heq
      exact h.inj hl₁ hl₂ h₁ h₂ hpr₁ hpr₂ heq
  · refine ⟨fun hl => ?_, hlevel⟩
    rcases hkeep hl with ⟨-, rfl⟩ | ⟨-, hl⟩
    · omega
    · exact hl
  · funext i'
    rw [htable, if_neg fun hc => hne hc.1, if_neg (hfar hl)]
  · rw [htable, if_neg, if_neg htp]
    rintro ⟨-, rfl⟩
    exact hout v ha hb hi.symm

/-! ### Releasing -/

/-- `f` releases ranges under the tables at level `k`. -/
def ReleasesAny (k : ℕ) (f : Pfn → ℕ → ℕ → PhysM Unit) : Prop :=
  ∀ {s L t g a b}, Leveled s L → L t = some k → Within k g a b → b ≤ userPages →
    Ensures (f t a b) s fun _ s' => ∃ L', WorksOn k t a b s L s' L'

/-- The loop over the entries of a table, given what it does at each of them. -/
theorem Leveled.ensures_releaseLoop {child : Pfn → ℕ → ℕ → PhysM Unit} {descends : Pte → Bool} {g : ℕ}
    (hchild : ReleasesAny k child) (hdesc : ∀ e : Pte, descends e = true → e.present = true)
    (hhi : hi ≤ userPages) :
    ∀ (n i v : ℕ) (s : Phys) (L : Levels), Leveled s L → L t = some (k + 1) → Within (k + 1) g v hi → 1 ≤ n →
      (v < hi → i = entryIndex (512 ^ (k + 1)) v ∧ 513 ≤ n + i) →
      Ensures (releaseLoop (512 ^ (k + 1)) descends child t hi n i v) s
        fun _ s' => ∃ L', WorksOn (k + 1) t v hi s L s' L'
  | 0, _, _, _, _, _, _, _, hn, _ => absurd hn (by omega)
  | n + 1, i, v, s, L, h, ht, hw, _, hi' => by
    rw [releaseLoop]
    rcases Nat.lt_or_ge v hi with hlt | hge
    swap
    · obtain rfl : v = hi := le_antisymm hw.2.1 hge
      rw [if_pos rfl, ensures_pure]
      exact ⟨L, h.worksOn_of_eq rfl rfl⟩
    obtain ⟨hstep, hle, hwc, -, hnext⟩ := chunk_spec hw hlt
    set c := chunk (512 ^ (k + 1)) v hi with hc
    obtain ⟨hidx, hfuel⟩ := hi' hlt
    have hv : v < userPages := hlt.trans_le hhi
    -- the turns after this one
    have hgo : ∀ s₁ L₁, WorksOn (k + 1) t v hi s L s₁ L₁ →
        Ensures (releaseLoop (512 ^ (k + 1)) descends child t hi n (i + 1) (v + c)) s₁
          fun _ s' => ∃ L', WorksOn (k + 1) t v hi s L s' L' := by
      intro s₁ L₁ h₁
      have hlt512 : entryIndex (512 ^ (k + 1)) v < 512 := Nat.mod_lt _ (by decide)
      refine (Leveled.ensures_releaseLoop hchild hdesc hhi n (i + 1) (v + c) s₁ L₁ h₁.ok ((h₁.level le_rfl).2 ht)
        ⟨hw.1.trans hstep.le, hle, hw.2.2⟩ (by omega) fun hlt' => ⟨?_, by omega⟩).mono ?_
      · rw [hnext hlt', hidx]
      · rintro _ s₂ ⟨L₂, h₂⟩
        exact ⟨L₂, h₁.trans (h₂.mono hstep.le le_rfl)⟩
    rw [if_neg hlt.ne, ensures_bind, ensures_get]
    dsimp only
    by_cases hpres : descends (s.table t i) = true
    swap
    · rw [if_neg hpres]
      exact hgo s L (h.worksOn_of_eq rfl rfl)
    rw [if_pos hpres]
    simp only [ensures_bind]
    have hpresent := hdesc _ hpres
    obtain ⟨-, hpt⟩ := h.child ht (hidx ▸ own_entryIndex hv) hpresent
    refine (hchild h hpt hwc (hle.trans hhi)).mono ?_
    rintro _ s₁ ⟨L₁, h₁⟩
    obtain ⟨hbelow, hsame⟩ := h₁.below ht hpt
    rw [ensures_dropTable (h₁.ok.busy ((h₁.level le_rfl).2 hpt))]
    rw [← hsame] at hpresent
    obtain ⟨L₂, h₂⟩ := h₁.ok.worksOn_dropped ((hbelow.level le_rfl).2 ht) hv le_rfl hlt hidx hpresent
      (congrArg Pte.pfn (congrFun hsame i))
    exact hgo _ L₂ ((hbelow.mono le_rfl hle).trans h₂)

theorem releasesAny_releaseTable {child : Pfn → ℕ → ℕ → PhysM Unit} {descends : Pte → Bool}
    (hchild : ReleasesAny k child) (hdesc : ∀ e : Pte, descends e = true → e.present = true) :
    ReleasesAny (k + 1) (releaseTable (512 ^ (k + 1)) descends child) := by
  intro s L t g a b h ht hw hb
  refine h.ensures_releaseLoop hchild hdesc hb _ _ _ s L ht hw (by decide) fun _ => ⟨rfl, ?_⟩
  rw [ptSize]
  omega

theorem releasesAny_pml2 : ReleasesAny 1 ptReleasePml2 :=
  releasesAny_releaseTable (fun h _ _ _ => ensures_pure.2 ⟨_, h.worksOn_of_eq rfl rfl⟩) fun e he => by
    rw [Bool.and_eq_true] at he
    exact he.1

theorem releasesAny_pml3 : ReleasesAny 2 ptReleasePml3 := releasesAny_releaseTable releasesAny_pml2 fun _ he => he

theorem releasesAny_pml4 : ReleasesAny 3 ptReleasePml4 := releasesAny_releaseTable releasesAny_pml3 fun _ he => he

/-! ### Populating -/

/-- `f` populates ranges under the tables at level `k`. -/
def PopulatesAny (k : ℕ) (f : Pfn → ℕ → ℕ → PhysM ℤ) : Prop :=
  ∀ {s L t g a b}, Leveled s L → L t = some k → Within k g a b → b ≤ userPages →
    Ensures (f t a b) s fun rc s' => (rc = 0 ∨ rc = -ENOMEM) ∧ ∃ L', WorksOn k t a b s L s' L'

/-- The pages of one turn have the same index. -/
theorem Within.entryIndex_eq (hw : Within k (v / 512 ^ (k + 1)) a b) (h₁ : a ≤ p) (h₂ : p < b) :
    entryIndex (512 ^ (k + 1)) p = entryIndex (512 ^ (k + 1)) v := by
  rw [entryIndex, entryIndex, mem_serves.1 (hw.mem ⟨h₁, h₂⟩)]

section

variable {flags : PteFlags} {g : ℕ}

/-- The loop of the lowest level with tables below it. -/
theorem Leveled.ensures_populatePml2Loop (hflags : flags.large = false) {s₀ : Phys} {L₀ : Levels}
    (ht : L₀ t = some 1) (hw : Within 1 g lo hi) (hhi : hi ≤ userPages) :
    ∀ (n i v : ℕ) (s : Phys) (L : Levels), WorksOn 1 t lo hi s₀ L₀ s L → lo ≤ v → v ≤ hi → 1 ≤ n →
      (v < hi → i = entryIndex 512 v ∧ 513 ≤ n + i) →
      Ensures (populatePml2Loop flags t lo hi n i v) s
        fun rc s' => (rc = 0 ∨ rc = -ENOMEM) ∧ ∃ L', WorksOn 1 t lo hi s₀ L₀ s' L'
  | 0, _, _, _, _, _, _, _, hn, _ => absurd hn (by omega)
  | n + 1, i, v, s, L, h, hlo, hle, _, hi' => by
    rw [populatePml2Loop]
    rcases Nat.lt_or_ge v hi with hlt | hge
    swap
    · obtain rfl : v = hi := le_antisymm hle hge
      rw [if_pos rfl, ensures_pure]
      exact ⟨Or.inl rfl, L, h⟩
    have ht' : L t = some 1 := (h.level le_rfl).2 ht
    have hrest : Within (0 + 1) g v hi := ⟨hw.1.trans hlo, hle, hw.2.2⟩
    obtain ⟨hstep, hnew, -, -, hnext⟩ := chunk_spec hrest hlt
    simp only [Nat.zero_add, pow_one] at hstep hnew hnext
    set c := chunk 512 v hi with hc
    obtain ⟨hidx, hfuel⟩ := hi' hlt
    have hv : v < userPages := hlt.trans_le hhi
    -- the turns after this one
    have hgo : ∀ s₁ L₁, WorksOn 1 t lo hi s L s₁ L₁ →
        Ensures (populatePml2Loop flags t lo hi n (i + 1) (v + c)) s₁
          fun rc s' => (rc = 0 ∨ rc = -ENOMEM) ∧ ∃ L', WorksOn 1 t lo hi s₀ L₀ s' L' := by
      intro s₁ L₁ h₁
      have hlt512 : entryIndex 512 v < 512 := Nat.mod_lt _ (by decide)
      refine Leveled.ensures_populatePml2Loop hflags ht hw hhi n (i + 1) (v + c) s₁ L₁ (h.trans h₁) (hlo.trans hstep.le)
        hnew (by omega) fun hlt' => ⟨?_, by omega⟩
      rw [hnext hlt', hidx]
    rw [if_neg hlt.ne, ensures_bind, ensures_get]
    dsimp only
    by_cases hpres : (s.table t i).present = true
    · rw [if_neg fun hc => hc.1 hpres]
      obtain ⟨hlarge, -⟩ := h.ok.child ht' (hidx ▸ own_entryIndex hv) hpres
      rw [if_pos ⟨hpres, by simp [hlarge]⟩]
      simp only [ensures_bind, ensures_get, setU, ensures_modify]
      exact hgo _ L (h.ok.worksOn_of_eq rfl rfl)
    · rw [if_pos ⟨hpres, by simp [hflags]⟩, ensures_bind]
      refine ensures_allocPageTable (fun p hp => ?_) ?_
      · simp only [ensures_bind, ensures_get, setU, setEntry, ensures_modify]
        rw [allocated_eq_added]
        exact hgo _ _ (h.ok.worksOn_linked ht' hv hlo hlt hidx hpres hp rfl hflags (fun _ _ => rfl) rfl)
      · have hsame : WorksOn 1 t lo hi s L (refused s) L := h.ok.worksOn_of_eq rfl rfl
        rw [ensures_bind]
        refine (releasesAny_pml2 hsame.ok ht' ⟨hw.1, hlo, hle.trans hw.2.2⟩ hv.le).mono ?_
        rintro _ s₁ ⟨L₁, h₁⟩
        exact ensures_pure.2 ⟨Or.inr rfl, L₁, (h.trans hsame).trans (h₁.mono le_rfl hle)⟩

/-- The table of an entry, which may be new. -/
theorem Leveled.ensures_ensureTable (h : Leveled s L) (ht : L t = some (k + 1)) (hv : v < userPages) (ha : a ≤ v)
    (hb : v < b) (hi : i = entryIndex (512 ^ (k + 1)) v) :
    Ensures (ensureTable flags t i) s fun r s' => ∃ L', WorksOn (k + 1) t a b s L s' L' ∧
      ∀ pt, r = some pt → (s'.table t i).present = true ∧ (s'.table t i).pfn = pt := by
  rw [ensureTable, ensures_bind, ensures_get]
  dsimp only
  by_cases hpres : (s.table t i).present = true
  · rw [if_pos hpres, ensures_pure]
    refine ⟨L, h.worksOn_of_eq rfl rfl, fun pt heq => ⟨hpres, Option.some.inj heq⟩⟩
  · rw [if_neg hpres, ensures_bind]
    refine ensures_allocPageTable (fun p hp => ?_) ?_
    · simp only [ensures_bind, setEntry, ensures_modify, ensures_pure]
      set e := pageEntry p { flags with large := false } with he
      have hleads : e.pfn = p ∧ e.large = false := ⟨rfl, rfl⟩
      have hupdate := update_entry_apply (allocated s p).table t i e
      refine ⟨_, h.worksOn_linked ht hv ha hb hi hpres hp hleads.1 hleads.2 (fun t' j => ?_) rfl, fun pt heq => ?_⟩
      · refine (hupdate t' j).trans ?_
        simp only [allocated, Function.update_apply]
        split_ifs <;> rfl
      · have hentry := (hupdate t i).trans (if_pos ⟨rfl, rfl⟩)
        exact ⟨congrArg Pte.present hentry, (congrArg Pte.pfn hentry).trans (Option.some.inj heq)⟩
    · rw [ensures_pure]
      exact ⟨L, h.worksOn_of_eq rfl rfl, fun pt heq => nomatch heq⟩

/-- The loop of the upper levels. -/
theorem Leveled.ensures_populateLoop {done : ℕ → ℕ → Bool} {child : Pfn → ℕ → ℕ → PhysM ℤ}
    {release : Pfn → ℕ → ℕ → PhysM Unit} (hdone : ∀ v hi, v ≤ hi → (done v hi = true ↔ v = hi))
    (hchild : PopulatesAny k child) (hrel : ReleasesAny (k + 1) release) {s₀ : Phys} {L₀ : Levels}
    (ht : L₀ t = some (k + 1)) (hw : Within (k + 1) g lo hi) (hhi : hi ≤ userPages) :
    ∀ (n i v : ℕ) (s : Phys) (L : Levels), WorksOn (k + 1) t lo hi s₀ L₀ s L → lo ≤ v → v ≤ hi →
      (∀ p, lo ≤ p → p < v → entryIndex (512 ^ (k + 1)) p < i) → 1 ≤ n →
      (v < hi → i = entryIndex (512 ^ (k + 1)) v ∧ 513 ≤ n + i) →
      Ensures (populateLoop (512 ^ (k + 1)) done child release flags t lo hi n i v) s
        fun rc s' => (rc = 0 ∨ rc = -ENOMEM) ∧ ∃ L', WorksOn (k + 1) t lo hi s₀ L₀ s' L'
  | 0, _, _, _, _, _, _, _, _, hn, _ => absurd hn (by omega)
  | n + 1, i, v, s, L, h, hlo, hle, hpast, _, hi' => by
    rw [populateLoop]
    rcases Nat.lt_or_ge v hi with hlt | hge
    swap
    · obtain rfl : v = hi := le_antisymm hle hge
      rw [if_pos ((hdone v v le_rfl).2 rfl), ensures_pure]
      exact ⟨Or.inl rfl, L, h⟩
    have ht' : L t = some (k + 1) := (h.level le_rfl).2 ht
    obtain ⟨hstep, hnew, hwc, -, hnext⟩ := chunk_spec (⟨hw.1.trans hlo, hle, hw.2.2⟩ : Within (k + 1) g v hi) hlt
    set c := chunk (512 ^ (k + 1)) v hi with hc
    obtain ⟨hidx, hfuel⟩ := hi' hlt
    have hv : v < userPages := hlt.trans_le hhi
    have hundo : Within (k + 1) g lo v := ⟨hw.1, hlo, hle.trans hw.2.2⟩
    rw [if_neg fun hd => hlt.ne ((hdone v hi hle).1 hd), ensures_bind]
    refine (h.ok.ensures_ensureTable ht' hv hlo hlt hidx).mono ?_
    rintro r s₁ ⟨L₁, h₁, htable⟩
    have ht₁ := (h₁.level le_rfl).2 ht'
    cases r with
    | none =>
      dsimp only
      rw [ensures_bind]
      refine (hrel h₁.ok ht₁ hundo hv.le).mono ?_
      rintro _ s₂ ⟨L₂, h₂⟩
      exact ensures_pure.2 ⟨Or.inr rfl, L₂, (h.trans h₁).trans (h₂.mono le_rfl hle)⟩
    | some pt =>
      obtain ⟨hpres, hpfn⟩ := htable pt rfl
      obtain ⟨-, hpt⟩ := h₁.ok.child ht₁ (hidx ▸ own_entryIndex hv) hpres
      rw [hpfn] at hpt
      simp only [ensures_bind, ensures_get, setU, ensures_modify]
      have hcount : ∀ u, WorksOn (k + 1) t lo hi s₁ L₁ { s₁ with u := u } L₁ := fun u => h₁.ok.worksOn_of_eq rfl rfl
      refine (hchild (hcount _).ok hpt hwc (hnew.trans hhi)).mono ?_
      rintro rc s₂ ⟨hrc, L₂, h₂⟩
      obtain ⟨hbelow, hsame⟩ := h₂.below ht₁ hpt
      have hall := ((h.trans h₁).trans (hcount _)).trans (hbelow.mono hlo hnew)
      have ht₂ := (hbelow.level le_rfl).2 ht₁
      split_ifs with hfail
      · -- the entry of this turn is not among those that are released
        simp only [ensures_bind]
        refine (hrel hbelow.ok ht₂ hundo hv.le).mono ?_
        rintro _ s₃ ⟨L₃, h₃⟩
        have hentry : s₃.table t i = s₁.table t i :=
          (h₃.entry fun p h₁ h₂ => (hpast p h₁ h₂).ne).trans (congrFun hsame i)
        have ht₃ := (h₃.level le_rfl).2 ht₂
        have hpres₃ : (s₃.table t i).present = true := hentry ▸ hpres
        have hpfn₃ : (s₃.table t i).pfn = pt := hentry ▸ hpfn
        obtain ⟨-, hpt₃⟩ := h₃.ok.child ht₃ (hidx ▸ own_entryIndex hv) hpres₃
        rw [ensures_dropTable (h₃.ok.busy (hpfn₃ ▸ hpt₃)), ensures_pure]
        obtain ⟨L₄, h₄⟩ := h₃.ok.worksOn_dropped ht₃ hv hlo hlt hidx hpres₃ hpfn₃
        exact ⟨hrc, L₄, (hall.trans (h₃.mono le_rfl hle)).trans h₄⟩
      · have hlt512 : entryIndex (512 ^ (k + 1)) v < 512 := Nat.mod_lt _ (by decide)
        refine Leveled.ensures_populateLoop hdone hchild hrel ht hw hhi n (i + 1) (v + c) s₂ L₂ hall
          (hlo.trans hstep.le) hnew (fun p h₁ h₂ => ?_) (by omega) fun hlt' => ⟨?_, by omega⟩
        · rcases Nat.lt_or_ge p v with hp | hp
          · exact (hpast p h₁ hp).trans (Nat.lt_succ_self i)
          · rw [hwc.entryIndex_eq hp h₂, ← hidx]
            exact Nat.lt_succ_self i
        · rw [hnext hlt', hidx]

theorem populatesAny_populateLoop {done : ℕ → ℕ → Bool} {child : Pfn → ℕ → ℕ → PhysM ℤ}
    {release : Pfn → ℕ → ℕ → PhysM Unit} (hdone : ∀ v hi, v ≤ hi → (done v hi = true ↔ v = hi))
    (hchild : PopulatesAny k child) (hrel : ReleasesAny (k + 1) release) :
    PopulatesAny (k + 1) fun t lo hi => populateLoop (512 ^ (k + 1)) done child release flags t lo hi (ptSize + 1)
      (entryIndex (512 ^ (k + 1)) lo) lo := by
  intro s L t g a b h ht hw hb
  refine Leveled.ensures_populateLoop hdone hchild hrel ht hw hb _ _ _ s L (h.worksOn_of_eq rfl rfl) le_rfl hw.2.1
    (fun p h₁ h₂ => absurd h₁ (by omega)) (by decide) fun _ => ⟨rfl, ?_⟩
  rw [ptSize]
  omega

theorem populatesAny_pml2 (hflags : flags.large = false) : PopulatesAny 1 (ptPopulatePml2 flags) := by
  intro s L t g a b h ht hw hb
  refine Leveled.ensures_populatePml2Loop hflags ht hw hb _ _ _ s L (h.worksOn_of_eq rfl rfl) le_rfl hw.2.1
    (by decide) fun _ => ⟨rfl, ?_⟩
  rw [ptSize]
  omega

theorem populatesAny_pml3 (hflags : flags.large = false) : PopulatesAny 2 (ptPopulatePml3 flags) :=
  populatesAny_populateLoop (fun _ _ _ => decide_eq_true_iff) (populatesAny_pml2 hflags) releasesAny_pml3

theorem populatesAny_pml4 (hflags : flags.large = false) : PopulatesAny 3 (ptPopulatePml4 flags) := by
  refine populatesAny_populateLoop (fun v hi hle => ?_) (populatesAny_pml3 hflags) releasesAny_pml4
  rw [decide_eq_true_iff]
  exact ⟨fun h => le_antisymm hle h, ge_of_eq⟩

/-! ### Ranges of addresses -/

/-- The pages of a range of addresses of the user. -/
theorem userPages_of_range (hlt : lo < hi) (hle : hi ≤ 2 ^ 47) :
    linear lo < linear hi ∧ Within 3 0 (pageDown lo) (pageUp hi) ∧ pageUp hi ≤ userPages := by
  have hlo : linear lo = lo := Nat.mod_eq_of_lt (by omega)
  have hhi : linear hi = hi := Nat.mod_eq_of_lt (by omega)
  unfold pageDown pageUp pageSize
  rw [hlo, hhi]
  have hb : (hi + 4096 - 1) / 4096 ≤ userPages := by
    unfold userPages
    omega
  exact ⟨hlt, within_root (by omega) hb, hb⟩

/-- **`__pt_populate_range`** returns, whatever the counts of the tables are. -/
theorem Leveled.ensures_ptPopulateRange (h : Leveled s L) (ht : L t = some 3) (hflags : flags.large = false)
    (hlt : lo < hi) (hle : hi ≤ 2 ^ 47) :
    Ensures (ptPopulateRange t lo hi flags) s fun rc s' => (rc = 0 ∨ rc = -ENOMEM) ∧
      ∃ L', WorksOn 3 t (pageDown lo) (pageUp hi) s L s' L' := by
  obtain ⟨hlinear, hw, hb⟩ := userPages_of_range hlt hle
  rw [ptPopulateRange, dbgAssert, if_pos hlinear, pure_bind]
  exact populatesAny_pml4 hflags h ht hw hb

/-- **`__pt_release_range`** returns, whatever the counts of the tables are. -/
theorem Leveled.ensures_ptReleaseRange (h : Leveled s L) (ht : L t = some 3) (hlt : lo < hi) (hle : hi ≤ 2 ^ 47) :
    Ensures (ptReleaseRange t lo hi) s fun _ s' => ∃ L', WorksOn 3 t (pageDown lo) (pageUp hi) s L s' L' := by
  obtain ⟨hlinear, hw, hb⟩ := userPages_of_range hlt hle
  rw [ptReleaseRange, dbgAssert, if_pos hlinear, pure_bind]
  exact releasesAny_pml4 h ht hw hb

end

/-! ### Slots -/

/-- The tables of an iterator over the lower half are at their levels. -/
theorem Leveled.level_pt {root : Pfn} {it : PtIter} (h : Leveled s L) (hroot : L root = some 3)
    (hit : OnPath s.table root it) (htop : it.idx 3 < 256) (hk : it.level ≤ k) (hk3 : k ≤ 3)
    (ht : it.pt k = some t) : L t = some k := by
  have hdown : ∀ n k t, k + n = 3 → it.level ≤ k → it.pt k = some t → L t = some k := by
    intro n
    induction n with
    | zero =>
      rintro k t rfl hk ht
      obtain rfl := Option.some.inj (hit.top.symm.trans ht)
      exact hroot
    | succ n ih =>
      intro k t hkn hk ht
      obtain ⟨t', ht', hleads, hpt⟩ := hit.inner k hk (by omega)
      obtain rfl := Option.some.inj (hpt.symm.trans ht)
      have hown : Own (k + 1) (it.idx (k + 1)) :=
        ⟨hit.idx_lt (k + 1) (by omega), fun hc => by rw [hc]; exact htop⟩
      exact (h.child (ih (k + 1) t' (by omega) (by omega) ht') hown hleads.1).2
  exact hdown (3 - k) k t (by omega) hk ht

end

end Paging

end Kernel64
