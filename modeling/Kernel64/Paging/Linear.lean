import Kernel64.Paging.Populate
import Kernel64.Paging.Trees

/-!
# Linear mappings (`paging.c`)

`map_range_large` maps a range of addresses to a range of physical memory, by large pages where there are no
tables for small ones. It first populates the upper levels, which changes no translation, and then writes the
entries of all slots of the range (`LargeRange.linearlyMapped`).
-/

namespace Kernel64

namespace Paging

/-- `phys | page_flags`, with `PTE_LARGE` or without; `phys` is a multiple of the page size. -/
def linearEntry (phys : ℕ) (large : Bool) : Pte := ⟨phys / pageSize % 2 ^ 36, true, true, false, large, false⟩

/-- The loop of `map_range_large` over the slots of the range. -/
def mapLargeLoop (hi : ℕ) : ℕ → Option PtIter → ℕ → PhysM Unit
  | 0, _, _ => throw .fuel
  | _ + 1, none, _ => return
  | n + 1, some it, phys => do
    if it.addr < hi then
      let pt := (it.pt it.level).getD 0
      let index := it.idx it.level
      dbgAssert (it.level = 1 ∨ it.level = 0)
      dbgAssert (¬((← get).table pt index).present)
      if it.level = 1 then
        setEntry pt index (linearEntry phys true)
        mapLargeLoop hi n (ptIterNext (← get).table it) (phys + 512 * pageSize)
      else
        setEntry pt index (linearEntry phys false)
        mapLargeLoop hi n (ptIterNext (← get).table it) (phys + pageSize)

/-- `map_range_large`. A slot has a page at least, so that there are no more slots than pages. -/
def mapRangeLarge (pml4 : Pfn) (lo hi phys : ℕ) (flags : PteFlags) : PhysM ℤ := do
  let rc ← ptPopulateRange pml4 lo hi { flags with large := true }
  if rc ≠ 0 then return rc
  mapLargeLoop hi (pageUp hi - pageDown lo + 1) (some (ptIterSet (← get).table pml4 lo)) phys
  return 0

section

variable {s s' : Phys} {root t u : Pfn} {flags : PteFlags} {p k a b v hi lo addr : ℕ}

/-! ### Populating -/

/-- No address of the pages is translated. -/
def Vacant (table : Pfn → ℕ → Pte) (root : Pfn) (a b : ℕ) : Prop :=
  ∀ addr, a ≤ pageDown addr → pageDown addr < b → translate table root addr = none

/-- `f` populates the pages from `a` to `b` down to level 1, under a table at level `k`; nothing is said when it
fails. -/
def PopulatesLarge (root : Pfn) (k : ℕ) (f : Pfn → ℕ → ℕ → PhysM ℤ) : Prop :=
  ∀ (s : Phys) (t : Pfn) (g a b : ℕ), Tree s root → Within k g a b → b ≤ 2 ^ 36 →
    (∀ p, a ≤ p → p < b → Under s.table root p k t) → Vacant s.table root a b →
    Yields (f t a b) s fun rc s' => rc = 0 →
      Grown root s s' ∧ ∀ p, a ≤ p → p < b → ∃ u, Under s'.table root p 1 u

theorem pageDown_page (hv : v < 2 ^ 36) : pageDown (4096 * v) = v := by
  unfold pageDown linear pageSize
  omega

theorem populatePml2Loop_large (hlarge : flags.large = true) : ∀ (n i v : ℕ) (s : Phys),
    Yields (populatePml2Loop flags t lo hi n i v) s fun _ s' => s'.table = s.table ∧ s'.free = s.free
  | 0, i, v, s => yields_throw
  | n + 1, i, v, s => by
    rw [populatePml2Loop]
    split_ifs with hdone
    · exact yields_pure ⟨rfl, rfl⟩
    · refine Yields.bind (ensures_get.2 ?_).yields
      dsimp only
      rw [if_neg fun hc => hc.2 hlarge]
      split_ifs with hpresent
      · refine Yields.bind (ensures_get.2 ?_).yields
        refine Yields.bind (ensures_modify.2 ?_).yields
        exact (populatePml2Loop_large hlarge n _ _ _).mono fun _ _ h => h
      · exact populatePml2Loop_large hlarge n _ _ _

theorem populatesLarge_pml2 (hlarge : flags.large = true) : PopulatesLarge root 1 (ptPopulatePml2 flags) := by
  intro s t g a b h hw hb hu hv
  refine (populatePml2Loop_large hlarge _ _ _ s).mono fun rc s' hs' _ => ?_
  have hg := h.grown hs'.1 hs'.2
  exact ⟨hg, fun p h₁ h₂ => ⟨t, hg.under (by omega) (hu p h₁ h₂)⟩⟩

/-- The table of an entry, which is there or is allocated. -/
theorem yields_ensureTable (h : Tree s root) (hp : p < 2 ^ 36) (hwrite : flags.write = true)
    (hu : Under s.table root p (k + 1) t) (hnone : translate s.table root (4096 * p) = none) :
    Yields (ensureTable flags t (digit p (k + 1))) s fun r s' => ∀ pt, r = some pt →
      Grown root s s' ∧ Under s'.table root p k pt := by
  unfold ensureTable
  refine Yields.bind (ensures_get.2 ?_).yields
  dsimp only
  split_ifs with hpresent
  · refine yields_pure fun pt hpt => ?_
    obtain rfl := Option.some.inj hpt
    rw [← pageDown_page hp] at hu hpresent
    have hstep := Under.step hu (hu.leads_of_none hnone hpresent).2
    rw [pageDown_page hp] at hstep
    exact ⟨h.grown rfl rfl, hstep⟩
  · refine Yields.bind (Ensures.yields (ensures_allocPageTable (fun pt hpt => ?_) ?_))
    · dsimp only
      refine Yields.bind (ensures_modify.2 ?_).yields
      refine yields_pure fun pt' hpt' => ?_
      obtain rfl := Option.some.inj hpt'
      have hne : t ≠ pt := by
        rintro rfl
        cases hpt.symm.trans (h.busy hp hu)
      have hl : Links s
          { allocated s pt with
            table := Function.update (allocated s pt).table t (Function.update ((allocated s pt).table t)
              (digit p (k + 1)) (pageEntry pt { flags with large := false })) }
          t (digit p (k + 1)) pt (pageEntry pt { flags with large := false }) := by
        refine ⟨hpt, fun u j => ?_, fun u => ?_⟩
        · dsimp only
          rw [update_entry_apply]
          split_ifs with hat hnew
          · rfl
          · rw [hnew, allocated]
            dsimp only
            rw [Function.update_self]
          · rw [allocated]
            dsimp only
            rw [Function.update_of_ne hnew]
        · exact Function.update_apply _ _ _ _
      have hleads : (pageEntry pt { flags with large := false }).Leads := ⟨rfl, Bool.false_ne_true⟩
      exact ⟨hl.grown h hp hu hpresent hleads rfl hwrite, hl.under_new h hp hu hpresent hleads rfl⟩
    · exact yields_pure fun pt hpt => (by cases hpt)

/-- The loop over the entries of an upper table. -/
theorem yields_populateLoop_large {done : ℕ → ℕ → Bool} {child : Pfn → ℕ → ℕ → PhysM ℤ}
    {release : Pfn → ℕ → ℕ → PhysM Unit} {g : ℕ} (hwrite : flags.write = true)
    (hchild : PopulatesLarge root k child) (hdone : ∀ {v}, v < hi → done v hi = false) (hend : done hi hi = true)
    (hhi : hi ≤ 2 ^ 36) :
    ∀ (n i v : ℕ) (s : Phys), Tree s root → Within (k + 1) g v hi →
      (∀ p, v ≤ p → p < hi → Under s.table root p (k + 1) t) → Vacant s.table root v hi →
      (v < hi → i = entryIndex (512 ^ (k + 1)) v) →
      Yields (populateLoop (512 ^ (k + 1)) done child release flags t lo hi n i v) s fun rc s' => rc = 0 →
        Grown root s s' ∧ ∀ p, v ≤ p → p < hi → ∃ u, Under s'.table root p 1 u := by
  intro n
  induction n with
  | zero => exact fun _ _ _ _ _ _ _ _ => yields_throw
  | succ n ih =>
    intro i v s h hw hu hv hidx
    rw [populateLoop]
    rcases Nat.lt_or_ge v hi with hlt | hge
    · rw [if_neg (by rw [hdone hlt]; exact Bool.false_ne_true)]
      obtain ⟨hadv, hle, hw', -, hnext⟩ := chunk_spec hw hlt
      set v' := v + chunk (512 ^ (k + 1)) v hi with hv'
      have hdigit : i = digit v (k + 1) := hidx hlt
      have hpage : v < 2 ^ 36 := by omega
      have hnone : translate s.table root (4096 * v) = none := by
        refine hv _ ?_ ?_
        · rw [pageDown_page hpage]
        · rwa [pageDown_page hpage]
      rw [hdigit]
      refine Yields.bind ((yields_ensureTable h hpage hwrite (hu v le_rfl hlt) hnone).mono fun r s₁ hr => ?_)
      cases r with
      | none => exact Yields.bind (yields_true fun _ _ => yields_pure fun hc => (by cases hc))
      | some pt =>
        obtain ⟨hg₁, hpt⟩ := hr pt rfl
        dsimp only
        refine Yields.bind (ensures_get.2 ?_).yields
        refine Yields.bind (ensures_modify.2 ?_).yields
        -- the count of the table does not matter here
        set s₂ : Phys := { s₁ with u := Function.update s₁.u pt (s₁.u pt + _) }
        have hg₂ : Grown root s s₂ := hg₁.trans (hg₁.tree.grown rfl rfl)
        have hchunk : ∀ p, v ≤ p → p < v' → Under s₂.table root p k pt := by
          intro p h₁ h₂
          have hgroup := mem_serves.1 (hw'.mem ⟨h₁, h₂⟩)
          exact hpt.congr hgroup.symm
        have hvacant : Vacant s₂.table root v hi := by
          intro addr h₁ h₂
          rw [hg₂.translate]
          exact hv addr h₁ h₂
        refine Yields.bind ((hchild s₂ pt _ v v' hg₂.tree hw' (by omega) hchunk
          fun addr h₁ h₂ => hvacant addr h₁ (by omega)).mono fun rc s₃ hrc => ?_)
        split_ifs with hfail
        · refine Yields.bind (yields_true fun _ _ => ?_)
          exact Yields.bind (yields_true fun _ _ => yields_pure fun hc => absurd hc hfail)
        · obtain ⟨hg₃, hdown⟩ := hrc (not_not.1 hfail)
          have hg := hg₂.trans hg₃
          refine Yields.mono (ih (digit v (k + 1) + 1) v' s₃ hg.tree
            ⟨hw.1.trans hadv.le, hle, hw.2.2⟩ ?_ ?_ ?_) fun rc' s' hs' hzero => ?_
          · exact fun p h₁ h₂ => hg.under (by omega) (hu p (by omega) h₂)
          · intro addr h₁ h₂
            rw [hg.translate]
            exact hv addr (by omega) h₂
          · intro hlt'
            rw [hnext hlt']
            rfl
          · obtain ⟨hg', hdown'⟩ := hs' hzero
            refine ⟨hg.trans hg', fun p h₁ h₂ => ?_⟩
            rcases Nat.lt_or_ge p v' with hp | hp
            · obtain ⟨u, hu⟩ := hdown p h₁ hp
              exact ⟨u, hg'.under (by omega) hu⟩
            · exact hdown' p hp h₂
    · obtain rfl : v = hi := le_antisymm hw.2.1 hge
      rw [if_pos hend]
      exact yields_pure fun _ => ⟨h.grown rfl rfl, fun p h₁ h₂ => absurd h₂ (Nat.not_lt.2 h₁)⟩

theorem populatesLarge_pml3 (hlarge : flags.large = true) (hwrite : flags.write = true) :
    PopulatesLarge root 2 (ptPopulatePml3 flags) := by
  intro s t g a b h hw hb hu hv
  refine yields_populateLoop_large hwrite (populatesLarge_pml2 hlarge) (fun hlt => ?_) ?_ hb _ _ a s h hw hu hv
    fun _ => rfl
  · exact decide_eq_false hlt.ne
  · exact decide_eq_true rfl

theorem populatesLarge_pml4 (hlarge : flags.large = true) (hwrite : flags.write = true) :
    PopulatesLarge root 3 (ptPopulatePml4 flags) := by
  intro s t g a b h hw hb hu hv
  refine yields_populateLoop_large hwrite (populatesLarge_pml3 hlarge hwrite) (fun hlt => ?_) ?_ hb _ _ a s h hw hu hv
    fun _ => rfl
  · exact decide_eq_false (Nat.not_le.2 hlt)
  · exact decide_eq_true le_rfl

theorem pageDown_le_pageUp (h : linear lo < linear hi) : pageDown lo < pageUp hi := by
  unfold pageDown pageUp pageSize
  omega

theorem pageUp_le (hi : ℕ) : pageUp hi ≤ 2 ^ 36 := by
  unfold pageUp linear pageSize
  omega

/-- **Populating a range** for large pages: no translation changes, and there are tables down to level 1. -/
theorem Tree.yields_ptPopulateRange (h : Tree s root) (hlarge : flags.large = true) (hwrite : flags.write = true)
    (hv : Vacant s.table root (pageDown lo) (pageUp hi)) :
    Yields (ptPopulateRange root lo hi flags) s fun rc s' => rc = 0 →
      Grown root s s' ∧ ∀ p, pageDown lo ≤ p → p < pageUp hi → ∃ u, Under s'.table root p 1 u := by
  unfold ptPopulateRange dbgAssert
  refine Yields.bind ?_
  split_ifs with hlt
  · refine yields_pure ?_
    have hend := pageUp_le hi
    have hw : Within 3 0 (pageDown lo) (pageUp hi) := by
      have hle := pageDown_le_pageUp hlt
      unfold Within
      norm_num
      omega
    exact populatesLarge_pml4 hlarge hwrite s root 0 _ _ h hw hend (fun p _ _ => .top) hv
  · exact yields_throw

/-! ### Mapping -/

variable {it : PtIter} {n q : ℕ}

/-- The state after the entry of a slot has been written. -/
def mapped (s : Phys) (it : PtIter) (t : Pfn) (phys : ℕ) : Phys :=
  { s with
    table := Function.update s.table t
      (Function.update (s.table t) (it.idx it.level) (linearEntry phys (it.level = 1))) }

theorem stores_mapped (s : Phys) (it : PtIter) (t : Pfn) (phys : ℕ) :
    Stores s (mapped s it t phys) t (it.idx it.level) (linearEntry phys (it.level = 1)) :=
  ⟨fun u j => update_entry_apply _ _ _ _ u j, rfl⟩

/-- One turn of the loop. -/
theorem ensures_mapLargeLoop_turn {phys : ℕ} {Q : Unit → Phys → Prop} (haddr : it.addr < hi)
    (ht : it.pt it.level = some t) (hlevel : it.level ≤ 1)
    (habsent : ¬(s.table t (it.idx it.level)).present = true)
    (hnext : Ensures (mapLargeLoop hi n (ptIterNext (mapped s it t phys).table it) (phys + slotSize it))
      (mapped s it t phys) Q) :
    Ensures (mapLargeLoop hi (n + 1) (some it) phys) s Q := by
  rw [mapLargeLoop, if_pos haddr, ht]
  simp only [Option.getD_some, dbgAssert, ensures_bind, ensures_get]
  rw [if_pos (by omega), ensures_pure, if_pos habsent, ensures_pure]
  split_ifs with hone
  · have hsize : slotSize it = 512 * pageSize := by
      rw [slotSize, hone]
      decide
    simp only [setEntry, ensures_bind, ensures_modify, ensures_get]
    rw [mapped, hsize] at hnext
    simp only [hone, decide_true] at hnext ⊢
    exact hnext
  · have hzero : it.level = 0 := by omega
    have hsize : slotSize it = pageSize := by
      rw [slotSize, hzero]
      decide
    simp only [setEntry, ensures_bind, ensures_modify, ensures_get]
    rw [mapped, hsize] at hnext
    simp only [hzero, zero_ne_one, decide_false] at hnext ⊢
    exact hnext

theorem linearEntry_pfn {large : Bool} (hq : q < 2 ^ 36) : (linearEntry (4096 * q) large).pfn = q := by
  change 4096 * q / 4096 % 2 ^ 36 = q
  rw [Nat.mul_div_cancel_left q (by omega), Nat.mod_eq_of_lt hq]

/-- The place of an address in a slot. -/
theorem OnPath.page_mod {table : Pfn → ℕ → Pte} (h : OnPath table root it) (hlevel : it.level ≤ 1)
    (hlo : slotPage it ≤ pageDown addr) (hhi : pageDown addr < slotPage it + 512 ^ it.level) :
    addr / pageSize % 512 ^ it.level = pageDown addr - slotPage it := by
  have hmod := h.slotPage_mod
  unfold pageDown linear pageSize at *
  generalize it.level = l at *
  interval_cases l
  · norm_num at hhi ⊢
    omega
  · norm_num at hhi hmod ⊢
    omega

/-- A slot ends before the range does, when it begins there. -/
theorem OnPath.slot_le {table : Pfn → ℕ → Pte} {r : ℕ} (h : OnPath table root it) (hlevel : it.level ≤ 1)
    (hlt : slotPage it < r) (hr : r % 512 = 0) : slotPage it + 512 ^ it.level ≤ r := by
  have hmod := h.slotPage_mod
  generalize it.level = l at *
  interval_cases l
  · exact hlt
  · norm_num at hmod ⊢
    omega

/-- The loop over the slots from one on: the pages up to `b` are mapped in a row, and the addresses outside of
the slots are translated as before. -/
theorem ensures_mapLargeLoop {r : ℕ} (hb : b ≤ r) (hr : r % 512 = 0) (hend : b ≤ 2 ^ 36)
    (htest : ∀ v, lo ≤ v → v < 2 ^ 36 → (canonical (4096 * v) < hi ↔ v < b)) :
    ∀ (n : ℕ) (it : PtIter) (s : Phys) (q : ℕ), Tree s root → AtSlot s.table root it → lo ≤ slotPage it →
      (∀ p, slotPage it ≤ p → p < b → (∃ u, Under s.table root p 1 u) ∧ Open s.table root p) →
      Vacant s.table root (slotPage it) b → (slotPage it < b → q + (b - slotPage it) ≤ 2 ^ 36) →
      b - slotPage it < n →
      Ensures (mapLargeLoop hi n (some it) (4096 * q)) s fun _ s' =>
        (∀ addr, slotPage it ≤ pageDown addr → pageDown addr < b →
          translate s'.table root addr = some (q + (pageDown addr - slotPage it), true)) ∧
        ∀ addr, pageDown addr < slotPage it ∨ r ≤ pageDown addr →
          translate s'.table root addr = translate s.table root addr := by
  intro n
  induction n with
  | zero => exact fun it s q h hit hlo hu hv hq hn => absurd hn (Nat.not_lt_zero _)
  | succ n ih =>
    intro it s q h hit hlo hu hv hq hn
    have hpage := hit.slotPage_lt
    have haddr : it.addr < hi ↔ slotPage it < b := by
      rw [hit.addr, slotStart, pageSize]
      exact htest _ hlo hpage
    rcases Nat.lt_or_ge (slotPage it) b with hlt | hge
    · obtain ⟨⟨u, hu₁⟩, -⟩ := hu (slotPage it) le_rfl hlt
      have hlevel := hit.level_le_one rfl hu₁
      obtain ⟨t, ht, hstop⟩ := hit.stop
      have hut := hit.under le_rfl hit.level_le ht
      have hidx := hit.digit_slotPage hit.level_le
      -- the entry of the slot is not present, since its addresses are not translated
      have habsent : ¬(s.table t (it.idx it.level)).present = true := by
        intro hpresent
        rw [← pageDown_page hpage] at hut hidx
        have hnone := hv (4096 * slotPage it) (by rw [pageDown_page hpage]) (by rwa [pageDown_page hpage])
        rw [← hidx] at hpresent hstop
        obtain ⟨hne, hleads⟩ := hut.leads_of_none hnone hpresent
        exact hstop.elim hne fun hn => hn hleads
      refine ensures_mapLargeLoop_turn (haddr.2 hlt) ht hlevel habsent ?_
      have hs := stores_mapped s it t (4096 * q)
      have hpath := hs.onPath h hit ht
      rw [← hidx] at hs habsent
      set s₁ := mapped s it t (4096 * q) with hs₁
      set w := 512 ^ it.level with hw
      have hold : it.level = 0 ∨ ¬(s.table t (digit (slotPage it) it.level)).Leads :=
        Or.inr fun hleads => habsent hleads.1
      have hnew : it.level = 0 ∨ ¬(linearEntry (4096 * q) (it.level = 1)).Leads := by
        rcases Nat.lt_or_ge 0 it.level with hpos | hz
        · exact Or.inr fun hleads => hleads.2 (decide_eq_true (by omega))
        · exact Or.inl (by omega)
      have hmem : ∀ {p}, p / w = slotPage it / w ↔ slotPage it ≤ p ∧ p < slotPage it + w :=
        hit.mem_slot_iff
      have hoff : ∀ addr, pageDown addr < slotPage it ∨ slotPage it + w ≤ pageDown addr →
          translate s₁.table root addr = translate s.table root addr := by
        intro addr hout
        refine hs.translate_off h hpage hut fun hc => ?_
        have := hmem.1 hc
        omega
      have hon : ∀ addr, slotPage it ≤ pageDown addr → pageDown addr < slotPage it + w → pageDown addr < b →
          translate s₁.table root addr = some (q + (pageDown addr - slotPage it), true) := by
        intro addr h₁ h₂ h₃
        rw [hs.translate_on h hpage hut hold hnew (hmem.2 ⟨h₁, h₂⟩) rfl (hu _ h₁ h₃).2]
        have hpfn : (linearEntry (4096 * q) (it.level = 1)).pfn = q := linearEntry_pfn (by have := hq hlt; omega)
        rw [hpfn, ← hw, hit.page_mod hlevel h₁ h₂]
        rfl
      have hsize : 4096 * q + slotSize it = 4096 * (q + w) := by
        rw [slotSize, pageSize, Nat.mul_add]
      have hfit : slotPage it + w ≤ r := hit.slot_le hlevel (hlt.trans_le hb) hr
      have hwpos : 0 < w := Nat.pow_pos (by omega)
      rw [hsize]
      rcases hpath.ptIterNext with ⟨hnone, hlast⟩ | ⟨it', hsome, hat, hnext⟩
      · -- the slot is the last of all
        obtain ⟨m, rfl⟩ : ∃ m, n = m + 1 := ⟨n - 1, by omega⟩
        rw [hnone, mapLargeLoop, ensures_pure]
        refine ⟨fun addr h₁ h₂ => hon addr h₁ (by omega) h₂, fun addr hout => hoff addr ?_⟩
        have := pageDown_lt addr
        omega
      · rw [hsome]
        rw [← hw] at hnext
        refine (ih it' s₁ (q + w) (hs.tree h hpage hut hold hnew) hat (by omega) ?_ ?_ (by omega) (by omega)).mono ?_
        · intro p h₁ h₂
          obtain ⟨⟨u, hu⟩, ho⟩ := hu p (by omega) h₂
          exact ⟨⟨u, (hs.under_iff h hpage hut hold hnew (by omega)).2 hu⟩,
            hs.opened h hpage hut hold hnew (by omega) ho⟩
        · intro addr h₁ h₂
          rw [hoff addr (by omega)]
          exact hv addr (by omega) h₂
        · rintro - s' ⟨hin, hout⟩
          refine ⟨fun addr h₁ h₂ => ?_, fun addr h₁ => ?_⟩
          · rcases Nat.lt_or_ge (pageDown addr) (slotPage it') with hp | hp
            · rw [hout addr (Or.inl hp), hon addr h₁ (by omega) h₂]
            · rw [hin addr hp h₂]
              congr 2
              omega
          · rw [hout addr (by omega), hoff addr (by omega)]
    · rw [mapLargeLoop, if_neg fun hc => absurd (haddr.1 hc) (Nat.not_lt.2 hge)]
      rw [ensures_pure]
      exact ⟨fun addr h₁ h₂ => by omega, fun _ _ => rfl⟩

/-! ### The whole range -/

/-- The end of a range, rounded up to the next 2 MiB. -/
def largeUp (hi : ℕ) : ℕ := (linear hi + 2 ^ 21 - 1) / 2 ^ 21 * 2 ^ 21

/-- What is asked of a range: it lies in one of the halves of the address space, begins at a multiple of 2 MiB as
the physical range does, and nothing is mapped there. -/
structure LargeRange (s : Phys) (pml4 : Pfn) (lo hi phys : ℕ) : Prop where
  lt : lo < hi
  half : hi < 2 ^ 47 ∨ 2 ^ 64 - 2 ^ 47 ≤ lo ∧ hi < 2 ^ 64
  aligned : lo % 2 ^ 21 = 0
  phys_aligned : phys % 2 ^ 21 = 0
  bound : phys + (hi - lo) < 2 ^ 47
  vacant : ∀ v, linear lo ≤ linear v → linear v < largeUp hi → translate s.table pml4 v = none

/-- The range is mapped in a row with write permission, and outside of it nothing changes. -/
structure LinearlyMapped (s s' : Phys) (pml4 : Pfn) (lo hi phys : ℕ) : Prop where
  inside : ∀ v, lo ≤ v → v < hi → ∃ p, translate s'.table pml4 v = some (p, true) ∧
    p * pageSize + v % pageSize = phys + (v - lo)
  outside : ∀ v, linear v < linear lo ∨ largeUp hi ≤ linear v →
    translate s'.table pml4 v = translate s.table pml4 v

/-- `PTE_WRITE | PTE_LOW` -/
def linearFlags : PteFlags := ⟨true, false, false, true⟩

variable {pml4 : Pfn} {phys : ℕ}

theorem LargeRange.linear_lt (h : LargeRange s pml4 lo hi phys) : linear lo < linear hi := by
  have hlt := h.lt
  unfold linear
  rcases h.half with hhalf | ⟨h₁, h₂⟩
  · omega
  · omega

/-- The test of the loop, on pages. -/
theorem LargeRange.test_iff (h : LargeRange s pml4 lo hi phys) (hv : pageDown lo ≤ v) (hlt : v < 2 ^ 36) :
    canonical (4096 * v) < hi ↔ v < pageUp hi := by
  have hlo := h.lt
  unfold pageDown linear pageSize at hv
  rcases h.half with hhalf | ⟨h₁, h₂⟩
  · have hup : pageUp hi = (hi + 4095) / 4096 := by
      unfold pageUp linear pageSize
      omega
    rw [hup]
    rcases Nat.lt_or_ge v (2 ^ 35) with hlow | hhigh
    · rw [canonical, if_pos (by omega)]
      omega
    · have hle := le_canonical (4096 * v)
      omega
  · have hup : pageUp hi = (hi - (2 ^ 64 - 2 ^ 48) + 4095) / 4096 := by
      unfold pageUp linear pageSize
      omega
    rw [hup, canonical_of_upper (by omega) (by omega)]
    omega

/-- The place of an address in the range, on pages. -/
theorem LargeRange.page_of_mem (h : LargeRange s pml4 lo hi phys) (hlo : lo ≤ v) (hhi : v < hi) :
    pageDown lo ≤ pageDown v ∧ pageDown v < pageUp hi ∧
      (phys / 4096 + (pageDown v - pageDown lo)) * pageSize + v % pageSize = phys + (v - lo) := by
  have halign := h.aligned
  have hphys := h.phys_aligned
  unfold pageDown pageUp linear pageSize
  rcases h.half with hhalf | ⟨h₁, h₂⟩
  · omega
  · omega

theorem LargeRange.linear_le_of_page (h : LargeRange s pml4 lo hi phys) (hv : pageDown lo ≤ pageDown v) :
    linear lo ≤ linear v := by
  have halign := h.aligned
  unfold pageDown linear pageSize at *
  omega

theorem linear_lt_of_page (hv : pageDown v < pageUp hi) : linear v < largeUp hi := by
  unfold pageDown pageUp pageSize at hv
  unfold largeUp
  omega

/-- The addresses outside of the range, on pages. -/
theorem LargeRange.page_of_not_mem (h : LargeRange s pml4 lo hi phys)
    (hv : linear v < linear lo ∨ largeUp hi ≤ linear v) :
    pageDown v < pageDown lo ∨ largeUp hi / 4096 ≤ pageDown v := by
  have halign := h.aligned
  unfold pageDown largeUp linear pageSize at *
  omega

/-- The pages of the range have addresses in it. -/
theorem LargeRange.exists_addr (h : LargeRange s pml4 lo hi phys) (h₁ : pageDown lo ≤ p) (h₂ : p < pageUp hi) :
    ∃ v, lo ≤ v ∧ v < hi ∧ pageDown v = p := by
  have hlt := h.lt
  have halign := h.aligned
  refine ⟨lo + 4096 * (p - pageDown lo), Nat.le_add_right _ _, ?_⟩
  unfold pageDown pageUp linear pageSize at *
  rcases h.half with hhalf | ⟨h₁, h₂⟩
  · omega
  · omega

/-- The loop, once the range is populated. -/
theorem LargeRange.ensures_loop {s₁ : Phys} (h : LargeRange s pml4 lo hi phys) (hg : Grown pml4 s s₁)
    (hdown : ∀ p, pageDown lo ≤ p → p < pageUp hi → ∃ u, Under s₁.table pml4 p 1 u)
    (hopen : ∀ v, lo ≤ v → v < hi → Open s.table pml4 (pageDown v)) :
    Ensures (mapLargeLoop hi (pageUp hi - pageDown lo + 1) (some (ptIterSet s₁.table pml4 lo)) phys) s₁
      fun _ s' => LinearlyMapped s s' pml4 lo hi phys := by
  have hlt := pageDown_le_pageUp h.linear_lt
  have hend := pageUp_le hi
  have halign := h.aligned
  have hphys := h.phys_aligned
  obtain ⟨hat, hlo, hhi⟩ := atSlot_ptIterSet s₁.table pml4 lo
  set it := ptIterSet s₁.table pml4 lo with hit
  -- the first slot begins with the range
  have hmem : slotPage it ≤ pageDown lo ∧ pageDown lo < slotPage it + 512 ^ it.level := by
    rw [slotStart] at hlo hhi
    rw [slotSize, ← Nat.mul_add] at hhi
    exact ⟨(Nat.le_div_iff_mul_le (by decide)).2 (by rwa [Nat.mul_comm]), Nat.div_lt_of_lt_mul hhi⟩
  obtain ⟨u, hu⟩ := hdown (pageDown lo) le_rfl hlt
  have hlevel := hat.level_le_one (hat.mem_slot_iff.2 hmem) hu
  have hfirst : slotPage it = pageDown lo := by
    have hmod := hat.slotPage_mod
    have hpage : pageDown lo % 512 = 0 := by
      unfold pageDown linear pageSize
      omega
    obtain ⟨h₁, h₂⟩ := hmem
    generalize it.level = l at *
    interval_cases l
    · rw [pow_zero] at h₂
      omega
    · rw [pow_one] at h₂ hmod
      omega
  have hbound : phys / 4096 + (pageUp hi - pageDown lo) ≤ 2 ^ 36 := by
    have hb := h.bound
    have hl := h.lt
    unfold pageDown pageUp linear pageSize
    rcases h.half with hhalf | ⟨h₁, h₂⟩
    · omega
    · omega
  have hround : pageUp hi ≤ largeUp hi / 4096 ∧ largeUp hi / 4096 % 512 = 0 := by
    unfold pageUp largeUp pageSize
    omega
  have hcursor : phys = 4096 * (phys / 4096) := by omega
  rw [hcursor]
  refine (ensures_mapLargeLoop hround.1 hround.2 hend (fun v h₁ h₂ => h.test_iff h₁ h₂) _ it s₁ _ hg.tree hat
    hfirst.ge ?_ ?_ ?_ ?_).mono ?_
  · rw [hfirst]
    intro p h₁ h₂
    obtain ⟨v, hv₁, hv₂, rfl⟩ := h.exists_addr h₁ h₂
    exact ⟨hdown _ h₁ h₂, hg.opened (pageDown_lt v) (hopen v hv₁ hv₂)⟩
  · rw [hfirst]
    intro v h₁ h₂
    rw [hg.translate]
    exact h.vacant v (h.linear_le_of_page h₁) (linear_lt_of_page h₂)
  · rw [hfirst]
    exact fun _ => hbound
  · omega
  · rw [hfirst, ← hcursor]
    rintro - s' ⟨hin, hout⟩
    refine ⟨fun v h₁ h₂ => ?_, fun v hv => ?_⟩
    · obtain ⟨hp₁, hp₂, heq⟩ := h.page_of_mem h₁ h₂
      exact ⟨_, hin v hp₁ hp₂, heq⟩
    · rw [hout v (h.page_of_not_mem hv), hg.translate]

/-- **`map_range_large`**, where the tables that are there let pages be written: once the range is populated
no assertion fails, and when it returns 0 the range is mapped and nothing else is. -/
theorem LargeRange.linearlyMapped (h : LargeRange s pml4 lo hi phys) (htree : Tree s pml4)
    (hopen : ∀ v, lo ≤ v → v < hi → Open s.table pml4 (pageDown v)) :
    Yields (mapRangeLarge pml4 lo hi phys linearFlags) s (fun rc s' =>
      rc = 0 → LinearlyMapped s s' pml4 lo hi phys) ∧
    ∀ rc s₁, ptPopulateRange pml4 lo hi { linearFlags with large := true } s = Except.ok (rc, s₁) →
      Ensures (mapRangeLarge pml4 lo hi phys linearFlags) s fun rc' _ => rc' = rc := by
  have hlt := h.linear_lt
  have hvacant : Vacant s.table pml4 (pageDown lo) (pageUp hi) := fun v h₁ h₂ =>
    h.vacant v (h.linear_le_of_page h₁) (linear_lt_of_page h₂)
  have hpop : Yields (ptPopulateRange pml4 lo hi { linearFlags with large := true }) s _ :=
    htree.yields_ptPopulateRange rfl rfl hvacant
  have hrun : ∀ rc s₁, ptPopulateRange pml4 lo hi { linearFlags with large := true } s = Except.ok (rc, s₁) →
      Ensures (mapRangeLarge pml4 lo hi phys linearFlags) s fun rc' s' => rc' = rc ∧
        (rc = 0 → LinearlyMapped s s' pml4 lo hi phys) := by
    intro rc s₁ hrun
    unfold mapRangeLarge
    rw [ensures_bind]
    refine ⟨rc, s₁, hrun, ?_⟩
    dsimp only
    split_ifs with hrc
    · exact ensures_pure.2 ⟨rfl, fun hc => absurd hc hrc⟩
    · obtain ⟨hg, hdown⟩ := hpop rc s₁ hrun (not_not.1 hrc)
      rw [ensures_bind, ensures_get, ensures_bind]
      exact (h.ensures_loop hg hdown hopen).mono fun _ s' hs' =>
        ensures_pure.2 ⟨(not_not.1 hrc).symm, fun _ => hs'⟩
  refine ⟨fun rc s' hmap hrc => ?_, fun rc s₁ hpop => (hrun rc s₁ hpop).mono fun _ _ hs' => hs'.1⟩
  -- the run begins with one that populates the range
  obtain ⟨rc₁, s₁, hpop₁, -⟩ := ensures_bind.1 (⟨rc, s', hmap, trivial⟩ :
    Ensures (mapRangeLarge pml4 lo hi phys linearFlags) s fun _ _ => True)
  obtain ⟨rfl, hmapped⟩ := (hrun rc₁ s₁ hpop₁).of_run hmap
  exact hmapped hrc

/-! ### Tables that were there -/

/-- A state where page 1 is a top table with the given entries, and page 2 is an empty table. -/
def upperTables (e : ℕ → Pte) : Phys where
  u := fun _ => 0#64
  table := fun t i => if t = 1 then e i else .zero
  bytes := fun _ _ => 0
  free := fun p => decide (8 ≤ p)
  supply := fun n => some (8 + n, 0#64)

/-- A top table with one entry, which leads to page 2. -/
def oneEntry (write : Bool) (i : ℕ) : Pte := if i = 0 then ⟨2, true, write, true, false, false⟩ else .zero

/-- A top table with two entries, which both lead to page 2. -/
def twoEntries (i : ℕ) : Pte := if i < 2 then ⟨2, true, true, true, false, false⟩ else .zero

theorem upperTables_two (e : ℕ → Pte) (i : ℕ) : (upperTables e).table 2 i = .zero := rfl

/-- Nothing is translated through tables that are empty. -/
theorem translate_upperTables {e : ℕ → Pte}
    (he : ∀ i, e i = .zero ∨ (e i).pfn = 2 ∧ (e i).Leads) (addr : ℕ) :
    translate (upperTables e).table 1 addr = none := by
  have htop : ∀ i, (upperTables e).table 1 i = e i := fun i => rfl
  rw [translate, ptMaxLevel, translateFrom, htop]
  rcases he (pmlIndex 3 addr) with hz | ⟨hpfn, hleads⟩
  · rw [hz, if_neg (by decide)]
  · rw [if_pos hleads.1, if_neg hleads.2, hpfn]
    exact translateFrom_zero (upperTables_two e)

theorem largeRange_upperTables {e : ℕ → Pte} (he : ∀ i, e i = .zero ∨ (e i).pfn = 2 ∧ (e i).Leads)
    (hlt : 0 < hi) (hhi : hi < 2 ^ 47) : LargeRange (upperTables e) 1 0 hi 0 where
  lt := hlt
  half := Or.inl hhi
  aligned := rfl
  phys_aligned := rfl
  bound := by omega
  vacant := fun v _ _ => translate_upperTables he v

theorem oneEntry_cases (write : Bool) (i : ℕ) :
    oneEntry write i = .zero ∨ (oneEntry write i).pfn = 2 ∧ (oneEntry write i).Leads := by
  unfold oneEntry
  split_ifs
  · exact Or.inr ⟨rfl, rfl, Bool.false_ne_true⟩
  · exact Or.inl rfl

theorem twoEntries_cases (i : ℕ) : twoEntries i = .zero ∨ (twoEntries i).pfn = 2 ∧ (twoEntries i).Leads := by
  unfold twoEntries
  split_ifs
  · exact Or.inr ⟨rfl, rfl, Bool.false_ne_true⟩
  · exact Or.inl rfl

/-- A table that cannot be written through stays so, and a table that two entries lead to is mapped for both. -/
theorem not_linearlyMapped :
    (LargeRange (upperTables (oneEntry false)) 1 0 (2 ^ 21) 0 ∧
      Ensures (mapRangeLarge 1 0 (2 ^ 21) 0 linearFlags) (upperTables (oneEntry false)) fun rc s' =>
        rc = 0 ∧ ¬LinearlyMapped (upperTables (oneEntry false)) s' 1 0 (2 ^ 21) 0) ∧
    LargeRange (upperTables twoEntries) 1 0 (2 ^ 21) 0 ∧
      Ensures (mapRangeLarge 1 0 (2 ^ 21) 0 linearFlags) (upperTables twoEntries) fun rc s' =>
        rc = 0 ∧ ¬LinearlyMapped (upperTables twoEntries) s' 1 0 (2 ^ 21) 0 := by
  have hreadOnly : returns (mapRangeLarge 1 0 (2 ^ 21) 0 linearFlags) (upperTables (oneEntry false))
      (fun rc s' => rc = 0 ∧ translate s'.table 1 0 = some (0, false)) = true := by
    decide
  have hshared : returns (mapRangeLarge 1 0 (2 ^ 21) 0 linearFlags) (upperTables twoEntries)
      (fun rc s' => rc = 0 ∧ translate s'.table 1 (2 ^ 39) = some (0, true)) = true := by
    decide
  refine ⟨⟨largeRange_upperTables (oneEntry_cases false) (by norm_num) (by norm_num), ?_⟩,
    largeRange_upperTables twoEntries_cases (by norm_num) (by norm_num), ?_⟩
  · refine (returns_iff.1 hreadOnly).mono fun rc s' hs' => ?_
    obtain ⟨hrc, htr⟩ := of_decide_eq_true hs'
    refine ⟨hrc, fun hc => ?_⟩
    obtain ⟨p, hp, -⟩ := hc.inside 0 le_rfl (by norm_num)
    rw [htr] at hp
    cases hp
  · refine (returns_iff.1 hshared).mono fun rc s' hs' => ?_
    obtain ⟨hrc, htr⟩ := of_decide_eq_true hs'
    refine ⟨hrc, fun hc => ?_⟩
    have hout := hc.outside (2 ^ 39) (Or.inr (by decide))
    rw [htr, translate_upperTables twoEntries_cases] at hout
    cases hout

/-- The tables of a top table with one entry. -/
theorem under_oneEntry (h : Under (upperTables (oneEntry true)).table 1 p k t) :
    k = 3 ∧ t = 1 ∨ k = 2 ∧ t = 2 ∧ digit p 3 = 0 := by
  induction h with
  | top => exact Or.inl ⟨rfl, rfl⟩
  | @step k t h hleads ih =>
    rcases ih with ⟨hk, rfl⟩ | ⟨-, rfl, -⟩
    · obtain rfl : k = 2 := by omega
      have htop : (upperTables (oneEntry true)).table 1 (digit p 3) = oneEntry true (digit p 3) := rfl
      rw [htop] at hleads ⊢
      unfold oneEntry at hleads ⊢
      split_ifs at hleads ⊢ with hz
      · exact Or.inr ⟨rfl, rfl, hz⟩
      · exact absurd hleads (by decide)
    · exact absurd hleads (by rw [upperTables_two]; decide)

theorem tree_oneEntry : Tree (upperTables (oneEntry true)) 1 := by
  refine ⟨?_, ?_⟩
  · intro p p' k k' t hp hp' h h'
    have hd : ∀ {p}, p < 2 ^ 36 → digit p 3 = 0 → p / 512 ^ 3 = 0 := by
      intro p hp hz
      unfold digit at hz
      norm_num at hz ⊢
      omega
    have htop : ∀ {p}, p < 2 ^ 36 → p / 512 ^ (3 + 1) = 0 := by
      intro p hp
      norm_num
      omega
    rcases under_oneEntry h with ⟨rfl, rfl⟩ | ⟨rfl, rfl, hz⟩
    · rcases under_oneEntry h' with ⟨rfl, -⟩ | ⟨-, hc, -⟩
      · exact ⟨rfl, (htop hp).trans (htop hp').symm⟩
      · exact absurd hc (by decide)
    · rcases under_oneEntry h' with ⟨-, hc⟩ | ⟨rfl, -, hz'⟩
      · exact absurd hc (by decide)
      · exact ⟨rfl, (hd hp hz).trans (hd hp' hz').symm⟩
  · intro p k t _ h
    rcases under_oneEntry h with ⟨-, rfl⟩ | ⟨-, rfl, -⟩
    · rfl
    · rfl

theorem open_oneEntry (p : ℕ) : Open (upperTables (oneEntry true)).table 1 p := by
  intro k t h hleads
  rcases under_oneEntry h with ⟨hk, rfl⟩ | ⟨-, rfl, -⟩
  · have htop : (upperTables (oneEntry true)).table 1 (digit p (k + 1)) = oneEntry true (digit p (k + 1)) := rfl
    rw [htop] at hleads ⊢
    unfold oneEntry at hleads ⊢
    split_ifs at hleads ⊢
    · rfl
    · exact absurd hleads (by decide)
  · exact absurd hleads (by rw [upperTables_two]; decide)

/-- A range of one large page and a little more. -/
theorem mapRangeLarge_oneEntry :
    Ensures (mapRangeLarge 1 0 (2 ^ 21 + 4097) 0 linearFlags) (upperTables (oneEntry true)) fun rc s' =>
      rc = 0 ∧ LinearlyMapped (upperTables (oneEntry true)) s' 1 0 (2 ^ 21 + 4097) 0 := by
  have hrun : returns (mapRangeLarge 1 0 (2 ^ 21 + 4097) 0 linearFlags) (upperTables (oneEntry true))
      (fun rc _ => rc = 0) = true := by
    decide
  have hmaps := LargeRange.linearlyMapped
    (largeRange_upperTables (oneEntry_cases true) (show 0 < 2 ^ 21 + 4097 by norm_num) (by norm_num))
    tree_oneEntry fun v _ _ => open_oneEntry (pageDown v)
  refine ((returns_iff.1 hrun).and_yields hmaps.1).mono fun rc s' hs' => ?_
  have hrc := of_decide_eq_true hs'.1
  exact ⟨hrc, hs'.2 hrc⟩

end

end Paging

end Kernel64
