import Kernel64.Mm.AreaRuns
import Kernel64.Mm.Faults
import Kernel64.Paging.Demand

/-!
# `__mmap` with enough memory

`__mmap` of a range that meets no area takes a page for each table that is missing and one area. When the allocators
have them, it succeeds.
-/

namespace Kernel64

namespace Mm

open Paging Rb ColorTree

/-- The calls of `kmem_cache_alloc(vma_cachep)` that are still to come. -/
def World.vmas (w : World) : Supply Ptr where
  ready := fun p => decide (p ≠ 0#64 ∧ p &&& 1#64 = 0#64 ∧ w.vmaUsed p = false)
  next := w.vmaSupply

section

variable {w w' : World} {T : ℕ → ColorTree Ptr} {E : ℕ → ℕ → ℕ → Pte} {s : Phys} {root : Pfn} {D : Set ℕ}
  {m a b fuel perm : ℕ}

/-- Populating pages that were not asked for before. -/
theorem ensures_ptPopulateRange_granted {E : ℕ → ℕ → Pte} (hok : PtOk s root E (counts D)) (hab : a < b)
    (hb : b ≤ userPages) (hnew : ∀ q, a ≤ q → q < b → q ∉ D) (hg : s.pages.Grants (newTables (counts D) 3 a b)) :
    Ensures (ptPopulateRange root (4096 * a) (4096 * b) ptePtFlags) s fun rc s' =>
      rc = 0 ∧ s'.pages = s.pages.after (newTables (counts D) 3 a b) := by
  have hfits : Fits (counts D) 3 a b :=
    ⟨hb, fun j g hj => by rw [raiseBelow_counts hnew]; exact load_counts_lt hj, fun j p _ hk => absurd hk (by omega)⟩
  have hpml4 : Demands root 3 (ptPopulatePml4 ptePtFlags) := demands_pml4 rfl
  have htop : tab root E 3 0 = root := rfl
  rw [ptPopulateRange, dbgAssert, linear_page (by omega), linear_page hb, if_pos (by omega), ensures_bind,
    ensures_pure, pageDown_page (by omega), pageUp_page hb]
  exact htop ▸ hpml4 s _ E 0 a b hok (Or.inl ⟨rfl, rfl⟩) (within_root hab.le hb) hfits hg

/-- The allocator returns a page when the next call is granted. -/
theorem ensures_allocPages_granted (hg : s.pages.Grants 1) :
    Ensures allocPages s fun r s' => ∃ p word, r = some p ∧ s.free p = true ∧ s' = taken s p word ∧
      s'.pages = s.pages.after 1 := by
  obtain ⟨p, word, hsupply, hfree, hafter⟩ := supply_of_grants hg
  rw [allocPages]
  simp only [ensures_bind, ensures_get, ensures_set, hsupply, hfree, if_true, setU, ensures_modify, ensures_pure]
  exact ⟨p, word, rfl, hfree, rfl, hafter.symm⟩

/-- The allocator returns an area when the next call is granted. -/
theorem ensures_allocVma_granted (hg : w.vmas.Grants 1) :
    Ensures allocVma w fun r w' => r ≠ none ∧ w'.phys = w.phys ∧ w'.vmas = w.vmas.after 1 := by
  obtain ⟨p, hnext, hready⟩ := Supply.grants_one.1 hg
  have hfree := of_decide_eq_true hready
  have hsupply : w.vmaSupply 0 = some p := hnext
  rw [allocVma]
  simp only [ensures_bind, ensures_get, ensures_set, hsupply]
  rw [if_pos hfree]
  simp only [ensures_bind, ensures_modify, ensures_pure]
  refine ⟨Option.some_ne_none p, trivial, ?_⟩
  rw [Supply.after_one hnext, World.vmas, Supply.take]
  congr 1
  funext q
  by_cases hq : q = p
  · subst hq
    simp
  · simp [World.vmas, hq]

theorem yields_onPhys {α : Type} {c : PhysM α} {Q : α → World → Prop}
    (h : Yields c w.phys fun a s => Q a (w.withPhys s)) : Yields (onPhys c) w Q := by
  intro a w' hrun
  unfold onPhys at hrun
  cases hc : c w.phys with
  | error e =>
    rw [hc] at hrun
    exact nomatch hrun
  | ok r =>
    obtain ⟨b, s⟩ := r
    rw [hc] at hrun
    injection hrun with hrun
    obtain ⟨rfl, rfl⟩ := Prod.mk.inj hrun
    exact h b s hc

theorem yields_onVmas {α : Type} {c : RbM α} :
    Yields (onVmas m c) w fun _ w' => w'.phys = w.phys ∧ w'.vmas = w.vmas := by
  intro r w' hrun
  rw [onVmas] at hrun
  cases hc : c (w.mm m).vma with
  | error e =>
    rw [hc] at hrun
    exact nomatch hrun
  | ok r =>
    rw [hc, Except.ok.injEq, Prod.mk.injEq] at hrun
    exact hrun.2 ▸ ⟨rfl, rfl⟩

/-- **`__mmap`** takes the pages for its tables and one area. -/
theorem WorldOk.yields_mmap_granted (h : WorldOk w T E) (hm : w.mmUsed m = true) (hab : a < b) (hb : b ≤ userPages)
    (hfuel : taskSize < fuel) (hclear : ∀ q, a ≤ q → q < b → q ∉ pagesOf (w.mm m) (T m))
    (hpages : w.phys.pages.Grants (newTables (counts (pagesOf (w.mm m) (T m))) 3 a b)) (hvmas : w.vmas.Grants 1) :
    Yields (mmap fuel m (4096 * a) (4096 * b) perm) w fun rc w' => rc = 0 ∧
      w'.phys.pages = w.phys.pages.after (newTables (counts (pagesOf (w.mm m) (T m))) 3 a b) ∧
      w'.vmas = w.vmas.after 1 := by
  simp only [mmap, alignDown_page, alignUp_page hb]
  refine Yields.bind ((h.areas.ensures_lookupVma hm hfuel).yields.mono ?_)
  rintro r w₀ ⟨rfl, ⟨p, hp, rfl, h₁, h₂⟩ | ⟨path, -, rfl, -, -⟩⟩
  · -- an area that meets the range has a page of it
    obtain ⟨⟨c, hc⟩, ⟨d, hd⟩, hlt, -⟩ := (h.areas.space m hm).area p hp
    exact absurd ⟨p, hp, by omega, by omega⟩ (hclear (max a c) (le_max_left _ _) (by omega))
  refine Yields.bind (ensures_get.2 ?_).yields
  refine Yields.bind (yields_onPhys ((ensures_ptPopulateRange_granted (h.pages.tables m hm) hab hb hclear
    hpages).yields.mono ?_))
  rintro _ s₁ ⟨rfl, hpages₁⟩
  rw [if_neg (not_not.2 rfl)]
  refine Yields.bind ((ensures_allocVma_granted (w := w₀.withPhys s₁) hvmas).yields.mono ?_)
  rintro (_ | p) w₁ ⟨hp, hphys₁, hvmas₁⟩
  · exact absurd rfl hp
  · refine Yields.bind (ensures_setArea.2 ?_).yields
    refine Yields.bind (yields_onVmas.mono ?_)
    rintro - w₂ ⟨hphys₂, hvmas₂⟩
    refine yields_pure ⟨rfl, ?_, hvmas₂.trans hvmas₁⟩
    rw [hphys₂]
    exact (congrArg Phys.pages hphys₁).trans hpages₁

end

end Mm

end Kernel64
