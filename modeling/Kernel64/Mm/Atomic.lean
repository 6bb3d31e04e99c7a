import Kernel64.Mm.AreaRuns
import Kernel64.Mm.Calls
import Kernel64.Paging.Runs

/-!
# A failed `__mmap` changes nothing

`__mmap` populates the tables of its range, and gives them back when there is no memory for one of
them or for the area. Each of the three levels undoes what it has counted so far, and `__mmap`
itself releases the whole range. Whatever the allocators return, an error leaves the areas, the busy
pages, their counters and the free pages as they were.
-/

namespace Kernel64

namespace Paging

section

variable {s s' : Phys} {root : Pfn} {E : ℕ → ℕ → Pte} {C : Counts}

/-- The busy pages are as they were, and no others are busy. -/
structure Untouched (s s' : Phys) : Prop where
  free : s'.free = s.free
  table : ∀ p, s.free p = false → ∀ i < ptSize, s'.table p i = s.table p i
  u : ∀ p, s.free p = false → s'.u p = s.u p

theorem Untouched.refl (s : Phys) : Untouched s s := ⟨rfl, fun _ _ _ _ => rfl, fun _ _ => rfl⟩

/-- An entry of an upper table is fixed by the tables that are linked. -/
theorem Restored.table_upper {k g i : ℕ} (h : Restored root E s C s') (hok : PtOk s root E C)
    (hl : Live C (k + 1) g) (hi : i < ptSize) :
    s'.table (tab root E (k + 1) g) i = s.table (tab root E (k + 1) g) i := by
  unfold ptSize at hi
  have hdiv : (g * 512 + i) / 512 = g := by omega
  have hmod : (g * 512 + i) % 512 = i := by omega
  have hentry : k < 3 → g * 512 + i < 256 * 512 ^ (2 - k) →
      s'.table (tab root E (k + 1) g) i = s.table (tab root E (k + 1) g) i := by
    intro hk hg
    have h₁ := h.ok.entry k (g * 512 + i) hk hg (by rwa [hdiv])
    have h₂ := hok.entry k (g * 512 + i) hk hg (by rwa [hdiv])
    rw [hdiv, hmod] at h₁ h₂
    rw [h₁, h₂]
  rcases hl with ⟨hk, rfl⟩ | ⟨hk, hl⟩
  · obtain rfl : k = 2 := by omega
    by_cases hlow : i < 256
    · exact hentry (by omega) (by omega)
    · exact h.upper i (by omega)
  · have hg := hok.group_lt hk hl
    refine hentry (by omega) ?_
    have hpow : 512 ^ (2 - k) = 512 * 512 ^ (2 - (k + 1)) := by
      rw [← pow_succ']
      congr 1
      omega
    rw [hpow]
    omega

/-- Tables that are linked and counted as before hold what they held. -/
theorem Restored.untouched (h : Restored root E s C s') (hok : PtOk s root E C) :
    Untouched s s' := by
  refine ⟨funext h.free, fun p hp i hi => ?_, fun p hp => ?_⟩
  · by_cases hoff : OffTables root E C p
    · rw [(h.off p hp hoff).1]
    · unfold OffTables at hoff
      push Not at hoff
      obtain ⟨k, g, hl, rfl⟩ := hoff
      cases k with
      | zero =>
        have hleaf := (live_iff_of_lt (by omega)).1 hl
        rw [tab_of_lt (by omega), h.leaf g hleaf]
      | succ k =>
        exact h.table_upper hok hl hi
  · by_cases hoff : OffTables root E C p
    · exact (h.off p hp hoff).2.1
    · unfold OffTables at hoff
      push Not at hoff
      obtain ⟨k, g, hl, rfl⟩ := hoff
      rcases hl with ⟨rfl, rfl⟩ | ⟨hk, hl⟩
      · exact h.top
      · rw [tab_of_lt hk, h.ok.count k g hk hl, hok.count k g hk hl]

end

end Paging

namespace Mm

open Paging Rb ColorTree

section

variable {w w' : World} {T : ℕ → ColorTree Ptr} {E : ℕ → ℕ → Pte} {m a b fuel perm : ℕ}

/-- The areas, the busy pages and the free pages are as they were. -/
structure AsBefore (w w' : World) : Prop where
  mm : w'.mm = w.mm
  mmUsed : w'.mmUsed = w.mmUsed
  vmaUsed : w'.vmaUsed = w.vmaUsed
  phys : Untouched w.phys w'.phys

/-- **A failed `__mmap`** leaves everything as it was. -/
theorem mmap_atomic (hareas : AreasOk Aligned w T) (hm : w.mmUsed m = true)
    (htables : PtOk w.phys (w.mm m).pt E (counts (pagesOf (w.mm m) (T m)))) (hab : a < b)
    (hb : b ≤ userPages) (hfuel : taskSize < fuel) :
    Ensures (mmap fuel m (4096 * a) (4096 * b) perm) w fun rc w' => rc ≠ 0 → AsBefore w w' := by
  set D := pagesOf (w.mm m) (T m) with hD
  simp only [mmap, alignDown_page, alignUp_page hb, ensures_bind]
  refine (hareas.ensures_lookupVma hm hfuel).mono ?_
  rintro r w₀ ⟨rfl, ⟨p, -, rfl, -⟩ | ⟨path, hpath, rfl, hbefore, hafter⟩⟩
  · exact ensures_pure.2 fun _ => ⟨rfl, rfl, rfl, Untouched.refl _⟩
  have hnew : ∀ q, a ≤ q → q < b → q ∉ D := by
    intro q h₁ h₂ hq
    rw [hD, (hareas.cleared_of_missing hpath hbefore hafter).pages] at hq
    exact hq.2 ⟨h₁, h₂⟩
  simp only [ensures_bind, ensures_get, ensures_onPhys]
  refine (ensures_ptPopulateRange_counts htables hab hb hnew).mono ?_
  rintro rc s₁ (⟨rfl, E₁, hgrow⟩ | ⟨rfl, hrest⟩)
  swap
  · simp only [ne_eq, ENOMEM_ne_zero, not_false_eq_true, if_true, ensures_pure]
    exact fun _ => ⟨rfl, rfl, rfl, hrest.untouched htables⟩
  simp only [ne_eq, not_true_eq_false, if_false, ensures_bind]
  refine ensures_allocVma.mono ?_
  rintro r w₁ (⟨p, rfl, haddr, hfree, rfl⟩ | ⟨rfl, -, rfl⟩)
  · have hareas₁ : AreasOk Aligned ((w₀.withPhys s₁).asked 1) T := hareas.of_eq rfl rfl rfl
    have hlink := hareas₁.ensures_linkArea (v := ⟨4096 * a, 4096 * b, perm, m⟩) hm hpath haddr hfree
      ⟨aligned_page a, aligned_page b, by simp only; omega, page_le_taskSize.2 hb, rfl⟩
      hbefore hafter hfuel
    simp only [ensures_bind] at hlink ⊢
    exact hlink.mono fun _ w₂ hw₂ => hw₂.mono fun _ _ _ => ensures_pure.2 fun hc => absurd rfl hc
  · -- there is no memory for the area, and the range is released
    simp only [ensures_bind, ensures_onPhys, ensures_pure]
    refine (ensures_ptReleaseRange_counts hgrow.ok hab hb fun q h₁ h₂ => Or.inr ⟨h₁, h₂⟩).mono ?_
    intro _ s₂ hshrink _
    have hback : (D ∪ Set.Ico a b) \ Set.Ico a b = D := by
      rw [Set.union_sdiff_right]
      exact sdiff_eq_left.2 (Set.disjoint_left.2 fun q hq hc => hnew q hc.1 hc.2 hq)
    rw [hback] at hshrink
    exact ⟨rfl, rfl, rfl, (hgrow.shrink_back htables hshrink).untouched htables⟩

/-- An address space without areas asks for no tables. -/
theorem ptOk_noAreas {s : Phys} {root : Pfn} (hzero : ∀ i < 256, s.table root i = .zero)
    (hbusy : s.free root = false) (sp : Space) : PtOk s root E (counts (pagesOf sp .nil)) := by
  have hcounts : counts (pagesOf sp .nil) = flat fun _ => 0 := by
    funext k q
    have hq : q ∉ pagesOf sp .nil := fun ⟨_, hp, _⟩ => List.not_mem_nil hp
    rw [counts_of_notMem hq]
    simp [flat]
  rw [hcounts]
  exact (accounted_start hzero hbusy).ok

/-- A state in which there is memory for tables, but not for an area. -/
def noVmaMemory : World := { oneSpace with vmaSupply := fun _ => none }

theorem mmap_atomic_noVmaMemory :
    ∃ w', mmap (taskSize + 1) 0 0 4096 0 noVmaMemory = .ok (-ENOMEM, w') ∧
      AsBefore noVmaMemory w' := by
  have hfails : returns (mmap (taskSize + 1) 0 0 4096 0) noVmaMemory
      (fun rc _ => decide (rc = -ENOMEM)) = true := by decide +kernel
  obtain ⟨rc, w', hrun, hrc⟩ := returns_iff.1 hfails
  obtain rfl := of_decide_eq_true hrc
  have hareas : AreasOk Aligned noVmaMemory fun _ => .nil := NoAreas.areasOk fun _ _ => rfl
  have hatomic : Ensures (mmap (taskSize + 1) 0 (4096 * 0) (4096 * 1) 0) noVmaMemory _ :=
    mmap_atomic (E := fun _ _ => .zero) hareas rfl (ptOk_noAreas (fun _ _ => rfl) rfl _) (by omega)
      (by decide) (by omega)
  obtain ⟨rc, w₁, hrun₁, hbefore⟩ := hatomic
  rw [hrun] at hrun₁
  obtain ⟨rfl, rfl⟩ := Prod.mk.inj (Except.ok.inj hrun₁)
  exact ⟨w', hrun, hbefore (by decide)⟩

end

end Mm

end Kernel64
