import Kernel64.Mm.Mapping

/-!
# Asking for ranges of pages

Populating and releasing a range changes the tables of one address space. `Retabled` is what both
have in common, whether they succeed or not, and it keeps all mappings (`Forest.Ok.keeps`): the
pages that are asked for first are not mapped, and those given back must not be.
-/

namespace Kernel64

namespace Mm

open Paging

section Tables

variable {s s' : Phys} {root : Pfn} {E E' : ℕ → ℕ → Pte} {C C' : Counts}

/-- The tables of an address space have changed: those it keeps are where they were, the others are
made of free pages, and what was busy otherwise is as it was. -/
structure Retabled (root : Pfn) (E : ℕ → ℕ → Pte) (s : Phys) (C : Counts) (E' : ℕ → ℕ → Pte)
    (s' : Phys) (C' : Counts) : Prop where
  ok : PtOk s' root E' C'
  off : ∀ p, s.free p = false → OffTables root E C p → OffTables root E' C' p ∧
    s'.table p = s.table p ∧ s'.u p = s.u p ∧ s'.bytes p = s.bytes p ∧ s'.free p = false
  table : ∀ k g, Live C' k g →
    (Live C k g ∧ tab root E' k g = tab root E k g) ∨ s.free (tab root E' k g) = true
  leaf : ∀ g, Live C' 0 g →
    (Live C 0 g ∧ tab root E' 0 g = tab root E 0 g ∧
      s'.table (tab root E 0 g) = s.table (tab root E 0 g)) ∨
    (¬Live C 0 g ∧ ∀ i, s'.table (tab root E' 0 g) i = .zero)
  freed : ∀ p, s'.free p = true → s.free p = true ∨ ∃ k g, Live C k g ∧ tab root E k g = p
  upper : ∀ i, 256 ≤ i → s'.table root i = s.table root i

theorem retabled_of_grow (h : Grow root E s C E' s' C') : Retabled root E s C E' s' C' := by
  refine
    { ok := h.ok
      off := fun p hf hp => ⟨h.off_tables hf hp, h.off p hf hp⟩
      table := fun k g hl => ?_
      leaf := fun g hl => ?_
      freed := fun p hf => Or.inl (h.freed p hf)
      upper := h.upper }
  · by_cases hold : Live C k g
    · exact Or.inl ⟨hold, h.tab_eq hold⟩
    · exact Or.inr (h.new k g hl hold)
  · by_cases hold : Live C 0 g
    · refine Or.inl ⟨hold, h.tab_eq hold, ?_⟩
      rw [tab_of_lt (by omega)]
      exact h.leaf g ((live_iff_of_lt (by omega)).1 hold)
    · refine Or.inr ⟨hold, fun i => ?_⟩
      rw [tab_of_lt (by omega)]
      rw [live_iff_of_lt (by omega)] at hold hl
      exact h.fresh g hold hl i

theorem retabled_of_restored (h : Restored root E s C s') : Retabled root E s C E s' C := by
  refine
    { ok := h.ok
      off := fun p hf hp => ⟨hp, h.off p hf hp⟩
      table := fun k g hl => Or.inl ⟨hl, rfl⟩
      leaf := fun g hl => Or.inl ⟨hl, rfl, ?_⟩
      freed := fun p hf => Or.inl ((h.free p).symm.trans hf)
      upper := h.upper }
  rw [tab_of_lt (by omega)]
  exact h.leaf g ((live_iff_of_lt (by omega)).1 hl)

theorem retabled_of_shrink (h : Shrink root E s C s' C') : Retabled root E s C E s' C' := by
  refine
    { ok := h.ok
      off := fun p hf hp => ?_
      table := fun k g hl => Or.inl ⟨hl.mono h.le, rfl⟩
      leaf := fun g hl => Or.inl ⟨hl.mono h.le, rfl, ?_⟩
      freed := fun p hf => ?_
      upper := h.upper }
  · obtain ⟨h₁, h₂, h₃⟩ := h.off p hp
    exact ⟨fun k g hl => hp k g (hl.mono h.le), h₁, h₂, congrFun h.bytes p, h₃.trans hf⟩
  · rw [tab_of_lt (by omega)]
    exact h.leaf g ((live_iff_of_lt (by omega)).1 hl)
  · by_cases hp : OffTables root E C p
    · exact Or.inl ((h.off p hp).2.2.symm.trans hf)
    · unfold OffTables at hp
      push Not at hp
      exact Or.inr hp

end Tables

/-! ### One address space among the others -/

/-- The forest after an address space has got other tables, for other pages. -/
def Forest.withDom (F : Forest) (m : ℕ) (D : Set ℕ) (E : ℕ → ℕ → Pte) : Forest :=
  { F with
    dom := Function.update F.dom m D
    entry := Function.update F.entry m E }

/-- The mappings are kept, and so is what they map. -/
structure Forest.Keeps (F : Forest) (s : Phys) (F' : Forest) (s' : Phys) : Prop where
  ok : F'.Ok s'
  zero : F'.zero = F.zero
  frame : F'.frame s' = F.frame s
  pte : ∀ m ∈ F.live, ∀ q ∈ F.dom m, q ∈ F'.dom m → F'.pte s' m q = F.pte s m q
  kept : ∀ p, s.free p = false → ¬F.IsTable p → ¬F'.IsTable p ∧ s'.free p = false ∧
    s'.table p = s.table p ∧ s'.u p = s.u p ∧ s'.bytes p = s.bytes p
  freed : ∀ p, s'.free p = true → s.free p = true ∨ F.IsTable p
  upper : ∀ m ∈ F.live, ∀ i, 256 ≤ i → s'.table (F.root m) i = s.table (F.root m) i

section

variable {F F' : Forest} {s s' : Phys} {m q k g : ℕ} {x : Pfn → ℕ} {D : Set ℕ} {E : ℕ → ℕ → Pte}

namespace Forest

theorem withDom_dom_self : (F.withDom m D E).dom m = D := Function.update_self _ _ _

theorem withDom_entry_self : (F.withDom m D E).entry m = E := Function.update_self _ _ _

theorem withDom_dom_of_ne {m' : ℕ} (h : m' ≠ m) : (F.withDom m D E).dom m' = F.dom m' :=
  Function.update_of_ne h _ _

theorem withDom_entry_of_ne {m' : ℕ} (h : m' ≠ m) : (F.withDom m D E).entry m' = F.entry m' :=
  Function.update_of_ne h _ _

theorem withDom_liveAt_self : (F.withDom m D E).LiveAt m k g ↔ Live (counts D) k g := by
  rw [LiveAt, withDom_dom_self]

theorem withDom_liveAt_of_ne {m' : ℕ} (h : m' ≠ m) :
    (F.withDom m D E).LiveAt m' k g ↔ F.LiveAt m' k g := by
  rw [LiveAt, withDom_dom_of_ne h, LiveAt]

theorem withDom_tabAt_self : (F.withDom m D E).tabAt m k g = tab (F.root m) E k g := by
  rw [tabAt, withDom_entry_self]
  rfl

theorem withDom_tabAt_of_ne {m' : ℕ} (h : m' ≠ m) :
    (F.withDom m D E).tabAt m' k g = F.tabAt m' k g := by
  rw [tabAt, withDom_entry_of_ne h]
  rfl

theorem withDom_same : F.withDom m (F.dom m) (F.entry m) = F := by
  rw [withDom, Function.update_eq_self, Function.update_eq_self]

theorem Keeps.held (h : F.Keeps s F' s') (p : Pfn) : F'.Held s' p ↔ F.Held s p := by
  rw [Held, Held, h.frame, h.zero]

/-- The counters of what is mapped are kept. -/
theorem Keeps.counted (h : F.Keeps s F' s') (hok : F.Ok s) (hc : F.Counted s x) :
    F'.Counted s' x := by
  intro p hp
  rw [h.held] at hp
  obtain ⟨hne, hbusy, -⟩ := hok.mappable_of_held hp
  obtain ⟨-, -, -, hu, -⟩ := h.kept p hbusy hne
  rw [hu, hc p hp, total, total, h.frame, h.zero]

end Forest

/-- A table of another address space is off the tables of this one. -/
theorem Forest.Ok.off_of_ne (h : F.Ok s) (hm : m ∈ F.live) {m' : ℕ} (hm' : m' ∈ F.live)
    (hne : m' ≠ m) (hl : F.LiveAt m' k g) :
    s.free (F.tabAt m' k g) = false ∧
      OffTables (F.root m) (F.entry m) (counts (F.dom m)) (F.tabAt m' k g) :=
  ⟨(h.tables m' hm').busy k g hl, fun _ _ hl' heq => hne (h.apart m' hm' m hm _ _ _ _ hl hl' heq.symm)⟩

theorem Forest.Ok.off_of_not_isTable (hm : m ∈ F.live) {p : Pfn} (hp : ¬F.IsTable p) :
    OffTables (F.root m) (F.entry m) (counts (F.dom m)) p :=
  fun k g hl heq => hp ⟨m, hm, k, g, hl, heq⟩

/-- **New tables** for one address space keep all mappings. -/
theorem Forest.Ok.keeps (h : F.Ok s) (hm : m ∈ F.live)
    (hr : Retabled (F.root m) (F.entry m) s (counts (F.dom m)) E s' (counts D))
    (hgone : ∀ q ∈ F.dom m, q ∉ D → (F.pte s m q).present = false) :
    F.Keeps s (F.withDom m D E) s' := by
  set F' := F.withDom m D E with hF'
  have hother : ∀ m' ∈ F.live, m' ≠ m → ∀ k g, F.LiveAt m' k g →
      s'.table (F.tabAt m' k g) = s.table (F.tabAt m' k g) ∧
      s'.u (F.tabAt m' k g) = s.u (F.tabAt m' k g) ∧ s'.free (F.tabAt m' k g) = false := by
    intro m' hm' hne k g hl
    obtain ⟨hbusy, hoff⟩ := h.off_of_ne hm hm' hne hl
    obtain ⟨-, h₁, h₂, -, h₃⟩ := hr.off _ hbusy hoff
    exact ⟨h₁, h₂, h₃⟩
  -- a table of the new forest was one of the old forest or is a page that was free
  have hnew : ∀ p, F'.IsTable p → F.IsTable p ∨ s.free p = true := by
    rintro p ⟨m', hm', k, g, hl, rfl⟩
    by_cases hne : m' = m
    · subst hne
      rw [withDom_liveAt_self] at hl
      rw [withDom_tabAt_self]
      rcases hr.table k g hl with ⟨hold, heq⟩ | hfree
      · exact Or.inl ⟨m', hm', k, g, hold, heq.symm⟩
      · exact Or.inr hfree
    · rw [withDom_liveAt_of_ne hne] at hl
      rw [withDom_tabAt_of_ne hne]
      exact Or.inl ⟨m', hm', k, g, hl, rfl⟩
  have hkept : ∀ p, s.free p = false → ¬F.IsTable p → ¬F'.IsTable p ∧ s'.free p = false ∧
      s'.table p = s.table p ∧ s'.u p = s.u p ∧ s'.bytes p = s.bytes p := by
    intro p hf hp
    obtain ⟨-, h₁, h₂, h₃, h₄⟩ := hr.off p hf (off_of_not_isTable hm hp)
    refine ⟨fun ht => ?_, h₄, h₁, h₂, h₃⟩
    rcases hnew p ht with hold | hfree
    · exact hp hold
    · rw [hf] at hfree
      exact Bool.false_ne_true hfree
  have hmappable : ∀ p, F.Mappable s p → F'.Mappable s' p := fun p hp =>
    ⟨(hkept p hp.2.1 hp.1).1, (hkept p hp.2.1 hp.1).2.1, hp.2.2⟩
  have hpte_ne : ∀ m' ∈ F.live, m' ≠ m → ∀ q, F.LiveAt m' 0 (q / 512) →
      F'.pte s' m' q = F.pte s m' q := by
    intro m' hm' hne q hl
    rw [pte, withDom_tabAt_of_ne hne, (hother m' hm' hne 0 _ hl).1]
    rfl
  -- an entry of this address space is the old one, or empty
  have hpte_self : ∀ q, Live (counts D) 0 (q / 512) →
      (F.LiveAt m 0 (q / 512) ∧ F'.pte s' m q = F.pte s m q) ∨
        (¬F.LiveAt m 0 (q / 512) ∧ (F'.pte s' m q).present = false) := by
    intro q hl
    have hpte : F'.pte s' m q = s'.table (tab (F.root m) E 0 (q / 512)) (q % 512) := by
      rw [pte, withDom_tabAt_self]
    rcases hr.leaf _ hl with ⟨hold, htab, heq⟩ | ⟨hold, hzero⟩
    · left
      rw [hpte, htab, heq]
      exact ⟨hold, rfl⟩
    · right
      rw [hpte, hzero]
      exact ⟨hold, rfl⟩
  have hframe : F'.frame s' = F.frame s := by
    funext x
    obtain ⟨m', q⟩ := x
    by_cases hm' : m' ∈ F.live
    · by_cases hne : m' = m
      · subst hne
        by_cases hD : q ∈ D
        · have hD' : q ∈ F'.dom m' := by rwa [withDom_dom_self]
          rcases hpte_self q ((live_iff_of_lt (by omega)).2 (leaf_pos_of_mem hD)) with
            ⟨hold, heq⟩ | ⟨hold, habs⟩
          · by_cases hq : q ∈ F.dom m'
            · rw [frame_eq (F := F') hm' hD', frame_eq hm' hq, heq]
            · have habs := h.clear m' hm' q hold hq
              rw [frame_eq_none fun _ _ => habs, frame_eq_none fun _ _ => heq ▸ habs]
          · rw [frame_eq_none fun _ _ => habs,
              frame_eq_none fun _ hq => absurd (liveAt_of_mem hq) hold]
        · have hD' : q ∉ F'.dom m' := by rwa [withDom_dom_self]
          rw [frame_eq_none fun _ hq => absurd hq hD', frame_eq_none fun _ hq => hgone q hq hD]
      · have hdom : F'.dom m' = F.dom m' := withDom_dom_of_ne hne
        by_cases hq : q ∈ F.dom m'
        · rw [frame_eq (F := F') hm' (hdom ▸ hq), frame_eq hm' hq,
            hpte_ne m' hm' hne q (liveAt_of_mem hq)]
        · rw [frame_eq_none fun _ hc => absurd (hdom ▸ hc) hq,
            frame_eq_none fun _ hc => absurd hc hq]
    · rw [frame_eq_none (F := F') fun hc => absurd hc hm', frame_eq_none fun hc => absurd hc hm']
  -- a table of this address space is not one of another
  have hcross : ∀ m' ∈ F.live, m' ≠ m → ∀ k g k' g', Live (counts D) k g → F.LiveAt m' k' g' →
      tab (F.root m) E k g ≠ F.tabAt m' k' g' := by
    intro m' hm' hne k g k' g' hl hl' heq
    rcases hr.table k g hl with ⟨hold, htab⟩ | hfree
    · exact hne (h.apart m' hm' m hm k' g' k g hl' hold (heq.symm.trans htab))
    · rw [heq, (h.off_of_ne hm hm' hne hl').1] at hfree
      exact Bool.false_ne_true hfree
  refine
    { ok :=
        { tables := fun m' hm' => ?_
          apart := fun m₁ hm₁ m₂ hm₂ k g k' g' hl₁ hl₂ heq => ?_
          low := fun p hp => (hnew p hp).elim (h.low p) (h.freeLow p)
          freeLow := fun p hp => ?_
          clear := fun m' hm' q hl hq => ?_
          busy := fun i f hi => hmappable f (h.busy i f (hframe ▸ hi))
          zero := hmappable _ h.zero }
      zero := rfl
      frame := hframe
      pte := fun m' hm' q hq hq' => ?_
      kept := hkept
      freed := fun p hp => (hr.freed p hp).imp_right fun hg => ⟨m, hm, hg⟩
      upper := fun m' hm' i hi => ?_ }
  · by_cases hne : m' = m
    · subst hne
      rw [withDom_dom_self, withDom_entry_self]
      exact hr.ok
    · rw [withDom_dom_of_ne hne, withDom_entry_of_ne hne]
      refine (h.tables m' hm').congr (fun k g hk hl => (hother m' hm' hne _ _ hl).1)
        (fun k g hk hl => ?_) fun k g hl => (hother m' hm' hne _ _ hl).2.2
      have := (hother m' hm' hne k g ((live_iff_of_lt hk).2 hl)).2.1
      rwa [tabAt, tab_of_lt hk] at this
  · by_contra hne
    by_cases h₁ : m₁ = m
    · subst h₁
      rw [withDom_liveAt_self] at hl₁
      rw [withDom_liveAt_of_ne (Ne.symm hne)] at hl₂
      rw [withDom_tabAt_self, withDom_tabAt_of_ne (Ne.symm hne)] at heq
      exact hcross m₂ hm₂ (Ne.symm hne) _ _ _ _ hl₁ hl₂ heq
    · rw [withDom_liveAt_of_ne h₁] at hl₁
      rw [withDom_tabAt_of_ne h₁] at heq
      by_cases h₂ : m₂ = m
      · subst h₂
        rw [withDom_liveAt_self] at hl₂
        rw [withDom_tabAt_self] at heq
        exact hcross m₁ hm₁ h₁ _ _ _ _ hl₂ hl₁ heq.symm
      · rw [withDom_liveAt_of_ne h₂] at hl₂
        rw [withDom_tabAt_of_ne h₂] at heq
        exact hne (h.apart m₁ hm₁ m₂ hm₂ _ _ _ _ hl₁ hl₂ heq)
  · rcases hr.freed p hp with hfree | ⟨k, g, hl, heq⟩
    · exact h.freeLow p hfree
    · exact h.low p ⟨m, hm, k, g, hl, heq⟩
  · by_cases hne : m' = m
    · subst hne
      rw [withDom_liveAt_self] at hl
      rw [withDom_dom_self] at hq
      rcases hpte_self q hl with ⟨hold, heq⟩ | ⟨-, habs⟩
      · rw [heq]
        by_cases hq' : q ∈ F.dom m'
        · exact hgone q hq' hq
        · exact h.clear m' hm' q hold hq'
      · exact habs
    · rw [withDom_liveAt_of_ne hne] at hl
      rw [withDom_dom_of_ne hne] at hq
      rw [hpte_ne m' hm' hne q hl]
      exact h.clear m' hm' q hl hq
  · by_cases hne : m' = m
    · subst hne
      rw [withDom_dom_self] at hq'
      rcases hpte_self q ((live_iff_of_lt (by omega)).2 (leaf_pos_of_mem hq')) with
        ⟨-, heq⟩ | ⟨hold, -⟩
      · exact heq
      · exact absurd (liveAt_of_mem hq) hold
    · exact hpte_ne m' hm' hne q (liveAt_of_mem hq)
  · by_cases hne : m' = m
    · subst hne
      exact hr.upper i hi
    · have hroot : F.LiveAt m' 3 0 := Or.inl ⟨rfl, rfl⟩
      exact congrFun (hother m' hm' hne 3 0 hroot).1 i

/-! ### Populating and releasing -/

/-- A range of pages is one of addresses. -/
theorem linear_page {a : ℕ} (ha : a ≤ userPages) : linear (4096 * a) = 4096 * a := by
  unfold userPages at ha
  rw [linear]
  omega

theorem pageDown_page {a : ℕ} (ha : a ≤ userPages) : pageDown (4096 * a) = a := by
  rw [pageDown, linear_page ha, pageSize, Nat.mul_div_cancel_left a (by omega)]

theorem pageUp_page {a : ℕ} (ha : a ≤ userPages) : pageUp (4096 * a) = a := by
  rw [pageUp, linear_page ha, pageSize]
  omega

/-- Populating pages of one address space that were not asked for before. -/
theorem ensures_ptPopulateRange_counts {root : Pfn} {E : ℕ → ℕ → Pte} {D : Set ℕ} {a b : ℕ}
    (hok : PtOk s root E (counts D)) (hab : a < b) (hb : b ≤ userPages)
    (hnew : ∀ q, a ≤ q → q < b → q ∉ D) :
    Ensures (ptPopulateRange root (4096 * a) (4096 * b) ptePtFlags) s fun rc s' =>
      (rc = 0 ∧ ∃ E', Grow root E s (counts D) E' s' (counts (D ∪ Set.Ico a b))) ∨
        (rc = -ENOMEM ∧ Restored root E s (counts D) s') := by
  have hfits : Fits (counts D) 3 a b :=
    ⟨hb, fun j g hj => by rw [raiseBelow_counts hnew]; exact load_counts_lt hj,
      fun j p _ hk => absurd hk (by omega)⟩
  have hpml4 : Populates root 3 (ptPopulatePml4 ptePtFlags) := populates_pml4 rfl
  have hpop := hpml4 s _ E 0 a b hok (Or.inl ⟨rfl, rfl⟩) (within_root hab.le hb) hfits
  have htop : tab root E 3 0 = root := rfl
  rw [htop, raiseBelow_counts hnew] at hpop
  rw [ptPopulateRange, dbgAssert, linear_page (by omega), linear_page hb, if_pos (by omega),
    ensures_bind, ensures_pure, pageDown_page (by omega), pageUp_page hb]
  exact hpop

/-- Releasing pages of one address space that were asked for. -/
theorem ensures_ptReleaseRange_counts {root : Pfn} {E : ℕ → ℕ → Pte} {D : Set ℕ} {a b : ℕ}
    (hok : PtOk s root E (counts D)) (hab : a < b) (hb : b ≤ userPages)
    (hasked : ∀ q, a ≤ q → q < b → q ∈ D) :
    Ensures (ptReleaseRange root (4096 * a) (4096 * b)) s fun _ s' =>
      Shrink root E s (counts D) s' (counts (D \ Set.Ico a b)) := by
  have hpml4 : Releases root E 3 ptReleasePml4 := releases_pml4
  have hrel := hpml4 s (counts D) 0 a b hok (Or.inl ⟨rfl, rfl⟩) (within_root hab.le hb)
    fun j p hj h₁ h₂ => by rw [counts_of_mem hj (hasked p h₁ h₂)]
  have htop : tab root E 3 0 = root := rfl
  rw [htop, lowerBelow_counts] at hrel
  rw [ptReleaseRange, dbgAssert, linear_page (by omega), linear_page hb, if_pos (by omega),
    ensures_bind, ensures_pure, pageDown_page (by omega), pageUp_page hb]
  exact hrel

/-- **Populating** pages not asked for before: they are asked for now, or nothing has changed. -/
theorem Forest.Ok.ensures_ptPopulateRange {a b : ℕ} (h : F.Ok s) (hm : m ∈ F.live) (hab : a < b)
    (hb : b ≤ userPages) (hnew : ∀ q, a ≤ q → q < b → q ∉ F.dom m) :
    Ensures (ptPopulateRange (F.root m) (4096 * a) (4096 * b) ptePtFlags) s fun rc s' =>
      (rc = 0 ∧ ∃ E, F.Keeps s (F.withDom m (F.dom m ∪ Set.Ico a b) E) s') ∨
        (rc = -ENOMEM ∧ F.Keeps s F s') := by
  refine (ensures_ptPopulateRange_counts (h.tables m hm) hab hb hnew).mono ?_
  rintro rc s' (⟨hrc, E, hgrow⟩ | ⟨hrc, hrest⟩)
  · refine Or.inl ⟨hrc, E, h.keeps hm (retabled_of_grow hgrow) fun q hq hn => ?_⟩
    exact absurd (Or.inl hq) hn
  · have := h.keeps hm (retabled_of_restored hrest) fun q hq hn => absurd hq hn
    rw [withDom_same] at this
    exact Or.inr ⟨hrc, this⟩

/-- **Releasing** pages asked for, of which none is mapped any more. -/
theorem Forest.Ok.ensures_ptReleaseRange {a b : ℕ} (h : F.Ok s) (hasked : F.Asked m a b)
    (hab : a < b) (habs : ∀ q, a ≤ q → q < b → (F.pte s m q).present = false) :
    Ensures (ptReleaseRange (F.root m) (4096 * a) (4096 * b)) s fun _ s' =>
      F.Keeps s (F.withDom m (F.dom m \ Set.Ico a b) (F.entry m)) s' ∧
        ∀ p, s.free p = true → s'.free p = true := by
  refine (ensures_ptReleaseRange_counts (h.tables m hasked.live) hab
    (hasked.le_userPages h hab) hasked.dom).mono fun _ s' hshrink => ?_
  refine ⟨h.keeps hasked.live (retabled_of_shrink hshrink) fun q hq hn => ?_, fun p hp => ?_⟩
  · have hmem : a ≤ q ∧ q < b := by
      by_contra hc
      exact hn ⟨hq, hc⟩
    exact habs q hmem.1 hmem.2
  · rw [(hshrink.off p (off_of_not_isTable hasked.live (h.of_free hp).1)).2.2]
    exact hp

/-! ### Making and removing address spaces -/

/-- The forest with one more address space, that has asked for nothing. -/
def Forest.withSpace (F : Forest) (m : ℕ) (root : Pfn) : Forest :=
  { F with
    live := insert m F.live
    root := Function.update F.root m root
    dom := Function.update F.dom m ∅ }

/-- The forest without an address space. -/
def Forest.without (F : Forest) (m : ℕ) : Forest := { F with live := F.live \ {m} }

theorem live_counts_empty : Live (counts ∅) k g ↔ k = 3 ∧ g = 0 := by
  unfold Live
  constructor
  · rintro (h | ⟨hk, hl⟩)
    · exact h
    · obtain ⟨q, hq, -⟩ := (load_counts_pos hk).1 hl
      exact absurd hq (Set.notMem_empty q)
  · exact Or.inl

/-- An empty table is one that counts nothing. -/
theorem ptOk_empty {root : Pfn} (hzero : ∀ i < 256, s.table root i = .zero)
    (hbusy : s.free root = false) : PtOk s root E (counts ∅) := by
  have hdead : ∀ k g, k < 3 → ¬0 < load (counts ∅) k g := fun k g hk hl => by
    obtain ⟨q, hq, -⟩ := (load_counts_pos hk).1 hl
    exact Set.notMem_empty q hq
  refine
    { mono := fun k p _ => ?_
      user := fun k p _ _ => counts_of_notMem (Set.notMem_empty p)
      bound := fun k g hk => load_counts_lt hk
      entry := fun k g hk hg hl => ?_
      shape := fun k g hk hl => absurd hl (hdead k g hk)
      count := fun k g hk hl => absurd hl (hdead k g hk)
      inj := fun k g k' g' hl hl' _ => ?_
      busy := fun k g hl => ?_ }
  · rw [counts_of_notMem (Set.notMem_empty p)]
    exact Nat.zero_le _
  · obtain ⟨hk3, hg0⟩ := live_counts_empty.1 hl
    obtain rfl : k = 2 := by omega
    rw [if_neg (hdead 2 g hk)]
    exact hzero (g % 512) (by omega)
  · obtain ⟨rfl, rfl⟩ := live_counts_empty.1 hl
    obtain ⟨rfl, rfl⟩ := live_counts_empty.1 hl'
    exact ⟨rfl, rfl⟩
  · obtain ⟨rfl, rfl⟩ := live_counts_empty.1 hl
    exact hbusy

/-- **A new address space**, whose top table is made of a free page. -/
theorem Forest.Ok.keeps_create (h : F.Ok s) (hm : m ∉ F.live) {p : Pfn} (hp : s.free p = true)
    (hzero : ∀ i < 256, s'.table p i = .zero) (hbusy : s'.free p = false)
    (hother : ∀ t, t ≠ p → s'.free t = s.free t ∧ s'.table t = s.table t ∧ s'.u t = s.u t ∧
      s'.bytes t = s.bytes t) : F.Keeps s (F.withSpace m p) s' := by
  set F' := F.withSpace m p with hF'
  obtain ⟨hpt, hpz, -⟩ := h.of_free hp
  have hne : ∀ m' ∈ F.live, m' ≠ m := fun m' hm' heq => hm (heq ▸ hm')
  have hdom : ∀ m' ∈ F.live, F'.dom m' = F.dom m' := fun m' hm' =>
    Function.update_of_ne (hne m' hm') _ _
  have hroot : ∀ m' ∈ F.live, F'.root m' = F.root m' := fun m' hm' =>
    Function.update_of_ne (hne m' hm') _ _
  have hdomm : F'.dom m = ∅ := Function.update_self _ _ _
  have hrootm : F'.root m = p := Function.update_self _ _ _
  -- the other address spaces have the tables they had
  have hlive : ∀ m' ∈ F.live, ∀ k g, F'.LiveAt m' k g ↔ F.LiveAt m' k g := fun m' hm' k g => by
    rw [LiveAt, hdom m' hm', LiveAt]
  have htab : ∀ m' ∈ F.live, ∀ k g, F'.tabAt m' k g = F.tabAt m' k g := fun m' hm' k g => by
    rw [tabAt, hroot m' hm']
    rfl
  -- and the new one has its top table only, which was free and so none of theirs
  have hlivem : ∀ k g, F'.LiveAt m k g → F'.tabAt m k g = p := by
    intro k g hl
    rw [LiveAt, hdomm, live_counts_empty] at hl
    obtain ⟨rfl, rfl⟩ := hl
    exact hrootm
  have hsplit : ∀ t, F'.IsTable t → F.IsTable t ∨ t = p := by
    rintro t ⟨m', hm', k, g, hl, rfl⟩
    rcases Set.mem_insert_iff.1 hm' with rfl | hm'
    · exact Or.inr (hlivem k g hl)
    · rw [htab m' hm']
      exact Or.inl ⟨m', hm', k, g, (hlive m' hm' k g).1 hl, rfl⟩
  have htable : ∀ t, F.IsTable t → s'.free t = s.free t ∧ s'.table t = s.table t ∧
      s'.u t = s.u t := fun t ht => by
    obtain ⟨h₁, h₂, h₃, -⟩ := hother t fun heq => hpt (heq ▸ ht)
    exact ⟨h₁, h₂, h₃⟩
  have hpte : ∀ m' ∈ F.live, ∀ q, F.LiveAt m' 0 (q / 512) → F'.pte s' m' q = F.pte s m' q := by
    intro m' hm' q hl
    rw [pte, htab m' hm', (htable _ (isTable hm' hl)).2.1]
    rfl
  -- nothing is mapped in the new address space
  have hframe : F'.frame s' = F.frame s := by
    funext x
    obtain ⟨m', q⟩ := x
    by_cases hm' : m' ∈ F.live
    · by_cases hq : q ∈ F.dom m'
      · rw [frame_eq (F := F') (Set.mem_insert_of_mem m hm') ((hdom m' hm').symm ▸ hq),
          frame_eq hm' hq, hpte m' hm' q (liveAt_of_mem hq)]
      · rw [frame_eq_none (F := F') fun _ hc => absurd (hdom m' hm' ▸ hc) hq,
          frame_eq_none fun _ hc => absurd hc hq]
    · rw [frame_eq_none (F := F) fun hc => absurd hc hm']
      refine frame_eq_none fun hc hq => ?_
      rcases Set.mem_insert_iff.1 hc with rfl | hc
      · rw [hdomm] at hq
        exact absurd hq (Set.notMem_empty q)
      · exact absurd hc hm'
  have hkept : ∀ t, s.free t = false → ¬F.IsTable t → ¬F'.IsTable t ∧ s'.free t = false ∧
      s'.table t = s.table t ∧ s'.u t = s.u t ∧ s'.bytes t = s.bytes t := by
    intro t hf ht
    have htp : t ≠ p := fun heq => by
      rw [heq, hp] at hf
      exact Bool.false_ne_true hf.symm
    obtain ⟨h₁, h₂⟩ := hother t htp
    exact ⟨fun hc => (hsplit t hc).elim ht htp, h₁.trans hf, h₂⟩
  have hmappable : ∀ t, F.Mappable s t → F'.Mappable s' t := fun t ht =>
    ⟨(hkept t ht.2.1 ht.1).1, (hkept t ht.2.1 ht.1).2.1, ht.2.2⟩
  refine
    { ok :=
        { tables := fun m' hm' => ?_
          apart := fun m₁ hm₁ m₂ hm₂ k g k' g' hl₁ hl₂ heq => ?_
          low := fun t ht => (hsplit t ht).elim (h.low t) fun heq => heq ▸ h.freeLow p hp
          freeLow := fun t ht => ?_
          clear := fun m' hm' q hl hq => ?_
          busy := fun i f hi => hmappable f (h.busy i f (hframe ▸ hi))
          zero := hmappable _ h.zero }
      zero := rfl
      frame := hframe
      pte := fun m' hm' q hq _ => hpte m' hm' q (liveAt_of_mem hq)
      kept := hkept
      freed := fun t ht => ?_
      upper := fun m' hm' i _ => ?_ }
  · -- the tables: empty in the new address space, unchanged in the others
    rcases Set.mem_insert_iff.1 hm' with rfl | hm'
    · rw [hdomm, hrootm]
      exact ptOk_empty hzero hbusy
    · rw [hdom m' hm', hroot m' hm']
      refine (h.tables m' hm').congr (fun k g _ hl => (htable _ (isTable hm' hl)).2.1)
        (fun k g hk hl => ?_) fun k g hl => ?_
      · have := (htable _ (isTable hm' ((live_iff_of_lt hk).2 hl))).2.2
        rwa [tabAt, tab_of_lt hk] at this
      · exact (htable _ (isTable hm' hl)).1.trans ((h.tables m' hm').busy k g hl)
  · -- no table is in two places: what is free is in none
    rcases Set.mem_insert_iff.1 hm₁ with rfl | h₁
    · rcases Set.mem_insert_iff.1 hm₂ with rfl | h₂
      · rfl
      · rw [hlivem k g hl₁, htab m₂ h₂] at heq
        exact absurd (isTable h₂ ((hlive m₂ h₂ k' g').1 hl₂)) (heq ▸ hpt)
    · rcases Set.mem_insert_iff.1 hm₂ with rfl | h₂
      · rw [hlivem k' g' hl₂, htab m₁ h₁] at heq
        exact absurd (isTable h₁ ((hlive m₁ h₁ k g).1 hl₁)) (heq ▸ hpt)
      · rw [htab m₁ h₁, htab m₂ h₂] at heq
        exact h.apart m₁ h₁ m₂ h₂ k g k' g' ((hlive m₁ h₁ k g).1 hl₁)
          ((hlive m₂ h₂ k' g').1 hl₂) heq
  · have htp : t ≠ p := fun heq => by
      rw [heq, hbusy] at ht
      exact Bool.false_ne_true ht
    exact h.freeLow t ((hother t htp).1.symm.trans ht)
  · rcases Set.mem_insert_iff.1 hm' with rfl | hm'
    · rw [LiveAt, hdomm, live_counts_empty] at hl
      omega
    · rw [hlive m' hm'] at hl
      rw [hdom m' hm'] at hq
      rw [hpte m' hm' q hl]
      exact h.clear m' hm' q hl hq
  · have htp : t ≠ p := fun heq => by
      rw [heq, hbusy] at ht
      exact Bool.false_ne_true ht
    exact Or.inl ((hother t htp).1.symm.trans ht)
  · have hroot3 : F.LiveAt m' 3 0 := Or.inl ⟨rfl, rfl⟩
    exact congrFun (htable _ (isTable hm' hroot3)).2.1 i

/-- **Removing an address space** that has nothing left. -/
theorem Forest.Ok.keeps_destroy (h : F.Ok s) (hm : m ∈ F.live) (hdom : F.dom m = ∅) :
    F.Keeps s (F.without m) { s with free := Function.update s.free (F.root m) true } := by
  set F' := F.without m with hF'
  set s' : Phys := { s with free := Function.update s.free (F.root m) true } with hs'
  have hlive : ∀ m' ∈ F'.live, m' ∈ F.live ∧ m' ≠ m := fun m' hm' => ⟨hm'.1, hm'.2⟩
  have hroot3 : F.LiveAt m 3 0 := Or.inl ⟨rfl, rfl⟩
  have hisroot : F.IsTable (F.root m) := isTable hm hroot3
  have hframe : F'.frame s' = F.frame s := by
    funext x
    obtain ⟨m', q⟩ := x
    by_cases hne : m' = m
    · subst hne
      rw [frame_eq_none (F := F') fun hc => absurd rfl hc.2,
        frame_eq_none fun _ hq => absurd (hdom ▸ hq) (Set.notMem_empty q)]
    · by_cases hm' : m' ∈ F.live
      · by_cases hq : q ∈ F.dom m'
        · have hm'' : m' ∈ F'.live := ⟨hm', hne⟩
          rw [frame_eq (F := F') hm'' hq, frame_eq hm' hq]
          rfl
        · rw [frame_eq_none (F := F') fun _ hc => absurd hc hq,
            frame_eq_none fun _ hc => absurd hc hq]
      · rw [frame_eq_none (F := F') fun hc => absurd hc.1 hm',
          frame_eq_none fun hc => absurd hc hm']
  have hsub : ∀ t, F'.IsTable t → F.IsTable t ∧ t ≠ F.root m := by
    rintro t ⟨m', hm', k, g, hl, rfl⟩
    refine ⟨⟨m', hm'.1, k, g, hl, rfl⟩, fun heq => hm'.2 ?_⟩
    exact h.apart m' hm'.1 m hm k g 3 0 hl hroot3 heq
  have hfree : ∀ t, t ≠ F.root m → s'.free t = s.free t := fun t ht =>
    Function.update_of_ne ht _ _
  have hkept : ∀ t, s.free t = false → ¬F.IsTable t → ¬F'.IsTable t ∧ s'.free t = false ∧
      s'.table t = s.table t ∧ s'.u t = s.u t ∧ s'.bytes t = s.bytes t := fun t hf ht =>
    ⟨fun hc => ht (hsub t hc).1, (hfree t fun heq => ht (heq ▸ hisroot)).trans hf, rfl, rfl, rfl⟩
  have hmappable : ∀ t, F.Mappable s t → F'.Mappable s' t := fun t ht =>
    ⟨(hkept t ht.2.1 ht.1).1, (hkept t ht.2.1 ht.1).2.1, ht.2.2⟩
  have hfreed : ∀ t, s'.free t = true → s.free t = true ∨ F.IsTable t := fun t ht => by
    by_cases heq : t = F.root m
    · exact Or.inr (heq ▸ hisroot)
    · exact Or.inl ((hfree t heq).symm.trans ht)
  refine
    { ok :=
        { tables := fun m' hm' => ?_
          apart := fun m₁ hm₁ m₂ hm₂ => h.apart m₁ hm₁.1 m₂ hm₂.1
          low := fun t ht => h.low t (hsub t ht).1
          freeLow := fun t ht => (hfreed t ht).elim (h.freeLow t) (h.low t)
          clear := fun m' hm' => h.clear m' hm'.1
          busy := fun i f hi => hmappable f (h.busy i f (hframe ▸ hi))
          zero := hmappable _ h.zero }
      zero := rfl
      frame := hframe
      pte := fun _ _ _ _ _ => rfl
      kept := hkept
      freed := hfreed
      upper := fun _ _ _ _ => rfl }
  refine (h.tables m' hm'.1).congr (fun _ _ _ _ => rfl) (fun _ _ _ _ => rfl) fun k g hl => ?_
  exact (hfree _ (hsub _ ⟨m', hm', k, g, hl, rfl⟩).2).trans ((h.tables m' hm'.1).busy k g hl)

end

end Mm

end Kernel64
