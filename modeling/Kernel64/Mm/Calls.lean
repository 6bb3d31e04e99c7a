import Kernel64.Mm.Areas
import Kernel64.Mm.Ranges

/-!
# `__mmap` and `__munmap`

`WorldOk` ties the areas and the page tables together: the pages asked for in the tables of an
address space are those inside its areas. `__mmap` keeps it, and so does `__munmap` of a range that
lies inside the areas.
-/

namespace Kernel64

namespace Mm

open Paging Rb ColorTree

/-- The page tables of a state whose areas are in the trees `T`. -/
def forestOf (w : World) (T : ℕ → ColorTree Ptr) (E : ℕ → ℕ → ℕ → Pte) : Forest where
  live := {m | w.mmUsed m = true}
  root := fun m => (w.mm m).pt
  dom := fun m => pagesOf (w.mm m) (T m)
  entry := E
  zero := w.zeroPage

/-- An address at the start of a page. -/
def Aligned (addr : ℕ) : Prop := ∃ a, addr = 4096 * a

/-- **Areas and page tables in step.** -/
structure WorldOk (w : World) (T : ℕ → ColorTree Ptr) (E : ℕ → ℕ → ℕ → Pte) : Prop where
  areas : AreasOk Aligned w T
  pages : (forestOf w T E).Ok w.phys

section

variable {w w' : World} {T : ℕ → ColorTree Ptr} {E : ℕ → ℕ → ℕ → Pte} {t : ColorTree Ptr}
  {E' : ℕ → ℕ → Pte} {m a b fuel perm : ℕ} {x : Pfn → ℕ}

/-- Changing the areas of one address space and its tables. -/
theorem forestOf_touches (h : Touches m w w') :
    forestOf w' (Function.update T m t) (Function.update E m E') =
      (forestOf w T E).withDom m (pagesOf (w'.mm m) t) E' := by
  have hroot : (fun m' => (w'.mm m').pt) = fun m' => (w.mm m').pt := by
    funext m'
    by_cases hne : m' = m
    · rw [hne, h.pt]
    · rw [h.other m' hne]
  have hdom : (fun m' => pagesOf (w'.mm m') (Function.update T m t m')) =
      Function.update (fun m' => pagesOf (w.mm m') (T m')) m (pagesOf (w'.mm m) t) := by
    funext m'
    by_cases hne : m' = m
    · rw [hne, Function.update_self, Function.update_self]
    · rw [Function.update_of_ne hne, Function.update_of_ne hne, h.other m' hne]
  rw [forestOf, Forest.withDom, forestOf, hroot, hdom, h.mmUsed, h.zeroPage]

/-- Keeping the mappings twice. -/
theorem Forest.Keeps.trans {F₁ F₂ F₃ : Forest} {s₁ s₂ s₃ : Phys} (h : F₁.Keeps s₁ F₂ s₂)
    (h' : F₂.Keeps s₂ F₃ s₃) (hlive : ∀ m ∈ F₁.live, m ∈ F₂.live ∧ F₂.root m = F₁.root m)
    (hdom : ∀ m q, q ∈ F₁.dom m → q ∈ F₃.dom m → q ∈ F₂.dom m)
    (htable : ∀ p, F₂.IsTable p → F₁.IsTable p ∨ s₁.free p = true) : F₁.Keeps s₁ F₃ s₃ where
  ok := h'.ok
  zero := h'.zero.trans h.zero
  frame := h'.frame.trans h.frame
  pte := fun m hm q hq hq' => (h'.pte m (hlive m hm).1 q (hdom m q hq hq') hq').trans
    (h.pte m hm q hq (hdom m q hq hq'))
  kept := fun p hf hp => by
    obtain ⟨h₁, h₂, h₃, h₄, h₅⟩ := h.kept p hf hp
    obtain ⟨h₁', h₂', h₃', h₄', h₅'⟩ := h'.kept p h₂ h₁
    exact ⟨h₁', h₂', h₃'.trans h₃, h₄'.trans h₄, h₅'.trans h₅⟩
  freed := fun p hp => (h'.freed p hp).elim (h.freed p) fun ht => (htable p ht).symm
  upper := fun m hm i hi => by
    obtain ⟨hm', hroot⟩ := hlive m hm
    have := h'.upper m hm' i hi
    rw [hroot] at this
    rw [this]
    exact h.upper m hm i hi

/-- A table after some were added was one before or is made of a free page. -/
theorem Forest.Keeps.isTable {F F' : Forest} {s s' : Phys} (h : F.Keeps s F' s') {p : Pfn}
    (hp : F'.IsTable p) : F.IsTable p ∨ s.free p = true := by
  by_contra hc
  rw [not_or, Bool.not_eq_true] at hc
  exact (h.kept p hc.2 hc.1).1 hp

/-! ### `__mmap` -/

theorem alignDown_page (a : ℕ) : alignDown (4096 * a) = 4096 * a := by
  rw [alignDown, pageSize]
  omega

theorem alignUp_page (hb : b ≤ userPages) : alignUp (4096 * b) = 4096 * b := by
  have hle : 4096 * b ≤ taskSize := by
    unfold userPages at hb
    rw [taskSize]
    omega
  rw [alignUp_eq hle, alignTo, pageSize]
  omega

theorem aligned_page (a : ℕ) : Aligned (4096 * a) := ⟨a, rfl⟩

theorem taskSize_eq : taskSize = 4096 * userPages := by
  unfold taskSize userPages
  norm_num

theorem page_le_taskSize : 4096 * b ≤ taskSize ↔ b ≤ userPages := by
  rw [taskSize_eq, Nat.mul_le_mul_left_iff (by norm_num)]

/-- The pages of the areas with a new one. -/
theorem NewArea.pagesOf {B : ℕ → Prop} {v : Vma} (h : NewArea B m v w T w' t)
    (hv : v.begin = 4096 * a) (hv' : v.stop = 4096 * b) :
    pagesOf (w'.mm m) t = Mm.pagesOf (w.mm m) (T m) ∪ Set.Ico a b := by
  have hhas : ∀ q, v.Has (4096 * q) ↔ q ∈ Set.Ico a b := fun q => by
    rw [Vma.Has, hv, hv', Set.mem_Ico]
    omega
  ext q
  simp only [mem_pagesOf, h.hasPerm, exists_or, Set.mem_union, exists_and_left, exists_eq', and_true,
    hhas]

/-- What `__mmap` does: the range is an area and has tables, or everything is as it was. -/
def Mmapped (m a b perm : ℕ) (w : World) (T : ℕ → ColorTree Ptr) (E : ℕ → ℕ → ℕ → Pte) (rc : ℤ)
    (w' : World) : Prop :=
  (rc = 0 ∧ ∃ t E', NewArea Aligned m ⟨4096 * a, 4096 * b, perm, m⟩ w T w' t ∧
      WorldOk w' (Function.update T m t) (Function.update E m E') ∧
      (forestOf w T E).Keeps w.phys
        (forestOf w' (Function.update T m t) (Function.update E m E')) w'.phys) ∨
  (rc ≠ 0 ∧ w'.mm = w.mm ∧ w'.vmaUsed = w.vmaUsed ∧ Touches m w w' ∧
    ∃ E', WorldOk w' T (Function.update E m E') ∧
      (forestOf w T E).Keeps w.phys (forestOf w' T (Function.update E m E')) w'.phys)

theorem Forest.Ok.keeps_self {F : Forest} {s : Phys} (h : F.Ok s) : F.Keeps s F s :=
  ⟨h, rfl, rfl, fun _ _ _ _ _ => rfl, fun _ hf hp => ⟨hp, hf, rfl, rfl, rfl⟩, fun _ hp => Or.inl hp,
    fun _ _ _ _ => rfl⟩

theorem ENOMEM_ne_zero : -ENOMEM ≠ 0 := by decide

/-- Pages that have just been asked for are not mapped. -/
theorem Forest.Keeps.absent {F : Forest} {s s' : Phys} {D : Set ℕ}
    (h : F.Keeps s (F.withDom m D E') s') (hm : m ∈ F.live) {q : ℕ} (hq : q ∈ D)
    (hnew : q ∉ F.dom m) : ((F.withDom m D E').pte s' m q).present = false := by
  have hq' : q ∈ (F.withDom m D E').dom m := by rwa [withDom_dom_self]
  have hframe := frame_eq (F := F.withDom m D E') (s := s') hm hq'
  rw [h.frame, frame_eq_none fun _ hc => absurd hc hnew] at hframe
  by_contra hp
  rw [Bool.not_eq_false] at hp
  rw [if_pos hp] at hframe
  exact nomatch hframe

/-- **`__mmap`** keeps areas and page tables in step. -/
theorem WorldOk.ensures_mmap (h : WorldOk w T E) (hm : w.mmUsed m = true) (hab : a < b)
    (hb : b ≤ userPages) (hfuel : taskSize < fuel) :
    Ensures (mmap fuel m (4096 * a) (4096 * b) perm) w (Mmapped m a b perm w T E) := by
  set F := forestOf w T E with hF
  have hlive : m ∈ F.live := hm
  simp only [mmap, alignDown_page, alignUp_page hb, ensures_bind]
  refine (h.areas.ensures_lookupVma hm hfuel).mono ?_
  rintro r w₀ ⟨rfl, ⟨p, hp, rfl, -⟩ | ⟨path, hpath, rfl, hbefore, hafter⟩⟩
  · -- an area meets the range
    simp only [ensures_pure]
    refine Or.inr ⟨by decide, rfl, rfl, Touches.refl m w₀, E m, ?_⟩
    rw [Function.update_eq_self]
    exact ⟨h, h.pages.keeps_self⟩
  have hnew : ∀ q, a ≤ q → q < b → q ∉ F.dom m := by
    intro q h₁ h₂ hq
    have hclear := (h.areas.cleared_of_missing hpath hbefore hafter).pages
    have hq' : q ∈ pagesOf (w₀.mm m) (T m) := hq
    rw [hclear] at hq'
    exact hq'.2 ⟨h₁, h₂⟩
  simp only [ensures_bind, ensures_get, ensures_onPhys]
  refine (h.pages.ensures_ptPopulateRange hlive hab hb hnew).mono ?_
  rintro rc s₁ (⟨rfl, E₁, hkeeps⟩ | ⟨rfl, hkeeps⟩)
  swap
  · -- a table could not be made, and those that could are released again
    simp only [ne_eq, ENOMEM_ne_zero, not_false_eq_true, if_true, ensures_pure]
    refine Or.inr ⟨ENOMEM_ne_zero, rfl, rfl, touches_withPhys m w₀ s₁, E m, ?_⟩
    rw [Function.update_eq_self]
    exact ⟨⟨h.areas.withPhys s₁, hkeeps.ok⟩, hkeeps⟩
  have hinside : ∀ q, a ≤ q → q < b → q ∈ F.dom m ∪ Set.Ico a b := fun q h₁ h₂ => Or.inr ⟨h₁, h₂⟩
  simp only [ne_eq, not_true_eq_false, if_false, ensures_bind]
  refine ensures_allocVma.mono ?_
  rintro r w₁ (⟨p, rfl, haddr, hfree, rfl⟩ | ⟨rfl, -, rfl⟩)
  · -- the new area
    have hareas₁ : AreasOk Aligned ((w₀.withPhys s₁).asked 1) T := h.areas.of_eq rfl rfl rfl
    have hlink := hareas₁.ensures_linkArea (v := ⟨4096 * a, 4096 * b, perm, m⟩) hm hpath haddr hfree
      ⟨aligned_page a, aligned_page b, by simp only; omega, page_le_taskSize.2 hb, rfl⟩
      hbefore hafter hfuel
    simp only [ensures_bind] at hlink ⊢
    refine hlink.mono fun _ w₂ hw₂ => hw₂.mono ?_
    rintro _ w₂ ⟨hphys, t, harea⟩
    simp only [ensures_pure]
    have hasked : Touches m w₀ ((w₀.withPhys s₁).asked 1) :=
      ⟨fun _ _ => rfl, rfl, rfl, rfl, rfl, rfl⟩
    have htouches : Touches m w₀ w₂ := hasked.trans harea.touches
    replace harea : NewArea Aligned m ⟨4096 * a, 4096 * b, perm, m⟩ w₀ T w₂ t :=
      ⟨htouches, harea.areas, harea.linked⟩
    have hforest : forestOf w₂ (Function.update T m t) (Function.update E m E₁) =
        F.withDom m (F.dom m ∪ Set.Ico a b) E₁ := by
      rw [forestOf_touches htouches, harea.pagesOf rfl rfl]
      rfl
    have hdone : WorldOk w₂ (Function.update T m t) (Function.update E m E₁) ∧
        F.Keeps w₀.phys (forestOf w₂ (Function.update T m t) (Function.update E m E₁)) w₂.phys := by
      refine ⟨⟨harea.areas, ?_⟩, ?_⟩
      · rw [hforest, hphys]
        exact hkeeps.ok
      · rw [hforest, hphys]
        exact hkeeps
    exact Or.inl ⟨rfl, t, E₁, harea, hdone⟩
  · -- there is no memory for the area, and the range is released
    simp only [ensures_bind, ensures_onPhys, ensures_pure]
    have hasked : (F.withDom m (F.dom m ∪ Set.Ico a b) E₁).Asked m a b :=
      ⟨hlive, fun q h₁ h₂ => by
        rw [Forest.withDom_dom_self]
        exact hinside q h₁ h₂⟩
    refine (hkeeps.ok.ensures_ptReleaseRange hasked hab fun q h₁ h₂ =>
      hkeeps.absent hlive (hinside q h₁ h₂) (hnew q h₁ h₂)).mono ?_
    rintro - s₂ ⟨hkeeps₂, -⟩
    have hback : (F.withDom m (F.dom m ∪ Set.Ico a b) E₁).withDom m
        ((F.withDom m (F.dom m ∪ Set.Ico a b) E₁).dom m \ Set.Ico a b)
        ((F.withDom m (F.dom m ∪ Set.Ico a b) E₁).entry m) = F.withDom m (F.dom m) E₁ := by
      rw [Forest.withDom_dom_self, Forest.withDom_entry_self, Set.union_sdiff_right,
        sdiff_eq_left.2 (Set.disjoint_left.2 fun q hq hc => hnew q hc.1 hc.2 hq)]
      simp only [Forest.withDom, Function.update_idem]
    rw [hback] at hkeeps₂
    set w₂ := ((w₀.withPhys s₁).asked 1).withPhys s₂ with hw₂
    have htouches : Touches m w₀ w₂ := ⟨fun _ _ => rfl, rfl, rfl, rfl, rfl, rfl⟩
    have hforest : forestOf w₂ T (Function.update E m E₁) = F.withDom m (F.dom m) E₁ := by
      have : forestOf w₂ _ (Function.update E m E₁) = _ :=
        forestOf_touches (T := T) (t := T m) htouches
      rwa [Function.update_eq_self] at this
    refine Or.inr ⟨ENOMEM_ne_zero, rfl, rfl, htouches, E₁, ?_⟩
    rw [hforest]
    refine ⟨⟨⟨h.areas.space, h.areas.used, h.areas.apart⟩, hforest.symm ▸ hkeeps₂.ok⟩,
      hkeeps.trans hkeeps₂ (fun m' hm' => ⟨hm', rfl⟩) (fun m' q hq _ => ?_)
      fun p hp => hkeeps.isTable hp⟩
    by_cases hne : m' = m
    · subst hne
      rw [Forest.withDom_dom_self]
      exact Or.inl hq
    · rwa [Forest.withDom_dom_of_ne hne]

/-! ### `__munmap` -/

/-- **Dropped mappings.** Some pages of `m` are not mapped any more, and the frames that lost their
last reference are free. -/
structure Drops (m : ℕ) (x : Pfn → ℕ) (w : World) (T : ℕ → ColorTree Ptr)
    (E : ℕ → ℕ → ℕ → Pte) (w' : World) (t : ColorTree Ptr) : Prop where
  touches : Touches m w w'
  ok : WorldOk w' (Function.update T m t) E
  counted : (forestOf w' (Function.update T m t) E).Counted w'.phys x
  held : ∀ p, (forestOf w' (Function.update T m t) E).Held w'.phys p →
    (forestOf w T E).Held w.phys p
  freed : ∀ p, (forestOf w T E).Held w.phys p →
    ¬(forestOf w' (Function.update T m t) E).Held w'.phys p → x p = 0 → w'.phys.free p = true
  kept : ∀ p, w.phys.free p = true → w'.phys.free p = true
  upper : ∀ m', w.mmUsed m' = true → ∀ i, 256 ≤ i →
    w'.phys.table (w.mm m').pt i = w.phys.table (w.mm m').pt i

theorem WorldOk.drops_self (h : WorldOk w T E) (hc : (forestOf w T E).Counted w.phys x) (m : ℕ) :
    Drops m x w T E w (T m) := by
  refine ⟨Touches.refl m w, ?_, ?_, fun p hp => ?_, fun p hp hn _ => ?_, fun _ hp => hp,
    fun _ _ _ _ => rfl⟩
  · rwa [Function.update_eq_self]
  · rwa [Function.update_eq_self]
  · rwa [Function.update_eq_self] at hp
  · rw [Function.update_eq_self] at hn
    exact absurd hp hn

theorem Drops.trans {w₁ w₂ : World} {t₁ t₂ : ColorTree Ptr} (h : Drops m x w T E w₁ t₁)
    (h' : Drops m x w₁ (Function.update T m t₁) E w₂ t₂) : Drops m x w T E w₂ t₂ := by
  have hupdate : Function.update (Function.update T m t₁) m t₂ = Function.update T m t₂ :=
    Function.update_idem _ _ _
  obtain ⟨h₁, h₂, h₃, h₄, h₅, h₆, h₇⟩ := h'
  rw [hupdate] at h₂ h₃
  simp only [hupdate] at h₄ h₅
  refine ⟨h.touches.trans h₁, h₂, h₃, fun p hp => h.held p (h₄ p hp), fun p hp hn hx => ?_,
    fun p hp => h₆ p (h.kept p hp), fun m' hm' i hi => ?_⟩
  · by_cases hmid : (forestOf w₁ (Function.update T m t₁) E).Held w₁.phys p
    · exact h₅ p hmid hn hx
    · exact h₆ p (h.freed p hp hmid hx)
  · have hpt : (w₁.mm m').pt = (w.mm m').pt := by
      by_cases hne : m' = m
      · rw [hne, h.touches.pt]
      · rw [h.touches.other m' hne]
    have := h₇ m' (h.touches.mmUsed ▸ hm') i hi
    rw [hpt] at this
    exact this.trans (h.upper m' hm' i hi)

/-- The number of pages in a range. -/
theorem page_count (hab : a ≤ b) (hb : b ≤ userPages) :
    (4096 * b + 2 ^ 64 - 4096 * a) % 2 ^ 64 / pageSize = b - a := by
  unfold userPages at hb
  rw [pageSize]
  omega

/-- `__munmap` of a range inside the areas, given what its loop does to them. -/
theorem WorldOk.ensures_munmap_of_loop (h : WorldOk w T E)
    (hc : (forestOf w T E).Counted w.phys x) (hm : w.mmUsed m = true) (hab : a < b)
    (hcover : ∀ q, a ≤ q → q < b → q ∈ pagesOf (w.mm m) (T m)) (hfuel : taskSize + 1 < fuel)
    {P : Prop} {R : World → ColorTree Ptr → Prop}
    (hloop : ∀ s, AreasOk Aligned (w.withPhys s) T →
      EnsuresUnless P (munmapLoop fuel m (4096 * a) (4096 * b) fuel) (w.withPhys s) fun _ w' =>
        ∃ t, Cleared Aligned m (4096 * a) (4096 * b) (w.withPhys s) T w' t ∧ R w' t) :
    EnsuresUnless P (munmap fuel m (4096 * a) (4096 * b)) w fun _ w' => ∃ t,
      Drops m x w T E w' t ∧ pagesOf (w'.mm m) t = pagesOf (w.mm m) (T m) \ Set.Ico a b ∧
        R w' t := by
  set F := forestOf w T E with hF
  have hasked : F.Asked m a b := ⟨hm, hcover⟩
  have hb := hasked.le_userPages h.pages hab
  rw [munmap]
  refine Ensures.bindUnless (ensures_get.2 ?_)
  simp only [page_count hab.le hb]
  refine Ensures.bindUnless (ensures_onPhys.2 ?_)
  have huser := taskSize_eq
  refine (h.pages.ensures_munmapPages hc hasked hab (by omega)).mono fun _ s₁ hun => ?_
  refine Ensures.bindUnless (ensures_onPhys.2 ?_)
  have habs : ∀ q, a ≤ q → q < b → (F.pte s₁ m q).present = false := fun q h₁ h₂ => by
    rw [hun.inside q h₁ h₂]
    rfl
  refine (hun.ok.ensures_ptReleaseRange hasked hab habs).mono ?_
  rintro - s₂ ⟨hkeeps, hmono⟩
  refine (hloop s₂ (h.areas.withPhys s₂)).mono id ?_
  rintro - w₃ ⟨t, hcleared, hR⟩
  have htouches : Touches m w w₃ := (touches_withPhys m w s₂).trans hcleared.recut.toTouches
  have hphys : w₃.phys = s₂ := hcleared.recut.phys
  have hpages : pagesOf (w₃.mm m) t = F.dom m \ Set.Ico a b := hcleared.pages
  have hforest : forestOf w₃ (Function.update T m t) E =
      F.withDom m (F.dom m \ Set.Ico a b) (F.entry m) := by
    have : forestOf w₃ (Function.update T m t) (Function.update E m (E m)) = _ :=
      forestOf_touches htouches
    rw [Function.update_eq_self, hpages] at this
    exact this
  have hheld : ∀ p, (forestOf w₃ (Function.update T m t) E).Held w₃.phys p ↔ F.Held s₁ p := by
    intro p
    rw [hforest, hphys]
    exact hkeeps.held p
  refine ⟨t, ⟨htouches, ⟨hcleared.ok, ?_⟩, ?_, fun p hp => ?_, fun p hp hn hx => ?_,
    fun p hp => ?_, fun m' hm' i hi => ?_⟩, hpages, hR⟩
  · rw [hforest, hphys]
    exact hkeeps.ok
  · rw [hforest, hphys]
    exact hkeeps.counted hun.ok hun.counted
  · exact hun.held h.pages ((hheld p).1 hp)
  · rw [hheld] at hn
    rw [hphys]
    exact hmono p ((hun.freed p).2 (Or.inr ⟨hp, hn, hx⟩))
  · rw [hphys]
    exact hmono p ((hun.freed p).2 (Or.inl hp))
  · have hroot : ∀ g, F.LiveAt m 0 g → F.tabAt m 0 g ≠ F.root m' := by
      intro g hl heq
      have hroot3 : F.LiveAt m' 3 0 := Or.inl ⟨rfl, rfl⟩
      have htop : F.tabAt m 0 g = F.tabAt m' 3 0 := heq
      obtain rfl := h.pages.apart m hm m' hm' 0 g 3 0 hl hroot3 htop
      have := ((h.pages.tables m hm).inj 0 g 3 0 hl hroot3 htop).1
      omega
    rw [hphys]
    exact (hkeeps.upper m' hm' i hi).trans (congrFun (hun.tables _ hroot) i)

/-- **`__munmap`** of a range inside the areas keeps areas and page tables in step. -/
theorem WorldOk.ensures_munmap (h : WorldOk w T E) (hc : (forestOf w T E).Counted w.phys x)
    (hm : w.mmUsed m = true) (hab : a < b)
    (hcover : ∀ q, a ≤ q → q < b → q ∈ pagesOf (w.mm m) (T m)) (hfuel : taskSize + 1 < fuel) :
    EnsuresUnless (Starved fuel w ∧ ∃ p ∈ (T m).inorder, Splits ((w.mm m).area p) (4096 * a) (4096 * b))
      (munmap fuel m (4096 * a) (4096 * b)) w fun _ w' => ∃ t, Drops m x w T E w' t ∧
        pagesOf (w'.mm m) t = pagesOf (w.mm m) (T m) \ Set.Ico a b := by
  have hasked : (forestOf w T E).Asked m a b := ⟨hm, hcover⟩
  have hb := hasked.le_userPages h.pages hab
  refine (h.ensures_munmap_of_loop hc hm hab hcover hfuel (R := fun _ _ => True)
    fun s hareas => (hareas.ensures_munmapLoop hm (aligned_page a) (aligned_page b) (by omega)
      (page_le_taskSize.2 hb) hfuel).mono id ?_).mono id ?_
  · rintro - w' ⟨t, ht⟩
    exact ⟨t, ht, trivial⟩
  · rintro - w' ⟨t, h₁, h₂, -⟩
    exact ⟨t, h₁, h₂⟩

/-- **`__munmap`** of a whole area takes it out of the tree, and always ends. -/
theorem WorldOk.ensures_munmap_whole (h : WorldOk w T E) (hc : (forestOf w T E).Counted w.phys x)
    (hm : w.mmUsed m = true) {p : Ptr} (hp : p ∈ (T m).inorder) (hfuel : taskSize + 1 < fuel) :
    Ensures (munmap fuel m ((w.mm m).area p).begin ((w.mm m).area p).stop) w fun _ w' =>
      ∃ t, Drops m x w T E w' t ∧ t.inorder = (T m).inorder.erase p ∧
        (w'.mm m).area = (w.mm m).area := by
  obtain ⟨⟨a, hbegin⟩, ⟨b, hstop⟩, hlt, -⟩ := (h.areas.space m hm).area p hp
  have hab : a < b := by omega
  have hcover : ∀ q, a ≤ q → q < b → q ∈ pagesOf (w.mm m) (T m) := fun q h₁ h₂ =>
    ⟨p, hp, by omega, by omega⟩
  rw [hbegin, hstop]
  have hrun := h.ensures_munmap_of_loop (P := False) hc hm hab hcover hfuel
    (R := fun w' t => t.inorder = (T m).inorder.erase p ∧ (w'.mm m).area = (w.mm m).area)
    fun s hareas => Or.inl (hareas.ensures_munmapLoop_whole hm hp hbegin hstop hfuel)
  refine (hrun.ensures id).mono ?_
  rintro - w' ⟨t, h₁, -, h₂⟩
  exact ⟨t, h₁, h₂⟩

end

end Mm

end Kernel64
