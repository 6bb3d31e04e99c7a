import Kernel64.Mm.Faults
import Kernel64.RbTree.Iterate

/-!
# Making and releasing address spaces

`create_mm` makes an address space without areas, and `release_mm` unmaps the areas one after the
other and frees what is left.
-/

namespace Kernel64

namespace Mm

open Paging Rb ColorTree

section

variable {w w' : World} {T : ℕ → ColorTree Ptr} {E : ℕ → ℕ → ℕ → Pte} {m fuel : ℕ}
  {x : Pfn → ℕ} {s : Phys}

/-! ### `create_mm` -/

/-- A new address space without areas. -/
structure Created (m : ℕ) (w : World) (T : ℕ → ColorTree Ptr) (E : ℕ → ℕ → ℕ → Pte) (w' : World) :
    Prop where
  fresh : w.mmUsed m = false
  mmUsed : w'.mmUsed = Function.update w.mmUsed m true
  other : ∀ m', m' ≠ m → w'.mm m' = w.mm m'
  zeroPage : w'.zeroPage = w.zeroPage
  ok : WorldOk w' (Function.update T m .nil) E
  keeps : (forestOf w T E).Keeps w.phys (forestOf w' (Function.update T m .nil) E) w'.phys

/-- No address space has changed. -/
structure Unchanged (w : World) (T : ℕ → ColorTree Ptr) (E : ℕ → ℕ → ℕ → Pte) (w' : World) :
    Prop where
  mmUsed : w'.mmUsed = w.mmUsed
  mm : w'.mm = w.mm
  zeroPage : w'.zeroPage = w.zeroPage
  ok : WorldOk w' T E
  keeps : (forestOf w T E).Keeps w.phys (forestOf w' T E) w'.phys

theorem spaceOk_nil {node : Ptr → RbNode} {area : Ptr → Vma} {pt : Pfn} :
    SpaceOk Aligned ⟨⟨node, 0#64⟩, area, pt⟩ .nil m :=
  ⟨⟨rfl, trivial, List.nodup_nil⟩, redBlack_iff.2 ⟨rfl, trivial, 0, rfl⟩,
    fun _ hp => absurd hp List.not_mem_nil, List.Pairwise.nil⟩

theorem pagesOf_nil (sp : Space) : pagesOf sp .nil = ∅ :=
  Set.eq_empty_iff_forall_notMem.2 fun _ ⟨_, hp, _⟩ => List.not_mem_nil hp

/-- A state whose address spaces are the same. -/
theorem WorldOk.unchanged (h : WorldOk w T E) (hused : w'.mmUsed = w.mmUsed) (hmm : w'.mm = w.mm)
    (hvma : w'.vmaUsed = w.vmaUsed) (hzero : w'.zeroPage = w.zeroPage)
    (hkeeps : (forestOf w T E).Keeps w.phys (forestOf w T E) w'.phys) : Unchanged w T E w' := by
  have hforest : forestOf w' T E = forestOf w T E := by
    rw [forestOf, forestOf, hused, hmm, hzero]
  refine ⟨hused, hmm, hzero, ⟨h.areas.of_eq hmm hused hvma, ?_⟩, ?_⟩
  · rw [hforest]
    exact hkeeps.ok
  · rw [hforest]
    exact hkeeps

/-- The forest with one more address space. -/
theorem forestOf_create {sp : Space} (hused : w'.mmUsed = Function.update w.mmUsed m true)
    (hmm : w'.mm = Function.update w.mm m sp) (hzero : w'.zeroPage = w.zeroPage) :
    forestOf w' (Function.update T m .nil) E = (forestOf w T E).withSpace m sp.pt := by
  have hlive : {m' | w'.mmUsed m' = true} = insert m {m' | w.mmUsed m' = true} := by
    ext m'
    rw [Set.mem_ofPred_eq, hused, Set.mem_insert_iff, Set.mem_ofPred_eq]
    by_cases hne : m' = m
    · simp [hne]
    · simp [hne]
  have hroot : (fun m' => (w'.mm m').pt) = Function.update (fun m' => (w.mm m').pt) m sp.pt := by
    funext m'
    rw [hmm]
    by_cases hne : m' = m
    · rw [hne, Function.update_self, Function.update_self]
    · rw [Function.update_of_ne hne, Function.update_of_ne hne]
  have hdom : (fun m' => pagesOf (w'.mm m') (Function.update T m .nil m')) =
      Function.update (fun m' => pagesOf (w.mm m') (T m')) m ∅ := by
    funext m'
    rw [hmm]
    by_cases hne : m' = m
    · rw [hne, Function.update_self, Function.update_self, Function.update_self, pagesOf_nil]
    · rw [Function.update_of_ne hne, Function.update_of_ne hne, Function.update_of_ne hne]
  rw [forestOf, hlive, hroot, hdom, hzero]
  rfl

/-- One more address space without areas. -/
theorem AreasOk.create {sp : Space} (h : AreasOk Aligned w T)
    (hused : w'.mmUsed = Function.update w.mmUsed m true)
    (hmm : w'.mm = Function.update w.mm m sp) (hvma : w'.vmaUsed = w.vmaUsed)
    (hsp : SpaceOk Aligned sp .nil m) : AreasOk Aligned w' (Function.update T m .nil) := by
  have hold : ∀ m', m' ≠ m → w'.mmUsed m' = true → w.mmUsed m' = true := fun m' hne hm' => by
    rwa [hused, Function.update_of_ne hne] at hm'
  have hmem : ∀ m' p, p ∈ (Function.update T m .nil m').inorder → m' ≠ m ∧ p ∈ (T m').inorder := by
    intro m' p hp
    by_cases hne : m' = m
    · rw [hne, Function.update_self] at hp
      exact absurd hp List.not_mem_nil
    · rw [Function.update_of_ne hne] at hp
      exact ⟨hne, hp⟩
  refine ⟨fun m' hm' => ?_, fun m' hm' p hp => ?_, fun m₁ m₂ p hm₁ hm₂ hp₁ hp₂ => ?_⟩
  · rw [hmm]
    by_cases hne : m' = m
    · rw [hne, Function.update_self, Function.update_self]
      exact hsp
    · rw [Function.update_of_ne hne, Function.update_of_ne hne]
      exact h.space m' (hold m' hne hm')
  · obtain ⟨hne, hp⟩ := hmem m' p hp
    rw [hvma]
    exact h.used m' (hold m' hne hm') p hp
  · obtain ⟨hne₁, hp₁⟩ := hmem m₁ p hp₁
    obtain ⟨hne₂, hp₂⟩ := hmem m₂ p hp₂
    exact h.apart m₁ m₂ p (hold m₁ hne₁ hm₁) (hold m₂ hne₂ hm₂) hp₁ hp₂

/-- One more address space, whose top table is a page that was free. -/
theorem WorldOk.created {sp : Space} (h : WorldOk w T E) (hfree : w.mmUsed m = false)
    (hsp : SpaceOk Aligned sp .nil m) (hused : w'.mmUsed = Function.update w.mmUsed m true)
    (hmm : w'.mm = Function.update w.mm m sp) (hvma : w'.vmaUsed = w.vmaUsed)
    (hzero : w'.zeroPage = w.zeroPage) (hp : w.phys.free sp.pt = true)
    (hempty : ∀ i < 256, w'.phys.table sp.pt i = .zero) (hbusy : w'.phys.free sp.pt = false)
    (hother : Elsewhere sp.pt w.phys w'.phys) : Created m w T E w' := by
  have hnot : m ∉ (forestOf w T E).live := fun hm => Bool.false_ne_true (hfree.symm.trans hm)
  have hkeeps := h.pages.keeps_create hnot hp hempty hbusy hother
  have hforest := forestOf_create (T := T) (E := E) hused hmm hzero
  refine ⟨hfree, hused, fun m' hne => ?_, hzero, ⟨h.areas.create hused hmm hvma hsp, ?_⟩, ?_⟩
  · rw [hmm, Function.update_of_ne hne]
  · rw [hforest]
    exact hkeeps.ok
  · rw [hforest]
    exact hkeeps

/-- **`create_mm`** makes an address space without areas, or changes nothing. -/
theorem WorldOk.ensures_createMm (h : WorldOk w T E) :
    Ensures createMm w fun r w' =>
      (∃ m, r = some m ∧ Created m w T E w') ∨ (r = none ∧ Unchanged w T E w') := by
  rw [createMm, allocMm]
  simp only [ensures_bind, ensures_get, ensures_set]
  cases hsupply : w.mmSupply 0 with
  | none =>
    simp only [ensures_pure]
    exact Or.inr ⟨trivial, h.unchanged rfl rfl rfl rfl h.pages.keeps_self⟩
  | some m =>
    simp only
    by_cases hfree : w.mmUsed m = false
    swap
    · rw [if_neg hfree]
      simp only [ensures_pure]
      exact Or.inr ⟨trivial, h.unchanged rfl rfl rfl rfl h.pages.keeps_self⟩
    rw [if_pos hfree]
    simp only [ensures_bind, ensures_modify, ensures_pure, ensures_onPhys]
    refine ensures_allocPages (fun pt word _ hp => ?_) ?_
    · simp only [ensures_bind, ensures_onPhys, clearPage, ensures_get, ensures_modify, ensures_pure]
      refine Or.inl ⟨m, rfl, h.created hfree spaceOk_nil rfl rfl rfl rfl hp (fun i hi => ?_) ?_
        fun t ht => ?_⟩
      · simp [World.withPhys, hi]
      · simp [World.withPhys, taken]
      · simp [World.withPhys, taken, ht]
    · simp only [ensures_bind, freeMm, ensures_modify, ensures_pure]
      refine Or.inr ⟨trivial, h.unchanged ?_ rfl rfl rfl h.pages.keeps_refused⟩
      rw [← hfree]
      simp [World.withPhys]

/-! ### `release_mm` -/

theorem SpaceOk.ne_zero {B : ℕ → Prop} {sp : Space} {t : ColorTree Ptr} (h : SpaceOk B sp t m)
    {p : Ptr} (hp : p ∈ t.inorder) : p ≠ 0#64 := by
  obtain ⟨path, c, l, r, rfl⟩ := exists_plug_of_mem hp
  exact (represents_plug.mp h.repr).2.2.1.1.1

theorem eq_nil_of_inorder : ∀ {t : ColorTree Ptr}, t.inorder = [] → t = .nil
  | .nil, _ => rfl
  | .node _ l a r, h => by
    rw [inorder_node] at h
    exact absurd h (List.append_ne_nil_of_right_ne_nil _ (List.cons_ne_nil a _))

/-- The first area. -/
theorem WorldOk.ensures_first (h : WorldOk w T E) (hm : w.mmUsed m = true)
    (hfuel : taskSize < fuel) :
    Ensures (onVmas m (do rbLeftmost fuel (← root))) w fun r w' =>
      w' = w ∧ r = firstPtr (T m).inorder := by
  have hsp := h.areas.space m hm
  have hroot : (w.mm m).vma.root = rootPtr (T m) := hsp.repr.root
  simp only [ensures_onVmas, ensures_bind, ensures_root, hroot]
  have hrepr : Represents (w.mm m).vma (plug [] (T m)) := hsp.repr
  refine (ensures_rbLeftmost hrepr (lt_of_le_of_lt hsp.length_le hfuel)).mono ?_
  rintro r b ⟨rfl, rfl⟩
  exact ⟨withSpace_self w m, rfl⟩

/-- The area after another. -/
theorem WorldOk.ensures_next (h : WorldOk w T E) (hm : w.mmUsed m = true) {p : Ptr}
    {l₁ l₂ : List Ptr} (hsplit : (T m).inorder = l₁ ++ p :: l₂) (hfuel : taskSize < fuel) :
    Ensures (onVmas m (rbNext fuel p)) w fun r w' => w' = w ∧ r = firstPtr l₂ := by
  have hsp := h.areas.space m hm
  rw [ensures_onVmas]
  refine (ensures_rbNext hsp.repr hsplit (lt_of_le_of_lt hsp.length_le hfuel)).mono ?_
  rintro r b ⟨rfl, rfl⟩
  exact ⟨withSpace_self w m, rfl⟩

/-- The loop of `unmap_all_vma`: at each turn the first area goes. -/
theorem WorldOk.ensures_unmapAllLoop (hfuel : taskSize + 1 < fuel) (n : ℕ) :
    ∀ {w : World} {T : ℕ → ColorTree Ptr}, WorldOk w T E →
      (forestOf w T E).Counted w.phys x → w.mmUsed m = true → (T m).inorder.length < n →
      Ensures (unmapAllLoop fuel m n (firstPtr (T m).inorder)) w fun _ w' =>
        Drops m x w T E w' .nil := by
  induction n with
  | zero => exact fun _ _ _ hn => absurd hn (Nat.not_lt_zero _)
  | succ n ih =>
    intro w T h hc hm hn
    rw [unmapAllLoop]
    cases hin : (T m).inorder with
    | nil =>
      rw [firstPtr_nil, if_pos rfl]
      have := h.drops_self hc m
      rw [eq_nil_of_inorder hin] at this
      exact ensures_pure.2 this
    | cons p l =>
      have hp : p ∈ (T m).inorder := by
        rw [hin]
        exact List.mem_cons_self
      rw [firstPtr_cons, if_neg ((h.areas.space m hm).ne_zero hp)]
      simp only [ensures_bind, ensures_get]
      have hcut : (T m).inorder = [] ++ p :: l := hin
      have hfuel' : taskSize < fuel := by omega
      refine (h.ensures_next hm hcut hfuel').mono ?_
      rintro r w₀ ⟨rfl, rfl⟩
      refine (h.ensures_munmap_whole hc hm hp hfuel).mono ?_
      rintro - w₁ ⟨t, hdrops, hin₁, -⟩
      rw [hin, List.erase_cons_head] at hin₁
      have hself : Function.update T m t m = t := Function.update_self _ _ _
      rw [hin, List.length_cons] at hn
      have hrest := ih (w := w₁) (T := Function.update T m t) hdrops.ok hdrops.counted
        (hdrops.touches.mmUsed ▸ hm) (by rw [hself, hin₁]; omega)
      rw [hself, hin₁] at hrest
      exact hrest.mono fun _ w₂ hw₂ => hdrops.trans hw₂

/-- What is left when an address space is gone. -/
structure Released (m : ℕ) (x : Pfn → ℕ) (w : World) (T : ℕ → ColorTree Ptr)
    (E : ℕ → ℕ → ℕ → Pte) (w' : World) : Prop where
  mmUsed : w'.mmUsed = Function.update w.mmUsed m false
  other : ∀ m', m' ≠ m → w'.mm m' = w.mm m'
  zeroPage : w'.zeroPage = w.zeroPage
  ok : WorldOk w' (Function.update T m .nil) E
  counted : (forestOf w' (Function.update T m .nil) E).Counted w'.phys x
  freed : ∀ p, (forestOf w T E).Held w.phys p →
    ¬(forestOf w' (Function.update T m .nil) E).Held w'.phys p → x p = 0 → w'.phys.free p = true

/-- The forest without an address space. -/
theorem forestOf_destroy (hused : w'.mmUsed = Function.update w.mmUsed m false)
    (hmm : w'.mm = w.mm) (hzero : w'.zeroPage = w.zeroPage) :
    forestOf w' T E = (forestOf w T E).without m := by
  have hlive : {m' | w'.mmUsed m' = true} = {m' | w.mmUsed m' = true} \ {m} := by
    ext m'
    rw [Set.mem_sdiff, Set.mem_ofPred_eq, hused, Set.mem_ofPred_eq, Set.mem_singleton_iff]
    by_cases hne : m' = m
    · simp [hne]
    · simp [hne]
  rw [forestOf, hlive, hmm, hzero]
  rfl

theorem AreasOk.destroy (h : AreasOk Aligned w T)
    (hused : w'.mmUsed = Function.update w.mmUsed m false) (hmm : w'.mm = w.mm)
    (hvma : w'.vmaUsed = w.vmaUsed) : AreasOk Aligned w' T := by
  have hold : ∀ m', w'.mmUsed m' = true → w.mmUsed m' = true := fun m' hm' => by
    rw [hused] at hm'
    by_cases hne : m' = m
    · rw [hne, Function.update_self] at hm'
      exact absurd hm' Bool.false_ne_true
    · rwa [Function.update_of_ne hne] at hm'
  refine ⟨fun m' hm' => ?_, fun m' hm' p hp => ?_, fun m₁ m₂ p hm₁ hm₂ =>
    h.apart m₁ m₂ p (hold m₁ hm₁) (hold m₂ hm₂)⟩
  · rw [hmm]
    exact h.space m' (hold m' hm')
  · rw [hvma]
    exact h.used m' (hold m' hm') p hp

/-- **`release_mm`** unmaps all areas and frees the top table. -/
theorem WorldOk.ensures_releaseMm (h : WorldOk w T E) (hc : (forestOf w T E).Counted w.phys x)
    (hm : w.mmUsed m = true) (hfuel : taskSize + 1 < fuel) :
    Ensures (releaseMm fuel m) w fun _ w' => Released m x w T E w' := by
  rw [releaseMm, unmapAllVma]
  simp only [ensures_bind]
  refine (h.ensures_first hm (by omega)).mono ?_
  rintro r w₀ ⟨rfl, rfl⟩
  refine (WorldOk.ensures_unmapAllLoop hfuel fuel h hc hm
    (lt_of_le_of_lt (h.areas.space m hm).length_le (by omega))).mono ?_
  intro _ w₁ hdrops
  have hm₁ : m ∈ (forestOf w₁ (Function.update T m .nil) E).live :=
    (congrFun hdrops.touches.mmUsed m).trans hm
  have hroot3 : (forestOf w₁ (Function.update T m .nil) E).LiveAt m 3 0 := Or.inl ⟨rfl, rfl⟩
  have hbusy : w₁.phys.free (w₁.mm m).pt = false := (hdrops.ok.pages.tables m hm₁).busy 3 0 hroot3
  have hdom : (forestOf w₁ (Function.update T m .nil) E).dom m = ∅ := by
    change pagesOf (w₁.mm m) (Function.update T m .nil m) = ∅
    rw [Function.update_self, pagesOf_nil]
  have hkeeps := hdrops.ok.pages.keeps_destroy hm₁ hdom
  simp only [ensures_get, ensures_onPhys, freePages, ensures_bind, hbusy, Bool.false_eq_true,
    if_false, ensures_modify, freeMm]
  set w₂ : World :=
    { w₁ with
      phys := { w₁.phys with free := Function.update w₁.phys.free (w₁.mm m).pt true }
      mmUsed := Function.update w₁.mmUsed m false } with hw₂
  have hforest : forestOf w₂ (Function.update T m .nil) E = _ :=
    forestOf_destroy (w := w₁) (T := Function.update T m .nil) (E := E) rfl rfl rfl
  have hreleased : Released m x w₀ T E w₂ := by
    refine ⟨?_, fun m' hne => hdrops.touches.other m' hne, hdrops.touches.zeroPage,
      ⟨hdrops.ok.areas.destroy rfl rfl rfl, ?_⟩, ?_, fun p hp hn hx => ?_⟩
    · rw [hw₂, ← hdrops.touches.mmUsed]
    · rw [hforest]
      exact hkeeps.ok
    · rw [hforest]
      exact hkeeps.counted hdrops.ok.pages hdrops.counted
    · rw [hforest] at hn
      have hfree := hdrops.freed p hp (fun hc => hn ((hkeeps.held p).2 hc)) hx
      change Function.update w₁.phys.free (w₁.mm m).pt true p = true
      by_cases hpt : p = (w₁.mm m).pt
      · rw [hpt, Function.update_self]
      · rw [Function.update_of_ne hpt]
        exact hfree
  exact hreleased

end

end Mm

end Kernel64
