import Kernel64.Mm.Atomic

/-!
# Areas and page tables in step

`__munmap` takes the references of its whole range from the page tables, and only then looks for
areas in it. The two agree as long as every page of the range is inside an area: then the tables go
down to level 0 for every page of an area, and each counts the pages of the areas below it. A page
outside the areas has no references to give back.
-/

namespace Kernel64

namespace Mm

open Paging Rb ColorTree

section

variable {w w' : World} {T : ℕ → ColorTree Ptr} {E : ℕ → ℕ → ℕ → Pte} {m a b fuel perm : ℕ}
  {x : Pfn → ℕ}

/-- The pages of the areas below a table at level `k`. -/
def pagesBelow (sp : Space) (t : ColorTree Ptr) (k g : ℕ) : Set ℕ :=
  {q | q ∈ pagesOf sp t ∧ q / 512 ^ (k + 1) = g}

/-- **The areas and the page tables of an address space are in step.** -/
structure InStep (w : World) (m : ℕ) (t : ColorTree Ptr) : Prop where
  areas : SpaceOk Aligned (w.mm m) t m
  leaf : ∀ q ∈ pagesOf (w.mm m) t, (ptIterSet w.phys.table (w.mm m).pt (4096 * q)).level = 0
  table : ∀ k g, k < 3 → g < 256 * 512 ^ (2 - k) →
    ((tableAt w.phys (w.mm m).pt k g).isSome ↔ (pagesBelow (w.mm m) t k g).Nonempty)
  count : ∀ k g p, k < 3 → g < 256 * 512 ^ (2 - k) → tableAt w.phys (w.mm m).pt k g = some p →
    (w.phys.u p).toNat = (pagesBelow (w.mm m) t k g).ncard ∧ w.phys.free p = false

theorem WorldOk.inStep (h : WorldOk w T E) (hm : w.mmUsed m = true) : InStep w m (T m) := by
  have hok : PtOk w.phys (w.mm m).pt (E m) (counts (pagesOf (w.mm m) (T m))) := h.pages.tables m hm
  refine ⟨h.areas.space m hm, fun q hq => ?_, fun k g hk hg => ?_, fun k g p hk hg hp => ?_⟩
  · have hlt : q < userPages := h.pages.user (q := q) hm hq
    rw [hok.ptIterSet_eq (leaf_pos_of_mem hq) hlt]
    rfl
  · have hiff : 0 < load (counts (pagesOf (w.mm m) (T m))) k g ↔
        (pagesBelow (w.mm m) (T m) k g).Nonempty := load_counts_pos hk
    rw [hok.tableAt_eq hk hg, ← hiff]
    split_ifs with hl <;> simp [hl]
  · rw [hok.tableAt_eq hk hg] at hp
    split_ifs at hp with hl
    obtain rfl := Option.some.inj hp
    have hlive := (live_iff_of_lt hk).2 hl
    have hbusy := hok.busy k g hlive
    rw [tab_of_lt hk] at hbusy
    refine ⟨?_, hbusy⟩
    rw [hok.count k g hk hl, BitVec.toNat_ofNat, Nat.mod_eq_of_lt (load_counts_lt hk),
      load_counts hk]
    rfl

/-! ### Runs -/

/-- Every page of a range lies in an area: `__lookup_vma` finds one. -/
def Covered (w : World) (m a b : ℕ) : Prop :=
  ∀ q, a ≤ q → q < b →
    ∃ p, lookupVma (taskSize + 1) m (4096 * q) (4096 * q + 1) w = .ok (.hit p, w)

theorem AreasOk.mem_of_covered (h : AreasOk Aligned w T) (hm : w.mmUsed m = true)
    (hc : Covered w m a b) {q : ℕ} (h₁ : a ≤ q) (h₂ : q < b) : q ∈ pagesOf (w.mm m) (T m) := by
  obtain ⟨p, hp⟩ := hc q h₁ h₂
  obtain ⟨r, w', hrun, -, hhit, -⟩ := h.lookupVma_hit_iff hm
    (show 4096 * q < 4096 * q + 1 by omega) (show taskSize < taskSize + 1 by omega)
  rw [hp] at hrun
  obtain ⟨rfl, rfl⟩ := Prod.mk.inj (Except.ok.inj hrun)
  obtain ⟨hmem, hlt, hle⟩ := hhit p rfl
  exact ⟨p, hmem, by omega, hlt⟩

/-- A call that returns, on a range of pages; a range to unmap is covered by areas. -/
inductive CoveredStep : World → World → Prop
  | mmap {w w' : World} {fuel m a b perm : ℕ} {rc : ℤ} (hm : w.mmUsed m = true) (hab : a < b)
      (hb : b ≤ userPages) (hfuel : taskSize + 1 < fuel)
      (hrun : Mm.mmap fuel m (4096 * a) (4096 * b) perm w = .ok (rc, w')) : CoveredStep w w'
  | munmap {w w' : World} {fuel m a b : ℕ} (hm : w.mmUsed m = true) (hab : a < b)
      (hb : b ≤ userPages) (hfuel : taskSize + 1 < fuel) (hcover : Covered w m a b)
      (hrun : Mm.munmap fuel m (4096 * a) (4096 * b) w = .ok ((), w')) : CoveredStep w w'

/-- Areas and tables are in step, and the counters of mapped pages are right. -/
def Sound (w : World) (T : ℕ → ColorTree Ptr) (E : ℕ → ℕ → ℕ → Pte) : Prop :=
  WorldOk w T E ∧ ∃ x, (forestOf w T E).Counted w.phys x

theorem Sound.mmap (h : Sound w T E) (hm : w.mmUsed m = true) (hab : a < b) (hb : b ≤ userPages)
    (hfuel : taskSize < fuel) :
    Ensures (mmap fuel m (4096 * a) (4096 * b) perm) w fun _ w' => ∃ T' E', Sound w' T' E' := by
  obtain ⟨hok, x, hc⟩ := h
  refine (hok.ensures_mmap hm hab hb hfuel).mono ?_
  rintro rc w' (⟨-, t, E', -, hok', hkeeps⟩ | ⟨-, -, -, -, E', hok', hkeeps⟩)
  · exact ⟨_, _, hok', x, hkeeps.counted hok.pages hc⟩
  · exact ⟨_, _, hok', x, hkeeps.counted hok.pages hc⟩

theorem Sound.munmap (h : Sound w T E) (hm : w.mmUsed m = true) (hab : a < b)
    (hcover : Covered w m a b) (hfuel : taskSize + 1 < fuel) :
    EnsuresUnless (Starved fuel w) (munmap fuel m (4096 * a) (4096 * b)) w
      fun _ w' => ∃ T' E', Sound w' T' E' := by
  obtain ⟨hok, x, hc⟩ := h
  refine (hok.ensures_munmap hc hm hab (fun q => hok.areas.mem_of_covered hm hcover) hfuel).mono
    And.left ?_
  intro _ w' ⟨t, hdrops, _⟩
  exact ⟨_, _, hdrops.ok, x, hdrops.counted⟩

theorem Sound.step (h : Sound w T E) (hstep : CoveredStep w w') : ∃ T' E', Sound w' T' E' := by
  cases hstep with
  | mmap hm hab hb hfuel hrun => exact (h.mmap hm hab hb (by omega)).yields _ _ hrun
  | munmap hm hab hb hfuel hcover hrun => exact (h.munmap hm hab hcover hfuel).yields _ _ hrun

theorem Sound.run (h : Sound w T E) (hrun : Relation.ReflTransGen CoveredStep w w') :
    ∃ T' E', Sound w' T' E' := by
  induction hrun with
  | refl => exact ⟨T, E, h⟩
  | tail _ hstep ih =>
    obtain ⟨T₁, E₁, h₁⟩ := ih
    exact h₁.step hstep

/-- **Areas and page tables stay in step** in every run in which the ranges to unmap are covered by
areas; the next call returns too, and a call of `__munmap` waits for nothing but memory. -/
theorem covered_runs_inStep (h : Sound w T E) (hrun : Relation.ReflTransGen CoveredStep w w') :
    (∃ T' : ℕ → ColorTree Ptr, ∀ m, w'.mmUsed m = true → InStep w' m (T' m)) ∧
    ∀ fuel m a b, w'.mmUsed m = true → a < b → b ≤ userPages → taskSize + 1 < fuel →
      (∀ perm, Ensures (mmap fuel m (4096 * a) (4096 * b) perm) w' fun _ _ => True) ∧
      (Covered w' m a b → EnsuresUnless (Starved fuel w')
        (munmap fuel m (4096 * a) (4096 * b)) w' fun _ _ => True) := by
  obtain ⟨T', E', h'⟩ := h.run hrun
  refine ⟨⟨T', fun m hm => h'.1.inStep hm⟩, fun fuel m a b hm hab hb hfuel => ⟨fun perm => ?_,
    fun hcover => ?_⟩⟩
  · exact (h'.mmap hm hab hb (by omega)).mono fun _ _ _ => trivial
  · exact (h'.munmap hm hab hcover hfuel).mono id fun _ _ _ => trivial

/-! ### A new address space -/

/-- Address spaces without areas whose tables are empty. -/
structure Empty (w : World) : Prop where
  noAreas : NoAreas w
  zero : ∀ m, w.mmUsed m = true → ∀ i < 256, w.phys.table (w.mm m).pt i = .zero
  busy : ∀ m, w.mmUsed m = true → w.phys.free (w.mm m).pt = false ∧ (w.mm m).pt < maxFrames ∧
    (w.mm m).pt ≠ w.zeroPage
  apart : ∀ m m', w.mmUsed m = true → w.mmUsed m' = true → (w.mm m).pt = (w.mm m').pt → m = m'
  freeLow : ∀ p, w.phys.free p = true → p < maxFrames
  zeroPage : w.phys.free w.zeroPage = false ∧ w.zeroPage < maxFrames ∧ w.phys.u w.zeroPage = 1#64

/-- Nothing is mapped, and only `zero_page` is counted. -/
theorem Empty.worldOk (h : Empty w) : WorldOk w (fun _ => .nil) E ∧
    (forestOf w (fun _ => .nil) E).Counted w.phys fun _ => 0 := by
  set F := forestOf w (fun _ => .nil) E with hF
  have hdom : ∀ m q, q ∉ F.dom m := fun m q ⟨_, hp, _⟩ => List.not_mem_nil hp
  have hlive : ∀ m k g, F.LiveAt m k g → k = 3 ∧ g = 0 := by
    rintro m k g (htop | ⟨hk, hl⟩)
    · exact htop
    · obtain ⟨q, hq, -⟩ := (load_counts_pos hk).1 hl
      exact absurd hq (hdom m q)
  have htable : ∀ p, F.IsTable p → ∃ m, w.mmUsed m = true ∧ (w.mm m).pt = p := by
    rintro p ⟨m, hm, k, g, hl, rfl⟩
    obtain ⟨rfl, rfl⟩ := hlive m k g hl
    exact ⟨m, hm, rfl⟩
  have hframe : ∀ i, F.frame w.phys i = none := fun ⟨m, q⟩ =>
    Forest.frame_eq_none fun _ hq => absurd hq (hdom m q)
  have hzero : F.Mappable w.phys F.zero := by
    refine ⟨fun hc => ?_, h.zeroPage.1, h.zeroPage.2.1⟩
    obtain ⟨m, hm, heq⟩ := htable _ hc
    exact (h.busy m hm).2.2 heq
  have hok : F.Ok w.phys := by
    refine ⟨fun m hm => ptOk_noAreas (h.zero m hm) (h.busy m hm).1 _, ?_, ?_, h.freeLow, ?_, ?_,
      hzero⟩
    · intro m hm m' hm' k g k' g' hl hl' heq
      obtain ⟨rfl, rfl⟩ := hlive m k g hl
      obtain ⟨rfl, rfl⟩ := hlive m' k' g' hl'
      exact h.apart m m' hm hm' heq
    · intro p hp
      obtain ⟨m, hm, rfl⟩ := htable p hp
      exact (h.busy m hm).2.1
    · intro m hm q hl
      exact absurd (hlive m 0 _ hl).1 (by omega)
    · intro i p hi
      rw [hframe] at hi
      exact nomatch hi
  refine ⟨⟨h.noAreas.areasOk, hok⟩, fun p hp => ?_⟩
  have hrefs : refs (F.frame w.phys) p = 0 := by
    rw [refs_eq_zero_iff hok.sparse]
    intro i hi
    rw [hframe] at hi
    exact nomatch hi
  have heq : p = F.zero := hp.resolve_left fun hc => absurd hc (by rw [hrefs]; exact lt_irrefl 0)
  rw [Forest.total, hrefs, heq, if_pos rfl]
  exact congrArg BitVec.toNat h.zeroPage.2.2

theorem Empty.sound (h : Empty w) : Sound w (fun _ => .nil) E := ⟨h.worldOk.1, _, h.worldOk.2⟩

/-- A state with one address space, no areas, and little memory. -/
def smallSpace : World :=
  { oneSpace with
    phys := ⟨fun _ => 1#64, fun _ _ => .zero, fun _ _ => 0, fun p => 2 ≤ p ∧ p < 64,
      fun n => some (n + 2, 0#64)⟩ }

theorem one_lt_maxFrames : 1 < maxFrames := by norm_num [maxFrames]

theorem empty_smallSpace : Empty smallSpace where
  noAreas := fun _ _ => rfl
  zero := fun _ _ _ _ => rfl
  busy := fun _ _ => ⟨rfl, one_lt_maxFrames, Nat.one_ne_zero⟩
  apart := fun m m' hm hm' _ => by
    have h₁ : m = 0 := of_decide_eq_true hm
    have h₂ : m' = 0 := of_decide_eq_true hm'
    rw [h₁, h₂]
  freeLow := fun p hp => by
    have hlt : 2 ≤ p ∧ p < 64 := of_decide_eq_true hp
    exact hlt.2.trans (by norm_num [maxFrames])
  zeroPage := ⟨rfl, Nat.zero_lt_one.trans one_lt_maxFrames, rfl⟩

/-- `__munmap` of a page outside the areas fails its assertion. -/
theorem munmap_uncovered_faults : Empty smallSpace ∧ smallSpace.mmUsed 0 = true ∧
    Faults (munmap (taskSize + 2) 0 (4096 * 0) (4096 * 1)) smallSpace .assertion :=
  ⟨empty_smallSpace, rfl, rfl⟩

theorem covered_runs_inStep_smallSpace :
    ∃ w', mmap (taskSize + 2) 0 (4096 * 0) (4096 * 1) 0 smallSpace = .ok (0, w') ∧
      ∃ T' : ℕ → ColorTree Ptr, ∀ m, w'.mmUsed m = true → InStep w' m (T' m) := by
  have hreturns : returns (mmap (taskSize + 2) 0 (4096 * 0) (4096 * 1) 0) smallSpace
      (fun rc _ => decide (rc = 0)) = true := by decide +kernel
  obtain ⟨rc, w', hrun, hrc⟩ := returns_iff.1 hreturns
  obtain rfl := of_decide_eq_true hrc
  have hstep : CoveredStep smallSpace w' := .mmap rfl (by omega) (by decide) (by omega) hrun
  exact ⟨w', hrun, (covered_runs_inStep (empty_smallSpace.sound (E := fun _ _ _ => .zero))
    (.single hstep)).1⟩

end

end Mm

end Kernel64
