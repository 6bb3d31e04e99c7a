import Kernel64.Kmap.Setup

/-!
# Runs of `kmap` and `kunmap`

After any calls, the windows that are in use lie in the area, apart from each other, and translate to their
pages; no other page of the area is mapped. Each call may run on top tables of its own, as long as they share
those of the kernel.
-/

namespace Kernel64

namespace Paging

open Segment

/-- A window that `kmap` has returned, with its pages. -/
structure Window where
  addr : ℕ
  pages : List Pfn
  deriving DecidableEq

namespace Window

/-- The number of the first page of a window in the area. -/
def start (w : Window) : ℕ := virt2kmap w.addr

/-- The range of a window. -/
def segment (w : Window) : Segment := ⟨w.start, w.pages.length, false⟩

/-- The address after a window. -/
def stop (w : Window) : ℕ := w.addr + w.pages.length * pageSize

end Window

/-- **Runs** of `kmap` and `kunmap` of windows in use, with the windows in use. -/
inductive KmapRun (roots : Set Pfn) (k₀ : Kmap) : List Window → Kmap → Prop
  | start : KmapRun roots k₀ [] k₀
  | kmap {ws : List Window} {k k' : Kmap} {root : Pfn} {pages : List Pfn} {addr : ℕ} :
      KmapRun roots k₀ ws k → root ∈ roots → pages ≠ [] →
      Paging.kmap root pages k = Except.ok (some addr, k') → KmapRun roots k₀ (⟨addr, pages⟩ :: ws) k'
  | full {ws : List Window} {k k' : Kmap} {root : Pfn} {pages : List Pfn} :
      KmapRun roots k₀ ws k → root ∈ roots → pages ≠ [] →
      Paging.kmap root pages k = Except.ok (none, k') → KmapRun roots k₀ ws k'
  | kunmap {ws : List Window} {k k' : Kmap} {root : Pfn} {w : Window} :
      KmapRun roots k₀ ws k → root ∈ roots → w ∈ ws → Paging.kunmap root w.addr k = Except.ok ((), k') →
      KmapRun roots k₀ (ws.erase w) k'

/-- The entry that `kmap` writes. -/
def windowEntry (page : Pfn) : Pte := pageEntry page ⟨true, false, false, false⟩

/-- **The invariant of the windows.** -/
structure WindowsOk (k : Kmap) (roots : Set Pfn) (e3 e2 : Pte) (e1 : ℕ → Pte) (ws : List Window) : Prop where
  tables : KmapTables k.phys roots e3 e2 e1
  ranges : ∃ l, RangesOk k l ∧ ∀ g : Segment, g.free = false → (g ∈ l ↔ ∃ w ∈ ws, w.segment = g)
  addr : ∀ w ∈ ws, w.addr = kmap2virt w.start
  nodup : (ws.map Window.start).Nodup
  mapped : ∀ w ∈ ws, ∀ i (hi : i < w.pages.length),
    leafEntry k.phys e1 (w.start + i) = windowEntry w.pages[i]
  absent : ∀ j < kmapPages, (∀ w ∈ ws, ¬(w.start ≤ j ∧ j < w.start + w.pages.length)) →
    leafEntry k.phys e1 j = .zero

section

variable {k k' k₀ : Kmap} {roots : Set Pfn} {root pml4 : Pfn} {e3 e2 : Pte} {e1 : ℕ → Pte}
  {ws : List Window} {w w' : Window} {pages : List Pfn}

theorem virt2kmap_kmap2virt (r : ℕ) : virt2kmap (kmap2virt r) = r := by
  unfold virt2kmap kmap2virt
  rw [Nat.add_sub_cancel_left]
  exact Nat.mul_div_cancel _ (by decide)

/-! ### Windows in use -/

theorem WindowsOk.eq_of_start (h : WindowsOk k roots e3 e2 e1 ws) (hw : w ∈ ws) (hw' : w' ∈ ws)
    (hstart : w.start = w'.start) : w = w' :=
  List.inj_on_of_nodup_map h.nodup hw hw' hstart

theorem WindowsOk.bounds (h : WindowsOk k roots e3 e2 e1 ws) (hw : w ∈ ws) :
    w.start + w.pages.length ≤ kmapPages ∧ 0 < w.pages.length := by
  obtain ⟨l, hl, hused⟩ := h.ranges
  exact (hl.row.bounds ((hused w.segment rfl).2 ⟨w, hw, rfl⟩)).2

theorem WindowsOk.apart (h : WindowsOk k roots e3 e2 e1 ws) (hw : w ∈ ws) (hw' : w' ∈ ws) (hne : w ≠ w') :
    w.start + w.pages.length ≤ w'.start ∨ w'.start + w'.pages.length ≤ w.start := by
  obtain ⟨l, hl, hused⟩ := h.ranges
  by_contra hc
  refine hne (h.eq_of_start hw hw' ?_)
  have hb := h.bounds hw
  have hb' := h.bounds hw'
  have hmem := (hused w.segment rfl).2 ⟨w, hw, rfl⟩
  have hmem' := (hused w'.segment rfl).2 ⟨w', hw', rfl⟩
  have hseg := hl.row.eq_of_mem hmem hmem' (x := max w.start w'.start)
    (by unfold Window.segment Segment.stop; dsimp only; omega)
    (by unfold Window.segment Segment.stop; dsimp only; omega)
  exact congrArg Segment.start hseg

/-! ### The calls -/

/-- **`kmap`** -/
theorem WindowsOk.ensures_kmap (h : WindowsOk k roots e3 e2 e1 ws) (hroot : root ∈ roots)
    (hpages : pages ≠ []) :
    Ensures (kmap root pages) k fun o k' =>
      (o = none ∧ k' = k) ∨ ∃ addr, o = some addr ∧ WindowsOk k' roots e3 e2 e1 (⟨addr, pages⟩ :: ws) ∧
        OffArea e1 k.phys k'.phys := by
  obtain ⟨l, hl, hused⟩ := h.ranges
  have hn := List.length_pos_of_ne_nil hpages
  unfold kmap
  rw [ensures_bind]
  refine (hl.ensures_kmapAllocRange hn).mono ?_
  rintro o k₁ ⟨hphys, halloc⟩
  cases halloc with
  | none hk => exact ensures_pure.2 (Or.inl ⟨rfl, hk⟩)
  | @some r l' hl' hnew hused' =>
    have hmem : (⟨r, pages.length, false⟩ : Segment) ∈ l' := (hused' _ rfl).2 (Or.inl rfl)
    have hr := (hl'.row.bounds hmem).2.1
    unfold Segment.stop at hr
    dsimp only at hr ⊢
    have htables : KmapTables k₁.phys roots e3 e2 e1 := by
      rw [hphys]
      exact h.tables
    rw [ensures_bind, ensures_onMemory]
    refine (htables.ensures_slots hroot hn hr (f := fun i => windowEntry (pages[i]?.getD 0)) ?_).mono ?_
    · intro i it hi
      rw [List.getElem?_eq_getElem hi]
      rfl
    intro _ s₂ ⟨htables₂, hoff, hleaf⟩
    -- the new window is none of the others
    have hdiff : ∀ w ∈ ws, w.start ≠ r := by
      intro w hw hc
      have hw' : w.segment ∈ l := (hused _ rfl).2 ⟨w, hw, rfl⟩
      have := hl'.row.eq_of_start ((hused' w.segment rfl).2 (Or.inr hw')) hmem hc
      rw [this] at hw'
      exact hnew hw'
    have hover : ∀ w ∈ ws, w.start + w.pages.length ≤ r ∨ r + pages.length ≤ w.start := by
      intro w hw
      by_contra hc
      have hw' : w.segment ∈ l' := (hused' _ rfl).2 (Or.inr ((hused _ rfl).2 ⟨w, hw, rfl⟩))
      have hb := h.bounds hw
      have hseg := hl'.row.eq_of_mem hw' hmem (x := max w.start r)
        (by unfold Window.segment Segment.stop; dsimp only; omega)
        (by unfold Segment.stop; dsimp only; omega)
      exact hdiff w hw (congrArg Segment.start hseg)
    have hstart : (⟨kmap2virt r, pages⟩ : Window).start = r := virt2kmap_kmap2virt r
    rw [hphys] at hoff
    refine ensures_pure.2 (Or.inr ⟨_, rfl,
      ⟨htables₂, ⟨l', ⟨hl'.row, hl'.tagged, hl'.listed.congr rfl⟩, ?_⟩, ?_, ?_, ?_, ?_⟩, hoff⟩)
    · intro g hg
      rw [hused' g hg, hused g hg]
      constructor
      · rintro (rfl | ⟨w, hw, rfl⟩)
        · exact ⟨⟨kmap2virt r, pages⟩, List.mem_cons_self, by unfold Window.segment; rw [hstart]⟩
        · exact ⟨w, List.mem_cons_of_mem _ hw, rfl⟩
      · rintro ⟨w, hw, rfl⟩
        rcases List.mem_cons.1 hw with rfl | hw
        · refine Or.inl ?_
          unfold Window.segment
          rw [hstart]
        · exact Or.inr ⟨w, hw, rfl⟩
    · intro w hw
      rcases List.mem_cons.1 hw with rfl | hw
      · rw [hstart]
      · exact h.addr w hw
    · rw [List.map_cons, List.nodup_cons, hstart]
      refine ⟨fun hc => ?_, h.nodup⟩
      obtain ⟨w, hw, hwr⟩ := List.mem_map.1 hc
      exact hdiff w hw hwr
    · intro w hw i hi
      rcases List.mem_cons.1 hw with rfl | hw
      · dsimp only at hi ⊢
        rw [hstart, hleaf _ (by omega), if_pos (by omega), Nat.add_sub_cancel_left,
          List.getElem?_eq_getElem hi, Option.getD_some]
      · have hb := h.bounds hw
        have ho := hover w hw
        dsimp only
        rw [hleaf _ (by omega), if_neg (by omega), hphys]
        exact h.mapped w hw i hi
    · intro j hj hout
      have hnot := hout _ List.mem_cons_self
      rw [hstart] at hnot
      dsimp only at hnot ⊢
      rw [hleaf j hj, if_neg hnot, hphys]
      exact h.absent j hj fun w hw => hout w (List.mem_cons_of_mem _ hw)

/-- **`kunmap`** -/
theorem WindowsOk.ensures_kunmap (h : WindowsOk k roots e3 e2 e1 ws) (hroot : root ∈ roots) (hw : w ∈ ws) :
    Ensures (kunmap root w.addr) k fun _ k' => WindowsOk k' roots e3 e2 e1 (ws.erase w) ∧
      OffArea e1 k.phys k'.phys := by
  obtain ⟨l, hl, hused⟩ := h.ranges
  have hmem : w.segment ∈ l := (hused w.segment rfl).2 ⟨w, hw, rfl⟩
  have htag := (hl.tagged w.segment hmem).1
  have hb := h.bounds hw
  have htag' : k.pages (virt2kmap w.addr) = w.pages.length := htag
  have hlt : virt2kmap w.addr < kmapPages := by
    have : w.start = virt2kmap w.addr := rfl
    omega
  unfold kunmap
  rw [ensures_bind, ensures_loadPages hlt, htag', ensures_bind, ensures_onMemory, h.addr w hw]
  refine (h.tables.ensures_slots hroot hb.2 hb.1 (f := fun _ => .zero) fun _ _ _ => rfl).mono ?_
  intro _ s₁ ⟨htables₁, hoff, hleaf⟩
  have htag₁ : k.pages w.start = w.pages.length := htag
  rw [virt2kmap_kmap2virt, ensures_bind, ensures_loadPages (r := w.start) (by omega)]
  dsimp only
  rw [htag₁]
  obtain ⟨l₁, l₂, rfl⟩ := List.append_of_mem hmem
  have hl₁ : RangesOk { k with phys := s₁ } (l₁ ++ w.segment :: l₂) := ⟨hl.row, hl.tagged, hl.listed.congr rfl⟩
  refine hl₁.pending.ensures_kmapFreeRange.mono fun _ k' ⟨hphys, l', hl', hused', _⟩ => ?_
  have hnodup : ws.Nodup := List.Nodup.of_map _ h.nodup
  have hsub : ∀ w' ∈ ws.erase w, w' ∈ ws ∧ w' ≠ w := fun w' hw' =>
    ⟨List.mem_of_mem_erase hw', ((hnodup.mem_erase_iff).1 hw').1⟩
  refine ⟨⟨?_, ⟨l', hl', ?_⟩, fun w' hw' => h.addr w' (hsub w' hw').1, ?_, ?_, ?_⟩, by rwa [hphys]⟩
  · rw [hphys]
    exact htables₁
  · intro g hg
    -- the range of the window is the only one taken from those in use
    rw [hused' g hg, hl.row.mem_others, hused g hg]
    constructor
    · rintro ⟨⟨w', hw', rfl⟩, hne⟩
      exact ⟨w', (hnodup.mem_erase_iff).2 ⟨fun hc => hne (congrArg _ hc), hw'⟩, rfl⟩
    · rintro ⟨w', hw', rfl⟩
      refine ⟨⟨w', (hsub w' hw').1, rfl⟩, fun hc => (hsub w' hw').2 ?_⟩
      exact h.eq_of_start (hsub w' hw').1 hw (congrArg Segment.start hc)
  · exact h.nodup.sublist (List.Sublist.map _ List.erase_sublist)
  · intro w' hw' i hi
    obtain ⟨hws, hne⟩ := hsub w' hw'
    have hb' := h.bounds hws
    have hap := h.apart hws hw hne
    rw [hphys]
    dsimp only
    rw [hleaf _ (by omega), if_neg (by omega)]
    exact h.mapped w' hws i hi
  · intro j hj hout
    rw [hphys]
    dsimp only
    rw [hleaf j hj]
    by_cases hin : w.start ≤ j ∧ j < w.start + w.pages.length
    · rw [if_pos hin]
    · rw [if_neg hin]
      refine h.absent j hj fun w' hw' => ?_
      by_cases hc : w' = w
      · rw [hc]
        exact hin
      · exact hout w' ((hnodup.mem_erase_iff).2 ⟨hc, hw'⟩)

/-! ### Runs -/

theorem KmapRun.windowsOk (h₀ : WindowsOk k₀ roots e3 e2 e1 []) (hrun : KmapRun roots k₀ ws k) :
    WindowsOk k roots e3 e2 e1 ws := by
  induction hrun with
  | start => exact h₀
  | kmap _ hroot hpages hcall ih =>
    rcases (ih.ensures_kmap hroot hpages).of_run hcall with ⟨hc, -⟩ | ⟨addr, hc, h', -⟩
    · exact nomatch hc
    · rw [Option.some.inj hc]
      exact h'
  | full _ hroot hpages hcall ih =>
    rcases (ih.ensures_kmap hroot hpages).of_run hcall with ⟨-, rfl⟩ | ⟨addr, hc, -⟩
    · exact ih
    · exact nomatch hc
  | kunmap _ hroot hw hcall ih => exact ((ih.ensures_kunmap hroot hw).of_run hcall).1

theorem KernelTables.windowsOk (h : KernelTables k.phys pml4) (hsetup : setupKmapMapping pml4 k = Except.ok (0, k₀))
    (hroots : ∀ root ∈ roots, Shares k₀.phys pml4 root) : ∃ e3 e2 e1, WindowsOk k₀ roots e3 e2 e1 [] := by
  obtain ⟨⟨l, hl, hfree⟩, -, htables⟩ := h.yields_setup _ _ hsetup rfl
  obtain ⟨e3, e2, e1, ht, hzero⟩ := htables roots hroots
  refine ⟨e3, e2, e1, ht, ⟨l, hl, fun g hg => ⟨fun hmem => ?_, fun ⟨w, hw, _⟩ => (nomatch hw)⟩⟩,
    fun w hw => (nomatch hw), List.nodup_nil, fun w hw => (nomatch hw), fun j hj _ => hzero j hj⟩
  rw [hfree g hmem] at hg
  exact nomatch hg

/-- **Windows of `kmap`.** After `setup_kmap_mapping` and any calls of `kmap` and `kunmap`, the windows in use
lie in the area, apart from each other, and translate to their pages, with write permission; the other pages
of the area are not present; and any further call returns. -/
theorem kmapRun_windows (h : KernelTables k.phys pml4) (hsetup : setupKmapMapping pml4 k = Except.ok (0, k₀))
    (hroots : ∀ root ∈ roots, Shares k₀.phys pml4 root) (hrun : KmapRun roots k₀ ws k') :
    (∀ w ∈ ws, kmapBase ≤ w.addr ∧ w.stop ≤ kmapBase + kmapSize) ∧
    ws.Pairwise (fun w w' => w.stop ≤ w'.addr ∨ w'.stop ≤ w.addr) ∧
    (∀ root ∈ roots, ∀ w ∈ ws, ∀ i (hi : i < w.pages.length),
      translate k'.phys.table root (w.addr + i * pageSize) = some (w.pages[i], true)) ∧
    (∀ root ∈ roots, ∀ addr, kmapBase ≤ addr → addr < kmapBase + kmapSize →
      (∀ w ∈ ws, ¬(w.addr ≤ addr ∧ addr < w.stop)) → translate k'.phys.table root addr = none) ∧
    ∀ root ∈ roots, (∀ pages ≠ [], Ensures (kmap root pages) k' fun _ _ => True) ∧
      ∀ w ∈ ws, Ensures (kunmap root w.addr) k' fun _ _ => True := by
  obtain ⟨e3, e2, e1, h₀⟩ := h.windowsOk hsetup hroots
  have hok := hrun.windowsOk h₀
  have hsize : kmapSize = kmapPages * pageSize := by decide
  refine ⟨?_, ?_, ?_, ?_, ?_⟩
  · intro w hw
    have hb := (hok.bounds hw).1
    have ha := hok.addr w hw
    have hmul := Nat.mul_le_mul_right pageSize hb
    unfold Window.stop kmap2virt at *
    rw [add_mul] at hmul
    omega
  · refine List.Pairwise.imp_of_mem ?_ (List.Nodup.of_map _ hok.nodup)
    intro w w' hw hw' hne
    have ha := hok.addr w hw
    have ha' := hok.addr w' hw'
    unfold Window.stop kmap2virt at *
    refine (hok.apart hw hw' hne).imp ?_ ?_
    all_goals
      intro hle
      have hmul := Nat.mul_le_mul_right pageSize hle
      rw [add_mul] at hmul
      omega
  · intro root hroot w hw i hi
    have hb := (hok.bounds hw).1
    have ha : w.addr + i * pageSize = kmap2virt (w.start + i) := by
      rw [hok.addr w hw]
      unfold kmap2virt
      rw [add_mul, ← add_assoc]
    have hlt : kmap2virt (w.start + i) < kmapBase + kmapSize := by
      have hmul := Nat.mul_lt_mul_of_pos_right (show w.start + i < kmapPages by omega)
        (show 0 < pageSize by decide)
      unfold kmap2virt
      omega
    rw [ha, hok.tables.translate_eq hroot (by unfold kmap2virt; omega) hlt, virt2kmap_kmap2virt,
      hok.mapped w hw i hi]
    rfl
  · intro root hroot addr hlo hhi hout
    have hj : virt2kmap addr < kmapPages := by
      unfold virt2kmap
      rw [Nat.div_lt_iff_lt_mul (by decide)]
      omega
    rw [hok.tables.translate_eq hroot hlo hhi, hok.absent _ hj]
    · rfl
    · intro w hw hin
      refine hout w hw ?_
      rw [Window.stop, hok.addr w hw]
      unfold virt2kmap pageSize at hin
      unfold kmap2virt pageSize
      omega
  · intro root hroot
    refine ⟨fun pages hpages => ?_, fun w hw => ?_⟩
    · exact (hok.ensures_kmap hroot hpages).mono fun _ _ _ => trivial
    · exact (hok.ensures_kunmap hroot hw).mono fun _ _ _ => trivial

/-- The upper tables of the kernel on the pages 1 to 3, and free pages after them. -/
def kernelArea : Kmap where
  pages _ := 0
  empty _ := false
  free _ := []
  phys :=
    { u := fun _ => 0#64
      table := fun t i => if t < 3 ∧ i = 511 then pageEntry (t + 1) kmapFlags else .zero
      bytes := fun _ _ => 0
      free := fun p => 4 ≤ p
      supply := fun n => some (n + 4, 0#64) }

theorem kernelTables_kernelArea : KernelTables kernelArea.phys 1 where
  top := ⟨rfl, rfl, rfl⟩
  pml3 := ⟨rfl, rfl, rfl⟩
  bare _ _ := rfl
  busy4 := rfl
  busy3 := rfl
  busy2 := rfl
  apart4 := by decide
  apart3 := by decide

theorem plenty_kernelArea : Plenty kernelArea.phys 4 := fun n =>
  ⟨⟨0#64, congrArg (fun p => some (p, 0#64)) (Nat.add_comm n 4)⟩, decide_eq_true (Nat.le_add_right 4 n)⟩

/-- The area with its one free range. -/
def freeArea : Kmap :=
  match kmapFreeRange 0 kmapPages kernelArea with
  | .ok (_, k) => k
  | .error _ => kernelArea

theorem setup_kernelArea : ∃ s', setupKmapMapping 1 kernelArea = Except.ok (0, { freeArea with phys := s' }) := by
  have hmodify : (modify fun s : Kmap => { s with free := fun _ => [] } : KmapM PUnit) kernelArea =
      Except.ok ((), kernelArea) := rfl
  have hfree : kmapFreeRange 0 kmapPages kernelArea = Except.ok ((), freeArea) := rfl
  have hphys : freeArea.phys = kernelArea.phys := rfl
  have hsucceeds : Succeeds (ptPopulateRange 1 kmapBase (kmapBase + kmapSize) ⟨true, false, false, true⟩)
      kernelArea.phys := plenty_kernelArea.succeeds_ptPopulateRange (by decide)
  obtain ⟨rc, s', hpopulate, rfl, -⟩ := hsucceeds
  refine ⟨s', ?_⟩
  unfold setupKmapMapping
  rw [bind_of_run hmodify, bind_of_run hfree, onMemory, hphys, hpopulate]
  rfl

/-- Two pages are mapped at the start of the area. -/
theorem kmapRun_windows_first : ∃ k₀ k', setupKmapMapping 1 kernelArea = Except.ok (0, k₀) ∧
    KmapRun {1} k₀ [⟨kmapBase, [7, 8]⟩] k' ∧
    translate k'.phys.table 1 (kmapBase + 1 * pageSize) = some (8, true) := by
  obtain ⟨s', hsetup⟩ := setup_kernelArea
  have hrange : returns (kmapAllocRange 2) { freeArea with phys := s' } (fun o _ => o = some 0) = true := rfl
  have hroots : ∀ root ∈ ({1} : Set Pfn), Shares s' 1 root := by
    rintro root rfl
    exact (kernelTables_kernelArea.yields_setup _ _ hsetup rfl).2.1
  obtain ⟨e3, e2, e1, h₀⟩ := kernelTables_kernelArea.windowsOk hsetup hroots
  have hfirst : Yields (kmap 1 [7, 8]) { freeArea with phys := s' } fun o _ => o = some kmapBase := by
    unfold kmap
    refine Yields.bind ((returns_iff.1 hrange).yields.mono fun o k₁ ho => ?_)
    obtain rfl := of_decide_eq_true ho
    exact Yields.bind (yields_true fun _ _ => yields_pure rfl)
  obtain ⟨o, k', hcall, -⟩ := h₀.ensures_kmap rfl (List.cons_ne_nil 7 [8])
  obtain rfl := hfirst _ _ hcall
  have hkmap : KmapRun {1} _ _ _ := KmapRun.start.kmap rfl (List.cons_ne_nil _ _) hcall
  have hmain := kmapRun_windows kernelTables_kernelArea hsetup hroots hkmap
  exact ⟨_, k', hsetup, hkmap, hmain.2.2.1 1 rfl _ List.mem_cons_self 1 (by decide)⟩

end

end Paging

end Kernel64
