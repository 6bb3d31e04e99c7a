import Kernel64.Mm.Fork
import Kernel64.Mm.Fresh
import Kernel64.Mm.InStep

/-!
# Counting references

In runs of all calls that map or unmap user pages, `u.refcount` of a mapped page is the number of
its mappings, with one more for `zero_page`, as long as the pages that `copy_page` allocates come
with `u.refcount` 0: it does not set the counter of the page it returns. The mappings are counted
as the processor finds them, by walking the tables of all address spaces in use.
-/

namespace Kernel64

namespace Mm

open Paging Rb ColorTree

/-- The entry of a page at level 0, when there are tables down to it. -/
def userPte (w : World) (m q : ℕ) : Option Pte :=
  (tableAt w.phys (w.mm m).pt 0 (q / 512)).map fun t => w.phys.table t (q % 512)

/-- What a page of an address space is mapped to. -/
def mappedTo (w : World) (i : ℕ × ℕ) : Option Pfn :=
  if w.mmUsed i.1 = true ∧ i.2 < userPages then
    match userPte w i.1 i.2 with
    | none => none
    | some e => if e.present then some e.pfn else none
  else none

section

variable {w w' : World} {T : ℕ → ColorTree Ptr} {E : ℕ → ℕ → ℕ → Pte} {m q fuel : ℕ}

/-- A walk down the tables finds the entry of a page, when there is a table for it. -/
theorem WorldOk.userPte_eq (h : WorldOk w T E) (hm : w.mmUsed m = true) (hq : q < userPages) :
    userPte w m q = if 0 < load (counts ((forestOf w T E).dom m)) 0 (q / 512) then
      some ((forestOf w T E).pte w.phys m q) else none := by
  have hok : PtOk w.phys (w.mm m).pt (E m) (counts ((forestOf w T E).dom m)) :=
    h.pages.tables m hm
  have hg : q / 512 < 256 * 512 ^ (2 - 0) := by
    unfold userPages at hq
    omega
  rw [userPte, hok.tableAt_eq (by omega) hg]
  split_ifs with hl
  · have htab : (forestOf w T E).tabAt m 0 (q / 512) = (E m 0 (q / 512)).pfn := tab_of_lt (by omega)
    rw [Option.map_some, Forest.pte, htab]
  · rfl

/-- The entry of a page that was asked for. -/
theorem WorldOk.userPte_of_mem (h : WorldOk w T E) (hm : w.mmUsed m = true)
    (hq : q ∈ pagesOf (w.mm m) (T m)) :
    userPte w m q = some ((forestOf w T E).pte w.phys m q) := by
  have hq' : q ∈ (forestOf w T E).dom m := hq
  rw [h.userPte_eq hm (h.pages.user hm hq'), if_pos (leaf_pos_of_mem hq')]

/-- The mappings found by walking the tables. -/
theorem WorldOk.mappedTo_eq (h : WorldOk w T E) :
    mappedTo w = (forestOf w T E).frame w.phys := by
  set F := forestOf w T E with hF
  funext ⟨m, q⟩
  by_cases hm : w.mmUsed m = true
  swap
  · rw [mappedTo, if_neg fun hc => hm hc.1, Forest.frame_eq_none fun hc => absurd hc hm]
  by_cases hq : q < userPages
  swap
  · rw [mappedTo, if_neg fun hc => hq hc.2,
      Forest.frame_eq_none fun hc hd => absurd (h.pages.user hc hd) hq]
  rw [mappedTo, if_pos ⟨hm, hq⟩, h.userPte_eq hm hq]
  by_cases hl : 0 < load (counts (F.dom m)) 0 (q / 512)
  · rw [if_pos hl]
    by_cases hd : q ∈ F.dom m
    · rw [Forest.frame_eq hm hd]
    · have habs : (F.pte w.phys m q).present = false :=
        h.pages.clear m hm q ((live_iff_of_lt (by omega)).2 hl) hd
      rw [Forest.frame_eq_none fun _ hc => absurd hc hd]
      simp only [← hF, habs, Bool.false_eq_true, if_false]
  · rw [if_neg hl, Forest.frame_eq_none fun _ hc => absurd (leaf_pos_of_mem hc) hl]

/-! ### Runs -/

/-- The calls that map or unmap user pages. -/
inductive PageCall where
  | create
  | mmap (m begin stop perm : ℕ)
  | mapFresh (m a : ℕ) (data : List Buf) (flags : PteFlags)
  | fault (m vaddr : ℕ) (access : Access)
  | copy (dst src : ℕ)
  | munmap (m a b : ℕ)
  | release (m : ℕ)

namespace PageCall

/-- What a call does. -/
def run (fuel : ℕ) : PageCall → MmM Unit
  | create => do let _ ← createMm
  | mmap m begin stop perm => do let _ ← Mm.mmap fuel m begin stop perm
  | mapFresh m a data flags => do let _ ← Mm.mapFresh fuel m (4096 * a) data flags
  | fault m vaddr access => do let _ ← mmPageFault fuel m vaddr access
  | copy dst src => do let _ ← copyMm fuel dst src
  | munmap m a b => Mm.munmap fuel m (4096 * a) (4096 * b)
  | release m => releaseMm fuel m

/-- The calls that are made: of address spaces in use, with fresh pages where nothing is mapped,
read faults where nothing is mapped, and `__munmap` of ranges inside the areas. -/
def Allowed (w : World) : PageCall → Prop
  | create => True
  | mmap m begin stop _ => w.mmUsed m = true ∧ begin < stop ∧ stop ≤ taskSize
  | mapFresh m a data _ => w.mmUsed m = true ∧ data ≠ [] ∧ Covered w m a (a + data.length) ∧
    ∀ q, a ≤ q → q < a + data.length → mappedTo w (m, q) = none
  | fault m vaddr access => w.mmUsed m = true ∧
    (access = .read → mappedTo w (m, vaddr / 4096) = none)
  | copy dst src => w.mmUsed dst = true ∧ w.mmUsed src = true
  | munmap m a b => w.mmUsed m = true ∧ a < b ∧ Covered w m a b
  | release m => w.mmUsed m = true

/-- A page that `copy_page` is about to allocate comes with no references. -/
def Clean (w : World) : PageCall → Prop
  | fault m vaddr .write => ∀ f p word, mappedTo w (m, vaddr / 4096) = some f →
    w.phys.u f ≠ 1#64 → w.phys.supply 0 = some (p, word) → w.phys.free p = true → word = 0#64
  | _ => True

end PageCall

/-- A call that returns. -/
inductive PageStep (c : PageCall) (w w' : World) : Prop
  | intro (fuel : ℕ) (hfuel : taskSize + 1 < fuel) (hallowed : c.Allowed w)
      (hrun : c.run fuel w = .ok ((), w')) : PageStep c w w'

/-- A run in which `copy_page` only gets pages without references. -/
inductive CleanRun : World → World → Prop
  | refl (w : World) : CleanRun w w
  | tail {w w₁ w₂ : World} {c : PageCall} (hrun : CleanRun w w₁) (hclean : c.Clean w₁)
      (hstep : PageStep c w₁ w₂) : CleanRun w w₂

/-- The tables count the pages of the areas, and the counters of the pages are right. -/
def RefsOk (w : World) (T : ℕ → ColorTree Ptr) (E : ℕ → ℕ → ℕ → Pte) : Prop :=
  WorldOk w T E ∧ (forestOf w T E).Counted w.phys fun _ => 0

/-- What one step keeps. -/
def Settled (w : World) (T : ℕ → ColorTree Ptr) (E : ℕ → ℕ → ℕ → Pte) (w' : World) : Prop :=
  w'.zeroPage = w.zeroPage ∧ ∃ T' E', WorldOk w' T' E' ∧
    (forestOf w T E).Settles w.phys (forestOf w' T' E') w'.phys

theorem RefsOk.create (h : RefsOk w T E) : Ensures createMm w fun _ w' => Settled w T E w' := by
  refine h.1.ensures_createMm.mono ?_
  rintro r w' (⟨m, -, hw'⟩ | ⟨-, hw'⟩)
  · exact ⟨hw'.zeroPage, _, _, hw'.ok, hw'.keeps.settles h.1.pages h.2⟩
  · exact ⟨hw'.zeroPage, _, _, hw'.ok, hw'.keeps.settles h.1.pages h.2⟩

/-- `__mmap` aligns its range itself. -/
theorem mmap_aligned {begin stop perm : ℕ} (hstop : stop ≤ taskSize) :
    mmap fuel m begin stop perm =
      mmap fuel m (4096 * (begin / 4096)) (4096 * ((stop + 4095) / 4096)) perm := by
  have hb : (stop + 4095) / 4096 ≤ userPages := by
    rw [taskSize_eq] at hstop
    omega
  have hup : alignUp stop = 4096 * ((stop + 4095) / 4096) := by
    rw [alignUp_eq hstop, alignTo, pageSize, Nat.mul_comm]
    rfl
  have hdown : alignDown begin = 4096 * (begin / 4096) := Nat.mul_comm _ _
  rw [mmap, mmap, hup, hdown, alignDown_page, alignUp_page hb]

theorem RefsOk.mmap {begin stop perm : ℕ} (h : RefsOk w T E) (hm : w.mmUsed m = true)
    (hlt : begin < stop) (hstop : stop ≤ taskSize) (hfuel : taskSize < fuel) :
    Ensures (Mm.mmap fuel m begin stop perm) w fun _ w' => Settled w T E w' := by
  rw [mmap_aligned hstop]
  have hab : begin / 4096 < (stop + 4095) / 4096 := by omega
  have hb : (stop + 4095) / 4096 ≤ userPages := by
    rw [taskSize_eq] at hstop
    omega
  refine (h.1.ensures_mmap hm hab hb hfuel).mono ?_
  rintro rc w' (⟨-, t, E', harea, hok, hkeeps⟩ | ⟨-, -, -, htouches, E', hok, hkeeps⟩)
  · exact ⟨harea.touches.zeroPage, _, _, hok, hkeeps.settles h.1.pages h.2⟩
  · exact ⟨htouches.zeroPage, _, _, hok, hkeeps.settles h.1.pages h.2⟩

theorem RefsOk.mapFresh {a : ℕ} {data : List Buf} {flags : PteFlags} (h : RefsOk w T E)
    (hm : w.mmUsed m = true) (hne : data ≠ [])
    (hdom : ∀ q, a ≤ q → q < a + data.length → q ∈ pagesOf (w.mm m) (T m))
    (habs : ∀ q, a ≤ q → q < a + data.length → mappedTo w (m, q) = none)
    (hfuel : data.length < fuel) :
    Ensures (Mm.mapFresh fuel m (4096 * a) data flags) w fun _ w' => Settled w T E w' := by
  set F := forestOf w T E with hF
  have hlive : m ∈ F.live := hm
  rw [Mm.mapFresh]
  simp only [ensures_bind, ensures_onPhys]
  refine (h.1.pages.ensures_freshPages data).mono ?_
  rintro r s₁ (⟨pages, rfl, hlen, htakes⟩ | ⟨rfl, hkeeps⟩)
  swap
  · exact ensures_pure.2 ⟨rfl, T, E, ⟨h.1.areas.withPhys s₁, hkeeps.ok⟩,
      hkeeps.settles h.1.pages h.2⟩
  have hpages : pages ≠ [] := by
    rintro rfl
    exact hne (List.length_eq_zero_iff.1 hlen.symm)
  have hpage : ∀ p ∈ pages, F.Mappable s₁ p ∧ ¬F.Held s₁ p ∧ s₁.u p = 0#64 := by
    intro p hp
    obtain ⟨h₁, h₂, h₃⟩ := htakes.page p hp
    obtain ⟨hnot, hz, hrefs⟩ := h.1.pages.of_free h₁
    refine ⟨⟨hnot, h₂, h.1.pages.freeLow p h₁⟩, fun hc => ?_, h₃⟩
    rcases (htakes.keeps.held p).1 hc with hc | hc
    · omega
    · exact hz hc
  rw [← hlen] at hdom habs hfuel
  simp only [ensures_bind, ensures_get, ensures_onPhys]
  refine (htakes.keeps.ok.ensures_mmapPages hpages ⟨hlive, hdom⟩ (fun p hp => (hpage p hp).1)
    hfuel).mono ?_
  rintro - s₂ ⟨hok, rfl⟩
  have habs₁ : ∀ q, a ≤ q → q < a + pages.length → F.frame s₁ (m, q) = none := fun q h₁ h₂ => by
    rw [htakes.keeps.frame, ← h.1.mappedTo_eq]
    exact habs q h₁ h₂
  obtain ⟨hc, hheld⟩ := htakes.keeps.ok.counted_mapMany (htakes.keeps.counted h.1.pages h.2) hlive
    hdom habs₁ htakes.nodup hpage
  refine ensures_pure.2 ⟨rfl, T, E, ⟨h.1.areas.withPhys _, hok⟩, hok, hc, fun f hf hn => ?_⟩
  exact absurd (hheld f ((htakes.keeps.held f).2 hf)) hn

theorem RefsOk.fault {vaddr : ℕ} {access : Access} (h : RefsOk w T E) (hm : w.mmUsed m = true)
    (hread : access = .read → mappedTo w (m, vaddr / 4096) = none)
    (hclean : (PageCall.fault m vaddr access).Clean w) (hfuel : taskSize < fuel) :
    Ensures (mmPageFault fuel m vaddr access) w fun _ w' => Settled w T E w' := by
  refine (h.1.ensures_mmPageFault hm hfuel).mono ?_
  rintro rc w' (⟨-, rfl, -⟩ | ⟨p, hp, hhas, s', rfl, hfault⟩)
  · exact ⟨rfl, T, E, h.1, h.1.pages.keeps_self.settles h.1.pages h.2⟩
  · rw [h.1.mappedTo_eq] at hread
    have hsettles := hfault.settles h.1.pages h.2 hm ⟨p, hp, hhas⟩ hread fun f p' word hf hu => by
      cases access with
      | read => exact absurd (hread rfl) (by rw [hf]; exact Option.some_ne_none f)
      | write =>
        rw [PageCall.Clean, h.1.mappedTo_eq] at hclean
        exact hclean f p' word hf hu
    exact ⟨rfl, T, E, ⟨h.1.areas.withPhys s', hsettles.ok⟩, hsettles⟩

theorem RefsOk.copy {dst src : ℕ} (h : RefsOk w T E) (hdst : w.mmUsed dst = true)
    (hsrc : w.mmUsed src = true) (hfuel : taskSize + 1 < fuel) :
    Ensures (copyMm fuel dst src) w fun _ w' => Settled w T E w' := by
  refine (h.1.ensures_copyMm h.2 (fun _ _ => by norm_num) hsrc hdst hfuel).mono ?_
  rintro rc w' ⟨l, T', E', hforks, -⟩
  exact ⟨hforks.touches.zeroPage, T', E', hforks.ok, hforks.ok.pages, hforks.counted,
    fun f hf hn => absurd ((hforks.held f).2 hf) hn⟩

theorem RefsOk.munmap {a b : ℕ} (h : RefsOk w T E) (hm : w.mmUsed m = true) (hab : a < b)
    (hcover : Covered w m a b) (hfuel : taskSize + 1 < fuel) :
    EnsuresUnless (Starved fuel w) (Mm.munmap fuel m (4096 * a) (4096 * b)) w
      fun _ w' => Settled w T E w' := by
  refine (h.1.ensures_munmap h.2 hm hab (fun q => h.1.areas.mem_of_covered hm hcover) hfuel).mono
    And.left ?_
  intro _ w' ⟨t, hdrops, _⟩
  exact ⟨hdrops.touches.zeroPage, _, _, hdrops.ok, hdrops.ok.pages, hdrops.counted,
    fun f hf hn => hdrops.freed f hf hn rfl⟩

theorem RefsOk.release (h : RefsOk w T E) (hm : w.mmUsed m = true) (hfuel : taskSize + 1 < fuel) :
    Ensures (releaseMm fuel m) w fun _ w' => Settled w T E w' := by
  refine (h.1.ensures_releaseMm h.2 hm hfuel).mono ?_
  intro _ w' hw'
  exact ⟨hw'.zeroPage, _, _, hw'.ok, hw'.ok.pages, hw'.counted, fun f hf hn => hw'.freed f hf hn rfl⟩

/-- A call whose result is dropped. -/
theorem ensures_dropped {α : Type} {c : MmM α} {Q : World → Prop} (h : Ensures c w fun _ w' => Q w') :
    Ensures (do let _ ← c) w fun _ w' => Q w' := by
  rw [ensures_bind]
  exact h.mono fun _ _ hq => ensures_pure.2 hq

/-- **Every call settles.** -/
theorem RefsOk.step {c : PageCall} (h : RefsOk w T E) (hclean : c.Clean w)
    (hstep : PageStep c w w') : Settled w T E w' := by
  obtain ⟨fuel, hfuel, hallowed, hrun⟩ := hstep
  have hfuel' : taskSize < fuel := by omega
  cases c with
  | create => exact (ensures_dropped h.create).of_run hrun
  | mmap m begin stop perm =>
    obtain ⟨hm, hlt, hstop⟩ := hallowed
    exact (ensures_dropped (h.mmap hm hlt hstop hfuel')).of_run hrun
  | mapFresh m a data flags =>
    obtain ⟨hm, hne, hcover, habs⟩ := hallowed
    have hdom : ∀ q, a ≤ q → q < a + data.length → q ∈ pagesOf (w.mm m) (T m) := fun q =>
      h.1.areas.mem_of_covered hm hcover
    have hlen : data.length < fuel := by
      have hpos : 0 < data.length := List.length_pos_iff.2 hne
      have huser := h.1.pages.user hm (hdom (a + data.length - 1) (by omega) (by omega))
      have := taskSize_eq
      omega
    exact (ensures_dropped (h.mapFresh hm hne hdom habs hlen)).of_run hrun
  | fault m vaddr access =>
    obtain ⟨hm, hread⟩ := hallowed
    exact (ensures_dropped (h.fault hm hread hclean hfuel')).of_run hrun
  | copy dst src =>
    obtain ⟨hdst, hsrc⟩ := hallowed
    exact (ensures_dropped (h.copy hdst hsrc hfuel)).of_run hrun
  | munmap m a b =>
    obtain ⟨hm, hab, hcover⟩ := hallowed
    exact (h.munmap hm hab hcover hfuel).yields _ _ hrun
  | release m => exact (h.release hallowed hfuel).of_run hrun

theorem CleanRun.refsOk (hrun : CleanRun w w') (h : RefsOk w T E) : ∃ T' E', RefsOk w' T' E' := by
  induction hrun with
  | refl => exact ⟨T, E, h⟩
  | tail _ hclean hstep ih =>
    obtain ⟨T₁, E₁, h₁⟩ := ih
    obtain ⟨-, T₂, E₂, hok, hsettles⟩ := h₁.step hclean hstep
    exact ⟨T₂, E₂, hok, hsettles.counted⟩

/-- The counter of a page is the number of its mappings, with one more for `zero_page`. -/
def CountedPage (w : World) (f : Pfn) : Prop :=
  (w.phys.u f).toNat = refs (mappedTo w) f + if f = w.zeroPage then 1 else 0

theorem RefsOk.countedPage (h : RefsOk w T E) {i : ℕ × ℕ} {f : Pfn}
    (hf : mappedTo w i = some f) : CountedPage w f := by
  rw [CountedPage, h.1.mappedTo_eq]
  rw [h.1.mappedTo_eq] at hf
  exact h.2 f (Or.inl ((refs_pos_iff h.1.pages.sparse).2 ⟨i, hf⟩))

/-- A mapped page is freed when its last mapping goes. -/
theorem RefsOk.free_iff {c : PageCall} (h : RefsOk w T E) (hclean : c.Clean w)
    (hstep : PageStep c w w') {i : ℕ × ℕ} {f : Pfn} (hz : f ≠ w.zeroPage)
    (hf : mappedTo w i = some f) : w'.phys.free f = true ↔ ∀ j, mappedTo w' j ≠ some f := by
  obtain ⟨hzero, T', E', hok, hsettles⟩ := h.step hclean hstep
  rw [h.1.mappedTo_eq] at hf
  rw [hok.mappedTo_eq, ← refs_eq_zero_iff hok.pages.sparse]
  constructor
  · exact fun hfree => (hok.pages.of_free hfree).2.2
  · intro hrefs
    refine hsettles.freed f (Or.inl ((refs_pos_iff h.1.pages.sparse).2 ⟨i, hf⟩)) ?_
    rintro (hc | hc)
    · omega
    · exact hz (hc.trans hzero)

/-- The counter of a copied page is right exactly when it was 0 in the page that was allocated. -/
theorem RefsOk.copied_iff {vaddr : ℕ} (h : RefsOk w T E)
    (hstep : PageStep (.fault m vaddr .write) w w') {f p : Pfn} {word : BitVec 64}
    (hf : mappedTo w (m, vaddr / 4096) = some f) (hu : w.phys.u f ≠ 1#64)
    (hsupply : w.phys.supply 0 = some (p, word)) (hp : w.phys.free p = true)
    (hmapped : mappedTo w' (m, vaddr / 4096) = some p) : CountedPage w' p ↔ word = 0#64 := by
  set F := forestOf w T E with hF
  obtain ⟨fuel, hfuel, ⟨hm, -⟩, hrun⟩ := hstep
  have hframe : F.frame w.phys (m, vaddr / 4096) = some f := by rw [← h.1.mappedTo_eq, hf]
  have hne : f ≠ p := ne_of_free (h.1.pages.busy _ _ hframe) hp
  have hfault : Ensures (mmPageFault fuel m vaddr .write) w _ :=
    h.1.ensures_mmPageFault hm (show taskSize < fuel by omega)
  have hout := (ensures_dropped (hfault.mono fun rc w₁ hw₁ => Exists.intro rc hw₁)).of_run hrun
  -- a page that was free is mapped, so that the fault has changed the mappings
  have hsame : mappedTo w' (m, vaddr / 4096) ≠ mappedTo w (m, vaddr / 4096) := by
    rw [hf, hmapped]
    exact fun hc => hne (Option.some_inj.1 hc).symm
  rcases hout with ⟨rc, ⟨-, rfl, -⟩ | ⟨a, ha, hhas, s', rfl, hcases⟩⟩
  · exact absurd rfl hsame
  have hq : vaddr / 4096 ∈ F.dom m := ⟨a, ha, hhas⟩
  cases hcases with
  | denied => exact absurd rfl hsame
  | noMemory =>
    have hok : WorldOk (w.withPhys (refused w.phys)) T E :=
      ⟨h.1.areas.withPhys _, h.1.pages.keeps_refused.ok⟩
    rw [hok.mappedTo_eq, h.1.mappedTo_eq] at hsame
    exact absurd (congrFun h.1.pages.keeps_refused.frame _) hsame
  | reuse _ hf' hu' =>
    rw [hframe, Option.some_inj] at hf'
    subst hf'
    exact absurd hu' hu
  | fresh _ hf' => exact absurd (hframe.symm.trans hf') (Option.some_ne_none f)
  | copy _ hf' _ hsupply' _ =>
    rw [hframe, Option.some_inj] at hf'
    subst hf'
    rw [hsupply, Option.some_inj] at hsupply'
    obtain ⟨rfl, rfl⟩ := Prod.mk.inj hsupply'
    obtain ⟨hok, -, -⟩ := h.1.pages.replaced hm hq hframe hu hp word
    have hok' : WorldOk (w.withPhys (F.replaced w.phys m (vaddr / 4096) f p word)) T E :=
      ⟨h.1.areas.withPhys _, hok⟩
    obtain ⟨-, hz, hrefs₀⟩ := h.1.pages.of_free hp
    have hrefs := h.1.pages.refs_replaced hm hq hframe hu hp word p
    rw [if_neg hne.symm, if_pos rfl, hrefs₀] at hrefs
    have hcount : (F.replaced w.phys m (vaddr / 4096) f p word).u p = word + 1#64 :=
      Forest.replaced_u_self hne
    have hone : word + 1#64 = 1#64 ↔ word = 0#64 := by
      rw [← BitVec.eq_sub_iff_add_eq]
      rfl
    have hz' : p ≠ (w.withPhys (F.replaced w.phys m (vaddr / 4096) f p word)).zeroPage := hz
    rw [CountedPage, hok'.mappedTo_eq, if_neg hz', ← hone, ← hcount, ← BitVec.toNat_inj]
    have hone' : refs ((forestOf (w.withPhys (F.replaced w.phys m (vaddr / 4096) f p word)) T E).frame
        (F.replaced w.phys m (vaddr / 4096) f p word)) p = 1 := by
      change refs (F.frame _) p = 1
      omega
    change _ = refs _ p + 0 ↔ _
    rw [Nat.add_zero]
    exact ⟨fun hc => hc.trans hone', fun hc => hc.trans hone'.symm⟩

/-- **Reference counts.** In a run in which `copy_page` only gets pages without references, the
counter of every mapped page is the number of its mappings, with one more for `zero_page`, and the
next step frees a page exactly when it removes its last mapping. A copy of a page is counted wrong
in the first step in which the page allocated for it has references. -/
theorem cleanRun_counted (h : Empty w) (hrun : CleanRun w w') :
    (∀ i f, mappedTo w' i = some f → CountedPage w' f) ∧
    (∀ c w₁ i f, c.Clean w' → PageStep c w' w₁ → f ≠ w'.zeroPage → mappedTo w' i = some f →
      (w₁.phys.free f = true ↔ ∀ j, mappedTo w₁ j ≠ some f)) ∧
    ∀ m vaddr w₁ f p word, PageStep (.fault m vaddr .write) w' w₁ →
      mappedTo w' (m, vaddr / 4096) = some f → w'.phys.u f ≠ 1#64 →
      w'.phys.supply 0 = some (p, word) → w'.phys.free p = true →
      mappedTo w₁ (m, vaddr / 4096) = some p → (CountedPage w₁ p ↔ word = 0#64) := by
  have hstart : RefsOk w (fun _ => .nil) fun _ _ _ => .zero := h.worldOk
  obtain ⟨T', E', h'⟩ := hrun.refsOk hstart
  refine ⟨fun i f hf => h'.countedPage hf, fun c w₁ i f hclean hstep hz hf => ?_,
    fun m vaddr w₁ f p word hstep hf hu hsupply hp hmapped => ?_⟩
  · exact h'.free_iff hclean hstep hz hf
  · exact h'.copied_iff hstep hf hu hsupply hp hmapped

/-- A state with one address space, whose free pages have been used for other things before. -/
def stalePages : World :=
  { smallSpace with
    phys := { smallSpace.phys with supply := fun n => some (n + 2, 7#64) } }

theorem empty_stalePages : Empty stalePages :=
  ⟨empty_smallSpace.noAreas, empty_smallSpace.zero, empty_smallSpace.busy, empty_smallSpace.apart,
    empty_smallSpace.freeLow, empty_smallSpace.zeroPage⟩

/-- The page mapped by a write fault, after a read fault at the same address. -/
theorem stalePages_faults :
    returns ((PageCall.mmap 0 0 4096 1).run (taskSize + 2)) stalePages (fun _ w₁ =>
      decide (w₁.mmUsed 0 = true ∧ mappedTo w₁ (0, 0) = none) &&
      returns ((PageCall.fault 0 0 .read).run (taskSize + 2)) w₁ fun _ w₂ =>
        decide (w₂.mmUsed 0 = true ∧ mappedTo w₂ (0, 0) = some 0 ∧ w₂.phys.u 0 ≠ 1#64 ∧
          w₂.phys.supply 0 = some (5, 7#64) ∧ w₂.phys.free 5 = true) &&
        returns ((PageCall.fault 0 0 .write).run (taskSize + 2)) w₂ fun _ w₃ =>
          decide (mappedTo w₃ (0, 0) = some 5)) = true := by
  decide +kernel

/-- The run on which the counter is wrong: a page is mapped once, and its counter is 8. -/
theorem pageRun_miscounted : ∃ w₁ w₂ w₃, Empty stalePages ∧
    PageStep (.mmap 0 0 4096 1) stalePages w₁ ∧ PageStep (.fault 0 0 .read) w₁ w₂ ∧
    PageStep (.fault 0 0 .write) w₂ w₃ ∧ mappedTo w₃ (0, 0) = some 5 ∧ ¬CountedPage w₃ 5 := by
  obtain ⟨⟨⟩, w₁, hrun₁, hw₁⟩ := returns_iff.1 stalePages_faults
  obtain ⟨hw₁, hret₂⟩ := Bool.and_eq_true_iff.1 hw₁
  obtain ⟨hused₁, hnone⟩ := of_decide_eq_true hw₁
  obtain ⟨⟨⟩, w₂, hrun₂, hw₂⟩ := returns_iff.1 hret₂
  obtain ⟨hw₂, hret₃⟩ := Bool.and_eq_true_iff.1 hw₂
  obtain ⟨hused₂, hzero, hu, hsupply, hfree⟩ := of_decide_eq_true hw₂
  obtain ⟨⟨⟩, w₃, hrun₃, hw₃⟩ := returns_iff.1 hret₃
  have hmapped := of_decide_eq_true hw₃
  have hfuel : taskSize + 1 < taskSize + 2 := by omega
  have hstep₁ : PageStep (.mmap 0 0 4096 1) stalePages w₁ :=
    ⟨_, hfuel, ⟨rfl, by norm_num, by norm_num [taskSize]⟩, hrun₁⟩
  have hstep₂ : PageStep (.fault 0 0 .read) w₁ w₂ := ⟨_, hfuel, ⟨hused₁, fun _ => hnone⟩, hrun₂⟩
  have hstep₃ : PageStep (.fault 0 0 .write) w₂ w₃ := ⟨_, hfuel, ⟨hused₂, (by simp)⟩, hrun₃⟩
  have hclean : CleanRun stalePages w₂ :=
    .tail (c := .fault 0 0 .read) (.tail (c := .mmap 0 0 4096 1) (.refl _) trivial hstep₁) trivial
      hstep₂
  have hstart : RefsOk stalePages (fun _ => .nil) fun _ _ _ => .zero := empty_stalePages.worldOk
  obtain ⟨T, E, h⟩ := hclean.refsOk hstart
  refine ⟨w₁, w₂, w₃, empty_stalePages, hstep₁, hstep₂, hstep₃, hmapped, fun hcounted => ?_⟩
  have hword := (h.copied_iff hstep₃ hzero hu hsupply hfree hmapped).1 hcounted
  exact absurd hword (by decide)

theorem cleanRun_counted_onePage : ∃ w', CleanRun smallSpace w' ∧ mappedTo w' (0, 0) = some 5 ∧
    CountedPage w' 5 := by
  have hreturns : returns ((PageCall.mmap 0 0 4096 1).run (taskSize + 2)) smallSpace (fun _ w₁ =>
      decide (w₁.mmUsed 0 = true ∧ mappedTo w₁ (0, 0) = none) &&
      returns ((PageCall.fault 0 0 .write).run (taskSize + 2)) w₁ fun _ w₂ =>
        decide (mappedTo w₂ (0, 0) = some 5)) = true := by decide +kernel
  obtain ⟨⟨⟩, w₁, hrun₁, hw₁⟩ := returns_iff.1 hreturns
  obtain ⟨hw₁, hret₂⟩ := Bool.and_eq_true_iff.1 hw₁
  obtain ⟨hused, hnone⟩ := of_decide_eq_true hw₁
  obtain ⟨⟨⟩, w₂, hrun₂, hw₂⟩ := returns_iff.1 hret₂
  have hmapped := of_decide_eq_true hw₂
  have hfuel : taskSize + 1 < taskSize + 2 := by omega
  have hstep₁ : PageStep (.mmap 0 0 4096 1) smallSpace w₁ :=
    ⟨_, hfuel, ⟨rfl, by norm_num, by norm_num [taskSize]⟩, hrun₁⟩
  have hstep₂ : PageStep (.fault 0 0 .write) w₁ w₂ := ⟨_, hfuel, ⟨hused, (by simp)⟩, hrun₂⟩
  have hclean : (PageCall.fault 0 0 .write).Clean w₁ := fun f p word hf => by
    rw [hnone] at hf
    cases hf
  have hrun : CleanRun smallSpace w₂ :=
    .tail (.tail (c := .mmap 0 0 4096 1) (.refl _) trivial hstep₁) hclean hstep₂
  exact ⟨w₂, hrun, hmapped, (cleanRun_counted empty_smallSpace hrun).1 _ _ hmapped⟩

end

end Mm

end Kernel64
