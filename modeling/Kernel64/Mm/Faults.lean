import Kernel64.Mm.Calls

/-!
# Page faults

A read fault maps `zero_page`. A write fault maps a new page where nothing is mapped; where a page
is mapped, it is made writable in place if `u.refcount` is 1, and otherwise replaced by a copy.
`Faulted` lists these outcomes with the memory each one leaves. No fault frees a page: `put_page`
is called for a page whose counter is not 1.
-/

namespace Kernel64

namespace Mm

open Paging Rb ColorTree

section Pages

variable {F : Forest} {s s' : Phys} {m q : ℕ} {f p : Pfn} {word : BitVec 64} {flags : PteFlags}

/-! ### Allocating pages -/

/-- The state after a page has been allocated. -/
def taken (s : Phys) (p : Pfn) (word : BitVec 64) : Phys :=
  { s with
    u := Function.update s.u p word
    free := Function.update s.free p false
    supply := fun n => s.supply (n + 1) }

theorem ensures_allocPages {Q : Option Pfn → Phys → Prop}
    (hsome : ∀ p word, s.supply 0 = some (p, word) → s.free p = true →
      Q (some p) (taken s p word)) (hnone : Q none (refused s)) :
    Ensures allocPages s Q := by
  rw [allocPages]
  simp only [ensures_bind, ensures_get, ensures_set]
  cases hsupply : s.supply 0 with
  | none =>
    simp only [ensures_pure]
    exact hnone
  | some r =>
    obtain ⟨p, word⟩ := r
    simp only
    by_cases hp : s.free p = true
    · simp only [hp, if_true, setU, ensures_bind, ensures_modify, ensures_pure]
      exact hsome p word hsupply hp
    · simp only [hp, Bool.false_eq_true, if_false, ensures_pure]
      exact hnone

/-- The memory is the same but for one page. -/
def Elsewhere (p : Pfn) (s s' : Phys) : Prop :=
  ∀ t, t ≠ p → s'.free t = s.free t ∧ s'.table t = s.table t ∧ s'.u t = s.u t ∧
    s'.bytes t = s.bytes t

/-- **A free page taken** for the contents of user memory. -/
theorem Forest.Ok.keeps_take (h : F.Ok s) (hp : s.free p = true) (hbusy : s'.free p = false)
    (hother : Elsewhere p s s') : F.Keeps s F s' := by
  obtain ⟨hpt, -, -⟩ := h.of_free hp
  have htable : ∀ t, F.IsTable t → t ≠ p := fun t ht heq => hpt (heq ▸ ht)
  have hfree : ∀ t, s'.free t = true → s.free t = true := by
    intro t ht
    have hne : t ≠ p := by
      rintro rfl
      exact Bool.false_ne_true (hbusy.symm.trans ht)
    rwa [(hother t hne).1] at ht
  refine
    { ok := h.congr (fun t ht => (hother t (htable t ht)).2.1)
        (fun t ht => (hother t (htable t ht)).2.2.1) fun t ht => ?_
      zero := rfl
      frame := Forest.Ok.frame_congr fun t ht => (hother t (htable t ht)).2.1
      pte := fun m hm q hq _ =>
        pte_congr (fun t ht => (hother t (htable t ht)).2.1) hm (liveAt_of_mem hq)
      kept := fun t hf ht => ?_
      freed := fun t ht => Or.inl (hfree t ht)
      upper := fun m hm i _ => ?_ }
  · exact ⟨h.freeLow t (hfree t ht), h.of_free (hfree t ht)⟩
  · have hne : t ≠ p := by
      rintro rfl
      exact Bool.false_ne_true (hf.symm.trans hp)
    obtain ⟨h₁, h₂, h₃, h₄⟩ := hother t hne
    exact ⟨ht, h₁.trans hf, h₂, h₃, h₄⟩
  · have hroot3 : F.LiveAt m 3 0 := Or.inl ⟨rfl, rfl⟩
    exact congrFun (hother _ (htable _ (isTable hm hroot3))).2.1 i

/-- The page taken can be mapped. -/
theorem Forest.Ok.mappable_take (h : F.Ok s) (hp : s.free p = true) (hbusy : s'.free p = false) :
    F.Mappable s' p :=
  ⟨(h.of_free hp).1, hbusy, h.freeLow p hp⟩

/-- A page that is not mapped anywhere. -/
theorem Forest.Ok.total_of_free (h : F.Ok s) (hp : s.free p = true) (x : Pfn → ℕ) :
    F.total s x p = x p := by
  obtain ⟨-, hz, hrefs⟩ := h.of_free hp
  rw [Forest.total, hrefs, if_neg hz, Nat.zero_add]

theorem Forest.Ok.keeps_refused (h : F.Ok s) : F.Keeps s F (refused s) :=
  ⟨h.congr (fun _ _ => rfl) (fun _ _ => rfl) fun p hp => ⟨h.freeLow p hp, h.of_free hp⟩, rfl, rfl,
    fun _ _ _ _ _ => rfl, fun _ hf hp => ⟨hp, hf, rfl, rfl, rfl⟩, fun _ hp => Or.inl hp,
    fun _ _ _ _ => rfl⟩

/-- The state after a page has been allocated for a copy of another. -/
def copied (s : Phys) (f p : Pfn) (word : BitVec 64) : Phys :=
  { taken s p word with
    table := Function.update s.table p (s.table f)
    bytes := Function.update s.bytes p (s.bytes f) }

theorem elsewhere_copied : Elsewhere p s (copied s f p word) := fun _ ht =>
  ⟨Function.update_of_ne ht _ _, Function.update_of_ne ht _ _, Function.update_of_ne ht _ _,
    Function.update_of_ne ht _ _⟩

theorem elsewhere_allocated : Elsewhere p s (allocated s p) := fun _ ht =>
  ⟨Function.update_of_ne ht _ _, Function.update_of_ne ht _ _, Function.update_of_ne ht _ _,
    Function.update_of_ne ht _ _⟩

theorem copied_free : (copied s f p word).free p = false := Function.update_self _ _ _

theorem allocated_free : (allocated s p).free p = false := Function.update_self _ _ _

/-- `copy_page` gives the page itself when it has one reference, or a copy. -/
theorem ensures_copyPage {Q : Option Pfn → Phys → Prop} (hsame : s.u f = 1#64 → Q (some f) s)
    (hcopy : ∀ p word, s.u f ≠ 1#64 → s.supply 0 = some (p, word) → s.free p = true →
      Q (some p) (copied s f p word)) (hnone : s.u f ≠ 1#64 → Q none (refused s)) :
    Ensures (copyPage f) s Q := by
  rw [copyPage, ensures_bind, ensures_get]
  by_cases hu : s.u f = 1#64
  · rw [if_pos hu]
    exact ensures_pure.2 (hsame hu)
  · rw [if_neg hu]
    simp only [ensures_bind]
    refine ensures_allocPages (fun p word hsupply hp => ?_) ?_
    · simp only [ensures_bind, ensures_modify, ensures_pure]
      exact hcopy p word hu hsupply hp
    · exact ensures_pure.2 (hnone hu)

/-! ### Outcomes -/

/-- The flags of a page that can be written. -/
def writeFlags : PteFlags := ⟨true, true, false, false⟩

/-- The flags of a page that can only be read. -/
def readFlags : PteFlags := ⟨false, true, false, false⟩

/-- The state after a page has been replaced by a copy. -/
def Forest.replaced (F : Forest) (s : Phys) (m q : ℕ) (f p : Pfn) (word : BitVec 64) : Phys :=
  afterPut (F.mapped (copied s f p word) m q p writeFlags) f

/-- The state after a page has been made writable in place. -/
def Forest.reused (F : Forest) (s : Phys) (m q : ℕ) (f : Pfn) : Phys :=
  afterPut (F.mapped s m q f writeFlags) f

/-- **The outcomes of a page fault** at the page `q` of `m`; `writable` says what the area allows. -/
inductive Faulted (F : Forest) (s : Phys) (m q : ℕ) (writable : Prop) : Access → ℤ → Phys → Prop
  | denied (hw : ¬writable) : Faulted F s m q writable .write (-EINVAL) s
  | read : Faulted F s m q writable .read 0 (F.mapped s m q F.zero readFlags)
  | reuse {f : Pfn} (hw : writable) (hf : F.frame s (m, q) = some f) (hu : s.u f = 1#64) :
    Faulted F s m q writable .write 0 (F.reused s m q f)
  | copy {f p : Pfn} {word : BitVec 64} (hw : writable) (hf : F.frame s (m, q) = some f)
      (hu : s.u f ≠ 1#64) (hsupply : s.supply 0 = some (p, word)) (hp : s.free p = true) :
    Faulted F s m q writable .write 0 (F.replaced s m q f p word)
  | fresh {p : Pfn} {word : BitVec 64} (hw : writable) (hf : F.frame s (m, q) = none)
      (hsupply : s.supply 0 = some (p, word)) (hp : s.free p = true) :
    Faulted F s m q writable .write 0 (F.mapped (allocated s p) m q p writeFlags)
  | noMemory (hw : writable) : Faulted F s m q writable .write (-ENOMEM) (refused s)

/-- `put_page` of a page with further references. -/
theorem Forest.Ok.put_kept (h : F.Ok s) (hf : F.Mappable s f) (hu : s.u f ≠ 1#64) :
    F.Ok (afterPut s f) ∧ (afterPut s f).free = s.free := by
  have hfree : (afterPut s f).free = s.free := by
    funext p
    simp only [afterPut, hu, and_false, if_false]
  refine ⟨h.congr (fun _ _ => rfl) (fun p hp => ?_) fun p hp => ?_, hfree⟩
  · have hne : p ≠ f := fun heq => hf.1 (heq ▸ hp)
    simp only [afterPut, Function.update_of_ne hne]
  · rw [hfree] at hp
    exact ⟨h.freeLow p hp, h.of_free hp⟩

/-! ### Counting -/

section Counting

variable {x : Pfn → ℕ}

theorem ne_of_free (hf : F.Mappable s f) (hp : s.free p = true) : f ≠ p := by
  rintro rfl
  exact Bool.false_ne_true (hf.2.1.symm.trans hp)

/-- Making a page writable in place changes nothing but its entry. -/
theorem Forest.Ok.reused (h : F.Ok s) (hm : m ∈ F.live) (hq : q ∈ F.dom m)
    (hf : F.frame s (m, q) = some f) (hu : s.u f = 1#64) :
    F.Ok (F.reused s m q f) ∧ F.frame (F.reused s m q f) = F.frame s ∧
      (F.reused s m q f).u = s.u ∧ (F.reused s m q f).free = s.free := by
  have hbusy := h.busy _ _ hf
  have htwo : (F.mapped s m q f writeFlags).u f = 2#64 := by
    have : (F.mapped s m q f writeFlags).u f = s.u f + 1#64 := Function.update_self _ _ _
    rw [this, hu]
    rfl
  have hmap : F.Ok (F.mapped s m q f writeFlags) := h.mapped hm hq hbusy
  obtain ⟨hok, hfree⟩ := hmap.put_kept hbusy (by rw [htwo]; decide)
  refine ⟨hok, ?_, ?_, hfree⟩
  · rw [Forest.reused, F.frame_afterPut, h.frame_mapped hm hq hbusy, ← hf, Function.update_eq_self]
  · have : (F.reused s m q f).u =
        Function.update (F.mapped s m q f writeFlags).u f ((F.mapped s m q f writeFlags).u f - 1#64) :=
      rfl
    rw [this, htwo]
    funext g
    by_cases hg : g = f
    · subst hg
      rw [Function.update_self, hu]
      rfl
    · rw [Function.update_of_ne hg]
      exact Function.update_of_ne hg _ _

/-- The copy is mapped once, and the page it replaces once less. -/
theorem Forest.Ok.replaced (h : F.Ok s) (hm : m ∈ F.live) (hq : q ∈ F.dom m)
    (hf : F.frame s (m, q) = some f) (hu : s.u f ≠ 1#64) (hp : s.free p = true)
    (word : BitVec 64) :
    F.Ok (F.replaced s m q f p word) ∧
      F.frame (F.replaced s m q f p word) = Function.update (F.frame s) (m, q) (some p) ∧
      (F.replaced s m q f p word).free = Function.update s.free p false := by
  have hbusy := h.busy _ _ hf
  have hne := ne_of_free hbusy hp
  have hkeeps : F.Keeps s F (copied s f p word) := h.keeps_take hp copied_free elsewhere_copied
  have hnew : F.Mappable (copied s f p word) p := h.mappable_take hp copied_free
  have hold : F.Mappable (copied s f p word) f :=
    ⟨hbusy.1, (hkeeps.kept f hbusy.2.1 hbusy.1).2.1, hbusy.2.2⟩
  have hcount : (F.mapped (copied s f p word) m q p writeFlags).u f = s.u f :=
    (Function.update_of_ne hne _ _).trans (Function.update_of_ne hne _ _)
  have hmap : F.Ok (F.mapped (copied s f p word) m q p writeFlags) := hkeeps.ok.mapped hm hq hnew
  obtain ⟨hok, hfree⟩ := hmap.put_kept hold (by rwa [hcount])
  refine ⟨hok, ?_, hfree⟩
  rw [Forest.replaced, F.frame_afterPut, hkeeps.ok.frame_mapped hm hq hnew, hkeeps.frame]

theorem Forest.replaced_u_self (hne : f ≠ p) :
    (F.replaced s m q f p word).u p = word + 1#64 := by
  have hmapped : (F.mapped (copied s f p word) m q p writeFlags).u p =
      (copied s f p word).u p + 1#64 := Function.update_self _ _ _
  have hcopied : (copied s f p word).u p = word := Function.update_self _ _ _
  have hput : (F.replaced s m q f p word).u p =
      (F.mapped (copied s f p word) m q p writeFlags).u p := Function.update_of_ne hne.symm _ _
  rw [hput, hmapped, hcopied]

theorem Forest.replaced_u_old (hne : f ≠ p) :
    (F.replaced s m q f p word).u f = s.u f - 1#64 := by
  have hcount : (F.mapped (copied s f p word) m q p writeFlags).u f = s.u f :=
    (Function.update_of_ne hne _ _).trans (Function.update_of_ne hne _ _)
  rw [← hcount]
  exact Function.update_self _ _ _

theorem Forest.replaced_u_of_ne {g : Pfn} (hgp : g ≠ p) (hgf : g ≠ f) :
    (F.replaced s m q f p word).u g = s.u g :=
  ((Function.update_of_ne hgf _ _).trans (Function.update_of_ne hgp _ _)).trans
    (Function.update_of_ne hgp _ _)

/-- The references after a page has been replaced. -/
theorem Forest.Ok.refs_replaced (h : F.Ok s) (hm : m ∈ F.live) (hq : q ∈ F.dom m)
    (hf : F.frame s (m, q) = some f) (hu : s.u f ≠ 1#64) (hp : s.free p = true)
    (word : BitVec 64) (g : Pfn) :
    refs (F.frame (F.replaced s m q f p word)) g + (if g = f then 1 else 0) =
      refs (F.frame s) g + if g = p then 1 else 0 := by
  have := refs_update h.sparse (m, q) (some p) g
  rw [← (h.replaced hm hq hf hu hp word).2.1, hf] at this
  simpa only [Option.some_inj, eq_comm (a := f), eq_comm (a := p)] using this

/-- Every other counted page stays counted. -/
theorem Forest.Ok.counted_replaced (h : F.Ok s) (hm : m ∈ F.live) (hq : q ∈ F.dom m)
    (hf : F.frame s (m, q) = some f) (hu : s.u f ≠ 1#64) (hp : s.free p = true) {g : Pfn}
    (hgp : g ≠ p) (hg : (s.u g).toNat = F.total s x g) :
    ((F.replaced s m q f p word).u g).toNat = F.total (F.replaced s m q f p word) x g := by
  have hne := ne_of_free (h.busy _ _ hf) hp
  have hrefs := h.refs_replaced hm hq hf hu hp word g
  rw [if_neg hgp, Nat.add_zero] at hrefs
  by_cases hgf : g = f
  · subst hgf
    rw [if_pos rfl] at hrefs
    rw [Forest.replaced_u_old hne]
    refine toNat_sub_one ?_
    rw [hg, Forest.total, Forest.total]
    omega
  · rw [if_neg hgf, Nat.add_zero] at hrefs
    rw [Forest.replaced_u_of_ne hgp hgf, hg, Forest.total, Forest.total, hrefs]

/-- **A step that settles**: the counters are right afterwards, and the pages that lost their last
mapping are free. -/
structure Forest.Settles (F : Forest) (s : Phys) (F' : Forest) (s' : Phys) : Prop where
  ok : F'.Ok s'
  counted : F'.Counted s' fun _ => 0
  freed : ∀ f, F.Held s f → ¬F'.Held s' f → s'.free f = true

theorem Forest.Keeps.settles {F' : Forest} (h : F.Keeps s F' s') (hok : F.Ok s)
    (hc : F.Counted s fun _ => 0) : F.Settles s F' s' :=
  ⟨h.ok, h.counted hok hc, fun f hf hn => absurd ((h.held f).2 hf) hn⟩

/-- **Page faults settle**, when a read fault is at a page that is not mapped and a page taken for
a copy has no references. -/
theorem Faulted.settles {writable : Prop} {access : Access} {rc : ℤ}
    (hfault : Faulted F s m q writable access rc s') (h : F.Ok s) (hc : F.Counted s fun _ => 0)
    (hm : m ∈ F.live) (hq : q ∈ F.dom m)
    (hread : access = .read → F.frame s (m, q) = none)
    (hcopy : ∀ f p word, F.frame s (m, q) = some f → s.u f ≠ 1#64 →
      s.supply 0 = some (p, word) → s.free p = true → word = 0#64) : F.Settles s F s' := by
  have hlt : ∀ f, F.total s (fun _ => 0) f + 1 < 2 ^ 64 := fun f => by
    have := h.refs_le f
    rw [Forest.total]
    split_ifs <;> omega
  cases hfault with
  | denied => exact h.keeps_self.settles h hc
  | noMemory => exact h.keeps_refused.settles h hc
  | read =>
    -- the page of zeros is mapped once more
    have hzero : F.Held s F.zero := Or.inr rfl
    obtain ⟨hcount, hheld⟩ : F.Counted (F.mapped s m q F.zero readFlags) _ ∧ _ :=
      h.counted_mapped hc hm hq (hread rfl) h.zero (hc _ hzero) (hlt _)
    exact ⟨h.mapped hm hq h.zero, hcount, fun f hf hn => absurd ((hheld f).2 (Or.inl hf)) hn⟩
  | @reuse f _ hf hu =>
    -- the last reference is this one: the page stays, and may be written
    obtain ⟨hok, hframe, hu', -⟩ := h.reused hm hq hf hu
    refine ⟨hok, fun g hg => ?_, fun g hg hn => absurd ((Forest.held_congr hframe g).2 hg) hn⟩
    rw [Forest.total_congr hframe, ← hc g ((Forest.held_congr hframe g).1 hg), hu']
  | @copy f p word _ hf hu hsupply hp =>
    obtain ⟨hok, hframe, -⟩ := h.replaced hm hq hf hu hp word
    have hne := ne_of_free (h.busy _ _ hf) hp
    have hrefs := h.refs_replaced hm hq hf hu hp word
    obtain ⟨-, hz, hnone⟩ := h.of_free hp
    obtain rfl := hcopy f p word hf hu hsupply hp
    have hheldf : F.Held s f := Or.inl ((refs_pos_iff h.sparse).2 ⟨_, hf⟩)
    refine ⟨hok, fun g hg => ?_, fun g hg hn => ?_⟩
    · by_cases hgp : g = p
      · subst hgp
        -- the new page has one reference
        have hself := hrefs g
        rw [if_neg hne.symm, if_pos rfl, hnone] at hself
        have hone : (F.replaced s m q f g 0#64).u g = 0#64 + 1#64 := Forest.replaced_u_self hne
        have htotal : F.total (F.replaced s m q f g 0#64) (fun _ => 0) g = 1 := by
          rw [Forest.total, if_neg hz]
          omega
        exact (congrArg BitVec.toNat hone).trans htotal.symm
      · have hold : F.Held s g := by
          refine hg.imp_left fun hpos => ?_
          have := hrefs g
          rw [if_neg hgp] at this
          omega
        exact h.counted_replaced hm hq hf hu hp hgp (hc g hold)
    · -- the page replaced had another reference
      exfalso
      refine hn ?_
      by_cases hgf : g = f
      · subst hgf
        by_cases hgz : g = F.zero
        · exact Or.inr hgz
        · refine Or.inl ?_
          have hcount := hc g hheldf
          rw [Forest.total, if_neg hgz] at hcount
          have hone : refs (F.frame s) g ≠ 1 := fun hone => hu (by
            rw [← BitVec.toNat_inj, hcount, hone]
            rfl)
          have hself := hrefs g
          have hpos : 0 < refs (F.frame s) g := (refs_pos_iff h.sparse).2 ⟨_, hf⟩
          rw [if_pos rfl] at hself
          omega
      · refine hg.imp_left fun hpos => ?_
        have := hrefs g
        rw [if_neg hgf] at this
        omega
  | @fresh p word _ hf hsupply hp =>
    have hkeeps : F.Keeps s F (allocated s p) := h.keeps_take hp allocated_free elsewhere_allocated
    have hnew : F.Mappable (allocated s p) p := h.mappable_take hp allocated_free
    have hnone : F.frame (allocated s p) (m, q) = none := by rw [hkeeps.frame, hf]
    have htotal : F.total (allocated s p) (fun _ => 0) p = 0 := by
      rw [Forest.total_congr hkeeps.frame, h.total_of_free hp]
    have hu : ((allocated s p).u p).toNat = F.total (allocated s p) (fun _ => 0) p := by
      have hzero : (allocated s p).u p = 0#64 := Function.update_self _ _ _
      rw [htotal, hzero]
      rfl
    obtain ⟨hcount, hheld⟩ : F.Counted (F.mapped (allocated s p) m q p writeFlags) _ ∧ _ :=
      hkeeps.ok.counted_mapped (hkeeps.counted h hc) hm hq hnone hnew hu (by rw [htotal]; norm_num)
    refine ⟨hkeeps.ok.mapped hm hq hnew, hcount, fun g hg hn => ?_⟩
    exact absurd ((hheld g).2 (Or.inl ((hkeeps.held g).2 hg))) hn

end Counting

end Pages

section Faults

variable {w w' : World} {T : ℕ → ColorTree Ptr} {E : ℕ → ℕ → ℕ → Pte} {m q fuel vaddr : ℕ}
  {access : Access}

/-- **`anon_page_fault`** at a page of an area. -/
theorem WorldOk.ensures_anonPageFault (h : WorldOk w T E) (hm : w.mmUsed m = true)
    (hq : q ∈ pagesOf (w.mm m) (T m)) (vma : Vma) (hfuel : 1 < fuel) :
    Ensures (anonPageFault fuel m vma (4096 * q) access) w fun rc w' => ∃ s',
      w' = w.withPhys s' ∧ Faulted (forestOf w T E) w.phys m q vma.writable access rc s' := by
  set F := forestOf w T E with hF
  have hlive : m ∈ F.live := hm
  have hdom : q ∈ F.dom m := hq
  rw [anonPageFault]
  by_cases hdenied : access = .write ∧ ¬vma.writable
  · rw [if_pos hdenied]
    obtain ⟨rfl, hw⟩ := hdenied
    exact ensures_pure.2 ⟨_, rfl, .denied hw⟩
  rw [if_neg hdenied]
  simp only [ensures_bind, ensures_get]
  cases access with
  | read =>
    simp only [if_true, ensures_bind, ensures_onPhys, ensures_pure]
    refine (h.pages.ensures_mmapPages_one hlive hdom h.pages.zero hfuel).mono ?_
    rintro - s' rfl
    exact ⟨_, rfl, .read⟩
  | write =>
    have hw : vma.writable := by
      by_contra hc
      exact hdenied ⟨rfl, hc⟩
    simp only [reduceCtorEq, if_false, ensures_bind, ensures_onPhys]
    refine (h.pages.ensures_mappedPage hlive hdom hfuel).mono ?_
    rintro r s₁ ⟨rfl, rfl⟩
    cases hframe : F.frame w.phys (m, q) with
    | some f =>
      have hbusy := h.pages.busy _ _ hframe
      simp only [ensures_bind, ensures_onPhys]
      refine ensures_copyPage (fun hu => ?_) (fun p word hu hsupply hp => ?_) fun hu => ?_
      · simp only [ensures_bind, ensures_onPhys]
        refine (h.pages.ensures_mmapPages_one hlive hdom hbusy hfuel).mono ?_
        rintro - s' rfl
        have hold : (F.mapped w.phys m q f writeFlags).free f = false := hbusy.2.1
        refine (ensures_putPage hold).2 ?_
        exact ensures_pure.2 ⟨_, rfl, .reuse hw hframe hu⟩
      · simp only [ensures_bind, ensures_onPhys]
        have hkeeps : F.Keeps w.phys F (copied w.phys f p word) :=
          h.pages.keeps_take hp copied_free elsewhere_copied
        have hnew : F.Mappable (copied w.phys f p word) p := h.pages.mappable_take hp copied_free
        refine (hkeeps.ok.ensures_mmapPages_one hlive hdom hnew hfuel).mono ?_
        rintro - s' rfl
        have hold : (F.mapped (copied w.phys f p word) m q p writeFlags).free f = false :=
          (hkeeps.kept f hbusy.2.1 hbusy.1).2.1
        refine (ensures_putPage hold).2 ?_
        exact ensures_pure.2 ⟨_, rfl, .copy hw hframe hu hsupply hp⟩
      · exact ensures_pure.2 ⟨_, rfl, .noMemory hw⟩
    | none =>
      simp only [ensures_bind, ensures_onPhys]
      refine ensures_allocPages (fun p word hsupply hp => ?_) ?_
      · simp only [ensures_bind, ensures_onPhys, clearPage, setU, ensures_modify]
        have hkeeps : F.Keeps w.phys F (allocated w.phys p) :=
          h.pages.keeps_take hp allocated_free elsewhere_allocated
        have hnew : F.Mappable (allocated w.phys p) p := h.pages.mappable_take hp allocated_free
        simp only [World.withPhys, taken, Function.update_idem]
        refine (hkeeps.ok.ensures_mmapPages_one hlive hdom hnew hfuel).mono ?_
        rintro - s' rfl
        exact ensures_pure.2 ⟨_, rfl, .fresh hw hframe hsupply hp⟩
      · exact ensures_pure.2 ⟨_, rfl, .noMemory hw⟩

/-- **`mm_page_fault`** fails outside the areas, and otherwise is `anon_page_fault`. -/
theorem WorldOk.ensures_mmPageFault (h : WorldOk w T E) (hm : w.mmUsed m = true)
    (hfuel : taskSize < fuel) :
    Ensures (mmPageFault fuel m vaddr access) w fun rc w' =>
      (rc = -EINVAL ∧ w' = w ∧ vaddr / 4096 ∉ pagesOf (w.mm m) (T m)) ∨
      ∃ p ∈ (T m).inorder, ((w.mm m).area p).Has (4096 * (vaddr / 4096)) ∧ ∃ s',
        w' = w.withPhys s' ∧ Faulted (forestOf w T E) w.phys m (vaddr / 4096)
          ((w.mm m).area p).writable access rc s' := by
  have hdown : alignDown vaddr = 4096 * (vaddr / 4096) := Nat.mul_comm _ _
  simp only [mmPageFault, hdown, ensures_bind]
  refine (h.areas.ensures_lookupVma hm hfuel).mono ?_
  rintro r w₀ ⟨rfl, ⟨p, hp, rfl, h₁, h₂⟩ | ⟨path, hpath, rfl, hbefore, hafter⟩⟩
  · have hhas : ((w₀.mm m).area p).Has (4096 * (vaddr / 4096)) := ⟨by omega, h₁⟩
    simp only [ensures_bind, ensures_get]
    refine (h.ensures_anonPageFault hm ⟨p, hp, hhas⟩ _
      (show 1 < fuel from lt_trans (by norm_num [taskSize]) hfuel)).mono ?_
    rintro rc w' hw'
    exact Or.inr ⟨p, hp, hhas, hw'⟩
  · refine ensures_pure.2 (Or.inl ⟨rfl, rfl, fun hc => ?_⟩)
    obtain ⟨perm, hperm⟩ := mem_pagesOf.1 hc
    rw [(h.areas.cleared_of_missing hpath hbefore hafter).hasPerm] at hperm
    exact hperm.2 ⟨le_rfl, Nat.lt_succ_self _⟩

end Faults

end Mm

end Kernel64
