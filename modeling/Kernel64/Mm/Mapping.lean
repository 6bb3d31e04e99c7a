import Kernel64.Mm.Pages

/-!
# Mapping and unmapping pages

The functions that write entries at level 0: `__mmap_pages`, `__munmap_pages` and `mapped_page`.
Each works on pages that have been asked for, where the tables are there, and leaves the tables
alone.
-/

namespace Kernel64

namespace Mm

open Paging

section

variable {F : Forest} {s s' : Phys} {m q fuel : ℕ} {f : Pfn} {x : Pfn → ℕ} {flags : PteFlags}

/-! ### One page -/

theorem Forest.frame_afterPut (F : Forest) (s : Phys) (f : Pfn) :
    F.frame (afterPut s f) = F.frame s :=
  Forest.Ok.frame_congr fun _ _ => rfl

theorem Forest.frame_afterGet (F : Forest) (s : Phys) (f : Pfn) :
    F.frame (afterGet s f) = F.frame s :=
  Forest.Ok.frame_congr fun _ _ => rfl

theorem Forest.total_congr (h : F.frame s' = F.frame s) (f : Pfn) :
    F.total s' x f = F.total s x f := by
  rw [Forest.total, Forest.total, h]

theorem Forest.held_congr (h : F.frame s' = F.frame s) (f : Pfn) : F.Held s' f ↔ F.Held s f := by
  rw [Forest.Held, Forest.Held, h]

/-- A page is held or has no reference but those in excess. -/
theorem Forest.total_eq_zero_iff : F.total s x f = 0 ↔ ¬F.Held s f ∧ x f = 0 := by
  rw [Forest.total, Forest.Held]
  split_ifs with hz
  · simp [hz]
  · simp [hz, Nat.pos_iff_ne_zero]

theorem toNat_sub_one {w : BitVec 64} {n : ℕ} (h : w.toNat = n + 1) : (w - 1#64).toNat = n := by
  have hlt := w.isLt
  rw [BitVec.toNat_sub]
  simp only [BitVec.toNat_ofNat]
  omega

theorem toNat_add_one {w : BitVec 64} {n : ℕ} (h : w.toNat = n) (hlt : n + 1 < 2 ^ 64) :
    (w + 1#64).toNat = n + 1 := by
  rw [BitVec.toNat_add]
  simp only [BitVec.toNat_ofNat]
  omega

/-- **`put_page`** takes back a reference that is counted but not there. -/
theorem Forest.Ok.put (h : F.Ok s)
    (hc : ∀ p, F.Held s p → p ≠ f → (s.u p).toNat = F.total s x p) (hf : F.Mappable s f)
    (hu : (s.u f).toNat = F.total s x f + 1) :
    F.Ok (afterPut s f) ∧ F.Counted (afterPut s f) x ∧
      ∀ p, (afterPut s f).free p = true ↔ s.free p = true ∨ (p = f ∧ F.total s x f = 0) := by
  have hone : s.u f = 1#64 ↔ F.total s x f = 0 := by
    rw [← BitVec.toNat_inj, hu]
    simp
  have hfree : ∀ p, (afterPut s f).free p = true ↔
      s.free p = true ∨ (p = f ∧ F.total s x f = 0) := by
    intro p
    simp only [afterPut, hone]
    split_ifs with hp
    · exact ⟨fun _ => Or.inr hp, fun _ => rfl⟩
    · exact ⟨Or.inl, fun h => h.resolve_right hp⟩
  refine ⟨h.congr (fun _ _ => rfl) (fun p hp => ?_) fun p hp => ?_, fun p hp => ?_, hfree⟩
  · have hne : p ≠ f := fun heq => hf.1 (heq ▸ hp)
    simp only [afterPut, Function.update_of_ne hne]
  · rcases (hfree p).1 hp with hp | ⟨rfl, hp⟩
    · exact ⟨h.freeLow p hp, h.of_free hp⟩
    · obtain ⟨hheld, -⟩ := Forest.total_eq_zero_iff.1 hp
      rw [Forest.Held, not_or] at hheld
      exact ⟨hf.2.2, hf.1, hheld.2, by omega⟩
  · rw [Forest.held_congr (F.frame_afterPut s f)] at hp
    rw [Forest.total_congr (F.frame_afterPut s f)]
    by_cases hne : p = f
    · subst hne
      simp only [afterPut, Function.update_self]
      exact toNat_sub_one hu
    · simp only [afterPut, Function.update_of_ne hne]
      exact hc p hp hne

/-- **`get_page`** of a page that can be mapped. -/
theorem Forest.Ok.get (h : F.Ok s) (hf : F.Mappable s f) : F.Ok (afterGet s f) := by
  refine h.congr (fun _ _ => rfl) (fun p hp => ?_) fun p hp => ⟨h.freeLow p hp, h.of_free hp⟩
  have hne : p ≠ f := fun heq => hf.1 (heq ▸ hp)
  simp only [afterGet, Function.update_of_ne hne]

/-- The state after a page has been mapped. -/
def Forest.mapped (F : Forest) (s : Phys) (m q : ℕ) (f : Pfn) (flags : PteFlags) : Phys :=
  F.remapped (afterGet s f) m q (pageEntry f flags)

theorem Forest.Ok.mapped (h : F.Ok s) (hm : m ∈ F.live) (hq : q ∈ F.dom m)
    (hf : F.Mappable s f) : F.Ok (F.mapped s m q f flags) :=
  (h.get hf).remapped hm hq fun _ => hf

theorem Forest.Ok.frame_mapped (h : F.Ok s) (hm : m ∈ F.live) (hq : q ∈ F.dom m)
    (hf : F.Mappable s f) :
    F.frame (F.mapped s m q f flags) = Function.update (F.frame s) (m, q) (some f) := by
  rw [Forest.mapped, (h.get hf).frame_remapped hm hq, F.frame_afterGet]
  rfl

/-- A new mapping of a counted page, where nothing was mapped, is counted. -/
theorem Forest.Ok.counted_mapped (h : F.Ok s) (hc : F.Counted s x) (hm : m ∈ F.live)
    (hq : q ∈ F.dom m) (hnone : F.frame s (m, q) = none) (hf : F.Mappable s f)
    (hu : (s.u f).toNat = F.total s x f) (hlt : F.total s x f + 1 < 2 ^ 64) :
    F.Counted (F.mapped s m q f flags) x ∧
      ∀ p, F.Held (F.mapped s m q f flags) p ↔ F.Held s p ∨ p = f := by
  have hrefs : ∀ p, refs (F.frame (F.mapped s m q f flags)) p =
      refs (F.frame s) p + if p = f then 1 else 0 := by
    intro p
    have hframe : F.frame (F.mapped s m q f flags) = _ := h.frame_mapped hm hq hf
    have := refs_update h.sparse (m, q) (some f) p
    rw [← hframe, hnone] at this
    simpa [eq_comm (a := f)] using this
  have hheld : ∀ p, F.Held (F.mapped s m q f flags) p ↔ F.Held s p ∨ p = f := by
    intro p
    rw [Forest.Held, Forest.Held, hrefs]
    split_ifs with hp
    · simp [hp]
    · simp [hp]
  refine ⟨fun p hp => ?_, hheld⟩
  rw [hheld] at hp
  rw [Forest.total, hrefs]
  by_cases hpf : p = f
  · subst hpf
    have hget : (F.mapped s m q p flags).u p = s.u p + 1#64 := Function.update_self _ _ _
    rw [hget, toNat_add_one hu hlt, Forest.total, if_pos rfl]
    omega
  · have hget : (F.mapped s m q f flags).u p = s.u p := Function.update_of_ne hpf _ _
    rw [hget, hc p (hp.resolve_right hpf), Forest.total, if_neg hpf, Nat.add_zero]

/-! ### Unmapping -/

/-- The state after the entry of a page has been cleared and its frame put. -/
def Forest.unmapped (F : Forest) (s : Phys) (m q : ℕ) : Phys :=
  if (F.pte s m q).present then afterPut (F.remapped s m q .zero) (F.pte s m q).pfn
  else F.remapped s m q .zero

/-- **Unmapped pages.** The pages from `a` to `b` are unmapped, and the frames that lost their last
reference are free. -/
structure Forest.Unmaps (F : Forest) (x : Pfn → ℕ) (m a b : ℕ) (s s' : Phys) : Prop where
  ok : F.Ok s'
  counted : F.Counted s' x
  inside : ∀ q, a ≤ q → q < b → F.pte s' m q = .zero
  outside : ∀ m' ∈ F.live, ∀ q, F.LiveAt m' 0 (q / 512) → ¬(m' = m ∧ a ≤ q ∧ q < b) →
    F.pte s' m' q = F.pte s m' q
  bytes : s'.bytes = s.bytes
  supply : s'.supply = s.supply
  tables : ∀ t, (∀ g, F.LiveAt m 0 g → F.tabAt m 0 g ≠ t) → s'.table t = s.table t
  freed : ∀ p, s'.free p = true ↔ s.free p = true ∨ (F.Held s p ∧ ¬F.Held s' p ∧ x p = 0)

theorem Forest.Ok.unmaps_self (h : F.Ok s) (hc : F.Counted s x) (m a : ℕ) :
    F.Unmaps x m a a s s :=
  ⟨h, hc, fun q h₁ h₂ => absurd h₂ (by omega), fun _ _ _ _ _ => rfl, rfl, rfl, fun _ _ => rfl,
    fun p => ⟨Or.inl, fun hp => hp.elim id fun hp => absurd hp.1 hp.2.1⟩⟩

/-- The map of frames after a page has been unmapped. -/
theorem Forest.Ok.frame_unmapped (h : F.Ok s) (hm : m ∈ F.live) (hq : q ∈ F.dom m) :
    F.frame (F.unmapped s m q) = Function.update (F.frame s) (m, q) none := by
  rw [Forest.unmapped]
  split_ifs
  · rw [F.frame_afterPut, h.frame_remapped hm hq]
    rfl
  · rw [h.frame_remapped hm hq]
    rfl

/-- Unmapping one page. -/
theorem Forest.Ok.unmaps_one (h : F.Ok s) (hc : F.Counted s x) (hm : m ∈ F.live)
    (hq : q ∈ F.dom m) : F.Unmaps x m q (q + 1) s (F.unmapped s m q) := by
  have hok : F.Ok (F.remapped s m q .zero) := h.remapped hm hq fun hp => nomatch hp
  have hframe₀ : F.frame (F.remapped s m q .zero) = Function.update (F.frame s) (m, q) none :=
    h.frame_remapped hm hq
  have htable : (F.unmapped s m q).table = (F.remapped s m q .zero).table := by
    rw [Forest.unmapped]
    split_ifs <;> rfl
  have hpte : ∀ m' q', F.pte (F.unmapped s m q) m' q' = F.pte (F.remapped s m q .zero) m' q' :=
    fun m' q' => by rw [Forest.pte, Forest.pte, htable]
  have hrefs : ∀ p, refs (F.frame (F.unmapped s m q)) p + (if F.frame s (m, q) = some p then 1 else 0)
      = refs (F.frame s) p := fun p => by
    rw [h.frame_unmapped hm hq]
    exact refs_update_none_add h.sparse (m, q) p
  -- the memory apart from the counter and the allocator's list
  have hrest : F.Ok (F.unmapped s m q) ∧ F.Counted (F.unmapped s m q) x ∧
      ∀ p, (F.unmapped s m q).free p = true ↔
        s.free p = true ∨ (F.Held s p ∧ ¬F.Held (F.unmapped s m q) p ∧ x p = 0) := by
    by_cases hp : (F.pte s m q).present = true
    · set f := (F.pte s m q).pfn with hf
      have hold : F.frame s (m, q) = some f := by rw [Forest.frame_eq hm hq, if_pos hp]
      have hun : F.unmapped s m q = afterPut (F.remapped s m q .zero) f := by
        rw [Forest.unmapped, if_pos hp]
      have hsame : F.frame (F.remapped s m q .zero) = F.frame (F.unmapped s m q) :=
        hframe₀.trans (h.frame_unmapped hm hq).symm
      have hheldf : F.Held s f := Or.inl ((refs_pos_iff h.sparse).2 ⟨_, hold⟩)
      have htotal : ∀ p, F.total (F.remapped s m q .zero) x p + (if p = f then 1 else 0) =
          F.total s x p := by
        intro p
        have := hrefs p
        rw [hold] at this
        simp only [Option.some_inj, eq_comm (a := f)] at this
        rw [Forest.total, Forest.total, hsame]
        omega
      have hothers : ∀ p, F.Held (F.remapped s m q .zero) p → p ≠ f →
          (s.u p).toNat = F.total (F.remapped s m q .zero) x p := by
        intro p hheld hne
        have heq := htotal p
        rw [if_neg hne, Nat.add_zero] at heq
        rw [Forest.Held, hsame] at hheld
        have hle := hrefs p
        rw [heq]
        exact hc p (hheld.imp_left fun hpos => by omega)
      have hown : (s.u f).toNat = F.total (F.remapped s m q .zero) x f + 1 := by
        rw [hc f hheldf, ← htotal f, if_pos rfl]
      obtain ⟨h₁, h₂, h₃⟩ := hok.put hothers (h.busy _ _ hold) hown
      rw [hun]
      refine ⟨h₁, h₂, fun p => (h₃ p).trans (or_congr Iff.rfl ?_)⟩
      rw [Forest.held_congr (F.frame_afterPut _ f)]
      constructor
      · rintro ⟨rfl, hz⟩
        exact ⟨hheldf, Forest.total_eq_zero_iff.1 hz⟩
      · rintro ⟨hheld, hnot⟩
        have hz := Forest.total_eq_zero_iff.2 hnot
        have hpf : p = f := by
          by_contra hne
          have := htotal p
          rw [if_neg hne, Nat.add_zero, hz] at this
          exact (Forest.total_eq_zero_iff.1 this.symm).1 hheld
        exact ⟨hpf, hpf ▸ hz⟩
    · have hold : F.frame s (m, q) = none := by rw [Forest.frame_eq hm hq, if_neg hp]
      have hun : F.unmapped s m q = F.remapped s m q .zero := by
        rw [Forest.unmapped, if_neg hp]
      have hsame : F.frame (F.unmapped s m q) = F.frame s := by
        rw [h.frame_unmapped hm hq, ← hold, Function.update_eq_self]
      rw [hun] at hsame ⊢
      refine ⟨hok, fun p hheld => ?_, fun p => ?_⟩
      · rw [Forest.total_congr hsame]
        exact hc p ((Forest.held_congr hsame p).1 hheld)
      · rw [Forest.held_congr hsame]
        exact ⟨Or.inl, fun hp => hp.elim id fun hp => absurd hp.1 hp.2.1⟩
  obtain ⟨h₁, h₂, h₃⟩ := hrest
  refine ⟨h₁, h₂, fun q' hle hlt => ?_, fun m' hm' q' hl hne => ?_, ?_, ?_, fun t ht => ?_, h₃⟩
  · obtain rfl : q' = q := by omega
    rw [hpte, h.pte_remapped hm hq hm (Forest.liveAt_of_mem hq), if_pos ⟨rfl, rfl⟩]
  · rw [hpte, h.pte_remapped hm hq hm' hl, if_neg fun hc => hne ⟨hc.1, by omega, by omega⟩]
  · rw [Forest.unmapped]
    split_ifs <;> rfl
  · rw [Forest.unmapped]
    split_ifs <;> rfl
  · rw [htable]
    exact Function.update_of_ne (ht _ (Forest.liveAt_of_mem hq)).symm _ _

/-- What is held afterwards was held before. -/
theorem Forest.Unmaps.held {m a b : ℕ} (h : F.Unmaps x m a b s s') (hok : F.Ok s) {p : Pfn}
    (hp : F.Held s' p) : F.Held s p := by
  rcases hp with hp | hp
  · obtain ⟨⟨m', q'⟩, hi⟩ := (refs_pos_iff h.ok.sparse).1 hp
    refine Or.inl ((refs_pos_iff hok.sparse).2 ⟨(m', q'), ?_⟩)
    obtain ⟨h₁, h₂, h₃, h₄⟩ := Forest.frame_eq_some.1 hi
    have hout : ¬(m' = m ∧ a ≤ q' ∧ q' < b) := by
      rintro ⟨rfl, ha, hb⟩
      rw [h.inside q' ha hb] at h₃
      exact Bool.false_ne_true h₃
    rw [h.outside m' h₁ q' (Forest.liveAt_of_mem h₂) hout] at h₃ h₄
    exact Forest.frame_eq_some.2 ⟨h₁, h₂, h₃, h₄⟩
  · exact Or.inr hp

theorem Forest.Unmaps.trans {m a b c : ℕ} {s₁ s₂ s₃ : Phys} (hm : m ∈ F.live)
    (hdom : ∀ q, a ≤ q → q < c → q ∈ F.dom m) (hab : a ≤ b) (hbc : b ≤ c)
    (h : F.Unmaps x m a b s₁ s₂) (h' : F.Unmaps x m b c s₂ s₃) (hok : F.Ok s₁) :
    F.Unmaps x m a c s₁ s₃ := by
  refine ⟨h'.ok, h'.counted, fun q h₁ h₂ => ?_, fun m' hm' q hl hne => ?_, h'.bytes.trans h.bytes,
    h'.supply.trans h.supply, fun t ht => (h'.tables t ht).trans (h.tables t ht), fun p => ?_⟩
  · rcases Nat.lt_or_ge q b with hlt | hge
    · rw [h'.outside m hm q (Forest.liveAt_of_mem (hdom q h₁ h₂)) (by omega), h.inside q h₁ hlt]
    · exact h'.inside q hge h₂
  · rw [h'.outside m' hm' q hl (by omega), h.outside m' hm' q hl (by omega)]
  · have h₁ : F.Held s₃ p → F.Held s₂ p := fun hp => h'.held h.ok hp
    have h₂ : F.Held s₂ p → F.Held s₁ p := fun hp => h.held hok hp
    rw [h'.freed, h.freed, or_assoc]
    refine or_congr Iff.rfl ?_
    by_cases hp : F.Held s₂ p <;> tauto

/-! ### Loops -/

/-- The slot at level 0 of a page. -/
theorem ensures_leafSlot_path {root : Pfn} {E : ℕ → ℕ → Pte} {Q : Pfn × ℕ → Phys → Prop} :
    Ensures (leafSlot (pathIter root E q)) s Q ↔ Q (tab root E 0 (q / 512), q % 512) s := by
  have hpt : (pathIter root E q).pt 0 = some (tab root E 0 (q / 512)) := by
    simp only [pathIter, Nat.zero_le, if_true, Nat.zero_add, pow_one]
  have hidx : (pathIter root E q).idx 0 = q % 512 := by
    simp only [pathIter, Nat.zero_le, if_true, digit, pow_zero, Nat.div_one]
  have hlevel : (pathIter root E q).level = 0 := rfl
  simp only [leafSlot, dbgAssert, hlevel, if_true, ensures_bind, ensures_pure, hpt, hidx]

/-- The slot of a page asked for. -/
theorem ensures_leafSlot {Q : Pfn × ℕ → Phys → Prop} :
    Ensures (leafSlot (pathIter (F.root m) (F.entry m) q)) s Q ↔
      Q (F.tabAt m 0 (q / 512), q % 512) s :=
  ensures_leafSlot_path

/-- The pages from `a` to `b` of an address space in use have been asked for. -/
structure Forest.Asked (F : Forest) (m a b : ℕ) : Prop where
  live : m ∈ F.live
  dom : ∀ q, a ≤ q → q < b → q ∈ F.dom m

theorem Forest.Asked.leaf {a b : ℕ} (h : F.Asked m a b) :
    ∀ q, a ≤ q → q < b → 0 < load (counts (F.dom m)) 0 (q / 512) :=
  fun q h₁ h₂ => leaf_pos_of_mem (h.dom q h₁ h₂)

theorem Forest.Asked.le_userPages {a b : ℕ} (h : F.Asked m a b) (hok : F.Ok s) (hab : a < b) :
    b ≤ userPages := by
  have := hok.user h.live (h.dom (b - 1) (by omega) (by omega))
  omega

theorem pageSize_mul_mod (a : ℕ) : 4096 * a % pageSize = 0 := Nat.mul_mod_right _ _

/-- The end of a range of pages, as the code computes it. -/
theorem range_end {a b : ℕ} (hab : a ≤ b) (hb : b ≤ userPages) :
    (4096 * a + (b - a) * pageSize) % 2 ^ 64 = 4096 * b := by
  unfold userPages at hb
  rw [pageSize]
  omega

/-- **`__munmap_pages`** over pages asked for. -/
theorem Forest.Ok.ensures_munmapPages {a b : ℕ} (h : F.Ok s) (hc : F.Counted s x)
    (hasked : F.Asked m a b) (hab : a < b) (hfuel : b - a < fuel) :
    Ensures (munmapPages fuel (F.root m) (4096 * a) (b - a)) s fun _ s' =>
      F.Unmaps x m a b s s' := by
  have hb := hasked.le_userPages h hab
  rw [munmapPages, dbgAssert, if_pos (pageSize_mul_mod a), range_end hab.le hb]
  simp only [ensures_bind, ensures_pure]
  refine (ensures_forEachSlot (C := counts (F.dom m)) (E := F.entry m)
    (I := fun p s' => F.Unmaps x m a p s s') hab hb hfuel
    (fun p s' hI => hI.ok.tables m hasked.live) hasked.leaf (fun p s' h₁ h₂ hI => ?_)
    (h.unmaps_self hc m a)).mono fun r s' hr => hr.2
  rw [ensures_bind, ensures_leafSlot]
  have hone := hI.ok.unmaps_one hI.counted hasked.live (hasked.dom p h₁ h₂)
  have hall := hI.trans hasked.live (fun q h₃ h₄ => hasked.dom q h₃ (by omega)) h₁
    (Nat.le_succ p) hone h
  have hpte : s'.table (F.tabAt m 0 (p / 512)) (p % 512) = F.pte s' m p := rfl
  simp only [setEntry, ensures_bind, ensures_get, ensures_modify, hpte, ensures_ite, ensures_pure,
    true_and]
  rw [Forest.unmapped] at hall
  refine ⟨fun hp => ?_, fun hp => by rwa [if_neg hp] at hall⟩
  rw [if_pos hp] at hall
  have hframe : F.frame s' (m, p) = some (F.pte s' m p).pfn :=
    Forest.frame_eq_some.2 ⟨hasked.live, hasked.dom p h₁ h₂, hp, rfl⟩
  have hbusy : (F.remapped s' m p .zero).free (F.pte s' m p).pfn = false :=
    (hI.ok.busy _ _ hframe).2.1
  exact (ensures_putPage hbusy).2 hall

/-- **`mapped_page`** of a page asked for. -/
theorem Forest.Ok.ensures_mappedPage (h : F.Ok s) (hm : m ∈ F.live) (hq : q ∈ F.dom m)
    (hfuel : 1 < fuel) :
    Ensures (mappedPage fuel (F.root m) (4096 * q)) s fun r s' =>
      s' = s ∧ r = F.frame s (m, q) := by
  have hasked : F.Asked m q (q + 1) :=
    ⟨hm, fun q' h₁ h₂ => by rwa [show q' = q by omega]⟩
  have hb := hasked.le_userPages h (Nat.lt_succ_self q)
  have hend : (4096 * q + pageSize) % 2 ^ 64 = 4096 * (q + 1) := by
    unfold userPages at hb
    rw [pageSize]
    omega
  rw [mappedPage, hend]
  refine (ensures_forEachSlot_leave (C := counts (F.dom m)) (E := F.entry m)
    (I := fun p s' => s' = s ∧ (q < p → F.frame s (m, q) = none))
    (R := fun f s' => s' = s ∧ F.frame s (m, q) = some f) (Nat.lt_succ_self q) hb (by omega)
    (fun p s' hI => hI.1 ▸ h.tables m hm) hasked.leaf (fun p s' h₁ h₂ hI => ?_)
    ⟨rfl, fun hlt => absurd hlt (by omega)⟩).mono ?_
  · obtain rfl : p = q := by omega
    obtain ⟨rfl, -⟩ := hI
    rw [ensures_bind, ensures_leafSlot]
    have hpte : s'.table (F.tabAt m 0 (p / 512)) (p % 512) = F.pte s' m p := rfl
    have hframe := Forest.frame_eq (s := s') hm hq
    simp only [ensures_bind, ensures_get, hpte, ensures_pure]
    by_cases hp : (F.pte s' m p).present = true
    · rw [if_pos hp] at hframe ⊢
      exact Or.inr ⟨_, rfl, trivial, hframe⟩
    · rw [if_neg hp] at hframe ⊢
      exact Or.inl ⟨rfl, trivial, fun _ => hframe⟩
  · rintro r s' (⟨rfl, rfl, hnone⟩ | ⟨f, rfl, rfl, hsome⟩)
    · exact ⟨rfl, (hnone (Nat.lt_succ_self q)).symm⟩
    · exact ⟨rfl, hsome.symm⟩

/-- The state after pages have been mapped one after the other. -/
def Forest.mapMany (F : Forest) (m : ℕ) (flags : PteFlags) : ℕ → List Pfn → Phys → Phys
  | _, [], s => s
  | q, f :: pages, s => F.mapMany m flags (q + 1) pages (F.mapped s m q f flags)

/-- **`__mmap_pages`** over pages asked for. -/
theorem Forest.Ok.ensures_mmapPages {a : ℕ} {pages : List Pfn} (h : F.Ok s) (hne : pages ≠ [])
    (hasked : F.Asked m a (a + pages.length)) (hpages : ∀ f ∈ pages, F.Mappable s f)
    (hfuel : pages.length < fuel) :
    Ensures (mmapPages fuel (F.root m) (4096 * a) pages flags) s fun _ s' =>
      F.Ok s' ∧ s' = F.mapMany m flags a pages s := by
  have hlen : 0 < pages.length := List.length_pos_iff.2 hne
  have hb := hasked.le_userPages h (by omega)
  have hend := range_end (a := a) (b := a + pages.length) (by omega) hb
  rw [Nat.add_sub_cancel_left] at hend
  rw [mmapPages, dbgAssert, if_pos (pageSize_mul_mod a), hend]
  simp only [ensures_bind, ensures_pure]
  refine (ensures_forEachSlot (C := counts (F.dom m)) (E := F.entry m)
    (I := fun p s' => (F.Ok s' ∧ ∀ f ∈ pages, F.Mappable s' f) ∧
      F.mapMany m flags p (pages.drop (p - a)) s' = F.mapMany m flags a pages s)
    (by omega) hb (by omega) (fun p s' hI => hI.1.1.tables m hasked.live) hasked.leaf
    (fun p s' h₁ h₂ hI => ?_) ⟨⟨h, hpages⟩, by rw [Nat.sub_self, List.drop_zero]⟩).mono ?_
  · obtain ⟨⟨hok, hmap⟩, hrest⟩ := hI
    have hidx : p - a < pages.length := by omega
    have hmem := List.getElem_mem hidx
    rw [ensures_bind, ensures_leafSlot]
    simp only [List.getElem?_eq_getElem hidx, setEntry, ensures_bind, ensures_getPage,
      ensures_modify, ensures_pure, true_and]
    refine ⟨⟨hok.mapped hasked.live (hasked.dom p h₁ h₂) (hmap _ hmem), fun f hf => hmap f hf⟩, ?_⟩
    rw [List.drop_eq_getElem_cons hidx, Forest.mapMany] at hrest
    rw [show p + 1 - a = p - a + 1 by omega]
    exact hrest
  · rintro r s' ⟨-, ⟨hok, -⟩, hrest⟩
    rw [Nat.add_sub_cancel_left, List.drop_length, Forest.mapMany] at hrest
    exact ⟨hok, hrest⟩

/-- `__mmap_pages` for one page. -/
theorem Forest.Ok.ensures_mmapPages_one (h : F.Ok s) (hm : m ∈ F.live) (hq : q ∈ F.dom m)
    (hf : F.Mappable s f) (hfuel : 1 < fuel) :
    Ensures (mmapPages fuel (F.root m) (4096 * q) [f] flags) s fun _ s' =>
      s' = F.mapped s m q f flags := by
  have hasked : F.Asked m q (q + [f].length) :=
    ⟨hm, fun q' h₁ h₂ => by
      rw [List.length_singleton] at h₂
      rwa [show q' = q by omega]⟩
  refine (h.ensures_mmapPages (List.cons_ne_nil f []) hasked (fun p hp => ?_) hfuel).mono
    fun _ s' hs' => hs'.2
  rw [List.mem_singleton.1 hp]
  exact hf

end

end Mm

end Kernel64
