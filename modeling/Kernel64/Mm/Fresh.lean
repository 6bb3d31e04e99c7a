import Kernel64.Mm.Faults

/-!
# Mapping fresh pages

`exec` fills pages that it has just allocated, sets their `u.refcount` to 0 and maps them where
nothing is mapped.
-/

namespace Kernel64

namespace Mm

open Paging

/-- The pages that `copy_args` and `map_elf_phdr` map: each is allocated, filled, and given no
references. When there is no memory for one of them, the others are freed. -/
def freshPages : List Buf → PhysM (Option (List Pfn))
  | [] => return some []
  | data :: rest => do
    match ← allocPages with
    | none => return none
    | some page => do
      modify fun s => { s with bytes := Function.update s.bytes page data }
      setU page 0#64
      match ← freshPages rest with
      | none => do
        freePages page
        return none
      | some pages => return some (page :: pages)

/-- Map pages with the given contents from an address on. -/
def mapFresh (fuel m addr : ℕ) (data : List Buf) (flags : PteFlags) : MmM ℤ := do
  match ← onPhys (freshPages data) with
  | none => return -ENOMEM
  | some pages => do
    onPhys (mmapPages fuel ((← get).mm m).pt addr pages flags)
    return 0

section

variable {F : Forest} {s s' : Phys} {m a : ℕ} {x : Pfn → ℕ} {flags : PteFlags}

theorem Forest.Keeps.again {s₁ s₂ s₃ : Phys} (h : F.Keeps s₁ F s₂) (h' : F.Keeps s₂ F s₃) :
    F.Keeps s₁ F s₃ :=
  h.trans h' (fun _ hm => ⟨hm, rfl⟩) (fun _ _ hq _ => hq) fun _ hp => Or.inl hp

/-- Giving back a page that nobody uses. -/
theorem Forest.Ok.keeps_free (h : F.Ok s) {p : Pfn} (hp : F.Mappable s p) (hn : ¬F.Held s p)
    {s₀ : Phys} (hold : s₀.free p = true) (hkeeps : F.Keeps s₀ F s) :
    F.Keeps s₀ F { s with free := Function.update s.free p true } := by
  have hfree : ∀ t, t ≠ p → Function.update s.free p true t = s.free t := fun t ht =>
    Function.update_of_ne ht _ _
  have hok : F.Ok { s with free := Function.update s.free p true } := by
    refine h.congr (fun _ _ => rfl) (fun _ _ => rfl) fun t ht => ?_
    by_cases htp : t = p
    · subst htp
      rw [Forest.Held, not_or] at hn
      exact ⟨hp.2.2, hp.1, hn.2, by omega⟩
    · have ht' := (hfree t htp).symm.trans ht
      exact ⟨h.freeLow t ht', h.of_free ht'⟩
  refine ⟨hok, hkeeps.zero, hkeeps.frame, hkeeps.pte, fun t hf ht => ?_, fun t ht => ?_,
    hkeeps.upper⟩
  · obtain ⟨h₁, h₂, h₃⟩ := hkeeps.kept t hf ht
    have htp : t ≠ p := by
      rintro rfl
      exact Bool.false_ne_true (hf.symm.trans hold)
    exact ⟨h₁, (hfree t htp).trans h₂, h₃⟩
  · by_cases htp : t = p
    · exact Or.inl (htp ▸ hold)
    · exact hkeeps.freed t ((hfree t htp).symm.trans ht)

/-- Pages that have been taken from the allocator. -/
structure Forest.Takes (F : Forest) (s : Phys) (pages : List Pfn) (s' : Phys) : Prop where
  keeps : F.Keeps s F s'
  nodup : pages.Nodup
  page : ∀ p ∈ pages, s.free p = true ∧ s'.free p = false ∧ s'.u p = 0#64

/-- **Allocating fresh pages**, all of them or none. -/
theorem Forest.Ok.ensures_freshPages : ∀ (data : List Buf) {s : Phys}, F.Ok s →
    Ensures (freshPages data) s fun r s' =>
      (∃ pages, r = some pages ∧ pages.length = data.length ∧ F.Takes s pages s') ∨
        (r = none ∧ F.Keeps s F s')
  | [], s, h => by
    rw [freshPages]
    exact ensures_pure.2 (Or.inl ⟨[], rfl, rfl, h.keeps_self, List.nodup_nil,
      fun _ hp => absurd hp List.not_mem_nil⟩)
  | data :: rest, s, h => by
    rw [freshPages]
    simp only [ensures_bind]
    refine ensures_allocPages (fun p word _ hp => ?_) ?_
    swap
    · exact ensures_pure.2 (Or.inr ⟨rfl, h.keeps_refused⟩)
    simp only [ensures_bind, ensures_modify, setU]
    set s₁ : Phys :=
      { taken s p word with
        bytes := Function.update (taken s p word).bytes p data
        u := Function.update (taken s p word).u p 0#64 } with hs₁
    have hbusy : s₁.free p = false := Function.update_self _ _ _
    have hzero : s₁.u p = 0#64 := Function.update_self _ _ _
    have hother : Elsewhere p s s₁ := fun t ht =>
      ⟨Function.update_of_ne ht _ _, rfl,
        (Function.update_of_ne ht _ _).trans (Function.update_of_ne ht _ _),
        Function.update_of_ne ht _ _⟩
    have hkeeps₁ : F.Keeps s F s₁ := h.keeps_take hp hbusy hother
    have hunused : ¬F.Held s p := by
      obtain ⟨-, hz, hrefs⟩ := h.of_free hp
      rintro (hc | hc)
      · omega
      · exact hz hc
    refine (ensures_freshPages rest hkeeps₁.ok).mono ?_
    rintro r s₂ (⟨pages, rfl, hlen, htakes⟩ | ⟨rfl, hkeeps₂⟩)
    · obtain ⟨-, h₂, -, h₄, -⟩ := htakes.keeps.kept p hbusy (h.of_free hp).1
      refine ensures_pure.2 (Or.inl ⟨p :: pages, rfl, by rw [List.length_cons, hlen,
        List.length_cons], hkeeps₁.again htakes.keeps, List.nodup_cons.2 ⟨fun hc => ?_, htakes.nodup⟩,
        fun p' hp' => ?_⟩)
      · exact Bool.false_ne_true (hbusy.symm.trans (htakes.page p hc).1)
      · rcases List.mem_cons.1 hp' with rfl | hp'
        · exact ⟨hp, h₂, h₄.trans hzero⟩
        · obtain ⟨h₅, h₆, h₇⟩ := htakes.page p' hp'
          refine ⟨(hkeeps₁.freed p' h₅).resolve_right fun hc => ?_, h₆, h₇⟩
          exact (hkeeps₁.ok.of_free h₅).1 hc
    · obtain ⟨h₁, h₂, -⟩ := hkeeps₂.kept p hbusy (h.of_free hp).1
      have hall := hkeeps₁.again hkeeps₂
      have hn : ¬F.Held s₂ p := fun hc => hunused ((hall.held p).1 hc)
      simp only [freePages, ensures_bind, ensures_get, h₂, Bool.false_eq_true, if_false,
        ensures_modify, ensures_pure]
      refine Or.inr ⟨trivial, ?_⟩
      exact hall.ok.keeps_free ⟨h₁, h₂, h.freeLow p hp⟩ hn hp hall

/-- Mapping uncounted pages where nothing is mapped. -/
theorem Forest.Ok.counted_mapMany : ∀ {pages : List Pfn} {a : ℕ} {s : Phys}, F.Ok s →
    F.Counted s (fun _ => 0) → m ∈ F.live → (∀ q, a ≤ q → q < a + pages.length → q ∈ F.dom m) →
    (∀ q, a ≤ q → q < a + pages.length → F.frame s (m, q) = none) → pages.Nodup →
    (∀ p ∈ pages, F.Mappable s p ∧ ¬F.Held s p ∧ s.u p = 0#64) →
    F.Counted (F.mapMany m flags a pages s) (fun _ => 0) ∧
      ∀ p, F.Held s p → F.Held (F.mapMany m flags a pages s) p
  | [], _, s, _, hc, _, _, _, _, _ => ⟨hc, fun _ hp => hp⟩
  | p :: pages, a, s, h, hc, hm, hdom, habs, hnodup, hpages => by
    obtain ⟨hp, hn, hu⟩ := hpages p List.mem_cons_self
    obtain ⟨hnot, hnodup⟩ := List.nodup_cons.1 hnodup
    have hq : a ∈ F.dom m := hdom a le_rfl (by rw [List.length_cons]; omega)
    have htotal : F.total s (fun _ => 0) p = 0 := Forest.total_eq_zero_iff.2 ⟨hn, rfl⟩
    have hcount : (s.u p).toNat = F.total s (fun _ => 0) p := by
      rw [htotal, hu]
      rfl
    obtain ⟨hc₁, hheld₁⟩ : F.Counted (F.mapped s m a p flags) (fun _ => 0) ∧ _ :=
      h.counted_mapped hc hm hq (habs a le_rfl (by rw [List.length_cons]; omega)) hp hcount
        (by rw [htotal]; norm_num)
    rw [List.length_cons] at hdom habs
    have hok₁ : F.Ok (F.mapped s m a p flags) := h.mapped hm hq hp
    have habs₁ : ∀ q, a + 1 ≤ q → q < a + 1 + pages.length →
        F.frame (F.mapped s m a p flags) (m, q) = none := by
      intro q h₃ h₄
      rw [h.frame_mapped hm hq hp, Function.update_of_ne]
      · exact habs q (by omega) (by omega)
      · intro hc
        have := (Prod.mk.inj hc).2
        omega
    have hpages₁ : ∀ p' ∈ pages, F.Mappable (F.mapped s m a p flags) p' ∧
        ¬F.Held (F.mapped s m a p flags) p' ∧ (F.mapped s m a p flags).u p' = 0#64 := by
      intro p' hp'
      obtain ⟨h₃, h₄, h₅⟩ := hpages p' (List.mem_cons_of_mem p hp')
      have hne : p' ≠ p := fun heq => hnot (heq ▸ hp')
      refine ⟨h₃, fun hc => ?_, (Function.update_of_ne hne _ _).trans h₅⟩
      rcases (hheld₁ p').1 hc with hc | hc
      · exact h₄ hc
      · exact hne hc
    obtain ⟨h₁, h₂⟩ := counted_mapMany hok₁ hc₁ hm (fun q h₃ h₄ => hdom q (by omega) (by omega))
      habs₁ hnodup hpages₁
    exact ⟨h₁, fun g hg => h₂ g ((hheld₁ g).2 (Or.inl hg))⟩

end

end Mm

end Kernel64
