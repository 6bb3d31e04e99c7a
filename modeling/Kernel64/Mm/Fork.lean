import Kernel64.Mm.Spaces

/-!
# Copying address spaces

`copy_mm` goes through the areas of an address space in order. For each it asks for an area of the
same range in the other address space, takes the write permission from the pages mapped in it, and
maps them there too, without write permission. `Forks` says what has been done after some of the
areas: `copy_mm` stops early when there is no memory for an area.
-/

namespace Kernel64

namespace Mm

open Paging Rb ColorTree

/-- The entry without the permission to write, when it maps a page. -/
def dimmed (e : Pte) : Pte := if e.present then { e with write := false } else e

section Pages

variable {F : Forest} {s s' : Phys} {src dst q a b : ℕ} {x : Pfn → ℕ}

theorem dimmed_present (e : Pte) : (dimmed e).present = e.present := by
  rw [dimmed]
  split_ifs <;> rfl

theorem dimmed_pfn (e : Pte) : (dimmed e).pfn = e.pfn := by
  rw [dimmed]
  split_ifs <;> rfl

theorem dimmed_of_present {e : Pte} (h : e.present = true) : dimmed e = { e with write := false } :=
  if_pos h

theorem dimmed_of_absent {e : Pte} (h : ¬e.present = true) : dimmed e = e := if_neg h

theorem Forest.remapped_self (F : Forest) (s : Phys) (m q : ℕ) :
    F.remapped s m q (F.pte s m q) = s := by
  simp only [Forest.remapped, stored, Forest.pte, Function.update_eq_self]

/-- The state after the page `q` of `src` has been copied to `dst`. -/
def Forest.shared (F : Forest) (s : Phys) (src dst q : ℕ) : Phys :=
  if (F.pte s src q).present then
    F.mapped (F.remapped s src q (dimmed (F.pte s src q))) dst q (F.pte s src q).pfn readFlags
  else s

/-- **Shared pages.** The pages from `a` to `b` of `src` are mapped in `dst` too, and cannot be
written in either. -/
structure Forest.Shares (F : Forest) (x : Pfn → ℕ) (src dst a b : ℕ) (s s' : Phys) : Prop where
  ok : F.Ok s'
  counted : F.Counted s' x
  source : ∀ q, a ≤ q → q < b → F.pte s' src q = dimmed (F.pte s src q)
  copy : ∀ q, a ≤ q → q < b → F.pte s' dst q =
    if (F.pte s src q).present then pageEntry (F.pte s src q).pfn readFlags else F.pte s dst q
  outside : ∀ m ∈ F.live, ∀ q, F.LiveAt m 0 (q / 512) →
    ¬((m = src ∨ m = dst) ∧ a ≤ q ∧ q < b) → F.pte s' m q = F.pte s m q
  held : ∀ p, F.Held s' p ↔ F.Held s p
  bytes : s'.bytes = s.bytes
  free : s'.free = s.free

theorem Forest.Ok.shares_self (h : F.Ok s) (hc : F.Counted s x) : F.Shares x src dst a a s s :=
  ⟨h, hc, fun q h₁ h₂ => absurd h₂ (by omega), fun q h₁ h₂ => absurd h₂ (by omega),
    fun _ _ _ _ _ => rfl, fun _ => Iff.rfl, rfl, rfl⟩

/-- One page more. -/
theorem Forest.Ok.shares_one (h : F.Ok s) (hc : F.Counted s x) (hsrc : src ∈ F.live)
    (hdst : dst ∈ F.live) (hne : dst ≠ src) (hq : q ∈ F.dom src) (hq' : q ∈ F.dom dst)
    (habs : ¬(F.pte s dst q).present = true) (hx : ∀ f, F.Held s f → x f < 2 ^ 63) :
    F.Shares x src dst q (q + 1) s (F.shared s src dst q) := by
  rw [Forest.shared]
  split_ifs with hp
  swap
  · -- there is nothing to share
    refine ⟨h, hc, fun q' h₁ h₂ => ?_, fun q' h₁ h₂ => ?_, fun _ _ _ _ _ => rfl, fun _ => Iff.rfl,
      rfl, rfl⟩
    · obtain rfl : q' = q := by omega
      rw [dimmed_of_absent hp]
    · obtain rfl : q' = q := by omega
      rw [if_neg hp]
  set f := (F.pte s src q).pfn with hf
  set s₁ := F.remapped s src q (dimmed (F.pte s src q)) with hs₁
  have hframe : F.frame s (src, q) = some f := by rw [Forest.frame_eq hsrc hq, if_pos hp]
  have hbusy : F.Mappable s f := h.busy _ _ hframe
  have hheld : F.Held s f := Or.inl ((refs_pos_iff h.sparse).2 ⟨_, hframe⟩)
  have hok₁ : F.Ok s₁ := h.remapped hsrc hq fun _ => by
    rw [dimmed_pfn]
    exact hbusy
  have hframe₁ : F.frame s₁ = F.frame s := by
    rw [hs₁, h.frame_remapped hsrc hq, dimmed_present, dimmed_pfn, if_pos hp, ← hframe,
      Function.update_eq_self]
  have hc₁ : F.Counted s₁ x := fun p hp' => by
    rw [Forest.total_congr hframe₁]
    exact hc p ((Forest.held_congr hframe₁ p).1 hp')
  have hnone : F.frame s₁ (dst, q) = none := by
    rw [hframe₁]
    exact Forest.frame_eq_none fun _ _ => Bool.eq_false_iff.2 habs
  have hlt : F.total s₁ x f + 1 < 2 ^ 64 := by
    have hle := h.refs_le f
    have hxf := hx f hheld
    rw [Forest.total_congr hframe₁, Forest.total]
    split_ifs <;> omega
  have hbusy₁ : F.Mappable s₁ f := hbusy
  obtain ⟨hcount, hheld'⟩ : F.Counted (F.mapped s₁ dst q f readFlags) x ∧ _ :=
    hok₁.counted_mapped hc₁ hdst hq' hnone hbusy₁ (hc₁ f ((Forest.held_congr hframe₁ f).2 hheld)) hlt
  have hpte : ∀ m' ∈ F.live, ∀ q', F.LiveAt m' 0 (q' / 512) →
      F.pte (F.mapped s₁ dst q f readFlags) m' q' =
        if m' = dst ∧ q' = q then pageEntry f readFlags else
          if m' = src ∧ q' = q then dimmed (F.pte s src q) else F.pte s m' q' := by
    intro m' hm' q' hl
    have hget : ∀ m'' q'', F.pte (afterGet s₁ f) m'' q'' = F.pte s₁ m'' q'' := fun _ _ => rfl
    rw [Forest.mapped, (hok₁.get hbusy₁).pte_remapped hdst hq' hm' hl, hget, hs₁,
      h.pte_remapped hsrc hq hm' hl]
  refine ⟨hok₁.mapped hdst hq' hbusy₁, hcount, fun q' h₁ h₂ => ?_, fun q' h₁ h₂ => ?_,
    fun m' hm' q' hl hout => ?_, fun p => ?_, rfl, rfl⟩
  · obtain rfl : q' = q := by omega
    rw [hpte src hsrc q' (Forest.liveAt_of_mem hq), if_neg fun hc => hne hc.1.symm, if_pos ⟨rfl, rfl⟩]
  · obtain rfl : q' = q := by omega
    rw [hpte dst hdst q' (Forest.liveAt_of_mem hq'), if_pos ⟨rfl, rfl⟩, if_pos hp]
  · rw [hpte m' hm' q' hl, if_neg, if_neg]
    · rintro ⟨rfl, rfl⟩
      exact hout ⟨Or.inl rfl, le_rfl, Nat.lt_succ_self _⟩
    · rintro ⟨rfl, rfl⟩
      exact hout ⟨Or.inr rfl, le_rfl, Nat.lt_succ_self _⟩
  · rw [hheld', Forest.held_congr hframe₁]
    exact or_iff_left_of_imp fun heq => heq ▸ hheld

theorem Forest.Shares.trans {c : ℕ} {s₁ s₂ s₃ : Phys} (hsrc : src ∈ F.live) (hdst : dst ∈ F.live)
    (hdom : ∀ q, a ≤ q → q < c → q ∈ F.dom src ∧ q ∈ F.dom dst) (hab : a ≤ b) (hbc : b ≤ c)
    (h : F.Shares x src dst a b s₁ s₂) (h' : F.Shares x src dst b c s₂ s₃) :
    F.Shares x src dst a c s₁ s₃ := by
  have hsrcleaf : ∀ q, a ≤ q → q < c → F.LiveAt src 0 (q / 512) := fun q h₁ h₂ =>
    Forest.liveAt_of_mem (hdom q h₁ h₂).1
  have hdstleaf : ∀ q, a ≤ q → q < c → F.LiveAt dst 0 (q / 512) := fun q h₁ h₂ =>
    Forest.liveAt_of_mem (hdom q h₁ h₂).2
  refine ⟨h'.ok, h'.counted, fun q h₁ h₂ => ?_, fun q h₁ h₂ => ?_, fun m hm q hl hout => ?_,
    fun p => (h'.held p).trans (h.held p), h'.bytes.trans h.bytes, h'.free.trans h.free⟩
  · rcases Nat.lt_or_ge q b with hlt | hge
    · rw [h'.outside src hsrc q (hsrcleaf q h₁ h₂) (by omega), h.source q h₁ hlt]
    · rw [h'.source q hge h₂, h.outside src hsrc q (hsrcleaf q h₁ h₂) (by omega)]
  · rcases Nat.lt_or_ge q b with hlt | hge
    · rw [h'.outside dst hdst q (hdstleaf q h₁ h₂) (by omega), h.copy q h₁ hlt]
    · rw [h'.copy q hge h₂, h.outside src hsrc q (hsrcleaf q h₁ h₂) (by omega),
        h.outside dst hdst q (hdstleaf q h₁ h₂) (by omega)]
  · rw [h'.outside m hm q hl (by omega), h.outside m hm q hl (by omega)]

/-- One turn of the loop of `copy_vma`. -/
theorem ensures_sharePage (h : F.Ok s) (hsrc : src ∈ F.live) (hdst : dst ∈ F.live)
    (hq : q ∈ F.dom src) (hq' : q ∈ F.dom dst) {fuel : ℕ} (hfuel : 1 < fuel) :
    Ensures (do
      let (t, i) ← leafSlot (pathIter (F.root src) (F.entry src) q)
      let pte := (← get).table t i
      if pte.present then
        if pte.write then setEntry t i { pte with write := false }
        mmapPages fuel (F.root dst) (pathIter (F.root src) (F.entry src) q).addr [pte.pfn]
          ⟨false, true, false, false⟩
      return (none : Option Unit)) s fun r s' => r = none ∧ s' = F.shared s src dst q := by
  have haddr : (pathIter (F.root src) (F.entry src) q).addr = 4096 * q :=
    canonical_of_user (h.user hsrc hq)
  have hpte : s.table (F.tabAt src 0 (q / 512)) (q % 512) = F.pte s src q := rfl
  rw [ensures_bind, ensures_leafSlot]
  simp only [ensures_bind, ensures_get, hpte, haddr, setEntry]
  by_cases hp : (F.pte s src q).present = true
  swap
  · simp only [hp, Bool.false_eq_true, if_false, ensures_pure]
    refine ⟨trivial, ?_⟩
    rw [Forest.shared, if_neg hp]
  have hframe : F.frame s (src, q) = some (F.pte s src q).pfn := by
    rw [Forest.frame_eq hsrc hq, if_pos hp]
  have hbusy := h.busy _ _ hframe
  have hdim : ∀ s₁, s₁ = F.remapped s src q (dimmed (F.pte s src q)) →
      Ensures (mmapPages fuel (F.root dst) (4096 * q) [(F.pte s src q).pfn]
        ⟨false, true, false, false⟩) s₁ fun _ s' => s' = F.shared s src dst q := by
    rintro s₁ rfl
    have hok : F.Ok (F.remapped s src q (dimmed (F.pte s src q))) := h.remapped hsrc hq fun _ => by
      rw [dimmed_pfn]
      exact hbusy
    refine (hok.ensures_mmapPages_one hdst hq' hbusy hfuel).mono fun _ s' hs' => ?_
    rw [hs', Forest.shared, if_pos hp]
    rfl
  simp only [hp, if_true, ensures_bind, ensures_ite, ensures_modify, ensures_pure, true_and]
  constructor
  · intro hw
    refine hdim _ ?_
    rw [dimmed_of_present hp, hp]
    rfl
  · intro hw
    refine hdim s ?_
    have hsame : dimmed (F.pte s src q) = F.pte s src q := by
      rw [dimmed_of_present hp, ← Bool.eq_false_iff.2 hw]
    rw [hsame, F.remapped_self]

end Pages

/-! ### Areas -/

/-- The pages in some areas. -/
def areaPages (sp : Space) (l : List Ptr) : Set ℕ := {q | ∃ p ∈ l, (sp.area p).Has (4096 * q)}

/-- The ranges of some areas, and their permissions. -/
def areaRanges (sp : Space) (l : List Ptr) : Set (ℕ × ℕ × ℕ) :=
  {r | ∃ p ∈ l, r = ((sp.area p).begin, (sp.area p).stop, (sp.area p).perm)}

/-- **Copied areas.** The areas `l` of `src` have been copied to `dst`. -/
structure Forks (src dst : ℕ) (x : Pfn → ℕ) (l : List Ptr) (w : World) (T : ℕ → ColorTree Ptr)
    (E : ℕ → ℕ → ℕ → Pte) (w' : World) (T' : ℕ → ColorTree Ptr) (E' : ℕ → ℕ → ℕ → Pte) : Prop where
  touches : Touches dst w w'
  ok : WorldOk w' T' E'
  counted : (forestOf w' T' E').Counted w'.phys x
  trees : ∀ m, m ≠ dst → T' m = T m
  ranges : areaRanges (w'.mm dst) (T' dst).inorder =
    areaRanges (w.mm dst) (T dst).inorder ∪ areaRanges (w.mm src) l
  pages : pagesOf (w'.mm dst) (T' dst) = pagesOf (w.mm dst) (T dst) ∪ areaPages (w.mm src) l
  source : ∀ q ∈ areaPages (w.mm src) l,
    (forestOf w' T' E').pte w'.phys src q = dimmed ((forestOf w T E).pte w.phys src q)
  copy : ∀ q ∈ areaPages (w.mm src) l,
    if ((forestOf w T E).pte w.phys src q).present then
      (forestOf w' T' E').pte w'.phys dst q =
        pageEntry ((forestOf w T E).pte w.phys src q).pfn readFlags
    else ((forestOf w' T' E').pte w'.phys dst q).present = false
  outside : ∀ m, w.mmUsed m = true → ∀ q ∈ pagesOf (w.mm m) (T m),
    ¬(m = src ∧ q ∈ areaPages (w.mm src) l) →
      (forestOf w' T' E').pte w'.phys m q = (forestOf w T E).pte w.phys m q
  held : ∀ p, (forestOf w' T' E').Held w'.phys p ↔ (forestOf w T E).Held w.phys p
  kept : ∀ p, w.phys.free p = false → ¬(forestOf w T E).IsTable p →
    ¬(forestOf w' T' E').IsTable p ∧ w'.phys.free p = false ∧ w'.phys.bytes p = w.phys.bytes p

section Areas

variable {w w' w₁ w₂ : World} {T T₁ T₂ : ℕ → ColorTree Ptr} {E E₁ E₂ : ℕ → ℕ → ℕ → Pte}
  {src dst fuel : ℕ} {x : Pfn → ℕ} {l l' : List Ptr}

theorem areaPages_append (sp : Space) (l l' : List Ptr) :
    areaPages sp (l ++ l') = areaPages sp l ∪ areaPages sp l' := by
  ext q
  simp only [areaPages, List.mem_append, Set.mem_ofPred_eq, Set.mem_union, or_and_right, exists_or]

theorem areaRanges_append (sp : Space) (l l' : List Ptr) :
    areaRanges sp (l ++ l') = areaRanges sp l ∪ areaRanges sp l' := by
  ext r
  simp only [areaRanges, List.mem_append, Set.mem_ofPred_eq, Set.mem_union, or_and_right, exists_or]

theorem areaPages_nil (sp : Space) : areaPages sp [] = ∅ :=
  Set.eq_empty_iff_forall_notMem.2 fun _ ⟨_, hp, _⟩ => List.not_mem_nil hp

theorem areaRanges_nil (sp : Space) : areaRanges sp [] = ∅ :=
  Set.eq_empty_iff_forall_notMem.2 fun _ ⟨_, hp, _⟩ => List.not_mem_nil hp

theorem areaPages_singleton (sp : Space) {p : Ptr} {a b : ℕ} (ha : (sp.area p).begin = 4096 * a)
    (hb : (sp.area p).stop = 4096 * b) : areaPages sp [p] = Set.Ico a b := by
  ext q
  simp only [areaPages, List.mem_singleton, exists_eq_left, Set.mem_ofPred_eq, Vma.Has, ha, hb,
    Set.mem_Ico]
  omega

/-- A step that keeps all mappings copies no area. -/
theorem forks_nil (h : WorldOk w T E) (hc : (forestOf w T E).Counted w.phys x)
    (htouches : Touches dst w w') (hmm : w'.mm = w.mm) (hok : WorldOk w' T E₁)
    (hkeeps : (forestOf w T E).Keeps w.phys (forestOf w' T E₁) w'.phys) (src : ℕ) :
    Forks src dst x [] w T E w' T E₁ := by
  refine
    { touches := htouches
      ok := hok
      counted := hkeeps.counted h.pages hc
      trees := fun _ _ => rfl
      ranges := ?_
      pages := ?_
      source := fun q hq => ?_
      copy := fun q hq => ?_
      outside := fun m hm q hq _ => ?_
      held := hkeeps.held
      kept := fun p hf hp => ?_ }
  · rw [areaRanges_nil, Set.union_empty, hmm]
  · rw [areaPages_nil, Set.union_empty, hmm]
  · rw [areaPages_nil] at hq
    exact absurd hq (Set.notMem_empty q)
  · rw [areaPages_nil] at hq
    exact absurd hq (Set.notMem_empty q)
  · have hq' : q ∈ (forestOf w' T E₁).dom m := by
      change q ∈ pagesOf (w'.mm m) (T m)
      rwa [hmm]
    exact hkeeps.pte m hm q hq hq'
  · obtain ⟨h₁, h₂, -, -, h₃⟩ := hkeeps.kept p hf hp
    exact ⟨h₁, h₂, h₃⟩

/-- The pages of the areas are still there. -/
theorem Forks.mem_pages (h : Forks src dst x l w T E w₁ T₁ E₁) {m q : ℕ}
    (hq : q ∈ pagesOf (w.mm m) (T m)) : q ∈ pagesOf (w₁.mm m) (T₁ m) := by
  by_cases hm : m = dst
  · subst hm
    rw [h.pages]
    exact Or.inl hq
  · rw [h.trees m hm, h.touches.other m hm]
    exact hq

/-- Copying some areas and then others. -/
theorem Forks.trans (h : Forks src dst x l w T E w₁ T₁ E₁) (hsrc : w.mmUsed src = true)
    (hdst : w.mmUsed dst = true) (harea : (w₁.mm src).area = (w.mm src).area)
    (hl : ∀ p ∈ l ++ l', p ∈ (T src).inorder)
    (hdisj : ∀ q ∈ areaPages (w.mm src) l, q ∉ areaPages (w.mm src) l')
    (h' : Forks src dst x l' w₁ T₁ E₁ w₂ T₂ E₂) : Forks src dst x (l ++ l') w T E w₂ T₂ E₂ := by
  have hpages : areaPages (w₁.mm src) l' = areaPages (w.mm src) l' := by
    rw [areaPages, areaPages, harea]
  have hranges : areaRanges (w₁.mm src) l' = areaRanges (w.mm src) l' := by
    rw [areaRanges, areaRanges, harea]
  obtain ⟨htouches', hok', hcounted', htrees', hranges', hpages', hsource', hcopy', houtside', hheld',
    hkept'⟩ := h'
  rw [hranges] at hranges'
  rw [hpages] at hpages' hsource' hcopy' houtside'
  have hsrc₁ : w₁.mmUsed src = true := (congrFun h.touches.mmUsed src).trans hsrc
  have hdst₁ : w₁.mmUsed dst = true := (congrFun h.touches.mmUsed dst).trans hdst
  have hmem : ∀ q ∈ areaPages (w.mm src) (l ++ l'), q ∈ pagesOf (w.mm src) (T src) :=
    fun q ⟨p, hp, hhas⟩ => ⟨p, hl p hp, hhas⟩
  have hunion := areaPages_append (w.mm src) l l'
  -- the entries of `src` that come later have not been changed before
  have hlater : ∀ q ∈ areaPages (w.mm src) l',
      (forestOf w₁ T₁ E₁).pte w₁.phys src q = (forestOf w T E).pte w.phys src q := fun q hq =>
    h.outside src hsrc q (hmem q (hunion ▸ Or.inr hq)) fun hc => hdisj q hc.2 hq
  refine
    { touches := h.touches.trans htouches'
      ok := hok'
      counted := hcounted'
      trees := fun m hm => (htrees' m hm).trans (h.trees m hm)
      ranges := ?_
      pages := ?_
      source := fun q hq => ?_
      copy := fun q hq => ?_
      outside := fun m hm q hq hout => ?_
      held := fun p => (hheld' p).trans (h.held p)
      kept := fun p hf hp => ?_ }
  · rw [hranges', h.ranges, areaRanges_append, Set.union_assoc]
  · rw [hpages', h.pages, hunion, Set.union_assoc]
  · have hq₀ := hmem q hq
    rcases hunion ▸ hq with hq | hq
    · rw [houtside' src hsrc₁ q (h.mem_pages hq₀) fun hc => hdisj q hq hc.2]
      exact h.source q hq
    · rw [hsource' q hq, hlater q hq]
  · rcases hunion ▸ hq with hq | hq
    · have hq₁ : q ∈ pagesOf (w₁.mm dst) (T₁ dst) := by
        rw [h.pages]
        exact Or.inr hq
      rw [houtside' dst hdst₁ q hq₁ fun hc => hdisj q hq hc.2]
      exact h.copy q hq
    · have hcopy := hcopy' q hq
      rwa [hlater q hq] at hcopy
  · rw [hunion] at hout
    rw [houtside' m ((congrFun h.touches.mmUsed m).trans hm) q (h.mem_pages hq)
      fun hc => hout ⟨hc.1, Or.inr hc.2⟩]
    exact h.outside m hm q hq fun hc => hout ⟨hc.1, Or.inl hc.2⟩
  · obtain ⟨h₁, h₂, h₃⟩ := h.kept p hf hp
    obtain ⟨h₁', h₂', h₃'⟩ := hkept' p h₂ h₁
    exact ⟨h₁', h₂', h₃'.trans h₃⟩

/-- A new area is apart from the others. -/
theorem NewArea.apart {t : ColorTree Ptr} {v : Vma} {B : ℕ → Prop} {m : ℕ}
    (h : NewArea B m v w T w' t) (hm : w.mmUsed m = true) {p : Ptr} (hp : p ∈ (T m).inorder) :
    ¬(((w.mm m).area p).begin < v.stop ∧ v.begin < ((w.mm m).area p).stop) := by
  rintro ⟨h₁, h₂⟩
  obtain ⟨p', l₁, l₂, hold, hnew, harea, hsame⟩ := h.linked
  have hsp := h.areas.space m ((congrFun h.touches.mmUsed m).trans hm)
  rw [Function.update_self] at hsp
  have hp₁ : p ∈ t.inorder := by
    rw [hold] at hp
    rw [hnew]
    simp only [List.mem_append, List.mem_cons] at hp ⊢
    tauto
  have hp₂ : p' ∈ t.inorder := by
    rw [hnew]
    exact List.mem_append_right _ List.mem_cons_self
  have heq := hsp.eq_of_meet hp₁ hp₂ (by rwa [hsame p hp, harea]) (by rwa [hsame p hp, harea])
  subst heq
  have hnodup := hsp.repr.nodup
  rw [hnew] at hnodup
  rw [hold] at hp
  rcases List.mem_append.1 hp with hp | hp
  · exact (List.nodup_append.mp hnodup).2.2 p hp p List.mem_cons_self rfl
  · exact (List.nodup_cons.mp (List.nodup_append.mp hnodup).2.1).1 hp

/-- A new area has a range of its own. -/
theorem NewArea.areaRanges {t : ColorTree Ptr} {v : Vma} {B : ℕ → Prop}
    (h : NewArea B dst v w T w' t) :
    areaRanges (w'.mm dst) t.inorder =
      Mm.areaRanges (w.mm dst) (T dst).inorder ∪ {(v.begin, v.stop, v.perm)} := by
  obtain ⟨p, l₁, l₂, hold, hnew, harea, hsame⟩ := h.linked
  have hsub : ∀ p' ∈ l₁ ++ l₂, (w'.mm dst).area p' = (w.mm dst).area p' := fun p' hp' =>
    hsame p' (hold ▸ hp')
  ext r
  simp only [Mm.areaRanges, hold, hnew, Set.mem_union, Set.mem_ofPred_eq, Set.mem_singleton_iff]
  constructor
  · rintro ⟨p', hp', rfl⟩
    by_cases hin : p' ∈ l₁ ++ l₂
    · rw [hsub p' hin]
      exact Or.inl ⟨p', hin, rfl⟩
    · have heq : p' = p := by
        simp only [List.mem_append, List.mem_cons, not_or] at hp' hin
        tauto
      rw [heq, harea]
      exact Or.inr rfl
  · rintro (⟨p', hp', rfl⟩ | rfl)
    · refine ⟨p', ?_, by rw [hsub p' hp']⟩
      simp only [List.mem_append, List.mem_cons] at hp' ⊢
      tauto
    · exact ⟨p, List.mem_append_right _ List.mem_cons_self, by rw [harea]⟩

/-- **`copy_vma`** copies an area of another address space, or does nothing. -/
theorem WorldOk.ensures_copyVma (h : WorldOk w T E) (hc : (forestOf w T E).Counted w.phys x)
    (hx : ∀ f, (forestOf w T E).Held w.phys f → x f < 2 ^ 63) (hsrc : w.mmUsed src = true)
    (hdst : w.mmUsed dst = true) {p : Ptr} (hp : p ∈ (T src).inorder) (hfuel : taskSize + 1 < fuel) :
    Ensures (copyVma fuel dst ((w.mm src).area p)) w fun rc w' =>
      (rc = 0 ∧ dst ≠ src ∧ ∃ T' E', Forks src dst x [p] w T E w' T' E') ∨
        (rc ≠ 0 ∧ ∃ E', Forks src dst x [] w T E w' T E') := by
  obtain ⟨⟨a, ha⟩, ⟨b, hb⟩, hlt, hle, howner⟩ := (h.areas.space src hsrc).area p hp
  have hab : a < b := by omega
  have hbu : b ≤ userPages := by rwa [hb, page_le_taskSize] at hle
  rw [copyVma, howner, ha, hb]
  simp only [ensures_bind]
  -- the area of the copy, which may be refused
  refine (h.ensures_mmap hdst hab hbu (by omega)).mono ?_
  rintro rc w₁ (⟨rfl, t, E', harea, hok₁, hkeeps⟩ | ⟨hrc, hmm, -, htouches, E', hok', hkeeps⟩)
  swap
  · rw [if_pos hrc]
    exact ensures_pure.2 (Or.inr ⟨ENOMEM_ne_zero, _, forks_nil h hc htouches hmm hok' hkeeps src⟩)
  rw [if_neg (by simp)]
  set F := forestOf w T E with hF
  set T₁ := Function.update T dst t with hT₁
  set F₁ := forestOf w₁ T₁ (Function.update E dst E') with hF₁
  -- the new area is where the copy had none, so that it is not the source's address space
  have hapart : ∀ q ∈ pagesOf (w.mm dst) (T dst), ¬(a ≤ q ∧ q < b) := by
    rintro q ⟨p', hp', h₁, h₂⟩ hq
    refine harea.apart hdst hp' ⟨?_, ?_⟩
    · change _ < 4096 * b
      omega
    · change 4096 * a < _
      omega
  have hne : dst ≠ src := by
    rintro rfl
    exact hapart a ⟨p, hp, by omega, by omega⟩ ⟨le_rfl, hab⟩
  have hsrc₁ : w₁.mm src = w.mm src := harea.touches.other src hne.symm
  have htree : T₁ src = T src := Function.update_of_ne hne.symm _ _
  have hlive : src ∈ F₁.live ∧ dst ∈ F₁.live :=
    ⟨(congrFun harea.touches.mmUsed src).trans hsrc, (congrFun harea.touches.mmUsed dst).trans hdst⟩
  have hdom : ∀ q, a ≤ q → q < b → q ∈ F.dom src := fun q h₁ h₂ => ⟨p, hp, by omega, by omega⟩
  -- its pages are those of the source, and none is mapped there yet
  have hdom₁ : ∀ q, a ≤ q → q < b → q ∈ F₁.dom src ∧ q ∈ F₁.dom dst := by
    intro q h₁ h₂
    constructor
    · change q ∈ pagesOf (w₁.mm src) (T₁ src)
      rw [hsrc₁, htree]
      exact hdom q h₁ h₂
    · change q ∈ pagesOf (w₁.mm dst) (T₁ dst)
      rw [hT₁, Function.update_self, harea.pagesOf rfl rfl]
      exact Or.inr ⟨h₁, h₂⟩
  have hpte : ∀ q, a ≤ q → q < b → F₁.pte w₁.phys src q = F.pte w.phys src q := fun q h₁ h₂ =>
    hkeeps.pte src hsrc q (hdom q h₁ h₂) (hdom₁ q h₁ h₂).1
  have habs : ∀ q, a ≤ q → q < b → ¬(F₁.pte w₁.phys dst q).present = true := by
    intro q h₁ h₂ hpres
    have hframe := Forest.frame_eq (s := w₁.phys) hlive.2 (hdom₁ q h₁ h₂).2
    have hnone : F.frame w.phys (dst, q) = none :=
      Forest.frame_eq_none fun _ hq => absurd ⟨h₁, h₂⟩ (hapart q hq)
    rw [if_pos hpres, hkeeps.frame, hnone] at hframe
    cases hframe
  have hx₁ : ∀ f, F₁.Held w₁.phys f → x f < 2 ^ 63 := fun f hf => hx f ((hkeeps.held f).1 hf)
  have huser := taskSize_eq
  simp only [ensures_bind, ensures_get, ensures_onPhys, ensures_pure]
  refine (ensures_forEachSlot (C := counts (F₁.dom src)) (E := F₁.entry src)
    (I := fun q s' => F₁.Shares x src dst a q w₁.phys s') hab hbu (by omega)
    (fun q s' hI => hI.ok.tables src hlive.1) (fun q h₁ h₂ => leaf_pos_of_mem (hdom₁ q h₁ h₂).1)
    (fun q s' h₁ h₂ hI => ?_) (hok₁.pages.shares_self (hkeeps.counted h.pages hc))).mono ?_
  · -- one page is shared
    have hq := hdom₁ q h₁ h₂
    have hqabs : ¬(F₁.pte s' dst q).present = true := by
      rw [hI.outside dst hlive.2 q (Forest.liveAt_of_mem hq.2) (by omega)]
      exact habs q h₁ h₂
    have hone := hI.ok.shares_one hI.counted hlive.1 hlive.2 hne hq.1 hq.2 hqabs
      fun f hf => hx₁ f ((hI.held f).1 hf)
    refine (ensures_sharePage hI.ok hlive.1 hlive.2 hq.1 hq.2 (by omega)).mono ?_
    rintro r s₂ ⟨rfl, rfl⟩
    exact ⟨rfl, hI.trans hlive.1 hlive.2 (fun q' h₃ h₄ => hdom₁ q' h₃ (by omega)) h₁
      (Nat.le_succ q) hone⟩
  · -- all of them are: the page is the same in both, and the entries elsewhere stayed
    rintro - s' ⟨-, hshares⟩
    have hpages := areaPages_singleton (w.mm src) ha hb
    refine Or.inl ⟨trivial, hne, T₁, Function.update E dst E', ?_⟩
    refine
      { touches := harea.touches.trans (touches_withPhys dst w₁ s')
        ok := ⟨hok₁.areas.withPhys s', hshares.ok⟩
        counted := hshares.counted
        trees := fun m hm => Function.update_of_ne hm _ _
        ranges := ?_
        pages := ?_
        source := fun q hq => ?_
        copy := fun q hq => ?_
        outside := fun m hm q hq hout => ?_
        held := fun f => (hshares.held f).trans (hkeeps.held f)
        kept := fun f hf hn => ?_ }
    · have hone : areaRanges (w.mm src) [p] = {(4096 * a, 4096 * b, ((w.mm src).area p).perm)} := by
        ext r
        simp only [areaRanges, List.mem_singleton, exists_eq_left, Set.mem_ofPred_eq,
          Set.mem_singleton_iff, ha, hb]
      rw [hT₁, Function.update_self, hone]
      exact harea.areaRanges
    · rw [hT₁, Function.update_self, hpages]
      exact harea.pagesOf rfl rfl
    · rw [hpages] at hq
      rw [← hpte q hq.1 hq.2]
      exact hshares.source q hq.1 hq.2
    · rw [hpages] at hq
      have hcopy := hshares.copy q hq.1 hq.2
      rw [hpte q hq.1 hq.2] at hcopy
      split_ifs with hpres
      · rw [if_pos hpres] at hcopy
        exact hcopy
      · rw [if_neg hpres] at hcopy
        exact (congrArg Pte.present hcopy).trans (Bool.eq_false_iff.2 (habs q hq.1 hq.2))
    · rw [hpages] at hout
      have hm₁ : m ∈ F₁.live := (congrFun harea.touches.mmUsed m).trans hm
      have hq₁ : q ∈ F₁.dom m := by
        change q ∈ pagesOf (w₁.mm m) (T₁ m)
        by_cases hmd : m = dst
        · subst hmd
          rw [hT₁, Function.update_self, harea.pagesOf rfl rfl]
          exact Or.inl hq
        · rwa [hT₁, Function.update_of_ne hmd, harea.touches.other m hmd]
      rw [← hkeeps.pte m hm q hq hq₁]
      refine hshares.outside m hm₁ q (Forest.liveAt_of_mem hq₁) ?_
      rintro ⟨rfl | rfl, hin⟩
      · exact hout ⟨rfl, hin⟩
      · exact hapart q hq hin
    · obtain ⟨h₁, h₂, -, -, h₃⟩ := hkeeps.kept f hf hn
      exact ⟨h₁, (congrFun hshares.free f).trans h₂, (congrFun hshares.bytes f).trans h₃⟩

/-- The pages of the areas before a point are not in those after it. -/
theorem SpaceOk.areaPages_disjoint {B : ℕ → Prop} {sp : Space} {t : ColorTree Ptr} {m : ℕ}
    (h : SpaceOk B sp t m) {l₁ l₂ : List Ptr} (hsplit : t.inorder = l₁ ++ l₂) {q : ℕ}
    (hq : q ∈ areaPages sp l₁) : q ∉ areaPages sp l₂ := by
  rintro ⟨p₂, hp₂, h₂⟩
  obtain ⟨p₁, hp₁, h₁⟩ := hq
  have hmem₁ : p₁ ∈ t.inorder := by
    rw [hsplit]
    exact List.mem_append_left _ hp₁
  have hmem₂ : p₂ ∈ t.inorder := by
    rw [hsplit]
    exact List.mem_append_right _ hp₂
  have heq := h.eq_of_meet hmem₁ hmem₂ (lt_of_le_of_lt h₁.1 h₂.2) (lt_of_le_of_lt h₂.1 h₁.2)
  have hnodup := h.repr.nodup
  rw [hsplit] at hnodup
  exact (List.nodup_append.mp hnodup).2.2 p₁ hp₁ p₂ hp₂ heq

/-- The loop of `copy_mm`. -/
theorem WorldOk.ensures_copyMmLoop (h : WorldOk w T E)
    (hx : ∀ f, (forestOf w T E).Held w.phys f → x f < 2 ^ 63) (hsrc : w.mmUsed src = true)
    (hdst : w.mmUsed dst = true) (hfuel : taskSize + 1 < fuel) (n : ℕ) :
    ∀ {w₁ : World} {T₁ : ℕ → ColorTree Ptr} {E₁ : ℕ → ℕ → ℕ → Pte} {l₁ l₂ : List Ptr},
      Forks src dst x l₁ w T E w₁ T₁ E₁ → (T src).inorder = l₁ ++ l₂ → T₁ src = T src →
      (w₁.mm src).area = (w.mm src).area → l₂.length < n →
      Ensures (copyMmLoop fuel dst src n (firstPtr l₂)) w₁ fun rc w' =>
        ∃ l T' E', Forks src dst x l w T E w' T' E' ∧ (rc = 0 → l = (T src).inorder) := by
  induction n with
  | zero => exact fun _ _ _ _ hn => absurd hn (Nat.not_lt_zero _)
  | succ n ih =>
    intro w₁ T₁ E₁ l₁ l₂ hforks hsplit htree harea hn
    rw [copyMmLoop]
    cases l₂ with
    | nil =>
      rw [firstPtr_nil, if_pos rfl]
      rw [List.append_nil] at hsplit
      exact ensures_pure.2 ⟨_, _, _, hforks, fun _ => hsplit.symm⟩
    | cons p l =>
      have hsrc₁ : w₁.mmUsed src = true := (congrFun hforks.touches.mmUsed src).trans hsrc
      have hdst₁ : w₁.mmUsed dst = true := (congrFun hforks.touches.mmUsed dst).trans hdst
      have hp : p ∈ (T₁ src).inorder := by
        rw [htree, hsplit]
        exact List.mem_append_right _ List.mem_cons_self
      have hmem : ∀ p' ∈ l₁ ++ [p], p' ∈ (T src).inorder := fun p' hp' => by
        rw [hsplit]
        simp only [List.mem_append, List.mem_cons] at hp' ⊢
        tauto
      rw [firstPtr_cons, if_neg ((hforks.ok.areas.space src hsrc₁).ne_zero hp)]
      simp only [ensures_bind, ensures_get]
      refine (hforks.ok.ensures_copyVma hforks.counted (fun f hf => hx f ((hforks.held f).1 hf))
        hsrc₁ hdst₁ hp hfuel).mono ?_
      rintro rc w₂ (⟨rfl, hne, T₂, E₂, hone⟩ | ⟨hrc, E₂, hnone⟩)
      · have hsplit' : (T src).inorder = (l₁ ++ [p]) ++ l := by
          rw [hsplit, List.append_assoc]
          rfl
        have hdisj : ∀ q ∈ areaPages (w.mm src) l₁, q ∉ areaPages (w.mm src) [p] := fun q hq hc =>
          (h.areas.space src hsrc).areaPages_disjoint hsplit hq (by
            obtain ⟨p', hp', hhas⟩ := hc
            exact ⟨p', by rw [List.mem_singleton.1 hp']; exact List.mem_cons_self, hhas⟩)
        have hall := hforks.trans hsrc hdst harea hmem hdisj hone
        have htree₂ : T₂ src = T src := (hone.trees src hne.symm).trans htree
        have harea₂ : (w₂.mm src).area = (w.mm src).area := by
          rw [hone.touches.other src hne.symm, harea]
        rw [if_neg (by simp)]
        have hsrc₂ : w₂.mmUsed src = true := (congrFun hall.touches.mmUsed src).trans hsrc
        have hfuel₂ : taskSize < fuel := by omega
        have hcut : (T₂ src).inorder = l₁ ++ p :: l := by rw [htree₂, hsplit]
        rw [ensures_bind]
        refine (hall.ok.ensures_next hsrc₂ hcut hfuel₂).mono ?_
        rintro r w₃ ⟨rfl, rfl⟩
        exact ih hall hsplit' htree₂ harea₂ (by simpa using hn)
      · rw [if_pos hrc]
        have hall : Forks src dst x (l₁ ++ []) w T E w₂ T₁ E₂ :=
          hforks.trans hsrc hdst harea
            (fun p' hp' => hmem p' (List.mem_append_left _ (by rwa [List.append_nil] at hp')))
            (fun q _ => by rw [areaPages_nil]; exact Set.notMem_empty q) hnone
        exact ensures_pure.2 ⟨_, _, _, hall, fun hc => absurd hc hrc⟩

/-- **`copy_mm`** copies the areas in order, all of them if it returns 0. -/
theorem WorldOk.ensures_copyMm (h : WorldOk w T E) (hc : (forestOf w T E).Counted w.phys x)
    (hx : ∀ f, (forestOf w T E).Held w.phys f → x f < 2 ^ 63) (hsrc : w.mmUsed src = true)
    (hdst : w.mmUsed dst = true) (hfuel : taskSize + 1 < fuel) :
    Ensures (copyMm fuel dst src) w fun rc w' => ∃ l T' E',
      Forks src dst x l w T E w' T' E' ∧ (rc = 0 → l = (T src).inorder) := by
  rw [copyMm]
  simp only [ensures_bind]
  refine (h.ensures_first hsrc (by omega)).mono ?_
  rintro r w₀ ⟨rfl, rfl⟩
  refine h.ensures_copyMmLoop hx hsrc hdst hfuel fuel
    (forks_nil h hc (Touches.refl dst w₀) rfl h h.pages.keeps_self src) rfl rfl rfl
    (lt_of_le_of_lt (h.areas.space src hsrc).length_le (by omega))

end Areas

end Mm

end Kernel64
