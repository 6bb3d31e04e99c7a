import Kernel64.Lib.Refs
import Kernel64.Mm.Model
import Kernel64.Paging.Populate
import Kernel64.Paging.Walk

/-!
# The pages of all address spaces

A `Forest` lists the address spaces in use, where their page tables are, and which of their pages
have been asked for. `Forest.Ok` says that the tables of every address space count the pages asked
for, that no page of memory serves two tables, and that the entries at level 0 point to busy pages
that are not tables.

`F.frame s` is the map from the pages of all address spaces to the frames they are mapped to, and
`Counted` says that the `u.refcount` of a frame is the number of its mappings, with one more for
`zero_page`, and more by a fixed excess. Every change of an entry at level 0 changes that map at
one page.
-/

namespace Kernel64

namespace Mm

open Paging

open scoped Classical in
/-- Every page of a set is counted once at each level. -/
noncomputable def counts (D : Set ℕ) : Counts := fun k q => if k < 3 ∧ q ∈ D then 1 else 0

section Counts

variable {D : Set ℕ} {k g a b : ℕ}

theorem counts_of_mem {q : ℕ} (hk : k < 3) (hq : q ∈ D) : counts D k q = 1 := if_pos ⟨hk, hq⟩

theorem counts_of_notMem {q : ℕ} (hq : q ∉ D) : counts D k q = 0 := if_neg fun h => hq h.2

theorem counts_le_one (D : Set ℕ) (k q : ℕ) : counts D k q ≤ 1 := by
  rw [counts]
  split_ifs <;> omega

/-- A set of pages never fills a counter. -/
theorem load_counts_lt (hk : k < 3) : load (counts D) k g < 2 ^ 64 := by
  have hle : load (counts D) k g ≤ 512 ^ (k + 1) := by
    have := Finset.sum_le_card_nsmul (serves k g) (counts D k) 1 fun p _ => counts_le_one D k p
    rwa [serves, Nat.card_Ico, Nat.add_sub_cancel_left, Nat.nsmul_eq_mul, Nat.mul_one] at this
  have hpow : 512 ^ (k + 1) ≤ 512 ^ 3 := Nat.pow_le_pow_right (by omega) (by omega)
  exact lt_of_le_of_lt (hle.trans hpow) (by norm_num)

theorem load_counts_pos (hk : k < 3) : 0 < load (counts D) k g ↔ ∃ q ∈ D, q / 512 ^ (k + 1) = g := by
  rw [load_pos_iff]
  constructor
  · rintro ⟨q, hq, hpos⟩
    rw [counts] at hpos
    split_ifs at hpos with hD
    · exact ⟨q, hD.2, mem_serves.1 hq⟩
    · omega
  · rintro ⟨q, hq, hg⟩
    refine ⟨q, mem_serves.2 hg, ?_⟩
    rw [counts_of_mem hk hq]
    omega

/-- The table of a page asked for is live. -/
theorem load_counts_pos_of_mem {q : ℕ} (hk : k < 3) (hq : q ∈ D) :
    0 < load (counts D) k (q / 512 ^ (k + 1)) :=
  (load_counts_pos hk).2 ⟨q, hq, rfl⟩

theorem leaf_pos_of_mem {q : ℕ} (hq : q ∈ D) : 0 < load (counts D) 0 (q / 512) := by
  have := load_counts_pos_of_mem (k := 0) (by omega) hq
  rwa [Nat.zero_add, pow_one] at this

/-- The count of a table is the number of its pages asked for. -/
theorem load_counts (hk : k < 3) :
    load (counts D) k g = {q | q ∈ D ∧ q / 512 ^ (k + 1) = g}.ncard := by
  classical
  have hset : {q | q ∈ D ∧ q / 512 ^ (k + 1) = g} = ((serves k g).filter (· ∈ D) : Finset ℕ) := by
    ext q
    simp only [Finset.coe_filter, mem_serves, Set.mem_ofPred_eq]
    exact and_comm
  rw [hset, Set.ncard_coe_finset, Finset.card_filter, load]
  refine Finset.sum_congr rfl fun q _ => ?_
  simp only [counts, hk, true_and]

theorem raiseBelow_counts (h : ∀ q, a ≤ q → q < b → q ∉ D) :
    raiseBelow (counts D) 3 a b = counts (D ∪ Set.Ico a b) := by
  funext k q
  by_cases hk : k < 3
  · simp only [raiseBelow, hk, if_true, raiseOn]
    by_cases hq : a ≤ q ∧ q < b
    · rw [if_pos hq, counts_of_notMem (h q hq.1 hq.2), counts_of_mem hk (Or.inr hq)]
    · rw [if_neg hq]
      by_cases hD : q ∈ D
      · rw [counts_of_mem hk hD, counts_of_mem hk (Or.inl hD)]
      · rw [counts_of_notMem hD, counts_of_notMem (not_or.2 ⟨hD, hq⟩)]
  · simp [raiseBelow, counts, hk]

theorem lowerBelow_counts (D : Set ℕ) (a b : ℕ) :
    lowerBelow (counts D) 3 a b = counts (D \ Set.Ico a b) := by
  funext k q
  by_cases hk : k < 3
  · simp only [lowerBelow, hk, if_true, lowerOn]
    by_cases hq : a ≤ q ∧ q < b
    · have hle := counts_le_one D k q
      rw [if_pos hq, counts_of_notMem (D := D \ Set.Ico a b) fun h => h.2 hq]
      omega
    · rw [if_neg hq]
      by_cases hD : q ∈ D
      · rw [counts_of_mem hk hD, counts_of_mem (D := D \ Set.Ico a b) hk ⟨hD, hq⟩]
      · rw [counts_of_notMem hD, counts_of_notMem fun h => hD h.1]
  · simp [lowerBelow, counts, hk]

end Counts

/-! ### Forests -/

/-- The address spaces in use: the top table of each, the pages asked for, the entries that link
its tables, and the page shared by all. -/
structure Forest where
  live : Set ℕ
  root : ℕ → Pfn
  dom : ℕ → Set ℕ
  entry : ℕ → ℕ → ℕ → Pte
  zero : Pfn

namespace Forest

variable (F : Forest)

/-- The tables of an address space that are in use. -/
def LiveAt (m k g : ℕ) : Prop := Live (counts (F.dom m)) k g

/-- The page of a table. -/
def tabAt (m k g : ℕ) : Pfn := tab (F.root m) (F.entry m) k g

/-- A page that serves as a table. -/
def IsTable (f : Pfn) : Prop := ∃ m ∈ F.live, ∃ k g, F.LiveAt m k g ∧ F.tabAt m k g = f

/-- The entry of a page at level 0. -/
def pte (s : Phys) (m q : ℕ) : Pte := s.table (F.tabAt m 0 (q / 512)) (q % 512)

open scoped Classical in
/-- What a page is mapped to. -/
noncomputable def frame (s : Phys) (i : ℕ × ℕ) : Option Pfn :=
  if i.1 ∈ F.live ∧ i.2 ∈ F.dom i.1 ∧ (F.pte s i.1 i.2).present = true then
    some (F.pte s i.1 i.2).pfn
  else none

end Forest

/-- A physical address has 64 bits. -/
@[irreducible]
def maxFrames : ℕ := 2 ^ 52

/-- A page that entries may point to. -/
def Forest.Mappable (F : Forest) (s : Phys) (f : Pfn) : Prop :=
  ¬F.IsTable f ∧ s.free f = false ∧ f < maxFrames

/-- **The tables of all address spaces.** -/
structure Forest.Ok (F : Forest) (s : Phys) : Prop where
  tables : ∀ m ∈ F.live, PtOk s (F.root m) (F.entry m) (counts (F.dom m))
  apart : ∀ m ∈ F.live, ∀ m' ∈ F.live, ∀ k g k' g', F.LiveAt m k g → F.LiveAt m' k' g' →
    F.tabAt m k g = F.tabAt m' k' g' → m = m'
  low : ∀ f, F.IsTable f → f < maxFrames
  freeLow : ∀ f, s.free f = true → f < maxFrames
  clear : ∀ m ∈ F.live, ∀ q, F.LiveAt m 0 (q / 512) → q ∉ F.dom m → (F.pte s m q).present = false
  busy : ∀ i f, F.frame s i = some f → F.Mappable s f
  zero : F.Mappable s F.zero

section

variable {F : Forest} {s s' : Phys} {m q m' q' k g : ℕ} {f : Pfn} {e : Pte}

theorem Forest.frame_eq (hm : m ∈ F.live) (hq : q ∈ F.dom m) :
    F.frame s (m, q) = if (F.pte s m q).present then some (F.pte s m q).pfn else none := by
  simp only [Forest.frame, hm, hq, true_and]

theorem Forest.frame_eq_some {i : ℕ × ℕ} :
    F.frame s i = some f ↔ i.1 ∈ F.live ∧ i.2 ∈ F.dom i.1 ∧ (F.pte s i.1 i.2).present = true ∧
      (F.pte s i.1 i.2).pfn = f := by
  rw [Forest.frame]
  split_ifs with h
  · rw [Option.some_inj]
    exact ⟨fun hf => ⟨h.1, h.2.1, h.2.2, hf⟩, fun hf => hf.2.2.2⟩
  · exact ⟨fun hf => (nomatch hf), fun hf => absurd ⟨hf.1, hf.2.1, hf.2.2.1⟩ h⟩

/-- A page that was not asked for is not mapped. -/
theorem Forest.frame_eq_none (h : m ∈ F.live → q ∈ F.dom m → (F.pte s m q).present = false) :
    F.frame s (m, q) = none := by
  rw [Forest.frame, if_neg]
  rintro ⟨hm, hq, hp⟩
  exact Bool.false_ne_true ((h hm hq).symm.trans hp)

theorem Forest.frame_eq_none_iff (hm : m ∈ F.live) (hq : q ∈ F.dom m) :
    F.frame s (m, q) = none ↔ (F.pte s m q).present = false := by
  rw [Forest.frame_eq hm hq]
  split_ifs with h
  · simp [h]
  · simp [h]

theorem Forest.liveAt_of_mem (hq : q ∈ F.dom m) : F.LiveAt m 0 (q / 512) :=
  (live_iff_of_lt (by omega)).2 (leaf_pos_of_mem hq)

namespace Forest.Ok

theorem user (h : F.Ok s) (hm : m ∈ F.live) (hq : q ∈ F.dom m) : q < userPages := by
  by_contra hge
  have := (h.tables m hm).user 0 q (by omega) (by omega)
  rw [counts_of_mem (by omega) hq] at this
  omega

/-- The entries of two pages are at different places. -/
theorem slot_inj (h : F.Ok s) (hm : m ∈ F.live) (hm' : m' ∈ F.live) (hl : F.LiveAt m 0 (q / 512))
    (hl' : F.LiveAt m' 0 (q' / 512)) (htab : F.tabAt m 0 (q / 512) = F.tabAt m' 0 (q' / 512))
    (hidx : q % 512 = q' % 512) : m = m' ∧ q = q' := by
  obtain rfl := h.apart m hm m' hm' _ _ _ _ hl hl' htab
  have hgroup := ((h.tables m hm).inj _ _ _ _ hl hl' htab).2
  refine ⟨rfl, ?_⟩
  omega

/-- There are not as many entries as a counter can count. -/
theorem sparse_and_refs_le (h : F.Ok s) (f : Pfn) :
    Sparse (F.frame s) ∧ refs (F.frame s) f ≤ 2 ^ 61 := by
  have hmem : ∀ i, F.frame s i ≠ none → i.1 ∈ F.live ∧ i.2 ∈ F.dom i.1 := by
    intro i hi
    obtain ⟨f', hf'⟩ := Option.ne_none_iff_exists'.1 hi
    have := Forest.frame_eq_some.1 hf'
    exact ⟨this.1, this.2.1⟩
  have hmaps : ∀ i, F.frame s i ≠ none →
      (F.tabAt i.1 0 (i.2 / 512), i.2 % 512) ∈ Finset.range maxFrames ×ˢ Finset.range 512 := by
    intro i hi
    have hlive := hmem i hi
    rw [Finset.mem_product, Finset.mem_range, Finset.mem_range]
    exact ⟨h.low _ ⟨i.1, hlive.1, 0, _, Forest.liveAt_of_mem hlive.2, rfl⟩,
      Nat.mod_lt _ (by omega)⟩
  have hinj : Set.InjOn (fun i : ℕ × ℕ => (F.tabAt i.1 0 (i.2 / 512), i.2 % 512))
      {i | F.frame s i ≠ none} := by
    intro i hi j hj hij
    obtain ⟨hm, hq⟩ := hmem i hi
    obtain ⟨hm', hq'⟩ := hmem j hj
    obtain ⟨htab, hidx⟩ := Prod.mk.inj hij
    obtain ⟨h₁, h₂⟩ := h.slot_inj hm hm' (Forest.liveAt_of_mem hq) (Forest.liveAt_of_mem hq') htab hidx
    exact Prod.ext h₁ h₂
  have hbound := refs_le_of_injOn (b := f) (fun i : ℕ × ℕ => (F.tabAt i.1 0 (i.2 / 512), i.2 % 512)) hmaps
    hinj
  rw [Finset.card_product, Finset.card_range, Finset.card_range] at hbound
  refine ⟨hbound.1, hbound.2.trans ?_⟩
  norm_num [maxFrames]

theorem sparse (h : F.Ok s) : Sparse (F.frame s) := (h.sparse_and_refs_le 0).1

theorem refs_le (h : F.Ok s) (f : Pfn) : refs (F.frame s) f ≤ 2 ^ 61 := (h.sparse_and_refs_le f).2

/-- A free page is not a table and nothing is mapped to it. -/
theorem of_free (h : F.Ok s) (hf : s.free f = true) :
    ¬F.IsTable f ∧ f ≠ F.zero ∧ refs (F.frame s) f = 0 := by
  refine ⟨?_, ?_, ?_⟩
  · rintro ⟨m, hm, k, g, hl, rfl⟩
    have := (h.tables m hm).busy k g hl
    rw [Forest.tabAt] at hf
    exact absurd (this.symm.trans hf) Bool.false_ne_true
  · rintro rfl
    exact absurd (h.zero.2.1.symm.trans hf) Bool.false_ne_true
  · rw [refs_eq_zero_iff h.sparse]
    intro i hi
    exact absurd ((h.busy i f hi).2.1.symm.trans hf) Bool.false_ne_true

theorem isTable (hm : m ∈ F.live) (hl : F.LiveAt m k g) : F.IsTable (F.tabAt m k g) :=
  ⟨m, hm, k, g, hl, rfl⟩

/-! ### Changes outside the tables -/

theorem pte_congr (htable : ∀ f, F.IsTable f → s'.table f = s.table f) (hm : m ∈ F.live)
    (hl : F.LiveAt m 0 (q / 512)) : F.pte s' m q = F.pte s m q := by
  rw [Forest.pte, Forest.pte, htable _ (isTable hm hl)]

theorem frame_congr (htable : ∀ f, F.IsTable f → s'.table f = s.table f) :
    F.frame s' = F.frame s := by
  funext i
  by_cases hi : i.1 ∈ F.live ∧ i.2 ∈ F.dom i.1
  · obtain ⟨m, q⟩ := i
    rw [Forest.frame_eq hi.1 hi.2, Forest.frame_eq hi.1 hi.2,
      pte_congr htable hi.1 (Forest.liveAt_of_mem hi.2)]
  · rw [Forest.frame_eq_none fun h₁ h₂ => absurd ⟨h₁, h₂⟩ hi,
      Forest.frame_eq_none fun h₁ h₂ => absurd ⟨h₁, h₂⟩ hi]

/-- What the invariant reads of the memory. -/
theorem congr (h : F.Ok s) (htable : ∀ f, F.IsTable f → s'.table f = s.table f)
    (hu : ∀ f, F.IsTable f → s'.u f = s.u f)
    (hfree : ∀ f, s'.free f = true → f < maxFrames ∧ ¬F.IsTable f ∧ f ≠ F.zero ∧
      refs (F.frame s) f = 0) : F.Ok s' := by
  have hbusy : ∀ f, (F.IsTable f ∨ f = F.zero ∨ 0 < refs (F.frame s) f) → s'.free f = false := by
    intro f hf
    rw [Bool.eq_false_iff]
    intro hfr
    obtain ⟨-, h₁, h₂, h₃⟩ := hfree f hfr
    rcases hf with hf | hf | hf
    · exact h₁ hf
    · exact h₂ hf
    · omega
  refine
    { tables := fun m hm => ?_
      apart := h.apart
      low := h.low
      freeLow := fun f hf => (hfree f hf).1
      clear := fun m hm q hl hq => ?_
      busy := fun i f hi => ?_
      zero := ⟨h.zero.1, hbusy _ (Or.inr (Or.inl rfl)), h.zero.2.2⟩ }
  · refine (h.tables m hm).congr (fun k g hk hl => htable _ (isTable hm hl)) (fun k g hk hl => ?_)
      fun k g hl => hbusy _ (Or.inl (isTable hm hl))
    have := hu _ (isTable hm ((live_iff_of_lt hk).2 hl))
    rwa [Forest.tabAt, tab_of_lt hk] at this
  · rw [pte_congr htable hm hl]
    exact h.clear m hm q hl hq
  · rw [frame_congr htable] at hi
    obtain ⟨h₁, -, h₃⟩ := h.busy i f hi
    exact ⟨h₁, hbusy f (Or.inr (Or.inr ((refs_pos_iff h.sparse).2 ⟨i, hi⟩))), h₃⟩

end Forest.Ok

/-! ### Storing an entry -/

/-- The state after an entry has been stored. -/
def stored (s : Phys) (t : Pfn) (i : ℕ) (e : Pte) : Phys :=
  { s with table := Function.update s.table t (Function.update (s.table t) i e) }

/-- The state after the entry of a page has been stored. -/
def Forest.remapped (F : Forest) (s : Phys) (m q : ℕ) (e : Pte) : Phys :=
  stored s (F.tabAt m 0 (q / 512)) (q % 512) e

namespace Forest.Ok

theorem pte_remapped (h : F.Ok s) (hm : m ∈ F.live) (hq : q ∈ F.dom m) (hm' : m' ∈ F.live)
    (hl : F.LiveAt m' 0 (q' / 512)) :
    F.pte (F.remapped s m q e) m' q' = if m' = m ∧ q' = q then e else F.pte s m' q' := by
  simp only [Forest.pte, Forest.remapped, stored, update_entry_apply]
  by_cases hsame : m' = m ∧ q' = q
  · obtain ⟨rfl, rfl⟩ := hsame
    simp
  · rw [if_neg hsame, if_neg]
    rintro ⟨htab, hidx⟩
    exact hsame (h.slot_inj hm' hm hl (Forest.liveAt_of_mem hq) htab hidx)

theorem frame_remapped (h : F.Ok s) (hm : m ∈ F.live) (hq : q ∈ F.dom m) :
    F.frame (F.remapped s m q e) =
      Function.update (F.frame s) (m, q) (if e.present then some e.pfn else none) := by
  funext ⟨m', q'⟩
  by_cases hi : m' ∈ F.live ∧ q' ∈ F.dom m'
  · rw [Forest.frame_eq hi.1 hi.2, h.pte_remapped hm hq hi.1 (Forest.liveAt_of_mem hi.2)]
    by_cases hsame : m' = m ∧ q' = q
    · obtain ⟨rfl, rfl⟩ := hsame
      simp only [Function.update_self, and_self, if_true]
    · rw [Function.update_of_ne fun heq => hsame (Prod.mk.inj heq), if_neg hsame,
        Forest.frame_eq hi.1 hi.2]
  · have hne : (m', q') ≠ (m, q) := fun heq => by
      obtain ⟨rfl, rfl⟩ := Prod.mk.inj heq
      exact hi ⟨hm, hq⟩
    rw [Function.update_of_ne hne, Forest.frame_eq_none fun h₁ h₂ => absurd ⟨h₁, h₂⟩ hi,
      Forest.frame_eq_none fun h₁ h₂ => absurd ⟨h₁, h₂⟩ hi]

/-- **Storing an entry** at level 0. -/
theorem remapped (h : F.Ok s) (hm : m ∈ F.live) (hq : q ∈ F.dom m)
    (he : e.present = true → F.Mappable s e.pfn) : F.Ok (F.remapped s m q e) := by
  have hleaf := Forest.liveAt_of_mem hq
  refine
    { tables := fun m' hm' => ?_
      apart := h.apart
      low := h.low
      freeLow := h.freeLow
      clear := fun m' hm' q' hl hq' => ?_
      busy := fun i f hi => ?_
      zero := h.zero }
  · refine (h.tables m' hm').congr (fun k g hk hl => ?_) (fun _ _ _ _ => rfl)
      fun k g hl => (h.tables m' hm').busy k g hl
    -- a table above level 0 is not the one that was written
    refine Function.update_of_ne (fun heq => ?_) _ _
    obtain rfl := h.apart m' hm' m hm _ _ _ _ hl hleaf heq
    have := ((h.tables m' hm).inj _ _ _ _ hl hleaf heq).1
    omega
  · rw [h.pte_remapped hm hq hm' hl, if_neg]
    · exact h.clear m' hm' q' hl hq'
    · rintro ⟨rfl, rfl⟩
      exact hq' hq
  · rw [h.frame_remapped hm hq] at hi
    by_cases hsame : i = (m, q)
    · subst hsame
      rw [Function.update_self] at hi
      split_ifs at hi with hp
      rw [← Option.some_inj.1 hi]
      exact he hp
    · rw [Function.update_of_ne hsame] at hi
      exact h.busy i f hi

end Forest.Ok

/-! ### Counters -/

/-- What the counter of a page should be: its mappings, one more for `zero_page`, and an excess. -/
noncomputable def Forest.total (F : Forest) (s : Phys) (x : Pfn → ℕ) (f : Pfn) : ℕ :=
  refs (F.frame s) f + (if f = F.zero then 1 else 0) + x f

/-- The page is mapped, or is `zero_page`. -/
def Forest.Held (F : Forest) (s : Phys) (f : Pfn) : Prop := 0 < refs (F.frame s) f ∨ f = F.zero

/-- **Counted pages.** -/
def Forest.Counted (F : Forest) (s : Phys) (x : Pfn → ℕ) : Prop :=
  ∀ f, F.Held s f → (s.u f).toNat = F.total s x f

theorem Forest.Ok.mappable_of_held (h : F.Ok s) (hf : F.Held s f) : F.Mappable s f := by
  rcases hf with hf | rfl
  · obtain ⟨i, hi⟩ := (refs_pos_iff h.sparse).1 hf
    exact h.busy i f hi
  · exact h.zero

/-- The state after `get_page`. -/
def afterGet (s : Phys) (f : Pfn) : Phys := { s with u := Function.update s.u f (s.u f + 1#64) }

/-- The state after `put_page`. -/
def afterPut (s : Phys) (f : Pfn) : Phys :=
  { s with
    u := Function.update s.u f (s.u f - 1#64)
    free := fun p => if p = f ∧ s.u f = 1#64 then true else s.free p }

theorem ensures_getPage {Q : Unit → Phys → Prop} :
    Ensures (getPage f) s Q ↔ Q () (afterGet s f) := by
  simp only [getPage, setU, ensures_bind, ensures_get, ensures_modify, afterGet]

theorem ensures_putPage {Q : Unit → Phys → Prop} (hbusy : s.free f = false) :
    Ensures (putPage f) s Q ↔ Q () (afterPut s f) := by
  have hzero : s.u f - 1#64 = 0#64 ↔ s.u f = 1#64 := by
    rw [BitVec.sub_eq_iff_eq_add, BitVec.zero_add]
  simp only [putPage, setU, freePages, ensures_bind, ensures_get, ensures_modify,
    Function.update_self, ensures_ite, ensures_pure, hzero, afterPut, hbusy, Bool.false_eq_true]
  by_cases hone : s.u f = 1#64
  · have hfree : Function.update s.free f true = fun p => if p = f then true else s.free p := by
      funext p
      exact Function.update_apply _ _ _ _
    simp [hone, hfree]
  · simp [hone]

end

end Mm

end Kernel64
