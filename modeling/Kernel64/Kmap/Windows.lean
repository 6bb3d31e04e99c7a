import Kernel64.Kmap.Ranges
import Kernel64.Paging.Walk
import Mathlib.Tactic.IntervalCases

/-!
# The page tables of the kmap area

The area lies under the last entries of the upper tables, and has 256 tables of its own (`KmapTables`). A loop
over the slots of a range writes the entries of its pages (`KmapTables.ensures_slots`), and an address of the
area is translated by the entry of its page (`KmapTables.translate_eq`).
-/

namespace Kernel64

namespace Paging

/-! ### Tables -/

/-- An entry that points to a table, through which pages can be written. -/
structure Linked (e : Pte) : Prop where
  present : e.present = true
  large : e.large = false
  write : e.write = true

/-- The tables of the area, under the top tables in `roots`. -/
structure KmapTables (s : Phys) (roots : Set Pfn) (e3 e2 : Pte) (e1 : ℕ → Pte) : Prop where
  top : ∀ root ∈ roots, s.table root 511 = e3
  pml3 : s.table e3.pfn 511 = e2
  pml2 : ∀ k < 256, s.table e2.pfn (256 + k) = e1 k
  linked3 : Linked e3
  linked2 : Linked e2
  linked1 : ∀ k < 256, Linked (e1 k)
  inj : ∀ k k', k < 256 → k' < 256 → (e1 k).pfn = (e1 k').pfn → k = k'
  apart : ∀ k < 256, (e1 k).pfn ∉ roots ∧ (e1 k).pfn ≠ e3.pfn ∧ (e1 k).pfn ≠ e2.pfn

/-- The entry of a page of the area. -/
def leafEntry (s : Phys) (e1 : ℕ → Pte) (i : ℕ) : Pte := s.table (e1 (i / 512)).pfn (i % 512)

/-- The number of a page of the area, among all pages. -/
def kmapPage (i : ℕ) : ℕ := 2 ^ 36 - 2 ^ 17 + i

/-- The entries on the way to the pages of the area. -/
def kmapEntries (e3 e2 : Pte) (e1 : ℕ → Pte) : ℕ → ℕ → Pte
  | 0, g => e1 (g - (2 ^ 27 - 256))
  | 1, _ => e2
  | _, _ => e3

section

variable {s s' : Phys} {roots : Set Pfn} {root : Pfn} {e3 e2 e : Pte} {e1 : ℕ → Pte} {i j r n addr : ℕ}

theorem kmapPages_eq : kmapPages = 131071 := by decide

theorem kmapBase_eq : kmapBase = 0xffffffffe0000000 := by decide

theorem kmap2virt_eq (i : ℕ) : kmap2virt i = 4096 * (kmapPage i + 65535 * 2 ^ 36) := by
  unfold kmap2virt kmapPage pageSize
  rw [kmapBase_eq]
  norm_num
  omega

theorem digit_kmapPage {k : ℕ} (hk : k ≤ 3) (i : ℕ) :
    digit (kmapPage i + 65535 * 2 ^ 36) k = digit (kmapPage i) k := by
  unfold digit
  interval_cases k <;> norm_num <;> omega

theorem pmlIndex_kmap2virt {k : ℕ} (hk : k ≤ 3) (i : ℕ) : pmlIndex k (kmap2virt i) = digit (kmapPage i) k := by
  rw [kmap2virt_eq, pmlIndex_page, digit_kmapPage hk]

theorem canonical_kmapPage (hi : i ≤ kmapPages) : canonical (4096 * kmapPage i) = kmap2virt i := by
  rw [kmapPages_eq] at hi
  have hlo : 2 ^ 47 ≤ 4096 * kmapPage i := by
    unfold kmapPage
    omega
  have hhi : 4096 * kmapPage i < 2 ^ 48 := by
    unfold kmapPage
    omega
  rw [canonical_of_upper hlo hhi, kmap2virt_eq]
  omega

/-- The tables are there for the pages of the area. -/
theorem KmapTables.reaches (h : KmapTables s roots e3 e2 e1) (hroot : root ∈ roots) (hi : i < kmapPages) :
    Reaches s.table root (kmapEntries e3 e2 e1) (kmapPage i) := by
  rw [kmapPages_eq] at hi
  have hd3 : digit (kmapPage i) 3 = 511 := by
    unfold digit kmapPage
    norm_num
    omega
  have hd2 : digit (kmapPage i) 2 = 511 := by
    unfold digit kmapPage
    norm_num
    omega
  have hd1 : digit (kmapPage i) 1 = 256 + i / 512 := by
    unfold digit kmapPage
    norm_num
    omega
  have hg : kmapPage i / 512 ^ 1 - (2 ^ 27 - 256) = i / 512 := by
    unfold kmapPage
    norm_num
    omega
  have hk : i / 512 < 256 := by omega
  intro k hk3
  interval_cases k
  · have hl := h.linked1 _ hk
    simp only [tab, kmapEntries, hd1, hg]
    exact ⟨h.pml2 _ hk, hl.present, hl.large⟩
  · simp only [tab, kmapEntries, hd2]
    exact ⟨h.pml3, h.linked2.present, h.linked2.large⟩
  · simp only [tab, kmapEntries, hd3]
    exact ⟨h.top root hroot, h.linked3.present, h.linked3.large⟩

/-- **Translation** of the addresses of the area. -/
theorem KmapTables.translate_eq (h : KmapTables s roots e3 e2 e1) (hroot : root ∈ roots)
    (hlo : kmapBase ≤ addr) (hhi : addr < kmapBase + kmapSize) :
    translate s.table root addr =
      if (leafEntry s e1 (virt2kmap addr)).present then
        some ((leafEntry s e1 (virt2kmap addr)).pfn, (leafEntry s e1 (virt2kmap addr)).write)
      else none := by
  have hsize : kmapSize = 536866816 := by decide
  rw [kmapBase_eq] at hlo hhi
  rw [hsize] at hhi
  have hp3 : pmlIndex 3 addr = 511 := by
    unfold pmlIndex
    norm_num
    omega
  have hp2 : pmlIndex 2 addr = 511 := by
    unfold pmlIndex
    norm_num
    omega
  have hp1 : pmlIndex 1 addr = 256 + virt2kmap addr / 512 := by
    unfold pmlIndex virt2kmap pageSize
    rw [kmapBase_eq]
    norm_num
    omega
  have hp0 : pmlIndex 0 addr = virt2kmap addr % 512 := by
    unfold pmlIndex virt2kmap pageSize
    rw [kmapBase_eq]
    norm_num
    omega
  have hk : virt2kmap addr / 512 < 256 := by
    unfold virt2kmap pageSize
    rw [kmapBase_eq]
    omega
  have hl1 := h.linked1 _ hk
  unfold translate ptMaxLevel
  simp only [translateFrom, hp3, hp2, hp1, hp0, h.top root hroot, h.pml3, h.pml2 _ hk, h.linked3.present,
    h.linked3.large, h.linked3.write, h.linked2.present, h.linked2.large, h.linked2.write, hl1.present,
    hl1.large, hl1.write, leafEntry, if_true, Bool.true_and, Bool.false_eq_true, if_false]
  rfl

/-! ### Writing entries -/

/-- Write the entry of a page of the area. -/
def Phys.setLeaf (s : Phys) (e1 : ℕ → Pte) (i : ℕ) (e : Pte) : Phys :=
  { s with
    table := Function.update s.table (e1 (i / 512)).pfn
      (Function.update (s.table (e1 (i / 512)).pfn) (i % 512) e) }

/-- Only the tables of the area change. -/
structure OffArea (e1 : ℕ → Pte) (s s' : Phys) : Prop where
  table : ∀ t, (∀ k < 256, t ≠ (e1 k).pfn) → s'.table t = s.table t
  bytes : s'.bytes = s.bytes

theorem OffArea.setLeaf {s' : Phys} (h : OffArea e1 s s') (hi : i < kmapPages) :
    OffArea e1 s (s'.setLeaf e1 i e) := by
  rw [kmapPages_eq] at hi
  refine ⟨fun t ht => ?_, h.bytes⟩
  rw [Phys.setLeaf]
  dsimp only
  rw [Function.update_of_ne (ht (i / 512) (by omega))]
  exact h.table t ht

theorem KmapTables.setLeaf (h : KmapTables s roots e3 e2 e1) (hi : i < kmapPages) :
    KmapTables (s.setLeaf e1 i e) roots e3 e2 e1 := by
  rw [kmapPages_eq] at hi
  have hk : i / 512 < 256 := by omega
  obtain ⟨hroots, h3, h2⟩ := h.apart _ hk
  refine { h with top := fun root hroot => ?_, pml3 := ?_, pml2 := fun k hk' => ?_ }
  all_goals unfold Phys.setLeaf; dsimp only
  · have hne : root ≠ (e1 (i / 512)).pfn := fun hc => hroots (hc ▸ hroot)
    rw [Function.update_of_ne hne]
    exact h.top root hroot
  · rw [Function.update_of_ne h3.symm]
    exact h.pml3
  · rw [Function.update_of_ne h2.symm]
    exact h.pml2 k hk'

theorem KmapTables.leafEntry_setLeaf (h : KmapTables s roots e3 e2 e1) (hi : i < kmapPages)
    (hj : j < kmapPages) : leafEntry (s.setLeaf e1 i e) e1 j = if j = i then e else leafEntry s e1 j := by
  rw [kmapPages_eq] at hi hj
  unfold leafEntry Phys.setLeaf
  dsimp only
  by_cases hji : j = i
  · subst hji
    rw [if_pos rfl, Function.update_self, Function.update_self]
  · rw [if_neg hji]
    by_cases htab : (e1 (j / 512)).pfn = (e1 (i / 512)).pfn
    · have hk := h.inj _ _ (by omega) (by omega) htab
      rw [htab, Function.update_self, Function.update_of_ne (by omega)]
    · rw [Function.update_of_ne htab]

theorem KmapTables.ensures_setSlot (hi : i < kmapPages) {Q : Unit → Phys → Prop} :
    Ensures (setSlot (pathIter root (kmapEntries e3 e2 e1) (kmapPage i)) e) s Q ↔ Q () (s.setLeaf e1 i e) := by
  rw [kmapPages_eq] at hi
  have hg : kmapPage i / 512 ^ 1 - (2 ^ 27 - 256) = i / 512 := by
    unfold kmapPage
    norm_num
    omega
  have hd : digit (kmapPage i) 0 = i % 512 := by
    unfold digit kmapPage
    norm_num
    omega
  have hpt : (pathIter root (kmapEntries e3 e2 e1) (kmapPage i)).pt 0 = some (e1 (i / 512)).pfn := by
    rw [← hg]
    rfl
  have hidx : (pathIter root (kmapEntries e3 e2 e1) (kmapPage i)).idx 0 = i % 512 := by
    rw [← hd]
    rfl
  have hlevel : (pathIter root (kmapEntries e3 e2 e1) (kmapPage i)).level = 0 := rfl
  unfold setSlot
  rw [hlevel, hpt, hidx]
  dsimp only
  rw [setEntry, ensures_modify]
  rfl

/-- **A loop over the slots of a range** writes the entries of its pages. -/
theorem KmapTables.ensures_slots (h : KmapTables s roots e3 e2 e1) (hroot : root ∈ roots) (hn : 0 < n)
    (hr : r + n ≤ kmapPages) {body : ℕ → PtIter → PhysM (Option Unit)} {f : ℕ → Pte}
    (hbody : ∀ i it, i < n → body i it = do
      setSlot it (f i)
      return none) :
    Ensures (forEachSlotInRange (n + 1) root (kmap2virt r) (kmap2virt r + n * pageSize) body) s fun _ s' =>
      KmapTables s' roots e3 e2 e1 ∧ OffArea e1 s s' ∧ ∀ j < kmapPages,
        leafEntry s' e1 j = if r ≤ j ∧ j < r + n then f (j - r) else leafEntry s e1 j := by
  have hpages := kmapPages_eq
  have hhi : kmap2virt r + n * pageSize = kmap2virt (r + n) := by
    unfold kmap2virt
    rw [add_mul, add_assoc]
  have hvirt : ∀ {a b : ℕ}, a < b → kmap2virt a < kmap2virt b := by
    intro a b hab
    unfold kmap2virt pageSize
    omega
  have hpage : ∀ p, kmapPage r ≤ p → p < kmapPage (r + n) → ∃ i, p = kmapPage i ∧ r ≤ i ∧ i < r + n := by
    intro p h₁ h₂
    unfold kmapPage at h₁ h₂ ⊢
    exact ⟨p - (2 ^ 36 - 2 ^ 17), by omega, by omega, by omega⟩
  -- the entries of the pages passed are written
  let I : ℕ → Phys → Prop := fun q s' => KmapTables s' roots e3 e2 e1 ∧ OffArea e1 s s' ∧ ∀ j < kmapPages,
    leafEntry s' e1 j = if r ≤ j ∧ kmapPage j < q then f (j - r) else leafEntry s e1 j
  have hloop : Ensures (forEachSlotInRange (n + 1) root (kmap2virt r) (kmap2virt (r + n)) body) s fun o s' =>
      (o = none ∧ I (kmapPage (r + n)) s') ∨ ∃ x, o = some x ∧ False := by
    refine Paging.ensures_slots (a := kmapPage r) (E := kmapEntries e3 e2 e1) (R := fun _ _ => False)
      ?_ ?_ ?_ ?_ ?_ ?_ ?_ ?_ ?_
    · unfold kmapPage
      omega
    · unfold kmapPage
      omega
    · unfold kmapPage
      omega
    · exact fun k hk => pmlIndex_kmap2virt hk r
    · intro p h₁ h₂
      obtain ⟨i, rfl, hi₁, hi₂⟩ := hpage p h₁ h₂
      rw [canonical_kmapPage (by omega)]
      exact hvirt hi₂
    · rw [canonical_kmapPage hr]
    · intro p q s' hI h₁ h₂
      obtain ⟨i, rfl, hi₁, hi₂⟩ := hpage p h₁ h₂
      exact hI.1.reaches hroot (by omega)
    · intro p s' h₁ h₂ hI
      obtain ⟨i, rfl, hi₁, hi₂⟩ := hpage p h₁ h₂
      have hsub : kmapPage i - kmapPage r = i - r := by
        unfold kmapPage
        omega
      rw [hsub, hbody (i - r) _ (by omega), ensures_bind, KmapTables.ensures_setSlot (by omega), ensures_pure]
      refine Or.inl ⟨rfl, hI.1.setLeaf (by omega), hI.2.1.setLeaf (by omega), fun j hj => ?_⟩
      rw [hI.1.leafEntry_setLeaf (by omega) hj, hI.2.2 j hj]
      by_cases hji : j = i
      · subst hji
        have hlt : kmapPage j < kmapPage j + 1 := Nat.lt_succ_self _
        rw [if_pos rfl, if_pos ⟨hi₁, hlt⟩]
      · rw [if_neg hji]
        refine if_congr ?_ rfl rfl
        unfold kmapPage
        omega
    · refine ⟨h, ⟨fun _ _ => rfl, rfl⟩, fun j _ => ?_⟩
      rw [if_neg]
      unfold kmapPage
      omega
  rw [hhi]
  refine hloop.mono ?_
  rintro o s' (⟨-, hI⟩ | ⟨_, _, hf⟩)
  · refine ⟨hI.1, hI.2.1, fun j hj => ?_⟩
    rw [hI.2.2 j hj]
    have hiff : r ≤ j ∧ kmapPage j < kmapPage (r + n) ↔ r ≤ j ∧ j < r + n := by
      unfold kmapPage
      omega
    exact if_congr hiff rfl rfl
  · exact hf.elim

end

end Paging

end Kernel64
