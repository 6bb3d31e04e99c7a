import Kernel64.Exec.Args
import Kernel64.Mm.Calls

/-!
# The stack of a new program

The area that `setup_stack` makes has its tables, so that `copy_args` finds what it needs.
-/

namespace Kernel64

namespace Exec

open Paging Mm Rb ColorTree

section

variable {w w' : World} {T : ℕ → ColorTree Ptr} {EE : ℕ → ℕ → ℕ → Pte} {m fuel size : ℕ} {p p' : Ptr}

/-- Every area has its tables. -/
theorem stackTables_of_worldOk (h : WorldOk w T EE) (hm : w.mmUsed m = true) (hp : p ∈ (T m).inorder) :
    StackTables w.phys.table (w.mm m).pt (EE m) (((w.mm m).area p).begin / 4096)
      (((w.mm m).area p).stop / 4096) := by
  have harea := (h.areas.space m hm).area p hp
  obtain ⟨a, ha⟩ := harea.first
  obtain ⟨b, hb⟩ := harea.last
  refine stackTables_of_ptOk (h.pages.tables m hm) fun q h₁ h₂ => leaf_pos_of_mem ⟨p, hp, ?_⟩
  rw [Vma.Has]
  omega

/-- **An area is ready** for arguments, when the tables of the kernel are not among those of its address space. -/
theorem stackReady_of_worldOk {mm : ArgMm} {roots : Set Pfn} {e3 e2 : Pte} {e1 : ℕ → Pte} (h : WorldOk w T EE)
    (hm : w.mmUsed m = true) (hp : p ∈ (T m).inorder) (hpt : mm.pt = (w.mm m).pt)
    (hstack : mm.stack = (w.mm m).area p)
    (hupper : ∀ q i j, mm.stack.begin / 4096 ≤ q → q < mm.stack.stop / 4096 → i < 3 → j < 256 →
      tab mm.pt (EE m) (i + 1) (q / 512 ^ (i + 2)) ≠ (e1 j).pfn)
    (hleaf : ∀ q, mm.stack.begin / 4096 ≤ q → q < mm.stack.stop / 4096 →
      (EE m 0 (q / 512)).pfn ∉ roots ∧ (EE m 0 (q / 512)).pfn ≠ e3.pfn ∧
      (EE m 0 (q / 512)).pfn ≠ e2.pfn ∧ ∀ j < 256, (EE m 0 (q / 512)).pfn ≠ (e1 j).pfn) :
    StackReady w.phys mm (EE m) roots e3 e2 e1 := by
  have harea := (h.areas.space m hm).area p hp
  obtain ⟨a, ha⟩ := harea.first
  obtain ⟨b, hb⟩ := harea.last
  have htables := stackTables_of_worldOk h hm hp
  rw [← hstack] at htables ha hb harea
  rw [← hpt] at htables
  exact ⟨htables, by omega, by omega, harea.le, hupper, hleaf⟩

/-- Two areas with an address are the same. -/
theorem area_unique {B : ℕ → Prop} {sp : Space} {t : ColorTree Ptr} {x : ℕ} (h : SpaceOk B sp t m)
    (hp : p ∈ t.inorder) (hp' : p' ∈ t.inorder) (hx : (sp.area p).Has x) (hx' : (sp.area p').Has x) : p = p' := by
  obtain ⟨i, hi, rfl⟩ := List.getElem_of_mem hp
  obtain ⟨j, hj, rfl⟩ := List.getElem_of_mem hp'
  have hsorted := List.pairwise_iff_getElem.1 h.sorted
  rw [Vma.Has] at hx hx'
  rcases Nat.lt_trichotomy i j with hlt | rfl | hgt
  · have := hsorted i j hi hj hlt
    omega
  · rfl
  · have := hsorted j i hj hi hgt
    omega

/-- **`setup_stack`** makes an area at the end of the address space. -/
theorem ensures_setupStack (h : WorldOk w T EE) (hm : w.mmUsed m = true) (hsize : 0 < size) (hle : size ≤ taskSize)
    (hfuel : taskSize < fuel) :
    Ensures (setupStack fuel m size) w fun r w' => (r.1 ≠ 0 ∧ r.2 = none) ∨ ∃ p T' EE', r = (0, some p) ∧
      WorldOk w' T' EE' ∧ w'.mmUsed m = true ∧ p ∈ (T' m).inorder ∧
      (w'.mm m).area p = ⟨taskSize - alignUp size, taskSize, 1, m⟩ := by
  obtain ⟨n, hn, hn₁, hn₂⟩ : ∃ n, alignUp size = 4096 * n ∧ 0 < n ∧ n ≤ userPages := by
    refine ⟨(size + 4095) / 4096, ?_⟩
    unfold taskSize at hle
    unfold alignUp userPages pageSize
    omega
  have hbegin : taskSize - alignUp size = 4096 * (userPages - n) := by
    rw [hn, taskSize_eq, Nat.mul_sub]
  unfold setupStack
  rw [hbegin, ensures_bind]
  nth_rewrite 1 [taskSize_eq]
  refine (h.ensures_mmap hm (by omega) le_rfl hfuel).mono ?_
  rintro rc w₁ (⟨rfl, t, E', harea, hok, -⟩ | ⟨hrc, -⟩)
  · rw [if_neg (not_not.2 rfl), ensures_bind]
    obtain ⟨p, l₁, l₂, -, hnew, hp, -⟩ := harea.linked
    have hm₁ : w₁.mmUsed m = true := by rwa [harea.touches.mmUsed]
    have hmem : p ∈ (Function.update T m t m).inorder := by
      rw [Function.update_self, hnew]
      exact List.mem_append_right _ List.mem_cons_self
    have hhas : ((w₁.mm m).area p).Has (4096 * (userPages - n)) := by
      rw [hp, Vma.Has]
      dsimp only
      omega
    rw [alignDown_page]
    refine (hok.areas.ensures_lookupVma hm₁ hfuel).mono ?_
    rintro r w₂ ⟨rfl, ⟨p', hp', rfl, h₁, h₂⟩ | ⟨path, hpath, rfl, hbefore, hafter⟩⟩
    · obtain rfl := area_unique (hok.areas.space m hm₁) hmem hp' hhas ⟨by omega, h₁⟩
      refine ensures_pure.2 (Or.inr ⟨p, _, _, rfl, hok, hm₁, hmem, ?_⟩)
      rw [hp, taskSize_eq]
    · -- the area is before or after the place where the search ended
      rw [hpath, inorder_plug, inorder_nil, List.append_nil, List.mem_append] at hmem
      rw [Vma.Has] at hhas
      rcases hmem with hmem | hmem
      · have := hbefore p hmem
        omega
      · have := hafter p hmem
        omega
  · rw [if_pos hrc]
    exact ensures_pure.2 (Or.inl ⟨hrc, rfl⟩)

end

end Exec

end Kernel64
