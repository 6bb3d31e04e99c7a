import Kernel64.Mm.Model
import Kernel64.Paging.Tables
import Mathlib.Data.Set.Card

/-!
# Memory areas

The areas of an address space are kept in its tree in the order of their addresses, and no two
overlap (`SpaceOk`). Looking up a range finds an area that meets it, or the place between the areas
before and after it; `__munmap` cuts the areas that meet its range until none is left, and what
remains are the areas without the range (`ensures_munmapLoop`). It waits for memory when it has to
split an area, and that is the only way it does not end.
-/

namespace Kernel64

namespace Mm

open Paging Rb ColorTree

/-! ### Rules -/

section Rules

variable {α : Type} {w : World} {m : ℕ} {Q : α → World → Prop}

/-- The state with other memory. -/
def World.withPhys (w : World) (s : Phys) : World := { w with phys := s }

/-- The state with another address space. -/
def World.withSpace (w : World) (m : ℕ) (sp : Space) : World :=
  { w with mm := Function.update w.mm m sp }

@[simp]
theorem ensures_onPhys {c : PhysM α} :
    Ensures (onPhys c) w Q ↔ Ensures c w.phys fun a s => Q a (w.withPhys s) := by
  unfold Ensures onPhys
  cases hc : c w.phys with
  | error e => simp
  | ok r =>
    obtain ⟨a, s⟩ := r
    simp [World.withPhys]

@[simp]
theorem ensures_onVmas {c : RbM α} :
    Ensures (onVmas m c) w Q ↔
      Ensures c (w.mm m).vma fun a b => Q a (w.withSpace m { w.mm m with vma := b }) := by
  unfold Ensures onVmas
  cases hc : c (w.mm m).vma with
  | error e => simp
  | ok r =>
    obtain ⟨a, b⟩ := r
    simp [World.withSpace]

theorem ensures_setArea {p : Ptr} {v : Vma} {Q : Unit → World → Prop} :
    Ensures (setArea m p v) w Q ↔
      Q () (w.withSpace m { w.mm m with area := Function.update (w.mm m).area p v }) :=
  ensures_modify

theorem withSpace_self (w : World) (m : ℕ) : w.withSpace m (w.mm m) = w := by
  rw [World.withSpace, Function.update_eq_self]

theorem withSpace_mm_self {sp : Space} : (w.withSpace m sp).mm m = sp := Function.update_self _ _ _

theorem withSpace_mm_of_ne {sp : Space} {m' : ℕ} (h : m' ≠ m) :
    (w.withSpace m sp).mm m' = w.mm m' := Function.update_of_ne h _ _

end Rules

/-! ### Areas in order -/

/-- A non-empty area of `m` below `TASK_SIZE` whose ends are among the addresses `B`. -/
structure VmaOk (B : ℕ → Prop) (v : Vma) (m : ℕ) : Prop where
  first : B v.begin
  last : B v.stop
  lt : v.begin < v.stop
  le : v.stop ≤ taskSize
  owner : v.mm = m

/-- The address is inside the area. -/
def Vma.Has (v : Vma) (addr : ℕ) : Prop := v.begin ≤ addr ∧ addr < v.stop

/-- **An address space** holds the areas of the tree `t`, in order and apart. -/
structure SpaceOk (B : ℕ → Prop) (sp : Space) (t : ColorTree Ptr) (m : ℕ) : Prop where
  repr : Represents sp.vma t
  balanced : t.RedBlack
  area : ∀ p ∈ t.inorder, VmaOk B (sp.area p) m
  sorted : t.inorder.Pairwise fun a b => (sp.area a).stop ≤ (sp.area b).begin

/-- An address is inside an area with the given permissions. -/
def HasPerm (sp : Space) (t : ColorTree Ptr) (addr perm : ℕ) : Prop :=
  ∃ p ∈ t.inorder, (sp.area p).Has addr ∧ (sp.area p).perm = perm

/-- The pages inside the areas. -/
def pagesOf (sp : Space) (t : ColorTree Ptr) : Set ℕ :=
  {q | ∃ p ∈ t.inorder, (sp.area p).Has (4096 * q)}

section Order

variable {B : ℕ → Prop} {sp : Space} {t : ColorTree Ptr} {m : ℕ} {v : Vma}

theorem mem_pagesOf {q : ℕ} : q ∈ pagesOf sp t ↔ ∃ perm, HasPerm sp t (4096 * q) perm :=
  ⟨fun ⟨p, hp, hq⟩ => ⟨_, p, hp, hq, rfl⟩, fun ⟨_, p, hp, hq, _⟩ => ⟨p, hp, hq⟩⟩

theorem toVma_eq_none {begin stop : ℕ} {p : Ptr} :
    toVma sp begin stop p = none ↔ begin < (sp.area p).stop ∧ (sp.area p).begin < stop := by
  rw [toVma]
  split_ifs <;> simp <;> omega

theorem toVma_eq_right {begin stop : ℕ} {p : Ptr} :
    toVma sp begin stop p = some .right ↔ (sp.area p).stop ≤ begin := by
  rw [toVma]
  split_ifs <;> simp <;> omega

theorem toVma_eq_left {begin stop : ℕ} {p : Ptr} :
    toVma sp begin stop p = some .left ↔ begin < (sp.area p).stop ∧ stop ≤ (sp.area p).begin := by
  rw [toVma]
  split_ifs <;> simp <;> omega

namespace SpaceOk

/-- Two areas that share an address are one. -/
theorem eq_of_meet (h : SpaceOk B sp t m) {p p' : Ptr} (hp : p ∈ t.inorder)
    (hp' : p' ∈ t.inorder) (h₁ : (sp.area p).begin < (sp.area p').stop)
    (h₂ : (sp.area p').begin < (sp.area p).stop) : p = p' := by
  by_contra hne
  have hsymm : Std.Symm fun x y => (sp.area x).stop ≤ (sp.area y).begin ∨
      (sp.area y).stop ≤ (sp.area x).begin := ⟨fun x y hxy => hxy.symm⟩
  have hapart : t.inorder.Pairwise fun x y => (sp.area x).stop ≤ (sp.area y).begin ∨
      (sp.area y).stop ≤ (sp.area x).begin := h.sorted.imp fun hxy => Or.inl hxy
  have := hapart.forall hp hp' hne
  omega

/-- There are no more areas than addresses. -/
theorem length_le (h : SpaceOk B sp t m) : t.inorder.length ≤ taskSize := by
  have hinj : (t.inorder.map fun p => (sp.area p).begin).Nodup := by
    refine (List.nodup_map_iff_inj_on h.repr.nodup).2 fun p hp p' hp' heq => ?_
    have h₁ := (h.area p hp).lt
    have h₂ := (h.area p' hp').lt
    exact h.eq_of_meet hp hp' (by omega) (by omega)
  have hsub : (t.inorder.map fun p => (sp.area p).begin) ⊆ List.range taskSize := by
    intro q hq
    obtain ⟨p, hp, rfl⟩ := List.mem_map.1 hq
    exact List.mem_range.2 (lt_of_lt_of_le (h.area p hp).lt (h.area p hp).le)
  have := (hinj.subperm hsub).length_le
  rwa [List.length_map, List.length_range] at this

/-- The search for a range agrees with the order. -/
theorem guided (h : SpaceOk B sp t m) (begin stop : ℕ) :
    Guided (toVma sp begin stop) t.inorder := by
  refine h.sorted.imp_of_mem fun {a b} ha hb hab => ?_
  have hlta := (h.area a ha).lt
  have hltb := (h.area b hb).lt
  rw [toVma_eq_right, toVma_eq_right, toVma_eq_left, toVma_eq_left]
  constructor <;> omega

end SpaceOk

end Order

/-! ### Operations on one address space -/

section Space

variable {B : ℕ → Prop} {sp : Space} {t : ColorTree Ptr} {m fuel : ℕ} {p : Ptr} {v : Vma}

/-- What the invariant reads of the areas. -/
theorem SpaceOk.congr (h : SpaceOk B sp t m) {area : Ptr → Vma}
    (harea : ∀ p ∈ t.inorder, VmaOk B (area p) m ∧ (sp.area p).begin ≤ (area p).begin ∧
      (area p).stop ≤ (sp.area p).stop) : SpaceOk B { sp with area := area } t m := by
  refine ⟨h.repr, h.balanced, fun p hp => (harea p hp).1, ?_⟩
  refine h.sorted.imp_of_mem fun {a b} ha hb hab => ?_
  have h₁ := (harea a ha).2.2
  have h₂ := (harea b hb).2.1
  exact (h₁.trans hab).trans h₂

/-- Storing an area that is not in the tree. -/
theorem SpaceOk.setArea_of_notMem (h : SpaceOk B sp t m) (hp : p ∉ t.inorder) :
    SpaceOk B { sp with area := Function.update sp.area p v } t m := by
  refine h.congr fun p' hp' => ?_
  have hne : p' ≠ p := fun heq => hp (heq ▸ hp')
  rw [Function.update_of_ne hne]
  exact ⟨h.area p' hp', le_rfl, le_rfl⟩

/-- Making an area smaller. -/
theorem SpaceOk.trim (h : SpaceOk B sp t m) (hv : VmaOk B v m) (hbegin : (sp.area p).begin ≤ v.begin)
    (hstop : v.stop ≤ (sp.area p).stop) :
    SpaceOk B { sp with area := Function.update sp.area p v } t m := by
  refine h.congr fun p' hp' => ?_
  by_cases heq : p' = p
  · subst heq
    rw [Function.update_self]
    exact ⟨hv, hbegin, hstop⟩
  · rw [Function.update_of_ne heq]
    exact ⟨h.area p' hp', le_rfl, le_rfl⟩

/-- **Linking an area** between those before and after it. -/
theorem SpaceOk.ensures_link {path : TreePath Ptr} (h : SpaceOk B sp (plug path .nil) m)
    (hp : NodeAddr p) (hfresh : p ∉ (plug path .nil).inorder) (hv : VmaOk B (sp.area p) m)
    (hbefore : ∀ a ∈ TreePath.before path, (sp.area a).stop ≤ (sp.area p).begin)
    (hafter : ∀ a ∈ TreePath.after path, (sp.area p).stop ≤ (sp.area a).begin)
    (hfuel : taskSize < fuel) :
    Ensures (do rbLink p (topPtr path) (slotOf path); rbInsert fuel p) sp.vma fun _ b =>
      ∃ t', SpaceOk B { sp with vma := b } t' m ∧
        t'.inorder = TreePath.before path ++ p :: TreePath.after path := by
  refine (ensures_rbLink_rbInsert h.repr h.balanced hp hfresh
    (lt_of_le_of_lt h.length_le hfuel)).mono ?_
  rintro - b ⟨t', hrepr, hbal, hin, -⟩
  have hold : (plug path .nil).inorder = TreePath.before path ++ TreePath.after path := by
    rw [inorder_plug, inorder_nil, List.append_nil]
  have hsorted := h.sorted
  rw [hold, List.pairwise_append] at hsorted
  obtain ⟨h₁, h₂, h₃⟩ := hsorted
  refine ⟨t', ⟨hrepr, hbal, fun p' hp' => ?_, ?_⟩, hin⟩
  · rw [hin, List.mem_append, List.mem_cons] at hp'
    rcases hp' with hp' | rfl | hp'
    · exact h.area p' (hold ▸ List.mem_append_left _ hp')
    · exact hv
    · exact h.area p' (hold ▸ List.mem_append_right _ hp')
  · rw [hin, List.pairwise_append]
    refine ⟨h₁, List.pairwise_cons.2 ⟨hafter, h₂⟩, fun a ha b hb => ?_⟩
    rcases List.mem_cons.1 hb with rfl | hb
    · exact hbefore a ha
    · exact h₃ a ha b hb

/-- **Unlinking an area.** -/
theorem SpaceOk.ensures_unlink (h : SpaceOk B sp t m) (hp : p ∈ t.inorder) (hfuel : taskSize < fuel) :
    Ensures (rbErase fuel p) sp.vma fun _ b =>
      ∃ t', SpaceOk B { sp with vma := b } t' m ∧ t'.inorder = t.inorder.erase p := by
  refine (ensures_rbErase h.repr h.balanced hp (lt_of_le_of_lt h.length_le hfuel)).mono ?_
  rintro - b ⟨t', hrepr, hbal, hin, -⟩
  refine ⟨t', ⟨hrepr, hbal, fun p' hp' => h.area p' ?_, ?_⟩, hin⟩
  · rw [hin] at hp'
    exact List.mem_of_mem_erase hp'
  · rw [hin]
    exact h.sorted.sublist List.erase_sublist

end Space

/-! ### All address spaces -/

/-- **The areas of all address spaces.** No area is in two of them. -/
structure AreasOk (B : ℕ → Prop) (w : World) (T : ℕ → ColorTree Ptr) : Prop where
  space : ∀ m, w.mmUsed m = true → SpaceOk B (w.mm m) (T m) m
  used : ∀ m, w.mmUsed m = true → ∀ p ∈ (T m).inorder, w.vmaUsed p = true
  apart : ∀ m m' p, w.mmUsed m = true → w.mmUsed m' = true → p ∈ (T m).inorder →
    p ∈ (T m').inorder → m = m'

/-- Of the address spaces, at most the areas of one have changed. -/
structure Touches (m : ℕ) (w w' : World) : Prop where
  other : ∀ m', m' ≠ m → w'.mm m' = w.mm m'
  pt : (w'.mm m).pt = (w.mm m).pt
  mmUsed : w'.mmUsed = w.mmUsed
  mmSupply : w'.mmSupply = w.mmSupply
  pml4 : w'.pml4 = w.pml4
  zeroPage : w'.zeroPage = w.zeroPage

/-- Only the areas of one address space, and what is allocated for areas, have changed. -/
structure Recut (m : ℕ) (w w' : World) : Prop extends Touches m w w' where
  phys : w'.phys = w.phys

theorem Touches.refl (m : ℕ) (w : World) : Touches m w w :=
  ⟨fun _ _ => rfl, rfl, rfl, rfl, rfl, rfl⟩

theorem Touches.trans {m : ℕ} {w₁ w₂ w₃ : World} (h : Touches m w₁ w₂) (h' : Touches m w₂ w₃) :
    Touches m w₁ w₃ :=
  ⟨fun m' hne => (h'.other m' hne).trans (h.other m' hne), h'.pt.trans h.pt,
    h'.mmUsed.trans h.mmUsed, h'.mmSupply.trans h.mmSupply, h'.pml4.trans h.pml4,
    h'.zeroPage.trans h.zeroPage⟩

theorem Recut.refl (m : ℕ) (w : World) : Recut m w w := ⟨Touches.refl m w, rfl⟩

theorem Recut.trans {m : ℕ} {w₁ w₂ w₃ : World} (h : Recut m w₁ w₂) (h' : Recut m w₂ w₃) :
    Recut m w₁ w₃ :=
  ⟨h.toTouches.trans h'.toTouches, h'.phys.trans h.phys⟩

theorem touches_withPhys (m : ℕ) (w : World) (s : Phys) : Touches m w (w.withPhys s) :=
  ⟨fun _ _ => rfl, rfl, rfl, rfl, rfl, rfl⟩

section World

variable {B : ℕ → Prop} {w w' : World} {T : ℕ → ColorTree Ptr} {m fuel begin stop : ℕ} {p : Ptr}

theorem recut_withSpace {vma : RbState} {area : Ptr → Vma} :
    Recut m w (w.withSpace m ⟨vma, area, (w.mm m).pt⟩) := by
  refine ⟨⟨fun m' hne => withSpace_mm_of_ne hne, ?_, rfl, rfl, rfl, rfl⟩, rfl⟩
  rw [withSpace_mm_self]

/-- Replacing the areas of one address space. -/
theorem AreasOk.recut (h : AreasOk B w T) (hr : Touches m w w') {t : ColorTree Ptr}
    (hspace : SpaceOk B (w'.mm m) t m)
    (hused : ∀ p ∈ t.inorder, w'.vmaUsed p = true)
    (hkept : ∀ p, p ∉ (T m).inorder → w.vmaUsed p = true → w'.vmaUsed p = true)
    (hnew : ∀ p ∈ t.inorder, p ∈ (T m).inorder ∨ w.vmaUsed p = false)
    (hm : w.mmUsed m = true) : AreasOk B w' (Function.update T m t) := by
  have hapart : ∀ m' p, m' ≠ m → w.mmUsed m' = true → p ∈ (T m').inorder → p ∉ t.inorder := by
    intro m' p hne hm' hp hpt
    rcases hnew p hpt with hold | hfree
    · exact hne (h.apart m' m p hm' hm hp hold)
    · exact Bool.false_ne_true (hfree.symm.trans (h.used m' hm' p hp))
  refine ⟨fun m' hm' => ?_, fun m' hm' p hp => ?_, fun m₁ m₂ p hm₁ hm₂ hp₁ hp₂ => ?_⟩
  · by_cases hne : m' = m
    · subst hne
      rwa [Function.update_self]
    · rw [Function.update_of_ne hne, hr.other m' hne]
      exact h.space m' (hr.mmUsed ▸ hm')
  · rw [hr.mmUsed] at hm'
    by_cases hne : m' = m
    · subst hne
      rw [Function.update_self] at hp
      exact hused p hp
    · rw [Function.update_of_ne hne] at hp
      exact hkept p (fun hc => hne (h.apart m' m p hm' hm hp hc)) (h.used m' hm' p hp)
  · rw [hr.mmUsed] at hm₁ hm₂
    by_cases h₁ : m₁ = m
    · subst h₁
      rw [Function.update_self] at hp₁
      by_contra hne
      rw [Function.update_of_ne (Ne.symm hne)] at hp₂
      exact hapart m₂ p (Ne.symm hne) hm₂ hp₂ hp₁
    · rw [Function.update_of_ne h₁] at hp₁
      by_cases h₂ : m₂ = m
      · subst h₂
        rw [Function.update_self] at hp₂
        exact absurd hp₂ (hapart m₁ p h₁ hm₁ hp₁)
      · rw [Function.update_of_ne h₂] at hp₂
        exact h.apart m₁ m₂ p hm₁ hm₂ hp₁ hp₂

/-- **Looking up a range** finds an area that meets it, or the place where it belongs. -/
theorem AreasOk.ensures_lookupVma (h : AreasOk B w T) (hm : w.mmUsed m = true)
    (hfuel : taskSize < fuel) :
    Ensures (lookupVma fuel m begin stop) w fun r w' => w' = w ∧
      ((∃ p ∈ (T m).inorder, r = .hit p ∧ begin < ((w.mm m).area p).stop ∧
          ((w.mm m).area p).begin < stop) ∨
        ∃ path, T m = plug path .nil ∧ r = .missing (topPtr path) (slotOf path) ∧
          (∀ a ∈ TreePath.before path, ((w.mm m).area a).stop ≤ begin) ∧
          ∀ a ∈ TreePath.after path, stop ≤ ((w.mm m).area a).begin) := by
  have hsp := h.space m hm
  rw [lookupVma]
  simp only [ensures_bind, ensures_get, ensures_onVmas]
  refine (ensures_searchTree hsp.repr (lt_of_le_of_lt hsp.length_le hfuel)
    (hsp.guided begin stop)).mono ?_
  rintro r b ⟨rfl, hr⟩
  refine ⟨withSpace_self w m, ?_⟩
  rcases hr with ⟨p, rfl, hp, hgo⟩ | ⟨path, ht, rfl, hb, ha⟩
  · exact Or.inl ⟨p, hp, rfl, toVma_eq_none.1 hgo⟩
  · exact Or.inr ⟨path, ht, rfl, fun a hmem => toVma_eq_right.1 (hb a hmem),
      fun a hmem => (toVma_eq_left.1 (ha a hmem)).2⟩

/-! ### Allocating areas -/

/-- The allocator will return an area at its `n`-th call from now. -/
def Supplies (w : World) (n : ℕ) : Prop :=
  ∃ p, w.vmaSupply n = some p ∧ NodeAddr p ∧ w.vmaUsed p = false

/-- The next calls of the allocator all fail. -/
def Starved (fuel : ℕ) (w : World) : Prop := ∀ n < fuel, ¬Supplies w n

/-- The state after `k` calls of the allocator have failed. -/
def World.asked (w : World) (k : ℕ) : World := { w with vmaSupply := fun n => w.vmaSupply (n + k) }

/-- The state after an area has been allocated. -/
def World.allocated (w : World) (p : Ptr) : World :=
  { w with vmaUsed := Function.update w.vmaUsed p true }

theorem ensures_allocVma :
    Ensures allocVma w fun r w' =>
      (∃ p, r = some p ∧ NodeAddr p ∧ w.vmaUsed p = false ∧ w' = (w.asked 1).allocated p) ∨
        (r = none ∧ ¬Supplies w 0 ∧ w' = w.asked 1) := by
  rw [allocVma]
  simp only [ensures_bind, ensures_get, ensures_set]
  cases hsup : w.vmaSupply 0 with
  | none =>
    simp only [ensures_pure]
    refine Or.inr ⟨trivial, ?_, rfl⟩
    rintro ⟨p, hp, -⟩
    rw [hsup] at hp
    cases hp
  | some p =>
    simp only
    split_ifs with hp
    · simp only [ensures_bind, ensures_modify, ensures_pure]
      exact Or.inl ⟨p, rfl, ⟨hp.1, hp.2.1⟩, hp.2.2, rfl⟩
    · simp only [ensures_pure]
      refine Or.inr ⟨trivial, ?_, rfl⟩
      rintro ⟨p', hp', haddr, hfree⟩
      rw [hsup, Option.some_inj] at hp'
      subst hp'
      exact hp ⟨haddr.1, haddr.2, hfree⟩

/-- The loop that waits for memory. -/
theorem ensures_allocVmaLoop :
    EnsuresUnless (Starved fuel w) (allocVmaLoop fuel) w fun p w' =>
      NodeAddr p ∧ w.vmaUsed p = false ∧ ∃ k, w' = (w.asked k).allocated p := by
  induction fuel generalizing w with
  | zero => exact Or.inr ⟨fun n hn => absurd hn (Nat.not_lt_zero n), rfl⟩
  | succ fuel ih =>
    rw [allocVmaLoop]
    refine (ensures_allocVma.mono ?_).bindUnless
    rintro r w' (⟨p, rfl, hp, hfree, rfl⟩ | ⟨rfl, hnot, rfl⟩)
    · exact Or.inl (ensures_pure.2 ⟨hp, hfree, 1, rfl⟩)
    · refine ih.mono (fun hstarved n hn => ?_) ?_
      · cases n with
        | zero => exact hnot
        | succ n => exact hstarved n (by omega)
      · rintro p w' ⟨hp, hfree, k, rfl⟩
        exact ⟨hp, hfree, k + 1, rfl⟩

/-! ### New areas -/

/-- A new area among the others. -/
structure NewArea (B : ℕ → Prop) (m : ℕ) (v : Vma) (w : World) (T : ℕ → ColorTree Ptr) (w' : World)
    (t : ColorTree Ptr) : Prop where
  touches : Touches m w w'
  areas : AreasOk B w' (Function.update T m t)
  linked : ∃ p l₁ l₂, (T m).inorder = l₁ ++ l₂ ∧ t.inorder = l₁ ++ p :: l₂ ∧
    (w'.mm m).area p = v ∧ ∀ p' ∈ (T m).inorder, (w'.mm m).area p' = (w.mm m).area p'

/-- The addresses of the areas with a new one. -/
theorem NewArea.hasPerm {v : Vma} {t : ColorTree Ptr} (h : NewArea B m v w T w' t) (x perm : ℕ) :
    HasPerm (w'.mm m) t x perm ↔ HasPerm (w.mm m) (T m) x perm ∨ (v.Has x ∧ v.perm = perm) := by
  obtain ⟨p, l₁, l₂, hold, hnew, hp, hother⟩ := h.linked
  have hmem : ∀ p', p' ∈ t.inorder ↔ p' ∈ (T m).inorder ∨ p' = p := fun p' => by
    rw [hold, hnew]
    simp only [List.mem_append, List.mem_cons]
    tauto
  constructor
  · intro ⟨p', hp', hx, hperm⟩
    rcases (hmem p').1 hp' with hp' | rfl
    · rw [hother p' hp'] at hx hperm
      exact Or.inl ⟨p', hp', hx, hperm⟩
    · rw [hp] at hx hperm
      exact Or.inr ⟨hx, hperm⟩
  · rintro (⟨p', hp', hx, hperm⟩ | ⟨hx, hperm⟩)
    · have heq := hother p' hp'
      exact ⟨p', (hmem p').2 (Or.inl hp'), heq.symm ▸ hx, heq.symm ▸ hperm⟩
    · exact ⟨p, (hmem p).2 (Or.inr rfl), hp.symm ▸ hx, hp.symm ▸ hperm⟩

/-- The areas depend on the address spaces and on what is allocated. -/
theorem AreasOk.of_eq (h : AreasOk B w T) (hmm : w'.mm = w.mm) (hused : w'.mmUsed = w.mmUsed)
    (hvma : w'.vmaUsed = w.vmaUsed) : AreasOk B w' T := by
  refine ⟨?_, ?_, ?_⟩
  · rw [hused, hmm]
    exact h.space
  · rw [hused, hvma]
    exact h.used
  · rw [hused]
    exact h.apart

theorem AreasOk.withPhys (h : AreasOk B w T) (s : Phys) : AreasOk B (w.withPhys s) T :=
  h.of_eq rfl rfl rfl

/-- **Linking a new area** where nothing is in its way. -/
theorem AreasOk.ensures_linkArea {path : TreePath Ptr} {v : Vma} (h : AreasOk B w T)
    (hm : w.mmUsed m = true) (hpath : T m = plug path .nil) (haddr : NodeAddr p)
    (hfree : w.vmaUsed p = false) (hv : VmaOk B v m)
    (hbefore : ∀ a ∈ TreePath.before path, ((w.mm m).area a).stop ≤ v.begin)
    (hafter : ∀ a ∈ TreePath.after path, v.stop ≤ ((w.mm m).area a).begin)
    (hfuel : taskSize < fuel) :
    Ensures (do
        setArea m p v
        onVmas m (do rbLink p (topPtr path) (slotOf path); rbInsert fuel p)) (w.allocated p)
      fun _ w' => w'.phys = w.phys ∧ ∃ t, NewArea B m v w T w' t := by
  have hfresh : p ∉ (T m).inorder := fun hc =>
    Bool.false_ne_true (hfree.symm.trans (h.used m hm p hc))
  have hne : ∀ p' ∈ (T m).inorder, p' ≠ p := fun p' hp' heq => hfresh (heq ▸ hp')
  have hold : (T m).inorder = TreePath.before path ++ TreePath.after path := by
    rw [hpath, inorder_plug, inorder_nil, List.append_nil]
  simp only [ensures_bind, ensures_setArea, ensures_onVmas, withSpace_mm_self]
  set w₁ := w.allocated p with hw₁
  set sp₁ : Space := { w.mm m with area := Function.update (w.mm m).area p v } with hsp₁
  have hother : ∀ p' ∈ (T m).inorder, sp₁.area p' = (w.mm m).area p' := fun p' hp' =>
    Function.update_of_ne (hne p' hp') _ _
  have hself : sp₁.area p = v := Function.update_self _ _ _
  have hok₁ : SpaceOk B sp₁ (plug path .nil) m := by
    rw [← hpath]
    exact (h.space m hm).setArea_of_notMem hfresh
  have hlink := hok₁.ensures_link (p := p) haddr (hpath ▸ hfresh) (hself.symm ▸ hv)
    (fun p' hp' => ?_) (fun p' hp' => ?_) hfuel
  rotate_left
  · rw [hself, hother p' (hold ▸ List.mem_append_left _ hp')]
    exact hbefore p' hp'
  · rw [hself, hother p' (hold ▸ List.mem_append_right _ hp')]
    exact hafter p' hp'
  rw [ensures_bind] at hlink
  refine hlink.mono fun _ r₁ h₁ => h₁.mono ?_
  rintro _ r₂ ⟨t, hsp₂, hin⟩
  set w₂ := (w₁.withSpace m sp₁).withSpace m { sp₁ with vma := r₂ } with hw₂
  have hspace : w₂.mm m = { sp₁ with vma := r₂ } := withSpace_mm_self
  have htouches : Touches m w w₂ :=
    ⟨fun m' hne => (withSpace_mm_of_ne hne).trans (withSpace_mm_of_ne hne), by rw [hspace],
      rfl, rfl, rfl, rfl⟩
  have hused : ∀ p', w₂.vmaUsed p' = if p' = p then true else w.vmaUsed p' := fun p' =>
    Function.update_apply _ _ _ _
  have hmem : ∀ p', p' ∈ t.inorder ↔ p' ∈ (T m).inorder ∨ p' = p := fun p' => by
    rw [hin, hold]
    simp only [List.mem_append, List.mem_cons]
    tauto
  have hareas : AreasOk B w₂ (Function.update T m t) := by
    refine h.recut htouches (hspace.symm ▸ hsp₂) (fun p' hp' => ?_) (fun p' _ hu => ?_)
      (fun p' hp' => ?_) hm
    · rw [hused]
      rcases (hmem p').1 hp' with hp' | rfl
      · rw [h.used m hm p' hp', ite_self]
      · rw [if_pos rfl]
    · rw [hused, hu, ite_self]
    · rcases (hmem p').1 hp' with hp' | rfl
      · exact Or.inl hp'
      · exact Or.inr hfree
  have harea : (w₂.mm m).area = sp₁.area := by rw [hspace]
  exact ⟨rfl, t, htouches, hareas, p, _, _, hold, hin, (congrFun harea p).trans hself,
    fun p' hp' => (congrFun harea p').trans (hother p' hp')⟩

/-! ### Cutting areas -/

section Cut

variable {sp sp' : Space} {t t' : ColorTree Ptr}

/-- The addresses left when an area has been replaced by its parts outside a range. -/
theorem SpaceOk.hasPerm_cut (h : SpaceOk B sp t m) (hp : p ∈ t.inorder) {l : List Ptr}
    (hmem : ∀ p', p' ∈ t'.inorder ↔ (p' ∈ t.inorder ∧ p' ≠ p) ∨ p' ∈ l)
    (harea : ∀ p' ∈ t.inorder, p' ≠ p → sp'.area p' = sp.area p')
    (hperm : ∀ p' ∈ l, (sp'.area p').perm = (sp.area p).perm)
    (hl : ∀ x, (∃ p' ∈ l, (sp'.area p').Has x) ↔
      (sp.area p).Has x ∧ ¬(begin ≤ x ∧ x < stop)) (x perm : ℕ) :
    HasPerm sp' t' x perm ↔
      HasPerm sp t x perm ∧ ¬((sp.area p).Has x ∧ begin ≤ x ∧ x < stop) := by
  constructor
  · intro ⟨p', hp', hx, hperm'⟩
    rcases (hmem p').1 hp' with ⟨hold, hne⟩ | hpart
    · rw [harea p' hold hne] at hx hperm'
      refine ⟨⟨p', hold, hx, hperm'⟩, fun hc => hne ?_⟩
      exact h.eq_of_meet hold hp (lt_of_le_of_lt hx.1 hc.1.2) (lt_of_le_of_lt hc.1.1 hx.2)
    · have hout := (hl x).1 ⟨p', hpart, hx⟩
      exact ⟨⟨p, hp, hout.1, (hperm p' hpart).symm.trans hperm'⟩, fun hc => hout.2 hc.2⟩
  · intro ⟨⟨p', hold, hx, hperm'⟩, hout⟩
    by_cases hne : p' = p
    · subst hne
      obtain ⟨p'', hpart, hx'⟩ := (hl x).2 ⟨hx, fun hc => hout ⟨hx, hc⟩⟩
      exact ⟨p'', (hmem p'').2 (Or.inr hpart), hx', (hperm p'' hpart).trans hperm'⟩
    · have heq := harea p' hold hne
      exact ⟨p', (hmem p').2 (Or.inl ⟨hold, hne⟩), heq ▸ hx, heq ▸ hperm'⟩

end Cut

/-- An area reaches beyond a range on both sides. -/
def Splits (v : Vma) (begin stop : ℕ) : Prop := v.begin < begin ∧ stop < v.stop

/-- The areas of `m` after a cut of the area `p`. -/
structure IsCut (B : ℕ → Prop) (m : ℕ) (p : Ptr) (begin stop : ℕ) (w : World)
    (T : ℕ → ColorTree Ptr) (w' : World) (t' : ColorTree Ptr) : Prop where
  recut : Recut m w w'
  ok : AreasOk B w' (Function.update T m t')
  hasPerm : ∀ x perm, HasPerm (w'.mm m) t' x perm ↔
    HasPerm (w.mm m) (T m) x perm ∧ ¬(((w.mm m).area p).Has x ∧ begin ≤ x ∧ x < stop)

/-- Storing a smaller area. -/
theorem AreasOk.isCut_trim (h : AreasOk B w T) (hm : w.mmUsed m = true) (hp : p ∈ (T m).inorder)
    {v : Vma} (hv : VmaOk B v m) (hbegin : ((w.mm m).area p).begin ≤ v.begin)
    (hstop : v.stop ≤ ((w.mm m).area p).stop) (hperm : v.perm = ((w.mm m).area p).perm)
    (hhas : ∀ x, v.Has x ↔ ((w.mm m).area p).Has x ∧ ¬(begin ≤ x ∧ x < stop)) :
    IsCut B m p begin stop w T
      (w.withSpace m { w.mm m with area := Function.update (w.mm m).area p v }) (T m) := by
  have hspace := (h.space m hm).trim (p := p) hv hbegin hstop
  refine ⟨recut_withSpace, ?_, fun x perm => ?_⟩
  · refine h.recut recut_withSpace.toTouches ?_ (h.used m hm) (fun _ _ hu => hu)
      (fun p' hp' => Or.inl hp') hm
    rwa [withSpace_mm_self]
  · rw [withSpace_mm_self]
    refine (h.space m hm).hasPerm_cut hp (l := [p]) (fun p' => ?_) (fun p' _ hne => ?_)
      (fun p' hp' => ?_) (fun x => ?_) x perm
    · rw [List.mem_singleton]
      by_cases heq : p' = p
      · subst heq
        simp [hp]
      · simp [heq]
    · exact Function.update_of_ne hne _ _
    · rw [List.mem_singleton.1 hp']
      simp only [Function.update_self]
      exact hperm
    · simp only [List.mem_singleton, exists_eq_left, Function.update_self]
      exact hhas x

/-- The state after an area has been freed. -/
def World.freed (w : World) (p : Ptr) : World :=
  { w with vmaUsed := Function.update w.vmaUsed p false }

/-- Taking an area out of the tree and freeing it. -/
theorem AreasOk.isCut_erase (h : AreasOk B w T) (hm : w.mmUsed m = true) (hp : p ∈ (T m).inorder)
    (hinside : ∀ x, ((w.mm m).area p).Has x → begin ≤ x ∧ x < stop) {r : RbState}
    {t' : ColorTree Ptr} (hsp' : SpaceOk B ⟨r, (w.mm m).area, (w.mm m).pt⟩ t' m)
    (hin : t'.inorder = (T m).inorder.erase p) :
    IsCut B m p begin stop w T ((w.withSpace m ⟨r, (w.mm m).area, (w.mm m).pt⟩).freed p) t' := by
  set sp' : Space := ⟨r, (w.mm m).area, (w.mm m).pt⟩ with hsp_def
  have hsp := h.space m hm
  have hself : ((w.withSpace m sp').freed p).mm m = sp' := withSpace_mm_self
  have hmem : ∀ p', p' ∈ t'.inorder ↔ p' ∈ (T m).inorder ∧ p' ≠ p := fun p' => by
    rw [hin, hsp.repr.nodup.mem_erase_iff, and_comm]
  have hrecut : Recut m w ((w.withSpace m sp').freed p) :=
    ⟨⟨fun m' hne => withSpace_mm_of_ne hne, by rw [hself], rfl, rfl, rfl, rfl⟩, rfl⟩
  refine ⟨hrecut, h.recut hrecut.toTouches (hself.symm ▸ hsp') (fun p' hp' => ?_)
    (fun p' hp' hu => ?_) (fun p' hp' => Or.inl ((hmem p').1 hp').1) hm, fun x perm => ?_⟩
  · obtain ⟨hold, hne⟩ := (hmem p').1 hp'
    exact (Function.update_of_ne hne _ _).trans (h.used m hm p' hold)
  · have hne : p' ≠ p := fun heq => hp' (heq ▸ hp)
    exact (Function.update_of_ne hne _ _).trans hu
  · rw [hself]
    refine hsp.hasPerm_cut hp (l := []) (fun p' => ?_) (fun _ _ _ => rfl)
      (fun p' hp' => absurd hp' List.not_mem_nil) (fun x => ?_) x perm
    · simp only [hmem, List.not_mem_nil, or_false]
    · simp only [List.not_mem_nil, false_and, exists_false, false_iff]
      exact fun hc => hc.2 (hinside x hc.1)

/-- **A cut** that takes away the whole area or one end of it. -/
theorem AreasOk.ensures_cutVma (h : AreasOk B w T) (hm : w.mmUsed m = true)
    (hbegin : B begin) (hstop : B stop)
    (hp : p ∈ (T m).inorder) (h₁ : begin < ((w.mm m).area p).stop)
    (h₂ : ((w.mm m).area p).begin < stop) (hnot : ¬Splits ((w.mm m).area p) begin stop)
    (hfuel : taskSize < fuel) :
    Ensures (cutVma fuel m begin stop p) w fun _ w' => ∃ t', IsCut B m p begin stop w T w' t' ∧
      ∀ p' ∈ t'.inorder, p' ∈ (T m).inorder ∧
        ((w.mm m).area p').begin ≤ ((w'.mm m).area p').begin ∧
        ((w'.mm m).area p').stop ≤ ((w.mm m).area p').stop := by
  have hsp := h.space m hm
  have hv := hsp.area p hp
  set v := (w.mm m).area p with hv_def
  obtain ⟨hfirst, hlast, hlt, hle, hmm⟩ := hv
  -- the areas after one of them has been made smaller
  have htrim : ∀ v' : Vma, VmaOk B v' m → v.begin ≤ v'.begin → v'.stop ≤ v.stop →
      v'.perm = v.perm → (∀ x, v'.Has x ↔ v.Has x ∧ ¬(begin ≤ x ∧ x < stop)) →
      ∃ t', IsCut B m p begin stop w T
          (w.withSpace m { w.mm m with area := Function.update (w.mm m).area p v' }) t' ∧
        ∀ p' ∈ t'.inorder, p' ∈ (T m).inorder ∧
          ((w.mm m).area p').begin ≤ (Function.update (w.mm m).area p v' p').begin ∧
          (Function.update (w.mm m).area p v' p').stop ≤ ((w.mm m).area p').stop := by
    intro v' hok hle₁ hle₂ hperm hhas
    refine ⟨T m, h.isCut_trim hm hp hok hle₁ hle₂ hperm hhas, fun p' hp' => ⟨hp', ?_⟩⟩
    by_cases heq : p' = p
    · subst heq
      rw [Function.update_self]
      exact ⟨hle₁, hle₂⟩
    · rw [Function.update_of_ne heq]
      exact ⟨le_rfl, le_rfl⟩
  rw [cutVma]
  simp only [ensures_bind, ensures_get, ← hv_def]
  by_cases hge : v.begin ≥ begin
  · rw [if_pos hge]
    by_cases hend : v.stop ≤ stop
    · rw [if_pos hend]
      simp only [ensures_bind, ensures_onVmas, freeVma, ensures_modify]
      refine (hsp.ensures_unlink hp hfuel).mono ?_
      rintro _ r ⟨t', hsp', hin⟩
      have hinside : ∀ x, v.Has x → begin ≤ x ∧ x < stop := fun x hx =>
        ⟨hge.le.trans hx.1, lt_of_lt_of_le hx.2 hend⟩
      refine ⟨t', h.isCut_erase hm hp hinside hsp' hin, fun p' hp' => ⟨?_, ?_⟩⟩
      · rw [hin] at hp'
        exact List.mem_of_mem_erase hp'
      · rw [withSpace_mm_self]
        exact ⟨le_rfl, le_rfl⟩
    · rw [if_neg hend, ensures_setArea]
      have hkeep := htrim { v with begin := stop }
        ⟨hstop, hlast, by simp only; omega, hle, hmm⟩ h₂.le le_rfl rfl fun x => by
          simp only [Vma.Has]
          omega
      simpa only [withSpace_mm_self] using hkeep
  · rw [if_neg hge]
    have hend : v.stop ≤ stop := by
      by_contra hc
      exact hnot ⟨by omega, by omega⟩
    rw [if_pos hend, ensures_setArea]
    have hkeep := htrim { v with stop := begin }
      ⟨hfirst, hbegin, by simp only; omega, h₁.le.trans hle, hmm⟩ le_rfl h₁.le rfl fun x => by
        simp only [Vma.Has]
        omega
    simpa only [withSpace_mm_self] using hkeep

/-- **A cut** through the middle of an area. -/
theorem AreasOk.ensures_cutVma_split (h : AreasOk B w T) (hm : w.mmUsed m = true)
    (hbegin : B begin) (hstop : B stop) (hlt : begin < stop)
    (hp : p ∈ (T m).inorder) (hsplit : Splits ((w.mm m).area p) begin stop)
    (hfuel : taskSize < fuel) :
    EnsuresUnless (Starved fuel w) (cutVma fuel m begin stop p) w fun _ w' =>
      ∃ t', IsCut B m p begin stop w T w' t' := by
  have hsp := h.space m hm
  have hv := hsp.area p hp
  obtain ⟨hlow, hhigh⟩ := hsplit
  set v := (w.mm m).area p with hv_def
  obtain ⟨hfirst, hlast, hvlt, hle, hmm⟩ := hv
  rw [cutVma]
  refine Ensures.bindUnless (ensures_get.2 ?_)
  simp only [← hv_def]
  rw [if_neg (by omega), if_neg (by omega)]
  refine EnsuresUnless.bind (ensures_allocVmaLoop.mono id ?_)
  rintro high w₁ ⟨haddr, hfree, k, rfl⟩
  set w₁ := (w.asked k).allocated high with hw₁
  have hhigh_ne : high ≠ p := fun heq => by
    rw [heq, h.used m hm p hp] at hfree
    exact Bool.false_ne_true hfree.symm
  have hhigh_new : high ∉ (T m).inorder := fun hc => by
    rw [h.used m hm high hc] at hfree
    exact Bool.false_ne_true hfree.symm
  have hne_high : ∀ p' ∈ (T m).inorder, p' ≠ high := fun p' hp' heq => hhigh_new (heq ▸ hp')
  -- the two parts, before the second is linked
  set area' := Function.update (Function.update (w.mm m).area high { v with begin := stop }) p
    { v with stop := begin } with harea'
  set sp₁ : Space := { w.mm m with area := area' } with hsp₁
  have harea_high : area' high = { v with begin := stop } := by
    rw [harea', Function.update_of_ne hhigh_ne, Function.update_self]
  have harea_p : area' p = { v with stop := begin } := Function.update_self _ _ _
  have harea_other : ∀ p' ∈ (T m).inorder, p' ≠ p → area' p' = (w.mm m).area p' := by
    intro p' hp' hne
    rw [harea', Function.update_of_ne hne, Function.update_of_ne (hne_high p' hp')]
  have hok₁ : SpaceOk B sp₁ (T m) m := by
    refine hsp.congr fun p' hp' => ?_
    by_cases hne : p' = p
    · rw [hne, harea_p, ← hv_def]
      refine ⟨⟨hfirst, hbegin, hlow, ?_, hmm⟩, le_rfl, ?_⟩
      · exact (hlt.le.trans hhigh.le).trans hle
      · exact hlt.le.trans hhigh.le
    · rw [harea_other p' hp' hne]
      exact ⟨hsp.area p' hp', le_rfl, le_rfl⟩
  have hareas₁ : AreasOk B (w₁.withSpace m sp₁) T := by
    have htouches : Touches m w (w₁.withSpace m sp₁) :=
      ⟨fun m' hne => withSpace_mm_of_ne hne, by rw [withSpace_mm_self], rfl, rfl, rfl, rfl⟩
    have := h.recut htouches (t := T m) (by rwa [withSpace_mm_self]) (fun p' hp' => ?_) (fun p' _ hu => ?_)
      (fun p' hp' => Or.inl hp') hm
    · rwa [Function.update_eq_self] at this
    · exact (Function.update_of_ne (hne_high p' hp') _ _).trans (h.used m hm p' hp')
    · by_cases heq : p' = high
      · rw [heq]
        exact Function.update_self _ _ _
      · exact (Function.update_of_ne heq _ _).trans hu
  refine Or.inl ?_
  simp only [ensures_bind, ensures_setArea]
  have hw₂ : (w₁.withSpace m
        { w₁.mm m with area := Function.update (w₁.mm m).area high { v with begin := stop } }).withSpace
        m { (w₁.withSpace m { w₁.mm m with
              area := Function.update (w₁.mm m).area high { v with begin := stop } }).mm m with
            area := Function.update ((w₁.withSpace m { w₁.mm m with
              area := Function.update (w₁.mm m).area high { v with begin := stop } }).mm m).area p
              { v with stop := begin } } = w₁.withSpace m sp₁ := by
    simp only [World.withSpace, Function.update_self, Function.update_idem]
    rfl
  rw [hw₂, insertVma]
  simp only [ensures_bind, ensures_get, withSpace_mm_self]
  have harea_high' : sp₁.area high = { v with begin := stop } := harea_high
  rw [harea_high']
  refine (hareas₁.ensures_lookupVma (m := m) hm hfuel).mono ?_
  rintro r w₂ ⟨rfl, hr⟩
  rw [withSpace_mm_self] at hr
  rcases hr with ⟨p', hp', -, hmeet₁, hmeet₂⟩ | ⟨path, hpath, rfl, hbefore, hafter⟩
  · -- no other area meets the second part
    exfalso
    by_cases hne : p' = p
    · rw [hne] at hmeet₁
      have : (area' p).stop = begin := by rw [harea_p]
      simp only [hsp₁] at hmeet₁
      omega
    · have heq : sp₁.area p' = (w.mm m).area p' := harea_other p' hp' hne
      rw [heq] at hmeet₁ hmeet₂
      refine hne (hsp.eq_of_meet hp' hp hmeet₂ (lt_trans ?_ hmeet₁))
      simp only [← hv_def]
      omega
  · simp only [ensures_onVmas, withSpace_mm_self]
    rw [hpath] at hok₁
    have hhb : (sp₁.area high).begin = stop := by rw [harea_high']
    have hhs : (sp₁.area high).stop = v.stop := by rw [harea_high']
    refine (hok₁.ensures_link haddr (hpath ▸ hhigh_new)
      (harea_high'.symm ▸ ⟨hstop, hlast, hhigh, hle, hmm⟩)
      (fun x hx => hhb.symm ▸ hbefore x hx) (fun x hx => hhs.symm ▸ hafter x hx) hfuel).mono ?_
    rintro _ r ⟨t', hsp', hin⟩
    have hself : ((w₁.withSpace m sp₁).withSpace m { sp₁ with vma := r }).mm m =
        { sp₁ with vma := r } := withSpace_mm_self
    have hmem : ∀ p', p' ∈ t'.inorder ↔ p' ∈ (T m).inorder ∨ p' = high := fun p' => by
      rw [hin, hpath, inorder_plug, inorder_nil, List.append_nil]
      simp only [List.mem_append, List.mem_cons]
      tauto
    have hrecut : Recut m w ((w₁.withSpace m sp₁).withSpace m { sp₁ with vma := r }) :=
      ⟨⟨fun m' hne => (withSpace_mm_of_ne hne).trans (withSpace_mm_of_ne hne), by rw [hself],
        rfl, rfl, rfl, rfl⟩, rfl⟩
    have hused : ∀ p', p' ≠ high → w₁.vmaUsed p' = w.vmaUsed p' := fun p' hne =>
      Function.update_of_ne hne _ _
    refine ⟨t', hrecut, h.recut hrecut.toTouches (hself.symm ▸ hsp') (fun p' hp' => ?_)
      (fun p' _ hu => ?_) (fun p' hp' => ?_) hm, fun x perm => ?_⟩
    · rcases (hmem p').1 hp' with hp' | rfl
      · exact (hused p' (hne_high p' hp')).trans (h.used m hm p' hp')
      · exact Function.update_self _ _ _
    · by_cases heq : p' = high
      · rw [heq]
        exact Function.update_self _ _ _
      · exact (hused p' heq).trans hu
    · rcases (hmem p').1 hp' with hp' | rfl
      · exact Or.inl hp'
      · exact Or.inr hfree
    · rw [hself]
      refine hsp.hasPerm_cut hp (l := [p, high]) (fun p' => ?_) harea_other (fun p' hp' => ?_)
        (fun x => ?_) x perm
      · rw [hmem, List.mem_cons, List.mem_singleton]
        by_cases hne : p' = p
        · simp [hne, hp]
        · simp [hne]
      · rw [show ({ sp₁ with vma := r } : Space).area = area' from rfl]
        rcases List.mem_cons.1 hp' with rfl | hp'
        · rw [harea_p]
        · rw [List.mem_singleton.1 hp', harea_high]
      · simp only [List.mem_cons, List.not_mem_nil, or_false, exists_eq_or_imp, exists_eq_left]
        rw [show ({ sp₁ with vma := r } : Space).area = area' from rfl, harea_p, harea_high]
        simp only [Vma.Has, ← hv_def]
        omega

/-! ### The loop of `__munmap` -/

/-- Nothing is left of the areas in the range. -/
structure Cleared (B : ℕ → Prop) (m begin stop : ℕ) (w : World) (T : ℕ → ColorTree Ptr)
    (w' : World) (t' : ColorTree Ptr) : Prop where
  recut : Recut m w w'
  ok : AreasOk B w' (Function.update T m t')
  hasPerm : ∀ x perm, HasPerm (w'.mm m) t' x perm ↔
    HasPerm (w.mm m) (T m) x perm ∧ ¬(begin ≤ x ∧ x < stop)

/-- The pages of the areas after a range of pages has been cleared. -/
theorem Cleared.pages {a b : ℕ} {t' : ColorTree Ptr}
    (h : Cleared B m (4096 * a) (4096 * b) w T w' t') :
    pagesOf (w'.mm m) t' = pagesOf (w.mm m) (T m) \ Set.Ico a b := by
  ext q
  simp only [mem_pagesOf, h.hasPerm, exists_and_right, Set.mem_sdiff, Set.mem_Ico]
  have hiff : 4096 * a ≤ 4096 * q ∧ 4096 * q < 4096 * b ↔ a ≤ q ∧ q < b := by omega
  rw [hiff]

/-- A cut takes away addresses of the range only. -/
theorem IsCut.cleared {w₁ w₂ : World} {t₁ t₂ : ColorTree Ptr}
    (h : IsCut B m p begin stop w T w₁ t₁)
    (h' : Cleared B m begin stop w₁ (Function.update T m t₁) w₂ t₂) :
    Cleared B m begin stop w T w₂ t₂ := by
  refine ⟨h.recut.trans h'.recut, ?_, fun x perm => ?_⟩
  · have := h'.ok
    rwa [Function.update_idem] at this
  · rw [h'.hasPerm, Function.update_self, h.hasPerm]
    tauto

/-- Where a search for an area that meets a range ends, all areas are before or after the range. -/
theorem apart_of_missing {path : TreePath Ptr} (hpath : T m = plug path .nil)
    (hbefore : ∀ p ∈ TreePath.before path, ((w.mm m).area p).stop ≤ begin)
    (hafter : ∀ p ∈ TreePath.after path, stop ≤ ((w.mm m).area p).begin) (hp : p ∈ (T m).inorder) :
    ((w.mm m).area p).stop ≤ begin ∨ stop ≤ ((w.mm m).area p).begin := by
  rw [hpath, inorder_plug, inorder_nil, List.append_nil, List.mem_append] at hp
  exact hp.imp (hbefore p) (hafter p)

/-- When no area meets the range any more, it is cleared. -/
theorem AreasOk.cleared_of_missing {path : TreePath Ptr} (h : AreasOk B w T)
    (hpath : T m = plug path .nil)
    (hbefore : ∀ p ∈ TreePath.before path, ((w.mm m).area p).stop ≤ begin)
    (hafter : ∀ p ∈ TreePath.after path, stop ≤ ((w.mm m).area p).begin) :
    Cleared B m begin stop w T w (T m) := by
  refine ⟨Recut.refl m w, by rwa [Function.update_eq_self], fun x perm => ?_⟩
  rw [iff_self_and]
  intro ⟨p, hp, ⟨h₁, h₂⟩, _⟩ ⟨hb, hs⟩
  have := apart_of_missing hpath hbefore hafter hp
  omega

/-- The addresses of a range that are in some area. -/
def covered (sp : Space) (t : ColorTree Ptr) (begin stop : ℕ) : Set ℕ :=
  {x | (∃ perm, HasPerm sp t x perm) ∧ begin ≤ x ∧ x < stop}

theorem covered_subset (sp : Space) (t : ColorTree Ptr) :
    covered sp t begin stop ⊆ Set.Ico begin stop := fun _ hx => hx.2

/-- The loop of `__munmap` where no area is split: each turn takes away addresses of the range. -/
theorem AreasOk.ensures_munmapLoop_trim (hbegin : B begin) (hstop : B stop) (hlt : begin < stop)
    (hfuel : taskSize < fuel) :
    ∀ (n : ℕ) (w : World) (T : ℕ → ColorTree Ptr), AreasOk B w T → w.mmUsed m = true →
      (∀ p ∈ (T m).inorder, ¬Splits ((w.mm m).area p) begin stop) →
      (covered (w.mm m) (T m) begin stop).ncard < n →
      Ensures (munmapLoop fuel m begin stop n) w fun _ w' =>
        ∃ t', Cleared B m begin stop w T w' t' := by
  intro n
  induction n with
  | zero => intro w T _ _ _ hn; exact absurd hn (Nat.not_lt_zero _)
  | succ n ih =>
    intro w T h hm hnot hn
    rw [munmapLoop, ensures_bind]
    refine (h.ensures_lookupVma hm hfuel).mono ?_
    rintro r w' ⟨rfl, ⟨p, hp, rfl, h₁, h₂⟩ | ⟨path, hpath, rfl, hbefore, hafter⟩⟩
    · simp only [ensures_bind]
      refine (h.ensures_cutVma hm hbegin hstop hp h₁ h₂ (hnot p hp) hfuel).mono ?_
      rintro _ w₁ ⟨t₁, hcut, hsub⟩
      have hvlt := ((h.space m hm).area p hp).lt
      have hmeet : ((w'.mm m).area p).Has (max begin ((w'.mm m).area p).begin) :=
        ⟨le_max_right _ _, max_lt h₁ hvlt⟩
      have hless : (covered (w₁.mm m) t₁ begin stop).ncard <
          (covered (w'.mm m) (T m) begin stop).ncard := by
        refine Set.ncard_lt_ncard ⟨fun x hx => ?_, fun hle => ?_⟩
          ((Set.finite_Ico begin stop).subset (covered_subset _ _))
        · obtain ⟨⟨perm, hx⟩, hr⟩ := hx
          exact ⟨⟨perm, ((hcut.hasPerm x perm).1 hx).1⟩, hr⟩
        · have hmem := hle ⟨⟨_, p, hp, hmeet, rfl⟩, le_max_left _ _, max_lt hlt h₂⟩
          obtain ⟨⟨perm, hx⟩, hr⟩ := hmem
          exact ((hcut.hasPerm _ perm).1 hx).2 ⟨hmeet, hr⟩
      refine (ih w₁ (Function.update T m t₁) hcut.ok (hcut.recut.mmUsed ▸ hm) ?_ ?_).mono ?_
      · rw [Function.update_self]
        intro p' hp' hsplit
        obtain ⟨hold, hle₁, hle₂⟩ := hsub p' hp'
        exact hnot p' hold ⟨lt_of_le_of_lt hle₁ hsplit.1, lt_of_lt_of_le hsplit.2 hle₂⟩
      · rw [Function.update_self]
        omega
      · rintro _ w₂ ⟨t₂, hcleared⟩
        exact ⟨t₂, hcut.cleared hcleared⟩
    · simp only [ensures_pure]
      exact ⟨T m, h.cleared_of_missing hpath hbefore hafter⟩

/-- **The loop of `__munmap`** takes the range out of the areas. It does not end only when it has
to split an area and never gets memory for that. -/
theorem AreasOk.ensures_munmapLoop (h : AreasOk B w T) (hm : w.mmUsed m = true)
    (hbegin : B begin) (hstop : B stop) (hlt : begin < stop)
    (hle : stop ≤ taskSize) (hfuel : taskSize + 1 < fuel) :
    EnsuresUnless (Starved fuel w ∧ ∃ p ∈ (T m).inorder, Splits ((w.mm m).area p) begin stop)
      (munmapLoop fuel m begin stop fuel) w fun _ w' =>
        ∃ t', Cleared B m begin stop w T w' t' := by
  by_cases hsplit : ∃ p ∈ (T m).inorder, Splits ((w.mm m).area p) begin stop
  · obtain ⟨p, hp, hsplit⟩ := hsplit
    obtain ⟨n, rfl⟩ : ∃ n, fuel = n + 2 := ⟨fuel - 2, by omega⟩
    have hsp := h.space m hm
    rw [munmapLoop]
    refine ((h.ensures_lookupVma hm (by omega)).mono ?_).bindUnless
    rintro r w' ⟨rfl, ⟨p', hp', rfl, h₁, h₂⟩ | ⟨path, hpath, -, hbefore, hafter⟩⟩
    · -- the area that is split is the only one that meets the range
      obtain rfl : p' = p := by
        have h₃ := hsplit.1
        have h₄ := hsplit.2
        exact hsp.eq_of_meet hp' hp (by omega) (by omega)
      refine EnsuresUnless.bind ((h.ensures_cutVma_split hm hbegin hstop hlt hp hsplit
        (by omega)).mono (fun hs => ⟨hs, p', hp, hsplit⟩) ?_)
      intro _ w₁ ⟨t₁, hcut⟩
      have hnone : ∀ x perm, HasPerm (w₁.mm m) t₁ x perm → ¬(begin ≤ x ∧ x < stop) := by
        intro x perm hx hc
        have h₃ := hsplit.1
        have h₄ := hsplit.2
        exact ((hcut.hasPerm x perm).1 hx).2 ⟨⟨by omega, by omega⟩, hc⟩
      refine Or.inl ?_
      refine (AreasOk.ensures_munmapLoop_trim hbegin hstop hlt (by omega) (n + 1) w₁
        (Function.update T m t₁) hcut.ok (hcut.recut.mmUsed ▸ hm) ?_ ?_).mono ?_
      · rw [Function.update_self]
        intro p'' hp'' ⟨h₃, h₄⟩
        exact hnone begin _ ⟨p'', hp'', ⟨by omega, by omega⟩, rfl⟩ ⟨le_rfl, hlt⟩
      · have hempty : covered (w₁.mm m) t₁ begin stop = ∅ :=
          Set.eq_empty_iff_forall_notMem.2 fun x ⟨⟨perm, hx⟩, hr⟩ => hnone x perm hx hr
        rw [Function.update_self, hempty, Set.ncard_empty]
        omega
      · intro _ w₂ ⟨t₂, hcleared⟩
        exact ⟨t₂, hcut.cleared hcleared⟩
    · -- an area that is split meets the range
      exfalso
      rw [hpath, inorder_plug, inorder_nil, List.append_nil, List.mem_append] at hp
      have h₃ := hsplit.1
      have h₄ := hsplit.2
      rcases hp with hp | hp
      · have := hbefore p hp
        omega
      · have := hafter p hp
        omega
  · push Not at hsplit
    refine Or.inl (AreasOk.ensures_munmapLoop_trim hbegin hstop hlt (by omega) fuel w T h hm
      hsplit ?_)
    calc (covered (w.mm m) (T m) begin stop).ncard
        ≤ (Set.Ico begin stop).ncard := Set.ncard_le_ncard (covered_subset _ _) (Set.finite_Ico _ _)
      _ = stop - begin := by rw [Set.ncard_eq_toFinset_card', Set.toFinset_Ico, Nat.card_Ico]
      _ < fuel := by omega

/-- The loop of `__munmap` for a whole area, which it takes out of the tree. -/
theorem AreasOk.ensures_munmapLoop_whole (h : AreasOk B w T) (hm : w.mmUsed m = true)
    (hp : p ∈ (T m).inorder) (hbegin : ((w.mm m).area p).begin = begin)
    (hstop : ((w.mm m).area p).stop = stop) (hfuel : taskSize + 1 < fuel) :
    Ensures (munmapLoop fuel m begin stop fuel) w fun _ w' =>
      ∃ t', Cleared B m begin stop w T w' t' ∧ t'.inorder = (T m).inorder.erase p ∧
        (w'.mm m).area = (w.mm m).area := by
  obtain ⟨n, rfl⟩ : ∃ n, fuel = n + 2 := ⟨fuel - 2, by omega⟩
  have hsp := h.space m hm
  have hlt := (hsp.area p hp).lt
  have hinside : ∀ x, ((w.mm m).area p).Has x → begin ≤ x ∧ x < stop := fun x hx =>
    ⟨hbegin ▸ hx.1, hstop ▸ hx.2⟩
  rw [munmapLoop, ensures_bind]
  refine (h.ensures_lookupVma hm (by omega)).mono ?_
  rintro r w' ⟨rfl, ⟨p', hp', rfl, h₁, h₂⟩ | ⟨path, hpath, -, hbefore, hafter⟩⟩
  · -- no other area meets the range
    obtain rfl : p' = p := hsp.eq_of_meet hp' hp (by omega) (by omega)
    simp only [ensures_bind, cutVma, ensures_get]
    rw [if_pos (by omega), if_pos (by omega)]
    simp only [ensures_bind, ensures_onVmas, freeVma, ensures_modify]
    refine (hsp.ensures_unlink hp (by omega)).mono ?_
    rintro _ r ⟨t', hsp', hin⟩
    have hcut := h.isCut_erase hm hp hinside hsp' hin
    set w₁ := (w'.withSpace m ⟨r, (w'.mm m).area, (w'.mm m).pt⟩).freed p' with hw₁
    have hself : w₁.mm m = ⟨r, (w'.mm m).area, (w'.mm m).pt⟩ := withSpace_mm_self
    have harea : (w₁.mm m).area = (w'.mm m).area := by rw [hself]
    have hnone : ∀ p₁ ∈ t'.inorder, ¬(begin < ((w'.mm m).area p₁).stop ∧
        ((w'.mm m).area p₁).begin < stop) := by
      rintro p₁ hp₁ ⟨h₃, h₄⟩
      rw [hin, hsp.repr.nodup.mem_erase_iff] at hp₁
      exact hp₁.1 (hsp.eq_of_meet hp₁.2 hp (by omega) (by omega))
    change Ensures (munmapLoop (n + 2) m begin stop (n + 1)) w₁ _
    rw [munmapLoop, ensures_bind]
    refine (hcut.ok.ensures_lookupVma (m := m) (hcut.recut.mmUsed ▸ hm) (by omega)).mono ?_
    rw [Function.update_self]
    rintro r₂ w₂ ⟨rfl, ⟨p₁, hp₁, -, h₃⟩ | ⟨path, hpath, rfl, hbefore, hafter⟩⟩
    · rw [harea] at h₃
      exact absurd h₃ (hnone p₁ hp₁)
    · simp only [ensures_pure]
      have hdone := hcut.ok.cleared_of_missing (m := m)
        (by rw [Function.update_self]; exact hpath) hbefore hafter
      rw [Function.update_self] at hdone
      exact ⟨t', hcut.cleared hdone, hin, harea⟩
  · exfalso
    have := apart_of_missing hpath hbefore hafter hp
    omega

end World

end Mm

end Kernel64
