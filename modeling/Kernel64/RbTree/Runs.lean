import Kernel64.RbTree.Erase

/-!
# Red-black trees over whole runs

The operations as their callers see them. A caller of `rb_link` names an empty child slot by
the pair `(parent, plink)` it found while searching; `EmptySlot` says what such a pair is, and
`Slot.insert` where in the in-order sequence it lies. `Built s` says that the tree in `s` was
built from an empty one by any sequence of insertions at empty slots and removals.
-/

namespace Kernel64

open ColorTree

/-! ### Slots -/

/-- Insert `n` directly before `p`. -/
def insertBefore (n p : Ptr) : List Ptr → List Ptr
  | [] => []
  | a :: l => if a = p then n :: a :: l else a :: insertBefore n p l

/-- Insert `n` directly after `p`. -/
def insertAfter (n p : Ptr) : List Ptr → List Ptr
  | [] => []
  | a :: l => if a = p then a :: n :: l else a :: insertAfter n p l

/-- Insert `n` at the place of the slot in the in-order sequence. -/
def Slot.insert (n : Ptr) : Slot → List Ptr → List Ptr
  | .root, _ => [n]
  | .left p, l => insertBefore n p l
  | .right p, l => insertAfter n p l

theorem insertBefore_append {n p : Ptr} {l₁ l₂ : List Ptr} (h : p ∉ l₁) :
    insertBefore n p (l₁ ++ p :: l₂) = l₁ ++ n :: p :: l₂ := by
  induction l₁ with
  | nil => simp [insertBefore]
  | cons a l ih =>
    simp only [List.mem_cons, not_or] at h
    rw [List.cons_append, insertBefore, if_neg (Ne.symm h.1), ih h.2, List.cons_append]

theorem insertAfter_append {n p : Ptr} {l₁ l₂ : List Ptr} (h : p ∉ l₁) :
    insertAfter n p (l₁ ++ p :: l₂) = l₁ ++ p :: n :: l₂ := by
  induction l₁ with
  | nil => simp [insertAfter]
  | cons a l ih =>
    simp only [List.mem_cons, not_or] at h
    rw [List.cons_append, insertAfter, if_neg (Ne.symm h.1), ih h.2, List.cons_append]

namespace Rb

/-- `(parent, plink)` is an empty child slot of the tree, or the root slot of an empty tree. -/
def EmptySlot (s : RbState) (t : ColorTree Ptr) (parent : Ptr) : Slot → Prop
  | .root => parent = 0#64 ∧ s.root = 0#64
  | .left p => parent = p ∧ p ∈ t.inorder ∧ (s.node p).left = 0#64
  | .right p => parent = p ∧ p ∈ t.inorder ∧ (s.node p).right = 0#64

/-- An empty slot is an empty position. -/
theorem EmptySlot.exists_path {s : RbState} {t : ColorTree Ptr} {parent : Ptr} {plink : Slot}
    (h : Represents s t) (he : EmptySlot s t parent plink) :
    ∃ path, t = plug path .nil ∧ parent = topPtr path ∧ plink = slotOf path ∧
      ∀ n, plink.insert n t.inorder = TreePath.before path ++ n :: TreePath.after path := by
  cases plink with
  | root =>
    obtain ⟨rfl, hroot⟩ := he
    obtain rfl : t = .nil := (rootPtr_eq_zero h.linked).mp (h.root.symm.trans hroot)
    exact ⟨[], rfl, rfl, rfl, fun n => rfl⟩
  | left p =>
    obtain ⟨rfl, hp, hnil⟩ := he
    obtain ⟨path, c, l, r, rfl⟩ := exists_plug_of_mem hp
    obtain ⟨-, hn, -⟩ := Represents.focus (d := .left) h
    have hl := (linked_sided (d := .left).mp (represents_plug.mp h).2.2.1).2.2.1
    rw [hn] at hnil
    obtain rfl : l = .nil := (rootPtr_eq_zero hl).mp hnil
    refine ⟨⟨.left, c, parent, r⟩ :: path, rfl, rfl, rfl, fun n => ?_⟩
    have hpb : parent ∉ TreePath.before path := fun hm =>
      (nodup_focus (d := .left) h.nodup).1 (List.mem_append_left _ hm)
    rw [inorder_plug, Slot.insert, inorder_node, inorder_nil, List.nil_append,
      List.append_assoc, List.cons_append, insertBefore_append hpb]
    simp [TreePath.before, TreePath.after]
  | right p =>
    obtain ⟨rfl, hp, hnil⟩ := he
    obtain ⟨path, c, l, r, rfl⟩ := exists_plug_of_mem hp
    obtain ⟨-, hn, -⟩ := Represents.focus (d := .left) h
    have hr := (linked_sided (d := .left).mp (represents_plug.mp h).2.2.1).2.2.2
    rw [hn] at hnil
    obtain rfl : r = .nil := (rootPtr_eq_zero hr).mp hnil
    refine ⟨⟨.right, c, parent, l⟩ :: path, rfl, rfl, rfl, fun n => ?_⟩
    obtain ⟨hpp, hpl, -⟩ := nodup_focus (d := .left) h.nodup
    have hpb : parent ∉ TreePath.before path ++ l.inorder := fun hm => by
      rcases List.mem_append.mp hm with hm | hm
      · exact hpp (List.mem_append_left _ hm)
      · exact hpl hm
    rw [inorder_plug, Slot.insert, inorder_node, inorder_nil, ← List.append_assoc,
      List.append_assoc, List.cons_append, insertAfter_append hpb]
    simp [TreePath.before, TreePath.after]

/-- Insertion at an empty slot. -/
theorem ensures_insert {s : RbState} {t : ColorTree Ptr} {n parent : Ptr} {plink : Slot}
    {fuel : ℕ} (h : Represents s t) (hrb : t.RedBlack) (hn : NodeAddr n)
    (hfresh : n ∉ t.inorder) (he : EmptySlot s t parent plink)
    (hfuel : t.inorder.length < fuel) :
    Ensures (do rbLink n parent plink; rbInsert fuel n) s fun _ s' =>
      ∃ t', Represents s' t' ∧ t'.RedBlack ∧ t'.inorder = plink.insert n t.inorder ∧
        ∀ a ≠ n, a ∉ t.inorder → s'.node a = s.node a := by
  obtain ⟨path, rfl, rfl, rfl, hin⟩ := he.exists_path h
  rw [hin]
  exact ensures_rbLink_rbInsert h hrb hn hfresh hfuel

/-! ### Runs -/

/-- The states reached from an empty tree by insertions at empty slots and removals. -/
inductive Built : RbState → Prop
  | empty (s : RbState) (h : s.root = 0#64) : Built s
  | insert {s s' : RbState} {t : ColorTree Ptr} {n parent : Ptr} {plink : Slot} {fuel : ℕ}
      (hs : Built s) (h : Represents s t) (hn : NodeAddr n) (hfresh : n ∉ t.inorder)
      (he : EmptySlot s t parent plink) (hfuel : t.inorder.length < fuel)
      (hrun : (do rbLink n parent plink; rbInsert fuel n : RbM Unit) s = .ok ((), s')) : Built s'
  | erase {s s' : RbState} {t : ColorTree Ptr} {n : Ptr} {fuel : ℕ}
      (hs : Built s) (h : Represents s t) (hn : n ∈ t.inorder)
      (hfuel : t.inorder.length < fuel) (hrun : rbErase fuel n s = .ok ((), s')) : Built s'

/-- Memory determines the tree it represents. -/
theorem Represents.unique {s : RbState} {t t' : ColorTree Ptr} (h : Represents s t)
    (h' : Represents s t') : t = t' := by
  have key : ∀ (t t' : ColorTree Ptr) (p : Ptr), Linked s.node p t → Linked s.node p t' →
      p &&& 1#64 = 0#64 → rootPtr t = rootPtr t' → t = t' := by
    intro t
    induction t with
    | nil =>
      intro t' p _ h' _ hr
      exact ((rootPtr_eq_zero h').mp hr.symm).symm
    | node c l a r ihl ihr =>
      intro t' p h h' hp hr
      cases t' with
      | nil => exact absurd hr h.1.1
      | node c' l' a' r' =>
        obtain rfl : a = a' := hr
        obtain ⟨ha, hn, hl, hr⟩ := h
        obtain ⟨-, hn', hl', hr'⟩ := h'
        have heq := hn.symm.trans hn'
        simp only [RbNode.mk.injEq] at heq
        have hc : c = c' := by
          have hb := congrArg (· &&& 1#64) heq.2.2
          simp only [packed_and_one hp] at hb
          cases c <;> cases c' <;> first | rfl | exact absurd hb (by decide)
        rw [hc, ihl l' a hl hl' ha.2 heq.1, ihr r' a hr hr' ha.2 heq.2.1]
  exact key t t' 0#64 h.linked h'.linked (by decide) (h.root.symm.trans h'.root)

/-- **Runs.** Every tree built by insertions and removals is red-black. -/
theorem Built.redBlack {s : RbState} (hs : Built s) :
    ∃ t, Represents s t ∧ t.RedBlack := by
  induction hs with
  | empty s h => exact ⟨.nil, ⟨h, trivial, List.nodup_nil⟩, redBlack_iff.mpr ⟨rfl, trivial, 0, rfl⟩⟩
  | insert _ h hn hfresh he hfuel hrun ih =>
    obtain ⟨t₁, h₁, hrb⟩ := ih
    obtain rfl := h₁.unique h
    obtain ⟨t', h', hrb', -⟩ := (ensures_insert h hrb hn hfresh he hfuel).of_run hrun
    exact ⟨t', h', hrb'⟩
  | erase _ h hn hfuel hrun ih =>
    obtain ⟨t₁, h₁, hrb⟩ := ih
    obtain rfl := h₁.unique h
    obtain ⟨t', h', hrb', -⟩ := (ensures_rbErase h hrb hn hfuel).of_run hrun
    exact ⟨t', h', hrb'⟩

/-! ### The contracts -/

/-- **Removal keeps the red-black invariant.** -/
theorem rbErase_removes_node (s : RbState) (t : ColorTree Ptr) (n : Ptr) (h : Represents s t)
    (hrb : t.RedBlack) (hn : n ∈ t.inorder) :
    ∃ N, ∀ fuel ≥ N, Ensures (rbErase fuel n) s fun _ s' =>
      ∃ t', Represents s' t' ∧ t'.RedBlack ∧ t'.inorder = t.inorder.erase n ∧
        ∀ a ∉ t.inorder, s'.node a = s.node a :=
  ⟨t.inorder.length + 1, fun _ hfuel => ensures_rbErase h hrb hn hfuel⟩

/-- The memory holding a black node `16` between the red nodes `8` and `24`. -/
def threeNodes : RbState where
  node := fun a =>
    if a = 16#64 then ⟨8#64, 24#64, 1#64⟩
    else if a = 8#64 ∨ a = 24#64 then ⟨0#64, 0#64, 16#64⟩
    else ⟨0#64, 0#64, 0#64⟩
  root := 16#64

/-- The tree in `threeNodes`. -/
def threeTree : ColorTree Ptr :=
  node .black (node .red .nil 8#64 .nil) 16#64 (node .red .nil 24#64 .nil)

theorem represents_threeNodes : Represents threeNodes threeTree :=
  ⟨rfl, ⟨⟨by decide, by decide⟩, by decide, ⟨⟨by decide, by decide⟩, by decide, trivial, trivial⟩,
    ⟨by decide, by decide⟩, by decide, trivial, trivial⟩, by decide⟩

theorem redBlack_threeTree : threeTree.RedBlack :=
  redBlack_iff.mpr ⟨rfl, by simp [threeTree, NoRedRed], 1, by simp [threeTree, BlackHeight]⟩

theorem rbErase_removes_root_of_three :
    ∃ N, ∀ fuel ≥ N, Ensures (rbErase fuel 16#64) threeNodes fun _ s' =>
      ∃ t', Represents s' t' ∧ t'.RedBlack ∧ t'.inorder = threeTree.inorder.erase 16#64 ∧
        ∀ a ∉ threeTree.inorder, s'.node a = threeNodes.node a :=
  rbErase_removes_node threeNodes threeTree 16#64 represents_threeNodes redBlack_threeTree
    (by decide)

/-- **Insertion keeps the red-black invariant, and trees stay shallow.** -/
theorem rbInsert_adds_node_and_height_le :
    (∀ (s : RbState) (t : ColorTree Ptr) (n parent : Ptr) (plink : Slot), Represents s t →
      t.RedBlack → NodeAddr n → n ∉ t.inorder → EmptySlot s t parent plink →
      ∃ N, ∀ fuel ≥ N, Ensures (do rbLink n parent plink; rbInsert fuel n) s fun _ s' =>
        ∃ t', Represents s' t' ∧ t'.RedBlack ∧ t'.inorder = plink.insert n t.inorder ∧
          ∀ a ≠ n, a ∉ t.inorder → s'.node a = s.node a) ∧
    ∀ s, Built s → ∃ t, Represents s t ∧ t.RedBlack ∧
      t.height ≤ 2 * Nat.log 2 (t.inorder.length + 1) := by
  refine ⟨fun s t n parent plink h hrb hn hfresh he => ⟨t.inorder.length + 1, fun fuel hfuel =>
    ensures_insert h hrb hn hfresh he hfuel⟩, fun s hs => ?_⟩
  obtain ⟨t, h, hrb⟩ := hs.redBlack
  exact ⟨t, h, hrb, height_le_of_redBlack hrb⟩

theorem rbInsert_adds_right_of_last :
    ∃ N, ∀ fuel ≥ N, Ensures (do rbLink 32#64 24#64 (.right 24#64); rbInsert fuel 32#64)
      threeNodes fun _ s' => ∃ t', Represents s' t' ∧ t'.RedBlack ∧
        t'.inorder = [8#64, 16#64, 24#64, 32#64] ∧
        ∀ a ≠ 32#64, a ∉ threeTree.inorder → s'.node a = threeNodes.node a :=
  rbInsert_adds_node_and_height_le.1 threeNodes threeTree 32#64 24#64 (.right 24#64)
    represents_threeNodes redBlack_threeTree ⟨by decide, by decide⟩ (by decide)
    ⟨rfl, by decide, by decide⟩

end Rb

end Kernel64
