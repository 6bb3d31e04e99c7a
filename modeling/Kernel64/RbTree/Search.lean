import Kernel64.RbTree.Runs

/-!
# Descending through a tree

The users of the tree search it themselves: from the root slot they follow child slots, at each
node stopping or going to one side, until they stop or reach an empty slot. `descend` is that loop,
with the decision at a node as a parameter. When the decisions agree with the in-order sequence
(`Guided`), an empty slot reached separates the nodes that send the search to the right from those
that send it to the left.
-/

namespace Kernel64

open ColorTree

namespace Rb

/-- `*plink`. -/
def readSlot : Slot → RbM Ptr
  | .root => root
  | .left p => left p
  | .right p => right p

/-- Where a descent ends. -/
inductive Found where
  /-- at a node -/
  | hit (node : Ptr)
  /-- at an empty slot -/
  | missing (parent : Ptr) (plink : Slot)
  deriving DecidableEq

/-- The slot of a node on a side. -/
def childSlot : Side → Ptr → Slot
  | .left, p => .left p
  | .right, p => .right p

/-- The loop `while (*plink)` of a search; `go` is the decision at a node. -/
def descend (go : Ptr → Option Side) : ℕ → Ptr → Slot → RbM Found
  | 0, _, _ => throw .fuel
  | fuel + 1, parent, plink => do
    let p ← readSlot plink
    if p = 0#64 then return .missing parent plink
    match go p with
    | none => return .hit p
    | some d => descend go fuel p (childSlot d p)

/-- A search from the root. -/
def searchTree (go : Ptr → Option Side) (fuel : ℕ) : RbM Found :=
  descend go fuel 0#64 .root

section

variable {go : Ptr → Option Side} {s : RbState}

theorem ensures_readSlot {path : TreePath Ptr} {t : ColorTree Ptr} {Q : Ptr → RbState → Prop}
    (h : Represents s (plug path t)) :
    Ensures (readSlot (slotOf path)) s Q ↔ Q (rootPtr t) s := by
  obtain ⟨hroot, hpath, -, -⟩ := represents_plug.mp h
  cases path with
  | nil =>
    simp only [slotOf, readSlot, root, ensures_bind, ensures_get, ensures_pure, hroot]
    rfl
  | cons f path =>
    obtain ⟨ha, hnode, -, -⟩ := hpath
    rcases f with ⟨_ | _, c, a, u⟩
    · simp only [slotOf, readSlot, ensures_left, hnode, sidedNode, ne_eq, ha.1, not_false_eq_true,
        true_and]
    · simp only [slotOf, readSlot, ensures_right, hnode, sidedNode, ne_eq, ha.1,
        not_false_eq_true, true_and]

/-- A descent ends at a node where it stops or at an empty position, having followed its own
decisions on the way. -/
theorem ensures_descend {path : TreePath Ptr} {t : ColorTree Ptr} {fuel : ℕ}
    (h : Represents s (plug path t)) (hfuel : t.inorder.length < fuel)
    (hgo : ∀ f ∈ path, go f.label = some f.side) :
    Ensures (descend go fuel (topPtr path) (slotOf path)) s fun r s' => s' = s ∧
      ((∃ p, r = .hit p ∧ p ∈ (plug path t).inorder ∧ go p = none) ∨
        ∃ path', plug path t = plug path' .nil ∧ r = .missing (topPtr path') (slotOf path') ∧
          ∀ f ∈ path', go f.label = some f.side) := by
  induction fuel generalizing path t with
  | zero => exact absurd hfuel (Nat.not_lt_zero _)
  | succ fuel ih =>
    rw [descend, ensures_bind, ensures_readSlot h]
    cases t with
    | nil =>
      simp only [rootPtr_nil, if_true, ensures_pure, true_and]
      exact Or.inr ⟨path, rfl, rfl, hgo⟩
    | node c l a r =>
      have ha : a ≠ 0#64 := (represents_plug.mp h).2.2.1.1.1
      simp only [rootPtr_node, ha, if_false]
      cases hdir : go a with
      | none =>
        simp only [ensures_pure, true_and]
        exact Or.inl ⟨a, rfl, mem_inorder_plug.mpr (Or.inr (by simp)), hdir⟩
      | some d =>
        -- the subtree on the side `d` becomes the focus
        obtain ⟨n, u, hsplit, hlen⟩ : ∃ n u, node c l a r = sided d c n a u ∧
            n.inorder.length < fuel := by
          simp only [inorder_node, List.length_append, List.length_cons] at hfuel
          cases d with
          | left => exact ⟨l, r, rfl, by omega⟩
          | right => exact ⟨r, l, rfl, by omega⟩
        have hslot : childSlot d a = slotOf (⟨d, c, a, u⟩ :: path) := by cases d <;> rfl
        rw [hsplit] at h ⊢
        simp only [hslot]
        have hfocus : Represents s (plug (⟨d, c, a, u⟩ :: path) n) := h
        refine ih hfocus hlen fun f hf => ?_
        rcases List.mem_cons.mp hf with rfl | hf
        · exact hdir
        · exact hgo f hf

/-- The decisions agree with an in-order sequence: what is before a node that sends the search to
the right does so too, and likewise on the other side. -/
def Guided (go : Ptr → Option Side) (l : List Ptr) : Prop :=
  l.Pairwise fun a b => (go b = some .right → go a = some .right) ∧
    (go a = some .left → go b = some .left)

/-- An empty position reached separates the two sides. -/
theorem guided_separates {path : TreePath Ptr}
    (hg : Guided go (TreePath.before path ++ TreePath.after path))
    (hgo : ∀ f ∈ path, go f.label = some f.side) :
    (∀ a ∈ TreePath.before path, go a = some .right) ∧
      ∀ a ∈ TreePath.after path, go a = some .left := by
  induction path with
  | nil => simp [TreePath.before, TreePath.after]
  | cons f path ih =>
    have hf := hgo f (by simp)
    have hrest : ∀ f ∈ path, go f.label = some f.side := fun f' hf' => hgo f' (by simp [hf'])
    rcases f with ⟨_ | _, c, a, u⟩
    · -- the position is left of `a`, so `a` and what follows it send the search left
      simp only [TreePath.before, TreePath.after, List.cons_append] at hg ⊢
      have hsub : List.Sublist (TreePath.before path ++ TreePath.after path)
          (TreePath.before path ++ a :: (u.inorder ++ TreePath.after path)) :=
        ((List.sublist_append_right _ _).cons _).append_left _
      obtain ⟨hb, hafter⟩ := ih (List.Pairwise.sublist hsub hg) hrest
      refine ⟨hb, fun x hx => ?_⟩
      rcases List.mem_cons.mp hx with rfl | hx
      · exact hf
      · have hpw := (List.pairwise_append.mp hg).2.1
        exact ((List.pairwise_cons.mp hpw).1 x hx).2 hf
    · simp only [TreePath.before, TreePath.after, ← List.append_assoc] at hg ⊢
      have hsub : List.Sublist (TreePath.before path ++ TreePath.after path)
          (TreePath.before path ++ u.inorder ++ [a] ++ TreePath.after path) := by
        rw [List.append_assoc, List.append_assoc]
        exact List.Sublist.append_left
          ((List.sublist_append_right _ _).trans (List.sublist_append_right _ _)) _
      obtain ⟨hb, hafter⟩ := ih (List.Pairwise.sublist hsub hg) hrest
      refine ⟨fun x hx => ?_, hafter⟩
      rcases List.mem_append.mp hx with hx | hx
      · have hpw := (List.pairwise_append.mp (List.pairwise_append.mp hg).1).2.2
        exact (hpw x hx a (by simp)).1 hf
      · rw [List.mem_singleton.mp hx]
        exact hf

/-- **Search.** It ends at a node where it stops, or at the empty position between the nodes that
send it right and those that send it left. -/
theorem ensures_searchTree {t : ColorTree Ptr} {fuel : ℕ} (h : Represents s t)
    (hfuel : t.inorder.length < fuel) (hg : Guided go t.inorder) :
    Ensures (searchTree go fuel) s fun r s' => s' = s ∧
      ((∃ p, r = .hit p ∧ p ∈ t.inorder ∧ go p = none) ∨
        ∃ path, t = plug path .nil ∧ r = .missing (topPtr path) (slotOf path) ∧
          (∀ a ∈ TreePath.before path, go a = some .right) ∧
          ∀ a ∈ TreePath.after path, go a = some .left) := by
  have hfocus : Represents s (plug [] t) := h
  refine (ensures_descend hfocus hfuel (by simp)).mono ?_
  rintro r s' ⟨rfl, hr | ⟨path, rfl, rfl, hgo⟩⟩
  · exact ⟨rfl, Or.inl hr⟩
  · refine ⟨rfl, Or.inr ⟨path, rfl, rfl, guided_separates ?_ hgo⟩⟩
    rw [inorder_plug, inorder_nil, List.append_nil] at hg
    exact hg

end

end Rb

end Kernel64
