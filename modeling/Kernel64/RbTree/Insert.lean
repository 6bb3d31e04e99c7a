import Kernel64.RbTree.Repr

/-!
# Insertion into a red-black tree

The loop of `rb_insert` climbs with a red node at its focus whose parent may be red too:
`Climbing path t`. One iteration either ends the violation by rotating at the grandparent or
moves it two levels up (`ensures_insertSide`), and by induction the loop ends in a tree with
the same in-order sequence and no violation left (`ensures_insertLoop`).
-/

namespace Kernel64

open ColorTree

namespace Rb

/-! ### Reading colours -/

/-- The colour test on a subtree sees the colour of its root, black when it is empty. -/
theorem ensures_rbRed {s : RbState} {path : TreePath Ptr} {t : ColorTree Ptr}
    (h : Represents s (plug path t)) {Q : Bool → RbState → Prop} :
    Ensures (rbRed (rootPtr t)) s Q ↔ Q (decide (t.color = .red)) s := by
  cases t with
  | nil => simp [rbRed]
  | node c l a r =>
    obtain ⟨ha, hn, htop⟩ := Represents.focus (d := .left) h
    simp only [sidedNode] at hn
    cases c <;> simp [rbRed, rbColor, ha.1, hn, packed_and_one htop]

theorem ensures_rbColor {s : RbState} {path : TreePath Ptr} {d : Side} {c : Color}
    {n f : ColorTree Ptr} {a : Ptr} (h : Represents s (plug path (sided d c n a f)))
    {Q : Color → RbState → Prop} : Ensures (rbColor a) s Q ↔ Q c s := by
  obtain ⟨ha, hn, htop⟩ := h.focus
  cases c <;> simp [rbColor, ha.1, hn, packed_and_one htop]

theorem ensures_rbBlack {s : RbState} {path : TreePath Ptr} {t : ColorTree Ptr}
    (h : Represents s (plug path t)) {Q : Bool → RbState → Prop} :
    Ensures (rbBlack (rootPtr t)) s Q ↔ Q (decide (t.color = .black)) s := by
  have hc : (!decide (t.color = .red)) = decide (t.color = .black) := by cases t.color <;> rfl
  simp only [rbBlack, ensures_bind, ensures_rbRed h, ensures_pure, hc]

/-- The colour of the nearest ancestor, black at the root. -/
def topColor : TreePath Ptr → Color
  | [] => .black
  | f :: _ => f.color

theorem ensures_rbRed_top {s : RbState} {path : TreePath Ptr} {t : ColorTree Ptr}
    (h : Represents s (plug path t)) {Q : Bool → RbState → Prop} :
    Ensures (rbRed (topPtr path)) s Q ↔ Q (decide (topColor path = .red)) s := by
  cases path with
  | nil => simp [rbRed, topColor]
  | cons f path =>
    have hf : Represents s (plug path (f.attach t)) := h
    rcases f with ⟨_ | _, c, a, sib⟩ <;> exact ensures_rbRed hf

/-! ### The loop invariant -/

/-- The loop invariant of `rb_insert`: with `t` at the focus, the only red-black condition
that may fail is at the edge between `t` and its parent; `t` itself may be a red root. -/
structure Climbing (path : TreePath Ptr) (t : ColorTree Ptr) : Prop where
  focus : t.NoRedRed
  ancestors : TreePath.NoRedRed path .black
  root : TreePath.rootColor path .black = .black
  balanced : ∃ k K, t.BlackHeight k ∧ TreePath.BlackHeight path k K

/-- A tree that may be left when the loop ends: all conditions hold but the black root. -/
def AlmostRedBlack (t : ColorTree Ptr) : Prop := t.NoRedRed ∧ ∃ k, t.BlackHeight k

theorem Climbing.almost {path : TreePath Ptr} {t : ColorTree Ptr} (h : Climbing path t)
    (htop : topColor path = .black) : AlmostRedBlack (plug path t) := by
  obtain ⟨k, K, hk, hK⟩ := h.balanced
  refine ⟨noRedRed_plug.mpr ⟨h.focus, ?_⟩, K, blackHeight_plug.mpr ⟨k, hk, hK⟩⟩
  cases path with
  | nil => trivial
  | cons f path =>
    have hf : f.color = .black := htop
    exact ⟨fun hr => absurd (hf.symm.trans hr) (by decide), h.ancestors.2⟩

/-- A red parent has a black parent in turn, which is the only way the climb goes on. -/
theorem Climbing.exists_grandparent {f : TreeFrame Ptr} {path : TreePath Ptr}
    {t : ColorTree Ptr} (h : Climbing (f :: path) t) (hf : f.color = .red) :
    ∃ e g uncle up, path = ⟨e, .black, g, uncle⟩ :: up := by
  cases path with
  | nil =>
    have := h.root
    simp [TreePath.rootColor, hf] at this
  | cons f' up =>
    rcases f' with ⟨e, c, g, uncle⟩
    have hc : c = .black := by
      cases c with
      | black => rfl
      | red => exact absurd ((h.ancestors.2.2.1 rfl).1.symm.trans hf) (by decide)
    exact ⟨e, g, uncle, up, by rw [hc]⟩

/-- What the invariant says around a red parent, for the two shapes of the repair. -/
theorem Climbing.unfold {d e : Side} {p g : Ptr} {sib uncle t : ColorTree Ptr}
    {up : TreePath Ptr}
    (h : Climbing (⟨d, .red, p, sib⟩ :: ⟨e, .black, g, uncle⟩ :: up) t) :
    ∃ k K, t.BlackHeight k ∧ sib.BlackHeight k ∧ uncle.BlackHeight k ∧
      TreePath.BlackHeight up (k + 1) K ∧ sib.color = .black ∧ sib.NoRedRed ∧
        uncle.NoRedRed ∧ TreePath.NoRedRed up .black ∧
          TreePath.rootColor up .black = .black := by
  obtain ⟨k, K, hk, hs, hu, hK⟩ := h.balanced
  obtain ⟨hp1, hp2, -, hp3, hp4⟩ := h.ancestors
  exact ⟨k, K, hk, hs, by simpa using hu, by simpa using hK, (hp1 rfl).2, hp2, hp3, hp4, h.root⟩

/-- The violation moves up: the grandparent becomes red, its children black. -/
theorem Climbing.recolor {d e : Side} {p g : Ptr} {sib uncle t : ColorTree Ptr}
    {up : TreePath Ptr}
    (h : Climbing (⟨d, .red, p, sib⟩ :: ⟨e, .black, g, uncle⟩ :: up) t)
    (hu : uncle.color = .red) :
    Climbing up (sided e .red (sided d .black t p sib) g (uncle.recolor .black)) := by
  obtain ⟨k, K, hk, hs, huk, hK, -, hs', hu', hup, hroot⟩ := h.unfold
  obtain ⟨ul, u, ur, rfl⟩ := exists_node_of_red hu
  refine ⟨?_, hup, hroot, k + 1, K, ?_, hK⟩
  · simp only [noRedRed_sided, ColorTree.recolor, NoRedRed, color_sided, color_node]
    exact ⟨by simp, ⟨by simp, h.focus, hs'⟩, by simp, hu'.2⟩
  · refine blackHeight_sided.mpr ⟨k + 1, rfl, blackHeight_sided.mpr ⟨k, rfl, hk, hs⟩, ?_⟩
    rw [ColorTree.recolor, blackHeight_black]
    rwa [blackHeight_red] at huk

/-! ### One iteration -/

/-- The tree after the rotations of one iteration. -/
def insertRotated (d e : Side) (p g : Ptr) (sib uncle : ColorTree Ptr) (n : Ptr)
    (n₁ n₂ : ColorTree Ptr) : ColorTree Ptr :=
  if d = e then
    -- `n₁` is the subtree of the new node on the side `e`
    sided e .black (sided e .red n₁ n n₂) p (sided e .red sib g uncle)
  else
    sided e .black (sided e .red sib p n₁) n (sided e .red n₂ g uncle)

theorem Climbing.rotated {d e : Side} {p g n : Ptr} {sib uncle n₁ n₂ : ColorTree Ptr}
    {up : TreePath Ptr}
    (h : Climbing (⟨d, .red, p, sib⟩ :: ⟨e, .black, g, uncle⟩ :: up) (sided e .red n₁ n n₂))
    (hu : uncle.color = .black) :
    AlmostRedBlack (plug up (insertRotated d e p g sib uncle n n₁ n₂)) := by
  obtain ⟨k, K, hk, hs, huk, hK, hsc, hs', hu', hup, -⟩ := h.unfold
  obtain ⟨j, hj, hk₁, hk₂⟩ := blackHeight_sided.mp hk
  obtain ⟨hn, hn₁, hn₂⟩ := noRedRed_sided.mp h.focus
  obtain ⟨hc₁, hc₂⟩ := hn rfl
  rw [Color.count_red, Nat.add_zero] at hj
  subst hj
  have hup' : TreePath.NoRedRed up (insertRotated d e p g sib uncle n n₁ n₂).color := by
    have : (insertRotated d e p g sib uncle n n₁ n₂).color = .black := by
      unfold insertRotated; split <;> simp
    rwa [this]
  refine ⟨noRedRed_plug.mpr ⟨?_, hup'⟩, K, blackHeight_plug.mpr ⟨k + 1, ?_, hK⟩⟩
  · unfold insertRotated
    split <;> simp only [noRedRed_sided, color_sided] <;> tauto
  · unfold insertRotated
    split <;> simp only [blackHeight_sided] <;>
      exact ⟨k, rfl, ⟨k, rfl, by assumption, by assumption⟩, k, rfl, by assumption, by assumption⟩

/-- The rotations of one iteration, when the uncle is black. -/
theorem ensures_insertSide_rotate {s₀ s : RbState} {t₀ : ColorTree Ptr} {d e : Side}
    {p g n : Ptr} {sib uncle n₁ n₂ : ColorTree Ptr} {up : TreePath Ptr}
    {next : Ptr → Ptr → RbM Unit}
    (h : Rebalanced s₀ t₀ s
      (plug up (sided e .black (sided d .red (sided e .red n₁ n n₂) p sib) g uncle)))
    (hu : uncle.color = .black) :
    Ensures (insertSide e next n p g) s fun _ s' =>
      Rebalanced s₀ t₀ s' (plug up (insertRotated d e p g sib uncle n n₁ n₂)) := by
  obtain ⟨hga, hng, -⟩ := h.repr.focus
  have hP : Represents s (plug (⟨e, .black, g, uncle⟩ :: up)
      (sided d .red (sided e .red n₁ n n₂) p sib)) := h.repr
  obtain ⟨hpa, hnp, -⟩ := hP.focus
  have hU : Represents s (plug (⟨e.flip, .black, g,
      sided d .red (sided e .red n₁ n n₂) p sib⟩ :: up) uncle) := by
    rw [plug_cons, TreeFrame.attach_mk, sided_flip]
    exact h.repr
  rw [rootPtr_sided] at hnp hng
  simp only [insertSide, ensures_bind, (ensures_child_of_node hng).2, ensures_rbRed hU, hu]
  refine ⟨hga.1, ?_⟩
  rw [if_neg (by decide)]
  by_cases hde : d = e
  · -- the new node hangs on the outer side: one rotation, at the grandparent
    subst hde
    have hN : Represents s (plug (⟨d, .red, p, sib⟩ :: ⟨d, .black, g, uncle⟩ :: up)
        (sided d .red n₁ n n₂)) := h.repr
    have hsib : n ≠ rootPtr sib := by
      have hnd := (nodup_focus hN.nodup).1
      rw [TreePath.mem_labels_cons] at hnd
      exact (rootPtr_ne (fun hm => hnd (Or.inr (Or.inl hm))) hN.focus.1.1).symm
    simp only [ensures_bind, (ensures_child_of_node hnp).2, if_neg hsib]
    refine ⟨hpa.1, ?_⟩
    have h₁ : Rebalanced s₀ t₀ s (plug up (sided d.flip .black uncle g
        (sided d.flip .red sib p (sided d .red n₁ n n₂)))) := by
      rw [sided_flip, sided_flip]
      exact h
    refine h₁.rotate.mono fun _ s₁ h₂ => ?_
    refine (h₂.setColor .black).mono fun _ s₂ h₃ => ?_
    have h₃' : Rebalanced s₀ t₀ s₂ (plug (⟨d.flip, .black, p, sided d .red n₁ n n₂⟩ :: up)
        (sided d.flip .black uncle g sib)) := h₃
    refine (h₃'.setColor .red).mono fun _ s₃ h₄ => ?_
    rw [plug_cons, TreeFrame.attach_mk, sided_flip, sided_flip] at h₄
    rwa [insertRotated, if_pos rfl]
  · -- the new node hangs on the inner side: rotate it up first
    have hde' : d = e.flip := by cases d <;> cases e <;> simp_all
    subst hde'
    rw [sidedNode_flip] at hnp
    simp only [ensures_bind, (ensures_child_of_node hnp).2, if_true]
    refine ⟨hpa.1, ?_⟩
    have h₁ : Rebalanced s₀ t₀ s (plug (⟨e, .black, g, uncle⟩ :: up)
        (sided e .red sib p (sided e .red n₁ n n₂))) := by
      rw [plug_cons, TreeFrame.attach_mk, ← sided_flip e .red (sided e .red n₁ n n₂)]
      exact h
    refine h₁.rotate.mono fun _ s₁ h₂ => ?_
    have h₂' : Rebalanced s₀ t₀ s₁ (plug up (sided e.flip .black uncle g
        (sided e.flip .red n₂ n (sided e .red sib p n₁)))) := by
      rw [sided_flip, sided_flip]
      exact h₂
    refine h₂'.rotate.mono fun _ s₂ h₃ => ?_
    refine (h₃.setColor .black).mono fun _ s₃ h₄ => ?_
    have h₄' : Rebalanced s₀ t₀ s₃ (plug (⟨e.flip, .black, n, sided e .red sib p n₁⟩ :: up)
        (sided e.flip .black uncle g n₂)) := h₄
    refine (h₄'.setColor .red).mono fun _ s₄ h₅ => ?_
    rw [plug_cons, TreeFrame.attach_mk, sided_flip, sided_flip] at h₅
    rwa [insertRotated, if_neg hde]

/-- The recolouring of one iteration, when the uncle is red. -/
theorem ensures_insertSide_recolor {s₀ s : RbState} {t₀ : ColorTree Ptr} {d e : Side}
    {p g n : Ptr} {sib uncle t : ColorTree Ptr} {up : TreePath Ptr}
    {next : Ptr → Ptr → RbM Unit} {Q : Unit → RbState → Prop}
    (h : Rebalanced s₀ t₀ s (plug up (sided e .black (sided d .red t p sib) g uncle)))
    (hu : uncle.color = .red)
    (hnext : ∀ s', Rebalanced s₀ t₀ s' (plug up
        (sided e .red (sided d .black t p sib) g (uncle.recolor .black))) →
      Ensures (next g (topPtr up)) s' Q) :
    Ensures (insertSide e next n p g) s Q := by
  obtain ⟨ul, u, ur, rfl⟩ := exists_node_of_red hu
  obtain ⟨hga, hng, -⟩ := h.repr.focus
  have hU : Represents s (plug (⟨e.flip, .black, g, sided d .red t p sib⟩ :: up)
      (node .red ul u ur)) := by
    rw [plug_cons, TreeFrame.attach_mk, sided_flip]
    exact h.repr
  simp only [insertSide, ensures_bind, (ensures_child_of_node hng).2, ensures_rbRed hU,
    color_node, decide_true, if_true]
  refine ⟨hga.1, ?_⟩
  refine (h.setColor .red).mono fun _ s₁ h₁ => ?_
  have h₁' : Rebalanced s₀ t₀ s₁ (plug (⟨e, .red, g, node .red ul u ur⟩ :: up)
      (sided d .red t p sib)) := h₁
  refine (h₁'.setColor .black).mono fun _ s₂ h₂ => ?_
  have h₂' : Rebalanced s₀ t₀ s₂ (plug (⟨e.flip, .red, g, sided d .black t p sib⟩ :: up)
      (sided .left .red ul u ur)) := by
    rw [plug_cons, TreeFrame.attach_mk, sided_flip]
    exact h₂
  refine (h₂'.setColor .black).mono fun _ s₃ h₃ => ?_
  rw [plug_cons, TreeFrame.attach_mk, sided_flip] at h₃
  obtain ⟨-, hng₃, htop⟩ := h₃.repr.focus
  rw [ensures_rbParent, hng₃, sidedNode_parent, packed_and_not_one htop]
  exact ⟨hga.1, hnext s₃ h₃⟩

/-! ### The loop -/

/-- **The loop of `rb_insert`.** From a climbing state it ends, with fuel to spare for every
level above the focus, in a tree with the same nodes in the same order and no violation but
possibly a red root. -/
theorem ensures_insertLoop {s₀ s : RbState} {t₀ : ColorTree Ptr} :
    ∀ {fuel : ℕ} {path : TreePath Ptr} {l r : ColorTree Ptr} {n : Ptr},
      path.length < fuel → Rebalanced s₀ t₀ s (plug path (node .red l n r)) →
      Climbing path (node .red l n r) →
      Ensures (insertLoop fuel n (topPtr path)) s fun _ s' =>
        ∃ t', Rebalanced s₀ t₀ s' t' ∧ AlmostRedBlack t' := by
  intro fuel
  induction fuel generalizing s with
  | zero => intro path l r n hf; exact absurd hf (Nat.not_lt_zero _)
  | succ fuel ih =>
    intro path l r n hf h hc
    simp only [insertLoop, ensures_bind, ensures_rbRed_top h.repr]
    by_cases hcol : topColor path = .black
    · simp only [hcol, reduceCtorEq, decide_false, Bool.false_eq_true, if_false, ensures_pure]
      exact ⟨_, h, hc.almost hcol⟩
    · obtain ⟨f, path, rfl⟩ : ∃ f path', path = f :: path' := by
        cases path with
        | nil => exact absurd rfl hcol
        | cons f path => exact ⟨f, path, rfl⟩
      have hred : f.color = .red := Color.ne_black.mp hcol
      obtain ⟨e, g, uncle, up, rfl⟩ := hc.exists_grandparent hred
      rcases f with ⟨d, c, p, sib⟩
      simp only at hred
      subst hred
      obtain ⟨n₁, n₂, hN⟩ := exists_sided e .red l n r
      rw [hN] at h hc
      have hG : Rebalanced s₀ t₀ s
          (plug up (sided e .black (sided d .red (sided e .red n₁ n n₂) p sib) g uncle)) := h
      have hP : Represents s (plug (⟨e, .black, g, uncle⟩ :: up)
          (sided d .red (sided e .red n₁ n n₂) p sib)) := h.repr
      obtain ⟨hga, hng, -⟩ := hG.repr.focus
      obtain ⟨hpa, hnp, -⟩ := hP.focus
      rw [rootPtr_sided] at hng
      -- the loop body for the side of the grandparent the parent is on
      have hbody : Ensures (insertSide e (insertLoop fuel) n p g) s fun _ s' =>
          ∃ t', Rebalanced s₀ t₀ s' t' ∧ AlmostRedBlack t' := by
        by_cases hu : uncle.color = .black
        · exact (ensures_insertSide_rotate hG hu).mono fun _ s' h' => ⟨_, h', hc.rotated hu⟩
        · have hu' : uncle.color = .red := Color.ne_black.mp hu
          refine ensures_insertSide_recolor hG hu' fun s' h' => ?_
          have hc' := hc.recolor hu'
          obtain ⟨l', r', hnode⟩ : ∃ l' r', sided e .red (sided d .black (sided e .red n₁ n n₂)
              p sib) g (uncle.recolor .black) = node .red l' g r' := by
            cases e <;> exact ⟨_, _, rfl⟩
          rw [hnode] at h' hc'
          refine ih ?_ h' hc'
          simp only [List.length_cons] at hf
          omega
      simp only [topColor, decide_true, if_true, topPtr_cons, ensures_bind, ensures_rbParent,
        hnp, sidedNode_parent, packed_and_not_one hga.2, ensures_left]
      refine ⟨hpa.1, hga.1, ?_⟩
      cases e with
      | left =>
        rw [if_pos (by rw [hng]; rfl)]
        exact hbody
      | right =>
        have hpu : p ≠ (s.node g).left := by
          have hnd := (nodup_focus hP.nodup).1
          rw [TreePath.mem_labels_cons] at hnd
          rw [hng]
          exact (rootPtr_ne (fun hm => hnd (Or.inr (Or.inl hm))) hpa.1).symm
        rw [if_neg hpu]
        exact hbody

/-! ### Linking a new node -/

/-- The address of the pointer at a position. -/
def slotOf : TreePath Ptr → Slot
  | [] => .root
  | ⟨.left, _, a, _⟩ :: _ => .left a
  | ⟨.right, _, a, _⟩ :: _ => .right a

theorem ensures_rbLink {s : RbState} {path : TreePath Ptr} {n : Ptr}
    (h : Represents s (plug path .nil)) (hn : NodeAddr n)
    (hfresh : n ∉ (plug path .nil).inorder) :
    Ensures (rbLink n (topPtr path) (slotOf path)) s fun _ s' =>
      Represents s' (plug path (node .red .nil n .nil)) ∧
        ∀ a ≠ n, a ∉ (plug path .nil).inorder → s'.node a = s.node a := by
  obtain ⟨hroot, hpath, -, hnd⟩ := represents_plug.mp h
  rw [mem_inorder_plug, not_or] at hfresh
  have hnp : n ∉ TreePath.labels path := hfresh.1
  have hnd' : (plug path (node .red .nil n .nil)).inorder.Nodup := by
    refine nodup_inorder_plug.mpr ⟨(nodup_inorder_plug.mp hnd).1, by simp, ?_⟩
    simpa [List.Disjoint] using hnp
  have hbit : topPtr path ||| Color.red.bit = topPtr path := BitVec.or_zero
  simp only [rbLink, ensures_bind, ensures_setParentWord, ensures_setRight, ensures_setLeft,
    put_node_self, put_put]
  refine ⟨hn.1, hn.1, hn.1, ?_⟩
  set s₁ := s.put n ⟨0#64, 0#64, topPtr path⟩ with hs₁
  have hn₁ : s₁.node n = ⟨0#64, 0#64, topPtr path ||| Color.red.bit⟩ := by
    rw [hbit, hs₁, put_node_self]
  have hpath₁ : LinkedPath s₁.node (rootPtr .nil) path := (linkedPath_update hnp).mpr hpath
  cases path with
  | nil =>
    simp only [slotOf, setSlot, ensures_setRoot]
    exact ⟨⟨rfl, ⟨hn, hn₁, trivial, trivial⟩, hnd'⟩, fun a ha _ => put_node_of_ne _ _ ha⟩
  | cons f path =>
    have hfn' : n ≠ f.label := fun hm => hnp (hm ▸ TreePath.mem_labels_cons.mpr (Or.inl rfl))
    have hslot : setSlot (slotOf (f :: path)) n = setChild f.side f.label n := by
      rcases f with ⟨_ | _, c, a, t⟩ <;> rfl
    rw [hslot]
    refine (ensures_setChild_path hpath₁ (nodup_inorder_plug.mp hnd).1).mono ?_
    rintro - s₂ ⟨hr₂, hpath₂, hf₂⟩
    refine ⟨represents_plug.mpr ⟨hr₂.trans hroot, hpath₂, ⟨hn, ?_, trivial, trivial⟩, hnd'⟩,
      fun a ha hat => ?_⟩
    · rw [hf₂ n hfn']
      exact hn₁
    · rw [mem_inorder_plug, TreePath.mem_labels_cons] at hat
      rw [hf₂ a fun hm => hat (Or.inl (Or.inl hm)), hs₁, put_node_of_ne _ _ ha]

theorem TreePath.length_le_labels (path : TreePath Ptr) :
    path.length ≤ (TreePath.labels path).length := by
  induction path with
  | nil => simp
  | cons f path ih =>
    simp only [TreePath.labels, List.length_append, List.length_cons] at ih ⊢
    rcases f with ⟨_ | _, c, a, t⟩ <;>
      simp only [TreePath.before, TreePath.after, List.length_append, List.length_cons,
        List.length_nil] <;> omega

/-- A root made black repairs what the loop leaves. -/
theorem AlmostRedBlack.recolor {c : Color} {l r : ColorTree Ptr} {a : Ptr}
    (h : AlmostRedBlack (node c l a r)) : (node .black l a r).RedBlack := by
  obtain ⟨hrr, k, hk⟩ := h
  obtain ⟨j, rfl, hl, hr⟩ := hk
  exact redBlack_iff.mpr ⟨rfl, ⟨by simp, hrr.2⟩, j + 1, j, rfl, hl, hr⟩

/-- **Insertion.** Linking a new node at an empty position of a red-black tree and
rebalancing ends, without a null dereference, in a red-black tree with the new node exactly
at that position of the in-order sequence. -/
theorem ensures_rbLink_rbInsert {s : RbState} {path : TreePath Ptr} {n : Ptr} {fuel : ℕ}
    (h : Represents s (plug path .nil)) (hrb : (plug path .nil).RedBlack) (hn : NodeAddr n)
    (hfresh : n ∉ (plug path .nil).inorder)
    (hfuel : (plug path .nil).inorder.length < fuel) :
    Ensures (do rbLink n (topPtr path) (slotOf path); rbInsert fuel n) s fun _ s' =>
      ∃ t', Represents s' t' ∧ t'.RedBlack ∧
        t'.inorder = TreePath.before path ++ n :: TreePath.after path ∧
          ∀ a ≠ n, a ∉ (plug path .nil).inorder → s'.node a = s.node a := by
  rw [ensures_bind]
  refine (ensures_rbLink h hn hfresh).mono fun _ s₁ ⟨h₁, hf₁⟩ => ?_
  obtain ⟨hroot, hrr, K, hK⟩ := redBlack_iff.mp hrb
  obtain ⟨k, hk, hpK⟩ := blackHeight_plug.mp hK
  have hclimb : Climbing path (node .red .nil n .nil) :=
    ⟨by simp [NoRedRed], (noRedRed_plug.mp hrr).2, (color_plug path .nil).symm.trans hroot,
      k, K, by simpa using hk, hpK⟩
  have hlen : path.length < fuel := by
    refine lt_of_le_of_lt ((TreePath.length_le_labels path).trans ?_) hfuel
    simp only [inorder_plug, TreePath.labels, List.length_append, inorder_nil, List.length_nil]
    omega
  obtain ⟨-, hnn, htop⟩ := Represents.focus (d := .left) h₁
  simp only [rbInsert, ensures_bind, ensures_rbParent, hnn, sidedNode_parent,
    packed_and_not_one htop]
  refine ⟨hn.1, ?_⟩
  refine (ensures_insertLoop hlen h₁.rebalanced_self hclimb).mono ?_
  rintro - s₂ ⟨t₂, h₂, halmost⟩
  have hin : t₂.inorder = TreePath.before path ++ n :: TreePath.after path := by
    rw [h₂.inorder, inorder_plug]
    simp
  obtain ⟨c, l, a, r, rfl⟩ : ∃ c l a r, t₂ = node c l a r := by
    cases t₂ with
    | nil => simp at hin
    | node c l a r => exact ⟨c, l, a, r, rfl⟩
  have hroot₂ : s₂.root = a := h₂.repr.root
  rw [ensures_root, hroot₂]
  have hat : Rebalanced s₁ (plug path (node .red .nil n .nil)) s₂
    (plug [] (sided .left c l a r)) := h₂
  refine (hat.setColor .black).mono fun _ s₃ h₃ => ?_
  refine ⟨_, h₃.repr, halmost.recolor, hin, fun b hb hbt => ?_⟩
  rw [h₃.frame b, hf₁ b hb hbt]
  rw [mem_inorder_plug] at hbt ⊢
  simpa [hb] using hbt

end Rb

end Kernel64
