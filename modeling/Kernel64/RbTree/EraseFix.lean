import Kernel64.RbTree.Insert

/-!
# Rebalancing after a removal

`rb_erase_fix` climbs with a subtree at its focus that is one black node short:
`Deficient path t`. One iteration makes the sibling black (`ensures_blackSibling`), then
either takes a black node from the sibling too and moves up, or finds a red nephew and ends
with a rotation at the parent (`ensures_eraseFixSide`). The sibling is never null because
its black height is positive.
-/

namespace Kernel64

open ColorTree

namespace Rb

/-! ### The loop invariant -/

/-- The loop invariant of `rb_erase_fix`: the subtree `t` at the focus has one black node too
few on every path; apart from that, and from the colour of its root, all is well. -/
structure Deficient (path : TreePath Ptr) (t : ColorTree Ptr) : Prop where
  focus : (t.recolor .black).NoRedRed
  ancestors : TreePath.NoRedRed path .black
  root : TreePath.rootColor path .black = .black
  balanced : ∃ k K, t.BlackHeight k ∧ TreePath.BlackHeight path (k + 1) K

theorem recolor_of_color {t : ColorTree Ptr} {c : Color} (h : t.color = c) :
    t.recolor c = t := by
  cases t with
  | nil => rfl
  | node d l a r => simp only [color_node] at h; rw [h]; rfl

/-- The loop may end at the root, or below a red focus: black at the focus makes up for the
missing node. -/
theorem Deficient.redBlack {path : TreePath Ptr} {t : ColorTree Ptr} (h : Deficient path t)
    (hend : t.color = .red ∨ path = []) : (plug path (t.recolor .black)).RedBlack := by
  obtain ⟨k, K, hk, hK⟩ := h.balanced
  rw [redBlack_iff]
  cases t with
  | nil =>
    obtain rfl : path = [] := by simpa using hend
    exact ⟨rfl, h.focus, 0, by simp [ColorTree.recolor]⟩
  | node c l a r =>
    refine ⟨?_, noRedRed_plug.mpr ⟨h.focus, h.ancestors⟩, ?_⟩
    · rw [color_plug]
      exact h.root
    · obtain ⟨j, rfl, hl, hr⟩ := hk
      rcases hend with hc | rfl
      · simp only [color_node] at hc
        subst hc
        exact ⟨K, blackHeight_plug.mpr ⟨j + 1, ⟨j, rfl, hl, hr⟩, hK⟩⟩
      · exact ⟨j + 1, j, rfl, hl, hr⟩

/-- The sibling of a deficient subtree is not empty: it has a black node to spare. -/
theorem Deficient.exists_sibling {d e : Side} {c : Color} {p : Ptr} {B t : ColorTree Ptr}
    {up : TreePath Ptr} (h : Deficient (⟨d, c, p, B⟩ :: up) t) :
    ∃ cb b₁ b b₂, B = sided e cb b₁ b b₂ := by
  obtain ⟨k, K, -, hB, -⟩ := h.balanced
  obtain ⟨cb, l, b, r, rfl⟩ := BlackHeight.exists_node hB
  obtain ⟨b₁, b₂, hb⟩ := exists_sided e cb l b r
  exact ⟨cb, b₁, b, b₂, hb⟩

/-! ### A black sibling -/

/-- A red sibling is rotated above the parent; the new sibling is its black child. -/
theorem Deficient.rotateSibling {d : Side} {c : Color} {p b : Ptr} {b₁ b₂ t : ColorTree Ptr}
    {up : TreePath Ptr} (h : Deficient (⟨d, c, p, sided d .red b₁ b b₂⟩ :: up) t) :
    c = .black ∧ b₁.color = .black ∧
      Deficient (⟨d, .red, p, b₁⟩ :: ⟨d, .black, b, b₂⟩ :: up) t := by
  obtain ⟨k, K, hk, hB, hK⟩ := h.balanced
  obtain ⟨hpc, hBrr, hup⟩ := h.ancestors
  obtain ⟨hbc, hb₁, hb₂⟩ := noRedRed_sided.mp hBrr
  obtain ⟨hc₁, hc₂⟩ := hbc rfl
  have hc : c = .black := by
    cases c with
    | black => rfl
    | red => exact absurd ((hpc rfl).2.symm.trans (color_sided _ _ _ _ _)) (by decide)
  subst hc
  obtain ⟨j, hj, hj₁, hj₂⟩ := blackHeight_sided.mp hB
  simp only [Color.count_red, Nat.add_zero] at hj
  subst hj
  refine ⟨rfl, hc₁, h.focus, ⟨fun _ => ⟨rfl, hc₁⟩, hb₁, by simp, hb₂, hup⟩, h.root, k, K, hk,
    hj₁, ?_⟩
  exact ⟨by simpa using hj₂, by simpa using hK⟩

/-- What the loop body starts from, after the sibling has been made black: the fuel bound
either still counts the levels above the parent or the parent is red, and the loop ends
there. -/
theorem ensures_blackSibling {s₀ s : RbState} {t₀ : ColorTree Ptr} {d : Side} {c : Color}
    {p : Ptr} {B t : ColorTree Ptr} {up : TreePath Ptr}
    (h : Rebalanced s₀ t₀ s (plug (⟨d, c, p, B⟩ :: up) t))
    (hdef : Deficient (⟨d, c, p, B⟩ :: up) t) :
    Ensures (blackSibling d p) s fun b' s' =>
      ∃ c' B' up', b' = rootPtr B' ∧ B'.color = .black ∧
        Rebalanced s₀ t₀ s' (plug (⟨d, c', p, B'⟩ :: up') t) ∧
          Deficient (⟨d, c', p, B'⟩ :: up') t ∧ (c' = .red ∨ up'.length ≤ up.length) := by
  obtain ⟨cb, b₁, b, b₂, rfl⟩ := hdef.exists_sibling (e := d)
  have hP : Rebalanced s₀ t₀ s (plug up (sided d c t p (sided d cb b₁ b b₂))) := h
  have hB : Rebalanced s₀ t₀ s (plug (⟨d.flip, c, p, t⟩ :: up) (sided d cb b₁ b b₂)) := by
    rw [plug_cons, TreeFrame.attach_mk, sided_flip]
    exact h
  obtain ⟨hpa, hnp, -⟩ := hP.repr.focus
  simp only [blackSibling, ensures_bind, (ensures_child_of_node hnp).2, ensures_rbRed hB.repr,
    color_sided]
  refine ⟨hpa.1, ?_⟩
  cases cb with
  | black =>
    simp only [reduceCtorEq, decide_false, Bool.false_eq_true, if_false, ensures_pure]
    exact ⟨c, _, up, rfl, color_sided _ _ _ _ _, h, hdef, Or.inr le_rfl⟩
  | red =>
    obtain ⟨rfl, hc₁, hdef'⟩ := hdef.rotateSibling
    simp only [decide_true, if_true, ensures_bind, rootPtr_sided]
    refine (hB.setColor .black).mono fun _ s₁ h₁ => ?_
    rw [plug_cons, TreeFrame.attach_mk, sided_flip] at h₁
    refine (h₁.setColor .red).mono fun _ s₂ h₂ => ?_
    refine h₂.rotate.mono fun _ s₃ h₃ => ?_
    have hP₃ : Rebalanced s₀ t₀ s₃ (plug (⟨d, .black, b, b₂⟩ :: up) (sided d .red t p b₁)) := h₃
    obtain ⟨-, hnp₃, -⟩ := hP₃.repr.focus
    rw [(ensures_child_of_node hnp₃).2]
    exact ⟨hpa.1, .red, b₁, ⟨d, .black, b, b₂⟩ :: up, rfl, hc₁, h₃, hdef', Or.inl rfl⟩

/-! ### A red nephew -/

/-- The nephew on the far side from the deficient subtree is made red by a rotation at the
sibling; the new sibling is black again. -/
theorem ensures_redNephew {s₀ s : RbState} {t₀ : ColorTree Ptr} {d : Side} {c : Color}
    {p b : Ptr} {b₁ b₂ t : ColorTree Ptr} {up : TreePath Ptr}
    (h : Rebalanced s₀ t₀ s (plug (⟨d, c, p, sided d .black b₁ b b₂⟩ :: up) t))
    (hdef : Deficient (⟨d, c, p, sided d .black b₁ b b₂⟩ :: up) t)
    (hred : ¬(b₁.color = .black ∧ b₂.color = .black)) :
    Ensures (redNephew d p b) s fun b' s' =>
      ∃ n₁ n₂, Rebalanced s₀ t₀ s' (plug (⟨d, c, p, sided d .black n₁ b' n₂⟩ :: up) t) ∧
        Deficient (⟨d, c, p, sided d .black n₁ b' n₂⟩ :: up) t ∧ n₂.color = .red := by
  have hB : Rebalanced s₀ t₀ s (plug (⟨d.flip, c, p, t⟩ :: up) (sided d .black b₁ b b₂)) := by
    rw [plug_cons, TreeFrame.attach_mk, sided_flip]
    exact h
  have hB₂ : Rebalanced s₀ t₀ s
      (plug (⟨d.flip, .black, b, b₁⟩ :: ⟨d.flip, c, p, t⟩ :: up) b₂) := by
    rw [plug_cons, TreeFrame.attach_mk, sided_flip]
    exact hB
  obtain ⟨hba, hnb, -⟩ := hB.repr.focus
  simp only [redNephew, ensures_bind, (ensures_child_of_node hnb).2, ensures_rbBlack hB₂.repr]
  refine ⟨hba.1, ?_⟩
  by_cases hc₂ : b₂.color = .black
  · -- the near nephew is the red one: rotate it above the sibling
    have hc₁ : b₁.color = .red := by
      cases hb : b₁.color with
      | red => rfl
      | black => exact absurd ⟨hb, hc₂⟩ hred
    obtain ⟨n₁, n, n₂, rfl⟩ : ∃ n₁ n n₂, b₁ = sided d .red n₁ n n₂ := by
      cases b₁ with
      | nil => simp at hc₁
      | node cn l n r =>
        simp only [color_node] at hc₁
        subst hc₁
        obtain ⟨n₁, n₂, hn⟩ := exists_sided d .red l n r
        exact ⟨n₁, n, n₂, hn⟩
    simp only [hc₂, decide_true, if_true, ensures_bind, (ensures_child_of_node hnb).1,
      rootPtr_sided]
    refine ⟨hba.1, ?_⟩
    have hN : Rebalanced s₀ t₀ s
        (plug (⟨d, .black, b, b₂⟩ :: ⟨d.flip, c, p, t⟩ :: up) (sided d .red n₁ n n₂)) := hB
    refine (hN.setColor .black).mono fun _ s₁ h₁ => ?_
    have h₁' : Rebalanced s₀ t₀ s₁
        (plug (⟨d.flip, c, p, t⟩ :: up) (sided d .black (sided d .black n₁ n n₂) b b₂)) := h₁
    refine (h₁'.setColor .red).mono fun _ s₂ h₂ => ?_
    have h₂' : Rebalanced s₀ t₀ s₂ (plug (⟨d.flip, c, p, t⟩ :: up)
        (sided d.flip .red b₂ b (sided d.flip .black n₂ n n₁))) := by
      rw [sided_flip, sided_flip]
      exact h₂
    refine h₂'.rotate.mono fun _ s₃ h₃ => ?_
    rw [sided_flip d .red, sided_flip d .black] at h₃
    have hP₃ : Rebalanced s₀ t₀ s₃
        (plug up (sided d c t p (sided d .black n₁ n (sided d .red n₂ b b₂)))) := by
      rw [← sided_flip]
      exact h₃
    obtain ⟨hpa, hnp, -⟩ := hP₃.repr.focus
    rw [(ensures_child_of_node hnp).2, rootPtr_sided]
    refine ⟨hpa.1, n₁, sided d .red n₂ b b₂, hP₃, ⟨hdef.focus, ?_, hdef.root, ?_⟩,
      color_sided _ _ _ _ _⟩
    · obtain ⟨-, hBrr, hup⟩ := hdef.ancestors
      simp only [noRedRed_sided, color_sided] at hBrr
      obtain ⟨-, ⟨hn, hn₁, hn₂⟩, hb₂⟩ := hBrr
      refine ⟨fun hc => ⟨rfl, color_sided _ _ _ _ _⟩, ?_, hup⟩
      simp only [noRedRed_sided, color_sided]
      exact ⟨by simp, hn₁, fun _ => ⟨(hn trivial).2, hc₂⟩, hn₂, hb₂⟩
    · obtain ⟨k, K, hk, hBk, hK⟩ := hdef.balanced
      refine ⟨k, K, hk, ?_, hK⟩
      simp only [blackHeight_sided] at hBk ⊢
      obtain ⟨j, hj, ⟨i, hi, hn₁, hn₂⟩, hb₂⟩ := hBk
      simp only [Color.count_black, Color.count_red, Nat.add_zero, Nat.add_right_cancel_iff]
        at hj hi
      subst hj hi
      exact ⟨k, rfl, hn₁, k, rfl, hn₂, hb₂⟩
  · simp only [hc₂, decide_false, Bool.false_eq_true, if_false, ensures_pure]
    exact ⟨b₁, b₂, h, hdef, Color.ne_black.mp hc₂⟩

/-! ### The end of the climb -/

/-- The conditions around a deficient black subtree with a black sibling. -/
theorem Deficient.unfold {d : Side} {c : Color} {p b : Ptr} {b₁ b₂ t : ColorTree Ptr}
    {up : TreePath Ptr} (h : Deficient (⟨d, c, p, sided d .black b₁ b b₂⟩ :: up) t)
    (ht : t.color = .black) :
    ∃ k K, t.BlackHeight k ∧ b₁.BlackHeight k ∧ b₂.BlackHeight k ∧
      TreePath.BlackHeight up (k + 1 + c.count) K ∧ t.NoRedRed ∧ b₁.NoRedRed ∧ b₂.NoRedRed ∧
      TreePath.NoRedRed up c := by
  obtain ⟨k, K, hk, hB, hK⟩ := h.balanced
  obtain ⟨-, hBrr, hup⟩ := h.ancestors
  obtain ⟨-, hrr₁, hrr₂⟩ := noRedRed_sided.mp hBrr
  obtain ⟨j, hj, hj₁, hj₂⟩ := blackHeight_sided.mp hB
  simp only [Color.count_black, Nat.add_right_cancel_iff] at hj
  subst hj
  exact ⟨k, K, hk, hj₁, hj₂, hK, recolor_of_color ht ▸ h.focus, hrr₁, hrr₂, hup⟩

/-- The final rotation: the sibling takes the parent's colour and place. -/
theorem Deficient.rotated {d : Side} {c : Color} {p b : Ptr} {n₁ n₂ t : ColorTree Ptr}
    {up : TreePath Ptr} (h : Deficient (⟨d, c, p, sided d .black n₁ b n₂⟩ :: up) t)
    (ht : t.color = .black) (hn₂ : n₂.color = .red) :
    AlmostRedBlack (plug up (sided d c (sided d .black t p n₁) b (n₂.recolor .black))) := by
  obtain ⟨k, K, hk, hk₁, hk₂, hK, htrr, hrr₁, hrr₂, hup⟩ := h.unfold ht
  obtain ⟨l, n, r, rfl⟩ := exists_node_of_red hn₂
  refine ⟨noRedRed_plug.mpr ⟨?_, ?_⟩, K, blackHeight_plug.mpr ⟨k + 1 + c.count, ?_, hK⟩⟩
  · simp only [noRedRed_sided, color_sided, ColorTree.recolor, color_node]
    exact ⟨by simp, ⟨by simp, htrr, hrr₁⟩, by simp, hrr₂.2⟩
  · rw [color_sided]
    exact hup
  · refine blackHeight_sided.mpr ⟨k + 1, rfl, blackHeight_sided.mpr ⟨k, rfl, hk, hk₁⟩, ?_⟩
    rw [ColorTree.recolor, blackHeight_black]
    rwa [blackHeight_red] at hk₂

/-- The climb goes on: the sibling gives up a black node, and the parent is deficient. -/
theorem Deficient.climb {d : Side} {c : Color} {p b : Ptr} {b₁ b₂ t : ColorTree Ptr}
    {up : TreePath Ptr} (h : Deficient (⟨d, c, p, sided d .black b₁ b b₂⟩ :: up) t)
    (ht : t.color = .black) (hc₁ : b₁.color = .black) (hc₂ : b₂.color = .black) :
    Deficient up (sided d c t p (sided d .red b₁ b b₂)) := by
  obtain ⟨k, K, hk, hk₁, hk₂, hK, htrr, hrr₁, hrr₂, hup⟩ := h.unfold ht
  refine ⟨?_, hup.black, ?_, k + c.count, K, ?_, ?_⟩
  · have hrec : (sided d c t p (sided d .red b₁ b b₂)).recolor .black
        = sided d .black t p (sided d .red b₁ b b₂) := by cases d <;> rfl
    rw [hrec]
    simp only [noRedRed_sided, color_sided]
    exact ⟨by simp, htrr, fun _ => ⟨hc₁, hc₂⟩, hrr₁, hrr₂⟩
  · cases up with
    | nil => rfl
    | cons f up => exact h.root
  · exact blackHeight_sided.mpr ⟨k, rfl, hk, blackHeight_sided.mpr ⟨k, rfl, hk₁, hk₂⟩⟩
  · rwa [Nat.add_right_comm k 1] at hK

/-! ### The loop -/

/-- A state the loop of `rb_erase_fix` may end in, with the final value of `child`. -/
def FixDone (s₀ : RbState) (t₀ : ColorTree Ptr) (child : Ptr) (s : RbState) : Prop :=
  ∃ path t, child = rootPtr t ∧ Rebalanced s₀ t₀ s (plug path t) ∧
    (plug path (t.recolor .black)).RedBlack

theorem AlmostRedBlack.redBlack {t : ColorTree Ptr} (h : AlmostRedBlack t) :
    (t.recolor .black).RedBlack := by
  cases t with
  | nil => exact redBlack_iff.mpr ⟨rfl, trivial, 0, rfl⟩
  | node c l a r => exact h.recolor

/-- One iteration, for a deficient child on the side `d`. -/
theorem ensures_eraseFixSide {s₀ s : RbState} {t₀ : ColorTree Ptr} {d : Side} {c : Color}
    {p : Ptr} {B t : ColorTree Ptr} {up : TreePath Ptr} {next : Ptr → Ptr → RbM Ptr}
    (h : Rebalanced s₀ t₀ s (plug (⟨d, c, p, B⟩ :: up) t))
    (hdef : Deficient (⟨d, c, p, B⟩ :: up) t) (ht : t.color = .black)
    (hnext : ∀ {s' : RbState} {up' : TreePath Ptr} {t' : ColorTree Ptr},
      Rebalanced s₀ t₀ s' (plug up' t') → Deficient up' t' → rootPtr t' = p →
      (t'.color = .red ∨ up'.length ≤ up.length) →
      Ensures (next p (topPtr up')) s' (FixDone s₀ t₀)) :
    Ensures (eraseFixSide d next p) s (FixDone s₀ t₀) := by
  rw [eraseFixSide, ensures_bind]
  refine (ensures_blackSibling h hdef).mono ?_
  rintro _ s₁ ⟨c', B', up', rfl, hBc, h₁, hdef₁, hlen⟩
  obtain ⟨cb, b₁, b, b₂, rfl⟩ := hdef₁.exists_sibling (e := d)
  simp only [color_sided] at hBc
  subst hBc
  have hP : Rebalanced s₀ t₀ s₁ (plug up' (sided d c' t p (sided d .black b₁ b b₂))) := h₁
  have hB : Rebalanced s₀ t₀ s₁
      (plug (⟨d.flip, c', p, t⟩ :: up') (sided d .black b₁ b b₂)) := by
    rw [plug_cons, TreeFrame.attach_mk, sided_flip]
    exact h₁
  have hB₁ : Rebalanced s₀ t₀ s₁
      (plug (⟨d, .black, b, b₂⟩ :: ⟨d.flip, c', p, t⟩ :: up') b₁) := hB
  have hB₂ : Rebalanced s₀ t₀ s₁
      (plug (⟨d.flip, .black, b, b₁⟩ :: ⟨d.flip, c', p, t⟩ :: up') b₂) := by
    rw [plug_cons, TreeFrame.attach_mk, sided_flip]
    exact hB
  obtain ⟨hpa, hnp, -⟩ := hP.repr.focus
  obtain ⟨hba, hnb, -⟩ := hB.repr.focus
  simp only [rootPtr_sided, ensures_bind, (ensures_child_of_node hnb).1,
    (ensures_child_of_node hnb).2, ensures_rbBlack hB₁.repr, ensures_rbBlack hB₂.repr,
    decide_eq_true_eq]
  refine ⟨hba.1, hba.1, ?_⟩
  by_cases hcc : b₁.color = .black ∧ b₂.color = .black
  · simp only [hcc, and_self, if_true, ensures_bind]
    refine (hB.setColor .red).mono fun _ s₂ h₂ => ?_
    rw [plug_cons, TreeFrame.attach_mk, sided_flip] at h₂
    obtain ⟨-, hnp₂, htop⟩ := h₂.repr.focus
    rw [ensures_rbParent, hnp₂, sidedNode_parent, packed_and_not_one htop]
    refine ⟨hpa.1, hnext h₂ (hdef₁.climb ht hcc.1 hcc.2) (rootPtr_sided _ _ _ _ _) ?_⟩
    rw [color_sided]
    exact hlen
  · simp only [hcc, if_false, ensures_bind]
    refine (ensures_redNephew h₁ hdef₁ hcc).mono ?_
    rintro b' s₂ ⟨n₁, n₂, h₂, hdef₂, hn₂⟩
    have hP₂ : Rebalanced s₀ t₀ s₂ (plug up' (sided d c' t p (sided d .black n₁ b' n₂))) := h₂
    have hB₂ : Rebalanced s₀ t₀ s₂
        (plug (⟨d.flip, c', p, t⟩ :: up') (sided d .black n₁ b' n₂)) := by
      rw [plug_cons, TreeFrame.attach_mk, sided_flip]
      exact h₂
    rw [ensures_rbColor hP₂.repr]
    refine (hB₂.setColor c').mono fun _ s₃ h₃ => ?_
    rw [plug_cons, TreeFrame.attach_mk, sided_flip] at h₃
    refine (h₃.setColor .black).mono fun _ s₄ h₄ => ?_
    obtain ⟨cn, l, n, r, rfl⟩ : ∃ cn l n r, n₂ = node cn l n r := by
      cases n₂ with
      | nil => simp at hn₂
      | node cn l n r => exact ⟨cn, l, n, r, rfl⟩
    -- the far nephew, red until now, is painted black before the rotation
    have hB₄ : Rebalanced s₀ t₀ s₄
        (plug (⟨d.flip, .black, p, t⟩ :: up') (sided d c' n₁ b' (node cn l n r))) := by
      rw [plug_cons, TreeFrame.attach_mk, sided_flip]
      exact h₄
    have hN₄ : Rebalanced s₀ t₀ s₄ (plug (⟨d.flip, c', b', n₁⟩ :: ⟨d.flip, .black, p, t⟩ :: up')
        (sided .left cn l n r)) := by
      rw [plug_cons, TreeFrame.attach_mk, sided_flip]
      exact hB₄
    obtain ⟨hba₄, hnb₄, -⟩ := hB₄.repr.focus
    obtain ⟨hna₄, -, -⟩ := hN₄.repr.focus
    rw [(ensures_child_of_node hnb₄).2]
    refine ⟨hba₄.1, ?_⟩
    simp only [rootPtr_node, ne_eq, hna₄.1, not_false_eq_true, if_true, ensures_bind,
      (ensures_child_of_node hnb₄).2]
    refine ⟨hba₄.1, ?_⟩
    refine (hN₄.setColor .black).mono fun _ s₅ h₅ => ?_
    rw [plug_cons, TreeFrame.attach_mk, sided_flip] at h₅
    have hP₅ : Rebalanced s₀ t₀ s₅
        (plug up' (sided d .black t p (sided d c' n₁ b' (node .black l n r)))) := by
      rw [← sided_flip]
      exact h₅
    refine hP₅.rotate.mono fun _ s₆ h₆ => ?_
    rw [ensures_root]
    exact ⟨[], _, h₆.repr.root, h₆, (hdef₂.rotated ht hn₂).redBlack⟩

/-- **The loop of `rb_erase_fix`.** From a deficient state it ends without a null dereference,
and a black node at the final `child` makes the tree red-black. -/
theorem ensures_eraseFixLoop {s₀ s : RbState} {t₀ : ColorTree Ptr} :
    ∀ {fuel : ℕ} {path : TreePath Ptr} {t : ColorTree Ptr},
      (t.color = .red ∧ 0 < fuel ∨ path.length < fuel) →
      Rebalanced s₀ t₀ s (plug path t) → Deficient path t →
      Ensures (eraseFixLoop fuel (rootPtr t) (topPtr path)) s (FixDone s₀ t₀) := by
  intro fuel
  induction fuel generalizing s with
  | zero => rintro path t (⟨-, hf⟩ | hf) <;> exact absurd hf (Nat.not_lt_zero _)
  | succ fuel ih =>
    intro path t hf h hdef
    simp only [eraseFixLoop, ensures_bind, ensures_rbBlack h.repr, ensures_root,
      decide_eq_true_eq]
    by_cases hend : t.color = .red ∨ path = []
    · have hguard : ¬(t.color = .black ∧ rootPtr t ≠ s.root) := by
        rintro ⟨hc, hroot⟩
        rcases hend with hr | rfl
        · exact absurd (hc.symm.trans hr) (by decide)
        · exact hroot h.repr.root.symm
      rw [if_neg hguard, ensures_pure]
      exact ⟨path, t, rfl, h, hdef.redBlack hend⟩
    · rw [not_or] at hend
      have ht : t.color = .black := Color.ne_red.mp hend.1
      obtain ⟨⟨d, c, p, B⟩, up, rfl⟩ : ∃ f up, path = f :: up := by
        cases path with
        | nil => exact absurd rfl hend.2
        | cons f up => exact ⟨f, up, rfl⟩
      have hP : Represents s (plug up (sided d c t p B)) := h.repr
      obtain ⟨hpa, hnp, -⟩ := hP.focus
      rw [if_pos ⟨ht, h.repr.rootPtr_ne_root (by simp)⟩]
      simp only [topPtr_cons, ensures_bind, ensures_left]
      refine ⟨hpa.1, ?_⟩
      have hbody : Ensures (eraseFixSide d (eraseFixLoop fuel) p) s (FixDone s₀ t₀) := by
        refine ensures_eraseFixSide h hdef ht fun {s' up' t'} h' hdef' hp' hlen => ?_
        subst hp'
        refine ih ?_ h' hdef'
        simp only [List.length_cons] at hf
        rcases hf with hf | hf
        · exact absurd (ht.symm.trans hf.1) (by decide)
        · rcases hlen with hlen | hlen
          · exact Or.inl ⟨hlen, by omega⟩
          · exact Or.inr (by omega)
      cases d with
      | left =>
        rw [if_pos (by rw [hnp]; rfl)]
        exact hbody
      | right =>
        -- the sibling is not null, so it is not mistaken for an empty child
        have hne : rootPtr t ≠ (s.node p).left := by
          obtain ⟨cb, b₁, b, b₂, hB⟩ := hdef.exists_sibling (e := .left)
          have hndP := (nodup_inorder_plug.mp hP.nodup).2.1
          rw [nodup_inorder_sided] at hndP
          have hlB := (linked_sided.mp (represents_plug.mp hP).2.2.1).2.2.2
          rw [hnp]
          exact rootPtr_ne_of_disjoint hlB (by rw [hB]; simp) hndP.2.2.2.2
        rw [if_neg hne]
        exact hbody

theorem ensures_rbEraseFix {s₀ s : RbState} {t₀ : ColorTree Ptr} {fuel : ℕ}
    {path : TreePath Ptr} {t : ColorTree Ptr} (hf : path.length < fuel)
    (h : Rebalanced s₀ t₀ s (plug path t)) (hdef : Deficient path t) :
    Ensures (rbEraseFix fuel (rootPtr t) (topPtr path)) s fun _ s' =>
      ∃ t', Rebalanced s₀ t₀ s' t' ∧ t'.RedBlack := by
  rw [rbEraseFix, ensures_bind]
  refine (ensures_eraseFixLoop (Or.inr hf) h hdef).mono ?_
  rintro _ s₁ ⟨path₁, t₁, rfl, h₁, hrb⟩
  cases t₁ with
  | nil =>
    simp only [rootPtr_nil, ne_eq, not_true_eq_false, if_false, ensures_pure]
    exact ⟨_, h₁, hrb⟩
  | node c l a r =>
    have ha : a ≠ 0#64 := (Represents.focus (d := .left) h₁.repr).1.1
    simp only [rootPtr_node, ne_eq, ha, not_false_eq_true, if_true]
    exact (Rebalanced.setColor (d := .left) .black h₁).mono fun _ s₂ h₂ => ⟨_, h₂, hrb⟩

end Rb

end Kernel64
