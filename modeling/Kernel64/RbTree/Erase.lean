import Kernel64.RbTree.EraseFix

/-!
# Removal from a red-black tree

`rb_erase` takes a node with at most one child out of its position. A node with two children
is replaced by its successor, the leftmost node of its right subtree, which is taken out of
its own position first. `Unlinked` is the state in between: the tree without the node, and the
position that may be one black node short. From there `rb_erase_fix` finishes
(`ensures_rbErase`).
-/

namespace Kernel64

open ColorTree

namespace Rb

/-! ### The leftmost node -/

/-- The loop of `rb_leftmost` finds the last node of the left spine and changes nothing. -/
theorem ensures_leftmostLoop {s : RbState} :
    ∀ {fuel : ℕ} {path : TreePath Ptr} {t : ColorTree Ptr}, t ≠ .nil →
      t.inorder.length < fuel → Represents s (plug path t) →
      Ensures (leftmostLoop fuel (rootPtr t)) s fun x s' =>
        s' = s ∧ ∃ q c r, t = plug q (node c .nil x r) ∧ ∀ f ∈ q, f.side = .left := by
  intro fuel
  induction fuel with
  | zero => intro path t _ hf; exact absurd hf (Nat.not_lt_zero _)
  | succ fuel ih =>
    intro path t hne hf h
    cases t with
    | nil => exact absurd rfl hne
    | node c l a r =>
      obtain ⟨ha, hn, -⟩ := Represents.focus (d := .left) h
      have hL : Represents s (plug (⟨.left, c, a, r⟩ :: path) l) := h
      simp only [leftmostLoop, rootPtr_node, ensures_bind, ensures_left, hn, sidedNode]
      refine ⟨ha.1, ?_⟩
      by_cases hl : l = .nil
      · subst hl
        simp only [rootPtr_nil, ne_eq, not_true_eq_false, if_false, ensures_pure]
        exact ⟨trivial, [], c, r, rfl, by simp⟩
      · have h0 : rootPtr l ≠ 0#64 := fun h0 =>
          hl ((rootPtr_eq_zero (represents_plug.mp hL).2.2.1).mp h0)
        simp only [ne_eq, h0, not_false_eq_true, if_true, ensures_bind, ensures_left, hn,
          sidedNode]
        refine ⟨ha.1, (ih hl ?_ hL).mono ?_⟩
        · simp only [inorder_node, List.length_append, List.length_cons] at hf
          omega
        · rintro x s' ⟨rfl, q, cx, xr, rfl, hq⟩
          refine ⟨rfl, q ++ [⟨.left, c, a, r⟩], cx, xr, by rw [plug_append]; rfl, ?_⟩
          intro f hf'
          rcases List.mem_append.mp hf' with hf' | hf'
          · exact hq f hf'
          · rw [List.mem_singleton.mp hf']

/-! ### The gap a removal leaves -/

/-- The position `path` with the subtree `t`, where a node of colour `c` with the only subtree
`t` has been taken out of a red-black tree. -/
structure Gap (path : TreePath Ptr) (t : ColorTree Ptr) (c : Color) : Prop where
  focus : t.NoRedRed
  ancestors : TreePath.NoRedRed path c
  root : TreePath.rootColor path c = .black
  child : c = .red → t.color = .black
  balanced : ∃ k K, t.BlackHeight k ∧ TreePath.BlackHeight path (k + c.count) K

theorem Gap.of_redBlack {path : TreePath Ptr} {d : Side} {c : Color} {n : Ptr}
    {t : ColorTree Ptr} (h : (plug path (sided d c t n .nil)).RedBlack) : Gap path t c := by
  obtain ⟨hroot, hrr, K, hK⟩ := redBlack_iff.mp h
  obtain ⟨k, hk, hpK⟩ := blackHeight_plug.mp hK
  obtain ⟨hnrr, hprr⟩ := noRedRed_plug.mp hrr
  obtain ⟨hc, ht, -⟩ := noRedRed_sided.mp hnrr
  obtain ⟨j, rfl, hj, -⟩ := blackHeight_sided.mp hk
  rw [color_plug, color_sided] at hroot
  rw [color_sided] at hprr
  exact ⟨ht, hprr, hroot, fun hcr => (hc hcr).1, j, K, hj, hpK⟩

section Relabel

variable {path : TreePath Ptr} {d : Side} {c' : Color} {n x : Ptr} {L : ColorTree Ptr}

theorem TreePath.NoRedRed.relabel (q : TreePath Ptr) {b : Color}
    (h : TreePath.NoRedRed (q ++ ⟨d, c', n, L⟩ :: path) b) :
    TreePath.NoRedRed (q ++ ⟨d, c', x, L⟩ :: path) b := by
  induction q generalizing b with
  | nil => exact h
  | cons f q ih => exact ⟨h.1, h.2.1, ih h.2.2⟩

theorem TreePath.rootColor_relabel (q : TreePath Ptr) (b : Color) :
    TreePath.rootColor (q ++ ⟨d, c', x, L⟩ :: path) b
      = TreePath.rootColor (q ++ ⟨d, c', n, L⟩ :: path) b := by
  induction q generalizing b with
  | nil => rfl
  | cons f q ih => exact ih _

theorem TreePath.BlackHeight.relabel (q : TreePath Ptr) {k K : ℕ}
    (h : TreePath.BlackHeight (q ++ ⟨d, c', n, L⟩ :: path) k K) :
    TreePath.BlackHeight (q ++ ⟨d, c', x, L⟩ :: path) k K := by
  induction q generalizing k with
  | nil => exact h
  | cons f q ih => exact ⟨h.1, ih h.2⟩

/-- The conditions on a gap are about colours only. -/
theorem Gap.relabel {q : TreePath Ptr} {c : Color} {t : ColorTree Ptr}
    (h : Gap (q ++ ⟨d, c', n, L⟩ :: path) t c) : Gap (q ++ ⟨d, c', x, L⟩ :: path) t c := by
  obtain ⟨k, K, hk, hK⟩ := h.balanced
  exact ⟨h.focus, TreePath.NoRedRed.relabel q h.ancestors,
    (TreePath.rootColor_relabel q c).trans h.root, h.child, k, K, hk,
    TreePath.BlackHeight.relabel q hK⟩

end Relabel

/-- Taking out a red node breaks nothing. -/
theorem Gap.redBlack {path : TreePath Ptr} {t : ColorTree Ptr} (h : Gap path t .red) :
    (plug path t).RedBlack := by
  obtain ⟨k, K, hk, hK⟩ := h.balanced
  have hc : t.color = .black := h.child rfl
  refine redBlack_iff.mpr ⟨?_, noRedRed_plug.mpr ⟨h.focus, ?_⟩, K,
    blackHeight_plug.mpr ⟨k, hk, hK⟩⟩
  · have hroot := h.root
    cases path with
    | nil => exact hc
    | cons f path =>
      rw [color_plug]
      exact hroot
  · rw [hc]
    exact h.ancestors.black

/-- Taking out a black node leaves a deficient position. -/
theorem Gap.deficient {path : TreePath Ptr} {t : ColorTree Ptr} (h : Gap path t .black) :
    Deficient path t := by
  refine ⟨?_, h.ancestors, h.root, h.balanced⟩
  cases t with
  | nil => trivial
  | node c l a r => exact ⟨by simp, h.focus.2⟩

/-! ### Taking a node out -/

/-- What `rb_erase` has reached before it rebalances: `s'` holds the tree without the node `n`,
and nothing outside the old tree has changed. -/
structure Unlinked (s : RbState) (t₀ : ColorTree Ptr) (n : Ptr) (path : TreePath Ptr)
    (t : ColorTree Ptr) (s' : RbState) : Prop where
  repr : Represents s' (plug path t)
  inorder : (plug path t).inorder = t₀.inorder.erase n
  frame : ∀ a ∉ t₀.inorder, s'.node a = s.node a

/-- Removing a label from the middle of an in-order sequence without duplicates. -/
theorem erase_inorder_plug {path : TreePath Ptr} {d : Side} {c : Color} {n : Ptr}
    {l r t : ColorTree Ptr} (hnd : (plug path (sided d c l n r)).inorder.Nodup)
    (ht : t.inorder = (sided d c l n r).inorder.erase n) :
    (plug path t).inorder = (plug path (sided d c l n r)).inorder.erase n := by
  obtain ⟨hnp, -, -⟩ := nodup_focus hnd
  have hnb : n ∉ TreePath.before path := fun hm => hnp (List.mem_append_left _ hm)
  rw [inorder_plug, inorder_plug, ht, List.append_assoc, List.append_assoc,
    List.erase_append_right _ hnb,
    List.erase_append_left _ (mem_inorder_sided.mpr (Or.inl rfl))]

/-- A node with at most one child, `t`. -/
theorem ensures_unlink_single {s : RbState} {path : TreePath Ptr} {d : Side} {c : Color}
    {n : Ptr} {t : ColorTree Ptr} (h : Represents s (plug path (sided d c t n .nil))) :
    Ensures (do reparent (rootPtr t) (topPtr path); replaceChild (← rbParent n) n (rootPtr t))
      s fun _ s' => Unlinked s (plug path (sided d c t n .nil)) n path t s' := by
  obtain ⟨hna, hnn, htop⟩ := h.focus
  obtain ⟨hroot, hpath, ht, hnd⟩ := represents_plug.mp h
  obtain ⟨-, -, ht, -⟩ := linked_sided.mp ht
  obtain ⟨hnp, hnt, -⟩ := nodup_focus hnd
  obtain ⟨hndp, hndt, hdisj⟩ := nodup_inorder_plug.mp hnd
  rw [rootPtr_sided] at hroot hpath
  have hin : (plug path t).inorder = (plug path (sided d c t n .nil)).inorder.erase n := by
    refine erase_inorder_plug hnd ?_
    cases d <;> simp [List.erase_append_right _ hnt]
  rw [ensures_bind]
  refine (ensures_reparent (p := topPtr path) ht hna.2
    (nodup_inorder_sided.mp hndt).2.2.1).mono ?_
  rintro - s₁ ⟨hr₁, ht₁, hf₁⟩
  have hpt : ∀ a ∈ TreePath.labels path, a ∉ t.inorder := fun a ha hat =>
    hdisj (mem_inorder_sided.mpr (Or.inr (Or.inl hat))) ha
  have hpath₁ : LinkedPath s₁.node n path :=
    (linkedPath_congr fun a ha => hf₁ a (hpt a ha)).mpr hpath
  simp only [ensures_bind, ensures_rbParent, hf₁ n hnt, hnn, sidedNode_parent,
    packed_and_not_one htop]
  refine ⟨hna.1, ?_⟩
  refine (ensures_replaceChild (hr₁.trans hroot) hpath₁ hna.1 hnp hndp).mono ?_
  rintro - s₂ ⟨hr₂, hpath₂, hf₂⟩
  refine ⟨represents_plug.mpr ⟨hr₂, hpath₂, ?_, hin ▸ hnd.erase n⟩, hin, fun a ha => ?_⟩
  · exact (linked_congr fun a ha => hf₂ a fun hp => hpt a hp ha).mpr ht₁
  · rw [mem_inorder_plug, not_or, mem_inorder_sided, not_or, not_or] at ha
    rw [hf₂ a ha.1, hf₁ a ha.2.2.1]

/-! ### Putting the successor in the node's place -/

/-- The last step of both cases with two children: the pointer to `n` becomes one to `x`, which
already holds the contents of `n`. -/
theorem ensures_substitute {s u : RbState} {t : ColorTree Ptr} {path : TreePath Ptr}
    {c : Color} {n x : Ptr} {L R : ColorTree Ptr} (hxa : NodeAddr x) (hn : n ≠ 0#64)
    (hroot : s.root = pathRoot path n) (hpath : LinkedPath s.node n path)
    (hx : s.node x = ⟨rootPtr L, rootPtr R, topPtr path ||| c.bit⟩)
    (hL : Linked s.node x L) (hR : Linked s.node x R)
    (hnp : n ∉ TreePath.labels path) (hnd : (plug path (node c L x R)).inorder.Nodup)
    (hin : (plug path (node c L x R)).inorder = t.inorder.erase n)
    (hf : ∀ a ∉ t.inorder, s.node a = u.node a) :
    Ensures (replaceChild (topPtr path) n x) s fun _ s' =>
      Represents s' (plug path (node c L x R)) ∧ ∀ a ∉ t.inorder, s'.node a = u.node a := by
  obtain ⟨hndp, -, hdisj⟩ := nodup_inorder_plug.mp hnd
  have hout : ∀ a ∈ (node c L x R).inorder, a ∉ TreePath.labels path := fun a ha => hdisj ha
  refine (ensures_replaceChild (y := x) hroot hpath hn hnp hndp).mono ?_
  rintro - s₁ ⟨hr₁, hpath₁, hf₁⟩
  refine ⟨represents_plug.mpr ⟨hr₁, hpath₁, ⟨hxa, ?_, ?_, ?_⟩, hnd⟩, fun a ha => ?_⟩
  · rw [hf₁ x (hout x (by simp)), hx]
  · exact (linked_congr fun a ha => hf₁ a (hout a (by simp [ha]))).mpr hL
  · exact (linked_congr fun a ha => hf₁ a (hout a (by simp [ha]))).mpr hR
  · rw [hf₁ a, hf a ha]
    intro hap
    refine ha (List.mem_of_mem_erase (b := n) ?_)
    rw [← hin]
    exact mem_inorder_plug.mpr (Or.inl hap)

/-- In-order, the successor directly follows the node. -/
theorem inorder_plug_left {q : TreePath Ptr} (hq : ∀ f ∈ q, f.side = .left) {c : Color}
    {x : Ptr} {r : ColorTree Ptr} :
    (plug q (node c .nil x r)).inorder = x :: (plug q r).inorder := by
  have hb : TreePath.before q = [] := by
    induction q with
    | nil => rfl
    | cons f q ih =>
      have hf := hq f (by simp)
      rcases f with ⟨_ | _, c, a, t⟩
      · exact ih fun g hg => hq g (by simp [hg])
      · simp at hf
  rw [inorder_plug, inorder_plug, hb]
  simp

theorem erase_inorder_successor {path : TreePath Ptr} {q : TreePath Ptr} {c cx : Color}
    {n x : Ptr} {L xr : ColorTree Ptr} (hq : ∀ f ∈ q, f.side = .left)
    (hnd : (plug path (node c L n (plug q (node cx .nil x xr)))).inorder.Nodup) :
    (plug path (node c L x (plug q xr))).inorder
      = (plug path (node c L n (plug q (node cx .nil x xr)))).inorder.erase n := by
  obtain ⟨-, hnL, -⟩ := nodup_focus (d := .left) hnd
  refine erase_inorder_plug (d := .left) hnd ?_
  simp only [sided_left, inorder_node, inorder_plug_left hq]
  rw [List.erase_append_right _ hnL, List.erase_cons_head]

/-- The result of `unlink`, once the pointer to the node has been replaced. -/
def UnlinkDone (s₀ : RbState) (t₀ : ColorTree Ptr) (n : Ptr) (r : Ptr × Ptr × Ptr × Color)
    (s : RbState) : Prop :=
  ∃ path t, r.1 = topPtr path ∧ r.2.1 = rootPtr t ∧ Unlinked s₀ t₀ n path t s ∧
    (t₀.RedBlack → Gap path t r.2.2.2)

/-- A node whose successor is its right child. -/
theorem ensures_unlink_child {s : RbState} {path : TreePath Ptr} {c cx : Color} {n x : Ptr}
    {L xr : ColorTree Ptr}
    (h : Represents s (plug path (node c L n (node cx .nil x xr)))) (hL : L ≠ .nil) :
    Ensures (do
        setLeft x (← left n)
        setParentWord x (← load n).parent
        rbSetParent (← left x) x
        replaceChild (← rbParent n) n x) s fun _ s' =>
      UnlinkDone s (plug path (node c L n (node cx .nil x xr))) n (x, rootPtr xr, x, cx) s' := by
  obtain ⟨hna, hnn, htop⟩ := Represents.focus (d := .left) h
  have hX : Represents s (plug (⟨.right, c, n, L⟩ :: path) (node cx .nil x xr)) := h
  obtain ⟨hxa, hnx, -⟩ := Represents.focus (d := .left) hX
  obtain ⟨hroot, hpath, ⟨-, -, hlL, -, -, -, hlx⟩, hnd⟩ := represents_plug.mp h
  obtain ⟨hnp, hnL, -⟩ := nodup_focus (d := .left) hnd
  obtain ⟨hxp, -, hxr⟩ := nodup_focus (d := .left) hX.nodup
  rw [TreePath.mem_labels_cons, not_or, not_or] at hxp
  obtain ⟨hxn, hxL, hxp⟩ := hxp
  simp only at hxn hxL
  obtain ⟨-, hndn, hdisj⟩ := nodup_inorder_plug.mp hnd
  rw [← sided_left, nodup_inorder_sided] at hndn
  have hL0 : rootPtr L ≠ 0#64 := fun h0 => hL ((rootPtr_eq_zero hlL).mp h0)
  simp only [sidedNode, rootPtr_node, rootPtr_nil] at hnn hnx
  have hin := erase_inorder_successor (q := []) (by simp) hnd
  simp only [plug_nil] at hin
  simp only [ensures_bind, ensures_left, ensures_setLeft, ensures_load, ensures_setParentWord,
    put_node_self, put_put, hnn, hnx, put_node_of_ne _ _ (Ne.symm hxn)]
  refine ⟨hna.1, hxa.1, hna.1, hxa.1, hxa.1, ?_⟩
  set s₁ := s.put x ⟨rootPtr L, rootPtr xr, topPtr path ||| c.bit⟩ with hs₁
  have hrep := ensures_reparent (s := s₁) (p := x) ((linked_update hxL).mpr hlL) hna.2
    hndn.2.2.1
  rw [reparent, if_pos hL0] at hrep
  refine hrep.mono ?_
  rintro - s₂ ⟨hr₂, hlL₂, hf₂⟩
  have hnL₂ : s₂.node n = s.node n := by
    rw [hf₂ n hnL, hs₁, put_node_of_ne _ _ (Ne.symm hxn)]
  have hpL : ∀ a ∈ TreePath.labels path, a ∉ L.inorder := fun a ha haL =>
    hdisj (by simp [haL]) ha
  have hxrL : ∀ a ∈ xr.inorder, a ∉ L.inorder := fun a ha haL =>
    hndn.2.2.2.2 haL (by simp [ha])
  rw [ensures_rbParent, hnL₂, hnn, packed_and_not_one htop]
  refine ⟨hna.1, ?_⟩
  refine (ensures_substitute (u := s) hxa hna.1 (hr₂.trans hroot) ?_ ?_ hlL₂ ?_ hnp
    (hin ▸ hnd.erase n) hin ?_).mono ?_
  · refine (linkedPath_congr fun a ha => ?_).mpr hpath
    rw [hf₂ a (hpL a ha), hs₁, put_node_of_ne _ _ (ne_of_mem_of_not_mem ha hxp)]
  · rw [hf₂ x hxL, hs₁, put_node_self]
  · refine (linked_congr fun a ha => ?_).mpr hlx
    rw [hf₂ a (hxrL a ha), hs₁, put_node_of_ne _ _ (ne_of_mem_of_not_mem ha hxr)]
  · intro a ha
    simp only [mem_inorder_plug, inorder_node, List.mem_append, List.mem_cons, not_or] at ha
    rw [hf₂ a ha.2.1, hs₁, put_node_of_ne _ _ ha.2.2.2.2.1]
  · rintro - s₃ ⟨h₃, hf₃⟩
    refine ⟨⟨.right, c, x, L⟩ :: path, xr, rfl, rfl, ⟨h₃, hin, hf₃⟩, fun hrb => ?_⟩
    have hgap : Gap (⟨.right, c, n, L⟩ :: path) xr cx :=
      Gap.of_redBlack (d := .right) (n := x) hrb
    exact Gap.relabel (q := []) hgap

/-- The first step when the successor `x` is deeper: it has been overwritten, and its parent
`p` takes its right subtree. -/
theorem ensures_cutSuccessor {s : RbState} {q : TreePath Ptr} {cp cx : Color} {p x : Ptr}
    {sib xr : ColorTree Ptr} {w : RbNode}
    (h : Represents s (plug (⟨.left, cp, p, sib⟩ :: q) (node cx .nil x xr))) :
    Ensures (do setLeft p (rootPtr xr); reparent (rootPtr xr) p) (s.put x w) fun _ s' =>
      Linked s'.node 0#64 (plug (⟨.left, cp, p, sib⟩ :: q) xr) ∧ s'.root = s.root ∧
        s'.node x = w ∧
          ∀ a, a ∉ (plug (⟨.left, cp, p, sib⟩ :: q) (node cx .nil x xr)).inorder →
            s'.node a = s.node a := by
  obtain ⟨hxa, -, -⟩ := Represents.focus (d := .left) h
  obtain ⟨-, hpath, ⟨-, -, -, hlx⟩, hnd⟩ := represents_plug.mp h
  obtain ⟨hxp, -, hxr⟩ := nodup_focus (d := .left) hnd
  obtain ⟨hndp, hndx, hdisj⟩ := nodup_inorder_plug.mp hnd
  rw [← sided_left, nodup_inorder_sided] at hndx
  have hxnp : x ≠ p := fun hm => hxp (TreePath.mem_labels_cons.mpr (Or.inl hm))
  have hpx : p ∉ xr.inorder := fun hm =>
    hdisj (by simp [hm]) (TreePath.mem_labels_cons.mpr (Or.inl rfl))
  have hset := ensures_setChild_path (s := s.put x w) (y := rootPtr xr)
    ((linkedPath_update hxp).mpr hpath) hndp
  rw [ensures_bind]
  refine hset.mono ?_
  rintro - s₁ ⟨hr₁, hpath₁, hf₁⟩
  have hlx₁ : Linked s₁.node x xr := by
    refine (linked_congr fun a ha => ?_).mpr hlx
    rw [hf₁ a (ne_of_mem_of_not_mem ha hpx), put_node_of_ne _ _ (ne_of_mem_of_not_mem ha hxr)]
  refine (ensures_reparent (p := p) hlx₁ hxa.2 hndx.2.2.2.1).mono ?_
  rintro - s₂ ⟨hr₂, hlx₂, hf₂⟩
  refine ⟨linked_plug.mpr ⟨?_, hlx₂⟩, hr₂.trans hr₁, ?_, fun a ha => ?_⟩
  · exact (linkedPath_congr fun a ha => hf₂ a fun hax => hdisj (by simp [hax]) ha).mpr hpath₁
  · rw [hf₂ x hxr, hf₁ x hxnp, put_node_self]
  · simp only [mem_inorder_plug, TreePath.mem_labels_cons, inorder_node, List.mem_append,
      List.mem_cons, not_or] at ha
    rw [hf₂ a ha.2.2.2, hf₁ a ha.1.1, put_node_of_ne _ _ ha.2.2.1]

/-- A node whose successor is deeper in its right subtree. -/
theorem ensures_unlink_deeper {s : RbState} {path q : TreePath Ptr} {c cp cx : Color}
    {n p x : Ptr} {L sib xr : ColorTree Ptr}
    (hq : ∀ f ∈ q, f.side = .left)
    (h : Represents s
      (plug path (node c L n (plug (⟨.left, cp, p, sib⟩ :: q) (node cx .nil x xr)))))
    (hL : L ≠ .nil) :
    Ensures (do
        store x (← load n)
        setLeft p (rootPtr xr)
        reparent (rootPtr xr) p
        rbSetParent (← left x) x
        rbSetParent (← right x) x
        replaceChild (← rbParent n) n x) s fun _ s' =>
      UnlinkDone s
        (plug path (node c L n (plug (⟨.left, cp, p, sib⟩ :: q) (node cx .nil x xr)))) n
        (p, rootPtr xr, x, cx) s' := by
  set Q : TreePath Ptr := ⟨.left, cp, p, sib⟩ :: q with hQdef
  have hQ : ∀ f ∈ Q, f.side = .left := by
    intro f hf
    rcases List.mem_cons.mp hf with rfl | hf
    · rfl
    · exact hq f hf
  set t₀ := plug path (node c L n (plug Q (node cx .nil x xr))) with ht₀
  have hX : Represents s (plug (Q ++ ⟨.right, c, n, L⟩ :: path) (node cx .nil x xr)) := by
    rw [plug_append]
    exact h
  obtain ⟨hna, hnn, htop⟩ := Represents.focus (d := .left) h
  obtain ⟨hxa, -, -⟩ := Represents.focus (d := .left) hX
  have hin := erase_inorder_successor hQ h.nodup
  have hnd' : (plug path (node c L x (plug Q xr))).inorder.Nodup := hin ▸ h.nodup.erase n
  simp only [sidedNode] at hnn
  have hRroot : rootPtr (plug Q (node cx .nil x xr)) = rootPtr (plug Q xr) := by
    rw [rootPtr_plug, rootPtr_plug, hQdef]
    exact pathRoot_congr (by simp) _ _
  rw [hRroot] at hnn
  simp only [ensures_bind, ensures_load, ensures_store, hnn]
  refine ⟨hna.1, hxa.1, ?_⟩
  have hcut := ensures_cutSuccessor
    (w := ⟨rootPtr L, rootPtr (plug Q xr), topPtr path ||| c.bit⟩) hX
  rw [ensures_bind] at hcut
  refine hcut.mono fun _ s₁ hs₁ => hs₁.mono ?_
  rintro - s₂ ⟨hl₂, hr₂, hx₂, hf₂⟩
  -- the tree still holds `n`, over the right subtree without `x`
  have hcat : ∀ t, plug (Q ++ ⟨.right, c, n, L⟩ :: path) t = plug path (node c L n (plug Q t)) :=
    fun t => plug_append _ _ _
  obtain ⟨hpath₂, -, hn₂, hlL₂, hlR₂⟩ := linked_plug.mp ((hcat xr) ▸ hl₂ :
    Linked s₂.node 0#64 (plug path (node c L n (plug Q xr))))
  have hf₂' : ∀ a ∉ t₀.inorder, s₂.node a = s.node a := fun a ha => by
    refine hf₂ a fun hm => ha ?_
    rw [ht₀, ← hcat]
    exact hm
  -- the nodes of the new tree are distinct, and `n` is none of them
  obtain ⟨hroot, hpath, ⟨-, -, hlL, -⟩, hnd⟩ := represents_plug.mp h
  obtain ⟨hnp, hnL, hnR⟩ := nodup_focus (d := .left) hnd
  obtain ⟨-, hndn', hdisj'⟩ := nodup_inorder_plug.mp hnd'
  rw [← sided_left, nodup_inorder_sided] at hndn'
  obtain ⟨hxL, hxR, hLnd, hRnd, hLR⟩ := hndn'
  have hnR' : n ∉ (plug Q xr).inorder := by
    rw [inorder_plug_left hQ] at hnR
    exact fun hm => hnR (List.mem_cons_of_mem _ hm)
  have hL0 : rootPtr L ≠ 0#64 := fun h0 => hL ((rootPtr_eq_zero hlL₂).mp h0)
  have hR0 : rootPtr (plug Q xr) ≠ 0#64 := by
    intro h0
    have hnil := (rootPtr_eq_zero hlR₂).mp h0
    have hp : p ∈ (plug Q xr).inorder :=
      mem_inorder_plug.mpr (Or.inl (TreePath.mem_labels_cons.mpr (Or.inl rfl)))
    simp [hnil] at hp
  simp only [ensures_left, hx₂]
  refine ⟨hxa.1, ?_⟩
  have hrepL := ensures_reparent (p := x) hlL₂ hna.2 hLnd
  rw [reparent, if_pos hL0] at hrepL
  refine hrepL.mono ?_
  rintro - s₃ ⟨hr₃, hlL₃, hf₃⟩
  have hlR₃ : Linked s₃.node n (plug Q xr) :=
    (linked_congr fun a ha => hf₃ a fun haL => hLR haL ha).mpr hlR₂
  have hrepR := ensures_reparent (p := x) hlR₃ hna.2 hRnd
  rw [reparent, if_pos hR0] at hrepR
  simp only [ensures_right, hf₃ x hxL, hx₂]
  refine ⟨hxa.1, hrepR.mono ?_⟩
  rintro - s₄ ⟨hr₄, hlR₄, hf₄⟩
  rw [ensures_rbParent, hf₄ n hnR', hf₃ n hnL, hn₂, packed_and_not_one htop]
  refine ⟨hna.1, ?_⟩
  refine (ensures_substitute (u := s) (t := t₀) hxa hna.1 ?_ ?_ ?_ ?_ hlR₄ hnp hnd' hin
    ?_).mono ?_
  · rw [hr₄, hr₃, hr₂]
    exact hroot
  · refine (linkedPath_congr fun a ha => ?_).mpr hpath₂
    rw [hf₄ a fun haR => hdisj' (by simp [haR]) ha, hf₃ a fun haL => hdisj' (by simp [haL]) ha]
  · rw [hf₄ x hxR, hf₃ x hxL, hx₂]
  · exact (linked_congr fun a ha => hf₄ a fun haR => hLR ha haR).mpr hlL₃
  · intro a ha
    have ha' := ha
    rw [ht₀, mem_inorder_plug, inorder_node, List.mem_append, List.mem_cons,
      inorder_plug_left hQ, List.mem_cons] at ha
    simp only [not_or] at ha
    rw [hf₄ a ha.2.2.2.2, hf₃ a ha.2.1, hf₂' a ha']
  · rintro - s₅ ⟨h₅, hf₅⟩
    refine ⟨Q ++ ⟨.right, c, x, L⟩ :: path, xr, rfl, rfl, ⟨?_, ?_, hf₅⟩, fun hrb => ?_⟩
    · rw [plug_append]
      exact h₅
    · rw [plug_append]
      exact hin
    · refine Gap.relabel (n := n) (Gap.of_redBlack (d := .right) (n := x) ?_)
      rw [plug_append]
      exact hrb

/-! ### The whole operation -/

/-- `unlink` and the replacement of the pointer to the node, for any node of the tree. -/
theorem ensures_unlink {s : RbState} {path : TreePath Ptr} {c : Color} {n : Ptr}
    {L R : ColorTree Ptr} {fuel : ℕ} (h : Represents s (plug path (node c L n R)))
    (hfuel : (plug path (node c L n R)).inorder.length < fuel) :
    Ensures (unlink fuel n) s fun r s₁ =>
      Ensures (do replaceChild (← rbParent n) n r.2.2.1) s₁ fun _ s' =>
        UnlinkDone s (plug path (node c L n R)) n r s' := by
  obtain ⟨hna, hnn, htop⟩ := Represents.focus (d := .left) h
  obtain ⟨-, -, ⟨-, -, hlL, hlR⟩, hnd⟩ := represents_plug.mp h
  simp only [sidedNode] at hnn
  simp only [unlink, ensures_bind, ensures_left, ensures_right, hnn]
  refine ⟨hna.1, hna.1, ?_⟩
  by_cases hboth : L ≠ .nil ∧ R ≠ .nil
  · obtain ⟨hL, hR⟩ := hboth
    have hL0 : rootPtr L ≠ 0#64 := fun h0 => hL ((rootPtr_eq_zero hlL).mp h0)
    have hR0 : rootPtr R ≠ 0#64 := fun h0 => hR ((rootPtr_eq_zero hlR).mp h0)
    have hRep : Represents s (plug (⟨.right, c, n, L⟩ :: path) R) := h
    have hlen : R.inorder.length < fuel := by
      refine lt_of_le_of_lt ?_ hfuel
      rw [inorder_plug, inorder_node]
      simp only [List.length_append, List.length_cons]
      omega
    rw [if_pos ⟨hL0, hR0⟩]
    simp only [rbNext, hna.1, if_false, ensures_bind, ensures_right, hnn, ne_eq, hR0,
      not_false_eq_true, if_true, rbLeftmost]
    refine ⟨trivial, trivial, (ensures_leftmostLoop hR hlen hRep).mono ?_⟩
    rintro x s₁ ⟨rfl, q, cx, xr, rfl, hq⟩
    have hX : Represents s₁ (plug (q ++ ⟨.right, c, n, L⟩ :: path) (node cx .nil x xr)) := by
      rw [plug_append]
      exact h
    obtain ⟨hxa, hnx, htopx⟩ := Represents.focus (d := .left) hX
    simp only [sidedNode] at hnx
    rw [ensures_rbColor (d := .left) hX]
    simp only [hnx, hnn]
    refine ⟨hxa.1, trivial, ?_⟩
    cases q with
    | nil =>
      rw [if_pos (by rfl)]
      have hdone := ensures_unlink_child h hL
      simp only [ensures_bind, ensures_pure] at hdone ⊢
      exact hdone
    | cons f q =>
      have hfl := hq f (by simp)
      rcases f with ⟨d, cp, p, sib⟩
      simp only at hfl
      subst hfl
      -- the successor is not the right child, which is an ancestor of it
      have hxR : x ≠ rootPtr (plug (⟨.left, cp, p, sib⟩ :: q) (node cx .nil x xr)) := by
        intro hx
        obtain ⟨hxp, -, -⟩ := nodup_focus (d := .left) hX.nodup
        refine hxp (TreePath.mem_labels_append.mpr (Or.inl ?_))
        rw [hx, rootPtr_plug]
        exact pathRoot_mem_labels (by simp) _
      rw [if_neg hxR]
      have hdone := ensures_unlink_deeper (fun f hf => hq f (by simp [hf])) h hL
      simp only [ensures_bind, ensures_pure, ensures_rbParent, List.cons_append, topPtr_cons,
        hnx] at hdone htopx ⊢
      rw [packed_and_not_one htopx]
      exact ⟨hxa.1, hdone⟩
  · -- at most one child, which takes the place of the node
    have hguard : ¬(rootPtr L ≠ 0#64 ∧ rootPtr R ≠ 0#64) := by
      rintro ⟨hL, hR⟩
      exact hboth ⟨fun hL' => hL (by rw [hL']; rfl), fun hR' => hR (by rw [hR']; rfl)⟩
    rw [if_neg hguard]
    obtain ⟨d, t, hsided, hchild⟩ : ∃ d t, node c L n R = sided d c t n .nil ∧
        (if rootPtr L ≠ 0#64 then rootPtr L else rootPtr R) = rootPtr t := by
      by_cases hL : L = .nil
      · exact ⟨.right, R, by rw [hL]; rfl, by rw [hL]; rfl⟩
      · have hL0 : rootPtr L ≠ 0#64 := fun h0 => hL ((rootPtr_eq_zero hlL).mp h0)
        have hR : R = .nil := by
          by_contra hR
          exact hboth ⟨hL, hR⟩
        exact ⟨.left, L, by rw [hR]; rfl, by rw [if_pos hL0]⟩
    have hread : Ensures (leftOrRight n) s fun a s' => a = rootPtr t ∧ s' = s := by
      rw [← hchild, leftOrRight]
      by_cases hL0 : rootPtr L = 0#64 <;> simp [hL0, hna.1, hnn]
    simp only [ensures_bind, ensures_rbParent, ensures_rbColor (d := .left) h, hnn,
      packed_and_not_one htop]
    refine ⟨hna.1, hread.mono ?_⟩
    rintro _ _ ⟨rfl, rfl⟩
    rw [hsided] at h ⊢
    have hdone := ensures_unlink_single h
    simp only [ensures_bind, ensures_pure, ensures_rbParent] at hdone ⊢
    refine hdone.mono fun _ s₁ hr => ⟨hr.1, hr.2.mono fun _ s₂ h₂ => ?_⟩
    exact ⟨path, t, rfl, rfl, h₂, fun hrb => Gap.of_redBlack hrb⟩

/-- **Removal.** For every node of a red-black tree, `rb_erase` ends without a null
dereference in a red-black tree whose in-order sequence is the old one without that node. -/
theorem ensures_rbErase {s : RbState} {t : ColorTree Ptr} {n : Ptr} {fuel : ℕ}
    (h : Represents s t) (hrb : t.RedBlack) (hn : n ∈ t.inorder)
    (hfuel : t.inorder.length < fuel) :
    Ensures (rbErase fuel n) s fun _ s' =>
      ∃ t', Represents s' t' ∧ t'.RedBlack ∧ t'.inorder = t.inorder.erase n ∧
        ∀ a ∉ t.inorder, s'.node a = s.node a := by
  obtain ⟨path, c, L, R, rfl⟩ := exists_plug_of_mem hn
  rw [rbErase, ensures_bind]
  refine (ensures_unlink h hfuel).mono ?_
  rintro ⟨p, c', x, color⟩ s₁ hdone
  simp only [ensures_bind] at hdone ⊢
  refine hdone.mono fun r s₂ h₂ => h₂.mono ?_
  rintro - s₃ ⟨path', t', rfl, rfl, hun, hgap⟩
  cases color with
  | red =>
    simp only [reduceCtorEq, if_false, ensures_pure]
    exact ⟨_, hun.repr, (hgap hrb).redBlack, hun.inorder, hun.frame⟩
  | black =>
    simp only [if_true]
    have hlen : path'.length < fuel := by
      refine lt_of_le_of_lt ((TreePath.length_le_labels path').trans ?_) hfuel
      have h1 : (plug path' t').inorder.length ≤ (plug path (node c L n R)).inorder.length := by
        rw [hun.inorder]
        exact List.length_erase_le
      rw [inorder_plug] at h1
      simp only [TreePath.labels, List.length_append] at h1 ⊢
      omega
    refine (ensures_rbEraseFix hlen hun.repr.rebalanced_self (hgap hrb).deficient).mono ?_
    rintro - s₄ ⟨t₄, h₄, hrb₄⟩
    refine ⟨t₄, h₄.repr, hrb₄, h₄.inorder.trans hun.inorder, fun a ha => ?_⟩
    rw [h₄.frame a, hun.frame a ha]
    rw [hun.inorder]
    exact fun hm => ha (List.mem_of_mem_erase hm)

end Rb

end Kernel64
