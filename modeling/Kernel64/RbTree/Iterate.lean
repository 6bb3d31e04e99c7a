import Kernel64.RbTree.Erase

/-!
# Going through a tree in order

`rb_leftmost` gives the first node of the in-order sequence and `rb_next` the one after a node, or
null at the end; `rb_rightmost` and `rb_prev` are their mirror images. Both pairs are the
operations `extremeLoop d` and `rbStep d` of a direction `d`, and what is proved of these holds of
the order that starts on the side `d`.
-/

namespace Kernel64

open ColorTree

namespace Rb

/-- The first of a sequence of nodes, null if there is none. -/
def firstPtr (l : List Ptr) : Ptr := l.headD 0#64

@[simp] theorem firstPtr_nil : firstPtr [] = 0#64 := rfl

@[simp] theorem firstPtr_cons (a : Ptr) (l : List Ptr) : firstPtr (a :: l) = a := rfl

/-! ### Both directions at once -/

/-- The loop of `rb_leftmost` or `rb_rightmost`. -/
def extremeLoop (d : Side) : ℕ → Ptr → RbM Ptr
  | 0, _ => throw .fuel
  | fuel + 1, x => do
    if (← child d x) ≠ 0#64 then extremeLoop d fuel (← child d x) else return x

/-- The climbing loop of `rb_next` or `rb_prev`. -/
def climbLoop (d : Side) : ℕ → Ptr → Ptr → RbM Ptr
  | 0, _, _ => throw .fuel
  | fuel + 1, x, p => do
    if p = 0#64 then return p
    if (← child d.flip p) = x then climbLoop d fuel p (← rbParent p) else return p

/-- `rb_leftmost` or `rb_rightmost`. -/
def rbExtreme (d : Side) (fuel : ℕ) (x : Ptr) : RbM Ptr :=
  if x = 0#64 then return 0#64 else extremeLoop d fuel x

/-- `rb_next` or `rb_prev`. -/
def rbStep (d : Side) (fuel : ℕ) (x : Ptr) : RbM Ptr := do
  if x = 0#64 then return 0#64
  if (← child d.flip x) ≠ 0#64 then rbExtreme d fuel (← child d.flip x)
  else climbLoop d fuel x (← rbParent x)

theorem leftmostLoop_eq (fuel : ℕ) : leftmostLoop fuel = extremeLoop .left fuel := by
  induction fuel with
  | zero => rfl
  | succ fuel ih => funext x; simp only [leftmostLoop, extremeLoop, child, ih]

theorem rightmostLoop_eq (fuel : ℕ) : rightmostLoop fuel = extremeLoop .right fuel := by
  induction fuel with
  | zero => rfl
  | succ fuel ih => funext x; simp only [rightmostLoop, extremeLoop, child, ih]

theorem nextLoop_eq (fuel : ℕ) : nextLoop fuel = climbLoop .left fuel := by
  induction fuel with
  | zero => rfl
  | succ fuel ih => funext x p; simp only [nextLoop, climbLoop, Side.flip_left, child, ih]

theorem prevLoop_eq (fuel : ℕ) : prevLoop fuel = climbLoop .right fuel := by
  induction fuel with
  | zero => rfl
  | succ fuel ih => funext x p; simp only [prevLoop, climbLoop, Side.flip_right, child, ih]

theorem rbLeftmost_eq (fuel : ℕ) : rbLeftmost fuel = rbExtreme .left fuel := by
  funext x; simp only [rbLeftmost, rbExtreme, leftmostLoop_eq]

theorem rbRightmost_eq (fuel : ℕ) : rbRightmost fuel = rbExtreme .right fuel := by
  funext x; simp only [rbRightmost, rbExtreme, rightmostLoop_eq]

theorem rbNext_eq (fuel : ℕ) : rbNext fuel = rbStep .left fuel := by
  funext x
  simp only [rbNext, rbStep, Side.flip_left, child, rbLeftmost_eq, nextLoop_eq]

theorem rbPrev_eq (fuel : ℕ) : rbPrev fuel = rbStep .right fuel := by
  funext x
  simp only [rbPrev, rbStep, Side.flip_right, child, rbRightmost_eq, prevLoop_eq]

section

variable {s : RbState} {d : Side}

/-- Going down on one side ends at the first node on that side. -/
theorem ensures_extremeLoop :
    ∀ {fuel : ℕ} {path : TreePath Ptr} {t : ColorTree Ptr}, t ≠ .nil →
      t.inorder.length < fuel → Represents s (plug path t) →
      Ensures (extremeLoop d fuel (rootPtr t)) s fun r s' =>
        s' = s ∧ r = firstPtr (t.inorderFrom d) := by
  intro fuel
  induction fuel with
  | zero => intro path t _ hf; exact absurd hf (Nat.not_lt_zero _)
  | succ fuel ih =>
    intro path t hne hf h
    cases t with
    | nil => exact absurd rfl hne
    | node c l a r =>
      obtain ⟨n, f, hsided⟩ := exists_sided d c l a r
      rw [hsided] at h hf ⊢
      obtain ⟨ha, hn, -⟩ := h.focus
      have hN : Represents s (plug (⟨d, c, a, f⟩ :: path) n) := h
      rw [extremeLoop, rootPtr_sided, inorderFrom_sided, ensures_bind,
        (ensures_child_of_node hn).1]
      refine ⟨ha.1, ?_⟩
      by_cases hnil : n = .nil
      · subst hnil
        simp
      · have h0 : rootPtr n ≠ 0#64 := fun h0 =>
          hnil ((rootPtr_eq_zero (represents_plug.mp hN).2.2.1).mp h0)
        rw [if_pos h0, ensures_bind, (ensures_child_of_node hn).1]
        refine ⟨ha.1, (ih hnil ?_ hN).mono ?_⟩
        · rw [← length_inorderFrom d, inorderFrom_sided] at hf
          simp only [List.length_append, List.length_cons, length_inorderFrom] at hf
          omega
        · rintro r s' ⟨rfl, rfl⟩
          refine ⟨rfl, ?_⟩
          cases hin : n.inorderFrom d with
          | nil =>
            have hmem := rootPtr_mem h0
            rw [← mem_inorderFrom (d := d), hin] at hmem
            exact absurd hmem List.not_mem_nil
          | cons b l => rfl

/-- The first node on a side. -/
theorem ensures_rbExtreme {path : TreePath Ptr} {t : ColorTree Ptr} {fuel : ℕ}
    (h : Represents s (plug path t)) (hfuel : t.inorder.length < fuel) :
    Ensures (rbExtreme d fuel (rootPtr t)) s fun r s' =>
      s' = s ∧ r = firstPtr (t.inorderFrom d) := by
  cases t with
  | nil => simp [rbExtreme]
  | node c l a r =>
    have ha : a ≠ 0#64 := (represents_plug.mp h).2.2.1.1.1
    rw [rbExtreme, rootPtr_node, if_neg ha]
    exact ensures_extremeLoop (by simp) hfuel h

/-- Climbing out of the subtrees on the far side. -/
theorem ensures_climbLoop : ∀ {fuel : ℕ} {path : TreePath Ptr} {t : ColorTree Ptr}, t ≠ .nil →
    path.length < fuel → Represents s (plug path t) →
    Ensures (climbLoop d fuel (rootPtr t) (topPtr path)) s fun r s' =>
      s' = s ∧ r = firstPtr (TreePath.beyond d path) := by
  intro fuel
  induction fuel with
  | zero => intro path t _ hf; exact absurd hf (Nat.not_lt_zero _)
  | succ fuel ih =>
    intro path t hne hf h
    rw [climbLoop]
    cases path with
    | nil => simp
    | cons f path =>
      obtain ⟨-, ⟨ha, hnode, hsib, hrest⟩, hlinked, hnd⟩ := represents_plug.mp h
      have hup : Represents s (plug path (f.attach t)) := h
      rw [topPtr_cons, if_neg ha.1, ensures_bind]
      rcases f with ⟨e, c, a, u⟩
      simp only at hnode
      by_cases hed : e = d
      · -- the subtree is on the near side, and its parent comes next
        subst hed
        have hdiff : rootPtr u ≠ rootPtr t := by
          refine rootPtr_ne_of_disjoint hlinked hne fun p hpu hpt => ?_
          rw [plug_cons, TreeFrame.attach_mk] at hnd
          have hsub := (nodup_inorder_plug.mp hnd).2.1
          rw [← nodup_inorderFrom (d := e), inorderFrom_sided] at hsub
          refine (List.nodup_append.mp hsub).2.2 p ?_ p (List.mem_cons_of_mem a ?_) rfl
          · exact mem_inorderFrom.mpr hpt
          · exact mem_inorderFrom.mpr hpu
        rw [(ensures_child_of_node hnode).2, if_neg hdiff, TreePath.beyond_cons,
          ensures_pure]
        exact ⟨ha.1, rfl, rfl⟩
      · obtain rfl : e = d.flip := by cases e <;> cases d <;> simp_all
        have hne' : TreeFrame.attach ⟨d.flip, c, a, u⟩ t ≠ .nil := by cases d <;> simp
        rw [(ensures_child_of_node hnode).1, if_pos rfl, ensures_bind, ensures_rbParent,
          TreePath.beyond_cons_flip, hnode, sidedNode_parent,
          packed_and_not_one (topPtr_and_one hrest)]
        have hclimb := ih hne' (Nat.lt_of_succ_lt_succ hf) hup
        rw [TreeFrame.attach_mk, rootPtr_sided] at hclimb
        exact ⟨ha.1, ha.1, hclimb⟩

/-- **One step.** The node after `n` in the order that starts on the side `d`. -/
theorem ensures_rbStep {t : ColorTree Ptr} {n : Ptr} {l₁ l₂ : List Ptr} {fuel : ℕ}
    (h : Represents s t) (hsplit : t.inorderFrom d = l₁ ++ n :: l₂)
    (hfuel : t.inorder.length < fuel) :
    Ensures (rbStep d fuel n) s fun r s' => s' = s ∧ r = firstPtr l₂ := by
  have hn : n ∈ t.inorder := by rw [← mem_inorderFrom (d := d), hsplit]; simp
  obtain ⟨path, c, l, r, rfl⟩ := exists_plug_of_mem hn
  obtain ⟨N, F, hsided⟩ := exists_sided d c l n r
  rw [hsided] at h hsplit hfuel
  obtain ⟨ha, hnode, htop⟩ := h.focus
  have hF : Represents s (plug (⟨d.flip, c, n, N⟩ :: path) F) := by
    rw [plug_cons, TreeFrame.attach_mk, sided_flip]
    exact h
  -- the two ways to split the sequence at the node agree
  have hin := inorderFrom_plug d path (sided d c N n F)
  have hl₂ : l₂ = F.inorderFrom d ++ TreePath.beyond d path := by
    have hnd := nodup_inorderFrom (d := d).mpr h.nodup
    rw [hsplit, List.nodup_append] at hnd
    have hnot : n ∉ l₁ := fun hc => hnd.2.2 n hc n (by simp) rfl
    have hnot' : n ∉ l₂ := (List.nodup_cons.mp hnd.2.1).1
    rw [hsplit, inorderFrom_sided, List.append_assoc, List.cons_append, ← List.append_assoc] at hin
    exact ((List.append_cons_inj_of_notMem hnot hnot').mp hin).2.2
  have hlen : F.inorder.length < fuel ∧ path.length < fuel := by
    have hpath := TreePath.length_le_labels path
    have hsub : (sided d c N n F).inorder.length = N.inorder.length + (F.inorder.length + 1) := by
      rw [← length_inorderFrom d, inorderFrom_sided]
      simp
    rw [inorder_plug] at hfuel
    simp only [TreePath.labels, List.length_append] at hfuel hpath
    omega
  rw [rbStep, if_neg ha.1, ensures_bind, (ensures_child_of_node hnode).2]
  refine ⟨ha.1, ?_⟩
  by_cases hFnil : F = .nil
  · subst hFnil
    rw [rootPtr_nil, if_neg (by simp), ensures_bind, ensures_rbParent, hnode, sidedNode_parent,
      packed_and_not_one htop, hl₂, inorderFrom_nil, List.nil_append]
    have hclimb := ensures_climbLoop (d := d) (t := sided d c N n .nil) (by cases d <;> simp) hlen.2 h
    rw [rootPtr_sided] at hclimb
    exact ⟨ha.1, hclimb⟩
  · have h0 : rootPtr F ≠ 0#64 := fun h0 =>
      hFnil ((rootPtr_eq_zero (represents_plug.mp hF).2.2.1).mp h0)
    rw [if_pos h0, ensures_bind, (ensures_child_of_node hnode).2]
    refine ⟨ha.1, (ensures_rbExtreme hF hlen.1).mono ?_⟩
    rintro r s' ⟨rfl, rfl⟩
    refine ⟨rfl, ?_⟩
    rw [hl₂]
    cases hin : F.inorderFrom d with
    | nil =>
      have hmem := rootPtr_mem h0
      rw [← mem_inorderFrom (d := d), hin] at hmem
      exact absurd hmem List.not_mem_nil
    | cons b l => rfl

/-! ### Each direction by its name -/

/-- **The first node.** -/
theorem ensures_rbLeftmost {path : TreePath Ptr} {t : ColorTree Ptr} {fuel : ℕ}
    (h : Represents s (plug path t)) (hfuel : t.inorder.length < fuel) :
    Ensures (rbLeftmost fuel (rootPtr t)) s fun r s' => s' = s ∧ r = firstPtr t.inorder := by
  rw [rbLeftmost_eq]
  exact ensures_rbExtreme h hfuel

/-- **The next node.** -/
theorem ensures_rbNext {t : ColorTree Ptr} {n : Ptr} {l₁ l₂ : List Ptr} {fuel : ℕ}
    (h : Represents s t) (hsplit : t.inorder = l₁ ++ n :: l₂) (hfuel : t.inorder.length < fuel) :
    Ensures (rbNext fuel n) s fun r s' => s' = s ∧ r = firstPtr l₂ := by
  rw [rbNext_eq]
  exact ensures_rbStep h hsplit hfuel

end

end Rb

end Kernel64
