import Kernel64.RbTree.Iterate
import Kernel64.RbTree.Runs

/-!
# Whole traversals

A traversal starts at one end of the tree and takes steps until it meets null. In either direction
it visits the nodes of the in-order sequence, each once (`ensures_visits`), a step back undoes a
step forth, and a successor fetched before its predecessor is erased takes the erased node's place
in the sequence (`ensures_eraseStep`), which is why `unmap_all_vma` may erase while it iterates.
-/

namespace Kernel64

open ColorTree

namespace Rb

/-- The nodes met from `x` on by repeating a step until it gives null. -/
def visits (step : Ptr → RbM Ptr) : ℕ → Ptr → RbM (List Ptr)
  | 0, _ => throw .fuel
  | fuel + 1, x => do
    if x = 0#64 then return []
    let rest ← visits step fuel (← step x)
    return x :: rest

/-- A traversal from left to right. -/
def forwards (fuel : ℕ) : RbM (List Ptr) := do
  visits (rbNext fuel) fuel (← rbLeftmost fuel (← root))

/-- A traversal from right to left. -/
def backwards (fuel : ℕ) : RbM (List Ptr) := do
  visits (rbPrev fuel) fuel (← rbRightmost fuel (← root))

/-- One round of a loop that erases what it visits: the node before `n`, fetched beforehand for
comparison, and the successor that the loop goes on with. -/
def eraseStep (fuel : ℕ) (n : Ptr) : RbM (Ptr × Ptr) := do
  let prev ← rbPrev fuel n
  let next ← rbNext fuel n
  rbErase fuel n
  return (prev, next)

/-- The node that comes after `prev`, or first when `prev` is null. -/
def follower (fuel : ℕ) (prev : Ptr) : RbM Ptr := do
  if prev = 0#64 then rbLeftmost fuel (← root) else rbNext fuel prev

section

variable {s : RbState} {t : ColorTree Ptr} {fuel : ℕ}

theorem Represents.ne_zero (h : Represents s t) {n : Ptr} (hn : n ∈ t.inorder) : n ≠ 0#64 := by
  obtain ⟨path, c, l, r, rfl⟩ := exists_plug_of_mem hn
  exact (represents_plug.mp h).2.2.1.1.1

/-- Stepping from any place in the sequence visits the rest of it. -/
theorem ensures_visits {d : Side} (h : Represents s t) (hfuel : t.inorder.length < fuel) :
    ∀ {k : ℕ} {l₁ l₂ : List Ptr}, t.inorderFrom d = l₁ ++ l₂ → l₂.length < k →
      Ensures (visits (rbStep d fuel) k (firstPtr l₂)) s fun l s' => s' = s ∧ l = l₂ := by
  intro k
  induction k with
  | zero => intro l₁ l₂ _ hk; exact absurd hk (Nat.not_lt_zero _)
  | succ k ih =>
    intro l₁ l₂ hsplit hk
    rw [visits]
    cases l₂ with
    | nil => simp
    | cons n l₂ =>
      have hn : n ∈ t.inorder := by rw [← mem_inorderFrom (d := d), hsplit]; simp
      rw [firstPtr_cons, if_neg (h.ne_zero hn), ensures_bind]
      refine (ensures_rbStep h hsplit hfuel).mono ?_
      rintro r s' ⟨rfl, rfl⟩
      rw [ensures_bind]
      refine (ih (by rw [hsplit, List.append_cons]) (Nat.lt_of_succ_lt_succ hk)).mono ?_
      rintro l s' ⟨rfl, rfl⟩
      exact ensures_pure.mpr ⟨rfl, rfl⟩

/-- **A whole traversal.** -/
theorem ensures_traversal {d : Side} (h : Represents s t) (hfuel : t.inorder.length < fuel) :
    Ensures (do visits (rbStep d fuel) fuel (← rbExtreme d fuel (← root))) s fun l s' =>
      s' = s ∧ l = t.inorderFrom d := by
  have hwhole : Represents s (plug [] t) := h
  have hsplit : t.inorderFrom d = [] ++ t.inorderFrom d := rfl
  rw [ensures_bind, ensures_root, ensures_bind, h.root]
  refine (ensures_rbExtreme hwhole hfuel).mono ?_
  rintro r s' ⟨rfl, rfl⟩
  exact ensures_visits h hfuel hsplit (by rwa [length_inorderFrom])

theorem ensures_forwards (h : Represents s t) (hfuel : t.inorder.length < fuel) :
    Ensures (forwards fuel) s fun l s' => s' = s ∧ l = t.inorder := by
  rw [forwards, rbNext_eq, rbLeftmost_eq]
  exact ensures_traversal (d := .left) h hfuel

theorem ensures_backwards (h : Represents s t) (hfuel : t.inorder.length < fuel) :
    Ensures (backwards fuel) s fun l s' => s' = s ∧ l = t.inorder.reverse := by
  rw [backwards, rbPrev_eq, rbRightmost_eq]
  exact ensures_traversal (d := .right) h hfuel

/-- **The node before.** -/
theorem ensures_rbPrev {n : Ptr} {l₁ l₂ : List Ptr} (h : Represents s t)
    (hsplit : t.inorder = l₁ ++ n :: l₂) (hfuel : t.inorder.length < fuel) :
    Ensures (rbPrev fuel n) s fun r s' => s' = s ∧ r = firstPtr l₁.reverse := by
  have hrev : t.inorderFrom .right = l₂.reverse ++ n :: l₁.reverse := by
    rw [inorderFrom, hsplit]
    simp
  rw [rbPrev_eq]
  exact ensures_rbStep h hrev hfuel

/-- **A step forth and back.** -/
theorem ensures_rbPrev_rbNext {n : Ptr} (h : Represents s t) (hn : n ∈ t.inorder)
    (hfuel : t.inorder.length < fuel) :
    Ensures (rbNext fuel n) s fun r s' =>
      r ≠ 0#64 → Ensures (rbPrev fuel r) s' fun p s'' => s'' = s ∧ p = n := by
  obtain ⟨l₁, l₂, hsplit⟩ := List.append_of_mem hn
  refine (ensures_rbNext h hsplit hfuel).mono ?_
  rintro r s' ⟨rfl, rfl⟩ hr
  cases l₂ with
  | nil => exact absurd rfl hr
  | cons m l₂ =>
    have hsplit' : t.inorder = (l₁ ++ [n]) ++ m :: l₂ := by rw [hsplit]; simp
    refine (ensures_rbPrev h hsplit' hfuel).mono ?_
    rintro p s'' ⟨rfl, rfl⟩
    simp

/-- The node after the last of `l₁` in a sequence `l₁ ++ l₂` is the first of `l₂`. -/
theorem ensures_follower {l₁ l₂ : List Ptr} (h : Represents s t) (hsplit : t.inorder = l₁ ++ l₂)
    (hfuel : t.inorder.length < fuel) :
    Ensures (follower fuel (firstPtr l₁.reverse)) s fun r s' => s' = s ∧ r = firstPtr l₂ := by
  rw [follower]
  rcases List.eq_nil_or_concat l₁ with rfl | ⟨l, p, rfl⟩
  · rw [List.reverse_nil, firstPtr_nil, if_pos rfl, ensures_bind, ensures_root, h.root]
    rw [List.nil_append] at hsplit
    have hwhole : Represents s (plug [] t) := h
    rw [← hsplit]
    exact ensures_rbLeftmost hwhole hfuel
  · rw [List.concat_eq_append, List.append_assoc, List.singleton_append] at hsplit
    have hp : p ∈ t.inorder := by rw [hsplit]; simp
    rw [List.concat_eq_append, List.reverse_concat, firstPtr_cons, if_neg (h.ne_zero hp)]
    exact ensures_rbNext h hsplit hfuel

/-- **Erasing while iterating.** The successor fetched before the removal is in the tree after it
and follows the removed node's predecessor there. -/
theorem ensures_eraseStep {n : Ptr} (h : Represents s t) (hrb : t.RedBlack) (hn : n ∈ t.inorder)
    (hfuel : t.inorder.length < fuel) :
    Ensures (eraseStep fuel n) s fun r s' =>
      ∃ t', Represents s' t' ∧ t'.RedBlack ∧ t'.inorder = t.inorder.erase n ∧
        (r.2 ≠ 0#64 → r.2 ∈ t'.inorder) ∧
        Ensures (follower fuel r.1) s' fun m s'' => s'' = s' ∧ m = r.2 := by
  obtain ⟨l₁, l₂, hsplit⟩ := List.append_of_mem hn
  rw [eraseStep, ensures_bind]
  refine (ensures_rbPrev h hsplit hfuel).mono ?_
  rintro prev s₁ ⟨rfl, rfl⟩
  rw [ensures_bind]
  refine (ensures_rbNext h hsplit hfuel).mono ?_
  rintro next s₁ ⟨rfl, rfl⟩
  rw [ensures_bind]
  refine (ensures_rbErase h hrb hn hfuel).mono ?_
  rintro - s₂ ⟨t', h', hrb', hin, -⟩
  rw [ensures_pure]
  have herase : t'.inorder = l₁ ++ l₂ := by
    have hnd := h.nodup
    rw [hsplit, List.nodup_append] at hnd
    rw [hin, hsplit, List.erase_append_right _ fun hc => hnd.2.2 n hc n (by simp) rfl,
      List.erase_cons_head]
  refine ⟨t', h', hrb', hin, fun hne => ?_, ensures_follower h' herase ?_⟩
  · cases l₂ with
    | nil => exact absurd rfl hne
    | cons m l₂ => rw [herase]; simp
  · rw [hin]
    exact lt_of_le_of_lt List.length_erase_le hfuel

end

/-! ### The contract -/

/-- **Iteration.** Traversals in both directions visit every node once, in order; a step back
undoes a step forth; and a successor fetched before a removal is the successor after it. -/
theorem traversals_visit_inorder (s : RbState) (t : ColorTree Ptr) (h : Represents s t)
    (hrb : t.RedBlack) :
    ∃ N, ∀ fuel ≥ N,
      (t.inorder.Nodup ∧
        Ensures (forwards fuel) s (fun l s' => s' = s ∧ l = t.inorder) ∧
        Ensures (backwards fuel) s fun l s' => s' = s ∧ l = t.inorder.reverse) ∧
      ∀ n ∈ t.inorder,
        (Ensures (rbNext fuel n) s fun r s' =>
          r ≠ 0#64 → Ensures (rbPrev fuel r) s' fun p s'' => s'' = s ∧ p = n) ∧
        Ensures (eraseStep fuel n) s fun r s' =>
          ∃ t', Represents s' t' ∧ t'.RedBlack ∧ t'.inorder = t.inorder.erase n ∧
            (r.2 ≠ 0#64 → r.2 ∈ t'.inorder) ∧
            Ensures (follower fuel r.1) s' fun m s'' => s'' = s' ∧ m = r.2 :=
  ⟨t.inorder.length + 1, fun _ hfuel =>
    ⟨⟨h.nodup, ensures_forwards h hfuel, ensures_backwards h hfuel⟩, fun _ hn =>
      ⟨ensures_rbPrev_rbNext h hn hfuel, ensures_eraseStep h hrb hn hfuel⟩⟩⟩

theorem traversals_visit_three :
    ∃ N, ∀ fuel ≥ N,
      (threeTree.inorder.Nodup ∧
        Ensures (forwards fuel) threeNodes
          (fun l s' => s' = threeNodes ∧ l = [8#64, 16#64, 24#64]) ∧
        Ensures (backwards fuel) threeNodes fun l s' =>
          s' = threeNodes ∧ l = [24#64, 16#64, 8#64]) ∧
      ∀ n ∈ threeTree.inorder,
        (Ensures (rbNext fuel n) threeNodes fun r s' =>
          r ≠ 0#64 → Ensures (rbPrev fuel r) s' fun p s'' => s'' = threeNodes ∧ p = n) ∧
        Ensures (eraseStep fuel n) threeNodes fun r s' =>
          ∃ t', Represents s' t' ∧ t'.RedBlack ∧ t'.inorder = threeTree.inorder.erase n ∧
            (r.2 ≠ 0#64 → r.2 ∈ t'.inorder) ∧
            Ensures (follower fuel r.1) s' fun m s'' => s'' = s' ∧ m = r.2 :=
  traversals_visit_inorder threeNodes threeTree represents_threeNodes redBlack_threeTree

end Rb

end Kernel64
