import Mathlib.Logic.Function.Basic
import Mathlib.Tactic.Common

/-!
# What an allocator returns next

The next calls of an allocator return what `next` lists, as long as it is ready to be given out. A program that needs
`n` calls succeeds when the next `n` calls do (`Grants`), and leaves the supply as it is after these calls (`after`),
so that the needs of the parts of a program add up (`grants_add`, `after_add`).
-/

namespace Kernel64

/-- The calls of an allocator that are still to come: what they return, if it is ready. -/
structure Supply (α : Type) where
  ready : α → Bool
  next : ℕ → Option α

namespace Supply

variable {α : Type} [DecidableEq α]

/-- The supply after a call that returned `a`. -/
def take (σ : Supply α) (a : α) : Supply α where
  ready := Function.update σ.ready a false
  next := fun i => σ.next (i + 1)

/-- The next `n` calls succeed. -/
def Grants : ℕ → Supply α → Prop
  | 0, _ => True
  | n + 1, σ => ∃ a, σ.next 0 = some a ∧ σ.ready a = true ∧ Grants n (σ.take a)

/-- The supply after `n` calls that succeed. -/
def after : ℕ → Supply α → Supply α
  | 0, σ => σ
  | n + 1, σ =>
    match σ.next 0 with
    | some a => after n (σ.take a)
    | none => σ

variable {σ : Supply α} {n k : ℕ}

@[simp]
theorem grants_zero : Grants 0 σ := trivial

@[simp]
theorem after_zero : after 0 σ = σ := rfl

theorem after_one {a : α} (h : σ.next 0 = some a) : after 1 σ = σ.take a := by
  rw [after, h]
  rfl

theorem grants_one : Grants 1 σ ↔ ∃ a, σ.next 0 = some a ∧ σ.ready a = true := by
  simp [Grants]

/-- The needs of two parts, one after the other. -/
theorem grants_add : Grants (n + k) σ ↔ Grants n σ ∧ Grants k (after n σ) := by
  induction n generalizing σ with
  | zero => simp
  | succ n ih =>
    rw [Nat.add_right_comm, Grants, Grants]
    constructor
    · rintro ⟨a, hnext, hready, hrest⟩
      obtain ⟨h₁, h₂⟩ := ih.1 hrest
      refine ⟨⟨a, hnext, hready, h₁⟩, ?_⟩
      rw [after, hnext]
      exact h₂
    · rintro ⟨⟨a, hnext, hready, h₁⟩, h₂⟩
      rw [after, hnext] at h₂
      exact ⟨a, hnext, hready, ih.2 ⟨h₁, h₂⟩⟩

theorem after_add (h : Grants n σ) : after (n + k) σ = after k (after n σ) := by
  induction n generalizing σ with
  | zero => simp
  | succ n ih =>
    obtain ⟨a, hnext, -, hrest⟩ := h
    rw [Nat.add_right_comm, after, after, hnext]
    exact ih hrest

/-- Calls that return different things which are ready. -/
theorem grants_of_injective {f : ℕ → α} (hf : f.Injective) (hnext : ∀ i < n, σ.next i = some (f i))
    (hready : ∀ i < n, σ.ready (f i) = true) : Grants n σ := by
  induction n generalizing σ f with
  | zero => exact trivial
  | succ n ih =>
    refine ⟨f 0, hnext 0 (Nat.succ_pos n), hready 0 (Nat.succ_pos n), ?_⟩
    refine ih (f := fun i => f (i + 1)) (fun i j hij => Nat.succ.inj (hf hij))
      (fun i hi => hnext (i + 1) (Nat.succ_lt_succ hi)) fun i hi => ?_
    have hne : f (i + 1) ≠ f 0 := fun hc => Nat.succ_ne_zero i (hf hc)
    exact (Function.update_of_ne hne _ _).trans (hready (i + 1) (Nat.succ_lt_succ hi))

-- how many calls there are is not to be computed
attribute [irreducible] Grants after

end Supply

end Kernel64
