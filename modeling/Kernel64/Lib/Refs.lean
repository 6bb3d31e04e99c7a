import Mathlib.Data.Set.Card
import Mathlib.Data.Finite.Prod
import Mathlib.Logic.Function.Basic

/-!
# Counted references

A partial map sends indices to targets, and `refs φ b` is how many indices it sends to the target
`b`. A map with finitely many defined indices (`Sparse`) can be changed at one index at a time, and
the counts change by one with it (`refs_update`).
-/

namespace Kernel64

section

variable {ι β κ : Type*}

/-- How many indices a partial map sends to a target. -/
noncomputable def refs (φ : ι → Option β) (b : β) : ℕ := {i | φ i = some b}.ncard

/-- Finitely many indices are defined. -/
def Sparse (φ : ι → Option β) : Prop := {i | φ i ≠ none}.Finite

variable {φ : ι → Option β} {b : β}

theorem Sparse.finite (h : Sparse φ) (b : β) : {i | φ i = some b}.Finite :=
  h.subset fun i (hi : φ i = some b) => by
    rw [Set.mem_ofPred_eq, hi]
    exact Option.some_ne_none b

theorem refs_pos_iff (h : Sparse φ) : 0 < refs φ b ↔ ∃ i, φ i = some b :=
  Set.ncard_pos (h.finite b)

theorem refs_eq_zero_iff (h : Sparse φ) : refs φ b = 0 ↔ ∀ i, φ i ≠ some b := by
  rw [← not_iff_not, ← Ne, ← Nat.pos_iff_ne_zero, refs_pos_iff h]
  push Not
  rfl

theorem refs_le_refs {ψ : ι → Option β} (h : Sparse ψ) (hle : ∀ i, φ i = some b → ψ i = some b) :
    refs φ b ≤ refs ψ b :=
  Set.ncard_le_ncard hle (h.finite b)

/-- A target with one reference has no other. -/
theorem eq_of_refs_eq_one (hone : refs φ b = 1) {i j : ι} (hi : φ i = some b)
    (hj : φ j = some b) : i = j := by
  obtain ⟨k, hk⟩ := Set.ncard_eq_one.1 hone
  have hi' : i ∈ ({k} : Set ι) := hk ▸ hi
  have hj' : j ∈ ({k} : Set ι) := hk ▸ hj
  exact (Set.mem_singleton_iff.1 hi').trans (Set.mem_singleton_iff.1 hj').symm

/-- There are at most as many references as places for them. -/
theorem refs_le_of_injOn {P : Finset κ} (g : ι → κ) (hmaps : ∀ i, φ i ≠ none → g i ∈ P)
    (hinj : Set.InjOn g {i | φ i ≠ none}) : Sparse φ ∧ refs φ b ≤ P.card := by
  have hfin : Sparse φ := Set.Finite.of_injOn (fun i hi => hmaps i hi) hinj P.finite_toSet
  have hsub : {i | φ i = some b} ⊆ {i | φ i ≠ none} := fun i (hi : φ i = some b) => by
    rw [Set.mem_ofPred_eq, hi]
    exact Option.some_ne_none b
  refine ⟨hfin, ?_⟩
  calc refs φ b = (Set.image g {i | φ i = some b}).ncard := (hinj.mono hsub).ncard_image.symm
    _ ≤ (P : Set κ).ncard := Set.ncard_le_ncard (by
        rintro _ ⟨i, hi, rfl⟩
        exact hmaps i (hsub hi)) P.finite_toSet
    _ = P.card := Set.ncard_coe_finset P

variable [DecidableEq ι]

theorem Sparse.update (h : Sparse φ) (i : ι) (o : Option β) : Sparse (Function.update φ i o) := by
  refine (h.insert i).subset fun j hj => ?_
  by_cases hji : j = i
  · exact Or.inl hji
  · refine Or.inr ?_
    rwa [Set.mem_ofPred_eq, Function.update_of_ne hji] at hj

/-- The references from the other indices. -/
theorem refs_update_none_add (h : Sparse φ) [DecidableEq β] (i : ι) (b : β) :
    refs (Function.update φ i none) b + (if φ i = some b then 1 else 0) = refs φ b := by
  have hset : {j | Function.update φ i none j = some b} = {j | φ j = some b} \ {i} := by
    ext j
    by_cases hji : j = i
    · subst hji
      simp
    · simp [hji]
  rw [refs, hset]
  split_ifs with hi
  · exact Set.ncard_sdiff_singleton_add_one hi (h.finite b)
  · rw [Set.sdiff_singleton_eq_self (s := {j | φ j = some b}) hi]
    rfl

/-- **Changing one index** takes a reference from its old target and gives one to the new. -/
theorem refs_update (h : Sparse φ) [DecidableEq β] (i : ι) (o : Option β) (b : β) :
    refs (Function.update φ i o) b + (if φ i = some b then 1 else 0) =
      refs φ b + if o = some b then 1 else 0 := by
  have hold := refs_update_none_add h i b
  have hnew := refs_update_none_add (h.update i o) i b
  rw [Function.update_idem, Function.update_self] at hnew
  omega

end

end Kernel64
