import Mathlib.Logic.Function.Basic
import Mathlib.Tactic.Common
import Mathlib.Data.Nat.Basic
import Mathlib.Algebra.Group.Nat.Defs

/-!
# Arrays as functions

An array is a function from indices to its elements. `bisect` is the search by halving for the place
where a test changes from true to false; when this place is before the last one or two elements, it does
not read the last one (`bisect_eq_of_false`). `blockMove` is what moving a block of elements does,
whether the block is copied from its front (`copyUp`) or from its back (`copyDown`), as long as the
direction is the one that suits the overlap.
-/

namespace Kernel64

/-! ### Search by halving -/

/-- The search between `left` and `right` for the first index at which the test fails; the interval
gets shorter in each turn. -/
def bisect (test : ℕ → Bool) : ℕ → ℕ → ℕ → ℕ
  | 0, left, _ => left
  | fuel + 1, left, right =>
    if left < right then
      let mid := left + (right - left) / 2
      if test mid then bisect test fuel (mid + 1) right else bisect test fuel left mid
    else left

/-- The test holds up to an index and fails from there on. -/
structure ChangesAt (test : ℕ → Bool) (left right r : ℕ) : Prop where
  left_le : left ≤ r
  le_right : r ≤ right
  before : ∀ i, left ≤ i → i < r → test i = true
  after : ∀ i, r ≤ i → i < right → test i = false

/-- **The search finds the place where the test changes**, when it changes once. -/
theorem changesAt_bisect {test : ℕ → Bool} {fuel left right : ℕ} (hle : left ≤ right)
    (hfuel : right - left ≤ fuel)
    (hmono : ∀ i j, left ≤ i → i ≤ j → j < right → test j = true → test i = true) :
    ChangesAt test left right (bisect test fuel left right) := by
  induction fuel generalizing left right with
  | zero =>
    obtain rfl : left = right := by omega
    rw [bisect]
    exact ⟨le_rfl, le_rfl, fun i h₁ h₂ => absurd h₁ (by omega), fun i h₁ h₂ => absurd h₁ (by omega)⟩
  | succ fuel ih =>
    rw [bisect]
    by_cases hlt : left < right
    · rw [if_pos hlt]
      simp only
      set mid := left + (right - left) / 2 with hmid
      cases htest : test mid with
      | true =>
        rw [if_pos rfl]
        have h := ih (show mid + 1 ≤ right by omega) (by omega)
          fun i j h₁ h₂ h₃ => hmono i j (by omega) h₂ h₃
        refine ⟨by have := h.left_le; omega, h.le_right, fun i h₁ h₂ => ?_, h.after⟩
        by_cases hi : i ≤ mid
        · exact hmono i mid h₁ hi (by omega) htest
        · exact h.before i (by omega) h₂
      | false =>
        rw [if_neg Bool.false_ne_true]
        have h := ih (show left ≤ mid by omega) (by omega)
          fun i j h₁ h₂ h₃ => hmono i j h₁ h₂ (by omega)
        refine ⟨h.left_le, by have := h.le_right; omega, h.before, fun i h₁ h₂ => ?_⟩
        by_cases hi : i < mid
        · exact h.after i h₁ hi
        · by_contra hc
          rw [Bool.not_eq_false] at hc
          rw [hmono mid i (by omega) (by omega) h₂ hc] at htest
          exact nomatch htest
    · rw [if_neg hlt]
      exact ⟨le_rfl, hle, fun i h₁ h₂ => absurd h₁ (by omega), fun i h₁ h₂ => absurd h₁ (by omega)⟩

/-! ### A test that is wrong at the end -/

/-- How many of `n` elements, at their end, a search that goes to the right all the time comes to last.
In binary, `n + 1` begins with one more. -/
def searchTail (n : ℕ) : ℕ := (n + 1) / 2 ^ ((n + 1).log2 - 1) - 1

theorem searchTail_le (n : ℕ) : searchTail n ≤ n := by
  have := Nat.div_le_self (n + 1) (2 ^ ((n + 1).log2 - 1))
  rw [searchTail]
  omega

theorem searchTail_small {n : ℕ} (hn : n ≤ 2) : searchTail n = n := by
  obtain rfl | rfl | rfl : n = 0 ∨ n = 1 ∨ n = 2 := by omega
  all_goals rfl

theorem searchTail_pos {n : ℕ} (hn : 0 < n) : 0 < searchTail n := by
  have hlog : 1 ≤ (n + 1).log2 := (Nat.le_log2 (by omega)).2 (by omega)
  have hle : 2 ^ (n + 1).log2 ≤ n + 1 := Nat.log2_self_le (by omega)
  have hpow : 2 ^ (n + 1).log2 = 2 * 2 ^ ((n + 1).log2 - 1) := by
    rw [← pow_succ', Nat.sub_add_cancel hlog]
  have htwo : 2 ≤ (n + 1) / 2 ^ ((n + 1).log2 - 1) :=
    (Nat.le_div_iff_mul_le (Nat.two_pow_pos _)).2 (by omega)
  rw [searchTail]
  omega

theorem searchTail_half {n : ℕ} (hn : 2 < n) : searchTail ((n - 1) / 2) = searchTail n := by
  have hhalf : (n - 1) / 2 + 1 = (n + 1) / 2 := by omega
  have hlog : (n + 1).log2 = ((n + 1) / 2).log2 + 1 := by
    rw [Nat.log2_def, if_pos (by omega)]
  have hpos : 1 ≤ ((n + 1) / 2).log2 := (Nat.le_log2 (by omega)).2 (by omega)
  rw [searchTail, searchTail, hhalf, hlog, Nat.add_sub_cancel, Nat.div_div_eq_div_mul, ← pow_succ',
    Nat.sub_add_cancel hpos]

theorem bisect_congr {test test' : ℕ → Bool} {fuel left right : ℕ}
    (h : ∀ i, left ≤ i → i < right → test i = test' i) :
    bisect test fuel left right = bisect test' fuel left right := by
  induction fuel generalizing left right with
  | zero => rfl
  | succ fuel ih =>
    rw [bisect, bisect]
    by_cases hlt : left < right
    · rw [if_pos hlt, if_pos hlt]
      simp only
      set mid := left + (right - left) / 2 with hmid
      rw [h mid (by omega) (by omega), ih fun i h₁ h₂ => h i (by omega) h₂,
        ih fun i h₁ h₂ => h i h₁ (by omega)]
    · rw [if_neg hlt, if_neg hlt]

/-- The test at the last element does not matter to a search that ends before the tail. -/
theorem bisect_eq_of_false {test test' : ℕ → Bool} {fuel left right j : ℕ}
    (hagree : ∀ i, left ≤ i → i + 1 < right → test i = test' i)
    (hmono : ∀ i j, left ≤ i → i ≤ j → j < right → test' j = true → test' i = true)
    (hj : left ≤ j) (htail : j + searchTail (right - left) < right) (hfalse : test' j = false) :
    bisect test fuel left right = bisect test' fuel left right := by
  induction fuel generalizing left right with
  | zero => rfl
  | succ fuel ih =>
    have hlen : 2 < right - left := by
      by_contra hle
      rw [searchTail_small (by omega)] at htail
      omega
    rw [bisect, bisect, if_pos (show left < right by omega), if_pos (show left < right by omega)]
    simp only
    set mid := left + (right - left) / 2 with hmid
    rw [hagree mid (by omega) (by omega)]
    cases htest : test' mid with
    | true =>
      have hlt : mid < j := by
        by_contra hle
        rw [hmono j mid hj (by omega) (by omega) htest] at hfalse
        exact nomatch hfalse
      rw [if_pos rfl, if_pos rfl]
      refine ih (fun i h₁ h₂ => hagree i (by omega) h₂) (fun i j h₁ h₂ h₃ => hmono i j (by omega) h₂ h₃)
        hlt ?_
      rw [show right - (mid + 1) = (right - left - 1) / 2 by omega, searchTail_half hlen]
      exact htail
    | false =>
      rw [if_neg Bool.false_ne_true, if_neg Bool.false_ne_true]
      exact bisect_congr fun i h₁ h₂ => hagree i h₁ (by omega)

/-- A search that goes to the right up to the tail, and at the last element, passes over the tail. -/
theorem bisect_eq_right {test : ℕ → Bool} {fuel left right : ℕ} (hle : left ≤ right)
    (hfuel : right - left ≤ fuel)
    (htrue : ∀ i, left ≤ i → i + searchTail (right - left) < right → test i = true)
    (hlast : left < right → test (right - 1) = true) : bisect test fuel left right = right := by
  induction fuel generalizing left right with
  | zero =>
    rw [bisect]
    omega
  | succ fuel ih =>
    rw [bisect]
    by_cases hlt : left < right
    · rw [if_pos hlt]
      simp only
      set mid := left + (right - left) / 2 with hmid
      by_cases hlen : 2 < right - left
      · have hhalf := searchTail_half hlen
        have htail := searchTail_le ((right - left - 1) / 2)
        rw [htrue mid (by omega) (by omega), if_pos rfl]
        refine ih (by omega) (by omega) (fun i h₁ h₂ => htrue i (by omega) ?_) fun _ => hlast hlt
        rwa [show right - (mid + 1) = (right - left - 1) / 2 by omega, hhalf] at h₂
      · -- of one or two elements, the middle is the last one
        rw [show mid = right - 1 by omega, hlast hlt, if_pos rfl]
        refine ih (by omega) (by omega) (fun i h₁ h₂ => absurd h₂ (by omega)) fun h => absurd h (by omega)
    · rw [if_neg hlt]
      exact Nat.le_antisymm hle (by omega)
/-! ### Moving a block -/

variable {α : Type}

/-- The elements from `src` on moved to `dst`, `n` of them. -/
def blockMove (f : ℕ → α) (dst src n : ℕ) : ℕ → α := fun i =>
  if dst ≤ i ∧ i < dst + n then f (src + (i - dst)) else f i

/-- Copying element by element, from the first on. -/
def copyUp (f : ℕ → α) (dst src : ℕ) : ℕ → ℕ → α
  | 0 => f
  | n + 1 => copyUp (Function.update f dst (f src)) (dst + 1) (src + 1) n

/-- Copying element by element, from the last on. -/
def copyDown (f : ℕ → α) (dst src : ℕ) : ℕ → ℕ → α
  | 0 => f
  | n + 1 => copyDown (Function.update f (dst + n) (f (src + n))) dst src n

theorem copyUp_eq {f : ℕ → α} {dst src n : ℕ} (h : dst ≤ src) :
    copyUp f dst src n = blockMove f dst src n := by
  induction n generalizing f dst src with
  | zero =>
    funext i
    rw [copyUp, blockMove, if_neg (by omega)]
  | succ n ih =>
    rw [copyUp, ih (by omega)]
    funext i
    simp only [blockMove]
    rcases lt_trichotomy i dst with hi | rfl | hi
    · rw [if_neg (by omega), if_neg (by omega), Function.update_of_ne (by omega)]
    · rw [if_neg (by omega), if_pos (by omega), Function.update_self, Nat.sub_self, Nat.add_zero]
    · by_cases hin : i < dst + (n + 1)
      · rw [if_pos (by omega), if_pos (by omega), Function.update_of_ne (by omega)]
        congr 1
        omega
      · rw [if_neg (by omega), if_neg (by omega), Function.update_of_ne (by omega)]

theorem copyDown_eq {f : ℕ → α} {dst src n : ℕ} (h : src ≤ dst) :
    copyDown f dst src n = blockMove f dst src n := by
  induction n generalizing f with
  | zero =>
    funext i
    rw [copyDown, blockMove, if_neg (by omega)]
  | succ n ih =>
    rw [copyDown, ih]
    funext i
    simp only [blockMove]
    rcases lt_trichotomy i (dst + n) with hi | rfl | hi
    · by_cases hin : dst ≤ i
      · rw [if_pos (by omega), if_pos (by omega), Function.update_of_ne (by omega)]
      · rw [if_neg (by omega), if_neg (by omega), Function.update_of_ne (by omega)]
    · rw [if_neg (by omega), if_pos (by omega), Function.update_self, Nat.add_sub_cancel_left]
    · rw [if_neg (by omega), if_neg (by omega), Function.update_of_ne (by omega)]

end Kernel64
