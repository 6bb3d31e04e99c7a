import Mathlib.Data.List.Chain
import Mathlib.Tactic.Common

/-!
# Segments in a row

A range of numbers cut into segments that follow one another, some of them free.
-/

namespace Kernel64

/-- A segment of numbers. -/
structure Segment where
  start : ℕ
  len : ℕ
  free : Bool
  deriving DecidableEq

namespace Segment

/-- The number after the last one of a segment. -/
def stop (g : Segment) : ℕ := g.start + g.len

/-- The segments follow one another, from `a` to `b`. -/
def InRow : ℕ → List Segment → ℕ → Prop
  | a, [], b => a = b
  | a, g :: l, b => g.start = a ∧ 0 < g.len ∧ InRow g.stop l b

/-- No two neighbours are free. -/
def Separate (l : List Segment) : Prop := l.IsChain fun g h => g.free = false ∨ h.free = false

/-- What is in a list is one member of it, or among the others. -/
theorem mem_middle {α : Type} {x y : α} {l₁ l₂ : List α} : x ∈ l₁ ++ y :: l₂ ↔ x = y ∨ x ∈ l₁ ++ l₂ :=
  List.perm_middle.mem_iff.trans List.mem_cons

variable {a b c n x : ℕ} {l l₁ l₂ : List Segment} {g h : Segment}

@[simp]
theorem inRow_nil : InRow a [] b ↔ a = b := Iff.rfl

@[simp]
theorem inRow_cons : InRow a (g :: l) b ↔ g.start = a ∧ 0 < g.len ∧ InRow g.stop l b := Iff.rfl

theorem inRow_append : InRow a (l₁ ++ l₂) c ↔ ∃ b, InRow a l₁ b ∧ InRow b l₂ c := by
  induction l₁ generalizing a with
  | nil => exact ⟨fun h => ⟨a, rfl, h⟩, fun ⟨_, hab, h⟩ => hab ▸ h⟩
  | cons g l ih =>
    simp only [List.cons_append, inRow_cons, ih]
    constructor
    · intro ⟨hstart, hpos, b, h₁, h₂⟩
      exact ⟨b, ⟨hstart, hpos, h₁⟩, h₂⟩
    · intro ⟨b, ⟨hstart, hpos, h₁⟩, h₂⟩
      exact ⟨hstart, hpos, b, h₁, h₂⟩

theorem InRow.le (hl : InRow a l b) : a ≤ b := by
  induction l generalizing a with
  | nil => exact Nat.le_of_eq hl
  | cons g l ih =>
    obtain ⟨hstart, -, hl⟩ := hl
    have := ih hl
    unfold stop at this
    omega

theorem InRow.bounds (hl : InRow a l b) (hg : g ∈ l) : a ≤ g.start ∧ g.stop ≤ b ∧ 0 < g.len := by
  obtain ⟨l₁, l₂, rfl⟩ := List.append_of_mem hg
  obtain ⟨c, h₁, hstart, hpos, h₂⟩ := inRow_append.1 hl
  have hle₁ := h₁.le
  have hle₂ := h₂.le
  exact ⟨by omega, hle₂, hpos⟩

/-- Where a segment stands among the others. -/
theorem InRow.split (hl : InRow a (l₁ ++ g :: l₂) b) (hh : h ∈ l₁ ++ l₂) :
    h.stop ≤ g.start ∨ g.stop ≤ h.start := by
  obtain ⟨c, h₁, hstart, -, h₂⟩ := inRow_append.1 hl
  rcases List.mem_append.1 hh with hh | hh
  · have := (h₁.bounds hh).2.1
    exact Or.inl (by omega)
  · exact Or.inr (h₂.bounds hh).1

theorem InRow.pos (hl : InRow a (l₁ ++ g :: l₂) b) (hh : h ∈ l₁ ++ l₂) : 0 < h.len :=
  (hl.bounds (mem_middle.2 (Or.inr hh))).2.2

theorem InRow.start_ne (hl : InRow a (l₁ ++ g :: l₂) b) (hh : h ∈ l₁ ++ l₂) : h.start ≠ g.start := by
  have hg := (hl.bounds (g := g) (by simp)).2.2
  have hpos := hl.pos hh
  have hsplit := hl.split hh
  unfold stop at hsplit
  omega

/-- The other segments. -/
theorem InRow.mem_others (hl : InRow a (l₁ ++ g :: l₂) b) : h ∈ l₁ ++ l₂ ↔ h ∈ l₁ ++ g :: l₂ ∧ h ≠ g := by
  constructor
  · intro hh
    exact ⟨mem_middle.2 (Or.inr hh), fun hc => hl.start_ne hh (congrArg start hc)⟩
  · intro ⟨hh, hne⟩
    exact (mem_middle.1 hh).resolve_left hne

/-- A number is in one segment only. -/
theorem InRow.eq_of_mem (hl : InRow a l b) (hg : g ∈ l) (hh : h ∈ l) (hxg : g.start ≤ x ∧ x < g.stop)
    (hxh : h.start ≤ x ∧ x < h.stop) : g = h := by
  obtain ⟨l₁, l₂, rfl⟩ := List.append_of_mem hg
  by_cases hgh : h = g
  · exact hgh.symm
  · have hmem : h ∈ l₁ ++ l₂ := (mem_middle.1 hh).resolve_left hgh
    rcases hl.split hmem with hlt | hlt
    all_goals omega

theorem InRow.eq_of_start (hl : InRow a l b) (hg : g ∈ l) (hh : h ∈ l) (hstart : g.start = h.start) :
    g = h := by
  have hpos := (hl.bounds hg).2.2
  have hpos' := (hl.bounds hh).2.2
  refine hl.eq_of_mem hg hh (x := g.start) ⟨Nat.le_refl _, ?_⟩ ⟨Nat.le_of_eq hstart.symm, ?_⟩
  all_goals unfold stop; omega

/-- A number in the range is in a segment. -/
theorem InRow.exists_mem (hl : InRow a l b) (hx : a ≤ x ∧ x < b) : ∃ g ∈ l, g.start ≤ x ∧ x < g.stop := by
  induction l generalizing a with
  | nil =>
    rw [inRow_nil] at hl
    omega
  | cons g l ih =>
    obtain ⟨hstart, -, hl⟩ := hl
    rcases Nat.lt_or_ge x g.stop with hlt | hge
    · exact ⟨g, List.mem_cons_self, by omega, hlt⟩
    · obtain ⟨h, hh, hxh⟩ := ih hl ⟨hge, hx.2⟩
      exact ⟨h, List.mem_cons_of_mem _ hh, hxh⟩

/-- Where no two neighbours are free, numbers in a row that are free are in one segment. -/
theorem InRow.exists_free (hl : InRow a l b) (hsep : Separate l) (hn : 0 < n)
    (hfree : ∀ x, c ≤ x → x < c + n → ∃ g ∈ l, g.free = true ∧ g.start ≤ x ∧ x < g.stop) :
    ∃ g ∈ l, g.free = true ∧ g.start ≤ c ∧ c + n ≤ g.stop := by
  obtain ⟨g, hg, hgf, hstart, hstop⟩ := hfree c le_rfl (by omega)
  refine ⟨g, hg, hgf, hstart, ?_⟩
  by_contra hlt
  -- the number after the segment is in a free one as well
  obtain ⟨h, hh, hhf, hx⟩ := hfree g.stop (by omega) (by omega)
  obtain ⟨l₁, l₂, rfl⟩ := List.append_of_mem hg
  obtain ⟨_, -, -, -, hl₂⟩ := inRow_append.1 hl
  cases l₂ with
  | nil =>
    have hend : g.stop = b := hl₂
    have := (hl.bounds hh).2.1
    omega
  | cons k l₂ =>
    have hks : k.start = g.stop := hl₂.1
    have hkpos : 0 < k.len := hl₂.2.1
    have hk : k ∈ l₁ ++ g :: k :: l₂ := by simp
    obtain rfl : h = k := hl.eq_of_mem hh hk hx ⟨by omega, by unfold stop at hks ⊢; omega⟩
    rcases (List.isChain_append_cons_cons.1 hsep).2.1 with hc | hc
    · rw [hgf] at hc
      exact nomatch hc
    · rw [hhf] at hc
      exact nomatch hc

end Segment

end Kernel64
