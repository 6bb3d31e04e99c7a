import Mathlib.Logic.Function.Basic
import Mathlib.Algebra.Group.Nat.Defs
import Mathlib.Data.List.GetD
import Mathlib.Tactic.Common

/-!
# Sheets of text

A sheet has lines without end, each of `width` characters, and is typed on from its first line on: a
character goes to the place of the cursor, and a line that is full is left (`Sheet.put`). A screen of
`height` rows shows the last lines of a sheet when line `ℓ` is in the row `ℓ % height` (`Sheet.Shows`).
Typing a character changes one place of the screen (`Shows.put`), and going to the next line clears one
row of it (`Shows.newline`).
-/

namespace Kernel64

/-- A sheet, and the line and the column of its cursor. -/
structure Sheet (α : Type) where
  text : ℕ → ℕ → α
  line : ℕ
  col : ℕ

namespace Sheet

variable {α : Type}

/-- Write a character at a place. -/
def write (text : ℕ → ℕ → α) (line col : ℕ) (c : α) : ℕ → ℕ → α :=
  Function.update text line (Function.update (text line) col c)

/-- An empty sheet. -/
def empty (blank : α) : Sheet α := ⟨fun _ _ => blank, 0, 0⟩

/-- Go to the next line. -/
def newline (s : Sheet α) : Sheet α := ⟨s.text, s.line + 1, 0⟩

/-- Go back to the beginning of the line. -/
def back (s : Sheet α) : Sheet α := ⟨s.text, s.line, 0⟩

/-- Put a character at the cursor, and move the cursor behind it. -/
def strike (s : Sheet α) (c : α) : Sheet α := ⟨write s.text s.line s.col c, s.line, s.col + 1⟩

/-- Type a character, and leave the line if it is full. -/
def put (width : ℕ) (s : Sheet α) (c : α) : Sheet α :=
  if s.col + 1 = width then (s.strike c).newline else s.strike c

/-- Type some characters. -/
def puts (width : ℕ) (s : Sheet α) (l : List α) : Sheet α := l.foldl (put width) s

/-- The last line that a screen of `height` rows shows. -/
def last (height : ℕ) (s : Sheet α) : ℕ := max s.line (height - 1)

/-- The line `ℓ` is among the last `height` ones. -/
def Visible (height : ℕ) (s : Sheet α) (ℓ : ℕ) : Prop := ℓ ≤ s.last height ∧ s.last height < ℓ + height

/-- The screen shows the last lines of the sheet. -/
def Shows (height width : ℕ) (s : Sheet α) (screen : ℕ → ℕ → α) : Prop :=
  ∀ ℓ, s.Visible height ℓ → ∀ c < width, screen (ℓ % height) c = s.text ℓ c

/-- Nothing is written below the line of the cursor. -/
def Below (blank : α) (s : Sheet α) : Prop := ∀ ℓ c, s.line < ℓ → s.text ℓ c = blank

/-! ### Places -/

theorem write_self (text : ℕ → ℕ → α) (line col : ℕ) (c : α) : write text line col c line col = c := by
  rw [write, Function.update_self, Function.update_self]

theorem write_of_ne {text : ℕ → ℕ → α} {line col ℓ k : ℕ} {c : α} (h : ℓ ≠ line ∨ k ≠ col) :
    write text line col c ℓ k = text ℓ k := by
  rw [write]
  by_cases hl : ℓ = line
  · subst hl
    rw [Function.update_self, Function.update_of_ne (h.resolve_left (not_not.2 rfl))]
  · rw [Function.update_of_ne hl]

/-- Two visible lines are in different rows. -/
theorem eq_of_mod_eq {height m ℓ ℓ' : ℕ} (hℓ : ℓ ≤ m) (hℓ' : ℓ' ≤ m) (h : m < ℓ + height)
    (h' : m < ℓ' + height) (hmod : ℓ % height = ℓ' % height) : ℓ = ℓ' := by
  have hle : ∀ {a b : ℕ}, a ≤ b → b ≤ m → m < a + height → a % height = b % height → a = b := by
    intro a b hab hb ha hmod
    have hdvd : (b - a) % height = 0 := Nat.sub_mod_eq_zero_of_mod_eq hmod.symm
    rw [Nat.mod_eq_of_lt (by omega)] at hdvd
    omega
  rcases Nat.le_total ℓ ℓ' with hc | hc
  · exact hle hc hℓ' h hmod
  · exact (hle hc hℓ h' hmod.symm).symm

/-! ### Typing -/

section

variable {height width : ℕ} {blank : α} {s : Sheet α} {screen : ℕ → ℕ → α}

/-- The screen with a row cleared. -/
def clearRow (blank : α) (row : ℕ) (screen : ℕ → ℕ → α) : ℕ → ℕ → α :=
  Function.update screen row fun _ => blank

theorem Below.newline (h : s.Below blank) : s.newline.Below blank := fun ℓ c hℓ =>
  h ℓ c (Nat.lt_of_succ_lt hℓ)

theorem Below.strike (h : s.Below blank) (c : α) : (s.strike c).Below blank := by
  intro ℓ k hℓ
  have hline : s.line < ℓ := hℓ
  rw [Sheet.strike]
  dsimp only
  rw [write_of_ne (Or.inl (Nat.ne_of_gt hline))]
  exact h ℓ k hline

theorem Below.put (h : s.Below blank) (c : α) : (s.put width c).Below blank := by
  rw [Sheet.put]
  split_ifs
  · exact (h.strike c).newline
  · exact h.strike c

theorem visible_line (hheight : 0 < height) : s.Visible height s.line := by
  rw [Visible, last]
  omega

/-- **A character** appears in the row of its line. -/
theorem Shows.strike (h : s.Shows height width screen) (hheight : 0 < height) (c : α) :
    (s.strike c).Shows height width (write screen (s.line % height) s.col c) := by
  intro ℓ hℓ k hk
  have hvisible : s.Visible height ℓ := hℓ
  have hown := s.visible_line hheight
  rw [Sheet.strike]
  dsimp only
  by_cases hplace : ℓ = s.line ∧ k = s.col
  · obtain ⟨rfl, rfl⟩ := hplace
    rw [write_self, write_self]
  · have hother : ℓ ≠ s.line ∨ k ≠ s.col := by
      by_contra hc
      obtain ⟨hline, hcol⟩ := not_or.1 hc
      exact hplace ⟨not_not.1 hline, not_not.1 hcol⟩
    have hrow : ℓ % height ≠ s.line % height ∨ k ≠ s.col := hother.imp_left fun hne hmod =>
      hne (eq_of_mod_eq hvisible.1 hown.1 hvisible.2 hown.2 hmod)
    rw [write_of_ne hrow, write_of_ne hother]
    exact h ℓ hvisible k hk

/-- **The next line** is in a row of its own, which is cleared. -/
theorem Shows.newline (h : s.Shows height width screen) (hs : s.Below blank) (hheight : 0 < height) :
    s.newline.Shows height width (clearRow blank ((s.line + 1) % height) screen) := by
  intro ℓ hℓ k hk
  have hnext : s.newline.Visible height (s.line + 1) := s.newline.visible_line hheight
  rw [clearRow]
  by_cases hline : ℓ = s.line + 1
  · rw [hline, Function.update_self]
    exact (hs (s.line + 1) k (Nat.lt_succ_self _)).symm
  · have hmod : ℓ % height ≠ (s.line + 1) % height := fun hc =>
      hline (eq_of_mod_eq hℓ.1 hnext.1 hℓ.2 hnext.2 hc)
    have hvisible : s.Visible height ℓ := by
      rw [Visible, last, Sheet.newline] at hℓ
      rw [Visible, last]
      dsimp only at hℓ
      omega
    rw [Function.update_of_ne hmod]
    exact h ℓ hvisible k hk

theorem below_empty (blank : α) : (empty blank).Below blank := fun _ _ _ => rfl

/-! ### Lines -/

/-- **Typing a line** that is not full puts it behind the cursor. -/
theorem puts_eq {l : List α} (h : s.col + l.length < width) :
    (s.puts width l).line = s.line ∧ (s.puts width l).col = s.col + l.length ∧
      ∀ ℓ k, (s.puts width l).text ℓ k =
        if ℓ = s.line ∧ s.col ≤ k ∧ k < s.col + l.length then l.getD (k - s.col) (s.text ℓ k)
        else s.text ℓ k := by
  induction l generalizing s with
  | nil =>
    refine ⟨rfl, rfl, fun ℓ k => ?_⟩
    rw [if_neg]
    · rfl
    · rw [List.length_nil]
      omega
  | cons c l ih =>
    rw [List.length_cons] at h ⊢
    have hput : s.put width c = s.strike c := by rw [put, if_neg (by omega)]
    have hcol : (s.put width c).col = s.col + 1 := by rw [hput, strike]
    have hline : (s.put width c).line = s.line := by rw [hput, strike]
    obtain ⟨h₁, h₂, h₃⟩ := ih (s := s.put width c) (by rw [hcol]; omega)
    have hcons : s.puts width (c :: l) = (s.put width c).puts width l := rfl
    rw [hcons]
    refine ⟨h₁.trans hline, by rw [h₂, hcol]; omega, fun ℓ k => ?_⟩
    rw [h₃, hline, hcol]
    have htext : (s.put width c).text = write s.text s.line s.col c := by rw [hput, strike]
    rw [htext]
    by_cases hfirst : ℓ = s.line ∧ k = s.col
    · obtain ⟨rfl, rfl⟩ := hfirst
      rw [if_neg (by omega), if_pos (by omega), write_self, Nat.sub_self, List.getD_cons_zero]
    · rw [write_of_ne (by omega)]
      by_cases hin : ℓ = s.line ∧ s.col + 1 ≤ k ∧ k < s.col + 1 + l.length
      · obtain ⟨j, hj⟩ : ∃ j, k - s.col = j + 1 := ⟨k - s.col - 1, by omega⟩
        rw [if_pos hin, if_pos (by omega), hj, List.getD_cons_succ]
        congr 1
        omega
      · rw [if_neg hin, if_neg (by omega)]

/-- Type some lines, and go to the next one after each. -/
def putLines (width : ℕ) (s : Sheet α) (ls : List (List α)) : Sheet α :=
  ls.foldl (fun s l => (s.puts width l).newline) s

/-- **Typing lines** puts them one below the other. -/
theorem putLines_eq {ls : List (List α)} (hls : ∀ l ∈ ls, l.length < width) (hcol : s.col = 0)
    (hs : ∀ ℓ k, s.line ≤ ℓ → s.text ℓ k = blank) :
    (s.putLines width ls).line = s.line + ls.length ∧ (s.putLines width ls).col = 0 ∧
      ∀ ℓ k, (s.putLines width ls).text ℓ k =
        if ℓ < s.line then s.text ℓ k else (ls.getD (ℓ - s.line) []).getD k blank := by
  induction ls generalizing s with
  | nil =>
    refine ⟨rfl, hcol, fun ℓ k => ?_⟩
    by_cases hℓ : ℓ < s.line
    · rw [if_pos hℓ]
      rfl
    · rw [if_neg hℓ, List.getD_nil, List.getD_nil]
      exact hs ℓ k (Nat.le_of_not_lt hℓ)
  | cons l ls ih =>
    have hlen := hls l List.mem_cons_self
    have hfits : s.col + l.length < width := by omega
    obtain ⟨hline, -, htext⟩ := puts_eq hfits
    have hnext : (s.puts width l).newline.line = s.line + 1 := congrArg (· + 1) hline
    have htext' : ∀ ℓ k, (s.puts width l).newline.text ℓ k =
        if ℓ = s.line ∧ s.col ≤ k ∧ k < s.col + l.length then l.getD (k - s.col) (s.text ℓ k)
        else s.text ℓ k := htext
    have hbelow : ∀ ℓ k, (s.puts width l).newline.line ≤ ℓ → (s.puts width l).newline.text ℓ k = blank := by
      intro ℓ k hℓ
      rw [htext', if_neg (by omega)]
      exact hs ℓ k (by omega)
    obtain ⟨h₁, h₂, h₃⟩ := ih (fun l' hl' => hls l' (List.mem_cons_of_mem _ hl')) rfl hbelow
    have hcons : s.putLines width (l :: ls) = (s.puts width l).newline.putLines width ls := rfl
    rw [hcons, List.length_cons]
    refine ⟨by omega, h₂, fun ℓ k => ?_⟩
    rw [h₃, hnext, htext']
    by_cases hlt : ℓ < s.line
    · rw [if_pos (by omega), if_neg (by omega), if_pos hlt]
    · by_cases hown : ℓ = s.line
      · -- the first of the lines
        have hblank := hs ℓ k (by omega)
        rw [if_pos (by omega), if_neg hlt, hown, Nat.sub_self, List.getD_cons_zero]
        by_cases hk : k < l.length
        · rw [if_pos (by omega), hcol, Nat.sub_zero, ← hown, hblank]
        · rw [if_neg (by omega), ← hown, hblank, List.getD_eq_default _ _ (by omega)]
      · obtain ⟨j, hj⟩ : ∃ j, ℓ - s.line = j + 1 := ⟨ℓ - s.line - 1, by omega⟩
        have hj' : ℓ - (s.line + 1) = j := by omega
        rw [if_neg (by omega), if_neg hlt, hj, hj', List.getD_cons_succ]

end

end Sheet

end Kernel64
