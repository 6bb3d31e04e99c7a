import Kernel64.Format.Model
import Kernel64.Lib.Sheet

/-!
# The screen (`vga.c`)

The screen does not scroll: the line behind the last row goes to the first row again, which is cleared
before. So the rows show the last 25 lines of what was written, line `ℓ` in the row `ℓ % 25`
(`vgaWrite_shows`), and every store is inside of the memory of the screen.
-/

namespace Kernel64

namespace Console

/-! ### The code -/

/-- `ROWS` -/
def rows : ℕ := 25

/-- `COLS` -/
def cols : ℕ := 80

/-- `CATTR` -/
def cattr : UInt8 := 7

/-- `TAB_WIDTH` -/
def tabWidth : ℕ := 8

/-- The memory of the screen from `VGAMEM` on, and the variables of `vga.c`. -/
structure Vga where
  mem : ℕ → UInt8
  row : ℕ
  col : ℕ

/-- Code that runs on the screen. -/
abbrev VgaM (α : Type) : Type := Prog Vga α

/-- `*(VGAMEM + pos) = c` -/
def storeByte (pos : ℕ) (c : UInt8) : VgaM Unit := do
  if pos < 2 * rows * cols then modify fun s => { s with mem := Function.update s.mem pos c }
  else throw .bounds

/-- A character and its attribute. -/
def storeCell (pos : ℕ) (c : UInt8) : VgaM Unit := do
  storeByte pos c
  storeByte (pos + 1) cattr

/-- The loops of `vga_newline` and `clrscr`: `n` blanks from `ptr` on. -/
def blankLoop : ℕ → ℕ → VgaM Unit
  | 0, _ => return
  | n + 1, ptr => do
    storeCell ptr (ch ' ')
    blankLoop n (ptr + 2)

/-- `vga_newline` -/
def vgaNewline : VgaM Unit := do blankLoop cols (2 * (← get).row * cols)

/-- The case of `'\n'`, which falls through to that of `'\r'`. -/
def lineFeed : VgaM Unit := do
  modify fun s => { s with row := (s.row + 1) % rows }
  vgaNewline
  modify fun s => { s with col := 0 }

/-- The default case, which falls through to that of `'\n'` at the end of a row. -/
def putPlain (c : UInt8) : VgaM Unit := do
  let s ← get
  storeCell (2 * (s.row * cols + s.col)) c
  modify fun s => { s with col := s.col + 1 }
  if (← get).col ≠ cols then return
  lineFeed

/-- The loop over the blanks of a tab. -/
def putBlanks : ℕ → VgaM Unit
  | 0 => return
  | n + 1 => do
    putPlain (ch ' ')
    putBlanks n

/-- `vga_putchar` -/
def vgaPutchar (c : UInt8) : VgaM Unit := do
  if c = ch '\n' then lineFeed
  else if c = ch '\r' then modify fun s => { s with col := 0 }
  else if c = ch '\t' then putBlanks tabWidth
  else putPlain c

/-- `clrscr` -/
def clrscr : VgaM Unit := blankLoop (rows * cols) 0

/-- `vga_write` -/
def vgaWrite : List UInt8 → VgaM Unit
  | [] => return
  | c :: str => do
    vgaPutchar c
    vgaWrite str

/-- `vga.c` before `setup_vga`, with any contents of the screen. -/
def Vga.initial (mem : ℕ → UInt8) : Vga := ⟨mem, 0, 0⟩

/-! ### Sheets -/

/-- What a character does to a sheet of text. -/
def typeByte (s : Sheet UInt8) (c : UInt8) : Sheet UInt8 :=
  if c = ch '\n' then s.newline
  else if c = ch '\r' then s.back
  else if c = ch '\t' then s.puts cols (List.replicate tabWidth (ch ' '))
  else s.put cols c

/-- What a text does to a sheet. -/
def typed (s : Sheet UInt8) (str : List UInt8) : Sheet UInt8 := str.foldl typeByte s

theorem typed_append (s : Sheet UInt8) (l l' : List UInt8) : typed s (l ++ l') = typed (typed s l) l' :=
  List.foldl_append ..

/-- The character at a place of the screen. -/
def Vga.screen (v : Vga) (row col : ℕ) : UInt8 := v.mem (2 * (row * cols + col))

/-- **The screen shows the sheet**: the last lines, in rows by their numbers, in the colours of the
console. -/
structure Displays (s : Sheet UInt8) (v : Vga) : Prop where
  row_eq : v.row = s.line % rows
  col_eq : v.col = s.col
  col_lt : s.col < cols
  below : s.Below (ch ' ')
  shows : s.Shows rows cols v.screen
  attr : ∀ i < rows * cols, v.mem (2 * i + 1) = cattr

/-! ### Stores -/

section

variable {s : Sheet UInt8} {v : Vga} {pos n : ℕ} {c : UInt8} {Q : Unit → Vga → Prop}

/-- A place of the screen, with its attribute, is inside of the memory. -/
theorem place_lt {row col : ℕ} (hrow : row < rows) (hcol : col < cols) : row * cols + col < rows * cols := by
  calc row * cols + col < row * cols + cols := Nat.add_lt_add_left hcol _
    _ = (row + 1) * cols := (Nat.succ_mul ..).symm
    _ ≤ rows * cols := Nat.mul_le_mul_right _ hrow

theorem place_inj {row row' col col' : ℕ} (hcol : col < cols) (hcol' : col' < cols)
    (h : row * cols + col = row' * cols + col') : row = row' ∧ col = col' := by
  rw [cols] at *
  omega

/-- The memory with a character and its attribute stored. -/
def withCell (mem : ℕ → UInt8) (pos : ℕ) (c : UInt8) : ℕ → UInt8 :=
  Function.update (Function.update mem pos c) (pos + 1) cattr

theorem ensures_storeCell (hpos : pos + 1 < 2 * rows * cols) (h : Q () { v with mem := withCell v.mem pos c }) :
    Ensures (storeCell pos c) v Q := by
  rw [storeCell, ensures_bind, storeByte, if_pos (by omega), ensures_modify, storeByte, if_pos hpos,
    ensures_modify]
  exact h

theorem withCell_char {mem : ℕ → UInt8} {i j : ℕ} :
    withCell mem (2 * i) c (2 * j) = if j = i then c else mem (2 * j) := by
  rw [withCell, Function.update_of_ne (by omega), Function.update_apply]
  split_ifs
  all_goals first | rfl | omega

theorem withCell_attr {mem : ℕ → UInt8} {i j : ℕ} (h : mem (2 * j + 1) = cattr) :
    withCell mem (2 * i) c (2 * j + 1) = cattr := by
  rw [withCell, Function.update_apply]
  split_ifs
  · rfl
  · rw [Function.update_of_ne (by omega)]
    exact h

/-- **A run of blanks** changes the places from `i` to `i + n`, and nothing else. -/
theorem ensures_blankLoop : ∀ {n i : ℕ} {v : Vga}, i + n ≤ rows * cols →
    Ensures (blankLoop n (2 * i)) v fun _ v' => v'.row = v.row ∧ v'.col = v.col ∧
      (∀ j, v'.mem (2 * j) = if i ≤ j ∧ j < i + n then ch ' ' else v.mem (2 * j)) ∧
      ∀ j, v'.mem (2 * j + 1) = if i ≤ j ∧ j < i + n then cattr else v.mem (2 * j + 1)
  | 0, i, v, _ => by
    rw [blankLoop, ensures_pure]
    refine ⟨rfl, rfl, fun j => (if_neg (by omega)).symm, fun j => (if_neg (by omega)).symm⟩
  | n + 1, i, v, h => by
    have hpos : 2 * i + 1 < 2 * rows * cols := by
      rw [Nat.mul_assoc]
      omega
    rw [blankLoop, ensures_bind]
    refine ensures_storeCell hpos ?_
    rw [show 2 * i + 2 = 2 * (i + 1) by omega]
    refine (ensures_blankLoop (by omega)).mono ?_
    rintro - v' ⟨hrow, hcol, hchar, hattr⟩
    refine ⟨hrow, hcol, fun j => ?_, fun j => ?_⟩
    · rw [hchar]
      dsimp only
      rw [withCell_char]
      split_ifs
      all_goals first | rfl | omega
    · rw [hattr]
      dsimp only
      rw [withCell, Function.update_apply]
      split_ifs
      all_goals first | rfl | omega | skip
      all_goals rw [Function.update_of_ne (by omega)]

/-! ### Characters -/

/-- **A new line** on the sheet is a row that is cleared. -/
theorem ensures_lineFeed (hrow : v.row = s.line % rows) (hbelow : s.Below (ch ' '))
    (hshows : s.Shows rows cols v.screen) (hattr : ∀ i < rows * cols, v.mem (2 * i + 1) = cattr) :
    Ensures lineFeed v fun _ v' => Displays s.newline v' := by
  have hnext : (v.row + 1) % rows = (s.line + 1) % rows := by
    rw [hrow, Nat.mod_add_mod]
  have hlt : (s.line + 1) % rows < rows := Nat.mod_lt _ (by decide)
  have hend : (s.line + 1) % rows * cols + cols ≤ rows * cols := by
    rw [← Nat.succ_mul]
    exact Nat.mul_le_mul_right _ hlt
  rw [lineFeed, ensures_bind, ensures_modify, ensures_bind, vgaNewline, ensures_bind, ensures_get]
  dsimp only
  rw [hnext, Nat.mul_assoc]
  refine (ensures_blankLoop hend).mono ?_
  rintro - v' ⟨hrow', -, hchar, hattr'⟩
  rw [ensures_modify]
  refine ⟨hrow', rfl, (by decide : 0 < cols), hbelow.newline, ?_, fun i hi => ?_⟩
  · have hscreen : ∀ ℓ k, k < cols → Sheet.clearRow (ch ' ') ((s.line + 1) % rows) v.screen ℓ k =
        v'.mem (2 * (ℓ * cols + k)) := by
      intro ℓ k hk
      rw [hchar, Sheet.clearRow, Function.update_apply]
      by_cases hℓ : ℓ = (s.line + 1) % rows
      · rw [if_pos hℓ, hℓ, if_pos ⟨Nat.le_add_right _ _, Nat.add_lt_add_left hk _⟩]
      · rw [if_neg hℓ, if_neg]
        · rfl
        · rintro ⟨hlow, hhigh⟩
          rw [cols] at *
          omega
    intro ℓ hℓ k hk
    rw [← hshows.newline hbelow (by decide) ℓ hℓ k hk]
    exact (hscreen _ k hk).symm
  · dsimp only
    rw [hattr']
    split_ifs
    · rfl
    · exact hattr i hi

/-- **A character** goes to the place of the cursor. -/
theorem Displays.ensures_putPlain (h : Displays s v) (c : UInt8) :
    Ensures (putPlain c) v fun _ v' => Displays (s.put cols c) v' := by
  have hlt : s.line % rows < rows := Nat.mod_lt _ (by decide)
  have hplace := place_lt hlt h.col_lt
  have hpos : 2 * (s.line % rows * cols + s.col) + 1 < 2 * rows * cols := by
    rw [Nat.mul_assoc]
    omega
  rw [putPlain, ensures_bind, ensures_get, h.row_eq, h.col_eq, ensures_bind]
  refine ensures_storeCell hpos ?_
  -- the screen after the store
  have hshows : (s.strike c).Shows rows cols
      fun row col => withCell v.mem (2 * (s.line % rows * cols + s.col)) c (2 * (row * cols + col)) := by
    intro ℓ hℓ k hk
    rw [← h.shows.strike (by decide) c ℓ hℓ k hk]
    dsimp only
    rw [withCell_char]
    by_cases hsame : ℓ % rows = s.line % rows ∧ k = s.col
    · rw [if_pos (by rw [hsame.1, hsame.2]), hsame.1, hsame.2, Sheet.write_self]
    · rw [if_neg fun hc => hsame (place_inj hk h.col_lt hc), Sheet.write_of_ne]
      · rfl
      · by_contra hc
        obtain ⟨hline, hcol⟩ := not_or.1 hc
        exact hsame ⟨not_not.1 hline, not_not.1 hcol⟩
  have hattr : ∀ i < rows * cols, withCell v.mem (2 * (s.line % rows * cols + s.col)) c (2 * i + 1) = cattr :=
    fun i hi => withCell_attr (h.attr i hi)
  rw [ensures_bind, ensures_modify, ensures_bind, ensures_get, h.col_eq]
  by_cases hfull : s.col + 1 = cols
  · rw [if_neg (not_not.2 hfull), Sheet.put, if_pos hfull]
    exact ensures_lineFeed h.row_eq (h.below.strike c) hshows hattr
  · rw [if_pos hfull, ensures_pure, Sheet.put, if_neg hfull]
    exact ⟨h.row_eq, rfl, Nat.lt_of_le_of_ne h.col_lt hfull, h.below.strike c, hshows, hattr⟩

theorem ensures_putBlanks : ∀ {n : ℕ} {s : Sheet UInt8} {v : Vga}, Displays s v →
    Ensures (putBlanks n) v fun _ v' => Displays (s.puts cols (List.replicate n (ch ' '))) v'
  | 0, s, v, h => ensures_pure.2 h
  | n + 1, s, v, h => by
    rw [putBlanks, ensures_bind]
    exact (h.ensures_putPlain (ch ' ')).mono fun _ v' hv' => ensures_putBlanks hv'

theorem Displays.ensures_vgaPutchar (h : Displays s v) (c : UInt8) :
    Ensures (vgaPutchar c) v fun _ v' => Displays (typeByte s c) v' := by
  rw [vgaPutchar, typeByte]
  split_ifs
  · exact ensures_lineFeed h.row_eq h.below h.shows h.attr
  · exact ensures_modify.2 ⟨h.row_eq, rfl, (by decide : 0 < cols), h.below, h.shows, h.attr⟩
  · exact ensures_putBlanks h
  · exact h.ensures_putPlain c

/-- **Writing** to a screen that shows a sheet types on the sheet. -/
theorem Displays.ensures_vgaWrite (h : Displays s v) (str : List UInt8) :
    Ensures (vgaWrite str) v fun _ v' => Displays (typed s str) v' := by
  induction str generalizing s v with
  | nil => exact ensures_pure.2 h
  | cons c str ih =>
    rw [vgaWrite, ensures_bind]
    exact (h.ensures_vgaPutchar c).mono fun _ v' hv' => ih hv'

/-- **Clearing the screen** makes it show an empty sheet. -/
theorem ensures_clrscr (mem : ℕ → UInt8) :
    Ensures clrscr (Vga.initial mem) fun _ v => Displays (Sheet.empty (ch ' ')) v := by
  have hall : 0 + rows * cols ≤ rows * cols := by omega
  refine (ensures_blankLoop (i := 0) hall).mono ?_
  rintro - v ⟨hrow, hcol, hchar, hattr⟩
  refine ⟨hrow, hcol, by decide, Sheet.below_empty _, fun ℓ _ k hk => ?_, fun i hi => ?_⟩
  · have hplace := place_lt (Nat.mod_lt ℓ (show 0 < rows by decide)) hk
    rw [Vga.screen, hchar, if_pos ⟨Nat.zero_le _, by omega⟩]
    rfl
  · rw [hattr, if_pos ⟨Nat.zero_le _, by omega⟩]

/-! ### What is on the screen -/

/-- A text that is one line: no control character, and not as long as a row. -/
def IsLine (l : List UInt8) : Prop := l.length < cols ∧ ∀ c ∈ l, c ≠ ch '\n' ∧ c ≠ ch '\r' ∧ c ≠ ch '\t'

theorem typed_line (s : Sheet UInt8) {l : List UInt8} (hl : IsLine l) : typed s l = s.puts cols l := by
  obtain ⟨-, hl⟩ := hl
  induction l generalizing s with
  | nil => rfl
  | cons c l ih =>
    obtain ⟨hn, hr, ht⟩ := hl c List.mem_cons_self
    have hc : typeByte s c = s.put cols c := by rw [typeByte, if_neg hn, if_neg hr, if_neg ht]
    have hcons : typed s (c :: l) = typed (s.put cols c) l := by rw [typed, List.foldl_cons, hc, typed]
    rw [hcons]
    exact ih (s.put cols c) fun c' hc' => hl c' (List.mem_cons_of_mem _ hc')

/-- Some lines, each with its end. -/
def unlines (ls : List (List UInt8)) : List UInt8 := ls.flatMap fun l => l ++ [ch '\n']

theorem typed_unlines (s : Sheet UInt8) {ls : List (List UInt8)} (hls : ∀ l ∈ ls, IsLine l) :
    typed s (unlines ls) = s.putLines cols ls := by
  induction ls generalizing s with
  | nil => rfl
  | cons l ls ih =>
    have hnl : ∀ s, typed s [ch '\n'] = s.newline := fun s => rfl
    rw [unlines, List.flatMap_cons, typed_append, typed_append, typed_line s (hls l List.mem_cons_self), hnl,
      ← unlines, ih _ fun l' hl' => hls l' (List.mem_cons_of_mem _ hl')]
    rfl

/-- **The screen after any output.** Every byte string can be written to a new screen, whatever its
memory held: no store is outside of the screen, and in the end the 25 rows show the last lines of the
text. In particular, after some lines of text the line `ℓ` is in the row `ℓ % 25`, followed by blanks,
if it is one of the last 25, counting the one that the cursor is in. -/
theorem vgaWrite_shows (mem : ℕ → UInt8) (str : List UInt8) :
    Ensures (do
      clrscr
      vgaWrite str) (Vga.initial mem) fun _ v =>
        Displays (typed (Sheet.empty (ch ' ')) str) v ∧
        ∀ ls : List (List UInt8), (∀ l ∈ ls, IsLine l) → str = unlines ls →
          v.row = ls.length % rows ∧ v.col = 0 ∧
          ∀ ℓ, ℓ ≤ max ls.length (rows - 1) → max ls.length (rows - 1) < ℓ + rows → ∀ k < cols,
            v.mem (2 * (ℓ % rows * cols + k)) = (ls.getD ℓ []).getD k (ch ' ') := by
  rw [ensures_bind]
  refine (ensures_clrscr mem).mono fun _ v₁ h₁ => (h₁.ensures_vgaWrite str).mono fun _ v h => ⟨h, ?_⟩
  rintro ls hls rfl
  rw [typed_unlines _ hls] at h
  obtain ⟨hline, hcol, htext⟩ := Sheet.putLines_eq (s := Sheet.empty (ch ' '))
    (fun l hl => (hls l hl).1) rfl (fun _ _ _ => rfl : ∀ _ _, 0 ≤ _ → _ = ch ' ')
  have hline' : (Sheet.putLines cols (Sheet.empty (ch ' ')) ls).line = ls.length :=
    hline.trans (Nat.zero_add _)
  refine ⟨h.row_eq.trans (by rw [hline']), h.col_eq.trans hcol, fun ℓ hℓ hlast k hk => ?_⟩
  have hvisible : (Sheet.putLines cols (Sheet.empty (ch ' ')) ls).Visible rows ℓ := by
    rw [Sheet.Visible, Sheet.last, hline']
    exact ⟨hℓ, hlast⟩
  calc v.mem (2 * (ℓ % rows * cols + k)) = (Sheet.putLines cols (Sheet.empty (ch ' ')) ls).text ℓ k :=
        h.shows ℓ hvisible k hk
    _ = (ls.getD ℓ []).getD k (ch ' ') := (htext ℓ k).trans (if_neg (Nat.not_lt_zero ℓ))

end

end Console

end Kernel64
