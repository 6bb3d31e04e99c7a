import Mathlib.Data.Nat.Basic
import Mathlib.Logic.Function.Basic
import Mathlib.Tactic.Common
import Mathlib.Tactic.Ring

/-!
# Byte buffers with little-endian fields

A buffer is a function from offsets to bytes. A field of `w` bytes at an offset is read and
written little-endian; a range is moved within a buffer, copied from another, or replaced by a
list of bytes. Each operation comes with what it stores (`*_inside`, `field_setField`) and with
its frame: the bytes outside the range it writes stay, and a field or a slice is determined by
the bytes of its own range (`field_congr`, `slice_congr`).
-/

namespace Kernel64

/-- A buffer of bytes, by their offsets. -/
abbrev Buf : Type := ℕ → UInt8

namespace Buf

/-! ### Operations -/

/-- The little-endian number in the `w` bytes at offset `o`. -/
def field : ℕ → Buf → ℕ → ℕ
  | 0, _, _ => 0
  | w + 1, b, o => (b o).toNat + 256 * field w b (o + 1)

/-- Store `v` little-endian in the `w` bytes at offset `o`, dropping what does not fit. -/
def setField (w : ℕ) (b : Buf) (o v : ℕ) : Buf := fun i =>
  if o ≤ i ∧ i < o + w then UInt8.ofNat (v / 256 ^ (i - o)) else b i

/-- Move `n` bytes from offset `src` to offset `dst` of a buffer; the ranges may overlap. -/
def move (b : Buf) (dst src n : ℕ) : Buf := fun i =>
  if dst ≤ i ∧ i < dst + n then b (src + (i - dst)) else b i

/-- Copy `n` bytes from offset `src` of `c` to offset `dst` of `b`. -/
def copy (b : Buf) (dst : ℕ) (c : Buf) (src n : ℕ) : Buf := fun i =>
  if dst ≤ i ∧ i < dst + n then c (src + (i - dst)) else b i

/-- Store a list of bytes from offset `o` on. -/
def store (b : Buf) (o : ℕ) (l : List UInt8) : Buf := fun i =>
  if o ≤ i then l.getD (i - o) (b i) else b i

/-- The `n` bytes from offset `o` on. -/
def slice (b : Buf) (o n : ℕ) : List UInt8 := (List.range n).map fun j => b (o + j)

/-! ### What the operations store -/

theorem field_congr {b c : Buf} : ∀ {w o o' : ℕ}, (∀ j < w, b (o + j) = c (o' + j)) →
    field w b o = field w c o'
  | 0, _, _, _ => rfl
  | w + 1, o, o', h => by
    have h0 : b o = c o' := h 0 (Nat.succ_pos w)
    have hw : field w b (o + 1) = field w c (o' + 1) := by
      refine field_congr fun j hj => ?_
      have hj' := h (j + 1) (by omega)
      rwa [show o + (j + 1) = o + 1 + j by omega, show o' + (j + 1) = o' + 1 + j by omega] at hj'
    simp only [field, h0, hw]

/-- What is stored in a field is read back from it, up to its width. -/
theorem field_setField : ∀ (w : ℕ) (b : Buf) (o v : ℕ), field w (setField w b o v) o = v % 256 ^ w
  | 0, _, _, v => by simp [field, Nat.mod_one]
  | w + 1, b, o, v => by
    have hhead : (setField (w + 1) b o v o).toNat = v % 256 := by
      simp [setField]
    have htail : field w (setField (w + 1) b o v) (o + 1)
        = field w (setField w b (o + 1) (v / 256)) (o + 1) := by
      refine field_congr fun j hj => ?_
      have hexp : o + 1 + j - o = j + 1 := by omega
      have hexp' : o + 1 + j - (o + 1) = j := by omega
      simp only [setField, hexp, hexp']
      rw [if_pos (by omega), if_pos (by omega), pow_succ', ← Nat.div_div_eq_div_mul]
    rw [field, hhead, htail, field_setField w b (o + 1) (v / 256), pow_succ', Nat.mod_mul]

theorem setField_outside {w o v i : ℕ} {b : Buf} (h : i < o ∨ o + w ≤ i) :
    setField w b o v i = b i := by
  rw [setField, if_neg (by omega)]

theorem move_inside {dst src n j : ℕ} {b : Buf} (h : j < n) :
    move b dst src n (dst + j) = b (src + j) := by
  rw [move, if_pos (by omega), Nat.add_sub_cancel_left]

theorem move_outside {dst src n i : ℕ} {b : Buf} (h : i < dst ∨ dst + n ≤ i) :
    move b dst src n i = b i := by
  rw [move, if_neg (by omega)]

theorem copy_outside {dst src n i : ℕ} {b c : Buf} (h : i < dst ∨ dst + n ≤ i) :
    copy b dst c src n i = b i := by
  rw [copy, if_neg (by omega)]

theorem store_inside {o j : ℕ} {b : Buf} {l : List UInt8} (h : j < l.length) :
    store b o l (o + j) = l[j] := by
  simp [store, h]

theorem store_outside {o i : ℕ} {b : Buf} {l : List UInt8} (h : i < o ∨ o + l.length ≤ i) :
    store b o l i = b i := by
  rw [store]
  split
  · rw [List.getD_eq_getElem?_getD, List.getElem?_eq_none (by omega), Option.getD_none]
  · rfl

theorem store_nil (b : Buf) (o : ℕ) : store b o [] = b := by
  funext i
  exact store_outside (by simp only [List.length_nil]; omega)

/-- Storing a list, one byte at a time. -/
theorem store_cons (b : Buf) (o : ℕ) (v : UInt8) (l : List UInt8) :
    store b o (v :: l) = store (Function.update b o v) (o + 1) l := by
  funext i
  rcases Nat.lt_trichotomy i o with hlt | rfl | hgt
  · rw [store_outside (Or.inl hlt), store_outside (Or.inl (by omega)), Function.update_of_ne hlt.ne]
  · rw [store_outside (Or.inl (Nat.lt_succ_self i)), Function.update_self]
    simp [store]
  · obtain ⟨j, rfl⟩ : ∃ j, i = o + 1 + j := ⟨i - o - 1, by omega⟩
    rw [store, store, if_pos (by omega), if_pos (by omega), Function.update_of_ne (by omega),
      show o + 1 + j - o = j + 1 by omega, Nat.add_sub_cancel_left]
    rfl

/-! ### Fields and slices after an operation -/

/-- A field off the range of another one is unchanged by storing into that one. -/
theorem field_setField_of_disjoint {w w' o o' v : ℕ} {b : Buf} (h : o + w ≤ o' ∨ o' + w' ≤ o) :
    field w (setField w' b o' v) o = field w b o :=
  field_congr fun _ hj => setField_outside (by omega)

@[simp]
theorem length_slice (b : Buf) (o n : ℕ) : (slice b o n).length = n := by
  simp [slice]

@[simp]
theorem getElem_slice {b : Buf} {o n j : ℕ} (h : j < (slice b o n).length) :
    (slice b o n)[j] = b (o + j) := by
  simp [slice]

theorem slice_congr {b c : Buf} {o o' n : ℕ} (h : ∀ j < n, b (o + j) = c (o' + j)) :
    slice b o n = slice c o' n := by
  refine List.ext_getElem (by simp) fun j hj _ => ?_
  rw [length_slice] at hj
  simpa using h j hj

theorem slice_append (b : Buf) (o m n : ℕ) : slice b o (m + n) = slice b o m ++ slice b (o + m) n := by
  rw [slice, List.range_add, List.map_append, List.map_map, slice, slice]
  congr 1
  refine List.map_congr_left fun j _ => ?_
  rw [Function.comp_apply, Nat.add_assoc]

/-- The bytes stored are the slice found there afterwards. -/
theorem slice_store (b : Buf) (o : ℕ) (l : List UInt8) : slice (store b o l) o l.length = l := by
  refine List.ext_getElem (by simp) fun j _ hj => ?_
  rw [getElem_slice, store_inside hj]

end Buf

end Kernel64
