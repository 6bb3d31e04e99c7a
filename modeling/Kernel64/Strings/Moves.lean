import Kernel64.Lib.Arrays
import Kernel64.Strings.Model

/-!
# Moving bytes

`memcpy` copies from the first byte on and `memcpy_r` from the last one on. `memmove` takes the direction in which a
byte is read before it is overwritten, so that it moves the bytes that were there, however the ranges overlap.
-/

namespace Kernel64

namespace Strings

variable {m : Buf} {dst src size d s : ℕ}

/-! ### Pointers -/

theorem addPtr_of_lt (h : d + size < 2 ^ 64) : addPtr d size = d + size := Nat.mod_eq_of_lt h

/-- Stepping back from the end of a range leads into it, also when the end is the end of the address space. -/
theorem prevPtr_addPtr : prevPtr (addPtr d (size + 1)) = addPtr d size := by
  unfold prevPtr addPtr
  omega

/-! ### The two directions -/

/-- **The loop of `memcpy`** copies from the first byte on. -/
theorem memcpyLoop_eq (hd : d + size ≤ 2 ^ 64) (hs : s + size ≤ 2 ^ 64) :
    memcpyLoop size d s m = copyUp m d s size := by
  induction size generalizing d s m with
  | zero => rfl
  | succ size ih =>
    rw [memcpyLoop, copyUp]
    -- the pointers may wrap around behind the last byte, where they are not used
    rcases Nat.eq_zero_or_pos size with rfl | hpos
    · rfl
    · rw [addPtr_of_lt (by omega), addPtr_of_lt (by omega), ih (by omega) (by omega)]

/-- **The loop of `memcpy_r`** copies from the last byte on. -/
theorem memcpyRLoop_eq (hd : d + size ≤ 2 ^ 64) (hs : s + size ≤ 2 ^ 64) :
    memcpyRLoop size (addPtr d size) (addPtr s size) m = copyDown m d s size := by
  induction size generalizing m with
  | zero => rfl
  | succ size ih =>
    rw [memcpyRLoop, copyDown, prevPtr_addPtr, prevPtr_addPtr]
    rw [ih (by omega) (by omega), addPtr_of_lt (by omega), addPtr_of_lt (by omega)]

/-- **`memmove`** is a move of a block. -/
theorem memmove_eq (hdst : dst + size ≤ 2 ^ 64) (hsrc : src + size ≤ 2 ^ 64) :
    memmove m dst src size = blockMove m dst src size := by
  rw [memmove]
  -- to higher addresses from the end, to lower ones from the start
  split_ifs with hlt
  · rw [memcpyR, memcpyRLoop_eq hdst hsrc, copyDown_eq (Nat.le_of_lt hlt)]
  · rw [memcpy, memcpyLoop_eq hdst hsrc, copyUp_eq (Nat.le_of_not_lt hlt)]

/-- **`memmove` moves the bytes that were there**: the destination holds what the source held before the call, for
ranges that overlap in any way, and no other byte changes. -/
theorem memmove_moves (hdst : dst + size ≤ 2 ^ 64) (hsrc : src + size ≤ 2 ^ 64) :
    (∀ i < size, memmove m dst src size (dst + i) = m (src + i)) ∧
      ∀ x, ¬(dst ≤ x ∧ x < dst + size) → memmove m dst src size x = m x := by
  rw [memmove_eq hdst hsrc]
  refine ⟨fun i hi => ?_, fun x hx => if_neg hx⟩
  rw [blockMove, if_pos (by omega), Nat.add_sub_cancel_left]

/-- Two ranges at the end of the address space, each moved over the other. -/
theorem memmove_moves_overlap : memmove UInt8.ofNat (2 ^ 64 - 4) (2 ^ 64 - 5) 4 (2 ^ 64 - 4 + 3) = 254 ∧
    memmove UInt8.ofNat (2 ^ 64 - 5) (2 ^ 64 - 4) 4 (2 ^ 64 - 5 + 0) = 252 :=
  ⟨(memmove_moves (m := UInt8.ofNat) (by omega) (by omega)).1 3 (by decide),
    (memmove_moves (m := UInt8.ofNat) (by omega) (by omega)).1 0 (by decide)⟩

/-! ### Filling and comparing -/

theorem toInt8_sub_eq_zero {a b : UInt8} : a.toInt8.toInt - b.toInt8.toInt = 0 ↔ a = b := by
  rw [sub_eq_zero, Int8.toInt_inj]
  exact ⟨fun h => by rw [← UInt8.toUInt8_toInt8 a, h, UInt8.toUInt8_toInt8], fun h => h ▸ rfl⟩

/-- **`memcmp`** returns 0 for ranges with the same bytes, and for no others. -/
theorem memcmp_eq_zero_iff {l r : ℕ} (hl : l + size ≤ 2 ^ 64) (hr : r + size ≤ 2 ^ 64) :
    memcmp m l r size = 0 ↔ ∀ i < size, m (l + i) = m (r + i) := by
  rw [memcmp]
  induction size generalizing l r with
  | zero => simp [memcmpLoop]
  | succ size ih =>
    rw [memcmpLoop, Nat.forall_lt_succ_left]
    split_ifs with heq
    · rw [Nat.add_zero, Nat.add_zero, eq_true heq, true_and]
      rcases Nat.eq_zero_or_pos size with rfl | hpos
      · simp [memcmpLoop]
      · rw [addPtr_of_lt (by omega), addPtr_of_lt (by omega), ih (by omega) (by omega)]
        simp only [Nat.add_assoc, Nat.add_comm 1]
    · rw [toInt8_sub_eq_zero]
      exact iff_of_false heq fun h => heq h.1

end Strings

end Kernel64
