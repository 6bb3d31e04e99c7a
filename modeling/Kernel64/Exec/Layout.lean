import Kernel64.Exec.Model

/-!
# The layout of arguments

What the loop of `copy_args` leaves in a buffer (`layStrings`): each string at its place among the strings, its
address in the array below them, and all other bytes as they were.
-/

namespace Kernel64

namespace Exec

open Paging

/-- The bytes that strings take, each with the one that ends it. -/
def stringBytes (argv : List (List UInt8)) : ℕ := (argv.map fun arg => arg.length + 1).sum

/-- The buffer after the strings have been copied to offset `data`, and their addresses from `usrdata` on to offset
`array`. -/
def layStrings : Buf → List (List UInt8) → ℕ → ℕ → ℕ → Buf
  | b, [], _, _, _ => b
  | b, arg :: argv, array, data, usrdata =>
    layStrings ((b.store array (wordBytes usrdata)).store data (arg ++ [0])) argv (array + ptrsz)
      (data + (arg.length + 1)) (usrdata + (arg.length + 1))

section

variable {b : Buf} {arg : List UInt8} {argv : List (List UInt8)} {array data usrdata i j o v : ℕ}

@[simp]
theorem stringBytes_nil : stringBytes [] = 0 := rfl

@[simp]
theorem stringBytes_cons : stringBytes (arg :: argv) = arg.length + 1 + stringBytes argv := by
  simp [stringBytes]

theorem stringBytes_take_succ (hi : i < argv.length) :
    stringBytes (argv.take (i + 1)) = stringBytes (argv.take i) + (argv[i].length + 1) := by
  induction argv generalizing i with
  | nil => exact absurd hi (Nat.not_lt_zero _)
  | cons arg argv ih =>
    cases i with
    | zero => simp
    | succ i =>
      have := ih (i := i) (by simpa using hi)
      simp only [List.take_succ_cons, stringBytes_cons, List.getElem_cons_succ]
      omega

theorem stringBytes_take_mono (h : i ≤ j) : stringBytes (argv.take i) ≤ stringBytes (argv.take j) := by
  induction argv generalizing i j with
  | nil => simp
  | cons arg argv ih =>
    cases i with
    | zero => simp
    | succ i =>
      obtain ⟨j, rfl⟩ : ∃ m, j = m + 1 := ⟨j - 1, by omega⟩
      have := ih (i := i) (j := j) (by omega)
      simp only [List.take_succ_cons, stringBytes_cons]
      omega

theorem stringBytes_take_le (i : ℕ) : stringBytes (argv.take i) ≤ stringBytes argv := by
  rcases Nat.le_total i argv.length with h | h
  · have hle : stringBytes (argv.take i) ≤ stringBytes (argv.take argv.length) := stringBytes_take_mono h
    rwa [List.take_length] at hle
  · rw [List.take_of_length_le h]

@[simp]
theorem length_wordBytes (v : ℕ) : (wordBytes v).length = 8 := rfl

theorem getElem_wordBytes (hj : j < (wordBytes v).length) : (wordBytes v)[j] = UInt8.ofNat (v / 256 ^ j) := by
  simp [wordBytes]

/-- The bytes outside of the array and of the strings are as they were. -/
theorem layStrings_outside (harray : o < array ∨ array + 8 * argv.length ≤ o)
    (hdata : o < data ∨ data + stringBytes argv ≤ o) : layStrings b argv array data usrdata o = b o := by
  induction argv generalizing b array data usrdata with
  | nil => rfl
  | cons arg argv ih =>
    simp only [List.length_cons, stringBytes_cons] at harray hdata
    rw [layStrings, ih (by unfold ptrsz; omega) (by omega), Buf.store_outside (by simp; omega),
      Buf.store_outside (by simp; omega)]

/-- **The layout**: the array holds the addresses of the strings, and the strings are at their places. -/
theorem layStrings_inside (hle : array + 8 * argv.length ≤ data) (hi : i < argv.length) :
    (∀ j < 8, layStrings b argv array data usrdata (array + 8 * i + j) =
      UInt8.ofNat ((usrdata + stringBytes (argv.take i)) / 256 ^ j)) ∧
    (∀ j (hj : j < argv[i].length),
      layStrings b argv array data usrdata (data + stringBytes (argv.take i) + j) = argv[i][j]) ∧
    layStrings b argv array data usrdata (data + stringBytes (argv.take i) + argv[i].length) = 0 := by
  induction argv generalizing b array data usrdata i with
  | nil => exact absurd hi (Nat.not_lt_zero _)
  | cons arg argv ih =>
    simp only [List.length_cons] at hle hi
    cases i with
    | zero =>
      -- what follows leaves the first string and its address alone
      simp only [layStrings, List.take_zero, stringBytes_nil, List.getElem_cons_zero, Nat.mul_zero, Nat.add_zero]
      refine ⟨fun j hj => ?_, fun j hj => ?_, ?_⟩
      · rw [layStrings_outside (by unfold ptrsz; omega) (by omega), Buf.store_outside (by omega),
          Buf.store_inside (by simpa using hj), getElem_wordBytes]
      · rw [layStrings_outside (by unfold ptrsz; omega) (by omega), Buf.store_inside (by simp; omega),
          List.getElem_append_left hj]
      · rw [layStrings_outside (by unfold ptrsz; omega) (by omega), Buf.store_inside (by simp),
          List.getElem_append_right (le_refl _)]
        simp
    | succ i =>
      obtain ⟨hw, hs, hz⟩ := @ih ((b.store array (wordBytes usrdata)).store data (arg ++ [0])) (array + ptrsz)
        (data + (arg.length + 1)) (usrdata + (arg.length + 1)) i (by unfold ptrsz; omega) (by omega)
      simp only [layStrings, List.take_succ_cons, stringBytes_cons, List.getElem_cons_succ]
      refine ⟨fun j hj => ?_, fun j hj => ?_, ?_⟩
      · have := hw j hj
        rw [show array + ptrsz + 8 * i + j = array + 8 * (i + 1) + j by unfold ptrsz; omega] at this
        rw [this, Nat.add_assoc]
      · have := hs j hj
        rwa [show data + (arg.length + 1) + stringBytes (argv.take i) + j =
          data + (arg.length + 1 + stringBytes (argv.take i)) + j by omega] at this
      · rwa [show data + (arg.length + 1) + stringBytes (argv.take i) + argv[i].length =
          data + (arg.length + 1 + stringBytes (argv.take i)) + argv[i].length by omega] at hz

/-! ### Sizes -/

theorem argBytes_spec (argv : List (List UInt8)) : stringBytes argv ≤ argBytes argv ∧ argBytes argv % 8 = 0 := by
  unfold argBytes alignTo ptrsz stringBytes
  omega

theorem argSize_spec (argv : List (List UInt8)) :
    argBytes argv + 8 * (argv.length + 1) ≤ argSize argv ∧ argSize argv % 4096 = 0 := by
  unfold argSize alignTo ptrsz pageSize
  omega

end

end Exec

end Kernel64
