import Kernel64.Lib.Packed
import Mathlib.Logic.Equiv.Defs

/-!
# Records in a buffer

`RoundTrips size read write` says that two functions read and write a value of some type as a record
of `size` bytes: what is written is read back, writing what was read changes nothing, and nothing
outside of the record is read or written. The fixed-width numbers are such records
(`roundTrips_uint64` and so on), and so are arrays of bytes; two records one behind the other make
one (`RoundTrips.pair`), and a structure is the record of its fields (`RoundTrips.map`).
-/

namespace Kernel64

namespace Buf

/-! ### One field -/

theorem field_lt (b : Buf) (w o : ℕ) : b.field w o < 256 ^ w := by
  induction w generalizing o with
  | zero => exact Nat.one_pos
  | succ w ih =>
    have hbyte := (b o).toNat_lt
    have hrest := ih (o + 1)
    rw [field, pow_succ']
    omega

/-- The bytes of a field are its digits. -/
theorem field_div (b : Buf) {w j : ℕ} (o : ℕ) (h : j ≤ w) :
    b.field w o / 256 ^ j = b.field (w - j) (o + j) := by
  induction j generalizing w o with
  | zero => rw [pow_zero, Nat.div_one, Nat.sub_zero, Nat.add_zero]
  | succ j ih =>
    obtain ⟨w, rfl⟩ : ∃ k, w = k + 1 := ⟨w - 1, by omega⟩
    have hbyte := (b o).toNat_lt
    have hshift : (b.field (w + 1) o) / 256 = b.field w (o + 1) := by
      rw [field]
      omega
    rw [pow_succ', ← Nat.div_div_eq_div_mul, hshift, ih (o + 1) (by omega), Nat.add_sub_add_right,
      Nat.add_assoc, Nat.add_comm 1 j]

/-- Storing a field that was read changes nothing. -/
theorem setField_field (b : Buf) (w o : ℕ) : b.setField w o (b.field w o) = b := by
  funext i
  by_cases hi : o ≤ i ∧ i < o + w
  · obtain ⟨j, rfl⟩ : ∃ j, i = o + j := ⟨i - o, by omega⟩
    obtain ⟨k, hk⟩ : ∃ k, w - j = k + 1 := ⟨w - j - 1, by omega⟩
    rw [setField, if_pos hi, Nat.add_sub_cancel_left, field_div b o (by omega), hk, field,
      UInt8.ofNat_add, UInt8.ofNat_mul]
    simp
  · rw [setField, if_neg hi]

/-! ### Records -/

/-- The two functions read and write a record of `size` bytes, and undo each other. -/
structure RoundTrips {α : Type} (size : ℕ) (read : Buf → ℕ → α) (write : Buf → ℕ → α → Buf) : Prop where
  read_write : ∀ b o a, read (write b o a) o = a
  write_read : ∀ b o, write b o (read b o) = b
  /-- nothing else is written -/
  outside : ∀ b o a i, i < o ∨ o + size ≤ i → write b o a i = b i
  /-- nothing else is read -/
  congr : ∀ b c o o', (∀ j < size, b (o + j) = c (o' + j)) → read b o = read c o'

variable {α β : Type} {m n : ℕ} {read : Buf → ℕ → α} {write : Buf → ℕ → α → Buf}
  {read' : Buf → ℕ → β} {write' : Buf → ℕ → β → Buf}

/-- A record is read back wherever its bytes lie. -/
theorem RoundTrips.read_bytes (h : RoundTrips n read write) {b c : Buf} {o : ℕ} {a : α}
    (hc : c.slice o n = (write b 0 a).slice 0 n) : read c o = a := by
  rw [← h.read_write b 0 a]
  refine h.congr _ _ _ _ fun j hj => ?_
  have hlen : j < (c.slice o n).length := by rwa [length_slice]
  have hlen' : j < ((write b 0 a).slice 0 n).length := by rwa [length_slice]
  rw [← getElem_slice hlen, ← getElem_slice hlen']
  simp only [hc]

/-- A number of `w` bytes. -/
theorem roundTrips_field {w : ℕ} {ofNat : ℕ → α} {toNat : α → ℕ} (hlt : ∀ a, toNat a < 256 ^ w)
    (hof : ∀ a, ofNat (toNat a) = a) (hto : ∀ k < 256 ^ w, toNat (ofNat k) = k) :
    RoundTrips w (fun b o => ofNat (b.field w o)) (fun b o a => b.setField w o (toNat a)) where
  read_write b o a := by rw [field_setField, Nat.mod_eq_of_lt (hlt a), hof]
  write_read b o := by rw [hto _ (field_lt b w o), setField_field]
  outside b o a i hi := setField_outside hi
  congr b c o o' h := congrArg ofNat (field_congr h)

theorem roundTrips_uint64 : RoundTrips 8 (fun b o => UInt64.ofNat (b.field 8 o))
    (fun b o a => b.setField 8 o a.toNat) :=
  roundTrips_field UInt64.toNat_lt (fun _ => UInt64.ofNat_toNat) fun _ hk => UInt64.toNat_ofNat_of_lt' hk

theorem roundTrips_uint32 : RoundTrips 4 (fun b o => UInt32.ofNat (b.field 4 o))
    (fun b o a => b.setField 4 o a.toNat) :=
  roundTrips_field UInt32.toNat_lt (fun _ => UInt32.ofNat_toNat) fun _ hk => UInt32.toNat_ofNat_of_lt' hk

theorem roundTrips_uint16 : RoundTrips 2 (fun b o => UInt16.ofNat (b.field 2 o))
    (fun b o a => b.setField 2 o a.toNat) :=
  roundTrips_field UInt16.toNat_lt (fun _ => UInt16.ofNat_toNat) fun _ hk => UInt16.toNat_ofNat_of_lt' hk

theorem roundTrips_uint8 : RoundTrips 1 (fun b o => b o) (fun b o a => b.setField 1 o a.toNat) where
  read_write b o a := by simp [setField]
  write_read b o := by
    funext i
    rw [setField]
    split
    · obtain rfl : i = o := by omega
      simp
    · rfl
  outside b o a i hi := setField_outside hi
  congr b c o o' h := h 0 Nat.one_pos

/-- Copy the bytes of an array. -/
def setBytes (b : Buf) (o : ℕ) (f : Fin n → UInt8) : Buf := fun i =>
  if h : o ≤ i ∧ i < o + n then f ⟨i - o, by omega⟩ else b i

/-- An array of bytes. -/
theorem roundTrips_bytes (n : ℕ) :
    RoundTrips n (fun b o (i : Fin n) => b (o + i)) (fun b o f => b.setBytes o f) where
  read_write b o f := by
    funext i
    have hi : o ≤ o + (i : ℕ) ∧ o + (i : ℕ) < o + n := by omega
    simp only [setBytes, dif_pos hi, Nat.add_sub_cancel_left]
  write_read b o := by
    funext i
    rw [setBytes]
    split
    · exact congrArg b (by simp only; omega)
    · rfl
  outside b o f i hi := by rw [setBytes, dif_neg (by omega)]
  congr b c o o' h := funext fun i => h i i.2

/-- Two records, one behind the other. -/
theorem RoundTrips.pair (h : RoundTrips n read write) (h' : RoundTrips m read' write') :
    RoundTrips (n + m) (fun b o => (read b o, read' b (o + n)))
      (fun b o a => write' (write b o a.1) (o + n) a.2) where
  read_write b o a := by
    have hfirst : read (write' (write b o a.1) (o + n) a.2) o = a.1 := by
      rw [← h.read_write b o a.1]
      refine h.congr _ _ _ _ fun j hj => ?_
      rw [h.read_write b o a.1]
      exact h'.outside _ _ _ _ (by omega)
    rw [hfirst, h'.read_write]
  write_read b o := by rw [h.write_read, h'.write_read]
  outside b o a i hi := by rw [h'.outside _ _ _ _ (by omega), h.outside _ _ _ _ (by omega)]
  congr b c o o' hbc := by
    rw [h.congr b c o o' fun j hj => hbc j (by omega), h'.congr b c (o + n) (o' + n) fun j hj => ?_]
    rw [Nat.add_assoc, Nat.add_assoc]
    exact hbc (n + j) (by omega)

/-- The same record as another type. -/
theorem RoundTrips.map (h : RoundTrips n read write) (e : α ≃ β) :
    RoundTrips n (fun b o => e (read b o)) (fun b o a => write b o (e.symm a)) where
  read_write b o a := by rw [h.read_write, e.apply_symm_apply]
  write_read b o := by rw [e.symm_apply_apply, h.write_read]
  outside b o a := h.outside b o _
  congr b c o o' hbc := congrArg e (h.congr b c o o' hbc)

end Buf

end Kernel64
