import Kernel64.Lib.Bytes

/-!
# Packed encodings

A packed structure is the concatenation of the little-endian bytes of its fields. `Holds b o l`, *the bytes `l` lie in
`b` from the offset `o` on*, splits along a concatenation (`holds_append`), and a field is read back where its bytes
lie (`Holds.field`). So a structure is decoded by splitting what is known of the buffer, one field at a time.
-/

namespace Kernel64

namespace Buf

variable {b : Buf} {o w v : ℕ} {l l' : List UInt8}

/-- The `w` bytes of `v`, little-endian, dropping what does not fit. -/
def leBytes : ℕ → ℕ → List UInt8
  | 0, _ => []
  | w + 1, v => UInt8.ofNat v :: leBytes w (v / 256)

/-- The bytes `l` lie from the offset `o` on. -/
def Holds (b : Buf) (o : ℕ) (l : List UInt8) : Prop := b.slice o l.length = l

@[simp]
theorem length_leBytes : ∀ w v : ℕ, (leBytes w v).length = w
  | 0, _ => rfl
  | w + 1, v => congrArg (· + 1) (length_leBytes w (v / 256))

theorem holds_append : b.Holds o (l ++ l') ↔ b.Holds o l ∧ b.Holds (o + l.length) l' := by
  rw [Holds, List.length_append, slice_append]
  exact ⟨fun h => List.append_inj h (length_slice b o l.length), fun h => congrArg₂ (· ++ ·) h.1 h.2⟩

theorem holds_cons {a : UInt8} : b.Holds o (a :: l) ↔ b o = a ∧ b.Holds (o + 1) l := by
  have hone : b.Holds o [a] ↔ b o = a := by simp [Holds, slice]
  rw [← List.singleton_append, holds_append, hone]
  rfl

theorem holds_store : (store b o l).Holds o l := slice_store b o l

/-- The field is read back from its bytes. -/
theorem Holds.field (h : b.Holds o (leBytes w v)) (hv : v < 256 ^ w) : b.field w o = v := by
  induction w generalizing o v with
  | zero =>
    rw [pow_zero, Nat.lt_one_iff] at hv
    rw [hv, Buf.field]
  | succ w ih =>
    obtain ⟨hhead, htail⟩ := holds_cons.1 h
    rw [pow_succ, mul_comm] at hv
    rw [Buf.field, ih htail (Nat.div_lt_of_lt_mul hv), hhead, UInt8.toNat_ofNat']
    exact Nat.mod_add_div v 256

end Buf

end Kernel64
