import Kernel64.Balloc.Pool
import Kernel64.Strings.Moves

/-!
# The areas of a pool in memory

A pool is an array of structures of 16 bytes. Moving the bytes of some areas with `memmove` moves the areas, as the
model of the boot allocator has it.
-/

namespace Kernel64

namespace Balloc

/-- `sizeof(struct balloc_area)` -/
def areaSize : ℕ := 16

/-- The `struct balloc_area` at an address. -/
def areaIn (m : Buf) (x : ℕ) : Area := ⟨m.field 8 x, m.field 8 (x + 8)⟩

/-- The areas are in memory, from an address on. -/
def AreasIn (m : Buf) (base : ℕ) (areas : ℕ → Area) : Prop :=
  ∀ i < maxAreasCount, areaIn m (base + areaSize * i) = areas i

variable {m m' : Buf} {base x y dst src n : ℕ} {areas : ℕ → Area} {p : Pool}

/-- An area depends on its own bytes. -/
theorem areaIn_congr (h : ∀ j < areaSize, m' (x + j) = m (y + j)) : areaIn m' x = areaIn m y := by
  have hsize : m'.field 8 (x + 8) = m.field 8 (y + 8) := Buf.field_congr fun j hj => by
    rw [Nat.add_assoc, Nat.add_assoc]
    exact h (8 + j) (by rw [areaSize]; omega)
  have haddr : m'.field 8 x = m.field 8 y := Buf.field_congr fun j hj => h j (by rw [areaSize]; omega)
  rw [areaIn, areaIn, haddr, hsize]

/-- **Moving the bytes of areas** moves the areas. -/
theorem AreasIn.memmove (h : AreasIn m base areas) (hle : max dst src + n ≤ maxAreasCount)
    (hbase : base + areaSize * maxAreasCount ≤ 2 ^ 64) :
    AreasIn (Strings.memmove m (base + areaSize * dst) (base + areaSize * src) (areaSize * n)) base
      (blockMove areas dst src n) := by
  unfold areaSize maxAreasCount at hbase
  intro i hi
  unfold maxAreasCount at hi hle
  rw [Strings.memmove_eq (by unfold areaSize; omega) (by unfold areaSize; omega)]
  by_cases hin : dst ≤ i ∧ i < dst + n
  · rw [blockMove, if_pos hin, ← h (src + (i - dst)) (by unfold maxAreasCount; omega)]
    refine areaIn_congr fun j hj => ?_
    unfold areaSize at hj ⊢
    rw [blockMove, if_pos (by omega)]
    exact congrArg m (by omega)
  · rw [blockMove, if_neg hin, ← h i hi]
    refine areaIn_congr fun j hj => ?_
    unfold areaSize at hj ⊢
    rw [blockMove, if_neg (by omega)]

/-- **`memmove` on a pool** is the `memmove` of `string.c` on its bytes. -/
theorem ensures_memmove_bytes {count : ℤ} (h : AreasIn m base p.areas) (hcount : count = n)
    (hle : max dst src + n ≤ maxAreasCount) (hbase : base + areaSize * maxAreasCount ≤ 2 ^ 64) :
    Ensures (memmove dst src count) p fun _ p' => p'.size = p.size ∧
      AreasIn (Strings.memmove m (base + areaSize * dst) (base + areaSize * src) (areaSize * n)) base p'.areas :=
  (ensures_memmove hcount hle).2 ⟨rfl, h.memmove hle hbase⟩

end Balloc

end Kernel64
