import Mathlib.Data.Int.Notation
import Mathlib.Algebra.Group.Nat.Defs

/-!
# Constants of the headers (`error.h`, `memory.h`, `kernel.h`, `vfs.h`)

What more than one part of the kernel uses. A number of a type of C is a natural number or an integer here;
`toInt` converts to `int`.
-/

namespace Kernel64

/-! ### Errors -/

def ENOMEM : ℤ := 1

def ENOENT : ℤ := 2

def ENOTSUP : ℤ := 3

def EBUSY : ℤ := 4

def EEXIST : ℤ := 5

def EINVAL : ℤ := 6

def EIO : ℤ := 7

/-! ### Memory -/

/-- `PAGE_SIZE` -/
def pageSize : ℕ := 4096

/-- `HIGH_BASE`, where the memory begins. -/
def highBase : ℕ := 0xffff800000000000

/-- `MAX_PHYS_SIZE`, the size of the memory that is used. -/
def maxPhysSize : ℕ := 2 ^ 36

/-- `ALIGN`, for `a` a power of two, where the sum does not wrap around. -/
def alignTo (x a : ℕ) : ℕ := (x + a - 1) / a * a

theorem alignTo_dvd (x a : ℕ) : a ∣ alignTo x a :=
  Nat.dvd_mul_left a _

theorem le_alignTo {x a : ℕ} (ha : 0 < a) : x ≤ alignTo x a := by
  have h := Nat.lt_div_mul_add (a := x + a - 1) ha
  rw [alignTo]
  omega

theorem alignTo_le {x a m : ℕ} (ha : 0 < a) (hx : x ≤ a * m) : alignTo x a ≤ a * m := by
  rw [alignTo, Nat.mul_comm a m]
  refine Nat.mul_le_mul_right a (Nat.lt_succ_iff.mp ?_)
  rw [Nat.div_lt_iff_lt_mul ha, Nat.succ_mul, Nat.mul_comm m a]
  omega

/-! ### Strings and numbers -/

/-- `MAX_PATH_LEN` -/
def maxPathLen : ℕ := 256

/-- The byte of a character. -/
def ch (c : Char) : UInt8 := UInt8.ofNat c.toNat

/-- The string `"070701"`, with which a record of a cpio archive begins. -/
def cpioMagic : List UInt8 := [48, 55, 48, 55, 48, 49]

/-- A number as an `int`; sums wrap around. -/
def toInt (x : ℤ) : ℤ := Int.bmod x (2 ^ 32)

end Kernel64
