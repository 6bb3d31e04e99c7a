import Kernel64.Lib.Bytes

/-!
# Bytes in memory (`string.c`)

Memory is a function from addresses to bytes, and the pointers of the loops wrap. The functions that store return their
destination, which is left out.
-/

namespace Kernel64

namespace Strings

/-- `p + n`, of a pointer -/
def addPtr (p n : ℕ) : ℕ := (p + n) % 2 ^ 64

/-- `--p` -/
def prevPtr (p : ℕ) : ℕ := (p + (2 ^ 64 - 1)) % 2 ^ 64

/-- The loop of `memcpy`. -/
def memcpyLoop : ℕ → ℕ → ℕ → Buf → Buf
  | 0, _, _, m => m
  | size + 1, d, s, m => memcpyLoop size (addPtr d 1) (addPtr s 1) (Function.update m d (m s))

/-- `memcpy` -/
def memcpy (m : Buf) (dst src size : ℕ) : Buf := memcpyLoop size dst src m

/-- The loop of `memcpy_r`. -/
def memcpyRLoop : ℕ → ℕ → ℕ → Buf → Buf
  | 0, _, _, m => m
  | size + 1, d, s, m =>
    let d := prevPtr d
    let s := prevPtr s
    memcpyRLoop size d s (Function.update m d (m s))

/-- `memcpy_r` -/
def memcpyR (m : Buf) (dst src size : ℕ) : Buf := memcpyRLoop size (addPtr dst size) (addPtr src size) m

/-- `memmove` -/
def memmove (m : Buf) (dst src size : ℕ) : Buf := if dst > src then memcpyR m dst src size else memcpy m dst src size

/-- The loop of `memset`. -/
def memsetLoop (value : UInt8) : ℕ → ℕ → Buf → Buf
  | 0, _, m => m
  | size + 1, ptr, m => memsetLoop value size (addPtr ptr 1) (Function.update m ptr value)

/-- `memset` -/
def memset (m : Buf) (dst : ℕ) (value : UInt8) (size : ℕ) : Buf := memsetLoop value size dst m

/-- The loop of `memcmp`, with what it returns; the type `char` is signed. -/
def memcmpLoop (m : Buf) : ℕ → ℕ → ℕ → ℤ
  | 0, _, _ => 0
  | size + 1, l, r =>
    if m l = m r then memcmpLoop m size (addPtr l 1) (addPtr r 1) else (m l).toInt8.toInt - (m r).toInt8.toInt

/-- `memcmp` -/
def memcmp (m : Buf) (lptr rptr size : ℕ) : ℤ := memcmpLoop m size lptr rptr

/-! ### Strings -/

/-- A `char` as an `int`; the type `char` is signed. -/
def charInt (c : UInt8) : ℤ := c.toInt8.toInt

/-- `strcmp`, on strings without their zeros. -/
def strcmp : List UInt8 → List UInt8 → ℤ
  | [], [] => 0
  | [], b :: _ => -charInt b
  | a :: _, [] => charInt a
  | a :: l, b :: r => if a = b then strcmp l r else charInt a - charInt b

theorem charInt_inj {a b : UInt8} : charInt a = charInt b ↔ a = b := by
  rw [charInt, charInt, Int8.toInt_inj]
  exact ⟨fun h => by rw [← UInt8.toUInt8_toInt8 a, h, UInt8.toUInt8_toInt8], fun h => h ▸ rfl⟩

theorem charInt_ne_zero {a : UInt8} (h : a ≠ 0) : charInt a ≠ 0 := fun hc =>
  h (charInt_inj.1 (hc.trans (show (0 : ℤ) = charInt 0 by decide)))

theorem strcmp_eq_zero_iff : ∀ {l r : List UInt8}, 0 ∉ l → 0 ∉ r → (strcmp l r = 0 ↔ l = r)
  | [], [], _, _ => by simp [strcmp]
  | [], b :: r, _, hr => by
    have hb : charInt b ≠ 0 := charInt_ne_zero fun hc => hr (hc ▸ List.mem_cons_self)
    simpa [strcmp] using hb
  | a :: l, [], hl, _ => by
    have ha : charInt a ≠ 0 := charInt_ne_zero fun hc => hl (hc ▸ List.mem_cons_self)
    simpa [strcmp] using ha
  | a :: l, b :: r, hl, hr => by
    have ih := strcmp_eq_zero_iff (fun hc => hl (List.mem_cons_of_mem a hc))
      fun hc => hr (List.mem_cons_of_mem b hc)
    have hne : a ≠ b → charInt a - charInt b ≠ 0 := fun hab hc => hab (charInt_inj.1 (by omega))
    rw [strcmp, List.cons.injEq]
    by_cases hab : a = b
    · simp only [hab, if_true, ih, true_and]
    · simp only [hab, if_false, hne hab, false_and]

end Strings

end Kernel64
