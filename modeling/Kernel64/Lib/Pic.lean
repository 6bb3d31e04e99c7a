import Mathlib.Algebra.Group.Nat.Defs
import Mathlib.Tactic.Common

/-!
# A pair of 8259 interrupt controllers

Each controller has eight lines. It is programmed by the initialization words, which begin with one
written to its command port and go on at its data port; after these the data port is the mask of the
lines (`Chip.command`, `Chip.data`). A line that is requested, not masked, and neither in service nor
below a line in service is passed on (`Chip.next`), the one of least number first. The second
controller of a `Pair` is connected to the line 2 of the first one.

`Pair.accept` is the acknowledge cycle of the processor: the line is put in service, and its vector is
sent. A line leaves service with the command of a specific end of interrupt. Left out are the other
commands for the end of an interrupt, reading the registers, and the vectors sent for a request that
is withdrawn during the cycle.
-/

namespace Kernel64

namespace Pic

/-- What a write to the data port of a controller is. -/
inductive Expect where
  | icw2 | icw3 | icw4 | ready
  deriving DecidableEq, Repr

/-- An interrupt controller. -/
structure Chip where
  expect : Expect
  /-- the controller has been told that it is the only one -/
  single : Bool
  /-- the controller has been told that there is a fourth initialization word -/
  needs4 : Bool
  vector : BitVec 8
  /-- the lines that have controllers of their own, or the line that this one is connected to -/
  cascade : BitVec 8
  mode : BitVec 8
  /-- the lines masked -/
  imr : BitVec 8
  /-- the lines requested -/
  irr : BitVec 8
  /-- the lines in service -/
  isr : BitVec 8
  deriving DecidableEq, Repr

/-- Set a bit. -/
def setBit (v : BitVec 8) (i : ℕ) : BitVec 8 := v ||| 1#8 <<< i

/-- Clear a bit. -/
def clearBit (v : BitVec 8) (i : ℕ) : BitVec 8 := v &&& ~~~(1#8 <<< i)

theorem getLsbD_setBit {v : BitVec 8} {i j : ℕ} (hi : i < 8) :
    (setBit v i).getLsbD j = (v.getLsbD j || decide (j = i)) := by
  simp only [setBit, BitVec.getLsbD_or, BitVec.getLsbD_shiftLeft, BitVec.getLsbD_one]
  refine congrArg (v.getLsbD j || ·) ?_
  rw [Bool.eq_iff_iff]
  simp
  omega

theorem getLsbD_clearBit {v : BitVec 8} {i j : ℕ} :
    (clearBit v i).getLsbD j = (v.getLsbD j && decide (j ≠ i)) := by
  by_cases hj : j < 8
  · simp only [clearBit, BitVec.getLsbD_and, BitVec.getLsbD_not, BitVec.getLsbD_shiftLeft,
      BitVec.getLsbD_one]
    refine congrArg (v.getLsbD j && ·) ?_
    rw [Bool.eq_iff_iff]
    simp only [hj, decide_true, Bool.true_and, Bool.not_eq_true', Bool.not_eq_false', Bool.and_eq_false_iff,
      decide_eq_true_iff, decide_eq_false_iff_not]
    omega
  · rw [BitVec.getLsbD_of_ge _ _ (by omega), BitVec.getLsbD_of_ge v _ (by omega), Bool.false_and]

theorem clearBit_setBit_zero (i : ℕ) : clearBit (setBit 0#8 i) i = 0#8 := by
  simp [clearBit, setBit]

namespace Chip

variable (c : Chip)

/-- A write to the command port. -/
def command (v : BitVec 8) : Chip :=
  if v.getLsbD 4 then
    -- the first initialization word
    { c with expect := .icw2, single := v.getLsbD 1, needs4 := v.getLsbD 0, imr := 0#8, irr := 0#8 }
  else if v.getLsbD 3 then c
  else if v.extractLsb' 5 3 = 3#3 then { c with isr := clearBit c.isr (v.toNat % 8) }
  else c

/-- What follows the word about other controllers. -/
def afterCascade : Expect := if c.needs4 then .icw4 else .ready

/-- A write to the data port. -/
def data (v : BitVec 8) : Chip :=
  match c.expect with
  | .icw2 => { c with vector := v &&& 0xF8#8, expect := if c.single then c.afterCascade else .icw3 }
  | .icw3 => { c with cascade := v, expect := c.afterCascade }
  | .icw4 => { c with mode := v, expect := .ready }
  | .ready => { c with imr := v }

/-- The line that is passed on, of those requested by `req`. -/
def next (req : ℕ → Bool) : Option ℕ :=
  (List.range 8).find? fun i => req i && !c.imr.getLsbD i && decide (∀ j ≤ i, c.isr.getLsbD j = false)

/-- A line is put in service. -/
def serve (i : ℕ) : Chip := { c with irr := clearBit c.irr i, isr := setBit c.isr i }

/-- A controller programmed with the vector `v`, as one of several, with the lines `imr` masked. -/
structure Programmed (v cascade imr : BitVec 8) : Prop where
  expect : c.expect = .ready
  vector : c.vector = v
  cascade : c.cascade = cascade
  mode : c.mode = 1#8
  imr : c.imr = imr

variable {c} {v w m : BitVec 8}

/-- The initialization words and a mask. -/
theorem programmed_init (hv : v &&& 0xF8#8 = v) :
    (((((c.command 0x11#8).data v).data w).data 1#8).data m).Programmed v w m := by
  constructor <;> simp [command, data, afterCascade, hv]

theorem isr_init : (((((c.command 0x11#8).data v).data w).data 1#8).data m).isr = c.isr := by
  simp [command, data, afterCascade]

/-- A write to the data port of a controller that has been programmed. -/
theorem Programmed.data_eq (h : c.Programmed v w m) (m' : BitVec 8) :
    c.data m' = { c with imr := m' } := by
  rw [Chip.data, h.expect]

theorem Programmed.data {m' : BitVec 8} (h : c.Programmed v w m) : (c.data m').Programmed v w m' := by
  rw [h.data_eq]
  exact ⟨h.expect, h.vector, h.cascade, h.mode, rfl⟩

theorem Programmed.serve {i : ℕ} (h : c.Programmed v w m) : (c.serve i).Programmed v w m :=
  ⟨h.expect, h.vector, h.cascade, h.mode, h.imr⟩

/-- The specific end of interrupt of a line. -/
theorem command_eoi {i : ℕ} (hi : i < 8) :
    c.command (BitVec.ofNat 8 (0x60 + i)) = { c with isr := clearBit c.isr i } := by
  have hall : ∀ i < 8, (BitVec.ofNat 8 (0x60 + i)).getLsbD 4 = false ∧
      (BitVec.ofNat 8 (0x60 + i)).getLsbD 3 = false ∧
      (BitVec.ofNat 8 (0x60 + i)).extractLsb' 5 3 = 3#3 ∧
      (BitVec.ofNat 8 (0x60 + i)).toNat % 8 = i := by decide
  obtain ⟨h4, h3, heoi, hline⟩ := hall i hi
  rw [command, h4, h3, if_neg Bool.false_ne_true, if_neg Bool.false_ne_true, if_pos heoi, hline]

/-- While no line is in service, the first line that is requested and not masked is passed on. -/
theorem next_eq_some_iff {req : ℕ → Bool} {i : ℕ} (hisr : c.isr = 0#8) :
    c.next req = some i ↔ i < 8 ∧ req i = true ∧ c.imr.getLsbD i = false ∧
      ∀ j < i, req j = false ∨ c.imr.getLsbD j = true := by
  rw [next, hisr, List.find?_range_eq_some]
  simp only [BitVec.getLsbD_zero, implies_true, decide_true, Bool.and_true, Bool.and_eq_true,
    Bool.not_eq_true', Bool.not_and, Bool.not_not, Bool.or_eq_true, List.mem_range]
  constructor
  · rintro ⟨⟨hreq, hmask⟩, hlt, hfirst⟩
    exact ⟨hlt, hreq, hmask, hfirst⟩
  · rintro ⟨hlt, hreq, hmask, hfirst⟩
    exact ⟨⟨hreq, hmask⟩, hlt, hfirst⟩

theorem next_isSome_iff {req : ℕ → Bool} (hisr : c.isr = 0#8) :
    (c.next req).isSome = true ↔ ∃ i < 8, req i = true ∧ c.imr.getLsbD i = false := by
  rw [next, List.find?_isSome, hisr]
  simp

end Chip

/-- Two controllers, the second one connected to the line 2 of the first. -/
structure Pair where
  master : Chip
  slave : Chip
  deriving DecidableEq, Repr

namespace Pair

variable (p : Pair)

/-- The line that the second controller passes on. -/
def slaveNext : Option ℕ := p.slave.next p.slave.irr.getLsbD

/-- The requests that the first controller sees. -/
def requests (i : ℕ) : Bool := if i = 2 then p.slaveNext.isSome else p.master.irr.getLsbD i

/-- The acknowledge cycle: the vector sent, and the controllers afterwards. -/
def accept : Option (BitVec 8 × Pair) :=
  match p.master.next p.requests with
  | none => none
  | some k =>
    if p.master.cascade.getLsbD k then
      -- the controller of that line answers
      match p.slaveNext with
      | some m =>
        if p.slave.cascade.toNat % 8 = k then
          some (p.slave.vector + BitVec.ofNat 8 m, ⟨p.master.serve k, p.slave.serve m⟩)
        else none
      | none => none
    else some (p.master.vector + BitVec.ofNat 8 k, ⟨p.master.serve k, p.slave⟩)

/-- A device raises a line: the lines of the second controller are those from 8 on. -/
def raise (i : ℕ) : Pair :=
  if i < 8 then { p with master := { p.master with irr := setBit p.master.irr i } }
  else { p with slave := { p.slave with irr := setBit p.slave.irr (i - 8) } }

end Pair

end Pic

end Kernel64
