import Mathlib.Algebra.Group.Nat.Defs
import Mathlib.Logic.Function.Basic
import Mathlib.Logic.Relation
import Mathlib.Tactic.Common

/-!
# A 64-bit register machine

The part of a 64-bit processor that hand-written entry code uses: sixteen registers, memory read
and written a quadword at a time, straight-line instructions (`Op`), and calls, returns, jumps and
the return from an interrupt. Where code lies, and how long an instruction is, is the `Image`'s:
`Holds im a is b` says that it has the instructions `is` from the address `a` up to `b`.

Straight-line code is run by `runOps`, and `Image.Holds.reaches_ops` turns such a run into steps of
the machine. A function that is called is known by what it keeps (`Returned`). Code that saves
registers in memory and loads them back is a list of registers with their offsets: `run_saves` and
`run_restores` say what a save area holds and what comes back from it.
-/

namespace Kernel64

namespace Machine

/-- A quadword. -/
abbrev Word : Type := BitVec 64

/-- The general registers. -/
inductive Reg where
  | rax | rbx | rcx | rdx | rsi | rdi | rbp | rsp
  | r8 | r9 | r10 | r11 | r12 | r13 | r14 | r15
  deriving DecidableEq, Repr

/-- The registers that a function which is called keeps, beside the stack pointer. -/
def calleeSaved : List Reg := [.rbx, .rbp, .r12, .r13, .r14, .r15]

/-- The state of the processor and its memory, which is the quadword at each aligned address. -/
@[ext]
structure State where
  reg : Reg → Word
  mem : Word → Word
  rip : Word
  rflags : Word
  cs : Word
  ss : Word

/-- Addresses of quadwords. An access elsewhere is outside of this machine. -/
def Aligned (a : Word) : Prop := a.toNat % 8 = 0

instance (a : Word) : Decidable (Aligned a) := inferInstanceAs (Decidable (_ = _))

namespace State

/-- Set a register. -/
def set (s : State) (r : Reg) (v : Word) : State := { s with reg := Function.update s.reg r v }

/-- Store a quadword. -/
def store (s : State) (a v : Word) : State := { s with mem := Function.update s.mem a v }

@[simp]
theorem set_self (s : State) (r : Reg) (v : Word) : (s.set r v).reg r = v := Function.update_self ..

theorem set_of_ne {s : State} {r q : Reg} {v : Word} (h : q ≠ r) : (s.set r v).reg q = s.reg q :=
  Function.update_of_ne h ..

@[simp]
theorem set_mem (s : State) (r : Reg) (v : Word) : (s.set r v).mem = s.mem := rfl

@[simp]
theorem store_reg (s : State) (a v : Word) : (s.store a v).reg = s.reg := rfl

@[simp]
theorem store_self (s : State) (a v : Word) : (s.store a v).mem a = v := Function.update_self ..

theorem store_of_ne {s : State} {a b v : Word} (h : b ≠ a) : (s.store a v).mem b = s.mem b :=
  Function.update_of_ne h ..

/-- Push a quadword. -/
def push (s : State) (v : Word) : Option State :=
  if Aligned (s.reg .rsp) then some ((s.store (s.reg .rsp - 8#64) v).set .rsp (s.reg .rsp - 8#64))
  else none

/-- The quadword on top of the stack, and the state without it. -/
def pop (s : State) : Option (Word × State) :=
  if Aligned (s.reg .rsp) then some (s.mem (s.reg .rsp), s.set .rsp (s.reg .rsp + 8#64))
  else none

end State

/-! ### Flags -/

/-- The zero flag. -/
def zf (rflags : Word) : Bool := rflags.getLsbD 6

/-- The sign flag. -/
def sf (rflags : Word) : Bool := rflags.getLsbD 7

/-- The overflow flag. -/
def of (rflags : Word) : Bool := rflags.getLsbD 11

/-- The mask of the flags that arithmetic sets. -/
def arithMask : Word := 0x8C0#64

/-- The flags after an arithmetic instruction with the given result and signed overflow; the carry,
parity and adjust flags, which nothing here tests, are left out. -/
def setArith (rflags result : Word) (overflow : Bool) : Word :=
  (rflags &&& ~~~arithMask) ||| ((BitVec.ofBool (result == 0#64)).setWidth 64 <<< 6)
    ||| ((BitVec.ofBool result.msb).setWidth 64 <<< 7) ||| ((BitVec.ofBool overflow).setWidth 64 <<< 11)

/-- The flags after comparing `b` with `a`, that is after `b - a`. -/
def compare (rflags a b : Word) : Word :=
  setArith rflags (b - a) (decide ((b - a).toInt ≠ b.toInt - a.toInt))

theorem zf_setArith (f w : Word) (b : Bool) : zf (setArith f w b) = (w == 0#64) := by
  simp [zf, setArith, arithMask]

theorem sf_setArith (f w : Word) (b : Bool) : sf (setArith f w b) = w.msb := by
  simp [sf, setArith, arithMask]

theorem of_setArith (f w : Word) (b : Bool) : of (setArith f w b) = b := by
  simp [of, setArith, arithMask]

/-- After a comparison, the signed numbers are in order exactly when the sign and overflow flags
agree. -/
theorem sf_eq_of_compare (f a b : Word) :
    sf (compare f a b) = of (compare f a b) ↔ a.toInt ≤ b.toInt := by
  have ha := BitVec.toInt_lt (x := a)
  have ha' := BitVec.le_toInt (x := a)
  have hb := BitVec.toInt_lt (x := b)
  have hb' := BitVec.le_toInt (x := b)
  have hsub : (b - a).toInt = (b.toInt - a.toInt).bmod (2 ^ 64) := BitVec.toInt_sub ..
  rw [compare, sf_setArith, of_setArith, BitVec.msb_eq_toInt, Bool.eq_iff_iff, decide_eq_true_iff,
    decide_eq_true_iff, hsub, Int.bmod_def]
  omega

/-! ### Instructions -/

/-- Straight-line instructions; the destination is the last operand. -/
inductive Op where
  | push (r : Reg)
  | pushImm (v : Word)
  | pop (r : Reg)
  | mov (src dst : Reg)
  | movImm (v : Word) (dst : Reg)
  /-- `movq offset(base), dst` -/
  | load (offset : Word) (base dst : Reg)
  /-- `movq src, offset(base)` -/
  | store (src : Reg) (offset : Word) (base : Reg)
  /-- `movq table(, index, 8), dst` -/
  | loadIndexed (table : Word) (index dst : Reg)
  | add (v : Word) (dst : Reg)
  | sub (v : Word) (dst : Reg)
  /-- `cmpq $v, r` -/
  | cmp (v : Word) (r : Reg)
  /-- `testq r, r` -/
  | test (r : Reg)
  | cld
  deriving DecidableEq, Repr

/-- What a straight-line instruction does, but for going on to the next one. -/
def Op.exec (s : State) : Op → Option State
  | .push r => s.push (s.reg r)
  | .pushImm v => s.push v
  | .pop r => s.pop.map fun p => p.2.set r p.1
  | .mov src dst => some (s.set dst (s.reg src))
  | .movImm v dst => some (s.set dst v)
  | .load offset base dst =>
    if Aligned (s.reg base + offset) then some (s.set dst (s.mem (s.reg base + offset))) else none
  | .store src offset base =>
    if Aligned (s.reg base + offset) then some (s.store (s.reg base + offset) (s.reg src)) else none
  | .loadIndexed table index dst =>
    if Aligned (table + 8#64 * s.reg index) then
      some (s.set dst (s.mem (table + 8#64 * s.reg index)))
    else none
  | .add v dst =>
    let result := s.reg dst + v
    some { s.set dst result with
      rflags := setArith s.rflags result (decide (result.toInt ≠ (s.reg dst).toInt + v.toInt)) }
  | .sub v dst => some { s.set dst (s.reg dst - v) with rflags := compare s.rflags v (s.reg dst) }
  | .cmp v r => some { s with rflags := compare s.rflags v (s.reg r) }
  | .test r => some { s with rflags := setArith s.rflags (s.reg r) false }
  | .cld => some { s with rflags := s.rflags &&& ~~~0x400#64 }

/-- Instructions. -/
inductive Instr where
  | op (o : Op)
  | call (target : Word)
  | callReg (r : Reg)
  | ret
  | iretq
  | jmp (target : Word)
  /-- jump if greater or equal, of signed numbers -/
  | jge (target : Word)
  /-- jump if equal -/
  | je (target : Word)
  deriving DecidableEq, Repr

/-- The code in memory: the instruction at an address, and the address after it. -/
abbrev Image : Type := Word → Option (Instr × Word)

/-- `iretq`: load the instruction pointer, the code segment, the flags, the stack pointer and the
stack segment from the stack. -/
def State.iretq (s : State) : Option State :=
  let sp := s.reg .rsp
  if Aligned sp then
    some { s.set .rsp (s.mem (sp + 24#64)) with
      rip := s.mem sp
      cs := s.mem (sp + 8#64)
      rflags := s.mem (sp + 16#64)
      ss := s.mem (sp + 32#64) }
  else none

/-- An instruction at its place; `next` is the address after it. -/
def Instr.exec (next : Word) (s : State) : Instr → Option State
  | .op o => (o.exec s).map fun s' => { s' with rip := next }
  | .call target => (s.push next).map fun s' => { s' with rip := target }
  | .callReg r => (s.push next).map fun s' => { s' with rip := s.reg r }
  | .ret => s.pop.map fun p => { p.2 with rip := p.1 }
  | .iretq => s.iretq
  | .jmp target => some { s with rip := target }
  | .jge target => some { s with rip := if sf s.rflags = of s.rflags then target else next }
  | .je target => some { s with rip := if zf s.rflags then target else next }

/-- One step of the processor. -/
def step (im : Image) (s : State) : Option State :=
  match im s.rip with
  | none => none
  | some (i, next) => i.exec next s

/-- The processor gets from one state to another. -/
def Reaches (im : Image) : State → State → Prop :=
  Relation.ReflTransGen fun s s' => step im s = some s'

/-! ### Interrupts -/

/-- A gate of the interrupt table. A trap gate leaves interrupts enabled. -/
structure Gate where
  target : Word
  cs : Word
  trap : Bool
  /-- the privilege level that may call it with `int` -/
  dpl : ℕ
  deriving DecidableEq, Repr

/-- The privilege level of a code segment. -/
def cpl (cs : Word) : Word := cs &&& 3#64

/-- The flags a handler starts with: the trap, nested-task and resume flags are cleared, and for an
interrupt gate the interrupt flag. -/
def enteredFlags (trap : Bool) (rflags : Word) : Word :=
  rflags &&& ~~~(0x14100#64 ||| if trap then 0#64 else 0x200#64)

/-- The stack the processor pushes on, from 16-byte boundaries down: the current one, or on a change
of the privilege level the one of the task state segment. -/
def deliveryStack (s : State) (g : Gate) (rsp0 : Word) : Word :=
  let sp := if cpl s.cs = cpl g.cs then s.reg .rsp else rsp0
  sp - sp % 16#64

/-- The words the processor pushes, last one first. -/
def deliveredWords (s : State) (error : Option Word) : List Word :=
  error.toList ++ [s.rip, s.cs, s.rflags, s.reg .rsp, s.ss]

/-- Store words from an address on. -/
def storeWords (mem : Word → Word) (a : Word) : List Word → Word → Word
  | [] => mem
  | v :: l => Function.update (storeWords mem (a + 8#64) l) a v

/-- The processor takes an interrupt or an exception, with its error code if it has one. -/
def deliver (s : State) (g : Gate) (rsp0 : Word) (error : Option Word) : State where
  reg := Function.update s.reg .rsp
    (deliveryStack s g rsp0 - BitVec.ofNat 64 (8 * (deliveredWords s error).length))
  mem := storeWords s.mem
    (deliveryStack s g rsp0 - BitVec.ofNat 64 (8 * (deliveredWords s error).length))
    (deliveredWords s error)
  rip := g.target
  rflags := enteredFlags g.trap s.rflags
  cs := g.cs
  ss := if cpl s.cs = cpl g.cs then s.ss else 0#64

/-! ### Straight-line code -/

/-- Run straight-line code. -/
def runOps : List Op → State → Option State
  | [], s => some s
  | o :: l, s => (o.exec s).bind (runOps l)

theorem runOps_append (l l' : List Op) (s : State) :
    runOps (l ++ l') s = (runOps l s).bind (runOps l') := by
  induction l generalizing s with
  | nil => rfl
  | cons o l ih =>
    rw [List.cons_append, runOps, runOps]
    cases o.exec s with
    | none => rfl
    | some s₁ => exact ih s₁

/-- The image has the instructions `is` from the address `a` up to `b`. -/
def Image.Holds (im : Image) (a : Word) : List Instr → Word → Prop
  | [], b => a = b
  | i :: l, b => ∃ next, im a = some (i, next) ∧ Image.Holds im next l b

theorem Image.Holds.append {im : Image} {l l' : List Instr} {a b : Word} :
    im.Holds a (l ++ l') b ↔ ∃ c, im.Holds a l c ∧ im.Holds c l' b := by
  induction l generalizing a with
  | nil => exact ⟨fun h => ⟨a, rfl, h⟩, fun h => by obtain ⟨c, rfl, h⟩ := h; exact h⟩
  | cons i l ih =>
    constructor
    · intro h
      obtain ⟨next, hi, h⟩ := h
      obtain ⟨c, h, h'⟩ := ih.1 h
      exact ⟨c, ⟨next, hi, h⟩, h'⟩
    · intro h
      obtain ⟨c, h, h'⟩ := h
      obtain ⟨next, hi, h⟩ := h
      exact ⟨next, hi, ih.2 ⟨c, h, h'⟩⟩

/-- An image of instructions in a row from address 0 on, each a byte long. -/
def Image.ofList (l : List Instr) : Image := fun a => (l[a.toNat]?).map fun i => (i, a + 1#64)

theorem Image.holds_ofList {l : List Instr} : ∀ {code : List Instr} {k : ℕ}, code <+: l.drop k →
    k + code.length < 2 ^ 64 →
    (Image.ofList l).Holds (BitVec.ofNat 64 k) code (BitVec.ofNat 64 (k + code.length))
  | [], _, _, _ => rfl
  | i :: code, k, h, hk => by
    rw [List.length_cons] at hk
    have hnat : (BitVec.ofNat 64 k).toNat = k := by
      rw [BitVec.toNat_ofNat]
      exact Nat.mod_eq_of_lt (by omega)
    obtain ⟨rest, hrest⟩ := h
    have hget : l[k]? = some i := by
      rw [← List.head?_drop, ← hrest]
      rfl
    have htail : code <+: l.drop (k + 1) := by
      refine ⟨rest, ?_⟩
      rw [← List.tail_drop, ← hrest]
      rfl
    have hnext : BitVec.ofNat 64 k + 1#64 = BitVec.ofNat 64 (k + 1) := (BitVec.ofNat_add ..).symm
    have hcode := holds_ofList htail (by omega)
    rw [show k + 1 + code.length = k + (i :: code).length by rw [List.length_cons]; omega] at hcode
    refine ⟨BitVec.ofNat 64 (k + 1), ?_, hcode⟩
    rw [Image.ofList, hnat, hget, Option.map_some, hnext]

/-- No straight-line instruction looks at the instruction pointer. -/
theorem Op.exec_rip (o : Op) (s : State) (a : Word) :
    o.exec { s with rip := a } = (o.exec s).map fun s' => { s' with rip := a } := by
  cases o <;> simp only [Op.exec, State.push, State.pop, State.set, State.store, Option.map_some] <;>
    split <;> rfl

theorem runOps_rip (l : List Op) (s : State) (a : Word) :
    runOps l { s with rip := a } = (runOps l s).map fun s' => { s' with rip := a } := by
  induction l generalizing s with
  | nil => rfl
  | cons o l ih =>
    rw [runOps, runOps, o.exec_rip]
    cases o.exec s with
    | none => rfl
    | some s₁ => exact ih s₁

/-- A run of straight-line code is a run of the machine. -/
theorem Image.Holds.reaches_ops {im : Image} {l : List Op} {s s' : State} {b : Word}
    (h : im.Holds s.rip (l.map .op) b) (hrun : runOps l s = some s') :
    Reaches im s { s' with rip := b } := by
  induction l generalizing s s' with
  | nil =>
    obtain rfl : s = s' := Option.some.inj hrun
    obtain rfl : s.rip = b := h
    exact .refl
  | cons o l ih =>
    obtain ⟨next, hi, h⟩ := h
    rw [runOps] at hrun
    cases ho : o.exec s with
    | none => rw [ho] at hrun; cases hrun
    | some s₁ =>
      rw [ho, Option.bind_some] at hrun
      have hstep : step im s = some { s₁ with rip := next } := by
        simp only [step, hi, Instr.exec, ho, Option.map_some]
      have hrest : runOps l { s₁ with rip := next } = some { s' with rip := next } := by
        rw [runOps_rip, hrun, Option.map_some]
      have hreach := ih (s := { s₁ with rip := next }) h hrest
      exact .head hstep hreach

/-! ### Steps -/

section

variable {im : Image} {s s' : State} {next target : Word}

theorem step_op {o : Op} (hcode : im s.rip = some (.op o, next)) (h : o.exec s = some s') :
    step im s = some { s' with rip := next } := by
  simp only [step, hcode, Instr.exec, h, Option.map_some]

theorem step_call (hcode : im s.rip = some (.call target, next)) (h : s.push next = some s') :
    step im s = some { s' with rip := target } := by
  simp only [step, hcode, Instr.exec, h, Option.map_some]

theorem step_callReg {r : Reg} (hcode : im s.rip = some (.callReg r, next))
    (h : s.push next = some s') : step im s = some { s' with rip := s.reg r } := by
  simp only [step, hcode, Instr.exec, h, Option.map_some]

theorem step_jmp (hcode : im s.rip = some (.jmp target, next)) :
    step im s = some { s with rip := target } := by
  simp only [step, hcode, Instr.exec]

theorem step_jge (hcode : im s.rip = some (.jge target, next)) :
    step im s = some { s with rip := if sf s.rflags = of s.rflags then target else next } := by
  simp only [step, hcode, Instr.exec]

theorem step_je (hcode : im s.rip = some (.je target, next)) :
    step im s = some { s with rip := if zf s.rflags then target else next } := by
  simp only [step, hcode, Instr.exec]

theorem step_iretq (hcode : im s.rip = some (.iretq, next)) : step im s = s.iretq := by
  simp only [step, hcode, Instr.exec]

theorem step_ret (hcode : im s.rip = some (.ret, next)) (halign : Aligned (s.reg .rsp)) :
    step im s = some { s.set .rsp (s.reg .rsp + 8#64) with rip := s.mem (s.reg .rsp) } := by
  simp only [step, hcode, Instr.exec, State.pop, if_pos halign, Option.map_some]

end

/-! ### Save areas

A save area is a list of registers, each with the offset of its quadword from a base address. -/

/-- A save area. -/
abbrev Area : Type := List (Reg × ℕ)

/-- The address of a quadword of a save area. -/
def quad (base : Word) (o : ℕ) : Word := base + BitVec.ofNat 64 o

/-- The memory holds the registers. -/
def Saved (mem : Word → Word) (base : Word) (l : Area) (reg : Reg → Word) : Prop :=
  ∀ p ∈ l, mem (quad base p.2) = reg p.1

/-- The registers after those of a save area are loaded. -/
def loaded (mem : Word → Word) (base : Word) (l : Area) (reg : Reg → Word) (r : Reg) : Word :=
  match l.lookup r with
  | some o => mem (quad base o)
  | none => reg r

/-- An address outside of the quadwords of a save area. -/
def Outside (a base : Word) (l : Area) : Prop := ∀ p ∈ l, a ≠ quad base p.2

/-- The quadwords of a save area are aligned and apart from each other, and each register has one. -/
structure Area.Ok (l : Area) : Prop where
  aligned : ∀ p ∈ l, p.2 % 8 = 0
  lt : ∀ p ∈ l, p.2 < 2 ^ 64
  nodup : (l.map Prod.snd).Nodup
  regs : (l.map Prod.fst).Nodup
  rsp : ∀ p ∈ l, p.1 ≠ .rsp

/-- Store the registers of a save area at the stack pointer. -/
def saves (l : Area) : List Op := l.map fun p => .store p.1 (BitVec.ofNat 64 p.2) .rsp

/-- Load the registers of a save area at the stack pointer. -/
def restores (l : Area) : List Op := l.map fun p => .load (BitVec.ofNat 64 p.2) .rsp p.1

theorem quad_add (base : Word) (o o' : ℕ) : quad base (o + o') = quad (quad base o) o' := by
  rw [quad, quad, quad, BitVec.ofNat_add, BitVec.add_assoc]

theorem quad_zero (base : Word) : quad base 0 = base := BitVec.add_zero base

theorem quad_inj {base : Word} {o o' : ℕ} (h : o < 2 ^ 64) (h' : o' < 2 ^ 64)
    (heq : quad base o = quad base o') : o = o' := by
  have hnat := congrArg BitVec.toNat (BitVec.add_right_inj base |>.1 heq)
  rwa [BitVec.toNat_ofNat, BitVec.toNat_ofNat, Nat.mod_eq_of_lt h, Nat.mod_eq_of_lt h'] at hnat

theorem aligned_quad {base : Word} (h : Aligned base) {o : ℕ} (ho : o % 8 = 0) :
    Aligned (quad base o) := by
  rw [Aligned] at *
  rw [quad, BitVec.toNat_add, BitVec.toNat_ofNat]
  omega

theorem Area.Ok.tail {p : Reg × ℕ} {l : Area} (h : Area.Ok (p :: l)) : Area.Ok l where
  aligned q hq := h.aligned q (List.mem_cons_of_mem p hq)
  lt q hq := h.lt q (List.mem_cons_of_mem p hq)
  nodup := (List.nodup_cons.1 h.nodup).2
  regs := (List.nodup_cons.1 h.regs).2
  rsp q hq := h.rsp q (List.mem_cons_of_mem p hq)

/-- **Saving** registers leaves them in the area, and the rest of the memory alone. -/
theorem run_saves {l : Area} (hl : l.Ok) : ∀ {s : State}, Aligned (s.reg .rsp) →
    ∃ mem, runOps (saves l) s = some { s with mem := mem } ∧ Saved mem (s.reg .rsp) l s.reg ∧
      ∀ a, Outside a (s.reg .rsp) l → mem a = s.mem a := by
  induction l with
  | nil => exact fun {s} _ => ⟨s.mem, rfl, nofun, fun _ _ => rfl⟩
  | cons p l ih =>
    intro s halign
    have hp : Aligned (s.reg .rsp + BitVec.ofNat 64 p.2) :=
      aligned_quad halign (hl.aligned p List.mem_cons_self)
    obtain ⟨mem, hrun, hsaved, hout⟩ := ih hl.tail (s := s.store (quad (s.reg .rsp) p.2) (s.reg p.1)) halign
    refine ⟨mem, ?_, ?_, fun a ha => ?_⟩
    · simp only [saves, List.map_cons, runOps, Op.exec, if_pos hp, Option.bind_some]
      exact hrun
    · intro q hq
      rcases List.mem_cons.1 hq with rfl | hq
      · -- the later stores are at other offsets
        have hapart : Outside (quad (s.reg .rsp) q.2) (s.reg .rsp) l := by
          intro r hr heq
          have hoff := quad_inj (hl.lt q List.mem_cons_self) (hl.lt r (List.mem_cons_of_mem q hr)) heq
          exact (List.nodup_cons.1 hl.nodup).1 (hoff ▸ List.mem_map_of_mem hr)
        rw [hout _ hapart]
        exact Function.update_self ..
      · exact hsaved q hq
    · rw [hout a fun q hq => ha q (List.mem_cons_of_mem p hq)]
      exact Function.update_of_ne (ha p List.mem_cons_self) ..

theorem lookup_eq_none {l : Area} {r : Reg} (h : r ∉ l.map Prod.fst) : l.lookup r = none := by
  induction l with
  | nil => rfl
  | cons p l ih =>
    rw [List.map_cons, List.mem_cons, not_or] at h
    rw [List.lookup_cons, beq_eq_false_iff_ne.2 h.1]
    exact ih h.2

theorem loaded_cons (mem : Word → Word) (base : Word) (p : Reg × ℕ) (l : Area) (reg : Reg → Word)
    (r : Reg) : loaded mem base (p :: l) reg r =
      if r = p.1 then mem (quad base p.2) else loaded mem base l reg r := by
  rw [loaded, List.lookup_cons]
  by_cases hr : r = p.1
  · rw [if_pos hr, beq_iff_eq.2 hr]
  · rw [if_neg hr, beq_eq_false_iff_ne.2 hr]
    rfl

/-- **Restoring** loads the registers of the area, and no others. -/
theorem run_restores {l : Area} (hl : l.Ok) : ∀ {s : State}, Aligned (s.reg .rsp) →
    runOps (restores l) s = some { s with reg := loaded s.mem (s.reg .rsp) l s.reg } := by
  induction l with
  | nil => exact fun _ => rfl
  | cons p l ih =>
    intro s halign
    have hp : Aligned (s.reg .rsp + BitVec.ofNat 64 p.2) :=
      aligned_quad halign (hl.aligned p List.mem_cons_self)
    have hrsp : (s.set p.1 (s.mem (quad (s.reg .rsp) p.2))).reg .rsp = s.reg .rsp :=
      Function.update_of_ne (hl.rsp p List.mem_cons_self).symm ..
    have hrun := ih hl.tail (s := s.set p.1 (s.mem (quad (s.reg .rsp) p.2))) (by rwa [hrsp])
    rw [hrsp] at hrun
    simp only [restores, List.map_cons, runOps, Op.exec, if_pos hp, Option.bind_some]
    refine hrun.trans (congrArg some ?_)
    ext r : 2 <;> try rfl
    show loaded s.mem (s.reg .rsp) l _ r = loaded s.mem (s.reg .rsp) (p :: l) s.reg r
    rw [loaded_cons]
    by_cases hr : r = p.1
    · subst hr
      rw [if_pos rfl, loaded, lookup_eq_none (List.nodup_cons.1 hl.regs).1]
      exact Function.update_self ..
    · rw [if_neg hr, loaded, loaded]
      cases l.lookup r with
      | none => exact Function.update_of_ne hr ..
      | some o => rfl

/-- What was saved is what is loaded. -/
theorem Saved.loaded {mem : Word → Word} {base : Word} {l : Area} {reg reg' : Reg → Word}
    (h : Saved mem base l reg) {r : Reg} (hr : r ∈ l.map Prod.fst) :
    loaded mem base l reg' r = reg r := by
  induction l with
  | nil => cases hr
  | cons p l ih =>
    rw [loaded_cons]
    by_cases hp : r = p.1
    · rw [if_pos hp, hp]
      exact h p List.mem_cons_self
    · rw [if_neg hp]
      exact ih (fun q hq => h q (List.mem_cons_of_mem p hq)) ((List.mem_cons.1 hr).resolve_left hp)

theorem loaded_of_not_mem {mem : Word → Word} {base : Word} {l : Area} {reg : Reg → Word} {r : Reg}
    (hr : r ∉ l.map Prod.fst) : loaded mem base l reg r = reg r := by
  rw [loaded, lookup_eq_none hr]

/-! ### Words in a row -/

/-- Words stored in a row are found at their places, and the rest of the memory is left alone. -/
theorem storeWords_get (mem : Word → Word) (base : Word) : ∀ (l : List Word) (o : ℕ) {i : ℕ} (h : i < l.length),
    o + 8 * l.length ≤ 2 ^ 64 → storeWords mem (quad base o) l (quad base (o + 8 * i)) = l[i]
  | v :: l, o, 0, _, _ => Function.update_self ..
  | v :: l, o, i + 1, h, hlen => by
    rw [List.length_cons] at h hlen
    have hne : quad base (o + 8 * (i + 1)) ≠ quad base o := by
      intro hc
      have := quad_inj (by omega) (by omega) hc
      omega
    have hnext : quad base o + 8#64 = quad base (o + 8) := (quad_add base o 8).symm
    rw [storeWords, Function.update_of_ne hne, hnext, show o + 8 * (i + 1) = o + 8 + 8 * i by omega,
      storeWords_get mem base l (o + 8) (by omega) (by omega)]
    rfl

theorem storeWords_append (mem : Word → Word) (base : Word) (l l' : List Word) (o : ℕ) :
    storeWords mem (quad base o) (l ++ l') =
      storeWords (storeWords mem (quad base (o + 8 * l.length)) l') (quad base o) l := by
  induction l generalizing o with
  | nil => rfl
  | cons v l ih =>
    have hnext : quad base o + 8#64 = quad base (o + 8) := (quad_add base o 8).symm
    rw [List.cons_append, storeWords, storeWords, hnext, ih, List.length_cons,
      show o + 8 + 8 * l.length = o + 8 * (l.length + 1) by omega]

theorem storeWords_outside {mem : Word → Word} {base a : Word} : ∀ {l : List Word} {o : ℕ},
    (∀ i < l.length, a ≠ quad base (o + 8 * i)) → storeWords mem (quad base o) l a = mem a
  | [], _, _ => rfl
  | v :: l, o, h => by
    have hnext : quad base o + 8#64 = quad base (o + 8) := (quad_add base o 8).symm
    have hne : a ≠ quad base o := h 0 (Nat.succ_pos _)
    rw [storeWords, Function.update_of_ne hne, hnext]
    refine storeWords_outside fun i hi => ?_
    have hi' := h (i + 1) (by rw [List.length_cons]; omega)
    rwa [show o + 8 * (i + 1) = o + 8 + 8 * i by omega] at hi'

/-! ### Registers on the stack -/

/-- The quadwords that registers are popped from, from the offset `o` on. -/
def stackArea : ℕ → List Reg → Area
  | _, [] => []
  | o, r :: l => (r, o) :: stackArea (o + 8) l

theorem offset_of_mem {o : ℕ} {l : List Reg} {p : Reg × ℕ} (h : p ∈ stackArea o l) :
    o ≤ p.2 ∧ p.2 < o + 8 * l.length ∧ p.1 ∈ l := by
  induction l generalizing o with
  | nil => cases h
  | cons r l ih =>
    rcases List.mem_cons.1 h with rfl | h
    · exact ⟨Nat.le_refl o, by simp only [List.length_cons]; omega, List.mem_cons_self⟩
    · obtain ⟨hle, hlt, hmem⟩ := ih h
      refine ⟨by omega, ?_, List.mem_cons_of_mem r hmem⟩
      rw [List.length_cons]
      omega

/-- Registers stored in a row make a save area. -/
theorem saved_storeWords (mem : Word → Word) (base : Word) (reg : Reg → Word) :
    ∀ (l : List Reg) (o : ℕ), o + 8 * l.length ≤ 2 ^ 64 →
      Saved (storeWords mem (quad base o) (l.map reg)) base (stackArea o l) reg
  | [], _, _ => nofun
  | r :: l, o, hlen => by
    rw [List.length_cons] at hlen
    have hnext : quad base o + 8#64 = quad base (o + 8) := (quad_add base o 8).symm
    intro p hp
    rw [List.map_cons, storeWords, hnext]
    rcases List.mem_cons.1 hp with rfl | hp
    · exact Function.update_self ..
    · obtain ⟨hle, hlt, -⟩ := offset_of_mem hp
      have hne : quad base p.2 ≠ quad base o := by
        intro hc
        have := quad_inj (by omega) (by omega) hc
        omega
      rw [Function.update_of_ne hne]
      exact saved_storeWords mem base reg l (o + 8) (by omega) p hp

/-- A push onto a stack whose addresses are counted from `base`. -/
theorem push_quad {base : Word} (hbase : Aligned base) {s : State} {o : ℕ} (ho : o % 8 = 0)
    (hsp : s.reg .rsp = quad base (o + 8)) (v : Word) :
    s.push v = some ((s.store (quad base o) v).set .rsp (quad base o)) := by
  have halign : Aligned (s.reg .rsp) := hsp ▸ aligned_quad hbase (by omega)
  have hdown : s.reg .rsp - 8#64 = quad base o := by
    rw [hsp, quad_add]
    exact BitVec.add_sub_cancel ..
  rw [State.push, if_pos halign, hdown]

/-- **Pushing** registers stores them below the stack pointer, the last one lowest. -/
theorem run_pushes {base : Word} (hbase : Aligned base) : ∀ {l : List Reg} {s : State}, .rsp ∉ l →
    s.reg .rsp = quad base (8 * l.length) →
    runOps (l.map .push) s = some { s with
      mem := storeWords s.mem base (l.reverse.map s.reg)
      reg := Function.update s.reg .rsp base }
  | [], s, _, hsp => by
    rw [List.length_nil, Nat.mul_zero, quad_zero] at hsp
    rw [← hsp, Function.update_eq_self]
    rfl
  | r :: l, s, hmem, hsp => by
    rw [List.mem_cons, not_or] at hmem
    have hpush := push_quad hbase (s := s) (o := 8 * l.length) (by omega) hsp (s.reg r)
    have hrun := run_pushes hbase (l := l)
      (s := (s.store (quad base (8 * l.length)) (s.reg r)).set .rsp (quad base (8 * l.length)))
      hmem.2 (State.set_self ..)
    have hkept : l.reverse.map (Function.update s.reg .rsp (quad base (8 * l.length))) =
        l.reverse.map s.reg := by
      refine List.map_congr_left fun q hq => ?_
      have hne : q ≠ .rsp := fun hc => hmem.2 (hc ▸ List.mem_reverse.1 hq)
      exact Function.update_of_ne hne ..
    have hstore := storeWords_append s.mem base (l.reverse.map s.reg) [s.reg r] 0
    rw [quad_zero, Nat.zero_add, List.length_map, List.length_reverse] at hstore
    rw [List.map_cons, runOps, Op.exec, hpush, Option.bind_some, hrun, List.reverse_cons, List.map_append,
      List.map_singleton, hstore]
    simp only [State.set, State.store, Function.update_idem, hkept]
    rfl

/-- **Popping** registers loads them from the stack. -/
theorem run_pops {base : Word} (hbase : Aligned base) : ∀ {l : List Reg} {o : ℕ} {s : State},
    .rsp ∉ l → l.Nodup → o % 8 = 0 → s.reg .rsp = quad base o →
    runOps (l.map .pop) s = some { s with
      reg := Function.update (loaded s.mem base (stackArea o l) s.reg) .rsp
        (quad base (o + 8 * l.length)) }
  | [], o, s, _, _, _, hsp => by
    have hreg : Function.update (loaded s.mem base [] s.reg) .rsp (quad base (o + 8 * 0)) = s.reg := by
      rw [Nat.mul_zero, Nat.add_zero, ← hsp]
      exact Function.update_eq_self ..
    rw [stackArea, List.length_nil, hreg]
    rfl
  | r :: l, o, s, hmem, hnodup, ho, hsp => by
    rw [List.mem_cons, not_or] at hmem
    have halign : Aligned (s.reg .rsp) := hsp ▸ aligned_quad hbase ho
    have hnext : s.reg .rsp + 8#64 = quad base (o + 8) := by rw [hsp, quad_add]; rfl
    have hrsp : ((s.set .rsp (quad base (o + 8))).set r (s.mem (quad base o))).reg .rsp =
        quad base (o + 8) :=
      (State.set_of_ne hmem.1).trans (State.set_self ..)
    have hrun := run_pops hbase (l := l) (o := o + 8) hmem.2 (List.nodup_cons.1 hnodup).2 (by omega) hrsp
    simp only [List.map_cons, runOps, Op.exec, State.pop, if_pos halign, hnext, Option.map_some,
      Option.bind_some]
    rw [hsp, hrun]
    refine congrArg some ?_
    ext q : 2 <;> try rfl
    have hlen : o + 8 + 8 * l.length = o + 8 * (r :: l).length := by
      rw [List.length_cons]
      omega
    show Function.update _ _ _ q = Function.update _ _ _ q
    rw [hlen]
    by_cases hq : q = .rsp
    · rw [hq, Function.update_self, Function.update_self]
    · rw [Function.update_of_ne hq, Function.update_of_ne hq, stackArea, loaded_cons]
      by_cases hqr : q = r
      · have hno : q ∉ (stackArea (o + 8) l).map Prod.fst := by
          intro hc
          obtain ⟨p, hp, hpq⟩ := List.mem_map.1 hc
          exact (List.nodup_cons.1 hnodup).1 (hqr ▸ hpq ▸ (offset_of_mem hp).2.2)
        rw [if_pos hqr, loaded_of_not_mem hno, hqr]
        exact Function.update_self ..
      · rw [if_neg hqr, loaded, loaded]
        cases (stackArea (o + 8) l).lookup q with
        | none => exact (Function.update_of_ne hqr ..).trans (Function.update_of_ne hq ..)
        | some o' => rfl

/-! ### Functions that are called -/

/-- A function entered in the state `s` may return in the state `s'`: it goes on behind the call,
with the stack pointer and the registers it has to keep as they were. -/
structure Returned (s s' : State) : Prop where
  rip : s'.rip = s.mem (s.reg .rsp)
  rsp : s'.reg .rsp = s.reg .rsp + 8#64
  kept : ∀ r ∈ calleeSaved, s'.reg r = s.reg r

end Machine

end Kernel64
