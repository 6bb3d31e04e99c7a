import Kernel64.Entry.Model

/-!
# Building a frame and leaving through it

The stack pointer and the words at it are all that the entry code needs. `Linked.reaches_isr` runs
it from the words that the processor pushed to the call of `isr_common_handler`, whose argument is
a complete frame; `reaches_leave` runs the code behind the call, which loads every register from
whatever the frame holds by then.
-/

namespace Kernel64

namespace Entry

open Machine

/-- The registers in a frame. -/
def general : Area := volatile ++ nonvolatile

theorem volatile_ok : volatile.Ok := by constructor <;> decide

theorem general_ok : general.Ok := by constructor <;> decide

/-- The state that a return through a frame leads to. -/
def resumed (mem : Word → Word) (f : ThreadRegs) : State where
  reg := f.reg
  mem := mem
  rip := f.rip
  rflags := f.rflags
  cs := f.cs
  ss := f.ss

/-- Returning through the frame of a state leads back to that state. -/
theorem resumed_frameOf (s : State) (intno error : Word) (mem : Word → Word) :
    resumed mem (frameOf s intno error) = { s with mem := mem } :=
  State.ext (funext fun r => by cases r <;> rfl) rfl rfl rfl rfl rfl

/-! ### The words of a frame -/

theorem ThreadRegs.words_injective {f g : ThreadRegs} (h : f.words = g.words) : f = g := by
  cases f
  cases g
  simpa only [ThreadRegs.words, List.cons.injEq, and_true, ThreadRegs.mk.injEq] using h

theorem words_threadRegsAt (mem : Word → Word) (base : Word) :
    (threadRegsAt mem base).words = (List.range 22).map fun i => mem (quad base (8 * i)) := rfl

/-- A frame is determined by its words. -/
theorem threadRegsAt_congr {mem mem' : Word → Word} {base base' : Word}
    (h : ∀ i < 22, mem (quad base (8 * i)) = mem' (quad base' (8 * i))) :
    threadRegsAt mem base = threadRegsAt mem' base' := by
  refine ThreadRegs.words_injective ?_
  rw [words_threadRegsAt, words_threadRegsAt]
  exact List.map_congr_left fun i hi => h i (List.mem_range.1 hi)

variable {im : Image} {sym : Symbols} {base : Word} {s : State}

/-! ### Leaving -/

theorem run_leaveOps (hbase : Aligned base) (hsp : s.reg .rsp = base) :
    ∃ fl, runOps leaveOps s = some { s with
      reg := Function.update (loaded s.mem base general s.reg) .rsp (quad base 136)
      rflags := fl } := by
  have hload := run_restores general_ok (s := s) (hsp ▸ hbase)
  have hops : leaveOps = restores general ++ [.add 136#64 .rsp] := rfl
  have hrsp : loaded s.mem base general s.reg .rsp = base :=
    (loaded_of_not_mem (by decide)).trans hsp
  rw [hops, runOps_append, hload, Option.bind_some, hsp]
  simp only [runOps, Op.exec, State.set, hrsp, Option.bind_some]
  exact ⟨_, rfl⟩

/-- Every register comes from the frame. -/
theorem loaded_general {mem : Word → Word} {reg : Reg → Word} {r : Reg} (hr : r ≠ .rsp) :
    loaded mem base general reg r = (threadRegsAt mem base).reg r := by
  cases r with
  | rsp => exact absurd rfl hr
  | _ => rfl

/-- `iretq`, with the rest of a frame on top of the stack. -/
theorem iretq_frame (hbase : Aligned base) (hsp : s.reg .rsp = quad base 136) :
    s.iretq = some { s with
      reg := Function.update s.reg .rsp (threadRegsAt s.mem base).rsp
      rip := (threadRegsAt s.mem base).rip
      rflags := (threadRegsAt s.mem base).rflags
      cs := (threadRegsAt s.mem base).cs
      ss := (threadRegsAt s.mem base).ss } := by
  have halign : Aligned (quad base 136) := aligned_quad hbase rfl
  have hword : ∀ o, s.mem (quad base 136 + BitVec.ofNat 64 o) = s.mem (quad base (136 + o)) :=
    fun o => congrArg s.mem (quad_add base 136 o).symm
  have h8 := hword 8
  have h16 := hword 16
  have h24 := hword 24
  have h32 := hword 32
  rw [State.iretq, hsp]
  simp only [if_pos halign, h8, h16, h24, h32]
  rfl

/-- **Leaving the kernel**: all registers are loaded from the frame on top of the stack. -/
theorem reaches_leave {e : Word} (hcode : im.Holds s.rip leaveCode e) (hbase : Aligned (s.reg .rsp)) :
    Reaches im s (resumed s.mem (threadRegsAt s.mem (s.reg .rsp))) := by
  obtain ⟨c, hops, next, hiret, -⟩ := Image.Holds.append.1 hcode
  obtain ⟨fl, hrun⟩ := run_leaveOps hbase rfl
  refine (hops.reaches_ops hrun).tail ((step_iretq hiret).trans ?_)
  rw [iretq_frame hbase (by simp only [Function.update_self])]
  refine congrArg some (State.ext (funext fun r => ?_) rfl rfl rfl rfl rfl)
  show Function.update _ _ _ r = _
  by_cases hr : r = .rsp
  · subst hr
    exact Function.update_self Reg.rsp _ _
  · exact (Function.update_of_ne hr ..).trans ((Function.update_of_ne hr ..).trans (loaded_general hr))

/-! ### Entering -/

/-- Making room for a frame and saving registers in it, before the rest of the code. -/
theorem run_frame {l : Area} (hl : l.Ok) (hbase : Aligned base) {o : ℕ} (hsp : s.reg .rsp = quad base o)
    (rest : List Op) :
    ∃ mem, Saved mem base l s.reg ∧ (∀ a, Outside a base l → mem a = s.mem a) ∧
      runOps ([.sub (BitVec.ofNat 64 o) .rsp] ++ (saves l ++ rest)) s = runOps rest { s with
        mem := mem
        reg := Function.update s.reg .rsp base
        rflags := compare s.rflags (BitVec.ofNat 64 o) (s.reg .rsp) } := by
  have hdown : s.reg .rsp - BitVec.ofNat 64 o = base := by
    rw [hsp]
    exact BitVec.add_sub_cancel ..
  obtain ⟨mem, hrun, hsaved, hout⟩ := run_saves hl
    (s := { s.set .rsp base with rflags := compare s.rflags (BitVec.ofNat 64 o) (s.reg .rsp) })
    (by simpa using hbase)
  simp only [State.set_self] at hsaved hout
  refine ⟨mem, fun p hp => ?_, hout, ?_⟩
  · rw [hsaved p hp]
    exact State.set_of_ne (hl.rsp p hp)
  · rw [runOps_append, runOps, Op.exec, hdown, Option.bind_some, runOps, Option.bind_some,
      runOps_append, hrun]
    rfl

theorem run_enterOps (hbase : Aligned base) (hsp : s.reg .rsp = quad base 120) :
    ∃ mem fl, runOps enterOps s = some { s with
        mem := mem
        rflags := fl
        reg := Function.update (Function.update s.reg .rsp base) .rdi base } ∧
      Saved mem base general s.reg ∧ ∀ a, Outside a base general → mem a = s.mem a := by
  obtain ⟨mem, hsaved, hout, hrun⟩ := run_frame general_ok hbase hsp [.cld, .mov .rsp .rdi]
  refine ⟨mem, compare s.rflags 120#64 (s.reg .rsp) &&& ~~~0x400#64, ?_, hsaved, hout⟩
  refine Eq.trans hrun ?_
  simp only [runOps, Op.exec, Option.bind_some, State.set, Function.update_self]

theorem run_syscallOps (hbase : Aligned base) (hsp : s.reg .rsp = quad base 136) :
    ∃ mem fl, runOps syscallOps s = some { s with
        mem := mem
        rflags := compare fl 10#64 (s.reg .rax)
        reg := Function.update s.reg .rsp base } ∧
      Saved mem base volatile s.reg ∧ ∀ a, Outside a base volatile → mem a = s.mem a := by
  obtain ⟨mem, hsaved, hout, hrun⟩ := run_frame volatile_ok hbase hsp
    [.cmp (BitVec.ofNat 64 maxSyscallNr) .rax]
  refine ⟨mem, compare s.rflags 136#64 (s.reg .rsp), Eq.trans hrun ?_, hsaved, hout⟩
  have hrax : Function.update s.reg .rsp base .rax = s.reg .rax :=
    Function.update_of_ne (by decide) ..
  simp only [runOps, Op.exec, Option.bind_some, hrax]
  rfl

/-! ### Leaving a system call -/

theorem run_exitOps (hbase : Aligned base) (hsp : s.reg .rsp = base) :
    ∃ fl, runOps exitOps s = some { s with
      reg := Function.update (loaded s.mem base volatile s.reg) .rsp (quad base 136)
      rflags := fl } := by
  have hload := run_restores volatile_ok (s := s) (hsp ▸ hbase)
  have hrsp : loaded s.mem base volatile s.reg .rsp = base :=
    (loaded_of_not_mem (by decide)).trans hsp
  rw [exitOps, runOps_append, hload, Option.bind_some, hsp]
  simp only [runOps, Op.exec, State.set, hrsp, Option.bind_some]
  exact ⟨_, rfl⟩

end Entry

end Kernel64
