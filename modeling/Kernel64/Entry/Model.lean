import Kernel64.Lib.Machine

/-!
# The entry code of the kernel (`entry.S`, `switch.S`, `thread_regs.h`)

The assembly of the kernel, an instruction a line: the entries of the interrupts and exceptions with
their common part, the system call handler, the beginning of a thread and the switch between two
threads. The addresses of its labels are a `Symbols`, and `Linked` says that the code lies there.
The functions written in C are known by their addresses.
-/

namespace Kernel64

namespace Entry

open Machine

/-! ### The frame -/

/-- `struct thread_regs` -/
structure ThreadRegs where
  r15 : Word
  r14 : Word
  r13 : Word
  r12 : Word
  rbp : Word
  rbx : Word
  r11 : Word
  r10 : Word
  r9 : Word
  r8 : Word
  rax : Word
  rcx : Word
  rdx : Word
  rsi : Word
  rdi : Word
  intno : Word
  error : Word
  rip : Word
  cs : Word
  rflags : Word
  rsp : Word
  ss : Word
  deriving DecidableEq, Repr

/-- `sizeof(struct thread_regs)` -/
def threadRegsSize : ℕ := 176

/-- The `struct thread_regs` at an address. -/
def threadRegsAt (mem : Word → Word) (base : Word) : ThreadRegs where
  r15 := mem (quad base 0)
  r14 := mem (quad base 8)
  r13 := mem (quad base 16)
  r12 := mem (quad base 24)
  rbp := mem (quad base 32)
  rbx := mem (quad base 40)
  r11 := mem (quad base 48)
  r10 := mem (quad base 56)
  r9 := mem (quad base 64)
  r8 := mem (quad base 72)
  rax := mem (quad base 80)
  rcx := mem (quad base 88)
  rdx := mem (quad base 96)
  rsi := mem (quad base 104)
  rdi := mem (quad base 112)
  intno := mem (quad base 120)
  error := mem (quad base 128)
  rip := mem (quad base 136)
  cs := mem (quad base 144)
  rflags := mem (quad base 152)
  rsp := mem (quad base 160)
  ss := mem (quad base 168)

/-- The words of a `struct thread_regs`. -/
def ThreadRegs.words (f : ThreadRegs) : List Word :=
  [f.r15, f.r14, f.r13, f.r12, f.rbp, f.rbx, f.r11, f.r10, f.r9, f.r8, f.rax, f.rcx, f.rdx, f.rsi,
    f.rdi, f.intno, f.error, f.rip, f.cs, f.rflags, f.rsp, f.ss]

/-- The frame of a processor that was in the state `s`. -/
def frameOf (s : State) (intno error : Word) : ThreadRegs where
  r15 := s.reg .r15
  r14 := s.reg .r14
  r13 := s.reg .r13
  r12 := s.reg .r12
  rbp := s.reg .rbp
  rbx := s.reg .rbx
  r11 := s.reg .r11
  r10 := s.reg .r10
  r9 := s.reg .r9
  r8 := s.reg .r8
  rax := s.reg .rax
  rcx := s.reg .rcx
  rdx := s.reg .rdx
  rsi := s.reg .rsi
  rdi := s.reg .rdi
  intno := intno
  error := error
  rip := s.rip
  cs := s.cs
  rflags := s.rflags
  rsp := s.reg .rsp
  ss := s.ss

/-- The registers that a return through the frame loads, the stack pointer included. -/
def ThreadRegs.reg (f : ThreadRegs) : Reg → Word
  | .rax => f.rax
  | .rbx => f.rbx
  | .rcx => f.rcx
  | .rdx => f.rdx
  | .rsi => f.rsi
  | .rdi => f.rdi
  | .rbp => f.rbp
  | .rsp => f.rsp
  | .r8 => f.r8
  | .r9 => f.r9
  | .r10 => f.r10
  | .r11 => f.r11
  | .r12 => f.r12
  | .r13 => f.r13
  | .r14 => f.r14
  | .r15 => f.r15

/-! ### `entry.S` -/

/-- The registers of `SAVE_VOLATILE` and `RESTORE_VOLATILE`, which are those a function keeps. -/
def volatile : Area := [(.r15, 0), (.r14, 8), (.r13, 16), (.r12, 24), (.rbp, 32), (.rbx, 40)]

/-- The registers of `SAVE_NONVOLATILE` and `RESTORE_NONVOLATILE`. -/
def nonvolatile : Area :=
  [(.r11, 48), (.r10, 56), (.r9, 64), (.r8, 72), (.rax, 80), (.rcx, 88), (.rdx, 96), (.rsi, 104),
    (.rdi, 112)]

/-- `MAX_SYSCALL_NR` -/
def maxSyscallNr : ℕ := 10

/-- `ENOSYS` -/
def enosys : ℤ := 9

/-- The addresses of the labels and of the functions they call. -/
structure Symbols where
  /-- `entry0` to `entry47`, which are the words of `isr_entry` -/
  entry : ℕ → Word
  commonHandler : Word
  /-- behind `call isr_common_handler` -/
  afterIsr : Word
  isrCommonHandler : Word
  syscallHandler : Word
  exitSyscall : Word
  noSyscall : Word
  syscallTable : Word
  /-- `__thread_entry` -/
  threadStart : Word
  /-- `thread_entry` -/
  threadEntry : Word
  /-- `__jump_to_userspace` -/
  jumpToUserspace : Word
  switchThreads : Word

/-- The exceptions whose entries are `EXC`: the processor pushes an error code for them. -/
def withError : List ℕ := [8, 10, 11, 12, 13, 14, 17]

/-- `common_handler`, up to the call of `isr_common_handler`. -/
def enterOps : List Op :=
  [.sub 120#64 .rsp] ++ (saves volatile ++ (saves nonvolatile ++ [.cld, .mov .rsp .rdi]))

/-- `common_handler` behind the call, up to `iretq`. -/
def leaveOps : List Op := restores volatile ++ (restores nonvolatile ++ [.add 136#64 .rsp])

/-- `syscall_handler`, up to the first jump. -/
def syscallOps : List Op :=
  [.sub 136#64 .rsp] ++ (saves volatile ++ [.cmp (BitVec.ofNat 64 maxSyscallNr) .rax])

/-- `exit_syscall`, up to `iretq`. -/
def exitOps : List Op := restores volatile ++ [.add 136#64 .rsp]

variable (sym : Symbols)

/-- `ISR(nr)` and `EXC(nr)` -/
def entryCode (nr : ℕ) : List Instr :=
  (if nr ∈ withError then [] else [.op (.pushImm 0#64)]) ++
    [.op (.pushImm (BitVec.ofNat 64 nr)), .jmp sym.commonHandler]

/-- `common_handler`, up to the call. -/
def commonEnter : List Instr := enterOps.map .op ++ [.call sym.isrCommonHandler]

/-- `common_handler` behind the call, and the same code at `__jump_to_userspace`. -/
def leaveCode : List Instr := leaveOps.map .op ++ [.iretq]

/-- `syscall_handler`, from the first jump to the call. -/
def syscallDispatch : List Instr :=
  [.jge sym.noSyscall, .op (.loadIndexed sym.syscallTable .rax .rax), .op (.test .rax),
    .je sym.noSyscall, .op .cld, .callReg .rax]

/-- `exit_syscall` -/
def exitSyscallCode : List Instr := exitOps.map .op ++ [.iretq]

/-- `no_syscall` -/
def noSyscallCode : List Instr :=
  [.op (.movImm (BitVec.ofInt 64 (-enosys)) .rax), .jmp sym.exitSyscall]

/-- `__thread_entry` -/
def threadStartCode : List Instr :=
  [.op (.mov .r15 .rdi), .op (.mov .r14 .rsi), .op (.mov .r13 .rdx), .op .cld, .call sym.threadEntry]

/-! ### `switch.S` -/

/-- The registers that `switch_threads` pushes, first one first. -/
def switchRegs : List Reg := [.rbp, .rbx, .r12, .r13, .r14, .r15]

/-- `switch_threads`, up to `ret`. -/
def switchOps : List Op :=
  switchRegs.map .push ++ ([.store .rsp 0#64 .rdi, .mov .rsi .rsp] ++ switchRegs.reverse.map .pop)

/-- `switch_threads` -/
def switchCode : List Instr := switchOps.map .op ++ [.ret]

/-! ### The linked kernel -/

/-- The code lies at its labels. -/
structure Linked (im : Image) : Prop where
  entry : ∀ nr < 48, ∃ e, im.Holds (sym.entry nr) (entryCode sym nr) e
  enter : im.Holds sym.commonHandler (commonEnter sym) sym.afterIsr
  leave : ∃ e, im.Holds sym.afterIsr leaveCode e
  syscall : im.Holds sym.syscallHandler (syscallOps.map .op ++ syscallDispatch sym) sym.exitSyscall
  exitSyscall : im.Holds sym.exitSyscall exitSyscallCode sym.noSyscall
  noSyscall : ∃ e, im.Holds sym.noSyscall (noSyscallCode sym) e
  threadStart : im.Holds sym.threadStart (threadStartCode sym) sym.jumpToUserspace
  jumpToUserspace : ∃ e, im.Holds sym.jumpToUserspace leaveCode e
  switchThreads : ∃ e, im.Holds sym.switchThreads switchCode e

/-! ### An image -/

/-- The labels of a kernel whose instructions are a byte long each, from address 0 on. -/
def textSymbols : Symbols where
  entry nr := BitVec.ofNat 64 (3 * nr)
  commonHandler := 144#64
  afterIsr := 163#64
  syscallHandler := 180#64
  exitSyscall := 194#64
  noSyscall := 202#64
  threadStart := 204#64
  jumpToUserspace := 209#64
  switchThreads := 226#64
  isrCommonHandler := 241#64
  threadEntry := 242#64
  syscallTable := 0x1000#64

/-- Its code, with functions in C that return at once. -/
def text : List Instr :=
  ((List.range 48).flatMap fun nr =>
      (entryCode textSymbols nr ++ [Instr.op .cld]).take 3) ++
    (commonEnter textSymbols ++ (leaveCode ++ (syscallOps.map .op ++ (syscallDispatch textSymbols ++
      (exitSyscallCode ++ (noSyscallCode textSymbols ++ (threadStartCode textSymbols ++ (leaveCode ++
        (switchCode ++ [.ret, .ret])))))))))

theorem text_linked : Linked textSymbols (Image.ofList text) := by
  have hentries : ∀ nr < 48, entryCode textSymbols nr <+: text.drop (3 * nr) := by decide
  have hlen : ∀ nr < 48, 3 * nr + (entryCode textSymbols nr).length < 2 ^ 64 := by decide
  constructor
  · exact fun nr hnr => ⟨_, Image.holds_ofList (hentries nr hnr) (hlen nr hnr)⟩
  · exact Image.holds_ofList (k := 144) (by decide) (by decide)
  · exact ⟨_, Image.holds_ofList (k := 163) (by decide) (by decide)⟩
  · exact Image.holds_ofList (k := 180) (by decide) (by decide)
  · exact Image.holds_ofList (k := 194) (by decide) (by decide)
  · exact ⟨_, Image.holds_ofList (k := 202) (by decide) (by decide)⟩
  · exact Image.holds_ofList (k := 204) (by decide) (by decide)
  · exact ⟨_, Image.holds_ofList (k := 209) (by decide) (by decide)⟩
  · exact ⟨_, Image.holds_ofList (k := 226) (by decide) (by decide)⟩

end Entry

end Kernel64
