import Kernel64.Entry.Switch
import Kernel64.Entry.Syscalls

/-!
# New threads, `fork` and `exec` (`threads.c`, `exec.c`)

A thread that has never run is parked in front of `__thread_entry`, below a complete frame, both
written by `__create_thread` or `__fork`. When it is switched to, it calls `thread_entry` with the
arguments in the frame, and leaves through the frame when that returns (`Linked.thread_starts`).

The child of a `fork` made with a system call therefore goes on where its parent made the call
(`fork_child`). A program that `exec` loads gets all its registers only when it is entered the same
way; from a system call `exec` returns through `exit_syscall`, which loads no argument
(`exec_starts`).
-/

namespace Kernel64

namespace Entry

open Machine

/-! ### The frames of new threads -/

/-- `struct switch_stack_frame` -/
structure SwitchFrame where
  r15 : Word
  r14 : Word
  r13 : Word
  r12 : Word
  rbx : Word
  rbp : Word
  entry : Word

/-- The words of a `struct switch_stack_frame`. -/
def SwitchFrame.words (f : SwitchFrame) : List Word :=
  [f.r15, f.r14, f.r13, f.r12, f.rbx, f.rbp, f.entry]

/-- `struct thread_start_frame` -/
structure StartFrame where
  frame : SwitchFrame
  regs : ThreadRegs

/-- The words of a `struct thread_start_frame`. -/
def StartFrame.words (f : StartFrame) : List Word := f.frame.words ++ f.regs.words

/-- `sizeof(struct thread_start_frame)` -/
def startFrameSize : ℕ := 232

/-- A `struct thread_regs` of zeroes. -/
def zeroRegs : ThreadRegs :=
  ⟨0, 0, 0, 0, 0, 0, 0, 0, 0, 0, 0, 0, 0, 0, 0, 0, 0, 0, 0, 0, 0, 0⟩

/-- `KERNEL_CS` -/
def kernelCs : Word := 0x08#64

/-- `KERNEL_DS` -/
def kernelDs : Word := 0x10#64

/-- `USER_CS` -/
def userCs : Word := 0x1b#64

/-- `USER_DS` -/
def userDs : Word := 0x23#64

/-- `RFLAGS_IF` -/
def rflagsIf : Word := 0x200#64

/-- The frame `__create_thread` makes on a stack of zeroes that ends at `stackEnd`; `exit` is the
address of that function. -/
def createFrame (sym : Symbols) (thread fptr arg stackEnd exit : Word) : StartFrame where
  frame := { r15 := thread, r14 := fptr, r13 := arg, r12 := 0, rbx := 0, rbp := 0,
             entry := sym.threadStart }
  regs := { zeroRegs with ss := kernelDs, cs := kernelCs, rsp := stackEnd, rip := exit }

/-- The frame `__fork` makes, from the frame of the running thread. -/
def forkFrame (sym : Symbols) (thread : Word) (regs : ThreadRegs) : StartFrame where
  frame := { r15 := thread, r14 := 0, r13 := 0, r12 := 0, rbx := 0, rbp := 0,
             entry := sym.threadStart }
  regs := { regs with rax := 0 }

/-- The frame `exec` writes over the one of the running thread. -/
def execRegs (entry stackPointer argc argvAddr : Word) : ThreadRegs :=
  { zeroRegs with
    rip := entry
    rsp := stackPointer
    rdi := argc
    rsi := argvAddr
    cs := userCs
    ss := userDs
    rflags := rflagsIf }

/-- The memory with a new thread, whose stack ends at `stackEnd` and whose `stack_pointer` is at
`pointer`. -/
def startMem (mem : Word → Word) (stackEnd pointer : Word) (f : StartFrame) : Word → Word :=
  Function.update (storeWords mem (stackEnd - BitVec.ofNat 64 startFrameSize) f.words) pointer
    (stackEnd - BitVec.ofNat 64 startFrameSize)

/-- What a new thread begins with. It holds the whole frame. -/
def startContext (mem : Word → Word) (stackEnd : Word) (f : StartFrame) : Context where
  reg
    | .r15 => f.frame.r15
    | .r14 => f.frame.r14
    | .r13 => f.frame.r13
    | .r12 => f.frame.r12
    | .rbx => f.frame.rbx
    | .rbp => f.frame.rbp
    | _ => 0#64
  rsp := stackEnd - BitVec.ofNat 64 threadRegsSize
  rip := f.frame.entry
  held := {a | ∃ i < 29, a = quad (stackEnd - BitVec.ofNat 64 startFrameSize) (8 * i)}
  mem := mem

variable {Tid : Type} {S : Stack} {im : Image} {sym : Symbols}

/-- The stack ends at `stackEnd`, with room for the frame of a new thread. -/
structure Stack.EndsAt (S : Stack) (stackEnd : Word) : Prop where
  aligned : stackEnd.toNat % 16 = 0
  room : ∀ i < 29, quad (stackEnd - BitVec.ofNat 64 startFrameSize) (8 * i) ∈ S.addrs

/-- The frame of a thread is at the end of its stack. -/
def topFrame (stackEnd : Word) : Word := stackEnd - BitVec.ofNat 64 threadRegsSize

theorem quad_start (stackEnd : Word) (o : ℕ) :
    quad (stackEnd - BitVec.ofNat 64 startFrameSize) (56 + o) = quad (topFrame stackEnd) o := by
  rw [quad_add]
  refine congrArg (quad · o) ?_
  rw [quad, topFrame, startFrameSize, threadRegsSize]
  bv_omega

theorem topFrame_mod {stackEnd : Word} (h : stackEnd.toNat % 16 = 0) :
    (topFrame stackEnd).toNat % 16 = 0 := by
  rw [topFrame, threadRegsSize, BitVec.toNat_sub, BitVec.toNat_ofNat]
  omega

variable {s : State} {stackEnd : Word} {mem : Word → Word} {f : StartFrame}

variable (mem f) in
/-- The words of a new thread's frame. -/
theorem startMem_get (hstack : S.EndsAt stackEnd) {i : ℕ} (hi : i < f.words.length) :
    startMem mem stackEnd (S.pointer) f
      (quad (stackEnd - BitVec.ofNat 64 startFrameSize) (8 * i)) = f.words[i] := by
  have hlen : f.words.length = 29 := rfl
  have hne : quad (stackEnd - BitVec.ofNat 64 startFrameSize) (8 * i) ≠ S.pointer := fun hc =>
    S.pointer_not_mem (hc ▸ hstack.room i (by omega))
  have hget := storeWords_get mem (stackEnd - BitVec.ofNat 64 startFrameSize) f.words 0 hi (by omega)
  rw [quad_zero, Nat.zero_add] at hget
  rw [startMem, Function.update_of_ne hne, hget]

/-- A new thread is parked. -/
theorem parked_start (hstack : S.EndsAt stackEnd)
    (hmem : s.mem = startMem mem stackEnd (S.pointer) f) :
    Parked S s (startContext s.mem stackEnd f) := by
  have hlen : f.words.length = 29 := rfl
  have hmod := hstack.aligned
  have hpointer : s.mem (S.pointer) = stackEnd - BitVec.ofNat 64 startFrameSize := by
    rw [hmem, startMem, Function.update_self]
  have hword : ∀ i (hi : i < f.words.length),
      s.mem (quad (stackEnd - BitVec.ofNat 64 startFrameSize) (8 * i)) = f.words[i] := by
    intro i hi
    rw [hmem]
    exact startMem_get mem f hstack hi
  refine ⟨?_, fun p hp => ?_, ?_, ?_, hpointer ▸ fun i hi => ⟨i, by omega, rfl⟩, ?_⟩
  · rw [hpointer, Aligned, startFrameSize, BitVec.toNat_sub, BitVec.toNat_ofNat]
    omega
  · rw [hpointer]
    have hcases : p ∈ [(Reg.r15, 0), (.r14, 8), (.r13, 16), (.r12, 24), (.rbx, 32), (.rbp, 40)] := hp
    simp only [List.mem_cons, List.not_mem_nil, or_false] at hcases
    rcases hcases with rfl | rfl | rfl | rfl | rfl | rfl
    · exact hword 0 (by omega)
    · exact hword 1 (by omega)
    · exact hword 2 (by omega)
    · exact hword 3 (by omega)
    · exact hword 4 (by omega)
    · exact hword 5 (by omega)
  · rw [hpointer]
    exact hword 6 (by omega)
  · rw [hpointer]
    exact (quad_start stackEnd 0).trans (quad_zero _)
  · rintro a ⟨i, hi, rfl⟩
    exact ⟨hstack.room i hi, rfl⟩

variable (mem f) in
/-- The frame that a new thread leaves through. -/
theorem threadRegsAt_startMem (hstack : S.EndsAt stackEnd) :
    threadRegsAt (startMem mem stackEnd (S.pointer) f) (topFrame stackEnd) = f.regs := by
  have hlen : f.words.length = 29 := rfl
  have hregs : f.regs.words.length = 22 := rfl
  refine ThreadRegs.words_injective (List.ext_getElem ?_ fun i hi hi' => ?_)
  · rw [words_threadRegsAt, List.length_map, List.length_range, hregs]
  · have hget := startMem_get mem f hstack (i := 7 + i) (by omega)
    rw [show 8 * (7 + i) = 56 + 8 * i by omega, quad_start] at hget
    simp only [words_threadRegsAt, List.getElem_map, List.getElem_range, hget, StartFrame.words]
    rw [List.getElem_append_right (by simp [SwitchFrame.words])]
    simp [SwitchFrame.words]

/-! ### The beginning of a thread -/

/-- `thread_entry` is called in a new thread. -/
structure ThreadEntered (sym : Symbols) (stackEnd thread fptr arg : Word) (mem : Word → Word)
    (s₁ : State) : Prop where
  rip : s₁.rip = sym.threadEntry
  rdi : s₁.reg .rdi = thread
  rsi : s₁.reg .rsi = fptr
  rdx : s₁.reg .rdx = arg
  rsp : s₁.reg .rsp = topFrame stackEnd - 8#64
  /-- the stack is aligned to 16 bytes but for the return address -/
  aligned : (s₁.reg .rsp).toNat % 16 = 8
  returns : s₁.mem (topFrame stackEnd - 8#64) = sym.jumpToUserspace
  outside : ∀ a, a ≠ topFrame stackEnd - 8#64 → s₁.mem a = mem a

/-- **A new thread** that is switched to calls `thread_entry` with the words of its frame. -/
theorem Linked.thread_starts (h : Linked sym im) (hmod : stackEnd.toNat % 16 = 0)
    (hentry : f.frame.entry = sym.threadStart) (hs : (startContext mem stackEnd f).Resumed s) :
    ∃ s₁, Reaches im s s₁ ∧
      ThreadEntered sym stackEnd f.frame.r15 f.frame.r14 f.frame.r13 s.mem s₁ := by
  have htop := topFrame_mod hmod
  have hbase : Aligned (topFrame stackEnd) := by
    rw [Aligned]
    omega
  have hcode : im.Holds s.rip
      (([.mov .r15 .rdi, .mov .r14 .rsi, .mov .r13 .rdx, .cld] : List Op).map .op ++
        [.call sym.threadEntry]) sym.jumpToUserspace := by
    have hrip : s.rip = sym.threadStart := hs.rip.trans hentry
    rw [hrip]
    exact h.threadStart
  obtain ⟨c, hops, next, hcall, hnext⟩ := Image.Holds.append.1 hcode
  obtain rfl : next = sym.jumpToUserspace := hnext
  have hrun : runOps [.mov .r15 .rdi, .mov .r14 .rsi, .mov .r13 .rdx, .cld] s = some
      { ((s.set .rdi (s.reg .r15)).set .rsi (s.reg .r14)).set .rdx (s.reg .r13) with
        rflags := s.rflags &&& ~~~0x400#64 } := rfl
  have hreach := hops.reaches_ops hrun
  generalize ht : ({ ((s.set .rdi (s.reg .r15)).set .rsi (s.reg .r14)).set .rdx (s.reg .r13) with
    rflags := s.rflags &&& ~~~0x400#64, rip := c } : State) = t at hreach
  have hsp : t.reg .rsp = topFrame stackEnd := by
    rw [← ht]
    exact hs.rsp
  have hcall' : im t.rip = some (.call sym.threadEntry, sym.jumpToUserspace) := by
    rw [← ht]
    exact hcall
  have hpush : t.push sym.jumpToUserspace =
      some ((t.store (topFrame stackEnd - 8#64) sym.jumpToUserspace).set .rsp (topFrame stackEnd - 8#64)) := by
    rw [State.push, hsp, if_pos hbase]
  have hreg : ∀ r, r ≠ .rsp →
      ((t.store (topFrame stackEnd - 8#64) sym.jumpToUserspace).set .rsp
        (topFrame stackEnd - 8#64)).reg r = t.reg r := fun r hr => State.set_of_ne hr
  have hargs : ∀ r ∈ calleeSaved, s.reg r = (startContext mem stackEnd f).reg r := hs.reg
  refine ⟨_, hreach.tail (step_call hcall' hpush), rfl, ?_, ?_, ?_, ?_, ?_, ?_, fun a ha => ?_⟩
  · refine (hreg .rdi (by decide)).trans (Eq.trans ?_ (hargs .r15 (by decide)))
    rw [← ht]
    rfl
  · refine (hreg .rsi (by decide)).trans (Eq.trans ?_ (hargs .r14 (by decide)))
    rw [← ht]
    rfl
  · refine (hreg .rdx (by decide)).trans (Eq.trans ?_ (hargs .r13 (by decide)))
    rw [← ht]
    rfl
  · exact State.set_self (t.store (topFrame stackEnd - 8#64) sym.jumpToUserspace) .rsp _
  · simp only [State.set_self, BitVec.toNat_sub]
    have h8 : (8#64).toNat = 8 := rfl
    omega
  · exact State.store_self t _ _
  · refine (State.store_of_ne (s := t) ha).trans ?_
    rw [← ht]
    rfl

/-- When `thread_entry` returns, the thread leaves through its frame. -/
theorem Linked.thread_leaves (h : Linked sym im) (hmod : stackEnd.toNat % 16 = 0)
    {thread fptr arg : Word} {s₁ s₂ : State}
    (hentered : ThreadEntered sym stackEnd thread fptr arg mem s₁) (hret : Returned s₁ s₂) :
    Reaches im s₂ (resumed s₂.mem (threadRegsAt s₂.mem (topFrame stackEnd))) := by
  obtain ⟨e, hcode⟩ := h.jumpToUserspace
  have hbase : Aligned (topFrame stackEnd) := by
    have := topFrame_mod hmod
    rw [Aligned]
    omega
  have hrip : s₂.rip = sym.jumpToUserspace := by
    rw [hret.rip, hentered.rsp]
    exact hentered.returns
  have hsp : s₂.reg .rsp = topFrame stackEnd := by
    rw [hret.rsp, hentered.rsp]
    exact BitVec.sub_add_cancel ..
  rw [← hrip] at hcode
  have hleave := reaches_leave hcode (hsp ▸ hbase)
  rwa [hsp] at hleave

/-- The frame of a thread that begins is the one it was made with. -/
theorem ThreadEntered.frame {mem' m : Word → Word} {thread fptr arg : Word} {s₁ : State}
    (h : ThreadEntered sym stackEnd thread fptr arg mem' s₁) (hstack : S.EndsAt stackEnd)
    (hkept : ∀ a ∈ (startContext m stackEnd f).held, mem' a = startMem mem stackEnd S.pointer f a) :
    threadRegsAt s₁.mem (topFrame stackEnd) = f.regs := by
  rw [← threadRegsAt_startMem mem f hstack]
  refine threadRegsAt_congr fun i hi => ?_
  rw [h.outside _ (quad_ne_below (by omega))]
  refine hkept _ ?_
  rw [← quad_start, show 56 + 8 * i = 8 * (7 + i) by omega]
  exact ⟨7 + i, by omega, rfl⟩

/-! ### A new thread -/

theorem twoStacks_endsAt : (twoStacks false).EndsAt 0xb000#64 where
  aligned := by decide
  room := by
    have hall : ∀ i < 29, 0xa000 ≤ (quad (0xb000#64 - BitVec.ofNat 64 startFrameSize) (8 * i)).toNat ∧
        (quad (0xb000#64 - BitVec.ofNat 64 startFrameSize) (8 * i)).toNat < 0xb000 := by decide
    exact hall

/-- A kernel that has made a thread with the frame `f`. -/
def newThread (f : StartFrame) : Kernel Bool :=
  madeThread (startMem (fun _ => 0#64) 0xb000#64 (twoStacks false).pointer f)
    (startContext (startMem (fun _ => 0#64) 0xb000#64 (twoStacks false).pointer f) 0xb000#64 f)

theorem newThread_run (f : StartFrame) : (newThread f).Run textSymbols :=
  madeThread_run (parked_start (s := (newThread f).state) twoStacks_endsAt rfl)

/-! ### Kernel threads -/

/-- The state in which a kernel thread whose function has returned enters `exit`. -/
def exitState (mem : Word → Word) (stackEnd exit : Word) : State where
  reg r := if r = .rsp then stackEnd else 0#64
  mem := mem
  rip := exit
  rflags := 0#64
  cs := kernelCs
  ss := kernelDs

/-- **A kernel thread** that `__create_thread` has made, when it is switched to, whatever has run in
between, calls `thread_entry` with its function and the argument. When that returns with the frame
unchanged, the thread enters `exit` at the end of its stack, with interrupts disabled and zeroes in
the other registers. -/
theorem kthread_exits [DecidableEq Tid] (h : Linked sym im) {k : Kernel Tid} {u : Tid}
    {m : Word → Word} {thread fptr arg stackEnd exit : Word} (hstack : (k.stack u).EndsAt stackEnd)
    (hrun : k.Run sym) (hcall : k.Switching sym u)
    (hparked : k.parked u = some (startContext (startMem m stackEnd (k.stack u).pointer
      (createFrame sym thread fptr arg stackEnd exit)) stackEnd
      (createFrame sym thread fptr arg stackEnd exit))) :
    ∃ s₁, Reaches im k.state s₁ ∧
      ThreadEntered sym stackEnd thread fptr arg (switchTo k.state).mem s₁ ∧
      ∀ s₂, Reaches im s₁ s₂ → Returned s₁ s₂ →
        threadRegsAt s₂.mem (topFrame stackEnd) = threadRegsAt s₁.mem (topFrame stackEnd) →
        Reaches im k.state (exitState s₂.mem stackEnd exit) := by
  obtain ⟨hswitch, hresumed, hkept⟩ := hrun.resumes h hcall hparked
  obtain ⟨s₁, hreach, hentered⟩ := h.thread_starts hstack.aligned rfl hresumed
  refine ⟨s₁, hswitch.trans hreach, hentered, fun s₂ hrun₂ hret hsame => ?_⟩
  have hleave := h.thread_leaves hstack.aligned hentered hret
  have hfinal : resumed s₂.mem (createFrame sym thread fptr arg stackEnd exit).regs =
      exitState s₂.mem stackEnd exit :=
    State.ext (funext fun r => by cases r <;> rfl) rfl rfl rfl rfl rfl
  rw [hsame, hentered.frame hstack hkept, hfinal] at hleave
  exact hswitch.trans (hreach.trans (hrun₂.trans hleave))

theorem kthread_exits_new : ∃ s s₁, Reaches (Image.ofList text) s s₁ ∧
    ∃ mem, ThreadEntered textSymbols 0xb000#64 7#64 0xf00#64 5#64 mem s₁ := by
  obtain ⟨s₁, hreach, hentered, -⟩ := kthread_exits text_linked twoStacks_endsAt
    (newThread_run (createFrame textSymbols 7#64 0xf00#64 5#64 0xb000#64 241#64))
    (madeThread_switching _ _) rfl
  exact ⟨_, s₁, hreach, _, hentered⟩

/-! ### `fork` -/

/-- The registers the child of a fork begins with: the call returns 0, and of the others only those
that a function keeps are the parent's. -/
def childRegs (s : State) (base : Word) (r : Reg) : Word :=
  if r = .rax then 0#64
  else if r ∈ calleeSaved ∨ r = .rsp then s.reg r
  else (syscallFrame s base).reg r

/-- **The child of a `fork`** made with a system call in the state `s`. When the child is switched to,
whatever has run in between, it calls `thread_entry` with no function; when that returns with the
frame unchanged, the child goes on where its parent made the call. -/
theorem fork_child [DecidableEq Tid] (h : Linked sym im) {k : Kernel Tid} {u : Tid}
    {s s₁ : State} {m m' : Word → Word} {base fork thread stackEnd : Word}
    (hsys : SyscallCalled sym s base fork s₁)
    (hframe : threadRegsAt m base = threadRegsAt s₁.mem base)
    (hstack : (k.stack u).EndsAt stackEnd) (hrun : k.Run sym) (hcall : k.Switching sym u)
    (hparked : k.parked u = some (startContext
      (startMem m' stackEnd (k.stack u).pointer (forkFrame sym thread (threadRegsAt m base))) stackEnd
      (forkFrame sym thread (threadRegsAt m base)))) :
    ∃ s₂, Reaches im k.state s₂ ∧
      ThreadEntered sym stackEnd thread 0#64 0#64 (switchTo k.state).mem s₂ ∧
      ∀ s₃, Reaches im s₂ s₃ → Returned s₂ s₃ →
        threadRegsAt s₃.mem (topFrame stackEnd) = threadRegsAt s₂.mem (topFrame stackEnd) →
        Reaches im k.state { s with mem := s₃.mem, reg := childRegs s base } := by
  obtain ⟨hswitch, hresumed, hkept⟩ := hrun.resumes h hcall hparked
  obtain ⟨s₂, hreach, hentered⟩ := h.thread_starts hstack.aligned rfl hresumed
  refine ⟨s₂, hswitch.trans hreach, hentered, fun s₃ hrun₃ hret hsame => ?_⟩
  have hleave := h.thread_leaves hstack.aligned hentered hret
  have hregs : threadRegsAt s₂.mem (topFrame stackEnd) = { syscallFrame s base with rax := 0#64 } := by
    rw [hentered.frame hstack hkept, forkFrame, hframe, hsys.frame]
    rfl
  have hfinal : resumed s₃.mem { syscallFrame s base with rax := 0#64 } =
      { s with mem := s₃.mem, reg := childRegs s base } :=
    State.ext (funext fun r => by cases r <;> rfl) rfl rfl rfl rfl rfl
  rw [hsame, hregs, hfinal] at hleave
  exact hswitch.trans (hreach.trans (hrun₃.trans hleave))

theorem fork_child_new : ∃ s₁ s' s₂,
    SyscallCalled textSymbols userState (frameBase userState (syscallGate textSymbols) 0x9000#64)
      242#64 s₁ ∧ Reaches (Image.ofList text) s' s₂ ∧
    ThreadEntered textSymbols 0xb000#64 7#64 0#64 0#64 (switchTo s').mem s₂ ∧
    ∀ s₃, Reaches (Image.ofList text) s₂ s₃ → Returned s₂ s₃ →
      threadRegsAt s₃.mem (topFrame 0xb000#64) = threadRegsAt s₂.mem (topFrame 0xb000#64) →
      Reaches (Image.ofList text) s' { userState with
        mem := s₃.mem
        reg := childRegs userState (frameBase userState (syscallGate textSymbols) 0x9000#64) } := by
  obtain ⟨t, -, hframed, hcode, hjge⟩ := text_linked.reaches_framed userState 0x9000#64
    (g := syscallGate textSymbols) rfl
  have hslot : t.mem (slot textSymbols (userState.reg .rax)) = 242#64 :=
    hframed.outside _ (by decide)
  have hlow : ¬sf t.rflags = of t.rflags := by
    rw [hjge]
    decide
  obtain ⟨s₁, -, hsys⟩ := reaches_function (frameBase_mod ..) hframed hcode hlow (by decide)
    (by rw [hslot]; decide)
  rw [hslot] at hsys
  obtain ⟨s₂, hreach, hentered, hrest⟩ := fork_child (m := s₁.mem) text_linked hsys rfl
    twoStacks_endsAt (newThread_run _) (madeThread_switching _ _) rfl
  exact ⟨s₁, _, s₂, hsys, hreach, hentered, hrest⟩

/-! ### `exec` -/

/-- The state a program begins in, with the registers `reg` beside those that every program gets. -/
def programState (mem : Word → Word) (entry stackPointer : Word) (reg : Reg → Word) : State where
  reg r := if r = .rsp then stackPointer else if r ∈ calleeSaved then 0#64 else reg r
  mem := mem
  rip := entry
  rflags := rflagsIf
  cs := userCs
  ss := userDs

/-- **Programs that `exec` starts** begin at their entry point, in user mode with interrupts enabled,
on their stack and with zeroes in the registers a function keeps. A kernel thread that has called
`exec` hands over the arguments in `rdi` and `rsi`, and zeroes in the others; from a system call the
program finds there whatever `exec` itself left. -/
theorem exec_starts (h : Linked sym im) (hmod : stackEnd.toNat % 16 = 0)
    {entry stackPointer argc argvAddr : Word} {s₁ s₂ : State}
    (hregs : threadRegsAt s₂.mem (topFrame stackEnd) = execRegs entry stackPointer argc argvAddr)
    (hret : Returned s₁ s₂) :
    (∀ thread fptr arg, ThreadEntered sym stackEnd thread fptr arg mem s₁ →
      Reaches im s₂ (programState s₂.mem entry stackPointer fun r =>
        if r = .rdi then argc else if r = .rsi then argvAddr else 0#64)) ∧
    (∀ exec, SyscallCalled sym s (topFrame stackEnd) exec s₁ →
      Reaches im s₂ (programState s₂.mem entry stackPointer s₂.reg)) := by
  constructor
  · intro thread fptr arg hentered
    have hleave := h.thread_leaves hmod hentered hret
    have hfinal : resumed s₂.mem (execRegs entry stackPointer argc argvAddr) =
        programState s₂.mem entry stackPointer fun r =>
          if r = .rdi then argc else if r = .rsi then argvAddr else 0#64 :=
      State.ext (funext fun r => by cases r <;> rfl) rfl rfl rfl rfl rfl
    rwa [hregs, hfinal] at hleave
  · intro exec hcalled
    have hbase : Aligned (topFrame stackEnd) := by
      have := topFrame_mod hmod
      rw [Aligned]
      omega
    have hleave := h.syscall_leaves hbase hcalled hret
    have hfinal : sysReturned s₂.mem (execRegs entry stackPointer argc argvAddr) s₂.reg =
        programState s₂.mem entry stackPointer s₂.reg :=
      State.ext (funext fun r => by cases r <;> rfl) rfl rfl rfl rfl rfl
    rwa [hregs, hfinal] at hleave

theorem exec_starts_program : ∃ s₂ : State, Reaches (Image.ofList text) s₂
    (programState s₂.mem 0x400000#64 0x7fff0#64 fun r =>
      if r = .rdi then 2#64 else if r = .rsi then 0x7fff8#64 else 0#64) := by
  obtain ⟨-, hresumed, -⟩ :=
    (newThread_run (createFrame textSymbols 7#64 0xf00#64 5#64 0xb000#64 241#64)).resumes text_linked
      (madeThread_switching _ _) rfl
  obtain ⟨s₁, -, hentered⟩ := text_linked.thread_starts (by decide) rfl hresumed
  refine ⟨{ s₁ with
    mem := startMem s₁.mem 0xb000#64 (twoStacks false).pointer
      ⟨⟨0, 0, 0, 0, 0, 0, 0⟩, execRegs 0x400000#64 0x7fff0#64 2#64 0x7fff8#64⟩
    reg := Function.update s₁.reg .rsp (s₁.reg .rsp + 8#64)
    rip := s₁.mem (s₁.reg .rsp) }, ?_⟩
  refine (exec_starts (s := s₁) text_linked (by decide) (threadRegsAt_startMem _ _ twoStacks_endsAt)
    ⟨rfl, ?_, fun r hr => ?_⟩).1 _ _ _ hentered
  · simp only [Function.update_self]
  · have hne : ∀ r ∈ calleeSaved, r ≠ .rsp := by decide
    exact Function.update_of_ne (hne r hr) ..

end Entry

end Kernel64
