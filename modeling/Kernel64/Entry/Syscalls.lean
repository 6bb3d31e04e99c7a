import Kernel64.Entry.Interrupts

/-!
# System calls

`syscall_handler` saves only the registers that a function keeps, looks the number in `rax` up in
`syscall_table` and calls what it finds there. For a number the table has, the function gets the
registers of the program as they are, and its result comes back in `rax` with the registers that a
function keeps as the program had them (`syscall_resumes`). The other slots of the frame are not
written: they are what the stack held before.

The number is compared as a signed one, so that a negative number passes the test, and the handler
calls the word at any address below or behind the table (`syscall_escapes`).
-/

namespace Kernel64

namespace Entry

open Machine

variable {im : Image} {sym : Symbols} {s : State} {g : Gate} {rsp0 : Word} {base : Word}

/-! ### The frame of a system call -/

/-- The frame of a system call: the general registers that are not saved, and the number and the
error of an interrupt, are what the memory held before. -/
def syscallFrame (s : State) (base : Word) : ThreadRegs :=
  { frameOf s (s.mem (quad base 120)) (s.mem (quad base 128)) with
    r11 := s.mem (quad base 48)
    r10 := s.mem (quad base 56)
    r9 := s.mem (quad base 64)
    r8 := s.mem (quad base 72)
    rax := s.mem (quad base 80)
    rcx := s.mem (quad base 88)
    rdx := s.mem (quad base 96)
    rsi := s.mem (quad base 104)
    rdi := s.mem (quad base 112) }

/-- The function `f` is called for a system call made in the state `s`. -/
structure SyscallCalled (sym : Symbols) (s : State) (base f : Word) (s₁ : State) : Prop where
  rip : s₁.rip = f
  rsp : s₁.reg .rsp = base - 8#64
  /-- the stack is aligned to 16 bytes but for the return address -/
  aligned : (s₁.reg .rsp).toNat % 16 = 8
  /-- the arguments are in the registers where the program put them -/
  args : ∀ r, r ≠ .rsp → r ≠ .rax → s₁.reg r = s.reg r
  returns : s₁.mem (base - 8#64) = sym.exitSyscall
  frame : threadRegsAt s₁.mem base = syscallFrame s base
  outside : ∀ a, (∀ i < 23, a ≠ quad (base - 8#64) (8 * i)) → s₁.mem a = s.mem a

/-- The words the processor pushes for a system call. -/
def calledWords (s : State) : List Word := [s.rip, s.cs, s.rflags, s.reg .rsp, s.ss]

/-- The state when `syscall_handler` has built its frame. -/
structure Framed (s t : State) (base : Word) : Prop where
  rsp : t.reg .rsp = base
  reg : ∀ r, r ≠ .rsp → t.reg r = s.reg r
  frame : threadRegsAt t.mem base = syscallFrame s base
  outside : ∀ a, (∀ i < 22, a ≠ quad base (8 * i)) → t.mem a = s.mem a

/-- The memory after the registers that are kept have been saved below the words of the processor. -/
theorem syscallFrame_eq {mem : Word → Word} {reg : Reg → Word}
    (hreg : ∀ r, r ≠ .rsp → reg r = s.reg r) (hsaved : Saved mem base volatile reg)
    (hout : ∀ a, Outside a base volatile →
      mem a = storeWords s.mem (quad base 136) (calledWords s) a) :
    threadRegsAt mem base = syscallFrame s base := by
  have hget : ∀ p ∈ volatile, mem (quad base p.2) = s.reg p.1 := fun p hp =>
    (hsaved p hp).trans (hreg p.1 (volatile_ok.rsp p hp))
  have hbelow : ∀ p ∈ volatile, p.2 < 48 := by decide
  have hapart : ∀ o, 48 ≤ o → o < 176 → Outside (quad base o) base volatile := by
    intro o ho ho' p hp heq
    have hp' := hbelow p hp
    have := quad_inj (by omega) (by omega) heq
    omega
  have hold : ∀ o, 48 ≤ o → o < 136 → mem (quad base o) = s.mem (quad base o) := by
    intro o ho ho'
    rw [hout _ (hapart o ho (by omega))]
    refine storeWords_outside fun i hi heq => ?_
    have hi' : i < 5 := hi
    have := quad_inj (by omega) (by omega) heq
    omega
  have hnew : ∀ i (h : i < (calledWords s).length), mem (quad base (136 + 8 * i)) = (calledWords s)[i] := by
    intro i h
    have hi' : i < 5 := h
    rw [hout _ (hapart _ (by omega) (by omega))]
    exact storeWords_get s.mem base (calledWords s) 136 h (by simp [calledWords])
  simp only [threadRegsAt, syscallFrame, frameOf, ThreadRegs.mk.injEq]
  exact ⟨hget (.r15, 0) (by decide), hget (.r14, 8) (by decide), hget (.r13, 16) (by decide),
    hget (.r12, 24) (by decide), hget (.rbp, 32) (by decide), hget (.rbx, 40) (by decide),
    hold 48 (by omega) (by omega), hold 56 (by omega) (by omega), hold 64 (by omega) (by omega),
    hold 72 (by omega) (by omega), hold 80 (by omega) (by omega), hold 88 (by omega) (by omega),
    hold 96 (by omega) (by omega), hold 104 (by omega) (by omega), hold 112 (by omega) (by omega),
    hold 120 (by omega) (by omega), hold 128 (by omega) (by omega), hnew 0 (Nat.succ_pos _),
    hnew 1 (by simp [calledWords]), hnew 2 (by simp [calledWords]), hnew 3 (by simp [calledWords]),
    hnew 4 (by simp [calledWords])⟩

variable (s rsp0) in
/-- The handler builds its frame and compares the number with `MAX_SYSCALL_NR`. -/
theorem Linked.reaches_framed (h : Linked sym im) (hg : g.target = sym.syscallHandler) :
    ∃ t, Reaches im (deliver s g rsp0 none) t ∧ Framed s t (frameBase s g rsp0) ∧
      im.Holds t.rip (syscallDispatch sym) sym.exitSyscall ∧
      (sf t.rflags = of t.rflags ↔ 10 ≤ (s.reg .rax).toInt) := by
  have hbase := aligned_frameBase s g rsp0
  have hstart : deliver s g rsp0 none = entering s g rsp0 none 136 (calledWords s) sym.syscallHandler := by
    rw [deliver_eq_entering (by simp [deliveredWords]), hg]
    rfl
  have hreg : ∀ r, r ≠ .rsp →
      (entering s g rsp0 none 136 (calledWords s) sym.syscallHandler).reg r = s.reg r :=
    fun r hr => entering_of_ne hr
  have hsp : (entering s g rsp0 none 136 (calledWords s) sym.syscallHandler).reg .rsp =
      quad (frameBase s g rsp0) 136 := entering_rsp ..
  have hmem : (entering s g rsp0 none 136 (calledWords s) sym.syscallHandler).mem =
    storeWords s.mem (quad (frameBase s g rsp0) 136) (calledWords s) := rfl
  have hrip : (entering s g rsp0 none 136 (calledWords s) sym.syscallHandler).rip =
    sym.syscallHandler := rfl
  rw [hstart]
  generalize entering s g rsp0 none 136 (calledWords s) sym.syscallHandler = t₀ at *
  obtain ⟨mem, fl, hrun, hsaved, hout⟩ := run_syscallOps hbase hsp
  have hcode := h.syscall
  rw [← hrip] at hcode
  obtain ⟨c, hops, hrest⟩ := Image.Holds.append.1 hcode
  rw [hmem] at hout
  refine ⟨_, hops.reaches_ops hrun, ⟨?_, fun r hr => ?_, syscallFrame_eq hreg hsaved hout,
    fun a ha => ?_⟩, hrest, ?_⟩
  · simp only [Function.update_self]
  · exact (Function.update_of_ne hr ..).trans (hreg r hr)
  · have hvol : ∀ p ∈ volatile, p.2 % 8 = 0 ∧ p.2 < 48 := by decide
    have hapart : Outside a (frameBase s g rsp0) volatile := by
      intro p hp
      obtain ⟨hdiv, hlt⟩ := hvol p hp
      rw [show p.2 = 8 * (p.2 / 8) by omega]
      exact ha (p.2 / 8) (by omega)
    refine (hout a hapart).trans (storeWords_outside fun i hi => ?_)
    have hi' : i < 5 := hi
    rw [show 136 + 8 * i = 8 * (17 + i) by omega]
    exact ha (17 + i) (by omega)
  · refine (sf_eq_of_compare fl 10#64 _).trans ?_
    rw [hreg .rax (by decide)]
    rfl

/-! ### Leaving -/

/-- The state a system call leads back to, when its function leaves the registers `reg` and the frame
`f`: only the registers that a function keeps come from the frame. -/
def sysReturned (mem : Word → Word) (f : ThreadRegs) (reg : Reg → Word) : State where
  reg r := if r ∈ calleeSaved ∨ r = .rsp then f.reg r else reg r
  mem := mem
  rip := f.rip
  rflags := f.rflags
  cs := f.cs
  ss := f.ss

theorem loaded_volatile {mem : Word → Word} {reg : Reg → Word} {r : Reg} (hr : r ≠ .rsp) :
    loaded mem base volatile reg r =
      if r ∈ calleeSaved ∨ r = .rsp then (threadRegsAt mem base).reg r else reg r := by
  cases r with
  | rsp => exact absurd rfl hr
  | _ => rfl

/-- `exit_syscall`, from a stack with a frame on top. -/
theorem Linked.reaches_exit (h : Linked sym im) {t : State} (hrip : t.rip = sym.exitSyscall)
    (hbase : Aligned (t.reg .rsp)) :
    Reaches im t (sysReturned t.mem (threadRegsAt t.mem (t.reg .rsp)) t.reg) := by
  have hexit := h.exitSyscall
  rw [← hrip] at hexit
  obtain ⟨c, hops, next, hiret, -⟩ := Image.Holds.append.1 hexit
  obtain ⟨fl, hrun⟩ := run_exitOps hbase rfl
  refine (hops.reaches_ops hrun).tail ((step_iretq hiret).trans ?_)
  rw [iretq_frame hbase (by simp only [Function.update_self])]
  refine congrArg some (State.ext (funext fun r => ?_) rfl rfl rfl rfl rfl)
  show Function.update _ _ _ r = _
  by_cases hr : r = .rsp
  · subst hr
    exact Function.update_self Reg.rsp _ _
  · exact (Function.update_of_ne hr ..).trans ((Function.update_of_ne hr ..).trans (loaded_volatile hr))

/-- A function that returns from a system call leaves through the frame, whatever it holds by then. -/
theorem Linked.syscall_leaves (h : Linked sym im) {f : Word} {s₁ s₂ : State} (hbase : Aligned base)
    (hcalled : SyscallCalled sym s base f s₁) (hret : Returned s₁ s₂) :
    Reaches im s₂ (sysReturned s₂.mem (threadRegsAt s₂.mem base) s₂.reg) := by
  have hrip : s₂.rip = sym.exitSyscall := by
    rw [hret.rip, hcalled.rsp]
    exact hcalled.returns
  have hsp : s₂.reg .rsp = base := by
    rw [hret.rsp, hcalled.rsp]
    exact BitVec.sub_add_cancel ..
  have hexit := h.reaches_exit hrip (hsp ▸ hbase)
  rwa [hsp] at hexit

/-- `no_syscall`, from a stack with a frame on top. -/
theorem Linked.reaches_noSyscall (h : Linked sym im) {t : State} (hrip : t.rip = sym.noSyscall)
    (hbase : Aligned (t.reg .rsp)) :
    Reaches im t (sysReturned t.mem (threadRegsAt t.mem (t.reg .rsp))
      (Function.update t.reg .rax (BitVec.ofInt 64 (-enosys)))) := by
  obtain ⟨e, hcode⟩ := h.noSyscall
  rw [← hrip] at hcode
  obtain ⟨n₁, hmov, n₂, hjmp, -⟩ := hcode
  have hsp : (t.set .rax (BitVec.ofInt 64 (-enosys))).reg .rsp = t.reg .rsp :=
    State.set_of_ne (by decide)
  have hexit := h.reaches_exit rfl (t := { t.set .rax (BitVec.ofInt 64 (-enosys)) with
    rip := sym.exitSyscall }) (by simp only [hsp]; exact hbase)
  simp only [hsp] at hexit
  exact .head (step_op hmov rfl) (.head (step_jmp hjmp) hexit)

/-! ### The table -/

/-- The address of a word of `syscall_table`. -/
def slot (sym : Symbols) (nr : Word) : Word := sym.syscallTable + 8#64 * nr

theorem aligned_slot (htable : Aligned sym.syscallTable) (nr : Word) : Aligned (slot sym nr) := by
  rw [Aligned] at *
  have h8 : (8#64).toNat = 8 := rfl
  rw [slot, BitVec.toNat_add, BitVec.toNat_mul, h8]
  omega

/-- The word looked up for a number that is not too large, and its test. -/
theorem reaches_tested {t : State} {n₁ n₂ n₃ n₄ : Word} (htable : Aligned sym.syscallTable)
    (hjge : im t.rip = some (.jge sym.noSyscall, n₁)) (hle : sf t.rflags ≠ of t.rflags)
    (hload : im n₁ = some (.op (.loadIndexed sym.syscallTable .rax .rax), n₂))
    (htest : im n₂ = some (.op (.test .rax), n₃)) (hje : im n₃ = some (.je sym.noSyscall, n₄)) :
    ∃ t', Reaches im t t' ∧ t'.reg = Function.update t.reg .rax (t.mem (slot sym (t.reg .rax))) ∧
      t'.mem = t.mem ∧
      t'.rip = if t.mem (slot sym (t.reg .rax)) = 0#64 then sym.noSyscall else n₄ := by
  have hstep₁ := step_jge hjge
  rw [if_neg hle] at hstep₁
  have hexec : (Op.loadIndexed sym.syscallTable .rax .rax).exec { t with rip := n₁ } =
      some ({ t with rip := n₁ }.set .rax (t.mem (slot sym (t.reg .rax)))) :=
    if_pos (aligned_slot htable _)
  have hstep₂ := step_op (s := { t with rip := n₁ }) hload hexec
  have hstep₃ := step_op
    (s := { { t with rip := n₁ }.set .rax (t.mem (slot sym (t.reg .rax))) with rip := n₂ }) htest rfl
  refine ⟨_, .head hstep₁ (.head hstep₂ (.head hstep₃ (.single (step_je hje)))), rfl, rfl, ?_⟩
  simp only [zf_setArith, State.set_self, beq_iff_eq]

/-- A number that is not too large, with a function in its slot, gets the function called. -/
theorem reaches_function {t : State} (hmod : base.toNat % 16 = 0)
    (hframed : Framed s t base) (hcode : im.Holds t.rip (syscallDispatch sym) sym.exitSyscall)
    (hle : sf t.rflags ≠ of t.rflags) (htable : Aligned sym.syscallTable)
    (hf : t.mem (slot sym (s.reg .rax)) ≠ 0#64) :
    ∃ s₁, Reaches im t s₁ ∧ SyscallCalled sym s base (t.mem (slot sym (s.reg .rax))) s₁ := by
  obtain ⟨n₁, hjge, n₂, hload, n₃, htest, n₄, hje, n₅, hcld, n₆, hcall, hnext⟩ := hcode
  obtain rfl : n₆ = sym.exitSyscall := hnext
  obtain ⟨t₁, hreach, hreg, hmem, hrip⟩ := reaches_tested htable hjge hle hload htest hje
  rw [hframed.reg .rax (by decide)] at hreg hrip
  rw [if_neg hf] at hrip
  generalize t.mem (slot sym (s.reg .rax)) = f at *
  have hsp : t₁.reg .rsp = base := by
    rw [hreg, Function.update_of_ne (by decide)]
    exact hframed.rsp
  have hrax : t₁.reg .rax = f := by rw [hreg, Function.update_self]
  rw [← hrip] at hcld
  have hbase : Aligned base := by
    rw [Aligned]
    omega
  have hstep : step im t₁ = some { t₁ with rip := n₅, rflags := t₁.rflags &&& ~~~0x400#64 } :=
    step_op hcld rfl
  generalize ht₂ : ({ t₁ with rip := n₅, rflags := t₁.rflags &&& ~~~0x400#64 } : State) = t₂ at *
  have hreg₂ : t₂.reg = t₁.reg := by rw [← ht₂]
  have hmem₂ : t₂.mem = t.mem := by rw [← ht₂, ← hmem]
  have hcall₂ : im t₂.rip = some (.callReg .rax, sym.exitSyscall) := by rw [← ht₂]; exact hcall
  have hpush : t₂.push sym.exitSyscall =
      some ((t₂.store (base - 8#64) sym.exitSyscall).set .rsp (base - 8#64)) := by
    rw [State.push, hreg₂, hsp, if_pos hbase]
  have hother : ∀ a, a ≠ base - 8#64 →
      (t₂.store (base - 8#64) sym.exitSyscall).mem a = t.mem a := fun a ha =>
    (State.store_of_ne ha).trans (congrFun hmem₂ a)
  refine ⟨_, hreach.trans (.head hstep (.single (step_callReg hcall₂ hpush))), ?_, ?_, ?_,
    fun r hr hr' => ?_, ?_, ?_, fun a ha => ?_⟩
  · simp only [hreg₂, hrax]
  · exact State.set_self (t₂.store (base - 8#64) sym.exitSyscall) .rsp _
  · simp only [State.set_self, BitVec.toNat_sub]
    have h8 : (8#64).toNat = 8 := rfl
    omega
  · refine (State.set_of_ne (s := t₂.store (base - 8#64) sym.exitSyscall) (v := base - 8#64) hr).trans ?_
    rw [State.store_reg, hreg₂, hreg, Function.update_of_ne hr', hframed.reg r hr]
  · exact State.store_self t₂ _ _
  · rw [← hframed.frame]
    exact threadRegsAt_congr fun i hi => hother _ (quad_ne_below (by omega))
  · have hzero := ha 0 (by omega)
    rw [Nat.mul_zero, quad_zero] at hzero
    refine (hother a hzero).trans (hframed.outside a fun i hi => ?_)
    have hi' := ha (1 + i) (by omega)
    rwa [show 8 * (1 + i) = 8 + 8 * i by omega, quad_add,
      show quad (base - 8#64) 8 = base from BitVec.sub_add_cancel ..] at hi'

/-- Any other number leads to `no_syscall`. -/
theorem reaches_unknown {t : State}
    (hframed : Framed s t base) (hcode : im.Holds t.rip (syscallDispatch sym) sym.exitSyscall)
    (htable : Aligned sym.syscallTable)
    (hf : sf t.rflags = of t.rflags ∨ t.mem (slot sym (s.reg .rax)) = 0#64) :
    ∃ t', Reaches im t t' ∧ t'.rip = sym.noSyscall ∧ t'.mem = t.mem ∧
      ∀ r, r ≠ .rax → t'.reg r = t.reg r := by
  obtain ⟨n₁, hjge, n₂, hload, n₃, htest, n₄, hje, -⟩ := hcode
  by_cases hle : sf t.rflags = of t.rflags
  · exact ⟨_, .single (step_jge hjge), if_pos hle, rfl, fun _ _ => rfl⟩
  · obtain ⟨t₁, hreach, hreg, hmem, hrip⟩ := reaches_tested htable hjge hle hload htest hje
    rw [hframed.reg .rax (by decide), if_pos (hf.resolve_left hle)] at hrip
    refine ⟨t₁, hreach, hrip, hmem, fun r hr => ?_⟩
    rw [hreg, Function.update_of_ne hr]

/-! ### Whole system calls -/

/-- The frame of a system call gives back what a function keeps. -/
theorem sysReturned_syscallFrame (mem : Word → Word) (reg : Reg → Word) :
    sysReturned mem (syscallFrame s base) reg = { s with
      mem := mem
      reg := fun r => if r ∈ calleeSaved ∨ r = .rsp then s.reg r else reg r } :=
  State.ext (funext fun r => by cases r <;> rfl) rfl rfl rfl rfl rfl

/-- **System calls.** For a number the table has, the function is called with the registers of the
program, and when it returns with the frame unchanged the program goes on behind its `int`, with the
registers a function keeps as they were and the others, the result in `rax` among them, as the
function left them. For a number that is too large or has no function the program goes on with
`-ENOSYS` in `rax` and everything else as it was. -/
theorem syscall_resumes (h : Linked sym im) (hg : g.target = sym.syscallHandler)
    (htable : Aligned sym.syscallTable)
    (hapart : ∀ nr < 10, ∀ i < 22, slot sym (BitVec.ofNat 64 nr) ≠ quad (frameBase s g rsp0) (8 * i)) :
    (∀ nr < 10, s.reg .rax = BitVec.ofNat 64 nr → s.mem (slot sym (BitVec.ofNat 64 nr)) ≠ 0#64 →
      ∃ s₁, Reaches im (deliver s g rsp0 none) s₁ ∧
        SyscallCalled sym s (frameBase s g rsp0) (s.mem (slot sym (BitVec.ofNat 64 nr))) s₁ ∧
        ∀ s₂, Reaches im s₁ s₂ → Returned s₁ s₂ →
          threadRegsAt s₂.mem (frameBase s g rsp0) = threadRegsAt s₁.mem (frameBase s g rsp0) →
          Reaches im (deliver s g rsp0 none) { s with
            mem := s₂.mem
            reg := fun r => if r ∈ calleeSaved ∨ r = .rsp then s.reg r else s₂.reg r }) ∧
    (10 ≤ (s.reg .rax).toInt ∨ (∃ nr < 10, s.reg .rax = BitVec.ofNat 64 nr ∧
        s.mem (slot sym (BitVec.ofNat 64 nr)) = 0#64) →
      ∃ mem, Reaches im (deliver s g rsp0 none) { s with
          mem := mem
          reg := Function.update s.reg .rax (BitVec.ofInt 64 (-enosys)) } ∧
        ∀ a, (∀ i < 22, a ≠ quad (frameBase s g rsp0) (8 * i)) → mem a = s.mem a) := by
  have hmod := frameBase_mod s g rsp0
  have hbase := aligned_frameBase s g rsp0
  obtain ⟨t, hreach, hframed, hcode, hjge⟩ := h.reaches_framed s rsp0 hg
  have hword : ∀ nr < 10, t.mem (slot sym (BitVec.ofNat 64 nr)) = s.mem (slot sym (BitVec.ofNat 64 nr)) :=
    fun nr hnr => hframed.outside _ (hapart nr hnr)
  constructor
  · intro nr hnr hrax hf
    have hlow : ¬sf t.rflags = of t.rflags := by
      rw [hjge, hrax, BitVec.toInt_eq_toNat_cond, BitVec.toNat_ofNat]
      omega
    rw [← hword nr hnr] at hf ⊢
    rw [← hrax] at hf ⊢
    obtain ⟨s₁, hcall, hcalled⟩ := reaches_function hmod hframed hcode hlow htable hf
    refine ⟨s₁, hreach.trans hcall, hcalled, fun s₂ hrun hret hframe => ?_⟩
    have hleave := h.syscall_leaves hbase hcalled hret
    rw [hframe, hcalled.frame, sysReturned_syscallFrame] at hleave
    exact hreach.trans (hcall.trans (hrun.trans hleave))
  · intro hnr
    have hno : sf t.rflags = of t.rflags ∨ t.mem (slot sym (s.reg .rax)) = 0#64 := by
      rcases hnr with hlarge | ⟨nr, hlt, hrax, hempty⟩
      · exact .inl (hjge.2 hlarge)
      · rw [hrax, hword nr hlt]
        exact .inr hempty
    obtain ⟨t', hjump, hrip, hmem, hreg⟩ := reaches_unknown hframed hcode htable hno
    have hsp : t'.reg .rsp = frameBase s g rsp0 := (hreg .rsp (by decide)).trans hframed.rsp
    have hexit := h.reaches_noSyscall hrip (hsp ▸ hbase)
    rw [hsp, hmem, hframed.frame, sysReturned_syscallFrame] at hexit
    refine ⟨t.mem, hreach.trans (hjump.trans ?_), hframed.outside⟩
    have hregs : (fun r => if r ∈ calleeSaved ∨ r = .rsp then s.reg r else
        Function.update t'.reg .rax (BitVec.ofInt 64 (-enosys)) r) =
        Function.update s.reg .rax (BitVec.ofInt 64 (-enosys)) := by
      funext r
      by_cases hkept : r ∈ calleeSaved ∨ r = .rsp
      · have hne : r ≠ .rax := by
          rintro rfl
          exact absurd hkept (by decide)
        rw [if_pos hkept, Function.update_of_ne hne]
      · by_cases hr : r = .rax
        · rw [if_neg hkept, hr, Function.update_self, Function.update_self]
        · have hrsp : r ≠ .rsp := fun hc => hkept (.inr hc)
          rw [if_neg hkept, Function.update_of_ne hr, Function.update_of_ne hr, hreg r hr,
            hframed.reg r hrsp]
    rwa [hregs] at hexit

/-- The gate of system calls, as `setup_syscall` makes it. -/
def syscallGate (sym : Symbols) : Gate := ⟨sym.syscallHandler, 0x08#64, true, 3⟩

theorem syscall_resumes_fork : ∃ s₁,
    Reaches (Image.ofList text) (deliver userState (syscallGate textSymbols) 0x9000#64 none) s₁ ∧
      SyscallCalled textSymbols userState (frameBase userState (syscallGate textSymbols) 0x9000#64)
        242#64 s₁ ∧
      ∀ s₂, Reaches (Image.ofList text) s₁ s₂ → Returned s₁ s₂ →
        threadRegsAt s₂.mem (frameBase userState (syscallGate textSymbols) 0x9000#64) =
          threadRegsAt s₁.mem (frameBase userState (syscallGate textSymbols) 0x9000#64) →
        Reaches (Image.ofList text) (deliver userState (syscallGate textSymbols) 0x9000#64 none)
          { userState with
            mem := s₂.mem
            reg := fun r => if r ∈ calleeSaved ∨ r = .rsp then userState.reg r else s₂.reg r } :=
  (syscall_resumes text_linked rfl (by decide) (by decide)).1 4 (by decide) rfl (by decide)

/-! ### Negative numbers -/

/-- The negative number whose slot is at the address `a`. -/
def numberOf (sym : Symbols) (a : Word) : Word := (a - sym.syscallTable) / 8#64 + 0x8000000000000000#64

theorem numberOf_neg (sym : Symbols) (a : Word) : (numberOf sym a).toInt < 0 := by
  have hdiv : ((a - sym.syscallTable) / 8#64).toNat = (a - sym.syscallTable).toNat / 8 :=
    BitVec.toNat_udiv ..
  have hlt := (a - sym.syscallTable).isLt
  have hhigh : (0x8000000000000000#64).toNat = 2 ^ 63 := rfl
  rw [numberOf, BitVec.toInt_eq_toNat_cond, BitVec.toNat_add, hdiv, hhigh]
  omega

theorem slot_numberOf {a : Word} (ha : Aligned a) (htable : Aligned sym.syscallTable) :
    slot sym (numberOf sym a) = a := by
  have hdiv : ((a - sym.syscallTable) / 8#64).toNat = (a - sym.syscallTable).toNat / 8 :=
    BitVec.toNat_udiv ..
  have hsub := BitVec.toNat_sub a sym.syscallTable
  have hhigh : (0x8000000000000000#64).toNat = 2 ^ 63 := rfl
  have h8 : (8#64).toNat = 8 := rfl
  have ha' := a.isLt
  have ht := sym.syscallTable.isLt
  rw [Aligned] at ha htable
  refine BitVec.eq_of_toNat_eq ?_
  rw [slot, numberOf, BitVec.toNat_add, BitVec.toNat_mul, BitVec.toNat_add, hdiv, hhigh, h8]
  omega

/-- **A negative number escapes the table.** Every aligned address is the slot of a negative number,
the test against `MAX_SYSCALL_NR` lets it pass, and a word there that is not zero is called, in the
kernel, with registers that the program chose. -/
theorem syscall_escapes (h : Linked sym im) (hg : g.target = sym.syscallHandler)
    (htable : Aligned sym.syscallTable) {a : Word} (ha : Aligned a)
    (hapart : ∀ i < 22, a ≠ quad (frameBase s g rsp0) (8 * i)) (hf : s.mem a ≠ 0#64)
    (hrax : s.reg .rax = numberOf sym a) :
    (s.reg .rax).toInt < 0 ∧ ∃ s₁, Reaches im (deliver s g rsp0 none) s₁ ∧
      SyscallCalled sym s (frameBase s g rsp0) (s.mem a) s₁ := by
  obtain ⟨t, hreach, hframed, hcode, hjge⟩ := h.reaches_framed s rsp0 hg
  have hneg : (s.reg .rax).toInt < 0 := hrax ▸ numberOf_neg sym a
  have hlow : ¬sf t.rflags = of t.rflags := by
    rw [hjge]
    omega
  have hslot : t.mem (slot sym (s.reg .rax)) = s.mem a := by
    rw [hrax, slot_numberOf ha htable]
    exact hframed.outside a hapart
  obtain ⟨s₁, hcall, hcalled⟩ := reaches_function (frameBase_mod s g rsp0) hframed hcode hlow htable
    (hslot ▸ hf)
  rw [hslot] at hcalled
  exact ⟨hneg, s₁, hreach.trans hcall, hcalled⟩

/-- A program that makes a system call with a negative number. -/
def escapingState : State where
  reg r := if r = .rsp then 0x7000#64 else if r = .rax then numberOf textSymbols 0x5000#64 else 5#64
  mem a := if a = 0x5000#64 then 0x400800#64 else 0#64
  rip := 0x400000#64
  rflags := 0x202#64
  cs := 0x1b#64
  ss := 0x23#64

theorem syscall_escapes_user : (escapingState.reg .rax).toInt < 0 ∧ ∃ s₁,
    Reaches (Image.ofList text) (deliver escapingState (syscallGate textSymbols) 0x9000#64 none) s₁ ∧
      SyscallCalled textSymbols escapingState
        (frameBase escapingState (syscallGate textSymbols) 0x9000#64) 0x400800#64 s₁ :=
  syscall_escapes text_linked rfl (by decide) (a := 0x5000#64) (by decide) (by decide) (by decide) rfl

end Entry

end Kernel64
