import Kernel64.Entry.Frames

/-!
# Interrupts and exceptions

From the processor's delivery of vector `nr` the code of `entry.S` gets to `isr_common_handler`, with
the complete frame of the interrupted state as its argument, on a stack aligned as a C function
expects it, and with no other memory touched (`Linked.reaches_isr`). A handler that returns leaves
through the frame, and one that does not change the frame through the very state that was
interrupted (`interrupt_resumes`).
-/

namespace Kernel64

namespace Entry

open Machine

variable {im : Image} {sym : Symbols} {s : State} {g : Gate} {rsp0 : Word} {nr : ℕ}
  {error : Option Word} {base : Word}

/-! ### The stack of the handler -/

/-- Where the frame of an interrupt goes. -/
def frameBase (s : State) (g : Gate) (rsp0 : Word) : Word :=
  deliveryStack s g rsp0 - BitVec.ofNat 64 threadRegsSize

theorem deliveryStack_mod (s : State) (g : Gate) (rsp0 : Word) :
    (deliveryStack s g rsp0).toNat % 16 = 0 := by
  rw [deliveryStack]
  generalize (if cpl s.cs = cpl g.cs then s.reg .rsp else rsp0) = sp
  have hmod : (sp % 16#64).toNat = sp.toNat % 16 := BitVec.toNat_umod ..
  have hle : (sp % 16#64).toNat ≤ sp.toNat := hmod ▸ Nat.mod_le ..
  rw [BitVec.toNat_sub_of_le (BitVec.le_def.2 hle), hmod]
  omega

theorem deliveryStack_eq (s : State) (g : Gate) (rsp0 : Word) :
    deliveryStack s g rsp0 = quad (frameBase s g rsp0) threadRegsSize :=
  (BitVec.sub_add_cancel ..).symm

theorem frameBase_mod (s : State) (g : Gate) (rsp0 : Word) :
    (frameBase s g rsp0).toNat % 16 = 0 := by
  have htop := deliveryStack_mod s g rsp0
  rw [frameBase, threadRegsSize, BitVec.toNat_sub, BitVec.toNat_ofNat]
  omega

theorem aligned_frameBase (s : State) (g : Gate) (rsp0 : Word) : Aligned (frameBase s g rsp0) := by
  have hmod := frameBase_mod s g rsp0
  rw [Aligned]
  omega

/-- `isr_common_handler` is called for vector `nr`, after an interrupt of the state `s`. -/
structure IsrCalled (sym : Symbols) (s : State) (nr : ℕ) (error : Option Word) (base : Word)
    (s₁ : State) : Prop where
  rip : s₁.rip = sym.isrCommonHandler
  rdi : s₁.reg .rdi = base
  rsp : s₁.reg .rsp = base - 8#64
  /-- the stack is aligned to 16 bytes but for the return address -/
  aligned : (s₁.reg .rsp).toNat % 16 = 8
  returns : s₁.mem (base - 8#64) = sym.afterIsr
  frame : threadRegsAt s₁.mem base = frameOf s (BitVec.ofNat 64 nr) (error.getD 0#64)
  outside : ∀ a, (∀ i < 23, a ≠ quad (base - 8#64) (8 * i)) → s₁.mem a = s.mem a

/-! ### From the gate to `common_handler` -/

/-- The words of a frame above the general registers. -/
def raised (s : State) (nr : ℕ) (error : Option Word) : List Word :=
  [BitVec.ofNat 64 nr, error.getD 0#64, s.rip, s.cs, s.rflags, s.reg .rsp, s.ss]

/-- A state on the way from the gate to `common_handler`: the words `l` are on the stack, the stack
pointer is at the offset `o` of the frame to be. -/
def entering (s : State) (g : Gate) (rsp0 : Word) (error : Option Word) (o : ℕ) (l : List Word)
    (rip : Word) : State where
  reg := Function.update s.reg .rsp (quad (frameBase s g rsp0) o)
  mem := storeWords s.mem (quad (frameBase s g rsp0) o) l
  rip := rip
  rflags := (deliver s g rsp0 error).rflags
  cs := g.cs
  ss := (deliver s g rsp0 error).ss

theorem deliver_eq_entering (hlen : (deliveredWords s error).length ≤ 22) :
    deliver s g rsp0 error = entering s g rsp0 error (176 - 8 * (deliveredWords s error).length)
      (deliveredWords s error) g.target := by
  have hsplit : 176 = 176 - 8 * (deliveredWords s error).length +
      8 * (deliveredWords s error).length := by omega
  have hsp : deliveryStack s g rsp0 - BitVec.ofNat 64 (8 * (deliveredWords s error).length) =
      quad (frameBase s g rsp0) (176 - 8 * (deliveredWords s error).length) := by
    rw [deliveryStack_eq, threadRegsSize]
    conv_lhs => rw [hsplit]
    rw [quad_add]
    exact BitVec.add_sub_cancel ..
  simp only [deliver, entering, hsp]

theorem entering_rsp (o : ℕ) (l : List Word) (rip : Word) :
    (entering s g rsp0 error o l rip).reg .rsp = quad (frameBase s g rsp0) o :=
  Function.update_self Reg.rsp _ s.reg

theorem entering_of_ne {o : ℕ} {l : List Word} {rip : Word} {r : Reg} (hr : r ≠ .rsp) :
    (entering s g rsp0 error o l rip).reg r = s.reg r :=
  Function.update_of_ne hr _ s.reg

/-- An entry pushes a word. -/
theorem step_pushImm {o : ℕ} (ho : o % 8 = 0) {l : List Word} {rip next v : Word}
    (hcode : im rip = some (.op (.pushImm v), next)) :
    step im (entering s g rsp0 error (o + 8) l rip) =
      some (entering s g rsp0 error o (v :: l) next) := by
  have hup : quad (frameBase s g rsp0) o + 8#64 = quad (frameBase s g rsp0) (o + 8) :=
    (quad_add (frameBase s g rsp0) o 8).symm
  have hpush := push_quad (aligned_frameBase s g rsp0) ho
    (s := entering s g rsp0 error (o + 8) l rip) (entering_rsp ..) v
  refine (step_op (s := entering s g rsp0 error (o + 8) l rip) hcode hpush).trans (congrArg some ?_)
  simp only [entering, State.set, State.store, Function.update_idem, storeWords, hup]

variable (s g rsp0) in
/-- The entry of a vector completes what the processor pushed to the same words for all vectors. -/
theorem Linked.reaches_common (h : Linked sym im) (hnr : nr < 48)
    (herror : error.isSome = true ↔ nr ∈ withError) (hg : g.target = sym.entry nr) :
    Reaches im (deliver s g rsp0 error)
      (entering s g rsp0 error 120 (raised s nr error) sym.commonHandler) := by
  obtain ⟨e, hcode⟩ := h.entry nr hnr
  have hjump : ∀ {n next : Word}, im n = some (.jmp sym.commonHandler, next) →
      step im (entering s g rsp0 error 120 (raised s nr error) n) =
        some (entering s g rsp0 error 120 (raised s nr error) sym.commonHandler) := by
    intro n next hn
    exact step_jmp (s := entering s g rsp0 error 120 (raised s nr error) n) hn
  cases error with
  | some v =>
    have hmem : nr ∈ withError := herror.1 rfl
    rw [entryCode, if_pos hmem, List.nil_append] at hcode
    obtain ⟨n₁, hpush, n₂, hjmp, -⟩ := hcode
    rw [deliver_eq_entering (by simp [deliveredWords]), hg]
    exact .head (step_pushImm rfl hpush) (.single (hjump hjmp))
  | none =>
    have hmem : nr ∉ withError := fun hc => Bool.false_ne_true (herror.2 hc)
    rw [entryCode, if_neg hmem] at hcode
    obtain ⟨n₁, hzero, n₂, hpush, n₃, hjmp, -⟩ := hcode
    rw [deliver_eq_entering (by simp [deliveredWords]), hg]
    exact .head (step_pushImm rfl hzero) (.head (step_pushImm rfl hpush) (.single (hjump hjmp)))

/-! ### `common_handler` -/

/-- The addresses of the general registers are below the words of `raised`. -/
theorem outside_general {i : ℕ} (hi : i < 7) : Outside (quad base (120 + 8 * i)) base general := by
  have hlt : ∀ p ∈ general, p.2 < 120 := by decide
  intro p hp heq
  have hp' := hlt p hp
  have := quad_inj (by omega) (by omega) heq
  omega

/-- The general registers saved below the words of `raised` make a frame. -/
theorem threadRegsAt_of_saved {mem : Word → Word} {reg : Reg → Word}
    (hreg : ∀ r, r ≠ .rsp → reg r = s.reg r) (hsaved : Saved mem base general reg)
    (hraised : ∀ i (h : i < (raised s nr error).length),
      mem (quad base (120 + 8 * i)) = (raised s nr error)[i]) :
    threadRegsAt mem base = frameOf s (BitVec.ofNat 64 nr) (error.getD 0#64) := by
  have hget : ∀ p ∈ general, mem (quad base p.2) = s.reg p.1 := fun p hp =>
    (hsaved p hp).trans (hreg p.1 (general_ok.rsp p hp))
  simp only [threadRegsAt, frameOf, ThreadRegs.mk.injEq]
  exact ⟨hget (.r15, 0) (by decide), hget (.r14, 8) (by decide), hget (.r13, 16) (by decide),
    hget (.r12, 24) (by decide), hget (.rbp, 32) (by decide), hget (.rbx, 40) (by decide),
    hget (.r11, 48) (by decide), hget (.r10, 56) (by decide), hget (.r9, 64) (by decide),
    hget (.r8, 72) (by decide), hget (.rax, 80) (by decide), hget (.rcx, 88) (by decide),
    hget (.rdx, 96) (by decide), hget (.rsi, 104) (by decide), hget (.rdi, 112) (by decide),
    hraised 0 (Nat.succ_pos _), hraised 1 (by simp [raised]), hraised 2 (by simp [raised]),
    hraised 3 (by simp [raised]), hraised 4 (by simp [raised]), hraised 5 (by simp [raised]),
    hraised 6 (by simp [raised])⟩

/-- The word below the frame is not part of it. -/
theorem quad_ne_below {o : ℕ} (ho : o < 2 ^ 64 - 8) : quad base o ≠ base - 8#64 := by
  have hbelow : base - 8#64 = quad base (2 ^ 64 - 8) := by
    rw [BitVec.sub_eq_add_neg]
    rfl
  intro hc
  have := quad_inj (by omega) (by omega) (hc.trans hbelow)
  omega

/-- `common_handler` saves the general registers and calls `isr_common_handler`. -/
theorem Linked.reaches_call (h : Linked sym im) {t : State} (hbase : Aligned base)
    (hrip : t.rip = sym.commonHandler) (hsp : t.reg .rsp = quad base 120) :
    ∃ s₁, Reaches im t s₁ ∧ s₁.rip = sym.isrCommonHandler ∧ s₁.reg .rdi = base ∧
      s₁.reg .rsp = base - 8#64 ∧ s₁.mem (base - 8#64) = sym.afterIsr ∧
      Saved s₁.mem base general t.reg ∧
      ∀ a, a ≠ base - 8#64 → Outside a base general → s₁.mem a = t.mem a := by
  obtain ⟨mem, fl, hrun, hsaved, hout⟩ := run_enterOps hbase hsp
  obtain ⟨c, hops, next, hcall, hnext⟩ := Image.Holds.append.1 h.enter
  obtain rfl : next = sym.afterIsr := hnext
  rw [← hrip] at hops
  have hreach := hops.reaches_ops hrun
  generalize ht₁ : ({ t with
    mem := mem, rflags := fl, rip := c
    reg := Function.update (Function.update t.reg .rsp base) .rdi base } : State) = t₁ at hreach
  have hsp₁ : t₁.reg .rsp = base := by subst ht₁; rfl
  have hrdi₁ : t₁.reg .rdi = base := by subst ht₁; rfl
  have hmem₁ : t₁.mem = mem := by subst ht₁; rfl
  have hcode : im t₁.rip = some (.call sym.isrCommonHandler, sym.afterIsr) := by subst ht₁; exact hcall
  have hpush : t₁.push sym.afterIsr =
      some ((t₁.store (base - 8#64) sym.afterIsr).set .rsp (base - 8#64)) := by
    rw [State.push, hsp₁, if_pos hbase]
  refine ⟨_, hreach.tail (step_call hcode hpush), rfl, ?_,
    State.set_self (t₁.store (base - 8#64) sym.afterIsr) .rsp _, State.store_self t₁ _ _, ?_, ?_⟩
  · have hne : Reg.rdi ≠ .rsp := by decide
    exact (State.set_of_ne (s := t₁.store (base - 8#64) sym.afterIsr) (v := base - 8#64) hne).trans hrdi₁
  · intro p hp
    have hlt : ∀ p ∈ general, p.2 < 120 := by decide
    have hp' := hlt p hp
    rw [← hsaved p hp, ← hmem₁]
    exact State.store_of_ne (quad_ne_below (by omega))
  · intro a ha hagen
    rw [← hout a hagen, ← hmem₁]
    exact State.store_of_ne ha

variable (s rsp0) in
/-- **The frame is complete** when `isr_common_handler` is called. -/
theorem Linked.reaches_isr (h : Linked sym im) (hnr : nr < 48)
    (herror : error.isSome = true ↔ nr ∈ withError) (hg : g.target = sym.entry nr) :
    ∃ s₁, Reaches im (deliver s g rsp0 error) s₁ ∧
      IsrCalled sym s nr error (frameBase s g rsp0) s₁ := by
  have hcommon := h.reaches_common s g rsp0 hnr herror hg
  obtain ⟨s₁, hreach, hrip, hrdi, hrsp, hret, hsaved, hout⟩ := h.reaches_call
    (aligned_frameBase s g rsp0) (t := entering s g rsp0 error 120 (raised s nr error) sym.commonHandler)
    rfl (entering_rsp ..)
  have hmod := frameBase_mod s g rsp0
  generalize hbase : frameBase s g rsp0 = base at *
  have hmem : (entering s g rsp0 error 120 (raised s nr error) sym.commonHandler).mem =
      storeWords s.mem (quad base 120) (raised s nr error) := by rw [← hbase]; rfl
  rw [hmem] at hout
  refine ⟨s₁, hcommon.trans hreach, hrip, hrdi, hrsp, ?_, hret, ?_, fun a ha => ?_⟩
  · rw [hrsp, BitVec.toNat_sub]
    have h8 : (8#64).toNat = 8 := rfl
    omega
  · refine threadRegsAt_of_saved (fun r hr => entering_of_ne hr) hsaved fun i hi => ?_
    have hi' : i < 7 := by simpa [raised] using hi
    rw [hout _ (quad_ne_below (by omega)) (outside_general hi')]
    exact storeWords_get s.mem base (raised s nr error) 120 hi (by simp [raised])
  · have hshift : ∀ o, quad base o = quad (base - 8#64) (8 + o) := by
      intro o
      rw [quad_add]
      exact congrArg (quad · o) (BitVec.sub_add_cancel ..).symm
    have hzero := ha 0 (by omega)
    rw [Nat.mul_zero, quad_zero] at hzero
    rw [hout a hzero]
    · refine storeWords_outside fun i hi => ?_
      have hi' : i < 7 := by simpa [raised] using hi
      rw [hshift, show 8 + (120 + 8 * i) = 8 * (16 + i) by omega]
      exact ha (16 + i) (by omega)
    · intro p hp
      have hoff : ∀ p ∈ general, p.2 % 8 = 0 ∧ p.2 < 120 := by decide
      obtain ⟨hdiv, hlt⟩ := hoff p hp
      rw [hshift, show 8 + p.2 = 8 * (1 + p.2 / 8) by omega]
      exact ha (1 + p.2 / 8) (by omega)

/-! ### Back to what was interrupted -/

/-- A handler that returns leaves through the frame, whatever it holds by then. -/
theorem Linked.isr_leaves (h : Linked sym im) {s₁ s₂ : State} (hbase : Aligned base)
    (hcalled : IsrCalled sym s nr error base s₁) (hret : Returned s₁ s₂) :
    Reaches im s₂ (resumed s₂.mem (threadRegsAt s₂.mem base)) := by
  obtain ⟨e, hcode⟩ := h.leave
  have hrip : s₂.rip = sym.afterIsr := by
    rw [hret.rip, hcalled.rsp]
    exact hcalled.returns
  have hsp : s₂.reg .rsp = base := by
    rw [hret.rsp, hcalled.rsp]
    exact BitVec.sub_add_cancel ..
  rw [← hrip] at hcode
  have hleave := reaches_leave hcode (hsp ▸ hbase)
  rwa [hsp] at hleave

/-- **An interrupt is transparent.** Whatever was interrupted, `isr_common_handler` is called with
its complete state as the frame, and when it returns with the frame unchanged, the processor goes on
where it was, with every register as it was; only memory is what the handler made it. -/
theorem interrupt_resumes (h : Linked sym im) (hnr : nr < 48)
    (herror : error.isSome = true ↔ nr ∈ withError) (hg : g.target = sym.entry nr) :
    ∃ s₁, Reaches im (deliver s g rsp0 error) s₁ ∧
      IsrCalled sym s nr error (frameBase s g rsp0) s₁ ∧
      ∀ s₂, Reaches im s₁ s₂ → Returned s₁ s₂ →
        threadRegsAt s₂.mem (frameBase s g rsp0) = threadRegsAt s₁.mem (frameBase s g rsp0) →
        Reaches im (deliver s g rsp0 error) { s with mem := s₂.mem } := by
  obtain ⟨s₁, hreach, hcalled⟩ := h.reaches_isr s rsp0 hnr herror hg
  refine ⟨s₁, hreach, hcalled, fun s₂ hrun hret hframe => ?_⟩
  have hleave := h.isr_leaves (aligned_frameBase s g rsp0) hcalled hret
  rw [hframe, hcalled.frame, resumed_frameOf] at hleave
  exact hreach.trans (hrun.trans hleave)

/-- A program in user mode. -/
def userState : State where
  reg r := if r = .rsp then 0x7000#64 else if r = .rax then 4#64 else 5#64
  mem a := if a = 0x1020#64 then 242#64 else 0#64
  rip := 0x400000#64
  rflags := 0x202#64
  cs := 0x1b#64
  ss := 0x23#64

/-- The gate of a vector, as `setup_irq` makes it. -/
def irqGate (sym : Symbols) (nr : ℕ) : Gate := ⟨sym.entry nr, 0x08#64, false, 0⟩

theorem interrupt_resumes_timer : ∃ s₁,
    Reaches (Image.ofList text) (deliver userState (irqGate textSymbols 32) 0x9000#64 none) s₁ ∧
      IsrCalled textSymbols userState 32 none
        (frameBase userState (irqGate textSymbols 32) 0x9000#64) s₁ ∧
      ∀ s₂, Reaches (Image.ofList text) s₁ s₂ → Returned s₁ s₂ →
        threadRegsAt s₂.mem (frameBase userState (irqGate textSymbols 32) 0x9000#64) =
          threadRegsAt s₁.mem (frameBase userState (irqGate textSymbols 32) 0x9000#64) →
        Reaches (Image.ofList text) (deliver userState (irqGate textSymbols 32) 0x9000#64 none)
          { userState with mem := s₂.mem } :=
  interrupt_resumes text_linked (by decide) (by decide) rfl

end Entry

end Kernel64
