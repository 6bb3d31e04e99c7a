import Kernel64.Entry.Frames
import Mathlib.Data.Set.Insert
import Mathlib.Logic.Relation

/-!
# Switching between threads

`switch_threads(&prev->stack_pointer, next->stack_pointer)` pushes the registers a function keeps,
stores the stack pointer in `prev`, and goes on from the stack of `next`. As a function of the state
this is `switchTo` (`Linked.reaches_switch`).

A `Kernel` is any number of threads, each with a stack of its own: the running thread computes, makes
new threads, frees threads that are parked for good, or switches to one that is parked
(`Kernel.Step`). What a parked thread will go on with is its `Context`, which no memory holds; a few
words on its stack do, and these are all that the others have to leave alone: elsewhere on the stacks
of parked threads the kernel links and unlinks the wait heads of `locking.c`. Then the stacks hold the
contexts (`Kernel.Run.sound`), and to the thread that calls it, however many others run in between,
`switch_threads` is a function that returns (`switch_returns`).
-/

namespace Kernel64

namespace Entry

open Machine

/-! ### The code -/

/-- The area that `switch_threads` pushes. -/
def switchArea : Area := stackArea 0 switchRegs.reverse

/-- The stack pointer that is stored in the thread switched out. -/
def savedSp (s : State) : Word := s.reg .rsp - 48#64

/-- The memory after a switch. -/
def switchMem (s : State) : Word → Word :=
  Function.update (storeWords s.mem (savedSp s) (switchRegs.reverse.map s.reg)) (s.reg .rdi) (savedSp s)

/-- `switch_threads`, as a function of the state in which it is called. -/
def switchTo (s : State) : State :=
  { s with
    mem := switchMem s
    rip := switchMem s (quad (s.reg .rsi) 48)
    reg := Function.update (loaded (switchMem s) (s.reg .rsi) switchArea s.reg) .rsp
      (quad (s.reg .rsi) 56) }

theorem savedSp_quad (s : State) : s.reg .rsp = quad (savedSp s) 48 :=
  (BitVec.sub_add_cancel ..).symm

theorem aligned_savedSp {s : State} (h : Aligned (s.reg .rsp)) : Aligned (savedSp s) := by
  have h48 : (48#64).toNat = 48 := rfl
  rw [Aligned] at *
  rw [savedSp, BitVec.toNat_sub, h48]
  omega

variable {im : Image} {sym : Symbols} {s : State}

/-- The code of `switch_threads` is `switchTo`. -/
theorem Linked.reaches_switch (h : Linked sym im) (hrip : s.rip = sym.switchThreads)
    (hrsp : Aligned (s.reg .rsp)) (hrdi : Aligned (s.reg .rdi)) (hrsi : Aligned (s.reg .rsi)) :
    Reaches im s (switchTo s) := by
  have hpush := run_pushes (aligned_savedSp hrsp) (l := switchRegs) (s := s) (by decide) (savedSp_quad s)
  generalize ht : ({ s with
    mem := storeWords s.mem (savedSp s) (switchRegs.reverse.map s.reg)
    reg := Function.update s.reg .rsp (savedSp s) } : State) = t at hpush
  have hreg : ∀ r, r ≠ .rsp → t.reg r = s.reg r := by
    intro r hr
    rw [← ht]
    exact Function.update_of_ne hr ..
  have hsp : t.reg .rsp = savedSp s := by
    rw [← ht]
    simp only [Function.update_self]
  have hzero : t.reg .rdi + 0#64 = s.reg .rdi := (BitVec.add_zero _).trans (hreg .rdi (by decide))
  have hstore : (Op.store .rsp 0#64 .rdi).exec t = some (t.store (s.reg .rdi) (savedSp s)) := by
    rw [Op.exec, hzero, if_pos hrdi, hsp]
  have hmem : (t.store (s.reg .rdi) (savedSp s)).mem = switchMem s := by
    rw [← ht]
    rfl
  have hpop := run_pops hrsi (l := switchRegs.reverse) (o := 0)
    (s := (t.store (s.reg .rdi) (savedSp s)).set .rsp (s.reg .rsi)) (by decide) (by decide) rfl
    ((State.set_self ..).trans (quad_zero _).symm)
  rw [State.set_mem, hmem] at hpop
  have hrun : runOps switchOps s = some { s with
      mem := switchMem s
      reg := Function.update (loaded (switchMem s) (s.reg .rsi) switchArea s.reg) .rsp
        (quad (s.reg .rsi) 48) } := by
    have hmov : runOps [.store .rsp 0#64 .rdi, .mov .rsi .rsp] t =
        some ((t.store (s.reg .rdi) (savedSp s)).set .rsp (s.reg .rsi)) := by
      have hrsi' : (t.store (s.reg .rdi) (savedSp s)).reg .rsi = s.reg .rsi := hreg .rsi (by decide)
      rw [runOps, hstore, Option.bind_some, runOps, Op.exec, hrsi', Option.bind_some]
      rfl
    rw [switchOps, runOps_append, hpush, Option.bind_some, runOps_append, hmov, Option.bind_some, hpop]
    refine congrArg some (State.ext (funext fun r => ?_) rfl ?_ ?_ ?_ ?_)
    · show Function.update _ _ _ r = Function.update _ _ _ r
      by_cases hr : r = .rsp
      · rw [hr, Function.update_self, Function.update_self]
        rfl
      · rw [Function.update_of_ne hr, Function.update_of_ne hr, switchArea, loaded, loaded]
        cases (stackArea 0 switchRegs.reverse).lookup r with
        | none => exact (State.set_of_ne hr).trans (hreg r hr)
        | some o => rfl
    all_goals
      rw [← ht]
      rfl
  obtain ⟨e, hcode⟩ := h.switchThreads
  rw [← hrip] at hcode
  obtain ⟨c, hops, next, hret, -⟩ := Image.Holds.append.1 hcode
  refine (hops.reaches_ops hrun).tail ((step_ret hret ?_).trans (congrArg some ?_))
  · simp only [Function.update_self]
    exact aligned_quad hrsi rfl
  · simp only [State.set, Function.update_self, Function.update_idem, switchTo]
    rw [quad_add (s.reg .rsi) 48 8]
    rfl

/-! ### What a thread goes on with -/

/-- Where a thread goes on, with the stack pointer and the registers that a function keeps, and the
words of its stack that hold these. -/
structure Context where
  reg : Reg → Word
  rsp : Word
  rip : Word
  held : Set Word
  mem : Word → Word

/-- What `switch_threads`, called in the state `s`, has to return to. It holds the words it pushes and
the return address. -/
def contextOf (s : State) : Context where
  reg := s.reg
  rsp := s.reg .rsp + 8#64
  rip := s.mem (s.reg .rsp)
  held := {a | ∃ i < 7, a = quad (savedSp s) (8 * i)}
  mem := switchMem s

/-- The thread goes on with its context. -/
structure Context.Resumed (c : Context) (s : State) : Prop where
  rip : s.rip = c.rip
  rsp : s.reg .rsp = c.rsp
  reg : ∀ r ∈ calleeSaved, s.reg r = c.reg r

theorem contextOf_resumed {s s' : State} : (contextOf s).Resumed s' ↔ Returned s s' :=
  ⟨fun h => ⟨h.rip, h.rsp, h.reg⟩, fun h => ⟨h.rip, h.rsp, h.kept⟩⟩

/-- The stack of a thread, and where its stack pointer is kept. -/
structure Stack where
  addrs : Set Word
  /-- `&thread->stack_pointer` -/
  pointer : Word
  aligned : Aligned pointer
  pointer_not_mem : pointer ∉ addrs

/-- Two threads have nothing in common. -/
structure Stack.Apart (S T : Stack) : Prop where
  addrs : ∀ a ∈ S.addrs, a ∉ T.addrs
  pointer : S.pointer ≠ T.pointer
  left : S.pointer ∉ T.addrs
  right : T.pointer ∉ S.addrs

theorem Stack.Apart.symm {S T : Stack} (h : S.Apart T) : T.Apart S :=
  ⟨fun a ha hc => h.addrs a hc ha, h.pointer.symm, h.right, h.left⟩

/-- The stack of a thread holds its context. -/
structure Parked (S : Stack) (s : State) (c : Context) : Prop where
  aligned : Aligned (s.mem S.pointer)
  saved : Saved s.mem (s.mem S.pointer) switchArea c.reg
  rip : s.mem (quad (s.mem S.pointer) 48) = c.rip
  rsp : quad (s.mem S.pointer) 56 = c.rsp
  mem_held : ∀ i < 7, quad (s.mem S.pointer) (8 * i) ∈ c.held
  held : ∀ a ∈ c.held, a ∈ S.addrs ∧ s.mem a = c.mem a

theorem switchArea_eq {p : Reg × ℕ} (hp : p ∈ switchArea) : ∃ i < 6, p.2 = 8 * i := by
  have hall : ∀ p ∈ switchArea, p.2 % 8 = 0 ∧ p.2 < 48 := by decide
  obtain ⟨hdiv, hlt⟩ := hall p hp
  exact ⟨p.2 / 8, by omega, by omega⟩

variable {S T : Stack} {c : Context}

/-- A context depends on nothing but the words that hold it and the stack pointer of its thread. -/
theorem Parked.congr {s s' : State} (h : Parked S s c) (hpointer : s'.mem S.pointer = s.mem S.pointer)
    (hheld : ∀ a ∈ c.held, s'.mem a = s.mem a) : Parked S s' c := by
  refine ⟨hpointer ▸ h.aligned, fun p hp => ?_, ?_, hpointer ▸ h.rsp, hpointer ▸ h.mem_held,
    fun a ha => ⟨(h.held a ha).1, (hheld a ha).trans (h.held a ha).2⟩⟩
  · obtain ⟨i, hi, ho⟩ := switchArea_eq hp
    rw [hpointer, ho, hheld _ (h.mem_held i (by omega)), ← ho]
    exact h.saved p hp
  · rw [hpointer, show (48 : ℕ) = 8 * 6 from rfl, hheld _ (h.mem_held 6 (by omega))]
    exact h.rip

/-- A call of `switch_threads` on the stack `S`, to go on with the stack `T`. -/
structure SwitchCall (sym : Symbols) (S T : Stack) (s : State) : Prop where
  rip : s.rip = sym.switchThreads
  rdi : s.reg .rdi = S.pointer
  rsi : s.reg .rsi = s.mem T.pointer
  aligned : Aligned (s.reg .rsp)
  /-- the stack has room -/
  room : ∀ i < 7, quad (savedSp s) (8 * i) ∈ S.addrs

/-! ### One switch -/

theorem switchMem_outside {a : Word} (hrdi : a ≠ s.reg .rdi)
    (hout : ∀ i < 6, a ≠ quad (savedSp s) (8 * i)) : switchMem s a = s.mem a := by
  rw [switchMem, Function.update_of_ne hrdi]
  have hstore : storeWords s.mem (quad (savedSp s) 0) (switchRegs.reverse.map s.reg) a = s.mem a :=
    storeWords_outside fun i hi => by rw [Nat.zero_add]; exact hout i hi
  rwa [quad_zero] at hstore

/-- The thread that switches leaves its context behind. -/
theorem SwitchCall.parked (h : SwitchCall sym S T s) : Parked S (switchTo s) (contextOf s) := by
  have hpointer : (switchTo s).mem S.pointer = savedSp s := by
    show switchMem s S.pointer = savedSp s
    rw [switchMem, ← h.rdi, Function.update_self]
  have hrdi : ∀ i < 7, quad (savedSp s) (8 * i) ≠ s.reg .rdi := by
    intro i hi hc
    exact S.pointer_not_mem (h.rdi ▸ hc ▸ h.room i hi)
  refine ⟨hpointer ▸ aligned_savedSp h.aligned, fun p hp => ?_, ?_, ?_,
    hpointer ▸ fun i hi => ⟨i, hi, rfl⟩, ?_⟩
  · obtain ⟨i, hi, ho⟩ := switchArea_eq hp
    have hsaved := saved_storeWords s.mem (savedSp s) s.reg switchRegs.reverse 0 (by decide)
    rw [quad_zero] at hsaved
    rw [hpointer]
    exact (Function.update_of_ne (ho ▸ hrdi i (by omega)) ..).trans (hsaved p hp)
  · rw [hpointer]
    refine (switchMem_outside (hrdi 6 (by omega)) fun i hi hc => ?_).trans ?_
    · have := quad_inj (by omega) (by omega) hc
      omega
    · rw [← savedSp_quad]
      rfl
  · rw [hpointer]
    show quad (savedSp s) (48 + 8) = s.reg .rsp + 8#64
    rw [quad_add, ← savedSp_quad]
    rfl
  · rintro a ⟨i, hi, rfl⟩
    exact ⟨h.room i hi, rfl⟩

/-- A switch writes on the stack of the thread that switches, and its stack pointer. -/
theorem SwitchCall.outside (h : SwitchCall sym S T s) {a : Word} (hpointer : a ≠ S.pointer)
    (ha : a ∉ S.addrs) : (switchTo s).mem a = s.mem a :=
  switchMem_outside (h.rdi ▸ hpointer) fun i hi hc => ha (hc ▸ h.room i (by omega))

/-- The other threads' contexts are left alone. -/
theorem SwitchCall.keeps {U : Stack} (h : SwitchCall sym S T s) (hapart : U.Apart S)
    (hp : Parked U s c) : Parked U (switchTo s) c := by
  refine hp.congr (h.outside hapart.pointer hapart.left) fun a ha => h.outside ?_ ?_
  · rintro rfl
    exact hapart.right (hp.held _ ha).1
  · exact hapart.addrs a (hp.held a ha).1

/-- The thread switched to goes on with its context. -/
theorem SwitchCall.resumed (h : SwitchCall sym S T s) (hapart : T.Apart S) (hp : Parked T s c) :
    c.Resumed (switchTo s) := by
  have hkeep := h.keeps hapart hp
  have hpointer : (switchTo s).mem T.pointer = s.reg .rsi := by
    rw [h.rsi]
    exact h.outside hapart.pointer hapart.left
  have hrip := hkeep.rip
  have hrsp := hkeep.rsp
  have hsaved := hkeep.saved
  rw [hpointer] at hrip hrsp hsaved
  refine ⟨hrip, ?_, fun r hr => ?_⟩
  · rw [← hrsp, switchTo]
    simp only [Function.update_self]
  · have harea : ∀ r ∈ calleeSaved, r ≠ .rsp ∧ r ∈ switchArea.map Prod.fst := by decide
    obtain ⟨hne, hmem⟩ := harea r hr
    exact (Function.update_of_ne hne ..).trans (hsaved.loaded hmem)

/-! ### Runs -/

variable {Tid : Type}

/-- The threads of a kernel: what those that are parked go on with, the running one, the stacks of
these threads, and the state. -/
@[ext]
structure Kernel (Tid : Type) where
  parked : Tid → Option Context
  running : Tid
  stack : Tid → Stack
  state : State

/-- A thread that was made and has not been freed. -/
def Kernel.Live (k : Kernel Tid) (t : Tid) : Prop := t = k.running ∨ k.parked t ≠ none

/-- The stacks hold what the parked threads go on with. -/
structure Kernel.Sound (k : Kernel Tid) : Prop where
  running : k.parked k.running = none
  apart : ∀ t u, k.Live t → k.Live u → t ≠ u → (k.stack t).Apart (k.stack u)
  parked : ∀ u c, k.parked u = some c → Parked (k.stack u) k.state c

/-- The words that hold the contexts of the parked threads are left alone, and their stack pointers. -/
def KeepsParked (k : Kernel Tid) (s' : State) : Prop :=
  ∀ u c, k.parked u = some c → s'.mem (k.stack u).pointer = k.state.mem (k.stack u).pointer ∧
    ∀ a ∈ c.held, s'.mem a = k.state.mem a

/-- The running thread calls `switch_threads` to go on with `u`. -/
def Kernel.Switching (sym : Symbols) (k : Kernel Tid) (u : Tid) : Prop :=
  SwitchCall sym (k.stack k.running) (k.stack u) k.state

section

variable [DecidableEq Tid]

/-- The kernel after the running thread has switched to `u`. -/
def Kernel.switched (k : Kernel Tid) (u : Tid) : Kernel Tid where
  parked := Function.update (Function.update k.parked k.running (some (contextOf k.state))) u none
  running := u
  stack := k.stack
  state := switchTo k.state

/-- What the running thread does. -/
inductive Kernel.Step (sym : Symbols) : Kernel Tid → Kernel Tid → Prop
  /-- anything but write the words that hold the context of a parked thread -/
  | compute {k : Kernel Tid} {s' : State} : KeepsParked k s' → Step sym k { k with state := s' }
  /-- make a thread, on a stack that is not in use, with any context -/
  | create {k : Kernel Tid} {u : Tid} {S : Stack} {s' : State} {c : Context} : ¬k.Live u →
    (∀ t, k.Live t → S.Apart (k.stack t)) → Parked S s' c → KeepsParked k s' →
    Step sym k
      { k with parked := Function.update k.parked u (some c), stack := Function.update k.stack u S, state := s' }
  /-- `release_thread`, of a thread that is parked -/
  | free {k : Kernel Tid} {u : Tid} : k.parked u ≠ none →
    Step sym k { k with parked := Function.update k.parked u none }
  /-- switch to a parked thread -/
  | switch {k : Kernel Tid} {u : Tid} : k.Switching sym u → k.parked u ≠ none →
    Step sym k (k.switched u)

/-- The threads after any number of steps from the start of the kernel, with one thread. -/
def Kernel.Run (sym : Symbols) (k : Kernel Tid) : Prop :=
  ∃ t stack s, Relation.ReflTransGen (Kernel.Step sym) ⟨fun _ => none, t, stack, s⟩ k

end

variable {k k' : Kernel Tid} {t u : Tid}

theorem Kernel.Sound.ne (hk : k.Sound) (hu : k.parked u ≠ none) : u ≠ k.running := by
  rintro rfl
  exact hu hk.running

/-- A switch goes from one stack to another. -/
theorem Kernel.Sound.apart_running (hk : k.Sound) (hu : k.parked u ≠ none) :
    (k.stack u).Apart (k.stack k.running) :=
  hk.apart u k.running (.inr hu) (.inl rfl) (hk.ne hu)

variable [DecidableEq Tid]

/-- One step. -/
theorem Kernel.Step.sound (h : Kernel.Step sym k k') (hk : k.Sound) : k'.Sound := by
  cases h with
  | compute hkeep =>
    exact ⟨hk.running, hk.apart, fun u c hc =>
      (hk.parked u c hc).congr (hkeep u c hc).1 (hkeep u c hc).2⟩
  | @create u S s' c hnew hapart hparked hkeep =>
    have hrun : k.running ≠ u := fun hc => hnew (.inl hc.symm)
    have hlive : ∀ t, t ≠ u →
        t = k.running ∨ Function.update k.parked u (some c) t ≠ none → k.Live t := by
      rintro t ht (hl | hl)
      · exact .inl hl
      · exact .inr fun hc => hl ((Function.update_of_ne ht ..).trans hc)
    refine ⟨(Function.update_of_ne hrun ..).trans hk.running, fun t v ht hv hne => ?_, fun v c' hc => ?_⟩
    · by_cases htu : t = u
      · subst htu
        simp only [Function.update_self, Function.update_of_ne hne.symm]
        exact hapart v (hlive v hne.symm hv)
      · by_cases hvu : v = u
        · subst hvu
          simp only [Function.update_self, Function.update_of_ne hne]
          exact (hapart t (hlive t htu ht)).symm
        · simp only [Function.update_of_ne htu, Function.update_of_ne hvu]
          exact hk.apart t v (hlive t htu ht) (hlive v hvu hv) hne
    · by_cases hv : v = u
      · subst hv
        simp only [Function.update_self, Option.some.injEq] at hc
        subst hc
        simpa only [Function.update_self] using hparked
      · simp only [Function.update_of_ne hv] at hc ⊢
        exact (hk.parked v c' hc).congr (hkeep v c' hc).1 (hkeep v c' hc).2
  | @free u _ =>
    have hsub : ∀ v c, Function.update k.parked u none v = some c → k.parked v = some c := by
      intro v c hc
      by_cases hv : v = u
      · rw [hv, Function.update_self] at hc
        cases hc
      · rwa [Function.update_of_ne hv] at hc
    have hlive : ∀ t, Kernel.Live { k with parked := Function.update k.parked u none } t → k.Live t := by
      rintro t (ht | ht)
      · exact .inl ht
      · obtain ⟨c, hc⟩ := Option.ne_none_iff_exists'.1 ht
        exact .inr (by rw [hsub t c hc]; exact nofun)
    refine ⟨Option.eq_none_iff_forall_not_mem.2 fun c hc => ?_,
      fun t v ht hv => hk.apart t v (hlive t ht) (hlive v hv), fun v c hc => hk.parked v c (hsub v c hc)⟩
    have := hsub _ c hc
    rw [hk.running] at this
    cases this
  | @switch u hcall hu =>
    have hlive : ∀ t, (k.switched u).Live t → k.Live t := by
      rintro t (ht | ht)
      · exact .inr (ht ▸ hu)
      · by_cases htr : t = k.running
        · exact .inl htr
        · refine .inr fun hc => ht ?_
          by_cases htu : t = u
          · rw [htu]
            exact Function.update_self ..
          · exact (Function.update_of_ne htu ..).trans ((Function.update_of_ne htr ..).trans hc)
    refine ⟨Function.update_self .., fun t v ht hv => hk.apart t v (hlive t ht) (hlive v hv), fun v c hc => ?_⟩
    change Function.update (Function.update k.parked k.running _) u none v = some c at hc
    by_cases hv : v = u
    · rw [hv, Function.update_self] at hc
      cases hc
    · rw [Function.update_of_ne hv] at hc
      by_cases hvt : v = k.running
      · rw [hvt, Function.update_self, Option.some.injEq] at hc
        rw [hvt]
        exact hc ▸ hcall.parked
      · rw [Function.update_of_ne hvt] at hc
        exact hcall.keeps (hk.apart_running (by rw [hc]; exact nofun)) (hk.parked v c hc)

theorem Kernel.Sound.run (hk : k.Sound) (h : Relation.ReflTransGen (Kernel.Step sym) k k') :
    k'.Sound := by
  induction h with
  | refl => exact hk
  | tail _ hstep ih => exact hstep.sound ih

/-- **The stacks hold the contexts**, in every run. -/
theorem Kernel.Run.sound (h : k.Run sym) : k.Sound := by
  obtain ⟨t, stack, s, hrun⟩ := h
  have hone : ∀ u, Kernel.Live ⟨fun _ => none, t, stack, s⟩ u → u = t := fun u hu =>
    hu.resolve_right fun hc => hc rfl
  exact Kernel.Sound.run ⟨rfl, fun u v hu hv hne => absurd ((hone u hu).trans (hone v hv).symm) hne,
    fun u c hc => nomatch hc⟩ hrun

theorem Kernel.Run.steps (h : k.Run sym) (hlater : Relation.ReflTransGen (Kernel.Step sym) k k') :
    k'.Run sym := by
  obtain ⟨t, stack, s, hrun⟩ := h
  exact ⟨t, stack, s, hrun.trans hlater⟩

/-- A thread that is switched to goes on with its context, and the words that hold it. -/
theorem Kernel.Run.resumes (h : Linked sym im) (hrun : k.Run sym) (hcall : k.Switching sym u)
    (hparked : k.parked u = some c) :
    Reaches im k.state (switchTo k.state) ∧ c.Resumed (switchTo k.state) ∧
      ∀ a ∈ c.held, (switchTo k.state).mem a = c.mem a := by
  have hu := hrun.sound.parked u c hparked
  have hapart := hrun.sound.apart_running (u := u) (by rw [hparked]; exact nofun)
  refine ⟨h.reaches_switch hcall.rip hcall.aligned ?_ ?_, hcall.resumed hapart hu,
    fun a ha => ((hcall.keeps hapart hu).held a ha).2⟩
  · rw [hcall.rdi]
    exact (k.stack k.running).aligned
  · rw [hcall.rsi]
    exact hu.aligned

/-- A step after which the thread `t` does not run and has not been freed, and which leaves the words
`K` alone. -/
structure StepWithout (sym : Symbols) (t : Tid) (K : Set Word) (k k' : Kernel Tid) : Prop where
  step : Kernel.Step sym k k'
  running : k'.running ≠ t
  parked : k'.parked t ≠ none
  keeps : ∀ a ∈ K, k'.state.mem a = k.state.mem a

/-- While a parked thread does not run, it goes on with the same. -/
theorem parked_without {K : Set Word} (hne : k.running ≠ t)
    (h : Relation.ReflTransGen (StepWithout sym t K) k k') (hc : k.parked t = some c) :
    k'.running ≠ t ∧ k'.parked t = some c ∧ k'.stack t = k.stack t ∧
      ∀ a ∈ K, k'.state.mem a = k.state.mem a := by
  induction h with
  | refl => exact ⟨hne, hc, rfl, fun _ _ => rfl⟩
  | tail _ hstep ih =>
    obtain ⟨hrun, ih, hstack, hmem⟩ := ih
    obtain ⟨hone, hnot, hparked, hkeeps⟩ := hstep
    refine ⟨hnot, ?_, ?_, fun a ha => (hkeeps a ha).trans (hmem a ha)⟩
    · cases hone with
      | compute _ => exact ih
      | @create u S s' c' hnew _ _ _ =>
        have htu : t ≠ u := by
          rintro rfl
          exact hnew (.inr (by rw [ih]; exact nofun))
        exact (Function.update_of_ne htu ..).trans ih
      | @free u _ =>
        have htu : t ≠ u := by
          rintro rfl
          exact hparked (Function.update_self ..)
        exact (Function.update_of_ne htu ..).trans ih
      | @switch u hcall _ =>
        exact (Function.update_of_ne hnot.symm ..).trans ((Function.update_of_ne hrun.symm ..).trans ih)
    · cases hone with
      | @create u S s' c' hnew _ _ _ =>
        have htu : t ≠ u := by
          rintro rfl
          exact hnew (.inr (by rw [ih]; exact nofun))
        exact (Function.update_of_ne htu ..).trans hstack
      | _ => exact hstack

/-- **`switch_threads` returns** to the thread that calls it. Let a thread `t` of any run call it, and
the others run in any way, until one of them switches to `t`. The code of the kernel then goes on
behind the call of `t`, with its stack pointer and the registers a function keeps as `t` left them.
It finds the words `K` of its stack that no other thread has written as it left them, too. -/
theorem switch_returns {K : Set Word} (h : Linked sym im) (hrun : k.Run sym)
    (ht : k.running = t) (hcall : k.Switching sym u) (hparked : k.parked u ≠ none)
    (hlater : Relation.ReflTransGen (StepWithout sym t K) (k.switched u) k')
    (hback : k'.Switching sym t) :
    Reaches im k.state (k.switched u).state ∧ Reaches im k'.state (switchTo k'.state) ∧
      Returned k.state (switchTo k'.state) ∧
      ∀ a ∈ K, a ∈ (k.stack t).addrs → (∀ i < 6, a ≠ quad (savedSp k.state) (8 * i)) →
        (switchTo k'.state).mem a = k.state.mem a := by
  subst ht
  obtain ⟨c, hc⟩ := Option.ne_none_iff_exists'.1 hparked
  have hne : u ≠ k.running := hrun.sound.ne hparked
  obtain ⟨-, hpark, hstack, hmem⟩ := parked_without (k := k.switched u) hne hlater
    ((Function.update_of_ne hne.symm ..).trans (Function.update_self ..))
  have hrun' : k'.Run sym :=
    (hrun.steps (.single (.switch hcall hparked))).steps (hlater.lift id fun _ _ hs => hs.step)
  obtain ⟨hreach, hresumed, -⟩ := hrun'.resumes h hback hpark
  refine ⟨(hrun.resumes h hcall hc).1, hreach, contextOf_resumed.1 hresumed, fun a ha hmem_stack hout => ?_⟩
  have hapart := hrun'.sound.apart_running (u := k.running) (by rw [hpark]; exact nofun)
  have hmem_stack' : a ∈ (k'.stack k.running).addrs := hstack ▸ hmem_stack
  have hback_keeps : (switchTo k'.state).mem a = k'.state.mem a := by
    refine hback.outside ?_ (hapart.addrs a hmem_stack')
    rintro rfl
    exact hapart.right hmem_stack'
  refine hback_keeps.trans ((hmem a ha).trans (switchMem_outside ?_ hout))
  rw [hcall.rdi]
  rintro rfl
  exact (k.stack k.running).pointer_not_mem hmem_stack

/-! ### Two threads -/

/-- Two threads with a page of stack each. -/
def twoStacks (t : Bool) : Stack where
  addrs := {a | (if t then 0x8000 else 0xa000) ≤ a.toNat ∧ a.toNat < if t then 0x9000 else 0xb000}
  pointer := if t then 0x2000#64 else 0x2008#64
  aligned := by cases t <;> decide
  pointer_not_mem := by cases t <;> simp

theorem twoStacks_apart {t u : Bool} (h : t ≠ u) : (twoStacks t).Apart (twoStacks u) where
  addrs a ha hb := by
    cases t <;> cases u <;> simp [twoStacks] at ha hb h <;> omega
  pointer := by cases t <;> cases u <;> simp [twoStacks] at h ⊢
  left := by cases t <;> cases u <;> simp [twoStacks]
  right := by cases t <;> cases u <;> simp [twoStacks]

/-- One of them, about to switch to the other. -/
def switching (mem : Word → Word) (t : Bool) : State where
  reg r := if r = .rsp then if t then 0x8f00#64 else 0xaf00#64
    else if r = .rdi then (twoStacks t).pointer
    else if r = .rsi then mem (twoStacks !t).pointer else 0#64
  mem := mem
  rip := textSymbols.switchThreads
  rflags := 2#64
  cs := 0x08#64
  ss := 0x10#64

theorem switching_call (mem : Word → Word) (t : Bool) :
    SwitchCall textSymbols (twoStacks t) (twoStacks !t) (switching mem t) where
  rip := rfl
  rdi := rfl
  rsi := rfl
  aligned := by
    have hsp : Aligned 0x8f00#64 ∧ Aligned 0xaf00#64 := by decide
    cases t with
    | true => exact hsp.1
    | false => exact hsp.2
  room := by
    have hall : ∀ i < 7, (0x8000 ≤ (quad (0x8f00#64 - 48#64) (8 * i)).toNat ∧
        (quad (0x8f00#64 - 48#64) (8 * i)).toNat < 0x9000) ∧
        0xa000 ≤ (quad (0xaf00#64 - 48#64) (8 * i)).toNat ∧
        (quad (0xaf00#64 - 48#64) (8 * i)).toNat < 0xb000 := by decide
    cases t with
    | true => exact fun i hi => (hall i hi).1
    | false => exact fun i hi => (hall i hi).2

/-- A kernel in which the first thread has made the second one, with the context `c`, and is about to
switch to it. -/
def madeThread (mem : Word → Word) (c : Context) : Kernel Bool where
  parked := Function.update (fun _ => none) false (some c)
  running := true
  stack := Function.update twoStacks false (twoStacks false)
  state := switching mem true

theorem madeThread_run {mem : Word → Word} {c : Context}
    (h : Parked (twoStacks false) (switching mem true) c) : (madeThread mem c).Run textSymbols :=
  ⟨true, twoStacks, switching mem true, .single (.create (by simp [Kernel.Live])
    (fun t ht => by
      obtain rfl : t = true := ht.resolve_right fun hc => hc rfl
      exact twoStacks_apart Bool.false_ne_true) h fun _ _ hc => nomatch hc)⟩

theorem madeThread_switching (mem : Word → Word) (c : Context) :
    (madeThread mem c).Switching textSymbols false := switching_call mem true

/-- The second thread is parked in a call of its own. -/
def twoThreads : Kernel Bool :=
  madeThread (switchMem (switching (fun _ => 0#64) false)) (contextOf (switching (fun _ => 0#64) false))

theorem twoThreads_run : twoThreads.Run textSymbols :=
  madeThread_run ((switching_call (fun _ => 0#64) false).parked.congr rfl fun _ _ => rfl)

/-- The second thread links something on the stack of the first one, which is parked, and switches
back. -/
theorem switch_returns_two : ∃ s' : State, s'.mem 0x8ff0#64 = 1#64 ∧
    Reaches (Image.ofList text) s' (switchTo s') ∧ Returned twoThreads.state (switchTo s') ∧
    (switchTo s').mem 0x8ff8#64 = twoThreads.state.mem 0x8ff8#64 := by
  have hheld : ∀ i < 7, quad (0x8f00#64 - 48#64) (8 * i) ≠ 0x8ff0#64 := by decide
  have hone : Function.update (switchMem twoThreads.state) 0x8ff0#64 1#64 0x8ff0#64 = 1#64 :=
    Function.update_self ..
  have hlinked : ∀ a ≠ 0x8ff0#64, Function.update (switchMem twoThreads.state) 0x8ff0#64 1#64 a =
      switchMem twoThreads.state a := fun a ha => Function.update_of_ne ha ..
  have hkeep : KeepsParked (twoThreads.switched false)
      (switching (Function.update (switchMem twoThreads.state) 0x8ff0#64 1#64) false) := by
    rintro (_ | _) c hc
    · cases hc
    · obtain rfl : contextOf twoThreads.state = c := Option.some.inj hc
      refine ⟨hlinked 0x2000#64 (by decide), ?_⟩
      rintro a ⟨i, hi, rfl⟩
      exact hlinked _ (hheld i hi)
  have hstep : StepWithout textSymbols true {0x8ff8#64} (twoThreads.switched false)
      { twoThreads.switched false with
        state := switching (Function.update (switchMem twoThreads.state) 0x8ff0#64 1#64) false } := by
    refine ⟨.compute hkeep, Bool.false_ne_true, nofun, fun a ha => ?_⟩
    rw [Set.mem_singleton_iff.1 ha]
    exact hlinked 0x8ff8#64 (by decide)
  have hout : ∀ i < 6, 0x8ff8#64 ≠ quad (0x8f00#64 - 48#64) (8 * i) := by decide
  obtain ⟨-, hreach, hreturned, hkept⟩ := switch_returns text_linked twoThreads_run rfl
    (madeThread_switching _ _) nofun (.single hstep) (switching_call _ false)
  exact ⟨_, hone, hreach, hreturned, hkept _ rfl ⟨by decide, by decide⟩ hout⟩

end Entry

end Kernel64
