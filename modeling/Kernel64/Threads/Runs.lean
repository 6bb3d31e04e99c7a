import Kernel64.Threads.Steps

/-!
# Threads over whole runs

A run starts after `setup_threading`, with `bootstrap` running, and makes any steps that are allowed, in
any order.
-/

namespace Kernel64

namespace Threads

/-- The kernel after `setup_threading`. -/
def bootKernel : Kernel where
  state t := if t = bootstrap then .active else .none
  current := bootstrap
  active := []
  queue _ := []
  locked _ := false
  used _ := false
  refcount _ := 0
  pid _ := 0
  nextPid := 0
  threads := []
  pc t := if t = bootstrap then .run else .newborn
  held _ _ := false

/-- **Runs of the kernel.** -/
inductive KernelRun (mutexOf : ℕ → ℕ) : Kernel → Prop
  | boot : KernelRun mutexOf bootKernel
  | step {k k' : Kernel} {a : Act} : KernelRun mutexOf k → a.Allowed mutexOf k →
      perform mutexOf a k = .ok ((), k') → KernelRun mutexOf k'

variable {mutexOf : ℕ → ℕ} {k : Kernel}

theorem bootKernel_pc (t : Tid) : bootKernel.pc t = .run ∨ bootKernel.pc t = .newborn := by
  simp only [bootKernel]
  split_ifs
  · exact Or.inl rfl
  · exact Or.inr rfl

theorem kernelOk_bootKernel : KernelOk mutexOf bootKernel := by
  have hpc := bootKernel_pc
  have hnone : ∀ {β : Type} (f : Pc → Option β), f .run = none → f .newborn = none → ∀ u,
      f (bootKernel.pc u) = none := by
    intro β f h₁ h₂ u
    rcases hpc u with hu | hu <;> rw [hu]
    · exact h₁
    · exact h₂
  have hno : ∀ {β : Type} (f : Pc → Option β), f .run = none → f .newborn = none → ∀ u b,
      f (bootKernel.pc u) ≠ some b := by
    intro β f h₁ h₂ u b hc
    cases (hnone f h₁ h₂ u).symm.trans hc
  have hstate : ∀ t, t ≠ bootstrap → bootKernel.state t = .none := fun t ht => if_neg ht
  have hlive : ∀ t, ¬(bootKernel.state t = .dead ∨ bootKernel.state t = .reaped) := by
    intro t
    by_cases ht : t = bootstrap
    · rw [ht]
      exact fun hc => hc.elim (by rintro ⟨⟩) (by rintro ⟨⟩)
    · rw [hstate t ht]
      exact fun hc => hc.elim (by simp) (by simp)
  have hsparse : ∀ f : Pc → Option Tid, f .run = none → f .newborn = none →
      Sparse fun u => f (bootKernel.pc u) := by
    intro f h₁ h₂
    have hempty : {u | f (bootKernel.pc u) ≠ none} = ∅ :=
      Set.eq_empty_of_forall_notMem fun u hu => hu (hnone f h₁ h₂ u)
    rw [Sparse, hempty]
    exact Set.finite_empty
  have howners : ∀ t, owners bootKernel t = 0 := by
    intro t
    have h₁ := (refs_eq_zero_iff (b := t) (hsparse Pc.holds rfl rfl)).2 fun u => hno Pc.holds rfl rfl u t
    have h₂ := (refs_eq_zero_iff (b := t) (hsparse Pc.drops rfl rfl)).2 fun u => hno Pc.drops rfl rfl u t
    have h₃ : t ∉ bootKernel.threads := List.not_mem_nil
    rw [owners, h₁, h₂, if_neg h₃]
  refine ⟨⟨⟨List.nodup_nil, fun t => ?_, rfl⟩, ?_, ?_, ?_, rfl⟩, Or.inl rfl⟩
  · refine iff_of_false List.not_mem_nil fun hr => ?_
    obtain ⟨hb, hst, _⟩ := hr
    cases (hstate t hb).symm.trans hst
  · exact ⟨fun _ _ ht => absurd ht List.not_mem_nil, fun _ => List.nodup_nil,
      fun u c l hu => absurd hu (hno Pc.notifying rfl rfl u _),
      fun u c l hu => absurd hu (hno Pc.notifying rfl rfl u _),
      fun u _ c _ l _ hu => absurd hu (hno Pc.notifying rfl rfl u _),
      fun u c t hu => absurd hu (hno Pc.walking rfl rfl u _)⟩
  · refine ⟨fun u t hu => absurd hu (hno Pc.creates rfl rfl u t),
      fun u _ t hu => absurd hu (hno Pc.creates rfl rfl u t),
      fun u t hu => absurd hu (hno Pc.knows rfl rfl u t), fun t hb _ => ⟨?_, hb, Or.inl (if_neg hb)⟩,
      fun t ht => absurd (Or.inl ht) (hlive t), fun t => iff_of_false (fun hc => ?_) (hlive t),
      fun u t hu => absurd hu (hno Pc.reaps rfl rfl u t),
      fun u t hu => absurd hu (hno Pc.erases rfl rfl u t),
      fun u _ t hu => absurd hu (hno Pc.erases rfl rfl u t)⟩
    · rw [hstate t hb]
      simp
    · rcases hpc t with ht | ht <;> cases ht.symm.trans hc
  · refine ⟨List.nodup_nil, List.not_mem_nil, fun _ ht => absurd ht List.not_mem_nil, fun u t i hu => ?_,
      fun _ _ _ => List.not_mem_nil, hsparse Pc.holds rfl rfl, hsparse Pc.drops rfl rfl,
      fun t ht => (by cases ht), fun t _ => howners t⟩
    rcases hpc u with hu' | hu' <;> cases hu'.symm.trans hu

/-- **Every run keeps the kernel sound.** -/
theorem KernelRun.kernelOk (hrun : KernelRun mutexOf k) : KernelOk mutexOf k := by
  induction hrun with
  | boot => exact kernelOk_bootKernel
  | step _ ha hstep ih => exact ((ih.ensures_perform ha).of_run hstep).1

/-- **The run queue.** In every state that a run reaches, `rr_active_list` has no thread twice and has
exactly the active threads other than `bootstrap` and the running one. Every step that is allowed there
succeeds, and when it switches to another thread, this one is active: a thread that is blocked, finished,
dead or reaped is never switched to. -/
theorem kernelRun_active (hrun : KernelRun mutexOf k) :
    k.active.Nodup ∧
      (∀ t, t ∈ k.active ↔ t ≠ bootstrap ∧ k.state t = .active ∧ t ≠ k.current) ∧
      ∀ a : Act, a.Allowed mutexOf k → Ensures (perform mutexOf a) k fun _ k' =>
        KernelRun mutexOf k' ∧ (k'.current = k.current ∨ k'.state k'.current = .active) := by
  have h := hrun.kernelOk
  refine ⟨h.sched.nodup, h.sched.mem, fun a ha => ?_⟩
  obtain ⟨u, k', hstep, hok, heff⟩ := h.ensures_perform ha
  exact ⟨u, k', hstep, hrun.step ha hstep, heff.current⟩

/-- The kernel after a step. -/
def after (mutexOf : ℕ → ℕ) (a : Act) (k : Kernel) : Kernel :=
  match perform mutexOf a k with
  | .ok (_, k') => k'
  | .error _ => k

/-- The kernel once `create_kthread` has made a thread and activated it. -/
def oneThread : Kernel :=
  [.call (.createThread (some 1)), .go true, .go true, .go true].foldl
    (fun k a => after (fun c => c) a k) bootKernel

theorem KernelRun.after (hrun : KernelRun mutexOf k) {a : Act} (ha : a.Allowed mutexOf k) :
    KernelRun mutexOf (after mutexOf a k) := by
  obtain ⟨u, k', hstep, -⟩ := hrun.kernelOk.ensures_perform ha
  have hafter : Threads.after mutexOf a k = k' := by rw [Threads.after, hstep]
  rw [hafter]
  exact hrun.step ha hstep

/-- A thread that is in a call goes on with it. -/
theorem allowed_go (h : decide (k.pc k.current = .run) = false) : k.pc k.current ≠ .run :=
  of_decide_eq_false h

theorem kernelRun_oneThread : KernelRun (fun c => c) oneThread := by
  have h₁ : KernelRun (fun c => c) (Threads.after (fun c => c) (.call (.createThread (some 1))) bootKernel) :=
    KernelRun.boot.after ⟨rfl, trivial⟩
  have h₂ := h₁.after (a := .go true) (allowed_go (by decide))
  have h₃ := h₂.after (a := .go true) (allowed_go (by decide))
  exact h₃.after (a := .go true) (allowed_go (by decide))

/-- The new thread is the one that the timer switches to. -/
theorem kernelRun_active_oneThread :
    oneThread.active = [1] ∧ Ensures (perform (fun c => c) .timer) oneThread fun _ k' =>
      k'.current = oneThread.current ∨ k'.state k'.current = .active :=
  ⟨by decide, ((kernelRun_active kernelRun_oneThread).2.2 .timer trivial).mono
    fun _ _ hk' => hk'.2⟩

end Threads

end Kernel64
