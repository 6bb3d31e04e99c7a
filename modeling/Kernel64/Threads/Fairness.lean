import Kernel64.Threads.Runs

/-!
# Round robin is fair

`schedule` takes the first thread of the run queue, and everything else that touches the run queue adds a
thread at its end. Hence a ready thread moves up by one place with every call of `schedule`, whatever
allowed calls (`Act.Allowed`) the threads make in between, and runs when its turn comes: with exactly as
many calls before its own as there were threads in front of it (`ready_thread_turn`). The timer may call
`schedule` at any time, so that no thread can keep another from running.
-/

namespace Kernel64

namespace Threads

variable {mutexOf : ℕ → ℕ} {k k' k₀ : Kernel} {t : Tid}

/-! ### The run queue grows -/

/-- The run queue of `k` is that of `k₀` with threads added at its end, and the same thread runs. -/
structure Grown (k₀ k : Kernel) : Prop where
  active : k₀.active <+: k.active
  current : k.current = k₀.current

theorem Grown.refl (k : Kernel) : Grown k k := ⟨List.prefix_refl _, rfl⟩

theorem Grown.congr (h : Grown k₀ k) (hactive : k'.active = k.active) (hcur : k'.current = k.current) :
    Grown k₀ k' := ⟨hactive ▸ h.active, hcur.trans h.current⟩

/-- Code that leaves the run queue alone but for what it adds at the end. -/
abbrev Grows {α : Type} (k₀ : Kernel) (m : KernelM α) : Prop :=
  Keeps (Grown k₀) (fun _ => True) m fun _ => True

theorem grows_set {α : Type} {f : PUnit → KernelM α} (h : Grown k₀ k) (hf : Grows k₀ (f ⟨⟩)) :
    Grows k₀ (set k >>= f) := (keeps_set h).bind fun _ _ => hf

theorem grows_pure {α : Type} {a : α} : Grows k₀ (pure a) := keeps_pure trivial

theorem grows_goto {p : Pc} : Grows k₀ (goto p) := keeps_modify fun _ h => h.congr rfl rfl

theorem grows_activateThread : Grows k₀ (activateThread t) := by
  rw [activateThread]
  refine keeps_ite (fun _ => keeps_throw trivial) fun _ => keeps_get.bind fun k _ => ?_
  refine keeps_ite (fun _ => ?_) fun _ => keeps_pure trivial
  refine (keeps_modify fun _ h => h.congr rfl rfl).bind fun _ _ => ?_
  refine keeps_get.bind fun k h => keeps_ite (fun _ => keeps_set ?_) fun _ => keeps_throw trivial
  exact ⟨h.active.trans (List.prefix_append ..), h.current⟩

theorem grows_waitQueueNotify {q : Queue} : Grows k₀ (waitQueueNotify mutexOf q) := by
  refine keeps_get.bind fun k h => ?_
  cases k.queue q with
  | nil => exact keeps_pure trivial
  | cons t l =>
    refine keeps_ite (fun _ => ?_) fun _ => keeps_throw trivial
    exact grows_set (h.congr rfl rfl) grows_activateThread

theorem grows_mutexUnlock {m : ℕ} : Grows k₀ (mutexUnlock mutexOf m) :=
  (keeps_modify fun _ h => h.congr rfl rfl).bind fun _ _ => grows_waitQueueNotify

theorem grows_mutexTryLock {m : ℕ} : Grows k₀ (mutexTryLock m) := by
  refine keeps_get.bind fun k h => keeps_ite (fun _ => ?_) fun _ => keeps_pure trivial
  exact grows_set (h.congr rfl rfl) grows_pure

theorem grows_waitEvent {w : Wait} {b : Bool} : Grows k₀ (waitEvent mutexOf w b) := by
  have htest : Grows k₀ (w.test mutexOf b) := by
    cases w with
    | event q => exact keeps_pure trivial
    | mutex m => exact grows_mutexTryLock
    | relock c => exact grows_mutexTryLock
  refine htest.bind fun r _ => keeps_ite (fun _ => grows_goto) fun _ => ?_
  exact keeps_modify fun _ h => h.congr rfl rfl

theorem grows_registerThread : Grows k₀ (registerThread t) := by
  refine keeps_get.bind fun k h => ?_
  cases nextFreePid (k.threads.map k.pid) (k.threads.length + 1) k.nextPid with
  | none => exact keeps_throw trivial
  | some p => exact grows_set (h.congr rfl rfl) grows_pure

theorem grows_lookupThread {pid : ℤ} : Grows k₀ (lookupThread pid) := by
  refine keeps_get.bind fun k h => ?_
  cases k.threads.find? fun t => k.pid t = pid with
  | none => exact keeps_pure trivial
  | some t => exact grows_set (h.congr rfl rfl) grows_pure

theorem grows_putThread : Grows k₀ (putThread t) :=
  keeps_get.bind fun _ h => keeps_set (h.congr rfl rfl)

/-! ### Scheduling -/

/-- `schedule` took the first thread of the run queue, and it runs. -/
inductive Popped (k₀ k : Kernel) : Prop
  | idle : k₀.active = [] → Popped k₀ k
  | next {t : Tid} {l : List Tid} : k₀.active = t :: l → l <+: k.active → k.current = t → Popped k₀ k

theorem prefix_requeued {l : List Tid} : l <+: k.requeued l := by
  rw [Kernel.requeued]
  split_ifs
  · exact List.prefix_append ..
  · exact List.prefix_refl l

/-- **Scheduling** takes the first thread. -/
theorem yields_schedule_popped : Yields schedule k fun _ k' => Popped k k' := by
  rw [schedule, rrNextThread]
  cases hlist : k.active with
  | nil => exact yields_true fun _ _ => .idle hlist
  | cons t l =>
    refine Yields.bind (Yields.bind (ensures_get.2 ?_).yields)
    rw [hlist]
    refine Yields.bind (ensures_set.2 ?_).yields
    refine yields_pure ?_
    refine Yields.bind (ensures_get.2 ?_).yields
    split_ifs with hsame hidle
    · exact yields_pure (.next hlist (List.prefix_refl l) (Option.some.inj hsame).symm)
    · exact absurd hidle.2 (by simp)
    · refine ensures_switchTo.yields.mono fun _ k' hk' => ?_
      rw [hk']
      exact .next hlist prefix_requeued rfl

/-- The places from which a call goes on by calling `schedule`. -/
def Pc.schedules : Pc → Bool
  | .sleep _ => true
  | .condSleep _ => true
  | .yielding _ => true
  | _ => false

/-- Whether a step calls `schedule`. -/
def Act.schedules (k : Kernel) : Act → Bool
  | .timer => true
  | .call .schedule => true
  | .call .exit => true
  | .call _ => false
  | .go _ => (k.pc k.current).schedules

/-- What a step does to the run queue. -/
structure Served (k : Kernel) (b : Bool) (k' : Kernel) : Prop where
  grown : b = false → Grown k k'
  popped : b = true → Popped k k'

theorem Grows.served {m : KernelM Unit} (h : Grows k m) : Yields m k fun _ k' => Served k false k' :=
  fun _ _ hrun => ⟨fun _ => ((h k (Grown.refl k)).of_run hrun).1, nofun⟩

theorem yields_leave_served {f : Kernel → Kernel} (hactive : (f k).active = k.active) :
    Yields (do modify f; schedule) k fun _ k' => Served k true k' := by
  refine Yields.bind (ensures_modify.2 ?_).yields
  refine yields_schedule_popped.mono fun _ k' h => ⟨nofun, fun _ => ?_⟩
  cases h with
  | idle h => exact .idle (hactive.symm.trans h)
  | next h hl hcur => exact .next (hactive.symm.trans h) hl hcur

theorem yields_start_served {c : Call} :
    Yields (start mutexOf c) k fun _ k' => Served k (Act.schedules k (.call c)) k' := by
  cases c with
  | mutexLock m => exact grows_goto.served
  | mutexUnlock m => exact grows_mutexUnlock.served
  | waitEvent q => exact grows_goto.served
  | conditionWait c =>
    refine Grows.served ((keeps_modify fun _ h => h.congr rfl rfl).bind fun _ _ => ?_)
    exact grows_mutexUnlock
  | waitQueueNotify q => exact grows_waitQueueNotify.served
  | conditionNotifyAll c =>
    refine Grows.served (keeps_get.bind fun k h => ?_)
    exact grows_set (h.congr rfl rfl) grows_goto
  | schedule => exact yields_schedule_popped.mono fun _ _ h => ⟨nofun, fun _ => h⟩
  | exit => exact yields_leave_served rfl
  | createThread t =>
    cases t with
    | none => exact Grows.served (keeps_pure trivial)
    | some t =>
      refine Grows.served (keeps_get.bind fun k h => keeps_ite (fun _ => ?_) fun _ => keeps_pure trivial)
      exact (keeps_modify fun _ h => h.congr rfl rfl).bind fun _ _ => grows_goto
  | wait pid | lookup pid =>
    refine Grows.served (grows_lookupThread.bind fun r _ => ?_)
    cases r with
    | none => exact keeps_pure trivial
    | some t => exact grows_goto

theorem yields_resume_served {p : Pc} {b : Bool} :
    Yields (resume mutexOf b p) k fun _ k' => Served k p.schedules k' := by
  cases p with
  | newborn => exact grows_goto.served
  | run => exact Grows.served (keeps_pure trivial)
  | enter w => exact grows_waitEvent.served
  | sleep w => exact yields_leave_served rfl
  | retry w => exact grows_waitEvent.served
  | condSleep c => exact yields_leave_served rfl
  | condWoken c => exact grows_goto.served
  | notify c l =>
    cases l with
    | nil => exact grows_goto.served
    | cons t l =>
      refine Grows.served (keeps_get.bind fun k _ => keeps_ite (fun _ => ?_) fun _ => keeps_throw trivial)
      exact grows_activateThread.bind fun _ _ => grows_goto
  | advance c t l =>
    exact Grows.served (keeps_get.bind fun k _ => keeps_ite (fun _ => grows_goto) fun _ => keeps_throw trivial)
  | register t =>
    refine Grows.served (keeps_ite (fun _ => ?_) fun _ => grows_goto)
    exact grows_registerThread.bind fun _ _ => grows_goto
  | lookup t pid =>
    refine Grows.served (grows_lookupThread.bind fun r _ => ?_)
    cases r with
    | none => exact keeps_throw trivial
    | some t => exact grows_goto
  | activate t => exact Grows.served (grows_activateThread.bind fun _ _ => grows_goto)
  | put t => exact Grows.served (grows_putThread.bind fun _ _ => grows_goto)
  | waiting t =>
    exact Grows.served (keeps_get.bind fun k _ => keeps_ite (fun _ => grows_goto) fun _ => grows_goto)
  | yielding t => exact yields_leave_served rfl
  | reap t =>
    refine Grows.served (keeps_get.bind fun k h => grows_set (h.congr rfl rfl) ?_)
    exact keeps_ite (fun _ => grows_goto) fun _ => grows_goto
  | erase t =>
    exact Grows.served ((keeps_modify fun _ h => h.congr rfl rfl).bind fun _ _ => grows_goto)
  | putReaped t => exact Grows.served (grows_putThread.bind fun _ _ => grows_goto)
  | exited => exact Grows.served (keeps_throw trivial)

/-- **One step** takes the first thread of the run queue when it schedules, and else only adds threads. -/
theorem yields_perform_served {a : Act} :
    Yields (perform mutexOf a) k fun _ k' => Served k (a.schedules k) k' := by
  cases a with
  | timer => exact yields_schedule_popped.mono fun _ _ h => ⟨nofun, fun _ => h⟩
  | call c => exact yields_start_served
  | go b => exact yields_go yields_resume_served

/-! ### Turns -/

theorem Grown.turn (h : Grown k k') (ht : t ∈ k.active) :
    t ∈ k'.active ∧ k'.active.idxOf t = k.active.idxOf t := by
  obtain ⟨l, hl⟩ := h.active
  rw [← hl]
  exact ⟨List.mem_append_left l ht, List.idxOf_append_of_mem ht⟩

theorem Popped.turn (h : Popped k k') (ht : t ∈ k.active) (hcur : k'.current ≠ t) :
    t ∈ k'.active ∧ k'.active.idxOf t + 1 = k.active.idxOf t := by
  cases h with
  | idle h =>
    rw [h] at ht
    exact absurd ht List.not_mem_nil
  | @next u l h hl hu =>
    have hne : u ≠ t := hu ▸ hcur
    rw [h] at ht ⊢
    have htl : t ∈ l := (List.mem_cons.1 ht).resolve_left hne.symm
    obtain ⟨l', hl'⟩ := hl
    rw [← hl', List.idxOf_cons_ne _ hne, List.idxOf_append_of_mem htl]
    exact ⟨List.mem_append_left l' htl, rfl⟩

/-- A run from `k` in which the thread `t` does not run, with the number of times that `schedule` is
called. -/
inductive Passed (mutexOf : ℕ → ℕ) (t : Tid) (k : Kernel) : ℕ → Kernel → Prop
  | start : Passed mutexOf t k 0 k
  | step {n : ℕ} {k₁ k₂ : Kernel} {a : Act} : Passed mutexOf t k n k₁ → a.Allowed mutexOf k₁ →
      perform mutexOf a k₁ = .ok ((), k₂) → k₂.current ≠ t →
      Passed mutexOf t k (if a.schedules k₁ then n + 1 else n) k₂

theorem Passed.kernelRun {n : ℕ} (h : Passed mutexOf t k n k') (hrun : KernelRun mutexOf k) :
    KernelRun mutexOf k' := by
  induction h with
  | start => exact hrun
  | step _ ha hstep _ ih => exact ih.step ha hstep

/-- **A waiting thread moves up** by one place with every call of `schedule`. -/
theorem Passed.turn {n : ℕ} (h : Passed mutexOf t k n k') (ht : t ∈ k.active) :
    t ∈ k'.active ∧ k'.active.idxOf t + n = k.active.idxOf t := by
  induction h with
  | start => exact ⟨ht, rfl⟩
  | @step n k₁ k₂ a _ _ hstep hcur ih =>
    obtain ⟨ht₁, hn⟩ := ih
    have hserved := yields_perform_served () k₂ hstep
    cases hs : a.schedules k₁ with
    | true =>
      obtain ⟨ht₂, hidx⟩ := (hserved.popped hs).turn ht₁ hcur
      rw [if_pos rfl]
      exact ⟨ht₂, by omega⟩
    | false =>
      obtain ⟨ht₂, hidx⟩ := (hserved.grown hs).turn ht₁
      rw [if_neg Bool.false_ne_true, hidx]
      exact ⟨ht₂, hn⟩

/-- **Fairness.** In every run from a reachable state, whatever the threads do as `Act.Allowed` has it
(`condition_notify_all` with its mutex locked until it returns, the bootstrap thread never blocking):
until a ready thread runs, `schedule` is called at most as often as there are threads in front of it. A
step makes it run exactly when the step calls `schedule` and that many calls have gone by. -/
theorem ready_thread_turn (hrun : KernelRun mutexOf k) (ht : t ∈ k.active) {n : ℕ}
    (h : Passed mutexOf t k n k') :
    n ≤ k.active.idxOf t ∧ ∀ a : Act, a.Allowed mutexOf k' → Ensures (perform mutexOf a) k' fun _ k'' =>
      (k''.current = t ↔ a.schedules k' = true ∧ n = k.active.idxOf t) := by
  obtain ⟨ht', hn⟩ := h.turn ht
  have hok := (h.kernelRun hrun).kernelOk
  refine ⟨by omega, fun a ha => ?_⟩
  refine ((hok.ensures_perform ha).and_yields yields_perform_served).mono fun _ k'' hk'' => ?_
  have hserved := hk''.2
  cases hs : a.schedules k' with
  | true =>
    cases hserved.popped hs with
    | idle hempty =>
      rw [hempty] at ht'
      exact absurd ht' List.not_mem_nil
    | @next u l hl _ hu =>
      rw [hl] at hn
      rw [hu]
      by_cases hut : u = t
      · rw [hut, List.idxOf_cons_self, Nat.zero_add] at hn
        exact iff_of_true hut ⟨rfl, hn⟩
      · rw [List.idxOf_cons_ne _ hut] at hn
        exact iff_of_false hut fun hc => by omega
  | false =>
    have hcur := (hserved.grown hs).current
    have hne := ((hok.sched.mem t).1 ht').2.2
    exact iff_of_false (fun hc => hne (hcur ▸ hc.symm)) fun hc => absurd hc.1 Bool.false_ne_true

/-- The new thread is the next one to run. -/
theorem ready_thread_turn_new :
    KernelRun (fun c => c) oneThread ∧ 1 ∈ oneThread.active ∧
      Ensures (perform (fun c => c) .timer) oneThread fun _ k' =>
        (k'.current = 1 ↔ Act.schedules oneThread .timer = true ∧ 0 = oneThread.active.idxOf 1) :=
  have hmem : 1 ∈ oneThread.active := by decide
  ⟨kernelRun_oneThread, hmem, (ready_thread_turn kernelRun_oneThread hmem .start).2 .timer trivial⟩

end Threads

end Kernel64
