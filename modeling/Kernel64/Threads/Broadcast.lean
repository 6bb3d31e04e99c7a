import Kernel64.Threads.Frame

/-!
# Waking every thread that waits

`wait_queue_notify_all` takes the whole queue of a condition and then walks the list that it took, with
interrupts enabled. The links that it follows are on the stacks of the threads that it has just woken.

`Broadcast` follows a run from the step that takes the queue. While the mutex of the condition is locked,
no thread gets out of its `condition_wait`, so that each link is followed in time, and each thread that was
queued is activated exactly once (`broadcast_exact`). Without the mutex, a thread that is woken may leave
before its link is read (`notifyAll_dangling`); `__wait_queue_notify`, which takes a wait head out of
its queue before it wakes the thread, does not have this defect.
-/

namespace Kernel64

namespace Threads

/-- The wait heads whose links are still to be followed. -/
def Pc.heads : Pc → List Tid
  | .notify _ l => l
  | .advance _ t l => t :: l
  | _ => []

/-- The threads that the next step of `wait_queue_notify_all` activates. -/
def Pc.wakes : Pc → List Tid
  | .notify _ (t :: _) => [t]
  | _ => []

variable (mutexOf : ℕ → ℕ)

/-- **A broadcast**: the thread `u` took the list `spliced` from the queue of the condition `c`, and did
`n` more steps of its call, which activated the threads `woken`. The other threads and the timer did
anything in between. -/
inductive Broadcast (u : Tid) (c : ℕ) (spliced : List Tid) : ℕ → List Tid → Kernel → Prop
  | splice {k k' : Kernel} : KernelRun mutexOf k → k.current = u → k.queue (.cond c) = spliced →
      (Act.call (.conditionNotifyAll c)).Allowed mutexOf k →
      perform mutexOf (.call (.conditionNotifyAll c)) k = .ok ((), k') → Broadcast u c spliced 0 [] k'
  | own {n : ℕ} {woken : List Tid} {k k' : Kernel} {b : Bool} : Broadcast u c spliced n woken k →
      (k.pc u).use = some (.notify c) → k.current = u → perform mutexOf (.go b) k = .ok ((), k') →
      Broadcast u c spliced (n + 1) (woken ++ (k.pc u).wakes) k'
  | other {n : ℕ} {woken : List Tid} {k k' : Kernel} {a : Act} : Broadcast u c spliced n woken k →
      (k.pc u).use = some (.notify c) → (k.current = u → a = .timer) → a.Allowed mutexOf k →
      perform mutexOf a k = .ok ((), k') → Broadcast u c spliced n woken k'

/-- **What a broadcast has done** after `n` of its steps. -/
structure Exact (u : Tid) (c : ℕ) (spliced : List Tid) (n : ℕ) (woken : List Tid) (k : Kernel) :
    Prop where
  nodup : spliced.Nodup
  initial : woken <+: spliced
  /-- the call ends with its step `2 * spliced.length + 1`, and all threads are activated then -/
  place : (k.pc u).use = some (.notify c) ∧ n < 2 * spliced.length + 1 ∨
    k.pc u = .run ∧ n = 2 * spliced.length + 1 ∧ woken = spliced
  /-- a thread stays in its `condition_wait` until its link was followed -/
  heads : ∀ t ∈ (k.pc u).heads, (k.pc t).inCond = some c
  steps : ∀ a : Act, a.Allowed mutexOf k → Ensures (perform mutexOf a) k fun _ _ => True
  wakes : k.current = u → ∀ b, Ensures (perform mutexOf (.go b)) k fun _ k' =>
    ∀ t ∈ (k.pc u).wakes, k.state t = .blocked ∧ k'.state t = .active

/-! ### The places of the call -/

/-- Where the call is after `n` steps. -/
inductive Progress (c : ℕ) (spliced : List Tid) : ℕ → List Tid → Pc → Prop
  | notify {woken l : List Tid} : spliced = woken ++ l →
      Progress c spliced (2 * woken.length) woken (.notify c l)
  | advance {woken l : List Tid} {t : Tid} : spliced = woken ++ t :: l →
      Progress c spliced (2 * woken.length + 1) (woken ++ [t]) (.advance c t l)
  | returned : Progress c spliced (2 * spliced.length + 1) spliced .run

section

variable {mutexOf} {k k' : Kernel} {u t : Tid} {c n : ℕ} {spliced woken : List Tid} {p p' : Pc}

/-- A step of the call: the thread at the head of the list is activated, or its link is followed. -/
theorem Progress.resumed {b : Bool} (h : Progress c spliced n woken p) (hp : p ≠ .run)
    (hpc : k.pc k.current = p) :
    Yields (resume mutexOf b p) k fun _ k' =>
      Progress c spliced (n + 1) (woken ++ p.wakes) (k'.pc k.current) := by
  cases h with
  | @notify woken l hl =>
    cases l with
    | nil =>
      rw [List.append_nil] at hl
      subst hl
      have hself : (k.goto .run).pc k.current = .run := Function.update_self _ _ _
      refine (ensures_modify.2 ?_).yields
      have hwakes : spliced ++ (Pc.notify c []).wakes = spliced := List.append_nil _
      rw [hself, hwakes]
      exact .returned
    | cons t l =>
      rw [resume]
      refine Yields.bind (ensures_get.2 ?_).yields
      split_ifs
      · refine Yields.bind (yields_activateThread_still.mono fun _ k₁ hr => ?_)
        obtain ⟨h₁, hcur⟩ := hr
        refine (ensures_modify.2 ?_).yields
        have hself : (k₁.goto (.advance c t l)).pc k.current = .advance c t l := by
          rw [← hcur]
          exact Function.update_self _ _ _
        rw [hself]
        exact .advance hl
      · exact yields_throw
  | @advance woken l t hl =>
    rw [resume]
    refine Yields.bind (ensures_get.2 ?_).yields
    split_ifs
    · refine (ensures_modify.2 ?_).yields
      have hself : (k.goto (.notify c l)).pc k.current = .notify c l := Function.update_self _ _ _
      have hlen : 2 * woken.length + 1 + 1 = 2 * (woken ++ [t]).length := by
        rw [List.length_append, List.length_singleton]
        omega
      have hwakes : (woken ++ [t]) ++ (Pc.advance c t l).wakes = woken ++ [t] := List.append_nil _
      rw [hself, hwakes, hlen]
      exact .notify (by rw [hl, List.append_assoc, List.singleton_append])
    · exact yields_throw
  | returned => exact absurd rfl hp

theorem Progress.place (h : Progress c spliced n woken p) :
    p.use = some (.notify c) ∧ n < 2 * spliced.length + 1 ∨
      p = .run ∧ n = 2 * spliced.length + 1 ∧ woken = spliced := by
  cases h with
  | notify hl =>
    refine Or.inl ⟨rfl, ?_⟩
    rw [hl, List.length_append]
    omega
  | advance hl =>
    refine Or.inl ⟨rfl, ?_⟩
    rw [hl, List.length_append, List.length_cons]
    omega
  | returned => exact Or.inr ⟨rfl, rfl, rfl⟩

theorem Progress.initial (h : Progress c spliced n woken p) : woken <+: spliced := by
  cases h with
  | notify hl => exact ⟨_, hl.symm⟩
  | @advance woken l t hl => exact ⟨l, by rw [hl, List.append_assoc, List.singleton_append]⟩
  | returned => exact List.prefix_rfl

/-! ### Steps -/

/-- A thread in a call keeps its place while another one runs, and when the timer interrupts it. -/
theorem KernelOk.pc_of_other {a : Act} (h : KernelOk mutexOf k) (ha : a.Allowed mutexOf k)
    (hu : (k.pc u).use ≠ none) (hother : k.current = u → a = .timer) :
    Yields (perform mutexOf a) k fun _ k' => k'.pc u = k.pc u := by
  have hused : k.used u = false → u = bootstrap := by
    intro hused
    by_contra hb
    rcases (h.unused hused hb).2 with hpc | hpc <;> rw [hpc] at hu <;> exact hu rfl
  have hframe : ∀ k', u ≠ k.current → Frame mutexOf k a k' → k'.pc u = k.pc u := by
    intro k' hne hf
    rcases hf.others u hne with ⟨hpc, -⟩ | ⟨hfree, hb, -⟩
    · exact hpc
    · exact absurd (hused hfree) hb
  cases a with
  | timer => exact yields_schedule_still.mono fun _ k' hs => by rw [hs.pc]
  | call c =>
    have hne : u ≠ k.current := fun hc => nomatch hother hc.symm
    exact (h.started ha.1).mono fun _ k' hs => hframe k' hne hs.frame
  | go b =>
    have hne : u ≠ k.current := fun hc => nomatch hother hc.symm
    exact yields_go ((moved_resume rfl ha).mono fun _ k' hs => hframe k' hne hs.1)

/-- **A broadcast makes progress** in each step of its own, and keeps its place in the others. -/
theorem Broadcast.sound (h : Broadcast mutexOf u c spliced n woken k) :
    KernelRun mutexOf k ∧ spliced.Nodup ∧ Progress c spliced n woken (k.pc u) := by
  induction h with
  | @splice k k' hrun hcur hqueue ha hstep =>
    have hok := hrun.kernelOk
    have hk' : k' = { k with queue := Function.update k.queue (.cond c) [] }.goto (.notify c spliced) := by
      rw [← hqueue]
      exact (congrArg Prod.snd (Except.ok.inj hstep)).symm
    refine ⟨hrun.step ha hstep, hqueue ▸ hok.waits.nodup _, ?_⟩
    have hself : k'.pc u = .notify c spliced := by
      rw [hk', ← hcur]
      exact Function.update_self _ _ _
    rw [hself]
    exact @Progress.notify c spliced [] spliced rfl
  | @own n woken k k' b _ huse hcur hstep ih =>
    obtain ⟨hrun, hnd, hprogress⟩ := ih
    have hp : k.pc u ≠ .run := fun hc => by
      rw [hc] at huse
      exact nomatch huse
    have ha : (Act.go b).Allowed mutexOf k := by
      rw [← hcur] at hp
      exact hp
    refine ⟨hrun.step ha hstep, hnd, ?_⟩
    have hgo : Yields (perform mutexOf (.go b)) k fun _ k' =>
        Progress c spliced (n + 1) (woken ++ (k.pc u).wakes) (k'.pc u) := by
      refine yields_go ?_
      rw [hcur]
      have hres := @Progress.resumed mutexOf k c n spliced woken (k.pc u) b hprogress hp (by rw [hcur])
      rw [hcur] at hres
      exact hres
    exact hgo _ _ hstep
  | other _ huse hother ha hstep ih =>
    obtain ⟨hrun, hnd, hprogress⟩ := ih
    refine ⟨hrun.step ha hstep, hnd, ?_⟩
    have hsame := (hrun.kernelOk.pc_of_other ha (by rw [huse]; nofun) hother) _ _ hstep
    rw [hsame]
    exact hprogress

/-- The owners of the wait heads to come are in `condition_wait`: they are still queued, or the mutex is
locked. -/
theorem KernelOk.heads_inCond (h : KernelOk mutexOf k) (hprogress : Progress c spliced n woken (k.pc u)) :
    ∀ t ∈ (k.pc u).heads, (k.pc t).inCond = some c := by
  have hpending : ∀ l, (k.pc u).notifying = some (c, l) → ∀ t ∈ l, (k.pc t).inCond = some c :=
    fun l hl t ht => inCond_of_waitsOn ((h.waits.pending u c l hl).2 t ht).2.1
  generalize hpc : k.pc u = p at hprogress
  cases hprogress with
  | notify hl => exact hpending _ (by rw [hpc]; rfl)
  | @advance woken l t hl =>
    intro t' ht'
    rcases List.mem_cons.1 ht' with rfl | ht'
    · exact h.waits.walked u c t' (by rw [hpc]; rfl)
    · exact hpending l (by rw [hpc]; rfl) t' ht'
  | returned => exact fun t ht => absurd ht List.not_mem_nil

/-- The thread that a step activates was blocked. -/
theorem KernelOk.ensures_wakes (h : KernelOk mutexOf k) (b : Bool)
    (hprogress : Progress c spliced n woken (k.pc k.current)) :
    Ensures (perform mutexOf (.go b)) k fun _ k' =>
      ∀ t ∈ (k.pc k.current).wakes, k.state t = .blocked ∧ k'.state t = .active := by
  refine ensures_go ?_
  generalize hpc : k.pc k.current = p at hprogress
  cases hprogress with
  | @notify woken l hl =>
    cases l with
    | nil => exact ensures_modify.2 fun t ht => absurd ht List.not_mem_nil
    | cons t l =>
      obtain ⟨hin, -⟩ := h.notify hpc
      obtain ⟨hst, -⟩ := (h.waits.pending _ c (t :: l) (by rw [hpc]; rfl)).2 t List.mem_cons_self
      simp only [resume, ensures_bind, ensures_get, hin, if_true]
      refine (ensures_activateThread (h.not_boot_of_blocked hst) hst).mono fun _ k₁ hk₁ => ?_
      refine ensures_modify.2 fun t' ht' => ?_
      rw [List.mem_singleton.1 ht', hk₁]
      exact ⟨hst, Function.update_self _ _ _⟩
  | @advance woken l t hl =>
    simp only [resume, ensures_bind, ensures_get, (h.advance hpc).1, if_true]
    exact ensures_modify.2 fun t' ht' => absurd ht' List.not_mem_nil
  | returned => exact ensures_pure.2 fun t ht => absurd ht List.not_mem_nil

/-- **Every broadcast is exact**, when the mutex of its condition is locked. -/
theorem broadcast_exact (h : Broadcast mutexOf u c spliced n woken k) :
    Exact mutexOf u c spliced n woken k := by
  obtain ⟨hrun, hnd, hprogress⟩ := h.sound
  have hok := hrun.kernelOk
  exact
    { nodup := hnd
      initial := hprogress.initial
      place := hprogress.place
      heads := hok.heads_inCond hprogress
      steps := fun a ha => (hok.ensures_perform ha).mono fun _ _ _ => trivial
      wakes := fun hcur b => by
        subst hcur
        exact hok.ensures_wakes b hprogress }

theorem KernelRun.perform_after (hrun : KernelRun mutexOf k) {a : Act} (ha : a.Allowed mutexOf k) :
    perform mutexOf a k = .ok ((), Threads.after mutexOf a k) := by
  obtain ⟨x, k', hstep, -⟩ := hrun.kernelOk.ensures_perform ha
  rw [Threads.after, hstep]

theorem Broadcast.own_after (h : Broadcast mutexOf u c spliced n woken k) (hcur : k.current = u)
    (huse : (k.pc u).use = some (.notify c)) (woken' : List Tid)
    (hwoken : woken ++ (k.pc u).wakes = woken') :
    Broadcast mutexOf u c spliced (n + 1) woken' (Threads.after mutexOf (.go true) k) := by
  rw [← hwoken]
  refine h.own (b := true) huse hcur (h.sound.1.perform_after fun hrun => ?_)
  rw [hcur] at hrun
  rw [hrun] at huse
  exact nomatch huse

end

/-- A thread waits for a condition, and `bootstrap` runs. -/
def oneParked : Kernel :=
  [.call (.conditionWait 0), .go true].foldl (fun k a => Threads.after (fun c => c) a k) oneOwner

theorem mutexRun_oneParked : MutexRun (fun c => c) oneParked := mutexRun_oneOwner.follow (by decide)

/-- Another thread locks the mutex of the condition. -/
def twoThreads : Kernel :=
  [.call (.createThread (some 2)), .go true, .go true, .go true, .timer, .go true,
    .call (.mutexLock 0), .go true].foldl (fun k a => Threads.after (fun c => c) a k) oneParked

theorem MutexRun.kernelRun {mutexOf : ℕ → ℕ} {k : Kernel} (hrun : MutexRun mutexOf k) :
    KernelRun mutexOf k := by
  induction hrun with
  | boot => exact .boot
  | step hrun' ha hstep ih => exact ih.step (hrun'.sound.2.allowed ha) hstep

theorem kernelRun_twoThreads : KernelRun (fun c => c) twoThreads :=
  (mutexRun_oneParked.follow (by decide)).kernelRun

/-- The kernel after the broadcast of the second thread. -/
def oneWoken : Kernel :=
  [.call (.conditionNotifyAll 0), .go true, .go true, .go true].foldl
    (fun k a => Threads.after (fun c => c) a k) twoThreads

theorem broadcast_oneWoken : Broadcast (fun c => c) 2 0 [1] 3 [1] oneWoken := by
  have hcall : twoThreads.pc twoThreads.current = .run ∧ twoThreads.locked 0 = true := by decide
  have h₁ : Broadcast (fun c => c) 2 0 [1] 0 [] _ :=
    .splice kernelRun_twoThreads (by decide) (by decide) hcall
      (kernelRun_twoThreads.perform_after hcall)
  have h₂ := h₁.own_after (by decide) (by decide) [1] (by decide)
  have h₃ := h₂.own_after (by decide) (by decide) [1] (by decide)
  exact h₃.own_after (by decide) (by decide) [1] (by decide)

/-- The thread that waited is activated once. -/
theorem broadcast_exact_oneWoken : Exact (fun c => c) 2 0 [1] 3 [1] oneWoken :=
  broadcast_exact broadcast_oneWoken

/-! ### Without the mutex -/

section

variable (mutexOf : ℕ → ℕ)

/-- When a step is allowed and every thread unlocks only what it locked; a condition may be notified
without its mutex. -/
def Act.Loose (k : Kernel) : Act → Prop
  | .call (.conditionNotifyAll _) => k.pc k.current = .run
  | a => a.Disciplined mutexOf k

/-- Runs in which a condition may be notified without its mutex. -/
inductive LooseRun : Kernel → Prop
  | boot : LooseRun bootKernel
  | step {k k' : Kernel} {a : Act} : LooseRun k → a.Loose mutexOf k →
      perform mutexOf a k = .ok ((), k') → LooseRun k'

end

section

variable {mutexOf : ℕ → ℕ} {k : Kernel}

theorem MutexRun.looseRun (hrun : MutexRun mutexOf k) : LooseRun mutexOf k := by
  induction hrun with
  | boot => exact .boot
  | @step k k' a _ ha hstep ih =>
    refine ih.step ?_ hstep
    cases a with
    | call c => cases c <;> first | exact ha.1 | exact ha
    | timer => exact ha
    | go b => exact ha

theorem LooseRun.after {a : Act} (hrun : LooseRun mutexOf k) (ha : a.Loose mutexOf k)
    (hok : (perform mutexOf a k).isOk = true) : LooseRun mutexOf (Threads.after mutexOf a k) := by
  cases hstep : perform mutexOf a k with
  | error e =>
    rw [hstep] at hok
    exact nomatch hok
  | ok r =>
    have hafter : Threads.after mutexOf a k = r.2 := by rw [Threads.after, hstep]
    rw [hafter]
    exact hrun.step ha hstep

/-- The link of a wait head that is gone is not read. -/
theorem faults_advance {c t : ℕ} {l : List Tid} {b : Bool} (hpc : k.pc k.current = .advance c t l)
    (hin : (k.pc t).inCond ≠ some c) : Faults (perform mutexOf (.go b)) k .dangling := by
  have hresume : resume mutexOf b (.advance c t l) k =
      (if (k.pc t).inCond = some c then goto (.notify c l) else throw .dangling : KernelM Unit) k := rfl
  rw [Faults, perform_go, hpc, hresume, if_neg hin]
  rfl

end

/-- `bootstrap` notifies the condition without the mutex, and the thread that it wakes returns from
`condition_wait`, unlocks the mutex and exits. -/
def leftEarly : Kernel :=
  [.call (.conditionNotifyAll 0), .go true, .timer, .go true, .go true, .call (.mutexUnlock 0),
    .call .exit].foldl (fun k a => Threads.after (fun c => c) a k) oneParked

theorem looseRun_leftEarly : LooseRun (fun c => c) leftEarly := by
  have hrun : ∀ {k : Kernel}, decide (k.pc k.current = .run) = true → k.pc k.current = .run := fun h =>
    of_decide_eq_true h
  have h₁ := mutexRun_oneParked.looseRun.after (a := .call (.conditionNotifyAll 0))
    (hrun (by decide)) (by decide)
  have h₂ := h₁.after (a := .go true) (allowed_go (by decide)) (by decide)
  have h₃ : LooseRun (fun c => c) _ := h₂.after (a := .timer) trivial (by decide)
  have h₄ := h₃.after (a := .go true) (allowed_go (by decide)) (by decide)
  have h₅ := h₄.after (a := .go true) (allowed_go (by decide)) (by decide)
  have h₆ := h₅.after (a := .call (.mutexUnlock 0)) ⟨hrun (by decide), by decide⟩
    (by decide)
  have hboot : ∀ {k : Kernel}, decide (k.current = bootstrap) = false → k.current ≠ bootstrap := fun h =>
    of_decide_eq_false h
  exact h₆.after (a := .call .exit) ⟨hrun (by decide), hboot (by decide)⟩
    (by decide)

/-- **Without the mutex** the walk goes on at a wait head whose owner has left its call. -/
theorem notifyAll_dangling : LooseRun (fun c => c) leftEarly ∧
    leftEarly.pc leftEarly.current = .advance 0 1 [] ∧ (leftEarly.pc 1).inCond = none ∧
    Faults (perform (fun c => c) (.go true)) leftEarly .dangling := by
  have hpc : leftEarly.pc leftEarly.current = .advance 0 1 [] := by decide
  have hin : (leftEarly.pc 1).inCond = none := by decide
  exact ⟨looseRun_leftEarly, hpc, hin, faults_advance hpc (by rw [hin]; nofun)⟩

end Threads

end Kernel64
