import Kernel64.Threads.Runs

/-!
# What a step does to the lives of the threads

`LifeStep` lists the steps that begin or end the life of a thread: its allocation, `register_thread`,
the lookup of a `wait`, the two critical sections of `reap_thread`, and `put_thread`. No other step
changes which threads are registered, which are in use and which are reaped.
-/

namespace Kernel64

namespace Threads

/-- The thread that a thread waits for in the loop of `__wait_thread`. -/
def Pc.loops : Pc → Option Tid
  | .waiting t => some t
  | .yielding t => some t
  | _ => none

/-- The thread for which a call of `wait` is under way, from the lookup until the thread is reaped and
out of the tree. -/
def Pc.awaits : Pc → Option Tid
  | .waiting t => some t
  | .yielding t => some t
  | .reap t => some t
  | .erase t => some t
  | .putReaped t => some t
  | _ => none

/-- Nothing changed but the states of threads that are not reaped, the locks and the queues. -/
structure Tame (k k' : Kernel) : Prop where
  used : k'.used = k.used
  refcount : k'.refcount = k.refcount
  threads : k'.threads = k.threads
  pc : k'.pc = k.pc
  reaped : ∀ t, k'.state t = .reaped ↔ k.state t = .reaped

/-- A step that neither begins nor ends a life. -/
structure Calm (k k' : Kernel) : Prop where
  used : k'.used = k.used
  refcount : ∀ t, k.refcount t ≤ k'.refcount t
  threads : k'.threads = k.threads
  reaped : ∀ t, k'.state t = .reaped ↔ k.state t = .reaped
  erases : ∀ u, (k'.pc u).erases = (k.pc u).erases
  registers : ∀ u t, k'.pc u = .register t → k.pc u = .register t
  loops : ∀ u t, (k'.pc u).loops = some t → (k.pc u).loops = some t
  awaits : ∀ u t, (k'.pc u).awaits = some t → (k.pc u).awaits = some t

/-! ### Histories -/

/-- What has happened to each thread since it was allocated. -/
structure History where
  /-- the calls of `wait` for the thread whose `reap_thread` returned 1, so that they return 0 -/
  reapers : Tid → ℕ
  /-- how often it was erased from the tree of threads -/
  erased : Tid → ℕ
  /-- how often `release_thread` ran -/
  released : Tid → ℕ
  /-- whether `register_thread` ran -/
  registered : Tid → Bool

namespace History

/-- Nothing has happened. -/
def none : History := ⟨fun _ => 0, fun _ => 0, fun _ => 0, fun _ => false⟩

/-- A thread is allocated. -/
def created (h : History) (t : Tid) : History where
  reapers := Function.update h.reapers t 0
  erased := Function.update h.erased t 0
  released := Function.update h.released t 0
  registered := Function.update h.registered t false

/-- What a step adds to the history. -/
def observe (h : History) (k : Kernel) : Act → History
  | .call (.createThread (some t)) => if k.used t = false ∧ t ≠ bootstrap then h.created t else h
  | .go b =>
    match k.pc k.current with
    | .register t => if b then { h with registered := Function.update h.registered t true } else h
    | .reap t =>
      if k.state t = .reaped then h
      else { h with reapers := Function.update h.reapers t (h.reapers t + 1) }
    | .erase t => { h with erased := Function.update h.erased t (h.erased t + 1) }
    | .put t | .putReaped t =>
      if k.refcount t - 1 = 0 then { h with released := Function.update h.released t (h.released t + 1) }
      else h
    | _ => h
  | _ => h

end History

/-- **The steps in the lives of the threads.** -/
inductive LifeStep (k : Kernel) (a : Act) : Kernel → Prop
  | calm {k' : Kernel} (h : Calm k k') (hobs : ∀ h : History, h.observe k a = h) : LifeStep k a k'
  | alloc {t : Tid} {k' : Kernel} (ha : a = .call (.createThread (some t))) (hrun : k.pc k.current = .run)
      (hused : k.used t = false) (hboot : t ≠ bootstrap)
      (hused' : k'.used = Function.update k.used t true)
      (hcount : k'.refcount = Function.update k.refcount t 1) (hthreads : k'.threads = k.threads)
      (hstate : k'.state = Function.update k.state t .blocked)
      (hpc : k'.pc = Function.update (Function.update k.pc t .newborn) k.current (.register t)) :
      LifeStep k a k'
  | register {t : Tid} {i : ℤ} {k' : Kernel} (ha : a = .go true) (hpc : k.pc k.current = .register t)
      (hused : k'.used = k.used) (hcount : k'.refcount = k.refcount)
      (hthreads : k'.threads = t :: k.threads) (hstate : k'.state = k.state)
      (hpc' : k'.pc = Function.update k.pc k.current (.lookup t i)) : LifeStep k a k'
  | lookup {t : Tid} {pid : ℤ} {p : Pc} (ha : (a = .call (.wait pid) ∧ p = .waiting t) ∨
        (a = .call (.lookup pid) ∧ p = .put t)) (hpc : k.pc k.current = .run)
      (hfind : k.threads.find? (fun t => k.pid t = pid) = some t) :
      LifeStep k a ({ k with
        refcount := Function.update k.refcount t (k.refcount t + 1) }.goto p)
  | reap {t : Tid} {b : Bool} (ha : a = .go b) (hpc : k.pc k.current = .reap t) :
      LifeStep k a ((k.setState t .reaped).goto (if k.state t = .reaped then .put t else .erase t))
  | erase {t : Tid} {b : Bool} (ha : a = .go b) (hpc : k.pc k.current = .erase t) :
      LifeStep k a ({ k with threads := k.threads.erase t }.goto (.putReaped t))
  | put {t : Tid} {b : Bool} {p : Pc} (ha : a = .go b)
      (hpc : (k.pc k.current = .put t ∧ p = .run) ∨ (k.pc k.current = .putReaped t ∧ p = .put t)) :
      LifeStep k a ({ k with
        refcount := Function.update k.refcount t (k.refcount t - 1)
        used := if k.refcount t - 1 = 0 then Function.update k.used t false else k.used }.goto p)

section

variable {mutexOf : ℕ → ℕ} {k k' : Kernel} {t : Tid} {p : Pc}

/-! ### Parts of steps -/

theorem Tame.refl (k : Kernel) : Tame k k := ⟨rfl, rfl, rfl, rfl, fun _ => Iff.rfl⟩

theorem Tame.trans {k₁ : Kernel} (h : Tame k k₁) (h' : Tame k₁ k') : Tame k k' :=
  ⟨h'.used.trans h.used, h'.refcount.trans h.refcount, h'.threads.trans h.threads, h'.pc.trans h.pc,
    fun t => (h'.reaped t).trans (h.reaped t)⟩

/-- A thread that is not reaped gets another state. -/
theorem tame_setState {st : ThreadState} (ht : k.state t ≠ .reaped) (hst : st ≠ .reaped) :
    Tame k (k.setState t st) := by
  refine ⟨rfl, rfl, rfl, rfl, fun u => ?_⟩
  by_cases hut : u = t
  · subst hut
    have hself : (k.setState u st).state u = st := Function.update_self _ _ _
    rw [hself]
    exact iff_of_false hst ht
  · have hsame : (k.setState t st).state u = k.state u := Function.update_of_ne hut _ _
    rw [hsame]

theorem yields_rrPreemptThread : Yields (rrPreemptThread t) k fun _ k' => Tame k k' := by
  rw [rrPreemptThread]
  refine Yields.bind (ensures_get.2 ?_).yields
  split_ifs
  · exact (ensures_set.2 ⟨rfl, rfl, rfl, rfl, fun _ => Iff.rfl⟩).yields
  · exact yields_pure (Tame.refl k)

theorem yields_placeThread : Yields (placeThread t) k fun _ k' => Tame k k' := by
  refine ensures_placeThread.yields.mono fun _ k' hk' => ?_
  rw [hk']
  split_ifs with hfin
  · have hne : k.state k.current ≠ .reaped := by
      rw [hfin]
      exact nofun
    have hset := tame_setState hne (show ThreadState.dead ≠ .reaped from nofun)
    exact ⟨rfl, rfl, rfl, rfl, hset.reaped⟩
  · exact ⟨rfl, rfl, rfl, rfl, fun _ => Iff.rfl⟩

theorem yields_switchTo : Yields (switchTo t) k fun _ k' => Tame k k' := by
  rw [switchTo]
  refine Yields.bind (ensures_get.2 ?_).yields
  refine Yields.bind (Yields.mono (Q := fun _ k' => Tame k k') ?_ fun _ k₁ h₁ => ?_)
  · rw [preemptThread]
    split_ifs
    · exact yields_pure (Tame.refl k)
    · exact yields_rrPreemptThread
  · exact yields_placeThread.mono fun _ k' h' => h₁.trans h'

theorem yields_schedule : Yields schedule k fun _ k' => Tame k k' := by
  rw [schedule]
  refine Yields.bind (Yields.mono (Q := fun _ k' => Tame k k') ?_ fun r k₁ h₁ => ?_)
  · rw [rrNextThread]
    refine Yields.bind (ensures_get.2 ?_).yields
    cases k.active with
    | nil => exact yields_pure (Tame.refl k)
    | cons t l =>
      have hset : Tame k { k with active := l } := ⟨rfl, rfl, rfl, rfl, fun _ => Iff.rfl⟩
      refine Yields.bind (ensures_set.2 ?_).yields
      exact yields_pure hset
  · refine Yields.bind (ensures_get.2 ?_).yields
    split_ifs
    · exact yields_pure h₁
    · exact yields_pure h₁
    · exact yields_switchTo.mono fun _ k' h' => h₁.trans h'

theorem yields_activateThread :
    Yields (activateThread t) k fun _ k' => Tame k k' ∧ k'.current = k.current := by
  rw [activateThread]
  split_ifs with hboot
  · exact yields_throw
  · refine Yields.bind (ensures_get.2 ?_).yields
    split_ifs with hst
    · have hne : k.state t ≠ .reaped := by
        rw [hst]
        simp
      refine Yields.bind (ensures_modify.2 ?_).yields
      have h₁ := tame_setState hne (show ThreadState.active ≠ .reaped from (by simp))
      rw [rrActivateThread]
      refine Yields.bind (ensures_get.2 ?_).yields
      split_ifs
      · exact (ensures_set.2 ⟨⟨h₁.used, h₁.refcount, h₁.threads, h₁.pc, h₁.reaped⟩, rfl⟩).yields
      · exact yields_throw
    · exact yields_pure ⟨Tame.refl k, rfl⟩

theorem yields_waitQueueNotify {q : Queue} :
    Yields (waitQueueNotify mutexOf q) k fun _ k' => Tame k k' := by
  rw [waitQueueNotify]
  refine Yields.bind (ensures_get.2 ?_).yields
  cases k.queue q with
  | nil => exact yields_pure (Tame.refl k)
  | cons t l =>
    simp only
    split_ifs
    · refine Yields.bind (ensures_set.2 ?_).yields
      exact yields_activateThread.mono fun _ k' h' =>
        ⟨h'.1.used, h'.1.refcount, h'.1.threads, h'.1.pc, h'.1.reaped⟩
    · exact yields_throw

theorem yields_mutexUnlock {m : ℕ} : Yields (mutexUnlock mutexOf m) k fun _ k' => Tame k k' := by
  rw [mutexUnlock]
  refine Yields.bind (ensures_modify.2 ?_).yields
  exact yields_waitQueueNotify.mono fun _ k' h' => ⟨h'.used, h'.refcount, h'.threads, h'.pc, h'.reaped⟩

/-! ### Calm steps -/

theorem Tame.calm (h : Tame k k') : Calm k k' :=
  ⟨h.used, fun t => by rw [h.refcount], h.threads, h.reaped, fun u => by rw [h.pc], fun u t hu => by rwa [h.pc] at hu,
    fun u t hu => by rwa [h.pc] at hu, fun u t hu => by rwa [h.pc] at hu⟩

/-- The running thread has gone on from one place to another. -/
structure Pc.Onward (p p' : Pc) : Prop where
  erases : p'.erases = p.erases
  registers : ∀ t, p' ≠ .register t
  loops : ∀ t, p'.loops = some t → p.loops = some t
  awaits : ∀ t, p'.awaits = some t → p.awaits = some t

theorem loops_awaits (hp : p.loops = some t) : p.awaits = some t := by
  cases p <;> first | exact hp | exact nomatch hp

/-- The place that a thread has gone on to is in no call of `wait`. -/
theorem Pc.Onward.of_awaits {p p' : Pc} (he : p'.erases = p.erases) (hr : ∀ t, p' ≠ .register t)
    (ha : p'.awaits = none) : p.Onward p' := by
  refine ⟨he, hr, fun t ht => ?_, fun t ht => ?_⟩
  · exact absurd ((loops_awaits ht).symm.trans ha) nofun
  · exact absurd (ht.symm.trans ha) nofun

theorem calm_goto (hp : (k.pc k.current).Onward p) (h : Tame (k.goto p) k') : Calm k k' := by
  have hpc : ∀ u, k'.pc u = if u = k.current then p else k.pc u := fun u => by
    rw [h.pc, goto_pc]
  have hcount : ∀ t, k.refcount t ≤ k'.refcount t := fun t => le_of_eq (congrFun h.refcount t).symm
  refine ⟨h.used, hcount, h.threads, h.reaped, fun u => ?_, fun u t hu => ?_, fun u t hu => ?_,
    fun u t hu => ?_⟩
  · rw [hpc]
    split_ifs with huc
    · rw [hp.erases, huc]
    · rfl
  · rw [hpc] at hu
    split_ifs at hu with huc
    · exact absurd hu (hp.registers t)
    · exact hu
  · rw [hpc] at hu
    split_ifs at hu with huc
    · rw [huc]
      exact hp.loops t hu
    · exact hu
  · rw [hpc] at hu
    split_ifs at hu with huc
    · rw [huc]
      exact hp.awaits t hu
    · exact hu

theorem Tame.goto {k₁ : Kernel} (h : Tame k k₁) (hcur : k₁.current = k.current) :
    Tame (k.goto p) (k₁.goto p) := by
  refine ⟨h.used, h.refcount, h.threads, ?_, h.reaped⟩
  rw [Kernel.goto, Kernel.goto, hcur, h.pc]

theorem yields_goto_calm (hp : (k.pc k.current).Onward p) : Yields (goto p) k fun _ k' => Calm k k' :=
  (ensures_modify.2 (calm_goto hp (Tame.refl _))).yields

theorem yields_leave_calm (hp : (k.pc k.current).Onward p) :
    Yields (do goto p; schedule) k fun _ k' => Calm k k' :=
  Yields.bind (ensures_modify.2 (yields_schedule.mono fun _ _ h' => calm_goto hp h')).yields

/-! ### Every step -/

theorem KernelOk.not_reaped (h : KernelOk mutexOf k) : k.state k.current ≠ .reaped := fun hc =>
  h.live (Or.inr hc)

theorem onward_run (hp : (k.pc k.current) = .run) (herases : p.erases = none)
    (hreg : ∀ t, p ≠ .register t) (hawaits : p.awaits = none) : (k.pc k.current).Onward p := by
  rw [hp]
  exact .of_awaits herases hreg hawaits

/-- What a call does at its first step. -/
theorem KernelOk.lifeStep_start {c : Call} (h : KernelOk mutexOf k) (hrun : k.pc k.current = .run) :
    Yields (start mutexOf c) k fun _ k' => LifeStep k (.call c) k' := by
  have hcalm : ∀ {m : KernelM Unit}, (∀ h : History, h.observe k (.call c) = h) →
      Yields m k (fun _ k' => Calm k k') → Yields m k fun _ k' => LifeStep k (.call c) k' :=
    fun hobs hm => hm.mono fun _ _ hk' => .calm hk' hobs
  cases c with
  | mutexLock m => exact hcalm (fun _ => rfl) (yields_goto_calm (onward_run hrun rfl (by simp) rfl))
  | mutexUnlock m => exact hcalm (fun _ => rfl) (yields_mutexUnlock.mono fun _ _ => Tame.calm)
  | waitEvent q => exact hcalm (fun _ => rfl) (yields_goto_calm (onward_run hrun rfl (by simp) rfl))
  | conditionWait c =>
    refine hcalm (fun _ => rfl) ?_
    rw [start, conditionWait]
    refine Yields.bind (ensures_modify.2 ?_).yields
    refine yields_mutexUnlock.mono fun _ k' hk' => ?_
    have hset := tame_setState h.not_reaped (show ThreadState.blocked ≠ .reaped from (by simp))
    refine calm_goto (p := .condSleep c) (onward_run hrun rfl (by simp) rfl) (Tame.trans ?_ hk')
    exact ⟨rfl, rfl, rfl, rfl, hset.reaped⟩
  | waitQueueNotify q => exact hcalm (fun _ => rfl) (yields_waitQueueNotify.mono fun _ _ => Tame.calm)
  | conditionNotifyAll c =>
    refine hcalm (fun _ => rfl) ?_
    rw [start]
    refine Yields.bind (ensures_get.2 ?_).yields
    refine Yields.bind (ensures_set.2 ?_).yields
    refine (ensures_modify.2 ?_).yields
    exact calm_goto (p := .notify c (k.queue (.cond c))) (onward_run hrun rfl (by simp) rfl)
      ⟨rfl, rfl, rfl, rfl, fun _ => Iff.rfl⟩
  | schedule => exact hcalm (fun _ => rfl) (yields_schedule.mono fun _ _ => Tame.calm)
  | exit =>
    refine hcalm (fun _ => rfl) ?_
    rw [start]
    refine Yields.bind (ensures_modify.2 ?_).yields
    refine yields_schedule.mono fun _ k' hk' => ?_
    have hset := tame_setState h.not_reaped (show ThreadState.finished ≠ .reaped from (by simp))
    refine calm_goto (p := .exited) (onward_run hrun rfl (by simp) rfl) (Tame.trans ?_ hk')
    exact ⟨rfl, rfl, rfl, rfl, hset.reaped⟩
  | createThread t =>
    cases t with
    | none => exact hcalm (fun _ => rfl) (yields_pure (Tame.refl k).calm)
    | some t =>
      rw [start]
      refine Yields.bind (ensures_get.2 ?_).yields
      split_ifs with hnew
      · rw [allocThread]
        refine Yields.bind (ensures_modify.2 ?_).yields
        refine (ensures_modify.2 ?_).yields
        exact .alloc rfl hrun hnew.1 hnew.2 rfl rfl rfl rfl rfl
      · refine yields_pure (.calm (Tame.refl k).calm fun h => ?_)
        rw [History.observe, if_neg hnew]
  | wait pid | lookup pid =>
    rw [start, lookupThread]
    refine Yields.bind (Yields.bind (ensures_get.2 ?_).yields)
    cases hfind : k.threads.find? fun t => k.pid t = pid with
    | none =>
      refine yields_pure ?_
      exact yields_pure (.calm (Tame.refl k).calm fun _ => rfl)
    | some t =>
      refine Yields.bind (ensures_set.2 ?_).yields
      refine yields_pure ?_
      exact (ensures_modify.2 (.lookup (by simp) hrun hfind)).yields

/-- A place from which a call goes on calmly. -/
def Pc.isCalm : Pc → Bool
  | .register _ => false
  | .reap _ => false
  | .erase _ => false
  | .put _ => false
  | .putReaped _ => false
  | _ => true

theorem observe_calm {b : Bool} (hp : (k.pc k.current).isCalm = true) (h : History) :
    h.observe k (.go b) = h := by
  rw [History.observe]
  split <;> first | rfl | (rename_i hc; rw [hc] at hp; exact nomatch hp)

theorem KernelOk.yields_waitEvent_calm {w : Wait} {b : Bool} (h : KernelOk mutexOf k)
    (hp : k.pc k.current = .enter w ∨ k.pc k.current = .retry w) :
    Yields (waitEvent mutexOf w b) k fun _ k' => Calm k k' := by
  have hon : ∀ {p : Pc}, p.erases = none → (∀ t, p ≠ .register t) → p.awaits = none →
      (k.pc k.current).Onward p := by
    intro p h₁ h₂ h₃
    refine .of_awaits ?_ h₂ h₃
    rcases hp with hp | hp <;> rw [hp, h₁] <;> rfl
  refine ensures_turn.yields.mono ?_
  rintro _ k' (⟨m, -, -, rfl⟩ | ⟨-, rfl⟩ | ⟨-, rfl⟩)
  · exact calm_goto (p := .run) (hon rfl nofun rfl) ⟨rfl, rfl, rfl, rfl, fun _ => Iff.rfl⟩
  · exact calm_goto (p := .run) (hon rfl nofun rfl) (Tame.refl _)
  · have hset := tame_setState h.not_reaped (show ThreadState.blocked ≠ .reaped from nofun)
    exact calm_goto (p := .sleep w) (hon rfl nofun rfl) ⟨rfl, rfl, rfl, rfl, hset.reaped⟩

/-- What a call does when it goes on. -/
theorem KernelOk.lifeStep_resume {b : Bool} (h : KernelOk mutexOf k) (hpc : k.pc k.current = p)
    (hp : p ≠ .run) : Yields (resume mutexOf b p) k fun _ k' => LifeStep k (.go b) k' := by
  have hcalm : ∀ {m : KernelM Unit}, p.isCalm = true →
      Yields m k (fun _ k' => Calm k k') → Yields m k fun _ k' => LifeStep k (.go b) k' :=
    fun hp hm => hm.mono fun _ _ hk' => .calm hk' (observe_calm (hpc.symm ▸ hp))
  have hon : ∀ {p' : Pc}, p'.erases = p.erases → (∀ t, p' ≠ .register t) →
      (∀ t, p'.loops = some t → p.loops = some t) → (∀ t, p'.awaits = some t → p.awaits = some t) →
      (k.pc k.current).Onward p' := fun h₁ h₂ h₃ h₄ => by
    rw [hpc]
    exact ⟨h₁, h₂, h₃, h₄⟩
  have hoff : ∀ {p' : Pc}, p'.erases = p.erases → (∀ t, p' ≠ .register t) → p'.awaits = none →
      (k.pc k.current).Onward p' := fun h₁ h₂ h₃ => by
    rw [hpc]
    exact .of_awaits h₁ h₂ h₃
  -- only `register`, `put`, `reap` and `erase` mean something to a thread's life; the other places are calm
  cases p with
  | newborn => exact hcalm rfl (yields_goto_calm (hoff rfl (by simp) rfl))
  | run => exact absurd rfl hp
  | enter w => exact hcalm rfl (h.yields_waitEvent_calm (Or.inl hpc))
  | sleep w => exact hcalm rfl (yields_leave_calm (hoff rfl (by simp) rfl))
  | retry w => exact hcalm rfl (h.yields_waitEvent_calm (Or.inr hpc))
  | condSleep c => exact hcalm rfl (yields_leave_calm (hoff rfl (by simp) rfl))
  | condWoken c => exact hcalm rfl (yields_goto_calm (hoff rfl (by simp) rfl))
  | notify c l =>
    cases l with
    | nil => exact hcalm rfl (yields_goto_calm (hoff rfl (by simp) rfl))
    | cons t l =>
      refine hcalm rfl ?_
      rw [resume]
      refine Yields.bind (ensures_get.2 ?_).yields
      split_ifs
      · refine Yields.bind (yields_activateThread.mono fun _ k₁ hr => ?_)
        obtain ⟨h₁, hcur⟩ := hr
        refine (ensures_modify.2 ?_).yields
        exact calm_goto (p := .advance c t l) (hoff rfl (by simp) rfl) (h₁.goto hcur)
      · exact yields_throw
  | advance c t l =>
    refine hcalm rfl ?_
    rw [resume]
    refine Yields.bind (ensures_get.2 ?_).yields
    split_ifs
    · exact yields_goto_calm (hoff rfl (by simp) rfl)
    · exact yields_throw
  | register t =>
    rw [resume]
    cases b with
    | true =>
      rw [if_pos rfl, registerThread]
      refine Yields.bind (Yields.bind (ensures_get.2 ?_).yields)
      cases nextFreePid (k.threads.map k.pid) (k.threads.length + 1) k.nextPid with
      | none => exact yields_throw
      | some i =>
        refine Yields.bind (ensures_set.2 ?_).yields
        refine yields_pure ?_
        exact (ensures_modify.2 (.register rfl hpc rfl rfl rfl rfl rfl)).yields
    | false =>
      rw [if_neg (by simp)]
      have hgoto := yields_goto_calm (p := .put t) (hoff rfl (by simp) rfl)
      refine hgoto.mono fun _ k' hk' => LifeStep.calm hk' fun h => ?_
      simp only [History.observe, hpc, Bool.false_eq_true, if_false]
  | lookup t pid =>
    refine hcalm rfl ?_
    rw [resume, lookupThread]
    refine Yields.bind (Yields.bind (ensures_get.2 ?_).yields)
    cases k.threads.find? fun t => k.pid t = pid with
    | none => exact yields_pure yields_throw
    | some t' =>
      refine Yields.bind (ensures_set.2 ?_).yields
      -- a lookup takes a reference, which only adds to a count
      refine yields_pure ?_
      refine (ensures_modify.2 ?_).yields
      have hgoto := calm_goto (p := .activate t') (hoff rfl (by simp) rfl) (Tame.refl _)
      refine ⟨rfl, fun u => ?_, rfl, hgoto.reaped, hgoto.erases, hgoto.registers, hgoto.loops,
        hgoto.awaits⟩
      have hcount : Function.update k.refcount t' (k.refcount t' + 1) u = _ := Function.update_apply ..
      change k.refcount u ≤ Function.update k.refcount t' (k.refcount t' + 1) u
      rw [hcount]
      split_ifs with hu
      · rw [hu]
        omega
      · exact le_rfl
  | activate t =>
    refine hcalm rfl ?_
    rw [resume]
    refine Yields.bind (yields_activateThread.mono fun _ k₁ hr => ?_)
    obtain ⟨h₁, hcur⟩ := hr
    refine (ensures_modify.2 ?_).yields
    exact calm_goto (p := .put t) (hoff rfl (by simp) rfl) (h₁.goto hcur)
  | put t =>
    rw [resume, putThread]
    refine Yields.bind (Yields.bind (ensures_get.2 (ensures_set.2 ?_).yields).yields)
    exact (ensures_modify.2 (.put rfl (Or.inl ⟨hpc, rfl⟩))).yields
  | waiting t =>
    refine hcalm rfl ?_
    rw [resume]
    refine Yields.bind (ensures_get.2 ?_).yields
    split_ifs
    · exact yields_goto_calm (hon rfl (by simp) (by rintro _ ⟨⟩) fun _ ht => ht)
    · exact yields_goto_calm (hon rfl (by simp) (fun _ ht => ht) fun _ ht => ht)
  | yielding t => exact hcalm rfl (yields_leave_calm (hon rfl (by simp) (fun _ ht => ht) fun _ ht => ht))
  | reap t =>
    rw [resume]
    refine Yields.bind (ensures_get.2 ?_).yields
    refine Yields.bind (ensures_set.2 ?_).yields
    have hreap : LifeStep k (.go b) _ := .reap rfl hpc
    split_ifs with hst
    · rw [if_pos hst] at hreap
      exact (ensures_modify.2 hreap).yields
    · rw [if_neg hst] at hreap
      exact (ensures_modify.2 hreap).yields
  | erase t =>
    rw [resume]
    refine Yields.bind (ensures_modify.2 ?_).yields
    exact (ensures_modify.2 (.erase rfl hpc)).yields
  | putReaped t =>
    rw [resume, putThread]
    refine Yields.bind (Yields.bind (ensures_get.2 (ensures_set.2 ?_).yields).yields)
    exact (ensures_modify.2 (.put rfl (Or.inr ⟨hpc, rfl⟩))).yields
  | exited => exact yields_throw

/-- **Every step** is one in the lives of the threads. -/
theorem KernelOk.lifeStep {a : Act} (h : KernelOk mutexOf k) (ha : a.Allowed mutexOf k)
    (hrun : perform mutexOf a k = .ok ((), k')) : LifeStep k a k' := by
  cases a with
  | timer => exact .calm (yields_schedule () k' hrun).calm fun _ => rfl
  | call c => exact h.lifeStep_start ha.1 () k' hrun
  | go b =>
    have hgo : Yields (perform mutexOf (.go b)) k fun _ k' => LifeStep k (.go b) k' :=
      yields_go (h.lifeStep_resume rfl ha)
    exact hgo () k' hrun

end

end Threads

end Kernel64
