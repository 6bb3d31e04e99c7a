import Kernel64.Threads.Life

/-!
# The invariant of the kernel

`KernelOk` puts the run queue, the wait queues and the lives of the threads together. Here are the parts
that the steps are made of: going on from place to place, scheduling, waking, blocking, and a turn of
`WAIT_EVENT`.
-/

namespace Kernel64

namespace Threads

/-- A place on the way to a block, or after `exit`. -/
def Pc.mayBlock : Pc → Bool
  | .enter _ => true
  | .sleep _ => true
  | .retry _ => true
  | .condSleep _ => true
  | .condWoken _ => true
  | .exited => true
  | _ => false

variable (mutexOf : ℕ → ℕ)

/-- What holds between any two steps, and while the running thread is switched. -/
structure BaseOk (k : Kernel) : Prop where
  sched : SchedOk k
  waits : WaitOk mutexOf k
  life : LifeOk k
  refs : RefsOk k
  boot : (k.pc bootstrap).mayBlock = false

/-- **The invariant of the kernel.** -/
structure KernelOk (k : Kernel) : Prop extends BaseOk mutexOf k where
  running : k.state k.current = .active ∨
    (k.state k.current = .blocked ∧ (k.pc k.current).asleep = true)

section

variable {mutexOf} {k k' : Kernel} {t : Tid} {p : Pc} {q : Queue}

/-! ### The running thread -/

theorem KernelOk.live (h : KernelOk mutexOf k) :
    ¬(k.state k.current = .dead ∨ k.state k.current = .reaped) := by
  rcases h.running with hr | ⟨hr, -⟩ <;> rw [hr] <;> exact fun hc => hc.elim nofun nofun

/-- Nobody is creating the running thread. -/
theorem KernelOk.not_creates_current (h : KernelOk mutexOf k) (u : Tid) :
    (k.pc u).creates ≠ some k.current := by
  intro hu
  obtain ⟨hst, hnew⟩ := h.life.fresh u _ hu
  rcases h.running with hr | ⟨-, hr⟩
  · rw [hst] at hr
    exact nomatch hr
  · rw [hnew] at hr
    exact nomatch hr

theorem KernelOk.active_of_awake (h : KernelOk mutexOf k) (hp : (k.pc k.current).asleep = false) :
    k.state k.current = .active :=
  h.running.resolve_right fun hr => Bool.false_ne_true (hp.symm.trans hr.2)

theorem KernelOk.registered_current (h : KernelOk mutexOf k) :
    k.current = bootstrap ∨ k.current ∈ k.threads := by
  by_contra hc
  rw [not_or] at hc
  exact (h.life.unregistered _ hc.1 hc.2).2.1 rfl

theorem KernelOk.not_boot_of_blocked (h : KernelOk mutexOf k) (hst : k.state t = .blocked) :
    t ≠ bootstrap := fun hc => by
  rw [hc, h.sched.boot] at hst
  exact nomatch hst

/-! ### Steps from place to place -/

/-- A place that is not special in the life of another thread. -/
structure Pc.Plain (p : Pc) : Prop where
  creates : p.creates = none
  knows : p.knows = none
  reaps : p.reaps = none
  erases : p.erases = none
  exited : p ≠ .exited
  notifying : p.notifying = none
  walking : p.walking = none

theorem LifeOk.goto_plain (h : LifeOk k) (hcur : ∀ u, (k.pc u).creates ≠ some k.current)
    (hlive : ¬(k.state k.current = .dead ∨ k.state k.current = .reaped)) (hp : p.Plain) :
    LifeOk (k.goto p) := by
  refine h.goto hcur hlive hp.exited (fun t ht => ?_) (fun t ht => ?_) (fun t ht => ?_) fun t ht => ?_
  · exact nomatch hp.creates.symm.trans ht
  · exact nomatch hp.knows.symm.trans ht
  · exact nomatch hp.reaps.symm.trans ht
  · exact nomatch hp.erases.symm.trans ht

theorem WaitOk.goto_plain (h : WaitOk mutexOf k) (hp : p.Plain)
    (hw : k.state k.current = .blocked → p.waitsOn mutexOf = (k.pc k.current).waitsOn mutexOf)
    (hc : ∀ c, (k.pc k.current).inCond = some c →
      p.inCond = some c ∨ ∀ u, (k.pc u).walking ≠ some (c, k.current)) :
    WaitOk mutexOf (k.goto p) :=
  h.goto hw hc (fun _ _ hn => nomatch hp.notifying.symm.trans hn)
    fun _ _ hn => nomatch hp.walking.symm.trans hn

theorem goto_boot (hb : p.mayBlock = true → k.current ≠ bootstrap)
    (h : (k.pc bootstrap).mayBlock = false) : ((k.goto p).pc bootstrap).mayBlock = false := by
  rw [goto_pc]
  split_ifs with hc
  · by_contra hp
    exact hb (by simpa using hp) hc.symm
  · exact h

/-- **A step to a plain place** with no reference taken or dropped. -/
theorem KernelOk.baseOk_goto (h : KernelOk mutexOf k) (hp : p.Plain)
    (hb : p.mayBlock = true → k.current ≠ bootstrap)
    (hw : k.state k.current = .blocked → p.waitsOn mutexOf = (k.pc k.current).waitsOn mutexOf)
    (hc : ∀ c, (k.pc k.current).inCond = some c →
      p.inCond = some c ∨ ∀ u, (k.pc u).walking ≠ some (c, k.current))
    (hr : RefsOk (k.goto p)) : BaseOk mutexOf (k.goto p) :=
  ⟨h.sched.congr rfl rfl rfl, h.waits.goto_plain hp hw hc,
    h.life.goto_plain h.not_creates_current h.live hp, hr, goto_boot hb h.boot⟩

/-- The same from a place where the thread is awake and in no `condition_wait`. -/
theorem KernelOk.goto_awake (h : KernelOk mutexOf k) (hp : p.Plain)
    (hb : p.mayBlock = true → k.current ≠ bootstrap) (hawake : (k.pc k.current).asleep = false)
    (hc : (k.pc k.current).inCond = none ∨ p.inCond = (k.pc k.current).inCond)
    (hr : RefsOk (k.goto p)) : KernelOk mutexOf (k.goto p) := by
  have hact := h.active_of_awake hawake
  refine ⟨h.baseOk_goto hp hb (fun hst => ?_) (fun c hin => Or.inl ?_) hr, Or.inl hact⟩
  · rw [hact] at hst
    exact nomatch hst
  · rcases hc with hc | hc
    · rw [hc] at hin
      exact nomatch hin
    · rw [hc]
      exact hin

/-- **Scheduling.** -/
theorem BaseOk.ensures_schedule (h : BaseOk mutexOf k) (hst : k.state k.current ≠ .finished) :
    Ensures schedule k fun _ k' => KernelOk mutexOf k' ∧ Switched k k' := by
  have hboot : k.current = bootstrap → k.state k.current = .active := fun hc => by
    rw [hc]
    exact h.sched.boot
  refine (h.sched.ensures_schedule hboot).mono fun _ k' ⟨hs, hsw⟩ => ?_
  have hstate : k'.state = k.state := by rw [hsw.state, if_neg hst]
  refine ⟨⟨⟨hs, h.waits.congr hsw.queue (fun m hm => hsw.locked ▸ hm) hsw.pc (fun t ht => hstate ▸ ht),
    h.life.congr hsw.pc hsw.threads (fun _ => hsw.current) fun t => Or.inl (by rw [hstate]),
    h.refs.congr hsw.pc hsw.threads hsw.pid hsw.refcount hsw.used, by rw [hsw.pc]; exact h.boot⟩,
    Or.inl hsw.current⟩, hsw⟩

/-! ### Waking and blocking -/

theorem inCond_of_waitsOn {c : ℕ} (h : p.waitsOn mutexOf = some (.cond c)) : p.inCond = some c := by
  cases p with
  | sleep w => cases w <;> exact nomatch h
  | retry w => cases w <;> exact nomatch h
  | condSleep c' =>
    obtain rfl : c' = c := by injection Option.some.inj h
    rfl
  | condWoken c' =>
    obtain rfl : c' = c := by injection Option.some.inj h
    rfl
  | _ => exact nomatch h

/-- A thread that waits was started, so nobody is creating it. -/
theorem LifeOk.started (h : LifeOk k) (hw : (k.pc t).waitsOn mutexOf = some q) :
    (∀ u, (k.pc u).creates ≠ some t) ∧ (t = bootstrap ∨ t ∈ k.threads) := by
  have hnew : ¬(k.pc t).Inert := fun hc => by
    rcases hc with hc | hc <;> rw [hc] at hw <;> exact nomatch hw
  refine ⟨fun u hu => hnew (Or.inl (h.fresh u t hu).2), ?_⟩
  by_contra hc
  rw [not_or] at hc
  exact hnew (h.unregistered t hc.1 hc.2).2.2

theorem LifeOk.wake (h : LifeOk k) (hst : k.state t = .blocked)
    (hcr : ∀ u, (k.pc u).creates ≠ some t) (hreg : t = bootstrap ∨ t ∈ k.threads) :
    LifeOk (k.wake t) := by
  refine h.congr rfl rfl (fun hc => absurd rfl hc) fun u => ?_
  by_cases hut : u = t
  · subst hut
    have hself : (k.wake u).state u = .active := Function.update_self _ _ _
    refine Or.inr ⟨hcr, hreg, ?_, ?_⟩
    · rw [hst]
      exact fun hc => hc.elim nofun nofun
    · rw [hself]
      exact fun hc => hc.elim nofun nofun
  · exact Or.inl (Function.update_of_ne hut _ _)

/-- **Waking** a blocked thread other than the running one. -/
theorem KernelOk.wake (h : KernelOk mutexOf k) (hst : k.state t = .blocked) (hcur : t ≠ k.current)
    (hw : WaitOk mutexOf (k.wake t)) (hcr : ∀ u, (k.pc u).creates ≠ some t)
    (hreg : t = bootstrap ∨ t ∈ k.threads) : KernelOk mutexOf (k.wake t) := by
  have hsame : (k.wake t).state k.current = k.state k.current := Function.update_of_ne hcur.symm _ _
  refine ⟨⟨h.sched.wake (h.not_boot_of_blocked hst) hst hcur, hw, h.life.wake hst hcr hreg,
    h.refs.congr rfl rfl rfl rfl rfl, h.boot⟩, ?_⟩
  change (k.wake t).state k.current = .active ∨ ((k.wake t).state k.current = .blocked ∧ _)
  rw [hsame]
  exact h.running

/-- The kernel after `__wait_queue_notify`. -/
def Kernel.notified (k : Kernel) (q : Queue) : Kernel :=
  match k.queue q with
  | [] => k
  | t :: l => { k with queue := Function.update k.queue q l }.wake t

/-- **`__wait_queue_notify`** wakes the first thread of the queue, if there is one. -/
theorem KernelOk.ensures_waitQueueNotify (h : KernelOk mutexOf k)
    (hcur : k.state k.current = .active ∨ (k.pc k.current).waitsOn mutexOf ≠ some q) :
    Ensures (waitQueueNotify mutexOf q) k fun _ k' => k' = k.notified q ∧ KernelOk mutexOf k' := by
  rw [waitQueueNotify, Kernel.notified]
  simp only [ensures_bind, ensures_get]
  cases hq : k.queue q with
  | nil =>
    rw [ensures_pure]
    exact ⟨rfl, h⟩
  | cons t l =>
    have ht : t ∈ k.queue q := by
      rw [hq]
      exact List.mem_cons_self
    obtain ⟨hst, hw⟩ := h.waits.queued q t ht
    have hne : t ≠ k.current := by
      rintro rfl
      rcases hcur with hc | hc
      · rw [hst] at hc
        cases hc
      · exact hc hw
    simp only [hw, if_true, ensures_bind, ensures_set]
    set k₁ : Kernel := { k with queue := Function.update k.queue q l } with hk₁
    have hwake : Ensures (activateThread t) k₁ fun _ k' => k' = k₁.wake t :=
      ensures_activateThread (h.not_boot_of_blocked hst) hst
    refine hwake.mono fun _ k' hk' => ⟨hk', ?_⟩
    rw [hk']
    obtain ⟨hcr, hreg⟩ := h.life.started hw
    have h₁ : KernelOk mutexOf k₁ :=
      ⟨⟨h.sched.congr rfl rfl rfl, h.waits.shrink (hq ▸ List.sublist_cons_self t l),
        h.life.congr rfl rfl (fun hc => absurd rfl hc) fun _ => Or.inl rfl,
        h.refs.congr rfl rfl rfl rfl rfl, h.boot⟩, h.running⟩
    exact h₁.wake hst hne (h.waits.wakeFirst hq) hcr hreg

/-- The kernel with a mutex unlocked by the running thread. -/
def Kernel.unlock (k : Kernel) (m : ℕ) : Kernel :=
  { k with locked := Function.update k.locked m false }.setHeld m false

/-- **`mutex_unlock`** wakes the first thread that waits for the mutex. -/
theorem KernelOk.ensures_mutexUnlock {m : ℕ} (h : KernelOk mutexOf k)
    (hfree : ∀ u c l, (k.pc u).notifying = some (c, l) → mutexOf c ≠ m)
    (hcur : k.state k.current = .active ∨ (k.pc k.current).waitsOn mutexOf ≠ some (.mutex m)) :
    Ensures (mutexUnlock mutexOf m) k fun _ k' =>
      k' = (k.unlock m).notified (.mutex m) ∧ KernelOk mutexOf k' := by
  rw [mutexUnlock]
  simp only [ensures_bind, ensures_modify]
  have hw := h.waits
  have h₁ : KernelOk mutexOf (k.unlock m) := by
    refine ⟨⟨h.sched.congr rfl rfl rfl, ⟨hw.queued, hw.nodup, hw.pending, fun u c l hu => ?_, hw.apart,
      hw.walked⟩, h.life.congr rfl rfl (fun hc => absurd rfl hc) fun _ => Or.inl rfl,
      h.refs.congr rfl rfl rfl rfl rfl, h.boot⟩, h.running⟩
    have hsame : (k.unlock m).locked (mutexOf c) = k.locked (mutexOf c) :=
      Function.update_of_ne (hfree u c l hu) _ _
    rw [hsame]
    exact hw.locked u c l hu
  exact h₁.ensures_waitQueueNotify hcur

/-- **Blocking** in a wait. -/
theorem KernelOk.block (h : KernelOk mutexOf k) (hact : k.state k.current = .active)
    (hboot : k.current ≠ bootstrap) (hp : p.Plain) (hq : p.waitsOn mutexOf = some q)
    (hsleep : p.asleep = true) (hc : ∀ c, (k.pc k.current).inCond = some c → p.inCond = some c)
    (hr : RefsOk (k.goto p)) : KernelOk mutexOf (k.block q p) := by
  have hself : (k.block q p).state k.current = .blocked := Function.update_self _ _ _
  have hnb : k.state k.current ≠ .blocked := fun hc => nomatch hact.symm.trans hc
  have hlife : LifeOk (k.setState k.current .blocked) := by
    refine h.life.congr rfl rfl (fun hc => absurd rfl hc) fun u => ?_
    by_cases huc : u = k.current
    · subst huc
      have hst : (k.setState k.current .blocked).state k.current = .blocked := Function.update_self _ _ _
      refine Or.inr ⟨h.not_creates_current, h.registered_current, h.live, ?_⟩
      rw [hst]
      exact fun hc => hc.elim nofun nofun
    · exact Or.inl (Function.update_of_ne huc _ _)
  have hlife' : LifeOk ((k.setState k.current .blocked).goto p) := by
    refine hlife.goto_plain h.not_creates_current ?_ hp
    have hst : (k.setState k.current .blocked).state k.current = .blocked := Function.update_self _ _ _
    change ¬((k.setState k.current .blocked).state k.current = .dead ∨
      (k.setState k.current .blocked).state k.current = .reaped)
    rw [hst]
    exact fun hc => hc.elim nofun nofun
  refine ⟨⟨(h.sched.setState_current hboot).congr rfl rfl rfl,
    h.waits.block hnb hq hp.notifying hc,
    hlife'.congr rfl rfl (fun hc => absurd rfl hc) fun _ => Or.inl rfl,
    hr.congr rfl rfl rfl rfl rfl, goto_boot (fun _ => hboot) h.boot⟩, Or.inr ⟨hself, ?_⟩⟩
  have hpc : (k.block q p).pc k.current = p := Function.update_self _ _ _
  change ((k.block q p).pc k.current).asleep = true
  rw [hpc]
  exact hsleep

/-! ### `WAIT_EVENT` -/

/-- The mutex that a `WAIT_EVENT` locks. -/
def Wait.mutex? (mutexOf : ℕ → ℕ) : Wait → Option ℕ
  | .event _ => none
  | .mutex m => some m
  | .relock c => some (mutexOf c)

/-- The kernel with a mutex locked by the running thread. -/
def Kernel.lock (k : Kernel) (m : ℕ) : Kernel :=
  { k with locked := Function.update k.locked m true }.setHeld m true

/-- The kernel after a turn of `WAIT_EVENT`: the thread got the mutex, or saw its event, or blocks. -/
def Turned (mutexOf : ℕ → ℕ) (w : Wait) (k k' : Kernel) : Prop :=
  (∃ m, w.mutex? mutexOf = some m ∧ k.locked m = false ∧ k' = (k.lock m).goto .run) ∨
    (w.mutex? mutexOf = none ∧ k' = k.goto .run) ∨
    ((∀ m, w.mutex? mutexOf = some m → k.locked m = true) ∧
      k' = k.block (w.queue mutexOf) (.sleep w))

theorem ensures_mutexTryLock {m : ℕ} :
    Ensures (mutexTryLock m) k fun r k' =>
      (r = true ∧ k.locked m = false ∧ k' = k.lock m) ∨ (r = false ∧ k.locked m = true ∧ k' = k) := by
  rw [mutexTryLock]
  simp only [ensures_bind, ensures_get, ensures_ite, ensures_set, ensures_pure]
  refine ⟨fun hfree => Or.inl ⟨trivial, hfree, rfl⟩, fun hlocked => Or.inr ⟨trivial, ?_, trivial⟩⟩
  simpa using hlocked

theorem ensures_test {w : Wait} {b : Bool} :
    Ensures (w.test mutexOf b) k fun r k' =>
      (r = true ∧ ((∃ m, w.mutex? mutexOf = some m ∧ k.locked m = false ∧ k' = k.lock m) ∨
        (w.mutex? mutexOf = none ∧ k' = k))) ∨
      (r = false ∧ (∀ m, w.mutex? mutexOf = some m → k.locked m = true) ∧ k' = k) := by
  have htry : ∀ m, Ensures (mutexTryLock m) k fun r k' =>
      (r = true ∧ ((∃ m', some m = some m' ∧ k.locked m' = false ∧ k' = k.lock m') ∨
        (some m = none ∧ k' = k))) ∨
      (r = false ∧ (∀ m', some m = some m' → k.locked m' = true) ∧ k' = k) := by
    intro m
    refine ensures_mutexTryLock.mono fun r k' hr => ?_
    rcases hr with ⟨hr, hfree, hk'⟩ | ⟨hr, hlocked, hk'⟩
    · exact Or.inl ⟨hr, Or.inl ⟨m, rfl, hfree, hk'⟩⟩
    · refine Or.inr ⟨hr, fun m' hm => ?_, hk'⟩
      obtain rfl := Option.some.inj hm
      exact hlocked
  cases w with
  | event q =>
    rw [Wait.test, ensures_pure]
    cases b with
    | true => exact Or.inl ⟨rfl, Or.inr ⟨rfl, rfl⟩⟩
    | false => exact Or.inr ⟨rfl, fun _ hm => (nomatch hm), rfl⟩
  | mutex m => exact htry m
  | relock c => exact htry (mutexOf c)

theorem ensures_turn {w : Wait} {b : Bool} :
    Ensures (waitEvent mutexOf w b) k fun _ k' => Turned mutexOf w k k' := by
  rw [waitEvent, ensures_bind]
  refine ensures_test.mono fun r k₁ hr => ?_
  rcases hr with ⟨rfl, hr⟩ | ⟨rfl, hlocked, rfl⟩
  · simp only [if_true, goto, ensures_modify]
    rcases hr with ⟨m, hm, hfree, rfl⟩ | ⟨hnone, rfl⟩
    · exact Or.inl ⟨m, hm, hfree, rfl⟩
    · exact Or.inr (Or.inl ⟨hnone, rfl⟩)
  · simp only [Bool.false_eq_true, if_false, ensures_modify]
    exact Or.inr (Or.inr ⟨hlocked, rfl⟩)

theorem plain_run : Pc.run.Plain := ⟨rfl, rfl, rfl, rfl, nofun, rfl, rfl⟩

theorem plain_sleep {w : Wait} : (Pc.sleep w).Plain := ⟨rfl, rfl, rfl, rfl, nofun, rfl, rfl⟩

theorem KernelOk.lock {m : ℕ} (h : KernelOk mutexOf k) : KernelOk mutexOf (k.lock m) := by
  refine ⟨⟨h.sched.congr rfl rfl rfl, h.waits.congr rfl (fun m' hm => ?_) rfl fun _ ht => ht,
    h.life.congr rfl rfl (fun hc => absurd rfl hc) fun _ => Or.inl rfl,
    h.refs.congr rfl rfl rfl rfl rfl, h.boot⟩, h.running⟩
  change Function.update k.locked m true m' = true
  rw [Function.update_apply]
  split_ifs
  · rfl
  · exact hm

/-- **A turn of `WAIT_EVENT`** keeps the kernel sound. -/
theorem KernelOk.turned {w : Wait} (h : KernelOk mutexOf k)
    (hpc : k.pc k.current = .enter w ∨ k.pc k.current = .retry w) (hturn : Turned mutexOf w k k') :
    KernelOk mutexOf k' := by
  have hawake : (k.pc k.current).asleep = false := by rcases hpc with hpc | hpc <;> rw [hpc] <;> rfl
  have hact := h.active_of_awake hawake
  have hcond : ∀ c, (k.pc k.current).inCond = some c → w = .relock c := by
    intro c hin
    rcases hpc with hpc | hpc <;> rw [hpc] at hin <;> cases w with
      | relock c' =>
        obtain rfl := Option.some.inj hin
        rfl
      | _ => exact nomatch hin
  have hboot : k.current ≠ bootstrap := fun hc => by
    have := h.boot
    rw [← hc] at this
    rcases hpc with hpc | hpc <;> rw [hpc] at this <;> exact nomatch this
  have hholds : (k.pc k.current).holds = none ∧ (k.pc k.current).drops = none := by
    rcases hpc with hpc | hpc <;> rw [hpc] <;> exact ⟨rfl, rfl⟩
  rcases hturn with ⟨m, hm, hfree, rfl⟩ | ⟨hnone, rfl⟩ | ⟨-, rfl⟩
  · -- while a condition's threads are woken its mutex is locked, so nobody is at the wait head
    have hwalk : ∀ c, (k.pc k.current).inCond = some c → ∀ u, (k.pc u).walking ≠ some (c, k.current) := by
      intro c hin u hu
      obtain ⟨l, hl⟩ := walking_notifying hu
      have hlocked := h.waits.locked u c l hl
      rw [hcond c hin] at hm
      obtain rfl := Option.some.inj hm
      rw [hfree] at hlocked
      exact nomatch hlocked
    have hlock : KernelOk mutexOf (k.lock m) := h.lock
    refine ⟨hlock.baseOk_goto plain_run nofun (fun hst => ?_) (fun c hin => Or.inr (hwalk c hin))
      (hlock.refs.goto_same hholds.1.symm hholds.2.symm nofun nofun), Or.inl hact⟩
    exact nomatch hact.symm.trans hst
  · refine h.goto_awake plain_run nofun hawake (Or.inl ?_)
      (h.refs.goto_same hholds.1.symm hholds.2.symm nofun nofun)
    rcases hin : (k.pc k.current).inCond with _ | c
    · rfl
    · rw [hcond c hin] at hnone
      exact nomatch hnone
  · refine h.block hact hboot plain_sleep rfl rfl (fun c hin => ?_)
      (h.refs.goto_same hholds.1.symm hholds.2.symm nofun nofun)
    rw [hcond c hin]
    rfl

end

end Threads

end Kernel64
