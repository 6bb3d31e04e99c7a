import Kernel64.Threads.Mutex

/-!
# What a step leaves alone

A step moves the running thread, and nothing else goes on to another place or gets or loses a mutex, but
for a thread that is just allocated. The queue of a condition changes only in the calls that name it, and
a thread becomes blocked in `condition_wait` only by calling it.
-/

namespace Kernel64

namespace Threads

/-- A call of `locking.c` that a thread may be in. -/
inductive Use where
  /-- `mutex_lock` -/
  | lock (m : ℕ)
  /-- `condition_wait` -/
  | cond (c : ℕ)
  /-- `condition_notify_all` -/
  | notify (c : ℕ)
  deriving DecidableEq

/-- The call of `locking.c` that a thread is in. -/
def Pc.use : Pc → Option Use
  | .enter (.mutex m) => some (.lock m)
  | .sleep (.mutex m) => some (.lock m)
  | .retry (.mutex m) => some (.lock m)
  | .enter (.relock c) => some (.cond c)
  | .sleep (.relock c) => some (.cond c)
  | .retry (.relock c) => some (.cond c)
  | .condSleep c => some (.cond c)
  | .condWoken c => some (.cond c)
  | .notify c _ => some (.notify c)
  | .advance c _ _ => some (.notify c)
  | _ => none

/-- The call of `locking.c` that a thread is in after the first step of a call. -/
def Call.use : Call → Option Use
  | .mutexLock m => some (.lock m)
  | .conditionWait c => some (.cond c)
  | .conditionNotifyAll c => some (.notify c)
  | _ => none

/-- Whether a call of `locking.c` is over after one step. -/
def Call.instant : Call → Bool
  | .mutexUnlock _ => true
  | .waitQueueNotify _ => true
  | _ => false

/-- The condition that a step is about. -/
def Act.cond : Act → Option ℕ
  | .call (.conditionWait c) => some c
  | .call (.waitQueueNotify (.cond c)) => some c
  | .call (.conditionNotifyAll c) => some c
  | _ => none

variable (mutexOf : ℕ → ℕ)

/-- The mutexes of a thread after the call it is in. -/
def Use.gain : Option Use → (ℕ → Bool) → ℕ → Bool
  | some (.lock m), h => Function.update h m true
  | some (.cond c), h => Function.update h (mutexOf c) true
  | _, h => h

/-- The mutexes of a thread after the first step of a call. -/
def Call.lose : Call → (ℕ → Bool) → ℕ → Bool
  | .mutexUnlock m, h => Function.update h m false
  | .conditionWait c, h => Function.update h (mutexOf c) false
  | _, h => h

/-- A thread is blocked in `condition_wait` and was not woken. -/
def Parked (k : Kernel) (c : ℕ) (t : Tid) : Prop :=
  k.state t = .blocked ∧ (k.pc t).waitsOn mutexOf = some (.cond c)

/-- **What a step leaves alone.** -/
structure Frame (k : Kernel) (a : Act) (k' : Kernel) : Prop where
  others : ∀ t, t ≠ k.current → (k'.pc t = k.pc t ∧ k'.held t = k.held t) ∨
    (k.used t = false ∧ t ≠ bootstrap ∧ k'.pc t = .newborn)
  cond : ∀ c, a.cond ≠ some c → k'.queue (.cond c) = k.queue (.cond c)
  parked : ∀ c t, Parked mutexOf k' c t →
    Parked mutexOf k c t ∨ (a = .call (.conditionWait c) ∧ t = k.current)

/-- How the running thread goes on in its call. -/
structure Onwards (k k' : Kernel) : Prop where
  inUse : (k.pc k.current).use ≠ none →
    ((k'.pc k.current).use = (k.pc k.current).use ∧ k'.held k.current = k.held k.current) ∨
      (k'.pc k.current = .run ∧
        k'.held k.current = Use.gain mutexOf (k.pc k.current).use (k.held k.current))
  outside : (k.pc k.current).use = none →
    (k'.pc k.current).use = none ∧ k'.held k.current = k.held k.current ∧
      (k.pc k.current = .newborn → k'.pc k.current = .run)

/-- Nothing changed but the queues of the mutexes, the states of threads that do not become blocked, and
what the scheduler keeps. -/
structure Still (k k' : Kernel) : Prop where
  pc : k'.pc = k.pc
  held : k'.held = k.held
  cond : ∀ c, k'.queue (.cond c) = k.queue (.cond c)
  blocked : ∀ t, k'.state t = .blocked → k.state t = .blocked

section

variable {mutexOf} {k k' : Kernel} {t : Tid} {p : Pc} {a : Act}

/-! ### Parts of steps -/

theorem Still.refl (k : Kernel) : Still k k := ⟨rfl, rfl, fun _ => rfl, fun _ h => h⟩

theorem Still.trans {k₁ : Kernel} (h : Still k k₁) (h' : Still k₁ k') : Still k k' :=
  ⟨h'.pc.trans h.pc, h'.held.trans h.held, fun c => (h'.cond c).trans (h.cond c),
    fun t ht => h.blocked t (h'.blocked t ht)⟩

theorem still_setState {st : ThreadState} (hst : st ≠ .blocked) : Still k (k.setState t st) := by
  refine ⟨rfl, rfl, fun _ => rfl, fun u hu => ?_⟩
  change Function.update k.state t st u = .blocked at hu
  rw [Function.update_apply] at hu
  split_ifs at hu with hut
  · exact absurd hu hst
  · exact hu

theorem still_wake : Still k (k.wake t) := by
  refine ⟨rfl, rfl, fun _ => rfl, fun u hu => ?_⟩
  change Function.update k.state t .active u = .blocked at hu
  rw [Function.update_apply] at hu
  split_ifs at hu
  exact hu

/-- Wait heads are taken out of a queue that is not one of a condition. -/
theorem still_queue {q : Queue} {l : List Tid} (hq : ∀ c, q ≠ .cond c) :
    Still k { k with queue := Function.update k.queue q l } :=
  ⟨rfl, rfl, fun c => Function.update_of_ne (hq c).symm l k.queue, fun _ hu => hu⟩

theorem still_notified {q : Queue} (hq : ∀ c, q ≠ .cond c) : Still k (k.notified q) := by
  rw [Kernel.notified]
  cases k.queue q with
  | nil => exact Still.refl k
  | cons t l => exact (still_queue hq).trans still_wake

theorem still_switched {l : List Tid} {next : Tid} : Still k (k.switched l next) := by
  refine ⟨rfl, rfl, fun _ => rfl, fun t ht => ?_⟩
  simp only [Kernel.switched] at ht
  split_ifs at ht
  · rw [Function.update_apply] at ht
    split_ifs at ht
    exact ht
  · exact ht

theorem yields_schedule_still : Yields schedule k fun _ k' => Still k k' := by
  have hswitch : ∀ l next, Yields (switchTo next) { k with active := l } fun _ k' => Still k k' := by
    intro l next
    refine ensures_switchTo.yields.mono fun _ k' hk' => ?_
    rw [hk']
    exact still_switched
  rw [schedule, rrNextThread]
  refine Yields.bind (Yields.bind (ensures_get.2 ?_).yields)
  cases k.active with
  | nil =>
    refine yields_pure (Yields.bind (ensures_get.2 ?_).yields)
    rw [if_neg (by simp)]
    split_ifs
    · exact yields_pure (Still.refl k)
    · exact hswitch k.active _
  | cons t l =>
    refine Yields.bind (ensures_set.2 ?_).yields
    refine yields_pure (Yields.bind (ensures_get.2 ?_).yields)
    have hset : Still k { k with active := l } := ⟨rfl, rfl, fun _ => rfl, fun _ hu => hu⟩
    split_ifs
    · exact yields_pure hset
    · exact yields_pure hset
    · exact hswitch l _

theorem yields_activateThread_still :
    Yields (activateThread t) k fun _ k' => Still k k' ∧ k'.current = k.current := by
  rw [activateThread]
  split_ifs with hboot
  · exact yields_throw
  · refine Yields.bind (ensures_get.2 ?_).yields
    split_ifs with hst
    · have hact : Still k (k.setState t .active) := still_setState (by simp)
      refine Yields.bind (ensures_modify.2 ?_).yields
      rw [rrActivateThread]
      refine Yields.bind (ensures_get.2 ?_).yields
      split_ifs
      · exact (ensures_set.2 ⟨⟨hact.pc, hact.held, hact.cond, hact.blocked⟩, rfl⟩).yields
      · exact yields_throw
    · exact yields_pure ⟨Still.refl k, rfl⟩

theorem yields_waitQueueNotify_mutex_still {m : ℕ} :
    Yields (waitQueueNotify mutexOf (.mutex m)) k fun _ k' => Still k k' := by
  rw [waitQueueNotify]
  refine Yields.bind (ensures_get.2 ?_).yields
  cases k.queue (.mutex m) with
  | nil => exact yields_pure (Still.refl k)
  | cons t l =>
    simp only
    split_ifs
    · refine Yields.bind (ensures_set.2 ?_).yields
      refine yields_activateThread_still.mono fun _ k' h' => ?_
      exact (still_queue (q := .mutex m) (by simp)).trans h'.1
    · exact yields_throw

theorem yields_mutexUnlock_still {m : ℕ} :
    Yields (mutexUnlock mutexOf m) k fun _ k' => Still (k.unlock m) k' := by
  rw [mutexUnlock]
  exact Yields.bind (ensures_modify.2 yields_waitQueueNotify_mutex_still).yields

/-- `__wait_queue_notify` of a condition. -/
theorem notified_cond {c c' : ℕ} (h : c' ≠ c) :
    (k.notified (.cond c)).queue (.cond c') = k.queue (.cond c') := by
  rw [Kernel.notified]
  cases k.queue (.cond c) with
  | nil => rfl
  | cons t l => exact Function.update_of_ne (fun hc => h (Queue.cond.inj hc)) _ _

theorem notified_parts {q : Queue} :
    (k.notified q).pc = k.pc ∧ (k.notified q).held = k.held ∧
      ∀ t, (k.notified q).state t = .blocked → k.state t = .blocked := by
  rw [Kernel.notified]
  cases k.queue q with
  | nil => exact ⟨rfl, rfl, fun _ ht => ht⟩
  | cons t l =>
    refine ⟨rfl, rfl, fun u hu => ?_⟩
    exact (still_wake (k := k) (t := t)).blocked u hu

/-- A step that moves nobody. -/
theorem Still.frame (h : Still k k') : Frame mutexOf k a k' := by
  refine ⟨fun t _ => Or.inl ⟨by rw [h.pc], by rw [h.held]⟩, fun c _ => h.cond c, fun c t ht => Or.inl ?_⟩
  exact ⟨h.blocked t ht.1, h.pc ▸ ht.2⟩

/-- The running thread moves to a place where it is not blocked in `condition_wait`, or was so before. -/
theorem Still.frame_goto (h : Still (k.goto p) k')
    (hp : ∀ c, p.waitsOn mutexOf = some (.cond c) → (k.pc k.current).waitsOn mutexOf = some (.cond c)) :
    Frame mutexOf k a k' := by
  have hpc : ∀ u, k'.pc u = if u = k.current then p else k.pc u := fun u => by rw [h.pc, goto_pc]
  refine ⟨fun t ht => Or.inl ⟨?_, by rw [h.held]; rfl⟩, fun c _ => h.cond c,
    fun c t ht => Or.inl ⟨h.blocked t ht.1, ?_⟩⟩
  · rw [hpc, if_neg ht]
  · have hw := ht.2
    rw [hpc] at hw
    split_ifs at hw with htc
    · rw [htc]
      exact hp c hw
    · exact hw

theorem Still.pc_current (h : Still (k.goto p) k') : k'.pc k.current = p := by
  rw [h.pc]
  exact Function.update_self _ _ _

/-- The running thread goes on at a place of the same call. -/
theorem Still.onwards (h : Still (k.goto p) k') (hp : p.use = (k.pc k.current).use)
    (hnew : k.pc k.current = .newborn → p = .run) : Onwards mutexOf k k' := by
  have hheld : k'.held k.current = k.held k.current := by rw [h.held]; rfl
  refine ⟨fun _ => Or.inl ⟨?_, hheld⟩, fun hnone => ⟨?_, hheld, fun hc => ?_⟩⟩
  · rw [h.pc_current, hp]
  · rw [h.pc_current, hp, hnone]
  · rw [h.pc_current, hnew hc]

theorem Still.goto {k₁ : Kernel} (h : Still k k₁) (hcur : k₁.current = k.current) :
    Still (k.goto p) (k₁.goto p) := by
  refine ⟨?_, h.held, h.cond, h.blocked⟩
  rw [Kernel.goto, Kernel.goto, hcur, h.pc]

/-! ### Calls -/

/-- The first step of a call. -/
structure Started (mutexOf : ℕ → ℕ) (k : Kernel) (c : Call) (k' : Kernel) : Prop where
  frame : Frame mutexOf k (.call c) k'
  use : (k'.pc k.current).use = c.use
  instant : c.instant = true → k'.pc k.current = .run
  held : k'.held k.current = c.lose mutexOf (k.held k.current)

/-- The running thread makes its first step in a call, from `k₁` with the same threads. -/
theorem Still.started {c : Call} (h : Still (k.goto p) k') (hp : p.use = c.use) (hc : c.instant = false)
    (hlose : c.lose mutexOf (k.held k.current) = k.held k.current)
    (hw : ∀ c, p.waitsOn mutexOf ≠ some (.cond c)) : Started mutexOf k c k' := by
  refine ⟨h.frame_goto fun c hpc => absurd hpc (hw c), ?_, fun hi => ?_, ?_⟩
  · rw [h.pc_current, hp]
  · rw [hc] at hi
    exact nomatch hi
  · rw [hlose, h.held]
    rfl

theorem unlock_held (m : ℕ) : (k.unlock m).held k.current = Function.update (k.held k.current) m false :=
  Function.update_self _ _ _

theorem unlock_held_of_ne {m : ℕ} (ht : t ≠ k.current) : (k.unlock m).held t = k.held t :=
  Function.update_of_ne ht _ _

/-- A thread that is not in use is not running, and in no call. -/
theorem KernelOk.unused (h : KernelOk mutexOf k) (hused : k.used t = false) (hb : t ≠ bootstrap) :
    t ≠ k.current ∧ (k.pc t).Inert := by
  have hout : t ∉ k.threads := fun ht => by
    have hcount := h.refs.used_of_owned (owners_pos_of_mem ht)
    exact nomatch hused.symm.trans hcount
  exact (h.life.unregistered t hb hout).2

/-- A call that gives no mutex away and takes none. -/
theorem started_of_still {c : Call} {m : KernelM Unit} (hrun : k.pc k.current = .run) (huse : c.use = none)
    (hinstant : c.instant = false) (hlose : ∀ f, c.lose mutexOf f = f) (hm : Yields m k fun _ k' => Still k k') :
    Yields m k fun _ k' => Started mutexOf k c k' := by
  refine hm.mono fun _ k' hk' => ⟨hk'.frame, ?_, fun hi => ?_, ?_⟩
  · rw [hk'.pc, hrun, huse]
    rfl
  · cases hinstant.symm.trans hi
  · rw [hk'.held, hlose]

theorem started_mutexUnlock {m : ℕ} (hrun : k.pc k.current = .run) :
    Yields (mutexUnlock mutexOf m) k fun _ k' => Started mutexOf k (.mutexUnlock m) k' := by
  refine yields_mutexUnlock_still.mono fun _ k' hs => ?_
  refine ⟨⟨fun t ht => Or.inl ⟨?_, ?_⟩, fun c _ => hs.cond c, fun c t ht => Or.inl ⟨hs.blocked t ht.1, ?_⟩⟩,
    ?_, fun _ => ?_, ?_⟩
  · rw [hs.pc]
    rfl
  · rw [hs.held, unlock_held_of_ne ht]
  · exact hs.pc ▸ ht.2
  · rw [hs.pc]
    exact congrArg Pc.use hrun
  · rw [hs.pc]
    exact hrun
  · rw [hs.held, unlock_held]
    rfl

/-- `condition_wait` goes to sleep on the condition first, and gives the mutex away then. -/
theorem started_conditionWait {c : ℕ} :
    Yields (conditionWait mutexOf c) k fun _ k' => Started mutexOf k (.conditionWait c) k' := by
  rw [conditionWait]
  refine Yields.bind (ensures_modify.2 ?_).yields
  refine yields_mutexUnlock_still.mono fun _ k' hs => ?_
  have hpc : ∀ u, k'.pc u = if u = k.current then .condSleep c else k.pc u := fun u => by
    rw [hs.pc]
    exact goto_pc _ _ u
  refine ⟨⟨fun t ht => Or.inl ⟨?_, ?_⟩, fun c' hc' => ?_, fun c' t ht => ?_⟩, ?_, (by rintro ⟨⟩), ?_⟩
  · rw [hpc, if_neg ht]
  · rw [hs.held]
    exact Function.update_of_ne ht _ _
  · rw [hs.cond]
    exact Function.update_of_ne (fun hcc => hc' (congrArg some (Queue.cond.inj hcc).symm)) _ _
  · -- the running thread is the only one that blocks
    by_cases htc : t = k.current
    · have hw := ht.2
      rw [hpc, if_pos htc] at hw
      have hcc : c = c' := Queue.cond.inj (Option.some.inj hw)
      exact Or.inr ⟨by rw [hcc], htc⟩
    · have hst := hs.blocked t ht.1
      have hw := ht.2
      rw [hpc, if_neg htc] at hw
      exact Or.inl ⟨(Function.update_of_ne htc _ _).symm.trans hst, hw⟩
  · rw [hpc, if_pos rfl]
    rfl
  · rw [hs.held]
    exact Function.update_self _ _ _

theorem KernelOk.started_notify {q : Queue} (h : KernelOk mutexOf k) (hrun : k.pc k.current = .run) :
    Yields (waitQueueNotify mutexOf q) k fun _ k' => Started mutexOf k (.waitQueueNotify q) k' := by
  have hact := h.active_of_awake (by rw [hrun]; rfl)
  refine (h.ensures_waitQueueNotify (Or.inl hact)).yields.mono fun _ k' hr => ?_
  obtain ⟨hk', _⟩ := hr
  obtain ⟨hpc, hheld, hblocked⟩ := notified_parts (k := k) (q := q)
  rw [← hk'] at hpc hheld hblocked
  refine ⟨⟨fun t _ => Or.inl ⟨by rw [hpc], by rw [hheld]⟩, fun c hcond => ?_,
    fun c t ht => Or.inl ⟨hblocked t ht.1, hpc ▸ ht.2⟩⟩, ?_, fun _ => ?_, ?_⟩
  · rw [hk']
    cases q with
    | cond c' => exact notified_cond fun hcc => hcond (congrArg some hcc.symm)
    | mutex m => exact (still_notified (q := .mutex m) (by simp)).cond c
    | event e => exact (still_notified (q := .event e) (by simp)).cond c
  · rw [hpc, hrun]
    rfl
  · rw [hpc, hrun]
  · rw [hheld]
    rfl

/-- `condition_notify_all` empties the queue, and keeps the list it took. -/
theorem started_notifyAll {c : ℕ} :
    Yields (start mutexOf (.conditionNotifyAll c)) k fun _ k' => Started mutexOf k (.conditionNotifyAll c) k' := by
  rw [start]
  refine Yields.bind (ensures_get.2 ?_).yields
  refine Yields.bind (ensures_set.2 ?_).yields
  refine (ensures_modify.2 ⟨⟨fun t ht => Or.inl ⟨?_, rfl⟩, fun c' hc' => ?_, fun c' t ht => Or.inl ⟨ht.1, ?_⟩⟩,
    ?_, (by rintro ⟨⟩), rfl⟩).yields
  · exact Function.update_of_ne ht _ _
  · exact Function.update_of_ne (fun hcc => hc' (congrArg some (Queue.cond.inj hcc).symm)) _ _
  · have hw := ht.2
    rw [goto_pc] at hw
    split_ifs at hw
    · cases hw
    · exact hw
  · rw [goto_pc, if_pos rfl]
    rfl

/-- A new thread is not one of the threads so far. -/
theorem KernelOk.started_create {t : Tid} (h : KernelOk mutexOf k) (hrun : k.pc k.current = .run) :
    Yields (start mutexOf (.createThread (some t))) k fun _ k' => Started mutexOf k (.createThread (some t)) k' := by
  rw [start]
  refine Yields.bind (ensures_get.2 ?_).yields
  split_ifs with hnew
  · rw [allocThread]
    refine Yields.bind (ensures_modify.2 ?_).yields
    have hne : k.current ≠ t := (h.unused hnew.1 hnew.2).1.symm
    refine (ensures_modify.2 ?_).yields
    set k₁ : Kernel := { k with
      used := Function.update k.used t true
      state := Function.update k.state t .blocked
      refcount := Function.update k.refcount t 1
      pid := Function.update k.pid t (-1)
      pc := Function.update k.pc t .newborn
      held := Function.update k.held t fun _ => false } with hk₁
    have hpc : ∀ u, (k₁.goto (.register t)).pc u =
        if u = k.current then .register t else if u = t then .newborn else k.pc u := by
      intro u
      rw [goto_pc]
      split_ifs with h₁ h₂
      · rfl
      · rw [h₂]
        exact Function.update_self _ _ _
      · exact Function.update_of_ne h₂ _ _
    refine ⟨⟨fun u hu => ?_, fun _ _ => rfl, fun c u hu => Or.inl ?_⟩, ?_, (by rintro ⟨⟩), ?_⟩
    · rw [hpc, if_neg hu]
      by_cases hut : u = t
      · rw [if_pos hut, hut]
        exact Or.inr ⟨hnew.1, hnew.2, rfl⟩
      · rw [if_neg hut]
        exact Or.inl ⟨rfl, Function.update_of_ne hut _ _⟩
    · -- the new thread is blocked, but not in `condition_wait`
      have hw := hu.2
      rw [hpc] at hw
      split_ifs at hw with h₁ h₂
      · cases hw
      · cases hw
      · exact ⟨(Function.update_of_ne h₂ _ _).symm.trans hu.1, hw⟩
    · rw [hpc, if_pos rfl]
      rfl
    · exact Function.update_of_ne hne _ _
  · exact started_of_still hrun rfl rfl (fun _ => rfl) (yields_pure (Still.refl k))

theorem started_lookup {c : Call} {pid : ℤ} {p : Tid → Pc} (hrun : k.pc k.current = .run)
    (huse : c.use = none) (hp : ∀ t, (p t).use = none) (hc : c.instant = false)
    (hlose : ∀ f, c.lose mutexOf f = f) (hw : ∀ t c, (p t).waitsOn mutexOf ≠ some (.cond c)) :
    Yields (do
      match ← lookupThread pid with
      | none => return ()
      | some t => goto (p t)) k fun _ k' => Started mutexOf k c k' := by
  rw [lookupThread]
  refine Yields.bind (Yields.bind (ensures_get.2 ?_).yields)
  cases k.threads.find? fun t => k.pid t = pid with
  | none => exact yields_pure (started_of_still hrun huse hc hlose (yields_pure (Still.refl k)))
  | some t =>
    refine Yields.bind (ensures_set.2 ?_).yields
    refine yields_pure ((ensures_modify.2 ?_).yields)
    have hset : Still (k.goto (p t)) ({ k with
        refcount := Function.update k.refcount t (k.refcount t + 1) }.goto (p t)) :=
      ⟨rfl, rfl, fun _ => rfl, fun _ hu => hu⟩
    exact hset.started ((hp t).trans huse.symm) hc (hlose _) (hw t)

/-- **What the first step of a call does.** -/
theorem KernelOk.started {c : Call} (h : KernelOk mutexOf k) (hrun : k.pc k.current = .run) :
    Yields (start mutexOf c) k fun _ k' => Started mutexOf k c k' := by
  cases c with
  | mutexLock m =>
    have hs : Still (k.goto (.enter (.mutex m))) _ := Still.refl _
    exact (ensures_modify.2 (hs.started rfl rfl rfl fun _ hw => (by cases hw))).yields
  | waitEvent q =>
    have hs : Still (k.goto (.enter (.event q))) _ := Still.refl _
    exact (ensures_modify.2 (hs.started rfl rfl rfl fun _ hw => (by cases hw))).yields
  | mutexUnlock m => exact started_mutexUnlock hrun
  | conditionWait c => exact started_conditionWait
  | waitQueueNotify q => exact h.started_notify hrun
  | conditionNotifyAll c => exact started_notifyAll
  | schedule => exact started_of_still hrun rfl rfl (fun _ => rfl) yields_schedule_still
  | exit =>
    rw [start]
    refine Yields.bind (ensures_modify.2 ?_).yields
    refine yields_schedule_still.mono fun _ k' hk' => ?_
    have hset : Still k (k.setState k.current .finished) := still_setState (by simp)
    exact (Still.trans (hset.goto rfl) hk').started rfl rfl rfl fun _ hw => (by cases hw)
  | createThread t =>
    cases t with
    | none => exact started_of_still hrun rfl rfl (fun _ => rfl) (yields_pure (Still.refl k))
    | some t => exact h.started_create hrun
  | wait pid => exact started_lookup hrun rfl (fun _ => rfl) rfl (fun _ => rfl) fun _ _ hw => (by cases hw)
  | lookup pid => exact started_lookup hrun rfl (fun _ => rfl) rfl (fun _ => rfl) fun _ _ hw => (by cases hw)

/-! ### Going on -/

/-- The running thread goes on at another place of its call, which it has not blocked at. -/
theorem Still.moved (h : Still (k.goto p) k') (hp : p.use = (k.pc k.current).use)
    (hnew : k.pc k.current = .newborn → p = .run)
    (hw : ∀ c, p.waitsOn mutexOf = some (.cond c) → (k.pc k.current).waitsOn mutexOf = some (.cond c)) :
    Frame mutexOf k a k' ∧ Onwards mutexOf k k' :=
  ⟨h.frame_goto hw, h.onwards hp hnew⟩

/-- A call that notifies is over. -/
theorem moved_notified {c : ℕ} {l : List Tid} (hpc : k.pc k.current = .notify c l) :
    Frame mutexOf k a (k.goto .run) ∧ Onwards mutexOf k (k.goto .run) := by
  have hself : (k.goto .run).pc k.current = .run := Function.update_self _ _ _
  refine ⟨(Still.refl _).frame_goto (p := .run) fun c hw => (nomatch hw), fun _ => Or.inr ⟨hself, ?_⟩,
    fun hc => ?_⟩
  · rw [hpc]
    rfl
  · rw [hpc] at hc
    exact nomatch hc

/-- The call that a `WAIT_EVENT` belongs to. -/
theorem use_wait {w : Wait} :
    (Pc.enter w).use = (Pc.sleep w).use ∧ (Pc.retry w).use = (Pc.sleep w).use := by
  cases w <;> exact ⟨rfl, rfl⟩

/-- **A turn of `WAIT_EVENT`**: the thread got the mutex, or it goes on waiting. -/
theorem moved_turned {w : Wait} (hpc : k.pc k.current = .enter w ∨ k.pc k.current = .retry w)
    (hturn : Turned mutexOf w k k') : Frame mutexOf k a k' ∧ Onwards mutexOf k k' := by
  have huse : (k.pc k.current).use = (Pc.sleep w).use := by
    rcases hpc with hpc | hpc <;> rw [hpc]
    · exact use_wait.1
    · exact use_wait.2
  have hnew : k.pc k.current ≠ .newborn := by
    rcases hpc with hpc | hpc <;> rw [hpc] <;> exact nofun
  rcases hturn with ⟨m, hm, -, rfl⟩ | ⟨hnone, rfl⟩ | ⟨-, rfl⟩
  · -- it got the mutex, and the call is over
    have hself : ((k.lock m).goto .run).pc k.current = .run := Function.update_self _ _ _
    have hgain : Use.gain mutexOf (Pc.sleep w).use (k.held k.current) =
        Function.update (k.held k.current) m true := by
      cases w with
      | event q => exact nomatch hm
      | mutex m' => rw [← Option.some.inj hm]; rfl
      | relock c => rw [← Option.some.inj hm]; rfl
    refine ⟨⟨fun t ht => Or.inl ⟨Function.update_of_ne ht _ _, Function.update_of_ne ht _ _⟩,
      fun _ _ => rfl, fun c t ht => Or.inl ⟨ht.1, ?_⟩⟩, fun _ => Or.inr ⟨hself, ?_⟩, fun hc => ?_⟩
    · have hw := ht.2
      rw [goto_pc] at hw
      split_ifs at hw
      · exact nomatch hw
      · exact hw
    · rw [huse, hgain]
      exact Function.update_self _ _ _
    · rw [huse] at hc
      cases w with
      | event q => exact nomatch hm
      | mutex m' => exact nomatch hc
      | relock c => exact nomatch hc
  · -- the event is there: no mutex is taken
    refine (Still.refl (k.goto .run)).moved ?_ (fun hc => absurd hc hnew) fun c hw => (nomatch hw)
    rw [huse]
    cases w with
    | event q => rfl
    | mutex m => exact nomatch hnone
    | relock c => exact nomatch hnone
  · -- it goes to sleep, on a queue that is not one of a condition
    have hpc' : ∀ u, (k.block (w.queue mutexOf) (.sleep w)).pc u =
        if u = k.current then .sleep w else k.pc u := fun u => goto_pc _ _ u
    have hqueue : ∀ c, Queue.cond c ≠ w.queue mutexOf := by
      intro c
      cases w <;> exact nofun
    refine ⟨⟨fun t ht => Or.inl ⟨Function.update_of_ne ht _ _, rfl⟩,
      fun c _ => Function.update_of_ne (hqueue c) _ _, fun c t ht => Or.inl ?_⟩,
      fun _ => Or.inl ⟨?_, rfl⟩, fun hc => ⟨?_, rfl, fun hc => absurd hc hnew⟩⟩
    · have hw := ht.2
      rw [hpc'] at hw
      split_ifs at hw with htc
      · exact absurd (Option.some.inj hw).symm (hqueue c)
      · exact ⟨(Function.update_of_ne htc _ _).symm.trans ht.1, hw⟩
    · rw [hpc', if_pos rfl, huse]
    · rw [hpc', if_pos rfl, ← huse, hc]

/-- **How the running thread goes on in a call.** -/
theorem moved_resume {b : Bool} (hpc : k.pc k.current = p) (hp : p ≠ .run) :
    Yields (resume mutexOf b p) k fun _ k' => Frame mutexOf k a k' ∧ Onwards mutexOf k k' := by
  have hgoto : ∀ p' : Pc, p'.use = p.use → (p = .newborn → p' = .run) →
      (∀ c, p'.waitsOn mutexOf = some (.cond c) → p.waitsOn mutexOf = some (.cond c)) →
      ∀ k', Still (k.goto p') k' → Frame mutexOf k a k' ∧ Onwards mutexOf k k' := by
    intro p' h₁ h₂ h₃ k' hk'
    rw [← hpc] at h₁ h₂ h₃
    exact hk'.moved h₁ h₂ h₃
  -- most places only lead to the next one, perhaps through `schedule`
  cases p with
  | newborn => exact (ensures_modify.2 (hgoto .run rfl (fun _ => rfl) (by rintro _ ⟨⟩) _ (Still.refl _))).yields
  | run => exact absurd rfl hp
  | enter w => exact ensures_turn.yields.mono fun _ k' => moved_turned (Or.inl hpc)
  | sleep w =>
    refine Yields.bind (ensures_modify.2 ?_).yields
    exact yields_schedule_still.mono fun _ k' => hgoto (.retry w) use_wait.2 (by simp) (fun c hw => hw) k'
  | retry w => exact ensures_turn.yields.mono fun _ k' => moved_turned (Or.inr hpc)
  | condSleep c =>
    refine Yields.bind (ensures_modify.2 ?_).yields
    exact yields_schedule_still.mono fun _ k' => hgoto (.condWoken c) rfl (by simp) (fun c hw => hw) k'
  | condWoken c =>
    exact (ensures_modify.2 (hgoto (.enter (.relock c)) rfl (by simp) (by rintro _ ⟨⟩) _ (Still.refl _))).yields
  | notify c l =>
    cases l with
    | nil => exact (ensures_modify.2 (moved_notified hpc)).yields
    | cons t l =>
      rw [resume]
      refine Yields.bind (ensures_get.2 ?_).yields
      split_ifs
      · refine Yields.bind (yields_activateThread_still.mono fun _ k₁ hr => ?_)
        obtain ⟨h₁, hcur⟩ := hr
        refine (ensures_modify.2 ?_).yields
        exact hgoto (.advance c t l) rfl (by simp) (by rintro _ ⟨⟩) _ (h₁.goto hcur)
      · exact yields_throw
  | advance c t l =>
    rw [resume]
    refine Yields.bind (ensures_get.2 ?_).yields
    split_ifs
    · exact (ensures_modify.2 (hgoto (.notify c l) rfl (by simp) (by rintro _ ⟨⟩) _ (Still.refl _))).yields
    · exact yields_throw
  | register t =>
    rw [resume]
    split_ifs
    · rw [registerThread]
      refine Yields.bind (Yields.bind (ensures_get.2 ?_).yields)
      cases nextFreePid (k.threads.map k.pid) (k.threads.length + 1) k.nextPid with
      | none => exact yields_throw
      | some i =>
        refine Yields.bind (ensures_set.2 ?_).yields
        refine yields_pure ((ensures_modify.2 ?_).yields)
        exact hgoto (.lookup t i) rfl (by simp) (by rintro _ ⟨⟩) _ ⟨rfl, rfl, fun _ => rfl, fun _ hu => hu⟩
    · exact (ensures_modify.2 (hgoto (.put t) rfl (by simp) (by rintro _ ⟨⟩) _ (Still.refl _))).yields
  | lookup t pid =>
    rw [resume, lookupThread]
    refine Yields.bind (Yields.bind (ensures_get.2 ?_).yields)
    cases k.threads.find? fun t => k.pid t = pid with
    | none => exact yields_pure yields_throw
    | some t' =>
      refine Yields.bind (ensures_set.2 ?_).yields
      refine yields_pure ((ensures_modify.2 ?_).yields)
      exact hgoto (.activate t') rfl (by simp) (by rintro _ ⟨⟩) _ ⟨rfl, rfl, fun _ => rfl, fun _ hu => hu⟩
  | activate t =>
    rw [resume]
    refine Yields.bind (yields_activateThread_still.mono fun _ k₁ hr => ?_)
    obtain ⟨h₁, hcur⟩ := hr
    refine (ensures_modify.2 ?_).yields
    exact hgoto (.put t) rfl (by simp) (by rintro _ ⟨⟩) _ (h₁.goto hcur)
  | put t =>
    rw [resume, putThread]
    refine Yields.bind (Yields.bind (ensures_get.2 (ensures_set.2 ?_).yields).yields)
    refine (ensures_modify.2 ?_).yields
    exact hgoto .run rfl (by simp) (by rintro _ ⟨⟩) _ ⟨rfl, rfl, fun _ => rfl, fun _ hu => hu⟩
  | waiting t =>
    rw [resume]
    refine Yields.bind (ensures_get.2 ?_).yields
    split_ifs
    · exact (ensures_modify.2 (hgoto (.reap t) rfl (by simp) (by rintro _ ⟨⟩) _ (Still.refl _))).yields
    · exact (ensures_modify.2 (hgoto (.yielding t) rfl (by simp) (by rintro _ ⟨⟩) _ (Still.refl _))).yields
  | yielding t =>
    refine Yields.bind (ensures_modify.2 ?_).yields
    exact yields_schedule_still.mono fun _ k' => hgoto (.waiting t) rfl (by simp) (by rintro _ ⟨⟩) k'
  | reap t =>
    rw [resume]
    refine Yields.bind (ensures_get.2 ?_).yields
    refine Yields.bind (ensures_set.2 ?_).yields
    have hset : Still k (k.setState t .reaped) := still_setState (by simp)
    split_ifs
    · exact (ensures_modify.2 (hgoto (.put t) rfl (by simp) (by rintro _ ⟨⟩) _ (hset.goto rfl))).yields
    · exact (ensures_modify.2 (hgoto (.erase t) rfl (by simp) (by rintro _ ⟨⟩) _ (hset.goto rfl))).yields
  | erase t =>
    rw [resume]
    refine Yields.bind (ensures_modify.2 ?_).yields
    refine (ensures_modify.2 ?_).yields
    exact hgoto (.putReaped t) rfl (by simp) (by rintro _ ⟨⟩) _ ⟨rfl, rfl, fun _ => rfl, fun _ hu => hu⟩
  | putReaped t =>
    rw [resume, putThread]
    refine Yields.bind (Yields.bind (ensures_get.2 (ensures_set.2 ?_).yields).yields)
    refine (ensures_modify.2 ?_).yields
    exact hgoto (.put t) rfl (by simp) (by rintro _ ⟨⟩) _ ⟨rfl, rfl, fun _ => rfl, fun _ hu => hu⟩
  | exited => exact yields_throw

/-! ### Steps of a run -/

theorem MutexRun.ensures_call (hrun : MutexRun mutexOf k) {c : Call}
    (ha : (Act.call c).Disciplined mutexOf k) :
    Ensures (perform mutexOf (.call c)) k fun _ k' => MutexRun mutexOf k' ∧ Started mutexOf k c k' := by
  obtain ⟨hk, hm⟩ := hrun.sound
  have hallowed := hm.allowed ha
  exact (hrun.ensures_perform ha).and_yields (hk.started hallowed.1)

theorem MutexRun.ensures_go (hrun : MutexRun mutexOf k) {b : Bool} (hp : k.pc k.current ≠ .run) :
    Ensures (perform mutexOf (.go b)) k fun _ k' => MutexRun mutexOf k' ∧
      Frame mutexOf k (.go b) k' ∧ Onwards mutexOf k k' := by
  have hgo : Yields (perform mutexOf (.go b)) k fun _ k' =>
      Frame mutexOf k (.go b) k' ∧ Onwards mutexOf k k' := yields_go (moved_resume rfl hp)
  exact (hrun.ensures_perform (show (Act.go b).Disciplined mutexOf k from hp)).and_yields hgo

theorem MutexRun.ensures_timer (hrun : MutexRun mutexOf k) :
    Ensures (perform mutexOf .timer) k fun _ k' => MutexRun mutexOf k' ∧ Still k k' :=
  (hrun.ensures_perform (show Act.timer.Disciplined mutexOf k from trivial)).and_yields
    yields_schedule_still

/-- `condition_wait` puts the running thread at the end of the queue. -/
theorem yields_conditionWait_queue {c : ℕ} :
    Yields (perform mutexOf (.call (.conditionWait c))) k fun _ k' =>
      k'.queue (.cond c) = k.queue (.cond c) ++ [k.current] := by
  rw [perform, start, conditionWait]
  refine Yields.bind (ensures_modify.2 ?_).yields
  refine yields_mutexUnlock_still.mono fun _ k' hs => ?_
  rw [hs.cond]
  exact Function.update_self _ _ _

end

end Threads

end Kernel64
