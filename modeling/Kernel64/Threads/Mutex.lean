import Kernel64.Threads.Runs

/-!
# Mutexes

A mutex is not handed over: a woken thread has to try again, and another thread may take the mutex
first. So the invariant counts on the woken threads that have not tried again yet: while a mutex is
unlocked and threads wait for it, there is such a thread.
-/

namespace Kernel64

namespace Threads

variable (mutexOf : ℕ → ℕ)

/-- When a step is allowed and every thread unlocks only what it locked. -/
def Act.Disciplined (k : Kernel) : Act → Prop
  | .call (.mutexUnlock m) => k.pc k.current = .run ∧ k.held k.current m = true
  | .call (.conditionWait c) => k.pc k.current = .run ∧ k.current ≠ bootstrap ∧
      k.held k.current (mutexOf c) = true
  | .call (.conditionNotifyAll c) => k.pc k.current = .run ∧ k.held k.current (mutexOf c) = true
  | a => a.Allowed mutexOf k

/-- A thread was woken for the mutex, and has not tried to lock it since. -/
def Woken (k : Kernel) (m : ℕ) : Prop :=
  ∃ t, t ∉ k.queue (.mutex m) ∧ k.state t = .active ∧ (k.pc t).waitsOn mutexOf = some (.mutex m)

/-- **The mutexes**: each has at most one owner, and wake-ups are not lost. -/
structure MutexOk (k : Kernel) : Prop where
  owned : ∀ t m, k.held t m = true → k.locked m = true
  excl : ∀ t u m, k.held t m = true → k.held u m = true → t = u
  notify : ∀ u c l, (k.pc u).notifying = some (c, l) → k.held u (mutexOf c) = true
  woken : ∀ m, k.locked m = false → k.queue (.mutex m) ≠ [] → Woken mutexOf k m

section

variable {mutexOf} {k k' : Kernel} {m : ℕ} {q : Queue}

/-- Who unlocks only what it locked leaves the mutex of a condition alone while it is needed. -/
theorem MutexOk.allowed (h : MutexOk mutexOf k) {a : Act} (ha : a.Disciplined mutexOf k) :
    a.Allowed mutexOf k := by
  have hfree : ∀ m, k.pc k.current = .run → k.held k.current m = true →
      ∀ u c l, (k.pc u).notifying = some (c, l) → mutexOf c ≠ m := by
    intro m hrun hheld u c l hu hc
    subst hc
    obtain rfl := h.excl u k.current _ (h.notify u c l hu) hheld
    rw [hrun] at hu
    exact nomatch hu
  cases a with
  | timer => exact ha
  | go b => exact ha
  | call c =>
    cases c with
    | mutexUnlock m => exact ⟨ha.1, hfree m ha.1 ha.2⟩
    | conditionWait c => exact ⟨ha.1, ha.2.1, hfree _ ha.1 ha.2.2⟩
    | conditionNotifyAll c => exact ⟨ha.1, h.owned _ _ ha.2⟩
    | _ => exact ha

/-! ### Steps -/

theorem MutexOk.quiet (h : MutexOk mutexOf k) (hq : Quiet mutexOf k k') : MutexOk mutexOf k' := by
  refine ⟨fun t m ht => ?_, fun t u m ht hu => h.excl t u m (hq.held t m ht) (hq.held u m hu),
    fun u c l hu => ?_, fun m hm hne => ?_⟩
  · rw [hq.locked]
    exact h.owned t m (hq.held t m ht)
  · obtain ⟨⟨l₀, hl₀⟩, hheld⟩ := hq.notifying u c l hu
    rw [hheld]
    exact h.notify u c l₀ hl₀
  · rw [hq.locked] at hm
    rw [hq.queue] at hne
    obtain ⟨t, hout, hst, hw⟩ := h.woken m hm hne
    obtain ⟨hw', hst'⟩ := hq.waits t m hw hst
    refine ⟨t, ?_, hst', hw'⟩
    rw [hq.queue]
    exact hout

/-- **Notifying** a queue: the thread woken is the one for its own mutex, and the other mutexes keep
theirs. -/
theorem MutexOk.notified (howned : ∀ t m, k.held t m = true → k.locked m = true)
    (hexcl : ∀ t u m, k.held t m = true → k.held u m = true → t = u)
    (hnotify : ∀ u c l, (k.pc u).notifying = some (c, l) → k.held u (mutexOf c) = true)
    (hwoken : ∀ m, .mutex m ≠ q → k.locked m = false → k.queue (.mutex m) ≠ [] → Woken mutexOf k m)
    (hq : ∀ t l, k.queue q = t :: l → t ∉ l ∧ (k.pc t).waitsOn mutexOf = some q) :
    MutexOk mutexOf (k.notified q) := by
  rw [Kernel.notified]
  cases hlist : k.queue q with
  | nil =>
    refine ⟨howned, hexcl, hnotify, fun m hm hne => hwoken m (fun hc => ?_) hm hne⟩
    exact hne (hc ▸ hlist)
  | cons t l =>
    obtain ⟨hout, hw⟩ := hq t l hlist
    refine ⟨howned, hexcl, hnotify, fun m hm hne => ?_⟩
    by_cases hmq : .mutex m = q
    · subst hmq
      refine ⟨t, ?_, Function.update_self _ _ _, hw⟩
      change t ∉ Function.update k.queue (.mutex m) l (.mutex m)
      rwa [Function.update_self]
    · have hqueue : Function.update k.queue q l (.mutex m) = k.queue (.mutex m) :=
        Function.update_of_ne hmq _ _
      change Function.update k.queue q l (.mutex m) ≠ [] at hne
      rw [hqueue] at hne
      obtain ⟨u, hu, hst, hw'⟩ := hwoken m hmq hm hne
      refine ⟨u, ?_, ?_, hw'⟩
      · change u ∉ Function.update k.queue q l (.mutex m)
        rwa [hqueue]
      · change Function.update k.state t .active u = .active
        rw [Function.update_apply]
        split_ifs
        · rfl
        · exact hst

theorem setHeld_held (k : Kernel) (m m' : ℕ) (b : Bool) (t : Tid) :
    (k.setHeld m b).held t m' = if t = k.current ∧ m' = m then b else k.held t m' := by
  simp only [Kernel.setHeld, Function.update_apply]
  split_ifs <;> simp_all

/-- **Locking** a mutex that nobody has. -/
theorem MutexOk.lock (h : MutexOk mutexOf k) (hfree : k.locked m = false) :
    MutexOk mutexOf (k.lock m) := by
  have hheld : ∀ t m', (k.lock m).held t m' = if t = k.current ∧ m' = m then true else k.held t m' :=
    fun t m' => setHeld_held _ _ _ _ _
  have hlocked : ∀ m', (k.lock m).locked m' = if m' = m then true else k.locked m' := fun m' =>
    Function.update_apply _ _ _ _
  have hnone : ∀ t, k.held t m ≠ true := fun t ht => by
    have := h.owned t m ht
    rw [hfree] at this
    exact nomatch this
  have hcases : ∀ t m', (k.lock m).held t m' = true → (t = k.current ∧ m' = m) ∨
      (m' ≠ m ∧ k.held t m' = true) := by
    intro t m' ht
    rw [hheld] at ht
    split_ifs at ht with hc
    · exact Or.inl hc
    · exact Or.inr ⟨fun hm => hnone t (hm ▸ ht), ht⟩
  refine ⟨fun t m' ht => ?_, fun t u m' ht hu => ?_, fun u c l hu => ?_, fun m' hm hne => ?_⟩
  · rw [hlocked]
    rcases hcases t m' ht with ⟨-, rfl⟩ | ⟨hne, ht⟩
    · rw [if_pos rfl]
    · rw [if_neg hne]
      exact h.owned t m' ht
  · rcases hcases t m' ht with ⟨rfl, rfl⟩ | ⟨hne, ht'⟩ <;>
      rcases hcases u m' hu with ⟨rfl, hm⟩ | ⟨hne', hu'⟩
    · rfl
    · exact absurd rfl hne'
    · exact absurd hm hne
    · exact h.excl t u m' ht' hu'
  · rw [hheld]
    split_ifs
    · rfl
    · exact h.notify u c l hu
  · rw [hlocked] at hm
    split_ifs at hm
    exact h.woken m' hm hne

/-- The running thread goes on; it was not one that an unlocked mutex counts on. -/
theorem MutexOk.goto {p : Pc} (h : MutexOk mutexOf k) (hp : p.notifying = none)
    (hw : ∀ m, k.locked m = false → (k.pc k.current).waitsOn mutexOf ≠ some (.mutex m)) :
    MutexOk mutexOf (k.goto p) := by
  refine ⟨h.owned, h.excl, fun u c l hu => ?_, fun m hm hne => ?_⟩
  · rw [goto_pc] at hu
    split_ifs at hu
    · exact nomatch hp.symm.trans hu
    · exact h.notify u c l hu
  · obtain ⟨t, hout, hst, hwait⟩ := h.woken m hm hne
    refine ⟨t, hout, hst, ?_⟩
    have htc : t ≠ k.current := fun hc => hw m hm (hc ▸ hwait)
    rw [goto_pc, if_neg htc]
    exact hwait

/-- The running thread blocks; the queue is not one of an unlocked mutex. -/
theorem MutexOk.block {p : Pc} (h : MutexOk mutexOf k) (hp : p.notifying = none)
    (hw : ∀ m, k.locked m = false → (k.pc k.current).waitsOn mutexOf ≠ some (.mutex m))
    (hq : ∀ m, q = .mutex m → k.locked m = true) : MutexOk mutexOf (k.block q p) := by
  have hgoto := h.goto hp hw
  refine ⟨hgoto.owned, hgoto.excl, hgoto.notify, fun m hm hne => ?_⟩
  have hmq : .mutex m ≠ q := fun hc => by
    have := hq m hc.symm
    exact nomatch this.symm.trans hm
  have hqueue : (k.block q p).queue (.mutex m) = k.queue (.mutex m) := Function.update_of_ne hmq _ _
  rw [hqueue] at hne
  obtain ⟨t, hout, hst, hwait⟩ := h.woken m hm hne
  have htc : t ≠ k.current := fun hc => hw m hm (hc ▸ hwait)
  refine ⟨t, by rwa [hqueue], (Function.update_of_ne htc _ _).trans hst, ?_⟩
  have hpc : (k.block q p).pc t = k.pc t := Function.update_of_ne htc _ _
  rw [hpc]
  exact hwait

theorem mutex_of_queue {w : Wait} (h : w.queue mutexOf = .mutex m) : w.mutex? mutexOf = some m := by
  cases w with
  | event q => exact nomatch h
  | mutex m' => exact congrArg some (Queue.mutex.inj h)
  | relock c => exact congrArg some (Queue.mutex.inj h)

/-- **A turn of `WAIT_EVENT`.** -/
theorem MutexOk.turned {w : Wait} (h : MutexOk mutexOf k)
    (hpc : k.pc k.current = .enter w ∨ k.pc k.current = .retry w) (hturn : Turned mutexOf w k k') :
    MutexOk mutexOf k' := by
  have hwait : ∀ m, (k.pc k.current).waitsOn mutexOf = some (.mutex m) → w.mutex? mutexOf = some m := by
    intro m hm
    rcases hpc with hpc | hpc <;> rw [hpc] at hm
    · exact nomatch hm
    · exact mutex_of_queue (Option.some.inj hm)
  rcases hturn with ⟨m, hm, hfree, rfl⟩ | ⟨hnone, rfl⟩ | ⟨hlocked, rfl⟩
  · refine (h.lock hfree).goto rfl fun m' hfree' hw => ?_
    have hmm := hm.symm.trans (hwait m' hw)
    obtain rfl := Option.some.inj hmm
    have hself : (k.lock m).locked m = true := Function.update_self _ _ _
    exact nomatch hself.symm.trans hfree'
  · exact h.goto rfl fun m' _ hw => nomatch hnone.symm.trans (hwait m' hw)
  · refine h.block rfl (fun m' hfree hw => ?_) fun m' hw => hlocked m' (mutex_of_queue hw)
    exact nomatch (hlocked m' (hwait m' hw)).symm.trans hfree

/-- **Unlocking**, from a state where the running thread waits for no mutex. -/
theorem MutexOk.unlocked (h : MutexOk mutexOf k) (hheld : k.held k.current m = true)
    (hno : (k.pc k.current).notifying = none)
    (hq : ∀ t l, k.queue (.mutex m) = t :: l → t ∉ l ∧ (k.pc t).waitsOn mutexOf = some (.mutex m)) :
    MutexOk mutexOf ((k.unlock m).notified (.mutex m)) := by
  have hu : ∀ t m', (k.unlock m).held t m' = if t = k.current ∧ m' = m then false else k.held t m' :=
    fun t m' => setHeld_held _ _ _ _ _
  have hle : ∀ t m', (k.unlock m).held t m' = true → k.held t m' = true ∧ m' ≠ m := by
    intro t m' ht
    rw [hu] at ht
    split_ifs at ht with hc
    refine ⟨ht, fun hm => hc ⟨?_, hm⟩⟩
    subst hm
    exact h.excl t k.current _ ht hheld
  have hlocked : ∀ m', m' ≠ m → (k.unlock m).locked m' = k.locked m' := fun m' hm =>
    Function.update_of_ne hm _ _
  refine MutexOk.notified (fun t m' ht => ?_) (fun t u m' ht hu' => ?_) (fun u c l hn => ?_)
    (fun m' hm hfree hne => ?_) hq
  · rw [hlocked m' (hle t m' ht).2]
    exact h.owned t m' (hle t m' ht).1
  · exact h.excl t u m' (hle t m' ht).1 (hle u m' hu').1
  · have hold := h.notify u c l hn
    rw [hu, if_neg]
    · exact hold
    · rintro ⟨rfl, -⟩
      exact nomatch hno.symm.trans hn
  · rw [hlocked m' fun hc => hm (hc ▸ rfl)] at hfree
    exact h.woken m' hfree hne

/-- The first thread of a queue is there once, and in the wait that put it there. -/
theorem WaitOk.head (h : WaitOk mutexOf k) {t : Tid} {l : List Tid} (hq : k.queue q = t :: l) :
    t ∉ l ∧ (k.pc t).waitsOn mutexOf = some q := by
  have hnd := h.nodup q
  rw [hq, List.nodup_cons] at hnd
  refine ⟨hnd.1, (h.queued q t ?_).2⟩
  rw [hq]
  exact List.mem_cons_self

/-- **Every step** keeps the mutexes sound. -/
theorem MutexOk.step (h : MutexOk mutexOf k) (hk : KernelOk mutexOf k) {a : Act}
    (ha : a.Disciplined mutexOf k) (heff : Effect mutexOf k k' a) : MutexOk mutexOf k' := by
  cases heff with
  | quiet hq => exact h.quiet hq
  | turn hpc hturn => exact h.turned hpc hturn
  | unlock hrun hk' =>
    rw [hk']
    exact h.unlocked ha.2 (by rw [hrun]; rfl) fun t l hq => hk.waits.head hq
  | @condWait c hrun hk' =>
    rw [hk']
    have hblock : MutexOk mutexOf (k.block (.cond c) (.condSleep c)) := by
      refine h.block rfl (fun m _ hw => ?_) nofun
      rw [hrun] at hw
      exact nomatch hw
    have hpc : (k.block (.cond c) (.condSleep c)).pc k.current = .condSleep c := Function.update_self _ _ _
    refine hblock.unlocked ha.2.2 ?_ fun t l hq => ?_
    · change ((k.block (.cond c) (.condSleep c)).pc k.current).notifying = none
      rw [hpc]
      rfl
    · have hne : Queue.mutex (mutexOf c) ≠ .cond c := nofun
      have hqueue : (k.block (.cond c) (.condSleep c)).queue (.mutex (mutexOf c)) =
          k.queue (.mutex (mutexOf c)) :=
        Function.update_of_ne hne (k.queue (.cond c) ++ [k.current]) k.queue
      rw [hqueue] at hq
      obtain ⟨hout, hw⟩ := hk.waits.head hq
      have htc : t ≠ k.current := fun hc => by
        rw [hc, hrun] at hw
        exact nomatch hw
      have hsame : (k.block (.cond c) (.condSleep c)).pc t = k.pc t := Function.update_of_ne htc _ _
      rw [hsame]
      exact ⟨hout, hw⟩
  | notify hk' =>
    rw [hk']
    exact MutexOk.notified h.owned h.excl h.notify (fun m _ => h.woken m) fun t l hq => hk.waits.head hq
  | @splice c hrun hk' =>
    rw [hk']
    refine ⟨h.owned, h.excl, fun u c' l hu => ?_, fun m hm hne => ?_⟩
    · rw [goto_pc] at hu
      split_ifs at hu with huc
      · obtain ⟨rfl, rfl⟩ := Prod.mk.inj (Option.some.inj hu)
        rw [huc]
        exact ha.2
      · exact h.notify u c' l hu
    · have hne' : Queue.mutex m ≠ .cond c := nofun
      have hqueue : Function.update k.queue (.cond c) [] (.mutex m) = k.queue (.mutex m) :=
        Function.update_of_ne hne' _ _
      change Function.update k.queue (.cond c) [] (.mutex m) ≠ [] at hne
      rw [hqueue] at hne
      obtain ⟨t, hout, hst, hw⟩ := h.woken m hm hne
      refine ⟨t, ?_, hst, ?_⟩
      · change t ∉ Function.update k.queue (.cond c) [] (.mutex m)
        rwa [hqueue]
      · rw [goto_pc, if_neg]
        · exact hw
        · intro hc
          rw [hc] at hw
          change (k.pc k.current).waitsOn mutexOf = _ at hw
          rw [hrun] at hw
          exact nomatch hw

/-! ### Runs -/

variable (mutexOf) in
/-- **Runs of the kernel** in which every thread unlocks only what it locked. -/
inductive MutexRun : Kernel → Prop
  | boot : MutexRun bootKernel
  | step {k k' : Kernel} {a : Act} : MutexRun k → a.Disciplined mutexOf k →
      perform mutexOf a k = .ok ((), k') → MutexRun k'

theorem MutexRun.sound (hrun : MutexRun mutexOf k) : KernelOk mutexOf k ∧ MutexOk mutexOf k := by
  induction hrun with
  | boot =>
    refine ⟨kernelOk_bootKernel, fun _ _ ht => (nomatch ht), fun _ _ _ ht => (nomatch ht),
      fun u c l hu => ?_, fun _ _ hne => absurd rfl hne⟩
    rcases bootKernel_pc u with hp | hp <;> rw [hp] at hu <;> exact nomatch hu
  | step _ ha hstep ih =>
    obtain ⟨hk, hm⟩ := ih
    obtain ⟨hk', heff⟩ := (hk.ensures_perform (hm.allowed ha)).of_run hstep
    exact ⟨hk', hm.step hk ha heff⟩

theorem MutexRun.ensures_perform (hrun : MutexRun mutexOf k) {a : Act} (ha : a.Disciplined mutexOf k) :
    Ensures (perform mutexOf a) k fun _ k' => MutexRun mutexOf k' := by
  obtain ⟨hk, hm⟩ := hrun.sound
  obtain ⟨u, k', hstep, -⟩ := hk.ensures_perform (hm.allowed ha)
  exact ⟨u, k', hstep, hrun.step ha hstep⟩

/-- **Mutexes are safe, and no wake-up is lost.** In every state that a run reaches, a mutex has at most
one owner, and it is then locked. A thread is in the wait queue of a mutex at most once, and it is
blocked. When the mutex is unlocked and its wait queue is not empty, there is a thread that was taken
from the queue and activated, and that has not tried to lock the mutex since. Every further step
succeeds. -/
theorem mutexRun_safe (hrun : MutexRun mutexOf k) :
    (∀ m t u, k.held t m = true → k.held u m = true → t = u) ∧
      (∀ m t, k.held t m = true → k.locked m = true) ∧
      (∀ m, (k.queue (.mutex m)).Nodup ∧ ∀ t ∈ k.queue (.mutex m), k.state t = .blocked) ∧
      (∀ m, k.locked m = false → k.queue (.mutex m) ≠ [] →
        ∃ t w, t ∉ k.queue (.mutex m) ∧ k.state t = .active ∧ w.mutex? mutexOf = some m ∧
          (k.pc t = .sleep w ∨ k.pc t = .retry w)) ∧
      ∀ a : Act, a.Disciplined mutexOf k → Ensures (perform mutexOf a) k fun _ k' => MutexRun mutexOf k' := by
  obtain ⟨hk, hm⟩ := hrun.sound
  refine ⟨fun m t u => hm.excl t u m, fun m t => hm.owned t m,
    fun m => ⟨hk.waits.nodup _, fun t ht => (hk.waits.queued _ t ht).1⟩, fun m hfree hne => ?_,
    fun a ha => hrun.ensures_perform ha⟩
  obtain ⟨t, hout, hst, hw⟩ := hm.woken m hfree hne
  cases hpc : k.pc t with
  | sleep w =>
    rw [hpc] at hw
    exact ⟨t, w, hout, hst, mutex_of_queue (Option.some.inj hw), Or.inl hpc⟩
  | retry w =>
    rw [hpc] at hw
    exact ⟨t, w, hout, hst, mutex_of_queue (Option.some.inj hw), Or.inr hpc⟩
  | _ =>
    rw [hpc] at hw
    exact nomatch hw

theorem MutexRun.after (hrun : MutexRun mutexOf k) {a : Act} (ha : a.Disciplined mutexOf k) :
    MutexRun mutexOf (Threads.after mutexOf a k) := by
  obtain ⟨u, k', hstep, hrun'⟩ := hrun.ensures_perform ha
  have hafter : Threads.after mutexOf a k = k' := by rw [Threads.after, hstep]
  rw [hafter]
  exact hrun'

/-- The discipline of a step can be tested. -/
instance (mutexOf : ℕ → ℕ) (k : Kernel) : (a : Act) → Decidable (a.Disciplined mutexOf k)
  | .timer => .isTrue trivial
  | .go _ => inferInstanceAs (Decidable (k.pc k.current ≠ .run))
  | .call (.mutexLock _) => inferInstanceAs (Decidable (k.pc k.current = .run ∧ k.current ≠ bootstrap))
  | .call (.mutexUnlock m) => inferInstanceAs (Decidable (k.pc k.current = .run ∧ k.held k.current m = true))
  | .call (.waitEvent _) => inferInstanceAs (Decidable (k.pc k.current = .run ∧ k.current ≠ bootstrap))
  | .call (.conditionWait c) => inferInstanceAs (Decidable (k.pc k.current = .run ∧ k.current ≠ bootstrap ∧
      k.held k.current (mutexOf c) = true))
  | .call (.waitQueueNotify _) => inferInstanceAs (Decidable (k.pc k.current = .run ∧ True))
  | .call (.conditionNotifyAll c) => inferInstanceAs (Decidable (k.pc k.current = .run ∧
      k.held k.current (mutexOf c) = true))
  | .call .schedule => inferInstanceAs (Decidable (k.pc k.current = .run ∧ True))
  | .call .exit => inferInstanceAs (Decidable (k.pc k.current = .run ∧ k.current ≠ bootstrap))
  | .call (.createThread _) => inferInstanceAs (Decidable (k.pc k.current = .run ∧ True))
  | .call (.wait _) => inferInstanceAs (Decidable (k.pc k.current = .run ∧ True))
  | .call (.lookup _) => inferInstanceAs (Decidable (k.pc k.current = .run ∧ True))

/-- Whether a schedule can be followed from a state. -/
def follows (mutexOf : ℕ → ℕ) : List Act → Kernel → Bool
  | [], _ => true
  | a :: l, k => decide (a.Disciplined mutexOf k) && follows mutexOf l (Threads.after mutexOf a k)

theorem MutexRun.follow {l : List Act} (hrun : MutexRun mutexOf k) (hl : follows mutexOf l k = true) :
    MutexRun mutexOf (l.foldl (fun k a => Threads.after mutexOf a k) k) := by
  induction l generalizing k with
  | nil => exact hrun
  | cons a l ih =>
    rw [follows, Bool.and_eq_true, decide_eq_true_eq] at hl
    exact ih (hrun.after hl.1) hl.2

/-- A thread is created, runs and locks a mutex. -/
def oneOwner : Kernel :=
  [.go true, .timer, .go true, .call (.mutexLock 0), .go true].foldl
    (fun k a => Threads.after (fun c => c) a k) oneThread

theorem mutexRun_oneThread : MutexRun (fun c => c) oneThread := MutexRun.boot.follow (by decide)

theorem mutexRun_oneOwner : MutexRun (fun c => c) oneOwner := mutexRun_oneThread.follow (by decide)

/-- The owner creates two more threads, which sleep until it unlocks the mutex. -/
def oneRetry : Kernel :=
  [.call (.createThread (some 2)), .go true, .go true, .go true, .go true,
    .call (.createThread (some 3)), .go true, .go true, .go true, .go true, .timer,
    .go true, .call (.mutexLock 0), .go true, .go true,
    .go true, .call (.mutexLock 0), .go true, .go true,
    .call (.mutexUnlock 0)].foldl (fun k a => Threads.after (fun c => c) a k) oneOwner

theorem mutexRun_oneRetry : MutexRun (fun c => c) oneRetry := mutexRun_oneOwner.follow (by decide +kernel)

/-- The mutex is free, a thread is in its queue, and another one is to try again. -/
theorem mutexRun_safe_oneRetry : oneRetry.locked 0 = false ∧ oneRetry.queue (.mutex 0) = [3] ∧
    ∃ t w, t ∉ oneRetry.queue (.mutex 0) ∧ oneRetry.state t = .active ∧ w.mutex? (fun c => c) = some 0 ∧
      (oneRetry.pc t = .sleep w ∨ oneRetry.pc t = .retry w) := by
  have hfree : oneRetry.locked 0 = false := by decide +kernel
  have hqueue : oneRetry.queue (.mutex 0) = [3] := by decide +kernel
  exact ⟨hfree, hqueue, (mutexRun_safe mutexRun_oneRetry).2.2.2.1 0 hfree (by rw [hqueue]; exact List.cons_ne_nil _ _)⟩

end

end Threads

end Kernel64
