import Kernel64.Ide.Requests

/-!
# The steps of the driver

The invariant of the driver: every thread is where its task says, the requests are as the threads know
them, and while the worker is blocked in `condition_wait` and the queue is not empty, a `bio_submit` is
about to notify the condition.
-/

namespace Kernel64

namespace Ide

open Threads

/-- **The invariant of the driver.** -/
structure IdeOk (worker : Tid) (s : State) : Prop where
  placed : Placed worker s
  requests : QueueOk worker s
  wakes : Parked mutexOf s.kernel queueLock worker → worker ∈ s.kernel.queue (.cond queueLock) ∧
    (s.bioQueue = [] ∨ ∃ t b, s.task t = .submit b .notify)

section

variable {worker : Tid} {s s' : State} {p : Task} {b : Bio} {c : Call}

theorem bioLock_ne_queueLock (b : Bio) : bioLock b ≠ queueLock := by
  rw [bioLock, queueLock]
  omega

theorem not_isForeign_queueLock : ¬IsForeign queueLock := fun h => h.1 rfl

/-- **A thread in the queue of `ide_bio_queue_condition`** is the worker. -/
theorem Placed.of_queued {t : Tid} (h : Placed worker s) (ht : t ∈ s.kernel.queue (.cond queueLock)) :
    t = worker := by
  have hw := (h.run.sound.1.waits.queued _ t ht).2
  have huse : (s.kernel.pc t).use = some (.cond queueLock) := by
    cases hpc : s.kernel.pc t with
    | sleep w => rw [hpc] at hw; cases w <;> exact nomatch hw
    | retry w => rw [hpc] at hw; cases w <;> exact nomatch hw
    | condSleep c =>
      rw [hpc] at hw
      rw [Queue.cond.inj (Option.some.inj hw)]
      rfl
    | condWoken c =>
      rw [hpc] at hw
      rw [Queue.cond.inj (Option.some.inj hw)]
      rfl
    | _ => rw [hpc] at hw; exact nomatch hw
  have hmay := (h.fits t).uses _ huse
  rw [← h.works]
  cases htask : s.task t with
  | idle =>
    rw [htask] at hmay
    exact absurd hmay not_isForeign_queueLock
  | submit b at' =>
    rw [htask] at hmay
    cases at' <;> exact nomatch hmay
  | wait b at' =>
    rw [htask] at hmay
    cases at' with
    | test =>
      rcases hmay with hmay | hmay
      · exact nomatch hmay
      · exact absurd (Use.cond.inj hmay).symm (bioLock_ne_queueLock b)
    | sleep => exact hmay.elim
    | unlock => exact hmay.elim
  | _ => rfl

/-- The worker is not at a request while another thread has its mutex and its status is set. -/
theorem IdeOk.bio_ne (h : IdeOk worker s) (hne : s.kernel.current ≠ worker)
    (hheld : s.kernel.held s.kernel.current (bioLock b) = true) (hst : s.status b ≠ .none) :
    (s.task worker).bio ≠ some b := by
  intro hb
  have hunset : (s.task worker).unset ≠ some b := fun hc => hst (h.requests.unset b hc)
  have hmine : s.kernel.held worker (bioLock b) = true → False := fun hc => hne (h.placed.excl hheld hc)
  cases htask : s.task worker with
  | finish b' st at' =>
    rw [htask] at hb hunset
    obtain rfl := Option.some.inj hb
    cases at' with
    | lock => exact hunset rfl
    | set => exact hunset rfl
    | notify =>
      refine hmine (h.placed.held (by rw [htask]; rfl) ?_)
      rw [htask]
      exact fun u hu => hu
    | unlock =>
      have hf := h.placed.fits worker
      rw [htask] at hf
      refine hmine (hf.holds _ rfl ?_)
      rcases hf.busy nofun with hrun | huse | ⟨hc, -⟩
      · exact Or.inl hrun
      · rcases hu : (s.kernel.pc worker).use with _ | u
        · exact absurd hu huse
        · exact Or.inr ⟨_, congrArg some (hf.uses u hu)⟩
      · exact nomatch hc
  | dequeue at' =>
    rw [htask] at hb hunset
    cases at' with
    | unlock o => exact hunset hb
    | _ => exact nomatch hb
  | handle b' =>
    rw [htask] at hb hunset
    exact hunset hb
  | _ =>
    rw [htask] at hb
    exact nomatch hb

/-! ### Wake-ups -/

theorem IdeOk.wakes_frame {a : Act} {k' : Kernel} (h : IdeOk worker s) (hf : Frame mutexOf s.kernel a k')
    (hcond : a.cond ≠ some queueLock) (hkernel : s'.kernel = k') (hqueue : s'.bioQueue = s.bioQueue)
    (htask : ∀ t b, s.task t = .submit b .notify → s'.task t = .submit b .notify) :
    Parked mutexOf s'.kernel queueLock worker → worker ∈ s'.kernel.queue (.cond queueLock) ∧
      (s'.bioQueue = [] ∨ ∃ t b, s'.task t = .submit b .notify) := by
  intro hpark
  rw [hkernel] at hpark ⊢
  rcases hf.parked queueLock worker hpark with hold | ⟨ha, -⟩
  · obtain ⟨hin, hq⟩ := h.wakes hold
    rw [hf.cond queueLock hcond, hqueue]
    exact ⟨hin, hq.imp_right fun ⟨t, b, ht⟩ => ⟨t, b, htask t b ht⟩⟩
  · rw [ha] at hcond
    exact absurd rfl hcond

/-- **A step of the kernel** outside of the driver. -/
theorem IdeOk.step_kernel {a : Act} {k' : Kernel} (h : IdeOk worker s) (hf : Frame mutexOf s.kernel a k')
    (hcond : a.cond ≠ some queueLock) (hp : Placed worker { s with kernel := k' }) :
    IdeOk worker { s with kernel := k' } :=
  ⟨hp, h.requests.kernel k', h.wakes_frame hf hcond rfl rfl fun _ _ ht => ht⟩

theorem outside_cond (hout : Outside c) : (Act.call c).cond ≠ some queueLock := by
  cases c with
  | conditionWait c =>
    intro hc
    rw [Option.some.inj hc] at hout
    exact not_isForeign_queueLock hout
  | conditionNotifyAll c =>
    intro hc
    rw [Option.some.inj hc] at hout
    exact not_isForeign_queueLock hout
  | waitQueueNotify q =>
    cases q with
    | cond c =>
      intro hc
      rw [Option.some.inj hc] at hout
      exact not_isForeign_queueLock hout
    | mutex m => exact nofun
    | event e => exact nofun
  | _ => exact nofun

/-! ### Steps -/

/-- What a thread that runs in the driver needs for a call. -/
structure Calls (s : State) (c : Call) (p : Task) : Prop where
  disciplined : (Act.call c).Disciplined mutexOf s.kernel
  use : ∀ u, c.use = some u → p.MayUse u
  hold : ∀ m, p.lock = some m → c.instant = true ∨ (∃ c', c.use = some (.notify c')) →
    c.lose mutexOf (s.kernel.held s.kernel.current) m = true
  busy : p ≠ .idle → c.instant = true ∨ c.use ≠ none
  works : p.works = (s.task s.kernel.current).works
  boot : s.kernel.current = bootstrap → p = .idle

theorem Calls.ensures (h : Placed worker s) (hc : Calls s c p) :
    Ensures (call c p) s fun _ s' => ∃ k', s' = { s.goto p with kernel := k' } ∧
      perform mutexOf (.call c) s.kernel = .ok ((), k') ∧ Placed worker s' ∧
      Frame mutexOf s.kernel (.call c) k' :=
  h.ensures_call hc.disciplined hc.use hc.hold hc.busy hc.works hc.boot

/-- **A call of `locking.c`** that is not about `ide_bio_queue_condition`. -/
theorem IdeOk.ensures_call (h : IdeOk worker s) (hc : Calls s c p) (hq : QueueOk worker (s.goto p))
    (hcond : (Act.call c).cond ≠ some queueLock)
    (hn : ∀ b, s.task s.kernel.current ≠ .submit b .notify) :
    Ensures (call c p) s fun _ s' => IdeOk worker s' := by
  refine (hc.ensures h.placed).mono fun _ s' ⟨k', hs', _, hp, hf⟩ => ?_
  subst hs'
  refine ⟨hp, hq.kernel k', h.wakes_frame hf hcond rfl rfl fun t b ht => ?_⟩
  change (s.goto p).task t = .submit b .notify
  rw [goto_task, if_neg]
  · exact ht
  · rintro rfl
    exact hn b ht

/-- **A step inside of the driver.** -/
theorem IdeOk.goto (h : IdeOk worker s) (hrun : s.kernel.pc s.kernel.current = .run)
    (hlock : ∀ m, p.lock = some m → (s.task s.kernel.current).lock = some m)
    (hidle : s.task s.kernel.current ≠ .idle) (hw : p.works = (s.task s.kernel.current).works)
    (hq : QueueOk worker (s.goto p)) (hn : ∀ b, s.task s.kernel.current ≠ .submit b .notify) :
    IdeOk worker (s.goto p) := by
  refine ⟨h.placed.goto hrun hlock hidle hw, hq, fun hpark => ?_⟩
  obtain ⟨hin, hqueue⟩ := h.wakes hpark
  refine ⟨hin, hqueue.imp_right fun ⟨t, b, ht⟩ => ⟨t, b, ?_⟩⟩
  rw [goto_task, if_neg]
  · exact ht
  · rintro rfl
    exact hn b ht

/-- **The steps of `bio_submit`.** -/
theorem IdeOk.ensures_bioSubmit (h : IdeOk worker s) {at' : SubmitAt}
    (hrun : s.kernel.pc s.kernel.current = .run) (htask : s.task s.kernel.current = .submit b at') :
    Ensures (bioSubmit b at') s fun _ s' => IdeOk worker s' := by
  have hidle : s.task s.kernel.current ≠ .idle := by rw [htask]; simp
  have hworks : (s.task s.kernel.current).works = false := by rw [htask]; rfl
  have hne : s.kernel.current ≠ worker := h.placed.ne_worker hworks
  have hheld : s.kernel.held s.kernel.current queueLock = true :=
    (h.placed.fits _).holds _ (by rw [htask]; rfl) (Or.inl hrun)
  cases at' with
  | add =>
    simp only [bioSubmit, Ide.goto, ensures_bind, ensures_modify]
    have hawake : s.task worker ≠ .dequeue .sleep := fun hc => by
      have hw := h.placed.held (m := queueLock) (t := worker) (by rw [hc]; rfl) (by rw [hc]; exact fun _ hu => hu)
      exact hne (h.placed.excl hheld hw)
    have hp : Placed worker { s with
        bioQueue := s.bioQueue ++ [b]
        submitted := s.submitted ++ [b] } := ⟨h.placed.run, h.placed.fits, h.placed.works, h.placed.boot⟩
    refine ⟨hp.goto (p := .submit b .notify) hrun (fun m hm => ?_) hidle hworks.symm,
      h.requests.add hne htask hawake, fun hpark => ⟨(h.wakes hpark).1, Or.inr ⟨s.kernel.current, b, ?_⟩⟩⟩
    · change (s.task s.kernel.current).lock = some m
      rw [htask]
      exact hm
    · rw [goto_task, if_pos rfl]
  | notify =>
    rw [bioSubmit]
    have hc : Calls s (.waitQueueNotify (.cond queueLock)) (.submit b .unlock) :=
      ⟨⟨hrun, trivial⟩, fun u hu => (by cases hu), fun m hm _ => Option.some.inj hm ▸ hheld,
        fun _ => Or.inl rfl, hworks.symm, fun hc => absurd hc (h.placed.ne_boot hidle)⟩
    refine (hc.ensures h.placed).mono fun _ s' hr => ?_
    obtain ⟨k', hs', hstep, hp, hf⟩ := hr
    subst hs'
    refine ⟨hp, (h.requests.goto_client (p := .submit b .unlock) hne (by simp) (by simp)).kernel k', fun hpark => ?_⟩
    -- the first thread in the queue is the worker, and it was woken
    exfalso
    have hk := h.placed.run.sound.1
    have hact : s.kernel.state s.kernel.current = .active := hk.active_of_awake (by rw [hrun]; rfl)
    have hk' : k' = s.kernel.notified (.cond queueLock) :=
      ((hk.ensures_waitQueueNotify (q := .cond queueLock) (Or.inl hact)).of_run hstep).1
    rcases hf.parked queueLock worker hpark with hold | ⟨ha, -⟩
    · have hin := (h.wakes hold).1
      rw [hk', Kernel.notified] at hpark
      cases hq : s.kernel.queue (.cond queueLock) with
      | nil =>
        rw [hq] at hin
        exact absurd hin List.not_mem_nil
      | cons t l =>
        have ht : t = worker := h.placed.of_queued (by rw [hq]; exact List.mem_cons_self)
        rw [hq, ht] at hpark
        have hst : Function.update s.kernel.state worker .active worker = .blocked := hpark.1
        rw [Function.update_self] at hst
        cases hst
    · cases ha
  | unlock =>
    rw [bioSubmit]
    have hc : Calls s (.mutexUnlock queueLock) .idle :=
      ⟨⟨hrun, hheld⟩, fun u hu => (by cases hu), fun m hm => (by cases hm), fun hc => absurd rfl hc,
        hworks.symm, fun _ => rfl⟩
    refine h.ensures_call hc (h.requests.goto_client hne (by simp) (by simp)) (by rintro ⟨⟩) fun b' hb' => ?_
    rw [htask] at hb'
    cases hb'

/-- **The steps of `bio_wait`.** -/
theorem IdeOk.ensures_bioWait (h : IdeOk worker s) {at' : WaitAt}
    (hrun : s.kernel.pc s.kernel.current = .run) (htask : s.task s.kernel.current = .wait b at') :
    Ensures (bioWait b at') s fun _ s' => IdeOk worker s' := by
  have hidle : s.task s.kernel.current ≠ .idle := by rw [htask]; simp
  have hworks : (s.task s.kernel.current).works = false := by rw [htask]; rfl
  have hne : s.kernel.current ≠ worker := h.placed.ne_worker hworks
  have hlock : (s.task s.kernel.current).lock = some (bioLock b) := by rw [htask]; rfl
  have hheld : s.kernel.held s.kernel.current (bioLock b) = true := (h.placed.fits _).holds _ hlock (Or.inl hrun)
  have hn : ∀ b', s.task s.kernel.current ≠ .submit b' .notify := by rw [htask]; simp
  cases at' with
  | test =>
    simp only [bioWait, Ide.goto, ensures_bind, ensures_get, ensures_ite, ensures_modify]
    refine ⟨fun hst => ?_, fun hst => ?_⟩
    · exact h.goto hrun (fun m hm => hlock.trans hm) hidle hworks.symm
        (h.requests.goto_client hne (by simp) (by simp)) hn
    · refine h.goto hrun (fun m hm => hlock.trans hm) hidle hworks.symm
        (h.requests.goto_client hne (by simp) fun b' hb' => ?_) hn
      injection hb' with hbb
      exact hbb ▸ hst
  | sleep =>
    rw [bioWait]
    have hc : Calls s (.conditionWait (bioLock b)) (.wait b .test) := by
      refine ⟨⟨hrun, h.placed.ne_boot hidle, hheld⟩, fun u hu => ?_, fun m _ hcall => ?_,
        fun _ => Or.inr (by rintro ⟨⟩),
        hworks.symm, fun hc => absurd hc (h.placed.ne_boot hidle)⟩
      · exact Or.inr (Option.some.inj hu).symm
      · rcases hcall with hcall | ⟨c', hcall⟩ <;> cases hcall
    refine h.ensures_call hc (h.requests.goto_client hne (by simp) (by simp)) (fun hcond => ?_) hn
    exact bioLock_ne_queueLock b (Option.some.inj hcond)
  | unlock =>
    simp only [bioWait, ensures_bind, ensures_modify]
    have hst := h.requests.waited _ b htask
    have haway := h.bio_ne hne hheld hst
    set s₁ : State := { s with returned := Function.update s.returned b true } with hs₁
    have hp : Placed worker s₁ := ⟨h.placed.run, h.placed.fits, h.placed.works, h.placed.boot⟩
    have hc : Calls s₁ (.mutexUnlock (bioLock b)) .idle :=
      ⟨⟨hrun, hheld⟩, fun u hu => (by cases hu), fun m hm => (by cases hm), fun hc => absurd rfl hc,
        hworks.symm, fun _ => rfl⟩
    refine (hc.ensures hp).mono fun _ s' hr => ?_
    obtain ⟨k', hs', _, hp', hf⟩ := hr
    subst hs'
    refine ⟨hp', (h.requests.return_ hne hst haway).kernel k',
      h.wakes_frame hf (by rintro ⟨⟩) rfl rfl fun t b' ht => ?_⟩
    change (s₁.goto .idle).task t = .submit b' .notify
    rw [goto_task, if_neg]
    · exact ht
    · rintro rfl
      exact hn b' ht

/-! ### The worker -/

/-- The worker goes on and leaves the requests alone. -/
theorem QueueOk.goto_worker (h : QueueOk worker s) (hw : p.works = true)
    (hbio : ∀ b, p.bio = some b → (s.task worker).bio = some b)
    (hunset : ∀ b, p.unset = some b → (s.task worker).unset = some b)
    (hresult : ∀ b st at', p = .finish b st at' → st ≠ .none)
    (hasleep : p = .dequeue .sleep → s.bioQueue = []) : QueueOk worker (s.goto p) := by
  refine h.goto (fun b hb => ?_) (fun b hb => ?_) (fun _ => hbio) (fun _ => hunset) (fun _ => hresult)
    fun _ => hasleep
  · rw [hb] at hw
    exact nomatch hw
  · rw [hb] at hw
    exact nomatch hw

/-- **The steps of `dequeue_bio`.** -/
theorem IdeOk.ensures_dequeueBio (h : IdeOk worker s) {at' : DequeueAt}
    (hrun : s.kernel.pc s.kernel.current = .run) (htask : s.task s.kernel.current = .dequeue at') :
    Ensures (dequeueBio at') s fun _ s' => IdeOk worker s' := by
  have hidle : s.task s.kernel.current ≠ .idle := by rw [htask]; simp
  have hworks : (s.task s.kernel.current).works = true := by rw [htask]; rfl
  have hcur : s.kernel.current = worker := (h.placed.works _).1 hworks
  have hboot := h.placed.ne_boot hidle
  have hn : ∀ b', s.task s.kernel.current ≠ .submit b' .notify := by rw [htask]; simp
  have hwork : s.task worker = .dequeue at' := hcur ▸ htask
  have hheld : at' ≠ .lock → s.kernel.held s.kernel.current queueLock = true := by
    intro hat
    refine (h.placed.fits _).holds _ ?_ (Or.inl hrun)
    rw [htask]
    cases at' <;> first | rfl | exact absurd rfl hat
  -- the worker runs, so it does not wait for the lock
  have hpark : ¬Parked mutexOf s.kernel queueLock worker := fun hc => by
    have := hc.2
    rw [← hcur, hrun] at this
    cases this
  cases at' with
  | lock =>
    have hc : Calls s (.mutexLock queueLock) (.dequeue .test) := by
      refine ⟨⟨hrun, hboot⟩, fun u hu => Or.inl (Option.some.inj hu).symm, fun m _ hcall => ?_,
        fun _ => Or.inr (by rintro ⟨⟩),
        hworks.symm, fun hc => absurd hc hboot⟩
      rcases hcall with hcall | ⟨c', hcall⟩ <;> cases hcall
    exact h.ensures_call hc
      (h.requests.goto_worker rfl (by rintro _ ⟨⟩) (by rintro _ ⟨⟩) (by simp) (by simp)) (by rintro ⟨⟩) hn
  | test =>
    simp only [dequeueBio, Ide.goto, ensures_bind, ensures_get, ensures_ite, ensures_modify]
    have hlock : (s.task s.kernel.current).lock = some queueLock := by rw [htask]; rfl
    refine ⟨fun hempty => ?_, fun _ => ?_⟩
    · exact h.goto hrun (fun m hm => hlock.trans hm) hidle hworks.symm
        (h.requests.goto_worker rfl (by rintro _ ⟨⟩) (by rintro _ ⟨⟩) (by simp) fun _ => hempty) hn
    · exact h.goto hrun (fun m hm => hlock.trans hm) hidle hworks.symm
        (h.requests.goto_worker rfl (by rintro _ ⟨⟩) (by rintro _ ⟨⟩) (by simp) (by simp)) hn
  | sleep =>
    rw [dequeueBio]
    have hc : Calls s (.conditionWait queueLock) (.dequeue .test) := by
      refine ⟨⟨hrun, hboot, hheld (by simp)⟩, fun u hu => Or.inr (Option.some.inj hu).symm, fun m _ hcall => ?_,
        fun _ => Or.inr (by rintro ⟨⟩), hworks.symm, fun hc => absurd hc hboot⟩
      rcases hcall with hcall | ⟨c', hcall⟩ <;> cases hcall
    refine (hc.ensures h.placed).mono fun _ s' hr => ?_
    obtain ⟨k', hs', hstep, hp, _⟩ := hr
    subst hs'
    have hq : QueueOk worker (s.goto (.dequeue .test)) :=
      h.requests.goto_worker rfl (by rintro _ ⟨⟩) (by rintro _ ⟨⟩) (by simp) (by simp)
    -- it is on the queue of the condition, and the list of requests is still empty
    refine ⟨hp, hq.kernel k', fun _ => ⟨?_, Or.inl ?_⟩⟩
    · change worker ∈ k'.queue (.cond queueLock)
      rw [yields_conditionWait_queue () k' hstep, hcur]
      exact List.mem_append_right _ (List.mem_singleton_self _)
    · exact h.requests.asleep hwork
  | first =>
    simp only [dequeueBio, Ide.goto, ensures_bind, ensures_get]
    have hlock : (s.task s.kernel.current).lock = some queueLock := by rw [htask]; rfl
    cases hq : s.bioQueue with
    | nil =>
      simp only [ensures_modify]
      exact h.goto hrun (fun m hm => hlock.trans hm) hidle hworks.symm
        (h.requests.goto_worker rfl (by rintro _ ⟨⟩) (by rintro _ ⟨⟩) (by simp) (by simp)) hn
    | cons b l =>
      simp only [ensures_bind, ensures_modify]
      have hp : Placed worker { s with
          bioQueue := l
          dequeued := s.dequeued ++ [b] } := ⟨h.placed.run, h.placed.fits, h.placed.works, h.placed.boot⟩
      exact ⟨hp.goto (p := .dequeue (.unlock (some b))) hrun (fun m hm => hlock.trans hm) hidle hworks.symm,
        h.requests.first hcur hq, fun hc => absurd hc hpark⟩
  | unlock o =>
    -- giving the lock back changes nothing that the invariant speaks about
    have hdone : ∀ p : Task, p.lock = none → p.works = true → p.bio = o → p.unset = o →
        (∀ b st at', p ≠ .finish b st at') → p ≠ .dequeue .sleep →
        Ensures (call (.mutexUnlock queueLock) p) s fun _ s' => IdeOk worker s' := by
      intro p hl hw hb hu hf hs
      have hc : Calls s (.mutexUnlock queueLock) p := by
        refine ⟨⟨hrun, hheld (by simp)⟩, fun u hu => (by cases hu), fun m hm => ?_, fun _ => Or.inl rfl,
          hw.trans hworks.symm, fun hc => absurd hc hboot⟩
        rw [hl] at hm
        cases hm
      refine h.ensures_call hc (h.requests.goto_worker hw (fun b hb' => ?_) (fun b hu' => ?_)
        (fun b st at' hc => absurd hc (hf b st at')) fun hc => absurd hc hs) (by rintro ⟨⟩) hn
      · rw [hwork, ← hb']
        exact hb.symm
      · rw [hwork, ← hu']
        exact hu.symm
    cases o with
    | none => exact hdone _ rfl rfl rfl rfl (by simp) (by simp)
    | some b => exact hdone _ rfl rfl rfl rfl (by simp) (by simp)

/-- **`handle_bio`** chooses the status. -/
theorem IdeOk.ensures_handleBio (h : IdeOk worker s) {ok : Bool}
    (hrun : s.kernel.pc s.kernel.current = .run) (htask : s.task s.kernel.current = .handle b) :
    Ensures (handleBio ok b) s fun _ s' => IdeOk worker s' := by
  have hidle : s.task s.kernel.current ≠ .idle := by rw [htask]; simp
  have hworks : (s.task s.kernel.current).works = true := by rw [htask]; rfl
  have hcur : s.kernel.current = worker := (h.placed.works _).1 hworks
  have hn : ∀ b', s.task s.kernel.current ≠ .submit b' .notify := by rw [htask]; simp
  have hwork : s.task worker = .handle b := hcur ▸ htask
  have hgo : ∀ st, st ≠ .none → IdeOk worker (s.goto (.finish b st .lock)) := by
    intro st hst
    refine h.goto hrun (fun m hm => (by cases hm)) hidle hworks.symm
      (h.requests.goto_worker rfl (fun b' hb' => ?_) (fun b' hb' => ?_) (fun b' st' at' hc => ?_) (by simp)) hn
    · rw [hwork]
      exact hb'
    · rw [hwork]
      exact hb'
    · injection hc with _ hst'
      exact hst' ▸ hst
  simp only [handleBio, Ide.goto, ensures_bind, ensures_get, ensures_ite, ensures_modify]
  exact ⟨fun _ => hgo _ (by simp), fun _ => ⟨fun _ => hgo _ (by simp), fun _ => hgo _ (by simp)⟩⟩

/-- **The steps of `finish_bio`.** -/
theorem IdeOk.ensures_finishBio (h : IdeOk worker s) {st : BioStatus} {at' : FinishAt}
    (hrun : s.kernel.pc s.kernel.current = .run) (htask : s.task s.kernel.current = .finish b st at') :
    Ensures (finishBio b st at') s fun _ s' => IdeOk worker s' := by
  have hidle : s.task s.kernel.current ≠ .idle := by rw [htask]; simp
  have hworks : (s.task s.kernel.current).works = true := by rw [htask]; rfl
  have hcur : s.kernel.current = worker := (h.placed.works _).1 hworks
  have hboot := h.placed.ne_boot hidle
  have hn : ∀ b', s.task s.kernel.current ≠ .submit b' .notify := by rw [htask]; simp
  have hwork : s.task worker = .finish b st at' := hcur ▸ htask
  have hst : st ≠ .none := h.requests.result b st at' hwork
  have hheld : at' ≠ .lock → s.kernel.held s.kernel.current (bioLock b) = true := by
    intro hat
    refine (h.placed.fits _).holds _ ?_ (Or.inl hrun)
    rw [htask]
    cases at' <;> first | rfl | exact absurd rfl hat
  have hresult : ∀ p' b' st' at'', Task.finish b st p' = .finish b' st' at'' → st' ≠ .none := by
    intro p' b' st' at'' hc
    injection hc with _ hst'
    exact hst' ▸ hst
  cases at' with
  | lock =>
    have hc : Calls s (.mutexLock (bioLock b)) (.finish b st .set) := by
      refine ⟨⟨hrun, hboot⟩, fun u hu => (Option.some.inj hu).symm, fun m _ hcall => ?_, fun _ => Or.inr (by rintro ⟨⟩),
        hworks.symm, fun hc => absurd hc hboot⟩
      rcases hcall with hcall | ⟨c', hcall⟩ <;> cases hcall
    refine h.ensures_call hc (h.requests.goto_worker rfl (fun b' hb' => ?_) (fun b' hb' => ?_)
      (hresult _) (by simp)) (by rintro ⟨⟩) hn
    · rw [hwork]
      exact hb'
    · rw [hwork]
      exact hb'
  | set =>
    simp only [finishBio, Ide.goto, ensures_bind, ensures_modify]
    have hp : Placed worker { s with status := Function.update s.status b st } :=
      ⟨h.placed.run, h.placed.fits, h.placed.works, h.placed.boot⟩
    refine ⟨hp.goto (p := .finish b st .notify) hrun (fun m hm => ?_) hidle hworks.symm,
      h.requests.set hcur hwork, fun hpark => ?_⟩
    · change (s.task s.kernel.current).lock = some m
      rw [htask]
      exact hm
    · have hw := hpark.2
      change (s.kernel.pc worker).waitsOn mutexOf = _ at hw
      rw [← hcur, hrun] at hw
      cases hw
  | notify =>
    have hc : Calls s (.conditionNotifyAll (bioLock b)) (.finish b st .unlock) :=
      ⟨⟨hrun, hheld (by simp)⟩, fun u hu => (Option.some.inj hu).symm,
        fun m hm _ => Option.some.inj hm ▸ hheld (by simp), fun _ => Or.inr (by rintro ⟨⟩), hworks.symm,
        fun hc => absurd hc hboot⟩
    refine h.ensures_call hc (h.requests.goto_worker rfl (fun b' hb' => ?_) (by rintro _ ⟨⟩) (hresult _) (by simp))
      (fun hcond => bioLock_ne_queueLock b (Option.some.inj hcond)) hn
    rw [hwork]
    exact hb'
  | unlock =>
    have hc : Calls s (.mutexUnlock (bioLock b)) (.dequeue .lock) :=
      ⟨⟨hrun, hheld (by simp)⟩, fun u hu => (by cases hu), fun m hm => (by cases hm), fun _ => Or.inl rfl,
        hworks.symm, fun hc => absurd hc hboot⟩
    exact h.ensures_call hc
      (h.requests.goto_worker rfl (by rintro _ ⟨⟩) (by rintro _ ⟨⟩) (by simp) (by simp)) (by rintro ⟨⟩) hn

/-! ### Every step -/

/-- A call from a thread's own code into the driver. -/
theorem calls_lock {m : ℕ} (hrest : s.AtRest) (hboot : s.kernel.current ≠ bootstrap) (hw : p.works = false)
    (huse : p.MayUse (.lock m)) : Calls s (.mutexLock m) p := by
  refine ⟨⟨hrest.1, hboot⟩, fun u hu => Option.some.inj hu ▸ huse, fun m' _ hcall => ?_, fun _ => Or.inr nofun, ?_,
    fun hc => absurd hc hboot⟩
  · rcases hcall with hcall | ⟨c', hcall⟩ <;> exact nomatch hcall
  · rw [hrest.2, hw]
    rfl

/-- **Every step** that is allowed succeeds and keeps the invariant. -/
theorem IdeOk.ensures_move (h : IdeOk worker s) {mv : Move} (hmv : mv.Allowed s) :
    Ensures (move mv) s fun _ s' => IdeOk worker s' := by
  cases mv with
  | timer =>
    refine h.placed.ensures_timer.mono fun _ s' hr => ?_
    obtain ⟨k', hs', hp, hf⟩ := hr
    subst hs'
    exact h.step_kernel hf (by rintro ⟨⟩) hp
  | go b =>
    refine (h.placed.ensures_go hmv).mono fun _ s' hr => ?_
    obtain ⟨k', hs', hp, hf⟩ := hr
    subst hs'
    exact h.step_kernel hf (by rintro ⟨⟩) hp
  | other c =>
    obtain ⟨hrest, hout, hdis⟩ := hmv
    refine (h.placed.ensures_other hrest hout hdis).mono fun _ s' hr => ?_
    obtain ⟨k', hs', hp, hf⟩ := hr
    subst hs'
    exact h.step_kernel hf (outside_cond hout) hp
  | submit b =>
    obtain ⟨hrest, hboot, hb⟩ := hmv
    have hne := h.placed.ne_worker (by rw [hrest.2]; rfl)
    simp only [move, ensures_bind, ensures_modify]
    set s₁ : State := { s with begun := Function.update s.begun b true } with hs₁
    have hp : Placed worker s₁ := ⟨h.placed.run, h.placed.fits, h.placed.works, h.placed.boot⟩
    have hc : Calls s₁ (.mutexLock queueLock) (.submit b .add) :=
      calls_lock (s := s₁) hrest hboot rfl rfl
    refine (hc.ensures hp).mono fun _ s' hr => ?_
    obtain ⟨k', hs', _, hp', hf⟩ := hr
    subst hs'
    refine ⟨hp', (h.requests.begin hne hb).kernel k', h.wakes_frame hf (by rintro ⟨⟩) rfl rfl fun t b' ht => ?_⟩
    change (s₁.goto (.submit b .add)).task t = .submit b' .notify
    rw [goto_task, if_neg]
    · exact ht
    · rintro rfl
      cases hrest.2.symm.trans ht
  | wait b =>
    obtain ⟨hrest, hboot⟩ := hmv
    have hne := h.placed.ne_worker (by rw [hrest.2]; rfl)
    refine h.ensures_call (calls_lock hrest hboot rfl (Or.inl rfl)) (h.requests.goto_client hne (by simp) (by simp))
      (by rintro ⟨⟩) fun b' hb' => ?_
    cases hrest.2.symm.trans hb'
  | next ok =>
    obtain ⟨hrun, hidle⟩ := hmv
    simp only [move, ensures_bind, ensures_get]
    cases htask : s.task s.kernel.current with
    | idle => exact absurd htask hidle
    | submit b at' => exact h.ensures_bioSubmit hrun htask
    | wait b at' => exact h.ensures_bioWait hrun htask
    | dequeue at' => exact h.ensures_dequeueBio hrun htask
    | handle b => exact h.ensures_handleBio hrun htask
    | finish b st at' => exact h.ensures_finishBio hrun htask

end

end Ide

end Kernel64
