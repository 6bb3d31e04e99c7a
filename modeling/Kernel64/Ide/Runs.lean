import Kernel64.Ide.Steps

/-!
# The driver over whole runs

In any interleaving of the threads that submit requests and wait for them with the worker, no request is
lost or taken twice, the worker does not sleep over a request, and the worker is done with a request
before a `bio_wait` for it returns.
-/

namespace Kernel64

namespace Ide

open Threads

variable {worker : Tid} {s s' : State}

theorem ideOk_booted (hw : worker ≠ bootstrap) (length : Bio → ℤ) :
    IdeOk worker (booted worker length) := by
  have htask : ∀ t, (booted worker length).task t = if t = worker then .dequeue .lock else .idle := fun _ => rfl
  have hboot : bootstrap ≠ worker := hw.symm
  have hpc : ∀ t, bootKernel.pc t = if t = bootstrap then .run else .newborn := fun _ => rfl
  have hnot : ∀ t b at', (booted worker length).task t ≠ .submit b at' := by
    intro t b at'
    rw [htask]
    split_ifs <;> exact nofun
  refine ⟨⟨.boot, fun t => ?_, fun t => ?_, ?_⟩, ?_, fun hpark => ?_⟩
  · rw [htask]
    change Fits _ (bootKernel.pc t) _
    rw [hpc]
    split_ifs with h₁ h₂
    · exact absurd (h₁.symm.trans h₂) hw
    · exact fits_newborn (Or.inr rfl)
    · exact ⟨fun u hu => (nomatch hu), fun m hm => (nomatch hm), fun hc => absurd rfl hc⟩
    · exact fits_newborn (Or.inl rfl)
  · rw [htask]
    split_ifs with h₁
    · exact iff_of_true rfl h₁
    · exact iff_of_false nofun h₁
  · rw [htask, if_neg hboot]
  · have hwork : (booted worker length).task worker = .dequeue .lock := by rw [htask, if_pos rfl]
    refine ⟨rfl, List.nodup_nil, fun b hb => absurd hb List.not_mem_nil, fun t b ht => absurd ht (hnot t b _),
      fun t u b ht => absurd ht (hnot t b _), fun b hb => ?_, fun b hb => ?_, fun b hb => absurd rfl hb,
      fun b st at' hb => ?_, fun hb => ?_, fun t b ht => ?_, fun b hb => (nomatch hb)⟩
    · rw [hwork] at hb
      exact nomatch hb
    · rw [hwork] at hb
      exact nomatch hb
    · rw [hwork] at hb
      exact nomatch hb
    · rw [hwork] at hb
      exact nomatch hb
    · rw [htask] at ht
      split_ifs at ht
  · have hst := hpark.1
    change (if worker = bootstrap then ThreadState.active else .none) = .blocked at hst
    rw [if_neg hw] at hst
    exact nomatch hst

/-- **Every run keeps the invariant of the driver.** -/
theorem IdeRun.ideOk (hw : worker ≠ bootstrap) (hrun : IdeRun worker s) : IdeOk worker s := by
  induction hrun with
  | boot length => exact ideOk_booted hw length
  | step _ hmv hstep ih => exact (ih.ensures_move hmv).of_run hstep

/-- The wait head of a thread is in a queue of the request, or the worker has it in
`wait_queue_notify_all`. -/
def Refers (k : Kernel) (worker : Tid) (b : Bio) (t : Tid) : Prop :=
  t ∈ k.queue (.cond (bioLock b)) ∨ t ∈ k.queue (.mutex (bioLock b)) ∨
    (∃ l, (k.pc worker).notifying = some (bioLock b, l) ∧ t ∈ l) ∨
    (k.pc worker).walking = some (bioLock b, t)

theorem use_of_inCond {p : Pc} {c : ℕ} (h : p.inCond = some c) : p.use = some (.cond c) := by
  cases p with
  | enter w => cases w <;> first | exact congrArg (some ∘ Use.cond) (Option.some.inj h) | exact nomatch h
  | sleep w => cases w <;> first | exact congrArg (some ∘ Use.cond) (Option.some.inj h) | exact nomatch h
  | retry w => cases w <;> first | exact congrArg (some ∘ Use.cond) (Option.some.inj h) | exact nomatch h
  | condSleep c' => exact congrArg (some ∘ Use.cond) (Option.some.inj h)
  | condWoken c' => exact congrArg (some ∘ Use.cond) (Option.some.inj h)
  | _ => exact nomatch h

/-- Who waits for a mutex is in `mutex_lock`, or at the end of `condition_wait`. -/
theorem use_of_waitsOn_mutex {p : Pc} {m : ℕ} (h : p.waitsOn mutexOf = some (.mutex m)) :
    p.use = some (.lock m) ∨ p.use = some (.cond m) := by
  have hwait : ∀ w : Wait, w.queue mutexOf = .mutex m →
      (Pc.sleep w).use = some (.lock m) ∨ (Pc.sleep w).use = some (.cond m) := by
    intro w hw
    cases w with
    | event q => exact nomatch hw
    | mutex m' => exact Or.inl (congrArg (some ∘ Use.lock) (Queue.mutex.inj hw))
    | relock c => exact Or.inr (congrArg (some ∘ Use.cond) (Queue.mutex.inj hw))
  cases p with
  | sleep w => exact hwait w (Option.some.inj h)
  | retry w =>
    rw [use_wait.2]
    exact hwait w (Option.some.inj h)
  | _ => exact nomatch h

theorem not_isForeign_bioLock (b : Bio) : ¬IsForeign (bioLock b) := fun h => h.2 b rfl

theorem bioLock_inj {b b' : Bio} (h : bioLock b = bioLock b') : b = b' := by
  simp only [bioLock] at h
  change @Eq ℕ b b'
  omega

/-- Who uses a lock of a request and is not the worker is in `bio_wait`. -/
theorem Task.MayUse.wait {p : Task} {b : Bio} {u : Use} (h : p.MayUse u)
    (hu : u = .lock (bioLock b) ∨ u = .cond (bioLock b)) (hw : p.works = false) : p = .wait b .test := by
  cases p with
  | idle => rcases hu with rfl | rfl <;> exact absurd h (not_isForeign_bioLock b)
  | submit b' at' =>
    cases at' with
    | add =>
      rcases hu with rfl | rfl
      · exact absurd (Use.lock.inj h) (bioLock_ne_queueLock b)
      · exact nomatch h
    | notify => exact h.elim
    | unlock => exact h.elim
  | wait b' at' =>
    cases at' with
    | test =>
      rcases hu with rfl | rfl <;> rcases h with h | h
      · rw [bioLock_inj (Use.lock.inj h)]
      · exact nomatch h
      · exact nomatch h
      · rw [bioLock_inj (Use.cond.inj h)]
    | sleep => exact h.elim
    | unlock => exact h.elim
  | dequeue at' => exact nomatch hw
  | handle b' => exact nomatch hw
  | finish b' st at' => exact nomatch hw

/-- **A wait head that the worker may find** is one of a thread that is still in `bio_wait`. -/
theorem IdeOk.refers (h : IdeOk worker s) {b : Bio} {t : Tid} (hr : Refers s.kernel worker b t)
    (hne : t ≠ worker) : s.task t = .wait b .test ∧ (s.kernel.pc t).use ≠ none := by
  have hk := h.placed.run.sound.1
  have hcond : (s.kernel.pc t).waitsOn mutexOf = some (.cond (bioLock b)) →
      (s.kernel.pc t).use = some (.cond (bioLock b)) := fun hw => use_of_inCond (inCond_of_waitsOn hw)
  have huse : (s.kernel.pc t).use = some (.lock (bioLock b)) ∨
      (s.kernel.pc t).use = some (.cond (bioLock b)) := by
    rcases hr with hq | hq | ⟨l, hl, ht⟩ | hw
    · exact Or.inr (hcond (hk.waits.queued _ t hq).2)
    · exact use_of_waitsOn_mutex (hk.waits.queued _ t hq).2
    · exact Or.inr (hcond ((hk.waits.pending worker _ l hl).2 t ht).2.1)
    · exact Or.inr (use_of_inCond (hk.waits.walked worker _ t hw))
  have hworks : (s.task t).works = false := by
    by_contra hc
    exact hne ((h.placed.works t).1 (by simpa using hc))
  rcases huse with huse | huse
  · refine ⟨((h.placed.fits t).uses _ huse).wait (Or.inl rfl) hworks, ?_⟩
    rw [huse]
    exact nofun
  · refine ⟨((h.placed.fits t).uses _ huse).wait (Or.inr rfl) hworks, ?_⟩
    rw [huse]
    exact nofun

/-! ### What has returned -/

theorem yields_act_returned {a : Act} : Yields (act a) s fun _ s' => s'.returned = s.returned := by
  rw [act]
  refine Yields.bind (ensures_get.2 ?_).yields
  split
  · refine (ensures_set.2 ?_).yields
    rfl
  · exact yields_throw

theorem yields_call_returned {c : Call} {p : Task} :
    Yields (call c p) s fun _ s' => s'.returned = s.returned :=
  Yields.bind (ensures_modify.2 yields_act_returned).yields

theorem yields_goto_returned {p : Task} : Yields (goto p) s fun _ s' => s'.returned = s.returned :=
  (ensures_modify.2 rfl).yields

/-- A `bio_wait` that has returned stays so. -/
theorem yields_move_returned {mv : Move} :
    Yields (move mv) s fun _ s' => ∀ b, s.returned b = true → s'.returned b = true := by
  have hkeep : ∀ {m : IdeM Unit}, Yields m s (fun _ s' => s'.returned = s.returned) →
      Yields m s fun _ s' => ∀ b, s.returned b = true → s'.returned b = true :=
    fun hm => hm.mono fun _ _ hs' _ hb => hs' ▸ hb
  cases mv with
  | timer => exact hkeep yields_act_returned
  | go b => exact hkeep yields_act_returned
  | other c => exact hkeep yields_act_returned
  | submit b => exact hkeep (Yields.bind (ensures_modify.2 yields_call_returned).yields)
  | wait b => exact hkeep yields_call_returned
  | next ok =>
    rw [move]
    refine Yields.bind (ensures_get.2 ?_).yields
    refine Yields.bind (ensures_get.2 ?_).yields
    cases s.task s.kernel.current with
    | idle => exact hkeep (yields_pure rfl)
    | submit b at' =>
      cases at' with
      | add => exact hkeep (Yields.bind (ensures_modify.2 yields_goto_returned).yields)
      | notify => exact hkeep yields_call_returned
      | unlock => exact hkeep yields_call_returned
    | wait b at' =>
      cases at' with
      | test =>
        refine hkeep (Yields.bind (ensures_get.2 ?_).yields)
        split_ifs
        · exact yields_goto_returned
        · exact yields_goto_returned
      | sleep => exact hkeep yields_call_returned
      | unlock =>
        refine Yields.bind (ensures_modify.2 ?_).yields
        refine yields_call_returned.mono fun _ s' hs' b' hb' => ?_
        rw [hs']
        change Function.update s.returned b true b' = true
        rw [Function.update_apply]
        split_ifs
        · rfl
        · exact hb'
    | dequeue at' =>
      cases at' with
      | lock => exact hkeep yields_call_returned
      | test =>
        refine hkeep (Yields.bind (ensures_get.2 ?_).yields)
        split_ifs
        · exact yields_goto_returned
        · exact yields_goto_returned
      | sleep => exact hkeep yields_call_returned
      | first =>
        refine hkeep (Yields.bind (ensures_get.2 ?_).yields)
        split
        · exact yields_goto_returned
        · exact Yields.bind (ensures_modify.2 yields_goto_returned).yields
      | unlock o =>
        cases o with
        | none => exact hkeep yields_call_returned
        | some b => exact hkeep yields_call_returned
    | handle b =>
      refine hkeep (Yields.bind (ensures_get.2 ?_).yields)
      split_ifs
      · exact yields_goto_returned
      · exact yields_goto_returned
      · exact yields_goto_returned
    | finish b st at' =>
      cases at' with
      | lock => exact hkeep yields_call_returned
      | set => exact hkeep (Yields.bind (ensures_modify.2 yields_goto_returned).yields)
      | notify => exact hkeep yields_call_returned
      | unlock => exact hkeep yields_call_returned

/-- **The queue of requests.** In every state that a run reaches:
every request that was submitted was taken from the queue once or is still in it, and the requests are
taken in the order in which they were submitted;
the worker is not blocked in `condition_wait` for the queue while the queue is not empty, unless a
`bio_submit` is in progress;
`bio_wait` has returned only for a request whose status is set, and then the worker neither has the
request nor finds it in the queue;
a wait head of a thread that the worker may find in the locks of a request, or has in
`wait_queue_notify_all`, is one of a thread that is still in `bio_wait` for it.
Every step that is allowed succeeds, and `bio_wait` stays returned. -/
theorem ideRun_requests (hw : worker ≠ bootstrap) (hrun : IdeRun worker s) :
    (s.submitted = s.dequeued ++ s.bioQueue ∧
      ∀ b ∈ s.submitted, s.dequeued.count b + s.bioQueue.count b = 1) ∧
    ¬(s.kernel.state worker = .blocked ∧
        (s.kernel.pc worker = .condSleep queueLock ∨ s.kernel.pc worker = .condWoken queueLock) ∧
        s.bioQueue ≠ [] ∧ ∀ t b at', s.task t ≠ .submit b at') ∧
    (∀ b, s.returned b = true →
      s.status b ≠ .none ∧ (s.task worker).bio ≠ some b ∧ b ∉ s.bioQueue) ∧
    (∀ b t, Refers s.kernel worker b t → t ≠ worker →
      s.task t = .wait b .test ∧ s.kernel.pc t ≠ .run) ∧
    ∀ mv : Move, mv.Allowed s → Ensures (move mv) s fun _ s' => IdeRun worker s' ∧
      ∀ b, s.returned b = true → s'.returned b = true := by
  have h := hrun.ideOk hw
  have hq := h.requests
  refine ⟨⟨hq.split, fun b hb => ?_⟩, fun hc => ?_, fun b hb => ?_, fun b t hr hne => ?_, fun mv hmv => ?_⟩
  · rw [← List.count_append, ← hq.split]
    exact List.count_eq_one_of_mem hq.nodup hb
  · obtain ⟨hst, hpc, hne, hno⟩ := hc
    have hpark : Parked mutexOf s.kernel queueLock worker := by
      refine ⟨hst, ?_⟩
      rcases hpc with hpc | hpc <;> rw [hpc] <;> rfl
    rcases (h.wakes hpark).2 with hempty | ⟨t, b, ht⟩
    · exact hne hempty
    · exact hno t b _ ht
  · obtain ⟨hst, haway⟩ := hq.returned b hb
    refine ⟨hst, haway, fun hin => ?_⟩
    have hnd := hq.nodup
    rw [hq.split] at hnd
    exact (List.nodup_append.1 hnd).2.2 b (hq.done b hst) b hin rfl
  · obtain ⟨htask, huse⟩ := h.refers hr hne
    refine ⟨htask, fun hc => ?_⟩
    rw [hc] at huse
    exact huse rfl
  · obtain ⟨u, s', hstep, -⟩ := h.ensures_move hmv
    exact ⟨u, s', hstep, hrun.step hmv hstep, yields_move_returned u s' hstep⟩

/-- Whether a step is allowed, for the steps of `oneRequest`. -/
def ready (s : State) : Move → Bool
  | .timer => true
  | .go _ => s.kernel.pc s.kernel.current ≠ .run
  | .other (.createThread _) => s.kernel.pc s.kernel.current = .run ∧ s.task s.kernel.current = .idle
  | .other _ => false
  | .submit b => (s.kernel.pc s.kernel.current = .run ∧ s.task s.kernel.current = .idle) ∧
      s.kernel.current ≠ bootstrap ∧ s.begun b = false
  | .wait _ => (s.kernel.pc s.kernel.current = .run ∧ s.task s.kernel.current = .idle) ∧
      s.kernel.current ≠ bootstrap
  | .next _ => s.kernel.pc s.kernel.current = .run ∧ s.task s.kernel.current ≠ .idle

theorem allowed_of_ready {mv : Move} (h : ready s mv = true) : mv.Allowed s := by
  cases mv with
  | timer => exact trivial
  | other c =>
    cases c with
    | createThread t =>
      simp only [ready, decide_eq_true_eq] at h
      exact ⟨h, trivial, h.1, trivial⟩
    | _ => exact nomatch h
  | _ =>
    simp only [ready, decide_eq_true_eq] at h
    exact h

/-- Make steps that are allowed, as long as they are. -/
def play : List Move → State → State
  | [], s => s
  | mv :: l, s =>
    if ready s mv then
      match move mv s with
      | .ok (_, s') => play l s'
      | .error _ => s
    else s

theorem IdeRun.play (hrun : IdeRun worker s) (l : List Move) : IdeRun worker (Ide.play l s) := by
  induction l generalizing s with
  | nil => exact hrun
  | cons mv l ih =>
    rw [Ide.play]
    split_ifs with hready
    · split
      · rename_i hstep
        exact ih (hrun.step (allowed_of_ready hready) hstep)
      · exact hrun
    · exact hrun

/-- Thread `1` is the worker. Thread `2` submits a request and waits for it, and the worker finishes it. -/
def oneRequest : State :=
  play ([.other (.createThread (some 1)), .go true, .go true, .go true, .go true,
      .other (.createThread (some 2)), .go true, .go true, .go true, .go true, .timer,
      -- the worker finds the queue empty
      .go true, .next true, .go true, .next true, .next true, .go true,
      -- the request is submitted, and its thread waits
      .go true, .submit 0, .go true, .next true, .next true, .next true,
      .wait 0, .go true, .next true, .next true, .go true,
      -- the worker takes the request and finishes it
      .go true, .go true, .next true, .next true, .next true, .next true,
      .next true, .go true, .next true, .next true, .go true, .go true, .go true, .next true,
      .next true, .go true, .next true, .next true, .go true,
      -- `bio_wait` returns
      .go true, .go true, .next true, .next true]) (booted 1 fun _ => 512)

/-- The worker is blocked again, and done with the request. -/
theorem ideRun_requests_oneRequest :
    oneRequest.submitted = [0] ∧ oneRequest.dequeued = [0] ∧ oneRequest.returned 0 = true ∧
      oneRequest.status 0 ≠ .none ∧ (oneRequest.task 1).bio ≠ some 0 := by
  have hrun : IdeRun 1 oneRequest := IdeRun.play (IdeRun.boot _) _
  have hret : oneRequest.returned 0 = true := by decide +kernel
  have hworker : 1 ≠ bootstrap := by decide
  obtain ⟨hst, haway, -⟩ := (ideRun_requests hworker hrun).2.2.1 0 hret
  exact ⟨by decide +kernel, by decide +kernel, hret, hst, haway⟩

end Ide

end Kernel64
