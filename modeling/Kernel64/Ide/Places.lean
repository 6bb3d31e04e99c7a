import Kernel64.Ide.Invariant

/-!
# The threads of the driver over a step

A step of the driver moves the running thread from one place to another, with or without a call of
`locking.c`. The other threads stay where they are.
-/

namespace Kernel64

namespace Ide

open Threads

/-- **The threads are where their tasks say**, and `worker` is the one that runs `process_bio_queue`. -/
structure Placed (worker : Tid) (s : State) : Prop where
  run : MutexRun mutexOf s.kernel
  fits : ∀ t, Fits (s.task t) (s.kernel.pc t) (s.kernel.held t)
  works : ∀ t, (s.task t).works = true ↔ t = worker
  boot : s.task bootstrap = .idle

section

variable {worker : Tid} {s s' : State} {p : Task} {c : Call}

theorem goto_task (s : State) (p : Task) (t : Tid) :
    (s.goto p).task t = if t = s.kernel.current then p else s.task t := Function.update_apply _ _ _ _

theorem ensures_act {a : Act} {Q : Unit → State → Prop} :
    Ensures (act a) s Q ↔ Ensures (perform mutexOf a) s.kernel fun _ k => Q () { s with kernel := k } := by
  rw [act]
  simp only [ensures_bind, ensures_get]
  constructor
  · intro h
    cases hrun : perform mutexOf a s.kernel with
    | error e =>
      rw [hrun] at h
      exact (ensures_throw.1 h).elim
    | ok r =>
      rw [hrun] at h
      exact ⟨r.1, r.2, hrun, ensures_set.1 h⟩
  · rintro ⟨u, k, hrun, hq⟩
    rw [hrun]
    exact ensures_set.2 hq

/-- The running thread is at a place where it has a mutex. -/
theorem Placed.held {m : ℕ} {t : Tid} (h : Placed worker s) (hm : (s.task t).lock = some m)
    (huse : ∀ u, ¬(s.task t).MayUse u) : s.kernel.held t m = true := by
  have hf := h.fits t
  refine hf.holds m hm (Or.inl ?_)
  have hidle : s.task t ≠ .idle := fun hc => by
    rw [hc] at hm
    exact nomatch hm
  rcases hf.busy hidle with hrun | hu | ⟨hlock, -⟩
  · exact hrun
  · rcases hcall : (s.kernel.pc t).use with _ | u
    · exact absurd hcall hu
    · exact absurd (hf.uses u hcall) (huse u)
  · rw [hlock] at hm
    exact nomatch hm

theorem Placed.excl {m : ℕ} {t u : Tid} (h : Placed worker s) (ht : s.kernel.held t m = true)
    (hu : s.kernel.held u m = true) : t = u :=
  h.run.sound.2.excl t u m ht hu

theorem Placed.goto_works (h : Placed worker s) (hw : p.works = (s.task s.kernel.current).works) (t : Tid) :
    ((s.goto p).task t).works = true ↔ t = worker := by
  rw [goto_task]
  split_ifs with htc
  · rw [hw, htc]
    exact h.works _
  · exact h.works t

theorem Placed.goto_boot (h : Placed worker s) (hb : s.kernel.current = bootstrap → p = .idle) :
    (s.goto p).task bootstrap = .idle := by
  rw [goto_task]
  split_ifs with hc
  · exact hb hc.symm
  · exact h.boot

/-- A thread in the driver is not `bootstrap`. -/
theorem Placed.ne_boot {t : Tid} (h : Placed worker s) (ht : s.task t ≠ .idle) : t ≠ bootstrap := fun hc =>
  ht (hc ▸ h.boot)

/-- Who is not in `process_bio_queue` is not the worker. -/
theorem Placed.ne_worker {t : Tid} (h : Placed worker s) (ht : (s.task t).works = false) : t ≠ worker :=
  fun hc => nomatch ht.symm.trans ((h.works t).2 hc)

/-- **A step inside of the driver.** -/
theorem Placed.goto (h : Placed worker s) (hrun : s.kernel.pc s.kernel.current = .run)
    (hlock : ∀ m, p.lock = some m → (s.task s.kernel.current).lock = some m)
    (hidle : s.task s.kernel.current ≠ .idle) (hw : p.works = (s.task s.kernel.current).works) :
    Placed worker (s.goto p) := by
  refine ⟨h.run, fun t => ?_, h.goto_works hw, h.goto_boot fun hc => absurd hc (h.ne_boot hidle)⟩
  rw [goto_task]
  split_ifs with htc
  · subst htc
    refine ⟨fun u hu => ?_, fun m hm hpc => (h.fits _).holds m (hlock m hm) hpc, fun _ => Or.inl hrun⟩
    change (s.kernel.pc s.kernel.current).use = some u at hu
    rw [hrun] at hu
    exact nomatch hu
  · exact h.fits t

/-- **A call of `locking.c`.** -/
theorem Placed.ensures_call (h : Placed worker s) (hdis : (Act.call c).Disciplined mutexOf s.kernel)
    (huse : ∀ u, c.use = some u → p.MayUse u)
    (hhold : ∀ m, p.lock = some m → c.instant = true ∨ (∃ c', c.use = some (.notify c')) →
      c.lose mutexOf (s.kernel.held s.kernel.current) m = true)
    (hbusy : p ≠ .idle → c.instant = true ∨ c.use ≠ none)
    (hw : p.works = (s.task s.kernel.current).works) (hb : s.kernel.current = bootstrap → p = .idle) :
    Ensures (call c p) s fun _ s' => ∃ k', s' = { s.goto p with kernel := k' } ∧
      perform mutexOf (.call c) s.kernel = .ok ((), k') ∧ Placed worker s' ∧
      Frame mutexOf s.kernel (.call c) k' := by
  rw [call, Ide.goto]
  simp only [ensures_bind, ensures_modify]
  rw [ensures_act]
  obtain ⟨hk, hm⟩ := h.run.sound
  obtain ⟨u, k', hstep, hrun', hs⟩ := h.run.ensures_call hdis
  refine ⟨u, k', hstep, k', rfl, hstep, ⟨hrun', fun t => ?_, h.goto_works hw, h.goto_boot hb⟩, hs.frame⟩
  change Fits ((s.goto p).task t) (k'.pc t) (k'.held t)
  rw [goto_task]
  split_ifs with htc
  · subst htc
    exact fits_started hs huse hhold hbusy
  · exact (h.fits t).frame hk hs.frame htc

/-- **A step of the kernel** outside of the driver. -/
theorem Placed.ensures_timer (h : Placed worker s) :
    Ensures (act .timer) s fun _ s' => ∃ k', s' = { s with kernel := k' } ∧ Placed worker s' ∧
      Frame mutexOf s.kernel .timer k' := by
  rw [ensures_act]
  obtain ⟨u, k', hstep, hrun', hs⟩ := h.run.ensures_timer
  refine ⟨u, k', hstep, k', rfl, ⟨hrun', fun t => ?_, h.works, h.boot⟩, hs.frame⟩
  change Fits (s.task t) (k'.pc t) (k'.held t)
  rw [hs.pc, hs.held]
  exact h.fits t

theorem Placed.ensures_go {b : Bool} (h : Placed worker s)
    (hne : s.kernel.pc s.kernel.current ≠ .run) :
    Ensures (act (.go b)) s fun _ s' => ∃ k', s' = { s with kernel := k' } ∧ Placed worker s' ∧
      Frame mutexOf s.kernel (.go b) k' := by
  rw [ensures_act]
  obtain ⟨hk, -⟩ := h.run.sound
  obtain ⟨u, k', hstep, hrun', hf, ho⟩ := h.run.ensures_go (b := b) hne
  refine ⟨u, k', hstep, k', rfl, ⟨hrun', fun t => ?_, h.works, h.boot⟩, hf⟩
  change Fits (s.task t) (k'.pc t) (k'.held t)
  by_cases htc : t = s.kernel.current
  · subst htc
    exact (h.fits _).onwards ho hne
  · exact (h.fits t).frame hk hf htc

theorem outside_use (hout : Outside c) {u : Use} (hu : c.use = some u) : UsesForeign u := by
  cases c with
  | mutexLock m =>
    obtain rfl := Option.some.inj hu
    exact hout
  | conditionWait c =>
    obtain rfl := Option.some.inj hu
    exact hout
  | conditionNotifyAll c =>
    obtain rfl := Option.some.inj hu
    exact hout
  | _ => exact nomatch hu

theorem Placed.ensures_other (h : Placed worker s) (hrest : s.AtRest) (hout : Outside c)
    (hdis : (Act.call c).Disciplined mutexOf s.kernel) :
    Ensures (act (.call c)) s fun _ s' => ∃ k', s' = { s with kernel := k' } ∧ Placed worker s' ∧
      Frame mutexOf s.kernel (.call c) k' := by
  rw [ensures_act]
  obtain ⟨hk, -⟩ := h.run.sound
  obtain ⟨u, k', hstep, hrun', hs⟩ := h.run.ensures_call hdis
  refine ⟨u, k', hstep, k', rfl, ⟨hrun', fun t => ?_, h.works, h.boot⟩, hs.frame⟩
  change Fits (s.task t) (k'.pc t) (k'.held t)
  by_cases htc : t = s.kernel.current
  · subst htc
    rw [hrest.2]
    exact fits_started hs (fun u hu => outside_use hout hu) (fun m hm => (nomatch hm)) fun hc => absurd rfl hc
  · exact (h.fits t).frame hk hs.frame htc

end

end Ide

end Kernel64
