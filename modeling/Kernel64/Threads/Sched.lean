import Kernel64.Threads.Model
import Mathlib.Data.List.Nodup

/-!
# The run queue

`SchedOk` is the invariant of the round-robin scheduler: the active threads are in its list, each once,
but for the one that runs. The functions of the scheduler keep it.
-/

namespace Kernel64

namespace Threads

/-- **The run queue**: every active thread but the running one is in it once, and no other. -/
structure SchedOk (k : Kernel) : Prop where
  nodup : k.active.Nodup
  mem : ∀ t, t ∈ k.active ↔ t ≠ bootstrap ∧ k.state t = .active ∧ t ≠ k.current
  boot : k.state bootstrap = .active

/-- Another thread may run; nothing else changed. -/
structure Switched (k k' : Kernel) : Prop where
  queue : k'.queue = k.queue
  locked : k'.locked = k.locked
  used : k'.used = k.used
  refcount : k'.refcount = k.refcount
  pid : k'.pid = k.pid
  nextPid : k'.nextPid = k.nextPid
  threads : k'.threads = k.threads
  pc : k'.pc = k.pc
  held : k'.held = k.held
  state : k'.state = if k.state k.current = .finished then Function.update k.state k.current .dead
    else k.state
  current : k'.state k'.current = .active

section

variable {k k' : Kernel} {t : Tid} {st : ThreadState}

theorem SchedOk.congr (h : SchedOk k) (hstate : k'.state = k.state) (hcur : k'.current = k.current)
    (hactive : k'.active = k.active) : SchedOk k' := by
  refine ⟨hactive ▸ h.nodup, fun t => ?_, hstate ▸ h.boot⟩
  rw [hactive, hstate, hcur]
  exact h.mem t

/-- The state of the running thread does not matter. -/
theorem SchedOk.setState_current (h : SchedOk k) (hcur : k.current ≠ bootstrap) :
    SchedOk (k.setState k.current st) := by
  refine ⟨h.nodup, fun t => ?_, (Function.update_of_ne hcur.symm _ _).trans h.boot⟩
  by_cases ht : t = k.current
  · subst ht
    exact iff_of_false (fun hc => ((h.mem _).1 hc).2.2 rfl) fun hc => hc.2.2 rfl
  · have hsame : (k.setState k.current st).state t = k.state t := Function.update_of_ne ht _ _
    rw [hsame]
    exact h.mem t

/-- A thread that is not active may get any other inactive state. -/
theorem SchedOk.setState_inactive (h : SchedOk k) (ht : k.state t ≠ .active) (hst : st ≠ .active) :
    SchedOk (k.setState t st) := by
  have hboot : bootstrap ≠ t := fun hc => ht (hc ▸ h.boot)
  refine ⟨h.nodup, fun u => ?_, (Function.update_of_ne hboot _ _).trans h.boot⟩
  by_cases hu : u = t
  · subst hu
    have hself : (k.setState u st).state u = st := Function.update_self _ _ _
    rw [hself]
    exact iff_of_false (fun hc => ht ((h.mem _).1 hc).2.1) fun hc => hst hc.2.1
  · have hsame : (k.setState t st).state u = k.state u := Function.update_of_ne hu _ _
    rw [hsame]
    exact h.mem u

/-- The thread `t` made active. -/
def Kernel.wake (k : Kernel) (t : Tid) : Kernel :=
  { k with state := Function.update k.state t .active, active := k.active ++ [t] }

/-- **Activating** a blocked thread makes it active and queues it. -/
theorem ensures_activateThread (ht : t ≠ bootstrap) (hst : k.state t = .blocked) :
    Ensures (activateThread t) k fun _ k' => k' = k.wake t := by
  have hself : (k.setState t .active).state t = .active := Function.update_self _ _ _
  rw [activateThread, if_neg ht]
  simp only [ensures_bind, ensures_get, hst, if_true, ensures_modify, rrActivateThread, hself,
    ensures_set]
  rfl

theorem SchedOk.wake (h : SchedOk k) (ht : t ≠ bootstrap) (hst : k.state t = .blocked)
    (hcur : t ≠ k.current) : SchedOk (k.wake t) := by
  have hout : t ∉ k.active := fun hc => by
    rw [((h.mem t).1 hc).2.1] at hst
    exact nomatch hst
  refine ⟨List.nodup_append.2 ⟨h.nodup, List.nodup_singleton t, ?_⟩, fun u => ?_,
    (Function.update_of_ne ht.symm _ _).trans h.boot⟩
  · intro a ha b hb hab
    rw [List.mem_singleton] at hb
    exact hout (hb ▸ hab ▸ ha)
  · have hmem : u ∈ (k.wake t).active ↔ u ∈ k.active ∨ u = t := by
      rw [Kernel.wake, List.mem_append, List.mem_singleton]
    rw [hmem]
    by_cases hu : u = t
    · subst hu
      have hself : (k.wake u).state u = .active := Function.update_self _ _ _
      exact iff_of_true (Or.inr rfl) ⟨ht, hself, hcur⟩
    · have hsame : (k.wake t).state u = k.state u := Function.update_of_ne hu _ _
      rw [hsame, or_iff_left hu]
      exact h.mem u

/-! ### Switching -/

/-- The run queue after the running thread is preempted. -/
def Kernel.requeued (k : Kernel) (l : List Tid) : List Tid :=
  if k.current ≠ bootstrap ∧ k.state k.current = .active then l ++ [k.current] else l

/-- The kernel after a switch to `next`, with the threads `l` left in the run queue. -/
def Kernel.switched (k : Kernel) (l : List Tid) (next : Tid) : Kernel :=
  { k with
    active := k.requeued l
    current := next
    state := if k.state k.current = .finished then Function.update k.state k.current .dead
      else k.state }

theorem ensures_preemptThread {l : List Tid} :
    Ensures (preemptThread k.current) { k with active := l } fun _ k' =>
      k' = { k with active := k.requeued l } := by
  rw [preemptThread, rrPreemptThread, Kernel.requeued]
  by_cases hboot : k.current = bootstrap
  · simp [hboot]
  · by_cases hact : k.state k.current = .active
    · simp [hboot, hact]
    · simp [hboot, hact]

theorem ensures_placeThread {next : Tid} :
    Ensures (placeThread next) k fun _ k' => k' = { k with
      current := next
      state := if k.state k.current = .finished then Function.update k.state k.current .dead
        else k.state } := by
  rw [placeThread]
  by_cases hfin : k.state k.current = .finished
  · simp [hfin, Kernel.setState]
  · simp [hfin]

theorem ensures_switchTo {l : List Tid} {next : Tid} :
    Ensures (switchTo next) { k with active := l } fun _ k' => k' = k.switched l next := by
  rw [switchTo]
  simp only [ensures_bind, ensures_get]
  refine ensures_preemptThread.mono fun _ k₁ hk₁ => ?_
  rw [hk₁]
  exact ensures_placeThread

/-- **Switching** to another thread, taken from the run queue, or to `bootstrap`. -/
theorem SchedOk.switched {l : List Tid} {next : Tid} (h : SchedOk k)
    (hl : ∀ t, t ∈ l ↔ t ∈ k.active ∧ t ≠ next) (hnd : l.Nodup) (hne : next ≠ k.current)
    (hnext : k.state next = .active) :
    SchedOk (k.switched l next) ∧ Switched k (k.switched l next) := by
  have hout : k.current ∉ l := fun hc => ((h.mem _).1 ((hl _).1 hc).1).2.2 rfl
  have hstate : ∀ t, (k.switched l next).state t = .active ↔ k.state t = .active := by
    intro t
    simp only [Kernel.switched]
    split_ifs with hf
    · by_cases ht : t = k.current
      · subst ht
        simp [hf]
      · rw [Function.update_of_ne ht]
    · rfl
  refine ⟨⟨?_, fun t => ?_, (hstate _).2 h.boot⟩,
    ⟨rfl, rfl, rfl, rfl, rfl, rfl, rfl, rfl, rfl, rfl, (hstate next).2 hnext⟩⟩
  · simp only [Kernel.switched, Kernel.requeued]
    split_ifs
    · refine List.nodup_append.2 ⟨hnd, List.nodup_singleton _, fun a ha b hb hab => ?_⟩
      rw [List.mem_singleton] at hb
      exact hout (hb ▸ hab ▸ ha)
    · exact hnd
  · rw [hstate]
    have hmem : t ∈ (k.switched l next).active ↔
        t ∈ l ∨ (t = k.current ∧ k.current ≠ bootstrap ∧ k.state k.current = .active) := by
      simp only [Kernel.switched, Kernel.requeued]
      split_ifs with hc
      · simp [hc]
      · simp [hc]
    rw [hmem, hl, h.mem]
    change _ ↔ t ≠ bootstrap ∧ k.state t = .active ∧ t ≠ next
    by_cases ht : t = k.current
    · subst ht
      have := hne.symm
      tauto
    · tauto

/-- **Scheduling** keeps the run queue, and the thread that runs afterwards is active. -/
theorem SchedOk.ensures_schedule (h : SchedOk k)
    (hboot : k.current = bootstrap → k.state k.current = .active) :
    Ensures schedule k fun _ k' => SchedOk k' ∧ Switched k k' := by
  have hsame : k.state k.current = .active → Switched k k := fun hact =>
    ⟨rfl, rfl, rfl, rfl, rfl, rfl, rfl, rfl, rfl, by rw [hact]; rfl, hact⟩
  rw [schedule, rrNextThread]
  simp only [ensures_bind, ensures_get]
  cases hlist : k.active with
  | nil =>
    simp only [ensures_pure, ensures_ite, reduceCtorEq, false_implies, true_and, not_false_eq_true,
      true_implies, and_true, Option.getD_none]
    refine ⟨fun hact => ⟨h, hsame hact⟩, fun hforce => ?_⟩
    refine (@ensures_switchTo k k.active bootstrap).mono fun _ k' hk' => ?_
    rw [hk']
    exact h.switched (fun t => (and_iff_left_of_imp fun ht => ((h.mem t).1 ht).1).symm) h.nodup
      (fun hc => hforce (hboot hc.symm)) h.boot
  | cons t l =>
    have hmem : t ∈ k.active := by
      rw [hlist]
      exact List.mem_cons_self
    have hnd : (t :: l).Nodup := hlist ▸ h.nodup
    obtain ⟨-, hact, hne⟩ := (h.mem t).1 hmem
    simp only [ensures_bind, ensures_set, ensures_pure, ensures_ite, Option.some.injEq, reduceCtorEq,
      and_false, false_implies, true_and, not_false_eq_true, true_implies, Option.getD_some]
    refine ⟨fun hc => absurd hc hne, fun _ => ?_⟩
    refine ensures_switchTo.mono fun _ k' hk' => ?_
    rw [hk']
    refine h.switched (fun u => ?_) (List.nodup_cons.1 hnd).2 hne hact
    rw [hlist, List.mem_cons]
    have hout := (List.nodup_cons.1 hnd).1
    constructor
    · intro hu
      exact ⟨Or.inr hu, fun hc => hout (hc ▸ hu)⟩
    · rintro ⟨hu, hne'⟩
      exact hu.resolve_left hne'

end

end Threads

end Kernel64
