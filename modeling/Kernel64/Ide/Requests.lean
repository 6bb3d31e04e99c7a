import Kernel64.Ide.Places

/-!
# The requests

A request is added to the queue once and taken from it once, in this order, and its status is set after
that. Once a `bio_wait` has seen the status, the worker is done with the request: the waiter has the
mutex of the request, and the worker keeps it from setting the status to its last use of the request.
-/

namespace Kernel64

namespace Ide

open Threads

/-- **The requests**, as the threads that use them know them. -/
structure QueueOk (worker : Tid) (s : State) : Prop where
  split : s.submitted = s.dequeued ++ s.bioQueue
  nodup : s.submitted.Nodup
  begun : ∀ b ∈ s.submitted, s.begun b = true
  adding : ∀ t b, s.task t = .submit b .add → s.begun b = true ∧ b ∉ s.submitted
  adding_inj : ∀ t u b, s.task t = .submit b .add → s.task u = .submit b .add → t = u
  handled : ∀ b, (s.task worker).bio = some b → b ∈ s.dequeued
  unset : ∀ b, (s.task worker).unset = some b → s.status b = .none
  done : ∀ b, s.status b ≠ .none → b ∈ s.dequeued
  result : ∀ b st p, s.task worker = .finish b st p → st ≠ .none
  asleep : s.task worker = .dequeue .sleep → s.bioQueue = []
  waited : ∀ t b, s.task t = .wait b .unlock → s.status b ≠ .none
  returned : ∀ b, s.returned b = true → s.status b ≠ .none ∧ (s.task worker).bio ≠ some b

section

variable {worker : Tid} {s s' : State} {p : Task} {b : Bio}

theorem QueueOk.kernel (h : QueueOk worker s) (k : Kernel) : QueueOk worker { s with kernel := k } :=
  ⟨h.split, h.nodup, h.begun, h.adding, h.adding_inj, h.handled, h.unset, h.done, h.result, h.asleep,
    h.waited, h.returned⟩

/-- **A thread goes on** and leaves the requests alone. -/
theorem QueueOk.goto (h : QueueOk worker s) (hadd : ∀ b, p ≠ .submit b .add)
    (hwait : ∀ b, p = .wait b .unlock → s.status b ≠ .none)
    (hbio : s.kernel.current = worker → ∀ b, p.bio = some b → (s.task worker).bio = some b)
    (hunset : s.kernel.current = worker → ∀ b, p.unset = some b → (s.task worker).unset = some b)
    (hresult : s.kernel.current = worker → ∀ b st at', p = .finish b st at' → st ≠ .none)
    (hasleep : s.kernel.current = worker → p = .dequeue .sleep → s.bioQueue = []) :
    QueueOk worker (s.goto p) := by
  have hpast : ∀ t b, (s.goto p).task t = .submit b .add → s.task t = .submit b .add := by
    intro t b ht
    rw [goto_task] at ht
    split_ifs at ht
    · exact absurd ht (hadd b)
    · exact ht
  have hworker : ∀ P : Task → Prop, P ((s.goto p).task worker) →
      (s.kernel.current = worker ∧ P p) ∨ P (s.task worker) := by
    intro P hP
    rw [goto_task] at hP
    split_ifs at hP with hc
    · exact Or.inl ⟨hc.symm, hP⟩
    · exact Or.inr hP
  refine ⟨h.split, h.nodup, h.begun, fun t b ht => h.adding t b (hpast t b ht),
    fun t u b ht hu => h.adding_inj t u b (hpast t b ht) (hpast u b hu), fun b hb => ?_, fun b hb => ?_,
    h.done, fun b st at' hb => ?_, fun hb => ?_, fun t b ht => ?_, fun b hb => ⟨(h.returned b hb).1, fun hc => ?_⟩⟩
  · rcases hworker (fun p => p.bio = some b) hb with ⟨hc, hp⟩ | hp
    · exact h.handled b (hbio hc b hp)
    · exact h.handled b hp
  · rcases hworker (fun p => p.unset = some b) hb with ⟨hc, hp⟩ | hp
    · exact h.unset b (hunset hc b hp)
    · exact h.unset b hp
  · rcases hworker (fun p => p = .finish b st at') hb with ⟨hc, hp⟩ | hp
    · exact hresult hc b st at' hp
    · exact h.result b st at' hp
  · rcases hworker (fun p => p = .dequeue .sleep) hb with ⟨hc, hp⟩ | hp
    · exact hasleep hc hp
    · exact h.asleep hp
  · rw [goto_task] at ht
    split_ifs at ht
    · exact hwait b ht
    · exact h.waited t b ht
  · rcases hworker (fun p => p.bio = some b) hc with ⟨hcw, hp⟩ | hp
    · exact (h.returned b hb).2 (hbio hcw b hp)
    · exact (h.returned b hb).2 hp

/-- The same for a thread that is not the worker. -/
theorem QueueOk.goto_client (h : QueueOk worker s) (hne : s.kernel.current ≠ worker)
    (hadd : ∀ b, p ≠ .submit b .add) (hwait : ∀ b, p = .wait b .unlock → s.status b ≠ .none) :
    QueueOk worker (s.goto p) :=
  h.goto hadd hwait (fun hc => absurd hc hne) (fun hc => absurd hc hne) (fun hc => absurd hc hne)
    fun hc => absurd hc hne

theorem goto_worker (hne : s.kernel.current ≠ worker) : (s.goto p).task worker = s.task worker := by
  rw [goto_task, if_neg hne.symm]

/-- **`bio_submit`** is called. -/
theorem QueueOk.begin (h : QueueOk worker s) (hne : s.kernel.current ≠ worker) (hb : s.begun b = false) :
    QueueOk worker ({ s with begun := Function.update s.begun b true }.goto (.submit b .add)) := by
  set s₁ : State := { s with begun := Function.update s.begun b true } with hs₁
  have hw : (s₁.goto (.submit b .add)).task worker = s.task worker := goto_worker (s := s₁) hne
  have hbegun : ∀ b', s.begun b' = true → (s₁.goto (.submit b .add)).begun b' = true := by
    intro b' hb'
    change Function.update s.begun b true b' = true
    rw [Function.update_apply]
    split_ifs
    · rfl
    · exact hb'
  have hout : b ∉ s.submitted := fun hc => nomatch hb.symm.trans (h.begun b hc)
  have hnone : ∀ t, s.task t ≠ .submit b .add := fun t ht => nomatch hb.symm.trans (h.adding t b ht).1
  have hcases : ∀ t b', (s₁.goto (.submit b .add)).task t = .submit b' .add →
      (t = s.kernel.current ∧ b' = b) ∨ s.task t = .submit b' .add := by
    intro t b' ht
    rw [goto_task] at ht
    split_ifs at ht with htc
    · injection ht with h₁
      exact Or.inl ⟨htc, h₁.symm⟩
    · exact Or.inr ht
  refine ⟨h.split, h.nodup, fun b' hb' => hbegun b' (h.begun b' hb'), fun t b' ht => ?_,
    fun t u b' ht hu => ?_, by rw [hw]; exact h.handled, by rw [hw]; exact h.unset, h.done,
    by rw [hw]; exact h.result, by rw [hw]; exact h.asleep, fun t b' ht => ?_, by rw [hw]; exact h.returned⟩
  · rcases hcases t b' ht with ⟨-, rfl⟩ | ht
    · exact ⟨Function.update_self _ _ _, hout⟩
    · exact ⟨hbegun b' (h.adding t b' ht).1, (h.adding t b' ht).2⟩
  · rcases hcases t b' ht with ⟨htc, hbb⟩ | ht <;> rcases hcases u b' hu with ⟨huc, hbb'⟩ | hu
    · rw [htc, huc]
    · exact absurd (hbb ▸ hu) (hnone u)
    · exact absurd (hbb' ▸ ht) (hnone t)
    · exact h.adding_inj t u b' ht hu
  · rw [goto_task] at ht
    split_ifs at ht
    exact h.waited t b' ht

/-- **`list_add_tail`** in `bio_submit`. -/
theorem QueueOk.add (h : QueueOk worker s) (hne : s.kernel.current ≠ worker)
    (htask : s.task s.kernel.current = .submit b .add) (hawake : s.task worker ≠ .dequeue .sleep) :
    QueueOk worker ({ s with
      bioQueue := s.bioQueue ++ [b]
      submitted := s.submitted ++ [b] }.goto (.submit b .notify)) := by
  set s₁ : State := { s with
    bioQueue := s.bioQueue ++ [b]
    submitted := s.submitted ++ [b] } with hs₁
  have hw : (s₁.goto (.submit b .notify)).task worker = s.task worker := goto_worker (s := s₁) hne
  obtain ⟨hbegun, hout⟩ := h.adding _ b htask
  have hpast : ∀ t b', (s₁.goto (.submit b .notify)).task t = .submit b' .add →
      t ≠ s.kernel.current ∧ s.task t = .submit b' .add := by
    intro t b' ht
    rw [goto_task] at ht
    split_ifs at ht with htc
    · injection ht with _ hat
      exact nomatch hat
    · exact ⟨htc, ht⟩
  refine ⟨?_, ?_, fun b' hb' => ?_, fun t b' ht => ?_, fun t u b' ht hu => ?_, by rw [hw]; exact h.handled,
    by rw [hw]; exact h.unset, h.done, by rw [hw]; exact h.result, ?_, fun t b' ht => ?_,
    by rw [hw]; exact h.returned⟩
  · change s.submitted ++ [b] = s.dequeued ++ (s.bioQueue ++ [b])
    rw [h.split, List.append_assoc]
  · refine List.nodup_append.2 ⟨h.nodup, List.nodup_singleton b, fun a ha c hc hac => ?_⟩
    rw [List.mem_singleton] at hc
    exact hout (hc ▸ hac ▸ ha)
  · rcases List.mem_append.1 hb' with hb' | hb'
    · exact h.begun b' hb'
    · rw [List.mem_singleton.1 hb']
      exact hbegun
  · obtain ⟨htc, ht⟩ := hpast t b' ht
    obtain ⟨hbeg, hnot⟩ := h.adding t b' ht
    refine ⟨hbeg, fun hc => ?_⟩
    rcases List.mem_append.1 hc with hc | hc
    · exact hnot hc
    · rw [List.mem_singleton.1 hc] at ht
      exact htc (h.adding_inj t _ b ht htask)
  · exact h.adding_inj t u b' (hpast t b' ht).2 (hpast u b' hu).2
  · rw [hw]
    exact fun hc => absurd hc hawake
  · rw [goto_task] at ht
    split_ifs at ht
    exact h.waited t b' ht

/-- **`bio_wait` returns**, when the worker is not at the request. -/
theorem QueueOk.return_ (h : QueueOk worker s) (hne : s.kernel.current ≠ worker)
    (hst : s.status b ≠ .none) (haway : (s.task worker).bio ≠ some b) :
    QueueOk worker ({ s with returned := Function.update s.returned b true }.goto .idle) := by
  have h₁ : QueueOk worker { s with returned := Function.update s.returned b true } := by
    refine ⟨h.split, h.nodup, h.begun, h.adding, h.adding_inj, h.handled, h.unset, h.done, h.result, h.asleep,
      h.waited, fun b' hb' => ?_⟩
    change Function.update s.returned b true b' = true at hb'
    rw [Function.update_apply] at hb'
    split_ifs at hb' with hbb
    · rw [hbb]
      exact ⟨hst, haway⟩
    · exact h.returned b' hb'
  exact h₁.goto_client hne nofun nofun

/-- **`list_del`** of the first request in `dequeue_bio`. -/
theorem QueueOk.first {l : List Bio} (h : QueueOk worker s) (hcur : s.kernel.current = worker)
    (hq : s.bioQueue = b :: l) :
    QueueOk worker ({ s with
      bioQueue := l
      dequeued := s.dequeued ++ [b] }.goto (.dequeue (.unlock (some b)))) := by
  set s₁ : State := { s with
    bioQueue := l
    dequeued := s.dequeued ++ [b] } with hs₁
  have hw : (s₁.goto (.dequeue (.unlock (some b)))).task worker = .dequeue (.unlock (some b)) := by
    rw [goto_task, if_pos hcur.symm]
  have hsplit : s.submitted = s.dequeued ++ b :: l := hq ▸ h.split
  have hnd := h.nodup
  rw [hsplit] at hnd
  -- the request was not taken before
  have hfresh : b ∉ s.dequeued := fun hc => (List.nodup_append.1 hnd).2.2 b hc b List.mem_cons_self rfl
  have hst : s.status b = .none := by
    by_contra hc
    exact hfresh (h.done b hc)
  have hother : ∀ t p, (s₁.goto (.dequeue (.unlock (some b)))).task t = p →
      (∀ o, p ≠ .dequeue (.unlock o)) → s.task t = p := by
    intro t p ht hp
    rw [goto_task] at ht
    split_ifs at ht
    · exact absurd ht.symm (hp _)
    · exact ht
  refine ⟨?_, h.nodup, h.begun, fun t b' ht => h.adding t b' (hother t _ ht nofun),
    fun t u b' ht hu => h.adding_inj t u b' (hother t _ ht nofun) (hother u _ hu nofun), fun b' hb' => ?_,
    fun b' hb' => ?_, fun b' hb' => List.mem_append_left _ (h.done b' hb'), fun b' st at' hb' => ?_,
    fun hc => ?_, fun t b' ht => h.waited t b' (hother t _ ht nofun), fun b' hb' => ⟨(h.returned b' hb').1, ?_⟩⟩
  · change s.submitted = s.dequeued ++ [b] ++ l
    rw [hsplit, List.append_assoc, List.singleton_append]
  · rw [hw] at hb'
    obtain rfl := Option.some.inj hb'
    exact List.mem_append_right _ (List.mem_singleton_self b)
  · rw [hw] at hb'
    obtain rfl := Option.some.inj hb'
    exact hst
  · rw [hw] at hb'
    exact nomatch hb'
  · rw [hw] at hc
    exact nomatch hc
  · rw [hw]
    intro hc
    obtain rfl := Option.some.inj hc
    exact (h.returned b hb').1 hst

/-- **The status is set** in `finish_bio`. -/
theorem QueueOk.set {st : BioStatus} (h : QueueOk worker s) (hcur : s.kernel.current = worker)
    (htask : s.task worker = .finish b st .set) :
    QueueOk worker ({ s with status := Function.update s.status b st }.goto (.finish b st .notify)) := by
  set s₁ : State := { s with status := Function.update s.status b st } with hs₁
  have hw : (s₁.goto (.finish b st .notify)).task worker = .finish b st .notify := by
    rw [goto_task, if_pos hcur.symm]
  have hst := h.result b st _ htask
  have hb : b ∈ s.dequeued := h.handled b (by rw [htask]; rfl)
  have hstatus : ∀ b', s₁.status b' = if b' = b then st else s.status b' := fun b' =>
    Function.update_apply _ _ _ _
  have hkeep : ∀ b', s.status b' ≠ .none → s₁.status b' ≠ .none := by
    intro b' hb'
    rw [hstatus]
    split_ifs
    · exact hst
    · exact hb'
  have hother : ∀ t p, (s₁.goto (.finish b st .notify)).task t = p →
      (p ≠ .finish b st .notify) → s.task t = p := by
    intro t p ht hp
    rw [goto_task] at ht
    split_ifs at ht
    · exact absurd ht.symm hp
    · exact ht
  refine ⟨h.split, h.nodup, h.begun, fun t b' ht => h.adding t b' (hother t _ ht nofun),
    fun t u b' ht hu => h.adding_inj t u b' (hother t _ ht nofun) (hother u _ hu nofun), fun b' hb' => ?_,
    fun b' hb' => ?_, fun b' hb' => ?_, fun b' st' at' hb' => ?_, fun hc => ?_,
    fun t b' ht => hkeep b' (h.waited t b' (hother t _ ht nofun)),
    fun b' hb' => ⟨hkeep b' (h.returned b' hb').1, ?_⟩⟩
  · rw [hw] at hb'
    obtain rfl := Option.some.inj hb'
    exact hb
  · rw [hw] at hb'
    exact nomatch hb'
  · change s₁.status b' ≠ .none at hb'
    rw [hstatus] at hb'
    split_ifs at hb' with hbb
    · rw [hbb]
      exact hb
    · exact h.done b' hb'
  · rw [hw] at hb'
    injection hb' with _ h₂
    exact h₂ ▸ hst
  · rw [hw] at hc
    exact nomatch hc
  · rw [hw]
    intro hc
    refine (h.returned b' hb').2 ?_
    rw [htask]
    exact hc

end

end Ide

end Kernel64
