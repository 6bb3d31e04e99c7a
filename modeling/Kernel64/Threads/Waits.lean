import Kernel64.Threads.Sched

/-!
# Waiting threads

A thread in a wait queue is blocked, and it is in the wait that put it there, so its wait head is still
on its stack. The same is true of the threads that `wait_queue_notify_all` took from a queue and has not
woken yet, as long as the mutex of the condition is locked.
-/

namespace Kernel64

namespace Threads

/-- The condition whose threads are being woken, and those still to be woken. -/
def Pc.notifying : Pc → Option (ℕ × List Tid)
  | .notify c l => some (c, l)
  | .advance c _ l => some (c, l)
  | _ => none

/-- The wait head whose link is read next. -/
def Pc.walking : Pc → Option (ℕ × Tid)
  | .advance c t _ => some (c, t)
  | _ => none

/-- The thread is queued, and about to call `schedule`. -/
def Pc.asleep : Pc → Bool
  | .sleep _ => true
  | .condSleep _ => true
  | _ => false

variable (mutexOf : ℕ → ℕ)

/-- **The wait queues**: who is queued is blocked in the wait that queued it, once. -/
structure WaitOk (k : Kernel) : Prop where
  queued : ∀ q, ∀ t ∈ k.queue q, k.state t = .blocked ∧ (k.pc t).waitsOn mutexOf = some q
  nodup : ∀ q, (k.queue q).Nodup
  pending : ∀ u c l, (k.pc u).notifying = some (c, l) → l.Nodup ∧ ∀ t ∈ l, k.state t = .blocked ∧
    (k.pc t).waitsOn mutexOf = some (.cond c) ∧ t ∉ k.queue (.cond c)
  locked : ∀ u c l, (k.pc u).notifying = some (c, l) → k.locked (mutexOf c) = true
  apart : ∀ u u' c c' l l', (k.pc u).notifying = some (c, l) → (k.pc u').notifying = some (c', l') →
    u ≠ u' → ∀ t ∈ l, t ∉ l'
  walked : ∀ u c t, (k.pc u).walking = some (c, t) → (k.pc t).inCond = some c

section

variable {mutexOf} {k k' : Kernel} {t : Tid} {p : Pc} {q : Queue}

theorem walking_notifying {c : ℕ} (h : p.walking = some (c, t)) : ∃ l, p.notifying = some (c, l) := by
  cases p with
  | advance c' t' l =>
    obtain ⟨rfl, rfl⟩ := Prod.mk.inj (Option.some.inj h)
    exact ⟨l, rfl⟩
  | _ => exact nomatch h

theorem WaitOk.congr (h : WaitOk mutexOf k) (hqueue : k'.queue = k.queue)
    (hlocked : ∀ m, k.locked m = true → k'.locked m = true) (hpc : k'.pc = k.pc)
    (hstate : ∀ t, k.state t = .blocked → k'.state t = .blocked) : WaitOk mutexOf k' := by
  refine ⟨fun q t ht => ?_, fun q => ?_, fun u c l hu => ?_, fun u c l hu => ?_,
    fun u u' c c' l l' hu hu' => ?_, fun u c t hu => ?_⟩
  · rw [hqueue] at ht
    rw [hpc]
    exact ⟨hstate t (h.queued q t ht).1, (h.queued q t ht).2⟩
  · rw [hqueue]
    exact h.nodup q
  · rw [hpc] at hu
    obtain ⟨hnd, hall⟩ := h.pending u c l hu
    refine ⟨hnd, fun t ht => ?_⟩
    rw [hpc, hqueue]
    exact ⟨hstate t (hall t ht).1, (hall t ht).2⟩
  · rw [hpc] at hu
    exact hlocked _ (h.locked u c l hu)
  · rw [hpc] at hu hu'
    exact h.apart u u' c c' l l' hu hu'
  · rw [hpc] at hu ⊢
    exact h.walked u c t hu

/-- The places after one thread goes on. -/
theorem goto_pc (k : Kernel) (p : Pc) (u : Tid) :
    (k.goto p).pc u = if u = k.current then p else k.pc u := Function.update_apply _ _ _ _

/-- **Going on** from one place to another. A blocked thread stays in its wait; a thread leaves
`condition_wait` only when nobody is at its wait head. -/
theorem WaitOk.goto (h : WaitOk mutexOf k)
    (hw : k.state k.current = .blocked → p.waitsOn mutexOf = (k.pc k.current).waitsOn mutexOf)
    (hc : ∀ c, (k.pc k.current).inCond = some c →
      p.inCond = some c ∨ ∀ u, (k.pc u).walking ≠ some (c, k.current))
    (hn : ∀ c l, p.notifying = some (c, l) →
      ∃ l₀, (k.pc k.current).notifying = some (c, l₀) ∧ l.Sublist l₀)
    (hwalk : ∀ c t, p.walking = some (c, t) → t ≠ k.current ∧ (k.pc t).inCond = some c) :
    WaitOk mutexOf (k.goto p) := by
  have hwaits : ∀ t, k.state t = .blocked →
      ((k.goto p).pc t).waitsOn mutexOf = (k.pc t).waitsOn mutexOf := by
    intro t ht
    rw [goto_pc]
    split_ifs with htc
    · subst htc
      exact hw ht
    · rfl
  have hnot : ∀ u c l, ((k.goto p).pc u).notifying = some (c, l) →
      ∃ l₀, (k.pc u).notifying = some (c, l₀) ∧ l.Sublist l₀ := by
    intro u c l hu
    rw [goto_pc] at hu
    split_ifs at hu with huc
    · subst huc
      exact hn c l hu
    · exact ⟨l, hu, List.Sublist.refl l⟩
  refine ⟨fun q t ht => ?_, h.nodup, fun u c l hu => ?_, fun u c l hu => ?_,
    fun u u' c c' l l' hu hu' hne t ht ht' => ?_, fun u c t hu => ?_⟩
  · obtain ⟨hst, hq⟩ := h.queued q t ht
    exact ⟨hst, (hwaits t hst).trans hq⟩
  · obtain ⟨l₀, hu₀, hsub⟩ := hnot u c l hu
    obtain ⟨hnd, hall⟩ := h.pending u c l₀ hu₀
    refine ⟨hnd.sublist hsub, fun t ht => ?_⟩
    obtain ⟨hst, hq, hout⟩ := hall t (hsub.subset ht)
    exact ⟨hst, (hwaits t hst).trans hq, hout⟩
  · obtain ⟨l₀, hu₀, -⟩ := hnot u c l hu
    exact h.locked u c l₀ hu₀
  · obtain ⟨l₀, hu₀, hsub⟩ := hnot u c l hu
    obtain ⟨l₀', hu₀', hsub'⟩ := hnot u' c' l' hu'
    exact h.apart u u' c c' l₀ l₀' hu₀ hu₀' hne t (hsub.subset ht) (hsub'.subset ht')
  · rw [goto_pc] at hu
    have hold : t ≠ k.current → (k.pc t).inCond = some c → ((k.goto p).pc t).inCond = some c := by
      intro htc hin
      rwa [goto_pc, if_neg htc]
    split_ifs at hu with huc
    · exact hold (hwalk c t hu).1 (hwalk c t hu).2
    · by_cases htc : t = k.current
      · subst htc
        have hin := h.walked u c _ hu
        rw [goto_pc, if_pos rfl]
        exact (hc c hin).resolve_right fun hno => hno u hu
      · exact hold htc (h.walked u c t hu)

/-- Waking a thread that is in no list of waiters. -/
theorem WaitOk.wake (h : WaitOk mutexOf k) (hq : ∀ q, t ∉ k.queue q)
    (hp : ∀ u c l, (k.pc u).notifying = some (c, l) → t ∉ l) : WaitOk mutexOf (k.wake t) := by
  have hsame : ∀ u, u ≠ t → (k.wake t).state u = k.state u := fun u hu => Function.update_of_ne hu _ _
  refine ⟨fun q u hu => ?_, h.nodup, fun u c l hu => ?_, h.locked, h.apart, h.walked⟩
  · rw [hsame u fun hc => hq q (hc ▸ hu)]
    exact h.queued q u hu
  · obtain ⟨hnd, hall⟩ := h.pending u c l hu
    refine ⟨hnd, fun v hv => ?_⟩
    rw [hsame v fun hc => hp u c l hu (hc ▸ hv)]
    exact hall v hv

/-- Taking wait heads out of a queue. -/
theorem WaitOk.shrink {l : List Tid} (h : WaitOk mutexOf k) (hl : l.Sublist (k.queue q)) :
    WaitOk mutexOf { k with queue := Function.update k.queue q l } := by
  have hsub : ∀ q', (Function.update k.queue q l q').Sublist (k.queue q') := by
    intro q'
    by_cases hq : q' = q
    · subst hq
      rwa [Function.update_self]
    · rw [Function.update_of_ne hq]
  refine ⟨fun q' t ht => h.queued q' t ((hsub q').subset ht), fun q' => (h.nodup q').sublist (hsub q'),
    fun u c l' hu => ?_, h.locked, h.apart, h.walked⟩
  obtain ⟨hnd, hall⟩ := h.pending u c l' hu
  exact ⟨hnd, fun t ht => ⟨(hall t ht).1, (hall t ht).2.1, fun hc =>
    (hall t ht).2.2 ((hsub _).subset hc)⟩⟩

/-- **Waking the first thread of a queue.** -/
theorem WaitOk.wakeFirst {l : List Tid} (h : WaitOk mutexOf k) (hq : k.queue q = t :: l) :
    WaitOk mutexOf ({ k with queue := Function.update k.queue q l }.wake t) := by
  have ht : t ∈ k.queue q := by
    rw [hq]
    exact List.mem_cons_self
  have hnd := h.nodup q
  rw [hq, List.nodup_cons] at hnd
  have hwait := (h.queued q t ht).2
  refine (h.shrink (hq ▸ List.sublist_cons_self t l)).wake (fun q' hc => ?_) fun u c l' hu hc => ?_
  · by_cases hqq : q' = q
    · subst hqq
      simp only [Function.update_self] at hc
      exact hnd.1 hc
    · simp only [Function.update_of_ne hqq] at hc
      have := (h.queued q' t hc).2
      rw [hwait] at this
      exact hqq (Option.some.inj this).symm
  · obtain ⟨-, hwait', hout⟩ := (h.pending u c l' hu).2 t hc
    rw [hwait] at hwait'
    obtain rfl := Option.some.inj hwait'
    exact hout ht

/-- The running thread marks itself blocked, queues itself and is about to call `schedule`. -/
def Kernel.block (k : Kernel) (q : Queue) (p : Pc) : Kernel :=
  ((k.setState k.current .blocked).enqueue q k.current).goto p

/-- **Blocking.** -/
theorem WaitOk.block (h : WaitOk mutexOf k) (hact : k.state k.current ≠ .blocked)
    (hp : p.waitsOn mutexOf = some q) (hn : p.notifying = none)
    (hc : ∀ c, (k.pc k.current).inCond = some c → p.inCond = some c) :
    WaitOk mutexOf (k.block q p) := by
  have hwalk : p.walking = none := by
    rcases hw : p.walking with _ | ⟨c, t⟩
    · rfl
    · obtain ⟨l, hl⟩ := walking_notifying hw
      rw [hn] at hl
      exact nomatch hl
  have hpc : ∀ u, (k.block q p).pc u = if u = k.current then p else k.pc u := fun u => goto_pc _ p u
  have hstate : ∀ u, (k.block q p).state u = if u = k.current then .blocked else k.state u := fun u =>
    Function.update_apply _ _ _ _
  have hqueue : ∀ q', (k.block q p).queue q' = if q' = q then k.queue q ++ [k.current] else k.queue q' :=
    fun q' => Function.update_apply _ _ _ _
  -- who was blocked before is another thread
  have hother : ∀ u, k.state u = .blocked → u ≠ k.current := fun u hu hc => hact (hc ▸ hu)
  have hnot : ∀ u c l, ((k.block q p).pc u).notifying = some (c, l) →
      u ≠ k.current ∧ (k.pc u).notifying = some (c, l) := by
    intro u c l hu
    rw [hpc] at hu
    split_ifs at hu with huc
    · rw [hn] at hu
      exact nomatch hu
    · exact ⟨huc, hu⟩
  have hmem : ∀ q' u, u ∈ (k.block q p).queue q' → u ∈ k.queue q' ∨ (q' = q ∧ u = k.current) := by
    intro q' u hu
    rw [hqueue] at hu
    split_ifs at hu with hqq
    · subst hqq
      rw [List.mem_append, List.mem_singleton] at hu
      exact hu.imp_right fun hu => ⟨rfl, hu⟩
    · exact Or.inl hu
  refine ⟨fun q' u hu => ?_, fun q' => ?_, fun u c l hu => ?_, fun u c l hu => ?_,
    fun u u' c c' l l' hu hu' hne => ?_, fun u c t hu => ?_⟩
  · rw [hstate, hpc]
    rcases hmem q' u hu with hu | ⟨rfl, rfl⟩
    · obtain ⟨hst, hw⟩ := h.queued q' u hu
      rw [if_neg (hother u hst), if_neg (hother u hst)]
      exact ⟨hst, hw⟩
    · rw [if_pos rfl, if_pos rfl]
      exact ⟨rfl, hp⟩
  · rw [hqueue]
    split_ifs with hqq
    · refine List.nodup_append.2 ⟨h.nodup q, List.nodup_singleton _, fun a ha b hb hab => ?_⟩
      rw [List.mem_singleton] at hb
      exact hother a (h.queued q a ha).1 (hab.trans hb)
    · exact h.nodup q'
  · obtain ⟨huc, hu⟩ := hnot u c l hu
    obtain ⟨hnd, hall⟩ := h.pending u c l hu
    refine ⟨hnd, fun t ht => ?_⟩
    obtain ⟨hst, hw, hout⟩ := hall t ht
    rw [hstate, hpc, if_neg (hother t hst), if_neg (hother t hst)]
    exact ⟨hst, hw, fun hc => (hmem _ t hc).elim hout fun hc => hother t hst hc.2⟩
  · exact h.locked u c l (hnot u c l hu).2
  · exact h.apart u u' c c' l l' (hnot u c l hu).2 (hnot u' c' l' hu').2 hne
  · rw [hpc] at hu ⊢
    split_ifs at hu with huc
    · rw [hwalk] at hu
      exact nomatch hu
    · have hin := h.walked u c t hu
      split_ifs with htc
      · subst htc
        exact hc c hin
      · exact hin

/-- **Taking a whole queue** to wake its threads, with the mutex of the condition locked. -/
theorem WaitOk.splice {c : ℕ} (h : WaitOk mutexOf k) (hlock : k.locked (mutexOf c) = true)
    (hact : k.state k.current ≠ .blocked) (hrun : k.pc k.current = .run) :
    WaitOk mutexOf ({ k with queue := Function.update k.queue (.cond c) [] }.goto
      (.notify c (k.queue (.cond c)))) := by
  set k' := { k with queue := Function.update k.queue (.cond c) [] }.goto
    (.notify c (k.queue (.cond c))) with hk'
  have hpc : ∀ u, k'.pc u = if u = k.current then .notify c (k.queue (.cond c)) else k.pc u := fun u =>
    goto_pc _ _ u
  have hother : ∀ u, k.state u = .blocked → u ≠ k.current := fun u hu hc => hact (hc ▸ hu)
  -- the queue of the condition is empty, and its threads are those the running one is about to wake
  have hsub : ∀ q' u, u ∈ k'.queue q' → u ∈ k.queue q' ∧ q' ≠ .cond c := by
    intro q' u hu
    by_cases hqq : q' = .cond c
    · subst hqq
      have hnil : k'.queue (.cond c) = [] := Function.update_self _ _ _
      rw [hnil] at hu
      exact absurd hu List.not_mem_nil
    · have hsame : k'.queue q' = k.queue q' := Function.update_of_ne hqq _ _
      rw [hsame] at hu
      exact ⟨hu, hqq⟩
  have hnot : ∀ u c' l, (k'.pc u).notifying = some (c', l) →
      (u = k.current ∧ c' = c ∧ l = k.queue (.cond c)) ∨
        (u ≠ k.current ∧ (k.pc u).notifying = some (c', l)) := by
    intro u c' l hu
    rw [hpc] at hu
    split_ifs at hu with huc
    · obtain ⟨rfl, rfl⟩ := Prod.mk.inj (Option.some.inj hu)
      exact Or.inl ⟨huc, rfl, rfl⟩
    · exact Or.inr ⟨huc, hu⟩
  refine ⟨fun q' u hu => ?_, fun q' => ?_, fun u c' l hu => ?_, fun u c' l hu => ?_,
    fun u u' c₁ c₂ l₁ l₂ hu hu' hne t ht ht' => ?_, fun u c' t hu => ?_⟩
  · obtain ⟨hst, hw⟩ := h.queued q' u (hsub q' u hu).1
    rw [hpc, if_neg (hother u hst)]
    exact ⟨hst, hw⟩
  · by_cases hqq : q' = .cond c
    · subst hqq
      have hnil : k'.queue (.cond c) = [] := Function.update_self _ _ _
      rw [hnil]
      exact List.nodup_nil
    · have hsame : k'.queue q' = k.queue q' := Function.update_of_ne hqq _ _
      rw [hsame]
      exact h.nodup q'
  · rcases hnot u c' l hu with ⟨rfl, rfl, rfl⟩ | ⟨-, hu⟩
    · refine ⟨h.nodup _, fun t ht => ?_⟩
      obtain ⟨hst, hw⟩ := h.queued _ t ht
      rw [hpc, if_neg (hother t hst)]
      exact ⟨hst, hw, fun hc => (hsub _ t hc).2 rfl⟩
    · obtain ⟨hnd, hall⟩ := h.pending u c' l hu
      refine ⟨hnd, fun t ht => ?_⟩
      obtain ⟨hst, hw, hout⟩ := hall t ht
      rw [hpc, if_neg (hother t hst)]
      exact ⟨hst, hw, fun hc => hout (hsub _ t hc).1⟩
  · rcases hnot u c' l hu with ⟨rfl, rfl, rfl⟩ | ⟨-, hu⟩
    · exact hlock
    · exact h.locked u c' l hu
  · -- two lists of threads to be woken share none: each thread waits on one condition
    rcases hnot u c₁ l₁ hu with ⟨rfl, rfl, rfl⟩ | ⟨-, hold⟩ <;>
      rcases hnot u' c₂ l₂ hu' with ⟨rfl, rfl, rfl⟩ | ⟨-, hold'⟩
    · exact hne rfl
    · obtain ⟨-, hw, hout⟩ := (h.pending u' c₂ l₂ hold').2 t ht'
      have hw' := (h.queued _ t ht).2
      rw [hw'] at hw
      obtain rfl : c₁ = c₂ := by injection Option.some.inj hw
      exact hout ht
    · obtain ⟨-, hw, hout⟩ := (h.pending u c₁ l₁ hold).2 t ht
      have hw' := (h.queued _ t ht').2
      rw [hw'] at hw
      obtain rfl : c₂ = c₁ := by injection Option.some.inj hw
      exact hout ht'
    · exact h.apart u u' c₁ c₂ l₁ l₂ hold hold' hne t ht ht'
  · rw [hpc] at hu ⊢
    split_ifs at hu with huc
    · exact nomatch hu
    · have hin := h.walked u c' t hu
      split_ifs with htc
      · subst htc
        rw [hrun] at hin
        exact nomatch hin
      · exact hin

/-- **A new thread** in the place of one that waits for nothing. -/
theorem WaitOk.respawn (h : WaitOk mutexOf k) (hpc : ∀ u, u ≠ t → k'.pc u = k.pc u)
    (hnew : k'.pc t = .newborn) (hin : k.pc t = .newborn ∨ k.pc t = .exited)
    (hqueue : k'.queue = k.queue) (hlocked : k'.locked = k.locked)
    (hstate : ∀ u, u ≠ t → k'.state u = k.state u) : WaitOk mutexOf k' := by
  have hw : (k.pc t).waitsOn mutexOf = none := by rcases hin with hin | hin <;> rw [hin] <;> rfl
  have hc : (k.pc t).inCond = none := by rcases hin with hin | hin <;> rw [hin] <;> rfl
  have hout : ∀ q, t ∉ k.queue q := fun q hq => by
    have := (h.queued q t hq).2
    rw [hw] at this
    exact nomatch this
  have hnot : ∀ u c l, (k'.pc u).notifying = some (c, l) → (k.pc u).notifying = some (c, l) := by
    intro u c l hu
    by_cases hut : u = t
    · subst hut
      rw [hnew] at hu
      exact nomatch hu
    · rwa [hpc u hut] at hu
  have hpend : ∀ u c l, (k.pc u).notifying = some (c, l) → t ∉ l := fun u c l hu hl => by
    have := ((h.pending u c l hu).2 t hl).2.1
    rw [hw] at this
    exact nomatch this
  refine ⟨fun q u hu => ?_, fun q => ?_, fun u c l hu => ?_, fun u c l hu => ?_,
    fun u u' c c' l l' hu hu' => h.apart u u' c c' l l' (hnot u c l hu) (hnot u' c' l' hu'),
    fun u c v hu => ?_⟩
  · rw [hqueue] at hu
    have hut : u ≠ t := fun hc => hout q (hc ▸ hu)
    rw [hstate u hut, hpc u hut]
    exact h.queued q u hu
  · rw [hqueue]
    exact h.nodup q
  · obtain ⟨hnd, hall⟩ := h.pending u c l (hnot u c l hu)
    refine ⟨hnd, fun v hv => ?_⟩
    have hvt : v ≠ t := fun hc => hpend u c l (hnot u c l hu) (hc ▸ hv)
    rw [hstate v hvt, hpc v hvt, hqueue]
    exact hall v hv
  · rw [hlocked]
    exact h.locked u c l (hnot u c l hu)
  · have hut : u ≠ t := fun hc => by
      subst hc
      rw [hnew] at hu
      exact nomatch hu
    rw [hpc u hut] at hu
    have hin' := h.walked u c v hu
    have hvt : v ≠ t := fun hv => by
      subst hv
      rw [hc] at hin'
      exact nomatch hin'
    rw [hpc v hvt]
    exact hin'

end

end Threads

end Kernel64
