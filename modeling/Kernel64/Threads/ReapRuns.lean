import Kernel64.Threads.Reaping

/-!
# Reaping over whole runs

A thread leaves the tree of threads in the call of `wait` that first sees it dead, and is released with
the last reference. `HistoryOk` ties what has happened to a thread to its state, and every step keeps
it. The loop of `__wait_thread` only ends at a dead thread: who is still in it when another call reaps
the thread never leaves it. This happens to nobody where the calls of `wait` for a thread do not overlap.
-/

namespace Kernel64

namespace Threads

/-- **What a history says about a kernel.** -/
structure HistoryOk (k : Kernel) (h : History) : Prop where
  inside : ∀ t ∈ k.threads, h.registered t = true ∧ h.erased t = 0
  outside : ∀ t, t ∉ k.threads → h.registered t = true → h.erased t = 1
  unregistered : ∀ t, h.registered t = false → h.erased t = 0
  registers : ∀ u t, k.pc u = .register t → h.registered t = false
  reapers : ∀ t, h.reapers t = if k.state t = .reaped then 1 else 0
  erased : ∀ t, h.erased t = 1 → k.state t = .reaped
  erasing : ∀ t ∈ k.threads, k.state t = .reaped → ∃ u, (k.pc u).erases = some t
  released : ∀ t, h.released t = 0 ∨ (h.released t = 1 ∧ k.used t = false)
  used : ∀ t, h.registered t = true → h.released t = 0 → k.used t = true
  alive : ∀ t, k.used t = true → 0 < k.refcount t

section

variable {mutexOf : ℕ → ℕ} {k k' : Kernel} {h : History} {t : Tid} {a : Act}

theorem HistoryOk.calm (ho : HistoryOk k h) (hc : Calm k k') : HistoryOk k' h where
  inside := hc.threads ▸ ho.inside
  outside := hc.threads ▸ ho.outside
  unregistered := ho.unregistered
  registers := fun u t hu => ho.registers u t (hc.registers u t hu)
  reapers := fun t => by simp only [ho.reapers t, hc.reaped]
  erased := fun t ht => (hc.reaped t).2 (ho.erased t ht)
  erasing := fun t ht hst => by
    obtain ⟨u, hu⟩ := ho.erasing t (hc.threads ▸ ht) ((hc.reaped t).1 hst)
    exact ⟨u, (hc.erases u).trans hu⟩
  released := hc.used ▸ ho.released
  used := hc.used ▸ ho.used
  alive := fun t ht => lt_of_lt_of_le (ho.alive t (hc.used ▸ ht)) (hc.refcount t)

/-- A call that erases goes on erasing while another thread makes a step. -/
theorem erasing_of_ne {u : Tid} {p : Pc} (hp : (k.pc k.current).erases = none)
    (hu : (k.pc u).erases = some t) : Function.update k.pc k.current p u = k.pc u := by
  refine Function.update_of_ne (fun hc => ?_) _ _
  rw [hc, hp] at hu
  exact nomatch hu

/-- **Allocating** a thread begins its history. -/
theorem HistoryOk.alloc (ho : HistoryOk k h) (hk : KernelOk mutexOf k) (hrun : k.pc k.current = .run)
    (hused : k.used t = false) (hboot : t ≠ bootstrap)
    (hused' : k'.used = Function.update k.used t true)
    (hcount : k'.refcount = Function.update k.refcount t 1) (hthreads : k'.threads = k.threads)
    (hstate : k'.state = Function.update k.state t .blocked)
    (hpc : k'.pc = Function.update (Function.update k.pc t .newborn) k.current (.register t)) :
    HistoryOk k' (h.created t) := by
  have hout : t ∉ k.threads := fun hc => by
    have := owners_pos_of_mem hc
    rw [hk.refs.unused t hused] at this
    omega
  have hne : ∀ u ∈ k.threads, u ≠ t := fun u hu heq => hout (heq ▸ hu)
  -- a thread without a record is at no place that erases or reaps another one
  have hinert := (hk.life.unregistered t hboot hout).2.2
  refine ⟨fun u hu => ?_, fun u hu hr => ?_, fun u hr => ?_, fun u v hu => ?_, fun u => ?_,
    fun u hu => ?_, fun u hu hst => ?_, fun u => ?_, fun u hr h₀ => ?_, fun u hu => ?_⟩
  · -- every condition is either about the new thread, whose history is empty, or about one that stayed
    rw [hthreads] at hu
    simp only [History.created, Function.update_of_ne (hne u hu)]
    exact ho.inside u hu
  · rw [hthreads] at hu
    simp only [History.created] at hr ⊢
    by_cases hut : u = t
    · rw [hut, Function.update_self] at hr
      exact nomatch hr
    · rw [Function.update_of_ne hut] at hr ⊢
      exact ho.outside u hu hr
  · simp only [History.created] at hr ⊢
    by_cases hut : u = t
    · rw [hut, Function.update_self]
    · rw [Function.update_of_ne hut] at hr ⊢
      exact ho.unregistered u hr
  · simp only [History.created]
    by_cases hvt : v = t
    · rw [hvt, Function.update_self]
    · rw [Function.update_of_ne hvt]
      rw [hpc] at hu
      by_cases huc : u = k.current
      · rw [huc, Function.update_self] at hu
        exact absurd (Pc.register.inj hu).symm hvt
      · rw [Function.update_of_ne huc] at hu
        by_cases hut : u = t
        · rw [hut, Function.update_self] at hu
          exact nomatch hu
        · rw [Function.update_of_ne hut] at hu
          exact ho.registers u v hu
  · simp only [History.created, hstate]
    by_cases hut : u = t
    · rw [hut, Function.update_self, Function.update_self]
      rfl
    · rw [Function.update_of_ne hut, Function.update_of_ne hut]
      exact ho.reapers u
  · simp only [History.created] at hu
    by_cases hut : u = t
    · rw [hut, Function.update_self] at hu
      omega
    · rw [Function.update_of_ne hut] at hu
      rw [hstate, Function.update_of_ne hut]
      exact ho.erased u hu
  · rw [hthreads] at hu
    rw [hstate, Function.update_of_ne (hne u hu)] at hst
    obtain ⟨v, hv⟩ := ho.erasing u hu hst
    have hvt : v ≠ t := fun heq => by
      rw [heq] at hv
      rcases hinert with hp | hp <;> rw [hp] at hv <;> exact nomatch hv
    have hvc : v ≠ k.current := fun heq => by
      rw [heq, hrun] at hv
      exact nomatch hv
    refine ⟨v, ?_⟩
    rw [hpc, Function.update_of_ne hvc, Function.update_of_ne hvt]
    exact hv
  · simp only [History.created]
    by_cases hut : u = t
    · rw [hut, Function.update_self]
      exact Or.inl rfl
    · rw [Function.update_of_ne hut, hused', Function.update_of_ne hut]
      exact ho.released u
  · simp only [History.created] at hr h₀
    by_cases hut : u = t
    · rw [hut, Function.update_self] at hr
      exact nomatch hr
    · rw [Function.update_of_ne hut] at hr h₀
      rw [hused', Function.update_of_ne hut]
      exact ho.used u hr h₀
  · rw [hcount]
    by_cases hut : u = t
    · rw [hut, Function.update_self]
      omega
    · rw [Function.update_of_ne hut]
      rw [hused', Function.update_of_ne hut] at hu
      exact ho.alive u hu

/-- **Registering** a thread. -/
theorem HistoryOk.register {i : ℤ} (ho : HistoryOk k h) (hk : KernelOk mutexOf k)
    (hpc : k.pc k.current = .register t) (hused : k'.used = k.used) (hcount : k'.refcount = k.refcount)
    (hthreads : k'.threads = t :: k.threads) (hstate : k'.state = k.state)
    (hpc' : k'.pc = Function.update k.pc k.current (.lookup t i)) :
    HistoryOk k' { h with registered := Function.update h.registered t true } := by
  have hnew := ho.registers k.current t hpc
  have hfresh := (hk.life.fresh k.current t (by rw [hpc]; rfl)).1
  have howned : k.used t = true :=
    hk.refs.used_of_owned (hk.refs.owners_pos_of_holds (u := k.current) (by rw [hpc]; rfl))
  refine ⟨fun u hu => ?_, fun u hu hr => ?_, fun u hr => ?_, fun u v hu => ?_, fun u => ?_,
    fun u hu => ?_, fun u hu hst => ?_, fun u => ?_, fun u hr h₀ => ?_, fun u hu => ?_⟩
  · rw [hthreads, List.mem_cons] at hu
    simp only
    by_cases hut : u = t
    · rw [hut, Function.update_self]
      exact ⟨rfl, ho.unregistered t hnew⟩
    · rw [Function.update_of_ne hut]
      exact ho.inside u (hu.resolve_left hut)
  · rw [hthreads, List.mem_cons, not_or] at hu
    dsimp only at hr
    rw [Function.update_of_ne hu.1] at hr
    exact ho.outside u hu.2 hr
  · dsimp only at hr
    have hut : u ≠ t := fun heq => by
      rw [heq, Function.update_self] at hr
      exact nomatch hr
    rw [Function.update_of_ne hut] at hr
    exact ho.unregistered u hr
  · rw [hpc'] at hu
    by_cases huc : u = k.current
    · rw [huc, Function.update_self] at hu
      exact nomatch hu
    · rw [Function.update_of_ne huc] at hu
      have hvt : v ≠ t := fun heq => by
        refine huc (hk.life.fresh_inj u k.current t ?_ (by rw [hpc]; rfl))
        rw [hu, heq]
        rfl
      simp only [Function.update_of_ne hvt]
      exact ho.registers u v hu
  · rw [hstate]
    exact ho.reapers u
  · rw [hstate]
    exact ho.erased u hu
  · rw [hthreads, List.mem_cons] at hu
    rw [hstate] at hst
    have hut : u ≠ t := fun heq => by
      rw [heq, hfresh] at hst
      exact nomatch hst
    obtain ⟨v, hv⟩ := ho.erasing u (hu.resolve_left hut) hst
    refine ⟨v, ?_⟩
    rw [hpc', erasing_of_ne (by rw [hpc]; rfl) hv]
    exact hv
  · rw [hused]
    exact ho.released u
  · rw [hused]
    dsimp only at hr
    by_cases hut : u = t
    · rw [hut]
      exact howned
    · rw [Function.update_of_ne hut] at hr
      exact ho.used u hr h₀
  · rw [hcount]
    exact ho.alive u (hused ▸ hu)

/-- The running thread goes on to a place that matters to no history. -/
theorem HistoryOk.goto {p : Pc} (ho : HistoryOk k h) (hp : p.erases = (k.pc k.current).erases)
    (hr : ∀ t, p ≠ .register t) : HistoryOk (k.goto p) h := by
  refine { ho with registers := fun u t hu => ?_, erasing := fun t ht hst => ?_ }
  · rw [goto_pc] at hu
    split_ifs at hu
    · exact absurd hu (hr t)
    · exact ho.registers u t hu
  · obtain ⟨u, hu⟩ := ho.erasing t ht hst
    refine ⟨u, ?_⟩
    rw [goto_pc]
    split_ifs with huc
    · rw [hp, ← huc]
      exact hu
    · exact hu

/-- **`lookup_thread`** in a call. -/
theorem HistoryOk.lookup {p : Pc} (ho : HistoryOk k h) (hpc : k.pc k.current = .run)
    (he : p.erases = none) (hr : ∀ t, p ≠ .register t) :
    HistoryOk ({ k with refcount := Function.update k.refcount t (k.refcount t + 1) }.goto p) h := by
  have hcounted : HistoryOk { k with refcount := Function.update k.refcount t (k.refcount t + 1) } h := by
    refine { ho with alive := fun u hu => ?_ }
    have := ho.alive u hu
    dsimp only
    rw [Function.update_apply]
    split_ifs with hut
    · rw [hut] at this
      omega
    · exact this
  refine hcounted.goto ?_ hr
  dsimp only
  rw [hpc]
  exact he

/-- **Reaping** a thread for the first time, or again. -/
theorem HistoryOk.reap (ho : HistoryOk k h) (hpc : k.pc k.current = .reap t) :
    HistoryOk ((k.setState t .reaped).goto (if k.state t = .reaped then .put t else .erase t))
      (if k.state t = .reaped then h
        else { h with reapers := Function.update h.reapers t (h.reapers t + 1) }) := by
  have hnone : (k.pc k.current).erases = none := by
    rw [hpc]
    rfl
  split_ifs with hst
  · have hsame : k.setState t .reaped = k := by
      rw [Kernel.setState, ← hst, Function.update_eq_self]
    rw [hsame]
    exact ho.goto hnone.symm (by simp)
  · have hstate : ∀ u, u ≠ t → (k.setState t .reaped).state u = k.state u := fun u hu =>
      Function.update_of_ne hu _ _
    have hself : (k.setState t .reaped).state t = .reaped := Function.update_self _ _ _
    have hpc' : ∀ u, ((k.setState t .reaped).goto (.erase t)).pc u =
        if u = k.current then .erase t else k.pc u := fun u => goto_pc _ _ u
    refine ⟨ho.inside, ho.outside, ho.unregistered, fun u v hu => ?_, fun u => ?_, fun u hu => ?_,
      fun u hu hst' => ?_, ho.released, ho.used, ho.alive⟩
    · rw [hpc'] at hu
      split_ifs at hu
      exact ho.registers u v hu
    · have := ho.reapers u
      change Function.update h.reapers t (h.reapers t + 1) u =
        if (k.setState t .reaped).state u = .reaped then 1 else 0
      by_cases hut : u = t
      · subst hut
        rw [if_neg hst] at this
        rw [Function.update_self, hself, if_pos rfl, this]
      · rw [Function.update_of_ne hut, hstate u hut]
        exact this
    · change (k.setState t .reaped).state u = .reaped
      by_cases hut : u = t
      · rw [hut]
        exact hself
      · rw [hstate u hut]
        exact ho.erased u hu
    · by_cases hut : u = t
      · refine ⟨k.current, ?_⟩
        rw [hpc', if_pos rfl, hut]
        rfl
      · have hold : k.state u = .reaped := (hstate u hut).symm.trans hst'
        obtain ⟨v, hv⟩ := ho.erasing u hu hold
        have hvc : v ≠ k.current := fun heq => by
          rw [heq, hnone] at hv
          cases hv
        refine ⟨v, ?_⟩
        rw [hpc', if_neg hvc]
        exact hv

/-- **Erasing** a thread from the tree. -/
theorem HistoryOk.erase (ho : HistoryOk k h) (hk : KernelOk mutexOf k)
    (hpc : k.pc k.current = .erase t) :
    HistoryOk ({ k with threads := k.threads.erase t }.goto (.putReaped t))
      { h with erased := Function.update h.erased t (h.erased t + 1) } := by
  obtain ⟨hst, hmem⟩ := hk.life.erased k.current t (by rw [hpc]; rfl)
  obtain ⟨hreg, hzero⟩ := ho.inside t hmem
  have hiff : ∀ u, u ∈ k.threads.erase t ↔ u ≠ t ∧ u ∈ k.threads := fun u => hk.refs.nodup.mem_erase_iff
  have hpc' : ∀ u, ({ k with threads := k.threads.erase t }.goto (.putReaped t)).pc u =
      if u = k.current then .putReaped t else k.pc u := fun u => goto_pc _ _ u
  refine ⟨fun u hu => ?_, fun u hu hr => ?_, fun u hr => ?_, fun u v hu => ?_, ho.reapers,
    fun u hu => ?_, fun u hu hst' => ?_, ho.released, ho.used, ho.alive⟩
  · obtain ⟨hut, hu⟩ := (hiff u).1 hu
    dsimp only
    rw [Function.update_of_ne hut]
    exact ho.inside u hu
  · dsimp only
    by_cases hut : u = t
    · rw [hut, Function.update_self, hzero]
    · rw [Function.update_of_ne hut]
      exact ho.outside u (fun hc => hu ((hiff u).2 ⟨hut, hc⟩)) hr
  · have hut : u ≠ t := fun heq => by
      rw [heq, hreg] at hr
      exact nomatch hr
    dsimp only
    rw [Function.update_of_ne hut]
    exact ho.unregistered u hr
  · rw [hpc'] at hu
    split_ifs at hu
    exact ho.registers u v hu
  · dsimp only at hu
    by_cases hut : u = t
    · rw [hut]
      exact hst
    · rw [Function.update_of_ne hut] at hu
      exact ho.erased u hu
  · obtain ⟨hut, hu⟩ := (hiff u).1 hu
    obtain ⟨v, hv⟩ := ho.erasing u hu hst'
    have hvc : v ≠ k.current := fun heq => by
      rw [heq, hpc] at hv
      exact hut (Option.some.inj hv).symm
    refine ⟨v, ?_⟩
    rw [hpc', if_neg hvc]
    exact hv

/-- **Dropping** a reference. -/
theorem HistoryOk.put {p : Pc} (ho : HistoryOk k h) (hk : KernelOk mutexOf k)
    (hpc : (k.pc k.current = .put t ∧ p = .run) ∨ (k.pc k.current = .putReaped t ∧ p = .put t)) :
    HistoryOk ({ k with
        refcount := Function.update k.refcount t (k.refcount t - 1)
        used := if k.refcount t - 1 = 0 then Function.update k.used t false else k.used }.goto p)
      (if k.refcount t - 1 = 0 then
        { h with released := Function.update h.released t (h.released t + 1) } else h) := by
  have hholds : (k.pc k.current).holds = some t := by
    rcases hpc with ⟨hpc, -⟩ | ⟨hpc, -⟩ <;> rw [hpc] <;> rfl
  have hused : k.used t = true := hk.refs.used_of_owned (hk.refs.owners_pos_of_holds hholds)
  have hpos := ho.alive t hused
  have hnot : h.released t = 0 := (ho.released t).resolve_right fun hc => by
    rw [hused] at hc
    exact nomatch hc.2
  have hgo : ∀ {k₁ : Kernel} {h₁ : History}, k₁.pc = k.pc → k₁.current = k.current →
      HistoryOk k₁ h₁ → HistoryOk (k₁.goto p) h₁ := by
    intro k₁ h₁ hpc₁ hcur₁ ho₁
    refine ho₁.goto ?_ ?_
    · rw [hpc₁, hcur₁]
      rcases hpc with ⟨hpc, rfl⟩ | ⟨hpc, rfl⟩ <;> rw [hpc] <;> rfl
    · rcases hpc with ⟨-, rfl⟩ | ⟨-, rfl⟩ <;> exact nofun
  have hcount : ∀ u, (u ≠ t ∨ k.refcount t - 1 ≠ 0) → k.used u = true →
      0 < Function.update k.refcount t (k.refcount t - 1) u := by
    intro u hu hused'
    by_cases hut : u = t
    · rw [hut, Function.update_self]
      have := hu.resolve_left (absurd hut)
      omega
    · rw [Function.update_of_ne hut]
      exact ho.alive u hused'
  refine hgo rfl rfl ?_
  split_ifs with hlast
  · refine { ho with released := fun u => ?_, used := fun u hr h₀ => ?_, alive := fun u hu => ?_ }
    · dsimp only
      by_cases hut : u = t
      · rw [hut, Function.update_self, Function.update_self, hnot]
        exact Or.inr ⟨rfl, rfl⟩
      · rw [Function.update_of_ne hut, Function.update_of_ne hut]
        exact ho.released u
    · dsimp only at h₀ ⊢
      have hut : u ≠ t := fun heq => by
        rw [heq, Function.update_self] at h₀
        omega
      rw [Function.update_of_ne hut] at h₀ ⊢
      exact ho.used u hr h₀
    · dsimp only at hu
      have hut : u ≠ t := fun heq => by
        rw [heq, Function.update_self] at hu
        exact nomatch hu
      rw [Function.update_of_ne hut] at hu
      exact hcount u (Or.inl hut) hu
  · exact { ho with alive := fun u hu => hcount u (Or.inr hlast) hu }

/-- **Every step** keeps the history true. -/
theorem HistoryOk.step (ho : HistoryOk k h) (hk : KernelOk mutexOf k) (ha : a.Allowed mutexOf k)
    (hrun : perform mutexOf a k = .ok ((), k')) : HistoryOk k' (h.observe k a) := by
  cases hk.lifeStep ha hrun with
  | calm hc hobs =>
    rw [hobs]
    exact ho.calm hc
  | alloc ha hpc hused hboot hused' hcount hthreads hstate hpc' =>
    rw [ha, History.observe, if_pos ⟨hused, hboot⟩]
    exact ho.alloc hk hpc hused hboot hused' hcount hthreads hstate hpc'
  | register ha hpc hused hcount hthreads hstate hpc' =>
    rw [ha, History.observe]
    simp only [hpc, if_true]
    exact ho.register hk hpc hused hcount hthreads hstate hpc'
  | lookup ha hpc hfind =>
    rcases ha with ⟨rfl, rfl⟩ | ⟨rfl, rfl⟩ <;> exact ho.lookup hpc rfl fun _ hr => (by cases hr)
  | reap ha hpc =>
    rw [ha, History.observe]
    simp only [hpc]
    exact ho.reap hpc
  | erase ha hpc =>
    rw [ha, History.observe]
    simp only [hpc]
    exact ho.erase hk hpc
  | put ha hpc =>
    rw [ha, History.observe]
    have hobs := ho.put hk hpc
    rcases hpc with ⟨hpc, rfl⟩ | ⟨hpc, rfl⟩ <;> simp only [hpc] <;> exact hobs

/-! ### Reaped once -/

/-- Runs with their histories. -/
inductive HistoryRun (mutexOf : ℕ → ℕ) : Kernel → History → Prop
  | boot : HistoryRun mutexOf bootKernel .none
  | step {k k' : Kernel} {h : History} {a : Act} : HistoryRun mutexOf k h → a.Allowed mutexOf k →
      perform mutexOf a k = .ok ((), k') → HistoryRun mutexOf k' (h.observe k a)

theorem historyOk_bootKernel : HistoryOk bootKernel .none := by
  have hnone : ∀ t, bootKernel.state t ≠ .reaped := by
    intro t
    simp only [bootKernel]
    split_ifs <;> simp
  refine ⟨fun _ ht => (by cases ht), fun _ _ hr => (by cases hr), fun _ _ => rfl, fun u t hu => ?_,
    fun t => (if_neg (hnone t)).symm, fun _ ht => (by cases ht), fun _ ht => (by cases ht),
    fun _ => Or.inl rfl, fun _ hr => (by cases hr), fun _ hu => (by cases hu)⟩
  rcases bootKernel_pc u with hp | hp <;> rw [hp] at hu <;> cases hu

theorem HistoryRun.sound (hrun : HistoryRun mutexOf k h) : KernelOk mutexOf k ∧ HistoryOk k h := by
  induction hrun with
  | boot => exact ⟨kernelOk_bootKernel, historyOk_bootKernel⟩
  | step _ ha hstep ih =>
    exact ⟨((ih.1.ensures_perform ha).of_run hstep).1, ih.2.step ih.1 ha hstep⟩

/-- The next step of the running thread runs `release_thread`. -/
def Releases (k : Kernel) (t : Tid) : Prop :=
  (k.pc k.current = .put t ∨ k.pc k.current = .putReaped t) ∧ k.refcount t - 1 = 0

/-- **A thread is reaped once.** -/
structure ReapedOnce (k : Kernel) (h : History) : Prop where
  pids : ∀ t ∈ k.threads, ∀ t' ∈ k.threads, k.pid t = k.pid t' → t = t'
  reapers : ∀ t, h.reapers t ≤ 1
  erased : ∀ t, h.erased t ≤ h.reapers t
  released : ∀ t, h.released t ≤ 1
  order : ∀ t, h.registered t = true → h.released t ≤ h.erased t
  /-- once no call has the thread any more, everything has been done -/
  done : ∀ t, h.registered t = true → h.reapers t = 1 → (∀ u, (k.pc u).holds ≠ some t) →
    h.erased t = 1 ∧ h.released t = 1
  dead : ∀ u t, k.pc u = .reap t → k.state t ≠ .reaped → k.state t = .dead
  last : ∀ t, h.registered t = true → Releases k t →
    k.state t = .reaped ∧ t ≠ k.current ∧ k.pc t = .exited ∧ h.erased t = 1 ∧
      ∀ u, u ≠ k.current → (k.pc u).holds ≠ some t

theorem drops_holds {p : Pc} (hp : p.drops = some t) : p.holds = some t := by
  cases p <;> first | exact hp | exact nomatch hp

theorem HistoryOk.erased_le (ho : HistoryOk k h) (t : Tid) : h.erased t = 0 ∨ h.erased t = 1 := by
  cases hr : h.registered t with
  | false => exact Or.inl (ho.unregistered t hr)
  | true =>
    by_cases ht : t ∈ k.threads
    · exact Or.inl (ho.inside t ht).2
    · exact Or.inr (ho.outside t ht hr)

/-- Who drops the last reference is the only owner. -/
theorem KernelOk.last_owner (hk : KernelOk mutexOf k) (hr : Releases k t) :
    t ∉ k.threads ∧ ∀ u, u ≠ k.current → (k.pc u).holds ≠ some t := by
  obtain ⟨hpc, hcount⟩ := hr
  have hholds : (k.pc k.current).holds = some t := by
    rcases hpc with hpc | hpc <;> rw [hpc] <;> rfl
  have hused := hk.refs.used_of_owned (hk.refs.owners_pos_of_holds hholds)
  have howners : (owners k t : ℤ) = 1 := by
    rw [← hk.refs.count t hused]
    omega
  have hone : 0 < refs (fun u => (k.pc u).holds) t := (refs_pos_iff hk.refs.holds).2 ⟨_, hholds⟩
  rw [owners] at howners
  refine ⟨fun hc => ?_, fun u hu hc => ?_⟩
  · rw [if_pos hc] at howners
    omega
  · have htwo : 1 < refs (fun u => (k.pc u).holds) t :=
      (Set.one_lt_ncard_iff (hk.refs.holds.finite t)).2 ⟨u, k.current, hc, hholds, hu⟩
    omega

theorem HistoryOk.reapedOnce (ho : HistoryOk k h) (hk : KernelOk mutexOf k) : ReapedOnce k h := by
  have hreapers : ∀ t, h.erased t = 1 → h.reapers t = 1 := fun t ht => by
    rw [ho.reapers t, if_pos (ho.erased t ht)]
  refine ⟨hk.refs.pids, fun t => ?_, fun t => ?_, fun t => ?_, fun t hr => ?_, fun t hr h₁ hnone => ?_,
    fun u t hu hst => ?_, fun t hr hrel => ?_⟩
  · rw [ho.reapers]
    split_ifs <;> omega
  · rcases ho.erased_le t with ht | ht
    · omega
    · rw [hreapers t ht, ht]
  · rcases ho.released t with ht | ⟨ht, -⟩ <;> omega
  · rcases ho.released t with ht | ⟨ht, hunused⟩
    · omega
    · have hout : t ∉ k.threads := fun hc => by
        have := owners_pos_of_mem hc
        rw [hk.refs.unused t hunused] at this
        omega
      rw [ho.outside t hout hr, ht]
  · have hst : k.state t = .reaped := by
      have := ho.reapers t
      rw [h₁] at this
      by_contra hc
      rw [if_neg hc] at this
      omega
    have hout : t ∉ k.threads := fun hc => by
      obtain ⟨u, hu⟩ := ho.erasing t hc hst
      exact hnone u (erases_holds hu)
    refine ⟨ho.outside t hout hr, ?_⟩
    rcases ho.released t with h₀ | ⟨ht, -⟩
    · have hused := ho.used t hr h₀
      have hpos := ho.alive t hused
      have hholds : refs (fun u => (k.pc u).holds) t = 0 := (refs_eq_zero_iff hk.refs.holds).2 hnone
      have hdrops : refs (fun u => (k.pc u).drops) t = 0 :=
        (refs_eq_zero_iff hk.refs.drops).2 fun u hu => hnone u (drops_holds hu)
      rw [hk.refs.count t hused, owners, if_neg hout, hholds, hdrops] at hpos
      exact absurd hpos (lt_irrefl _)
    · exact ht
  · exact (hk.life.reaped u t (by rw [hu]; rfl)).resolve_right hst
  · obtain ⟨hout, hothers⟩ := hk.last_owner hrel
    have herased := ho.outside t hout hr
    have hst := ho.erased t herased
    have hcur : t ≠ k.current := fun heq => hk.not_reaped (heq ▸ hst)
    exact ⟨hst, hcur, (hk.life.exited t).2 (Or.inr hst), herased, hothers⟩

/-- **Threads are reaped exactly once**, in every run. -/
theorem historyRun_reapedOnce (hrun : HistoryRun mutexOf k h) : ReapedOnce k h :=
  hrun.sound.2.reapedOnce hrun.sound.1

/-! ### Waiters -/

/-- A call is in the loop of `__wait_thread` for a thread that is reaped. -/
def Stranded (k : Kernel) : Prop := ∃ u t, (k.pc u).loops = some t ∧ k.state t = .reaped

/-- What the loop of `__wait_thread` needs of a step: a `wait` looks up a thread that is not reaped, and a
thread is reaped while no other call is in the loop for it. -/
def Act.Careful (k : Kernel) : Act → Prop
  | .call (.wait pid) =>
    ∀ t, k.threads.find? (fun t => k.pid t = pid) = some t → k.state t ≠ .reaped
  | .go _ => ∀ t, k.pc k.current = .reap t → ∀ u, (k.pc u).loops ≠ some t
  | _ => True

/-- A step after which the running thread is in no loop of `__wait_thread`. -/
theorem not_stranded_goto {p : Pc} (hno : ¬Stranded k) (hp : p.loops = none)
    (hpc : ∀ u, k'.pc u = if u = k.current then p else k.pc u)
    (hstate : ∀ u t, u ≠ k.current → (k.pc u).loops = some t → k'.state t = .reaped →
      k.state t = .reaped) : ¬Stranded k' := by
  rintro ⟨u, t, hu, ht⟩
  rw [hpc] at hu
  split_ifs at hu with huc
  · rw [hp] at hu
    exact nomatch hu
  · exact hno ⟨u, t, hu, hstate u t huc hu ht⟩

/-- **A careful step** strands nobody. -/
theorem LifeStep.not_stranded (hl : LifeStep k a k') (hno : ¬Stranded k) (hc : a.Careful k) :
    ¬Stranded k' := by
  cases hl with
  | calm hcalm _ =>
    rintro ⟨u, t, hu, ht⟩
    exact hno ⟨u, t, hcalm.loops u t hu, (hcalm.reaped t).1 ht⟩
  | @alloc t _ ha hrun hused hboot hused' hcount hthreads hstate hpc =>
    rintro ⟨u, t', hu, ht⟩
    rw [hpc] at hu
    by_cases huc : u = k.current
    · rw [huc, Function.update_self] at hu
      exact nomatch hu
    rw [Function.update_of_ne huc] at hu
    by_cases hut : u = t
    · rw [hut, Function.update_self] at hu
      exact nomatch hu
    rw [Function.update_of_ne hut] at hu
    have htt : t' ≠ t := fun heq => by
      rw [heq, hstate, Function.update_self] at ht
      exact nomatch ht
    rw [hstate, Function.update_of_ne htt] at ht
    exact hno ⟨u, t', hu, ht⟩
  | @register t i _ ha hpc hused hcount hthreads hstate hpc' =>
    refine not_stranded_goto (p := .lookup t i) hno rfl (fun u => ?_) fun u t' _ _ ht => ?_
    · rw [hpc', Function.update_apply]
    · rwa [hstate] at ht
  | @lookup t pid p ha hpc hfind =>
    rcases ha with ⟨rfl, rfl⟩ | ⟨-, rfl⟩
    · rintro ⟨u, t', hu, ht⟩
      rw [goto_pc] at hu
      split_ifs at hu with huc
      · obtain rfl : t = t' := Option.some.inj hu
        exact hc t hfind ht
      · exact hno ⟨u, t', hu, ht⟩
    · exact not_stranded_goto (p := .put t) hno rfl (fun u => goto_pc _ _ u) fun _ _ _ _ ht => ht
  | @reap t b ha hpc =>
    rw [ha] at hc
    have hp : (if k.state t = .reaped then Pc.put t else .erase t).loops = none := by
      split_ifs <;> rfl
    refine not_stranded_goto hno hp (fun u => goto_pc _ _ u) fun u t' _ hu ht => ?_
    have htt : t' ≠ t := fun heq => hc t hpc u (heq ▸ hu)
    have hsame : (k.setState t .reaped).state t' = k.state t' := Function.update_of_ne htt _ _
    exact hsame.symm.trans ht
  | @erase t b ha hpc =>
    exact not_stranded_goto (p := .putReaped t) hno rfl (fun u => goto_pc _ _ u) fun _ _ _ _ ht => ht
  | @put t b p ha hpc =>
    have hp : p.loops = none := by
      rcases hpc with ⟨-, rfl⟩ | ⟨-, rfl⟩ <;> rfl
    exact not_stranded_goto hno hp (fun u => goto_pc _ _ u) fun _ _ _ _ ht => ht

/-! ### Waits that do not overlap -/

/-- No call of `wait` begins for a thread while another call of `wait` for it is under way. -/
def Act.Solo (k : Kernel) : Act → Prop
  | .call (.wait pid) =>
    ∀ t, k.threads.find? (fun t => k.pid t = pid) = some t → ∀ u, (k.pc u).awaits ≠ some t
  | _ => True

/-- One call of `wait` at most is under way for each thread. -/
def Sole (k : Kernel) : Prop := ∀ u v t, (k.pc u).awaits = some t → (k.pc v).awaits = some t → u = v

theorem erases_awaits {p : Pc} (hp : p.erases = some t) : p.awaits = some t := by
  cases p <;> first | exact hp | exact nomatch hp

/-- The running thread goes on in the call of `wait` that it is in, or in none. -/
theorem awaits_goto {p : Pc} (hp : p.awaits = none ∨ p.awaits = (k.pc k.current).awaits)
    (hpc : ∀ u, k'.pc u = if u = k.current then p else k.pc u) {u t : Tid}
    (hu : (k'.pc u).awaits = some t) : (k.pc u).awaits = some t := by
  rw [hpc] at hu
  split_ifs at hu with huc
  · rcases hp with hp | hp
    · exact absurd (hp.symm.trans hu) nofun
    · rw [huc, ← hp]
      exact hu
  · exact hu

/-- Only a `wait` that finds its thread begins to wait for it. -/
theorem LifeStep.awaits (hl : LifeStep k a k') {u t : Tid} (hu : (k'.pc u).awaits = some t) :
    (k.pc u).awaits = some t ∨ u = k.current ∧
      ∃ pid, a = .call (.wait pid) ∧ k.threads.find? (fun t => k.pid t = pid) = some t := by
  cases hl with
  | calm hcalm _ => exact Or.inl (hcalm.awaits u t hu)
  | @alloc t' _ ha hrun hused hboot hused' hcount hthreads hstate hpc =>
    left
    rw [hpc] at hu
    by_cases huc : u = k.current
    · rw [huc, Function.update_self] at hu
      exact nomatch hu
    rw [Function.update_of_ne huc] at hu
    by_cases hut : u = t'
    · rw [hut, Function.update_self] at hu
      exact nomatch hu
    rwa [Function.update_of_ne hut] at hu
  | @register t' i _ ha hpc hused hcount hthreads hstate hpc' =>
    exact Or.inl (awaits_goto (p := .lookup t' i) (Or.inl rfl) (fun u => by
      rw [hpc', Function.update_apply]) hu)
  | @lookup t' pid p ha hpc hfind =>
    rw [goto_pc] at hu
    split_ifs at hu with huc
    · rcases ha with ⟨rfl, rfl⟩ | ⟨-, rfl⟩
      · obtain rfl : t' = t := Option.some.inj hu
        exact Or.inr ⟨huc, pid, rfl, hfind⟩
      · exact nomatch hu
    · exact Or.inl hu
  | @reap t' b ha hpc =>
    refine Or.inl (awaits_goto ?_ (fun u => goto_pc _ _ u) hu)
    split_ifs
    · exact Or.inl rfl
    · rw [hpc]
      exact Or.inr rfl
  | @erase t' b ha hpc =>
    refine Or.inl (awaits_goto (p := .putReaped t') (Or.inr ?_) (fun u => goto_pc _ _ u) hu)
    rw [hpc]
    rfl
  | @put t' b p ha hpc =>
    have hp : p.awaits = none := by
      rcases hpc with ⟨-, rfl⟩ | ⟨-, rfl⟩ <;> rfl
    exact Or.inl (awaits_goto (Or.inl hp) (fun u => goto_pc _ _ u) hu)

theorem LifeStep.sole (hl : LifeStep k a k') (hk : Sole k) (hs : a.Solo k) : Sole k' := by
  intro u v t hu hv
  rcases hl.awaits hu with hu | ⟨rfl, pid, rfl, hfind⟩
  · rcases hl.awaits hv with hv | ⟨rfl, pid, rfl, hfind⟩
    · exact hk u v t hu hv
    · exact absurd hu (hs t hfind u)
  · rcases hl.awaits hv with hv | ⟨rfl, -⟩
    · exact absurd hv (hs t hfind v)
    · rfl

/-- Where no two calls of `wait` for one thread overlap, the loops of `__wait_thread` end: a reaped thread
in the tree is one that a call of `wait` is about to erase. -/
theorem HistoryOk.careful (ho : HistoryOk k h) (hk : Sole k) (hs : a.Solo k) : a.Careful k := by
  cases a with
  | timer => trivial
  | go b =>
    intro t hpc u hu
    have hcur : (k.pc k.current).awaits = some t := by
      rw [hpc]
      rfl
    obtain rfl := hk u k.current t (loops_awaits hu) hcur
    rw [hpc] at hu
    exact nomatch hu
  | call c =>
    cases c with
    | wait pid =>
      intro t hfind hst
      obtain ⟨u, hu⟩ := ho.erasing t (List.mem_of_find?_eq_some hfind) hst
      exact hs t hfind u (erases_awaits hu)
    | _ => trivial

/-- Runs in which no two calls of `wait` for one thread overlap. -/
inductive SoloRun (mutexOf : ℕ → ℕ) : Kernel → History → Prop
  | boot : SoloRun mutexOf bootKernel .none
  | step {k k' : Kernel} {h : History} {a : Act} : SoloRun mutexOf k h → a.Allowed mutexOf k →
      a.Solo k → perform mutexOf a k = .ok ((), k') → SoloRun mutexOf k' (h.observe k a)

theorem bootKernel_awaits (u : Tid) : (bootKernel.pc u).awaits = none := by
  rcases bootKernel_pc u with hp | hp <;> rw [hp] <;> rfl

theorem SoloRun.sound (hrun : SoloRun mutexOf k h) :
    KernelOk mutexOf k ∧ HistoryOk k h ∧ Sole k ∧ ¬Stranded k := by
  induction hrun with
  | boot =>
    refine ⟨kernelOk_bootKernel, historyOk_bootKernel, fun u v t hu _ => ?_, fun ⟨u, t, hu, _⟩ => ?_⟩
    · exact absurd ((bootKernel_awaits u).symm.trans hu) nofun
    · exact absurd ((bootKernel_awaits u).symm.trans (loops_awaits hu)) nofun
  | step _ ha hs hstep ih =>
    obtain ⟨hk, ho, hsole, hno⟩ := ih
    have hl := hk.lifeStep ha hstep
    exact ⟨((hk.ensures_perform ha).of_run hstep).1, ho.step hk ha hstep, hl.sole hsole hs,
      hl.not_stranded hno (ho.careful hsole hs)⟩

/-- **No waiter is stranded** in a run in which no two calls of `wait` for one thread overlap. -/
theorem soloRun_not_stranded (hrun : SoloRun mutexOf k h) : ¬Stranded k := hrun.sound.2.2.2

/-! ### Two runs -/

/-- Whether one of the steps that concern no lock is allowed. -/
def Act.lockless (k : Kernel) : Act → Bool
  | .timer => true
  | .go _ => decide (k.pc k.current ≠ .run)
  | .call (.createThread _) => decide (k.pc k.current = .run)
  | .call (.wait _) => decide (k.pc k.current = .run)
  | .call (.lookup _) => decide (k.pc k.current = .run)
  | .call .exit => decide (k.pc k.current = .run) && decide (k.current ≠ bootstrap)
  | _ => false

theorem Act.allowed_of_lockless (ha : a.lockless k = true) : a.Allowed mutexOf k := by
  cases a with
  | timer => trivial
  | go b =>
    rw [Act.lockless, decide_eq_true_iff] at ha
    exact ha
  | call c =>
    cases c with
    | createThread t => exact ⟨of_decide_eq_true ha, trivial⟩
    | wait pid => exact ⟨of_decide_eq_true ha, trivial⟩
    | lookup pid => exact ⟨of_decide_eq_true ha, trivial⟩
    | exit =>
      rw [Act.lockless, Bool.and_eq_true, decide_eq_true_iff, decide_eq_true_iff] at ha
      exact ha
    | _ => exact nomatch ha

/-- The kernel and its history after some steps that concern no lock. -/
def replay : List Act → Kernel × History → Option (Kernel × History)
  | [], r => some r
  | a :: l, (k, h) =>
    if a.lockless k then
      match perform (fun c => c) a k with
      | .ok ((), k') => replay l (k', h.observe k a)
      | .error _ => none
    else none

theorem HistoryRun.replay {l : List Act} (hrun : HistoryRun (fun c => c) k h) {h' : History}
    (hl : Threads.replay l (k, h) = some (k', h')) : HistoryRun (fun c => c) k' h' := by
  induction l generalizing k h with
  | nil =>
    obtain ⟨rfl, rfl⟩ := Prod.mk.inj (Option.some.inj hl)
    exact hrun
  | cons a l ih =>
    rw [Threads.replay] at hl
    split_ifs at hl with ha
    cases hstep : perform (fun c => c) a k with
    | error e =>
      rw [hstep] at hl
      exact nomatch hl
    | ok r =>
      rw [hstep] at hl
      exact ih (hrun.step (Act.allowed_of_lockless ha) hstep) hl

theorem HistoryRun.kernelRun (hrun : HistoryRun mutexOf k h) : KernelRun mutexOf k := by
  induction hrun with
  | boot => exact .boot
  | step _ ha hstep ih => exact ih.step ha hstep

/-- `create_kthread`, as far as the thread is activated and put. -/
def creation (t : Tid) : List Act :=
  [.call (.createThread (some t)), .go true, .go true, .go true, .go true]

/-- A thread exits, another one looks it up, and a third one waits for it: the put of the second one
releases it. -/
def oneLookup : List Act :=
  creation 1 ++ creation 2 ++ creation 3 ++ [.timer, .go true, .call .exit, .go true, .call (.lookup 0), .timer,
    .go true, .call (.wait 0), .go true, .go true, .go true, .go true, .go true, .timer, .go true]

theorem historyRun_reapedOnce_oneLookup : ∃ k h, HistoryRun (fun c => c) k h ∧
    h.registered 1 = true ∧ h.released 1 = 1 ∧ ReapedOnce k h := by
  have hreplay : (replay oneLookup (bootKernel, .none)).any
      (fun r => r.2.registered 1 && decide (r.2.released 1 = 1)) = true := by decide
  obtain ⟨⟨k, h⟩, hl, hp⟩ := (Option.any_eq_true _ _).1 hreplay
  rw [Bool.and_eq_true, decide_eq_true_iff] at hp
  have hrun := HistoryRun.boot.replay hl
  exact ⟨k, h, hrun, hp.1, hp.2, historyRun_reapedOnce hrun⟩

/-- While no call of `wait` is under way, any action may come next. -/
theorem Act.solo_of_awaits (hno : ∀ u, (k.pc u).awaits = none) (a : Act) : a.Solo k := by
  cases a with
  | call c =>
    cases c with
    | wait pid => exact fun t _ u hu => absurd ((hno u).symm.trans hu) nofun
    | _ => trivial
  | _ => trivial

/-- An action that begins no call of `wait`. -/
def Act.noWait : Act → Bool
  | .call (.wait _) => false
  | _ => true

theorem Act.solo_of_noWait (ha : a.noWait = true) : a.Solo k := by
  cases a with
  | call c =>
    cases c with
    | wait pid => exact nomatch ha
    | _ => trivial
  | _ => trivial

/-- Actions that begin no call of `wait` may follow any run. -/
theorem SoloRun.replay {l : List Act} (hrun : SoloRun (fun c => c) k h) {h' : History}
    (hl : Threads.replay l (k, h) = some (k', h')) (hno : ∀ a ∈ l, a.noWait = true) :
    SoloRun (fun c => c) k' h' ∧ ((∀ u, (k.pc u).awaits = none) → ∀ u, (k'.pc u).awaits = none) := by
  induction l generalizing k h with
  | nil =>
    obtain ⟨rfl, rfl⟩ := Prod.mk.inj (Option.some.inj hl)
    exact ⟨hrun, id⟩
  | cons a l ih =>
    rw [Threads.replay] at hl
    split_ifs at hl with ha
    cases hstep : perform (fun c => c) a k with
    | error e =>
      rw [hstep] at hl
      exact nomatch hl
    | ok r =>
      rw [hstep] at hl
      have hnoa := hno a List.mem_cons_self
      have hallowed : a.Allowed (fun c => c) k := Act.allowed_of_lockless ha
      obtain ⟨hrun', hkeeps⟩ := ih (hrun.step hallowed (Act.solo_of_noWait hnoa) hstep) hl
        fun a' ha' => hno a' (List.mem_cons_of_mem a ha')
      refine ⟨hrun', fun hnone => hkeeps fun u => ?_⟩
      refine Option.eq_none_iff_forall_ne_some.2 fun t hu => ?_
      rcases (hrun.sound.1.lifeStep hallowed hstep).awaits hu with hu | ⟨-, pid, rfl, -⟩
      · exact absurd ((hnone u).symm.trans hu) nofun
      · exact nomatch hnoa

theorem replay_append {l l' : List Act} {r : Kernel × History} :
    replay (l ++ l') r = (replay l r).bind (replay l') := by
  induction l generalizing r with
  | nil => rfl
  | cons a l ih =>
    rw [List.cons_append, replay, replay]
    split_ifs
    · cases perform (fun c => c) a r.1 with
      | error e => rfl
      | ok r' => exact ih
    · rfl

/-- A thread is created and waited for, exits, and is reaped. -/
def oneWaiter : List Act :=
  creation 1 ++ [.call (.wait 0), .go true, .go true, .go true, .call .exit, .go true, .go true,
    .go true, .go true, .go true]

/-- A thread is created and waited for, and exits: the caller of `wait` leaves the loop and reaps it. -/
theorem soloRun_not_stranded_oneWaiter : ∃ k h, SoloRun (fun c => c) k h ∧ k.state 1 = .reaped ∧
    h.reapers 1 = 1 ∧ ¬Stranded k := by
  have hreplay : (replay oneWaiter (bootKernel, .none)).any
      (fun r => decide (r.1.state 1 = .reaped) && decide (r.2.reapers 1 = 1)) = true := by decide
  obtain ⟨⟨k, h⟩, hl, hp⟩ := (Option.any_eq_true _ _).1 hreplay
  rw [Bool.and_eq_true, decide_eq_true_iff, decide_eq_true_iff] at hp
  rw [oneWaiter, replay_append, Option.bind_eq_some_iff] at hl
  obtain ⟨⟨k₁, h₁⟩, hcreated, hl⟩ := hl
  obtain ⟨hrun₁, hnone⟩ := SoloRun.boot.replay hcreated (by decide)
  rw [replay] at hl
  split_ifs at hl with ha
  cases hwait : perform (fun c => c) (.call (.wait 0)) k₁ with
  | error e =>
    rw [hwait] at hl
    exact nomatch hl
  | ok r =>
    rw [hwait] at hl
    have hsolo := Act.solo_of_awaits (hnone bootKernel_awaits) (.call (.wait 0))
    have hrun := ((hrun₁.step (Act.allowed_of_lockless ha) hsolo hwait).replay hl (by decide)).1
    exact ⟨k, h, hrun, hp.1, hp.2, soloRun_not_stranded hrun⟩

/-- Two threads wait for a third one, which exits, and the first of them reaps it. -/
def twoWaiters : List Act :=
  creation 1 ++ creation 2 ++ creation 3 ++ [.timer, .timer, .go true, .call (.wait 0), .go true, .go true,
    .go true, .call (.wait 0), .go true, .go true, .go true, .call .exit, .go true, .go true]

/-- The second of two waiters is stranded. -/
theorem kernelRun_stranded : ∃ k, KernelRun (fun c => c) k ∧ Stranded k := by
  have hreplay : (replay twoWaiters (bootKernel, .none)).any
      (fun r => decide ((r.1.pc 3).loops = some 1) && decide (r.1.state 1 = .reaped)) = true := by
    decide
  obtain ⟨⟨k, h⟩, hl, hp⟩ := (Option.any_eq_true _ _).1 hreplay
  rw [Bool.and_eq_true, decide_eq_true_iff, decide_eq_true_iff] at hp
  exact ⟨k, (HistoryRun.boot.replay hl).kernelRun, 3, 1, hp.1, hp.2⟩

end

end Threads

end Kernel64
