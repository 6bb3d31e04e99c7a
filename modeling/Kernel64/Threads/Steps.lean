import Kernel64.Threads.Invariant

/-!
# The steps of the kernel

A step is allowed when the running thread is at the place for it; `bootstrap` never blocks, and the mutex
of a condition stays locked while the threads waiting for the condition are woken all at once. Every
step that is allowed succeeds and keeps the invariant, and `Effect` says what it does to the mutexes.
-/

namespace Kernel64

namespace Threads

variable (mutexOf : ℕ → ℕ)

/-- When a call is allowed. -/
def Call.Allowed (k : Kernel) : Call → Prop
  | .mutexLock _ => k.current ≠ bootstrap
  | .mutexUnlock m => ∀ u c l, (k.pc u).notifying = some (c, l) → mutexOf c ≠ m
  | .waitEvent _ => k.current ≠ bootstrap
  | .conditionWait c => k.current ≠ bootstrap ∧
      ∀ u c' l, (k.pc u).notifying = some (c', l) → mutexOf c' ≠ mutexOf c
  | .conditionNotifyAll c => k.locked (mutexOf c) = true
  | .exit => k.current ≠ bootstrap
  | _ => True

/-- When a step is allowed. -/
def Act.Allowed (k : Kernel) : Act → Prop
  | .timer => True
  | .call c => k.pc k.current = .run ∧ c.Allowed mutexOf k
  | .go _ => k.pc k.current ≠ .run

section

variable {mutexOf} {k k' : Kernel} {t : Tid} {p : Pc} {q : Queue}

/-! ### What a step can do to the mutexes -/

/-- A step that no mutex notices. -/
structure Quiet (mutexOf : ℕ → ℕ) (k k' : Kernel) : Prop where
  current : k'.current = k.current ∨ k'.state k'.current = .active
  locked : k'.locked = k.locked
  queue : ∀ m, k'.queue (.mutex m) = k.queue (.mutex m)
  held : ∀ t m, k'.held t m = true → k.held t m = true
  notifying : ∀ u c l, (k'.pc u).notifying = some (c, l) →
    (∃ l₀, (k.pc u).notifying = some (c, l₀)) ∧ k'.held u = k.held u
  waits : ∀ t m, (k.pc t).waitsOn mutexOf = some (.mutex m) → k.state t = .active →
    (k'.pc t).waitsOn mutexOf = some (.mutex m) ∧ k'.state t = .active

/-- What a step can do. -/
inductive Effect (mutexOf : ℕ → ℕ) (k k' : Kernel) : Act → Prop
  | quiet {a : Act} : Quiet mutexOf k k' → Effect mutexOf k k' a
  | turn {a : Act} {w : Wait} : k.pc k.current = .enter w ∨ k.pc k.current = .retry w →
      Turned mutexOf w k k' → Effect mutexOf k k' a
  | unlock {m : ℕ} : k.pc k.current = .run → k' = (k.unlock m).notified (.mutex m) →
      Effect mutexOf k k' (.call (.mutexUnlock m))
  | condWait {c : ℕ} : k.pc k.current = .run →
      k' = ((k.block (.cond c) (.condSleep c)).unlock (mutexOf c)).notified (.mutex (mutexOf c)) →
      Effect mutexOf k k' (.call (.conditionWait c))
  | notify {a : Act} {q : Queue} : k' = k.notified q → Effect mutexOf k k' a
  | splice {c : ℕ} : k.pc k.current = .run →
      k' = { k with queue := Function.update k.queue (.cond c) [] }.goto
        (.notify c (k.queue (.cond c))) →
      Effect mutexOf k k' (.call (.conditionNotifyAll c))

/-- The running thread goes on, and maybe another one is switched to or woken. -/
theorem Quiet.of_goto (hcur : k'.current = k.current ∨ k'.state k'.current = .active)
    (hlocked : k'.locked = k.locked) (hqueue : ∀ m, k'.queue (.mutex m) = k.queue (.mutex m)) (hheld : k'.held = k.held)
    (hpc : k'.pc = Function.update k.pc k.current p)
    (hstate : ∀ t, (k.pc t).waitsOn mutexOf ≠ none → k.state t = .active → k'.state t = .active)
    (hw : (k.pc k.current).waitsOn mutexOf = none ∨
      (k.pc k.current).waitsOn mutexOf = p.waitsOn mutexOf)
    (hn : ∀ c l, p.notifying = some (c, l) → ∃ l₀, (k.pc k.current).notifying = some (c, l₀)) :
    Quiet mutexOf k k' := by
  refine ⟨hcur, hlocked, hqueue, fun t m ht => hheld ▸ ht, fun u c l hu => ⟨?_, by rw [hheld]⟩,
    fun t m ht hst => ⟨?_, hstate t (by rw [ht]; nofun) hst⟩⟩
  · rw [hpc, Function.update_apply] at hu
    split_ifs at hu with huc
    · subst huc
      exact hn c l hu
    · exact ⟨l, hu⟩
  · rw [hpc, Function.update_apply]
    split_ifs with htc
    · subst htc
      rcases hw with hw | hw
      · exact nomatch hw.symm.trans ht
      · exact hw ▸ ht
    · exact ht

theorem Switched.active (h : Switched k k') (hst : k.state t = .active) : k'.state t = .active := by
  rw [h.state]
  split_ifs with hfin
  · by_cases htc : t = k.current
    · subst htc
      exact nomatch hst.symm.trans hfin
    · rwa [Function.update_of_ne htc]
  · exact hst

theorem Switched.quiet (h : Switched k k') : Quiet mutexOf k k' :=
  ⟨Or.inr h.current, h.locked, fun m => by rw [h.queue], fun t m ht => h.held ▸ ht,
    fun u c l hu => ⟨⟨l, h.pc ▸ hu⟩, by rw [h.held]⟩,
    fun t m ht hst => ⟨by rw [h.pc]; exact ht, h.active hst⟩⟩

theorem Switched.quiet_goto (h : Switched (k.goto p) k')
    (hw : (k.pc k.current).waitsOn mutexOf = none ∨
      (k.pc k.current).waitsOn mutexOf = p.waitsOn mutexOf)
    (hn : p.notifying = none) : Quiet mutexOf k k' :=
  Quiet.of_goto (Or.inr h.current) h.locked (fun m => by rw [h.queue]; rfl) h.held h.pc
    (fun t _ hst => h.active (k := k.goto p) hst) hw fun c l hp => nomatch hn.symm.trans hp

/-! ### Calls -/

theorem plain_enter {w : Wait} : (Pc.enter w).Plain := ⟨rfl, rfl, rfl, rfl, nofun, rfl, rfl⟩

theorem plain_condSleep {c : ℕ} : (Pc.condSleep c).Plain := ⟨rfl, rfl, rfl, rfl, nofun, rfl, rfl⟩

theorem plain_waiting {t : Tid} : (Pc.waiting t).Plain := ⟨rfl, rfl, rfl, rfl, nofun, rfl, rfl⟩

theorem plain_put {t : Tid} : (Pc.put t).Plain := ⟨rfl, rfl, rfl, rfl, nofun, rfl, rfl⟩

/-- Starting a `WAIT_EVENT`. -/
theorem KernelOk.start_enter {w : Wait} (h : KernelOk mutexOf k) (hrun : k.pc k.current = .run)
    (hboot : k.current ≠ bootstrap) :
    KernelOk mutexOf (k.goto (.enter w)) ∧ Quiet mutexOf k (k.goto (.enter w)) := by
  refine ⟨h.goto_awake plain_enter (fun _ => hboot) ?_ (Or.inl ?_) (h.refs.goto_same ?_ ?_ nofun nofun),
    Quiet.of_goto (Or.inl rfl) rfl (fun _ => rfl) rfl rfl (fun _ _ hst => hst) (Or.inl ?_) nofun⟩
  all_goals rw [hrun]; rfl

theorem mem_of_find {pid : ℤ} (hfind : k.threads.find? (fun t => k.pid t = pid) = some t) :
    t ∈ k.threads ∧ k.pid t = pid :=
  ⟨List.mem_of_find?_eq_some hfind, by simpa using List.find?_some hfind⟩

theorem KernelOk.exit (h : KernelOk mutexOf k) (hrun : k.pc k.current = .run)
    (hboot : k.current ≠ bootstrap) :
    Ensures schedule ((k.setState k.current .finished).goto .exited) fun _ k' =>
      KernelOk mutexOf k' ∧ Quiet mutexOf k k' := by
  set k₁ := (k.setState k.current .finished).goto .exited with hk₁
  have hact : k.state k.current = .active := h.active_of_awake (by rw [hrun]; rfl)
  have hnb : k.state k.current ≠ .blocked := fun hc => nomatch hact.symm.trans hc
  have hsched : SchedOk k₁ := (h.sched.setState_current hboot).congr rfl rfl rfl
  have hother : ∀ t, t ≠ k.current → k₁.state t = k.state t := fun t ht => Function.update_of_ne ht _ _
  refine (hsched.ensures_schedule fun hc => absurd hc hboot).mono fun _ k' ⟨hs, hsw⟩ => ?_
  have hblocked : ∀ t, k.state t = .blocked → k'.state t = .blocked := by
    intro t ht
    have htc : t ≠ k.current := fun hc => hnb (hc ▸ ht)
    have hcur : k₁.current = k.current := rfl
    rw [hsw.state]
    split_ifs
    · rw [hcur, Function.update_of_ne htc, hother t htc, ht]
    · rw [hother t htc, ht]
  have hwaits : WaitOk mutexOf k₁ → WaitOk mutexOf k' := fun hw =>
    hw.congr hsw.queue (fun m hm => hsw.locked ▸ hm) hsw.pc fun t ht => by
      by_cases htc : t = k.current
      · have hself : k₁.state k.current = .finished := Function.update_self _ _ _
        rw [htc, hself] at ht
        exact nomatch ht
      · exact hblocked t (hother t htc ▸ ht)
  have hwait₀ : WaitOk mutexOf (k.goto .exited) := by
    refine h.waits.goto (fun hst => absurd hst hnb) (fun c hin => ?_) nofun nofun
    rw [hrun] at hin
    exact nomatch hin
  have hrefs : RefsOk (k.goto .exited) := h.refs.goto_same (by rw [hrun]; rfl) (by rw [hrun]; rfl) nofun nofun
  have hwait₁ : WaitOk mutexOf k₁ := by
    refine hwait₀.congr rfl (fun _ hm => hm) rfl fun t ht => ?_
    have htc : t ≠ k.current := fun hc => hnb (hc ▸ ht)
    rw [hother t htc]
    exact ht
  refine ⟨⟨⟨hs, hwaits hwait₁, h.life.exit hboot h.not_creates_current h.live hsw,
    hrefs.congr hsw.pc hsw.threads hsw.pid hsw.refcount hsw.used, ?_⟩, Or.inl hsw.current⟩, ?_⟩
  · rw [hsw.pc]
    exact goto_boot (fun _ => hboot) h.boot
  · refine Quiet.of_goto (Or.inr hsw.current) hsw.locked (fun m => by rw [hsw.queue]; rfl) hsw.held hsw.pc
      (fun t ht hst => ?_) (Or.inl (by rw [hrun]; rfl)) nofun
    have htc : t ≠ k.current := fun hc => ht (by rw [hc, hrun]; rfl)
    exact hsw.active ((hother t htc).trans hst)

/-- **A new thread.** -/
theorem KernelOk.alloc (h : KernelOk mutexOf k) (hrun : k.pc k.current = .run)
    (hused : k.used t = false) (hb : t ≠ bootstrap) :
    Ensures (do allocThread t; goto (.register t)) k fun _ k' =>
      KernelOk mutexOf k' ∧ Quiet mutexOf k k' := by
  -- what is not in use is owned by nobody, and so it is on no list and no thread creates it
  have hown := h.refs.unused t hused
  have hreg : t ∉ k.threads := fun hc => (owners_pos_of_mem hc).ne' hown
  obtain ⟨hna, hcur, hin⟩ := h.life.unregistered t hb hreg
  have hact : k.state k.current = .active := h.active_of_awake (by rw [hrun]; rfl)
  have hnone : ∀ u, (k.pc u).creates ≠ some t := fun u hu =>
    (creates_owned h.life h.refs hu).ne' hown
  have hlife := h.life.respawn h.refs hown hb
  have hrefs := h.refs.respawn h.life hown hb
  -- the record is written first, and counted as used then
  set k₁ := k.respawn t with hk₁
  have hpc₁ : k₁.pc k.current = .run := by rw [hk₁, respawn_pc, if_neg hcur.symm, hrun]
  have hst₁ : k₁.state k.current = .active := by rw [hk₁, respawn_state, if_neg hcur.symm, hact]
  have hwaits : WaitOk mutexOf k₁ :=
    h.waits.respawn (fun u hu => Function.update_of_ne hu _ _) (Function.update_self _ _ _) hin rfl rfl
      fun u hu => Function.update_of_ne hu _ _
  have hblocked : SchedOk (k.setState t .blocked) := h.sched.setState_inactive hna (by simp)
  have hsched : SchedOk k₁ := hblocked.congr rfl rfl rfl
  have hattr : ∀ u, (k₁.pc u).creates = some t → False := by
    intro u hu
    rw [hk₁, respawn_pc] at hu
    split_ifs at hu
    · cases hu
    · exact hnone u hu
  have hfresh : ∀ u, (k₁.pc u).creates ≠ some k₁.current := by
    intro u hu
    obtain ⟨hst, -⟩ := hlife.fresh u _ hu
    cases hst₁.symm.trans hst
  have hlive : ¬(k₁.state k₁.current = .dead ∨ k₁.state k₁.current = .reaped) := by
    change ¬(k₁.state k.current = .dead ∨ k₁.state k.current = .reaped)
    rw [hst₁]
    exact fun hc => hc.elim (by simp) (by simp)
  set k₂ : Kernel := { k₁ with
    used := Function.update k₁.used t true
    refcount := Function.update k₁.refcount t 1 } with hk₂
  have hcalls : Ensures (do allocThread t; goto (.register t)) k fun _ k' => k' = k₂.goto (.register t) := by
    simp only [allocThread, goto, ensures_bind, ensures_modify]
    rfl
  refine hcalls.mono fun _ k' hk' => ?_
  rw [hk']
  refine ⟨⟨⟨hsched.congr rfl rfl rfl, ?_, ?_, ?_, ?_⟩, Or.inl hst₁⟩, ?_⟩
  · have hwaits' : WaitOk mutexOf (k₁.goto (.register t)) := by
      refine hwaits.goto (fun hst => ?_) (fun c hc => ?_) (by rintro _ _ ⟨⟩) (by rintro _ _ ⟨⟩)
      · cases hst₁.symm.trans hst
      · change (k₁.pc k.current).inCond = some c at hc
        rw [hpc₁] at hc
        cases hc
    exact hwaits'.congr rfl (fun _ hm => hm) rfl fun _ ht => ht
  · have hlife' : LifeOk (k₁.goto (.register t)) := by
      refine hlife.goto hfresh hlive (by simp) (fun v hv => ?_) (by rintro _ ⟨⟩) (by rintro _ ⟨⟩) (by rintro _ ⟨⟩)
      obtain rfl : t = v := Option.some.inj hv
      exact ⟨hcur, Function.update_self _ _ _, Function.update_self _ _ _, fun u _ hu => hattr u hu⟩
    exact hlife'.congr rfl rfl (fun hc => absurd rfl hc) fun _ => Or.inl rfl
  · refine hrefs.alloc hused ?_ ?_ hreg
    · change (k₁.pc k.current).holds = none
      rw [hpc₁]
      rfl
    · change (k₁.pc k.current).drops = none
      rw [hpc₁]
      rfl
  · refine goto_boot (by rintro ⟨⟩) ?_
    change (k₁.pc bootstrap).mayBlock = false
    rw [hk₁, respawn_pc, if_neg hb.symm]
    exact h.boot
  · -- only the new thread and the running one are somewhere else
    have hpc : ∀ u, u ≠ t → u ≠ k.current → (k₂.goto (.register t)).pc u = k.pc u := fun u hu huc => by
      rw [goto_pc]
      change (if u = k.current then _ else k₁.pc u) = _
      rw [if_neg huc, hk₁, respawn_pc, if_neg hu]
    have hpcCur : (k₂.goto (.register t)).pc k.current = .register t := Function.update_self _ _ _
    have hpcNew : (k₂.goto (.register t)).pc t = .newborn := by
      rw [goto_pc]
      change (if t = k.current then _ else k₁.pc t) = _
      rw [if_neg hcur, hk₁, respawn_pc, if_pos rfl]
    have hheld : ∀ u, u ≠ t → (k₂.goto (.register t)).held u = k.held u := fun u hu =>
      Function.update_of_ne hu _ _
    refine ⟨Or.inl rfl, rfl, fun _ => rfl, fun u m hu => ?_, fun u c l hu => ?_, fun u m hu hst => ?_⟩
    · by_cases hut : u = t
      · subst hut
        have hself : (k₂.goto (.register u)).held u = fun _ => false := Function.update_self _ _ _
        rw [hself] at hu
        cases hu
      · rwa [hheld u hut] at hu
    · by_cases huc : u = k.current
      · subst huc
        rw [hpcCur] at hu
        cases hu
      · have hut : u ≠ t := fun hc => by
          rw [hc, hpcNew] at hu
          cases hu
        rw [hpc u hut huc] at hu
        exact ⟨⟨l, hu⟩, hheld u hut⟩
    · have huc : u ≠ k.current := fun hc => by
        rw [hc, hrun] at hu
        cases hu
      have hut : u ≠ t := fun hc => by
        rw [hc] at hu
        rcases hin with hin | hin <;> rw [hin] at hu <;> cases hu
      rw [hpc u hut huc]
      refine ⟨hu, ?_⟩
      change k₁.state u = .active
      rw [hk₁, respawn_state, if_neg hut]
      exact hst

theorem Quiet.refl (k : Kernel) : Quiet mutexOf k k :=
  ⟨Or.inl rfl, rfl, fun _ => rfl, fun _ _ ht => ht, fun _ _ l hu => ⟨⟨l, hu⟩, rfl⟩,
    fun _ _ ht hst => ⟨ht, hst⟩⟩

/-- **A step of a call that waits for nothing**, from its parts. -/
theorem KernelOk.stepped (h : KernelOk mutexOf k) (hact : k.state k.current = .active)
    (hw : (k.pc k.current).waitsOn mutexOf = none) (hin : (k.pc k.current).inCond = none)
    (hp : p.notifying = none ∧ p.walking = none ∧ p.mayBlock = false)
    (hcur : k'.current = k.current) (hpc : k'.pc = Function.update k.pc k.current p)
    (hqueue : k'.queue = k.queue) (hlocked : k'.locked = k.locked) (hheld : k'.held = k.held)
    (hactive : k'.active = k.active)
    (hstate : ∀ t, k'.state t = k.state t ∨ (k.state t = .dead ∧ k'.state t = .reaped))
    (hlife : LifeOk k') (hrefs : RefsOk k') : KernelOk mutexOf k' ∧ Quiet mutexOf k k' := by
  have hkeep : ∀ t st, st ≠ .dead → k.state t = st → k'.state t = st := by
    intro t st hne hst
    rcases hstate t with heq | ⟨hdead, -⟩
    · exact heq.trans hst
    · exact absurd (hst.symm.trans hdead) hne
  have hiff : ∀ t, k'.state t = .active ↔ k.state t = .active := by
    intro t
    rcases hstate t with heq | ⟨hdead, hreaped⟩
    · rw [heq]
    · rw [hdead, hreaped]
      exact iff_of_false nofun nofun
  have hsched : SchedOk k' := by
    refine ⟨hactive ▸ h.sched.nodup, fun t => ?_, (hiff _).2 h.sched.boot⟩
    rw [hactive, hiff, hcur]
    exact h.sched.mem t
  have hwaits : WaitOk mutexOf (k.goto p) := by
    refine h.waits.goto (fun hst => ?_) (fun c hc => ?_) (fun c l hn => ?_) fun c t hn => ?_
    · exact nomatch hact.symm.trans hst
    · exact nomatch hin.symm.trans hc
    · exact nomatch hp.1.symm.trans hn
    · exact nomatch hp.2.1.symm.trans hn
  refine ⟨⟨⟨hsched, ?_, hlife, hrefs, ?_⟩, Or.inl ?_⟩, ?_⟩
  · exact hwaits.congr hqueue (fun m hm => hlocked ▸ hm) hpc fun t ht => hkeep t _ nofun ht
  · rw [hpc]
    refine goto_boot (fun hc => ?_) h.boot
    exact nomatch hp.2.2.symm.trans hc
  · rw [hcur]
    exact (hiff _).2 hact
  · exact Quiet.of_goto (Or.inl hcur) hlocked (fun m => by rw [hqueue]) hheld hpc (fun t _ hst => (hiff t).2 hst)
      (Or.inl hw) fun c l hn => nomatch hp.1.symm.trans hn

/-- **`lookup_thread`** takes a reference on the thread that it finds. -/
theorem KernelOk.lookup (h : KernelOk mutexOf k) (hact : k.state k.current = .active)
    (hw : (k.pc k.current).waitsOn mutexOf = none) (hin : (k.pc k.current).inCond = none)
    (hp : p.notifying = none ∧ p.walking = none ∧ p.mayBlock = false)
    (hmem : t ∈ k.threads) (hh : (k.pc k.current).holds = none) (hd : (k.pc k.current).drops = none)
    (hh' : p.holds = some t) (hd' : p.drops = none) (hreg : ∀ u, p ≠ .register u)
    (hlife : LifeOk (k.goto p)) :
    let k' := { k with refcount := Function.update k.refcount t (k.refcount t + 1) }.goto p
    KernelOk mutexOf k' ∧ Quiet mutexOf k k' :=
  h.stepped hact hw hin hp rfl rfl rfl rfl rfl rfl (fun _ => Or.inl rfl)
    (hlife.congr rfl rfl (fun hc => absurd rfl hc) fun _ => Or.inl rfl)
    (h.refs.lookup hmem hh hd hh' hd' hreg)

/-- **A call that looks a thread up**, its first step. -/
theorem KernelOk.start_lookup {pid : ℤ} {p : Tid → Pc} (h : KernelOk mutexOf k) (hrun : k.pc k.current = .run)
    (hp : ∀ t, (p t).Plain) (hq : ∀ t, (p t).notifying = none ∧ (p t).walking = none ∧ (p t).mayBlock = false)
    (hh : ∀ t, (p t).holds = some t) (hd : ∀ t, (p t).drops = none) (hreg : ∀ t u, p t ≠ .register u) :
    Ensures (do
      match ← lookupThread pid with
      | none => return ()
      | some t => goto (p t)) k fun _ k' => KernelOk mutexOf k' ∧ Quiet mutexOf k k' := by
  rw [lookupThread]
  simp only [ensures_bind, ensures_get]
  rcases hfind : k.threads.find? fun t => k.pid t = pid with _ | t
  · simp only [ensures_pure]
    exact ⟨h, Quiet.refl k⟩
  · simp only [ensures_bind, ensures_set, ensures_pure, goto, ensures_modify]
    refine h.lookup (h.active_of_awake ?_) ?_ ?_ (hq t) (mem_of_find hfind).1 ?_ ?_ (hh t) (hd t) (hreg t)
      (h.life.goto_plain h.not_creates_current h.live (hp t))
    all_goals rw [hrun]; rfl

/-- **Every call** that is allowed starts. -/
theorem KernelOk.ensures_start {c : Call} (h : KernelOk mutexOf k) (hrun : k.pc k.current = .run)
    (hc : c.Allowed mutexOf k) :
    Ensures (start mutexOf c) k fun _ k' => KernelOk mutexOf k' ∧ Effect mutexOf k k' (.call c) := by
  have hact : k.state k.current = .active := h.active_of_awake (by rw [hrun]; rfl)
  have hnb : k.state k.current ≠ .blocked := fun hc => by cases hact.symm.trans hc
  cases c with
  | mutexLock m =>
    simp only [start, goto, ensures_modify]
    exact (h.start_enter hrun hc).imp_right .quiet
  | mutexUnlock m =>
    exact (h.ensures_mutexUnlock hc (Or.inl hact)).mono fun _ k' hk' => ⟨hk'.2, .unlock hrun hk'.1⟩
  | waitEvent q =>
    simp only [start, goto, ensures_modify]
    exact (h.start_enter hrun hc).imp_right .quiet
  | conditionWait c =>
    simp only [start, conditionWait, ensures_bind, ensures_modify]
    have hblock : KernelOk mutexOf (k.block (.cond c) (.condSleep c)) := by
      refine h.block hact hc.1 plain_condSleep rfl rfl (fun c' hin => ?_)
        (h.refs.goto_same (by rw [hrun]; rfl) (by rw [hrun]; rfl) (by simp) (by simp))
      rw [hrun] at hin
      cases hin
    have hpc : (k.block (.cond c) (.condSleep c)).pc k.current = .condSleep c := Function.update_self _ _ _
    refine (hblock.ensures_mutexUnlock (fun u c' l hu => ?_) (Or.inr ?_)).mono fun _ k' hk' =>
      ⟨hk'.2, .condWait hrun hk'.1⟩
    · have hold : (k.block (.cond c) (.condSleep c)).pc u =
          if u = k.current then .condSleep c else k.pc u := goto_pc _ _ u
      rw [hold] at hu
      split_ifs at hu
      · cases hu
      · exact hc.2 u c' l hu
    · change ((k.block (.cond c) (.condSleep c)).pc k.current).waitsOn mutexOf ≠ _
      rw [hpc]
      rintro ⟨⟩
  | waitQueueNotify q =>
    exact (h.ensures_waitQueueNotify (Or.inl hact)).mono fun _ k' hk' => ⟨hk'.2, .notify hk'.1⟩
  | conditionNotifyAll c =>
    simp only [start, ensures_bind, ensures_get, ensures_set, goto, ensures_modify]
    refine ⟨⟨⟨h.sched.congr rfl rfl rfl, h.waits.splice hc hnb hrun, ?_, ?_, goto_boot (by rintro ⟨⟩) h.boot⟩,
      Or.inl hact⟩, .splice hrun rfl⟩
    · have hlife : LifeOk (k.goto (.notify c (k.queue (.cond c)))) :=
        h.life.goto h.not_creates_current h.live
          (by simp) (by rintro _ ⟨⟩) (by rintro _ ⟨⟩) (by rintro _ ⟨⟩) (by rintro _ ⟨⟩)
      exact hlife.congr rfl rfl (fun hc => absurd rfl hc) fun _ => Or.inl rfl
    · exact (h.refs.goto_same (p := .notify c (k.queue (.cond c))) (by rw [hrun]; rfl)
        (by rw [hrun]; rfl) (by simp) (by simp)).congr rfl rfl rfl rfl rfl
  | schedule =>
    refine (h.toBaseOk.ensures_schedule fun hc => ?_).mono fun _ k' hk' => ⟨hk'.1, .quiet hk'.2.quiet⟩
    cases hact.symm.trans hc
  | exit =>
    simp only [start, ensures_bind, ensures_modify]
    exact (h.exit hrun hc).mono fun _ k' hk' => hk'.imp_right .quiet
  | createThread t =>
    cases t with
    | none =>
      rw [start, ensures_pure]
      exact ⟨h, .quiet (Quiet.refl k)⟩
    | some t =>
      rw [start]
      simp only [ensures_bind, ensures_get, ensures_ite, ensures_pure]
      refine ⟨fun hfree => ?_, fun _ => ⟨h, .quiet (Quiet.refl k)⟩⟩
      have halloc := h.alloc hrun hfree.1 hfree.2
      rw [ensures_bind] at halloc
      exact halloc.mono fun _ _ h₁ => h₁.mono fun _ k' hk' => hk'.imp_right .quiet
  | wait pid =>
    exact (h.start_lookup hrun (fun _ => plain_waiting) (fun _ => ⟨rfl, rfl, rfl⟩) (fun _ => rfl) (fun _ => rfl)
      (by simp)).mono fun _ k' hk' => hk'.imp_right .quiet
  | lookup pid =>
    exact (h.start_lookup hrun (fun _ => plain_put) (fun _ => ⟨rfl, rfl, rfl⟩) (fun _ => rfl) (fun _ => rfl)
      (by simp)).mono fun _ k' hk' => hk'.imp_right .quiet

/-! ### The next steps of a call -/

theorem plain_yielding {t : Tid} : (Pc.yielding t).Plain := ⟨rfl, rfl, rfl, rfl, nofun, rfl, rfl⟩

theorem plain_putReaped {t : Tid} : (Pc.putReaped t).Plain := ⟨rfl, rfl, rfl, rfl, nofun, rfl, rfl⟩

theorem plain_retry {w : Wait} : (Pc.retry w).Plain := ⟨rfl, rfl, rfl, rfl, nofun, rfl, rfl⟩

theorem plain_condWoken {c : ℕ} : (Pc.condWoken c).Plain := ⟨rfl, rfl, rfl, rfl, nofun, rfl, rfl⟩

/-- A thread in the steps of `create_kthread` and `wait` waits for nothing. -/
theorem KernelOk.goto_same (h : KernelOk mutexOf k) (hact : k.state k.current = .active)
    (hw : (k.pc k.current).waitsOn mutexOf = none) (hin : (k.pc k.current).inCond = none)
    (hp : p.Plain) (hb : p.mayBlock = false) (hh : p.holds = (k.pc k.current).holds)
    (hd : p.drops = (k.pc k.current).drops) :
    KernelOk mutexOf (k.goto p) ∧ Quiet mutexOf k (k.goto p) := by
  have hne : (∀ t i, p ≠ .lookup t i) ∧ ∀ t, p ≠ .register t := by
    refine ⟨fun t i hc => ?_, fun t hc => ?_⟩
    · have := hp.creates
      rw [hc] at this
      exact nomatch this
    · have := hp.creates
      rw [hc] at this
      exact nomatch this
  exact h.stepped hact hw hin ⟨hp.notifying, hp.walking, hb⟩ rfl rfl rfl rfl rfl rfl (fun _ => Or.inl rfl)
    (h.life.goto_plain h.not_creates_current h.live hp)
    (h.refs.goto_same hh hd (fun t i hc => absurd hc (hne.1 t i)) fun t hc => absurd hc (hne.2 t))

/-- **Switching out** of a wait, or in `__wait_thread`. -/
theorem KernelOk.leave (h : KernelOk mutexOf k) (hp : p.Plain) (hb : p.mayBlock = true → k.current ≠ bootstrap)
    (hw : p.waitsOn mutexOf = (k.pc k.current).waitsOn mutexOf)
    (hc : p.inCond = (k.pc k.current).inCond) (hr : RefsOk (k.goto p)) :
    Ensures (do goto p; schedule) k fun _ k' => KernelOk mutexOf k' ∧ Quiet mutexOf k k' := by
  have hbase : BaseOk mutexOf (k.goto p) :=
    h.baseOk_goto hp hb (fun _ => hw) (fun c hin => Or.inl (hc ▸ hin)) hr
  simp only [ensures_bind, goto, ensures_modify]
  refine (hbase.ensures_schedule ?_).mono fun _ k' hk' =>
    ⟨hk'.1, hk'.2.quiet_goto (Or.inr hw.symm) hp.notifying⟩
  change k.state k.current ≠ .finished
  rcases h.running with hr | ⟨hr, -⟩ <;> rw [hr] <;> simp

/-- **`wait_queue_notify_all`, its turns.** -/
theorem KernelOk.notify {c : ℕ} {l : List Tid} (h : KernelOk mutexOf k)
    (hpc : k.pc k.current = .notify c (t :: l)) :
    (k.pc t).inCond = some c ∧ Ensures (do activateThread t; goto (.advance c t l)) k fun _ k' =>
      KernelOk mutexOf k' ∧ Quiet mutexOf k k' := by
  have hact : k.state k.current = .active := h.active_of_awake (by rw [hpc]; rfl)
  have hnot : (k.pc k.current).notifying = some (c, t :: l) := by
    rw [hpc]
    rfl
  obtain ⟨hnd, hall⟩ := h.waits.pending _ c _ hnot
  obtain ⟨hst, hw, hout⟩ := hall t List.mem_cons_self
  have hne : t ≠ k.current := fun hc => by
    rw [hc, hact] at hst
    exact nomatch hst
  have hin := inCond_of_waitsOn hw
  obtain ⟨hcr, hreg⟩ := h.life.started hw
  have hwaits : WaitOk mutexOf (k.goto (.advance c t l)) := by
    refine h.waits.goto (fun hst => ?_) (fun c' hc => ?_) (fun c' l' hn => ?_) fun c' t' hn => ?_
    · exact nomatch hact.symm.trans hst
    · rw [hpc] at hc
      exact nomatch hc
    · obtain ⟨rfl, rfl⟩ := Prod.mk.inj (Option.some.inj hn)
      exact ⟨_, hnot, List.sublist_cons_self t l⟩
    · obtain ⟨rfl, rfl⟩ := Prod.mk.inj (Option.some.inj hn)
      exact ⟨hne, hin⟩
  have hok : KernelOk mutexOf (k.goto (.advance c t l)) := by
    have hlife : LifeOk (k.goto (.advance c t l)) :=
      h.life.goto h.not_creates_current h.live nofun nofun nofun nofun nofun
    exact ⟨⟨h.sched.congr rfl rfl rfl, hwaits, hlife,
      h.refs.goto_same (by rw [hpc]; rfl) (by rw [hpc]; rfl) nofun nofun, goto_boot nofun h.boot⟩,
      Or.inl hact⟩
  have hpct : (k.goto (.advance c t l)).pc t = k.pc t := by rw [goto_pc, if_neg hne]
  refine ⟨hin, ?_⟩
  rw [ensures_bind]
  refine (ensures_activateThread (h.not_boot_of_blocked hst) hst).mono fun _ k₁ hk₁ => ?_
  rw [hk₁, goto, ensures_modify]
  change KernelOk mutexOf ((k.goto (.advance c t l)).wake t) ∧
    Quiet mutexOf k ((k.goto (.advance c t l)).wake t)
  have hw' : ((k.goto (.advance c t l)).pc t).waitsOn mutexOf = some (.cond c) := by rw [hpct, hw]
  obtain ⟨hcr', hreg'⟩ := hok.life.started hw'
  refine ⟨hok.wake hst hne (hwaits.wake (fun q hq => ?_) fun u c' l' hu hl => ?_) hcr' hreg', ?_⟩
  · have hqueue : q = .cond c := by
      have := (hwaits.queued q t hq).2
      rw [hw'] at this
      exact (Option.some.inj this).symm
    subst hqueue
    exact hout hq
  · -- the thread is in no other list of waiters, and once in this one
    rw [goto_pc] at hu
    split_ifs at hu with huc
    · obtain ⟨rfl, rfl⟩ := Prod.mk.inj (Option.some.inj hu)
      exact (List.nodup_cons.1 hnd).1 hl
    · exact h.waits.apart _ u c c' _ l' hnot hu (Ne.symm huc) t List.mem_cons_self hl
  · refine Quiet.of_goto (Or.inl rfl) rfl (fun _ => rfl) rfl rfl (fun u _ hu => ?_) (Or.inl (by rw [hpc]; rfl))
      fun c' l' hn => ?_
    · change Function.update k.state t .active u = .active
      rw [Function.update_apply]
      split_ifs
      · rfl
      · exact hu
    · obtain ⟨rfl, rfl⟩ := Prod.mk.inj (Option.some.inj hn)
      exact ⟨_, hnot⟩

@[inherit_doc KernelOk.notify]
theorem KernelOk.advance {c : ℕ} {l : List Tid} (h : KernelOk mutexOf k)
    (hpc : k.pc k.current = .advance c t l) :
    (k.pc t).inCond = some c ∧
      KernelOk mutexOf (k.goto (.notify c l)) ∧ Quiet mutexOf k (k.goto (.notify c l)) := by
  have hact : k.state k.current = .active := h.active_of_awake (by rw [hpc]; rfl)
  have hnot : (k.pc k.current).notifying = some (c, l) := by
    rw [hpc]
    rfl
  have hin : (k.pc t).inCond = some c := h.waits.walked k.current c t (by rw [hpc]; rfl)
  refine ⟨hin, ⟨⟨h.sched.congr rfl rfl rfl, ?_, ?_, h.refs.goto_same (by rw [hpc]; rfl)
    (by rw [hpc]; rfl) nofun nofun, goto_boot nofun h.boot⟩, Or.inl hact⟩, ?_⟩
  · refine h.waits.goto (fun hst => ?_) (fun c' hc => ?_) (fun c' l' hn => ?_) nofun
    · exact nomatch hact.symm.trans hst
    · rw [hpc] at hc
      exact nomatch hc
    · obtain ⟨rfl, rfl⟩ := Prod.mk.inj (Option.some.inj hn)
      exact ⟨_, hnot, List.Sublist.refl l⟩
  · exact h.life.goto h.not_creates_current h.live nofun nofun nofun nofun nofun
  · refine Quiet.of_goto (Or.inl rfl) rfl (fun _ => rfl) rfl rfl (fun _ _ hst => hst) (Or.inl (by rw [hpc]; rfl))
      fun c' l' hn => ?_
    obtain ⟨rfl, rfl⟩ := Prod.mk.inj (Option.some.inj hn)
    exact ⟨_, hnot⟩

/-- The loop of `register_thread` ends with a number that no thread has. -/
theorem nextFreePid_spec {pids : List ℤ} : ∀ {fuel : ℕ} {i : ℤ},
    (pids.filter fun j => i ≤ j).length < fuel → ∃ j, nextFreePid pids fuel i = some j ∧ j ∉ pids
  | 0, _, h => absurd h (Nat.not_lt_zero _)
  | fuel + 1, i, h => by
    rw [nextFreePid]
    split_ifs with hi
    · refine nextFreePid_spec (Nat.lt_of_lt_of_le ?_ (Nat.le_of_lt_succ h))
      have hsub : (pids.filter fun j => i + 1 ≤ j).Sublist ((pids.filter fun j => i ≤ j)) :=
        List.monotone_filter_right pids fun j hj => by
          simp only [decide_eq_true_eq] at hj ⊢
          omega
      refine lt_of_le_of_ne hsub.length_le fun hc => ?_
      have heq := hsub.eq_of_length hc
      have hmem : i ∈ pids.filter fun j => i ≤ j := List.mem_filter.2 ⟨hi, by simp⟩
      rw [← heq, List.mem_filter] at hmem
      simp at hmem
    · exact ⟨i, rfl, hi⟩

/-- **`register_thread`.** -/
theorem KernelOk.register (h : KernelOk mutexOf k) (hpc : k.pc k.current = .register t) :
    Ensures (do let pid ← registerThread t; goto (.lookup t pid)) k fun _ k' =>
      KernelOk mutexOf k' ∧ Quiet mutexOf k k' := by
  have hact : k.state k.current = .active := h.active_of_awake (by rw [hpc]; rfl)
  obtain ⟨hst, hnew⟩ := h.life.fresh k.current t (by rw [hpc]; rfl)
  have hb := h.not_boot_of_blocked hst
  have hne : t ≠ k.current := fun hc => by
    rw [hc, hact] at hst
    cases hst
  have hshort : ((k.threads.map k.pid).filter fun j => k.nextPid ≤ j).length <
      (k.threads.map k.pid).length + 1 := Nat.lt_succ_of_le (List.length_filter_le _ _)
  obtain ⟨i, hi, hfree⟩ := nextFreePid_spec hshort
  rw [List.length_map] at hi
  rw [ensures_bind, registerThread]
  simp only [ensures_bind, ensures_get, hi, ensures_set, ensures_pure, goto, ensures_modify]
  refine h.stepped hact (by rw [hpc]; rfl) (by rw [hpc]; rfl) ⟨rfl, rfl, rfl⟩ rfl rfl rfl rfl rfl rfl
    (fun _ => Or.inl rfl) ?_ (h.refs.register h.life hpc hb hfree)
  have hlife : LifeOk ({ k with threads := t :: k.threads }.goto (.lookup t i)) := by
    refine h.life.register.goto h.not_creates_current h.live (by simp) (fun v hv => ?_) (fun v hv => ?_)
      (by rintro _ ⟨⟩) (by rintro _ ⟨⟩)
    · obtain rfl : t = v := Option.some.inj hv
      refine ⟨hne, hst, hnew, fun u hu hc => hu ?_⟩
      exact h.life.fresh_inj u k.current t hc (by rw [hpc]; rfl)
    · obtain rfl : t = v := Option.some.inj hv
      exact List.mem_cons_self
  exact hlife.congr rfl rfl (fun hc => absurd rfl hc) fun _ => Or.inl rfl

/-- **`create_kthread`, its lookup**, finds the thread that was registered. -/
theorem KernelOk.lookupCreated {pid : ℤ} (h : KernelOk mutexOf k)
    (hpc : k.pc k.current = .lookup t pid) :
    Ensures (resume mutexOf true (.lookup t pid)) k fun _ k' =>
      KernelOk mutexOf k' ∧ Quiet mutexOf k k' := by
  have hact : k.state k.current = .active := h.active_of_awake (by rw [hpc]; rfl)
  have hmem := h.life.known k.current t (by rw [hpc]; rfl)
  have hpid := h.refs.looks _ t pid hpc
  obtain ⟨hst, hnew⟩ := h.life.fresh k.current t (by rw [hpc]; rfl)
  have hne : t ≠ k.current := fun hc => by
    rw [hc, hact] at hst
    cases hst
  rw [resume, lookupThread]
  simp only [ensures_bind, ensures_get]
  rcases hfind : k.threads.find? fun t => k.pid t = pid with _ | v
  · have := List.find?_eq_none.1 hfind t hmem
    simp [hpid] at this
  · obtain ⟨hv, hvpid⟩ := mem_of_find hfind
    obtain rfl : v = t := h.refs.pids v hv t hmem (hvpid.trans hpid.symm)
    simp only [ensures_bind, ensures_set, ensures_pure, goto, ensures_modify]
    refine h.lookup hact ?_ ?_ ⟨rfl, rfl, rfl⟩ hv ?_ ?_ rfl rfl (by simp) ?_
    rotate_right
    · refine h.life.goto h.not_creates_current h.live (by simp) (fun w hw => ?_) (fun w hw => ?_)
        (by rintro _ ⟨⟩) (by rintro _ ⟨⟩)
      · obtain rfl : v = w := Option.some.inj hw
        refine ⟨hne, hst, hnew, fun u hu hc => hu ?_⟩
        exact h.life.fresh_inj u k.current v hc (by rw [hpc]; rfl)
      · obtain rfl : v = w := Option.some.inj hw
        exact hv
    all_goals rw [hpc]; rfl

/-- **`create_kthread`, its activation.** -/
theorem KernelOk.activate (h : KernelOk mutexOf k) (hpc : k.pc k.current = .activate t) :
    Ensures (do activateThread t; goto (.put t)) k fun _ k' =>
      KernelOk mutexOf k' ∧ Quiet mutexOf k k' := by
  have hact : k.state k.current = .active := h.active_of_awake (by rw [hpc]; rfl)
  have hmem := h.life.known k.current t (by rw [hpc]; rfl)
  obtain ⟨hst, hnew⟩ := h.life.fresh k.current t (by rw [hpc]; rfl)
  have hne : t ≠ k.current := fun hc => by
    rw [hc, hact] at hst
    cases hst
  have hput := h.goto_same (p := .put t) hact (by rw [hpc]; rfl) (by rw [hpc]; rfl) plain_put rfl
    (by rw [hpc]; rfl) (by rw [hpc]; rfl)
  rw [ensures_bind]
  refine (ensures_activateThread (h.not_boot_of_blocked hst) hst).mono fun _ k₁ hk₁ => ?_
  rw [hk₁, goto, ensures_modify]
  change KernelOk mutexOf ((k.goto (.put t)).wake t) ∧ Quiet mutexOf k ((k.goto (.put t)).wake t)
  have hpct : ((k.goto (.put t)).pc t).waitsOn mutexOf = none := by
    rw [goto_pc, if_neg hne, hnew]
    rfl
  refine ⟨hput.1.wake hst hne (hput.1.waits.wake (fun q hq => ?_) fun u c l hu hl => ?_) (fun u hu => ?_)
    (Or.inr hmem), ?_⟩
  · cases hpct.symm.trans (hput.1.waits.queued q t hq).2
  · cases hpct.symm.trans ((hput.1.waits.pending u c l hu).2 t hl).2.1
  · rw [goto_pc] at hu
    split_ifs at hu with huc
    · cases hu
    · exact huc (h.life.fresh_inj u k.current t hu (by rw [hpc]; rfl))
  · refine Quiet.of_goto (Or.inl rfl) rfl (fun _ => rfl) rfl rfl (fun u _ hu => ?_)
      (Or.inl (by rw [hpc]; rfl)) (by rintro _ _ ⟨⟩)
    change Function.update k.state t .active u = .active
    rw [Function.update_apply]
    split_ifs
    · rfl
    · exact hu

/-- **`put_thread`.** -/
theorem KernelOk.put (h : KernelOk mutexOf k)
    (hpc : (k.pc k.current = .put t ∧ p = .run) ∨ (k.pc k.current = .putReaped t ∧ p = .put t)) :
    Ensures (do putThread t; goto p) k fun _ k' => KernelOk mutexOf k' ∧ Quiet mutexOf k k' := by
  have hawake : (k.pc k.current).asleep = false ∧ (k.pc k.current).waitsOn mutexOf = none ∧
      (k.pc k.current).inCond = none := by
    rcases hpc with ⟨hpc, -⟩ | ⟨hpc, -⟩ <;> rw [hpc] <;> exact ⟨rfl, rfl, rfl⟩
  have hplain : p.Plain ∧ p.mayBlock = false := by
    rcases hpc with ⟨-, rfl⟩ | ⟨-, rfl⟩
    · exact ⟨plain_run, rfl⟩
    · exact ⟨plain_put, rfl⟩
  simp only [ensures_bind, putThread, ensures_get, ensures_set, goto, ensures_modify]
  refine h.stepped (h.active_of_awake hawake.1) hawake.2.1 hawake.2.2
    ⟨hplain.1.notifying, hplain.1.walking, hplain.2⟩ rfl rfl rfl rfl rfl rfl (fun _ => Or.inl rfl) ?_ ?_
  · exact (h.life.goto_plain h.not_creates_current h.live hplain.1).congr rfl rfl
      (fun hc => absurd rfl hc) fun _ => Or.inl rfl
  · refine h.refs.put (fun u => ?_) (fun u i => ?_) fun u => ?_
    · rcases hpc with ⟨hpc, rfl⟩ | ⟨hpc, rfl⟩ <;>
        simp only [hpc, Pc.holds, Pc.drops, reduceCtorEq, if_false, Option.some.injEq, @eq_comm _ u t,
          Nat.add_zero, Nat.zero_add]
    · rcases hpc with ⟨-, rfl⟩ | ⟨-, rfl⟩ <;> simp
    · rcases hpc with ⟨-, rfl⟩ | ⟨-, rfl⟩ <;> simp

/-- **`reap_thread`, its first part.** -/
theorem KernelOk.reap (h : KernelOk mutexOf k) (hpc : k.pc k.current = .reap t) :
    Ensures (resume mutexOf true (.reap t)) k fun _ k' =>
      KernelOk mutexOf k' ∧ Quiet mutexOf k k' := by
  have hact : k.state k.current = .active := h.active_of_awake (by rw [hpc]; rfl)
  have hgone := h.life.reaped k.current t (by rw [hpc]; rfl)
  have hlife := h.life.reap hgone
  have hne : k.current ≠ t := fun hc => by
    rw [hc] at hact
    rcases hgone with hgone | hgone <;> cases hact.symm.trans hgone
  have hself : (k.setState t .reaped).state t = .reaped := Function.update_self _ _ _
  have hlive : ¬((k.setState t .reaped).state k.current = .dead ∨
      (k.setState t .reaped).state k.current = .reaped) := by
    have hsame : (k.setState t .reaped).state k.current = k.state k.current :=
      Function.update_of_ne hne _ _
    rw [hsame]
    exact h.live
  have hstate : ∀ u, (k.setState t .reaped).state u = k.state u ∨
      (k.state u = .dead ∧ (k.setState t .reaped).state u = .reaped) := by
    intro u
    by_cases hut : u = t
    · subst hut
      rw [hself]
      exact hgone.symm.imp Eq.symm fun hd => ⟨hd, rfl⟩
    · exact Or.inl (Function.update_of_ne hut _ _)
  rw [resume]
  simp only [ensures_bind, ensures_get, ensures_set, ensures_ite, goto, ensures_modify]
  refine ⟨fun hreaped => ?_, fun hfirst => ?_⟩
  · refine h.stepped hact (by rw [hpc]; rfl) (by rw [hpc]; rfl) ⟨rfl, rfl, rfl⟩ rfl rfl rfl rfl rfl rfl
      hstate (hlife.goto_plain h.not_creates_current hlive plain_put) ?_
    exact (h.refs.goto_same (p := .put t) (by rw [hpc]; rfl) (by rw [hpc]; rfl) (by simp) (by simp)).congr
      rfl rfl rfl rfl rfl
  · have hdead : k.state t = .dead := hgone.resolve_right hfirst
    refine h.stepped hact (by rw [hpc]; rfl) (by rw [hpc]; rfl) ⟨rfl, rfl, rfl⟩ rfl rfl rfl rfl rfl rfl
      hstate ?_ ?_
    · refine hlife.goto h.not_creates_current hlive (by simp)
        (by rintro _ ⟨⟩) (by rintro _ ⟨⟩) (by rintro _ ⟨⟩) fun v hv => ?_
      obtain rfl : t = v := Option.some.inj hv
      -- who is to erase a thread has seen it dead and reaped it
      refine ⟨hself, h.life.dead t hdead, fun u _ hu => ?_⟩
      cases hdead.symm.trans (h.life.erased u t hu).1
    · exact (h.refs.goto_same (p := .erase t) (by rw [hpc]; rfl) (by rw [hpc]; rfl) (by simp) (by simp)).congr
        rfl rfl rfl rfl rfl

/-- **`reap_thread`, its second part.** -/
theorem KernelOk.erase (h : KernelOk mutexOf k) (hpc : k.pc k.current = .erase t) :
    Ensures (resume mutexOf true (.erase t)) k fun _ k' =>
      KernelOk mutexOf k' ∧ Quiet mutexOf k k' := by
  have hact : k.state k.current = .active := h.active_of_awake (by rw [hpc]; rfl)
  obtain ⟨hst, hmem⟩ := h.life.erased k.current t (by rw [hpc]; rfl)
  have hne : t ≠ k.current := fun hc => by
    rw [hc] at hst
    cases hact.symm.trans hst
  have hlife : LifeOk (k.goto (.putReaped t)) :=
    h.life.goto_plain h.not_creates_current h.live plain_putReaped
  rw [resume]
  simp only [ensures_bind, goto, ensures_modify]
  refine h.stepped hact (by rw [hpc]; rfl) (by rw [hpc]; rfl) ⟨rfl, rfl, rfl⟩ rfl rfl rfl rfl rfl rfl
    (fun _ => Or.inl rfl) (hlife.unregister h.refs.nodup hst hne fun u hu => ?_) (h.refs.erase hpc hmem)
  rw [goto_pc] at hu
  split_ifs at hu with huc
  · cases hu
  · exact huc (h.life.erased_inj u k.current t hu (by rw [hpc]; rfl))

/-- From `condition_wait` to its `mutex_lock`. -/
theorem KernelOk.relock {c : ℕ} (h : KernelOk mutexOf k) (hpc : k.pc k.current = .condWoken c)
    (hboot : k.current ≠ bootstrap) :
    KernelOk mutexOf (k.goto (.enter (.relock c))) ∧ Quiet mutexOf k (k.goto (.enter (.relock c))) := by
  refine ⟨h.goto_awake plain_enter (fun _ => hboot) (by rw [hpc]; rfl) (Or.inr (by rw [hpc]; rfl))
    (h.refs.goto_same (by rw [hpc]; rfl) (by rw [hpc]; rfl) nofun nofun), Or.inl rfl, rfl, fun _ => rfl,
    fun _ _ ht => ht, fun u c' l hu => ?_, fun t m ht hst => ⟨?_, hst⟩⟩
  · rw [goto_pc] at hu
    split_ifs at hu
    · exact nomatch hu
    · exact ⟨⟨l, hu⟩, rfl⟩
  · rw [goto_pc]
    split_ifs with htc
    · rw [htc, hpc] at ht
      exact nomatch ht
    · exact ht

/-- **Every call goes on.** -/
theorem KernelOk.ensures_resume {b : Bool} (h : KernelOk mutexOf k) (hpc : k.pc k.current = p)
    (hp : p ≠ .run) :
    Ensures (resume mutexOf b p) k fun _ k' => KernelOk mutexOf k' ∧ Effect mutexOf k k' (.go b) := by
  have hboot : p.mayBlock = true → k.current ≠ bootstrap := fun hmay hc => by
    have := h.boot
    rw [← hc, hpc, hmay] at this
    cases this
  have hquiet : ∀ {m : KernelM Unit}, Ensures m k (fun _ k' => KernelOk mutexOf k' ∧ Quiet mutexOf k k') →
      Ensures m k fun _ k' => KernelOk mutexOf k' ∧ Effect mutexOf k k' (.go b) := fun hm =>
    hm.mono fun _ k' hk' => hk'.imp_right .quiet
  have hgoto : ∀ {p' : Pc}, KernelOk mutexOf (k.goto p') ∧ Quiet mutexOf k (k.goto p') →
      Ensures (goto p') k fun _ k' => KernelOk mutexOf k' ∧ Effect mutexOf k k' (.go b) := by
    intro p' hk'
    rw [goto, ensures_modify]
    exact hk'.imp_right .quiet
  have hturn : ∀ w, k.pc k.current = .enter w ∨ k.pc k.current = .retry w →
      Ensures (waitEvent mutexOf w b) k fun _ k' =>
        KernelOk mutexOf k' ∧ Effect mutexOf k k' (.go b) := fun w hw =>
    ensures_turn.mono fun _ k' hk' => ⟨h.turned hw hk', .turn hw hk'⟩
  -- one lemma for each place that changes more than where the thread is
  cases p with
  | newborn =>
    refine hgoto (h.goto_same (h.active_of_awake ?_) ?_ ?_ plain_run rfl ?_ ?_)
    all_goals rw [hpc]; rfl
  | run => exact absurd rfl hp
  | enter w => exact hturn w (Or.inl hpc)
  | sleep w =>
    refine hquiet (h.leave plain_retry (fun _ => hboot rfl) ?_ ?_ (h.refs.goto_same ?_ ?_ (by simp) (by simp)))
    all_goals rw [hpc]; first | rfl | (cases w <;> rfl)
  | retry w => exact hturn w (Or.inr hpc)
  | condSleep c =>
    refine hquiet (h.leave plain_condWoken (fun _ => hboot rfl) ?_ ?_ (h.refs.goto_same ?_ ?_ (by simp) (by simp)))
    all_goals rw [hpc]; rfl
  | condWoken c => exact hgoto (h.relock hpc (hboot rfl))
  | notify c l =>
    cases l with
    | nil =>
      refine hgoto (h.goto_same (h.active_of_awake ?_) ?_ ?_ plain_run rfl ?_ ?_)
      all_goals rw [hpc]; rfl
    | cons t l =>
      obtain ⟨hin, hnotify⟩ := h.notify hpc
      rw [resume, ensures_bind, ensures_get, if_pos hin]
      exact hquiet hnotify
  | advance c t l =>
    obtain ⟨hin, hnext⟩ := h.advance hpc
    rw [resume, ensures_bind, ensures_get, if_pos hin]
    exact hgoto hnext
  | register t =>
    cases b with
    | true =>
      rw [resume, if_pos rfl]
      exact hquiet (h.register hpc)
    | false =>
      rw [resume, if_neg (by simp)]
      refine hgoto (h.goto_same (h.active_of_awake ?_) ?_ ?_ plain_put rfl ?_ ?_)
      all_goals rw [hpc]; rfl
  | lookup t pid => exact hquiet (h.lookupCreated hpc)
  | activate t => exact hquiet (h.activate hpc)
  | put t => exact hquiet (h.put (Or.inl ⟨hpc, rfl⟩))
  | waiting t =>
    rw [resume, ensures_bind, ensures_get, ensures_ite]
    refine ⟨fun hdead => hgoto ?_, fun _ => hgoto ?_⟩
    · refine h.stepped (h.active_of_awake ?_) ?_ ?_ ⟨rfl, rfl, rfl⟩ rfl rfl rfl rfl rfl rfl
        (fun _ => Or.inl rfl) (h.life.goto h.not_creates_current h.live (by simp)
          (by rintro _ ⟨⟩) (by rintro _ ⟨⟩) (fun v hv => ?_)
          (by rintro _ ⟨⟩)) (h.refs.goto_same ?_ ?_ (by simp) (by simp))
      case refine_4 =>
        obtain rfl : t = v := Option.some.inj hv
        exact Or.inl hdead
      all_goals rw [hpc]; rfl
    · refine h.goto_same (h.active_of_awake ?_) ?_ ?_ plain_yielding rfl ?_ ?_
      all_goals rw [hpc]; rfl
  | yielding t =>
    refine hquiet (h.leave plain_waiting (by rintro ⟨⟩) ?_ ?_ (h.refs.goto_same ?_ ?_ (by simp) (by simp)))
    all_goals rw [hpc]; rfl
  | reap t => exact hquiet (h.reap hpc)
  | erase t => exact hquiet (h.erase hpc)
  | putReaped t => exact hquiet (h.put (Or.inr ⟨hpc, rfl⟩))
  | exited => exact absurd ((h.life.exited _).1 hpc) h.live

theorem notified_current (k : Kernel) (q : Queue) : (k.notified q).current = k.current := by
  rw [Kernel.notified]
  split <;> rfl

/-- **Only active threads are switched to.** -/
theorem Effect.current {a : Act} (h : Effect mutexOf k k' a) :
    k'.current = k.current ∨ k'.state k'.current = .active := by
  cases h with
  | quiet hq => exact hq.current
  | turn _ hturn =>
    left
    rcases hturn with ⟨m, -, -, rfl⟩ | ⟨-, rfl⟩ | ⟨-, rfl⟩ <;> rfl
  | unlock _ hk' =>
    left
    rw [hk', notified_current]
    rfl
  | condWait _ hk' =>
    left
    rw [hk', notified_current]
    rfl
  | notify hk' =>
    left
    rw [hk', notified_current]
  | splice _ hk' =>
    left
    rw [hk']
    rfl

theorem perform_go (b : Bool) : perform mutexOf (.go b) k = resume mutexOf b (k.pc k.current) k := rfl

theorem ensures_go {b : Bool} {Q : Unit → Kernel → Prop} (h : Ensures (resume mutexOf b (k.pc k.current)) k Q) :
    Ensures (perform mutexOf (.go b)) k Q := by
  obtain ⟨x, k', hstep, hQ⟩ := h
  exact ⟨x, k', (perform_go b).trans hstep, hQ⟩

theorem yields_go {b : Bool} {Q : Unit → Kernel → Prop} (h : Yields (resume mutexOf b (k.pc k.current)) k Q) :
    Yields (perform mutexOf (.go b)) k Q := fun x k' hstep => h x k' ((perform_go b).symm.trans hstep)

/-- **Every step** that is allowed succeeds and keeps the kernel sound. -/
theorem KernelOk.ensures_perform {a : Act} (h : KernelOk mutexOf k) (ha : a.Allowed mutexOf k) :
    Ensures (perform mutexOf a) k fun _ k' => KernelOk mutexOf k' ∧ Effect mutexOf k k' a := by
  cases a with
  | timer =>
    refine (h.toBaseOk.ensures_schedule ?_).mono fun _ k' hk' => ⟨hk'.1, .quiet hk'.2.quiet⟩
    rcases h.running with hr | ⟨hr, -⟩ <;> rw [hr] <;> exact nofun
  | call c => exact h.ensures_start ha.1 ha.2
  | go b => exact ensures_go (h.ensures_resume rfl ha)

end

end Threads

end Kernel64
