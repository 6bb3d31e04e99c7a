import Kernel64.Lib.Refs
import Kernel64.Threads.Waits
import Mathlib.Algebra.Order.Group.Nat
import Mathlib.Data.Int.Order.Basic

/-!
# From `create_kthread` to `wait`

`LifeOk` says how far each thread is in its life: one that is being created is blocked and known to its
creator only; one that is not registered does not run; one that is being reaped is dead. `RefsOk` says
that the reference count of a thread is the number of its owners: the tree of threads, and the threads in
a call that holds a reference.
-/

namespace Kernel64

namespace Threads

/-- The thread that a thread is creating, up to its activation. -/
def Pc.creates : Pc → Option Tid
  | .register t => some t
  | .lookup t _ => some t
  | .activate t => some t
  | _ => none

/-- The same, once it is registered. -/
def Pc.knows : Pc → Option Tid
  | .lookup t _ => some t
  | .activate t => some t
  | _ => none

/-- The thread that is about to be reaped. -/
def Pc.reaps : Pc → Option Tid
  | .reap t => some t
  | _ => none

/-- The thread that is about to leave the tree of threads. -/
def Pc.erases : Pc → Option Tid
  | .erase t => some t
  | _ => none

/-- The thread on which a call holds a reference. -/
def Pc.holds : Pc → Option Tid
  | .register t => some t
  | .activate t => some t
  | .put t => some t
  | .waiting t => some t
  | .yielding t => some t
  | .reap t => some t
  | .erase t => some t
  | .putReaped t => some t
  | _ => none

/-- The thread whose reference from the tree of threads is about to be dropped. -/
def Pc.drops : Pc → Option Tid
  | .putReaped t => some t
  | _ => none

/-- The thread has not started, or is over. -/
def Pc.Inert (p : Pc) : Prop := p = .newborn ∨ p = .exited

/-- **The lives of the threads.** -/
structure LifeOk (k : Kernel) : Prop where
  fresh : ∀ u t, (k.pc u).creates = some t → k.state t = .blocked ∧ k.pc t = .newborn
  fresh_inj : ∀ u u' t, (k.pc u).creates = some t → (k.pc u').creates = some t → u = u'
  known : ∀ u t, (k.pc u).knows = some t → t ∈ k.threads
  unregistered : ∀ t, t ≠ bootstrap → t ∉ k.threads →
    k.state t ≠ .active ∧ t ≠ k.current ∧ (k.pc t).Inert
  dead : ∀ t, k.state t = .dead → t ∈ k.threads
  exited : ∀ t, k.pc t = .exited ↔ k.state t = .dead ∨ k.state t = .reaped
  reaped : ∀ u t, (k.pc u).reaps = some t → k.state t = .dead ∨ k.state t = .reaped
  erased : ∀ u t, (k.pc u).erases = some t → k.state t = .reaped ∧ t ∈ k.threads
  erased_inj : ∀ u u' t, (k.pc u).erases = some t → (k.pc u').erases = some t → u = u'

/-- How many owners a thread has. -/
noncomputable def owners (k : Kernel) (t : Tid) : ℕ :=
  (if t ∈ k.threads then 1 else 0) + refs (fun u => (k.pc u).holds) t + refs (fun u => (k.pc u).drops) t

/-- **The references on the threads.** -/
structure RefsOk (k : Kernel) : Prop where
  nodup : k.threads.Nodup
  boot : bootstrap ∉ k.threads
  pids : ∀ t ∈ k.threads, ∀ t' ∈ k.threads, k.pid t = k.pid t' → t = t'
  looks : ∀ u t p, k.pc u = .lookup t p → k.pid t = p
  registers : ∀ u t, k.pc u = .register t → t ∉ k.threads
  holds : Sparse fun u => (k.pc u).holds
  drops : Sparse fun u => (k.pc u).drops
  count : ∀ t, k.used t = true → k.refcount t = owners k t
  unused : ∀ t, k.used t = false → owners k t = 0

section

variable {k k' : Kernel} {t : Tid} {p : Pc}

/-! ### Lives -/

/-- **Going on** from one place to another. -/
theorem LifeOk.goto (h : LifeOk k) (hcur : ∀ u, (k.pc u).creates ≠ some k.current)
    (hlive : ¬(k.state k.current = .dead ∨ k.state k.current = .reaped)) (hex : p ≠ .exited)
    (hcr : ∀ t, p.creates = some t → t ≠ k.current ∧ k.state t = .blocked ∧ k.pc t = .newborn ∧
      ∀ u, u ≠ k.current → (k.pc u).creates ≠ some t)
    (hkn : ∀ t, p.knows = some t → t ∈ k.threads)
    (hre : ∀ t, p.reaps = some t → k.state t = .dead ∨ k.state t = .reaped)
    (her : ∀ t, p.erases = some t → k.state t = .reaped ∧ t ∈ k.threads ∧
      ∀ u, u ≠ k.current → (k.pc u).erases ≠ some t) : LifeOk (k.goto p) := by
  have hother : ∀ t, t ≠ k.current → (k.goto p).pc t = k.pc t := fun t ht => by
    rw [goto_pc, if_neg ht]
  have hself : (k.goto p).pc k.current = p := by rw [goto_pc, if_pos rfl]
  refine ⟨fun u t hu => ?_, fun u u' t hu hu' => ?_, fun u t hu => ?_, fun t hb ht => ?_, h.dead,
    fun t => ?_, fun u t hu => ?_, fun u t hu => ?_, fun u u' t hu hu' => ?_⟩
  · rw [goto_pc] at hu
    split_ifs at hu
    · obtain ⟨hne, hst, hnew, -⟩ := hcr t hu
      exact ⟨hst, (hother t hne).trans hnew⟩
    · obtain ⟨hst, hnew⟩ := h.fresh u t hu
      exact ⟨hst, (hother t fun hc => hcur u (hc ▸ hu)).trans hnew⟩
  · rw [goto_pc] at hu hu'
    split_ifs at hu hu' with huc huc' huc'
    · exact huc.trans huc'.symm
    · exact absurd hu' ((hcr t hu).2.2.2 u' huc')
    · exact absurd hu ((hcr t hu').2.2.2 u huc)
    · exact h.fresh_inj u u' t hu hu'
  · rw [goto_pc] at hu
    split_ifs at hu
    · exact hkn t hu
    · exact h.known u t hu
  · obtain ⟨hst, hne, hin⟩ := h.unregistered t hb ht
    rw [hother t hne]
    exact ⟨hst, hne, hin⟩
  · by_cases htc : t = k.current
    · subst htc
      rw [hself]
      exact iff_of_false hex hlive
    · rw [hother t htc]
      exact h.exited t
  · rw [goto_pc] at hu
    split_ifs at hu
    · exact hre t hu
    · exact h.reaped u t hu
  · rw [goto_pc] at hu
    split_ifs at hu
    · exact ⟨(her t hu).1, (her t hu).2.1⟩
    · exact h.erased u t hu
  · rw [goto_pc] at hu hu'
    split_ifs at hu hu' with huc huc' huc'
    · exact huc.trans huc'.symm
    · exact absurd hu' ((her t hu).2.2 u' huc')
    · exact absurd hu ((her t hu').2.2 u huc)
    · exact h.erased_inj u u' t hu hu'

/-- The state of a thread changes, but not in a way that matters here. -/
theorem LifeOk.congr (h : LifeOk k) (hpc : k'.pc = k.pc) (hthreads : k'.threads = k.threads)
    (hcur : k'.current ≠ k.current → k'.state k'.current = .active)
    (hstate : ∀ t, k'.state t = k.state t ∨ (∀ u, (k.pc u).creates ≠ some t) ∧
      (t = bootstrap ∨ t ∈ k.threads) ∧ ¬(k.state t = .dead ∨ k.state t = .reaped) ∧
        ¬(k'.state t = .dead ∨ k'.state t = .reaped)) : LifeOk k' := by
  have hgone : ∀ t, k'.state t = .dead ∨ k'.state t = .reaped ↔
      k.state t = .dead ∨ k.state t = .reaped := by
    intro t
    rcases hstate t with heq | ⟨-, -, h₁, h₂⟩
    · rw [heq]
    · exact iff_of_false h₂ h₁
  refine ⟨fun u t hu => ?_, ?_, ?_, fun t hb ht => ?_, fun t ht => ?_, fun t => ?_, fun u t hu => ?_,
    fun u t hu => ?_, ?_⟩
  · rw [hpc] at hu ⊢
    obtain ⟨hst, hnew⟩ := h.fresh u t hu
    rcases hstate t with heq | ⟨hno, -⟩
    · exact ⟨heq.trans hst, hnew⟩
    · exact absurd hu (hno u)
  · rw [hpc]
    exact h.fresh_inj
  · rw [hpc, hthreads]
    exact h.known
  · rw [hthreads] at ht
    rw [hpc]
    obtain ⟨hst, hne, hin⟩ := h.unregistered t hb ht
    have heq : k'.state t = k.state t := by
      rcases hstate t with heq | ⟨-, hreg, -⟩
      · exact heq
      · exact absurd hreg fun hc => hc.elim hb ht
    rw [heq]
    refine ⟨hst, fun hc => ?_, hin⟩
    subst hc
    by_cases hsame : k'.current = k.current
    · exact hne hsame
    · rw [hcur hsame] at heq
      exact hst heq.symm
  · rw [hthreads]
    rcases hstate t with heq | ⟨-, -, -, hno⟩
    · exact h.dead t (heq ▸ ht)
    · exact absurd (Or.inl ht) hno
  · rw [hpc, h.exited t, hgone]
  · rw [hpc] at hu
    exact (hgone t).2 (h.reaped u t hu)
  · rw [hpc] at hu
    obtain ⟨hst, hreg⟩ := h.erased u t hu
    rw [hthreads]
    rcases hstate t with heq | ⟨-, -, hno, -⟩
    · exact ⟨heq.trans hst, hreg⟩
    · exact absurd (Or.inr hst) hno
  · rw [hpc]
    exact h.erased_inj

/-- **Exiting**: the thread is dead once another one runs. -/
theorem LifeOk.exit (h : LifeOk k) (hboot : k.current ≠ bootstrap)
    (hcur : ∀ u, (k.pc u).creates ≠ some k.current)
    (hlive : ¬(k.state k.current = .dead ∨ k.state k.current = .reaped))
    (hs : Switched ((k.setState k.current .finished).goto .exited) k') : LifeOk k' := by
  have hpc : ∀ u, k'.pc u = if u = k.current then .exited else k.pc u := by
    intro u
    rw [hs.pc]
    exact goto_pc _ _ u
  have hself : (Function.update k.state k.current ThreadState.finished) k.current = .finished :=
    Function.update_self _ _ _
  have hstate : ∀ u, k'.state u = if u = k.current then .dead else k.state u := by
    intro u
    rw [hs.state]
    change (if (Function.update k.state k.current ThreadState.finished) k.current = .finished then
      Function.update (Function.update k.state k.current ThreadState.finished) k.current .dead else _) u
        = _
    rw [if_pos hself, Function.update_idem, Function.update_apply]
  have hthreads : k'.threads = k.threads := hs.threads
  have hattr : ∀ {f : Pc → Option Tid} {u t}, f .exited = none → f (k'.pc u) = some t →
      f (k.pc u) = some t := by
    intro f u t hf hu
    rw [hpc] at hu
    split_ifs at hu
    · rw [hf] at hu
      exact nomatch hu
    · exact hu
  have hgone : ∀ u, u ≠ k.current → k'.state u = k.state u := fun u hu => by rw [hstate, if_neg hu]
  refine ⟨fun u t hu => ?_, fun u u' t hu hu' => ?_, fun u t hu => ?_, fun t hb ht => ?_, fun t ht => ?_,
    fun t => ?_, fun u t hu => ?_, fun u t hu => ?_, fun u u' t hu hu' => ?_⟩
  · have hu' : (k.pc u).creates = some t := hattr rfl hu
    obtain ⟨hst, hnew⟩ := h.fresh u t hu'
    have htc : t ≠ k.current := fun hc => hcur u (hc ▸ hu')
    rw [hgone t htc, hpc, if_neg htc]
    exact ⟨hst, hnew⟩
  · exact h.fresh_inj u u' t (hattr rfl hu) (hattr rfl hu')
  · rw [hthreads]
    exact h.known u t (hattr rfl hu)
  · rw [hthreads] at ht
    obtain ⟨hst, hne, hin⟩ := h.unregistered t hb ht
    rw [hgone t hne, hpc, if_neg hne]
    refine ⟨hst, fun hc => hst ?_, hin⟩
    rw [← hgone t hne, hc]
    exact hs.current
  · rw [hthreads]
    by_cases htc : t = k.current
    · subst htc
      by_contra hreg
      exact (h.unregistered _ hboot hreg).2.1 rfl
    · exact h.dead t (hgone t htc ▸ ht)
  · rw [hstate, hpc]
    split_ifs with htc
    · exact iff_of_true rfl (Or.inl rfl)
    · exact h.exited t
  · rw [hstate]
    split_ifs
    · exact Or.inl rfl
    · exact h.reaped u t (hattr rfl hu)
  · obtain ⟨hst, hreg⟩ := h.erased u t (hattr rfl hu)
    have htc : t ≠ k.current := fun hc => hlive (Or.inr (hc ▸ hst))
    rw [hgone t htc, hthreads]
    exact ⟨hst, hreg⟩
  · exact h.erased_inj u u' t (hattr rfl hu) (hattr rfl hu')

/-! ### References -/

theorem refs_goto {f : Pc → Option Tid} (h : Sparse fun u => f (k.pc u)) :
    Sparse (fun u => f ((k.goto p).pc u)) ∧
      refs (fun u => f ((k.goto p).pc u)) t + (if f (k.pc k.current) = some t then 1 else 0) =
        refs (fun u => f (k.pc u)) t + if f p = some t then 1 else 0 := by
  have hfun : (fun u => f ((k.goto p).pc u)) =
      Function.update (fun u => f (k.pc u)) k.current (f p) := by
    funext u
    rw [goto_pc, Function.update_apply]
    split_ifs <;> rfl
  rw [hfun]
  exact ⟨h.update _ _, refs_update h _ _ _⟩

/-- **The owners after a step** of the running thread. -/
theorem owners_goto (hh : Sparse fun u => (k.pc u).holds) (hd : Sparse fun u => (k.pc u).drops) :
    owners (k.goto p) t + (if (k.pc k.current).holds = some t then 1 else 0) +
        (if (k.pc k.current).drops = some t then 1 else 0) =
      owners k t + (if p.holds = some t then 1 else 0) + if p.drops = some t then 1 else 0 := by
  have h₁ := (refs_goto (p := p) (t := t) hh).2
  have h₂ := (refs_goto (p := p) (t := t) hd).2
  have h₃ : (k.goto p).threads = k.threads := rfl
  unfold owners
  rw [h₃]
  omega

theorem RefsOk.used_of_owned (h : RefsOk k) (ht : 0 < owners k t) : k.used t = true := by
  by_contra hc
  have := h.unused t (by simpa using hc)
  omega

theorem owners_pos_of_mem (ht : t ∈ k.threads) : 0 < owners k t := by
  rw [owners, if_pos ht]
  omega

theorem RefsOk.owners_pos_of_holds (h : RefsOk k) {u : Tid} (hu : (k.pc u).holds = some t) :
    0 < owners k t := by
  have := (refs_pos_iff h.holds).2 ⟨u, hu⟩
  rw [owners]
  omega

theorem RefsOk.congr (h : RefsOk k) (hpc : k'.pc = k.pc) (hthreads : k'.threads = k.threads)
    (hpid : k'.pid = k.pid) (hrc : k'.refcount = k.refcount) (hused : k'.used = k.used) :
    RefsOk k' := by
  have howners : ∀ t, owners k' t = owners k t := fun t => by rw [owners, owners, hpc, hthreads]
  refine ⟨hthreads ▸ h.nodup, hthreads ▸ h.boot, ?_, ?_, ?_, ?_, ?_, fun t ht => ?_, fun t ht => ?_⟩
  · rw [hthreads, hpid]
    exact h.pids
  · rw [hpc, hpid]
    exact h.looks
  · rw [hpc, hthreads]
    exact h.registers
  · rw [hpc]
    exact h.holds
  · rw [hpc]
    exact h.drops
  · rw [hrc, howners]
    exact h.count t (hused ▸ ht)
  · rw [howners]
    exact h.unused t (hused ▸ ht)

/-- **A step** of the running thread that changes owners and counts together. -/
theorem RefsOk.goto (h : RefsOk k) (hpc : k'.pc = k.pc) (hcur : k'.current = k.current)
    (hthreads : k'.threads = k.threads) (hpid : k'.pid = k.pid)
    (hlook : ∀ t i, p = .lookup t i → k.pid t = i) (hreg : ∀ t, p = .register t → t ∉ k.threads)
    (hcount : ∀ t n : ℕ, n + (if (k.pc k.current).holds = some t then 1 else 0) +
        (if (k.pc k.current).drops = some t then 1 else 0) =
          owners k t + (if p.holds = some t then 1 else 0) + (if p.drops = some t then 1 else 0) →
        (k'.used t = true → k'.refcount t = n) ∧ (k'.used t = false → n = 0)) :
    RefsOk (k'.goto p) := by
  have hh : Sparse fun u => (k'.pc u).holds := by
    rw [hpc]
    exact h.holds
  have hd : Sparse fun u => (k'.pc u).drops := by
    rw [hpc]
    exact h.drops
  have hcount' : ∀ t, (k'.used t = true → k'.refcount t = owners (k'.goto p) t) ∧
      (k'.used t = false → owners (k'.goto p) t = 0) := by
    intro t
    have howners := owners_goto (p := p) (t := t) hh hd
    have hsame : owners k' t = owners k t := by rw [owners, owners, hpc, hthreads]
    rw [hpc, hcur, hsame] at howners
    exact hcount t _ howners
  refine ⟨?_, ?_, ?_, fun u t i hu => ?_, fun u t hu => ?_, (refs_goto hh (t := 0)).1,
    (refs_goto hd (t := 0)).1, fun t => (hcount' t).1, fun t => (hcount' t).2⟩
  · exact hthreads ▸ h.nodup
  · exact hthreads ▸ h.boot
  · change ∀ t ∈ k'.threads, ∀ t' ∈ k'.threads, k'.pid t = k'.pid t' → t = t'
    rw [hthreads, hpid]
    exact h.pids
  · change k'.pid t = i
    rw [hpid]
    rw [goto_pc] at hu
    split_ifs at hu
    · exact hlook t i hu
    · exact h.looks u t i (hpc ▸ hu)
  · change t ∉ k'.threads
    rw [hthreads]
    rw [goto_pc] at hu
    split_ifs at hu
    · exact hreg t hu
    · exact h.registers u t (hpc ▸ hu)

/-- A step that changes no reference. -/
theorem RefsOk.goto_same (h : RefsOk k) (hh : p.holds = (k.pc k.current).holds)
    (hd : p.drops = (k.pc k.current).drops) (hlook : ∀ t i, p = .lookup t i → k.pid t = i)
    (hreg : ∀ t, p = .register t → t ∉ k.threads) : RefsOk (k.goto p) := by
  refine h.goto rfl rfl rfl rfl hlook hreg fun t n hn => ?_
  rw [hh, hd] at hn
  obtain rfl : n = owners k t := by omega
  exact ⟨h.count t, h.unused t⟩

/-- **Looking up a thread** takes a reference on it. -/
theorem RefsOk.lookup (h : RefsOk k) (ht : t ∈ k.threads) (hh : (k.pc k.current).holds = none)
    (hd : (k.pc k.current).drops = none) (hh' : p.holds = some t) (hd' : p.drops = none)
    (hreg : ∀ u, p ≠ .register u) :
    RefsOk ({ k with refcount := Function.update k.refcount t (k.refcount t + 1) }.goto p) := by
  have hused := h.used_of_owned (owners_pos_of_mem ht)
  refine h.goto rfl rfl rfl rfl (fun u i hc => ?_) (fun u hc => absurd hc (hreg u)) fun u n hn => ?_
  · subst hc
    exact nomatch hh'
  · rw [hh, hd, hh', hd'] at hn
    by_cases hut : u = t
    · subst hut
      simp only [reduceCtorEq, if_false, if_true] at hn
      have := h.count u hused
      refine ⟨fun _ => ?_, fun hc => ?_⟩
      · simp only [Function.update_self]
        omega
      · simp only [hused, reduceCtorEq] at hc
    · have hne : some t ≠ some u := fun hc => hut (Option.some.inj hc).symm
      simp only [reduceCtorEq, if_false, hne] at hn
      obtain rfl : n = owners k u := by omega
      simp only [Function.update_of_ne hut]
      exact ⟨h.count u, h.unused u⟩

/-- **Dropping a reference** releases the thread when it was the last one. -/
theorem RefsOk.put (h : RefsOk k)
    (hdrop : ∀ u, (if (k.pc k.current).holds = some u then 1 else 0) +
      (if (k.pc k.current).drops = some u then 1 else 0) =
        (if p.holds = some u then 1 else 0) + (if p.drops = some u then 1 else 0) +
          if u = t then 1 else 0)
    (hlook : ∀ u i, p ≠ .lookup u i) (hreg : ∀ u, p ≠ .register u) :
    RefsOk ({ k with
      refcount := Function.update k.refcount t (k.refcount t - 1)
      used := if k.refcount t - 1 = 0 then Function.update k.used t false else k.used }.goto p) := by
  have hown : ∀ n, n + 1 = owners k t → k.refcount t = n + 1 := fun n hn => by
    rw [h.count t (h.used_of_owned (by omega))]
    omega
  refine h.goto rfl rfl rfl rfl (fun u i hc => absurd hc (hlook u i)) (fun u hc => absurd hc (hreg u))
    fun u n hn => ?_
  have hu := hdrop u
  by_cases hut : u = t
  · subst hut
    rw [if_pos rfl] at hu
    have hrc := hown n (by omega)
    simp only [Function.update_self]
    split_ifs with hz
    · refine ⟨fun hc => ?_, fun _ => by omega⟩
      simp only [Function.update_self, reduceCtorEq] at hc
    · refine ⟨fun _ => by omega, fun hc => ?_⟩
      have := h.unused u hc
      omega
  · rw [if_neg hut] at hu
    obtain rfl : n = owners k u := by omega
    simp only [Function.update_of_ne hut]
    split_ifs with hz
    · simp only [Function.update_of_ne hut]
      exact ⟨h.count u, h.unused u⟩
    · exact ⟨h.count u, h.unused u⟩

/-! ### Creating, registering and erasing -/

theorem creates_owned (hl : LifeOk k) (hr : RefsOk k) {u : Tid} (hu : (k.pc u).creates = some t) :
    0 < owners k t := by
  by_cases hk : (k.pc u).knows = some t
  · exact owners_pos_of_mem (hl.known u t hk)
  · refine hr.owners_pos_of_holds (u := u) ?_
    cases hp : k.pc u <;> rw [hp] at hu hk <;> first | exact hu | exact absurd hu hk

theorem reaps_holds (hp : p.reaps = some t) : p.holds = some t := by
  cases p <;> first | exact hp | exact nomatch hp

theorem erases_holds (hp : p.erases = some t) : p.holds = some t := by
  cases p <;> first | exact hp | exact nomatch hp

/-- The kernel with the thread `t` in the place of one that nobody owns. -/
def Kernel.respawn (k : Kernel) (t : Tid) : Kernel :=
  { k with
    state := Function.update k.state t .blocked
    pid := Function.update k.pid t (-1)
    pc := Function.update k.pc t .newborn
    held := Function.update k.held t fun _ => false }

theorem respawn_pc (k : Kernel) (t u : Tid) :
    (k.respawn t).pc u = if u = t then .newborn else k.pc u := Function.update_apply _ _ _ _

theorem respawn_state (k : Kernel) (t u : Tid) :
    (k.respawn t).state u = if u = t then .blocked else k.state u := Function.update_apply _ _ _ _

theorem LifeOk.respawn (h : LifeOk k) (hr : RefsOk k) (hown : owners k t = 0) (hb : t ≠ bootstrap) :
    LifeOk (k.respawn t) := by
  have hreg : t ∉ k.threads := fun hc => (owners_pos_of_mem hc).ne' hown
  have hcur := (h.unregistered t hb hreg).2.1
  have hnone : ∀ u, (k.pc u).creates ≠ some t := fun u hu => (creates_owned h hr hu).ne' hown
  have hattr : ∀ {f : Pc → Option Tid} {u v}, f .newborn = none → f ((k.respawn t).pc u) = some v →
      f (k.pc u) = some v := by
    intro f u v hf hu
    rw [respawn_pc] at hu
    split_ifs at hu
    · rw [hf] at hu
      exact nomatch hu
    · exact hu
  have hother : ∀ v, v ≠ t → (k.respawn t).state v = k.state v ∧ (k.respawn t).pc v = k.pc v := by
    intro v hv
    rw [respawn_state, respawn_pc, if_neg hv, if_neg hv]
    exact ⟨rfl, rfl⟩
  have hself : (k.respawn t).state t = .blocked ∧ (k.respawn t).pc t = .newborn := by
    rw [respawn_state, respawn_pc, if_pos rfl, if_pos rfl]
    exact ⟨rfl, rfl⟩
  refine ⟨fun u v hu => ?_, fun u u' v hu hu' => h.fresh_inj u u' v (hattr rfl hu) (hattr rfl hu'),
    fun u v hu => h.known u v (hattr rfl hu), fun v hb' hv => ?_, fun v hv => ?_, fun v => ?_,
    fun u v hu => ?_, fun u v hu => ?_, fun u u' v hu hu' => h.erased_inj u u' v (hattr rfl hu) (hattr rfl hu')⟩
  · have hu' : (k.pc u).creates = some v := hattr rfl hu
    obtain ⟨hst, hpc⟩ := hother v fun hc => hnone u (hc ▸ hu')
    rw [hst, hpc]
    exact h.fresh u v hu'
  · by_cases hvt : v = t
    · subst hvt
      rw [hself.1, hself.2]
      exact ⟨nofun, hcur, Or.inl rfl⟩
    · rw [(hother v hvt).1, (hother v hvt).2]
      exact h.unregistered v hb' hv
  · by_cases hvt : v = t
    · subst hvt
      exact nomatch hself.1.symm.trans hv
    · exact h.dead v ((hother v hvt).1 ▸ hv)
  · by_cases hvt : v = t
    · subst hvt
      rw [hself.1, hself.2]
      exact iff_of_false nofun fun hc => hc.elim nofun nofun
    · rw [(hother v hvt).1, (hother v hvt).2]
      exact h.exited v
  · have hu' : (k.pc u).reaps = some v := hattr rfl hu
    have hvt : v ≠ t := fun hc => (hr.owners_pos_of_holds (hc ▸ reaps_holds hu')).ne' hown
    rw [(hother v hvt).1]
    exact h.reaped u v hu'
  · have hu' : (k.pc u).erases = some v := hattr rfl hu
    have hvt : v ≠ t := fun hc => (hr.owners_pos_of_holds (hc ▸ erases_holds hu')).ne' hown
    rw [(hother v hvt).1]
    exact h.erased u v hu'

theorem RefsOk.respawn (h : RefsOk k) (hl : LifeOk k) (hown : owners k t = 0) (hb : t ≠ bootstrap) :
    RefsOk (k.respawn t) := by
  have hreg : t ∉ k.threads := fun hc => (owners_pos_of_mem hc).ne' hown
  have hinert := (hl.unregistered t hb hreg).2.2
  have hattr : ∀ {f : Pc → Option Tid}, f .newborn = none → f .exited = none →
      (fun u => f ((k.respawn t).pc u)) = fun u => f (k.pc u) := by
    intro f hn he
    funext u
    rw [respawn_pc]
    split_ifs with hut
    · subst hut
      rcases hinert with hin | hin <;> rw [hin]
      rw [hn, he]
    · rfl
  have hholds : (fun u => ((k.respawn t).pc u).holds) = fun u => (k.pc u).holds := hattr rfl rfl
  have hdrops : (fun u => ((k.respawn t).pc u).drops) = fun u => (k.pc u).drops := hattr rfl rfl
  have howners : ∀ u, owners (k.respawn t) u = owners k u := fun u => by
    rw [owners, owners, hholds, hdrops]
    rfl
  have hpid : ∀ u, u ≠ t → (k.respawn t).pid u = k.pid u := fun u hu => Function.update_of_ne hu _ _
  have hmem : ∀ u ∈ k.threads, u ≠ t := fun u hu hc => hreg (hc ▸ hu)
  refine ⟨h.nodup, h.boot, fun u hu u' hu' heq => ?_, fun u v i hu => ?_, fun u v hu => ?_,
    hholds ▸ h.holds, hdrops ▸ h.drops, fun u hu => ?_, fun u hu => ?_⟩
  · rw [hpid u (hmem u hu), hpid u' (hmem u' hu')] at heq
    exact h.pids u hu u' hu' heq
  · rw [respawn_pc] at hu
    split_ifs at hu
    have hknown := hl.known u v (by rw [hu]; rfl)
    rw [hpid v (hmem v hknown)]
    exact h.looks u v i hu
  · rw [respawn_pc] at hu
    split_ifs at hu
    exact h.registers u v hu
  · rw [howners]
    exact h.count u hu
  · rw [howners]
    exact h.unused u hu

/-- **A new thread** is owned by its creator. -/
theorem RefsOk.alloc (h : RefsOk k) (hused : k.used t = false) (hh : (k.pc k.current).holds = none)
    (hd : (k.pc k.current).drops = none) (hreg : t ∉ k.threads) :
    RefsOk ({ k with
      used := Function.update k.used t true
      refcount := Function.update k.refcount t 1 }.goto (.register t)) := by
  refine h.goto rfl rfl rfl rfl (fun u i hc => nomatch hc) (fun u hc => ?_) fun u n hn => ?_
  · obtain rfl : t = u := Pc.register.inj hc
    exact hreg
  · have hp : (Pc.register t).holds = some t ∧ (Pc.register t).drops = none := ⟨rfl, rfl⟩
    rw [hh, hd, hp.1, hp.2] at hn
    by_cases hut : u = t
    · subst hut
      have hzero := h.unused u hused
      simp only [reduceCtorEq, if_false, if_true] at hn
      simp only [Function.update_self, reduceCtorEq, false_implies, true_implies, and_true]
      omega
    · have hne : some t ≠ some u := fun hc => hut (Option.some.inj hc).symm
      simp only [reduceCtorEq, if_false, hne] at hn
      obtain rfl : n = owners k u := by omega
      simp only [Function.update_of_ne hut]
      exact ⟨h.count u, h.unused u⟩

theorem LifeOk.register (h : LifeOk k) :
    LifeOk { k with threads := t :: k.threads } :=
  ⟨h.fresh, h.fresh_inj, fun u v hu => List.mem_cons_of_mem _ (h.known u v hu),
    fun v hb hv => h.unregistered v hb fun hc => hv (List.mem_cons_of_mem _ hc),
    fun v hv => List.mem_cons_of_mem _ (h.dead v hv), h.exited, h.reaped,
    fun u v hu => ⟨(h.erased u v hu).1, List.mem_cons_of_mem _ (h.erased u v hu).2⟩, h.erased_inj⟩

/-- **Unregistering** a reaped thread. -/
theorem LifeOk.unregister (h : LifeOk k) (hnd : k.threads.Nodup) (hst : k.state t = .reaped)
    (hcur : t ≠ k.current) (her : ∀ u, (k.pc u).erases ≠ some t) :
    LifeOk { k with threads := k.threads.erase t } := by
  have hkeep : ∀ v ∈ k.threads, v ≠ t → v ∈ k.threads.erase t := fun v hv hne =>
    (hnd.mem_erase_iff).2 ⟨hne, hv⟩
  refine ⟨h.fresh, h.fresh_inj, fun u v hu => hkeep v (h.known u v hu) fun hc => ?_, fun v hb hv => ?_,
    fun v hv => hkeep v (h.dead v hv) fun hc => ?_, h.exited, h.reaped,
    fun u v hu => ⟨(h.erased u v hu).1, hkeep v (h.erased u v hu).2 fun hc =>
      her u (hc ▸ hu)⟩, h.erased_inj⟩
  · subst hc
    have hcr : (k.pc u).creates = some v := by
      cases hp : k.pc u <;> rw [hp] at hu <;> first | exact hu | exact nomatch hu
    rw [(h.fresh u v hcr).1] at hst
    exact nomatch hst
  · by_cases hvt : v = t
    · subst hvt
      exact ⟨fun hc => (nomatch hst.symm.trans hc), hcur, Or.inr ((h.exited v).2 (Or.inr hst))⟩
    · exact h.unregistered v hb fun hc => hv (hkeep v hc hvt)
  · rw [hc, hst] at hv
    exact nomatch hv

/-- A dead thread is reaped. -/
theorem LifeOk.reap (h : LifeOk k) (ht : k.state t = .dead ∨ k.state t = .reaped) :
    LifeOk (k.setState t .reaped) := by
  have hother : ∀ v, v ≠ t → (k.setState t .reaped).state v = k.state v := fun v hv =>
    Function.update_of_ne hv _ _
  have hself : (k.setState t .reaped).state t = .reaped := Function.update_self _ _ _
  refine ⟨fun u v hu => ?_, h.fresh_inj, h.known, fun v hb hv => ?_, fun v hv => ?_, fun v => ?_,
    fun u v hu => ?_, fun u v hu => ?_, h.erased_inj⟩
  · obtain ⟨hst, hnew⟩ := h.fresh u v hu
    have hvt : v ≠ t := fun hc => by
      rw [hc] at hst
      rcases ht with ht | ht <;> exact nomatch ht.symm.trans hst
    exact ⟨(hother v hvt).trans hst, hnew⟩
  · obtain ⟨hst, hne, hin⟩ := h.unregistered v hb hv
    refine ⟨fun hc => ?_, hne, hin⟩
    by_cases hvt : v = t
    · rw [hvt, hself] at hc
      exact nomatch hc
    · exact hst (hother v hvt ▸ hc)
  · by_cases hvt : v = t
    · rw [hvt, hself] at hv
      exact nomatch hv
    · exact h.dead v (hother v hvt ▸ hv)
  · by_cases hvt : v = t
    · rw [hvt, hself]
      exact iff_of_true ((h.exited t).2 ht) (Or.inr rfl)
    · rw [hother v hvt]
      exact h.exited v
  · by_cases hvt : v = t
    · rw [hvt]
      exact Or.inr hself
    · rw [hother v hvt]
      exact h.reaped u v hu
  · refine ⟨?_, (h.erased u v hu).2⟩
    by_cases hvt : v = t
    · rw [hvt]
      exact hself
    · rw [hother v hvt]
      exact (h.erased u v hu).1

theorem owners_threads (hpc : k'.pc = k.pc) :
    owners k' t + (if t ∈ k.threads then 1 else 0) = owners k t + if t ∈ k'.threads then 1 else 0 := by
  rw [owners, owners, hpc]
  omega

/-- **Registering** hands the reference of the creator to the tree of threads. -/
theorem RefsOk.register (h : RefsOk k) (hl : LifeOk k) {i n : ℤ} (hpc : k.pc k.current = .register t)
    (hb : t ≠ bootstrap) (hi : i ∉ k.threads.map k.pid) :
    RefsOk ({ k with
      nextPid := n
      pid := Function.update k.pid t i
      threads := t :: k.threads }.goto (.lookup t i)) := by
  have hreg : t ∉ k.threads := h.registers _ t hpc
  have hpid : ∀ u ∈ k.threads, Function.update k.pid t i u = k.pid u := fun u hu =>
    Function.update_of_ne (fun hc : u = t => hreg (hc ▸ hu)) _ _
  have hfresh : ∀ u ∈ k.threads, k.pid u ≠ i := fun u hu hc => hi (List.mem_map.2 ⟨u, hu, hc⟩)
  set k₁ : Kernel := { k with
    nextPid := n
    pid := Function.update k.pid t i
    threads := t :: k.threads } with hk₁
  have hthreads : ∀ u, u ∈ k₁.threads ↔ u = t ∨ u ∈ k.threads := fun u => List.mem_cons
  have howners : ∀ u, owners (k₁.goto (.lookup t i)) u = owners k u := by
    intro u
    have hgoto := owners_goto (k := k₁) (p := .lookup t i) (t := u) h.holds h.drops
    have htree : owners k₁ u + (if u ∈ k.threads then 1 else 0) =
        owners k u + if u ∈ k₁.threads then 1 else 0 := owners_threads rfl
    have hcur : k₁.pc k₁.current = .register t := hpc
    have hh : (Pc.register t).holds = some t ∧ (Pc.register t).drops = none := ⟨rfl, rfl⟩
    have hh' : (Pc.lookup t i).holds = none ∧ (Pc.lookup t i).drops = none := ⟨rfl, rfl⟩
    rw [hcur, hh.1, hh.2, hh'.1, hh'.2] at hgoto
    simp only [hthreads] at htree
    by_cases hut : u = t
    · subst hut
      simp only [if_true, reduceCtorEq, if_false, true_or, hreg] at hgoto htree
      omega
    · have hne : some t ≠ some u := fun hc => hut (Option.some.inj hc).symm
      simp only [hne, reduceCtorEq, if_false, hut, false_or] at hgoto htree
      omega
  have hout : bootstrap ∉ k₁.threads := fun hc => ((hthreads _).1 hc).elim hb.symm h.boot
  refine ⟨List.nodup_cons.2 ⟨hreg, h.nodup⟩, hout, fun u hu u' hu' heq => ?_, fun u v j hu => ?_,
    fun u v hu => ?_, (refs_goto (t := 0) h.holds).1, (refs_goto (t := 0) h.drops).1, fun u hu => ?_,
    fun u hu => ?_⟩
  · change Function.update k.pid t i u = Function.update k.pid t i u' at heq
    rcases (hthreads u).1 hu with rfl | hmem <;> rcases (hthreads u').1 hu' with rfl | hmem'
    · rfl
    · rw [Function.update_self, hpid u' hmem'] at heq
      exact absurd heq.symm (hfresh u' hmem')
    · rw [Function.update_self, hpid u hmem] at heq
      exact absurd heq (hfresh u hmem)
    · rw [hpid u hmem, hpid u' hmem'] at heq
      exact h.pids u hmem u' hmem' heq
  · change Function.update k.pid t i v = j
    rw [goto_pc] at hu
    split_ifs at hu with huc
    · obtain ⟨rfl, rfl⟩ := Pc.lookup.inj hu
      exact Function.update_self _ _ _
    · have hold : k.pc u = .lookup v j := hu
      rw [hpid v (hl.known u v (by rw [hold]; rfl))]
      exact h.looks u v j hold
  · rw [goto_pc] at hu
    split_ifs at hu with huc
    have hold : k.pc u = .register v := hu
    refine fun hc => ((hthreads v).1 hc).elim (fun hvt => huc ?_) (h.registers u v hold)
    -- nobody else is creating the thread
    subst hvt
    exact hl.fresh_inj u k.current v (by rw [hold]; rfl) (by rw [hpc]; rfl)
  · rw [howners]
    exact h.count u hu
  · rw [howners]
    exact h.unused u hu

/-- **Erasing** hands the reference of the tree of threads to the one that reaps. -/
theorem RefsOk.erase (h : RefsOk k) (hpc : k.pc k.current = .erase t) (ht : t ∈ k.threads) :
    RefsOk ({ k with threads := k.threads.erase t }.goto (.putReaped t)) := by
  set k₁ : Kernel := { k with threads := k.threads.erase t } with hk₁
  have hthreads : ∀ u, u ∈ k₁.threads ↔ u ≠ t ∧ u ∈ k.threads := fun u => h.nodup.mem_erase_iff
  have howners : ∀ u, owners (k₁.goto (.putReaped t)) u = owners k u := by
    intro u
    have hgoto := owners_goto (k := k₁) (p := .putReaped t) (t := u) h.holds h.drops
    have htree : owners k₁ u + (if u ∈ k.threads then 1 else 0) =
        owners k u + if u ∈ k₁.threads then 1 else 0 := owners_threads rfl
    have hcur : k₁.pc k₁.current = .erase t := hpc
    have hh : (Pc.erase t).holds = some t ∧ (Pc.erase t).drops = none := ⟨rfl, rfl⟩
    have hh' : (Pc.putReaped t).holds = some t ∧ (Pc.putReaped t).drops = some t := ⟨rfl, rfl⟩
    rw [hcur, hh.1, hh.2, hh'.1, hh'.2] at hgoto
    simp only [hthreads] at htree
    by_cases hut : u = t
    · subst hut
      simp only [if_true, reduceCtorEq, if_false, ne_eq, not_true, false_and, ht] at hgoto htree
      omega
    · have hne : some t ≠ some u := fun hc => hut (Option.some.inj hc).symm
      simp only [hne, reduceCtorEq, if_false, ne_eq, hut, not_false_eq_true, true_and] at hgoto htree
      omega
  refine ⟨h.nodup.erase t, fun hc => h.boot ((hthreads _).1 hc).2,
    fun u hu u' hu' => h.pids u ((hthreads u).1 hu).2 u' ((hthreads u').1 hu').2, fun u v j hu => ?_,
    fun u v hu => ?_, (refs_goto (t := 0) h.holds).1, (refs_goto (t := 0) h.drops).1, fun u hu => ?_,
    fun u hu => ?_⟩
  · rw [goto_pc] at hu
    split_ifs at hu
    exact h.looks u v j hu
  · rw [goto_pc] at hu
    split_ifs at hu
    exact fun hc => h.registers u v hu ((hthreads v).1 hc).2
  · rw [howners]
    exact h.count u hu
  · rw [howners]
    exact h.unused u hu

end

end Threads

end Kernel64
