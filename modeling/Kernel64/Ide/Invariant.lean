import Kernel64.Ide.Model

/-!
# Where the threads are in the driver

What a thread does next in the driver says which call of `locking.c` it may be in and which mutex it has
(`Fits`). As a mutex has one owner, two threads are never between `mutex_lock` and `mutex_unlock` of the
same lock.
-/

namespace Kernel64

namespace Ide

open Threads

/-- A call of `locking.c` on no lock of the driver. -/
def UsesForeign : Use → Prop
  | .lock m => IsForeign m
  | .cond c => IsForeign c
  | .notify c => IsForeign c

namespace Task

/-- The mutex that a thread has. -/
def lock : Task → Option ℕ
  | .submit _ _ => some queueLock
  | .wait b _ => some (bioLock b)
  | .dequeue .lock => none
  | .dequeue _ => some queueLock
  | .finish _ _ .lock => none
  | .finish b _ _ => some (bioLock b)
  | _ => none

/-- The call of `locking.c` that a thread may be in before. -/
def MayUse : Task → Use → Prop
  | .idle, u => UsesForeign u
  | .submit _ .add, u => u = .lock queueLock
  | .wait b .test, u => u = .lock (bioLock b) ∨ u = .cond (bioLock b)
  | .dequeue .test, u => u = .lock queueLock ∨ u = .cond queueLock
  | .finish b _ .set, u => u = .lock (bioLock b)
  | .finish b _ .unlock, u => u = .notify (bioLock b)
  | _, _ => False

/-- Whether this is a place in `process_bio_queue`. -/
def works : Task → Bool
  | .dequeue _ => true
  | .handle _ => true
  | .finish _ _ _ => true
  | _ => false

/-- The request that `process_bio_queue` has taken from the queue and not finished. -/
def bio : Task → Option Bio
  | .dequeue (.unlock b) => b
  | .handle b => some b
  | .finish b _ _ => some b
  | _ => none

/-- The request whose status is still to be set. -/
def unset : Task → Option Bio
  | .dequeue (.unlock b) => b
  | .handle b => some b
  | .finish b _ .lock => some b
  | .finish b _ .set => some b
  | _ => none

end Task

/-- **A thread is where its task says**, with the mutexes it needs there. -/
structure Fits (p : Task) (pc : Pc) (held : ℕ → Bool) : Prop where
  uses : ∀ u, pc.use = some u → p.MayUse u
  holds : ∀ m, p.lock = some m → (pc = .run ∨ ∃ c, pc.use = some (.notify c)) → held m = true
  busy : p ≠ .idle → pc = .run ∨ pc.use ≠ none ∨ (p = .dequeue .lock ∧ pc = .newborn)

section

variable {k k' : Kernel} {a : Act} {t : Tid} {p : Task} {m : ℕ} {u : Use}

theorem Task.MayUse.lock (h : p.MayUse u) (hm : p.lock = some m) :
    u = .lock m ∨ u = .cond m ∨ u = .notify m := by
  cases p with
  | idle => exact nomatch hm
  | handle b => exact nomatch hm
  | submit b at' =>
    obtain rfl := Option.some.inj hm
    cases at' with
    | add => exact Or.inl h
    | notify => exact h.elim
    | unlock => exact h.elim
  | wait b at' =>
    obtain rfl := Option.some.inj hm
    cases at' with
    | test => exact h.elim Or.inl fun h => Or.inr (Or.inl h)
    | sleep => exact h.elim
    | unlock => exact h.elim
  | dequeue at' =>
    cases at' with
    | test =>
      obtain rfl := Option.some.inj hm
      exact h.elim Or.inl fun h => Or.inr (Or.inl h)
    | _ => exact h.elim
  | finish b st at' =>
    cases at' with
    | lock => exact nomatch hm
    | set =>
      obtain rfl := Option.some.inj hm
      exact Or.inl h
    | notify => exact h.elim
    | unlock =>
      obtain rfl := Option.some.inj hm
      exact Or.inr (Or.inr h)

/-- A thread that has not started yet is outside of the driver, or it is the worker. -/
theorem Fits.inert {pc : Pc} {held : ℕ → Bool} (h : Fits p pc held) (hpc : pc.Inert) :
    p = .idle ∨ p = .dequeue .lock := by
  by_cases hp : p = .idle
  · exact Or.inl hp
  · rcases h.busy hp with hrun | huse | ⟨hlock, -⟩
    · rcases hpc with hpc | hpc <;> exact nomatch hpc.symm.trans hrun
    · rcases hpc with hpc | hpc <;> rw [hpc] at huse <;> exact absurd rfl huse
    · exact Or.inr hlock

theorem fits_newborn {held : ℕ → Bool} (hp : p = .idle ∨ p = .dequeue .lock) : Fits p .newborn held := by
  refine ⟨fun u hu => (nomatch hu), fun m hm => ?_, fun hne => Or.inr (Or.inr ⟨hp.resolve_left hne, rfl⟩)⟩
  rcases hp with rfl | rfl <;> exact nomatch hm

/-- **The other threads** stay where they are. -/
theorem Fits.frame (h : Fits p (k.pc t) (k.held t)) (hk : KernelOk mutexOf k)
    (hf : Frame mutexOf k a k') (ht : t ≠ k.current) : Fits p (k'.pc t) (k'.held t) := by
  rcases hf.others t ht with ⟨hpc, hheld⟩ | ⟨hused, hb, hpc⟩
  · rw [hpc, hheld]
    exact h
  · rw [hpc]
    exact fits_newborn (h.inert (hk.unused hused hb).2)

/-- **The running thread** goes on in a call. -/
theorem Fits.onwards (h : Fits p (k.pc k.current) (k.held k.current)) (ho : Onwards mutexOf k k')
    (hne : k.pc k.current ≠ .run) : Fits p (k'.pc k.current) (k'.held k.current) := by
  cases huse : (k.pc k.current).use with
  | none =>
    obtain ⟨hnone, hheld, hnew⟩ := ho.outside huse
    by_cases hp : p = .idle
    · subst hp
      exact ⟨fun u hu => (nomatch hnone.symm.trans hu), fun m hm => (nomatch hm), fun hc => absurd rfl hc⟩
    · rcases h.busy hp with hrun | hu | ⟨rfl, hpc⟩
      · exact absurd hrun hne
      · exact absurd huse hu
      · exact ⟨fun u hu => (nomatch hnone.symm.trans hu), fun m hm => (nomatch hm), fun _ => Or.inl (hnew hpc)⟩
  | some u =>
    have hmay := h.uses u huse
    have hsome : (k.pc k.current).use ≠ none := by rw [huse]; exact nofun
    rcases ho.inUse hsome with ⟨hsame, hheld⟩ | ⟨hrun, hheld⟩
    · have hno : k'.pc k.current ≠ .run := fun hc => by
        rw [hc, huse] at hsame
        exact nomatch hsame
      refine ⟨fun u' hu' => h.uses u' (hsame ▸ hu'), fun m hm hpc => ?_, fun _ => Or.inr (Or.inl (hsame ▸ hsome))⟩
      rw [hheld]
      refine h.holds m hm (Or.inr ?_)
      rw [← hsame]
      exact hpc.resolve_left hno
    · refine ⟨fun u' hu' => ?_, fun m hm _ => ?_, fun _ => Or.inl hrun⟩
      · rw [hrun] at hu'
        exact nomatch hu'
      · rw [hheld, huse]
        rcases hmay.lock hm with rfl | rfl | rfl
        · exact Function.update_self _ _ _
        · exact Function.update_self _ _ _
        · exact h.holds m hm (Or.inr ⟨m, huse⟩)

/-- **The running thread** calls `locking.c`. -/
theorem fits_started {c : Call} (hs : Started mutexOf k c k') (huse : ∀ u, c.use = some u → p.MayUse u)
    (hhold : ∀ m, p.lock = some m → c.instant = true ∨ (∃ c', c.use = some (.notify c')) →
      c.lose mutexOf (k.held k.current) m = true)
    (hbusy : p ≠ .idle → c.instant = true ∨ c.use ≠ none) : Fits p (k'.pc k.current) (k'.held k.current) := by
  refine ⟨fun u hu => huse u (hs.use ▸ hu), fun m hm hpc => ?_, fun hp => ?_⟩
  · rw [hs.held]
    refine hhold m hm ?_
    rw [← hs.use]
    rcases hpc with hrun | hn
    · by_contra hc
      rw [not_or] at hc
      have hp : p ≠ .idle := fun hp => by
        rw [hp] at hm
        exact nomatch hm
      rcases hbusy hp with hi | hi
      · exact hc.1 hi
      · rw [← hs.use, hrun] at hi
        exact hi rfl
    · exact Or.inr hn
  · rcases hbusy hp with hi | hi
    · exact Or.inl (hs.instant hi)
    · exact Or.inr (Or.inl (hs.use ▸ hi))

end

end Ide

end Kernel64
