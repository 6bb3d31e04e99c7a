import Kernel64.Lib.Prog
import Mathlib.Data.Int.Notation
import Mathlib.Data.List.Basic

/-!
# Threads and locks (`threads.c`, `scheduler.c`, `locking.c`)

There is one processor. A part of the code that runs with interrupts disabled is one step, and between
two steps interrupts are enabled, so that the timer may switch to another thread there. Where each
thread is in its code is part of the state (`Pc`): the calls of a thread are the steps from one such
place to the next.

A wait head is on the stack of the thread that waits, and a wait queue is given by the threads of its
wait heads. A wait head is gone once its thread has left the call: using it after that is a fault.

The stacks, the address spaces and the time slices of the threads are left out.
-/

namespace Kernel64

namespace Threads

/-- A `struct thread`, by its address. -/
abbrev Tid : Type := ℕ

/-- The thread that boots the kernel and then idles. -/
def bootstrap : Tid := 0

/-- `enum thread_state` -/
inductive ThreadState where
  | none
  | active
  | blocked
  | finished
  | dead
  | reaped
  deriving DecidableEq

/-- A wait queue: the one of a mutex, the one of a condition, or one of its own. -/
inductive Queue where
  | mutex (m : ℕ)
  | event (q : ℕ)
  | cond (c : ℕ)
  deriving DecidableEq

/-- A use of `WAIT_EVENT`: on a queue of its own, in `mutex_lock`, or in the `mutex_lock` at the end of
`condition_wait`. -/
inductive Wait where
  | event (q : ℕ)
  | mutex (m : ℕ)
  | relock (c : ℕ)
  deriving DecidableEq

/-- Where a thread is in its code, with the locals it has there. -/
inductive Pc where
  /-- before `thread_entry` -/
  | newborn
  /-- in its own code, outside of the calls below -/
  | run
  /-- `WAIT_EVENT`, before its first test -/
  | enter (w : Wait)
  /-- `WAIT_EVENT`, queued and before `schedule` -/
  | sleep (w : Wait)
  /-- `WAIT_EVENT`, from `schedule` to the next test -/
  | retry (w : Wait)
  /-- `condition_wait`, queued and before `schedule` -/
  | condSleep (c : ℕ)
  /-- `condition_wait`, from `schedule` to `mutex_lock` -/
  | condWoken (c : ℕ)
  /-- `wait_queue_notify_all`, with the wait heads still to go -/
  | notify (c : ℕ) (l : List Tid)
  /-- `wait_queue_notify_all`, at the wait head of `t` -/
  | advance (c : ℕ) (t : Tid) (l : List Tid)
  /-- `__create_thread`, before `register_thread` -/
  | register (t : Tid)
  /-- `create_kthread`, before `lookup_thread`; `pid` is the one of `t` -/
  | lookup (t : Tid) (pid : ℤ)
  /-- `create_kthread`, before `activate_thread` -/
  | activate (t : Tid)
  /-- before the last `put_thread` of a call -/
  | put (t : Tid)
  /-- `__wait_thread`, before the test -/
  | waiting (t : Tid)
  /-- `__wait_thread`, before `schedule` -/
  | yielding (t : Tid)
  /-- `reap_thread`, at its beginning -/
  | reap (t : Tid)
  /-- `reap_thread`, before `rb_erase` -/
  | erase (t : Tid)
  /-- `reap_thread`, before `put_thread` -/
  | putReaped (t : Tid)
  /-- after `exit` -/
  | exited
  deriving DecidableEq

/-- The state of the kernel. -/
structure Kernel where
  state : Tid → ThreadState
  /-- `current_thread` -/
  current : Tid
  /-- `rr_active_list` -/
  active : List Tid
  queue : Queue → List Tid
  /-- whether a mutex is in `MUTEX_STATE_LOCKED` -/
  locked : ℕ → Bool
  /-- the threads given out by the slab cache -/
  used : Tid → Bool
  refcount : Tid → ℤ
  pid : Tid → ℤ
  nextPid : ℤ
  /-- the threads in the tree `threads` -/
  threads : List Tid
  pc : Tid → Pc
  /-- whether a thread is between a `mutex_lock` that returned and its `mutex_unlock` -/
  held : Tid → ℕ → Bool

/-- Code that runs in the kernel. -/
abbrev KernelM (α : Type) : Type := Prog Kernel α

namespace Kernel

/-- Set the state of a thread. -/
def setState (k : Kernel) (t : Tid) (st : ThreadState) : Kernel :=
  { k with state := Function.update k.state t st }

/-- The running thread goes on at another place. -/
def goto (k : Kernel) (p : Pc) : Kernel := { k with pc := Function.update k.pc k.current p }

/-- `list_add_tail` of the wait head of a thread. -/
def enqueue (k : Kernel) (q : Queue) (t : Tid) : Kernel :=
  { k with queue := Function.update k.queue q (k.queue q ++ [t]) }

/-- Set whether the running thread has a mutex. -/
def setHeld (k : Kernel) (m : ℕ) (b : Bool) : Kernel :=
  { k with held := Function.update k.held k.current (Function.update (k.held k.current) m b) }

end Kernel

/-- The running thread goes on at another place. -/
def goto (p : Pc) : KernelM Unit := modify fun k => k.goto p

/-! ### The scheduler -/

/-- `rr_next_thread` -/
def rrNextThread : KernelM (Option Tid) := do
  let k ← get
  match k.active with
  | [] => return none
  | t :: l => do
    set { k with active := l }
    return some t

/-- `rr_activate_thread` -/
def rrActivateThread (t : Tid) : KernelM Unit := do
  let k ← get
  if k.state t = .active then set { k with active := k.active ++ [t] }
  else throw .assertion

/-- `rr_preempt_thread` -/
def rrPreemptThread (t : Tid) : KernelM Unit := do
  let k ← get
  if k.state t = .active then set { k with active := k.active ++ [t] }

/-! ### Threads -/

/-- `preempt_thread` -/
def preemptThread (t : Tid) : KernelM Unit := do
  if t = bootstrap then return ()
  else rrPreemptThread t

/-- `place_thread` -/
def placeThread (t : Tid) : KernelM Unit := do
  let k ← get
  set { k with current := t }
  if k.state k.current = .finished then modify fun k' => k'.setState k.current .dead

/-- `switch_to`: after `switch_threads` the code goes on in the thread `next`, which places itself. -/
def switchTo (next : Tid) : KernelM Unit := do
  preemptThread (← get).current
  placeThread next

/-- `schedule` -/
def schedule : KernelM Unit := do
  let thread ← rrNextThread
  let k ← get
  if thread = some k.current then return ()
  else if k.state k.current = .active ∧ thread = none then return ()
  else switchTo (thread.getD bootstrap)

/-- `activate_thread` -/
def activateThread (t : Tid) : KernelM Unit := do
  if t = bootstrap then throw .assertion
  else if (← get).state t = .blocked then do
    modify fun k => k.setState t .active
    rrActivateThread t

/-- `alloc_thread`, with the thread that the slab cache gives. -/
def allocThread (t : Tid) : KernelM Unit := modify fun k =>
  { k with
    used := Function.update k.used t true
    state := Function.update k.state t .blocked
    refcount := Function.update k.refcount t 1
    pid := Function.update k.pid t (-1)
    pc := Function.update k.pc t .newborn
    held := Function.update k.held t fun _ => false }

/-- The loop of `register_thread`: the next number that no thread has. -/
def nextFreePid (pids : List ℤ) : ℕ → ℤ → Option ℤ
  | 0, _ => none
  | fuel + 1, p => if p ∈ pids then nextFreePid pids fuel (p + 1) else some p

/-- `register_thread` -/
def registerThread (t : Tid) : KernelM ℤ := do
  let k ← get
  match nextFreePid (k.threads.map k.pid) (k.threads.length + 1) k.nextPid with
  | none => throw .fuel
  | some p => do
    set { k with nextPid := p + 1, pid := Function.update k.pid t p, threads := t :: k.threads }
    return p

/-- `lookup_thread` -/
def lookupThread (pid : ℤ) : KernelM (Option Tid) := do
  let k ← get
  match k.threads.find? fun t => k.pid t = pid with
  | none => return none
  | some t => do
    set { k with refcount := Function.update k.refcount t (k.refcount t + 1) }
    return some t

/-- `put_thread`. The thread it releases is known to nobody else. -/
def putThread (t : Tid) : KernelM Unit := do
  let k ← get
  set { k with
    refcount := Function.update k.refcount t (k.refcount t - 1)
    used := if k.refcount t - 1 = 0 then Function.update k.used t false else k.used }

/-! ### Waiting -/

variable (mutexOf : ℕ → ℕ)

/-- The queue of a `WAIT_EVENT`; `mutexOf` is the mutex of each condition. -/
def Wait.queue : Wait → Queue
  | .event q => .event q
  | .mutex m => .mutex m
  | .relock c => .mutex (mutexOf c)

/-- The condition that a thread waits for in `condition_wait`. -/
def Pc.inCond : Pc → Option ℕ
  | .enter (.relock c) => some c
  | .sleep (.relock c) => some c
  | .retry (.relock c) => some c
  | .condSleep c => some c
  | .condWoken c => some c
  | _ => none

/-- The queue that a `WAIT_EVENT` or a `condition_wait` put the thread in last. -/
def Pc.waitsOn : Pc → Option Queue
  | .sleep w => some (w.queue mutexOf)
  | .retry w => some (w.queue mutexOf)
  | .condSleep c => some (.cond c)
  | .condWoken c => some (.cond c)
  | _ => none

/-- `__wait_queue_notify` -/
def waitQueueNotify (q : Queue) : KernelM Unit := do
  let k ← get
  match k.queue q with
  | [] => return ()
  | t :: l =>
    if (k.pc t).waitsOn mutexOf = some q then do
      set { k with queue := Function.update k.queue q l }
      activateThread t
    else throw .dangling

/-- `__mutex_try_lock` -/
def mutexTryLock (m : ℕ) : KernelM Bool := do
  let k ← get
  if k.locked m = false then do
    set ({ k with locked := Function.update k.locked m true }.setHeld m true)
    return true
  else return false

/-- `mutex_unlock` -/
def mutexUnlock (m : ℕ) : KernelM Unit := do
  modify fun k => { k with locked := Function.update k.locked m false }.setHeld m false
  waitQueueNotify mutexOf (.mutex m)

/-- The condition of a `WAIT_EVENT`; outside of `mutex_lock` it may be anything. -/
def Wait.test (b : Bool) : Wait → KernelM Bool
  | .event _ => return b
  | .mutex m => mutexTryLock m
  | .relock c => mutexTryLock (mutexOf c)

/-- One turn of `WAIT_EVENT`, up to `schedule`. -/
def waitEvent (w : Wait) (b : Bool) : KernelM Unit := do
  if ← w.test mutexOf b then goto .run
  else modify fun k => ((k.setState k.current .blocked).enqueue (w.queue mutexOf) k.current).goto (.sleep w)

/-- `condition_wait`, up to `schedule`. -/
def conditionWait (c : ℕ) : KernelM Unit := do
  modify fun k => ((k.setState k.current .blocked).enqueue (.cond c) k.current).goto (.condSleep c)
  mutexUnlock mutexOf (mutexOf c)

/-! ### Steps -/

/-- What a thread may call. -/
inductive Call where
  | mutexLock (m : ℕ)
  | mutexUnlock (m : ℕ)
  /-- `WAIT_EVENT` -/
  | waitEvent (q : ℕ)
  | conditionWait (c : ℕ)
  /-- `wait_queue_notify`, and `condition_notify` -/
  | waitQueueNotify (q : Queue)
  | conditionNotifyAll (c : ℕ)
  | schedule
  | exit
  /-- `create_kthread` and `fork`; `t` is what the slab cache gives -/
  | createThread (t : Option Tid)
  | wait (pid : ℤ)
  /-- `lookup_thread`, and `put_thread` once the thread is not needed any more -/
  | lookup (pid : ℤ)

/-- The first step of a call. -/
def start : Call → KernelM Unit
  | .mutexLock m => goto (.enter (.mutex m))
  | .mutexUnlock m => mutexUnlock mutexOf m
  | .waitEvent q => goto (.enter (.event q))
  | .conditionWait c => conditionWait mutexOf c
  | .waitQueueNotify q => waitQueueNotify mutexOf q
  | .conditionNotifyAll c => do
    let k ← get
    set { k with queue := Function.update k.queue (.cond c) [] }
    goto (.notify c (k.queue (.cond c)))
  | .schedule => schedule
  | .exit => do
    modify fun k => (k.setState k.current .finished).goto .exited
    schedule
  | .createThread none => return ()
  | .createThread (some t) => do
    let k ← get
    if k.used t = false ∧ t ≠ bootstrap then do
      allocThread t
      goto (.register t)
  | .wait pid => do
    match ← lookupThread pid with
    | none => return ()
    | some t => goto (.waiting t)
  | .lookup pid => do
    match ← lookupThread pid with
    | none => return ()
    | some t => goto (.put t)

/-- The next step of a thread in a call. Here `b` is the condition of a `WAIT_EVENT`, or whether
`copy_mm` succeeds in `__fork`. -/
def resume (b : Bool) : Pc → KernelM Unit
  | .newborn => goto .run
  | .run => return ()
  | .enter w => waitEvent mutexOf w b
  | .sleep w => do
    goto (.retry w)
    schedule
  | .retry w => waitEvent mutexOf w b
  | .condSleep c => do
    goto (.condWoken c)
    schedule
  | .condWoken c => goto (.enter (.relock c))
  | .notify _ [] => goto .run
  | .notify c (t :: l) => do
    if ((← get).pc t).inCond = some c then do
      activateThread t
      goto (.advance c t l)
    else throw .dangling
  | .advance c t l => do
    if ((← get).pc t).inCond = some c then goto (.notify c l)
    else throw .dangling
  | .register t => do
    if b then do
      let pid ← registerThread t
      goto (.lookup t pid)
    else goto (.put t)
  | .lookup _ pid => do
    match ← lookupThread pid with
    | none => throw .assertion
    | some t => goto (.activate t)
  | .activate t => do
    activateThread t
    goto (.put t)
  | .put t => do
    putThread t
    goto .run
  | .waiting t => do
    if (← get).state t = .dead then goto (.reap t)
    else goto (.yielding t)
  | .yielding t => do
    goto (.waiting t)
    schedule
  | .reap t => do
    let k ← get
    set (k.setState t .reaped)
    if k.state t = .reaped then goto (.put t)
    else goto (.erase t)
  | .erase t => do
    modify fun k => { k with threads := k.threads.erase t }
    goto (.putReaped t)
  | .putReaped t => do
    putThread t
    goto (.put t)
  | .exited => throw .assertion

/-- What happens next. -/
inductive Act where
  /-- the timer interrupts, and the time of the running thread is up -/
  | timer
  /-- the running thread calls something -/
  | call (c : Call)
  /-- the running thread goes on with its call -/
  | go (b : Bool)

/-- A step of the kernel. -/
def perform : Act → KernelM Unit
  | .timer => schedule
  | .call c => start mutexOf c
  | .go b => do resume mutexOf b ((← get).pc (← get).current)

end Threads

end Kernel64
