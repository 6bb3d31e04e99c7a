import Kernel64.Threads.Frame

/-!
# The queue of block I/O requests (`ide.c`)

The threads run the code of the driver over the kernel of `Threads`: a thread that is in a call of
`locking.c` goes on as the kernel says, and one that is not makes the next step of the driver's code.
Between two steps interrupts are enabled, so that the timer may switch to another thread there. The list
of requests and the status of a request are used only between a `mutex_lock` and its `mutex_unlock`, and
an operation on them is one step.

A `struct bio` that was freed and allocated again is another one here. The ports of the disk are left
out: whether a transfer succeeds may be anything. Nothing ever sets `done`.
-/

namespace Kernel64

namespace Ide

open Threads

/-- A `struct bio`, from its allocation on. -/
abbrev Bio : Type := ℕ

/-- `enum bio_status` -/
inductive BioStatus where
  | none
  | finished
  | failed
  deriving DecidableEq

/-- `ide_bio_queue_mutex`, and `ide_bio_queue_condition` -/
def queueLock : ℕ := 0

/-- The mutex and the condition of a request. -/
def bioLock (b : Bio) : ℕ := 2 * b + 1

/-- A mutex or a condition that is not one of the driver. -/
def IsForeign (m : ℕ) : Prop := m ≠ queueLock ∧ ∀ b, m ≠ bioLock b

/-- Each condition goes with the mutex of the same number. -/
abbrev mutexOf : ℕ → ℕ := fun c => c

/-- A place in `bio_submit`, after its `mutex_lock`. -/
inductive SubmitAt where
  | add
  | notify
  | unlock
  deriving DecidableEq

/-- A place in `bio_wait`, after its `mutex_lock`. -/
inductive WaitAt where
  | test
  | sleep
  | unlock
  deriving DecidableEq

/-- A place in `dequeue_bio`. -/
inductive DequeueAt where
  | lock
  | test
  | sleep
  | first
  | unlock (bio : Option Bio)
  deriving DecidableEq

/-- A place in `finish_bio`. -/
inductive FinishAt where
  | lock
  | set
  | notify
  | unlock
  deriving DecidableEq

/-- What a thread does next in the driver, once it is in no call of `locking.c`. -/
inductive Task where
  /-- outside of the driver -/
  | idle
  | submit (b : Bio) (p : SubmitAt)
  | wait (b : Bio) (p : WaitAt)
  | dequeue (p : DequeueAt)
  | handle (b : Bio)
  | finish (b : Bio) (status : BioStatus) (p : FinishAt)
  deriving DecidableEq

/-- The state of the driver, and what has happened to the requests. -/
structure State where
  kernel : Kernel
  task : Tid → Task
  /-- `ide_bio_queue` -/
  bioQueue : List Bio
  status : Bio → BioStatus
  /-- `map.length` -/
  length : Bio → ℤ
  /-- the requests given to `bio_submit` -/
  begun : Bio → Bool
  /-- the requests that were added to the queue, in this order -/
  submitted : List Bio
  /-- the requests that were taken from the queue, in this order -/
  dequeued : List Bio
  /-- the requests for which a `bio_wait` has returned -/
  returned : Bio → Bool

/-- Code of the driver. -/
abbrev IdeM (α : Type) : Type := Prog State α

/-- The running thread goes on in the driver. -/
def State.goto (s : State) (p : Task) : State :=
  { s with task := Function.update s.task s.kernel.current p }

/-- The running thread goes on in the driver. -/
def goto (p : Task) : IdeM Unit := modify fun s => s.goto p

/-- A step of the kernel. -/
def act (a : Act) : IdeM Unit := do
  let s ← get
  match perform mutexOf a s.kernel with
  | .ok (_, k) => set { s with kernel := k }
  | .error e => throw e

/-- The running thread calls `locking.c`, and goes on at `p` after that. -/
def call (c : Call) (p : Task) : IdeM Unit := do
  goto p
  act (.call c)

/-- `bio_submit`, after its `mutex_lock` -/
def bioSubmit (b : Bio) : SubmitAt → IdeM Unit
  | .add => do
    modify fun s => { s with
      bioQueue := s.bioQueue ++ [b]
      submitted := s.submitted ++ [b] }
    goto (.submit b .notify)
  | .notify => call (.waitQueueNotify (.cond queueLock)) (.submit b .unlock)
  | .unlock => call (.mutexUnlock queueLock) .idle

/-- `bio_wait`, after its `mutex_lock` -/
def bioWait (b : Bio) : WaitAt → IdeM Unit
  | .test => do
    if (← get).status b = .none then goto (.wait b .sleep)
    else goto (.wait b .unlock)
  | .sleep => call (.conditionWait (bioLock b)) (.wait b .test)
  | .unlock => do
    modify fun s => { s with returned := Function.update s.returned b true }
    call (.mutexUnlock (bioLock b)) .idle

/-- `dequeue_bio`, and the loop of `process_bio_queue` -/
def dequeueBio : DequeueAt → IdeM Unit
  | .lock => call (.mutexLock queueLock) (.dequeue .test)
  | .test => do
    if (← get).bioQueue = [] then goto (.dequeue .sleep)
    else goto (.dequeue .first)
  | .sleep => call (.conditionWait queueLock) (.dequeue .test)
  | .first => do
    match (← get).bioQueue with
    | [] => goto (.dequeue (.unlock none))
    | b :: l => do
      modify fun s => { s with
        bioQueue := l
        dequeued := s.dequeued ++ [b] }
      goto (.dequeue (.unlock (some b)))
  | .unlock none => call (.mutexUnlock queueLock) (.dequeue .lock)
  | .unlock (some b) => call (.mutexUnlock queueLock) (.handle b)

/-- `handle_bio`, where `ok` says whether the transfer succeeds. -/
def handleBio (ok : Bool) (b : Bio) : IdeM Unit := do
  if (← get).length b % 512 ≠ 0 then goto (.finish b .failed .lock)
  else if ok then goto (.finish b .finished .lock)
  else goto (.finish b .failed .lock)

/-- `finish_bio`, which goes back to the loop of `process_bio_queue`. -/
def finishBio (b : Bio) (status : BioStatus) : FinishAt → IdeM Unit
  | .lock => call (.mutexLock (bioLock b)) (.finish b status .set)
  | .set => do
    modify fun s => { s with status := Function.update s.status b status }
    goto (.finish b status .notify)
  | .notify => call (.conditionNotifyAll (bioLock b)) (.finish b status .unlock)
  | .unlock => call (.mutexUnlock (bioLock b)) (.dequeue .lock)

/-- The next step in the driver. -/
def next (ok : Bool) : Task → IdeM Unit
  | .idle => return ()
  | .submit b p => bioSubmit b p
  | .wait b p => bioWait b p
  | .dequeue p => dequeueBio p
  | .handle b => handleBio ok b
  | .finish b status p => finishBio b status p

/-- What happens next. -/
inductive Move where
  /-- the timer interrupts -/
  | timer
  /-- the running thread goes on with a call of the kernel -/
  | go (b : Bool)
  /-- the running thread calls something outside of the driver -/
  | other (c : Call)
  /-- the running thread calls `bio_submit` -/
  | submit (b : Bio)
  /-- the running thread calls `bio_wait` -/
  | wait (b : Bio)
  /-- the running thread goes on in the driver -/
  | next (ok : Bool)

/-- A step of the system. -/
def move : Move → IdeM Unit
  | .timer => act .timer
  | .go b => act (.go b)
  | .other c => act (.call c)
  | .submit b => do
    modify fun s => { s with begun := Function.update s.begun b true }
    call (.mutexLock queueLock) (.submit b .add)
  | .wait b => call (.mutexLock (bioLock b)) (.wait b .test)
  | .next ok => do next ok ((← get).task (← get).kernel.current)

/-- A call that names no lock of the driver. -/
def Outside : Call → Prop
  | .mutexLock m => IsForeign m
  | .mutexUnlock m => IsForeign m
  | .conditionWait c => IsForeign c
  | .waitQueueNotify (.mutex m) => IsForeign m
  | .waitQueueNotify (.cond c) => IsForeign c
  | .conditionNotifyAll c => IsForeign c
  | _ => True

/-- The running thread is in its own code. -/
def State.AtRest (s : State) : Prop :=
  s.kernel.pc s.kernel.current = .run ∧ s.task s.kernel.current = .idle

/-- When a step is allowed: a thread makes its calls from its own code, `bootstrap` does not block, the
locks of the driver are left to the driver, and a request is submitted once. -/
def Move.Allowed (s : State) : Move → Prop
  | .timer => True
  | .go _ => s.kernel.pc s.kernel.current ≠ .run
  | .other c => s.AtRest ∧ Outside c ∧ (Act.call c).Disciplined mutexOf s.kernel
  | .submit b => s.AtRest ∧ s.kernel.current ≠ bootstrap ∧ s.begun b = false
  | .wait _ => s.AtRest ∧ s.kernel.current ≠ bootstrap
  | .next _ => s.kernel.pc s.kernel.current = .run ∧ s.task s.kernel.current ≠ .idle

/-- The system when nothing has happened yet. The thread `worker` is the one that `setup_ide` is going to
create, with `process_bio_queue` for its code. -/
def booted (worker : Tid) (length : Bio → ℤ) : State where
  kernel := bootKernel
  task t := if t = worker then .dequeue .lock else .idle
  bioQueue := []
  status _ := .none
  length := length
  begun _ := false
  submitted := []
  dequeued := []
  returned _ := false

/-- **Runs of the driver**: any number of threads submit requests and wait for them, in any order. -/
inductive IdeRun (worker : Tid) : State → Prop
  | boot (length : Bio → ℤ) : IdeRun worker (booted worker length)
  | step {s s' : State} {mv : Move} : IdeRun worker s → mv.Allowed s → move mv s = .ok ((), s') →
      IdeRun worker s'

end Ide

end Kernel64
