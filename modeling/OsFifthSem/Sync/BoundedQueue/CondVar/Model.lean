import OsFifthSem.Support.Transition
import OsFifthSem.Sync.BoundedQueue.Queue

/-!
# The queue with condition variables

`2.2f.c`: `queue_add` waits on `not_full` while the queue is full and signals
`not_empty`; `queue_get` waits on `not_empty` while it is empty and signals
`not_full`.  Any thread may call either function or `queue_print_stats`, any
number of times.

`pthread_cond_wait` releases the mutex and blocks in one step, and may return
without a signal.  `pthread_cond_signal` wakes one blocked thread of the
scheduler's choice, and nobody exactly when nobody is blocked.  A woken thread
has to take the mutex again, in competition with every other thread.

The condition variable on which a call waits is named by what the call needs,
the one it signals by what it gives.
-/

namespace OsFifthSem
namespace BoundedQueue
namespace CondVar

open Support

universe u

/-- The next step of a call. -/
inductive Phase
  | lock
  | test
  /-- `pthread_cond_wait` is called. -/
  | wait
  /-- Blocked in `pthread_cond_wait`. -/
  | blocked
  /-- Woken, by a signal or not, and in need of the mutex. -/
  | woken (signalled : Bool)
  | attempt
  | link
  | count
  | signal
  | unlock
  deriving DecidableEq, Repr

/-- Where a thread is. -/
inductive Pc
  | idle
  | inCall (c : Call) (p : Phase)
  /-- `queue_print_stats`. -/
  | printLock
  | printUnlock
  | assertFailed
  | fault
  deriving DecidableEq, Repr

/-- The queue, the owner of its mutex and the threads. -/
structure State (T : Type u) where
  q : Queue
  owner : Option T
  pc : T → Pc

/-- One scheduling choice. -/
inductive Action (T : Type u)
  | call (t : T) (c : Call)
  | print (t : T)
  /-- The thread takes its next step. -/
  | advance (t : T)
  /-- The thread issues `pthread_cond_signal`, which wakes `woken`. -/
  | signal (t : T) (woken : Option T)
  /-- `pthread_cond_wait` returns without a signal. -/
  | spurious (t : T)

/-- The condition of the `while` loop around `pthread_cond_wait`. -/
def mustWait : Call → Queue → Bool
  | .add _, q => q.count = q.maxCount
  | .get, q => q.count = 0

/-- The thread is blocked, un-signalled, on the condition variable of the
resource. -/
def Pc.blockedOn (r : Resource) : Pc → Bool
  | .inCall c .blocked => c.needs = r
  | _ => false

variable {T : Type u} [DecidableEq T]

/-- Go on at `pc` with the given queue and owner of the mutex. -/
def State.goto (s : State T) (t : T) (q : Queue) (owner : Option T) (pc : Pc) :
    State T where
  q := q
  owner := owner
  pc := Function.update s.pc t pc

@[simp] theorem State.goto_q
    (s : State T) (t : T) (q : Queue) (o : Option T) (pc : Pc) :
    (s.goto t q o pc).q = q := rfl

@[simp] theorem State.goto_pc_self
    (s : State T) (t : T) (q : Queue) (o : Option T) (pc : Pc) :
    (s.goto t q o pc).pc t = pc :=
  Function.update_self ..

theorem State.goto_pc_of_ne
    {t u : T} (hut : u ≠ t) (s : State T) (q : Queue) (o : Option T) (pc : Pc) :
    (s.goto t q o pc).pc u = s.pc u :=
  Function.update_of_ne hut _ _

/-- The next step of thread `t`. -/
def advance (s : State T) (t : T) : Option (State T) :=
  match s.pc t with
  | .idle | .assertFailed | .fault => none
  | .inCall c .lock | .inCall c (.woken _) =>
      if s.owner = none then some (s.goto t s.q (some t) (.inCall c .test))
      else none
  | .inCall c .test =>
      some (s.goto t s.q s.owner
        (.inCall c (if mustWait c s.q then .wait else .attempt)))
  | .inCall c .wait => some (s.goto t s.q none (.inCall c .blocked))
  | .inCall _ .blocked | .inCall _ .signal => none
  | .inCall c .attempt =>
      match c.operation.attempt s.q with
      | none => some (s.goto t s.q s.owner .assertFailed)
      | some q => some (s.goto t q s.owner (.inCall c .link))
  | .inCall c .link =>
      match c.operation.link s.q with
      | none => some (s.goto t s.q s.owner .fault)
      | some q => some (s.goto t q s.owner (.inCall c .count))
  | .inCall c .count =>
      some (s.goto t (c.operation.count s.q) s.owner (.inCall c .signal))
  | .inCall _ .unlock => some (s.goto t s.q none .idle)
  | .printLock =>
      if s.owner = none then some (s.goto t s.q (some t) .printUnlock) else none
  | .printUnlock => some (s.goto t s.q none .idle)

/-- One step of the system. -/
def step [Fintype T] (s : State T) : Action T → Option (State T)
  | .call t c =>
      if s.pc t = .idle then some (s.goto t s.q s.owner (.inCall c .lock))
      else none
  | .print t =>
      if s.pc t = .idle then some (s.goto t s.q s.owner .printLock) else none
  | .advance t => advance s t
  | .signal t none =>
      match s.pc t with
      | .inCall c .signal =>
          if ∀ u, (s.pc u).blockedOn c.gives = false
          then some (s.goto t s.q s.owner (.inCall c .unlock))
          else none
      | _ => none
  | .signal t (some u) =>
      match s.pc t, s.pc u with
      | .inCall c .signal, .inCall d .blocked =>
          if d.needs = c.gives then
            some ((s.goto u s.q s.owner (.inCall d (.woken true))).goto t
              s.q s.owner (.inCall c .unlock))
          else none
      | _, _ => none
  | .spurious t =>
      match s.pc t with
      | .inCall c .blocked =>
          some (s.goto t s.q s.owner (.inCall c (.woken false)))
      | _ => none

/-- `queue_init`, with every thread outside the functions. -/
def start (T : Type u) (maxCount : ℤ) : State T where
  q := queueInit maxCount
  owner := none
  pc := fun _ => .idle

/-- Any number of threads that use one queue. -/
def queueSystem (T : Type u) [DecidableEq T] [Fintype T] (maxCount : ℤ) :
    TransitionSystem (State T) (Action T) where
  Initial := fun s => s = start T maxCount
  step := step

end CondVar
end BoundedQueue
end OsFifthSem
