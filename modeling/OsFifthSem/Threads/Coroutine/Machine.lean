import OsFifthSem.Support.RoundRobin
import OsFifthSem.Threads.Coroutine.Containers

/-!
# Coroutines on one scheduler

The machine executes `coroutine.c` on one thread.  `swapcontext` stores where
the running code goes on in one context and goes on where another context says;
a context belongs to the structure it is stored in, and need not be one of the
code that the structure stands for.  A context whose stack has been freed
cannot be resumed.  `scheduler_routine` and `finish` free the stack they run on
one statement before they leave it; what they do in between is modelled as if
the freed memory were still theirs.

The routine of a coroutine is a sequence of segments separated by calls of
`yeild`, and each segment calls `create_coroutine` for the routines it lists.
No routine is null.  `trace` is a history variable.
-/

namespace OsFifthSem
namespace Coroutine

open Support

universe u

/-- What the routines do. -/
structure Routines (R : Type u) where
  /-- The number of calls of `yeild`. -/
  yeilds : R → ℕ
  /-- The coroutines that a segment creates, in order. -/
  creates : R → ℕ → List R

/-- Where a saved context goes on. -/
inductive ResumePoint
  /-- `scheduler_routine`, from its start. -/
  | schedulerRoutine
  /-- `scheduler_routine`, behind the switch to a coroutine. -/
  | schedulerLoop
  /-- `scheduler_routine`, behind the switch to `main_ctx`. -/
  | schedulerIdle
  /-- `coroutine_wrapper`, from its start. -/
  | coroutineWrapper (coro : ℕ)
  /-- `yeild`, called by the routine of `coro` behind segment `k`. -/
  | yeild (coro : ℕ) (k : ℕ)
  /-- `finish`. -/
  | finish (coro : ℕ)
  /-- `run_scheduler`. -/
  | runScheduler
  deriving DecidableEq, Repr

/-- `coroutine_t`. -/
structure Coro (R : Type u) where
  userRoutine : R
  context : ResumePoint
  /-- The stack of the context is allocated. -/
  stack : Bool

/-- The code that runs next. -/
inductive Control (R : Type u)
  /-- `run_scheduler` is called. -/
  | runScheduler
  /-- The head of the loop of `scheduler_routine`. -/
  | schedulerRoutine
  /-- `scheduler_routine` has taken a coroutine from the queue. -/
  | switchTo (coro : ℕ)
  /-- `scheduler_routine` has found the queue empty. -/
  | noCoroutine
  /-- `scheduler_routine` has freed the stack it runs on, and switches to
  `main_ctx`. -/
  | stackFreed
  | coroutineWrapper (coro : ℕ)
  /-- Segment `k` of the routine begins. -/
  | userRoutine (coro : ℕ) (k : ℕ)
  /-- Inside segment `k`, with these coroutines still to create. -/
  | segment (coro : ℕ) (k : ℕ) (todo : List R)
  /-- The routine calls `yeild` behind segment `k`. -/
  | yeild (coro : ℕ) (k : ℕ)
  /-- `finish`, called by `coroutine_wrapper`. -/
  | finish (coro : ℕ)
  /-- `finish` has freed the stack it runs on, and switches to the scheduler. -/
  | finishFreed (coro : ℕ)
  /-- `run_scheduler` has returned. -/
  | returned
  /-- A null pointer was followed, a freed stack resumed or freed again, or the
  thread ended. -/
  | fault

/-- The scheduler, its coroutines and the map of the thread. -/
structure Machine (R : Type u) where
  coros : List (Coro R)
  queue : CoroQueue
  map : CoroMap
  /-- The context of the scheduler. -/
  context : ResumePoint
  stack : Bool
  isDone : Bool
  mainCtx : Option ResumePoint
  control : Control R
  /-- The segments run so far. -/
  trace : List (ℕ × ℕ)

variable {R : Type u}

namespace Machine

/-- `create_coroutine`. -/
def createCoroutine (m : Machine R) (routine : R) : Option (Machine R) :=
  (m.queue.push m.coros.length).map fun queue =>
    { m with
      coros := m.coros ++ [⟨routine, .coroutineWrapper m.coros.length, true⟩]
      queue := queue }

/-- The code at which a context goes on. -/
def resume : ResumePoint → Control R
  | .schedulerRoutine | .schedulerLoop => .schedulerRoutine
  -- the loop goes on with the null pointer in `coro`
  | .schedulerIdle => .fault
  | .coroutineWrapper coro => .coroutineWrapper coro
  | .yeild coro k => .userRoutine coro (k + 1)
  -- `coroutine_wrapper` returns on the freed stack
  | .finish _ => .fault
  | .runScheduler => .returned

/-- The code at which the context of the scheduler goes on. -/
def toScheduler (m : Machine R) : Control R :=
  if m.stack then resume m.context else .fault

def faulty (m : Machine R) : Machine R := { m with control := .fault }

/-- One step of the thread with id `tid`. -/
def step (code : Routines R) (tid : ℕ) (m : Machine R) : Machine R :=
  match m.control with
  | .runScheduler =>
      { m with mainCtx := some .runScheduler, control := m.toScheduler }
  | .schedulerRoutine =>
      -- a scheduler that is done returns, which ends the thread
      if m.isDone then m.faulty
      else
        match m.queue.pop with
        | none => m.faulty
        | some (none, queue) => { m with queue := queue, control := .noCoroutine }
        | some (some coro, queue) =>
            { m with queue := queue, control := .switchTo coro }
  | .switchTo coro =>
      match m.coros[coro]? with
      | none => m.faulty
      | some co =>
          { m with
            map := m.map.add tid coro
            context := .schedulerLoop
            control := if co.stack then resume co.context else .fault }
  | .noCoroutine =>
      if m.stack then { m with stack := false, control := .stackFreed }
      else m.faulty
  | .stackFreed =>
      match m.mainCtx with
      | none => m.faulty
      | some point =>
          { m with context := .schedulerIdle, control := resume point }
  | .coroutineWrapper coro => { m with control := .userRoutine coro 0 }
  | .userRoutine coro k =>
      match m.coros[coro]? with
      | none => m.faulty
      | some co =>
          { m with
            trace := m.trace ++ [(coro, k)]
            control := .segment coro k (code.creates co.userRoutine k) }
  | .segment coro k (routine :: todo) =>
      match m.createCoroutine routine with
      | none => m.faulty
      | some m' => { m' with control := .segment coro k todo }
  | .segment coro k [] =>
      match m.coros[coro]? with
      | none => m.faulty
      | some co =>
          { m with
            control := if k < code.yeilds co.userRoutine then .yeild coro k
              else .finish coro }
  | .yeild coro k =>
      -- `cur_coro = coro_map_get(&cur_coro_map, gettid())`
      match m.map.get tid with
      | none => m.faulty
      | some cur =>
          match m.queue.push cur, m.coros[cur]? with
          | some queue, some co =>
              { m with
                queue := queue
                coros := m.coros.set cur { co with context := .yeild coro k }
                control := m.toScheduler }
          | _, _ => m.faulty
  | .finish coro =>
      match m.coros[coro]? with
      | none => m.faulty
      | some co =>
          if co.stack then
            { m with
              coros := m.coros.set coro { co with stack := false }
              control := .finishFreed coro }
          else m.faulty
  | .finishFreed coro =>
      match m.coros[coro]? with
      | none => m.faulty
      | some co =>
          { m with
            coros := m.coros.set coro { co with context := .finish coro }
            control := m.toScheduler }
  | .returned | .fault => m

end Machine

/-- After `coro_init` and `create_scheduler`. -/
def createScheduler (map : CoroMap) : Machine R where
  coros := []
  queue := coroQueueInit
  map := map
  context := .schedulerRoutine
  stack := true
  isDone := false
  mainCtx := none
  control := .runScheduler
  trace := []

/-- `run_scheduler` is called after `create_coroutine` has been called for
these routines. -/
def start (map : CoroMap) (routines : List R) : Option (Machine R) :=
  routines.foldlM Machine.createCoroutine (createScheduler map)

/-- The machine after `n` steps. -/
def after (code : Routines R) (tid : ℕ) (m : Machine R) (n : ℕ) : Machine R :=
  (Machine.step code tid)^[n] m

/-- The segments of a coroutine that were run, in order. -/
def Machine.segmentsOf (m : Machine R) (coro : ℕ) : List ℕ :=
  (m.trace.filter fun x => x.1 = coro).map Prod.snd

/-- The coroutine has left its stack for good. -/
def Machine.Finished (m : Machine R) (coro : ℕ) : Prop :=
  ∃ co, m.coros[coro]? = some co ∧ co.context = .finish coro

/-- The coroutine that `scheduler_routine` has taken from the queue and that
has not begun its segment yet. -/
def Control.taken : Control R → List ℕ
  | .switchTo coro | .coroutineWrapper coro | .userRoutine coro _ => [coro]
  | _ => []

end Coroutine
end OsFifthSem
