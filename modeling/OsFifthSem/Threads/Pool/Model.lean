import Mathlib.Data.Int.Notation
import Mathlib.Data.List.Basic

/-!
# The thread pool

The slots of `thread_pool.c`, as the proxy and lab 1.8 have it, and the
functions that read or write them.  All of them run under the mutex of the
pool.

`create_thread` marks the slot of the thread it starts as free.
-/

namespace OsFifthSem
namespace Threads
namespace Pool

/-- `thread_state_t`. -/
inductive ThreadState
  | free
  | joinedByDeamon
  | joinedByUser
  | detached
  deriving DecidableEq, Repr

/-- `thread_info_t`, as far as it is used.  There is no `thread` in a slot that
was never written. -/
structure ThreadInfo where
  thread : Option ℕ
  state : ThreadState
  deriving DecidableEq, Repr

/-- `CAPACITY`. -/
def capacity : ℕ := 10

/-- `REALLOC_MAGIC`. -/
def reallocMagic : ℕ := 2

/-- A slot that `create_thread_pool` or `add_thread` has just made. -/
def freeSlot : ThreadInfo := ⟨none, .free⟩

/-- The slots after `create_thread_pool`. -/
def createThreadPool : List ThreadInfo := List.replicate capacity freeSlot

/-! ## Adding a thread -/

/-- `create_thread`, when `pthread_create` has started `thread`. -/
def createThread (thread : ℕ) (info : ThreadInfo) : ThreadInfo :=
  { info with thread := some thread, state := .free }

/-- `add_thread`, when `realloc` succeeds and `pthread_create` has started
`thread`: the index it returns, and the slots. -/
def addThread (threads : List ThreadInfo) (thread : ℕ) :
    ℕ × List ThreadInfo :=
  match threads.findIdx? fun info => info.state = .free with
  | some i => (i, threads.modify i (createThread thread))
  | none =>
      let count := reallocMagic * threads.length
      let threads :=
        threads ++ List.replicate (count - threads.length) freeSlot
      (count / reallocMagic,
        threads.modify (count / reallocMagic) (createThread thread))

/-! ## The daemon -/

/-- What `pthread_tryjoin_np` returns: 0, `EBUSY` or another error. -/
inductive TryJoin
  | joined
  | busy
  | failed
  deriving DecidableEq, Repr

/-- `is_thread_running`. -/
def isThreadRunning : TryJoin → ℤ
  | .joined => 0
  | .busy => 1
  | .failed => -1

/-- One turn of the loop of `deamon_routine` over the slots; there is no result
when the process exits. -/
def sweepSlot (info : ThreadInfo) (result : TryJoin) : Option ThreadInfo :=
  if info.state = .free then some info
  else if isThreadRunning result < 0 then none
  else if isThreadRunning result = 0 then some { info with state := .free }
  else some info

/-! ## The end of the pool -/

/-- The threads that the loop of `destroy_thread_pool` cancels. -/
def cancelled (threads : List ThreadInfo) : List (Option ℕ) :=
  (threads.filter fun info => info.state ≠ .free).map ThreadInfo.thread

/-- The slot at `i` records the thread. -/
def Records (threads : List ThreadInfo) (i thread : ℕ) : Prop :=
  ∃ info, threads[i]? = some info ∧ info.thread = some thread ∧
    info.state ≠ .free

end Pool
end Threads
end OsFifthSem
