import Mathlib.Data.Int.Notation
import OsFifthSem.Support.AtomicObject

/-!
# The lock that `mutex.h` and `spinlock.h` promise

Both libraries of `sync/2.4` have the same three functions with the same
answers.  The value of the lock is the thread that holds it.
-/

namespace OsFifthSem

open Support

/-- The functions of a lock. -/
inductive LockCall
  | lock
  | tryLock
  | unlock
  deriving DecidableEq, Repr

/-- `lock` waits until the lock is free and returns 0.  `tryLock` returns 1
when it takes the lock and 0 when somebody holds it.  `unlock` is for the
holder, and returns 0. -/
def lockObject (T : Type*) [DecidableEq T] :
    AtomicObject T LockCall ℤ (Option T) where
  initial := none
  apply
    | none, t, .lock => some (0, some t)
    | some _, _, .lock => none
    | none, t, .tryLock => some (1, some t)
    | some u, _, .tryLock => some (0, some u)
    | none, _, .unlock => none
    | some u, t, .unlock => if u = t then some (0, none) else none

variable {T : Type*} [DecidableEq T] (t u : T)

@[simp] theorem lockObject_initial : (lockObject T).initial = none := rfl

@[simp] theorem lockObject_lock :
    (lockObject T).apply none t .lock = some (0, some t) := rfl

@[simp] theorem lockObject_tryLock_free :
    (lockObject T).apply none t .tryLock = some (1, some t) := rfl

@[simp] theorem lockObject_tryLock_busy :
    (lockObject T).apply (some u) t .tryLock = some (0, some u) := rfl

@[simp] theorem lockObject_unlock :
    (lockObject T).apply (some t) t .unlock = some (0, none) := by
  simp [lockObject]

end OsFifthSem
