import Mathlib.Logic.Basic
import OsFifthSem.Threads.Pool.Model

/-!
# `add_thread` on its failing exits

The function with its mutex and its array, for any results of `realloc` and
`pthread_create`.  A failed `pthread_create` returns with the mutex, and a
failed `realloc` replaces the array by NULL; on an exit without a failure the
function is the `addThread` of the slots.
-/

namespace OsFifthSem
namespace Threads
namespace Pool

/-- `THREADS_REALLOC_ERR`. -/
def threadsReallocErr : ℤ := -3

/-- `thread_pool_t` without its daemon. -/
structure ThreadPool where
  /-- `none` for NULL. -/
  threads : Option (List ThreadInfo)
  threadCount : ℕ
  /-- Someone has the mutex. -/
  locked : Bool
  deriving DecidableEq, Repr

/-- The results of the calls that `add_thread` makes, and the thread that
`pthread_create` starts when it returns 0. -/
structure AddCalls where
  reallocOk : Bool
  pthreadCreate : ℤ
  thread : ℕ
  deriving DecidableEq, Repr

namespace ThreadPool

/-- The end of `add_thread`, which it has twice: `create_thread` in slot `i`,
and the unlocking behind it.  The array is `threads`. -/
def startThread
    (p : ThreadPool) (threads : List ThreadInfo) (i : ℕ) (calls : AddCalls) :
    ℤ × ThreadPool :=
  if calls.pthreadCreate ≠ 0 then
    (calls.pthreadCreate, { p with threads := some threads })
  else
    (i, { p with
      threads := some (threads.modify i (createThread calls.thread))
      locked := false })

/-- `add_thread`: what it returns and leaves behind.  There is no result when
it waits for the mutex, or when the array that it reads is NULL. -/
def addThread (p : ThreadPool) (calls : AddCalls) : Option (ℤ × ThreadPool) :=
  if p.locked then none
  else
    let p := { p with locked := true }
    p.threads.map fun threads =>
      match (threads.take p.threadCount).findIdx? fun info : ThreadInfo =>
          info.state = .free with
      | some i => p.startThread threads i calls
      | none =>
          if calls.reallocOk then
            let count := reallocMagic * p.threadCount
            let threads :=
              threads ++ List.replicate (count - p.threadCount) freeSlot
            { p with threadCount := count }.startThread
              threads (count / reallocMagic) calls
          else (threadsReallocErr, { p with threads := none, locked := false })

/-- The threads that `destroy_thread_pool` cancels.  There is no result when it
waits for the mutex, or when the array that it reads is NULL. -/
def destroyThreadPool (p : ThreadPool) : Option (List (Option ℕ)) :=
  if p.locked then none
  else p.threads.map fun threads => cancelled (threads.take p.threadCount)

/-- The mutex is free, and `threads` is an array of `thread_count` slots. -/
structure Valid (p : ThreadPool) (threads : List ThreadInfo) : Prop where
  unlocked : p.locked = false
  array : p.threads = some threads
  count : threads.length = p.threadCount

/-- Some slot is free. -/
def HasFree (threads : List ThreadInfo) : Prop :=
  ∃ info ∈ threads, info.state = .free

/-- `add_thread` takes one of its failing exits: `realloc` is called and
fails, or `pthread_create` does. -/
def Fails (threads : List ThreadInfo) (calls : AddCalls) : Prop :=
  (¬HasFree threads ∧ calls.reallocOk = false) ∨ calls.pthreadCreate ≠ 0

/-- What a failed call owes the next ones: the pool is valid again, and every
slot that records a thread is as it was before. -/
def FailsCleanly (threads : List ThreadInfo) (p' : ThreadPool) : Prop :=
  ∃ threads', p'.Valid threads' ∧
    ∀ (i : ℕ) (info : ThreadInfo), threads[i]? = some info →
      info.state ≠ .free → threads'[i]? = some info

/-- What every failing exit leaves behind: either the mutex is still taken, or
the array is gone. -/
def Abandoned (p : ThreadPool) : Prop :=
  p.locked = true ∨ p.threads = none

variable {p p' : ThreadPool} {threads : List ThreadInfo} {calls : AddCalls}

theorem Abandoned.not_failsCleanly (h : p'.Abandoned) :
    ¬FailsCleanly threads p' := by
  rintro ⟨threads', hvalid, -⟩
  rcases h with hlocked | hnull
  · exact absurd (hvalid.unlocked.symm.trans hlocked) (by decide)
  · exact absurd (hvalid.array.symm.trans hnull) (by simp)

/-- No later call comes to an end. -/
theorem Abandoned.addThread_eq_none (h : p.Abandoned) (calls : AddCalls) :
    p.addThread calls = none := by
  unfold addThread
  rcases h with hlocked | hnull
  · rw [if_pos hlocked]
  · simp [hnull]

theorem Abandoned.destroyThreadPool_eq_none (h : p.Abandoned) :
    p.destroyThreadPool = none := by
  unfold destroyThreadPool
  rcases h with hlocked | hnull
  · rw [if_pos hlocked]
  · simp [hnull]

theorem findIdx?_eq_none_iff_not_hasFree :
    (threads.findIdx? fun info : ThreadInfo => info.state = .free) = none ↔
      ¬HasFree threads := by
  simp [List.findIdx?_eq_none_iff, HasFree]

/-- `add_thread` on a valid pool, by its three stages. -/
theorem Valid.addThread_eq (hp : p.Valid threads) (calls : AddCalls) :
    p.addThread calls = some
      (match threads.findIdx? fun info : ThreadInfo => info.state = .free with
      | some i => { p with locked := true }.startThread threads i calls
      | none =>
          if calls.reallocOk then
            let count := reallocMagic * threads.length
            ThreadPool.startThread ⟨p.threads, count, true⟩
              (threads ++ List.replicate (count - threads.length) freeSlot)
              (count / reallocMagic) calls
          else (threadsReallocErr, ⟨none, p.threadCount, false⟩)) := by
  have htake : threads.take p.threadCount = threads :=
    List.take_of_length_le (Nat.le_of_eq hp.count)
  unfold addThread
  rw [if_neg (by simp [hp.unlocked])]
  simp only [hp.array, htake, hp.count, Option.map_some]

/-- When nothing fails, `add_thread` is the function on the slots, and the pool
is valid again. -/
theorem Valid.addThread_of_succeeds
    (hp : p.Valid threads) (hok : ¬Fails threads calls) :
    ∃ p', p.addThread calls =
        some (((Pool.addThread threads calls.thread).1 : ℤ), p') ∧
      p'.Valid (Pool.addThread threads calls.thread).2 := by
  obtain ⟨hrealloc, hcreate⟩ := not_or.mp hok
  rw [not_not] at hcreate
  rw [hp.addThread_eq]
  unfold Pool.addThread
  cases hfind : threads.findIdx? fun info : ThreadInfo => info.state = .free with
  | some i =>
      refine ⟨_, by simp only [startThread, hcreate]; rfl, rfl, rfl, ?_⟩
      simpa using hp.count
  | none =>
      have hfull := findIdx?_eq_none_iff_not_hasFree.mp hfind
      have hmem : calls.reallocOk = true := by
        simpa using fun h => hrealloc ⟨hfull, h⟩
      refine ⟨_, by simp only [startThread, hcreate, hmem]; rfl, rfl, rfl, ?_⟩
      simp [reallocMagic]
      omega

theorem startThread_of_failed
    (hcreate : calls.pthreadCreate ≠ 0) (hlocked : p.locked = true)
    (i : ℕ) : (p.startThread threads i calls).2.Abandoned := by
  rw [startThread, if_pos hcreate]
  exact .inl hlocked

/-- Every failing exit returns, and leaves the pool abandoned. -/
theorem Valid.addThread_of_fails
    (hp : p.Valid threads) (hfails : Fails threads calls) :
    ∃ r p', p.addThread calls = some (r, p') ∧ p'.Abandoned := by
  rw [hp.addThread_eq]
  refine ⟨_, _, rfl, ?_⟩
  cases hfind : threads.findIdx? fun info : ThreadInfo => info.state = .free with
  | some i =>
      have hfree : HasFree threads := by
        by_contra hfull
        rw [findIdx?_eq_none_iff_not_hasFree.mpr hfull] at hfind
        cases hfind
      have hcreate : calls.pthreadCreate ≠ 0 :=
        hfails.resolve_left fun h => h.1 hfree
      exact startThread_of_failed hcreate rfl i
  | none =>
      cases hmem : calls.reallocOk with
      | false => exact .inr rfl
      | true =>
          have hcreate : calls.pthreadCreate ≠ 0 :=
            hfails.resolve_left fun h => by simp [hmem] at h
          exact startThread_of_failed hcreate rfl _

/-- For every pool and every failing exit: `add_thread` returns and has not
failed cleanly; neither the next `add_thread` nor `destroy_thread_pool` comes
to an end. -/
theorem not_failsCleanly_of_fails
    (p : ThreadPool) (threads : List ThreadInfo) (calls : AddCalls)
    (hp : p.Valid threads) (hfails : Fails threads calls) :
    ∃ r p', p.addThread calls = some (r, p') ∧ ¬FailsCleanly threads p' ∧
      (∀ calls', p'.addThread calls' = none) ∧ p'.destroyThreadPool = none := by
  obtain ⟨r, p', hcall, habandoned⟩ := hp.addThread_of_fails hfails
  exact ⟨r, p', hcall, habandoned.not_failsCleanly,
    habandoned.addThread_eq_none, habandoned.destroyThreadPool_eq_none⟩

/-- What `create_thread_pool` makes. -/
def start : ThreadPool := ⟨some createThreadPool, capacity, false⟩

theorem not_failsCleanly_of_fails_start :
    ∃ r p', start.addThread ⟨true, 11, 0⟩ = some (r, p') ∧
      ¬FailsCleanly createThreadPool p' ∧
      (∀ calls', p'.addThread calls' = none) ∧ p'.destroyThreadPool = none :=
  not_failsCleanly_of_fails start createThreadPool ⟨true, 11, 0⟩
    ⟨rfl, rfl, rfl⟩ (.inr (by decide))

/-- No thread can be created for the first call, and it keeps the mutex. -/
theorem firstThread_keeps_mutex :
    start.Valid createThreadPool ∧ Fails createThreadPool ⟨true, 11, 0⟩ ∧
      start.addThread ⟨true, 11, 0⟩ =
        some (11, { start with locked := true }) ∧
      ¬FailsCleanly createThreadPool { start with locked := true } := by
  refine ⟨⟨rfl, rfl, rfl⟩, .inr (by decide), rfl, ?_⟩
  rintro ⟨threads', hvalid, -⟩
  exact absurd hvalid.unlocked (by decide)

end ThreadPool

end Pool
end Threads
end OsFifthSem
