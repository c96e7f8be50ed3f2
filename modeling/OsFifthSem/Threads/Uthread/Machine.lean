import Mathlib.Data.List.Range
import Mathlib.Logic.Function.Basic
import Mathlib.Logic.Function.Iterate

/-!
# User-level threads

The machine executes `1.7.c` after `initializeThreads`: `threads` is an array
of `THREAD_LIMIT` pointers.  `swapcontext` stores where the running code goes
on in one context and goes on where another context says.

A routine calls `yield` a number of times and returns; what it does with the
results does not matter here.  `switches` is a history variable: the threads
that `yield` switched to, with their `isFinished` at that time.
-/

namespace OsFifthSem
namespace Uthread

/-- The code that called `yield`. -/
inductive Caller
  /-- A routine that is to call `yield` this many times more. -/
  | routine (left : ℕ)
  | finish
  deriving DecidableEq, Repr

/-- Where a saved context goes on. -/
inductive ResumePoint
  /-- `thread_wrapper`, from its start. -/
  | threadWrapper (thread : ℕ)
  /-- `yield`, called in the thread. -/
  | yield (thread : ℕ) (caller : Caller)
  /-- `uthread_start`. -/
  | uthreadStart
  deriving DecidableEq, Repr

/-- `uthread`. -/
structure UThread where
  tid : ℕ
  /-- The number of calls of `yield` that `start_routine` makes. -/
  startRoutine : ℕ
  isActive : Bool
  isJoinable : Bool
  isJoined : Bool
  isFinished : Bool
  context : ResumePoint
  deriving DecidableEq, Repr

/-- The array `threads`. -/
abbrev Threads := ℕ → Option UThread

/-- `initializeThreads`: the fields other than `isActive` are not set. -/
def initializeThreads (limit : ℕ) : Threads := fun i =>
  if i < limit then some ⟨0, 0, false, false, false, false, .uthreadStart⟩
  else none

/-- `threads[i] != NULL && threads[i]->isActive == 0`. -/
def Threads.isFree (threads : Threads) (i : ℕ) : Bool :=
  (threads i).any fun th => !th.isActive

/-- `threads[i] != NULL && threads[i]->isActive == 1`. -/
def Threads.isActive (threads : Threads) (i : ℕ) : Bool :=
  (threads i).any UThread.isActive

/-- `get_free_position`; `none` stands for -1. -/
def getFreePosition (limit : ℕ) (threads : Threads) : Option ℕ :=
  (List.range limit).find? threads.isFree

/-- The loop of `get_next_active`.  There is no result when `fuel` turns do
not suffice. -/
def nextActiveFrom (limit : ℕ) (threads : Threads) (curTid : ℕ) :
    ℕ → ℕ → Option ℤ
  | 0, _ => none
  | fuel + 1, i =>
      let i := i % limit
      if threads.isActive i then some i
      else if i = curTid then some (-1)
      else nextActiveFrom limit threads curTid fuel (i + 1)

/-- `get_next_active`: the loop ends at `cur_tid` at the latest. -/
def getNextActive (limit : ℕ) (threads : Threads) (curTid : ℕ) : Option ℤ :=
  nextActiveFrom limit threads curTid limit (curTid + 1)

/-- `uthread_create` for a routine that yields `yields` times. -/
def uthreadCreate (limit : ℕ) (threads : Threads) (yields : ℕ) :
    Option Threads :=
  (getFreePosition limit threads).map fun pos =>
    Function.update threads pos
      (some ⟨pos, yields, true, true, false, false, .threadWrapper pos⟩)

/-- The code that runs next. -/
inductive Control
  /-- `uthread_start` is called. -/
  | uthreadStart (thread : ℕ)
  | threadWrapper (thread : ℕ)
  /-- The routine is to call `yield` this many times more. -/
  | routine (thread : ℕ) (left : ℕ)
  | finish (thread : ℕ)
  /-- `yield` is called. -/
  | yield (thread : ℕ) (caller : Caller)
  /-- `yield` returns. -/
  | yielded (thread : ℕ) (caller : Caller) (res : ℤ)
  /-- `main_context` is resumed. -/
  | main
  /-- A null pointer was followed, or a loop does not end. -/
  | fault
  deriving DecidableEq, Repr

structure Machine where
  threads : Threads
  curTid : ℕ
  mainContext : Option ResumePoint
  control : Control
  switches : List (ℕ × Bool)

namespace Machine

/-- The code at which a context goes on. -/
def resume : ResumePoint → Control
  | .threadWrapper thread => .threadWrapper thread
  | .yield thread caller => .yielded thread caller 0
  | .uthreadStart => .main

def faulty (m : Machine) : Machine := { m with control := .fault }

/-- `yield`, called in `thread`. -/
def yield (limit : ℕ) (m : Machine) (thread : ℕ) (caller : Caller) : Machine :=
  match getNextActive limit m.threads m.curTid with
  | none => m.faulty
  | some pos =>
      if pos < 0 then { m with control := .yielded thread caller (-1) }
      else if pos = m.curTid then { m with control := .yielded thread caller 0 }
      else
        match m.threads m.curTid, m.threads pos.toNat with
        | some old, some new =>
            { m with
              threads := Function.update m.threads m.curTid
                (some { old with context := .yield thread caller })
              curTid := pos.toNat
              switches := m.switches ++ [(pos.toNat, new.isFinished)]
              control := resume new.context }
        | _, _ => m.faulty

/-- One step. -/
def step (limit : ℕ) (m : Machine) : Machine :=
  match m.control with
  | .uthreadStart thread =>
      match m.threads thread with
      | none => m.faulty
      | some th =>
          { m with
            curTid := th.tid
            mainContext := some .uthreadStart
            control := resume th.context }
  | .threadWrapper thread =>
      match m.threads thread with
      | none => m.faulty
      | some th => { m with control := .routine thread th.startRoutine }
  | .routine thread 0 => { m with control := .finish thread }
  | .routine thread (left + 1) =>
      { m with control := .yield thread (.routine left) }
  | .finish thread =>
      match m.threads m.curTid with
      | none => m.faulty
      | some th =>
          { m with
            threads := Function.update m.threads m.curTid (some { th with
              isActive := if th.isJoinable then th.isActive else false
              isFinished := true })
            control := .yield thread .finish }
  | .yield thread caller => m.yield limit thread caller
  | .yielded thread (.routine left) _ =>
      { m with control := .routine thread left }
  | .yielded _ .finish _ =>
      -- `setcontext(&main_context)`, or the return to `uc_link` when
      -- `yield` has failed
      match m.mainContext with
      | none => m.faulty
      | some point => { m with control := resume point }
  | .main | .fault => m

end Machine

/-- `uthread_create` for each of `yields`, then `uthread_start` of the thread
with number `first`. -/
def start (limit : ℕ) (yields : List ℕ) (first : ℕ) : Option Machine :=
  (yields.foldlM (uthreadCreate limit) (initializeThreads limit)).map
    fun threads =>
      { threads := threads
        curTid := 0
        mainContext := none
        control := .uthreadStart first
        switches := [] }

/-- The machine after `n` steps. -/
def after (limit : ℕ) (m : Machine) (n : ℕ) : Machine :=
  (Machine.step limit)^[n] m

/-! ## The search for the next thread -/

/-- The threads with the numbers below `k` are active, and no others. -/
def ActiveBelow (limit k : ℕ) (threads : Threads) : Prop :=
  ∀ i < limit, threads.isActive i = true ↔ i < k

variable {limit k curTid : ℕ} {threads : Threads}

/-- Behind the active threads the search comes round to the first one. -/
theorem nextActiveFrom_wrap
    (h : ActiveBelow limit k threads) (hk : 0 < k) (hcur : curTid < k)
    {fuel i : ℕ} (hki : k ≤ i) (hil : i ≤ limit) (hfuel : limit - i < fuel) :
    nextActiveFrom limit threads curTid fuel i = some 0 := by
  induction fuel generalizing i with
  | zero => omega
  | succ fuel ih =>
      have hlimit : 0 < limit := by omega
      by_cases hi : i = limit
      · subst hi
        have hzero : threads.isActive 0 = true := (h 0 hlimit).mpr hk
        simp [nextActiveFrom, hzero]
      · have hlt : i < limit := by omega
        have hmod : i % limit = i := Nat.mod_eq_of_lt hlt
        have hidle : threads.isActive i = false := by
          by_contra hactive
          have := (h i hlt).mp (by simpa using hactive)
          omega
        have hne : i ≠ curTid := by omega
        simp only [nextActiveFrom, hmod, hidle, Bool.false_eq_true, if_false,
          if_neg hne]
        exact ih (by omega) (by omega) (by omega)

/-- `yield` goes round the active threads. -/
theorem getNextActive_eq
    (h : ActiveBelow limit k threads) (hkl : k ≤ limit) (hcur : curTid < k) :
    getNextActive limit threads curTid = some (((curTid + 1) % k : ℕ) : ℤ) := by
  unfold getNextActive
  by_cases hlast : curTid + 1 = k
  · rw [nextActiveFrom_wrap h (by omega) hcur (by omega) (by omega) (by omega),
      hlast, Nat.mod_self]
    rfl
  · obtain ⟨fuel, hfuel⟩ : ∃ fuel, limit = fuel + 1 :=
      Nat.exists_eq_succ_of_ne_zero (by omega)
    have hlt : curTid + 1 < limit := by omega
    have hactive : threads.isActive (curTid + 1) = true :=
      (h _ hlt).mpr (by omega)
    rw [Nat.mod_eq_of_lt (by omega : curTid + 1 < k)]
    subst hfuel
    simp [nextActiveFrom, Nat.mod_eq_of_lt hlt, hactive]

end Uthread
end OsFifthSem
