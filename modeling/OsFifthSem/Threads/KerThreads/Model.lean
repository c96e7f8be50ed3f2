import Mathlib.Data.Int.Notation
import Mathlib.Logic.Function.Basic
import OsFifthSem.Support.Transition

/-!
# Threads over `clone`

`mythread.c`: a thread is created on a stack of its own, and a join waits for
its flag and unmaps that stack.  The child goes on running on the stack after
it has set the flag.

`W` stands for `void *`: the words of the memory and the addresses into it.
-/

namespace OsFifthSem
namespace Threads
namespace KerThreads

open Support

variable {W J : Type*}

/-- `GUARD_SIZE`. -/
def guardSize : ℕ := 4096

/-- `STACK_SIZE`. -/
def stackSize : ℕ := 8388608

/-- A start routine returns a word, and may write to the memory. -/
abbrev StartRoutine (W : Type*) :=
  W → (W → W) → W × (W → W)

/-- `mythread`. -/
structure Mythread (W : Type*) where
  tid : ℤ
  startRoutine : StartRoutine W
  arg : W
  retval : W
  stack : ℕ
  stackSize : ℕ
  isFinished : ℤ
  isJoined : ℤ

/-- `munmap` of the pages of the stack, which are mapped as one range. -/
def munmap (mapping : Option (ℕ × ℕ)) (addr length : ℕ) : Option (ℕ × ℕ) :=
  if mapping = some (addr, length) then none else mapping

/-- `mythread_create`, with the results of its system calls: what it returns,
the structure, and the mapping that is left. -/
def mythreadCreate (thread : Mythread W) (startRoutine : StartRoutine W)
    (arg : W) (stack : Option ℕ) (err tid : ℤ) :
    ℤ × Mythread W × Option (ℕ × ℕ) :=
  match stack with
  | none => (-1, thread, none)
  | some stack =>
      let mapping := some (stack, stackSize + guardSize)
      let args := { thread with
        startRoutine := startRoutine
        arg := arg
        isFinished := 0
        isJoined := 0
        stack := stack
        stackSize := stackSize }
      if err ≠ 0 then
        (-1, args, munmap mapping stack (stackSize + guardSize))
      else
        let args := { args with tid := tid }
        if tid = -1 then
          (-1, args, munmap mapping stack (stackSize + guardSize))
        else (0, args, mapping)

/-! ## The child and the joins -/

/-- Where the child is: in `start_routine_wrapper`, or about to exit. -/
inductive ChildPc (W : Type*)
  | routine
  | storeRetval (value : W)
  | setFinished
  | ret
  | exit
  | exited
  /-- The child has touched its stack after that was unmapped. -/
  | faulted

/-- The next step of the child uses its stack.  The last one that does is the
return from `start_routine_wrapper`. -/
def ChildPc.OnStack : ChildPc W → Prop
  | .routine | .storeRetval _ | .setFinished | .ret => True
  | .exit | .exited | .faulted => False

instance (c : ChildPc W) : Decidable c.OnStack := by
  cases c <;> unfold ChildPc.OnStack <;> infer_instance

/-- Where a call of `mythread_join` is, once it has found `isJoined` unset. -/
inductive JoinPhase
  | waitFinished
  | setJoined
  | assignRetval
  | unmap
  deriving DecidableEq, Repr

/-- A call of `mythread_join`; `retval` is the parameter, which is a variable
of the call. -/
inductive JoinPc (W : Type*)
  | idle
  | called (phase : JoinPhase) (retval : W)
  | returned (res : ℤ)
  deriving DecidableEq

/-- A created thread, and the calls of `mythread_join` on it. -/
structure State (W J : Type*) where
  thread : Mythread W
  mapping : Option (ℕ × ℕ)
  memory : W → W
  child : ChildPc W
  /-- What the start routine has returned. -/
  result : Option W
  join : J → JoinPc W
  /-- How often `munmap` of the stack has succeeded. -/
  unmaps : ℕ
  /-- A history variable: what each call has stored where its argument
  points. -/
  stored : J → Option W

/-- One step of the child.  The process ends when the child runs on a stack
that is not mapped. -/
def childStep (s : State W J) : Option (State W J) :=
  if s.child.OnStack ∧ s.mapping = none then
    some { s with child := .faulted }
  else
    match s.child with
    | .routine =>
        let r := s.thread.startRoutine s.thread.arg s.memory
        some { s with
          memory := r.2, result := some r.1, child := .storeRetval r.1 }
    | .storeRetval value =>
        some { s with
          thread := { s.thread with retval := value }, child := .setFinished }
    | .setFinished =>
        some { s with
          thread := { s.thread with isFinished := 1 }, child := .ret }
    | .ret => some { s with child := .exit }
    | .exit => some { s with child := .exited }
    | .exited | .faulted => none

variable [DecidableEq J]

def State.setJoin (s : State W J) (j : J) (p : JoinPc W) : State W J :=
  { s with join := Function.update s.join j p }

/-- One step of `mythread_join`.  `retvalArg` is the argument that each call
passes, and `unmapped` is whether `munmap` succeeds, which it also does when
nothing is mapped there. -/
def joinStep (retvalArg : J → W) (s : State W J) (j : J) (unmapped : Bool) :
    Option (State W J) :=
  match s.join j with
  | .idle =>
      if s.thread.isJoined ≠ 0 then some (s.setJoin j (.returned (-1)))
      else some (s.setJoin j (.called .waitFinished (retvalArg j)))
  | .called .waitFinished retval =>
      -- `usleep` while the flag is not set
      if s.thread.isFinished ≠ 1 then some s
      else some (s.setJoin j (.called .setJoined retval))
  | .called .setJoined retval =>
      some { s.setJoin j (.called .assignRetval retval) with
        thread := { s.thread with isJoined := 1 } }
  | .called .assignRetval _ =>
      -- the variable of the call is assigned, and nothing stored where it points
      some (s.setJoin j (.called .unmap s.thread.retval))
  | .called .unmap _ =>
      if unmapped then
        some { s.setJoin j (.returned 0) with
          mapping := munmap s.mapping s.thread.stack
            (s.thread.stackSize + guardSize)
          unmaps := s.unmaps + 1 }
      else some (s.setJoin j (.returned (-1)))
  | .returned _ => none

inductive Action (J : Type*)
  | child
  | join (j : J) (unmapped : Bool)
  deriving DecidableEq, Repr

def step (retvalArg : J → W) (s : State W J) : Action J → Option (State W J)
  | .child => childStep s
  | .join j unmapped =>
      match s.child with
      | .faulted => none
      | _ => joinStep retvalArg s j unmapped

/-- The steps of the child and of the joins in any order, from the creation of
the thread. -/
def mythreadSystem (startRoutine : StartRoutine W) (arg : W)
    (retvalArg : J → W) : TransitionSystem (State W J) (Action J) where
  Initial := fun s =>
    (∃ thread stack err tid,
      mythreadCreate thread startRoutine arg stack err tid =
        (0, s.thread, s.mapping)) ∧
    s.child = .routine ∧ s.result = none ∧ (∀ j, s.join j = .idle) ∧
    s.unmaps = 0 ∧ ∀ j, s.stored j = none
  step := step retvalArg

/-! ## What a step does -/

/-- A created thread is not finished and not joined, and its stack is mapped
as the range that a join unmaps. -/
theorem mythreadCreate_zero
    {thread thread' : Mythread W} {startRoutine : StartRoutine W} {arg : W}
    {stack : Option ℕ} {err tid : ℤ} {mapping : Option (ℕ × ℕ)}
    (h : mythreadCreate thread startRoutine arg stack err tid =
      (0, thread', mapping)) :
    thread'.isFinished = 0 ∧ thread'.isJoined = 0 ∧
      mapping = some (thread'.stack, thread'.stackSize + guardSize) := by
  unfold mythreadCreate at h
  split at h
  next => simp at h
  next stack =>
    split at h
    next => simp at h
    next =>
      dsimp only at h
      split at h
      next => simp at h
      next =>
        obtain ⟨-, rfl, rfl⟩ : _ ∧ _ ∧ _ := by simpa only [Prod.mk.injEq] using h
        exact ⟨rfl, rfl, rfl⟩

/-- The moves of the child. -/
inductive ChildMove (s : State W J) : State W J → Prop
  | fault (hstack : s.child.OnStack) (h : s.mapping = none) :
      ChildMove s { s with child := .faulted }
  | run (value : W) (memory : W → W) (hpc : s.child = .routine) :
      ChildMove s { s with
        memory := memory, result := some value, child := .storeRetval value }
  | store (value : W) (hpc : s.child = .storeRetval value) :
      ChildMove s { s with
        thread := { s.thread with retval := value }, child := .setFinished }
  | finish (hpc : s.child = .setFinished) :
      ChildMove s { s with
        thread := { s.thread with isFinished := 1 }, child := .ret }
  | leave (hpc : s.child = .ret) : ChildMove s { s with child := .exit }
  | exit (hpc : s.child = .exit) : ChildMove s { s with child := .exited }

omit [DecidableEq J] in
theorem childMove_of_childStep
    {s t : State W J} (h : childStep s = some t) : ChildMove s t := by
  unfold childStep at h
  split at h
  next hfault =>
    obtain rfl := Option.some.inj h
    exact .fault hfault.1 hfault.2
  next =>
    split at h
    next hpc =>
      obtain rfl := Option.some.inj h
      exact .run _ _ hpc
    next value hpc =>
      obtain rfl := Option.some.inj h
      exact .store value hpc
    next hpc =>
      obtain rfl := Option.some.inj h
      exact .finish hpc
    next hpc =>
      obtain rfl := Option.some.inj h
      exact .leave hpc
    next hpc =>
      obtain rfl := Option.some.inj h
      exact .exit hpc
    all_goals cases h

/-- The moves of a call, with what it finds. -/
inductive JoinMove (retvalArg : J → W) (s : State W J) (j : J) :
    Bool → State W J → Prop
  | refuse (unmapped : Bool) (hpc : s.join j = .idle)
      (h : s.thread.isJoined ≠ 0) :
      JoinMove retvalArg s j unmapped (s.setJoin j (.returned (-1)))
  | test (unmapped : Bool) (hpc : s.join j = .idle)
      (h : s.thread.isJoined = 0) :
      JoinMove retvalArg s j unmapped
        (s.setJoin j (.called .waitFinished (retvalArg j)))
  | sleep (unmapped : Bool) : JoinMove retvalArg s j unmapped s
  | wake (unmapped : Bool) (retval : W)
      (hpc : s.join j = .called .waitFinished retval)
      (h : s.thread.isFinished = 1) :
      JoinMove retvalArg s j unmapped
        (s.setJoin j (.called .setJoined retval))
  | setJoined (unmapped : Bool) (retval : W)
      (hpc : s.join j = .called .setJoined retval) :
      JoinMove retvalArg s j unmapped
        { s.setJoin j (.called .assignRetval retval) with
          thread := { s.thread with isJoined := 1 } }
  | assign (unmapped : Bool) (retval : W)
      (hpc : s.join j = .called .assignRetval retval) :
      JoinMove retvalArg s j unmapped
        (s.setJoin j (.called .unmap s.thread.retval))
  | unmap (retval : W) (hpc : s.join j = .called .unmap retval) :
      JoinMove retvalArg s j true
        { s.setJoin j (.returned 0) with
          mapping := munmap s.mapping s.thread.stack
            (s.thread.stackSize + guardSize)
          unmaps := s.unmaps + 1 }
  | fail (retval : W) (hpc : s.join j = .called .unmap retval) :
      JoinMove retvalArg s j false (s.setJoin j (.returned (-1)))

theorem joinMove_of_joinStep
    {retvalArg : J → W} {s t : State W J} {j : J} {unmapped : Bool}
    (h : joinStep retvalArg s j unmapped = some t) :
    JoinMove retvalArg s j unmapped t := by
  unfold joinStep at h
  split at h
  next hpc =>
    split at h
    next hset =>
      obtain rfl := Option.some.inj h
      exact .refuse _ hpc hset
    next hset =>
      obtain rfl := Option.some.inj h
      exact .test _ hpc (not_not.mp hset)
  next retval hpc =>
    split at h
    next =>
      obtain rfl := Option.some.inj h
      exact .sleep _
    next hfin =>
      obtain rfl := Option.some.inj h
      exact .wake _ retval hpc (not_not.mp hfin)
  next retval hpc =>
    obtain rfl := Option.some.inj h
    exact .setJoined _ retval hpc
  next retval hpc =>
    obtain rfl := Option.some.inj h
    exact .assign _ retval hpc
  next retval hpc =>
    split at h
    next hok =>
      obtain rfl := Option.some.inj h
      obtain rfl := hok
      exact .unmap retval hpc
    next hok =>
      obtain rfl := Option.some.inj h
      obtain rfl := Bool.not_eq_true _ ▸ hok
      exact .fail retval hpc
  next => cases h

theorem joinMove_of_step
    {retvalArg : J → W} {s t : State W J} {j : J} {unmapped : Bool}
    (h : step retvalArg s (.join j unmapped) = some t) :
    s.child ≠ .faulted ∧ JoinMove retvalArg s j unmapped t := by
  simp only [step] at h
  split at h
  next => cases h
  next hchild => exact ⟨hchild, joinMove_of_joinStep h⟩

end KerThreads
end Threads
end OsFifthSem
