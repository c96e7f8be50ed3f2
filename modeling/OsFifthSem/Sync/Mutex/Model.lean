import Mathlib.Data.Fintype.Pi
import OsFifthSem.Support.Transition

/-!
# The futex mutex of `sync/2.4/mutex`

The model follows `mutex.c` one atomic access at a time.  A thread repeatedly
calls `mutex_lock` or `mutex_trylock`, increments the shared counter of
`tests.c` by a separate read and write, and calls `mutex_unlock`.  The threads
form an arbitrary finite type.

`FUTEX_WAIT` compares the word with 2 and falls asleep in one step, and may
return at any later time without having been woken.  `FUTEX_WAKE` wakes one
sleeper of the scheduler's choice, and nobody exactly when nobody sleeps.
-/

namespace OsFifthSem
namespace Mutex

open Support

/-- `cmpxchg(atom, expected, desired)`: the value returned and the new value
of the word. -/
def cmpxchg (atom expected desired : ℤ) : ℤ × ℤ :=
  if atom = expected then (expected, desired) else (atom, atom)

/-- The next atomic access of a thread. -/
inductive Pc
  /-- In neither mutex function. -/
  | outside
  /-- `mutex_lock`: the first `cmpxchg(&state, 0, 1)`. -/
  | lockFast
  /-- `mutex_lock`: the test `c == 2` at the top of the loop. -/
  | loopTest (c : ℤ)
  /-- `mutex_lock`: `cmpxchg(&state, 1, 2)`. -/
  | loopMark
  /-- `mutex_lock`: the `FUTEX_WAIT` system call. -/
  | futexWait
  /-- Asleep in `FUTEX_WAIT`. -/
  | asleep
  /-- `mutex_lock`: `cmpxchg(&state, 0, 2)` in the loop condition. -/
  | loopRetry
  /-- `mutex_trylock`: its compare and exchange. -/
  | tryFast
  /-- The mutex is acquired; the read of `counter++` is next. -/
  | counterRead
  /-- The write of `counter++`, after the value `v` was read. -/
  | counterWrite (v : BitVec 32)
  /-- `mutex_unlock`: the `atomic_fetch_sub`. -/
  | unlockSub
  /-- `mutex_unlock`: the `atomic_store` of 0. -/
  | unlockStore
  /-- `mutex_unlock`: the `FUTEX_WAKE` system call. -/
  | unlockWake
  deriving DecidableEq, Repr

/-- The thread is between a successful acquisition and the fetch_sub of its
unlock. -/
def Pc.Holds : Pc → Prop
  | .counterRead | .counterWrite _ | .unlockSub => True
  | .outside | .lockFast | .loopTest _ | .loopMark | .futexWait | .asleep
  | .loopRetry | .tryFast | .unlockStore | .unlockWake => False

/-- The thread is awake and inside the loop of `mutex_lock`. -/
def Pc.InSlowLoop : Pc → Prop
  | .loopTest _ | .loopMark | .futexWait | .loopRetry => True
  | .outside | .lockFast | .asleep | .tryFast | .counterRead
  | .counterWrite _ | .unlockSub | .unlockStore | .unlockWake => False

/-- The thread is inside `mutex_unlock`, past a fetch_sub that returned a
value other than 1, and has not issued its `FUTEX_WAKE` yet. -/
def Pc.OwesWake : Pc → Prop
  | .unlockStore | .unlockWake => True
  | .outside | .lockFast | .loopTest _ | .loopMark | .futexWait | .asleep
  | .loopRetry | .tryFast | .counterRead | .counterWrite _
  | .unlockSub => False

/-- The mutex word, the counter it protects and the threads.  `increments`
is a history variable: the number of `counter++` each thread completed. -/
structure State (T : Type*) where
  word : ℤ
  counter : BitVec 32
  pc : T → Pc
  increments : T → ℕ

/-- One scheduling choice. -/
inductive Action (T : Type*)
  /-- The thread calls `mutex_lock`. -/
  | lock (t : T)
  /-- The thread calls `mutex_trylock`. -/
  | tryLock (t : T)
  /-- The thread performs its next atomic access. -/
  | advance (t : T)
  /-- The thread issues `FUTEX_WAKE`, which wakes `woken`. -/
  | wake (t : T) (woken : Option T)
  /-- `FUTEX_WAIT` returns to the thread although nobody woke it. -/
  | spurious (t : T)

variable {T : Type*} [DecidableEq T]

/-- Continue thread `t` at `p`. -/
def State.goto (s : State T) (t : T) (p : Pc) : State T :=
  { s with pc := Function.update s.pc t p }

/-- `mutex_init`, with `counter = 0` and no thread inside. -/
def mutexInit : State T where
  word := 0
  counter := 0
  pc := fun _ => .outside
  increments := fun _ => 0

/-- The next atomic access of thread `t`. -/
def advance (s : State T) (t : T) : Option (State T) :=
  match s.pc t with
  | .outside | .asleep | .unlockWake => none
  | .lockFast =>
      let (c, word) := cmpxchg s.word 0 1
      some ({ s with word := word }.goto t
        (if c ≠ 0 then .loopTest c else .counterRead))
  | .loopTest c =>
      -- `||` evaluates its right operand only when `c` is not 2
      some (s.goto t (if c = 2 then .futexWait else .loopMark))
  | .loopMark =>
      let (c, word) := cmpxchg s.word 1 2
      some ({ s with word := word }.goto t
        (if c ≠ 0 then .futexWait else .loopRetry))
  | .futexWait =>
      some (s.goto t (if s.word = 2 then .asleep else .loopRetry))
  | .loopRetry =>
      let (c, word) := cmpxchg s.word 0 2
      some ({ s with word := word }.goto t
        (if c ≠ 0 then .loopTest c else .counterRead))
  | .tryFast =>
      let (c, word) := cmpxchg s.word 0 1
      some ({ s with word := word }.goto t
        (if c = 0 then .counterRead else .outside))
  | .counterRead => some (s.goto t (.counterWrite s.counter))
  | .counterWrite v =>
      some ({ s with
        counter := v + 1
        increments := Function.update s.increments t (s.increments t + 1)
        }.goto t .unlockSub)
  | .unlockSub =>
      some ({ s with word := s.word - 1 }.goto t
        (if s.word ≠ 1 then .unlockStore else .outside))
  | .unlockStore => some ({ s with word := 0 }.goto t .unlockWake)

/-- One step of the system. -/
def step [Fintype T] (s : State T) : Action T → Option (State T)
  | .lock t =>
      if s.pc t = .outside then some (s.goto t .lockFast) else none
  | .tryLock t =>
      if s.pc t = .outside then some (s.goto t .tryFast) else none
  | .advance t => advance s t
  | .wake t (some u) =>
      if s.pc t = .unlockWake ∧ s.pc u = .asleep
      then some ((s.goto u .loopRetry).goto t .outside)
      else none
  | .wake t none =>
      if s.pc t = .unlockWake ∧ ∀ u, s.pc u ≠ .asleep
      then some (s.goto t .outside)
      else none
  | .spurious t =>
      if s.pc t = .asleep then some (s.goto t .loopRetry) else none

/-- Any number of threads that share one mutex, from `mutex_init` on. -/
def mutexSystem (T : Type*) [DecidableEq T] [Fintype T] :
    TransitionSystem (State T) (Action T) where
  Initial := fun s => s = mutexInit
  step := step

theorem mutexInit_reachable [Fintype T] :
    (mutexSystem T).Reachable (mutexInit : State T) :=
  .initial rfl

/-! ## What one step can do -/

/-- The effect of a step on the acting thread's place in the code and on the
word. -/
inductive Move : Pc → ℤ → Pc → ℤ → Prop
  | callLock (w : ℤ) : Move .outside w .lockFast w
  | callTryLock (w : ℤ) : Move .outside w .tryFast w
  | lockFree : Move .lockFast 0 .counterRead 1
  | lockBusy {w : ℤ} (hw : w ≠ 0) : Move .lockFast w (.loopTest w) w
  | testWaiters (w : ℤ) : Move (.loopTest 2) w .futexWait w
  | testOther {c : ℤ} (hc : c ≠ 2) (w : ℤ) : Move (.loopTest c) w .loopMark w
  | markFree : Move .loopMark 0 .loopRetry 0
  | markLocked : Move .loopMark 1 .futexWait 2
  | markMarked {w : ℤ} (h0 : w ≠ 0) (h1 : w ≠ 1) : Move .loopMark w .futexWait w
  | sleep : Move .futexWait 2 .asleep 2
  | waitRefused {w : ℤ} (hw : w ≠ 2) : Move .futexWait w .loopRetry w
  | spurious (w : ℤ) : Move .asleep w .loopRetry w
  | retryFree : Move .loopRetry 0 .counterRead 2
  | retryBusy {w : ℤ} (hw : w ≠ 0) : Move .loopRetry w (.loopTest w) w
  | tryFree : Move .tryFast 0 .counterRead 1
  | tryBusy {w : ℤ} (hw : w ≠ 0) : Move .tryFast w .outside w
  | read (v : BitVec 32) (w : ℤ) : Move .counterRead w (.counterWrite v) w
  | write (v : BitVec 32) (w : ℤ) : Move (.counterWrite v) w .unlockSub w
  | subLast : Move .unlockSub 1 .outside 0
  | subWaiters {w : ℤ} (hw : w ≠ 1) : Move .unlockSub w .unlockStore (w - 1)
  | store (w : ℤ) : Move .unlockStore w .unlockWake 0
  | wake (w : ℤ) : Move .unlockWake w .outside w

/-- Everything a step by thread `t` can change. -/
structure StepBy (t : T) (s s' : State T) : Prop where
  move : Move (s.pc t) s.word (s'.pc t) s'.word
  others : ∀ u, u ≠ t →
    s'.pc u = s.pc u ∨ (s.pc u = .asleep ∧ s'.pc u = .loopRetry)
  wakes : s.pc t = .unlockWake → (∃ u, s.pc u = .asleep) →
    ∃ u, s'.pc u = .loopRetry
  reads : ∀ v, s'.pc t = .counterWrite v → v = s.counter
  writes : ∀ v, s.pc t = .counterWrite v → s'.counter = v + 1 ∧
    s'.increments = Function.update s.increments t (s.increments t + 1)
  keeps : (∀ v, s.pc t ≠ .counterWrite v) →
    s'.counter = s.counter ∧ s'.increments = s.increments

@[simp] theorem goto_pc_self (s : State T) (t : T) (p : Pc) :
    (s.goto t p).pc t = p := by
  simp [State.goto]

theorem goto_pc_of_ne (s : State T) {t u : T} (p : Pc) (hne : u ≠ t) :
    (s.goto t p).pc u = s.pc u := by
  simp [State.goto, hne]

@[simp] theorem goto_word (s : State T) (t : T) (p : Pc) :
    (s.goto t p).word = s.word := rfl

@[simp] theorem goto_counter (s : State T) (t : T) (p : Pc) :
    (s.goto t p).counter = s.counter := rfl

@[simp] theorem goto_increments (s : State T) (t : T) (p : Pc) :
    (s.goto t p).increments = s.increments := rfl

/-- A step which leaves the counter alone and moves only thread `t`. -/
theorem stepBy_goto
    {s : State T} {t : T} {p : Pc} {w : ℤ}
    (hmove : Move (s.pc t) s.word p w)
    (hwake : s.pc t ≠ .unlockWake)
    (hread : ∀ v, p = .counterWrite v → v = s.counter)
    (hwrite : ∀ v, s.pc t ≠ .counterWrite v) :
    StepBy t s ({ s with word := w }.goto t p) where
  move := by simpa using hmove
  others := fun u hu => Or.inl (goto_pc_of_ne _ p hu)
  wakes := fun h => absurd h hwake
  reads := fun v hv => hread v (by simpa using hv)
  writes := fun v hv => absurd hv (hwrite v)
  keeps := fun _ => ⟨rfl, rfl⟩

theorem advance_stepBy
    {s s' : State T} {t : T} (hstep : advance s t = some s') :
    StepBy t s s' := by
  have hgoto : ∀ {p : Pc} {w : ℤ}, Move (s.pc t) s.word p w →
      s.pc t ≠ .unlockWake → (∀ v, p = .counterWrite v → v = s.counter) →
      (∀ v, s.pc t ≠ .counterWrite v) →
      { s with word := w }.goto t p = s' → StepBy t s s' := by
    intro p w hmove hwake hread hwrite heq
    subst heq
    exact stepBy_goto hmove hwake hread hwrite
  unfold advance at hstep
  cases hpc : s.pc t with
  | outside | asleep | unlockWake => simp [hpc] at hstep
  | lockFast =>
      simp only [hpc, cmpxchg, Option.some.injEq] at hstep
      by_cases hw : s.word = 0
      · refine hgoto (hpc ▸ hw ▸ Move.lockFree) (by simp [hpc]) (by simp)
          (by simp [hpc]) ?_
        simpa [hw] using hstep
      · refine hgoto (hpc ▸ Move.lockBusy hw) (by simp [hpc]) (by simp)
          (by simp [hpc]) ?_
        simpa [hw] using hstep
  | loopTest c =>
      simp only [hpc, Option.some.injEq] at hstep
      by_cases hc : c = 2
      · refine hgoto (hpc ▸ hc ▸ Move.testWaiters _) (by simp [hpc]) (by simp)
          (by simp [hpc]) ?_
        simpa [hc] using hstep
      · refine hgoto (hpc ▸ Move.testOther hc _) (by simp [hpc]) (by simp)
          (by simp [hpc]) ?_
        simpa [hc] using hstep
  | loopMark =>
      simp only [hpc, cmpxchg, Option.some.injEq] at hstep
      by_cases h1 : s.word = 1
      · refine hgoto (hpc ▸ h1 ▸ Move.markLocked) (by simp [hpc]) (by simp)
          (by simp [hpc]) ?_
        simpa [h1] using hstep
      · by_cases h0 : s.word = 0
        · refine hgoto (hpc ▸ h0 ▸ Move.markFree) (by simp [hpc]) (by simp)
            (by simp [hpc]) ?_
          simpa [h0] using hstep
        · refine hgoto (hpc ▸ Move.markMarked h0 h1) (by simp [hpc]) (by simp)
            (by simp [hpc]) ?_
          simpa [h0, h1] using hstep
  | futexWait =>
      simp only [hpc, Option.some.injEq] at hstep
      by_cases hw : s.word = 2
      · refine hgoto (hpc ▸ hw ▸ Move.sleep) (by simp [hpc]) (by simp)
          (by simp [hpc]) ?_
        rw [← hstep, if_pos hw]
      · refine hgoto (hpc ▸ Move.waitRefused hw) (by simp [hpc]) (by simp)
          (by simp [hpc]) ?_
        simpa [hw] using hstep
  | loopRetry =>
      simp only [hpc, cmpxchg, Option.some.injEq] at hstep
      by_cases hw : s.word = 0
      · refine hgoto (hpc ▸ hw ▸ Move.retryFree) (by simp [hpc]) (by simp)
          (by simp [hpc]) ?_
        simpa [hw] using hstep
      · refine hgoto (hpc ▸ Move.retryBusy hw) (by simp [hpc]) (by simp)
          (by simp [hpc]) ?_
        simpa [hw] using hstep
  | tryFast =>
      simp only [hpc, cmpxchg, Option.some.injEq] at hstep
      by_cases hw : s.word = 0
      · refine hgoto (hpc ▸ hw ▸ Move.tryFree) (by simp [hpc]) (by simp)
          (by simp [hpc]) ?_
        simpa [hw] using hstep
      · refine hgoto (hpc ▸ Move.tryBusy hw) (by simp [hpc]) (by simp)
          (by simp [hpc]) ?_
        simpa [hw] using hstep
  | counterRead =>
      simp only [hpc, Option.some.injEq] at hstep
      refine hgoto (hpc ▸ Move.read s.counter _) (by simp [hpc]) ?_
        (by simp [hpc]) hstep
      intro v hv
      exact (Pc.counterWrite.inj hv).symm
  | counterWrite v =>
      simp only [hpc, Option.some.injEq] at hstep
      subst hstep
      refine ⟨?_, ?_, ?_, ?_, ?_, ?_⟩
      · simpa [hpc] using Move.write v s.word
      · intro u hu
        exact Or.inl (goto_pc_of_ne _ _ hu)
      · intro h
        simp [hpc] at h
      · simp
      · intro v' hv'
        obtain rfl : v = v' := Pc.counterWrite.inj (hpc.symm.trans hv')
        exact ⟨rfl, rfl⟩
      · intro h
        exact absurd hpc (h v)
  | unlockSub =>
      simp only [hpc, Option.some.injEq] at hstep
      by_cases hw : s.word = 1
      · refine hgoto (hpc ▸ hw ▸ Move.subLast) (by simp [hpc]) (by simp)
          (by simp [hpc]) ?_
        simpa [hw] using hstep
      · refine hgoto (hpc ▸ Move.subWaiters hw) (by simp [hpc]) (by simp)
          (by simp [hpc]) ?_
        simpa [hw] using hstep
  | unlockStore =>
      simp only [hpc, Option.some.injEq] at hstep
      exact hgoto (hpc ▸ Move.store _) (by simp [hpc]) (by simp)
        (by simp [hpc]) hstep

/-- Every step of the system is a step by one thread, which wakes at most one
sleeper on the way. -/
theorem exists_stepBy [Fintype T]
    {s s' : State T} {a : Action T} (hstep : step s a = some s') :
    ∃ t, StepBy t s s' := by
  have hgoto : ∀ {t : T} {p q : Pc}, s.pc t = q → Move q s.word p s.word →
      q ≠ .unlockWake → (∀ v, p ≠ .counterWrite v) →
      (∀ v, q ≠ .counterWrite v) → StepBy t s (s.goto t p) := by
    intro t p q hpc hmove hwake hread hwrite
    subst hpc
    exact stepBy_goto hmove hwake (fun v hv => absurd hv (hread v)) hwrite
  cases a with
  | lock t =>
      simp only [step, Option.ite_none_right_eq_some, Option.some.injEq] at hstep
      obtain ⟨hpc, rfl⟩ := hstep
      exact ⟨t, hgoto hpc (.callLock _) (by simp) (by simp) (by simp)⟩
  | tryLock t =>
      simp only [step, Option.ite_none_right_eq_some, Option.some.injEq] at hstep
      obtain ⟨hpc, rfl⟩ := hstep
      exact ⟨t, hgoto hpc (.callTryLock _) (by simp) (by simp) (by simp)⟩
  | advance t => exact ⟨t, advance_stepBy hstep⟩
  | spurious t =>
      simp only [step, Option.ite_none_right_eq_some, Option.some.injEq] at hstep
      obtain ⟨hpc, rfl⟩ := hstep
      exact ⟨t, hgoto hpc (.spurious _) (by simp) (by simp) (by simp)⟩
  | wake t woken =>
      cases woken with
      | none =>
          simp only [step, Option.ite_none_right_eq_some,
            Option.some.injEq] at hstep
          obtain ⟨⟨hpc, hnone⟩, rfl⟩ := hstep
          refine ⟨t, ?_, ?_, ?_, ?_, ?_, ?_⟩
          · simpa [hpc] using Move.wake s.word
          · intro u hu
            exact Or.inl (goto_pc_of_ne s _ hu)
          · rintro - ⟨u, hu⟩
            exact absurd hu (hnone u)
          · simp
          · simp [hpc]
          · exact fun _ => ⟨rfl, rfl⟩
      | some u =>
          simp only [step, Option.ite_none_right_eq_some,
            Option.some.injEq] at hstep
          obtain ⟨⟨hpc, hu⟩, rfl⟩ := hstep
          have hut : u ≠ t := by
            rintro rfl
            simp [hpc] at hu
          refine ⟨t, ?_, ?_, ?_, ?_, ?_, ?_⟩
          · simpa [hpc] using Move.wake s.word
          · intro v hv
            rw [goto_pc_of_ne _ _ hv]
            by_cases hvu : v = u
            · subst hvu
              exact Or.inr ⟨hu, goto_pc_self s v _⟩
            · exact Or.inl (goto_pc_of_ne s _ hvu)
          · intro _ _
            exact ⟨u, by rw [goto_pc_of_ne _ _ hut]; exact goto_pc_self s u _⟩
          · simp
          · simp [hpc]
          · exact fun _ => ⟨rfl, rfl⟩

end Mutex
end OsFifthSem
