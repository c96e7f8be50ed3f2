import OsFifthSem.Threads.Coroutine.Scheduling

/-!
# Running the scheduler again

When the queue is empty `scheduler_routine` frees the stack it runs on and
switches to `main_ctx`, which makes `run_scheduler` return.  The context that
it saves there goes on behind that switch, with the null pointer that the queue
gave.  A later call of `run_scheduler` resumes this context.
-/

namespace OsFifthSem
namespace Coroutine

open Support

universe u

variable {R : Type u}

/-- `create_coroutine` is called for these routines after `run_scheduler` has
returned, and then `run_scheduler` again. -/
def Machine.runAgain (m : Machine R) (routines : List R) :
    Option (Machine R) :=
  (routines.foldlM Machine.createCoroutine m).map fun m' =>
    { m' with control := .runScheduler }

/-- The machine `m` begins the call number `k` of `run_scheduler` on one
scheduler, and `old` coroutines were created before the call number `k - 1`
returned. -/
inductive Round (code : Routines R) (tid : ℕ) (map : CoroMap) :
    ℕ → ℕ → Machine R → Prop
  | first {routines : List R} {m : Machine R}
      (hstart : start map routines = some m) : Round code tid map 1 0 m
  | again {k old n : ℕ} {routines : List R} {m m' : Machine R}
      (hround : Round code tid map k old m)
      (hreturned : Returned (after code tid m n))
      (hagain : (after code tid m n).runAgain routines = some m') :
      Round code tid map (k + 1) (after code tid m n).coros.length m'

/-- Control is in `scheduler_routine`. -/
def Control.inScheduler : Control R → Bool
  | .schedulerRoutine | .switchTo _ | .noCoroutine | .stackFreed => true
  | _ => false

/-- `scheduler_routine` runs on a stack that has been freed. -/
def Machine.OnFreedStack (m : Machine R) : Prop :=
  m.control.inScheduler = true ∧ m.stack = false

/-- A call of `run_scheduler` schedules the coroutines that were pushed for it
round robin, runs no segment of an older one, and has a stack. -/
structure RunsRound (code : Routines R) (tid old : ℕ) (m : Machine R) :
    Prop where
  scheduled : Scheduled code tid m
  onlyNew : ∀ n, ∃ new, (after code tid m n).trace = m.trace ++ new ∧
    ∀ x ∈ new, old ≤ x.1
  onStack : ∀ n, ¬(after code tid m n).OnFreedStack

/-! ## The stack of the scheduler -/

/-- `free(scheduler->context.stack)` has been called, and no other coroutine
taken. -/
def Control.behindLoop : Control R → Bool
  | .stackFreed | .returned => true
  | _ => false

/-- No context but `main_ctx` goes on in `run_scheduler`, and behind
`free(scheduler->context.stack)` the stack is freed. -/
structure FreedOnReturn (m : Machine R) : Prop where
  context : m.context ≠ .runScheduler
  coros : ∀ co ∈ m.coros, co.context ≠ .runScheduler
  freed : m.control.behindLoop = true → m.stack = false

/-- A step that keeps this, and from where it returns. -/
structure FreedOnReturn.Next (m m' : Machine R) : Prop where
  kept : FreedOnReturn m'
  returned : Returned m' → m.control.behindLoop = true

variable {code : Routines R} {tid : ℕ} {map : CoroMap} {m m' : Machine R}

theorem resume_behindLoop
    {p : ResumePoint} (hp : p ≠ .runScheduler) :
    (Machine.resume p : Control R).behindLoop = false := by
  cases p <;> simp_all [Machine.resume, Control.behindLoop]

theorem FreedOnReturn.toScheduler_behindLoop (h : FreedOnReturn m) :
    m.toScheduler.behindLoop = false := by
  unfold Machine.toScheduler
  split
  · exact resume_behindLoop h.context
  · rfl

theorem FreedOnReturn.Next.of_kept
    (h : FreedOnReturn m') (hcontrol : m'.control.behindLoop = false) :
    Next m m' where
  kept := h
  returned := fun hreturned => by
    unfold Returned at hreturned
    rw [hreturned] at hcontrol
    cases hcontrol

/-- Control goes on elsewhere. -/
theorem FreedOnReturn.of_control
    (h : FreedOnReturn m) (hcontext : m'.context = m.context)
    (hcoros : m'.coros = m.coros) (hcontrol : m'.control.behindLoop = false) :
    FreedOnReturn m' where
  context := hcontext ▸ h.context
  coros := hcoros ▸ h.coros
  freed := fun hbehind => by simp [hcontrol] at hbehind

theorem FreedOnReturn.set
    {c : ℕ} {co : Coro R} (h : FreedOnReturn m)
    (hco : co.context ≠ .runScheduler) (hcontext : m'.context = m.context)
    (hcoros : m'.coros = m.coros.set c co)
    (hcontrol : m'.control.behindLoop = false) : FreedOnReturn m' where
  context := hcontext ▸ h.context
  coros := by
    rw [hcoros]
    intro co' hco'
    rcases List.mem_or_eq_of_mem_set hco' with hmem | rfl
    · exact h.coros co' hmem
    · exact hco
  freed := fun hbehind => by simp [hcontrol] at hbehind

theorem FreedOnReturn.createCoroutine
    {routine : R} (h : FreedOnReturn m)
    (hcreate : m.createCoroutine routine = some m') :
    FreedOnReturn m' ∧ m'.stack = m.stack ∧ m'.control = m.control := by
  obtain ⟨queue, -, rfl⟩ := Option.map_eq_some_iff.mp hcreate
  refine ⟨⟨h.context, fun co hco => ?_, h.freed⟩, rfl, rfl⟩
  rcases List.mem_append.mp hco with hmem | hnew
  · exact h.coros co hmem
  · obtain rfl := List.mem_singleton.mp hnew
    simp

theorem FreedOnReturn.step (h : FreedOnReturn m) :
    Next m (m.step code tid) := by
  have hgoto : ∀ {m' : Machine R}, m'.context = m.context →
      m'.coros = m.coros → m'.control.behindLoop = false → Next m m' :=
    fun hcontext hcoros hcontrol =>
      .of_kept (h.of_control hcontext hcoros hcontrol) hcontrol
  have hfaulty : Next m m.faulty := hgoto rfl rfl rfl
  unfold Machine.step
  split
  next => exact hgoto rfl rfl h.toScheduler_behindLoop
  next =>
    split
    · exact hfaulty
    · split
      · exact hfaulty
      · exact hgoto rfl rfl rfl
      · exact hgoto rfl rfl rfl
  next coro _ =>
    split
    · exact hfaulty
    · next co hco =>
        have hne : co.context ≠ .runScheduler :=
          h.coros co (List.mem_of_getElem? hco)
        have hgo : (if co.stack then Machine.resume co.context
            else (.fault : Control R)).behindLoop = false := by
          split
          · exact resume_behindLoop hne
          · rfl
        exact .of_kept ⟨by simp, h.coros, fun hbehind => by
          rw [hgo] at hbehind
          cases hbehind⟩ hgo
  next =>
    split
    · exact ⟨⟨h.context, h.coros, fun _ => rfl⟩, by simp [Returned]⟩
    · exact hfaulty
  next hcontrol =>
    split
    · exact hfaulty
    · have hbehind : m.control.behindLoop = true := by rw [hcontrol]; rfl
      exact ⟨⟨by simp, h.coros, fun _ => h.freed hbehind⟩, fun _ => hbehind⟩
  next => exact hgoto rfl rfl rfl
  next =>
    split
    · exact hfaulty
    · exact hgoto rfl rfl rfl
  next coro k routine todo hcontrol =>
    split
    · exact hfaulty
    · next m₁ hcreate =>
        exact .of_kept ((h.createCoroutine hcreate).1.of_control rfl rfl rfl) rfl
  next coro k _ =>
    split
    · exact hfaulty
    · refine hgoto rfl rfl ?_
      dsimp only
      split <;> rfl
  next coro k _ =>
    split
    · exact hfaulty
    · split
      · exact .of_kept (h.set (by simp) rfl rfl h.toScheduler_behindLoop)
          h.toScheduler_behindLoop
      · exact hfaulty
  next coro _ =>
    split
    · exact hfaulty
    · next co hco =>
        split
        · have hne : ({ co with stack := false } : Coro R).context ≠
              .runScheduler := h.coros co (List.mem_of_getElem? hco)
          exact .of_kept (h.set hne rfl rfl rfl) rfl
        · exact hfaulty
  next coro _ =>
    split
    · exact hfaulty
    · exact .of_kept (h.set (by simp) rfl rfl h.toScheduler_behindLoop)
        h.toScheduler_behindLoop
  next hcontrol => exact ⟨h, fun _ => by rw [hcontrol]; rfl⟩
  next hcontrol => exact .of_kept h (by rw [hcontrol]; rfl)

theorem FreedOnReturn.after (h : FreedOnReturn m) (n : ℕ) :
    FreedOnReturn (after code tid m n) := by
  induction n with
  | zero => exact h
  | succ n ih =>
      rw [after_succ]
      exact ih.step.kept

/-- A call that returns has passed `free(scheduler->context.stack)` and was
then still on that stack. -/
theorem FreedOnReturn.exists_onFreedStack
    (h : FreedOnReturn m) (hcontrol : m.control = .runScheduler) {n : ℕ}
    (hreturned : Returned (Coroutine.after code tid m n)) :
    ∃ i, (Coroutine.after code tid m i).OnFreedStack := by
  induction n with
  | zero =>
      have hthere : m.control = .returned := hreturned
      rw [hcontrol] at hthere
      cases hthere
  | succ n ih =>
      rw [after_succ] at hreturned
      have hn : FreedOnReturn (Coroutine.after code tid m n) := h.after n
      have hbehind := hn.step.returned hreturned
      cases hat : (Coroutine.after code tid m n).control with
      | stackFreed =>
          refine ⟨n, ?_, hn.freed hbehind⟩
          rw [hat]
          rfl
      | returned => exact ih hat
      | _ =>
          rw [hat] at hbehind
          cases hbehind

theorem FreedOnReturn.foldlM
    {routines : List R} (h : FreedOnReturn m)
    (hcreate : routines.foldlM Machine.createCoroutine m = some m') :
    FreedOnReturn m' ∧ m'.stack = m.stack ∧ m'.control = m.control := by
  induction routines generalizing m with
  | nil =>
      obtain rfl : m = m' := Option.some.inj hcreate
      exact ⟨h, rfl, rfl⟩
  | cons routine routines ih =>
      rw [List.foldlM_cons] at hcreate
      obtain ⟨m₁, hone, hrest⟩ := Option.bind_eq_some_iff.mp hcreate
      obtain ⟨h₁, hstack₁, hcontrol₁⟩ := h.createCoroutine hone
      obtain ⟨h', hstack', hcontrol'⟩ := ih h₁ hrest
      exact ⟨h', hstack'.trans hstack₁, hcontrol'.trans hcontrol₁⟩

theorem FreedOnReturn.runAgain
    {routines : List R} (h : FreedOnReturn m) (hreturned : Returned m)
    (hagain : m.runAgain routines = some m') :
    FreedOnReturn m' ∧ m'.control = .runScheduler ∧ m'.stack = false := by
  obtain ⟨m₁, hcreate, rfl⟩ := Option.map_eq_some_iff.mp hagain
  obtain ⟨h₁, hstack, -⟩ := h.foldlM hcreate
  have hbehind : m.control.behindLoop = true := by
    rw [show m.control = .returned from hreturned]
    rfl
  exact ⟨h₁.of_control rfl rfl rfl, rfl, hstack.trans (h.freed hbehind)⟩

/-- `create_coroutine` succeeds whatever the scheduler has done before. -/
theorem exists_runAgain
    {xs coros : List ℕ} (hl : m.queue.Lists xs coros) (routines : List R) :
    ∃ m', m.runAgain routines = some m' := by
  suffices h : ∃ m', routines.foldlM Machine.createCoroutine m = some m' by
    obtain ⟨m', hm'⟩ := h
    exact ⟨_, by rw [Machine.runAgain, hm', Option.map_some]⟩
  induction routines generalizing m xs coros with
  | nil => exact ⟨m, rfl⟩
  | cons routine routines ih =>
      obtain ⟨q, hpush, -, hl'⟩ := hl.push m.coros.length
      rw [List.foldlM_cons, Machine.createCoroutine, hpush]
      exact ih hl'

/-! ## Rounds -/

/-- Each call of `run_scheduler` is the first one on its scheduler or finds the
stack of the scheduler freed. -/
theorem Round.first_or_freed
    {k old : ℕ} (h : Round code tid map k old m) :
    FreedOnReturn m ∧ m.control = .runScheduler ∧
      ((∃ routines, start map routines = some m) ∨ m.stack = false) := by
  induction h with
  | first hstart =>
      have hinit : FreedOnReturn (createScheduler map : Machine R) :=
        ⟨by simp [createScheduler], by simp [createScheduler],
          fun hbehind => by cases hbehind⟩
      obtain ⟨h', -, hcontrol⟩ := hinit.foldlM hstart
      exact ⟨h', hcontrol, Or.inl ⟨_, hstart⟩⟩
  | again hround hreturned hagain ih =>
      obtain ⟨h', hcontrol, hstack⟩ := (ih.1.after _).runAgain hreturned hagain
      exact ⟨h', hcontrol, Or.inr hstack⟩

/-- Resuming the scheduler on its freed stack. -/
theorem fault_of_freed
    (hcontrol : m.control = .runScheduler) (hstack : m.stack = false) (n : ℕ) :
    (after code tid m (n + 1)).control = .fault := by
  induction n with
  | zero => simp [after, Machine.step, hcontrol, Machine.toScheduler, hstack]
  | succ n ih => rw [after_succ, Machine.step, ih, ih]

/-- Only a first call returns. -/
theorem Round.exists_start
    {k old n : ℕ} (h : Round code tid map k old m)
    (hreturned : Returned (after code tid m n)) :
    ∃ routines, start map routines = some m := by
  obtain ⟨-, hcontrol, hfirst⟩ := h.first_or_freed
  refine hfirst.resolve_right fun hstack => ?_
  unfold Returned at hreturned
  cases n with
  | zero =>
      rw [show (after code tid m 0).control = .runScheduler from hcontrol]
        at hreturned
      cases hreturned
  | succ n =>
      rw [fault_of_freed hcontrol hstack n] at hreturned
      cases hreturned

/-- A call of `run_scheduler` that returns has run `scheduler_routine` on its
freed stack, and the call that follows it does not run what is pushed for it,
whatever that is. -/
theorem not_runsRound_of_returned
    (code : Routines R) (tid : ℕ) (map : CoroMap) {k old n : ℕ}
    {m : Machine R} (hround : Round code tid map k old m)
    (hreturned : Returned (after code tid m n)) (routines : List R) :
    ¬RunsRound code tid old m ∧
      ∃ m', (after code tid m n).runAgain routines = some m' ∧
        ¬RunsRound code tid (after code tid m n).coros.length m' := by
  obtain ⟨hfreed, hcontrol, -⟩ := hround.first_or_freed
  obtain ⟨routines₀, hstart⟩ := hround.exists_start hreturned
  obtain ⟨i, hi⟩ := hfreed.exists_onFreedStack hcontrol hreturned
  refine ⟨fun hruns => hruns.onStack i hi, ?_⟩
  obtain ⟨m₀, hstart₀, hsim⟩ := start_sim code tid map routines₀
  obtain rfl : m₀ = m := Option.some.inj (hstart₀.symm.trans hstart)
  obtain ⟨j, hj⟩ := (stutterSim code tid).follows hsim n
  obtain ⟨xs, coros, hl, -⟩ := hj.queue
  obtain ⟨m', hagain⟩ := exists_runAgain hl routines
  obtain ⟨-, hcontrol', hstack'⟩ := (hfreed.after n).runAgain hreturned hagain
  exact ⟨m', hagain, fun hruns =>
    hruns.scheduled.noFault 1 (fault_of_freed hcontrol' hstack' 0)⟩

/-- Routines that do nothing. -/
def idleRoutines : Routines Unit := ⟨fun _ => 0, fun _ _ => []⟩

theorem not_runsRound_of_returned_second :
    ∃ m : Machine Unit,
      Round idleRoutines 7 (coroMapCreate mapCapacity) 1 0 m ∧
      ¬RunsRound idleRoutines 7 0 m ∧
      ∃ m', (after idleRoutines 7 m 11).runAgain [()] = some m' ∧
        ¬RunsRound idleRoutines 7
          (after idleRoutines 7 m 11).coros.length m' := by
  obtain ⟨m, hstart, hreturned⟩ :
      ∃ m, start (coroMapCreate mapCapacity) [()] = some m ∧
        Returned (after idleRoutines 7 m 11) := ⟨_, rfl, rfl⟩
  exact ⟨m, .first hstart,
    not_runsRound_of_returned idleRoutines 7 _ (.first hstart) hreturned [()]⟩

/-- The first call is on its freed stack when it switches to `main_ctx`, and
the second one resumes this stack. -/
theorem not_runsRound_second :
    ∃ m m' : Machine Unit,
      Round idleRoutines 7 (coroMapCreate mapCapacity) 1 0 m ∧
      (after idleRoutines 7 m 10).OnFreedStack ∧
      ¬RunsRound idleRoutines 7 0 m ∧
      Round idleRoutines 7 (coroMapCreate mapCapacity) 2 1 m' ∧
      (after idleRoutines 7 m' 1).control = .fault ∧
      ¬RunsRound idleRoutines 7 1 m' := by
  obtain ⟨m, m', hstart, hreturned, hfreed, hlength, hagain, hfault⟩ :
      ∃ m m', start (coroMapCreate mapCapacity) [()] = some m ∧
        Returned (after idleRoutines 7 m 11) ∧
        (after idleRoutines 7 m 10).OnFreedStack ∧
        (after idleRoutines 7 m 11).coros.length = 1 ∧
        (after idleRoutines 7 m 11).runAgain [()] = some m' ∧
        (after idleRoutines 7 m' 1).control = .fault :=
    ⟨_, _, rfl, rfl, ⟨rfl, rfl⟩, rfl, rfl, rfl⟩
  have hround := Round.again (.first hstart) hreturned hagain
  rw [hlength] at hround
  exact ⟨m, m', .first hstart, hfreed, fun hruns => hruns.onStack 10 hfreed,
    hround, hfault, fun hruns => hruns.scheduled.noFault 1 hfault⟩

end Coroutine
end OsFifthSem
