import OsFifthSem.Support.Stutter
import OsFifthSem.Threads.Coroutine.Machine

/-!
# The scheduler is a round robin

Each state of the machine stands for a state of the round robin over the same
routines.  A coroutine that was taken from the queue counts as the head of the
round robin's queue until its segment begins.  The switches of context, the
bookkeeping in the map and the search of the queue are stutters.
-/

namespace OsFifthSem
namespace Coroutine

open Support

universe u

variable {R : Type u}

/-- The round robin over the routines. -/
def Routines.program (code : Routines R) : RoundRobin.Program R where
  lastTurn := code.yeilds
  starts := code.creates

/-- Where a coroutine in the queue goes on: its wrapper before its first
segment, the `yeild` behind the segment before otherwise. -/
def contextOf (coro : ℕ) : ℕ → ResumePoint
  | 0 => .coroutineWrapper coro
  | k + 1 => .yeild coro k

/-- Control is in a coroutine that the map knows to be the running one. -/
structure InCoroutine (tid : ℕ) (m : Machine R) (coro : ℕ) : Prop where
  context : m.context = .schedulerLoop
  stack : m.stack = true
  mainCtx : m.mainCtx = some .runScheduler
  running : m.map.get tid = some coro

/-- The stack of the coroutine is allocated. -/
def OnStack (m : Machine R) (coro : ℕ) : Prop :=
  ∃ co, m.coros[coro]? = some co ∧ co.stack = true

/-- What holds where control is. -/
def Controlled (code : Routines R) (tid : ℕ) (m : Machine R)
    (s : RoundRobin.State R) : Prop :=
  match m.control with
  | .runScheduler =>
      s.running = none ∧ m.context = .schedulerRoutine ∧ m.stack = true
  | .schedulerRoutine =>
      s.running = none ∧ m.stack = true ∧ m.mainCtx = some .runScheduler
  | .switchTo _ =>
      s.running = none ∧ m.stack = true ∧ m.mainCtx = some .runScheduler
  | .noCoroutine =>
      s.running = none ∧ s.queue = [] ∧ m.stack = true ∧
        m.mainCtx = some .runScheduler
  | .stackFreed =>
      s.running = none ∧ s.queue = [] ∧ m.mainCtx = some .runScheduler
  | .coroutineWrapper coro =>
      s.running = none ∧ InCoroutine tid m coro ∧
        ∃ kind rest, s.queue = ⟨coro, kind, 0⟩ :: rest
  | .userRoutine coro k =>
      s.running = none ∧ InCoroutine tid m coro ∧
        ∃ kind rest, s.queue = ⟨coro, kind, k⟩ :: rest
  | .segment coro k todo =>
      InCoroutine tid m coro ∧ OnStack m coro ∧
        ∃ kind, s.running = some (⟨coro, kind, k⟩, todo)
  | .yeild coro k =>
      InCoroutine tid m coro ∧ OnStack m coro ∧
        ∃ kind, s.running = some (⟨coro, kind, k⟩, []) ∧ k < code.yeilds kind
  | .finish coro =>
      InCoroutine tid m coro ∧ OnStack m coro ∧
        ∃ kind k, s.running = some (⟨coro, kind, k⟩, []) ∧
          code.yeilds kind ≤ k
  | .finishFreed coro =>
      InCoroutine tid m coro ∧
        ∃ kind k, s.running = some (⟨coro, kind, k⟩, []) ∧
          code.yeilds kind ≤ k
  | .returned => s.running = none ∧ s.queue = []
  | .fault => False

/-- The coroutines of the machine are the jobs of the round robin. -/
structure SameCoros (coros : List (Coro R)) (s : RoundRobin.State R) :
    Prop where
  routines : coros.map Coro.userRoutine = s.jobs
  queued : ∀ e ∈ s.queue, ∃ co, coros[e.job]? = some co ∧
    co.stack = true ∧ co.context = contextOf e.job e.turn
  running : ∀ e todo, s.running = some (e, todo) →
    ∃ co, coros[e.job]? = some co ∧ co.context ≠ .finish e.job
  finished : ∀ c co, coros[c]? = some co → c ∉ s.active →
    co.context = .finish c

/-- The machine stands for a state of the round robin. -/
structure Sim (code : Routines R) (tid : ℕ) (m : Machine R)
    (s : RoundRobin.State R) : Prop where
  inv : RoundRobin.Inv code.program s
  coros : SameCoros m.coros s
  trace : m.trace = s.turns
  pushed : m.queue.pushed = s.entered
  queue : ∃ xs coros, m.queue.Lists xs coros ∧
    s.waiting = m.control.taken ++ coros
  notDone : m.isDone = false
  controlled : Controlled code tid m s

variable {code : Routines R} {tid : ℕ} {m : Machine R}
  {s : RoundRobin.State R}

/-- The number of stutters before the next step of the round robin, at most. -/
def Control.rank : Control R → ℕ
  | .runScheduler => 7
  | .schedulerRoutine => 6
  | .switchTo _ => 5
  | .coroutineWrapper _ => 4
  | .userRoutine _ _ => 3
  | .segment _ _ _ | .noCoroutine => 2
  | .finish _ | .stackFreed => 1
  | .yeild _ _ | .finishFreed _ | .returned | .fault => 0

/-- `run_scheduler` has returned. -/
def Returned (m : Machine R) : Prop := m.control = .returned

/-! ## Facts about related states -/

/-- What the running segment is still to create does not matter. -/
theorem SameCoros.todo
    {coros : List (Coro R)} {e : RoundRobin.Turn R} {todo : List R}
    (h : SameCoros coros s) (hrun : s.running = some (e, todo))
    (todo' : List R) :
    SameCoros coros { s with running := some (e, todo') } where
  routines := h.routines
  queued := h.queued
  running := by
    intro f todo'' heq
    simp only [Option.some.injEq, Prod.mk.injEq] at heq
    obtain ⟨rfl, -⟩ := heq
    exact h.running e todo hrun
  finished := by
    intro c co hco hc
    have hactive : ({ s with running := some (e, todo') } :
        RoundRobin.State R).active = s.active :=
      RoundRobin.State.active_todo hrun rfl rfl
    exact h.finished c co hco (hactive ▸ hc)

theorem map_set_of_eq
    {α β : Type*} {f : α → β} {l : List α} {i : ℕ} {a b : α}
    (ha : l[i]? = some a) (hf : f b = f a) :
    (l.set i b).map f = l.map f := by
  obtain ⟨hlt, rfl⟩ := List.getElem?_eq_some_iff.mp ha
  have hlt' : i < (l.map f).length := by simpa using hlt
  have hget : f b = (l.map f)[i] := by rw [hf, List.getElem_map]
  rw [List.map_set, hget, List.set_getElem_self]

namespace Sim

theorem length_eq (h : Sim code tid m s) : m.coros.length = s.jobs.length := by
  rw [← h.coros.routines, List.length_map]

theorem userRoutine_eq
    {c : ℕ} {kind : R} {co : Coro R} (h : Sim code tid m s)
    (hkind : s.jobs[c]? = some kind) (hco : m.coros[c]? = some co) :
    co.userRoutine = kind := by
  rw [← h.coros.routines, List.getElem?_map, hco] at hkind
  exact Option.some.inj hkind

/-- The coroutine that runs next or now. -/
theorem exists_head
    {c k : ℕ} {kind : R} {rest : List (RoundRobin.Turn R)}
    (h : Sim code tid m s) (hqueue : s.queue = ⟨c, kind, k⟩ :: rest) :
    ∃ co, m.coros[c]? = some co ∧ co.userRoutine = kind ∧ co.stack = true ∧
      co.context = contextOf c k := by
  obtain ⟨co, hco, hstack, hcontext⟩ :=
    h.coros.queued ⟨c, kind, k⟩ (by simp [hqueue])
  have hdue := h.inv.queued ⟨c, kind, k⟩ (by simp [hqueue])
  exact ⟨co, hco, h.userRoutine_eq hdue.kind hco, hstack, hcontext⟩

theorem exists_running
    {c k : ℕ} {kind : R} {todo : List R} (h : Sim code tid m s)
    (hrun : s.running = some (⟨c, kind, k⟩, todo)) :
    ∃ co, m.coros[c]? = some co ∧ co.userRoutine = kind := by
  obtain ⟨co, hco, -⟩ := h.coros.running _ _ hrun
  have hdue := h.inv.running _ _ hrun
  exact ⟨co, hco, h.userRoutine_eq hdue.kind hco⟩

/-- A stutter that changes neither the queue nor the coroutines. -/
theorem goto
    {m' : Machine R} (h : Sim code tid m s) (hcoros : m'.coros = m.coros)
    (hqueue : m'.queue = m.queue) (htrace : m'.trace = m.trace)
    (hdone : m'.isDone = m.isDone)
    (htaken : m'.control.taken = m.control.taken)
    (hcontrolled : Controlled code tid m' s) : Sim code tid m' s where
  inv := h.inv
  coros := hcoros ▸ h.coros
  trace := htrace.trans h.trace
  pushed := by
    rw [hqueue]
    exact h.pushed
  queue := by
    rw [hqueue, htaken]
    exact h.queue
  notDone := hdone.trans h.notDone
  controlled := hcontrolled

/-! ## Stutters -/

/-- The step of the machine cannot be seen in the round robin. -/
def Stutters (code : Routines R) (tid : ℕ) (m : Machine R)
    (s : RoundRobin.State R) : Prop :=
  Sim code tid (m.step code tid) s ∧
    (m.step code tid).control.rank < m.control.rank

theorem runScheduler
    (h : Sim code tid m s) (hcontrol : m.control = .runScheduler) :
    Stutters code tid m s := by
  have hc := h.controlled
  simp only [Controlled, hcontrol] at hc
  obtain ⟨hidle, hcontext, hstack⟩ := hc
  have hstep : m.step code tid =
      { m with mainCtx := some .runScheduler, control := .schedulerRoutine } := by
    simp [Machine.step, hcontrol, Machine.toScheduler, hstack, hcontext,
      Machine.resume]
  rw [Stutters, hstep, hcontrol]
  refine ⟨h.goto rfl rfl rfl rfl ?_ ⟨hidle, hstack, rfl⟩,
    by simp [Control.rank]⟩
  rw [hcontrol]
  rfl

theorem schedulerRoutine
    (h : Sim code tid m s) (hcontrol : m.control = .schedulerRoutine) :
    Stutters code tid m s := by
  have hc := h.controlled
  simp only [Controlled, hcontrol] at hc
  obtain ⟨hidle, hstack, hmain⟩ := hc
  obtain ⟨xs, coros, hl, hwaiting⟩ := h.queue
  rw [hcontrol] at hwaiting
  cases coros with
  | nil =>
      have hstep : m.step code tid = { m with control := .noCoroutine } := by
        simp [Machine.step, hcontrol, h.notDone, hl.pop_nil]
      have hempty : s.queue = [] := by
        simpa [RoundRobin.State.waiting, Control.taken] using hwaiting
      rw [Stutters, hstep, hcontrol]
      refine ⟨h.goto rfl rfl rfl rfl ?_ ⟨hidle, hempty, hstack, hmain⟩,
        by simp [Control.rank]⟩
      rw [hcontrol]
      rfl
  | cons c coros =>
      obtain ⟨q, xs', hpop, hpushed, hl'⟩ := hl.pop_cons
      have hstep : m.step code tid =
          { m with queue := q, control := .switchTo c } := by
        simp [Machine.step, hcontrol, h.notDone, hpop]
      rw [Stutters, hstep, hcontrol]
      refine ⟨⟨h.inv, h.coros, h.trace, hpushed.trans h.pushed,
        ⟨xs', coros, hl', hwaiting⟩, h.notDone, hidle, hstack, hmain⟩, ?_⟩
      simp [Control.rank]

theorem switchTo
    {c : ℕ} (h : Sim code tid m s) (hcontrol : m.control = .switchTo c) :
    Stutters code tid m s := by
  have hc := h.controlled
  simp only [Controlled, hcontrol] at hc
  obtain ⟨hidle, hstack, hmain⟩ := hc
  obtain ⟨xs, coros, hl, hwaiting⟩ := h.queue
  rw [hcontrol] at hwaiting
  obtain ⟨⟨job, kind, k⟩, rest, hqueue, rfl, -⟩ :=
    List.map_eq_cons_iff.mp hwaiting
  obtain ⟨co, hco, -, hcoStack, hcontext⟩ := h.exists_head hqueue
  have hin : InCoroutine tid { m with
      map := m.map.add tid job, context := .schedulerLoop } job :=
    ⟨rfl, hstack, hmain, m.map.get_add tid job⟩
  cases k with
  | zero =>
      have hstep : m.step code tid = { m with
          map := m.map.add tid job
          context := .schedulerLoop
          control := .coroutineWrapper job } := by
        simp [Machine.step, hcontrol, hco, hcoStack, hcontext, contextOf,
          Machine.resume]
      rw [Stutters, hstep, hcontrol]
      refine ⟨h.goto rfl rfl rfl rfl ?_ ⟨hidle, ?_, kind, rest, hqueue⟩, ?_⟩
      · rw [hcontrol]
        rfl
      · exact ⟨hin.context, hin.stack, hin.mainCtx, hin.running⟩
      · simp [Control.rank]
  | succ k =>
      have hstep : m.step code tid = { m with
          map := m.map.add tid job
          context := .schedulerLoop
          control := .userRoutine job (k + 1) } := by
        simp [Machine.step, hcontrol, hco, hcoStack, hcontext, contextOf,
          Machine.resume]
      rw [Stutters, hstep, hcontrol]
      refine ⟨h.goto rfl rfl rfl rfl ?_ ⟨hidle, ?_, kind, rest, hqueue⟩, ?_⟩
      · rw [hcontrol]
        rfl
      · exact ⟨hin.context, hin.stack, hin.mainCtx, hin.running⟩
      · simp [Control.rank]

theorem noCoroutine
    (h : Sim code tid m s) (hcontrol : m.control = .noCoroutine) :
    Stutters code tid m s := by
  have hc := h.controlled
  simp only [Controlled, hcontrol] at hc
  obtain ⟨hidle, hempty, hstack, hmain⟩ := hc
  have hstep : m.step code tid =
      { m with stack := false, control := .stackFreed } := by
    simp [Machine.step, hcontrol, hstack]
  rw [Stutters, hstep, hcontrol]
  refine ⟨h.goto rfl rfl rfl rfl ?_ ⟨hidle, hempty, hmain⟩,
    by simp [Control.rank]⟩
  rw [hcontrol]
  rfl

/-- `run_scheduler` returns. -/
theorem stackFreed
    (h : Sim code tid m s) (hcontrol : m.control = .stackFreed) :
    Stutters code tid m s := by
  have hc := h.controlled
  simp only [Controlled, hcontrol] at hc
  obtain ⟨hidle, hempty, hmain⟩ := hc
  have hstep : m.step code tid =
      { m with context := .schedulerIdle, control := .returned } := by
    simp [Machine.step, hcontrol, hmain, Machine.resume]
  rw [Stutters, hstep, hcontrol]
  refine ⟨h.goto rfl rfl rfl rfl ?_ ⟨hidle, hempty⟩, by simp [Control.rank]⟩
  rw [hcontrol]
  rfl

theorem coroutineWrapper
    {c : ℕ} (h : Sim code tid m s)
    (hcontrol : m.control = .coroutineWrapper c) :
    Stutters code tid m s := by
  have hc := h.controlled
  simp only [Controlled, hcontrol] at hc
  obtain ⟨hidle, hin, hqueue⟩ := hc
  have hstep : m.step code tid = { m with control := .userRoutine c 0 } := by
    simp [Machine.step, hcontrol]
  rw [Stutters, hstep, hcontrol]
  refine ⟨h.goto rfl rfl rfl rfl ?_ ⟨hidle, ?_, hqueue⟩, by simp [Control.rank]⟩
  · rw [hcontrol]
    rfl
  · exact ⟨hin.context, hin.stack, hin.mainCtx, hin.running⟩

/-- The end of a segment. -/
theorem segment_nil
    {c k : ℕ} (h : Sim code tid m s) (hcontrol : m.control = .segment c k []) :
    Stutters code tid m s := by
  have hc := h.controlled
  simp only [Controlled, hcontrol] at hc
  obtain ⟨hin, hon, kind, hrun⟩ := hc
  obtain ⟨co, hco, rfl⟩ := h.exists_running hrun
  by_cases hlt : k < code.yeilds co.userRoutine
  · have hstep : m.step code tid = { m with control := .yeild c k } := by
      simp [Machine.step, hcontrol, hco, hlt]
    rw [Stutters, hstep, hcontrol]
    refine ⟨h.goto rfl rfl rfl rfl ?_ ⟨?_, hon, _, hrun, hlt⟩,
      by simp [Control.rank]⟩
    · rw [hcontrol]
      rfl
    · exact ⟨hin.context, hin.stack, hin.mainCtx, hin.running⟩
  · have hstep : m.step code tid = { m with control := .finish c } := by
      simp [Machine.step, hcontrol, hco, hlt]
    rw [Stutters, hstep, hcontrol]
    refine ⟨h.goto rfl rfl rfl rfl ?_ ⟨?_, hon, _, _, hrun, by omega⟩,
      by simp [Control.rank]⟩
    · rw [hcontrol]
      rfl
    · exact ⟨hin.context, hin.stack, hin.mainCtx, hin.running⟩

/-- `finish` frees the stack of the coroutine that runs. -/
theorem finish
    {c : ℕ} (h : Sim code tid m s) (hcontrol : m.control = .finish c) :
    Stutters code tid m s := by
  have hc := h.controlled
  simp only [Controlled, hcontrol] at hc
  obtain ⟨hin, ⟨co, hco, hstack⟩, kind, k, hrun, hlast⟩ := hc
  have hbound : c < m.coros.length := (List.getElem?_eq_some_iff.mp hco).1
  have hstep : m.step code tid = { m with
      coros := m.coros.set c { co with stack := false }
      control := .finishFreed c } := by
    simp [Machine.step, hcontrol, hco, hstack]
  rw [Stutters, hstep, hcontrol]
  refine ⟨⟨h.inv, ⟨?_, ?_, ?_, ?_⟩, h.trace, h.pushed, ?_, h.notDone, ?_⟩,
    by simp [Control.rank]⟩
  · rw [← h.coros.routines]
    exact map_set_of_eq hco rfl
  · intro e he
    have hne : c ≠ e.job := (h.inv.running_not_queued hrun he).symm
    rw [List.getElem?_set_ne hne]
    exact h.coros.queued e he
  · intro e todo hrun'
    obtain ⟨rfl, -⟩ := Prod.mk.inj (Option.some.inj (hrun.symm.trans hrun'))
    obtain ⟨co', hco', hne⟩ := h.coros.running _ _ hrun
    obtain rfl := Option.some.inj (hco.symm.trans hco')
    exact ⟨_, List.getElem?_set_self hbound, hne⟩
  · intro c' co' hco' hc'
    have hne : c ≠ c' := by
      rintro rfl
      exact hc' (RoundRobin.State.mem_active_iff.mpr (Or.inr ⟨_, _, hrun, rfl⟩))
    rw [List.getElem?_set_ne hne] at hco'
    exact h.coros.finished c' co' hco' hc'
  · have hqueue := h.queue
    rw [hcontrol] at hqueue
    exact hqueue
  · exact ⟨⟨hin.context, hin.stack, hin.mainCtx, hin.running⟩, _, _, hrun, hlast⟩

/-! ## Creation -/

/-- `m'` is `m` with one more coroutine. -/
structure Created (m m' : Machine R) (s : RoundRobin.State R) (routine : R) :
    Prop where
  coros : SameCoros m'.coros (s.start routine)
  pushed : m'.queue.pushed = (s.start routine).entered
  queue : ∃ xs coros, m'.queue.Lists xs coros ∧
    (s.start routine).waiting = m.control.taken ++ coros
  trace : m'.trace = m.trace
  map : m'.map = m.map
  context : m'.context = m.context
  stack : m'.stack = m.stack
  isDone : m'.isDone = m.isDone
  mainCtx : m'.mainCtx = m.mainCtx
  control : m'.control = m.control
  onStack : ∀ {coro}, OnStack m coro → OnStack m' coro

theorem createCoroutine (h : Sim code tid m s) (routine : R) :
    ∃ m', m.createCoroutine routine = some m' ∧ Created m m' s routine := by
  obtain ⟨xs, coros, hl, hwaiting⟩ := h.queue
  obtain ⟨q, hpush, hpushed, hl'⟩ := hl.push m.coros.length
  have hlen := h.length_eq
  have hold : ∀ {j : ℕ} {co : Coro R}, m.coros[j]? = some co →
      (m.coros ++ [⟨routine, .coroutineWrapper m.coros.length, true⟩])[j]? =
        some co := by
    intro j co hco
    have hlt : j < m.coros.length := (List.getElem?_eq_some_iff.mp hco).1
    rwa [List.getElem?_append_left hlt]
  refine ⟨_, by simp only [Machine.createCoroutine, hpush, Option.map_some]; rfl,
    ?_⟩
  refine ⟨⟨?_, ?_, ?_, ?_⟩, ?_, ?_, rfl, rfl, rfl, rfl, rfl, rfl, rfl,
    fun ⟨co, hco, hstack⟩ => ⟨co, hold hco, hstack⟩⟩
  · simp [RoundRobin.State.start, h.coros.routines]
  · intro e he
    rcases List.mem_append.mp he with he | he
    · obtain ⟨co, hco, hfacts⟩ := h.coros.queued e he
      exact ⟨co, hold hco, hfacts⟩
    · obtain rfl := List.mem_singleton.mp he
      refine ⟨⟨routine, .coroutineWrapper m.coros.length, true⟩, ?_, rfl, ?_⟩
      · simp only
        rw [← hlen, List.getElem?_concat_length]
      · rw [hlen]
        rfl
  · intro e todo hrun
    obtain ⟨co, hco, hfacts⟩ := h.coros.running e todo hrun
    exact ⟨co, hold hco, hfacts⟩
  · intro c co hco hc
    rw [(s.active_start routine).mem_iff, List.mem_cons, not_or] at hc
    have hlt : c < m.coros.length := by
      have hlt' := (List.getElem?_eq_some_iff.mp hco).1
      simp only [List.length_append, List.length_singleton] at hlt'
      omega
    rw [List.getElem?_append_left hlt] at hco
    exact h.coros.finished c co hco hc.2
  · simp only [RoundRobin.State.start]
    rw [hpushed, h.pushed, hlen]
  · refine ⟨_, _, hl', ?_⟩
    simp only [RoundRobin.State.waiting, RoundRobin.State.start,
      List.map_append, List.map_cons, List.map_nil] at hwaiting ⊢
    rw [hwaiting, hlen, List.append_assoc]

/-! ## Steps of the round robin -/

/-- The step of the machine is the step of the round robin. -/
def Moves (code : Routines R) (tid : ℕ) (m : Machine R)
    (s : RoundRobin.State R) : Prop :=
  Sim code tid (m.step code tid) (RoundRobin.step code.program s) ∧
    RoundRobin.step code.program s ≠ s

/-- A segment begins: the round robin gives the head of its queue a turn. -/
theorem userRoutine
    {c k : ℕ} (h : Sim code tid m s) (hcontrol : m.control = .userRoutine c k) :
    Moves code tid m s := by
  have hc := h.controlled
  simp only [Controlled, hcontrol] at hc
  obtain ⟨hidle, hin, kind, rest, hqueue⟩ := hc
  obtain ⟨co, hco, rfl, hstack, hcontext⟩ := h.exists_head hqueue
  have hinv := RoundRobin.step_inv h.inv
  have hstep : m.step code tid = { m with
      trace := m.trace ++ [(c, k)]
      control := .segment c k (code.creates co.userRoutine k) } := by
    simp [Machine.step, hcontrol, hco]
  have hmove : RoundRobin.step code.program s = { s with
      queue := rest
      running := some (⟨c, co.userRoutine, k⟩, code.creates co.userRoutine k)
      turns := s.turns ++ [(c, k)] } := by
    simp [RoundRobin.step, hidle, hqueue, Routines.program]
  unfold Moves
  rw [hstep, hmove]
  rw [hmove] at hinv
  constructor
  · refine ⟨hinv, ⟨h.coros.routines, ?_, ?_, ?_⟩, ?_, h.pushed, ?_, h.notDone,
      ?_⟩
    · intro e he
      exact h.coros.queued e (by simp [hqueue, he])
    · intro e todo hrun
      simp only [Option.some.injEq, Prod.mk.injEq] at hrun
      obtain ⟨rfl, -⟩ := hrun
      refine ⟨co, hco, ?_⟩
      rw [hcontext]
      cases k <;> simp [contextOf]
    · intro c' co' hco' hc'
      apply h.coros.finished c' co' hco'
      refine fun hmem => hc' ((List.Perm.mem_iff ?_).mpr hmem)
      exact RoundRobin.State.active_dispatch hidle hqueue rfl rfl
    · simp [h.trace]
    · obtain ⟨xs, coros, hl, hwaiting⟩ := h.queue
      refine ⟨xs, coros, hl, ?_⟩
      rw [hcontrol] at hwaiting
      simpa [RoundRobin.State.waiting, hqueue, Control.taken] using hwaiting
    · exact ⟨⟨hin.context, hin.stack, hin.mainCtx, hin.running⟩,
        ⟨co, hco, hstack⟩, _, rfl⟩
  · intro heq
    have hrun := congrArg RoundRobin.State.running heq
    simp [hidle] at hrun

/-- The running coroutine creates another one. -/
theorem segment_cons
    {c k : ℕ} {routine : R} {todo : List R} (h : Sim code tid m s)
    (hcontrol : m.control = .segment c k (routine :: todo)) :
    Moves code tid m s := by
  have hc := h.controlled
  simp only [Controlled, hcontrol] at hc
  obtain ⟨hin, hon, kind, hrun⟩ := hc
  obtain ⟨m', hcreate, hcreated⟩ := h.createCoroutine routine
  have hinv := RoundRobin.step_inv h.inv
  have hstep : m.step code tid = { m' with control := .segment c k todo } := by
    simp [Machine.step, hcontrol, hcreate]
  have hmove : RoundRobin.step code.program s =
      { s.start routine with running := some (⟨c, kind, k⟩, todo) } := by
    simp [RoundRobin.step, hrun]
  unfold Moves
  rw [hstep, hmove]
  rw [hmove] at hinv
  constructor
  · refine ⟨hinv, hcreated.coros.todo hrun todo,
      hcreated.trace.trans h.trace, hcreated.pushed, ?_,
      hcreated.isDone.trans h.notDone, ?_⟩
    · obtain ⟨xs, coros, hl, hwaiting⟩ := hcreated.queue
      rw [hcontrol] at hwaiting
      exact ⟨xs, coros, hl, hwaiting⟩
    · exact ⟨⟨hcreated.context.trans hin.context, hcreated.stack.trans hin.stack,
        hcreated.mainCtx.trans hin.mainCtx, hcreated.map ▸ hin.running⟩,
        hcreated.onStack hon, _, rfl⟩
  · intro heq
    have hjobs := congrArg (fun x => x.jobs.length) heq
    simp [RoundRobin.State.start] at hjobs

/-- `yeild` puts the coroutine that runs at the end of the queue. -/
theorem yeild
    {c k : ℕ} (h : Sim code tid m s) (hcontrol : m.control = .yeild c k) :
    Moves code tid m s := by
  have hc := h.controlled
  simp only [Controlled, hcontrol] at hc
  obtain ⟨hin, ⟨co, hco, hstack⟩, kind, hrun, hlt⟩ := hc
  obtain ⟨xs, coros, hl, hwaiting⟩ := h.queue
  rw [hcontrol] at hwaiting
  obtain ⟨q, hpush, hpushed, hl'⟩ := hl.push c
  have hinv := RoundRobin.step_inv h.inv
  have hstep : m.step code tid = { m with
      queue := q
      coros := m.coros.set c { co with context := .yeild c k }
      control := .schedulerRoutine } := by
    simp [Machine.step, hcontrol, hin.running, hpush, hco, Machine.toScheduler,
      hin.stack, hin.context, Machine.resume]
  have hmove : RoundRobin.step code.program s = { s with
      queue := s.queue ++ [⟨c, kind, k + 1⟩]
      running := none
      entered := s.entered ++ [c] } := by
    simp [RoundRobin.step, hrun, Routines.program, hlt]
  have hactive : ({ s with
      queue := s.queue ++ [⟨c, kind, k + 1⟩]
      running := none
      entered := s.entered ++ [c] } : RoundRobin.State R).active = s.active :=
    RoundRobin.State.active_requeue hrun rfl rfl
  have hbound : c < m.coros.length := (List.getElem?_eq_some_iff.mp hco).1
  unfold Moves
  rw [hstep, hmove]
  rw [hmove] at hinv
  constructor
  · refine ⟨hinv, ⟨?_, ?_, ?_, ?_⟩, h.trace, ?_, ?_, h.notDone, ?_⟩
    · rw [← h.coros.routines]
      exact map_set_of_eq hco rfl
    · intro e he
      rcases List.mem_append.mp he with he | he
      · have hne : c ≠ e.job := (h.inv.running_not_queued hrun he).symm
        rw [List.getElem?_set_ne hne]
        exact h.coros.queued e he
      · obtain rfl := List.mem_singleton.mp he
        refine ⟨_, List.getElem?_set_self hbound, hstack, rfl⟩
    · intro e todo hnone
      cases hnone
    · intro c' co' hco' hc'
      rw [hactive] at hc'
      have hne : c ≠ c' := by
        rintro rfl
        exact hc' (RoundRobin.State.mem_active_iff.mpr
          (Or.inr ⟨_, _, hrun, rfl⟩))
      rw [List.getElem?_set_ne hne] at hco'
      exact h.coros.finished c' co' hco' hc'
    · rw [hpushed, h.pushed]
    · refine ⟨_, _, hl', ?_⟩
      simp only [RoundRobin.State.waiting, List.map_append, List.map_cons,
        List.map_nil] at hwaiting ⊢
      rw [hwaiting]
      rfl
    · exact ⟨rfl, hin.stack, hin.mainCtx⟩
  · intro heq
    have hnone := congrArg RoundRobin.State.running heq
    simp [hrun] at hnone

/-- The coroutine that runs leaves its stack. -/
theorem finishFreed
    {c : ℕ} (h : Sim code tid m s) (hcontrol : m.control = .finishFreed c) :
    Moves code tid m s := by
  have hc := h.controlled
  simp only [Controlled, hcontrol] at hc
  obtain ⟨hin, kind, k, hrun, hlast⟩ := hc
  obtain ⟨co, hco, -⟩ := h.exists_running hrun
  have hinv := RoundRobin.step_inv h.inv
  have hstep : m.step code tid = { m with
      coros := m.coros.set c { co with context := .finish c }
      control := .schedulerRoutine } := by
    simp [Machine.step, hcontrol, hco, Machine.toScheduler, hin.stack,
      hin.context, Machine.resume]
  have hmove : RoundRobin.step code.program s = { s with running := none } := by
    have hge : ¬ k < code.yeilds kind := by omega
    simp [RoundRobin.step, hrun, Routines.program, hge]
  have hbound : c < m.coros.length := (List.getElem?_eq_some_iff.mp hco).1
  unfold Moves
  rw [hstep, hmove]
  rw [hmove] at hinv
  constructor
  · refine ⟨hinv, ⟨?_, ?_, ?_, ?_⟩, h.trace, h.pushed, ?_, h.notDone, ?_⟩
    · rw [← h.coros.routines]
      exact map_set_of_eq hco rfl
    · intro e he
      have hne : c ≠ e.job := (h.inv.running_not_queued hrun he).symm
      rw [List.getElem?_set_ne hne]
      exact h.coros.queued e he
    · intro e todo hnone
      cases hnone
    · intro c' co' hco' hc'
      by_cases hcc : c = c'
      · subst hcc
        rw [List.getElem?_set_self hbound] at hco'
        obtain rfl := Option.some.inj hco'
        rfl
      · rw [List.getElem?_set_ne hcc] at hco'
        have hactive : s.active.Perm
            (c :: ({ s with running := none } : RoundRobin.State R).active) :=
          RoundRobin.State.active_finish hrun rfl rfl
        apply h.coros.finished c' co' hco'
        rw [hactive.mem_iff, List.mem_cons, not_or]
        exact ⟨Ne.symm hcc, hc'⟩
    · obtain ⟨xs, coros, hl, hwaiting⟩ := h.queue
      refine ⟨xs, coros, hl, ?_⟩
      rw [hcontrol] at hwaiting
      exact hwaiting
    · exact ⟨rfl, hin.stack, hin.mainCtx⟩
  · intro heq
    have hnone := congrArg RoundRobin.State.running heq
    simp [hrun] at hnone

end Sim

/-- Each state of the machine stands for a state of the round robin, and the
machine returns when there is nothing left to run. -/
theorem stutterSim (code : Routines R) (tid : ℕ) :
    StutterSim (Machine.step code tid) (RoundRobin.step code.program)
      (Sim code tid) (fun m => m.control.rank) Returned where
  step := by
    intro m s h
    have hcases : (Returned m ∧ m.step code tid = m ∧
        RoundRobin.step code.program s = s) ∨
        Sim.Stutters code tid m s ∨ Sim.Moves code tid m s := by
      cases hcontrol : m.control with
      | runScheduler => exact Or.inr (Or.inl (h.runScheduler hcontrol))
      | schedulerRoutine => exact Or.inr (Or.inl (h.schedulerRoutine hcontrol))
      | switchTo c => exact Or.inr (Or.inl (h.switchTo hcontrol))
      | noCoroutine => exact Or.inr (Or.inl (h.noCoroutine hcontrol))
      | stackFreed => exact Or.inr (Or.inl (h.stackFreed hcontrol))
      | coroutineWrapper c => exact Or.inr (Or.inl (h.coroutineWrapper hcontrol))
      | userRoutine c k => exact Or.inr (Or.inr (h.userRoutine hcontrol))
      | segment c k todo =>
          cases todo with
          | nil => exact Or.inr (Or.inl (h.segment_nil hcontrol))
          | cons routine todo => exact Or.inr (Or.inr (h.segment_cons hcontrol))
      | yeild c k => exact Or.inr (Or.inr (h.yeild hcontrol))
      | finish c => exact Or.inr (Or.inl (h.finish hcontrol))
      | finishFreed c => exact Or.inr (Or.inr (h.finishFreed hcontrol))
      | returned =>
          have hc := h.controlled
          simp only [Controlled, hcontrol] at hc
          refine Or.inl ⟨hcontrol, ?_, ?_⟩
          · simp [Machine.step, hcontrol]
          · exact RoundRobin.step_of_active_nil
              (RoundRobin.State.active_eq_nil_iff.mpr ⟨hc.2, hc.1⟩)
      | fault =>
          have hc := h.controlled
          simp only [Controlled, hcontrol] at hc
    exact hcases

end Coroutine
end OsFifthSem
