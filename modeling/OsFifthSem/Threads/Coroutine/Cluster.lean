import OsFifthSem.Threads.Coroutine.Links
import OsFifthSem.Threads.Coroutine.Scheduling

/-!
# Schedulers on several kernel threads

In `cluster.c` each `thread_worker` runs a scheduler of its own.  The schedulers
and their coroutines have nothing in common but `cur_coro_map`, and interleave
between its accesses; elsewhere a step of a thread is one of its machine.

As long as no head of a bucket is overwritten, the interleaving cannot be told
apart from threads that run alone.
-/

namespace OsFifthSem
namespace Coroutine

open Support

universe u

variable {R : Type u}

/-! ## The machine of one thread -/

namespace Machine

/-- The machine with another map. -/
def withMap (m : Machine R) (map : CoroMap) : Machine R := { m with map := map }

/-- `scheduler_routine` goes on when `coro_map_add` has returned. -/
def switchTo (m : Machine R) (coro : ℕ) : Machine R :=
  match m.coros[coro]? with
  | none => m.faulty
  | some co =>
      { m with
        context := .schedulerLoop
        control := if co.stack then resume co.context else .fault }

/-- `yeild` goes on when `coro_map_get` has returned `cur`. -/
def yeildAs (m : Machine R) (coro k cur : ℕ) : Machine R :=
  match m.queue.push cur, m.coros[cur]? with
  | some queue, some co =>
      { m with
        queue := queue
        coros := m.coros.set cur { co with context := .yeild coro k }
        control := m.toScheduler }
  | _, _ => m.faulty

end Machine

/-! ## The cluster -/

/-- The kernel threads and the map they share. -/
structure Cluster (R : Type u) where
  map : SharedMap.State
  /-- By thread id.  The maps in the machines are not used. -/
  machines : ℕ → Machine R
  /-- A history variable: the steps of the machine of each thread. -/
  steps : ℕ → ℕ

namespace Cluster

/-- A thread takes a step in the map. -/
def access (capacity : ℕ) (s : Cluster R) (a : SharedMap.Action) :
    Option (Cluster R) :=
  (SharedMap.step capacity s.map a).map fun map => { s with map := map }

/-- The machine of thread `t` takes a step. -/
def moves (s : Cluster R) (t : ℕ) (m : Machine R) : Cluster R :=
  { s with
    machines := Function.update s.machines t m
    steps := Function.update s.steps t (s.steps t + 1) }

/-- One step of thread `t`. -/
def step (code : Routines R) (capacity : ℕ) (s : Cluster R) (t : ℕ) :
    Option (Cluster R) :=
  let m := s.machines t
  match m.control, s.map.pc t with
  | .returned, _ | .fault, _ => none
  -- `coro_map_add(&cur_coro_map, gettid(), coro)`
  | .switchTo coro, .idle => s.access capacity (.schedule t coro)
  | .switchTo coro, .running _ => some (s.moves t (m.switchTo coro))
  | .switchTo _, _ => s.access capacity (.advance t)
  -- `cur_coro = coro_map_get(&cur_coro_map, gettid())`
  | .yeild _ _, .running _ => s.access capacity (.yeild t)
  | .yeild coro k, .yeilding _ (some cur) =>
      (s.access capacity (.advance t)).map fun s' =>
        s'.moves t (m.yeildAs coro k cur)
  -- a null `cur_coro` is followed
  | .yeild _ _, .yeilding _ none => none
  | .yeild _ _, _ => s.access capacity (.advance t)
  | .finishFreed _, _ =>
      (s.access capacity (.finish t)).map fun s' => s'.moves t (m.step code t)
  | _, _ => some (s.moves t (m.step code t))

/-- The map is created, and each thread has created its coroutines and calls
`run_scheduler`. -/
structure Starts (capacity : ℕ) (routines : ℕ → List R) (s : Cluster R) :
    Prop where
  map : s.map = SharedMap.start
  machines : ∀ t, start (coroMapCreate capacity) (routines t) =
    some (s.machines t)
  steps : ∀ t, s.steps t = 0

/-- No thread has taken a step. -/
def clusterStart (capacity : ℕ) (routines : ℕ → List R) : Cluster R where
  map := SharedMap.start
  machines := fun t =>
    (Coroutine.start (coroMapCreate capacity) (routines t)).getD
      (createScheduler (coroMapCreate capacity))
  steps := fun _ => 0

/-- The threads `workers` run at the same time. -/
def clusterSystem (code : Routines R) (capacity : ℕ) (workers : Finset ℕ)
    (routines : ℕ → List R) : TransitionSystem (Cluster R) ℕ where
  Initial := Starts capacity routines
  step := fun s t => if t ∈ workers then s.step code capacity t else none

/-- If this step writes the head of a bucket, no other thread has written it
since the thread read it. -/
def KeepsLinks (capacity : ℕ) (s : Cluster R) (t : ℕ) : Prop :=
  SharedMap.KeepsLinks capacity s.map (.advance t)

end Cluster

/-! ## The map in a machine -/

namespace Machine

variable {code : Routines R} {tid : ℕ} {m : Machine R}

theorem step_switchTo
    {coro : ℕ} (hcontrol : m.control = .switchTo coro) (map : CoroMap) :
    (m.step code tid).withMap map = (m.withMap map).switchTo coro := by
  simp only [step, hcontrol, switchTo, withMap]
  cases m.coros[coro]? <;> rfl

theorem step_yeild
    {coro k cur : ℕ} (hcontrol : m.control = .yeild coro k)
    (hcur : m.map.get tid = some cur) (map : CoroMap) :
    (m.step code tid).withMap map = (m.withMap map).yeildAs coro k cur := by
  simp only [step, hcontrol, hcur, yeildAs, withMap]
  cases m.queue.push cur <;> cases m.coros[cur]? <;> rfl

/-- The other steps do not look at the map. -/
theorem step_withMap
    (hswitch : ∀ coro, m.control ≠ .switchTo coro)
    (hyeild : ∀ coro k, m.control ≠ .yeild coro k) (map : CoroMap) :
    (m.step code tid).withMap map = (m.withMap map).step code tid := by
  have hcontrol' : (m.withMap map).control = m.control := rfl
  unfold step
  rw [hcontrol']
  cases hcontrol : m.control with
  | switchTo coro => exact absurd hcontrol (hswitch coro)
  | yeild coro k => exact absurd hcontrol (hyeild coro k)
  | runScheduler | coroutineWrapper | returned | fault => rfl
  | schedulerRoutine =>
      have hpop : (m.withMap map).queue.pop = m.queue.pop := rfl
      have hdone : (m.withMap map).isDone = m.isDone := rfl
      simp only [hdone, hpop]
      split
      · rfl
      · cases m.queue.pop with
        | none => rfl
        | some popped =>
            obtain ⟨coro, queue⟩ := popped
            cases coro <;> rfl
  | noCoroutine =>
      have hstack : (m.withMap map).stack = m.stack := rfl
      simp only [hstack]
      split <;> rfl
  | stackFreed =>
      have hmain : (m.withMap map).mainCtx = m.mainCtx := rfl
      simp only [hmain]
      split <;> rfl
  | userRoutine coro k =>
      have hcoros : (m.withMap map).coros = m.coros := rfl
      simp only [hcoros]
      split <;> rfl
  | finish coro =>
      have hcoros : (m.withMap map).coros = m.coros := rfl
      simp only [hcoros]
      cases m.coros[coro]? with
      | none => rfl
      | some co =>
          dsimp only
          split <;> rfl
  | finishFreed coro =>
      have hcoros : (m.withMap map).coros = m.coros := rfl
      simp only [hcoros]
      split <;> rfl
  | segment coro k todo =>
      cases todo with
      | nil =>
          have hcoros : (m.withMap map).coros = m.coros := rfl
          simp only [hcoros]
          split <;> rfl
      | cons routine todo =>
          simp only [createCoroutine, withMap]
          cases m.queue.push m.coros.length <;> rfl

end Machine

/-! ## Where control is -/

/-- The coroutine that control is in. -/
def Control.inside : Control R → Option ℕ
  | .coroutineWrapper coro | .userRoutine coro _ | .segment coro _ _
  | .yeild coro _ | .finish coro | .finishFreed coro => some coro
  | _ => none

/-- The coroutine that control is in behind the next step. -/
def Control.insideNext : Control R → Option ℕ
  | .switchTo coro | .coroutineWrapper coro | .userRoutine coro _
  | .segment coro _ _ | .finish coro => some coro
  | _ => none

namespace Sim

variable {code : Routines R} {tid : ℕ} {m : Machine R}
  {s : RoundRobin.State R}

/-- Behind the switch, control is in the coroutine that was taken. -/
theorem inside_switchTo
    {coro : ℕ} (h : Sim code tid m s) (hcontrol : m.control = .switchTo coro) :
    (m.step code tid).control.inside = some coro := by
  have hc := h.controlled
  simp only [Controlled, hcontrol] at hc
  obtain ⟨xs, coros, hl, hwaiting⟩ := h.queue
  rw [hcontrol] at hwaiting
  obtain ⟨⟨job, kind, k⟩, rest, hqueue, rfl, -⟩ :=
    List.map_eq_cons_iff.mp hwaiting
  obtain ⟨co, hco, -, hstack, hcontext⟩ := h.exists_head hqueue
  cases k <;> simp [Machine.step, hcontrol, hco, hstack, hcontext, contextOf,
    Machine.resume, Control.inside]

/-- A coroutine that gives up the thread goes to the scheduler. -/
theorem inside_toScheduler
    {coro : ℕ} (hin : InCoroutine tid m coro) :
    m.toScheduler.inside = none := by
  rw [Machine.toScheduler, if_pos hin.stack, hin.context]
  rfl

theorem inside_step (h : Sim code tid m s) :
    (m.step code tid).control.inside = m.control.insideNext := by
  have hc := h.controlled
  cases hcontrol : m.control with
  | switchTo coro => exact h.inside_switchTo hcontrol
  | coroutineWrapper coro | returned | fault =>
      simp [Machine.step, hcontrol, Control.inside, Control.insideNext]
  | runScheduler =>
      simp only [Controlled, hcontrol] at hc
      simp [Machine.step, hcontrol, Machine.toScheduler, hc.2.1, hc.2.2,
        Machine.resume, Control.inside, Control.insideNext]
  | schedulerRoutine =>
      simp only [Machine.step, hcontrol]
      split
      · rfl
      · split <;> rfl
  | noCoroutine =>
      simp only [Controlled, hcontrol] at hc
      simp [Machine.step, hcontrol, hc.2.2.1, Control.inside,
        Control.insideNext]
  | stackFreed =>
      simp only [Controlled, hcontrol] at hc
      simp [Machine.step, hcontrol, hc.2.2, Machine.resume, Control.inside,
        Control.insideNext]
  | userRoutine coro k =>
      simp only [Controlled, hcontrol] at hc
      obtain ⟨-, -, kind, rest, hqueue⟩ := hc
      obtain ⟨co, hco, -⟩ := h.exists_head hqueue
      simp [Machine.step, hcontrol, hco, Control.inside, Control.insideNext]
  | segment coro k todo =>
      cases todo with
      | cons routine todo =>
          obtain ⟨m', hcreate, -⟩ := h.createCoroutine routine
          simp [Machine.step, hcontrol, hcreate, Control.inside,
            Control.insideNext]
      | nil =>
          simp only [Controlled, hcontrol] at hc
          obtain ⟨-, -, kind, hrun⟩ := hc
          obtain ⟨co, hco, -⟩ := h.exists_running hrun
          simp only [Machine.step, hcontrol, hco]
          split <;> rfl
  | yeild coro k =>
      simp only [Controlled, hcontrol] at hc
      simp only [Machine.step, hcontrol, hc.1.running]
      split
      · exact inside_toScheduler hc.1
      · rfl
  | finish coro =>
      simp only [Controlled, hcontrol] at hc
      obtain ⟨-, ⟨co, hco, hstack⟩, -⟩ := hc
      simp [Machine.step, hcontrol, hco, hstack, Control.inside,
        Control.insideNext]
  | finishFreed coro =>
      simp only [Controlled, hcontrol] at hc
      simp only [Machine.step, hcontrol]
      split
      · rfl
      · exact inside_toScheduler hc.1

end Sim

/-- Where a thread is in the map when it is in no call. -/
def Control.rests (control : Control R) : SharedMap.Pc :=
  control.inside.elim .idle .running

/-- The places in the map that a thread with this control can be at. -/
def Control.Places (control : Control R) (p : SharedMap.Pc) : Prop :=
  match control with
  | .switchTo coro => p = .idle ∨ p.Adds coro ∨ p = .running coro
  | .yeild coro _ =>
      p = .running coro ∨ p.InGet coro ∨ p = .yeilding coro (some coro)
  | control => p = control.rests

theorem Control.places_rests (control : Control R) :
    control.Places control.rests := by
  cases control with
  | switchTo | yeild => exact Or.inl rfl
  | _ => rfl

namespace Cluster

variable {code : Routines R} {capacity t : ℕ} {workers : Finset ℕ}
  {s s' : Cluster R} {m₀ : ℕ → Machine R}

/-! ## One step of a thread -/

/-- The steps left to the thread in its call to the map. -/
noncomputable def left (s : Cluster R) (bound t : ℕ) : ℕ :=
  match (s.machines t).control with
  | .switchTo _ => s.map.addLeft bound t
  | .yeild _ _ => s.map.getLeft bound t
  | _ => 0

/-- Each thread is where it would be without the others. -/
structure Follows (code : Routines R) (capacity : ℕ) (workers : Finset ℕ)
    (m₀ : ℕ → Machine R) (s : Cluster R) : Prop where
  sim : ∀ t n, ∃ r, Sim code t (after code t (m₀ t) n) r
  alone : ∀ t, s.machines t =
    (after code t (m₀ t) (s.steps t)).withMap (coroMapCreate capacity)
  places : ∀ t, (s.machines t).control.Places (s.map.pc t)
  links : ∃ lists, SharedMap.LinksInv capacity s.map lists
  idle : ∀ u, u ∉ workers → s.map.pc u = .idle
  added : ∀ u ∈ s.map.added, u ∈ workers

/-- What a step of `t` does. -/
structure Advances (code : Routines R) (capacity : ℕ) (m₀ : ℕ → Machine R)
    (t : ℕ) (s s' : Cluster R) : Prop where
  map : s'.map = s.map ∨
    ∃ a, a.thread = t ∧ SharedMap.step capacity s.map a = some s'.map
  places : (s'.machines t).control.Places (s'.map.pc t)
  /-- The call to the map goes on, or the machine does. -/
  progress :
    (s'.machines = s.machines ∧ s'.steps = s.steps ∧
      ∀ bound lists, SharedMap.LinksInv capacity s.map lists →
        (∀ i, (lists i).length ≤ bound) → s'.left bound t < s.left bound t) ∨
    (s'.machines = Function.update s.machines t
        ((after code t (m₀ t) (s.steps t + 1)).withMap
          (coroMapCreate capacity)) ∧
      s'.steps = Function.update s.steps t (s.steps t + 1))

theorem access_eq_some
    {a : SharedMap.Action} {map : SharedMap.State}
    (hstep : SharedMap.step capacity s.map a = some map) :
    s.access capacity a = some { s with map := map } := by
  rw [access, hstep]
  rfl

namespace Follows

theorem control_eq (h : Follows code capacity workers m₀ s) (t : ℕ) :
    (s.machines t).control =
      (after code t (m₀ t) (s.steps t)).control := by
  rw [h.alone t]
  rfl

/-- The machine of the thread takes its next step. -/
theorem moves
    {map : SharedMap.State} {m' : Machine R}
    (h : Follows code capacity workers m₀ s)
    (hmap : map = s.map ∨
      ∃ a, a.thread = t ∧ SharedMap.step capacity s.map a = some map)
    (hpc : map.pc t =
      (s.machines t).control.insideNext.elim .idle .running)
    (hm' : m' = ((after code t (m₀ t) (s.steps t)).step code t).withMap
      (coroMapCreate capacity)) :
    Advances code capacity m₀ t s
      (({ s with map := map } : Cluster R).moves t m') := by
  obtain ⟨r, hsim⟩ := h.sim t (s.steps t)
  refine ⟨hmap, ?_, Or.inr ⟨?_, rfl⟩⟩
  · change (Function.update s.machines t m' t).control.Places (map.pc t)
    rw [Function.update_self, hpc, h.control_eq, ← hsim.inside_step, hm']
    exact Control.places_rests _
  · rw [after_succ, ← hm']
    rfl

/-- The call of the thread to the map goes on. -/
theorem calls
    {a : SharedMap.Action} {map : SharedMap.State} (ha : a.thread = t)
    (hstep : SharedMap.step capacity s.map a = some map)
    (hplaces : (s.machines t).control.Places (map.pc t))
    (hleft : ∀ bound lists, SharedMap.LinksInv capacity s.map lists →
      (∀ i, (lists i).length ≤ bound) →
      ({ s with map := map } : Cluster R).left bound t < s.left bound t) :
    Advances code capacity m₀ t s { s with map := map } :=
  ⟨Or.inr ⟨a, ha, hstep⟩, hplaces, Or.inl ⟨rfl, rfl, hleft⟩⟩

/-- A thread whose coroutine was taken from the queue. -/
theorem step_switchTo
    {coro : ℕ} (h : Follows code capacity workers m₀ s)
    (hcontrol : (s.machines t).control = .switchTo coro) :
    ∃ s', s.step code capacity t = some s' ∧
      Advances code capacity m₀ t s s' := by
  have hplaces := h.places t
  rw [hcontrol] at hplaces
  rcases hplaces with hidle | hadds | hrunning
  · have hstep : SharedMap.step capacity s.map (.schedule t coro) =
        some (s.map.goto t (.addHead coro)) := if_pos hidle
    refine ⟨_, by
      simp only [step, hcontrol, hidle]
      exact access_eq_some hstep, calls rfl hstep ?_ fun bound _ _ _ => ?_⟩
    · rw [hcontrol, SharedMap.State.pc_goto_self]
      exact Or.inr (Or.inl rfl)
    · simp [left, hcontrol, SharedMap.State.addLeft, hidle,
        SharedMap.State.pc_goto_self]
  · obtain ⟨lists, hlinks⟩ := h.links
    obtain ⟨map, hstep, hpc, -⟩ := hlinks.advance_adds hadds
    change SharedMap.step capacity s.map (.advance t) = some map at hstep
    have hone : s.step code capacity t = s.access capacity (.advance t) := by
      simp only [step, hcontrol]
      cases hpc' : s.map.pc t <;> rw [hpc'] at hadds <;>
        first | rfl | exact hadds.elim
    refine ⟨_, hone.trans (access_eq_some hstep),
      calls rfl hstep ?_ fun bound lists' hlinks' hbound => ?_⟩
    · rw [hcontrol]
      exact Or.inr hpc
    · obtain ⟨map', hstep', -, hless⟩ := hlinks'.advance_adds hadds
      obtain rfl := Option.some.inj (hstep.symm.trans hstep')
      simpa [left, hcontrol] using hless bound hbound
  · have hsolo := h.control_eq t
    rw [hcontrol] at hsolo
    refine ⟨s.moves t ((s.machines t).switchTo coro),
      by simp only [step, hcontrol, hrunning], h.moves (Or.inl rfl) ?_ ?_⟩
    · rw [hcontrol]
      exact hrunning
    · rw [Machine.step_switchTo hsolo.symm, ← h.alone t]

/-- A thread whose coroutine has called `yeild`. -/
theorem step_yeild
    {coro k : ℕ} (h : Follows code capacity workers m₀ s)
    (hcontrol : (s.machines t).control = .yeild coro k) :
    ∃ s', s.step code capacity t = some s' ∧
      Advances code capacity m₀ t s s' := by
  have hplaces := h.places t
  rw [hcontrol] at hplaces
  rcases hplaces with hrunning | hgets | hfound
  · have hstep : SharedMap.step capacity s.map (.yeild t) =
        some (s.map.goto t (.getHead coro)) := by
      simp only [SharedMap.step, hrunning]
    refine ⟨_, by
      simp only [step, hcontrol, hrunning]
      exact access_eq_some hstep, calls rfl hstep ?_ fun bound _ _ _ => ?_⟩
    · rw [hcontrol, SharedMap.State.pc_goto_self]
      exact Or.inr (Or.inl rfl)
    · simp [left, hcontrol, SharedMap.State.getLeft, hrunning,
        SharedMap.State.pc_goto_self]
  · obtain ⟨lists, hlinks⟩ := h.links
    obtain ⟨map, hstep, hpc, -⟩ := hlinks.advance_gets hgets
    change SharedMap.step capacity s.map (.advance t) = some map at hstep
    have hone : s.step code capacity t = s.access capacity (.advance t) := by
      simp only [step, hcontrol]
      cases hpc' : s.map.pc t <;> rw [hpc'] at hgets <;>
        first | rfl | exact hgets.elim
    refine ⟨_, hone.trans (access_eq_some hstep),
      calls rfl hstep ?_ fun bound lists' hlinks' hbound => ?_⟩
    · rw [hcontrol]
      exact Or.inr hpc
    · obtain ⟨map', hstep', -, hless⟩ := hlinks'.advance_gets hgets
      obtain rfl := Option.some.inj (hstep.symm.trans hstep')
      simpa [left, hcontrol] using hless bound hbound
  · have hstep : SharedMap.step capacity s.map (.advance t) =
        some (s.map.goto t .idle) := by
      simp only [SharedMap.step, SharedMap.advance, hfound]
    have hsolo := h.control_eq t
    rw [hcontrol] at hsolo
    obtain ⟨r, hsim⟩ := h.sim t (s.steps t)
    have hcur := (hsim.pushed_yeild hsolo.symm).1
    refine ⟨_, by
      simp only [step, hcontrol, hfound, access_eq_some hstep]
      rfl, h.moves (Or.inr ⟨_, rfl, hstep⟩) ?_ ?_⟩
    · rw [hcontrol, SharedMap.State.pc_goto_self]
      rfl
    · rw [Machine.step_yeild hsolo.symm hcur, ← h.alone t]

/-- A thread that is in no call to the map, or leaves it with its machine. -/
theorem step_moves
    {map : SharedMap.State} (h : Follows code capacity workers m₀ s)
    (hmap : map = s.map ∨
      ∃ a, a.thread = t ∧ SharedMap.step capacity s.map a = some map)
    (hpc : map.pc t =
      (s.machines t).control.insideNext.elim .idle .running)
    (hswitch : ∀ coro, (s.machines t).control ≠ .switchTo coro)
    (hyeild : ∀ coro k, (s.machines t).control ≠ .yeild coro k) :
    Advances code capacity m₀ t s (({ s with map := map } : Cluster R).moves t
      ((s.machines t).step code t)) := by
  refine h.moves hmap hpc ?_
  rw [h.control_eq] at hswitch hyeild
  rw [Machine.step_withMap hswitch hyeild, ← h.alone t]

/-- A thread that has not returned takes a step. -/
theorem exists_step
    (h : Follows code capacity workers m₀ s)
    (hreturned : ¬Returned (s.machines t)) :
    ∃ s', s.step code capacity t = some s' ∧
      Advances code capacity m₀ t s s' := by
  have hplaces := h.places t
  cases hcontrol : (s.machines t).control with
  | returned => exact absurd hcontrol hreturned
  | fault =>
      obtain ⟨r, hsim⟩ := h.sim t (s.steps t)
      rw [h.control_eq] at hcontrol
      exact absurd hcontrol hsim.control_ne_fault
  | switchTo coro => exact h.step_switchTo hcontrol
  | yeild coro k => exact h.step_yeild hcontrol
  | finishFreed coro =>
      rw [hcontrol] at hplaces
      have hpc : s.map.pc t = .running coro := hplaces
      have hstep : SharedMap.step capacity s.map (.finish t) =
          some (s.map.goto t .idle) := by
        simp only [SharedMap.step, hpc]
      refine ⟨_, by
        simp only [step, hcontrol, access_eq_some hstep]
        rfl, h.step_moves (Or.inr ⟨_, rfl, hstep⟩) ?_ (by simp [hcontrol])
          (by simp [hcontrol])⟩
      rw [hcontrol, SharedMap.State.pc_goto_self]
      rfl
  | runScheduler | schedulerRoutine | noCoroutine | stackFreed
  | coroutineWrapper coro | userRoutine coro k | segment coro k todo
  | finish coro =>
      rw [hcontrol] at hplaces
      exact ⟨_, by simp only [step, hcontrol],
        h.step_moves (Or.inl rfl) (by rw [hcontrol]; exact hplaces)
          (by simp [hcontrol]) (by simp [hcontrol])⟩

/-! ## All threads -/

theorem links_step
    (h : Follows code capacity workers m₀ s) (hkeep : KeepsLinks capacity s t)
    (hadv : Advances code capacity m₀ t s s') :
    ∃ lists, SharedMap.LinksInv capacity s'.map lists := by
  obtain ⟨lists, hlinks⟩ := h.links
  obtain hsame | ⟨a, rfl, hstep⟩ := hadv.map
  · exact ⟨lists, hsame ▸ hlinks⟩
  · refine hlinks.step (fun tid ha => ?_) hstep
    subst ha
    exact hkeep tid rfl

/-- What the step does to the map, seen from outside. -/
theorem frame (hadv : Advances code capacity m₀ t s s') :
    SharedMap.StepFrame capacity t s.map s'.map := by
  obtain hsame | ⟨a, rfl, hstep⟩ := hadv.map
  · exact hsame ▸ ⟨fun _ _ => rfl, fun _ _ => rfl, fun _ => Or.inl⟩
  · exact SharedMap.step_frame hstep

theorem machines_of_ne
    {u : ℕ} (hadv : Advances code capacity m₀ t s s') (hu : u ≠ t) :
    s'.machines u = s.machines u ∧ s'.steps u = s.steps u := by
  obtain ⟨hmachines, hsteps, -⟩ | ⟨hmachines, hsteps⟩ := hadv.progress
  · exact ⟨congrFun hmachines u, congrFun hsteps u⟩
  · rw [hmachines, hsteps]
    exact ⟨Function.update_of_ne hu _ _, Function.update_of_ne hu _ _⟩

/-- The other threads do not notice the step. -/
theorem step
    (h : Follows code capacity workers m₀ s) (ht : t ∈ workers)
    (hkeep : KeepsLinks capacity s t) (hadv : Advances code capacity m₀ t s s') :
    Follows code capacity workers m₀ s' := by
  have hframe := frame hadv
  constructor
  · exact h.sim
  · intro u
    by_cases hu : u = t
    · subst hu
      obtain ⟨hmachines, hsteps, -⟩ | ⟨hmachines, hsteps⟩ := hadv.progress
      · rw [hmachines, hsteps]
        exact h.alone u
      · rw [hmachines, hsteps, Function.update_self, Function.update_self]
    · obtain ⟨hmachine, hsteps⟩ := machines_of_ne hadv hu
      rw [hmachine, hsteps]
      exact h.alone u
  · intro u
    by_cases hu : u = t
    · exact hu ▸ hadv.places
    · rw [(machines_of_ne hadv hu).1, hframe.pc u hu]
      exact h.places u
  · exact h.links_step hkeep hadv
  · intro u hu
    rw [hframe.pc u fun heq => hu (heq ▸ ht)]
    exact h.idle u hu
  · intro u hu
    rcases hframe.added u hu with hold | rfl
    · exact h.added u hold
    · exact ht

end Follows

/-! ## Runs -/

variable {routines : ℕ → List R}

/-- Creating coroutines does not touch the map and starts nothing. -/
theorem fields_of_start
    {map : CoroMap} {rs : List R} {m : Machine R}
    (hstart : start map rs = some m) :
    m.map = map ∧ m.control = .runScheduler := by
  suffices h : ∀ (rs : List R) (m₁ : Machine R),
      rs.foldlM Machine.createCoroutine m₁ = some m →
      m.map = m₁.map ∧ m.control = m₁.control from h rs _ hstart
  intro rs
  induction rs with
  | nil =>
      intro m₁ h
      exact Option.some.inj h ▸ ⟨rfl, rfl⟩
  | cons r rs ih =>
      intro m₁ h
      obtain ⟨m₂, hcreate, hrest⟩ := Option.bind_eq_some_iff.mp h
      obtain ⟨queue, -, rfl⟩ := Option.map_eq_some_iff.mp hcreate
      have hfields := ih _ hrest
      exact hfields

theorem sim_of_start
    {map : CoroMap} {rs : List R} {m : Machine R}
    (hstart : Coroutine.start map rs = some m) :
    Sim code t m (RoundRobin.init rs) := by
  obtain ⟨m', hstart', hsim⟩ := start_sim code t map rs
  exact Option.some.inj (hstart'.symm.trans hstart) ▸ hsim

theorem starts_clusterStart (capacity : ℕ) (routines : ℕ → List R) :
    Starts capacity routines (clusterStart capacity routines) where
  map := rfl
  machines := fun t => by
    obtain ⟨m, hstart, -⟩ :=
      start_sim ⟨fun _ => 0, fun _ _ => []⟩ t (coroMapCreate capacity) (routines t)
    simp [clusterStart, hstart]
  steps := fun _ => rfl

theorem follows_of_starts (hs : Starts capacity routines s) :
    Follows code capacity workers s.machines s where
  sim := fun t n => by
    obtain ⟨j, hj⟩ :=
      (stutterSim code t).follows (sim_of_start (hs.machines t)) n
    exact ⟨_, hj⟩
  alone := fun t => by
    rw [hs.steps t, ← (fields_of_start (hs.machines t)).1]
    rfl
  places := fun t => by
    rw [(fields_of_start (hs.machines t)).2, hs.map]
    rfl
  links := ⟨_, hs.map ▸ SharedMap.LinksInv.start capacity⟩
  idle := fun u _ => by
    rw [hs.map]
    rfl
  added := fun u hu => by
    rw [hs.map] at hu
    cases hu

/-- A step of the system is one that keeps every thread where it would be
alone. -/
theorem Follows.of_step
    (h : Follows code capacity workers m₀ s) (hkeep : KeepsLinks capacity s t)
    (hstep : (clusterSystem code capacity workers routines).step s t =
      some s') :
    t ∈ workers ∧ Advances code capacity m₀ t s s' ∧
      Follows code capacity workers m₀ s' := by
  obtain ⟨ht, hone⟩ := Option.ite_none_right_eq_some.mp hstep
  have hreturned : ¬Returned (s.machines t) := by
    intro hreturned
    unfold Returned at hreturned
    simp [Cluster.step, hreturned] at hone
  obtain ⟨s₁, hone', hadv⟩ := h.exists_step hreturned
  obtain rfl := Option.some.inj (hone'.symm.trans hone)
  exact ⟨ht, hadv, h.step ht hkeep hadv⟩

/-- A thread of the cluster runs its scheduler as it would alone. -/
structure RunsAlone (code : Routines R) (capacity : ℕ)
    (routines : ℕ → List R) (s : Cluster R) (t : ℕ) : Prop where
  /-- The machine of the thread has come as far as it would have come alone
  in as many steps. -/
  alone : ∃ m₀, Coroutine.start (coroMapCreate capacity) (routines t) = some m₀ ∧
    Scheduled code t m₀ ∧
    s.machines t =
      (after code t m₀ (s.steps t)).withMap (coroMapCreate capacity)
  /-- Nothing but its end keeps it from going on. -/
  goesOn : ¬Returned (s.machines t) →
    ∃ s', s.step code capacity t = some s'

theorem exists_follows
    (hs : (clusterSystem code capacity workers routines).ReachableUnder
      (KeepsLinks capacity) s) :
    ∃ m₀ : ℕ → Machine R,
      (∀ t, Coroutine.start (coroMapCreate capacity) (routines t) =
        some (m₀ t)) ∧ Follows code capacity workers m₀ s := by
  refine TransitionSystem.ReachableUnder.invariant
    (P := fun s => ∃ m₀ : ℕ → Machine R,
      (∀ t, Coroutine.start (coroMapCreate capacity) (routines t) =
        some (m₀ t)) ∧ Follows code capacity workers m₀ s) ?_ ?_ hs
  · exact fun s hstart =>
      ⟨s.machines, hstart.machines, follows_of_starts hstart⟩
  · rintro s t s' ⟨m₀, hm₀, h⟩ hkeep hstep
    exact ⟨m₀, hm₀, (h.of_step hkeep hstep).2.2⟩

theorem Follows.runsAlone
    (h : Follows code capacity workers m₀ s)
    (hm₀ : ∀ t, Coroutine.start (coroMapCreate capacity) (routines t) =
      some (m₀ t)) (t : ℕ) :
    RunsAlone code capacity routines s t := by
  constructor
  · exact ⟨m₀ t, hm₀ t, (sim_of_start (hm₀ t)).scheduled, h.alone t⟩
  · intro hreturned
    obtain ⟨s', hstep, -⟩ := h.exists_step hreturned
    exact ⟨s', hstep⟩

/-- Schedulers on any number of kernel threads share the map: in every
interleaving in which no head of a bucket is overwritten, each of them runs as
if it were alone. -/
theorem runsAlone_of_keepsLinks
    (code : Routines R) (capacity : ℕ) (workers : Finset ℕ)
    (routines : ℕ → List R) {s : Cluster R}
    (hs : (clusterSystem code capacity workers routines).ReachableUnder
      (KeepsLinks capacity) s) (t : ℕ) :
    RunsAlone code capacity routines s t := by
  obtain ⟨m₀, hm₀, h⟩ := exists_follows hs
  exact h.runsAlone hm₀ t

/-- The test of `KeepsLinks`. -/
def keepsLinks (capacity : ℕ) (s : Cluster R) (t : ℕ) : Bool :=
  match s.map.pc t with
  | .addPublish _ new => (s.map.nodes new).all fun n =>
      n.next = s.map.buckets (SharedMap.index capacity t)
  | _ => true

theorem keepsLinks_of_check
    (capacity : ℕ) (s : Cluster R) (t : ℕ)
    (h : keepsLinks capacity s t = true) : KeepsLinks capacity s t := by
  intro tid ha coro new n hpc hn
  obtain rfl : t = tid := by simpa using ha
  simpa [keepsLinks, hpc, hn] using h

/-- `count_task`, which yields three times and creates nothing. -/
def countTask : Routines Unit := ⟨fun _ => 3, fun _ _ => []⟩

/-- Two threads whose ids fall into one bucket find it empty at the same time,
and link their nodes one after the other. -/
def sharedBucket : List ℕ :=
  List.replicate 5 1 ++ (List.replicate 5 17 ++
    (List.replicate 12 1 ++ List.replicate 9 17))

theorem runsAlone_of_keepsLinks_sharedBucket :
    ∃ s, (clusterSystem countTask mapCapacity {1, 17} fun _ => [()]).runWhile
      (keepsLinks mapCapacity) (clusterStart mapCapacity fun _ => [()])
      sharedBucket = some s ∧
      RunsAlone countTask mapCapacity (fun _ => [()]) s 1 ∧
      RunsAlone countTask mapCapacity (fun _ => [()]) s 17 := by
  have hsome : ((clusterSystem countTask mapCapacity {1, 17} fun _ =>
      [()]).runWhile (keepsLinks mapCapacity)
      (clusterStart mapCapacity fun _ => [()]) sharedBucket).isSome = true :=
    rfl
  obtain ⟨s, hrun⟩ := Option.isSome_iff_exists.mp hsome
  have hreach := TransitionSystem.ReachableUnder.runWhile
    (keepsLinks_of_check mapCapacity)
    (.initial (starts_clusterStart mapCapacity fun _ => [()])) hrun
  exact ⟨s, hrun, runsAlone_of_keepsLinks _ _ _ _ hreach 1,
    runsAlone_of_keepsLinks _ _ _ _ hreach 17⟩

end Cluster

end Coroutine
end OsFifthSem
