import OsFifthSem.Threads.Coroutine.Simulation

/-!
# What one call of `run_scheduler` does

The properties of the round robin, read off the machine.
-/

namespace OsFifthSem
namespace Coroutine

open Support

universe u

variable {R : Type u} {code : Routines R} {tid : ℕ} {m : Machine R}
  {s : RoundRobin.State R}

/-! ## The start -/

theorem createScheduler_sim (code : Routines R) (tid : ℕ) (map : CoroMap) :
    Sim code tid (createScheduler map) RoundRobin.empty where
  inv := RoundRobin.inv_empty
  coros := by
    constructor
    · rfl
    · simp [RoundRobin.empty]
    · simp [RoundRobin.empty]
    · simp [createScheduler]
  trace := rfl
  pushed := rfl
  queue := ⟨[], [], CoroQueue.lists_coroQueueInit, rfl⟩
  notDone := rfl
  controlled := ⟨rfl, rfl, rfl⟩

/-- Before `run_scheduler` is called, `create_coroutine` succeeds. -/
theorem Sim.create
    (h : Sim code tid m s) (hcontrol : m.control = .runScheduler)
    (routine : R) :
    ∃ m', m.createCoroutine routine = some m' ∧
      m'.control = .runScheduler ∧ Sim code tid m' (s.start routine) := by
  have hc := h.controlled
  simp only [Controlled, hcontrol] at hc
  obtain ⟨hidle, hcontext, hstack⟩ := hc
  obtain ⟨m', hcreate, hcreated⟩ := h.createCoroutine routine
  have hcontrol' : m'.control = .runScheduler :=
    hcreated.control.trans hcontrol
  refine ⟨m', hcreate, hcontrol', ?_⟩
  constructor
  · exact h.inv.start routine
  · exact hcreated.coros
  · exact hcreated.trace.trans h.trace
  · exact hcreated.pushed
  · rw [hcreated.control]
    exact hcreated.queue
  · exact hcreated.isDone.trans h.notDone
  · simp only [Controlled, hcontrol']
    exact ⟨hidle, hcreated.context.trans hcontext, hcreated.stack.trans hstack⟩

theorem start_sim
    (code : Routines R) (tid : ℕ) (map : CoroMap) (routines : List R) :
    ∃ m, start map routines = some m ∧
      Sim code tid m (RoundRobin.init routines) := by
  suffices h : ∀ (m : Machine R) s, Sim code tid m s →
      m.control = .runScheduler →
      ∃ m', routines.foldlM Machine.createCoroutine m = some m' ∧
        Sim code tid m' (routines.foldl RoundRobin.State.start s) from
    h _ _ (createScheduler_sim code tid map) rfl
  induction routines with
  | nil => exact fun m s hsim _ => ⟨m, rfl, hsim⟩
  | cons routine routines ih =>
      intro m s hsim hcontrol
      obtain ⟨m₁, hcreate, hcontrol₁, hsim₁⟩ := hsim.create hcontrol routine
      obtain ⟨m', hrest, hsim'⟩ := ih m₁ _ hsim₁ hcontrol₁
      refine ⟨m', ?_, hsim'⟩
      rw [List.foldlM_cons, hcreate]
      exact hrest

/-! ## Readings of one state -/

namespace Sim

theorem segmentsOf_eq (h : Sim code tid m s) (c : ℕ) :
    m.segmentsOf c = s.turnsOf c := by
  rw [Machine.segmentsOf, RoundRobin.State.turnsOf, h.trace]

theorem kind_of_coro
    {c : ℕ} {co : Coro R} (h : Sim code tid m s)
    (hco : m.coros[c]? = some co) : s.jobs[c]? = some co.userRoutine := by
  rw [← h.coros.routines, List.getElem?_map, hco]
  rfl

/-- The coroutines in the queue and the running one have not finished. -/
theorem not_finished_of_active
    {c : ℕ} (h : Sim code tid m s) (hc : c ∈ s.active) : ¬ m.Finished c := by
  rintro ⟨co, hco, hfinish⟩
  obtain ⟨⟨job, kind, k⟩, he, rfl⟩ | ⟨e, todo, hrun, rfl⟩ :=
    RoundRobin.State.mem_active_iff.mp hc
  · obtain ⟨co', hco', -, hcontext⟩ := h.coros.queued _ he
    obtain rfl := Option.some.inj (hco.symm.trans hco')
    rw [hcontext] at hfinish
    cases k <;> simp [contextOf] at hfinish
  · obtain ⟨co', hco', hne⟩ := h.coros.running e todo hrun
    obtain rfl := Option.some.inj (hco.symm.trans hco')
    exact hne hfinish

theorem finished_iff
    {c : ℕ} {co : Coro R} (h : Sim code tid m s)
    (hco : m.coros[c]? = some co) : m.Finished c ↔ c ∉ s.active := by
  constructor
  · exact fun hfinished hc => h.not_finished_of_active hc hfinished
  · exact fun hc => ⟨co, hco, h.coros.finished c co hco hc⟩

end Sim

/-- The runs of one call of `run_scheduler` from the state `m₀`. -/
structure Scheduled (code : Routines R) (tid : ℕ) (m₀ : Machine R) : Prop where
  /-- No null pointer is followed, and no freed stack is resumed or freed a
  second time. -/
  noFault : ∀ n, (after code tid m₀ n).control ≠ .fault
  /-- The segments of a coroutine are run in program order, none twice. -/
  inOrder : ∀ n c co, (after code tid m₀ n).coros[c]? = some co →
    ∃ j ≤ code.yeilds co.userRoutine + 1,
      (after code tid m₀ n).segmentsOf c = List.range j
  /-- Every segment of every coroutine is run. -/
  complete : ∀ n c co k, (after code tid m₀ n).coros[c]? = some co →
    k ≤ code.yeilds co.userRoutine →
    ∃ n', k ∈ (after code tid m₀ n').segmentsOf c
  /-- A coroutine that has finished is not resumed. -/
  notResumed : ∀ n c, c ∈ (after code tid m₀ n).control.taken →
    ¬ (after code tid m₀ n).Finished c
  /-- Coroutines leave the queue in the order in which they were pushed. -/
  fifo : ∀ n, ∃ xs coros, (after code tid m₀ n).queue.Lists xs coros ∧
    (after code tid m₀ n).queue.pushed =
      (after code tid m₀ n).trace.map Prod.fst ++
        (after code tid m₀ n).control.taken ++ coros
  /-- Between two segments of a coroutine, those that were in the queue when
  it yielded run one segment each. -/
  between : ∀ n n' c k xs coros, n ≤ n' →
    (after code tid m₀ n).control = .yeild c k →
    (after code tid m₀ n).queue.Lists xs coros →
    (c, k + 1) ∈ (after code tid m₀ n').trace →
    coros.Nodup ∧ ∃ mid post,
      (after code tid m₀ n').trace =
        (after code tid m₀ n).trace ++ (mid ++ (c, k + 1) :: post) ∧
      mid.map Prod.fst = coros
  /-- `yeild` queues the coroutine that calls it. -/
  requeues : ∀ n c k, (after code tid m₀ n).control = .yeild c k →
    (after code tid m₀ n).map.get tid = some c ∧
    (after code tid m₀ (n + 1)).queue.pushed =
      (after code tid m₀ n).queue.pushed ++ [c]
  /-- When `run_scheduler` returns, all coroutines have finished. -/
  allFinished : ∀ n, Returned (after code tid m₀ n) →
    ∀ c co, (after code tid m₀ n).coros[c]? = some co →
      (after code tid m₀ n).Finished c ∧
      (after code tid m₀ n).segmentsOf c =
        List.range (code.yeilds co.userRoutine + 1)
  /-- When all coroutines have finished, `run_scheduler` returns, and no
  segment is run before. -/
  returns : ∀ n, (∀ c < (after code tid m₀ n).coros.length,
      (after code tid m₀ n).Finished c) →
    ∃ n', Returned (after code tid m₀ (n + n')) ∧
      (after code tid m₀ (n + n')).trace = (after code tid m₀ n).trace
  /-- When finitely many coroutines are created, `run_scheduler` returns. -/
  terminates : (∃ bound, ∀ n, (after code tid m₀ n).coros.length ≤ bound) →
    ∃ n, Returned (after code tid m₀ n)

theorem after_add (m : Machine R) (n n' : ℕ) :
    after code tid m (n + n') = after code tid (after code tid m n) n' := by
  unfold after
  rw [Nat.add_comm, Function.iterate_add_apply]

theorem after_succ (m : Machine R) (n : ℕ) :
    after code tid m (n + 1) = (after code tid m n).step code tid := by
  unfold after
  rw [Function.iterate_succ_apply']

/-! ## Readings of a run -/

namespace Sim

theorem control_ne_fault (h : Sim code tid m s) : m.control ≠ .fault := by
  intro hfault
  have hc := h.controlled
  simp only [Controlled, hfault] at hc

theorem exists_mem_segmentsOf
    {c k : ℕ} {co : Coro R} (h : Sim code tid m s)
    (hco : m.coros[c]? = some co) (hk : k ≤ code.yeilds co.userRoutine) :
    ∃ n, k ∈ (after code tid m n).segmentsOf c := by
  obtain ⟨j, hj⟩ := h.inv.exists_turn_of_le (h.kind_of_coro hco) hk
  obtain ⟨n, hn⟩ := (stutterSim code tid).reaches h j
  refine ⟨n, ?_⟩
  rw [after, hn.segmentsOf_eq]
  exact RoundRobin.mem_turns_iff.mp hj

theorem pushed_eq (h : Sim code tid m s) :
    ∃ xs coros, m.queue.Lists xs coros ∧
      m.queue.pushed = m.trace.map Prod.fst ++ m.control.taken ++ coros := by
  obtain ⟨xs, coros, hl, hwaiting⟩ := h.queue
  refine ⟨xs, coros, hl, ?_⟩
  rw [h.pushed, h.trace, h.inv.fifo, hwaiting, List.append_assoc]

/-- The coroutines in the queue when one yields run once before it is
resumed. -/
theorem trace_between
    {c k d : ℕ} {xs coros : List ℕ} (h : Sim code tid m s)
    (hcontrol : m.control = .yeild c k) (hl : m.queue.Lists xs coros)
    (hmem : (c, k + 1) ∈ (after code tid m d).trace) :
    coros.Nodup ∧ ∃ mid post,
      (after code tid m d).trace = m.trace ++ (mid ++ (c, k + 1) :: post) ∧
      mid.map Prod.fst = coros := by
  have hc := h.controlled
  simp only [Controlled, hcontrol] at hc
  obtain ⟨-, -, kind, hrun, hlt⟩ := hc
  obtain ⟨ys, coros', hl', hwaiting⟩ := h.queue
  rw [hcontrol] at hwaiting
  obtain rfl : coros = coros' := hl.unique hl'
  have hwaiting' : s.waiting = coros := hwaiting
  obtain ⟨j, hj⟩ := (stutterSim code tid).follows h d
  have htrace : (after code tid m d).trace = _ := hj.trace
  rw [htrace] at hmem ⊢
  obtain ⟨mid, post, hturns, hmid⟩ := h.inv.turns_between hrun hlt hmem
  refine ⟨?_, mid, post, ?_, hmid.trans hwaiting'⟩
  · rw [← hwaiting']
    exact (List.nodup_append.mp h.inv.nodup).1
  · rw [h.trace]
    exact hturns

theorem pushed_yeild
    {c k : ℕ} (h : Sim code tid m s) (hcontrol : m.control = .yeild c k) :
    m.map.get tid = some c ∧
      (m.step code tid).queue.pushed = m.queue.pushed ++ [c] := by
  have hc := h.controlled
  simp only [Controlled, hcontrol] at hc
  obtain ⟨hin, -, kind, hrun, hlt⟩ := hc
  refine ⟨hin.running, ?_⟩
  rw [(h.yeild hcontrol).1.pushed, h.pushed]
  have hlt' : k < code.program.lastTurn kind := hlt
  simp [RoundRobin.step, hrun, hlt']

theorem finished_of_returned
    {c : ℕ} {co : Coro R} (h : Sim code tid m s) (hreturned : Returned m)
    (hco : m.coros[c]? = some co) :
    m.Finished c ∧
      m.segmentsOf c = List.range (code.yeilds co.userRoutine + 1) := by
  have hc := h.controlled
  unfold Returned at hreturned
  simp only [Controlled, hreturned] at hc
  have hactive : c ∉ s.active := by
    rw [RoundRobin.State.active_eq_nil_iff.mpr ⟨hc.2, hc.1⟩]
    exact List.not_mem_nil
  refine ⟨(h.finished_iff hco).mpr hactive, ?_⟩
  rw [h.segmentsOf_eq]
  exact h.inv.finished c _ (h.kind_of_coro hco) hactive

theorem exists_returned
    (h : Sim code tid m s) (hall : ∀ c < m.coros.length, m.Finished c) :
    ∃ n, Returned (after code tid m n) ∧
      (after code tid m n).trace = m.trace := by
  have hactive : s.active = [] := by
    rw [List.eq_nil_iff_forall_not_mem]
    intro c hc
    have hlt : c < m.coros.length := by
      rw [h.length_eq]
      exact h.inv.active_lt hc
    exact h.not_finished_of_active hc (hall c hlt)
  have hrest : RoundRobin.step code.program s = s :=
    RoundRobin.step_of_active_nil hactive
  obtain ⟨n, hreturned, hn⟩ := (stutterSim code tid).exists_final h hrest
  exact ⟨n, hreturned, hn.trace.trans h.trace.symm⟩

/-- A bound on the coroutines bounds the jobs of the round robin, which comes
to rest. -/
theorem exists_returned_of_bounded
    {bound : ℕ} (h : Sim code tid m s)
    (hbound : ∀ n, (after code tid m n).coros.length ≤ bound) :
    ∃ n, Returned (after code tid m n) := by
  have hjobs : ∀ j,
      ((RoundRobin.step code.program)^[j] s).jobs.length ≤ bound := by
    intro j
    obtain ⟨n, hn⟩ := (stutterSim code tid).reaches h j
    rw [← hn.length_eq]
    exact hbound n
  obtain ⟨j, hrest⟩ := h.inv.exists_rest hjobs
  obtain ⟨n, hn⟩ := (stutterSim code tid).reaches h j
  obtain ⟨n', hreturned, -⟩ := (stutterSim code tid).exists_final hn hrest
  refine ⟨n + n', ?_⟩
  rw [after_add]
  exact hreturned

/-- A machine that stands for the initial state of the round robin schedules
its coroutines. -/
theorem scheduled
    {m₀ : Machine R} {routines : List R}
    (hsim₀ : Sim code tid m₀ (RoundRobin.init routines)) :
    Scheduled code tid m₀ := by
  have hfollows : ∀ n, ∃ s, Sim code tid (after code tid m₀ n) s := by
    intro n
    obtain ⟨j, hj⟩ := (stutterSim code tid).follows hsim₀ n
    exact ⟨_, hj⟩
  constructor
  case noFault =>
    intro n
    obtain ⟨s, hsim⟩ := hfollows n
    exact hsim.control_ne_fault
  case inOrder =>
    intro n c co hco
    obtain ⟨s, hsim⟩ := hfollows n
    rw [hsim.segmentsOf_eq]
    exact hsim.inv.exists_turnsOf_eq (hsim.kind_of_coro hco)
  case complete =>
    intro n c co k hco hk
    obtain ⟨s, hsim⟩ := hfollows n
    obtain ⟨n', hn'⟩ := hsim.exists_mem_segmentsOf hco hk
    refine ⟨n + n', ?_⟩
    rw [after_add]
    exact hn'
  case notResumed =>
    intro n c hc
    obtain ⟨s, hsim⟩ := hfollows n
    obtain ⟨xs, coros, -, hwaiting⟩ := hsim.queue
    apply hsim.not_finished_of_active
    exact List.mem_append_left _ (hwaiting ▸ List.mem_append_left _ hc)
  case fifo =>
    intro n
    obtain ⟨s, hsim⟩ := hfollows n
    exact hsim.pushed_eq
  case between =>
    intro n n' c k xs coros hle hcontrol hl hmem
    obtain ⟨s, hsim⟩ := hfollows n
    obtain ⟨d, rfl⟩ := Nat.exists_eq_add_of_le hle
    rw [after_add] at hmem ⊢
    exact hsim.trace_between hcontrol hl hmem
  case requeues =>
    intro n c k hcontrol
    obtain ⟨s, hsim⟩ := hfollows n
    rw [after_succ]
    exact hsim.pushed_yeild hcontrol
  case allFinished =>
    intro n hreturned c co hco
    obtain ⟨s, hsim⟩ := hfollows n
    exact hsim.finished_of_returned hreturned hco
  case returns =>
    intro n hall
    obtain ⟨s, hsim⟩ := hfollows n
    obtain ⟨n', hreturned⟩ := hsim.exists_returned hall
    refine ⟨n', ?_⟩
    rw [after_add]
    exact hreturned
  case terminates =>
    rintro ⟨bound, hbound⟩
    exact hsim₀.exists_returned_of_bounded hbound

end Sim

/-- One call of `run_scheduler` schedules its coroutines, and those that are
created on the way, round robin. -/
theorem runScheduler_roundRobin
    (code : Routines R) (tid : ℕ) (map : CoroMap) (routines : List R) :
    ∃ m₀, start map routines = some m₀ ∧
      m₀.coros.map Coro.userRoutine = routines ∧ Scheduled code tid m₀ := by
  obtain ⟨m₀, hstart, hsim⟩ := start_sim code tid map routines
  refine ⟨m₀, hstart, ?_, hsim.scheduled⟩
  rw [hsim.coros.routines, RoundRobin.jobs_init]

/-- A coroutine that yields once and creates another one first: the new one
runs before the second segment of its creator. -/
example :
    let code : Routines Bool :=
      ⟨fun r => if r then 1 else 0, fun r k => if r && k = 0 then [false] else []⟩
    (start (coroMapCreate 4) [true, false]).map
      (fun m => (after code 9 m 40).trace) =
        some [(0, 0), (1, 0), (2, 0), (0, 1)] := by
  decide

end Coroutine
end OsFifthSem
