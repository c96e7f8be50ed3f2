import OsFifthSem.Proxy.Streaming.Steps

/-!
# The memory of a task

A task is shared by the worker and the write request that launched it.
`free_task` lets the first of two calls pass and frees the task in the second
one, but `after_load_http_resp_cb` is the only place that calls it.  The other
party gives its share up nowhere: `free_write_req` calls `cancel_bgw`, which
sets `should_stop`.
-/

namespace OsFifthSem
namespace Proxy
namespace Streaming

open Support

/-- The blocks of a `task_t`, each allocated or not, and `destroy_count`.
`frees` and `called` are history variables: the calls of `free` for the task
itself, and whether `after_load_http_resp_cb` was called. -/
structure TaskMemory where
  destroyCount : ℕ
  rawReq : Bool
  req : Bool
  key : Bool
  task : Bool
  frees : ℕ
  called : Bool
  deriving DecidableEq, Repr

namespace TaskMemory

/-- What `read_client` allocates for a worker. -/
def allocated : TaskMemory where
  destroyCount := 0
  rawReq := true
  req := true
  key := true
  task := true
  frees := 0
  called := false

/-- `free_task`. -/
def freeTask (m : TaskMemory) : TaskMemory :=
  if m.destroyCount = 0 then { m with destroyCount := m.destroyCount + 1 }
  else { m with
    rawReq := false
    req := false
    key := false
    task := false
    frees := m.frees + 1 }

/-- `after_load_http_resp_cb`. -/
def afterLoad (m : TaskMemory) : TaskMemory :=
  { m with called := true }.freeTask

def Alive (m : TaskMemory) : Prop :=
  m.rawReq = true ∧ m.req = true ∧ m.key = true ∧ m.task = true

def Freed (m : TaskMemory) : Prop :=
  m.rawReq = false ∧ m.req = false ∧ m.key = false ∧ m.task = false

end TaskMemory

/-- The proxy, with the memory of the tasks. -/
structure Lifetimes where
  state : State
  memory : ℕ → Option TaskMemory

inductive LifetimeAction
  | proxy (a : Action)
  /-- The loop calls `after_load_http_resp_cb` for this worker. -/
  | afterLoad (t : ℕ)

namespace Lifetimes

/-- `read_client` allocates a task when it launches a worker. -/
def launches (s : Lifetimes) : Action → ℕ → Option TaskMemory
  | .request r (.launchBgw true) =>
      Function.update s.memory r (some .allocated)
  | _ => s.memory

/-- The load has ended, and the callback comes once. -/
def afterLoad (s : Lifetimes) (t : ℕ) : Option Lifetimes :=
  (s.state.tasks t).bind fun task =>
    (s.memory t).bind fun m =>
      if task.pc = .ended ∧ m.called = false then
        some { s with
          memory := Function.update s.memory t (some m.afterLoad) }
      else none

def step (s : Lifetimes) : LifetimeAction → Option Lifetimes
  | .proxy a => (s.state.step a).map fun next => ⟨next, s.launches a⟩
  | .afterLoad t => s.afterLoad t

/-- `free_write_req` has released the request. -/
def RequestDone (s : Lifetimes) (r : ℕ) : Prop :=
  ∃ w, s.state.reqs r = some w ∧ w.Gone

/-- Both parties have come to their end. -/
def BothDone (s : Lifetimes) (r : ℕ) (m : TaskMemory) : Prop :=
  m.called = true ∧ s.RequestDone r

/-- The task of the request with its blocks is freed once, when both parties
are done, and is there for them before. -/
structure ReleasedOnce (s : Lifetimes) (r : ℕ) (m : TaskMemory) : Prop where
  alive : ¬s.BothDone r m → m.Alive
  frees_le : m.frees ≤ 1
  freed : s.BothDone r m → m.frees = 1 ∧ m.Freed

end Lifetimes

/-- All runs of the proxy, with the memory of the tasks. -/
def lifetimes : TransitionSystem Lifetimes LifetimeAction where
  Initial := fun s => proxy.Initial s.state ∧ s.memory = fun _ => none
  step := Lifetimes.step

namespace Lifetimes

variable {s s' : Lifetimes} {t : ℕ} {task : Task}

/-- The task is allocated, and `free_task` has been called at most once. -/
structure Kept (m : TaskMemory) : Prop where
  alive : m.Alive
  frees : m.frees = 0
  destroyCount : m.called = false → m.destroyCount = 0

theorem Kept.afterLoad
    {m : TaskMemory} (h : Kept m) (hcalled : m.called = false) :
    Kept m.afterLoad := by
  have hzero := h.destroyCount hcalled
  rw [TaskMemory.afterLoad, TaskMemory.freeTask, if_pos hzero]
  exact ⟨h.alive, h.frees, fun hfalse => absurd hfalse (by simp)⟩

/-- The tasks that have been launched are allocated. -/
def AllKept (s : Lifetimes) : Prop :=
  ∀ t task, s.state.tasks t = some task → ∃ m, s.memory t = some m ∧ Kept m

/-- Launching is the only step that makes a task. -/
theorem tasks_of_step
    {next : State} {a : Action} (h : s.state.step a = some next)
    (htask : next.tasks t = some task) :
    (∃ old, s.state.tasks t = some old) ∨
      a = .request t (.launchBgw true) := by
  cases a with
  | request r b =>
      rcases State.stepRequest_tasks h t with hsame |
        ⟨-, -, old, hold, -⟩ | ⟨rfl, w, hw, hpc, -, -⟩
      · exact Or.inl ⟨task, hsame ▸ htask⟩
      · exact Or.inl ⟨old, hold⟩
      · have hat := State.stepRequest_at h hw
        rw [hpc] at hat
        cases b with
        | launchBgw ok =>
            cases ok with
            | true => exact Or.inr rfl
            | false =>
                obtain ⟨w, -, -, ⟨hok, -⟩ | ⟨-, rfl⟩⟩ :=
                  State.launchBgw_spec h
                · cases hok
                · exact Or.inl ⟨task, htask⟩
        | _ => simp [ReqStep.At] at hat
  | worker u b =>
      by_cases htu : t = u
      · subst htu
        obtain ⟨old, -, hold, -⟩ := State.stepWorker_task h
        exact Or.inl ⟨old, hold⟩
      · exact Or.inl ⟨task,
          ((State.stepWorker_frame h).tasks t htu).symm.trans htask⟩
  | collector b =>
      exact Or.inl ⟨task, (State.stepCollector_frame h).tasks ▸ htask⟩

/-- Other steps leave the memory of the tasks alone. -/
theorem launches_cases (s : Lifetimes) (a : Action) (t : ℕ) :
    s.launches a t = s.memory t ∨ s.launches a t = some .allocated := by
  unfold launches
  split
  next r =>
    by_cases hr : t = r
    · exact Or.inr (hr ▸ Function.update_self ..)
    · exact Or.inl (Function.update_of_ne hr _ _)
  next => exact Or.inl rfl

theorem AllKept.step
    {a : LifetimeAction} (hs : AllKept s) (hstep : s.step a = some s') :
    AllKept s' := by
  have hnew : Kept .allocated := ⟨⟨rfl, rfl, rfl, rfl⟩, rfl, fun _ => rfl⟩
  intro t task htask
  cases a with
  | proxy a =>
      obtain ⟨next, hnext, rfl⟩ := Option.map_eq_some_iff.mp hstep
      rcases tasks_of_step hnext htask with ⟨old, hold⟩ | rfl
      · rcases s.launches_cases a t with hsame | hlaunch
        · obtain ⟨m, hm, hkept⟩ := hs t old hold
          exact ⟨m, hsame.trans hm, hkept⟩
        · exact ⟨_, hlaunch, hnew⟩
      · exact ⟨_, Function.update_self .., hnew⟩
  | afterLoad u =>
      obtain ⟨ended, -, hstep⟩ := Option.bind_eq_some_iff.mp hstep
      obtain ⟨m, hm, hstep⟩ := Option.bind_eq_some_iff.mp hstep
      obtain ⟨⟨-, hcalled⟩, hs'⟩ := Option.ite_none_right_eq_some.mp hstep
      obtain rfl := Option.some.inj hs'
      obtain ⟨m', hm', hkept⟩ := hs t task htask
      by_cases htu : t = u
      · subst htu
        obtain rfl := Option.some.inj (hm.symm.trans hm')
        exact ⟨_, Function.update_self .., hkept.afterLoad hcalled⟩
      · exact ⟨m', (Function.update_of_ne htu _ _).trans hm', hkept⟩

theorem allKept_of_reachable (hs : lifetimes.Reachable s) : AllKept s := by
  refine hs.invariant ?_ fun s a s' h _ hstep => h.step hstep
  rintro s ⟨⟨numBuckets, defaultTtl, hinit⟩, -⟩ t task htask
  rw [hinit] at htask
  cases htask

/-- For every run and every request that launched a worker: the task is
released as it should only as long as one of the two parties is not done.
When both are done, in either order, nothing has been freed. -/
theorem releasedOnce_iff
    (s : Lifetimes) (r : ℕ) (task : Task) (hs : lifetimes.Reachable s)
    (htask : s.state.tasks r = some task) :
    ∃ m, s.memory r = some m ∧
      (s.ReleasedOnce r m ↔ ¬s.BothDone r m) := by
  obtain ⟨m, hm, hkept⟩ := allKept_of_reachable hs r task htask
  refine ⟨m, hm, fun hreleased hboth => ?_, fun hnot => ?_⟩
  · have hfreed := (hreleased.freed hboth).1
    rw [hkept.frees] at hfreed
    cases hfreed
  · exact ⟨fun _ => hkept.alive, hkept.frees ▸ Nat.zero_le 1,
      fun hboth => absurd hboth hnot⟩

/-- `free_write_req`. -/
def freeWriteReq (r : ℕ) : List Action :=
  [.request r .unregisterWaiter, .request r .cancelBgw]

/-- A load that succeeds without a byte, and then the callback. -/
def loadedEmpty : List LifetimeAction :=
  (arriveFirst 0 rootRequest ++ beginLoad 0 ++ endLoad 0).map .proxy ++
    [.afterLoad 0]

/-- The client goes away during the load, which stops the worker. -/
def disconnected : List Action :=
  arriveFirst 0 rootRequest ++ beginLoad 0 ++ deliver 0 [1] ++ sendChunk 0 ++
    [.request 0 (.onWritten false)] ++ freeWriteReq 0 ++
    [.worker 0 (.writeCallback [2]), .worker 0 .cancelLoading]

theorem reachable_of_run
    {as : List LifetimeAction}
    (hrun : lifetimes.run ⟨.init 1 60, fun _ => none⟩ as = some s) :
    lifetimes.Reachable s :=
  TransitionSystem.Reachable.run (.initial ⟨proxy_initial 1 60, rfl⟩) hrun

/-- The callback has come and the request is not released. -/
theorem releasedOnce_iff_loadedEmpty :
    ∃ s task, lifetimes.run ⟨.init 1 60, fun _ => none⟩ loadedEmpty = some s ∧
      s.state.tasks 0 = some task ∧
      ∃ m, s.memory 0 = some m ∧ (s.ReleasedOnce 0 m ↔ ¬s.BothDone 0 m) := by
  obtain ⟨s, task, hrun, htask⟩ : ∃ s task,
      lifetimes.run ⟨.init 1 60, fun _ => none⟩ loadedEmpty = some s ∧
        s.state.tasks 0 = some task := ⟨_, _, rfl, rfl⟩
  exact ⟨s, task, hrun, htask,
    releasedOnce_iff s 0 task (reachable_of_run hrun) htask⟩

/-- Both parties are done, in one order and in the other, and the task is still
there. -/
theorem not_releasedOnce_bothDone :
    (∃ s m, lifetimes.run ⟨.init 1 60, fun _ => none⟩
        (loadedEmpty ++ (sendChunk 0 ++ freeWriteReq 0).map .proxy) = some s ∧
      s.memory 0 = some m ∧ s.BothDone 0 m ∧ m.Alive ∧ ¬s.ReleasedOnce 0 m) ∧
    ∃ s m, lifetimes.run ⟨.init 1 60, fun _ => none⟩
        (disconnected.map .proxy ++ [.afterLoad 0]) = some s ∧
      s.memory 0 = some m ∧ s.BothDone 0 m ∧ m.Alive ∧ ¬s.ReleasedOnce 0 m := by
  constructor
  · refine ⟨_, _, rfl, rfl, ⟨rfl, _, rfl, Or.inl rfl⟩, ⟨rfl, rfl, rfl, rfl⟩, ?_⟩
    exact fun h => absurd (h.freed ⟨rfl, _, rfl, Or.inl rfl⟩).1 (by decide)
  · refine ⟨_, _, rfl, rfl, ⟨rfl, _, rfl, Or.inl rfl⟩, ⟨rfl, rfl, rfl, rfl⟩, ?_⟩
    exact fun h => absurd (h.freed ⟨rfl, _, rfl, Or.inl rfl⟩).1 (by decide)

end Lifetimes

end Streaming
end Proxy
end OsFifthSem
