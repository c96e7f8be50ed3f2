import Mathlib.Data.List.Nodup
import Mathlib.Data.List.Range
import Mathlib.Logic.Function.Iterate

/-!
# Round robin over a growing set of jobs

A job runs one turn at a time.  The job at the head of the queue runs, may
start further jobs while it runs, which enter the queue at its end, and then
enters the queue again unless this was its last turn.

The kind of a job determines the number of its turns and the jobs that each
turn starts.  `turns` and `entered` record the turns taken and the entries
into the queue, in order.
-/

namespace OsFifthSem
namespace Support
namespace RoundRobin

universe u

/-- What the jobs do. -/
structure Program (R : Type u) where
  /-- The index of the last turn. -/
  lastTurn : R → ℕ
  /-- The jobs that a turn starts, in order. -/
  starts : R → ℕ → List R

/-- A turn of a job. -/
structure Turn (R : Type u) where
  job : ℕ
  kind : R
  turn : ℕ

structure State (R : Type u) where
  /-- The kinds of all jobs, in the order of their start. -/
  jobs : List R
  queue : List (Turn R)
  /-- The turn that is running, and the jobs that it is still to start. -/
  running : Option (Turn R × List R)
  turns : List (ℕ × ℕ)
  entered : List ℕ

variable {R : Type u}

/-- A new job enters the queue. -/
def State.start (s : State R) (kind : R) : State R :=
  { s with
    jobs := s.jobs ++ [kind]
    queue := s.queue ++ [⟨s.jobs.length, kind, 0⟩]
    entered := s.entered ++ [s.jobs.length] }

/-- One step; a state with nothing to run stays as it is. -/
def step (p : Program R) (s : State R) : State R :=
  match s.running, s.queue with
  | none, [] => s
  | none, e :: rest =>
      { s with
        queue := rest
        running := some (e, p.starts e.kind e.turn)
        turns := s.turns ++ [(e.job, e.turn)] }
  | some (e, kind :: todo), _ =>
      { s.start kind with running := some (e, todo) }
  | some (e, []), _ =>
      if e.turn < p.lastTurn e.kind then
        { s with
          queue := s.queue ++ [{ e with turn := e.turn + 1 }]
          running := none
          entered := s.entered ++ [e.job] }
      else { s with running := none }

/-- No jobs. -/
def empty : State R where
  jobs := []
  queue := []
  running := none
  turns := []
  entered := []

/-- The jobs `kinds` are in the queue. -/
def init (kinds : List R) : State R :=
  kinds.foldl State.start empty

theorem jobs_foldl_start (kinds : List R) (s : State R) :
    (kinds.foldl State.start s).jobs = s.jobs ++ kinds := by
  induction kinds generalizing s with
  | nil => simp
  | cons kind kinds ih => simp [ih, State.start]

theorem jobs_init (kinds : List R) : (init kinds).jobs = kinds :=
  jobs_foldl_start kinds empty

/-! ## The invariant -/

/-- The turns taken so far of one job. -/
def State.turnsOf (s : State R) (job : ℕ) : List ℕ :=
  (s.turns.filter fun x => x.1 = job).map Prod.snd

/-- The jobs in the queue. -/
def State.waiting (s : State R) : List ℕ := s.queue.map Turn.job

/-- The jobs that have turns left: they are in the queue or running. -/
def State.active (s : State R) : List ℕ :=
  s.waiting ++ (s.running.map fun x => x.1.job).toList

/-- The turn belongs to a job and exists, and the turns taken of that job are
those up to `n`. -/
structure Turn.Due (p : Program R) (s : State R) (e : Turn R) (n : ℕ) :
    Prop where
  kind : s.jobs[e.job]? = some e.kind
  le : e.turn ≤ p.lastTurn e.kind
  taken : s.turnsOf e.job = List.range n

structure Inv (p : Program R) (s : State R) : Prop where
  nodup : s.active.Nodup
  queued : ∀ e ∈ s.queue, e.Due p s e.turn
  running : ∀ e todo, s.running = some (e, todo) → e.Due p s (e.turn + 1)
  finished : ∀ c kind, s.jobs[c]? = some kind → c ∉ s.active →
    s.turnsOf c = List.range (p.lastTurn kind + 1)
  started : ∀ x ∈ s.turns, x.1 < s.jobs.length
  fifo : s.entered = s.turns.map Prod.fst ++ s.waiting

variable {p : Program R} {s s' : State R}

theorem Turn.Due.congr
    {e : Turn R} {n : ℕ} (h : e.Due p s n) (hjobs : s'.jobs = s.jobs)
    (hturns : s'.turns = s.turns) : e.Due p s' n where
  kind := hjobs ▸ h.kind
  le := h.le
  taken := by
    unfold State.turnsOf
    rw [hturns]
    exact h.taken

theorem Turn.Due.lt
    {e : Turn R} {n : ℕ} (h : e.Due p s n) : e.job < s.jobs.length := by
  by_contra hge
  have hkind := h.kind
  rw [List.getElem?_eq_none (by omega)] at hkind
  cases hkind

/-- A job with turns left is in the queue or running. -/
theorem State.mem_active_iff {c : ℕ} :
    c ∈ s.active ↔ (∃ e ∈ s.queue, e.job = c) ∨
      ∃ e todo, s.running = some (e, todo) ∧ e.job = c := by
  simp only [State.active, State.waiting, List.mem_append, List.mem_map,
    Option.mem_toList, Option.map_eq_some_iff, Prod.exists]

theorem State.active_eq_nil_iff :
    s.active = [] ↔ s.queue = [] ∧ s.running = none := by
  simp [State.active, State.waiting]

/-- With nothing to run the state stays as it is. -/
theorem step_of_active_nil (h : s.active = []) : step p s = s := by
  obtain ⟨hqueue, hidle⟩ := State.active_eq_nil_iff.mp h
  simp [step, hqueue, hidle]

/-- A new job is active. -/
theorem State.active_start (s : State R) (kind : R) :
    (s.start kind).active.Perm (s.jobs.length :: s.active) := by
  simp only [State.active, State.waiting, State.start, List.map_append,
    List.map_cons, List.map_nil, List.append_assoc]
  exact List.perm_middle

/-- The head of the queue stays active when it is taken. -/
theorem State.active_dispatch
    {e : Turn R} {rest : List (Turn R)} {todo : List R}
    (hidle : s.running = none) (hqueue : s.queue = e :: rest)
    (hqueue' : s'.queue = rest) (hrun' : s'.running = some (e, todo)) :
    s'.active.Perm s.active := by
  simp only [State.active, State.waiting, hidle, hqueue, hqueue', hrun',
    List.map_cons, Option.map_some, Option.map_none, Option.toList_some,
    Option.toList_none, List.append_nil]
  exact List.perm_append_comm

/-- The running job stays active while it starts others. -/
theorem State.active_todo
    {e : Turn R} {todo todo' : List R} (hrun : s.running = some (e, todo))
    (hqueue' : s'.queue = s.queue) (hrun' : s'.running = some (e, todo')) :
    s'.active = s.active := by
  simp only [State.active, State.waiting, hrun, hqueue', hrun',
    Option.map_some]

/-- The running job stays active when it enters the queue again. -/
theorem State.active_requeue
    {e : Turn R} {todo : List R} {n : ℕ} (hrun : s.running = some (e, todo))
    (hqueue' : s'.queue = s.queue ++ [{ e with turn := n }])
    (hidle' : s'.running = none) : s'.active = s.active := by
  simp [State.active, State.waiting, hrun, hqueue', hidle']

/-- The running job is no longer active when it ends. -/
theorem State.active_finish
    {e : Turn R} {todo : List R} (hrun : s.running = some (e, todo))
    (hqueue' : s'.queue = s.queue) (hidle' : s'.running = none) :
    s.active.Perm (e.job :: s'.active) := by
  simp only [State.active, State.waiting, hrun, hqueue', hidle',
    Option.map_some, Option.map_none, Option.toList_some, Option.toList_none,
    List.append_nil]
  exact List.perm_append_comm

theorem Inv.active_lt (h : Inv p s) {c : ℕ} (hc : c ∈ s.active) :
    c < s.jobs.length := by
  obtain ⟨e, he, rfl⟩ | ⟨e, todo, hrun, rfl⟩ := State.mem_active_iff.mp hc
  · exact (h.queued e he).lt
  · exact (h.running e todo hrun).lt

/-- Where a job is, and the turns taken of it. -/
theorem Inv.place
    (h : Inv p s) {c : ℕ} {kind : R} (hkind : s.jobs[c]? = some kind) :
    (∃ e ∈ s.queue, e.job = c ∧ e.kind = kind ∧ e.Due p s e.turn) ∨
      (∃ e todo, s.running = some (e, todo) ∧ e.job = c ∧ e.kind = kind ∧
        e.Due p s (e.turn + 1)) ∨
      s.turnsOf c = List.range (p.lastTurn kind + 1) := by
  by_cases hc : c ∈ s.active
  · obtain ⟨e, he, rfl⟩ | ⟨e, todo, hrun, rfl⟩ := State.mem_active_iff.mp hc
    · have hdue := h.queued e he
      have heq := Option.some.inj (hdue.kind.symm.trans hkind)
      exact Or.inl ⟨e, he, rfl, heq, hdue⟩
    · have hdue := h.running e todo hrun
      have heq := Option.some.inj (hdue.kind.symm.trans hkind)
      exact Or.inr (Or.inl ⟨e, todo, hrun, rfl, heq, hdue⟩)
  · exact Or.inr (Or.inr (h.finished c kind hkind hc))

/-- The running job is not in the queue. -/
theorem Inv.running_not_waiting
    {e : Turn R} {todo : List R} (h : Inv p s)
    (hrun : s.running = some (e, todo)) : e.job ∉ s.waiting := by
  have hnodup := h.nodup
  simp only [State.active, hrun, Option.map_some, Option.toList_some] at hnodup
  rw [List.perm_append_comm.nodup_iff, List.singleton_append,
    List.nodup_cons] at hnodup
  exact hnodup.1

theorem Inv.running_not_queued
    {e f : Turn R} {todo : List R} (h : Inv p s)
    (hrun : s.running = some (e, todo)) (hf : f ∈ s.queue) : f.job ≠ e.job := by
  intro heq
  exact h.running_not_waiting hrun (heq ▸ List.mem_map_of_mem hf)

/-- A job that does not exist has taken no turn. -/
theorem Inv.turnsOf_eq_nil (h : Inv p s) : s.turnsOf s.jobs.length = [] := by
  unfold State.turnsOf
  rw [List.map_eq_nil_iff, List.filter_eq_nil_iff]
  intro x hx
  have hlt := h.started x hx
  simp only [decide_eq_true_eq]
  omega

/-- A new job is due its first turn. -/
theorem Inv.start (h : Inv p s) (kind : R) : Inv p (s.start kind) := by
  have hold : ∀ {e : Turn R} {n : ℕ}, e.Due p s n → e.Due p (s.start kind) n :=
    fun hdue => ⟨by
      simp only [State.start]
      rw [List.getElem?_append_left hdue.lt]
      exact hdue.kind, hdue.le, hdue.taken⟩
  have hactive := s.active_start kind
  constructor
  · rw [hactive.nodup_iff, List.nodup_cons]
    refine ⟨fun hmem => ?_, h.nodup⟩
    have hlt := h.active_lt hmem
    omega
  · intro e he
    rcases List.mem_append.mp he with he | he
    · exact hold (h.queued e he)
    · obtain rfl := List.mem_singleton.mp he
      exact ⟨by simp [State.start], Nat.zero_le _, h.turnsOf_eq_nil⟩
  · intro e todo hrun
    exact hold (h.running e todo hrun)
  · intro c kind' hkind hc
    rw [hactive.mem_iff, List.mem_cons, not_or] at hc
    have hlt : c < s.jobs.length := by
      by_contra hge
      rw [List.getElem?_eq_none (by simp [State.start]; omega)] at hkind
      cases hkind
    refine h.finished c kind' ?_ hc.2
    simp only [State.start] at hkind
    rwa [List.getElem?_append_left hlt] at hkind
  · intro x hx
    have hlt := h.started x hx
    simp only [State.start, List.length_append, List.length_singleton]
    omega
  · simp [State.start, State.waiting, h.fifo]

/-- The head of the queue takes its turn. -/
theorem Inv.dispatch
    {e : Turn R} {rest : List (Turn R)} (h : Inv p s) (hidle : s.running = none)
    (hqueue : s.queue = e :: rest) (todo : List R) :
    Inv p { s with
      queue := rest
      running := some (e, todo)
      turns := s.turns ++ [(e.job, e.turn)] } := by
  have hdue : e.Due p s e.turn := h.queued e (by simp [hqueue])
  have hnodup := h.nodup
  simp only [State.active, State.waiting, hidle, hqueue, List.map_cons,
    Option.map_none, Option.toList_none, List.append_nil,
    List.nodup_cons] at hnodup
  have hturns : ∀ job, ({ s with
      queue := rest
      running := some (e, todo)
      turns := s.turns ++ [(e.job, e.turn)] } : State R).turnsOf job =
        s.turnsOf job ++ (if e.job = job then [e.turn] else []) := by
    intro job
    unfold State.turnsOf
    by_cases hjob : e.job = job <;> simp [hjob]
  have hactive : ({ s with
      queue := rest
      running := some (e, todo)
      turns := s.turns ++ [(e.job, e.turn)] } : State R).active.Perm s.active :=
    State.active_dispatch hidle hqueue rfl rfl
  constructor
  · exact hactive.nodup_iff.mpr h.nodup
  · intro f hf
    have hfdue : f.Due p s f.turn := h.queued f (by simp [hqueue, hf])
    have hne : e.job ≠ f.job := by
      intro heq
      exact hnodup.1 (heq ▸ List.mem_map_of_mem hf)
    refine ⟨hfdue.kind, hfdue.le, ?_⟩
    rw [hturns, if_neg hne, List.append_nil]
    exact hfdue.taken
  · intro f todo' hrun
    obtain ⟨rfl, rfl⟩ : e = f ∧ todo = todo' := by simpa using hrun
    refine ⟨hdue.kind, hdue.le, ?_⟩
    rw [hturns, if_pos rfl, hdue.taken, List.range_succ]
  · intro c kind hkind hc
    have hne : e.job ≠ c := by
      rintro rfl
      simp [State.active] at hc
    rw [hturns, if_neg hne, List.append_nil]
    exact h.finished c kind hkind (mt hactive.mem_iff.mpr hc)
  · intro x hx
    rcases List.mem_append.mp hx with hx | hx
    · exact h.started x hx
    · obtain rfl := List.mem_singleton.mp hx
      exact hdue.lt
  · simp [State.waiting, h.fifo, hqueue]

/-- The running job enters the queue again. -/
theorem Inv.requeue
    {e : Turn R} {todo : List R} (h : Inv p s)
    (hrun : s.running = some (e, todo)) (hlt : e.turn < p.lastTurn e.kind) :
    Inv p { s with
      queue := s.queue ++ [{ e with turn := e.turn + 1 }]
      running := none
      entered := s.entered ++ [e.job] } := by
  have hdue := h.running e todo hrun
  have hactive : ({ s with
      queue := s.queue ++ [{ e with turn := e.turn + 1 }]
      running := none
      entered := s.entered ++ [e.job] } : State R).active = s.active :=
    State.active_requeue hrun rfl rfl
  constructor
  · rw [hactive]
    exact h.nodup
  · intro f hf
    rcases List.mem_append.mp hf with hf | hf
    · exact (h.queued f hf).congr rfl rfl
    · obtain rfl := List.mem_singleton.mp hf
      exact ⟨hdue.kind, hlt, hdue.taken⟩
  · intro f todo' hnone
    cases hnone
  · intro c kind hkind hc
    rw [hactive] at hc
    exact h.finished c kind hkind hc
  · exact h.started
  · simp [State.waiting, h.fifo]

/-- The running job has taken its last turn. -/
theorem Inv.finish
    {e : Turn R} {todo : List R} (h : Inv p s)
    (hrun : s.running = some (e, todo)) (hlast : p.lastTurn e.kind ≤ e.turn) :
    Inv p { s with running := none } := by
  have hdue := h.running e todo hrun
  have hactive : s.active.Perm
      (e.job :: ({ s with running := none } : State R).active) :=
    State.active_finish hrun rfl rfl
  constructor
  · exact (List.nodup_cons.mp (hactive.nodup_iff.mp h.nodup)).2
  · intro f hf
    exact (h.queued f hf).congr rfl rfl
  · intro f todo' hnone
    cases hnone
  · intro c kind hkind hc
    by_cases hce : c = e.job
    · subst hce
      obtain rfl : e.kind = kind :=
        Option.some.inj (hdue.kind.symm.trans hkind)
      have hturn : p.lastTurn e.kind = e.turn := le_antisymm hlast hdue.le
      rw [hturn]
      exact hdue.taken
    · apply h.finished c kind hkind
      rw [hactive.mem_iff, List.mem_cons, not_or]
      exact ⟨hce, hc⟩
  · exact h.started
  · exact h.fifo

theorem step_inv (h : Inv p s) : Inv p (step p s) := by
  unfold step
  split
  · exact h
  · next e rest hrun hqueue => exact h.dispatch hrun hqueue _
  · next e kind todo hrun =>
      have hstart := h.start kind
      have hactive : ({ s.start kind with
          running := some (e, todo) } : State R).active =
            (s.start kind).active :=
        State.active_todo (s := s.start kind) hrun rfl rfl
      refine ⟨?_, ?_, ?_, ?_, hstart.started, hstart.fifo⟩
      · exact hactive ▸ hstart.nodup
      · intro f hf
        exact (hstart.queued f hf).congr rfl rfl
      · intro f todo' heq
        obtain ⟨rfl, rfl⟩ : e = f ∧ todo = todo' := by simpa using heq
        exact (hstart.running e (kind :: todo) hrun).congr rfl rfl
      · intro c kind' hkind hc
        exact hstart.finished c kind' hkind (hactive ▸ hc)
  · next e hrun =>
      split
      · next hlt => exact h.requeue hrun hlt
      · next hge => exact h.finish hrun (by omega)

theorem inv_empty : Inv p (empty : State R) where
  nodup := List.nodup_nil
  queued := by simp [empty]
  running := by simp [empty]
  finished := by simp [empty]
  started := by simp [empty]
  fifo := rfl

theorem Inv.iterate (h : Inv p s) (n : ℕ) :
    Inv p ((step p)^[n] s) := by
  induction n with
  | zero => exact h
  | succ n ih =>
      rw [Function.iterate_succ_apply']
      exact step_inv ih

/-- The turns of a job are taken in order, none twice. -/
theorem Inv.exists_turnsOf_eq
    (h : Inv p s) {c : ℕ} {kind : R} (hkind : s.jobs[c]? = some kind) :
    ∃ n ≤ p.lastTurn kind + 1, s.turnsOf c = List.range n := by
  obtain ⟨e, -, rfl, rfl, hdue⟩ | ⟨e, todo, -, rfl, rfl, hdue⟩ | htaken :=
    h.place hkind
  · exact ⟨e.turn, Nat.le_succ_of_le hdue.le, hdue.taken⟩
  · exact ⟨e.turn + 1, Nat.succ_le_succ hdue.le, hdue.taken⟩
  · exact ⟨_, le_rfl, htaken⟩

theorem mem_turns_iff {c k : ℕ} : (c, k) ∈ s.turns ↔ k ∈ s.turnsOf c := by
  simp [State.turnsOf]

/-! ## What a run adds -/

/-- A later state has the jobs, turns and entries of the earlier one. -/
structure Extends (s s' : State R) : Prop where
  jobs : s.jobs <+: s'.jobs
  turns : s.turns <+: s'.turns
  entered : s.entered <+: s'.entered

theorem Extends.kind
    {c : ℕ} {kind : R} (h : Extends s s') (hkind : s.jobs[c]? = some kind) :
    s'.jobs[c]? = some kind := by
  have hlt : c < s.jobs.length := (List.getElem?_eq_some_iff.mp hkind).1
  obtain ⟨more, hmore⟩ := h.jobs
  rw [← hmore, List.getElem?_append_left hlt]
  exact hkind

theorem step_extends (p : Program R) (s : State R) : Extends s (step p s) := by
  unfold step
  split
  · exact ⟨List.prefix_rfl, List.prefix_rfl, List.prefix_rfl⟩
  · exact ⟨List.prefix_rfl, List.prefix_append _ _, List.prefix_rfl⟩
  · exact ⟨List.prefix_append _ _, List.prefix_rfl, List.prefix_append _ _⟩
  · split
    · exact ⟨List.prefix_rfl, List.prefix_rfl, List.prefix_append _ _⟩
    · exact ⟨List.prefix_rfl, List.prefix_rfl, List.prefix_rfl⟩

theorem iterate_extends (p : Program R) (s : State R) (n : ℕ) :
    Extends s ((step p)^[n] s) := by
  induction n with
  | zero => exact ⟨List.prefix_rfl, List.prefix_rfl, List.prefix_rfl⟩
  | succ n ih =>
      rw [Function.iterate_succ_apply']
      have hstep := step_extends p ((step p)^[n] s)
      exact ⟨ih.jobs.trans hstep.jobs, ih.turns.trans hstep.turns,
        ih.entered.trans hstep.entered⟩

/-! ## Every turn is taken -/

/-- The running turn comes to its end, and the queue grows at its end only. -/
theorem exists_end
    {e : Turn R} {todo : List R} (hrun : s.running = some (e, todo)) :
    ∃ n q, ((step p)^[n] s).running = none ∧
      ((step p)^[n] s).queue = s.queue ++ q ∧
      (e.turn < p.lastTurn e.kind → { e with turn := e.turn + 1 } ∈ q) := by
  induction todo generalizing s with
  | nil =>
      by_cases hlt : e.turn < p.lastTurn e.kind
      · have hstep : step p s = { s with
            queue := s.queue ++ [{ e with turn := e.turn + 1 }]
            running := none
            entered := s.entered ++ [e.job] } := by
          simp [step, hrun, hlt]
        refine ⟨1, _, ?_, ?_, fun _ => List.mem_singleton.mpr rfl⟩
        · rw [Function.iterate_one, hstep]
        · rw [Function.iterate_one, hstep]
      · have hstep : step p s = { s with running := none } := by
          simp [step, hrun, hlt]
        refine ⟨1, [], ?_, ?_, fun h => absurd h hlt⟩
        · rw [Function.iterate_one, hstep]
        · rw [Function.iterate_one, hstep, List.append_nil]
  | cons kind todo ih =>
      have hstep : step p s =
          { s.start kind with running := some (e, todo) } := by
        simp [step, hrun]
      obtain ⟨n, q, hidle, hqueue, hnext⟩ := ih (s := step p s) (by rw [hstep])
      refine ⟨n + 1, [⟨s.jobs.length, kind, 0⟩] ++ q, hidle, ?_, ?_⟩
      · rw [Function.iterate_succ_apply, hqueue, hstep]
        simp [State.start]
      · exact fun hlt => List.mem_append_right _ (hnext hlt)

/-- The queue is served from the head on. -/
theorem exists_idle (p : Program R) (s : State R) :
    ∃ n q, ((step p)^[n] s).running = none ∧
      ((step p)^[n] s).queue = s.queue ++ q := by
  cases hrun : s.running with
  | none => exact ⟨0, [], hrun, by simp⟩
  | some x =>
      obtain ⟨n, q, hidle, hqueue, -⟩ := exists_end (p := p) hrun
      exact ⟨n, q, hidle, hqueue⟩

/-- Whatever is in the queue takes its turn, by induction on its position. -/
theorem exists_turn
    {e : Turn R} {pre post : List (Turn R)}
    (hqueue : s.queue = pre ++ e :: post) :
    ∃ n, (e.job, e.turn) ∈ ((step p)^[n] s).turns := by
  induction pre generalizing s post with
  | nil =>
      obtain ⟨n, q, hidle, hq⟩ := exists_idle p s
      refine ⟨n + 1, ?_⟩
      rw [Function.iterate_succ_apply']
      rw [hqueue, List.nil_append, List.cons_append] at hq
      simp [step, hidle, hq]
  | cons d pre ih =>
      obtain ⟨n, q, hidle, hq⟩ := exists_idle p s
      rw [hqueue, List.cons_append, List.cons_append, List.append_assoc,
        List.cons_append] at hq
      have hstep : (step p ((step p)^[n] s)).queue = pre ++ e :: (post ++ q) := by
        simp [step, hidle, hq]
      obtain ⟨k, hk⟩ := ih hstep
      refine ⟨k + (n + 1), ?_⟩
      rw [Function.iterate_add_apply, Function.iterate_succ_apply']
      exact hk

theorem exists_turn_of_mem {e : Turn R} (he : e ∈ s.queue) :
    ∃ n, (e.job, e.turn) ∈ ((step p)^[n] s).turns := by
  obtain ⟨pre, post, hqueue⟩ := List.append_of_mem he
  exact exists_turn hqueue

/-- Once a turn is taken, the next one of the same job is taken. -/
theorem Inv.exists_next_turn
    (h : Inv p s) {c k : ℕ} {kind : R} (hkind : s.jobs[c]? = some kind)
    (hk : (c, k) ∈ s.turns) (hlt : k < p.lastTurn kind) :
    ∃ n, (c, k + 1) ∈ ((step p)^[n] s).turns := by
  rw [mem_turns_iff] at hk
  by_cases htaken : k + 1 ∈ s.turnsOf c
  · exact ⟨0, mem_turns_iff.mpr htaken⟩
  obtain ⟨e, he, rfl, rfl, hdue⟩ | ⟨e, todo, hr, rfl, rfl, hdue⟩ | hall :=
    h.place hkind
  · rw [hdue.taken, List.mem_range] at hk htaken
    have hturn : e.turn = k + 1 := by omega
    rw [← hturn]
    exact exists_turn_of_mem he
  · rw [hdue.taken, List.mem_range] at hk htaken
    obtain rfl : k = e.turn := by omega
    obtain ⟨n, q, -, hq, hnext⟩ := exists_end (p := p) hr
    have hmem : { e with turn := e.turn + 1 } ∈ ((step p)^[n] s).queue := by
      rw [hq]
      exact List.mem_append_right _ (hnext hlt)
    obtain ⟨j, hj⟩ := exists_turn_of_mem (p := p) hmem
    refine ⟨j + n, ?_⟩
    rw [Function.iterate_add_apply]
    exact hj
  · rw [hall, List.mem_range] at htaken
    omega

/-- Every turn of every job is taken. -/
theorem Inv.exists_turn_of_le
    (h : Inv p s) {c k : ℕ} {kind : R} (hkind : s.jobs[c]? = some kind)
    (hk : k ≤ p.lastTurn kind) :
    ∃ n, (c, k) ∈ ((step p)^[n] s).turns := by
  induction k with
  | zero =>
      by_cases htaken : 0 ∈ s.turnsOf c
      · exact ⟨0, mem_turns_iff.mpr htaken⟩
      obtain ⟨e, he, rfl, rfl, hdue⟩ | ⟨e, todo, -, rfl, rfl, hdue⟩ | hall :=
        h.place hkind
      · rw [hdue.taken, List.mem_range] at htaken
        have hturn : e.turn = 0 := by omega
        rw [← hturn]
        exact exists_turn_of_mem he
      · rw [hdue.taken, List.mem_range] at htaken
        omega
      · rw [hall, List.mem_range] at htaken
        omega
  | succ k ih =>
      obtain ⟨n, hn⟩ := ih (by omega)
      have hkind' := (iterate_extends p s n).kind hkind
      obtain ⟨j, hj⟩ := (h.iterate n).exists_next_turn hkind' hn (by omega)
      refine ⟨j + n, ?_⟩
      rw [Function.iterate_add_apply]
      exact hj

/-! ## Rest -/

theorem iterate_extends_of_le
    (p : Program R) (s : State R) {n n' : ℕ} (hle : n ≤ n') :
    Extends ((step p)^[n] s) ((step p)^[n'] s) := by
  obtain ⟨d, rfl⟩ := Nat.exists_eq_add_of_le hle
  rw [Nat.add_comm, Function.iterate_add_apply]
  exact iterate_extends p _ d

/-- Jobs that take their turns at different times have all taken them at some
time. -/
theorem exists_common
    {last : ℕ → ℕ} {k : ℕ}
    (hall : ∀ c < k, ∃ n, (c, last c) ∈ ((step p)^[n] s).turns) :
    ∃ n, ∀ c < k, (c, last c) ∈ ((step p)^[n] s).turns := by
  induction k with
  | zero => exact ⟨0, fun c hc => absurd hc (Nat.not_lt_zero c)⟩
  | succ k ih =>
      obtain ⟨n, hn⟩ := ih fun c hc => hall c (by omega)
      obtain ⟨n', hn'⟩ := hall k (Nat.lt_succ_self k)
      refine ⟨max n n', fun c hc => ?_⟩
      by_cases hck : c = k
      · subst hck
        exact (iterate_extends_of_le p s (le_max_right n n')).turns.subset hn'
      · exact (iterate_extends_of_le p s (le_max_left n n')).turns.subset
          (hn c (by omega))

/-- When no more than finitely many jobs are started, none is started from
some time on. -/
theorem exists_jobs_eq
    {bound : ℕ} (hbound : ∀ n, ((step p)^[n] s).jobs.length ≤ bound) :
    ∃ N, ∀ n, N ≤ n → ((step p)^[n] s).jobs = ((step p)^[N] s).jobs := by
  have hmax : ∃ N, ∀ n, ((step p)^[n] s).jobs.length ≤
      ((step p)^[N] s).jobs.length := by
    by_contra hnot
    push Not at hnot
    have hgrow : ∀ k, ∃ n, k ≤ ((step p)^[n] s).jobs.length := by
      intro k
      induction k with
      | zero => exact ⟨0, Nat.zero_le _⟩
      | succ k ih =>
          obtain ⟨n, hn⟩ := ih
          obtain ⟨n', hn'⟩ := hnot n
          exact ⟨n', by omega⟩
    obtain ⟨n, hn⟩ := hgrow (bound + 1)
    have hle := hbound n
    omega
  obtain ⟨N, hmax⟩ := hmax
  refine ⟨N, fun n hn => ?_⟩
  have hextends := (iterate_extends_of_le p s hn).jobs
  exact (hextends.eq_of_length_le (hmax n)).symm

/-- At some time the present jobs have taken all their turns. -/
theorem Inv.exists_allTaken (h : Inv p s) :
    ∃ n, ∀ c kind, s.jobs[c]? = some kind →
      (c, p.lastTurn kind) ∈ ((step p)^[n] s).turns := by
  let last : ℕ → ℕ := fun c => (s.jobs[c]?.map p.lastTurn).getD 0
  have hlast : ∀ c kind, s.jobs[c]? = some kind → last c = p.lastTurn kind := by
    intro c kind hkind
    simp [last, hkind]
  obtain ⟨n, hn⟩ : ∃ n, ∀ c < s.jobs.length,
      (c, last c) ∈ ((step p)^[n] s).turns := by
    apply exists_common
    intro c hc
    have hkind := List.getElem?_eq_getElem hc
    rw [hlast c _ hkind]
    exact h.exists_turn_of_le hkind le_rfl
  refine ⟨n, fun c kind hkind => ?_⟩
  rw [← hlast c kind hkind]
  exact hn c (List.getElem?_eq_some_iff.mp hkind).1

/-- When no more than finitely many jobs are started, nothing is left to run
at some time. -/
theorem Inv.exists_rest
    (h : Inv p s) {bound : ℕ}
    (hbound : ∀ n, ((step p)^[n] s).jobs.length ≤ bound) :
    ∃ n, step p ((step p)^[n] s) = (step p)^[n] s := by
  obtain ⟨N, hN⟩ := exists_jobs_eq hbound
  obtain ⟨M, hM⟩ := (h.iterate N).exists_allTaken
  obtain ⟨d, q, hidle, -⟩ := exists_idle p ((step p)^[M] ((step p)^[N] s))
  have hsum : (step p)^[d] ((step p)^[M] ((step p)^[N] s)) =
      (step p)^[d + (M + N)] s := by
    rw [Function.iterate_add_apply, Function.iterate_add_apply]
  have hextends := iterate_extends p ((step p)^[M] ((step p)^[N] s)) d
  rw [hsum] at hidle hextends
  refine ⟨d + (M + N), ?_⟩
  have hempty : ((step p)^[d + (M + N)] s).queue = [] := by
    rw [List.eq_nil_iff_forall_not_mem]
    intro e he
    have hdue := (h.iterate (d + (M + N))).queued e he
    have hkind := hdue.kind
    rw [hN _ (by omega)] at hkind
    -- the turn that the entry waits for is taken already
    have hmem := hextends.turns.subset (hM e.job e.kind hkind)
    rw [mem_turns_iff, hdue.taken, List.mem_range] at hmem
    have hle := hdue.le
    omega
  exact step_of_active_nil (State.active_eq_nil_iff.mpr ⟨hempty, hidle⟩)

/-! ## Between two turns of a job -/

theorem prefix_of_append_eq
    {α : Type u} {l r w es : List α} {x : α} (heq : l ++ x :: es = r ++ w)
    (hr : x ∈ r) (hl : x ∉ l) : ∃ t, r = l ++ x :: t := by
  rcases List.append_eq_append_iff.mp heq with ⟨a, rfl, ha⟩ | ⟨a, rfl, -⟩
  · cases a with
    | nil =>
        rw [List.append_nil] at hr
        exact absurd hr hl
    | cons y t =>
        obtain ⟨rfl, -⟩ := List.cons.inj ha
        exact ⟨t, rfl⟩
  · exact absurd (List.mem_append_left _ hr) hl

/-- When a job that has more turns has ended one, the next turns are those of
the jobs in the queue, one each, and then its own next turn. -/
theorem Inv.turns_between
    {e : Turn R} (h : Inv p s) (hrun : s.running = some (e, []))
    (hlt : e.turn < p.lastTurn e.kind) {n : ℕ}
    (hmem : (e.job, e.turn + 1) ∈ ((step p)^[n] s).turns) :
    ∃ mid post, ((step p)^[n] s).turns =
        s.turns ++ (mid ++ (e.job, e.turn + 1) :: post) ∧
      mid.map Prod.fst = s.waiting := by
  have hdue := h.running e [] hrun
  have hnot : (e.job, e.turn + 1) ∉ s.turns := by
    rw [mem_turns_iff, hdue.taken]
    simp
  have hwaiting : e.job ∉ s.waiting := h.running_not_waiting hrun
  obtain ⟨n, rfl⟩ : ∃ k, n = k + 1 := by
    apply Nat.exists_eq_succ_of_ne_zero
    rintro rfl
    exact hnot hmem
  set s' := (step p)^[n + 1] s with hs'
  have hinv : Inv p s' := h.iterate (n + 1)
  -- the entries after this turn begin with the job itself
  have hentered : s.entered ++ [e.job] <+: s'.entered := by
    have hstep : (step p s).entered = s.entered ++ [e.job] := by
      simp [step, hrun, hlt]
    rw [← hstep, hs', Function.iterate_succ_apply]
    exact (iterate_extends p (step p s) n).entered
  obtain ⟨es, hes⟩ := hentered
  obtain ⟨rest, hrest⟩ : s.turns <+: s'.turns :=
    (iterate_extends p s (n + 1)).turns
  have hqueue : s.waiting ++ e.job :: es = rest.map Prod.fst ++ s'.waiting := by
    have hfifo := hinv.fifo
    rw [← hes, ← hrest, h.fifo] at hfifo
    simpa using hfifo
  have hin : (e.job, e.turn + 1) ∈ rest := by
    rw [← hrest] at hmem
    exact (List.mem_append.mp hmem).resolve_left hnot
  obtain ⟨t, ht⟩ := prefix_of_append_eq hqueue
    (List.mem_map_of_mem (f := Prod.fst) hin) hwaiting
  obtain ⟨mid, tail, rfl, hmid, htail⟩ := List.map_eq_append_iff.mp ht
  obtain ⟨⟨c, k⟩, post, rfl, hc, -⟩ := List.map_eq_cons_iff.mp htail
  obtain rfl : c = e.job := hc
  -- the turns of the job are numbered in order
  have hk : k = e.turn + 1 := by
    have hkind : s'.jobs[e.job]? = some e.kind :=
      (iterate_extends p s (n + 1)).kind hdue.kind
    obtain ⟨j, -, hj⟩ := hinv.exists_turnsOf_eq hkind
    have hnone : mid.filter (fun x => x.1 = e.job) = [] := by
      rw [List.filter_eq_nil_iff]
      intro x hx hxe
      apply hwaiting
      rw [← hmid, ← of_decide_eq_true hxe]
      exact List.mem_map_of_mem hx
    have htaken := hdue.taken
    unfold State.turnsOf at hj htaken
    rw [← hrest, List.filter_append, List.map_append, htaken,
      List.filter_append, hnone] at hj
    simp only [List.nil_append, List.filter_cons, decide_true, if_true,
      List.map_cons] at hj
    have hget := congrArg (fun l => l[e.turn + 1]?) hj
    rw [List.getElem?_append_right (by simp), List.length_range,
      Nat.sub_self, List.getElem?_cons_zero] at hget
    obtain ⟨hin', hval⟩ := List.getElem?_eq_some_iff.mp hget.symm
    simpa using hval.symm
  subst hk
  exact ⟨mid, post, hrest.symm, hmid⟩

end RoundRobin
end Support
end OsFifthSem
