import Mathlib.Data.Nat.ModEq
import OsFifthSem.Support.Stutter
import OsFifthSem.Threads.Uthread.Machine
import OsFifthSem.Threads.Uthread.Turns

/-!
# The threads take turns

A finished thread stays active, since it can still be joined, so `yield` goes
round all the created threads whether or not they have finished.  The machine
is therefore simulated by a counter of turns, which stops at the first turn of
a thread that has finished: such a thread goes on in `finish` and resumes
`main_context`.
-/

namespace OsFifthSem
namespace Uthread

open Support

/-- The thread at an offset from the first one. -/
def threadAt (ys : List ℕ) (first o : ℕ) : ℕ := (first + o) % ys.length

/-- The number of yields of the thread at an offset from the first one. -/
def yieldsAt (ys : List ℕ) (first o : ℕ) : ℕ := ys.getD (threadAt ys first o) 0

variable {limit first t : ℕ} {ys : List ℕ} {m : Machine}

theorem threadAt_lt (hys : 0 < ys.length) (o : ℕ) :
    threadAt ys first o < ys.length :=
  Nat.mod_lt _ hys

@[simp] theorem threadAt_mod (ys : List ℕ) (first o : ℕ) :
    threadAt ys first (o % ys.length) = threadAt ys first o := by
  simp [threadAt]

theorem threadAt_succ (ys : List ℕ) (first o : ℕ) :
    (threadAt ys first o + 1) % ys.length = threadAt ys first (o + 1) := by
  simp [threadAt, Nat.add_assoc]

theorem threadAt_inj
    {o o' : ℕ} (ho : o < ys.length) (ho' : o' < ys.length)
    (heq : threadAt ys first o = threadAt ys first o') : o = o' := by
  have hmod : o ≡ o' [MOD ys.length] := Nat.ModEq.add_left_cancel' first heq
  rwa [Nat.ModEq, Nat.mod_eq_of_lt ho, Nat.mod_eq_of_lt ho'] at hmod

/-- The thread of turn `t` is the one at offset `t % ys.length`. -/
theorem threadAt_ne
    {o : ℕ} (hys : 0 < ys.length) (ho : o < ys.length)
    (hot : o ≠ t % ys.length) (first : ℕ) :
    threadAt ys first o ≠ threadAt ys first t := by
  intro heq
  rw [← threadAt_mod ys first t] at heq
  exact hot (threadAt_inj ho (Nat.mod_lt _ hys) heq)

theorem exists_threadAt
    {i : ℕ} (hi : i < ys.length) (first : ℕ) :
    ∃ o < ys.length, threadAt ys first o = i := by
  have hys : 0 < ys.length := by omega
  have hfirst := Nat.mod_lt first hys
  refine ⟨(i + ys.length - first % ys.length) % ys.length,
    Nat.mod_lt _ hys, ?_⟩
  rw [threadAt_mod, threadAt, ← Nat.mod_add_mod]
  have hsum : first % ys.length + (i + ys.length - first % ys.length) =
      i + ys.length := by omega
  rw [hsum, Nat.add_mod_right, Nat.mod_eq_of_lt hi]

/-! ## The simulation relation -/

/-- Where a thread with `y` yields goes on after its first `v` turns. -/
def contextAt (thread y : ℕ) : ℕ → ResumePoint
  | 0 => .threadWrapper thread
  | v + 1 =>
      .yield thread (if v < y then .routine (y - (v + 1)) else .finish)

/-- The caller of `yield` in the turn with index `q`. -/
def Caller.Due (y q : ℕ) : Caller → Prop
  | .routine left => left + 1 + q = y
  | .finish => q = y

/-- The code that the thread may run in its turn with index `q`. -/
def ControlAt (thread y q : ℕ) : Control → Prop
  | .uthreadStart i | .threadWrapper i => i = thread ∧ q = 0
  | .routine i left => i = thread ∧ left + q = y
  | .finish i => i = thread ∧ q = y
  | .yield i caller => i = thread ∧ caller.Due y q
  | .yielded i (.routine left) _ => i = thread ∧ left + q = y
  | .yielded _ .finish _ | .main => q = y + 1
  | .fault => False

/-- The running thread has set its `isFinished`. -/
def Control.finished : Control → Bool
  | .yield _ .finish | .yielded _ .finish _ | .main => true
  | _ => false

/-- `uthread_start` has been called. -/
def Control.started : Control → Bool
  | .uthreadStart _ => false
  | _ => true

/-- A created thread; joining does not start before `main_context` is
resumed. -/
structure Created (th : UThread) (y : ℕ) (finished : Bool) : Prop where
  active : th.isActive = true
  joinable : th.isJoinable = true
  startRoutine : th.startRoutine = y
  finished : th.isFinished = finished

/-- The machine is in turn `t`, and no turn before was late. -/
structure Sim (limit : ℕ) (ys : List ℕ) (first : ℕ) (m : Machine) (t : ℕ) :
    Prop where
  early : ∀ t' < t, ¬ Late ys.length (yieldsAt ys first) t'
  others : ∀ o < ys.length, o ≠ t % ys.length → ∃ th,
    m.threads (threadAt ys first o) = some th ∧
    Created th (yieldsAt ys first o)
      (decide (yieldsAt ys first o < turnsBefore ys.length t o)) ∧
    th.context = contextAt (threadAt ys first o) (yieldsAt ys first o)
      (turnsBefore ys.length t o)
  current : ∃ th, m.threads (threadAt ys first t) = some th ∧
    Created th (yieldsAt ys first (t % ys.length)) m.control.finished ∧
    (m.control.started = false → th.tid = threadAt ys first t ∧
      th.context = .threadWrapper (threadAt ys first t))
  inactive : ∀ i, ys.length ≤ i → i < limit → m.threads.isActive i = false
  control : ControlAt (threadAt ys first t) (yieldsAt ys first (t % ys.length))
    (t / ys.length) m.control
  running : m.control.started = true →
    m.curTid = threadAt ys first t ∧ m.mainContext = some .uthreadStart
  alone : ys.length = 1 → m.switches = []
  seen : 2 ≤ ys.length → Late ys.length (yieldsAt ys first) t →
    ∃ x ∈ m.switches, x.2 = true

/-- The next turn, up to the first late one. -/
def nextTurn (ys : List ℕ) (first t : ℕ) : ℕ :=
  if Late ys.length (yieldsAt ys first) t then t else t + 1

/-- The number of steps before the next turn, at most. -/
def Control.rank : Control → ℕ
  | .uthreadStart _ => 4
  | .threadWrapper _ | .yielded _ _ _ => 3
  | .routine _ _ => 2
  | .finish _ => 1
  | .yield _ _ | .main | .fault => 0

/-- `main_context` has been resumed. -/
def InMain (m : Machine) : Prop := m.control = .main

theorem contextAt_of_due
    {caller : Caller} {thread y q : ℕ} (h : caller.Due y q) :
    contextAt thread y (q + 1) = .yield thread caller := by
  cases caller with
  | routine left =>
      have hdue : left + 1 + q = y := h
      have hleft : y - (q + 1) = left := by omega
      rw [contextAt, if_pos (by omega), hleft]
  | finish =>
      have hdue : q = y := h
      rw [contextAt, if_neg (by omega)]

theorem finished_of_due
    {caller : Caller} {y q : ℕ} (h : caller.Due y q) (thread : ℕ) :
    (Control.yield thread caller).finished = decide (y < q + 1) := by
  cases caller with
  | routine left =>
      have hdue : left + 1 + q = y := h
      have hnot : ¬ y < q + 1 := by omega
      rw [decide_eq_false hnot]
      rfl
  | finish =>
      have hdue : q = y := h
      have hlt : y < q + 1 := by omega
      rw [decide_eq_true hlt]
      rfl

/-- What a thread does when it is given its next turn. -/
theorem resume_contextAt
    (thread : ℕ) {y v : ℕ} (hv : v ≤ y + 1) :
    ControlAt thread y v (Machine.resume (contextAt thread y v)) ∧
      (Machine.resume (contextAt thread y v)).finished = decide (y < v) ∧
      (Machine.resume (contextAt thread y v)).started = true := by
  cases v with
  | zero =>
      rw [decide_eq_false (Nat.not_lt_zero y)]
      exact ⟨⟨rfl, rfl⟩, rfl, rfl⟩
  | succ v =>
      by_cases hlt : v < y
      · have hnot : ¬ y < v + 1 := by omega
        have hsum : y - (v + 1) + (v + 1) = y := by omega
        rw [contextAt, if_pos hlt, decide_eq_false hnot]
        exact ⟨⟨rfl, hsum⟩, rfl, rfl⟩
      · have hle : y < v + 1 := by omega
        have heq : v + 1 = y + 1 := by omega
        rw [contextAt, if_neg hlt, decide_eq_true hle]
        exact ⟨heq, rfl, rfl⟩

namespace Sim

/-- `yield` finds all the created threads and no others. -/
theorem activeBelow (h : Sim limit ys first m t) :
    ActiveBelow limit ys.length m.threads := by
  intro i hi
  by_cases hik : i < ys.length
  · refine iff_of_true ?_ hik
    obtain ⟨o, ho, rfl⟩ := exists_threadAt hik first
    by_cases hot : o = t % ys.length
    · subst hot
      obtain ⟨th, hth, hcreated, -⟩ := h.current
      rw [threadAt_mod]
      simp [Threads.isActive, hth, hcreated.active]
    · obtain ⟨th, hth, hcreated, -⟩ := h.others o ho hot
      simp [Threads.isActive, hth, hcreated.active]
  · refine iff_of_false ?_ hik
    rw [h.inactive i (by omega) hi]
    simp

/-- The other threads stay inactive when the running one changes. -/
theorem inactive_update
    {th : Option UThread} (h : Sim limit ys first m t) (hys : 0 < ys.length) :
    ∀ i, ys.length ≤ i → i < limit → Threads.isActive
      (Function.update m.threads (threadAt ys first t) th) i = false := by
  intro i hi hil
  have hlt : threadAt ys first t < ys.length := threadAt_lt hys t
  unfold Threads.isActive
  rw [Function.update_of_ne (by omega)]
  exact h.inactive i hi hil

/-! ## Steps within a turn -/

/-- The step of the machine stays within the turn. -/
def Stutters (limit : ℕ) (ys : List ℕ) (first : ℕ) (m : Machine) (t : ℕ) :
    Prop :=
  Sim limit ys first (m.step limit) t ∧
    (m.step limit).control.rank < m.control.rank

/-- A step within a turn that changes nothing but the control. -/
theorem goto
    {c c' : Control} (h : Sim limit ys first m t) (hcontrol : m.control = c)
    (hstep : m.step limit = { m with control := c' })
    (hat : ControlAt (threadAt ys first t) (yieldsAt ys first (t % ys.length))
      (t / ys.length) c')
    (hfinished : c'.finished = c.finished) (hc : c.started = true)
    (hc' : c'.started = true) (hrank : c'.rank < c.rank) :
    Stutters limit ys first m t := by
  subst hcontrol
  rw [Stutters, hstep]
  refine ⟨?_, hrank⟩
  obtain ⟨th, hth, hcreated, -⟩ := h.current
  refine ⟨h.early, h.others, ⟨th, hth, hfinished ▸ hcreated, ?_⟩, h.inactive,
    hat, fun _ => h.running hc, h.alone, h.seen⟩
  simp [hc']

theorem uthreadStart
    {thread : ℕ} (h : Sim limit ys first m t)
    (hcontrol : m.control = .uthreadStart thread) :
    Stutters limit ys first m t := by
  have hat := h.control
  rw [hcontrol] at hat
  obtain ⟨rfl, hq⟩ := hat
  obtain ⟨th, hth, hcreated, hstart⟩ := h.current
  obtain ⟨htid, hcontext⟩ := hstart (by rw [hcontrol]; rfl)
  have hstep : m.step limit = { m with
      curTid := threadAt ys first t
      mainContext := some .uthreadStart
      control := .threadWrapper (threadAt ys first t) } := by
    simp [Machine.step, hcontrol, hth, htid, hcontext, Machine.resume]
  rw [hcontrol] at hcreated
  rw [Stutters, hstep, hcontrol]
  constructor
  · refine ⟨h.early, h.others, ⟨th, hth, hcreated, ?_⟩, h.inactive, ⟨rfl, hq⟩,
      fun _ => ⟨rfl, rfl⟩, h.alone, h.seen⟩
    intro hfalse
    cases hfalse
  · simp [Control.rank]

theorem threadWrapper
    {thread : ℕ} (h : Sim limit ys first m t)
    (hcontrol : m.control = .threadWrapper thread) :
    Stutters limit ys first m t := by
  have hat := h.control
  rw [hcontrol] at hat
  obtain ⟨rfl, hq⟩ := hat
  obtain ⟨th, hth, hcreated, -⟩ := h.current
  have hstep : m.step limit = { m with
      control := .routine (threadAt ys first t)
        (yieldsAt ys first (t % ys.length)) } := by
    simp [Machine.step, hcontrol, hth, hcreated.startRoutine]
  exact h.goto hcontrol hstep ⟨rfl, by omega⟩ rfl rfl rfl
    (by simp [Control.rank])

theorem routine
    {thread left : ℕ} (h : Sim limit ys first m t)
    (hcontrol : m.control = .routine thread left) :
    Stutters limit ys first m t := by
  have hat := h.control
  rw [hcontrol] at hat
  obtain ⟨rfl, hq⟩ := hat
  cases left with
  | zero =>
      have hstep : m.step limit =
          { m with control := .finish (threadAt ys first t) } := by
        simp [Machine.step, hcontrol]
      exact h.goto hcontrol hstep ⟨rfl, by omega⟩ rfl rfl rfl
        (by simp [Control.rank])
  | succ left =>
      have hstep : m.step limit = { m with
          control := .yield (threadAt ys first t) (.routine left) } := by
        simp [Machine.step, hcontrol]
      exact h.goto hcontrol hstep ⟨rfl, hq⟩ rfl rfl rfl
        (by simp [Control.rank])

/-- `finish` sets `isFinished` and leaves the thread active. -/
theorem finish
    {thread : ℕ} (hys : 0 < ys.length) (h : Sim limit ys first m t)
    (hcontrol : m.control = .finish thread) :
    Stutters limit ys first m t := by
  have hat := h.control
  rw [hcontrol] at hat
  obtain ⟨rfl, hq⟩ := hat
  obtain ⟨hcur, hmain⟩ := h.running (by rw [hcontrol]; rfl)
  obtain ⟨th, hth, hcreated, -⟩ := h.current
  have hstep : m.step limit = { m with
      threads := Function.update m.threads (threadAt ys first t)
        (some { th with isFinished := true })
      control := .yield (threadAt ys first t) .finish } := by
    simp [Machine.step, hcontrol, hcur, hth, hcreated.joinable]
  rw [Stutters, hstep, hcontrol]
  constructor
  · refine ⟨h.early, ?_, ?_, ?_, ⟨rfl, hq⟩, fun _ => ⟨hcur, hmain⟩, h.alone,
      h.seen⟩
    · intro o ho hot
      simp only
      rw [Function.update_of_ne (threadAt_ne hys ho hot first)]
      exact h.others o ho hot
    · refine ⟨_, Function.update_self .., ?_, ?_⟩
      · exact ⟨hcreated.active, hcreated.joinable, hcreated.startRoutine, rfl⟩
      · intro hfalse
        cases hfalse
    · exact h.inactive_update hys
  · simp [Control.rank]

theorem yielded
    {thread : ℕ} {caller : Caller} {res : ℤ} (h : Sim limit ys first m t)
    (hcontrol : m.control = .yielded thread caller res) :
    Stutters limit ys first m t := by
  have hat := h.control
  obtain ⟨hcur, hmain⟩ := h.running (by rw [hcontrol]; rfl)
  rw [hcontrol] at hat
  cases caller with
  | routine left =>
      obtain ⟨rfl, hq⟩ := hat
      have hstep : m.step limit =
          { m with control := .routine (threadAt ys first t) left } := by
        simp [Machine.step, hcontrol]
      exact h.goto hcontrol hstep ⟨rfl, hq⟩ rfl rfl rfl
        (by simp [Control.rank])
  | finish =>
      have hstep : m.step limit = { m with control := .main } := by
        simp [Machine.step, hcontrol, hmain, Machine.resume]
      exact h.goto hcontrol hstep hat rfl rfl rfl (by simp [Control.rank])

/-! ## The next turn -/

/-- A thread that yields has turns left or has just finished. -/
theorem not_late
    {thread : ℕ} {caller : Caller} (h : Sim limit ys first m t)
    (hcontrol : m.control = .yield thread caller) :
    ¬ Late ys.length (yieldsAt ys first) t := by
  have hat := h.control
  rw [hcontrol] at hat
  obtain ⟨-, hdue⟩ := hat
  unfold Late
  cases caller with
  | routine left =>
      have hq : left + 1 + t / ys.length = yieldsAt ys first (t % ys.length) :=
        hdue
      omega
  | finish =>
      have hq : t / ys.length = yieldsAt ys first (t % ys.length) := hdue
      omega

theorem early_succ
    {thread : ℕ} {caller : Caller} (h : Sim limit ys first m t)
    (hcontrol : m.control = .yield thread caller) :
    ∀ t' < t + 1, ¬ Late ys.length (yieldsAt ys first) t' := by
  intro t' ht'
  by_cases heq : t' = t
  · subst heq
    exact h.not_late hcontrol
  · exact h.early t' (by omega)

/-- The only thread yields to itself. -/
theorem yield_alone
    {thread : ℕ} {caller : Caller} (hkl : ys.length ≤ limit)
    (hone : ys.length = 1) (h : Sim limit ys first m t)
    (hcontrol : m.control = .yield thread caller) :
    Sim limit ys first (m.step limit) (t + 1) := by
  have hat := h.control
  rw [hcontrol] at hat
  obtain ⟨rfl, hdue⟩ := hat
  obtain ⟨hcur, hmain⟩ := h.running (by rw [hcontrol]; rfl)
  obtain ⟨th, hth, hcreated, -⟩ := h.current
  have hsame : threadAt ys first (t + 1) = threadAt ys first t := by
    simp [threadAt, hone, Nat.mod_one]
  have hnext : getNextActive limit m.threads m.curTid = some (m.curTid : ℤ) := by
    rw [getNextActive_eq h.activeBelow hkl (hcur ▸ threadAt_lt (by omega) t),
      hcur, threadAt_succ, hsame]
  have hstep : m.step limit = { m with
      control := .yielded (threadAt ys first t) caller 0 } := by
    simp [Machine.step, hcontrol, Machine.yield, hnext]
  have hmod : (t + 1) % ys.length = t % ys.length := by
    rw [hone, Nat.mod_one, Nat.mod_one]
  have hdiv : (t + 1) / ys.length = t / ys.length + 1 := by
    rw [hone, Nat.div_one, Nat.div_one]
  rw [hstep]
  constructor
  · exact h.early_succ hcontrol
  · intro o ho hot
    rw [hone] at ho hot
    rw [Nat.mod_one] at hot
    omega
  · refine ⟨th, hsame ▸ hth, ?_, ?_⟩
    · rw [hcontrol] at hcreated
      rw [hmod]
      cases caller <;> exact hcreated
    · intro hfalse
      cases hfalse
  · exact h.inactive
  · rw [hsame, hmod, hdiv]
    cases caller with
    | routine left =>
        refine ⟨rfl, ?_⟩
        have hq : left + 1 + t / ys.length =
          yieldsAt ys first (t % ys.length) := hdue
        omega
    | finish => exact congrArg (· + 1) hdue
  · rw [hsame]
    exact fun _ => ⟨hcur, hmain⟩
  · exact h.alone
  · intro htwo
    omega

/-- One of several threads yields to the next one. -/
theorem yield_next
    {thread : ℕ} {caller : Caller} (hkl : ys.length ≤ limit)
    (htwo : 2 ≤ ys.length) (h : Sim limit ys first m t)
    (hcontrol : m.control = .yield thread caller) :
    Sim limit ys first (m.step limit) (t + 1) := by
  have hys : 0 < ys.length := by omega
  have hat := h.control
  rw [hcontrol] at hat
  obtain ⟨rfl, hdue⟩ := hat
  obtain ⟨hcur, hmain⟩ := h.running (by rw [hcontrol]; rfl)
  obtain ⟨th, hth, hcreated, -⟩ := h.current
  rw [hcontrol, finished_of_due hdue] at hcreated
  have hearly := h.early_succ hcontrol
  -- the next thread
  have hoffset : (t + 1) % ys.length ≠ t % ys.length := by
    obtain ⟨-, hmod⟩ | ⟨hlast, -, hmod⟩ := succ_div_mod (t := t) hys
    · omega
    · omega
  have hlt := Nat.mod_lt (t + 1) hys
  obtain ⟨new, hnew, hnewCreated, hcontext⟩ := h.others _ hlt hoffset
  rw [← turnsBefore_succ_of_ne hlt hoffset, turnsBefore_self]
    at hnewCreated hcontext
  rw [threadAt_mod] at hnew hcontext
  have hne : threadAt ys first (t + 1) ≠ threadAt ys first t := by
    intro heq
    rw [← threadAt_mod ys first (t + 1), ← threadAt_mod ys first t] at heq
    exact hoffset (threadAt_inj hlt (Nat.mod_lt t hys) heq)
  have hnext : getNextActive limit m.threads m.curTid =
      some (threadAt ys first (t + 1) : ℤ) := by
    rw [getNextActive_eq h.activeBelow hkl (hcur ▸ threadAt_lt hys t), hcur,
      threadAt_succ]
  have hstep : m.step limit = { m with
      threads := Function.update m.threads (threadAt ys first t)
        (some { th with context := .yield (threadAt ys first t) caller })
      curTid := threadAt ys first (t + 1)
      switches := m.switches ++ [(threadAt ys first (t + 1), new.isFinished)]
      control := Machine.resume new.context } := by
    have hneInt : (threadAt ys first (t + 1) : ℤ) ≠ threadAt ys first t := by
      exact_mod_cast hne
    rw [hcur] at hnext
    simp [Machine.step, hcontrol, Machine.yield, hcur, hnext, hneInt, hth, hnew]
  have hbound := div_le_of_early hys hearly
  obtain ⟨hcontrolAt, hfinished, hstarted⟩ :=
    resume_contextAt (threadAt ys first (t + 1)) hbound
  rw [← hcontext] at hcontrolAt hfinished hstarted
  rw [hstep]
  constructor
  · exact hearly
  · intro o ho hot
    by_cases hold : o = t % ys.length
    · subst hold
      refine ⟨{ th with context := .yield (threadAt ys first t) caller }, ?_, ?_,
        ?_⟩
      · rw [threadAt_mod]
        exact Function.update_self ..
      · rw [turnsBefore_succ_self hys]
        exact ⟨hcreated.active, hcreated.joinable, hcreated.startRoutine,
          hcreated.finished⟩
      · rw [turnsBefore_succ_self hys, contextAt_of_due hdue, threadAt_mod]
    · rw [turnsBefore_succ_of_ne ho hold]
      simp only
      rw [Function.update_of_ne (threadAt_ne hys ho hold first)]
      exact h.others o ho hold
  · refine ⟨new, (Function.update_of_ne hne _ _).trans hnew, ?_, ?_⟩
    · rw [hfinished]
      exact hnewCreated
    · intro hfalse
      rw [hstarted] at hfalse
      cases hfalse
  · exact h.inactive_update hys
  · exact hcontrolAt
  · exact fun _ => ⟨rfl, hmain⟩
  · intro hone
    omega
  · intro _ hlate
    refine ⟨(threadAt ys first (t + 1), new.isFinished), by simp, ?_⟩
    exact hnewCreated.finished.trans (decide_eq_true hlate)

end Sim

/-- The machine goes through the turns up to the first late one, and resumes
`main_context` in that turn. -/
theorem stutterSim
    (hys : 0 < ys.length) (hkl : ys.length ≤ limit) (first : ℕ) :
    StutterSim (Machine.step limit) (nextTurn ys first) (Sim limit ys first)
      (fun m => m.control.rank) InMain where
  step := by
    intro m t h
    have hcases : (InMain m ∧ m.step limit = m ∧ nextTurn ys first t = t) ∨
        Sim.Stutters limit ys first m t ∨
        (Sim limit ys first (m.step limit) (nextTurn ys first t) ∧
          nextTurn ys first t ≠ t) := by
      cases hcontrol : m.control with
      | uthreadStart thread => exact Or.inr (Or.inl (h.uthreadStart hcontrol))
      | threadWrapper thread => exact Or.inr (Or.inl (h.threadWrapper hcontrol))
      | routine thread left => exact Or.inr (Or.inl (h.routine hcontrol))
      | finish thread => exact Or.inr (Or.inl (h.finish hys hcontrol))
      | yielded thread caller res => exact Or.inr (Or.inl (h.yielded hcontrol))
      | yield thread caller =>
          have hnext : nextTurn ys first t = t + 1 :=
            if_neg (h.not_late hcontrol)
          rw [hnext]
          refine Or.inr (Or.inr ⟨?_, by omega⟩)
          by_cases hone : ys.length = 1
          · exact h.yield_alone hkl hone hcontrol
          · exact h.yield_next hkl (by omega) hcontrol
      | main =>
          have hat := h.control
          rw [hcontrol] at hat
          have hq : t / ys.length = yieldsAt ys first (t % ys.length) + 1 := hat
          refine Or.inl ⟨hcontrol, by simp [Machine.step, hcontrol], if_pos ?_⟩
          unfold Late
          omega
      | fault =>
          have hat := h.control
          rw [hcontrol] at hat
          exact hat.elim
    exact hcases

end Uthread
end OsFifthSem
