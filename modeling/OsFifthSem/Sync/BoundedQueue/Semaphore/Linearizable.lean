import OsFifthSem.Support.Refinement
import OsFifthSem.Sync.BoundedQueue.Semaphore
import OsFifthSem.Sync.BoundedQueue.Waiting

/-!
# The callers of the queue with semaphores

Room and values are promised before the mutex is taken and counted after it is
given up, and still the callers see a bounded queue whose calls wait.  A call
takes effect where it changes the list.
-/

namespace OsFifthSem
namespace BoundedQueue
namespace Semaphore

open Support

universe u

/-- A call changes the list in its step `link`. -/
def Pc.stage : Pc → Stage
  | .inCall c .wait | .inCall c .lock | .inCall c .attempt
  | .inCall c .link => .before c
  | .inCall c .count | .inCall c .unlock | .inCall c .post => .after c
  | .idle | .printLock | .printUnlock | .assertFailed | .fault => .idle

def State.stage {T : Type u} (s : State T) (t : T) : Stage :=
  (s.pc t).stage

variable {T : Type u} [DecidableEq T]

/-- The variables to which the callers of `queue_get` pass a pointer. -/
def outputs (s : State T) (a : Action T) (val : T → ℤ) : T → ℤ :=
  match a with
  | .advance t =>
      match s.pc t with
      | .inCall c .link => c.writes s.q t val
      | _ => val
  | .call _ _ | .print _ => val

/-- The queue together with these variables, which are -1 at first. -/
def callersSystem (T : Type u) [DecidableEq T] (maxCount : ℤ) :
    TransitionSystem (State T × (T → ℤ)) (Action T) :=
  (queueSystem T maxCount).withHistory (fun _ => -1) outputs

/-- The calls and the values they return. -/
def observed (p : State T × (T → ℤ)) :
    Action T → List (CallEvent T Call Reply)
  | .call t c => [.call t c]
  | .advance t =>
      match p.1.pc t with
      | .inCall c .post => [.answer t (c.reply (p.2 t))]
      | _ => []
  | .print _ => []

variable [Fintype T] {m : ℤ} {s s' : State T} {t : T} {q : Queue}
  {sem : Resource → ℕ} {o : Option T} {pc : Pc} {val : T → ℤ}

/-! ## Stages -/

omit [Fintype T] in
theorem stage_goto :
    (s.goto t q sem o pc).stage = Function.update s.stage t pc.stage :=
  Function.comp_update Pc.stage s.pc t pc

omit [DecidableEq T] in
/-- The thread about to change the list finds what it needs there: its unit of
the semaphore stands for it, and nothing else is uncounted. -/
theorem Inv.fits
    {c : Call} {xs : List ℕ} {vals : List ℤ} (hi : Inv m s)
    (hpc : s.pc t = .inCall c .link) (hl : s.q.Lists xs vals) :
    c.Fits m vals := by
  have hclaim := hi.claim_le t c.needs
  rw [hpc] at hclaim
  simp only [Pc.claim, if_true] at hclaim
  obtain ⟨ys, vals', hl', hlen⟩ := hi.listed
  obtain rfl : vals = vals' := hl.cells.unique hl'.cells
  have hsum := hi.owned.threadSum_eq (t := t) (by rw [hpc]; rfl)
    Pc.uncounted_of_not_owns
  have hzero : threadSum Pc.uncounted s.pc = 0 := by rw [hsum, hpc]; rfl
  exact Call.fits_of_room hi.counts (by omega) (by omega)

/-! ## The steps -/

theorem Inv.advance_kind
    (hi : Inv m s) (hstep : advance s t = some s') :
    StepKind m s.q s.stage val s'.q s'.stage (outputs s (.advance t) val)
      (observed (s, val) (.advance t)) := by
  have hsame : ∀ xs vals, s.q.Lists xs vals → s.q.Lists xs vals :=
    fun _ _ hl => hl
  unfold advance at hstep
  cases hpc : s.pc t with
  | idle | assertFailed | fault => simp [hpc] at hstep
  | printLock =>
      simp only [hpc, Option.ite_none_right_eq_some, Option.some.injEq] at hstep
      obtain ⟨-, rfl⟩ := hstep
      simpa [outputs, observed, hpc] using
        StepKind.quiet_update stage_goto
          (by simp [State.stage, hpc, Pc.stage]) hsame
  | printUnlock =>
      simp only [hpc, Option.some.injEq] at hstep
      subst hstep
      simpa [outputs, observed, hpc] using
        StepKind.quiet_update stage_goto
          (by simp [State.stage, hpc, Pc.stage]) hsame
  | inCall c p =>
      cases p with
      | wait | lock =>
          simp only [hpc, Option.ite_none_right_eq_some,
            Option.some.injEq] at hstep
          obtain ⟨-, rfl⟩ := hstep
          simpa [outputs, observed, hpc] using
            StepKind.quiet_update stage_goto
              (by simp [State.stage, hpc, Pc.stage]) hsame
      | attempt =>
          obtain ⟨q, hattempt, -, hlists⟩ := c.exists_attempt hi.counts
          simp only [hpc, hattempt, Option.some.injEq] at hstep
          subst hstep
          simpa [outputs, observed, hpc] using
            StepKind.quiet_update stage_goto
              (by simp [State.stage, hpc, Pc.stage]) hlists
      | link =>
          obtain ⟨q, hlink, -⟩ := hi.link hpc
          simp only [hpc, hlink, Option.some.injEq] at hstep
          subst hstep
          have hkind : StepKind m s.q s.stage val
              (s.goto t q s.sem s.owner (.inCall c .count)).q
              (s.goto t q s.sem s.owner (.inCall c .count)).stage
              (c.writes s.q t val) [] :=
            .link t c (by rw [State.stage, hpc]; rfl)
              stage_goto rfl hlink fun _ _ hl => hi.fits hpc hl
          simpa [outputs, observed, hpc] using hkind
      | count =>
          simp only [hpc, Option.some.injEq] at hstep
          subst hstep
          have hlists : ∀ xs vals, s.q.Lists xs vals →
              (c.operation.count s.q).Lists xs vals := by
            intro xs vals hl
            cases c <;> exact ⟨hl.cells, hl.fresh, hl.history⟩
          simpa [outputs, observed, hpc] using
            StepKind.quiet_update stage_goto
              (by simp [State.stage, hpc, Pc.stage]) hlists
      | unlock =>
          simp only [hpc, Option.some.injEq] at hstep
          subst hstep
          simpa [outputs, observed, hpc] using
            StepKind.quiet_update stage_goto
              (by simp [State.stage, hpc, Pc.stage]) hsame
      | post =>
          simp only [hpc, Option.some.injEq] at hstep
          subst hstep
          have hkind : ∀ sem, StepKind m s.q s.stage val
              (s.goto t s.q sem s.owner .idle).q
              (s.goto t s.q sem s.owner .idle).stage val
              [.answer t (c.reply (val t))] := fun sem =>
            .answer t c (by rw [State.stage, hpc]; rfl)
              stage_goto rfl rfl
          simpa [outputs, observed, hpc] using hkind _

theorem Inv.kind
    {a : Action T} (hi : Inv m s) (hstep : step s a = some s') :
    StepKind m s.q s.stage val s'.q s'.stage (outputs s a val)
      (observed (s, val) a) := by
  cases a with
  | advance t => exact hi.advance_kind hstep
  | call t c =>
      simp only [step, Option.ite_none_right_eq_some, Option.some.injEq] at hstep
      obtain ⟨hpc, rfl⟩ := hstep
      exact .call t c (by rw [State.stage, hpc]; rfl) stage_goto
        rfl rfl
  | print t =>
      simp only [step, Option.ite_none_right_eq_some, Option.some.injEq] at hstep
      obtain ⟨hpc, rfl⟩ := hstep
      exact .quiet_update stage_goto (by rw [State.stage, hpc]; rfl)
        fun _ _ hl => hl

theorem refinesFifo
    (T : Type u) [DecidableEq T] [Fintype T] {m : ℤ} (hm : 0 ≤ m) :
    (blockingFifoObject T m).Linearizable (callersSystem T m) (fun _ _ => True)
      observed := by
  refine linearizable_of_stepKind State.q State.stage ?_ ?_
  · rintro s rfl
    exact ⟨rfl, rfl⟩
  · intro s a s' val hs hstep
    exact (reachable_inv hm hs).kind hstep

/-- Whatever the callers see of a run of any number of threads is seen of the
bounded queue whose calls wait. -/
theorem semaphoreQueue_linearizable
    (T : Type u) [DecidableEq T] [Fintype T] {m : ℤ} (hm : 0 ≤ m) :
    (blockingFifoObject T m).Linearizable (callersSystem T m) (fun _ _ => True)
      observed :=
  refinesFifo T hm

theorem semaphoreQueue_linearizable_one :
    (blockingFifoObject (Fin 2) 1).Linearizable (callersSystem (Fin 2) 1)
      (fun _ _ => True) observed :=
  semaphoreQueue_linearizable (Fin 2) (by decide)

end Semaphore
end BoundedQueue
end OsFifthSem
