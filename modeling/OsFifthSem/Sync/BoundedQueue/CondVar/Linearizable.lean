import OsFifthSem.Support.Refinement
import OsFifthSem.Sync.BoundedQueue.CondVar.Safety
import OsFifthSem.Sync.BoundedQueue.Waiting

/-!
# The callers of the queue with condition variables

Whatever the order of the steps, the choices of `pthread_cond_signal` and the
returns without a signal, the callers see a bounded queue whose calls wait.  A
call takes effect where it changes the list.
-/

namespace OsFifthSem
namespace BoundedQueue
namespace CondVar

open Support

universe u

/-- A call changes the list in its step `link`. -/
def Pc.stage : Pc → Stage
  | .inCall c .lock | .inCall c .test | .inCall c .wait | .inCall c .blocked
  | .inCall c (.woken _) | .inCall c .attempt | .inCall c .link => .before c
  | .inCall c .count | .inCall c .signal | .inCall c .unlock => .after c
  | .idle | .printLock | .printUnlock | .assertFailed | .fault => .idle

def State.stage {T : Type u} (s : State T) (t : T) : Stage :=
  (s.pc t).stage

variable {T : Type u} [DecidableEq T]

/-- The variables to which the callers of `queue_get` pass a pointer. -/
def outputs (s : State T) (a : Action T) (val : T → ℤ) : T → ℤ :=
  match a with
  | .advance t =>
      match s.pc t with
      | .inCall c .link => c.writes s.q t val
      | _ => val
  | .call _ _ | .print _ | .signal _ _ | .spurious _ => val

/-- The queue together with these variables, which are -1 at first. -/
def callersSystem (T : Type u) [DecidableEq T] [Fintype T] (maxCount : ℤ) :
    TransitionSystem (State T × (T → ℤ)) (Action T) :=
  (queueSystem T maxCount).withHistory (fun _ => -1) outputs

/-- The calls and the values they return. -/
def observed (p : State T × (T → ℤ)) :
    Action T → List (CallEvent T Call Reply)
  | .call t c => [.call t c]
  | .advance t =>
      match p.1.pc t with
      | .inCall c .unlock => [.answer t (c.reply (p.2 t))]
      | _ => []
  | .print _ | .signal _ _ | .spurious _ => []

variable [Fintype T] {m : ℤ} {s s' : State T} {t : T} {q : Queue}
  {o : Option T} {pc : Pc} {val : T → ℤ}

/-! ## Stages -/

omit [Fintype T] in
theorem stage_goto :
    (s.goto t q o pc).stage = Function.update s.stage t pc.stage :=
  Function.comp_update Pc.stage s.pc t pc

omit [DecidableEq T] in
/-- The owner of the mutex finds in the list what `count` says, unless it has
a change left to count. -/
theorem Inv.length_eq
    {xs : List ℕ} {vals : List ℤ} (hi : Inv m s) (hpc : s.pc t = pc)
    (howns : pc.owns = true) (huncounted : pc.uncounted = 0)
    (hl : s.q.Lists xs vals) : (vals.length : ℤ) = s.q.count := by
  obtain ⟨ys, vals', hl', hlen⟩ := hi.listed
  obtain rfl : vals = vals' := hl.cells.unique hl'.cells
  have hsum := hi.owned.threadSum_eq (t := t) (by rw [hpc, howns])
    Pc.uncounted_of_not_owns
  rw [hsum, hpc, huncounted, Int.add_zero] at hlen
  exact hlen

/-! ## The steps -/

theorem Inv.advance_kind
    (hi : Inv m s) (hstep : advance s t = some s') :
    StepKind m s.q s.stage val s'.q s'.stage (outputs s (.advance t) val)
      (observed (s, val) (.advance t)) := by
  have hsame : ∀ xs vals, s.q.Lists xs vals → s.q.Lists xs vals :=
    fun _ _ hl => hl
  unfold advance at hstep
  cases hpc : s.pc t with
  | idle | assertFailed | fault => simp [hpc] at hstep
  | printLock =>
      simp only [hpc, Option.ite_none_right_eq_some, Option.some.injEq] at hstep
      obtain ⟨-, rfl⟩ := hstep
      simpa [outputs, observed, hpc] using
        StepKind.quiet_update stage_goto
          (by simp [State.stage, hpc, Pc.stage]) hsame
  | printUnlock =>
      simp only [hpc, Option.some.injEq] at hstep
      subst hstep
      simpa [outputs, observed, hpc] using
        StepKind.quiet_update stage_goto
          (by simp [State.stage, hpc, Pc.stage]) hsame
  | inCall c p =>
      cases p with
      | blocked | signal => simp [hpc] at hstep
      | lock | woken =>
          simp only [hpc, Option.ite_none_right_eq_some,
            Option.some.injEq] at hstep
          obtain ⟨-, rfl⟩ := hstep
          simpa [outputs, observed, hpc] using
            StepKind.quiet_update stage_goto
              (by simp [State.stage, hpc, Pc.stage]) hsame
      | test =>
          simp only [hpc, Option.some.injEq] at hstep
          subst hstep
          have hstage : Pc.stage (.inCall c
              (if mustWait c s.q then .wait else .attempt)) = s.stage t := by
            rw [State.stage, hpc]
            split_ifs <;> rfl
          simpa [outputs, observed, hpc] using
            StepKind.quiet_update stage_goto hstage hsame
      | wait =>
          simp only [hpc, Option.some.injEq] at hstep
          subst hstep
          simpa [outputs, observed, hpc] using
            StepKind.quiet_update stage_goto
              (by simp [State.stage, hpc, Pc.stage]) hsame
      | attempt =>
          obtain ⟨q, hattempt, -, hlists⟩ := c.exists_attempt hi.counts
          simp only [hpc, hattempt, Option.some.injEq] at hstep
          subst hstep
          simpa [outputs, observed, hpc] using
            StepKind.quiet_update stage_goto
              (by simp [State.stage, hpc, Pc.stage]) hlists
      | link =>
          obtain ⟨q, hlink, -⟩ := hi.link hpc
          simp only [hpc, hlink, Option.some.injEq] at hstep
          subst hstep
          have hroom : 0 < s.q.room c.needs := by
            simpa [hpc, Pc.Facts] using hi.facts t
          have hkind : StepKind m s.q s.stage val q
              (s.goto t q s.owner (.inCall c .count)).stage
              (c.writes s.q t val) [] := by
            refine .link t c (by rw [State.stage, hpc]; rfl)
              stage_goto rfl hlink fun xs vals hl => ?_
            exact Call.fits_of_room hi.counts hroom
              (hi.length_eq hpc rfl rfl hl)
          simpa [outputs, observed, hpc] using hkind
      | count =>
          simp only [hpc, Option.some.injEq] at hstep
          subst hstep
          have hlists : ∀ xs vals, s.q.Lists xs vals →
              (c.operation.count s.q).Lists xs vals := by
            intro xs vals hl
            cases c <;> exact ⟨hl.cells, hl.fresh, hl.history⟩
          simpa [outputs, observed, hpc] using
            StepKind.quiet_update stage_goto
              (by simp [State.stage, hpc, Pc.stage]) hlists
      | unlock =>
          simp only [hpc, Option.some.injEq] at hstep
          subst hstep
          have hkind : StepKind m s.q s.stage val s.q
              (s.goto t s.q none .idle).stage val
              [.answer t (c.reply (val t))] :=
            .answer t c (by rw [State.stage, hpc]; rfl) stage_goto
              rfl rfl
          simpa [outputs, observed, hpc] using hkind

theorem Inv.kind
    {a : Action T} (hi : Inv m s) (hstep : step s a = some s') :
    StepKind m s.q s.stage val s'.q s'.stage (outputs s a val)
      (observed (s, val) a) := by
  have hsame : ∀ xs vals, s.q.Lists xs vals → s.q.Lists xs vals :=
    fun _ _ hl => hl
  cases a with
  | advance t => exact hi.advance_kind hstep
  | call t c =>
      simp only [step, Option.ite_none_right_eq_some, Option.some.injEq] at hstep
      obtain ⟨hpc, rfl⟩ := hstep
      exact .call t c (by rw [State.stage, hpc]; rfl) stage_goto
        rfl rfl
  | print t =>
      simp only [step, Option.ite_none_right_eq_some, Option.some.injEq] at hstep
      obtain ⟨hpc, rfl⟩ := hstep
      exact .quiet_update stage_goto (by rw [State.stage, hpc]; rfl) hsame
  | spurious t =>
      simp only [step] at hstep
      split at hstep
      · next c hpc =>
          obtain rfl := Option.some.inj hstep
          exact .quiet_update stage_goto (by rw [State.stage, hpc]; rfl) hsame
      · cases hstep
  | signal t woken =>
      cases woken with
      | none =>
          simp only [step] at hstep
          split at hstep
          · next c hpc =>
              simp only [Option.ite_none_right_eq_some,
                Option.some.injEq] at hstep
              obtain ⟨-, rfl⟩ := hstep
              exact .quiet_update stage_goto (by rw [State.stage, hpc]; rfl) hsame
          · cases hstep
      | some x =>
          simp only [step] at hstep
          split at hstep
          · next c d hpc hx =>
              simp only [Option.ite_none_right_eq_some,
                Option.some.injEq] at hstep
              obtain ⟨-, rfl⟩ := hstep
              refine .quiet ?_ rfl hsame
              -- the thread woken has not changed the list, the waker has
              rw [stage_goto, stage_goto,
                show Pc.stage (.inCall d (.woken true)) = s.stage x from by
                  rw [State.stage, hx]; rfl,
                show Pc.stage (.inCall c .unlock) = s.stage t from by
                  rw [State.stage, hpc]; rfl,
                Function.update_eq_self, Function.update_eq_self]
          · cases hstep

theorem refinesFifo
    (T : Type u) [DecidableEq T] [Fintype T] {m : ℤ} (hm : 0 ≤ m) :
    (blockingFifoObject T m).Linearizable (callersSystem T m) (fun _ _ => True)
      observed := by
  refine linearizable_of_stepKind State.q State.stage ?_ ?_
  · rintro s rfl
    exact ⟨rfl, rfl⟩
  · intro s a s' val hs hstep
    exact (reachable_inv hm hs).kind hstep

/-- Whatever the callers see of a run of any number of threads is seen of the
bounded queue whose calls wait. -/
theorem condVarQueue_linearizable
    (T : Type u) [DecidableEq T] [Fintype T] {m : ℤ} (hm : 0 ≤ m) :
    (blockingFifoObject T m).Linearizable (callersSystem T m) (fun _ _ => True)
      observed :=
  refinesFifo T hm

theorem condVarQueue_linearizable_one :
    (blockingFifoObject (Fin 2) 1).Linearizable (callersSystem (Fin 2) 1)
      (fun _ _ => True) observed :=
  condVarQueue_linearizable (Fin 2) (by decide)

end CondVar
end BoundedQueue
end OsFifthSem
