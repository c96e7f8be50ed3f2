import OsFifthSem.Sync.LockObject
import OsFifthSem.Sync.Mutex.Exclusion

/-!
# The futex mutex is an atomic lock

What the callers of `mutex_lock`, `mutex_trylock` and `mutex_unlock` see of any
run could have come from a lock whose calls take effect at one moment.  A lock
call takes effect with the compare and exchange that finds 0, and an unlock
with the write of 0: the `atomic_fetch_sub` when nobody waits, and otherwise
the `atomic_store`, not the fetch_sub before it.
-/

namespace OsFifthSem
namespace Mutex

open Support

variable {T : Type*}

/-- The thread that takes a step. -/
def Action.thread : Action T → T
  | .lock t | .tryLock t | .advance t | .wake t _ | .spurious t => t

/-- Where a thread stands in its call of the lock. -/
def Pc.callPhase : Pc → CallPhase LockCall ℤ
  | .outside | .counterRead | .counterWrite _ => .idle
  | .lockFast | .loopTest _ | .loopMark | .futexWait | .asleep | .loopRetry =>
      .called .lock
  | .tryFast => .called .tryLock
  | .unlockSub | .unlockStore => .called .unlock
  | .unlockWake => .answered 0

/-- What the atomic access at `p` shows when the word is `w`: the value that a
function returns with it, and the call of `mutex_unlock` behind the
increment. -/
def Pc.events (t : T) (w : ℤ) : Pc → List (CallEvent T LockCall ℤ)
  | .lockFast | .loopRetry => if w = 0 then [.answer t 0] else []
  | .tryFast => [.answer t (if w = 0 then 1 else 0)]
  | .counterWrite _ => [.call t .unlock]
  | .unlockSub => if w ≠ 1 then [] else [.answer t 0]
  | .unlockWake => [.answer t 0]
  | .outside | .loopTest _ | .loopMark | .futexWait | .asleep | .counterRead
  | .unlockStore => []

/-- The calls and answers seen of a step. -/
def observed (s : State T) : Action T → List (CallEvent T LockCall ℤ)
  | .lock t => [.call t .lock]
  | .tryLock t => [.call t .tryLock]
  | .advance t | .wake t _ | .spurious t => (s.pc t).events t s.word

variable [DecidableEq T]

/-- A step is a step by its own thread. -/
theorem stepBy_thread [Fintype T]
    {s s' : State T} {a : Action T} (hstep : step s a = some s') :
    StepBy a.thread s s' := by
  obtain ⟨t, ht⟩ := exists_stepBy hstep
  have hmoved : ∀ u, s'.pc u ≠ s.pc u → s.pc u ≠ .asleep → u = t := by
    intro u hne hawake
    by_contra hut
    rcases ht.others u hut with heq | ⟨hold, -⟩
    · exact hne heq
    · exact hawake hold
  cases a with
  | advance u => exact advance_stepBy hstep
  | lock u | tryLock u =>
      simp only [step, Option.ite_none_right_eq_some, Option.some.injEq] at hstep
      obtain ⟨hpc, rfl⟩ := hstep
      obtain rfl := hmoved u (by simp [hpc]) (by simp [hpc])
      exact ht
  | wake u woken =>
      have hleft : s.pc u = .unlockWake ∧ s'.pc u = .outside := by
        cases woken <;>
          simp only [step, Option.ite_none_right_eq_some,
            Option.some.injEq] at hstep <;>
          obtain ⟨⟨hpc, -⟩, rfl⟩ := hstep <;>
          exact ⟨hpc, goto_pc_self _ _ _⟩
      obtain rfl := hmoved u (by simp [hleft]) (by simp [hleft])
      exact ht
  | spurious u =>
      simp only [step, Option.ite_none_right_eq_some, Option.some.injEq] at hstep
      obtain ⟨hpc, rfl⟩ := hstep
      by_cases hut : t = u
      · subst hut
        exact ht
      · -- no access leaves a thread where it is
        have hmove := ht.move
        rw [goto_pc_of_ne _ _ hut, goto_word] at hmove
        generalize s.pc t = p at hmove
        generalize s.word = w at hmove
        cases hmove

/-! ## The refinement -/

/-- The holder of the atomic lock owns the word, and the threads stand where
their program points say. -/
structure Refines (s : State T)
    (u : AtomicState T LockCall ℤ (Option T)) : Prop where
  owner : ∀ t, (s.pc t).Owns ↔ u.value = some t
  phase : ∀ t, u.phase t = (s.pc t).callPhase

/-- What a step by thread `t` to the program point `q` does to the atomic
lock. -/
structure Moves (t : T) (q : Pc)
    (u u' : AtomicState T LockCall ℤ (Option T)) : Prop where
  owner : q.Owns ↔ u'.value = some t
  others : ∀ x, x ≠ t → (u'.value = some x ↔ u.value = some x)
  phase : u'.phase = Function.update u.phase t q.callPhase

theorem Moves.of_same_value
    {t : T} {p q : Pc} {u : AtomicState T LockCall ℤ (Option T)}
    {phase : T → CallPhase LockCall ℤ} (howner : p.Owns ↔ u.value = some t)
    (hsame : p.Owns ↔ q.Owns)
    (hphase : phase = Function.update u.phase t q.callPhase) :
    Moves t q u { u with phase := phase } where
  owner := hsame.symm.trans howner
  others := fun _ _ => Iff.rfl
  phase := hphase

/-- An access that the callers do not see and that does not change the
owner. -/
theorem Moves.silent
    {t : T} {p q : Pc} {u : AtomicState T LockCall ℤ (Option T)}
    (howner : p.Owns ↔ u.value = some t) (hphase : u.phase t = p.callPhase)
    (hsame : p.Owns ↔ q.Owns) (hcall : q.callPhase = p.callPhase) :
    Moves t q u u :=
  .of_same_value howner hsame (by rw [hcall, ← hphase, Function.update_eq_self])

/-- The access of a thread inside a call or a critical section is explained by
the atomic lock. -/
theorem Move.explained
    {t : T} {p q : Pc} {w w' : ℤ} (hm : Move p w q w')
    {u : AtomicState T LockCall ℤ (Option T)} (hout : p ≠ .outside)
    (hfree : w = 0 ↔ u.value = none) (howner : p.Owns ↔ u.value = some t)
    (hphase : u.phase t = p.callPhase) :
    ∃ u', (lockObject T).Explains u (p.events t w) u' ∧ Moves t q u u' := by
  -- an acquisition finds the lock free and an unlock finds its own thread
  have hacquire : ∀ {o r}, p.callPhase = .called o →
      (lockObject T).apply none t o = some (r, some t) → w = 0 →
      q.Owns → q.callPhase = .idle →
      ∃ u', (lockObject T).Explains u [.answer t r] u' ∧ Moves t q u u' := by
    intro o r hcall happly hw hq hidle
    have hnone := hfree.mp hw
    refine ⟨_, .effect_answer (hphase.trans hcall) (hnone ▸ happly), ?_⟩
    refine ⟨by simp [hq], fun x hx => ?_, by rw [hidle]⟩
    simp [hnone, Ne.symm hx]
  have hrelease : p.Owns → p.callPhase = .called .unlock →
      (lockObject T).apply u.value t .unlock = some (0, none) := by
    intro hp _
    rw [howner.mp hp, lockObject_unlock]
  cases hm with
  | callLock | callTryLock => exact absurd rfl hout
  | lockFree => exact hacquire rfl (lockObject_lock t) rfl trivial rfl
  | retryFree => exact hacquire rfl (lockObject_lock t) rfl trivial rfl
  | tryFree => exact hacquire rfl (lockObject_tryLock_free t) rfl trivial rfl
  | lockBusy hw | retryBusy hw =>
      refine ⟨u, ?_, .silent howner hphase Iff.rfl rfl⟩
      simpa [Pc.events, hw] using AtomicObject.Explains.silent u
  | testWaiters | testOther | markFree | markLocked | markMarked | sleep
  | waitRefused | spurious =>
      exact ⟨u, .silent u, .silent howner hphase Iff.rfl rfl⟩
  | read =>
      exact ⟨u, .silent u, .silent howner hphase Iff.rfl rfl⟩
  | tryBusy hw =>
      obtain ⟨x, hx⟩ := Option.ne_none_iff_exists'.mp fun h => hw (hfree.mpr h)
      have happly : (lockObject T).apply u.value t .tryLock =
          some (0, u.value) := by rw [hx, lockObject_tryLock_busy]
      refine ⟨_, ?_, .of_same_value howner Iff.rfl rfl⟩
      simpa [Pc.events, hw] using .effect_answer hphase happly
  | write v =>
      exact ⟨_, .call hphase .unlock, .of_same_value howner Iff.rfl rfl⟩
  | subLast =>
      refine ⟨_, .effect_answer hphase (hrelease trivial rfl), ?_⟩
      refine ⟨by simp [Pc.Owns], fun x hx => ?_, rfl⟩
      simp [howner.mp trivial, Ne.symm hx]
  | subWaiters hw =>
      refine ⟨u, ?_, .silent howner hphase Iff.rfl rfl⟩
      simpa [Pc.events, hw] using AtomicObject.Explains.silent u
  | store =>
      refine ⟨_, .effect hphase (hrelease trivial rfl), ?_⟩
      refine ⟨by simp [Pc.Owns], fun x hx => ?_, rfl⟩
      simp [howner.mp trivial, Ne.symm hx]
  | wake =>
      exact ⟨_, .answer hphase, .of_same_value howner Iff.rfl rfl⟩

/-- The threads that a step wakes go on waiting for the lock. -/
theorem StepBy.callPhase_other
    {s s' : State T} {t x : T} (hs : StepBy t s s') (hx : x ≠ t) :
    (s'.pc x).callPhase = (s.pc x).callPhase := by
  rcases hs.others x hx with heq | ⟨hold, hnew⟩
  · rw [heq]
  · rw [hold, hnew]
    rfl

theorem Refines.of_moves
    {s s' : State T} {t : T} {u u' : AtomicState T LockCall ℤ (Option T)}
    (href : Refines s u) (hs : StepBy t s s') (hmoves : Moves t (s'.pc t) u u') :
    Refines s' u' := by
  constructor
  · intro x
    by_cases hx : x = t
    · subst hx
      exact hmoves.owner
    · rw [hs.owns_other_iff hx, href.owner x, hmoves.others x hx]
  · intro x
    rw [hmoves.phase]
    by_cases hx : x = t
    · subst hx
      exact Function.update_self _ _ _
    · rw [Function.update_of_ne hx, href.phase x, hs.callPhase_other hx]

omit [DecidableEq T] in
theorem Refines.word_eq_zero_iff
    {s : State T} {u : AtomicState T LockCall ℤ (Option T)}
    (href : Refines s u) (hex : Exclusive s) :
    s.word = 0 ↔ u.value = none := by
  rw [hex.free, Option.eq_none_iff_forall_ne_some]
  exact forall_congr' fun t => not_congr (href.owner t)

/-- The call of a function is explained by the atomic lock. -/
theorem Refines.call
    {s : State T} {t : T} {u : AtomicState T LockCall ℤ (Option T)}
    (href : Refines s u) (hpc : s.pc t = .outside) (o : LockCall) {q : Pc}
    (hout : ¬q.Owns) (hphase : q.callPhase = .called o) :
    ∃ u', (lockObject T).Explains u [.call t o] u' ∧ Moves t q u u' := by
  have hidle : u.phase t = .idle := by
    rw [href.phase t, hpc]
    rfl
  have howner := href.owner t
  rw [hpc] at howner
  refine ⟨_, .call hidle o, .of_same_value howner ?_ (by rw [hphase])⟩
  exact iff_of_false id hout

theorem Refines.step [Fintype T]
    {s s' : State T} {a : Action T}
    {u : AtomicState T LockCall ℤ (Option T)} (href : Refines s u)
    (hex : Exclusive s) (hstep : step s a = some s') :
    ∃ u', (lockObject T).Explains u (observed s a) u' ∧ Refines s' u' := by
  have hs := stepBy_thread hstep
  have hexplained : s.pc a.thread ≠ .outside → observed s a =
      (s.pc a.thread).events a.thread s.word →
      ∃ u', (lockObject T).Explains u (observed s a) u' ∧ Refines s' u' := by
    intro hout hobs
    obtain ⟨u', hexplains, hmoves⟩ := hs.move.explained hout
      (href.word_eq_zero_iff hex) (href.owner _) (href.phase _)
    exact ⟨u', hobs ▸ hexplains, href.of_moves hs hmoves⟩
  cases a with
  | lock t =>
      simp only [Mutex.step, Option.ite_none_right_eq_some,
        Option.some.injEq] at hstep
      obtain ⟨hpc, rfl⟩ := hstep
      obtain ⟨u', hexplains, hmoves⟩ :=
        href.call hpc .lock (q := .lockFast) id rfl
      refine ⟨u', hexplains, href.of_moves hs ?_⟩
      simpa [Action.thread] using hmoves
  | tryLock t =>
      simp only [Mutex.step, Option.ite_none_right_eq_some,
        Option.some.injEq] at hstep
      obtain ⟨hpc, rfl⟩ := hstep
      obtain ⟨u', hexplains, hmoves⟩ :=
        href.call hpc .tryLock (q := .tryFast) id rfl
      refine ⟨u', hexplains, href.of_moves hs ?_⟩
      simpa [Action.thread] using hmoves
  | advance t =>
      refine hexplained ?_ rfl
      intro hpc
      simp [Action.thread] at hpc
      simp [Mutex.step, advance, hpc] at hstep
  | wake t woken =>
      refine hexplained ?_ rfl
      intro hpc
      simp only [Action.thread] at hpc
      cases woken <;> simp [Mutex.step, hpc] at hstep
  | spurious t =>
      refine hexplained ?_ rfl
      intro hpc
      simp only [Action.thread] at hpc
      simp [Mutex.step, hpc] at hstep

/-- Whatever the callers see of a run of any number of threads, with any order
of their atomic accesses, of the sleepers woken and of spurious returns, is
seen of the atomic lock. -/
theorem mutex_linearizable (T : Type*) [DecidableEq T] [Fintype T] :
    (lockObject T).Linearizable (mutexSystem T) (fun _ _ => True) observed := by
  refine AtomicObject.linearizable_of_relation Refines ?_ ?_
  · rintro s rfl
    exact ⟨fun t => by simp [mutexInit, Pc.Owns], fun t => rfl⟩
  · intro s u a s' hs href _ hstep
    exact href.step (exclusive_of_reachable hs) hstep

end Mutex
end OsFifthSem
