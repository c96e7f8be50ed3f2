import OsFifthSem.Support.Transition
import OsFifthSem.Threads.Pool.Model

/-!
# Shutting a pool down

`destroy_thread_pool` against the daemon of the pool.  A cancellation is
deferred: the daemon acts on it at `pthread_testcancel` and in `usleep`, and
not while it waits for the mutex.  `destroy_thread_pool` holds the mutex when
it cancels the daemon and waits for its end.

The proxy's daemon also tests for a cancellation at the head of its loop, the
one of lab 1.8 does not.
-/

namespace OsFifthSem
namespace Threads
namespace Pool

open Support

/-- The two versions of `thread_pool.c`. -/
inductive Version
  | proxy
  | lab
  deriving DecidableEq, Repr

/-- Where the daemon is. -/
inductive DeamonPc
  /-- `pthread_testcancel` at the head of the loop. -/
  | testFirst
  /-- `pthread_mutex_lock`. -/
  | lock
  /-- At slot `i`, with the mutex. -/
  | sweep (i : ℕ)
  | unlock
  /-- `pthread_testcancel` behind the sweep. -/
  | test
  /-- `usleep`. -/
  | sleep
  | cancelled
  /-- `exit` has ended the process. -/
  | exited
  deriving DecidableEq, Repr

/-- Where the caller of `destroy_thread_pool` is. -/
inductive DestroyPc
  | start
  | lock
  /-- `pthread_cancel` of the daemon. -/
  | cancel
  /-- `pthread_join` of the daemon. -/
  | join
  /-- At slot `i` of the loop over the threads. -/
  | threads (i : ℕ)
  | unlock
  | free
  | done
  /-- Returned because a `pthread_cancel` failed, with the mutex. -/
  | failed
  deriving DecidableEq, Repr

/-- The daemon is between `pthread_mutex_lock` and `pthread_mutex_unlock`. -/
def DeamonPc.hasMutex : DeamonPc → Bool
  | .sweep _ => true
  | .unlock => true
  | _ => false

/-- The caller of `destroy_thread_pool` has the mutex. -/
def DestroyPc.hasMutex : DestroyPc → Bool
  | .cancel => true
  | .join => true
  | .threads _ => true
  | .unlock => true
  | .failed => true
  | _ => false

/-- The owner of the mutex. -/
inductive Side
  | deamon
  | destroyer
  deriving DecidableEq, Repr

structure Shutdown where
  threads : List ThreadInfo
  owner : Option Side
  /-- The daemon was cancelled and has not acted on it yet. -/
  requested : Bool
  deamon : DeamonPc
  destroyer : DestroyPc
  deriving DecidableEq, Repr

/-- A step of the daemon, with the result of its `pthread_tryjoin_np`, or one
of the caller of `destroy_thread_pool`, with the success of its
`pthread_cancel`. -/
inductive ShutdownAction
  | deamon (result : TryJoin)
  | destroyer (ok : Bool)
  deriving DecidableEq, Repr

/-- The first statement of the daemon's loop. -/
def loopHead : Version → DeamonPc
  | .proxy => .testFirst
  | .lab => .lock

/-- A cancellation point, from which the daemon goes on at `next`. -/
def cancellationPoint (s : Shutdown) (next : DeamonPc) : Shutdown :=
  { s with deamon := if s.requested then .cancelled else next }

/-- `deamon_routine`. -/
def deamonStep (v : Version) (s : Shutdown) (result : TryJoin) :
    Option Shutdown :=
  match s.deamon with
  | .testFirst => some (cancellationPoint s .lock)
  | .lock =>
      if s.owner = none then
        some { s with owner := some .deamon, deamon := .sweep 0 }
      else none
  | .sweep i =>
      match s.threads[i]? with
      | some info =>
          match sweepSlot info result with
          | some info' => some { s with
              threads := s.threads.set i info'
              deamon := .sweep (i + 1) }
          | none => some { s with deamon := .exited }
      | none => some { s with deamon := .unlock }
  | .unlock => some { s with owner := none, deamon := .test }
  | .test => some (cancellationPoint s .sleep)
  | .sleep => some (cancellationPoint s (loopHead v))
  | .cancelled => none
  | .exited => none

/-- `destroy_thread_pool`. -/
def destroyStep (s : Shutdown) (ok : Bool) : Option Shutdown :=
  match s.destroyer with
  | .start => some { s with destroyer := .lock }
  | .lock =>
      if s.owner = none then
        some { s with owner := some .destroyer, destroyer := .cancel }
      else none
  | .cancel => some { s with requested := true, destroyer := .join }
  | .join =>
      if s.deamon = .cancelled then some { s with destroyer := .threads 0 }
      else none
  | .threads i =>
      match s.threads[i]? with
      | some info => some { s with
          destroyer :=
            if info.state ≠ .free ∧ ok = false then .failed
            else .threads (i + 1) }
      | none => some { s with destroyer := .unlock }
  | .unlock => some { s with owner := none, destroyer := .free }
  | .free => some { s with destroyer := .done }
  | .done => none
  | .failed => none

/-- One step; nobody takes one after `exit`. -/
def shutdownStep (v : Version) (s : Shutdown) :
    ShutdownAction → Option Shutdown
  | .deamon result => deamonStep v s result
  | .destroyer ok => if s.deamon = .exited then none else destroyStep s ok

/-- A pool with any threads in it, whose daemon starts. -/
def startShutdown (v : Version) (threads : List ThreadInfo) : Shutdown where
  threads := threads
  owner := none
  requested := false
  deamon := loopHead v
  destroyer := .start

def shutdownSystem (v : Version) :
    TransitionSystem Shutdown ShutdownAction where
  Initial := fun s => ∃ threads, s = startShutdown v threads
  step := shutdownStep v

/-- `destroy_thread_pool` waits for the daemon's end with the mutex, and the
daemon for the mutex. -/
def Deadlocked (s : Shutdown) : Prop :=
  s.destroyer = .join ∧ s.owner = some .destroyer ∧ s.deamon = .lock

/-- If this step cancels the daemon, the daemon is not about to lock the
mutex. -/
def CancelsAway (s : Shutdown) (a : ShutdownAction) : Prop :=
  ∀ ok, a = .destroyer ok → s.destroyer = .cancel → s.deamon ≠ .lock

/-! ## One step -/

section Steps

variable {v : Version} {s t : Shutdown}

/-- What a step of the daemon can do: it takes or gives back the mutex, goes on
with it, or passes a cancellation point. -/
theorem deamonStep_cases
    {result : TryJoin} (hstep : deamonStep v s result = some t) :
    (s.deamon = .lock ∧ s.owner = none ∧
      t = { s with owner := some .deamon, deamon := .sweep 0 }) ∨
    (∃ i threads next, s.deamon = .sweep i ∧
      (next = .sweep (i + 1) ∨ next = .unlock ∨ next = .exited) ∧
      t = { s with threads := threads, deamon := next }) ∨
    (s.deamon = .unlock ∧ t = { s with owner := none, deamon := .test }) ∨
    (∃ next, s.deamon ≠ .lock ∧ (next = .sleep ∨ next = .lock ∨
      next = .testFirst) ∧ t = cancellationPoint s next) := by
  unfold deamonStep at hstep
  split at hstep
  next h =>
    obtain rfl := Option.some.inj hstep
    exact .inr (.inr (.inr ⟨.lock, by simp [h], .inr (.inl rfl), rfl⟩))
  next h =>
    split at hstep
    next howner =>
      obtain rfl := Option.some.inj hstep
      exact .inl ⟨h, howner, rfl⟩
    next => cases hstep
  next i h =>
    refine .inr (.inl ?_)
    split at hstep
    · split at hstep
      · obtain rfl := Option.some.inj hstep
        exact ⟨i, _, _, h, .inl rfl, rfl⟩
      · obtain rfl := Option.some.inj hstep
        exact ⟨i, _, _, h, .inr (.inr rfl), rfl⟩
    · obtain rfl := Option.some.inj hstep
      exact ⟨i, _, _, h, .inr (.inl rfl), rfl⟩
  next h =>
    obtain rfl := Option.some.inj hstep
    exact .inr (.inr (.inl ⟨h, rfl⟩))
  next h =>
    obtain rfl := Option.some.inj hstep
    exact .inr (.inr (.inr ⟨.sleep, by simp [h], .inl rfl, rfl⟩))
  next h =>
    obtain rfl := Option.some.inj hstep
    refine .inr (.inr (.inr ⟨loopHead v, by simp [h], ?_, rfl⟩))
    cases v with
    | proxy => exact .inr (.inr rfl)
    | lab => exact .inr (.inl rfl)
  next => cases hstep
  next => cases hstep

/-- What a step of `destroy_thread_pool` can do. -/
theorem destroyStep_cases
    {ok : Bool} (hstep : destroyStep s ok = some t) :
    (s.destroyer = .lock ∧ s.owner = none ∧
      t = { s with owner := some .destroyer, destroyer := .cancel }) ∨
    (s.destroyer = .cancel ∧
      t = { s with requested := true, destroyer := .join }) ∨
    (s.destroyer = .unlock ∧ t = { s with owner := none, destroyer := .free }) ∨
    (∃ next, s.destroyer ≠ .cancel ∧ next ≠ .cancel ∧ next ≠ .join ∧
      (next.hasMutex = true → s.destroyer.hasMutex = true) ∧
      t = { s with destroyer := next }) := by
  unfold destroyStep at hstep
  split at hstep
  next h =>
    obtain rfl := Option.some.inj hstep
    exact .inr (.inr (.inr ⟨.lock, by simp [h], nofun, nofun, nofun, rfl⟩))
  next h =>
    split at hstep
    next howner =>
      obtain rfl := Option.some.inj hstep
      exact .inl ⟨h, howner, rfl⟩
    next => cases hstep
  next h =>
    obtain rfl := Option.some.inj hstep
    exact .inr (.inl ⟨h, rfl⟩)
  next h =>
    split at hstep
    · obtain rfl := Option.some.inj hstep
      refine .inr (.inr (.inr ⟨.threads 0, by simp [h], nofun, nofun, ?_, rfl⟩))
      rw [h]
      exact fun _ => rfl
    · cases hstep
  next i h =>
    refine .inr (.inr (.inr ?_))
    have hmutex : s.destroyer.hasMutex = true := by
      rw [h]
      rfl
    split at hstep
    · obtain rfl := Option.some.inj hstep
      refine ⟨_, by simp [h], ?_, ?_, fun _ => hmutex, rfl⟩ <;>
      · split <;> nofun
    · obtain rfl := Option.some.inj hstep
      exact ⟨.unlock, by simp [h], nofun, nofun, fun _ => hmutex, rfl⟩
  next h =>
    obtain rfl := Option.some.inj hstep
    exact .inr (.inr (.inl ⟨h, rfl⟩))
  next h =>
    obtain rfl := Option.some.inj hstep
    exact .inr (.inr (.inr ⟨.done, by simp [h], nofun, nofun, nofun, rfl⟩))
  next => cases hstep
  next => cases hstep

/-! ## Who has the mutex -/

/-- The mutex is with the side whose program counter says so. -/
structure MutexHeld (s : Shutdown) : Prop where
  deamon : s.deamon.hasMutex = true → s.owner = some .deamon
  destroyer : s.destroyer.hasMutex = true → s.owner = some .destroyer

theorem MutexHeld.deamonStep
    {result : TryJoin} (hs : MutexHeld s)
    (hstep : deamonStep v s result = some t) : MutexHeld t := by
  rcases deamonStep_cases hstep with ⟨-, hfree, rfl⟩ |
    ⟨i, threads, next, hpc, -, rfl⟩ | ⟨hpc, rfl⟩ | ⟨next, -, hnext, rfl⟩
  · refine ⟨fun _ => rfl, fun hd => ?_⟩
    have howner := hs.destroyer hd
    rw [hfree] at howner
    cases howner
  · refine ⟨fun _ => hs.deamon ?_, hs.destroyer⟩
    rw [hpc]
    rfl
  · have howner := hs.deamon (by rw [hpc]; rfl)
    refine ⟨nofun, fun hd => ?_⟩
    have howner' := hs.destroyer hd
    rw [howner] at howner'
    cases howner'
  · refine ⟨fun hd => ?_, hs.destroyer⟩
    unfold cancellationPoint at hd
    split at hd
    · cases hd
    · rcases hnext with rfl | rfl | rfl <;> cases hd

theorem MutexHeld.destroyStep
    {ok : Bool} (hs : MutexHeld s) (hstep : destroyStep s ok = some t) :
    MutexHeld t := by
  rcases destroyStep_cases hstep with ⟨-, hfree, rfl⟩ | ⟨hpc, rfl⟩ |
    ⟨hpc, rfl⟩ | ⟨next, -, -, -, hmutex, rfl⟩
  · refine ⟨fun hd => ?_, fun _ => rfl⟩
    have howner := hs.deamon hd
    rw [hfree] at howner
    cases howner
  · exact ⟨hs.deamon, fun _ => hs.destroyer (by rw [hpc]; rfl)⟩
  · have howner := hs.destroyer (by rw [hpc]; rfl)
    refine ⟨fun hd => ?_, nofun⟩
    have howner' := hs.deamon hd
    rw [howner] at howner'
    cases howner'
  · exact ⟨hs.deamon, fun hd => hs.destroyer (hmutex hd)⟩

theorem MutexHeld.step
    {a : ShutdownAction} (hs : MutexHeld s)
    (hstep : shutdownStep v s a = some t) : MutexHeld t := by
  cases a with
  | deamon result => exact hs.deamonStep hstep
  | destroyer ok =>
      simp only [shutdownStep] at hstep
      split at hstep
      · cases hstep
      · exact hs.destroyStep hstep

/-! ## Cancelling away from the lock -/

/-- A cancelled daemon does not come to the lock any more. -/
structure Away (s : Shutdown) : Prop where
  notAtLock : s.requested = true → s.deamon ≠ .lock
  requested : s.destroyer = .join → s.requested = true

theorem Away.step
    {a : ShutdownAction} (hs : Away s) (ha : CancelsAway s a)
    (hstep : shutdownStep v s a = some t) : Away t := by
  cases a with
  | deamon result =>
      rcases deamonStep_cases hstep with ⟨-, -, rfl⟩ |
        ⟨i, threads, next, -, hnext, rfl⟩ | ⟨-, rfl⟩ | ⟨next, -, -, rfl⟩
      · exact ⟨nofun, hs.requested⟩
      · refine ⟨fun _ => ?_, hs.requested⟩
        rcases hnext with rfl | rfl | rfl <;> nofun
      · exact ⟨nofun, hs.requested⟩
      · refine ⟨fun hreq => ?_, hs.requested⟩
        have hreq' : s.requested = true := hreq
        simp [cancellationPoint, hreq']
  | destroyer ok =>
      simp only [shutdownStep] at hstep
      split at hstep
      · cases hstep
      · rcases destroyStep_cases hstep with ⟨-, -, rfl⟩ | ⟨hpc, rfl⟩ |
          ⟨-, rfl⟩ | ⟨next, -, -, hjoin, -, rfl⟩
        · exact ⟨hs.notAtLock, nofun⟩
        · exact ⟨fun _ => ha ok rfl hpc, fun _ => rfl⟩
        · exact ⟨hs.notAtLock, nofun⟩
        · exact ⟨hs.notAtLock, fun h => absurd h hjoin⟩

theorem Away.not_deadlocked (hs : Away s) : ¬Deadlocked s := by
  rintro ⟨hjoin, -, hlock⟩
  exact hs.notAtLock (hs.requested hjoin) hlock

end Steps

/-! ## Runs -/

/-- Cancelling the daemon when it is about to lock the mutex is the deadlock. -/
theorem deadlocked_of_cancel
    {v : Version} {s : Shutdown} {ok : Bool} (hs : MutexHeld s)
    (hpc : s.destroyer = .cancel) (hlock : s.deamon = .lock) :
    ∃ t, shutdownStep v s (.destroyer ok) = some t ∧ Deadlocked t := by
  refine ⟨{ s with requested := true, destroyer := .join }, ?_, rfl,
    hs.destroyer (by rw [hpc]; rfl), hlock⟩
  simp [shutdownStep, hlock, destroyStep, hpc]

/-- From a state without a cancelled daemon at the lock, a run meets no deadlock
exactly when it always cancels the daemon away from the lock. -/
theorem runAllowed_iff
    {v : Version} {s : Shutdown} (actions : List ShutdownAction)
    (hmutex : MutexHeld s) (haway : Away s) :
    (∀ n t, (shutdownSystem v).run s (actions.take n) = some t →
        ¬Deadlocked t) ↔
      (shutdownSystem v).RunAllowed CancelsAway s actions := by
  induction actions generalizing s with
  | nil =>
      refine iff_of_true (fun n t hrun => ?_) trivial
      rw [List.take_nil] at hrun
      obtain rfl : s = t := Option.some.inj hrun
      exact haway.not_deadlocked
  | cons a actions ih =>
      constructor
      · intro hnever
        have ha : CancelsAway s a := by
          rintro ok rfl hpc hlock
          obtain ⟨t, hstep, hdead⟩ :=
            deadlocked_of_cancel (v := v) hmutex hpc hlock
          refine hnever 1 t ?_ hdead
          exact TransitionSystem.run_cons_eq_some_iff.mpr ⟨t, hstep, rfl⟩
        refine ⟨ha, fun s' hstep => ?_⟩
        refine (ih (hmutex.step hstep) (haway.step ha hstep)).mp ?_
        intro n t hrun
        refine hnever (n + 1) t ?_
        exact TransitionSystem.run_cons_eq_some_iff.mpr ⟨s', hstep, hrun⟩
      · rintro ⟨ha, hrest⟩ n t hrun
        cases n with
        | zero =>
            obtain rfl : s = t := Option.some.inj hrun
            exact haway.not_deadlocked
        | succ n =>
            obtain ⟨s', hstep, hrun⟩ :=
              TransitionSystem.run_cons_eq_some_iff.mp hrun
            have hiff := ih (hmutex.step hstep) (haway.step ha hstep)
            exact hiff.mpr (hrest s' hstep) n t hrun

/-- In both versions and from any pool, a run never reaches the deadlock if and
only if whenever it cancels the daemon, the daemon is not about to lock the
mutex. -/
theorem neverDeadlocked_iff_cancelsAway
    (v : Version) (threads : List ThreadInfo)
    (actions : List ShutdownAction) :
    (∀ n t, (shutdownSystem v).run (startShutdown v threads)
        (actions.take n) = some t → ¬Deadlocked t) ↔
      (shutdownSystem v).RunAllowed CancelsAway (startShutdown v threads)
        actions := by
  refine runAllowed_iff actions ?_ ?_
  · cases v <;> exact ⟨nofun, nofun⟩
  · exact ⟨nofun, nofun⟩

/-- The daemon is at the lock when `destroy_thread_pool` cancels it: in the
proxy it has just passed the test at the head of its loop, in lab 1.8 it has
just been created. -/
theorem cancelledAtLock_deadlocked :
    (∃ t, (shutdownSystem .proxy).run (startShutdown .proxy createThreadPool)
        [.destroyer true, .destroyer true, .deamon .busy, .destroyer true] =
          some t ∧ Deadlocked t) ∧
      ∃ t, (shutdownSystem .lab).run (startShutdown .lab createThreadPool)
        [.destroyer true, .destroyer true, .destroyer true] =
          some t ∧ Deadlocked t :=
  ⟨⟨_, rfl, rfl, rfl, rfl⟩, ⟨_, rfl, rfl, rfl, rfl⟩⟩

end Pool
end Threads
end OsFifthSem
