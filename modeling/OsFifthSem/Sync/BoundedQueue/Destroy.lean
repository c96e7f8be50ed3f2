import OsFifthSem.Support.Transition
import OsFifthSem.Sync.BoundedQueue.Queue

/-!
# Destroying a queue

`queue_destroy` of `2.2e.c`, `2.2f.c` and `2.2g.c` against the monitor of the
queue.  It cancels the monitor, joins it, destroys the mutex and frees the
nodes.  A cancellation is deferred: the monitor acts on it in `printf` and in
`sleep`, and not in `pthread_mutex_lock`.

`queue_print_stats` prints with the mutex locked, so the monitor can end there
and leave the mutex locked for ever.
-/

namespace OsFifthSem
namespace BoundedQueue
namespace Destroy

open Support

/-- The files whose queue has a mutex. -/
inductive Source
  /-- `2.2e.c`, with a mutex only. -/
  | mutex
  /-- `2.2f.c`. -/
  | condVar
  /-- `2.2g.c`. -/
  | semaphore
  deriving DecidableEq, Repr

/-- Where the monitor is. -/
inductive MonitorPc
  /-- The `printf` at the head of `qmonitor`. -/
  | banner
  /-- `queue_print_stats`: `pthread_mutex_lock`. -/
  | lock
  /-- `queue_print_stats`: `printf`, with the mutex. -/
  | print
  | unlock
  | sleep
  | cancelled
  deriving DecidableEq, Repr

/-- Where the caller of `queue_destroy` is. -/
inductive DestroyPc
  | cancel
  | join
  | destroyMutex
  /-- `pthread_cond_destroy` or `sem_destroy`. -/
  | destroyOthers
  /-- The loop over the nodes, at `cur_node`. -/
  | freeNodes (cur : Option ℕ)
  | freeQueue
  | done
  /-- `exit(err)` has ended the process. -/
  | exited (err : ℤ)
  deriving DecidableEq, Repr

/-- `pthread_join` has returned. -/
def DestroyPc.Joined : DestroyPc → Prop
  | .cancel => False
  | .join => False
  | _ => True

/-- `err` is what `pthread_mutex_destroy` returned, and `freed` the nodes given
to `free`, in order. -/
structure State where
  q : Queue
  /-- The mutex is locked.  Only the monitor locks it here. -/
  locked : Bool
  /-- The monitor was cancelled, and may not have acted on it yet. -/
  requested : Bool
  monitor : MonitorPc
  destroyer : DestroyPc
  err : Option ℤ
  freed : List ℕ

inductive Action
  | monitor
  | destroyer
  deriving DecidableEq, Repr

/-- A cancellation point, from which the monitor goes on at `next`. -/
def cancellationPoint (s : State) (next : MonitorPc) : State :=
  { s with monitor := if s.requested then .cancelled else next }

/-- `qmonitor` with `queue_print_stats`. -/
def monitorStep (s : State) : Option State :=
  match s.monitor with
  | .banner => some (cancellationPoint s .lock)
  | .lock =>
      if s.locked then none
      else some { s with locked := true, monitor := .print }
  | .print => some (cancellationPoint s .unlock)
  | .unlock => some { s with locked := false, monitor := .sleep }
  | .sleep => some (cancellationPoint s .lock)
  | .cancelled => none

/-- `EBUSY`, for a mutex that is locked. -/
def ebusy : ℤ := 16

/-- `pthread_mutex_destroy`.  `2.2e.c` alone looks at the result. -/
def destroyMutex (file : Source) (s : State) : State :=
  let err := if s.locked then ebusy else 0
  { s with
    err := some err
    destroyer :=
      match file with
      | .mutex => if err ≠ 0 then .exited err else .freeNodes s.q.first
      | .condVar => .destroyOthers
      | .semaphore => .destroyOthers }

/-- `queue_destroy`.  A freed node that is read gives no result. -/
def destroyStep (file : Source) (s : State) : Option State :=
  match s.destroyer with
  | .cancel => some { s with requested := true, destroyer := .join }
  | .join =>
      if s.monitor = .cancelled then some { s with destroyer := .destroyMutex }
      else none
  | .destroyMutex => some (destroyMutex file s)
  | .destroyOthers => some { s with destroyer := .freeNodes s.q.first }
  | .freeNodes none => some { s with destroyer := .freeQueue }
  | .freeNodes (some cur) =>
      (s.q.nodes cur).map fun n => { s with
        q := { s.q with nodes := Function.update s.q.nodes cur none }
        freed := s.freed ++ [cur]
        destroyer := .freeNodes n.next }
  | .freeQueue => some { s with destroyer := .done }
  | .done => none
  | .exited _ => none

/-- One step; nobody takes one after `exit`. -/
def step (file : Source) (s : State) : Action → Option State
  | .monitor => match s.destroyer with
      | .exited _ => none
      | _ => monitorStep s
  | .destroyer => destroyStep file s

/-- `queue_destroy` is called on a queue whose monitor was created by
`queue_init`. -/
def start (q : Queue) : State where
  q := q
  locked := false
  requested := false
  monitor := .banner
  destroyer := .cancel
  err := none
  freed := []

/-- `queue_destroy` is called on any queue that is a list. -/
def destroySystem (file : Source) : TransitionSystem State Action where
  Initial := fun s => ∃ q xs, Chain QNode.next q.nodes q.first xs ∧ s = start q
  step := step file

/-- The monitor has not left the mutex locked, and `queue_destroy` goes on:
the mutex is destroyed, each of the nodes `xs` is freed exactly once, and the
call returns. -/
structure DestroysSafely (file : Source) (xs : List ℕ) (s : State) :
    Prop where
  unlocked : s.locked = false
  running : ∀ err, s.destroyer ≠ .exited err
  returns : ∃ n t,
    (destroySystem file).run s (List.replicate n .destroyer) = some t ∧
      t.destroyer = .done ∧ t.err = some 0 ∧ t.freed = xs ∧ t.freed.Nodup

/-- If this step cancels the monitor, the monitor is not about to lock the
mutex and not printing with it. -/
def CancelsAway (s : State) (a : Action) : Prop :=
  a = .destroyer → s.destroyer = .cancel →
    s.monitor ≠ .lock ∧ s.monitor ≠ .print

instance (s : State) (a : Action) : Decidable (CancelsAway s a) :=
  inferInstanceAs (Decidable (_ → _ → _))

/-! ## The monitor -/

section Monitor

variable {s t : State} {file : Source} {xs : List ℕ}

/-- What a step of the monitor can do. -/
theorem monitorStep_cases (hstep : monitorStep s = some t) :
    (s.monitor = .lock ∧ s.locked = false ∧
      t = { s with locked := true, monitor := .print }) ∨
    (s.monitor = .unlock ∧ t = { s with locked := false, monitor := .sleep }) ∨
    ((s.monitor = .banner ∨ s.monitor = .sleep) ∧
      t = cancellationPoint s .lock) ∨
    (s.monitor = .print ∧ t = cancellationPoint s .unlock) := by
  unfold monitorStep at hstep
  split at hstep
  next h => exact Or.inr (Or.inr (Or.inl ⟨Or.inl h, (Option.some.inj hstep).symm⟩))
  next h =>
    split at hstep
    next => cases hstep
    next hfree =>
      exact Or.inl ⟨h, by simpa using hfree, (Option.some.inj hstep).symm⟩
  next h => exact Or.inr (Or.inr (Or.inr ⟨h, (Option.some.inj hstep).symm⟩))
  next h => exact Or.inr (Or.inl ⟨h, (Option.some.inj hstep).symm⟩)
  next h => exact Or.inr (Or.inr (Or.inl ⟨Or.inr h, (Option.some.inj hstep).symm⟩))
  next => cases hstep

theorem monitorStep_of_step
    (hstep : step file s .monitor = some t) : monitorStep s = some t := by
  simp only [step] at hstep
  split at hstep
  · cases hstep
  · exact hstep

theorem cancelled_of_monitorStep
    (hstep : monitorStep s = some t) : s.monitor ≠ .cancelled := by
  intro h
  simp [monitorStep, h] at hstep

/-- Where the monitor stands in a run that cancelled it away from the lock. -/
structure MonitorSafe (s : State) : Prop where
  locked : s.locked = true ↔ s.monitor = .print ∨ s.monitor = .unlock
  away : s.requested = true → s.monitor ≠ .lock ∧ s.monitor ≠ .print

theorem MonitorSafe.monitorStep
    (hs : MonitorSafe s) (hstep : monitorStep s = some t) : MonitorSafe t := by
  rcases monitorStep_cases hstep with ⟨hpc, -, rfl⟩ | ⟨-, rfl⟩ |
    ⟨hpc, rfl⟩ | ⟨hpc, rfl⟩
  · exact ⟨by simp, fun hreq => absurd hpc (hs.away hreq).1⟩
  · exact ⟨by simp, fun _ => ⟨by simp, by simp⟩⟩
  · have hfree : s.locked = false := by
      have hlocked := hs.locked
      rcases hpc with hpc | hpc <;> simpa [hpc] using hlocked
    by_cases hreq : s.requested = true
    · exact ⟨by simp [cancellationPoint, hreq, hfree],
        fun _ => by simp [cancellationPoint, hreq]⟩
    · exact ⟨by simp [cancellationPoint, hreq, hfree],
        fun hreq' => absurd hreq' hreq⟩
  · have hreq : s.requested = false := by
      by_contra hreq
      exact (hs.away (by simpa using hreq)).2 hpc
    have hlocked : s.locked = true := hs.locked.mpr (Or.inl hpc)
    exact ⟨by simp [cancellationPoint, hreq, hlocked],
      fun hreq' => absurd hreq' (by simp [cancellationPoint, hreq])⟩

/-- The monitor was cancelled before it gives the mutex back: it ends with the
mutex locked. -/
structure MonitorDoomed (s : State) : Prop where
  requested : s.requested = true
  ends : s.monitor = .lock ∧ s.locked = false ∨
    (s.monitor = .print ∨ s.monitor = .cancelled) ∧ s.locked = true

theorem MonitorDoomed.monitorStep
    (hs : MonitorDoomed s) (hstep : monitorStep s = some t) :
    MonitorDoomed t := by
  rcases monitorStep_cases hstep with ⟨-, -, rfl⟩ | ⟨hpc, -⟩ |
    ⟨hpc, -⟩ | ⟨hpc, rfl⟩
  · exact ⟨hs.requested, Or.inr ⟨Or.inl rfl, rfl⟩⟩
  · rcases hs.ends with ⟨h, -⟩ | ⟨h | h, -⟩ <;> simp [hpc] at h
  · rcases hs.ends with ⟨h, -⟩ | ⟨h | h, -⟩ <;>
      rcases hpc with hpc | hpc <;> simp [hpc] at h
  · rcases hs.ends with ⟨h, -⟩ | ⟨-, hlocked⟩
    · simp [hpc] at h
    · exact ⟨hs.requested,
        Or.inr ⟨Or.inr (by simp [cancellationPoint, hs.requested]), hlocked⟩⟩

end Monitor

/-! ## The caller of `queue_destroy` -/

section Destroyer

variable {s t : State} {file : Source} {xs : List ℕ}

/-- What a step of `queue_destroy` does to the monitor: it cancels it, or
leaves it alone. -/
theorem destroyStep_cases (hstep : destroyStep file s = some t) :
    (s.destroyer = .cancel ∧
      t = { s with requested := true, destroyer := .join }) ∨
    (s.destroyer ≠ .cancel ∧ t.destroyer ≠ .cancel ∧
      t.locked = s.locked ∧ t.requested = s.requested ∧
      t.monitor = s.monitor ∧
      (s.destroyer.Joined ∨ s.monitor = .cancelled)) := by
  unfold destroyStep at hstep
  split at hstep
  next h => exact Or.inl ⟨h, (Option.some.inj hstep).symm⟩
  next h =>
    split at hstep
    next hcancelled =>
      obtain rfl := Option.some.inj hstep
      exact Or.inr ⟨by simp [h], by simp, rfl, rfl, rfl, Or.inr hcancelled⟩
    next => cases hstep
  next h =>
    obtain rfl := Option.some.inj hstep
    refine Or.inr ⟨by simp [h], ?_, rfl, rfl, rfl, Or.inl (by rw [h]; trivial)⟩
    cases file with
    | mutex => cases hl : s.locked <;> simp [destroyMutex, hl, ebusy]
    | condVar => simp [destroyMutex]
    | semaphore => simp [destroyMutex]
  next h =>
    obtain rfl := Option.some.inj hstep
    exact Or.inr ⟨by simp [h], by simp, rfl, rfl, rfl, Or.inl (by rw [h]; trivial)⟩
  next h =>
    obtain rfl := Option.some.inj hstep
    exact Or.inr ⟨by simp [h], by simp, rfl, rfl, rfl, Or.inl (by rw [h]; trivial)⟩
  next cur h =>
    obtain ⟨n, -, rfl⟩ := Option.map_eq_some_iff.mp hstep
    exact Or.inr ⟨by simp [h], by simp, rfl, rfl, rfl, Or.inl (by rw [h]; trivial)⟩
  next h =>
    obtain rfl := Option.some.inj hstep
    exact Or.inr ⟨by simp [h], by simp, rfl, rfl, rfl, Or.inl (by rw [h]; trivial)⟩
  next => cases hstep
  next => cases hstep

/-- The nodes `xs` are freed one after the other. -/
def Frees (xs : List ℕ) (s : State) : Prop :=
  match s.destroyer with
  | .cancel => s.freed = [] ∧ Chain QNode.next s.q.nodes s.q.first xs
  | .join => s.freed = [] ∧ Chain QNode.next s.q.nodes s.q.first xs
  | .destroyMutex => s.freed = [] ∧ Chain QNode.next s.q.nodes s.q.first xs
  | .destroyOthers =>
      s.err = some 0 ∧ s.freed = [] ∧
        Chain QNode.next s.q.nodes s.q.first xs
  | .freeNodes cur => s.err = some 0 ∧
      ∃ ys, xs = s.freed ++ ys ∧ Chain QNode.next s.q.nodes cur ys
  | .freeQueue => s.err = some 0 ∧ s.freed = xs
  | .done => s.err = some 0 ∧ s.freed = xs
  | .exited _ => False

theorem Frees.of_eq
    (hs : Frees xs s) (hd : t.destroyer = s.destroyer) (hq : t.q = s.q)
    (herr : t.err = s.err) (hfreed : t.freed = s.freed) : Frees xs t := by
  simpa only [Frees, hd, hq, herr, hfreed] using hs

/-- A step of `queue_destroy` that finds the mutex unlocked. -/
theorem Frees.destroyStep
    (hs : Frees xs s) (hfree : s.destroyer = .destroyMutex → s.locked = false)
    (hstep : destroyStep file s = some t) : Frees xs t := by
  unfold Destroy.destroyStep at hstep
  unfold Frees at hs
  split at hstep
  next h =>
    simp only [h] at hs
    obtain rfl := Option.some.inj hstep
    exact hs
  next h =>
    simp only [h] at hs
    split at hstep
    · obtain rfl := Option.some.inj hstep
      exact hs
    · cases hstep
  next h =>
    simp only [h] at hs
    obtain rfl := Option.some.inj hstep
    have hunlocked := hfree h
    cases file with
    | mutex =>
        simp only [Frees, destroyMutex, hunlocked]
        exact ⟨rfl, xs, by simp [hs.1], hs.2⟩
    | condVar => simpa [Frees, destroyMutex, hunlocked] using hs
    | semaphore => simpa [Frees, destroyMutex, hunlocked] using hs
  next h =>
    simp only [h] at hs
    obtain rfl := Option.some.inj hstep
    exact ⟨hs.1, xs, by simp [hs.2.1], hs.2.2⟩
  next h =>
    simp only [h] at hs
    obtain rfl := Option.some.inj hstep
    obtain ⟨herr, ys, hxs, hc⟩ := hs
    cases hc
    exact ⟨herr, by simpa using hxs.symm⟩
  next cur h =>
    simp only [h] at hs
    obtain ⟨n, hn, rfl⟩ := Option.map_eq_some_iff.mp hstep
    obtain ⟨herr, ys, hxs, hc⟩ := hs
    have hnodup := hc.nodup
    cases hc with
    | @cons _ m zs hcell htail =>
        obtain rfl := Option.some.inj (hn.symm.trans hcell)
        refine ⟨herr, zs, by simpa using hxs, htail.congr_of_eq fun b hb => ?_⟩
        refine Function.update_of_ne ?_ _ _
        rintro rfl
        exact (List.nodup_cons.mp hnodup).1 hb
  next h =>
    simp only [h] at hs
    obtain rfl := Option.some.inj hstep
    exact hs
  next => cases hstep
  next => cases hstep

/-- The number of steps of `queue_destroy` behind the join that are left. -/
def stepsLeft (xs : List ℕ) (s : State) : ℕ :=
  match s.destroyer with
  | .destroyMutex => xs.length + 4
  | .destroyOthers => xs.length + 3
  | .freeNodes _ => xs.length - s.freed.length + 2
  | .freeQueue => 1
  | _ => 0

/-- Behind the join `queue_destroy` takes a step until it returns. -/
theorem Frees.exists_destroyStep
    (file : Source) (hs : Frees xs s) (hjoined : s.destroyer.Joined)
    (hfree : s.locked = false) (hnot : s.destroyer ≠ .done) :
    ∃ t, Destroy.destroyStep file s = some t ∧ t.destroyer.Joined ∧
      t.locked = false ∧ stepsLeft xs t < stepsLeft xs s := by
  unfold Frees at hs
  cases h : s.destroyer with
  | cancel => exact absurd hjoined (by simp [h, DestroyPc.Joined])
  | join => exact absurd hjoined (by simp [h, DestroyPc.Joined])
  | destroyMutex =>
      have hstep : Destroy.destroyStep file s = some (destroyMutex file s) := by
        simp only [Destroy.destroyStep, h]
      refine ⟨_, hstep, ?_⟩
      cases file <;>
        simp [destroyMutex, hfree, DestroyPc.Joined, stepsLeft, h]
      omega
  | destroyOthers =>
      have hstep : Destroy.destroyStep file s =
          some { s with destroyer := .freeNodes s.q.first } := by
        simp only [Destroy.destroyStep, h]
      refine ⟨_, hstep, trivial, hfree, ?_⟩
      simp only [stepsLeft, h]
      omega
  | freeNodes cur =>
      simp only [h] at hs
      obtain ⟨-, ys, rfl, hc⟩ := hs
      cases hc with
      | nil =>
          have hstep : Destroy.destroyStep file s =
              some { s with destroyer := .freeQueue } := by
            simp only [Destroy.destroyStep, h]
          exact ⟨_, hstep, trivial, hfree, by simp [stepsLeft, h]⟩
      | @cons a n zs hcell htail =>
          have hstep : Destroy.destroyStep file s = some { s with
              q := { s.q with nodes := Function.update s.q.nodes a none }
              freed := s.freed ++ [a]
              destroyer := .freeNodes n.next } := by
            simp only [Destroy.destroyStep, h, hcell, Option.map_some]
          refine ⟨_, hstep, trivial, hfree, ?_⟩
          simp only [stepsLeft, h, List.length_append, List.length_cons,
            List.length_nil]
          omega
  | freeQueue =>
      have hstep : Destroy.destroyStep file s =
          some { s with destroyer := .done } := by
        simp only [Destroy.destroyStep, h]
      exact ⟨_, hstep, trivial, hfree, by simp [stepsLeft, h]⟩
  | done => exact absurd h hnot
  | exited err => simp only [h] at hs

theorem Frees.returns
    (file : Source) (hs : Frees xs s) (hjoined : s.destroyer.Joined)
    (hfree : s.locked = false) :
    ∃ n t, (destroySystem file).run s (List.replicate n .destroyer) = some t ∧
      t.destroyer = .done ∧ Frees xs t := by
  induction hleft : stepsLeft xs s using Nat.strongRecOn generalizing s with
  | _ k ih =>
      by_cases hdone : s.destroyer = .done
      · exact ⟨0, s, rfl, hdone, hs⟩
      · obtain ⟨s', hstep, hjoined', hfree', hless⟩ :=
          hs.exists_destroyStep file hjoined hfree hdone
        obtain ⟨n, t, hrun, hend⟩ :=
          ih _ (hleft ▸ hless) (hs.destroyStep (fun _ => hfree) hstep) hjoined'
            hfree' rfl
        refine ⟨n + 1, t, ?_, hend⟩
        exact TransitionSystem.run_cons_eq_some_iff.mpr ⟨s', hstep, hrun⟩

theorem destroysSafely_of_frees
    (hs : Frees xs s) (hnodup : xs.Nodup) (hjoined : s.destroyer.Joined)
    (hfree : s.locked = false) : DestroysSafely file xs s := by
  refine ⟨hfree, fun err h => ?_, ?_⟩
  · simp [Frees, h] at hs
  · obtain ⟨n, t, hrun, hdone, hend⟩ := hs.returns file hjoined hfree
    simp only [Frees, hdone] at hend
    exact ⟨n, t, hrun, hdone, hend.1, hend.2, hend.2 ▸ hnodup⟩

end Destroyer

/-! ## Runs -/

section Runs

variable {s t : State} {file : Source} {xs : List ℕ}

/-- A run that has cancelled the monitor away from the lock. -/
structure Safe (xs : List ℕ) (s : State) : Prop where
  monitor : MonitorSafe s
  destroyer : Frees xs s
  joined : s.destroyer.Joined → s.monitor = .cancelled

theorem Safe.unlocked_of_joined
    (hs : Safe xs s) (hjoined : s.destroyer.Joined) : s.locked = false := by
  have hlocked := hs.monitor.locked
  simpa [hs.joined hjoined] using hlocked

theorem Safe.step
    {a : Action} (hs : Safe xs s) (ha : CancelsAway s a)
    (hstep : step file s a = some t) : Safe xs t := by
  cases a with
  | monitor =>
      have hmonitor := monitorStep_of_step hstep
      have hsame : t.destroyer = s.destroyer ∧ t.q = s.q ∧ t.err = s.err ∧
          t.freed = s.freed := by
        rcases monitorStep_cases hmonitor with ⟨-, -, rfl⟩ | ⟨-, rfl⟩ |
          ⟨-, rfl⟩ | ⟨-, rfl⟩ <;> exact ⟨rfl, rfl, rfl, rfl⟩
      obtain ⟨hd, hq, herr, hfreed⟩ := hsame
      refine ⟨hs.monitor.monitorStep hmonitor,
        hs.destroyer.of_eq hd hq herr hfreed, fun hjoined => ?_⟩
      exact absurd (hs.joined (hd ▸ hjoined)) (cancelled_of_monitorStep hmonitor)
  | destroyer =>
      have hfree : s.destroyer = .destroyMutex → s.locked = false :=
        fun h => hs.unlocked_of_joined (by rw [h]; trivial)
      have hfrees := hs.destroyer.destroyStep hfree hstep
      rcases destroyStep_cases hstep with ⟨hpc, rfl⟩ |
        ⟨-, -, hlocked, hreq, hmonitor, hjoined⟩
      · exact ⟨⟨hs.monitor.locked, fun _ => ha rfl hpc⟩, hfrees, False.elim⟩
      · refine ⟨⟨?_, ?_⟩, hfrees, fun _ => ?_⟩
        · rw [hlocked, hmonitor]
          exact hs.monitor.locked
        · rw [hreq, hmonitor]
          exact hs.monitor.away
        · rw [hmonitor]
          exact hjoined.elim hs.joined id

theorem Safe.destroysSafely
    (hs : Safe xs s) (hnodup : xs.Nodup) (hjoined : s.destroyer.Joined) :
    DestroysSafely file xs s :=
  destroysSafely_of_frees hs.destroyer hnodup hjoined
    (hs.unlocked_of_joined hjoined)

/-- A run that has cancelled the monitor at the lock or in the `printf`. -/
structure Doomed (s : State) : Prop where
  monitor : MonitorDoomed s
  destroyer : s.destroyer ≠ .cancel
  joined : s.destroyer.Joined → s.monitor = .cancelled

theorem Safe.doomed
    {a : Action} (hs : Safe xs s) (ha : ¬CancelsAway s a)
    (hstep : Destroy.step file s a = some t) : Doomed t := by
  have hbad : a = .destroyer ∧ s.destroyer = .cancel ∧
      (s.monitor = .lock ∨ s.monitor = .print) := by
    simp only [CancelsAway, ne_eq, Classical.not_imp, not_and_or,
      not_not] at ha
    exact ha
  obtain ⟨rfl, hpc, hmonitor⟩ := hbad
  rcases destroyStep_cases hstep with ⟨-, rfl⟩ | ⟨hnot, -⟩
  · refine ⟨⟨rfl, ?_⟩, by simp, False.elim⟩
    rcases hmonitor with h | h
    · have hlocked := hs.monitor.locked
      exact Or.inl ⟨h, by simpa [h] using hlocked⟩
    · exact Or.inr ⟨Or.inl h, hs.monitor.locked.mpr (Or.inl h)⟩
  · exact absurd hpc hnot

theorem Doomed.step
    {a : Action} (hs : Doomed s) (hstep : step file s a = some t) :
    Doomed t := by
  cases a with
  | monitor =>
      have hmonitor := monitorStep_of_step hstep
      have hsame : t.destroyer = s.destroyer := by
        rcases monitorStep_cases hmonitor with ⟨-, -, rfl⟩ | ⟨-, rfl⟩ |
          ⟨-, rfl⟩ | ⟨-, rfl⟩ <;> rfl
      refine ⟨hs.monitor.monitorStep hmonitor, hsame ▸ hs.destroyer,
        fun hjoined => ?_⟩
      exact absurd (hs.joined (hsame ▸ hjoined))
        (cancelled_of_monitorStep hmonitor)
  | destroyer =>
      rcases destroyStep_cases hstep with ⟨h, -⟩ |
        ⟨-, hpc, hlocked, hreq, hmonitor, hjoined⟩
      · exact absurd h hs.destroyer
      · refine ⟨⟨hreq.trans hs.monitor.requested, ?_⟩, hpc, fun _ => ?_⟩
        · rw [hlocked, hmonitor]
          exact hs.monitor.ends
        · rw [hmonitor]
          exact hjoined.elim hs.joined id

theorem Doomed.locked_of_joined
    (hs : Doomed s) (hjoined : s.destroyer.Joined) : s.locked = true := by
  rcases hs.monitor.ends with ⟨h, -⟩ | ⟨-, hlocked⟩
  · exact absurd (h.symm.trans (hs.joined hjoined)) (by simp)
  · exact hlocked

theorem safe_start
    {q : Queue} (hc : Chain QNode.next q.nodes q.first xs) :
    Safe xs (start q) where
  monitor := ⟨by simp [start], by simp [start]⟩
  destroyer := ⟨rfl, hc⟩
  joined := False.elim

end Runs

/-- All files, for any queue and every interleaving: when `queue_destroy` has
joined the monitor, it goes on safely if and only if it did not cancel the
monitor at the lock or in the `printf` with the mutex. -/
theorem destroysSafely_iff_cancelsAway
    (file : Source) {q : Queue} {xs : List ℕ}
    (hc : Chain QNode.next q.nodes q.first xs)
    {actions : List Action} {s : State}
    (hrun : (destroySystem file).run (start q) actions = some s)
    (hjoined : s.destroyer.Joined) :
    DestroysSafely file xs s ↔
      (destroySystem file).RunAllowed CancelsAway (start q) actions := by
  have hend := TransitionSystem.runAllowed_or_doomed (S := destroySystem file)
    (I := Safe xs) (D := Doomed) (fun _ _ _ hs ha hstep => hs.step ha hstep)
    (fun _ _ _ hs ha hstep => hs.doomed ha hstep)
    (fun _ _ _ hs hstep => hs.step hstep) (safe_start hc) hrun
  rcases hend with ⟨hall, hs⟩ | ⟨hnot, hs⟩
  · exact iff_of_true (hs.destroysSafely hc.nodup hjoined) hall
  · refine iff_of_false (fun hsafe => ?_) hnot
    have hlocked := hs.locked_of_joined hjoined
    rw [hsafe.unlocked] at hlocked
    cases hlocked

/-- Two nodes in a list. -/
def twoNodes : Queue :=
  { queueInit 4 with
    nodes := fun a =>
      if a = 0 then some ⟨5, some 1⟩ else if a = 1 then some ⟨6, none⟩ else none
    allocated := 2
    first := some 0
    last := some 1
    count := 2
    addCount := 2
    added := [5, 6] }

/-- The monitor has printed once and is cancelled in `sleep`. -/
theorem destroysSafely_iff_cancelsAway_sleep :
    ∃ s, (destroySystem .mutex).run (start twoNodes)
        [.monitor, .monitor, .monitor, .monitor, .destroyer, .monitor,
          .destroyer] = some s ∧ s.destroyer.Joined ∧
      DestroysSafely .mutex [0, 1] s := by
  have hchain : Chain QNode.next twoNodes.nodes twoNodes.first [0, 1] :=
    .cons rfl (.cons rfl .nil)
  have hrun : (destroySystem .mutex).runWhile
      (fun s a => decide (CancelsAway s a)) (start twoNodes)
      [.monitor, .monitor, .monitor, .monitor, .destroyer, .monitor,
        .destroyer] = some _ := rfl
  obtain ⟨hallowed, hsteps⟩ :=
    TransitionSystem.runAllowed_of_runWhile (fun _ _ => of_decide_eq_true) hrun
  exact ⟨_, hsteps, trivial,
    (destroysSafely_iff_cancelsAway .mutex hchain hsteps trivial).mpr hallowed⟩

/-- The monitor is printing the statistics when it is cancelled: the mutex
stays locked, and `2.2e.c` exits. -/
theorem not_destroysSafely_print :
    ∃ s, (destroySystem .mutex).run (start (queueInit 1))
        [.monitor, .monitor, .destroyer, .monitor, .destroyer] = some s ∧
      s.destroyer.Joined ∧ ¬DestroysSafely .mutex [] s ∧
      ∃ t, step .mutex s .destroyer = some t ∧ t.destroyer = .exited ebusy :=
  ⟨_, rfl, trivial, fun h => absurd h.unlocked (by decide), _, rfl, rfl⟩

end Destroy
end BoundedQueue
end OsFifthSem
