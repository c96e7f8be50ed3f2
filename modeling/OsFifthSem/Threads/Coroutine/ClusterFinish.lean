import OsFifthSem.Support.Termination
import OsFifthSem.Threads.Coroutine.Cluster

/-!
# All threads finish

When each scheduler would return alone, every schedule of the cluster ends, and
where it ends all of them have returned.  The steps of the machines are counted
first and those of the calls to the map second: a walk over a bucket passes at
most one node for each thread.

Threads with buckets of their own never overwrite the head of a bucket, so
nothing has to be asked of their steps.
-/

namespace OsFifthSem
namespace Coroutine
namespace Cluster

open Support

universe u

variable {R : Type u} {code : Routines R} {capacity t : ℕ}
  {workers : Finset ℕ} {s s' : Cluster R} {m₀ : ℕ → Machine R}
  {routines : ℕ → List R}

/-! ## The measure -/

theorem step_of_returned {m : Machine R} (h : Returned m) :
    m.step code t = m := by
  unfold Returned at h
  simp [Machine.step, h]

/-- A machine that has returned does not go on. -/
theorem returned_mono
    {m : Machine R} {n n' : ℕ} (hle : n ≤ n')
    (h : Returned (after code t m n)) : Returned (after code t m n') := by
  induction hle with
  | refl => exact h
  | step _ ih =>
      rw [after_succ, step_of_returned ih]
      exact ih

/-- What is left to one thread when its machine returns after `last` steps. -/
noncomputable def threadLeft (last : ℕ → ℕ) (bound : ℕ) (s : Cluster R)
    (t : ℕ) : ℕ :=
  lexMeasure (bound + 8) (last t - s.steps t) (s.left bound t)

/-- What is left to the threads. -/
noncomputable def workLeft (last : ℕ → ℕ) (workers : Finset ℕ)
    (s : Cluster R) : ℕ :=
  ∑ t ∈ workers, threadLeft last workers.card s t

namespace Follows

/-- The buckets have at most one node for each thread. -/
theorem length_le
    {lists : ℕ → List ℕ} (h : Follows code capacity workers m₀ s)
    (hlinks : SharedMap.LinksInv capacity s.map lists) (i : ℕ) :
    (lists i).length ≤ workers.card := by
  refine hlinks.length_le (fun u hu => ?_) i
  rcases hu with hadded | hpending
  · exact h.added u hadded
  · by_contra hout
    rw [h.idle u hout] at hpending
    exact hpending

theorem left_le (h : Follows code capacity workers m₀ s) (t : ℕ) :
    s.left workers.card t ≤ workers.card + 8 := by
  obtain ⟨lists, hlinks⟩ := h.links
  have hbound := h.length_le hlinks
  unfold left
  split
  · exact hlinks.addLeft_le hbound
  · exact (hlinks.getLeft_le hbound).trans (by omega)
  · exact Nat.zero_le _

/-- The call of another thread is where it was. -/
theorem left_eq
    {u : ℕ} (h : Follows code capacity workers m₀ s)
    (hadv : Advances code capacity m₀ t s s') (hu : u ≠ t) (bound : ℕ) :
    s'.left bound u = s.left bound u := by
  obtain ⟨lists, hlinks⟩ := h.links
  unfold left
  rw [(machines_of_ne hadv hu).1]
  obtain hsame | ⟨a, rfl, hstep⟩ := hadv.map
  · rw [hsame]
  · obtain ⟨hadd, hget⟩ := hlinks.left_kept hu hstep bound
    rw [hadd, hget]

theorem threadLeft_lt
    {last : ℕ → ℕ} (h : Follows code capacity workers m₀ s)
    (h' : Follows code capacity workers m₀ s')
    (hadv : Advances code capacity m₀ t s s')
    (hlast : Returned (after code t (m₀ t) (last t)))
    (hreturned : ¬Returned (s.machines t)) :
    threadLeft last workers.card s' t < threadLeft last workers.card s t := by
  obtain ⟨hmachines, hsteps, hless⟩ | ⟨hmachines, hsteps⟩ := hadv.progress
  · obtain ⟨lists, hlinks⟩ := h.links
    unfold threadLeft lexMeasure
    rw [hsteps]
    exact Nat.add_lt_add_left
      (hless workers.card lists hlinks (h.length_le hlinks)) _
  · refine lexMeasure_lt_of_high (h'.left_le t) ?_
    rw [hsteps, Function.update_self]
    have hlt : s.steps t < last t := by
      by_contra hge
      refine hreturned ?_
      rw [Returned, h.control_eq]
      exact returned_mono (Nat.le_of_not_lt hge) hlast
    omega

/-- Each step leaves less to do. -/
theorem workLeft_lt
    {last : ℕ → ℕ} (h : Follows code capacity workers m₀ s)
    (h' : Follows code capacity workers m₀ s') (ht : t ∈ workers)
    (hadv : Advances code capacity m₀ t s s')
    (hlast : Returned (after code t (m₀ t) (last t)))
    (hreturned : ¬Returned (s.machines t)) :
    workLeft last workers s' < workLeft last workers s := by
  refine Finset.sum_lt_sum (fun u _ => ?_)
    ⟨t, ht, h.threadLeft_lt h' hadv hlast hreturned⟩
  by_cases hu : u = t
  · subst hu
    exact (h.threadLeft_lt h' hadv hlast hreturned).le
  · unfold threadLeft
    rw [(machines_of_ne hadv hu).2, h.left_eq hadv hu]

end Follows

/-! ## Schedules without overwritten heads -/

/-- The thread creates only so many coroutines. -/
def CreatesBounded (code : Routines R) (capacity : ℕ)
    (routines : ℕ → List R) (t : ℕ) : Prop :=
  ∀ m₀, Coroutine.start (coroMapCreate capacity) (routines t) = some m₀ →
    ∃ bound, ∀ n, (after code t m₀ n).coros.length ≤ bound

/-- All coroutines of the thread have run all their segments. -/
def Done (code : Routines R) (m : Machine R) : Prop :=
  Returned m ∧ ∀ c co, m.coros[c]? = some co →
    m.Finished c ∧ m.segmentsOf c = List.range (code.yeilds co.userRoutine + 1)

theorem Follows.done
    (h : Follows code capacity workers m₀ s)
    (hreturned : Returned (s.machines t)) : Done code (s.machines t) := by
  obtain ⟨r, hsim⟩ := h.sim t (s.steps t)
  refine ⟨hreturned, fun c co hco => ?_⟩
  rw [Returned, h.control_eq] at hreturned
  rw [h.alone t] at hco ⊢
  exact hsim.finished_of_returned hreturned hco

/-- A state in which no thread can go on. -/
theorem Follows.done_of_stuck
    (h : Follows code capacity workers m₀ s)
    (hstuck : ∀ t, (clusterSystem code capacity workers routines).step s t =
      none) (ht : t ∈ workers) : Done code (s.machines t) := by
  refine h.done ?_
  by_contra hreturned
  obtain ⟨s', hstep, -⟩ := h.exists_step hreturned
  have hnone := hstuck t
  simp [clusterSystem, ht, hstep] at hnone

/-- A schedule is no longer than the work that is left. -/
theorem Follows.length_le_workLeft
    {last : ℕ → ℕ} {as : List ℕ} (h : Follows code capacity workers m₀ s)
    (hlast : ∀ t ∈ workers, Returned (after code t (m₀ t) (last t)))
    (hallowed : (clusterSystem code capacity workers routines).RunAllowed
      (KeepsLinks capacity) s as)
    (hrun : (clusterSystem code capacity workers routines).run s as =
      some s') :
    as.length ≤ workLeft last workers s := by
  have hle := TransitionSystem.length_le_of_measure
    (I := Follows code capacity workers m₀) (workLeft last workers)
    (fun _ => false) 0 ?_ h hallowed hrun
  · simp at hle
    omega
  · intro s t s' h hkeep hstep
    obtain ⟨ht, hadv, h'⟩ := h.of_step hkeep hstep
    refine ⟨h', ?_⟩
    have hlt := h.workLeft_lt h' ht hadv (hlast t ht) fun hreturned => by
      unfold Returned at hreturned
      simp [clusterSystem, Cluster.step, ht, hreturned] at hstep
    simp only [Bool.false_eq_true, if_false, Nat.add_zero]
    exact hlt

/-- A machine that creates boundedly many coroutines returns. -/
theorem exists_last
    (hm₀ : ∀ t, Coroutine.start (coroMapCreate capacity) (routines t) =
      some (m₀ t))
    (hbounded : ∀ t ∈ workers, CreatesBounded code capacity routines t) :
    ∃ last : ℕ → ℕ, ∀ t ∈ workers, Returned (after code t (m₀ t) (last t)) := by
  have hex : ∀ t, ∃ n, t ∈ workers → Returned (after code t (m₀ t) n) := by
    intro t
    by_cases ht : t ∈ workers
    · obtain ⟨n, hn⟩ := (sim_of_start (hm₀ t)).scheduled.terminates
        (hbounded t ht _ (hm₀ t))
      exact ⟨n, fun _ => hn⟩
    · exact ⟨0, fun hin => absurd hin ht⟩
  choose last hlast using hex
  exact ⟨last, hlast⟩

/-! ## Threads with buckets of their own -/

theorem notRaced_step
    (h : Follows code capacity workers m₀ s)
    (hown : SharedMap.OwnBuckets capacity workers)
    (hraced : SharedMap.NotRaced capacity s.map) (ht : t ∈ workers)
    (hadv : Advances code capacity m₀ t s s') :
    SharedMap.NotRaced capacity s'.map := by
  obtain ⟨lists, hlinks⟩ := h.links
  obtain hsame | ⟨a, rfl, hstep⟩ := hadv.map
  · exact hsame ▸ hraced
  · exact hlinks.notRaced hraced hown ht h.idle hstep

/-- No head of a bucket is ever overwritten. -/
theorem reachableUnder_of_own
    (hown : SharedMap.OwnBuckets capacity workers)
    (hs : (clusterSystem code capacity workers routines).Reachable s) :
    (clusterSystem code capacity workers routines).ReachableUnder
      (KeepsLinks capacity) s ∧ SharedMap.NotRaced capacity s.map := by
  refine TransitionSystem.ReachableUnder.invariant
    (P := fun s => (clusterSystem code capacity workers routines).ReachableUnder
      (KeepsLinks capacity) s ∧ SharedMap.NotRaced capacity s.map) ?_ ?_ hs
  · refine fun s hstart => ⟨.initial hstart, ?_⟩
    rw [hstart.map]
    intro t coro new n hpc
    cases hpc
  · rintro s t s' ⟨hreach, hraced⟩ - hstep
    have hkeep : KeepsLinks capacity s t := hraced.keepsLinks _
    obtain ⟨m₀, hm₀, h⟩ := exists_follows hreach
    obtain ⟨ht, hadv, -⟩ := h.of_step hkeep hstep
    exact ⟨.step hreach hkeep hstep, notRaced_step h hown hraced ht hadv⟩

theorem runAllowed_of_own
    {as : List ℕ} (hown : SharedMap.OwnBuckets capacity workers)
    (hs : (clusterSystem code capacity workers routines).Reachable s) :
    (clusterSystem code capacity workers routines).RunAllowed
      (KeepsLinks capacity) s as := by
  refine (TransitionSystem.runAllowed_congr
    (I := (clusterSystem code capacity workers routines).Reachable) ?_ ?_
    hs).mpr (TransitionSystem.runAllowed_true _ s as)
  · exact fun s t hs => iff_of_true
      ((reachableUnder_of_own hown hs).2.keepsLinks _) trivial
  · exact fun s t s' hs _ hstep => .step hs trivial hstep

/-- Schedulers on kernel threads with buckets of their own, of which each
creates only so many coroutines: in every interleaving each of them runs as if
it were alone, every schedule ends, and where it ends all coroutines have run
all their segments. -/
theorem finishes_of_ownBuckets
    (code : Routines R) (capacity : ℕ) (workers : Finset ℕ)
    (routines : ℕ → List R)
    (hown : SharedMap.OwnBuckets capacity workers)
    (hbounded : ∀ t ∈ workers, CreatesBounded code capacity routines t)
    {s : Cluster R}
    (hs : (clusterSystem code capacity workers routines).Reachable s) :
    (∀ t, RunsAlone code capacity routines s t) ∧
      (∃ bound, ∀ as s', (clusterSystem code capacity workers routines).run s as
        = some s' → as.length ≤ bound) ∧
      ((∀ t, (clusterSystem code capacity workers routines).step s t = none) →
        ∀ t ∈ workers, Done code (s.machines t)) := by
  have hreach := (reachableUnder_of_own hown hs).1
  obtain ⟨m₀, hm₀, h⟩ := exists_follows hreach
  obtain ⟨last, hlast⟩ := exists_last hm₀ hbounded
  refine ⟨fun t => h.runsAlone hm₀ t, ?_,
    fun hstuck t ht => h.done_of_stuck hstuck ht⟩
  exact ⟨_, fun as s' hrun =>
    h.length_le_workLeft hlast (runAllowed_of_own hown hs) hrun⟩

/-! ## The threads of `cluster.c` -/

/-- Without `create_coroutine` in the routines, no segment has anything to
create. -/
def CreatesNothing (length : ℕ) (m : Machine R) : Prop :=
  m.coros.length = length ∧
    ∀ coro k todo, m.control = .segment coro k todo → todo = []

/-- A machine that is at the start of no segment. -/
theorem createsNothing_of_ne
    {length : ℕ} {m : Machine R} (hlength : m.coros.length = length)
    (hne : ∀ coro k todo, m.control ≠ .segment coro k todo) :
    CreatesNothing length m :=
  ⟨hlength, fun coro k todo h => absurd h (hne coro k todo)⟩

theorem resume_ne_segment
    (stack : Bool) (point : ResumePoint) (coro k : ℕ) (todo : List R) :
    (if stack then Machine.resume point else .fault) ≠
      Control.segment coro k todo := by
  cases stack <;> cases point <;> simp [Machine.resume]

theorem createsNothing_step
    {length : ℕ} {m : Machine R} (hnone : ∀ r k, code.creates r k = [])
    (h : CreatesNothing length m) :
    CreatesNothing length (m.step code t) := by
  obtain ⟨hlength, htodo⟩ := h
  have hfaulty : CreatesNothing length m.faulty :=
    createsNothing_of_ne hlength (by simp [Machine.faulty])
  unfold Machine.step
  cases hcontrol : m.control with
  | runScheduler =>
      exact createsNothing_of_ne hlength (resume_ne_segment _ _)
  | schedulerRoutine =>
      dsimp only
      split
      · exact hfaulty
      · split
        · exact hfaulty
        · exact createsNothing_of_ne hlength (by simp)
        · exact createsNothing_of_ne hlength (by simp)
  | switchTo coro =>
      dsimp only
      split
      · exact hfaulty
      · exact createsNothing_of_ne hlength (resume_ne_segment _ _)
  | noCoroutine =>
      dsimp only
      split
      · exact createsNothing_of_ne hlength (by simp)
      · exact hfaulty
  | stackFreed =>
      dsimp only
      split
      · exact hfaulty
      · exact createsNothing_of_ne hlength (resume_ne_segment true _)
  | coroutineWrapper coro => exact createsNothing_of_ne hlength (by simp)
  | userRoutine coro k =>
      dsimp only
      split
      · exact hfaulty
      · refine ⟨hlength, fun coro' k' todo heq => ?_⟩
        simp only [Control.segment.injEq, hnone] at heq
        exact heq.2.2.symm
  | segment coro k todo =>
      obtain rfl := htodo coro k todo hcontrol
      dsimp only
      split
      · exact hfaulty
      · refine createsNothing_of_ne hlength fun _ _ _ => ?_
        dsimp only
        split <;> simp
  | yeild coro k =>
      dsimp only
      split
      · exact hfaulty
      · split
        · exact createsNothing_of_ne (by simpa using hlength)
            (resume_ne_segment _ _)
        · exact hfaulty
  | finish coro =>
      dsimp only
      split
      · exact hfaulty
      · split
        · exact createsNothing_of_ne (by simpa using hlength) (by simp)
        · exact hfaulty
  | finishFreed coro =>
      dsimp only
      split
      · exact hfaulty
      · exact createsNothing_of_ne (by simpa using hlength)
          (resume_ne_segment _ _)
  | returned | fault =>
      exact createsNothing_of_ne hlength (by simp [hcontrol])

theorem createsBounded_of_noCreates
    (hnone : ∀ r k, code.creates r k = []) (t : ℕ) :
    CreatesBounded code capacity routines t := by
  intro m₀ hstart
  have hcontrol := (fields_of_start hstart).2
  have hall : ∀ n, CreatesNothing m₀.coros.length (after code t m₀ n) := by
    intro n
    induction n with
    | zero => exact ⟨rfl, fun coro k todo h => by simp [after, hcontrol] at h⟩
    | succ n ih =>
        rw [after_succ]
        exact createsNothing_step hnone ih
  exact ⟨_, fun n => (hall n).1.le⟩

/-- `NUM_TASKS`. -/
def numTasks : ℕ := 5

/-- What each `thread_worker` creates. -/
def workerTasks (_ : ℕ) : List Unit := List.replicate numTasks ()

theorem finishes_of_ownBuckets_cluster :
    ∃ s, (clusterSystem countTask mapCapacity {100, 101, 102} workerTasks).run
      (clusterStart mapCapacity workerTasks) [100, 101, 102, 101, 100] =
        some s ∧
      (∀ t, RunsAlone countTask mapCapacity workerTasks s t) ∧
      (∃ bound, ∀ as s', (clusterSystem countTask mapCapacity {100, 101, 102}
        workerTasks).run s as = some s' → as.length ≤ bound) ∧
      ((∀ t, (clusterSystem countTask mapCapacity {100, 101, 102}
        workerTasks).step s t = none) →
        ∀ t ∈ ({100, 101, 102} : Finset ℕ),
          Done countTask (s.machines t)) := by
  have hsome : ((clusterSystem countTask mapCapacity {100, 101, 102}
      workerTasks).run (clusterStart mapCapacity workerTasks)
      [100, 101, 102, 101, 100]).isSome = true := rfl
  obtain ⟨s, hrun⟩ := Option.isSome_iff_exists.mp hsome
  have hreach := TransitionSystem.Reachable.run
    (.initial (starts_clusterStart mapCapacity workerTasks)) hrun
  exact ⟨s, hrun, finishes_of_ownBuckets _ _ _ _
    (by unfold SharedMap.OwnBuckets; decide)
    (fun t _ => createsBounded_of_noCreates (fun _ _ => rfl) t) hreach⟩

end Cluster
end Coroutine
end OsFifthSem
