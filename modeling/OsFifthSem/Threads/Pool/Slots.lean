import OsFifthSem.Support.Transition
import OsFifthSem.Threads.Pool.Model

/-!
# Which threads the slots record

Threads are added, terminate, and are joined by the sweeps of the daemon, in
any order.  A sweep frees exactly the slots whose thread has terminated, but
there are none to free: every slot is marked free at all times, so the pool
forgets each thread as it starts it.
-/

namespace OsFifthSem
namespace Threads
namespace Pool

open Support

/-- A pool and the threads that were started through it, each of which is
running, or has terminated, or has been joined.  `returned` is a history
variable: the index that `add_thread` returned for each thread. -/
structure PoolState where
  threads : List ThreadInfo
  /-- The number of threads started, which names the next one. -/
  started : ℕ
  running : List ℕ
  /-- The threads that have terminated and are not joined yet. -/
  terminated : List ℕ
  returned : List (ℕ × ℕ)
  deriving DecidableEq, Repr

inductive PoolAction
  | addThread
  /-- A thread returns or is cancelled. -/
  | terminate (thread : ℕ)
  /-- One sweep of the daemon. -/
  | sweep
  deriving DecidableEq, Repr

/-- `pthread_tryjoin_np` of the thread in a slot. -/
def tryJoin (running terminated : List ℕ) : Option ℕ → TryJoin
  | some thread =>
      if thread ∈ running then .busy
      else if thread ∈ terminated then .joined
      else .failed
  | none => .failed

/-- The sweep, over the slots that are left.  A thread that was joined cannot
be joined again. -/
def sweepSlots (running : List ℕ) :
    List ThreadInfo → List ℕ → Option (List ThreadInfo × List ℕ)
  | [], terminated => some ([], terminated)
  | info :: rest, terminated => do
      let result := tryJoin running terminated info.thread
      let info' ← sweepSlot info result
      let terminated :=
        if info.state ≠ .free ∧ result = .joined
        then terminated.filter fun thread => some thread ≠ info.thread
        else terminated
      let (rest', terminated) ← sweepSlots running rest terminated
      some (info' :: rest', terminated)

def poolStep (s : PoolState) : PoolAction → Option PoolState
  | .addThread =>
      let (i, threads) := addThread s.threads s.started
      some { s with
        threads := threads
        started := s.started + 1
        running := s.started :: s.running
        returned := (s.started, i) :: s.returned }
  | .terminate thread =>
      if thread ∈ s.running then
        some { s with
          running := s.running.erase thread
          terminated := thread :: s.terminated }
      else none
  | .sweep =>
      (sweepSlots s.running s.threads s.terminated).map fun p =>
        { s with threads := p.1, terminated := p.2 }

def startPool : PoolState where
  threads := createThreadPool
  started := 0
  running := []
  terminated := []
  returned := []

def poolSystem : TransitionSystem PoolState PoolAction where
  Initial := fun s => s = startPool
  step := poolStep

/-- The sweep has freed the slot at `i`. -/
def Freed (threads threads' : List ThreadInfo) (i : ℕ) : Prop :=
  ∃ info info', threads[i]? = some info ∧ threads'[i]? = some info' ∧
    info.state ≠ .free ∧ info'.state = .free

/-- Every running thread is in one slot of its own, the one that `add_thread`
returned; a sweep frees the slots whose thread has terminated, and no others;
and `destroy_thread_pool` cancels every running thread. -/
structure SlotsKept (s : PoolState) : Prop where
  recorded : ∀ t ∈ s.running, ∃! i, Records s.threads i t
  unshared : ∀ i t t', t ∈ s.running → t' ∈ s.running →
    Records s.threads i t → Records s.threads i t' → t = t'
  returned : ∀ t i, (t, i) ∈ s.returned → t ∈ s.running →
    Records s.threads i t
  swept : ∃ threads' terminated',
    sweepSlots s.running s.threads s.terminated =
      some (threads', terminated') ∧
    ∀ i, Freed s.threads threads' i ↔
      ∃ t ∈ s.terminated, Records s.threads i t
  cancelled : ∀ t ∈ s.running, some t ∈ cancelled s.threads

/-! ## A sweep -/

/-- The slots after a sweep that finds the threads of `terminated` ended. -/
def freeEnded (terminated : List ℕ) (info : ThreadInfo) : ThreadInfo :=
  if info.state ≠ .free ∧ ∃ t ∈ terminated, info.thread = some t then
    { info with state := .free }
  else info

/-- What the slots of a pool look like when no thread is in two of them. -/
structure Distinct (running terminated : List ℕ)
    (threads : List ThreadInfo) : Prop where
  known : ∀ info ∈ threads, info.state ≠ .free →
    ∃ t, info.thread = some t ∧ (t ∈ running ∨ t ∈ terminated)
  apart : threads.Pairwise fun info info' =>
    info.state ≠ .free → info'.state ≠ .free → info.thread ≠ info'.thread

/-- A sweep of distinct threads joins those that have ended.  The induction is
on the slots left; the threads that it has joined are in none of them. -/
theorem sweepSlots_of_distinct
    {running terminated : List ℕ} {threads : List ThreadInfo}
    (hends : ∀ t ∈ terminated, t ∉ running)
    (hdistinct : Distinct running terminated threads) :
    ∃ terminated', sweepSlots running threads terminated =
      some (threads.map (freeEnded terminated), terminated') := by
  induction threads generalizing terminated with
  | nil => exact ⟨terminated, rfl⟩
  | cons info rest ih =>
      obtain ⟨happart, hrest⟩ := List.pairwise_cons.mp hdistinct.apart
      have hknown : ∀ info' ∈ rest, info'.state ≠ .free →
          ∃ t, info'.thread = some t ∧ (t ∈ running ∨ t ∈ terminated) :=
        fun info' hmem => hdistinct.known info' (List.mem_cons_of_mem _ hmem)
      by_cases hfree : info.state = .free
      · obtain ⟨terminated', hsweep⟩ := ih hends ⟨hknown, hrest⟩
        exact ⟨terminated', by simp [sweepSlots, sweepSlot, freeEnded, hfree,
          hsweep]⟩
      · obtain ⟨t, ht, hwhere⟩ :=
          hdistinct.known info List.mem_cons_self hfree
        by_cases hrun : t ∈ running
        · -- still running: the slot stays
          have hnot : t ∉ terminated := fun hmem => hends t hmem hrun
          obtain ⟨terminated', hsweep⟩ := ih hends ⟨hknown, hrest⟩
          refine ⟨terminated', ?_⟩
          simp [sweepSlots, sweepSlot, tryJoin, isThreadRunning, freeEnded,
            ht, hrun, hnot, hfree, hsweep]
        · -- ended: joined and freed
          have hmem := hwhere.resolve_left hrun
          let left := terminated.filter fun thread => some thread ≠ info.thread
          have hleft : ∀ {x}, x ∈ left ↔ x ∈ terminated ∧ x ≠ t := by
            intro x
            simp [left, ht]
          have hother : ∀ info' ∈ rest, info'.state ≠ .free →
              info'.thread ≠ some t := by
            intro info' hmem' hstate
            rw [← ht]
            exact (happart info' hmem' hfree hstate).symm
          have hknown' : ∀ info' ∈ rest, info'.state ≠ .free →
              ∃ x, info'.thread = some x ∧ (x ∈ running ∨ x ∈ left) := by
            intro info' hmem' hstate
            obtain ⟨x, hx, hin⟩ := hknown info' hmem' hstate
            refine ⟨x, hx, hin.imp_right fun hin => hleft.mpr ⟨hin, ?_⟩⟩
            rintro rfl
            exact hother info' hmem' hstate hx
          obtain ⟨terminated', hsweep⟩ :=
            ih (fun x hx => hends x (hleft.mp hx).1) ⟨hknown', hrest⟩
          have hmap : rest.map (freeEnded left) =
              rest.map (freeEnded terminated) := by
            refine List.map_congr_left fun info' hmem' => ?_
            unfold freeEnded
            refine if_congr (and_congr_right fun hstate => ?_) rfl rfl
            have hne := hother info' hmem' hstate
            constructor
            · rintro ⟨x, hx, hthread⟩
              exact ⟨x, (hleft.mp hx).1, hthread⟩
            · rintro ⟨x, hx, hthread⟩
              refine ⟨x, hleft.mpr ⟨hx, ?_⟩, hthread⟩
              rintro rfl
              exact hne hthread
          refine ⟨terminated', ?_⟩
          have htry : tryJoin running terminated info.thread = .joined := by
            simp [tryJoin, ht, hrun, hmem]
          have hslot : sweepSlot info .joined =
              some { info with state := .free } := by
            simp [sweepSlot, isThreadRunning, hfree]
          have hhead : freeEnded terminated info =
              { info with state := .free } :=
            if_pos ⟨hfree, t, hmem, ht⟩
          rw [hmap] at hsweep
          rw [sweepSlots, List.map_cons, hhead]
          simp only [htry, hslot, Option.bind_eq_bind, Option.bind_some]
          rw [if_pos ⟨hfree, trivial⟩]
          exact Option.bind_eq_some_iff.mpr ⟨_, hsweep, rfl⟩

/-- In a pool of distinct threads, a sweep frees exactly the slots whose thread
has terminated. -/
theorem freed_iff_terminated
    {running terminated : List ℕ} {threads : List ThreadInfo}
    (hends : ∀ t ∈ terminated, t ∉ running)
    (hdistinct : Distinct running terminated threads) :
    ∃ threads' terminated',
      sweepSlots running threads terminated = some (threads', terminated') ∧
      ∀ i, Freed threads threads' i ↔
        ∃ t ∈ terminated, Records threads i t := by
  obtain ⟨terminated', hsweep⟩ := sweepSlots_of_distinct hends hdistinct
  refine ⟨_, terminated', hsweep, fun i => ?_⟩
  constructor
  · rintro ⟨info, info', hi, hi', hbusy, hfree⟩
    rw [List.getElem?_map, hi, Option.map_some] at hi'
    obtain rfl := Option.some.inj hi'
    unfold freeEnded at hfree
    split at hfree
    next h =>
      obtain ⟨t, ht, hthread⟩ := h.2
      exact ⟨t, ht, info, hi, hthread, hbusy⟩
    next => exact absurd hfree hbusy
  · rintro ⟨t, ht, info, hi, hthread, hbusy⟩
    refine ⟨info, freeEnded terminated info, hi, ?_, hbusy, ?_⟩
    · rw [List.getElem?_map, hi, Option.map_some]
    · rw [freeEnded, if_pos ⟨hbusy, t, ht, hthread⟩]

/-! ## Sequences of operations -/

/-- Every slot is marked free, and there is one. -/
structure AllFree (threads : List ThreadInfo) : Prop where
  free : ∀ info ∈ threads, info.state = .free
  nonempty : threads ≠ []

namespace AllFree

variable {threads : List ThreadInfo}

theorem not_records (h : AllFree threads) (i t : ℕ) :
    ¬Records threads i t := by
  rintro ⟨info, hi, -, hbusy⟩
  exact hbusy (h.free info (List.mem_of_getElem? hi))

theorem distinct (h : AllFree threads) (running terminated : List ℕ) :
    Distinct running terminated threads where
  known := fun info hmem hbusy => absurd (h.free info hmem) hbusy
  apart := by
    refine List.pairwise_of_forall_mem_list fun info hmem info' _ hbusy => ?_
    exact absurd (h.free info hmem) hbusy

/-- A new thread gets the first slot, which stays marked free. -/
theorem addThread (h : AllFree threads) (thread : ℕ) :
    (addThread threads thread).1 = 0 ∧
      AllFree (Pool.addThread threads thread).2 := by
  obtain ⟨info, rest, rfl⟩ := List.exists_cons_of_ne_nil h.nonempty
  have hinfo := h.free info List.mem_cons_self
  have hfind : (info :: rest).findIdx? (fun info => info.state = .free) =
      some 0 := by
    simp [List.findIdx?_cons, hinfo]
  unfold Pool.addThread
  rw [hfind]
  refine ⟨rfl, ?_, by simp⟩
  intro info' hmem
  rcases List.mem_cons.mp (by simpa using hmem) with rfl | hmem
  · rfl
  · exact h.free info' (List.mem_cons_of_mem _ hmem)

end AllFree

/-- What holds of every pool: no slot is in use, and no thread that has
terminated is still running. -/
structure Forgotten (s : PoolState) : Prop where
  allFree : AllFree s.threads
  ended : ∀ t ∈ s.terminated, t ∉ s.running
  fresh : ∀ t ∈ s.running ++ s.terminated, t < s.started
  nodup : s.running.Nodup

/-- A sweep over free slots does nothing. -/
theorem sweepSlots_of_free
    {running terminated : List ℕ} {threads : List ThreadInfo}
    (h : ∀ info ∈ threads, info.state = .free) :
    sweepSlots running threads terminated = some (threads, terminated) := by
  induction threads with
  | nil => rfl
  | cons info rest ih =>
      have hinfo := h info List.mem_cons_self
      have hrest := ih fun info' hmem => h info' (List.mem_cons_of_mem _ hmem)
      simp [sweepSlots, sweepSlot, hinfo, hrest]

theorem poolStep_forgotten
    {s t : PoolState} {a : PoolAction} (hs : Forgotten s)
    (hstep : poolStep s a = some t) : Forgotten t := by
  cases a with
  | addThread =>
      obtain rfl := Option.some.inj hstep
      have hnew : ∀ x ∈ s.running ++ s.terminated, x ≠ s.started :=
        fun x hx => Nat.ne_of_lt (hs.fresh x hx)
      refine ⟨(hs.allFree.addThread _).2, ?_, ?_, ?_⟩
      · intro x hx hmem
        rcases List.mem_cons.mp hmem with rfl | hmem
        · exact hnew _ (List.mem_append_right _ hx) rfl
        · exact hs.ended x hx hmem
      · intro x hx
        rcases List.mem_cons.mp hx with rfl | hx
        · exact Nat.lt_succ_self _
        · exact Nat.lt_succ_of_lt (hs.fresh x hx)
      · refine List.nodup_cons.mpr ⟨fun hmem => ?_, hs.nodup⟩
        exact hnew _ (List.mem_append_left _ hmem) rfl
  | terminate thread =>
      simp only [poolStep] at hstep
      split at hstep
      next hrun =>
        obtain rfl := Option.some.inj hstep
        refine ⟨hs.allFree, ?_, ?_, hs.nodup.erase _⟩
        · intro x hx hmem
          rcases List.mem_cons.mp hx with rfl | hx
          · exact hs.nodup.not_mem_erase hmem
          · exact hs.ended x hx (List.mem_of_mem_erase hmem)
        · intro x hx
          refine hs.fresh x (List.mem_append.mpr ?_)
          rcases List.mem_append.mp hx with hx | hx
          · exact Or.inl (List.mem_of_mem_erase hx)
          · rcases List.mem_cons.mp hx with rfl | hx
            · exact Or.inl hrun
            · exact Or.inr hx
      next => cases hstep
  | sweep =>
      rw [poolStep, sweepSlots_of_free hs.allFree.free] at hstep
      obtain rfl := Option.some.inj hstep
      exact hs

theorem startPool_forgotten : Forgotten startPool := by
  refine ⟨⟨fun info hmem => ?_, by simp [startPool, createThreadPool,
    capacity]⟩, nofun, nofun, List.nodup_nil⟩
  rw [List.eq_of_mem_replicate hmem]
  rfl

/-- In each state, the slots are as they should be if and only if no thread
runs. -/
theorem slotsKept_iff_noneRunning
    {s : PoolState} (hs : Forgotten s) : SlotsKept s ↔ s.running = [] := by
  constructor
  · intro hkept
    by_contra hne
    obtain ⟨t, ht⟩ := List.exists_mem_of_ne_nil _ hne
    obtain ⟨i, hi, -⟩ := hkept.recorded t ht
    exact hs.allFree.not_records i t hi
  · intro hnone
    refine ⟨?_, ?_, ?_, ?_, ?_⟩
    · simp [hnone]
    · simp [hnone]
    · simp [hnone]
    · exact freed_iff_terminated hs.ended (hs.allFree.distinct _ _)
    · simp [hnone]

/-- Only `add_thread` makes a thread run. -/
theorem noneRunning_of_step
    {s t : PoolState} {a : PoolAction} (hs : s.running = [])
    (ha : a ≠ .addThread) (hstep : poolStep s a = some t) : t.running = [] := by
  cases a with
  | addThread => exact absurd rfl ha
  | terminate thread => simp [poolStep, hs] at hstep
  | sweep =>
      obtain ⟨p, -, rfl⟩ := Option.map_eq_some_iff.mp hstep
      exact hs

theorem running_of_addThread
    {s t : PoolState} (hstep : poolStep s .addThread = some t) :
    t.running ≠ [] := by
  obtain rfl := Option.some.inj hstep
  exact List.cons_ne_nil _ _

/-- The slots are as they should be at every moment of a sequence of operations
if and only if no thread is ever added. -/
theorem slotsKept_iff_noAddThread
    (actions : List PoolAction) (s : PoolState)
    (hrun : poolSystem.run startPool actions = some s) :
    (∀ pre, pre <+: actions → ∀ s', poolSystem.run startPool pre = some s' →
      SlotsKept s') ↔ PoolAction.addThread ∉ actions := by
  have hbreak : ∀ s a s', Forgotten s ∧ s.running = [] →
      ¬a ≠ PoolAction.addThread → poolStep s a = some s' → ¬SlotsKept s' := by
    intro s a s' hs ha hstep hkept
    obtain rfl := not_ne_iff.mp ha
    have hnew := poolStep_forgotten hs.1 hstep
    exact running_of_addThread hstep ((slotsKept_iff_noneRunning hnew).mp hkept)
  have hiff := TransitionSystem.forall_prefix_iff_runAllowed
    (fun s hs => (slotsKept_iff_noneRunning hs.1).mpr hs.2)
    (fun s a s' hs ha hstep => ⟨poolStep_forgotten hs.1 hstep,
      noneRunning_of_step hs.2 ha hstep⟩)
    hbreak ⟨startPool_forgotten, rfl⟩ hrun
  rw [hiff, TransitionSystem.runAllowed_iff_forall_mem hrun]
  exact ⟨fun h hmem => h _ hmem rfl, fun h a hmem heq => h (heq ▸ hmem)⟩

/-- One thread is added and runs. -/
theorem addedThread_forgotten :
    ∃ s, poolSystem.run startPool [.addThread, .sweep] = some s ∧
      s.running = [0] ∧ ¬SlotsKept s := by
  refine ⟨_, rfl, rfl, fun hkept => ?_⟩
  obtain ⟨i, ⟨info, hi, -, hbusy⟩, -⟩ := hkept.recorded 0 List.mem_cons_self
  have hfree : ∀ info ∈ (addThread createThreadPool 0).2, info.state = .free := by
    decide
  exact hbusy (hfree info (List.mem_of_getElem? hi))

/-- Two threads are added and end, and in between neither is recorded. -/
theorem slotsKept_iff_noAddThread_twoThreads :
    ∃ s, poolSystem.run startPool
        [.addThread, .addThread, .terminate 0, .terminate 1, .sweep] = some s ∧
      ((∀ pre, pre <+: [.addThread, .addThread, .terminate 0, .terminate 1,
        .sweep] → ∀ s', poolSystem.run startPool pre = some s' →
          SlotsKept s') ↔ PoolAction.addThread ∉
            [.addThread, .addThread, .terminate 0, .terminate 1, .sweep]) :=
  ⟨_, rfl, slotsKept_iff_noAddThread _ _ rfl⟩

end Pool
end Threads
end OsFifthSem
