import OsFifthSem.Support.MutexOwner
import OsFifthSem.Support.Transition
import OsFifthSem.Sync.BoundedQueue.Queue

/-!
# The queue with semaphores

`2.2g.c`: `queue_add` takes one unit of the semaphore `empty` before it locks
the mutex and posts `full` after it unlocks it; `queue_get` does the same with
the semaphores exchanged.  Room and values are therefore promised outside the
mutex that protects the list.  What keeps the promises is that each resource
is divided among the semaphore and the threads that have taken it or not
posted it yet.
-/

namespace OsFifthSem
namespace BoundedQueue
namespace Semaphore

open Support

universe u

/-- The next step of a call. -/
inductive Phase
  | wait
  | lock
  | attempt
  | link
  | count
  | unlock
  | post
  deriving DecidableEq, Repr

/-- Where a thread is. -/
inductive Pc
  | idle
  | inCall (c : Call) (p : Phase)
  /-- `queue_print_stats`. -/
  | printLock
  | printUnlock
  | assertFailed
  | fault
  deriving DecidableEq, Repr

/-- The queue, the values of the semaphores `empty` (free slots) and `full`
(values), the owner of the mutex and the threads. -/
structure State (T : Type u) where
  q : Queue
  sem : Resource → ℕ
  owner : Option T
  pc : T → Pc

/-- One scheduling choice. -/
inductive Action (T : Type u)
  | call (t : T) (c : Call)
  | print (t : T)
  /-- The thread takes its next step. -/
  | advance (t : T)

variable {T : Type u} [DecidableEq T]

/-- Go on at `pc`. -/
def State.goto (s : State T) (t : T) (q : Queue) (sem : Resource → ℕ)
    (owner : Option T) (pc : Pc) : State T where
  q := q
  sem := sem
  owner := owner
  pc := Function.update s.pc t pc

@[simp] theorem State.goto_q
    (s : State T) (t : T) (q : Queue) (sem : Resource → ℕ) (o : Option T)
    (pc : Pc) : (s.goto t q sem o pc).q = q := rfl

@[simp] theorem State.goto_pc_self
    (s : State T) (t : T) (q : Queue) (sem : Resource → ℕ) (o : Option T)
    (pc : Pc) : (s.goto t q sem o pc).pc t = pc :=
  Function.update_self ..

theorem State.goto_pc_of_ne
    {t u : T} (hut : u ≠ t) (s : State T) (q : Queue) (sem : Resource → ℕ)
    (o : Option T) (pc : Pc) : (s.goto t q sem o pc).pc u = s.pc u :=
  Function.update_of_ne hut _ _

/-- The next step of thread `t`. -/
def advance (s : State T) (t : T) : Option (State T) :=
  match s.pc t with
  | .idle | .assertFailed | .fault => none
  | .inCall c .wait =>
      if 0 < s.sem c.needs then
        some (s.goto t s.q
          (Function.update s.sem c.needs (s.sem c.needs - 1)) s.owner
          (.inCall c .lock))
      else none
  | .inCall c .lock =>
      if s.owner = none
      then some (s.goto t s.q s.sem (some t) (.inCall c .attempt))
      else none
  | .inCall c .attempt =>
      match c.operation.attempt s.q with
      | none => some (s.goto t s.q s.sem s.owner .assertFailed)
      | some q => some (s.goto t q s.sem s.owner (.inCall c .link))
  | .inCall c .link =>
      match c.operation.link s.q with
      | none => some (s.goto t s.q s.sem s.owner .fault)
      | some q => some (s.goto t q s.sem s.owner (.inCall c .count))
  | .inCall c .count =>
      some (s.goto t (c.operation.count s.q) s.sem s.owner (.inCall c .unlock))
  | .inCall c .unlock => some (s.goto t s.q s.sem none (.inCall c .post))
  | .inCall c .post =>
      some (s.goto t s.q
        (Function.update s.sem c.gives (s.sem c.gives + 1)) s.owner .idle)
  | .printLock =>
      if s.owner = none then some (s.goto t s.q s.sem (some t) .printUnlock)
      else none
  | .printUnlock => some (s.goto t s.q s.sem none .idle)

/-- One step of the system. -/
def step (s : State T) : Action T → Option (State T)
  | .call t c =>
      if s.pc t = .idle then some (s.goto t s.q s.sem s.owner (.inCall c .wait))
      else none
  | .print t =>
      if s.pc t = .idle then some (s.goto t s.q s.sem s.owner .printLock)
      else none
  | .advance t => advance s t

/-- `queue_init`: `empty` starts with `max_count`, `full` with 0. -/
def start (T : Type u) (maxCount : ℤ) : State T where
  q := queueInit maxCount
  sem
    | .slots => maxCount.toNat
    | .values => 0
  owner := none
  pc := fun _ => .idle

/-- Any number of threads that use one queue. -/
def queueSystem (T : Type u) [DecidableEq T] (maxCount : ℤ) :
    TransitionSystem (State T) (Action T) where
  Initial := fun s => s = start T maxCount
  step := step

/-! ## Where the resources are -/

/-- The thread owns the mutex. -/
def Pc.owns : Pc → Bool
  | .inCall _ .attempt | .inCall _ .link | .inCall _ .count
  | .inCall _ .unlock | .printUnlock => true
  | _ => false

/-- Between `sem_wait` and `sem_post`. -/
def Pc.between : Pc → Bool
  | .inCall _ .wait => false
  | .inCall _ _ => true
  | _ => false

/-- A consumer past `sem_wait(full)` that has not dequeued yet: `link` is the
step that changes the list, `count` the one that changes the counter. -/
def Pc.toDequeue : Pc → Bool
  | .inCall .get .lock | .inCall .get .attempt | .inCall .get .link
  | .inCall .get .count => true
  | _ => false

/-- A producer that has enqueued and not posted `full` yet. -/
def Pc.toPost : Pc → Bool
  | .inCall (.add _) .unlock | .inCall (.add _) .post => true
  | _ => false

/-- A consumer past `sem_wait(full)` that has not changed the list yet. -/
def Pc.toUnlink : Pc → Bool
  | .inCall .get .lock | .inCall .get .attempt | .inCall .get .link => true
  | _ => false

/-- A producer that has changed the list and not posted `full` yet. -/
def Pc.linked : Pc → Bool
  | .inCall (.add _) .count | .inCall (.add _) .unlock
  | .inCall (.add _) .post => true
  | _ => false

/-- 1 for a thread that has taken a unit of the resource and not used it, or
has made one and not posted it. -/
def Pc.claim (r : Resource) : Pc → ℤ
  | .inCall c .lock | .inCall c .attempt | .inCall c .link
  | .inCall c .count => if c.needs = r then 1 else 0
  | .inCall c .unlock | .inCall c .post => if c.gives = r then 1 else 0
  | _ => 0

/-- The number of values in the list that are not counted yet. -/
def Pc.uncounted : Pc → ℤ
  | .inCall c .count => c.delta
  | _ => 0

variable [Fintype T]

/-- The invariant: each resource is divided among its semaphore and the
claims of the threads. -/
structure Inv (m : ℤ) (s : State T) : Prop where
  owned : Owned Pc.owns s.owner s.pc
  counts : s.q.Counts m
  rooms : ∀ r, s.q.room r = s.sem r + threadSum (Pc.claim r) s.pc
  listed : ∃ xs vals, s.q.Lists xs vals ∧
    (vals.length : ℤ) = s.q.count + threadSum Pc.uncounted s.pc
  unfailed : ∀ t, s.pc t ≠ .assertFailed ∧ s.pc t ≠ .fault

variable {m : ℤ} {s s' : State T} {t : T} {q : Queue} {sem : Resource → ℕ}
  {o : Option T} {pc : Pc}

omit [DecidableEq T] [Fintype T] in
theorem Pc.uncounted_of_not_owns
    (p : Pc) (howns : p.owns = false) : p.uncounted = 0 := by
  unfold Pc.uncounted
  split <;> simp_all [Pc.owns]

omit [DecidableEq T] in
theorem Inv.claim_le (hi : Inv m s) (t : T) (r : Resource) :
    (s.pc t).claim r ≤ s.q.room r := by
  have hnonneg : ∀ p : Pc, 0 ≤ p.claim r := by
    intro p
    unfold Pc.claim
    split <;> try split_ifs
    all_goals simp
  have hle := le_threadSum hnonneg s.pc t
  have hrooms := hi.rooms r
  omega

/-- A step of one thread keeps the invariant if it keeps the books. -/
theorem Inv.goto
    (hi : Inv m s) (howned : Owned Pc.owns o (s.goto t q sem o pc).pc)
    (hcounts : q.Counts m)
    (hrooms : ∀ r, q.room r + s.sem r + (s.pc t).claim r =
      s.q.room r + sem r + pc.claim r)
    (hlisted : ∀ xs vals, s.q.Lists xs vals →
      (vals.length : ℤ) = s.q.count + threadSum Pc.uncounted s.pc →
        ∃ xs' vals', q.Lists xs' vals' ∧
          (vals'.length : ℤ) + s.q.count + (s.pc t).uncounted =
            vals.length + q.count + pc.uncounted)
    (hpc : pc ≠ .assertFailed ∧ pc ≠ .fault) :
    Inv m (s.goto t q sem o pc) := by
  constructor
  · exact howned
  · exact hcounts
  · intro r
    have hold := hi.rooms r
    have hnew := hrooms r
    have hclaims := threadSum_update (Pc.claim r) s.pc t pc
    change q.room r =
      sem r + threadSum (Pc.claim r) (Function.update s.pc t pc)
    omega
  · obtain ⟨xs, vals, hl, hlen⟩ := hi.listed
    obtain ⟨xs', vals', hl', hlen'⟩ := hlisted xs vals hl hlen
    refine ⟨xs', vals', hl', ?_⟩
    have huncounted := threadSum_update Pc.uncounted s.pc t pc
    change (vals'.length : ℤ) =
      q.count + threadSum Pc.uncounted (Function.update s.pc t pc)
    omega
  · intro u
    by_cases hut : u = t
    · subst hut
      rw [State.goto_pc_self]
      exact hpc
    · rw [State.goto_pc_of_ne hut]
      exact hi.unfailed u

/-- A step that leaves the counters as they are. -/
theorem Inv.goto_same
    (hi : Inv m s) (howned : Owned Pc.owns o (s.goto t q sem o pc).pc)
    (hsame : Queue.SameCounters s.q q)
    (hlists : ∀ xs vals, s.q.Lists xs vals → q.Lists xs vals)
    (hrooms : ∀ r, s.sem r + (s.pc t).claim r = sem r + pc.claim r)
    (huncounted : pc.uncounted = (s.pc t).uncounted)
    (hpc : pc ≠ .assertFailed ∧ pc ≠ .fault) :
    Inv m (s.goto t q sem o pc) := by
  apply hi.goto howned (hi.counts.congr hsame)
  · intro r
    have hr := hrooms r
    rw [Queue.room_congr hsame.count hsame.maxCount]
    omega
  · intro xs vals hl hlen
    have hcount := hsame.count
    exact ⟨xs, vals, hlists xs vals hl, by omega⟩
  · exact hpc

/-! ## The steps -/

omit [DecidableEq T] in
/-- A thread between its two semaphores that has not used its unit yet finds
what it needs. -/
theorem Inv.delta_bounds
    {c : Call} (hi : Inv m s) (hclaim : (s.pc t).claim c.needs = 1) :
    0 ≤ s.q.count + c.delta ∧ s.q.count + c.delta ≤ m := by
  have hle := hi.claim_le t c.needs
  exact Call.delta_bounds hi.counts (by omega)

/-- `sem_wait`. -/
theorem Inv.wait
    {c : Call} (hi : Inv m s) (hpc : s.pc t = .inCall c .wait)
    (hpos : 0 < s.sem c.needs) :
    Inv m (s.goto t s.q (Function.update s.sem c.needs (s.sem c.needs - 1))
      s.owner (.inCall c .lock)) := by
  apply hi.goto_same (hi.owned.keep (by rw [hpc]; rfl)) ⟨rfl, rfl, rfl, rfl⟩
  · exact fun xs vals hl => hl
  · intro r
    rw [hpc]
    by_cases hr : c.needs = r
    · subst hr
      simp only [Pc.claim, Function.update_self, if_true]
      omega
    · simp [Pc.claim, hr, Function.update_of_ne (Ne.symm hr)]
  · rw [hpc]
    rfl
  · simp

/-- `sem_post`. -/
theorem Inv.post
    {c : Call} (hi : Inv m s) (hpc : s.pc t = .inCall c .post) :
    Inv m (s.goto t s.q (Function.update s.sem c.gives (s.sem c.gives + 1))
      s.owner .idle) := by
  apply hi.goto_same (hi.owned.keep (by rw [hpc]; rfl)) ⟨rfl, rfl, rfl, rfl⟩
  · exact fun xs vals hl => hl
  · intro r
    rw [hpc]
    by_cases hr : c.gives = r
    · subst hr
      simp [Pc.claim]
    · simp [Pc.claim, hr, Function.update_of_ne (Ne.symm hr)]
  · rw [hpc]
    rfl
  · simp

/-- A step that changes the owner of the mutex only. -/
theorem Inv.goto_owner
    {pc₀ : Pc} (hi : Inv m s) (hpc : s.pc t = pc₀)
    (howned : Owned Pc.owns o (s.goto t s.q s.sem o pc).pc)
    (hclaim : ∀ r, pc₀.claim r = pc.claim r)
    (huncounted : pc.uncounted = pc₀.uncounted)
    (hok : pc ≠ .assertFailed ∧ pc ≠ .fault) :
    Inv m (s.goto t s.q s.sem o pc) := by
  apply hi.goto_same howned ⟨rfl, rfl, rfl, rfl⟩
  · exact fun xs vals hl => hl
  · intro r
    rw [hpc, hclaim r]
  · rw [hpc, huncounted]
  · exact hok

/-- The assertion and the attempt counter. -/
theorem Inv.attempt
    {c : Call} (hi : Inv m s) (hpc : s.pc t = .inCall c .attempt) :
    ∃ q, c.operation.attempt s.q = some q ∧
      Inv m (s.goto t q s.sem s.owner (.inCall c .link)) := by
  obtain ⟨q, hattempt, hsame, hlists⟩ := c.exists_attempt hi.counts
  refine ⟨q, hattempt, ?_⟩
  apply hi.goto_same (hi.owned.keep (by rw [hpc]; rfl)) hsame hlists
  · intro r
    rw [hpc]
    rfl
  · rw [hpc]
    rfl
  · simp

/-- The change of the list: `first` is not null when a value is taken. -/
theorem Inv.link
    {c : Call} (hi : Inv m s) (hpc : s.pc t = .inCall c .link) :
    ∃ q, c.operation.link s.q = some q ∧
      Inv m (s.goto t q s.sem s.owner (.inCall c .count)) := by
  have hnone : (s.pc t).uncounted = 0 := by
    rw [hpc]
    rfl
  have huncounted := hi.owned.threadSum_eq (t := t) (by rw [hpc]; rfl)
    Pc.uncounted_of_not_owns
  have hbounds := hi.delta_bounds (t := t) (c := c)
    (by simp [hpc, Pc.claim])
  obtain ⟨xs, vals, hl, hlen⟩ := hi.listed
  obtain ⟨q, hlink, hsame, xs', vals', hl', hlen'⟩ :=
    c.exists_link hl (by omega)
  refine ⟨q, hlink, ?_⟩
  apply hi.goto (hi.owned.keep (by rw [hpc]; rfl)) (hi.counts.congr hsame)
  · intro r
    rw [Queue.room_congr hsame.count hsame.maxCount, hpc]
    rfl
  · intro ys ws _ hys
    have hcount : (Pc.inCall c .count).uncounted = c.delta := rfl
    have hsameCount := hsame.count
    exact ⟨xs', vals', hl', by omega⟩
  · simp

/-- The counters: the unit taken becomes a unit of the other resource. -/
theorem Inv.count
    {c : Call} (hi : Inv m s) (hpc : s.pc t = .inCall c .count) :
    Inv m (s.goto t (c.operation.count s.q) s.sem s.owner
      (.inCall c .unlock)) := by
  have hbounds := hi.delta_bounds (t := t) (c := c)
    (by simp [hpc, Pc.claim])
  have hcount := c.count_count s.q
  obtain ⟨hcounts, hlists⟩ := c.counts_count hi.counts hbounds.1 hbounds.2
  apply hi.goto (hi.owned.keep (by rw [hpc]; rfl)) hcounts
  · intro r
    have hroom := c.room_count s.q r
    rw [hpc]
    simp only [Pc.claim]
    omega
  · intro xs vals hl hlen
    refine ⟨xs, vals, hlists xs vals hl, ?_⟩
    rw [hpc, hcount]
    simp only [Pc.uncounted]
    omega
  · simp

theorem advance_inv
    (hi : Inv m s) (hstep : advance s t = some s') : Inv m s' := by
  unfold advance at hstep
  split at hstep
  · cases hstep
  · cases hstep
  · cases hstep
  · next c hpc =>
      split at hstep
      · next hpos =>
          obtain rfl := Option.some.inj hstep
          exact hi.wait hpc hpos
      · cases hstep
  · next c hpc =>
      split at hstep
      · next hfree =>
          obtain rfl := Option.some.inj hstep
          exact hi.goto_owner hpc (hi.owned.acquire hfree rfl)
            (fun _ => rfl) rfl (by simp)
      · cases hstep
  · next c hpc =>
      obtain ⟨q, hattempt, hinv⟩ := hi.attempt hpc
      rw [hattempt] at hstep
      obtain rfl := Option.some.inj hstep
      exact hinv
  · next c hpc =>
      obtain ⟨q, hlink, hinv⟩ := hi.link hpc
      rw [hlink] at hstep
      obtain rfl := Option.some.inj hstep
      exact hinv
  · next c hpc =>
      obtain rfl := Option.some.inj hstep
      exact hi.count hpc
  · next c hpc =>
      obtain rfl := Option.some.inj hstep
      exact hi.goto_owner hpc (hi.owned.release (by rw [hpc]; rfl) rfl)
        (fun _ => rfl) rfl (by simp)
  · next c hpc =>
      obtain rfl := Option.some.inj hstep
      exact hi.post hpc
  · next hpc =>
      split at hstep
      · next hfree =>
          obtain rfl := Option.some.inj hstep
          exact hi.goto_owner hpc (hi.owned.acquire hfree rfl)
            (fun _ => rfl) rfl (by simp)
      · cases hstep
  · next hpc =>
      obtain rfl := Option.some.inj hstep
      exact hi.goto_owner hpc (hi.owned.release (by rw [hpc]; rfl) rfl)
        (fun _ => rfl) rfl (by simp)

theorem step_inv
    {a : Action T} (hi : Inv m s) (hstep : step s a = some s') :
    Inv m s' := by
  cases a with
  | call t c =>
      simp only [step] at hstep
      split at hstep
      · next hidle =>
          obtain rfl := Option.some.inj hstep
          exact hi.goto_owner hidle (hi.owned.keep (by rw [hidle]; rfl))
            (fun _ => rfl) rfl (by simp)
      · cases hstep
  | print t =>
      simp only [step] at hstep
      split at hstep
      · next hidle =>
          obtain rfl := Option.some.inj hstep
          exact hi.goto_owner hidle (hi.owned.keep (by rw [hidle]; rfl))
            (fun _ => rfl) rfl (by simp)
      · cases hstep
  | advance t => exact advance_inv hi hstep

omit [DecidableEq T] in
theorem start_inv (hm : 0 ≤ m) : Inv m (start T m) where
  owned := by
    intro t
    simp [start, Pc.owns]
  counts := ⟨rfl, le_rfl, hm, rfl⟩
  rooms := by
    intro r
    have hnone : threadSum (Pc.claim r) (start T m).pc = 0 :=
      threadSum_eq_zero fun _ => rfl
    rw [hnone]
    cases r with
    | slots =>
        change m - 0 = (m.toNat : ℤ) + 0
        omega
    | values => rfl
  listed := by
    refine ⟨[], [], Queue.lists_queueInit m, ?_⟩
    have hnone : threadSum Pc.uncounted (start T m).pc = 0 :=
      threadSum_eq_zero fun _ => rfl
    rw [hnone]
    rfl
  unfailed := fun _ => by simp [start]

theorem reachable_inv
    (hm : 0 ≤ m) (hs : (queueSystem T m).Reachable s) : Inv m s := by
  apply hs.invariant
  · rintro _ rfl
    exact start_inv hm
  · intro s a s' hi _ hstep
    exact step_inv hi hstep

/-! ## The counting theorem -/

section

variable (pc : T → Pc)

omit [DecidableEq T] in
theorem claims_eq_between :
    threadSum (Pc.claim .slots) pc + threadSum (Pc.claim .values) pc =
      threadCount Pc.between pc := by
  rw [← threadSum_add, threadCount_eq_threadSum]
  apply threadSum_congr
  intro t
  cases pc t with
  | inCall c p => cases c <;> cases p <;> rfl
  | _ => rfl

omit [DecidableEq T] in
theorem claim_values_eq :
    threadSum (Pc.claim .values) pc =
      (threadCount Pc.toDequeue pc : ℤ) + threadCount Pc.toPost pc := by
  rw [threadCount_eq_threadSum, threadCount_eq_threadSum, ← threadSum_add]
  apply threadSum_congr
  intro t
  cases pc t with
  | inCall c p => cases c <;> cases p <;> rfl
  | _ => rfl

omit [DecidableEq T] in
theorem claim_values_uncounted_eq :
    threadSum (Pc.claim .values) pc + threadSum Pc.uncounted pc =
      (threadCount Pc.toUnlink pc : ℤ) + threadCount Pc.linked pc := by
  rw [threadCount_eq_threadSum, threadCount_eq_threadSum, ← threadSum_add,
    ← threadSum_add]
  apply threadSum_congr
  intro t
  cases pc t with
  | inCall c p => cases c <;> cases p <;> rfl
  | _ => rfl

end

/-- The semaphores and the threads between them account for all of
`max_count`, and what is counted, and what is in the list, is accounted for by
`full` and the threads on either side of it.  So no assertion fails, `first` is
not null when a value is taken, and values leave in the order in which they
came. -/
theorem semaphoreQueue_safe
    (hm : 1 ≤ m) (hs : (queueSystem T m).Reachable s) :
    (s.sem .slots : ℤ) + s.sem .values + threadCount Pc.between s.pc = m ∧
      0 ≤ s.q.count ∧ s.q.count ≤ m ∧
      s.q.count = s.sem .values + threadCount Pc.toDequeue s.pc +
        threadCount Pc.toPost s.pc ∧
      (∃ xs vals, Chain QNode.next s.q.nodes s.q.first xs ∧
        s.q.last = xs.getLast? ∧
        xs.map (fun a => (s.q.nodes a).map QNode.val) = vals.map some ∧
        (xs.length : ℤ) = s.sem .values + threadCount Pc.toUnlink s.pc +
          threadCount Pc.linked s.pc ∧
        s.q.added = s.q.got ++ vals) ∧
      s.q.got <+: s.q.added ∧
      (∀ t, s.pc t = .inCall .get .link → s.q.first ≠ none) ∧
      (∀ t, s.pc t ≠ .assertFailed ∧ s.pc t ≠ .fault) := by
  have hi := reachable_inv (by omega) hs
  have hmax := hi.counts.maxCount
  have hslots := hi.rooms .slots
  have hvalues := hi.rooms .values
  simp only [Queue.room] at hslots hvalues
  have hbetween := claims_eq_between s.pc
  have hcounted := claim_values_eq s.pc
  have hlinked := claim_values_uncounted_eq s.pc
  obtain ⟨xs, vals, hl, hlen⟩ := hi.listed
  have hxs := hl.length_eq
  refine ⟨by omega, hi.counts.nonneg, hi.counts.le_max, by omega, ?_, ?_, ?_,
    hi.unfailed⟩
  · exact ⟨xs, vals, hl.cells.chain, hl.cells.last_eq, hl.cells.values,
      by omega, hl.history⟩
  · exact ⟨vals, hl.history.symm⟩
  · intro t hpc
    obtain ⟨q, hlink, -⟩ := hi.link hpc
    exact Queue.first_ne_none_of_getUnlink hlink

/-- A producer has enqueued a value and not posted `full` yet, and a consumer
waits for it. -/
theorem semaphoreQueue_inTransit :
    ∃ s : State (Fin 2), (queueSystem (Fin 2) 1).Reachable s ∧
      s.q.count = 1 ∧ s.sem .slots = 0 ∧ s.sem .values = 0 ∧
      s.pc 0 = .inCall .get .wait ∧ s.pc 1 = .inCall (.add 7) .post ∧
      s.q.got <+: s.q.added := by
  have hrun : ((queueSystem (Fin 2) 1).run (start (Fin 2) 1)
      [.call 0 .get, .call 1 (.add 7), .advance 1, .advance 1, .advance 1,
        .advance 1, .advance 1, .advance 1]).map
      (fun s => (s.q.count, s.sem .slots, s.sem .values, s.pc 0, s.pc 1)) =
        some (1, 0, 0, .inCall .get .wait, .inCall (.add 7) .post) := rfl
  obtain ⟨s, hs, heq⟩ := Option.map_eq_some_iff.mp hrun
  simp only [Prod.mk.injEq] at heq
  obtain ⟨hcount, hslots, hvalues, hpc0, hpc1⟩ := heq
  have hreach : (queueSystem (Fin 2) 1).Reachable s :=
    TransitionSystem.Reachable.run (.initial rfl) hs
  obtain ⟨-, -, -, -, -, hprefix, -, -⟩ :=
    semaphoreQueue_safe (by decide) hreach
  exact ⟨s, hreach, hcount, hslots, hvalues, hpc0, hpc1, hprefix⟩

end Semaphore
end BoundedQueue
end OsFifthSem
