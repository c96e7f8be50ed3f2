import OsFifthSem.Support.MutexOwner
import OsFifthSem.Sync.BoundedQueue.Fifo

/-!
# The queue with one lock

`2.2a-c.c` puts a spinlock around the functions of `queue.c`, and `2.2e.c` a
mutex; the code between lock and unlock is the same in both files.  Any thread
may call `queue_add`, `queue_get` or `queue_print_stats`, any number of times.

What the callers see could have come from a bounded queue whose calls take
effect at one moment: a refused call where it tests `count`, any other one
where it changes the list.
-/

namespace OsFifthSem
namespace BoundedQueue
namespace Locked

open Support

universe u

/-- The next step of a call. -/
inductive Phase
  | lock
  | attempt
  | test
  | link
  | count (r : Reply)
  | unlock (r : Reply)
  deriving DecidableEq, Repr

/-- Where a thread is. -/
inductive Pc
  | idle
  | inCall (c : Call) (p : Phase)
  /-- `queue_print_stats`. -/
  | printLock
  | printUnlock
  | assertFailed
  | fault
  deriving DecidableEq, Repr

/-- The queue, the owner of its lock and the threads. -/
structure State (T : Type u) where
  q : Queue
  owner : Option T
  pc : T → Pc

/-- One scheduling choice. -/
inductive Action (T : Type u)
  | call (t : T) (c : Call)
  | print (t : T)
  /-- The thread takes its next step. -/
  | advance (t : T)

/-- `queue_add` refuses a value when the queue is full, `queue_get` returns
nothing when it is empty. -/
def refuses : Call → Queue → Bool
  | .add _, q => q.count = q.maxCount
  | .get, q => q.count = 0

/-- The change of the list, with the reply. -/
def link : Call → Queue → Option (Reply × Queue)
  | .add val, q => (q.addLink val).map fun q => (⟨1, none⟩, q)
  | .get, q => q.getFirst.map fun p => (⟨1, some p.1⟩, p.2)

variable {T : Type u} [DecidableEq T]

/-- Go on at `pc` with the given queue and owner of the lock. -/
def State.goto (s : State T) (t : T) (q : Queue) (owner : Option T) (pc : Pc) :
    State T where
  q := q
  owner := owner
  pc := Function.update s.pc t pc

/-- The next step of thread `t`. -/
def advance (s : State T) (t : T) : Option (State T) :=
  match s.pc t with
  | .idle | .assertFailed | .fault => none
  | .inCall c .lock =>
      if s.owner = none then some (s.goto t s.q (some t) (.inCall c .attempt))
      else none
  | .inCall c .attempt =>
      match c.operation.attempt s.q with
      | none => some (s.goto t s.q s.owner .assertFailed)
      | some q => some (s.goto t q s.owner (.inCall c .test))
  | .inCall c .test =>
      some (s.goto t s.q s.owner
        (.inCall c (if refuses c s.q then .unlock ⟨0, none⟩ else .link)))
  | .inCall c .link =>
      match link c s.q with
      | none => some (s.goto t s.q s.owner .fault)
      | some (r, q) => some (s.goto t q s.owner (.inCall c (.count r)))
  | .inCall c (.count r) =>
      some (s.goto t (c.operation.count s.q) s.owner (.inCall c (.unlock r)))
  | .inCall _ (.unlock _) => some (s.goto t s.q none .idle)
  | .printLock =>
      if s.owner = none then some (s.goto t s.q (some t) .printUnlock) else none
  | .printUnlock => some (s.goto t s.q none .idle)

/-- One step of the system. -/
def step (s : State T) : Action T → Option (State T)
  | .call t c =>
      if s.pc t = .idle then some (s.goto t s.q s.owner (.inCall c .lock))
      else none
  | .print t =>
      if s.pc t = .idle then some (s.goto t s.q s.owner .printLock) else none
  | .advance t => advance s t

/-- `queue_init`, with every thread outside the functions. -/
def start (T : Type u) (maxCount : ℤ) : State T where
  q := queueInit maxCount
  owner := none
  pc := fun _ => .idle

/-- Any number of threads that use one queue. -/
def queueSystem (T : Type u) [DecidableEq T] (maxCount : ℤ) :
    TransitionSystem (State T) (Action T) where
  Initial := fun s => s = start T maxCount
  step := step

/-- The calls and the values they return. -/
def observed (s : State T) : Action T → List (CallEvent T Call Reply)
  | .call t c => [.call t c]
  | .print _ => []
  | .advance t =>
      match s.pc t with
      | .inCall _ (.unlock r) => [.answer t r]
      | _ => []

/-! ## The refinement -/

/-- The thread owns the lock. -/
def Pc.owns : Pc → Bool
  | .inCall _ .attempt | .inCall _ .test | .inCall _ .link
  | .inCall _ (.count _) | .inCall _ (.unlock _) | .printUnlock => true
  | .inCall _ .lock | .idle | .printLock | .assertFailed | .fault => false

/-- The number of values in the list that are not counted yet. -/
def Pc.uncounted : Pc → ℤ
  | .inCall c (.count _) => c.delta
  | _ => 0

/-- What the thread knows about the queue.  No assertion has failed and no
null pointer was followed. -/
def Pc.Facts (q : Queue) : Pc → Prop
  | .inCall c .link | .inCall c (.count _) => 0 < q.room c.needs
  | .assertFailed | .fault => False
  | _ => True

/-- Where a thread stands in its call of the bounded queue. -/
def Pc.callPhase : Pc → CallPhase Call Reply
  | .inCall c .lock | .inCall c .attempt | .inCall c .test
  | .inCall c .link => .called c
  | .inCall _ (.count r) | .inCall _ (.unlock r) => .answered r
  | .idle | .printLock | .printUnlock | .assertFailed | .fault => .idle

/-- The number of values that the owner of the lock has not counted yet. -/
def State.uncounted (s : State T) : ℤ :=
  s.owner.elim 0 fun t => (s.pc t).uncounted

/-- The list holds the values of the bounded queue, and the threads stand
where their program points say. -/
structure Refines (m : ℤ) (s : State T)
    (u : AtomicState T Call Reply (List ℤ)) : Prop where
  owned : Owned Pc.owns s.owner s.pc
  counts : s.q.Counts m
  lists : ∃ xs, s.q.settled.Lists xs u.value
  length : (u.value.length : ℤ) = s.q.count + s.uncounted
  facts : ∀ t, (s.pc t).Facts s.q
  phase : ∀ t, u.phase t = (s.pc t).callPhase

variable {m : ℤ} {s s' : State T} {t : T} {c : Call} {r : Reply}
  {q : Queue} {o : Option T} {pc p : Pc} {vals : List ℤ}
  {u : AtomicState T Call Reply (List ℤ)}

omit [DecidableEq T] in
/-- The facts of a thread that does not own the lock do not depend on the
queue. -/
theorem Pc.Facts.of_not_owns
    {q q' : Queue} (hf : pc.Facts q) (howns : pc.owns = false) :
    pc.Facts q' := by
  unfold Pc.Facts at hf ⊢
  split <;> simp_all [Pc.owns]

omit [DecidableEq T] in
theorem Pc.uncounted_of_not_owns (howns : pc.owns = false) :
    pc.uncounted = 0 := by
  unfold Pc.uncounted
  split <;> simp_all [Pc.owns]

namespace Refines

omit [DecidableEq T] in
theorem phase_at (href : Refines m s u) (hpc : s.pc t = p) :
    u.phase t = p.callPhase := by
  rw [href.phase t, hpc]

omit [DecidableEq T] in
theorem owner_eq (href : Refines m s u) (hpc : s.pc t = p)
    (hp : p.owns = true) : s.owner = some t :=
  (href.owned t).mp (hpc ▸ hp)

omit [DecidableEq T] in
/-- The values, while the owner has nothing left to count. -/
theorem length_of_owner
    (href : Refines m s u) (hpc : s.pc t = p) (hp : p.owns = true) :
    (u.value.length : ℤ) = s.q.count + p.uncounted := by
  have hlength := href.length
  rw [State.uncounted, href.owner_eq hpc hp] at hlength
  rw [hlength, Option.elim_some, hpc]

/-- Thread `t` goes on at `pc`. -/
theorem goto
    (href : Refines m s u) (howned : Owned Pc.owns o (Function.update s.pc t pc))
    (hcounts : q.Counts m) (hquiet : (s.pc t).owns = true ∨ q = s.q)
    (hlists : ∃ xs, q.settled.Lists xs vals)
    (hlength : (vals.length : ℤ) = q.count + (s.goto t q o pc).uncounted)
    (hfacts : pc.Facts q) {phase : T → CallPhase Call Reply}
    (hphase : phase = Function.update u.phase t pc.callPhase) :
    Refines m (s.goto t q o pc) { value := vals, phase := phase } := by
  refine ⟨howned, hcounts, hlists, hlength, fun x => ?_, fun x => ?_⟩
  · by_cases hx : x = t
    · subst hx
      simpa [State.goto] using hfacts
    · change (Function.update s.pc t pc x).Facts q
      rw [Function.update_of_ne hx]
      rcases hquiet with howns | rfl
      · exact (href.facts x).of_not_owns (href.owned.not_owns_of_ne howns hx)
      · exact href.facts x
  · subst hphase
    change _ = (Function.update s.pc t pc x).callPhase
    by_cases hx : x = t
    · subst hx
      simp
    · simp [hx, href.phase x]

/-- A step outside the critical section. -/
theorem goto_outside
    (href : Refines m s u) (hpc : s.pc t = p) (hp : p.owns = false)
    (hnew : pc.owns = false) (hfacts : pc.Facts s.q)
    {phase : T → CallPhase Call Reply}
    (hphase : phase = Function.update u.phase t pc.callPhase) :
    Refines m (s.goto t s.q s.owner pc) { u with phase := phase } := by
  refine href.goto (href.owned.keep ?_) href.counts (Or.inr rfl) href.lists ?_
    hfacts hphase
  · rw [hnew, hpc, hp]
  · have hsame : (s.goto t s.q s.owner pc).uncounted = s.uncounted := by
      unfold State.uncounted State.goto
      cases howner : s.owner with
      | none => rfl
      | some x =>
          have hx : x ≠ t := by
            rintro rfl
            have howns := (href.owned x).mpr howner
            rw [hpc, hp] at howns
            cases howns
          simp [hx]
    rw [hsame]
    exact href.length

/-- Taking the lock. -/
theorem acquire
    (href : Refines m s u) (hfree : s.owner = none) (hnew : pc.owns = true)
    (huncounted : pc.uncounted = 0) (hfacts : pc.Facts s.q)
    (hphase : pc.callPhase = (s.pc t).callPhase) :
    Refines m (s.goto t s.q (some t) pc) u := by
  refine href.goto (href.owned.acquire hfree hnew) href.counts (Or.inr rfl)
    href.lists ?_ hfacts ?_
  · have hlength := href.length
    simpa [State.uncounted, hfree, State.goto, huncounted] using hlength
  · rw [hphase, ← href.phase t, Function.update_eq_self]

/-- A step of the owner inside the critical section. -/
theorem inside
    (href : Refines m s u) (hpc : s.pc t = p) (hp : p.owns = true)
    (hnew : pc.owns = true) (hcounts : q.Counts m)
    (hlists : ∃ xs, q.settled.Lists xs vals)
    (hlength : (vals.length : ℤ) = q.count + pc.uncounted)
    (hfacts : pc.Facts q) {phase : T → CallPhase Call Reply}
    (hphase : phase = Function.update u.phase t pc.callPhase) :
    Refines m (s.goto t q s.owner pc) { value := vals, phase := phase } := by
  refine href.goto (href.owned.keep ?_) hcounts (Or.inl ?_) hlists ?_ hfacts
    hphase
  · rw [hnew, hpc, hp]
  · rw [hpc, hp]
  · simpa [State.uncounted, State.goto, href.owner_eq hpc hp] using hlength

/-- A step of the owner that is not an effect. -/
theorem inside_silent
    (href : Refines m s u) (hpc : s.pc t = p) (hp : p.owns = true)
    (hnew : pc.owns = true) (hcounts : q.Counts m)
    (hlists : ∀ xs vals, s.q.settled.Lists xs vals → q.settled.Lists xs vals)
    (hlength : q.count + pc.uncounted = s.q.count + p.uncounted)
    (hfacts : pc.Facts q) (hphase : pc.callPhase = p.callPhase) :
    Refines m (s.goto t q s.owner pc) u := by
  obtain ⟨xs, hxs⟩ := href.lists
  refine href.inside hpc hp hnew hcounts ⟨xs, hlists xs _ hxs⟩ ?_ hfacts ?_
  · rw [href.length_of_owner hpc hp, hlength]
  · rw [hphase, ← href.phase_at hpc, Function.update_eq_self]

/-- Giving up the lock. -/
theorem release
    (href : Refines m s u) (hpc : s.pc t = p) (hp : p.owns = true)
    (huncounted : p.uncounted = 0) {phase : T → CallPhase Call Reply}
    (hphase : phase = Function.update u.phase t .idle) :
    Refines m (s.goto t s.q none .idle) { u with phase := phase } := by
  refine href.goto (href.owned.release (by rw [hpc, hp]) rfl) href.counts
    (Or.inr rfl) href.lists ?_ (by exact trivial) hphase
  rw [href.length_of_owner hpc hp, huncounted]
  rfl

/-! ## The steps of a call -/

theorem attempt (href : Refines m s u) (hpc : s.pc t = .inCall c .attempt) :
    ∃ q, c.operation.attempt s.q = some q ∧
      Refines m (s.goto t q s.owner (.inCall c .test)) u := by
  obtain ⟨q, hattempt, hsame, hlists⟩ := c.exists_attempt href.counts
  refine ⟨q, hattempt, href.inside_silent hpc rfl rfl
    (href.counts.congr hsame) ?_ ?_ trivial rfl⟩
  · -- the attempts are counted beside the list
    intro xs vals hl
    cases c <;>
      obtain ⟨-, hq⟩ := Option.ite_none_right_eq_some.mp hattempt <;>
      obtain rfl := Option.some.inj hq <;>
      exact ⟨hl.cells, hl.fresh, hl.history⟩
  · change q.count + 0 = s.q.count + 0
    rw [hsame.count]

theorem refused
    (href : Refines m s u) (hpc : s.pc t = .inCall c .test)
    (hrefuses : refuses c s.q = true) :
    ∃ u', (fifoObject T m).Explains u [] u' ∧
      Refines m (s.goto t s.q s.owner (.inCall c (.unlock ⟨0, none⟩))) u' := by
  have hlength : (u.value.length : ℤ) = s.q.count + 0 :=
    href.length_of_owner hpc rfl
  rw [Int.add_zero] at hlength
  have hfifo : fifoCall m u.value c = (⟨0, none⟩, u.value) := by
    have hmax := href.counts.maxCount
    cases c with
    | add val =>
        have hfull : s.q.count = s.q.maxCount := by simpa [refuses] using hrefuses
        rw [fifoCall, if_neg (by omega)]
    | get =>
        have hempty : s.q.count = 0 := by simpa [refuses] using hrefuses
        have hnil : u.value = [] := by
          rw [← List.length_eq_zero_iff]
          omega
        rw [hnil]
        rfl
  refine ⟨_, .effect (href.phase_at hpc) (congrArg some hfifo), ?_⟩
  refine href.inside hpc rfl rfl href.counts href.lists ?_ (by exact trivial) rfl
  change (u.value.length : ℤ) = s.q.count + 0
  rw [hlength, Int.add_zero]

theorem not_refused
    (href : Refines m s u) (hpc : s.pc t = .inCall c .test)
    (hrefuses : refuses c s.q = false) :
    Refines m (s.goto t s.q s.owner (.inCall c .link)) u := by
  refine href.inside_silent hpc rfl rfl href.counts (fun _ _ hl => hl) rfl ?_ rfl
  have hnonneg := href.counts.nonneg
  have hle := href.counts.le_max
  have hmax := href.counts.maxCount
  cases c with
  | add val =>
      have hroom : s.q.count ≠ s.q.maxCount := by simpa [refuses] using hrefuses
      change 0 < s.q.maxCount - s.q.count
      omega
  | get =>
      have hsome : s.q.count ≠ 0 := by simpa [refuses] using hrefuses
      change 0 < s.q.count
      omega

theorem link (href : Refines m s u) (hpc : s.pc t = .inCall c .link) :
    ∃ r q u', Locked.link c s.q = some (r, q) ∧
      (fifoObject T m).Explains u [] u' ∧
      Refines m (s.goto t q s.owner (.inCall c (.count r))) u' := by
  have hroom : 0 < s.q.room c.needs := by simpa [hpc, Pc.Facts] using href.facts t
  have hlength : (u.value.length : ℤ) = s.q.count + 0 :=
    href.length_of_owner hpc rfl
  rw [Int.add_zero] at hlength
  have hmax := href.counts.maxCount
  obtain ⟨xs, hl⟩ := href.lists
  -- it remains to see what the list becomes
  suffices hlink : ∃ r q vals, Locked.link c s.q = some (r, q) ∧
      fifoCall m u.value c = (r, vals) ∧ Queue.SameCounters s.q q ∧
      (∃ ys, q.settled.Lists ys vals) ∧
      (vals.length : ℤ) = u.value.length + c.delta by
    obtain ⟨r, q, vals, hlink, hfifo, hsame, hlists, hvals⟩ := hlink
    refine ⟨r, q, _, hlink, .effect (href.phase_at hpc) (congrArg some hfifo),
      href.inside hpc rfl rfl (href.counts.congr hsame) hlists ?_ ?_ rfl⟩
    · rw [hvals, hlength, hsame.count, Pc.uncounted]
    · change 0 < q.room c.needs
      rwa [Queue.room_congr hsame.count hsame.maxCount]
  cases c with
  | add val =>
      obtain ⟨q, hadd, hsame, hl'⟩ := hl.addLink val
      rw [Queue.addLink_settled] at hadd
      have hspace : (u.value.length : ℤ) < m := by
        change 0 < s.q.maxCount - s.q.count at hroom
        omega
      refine ⟨⟨1, none⟩, q, u.value ++ [val], ?_, ?_, ?_, ?_, ?_⟩
      · rw [Locked.link, hadd]
        rfl
      · rw [fifoCall, if_pos hspace]
      · exact ⟨hsame.count, hsame.maxCount, hsame.addCount, hsame.getCount⟩
      · exact ⟨_, (Queue.settled_of_last hl').symm ▸ hl'⟩
      · simp [Call.delta]
  | get =>
      change 0 < s.q.count at hroom
      obtain ⟨val, rest, hvalue⟩ := List.exists_cons_of_length_pos
        (by omega : 0 < u.value.length)
      rw [hvalue] at hl
      have hlen := hl.length_eq
      obtain ⟨a, ys, rfl⟩ := List.exists_cons_of_length_pos
        (by simp at hlen; omega : 0 < xs.length)
      have hfirst : s.q.first = some a := hl.cells.chain.head_eq
      have hcells := hl.cells
      rw [show s.q.settled.first = some a from hfirst] at hcells
      obtain ⟨n, hcell, rfl, -⟩ := hcells.tail
      have hcell₁ : s.q.nodes a = some n := hcell
      obtain ⟨q, hunlink, hsame, hl'⟩ := hl.getUnlink
      rw [Queue.getUnlink_settled] at hunlink
      simp only [Queue.getFirst, hfirst, hcell₁, Option.bind_some,
        Option.map_some, Option.some.injEq] at hunlink
      subst hunlink
      refine ⟨⟨1, some n.val⟩, _, rest, ?_, ?_, ?_, ⟨ys, hl'⟩, ?_⟩
      · simp only [Locked.link, Queue.getFirst, hfirst, hcell₁,
          Option.bind_some, Option.map_some]
      · rw [hvalue]
        rfl
      · exact ⟨hsame.count, hsame.maxCount, hsame.addCount, hsame.getCount⟩
      · simp [hvalue, Call.delta]

theorem count (href : Refines m s u) (hpc : s.pc t = .inCall c (.count r)) :
    Refines m (s.goto t (c.operation.count s.q) s.owner (.inCall c (.unlock r)))
      u := by
  have hroom : 0 < s.q.room c.needs := by simpa [hpc, Pc.Facts] using href.facts t
  obtain ⟨hnonneg, hle⟩ := Call.delta_bounds href.counts hroom
  obtain ⟨hcounts, -⟩ := c.counts_count href.counts hnonneg hle
  refine href.inside_silent hpc rfl rfl hcounts ?_ ?_ trivial rfl
  · intro xs vals hl
    cases c <;> exact ⟨hl.cells, hl.fresh, hl.history⟩
  · rw [c.count_count]
    simp [Pc.uncounted]

theorem advance (href : Refines m s u) (hstep : Locked.advance s t = some s') :
    ∃ u', (fifoObject T m).Explains u (observed s (.advance t)) u' ∧
      Refines m s' u' := by
  rw [Locked.advance] at hstep
  cases hpc : s.pc t with
  | idle | assertFailed | fault => simp [hpc] at hstep
  | printLock =>
      simp only [hpc, Option.ite_none_right_eq_some, Option.some.injEq] at hstep
      obtain ⟨hfree, rfl⟩ := hstep
      refine ⟨u, ?_, href.acquire hfree rfl rfl trivial (by rw [hpc]; rfl)⟩
      simpa [observed, hpc] using AtomicObject.Explains.silent u
  | printUnlock =>
      simp only [hpc, Option.some.injEq] at hstep
      subst hstep
      refine ⟨u, ?_, href.release hpc rfl rfl ?_⟩
      · simpa [observed, hpc] using AtomicObject.Explains.silent u
      · have hidle : u.phase t = .idle := href.phase_at hpc
        rw [← hidle, Function.update_eq_self]
  | inCall c p =>
      cases p with
      | lock =>
          simp only [hpc, Option.ite_none_right_eq_some,
            Option.some.injEq] at hstep
          obtain ⟨hfree, rfl⟩ := hstep
          refine ⟨u, ?_, href.acquire hfree rfl rfl trivial (by rw [hpc]; rfl)⟩
          simpa [observed, hpc] using AtomicObject.Explains.silent u
      | attempt =>
          obtain ⟨q, hattempt, href'⟩ := href.attempt hpc
          simp only [hpc, hattempt, Option.some.injEq] at hstep
          subst hstep
          refine ⟨u, ?_, href'⟩
          simpa [observed, hpc] using AtomicObject.Explains.silent u
      | test =>
          cases hrefuses : refuses c s.q with
          | true =>
              simp only [hpc, hrefuses, if_true, Option.some.injEq] at hstep
              subst hstep
              simpa [observed, hpc] using href.refused hpc hrefuses
          | false =>
              simp only [hpc, hrefuses, Bool.false_eq_true, if_false,
                Option.some.injEq] at hstep
              subst hstep
              refine ⟨u, ?_, href.not_refused hpc hrefuses⟩
              simpa [observed, hpc] using AtomicObject.Explains.silent u
      | link =>
          obtain ⟨r, q, u', hlink, hexplains, href'⟩ := href.link hpc
          simp only [hpc, hlink, Option.some.injEq] at hstep
          subst hstep
          refine ⟨u', ?_, href'⟩
          simpa [observed, hpc] using hexplains
      | count r =>
          simp only [hpc, Option.some.injEq] at hstep
          subst hstep
          refine ⟨u, ?_, href.count hpc⟩
          simpa [observed, hpc] using AtomicObject.Explains.silent u
      | unlock r =>
          simp only [hpc, Option.some.injEq] at hstep
          subst hstep
          refine ⟨_, ?_, href.release hpc rfl rfl rfl⟩
          simpa [observed, hpc] using AtomicObject.Explains.answer
            (href.phase_at hpc)

theorem step {a : Action T} (href : Refines m s u)
    (hstep : Locked.step s a = some s') :
    ∃ u', (fifoObject T m).Explains u (observed s a) u' ∧ Refines m s' u' := by
  cases a with
  | advance t => exact href.advance hstep
  | call t c =>
      simp only [Locked.step, Option.ite_none_right_eq_some,
        Option.some.injEq] at hstep
      obtain ⟨hpc, rfl⟩ := hstep
      exact ⟨_, .call (href.phase_at hpc) c,
        href.goto_outside hpc rfl rfl (by exact trivial) rfl⟩
  | print t =>
      simp only [Locked.step, Option.ite_none_right_eq_some,
        Option.some.injEq] at hstep
      obtain ⟨hpc, rfl⟩ := hstep
      have hidle : u.phase t = .idle := href.phase_at hpc
      refine ⟨u, .silent u,
        href.goto_outside hpc rfl rfl (by exact trivial) ?_⟩
      change u.phase = Function.update u.phase t .idle
      rw [← hidle, Function.update_eq_self]

end Refines

omit [DecidableEq T] in
theorem refines_start (hm : 0 ≤ m) :
    Refines m (start T m) { value := [], phase := fun _ => .idle } where
  owned := fun t => by simp [start, Pc.owns]
  counts := ⟨rfl, le_rfl, hm, rfl⟩
  lists := ⟨[], Queue.lists_queueInit m⟩
  length := rfl
  facts := fun _ => trivial
  phase := fun _ => rfl

theorem refinesFifo
    (T : Type u) [DecidableEq T] {m : ℤ} (hm : 0 ≤ m) :
    (fifoObject T m).Linearizable (queueSystem T m) (fun _ _ => True)
      observed := by
  refine AtomicObject.linearizable_of_relation (Refines m) ?_ ?_
  · rintro s rfl
    exact refines_start hm
  · intro s u a s' _ href _ hstep
    exact href.step hstep

theorem exists_refines
    (hm : 0 ≤ m) (hs : (queueSystem T m).Reachable s) :
    ∃ u, Refines m s u := by
  refine AtomicObject.related_of_relation (fifoObject T m) observed (Refines m)
    ?_ ?_ hs
  · rintro s rfl
    exact refines_start hm
  · intro s u a s' _ href _ hstep
    exact href.step hstep

/-- Any number of threads that add, get and print: whatever the order of their
steps, the replies are those of a bounded queue, no assertion fails and no
pointer that is not valid is followed. -/
theorem lockedQueue_linearizable
    (T : Type u) [DecidableEq T] {m : ℤ} (hm : 0 ≤ m) :
    (fifoObject T m).Linearizable (queueSystem T m) (fun _ _ => True)
      observed ∧
    ∀ s, (queueSystem T m).Reachable s →
      ∀ t, s.pc t ≠ .assertFailed ∧ s.pc t ≠ .fault := by
  refine ⟨refinesFifo T hm, fun s hs t => ?_⟩
  obtain ⟨u, href⟩ := exists_refines hm hs
  have hfacts := href.facts t
  constructor <;> intro hpc <;> rw [hpc] at hfacts <;> exact hfacts

theorem lockedQueue_linearizable_one :
    (fifoObject (Fin 2) 1).Linearizable (queueSystem (Fin 2) 1)
      (fun _ _ => True) observed :=
  (lockedQueue_linearizable (Fin 2) (by decide)).1

end Locked
end BoundedQueue
end OsFifthSem
