import OsFifthSem.Sync.BoundedQueue.CondVar.Linearizable
import OsFifthSem.Sync.BoundedQueue.Settled

/-!
# No signal is missing in the queue with condition variables

A woken thread that finds nothing waits again, so a call may go round its loop
many times.  Each round needs a signal, a call sends one signal, and so a
signal pays for the round of the thread that it wakes.  Where the signals have
come to an end, the invariant says that nothing is left to wait for.
-/

namespace OsFifthSem
namespace BoundedQueue
namespace CondVar

open Support

universe u

/-! ## The steps that are left -/

/-- The number of steps a thread has at most left when nobody wakes it; the
step `signal` counts for three steps of the woken thread as well. -/
def Phase.rank : Phase → ℕ
  | .lock => 10
  | .woken _ => 10
  | .test => 9
  | .wait => 8
  | .blocked => 7
  | .attempt => 8
  | .link => 7
  | .count => 6
  | .signal => 5
  | .unlock => 1

def Pc.rank : Pc → ℕ
  | .inCall _ p => p.rank
  | .printLock => 2
  | .printUnlock => 1
  | .idle | .assertFailed | .fault => 0

theorem Pc.rank_le (pc : Pc) : pc.rank ≤ 10 := by
  cases pc with
  | inCall c p => cases p <;> simp [Pc.rank, Phase.rank]
  | _ => simp [Pc.rank]

/-- A function is called. -/
def Action.isCall {T : Type u} : Action T → Bool
  | .call _ _ | .print _ => true
  | _ => false

/-- `pthread_cond_wait` returns without a signal. -/
def Action.isSpurious {T : Type u} : Action T → Bool
  | .spurious _ => true
  | _ => false

variable {T : Type u} [DecidableEq T] [Fintype T] {m : ℤ} {s s' : State T}
  {t u : T} {q : Queue} {o : Option T} {pc : Pc}

/-- All that the threads have left. -/
def State.rank (s : State T) : ℕ := threadSum Pc.rank s.pc

theorem rank_goto (s : State T) (t : T) (q : Queue) (o : Option T) (pc : Pc) :
    (s.goto t q o pc).rank + (s.pc t).rank = s.rank + pc.rank :=
  threadSum_update Pc.rank s.pc t pc

/-- A step that moves one thread to a point with fewer steps left. -/
theorem rank_goto_lt {pc₀ : Pc} (hpc : s.pc t = pc₀) (hlt : pc.rank < pc₀.rank) :
    (s.goto t q o pc).rank + 1 ≤ s.rank := by
  have hsum := rank_goto s t q o pc
  rw [hpc] at hsum
  omega

theorem advance_rank_lt (hstep : advance s t = some s') :
    s'.rank + 1 ≤ s.rank := by
  rw [advance] at hstep
  cases hpc : s.pc t with
  | idle | assertFailed | fault => simp [hpc] at hstep
  | printLock =>
      simp only [hpc, Option.ite_none_right_eq_some, Option.some.injEq] at hstep
      obtain ⟨-, rfl⟩ := hstep
      exact rank_goto_lt hpc (by decide)
  | printUnlock =>
      simp only [hpc, Option.some.injEq] at hstep
      subst hstep
      exact rank_goto_lt hpc (by decide)
  | inCall c p =>
      cases p with
      | blocked | signal => simp [hpc] at hstep
      | lock | woken =>
          simp only [hpc, Option.ite_none_right_eq_some,
            Option.some.injEq] at hstep
          obtain ⟨-, rfl⟩ := hstep
          exact rank_goto_lt hpc (by simp [Pc.rank, Phase.rank])
      | test =>
          simp only [hpc, Option.some.injEq] at hstep
          subst hstep
          refine rank_goto_lt hpc ?_
          split <;> simp [Pc.rank, Phase.rank]
      | attempt | link =>
          simp only [hpc] at hstep
          split at hstep <;> obtain rfl := Option.some.inj hstep <;>
            exact rank_goto_lt hpc (by simp [Pc.rank, Phase.rank])
      | wait | count | unlock =>
          simp only [hpc, Option.some.injEq] at hstep
          subst hstep
          exact rank_goto_lt hpc (by simp [Pc.rank, Phase.rank])

/-- A signal pays for the round of the thread that it wakes. -/
theorem signal_rank_lt
    {w : Option T} (hstep : step s (.signal t w) = some s') :
    s'.rank + 1 ≤ s.rank := by
  cases w with
  | none =>
      simp only [step] at hstep
      split at hstep
      next c hpc =>
        obtain ⟨-, h⟩ := Option.ite_none_right_eq_some.mp hstep
        obtain rfl := Option.some.inj h
        exact rank_goto_lt hpc (by simp [Pc.rank, Phase.rank])
      next => cases hstep
  | some u =>
      simp only [step] at hstep
      split at hstep
      next c d hpc hupc =>
        obtain ⟨-, h⟩ := Option.ite_none_right_eq_some.mp hstep
        obtain rfl := Option.some.inj h
        have htu : t ≠ u := by
          rintro rfl
          rw [hpc] at hupc
          cases hupc
        have hwoken := rank_goto s u s.q s.owner (.inCall d (.woken true))
        have hsignal := rank_goto
          (s.goto u s.q s.owner (.inCall d (.woken true))) t s.q s.owner
          (.inCall c .unlock)
        rw [State.goto_pc_of_ne htu, hpc] at hsignal
        rw [hupc] at hwoken
        simp only [Pc.rank, Phase.rank] at hwoken hsignal
        omega
      next => cases hstep

/-- A step is a call, or it leaves less to do, but for a return without a
signal, which adds at most a round. -/
theorem step_rank
    {a : Action T} (hcall : a.isCall = false) (hstep : step s a = some s') :
    s'.rank + 1 ≤ s.rank + if a.isSpurious then 3 + 1 else 0 := by
  cases a with
  | call | print => cases hcall
  | advance t => exact advance_rank_lt hstep
  | signal t w => exact signal_rank_lt hstep
  | spurious t =>
      simp only [step] at hstep
      split at hstep
      next c hpc =>
        obtain rfl := Option.some.inj hstep
        have hsum := rank_goto s t s.q s.owner (.inCall c (.woken false))
        rw [hpc] at hsum
        simp only [Pc.rank, Phase.rank] at hsum
        simp only [Action.isSpurious, if_true]
        omega
      next => cases hstep

/-! ## Where no thread can go on -/

/-- The owner of the mutex can go on. -/
theorem owner_moves (hi : Inv m s) (howns : (s.pc t).owns = true) :
    ∃ a : Action T, a.isCall = false ∧ a.isSpurious = false ∧
      ∃ s', step s a = some s' := by
  have hadvance : ∀ s', advance s t = some s' → ∃ a : Action T,
      a.isCall = false ∧ a.isSpurious = false ∧ ∃ s', step s a = some s' :=
    fun s' h => ⟨.advance t, rfl, rfl, s', h⟩
  cases hpc : s.pc t with
  | idle | assertFailed | fault | printLock => simp [hpc, Pc.owns] at howns
  | printUnlock => exact hadvance _ (by rw [advance, hpc])
  | inCall c p =>
      cases p with
      | lock | blocked | woken => simp [hpc, Pc.owns] at howns
      | test | wait | count | unlock => exact hadvance _ (by rw [advance, hpc])
      | attempt =>
          obtain ⟨q, hq, -⟩ := hi.attempt hpc
          exact hadvance _ (by simp only [advance, hpc, hq]; rfl)
      | link =>
          obtain ⟨q, hq, -⟩ := hi.link hpc
          exact hadvance _ (by simp only [advance, hpc, hq]; rfl)
      | signal =>
          -- somebody is woken, or nobody is there to be woken
          by_cases hblocked : ∃ u, (s.pc u).blockedOn c.gives = true
          · obtain ⟨u, hu⟩ := hblocked
            cases hupc : s.pc u with
            | inCall d p =>
                cases p with
                | blocked =>
                    have hside : d.needs = c.gives := by
                      simpa [hupc, Pc.blockedOn] using hu
                    exact ⟨.signal t (some u), rfl, rfl, _, by
                      simp only [step, hpc, hupc, if_pos hside]
                      rfl⟩
                | _ => simp [hupc, Pc.blockedOn] at hu
            | _ => simp [hupc, Pc.blockedOn] at hu
          · have hnobody : ∀ u, (s.pc u).blockedOn c.gives = false := by
              simpa using hblocked
            exact ⟨.signal t none, rfl, rfl, _, by
              simp only [step, hpc, if_pos hnobody]
              rfl⟩

/-- Wherever no thread can go on, the calls that are left wait for a resource
of which there is none. -/
theorem settled_of_stuck
    (hm : 1 ≤ m) (hi : Inv m s)
    (hstuck : ∀ a : Action T, a.isCall = false → a.isSpurious = false →
      step s a = none) :
    s.owner = none ∧ Settled m s.q s.stage := by
  have hfree : s.owner = none := by
    by_contra hheld
    obtain ⟨t, ht⟩ := Option.ne_none_iff_exists'.mp hheld
    obtain ⟨a, hcall, hspurious, s', hstep⟩ :=
      owner_moves hi ((hi.owned t).mpr ht)
    simp [hstuck a hcall hspurious] at hstep
  have hmoves : ∀ t, advance s t = none :=
    fun t => hstuck (.advance t) rfl rfl
  have hunsignalled : ∀ t r, (s.pc t).signalled r = false := by
    intro t r
    have hmove := hmoves t
    cases hpc : s.pc t with
    | inCall c p =>
        cases p with
        | woken => simp [advance, hpc, hfree] at hmove
        | _ => rfl
    | _ => rfl
  refine ⟨hfree, settled_of_waits hm hi.counts (hi.listed_of_free hfree) ?_⟩
  intro t
  have hmove := hmoves t
  have hfacts := hi.facts t
  have howns := hi.owned.not_owns_of_free hfree t
  cases hpc : s.pc t with
  | idle => exact Or.inl (by rw [State.stage, hpc]; rfl)
  | printLock => simp [advance, hpc, hfree] at hmove
  | printUnlock => simp [hpc, Pc.owns] at howns
  | assertFailed | fault =>
      rw [hpc] at hfacts
      exact hfacts.elim
  | inCall c p =>
      cases p with
      | lock | woken => simp [advance, hpc, hfree] at hmove
      | test | wait | attempt | link | count | signal | unlock =>
          simp [hpc, Pc.owns] at howns
      | blocked =>
          refine Or.inr ⟨c, by rw [State.stage, hpc]; rfl, ?_⟩
          have hbound := hi.wakeups c.needs ⟨t, by simp [hpc, Pc.blockedOn]⟩
          rw [hi.relief_eq hfree] at hbound
          have hnone : threadCount (Pc.signalled c.needs) s.pc = 0 := by
            simp [threadCount, hunsignalled]
          have hnonneg := hi.counts.room_nonneg c.needs
          omega

/-- From any reachable state on, a schedule without new calls has at most ten
steps for each thread and four for each return without a signal.  Wherever it
cannot be continued, all calls have returned, or readers wait for an empty
queue, or writers wait for a full one. -/
theorem condVarQueue_settles
    (hm : 1 ≤ m) (hs : (queueSystem T m).Reachable s) {as : List (Action T)}
    (hcalls : ∀ a ∈ as, a.isCall = false)
    (hrun : (queueSystem T m).run s as = some s') :
    as.length ≤ 10 * Fintype.card T + 4 * as.countP Action.isSpurious ∧
      ((∀ a : Action T, a.isCall = false → a.isSpurious = false →
          (queueSystem T m).step s' a = none) →
        s'.owner = none ∧ Settled m s'.q s'.stage) := by
  constructor
  · have hbound := TransitionSystem.length_le_of_measure
      (I := fun _ => True) State.rank Action.isSpurious 3 ?_ trivial
      (TransitionSystem.runAllowed_of_mem hcalls s) hrun
    · have hle := threadSum_le Pc.rank_le s.pc
      change s.rank ≤ _ at hle
      omega
    · intro s₁ a s₂ _ hcall hstep
      exact ⟨trivial, step_rank hcall hstep⟩
  · intro hstuck
    exact settled_of_stuck hm (reachable_inv (by omega) (hs.run hrun)) hstuck

/-- The readers `r` and `r'` wait, the writer `w` adds a value and wakes `r`,
which takes it. -/
def wakeupSchedule {T : Type u} (r r' w : T) : List (Action T) :=
  List.replicate 3 (.advance r) ++ List.replicate 3 (.advance r') ++
    List.replicate 5 (.advance w) ++ [.signal w (some r), .advance w] ++
    List.replicate 5 (.advance r) ++ [.signal r none, .advance r]

theorem condVarQueue_settles_wakeup :
    ∃ s s' : State (Fin 3), s.pc 0 = .inCall .get .lock ∧
      s.pc 1 = .inCall .get .lock ∧ s.pc 2 = .inCall (.add 7) .lock ∧
      (queueSystem (Fin 3) 1).run s (wakeupSchedule 0 1 2) = some s' ∧
      s'.pc 1 = .inCall .get .blocked ∧ s'.owner = none ∧
      Settled 1 s'.q s'.stage := by
  obtain ⟨s, s', hcall, hrun, hpc0, hpc1, hpc2, h0, h1, h2⟩ : ∃ s s',
      (queueSystem (Fin 3) 1).run (start (Fin 3) 1)
        [.call 0 .get, .call 1 .get, .call 2 (.add 7)] = some s ∧
      (queueSystem (Fin 3) 1).run s (wakeupSchedule 0 1 2) = some s' ∧
      s.pc 0 = .inCall .get .lock ∧ s.pc 1 = .inCall .get .lock ∧
      s.pc 2 = .inCall (.add 7) .lock ∧ s'.pc 0 = .idle ∧
      s'.pc 1 = .inCall .get .blocked ∧ s'.pc 2 = .idle :=
    ⟨_, _, rfl, rfl, rfl, rfl, rfl, rfl, rfl, rfl⟩
  have hs : (queueSystem (Fin 3) 1).Reachable s :=
    TransitionSystem.Reachable.run (.initial rfl) hcall
  have hcalls : ∀ a ∈ wakeupSchedule (0 : Fin 3) 1 2, a.isCall = false := by
    simp [wakeupSchedule, Action.isCall]
  have hmain := condVarQueue_settles (by decide) hs hcalls hrun
  refine ⟨s, s', hpc0, hpc1, hpc2, hrun, h1, hmain.2 ?_⟩
  intro a hcall hspurious
  have hpc : ∀ t, s'.pc t = .idle ∨ s'.pc t = .inCall .get .blocked := by
    intro t
    match t with
    | 0 => exact Or.inl h0
    | 1 => exact Or.inr h1
    | 2 => exact Or.inl h2
  change step s' a = none
  cases a with
  | call | print => cases hcall
  | spurious => cases hspurious
  | advance t => rcases hpc t with h | h <;> simp [step, advance, h]
  | signal t w => cases w <;> rcases hpc t with h | h <;> simp [step, h]

end CondVar
end BoundedQueue
end OsFifthSem
