import OsFifthSem.Support.Termination
import OsFifthSem.Sync.Mutex.Linearizable
import OsFifthSem.Sync.Mutex.Wakeup

/-!
# The calls of the futex mutex come to an end

When no thread calls the mutex anew, the calls under way end under every
schedule, fair or not: between two changes of the word by an acquisition or an
unlock a waiting thread runs into its `FUTEX_WAIT` after a few accesses.  A
spurious return of `FUTEX_WAIT` costs a bounded number of further accesses.
-/

namespace OsFifthSem
namespace Mutex

open Support

/-- The step calls a function of the mutex. -/
def Action.isCall {T : Type*} : Action T → Bool
  | .lock _ | .tryLock _ => true
  | .advance _ | .wake _ _ | .spurious _ => false

/-- The step is a return of `FUTEX_WAIT` without a wake-up. -/
def Action.isSpurious {T : Type*} : Action T → Bool
  | .spurious _ => true
  | .lock _ | .tryLock _ | .advance _ | .wake _ _ => false

/-! ## The measure -/

/-- The turning points that a call still has before it: its acquisition, the
fetch_sub, the store and the wake-up of the unlock. -/
def Pc.turns : Pc → ℕ
  | .outside => 0
  | .lockFast | .loopTest _ | .loopMark | .futexWait | .asleep | .loopRetry
  | .tryFast => 4
  | .counterRead | .counterWrite _ | .unlockSub => 3
  | .unlockStore => 2
  | .unlockWake => 1

/-- The accesses before the next turning point, while the word is `w`. -/
def Pc.rank (w : ℤ) : Pc → ℕ
  | .lockFast | .loopRetry => if w = 2 then 3 else if w = 1 then 2 else 0
  | .loopTest c =>
      if w = 2 then (if c = 2 then 2 else 3)
      else if w = 1 then (if c = 2 then 4 else 1)
      else 2
  | .loopMark => if w = 2 then 2 else if w = 1 then 0 else 1
  | .futexWait => if w = 2 then 1 else if w = 1 then 3 else 1
  | .counterRead => 2
  | .counterWrite _ => 1
  | .outside | .asleep | .tryFast | .unlockSub | .unlockStore
  | .unlockWake => 0

theorem Pc.turns_le (p : Pc) : p.turns ≤ 4 := by
  cases p <;> simp [Pc.turns]

theorem Pc.rank_le (w : ℤ) (p : Pc) : p.rank w ≤ 4 := by
  cases p <;> simp only [Pc.rank] <;> (try split_ifs) <;> omega

/-- The word may still be marked. -/
def markable (w : ℤ) : ℕ :=
  if w = 1 then 1 else 0

/-- An access of a thread inside a call or a critical section either passes a
turning point or marks the word, or it leaves the word and the turning points
alone and comes closer to the next one. -/
theorem Move.progress
    {p q : Pc} {w w' : ℤ} (hm : Move p w q w') (hw : IsMutexWord w)
    (hout : p ≠ .outside) (hawake : p ≠ .asleep) :
    2 * q.turns + markable w' < 2 * p.turns + markable w ∨
      w' = w ∧ q.turns = p.turns ∧ q.rank w < p.rank w := by
  cases hm with
  | callLock | callTryLock => exact absurd rfl hout
  | spurious => exact absurd rfl hawake
  | lockFree | retryFree | tryFree | subLast | markLocked =>
      exact Or.inl (by simp [Pc.turns, markable])
  | tryBusy | subWaiters | store | wake =>
      refine Or.inl ?_
      simp only [Pc.turns, markable]
      split_ifs <;> omega
  | lockBusy hne | retryBusy hne =>
      refine Or.inr ⟨rfl, rfl, ?_⟩
      rcases hw with rfl | rfl | rfl
      · exact absurd rfl hne
      · simp [Pc.rank]
      · simp [Pc.rank]
  | markFree | sleep => exact Or.inr ⟨rfl, rfl, by simp [Pc.rank]⟩
  | testWaiters | read | write =>
      refine Or.inr ⟨rfl, rfl, ?_⟩
      rcases hw with rfl | rfl | rfl <;> simp [Pc.rank]
  | testOther hc =>
      refine Or.inr ⟨rfl, rfl, ?_⟩
      rcases hw with rfl | rfl | rfl <;> simp [Pc.rank, hc]
  | markMarked h0 h1 =>
      refine Or.inr ⟨rfl, rfl, ?_⟩
      obtain rfl : w = 2 := (hw.resolve_left h0).resolve_left h1
      simp [Pc.rank]
  | waitRefused hne =>
      refine Or.inr ⟨rfl, rfl, ?_⟩
      rcases hw with rfl | rfl | rfl
      · simp [Pc.rank]
      · simp [Pc.rank]
      · exact absurd rfl hne

variable {T : Type*} [Fintype T]

/-- The turning points of all calls, and the mark. -/
def State.turns (s : State T) : ℕ :=
  2 * threadSum Pc.turns s.pc + markable s.word

/-- The accesses of all threads before the next turning point. -/
def State.rank (s : State T) : ℕ :=
  threadSum (Pc.rank s.word) s.pc

/-- The turning points come first. -/
def State.remaining (s : State T) : ℕ :=
  lexMeasure (4 * Fintype.card T) s.turns s.rank

theorem State.rank_le (s : State T) : s.rank ≤ 4 * Fintype.card T :=
  threadSum_le (Pc.rank_le s.word) s.pc

theorem State.remaining_le (s : State T) :
    s.remaining ≤
      (4 * Fintype.card T + 1) * (8 * Fintype.card T + 1) +
        4 * Fintype.card T := by
  refine lexMeasure_le s.rank_le ?_
  have hturns := threadSum_le Pc.turns_le s.pc
  unfold State.turns markable
  split_ifs <;> omega

variable [DecidableEq T] {s s' : State T} {t : T}

theorem StepBy.turns_sum (hs : StepBy t s s') :
    threadSum Pc.turns s'.pc + (s.pc t).turns =
      threadSum Pc.turns s.pc + (s'.pc t).turns := by
  apply threadSum_of_others
  intro x hx
  rcases hs.others x hx with heq | ⟨hold, hnew⟩
  · rw [heq]
  · rw [hold, hnew]
    rfl

omit [Fintype T] in
theorem advance_others
    (hstep : advance s t = some s') {x : T} (hx : x ≠ t) :
    s'.pc x = s.pc x := by
  unfold advance at hstep
  cases hpc : s.pc t <;> simp only [hpc, Option.some.injEq, reduceCtorEq] at hstep
  all_goals
    subst hstep
    exact goto_pc_of_ne _ _ hx

theorem remaining_advance
    (hex : Exclusive s) (hstep : advance s t = some s') :
    s'.remaining < s.remaining := by
  have hs := advance_stepBy hstep
  have hsum := hs.turns_sum
  have hmoves : s.pc t ≠ .outside ∧ s.pc t ≠ .asleep := by
    constructor <;> intro hpc <;> simp [advance, hpc] at hstep
  rcases hs.move.progress hex.word hmoves.1 hmoves.2 with
    hturn | ⟨hword, hturns, hrank⟩
  · refine lexMeasure_lt_of_high s'.rank_le ?_
    unfold State.turns
    omega
  · -- the word stays, so the ranks of the other threads do
    have hranks : s'.rank + (s.pc t).rank s.word =
        s.rank + (s'.pc t).rank s.word := by
      unfold State.rank
      rw [hword]
      apply threadSum_of_others
      intro x hx
      rw [advance_others hstep hx]
    have hhigh : s'.turns = s.turns := by
      unfold State.turns
      rw [hword]
      omega
    unfold State.remaining lexMeasure
    rw [hhigh]
    omega

theorem remaining_wake
    {woken : Option T} (hex : Exclusive s)
    (hstep : step s (.wake t woken) = some s') :
    s'.remaining < s.remaining := by
  have hs : StepBy t s s' := stepBy_thread hstep
  have hpc : s.pc t = .unlockWake := by
    cases woken <;>
      simp only [step, Option.ite_none_right_eq_some] at hstep <;>
      exact hstep.1.1
  have hsum := hs.turns_sum
  refine lexMeasure_lt_of_high s'.rank_le ?_
  rcases hs.move.progress hex.word (by simp [hpc]) (by simp [hpc]) with
    hturn | ⟨-, -, hrank⟩
  · unfold State.turns
    omega
  · simp [hpc, Pc.rank] at hrank

theorem remaining_spurious (hstep : step s (.spurious t) = some s') :
    s'.remaining ≤ s.remaining + 3 := by
  simp only [step, Option.ite_none_right_eq_some, Option.some.injEq] at hstep
  obtain ⟨hpc, rfl⟩ := hstep
  have hturns := threadSum_update Pc.turns s.pc t .loopRetry
  have hrank := threadSum_update (Pc.rank s.word) s.pc t .loopRetry
  have hretry : Pc.rank s.word .loopRetry ≤ 3 := by
    simp only [Pc.rank]
    split_ifs <;> omega
  rw [hpc] at hturns hrank
  have hhigh : (s.goto t .loopRetry).turns = s.turns := by
    simp only [State.turns, State.goto, Pc.turns] at hturns ⊢
    omega
  have hlow : (s.goto t .loopRetry).rank ≤ s.rank + 3 := by
    simp only [State.rank, State.goto, Pc.rank] at hrank hretry ⊢
    omega
  unfold State.remaining lexMeasure
  rw [hhigh]
  omega

/-- Without new calls every access lowers the measure, and a spurious return
raises it by at most 3. -/
theorem remaining_step
    {a : Action T} (hex : Exclusive s) (hcall : a.isCall = false)
    (hstep : step s a = some s') :
    s'.remaining + 1 ≤ s.remaining + if a.isSpurious then 3 + 1 else 0 := by
  cases a with
  | lock | tryLock => cases hcall
  | advance t => exact remaining_advance hex hstep
  | wake t woken => exact remaining_wake hex hstep
  | spurious t =>
      have hle := remaining_spurious hstep
      simp only [Action.isSpurious, if_true]
      omega

/-! ## Where it ends -/

/-- A thread inside a call or a critical section that does not sleep has a
step. -/
theorem exists_step
    (hout : s.pc t ≠ .outside) (hawake : s.pc t ≠ .asleep) :
    ∃ a : Action T, a.isCall = false ∧ a.isSpurious = false ∧
      (step s a).isSome := by
  by_cases hwake : s.pc t = .unlockWake
  · by_cases hsleeper : ∃ x, s.pc x = .asleep
    · obtain ⟨x, hx⟩ := hsleeper
      exact ⟨.wake t (some x), rfl, rfl, by simp [step, hwake, hx]⟩
    · push Not at hsleeper
      exact ⟨.wake t none, rfl, rfl, by simp [step, hwake, hsleeper]⟩
  · refine ⟨.advance t, rfl, rfl, ?_⟩
    cases hpc : s.pc t <;> simp_all [step, advance]

/-- Where only new calls and spurious returns are possible, no call is under
way and the mutex is free. -/
theorem settled_of_stuck
    (hs : (mutexSystem T).Reachable s)
    (hstuck : ∀ a : Action T, a.isCall = false → a.isSpurious = false →
      step s a = none) :
    (∀ t, s.pc t = .outside) ∧ s.word = 0 := by
  have hpc : ∀ t, s.pc t = .outside ∨ s.pc t = .asleep := by
    intro t
    by_contra hinside
    push Not at hinside
    obtain ⟨a, hcall, hspurious, hsome⟩ := exists_step hinside.1 hinside.2
    simp [hstuck a hcall hspurious] at hsome
  have hnotOwns : ∀ t, ¬(s.pc t).Owns := by
    intro t
    rcases hpc t with h | h <;> simp [h, Pc.Owns]
  have hword : s.word = 0 := (exclusive_of_reachable hs).free.mpr hnotOwns
  refine ⟨fun t => (hpc t).resolve_right fun hasleep => ?_, hword⟩
  -- nobody is left who could wake the sleeper
  rcases noLostWakeup_of_reachable hs ⟨t, hasleep⟩ with
    htwo | ⟨x, hx⟩ | ⟨x, hx⟩
  · omega
  · rcases hpc x with h | h <;> simp [h, Pc.OwesWake] at hx
  · rcases hpc x with h | h <;> simp [h, Pc.InSlowLoop] at hx

/-- From any reachable state on, a schedule without new calls is at most
quadratic in the number of threads, up to four steps for each spurious return
of `FUTEX_WAIT`, and wherever it cannot be continued every call has returned,
the mutex is free and the counter is exact. -/
theorem mutex_settles
    (hs : (mutexSystem T).Reachable s) {as : List (Action T)}
    (hcalls : ∀ a ∈ as, a.isCall = false)
    (hrun : (mutexSystem T).run s as = some s') :
    as.length ≤
        (4 * Fintype.card T + 1) * (8 * Fintype.card T + 1) +
          4 * Fintype.card T + 4 * as.countP Action.isSpurious ∧
      ((∀ a : Action T, a.isCall = false → a.isSpurious = false →
          step s' a = none) →
        (∀ t, s'.pc t = .outside) ∧ s'.word = 0 ∧
          s'.counter = BitVec.ofNat 32 (∑ t, s'.increments t)) := by
  constructor
  · have hallowed : (mutexSystem T).RunAllowed
        (fun _ a => a.isCall = false) s as :=
      TransitionSystem.runAllowed_of_mem hcalls s
    have hbound := TransitionSystem.length_le_of_measure
      (I := (mutexSystem T).Reachable) State.remaining Action.isSpurious 3
      (fun s₁ a s₂ hs₁ hcall hstep => ⟨hs₁.step trivial hstep,
        remaining_step (exclusive_of_reachable hs₁) hcall hstep⟩)
      hs hallowed hrun
    have hle := s.remaining_le
    omega
  · intro hstuck
    have hs' := hs.run hrun
    obtain ⟨hout, hword⟩ := settled_of_stuck hs' hstuck
    exact ⟨hout, hword, (counterExact_of_reachable hs').total⟩

/-- The unlock of thread `t` and the whole call of the thread `u` that it
wakes. -/
def wakeupSchedule (t u : T) : List (Action T) :=
  [.advance t, .advance t, .wake t (some u), .advance u, .advance u,
    .advance u, .advance u, .advance u, .wake u none]

theorem wakeupSchedule_run :
    ∃ s s', (mutexSystem (Fin 2)).run mutexInit contendedSchedule = some s ∧
      (mutexSystem (Fin 2)).run s (wakeupSchedule 0 1) = some s' ∧
      s.pc 1 = .asleep ∧ s'.pc 0 = .outside ∧ s'.pc 1 = .outside :=
  ⟨_, _, rfl, rfl, rfl, rfl, rfl⟩

theorem mutex_settles_wakeup :
    ∃ s s' : State (Fin 2), s.pc 1 = .asleep ∧
      (mutexSystem (Fin 2)).run s (wakeupSchedule 0 1) = some s' ∧
      s'.word = 0 ∧ s'.counter = BitVec.ofNat 32 (∑ t, s'.increments t) := by
  obtain ⟨s, s', hrun, hrun', hasleep, h0, h1⟩ := wakeupSchedule_run
  have hs := TransitionSystem.Reachable.run mutexInit_reachable hrun
  have hcalls : ∀ a ∈ wakeupSchedule (0 : Fin 2) 1, a.isCall = false := by
    simp [wakeupSchedule, Action.isCall]
  have hout : ∀ t, s'.pc t = .outside := by
    rw [Fin.forall_fin_two]
    exact ⟨h0, h1⟩
  have hmain := (mutex_settles hs hcalls hrun').2 fun a _ _ => by
    cases a with
    | wake t woken => cases woken <;> simp [step, hout]
    | lock | tryLock => simp_all [Action.isCall]
    | advance | spurious => simp [step, advance, hout]
  exact ⟨s, s', hasleep, hrun', hmain.2⟩

end Mutex
end OsFifthSem
