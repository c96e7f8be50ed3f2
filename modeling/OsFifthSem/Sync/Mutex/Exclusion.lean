import OsFifthSem.Support.ThreadSum
import OsFifthSem.Sync.Mutex.Model

/-!
# Mutual exclusion of the futex mutex

A thread owns the word from its acquisition until the word is 0 again.  This
is longer than it holds the mutex: an unlock that finds waiters first writes
`state - 1` and only then 0, and in between another thread may write 2.  The
invariant says that the owner is unique and that the word is 0 exactly when
there is none.
-/

namespace OsFifthSem
namespace Mutex

open Support

/-- The thread acquired the mutex and has not yet written 0 to the word. -/
def Pc.Owns : Pc → Prop
  | .counterRead | .counterWrite _ | .unlockSub | .unlockStore => True
  | .outside | .lockFast | .loopTest _ | .loopMark | .futexWait | .asleep
  | .loopRetry | .tryFast | .unlockWake => False

theorem Pc.Holds.owns {p : Pc} (hp : p.Holds) : p.Owns := by
  cases p <;> trivial

theorem Pc.Owns.holds_or_owesWake {p : Pc} (hp : p.Owns) :
    p.Holds ∨ p.OwesWake := by
  cases p <;> simp_all [Pc.Owns, Pc.Holds, Pc.OwesWake]

/-- The three values that `mutex.h` gives a meaning to. -/
def IsMutexWord (w : ℤ) : Prop :=
  w = 0 ∨ w = 1 ∨ w = 2

/-! ## What a move does to ownership -/

/-- A move starts to own the word only where it finds 0, and leaves a word
other than 0 behind. -/
theorem Move.acquire
    {p q : Pc} {w w' : ℤ} (hm : Move p w q w')
    (hp : ¬p.Owns) (hq : q.Owns) : w = 0 ∧ (w' = 1 ∨ w' = 2) := by
  cases hm <;> simp_all [Pc.Owns]

/-- A move gives up the word only by writing 0. -/
theorem Move.release
    {p q : Pc} {w w' : ℤ} (hm : Move p w q w')
    (hp : p.Owns) (hq : ¬q.Owns) : w' = 0 := by
  cases hm <;> simp_all [Pc.Owns]

/-- A move that neither acquires nor releases keeps a free word free and a
taken word taken. -/
theorem Move.word_of_owns_iff
    {p q : Pc} {w w' : ℤ} (hm : Move p w q w') (hw : IsMutexWord w)
    (hiff : p.Owns ↔ q.Owns) (hfree : w = 0 → ¬p.Owns) :
    IsMutexWord w' ∧ (w' = 0 ↔ w = 0) := by
  cases hm <;> simp_all [Pc.Owns, IsMutexWord]

theorem Move.isMutexWord
    {p q : Pc} {w w' : ℤ} (hm : Move p w q w') (hw : IsMutexWord w)
    (hfree : w = 0 → ¬p.Owns) : IsMutexWord w' := by
  by_cases hp : p.Owns
  · by_cases hq : q.Owns
    · exact (hm.word_of_owns_iff hw (by simp [hp, hq]) hfree).1
    · exact Or.inl (hm.release hp hq)
  · by_cases hq : q.Owns
    · exact Or.inr (hm.acquire hp hq).2
    · exact (hm.word_of_owns_iff hw (by simp [hp, hq]) hfree).1

/-! ## The invariant -/

variable {T : Type*}

/-- The word has at most one owner, and is 0 exactly when it has none. -/
structure Exclusive (s : State T) : Prop where
  word : IsMutexWord s.word
  free : s.word = 0 ↔ ∀ t, ¬(s.pc t).Owns
  unique : ∀ t u, (s.pc t).Owns → (s.pc u).Owns → t = u

theorem exclusive_mutexInit : Exclusive (mutexInit : State T) where
  word := Or.inl rfl
  free := by simp [mutexInit, Pc.Owns]
  unique := by
    intro t u ht
    exact ht.elim

variable [DecidableEq T]

theorem StepBy.owns_other_iff
    {s s' : State T} {t u : T} (hs : StepBy t s s') (hu : u ≠ t) :
    (s'.pc u).Owns ↔ (s.pc u).Owns := by
  rcases hs.others u hu with heq | ⟨hold, hnew⟩
  · rw [heq]
  · simp [hold, hnew, Pc.Owns]

theorem Exclusive.step
    {s s' : State T} {t : T} (hinv : Exclusive s) (hs : StepBy t s s') :
    Exclusive s' := by
  have hfreeT : s.word = 0 → ¬(s.pc t).Owns := fun h => hinv.free.mp h t
  -- the owner after the step is the acting thread or an owner from before
  have howner : ∀ u, (s'.pc u).Owns → u = t ∨ (s.pc u).Owns := by
    intro u hu
    by_cases hut : u = t
    · exact Or.inl hut
    · exact Or.inr ((hs.owns_other_iff hut).mp hu)
  refine ⟨hs.move.isMutexWord hinv.word hfreeT, ?_, ?_⟩
  · by_cases hp : (s.pc t).Owns
    · by_cases hq : (s'.pc t).Owns
      · have hword := (hs.move.word_of_owns_iff hinv.word
          (by simp [hp, hq]) hfreeT).2
        constructor
        · intro h0
          exact absurd hp (hfreeT (hword.mp h0))
        · intro hnone
          exact absurd hq (hnone t)
      · refine iff_of_true (hs.move.release hp hq) ?_
        intro u hu
        rcases howner u hu with rfl | hold
        · exact hq hu
        · exact hq (hinv.unique u t hold hp ▸ hu)
    · by_cases hq : (s'.pc t).Owns
      · have hword := (hs.move.acquire hp hq).2
        refine iff_of_false (by omega) ?_
        intro hnone
        exact hnone t hq
      · have hword := (hs.move.word_of_owns_iff hinv.word
          (by simp [hp, hq]) hfreeT).2
        rw [hword, hinv.free]
        refine forall_congr' fun u => ?_
        by_cases hut : u = t
        · subst hut
          simp [hp, hq]
        · rw [hs.owns_other_iff hut]
  · intro u v hu hv
    -- a new owner is the acting thread, and it found the word free
    have hacquired : ¬(s.pc t).Owns → (s'.pc t).Owns →
        ∀ x, ¬(s.pc x).Owns := by
      intro hp hq
      exact hinv.free.mp (hs.move.acquire hp hq).1
    rcases howner u hu with rfl | hu'
    · rcases howner v hv with rfl | hv'
      · rfl
      · by_contra hne
        refine hacquired (fun hp => hne (hinv.unique _ _ hp hv')) hu v hv'
    · rcases howner v hv with rfl | hv'
      · by_contra hne
        refine hacquired (fun hp => hne (hinv.unique _ _ hu' hp)) hv u hu'
      · exact hinv.unique u v hu' hv'

theorem exclusive_of_reachable [Fintype T]
    {s : State T} (hs : (mutexSystem T).Reachable s) : Exclusive s := by
  refine TransitionSystem.ReachableUnder.invariant ?_ ?_ hs
  · rintro s rfl
    exact exclusive_mutexInit
  · intro s a s' hinv _ hstep
    obtain ⟨t, ht⟩ := exists_stepBy hstep
    exact hinv.step ht

/-! ## The counter -/

variable [Fintype T]

/-- The counter is the number of completed increments, and a thread between
the read and the write of `counter++` has read its present value. -/
structure CounterExact (s : State T) : Prop where
  value : ∀ t v, s.pc t = .counterWrite v → v = s.counter
  total : s.counter = BitVec.ofNat 32 (∑ t, s.increments t)

omit [DecidableEq T] in
theorem counterExact_mutexInit : CounterExact (mutexInit : State T) where
  value := by
    intro t v h
    simp [mutexInit] at h
  total := by simp [mutexInit]

theorem CounterExact.step
    {s s' : State T} {t : T} (hinv : CounterExact s) (hex : Exclusive s)
    (hs : StepBy t s s') : CounterExact s' := by
  have hother : ∀ u v, u ≠ t → s'.pc u = .counterWrite v →
      s.pc u = .counterWrite v := by
    intro u v hu hv
    rcases hs.others u hu with heq | ⟨-, hnew⟩
    · exact heq ▸ hv
    · simp [hnew] at hv
  by_cases hwrite : ∃ v, s.pc t = .counterWrite v
  · obtain ⟨v, hv⟩ := hwrite
    obtain ⟨hcounter, hincr⟩ := hs.writes v hv
    have hvalue : v = s.counter := hinv.value t v hv
    constructor
    · intro u v' hu
      by_cases hut : u = t
      · subst hut
        have hmove := hs.move
        rw [hv, hu] at hmove
        cases hmove
      · -- two threads inside the critical section
        have hu' := hother u v' hut hu
        exact absurd (hex.unique u t (by simp [hu', Pc.Owns])
          (by simp [hv, Pc.Owns])) hut
    · rw [hcounter, hincr, sum_update_succ, hvalue, hinv.total]
      simp [BitVec.ofNat_add]
  · obtain ⟨hcounter, hincr⟩ := hs.keeps fun v hv => hwrite ⟨v, hv⟩
    constructor
    · intro u v hu
      rw [hcounter]
      by_cases hut : u = t
      · subst hut
        exact hs.reads v hu
      · exact hinv.value u v (hother u v hut hu)
    · rw [hcounter, hincr, hinv.total]

theorem counterExact_of_reachable
    {s : State T} (hs : (mutexSystem T).Reachable s) : CounterExact s := by
  refine TransitionSystem.ReachableUnder.invariant_of ?_ ?_ hs
  · rintro s rfl
    exact counterExact_mutexInit
  · intro s a s' hreach hinv _ hstep
    obtain ⟨t, ht⟩ := exists_stepBy hstep
    exact hinv.step (exclusive_of_reachable hreach) ht

/-- In every reachable state at most one thread is between its acquisition
and the fetch_sub of its unlock, the word is 0, 1 or 2, and it is 0 only
while no thread holds the mutex.  The counter is the number of increments,
so after `iterations` rounds of every thread none is lost. -/
theorem mutex_mutualExclusion
    {s : State T} (hs : (mutexSystem T).Reachable s) :
    (∀ t u, (s.pc t).Holds → (s.pc u).Holds → t = u) ∧
      (s.word = 0 ∨ s.word = 1 ∨ s.word = 2) ∧
      (s.word = 0 → ∀ t, ¬(s.pc t).Holds) ∧
      s.counter = BitVec.ofNat 32 (∑ t, s.increments t) ∧
      ∀ iterations, (∀ t, s.increments t = iterations) →
        s.counter = BitVec.ofNat 32 (Fintype.card T * iterations) := by
  have hex := exclusive_of_reachable hs
  have hcount := (counterExact_of_reachable hs).total
  refine ⟨?_, hex.word, ?_, hcount, ?_⟩
  · intro t u ht hu
    exact hex.unique t u ht.owns hu.owns
  · intro h0 t ht
    exact hex.free.mp h0 t ht.owns
  · intro iterations hall
    rw [hcount]
    congr 1
    simp [hall]

/-- Thread 0 acquires and increments while thread 1 finds the mutex taken,
marks the word and falls asleep. -/
def contendedSchedule : List (Action (Fin 2)) :=
  [.lock 0, .advance 0, .advance 0, .lock 1, .advance 1, .advance 1,
    .advance 1, .advance 1, .advance 0]

theorem contendedSchedule_run :
    ∃ s, (mutexSystem (Fin 2)).run mutexInit contendedSchedule = some s ∧
      s.pc 0 = .unlockSub ∧ s.pc 1 = .asleep ∧ s.word = 2 ∧
      s.counter = 1 :=
  ⟨_, rfl, rfl, rfl, rfl, rfl⟩

/-- The exclusion statement at the end of `contendedSchedule`. -/
theorem mutex_mutualExclusion_contended :
    ∃ s : State (Fin 2), s.pc 0 = .unlockSub ∧ s.pc 1 = .asleep ∧
      (∀ t u, (s.pc t).Holds → (s.pc u).Holds → t = u) ∧
      s.counter = BitVec.ofNat 32 (∑ t, s.increments t) := by
  obtain ⟨s, hrun, h0, h1, -, -⟩ := contendedSchedule_run
  have hs := TransitionSystem.Reachable.run mutexInit_reachable hrun
  have hmain := mutex_mutualExclusion hs
  exact ⟨s, h0, h1, hmain.1, hmain.2.2.2.1⟩

end Mutex
end OsFifthSem
