import OsFifthSem.Sync.Mutex.Exclusion

/-!
# No lost wake-up in the futex mutex

A thread sleeps only after it saw the word 2.  The word leaves 2 only in
`mutex_unlock`, whose thread then owes a `FUTEX_WAKE`, and that call moves a
sleeper into the loop of `mutex_lock`.  A thread awake in the loop leaves it
only by writing 2 or by seeing 2.  So the duty to wake is handed from thread
to thread, although a fast locker or `mutex_trylock` may write 1 meanwhile.
-/

namespace OsFifthSem
namespace Mutex

open Support

variable {T : Type*} [DecidableEq T]

/-- Somebody is bound to wake a sleeper: the word is 2, or a thread is about
to issue its `FUTEX_WAKE`, or a thread is awake in the loop of
`mutex_lock`. -/
def WakeupDue (s : State T) : Prop :=
  s.word = 2 ∨ (∃ t, (s.pc t).OwesWake) ∨ ∃ t, (s.pc t).InSlowLoop

/-- Sleepers never wait in vain. -/
def NoLostWakeup (s : State T) : Prop :=
  (∃ t, s.pc t = .asleep) → WakeupDue s

/-! ## How a move passes on the duty -/

/-- The word leaves 2 only together with an obligation to wake. -/
theorem Move.owesWake_of_two
    {p q : Pc} {w' : ℤ} (hm : Move p 2 q w') :
    w' = 2 ∨ q.OwesWake := by
  cases hm <;> simp [Pc.OwesWake]

/-- An obligation to wake is kept until the `FUTEX_WAKE`. -/
theorem Move.owesWake
    {p q : Pc} {w w' : ℤ} (hm : Move p w q w') (hp : p.OwesWake) :
    p = .unlockWake ∨ q.OwesWake := by
  cases hm <;> simp_all [Pc.OwesWake]

/-- A thread leaves the loop of `mutex_lock`, to acquire or to sleep, only
with the word 2. -/
theorem Move.inSlowLoop
    {p q : Pc} {w w' : ℤ} (hm : Move p w q w') (hp : p.InSlowLoop) :
    q.InSlowLoop ∨ w' = 2 := by
  cases hm <;> simp_all [Pc.InSlowLoop]

/-- A thread falls asleep only with the word 2. -/
theorem Move.asleep
    {p w w'} (hm : Move p w .asleep w') : w' = 2 := by
  cases hm
  rfl

theorem NoLostWakeup.step
    {s s' : State T} {t : T} (hinv : NoLostWakeup s) (hs : StepBy t s s') :
    NoLostWakeup s' := by
  rintro ⟨u, hu⟩
  -- a thread awake in the loop stays there or leaves 2 behind
  have hslow : ∀ v, (s.pc v).InSlowLoop → WakeupDue s' := by
    intro v hv
    by_cases hvt : v = t
    · subst hvt
      rcases hs.move.inSlowLoop hv with hq | hw
      · exact Or.inr (Or.inr ⟨v, hq⟩)
      · exact Or.inl hw
    · rcases hs.others v hvt with heq | ⟨hold, -⟩
      · exact Or.inr (Or.inr ⟨v, heq ▸ hv⟩)
      · simp [hold, Pc.InSlowLoop] at hv
  have howes : ∀ v, (s.pc v).OwesWake → (∃ x, s.pc x = .asleep) →
      WakeupDue s' := by
    intro v hv hsleeper
    by_cases hvt : v = t
    · subst hvt
      rcases hs.move.owesWake hv with hwake | hq
      · obtain ⟨x, hx⟩ := hs.wakes hwake hsleeper
        exact Or.inr (Or.inr ⟨x, by simp [hx, Pc.InSlowLoop]⟩)
      · exact Or.inr (Or.inl ⟨v, hq⟩)
    · rcases hs.others v hvt with heq | ⟨hold, -⟩
      · exact Or.inr (Or.inl ⟨v, heq ▸ hv⟩)
      · simp [hold, Pc.OwesWake] at hv
  by_cases hut : u = t
  · subst hut
    exact Or.inl (hu ▸ hs.move).asleep
  · have hsleeper : s.pc u = .asleep := by
      rcases hs.others u hut with heq | ⟨-, hnew⟩
      · exact heq ▸ hu
      · simp [hnew] at hu
    rcases hinv ⟨u, hsleeper⟩ with hword | ⟨v, hv⟩ | ⟨v, hv⟩
    · rcases (hword ▸ hs.move).owesWake_of_two with hw | hq
      · exact Or.inl hw
      · exact Or.inr (Or.inl ⟨t, hq⟩)
    · exact howes v hv ⟨u, hsleeper⟩
    · exact hslow v hv

theorem noLostWakeup_of_reachable [Fintype T]
    {s : State T} (hs : (mutexSystem T).Reachable s) : NoLostWakeup s := by
  refine TransitionSystem.ReachableUnder.invariant ?_ ?_ hs
  · rintro s rfl ⟨t, ht⟩
    simp [mutexInit] at ht
  · intro s a s' hinv _ hstep
    obtain ⟨t, ht⟩ := exists_stepBy hstep
    exact hinv.step ht

/-- In every reachable state with a sleeper the word is 2, and then some
thread still has to unlock, or a thread owes a `FUTEX_WAKE`, or a thread is
awake in the loop of `mutex_lock`, which it leaves only with the word 2.  In
particular no sleeper is left behind with the mutex free and every other
thread outside `mutex_lock` and `mutex_unlock`. -/
theorem mutex_noLostWakeup [Fintype T]
    {s : State T} (hs : (mutexSystem T).Reachable s) :
    ((∃ t, s.pc t = .asleep) →
      (s.word = 2 ∧ ∃ t, (s.pc t).Holds ∨ (s.pc t).OwesWake) ∨
        (∃ t, (s.pc t).OwesWake) ∨ ∃ t, (s.pc t).InSlowLoop) ∧
      (∀ a s' t, step s a = some s' → (s.pc t).InSlowLoop →
        ¬(s'.pc t).InSlowLoop → s'.word = 2) ∧
      ¬((∃ t, s.pc t = .asleep) ∧ s.word = 0 ∧
        ∀ t, s.pc t ≠ .asleep → s.pc t = .outside) := by
  have hinv := noLostWakeup_of_reachable hs
  refine ⟨?_, ?_, ?_⟩
  · intro hsleeper
    rcases hinv hsleeper with hword | hdue
    · have hex := exclusive_of_reachable hs
      have howned : ∃ t, (s.pc t).Owns := by
        by_contra hnone
        push Not at hnone
        have h0 := hex.free.mpr hnone
        omega
      obtain ⟨t, ht⟩ := howned
      exact Or.inl ⟨hword, t, ht.holds_or_owesWake⟩
    · exact Or.inr hdue
  · intro a s' t hstep hslow hleft
    obtain ⟨u, hu⟩ := exists_stepBy hstep
    by_cases htu : t = u
    · subst htu
      exact (hu.move.inSlowLoop hslow).resolve_left hleft
    · rcases hu.others t htu with heq | ⟨hold, -⟩
      · exact absurd (heq ▸ hslow) hleft
      · simp [hold, Pc.InSlowLoop] at hslow
  · rintro ⟨hsleeper, h0, hout⟩
    have hpc : ∀ t, s.pc t = .asleep ∨ s.pc t = .outside := fun t =>
      or_iff_not_imp_left.mpr (hout t)
    rcases hinv hsleeper with hword | ⟨t, ht⟩ | ⟨t, ht⟩
    · omega
    · rcases hpc t with h | h <;> simp [h, Pc.OwesWake] at ht
    · rcases hpc t with h | h <;> simp [h, Pc.InSlowLoop] at ht

/-- Thread 1 sleeps and thread 0 is between the two writes of its unlock
when thread 2 marks the word again: the wake-up is owed by thread 0. -/
def handoverSchedule : List (Action (Fin 3)) :=
  [.lock 0, .advance 0, .advance 0, .lock 1, .advance 1, .advance 1,
    .advance 1, .advance 1, .advance 0, .advance 0, .lock 2, .advance 2,
    .advance 2, .advance 2]

theorem handoverSchedule_run :
    ∃ s, (mutexSystem (Fin 3)).run mutexInit handoverSchedule = some s ∧
      s.pc 0 = .unlockStore ∧ s.pc 1 = .asleep ∧ s.pc 2 = .futexWait ∧
      s.word = 2 :=
  ⟨_, rfl, rfl, rfl, rfl, rfl⟩

theorem mutex_noLostWakeup_handover :
    ∃ s : State (Fin 3), s.pc 0 = .unlockStore ∧ s.pc 1 = .asleep ∧
      ((s.word = 2 ∧ ∃ t, (s.pc t).Holds ∨ (s.pc t).OwesWake) ∨
        (∃ t, (s.pc t).OwesWake) ∨ ∃ t, (s.pc t).InSlowLoop) := by
  obtain ⟨s, hrun, h0, h1, -, -⟩ := handoverSchedule_run
  have hs := TransitionSystem.Reachable.run mutexInit_reachable hrun
  exact ⟨s, h0, h1, (mutex_noLostWakeup hs).1 ⟨1, h1⟩⟩

end Mutex
end OsFifthSem
