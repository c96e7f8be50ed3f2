import OsFifthSem.Sync.LockObject
import OsFifthSem.Sync.Spinlock

/-!
# The spinlock is an atomic lock

The callers of `spinlock_lock`, `spinlock_trylock` and `spinlock_unlock` see
the same lock as those of the futex mutex: every call takes effect with its
last compare-and-swap and returns at once.
-/

namespace OsFifthSem
namespace Spinlock

open Support

variable {T : Type*}

/-- Where a thread stands in its call of the lock. -/
def Pc.callPhase : Pc → CallPhase LockCall ℤ
  | .outside | .counterRead | .counterWrite _ => .idle
  | .lockCas => .called .lock
  | .tryCas => .called .tryLock
  | .unlockCas => .called .unlock

/-- What the atomic access at `p` shows when the lock is `value`: the value
that a function returns with it, and the call of `spinlock_unlock` behind the
increment. -/
def Pc.events (t : T) (value : ℤ) : Pc → List (CallEvent T LockCall ℤ)
  | .lockCas =>
      match spinlockLock (syncValCompareAndSwap value 0 1).1 with
      | none => []
      | some r => [.answer t r]
  | .tryCas =>
      [.answer t (spinlockTrylock (syncValCompareAndSwap value 0 1).1)]
  | .counterWrite _ => [.call t .unlock]
  | .unlockCas =>
      [.answer t (spinlockUnlock (syncValCompareAndSwap value 1 0).1)]
  | .outside | .counterRead => []

/-- The calls and answers seen of a step. -/
def observed (s : State T) : Action T → List (CallEvent T LockCall ℤ)
  | .lock t => [.call t .lock]
  | .tryLock t => [.call t .tryLock]
  | .advance t => (s.pc t).events t s.isAcquired

/-- The holder of the atomic lock is inside, the lock is 1 exactly while there
is one, and the threads stand where their program points say. -/
structure Refines (s : State T)
    (u : AtomicState T LockCall ℤ (Option T)) : Prop where
  owner : Owned Pc.holds u.value s.pc
  word : s.isAcquired = if u.value = none then 0 else 1
  phase : ∀ t, u.phase t = (s.pc t).callPhase

variable {s s' : State T} {t : T} {q : Pc} {a : Action T}
  {u : AtomicState T LockCall ℤ (Option T)}

namespace Refines

theorem phase_at (href : Refines s u) (hpc : s.pc t = q) :
    u.phase t = q.callPhase := by
  rw [href.phase t, hpc]

/-- A thread inside is the holder. -/
theorem held (href : Refines s u) (hpc : s.pc t = q) (hq : q.holds = true) :
    u.value = some t :=
  (href.owner t).mp (hpc ▸ hq)

variable [DecidableEq T]

/-- Thread `t` goes to `q`, and both locks change in the same way. -/
theorem move
    (href : Refines s u) {owner : Option T}
    {phase : T → CallPhase LockCall ℤ}
    (hpc : s'.pc = Function.update s.pc t q)
    (howner : Owned Pc.holds owner (Function.update s.pc t q))
    (hword : s'.isAcquired = if owner = none then 0 else 1)
    (hphase : phase = Function.update u.phase t q.callPhase) :
    Refines s' { value := owner, phase := phase } := by
  refine ⟨hpc ▸ howner, hword, fun x => ?_⟩
  rw [hpc]
  subst hphase
  by_cases hx : x = t
  · subst hx
    simp
  · simp [hx, href.phase x]

/-- A call made or a step in the critical section. -/
theorem keep
    (href : Refines s u) {phase : T → CallPhase LockCall ℤ}
    (hpc : s'.pc = Function.update s.pc t q)
    (hholds : q.holds = (s.pc t).holds)
    (hword : s'.isAcquired = s.isAcquired)
    (hphase : phase = Function.update u.phase t q.callPhase) :
    Refines s' { u with phase := phase } :=
  href.move hpc (href.owner.keep hholds) (hword.trans href.word) hphase

theorem advance
    (href : Refines s u) (hstep : Spinlock.advance s t = some s') :
    ∃ u', (lockObject T).Explains u ((s.pc t).events t s.isAcquired) u' ∧
      Refines s' u' := by
  rw [Spinlock.advance] at hstep
  have hword := href.word
  cases hpc : s.pc t with
  | outside => simp [hpc] at hstep
  | counterRead =>
      obtain rfl : _ = s' := by simpa [hpc] using hstep
      refine ⟨_, .silent u, href.keep (q := .counterWrite s.counter) rfl
        (by rw [hpc]; rfl) rfl ?_⟩
      have hidle : u.phase t = .idle := href.phase_at hpc
      change u.phase = Function.update u.phase t .idle
      rw [← hidle, Function.update_eq_self]
  | counterWrite v =>
      obtain rfl : _ = s' := by simpa [hpc] using hstep
      exact ⟨_, .call (href.phase_at hpc) .unlock,
        href.keep rfl (by rw [hpc]; rfl) rfl rfl⟩
  | lockCas =>
      rcases hvalue : u.value with - | x
      · -- the lock is free
        rw [hvalue, if_pos rfl] at hword
        obtain rfl : _ = s' := by
          simpa [hpc, syncValCompareAndSwap, spinlockLock, hword] using hstep
        refine ⟨{ value := some t, phase := Function.update u.phase t .idle },
          ?_, href.move rfl (href.owner.acquire hvalue rfl) rfl rfl⟩
        simpa [Pc.events, syncValCompareAndSwap, spinlockLock, hword] using
          AtomicObject.Explains.effect_answer (href.phase_at hpc)
            (hvalue ▸ lockObject_lock t)
      · rw [hvalue, if_neg (by simp)] at hword
        have hsame : { s with isAcquired := 1 } = s := by rw [← hword]
        obtain rfl : s = s' := by
          simpa [hpc, syncValCompareAndSwap, spinlockLock, hword, hsame]
            using hstep
        refine ⟨u, ?_, href⟩
        simpa [Pc.events, syncValCompareAndSwap, spinlockLock, hword] using
          AtomicObject.Explains.silent u
  | tryCas =>
      rcases hvalue : u.value with - | x
      · rw [hvalue, if_pos rfl] at hword
        obtain rfl : _ = s' := by
          simpa [hpc, syncValCompareAndSwap, spinlockTrylock, slBusy, hword]
            using hstep
        refine ⟨{ value := some t, phase := Function.update u.phase t .idle },
          ?_, href.move rfl (href.owner.acquire hvalue rfl) rfl rfl⟩
        simpa [Pc.events, syncValCompareAndSwap, spinlockTrylock, hword] using
          AtomicObject.Explains.effect_answer (href.phase_at hpc)
            (hvalue ▸ lockObject_tryLock_free t)
      · -- some thread holds the lock
        rw [hvalue, if_neg (by simp)] at hword
        have hsame : { s with isAcquired := 1 } = s := by rw [← hword]
        obtain rfl : s.returns t .tryLock slBusy .outside = s' := by
          simpa [hpc, syncValCompareAndSwap, spinlockTrylock, hword, hsame]
            using hstep
        have happly : (lockObject T).apply u.value t .tryLock =
            some (0, u.value) := by rw [hvalue, lockObject_tryLock_busy]
        refine ⟨{ u with phase := Function.update u.phase t .idle }, ?_,
          href.keep rfl (by rw [hpc]; rfl) rfl rfl⟩
        simpa [Pc.events, syncValCompareAndSwap, spinlockTrylock, slBusy,
          hword] using
          AtomicObject.Explains.effect_answer (href.phase_at hpc) happly
  | unlockCas =>
      have hvalue : u.value = some t := href.held hpc rfl
      rw [hvalue, if_neg (by simp)] at hword
      obtain rfl : _ = s' := by
        simpa [hpc, syncValCompareAndSwap, spinlockUnlock, hword] using hstep
      refine ⟨{ value := none, phase := Function.update u.phase t .idle }, ?_,
        href.move rfl (href.owner.release (by rw [hpc]; rfl) rfl) rfl rfl⟩
      simpa [Pc.events, syncValCompareAndSwap, spinlockUnlock, hword] using
        AtomicObject.Explains.effect_answer (href.phase_at hpc)
          (hvalue ▸ lockObject_unlock t)

theorem step (href : Refines s u) (hstep : Spinlock.step s a = some s') :
    ∃ u', (lockObject T).Explains u (observed s a) u' ∧ Refines s' u' := by
  cases a with
  | advance t => exact href.advance hstep
  | lock t =>
      simp only [Spinlock.step, Option.ite_none_right_eq_some,
        Option.some.injEq] at hstep
      obtain ⟨hpc, rfl⟩ := hstep
      exact ⟨_, .call (href.phase_at hpc) .lock,
        href.keep rfl (by rw [hpc]; rfl) rfl rfl⟩
  | tryLock t =>
      simp only [Spinlock.step, Option.ite_none_right_eq_some,
        Option.some.injEq] at hstep
      obtain ⟨hpc, rfl⟩ := hstep
      exact ⟨_, .call (href.phase_at hpc) .tryLock,
        href.keep rfl (by rw [hpc]; rfl) rfl rfl⟩

end Refines

/-- Whatever the callers see of a run of any number of threads is seen of the
atomic lock. -/
theorem spinlock_linearizable (T : Type*) [DecidableEq T] :
    (lockObject T).Linearizable (spinlockSystem T) (fun _ _ => True)
      observed := by
  refine AtomicObject.linearizable_of_relation Refines ?_ ?_
  · rintro s rfl
    exact ⟨fun t => by simp [spinlockInit, Pc.holds], rfl, fun t => rfl⟩
  · intro s u a s' _ href _ hstep
    exact href.step hstep

end Spinlock
end OsFifthSem
