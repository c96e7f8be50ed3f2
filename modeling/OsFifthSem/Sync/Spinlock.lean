import OsFifthSem.Support.MutexOwner
import OsFifthSem.Support.Transition

/-!
# The spinlock of `sync/2.4/spinlock`

The model follows `spinlock.c` one compare-and-swap at a time.  A thread
repeatedly calls `spinlock_lock` or `spinlock_trylock`, increments the shared
counter of `tests.c` by a separate read and write, and calls
`spinlock_unlock`.  The threads form an arbitrary finite type.
-/

namespace OsFifthSem
namespace Spinlock

open Support

/-- `ERR_TRY_UNLOCK_NOT_LOCKED`. -/
def errTryUnlockNotLocked : ℤ := -2

/-- `ERR_CAS_FUNC`. -/
def errCasFunc : ℤ := -3

/-- `SLBUSY`. -/
def slBusy : ℤ := 0

/-- `__sync_val_compare_and_swap`: the initial value and the new one. -/
def syncValCompareAndSwap (value oldValue newValue : ℤ) : ℤ × ℤ :=
  if value = oldValue then (value, newValue) else (value, value)

/-- The body of the loop of `spinlock_lock` behind its compare-and-swap: the
value returned, or none when the loop goes on. -/
def spinlockLock (actualValue : ℤ) : Option ℤ :=
  if actualValue ≠ 0 ∧ actualValue ≠ 1 then some errCasFunc
  else if actualValue ≠ 0 then none
  else some 0

/-- `spinlock_trylock` behind its compare-and-swap. -/
def spinlockTrylock (actualValue : ℤ) : ℤ :=
  if actualValue ≠ 0 ∧ actualValue ≠ 1 then errCasFunc
  else if actualValue = 1 then slBusy
  else 1

/-- `spinlock_unlock` behind its compare-and-swap. -/
def spinlockUnlock (actualValue : ℤ) : ℤ :=
  if actualValue ≠ 0 ∧ actualValue ≠ 1 then errCasFunc
  else if actualValue = 0 then errTryUnlockNotLocked
  else 0

/-- The next atomic access of a thread. -/
inductive Pc
  /-- Between two rounds. -/
  | outside
  /-- `spinlock_lock`: its compare-and-swap. -/
  | lockCas
  /-- `spinlock_trylock`: its compare-and-swap. -/
  | tryCas
  /-- The read of `counter++`. -/
  | counterRead
  /-- The write of `counter++`, after the value `v` was read. -/
  | counterWrite (v : BitVec 32)
  /-- `spinlock_unlock`: its compare-and-swap. -/
  | unlockCas
  deriving DecidableEq, Repr

/-- The thread is between an acquisition and its `spinlock_unlock`. -/
def Pc.holds : Pc → Bool
  | .counterRead | .counterWrite _ | .unlockCas => true
  | .outside | .lockCas | .tryCas => false

/-- The functions of the library. -/
inductive Fn
  | lock
  | tryLock
  | unlock
  deriving DecidableEq, Repr

/-- The lock, the counter it protects and the threads.  `rounds` and `result`
are history variables: the rounds each thread completed, and the value that
its last call returned. -/
structure State (T : Type*) where
  isAcquired : ℤ
  counter : BitVec 32
  pc : T → Pc
  rounds : T → ℕ
  result : T → Option (Fn × ℤ)

/-- One scheduling choice. -/
inductive Action (T : Type*)
  /-- The thread calls `spinlock_lock`. -/
  | lock (t : T)
  /-- The thread calls `spinlock_trylock`. -/
  | tryLock (t : T)
  /-- The thread performs its next atomic access. -/
  | advance (t : T)

variable {T : Type*} [DecidableEq T]

def State.goto (s : State T) (t : T) (p : Pc) : State T :=
  { s with pc := Function.update s.pc t p }

/-- Thread `t` returns from a call and goes on at `p`. -/
def State.returns (s : State T) (t : T) (f : Fn) (value : ℤ) (p : Pc) :
    State T :=
  { s.goto t p with result := Function.update s.result t (some (f, value)) }

/-- `spinlock_init`, with `counter = 0` and no thread inside. -/
def spinlockInit : State T where
  isAcquired := 0
  counter := 0
  pc := fun _ => .outside
  rounds := fun _ => 0
  result := fun _ => none

/-- The next atomic access of thread `t`.  The callers of `spinlock_lock` and
`spinlock_unlock` do not look at the value returned. -/
def advance (s : State T) (t : T) : Option (State T) :=
  match s.pc t with
  | .outside => none
  | .lockCas =>
      let (actualValue, value) := syncValCompareAndSwap s.isAcquired 0 1
      let s := { s with isAcquired := value }
      match spinlockLock actualValue with
      | none => some s
      | some r => some (s.returns t .lock r .counterRead)
  | .tryCas =>
      let (actualValue, value) := syncValCompareAndSwap s.isAcquired 0 1
      let r := spinlockTrylock actualValue
      some ({ s with isAcquired := value }.returns t .tryLock r
        (if r ≠ slBusy then .counterRead else .outside))
  | .counterRead => some (s.goto t (.counterWrite s.counter))
  | .counterWrite v => some ({ s with counter := v + 1 }.goto t .unlockCas)
  | .unlockCas =>
      let (actualValue, value) := syncValCompareAndSwap s.isAcquired 1 0
      some ({ s with
        isAcquired := value
        rounds := Function.update s.rounds t (s.rounds t + 1)
        }.returns t .unlock (spinlockUnlock actualValue) .outside)

/-- One step of the system. -/
def step (s : State T) : Action T → Option (State T)
  | .lock t => if s.pc t = .outside then some (s.goto t .lockCas) else none
  | .tryLock t => if s.pc t = .outside then some (s.goto t .tryCas) else none
  | .advance t => advance s t

/-- Any number of threads that share one spinlock, from `spinlock_init` on. -/
def spinlockSystem (T : Type*) [DecidableEq T] :
    TransitionSystem (State T) (Action T) where
  Initial := fun s => s = spinlockInit
  step := step

/-! ## What one step can do -/

/-- At most one thread is inside, and the lock is 1 exactly when there is
one. -/
def Exclusive (s : State T) : Prop :=
  ∃ owner, Owned Pc.holds owner s.pc ∧
    s.isAcquired = if owner = none then 0 else 1

/-- The effect of a step of thread `t` while the lock is exclusive. -/
inductive Effect (s : State T) (t : T) : State T → Prop
  | call (p : Pc) (hpc : s.pc t = .outside) (hp : p = .lockCas ∨ p = .tryCas) :
      Effect s t (s.goto t p)
  | spin (hpc : s.pc t = .lockCas) (hbusy : s.isAcquired = 1) : Effect s t s
  | acquire (f : Fn) (value : ℤ)
      (hpc : s.pc t = .lockCas ∧ f = .lock ∧ value = 0 ∨
        s.pc t = .tryCas ∧ f = .tryLock ∧ value = 1)
      (hfree : s.isAcquired = 0) :
      Effect s t ({ s with isAcquired := 1 }.returns t f value .counterRead)
  | busy (hpc : s.pc t = .tryCas) (hbusy : s.isAcquired = 1) :
      Effect s t (s.returns t .tryLock slBusy .outside)
  | read (hpc : s.pc t = .counterRead) :
      Effect s t (s.goto t (.counterWrite s.counter))
  | write (v : BitVec 32) (hpc : s.pc t = .counterWrite v) :
      Effect s t ({ s with counter := v + 1 }.goto t .unlockCas)
  | release (hpc : s.pc t = .unlockCas) :
      Effect s t ({ s with
        isAcquired := 0
        rounds := Function.update s.rounds t (s.rounds t + 1)
        }.returns t .unlock 0 .outside)

variable {s s' : State T} {t u : T} {a : Action T}

omit [DecidableEq T] in
theorem Exclusive.word (hex : Exclusive s) :
    s.isAcquired = 0 ∨ s.isAcquired = 1 := by
  obtain ⟨owner, -, hword⟩ := hex
  rw [hword]
  split_ifs <;> simp

omit [DecidableEq T] in
/-- The lock is 1 exactly while some thread is inside. -/
theorem Exclusive.word_eq_one_iff (hex : Exclusive s) :
    s.isAcquired = 1 ↔ ∃ u, (s.pc u).holds = true := by
  obtain ⟨owner, howned, hword⟩ := hex
  rw [hword]
  cases owner with
  | none =>
      refine iff_of_false (by simp) ?_
      rintro ⟨u, hu⟩
      simpa using (howned u).mp hu
  | some u => exact iff_of_true (by simp) ⟨u, (howned u).mpr rfl⟩

theorem Exclusive.effect (hex : Exclusive s) (hstep : step s a = some s') :
    ∃ t, Effect s t s' := by
  cases a with
  | lock t =>
      obtain ⟨hpc, rfl⟩ : s.pc t = .outside ∧ s.goto t .lockCas = s' := by
        simpa [step] using hstep
      exact ⟨t, .call _ hpc (Or.inl rfl)⟩
  | tryLock t =>
      obtain ⟨hpc, rfl⟩ : s.pc t = .outside ∧ s.goto t .tryCas = s' := by
        simpa [step] using hstep
      exact ⟨t, .call _ hpc (Or.inr rfl)⟩
  | advance t =>
      refine ⟨t, ?_⟩
      rw [step, advance] at hstep
      cases hpc : s.pc t with
      | outside => simp [hpc] at hstep
      | lockCas =>
          rcases hex.word with hword | hword
          · obtain rfl : _ = s' := by
              simpa [hpc, syncValCompareAndSwap, spinlockLock, hword]
                using hstep
            exact .acquire .lock 0 (Or.inl ⟨hpc, rfl, rfl⟩) hword
          · obtain rfl : s = s' := by
              have hsame : { s with isAcquired := 1 } = s := by rw [← hword]
              simpa [hpc, syncValCompareAndSwap, spinlockLock, hword, hsame]
                using hstep
            exact .spin hpc hword
      | tryCas =>
          rcases hex.word with hword | hword
          · obtain rfl : _ = s' := by
              simpa [hpc, syncValCompareAndSwap, spinlockTrylock, slBusy, hword]
                using hstep
            exact .acquire .tryLock 1 (Or.inr ⟨hpc, rfl, rfl⟩) hword
          · have hsame : { s with isAcquired := 1 } = s := by rw [← hword]
            obtain rfl : s.returns t .tryLock slBusy .outside = s' := by
              simpa [hpc, syncValCompareAndSwap, spinlockTrylock, hword, hsame]
                using hstep
            exact .busy hpc hword
      | counterRead =>
          obtain rfl : _ = s' := by simpa [hpc] using hstep
          exact .read hpc
      | counterWrite v =>
          obtain rfl : _ = s' := by simpa [hpc] using hstep
          exact .write v hpc
      | unlockCas =>
          have hword : s.isAcquired = 1 :=
            hex.word_eq_one_iff.mpr ⟨t, by rw [hpc]; rfl⟩
          obtain rfl : _ = s' := by
            simpa [hpc, syncValCompareAndSwap, spinlockUnlock, hword]
              using hstep
          exact .release hpc

/-! ## Mutual exclusion -/

omit [DecidableEq T] in
theorem exclusive_spinlockInit : Exclusive (spinlockInit : State T) := by
  refine ⟨none, fun t => ?_, rfl⟩
  simp [spinlockInit, Pc.holds]

theorem Exclusive.of_effect (hex : Exclusive s) (he : Effect s t s') :
    Exclusive s' := by
  obtain ⟨owner, howned, hword⟩ := hex
  cases he with
  | call p hpc hp =>
      refine ⟨owner, howned.keep ?_, hword⟩
      rcases hp with rfl | rfl <;> rw [hpc] <;> rfl
  | spin hpc hbusy => exact ⟨owner, howned, hword⟩
  | acquire f value hpc hfree =>
      have hnone : owner = none := by
        by_contra hsome
        rw [if_neg hsome] at hword
        omega
      exact ⟨some t, howned.acquire hnone rfl, rfl⟩
  | busy hpc hbusy =>
      exact ⟨owner, howned.keep (by rw [hpc]; rfl), hword⟩
  | read hpc => exact ⟨owner, howned.keep (by rw [hpc]; rfl), hword⟩
  | write v hpc => exact ⟨owner, howned.keep (by rw [hpc]; rfl), hword⟩
  | release hpc => exact ⟨none, howned.release (by rw [hpc]; rfl) rfl, rfl⟩

theorem exclusive_of_reachable (hs : (spinlockSystem T).Reachable s) :
    Exclusive s := by
  refine hs.invariant ?_ ?_
  · rintro s rfl
    exact exclusive_spinlockInit
  · intro s a s' hex _ hstep
    obtain ⟨t, he⟩ := hex.effect hstep
    exact hex.of_effect he

omit [DecidableEq T] in
theorem Exclusive.unique
    (hex : Exclusive s) (ht : (s.pc t).holds = true)
    (hu : (s.pc u).holds = true) : t = u := by
  obtain ⟨owner, howned, -⟩ := hex
  exact Option.some.inj (((howned t).mp ht).symm.trans ((howned u).mp hu))

/-! ## The values returned -/

/-- No call has returned `ERR_CAS_FUNC`. -/
def NoCasError (s : State T) : Prop :=
  ∀ t f value, s.result t = some (f, value) → value ≠ errCasFunc

theorem NoCasError.returns
    (hno : NoCasError s) {t : T} {f : Fn} {value : ℤ} (p : Pc)
    (hvalue : value ≠ errCasFunc) : NoCasError (s.returns t f value p) := by
  intro u f' value' hresult
  by_cases hu : u = t
  · subst hu
    have hnew : some (f, value) = some (f', value') := by
      simpa [State.returns] using hresult
    obtain ⟨-, rfl⟩ := Prod.mk.inj (Option.some.inj hnew)
    exact hvalue
  · exact hno u f' value' (by simpa [State.returns, State.goto, hu] using hresult)

theorem NoCasError.of_effect (hno : NoCasError s) (he : Effect s t s') :
    NoCasError s' := by
  cases he with
  | call p hpc hp => exact hno
  | spin hpc hbusy => exact hno
  | acquire f value hpc hfree =>
      refine NoCasError.returns (s := { s with isAcquired := 1 }) hno _ ?_
      rcases hpc with ⟨-, -, rfl⟩ | ⟨-, -, rfl⟩ <;> decide
  | busy hpc hbusy => exact hno.returns _ (by decide)
  | read hpc => exact hno
  | write v hpc => exact hno
  | release hpc =>
      exact NoCasError.returns (s := { s with
        isAcquired := 0
        rounds := Function.update s.rounds t (s.rounds t + 1) }) hno _
        (by decide)

theorem noCasError_of_reachable (hs : (spinlockSystem T).Reachable s) :
    NoCasError s := by
  refine hs.invariant_of ?_ ?_
  · rintro s rfl t f value hresult
    cases hresult
  · intro s a s' hreach hno _ hstep
    obtain ⟨t, he⟩ := (exclusive_of_reachable hreach).effect hstep
    exact hno.of_effect he

/-- The holder's `spinlock_unlock` returns 0. -/
theorem Exclusive.unlock (hex : Exclusive s) (hpc : s.pc t = .unlockCas) :
    ∃ s', step s (.advance t) = some s' ∧
      s'.result t = some (.unlock, 0) := by
  have hword : s.isAcquired = 1 :=
    hex.word_eq_one_iff.mpr ⟨t, by rw [hpc]; rfl⟩
  simp [step, advance, hpc, syncValCompareAndSwap, spinlockUnlock, hword,
    State.returns]

/-- `spinlock_trylock` finds the lock busy exactly when some thread holds
it. -/
theorem Exclusive.tryLock (hex : Exclusive s) (hpc : s.pc t = .tryCas) :
    ∃ s', step s (.advance t) = some s' ∧
      (s'.result t = some (.tryLock, slBusy) ↔
        ∃ u, (s.pc u).holds = true) := by
  rw [← hex.word_eq_one_iff]
  rcases hex.word with hword | hword <;>
    simp [step, advance, hpc, syncValCompareAndSwap, spinlockTrylock, slBusy,
      hword, State.returns]

/-! ## The counter -/

/-- A round whose increment is done but which has not been completed yet. -/
def Pc.pending : Pc → ℕ
  | .unlockCas => 1
  | _ => 0

variable [Fintype T]

/-- The counter is the number of increments done, and a thread between the
read and the write of `counter++` has read its present value. -/
structure CounterExact (s : State T) : Prop where
  value : ∀ t v, s.pc t = .counterWrite v → v = s.counter
  total : s.counter =
    BitVec.ofNat 32 ((∑ t, s.rounds t) + threadSum Pc.pending s.pc)

omit [DecidableEq T] in
theorem counterExact_spinlockInit : CounterExact (spinlockInit : State T) where
  value := by
    intro t v h
    simp [spinlockInit] at h
  total := by simp [spinlockInit, threadSum, Pc.pending]

/-- A step that counts nothing and moves one thread. -/
theorem CounterExact.move
    (hc : CounterExact s) {p : Pc} (hpending : p.pending = (s.pc t).pending)
    (hread : ∀ v, p = .counterWrite v → v = s.counter)
    (hpc : s'.pc = Function.update s.pc t p) (hcounter : s'.counter = s.counter)
    (hrounds : s'.rounds = s.rounds) : CounterExact s' := by
  constructor
  · intro u v hu
    rw [hpc] at hu
    rw [hcounter]
    by_cases hut : u = t
    · subst hut
      exact hread v (by simpa using hu)
    · exact hc.value u v (by simpa [hut] using hu)
  · have hsum := threadSum_update Pc.pending s.pc t p
    rw [hpc, hcounter, hrounds, hc.total]
    congr 2
    omega

theorem CounterExact.of_effect
    (hc : CounterExact s) (hex : Exclusive s) (he : Effect s t s') :
    CounterExact s' := by
  cases he with
  | call p hpc hp =>
      refine hc.move (p := p) ?_ ?_ rfl rfl rfl
      · rcases hp with rfl | rfl <;> rw [hpc] <;> rfl
      · rcases hp with rfl | rfl <;> simp
  | spin hpc hbusy => exact hc
  | acquire f value hpc hfree =>
      refine hc.move (p := .counterRead) ?_ (by simp) rfl rfl rfl
      rcases hpc with ⟨hpc, -⟩ | ⟨hpc, -⟩ <;> rw [hpc] <;> rfl
  | busy hpc hbusy =>
      exact hc.move (p := .outside) (by rw [hpc]; rfl) (by simp) rfl rfl rfl
  | read hpc =>
      refine hc.move (p := .counterWrite s.counter) (by rw [hpc]; rfl) ?_
        rfl rfl rfl
      intro v hv
      exact (Pc.counterWrite.inj hv).symm
  | write v hpc =>
      have hvalue : v = s.counter := hc.value t v hpc
      constructor
      · intro u w hu
        -- a second thread would be inside
        by_cases hut : u = t
        · subst hut
          simp [State.goto] at hu
        · have hold : s.pc u = .counterWrite w := by
            simpa [State.goto, hut] using hu
          exact absurd (hex.unique (t := u) (u := t) (by rw [hold]; rfl)
            (by rw [hpc]; rfl)) hut
      · have hsum := threadSum_update Pc.pending s.pc t .unlockCas
        simp only [hpc, Pc.pending] at hsum
        change v + 1 = BitVec.ofNat 32 ((∑ u, s.rounds u) +
          threadSum Pc.pending (Function.update s.pc t .unlockCas))
        rw [show threadSum Pc.pending (Function.update s.pc t .unlockCas) =
          threadSum Pc.pending s.pc + 1 from by omega, ← Nat.add_assoc,
          BitVec.ofNat_add, ← hc.total, hvalue]
        rfl
  | release hpc =>
      constructor
      · intro u w hu
        by_cases hut : u = t
        · subst hut
          simp [State.returns, State.goto] at hu
        · exact hc.value u w (by
            simpa [State.returns, State.goto, hut] using hu)
      · have hsum := threadSum_update Pc.pending s.pc t .outside
        simp only [hpc, Pc.pending] at hsum
        change s.counter = BitVec.ofNat 32
          ((∑ u, Function.update s.rounds t (s.rounds t + 1) u) +
            threadSum Pc.pending (Function.update s.pc t .outside))
        rw [sum_update_succ, hc.total]
        congr 1
        omega

theorem counterExact_of_reachable (hs : (spinlockSystem T).Reachable s) :
    CounterExact s := by
  refine hs.invariant_of ?_ ?_
  · rintro s rfl
    exact counterExact_spinlockInit
  · intro s a s' hreach hc _ hstep
    have hex := exclusive_of_reachable hreach
    obtain ⟨t, he⟩ := hex.effect hstep
    exact hc.of_effect hex he

/-- What the spinlock guarantees in a state: one thread inside at a time, an
unlock of the holder that returns 0, a busy `spinlock_trylock` exactly while
the lock is held, no `ERR_CAS_FUNC`, and when no thread is inside a round the
counter is the number of rounds, computed in 32 bits. -/
structure Correct (s : State T) : Prop where
  exclusion : ∀ t u, (s.pc t).holds = true → (s.pc u).holds = true → t = u
  unlock : ∀ t, s.pc t = .unlockCas → ∃ s', step s (.advance t) = some s' ∧
    s'.result t = some (.unlock, 0)
  tryLock : ∀ t, s.pc t = .tryCas → ∃ s', step s (.advance t) = some s' ∧
    (s'.result t = some (.tryLock, slBusy) ↔ ∃ u, (s.pc u).holds = true)
  noCasError : NoCasError s
  finished : (∀ t, s.pc t = .outside) →
    s.counter = BitVec.ofNat 32 (∑ t, s.rounds t) ∧
      (∑ t, s.rounds t < 2147483648 →
        s.counter.toInt = ∑ t, (s.rounds t : ℤ))

theorem Correct.of_exact
    (hex : Exclusive s) (hno : NoCasError s) (hc : CounterExact s) :
    Correct s where
  exclusion := fun _ _ => hex.unique
  unlock := fun _ => hex.unlock
  tryLock := fun _ => hex.tryLock
  noCasError := hno
  finished := by
    intro hall
    have hpending : threadSum Pc.pending s.pc = 0 := by
      apply threadSum_eq_zero
      intro t
      rw [hall t]
      rfl
    have htotal := hc.total
    rw [hpending, Nat.add_zero] at htotal
    refine ⟨htotal, fun hlt => ?_⟩
    rw [htotal, ← Nat.cast_sum, BitVec.toInt_eq_toNat_of_lt]
    · simp only [BitVec.toNat_ofNat]
      rw [Nat.mod_eq_of_lt (by omega)]
    · simp only [BitVec.toNat_ofNat]
      rw [Nat.mod_eq_of_lt (by omega)]
      omega

/-- Every reachable state of any number of threads has these properties. -/
theorem spinlock_correct (s : State T) (hs : (spinlockSystem T).Reachable s) :
    Correct s :=
  .of_exact (exclusive_of_reachable hs) (noCasError_of_reachable hs)
    (counterExact_of_reachable hs)

/-- Thread 0 completes a round while thread 1 tries the lock in vain. -/
theorem spinlock_correct_contended :
    ∃ s, (spinlockSystem (Fin 2)).run spinlockInit
        [.lock 0, .advance 0, .tryLock 1, .advance 1, .advance 0, .advance 0,
          .advance 0] = some s ∧
      s.result 1 = some (.tryLock, slBusy) ∧ s.counter = 1 ∧ Correct s :=
  ⟨_, rfl, rfl, rfl,
    spinlock_correct _ (TransitionSystem.Reachable.run (.initial rfl)
      (rfl : (spinlockSystem (Fin 2)).run spinlockInit
        [.lock 0, .advance 0, .tryLock 1, .advance 1, .advance 0, .advance 0,
          .advance 0] = some _))⟩

end Spinlock
end OsFifthSem
