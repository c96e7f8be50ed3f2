import Mathlib.Data.Fintype.Basic
import OsFifthSem.Threads.KerThreads.Model

/-!
# Joins of one thread

What goes wrong in `mythread_join` has three places: `isJoined` is tested and
set in separate steps, the stack is unmapped as soon as the flag is seen, and
the result is assigned to the parameter.  A run that passes the first two in
the right order has one successful join, which unmaps the stack behind the
child.  The third one has no right order: no join stores a result.
-/

namespace OsFifthSem
namespace Threads
namespace KerThreads

open Support

variable {W J : Type*}

/-- One call returns 0, and the stack is unmapped once and behind the child. -/
structure JoinedOnce (s : State W J) : Prop where
  atMostOne : ∀ j k, s.join j = .returned 0 → s.join k = .returned 0 → j = k
  exactlyOne : (∃ j, s.join j ≠ .idle) →
    (∀ j, s.join j = .idle ∨ ∃ res, s.join j = .returned res) →
    ∃! j, s.join j = .returned 0
  unmappedOnce : s.unmaps ≤ 1
  unmappedLast : s.mapping = none → ¬s.child.OnStack ∧ s.child ≠ .faulted

/-- Moreover, the call that returns 0 has stored what the start routine
returned where its argument points. -/
structure JoinSafe (s : State W J) : Prop extends JoinedOnce s where
  stored : ∀ j, s.join j = .returned 0 →
    ∃ value, s.result = some value ∧ s.stored j = some value

/-- The call has found `isJoined` unset and not set it yet. -/
def JoinPc.Pending : JoinPc W → Prop
  | .called .waitFinished _ | .called .setJoined _ => True
  | .idle | .called .assignRetval _ | .called .unmap _ | .returned _ => False

instance : (p : JoinPc W) → Decidable p.Pending
  | .idle | .called .assignRetval _ | .called .unmap _ | .returned _ =>
      .isFalse id
  | .called .waitFinished _ | .called .setJoined _ => .isTrue trivial

/-- A join does not test `isJoined` between the test and the store of another
one, it does not see `isFinished` before the child has left its stack, and
`munmap` succeeds. -/
def JoinPc.InOrder (s : State W J) (unmapped : Bool) : JoinPc W → Prop
  | .idle => s.thread.isJoined = 0 → ∀ k, ¬(s.join k).Pending
  | .called .waitFinished _ => s.thread.isFinished = 1 → ¬s.child.OnStack
  | .called .unmap _ => unmapped
  | .called .setJoined _ | .called .assignRetval _ | .returned _ => True

def InOrder (s : State W J) : Action J → Prop
  | .child => True
  | .join j unmapped => (s.join j).InOrder s unmapped

instance [Fintype J] (s : State W J) (unmapped : Bool) :
    (p : JoinPc W) → Decidable (p.InOrder s unmapped)
  | .idle =>
      inferInstanceAs
        (Decidable (s.thread.isJoined = 0 → ∀ k, ¬(s.join k).Pending))
  | .called .waitFinished _ =>
      inferInstanceAs
        (Decidable (s.thread.isFinished = 1 → ¬s.child.OnStack))
  | .called .unmap _ => inferInstanceAs (Decidable unmapped)
  | .called .setJoined _ | .called .assignRetval _ | .returned _ =>
      .isTrue trivial

instance [Fintype J] (s : State W J) : (a : Action J) → Decidable (InOrder s a)
  | .child => .isTrue trivial
  | .join j unmapped =>
      inferInstanceAs (Decidable ((s.join j).InOrder s unmapped))

variable [DecidableEq J] {retvalArg : J → W}

/-! ## The joins -/

/-- How far a call is on its way to return 0. -/
def JoinPc.progress : JoinPc W → ℕ
  | .idle => 0
  | .called .waitFinished _ => 1
  | .called .setJoined _ => 2
  | .called .assignRetval _ => 3
  | .called .unmap _ => 4
  | .returned res => if res = 0 then 5 else 0

namespace JoinPc

@[simp] theorem progress_idle : (idle : JoinPc W).progress = 0 := rfl

@[simp] theorem progress_waitFinished (retval : W) :
    (called .waitFinished retval).progress = 1 := rfl

@[simp] theorem progress_setJoined (retval : W) :
    (called .setJoined retval).progress = 2 := rfl

@[simp] theorem progress_assignRetval (retval : W) :
    (called .assignRetval retval).progress = 3 := rfl

@[simp] theorem progress_unmap (retval : W) :
    (called .unmap retval).progress = 4 := rfl

@[simp] theorem progress_returned (res : ℤ) :
    (returned res : JoinPc W).progress = if res = 0 then 5 else 0 := rfl

end JoinPc

theorem JoinPc.pending_iff {p : JoinPc W} :
    p.Pending ↔ p.progress = 1 ∨ p.progress = 2 := by
  unfold Pending progress
  split <;> simp
  split <;> simp

theorem JoinPc.progress_eq_five_iff {p : JoinPc W} :
    p.progress = 5 ↔ p = .returned 0 := by
  unfold progress
  split <;> simp

/-- One call at most is on its way to return 0, and what it has passed has
happened. -/
structure Elected (s : State W J) : Prop where
  sole : ∀ j k, 0 < (s.join j).progress → 0 < (s.join k).progress → j = k
  joined : s.thread.isJoined ≠ 0 ↔ ∃ j, 3 ≤ (s.join j).progress
  refused : ∀ j res, s.join j = .returned res → res ≠ 0 →
    s.thread.isJoined ≠ 0
  offStack : ∀ j, 2 ≤ (s.join j).progress → ¬s.child.OnStack

/-- The stack is mapped until a call returns 0, which is after the child has
left it. -/
structure Unmapped (s : State W J) : Prop where
  alive : s.child ≠ .faulted
  mapped : s.unmaps = 0 →
    s.mapping = some (s.thread.stack, s.thread.stackSize + guardSize)
  once : s.unmaps ≤ 1
  offStack : 0 < s.unmaps → ¬s.child.OnStack
  returned : 0 < s.unmaps ↔ ∃ j, (s.join j).progress = 5

omit [DecidableEq J] in
/-- The child does not come back to its stack. -/
theorem ChildMove.onStack
    {s t : State W J} (h : ChildMove s t) (hon : t.child.OnStack) :
    s.child.OnStack := by
  cases h with
  | fault => exact hon.elim
  | run value memory hpc => simp [hpc, ChildPc.OnStack]
  | store value hpc => simp [hpc, ChildPc.OnStack]
  | finish hpc => simp [hpc, ChildPc.OnStack]
  | leave => exact hon.elim
  | exit => exact hon.elim

omit [DecidableEq J] in
theorem Elected.childMove
    {s t : State W J} (hs : Elected s) (h : ChildMove s t) : Elected t := by
  have hoff : ∀ j, 2 ≤ (s.join j).progress → ¬t.child.OnStack :=
    fun j hj hon => hs.offStack j hj (h.onStack hon)
  cases h with
  | fault => exact ⟨hs.sole, hs.joined, hs.refused, hoff⟩
  | run => exact ⟨hs.sole, hs.joined, hs.refused, hoff⟩
  | store => exact ⟨hs.sole, hs.joined, hs.refused, hoff⟩
  | finish => exact ⟨hs.sole, hs.joined, hs.refused, hoff⟩
  | leave => exact ⟨hs.sole, hs.joined, hs.refused, hoff⟩
  | exit => exact ⟨hs.sole, hs.joined, hs.refused, hoff⟩

/-- A property of all calls when one of them has moved. -/
theorem forall_setJoin
    {s : State W J} {j : J} {p : JoinPc W} (P : J → JoinPc W → Prop)
    (hj : P j p) (h : ∀ k, P k (s.join k)) (k : J) :
    P k ((s.setJoin j p).join k) :=
  (Function.forall_update_iff s.join P).mpr ⟨hj, fun k _ => h k⟩ k

theorem exists_setJoin_iff
    {s : State W J} {j : J} {p : JoinPc W} (Q : JoinPc W → Prop)
    (hj : Q p ↔ Q (s.join j)) :
    (∃ k, Q ((s.setJoin j p).join k)) ↔ ∃ k, Q (s.join k) := by
  refine exists_congr fun k => ?_
  by_cases hkj : k = j
  · subst hkj
    simpa [State.setJoin] using hj
  · simp [State.setJoin, hkj]

theorem sole_update
    {join : J → JoinPc W} {j : J} {p : JoinPc W}
    (h : ∀ i k, 0 < (join i).progress → 0 < (join k).progress → i = k)
    (hp : 0 < p.progress → ∀ k, 0 < (join k).progress → k = j) :
    ∀ i k, 0 < (Function.update join j p i).progress →
      0 < (Function.update join j p k).progress → i = k := by
  intro i k hi hk
  rw [Function.update_apply] at hi hk
  split at hi
  next hij =>
    split at hk
    next hkj => exact hij.trans hkj.symm
    next => exact hij.trans (hp hi k hk).symm
  next =>
    split at hk
    next hkj => exact (hp hk i hi).trans hkj.symm
    next => exact h i k hi hk

/-- A call moves on and leaves the structure as it is. -/
theorem Elected.setJoin
    {s : State W J} {j : J} {p : JoinPc W} (hs : Elected s)
    (hsole : 0 < p.progress → ∀ k, 0 < (s.join k).progress → k = j)
    (hjoined : 3 ≤ p.progress ↔ 3 ≤ (s.join j).progress)
    (hrefused : ∀ res, p = .returned res → res ≠ 0 →
      s.thread.isJoined ≠ 0)
    (hoff : 2 ≤ p.progress → ¬s.child.OnStack) :
    Elected (s.setJoin j p) where
  sole := sole_update hs.sole hsole
  joined :=
    hs.joined.trans (exists_setJoin_iff (fun q => 3 ≤ q.progress) hjoined).symm
  refused := forall_setJoin (fun _ q => ∀ res,
    q = .returned res → res ≠ 0 → s.thread.isJoined ≠ 0) hrefused hs.refused
  offStack := forall_setJoin (fun _ q =>
    2 ≤ q.progress → ¬s.child.OnStack) hoff hs.offStack

/-- A call stores `isJoined`: nothing else of the structure is looked at by
the moves before. -/
theorem Elected.storeJoined
    {s : State W J} {j : J} {retval : W} (hs : Elected s)
    (hpc : s.join j = .called .setJoined retval) :
    Elected
      { s.setJoin j (.called .assignRetval retval) with
        thread := { s.thread with isJoined := 1 } } where
  sole := sole_update hs.sole fun _ k hk => hs.sole k j hk (by simp [hpc])
  joined := iff_of_true one_ne_zero ⟨j, by simp [State.setJoin]⟩
  refused := fun _ _ _ _ => one_ne_zero
  offStack := forall_setJoin (fun _ q =>
    2 ≤ q.progress → ¬s.child.OnStack)
    (fun _ => hs.offStack j (by simp [hpc])) hs.offStack

theorem Elected.joinMove
    {s t : State W J} {j : J} {unmapped : Bool} (hs : Elected s)
    (horder : (s.join j).InOrder s unmapped)
    (h : JoinMove retvalArg s j unmapped t) : Elected t := by
  -- a call that is on its way is the only one
  have honly : 0 < (s.join j).progress →
      ∀ k, 0 < (s.join k).progress → k = j :=
    fun hj k hk => hs.sole k j hk hj
  cases h with
  | refuse _ hpc hset =>
      refine hs.setJoin nofun ?_ (fun _ _ _ => hset) nofun
      simp [hpc]
  | test _ hpc hunset =>
      rw [hpc] at horder
      have hnone : ∀ k, (s.join k).progress = 0 := by
        intro k
        have hpending := mt JoinPc.pending_iff.mpr (horder hunset k)
        have hjoined : ¬3 ≤ (s.join k).progress :=
          fun hk => hs.joined.mpr ⟨k, hk⟩ hunset
        omega
      refine hs.setJoin ?_ ?_ nofun nofun
      · intro _ k hk
        exact absurd (hnone k) (Nat.ne_of_gt hk)
      · simp [hpc]
  | sleep => exact hs
  | wake _ retval hpc hfin =>
      rw [hpc] at horder
      refine hs.setJoin (fun _ => honly ?_) ?_ nofun (fun _ => horder hfin)
      · simp [hpc]
      · simp [hpc]
  | setJoined _ retval hpc => exact hs.storeJoined hpc
  | assign _ retval hpc =>
      refine hs.setJoin (fun _ => honly ?_) ?_ nofun (fun _ => hs.offStack j ?_)
      · simp [hpc]
      · simp [hpc]
      · simp [hpc]
  | unmap retval hpc =>
      have hset := hs.setJoin (j := j) (p := .returned 0)
        (fun _ => honly (by simp [hpc])) (by simp [hpc])
        (fun res hres hne => absurd (JoinPc.returned.inj hres).symm hne)
        (fun _ => hs.offStack j (by simp [hpc]))
      exact ⟨hset.sole, hset.joined, hset.refused, hset.offStack⟩
  | fail retval hpc =>
      rw [hpc] at horder
      cases horder

/-! ## The stack -/

omit [DecidableEq J] in
theorem Unmapped.childMove
    {s t : State W J} (hs : Unmapped s) (h : ChildMove s t) :
    Unmapped t := by
  have hoff : 0 < s.unmaps → ¬t.child.OnStack :=
    fun hpos hon => hs.offStack hpos (h.onStack hon)
  cases h with
  | fault hstack hnone =>
      have hzero := Nat.eq_zero_of_not_pos fun hpos => hs.offStack hpos hstack
      rw [hs.mapped hzero] at hnone
      cases hnone
  | run => exact ⟨nofun, hs.mapped, hs.once, hoff, hs.returned⟩
  | store => exact ⟨nofun, hs.mapped, hs.once, hoff, hs.returned⟩
  | finish => exact ⟨nofun, hs.mapped, hs.once, hoff, hs.returned⟩
  | leave => exact ⟨nofun, hs.mapped, hs.once, hoff, hs.returned⟩
  | exit => exact ⟨nofun, hs.mapped, hs.once, hoff, hs.returned⟩

/-- A call moves on without returning 0. -/
theorem Unmapped.setJoin
    {s : State W J} {j : J} {p : JoinPc W} (hs : Unmapped s)
    (hj : (s.join j).progress ≠ 5) (hp : p.progress ≠ 5) :
    Unmapped (s.setJoin j p) where
  alive := hs.alive
  mapped := hs.mapped
  once := hs.once
  offStack := hs.offStack
  returned := hs.returned.trans
    (exists_setJoin_iff (fun q => q.progress = 5) (iff_of_false hp hj)).symm

theorem Unmapped.joinMove
    {s t : State W J} {j : J} {unmapped : Bool} (hs : Unmapped s)
    (helected : Elected s)
    (horder : (s.join j).InOrder s unmapped)
    (h : JoinMove retvalArg s j unmapped t) : Unmapped t := by
  cases h with
  | refuse _ hpc => exact hs.setJoin (by simp [hpc]) (by simp)
  | test _ hpc => exact hs.setJoin (by simp [hpc]) (by simp)
  | sleep => exact hs
  | wake _ retval hpc => exact hs.setJoin (by simp [hpc]) (by simp)
  | setJoined _ retval hpc =>
      have hset := hs.setJoin (j := j) (p := .called .assignRetval retval)
        (by simp [hpc]) (by simp)
      exact ⟨hset.alive, hset.mapped, hset.once, hset.offStack, hset.returned⟩
  | assign _ retval hpc => exact hs.setJoin (by simp [hpc]) (by simp)
  | unmap retval hpc =>
      have hfirst : s.unmaps = 0 := by
        refine Nat.eq_zero_of_not_pos fun hpos => ?_
        obtain ⟨k, hk⟩ := hs.returned.mp hpos
        -- the call that has returned 0 would be this one
        have hkj := helected.sole k j (by omega) (by simp [hpc])
        rw [hkj, hpc] at hk
        cases hk
      refine ⟨hs.alive, nofun, ?_, fun _ => helected.offStack j ?_, ?_⟩
      · simp [hfirst]
      · simp [hpc]
      · exact iff_of_true (Nat.succ_pos _) ⟨j, by simp [State.setJoin]⟩
  | fail retval hpc =>
      rw [hpc] at horder
      cases horder

/-! ## Runs -/

variable {startRoutine : StartRoutine W} {arg : W}

/-- What holds after every run whose steps are in order. -/
structure Joining (s : State W J) : Prop where
  elected : Elected s
  unmapped : Unmapped s

theorem joining_of_initial
    {s : State W J}
    (hs : (mythreadSystem startRoutine arg retvalArg).Initial s) :
    Joining s := by
  obtain ⟨⟨thread, stack, err, tid, hcreate⟩, hchild, hresult, hidle,
    hunmaps, -⟩ := hs
  obtain ⟨hfin, hjoined, hmapping⟩ := mythreadCreate_zero hcreate
  refine ⟨⟨?_, ?_, ?_, ?_⟩, ⟨?_, ?_, ?_, ?_, ?_⟩⟩
  · simp [hidle]
  · simp [hidle, hjoined]
  · simp [hidle]
  · simp [hidle]
  · simp [hchild]
  · simp [hmapping]
  · simp [hunmaps]
  · simp [hunmaps]
  · simp [hunmaps, hidle]

theorem Joining.step
    {s t : State W J} {a : Action J} (hs : Joining s) (horder : InOrder s a)
    (hstep : (mythreadSystem startRoutine arg retvalArg).step s a = some t) :
    Joining t := by
  cases a with
  | child =>
      have hmove := childMove_of_childStep hstep
      exact ⟨hs.elected.childMove hmove, hs.unmapped.childMove hmove⟩
  | join j unmapped =>
      obtain ⟨-, hmove⟩ := joinMove_of_step hstep
      exact ⟨hs.elected.joinMove horder hmove,
        hs.unmapped.joinMove hs.elected horder hmove⟩

omit [DecidableEq J] in
theorem Joining.joinedOnce {s : State W J} (hs : Joining s) : JoinedOnce s := by
  have hdone : ∀ {j}, s.join j = .returned 0 → 0 < (s.join j).progress := by
    intro j h
    rw [JoinPc.progress_eq_five_iff.mpr h]
    decide
  have hsole : ∀ j k, s.join j = .returned 0 → s.join k = .returned 0 →
      j = k :=
    fun j k hj hk => hs.elected.sole j k (hdone hj) (hdone hk)
  refine ⟨hsole, ?_, hs.unmapped.once, ?_⟩
  · rintro ⟨i, hi⟩ hall
    obtain ⟨res, hres⟩ := (hall i).resolve_left hi
    have hex : ∃ j, s.join j = .returned 0 := by
      by_cases hzero : res = 0
      · exact ⟨i, hzero ▸ hres⟩
      · -- a refused call has found the mark of another, which has returned
        obtain ⟨j, hj⟩ :=
          hs.elected.joined.mp (hs.elected.refused i res hres hzero)
        rcases hall j with hidle | ⟨res', hres'⟩
        · simp [hidle] at hj
        · refine ⟨j, JoinPc.progress_eq_five_iff.mp ?_⟩
          rw [hres', JoinPc.progress_returned] at hj ⊢
          split at hj
          next h => rw [if_pos h]
          next => omega
    obtain ⟨j, hj⟩ := hex
    exact ⟨j, hj, fun k hk => hsole k j hk hj⟩
  · intro hnone
    refine ⟨hs.unmapped.offStack (Nat.pos_of_ne_zero fun hzero => ?_),
      hs.unmapped.alive⟩
    rw [hs.unmapped.mapped hzero] at hnone
    cases hnone

/-- In every run whose steps are in order, one join succeeds and unmaps the
stack behind the child. -/
theorem joinedOnce_of_inOrder
    {s : State W J}
    (hreach : (mythreadSystem startRoutine arg retvalArg).ReachableUnder
      InOrder s) : JoinedOnce s := by
  refine Joining.joinedOnce (hreach.invariant ?_ ?_)
  · intro s hs
    exact joining_of_initial hs
  · intro s a t hs horder hstep
    exact hs.step horder hstep

/-! ## The result -/

/-- No step stores anything through the argument of a join. -/
theorem stored_of_step
    {s t : State W J} {a : Action J}
    (hstep : (mythreadSystem startRoutine arg retvalArg).step s a = some t) :
    t.stored = s.stored := by
  cases a with
  | child => cases childMove_of_childStep hstep <;> rfl
  | join j unmapped => cases (joinMove_of_step hstep).2 <;> rfl

theorem stored_eq_none
    {s : State W J}
    (hreach : (mythreadSystem startRoutine arg retvalArg).Reachable s) :
    ∀ j, s.stored j = none := by
  refine hreach.invariant (P := fun s : State W J => ∀ j, s.stored j = none)
    ?_ ?_
  · rintro s ⟨-, -, -, -, -, hstored⟩
    exact hstored
  · intro s a t hs _ hstep j
    rw [stored_of_step hstep]
    exact hs j

/-- A thread that has just been created, and calls that have not begun. -/
def created (startRoutine : StartRoutine W) (arg : W) : State W J where
  thread := (mythreadCreate ⟨0, startRoutine, arg, arg, 0, 0, 0, 0⟩ startRoutine
    arg (some 4096) 0 1).2.1
  mapping := some (4096, stackSize + guardSize)
  memory := fun _ => arg
  child := .routine
  result := none
  join := fun _ => .idle
  unmaps := 0
  stored := fun _ => none

theorem created_initial
    (startRoutine : StartRoutine W) (arg : W) (retvalArg : J → W) :
    (mythreadSystem startRoutine arg retvalArg).Initial
      (created startRoutine arg) :=
  ⟨⟨⟨0, startRoutine, arg, arg, 0, 0, 0, 0⟩, some 4096, 0, 1, rfl⟩, rfl, rfl,
    fun _ => rfl, rfl, fun _ => rfl⟩

/-- The child runs to its end, and then a call of `mythread_join`. -/
def joinLast (j : J) : List (Action J) :=
  List.replicate 5 .child ++ List.replicate 5 (.join j true)

/-- Every call can return 0. -/
theorem exists_returned
    (startRoutine : StartRoutine W) (arg : W) (retvalArg : J → W) (j : J) :
    ∃ s, (mythreadSystem startRoutine arg retvalArg).Reachable s ∧
      s.join j = .returned 0 := by
  obtain ⟨s, hrun, hj⟩ : ∃ s,
      (mythreadSystem startRoutine arg retvalArg).run
        (created startRoutine arg) (joinLast j) = some s ∧
      s.join j = .returned 0 := by
    simp [joinLast, List.replicate, TransitionSystem.run, mythreadSystem, step,
      created, childStep, joinStep, State.setJoin, mythreadCreate,
      ChildPc.OnStack]
  exact ⟨s, .run (.initial (created_initial startRoutine arg retvalArg)) hrun,
    hj⟩

/-- A call that has returned 0 has not stored the result. -/
theorem not_joinSafe_of_returned_zero
    {s : State W J} {j : J}
    (hreach : (mythreadSystem startRoutine arg retvalArg).Reachable s)
    (hj : s.join j = .returned 0) : ¬JoinSafe s := by
  intro hsafe
  obtain ⟨value, -, hvalue⟩ := hsafe.stored j hj
  rw [stored_eq_none hreach j] at hvalue
  cases hvalue

end KerThreads
end Threads
end OsFifthSem
