import OsFifthSem.Sync.BoundedQueue.Semaphore.Linearizable
import OsFifthSem.Sync.BoundedQueue.Settled

/-!
# No unit is missing in the queue with semaphores

A call waits for a semaphore once and for the mutex once, and never for the
semaphore while it holds the mutex.  Where no thread can go on, no thread has a
claim left, so the semaphores say how much room and how many values there are.
-/

namespace OsFifthSem
namespace BoundedQueue
namespace Semaphore

open Support

universe u

/-! ## The steps that are left -/

def Phase.rank : Phase → ℕ
  | .wait => 7
  | .lock => 6
  | .attempt => 5
  | .link => 4
  | .count => 3
  | .unlock => 2
  | .post => 1

/-- The number of steps a thread has at most left in its call. -/
def Pc.rank : Pc → ℕ
  | .inCall _ p => p.rank
  | .printLock => 2
  | .printUnlock => 1
  | .idle | .assertFailed | .fault => 0

theorem Pc.rank_le (pc : Pc) : pc.rank ≤ 7 := by
  cases pc with
  | inCall c p => cases p <;> simp [Pc.rank, Phase.rank]
  | _ => simp [Pc.rank]

/-- A function is called. -/
def Action.isCall {T : Type u} : Action T → Bool
  | .call _ _ | .print _ => true
  | .advance _ => false

variable {T : Type u} [DecidableEq T] [Fintype T] {m : ℤ} {s s' : State T}
  {t : T} {q : Queue} {sem : Resource → ℕ} {o : Option T} {pc : Pc}

/-- A step that moves one thread to a point with fewer steps left. -/
theorem rank_goto_lt {pc₀ : Pc} (hpc : s.pc t = pc₀) (hlt : pc.rank < pc₀.rank) :
    threadSum Pc.rank (s.goto t q sem o pc).pc + 1 ≤
      threadSum Pc.rank s.pc := by
  have hsum := threadSum_update Pc.rank s.pc t pc
  change threadSum Pc.rank (Function.update s.pc t pc) + 1 ≤ _
  rw [hpc] at hsum
  omega

theorem advance_rank_lt (hstep : advance s t = some s') :
    threadSum Pc.rank s'.pc + 1 ≤ threadSum Pc.rank s.pc := by
  rw [advance] at hstep
  cases hpc : s.pc t with
  | idle | assertFailed | fault => simp [hpc] at hstep
  | printLock =>
      simp only [hpc, Option.ite_none_right_eq_some, Option.some.injEq] at hstep
      obtain ⟨-, rfl⟩ := hstep
      exact rank_goto_lt hpc (by decide)
  | printUnlock =>
      simp only [hpc, Option.some.injEq] at hstep
      subst hstep
      exact rank_goto_lt hpc (by decide)
  | inCall c p =>
      cases p with
      | wait | lock =>
          simp only [hpc, Option.ite_none_right_eq_some,
            Option.some.injEq] at hstep
          obtain ⟨-, rfl⟩ := hstep
          exact rank_goto_lt hpc (by simp [Pc.rank, Phase.rank])
      | attempt | link =>
          simp only [hpc] at hstep
          split at hstep <;> obtain rfl := Option.some.inj hstep <;>
            exact rank_goto_lt hpc (by simp [Pc.rank, Phase.rank])
      | count | unlock | post =>
          simp only [hpc, Option.some.injEq] at hstep
          subst hstep
          exact rank_goto_lt hpc (by simp [Pc.rank, Phase.rank])

/-! ## Where no thread can go on -/

/-- The owner of the mutex can go on. -/
theorem owner_moves (hi : Inv m s) (howns : (s.pc t).owns = true) :
    ∃ s', advance s t = some s' := by
  cases hpc : s.pc t with
  | idle | assertFailed | fault | printLock => simp [hpc, Pc.owns] at howns
  | printUnlock => exact ⟨_, by rw [advance, hpc]⟩
  | inCall c p =>
      cases p with
      | wait | lock | post => simp [hpc, Pc.owns] at howns
      | count | unlock => exact ⟨_, by rw [advance, hpc]⟩
      | attempt =>
          obtain ⟨q, hq, -⟩ := hi.attempt hpc
          exact ⟨_, by simp only [advance, hpc, hq]; rfl⟩
      | link =>
          obtain ⟨q, hq, -⟩ := hi.link hpc
          exact ⟨_, by simp only [advance, hpc, hq]; rfl⟩

/-- Wherever no thread can go on, a thread is outside the functions or waits
for a semaphore that is 0. -/
theorem waits_of_stuck
    (hi : Inv m s) (hstuck : ∀ t, advance s t = none) :
    s.owner = none ∧ ∀ t, s.pc t = .idle ∨
      ∃ c, s.pc t = .inCall c .wait ∧ s.sem c.needs = 0 := by
  have hfree : s.owner = none := by
    by_contra hheld
    obtain ⟨t, ht⟩ := Option.ne_none_iff_exists'.mp hheld
    obtain ⟨s', hstep⟩ := owner_moves hi ((hi.owned t).mpr ht)
    simp [hstuck t] at hstep
  refine ⟨hfree, fun t => ?_⟩
  have hmove := hstuck t
  have howns := hi.owned.not_owns_of_free hfree t
  have hfailed := hi.unfailed t
  cases hpc : s.pc t with
  | idle => exact Or.inl rfl
  | printLock => simp [advance, hpc, hfree] at hmove
  | printUnlock => simp [hpc, Pc.owns] at howns
  | assertFailed => exact absurd hpc hfailed.1
  | fault => exact absurd hpc hfailed.2
  | inCall c p =>
      cases p with
      | wait => exact Or.inr ⟨c, rfl, by simpa [advance, hpc] using hmove⟩
      | lock => simp [advance, hpc, hfree] at hmove
      | post => simp [advance, hpc] at hmove
      | attempt | link | count | unlock => simp [hpc, Pc.owns] at howns

/-- The calls that are left wait for a resource of which there is none. -/
theorem settled_of_stuck
    (hm : 1 ≤ m) (hi : Inv m s) (hstuck : ∀ t, advance s t = none) :
    s.owner = none ∧ Settled m s.q s.stage := by
  obtain ⟨hfree, hwaits⟩ := waits_of_stuck hi hstuck
  refine ⟨hfree, settled_of_waits hm hi.counts ?_ fun t => ?_⟩
  · obtain ⟨xs, vals, hl, hlength⟩ := hi.listed
    rw [hi.owned.threadSum_eq_zero hfree Pc.uncounted_of_not_owns] at hlength
    exact ⟨xs, vals, hl, by omega⟩
  · rcases hwaits t with hidle | ⟨c, hwait, hsem⟩
    · exact Or.inl (by rw [State.stage, hidle]; rfl)
    · refine Or.inr ⟨c, by rw [State.stage, hwait]; rfl, ?_⟩
      have hclaims : threadSum (Pc.claim c.needs) s.pc = 0 := by
        refine threadSum_eq_zero fun u => ?_
        rcases hwaits u with hidle | ⟨d, hwait, -⟩
        · rw [hidle]
          rfl
        · rw [hwait]
          rfl
      rw [hi.rooms, hsem, hclaims]
      rfl

/-- From any reachable state on, a schedule without new calls has at most seven
steps for each thread.  Wherever it cannot be continued, all calls have
returned, or readers wait for an empty queue, or writers wait for a full
one. -/
theorem semaphoreQueue_settles
    (hm : 1 ≤ m) (hs : (queueSystem T m).Reachable s) {as : List (Action T)}
    (hcalls : ∀ a ∈ as, a.isCall = false)
    (hrun : (queueSystem T m).run s as = some s') :
    as.length ≤ 7 * Fintype.card T ∧
      ((∀ a : Action T, a.isCall = false →
          (queueSystem T m).step s' a = none) →
        s'.owner = none ∧ Settled m s'.q s'.stage) := by
  constructor
  · have hbound := TransitionSystem.length_le_of_measure
      (I := fun _ => True) (fun s => threadSum Pc.rank s.pc) (fun _ => false) 0
      ?_ trivial (TransitionSystem.runAllowed_of_mem hcalls s) hrun
    · have hnone : as.countP (fun _ => false) = 0 := by simp
      have hle := threadSum_le Pc.rank_le s.pc
      omega
    · intro s₁ a s₂ _ hcall hstep
      refine ⟨trivial, ?_⟩
      cases a with
      | call | print => cases hcall
      | advance t => exact advance_rank_lt hstep
  · intro hstuck
    exact settled_of_stuck hm (reachable_inv (by omega) (hs.run hrun))
      fun t => hstuck (.advance t) rfl

/-- The writers `w` and `w'` find one free slot, and `w` takes it. -/
def oneSlotSchedule {T : Type u} (w : T) : List (Action T) :=
  List.replicate 7 (.advance w)

theorem semaphoreQueue_settles_full :
    ∃ s s' : State (Fin 2), s.pc 0 = .inCall (.add 7) .wait ∧
      s.pc 1 = .inCall (.add 8) .wait ∧
      (queueSystem (Fin 2) 1).run s (oneSlotSchedule 0) = some s' ∧
      s'.pc 1 = .inCall (.add 8) .wait ∧ s'.owner = none ∧
      Settled 1 s'.q s'.stage := by
  obtain ⟨s, s', hcall, hrun, hpc0, hpc1, h0, h1, hsem⟩ : ∃ s s',
      (queueSystem (Fin 2) 1).run (start (Fin 2) 1)
        [.call 0 (.add 7), .call 1 (.add 8)] = some s ∧
      (queueSystem (Fin 2) 1).run s (oneSlotSchedule 0) = some s' ∧
      s.pc 0 = .inCall (.add 7) .wait ∧ s.pc 1 = .inCall (.add 8) .wait ∧
      s'.pc 0 = .idle ∧ s'.pc 1 = .inCall (.add 8) .wait ∧
      s'.sem .slots = 0 :=
    ⟨_, _, rfl, rfl, rfl, rfl, rfl, rfl, rfl⟩
  have hs : (queueSystem (Fin 2) 1).Reachable s :=
    TransitionSystem.Reachable.run (.initial rfl) hcall
  have hcalls : ∀ a ∈ oneSlotSchedule (0 : Fin 2), a.isCall = false := by
    simp [oneSlotSchedule, Action.isCall]
  have hmain := semaphoreQueue_settles (by decide) hs hcalls hrun
  refine ⟨s, s', hpc0, hpc1, hrun, h1, hmain.2 ?_⟩
  intro a hcall
  cases a with
  | call | print => cases hcall
  | advance t =>
      change advance s' t = none
      match t with
      | 0 => simp [advance, h0]
      | 1 => simp [advance, h1, Call.needs, hsem]

end Semaphore
end BoundedQueue
end OsFifthSem
