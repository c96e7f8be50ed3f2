import OsFifthSem.Sync.BoundedQueue.CondVar.Invariant

/-!
# Safety and wake-ups of the queue with condition variables
-/

namespace OsFifthSem
namespace BoundedQueue
namespace CondVar

open Support

universe u

variable {T : Type u} [DecidableEq T] [Fintype T] {m : ℤ} {s s' : State T}
  {t : T}

/-- A call that starts leaves the invariant as it is. -/
theorem Inv.enter
    {pc : Pc} (hi : Inv m s) (hidle : s.pc t = .idle)
    (howns : pc.owns = false) (huncounted : pc.uncounted = 0)
    (hfacts : pc.Facts s.q) (hblocked : ∀ r, pc.blockedOn r = false)
    (hrelief : ∀ r, 0 ≤ pc.relief r) :
    Inv m (s.goto t s.q s.owner pc) := by
  apply hi.goto_same (hi.owned.keep (by rw [hidle, howns]; rfl))
  · rw [hidle, huncounted]
    rfl
  · exact hfacts
  · intro r
    rw [hidle]
    exact Or.inr ⟨hblocked r, fun _ => hrelief r⟩

theorem step_inv
    {a : Action T} (hi : Inv m s) (hstep : step s a = some s') :
    Inv m s' := by
  cases a with
  | call t c =>
      simp only [step] at hstep
      split at hstep
      · next hidle =>
          obtain rfl := Option.some.inj hstep
          apply hi.enter hidle rfl
          · cases c <;> rfl
          · trivial
          · exact fun _ => rfl
          · exact fun _ => le_rfl
      · cases hstep
  | print t =>
      simp only [step] at hstep
      split at hstep
      · next hidle =>
          obtain rfl := Option.some.inj hstep
          apply hi.enter hidle rfl rfl
          · trivial
          · exact fun _ => rfl
          · exact fun _ => le_rfl
      · cases hstep
  | advance t => exact advance_inv hi hstep
  | signal t woken =>
      cases woken with
      | none =>
          simp only [step] at hstep
          split at hstep
          · next c hpc =>
              split at hstep
              · next hnobody =>
                  obtain rfl := Option.some.inj hstep
                  exact hi.signal_none hpc hnobody
              · cases hstep
          · cases hstep
      | some u =>
          simp only [step] at hstep
          split at hstep
          · next c d hpc hupc =>
              split at hstep
              · next hside =>
                  obtain rfl := Option.some.inj hstep
                  exact hi.signal_some hpc hupc hside
              · cases hstep
          · cases hstep
  | spurious t =>
      simp only [step] at hstep
      split at hstep
      · next c hpc =>
          obtain rfl := Option.some.inj hstep
          apply hi.goto_same (hi.owned.keep (by rw [hpc]; rfl))
          · rw [hpc]
            cases c <;> rfl
          · trivial
          · intro r
            rw [hpc]
            exact Or.inr ⟨rfl, fun _ => le_rfl⟩
      · cases hstep

omit [DecidableEq T] in
theorem start_inv (hm : 0 ≤ m) : Inv m (start T m) where
  owned := by
    intro t
    simp [start, Pc.owns]
  counts := ⟨rfl, le_rfl, hm, rfl⟩
  listed := by
    refine ⟨[], [], Queue.lists_queueInit m, ?_⟩
    have hnone : threadSum Pc.uncounted (start T m).pc = 0 :=
      threadSum_eq_zero fun _ => rfl
    rw [hnone]
    rfl
  facts := fun _ => trivial
  wakeups := by
    rintro r ⟨t, ht⟩
    simp [start, Pc.blockedOn] at ht

theorem reachable_inv
    (hm : 0 ≤ m) (hs : (queueSystem T m).Reachable s) : Inv m s := by
  apply hs.invariant
  · rintro _ rfl
    exact start_inv hm
  · intro s a s' hi _ hstep
    exact step_inv hi hstep

omit [DecidableEq T] in
/-- With the mutex free, only signalled threads give relief. -/
theorem Inv.relief_eq
    (hi : Inv m s) (hfree : s.owner = none) (r : Resource) :
    threadSum (Pc.relief r) s.pc = threadCount (Pc.signalled r) s.pc := by
  rw [threadCount_eq_threadSum]
  apply threadSum_congr
  intro t
  have howns := hi.owned.not_owns_of_free hfree t
  unfold Pc.relief
  split <;> simp_all [Pc.owns, Pc.signalled]

omit [DecidableEq T] in
/-- With the mutex free, every change of the list is counted. -/
theorem Inv.listed_of_free
    (hi : Inv m s) (hfree : s.owner = none) :
    ∃ xs vals, s.q.Lists xs vals ∧ (vals.length : ℤ) = s.q.count := by
  obtain ⟨xs, vals, hl, hlen⟩ := hi.listed
  refine ⟨xs, vals, hl, ?_⟩
  have hnone := hi.owned.threadSum_eq_zero hfree Pc.uncounted_of_not_owns
  omega

/-- The queue with condition variables is a first-in first-out queue of at
most `max_count` values.  No assertion fails, no null pointer is followed, and
with the mutex free no thread is left blocked while what it waits for exceeds
the number of threads already signalled. -/
theorem condVarQueue_safe
    (hm : 1 ≤ m) (hs : (queueSystem T m).Reachable s) :
    (∀ t, s.pc t ≠ .assertFailed ∧ s.pc t ≠ .fault) ∧
      (∀ t, s.pc t = .inCall .get .link → s.q.first ≠ none) ∧
      (∃ vals, s.q.added = s.q.got ++ vals) ∧
      (s.owner = none →
        0 ≤ s.q.count ∧ s.q.count ≤ m ∧
        s.q.addCount - s.q.getCount = s.q.count ∧
        (∃ xs vals, Chain QNode.next s.q.nodes s.q.first xs ∧
          (xs.length : ℤ) = s.q.count ∧ s.q.last = xs.getLast? ∧
          xs.map (fun a => (s.q.nodes a).map QNode.val) = vals.map some ∧
          s.q.added = s.q.got ++ vals) ∧
        ((∃ t, (s.pc t).blockedOn .values = true) →
          s.q.count ≤ threadCount (Pc.signalled .values) s.pc) ∧
        ((∃ t, (s.pc t).blockedOn .slots = true) →
          m - s.q.count ≤ threadCount (Pc.signalled .slots) s.pc)) := by
  have hi := reachable_inv (by omega) hs
  refine ⟨?_, ?_, ?_, ?_⟩
  · intro t
    have hfacts := hi.facts t
    constructor
    · intro hpc
      rw [hpc] at hfacts
      exact hfacts
    · intro hpc
      rw [hpc] at hfacts
      exact hfacts
  · intro t hpc
    obtain ⟨q, hlink, -⟩ := hi.link hpc
    exact Queue.first_ne_none_of_getUnlink hlink
  · obtain ⟨xs, vals, hl, -⟩ := hi.listed
    exact ⟨vals, hl.history⟩
  · intro hfree
    refine ⟨hi.counts.nonneg, hi.counts.le_max, hi.counts.difference, ?_, ?_,
      ?_⟩
    · obtain ⟨xs, vals, hl, hlen⟩ := hi.listed_of_free hfree
      have hxs := hl.length_eq
      exact ⟨xs, vals, hl.cells.chain, by omega, hl.cells.last_eq,
        hl.cells.values, hl.history⟩
    · intro hblocked
      have hbound := hi.wakeups .values hblocked
      rwa [hi.relief_eq hfree] at hbound
    · intro hblocked
      have hbound := hi.wakeups .slots hblocked
      have hmax := hi.counts.maxCount
      rw [hi.relief_eq hfree] at hbound
      simp only [Queue.room] at hbound
      omega

/-- A consumer blocks on an empty queue, a producer adds a value and signals
it, and the mutex is free while the woken consumer still has to take it. -/
theorem condVarQueue_signalled :
    ∃ s : State (Fin 2), (queueSystem (Fin 2) 1).Reachable s ∧
      s.owner = none ∧ s.q.count = 1 ∧
      s.pc 0 = .inCall .get (.woken true) ∧ s.pc 1 = .idle ∧
      (∀ t, s.pc t ≠ .assertFailed ∧ s.pc t ≠ .fault) := by
  have hrun : ((queueSystem (Fin 2) 1).run (start (Fin 2) 1)
      [.call 0 .get, .advance 0, .advance 0, .advance 0,
        .call 1 (.add 7), .advance 1, .advance 1, .advance 1, .advance 1,
        .advance 1, .signal 1 (some 0), .advance 1]).map
      (fun s => (s.owner, s.q.count, s.pc 0, s.pc 1)) =
        some (none, 1, .inCall .get (.woken true), .idle) := rfl
  obtain ⟨s, hs, heq⟩ := Option.map_eq_some_iff.mp hrun
  simp only [Prod.mk.injEq] at heq
  obtain ⟨howner, hcount, hpc0, hpc1⟩ := heq
  have hreach : (queueSystem (Fin 2) 1).Reachable s :=
    TransitionSystem.Reachable.run (.initial rfl) hs
  exact ⟨s, hreach, howner, hcount, hpc0, hpc1,
    (condVarQueue_safe (by decide) hreach).1⟩

end CondVar
end BoundedQueue
end OsFifthSem
