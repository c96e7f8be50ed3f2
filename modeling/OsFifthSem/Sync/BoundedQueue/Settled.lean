import OsFifthSem.Support.Termination
import OsFifthSem.Sync.BoundedQueue.Waiting

/-!
# Where the callers of a waiting queue come to rest

A bounded queue whose calls wait may leave calls without an answer, but only
those that it cannot answer: readers of an empty queue or writers to a full
one, and never both.
-/

namespace OsFifthSem
namespace BoundedQueue

universe u

variable {T : Type u}

/-- All calls have returned, or readers wait for an empty queue, or writers
wait for a full one. -/
def Settled (m : ℤ) (q : Queue) (stage : T → Stage) : Prop :=
  ∃ xs vals, q.Lists xs vals ∧ (vals.length : ℤ) = q.count ∧
    ((∀ t, stage t = .idle) ∨
      (vals = [] ∧ ∀ t, stage t = .idle ∨ stage t = .before .get) ∨
      ((vals.length : ℤ) = m ∧
        ∀ t, stage t = .idle ∨ ∃ v, stage t = .before (.add v)))

/-- The calls that are left wait for a resource of which there is none. -/
theorem settled_of_waits
    {m : ℤ} {q : Queue} {stage : T → Stage} (hm : 1 ≤ m) (hc : q.Counts m)
    (hlisted : ∃ xs vals, q.Lists xs vals ∧ (vals.length : ℤ) = q.count)
    (hwaits : ∀ t, stage t = .idle ∨
      ∃ c, stage t = .before c ∧ q.room c.needs = 0) :
    Settled m q stage := by
  obtain ⟨xs, vals, hl, hlength⟩ := hlisted
  have hmax := hc.maxCount
  refine ⟨xs, vals, hl, hlength, ?_⟩
  by_cases hempty : q.count = 0
  · refine Or.inr (Or.inl ⟨?_, fun t => ?_⟩)
    · rw [← List.length_eq_zero_iff]
      omega
    · rcases hwaits t with hidle | ⟨c, hbefore, hroom⟩
      · exact Or.inl hidle
      · cases c with
        | get => exact Or.inr hbefore
        | add v =>
            simp only [Call.needs, Queue.room] at hroom
            omega
  · -- nobody waits for a value
    have hadds : ∀ t, stage t = .idle ∨
        q.count = m ∧ ∃ v, stage t = .before (.add v) := by
      intro t
      rcases hwaits t with hidle | ⟨c, hbefore, hroom⟩
      · exact Or.inl hidle
      · cases c with
        | get => exact absurd hroom hempty
        | add v =>
            simp only [Call.needs, Queue.room] at hroom
            exact Or.inr ⟨by omega, v, hbefore⟩
    by_cases hfull : q.count = m
    · refine Or.inr (Or.inr ⟨hlength.trans hfull, fun t => ?_⟩)
      exact (hadds t).imp_right And.right
    · refine Or.inl fun t => ?_
      exact (hadds t).resolve_right fun h => hfull h.1

end BoundedQueue
end OsFifthSem
