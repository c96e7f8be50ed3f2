import Mathlib.Data.Set.Basic
import Mathlib.Order.Basic

/-!
# Deadlocks in a wait-for graph

A thread may wait for a lock, and a lock may be held by threads.  A
`WaitCycle` is a nonempty set of threads each of which waits for a lock that
another thread of the set holds; the set need not be finite.

The rule for excluding such sets is the usual one: the locks have ranks below
some bound, and a waiting thread holds only locks of smaller rank than the one
it waits for.  The ranks may change from state to state.
-/

namespace OsFifthSem
namespace Support

universe u v

variable {T : Type u} {L : Type v}

/-- Every thread of the nonempty set `D` waits for a lock that another thread
of `D` holds. -/
def WaitCycle (waits holds : T → L → Prop) (D : Set T) : Prop :=
  D.Nonempty ∧ ∀ t ∈ D, ∃ l, waits t l ∧ ∃ u ∈ D, u ≠ t ∧ holds u l

/-- Waiting only for locks that rank above every lock already held. -/
structure RankedWaits (waits holds : T → L → Prop) (rank : L → ℕ)
    (bound : ℕ) : Prop where
  above : ∀ t l k, waits t l → holds t k → rank k < rank l
  bounded : ∀ t l, waits t l → rank l < bound

/-- From a lock that a thread of `D` holds, the waits lead to locks of ever
larger rank. -/
theorem RankedWaits.exists_rank_ge
    {waits holds : T → L → Prop} {rank : L → ℕ} {bound : ℕ} {D : Set T}
    (hrank : RankedWaits waits holds rank bound)
    (hcycle : WaitCycle waits holds D) (k : ℕ) :
    ∃ t l, waits t l ∧ (∃ u ∈ D, holds u l) ∧ k ≤ rank l := by
  induction k with
  | zero =>
      obtain ⟨⟨t, ht⟩, hwait⟩ := hcycle
      obtain ⟨l, hl, u, hu, -, hheld⟩ := hwait t ht
      exact ⟨t, l, hl, ⟨u, hu, hheld⟩, Nat.zero_le _⟩
  | succ k ih =>
      obtain ⟨-, l, -, ⟨u, hu, hheld⟩, hk⟩ := ih
      obtain ⟨m, hm, v, hv, -, hheld'⟩ := hcycle.2 u hu
      have hlm : rank l < rank m := hrank.above u m l hm hheld
      exact ⟨u, m, hm, ⟨v, hv, hheld'⟩, by omega⟩

theorem RankedWaits.not_waitCycle
    {waits holds : T → L → Prop} {rank : L → ℕ} {bound : ℕ}
    (hrank : RankedWaits waits holds rank bound) (D : Set T) :
    ¬WaitCycle waits holds D := by
  intro hcycle
  obtain ⟨t, l, hwait, -, hge⟩ := hrank.exists_rank_ge hcycle bound
  have hlt := hrank.bounded t l hwait
  omega

end Support
end OsFifthSem
