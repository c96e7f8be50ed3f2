import OsFifthSem.Support.ThreadSum

/-!
# The owner of a mutex and the program points that own it

A program with one mutex has program points between lock and unlock.  In every
reachable state the threads at such points are exactly the recorded owner.
-/

namespace OsFifthSem
namespace Support

universe u v w

variable {T : Type u} {P : Type v} {owns : P → Bool} {owner : Option T}
  {pc : T → P} {t u : T} {p : P}

/-- The threads at program points that own the mutex are the owner. -/
def Owned (owns : P → Bool) (owner : Option T) (pc : T → P) : Prop :=
  ∀ t, owns (pc t) = true ↔ owner = some t

namespace Owned

theorem not_owns_of_ne
    (h : Owned owns owner pc) (ht : owns (pc t) = true) (hut : u ≠ t) :
    owns (pc u) = false := by
  by_contra hu
  have hot := (h t).mp ht
  have hou := (h u).mp (by simpa using hu)
  exact hut (Option.some.inj (hou.symm.trans hot))

theorem not_owns_of_free
    (h : Owned owns owner pc) (hfree : owner = none) (t : T) :
    owns (pc t) = false := by
  by_contra ht
  have hot := (h t).mp (by simpa using ht)
  simp [hfree] at hot

/-- A weight that only the owner has. -/
theorem threadSum_eq
    [Fintype T] {M : Type w} [AddCommMonoid M] {weight : P → M}
    (h : Owned owns owner pc) (ht : owns (pc t) = true)
    (hzero : ∀ p, owns p = false → weight p = 0) :
    threadSum weight pc = weight (pc t) := by
  apply threadSum_eq_single
  intro u hut
  exact hzero _ (h.not_owns_of_ne ht hut)

theorem threadSum_eq_zero
    [Fintype T] {M : Type w} [AddCommMonoid M] {weight : P → M}
    (h : Owned owns owner pc) (hfree : owner = none)
    (hzero : ∀ p, owns p = false → weight p = 0) :
    threadSum weight pc = 0 := by
  apply Support.threadSum_eq_zero
  intro t
  exact hzero _ (h.not_owns_of_free hfree t)

variable [DecidableEq T]

private theorem update_of
    {owner' : Option T} (h : Owned owns owner pc)
    (hself : owns p = true ↔ owner' = some t)
    (hothers : ∀ u, u ≠ t → (owner' = some u ↔ owner = some u)) :
    Owned owns owner' (Function.update pc t p) := by
  intro u
  by_cases hut : u = t
  · subst hut
    rw [Function.update_self]
    exact hself
  · rw [Function.update_of_ne hut, hothers u hut]
    exact h u

/-- A step inside or outside the critical section. -/
theorem keep
    (h : Owned owns owner pc) (hsame : owns p = owns (pc t)) :
    Owned owns owner (Function.update pc t p) := by
  apply h.update_of
  · rw [hsame]
    exact h t
  · exact fun _ _ => Iff.rfl

/-- Taking a free mutex. -/
theorem acquire
    (h : Owned owns owner pc) (hfree : owner = none) (howns : owns p = true) :
    Owned owns (some t) (Function.update pc t p) := by
  apply h.update_of
  · simp [howns]
  · intro u hut
    simp [hfree, hut.symm]

/-- Releasing the mutex. -/
theorem release
    (h : Owned owns owner pc) (hold : owns (pc t) = true)
    (howns : owns p = false) :
    Owned owns none (Function.update pc t p) := by
  apply h.update_of
  · simp [howns]
  · intro u hut
    simp [(h t).mp hold, hut.symm]

end Owned
end Support
end OsFifthSem
