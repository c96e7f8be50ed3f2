import Mathlib.Logic.Function.Iterate

/-!
# States that a deterministic machine reaches

A machine that goes on by one function comes to rest where a step changes
nothing, and it can come to rest in one state only.
-/

namespace OsFifthSem
namespace Support

universe u

variable {M : Type u} {f : M → M} {m m₁ m₂ : M}

/-- The machine comes to `m₁` from `m`. -/
def Reaches (f : M → M) (m m₁ : M) : Prop := ∃ n, f^[n] m = m₁

namespace Reaches

theorem refl (f : M → M) (m : M) : Reaches f m m := ⟨0, rfl⟩

theorem one (f : M → M) (m : M) : Reaches f m (f m) := ⟨1, rfl⟩

theorem trans (h₁ : Reaches f m m₁) (h₂ : Reaches f m₁ m₂) : Reaches f m m₂ := by
  obtain ⟨n₁, rfl⟩ := h₁
  obtain ⟨n₂, rfl⟩ := h₂
  exact ⟨n₂ + n₁, Function.iterate_add_apply f n₂ n₁ m⟩

theorem head (h : Reaches f (f m) m₁) : Reaches f m m₁ :=
  (one f m).trans h

/-- From a state at rest nothing else is reached. -/
theorem eq_of_rest (h : Reaches f m m₁) (hrest : f m = m) : m₁ = m := by
  obtain ⟨n, rfl⟩ := h
  exact Function.iterate_fixed hrest n

/-- The state at rest is reached from every state on the way to it. -/
theorem rest_unique
    (h₁ : Reaches f m m₁) (h₂ : Reaches f m m₂) (hrest₁ : f m₁ = m₁)
    (hrest₂ : f m₂ = m₂) : m₁ = m₂ := by
  obtain ⟨n₁, rfl⟩ := h₁
  obtain ⟨n₂, rfl⟩ := h₂
  have hcomm : f^[n₂] (f^[n₁] m) = f^[n₁] (f^[n₂] m) := by
    rw [← Function.iterate_add_apply, ← Function.iterate_add_apply, Nat.add_comm]
  rwa [Function.iterate_fixed hrest₁, Function.iterate_fixed hrest₂] at hcomm

end Reaches

end Support
end OsFifthSem
