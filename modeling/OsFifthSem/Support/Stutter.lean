import Mathlib.Logic.Function.Iterate

/-!
# Stuttering simulations between deterministic systems

A concrete system takes several steps for one step of an abstract one.  A step
of the concrete system either stutters, and then its rank drops, or it performs
the step of the abstract system, or both systems have come to rest.  So every
concrete state stands for an abstract state that is reached, and every abstract
state that is reached has a concrete one.
-/

namespace OsFifthSem
namespace Support

universe u v

variable {M : Type u} {A : Type v}

/-- `Sim` relates the states of `f` with those of `g` up to stuttering, and
the concrete states at rest are the final ones. -/
structure StutterSim (f : M → M) (g : A → A) (Sim : M → A → Prop)
    (rank : M → ℕ) (Final : M → Prop) : Prop where
  step : ∀ m a, Sim m a →
    (Final m ∧ f m = m ∧ g a = a) ∨
    (Sim (f m) a ∧ rank (f m) < rank m) ∨
    (Sim (f m) (g a) ∧ g a ≠ a)

namespace StutterSim

variable {f : M → M} {g : A → A} {Sim : M → A → Prop} {rank : M → ℕ}
  {Final : M → Prop} {m : M} {a : A}

/-- Every concrete state that is reached stands for an abstract one. -/
theorem follows
    (h : StutterSim f g Sim rank Final) (hsim : Sim m a) (n : ℕ) :
    ∃ j, Sim (f^[n] m) (g^[j] a) := by
  induction n with
  | zero => exact ⟨0, hsim⟩
  | succ n ih =>
      obtain ⟨j, hj⟩ := ih
      rw [Function.iterate_succ_apply']
      obtain ⟨-, hstays, -⟩ | ⟨hstutter, -⟩ | ⟨hmoves, -⟩ := h.step _ _ hj
      · exact ⟨j, hstays.symm ▸ hj⟩
      · exact ⟨j, hstutter⟩
      · refine ⟨j + 1, ?_⟩
        rw [Function.iterate_succ_apply']
        exact hmoves

/-- After finitely many stutters the concrete system comes to rest or performs
the abstract step. -/
theorem exists_move
    (h : StutterSim f g Sim rank Final) (hsim : Sim m a) :
    ∃ n, (Final (f^[n] m) ∧ Sim (f^[n] m) a ∧ g a = a) ∨
      (Sim (f^[n] m) (g a) ∧ g a ≠ a) := by
  induction hr : rank m using Nat.strongRecOn generalizing m with
  | _ r ih =>
      subst hr
      obtain ⟨hfinal, -, hrest⟩ | ⟨hstutter, hlt⟩ | hmoves := h.step m a hsim
      · exact ⟨0, Or.inl ⟨hfinal, hsim, hrest⟩⟩
      · obtain ⟨n, hn⟩ := ih _ hlt hstutter rfl
        exact ⟨n + 1, hn⟩
      · exact ⟨1, Or.inr hmoves⟩

/-- Every abstract state that is reached has a concrete one. -/
theorem reaches
    (h : StutterSim f g Sim rank Final) (hsim : Sim m a) (j : ℕ) :
    ∃ n, Sim (f^[n] m) (g^[j] a) := by
  induction j with
  | zero => exact ⟨0, hsim⟩
  | succ j ih =>
      obtain ⟨n, hn⟩ := ih
      rw [Function.iterate_succ_apply']
      obtain ⟨k, ⟨-, hk, hrest⟩ | ⟨hk, -⟩⟩ := h.exists_move hn
      · refine ⟨k + n, ?_⟩
        rw [Function.iterate_add_apply, hrest]
        exact hk
      · refine ⟨k + n, ?_⟩
        rw [Function.iterate_add_apply]
        exact hk

/-- When the abstract system is at rest, the concrete one comes to rest. -/
theorem exists_final
    (h : StutterSim f g Sim rank Final) (hsim : Sim m a) (hrest : g a = a) :
    ∃ n, Final (f^[n] m) ∧ Sim (f^[n] m) a := by
  obtain ⟨n, ⟨hfinal, hn, -⟩ | ⟨-, hne⟩⟩ := h.exists_move hsim
  · exact ⟨n, hfinal, hn⟩
  · exact absurd hrest hne

end StutterSim
end Support
end OsFifthSem
