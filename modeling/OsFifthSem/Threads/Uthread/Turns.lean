import Mathlib.Tactic.Common

/-!
# Whose turn it is

`k` threads run in turn, turn after turn, and the thread at offset `o` from the
first one has the turns `o`, `o + k`, `o + 2 * k` and so on.  A thread that
yields `y` times runs to its end in its turn with index `y`, counted from 0.
In its next turn it is resumed although it has finished, which ends the run.
-/

namespace OsFifthSem
namespace Uthread

/-- The number of turns before turn `t` of the thread at offset `o`. -/
def turnsBefore (k t o : ℕ) : ℕ := t / k + if o < t % k then 1 else 0

variable {k t o : ℕ}

theorem succ_div_mod (hk : 0 < k) :
    ((t + 1) / k = t / k ∧ (t + 1) % k = t % k + 1) ∨
      (t % k + 1 = k ∧ (t + 1) / k = t / k + 1 ∧ (t + 1) % k = 0) := by
  have hlt := Nat.mod_lt t hk
  have heq := Nat.div_add_mod t k
  by_cases hlast : t % k + 1 = k
  · right
    have hsucc : t + 1 = k * (t / k + 1) := by
      rw [Nat.mul_add, Nat.mul_one]
      omega
    refine ⟨hlast, ?_, ?_⟩
    · rw [hsucc, Nat.mul_div_cancel_left _ hk]
    · rw [hsucc, Nat.mul_mod_right]
  · left
    exact Nat.div_mod_unique hk |>.mpr ⟨by omega, by omega⟩

@[simp] theorem turnsBefore_self : turnsBefore k t (t % k) = t / k := by
  simp [turnsBefore]

@[simp] theorem turnsBefore_zero : turnsBefore k 0 o = 0 := by
  simp [turnsBefore]

theorem turnsBefore_succ_self (hk : 0 < k) :
    turnsBefore k (t + 1) (t % k) = t / k + 1 := by
  unfold turnsBefore
  obtain ⟨hdiv, hmod⟩ | ⟨hlast, hdiv, hmod⟩ := succ_div_mod (t := t) hk
  · rw [hdiv, hmod, if_pos (by omega)]
  · rw [hdiv, hmod, if_neg (by omega)]

theorem turnsBefore_succ_of_ne (ho : o < k) (hne : o ≠ t % k) :
    turnsBefore k (t + 1) o = turnsBefore k t o := by
  have hk : 0 < k := by omega
  unfold turnsBefore
  obtain ⟨hdiv, hmod⟩ | ⟨hlast, hdiv, hmod⟩ := succ_div_mod (t := t) hk
  · rw [hdiv, hmod]
    split_ifs <;> omega
  · rw [hdiv, hmod]
    split_ifs <;> omega

/-! ## The first turn of a finished thread -/

variable {y : ℕ → ℕ}

/-- The thread that has turn `t` has finished before; `y` gives the number of
yields at each offset. -/
def Late (k : ℕ) (y : ℕ → ℕ) (t : ℕ) : Prop := y (t % k) < t / k

instance : DecidablePred (Late k y) := fun t =>
  inferInstanceAs (Decidable (y (t % k) < t / k))

theorem late_of_offset (ho : o < k) : Late k y ((y o + 1) * k + o) := by
  have hk : 0 < k := by omega
  have hmod : ((y o + 1) * k + o) % k = o := by
    rw [Nat.add_comm, Nat.add_mul_mod_self_right, Nat.mod_eq_of_lt ho]
  have hdiv : ((y o + 1) * k + o) / k = y o + 1 := by
    rw [Nat.add_comm, Nat.add_mul_div_right _ _ hk, Nat.div_eq_of_lt ho,
      Nat.zero_add]
  unfold Late
  rw [hmod, hdiv]
  exact Nat.lt_succ_self _

/-- A thread has at most one late turn before the run ends. -/
theorem div_le_of_early
    (hk : 0 < k) (hfirst : ∀ t' < t, ¬ Late k y t') :
    t / k ≤ y (t % k) + 1 := by
  by_cases hlt : t < k
  · rw [Nat.div_eq_of_lt hlt]
    exact Nat.zero_le _
  · have hnot := hfirst (t - k) (by omega)
    unfold Late at hnot
    rw [← Nat.mod_eq_sub_mod (by omega)] at hnot
    rw [Nat.div_eq_sub_div hk (by omega)]
    omega

/-- The first late turn is the first turn after the last one its thread is to
have. -/
theorem div_eq_of_first_late
    (hk : 0 < k) (hlate : Late k y t) (hfirst : ∀ t' < t, ¬ Late k y t') :
    t / k = y (t % k) + 1 := by
  have hle := div_le_of_early hk hfirst
  unfold Late at hlate
  omega

/-- No thread yields more often than one that comes before it, and none more
than once more often than one that comes behind it. -/
def Balanced (k : ℕ) (y : ℕ → ℕ) : Prop :=
  ∀ i < k, ∀ j < k, y i ≤ y j + if i < j then 1 else 0

instance : Decidable (Balanced k y) :=
  inferInstanceAs (Decidable (∀ i < k, ∀ j < k, _))

/-- All threads have finished before the first late turn exactly when their
numbers of yields are balanced. -/
theorem balanced_iff_of_first_late
    (hk : 0 < k) (hlate : Late k y t) (hfirst : ∀ t' < t, ¬ Late k y t') :
    (∀ o < k, y o < turnsBefore k t o) ↔ Balanced k y := by
  have hdiv := div_eq_of_first_late hk hlate hfirst
  set p := t % k with hp
  have hpk : p < k := Nat.mod_lt t hk
  have hbefore : ∀ o, turnsBefore k t o = y p + 1 + if o < p then 1 else 0 := by
    intro o
    rw [turnsBefore, hdiv]
  -- the offset of the first late turn is the first one with fewest yields
  have hmin : ∀ o < k, y p ≤ y o ∧ (y o = y p → p ≤ o) := by
    intro o ho
    have hle : t ≤ (y o + 1) * k + o := by
      by_contra hgt
      exact hfirst _ (by omega) (late_of_offset ho)
    have heq := Nat.div_add_mod t k
    rw [hdiv, ← hp] at heq
    constructor
    · by_contra hlt
      have hmul : (y o + 2) * k ≤ (y p + 1) * k :=
        Nat.mul_le_mul_right k (by omega)
      have hcomm := Nat.mul_comm k (y p + 1)
      have hexpand : (y o + 2) * k = (y o + 1) * k + k := Nat.succ_mul _ _
      omega
    · intro hsame
      have hcomm := Nat.mul_comm k (y p + 1)
      rw [hsame] at hle
      omega
  constructor
  · intro hall i hi j hj
    have hfinished := hall i hi
    rw [hbefore] at hfinished
    obtain ⟨hmini, hfirsti⟩ := hmin i hi
    obtain ⟨hminj, hfirstj⟩ := hmin j hj
    split_ifs at hfinished ⊢ <;> omega
  · intro hbalanced o ho
    have hle := hbalanced o ho p hpk
    rw [hbefore]
    omega

end Uthread
end OsFifthSem
