import Mathlib.Algebra.BigOperators.Pi
import Mathlib.Algebra.BigOperators.Ring.Finset
import Mathlib.Algebra.Order.BigOperators.Group.Finset
import Mathlib.Data.Fintype.BigOperators
import Mathlib.Tactic.Abel

/-!
# Counting threads by their program points

Counting arguments about concurrent programs add up a weight of the program
point over all threads: how many threads are past some operation and have not
done the matching one yet.  A step moves one thread, so it changes the sum by
the difference of two weights.
-/

namespace OsFifthSem
namespace Support

universe u v w

variable {T : Type u} {P : Type v} {M : Type w} [Fintype T] [AddCommMonoid M]

/-- The sum of a weight over the program points of all threads. -/
def threadSum (weight : P → M) (pc : T → P) : M := ∑ t, weight (pc t)

/-- The number of threads whose program point passes a test. -/
def threadCount (test : P → Bool) (pc : T → P) : ℕ :=
  (Finset.univ.filter fun t => test (pc t) = true).card

theorem threadSum_update [DecidableEq T]
    (weight : P → M) (pc : T → P) (t : T) (p : P) :
    threadSum weight (Function.update pc t p) + weight (pc t) =
      threadSum weight pc + weight p := by
  have hnew := Finset.sum_update_of_mem (Finset.mem_univ t)
    (fun u => weight (pc u)) (weight p)
  have hold := Finset.sum_update_of_mem (Finset.mem_univ t)
    (fun u => weight (pc u)) (weight (pc t))
  rw [Function.update_eq_self] at hold
  have hcomp : (fun u => weight (Function.update pc t p u)) =
      Function.update (fun u => weight (pc u)) t (weight p) := by
    funext u
    by_cases hut : u = t
    · subst hut
      simp
    · simp [hut]
  unfold threadSum
  rw [hcomp, hnew, hold]
  abel

/-- One thread counts one more. -/
theorem sum_update_succ [DecidableEq T] (f : T → ℕ) (t : T) :
    ∑ u, Function.update f t (f t + 1) u = (∑ u, f u) + 1 := by
  have hsum := threadSum_update id f t (f t + 1)
  simp only [threadSum, id_eq] at hsum
  omega

theorem threadSum_eq_zero
    {weight : P → M} {pc : T → P} (hzero : ∀ t, weight (pc t) = 0) :
    threadSum weight pc = 0 :=
  Finset.sum_eq_zero fun t _ => hzero t

theorem threadSum_congr
    {weight weight' : P → M} {pc : T → P}
    (hsame : ∀ t, weight (pc t) = weight' (pc t)) :
    threadSum weight pc = threadSum weight' pc :=
  Finset.sum_congr rfl fun t _ => hsame t

theorem threadSum_add (weight weight' : P → M) (pc : T → P) :
    threadSum (fun p => weight p + weight' p) pc =
      threadSum weight pc + threadSum weight' pc :=
  Finset.sum_add_distrib

/-- All weights but the one of `t` are zero. -/
theorem threadSum_eq_single
    {weight : P → M} {pc : T → P} (t : T)
    (hzero : ∀ u, u ≠ t → weight (pc u) = 0) :
    threadSum weight pc = weight (pc t) :=
  Finset.sum_eq_single t (fun u _ hut => hzero u hut)
    fun h => absurd (Finset.mem_univ t) h

theorem threadCount_eq_threadSum (test : P → Bool) (pc : T → P) :
    (threadCount test pc : ℤ) =
      threadSum (fun p => if test p = true then (1 : ℤ) else 0) pc := by
  unfold threadCount threadSum
  rw [Finset.card_filter, Nat.cast_sum]
  refine Finset.sum_congr rfl fun t _ => ?_
  by_cases h : test (pc t) = true <;> simp [h]

theorem threadSum_nonneg
    {weight : P → ℤ} {pc : T → P} (hnonneg : ∀ p, 0 ≤ weight p) :
    0 ≤ threadSum weight pc :=
  Finset.sum_nonneg fun t _ => hnonneg (pc t)

theorem le_threadSum
    {weight : P → ℤ} (hnonneg : ∀ p, 0 ≤ weight p) (pc : T → P) (t : T) :
    weight (pc t) ≤ threadSum weight pc :=
  Finset.single_le_sum (f := fun u => weight (pc u))
    (fun u _ => hnonneg (pc u)) (Finset.mem_univ t)

end Support
end OsFifthSem
