import Mathlib.Data.List.Count
import Mathlib.Tactic.Ring
import OsFifthSem.Support.ThreadSum
import OsFifthSem.Support.Transition

/-!
# Schedules of bounded length

A measure that every allowed step lowers bounds the length of the schedules.
Some steps may be free: the environment takes them and they raise the measure
by a bounded amount, so each of them pays for a bounded number of steps.
-/

namespace OsFifthSem
namespace Support

universe u v w

namespace TransitionSystem

variable {σ : Type u} {α : Type v}

/-- A condition on the steps alone, whatever the states. -/
theorem runAllowed_of_mem
    {S : TransitionSystem σ α} {P : α → Prop} {as : List α}
    (h : ∀ a ∈ as, P a) (s : σ) : S.RunAllowed (fun _ a => P a) s as := by
  induction as generalizing s with
  | nil => trivial
  | cons a as ih =>
      refine ⟨h a List.mem_cons_self, fun s₁ _ => ih ?_ s₁⟩
      exact fun b hb => h b (List.mem_cons_of_mem a hb)

/-- A step lowers the measure, or it is free and raises it by at most `k`. -/
theorem length_le_of_measure
    {S : TransitionSystem σ α} {allowed : σ → α → Prop} {I : σ → Prop}
    (measure : σ → ℕ) (free : α → Bool) (k : ℕ)
    (hstep : ∀ s a s', I s → allowed s a → S.step s a = some s' →
      I s' ∧ measure s' + 1 ≤ measure s + if free a then k + 1 else 0)
    {as : List α} {s t : σ} (hs : I s) (hallowed : S.RunAllowed allowed s as)
    (hrun : S.run s as = some t) :
    as.length + measure t ≤ measure s + (k + 1) * as.countP free := by
  induction as generalizing s with
  | nil =>
      obtain rfl : s = t := Option.some.inj hrun
      simp
  | cons a as ih =>
      obtain ⟨s₁, hone, hrest⟩ := run_cons_eq_some_iff.mp hrun
      obtain ⟨hs₁, hless⟩ := hstep s a s₁ hs hallowed.1 hone
      have hle := ih hs₁ (hallowed.2 s₁ hone) hrest
      rw [List.length_cons, List.countP_cons, Nat.mul_add]
      split_ifs at hless ⊢ <;> omega

end TransitionSystem

/-! ## Two levels of a measure -/

/-- The measure of a pair in lexicographic order whose second part is at most
`bound`. -/
def lexMeasure (bound high low : ℕ) : ℕ :=
  (bound + 1) * high + low

theorem lexMeasure_lt_of_high
    {bound high high' low low' : ℕ} (hlow : low' ≤ bound)
    (hhigh : high' < high) :
    lexMeasure bound high' low' < lexMeasure bound high low := by
  calc
    lexMeasure bound high' low' ≤ (bound + 1) * high' + bound := by
      unfold lexMeasure
      omega
    _ < (bound + 1) * (high' + 1) := by
      rw [Nat.mul_succ]
      omega
    _ ≤ (bound + 1) * high := Nat.mul_le_mul_left _ hhigh
    _ ≤ lexMeasure bound high low := Nat.le_add_right _ _

theorem lexMeasure_le
    {bound high low high' : ℕ} (hlow : low ≤ bound) (hhigh : high ≤ high') :
    lexMeasure bound high low ≤ (bound + 1) * high' + bound :=
  Nat.add_le_add (Nat.mul_le_mul_left _ hhigh) hlow

/-! ## The threads that do not move -/

/-- A step that changes the weight of one thread only. -/
theorem threadSum_of_others
    {T : Type u} {P : Type v} {M : Type w} [Fintype T] [AddCommMonoid M]
    {weight : P → M} {pc pc' : T → P} (t : T)
    (hothers : ∀ x, x ≠ t → weight (pc' x) = weight (pc x)) :
    threadSum weight pc' + weight (pc t) =
      threadSum weight pc + weight (pc' t) := by
  classical
  have hsame : threadSum weight pc' =
      threadSum weight (Function.update pc t (pc' t)) := by
    refine Finset.sum_congr rfl fun x _ => ?_
    by_cases hx : x = t
    · subst hx
      simp
    · rw [hothers x hx, Function.update_of_ne hx]
  rw [hsame]
  exact threadSum_update weight pc t (pc' t)

/-- The sum of weights that are at most `k`. -/
theorem threadSum_le
    {T : Type u} {P : Type v} [Fintype T] {weight : P → ℕ} {k : ℕ}
    (hle : ∀ p, weight p ≤ k) (pc : T → P) :
    threadSum weight pc ≤ k * Fintype.card T := by
  calc
    threadSum weight pc ≤ ∑ _t : T, k :=
      Finset.sum_le_sum fun t _ => hle (pc t)
    _ = k * Fintype.card T := by
      rw [Finset.sum_const, Finset.card_univ, smul_eq_mul, Nat.mul_comm]

end Support
end OsFifthSem
