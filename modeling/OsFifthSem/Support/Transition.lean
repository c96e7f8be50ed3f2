import Mathlib.Data.List.Basic
import Mathlib.Order.Basic

/-!
# Guarded runs of a labelled transition system

A `TransitionSystem` is a set of initial states together with a partial step
function.  The scheduling choices of a concurrent program are the labels, so
a label determines the next state, and a label which is not enabled has none.

Many properties hold only along runs whose steps avoid some branch.  Such a
restriction is a predicate on a state and the label taken in it;
`ReachableUnder` collects the states reached by steps that all satisfy it.
-/

namespace OsFifthSem
namespace Support

universe u v

/-- A labelled transition system with a partial, deterministic step. -/
structure TransitionSystem (σ : Type u) (α : Type v) where
  Initial : σ → Prop
  step : σ → α → Option σ

namespace TransitionSystem

variable {σ : Type u} {α : Type v}

/-- States reached from an initial state by steps which all satisfy
`allowed` in the state where they are taken. -/
inductive ReachableUnder (S : TransitionSystem σ α)
    (allowed : σ → α → Prop) : σ → Prop
  | initial {s : σ} (hs : S.Initial s) : ReachableUnder S allowed s
  | step {s s' : σ} {a : α} (hs : ReachableUnder S allowed s)
      (ha : allowed s a) (hstep : S.step s a = some s') :
      ReachableUnder S allowed s'

/-- States reached by arbitrary steps. -/
def Reachable (S : TransitionSystem σ α) : σ → Prop :=
  S.ReachableUnder fun _ _ => True

/-- The invariant rule: a property of the initial states which every allowed
step preserves holds in every state reached by allowed steps. -/
theorem ReachableUnder.invariant
    {S : TransitionSystem σ α} {allowed : σ → α → Prop} {P : σ → Prop}
    (hinit : ∀ s, S.Initial s → P s)
    (hstep : ∀ s a s', P s → allowed s a → S.step s a = some s' → P s')
    {s : σ} (hs : S.ReachableUnder allowed s) : P s := by
  induction hs with
  | initial hs => exact hinit _ hs
  | step _ ha hstep' ih => exact hstep _ _ _ ih ha hstep'

/-- The invariant rule with an invariant that is already known: a step may
assume that its source is reached by allowed steps. -/
theorem ReachableUnder.invariant_of
    {S : TransitionSystem σ α} {allowed : σ → α → Prop} {P : σ → Prop}
    (hinit : ∀ s, S.Initial s → P s)
    (hstep : ∀ s a s', S.ReachableUnder allowed s → P s → allowed s a →
      S.step s a = some s' → P s')
    {s : σ} (hs : S.ReachableUnder allowed s) : P s := by
  induction hs with
  | initial hs => exact hinit _ hs
  | step hs ha hstep' ih => exact hstep _ _ _ hs ih ha hstep'

theorem ReachableUnder.mono
    {S : TransitionSystem σ α} {allowed allowed' : σ → α → Prop}
    (himp : ∀ s a, allowed s a → allowed' s a)
    {s : σ} (hs : S.ReachableUnder allowed s) :
    S.ReachableUnder allowed' s := by
  induction hs with
  | initial hs => exact .initial hs
  | step _ ha hstep ih => exact .step ih (himp _ _ ha) hstep

theorem ReachableUnder.reachable
    {S : TransitionSystem σ α} {allowed : σ → α → Prop}
    {s : σ} (hs : S.ReachableUnder allowed s) : S.Reachable s :=
  hs.mono fun _ _ _ => trivial

/-! ## Finite schedules -/

/-- Take the steps of a schedule in order. -/
def run (S : TransitionSystem σ α) : σ → List α → Option σ
  | s, [] => some s
  | s, a :: as => (S.step s a).bind fun s' => S.run s' as

@[simp] theorem run_nil (S : TransitionSystem σ α) (s : σ) :
    S.run s [] = some s := rfl

theorem run_cons (S : TransitionSystem σ α) (s : σ) (a : α) (as : List α) :
    S.run s (a :: as) = (S.step s a).bind fun s' => S.run s' as := rfl

theorem run_cons_eq_some_iff
    {S : TransitionSystem σ α} {s t : σ} {a : α} {as : List α} :
    S.run s (a :: as) = some t ↔
      ∃ s', S.step s a = some s' ∧ S.run s' as = some t := by
  rw [run_cons, Option.bind_eq_some_iff]

/-- Every step of the schedule is allowed in the state where it is taken. -/
def RunAllowed (S : TransitionSystem σ α) (allowed : σ → α → Prop) :
    σ → List α → Prop
  | _, [] => True
  | s, a :: as =>
      allowed s a ∧ ∀ s', S.step s a = some s' → S.RunAllowed allowed s' as

theorem RunAllowed.mono
    {S : TransitionSystem σ α} {allowed allowed' : σ → α → Prop}
    (himp : ∀ s a, allowed s a → allowed' s a) {as : List α} {s : σ}
    (h : S.RunAllowed allowed s as) : S.RunAllowed allowed' s as := by
  induction as generalizing s with
  | nil => trivial
  | cons a as ih => exact ⟨himp s a h.1, fun s' hs' => ih (h.2 s' hs')⟩

/-- A condition on the actions alone. -/
theorem runAllowed_iff_forall_mem
    {S : TransitionSystem σ α} {p : α → Prop} {as : List α} {s t : σ}
    (hrun : S.run s as = some t) :
    S.RunAllowed (fun _ a => p a) s as ↔ ∀ a ∈ as, p a := by
  induction as generalizing s with
  | nil => simp [RunAllowed]
  | cons a as ih =>
      obtain ⟨s₁, hstep, hrest⟩ := run_cons_eq_some_iff.mp hrun
      rw [List.forall_mem_cons, ← ih hrest]
      refine and_congr_right fun _ => ⟨fun h => h s₁ hstep, fun h s' hs' => ?_⟩
      obtain rfl := Option.some.inj (hs'.symm.trans hstep)
      exact h

/-- Two conditions on steps that agree in the states of an invariant. -/
theorem runAllowed_congr
    {S : TransitionSystem σ α} {P Q : σ → α → Prop} {I : σ → Prop}
    (hiff : ∀ s a, I s → (P s a ↔ Q s a))
    (hkeep : ∀ s a s', I s → Q s a → S.step s a = some s' → I s')
    {as : List α} {s : σ} (hs : I s) :
    S.RunAllowed P s as ↔ S.RunAllowed Q s as := by
  induction as generalizing s with
  | nil => exact Iff.rfl
  | cons a as ih =>
      constructor
      · rintro ⟨ha, hrest⟩
        have hq := (hiff s a hs).mp ha
        exact ⟨hq, fun s' h => (ih (hkeep s a s' hs hq h)).mp (hrest s' h)⟩
      · rintro ⟨hq, hrest⟩
        refine ⟨(hiff s a hs).mpr hq, fun s' h => ?_⟩
        exact (ih (hkeep s a s' hs hq h)).mpr (hrest s' h)

theorem ReachableUnder.run
    {S : TransitionSystem σ α} {allowed : σ → α → Prop}
    {as : List α} {s t : σ} (hs : S.ReachableUnder allowed s)
    (hallowed : S.RunAllowed allowed s as) (hrun : S.run s as = some t) :
    S.ReachableUnder allowed t := by
  induction as generalizing s with
  | nil =>
      obtain rfl : s = t := Option.some.inj hrun
      exact hs
  | cons a as ih =>
      obtain ⟨s', hstep, hrest⟩ := run_cons_eq_some_iff.mp hrun
      exact ih (hs.step hallowed.1 hstep) (hallowed.2 s' hstep) hrest

/-- An invariant of the allowed steps which gives `P`, while any other step
breaks `P`: the states along a run all have `P` if and only if all its steps
are allowed. -/
theorem forall_prefix_iff_runAllowed
    {S : TransitionSystem σ α} {allowed : σ → α → Prop} {I P : σ → Prop}
    (hprop : ∀ s, I s → P s)
    (hkeep : ∀ s a s', I s → allowed s a → S.step s a = some s' → I s')
    (hbreak : ∀ s a s', I s → ¬allowed s a → S.step s a = some s' → ¬P s')
    {as : List α} {s t : σ} (hs : I s) (hrun : S.run s as = some t) :
    (∀ pre, pre <+: as → ∀ s', S.run s pre = some s' → P s') ↔
      S.RunAllowed allowed s as := by
  induction as generalizing s with
  | nil =>
      refine iff_of_true ?_ trivial
      intro pre hpre s' hs'
      obtain rfl := List.prefix_nil.mp hpre
      obtain rfl : s = s' := Option.some.inj hs'
      exact hprop s hs
  | cons a as ih =>
      obtain ⟨s₁, hstep, hrest⟩ := run_cons_eq_some_iff.mp hrun
      have hone : ∀ s', S.step s a = some s' → s' = s₁ :=
        fun s' h => Option.some.inj (h.symm.trans hstep)
      constructor
      · intro hall
        have ha : allowed s a := by
          by_contra hna
          refine hbreak s a s₁ hs hna hstep (hall [a] ⟨as, rfl⟩ s₁ ?_)
          exact run_cons_eq_some_iff.mpr ⟨s₁, hstep, rfl⟩
        refine ⟨ha, fun s' hs' => ?_⟩
        obtain rfl := hone s' hs'
        refine (ih (hkeep s a _ hs ha hstep) hrest).mp fun pre hpre s'' hs'' => ?_
        refine hall (a :: pre) (List.cons_prefix_cons.mpr ⟨rfl, hpre⟩) s'' ?_
        exact run_cons_eq_some_iff.mpr ⟨_, hstep, hs''⟩
      · rintro ⟨ha, hallowed⟩ pre hpre s' hs'
        cases pre with
        | nil =>
            obtain rfl : s = s' := Option.some.inj hs'
            exact hprop s hs
        | cons x pre =>
            obtain ⟨rfl, hpre'⟩ := List.cons_prefix_cons.mp hpre
            obtain ⟨s₂, hstep₂, hrest₂⟩ := run_cons_eq_some_iff.mp hs'
            obtain rfl := hone s₂ hstep₂
            exact (ih (hkeep s x _ hs ha hstep) hrest).mpr (hallowed _ hstep)
              pre hpre' s' hrest₂

/-- An invariant of the allowed steps, while any other step leads into states
that no step leaves again: where a run ends tells whether all its steps were
allowed. -/
theorem runAllowed_or_doomed
    {S : TransitionSystem σ α} {allowed : σ → α → Prop} {I D : σ → Prop}
    (hkeep : ∀ s a s', I s → allowed s a → S.step s a = some s' → I s')
    (hdoom : ∀ s a s', I s → ¬allowed s a → S.step s a = some s' → D s')
    (hstay : ∀ s a s', D s → S.step s a = some s' → D s')
    {as : List α} {s t : σ} (hs : I s) (hrun : S.run s as = some t) :
    S.RunAllowed allowed s as ∧ I t ∨ ¬S.RunAllowed allowed s as ∧ D t := by
  have hdoomed : ∀ {as : List α} {s : σ}, D s → S.run s as = some t → D t := by
    intro as
    induction as with
    | nil =>
        intro s hs hrun
        obtain rfl : s = t := Option.some.inj hrun
        exact hs
    | cons a as ih =>
        intro s hs hrun
        obtain ⟨s₁, hstep, hrest⟩ := run_cons_eq_some_iff.mp hrun
        exact ih (hstay s a s₁ hs hstep) hrest
  induction as generalizing s with
  | nil =>
      obtain rfl : s = t := Option.some.inj hrun
      exact Or.inl ⟨trivial, hs⟩
  | cons a as ih =>
      obtain ⟨s₁, hstep, hrest⟩ := run_cons_eq_some_iff.mp hrun
      by_cases ha : allowed s a
      · rcases ih (hkeep s a s₁ hs ha hstep) hrest with ⟨hall, ht⟩ | ⟨hnot, ht⟩
        · refine Or.inl ⟨⟨ha, fun s' hs' => ?_⟩, ht⟩
          obtain rfl := Option.some.inj (hs'.symm.trans hstep)
          exact hall
        · exact Or.inr ⟨fun hall => hnot (hall.2 s₁ hstep), ht⟩
      · exact Or.inr ⟨fun hall => ha hall.1,
          hdoomed (hdoom s a s₁ hs ha hstep) hrest⟩

theorem runAllowed_true
    (S : TransitionSystem σ α) (s : σ) (as : List α) :
    S.RunAllowed (fun _ _ => True) s as := by
  induction as generalizing s with
  | nil => trivial
  | cons a as ih => exact ⟨trivial, fun s' _ => ih s'⟩

theorem Reachable.run
    {S : TransitionSystem σ α} {as : List α} {s t : σ}
    (hs : S.Reachable s) (hrun : S.run s as = some t) : S.Reachable t :=
  ReachableUnder.run hs (runAllowed_true S s as) hrun

/-- Take the steps of a schedule in order while each one passes a test. -/
def runWhile (S : TransitionSystem σ α) (check : σ → α → Bool) :
    σ → List α → Option σ
  | s, [] => some s
  | s, a :: as =>
      if check s a then (S.step s a).bind fun s' => S.runWhile check s' as
      else none

/-- A run whose steps pass a test; the test need only be sound in states with
a property that such steps preserve. -/
theorem ReachableUnder.runWhile_of
    {S : TransitionSystem σ α} {allowed : σ → α → Prop} {check : σ → α → Bool}
    {I : σ → Prop}
    (hinv : ∀ s a s', I s → check s a = true → S.step s a = some s' → I s')
    (hcheck : ∀ s a, I s → check s a = true → allowed s a) {as : List α}
    {s t : σ} (hs : S.ReachableUnder allowed s) (hI : I s)
    (hrun : S.runWhile check s as = some t) : S.ReachableUnder allowed t := by
  induction as generalizing s with
  | nil =>
      obtain rfl : s = t := Option.some.inj hrun
      exact hs
  | cons a as ih =>
      obtain ⟨hpass, hrun⟩ := Option.ite_none_right_eq_some.mp hrun
      obtain ⟨s', hstep, hrest⟩ := Option.bind_eq_some_iff.mp hrun
      exact ih (hs.step (hcheck s a hI hpass) hstep) (hinv s a s' hI hpass hstep)
        hrest

/-- A run whose steps pass a test that only allowed steps pass. -/
theorem ReachableUnder.runWhile
    {S : TransitionSystem σ α} {allowed : σ → α → Prop} {check : σ → α → Bool}
    (hcheck : ∀ s a, check s a = true → allowed s a) {as : List α} {s t : σ}
    (hs : S.ReachableUnder allowed s)
    (hrun : S.runWhile check s as = some t) : S.ReachableUnder allowed t :=
  hs.runWhile_of (I := fun _ => True) (fun _ _ _ _ _ _ => trivial)
    (fun s a _ => hcheck s a) trivial hrun

theorem runAllowed_of_runWhile
    {S : TransitionSystem σ α} {allowed : σ → α → Prop} {check : σ → α → Bool}
    (hcheck : ∀ s a, check s a = true → allowed s a) {as : List α} {s t : σ}
    (hrun : S.runWhile check s as = some t) :
    S.RunAllowed allowed s as ∧ S.run s as = some t := by
  induction as generalizing s with
  | nil => exact ⟨trivial, hrun⟩
  | cons a as ih =>
      obtain ⟨hpass, hrun⟩ := Option.ite_none_right_eq_some.mp hrun
      obtain ⟨s', hstep, hrest⟩ := Option.bind_eq_some_iff.mp hrun
      obtain ⟨hallowed, htail⟩ := ih hrest
      refine ⟨⟨hcheck s a hpass, fun s₁ hs₁ => ?_⟩,
        run_cons_eq_some_iff.mpr ⟨s', hstep, htail⟩⟩
      obtain rfl : s' = s₁ := Option.some.inj (hstep.symm.trans hs₁)
      exact hallowed

/-! ## Runs that reach a goal -/

/-- A measure that some steps decrease and no step increases, until a goal is
reached: a run with enough of these steps reaches the goal. -/
theorem exists_prefix_of_measure
    {S : TransitionSystem σ α} {allowed : σ → α → Prop} {I : σ → Prop}
    (Goal : σ → Prop) (mine : α → Bool) (measure : σ → ℕ)
    (hpos : ∀ s, I s → ¬Goal s → 0 < measure s)
    (hstep : ∀ s a s', I s → ¬Goal s → allowed s a → S.step s a = some s' →
      I s' ∧ measure s' + (if mine a then 1 else 0) ≤ measure s)
    {as : List α} {s t : σ} (hs : I s) (hallowed : S.RunAllowed allowed s as)
    (hrun : S.run s as = some t) (hcount : measure s ≤ as.countP mine) :
    ∃ pre, pre <+: as ∧ ∃ s', S.run s pre = some s' ∧ Goal s' := by
  induction as generalizing s with
  | nil =>
      have hzero : measure s = 0 := by simpa using hcount
      refine ⟨[], List.prefix_rfl, s, rfl, ?_⟩
      by_contra hgoal
      have := hpos s hs hgoal
      omega
  | cons a as ih =>
      by_cases hgoal : Goal s
      · exact ⟨[], List.nil_prefix, s, rfl, hgoal⟩
      · obtain ⟨s₁, hone, hrest⟩ := run_cons_eq_some_iff.mp hrun
        obtain ⟨hs₁, hless⟩ := hstep s a s₁ hs hgoal hallowed.1 hone
        rw [List.countP_cons] at hcount
        obtain ⟨pre, hpre, s', hrun', hgoal'⟩ :=
          ih hs₁ (hallowed.2 s₁ hone) hrest (by omega)
        refine ⟨a :: pre, List.cons_prefix_cons.mpr ⟨rfl, hpre⟩, s', ?_, hgoal'⟩
        exact run_cons_eq_some_iff.mpr ⟨s₁, hone, hrun'⟩

/-! ## Runs that look the same -/

/-- Two states that look the same through `view` run to states that look the
same when the second run leaves out the steps that cannot be seen, and then
they have the same steps to go on with.  `P` holds along the first run and `Q`
along the second one. -/
theorem run_filter
    {τ : Type*} {S : TransitionSystem σ α} {allowed : σ → α → Prop}
    (view : σ → τ) {visible : α → Bool} {P Q : σ → Prop}
    (hhidden : ∀ s a s', P s → visible a = false → S.step s a = some s' →
      P s' ∧ view s' = view s)
    (hsame : ∀ s a v, P s → Q v → view v = view s → visible a = true →
      allowed s a → (S.step s a).map view = (S.step v a).map view)
    (hP : ∀ s a s', P s → visible a = true → S.step s a = some s' → P s')
    (hQ : ∀ v a v', Q v → visible a = true → S.step v a = some v' → Q v')
    {as : List α} {s t v : σ} (hs : P s) (hv : Q v) (hview : view v = view s)
    (hallowed : S.RunAllowed allowed s as) (hrun : S.run s as = some t) :
    ∃ v', S.run v (as.filter visible) = some v' ∧ view v' = view t ∧
      ∀ a, visible a = true → allowed t a →
        (S.step t a).map view = (S.step v' a).map view := by
  induction as generalizing s v with
  | nil =>
      obtain rfl : s = t := Option.some.inj hrun
      exact ⟨v, rfl, hview, fun a => hsame s a v hs hv hview⟩
  | cons a as ih =>
      obtain ⟨s', hstep, hrest⟩ := run_cons_eq_some_iff.mp hrun
      have hrest' := hallowed.2 s' hstep
      cases ha : visible a with
      | false =>
          obtain ⟨hs', hkept⟩ := hhidden s a s' hs ha hstep
          rw [List.filter_cons_of_neg (by simp [ha])]
          exact ih hs' hv (hview.trans hkept.symm) hrest' hrest
      | true =>
          have hboth := hsame s a v hs hv hview ha hallowed.1
          rw [hstep] at hboth
          obtain ⟨v₁, hstep₁, hview₁⟩ := Option.map_eq_some_iff.mp hboth.symm
          obtain ⟨v', hrun', hrest''⟩ := ih (hP s a s' hs ha hstep)
            (hQ v a v₁ hv ha hstep₁) hview₁ hrest' hrest
          refine ⟨v', ?_, hrest''⟩
          rw [List.filter_cons_of_pos ha]
          exact run_cons_eq_some_iff.mpr ⟨v₁, hstep₁, hrun'⟩

end TransitionSystem
end Support
end OsFifthSem
