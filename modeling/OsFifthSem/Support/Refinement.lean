import OsFifthSem.Support.Transition

/-!
# Forward simulations and what is seen of a run

An observation gives the events that are seen of a step; the events of a run
are its trace.  A forward simulation answers every allowed step of one system
by a run of another one with the same events.  So every trace of the first
system is one of the second, and an invariant of the second system holds, read
through the relation, of the first.
-/

namespace OsFifthSem
namespace Support
namespace TransitionSystem

universe u v w x y

variable {σ : Type u} {α : Type v} {τ : Type w} {β : Type x} {ε : Type y}

/-! ## Traces -/

/-- The events seen of a schedule. -/
def trace (S : TransitionSystem σ α) (obs : σ → α → List ε) :
    σ → List α → List ε
  | _, [] => []
  | s, a :: as =>
      obs s a ++ (S.step s a).elim [] fun s' => S.trace obs s' as

/-- The event lists of the runs whose steps are all allowed. -/
def IsTraceUnder (S : TransitionSystem σ α) (allowed : σ → α → Prop)
    (obs : σ → α → List ε) (events : List ε) : Prop :=
  ∃ s as t, S.Initial s ∧ S.RunAllowed allowed s as ∧
    S.run s as = some t ∧ S.trace obs s as = events

/-- The event lists of all runs. -/
def IsTrace (S : TransitionSystem σ α) (obs : σ → α → List ε)
    (events : List ε) : Prop :=
  S.IsTraceUnder (fun _ _ => True) obs events

variable {S : TransitionSystem σ α} {A : TransitionSystem τ β}
  {allowed : σ → α → Prop} {obs : σ → α → List ε} {obs' : τ → β → List ε}
  {R : σ → τ → Prop} {s s' t : σ} {u : τ} {a : α} {as bs : List α}

@[simp] theorem trace_nil : S.trace obs s [] = [] := rfl

theorem trace_cons (hstep : S.step s a = some s') :
    S.trace obs s (a :: as) = obs s a ++ S.trace obs s' as := by
  simp [trace, hstep]

theorem run_append
    (hrun : S.run s as = some s') (hrest : S.run s' bs = some t) :
    S.run s (as ++ bs) = some t := by
  induction as generalizing s with
  | nil =>
      obtain rfl : s = s' := Option.some.inj hrun
      exact hrest
  | cons a as ih =>
      obtain ⟨s₁, hstep, hrun⟩ := run_cons_eq_some_iff.mp hrun
      exact run_cons_eq_some_iff.mpr ⟨s₁, hstep, ih hrun⟩

theorem trace_append (hrun : S.run s as = some s') :
    S.trace obs s (as ++ bs) = S.trace obs s as ++ S.trace obs s' bs := by
  induction as generalizing s with
  | nil =>
      obtain rfl : s = s' := Option.some.inj hrun
      rfl
  | cons a as ih =>
      obtain ⟨s₁, hstep, hrun⟩ := run_cons_eq_some_iff.mp hrun
      rw [List.cons_append, trace_cons hstep, trace_cons hstep, ih hrun,
        List.append_assoc]

/-! ## The simulation rule -/

/-- Every allowed step of `S` is answered by a run of `A` with the same
events. -/
structure ForwardSim (S : TransitionSystem σ α) (allowed : σ → α → Prop)
    (obs : σ → α → List ε) (A : TransitionSystem τ β)
    (obs' : τ → β → List ε) (R : σ → τ → Prop) : Prop where
  initial : ∀ s, S.Initial s → ∃ u, A.Initial u ∧ R s u
  step : ∀ s u a s', S.ReachableUnder allowed s → R s u → allowed s a →
    S.step s a = some s' →
      ∃ bs u', A.run u bs = some u' ∧ A.trace obs' u bs = obs s a ∧ R s' u'

namespace ForwardSim

theorem run
    (h : ForwardSim S allowed obs A obs' R) (hs : S.ReachableUnder allowed s)
    (hR : R s u) (hallowed : S.RunAllowed allowed s as)
    (hrun : S.run s as = some t) :
    ∃ bs u', A.run u bs = some u' ∧ A.trace obs' u bs = S.trace obs s as ∧
      R t u' := by
  induction as generalizing s u with
  | nil =>
      obtain rfl : s = t := Option.some.inj hrun
      exact ⟨[], u, rfl, rfl, hR⟩
  | cons a as ih =>
      obtain ⟨s₁, hstep, hrest⟩ := run_cons_eq_some_iff.mp hrun
      obtain ⟨bs, u₁, hrun₁, htrace₁, hR₁⟩ :=
        h.step s u a s₁ hs hR hallowed.1 hstep
      obtain ⟨cs, u', hrun', htrace', hR'⟩ :=
        ih (hs.step hallowed.1 hstep) hR₁ (hallowed.2 s₁ hstep) hrest
      refine ⟨bs ++ cs, u', run_append hrun₁ hrun', ?_, hR'⟩
      rw [trace_append hrun₁, htrace₁, htrace', trace_cons hstep]

/-- Every trace of the allowed runs is a trace of the other system. -/
theorem isTrace
    (h : ForwardSim S allowed obs A obs' R) {events : List ε}
    (htrace : S.IsTraceUnder allowed obs events) : A.IsTrace obs' events := by
  obtain ⟨s, as, t, hs, hallowed, hrun, rfl⟩ := htrace
  obtain ⟨u, hu, hR⟩ := h.initial s hs
  obtain ⟨bs, u', hrun', htrace', -⟩ := h.run (.initial hs) hR hallowed hrun
  exact ⟨u, bs, u', hu, runAllowed_true A u bs, hrun', htrace'⟩

/-- Every state reached by allowed steps stands for a reachable one. -/
theorem reachable
    (h : ForwardSim S allowed obs A obs' R)
    (hs : S.ReachableUnder allowed s) : ∃ u, A.Reachable u ∧ R s u := by
  induction hs with
  | initial hs =>
      obtain ⟨u, hu, hR⟩ := h.initial _ hs
      exact ⟨u, .initial hu, hR⟩
  | step hs ha hstep ih =>
      obtain ⟨u, hu, hR⟩ := ih
      obtain ⟨bs, u', hrun, -, hR'⟩ := h.step _ u _ _ hs hR ha hstep
      exact ⟨u', hu.run hrun, hR'⟩

end ForwardSim

/-! ## History variables -/

/-- The system together with a record of its steps, which does not influence
them. -/
def withHistory {η : Type w} (S : TransitionSystem σ α) (start : η)
    (record : σ → α → η → η) : TransitionSystem (σ × η) α where
  Initial := fun p => S.Initial p.1 ∧ p.2 = start
  step := fun p a => (S.step p.1 a).map fun s' => (s', record p.1 a p.2)

theorem withHistory_step
    {η : Type w} {start : η} {record : σ → α → η → η} {p p' : σ × η} :
    (S.withHistory start record).step p a = some p' ↔
      S.step p.1 a = some p'.1 ∧ p'.2 = record p.1 a p.2 := by
  simp only [withHistory, Option.map_eq_some_iff]
  constructor
  · rintro ⟨s', hstep, rfl⟩
    exact ⟨hstep, rfl⟩
  · rintro ⟨hstep, hrecord⟩
    exact ⟨p'.1, hstep, Prod.ext rfl hrecord.symm⟩

/-- A history variable adds no states. -/
theorem reachable_of_withHistory
    {η : Type w} {start : η} {record : σ → α → η → η} {p : σ × η}
    (hp : (S.withHistory start record).Reachable p) : S.Reachable p.1 := by
  refine ReachableUnder.invariant (S := S.withHistory start record)
    (P := fun p => S.Reachable p.1) (fun p hp => .initial hp.1) ?_ hp
  intro p a p' hs _ hstep
  exact hs.step trivial (withHistory_step.mp hstep).1

end TransitionSystem
end Support
end OsFifthSem
