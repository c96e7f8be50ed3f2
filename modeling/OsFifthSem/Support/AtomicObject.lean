import OsFifthSem.Support.Refinement

/-!
# Linearizability

An object has a sequential meaning: what a call of a thread returns and how it
changes the value, or that it cannot take effect yet.  In the atomic system of
the object a call is three steps: it is made, it takes effect at one moment,
and it is answered.  Only the first and the last of them are seen.  A program
is linearizable when whatever is seen of its runs is seen of the atomic system
too.
-/

namespace OsFifthSem
namespace Support

open TransitionSystem

universe u v w x y z

/-- The sequential meaning of an object with calls `O`, answers `R` and values
`V` for the threads `T`.  A call with no answer waits. -/
structure AtomicObject (T : Type u) (O : Type v) (R : Type w) (V : Type x) where
  initial : V
  apply : V → T → O → Option (R × V)

/-- Where a thread stands in its call. -/
inductive CallPhase (O : Type v) (R : Type w)
  | idle
  | called (o : O)
  | answered (r : R)
  deriving DecidableEq, Repr

/-- What is seen of a call: that it is made, and its answer. -/
inductive CallEvent (T : Type u) (O : Type v) (R : Type w)
  | call (t : T) (o : O)
  | answer (t : T) (r : R)
  deriving DecidableEq, Repr

/-- The value of the object and the calls of the threads. -/
structure AtomicState (T : Type u) (O : Type v) (R : Type w) (V : Type x) where
  value : V
  phase : T → CallPhase O R

inductive AtomicAction (T : Type u) (O : Type v)
  | call (t : T) (o : O)
  | effect (t : T)
  | answer (t : T)

namespace AtomicObject

variable {T : Type u} {O : Type v} {R : Type w} {V : Type x} [DecidableEq T]

/-- One step of the atomic system. -/
def step (obj : AtomicObject T O R V) (s : AtomicState T O R V) :
    AtomicAction T O → Option (AtomicState T O R V)
  | .call t o =>
      match s.phase t with
      | .idle => some { s with phase := Function.update s.phase t (.called o) }
      | .called _ | .answered _ => none
  | .effect t =>
      match s.phase t with
      | .called o =>
          (obj.apply s.value t o).map fun (r, value) =>
            { value := value
              phase := Function.update s.phase t (.answered r) }
      | .idle | .answered _ => none
  | .answer t =>
      match s.phase t with
      | .answered _ =>
          some { s with phase := Function.update s.phase t .idle }
      | .idle | .called _ => none

/-- The moment at which a call takes effect is not seen. -/
def seen (s : AtomicState T O R V) :
    AtomicAction T O → List (CallEvent T O R)
  | .call t o => [.call t o]
  | .effect _ => []
  | .answer t =>
      match s.phase t with
      | .answered r => [.answer t r]
      | .idle | .called _ => []

/-- The object shared by all threads, with no call under way at first. -/
def system (obj : AtomicObject T O R V) :
    TransitionSystem (AtomicState T O R V) (AtomicAction T O) where
  Initial := fun s => s = { value := obj.initial, phase := fun _ => .idle }
  step := obj.step

/-- Whatever is seen of the allowed runs of `S` is seen of the atomic
object. -/
def Linearizable (obj : AtomicObject T O R V) {σ : Type y} {α : Type z}
    (S : TransitionSystem σ α) (allowed : σ → α → Prop)
    (obs : σ → α → List (CallEvent T O R)) : Prop :=
  ∀ events, S.IsTraceUnder allowed obs events →
    obj.system.IsTrace seen events

/-! ## Runs of the atomic system -/

/-- The atomic system goes from `s` to `s'` and shows the given events. -/
def Explains (obj : AtomicObject T O R V) (s : AtomicState T O R V)
    (events : List (CallEvent T O R)) (s' : AtomicState T O R V) : Prop :=
  ∃ as, obj.system.run s as = some s' ∧ obj.system.trace seen s as = events

variable {obj : AtomicObject T O R V} {s s₁ s' : AtomicState T O R V}
  {events events' : List (CallEvent T O R)} {t : T} {o : O} {r : R} {v : V}

theorem explains_of_step
    {a : AtomicAction T O} (hstep : obj.step s a = some s') :
    obj.Explains s (seen s a) s' := by
  refine ⟨[a], run_cons_eq_some_iff.mpr ⟨s', hstep, rfl⟩, ?_⟩
  rw [trace_cons (S := obj.system) hstep, trace_nil, List.append_nil]

namespace Explains

/-- A step that is not seen and changes nothing. -/
theorem silent (s : AtomicState T O R V) : obj.Explains s [] s :=
  ⟨[], rfl, rfl⟩

theorem trans
    (h : obj.Explains s events s₁) (h' : obj.Explains s₁ events' s') :
    obj.Explains s (events ++ events') s' := by
  obtain ⟨as, hrun, rfl⟩ := h
  obtain ⟨bs, hrun', rfl⟩ := h'
  exact ⟨as ++ bs, run_append hrun hrun', trace_append hrun⟩

theorem call
    (hidle : s.phase t = .idle) (o : O) :
    obj.Explains s [.call t o]
      { s with phase := Function.update s.phase t (.called o) } := by
  apply explains_of_step (a := .call t o)
  simp [step, hidle]

theorem effect
    (hcalled : s.phase t = .called o)
    (happly : obj.apply s.value t o = some (r, v)) :
    obj.Explains s []
      { value := v, phase := Function.update s.phase t (.answered r) } := by
  apply explains_of_step (a := .effect t)
  simp [step, hcalled, happly]

theorem answer (hanswered : s.phase t = .answered r) :
    obj.Explains s [.answer t r]
      { s with phase := Function.update s.phase t .idle } := by
  have hseen : seen s (.answer t) = [.answer t r] := by
    simp [seen, hanswered]
  rw [← hseen]
  apply explains_of_step (a := .answer t)
  simp [step, hanswered]

/-- A call that takes effect and is answered in one step. -/
theorem effect_answer
    (hcalled : s.phase t = .called o)
    (happly : obj.apply s.value t o = some (r, v)) :
    obj.Explains s [.answer t r]
      { value := v, phase := Function.update s.phase t .idle } := by
  have heffect := effect hcalled happly
  have hanswer : obj.Explains
      { value := v, phase := Function.update s.phase t (.answered r) }
      [.answer t r] _ := answer (Function.update_self t _ _)
  simpa using heffect.trans hanswer

end Explains

/-! ## Refinement relations -/

section Relation

variable {σ : Type y} {α : Type z} {S : TransitionSystem σ α}
  {allowed : σ → α → Prop} {obs : σ → α → List (CallEvent T O R)}
  (Rel : σ → AtomicState T O R V → Prop)
  (hinit : ∀ s, S.Initial s →
    Rel s { value := obj.initial, phase := fun _ => .idle })
  (hstep : ∀ s u a s', S.ReachableUnder allowed s → Rel s u → allowed s a →
    S.step s a = some s' → ∃ u', obj.Explains u (obs s a) u' ∧ Rel s' u')
include hinit hstep

/-- A relation whose steps are explained by the atomic system is a forward
simulation. -/
theorem forwardSim_of_relation :
    ForwardSim S allowed obs obj.system seen Rel := by
  refine ⟨fun s hs => ⟨_, rfl, hinit s hs⟩, ?_⟩
  intro s u a s' hs hrel ha hone
  obtain ⟨u', ⟨bs, hrun, htrace⟩, hrel'⟩ := hstep s u a s' hs hrel ha hone
  exact ⟨bs, u', hrun, htrace, hrel'⟩

/-- A program is linearizable when each of its steps, read through a relation
with the states of the atomic system, is explained there. -/
theorem linearizable_of_relation : obj.Linearizable S allowed obs :=
  fun _ htrace =>
    (forwardSim_of_relation Rel hinit hstep).isTrace htrace

variable (obj obs) in
/-- Every state of the program is then related to one of the atomic
system. -/
theorem related_of_relation
    {s : σ} (hs : S.ReachableUnder allowed s) : ∃ u, Rel s u := by
  obtain ⟨u, -, hrel⟩ :=
    (forwardSim_of_relation Rel hinit hstep).reachable hs
  exact ⟨u, hrel⟩

end Relation

end AtomicObject
end Support
end OsFifthSem
