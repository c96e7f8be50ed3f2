import OsFifthSem.Support.AtomicObject

/-!
# Programs around an atomic object

A client says for each thread which call it makes next and how it goes on
behind the answer.  What holds of a client of the atomic object, whatever the
order of the calls and of their effects, holds of the client of every
linearizable implementation of the object.
-/

namespace OsFifthSem
namespace Support

open TransitionSystem

universe u v w x y z c

/-- The code of the threads around their calls, with local states `C`.  A
thread may make no further calls, and it has no further states behind an answer
that it cannot go on from. -/
structure Client (T : Type u) (O : Type v) (R : Type w) (C : Type c) where
  start : T → C
  next : T → C → Option O
  resume : T → C → R → Option C

namespace Client

variable {T : Type u} {O : Type v} {R : Type w} {V : Type x} {C : Type c}
  [DecidableEq T] [DecidableEq O]

/-- The local states behind an event, which has to be one of the client. -/
def react (p : Client T O R C) (cs : T → C) :
    CallEvent T O R → Option (T → C)
  | .call t o => if p.next t (cs t) = some o then some cs else none
  | .answer t r => (p.resume t (cs t) r).map fun c => Function.update cs t c

/-- The local states behind a list of events. -/
def follow (p : Client T O R C) (cs : T → C) :
    List (CallEvent T O R) → Option (T → C)
  | [] => some cs
  | e :: events => (p.react cs e).bind fun cs => p.follow cs events

variable {p : Client T O R C} {cs cs' : T → C}
  {events : List (CallEvent T O R)}

theorem follow_append (cs : T → C) (es es' : List (CallEvent T O R)) :
    p.follow cs (es ++ es') =
      (p.follow cs es).bind fun cs => p.follow cs es' := by
  induction es generalizing cs with
  | nil => rfl
  | cons e es ih =>
      rw [List.cons_append, follow, follow, Option.bind_assoc]
      congr 1
      funext cs₁
      exact ih cs₁

/-- What holds of the object and the local states at first and is kept by
calls, effects and answers. -/
structure Invariant (obj : AtomicObject T O R V) (p : Client T O R C)
    (I : AtomicState T O R V → (T → C) → Prop) : Prop where
  initial : I { value := obj.initial, phase := fun _ => .idle } p.start
  call : ∀ u cs t o, I u cs → u.phase t = .idle →
    p.next t (cs t) = some o →
      I { u with phase := Function.update u.phase t (.called o) } cs
  effect : ∀ u cs t o r v, I u cs → u.phase t = .called o →
    obj.apply u.value t o = some (r, v) →
      I { value := v, phase := Function.update u.phase t (.answered r) } cs
  answer : ∀ u cs t r c, I u cs → u.phase t = .answered r →
    p.resume t (cs t) r = some c →
      I { u with phase := Function.update u.phase t .idle }
        (Function.update cs t c)

namespace Invariant

variable {obj : AtomicObject T O R V}
  {I : AtomicState T O R V → (T → C) → Prop}

theorem step
    (h : Invariant obj p I) {u u' : AtomicState T O R V}
    {a : AtomicAction T O} (hI : I u cs) (hstep : obj.step u a = some u')
    (hfollow : p.follow cs (AtomicObject.seen u a) = some cs') : I u' cs' := by
  cases a with
  | call t o =>
      cases hphase : u.phase t with
      | idle =>
          obtain ⟨hnext, rfl⟩ : p.next t (cs t) = some o ∧ cs = cs' := by
            simpa [AtomicObject.seen, follow, react] using hfollow
          obtain rfl : _ = u' := by simpa [AtomicObject.step, hphase] using hstep
          exact h.call u cs t o hI hphase hnext
      | called | answered => simp [AtomicObject.step, hphase] at hstep
  | effect t =>
      obtain rfl : cs = cs' := by
        simpa [AtomicObject.seen, follow] using hfollow
      cases hphase : u.phase t with
      | called o =>
          simp only [AtomicObject.step, hphase, Option.map_eq_some_iff,
            Prod.exists] at hstep
          obtain ⟨r, v, happly, rfl⟩ := hstep
          exact h.effect u cs t o r v hI hphase happly
      | idle | answered => simp [AtomicObject.step, hphase] at hstep
  | answer t =>
      cases hphase : u.phase t with
      | answered r =>
          obtain ⟨c, hresume, rfl⟩ : ∃ c, p.resume t (cs t) r = some c ∧
              Function.update cs t c = cs' := by
            simpa [AtomicObject.seen, hphase, follow, react] using hfollow
          obtain rfl : _ = u' := by simpa [AtomicObject.step, hphase] using hstep
          exact h.answer u cs t r c hI hphase hresume
      | idle | called => simp [AtomicObject.step, hphase] at hstep

theorem run
    (h : Invariant obj p I) {u u' : AtomicState T O R V}
    {as : List (AtomicAction T O)} (hI : I u cs)
    (hrun : obj.system.run u as = some u')
    (hfollow :
      p.follow cs (obj.system.trace AtomicObject.seen u as) = some cs') :
    I u' cs' := by
  induction as generalizing u cs with
  | nil =>
      obtain rfl : u = u' := Option.some.inj hrun
      obtain rfl : cs = cs' := Option.some.inj hfollow
      exact hI
  | cons a as ih =>
      obtain ⟨u₁, hstep, hrest⟩ := run_cons_eq_some_iff.mp hrun
      rw [trace_cons hstep, follow_append, Option.bind_eq_some_iff] at hfollow
      obtain ⟨cs₁, hone, hfollow⟩ := hfollow
      exact ih (h.step hI hstep hone) hrest hfollow

/-- The client of a linearizable implementation is in a state of the
invariant. -/
theorem of_linearizable
    (h : Invariant obj p I) {σ : Type y} {α : Type z}
    {S : TransitionSystem σ α} {allowed : σ → α → Prop}
    {obs : σ → α → List (CallEvent T O R)}
    (hlin : obj.Linearizable S allowed obs)
    (htrace : S.IsTraceUnder allowed obs events)
    (hfollow : p.follow p.start events = some cs) : ∃ u, I u cs := by
  obtain ⟨u, as, u', rfl, -, hrun, rfl⟩ := hlin events htrace
  exact ⟨u', h.run h.initial hrun hfollow⟩

end Invariant
end Client
end Support
end OsFifthSem
