import OsFifthSem.Support.Refinement
import OsFifthSem.Sync.BoundedQueue.Fifo

/-!
# Queues whose calls wait

The queues of `2.2f.c` and `2.2g.c` differ in how a call waits for room or for
a value.  What they share is that a call changes the list once, and that it
finds room or a value there.  This is enough for its callers to see a bounded
queue whose calls wait.
-/

namespace OsFifthSem
namespace BoundedQueue

open Support

universe u v w

/-- Whether a call has changed the list. -/
inductive Stage
  | idle
  | before (c : Call)
  | after (c : Call)
  deriving DecidableEq, Repr

namespace Call

variable {T : Type u} [DecidableEq T]

/-- `*val = tmp->val` in the thread's own variable. -/
def writes (c : Call) (q : Queue) (t : T) (val : T → ℤ) : T → ℤ :=
  match c with
  | .add _ => val
  | .get => (q.first.bind q.nodes).elim val fun n =>
      Function.update val t n.val

/-- What a call returns, with the value left in `*val`. -/
def reply : Call → ℤ → Reply
  | .add _, _ => ⟨1, none⟩
  | .get, val => ⟨1, some val⟩

/-- There is room for the value, or a value to take. -/
def Fits (m : ℤ) (vals : List ℤ) : Call → Prop
  | .add _ => (vals.length : ℤ) < m
  | .get => vals ≠ []

omit [DecidableEq T] in
/-- A call that finds what it needs in a list which `count` describes. -/
theorem fits_of_room
    {c : Call} {q : Queue} {m : ℤ} {vals : List ℤ} (hc : q.Counts m)
    (hroom : 0 < q.room c.needs) (hlength : (vals.length : ℤ) = q.count) :
    c.Fits m vals := by
  have hmax := hc.maxCount
  cases c with
  | add val =>
      change 0 < q.maxCount - q.count at hroom
      change (vals.length : ℤ) < m
      omega
  | get =>
      rintro rfl
      change 0 < q.count at hroom
      simp at hlength
      omega

end Call

variable {T : Type u} [DecidableEq T]

/-- What one step does to the queue, the calls and the variables of the
threads, and what is seen of it. -/
inductive StepKind (m : ℤ) (q : Queue) (stage : T → Stage) (val : T → ℤ)
    (q' : Queue) (stage' : T → Stage) (val' : T → ℤ) :
    List (CallEvent T Call Reply) → Prop
  | quiet (hstage : stage' = stage) (hval : val' = val)
      (hlists : ∀ xs vals, q.Lists xs vals → q'.Lists xs vals) :
      StepKind m q stage val q' stage' val' []
  | call (t : T) (c : Call) (hold : stage t = .idle)
      (hstage : stage' = Function.update stage t (.before c))
      (hval : val' = val) (hq : q' = q) :
      StepKind m q stage val q' stage' val' [.call t c]
  | link (t : T) (c : Call) (hold : stage t = .before c)
      (hstage : stage' = Function.update stage t (.after c))
      (hval : val' = c.writes q t val)
      (hlink : c.operation.link q = some q')
      (hfits : ∀ xs vals, q.Lists xs vals → c.Fits m vals) :
      StepKind m q stage val q' stage' val' []
  | answer (t : T) (c : Call) (hold : stage t = .after c)
      (hstage : stage' = Function.update stage t .idle)
      (hval : val' = val) (hq : q' = q) :
      StepKind m q stage val q' stage' val' [.answer t (c.reply (val t))]

/-- A thread goes on within its stage. -/
theorem StepKind.quiet_update
    {m : ℤ} {q q' : Queue} {stage stage' : T → Stage} {val : T → ℤ} {t : T}
    {x : Stage} (hstage : stage' = Function.update stage t x)
    (hx : x = stage t)
    (hlists : ∀ xs vals, q.Lists xs vals → q'.Lists xs vals) :
    StepKind m q stage val q' stage' val [] := by
  refine .quiet ?_ rfl hlists
  rw [hstage, hx, Function.update_eq_self]

/-- Where a call that has come so far stands in the bounded queue. -/
def Stage.callPhase (val : ℤ) : Stage → CallPhase Call Reply
  | .idle => .idle
  | .before c => .called c
  | .after c => .answered (c.reply val)

/-- The list holds the values of the bounded queue, and the calls stand where
their stages say. -/
structure Represents (q : Queue) (stage : T → Stage) (val : T → ℤ)
    (u : AtomicState T Call Reply (List ℤ)) : Prop where
  lists : ∃ xs, q.Lists xs u.value
  phase : ∀ t, u.phase t = (stage t).callPhase (val t)

variable {m : ℤ} {q q' : Queue} {stage stage' : T → Stage} {val val' : T → ℤ}
  {u : AtomicState T Call Reply (List ℤ)}
  {events : List (CallEvent T Call Reply)}

/-- A call changes the list as the bounded queue does. -/
theorem Queue.Lists.link
    {xs : List ℕ} {vals : List ℤ} {c : Call} (hl : q.Lists xs vals)
    (hfits : c.Fits m vals) (hlink : c.operation.link q = some q') (t : T) :
    ∃ vals', (∃ ys, q'.Lists ys vals') ∧
      (blockingFifoObject T m).apply vals t c =
        some (c.reply (c.writes q t val t), vals') ∧
      ∀ x, x ≠ t → c.writes q t val x = val x := by
  cases c with
  | add v =>
      obtain ⟨q₁, hadd, -, hl'⟩ := hl.addLink v
      obtain rfl : q₁ = q' := Option.some.inj (hadd.symm.trans hlink)
      exact ⟨_, ⟨_, hl'⟩, blockingFifoObject_add t v hfits, fun _ _ => rfl⟩
  | get =>
      obtain ⟨v, rest, rfl⟩ := List.exists_cons_of_ne_nil hfits
      have hlen := hl.length_eq
      obtain ⟨a, ys, rfl⟩ := List.exists_cons_of_length_pos
        (by rw [hlen]; simp : 0 < xs.length)
      have hfirst : q.first = some a := hl.cells.chain.head_eq
      have hcells := hl.cells
      rw [hfirst] at hcells
      obtain ⟨n, hcell, rfl, -⟩ := hcells.tail
      obtain ⟨q₁, hget, -, hl'⟩ := hl.getUnlink
      obtain rfl : q₁ = q' := Option.some.inj (hget.symm.trans hlink)
      have hwrites : Call.get.writes q t val = Function.update val t n.val := by
        simp [Call.writes, hfirst, hcell]
      rw [hwrites, Function.update_self]
      exact ⟨rest, ⟨ys, hl'⟩, blockingFifoObject_get m rest t n.val,
        fun x hx => Function.update_of_ne hx _ _⟩

/-- The step is explained by the bounded queue whose calls wait. -/
theorem StepKind.explained
    (hkind : StepKind m q stage val q' stage' val' events)
    (hrep : Represents q stage val u) :
    ∃ u', (blockingFifoObject T m).Explains u events u' ∧
      Represents q' stage' val' u' := by
  obtain ⟨⟨xs, hl⟩, hphase⟩ := hrep
  have hat : ∀ {t : T} {s : Stage}, stage t = s →
      u.phase t = s.callPhase (val t) := fun h => h ▸ hphase _
  -- one call goes on and the others stay where they are
  have hupdate : ∀ (t : T) (s : Stage), (∀ x, x ≠ t → val' x = val x) → ∀ x,
      Function.update u.phase t (s.callPhase (val' t)) x =
        (Function.update stage t s x).callPhase (val' x) := by
    intro t s hval x
    by_cases hx : x = t
    · subst hx
      simp
    · simp [hx, hphase x, hval x hx]
  cases hkind with
  | quiet hstage hval hlists =>
      subst hstage hval
      exact ⟨u, .silent u, ⟨xs, hlists xs _ hl⟩, hphase⟩
  | call t c hold hstage hval hq =>
      subst hstage hval hq
      exact ⟨_, .call (hat hold) c, ⟨xs, hl⟩,
        hupdate t (.before c) fun _ _ => rfl⟩
  | link t c hold hstage hval hlink hfits =>
      subst hstage hval
      have hfit := hfits xs _ hl
      obtain ⟨vals', hlists, happly, hothers⟩ := hl.link hfit hlink t
      exact ⟨_, .effect (hat hold) happly, hlists, hupdate t (.after c) hothers⟩
  | answer t c hold hstage hval hq =>
      subst hstage hval hq
      exact ⟨_, .answer (hat hold), ⟨xs, hl⟩, hupdate t .idle fun _ _ => rfl⟩

omit [DecidableEq T] in
/-- A new queue, with every thread outside. -/
theorem represents_queueInit (m : ℤ) (val : T → ℤ) :
    Represents (queueInit m) (fun _ => .idle) val
      { value := [], phase := fun _ => .idle } where
  lists := ⟨[], Queue.lists_queueInit m⟩
  phase := fun _ => rfl

/-- A queue with the variables to which its callers pass pointers: when every
step is of one of the kinds, the callers see a bounded queue whose calls
wait. -/
theorem linearizable_of_stepKind
    {σ : Type v} {α : Type w} {S : TransitionSystem σ α}
    (queue : σ → Queue) (stage : σ → T → Stage)
    {outputs : σ → α → (T → ℤ) → T → ℤ}
    {observed : σ × (T → ℤ) → α → List (CallEvent T Call Reply)}
    (hinit : ∀ s, S.Initial s →
      queue s = queueInit m ∧ stage s = fun _ => .idle)
    (hkind : ∀ s a s' val, S.Reachable s → S.step s a = some s' →
      StepKind m (queue s) (stage s) val (queue s') (stage s')
        (outputs s a val) (observed (s, val) a)) :
    (blockingFifoObject T m).Linearizable
      (S.withHistory (fun _ => -1) outputs) (fun _ _ => True) observed := by
  refine AtomicObject.linearizable_of_relation
    (fun p u => Represents (queue p.1) (stage p.1) p.2 u) ?_ ?_
  · rintro ⟨s, val⟩ ⟨hs, -⟩
    obtain ⟨hqueue, hstage⟩ := hinit s hs
    dsimp only
    rw [hqueue, hstage]
    exact represents_queueInit m val
  · intro p u a p' hp hrep _ hstep
    obtain ⟨hone, hval⟩ := TransitionSystem.withHistory_step.mp hstep
    have hreach := TransitionSystem.reachable_of_withHistory hp
    rw [hval]
    exact (hkind p.1 a p'.1 p.2 hreach hone).explained hrep

end BoundedQueue
end OsFifthSem
