import OsFifthSem.Proxy.Streaming.Steps

/-!
# Runs with finitely many clients

A concrete run involves only the clients of its schedule, so a condition on
all requests or all workers of a state can be tested along it.
-/

namespace OsFifthSem
namespace Proxy
namespace Streaming

open Support State

/-- Only the first `n` clients have a request or a worker. -/
def State.Below (s : State) (n : ℕ) : Prop :=
  ∀ r, n ≤ r → s.reqs r = none ∧ s.tasks r = none

theorem State.Below.init (numBuckets : ℕ) (defaultTtl : ℤ) (n : ℕ) :
    (State.init numBuckets defaultTtl).Below n :=
  fun _ _ => ⟨rfl, rfl⟩

theorem State.Below.lt_of_req
    {s : State} {n r : ℕ} {w : WriteReq} (hs : s.Below n)
    (hw : s.reqs r = some w) : r < n := by
  by_contra hle
  rw [(hs r (by omega)).1] at hw
  cases hw

theorem State.Below.lt_of_task
    {s : State} {n t : ℕ} {task : Task} (hs : s.Below n)
    (htask : s.tasks t = some task) : t < n := by
  by_contra hle
  rw [(hs t (by omega)).2] at htask
  cases htask

/-- The step is not one of a client beyond the first `n`. -/
def Action.within (n : ℕ) : Action → Bool
  | .request r _ => decide (r < n)
  | _ => true

theorem State.Below.of_step
    {s s' : State} {n : ℕ} {a : Action} (hs : s.Below n)
    (ha : a.within n = true) (h : s.step a = some s') : s'.Below n := by
  intro r hr
  obtain ⟨hreq, htask⟩ := hs r hr
  cases a with
  | request r' a =>
      have hlt : r' < n := by simpa [Action.within] using ha
      have hne : r ≠ r' := by omega
      refine ⟨((stepRequest_frame h).reqs r hne).trans hreq, ?_⟩
      rcases stepRequest_tasks h r with heq | ⟨heq, -⟩ | ⟨heq, -⟩
      · exact heq.trans htask
      · exact absurd heq hne
      · exact absurd heq hne
  | worker t a =>
      obtain ⟨task, -, ht, -⟩ := stepWorker_task h
      have hne : r ≠ t := by
        rintro rfl
        rw [htask] at ht
        cases ht
      refine ⟨?_, ((stepWorker_frame h).tasks r hne).trans htask⟩
      rcases (stepWorker_frame h).reqs r with heq | heq
      · exact heq.trans hreq
      · rw [heq, hreq]
        rfl
  | collector a =>
      have hframe := stepCollector_frame h
      exact ⟨hframe.reqs ▸ hreq, hframe.tasks ▸ htask⟩

theorem State.Below.of_run
    {s t : State} {n : ℕ} {as : List Action} (hs : s.Below n)
    (has : as.all (Action.within n) = true) (hrun : proxy.run s as = some t) :
    t.Below n := by
  induction as generalizing s with
  | nil =>
      obtain rfl : s = t := Option.some.inj hrun
      exact hs
  | cons a as ih =>
      obtain ⟨s', hstep, hrest⟩ :=
        TransitionSystem.run_cons_eq_some_iff.mp hrun
      rw [List.all_cons, Bool.and_eq_true] at has
      exact ih (hs.of_step has.1 hstep) has.2 hrest

/-- A run of `n` clients from an empty cache, each step of which passes a
test that is sound for `n` clients. -/
theorem reachableUnder_of_runWhile
    {allowed : State → Action → Prop} {n : ℕ} {check : State → Action → Bool}
    (hsound : ∀ s a, s.Below n → check s a = true → allowed s a)
    {numBuckets : ℕ} {defaultTtl : ℤ} {as : List Action} {s : State}
    (hrun : proxy.runWhile (fun s a => a.within n && check s a)
      (.init numBuckets defaultTtl) as = some s) :
    proxy.ReachableUnder allowed s := by
  refine TransitionSystem.ReachableUnder.runWhile_of (I := fun s => s.Below n)
    (fun s a s' hs hpass hstep => ?_) (fun s a hs hpass => ?_)
    (.initial (proxy_initial numBuckets defaultTtl)) (.init _ _ n) hrun
  · exact hs.of_step (Bool.and_eq_true_iff.mp hpass).1 hstep
  · exact hsound s a hs (Bool.and_eq_true_iff.mp hpass).2

end Streaming
end Proxy
end OsFifthSem
