import OsFifthSem.Proxy.Streaming.Consistent

/-!
# Failed loads

A worker creates its entry under `task->key`, which is the path with the
referer appended, and on failure it cancels under the path alone.  With a
referer this misses its own entry, and may hit the load of another request.
-/

namespace OsFifthSem
namespace Proxy
namespace Streaming

open Support

/-- The proxy, with the worker whose `cache_start_loading` created each
entry. -/
structure Tracked where
  state : State
  creator : ℕ → Option ℕ

namespace Tracked

/-- A new entry is one of the worker that took the step. -/
def creates (s : Tracked) (a : Action) (next : State) : ℕ → Option ℕ :=
  match a with
  | .worker t (.startLoading _ _) =>
      if next.cache.nextEntry = s.state.cache.nextEntry then s.creator
      else Function.update s.creator s.state.cache.nextEntry (some t)
  | _ => s.creator

/-- The entry of a key that is linked, loading, and was created by worker
`t`. -/
def LoadsFor (s : Tracked) (t : ℕ) (key : CString) : Prop :=
  ∃ a e, s.state.cache.Linked a ∧ s.state.cache.entries a = some e ∧
    e.key = key ∧ e.isLoading = true ∧ s.creator a = some t

/-- When worker `t` returns from a failed load, nothing is loading for its key
because of it; and no step of it removes or changes an entry of another
key. -/
structure CleansUp (s s' : Tracked) (t : ℕ) (task : Task) : Prop where
  own : task.pc = .failing → ¬s'.LoadsFor t task.key
  others : ∀ a e, s.state.cache.entries a = some e → e.key ≠ task.key →
    s'.state.cache.entries a = some e ∧
      (s.state.cache.Linked a → s'.state.cache.Linked a)

/-- The request has no referer, or its worker has nothing to clean up and
nothing is loading under the bare path. -/
def CancelsOwn (s : Tracked) (t : ℕ) (task : Task) : Prop :=
  task.req.refererBytes = [] ∨
    (¬s.LoadsFor t task.key ∧
      ∀ a e, s.state.cache.Linked a → s.state.cache.entries a = some e →
        e.key = task.path → e.isLoading = false)

end Tracked

/-- All runs of the proxy, with the creators of the entries. -/
def tracked : TransitionSystem Tracked Action where
  Initial := fun s => proxy.Initial s.state ∧ s.creator = fun _ => none
  step := fun s a =>
    (s.state.step a).map fun next => ⟨next, s.creates a next⟩

section Failure

variable {s s' : State} {t : ℕ} {task : Task}

open State

/-- Until it fails, a worker creates an entry for its key or rewrites the entry
that it was handed. -/
theorem stepWorker_cache
    {a : WorkerStep} (h : s.stepWorker t a = some s')
    (htask : s.tasks t = some task) (hpc : task.pc ≠ .failing) :
    s'.cache = s.cache ∨
      (∃ now, s'.cache = s.cache.created task.key now) ∨
      (task.pc.HasEntry ∧ ∃ e, s'.cache = s.cache.putEntry task.entry e) := by
  cases a with
  | startLoading now ok =>
      obtain ⟨task', htask', -, -, ⟨a, e, -, rfl⟩ | ⟨-, -, rfl⟩ | ⟨-, -, rfl⟩⟩ :=
        startLoading_spec h
      · exact .inl rfl
      · obtain rfl := Option.some.inj (htask.symm.trans htask')
        exact .inr (.inl ⟨now, rfl⟩)
      · exact .inl rfl
  | curlInit ok =>
      obtain ⟨task', -, -, rfl⟩ := curlInit_spec h
      exact .inl rfl
  | writeCallback chunk =>
      obtain ⟨task', task'', -, -, rfl, -⟩ := writeCallback_spec h
      exact .inl rfl
  | testLoading =>
      obtain ⟨task', e, -, -, -, ⟨-, rfl⟩ | ⟨-, rfl⟩⟩ := testLoading_spec h
      · exact .inl rfl
      · exact .inl rfl
  | appendData now ok =>
      obtain ⟨task', e, e', htask', hpc', -, -, -, -, ⟨-, rfl⟩ | ⟨-, rfl⟩⟩ :=
        appendData_spec h
      all_goals
        obtain rfl := Option.some.inj (htask.symm.trans htask')
        exact .inr (.inr ⟨by rw [hpc']; trivial, e', rfl⟩)
  | notifyWaitingClients =>
      obtain ⟨task', e, -, -, -, rfl⟩ := notifyWaitingClients_spec h
      exact .inl rfl
  | curlDone ok =>
      obtain ⟨task', -, -, rfl⟩ := curlDone_spec h
      exact .inl rfl
  | finishTest =>
      obtain ⟨task', e, -, -, -, rfl⟩ := finishTest_spec h
      exact .inl rfl
  | finishLoading now ok =>
      obtain ⟨task', e, e', htask', hpc', -, -, -, -, -, -, rfl⟩ :=
        finishLoading_spec h
      obtain rfl := Option.some.inj (htask.symm.trans htask')
      exact .inr (.inr ⟨by rw [hpc']; trivial, e', rfl⟩)
  | cancelLoading =>
      obtain ⟨task', htask', hpc', -⟩ := cancelLoading_spec h
      obtain rfl := Option.some.inj (htask.symm.trans htask')
      exact absurd hpc' hpc

/-- Until it fails, a worker leaves the entries of other keys alone. -/
theorem Consistent.others_kept
    (hs : Consistent s) {a : WorkerStep} (h : s.stepWorker t a = some s')
    (htask : s.tasks t = some task) (hpc : task.pc ≠ .failing)
    {x : ℕ} {e : Entry} (he : s.cache.entries x = some e)
    (hkey : e.key ≠ task.key) :
    s'.cache.entries x = some e ∧
      (s.cache.Linked x → s'.cache.Linked x) := by
  rcases stepWorker_cache h htask hpc with
    heq | ⟨now, heq⟩ | ⟨hhas, e', heq⟩
  · rw [heq]
    exact ⟨he, id⟩
  · rw [heq]
    exact ⟨hs.wf.created_entries he, fun hx => Cache.created_linked.mpr (.inl hx)⟩
  · have hne : x ≠ task.entry := by
      rintro rfl
      exact hkey ((hs.handed t task htask hhas).2 e he)
    rw [heq]
    refine ⟨?_, id⟩
    simpa [Cache.putEntry, hne] using he

/-- The worker cancels under its key exactly when there is no referer. -/
theorem Consistent.path_eq_key_iff
    (hs : Consistent s) (htask : s.tasks t = some task) :
    task.path = task.key ↔ task.req.refererBytes = [] := by
  obtain ⟨w, hw, -, -, hreq, hkey⟩ := hs.owned t task htask
  have hcache := hs.keyed t w hw
  rw [hreq, hkey] at hcache
  have hbytes := HttpReq.cacheKey_bytes hcache
  constructor
  · intro hpath
    rw [← hpath] at hbytes
    simpa [Task.path] using hbytes
  · intro hempty
    refine CString.ext ?_
    rw [hbytes, hempty, List.append_nil]
    rfl

end Failure

namespace Tracked

variable {s s' : Tracked} {t : ℕ} {task : Task}

theorem reachable_state (hs : tracked.Reachable s) : proxy.Reachable s.state := by
  refine hs.invariant (P := fun s => proxy.Reachable s.state) ?_ ?_
  · exact fun s hs => .initial hs.1
  · intro s a s' hstate _ hstep
    obtain ⟨next, hnext, rfl⟩ := Option.map_eq_some_iff.mp hstep
    exact hstate.step trivial hnext

/-- What the failing exit leaves of the cache: nothing linked is loading under
the bare path. -/
theorem cancelLoading_cleans
    {next : State} (hc : Consistent s.state)
    (h : s.state.cancelLoading t = some next)
    (htask : s.state.tasks t = some task) :
    (∃ a e, s.state.cache.Linked a ∧ s.state.cache.entries a = some e ∧
      e.key = task.path ∧ e.isLoading = true ∧
      next.cache.entries = Function.update s.state.cache.entries a none ∧
      ∀ x, next.cache.Linked x ↔ x ≠ a ∧ s.state.cache.Linked x) ∨
    ((∀ a e, s.state.cache.Linked a → s.state.cache.entries a = some e →
      e.key = task.path → e.isLoading = false) ∧
      next.cache = s.state.cache) := by
  obtain ⟨task', htask', -, -, hcase⟩ := State.cancelLoading_spec h
  obtain rfl := Option.some.inj (htask.symm.trans htask')
  rcases hcase with ⟨a, e, hmem, he, hkey, hload, rfl⟩ | ⟨hfind, rfl⟩
  · exact .inl ⟨a, e, ⟨_, hmem⟩, he, hkey, hload, rfl,
      fun x => hc.wf.removeEntry_linked hmem⟩
  · exact .inr ⟨fun a e ha he hkey =>
      hc.wf.findLoading_eq_none hfind ha he hkey, rfl⟩

/-- For every request, every worker and every step of it: the worker cleans up
after itself and only after itself, unless it cancels a load that has a
referer. -/
theorem cleansUp_iff
    (s s' : Tracked) (t : ℕ) (a : WorkerStep) (task : Task)
    (hs : tracked.Reachable s) (htask : s.state.tasks t = some task)
    (hstep : tracked.step s (.worker t a) = some s') :
    CleansUp s s' t task ↔ (task.pc = .failing → s.CancelsOwn t task) := by
  have hc := Consistent.of_reachable (reachable_state hs)
  obtain ⟨next, hnext, rfl⟩ := Option.map_eq_some_iff.mp hstep
  by_cases hpc : task.pc = .failing
  case neg =>
    refine iff_of_true ⟨fun h => absurd h hpc, ?_⟩ fun h => absurd h hpc
    exact fun x e he hkey => hc.others_kept hnext htask hpc he hkey
  obtain rfl := State.stepWorker_of_failing hnext htask hpc
  have hpath := hc.path_eq_key_iff htask
  constructor
  · rintro ⟨hown, hothers⟩ -
    by_cases href : task.req.refererBytes = []
    · exact .inl href
    have hne : task.path ≠ task.key := fun h => href (hpath.mp h)
    rcases cancelLoading_cleans hc hnext htask with
      ⟨a, e, -, he, hkey, -, hentries, -⟩ | ⟨hnone, hcache⟩
    · -- the load that was cancelled is one of another key
      obtain ⟨hkept, -⟩ := hothers a e he (hkey ▸ hne)
      rw [hentries, Function.update_self] at hkept
      cases hkept
    · refine .inr ⟨fun hloads => hown hpc ?_, hnone⟩
      simpa only [LoadsFor, creates, hcache] using hloads
  · intro hcond
    rcases cancelLoading_cleans hc hnext htask with
      ⟨a, e, ha, he, hkey, hload, hentries, hlinked⟩ | ⟨hnone, hcache⟩
    · have heq : task.path = task.key := by
        rcases hcond hpc with href | ⟨-, hnone⟩
        · exact hpath.mpr href
        · simp [hnone a e ha he hkey] at hload
      refine ⟨?_, ?_⟩
      · rintro - ⟨x, e', hx, he', hkey', -⟩
        obtain ⟨hxa, hx⟩ := (hlinked x).mp hx
        rw [hentries, Function.update_of_ne hxa] at he'
        have hfind := hc.wf.findEntry_of_linked ha he
        have hfind' := hc.wf.findEntry_of_linked hx he'
        rw [hkey', ← heq, ← hkey, hfind] at hfind'
        exact hxa (Prod.mk.inj (Option.some.inj hfind')).1.symm
      · intro x e' he' hkey'
        have hxa : x ≠ a := by
          rintro rfl
          obtain rfl := Option.some.inj (he.symm.trans he')
          exact hkey' (hkey.trans heq)
        refine ⟨?_, fun hx => (hlinked x).mpr ⟨hxa, hx⟩⟩
        rwa [hentries, Function.update_of_ne hxa]
    · refine ⟨?_, ?_⟩
      · rintro - ⟨x, e', hx, he', hkey', hload, hcreator⟩
        simp only [hcache] at hx he'
        rcases hcond hpc with href | ⟨hown, -⟩
        · simp [hnone x e' hx he' (hkey'.trans (hpath.mpr href).symm)] at hload
        · exact hown ⟨x, e', hx, he', hkey', hload, hcreator⟩
      · intro x e' he' _
        rw [hcache]
        exact ⟨he', id⟩

/-- `GET /` with the referer `a`. -/
def refererRequest : HttpReq := ⟨[47], [⟨refererName, [97]⟩]⟩

/-- The first client and its worker, whose transfer fails. -/
def failingLoad (x : HttpReq) : List Action :=
  arriveFirst 0 x ++ beginLoad 0 ++ [.worker 0 (.curlDone false)]

/-- With a referer the entry stays behind, loading for ever. -/
theorem failingLoad_leaves_entry :
    ∃ s s' task, tracked.run ⟨.init 1 60, fun _ => none⟩
        (failingLoad refererRequest) = some s ∧
      s.state.tasks 0 = some task ∧
      tracked.step s (.worker 0 .cancelLoading) = some s' ∧
      ¬CleansUp s s' 0 task := by
  refine ⟨_, _, _, rfl, rfl, rfl, fun h => ?_⟩
  exact h.own rfl ⟨0, _, ⟨0, List.mem_singleton_self 0⟩, rfl, rfl, rfl, rfl⟩

/-- Without one it is gone. -/
theorem cleansUp_iff_root :
    ∃ s s' task, tracked.run ⟨.init 1 60, fun _ => none⟩
        (failingLoad rootRequest) = some s ∧
      s.state.tasks 0 = some task ∧
      tracked.step s (.worker 0 .cancelLoading) = some s' ∧
      CleansUp s s' 0 task := by
  refine ⟨_, _, _, rfl, rfl, rfl,
    (cleansUp_iff _ _ 0 .cancelLoading _ ?_ rfl rfl).mpr fun _ => .inl rfl⟩
  exact TransitionSystem.Reachable.run (.initial ⟨proxy_initial 1 60, rfl⟩)
    (rfl : tracked.run ⟨.init 1 60, fun _ => none⟩ (failingLoad rootRequest) =
      some _)

end Tracked

end Streaming
end Proxy
end OsFifthSem
