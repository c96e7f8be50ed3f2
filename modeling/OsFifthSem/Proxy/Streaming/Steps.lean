import OsFifthSem.Proxy.Cache.Contents
import OsFifthSem.Proxy.Streaming.Model

/-!
# What each step does

One inversion lemma for each step, and what the three kinds of steps leave
alone.  The later proofs cite these and do not unfold the steps.
-/

namespace OsFifthSem
namespace Proxy
namespace Streaming

open Support

variable {s s' : State}

namespace State

/-! ## Steps of a request -/

theorem readClient_spec
    {r : ℕ} {x : HttpReq} (h : s.readClient r x = some s') :
    s.reqs r = none ∧ ∃ key, x.cacheKey = some key ∧
      s' = s.setReq r (.arrived x key) := by
  simp only [readClient] at h
  split_ifs at h with hfresh
  obtain ⟨key, hkey, rfl⟩ := Option.map_eq_some_iff.mp h
  exact ⟨hfresh, key, hkey, rfl⟩

theorem lookupBegin_spec
    {r : ℕ} (h : s.lookupBegin r = some s') :
    ∃ w, s.reqs r = some w ∧ w.pc = .lookup ∧ s.Unlocked w.key ∧
      ((∃ a e, s.cache.findEntry w.key = some (a, e) ∧
        s' = (s.setLock (s.cache.bucketOf w.key) (some (.request r))).setReq r
          { w with pc := .inLookup, entry := a, loading := e.isLoading }) ∨
      (s.cache.findEntry w.key = none ∧
        s' = { s with
          cache := { s.cache with misses := s.cache.misses + 1 } }.setReq r
            (w.afterLookup 0 .missing false))) := by
  obtain ⟨w, hw, h⟩ := Option.bind_eq_some_iff.mp h
  obtain ⟨hguard, h⟩ := Option.ite_none_right_eq_some.mp h
  refine ⟨w, hw, hguard.1, hguard.2, ?_⟩
  cases hfind : s.cache.findEntry w.key with
  | none =>
      simp only [hfind, Option.some.injEq] at h
      exact Or.inr ⟨rfl, h.symm⟩
  | some p =>
      obtain ⟨a, e⟩ := p
      simp only [hfind, Option.some.injEq] at h
      exact Or.inl ⟨a, e, rfl, h.symm⟩

/-- The cache after the second half of a lookup. -/
def lookedUp (s : State) (w : WriteReq) (e : Entry) (now : ℤ) : Cache :=
  let res := readEntry w.loading e.data w.lookupArgs.1 w.lookupArgs.2
  if res.status = .newLoaded then
    { s.cache.putEntry w.entry (e.touch res.status now) with
      hits := s.cache.hits + 1 }
  else s.cache

theorem lookupEnd_spec
    {r : ℕ} {now : ℤ} {accepted : Bool}
    (h : s.lookupEnd r now accepted = some s') :
    ∃ w e, s.reqs r = some w ∧ w.pc = .inLookup ∧
      s.cache.entries w.entry = some e ∧
      s' = ({ s with cache := s.lookedUp w e now }.setLock
        (s.cache.bucketOf w.key) none).setReq r
          (w.afterLookup w.entry
            (readEntry w.loading e.data w.lookupArgs.1 w.lookupArgs.2)
            accepted) := by
  obtain ⟨w, hw, h⟩ := Option.bind_eq_some_iff.mp h
  obtain ⟨hguard, h⟩ := Option.ite_none_right_eq_some.mp h
  obtain ⟨e, he, rfl⟩ := Option.map_eq_some_iff.mp h
  exact ⟨w, e, hw, hguard, he, rfl⟩

theorem launchBgw_spec
    {r : ℕ} {ok : Bool} (h : s.launchBgw r ok = some s') :
    ∃ w, s.reqs r = some w ∧ w.pc = .launch ∧
      ((ok = true ∧ s' = (s.setTask r (.launched w.req w.key)).setReq r
        (w.beginStreaming true)) ∨
      (ok = false ∧ s' = s.setReq r { w with pc := .released })) := by
  obtain ⟨w, hw, h⟩ := Option.bind_eq_some_iff.mp h
  split_ifs at h with hguard hok
  · exact ⟨w, hw, hguard, Or.inl ⟨hok, (Option.some.inj h).symm⟩⟩
  · exact ⟨w, hw, hguard, Or.inr ⟨by simpa using hok, (Option.some.inj h).symm⟩⟩

theorem registerWaiter_spec
    {r : ℕ} {ok : Bool} (h : s.registerWaiter r ok = some s') :
    ∃ w, s.reqs r = some w ∧ w.pc = .register ∧ s.Unlocked w.key ∧
      s' = { s with cache := (s.cache.registerWaiter w.key r ok).2 }.setReq r
        w.afterRegister := by
  obtain ⟨w, hw, h⟩ := Option.bind_eq_some_iff.mp h
  obtain ⟨hguard, h⟩ := Option.ite_none_right_eq_some.mp h
  exact ⟨w, hw, hguard.1, hguard.2, (Option.some.inj h).symm⟩

theorem onDataReady_spec
    {r : ℕ} (h : s.onDataReady r = some s') :
    ∃ w, s.reqs r = some w ∧ w.pc = .idle ∧ w.streaming = true ∧
      w.queued = true ∧ s' = s.setReq r w.onDataReady := by
  obtain ⟨w, hw, h⟩ := Option.bind_eq_some_iff.mp h
  obtain ⟨hguard, h⟩ := Option.ite_none_right_eq_some.mp h
  exact ⟨w, hw, hguard.1, hguard.2.1, hguard.2.2, (Option.some.inj h).symm⟩

theorem onWritten_spec
    {r : ℕ} {ok : Bool} (h : s.onWritten r ok = some s') :
    ∃ w, s.reqs r = some w ∧ w.pc = .idle ∧ w.inFlight ≠ [] ∧
      s' = s.setReq r (w.onWritten ok) := by
  obtain ⟨w, hw, h⟩ := Option.bind_eq_some_iff.mp h
  obtain ⟨hguard, h⟩ := Option.ite_none_right_eq_some.mp h
  exact ⟨w, hw, hguard.1, hguard.2, (Option.some.inj h).symm⟩

theorem unregisterWaiter_spec
    {r : ℕ} (h : s.unregisterWaiter r = some s') :
    ∃ w, s.reqs r = some w ∧ w.pc = .unregister ∧ s.Unlocked w.key ∧
      s' = { s with cache := (s.cache.unregisterWaiter w.key r).2 }.setReq r
        { w with pc := .cancelBgw } := by
  obtain ⟨w, hw, h⟩ := Option.bind_eq_some_iff.mp h
  obtain ⟨hguard, h⟩ := Option.ite_none_right_eq_some.mp h
  exact ⟨w, hw, hguard.1, hguard.2, (Option.some.inj h).symm⟩

/-- The tasks after `cancel_bgw`, if the request has one. -/
def stopped (s : State) (r : ℕ) (w : WriteReq) : ℕ → Option Task :=
  if w.launched then
    Function.update s.tasks r
      ((s.tasks r).map fun t => { t with shouldStop := true })
  else s.tasks

theorem cancelBgw_spec
    {r : ℕ} (h : s.cancelBgw r = some s') :
    ∃ w, s.reqs r = some w ∧ w.pc = .cancelBgw ∧
      s' = { s with tasks := s.stopped r w }.setReq r
        { w with pc := .released } := by
  obtain ⟨w, hw, h⟩ := Option.bind_eq_some_iff.mp h
  split_ifs at h with hguard hlaunched
  · refine ⟨w, hw, hguard, ?_⟩
    rw [stopped, if_pos hlaunched]
    exact (Option.some.inj h).symm
  · refine ⟨w, hw, hguard, ?_⟩
    rw [stopped, if_neg hlaunched]
    exact (Option.some.inj h).symm

theorem onAsyncClose_spec
    {r : ℕ} (h : s.onAsyncClose r = some s') :
    ∃ w, s.reqs r = some w ∧ w.pc = .released ∧
      s' = s.setReq r { w with pc := .freed } := by
  obtain ⟨w, hw, h⟩ := Option.bind_eq_some_iff.mp h
  obtain ⟨hguard, h⟩ := Option.ite_none_right_eq_some.mp h
  exact ⟨w, hw, hguard.1, (Option.some.inj h).symm⟩

/-! ## Steps of a worker -/

/-- `cache_start_loading` hands out the entry of the key, or a new one, or
none when there is no memory. -/
theorem startLoading_spec
    {t : ℕ} {now : ℤ} {ok : Bool} (h : s.startLoading t now ok = some s') :
    ∃ task, s.tasks t = some task ∧ task.pc = .queued ∧
      s.Unlocked task.key ∧
      ((∃ a e, s.cache.findEntry task.key = some (a, e) ∧
        s' = s.setTask t { task with pc := .started, entry := a }) ∨
      (s.cache.findEntry task.key = none ∧ ok = true ∧
        s' = { s with cache := s.cache.created task.key now }.setTask t
          { task with pc := .started, entry := s.cache.nextEntry }) ∨
      (s.cache.findEntry task.key = none ∧ ok = false ∧
        s' = s.setTask t { task with pc := .ended, result := -1 })) := by
  obtain ⟨task, htask, h⟩ := Option.bind_eq_some_iff.mp h
  obtain ⟨hguard, h⟩ := Option.ite_none_right_eq_some.mp h
  refine ⟨task, htask, hguard.1, hguard.2, ?_⟩
  rcases s.cache.startLoading_cases task.key now ok with
    ⟨a, e, hfind, heq⟩ | ⟨hfind, hok, heq⟩ | ⟨hfind, hok, heq⟩
  · rw [heq] at h
    exact Or.inl ⟨a, e, hfind, (Option.some.inj h).symm⟩
  · rw [heq] at h
    exact Or.inr (Or.inl ⟨hfind, hok, (Option.some.inj h).symm⟩)
  · rw [heq] at h
    exact Or.inr (Or.inr ⟨hfind, hok, (Option.some.inj h).symm⟩)

theorem curlInit_spec
    {t : ℕ} {ok : Bool} (h : s.curlInit t ok = some s') :
    ∃ task, s.tasks t = some task ∧ task.pc = .started ∧
      s' = s.setTask t
        { task with pc := if ok then .performing else .failing } := by
  obtain ⟨task, htask, h⟩ := Option.bind_eq_some_iff.mp h
  obtain ⟨hguard, h⟩ := Option.ite_none_right_eq_some.mp h
  exact ⟨task, htask, hguard, (Option.some.inj h).symm⟩

theorem writeCallback_spec
    {t : ℕ} {chunk : List UInt8} (h : s.writeCallback t chunk = some s') :
    ∃ task task', s.tasks t = some task ∧ task.pc = .performing ∧
      s' = s.setTask t task' ∧
      task' = { task with
        pc := task'.pc
        chunk := chunk
        delivered := task.delivered ++ [chunk] } ∧
      ((task.shouldStop = false ∧ task'.pc = .testing) ∨
        (task.shouldStop = true ∧ chunk = [] ∧ task'.pc = .performing) ∨
        (task.shouldStop = true ∧ task'.pc = .failing)) := by
  obtain ⟨task, htask, h⟩ := Option.bind_eq_some_iff.mp h
  obtain ⟨hguard, h⟩ := Option.ite_none_right_eq_some.mp h
  refine ⟨task, _, htask, hguard, (Option.some.inj h).symm, ?_, ?_⟩
  · dsimp only [Task.refuse]
    split <;> rfl
  · dsimp only [Task.refuse]
    by_cases hstop : task.shouldStop = true
    · by_cases hchunk : chunk = []
      · exact Or.inr (Or.inl ⟨hstop, hchunk, by simp [hstop, hchunk]⟩)
      · exact Or.inr (Or.inr ⟨hstop, by simp [hstop, hchunk]⟩)
    · exact Or.inl ⟨by simpa using hstop, by simp [hstop]⟩

theorem testLoading_spec
    {t : ℕ} (h : s.testLoading t = some s') :
    ∃ task e, s.tasks t = some task ∧ task.pc = .testing ∧
      s.cache.entries task.entry = some e ∧
      ((e.isLoading = true ∧ s' = s.setTask t { task with pc := .appending }) ∨
        (e.isLoading = false ∧ s' = s.setTask t task.refuse)) := by
  obtain ⟨task, htask, h⟩ := Option.bind_eq_some_iff.mp h
  obtain ⟨hguard, h⟩ := Option.ite_none_right_eq_some.mp h
  obtain ⟨e, he, rfl⟩ := Option.map_eq_some_iff.mp h
  refine ⟨task, e, htask, hguard, he, ?_⟩
  by_cases hload : e.isLoading = true
  · exact Or.inl ⟨hload, by simp [hload]⟩
  · exact Or.inr ⟨by simpa using hload, by simp [hload]⟩

theorem appendData_spec
    {t : ℕ} {now : ℤ} {ok : Bool} (h : s.appendData t now ok = some s') :
    ∃ task e e', s.tasks t = some task ∧ task.pc = .appending ∧
      s.cache.entries task.entry = some e ∧
      e'.key = e.key ∧ e'.isLoading = e.isLoading ∧
      e'.waitingClients = e.waitingClients ∧
      ((e'.data = e.data ++ task.chunk ∧
        s' = { s with
          cache := s.cache.putEntry task.entry e'
          appends := Function.update s.appends task.entry
            (s.appends task.entry ++ [(t, task.chunk)]) }.setTask t
              { task with pc := .notifying }) ∨
      (e'.data = e.data ∧
        s' = { s with cache := s.cache.putEntry task.entry e' }.setTask t
          task.refuse)) := by
  obtain ⟨task, htask, h⟩ := Option.bind_eq_some_iff.mp h
  obtain ⟨hguard, h⟩ := Option.ite_none_right_eq_some.mp h
  obtain ⟨e, he, h⟩ := Option.bind_eq_some_iff.mp h
  obtain ⟨⟨ret, e'⟩, happ, rfl⟩ := Option.map_eq_some_iff.mp h
  obtain ⟨hkey, hload, hwait, hres⟩ := Entry.appendData_cases happ
  refine ⟨task, e, e', htask, hguard, he, hkey, hload, hwait, ?_⟩
  rcases hres with ⟨rfl, hdata⟩ | ⟨rfl, -, hdata⟩
  · exact Or.inl ⟨hdata, rfl⟩
  · exact Or.inr ⟨hdata, rfl⟩

/-- The requests after `notify_waiting_clients`. -/
def notified (s : State) (e : Entry) (r : ℕ) : Option WriteReq :=
  if r ∈ e.waitingClients then (s.reqs r).map WriteReq.notify else s.reqs r

theorem notifyWaitingClients_spec
    {t : ℕ} (h : s.notifyWaitingClients t = some s') :
    ∃ task e, s.tasks t = some task ∧
      (task.pc = .notifying ∨ task.pc = .finishNotify) ∧
      s.cache.entries task.entry = some e ∧
      s' = { s with reqs := s.notified e }.setTask t task.afterNotify := by
  obtain ⟨task, htask, h⟩ := Option.bind_eq_some_iff.mp h
  obtain ⟨hguard, h⟩ := Option.ite_none_right_eq_some.mp h
  obtain ⟨e, he, h⟩ := Option.bind_eq_some_iff.mp h
  obtain ⟨-, h⟩ := Option.ite_none_right_eq_some.mp h
  exact ⟨task, e, htask, hguard, he, (Option.some.inj h).symm⟩

theorem curlDone_spec
    {t : ℕ} {ok : Bool} (h : s.curlDone t ok = some s') :
    ∃ task, s.tasks t = some task ∧ task.pc = .performing ∧
      s' = s.setTask t
        { task with pc := if ok then .finishTest else .failing } := by
  obtain ⟨task, htask, h⟩ := Option.bind_eq_some_iff.mp h
  obtain ⟨hguard, h⟩ := Option.ite_none_right_eq_some.mp h
  exact ⟨task, htask, hguard, (Option.some.inj h).symm⟩

theorem finishTest_spec
    {t : ℕ} (h : s.finishTest t = some s') :
    ∃ task e, s.tasks t = some task ∧ task.pc = .finishTest ∧
      s.cache.entries task.entry = some e ∧
      s' = s.setTask t
        { task with pc := if e.isLoading then .finishing else .ended } := by
  obtain ⟨task, htask, h⟩ := Option.bind_eq_some_iff.mp h
  obtain ⟨hguard, h⟩ := Option.ite_none_right_eq_some.mp h
  obtain ⟨e, he, rfl⟩ := Option.map_eq_some_iff.mp h
  exact ⟨task, e, htask, hguard, he, rfl⟩

theorem finishLoading_spec
    {t : ℕ} {now : ℤ} {ok : Bool} (h : s.finishLoading t now ok = some s') :
    ∃ task e e', s.tasks t = some task ∧ task.pc = .finishing ∧
      s.cache.entries task.entry = some e ∧
      e'.key = e.key ∧ e'.isLoading = false ∧ e'.data = e.data ∧
      e'.waitingClients = e.waitingClients ∧ e'.lastAccessed = now ∧
      s' = { s with cache := s.cache.putEntry task.entry e' }.setTask t
        { task with pc := .finishNotify } := by
  obtain ⟨task, htask, h⟩ := Option.bind_eq_some_iff.mp h
  obtain ⟨hguard, h⟩ := Option.ite_none_right_eq_some.mp h
  obtain ⟨e, he, h⟩ := Option.bind_eq_some_iff.mp h
  obtain ⟨e', hfin, rfl⟩ := Option.map_eq_some_iff.mp h
  obtain ⟨hkey, hload, hdata, hwait, hlast⟩ := Entry.finishLoading_spec hfin
  exact ⟨task, e, e', htask, hguard, he, hkey, hload, hdata, hwait, hlast, rfl⟩

theorem cancelLoading_spec
    {t : ℕ} (h : s.cancelLoading t = some s') :
    ∃ task, s.tasks t = some task ∧ task.pc = .failing ∧
      s.Unlocked task.path ∧
      ((∃ a e, a ∈ s.cache.chain (s.cache.bucketOf task.path) ∧
        s.cache.entries a = some e ∧ e.key = task.path ∧
        e.isLoading = true ∧
        s' = { s with
          cache := s.cache.removeEntry (s.cache.bucketOf task.path) a }.setTask
            t { task with pc := .ended, result := -1 }) ∨
      (s.cache.findLoading task.path = none ∧
        s' = s.setTask t { task with pc := .ended, result := -1 })) := by
  obtain ⟨task, htask, h⟩ := Option.bind_eq_some_iff.mp h
  obtain ⟨hguard, h⟩ := Option.ite_none_right_eq_some.mp h
  refine ⟨task, htask, hguard.1, hguard.2, ?_⟩
  rcases s.cache.cancelLoading_cases task.path with
    ⟨a, e, hmem, he, hkey, hload, heq⟩ | ⟨hfind, heq⟩
  · rw [heq] at h
    exact Or.inl ⟨a, e, hmem, he, hkey, hload, (Option.some.inj h).symm⟩
  · rw [heq] at h
    exact Or.inr ⟨hfind, (Option.some.inj h).symm⟩

/-! ## Steps of the collector -/

theorem gcBegin_spec
    {b : ℕ} {now : ℤ} (h : s.gcBegin b now = some s') :
    s.gc = none ∧ s.locks b = none ∧
      s' = { s with
        gc := some ⟨b, now, [], [], s.cache.chain b⟩ }.setLock b
          (some .collector) := by
  simp only [gcBegin] at h
  obtain ⟨hguard, h⟩ := Option.ite_none_right_eq_some.mp h
  exact ⟨Option.isNone_iff_eq_none.mp hguard.1, hguard.2,
    (Option.some.inj h).symm⟩

/-- The cache after the collector has unlinked entry `a` from the end of
`front` and freed it. -/
def collected (s : State) (g : Collector) (a : ℕ) (rest : List ℕ)
    (e : Entry) : Cache :=
  { s.cache with
    currentSize := s.cache.currentSize - .ofNat e.allocatedSize
    currentEntries := s.cache.currentEntries - 1
    chain := Function.update s.cache.chain g.bucket (g.front ++ rest)
    entries := Function.update s.cache.entries a none }

theorem gcEntry_spec (h : s.gcEntry = some s') :
    ∃ g a rest e, s.gc = some g ∧ g.rest = a :: rest ∧
      s.cache.entries a = some e ∧
      ((e.isLoading = true ∧
        s' = { s with
          gc := some { g with skipped := g.skipped ++ [a], rest := rest } }) ∨
      (e.isLoading = false ∧ e.expired s.cache.defaultTtl g.now = true ∧
        s' = { s with
          cache := s.collected g a rest e
          gc := some { g with skipped := [], rest := rest } }) ∨
      (e.isLoading = false ∧
        s' = { s with
          gc := some { g with
            front := g.front ++ g.skipped ++ [a]
            skipped := []
            rest := rest } })) := by
  obtain ⟨g, hg, h⟩ := Option.bind_eq_some_iff.mp h
  cases hrest : g.rest with
  | nil => simp [hrest] at h
  | cons a rest =>
      simp only [hrest] at h
      obtain ⟨e, he, h⟩ := Option.bind_eq_some_iff.mp h
      refine ⟨g, a, rest, e, hg, hrest, he, ?_⟩
      split_ifs at h with hload hexp hlive
      · exact Or.inl ⟨hload, (Option.some.inj h).symm⟩
      · exact Or.inr (Or.inl ⟨by simpa using hload, hexp,
          (Option.some.inj h).symm⟩)
      · exact Or.inr (Or.inr ⟨by simpa using hload, (Option.some.inj h).symm⟩)

theorem gcEnd_spec (h : s.gcEnd = some s') :
    ∃ g, s.gc = some g ∧ g.rest = [] ∧
      s' = { s with gc := none }.setLock g.bucket none := by
  obtain ⟨g, hg, h⟩ := Option.bind_eq_some_iff.mp h
  obtain ⟨hguard, h⟩ := Option.ite_none_right_eq_some.mp h
  exact ⟨g, hg, hguard, (Option.some.inj h).symm⟩

/-! ## What a kind of step leaves alone -/

theorem lookedUp_sameContents
    {w : WriteReq} {e : Entry} (he : s.cache.entries w.entry = some e)
    (now : ℤ) : s.cache.SameContents (s.lookedUp w e now) := by
  unfold lookedUp
  dsimp only
  split
  · have hput := Cache.SameContents.putEntry he
      (e.touch_key (readEntry w.loading e.data w.lookupArgs.1
        w.lookupArgs.2).status now)
      (e.touch_isLoading _ now) (e.touch_data _ now)
    exact ⟨hput.numBuckets, hput.chain, hput.nextEntry, hput.forth, hput.back⟩
  · exact .refl _

/-- A step of request `r` touches the contents of no entry, no other request
and not the collector. -/
structure RequestFrame (s s' : State) (r : ℕ) : Prop where
  contents : s.cache.SameContents s'.cache
  reqs : ∀ r', r' ≠ r → s'.reqs r' = s.reqs r'
  present : ∃ w, s'.reqs r = some w
  gc : s'.gc = s.gc
  appends : s'.appends = s.appends

theorem stepRequest_frame
    {r : ℕ} {a : ReqStep} (h : s.stepRequest r a = some s') :
    RequestFrame s s' r := by
  have hset : ∀ {c : Cache} {w : WriteReq} {tasks locks},
      s.cache.SameContents c →
      RequestFrame s
        ({ s with cache := c, tasks := tasks, locks := locks }.setReq r w) r :=
    fun hc => ⟨hc, fun r' hr' => Function.update_of_ne hr' _ _,
      ⟨_, setReq_self ..⟩, rfl, rfl⟩
  cases a with
  | readClient x =>
      obtain ⟨-, key, -, rfl⟩ := readClient_spec h
      exact hset (.refl _)
  | lookupBegin =>
      obtain ⟨w, -, -, -, ⟨a, e, -, rfl⟩ | ⟨-, rfl⟩⟩ := lookupBegin_spec h
      · exact hset (.refl _)
      · exact hset (.setCounters _ _ _)
  | lookupEnd now accepted =>
      obtain ⟨w, e, -, -, he, rfl⟩ := lookupEnd_spec h
      exact hset (lookedUp_sameContents he now)
  | launchBgw ok =>
      obtain ⟨w, -, -, ⟨-, rfl⟩ | ⟨-, rfl⟩⟩ := launchBgw_spec h
      · exact hset (.refl _)
      · exact hset (.refl _)
  | registerWaiter ok =>
      obtain ⟨w, -, -, -, rfl⟩ := registerWaiter_spec h
      exact hset (.registerWaiter _ _ _ _)
  | onDataReady =>
      obtain ⟨w, -, -, -, -, rfl⟩ := onDataReady_spec h
      exact hset (.refl _)
  | onWritten ok =>
      obtain ⟨w, -, -, -, rfl⟩ := onWritten_spec h
      exact hset (.refl _)
  | unregisterWaiter =>
      obtain ⟨w, -, -, -, rfl⟩ := unregisterWaiter_spec h
      exact hset (.unregisterWaiter _ _ _)
  | cancelBgw =>
      obtain ⟨w, -, -, rfl⟩ := cancelBgw_spec h
      exact hset (.refl _)
  | onAsyncClose =>
      obtain ⟨w, -, -, rfl⟩ := onAsyncClose_spec h
      exact hset (.refl _)

/-- A step of a request starts no task but its own, and changes at most the
flag `should_stop` of its own. -/
theorem stepRequest_tasks
    {r : ℕ} {a : ReqStep} (h : s.stepRequest r a = some s') (t : ℕ) :
    s'.tasks t = s.tasks t ∨
      (t = r ∧ a = .cancelBgw ∧ ∃ task, s.tasks t = some task ∧
        s'.tasks t = some { task with shouldStop := true }) ∨
      (t = r ∧ ∃ w, s.reqs r = some w ∧ w.pc = .launch ∧
        s'.tasks t = some (.launched w.req w.key) ∧
        s'.reqs r = some (w.beginStreaming true)) := by
  cases a with
  | readClient x =>
      obtain ⟨-, key, -, rfl⟩ := readClient_spec h
      exact Or.inl rfl
  | lookupBegin =>
      obtain ⟨w, -, -, -, ⟨a, e, -, rfl⟩ | ⟨-, rfl⟩⟩ := lookupBegin_spec h
      · exact Or.inl rfl
      · exact Or.inl rfl
  | lookupEnd now accepted =>
      obtain ⟨w, e, -, -, -, rfl⟩ := lookupEnd_spec h
      exact Or.inl rfl
  | launchBgw ok =>
      obtain ⟨w, hw, hpc, ⟨-, rfl⟩ | ⟨-, rfl⟩⟩ := launchBgw_spec h
      · by_cases ht : t = r
        · subst ht
          exact Or.inr (Or.inr ⟨rfl, w, hw, hpc, by simp [setTask, setReq],
            by simp [setReq]⟩)
        · exact Or.inl (by simp [setTask, setReq, ht])
      · exact Or.inl rfl
  | registerWaiter ok =>
      obtain ⟨w, -, -, -, rfl⟩ := registerWaiter_spec h
      exact Or.inl rfl
  | onDataReady =>
      obtain ⟨w, -, -, -, -, rfl⟩ := onDataReady_spec h
      exact Or.inl rfl
  | onWritten ok =>
      obtain ⟨w, -, -, -, rfl⟩ := onWritten_spec h
      exact Or.inl rfl
  | unregisterWaiter =>
      obtain ⟨w, -, -, -, rfl⟩ := unregisterWaiter_spec h
      exact Or.inl rfl
  | cancelBgw =>
      obtain ⟨w, -, -, rfl⟩ := cancelBgw_spec h
      by_cases hl : w.launched = true ∧ t = r
      · obtain ⟨hl, rfl⟩ := hl
        cases htask : s.tasks t with
        | none => exact Or.inl (by simp [setReq, stopped, hl, htask])
        | some task =>
            exact Or.inr (Or.inl ⟨rfl, rfl, task, rfl, by
              simp [setReq, stopped, hl, htask]⟩)
      · refine Or.inl ?_
        by_cases hlaunched : w.launched = true
        · have ht : t ≠ r := fun heq => hl ⟨hlaunched, heq⟩
          simp [setReq, stopped, hlaunched, ht]
        · simp [setReq, stopped, hlaunched]
  | onAsyncClose =>
      obtain ⟨w, -, -, rfl⟩ := onAsyncClose_spec h
      exact Or.inl rfl

end State

/-- The places from which a request takes a step; there are none from which
it arrives. -/
def ReqStep.At : ReqStep → ReqPc → Prop
  | .readClient _, _ => False
  | .lookupBegin, pc => pc = .lookup
  | .lookupEnd _ _, pc => pc = .inLookup
  | .launchBgw _, pc => pc = .launch
  | .registerWaiter _, pc => pc = .register
  | .onDataReady, pc => pc = .idle
  | .onWritten _, pc => pc = .idle
  | .unregisterWaiter, pc => pc = .unregister
  | .cancelBgw, pc => pc = .cancelBgw
  | .onAsyncClose, pc => pc = .released

namespace State

/-- A request arrives, or takes a step from where it stands. -/
theorem stepRequest_mover
    {r : ℕ} {a : ReqStep} (h : s.stepRequest r a = some s') :
    (s.reqs r = none ∧ ∃ x, a = .readClient x) ∨
      ∃ w, s.reqs r = some w ∧ a.At w.pc := by
  cases a with
  | readClient x =>
      obtain ⟨hnone, -⟩ := readClient_spec h
      exact Or.inl ⟨hnone, x, rfl⟩
  | lookupBegin =>
      obtain ⟨w, hw, hpc, -⟩ := lookupBegin_spec h
      exact Or.inr ⟨w, hw, hpc⟩
  | lookupEnd now accepted =>
      obtain ⟨w, -, hw, hpc, -⟩ := lookupEnd_spec h
      exact Or.inr ⟨w, hw, hpc⟩
  | launchBgw ok =>
      obtain ⟨w, hw, hpc, -⟩ := launchBgw_spec h
      exact Or.inr ⟨w, hw, hpc⟩
  | registerWaiter ok =>
      obtain ⟨w, hw, hpc, -⟩ := registerWaiter_spec h
      exact Or.inr ⟨w, hw, hpc⟩
  | onDataReady =>
      obtain ⟨w, hw, hpc, -⟩ := onDataReady_spec h
      exact Or.inr ⟨w, hw, hpc⟩
  | onWritten ok =>
      obtain ⟨w, hw, hpc, -⟩ := onWritten_spec h
      exact Or.inr ⟨w, hw, hpc⟩
  | unregisterWaiter =>
      obtain ⟨w, hw, hpc, -⟩ := unregisterWaiter_spec h
      exact Or.inr ⟨w, hw, hpc⟩
  | cancelBgw =>
      obtain ⟨w, hw, hpc, -⟩ := cancelBgw_spec h
      exact Or.inr ⟨w, hw, hpc⟩
  | onAsyncClose =>
      obtain ⟨w, hw, hpc, -⟩ := onAsyncClose_spec h
      exact Or.inr ⟨w, hw, hpc⟩

theorem stepRequest_at
    {r : ℕ} {a : ReqStep} (h : s.stepRequest r a = some s') {w : WriteReq}
    (hw : s.reqs r = some w) : a.At w.pc := by
  rcases stepRequest_mover h with ⟨hnone, -⟩ | ⟨u, hu, hat⟩
  · rw [hw] at hnone
    cases hnone
  · obtain rfl := Option.some.inj (hw.symm.trans hu)
    exact hat

theorem stepRequest_fresh
    {r : ℕ} {a : ReqStep} (h : s.stepRequest r a = some s')
    (hnone : s.reqs r = none) : ∃ x, a = .readClient x := by
  rcases stepRequest_mover h with ⟨-, harrives⟩ | ⟨u, hu, -⟩
  · exact harrives
  · rw [hnone] at hu
    cases hu

/-- A step of worker `t` changes no other worker, no lock and not the
collector, and a request only by notifying it. -/
structure WorkerFrame (s s' : State) (t : ℕ) : Prop where
  tasks : ∀ t', t' ≠ t → s'.tasks t' = s.tasks t'
  reqs : ∀ r, s'.reqs r = s.reqs r ∨ s'.reqs r = (s.reqs r).map WriteReq.notify
  locks : s'.locks = s.locks
  gc : s'.gc = s.gc

theorem stepWorker_frame
    {t : ℕ} {a : WorkerStep} (h : s.stepWorker t a = some s') :
    WorkerFrame s s' t := by
  have hset : ∀ {c : Cache} {task : Task} {appends},
      WorkerFrame s
        ({ s with cache := c, appends := appends }.setTask t task) t :=
    ⟨fun t' ht' => Function.update_of_ne ht' _ _, fun r => Or.inl rfl, rfl, rfl⟩
  cases a with
  | startLoading now ok =>
      obtain ⟨task, -, -, -, ⟨a, e, -, rfl⟩ | ⟨-, -, rfl⟩ | ⟨-, -, rfl⟩⟩ :=
        startLoading_spec h
      · exact hset
      · exact hset
      · exact hset
  | curlInit ok =>
      obtain ⟨task, -, -, rfl⟩ := curlInit_spec h
      exact hset
  | writeCallback chunk =>
      obtain ⟨task, task', -, -, rfl, -⟩ := writeCallback_spec h
      exact hset
  | testLoading =>
      obtain ⟨task, e, -, -, -, ⟨-, rfl⟩ | ⟨-, rfl⟩⟩ := testLoading_spec h
      · exact hset
      · exact hset
  | appendData now ok =>
      obtain ⟨task, e, e', -, -, -, -, -, -, ⟨-, rfl⟩ | ⟨-, rfl⟩⟩ :=
        appendData_spec h
      · exact hset
      · exact hset
  | notifyWaitingClients =>
      obtain ⟨task, e, -, -, -, rfl⟩ := notifyWaitingClients_spec h
      refine ⟨fun t' ht' => Function.update_of_ne ht' _ _, ?_, rfl, rfl⟩
      intro r
      by_cases hr : r ∈ e.waitingClients
      · exact Or.inr (by simp [setTask, notified, hr])
      · exact Or.inl (by simp [setTask, notified, hr])
  | curlDone ok =>
      obtain ⟨task, -, -, rfl⟩ := curlDone_spec h
      exact hset
  | finishTest =>
      obtain ⟨task, e, -, -, -, rfl⟩ := finishTest_spec h
      exact hset
  | finishLoading now ok =>
      obtain ⟨task, e, e', -, -, -, -, -, -, -, -, rfl⟩ := finishLoading_spec h
      exact hset
  | cancelLoading =>
      obtain ⟨task, -, -, -, ⟨a, e, -, -, -, -, rfl⟩ | ⟨-, rfl⟩⟩ :=
        cancelLoading_spec h
      · exact hset
      · exact hset

/-- What a step of worker `t` does to the entries. -/
inductive WorkerEffect (s s' : State) (t : ℕ) : Prop
  /-- Nothing, up to access times. -/
  | kept (hcontents : s.cache.SameContents s'.cache)
      (happends : s'.appends = s.appends)
  /-- `cache_start_loading` creates an entry. -/
  | created (task : Task) (now : ℤ) (htask : s.tasks t = some task)
      (hpc : task.pc = .queued) (hfree : s.Unlocked task.key)
      (hnone : s.cache.findEntry task.key = none)
      (hcache : s'.cache = s.cache.created task.key now)
      (happends : s'.appends = s.appends)
  /-- `cache_append_data` adds a chunk. -/
  | appended (task : Task) (e e' : Entry) (htask : s.tasks t = some task)
      (hpc : task.pc = .appending) (he : s.cache.entries task.entry = some e)
      (hkey : e'.key = e.key) (hload : e'.isLoading = e.isLoading)
      (hdata : e'.data = e.data ++ task.chunk)
      (hcache : s'.cache = s.cache.putEntry task.entry e')
      (happends : s'.appends = Function.update s.appends task.entry
        (s.appends task.entry ++ [(t, task.chunk)]))
      (hnext : s'.tasks t = some { task with pc := .notifying })
  /-- `cache_finish_loading` clears the flag. -/
  | finished (task : Task) (e e' : Entry) (htask : s.tasks t = some task)
      (hpc : task.pc = .finishing) (he : s.cache.entries task.entry = some e)
      (hkey : e'.key = e.key) (hload : e'.isLoading = false)
      (hdata : e'.data = e.data)
      (hcache : s'.cache = s.cache.putEntry task.entry e')
      (happends : s'.appends = s.appends)
      (hnext : s'.tasks t = some { task with pc := .finishNotify })
  /-- `cache_cancel_loading` frees an entry. -/
  | freed (task : Task) (a : ℕ) (e : Entry) (htask : s.tasks t = some task)
      (hpc : task.pc = .failing) (hfree : s.Unlocked task.path)
      (hmem : a ∈ s.cache.chain (s.cache.bucketOf task.path))
      (he : s.cache.entries a = some e) (hkey : e.key = task.path)
      (hload : e.isLoading = true)
      (hcache : s'.cache =
        s.cache.removeEntry (s.cache.bucketOf task.path) a)
      (happends : s'.appends = s.appends)

theorem stepWorker_effect
    {t : ℕ} {a : WorkerStep} (h : s.stepWorker t a = some s') :
    WorkerEffect s s' t := by
  cases a with
  | startLoading now ok =>
      obtain ⟨task, htask, hpc, hfree,
        ⟨a, e, -, rfl⟩ | ⟨hnone, -, rfl⟩ | ⟨-, -, rfl⟩⟩ := startLoading_spec h
      · exact .kept (.refl _) rfl
      · exact .created task now htask hpc hfree hnone rfl rfl
      · exact .kept (.refl _) rfl
  | curlInit ok =>
      obtain ⟨task, -, -, rfl⟩ := curlInit_spec h
      exact .kept (.refl _) rfl
  | writeCallback chunk =>
      obtain ⟨task, task', -, -, rfl, -⟩ := writeCallback_spec h
      exact .kept (.refl _) rfl
  | testLoading =>
      obtain ⟨task, e, -, -, -, ⟨-, rfl⟩ | ⟨-, rfl⟩⟩ := testLoading_spec h
      · exact .kept (.refl _) rfl
      · exact .kept (.refl _) rfl
  | appendData now ok =>
      obtain ⟨task, e, e', htask, hpc, he, hkey, hload, -,
        ⟨hdata, rfl⟩ | ⟨hdata, rfl⟩⟩ := appendData_spec h
      · exact .appended task e e' htask hpc he hkey hload hdata rfl rfl
          (Function.update_self ..)
      · exact .kept (.putEntry he hkey hload hdata) rfl
  | notifyWaitingClients =>
      obtain ⟨task, e, -, -, -, rfl⟩ := notifyWaitingClients_spec h
      exact .kept (.refl _) rfl
  | curlDone ok =>
      obtain ⟨task, -, -, rfl⟩ := curlDone_spec h
      exact .kept (.refl _) rfl
  | finishTest =>
      obtain ⟨task, e, -, -, -, rfl⟩ := finishTest_spec h
      exact .kept (.refl _) rfl
  | finishLoading now ok =>
      obtain ⟨task, e, e', htask, hpc, he, hkey, hload, hdata, -, -, rfl⟩ :=
        finishLoading_spec h
      exact .finished task e e' htask hpc he hkey hload hdata rfl rfl
        (Function.update_self ..)
  | cancelLoading =>
      obtain ⟨task, htask, hpc, hfree,
        ⟨a, e, hmem, he, hkey, hload, rfl⟩ | ⟨-, rfl⟩⟩ := cancelLoading_spec h
      · exact .freed task a e htask hpc hfree hmem he hkey hload rfl rfl
      · exact .kept (.refl _) rfl

theorem WorkerEffect.numBuckets
    {t : ℕ} (heff : WorkerEffect s s' t) :
    s'.cache.numBuckets = s.cache.numBuckets := by
  cases heff with
  | kept hcontents => exact hcontents.numBuckets
  | created task now htask hpc hfree hnone hcache => rw [hcache]; rfl
  | appended task e e' htask hpc he hkey hload hdata hcache => rw [hcache]; rfl
  | finished task e e' htask hpc he hkey hload hdata hcache => rw [hcache]; rfl
  | freed task a e htask hpc hfree hmem he hkey hload hcache => rw [hcache]; rfl

/-- A worker keeps its request and its key, and what it holds is an entry of
its key. -/
theorem stepWorker_task
    {t : ℕ} {a : WorkerStep}
    (h : s.stepWorker t a = some s') :
    ∃ task task', s.tasks t = some task ∧ s'.tasks t = some task' ∧
      task'.req = task.req ∧ task'.key = task.key ∧
      task'.shouldStop = task.shouldStop ∧
      ((task'.entry = task.entry ∧
        (task'.pc.HasEntry → task.pc.HasEntry)) ∨
      (task.pc = .queued ∧ task'.pc = .started ∧
        ((∃ e, s.cache.findEntry task.key = some (task'.entry, e) ∧
          s'.cache = s.cache) ∨
        (∃ now, task'.entry = s.cache.nextEntry ∧
          s.cache.findEntry task.key = none ∧
          s'.cache = s.cache.created task.key now)))) := by
  cases a with
  | startLoading now ok =>
      obtain ⟨task, htask, hpc, -,
        ⟨a, e, hfind, rfl⟩ | ⟨hnone, -, rfl⟩ | ⟨-, -, rfl⟩⟩ :=
        startLoading_spec h
      · exact ⟨task, _, htask, setTask_self .., rfl, rfl, rfl,
          Or.inr ⟨hpc, rfl, Or.inl ⟨e, hfind, rfl⟩⟩⟩
      · exact ⟨task, _, htask, setTask_self .., rfl, rfl, rfl,
          Or.inr ⟨hpc, rfl, Or.inr ⟨now, rfl, hnone, rfl⟩⟩⟩
      · exact ⟨task, _, htask, setTask_self .., rfl, rfl, rfl,
          Or.inl ⟨rfl, False.elim⟩⟩
  | curlInit ok =>
      obtain ⟨task, htask, hpc, rfl⟩ := curlInit_spec h
      exact ⟨task, _, htask, setTask_self .., rfl, rfl, rfl,
        Or.inl ⟨rfl, fun _ => by simp [hpc, TaskPc.HasEntry]⟩⟩
  | writeCallback chunk =>
      obtain ⟨task, task', htask, hpc, rfl, htask', -⟩ := writeCallback_spec h
      refine ⟨task, task', htask, setTask_self .., ?_, ?_, ?_, Or.inl ⟨?_, ?_⟩⟩
      · rw [htask']
      · rw [htask']
      · rw [htask']
      · rw [htask']
      · exact fun _ => by simp [hpc, TaskPc.HasEntry]
  | testLoading =>
      obtain ⟨task, e, htask, hpc, -, ⟨-, rfl⟩ | ⟨-, rfl⟩⟩ :=
        testLoading_spec h
      · exact ⟨task, _, htask, setTask_self .., rfl, rfl, rfl,
          Or.inl ⟨rfl, fun _ => by simp [hpc, TaskPc.HasEntry]⟩⟩
      · exact ⟨task, _, htask, setTask_self .., rfl, rfl, rfl,
          Or.inl ⟨rfl, fun _ => by simp [hpc, TaskPc.HasEntry]⟩⟩
  | appendData now ok =>
      obtain ⟨task, e, e', htask, hpc, -, -, -, -, ⟨-, rfl⟩ | ⟨-, rfl⟩⟩ :=
        appendData_spec h
      · exact ⟨task, _, htask, setTask_self .., rfl, rfl, rfl,
          Or.inl ⟨rfl, fun _ => by simp [hpc, TaskPc.HasEntry]⟩⟩
      · exact ⟨task, _, htask, setTask_self .., rfl, rfl, rfl,
          Or.inl ⟨rfl, fun _ => by simp [hpc, TaskPc.HasEntry]⟩⟩
  | notifyWaitingClients =>
      obtain ⟨task, e, htask, hpc, -, rfl⟩ := notifyWaitingClients_spec h
      refine ⟨task, _, htask, setTask_self .., rfl, rfl, rfl,
        Or.inl ⟨rfl, fun _ => ?_⟩⟩
      rcases hpc with hpc | hpc <;> simp [hpc, TaskPc.HasEntry]
  | curlDone ok =>
      obtain ⟨task, htask, hpc, rfl⟩ := curlDone_spec h
      exact ⟨task, _, htask, setTask_self .., rfl, rfl, rfl,
        Or.inl ⟨rfl, fun _ => by simp [hpc, TaskPc.HasEntry]⟩⟩
  | finishTest =>
      obtain ⟨task, e, htask, hpc, -, rfl⟩ := finishTest_spec h
      exact ⟨task, _, htask, setTask_self .., rfl, rfl, rfl,
        Or.inl ⟨rfl, fun _ => by simp [hpc, TaskPc.HasEntry]⟩⟩
  | finishLoading now ok =>
      obtain ⟨task, e, e', htask, hpc, -, -, -, -, -, -, rfl⟩ :=
        finishLoading_spec h
      exact ⟨task, _, htask, setTask_self .., rfl, rfl, rfl,
        Or.inl ⟨rfl, fun _ => by simp [hpc, TaskPc.HasEntry]⟩⟩
  | cancelLoading =>
      obtain ⟨task, htask, -, -, ⟨a, e, -, -, -, -, rfl⟩ | ⟨-, rfl⟩⟩ :=
        cancelLoading_spec h
      · exact ⟨task, _, htask, setTask_self .., rfl, rfl, rfl,
          Or.inl ⟨rfl, False.elim⟩⟩
      · exact ⟨task, _, htask, setTask_self .., rfl, rfl, rfl,
          Or.inl ⟨rfl, False.elim⟩⟩

/-- The moves of a worker from one critical section to the next. -/
inductive PcMove : TaskPc → TaskPc → Prop
  | start : PcMove .queued .started
  | noMemory : PcMove .queued .ended
  | init : PcMove .started .performing
  | noCurl : PcMove .started .failing
  | deliver : PcMove .performing .testing
  | ignore : PcMove .performing .performing
  | abort : PcMove .performing .failing
  | tested : PcMove .testing .appending
  | refused : PcMove .testing .performing
  | refusedChunk : PcMove .testing .failing
  | appended : PcMove .appending .notifying
  | unappended : PcMove .appending .performing
  | unappendedChunk : PcMove .appending .failing
  | notified : PcMove .notifying .performing
  | performed : PcMove .performing .finishTest
  | unfinished : PcMove .finishTest .finishing
  | alreadyFinished : PcMove .finishTest .ended
  | finished : PcMove .finishing .finishNotify
  | returned : PcMove .finishNotify .ended
  | cancelled : PcMove .failing .ended

theorem stepWorker_move
    {t : ℕ} {a : WorkerStep} (h : s.stepWorker t a = some s') :
    ∃ task task', s.tasks t = some task ∧ s'.tasks t = some task' ∧
      PcMove task.pc task'.pc ∧
      (task.pc ≠ .performing → task'.delivered = task.delivered) := by
  cases a with
  | startLoading now ok =>
      obtain ⟨task, htask, hpc, -,
        ⟨a, e, -, rfl⟩ | ⟨-, -, rfl⟩ | ⟨-, -, rfl⟩⟩ := startLoading_spec h
      · exact ⟨task, _, htask, setTask_self .., hpc ▸ .start, fun _ => rfl⟩
      · exact ⟨task, _, htask, setTask_self .., hpc ▸ .start, fun _ => rfl⟩
      · exact ⟨task, _, htask, setTask_self .., hpc ▸ .noMemory, fun _ => rfl⟩
  | curlInit ok =>
      obtain ⟨task, htask, hpc, rfl⟩ := curlInit_spec h
      refine ⟨task, _, htask, setTask_self .., ?_, fun _ => rfl⟩
      cases ok with
      | true => exact hpc ▸ .init
      | false => exact hpc ▸ .noCurl
  | writeCallback chunk =>
      obtain ⟨task, task', htask, hpc, rfl, -, hcase⟩ := writeCallback_spec h
      refine ⟨task, task', htask, setTask_self .., ?_, fun hne => absurd hpc hne⟩
      rcases hcase with ⟨-, hpc'⟩ | ⟨-, -, hpc'⟩ | ⟨-, hpc'⟩
      · exact hpc ▸ hpc' ▸ .deliver
      · exact hpc ▸ hpc' ▸ .ignore
      · exact hpc ▸ hpc' ▸ .abort
  | testLoading =>
      obtain ⟨task, e, htask, hpc, -, ⟨-, rfl⟩ | ⟨-, rfl⟩⟩ :=
        testLoading_spec h
      · exact ⟨task, _, htask, setTask_self .., hpc ▸ .tested, fun _ => rfl⟩
      · refine ⟨task, _, htask, setTask_self .., ?_, fun _ => rfl⟩
        rw [hpc, Task.refuse]
        dsimp only
        split
        · exact .refused
        · exact .refusedChunk
  | appendData now ok =>
      obtain ⟨task, e, e', htask, hpc, -, -, -, -, ⟨-, rfl⟩ | ⟨-, rfl⟩⟩ :=
        appendData_spec h
      · exact ⟨task, _, htask, setTask_self .., hpc ▸ .appended, fun _ => rfl⟩
      · refine ⟨task, _, htask, setTask_self .., ?_, fun _ => rfl⟩
        rw [hpc, Task.refuse]
        dsimp only
        split
        · exact .unappended
        · exact .unappendedChunk
  | notifyWaitingClients =>
      obtain ⟨task, e, htask, hpc, -, rfl⟩ := notifyWaitingClients_spec h
      refine ⟨task, _, htask, setTask_self .., ?_, fun _ => rfl⟩
      rcases hpc with hpc | hpc
      · simpa [Task.afterNotify, hpc] using PcMove.notified
      · simpa [Task.afterNotify, hpc] using PcMove.returned
  | curlDone ok =>
      obtain ⟨task, htask, hpc, rfl⟩ := curlDone_spec h
      refine ⟨task, _, htask, setTask_self .., ?_, fun _ => rfl⟩
      cases ok with
      | true => exact hpc ▸ .performed
      | false => exact hpc ▸ .abort
  | finishTest =>
      obtain ⟨task, e, htask, hpc, -, rfl⟩ := finishTest_spec h
      refine ⟨task, _, htask, setTask_self .., ?_, fun _ => rfl⟩
      rw [hpc]
      dsimp only
      split
      · exact .unfinished
      · exact .alreadyFinished
  | finishLoading now ok =>
      obtain ⟨task, e, e', htask, hpc, -, -, -, -, -, -, rfl⟩ :=
        finishLoading_spec h
      exact ⟨task, _, htask, setTask_self .., hpc ▸ .finished, fun _ => rfl⟩
  | cancelLoading =>
      obtain ⟨task, htask, hpc, -, ⟨a, e, -, -, -, -, rfl⟩ | ⟨-, rfl⟩⟩ :=
        cancelLoading_spec h
      · exact ⟨task, _, htask, setTask_self .., hpc ▸ .cancelled, fun _ => rfl⟩
      · exact ⟨task, _, htask, setTask_self .., hpc ▸ .cancelled, fun _ => rfl⟩

end State

theorem TaskPc.UsesEntry.hasEntry {p : TaskPc} (h : p.UsesEntry) :
    p.HasEntry := by
  cases p <;> first | exact h | trivial

/-- The places from which a worker takes a step. -/
def WorkerStep.At : WorkerStep → TaskPc → Prop
  | .startLoading _ _, pc => pc = .queued
  | .curlInit _, pc => pc = .started
  | .writeCallback _, pc => pc = .performing
  | .testLoading, pc => pc = .testing
  | .appendData _ _, pc => pc = .appending
  | .notifyWaitingClients, pc => pc = .notifying ∨ pc = .finishNotify
  | .curlDone _, pc => pc = .performing
  | .finishTest, pc => pc = .finishTest
  | .finishLoading _ _, pc => pc = .finishing
  | .cancelLoading, pc => pc = .failing

namespace State

theorem stepWorker_at
    {t : ℕ} {a : WorkerStep} (h : s.stepWorker t a = some s') {task : Task}
    (htask : s.tasks t = some task) : a.At task.pc := by
  have hat : ∀ {u : Task} {P : TaskPc → Prop}, s.tasks t = some u → P u.pc →
      P task.pc := by
    intro u P hu hpc
    obtain rfl := Option.some.inj (htask.symm.trans hu)
    exact hpc
  cases a with
  | startLoading now ok =>
      obtain ⟨u, hu, hpc, -⟩ := startLoading_spec h
      exact hat (P := (· = .queued)) hu hpc
  | curlInit ok =>
      obtain ⟨u, hu, hpc, -⟩ := curlInit_spec h
      exact hat (P := (· = .started)) hu hpc
  | writeCallback chunk =>
      obtain ⟨u, -, hu, hpc, -⟩ := writeCallback_spec h
      exact hat (P := (· = .performing)) hu hpc
  | testLoading =>
      obtain ⟨u, -, hu, hpc, -⟩ := testLoading_spec h
      exact hat (P := (· = .testing)) hu hpc
  | appendData now ok =>
      obtain ⟨u, -, -, hu, hpc, -⟩ := appendData_spec h
      exact hat (P := (· = .appending)) hu hpc
  | notifyWaitingClients =>
      obtain ⟨u, -, hu, hpc, -⟩ := notifyWaitingClients_spec h
      exact hat (P := fun pc => pc = .notifying ∨ pc = .finishNotify) hu hpc
  | curlDone ok =>
      obtain ⟨u, hu, hpc, -⟩ := curlDone_spec h
      exact hat (P := (· = .performing)) hu hpc
  | finishTest =>
      obtain ⟨u, -, hu, hpc, -⟩ := finishTest_spec h
      exact hat (P := (· = .finishTest)) hu hpc
  | finishLoading now ok =>
      obtain ⟨u, -, -, hu, hpc, -⟩ := finishLoading_spec h
      exact hat (P := (· = .finishing)) hu hpc
  | cancelLoading =>
      obtain ⟨u, hu, hpc, -⟩ := cancelLoading_spec h
      exact hat (P := (· = .failing)) hu hpc

/-- Only the test of `is_loading` leads into the critical section of an
append. -/
theorem stepWorker_appending
    {t : ℕ} {a : WorkerStep} (h : s.stepWorker t a = some s') {task' : Task}
    (htask' : s'.tasks t = some task') (hpc' : task'.pc = .appending) :
    ∃ e, s.cache.entries task'.entry = some e ∧ e.isLoading = true ∧
      s'.cache = s.cache := by
  obtain ⟨task, task₁, htask, htask₁, hmove, -⟩ := stepWorker_move h
  obtain rfl := Option.some.inj (htask'.symm.trans htask₁)
  rw [hpc'] at hmove
  have hat := stepWorker_at h htask
  generalize task.pc = pc at hmove hat
  cases hmove
  -- the worker was at the test, so the step is the test
  cases a <;> simp only [WorkerStep.At, reduceCtorEq, or_self] at hat
  obtain ⟨u, e, hu, -, he, ⟨hload, rfl⟩ | ⟨-, rfl⟩⟩ := testLoading_spec h
  · obtain rfl := eq_of_setTask htask'
    exact ⟨e, he, hload, rfl⟩
  · obtain rfl := eq_of_setTask htask'
    dsimp only [Task.refuse] at hpc'
    split at hpc' <;> cases hpc'

/-- The only step of a queued worker is to start loading. -/
theorem stepWorker_of_queued
    {t : ℕ} {a : WorkerStep} (h : s.stepWorker t a = some s') {task : Task}
    (htask : s.tasks t = some task) (hpc : task.pc = .queued) :
    ∃ now ok, a = .startLoading now ok := by
  have hat := stepWorker_at h htask
  rw [hpc] at hat
  cases a <;> simp only [WorkerStep.At, reduceCtorEq, or_self] at hat
  exact ⟨_, _, rfl⟩

/-- The only step of a worker whose load has failed is to cancel it. -/
theorem stepWorker_of_failing
    {t : ℕ} {a : WorkerStep} (h : s.stepWorker t a = some s') {task : Task}
    (htask : s.tasks t = some task) (hpc : task.pc = .failing) :
    a = .cancelLoading := by
  have hat := stepWorker_at h htask
  rw [hpc] at hat
  cases a <;> simp only [WorkerStep.At, reduceCtorEq, or_self] at hat
  rfl

/-- A step of the collector changes the cache, its own variables and the lock
of the bucket. -/
structure CollectorFrame (s s' : State) : Prop where
  reqs : s'.reqs = s.reqs
  tasks : s'.tasks = s.tasks
  appends : s'.appends = s.appends

theorem stepCollector_frame
    {a : GcStep} (h : s.stepCollector a = some s') : CollectorFrame s s' := by
  cases a with
  | begin b now =>
      obtain ⟨-, -, rfl⟩ := gcBegin_spec h
      exact ⟨rfl, rfl, rfl⟩
  | entry =>
      obtain ⟨g, a, rest, e, -, -, -, ⟨-, rfl⟩ | ⟨-, -, rfl⟩ | ⟨-, rfl⟩⟩ :=
        gcEntry_spec h
      · exact ⟨rfl, rfl, rfl⟩
      · exact ⟨rfl, rfl, rfl⟩
      · exact ⟨rfl, rfl, rfl⟩
  | finish =>
      obtain ⟨g, -, -, rfl⟩ := gcEnd_spec h
      exact ⟨rfl, rfl, rfl⟩

end State

end Streaming
end Proxy
end OsFifthSem
