import OsFifthSem.Proxy.Cache.Waiters
import OsFifthSem.Proxy.Streaming.History
import OsFifthSem.Proxy.Streaming.Schedules

/-!
# Clients that wait to be notified

A client that has nothing to send and nothing to do goes on only when a worker
signals its handle.  It is lost when nobody will: when it registers after a
worker has made its last call, when its entry is removed together with the
list of waiters, when its row of the pending table is dropped, or when the
load ends without anybody being told.  As long as no step does one of these
things, every waiting client is linked, has a worker, and has been told of
everything that its entry holds.
-/

namespace OsFifthSem
namespace Proxy
namespace Streaming

open Support State

/-- The request can only go on when its handle is signalled: no function of
`backend.c` is running for it, no write and no notification is pending. -/
def WriteReq.Waiting (w : WriteReq) : Prop :=
  w.Live ∧ w.pc = .idle ∧ w.writePending = false ∧ w.queued = false

instance (w : WriteReq) : Decidable w.Waiting := by
  unfold WriteReq.Waiting
  infer_instance

/-- The entry is loading and has no bytes behind the offset. -/
def Exhausted (offset : ℕ) (e : Entry) : Prop :=
  e.isLoading = true ∧ e.data.length ≤ offset

theorem exhausted_congr
    {offset : ℕ} (e e' : Entry) (hload : e'.isLoading = e.isLoading)
    (hdata : e'.data = e.data) (h : Exhausted offset e) :
    Exhausted offset e' :=
  ⟨hload.trans h.1, hdata ▸ h.2⟩

theorem exhausted_new
    {offset : ℕ} (e : Entry) (hload : e.isLoading = true)
    (hdata : e.data = []) : Exhausted offset e :=
  ⟨hload, by simp [hdata]⟩

namespace State

/-- A worker has changed the entry and is about to call
`notify_waiting_clients` for it. -/
def Announcing (s : State) (x : ℕ) : Prop :=
  ∃ t task, s.tasks t = some task ∧ task.entry = x ∧
    (task.pc = .notifying ∨ task.pc = .finishNotify)

/-- The entry of the key, if there is one, has the property, or is being
announced. -/
def UpToDate (s : State) (key : CString) (Q : Entry → Prop) : Prop :=
  ∀ x e, s.cache.findEntry key = some (x, e) → s.Announcing x ∨ Q e

/-- A live request streams the key. -/
def Streamed (s : State) (key : CString) : Prop :=
  ∃ r w, s.reqs r = some w ∧ w.Live ∧ w.key = key

end State

/-- A request that waits is linked among the waiters of its key, a worker of
the key has not ended, and there is nothing in its entry that it was not told
of. -/
structure Attended (s : State) (r : ℕ) (w : WriteReq) : Prop where
  linked : s.cache.Waits w.key r
  worker : ∃ t task, s.tasks t = some task ∧ task.key = w.key ∧
    task.pc ≠ .ended
  current : s.UpToDate w.key (Exhausted w.lastOffset)

/-- No client is stuck. -/
def NoneStuck (s : State) : Prop :=
  ∀ r w, s.reqs r = some w → w.Waiting → Attended s r w

/-- The branches on which a waiting client is lost are not taken. -/
structure KeepsWaiters (s : State) (a : Action) : Prop where
  /-- `cache_register_waiter` finds memory. -/
  stored : ∀ r ok, a = .request r (.registerWaiter ok) → ok = true
  /-- A `cache_register_waiter` after which nothing is looked up again finds
  no entry, or one for which the request is to wait. -/
  inTime : ∀ r ok, a = .request r (.registerWaiter ok) → ∀ w,
    s.reqs r = some w → w.willRecheck = false →
      s.UpToDate w.key (Exhausted w.lastOffset)
  /-- `uv_write` accepts the chunks of `send_next_chunk`. -/
  written : ∀ r now ok, a = .request r (.lookupEnd now ok) → ∀ w,
    s.reqs r = some w → w.streaming = true → ok = true
  /-- `cache_start_loading` finds memory for a key that is streamed. -/
  created : ∀ t now, a = .worker t (.startLoading now false) → ∀ task,
    s.tasks t = some task → s.cache.findEntry task.key = none →
      ¬ s.Streamed task.key
  /-- When `cache_start_loading` takes its row from the head of the table, no
  live request has its handle in a row behind. -/
  handedOver : ∀ t now ok, a = .worker t (.startLoading now ok) → ∀ task,
    s.tasks t = some task → s.cache.findEntry task.key = none →
      ∀ row rows, s.cache.pending (s.cache.bucketOf task.key) = row :: rows →
        row.key = task.key → ∀ row' ∈ rows, ∀ r ∈ row'.waiter, ∀ w,
          s.reqs r = some w → ¬ w.Live
  /-- `cache_cancel_loading` frees no entry whose key is streamed. -/
  cancelled : ∀ t, a = .worker t .cancelLoading → ∀ task x e,
    s.tasks t = some task → s.cache.findEntry task.path = some (x, e) →
      e.isLoading = true → ¬ s.Streamed task.path
  /-- A worker whose own entry is still loading cancels under its key. -/
  ownPath : ∀ t, a = .worker t .cancelLoading → ∀ task e,
    s.tasks t = some task →
      s.cache.findEntry task.key = some (task.entry, e) →
        e.isLoading = true → task.path = task.key
  /-- `cache_clean_expired` unlinks no entry whose key is streamed: neither
  the expired entry nor the loading entries passed since `prev`. -/
  collected : a = .collector .entry → ∀ g x rest e, s.gc = some g →
    g.rest = x :: rest → s.cache.entries x = some e → e.isLoading = false →
      e.expired s.cache.defaultTtl g.now = true → ∀ y ∈ x :: g.skipped,
        ∀ f, s.cache.entries y = some f → ¬ s.Streamed f.key

/-! ## What a step does to the entry of a key -/

namespace Consistent

variable {s s' : State}

/-- What a search finds after a step is what it found before, or a worker is
about to announce it, or it has just been created. -/
theorem step_found
    (hs : Consistent s) {a : Action} (h : s.step a = some s') {key : CString}
    {x : ℕ} {e' : Entry} (hfind : s'.cache.findEntry key = some (x, e')) :
    (∃ e, s.cache.findEntry key = some (x, e) ∧
      e'.isLoading = e.isLoading ∧ e'.data = e.data) ∨
    s'.Announcing x ∨ (e'.isLoading = true ∧ e'.data = []) := by
  have hwf := (hs.of_step h).wf
  cases a with
  | request r a =>
      exact Or.inl ((stepRequest_frame h).contents.findEntry_back hs.wf hwf
        hfind)
  | collector a =>
      rcases stepCollector_cases h with
        heq | ⟨g, y, rest, e, -, hg, hrest, -, -, -, -, heq⟩
      · exact Or.inl ⟨e', heq ▸ hfind, rfl, rfl⟩
      · obtain ⟨hwf', hfrees⟩ := hs.collected_frees hg hrest e
        rw [heq] at hfind
        exact Or.inl ⟨e', hfrees.findEntry_back hs.wf hwf' hfind, rfl, rfl⟩
  | worker t a =>
      -- an entry rewritten in place is the one that is found, or is not
      have hput : ∀ {task : Task} {e f : Entry},
          s.cache.entries task.entry = some e → f.key = e.key →
          s'.cache = s.cache.putEntry task.entry f →
          s'.Announcing task.entry →
          (∃ e, s.cache.findEntry key = some (x, e) ∧
            e'.isLoading = e.isLoading ∧ e'.data = e.data) ∨
          s'.Announcing x := by
        intro task e f he hkey hcache hann
        rw [hcache, Cache.findEntry_putEntry he hkey] at hfind
        obtain ⟨⟨y, g⟩, hg, heq⟩ := Option.map_eq_some_iff.mp hfind
        obtain ⟨rfl, rfl⟩ := Prod.mk.inj heq
        by_cases hy : y = task.entry
        · exact Or.inr (hy ▸ hann)
        · exact Or.inl ⟨g, hg, by simp [hy], by simp [hy]⟩
      cases stepWorker_effect h with
      | kept hcontents =>
          exact Or.inl (hcontents.findEntry_back hs.wf hwf hfind)
      | created task now htask hpc hfree hnone hcache =>
          rw [hcache] at hfind
          by_cases hkey : key = task.key
          · subst hkey
            rw [hs.wf.findEntry_created_self now hnone] at hfind
            obtain ⟨-, rfl⟩ := Prod.mk.inj (Option.some.inj hfind)
            exact Or.inr (Or.inr ⟨rfl, rfl⟩)
          · rw [hs.wf.findEntry_created_of_ne now hnone hkey] at hfind
            exact Or.inl ⟨e', hfind, rfl, rfl⟩
      | appended task e f htask hpc he hkey hload hdata hcache happends hnext =>
          rcases hput he hkey hcache ⟨t, _, hnext, rfl, Or.inl rfl⟩ with
            hold | hann
          · exact Or.inl hold
          · exact Or.inr (Or.inl hann)
      | finished task e f htask hpc he hkey hload hdata hcache happends hnext =>
          rcases hput he hkey hcache ⟨t, _, hnext, rfl, Or.inr rfl⟩ with
            hold | hann
          · exact Or.inl hold
          · exact Or.inr (Or.inl hann)
      | freed task y e htask hpc hfree hmem he hkey hload hcache =>
          have hfrees :=
            hs.wf.removeEntry_frees (s.cache.bucketOf task.path) y
          rw [hcache] at hfind hwf
          exact Or.inl ⟨e', hfrees.findEntry_back hs.wf hwf hfind, rfl, rfl⟩

/-- A worker stays where it is unless the step is its own. -/
theorem step_task_of_ne
    (hs : Consistent s) {a : Action} (h : s.step a = some s') {t : ℕ}
    {task : Task} (htask : s.tasks t = some task)
    (hne : ∀ b, a ≠ .worker t b) :
    ∃ stop, s'.tasks t = some { task with shouldStop := stop } := by
  cases a with
  | request r b => exact (hs.quiet_of_stepRequest h).kept t task htask
  | collector b => exact (hs.quiet_of_stepCollector h).kept t task htask
  | worker t' b =>
      have ht : t ≠ t' := by
        rintro rfl
        exact hne b rfl
      exact ⟨task.shouldStop, ((stepWorker_frame h).tasks t ht).trans htask⟩

/-- An entry goes on being announced until `notify_waiting_clients` is called
for it. -/
theorem step_announcing
    (hs : Consistent s) {a : Action} (h : s.step a = some s') {x : ℕ}
    (hann : s.Announcing x) :
    s'.Announcing x ∨ ∃ t task, a = .worker t .notifyWaitingClients ∧
      s.tasks t = some task ∧ task.entry = x := by
  obtain ⟨t, task, htask, hentry, hpc⟩ := hann
  by_cases hown : ∃ b, a = .worker t b
  · obtain ⟨b, rfl⟩ := hown
    have hat := stepWorker_at h htask
    refine Or.inr ⟨t, task, ?_, htask, hentry⟩
    rcases hpc with hpc | hpc <;>
      rw [hpc] at hat <;>
      cases b <;> simp [WorkerStep.At] at hat
    · rfl
    · rfl
  · obtain ⟨stop, htask'⟩ :=
      hs.step_task_of_ne h htask fun b hb => hown ⟨b, hb⟩
    exact Or.inl ⟨t, _, htask', hentry, hpc⟩

/-- What was up to date stays so, unless the entry has just been announced. -/
theorem step_upToDate
    (hs : Consistent s) {a : Action} (h : s.step a = some s') {key : CString}
    {Q : Entry → Prop}
    (hsame : ∀ e e', e'.isLoading = e.isLoading → e'.data = e.data → Q e →
      Q e')
    (hnew : ∀ e, e.isLoading = true → e.data = [] → Q e)
    (hup : s.UpToDate key Q)
    (hquiet : ∀ t task e, a = .worker t .notifyWaitingClients →
      s.tasks t = some task →
        s.cache.findEntry key ≠ some (task.entry, e)) :
    s'.UpToDate key Q := by
  intro x e' hfind
  rcases hs.step_found h hfind with
    ⟨e, he, hload, hdata⟩ | hann | ⟨hload, hdata⟩
  · rcases hup x e he with hann | hQ
    · rcases hs.step_announcing h hann with hann | ⟨t, task, hact, htask, rfl⟩
      · exact Or.inl hann
      · exact absurd he (hquiet t task e hact htask)
    · exact Or.inr (hsame e e' hload hdata hQ)
  · exact Or.inl hann
  · exact Or.inr (hnew e' hload hdata)

/-- `cache_cancel_loading` does not free the entry of a streamed key. -/
theorem kept_of_cancelled
    {t : ℕ} (hkeep : KeepsWaiters s (.worker t .cancelLoading))
    {key : CString} (hstream : s.Streamed key) {task : Task}
    (htask : s.tasks t = some task) {y : ℕ} {e : Entry}
    (he : s.cache.entries y = some e) (hkey : e.key = task.path)
    (hload : e.isLoading = true) :
    ∀ x f, s.cache.findEntry key = some (x, f) → x ≠ y ∧ x ∉ ([] : List ℕ) := by
  intro x f hfind
  refine ⟨?_, List.not_mem_nil⟩
  rintro rfl
  obtain ⟨-, hf, hfkey⟩ := Cache.findEntry_eq_some hfind
  obtain rfl := Option.some.inj (he.symm.trans hf)
  have hpath : key = task.path := hfkey.symm.trans hkey
  exact hkeep.cancelled t rfl task x e htask (hpath ▸ hfind) hload
    (hpath ▸ hstream)

/-- `cache_clean_expired` does not unlink the entry of a streamed key. -/
theorem kept_of_collected
    (hkeep : KeepsWaiters s (.collector .entry)) {key : CString}
    (hstream : s.Streamed key) {g : Collector} (hg : s.gc = some g) {y : ℕ}
    {rest : List ℕ} (hrest : g.rest = y :: rest) {e : Entry}
    (he : s.cache.entries y = some e) (hload : e.isLoading = false)
    (hexp : e.expired s.cache.defaultTtl g.now = true) :
    ∀ x f, s.cache.findEntry key = some (x, f) → x ≠ y ∧ x ∉ g.skipped := by
  intro x f hfind
  obtain ⟨-, hf, hkey⟩ := Cache.findEntry_eq_some hfind
  have hnot : x ∉ y :: g.skipped := fun hmem =>
    hkeep.collected rfl g y rest e hg hrest he hload hexp x hmem f hf
      (hkey ▸ hstream)
  exact ⟨fun heq => hnot (heq ▸ List.mem_cons_self),
    fun hmem => hnot (List.mem_cons_of_mem y hmem)⟩

/-- The entry of a streamed key stays. -/
theorem step_findEntry_of_streamed
    (hs : Consistent s) {a : Action} (hkeep : KeepsWaiters s a)
    (h : s.step a = some s') {key : CString} (hstream : s.Streamed key)
    {x : ℕ} {e : Entry} (hfind : s.cache.findEntry key = some (x, e)) :
    ∃ e', s'.cache.findEntry key = some (x, e') := by
  have hwf := (hs.of_step h).wf
  cases a with
  | request r a =>
      obtain ⟨e', he', -⟩ :=
        (stepRequest_frame h).contents.findEntry hs.wf hwf hfind
      exact ⟨e', he'⟩
  | collector a =>
      rcases stepCollector_cases h with
        heq | ⟨g, y, rest, f, rfl, hg, hrest, hf, hload, hexp, -, heq⟩
      · exact ⟨e, heq ▸ hfind⟩
      · obtain ⟨hwf', hfrees⟩ := hs.collected_frees hg hrest f
        have hsame := hfrees.findEntry_of_kept hs.wf hwf'
          (kept_of_collected hkeep hstream hg hrest hf hload hexp)
        exact ⟨e, by rw [heq, hsame, hfind]⟩
  | worker t a =>
      cases stepWorker_effect h with
      | kept hcontents =>
          obtain ⟨e', he', -⟩ := hcontents.findEntry hs.wf hwf hfind
          exact ⟨e', he'⟩
      | created task now htask hpc hfree hnone hcache =>
          have hkey : key ≠ task.key := by
            rintro rfl
            rw [hnone] at hfind
            cases hfind
          exact ⟨e, by
            rw [hcache, hs.wf.findEntry_created_of_ne now hnone hkey, hfind]⟩
      | appended task f f' htask hpc he hkey hload hdata hcache =>
          exact ⟨_, by rw [hcache, Cache.findEntry_putEntry he hkey, hfind]; rfl⟩
      | finished task f f' htask hpc he hkey hload hdata hcache =>
          exact ⟨_, by rw [hcache, Cache.findEntry_putEntry he hkey, hfind]; rfl⟩
      | freed task y f htask hpc hfree hmem he hkey hload hcache =>
          obtain rfl := stepWorker_of_failing h htask hpc
          have hfrees :=
            hs.wf.removeEntry_frees (s.cache.bucketOf task.path) y
          rw [hcache] at hwf
          have hsame := hfrees.findEntry_of_kept hs.wf hwf
            (kept_of_cancelled hkeep hstream htask he hkey hload)
          exact ⟨e, by rw [hcache, hsame, hfind]⟩

/-- The handle of a live request stays linked. -/
theorem step_waits
    (hs : Consistent s) {a : Action} (hkeep : KeepsWaiters s a)
    (h : s.step a = some s') {r : ℕ} {w : WriteReq}
    (hw : s.reqs r = some w) (hlive : w.Live)
    (hlinked : s.cache.Waits w.key r) : s'.cache.Waits w.key r := by
  have hstream : s.Streamed w.key := ⟨r, w, hw, hlive, rfl⟩
  -- entries rewritten in place keep their waiters
  have hput : ∀ {x : ℕ} {e e' : Entry}, s.cache.entries x = some e →
      e'.key = e.key → e'.waitingClients = e.waitingClients →
      (s.cache.putEntry x e').Waits w.key r :=
    fun he hkey hsame => hlinked.putEntry he hkey fun hmem => hsame ▸ hmem
  cases a with
  | request r' a =>
      cases a with
      | readClient x =>
          obtain ⟨-, key, -, rfl⟩ := readClient_spec h
          exact hlinked
      | lookupBegin =>
          obtain ⟨v, -, -, -, ⟨x, e, -, rfl⟩ | ⟨-, rfl⟩⟩ := lookupBegin_spec h
          · exact hlinked
          · exact hlinked
      | lookupEnd now ok =>
          obtain ⟨v, e, -, -, he, rfl⟩ := lookupEnd_spec h
          change (s.lookedUp v e now).Waits w.key r
          unfold lookedUp
          dsimp only
          split
          · exact hput he (e.touch_key _ now) (e.touch_waitingClients _ now)
          · exact hlinked
      | launchBgw ok =>
          obtain ⟨v, -, -, ⟨-, rfl⟩ | ⟨-, rfl⟩⟩ := launchBgw_spec h
          · exact hlinked
          · exact hlinked
      | registerWaiter ok =>
          obtain ⟨v, -, -, -, rfl⟩ := registerWaiter_spec h
          exact hlinked.registerWaiter v.key r' ok
      | onDataReady =>
          obtain ⟨v, -, -, -, -, rfl⟩ := onDataReady_spec h
          exact hlinked
      | onWritten ok =>
          obtain ⟨v, -, -, -, rfl⟩ := onWritten_spec h
          exact hlinked
      | unregisterWaiter =>
          obtain ⟨v, hv, hpc, -, rfl⟩ := unregisterWaiter_spec h
          have hne : r ≠ r' := by
            rintro rfl
            obtain rfl := Option.some.inj (hw.symm.trans hv)
            exact hlive.2.1 hpc
          exact hlinked.unregisterWaiter v.key hne
      | cancelBgw =>
          obtain ⟨v, -, -, rfl⟩ := cancelBgw_spec h
          exact hlinked
      | onAsyncClose =>
          obtain ⟨v, -, -, rfl⟩ := onAsyncClose_spec h
          exact hlinked
  | worker t a =>
      cases a with
      | startLoading now ok =>
          obtain ⟨task, htask, hpc, -,
            ⟨x, e, -, rfl⟩ | ⟨hnone, -, rfl⟩ | ⟨-, -, rfl⟩⟩ :=
            startLoading_spec h
          · exact hlinked
          · refine hlinked.created hs.wf now hnone ?_
            intro row rows hrows hrow row' hmem hr
            exact hkeep.handedOver t now ok rfl task htask hnone row rows hrows
              hrow row' hmem r hr w hw hlive
          · exact hlinked
      | curlInit ok =>
          obtain ⟨task, -, -, rfl⟩ := curlInit_spec h
          exact hlinked
      | writeCallback chunk =>
          obtain ⟨task, task', -, -, rfl, -⟩ := writeCallback_spec h
          exact hlinked
      | testLoading =>
          obtain ⟨task, e, -, -, -, ⟨-, rfl⟩ | ⟨-, rfl⟩⟩ := testLoading_spec h
          · exact hlinked
          · exact hlinked
      | appendData now ok =>
          obtain ⟨task, e, e', -, -, he, hkey, -, hwait,
            ⟨-, rfl⟩ | ⟨-, rfl⟩⟩ := appendData_spec h
          · exact hput he hkey hwait
          · exact hput he hkey hwait
      | notifyWaitingClients =>
          obtain ⟨task, e, -, -, -, rfl⟩ := notifyWaitingClients_spec h
          exact hlinked
      | curlDone ok =>
          obtain ⟨task, -, -, rfl⟩ := curlDone_spec h
          exact hlinked
      | finishTest =>
          obtain ⟨task, e, -, -, -, rfl⟩ := finishTest_spec h
          exact hlinked
      | finishLoading now ok =>
          obtain ⟨task, e, e', -, -, he, hkey, -, -, hwait, -, rfl⟩ :=
            finishLoading_spec h
          exact hput he hkey hwait
      | cancelLoading =>
          obtain ⟨task, htask, -, -, ⟨y, e, hmem, he, hkey, hload, rfl⟩ |
            ⟨-, rfl⟩⟩ := cancelLoading_spec h
          · have hfrees :=
              hs.wf.removeEntry_frees (s.cache.bucketOf task.path) y
            exact hlinked.frees hfrees
              (hfrees.findEntry_of_kept hs.wf (hs.wf.removeEntry hmem)
                (kept_of_cancelled hkeep hstream htask he hkey hload))
          · exact hlinked
  | collector a =>
      rcases stepCollector_cases h with
        heq | ⟨g, y, rest, f, rfl, hg, hrest, hf, hload, hexp, -, heq⟩
      · rw [heq]
        exact hlinked
      · obtain ⟨hwf', hfrees⟩ := hs.collected_frees hg hrest f
        rw [heq]
        exact hlinked.frees hfrees (hfrees.findEntry_of_kept hs.wf hwf'
          (kept_of_collected hkeep hstream hg hrest hf hload hexp))

end Consistent

/-! ## What is known of a request -/

/-- What is known of a request as long as it is live. -/
structure Tended (s : State) (r : ℕ) (w : WriteReq) : Prop where
  /-- While its key has no entry, a worker is on its way to create one. -/
  awaited : w.Live → s.cache.findEntry w.key = none →
    ∃ t task, s.tasks t = some task ∧ task.pc = .queued ∧ task.key = w.key
  /-- Once it has registered, its handle is linked. -/
  linked : w.Live → w.didRegister = true → s.cache.Waits w.key r
  waiting : w.Waiting → w.didRegister = true ∧
    s.UpToDate w.key (Exhausted w.lastOffset)
  /-- A registered request that saw its entry loading is told when the load
  ends before the lookup does. -/
  looking : w.Live → w.didRegister = true → w.queued = false →
    w.pc = .inLookup → w.loading = true →
      s.UpToDate w.key fun e => e.isLoading = true

/-- The invariant: every loading entry is in the hands of a worker, an entry
that is announced for the last time is finished, and the requests are
tended. -/
structure Serving (s : State) : Prop where
  base : Consistent s
  filled : ∀ key x e, s.cache.findEntry key = some (x, e) →
    e.isLoading = true →
      ∃ t task, s.tasks t = some task ∧ task.pc.HasEntry ∧ task.entry = x
  finished : ∀ t task e, s.tasks t = some task → task.pc = .finishNotify →
    s.cache.entries task.entry = some e → e.isLoading = false
  tended : ∀ r w, s.reqs r = some w → Tended s r w

namespace Tended

variable {s : State} {r : ℕ} {w : WriteReq}

theorem of_live (h : w.Live → Tended s r w) : Tended s r w where
  awaited := fun hlive => (h hlive).awaited hlive
  linked := fun hlive => (h hlive).linked hlive
  waiting := fun hwait => (h hwait.1).waiting hwait
  looking := fun hlive => (h hlive).looking hlive

/-- A request that is neither waiting nor inside a lookup. -/
theorem of_busy
    (hawaited : s.cache.findEntry w.key = none →
      ∃ t task, s.tasks t = some task ∧ task.pc = .queued ∧ task.key = w.key)
    (hlinked : w.didRegister = true → s.cache.Waits w.key r)
    (hnot : ¬ w.Waiting) (hpc : w.pc ≠ .inLookup) : Tended s r w where
  awaited := fun _ => hawaited
  linked := fun _ => hlinked
  waiting := fun hwait => absurd hwait hnot
  looking := fun _ _ _ hin => absurd hin hpc

/-- A request whose handle is signalled. -/
theorem of_queued
    (hawaited : s.cache.findEntry w.key = none →
      ∃ t task, s.tasks t = some task ∧ task.pc = .queued ∧ task.key = w.key)
    (hlinked : w.didRegister = true → s.cache.Waits w.key r)
    (hqueued : w.queued = true) : Tended s r w where
  awaited := fun _ => hawaited
  linked := fun _ => hlinked
  waiting := fun hwait => by
    rw [hwait.2.2.2] at hqueued
    cases hqueued
  looking := fun _ _ hnot => by
    rw [hnot] at hqueued
    cases hqueued

end Tended

namespace WriteReq

variable {w : WriteReq}

theorem Live.notify_eq (hlive : w.Live) :
    w.notify = { w with queued := true } :=
  if_neg hlive.2.2.2.1

theorem not_waiting_of_pc (hpc : w.pc ≠ .idle) : ¬ w.Waiting :=
  fun hwait => hpc hwait.2.1

/-- `send_next_chunk` looks up the next chunk or leaves the request to its
pending write. -/
theorem not_waiting_sendNextChunk (w : WriteReq) :
    ¬ w.sendNextChunk.Waiting := by
  unfold sendNextChunk
  split
  next hpending =>
    rintro ⟨-, -, hnot, -⟩
    cases hpending.symm.trans hnot
  next => exact not_waiting_of_pc (by simp)

end WriteReq

namespace Tended

variable {s : State} {r : ℕ} {w : WriteReq}

theorem sendNextChunk
    (hawaited : s.cache.findEntry w.key = none →
      ∃ t task, s.tasks t = some task ∧ task.pc = .queued ∧ task.key = w.key)
    (hlinked : w.didRegister = true → s.cache.Waits w.key r) :
    Tended s r w.sendNextChunk := by
  have hnot := w.not_waiting_sendNextChunk
  have hpc := w.sendNextChunk_pc
  unfold WriteReq.sendNextChunk at hnot hpc ⊢
  split at hnot
  next hpending =>
    rw [if_pos hpending] at hpc ⊢
    exact .of_busy hawaited hlinked hnot hpc
  next hpending =>
    rw [if_neg hpending] at hpc ⊢
    exact .of_busy hawaited hlinked hnot hpc

/-- A request that starts to stream has not registered yet. -/
theorem beginStreaming
    (hreg : w.didRegister = false)
    (hawaited : s.cache.findEntry w.key = none →
      ∃ t task, s.tasks t = some task ∧ task.pc = .queued ∧ task.key = w.key)
    (launched : Bool) : Tended s r (w.beginStreaming launched) :=
  .sendNextChunk hawaited fun hyes => by cases hyes.symm.trans hreg

theorem registerOnce
    (hawaited : s.cache.findEntry w.key = none →
      ∃ t task, s.tasks t = some task ∧ task.pc = .queued ∧ task.key = w.key)
    (hlinked : w.didRegister = true → s.cache.Waits w.key r)
    (hup : w.didRegister = true → w.queued = false →
      s.UpToDate w.key (Exhausted w.lastOffset)) {recheck : Bool} :
    Tended s r (w.registerOnce recheck) := by
  unfold WriteReq.registerOnce
  split
  next hreg =>
    exact ⟨fun _ => hawaited, fun _ => hlinked,
      fun hwait => ⟨hreg, hup hreg hwait.2.2.2⟩, fun _ _ _ hin => by cases hin⟩
  next =>
    exact .of_busy hawaited hlinked (WriteReq.not_waiting_of_pc (by simp))
      (by simp)

end Tended

namespace Serving

variable {s s' : State}

theorem init (numBuckets : ℕ) (defaultTtl : ℤ) :
    Serving (.init numBuckets defaultTtl) where
  base := .init numBuckets defaultTtl
  filled := by simp [State.init, Cache.init, Cache.findEntry]
  finished := by simp [State.init]
  tended := by simp [State.init]

/-! ## Workers and their entries -/

theorem step_awaited
    (hs : Serving s) {a : Action} (hkeep : KeepsWaiters s a)
    (h : s.step a = some s') {r : ℕ} {w : WriteReq}
    (hw : s.reqs r = some w) (hlive : w.Live)
    (hnone' : s'.cache.findEntry w.key = none) :
    ∃ t task, s'.tasks t = some task ∧ task.pc = .queued ∧
      task.key = w.key := by
  have hstream : s.Streamed w.key := ⟨r, w, hw, hlive, rfl⟩
  cases hfind : s.cache.findEntry w.key with
  | some p =>
      obtain ⟨x, e⟩ := p
      obtain ⟨e', he'⟩ :=
        hs.base.step_findEntry_of_streamed hkeep h hstream hfind
      rw [hnone'] at he'
      cases he'
  | none =>
      obtain ⟨t, task, htask, hpc, hkey⟩ :=
        (hs.tended r w hw).awaited hlive hfind
      by_cases hown : ∃ b, a = .worker t b
      · -- the worker starts loading, so that there is an entry afterwards
        obtain ⟨b, rfl⟩ := hown
        obtain ⟨now, ok, rfl⟩ := stepWorker_of_queued h htask hpc
        obtain ⟨u, hu, -, -,
          ⟨x, e, hsome, -⟩ | ⟨hnone, -, rfl⟩ | ⟨hnone, rfl, -⟩⟩ :=
          startLoading_spec h
        · obtain rfl := Option.some.inj (htask.symm.trans hu)
          rw [hkey, hfind] at hsome
          cases hsome
        · obtain rfl := Option.some.inj (htask.symm.trans hu)
          have hnew := hs.base.wf.findEntry_created_self now hnone
          rw [hkey] at hnew
          change (s.cache.created task.key now).findEntry w.key = none at hnone'
          rw [hkey, hnew] at hnone'
          cases hnone'
        · obtain rfl := Option.some.inj (htask.symm.trans hu)
          exact absurd (hkey ▸ hstream)
            (hkeep.created t now rfl task htask hnone)
      · obtain ⟨stop, htask'⟩ :=
          hs.base.step_task_of_ne h htask fun b hb => hown ⟨b, hb⟩
        exact ⟨t, _, htask', hpc, hkey⟩

/-- What a step of another party leaves of a request. -/
theorem tended_of_other
    (hs : Serving s) {a : Action} (hkeep : KeepsWaiters s a)
    (h : s.step a = some s') {r : ℕ} {w w' : WriteReq}
    (hw : s.reqs r = some w) (hcase : w' = w ∨ w' = w.notify)
    (htold : ∀ t task e, a = .worker t .notifyWaitingClients →
      s.tasks t = some task → s.cache.entries task.entry = some e →
        r ∈ e.waitingClients → w' = w.notify) :
    Tended s' r w' := by
  refine .of_live fun hlive' => ?_
  have hlive : w.Live := by
    rcases hcase with rfl | rfl
    · exact hlive'
    · exact w.live_notify_iff.mp hlive'
  have hold := hs.tended r w hw
  have hawaited := hs.step_awaited hkeep h hw hlive
  have hlinked := fun hreg =>
    hs.base.step_waits hkeep h hw hlive (hold.linked hlive hreg)
  by_cases hqueued : w'.queued = true
  · rcases hcase with rfl | rfl
    · exact .of_queued hawaited hlinked hqueued
    · rw [hlive.notify_eq]
      exact .of_queued hawaited hlinked rfl
  · have hsame : w' = w := by
      rcases hcase with rfl | rfl
      · rfl
      · rw [hlive.notify_eq] at hqueued
        exact absurd rfl hqueued
    subst hsame
    -- had its entry been announced, the request would be queued
    have hquiet : w'.didRegister = true → ∀ t task e,
        a = .worker t .notifyWaitingClients → s.tasks t = some task →
          s.cache.findEntry w'.key ≠ some (task.entry, e) := by
      intro hreg t task e hact htask hfind
      have hmem := (Cache.waits_of_found hfind).mp (hold.linked hlive hreg)
      have htold := htold t task e hact htask
        (Cache.findEntry_eq_some hfind).2.1 hmem
      rw [hlive.notify_eq] at htold
      exact hqueued (congrArg WriteReq.queued htold)
    refine ⟨fun _ => hawaited, fun _ => hlinked, fun hwait => ?_,
      fun _ hreg hnot hpc hload => ?_⟩
    · obtain ⟨hreg, hup⟩ := hold.waiting hwait
      exact ⟨hreg, hs.base.step_upToDate h exhausted_congr
        exhausted_new hup (hquiet hreg)⟩
    · refine hs.base.step_upToDate h ?_ (fun e hload _ => hload)
        (hold.looking hlive hreg hnot hpc hload) (hquiet hreg)
      exact fun e e' hload _ hyes => hload.trans hyes

/-- What its own step leaves of a request. -/
theorem tended_of_stepRequest
    (hs : Serving s) {r : ℕ} {a : ReqStep}
    (hkeep : KeepsWaiters s (.request r a)) (h : s.stepRequest r a = some s')
    {w w' : WriteReq} (hw : s.reqs r = some w) (hw' : s'.reqs r = some w') :
    Tended s' r w' := by
  refine .of_live fun hlive' => ?_
  have hok := hs.base.fields r w hw
  have hold := hs.tended r w hw
  have hcontents := (stepRequest_frame h).contents
  have hwf := (hs.base.of_step (a := .request r a) h).wf
  -- what a request that was live before keeps
  have hawaited : w.Live → s'.cache.findEntry w.key = none →
      ∃ t task, s'.tasks t = some task ∧ task.pc = .queued ∧
        task.key = w.key :=
    fun hlive => hs.step_awaited (a := .request r a) hkeep h hw hlive
  have hlinked : w.Live → w.didRegister = true → s'.cache.Waits w.key r :=
    fun hlive hreg => hs.base.step_waits (a := .request r a) hkeep h hw hlive
      (hold.linked hlive hreg)
  have hup : ∀ {Q : Entry → Prop},
      (∀ e e', e'.isLoading = e.isLoading → e'.data = e.data → Q e → Q e') →
      (∀ e, e.isLoading = true → e.data = [] → Q e) →
      s.UpToDate w.key Q → s'.UpToDate w.key Q :=
    fun hQ hnew hup => hs.base.step_upToDate (a := .request r a) h hQ hnew hup
      (fun _ _ _ hact => by cases hact)
  -- a registered request whose lookup saw its entry loading, and no new bytes
  have hexhausted : ∀ {e : Entry}, w.pc = .inLookup → w.Live →
      s.cache.entries w.entry = some e → w.didRegister = true →
      w.queued = false → w.loading = true → e.data.length ≤ w.lastOffset →
      s'.UpToDate w.key (Exhausted w.lastOffset) := by
    intro e hpc hlive he hreg hqueued hload hlen
    refine hup exhausted_congr exhausted_new ?_
    intro x f hf
    obtain ⟨f', hfound, -⟩ := hs.base.found r w hw hpc
    obtain ⟨rfl, rfl⟩ := Prod.mk.inj (Option.some.inj (hfound.symm.trans hf))
    obtain rfl := Option.some.inj
      (he.symm.trans (Cache.findEntry_eq_some hf).2.1)
    rcases hold.looking hlive hreg hqueued hpc hload _ _ hf with hann | hyes
    · exact Or.inl hann
    · exact Or.inr ⟨hyes, hlen⟩
  cases WriteReq.ownStep_of_stepRequest h hw hw' with
  | lookupHit x e hpc hfree hfind hs' =>
      subst hs'
      have hlive : w.Live := WriteReq.live_of_streaming hlive'.1 (Or.inl hpc)
      refine ⟨fun _ => hawaited hlive, fun _ => hlinked hlive,
        fun hwait => absurd hwait (WriteReq.not_waiting_of_pc (by simp)),
        fun _ _ _ _ hload y f hf => ?_⟩
      have hf : s.cache.findEntry w.key = some (y, f) := hf
      rw [hfind] at hf
      obtain ⟨-, rfl⟩ := Prod.mk.inj (Option.some.inj hf)
      exact Or.inr hload
  | lookupMiss _ hpc hnone hcache hout =>
      have hlive : w.site ≠ .readClient → w.Live := fun hsite =>
        WriteReq.live_of_streaming
          (hok.streaming_of_site (Or.inl hpc) hsite) (Or.inl hpc)
      cases hout with
      | launch hsite =>
          exact absurd hlive'.1 (by simp [hok.not_streaming_of_site hsite])
      | register hsite =>
          have hlive := hlive (by simp [hsite])
          refine .registerOnce (hawaited hlive) (hlinked hlive) fun _ => ?_
          refine fun _ x e hsome => ?_
          rw [hcache] at hsome
          exact absurd (hnone.symm.trans hsome) (by simp)
      | again hsite =>
          have hlive := hlive (by simp [hsite])
          exact .sendNextChunk (hawaited hlive) (hlinked hlive)
  | lookupEnd now ok e _ hpc he hout =>
      have hstream : w.site ≠ .readClient → w.streaming = true :=
        hok.streaming_of_site (Or.inr hpc)
      have hlive : w.site ≠ .readClient → w.Live := fun hsite =>
        WriteReq.live_of_streaming (hstream hsite) (Or.inr (Or.inl hpc))
      cases hout with
      | answered hsite hload =>
          exact absurd hlive'.1
            (by simp [WriteReq.write, hok.not_streaming_of_site hsite])
      | follow hsite hload =>
          have hreg := hok.unregistered (hok.not_streaming_of_site hsite)
          obtain ⟨f, hf, -⟩ := hs.base.found r w hw hpc
          obtain ⟨f', hf', -⟩ := hcontents.findEntry hs.base.wf hwf hf
          exact .beginStreaming hreg
            (fun hnone => absurd (hnone.symm.trans hf') (by simp)) false
      | wait hsite hload hlen =>
          have hlive := hlive (by simp [hsite])
          exact .registerOnce (hawaited hlive) (hlinked hlive)
            fun hreg hqueued => hexhausted hpc hlive he hreg hqueued hload hlen
      | tooFar hsite hload hlen =>
          exact absurd hlive' (WriteReq.not_live_release w _)
      | complete hsite hload hlen =>
          exact absurd hlive' (WriteReq.not_live_release w _)
      | chunk hsite hlen =>
          have hlive := hlive (by simp [hsite])
          obtain rfl := hkeep.written r now ok rfl w hw hlive.1
          exact .of_busy (hawaited hlive) (hlinked hlive)
            (fun hwait => by cases hwait.2.2.1) (by simp)
      | stay hsite hload hlen =>
          have hlive := hlive (by simp [hsite])
          have hreg := hok.rechecks hsite (Or.inr hpc)
          refine ⟨fun _ => hawaited hlive, fun _ => hlinked hlive,
            fun hwait => ⟨hreg, ?_⟩, fun _ _ _ hin => by cases hin⟩
          exact hexhausted hpc hlive he hreg hwait.2.2.2 hload hlen
      | again hsite =>
          have hlive := hlive (by simp [hsite])
          exact .sendNextChunk (hawaited hlive) (hlinked hlive)
  | launched hpc htasks =>
      exact .beginStreaming
        (hok.unregistered (hok.not_streaming_of_launch hpc))
        (fun _ => ⟨r, _, htasks, rfl, rfl⟩) true
  | notLaunched hpc => exact absurd rfl hlive'.2.2.2.1
  | registerWaiter ok hpc hcache =>
      obtain rfl := hkeep.stored r ok rfl
      have hlive : w.Live := WriteReq.live_of_streaming
        (hok.ownPc (Or.inl hpc)) (Or.inr (Or.inr (Or.inl hpc)))
      have hnow : ∀ _ : true = true, s'.cache.Waits w.key r := fun _ =>
        hcache ▸ s.cache.waits_registerWaiter_self w.key r
      unfold WriteReq.afterRegister
      split
      next hrecheck =>
        exact .of_busy (hawaited hlive) hnow
          (WriteReq.not_waiting_of_pc (by simp)) (by simp)
      next hrecheck =>
        refine ⟨fun _ => hawaited hlive, fun _ => hnow, fun _ => ⟨rfl, ?_⟩,
          fun _ _ _ hin => by cases hin⟩
        exact hup exhausted_congr exhausted_new
          (hkeep.inTime r true rfl w hw (by simpa using hrecheck))
  | onDataReady hpc hstream =>
      have hlive : w.Live := WriteReq.live_of_streaming hstream
        (Or.inr (Or.inr (Or.inr hpc)))
      unfold WriteReq.onDataReady
      split
      next hpending =>
        exact .of_busy (hawaited hlive) (hlinked hlive)
          (fun hwait => by cases hpending.symm.trans hwait.2.2.1)
          (by simp [hpc])
      next => exact .sendNextChunk (hawaited hlive) (hlinked hlive)
  | onWritten ok hpc hflight =>
      unfold WriteReq.onWritten at hlive' ⊢
      dsimp only at hlive' ⊢
      by_cases hstream : w.streaming = true
      · have hlive : w.Live := WriteReq.live_of_streaming hstream
          (Or.inr (Or.inr (Or.inr hpc)))
        cases ok with
        | false =>
            rw [if_pos hstream] at hlive'
            exact absurd hlive' (WriteReq.not_live_release _ _)
        | true =>
            simp only [hstream, hok.isLoading hstream, Bool.not_true,
              Bool.true_or, if_true, Bool.false_eq_true, if_false]
            exact .sendNextChunk (hawaited hlive) (hlinked hlive)
      · rw [if_neg hstream] at hlive'
        exact absurd hlive' (WriteReq.not_live_release _ _)
  | unregisterWaiter hpc => exact absurd rfl hlive'.2.2.1
  | cancelBgw hpc => exact absurd rfl hlive'.2.2.2.1
  | onAsyncClose hpc => exact absurd rfl hlive'.2.2.2.2

/-- A worker lets go of a linked entry that is loading only by ending, and
then the entry is finished or freed. -/
theorem hasEntry_of_stepWorker
    (hs : Serving s) {t : ℕ} {b : WorkerStep}
    (hkeep : KeepsWaiters s (.worker t b)) (h : s.stepWorker t b = some s')
    {task : Task} (htask : s.tasks t = some task) (hhas : task.pc.HasEntry)
    {key : CString} {e e' : Entry}
    (hfind : s.cache.findEntry key = some (task.entry, e))
    (he' : s'.cache.entries task.entry = some e')
    (hload : e.isLoading = true) :
    ∃ task', s'.tasks t = some task' ∧ task'.pc.HasEntry ∧
      task'.entry = task.entry := by
  obtain ⟨hmem, he, hkey⟩ := Cache.findEntry_eq_some hfind
  obtain ⟨u, task', hu, htask', -, -, -, hcase⟩ := stepWorker_task h
  obtain rfl := Option.some.inj (htask.symm.trans hu)
  have hentry : task'.entry = task.entry := by
    rcases hcase with ⟨hentry, -⟩ | ⟨hpc, -⟩
    · exact hentry
    · rw [hpc] at hhas
      exact hhas.elim
  refine ⟨task', htask', ?_, hentry⟩
  obtain ⟨v, v', hv, hv', hmove, -⟩ := stepWorker_move h
  obtain rfl := Option.some.inj (htask.symm.trans hv)
  obtain rfl := Option.some.inj (htask'.symm.trans hv')
  have hat := stepWorker_at h htask
  by_contra hnot
  have hend : task.pc = .finishTest ∨ task.pc = .finishNotify ∨
      task.pc = .failing := by
    generalize task.pc = pc, task'.pc = pc' at hmove hhas hnot
    cases hmove <;>
      first
        | exact absurd trivial hnot
        | exact hhas.elim
        | simp
  rcases hend with hpc | hpc | hpc
  · rw [hpc] at hat
    cases b <;> simp only [WorkerStep.At, reduceCtorEq, or_self] at hat
    obtain ⟨u, f, hu, -, hf, rfl⟩ := finishTest_spec h
    obtain rfl := Option.some.inj (htask.symm.trans hu)
    obtain rfl := Option.some.inj (he.symm.trans hf)
    obtain rfl := eq_of_setTask htask'
    simp [hload, TaskPc.HasEntry] at hnot
  · rw [hs.finished t task e htask hpc he] at hload
    cases hload
  · obtain rfl := stepWorker_of_failing h htask hpc
    have htkey := (hs.base.handed t task htask hhas).2 e he
    have hpath := hkeep.ownPath t rfl task e htask
      (htkey ▸ hkey ▸ hfind) hload
    obtain ⟨u, hu, -, -, ⟨y, f, hy, hf, hfkey, -, rfl⟩ | ⟨hnone, -⟩⟩ :=
      cancelLoading_spec h
    · -- the entry that is freed is the worker's own
      obtain rfl := Option.some.inj (htask.symm.trans hu)
      have hfound := hs.base.wf.findEntry_of_linked ⟨_, hy⟩ hf
      rw [hfkey, hpath, ← htkey, hkey, hfind] at hfound
      obtain ⟨hsame, -⟩ := Prod.mk.inj (Option.some.inj hfound)
      have hgone : (s.cache.removeEntry (s.cache.bucketOf task.path) y).entries
          task.entry = none := by
        simp [Cache.removeEntry, hsame]
      cases hgone.symm.trans he'
    · obtain rfl := Option.some.inj (htask.symm.trans hu)
      have hdone := hs.base.wf.findLoading_eq_none hnone ⟨_, hmem⟩ he
        (htkey.trans hpath.symm)
      rw [hdone] at hload
      cases hload

theorem filled_of_step
    (hs : Serving s) {a : Action} (hkeep : KeepsWaiters s a)
    (h : s.step a = some s') {key : CString} {x : ℕ} {e' : Entry}
    (hfind' : s'.cache.findEntry key = some (x, e'))
    (hload' : e'.isLoading = true) :
    ∃ t task, s'.tasks t = some task ∧ task.pc.HasEntry ∧ task.entry = x := by
  obtain ⟨-, he', -⟩ := Cache.findEntry_eq_some hfind'
  rcases hs.base.step_findEntry h hfind' with
    ⟨e, hfind⟩ | ⟨rfl, t, now, ok, task, rfl, htask, hkey, hnone⟩
  · obtain ⟨-, he, -⟩ := Cache.findEntry_eq_some hfind
    have hload : e.isLoading = true := by
      rcases hs.base.step_entries h he' with
        ⟨f, hf, -, -, hback⟩ | ⟨rfl, -⟩
      · obtain rfl := Option.some.inj (he.symm.trans hf)
        exact hback hload'
      · rw [hs.base.wf.entries_nextEntry] at he
        cases he
    obtain ⟨t, task, htask, hhas, rfl⟩ := hs.filled key x e hfind hload
    by_cases hown : ∃ b, a = .worker t b
    · obtain ⟨b, rfl⟩ := hown
      obtain ⟨task', htask', hrest⟩ :=
        hs.hasEntry_of_stepWorker hkeep h htask hhas hfind he' hload
      exact ⟨t, task', htask', hrest⟩
    · obtain ⟨stop, htask'⟩ :=
        hs.base.step_task_of_ne h htask fun b hb => hown ⟨b, hb⟩
      exact ⟨t, _, htask', hhas, rfl⟩
  · obtain ⟨u, hu, -, -, ⟨y, f, hsome, -⟩ | ⟨-, -, rfl⟩ | ⟨-, -, rfl⟩⟩ :=
      startLoading_spec h
    · obtain rfl := Option.some.inj (htask.symm.trans hu)
      rw [hnone] at hsome
      cases hsome
    · exact ⟨t, _, setTask_self .., trivial, rfl⟩
    · have hbad : s.cache.findEntry key = some (s.cache.nextEntry, e') := hfind'
      rw [← hkey, hnone] at hbad
      cases hbad

theorem finished_of_step
    (hs : Serving s) {a : Action} (h : s.step a = some s') {t : ℕ}
    {task' : Task} {e' : Entry} (htask' : s'.tasks t = some task')
    (hpc' : task'.pc = .finishNotify)
    (he' : s'.cache.entries task'.entry = some e') : e'.isLoading = false := by
  -- a worker that was there already
  have hstayed : ∀ task, s.tasks t = some task → task.pc = .finishNotify →
      task'.entry = task.entry → e'.isLoading = false := by
    intro task htask hpc hentry
    have hlt := (hs.base.handed t task htask
      (by rw [hpc]; exact trivial)).1
    rcases hs.base.step_entries h he' with ⟨e, he, -, -, hback⟩ | ⟨hnew, -⟩
    · have hdone := hs.finished t task e htask hpc (hentry ▸ he)
      by_contra hne
      rw [hback (by simpa using hne)] at hdone
      cases hdone
    · omega
  have hquiet : Consistent.Quiet s s' → e'.isLoading = false := by
    intro hq
    rcases hq.tasks t task' htask' with ⟨task, htask, heq⟩ | ⟨x, key, rfl⟩
    · exact hstayed task htask (by rw [← hpc', heq]) (by rw [heq])
    · cases hpc'
  cases a with
  | request r b => exact hquiet (hs.base.quiet_of_stepRequest h)
  | collector b => exact hquiet (hs.base.quiet_of_stepCollector h)
  | worker t' b =>
      by_cases ht : t = t'
      · subst ht
        obtain ⟨task, u, htask, hu, hmove, -⟩ := stepWorker_move h
        obtain rfl := Option.some.inj (htask'.symm.trans hu)
        have hat := stepWorker_at h htask
        rw [hpc'] at hmove
        generalize task.pc = pc at hmove hat
        cases hmove
        cases b <;> simp only [WorkerStep.At, reduceCtorEq, or_self] at hat
        obtain ⟨v, e, f, hv, -, he, -, hdone, -, -, -, rfl⟩ :=
          finishLoading_spec h
        obtain rfl := eq_of_setTask htask'
        obtain rfl : f = e' := by
          simpa [setTask, Cache.putEntry] using he'
        exact hdone
      · have htask := ((stepWorker_frame h).tasks t ht).symm.trans htask'
        exact hstayed task' htask hpc' rfl

/-! ## Every run -/

theorem of_step
    (hs : Serving s) {a : Action} (hkeep : KeepsWaiters s a)
    (h : s.step a = some s') : Serving s' where
  base := hs.base.of_step h
  filled := fun _ _ _ hfind hload => hs.filled_of_step hkeep h hfind hload
  finished := fun _ _ _ htask hpc he => hs.finished_of_step h htask hpc he
  tended := by
    intro r w' hw'
    cases a with
    | request r' b =>
        by_cases hr : r = r'
        · subst hr
          rcases hs.base.stepRequest_own h hw' with
            ⟨-, x, -, -, heq⟩ | ⟨w, hw, -⟩
          · refine .of_live fun hlive => ?_
            rw [heq] at hlive
            cases hlive.1
          · exact hs.tended_of_stepRequest hkeep h hw hw'
        · have hw := (stepRequest_frame h).reqs r hr ▸ hw'
          exact hs.tended_of_other hkeep h hw (Or.inl rfl)
            fun _ _ _ hact => by cases hact
    | collector b =>
        have hw := (stepCollector_frame h).reqs ▸ hw'
        exact hs.tended_of_other hkeep h hw (Or.inl rfl)
          fun _ _ _ hact => by cases hact
    | worker t b =>
        have hcase : ∃ w, s.reqs r = some w ∧ (w' = w ∨ w' = w.notify) := by
          rcases (stepWorker_frame h).reqs r with heq | heq
          · exact ⟨w', heq ▸ hw', Or.inl rfl⟩
          · obtain ⟨w, hw, rfl⟩ := Option.map_eq_some_iff.mp (heq ▸ hw')
            exact ⟨w, hw, Or.inr rfl⟩
        obtain ⟨w, hw, hcase⟩ := hcase
        refine hs.tended_of_other hkeep h hw hcase ?_
        rintro t' task e hact htask he hmem
        cases hact
        obtain ⟨u, f, hu, -, hf, rfl⟩ := notifyWaitingClients_spec h
        obtain rfl := Option.some.inj (htask.symm.trans hu)
        obtain rfl := Option.some.inj (he.symm.trans hf)
        have hnotified : s.notified e r = some w' := hw'
        rw [notified, if_pos hmem, hw] at hnotified
        exact (Option.some.inj hnotified).symm

theorem of_reachable (hs : proxy.ReachableUnder KeepsWaiters s) : Serving s := by
  refine hs.invariant ?_ fun s a s' hs ha hstep => hs.of_step ha hstep
  rintro s ⟨numBuckets, defaultTtl, rfl⟩
  exact init numBuckets defaultTtl

/-- A request that waits has a worker. -/
theorem attended
    (hs : Serving s) {r : ℕ} {w : WriteReq} (hw : s.reqs r = some w)
    (hwait : w.Waiting) : Attended s r w := by
  have htended := hs.tended r w hw
  obtain ⟨hreg, hup⟩ := htended.waiting hwait
  refine ⟨htended.linked hwait.1 hreg, ?_, hup⟩
  have hheld : ∀ {t task x e}, s.tasks t = some task → task.pc.HasEntry →
      task.entry = x → s.cache.findEntry w.key = some (x, e) →
      ∃ t task, s.tasks t = some task ∧ task.key = w.key ∧
        task.pc ≠ .ended := by
    rintro t task x e htask hhas rfl hfind
    obtain ⟨-, he, hkey⟩ := Cache.findEntry_eq_some hfind
    refine ⟨t, task, htask, ?_, ?_⟩
    · exact ((hs.base.handed t task htask hhas).2 e he).symm.trans hkey
    · intro hpc
      rw [hpc] at hhas
      exact hhas
  cases hfind : s.cache.findEntry w.key with
  | none =>
      obtain ⟨t, task, htask, hpc, hkey⟩ := htended.awaited hwait.1 hfind
      exact ⟨t, task, htask, hkey, by simp [hpc]⟩
  | some p =>
      obtain ⟨x, e⟩ := p
      rcases hup x e hfind with ⟨t, task, htask, hentry, hpc⟩ | ⟨hload, -⟩
      · refine hheld htask ?_ hentry hfind
        rcases hpc with hpc | hpc <;> rw [hpc] <;> exact trivial
      · obtain ⟨t, task, htask, hhas, hentry⟩ :=
          hs.filled w.key x e hfind hload
        exact hheld htask hhas hentry hfind

end Serving

/-- As long as none of the branches is taken on which a waiting client is
lost, no client is stuck. -/
theorem noneStuck_of_keepsWaiters
    {s : State} (hs : proxy.ReachableUnder KeepsWaiters s) : NoneStuck s :=
  fun _ _ hw hwait => (Serving.of_reachable hs).attended hw hwait

/-- A test for `KeepsWaiters` on runs without failed loads and without the
collector. -/
def keepsWaiters (s : State) : Action → Bool
  | .request r (.registerWaiter ok) =>
      ok && (s.reqs r).all fun w => w.willRecheck ||
        (s.cache.findEntry w.key).all fun p =>
          p.2.isLoading && decide (p.2.data.length ≤ w.lastOffset)
  | .request _ (.lookupEnd _ ok) => ok
  | .worker t (.startLoading _ ok) =>
      ok && (s.tasks t).all fun task =>
        decide ((s.cache.pending (s.cache.bucketOf task.key)).length ≤ 1)
  | .worker _ .cancelLoading => false
  | .collector .entry => false
  | _ => true

theorem keepsWaiters_sound
    (s : State) (a : Action) (h : keepsWaiters s a = true) :
    KeepsWaiters s a where
  stored := by
    rintro r ok rfl
    exact (Bool.and_eq_true_iff.mp h).1
  inTime := by
    rintro r ok rfl w hw hrecheck x e hfind
    have htest := (Bool.and_eq_true_iff.mp h).2
    simp only [hw, hrecheck, hfind, Option.all_some, Bool.false_or,
      Bool.and_eq_true, decide_eq_true_eq] at htest
    exact Or.inr htest
  written := by
    rintro r now ok rfl w - -
    exact h
  created := by
    rintro t now rfl
    cases h
  handedOver := by
    rintro t now ok rfl task htask - row rows hrows - row' hmem
    have htest := (Bool.and_eq_true_iff.mp h).2
    simp only [htask, Option.all_some, hrows, List.length_cons,
      decide_eq_true_eq] at htest
    obtain rfl : rows = [] := List.eq_nil_of_length_eq_zero (by omega)
    cases hmem
  cancelled := by
    rintro t rfl
    cases h
  ownPath := by
    rintro t rfl
    cases h
  collected := by
    rintro rfl
    cases h

/-- Two clients are told of each chunk: client 0 waits from before the entry
was created, client 1 since it found the entry empty. -/
def toldTwice : List Action :=
  arriveFirst 0 rootRequest ++
    [.request 0 .lookupBegin, .request 0 (.registerWaiter true)] ++
    beginLoad 0 ++ [.request 1 (.readClient rootRequest)] ++ sendChunk 1 ++
    sendChunk 1 ++ [.request 1 (.registerWaiter true)] ++ sendChunk 1 ++
    deliver 0 [1] ++ [.request 0 .onDataReady] ++ sendChunk 0 ++
    [.request 1 .onDataReady] ++ sendChunk 1 ++
    [.request 0 (.onWritten true)] ++ sendChunk 0 ++
    [.request 1 (.onWritten true)] ++ sendChunk 1

theorem noneStuck_of_keepsWaiters_toldTwice :
    ∃ s, proxy.runWhile keepsWaiters (.init 1 100) toldTwice = some s ∧
      (s.reqs 0).map (fun w => (decide w.Waiting, w.sent)) =
        some (true, [1]) ∧
      (s.reqs 1).map (fun w => (decide w.Waiting, w.sent)) =
        some (true, [1]) ∧
      NoneStuck s := by
  have hrun : (proxy.runWhile keepsWaiters (.init 1 100) toldTwice).map
      (fun s => ((s.reqs 0).map (fun w => (decide w.Waiting, w.sent)),
        (s.reqs 1).map (fun w => (decide w.Waiting, w.sent)))) =
      some (some (true, [1]), some (true, [1])) := rfl
  obtain ⟨s, hs, hobs⟩ := Option.map_eq_some_iff.mp hrun
  obtain ⟨hobs₀, hobs₁⟩ := Prod.mk.inj hobs
  exact ⟨s, hs, hobs₀, hobs₁, noneStuck_of_keepsWaiters
    (.runWhile keepsWaiters_sound (.initial (proxy_initial 1 100)) hs)⟩

/-- The client finds no entry, and before it registers its worker has loaded
the whole page. -/
def registeredLate : List Action :=
  arriveFirst 0 rootRequest ++ [.request 0 .lookupBegin] ++ beginLoad 0 ++
    deliver 0 [1] ++ endLoad 0 ++ [.request 0 (.registerWaiter true)]

/-- The client waits for a notification although its worker, the only one,
has ended, and it is sent nothing of the page. -/
theorem registeredLate_stuck :
    ∃ s, proxy.run (.init 1 100) registeredLate = some s ∧
      proxy.Reachable s ∧
      (s.reqs 0).map (fun w => (decide w.Waiting, w.sent)) =
        some (true, []) ∧
      (s.tasks 0).map Task.pc = some .ended ∧
      (s.cache.entries 0).map (fun e => (e.isLoading, e.data)) =
        some (false, [1]) ∧
      ¬ NoneStuck s := by
  have hrun : (proxy.run (.init 1 100) registeredLate).map (fun s =>
      ((s.reqs 0).map (fun w => (decide w.Waiting, w.sent)),
        (s.tasks 0).map Task.pc,
        (s.cache.entries 0).map (fun e => (e.isLoading, e.data)))) =
      some (some (true, []), some .ended, some (false, [1])) := rfl
  obtain ⟨s, hs, hobs⟩ := Option.map_eq_some_iff.mp hrun
  obtain ⟨hreq, hobs⟩ := Prod.mk.inj hobs
  obtain ⟨htask, hentry⟩ := Prod.mk.inj hobs
  refine ⟨s, hs, .run (.initial (proxy_initial 1 100)) hs, hreq, htask, hentry,
    fun hnone => ?_⟩
  obtain ⟨w, hw, hwobs⟩ := Option.map_eq_some_iff.mp hreq
  have hwait : w.Waiting := of_decide_eq_true (Prod.mk.inj hwobs).1
  obtain ⟨t, task, ht, -, hpc⟩ := (hnone 0 w hw hwait).worker
  -- there is one client, and its worker has ended
  have hbelow : s.Below 1 := (State.Below.init 1 100 1).of_run rfl hs
  obtain rfl : t = 0 := by
    have := hbelow.lt_of_task ht
    omega
  rw [ht] at htask
  exact hpc (Option.some.inj htask)

end Streaming
end Proxy
end OsFifthSem
