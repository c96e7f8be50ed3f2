import OsFifthSem.Proxy.Streaming.Request

/-!
# Consistency of the whole system

What holds in every reachable state, whatever the schedule: the cache keeps
its structure, a request inside a lookup holds the lock of its bucket and its
entry is still the one a search would find, the collector's position in its
chain is correct, and an entry consists of the chunks appended to it.
-/

namespace OsFifthSem
namespace Proxy
namespace Streaming

open Support

/-- The base invariant. -/
structure Consistent (s : State) : Prop where
  wf : s.cache.WF
  fields : ∀ r w, s.reqs r = some w → w.Ok
  keyed : ∀ r w, s.reqs r = some w → w.req.cacheKey = some w.key
  locked : ∀ r w, s.reqs r = some w → w.pc = .inLookup →
    s.locks (s.cache.bucketOf w.key) = some (.request r)
  found : ∀ r w, s.reqs r = some w → w.pc = .inLookup →
    ∃ e, s.cache.findEntry w.key = some (w.entry, e) ∧
      (w.loading = false → e.isLoading = false)
  collecting : ∀ g, s.gc = some g →
    s.locks g.bucket = some .collector ∧
      s.cache.chain g.bucket = g.front ++ (g.skipped ++ g.rest)
  owned : ∀ t task, s.tasks t = some task →
    ∃ w, s.reqs t = some w ∧ w.streaming = true ∧ w.launched = true ∧
      w.req = task.req ∧ w.key = task.key
  handed : ∀ t task, s.tasks t = some task → task.pc.HasEntry →
    task.entry < s.cache.nextEntry ∧
      ∀ e, s.cache.entries task.entry = some e → e.key = task.key
  contents : ∀ a e, s.cache.entries a = some e →
    e.data = ((s.appends a).map Prod.snd).flatten
  unappended : ∀ a, s.cache.nextEntry ≤ a → s.appends a = []

namespace Consistent

variable {s s' : State}

open State

theorem init (numBuckets : ℕ) (defaultTtl : ℤ) :
    Consistent (.init numBuckets defaultTtl) where
  wf := Cache.wf_init numBuckets defaultTtl
  fields := by simp [State.init]
  keyed := by simp [State.init]
  locked := by simp [State.init]
  found := by simp [State.init]
  collecting := by simp [State.init]
  owned := by simp [State.init]
  handed := by simp [State.init]
  contents := by simp [State.init, Cache.init]
  unappended := by simp [State.init]

/-! ## Steps of a request -/

theorem wf_lookedUp
    (hs : Consistent s) {w : WriteReq} {e : Entry}
    (he : s.cache.entries w.entry = some e) (now : ℤ) :
    (s.lookedUp w e now).WF := by
  unfold lookedUp
  dsimp only
  split
  · exact (hs.wf.putEntry he (by simp)).setCounters _ _ _ _
  · exact hs.wf

theorem wf_stepRequest
    (hs : Consistent s) {r : ℕ} {a : ReqStep}
    (h : s.stepRequest r a = some s') : s'.cache.WF := by
  cases a with
  | readClient x =>
      obtain ⟨-, key, -, rfl⟩ := readClient_spec h
      exact hs.wf
  | lookupBegin =>
      obtain ⟨w, -, -, -, ⟨a, e, -, rfl⟩ | ⟨-, rfl⟩⟩ := lookupBegin_spec h
      · exact hs.wf
      · exact hs.wf.setCounters _ _ _ _
  | lookupEnd now accepted =>
      obtain ⟨w, e, -, -, he, rfl⟩ := lookupEnd_spec h
      exact hs.wf_lookedUp he now
  | launchBgw ok =>
      obtain ⟨w, -, -, ⟨-, rfl⟩ | ⟨-, rfl⟩⟩ := launchBgw_spec h
      · exact hs.wf
      · exact hs.wf
  | registerWaiter ok =>
      obtain ⟨w, -, -, -, rfl⟩ := registerWaiter_spec h
      exact hs.wf.registerWaiter _ _ _
  | onDataReady =>
      obtain ⟨w, -, -, -, -, rfl⟩ := onDataReady_spec h
      exact hs.wf
  | onWritten ok =>
      obtain ⟨w, -, -, -, rfl⟩ := onWritten_spec h
      exact hs.wf
  | unregisterWaiter =>
      obtain ⟨w, -, -, -, rfl⟩ := unregisterWaiter_spec h
      exact hs.wf.unregisterWaiter _ _
  | cancelBgw =>
      obtain ⟨w, -, -, rfl⟩ := cancelBgw_spec h
      exact hs.wf
  | onAsyncClose =>
      obtain ⟨w, -, -, rfl⟩ := onAsyncClose_spec h
      exact hs.wf

/-- A request entered its lookup in this step. -/
def Entered (s s' : State) (r : ℕ) (w w' : WriteReq) : Prop :=
  w.pc = .lookup ∧ s.Unlocked w.key ∧ s'.cache = s.cache ∧
    s'.locks = Function.update s.locks (s.cache.bucketOf w.key)
      (some (.request r)) ∧
    ∃ e, s.cache.findEntry w.key = some (w'.entry, e) ∧
      w'.loading = e.isLoading

/-- A step of request `r` on its own fields. -/
theorem stepRequest_own
    (hs : Consistent s) {r : ℕ} {a : ReqStep}
    (h : s.stepRequest r a = some s') {w' : WriteReq}
    (hw' : s'.reqs r = some w') :
    (s.reqs r = none ∧ ∃ x, a = .readClient x ∧
      x.cacheKey = some w'.key ∧ w' = .arrived x w'.key) ∨
    ∃ w, s.reqs r = some w ∧ w.SameClient w' ∧ w'.Ok ∧
      (w'.pc = .inLookup → Entered s s' r w w') := by
  cases hw : s.reqs r with
  | none =>
      obtain ⟨x, rfl⟩ := stepRequest_fresh h hw
      obtain ⟨-, key, hkey, rfl⟩ := readClient_spec h
      obtain rfl : WriteReq.arrived x key = w' := by
        simpa [setReq] using hw'
      exact Or.inl ⟨rfl, x, rfl, hkey, rfl⟩
  | some w =>
      have hok := hs.fields r w hw
      refine Or.inr ⟨w, rfl, ?_⟩
      cases WriteReq.ownStep_of_stepRequest h hw hw' with
      | lookupHit a e hpc hfree hfind hs' =>
          subst hs'
          exact ⟨⟨rfl, rfl, id, fun _ => rfl⟩, hok.enterLookup hpc _ _,
            fun _ => ⟨hpc, hfree, rfl, rfl, e, hfind, rfl⟩⟩
      | lookupMiss _ hpc _ _ hout =>
          exact ⟨.afterMiss hout, hok.afterMiss hpc hout,
            fun hin => absurd hin hout.pc_ne⟩
      | lookupEnd now accepted e _ hpc he hout =>
          exact ⟨.afterLookup hok hout, hok.afterLookup hpc hout,
            fun hin => absurd hin hout.pc_ne⟩
      | launched hpc _ =>
          have hstream := hok.not_streaming_of_launch hpc
          exact ⟨.beginStreaming hstream true,
            hok.beginStreaming hstream (Or.inr hpc) true,
            fun hin => absurd hin (w.beginStreaming_pc true)⟩
      | notLaunched hpc =>
          exact ⟨⟨rfl, rfl, id, fun _ => rfl⟩,
            hok.drop (by simp [hpc]) (Or.inl rfl), by simp⟩
      | registerWaiter ok hpc _ =>
          exact ⟨.afterRegister w, hok.afterRegister hpc,
            fun hin => absurd hin w.afterRegister_pc⟩
      | onDataReady hpc hstream =>
          exact ⟨.onDataReady w, hok.onDataReady hstream,
            fun hin => absurd hin (WriteReq.onDataReady_pc hpc)⟩
      | onWritten ok _ hflight =>
          exact ⟨.onWritten w ok, hok.onWritten hflight ok,
            fun hin => absurd hin (w.onWritten_pc ok)⟩
      | unregisterWaiter hpc =>
          exact ⟨⟨rfl, rfl, id, fun _ => rfl⟩, hok.afterUnregister hpc,
            by simp⟩
      | cancelBgw hpc =>
          exact ⟨⟨rfl, rfl, id, fun _ => rfl⟩,
            hok.drop (by simp [hpc]) (Or.inl rfl), by simp⟩
      | onAsyncClose hpc =>
          exact ⟨⟨rfl, rfl, id, fun _ => rfl⟩,
            hok.drop (by simp [hpc]) (Or.inr rfl), by simp⟩

/-- A step of request `r` takes no lock that is held and releases no lock but
its own. -/
theorem stepRequest_locks
    (hs : Consistent s) {r : ℕ} {a : ReqStep}
    (h : s.stepRequest r a = some s') {b : ℕ} {holder : LockHolder}
    (hb : s.locks b = some holder) (hne : holder ≠ .request r) :
    s'.locks b = some holder := by
  cases a with
  | readClient x =>
      obtain ⟨-, key, -, rfl⟩ := readClient_spec h
      exact hb
  | lookupBegin =>
      obtain ⟨w, -, -, hfree, ⟨a, e, -, rfl⟩ | ⟨-, rfl⟩⟩ := lookupBegin_spec h
      · have hbucket : b ≠ s.cache.bucketOf w.key := by
          rintro rfl
          rw [State.Unlocked, hb] at hfree
          cases hfree
        simpa [setReq, setLock, hbucket] using hb
      · exact hb
  | lookupEnd now accepted =>
      obtain ⟨w, e, hw, hpc, -, rfl⟩ := lookupEnd_spec h
      have hbucket : b ≠ s.cache.bucketOf w.key := by
        rintro rfl
        rw [hs.locked r w hw hpc] at hb
        exact hne (Option.some.inj hb).symm
      simpa [setReq, setLock, hbucket] using hb
  | launchBgw ok =>
      obtain ⟨w, -, -, ⟨-, rfl⟩ | ⟨-, rfl⟩⟩ := launchBgw_spec h
      · exact hb
      · exact hb
  | registerWaiter ok =>
      obtain ⟨w, -, -, -, rfl⟩ := registerWaiter_spec h
      exact hb
  | onDataReady =>
      obtain ⟨w, -, -, -, -, rfl⟩ := onDataReady_spec h
      exact hb
  | onWritten ok =>
      obtain ⟨w, -, -, -, rfl⟩ := onWritten_spec h
      exact hb
  | unregisterWaiter =>
      obtain ⟨w, -, -, -, rfl⟩ := unregisterWaiter_spec h
      exact hb
  | cancelBgw =>
      obtain ⟨w, -, -, rfl⟩ := cancelBgw_spec h
      exact hb
  | onAsyncClose =>
      obtain ⟨w, -, -, rfl⟩ := onAsyncClose_spec h
      exact hb

theorem of_stepRequest
    (hs : Consistent s) {r : ℕ} {a : ReqStep}
    (h : s.stepRequest r a = some s') : Consistent s' := by
  have hframe := stepRequest_frame h
  have hwf := hs.wf_stepRequest h
  have hbucket := hframe.contents.bucketOf_eq
  have hlocks : ∀ {b holder}, s.locks b = some holder →
      holder ≠ .request r → s'.locks b = some holder :=
    fun hb hne => hs.stepRequest_locks h hb hne
  refine ⟨hwf, ?_, ?_, ?_, ?_, ?_, ?_, ?_, ?_, ?_⟩
  · intro r' w' hw'
    by_cases hr : r' = r
    · subst hr
      rcases hs.stepRequest_own h hw' with ⟨-, x, -, -, hx⟩ | ⟨w, -, -, hok, -⟩
      · rw [hx]
        exact .arrived x _
      · exact hok
    · exact hs.fields r' w' (hframe.reqs r' hr ▸ hw')
  · intro r' w' hw'
    by_cases hr : r' = r
    · subst hr
      rcases hs.stepRequest_own h hw' with
        ⟨-, x, -, hx, hw⟩ | ⟨w, hw, hsame, -, -⟩
      · have hreq : w'.req = x := by
          rw [hw]
          rfl
        rw [hreq, hx]
      · rw [hsame.req, hsame.key]
        exact hs.keyed r' w hw
    · exact hs.keyed r' w' (hframe.reqs r' hr ▸ hw')
  · intro r' w' hw' hpc
    rw [hbucket]
    by_cases hr : r' = r
    · subst hr
      rcases hs.stepRequest_own h hw' with
        ⟨-, x, -, -, hw⟩ | ⟨w, -, hsame, -, henter⟩
      · rw [hw] at hpc
        cases hpc
      · obtain ⟨-, -, -, hset, -⟩ := henter hpc
        rw [hset, hsame.key, Function.update_self]
    · have hw := hframe.reqs r' hr ▸ hw'
      refine hlocks (hs.locked r' w' hw hpc) fun heq => hr ?_
      cases heq
      rfl
  · intro r' w' hw' hpc
    by_cases hr : r' = r
    · subst hr
      rcases hs.stepRequest_own h hw' with
        ⟨-, x, -, -, hw⟩ | ⟨w, -, hsame, -, henter⟩
      · rw [hw] at hpc
        cases hpc
      · obtain ⟨-, -, hcache, -, e, hfind, hload⟩ := henter hpc
        refine ⟨e, by rw [hcache, hsame.key, hfind], fun hfalse => ?_⟩
        rw [← hload, hfalse]
    · have hw := hframe.reqs r' hr ▸ hw'
      obtain ⟨e, hfind, hload⟩ := hs.found r' w' hw hpc
      obtain ⟨e', hfind', hload', -⟩ :=
        hframe.contents.findEntry hs.wf hwf hfind
      exact ⟨e', hfind', fun hfalse => hload'.trans (hload hfalse)⟩
  · intro g hg
    rw [hframe.gc] at hg
    obtain ⟨hlock, hchain⟩ := hs.collecting g hg
    refine ⟨hlocks hlock (by simp), ?_⟩
    rw [hframe.contents.chain, hchain]
  · -- a task belongs to a request that launched it
    intro t task' htask'
    have howned : ∀ task, s.tasks t = some task →
        ∃ w', s'.reqs t = some w' ∧ w'.streaming = true ∧
          w'.launched = true ∧ w'.req = task.req ∧ w'.key = task.key := by
      intro task htask
      obtain ⟨w, hw, hstream, hlaunched, hreq, hkey⟩ := hs.owned t task htask
      by_cases ht : t = r
      · subst ht
        obtain ⟨w', hw'⟩ := hframe.present
        rcases hs.stepRequest_own h hw' with
          ⟨hnone, -⟩ | ⟨w₀, hw₀, hsame, -, -⟩
        · rw [hw] at hnone
          cases hnone
        · obtain rfl := Option.some.inj (hw.symm.trans hw₀)
          exact ⟨w', hw', hsame.streaming hstream,
            (hsame.launched hstream).trans hlaunched,
            hsame.req.trans hreq, hsame.key.trans hkey⟩
      · exact ⟨w, (hframe.reqs t ht).trans hw, hstream, hlaunched, hreq, hkey⟩
    rcases stepRequest_tasks h t with heq | ⟨rfl, -, task, htask, heq⟩ |
      ⟨rfl, w, -, -, heq, hw'⟩
    · exact howned task' (heq ▸ htask')
    · obtain rfl := Option.some.inj (heq.symm.trans htask')
      exact howned task htask
    · obtain rfl := Option.some.inj (heq.symm.trans htask')
      have hbegin : ∀ v : WriteReq, (v.beginStreaming true).streaming = true ∧
          (v.beginStreaming true).launched = true ∧
          (v.beginStreaming true).req = v.req ∧
          (v.beginStreaming true).key = v.key := by
        intro v
        unfold WriteReq.beginStreaming WriteReq.sendNextChunk
        split <;> exact ⟨rfl, rfl, rfl, rfl⟩
      exact ⟨_, hw', hbegin w⟩
  · -- handing out entries is left to the workers
    intro t task' htask' hpc
    have hhanded : ∀ task, s.tasks t = some task → task.pc.HasEntry →
        task.entry < s'.cache.nextEntry ∧
          ∀ e, s'.cache.entries task.entry = some e → e.key = task.key := by
      intro task htask hpc
      obtain ⟨hlt, hkey⟩ := hs.handed t task htask hpc
      refine ⟨hframe.contents.nextEntry ▸ hlt, fun e' he' => ?_⟩
      obtain ⟨e, he, hsame, -⟩ := hframe.contents.back _ e' he'
      exact hsame.trans (hkey e he)
    rcases stepRequest_tasks h t with heq | ⟨rfl, -, task, htask, heq⟩ |
      ⟨rfl, w, -, -, heq, -⟩
    · exact hhanded task' (heq ▸ htask') hpc
    · obtain rfl := Option.some.inj (heq.symm.trans htask')
      exact hhanded task htask hpc
    · obtain rfl := Option.some.inj (heq.symm.trans htask')
      exact hpc.elim
  · intro a e' he'
    obtain ⟨e, he, -, -, hdata⟩ := hframe.contents.back a e' he'
    rw [hdata, hframe.appends]
    exact hs.contents a e he
  · intro a ha
    rw [hframe.appends]
    exact hs.unappended a (hframe.contents.nextEntry ▸ ha)

/-! ## Steps of a worker -/

theorem wf_stepWorker
    (hs : Consistent s) {t : ℕ} {a : WorkerStep}
    (h : s.stepWorker t a = some s') : s'.cache.WF := by
  cases a with
  | startLoading now ok =>
      obtain ⟨task, -, -, -, ⟨a, e, -, rfl⟩ | ⟨hnone, -, rfl⟩ | ⟨-, -, rfl⟩⟩ :=
        startLoading_spec h
      · exact hs.wf
      · exact hs.wf.created now hnone
      · exact hs.wf
  | curlInit ok =>
      obtain ⟨task, -, -, rfl⟩ := curlInit_spec h
      exact hs.wf
  | writeCallback chunk =>
      obtain ⟨task, task', -, -, rfl, -⟩ := writeCallback_spec h
      exact hs.wf
  | testLoading =>
      obtain ⟨task, e, -, -, -, ⟨-, rfl⟩ | ⟨-, rfl⟩⟩ := testLoading_spec h
      · exact hs.wf
      · exact hs.wf
  | appendData now ok =>
      obtain ⟨task, e, e', -, -, he, hkey, -, -, ⟨-, rfl⟩ | ⟨-, rfl⟩⟩ :=
        appendData_spec h
      · exact hs.wf.putEntry he hkey
      · exact hs.wf.putEntry he hkey
  | notifyWaitingClients =>
      obtain ⟨task, e, -, -, -, rfl⟩ := notifyWaitingClients_spec h
      exact hs.wf
  | curlDone ok =>
      obtain ⟨task, -, -, rfl⟩ := curlDone_spec h
      exact hs.wf
  | finishTest =>
      obtain ⟨task, e, -, -, -, rfl⟩ := finishTest_spec h
      exact hs.wf
  | finishLoading now ok =>
      obtain ⟨task, e, e', -, -, he, hkey, -, -, -, -, rfl⟩ :=
        finishLoading_spec h
      exact hs.wf.putEntry he hkey
  | cancelLoading =>
      obtain ⟨task, -, -, -, ⟨a, e, hmem, -, -, -, rfl⟩ | ⟨-, rfl⟩⟩ :=
        cancelLoading_spec h
      · exact hs.wf.removeEntry hmem
      · exact hs.wf

/-- A worker leaves the chain of a locked bucket alone, and what a search in
it finds; at most it finishes or extends the entry. -/
theorem stepWorker_locked
    (hs : Consistent s) {t : ℕ} {a : WorkerStep}
    (h : s.stepWorker t a = some s') {b : ℕ} (hb : s.locks b ≠ none) :
    s'.cache.chain b = s.cache.chain b ∧
      ∀ key x e, s.cache.bucketOf key = b →
        s.cache.findEntry key = some (x, e) →
        ∃ e', s'.cache.findEntry key = some (x, e') ∧
          (e.isLoading = false → e'.isLoading = false) := by
  have hwf := hs.wf_stepWorker h
  cases stepWorker_effect h with
  | kept hcontents =>
      refine ⟨by rw [hcontents.chain], fun key x e _ hfind => ?_⟩
      obtain ⟨e', hfind', hload, -⟩ := hcontents.findEntry hs.wf hwf hfind
      exact ⟨e', hfind', fun hfalse => hload.trans hfalse⟩
  | created task now htask hpc hfree hnone hcache =>
      have hne : b ≠ s.cache.bucketOf task.key := by
        rintro rfl
        exact hb hfree
      rw [hcache] at hwf ⊢
      have hchain : (s.cache.created task.key now).chain b =
          s.cache.chain b := Function.update_of_ne hne _ _
      refine ⟨hchain, fun key x e hkey hfind => ?_⟩
      obtain ⟨hmem, he, hekey⟩ := Cache.findEntry_eq_some hfind
      refine ⟨e, ?_, id⟩
      refine hwf.findEntry_eq_some_iff.mpr ⟨⟨b, ?_⟩, ?_, hekey⟩
      · rw [hchain, ← hkey]
        exact hmem
      · exact hs.wf.created_entries he
  | appended task e e' htask hpc he hkey hload hdata hcache =>
      rw [hcache]
      refine ⟨rfl, fun key x f _ hfind => ⟨if x = task.entry then e' else f,
        by rw [Cache.findEntry_putEntry he hkey, hfind]; rfl,
        fun hfalse => ?_⟩⟩
      by_cases hx : x = task.entry
      · subst hx
        obtain ⟨-, hf, -⟩ := Cache.findEntry_eq_some hfind
        obtain rfl := Option.some.inj (he.symm.trans hf)
        simpa [hload] using hfalse
      · simpa [hx] using hfalse
  | finished task e e' htask hpc he hkey hload hdata hcache =>
      rw [hcache]
      refine ⟨rfl, fun key x f _ hfind => ⟨if x = task.entry then e' else f,
        by rw [Cache.findEntry_putEntry he hkey, hfind]; rfl,
        fun hfalse => ?_⟩⟩
      by_cases hx : x = task.entry
      · simpa [hx] using hload
      · simpa [hx] using hfalse
  | freed task a e htask hpc hfree hmem he hkey hload hcache =>
      have hne : b ≠ s.cache.bucketOf task.path := by
        rintro rfl
        exact hb hfree
      rw [hcache] at hwf ⊢
      have hfrees := hs.wf.removeEntry_frees (s.cache.bucketOf task.path) a
      refine ⟨hfrees.chain_ne b hne, fun key x f hkey' hfind => ⟨f, ?_, id⟩⟩
      exact hfrees.findEntry_of_ne hs.wf hwf hmem (hkey' ▸ hne) hfind

/-- An entry after a step of a worker was there before, with the same key, or
was created by the worker. -/
theorem effect_entries
    (hs : Consistent s) {t : ℕ} (heff : WorkerEffect s s' t) {x : ℕ}
    {f' : Entry} (hf' : s'.cache.entries x = some f') :
    (∃ f, s.cache.entries x = some f ∧ f'.key = f.key ∧
      f.data <+: f'.data ∧ (f'.isLoading = true → f.isLoading = true)) ∨
    (x = s.cache.nextEntry ∧ f'.data = [] ∧ f'.isLoading = true ∧
      ∃ task, s.tasks t = some task ∧ task.pc = .queued ∧
        s.cache.findEntry task.key = none ∧ f'.key = task.key) := by
  have hput : ∀ {a : ℕ} {e e' : Entry}, s.cache.entries a = some e →
      e'.key = e.key → e.data <+: e'.data →
      (e'.isLoading = true → e.isLoading = true) →
      (s.cache.putEntry a e').entries x = some f' →
      ∃ f, s.cache.entries x = some f ∧ f'.key = f.key ∧
        f.data <+: f'.data ∧ (f'.isLoading = true → f.isLoading = true) := by
    intro a e e' he hkey hdata hload hx'
    by_cases hx : x = a
    · subst hx
      obtain rfl : e' = f' := by simpa [Cache.putEntry] using hx'
      exact ⟨e, he, hkey, hdata, hload⟩
    · exact ⟨f', by simpa [Cache.putEntry, hx] using hx', rfl,
        List.prefix_refl _, id⟩
  cases heff with
  | kept hcontents =>
      obtain ⟨f, hf, hkey, hload, hdata⟩ := hcontents.back x f' hf'
      exact Or.inl ⟨f, hf, hkey, hdata ▸ List.prefix_refl _,
        fun htrue => hload ▸ htrue⟩
  | created task now htask hpc hfree hnone hcache =>
      rw [hcache] at hf'
      by_cases hx : x = s.cache.nextEntry
      · subst hx
        rw [Cache.created_entries_new] at hf'
        obtain rfl := Option.some.inj hf'
        exact Or.inr ⟨rfl, rfl, rfl, task, htask, hpc, hnone, rfl⟩
      · rw [Cache.created_entries_of_ne hx] at hf'
        exact Or.inl ⟨f', hf', rfl, List.prefix_refl _, id⟩
  | appended task e e' htask hpc he hkey hload hdata hcache =>
      exact Or.inl (hput he hkey (hdata ▸ List.prefix_append _ _)
        (fun htrue => hload ▸ htrue) (hcache ▸ hf'))
  | finished task e e' htask hpc he hkey hload hdata hcache =>
      exact Or.inl (hput he hkey (hdata ▸ List.prefix_refl _)
        (fun htrue => by rw [hload] at htrue; cases htrue) (hcache ▸ hf'))
  | freed task a e htask hpc hfree hmem he hkey hload hcache =>
      have hfrees := hs.wf.removeEntry_frees (s.cache.bucketOf task.path) a
      rw [hcache] at hf'
      exact Or.inl ⟨f', (hfrees.entries_back hf').2, rfl, List.prefix_refl _,
        id⟩

theorem effect_nextEntry
    {t : ℕ} (heff : WorkerEffect s s' t) :
    s.cache.nextEntry ≤ s'.cache.nextEntry := by
  cases heff with
  | kept hcontents => exact hcontents.nextEntry.ge
  | created task now htask hpc hfree hnone hcache =>
      rw [hcache]
      exact Nat.le_succ _
  | appended task e e' htask hpc he hkey hload hdata hcache => rw [hcache]; rfl
  | finished task e e' htask hpc he hkey hload hdata hcache => rw [hcache]; rfl
  | freed task a e htask hpc hfree hmem he hkey hload hcache => rw [hcache]; rfl

/-- The contents of an entry remain the chunks appended to it. -/
theorem effect_contents
    (hs : Consistent s) {t : ℕ} (heff : WorkerEffect s s' t) {x : ℕ}
    {f' : Entry} (hf' : s'.cache.entries x = some f') :
    f'.data = ((s'.appends x).map Prod.snd).flatten := by
  cases heff with
  | kept hcontents happends =>
      obtain ⟨f, hf, -, -, hdata⟩ := hcontents.back x f' hf'
      rw [hdata, happends, hs.contents x f hf]
  | created task now htask hpc hfree hnone hcache happends =>
      rw [hcache] at hf'
      rw [happends]
      by_cases hx : x = s.cache.nextEntry
      · subst hx
        rw [Cache.created_entries_new] at hf'
        obtain rfl := Option.some.inj hf'
        rw [hs.unappended _ le_rfl]
        rfl
      · rw [Cache.created_entries_of_ne hx] at hf'
        exact hs.contents x f' hf'
  | appended task e e' htask hpc he hkey hload hdata hcache happends =>
      rw [hcache] at hf'
      rw [happends]
      by_cases hx : x = task.entry
      · subst hx
        obtain rfl : e' = f' := by simpa [Cache.putEntry] using hf'
        simp [hdata, hs.contents _ e he]
      · rw [Function.update_of_ne hx]
        exact hs.contents x f' (by simpa [Cache.putEntry, hx] using hf')
  | finished task e e' htask hpc he hkey hload hdata hcache happends =>
      rw [hcache] at hf'
      rw [happends]
      by_cases hx : x = task.entry
      · subst hx
        obtain rfl : e' = f' := by simpa [Cache.putEntry] using hf'
        rw [hdata, hs.contents _ e he]
      · exact hs.contents x f' (by simpa [Cache.putEntry, hx] using hf')
  | freed task a e htask hpc hfree hmem he hkey hload hcache happends =>
      have hfrees := hs.wf.removeEntry_frees (s.cache.bucketOf task.path) a
      rw [hcache] at hf'
      rw [happends]
      exact hs.contents x f' (hfrees.entries_back hf').2

theorem of_stepWorker
    (hs : Consistent s) {t : ℕ} {a : WorkerStep}
    (h : s.stepWorker t a = some s') : Consistent s' := by
  have hframe := stepWorker_frame h
  have heff := stepWorker_effect h
  have hwf := hs.wf_stepWorker h
  have hbucket : ∀ key, s'.cache.bucketOf key = s.cache.bucketOf key := by
    intro key
    simp [Cache.bucketOf, heff.numBuckets]
  -- a request is what it was, or notified
  have hback : ∀ r w', s'.reqs r = some w' →
      ∃ w, s.reqs r = some w ∧ (w' = w ∨ w' = w.notify) := by
    intro r w' hw'
    rcases hframe.reqs r with heq | heq
    · exact ⟨w', heq ▸ hw', Or.inl rfl⟩
    · rw [heq] at hw'
      obtain ⟨w, hw, rfl⟩ := Option.map_eq_some_iff.mp hw'
      exact ⟨w, hw, Or.inr rfl⟩
  have hlookup : ∀ r w', s'.reqs r = some w' → w'.pc = .inLookup →
      ∃ w, s.reqs r = some w ∧ w.pc = .inLookup ∧ w'.key = w.key ∧
        w'.entry = w.entry ∧ w'.loading = w.loading := by
    intro r w' hw' hpc
    obtain ⟨w, hw, rfl | rfl⟩ := hback r w' hw'
    · exact ⟨w', hw, hpc, rfl, rfl, rfl⟩
    · unfold WriteReq.notify at hpc ⊢
      split at hpc
      next hrel => simp [hrel] at hpc
      next hrel => exact ⟨w, hw, hpc, by simp [hrel], by simp [hrel],
          by simp [hrel]⟩
  refine ⟨hwf, ?_, ?_, ?_, ?_, ?_, ?_, ?_, ?_, ?_⟩
  · intro r w' hw'
    obtain ⟨w, hw, rfl | rfl⟩ := hback r w' hw'
    · exact hs.fields r w' hw
    · exact (hs.fields r w hw).notify
  · intro r w' hw'
    obtain ⟨w, hw, rfl | rfl⟩ := hback r w' hw'
    · exact hs.keyed r w' hw
    · have hsame := WriteReq.SameClient.notify w
      rw [hsame.req, hsame.key]
      exact hs.keyed r w hw
  · intro r w' hw' hpc
    obtain ⟨w, hw, hpc', hkey, -, -⟩ := hlookup r w' hw' hpc
    rw [hframe.locks, hbucket, hkey]
    exact hs.locked r w hw hpc'
  · intro r w' hw' hpc
    obtain ⟨w, hw, hpc', hkey, hentry, hload⟩ := hlookup r w' hw' hpc
    obtain ⟨e, hfind, hdone⟩ := hs.found r w hw hpc'
    have hlock := hs.locked r w hw hpc'
    obtain ⟨-, hkeep⟩ := hs.stepWorker_locked h
      (by rw [hlock]; simp : s.locks (s.cache.bucketOf w.key) ≠ none)
    obtain ⟨e', hfind', hdone'⟩ := hkeep w.key w.entry e rfl hfind
    refine ⟨e', by rw [hkey, hentry, hfind'], fun hfalse => ?_⟩
    exact hdone' (hdone (hload ▸ hfalse))
  · intro g hg
    rw [hframe.gc] at hg
    obtain ⟨hlock, hchain⟩ := hs.collecting g hg
    obtain ⟨hkeep, -⟩ := hs.stepWorker_locked h
      (by rw [hlock]; simp : s.locks g.bucket ≠ none)
    exact ⟨by rw [hframe.locks, hlock], by rw [hkeep, hchain]⟩
  · intro t' task' htask'
    have howned : ∀ task, s.tasks t' = some task → task'.req = task.req →
        task'.key = task.key →
        ∃ w', s'.reqs t' = some w' ∧ w'.streaming = true ∧
          w'.launched = true ∧ w'.req = task'.req ∧ w'.key = task'.key := by
      intro task htask hreq hkey
      obtain ⟨w, hw, hstream, hlaunched, hwreq, hwkey⟩ :=
        hs.owned t' task htask
      rcases hframe.reqs t' with heq | heq
      · exact ⟨w, by rw [heq, hw], hstream, hlaunched, hwreq.trans hreq.symm,
          hwkey.trans hkey.symm⟩
      · have hsame := WriteReq.SameClient.notify w
        exact ⟨w.notify, by rw [heq, hw]; rfl, hsame.streaming hstream,
          (hsame.launched hstream).trans hlaunched,
          hsame.req.trans (hwreq.trans hreq.symm),
          hsame.key.trans (hwkey.trans hkey.symm)⟩
    by_cases ht : t' = t
    · subst ht
      obtain ⟨task, task₁, htask, htask₁, hreq, hkey, -⟩ := stepWorker_task h
      obtain rfl := Option.some.inj (htask'.symm.trans htask₁)
      exact howned task htask hreq hkey
    · exact howned task' (hframe.tasks t' ht ▸ htask') rfl rfl
  · intro t' task' htask' hpc
    have hle := effect_nextEntry heff
    have hhanded : ∀ task, s.tasks t' = some task →
        task'.entry = task.entry → task'.key = task.key → task.pc.HasEntry →
        task'.entry < s'.cache.nextEntry ∧
          ∀ e, s'.cache.entries task'.entry = some e → e.key = task'.key := by
      intro task htask hentry hkey hhas
      obtain ⟨hlt, hkeys⟩ := hs.handed t' task htask hhas
      refine ⟨by omega, fun e' he' => ?_⟩
      rw [hentry] at he'
      rcases hs.effect_entries heff he' with
        ⟨e, he, hsame, -⟩ | ⟨hnew, -⟩
      · rw [hsame, hkey]
        exact hkeys e he
      · omega
    by_cases ht : t' = t
    · subst ht
      obtain ⟨task, task₁, htask, htask₁, -, hkey, -, hcase⟩ :=
        stepWorker_task h
      obtain rfl := Option.some.inj (htask'.symm.trans htask₁)
      rcases hcase with ⟨hentry, hhas⟩ | ⟨-, -, hstart⟩
      · exact hhanded task htask hentry hkey (hhas hpc)
      · rcases hstart with ⟨e, hfind, hcache⟩ | ⟨now, hentry, -, hcache⟩
        · obtain ⟨-, he, hekey⟩ := Cache.findEntry_eq_some hfind
          rw [hcache, hkey]
          refine ⟨hs.wf.fresh _ e he, fun e' he' => ?_⟩
          obtain rfl := Option.some.inj (he.symm.trans he')
          exact hekey
        · rw [hcache, hentry, hkey]
          refine ⟨Nat.lt_succ_self _, fun e' he' => ?_⟩
          rw [Cache.created_entries_new] at he'
          obtain rfl := Option.some.inj he'
          rfl
    · exact hhanded task' (hframe.tasks t' ht ▸ htask') rfl rfl hpc
  · exact fun x f' hf' => hs.effect_contents heff hf'
  · intro x hx
    have hle := effect_nextEntry heff
    have hold : s.appends x = [] := hs.unappended x (by omega)
    cases heff with
    | kept hcontents happends => rw [happends, hold]
    | created task now htask hpc hfree hnone hcache happends =>
        rw [happends, hold]
    | appended task e e' htask hpc he hkey hload hdata hcache happends =>
        have hlt := hs.wf.fresh _ e he
        have hne : x ≠ task.entry := by omega
        rw [happends, Function.update_of_ne hne, hold]
    | finished task e e' htask hpc he hkey hload hdata hcache happends =>
        rw [happends, hold]
    | freed task a e htask hpc hfree hmem he hkey hload hcache happends =>
        rw [happends, hold]

/-! ## Steps of the collector -/

/-- The collector frees the first entry still ahead of it, and loses the
loading entries it has passed. -/
theorem collected_frees
    (hs : Consistent s) {g : Collector} (hg : s.gc = some g) {a : ℕ}
    {rest : List ℕ} (hrest : g.rest = a :: rest) (e : Entry) :
    (s.collected g a rest e).WF ∧
      s.cache.Frees (s.collected g a rest e) g.bucket a g.skipped := by
  obtain ⟨-, hchain⟩ := hs.collecting g hg
  rw [hrest] at hchain
  have hnodup := hchain ▸ hs.wf.nodup g.bucket
  refine ⟨hs.wf.unlink _ _ hchain, rfl, rfl, rfl, rfl, ?_, ?_⟩
  · exact fun b' hb => Function.update_of_ne hb _ _
  · intro x
    simp only [collected, Function.update_self, hchain, List.mem_append,
      List.mem_cons]
    simp only [List.nodup_append, List.nodup_cons, List.mem_append,
      List.mem_cons] at hnodup
    obtain ⟨-, ⟨-, ⟨hrest', -⟩, hskip⟩, hfront⟩ := hnodup
    constructor
    · rintro (hx | hx)
      · refine ⟨Or.inl hx, ?_, fun hx' => ?_⟩
        · exact hfront x hx a (Or.inr (Or.inl rfl))
        · exact hfront x hx x (Or.inl hx') rfl
      · refine ⟨Or.inr (Or.inr (Or.inr hx)), ?_, fun hx' => ?_⟩
        · rintro rfl
          exact hrest' hx
        · exact hskip x hx' x (Or.inr hx) rfl
    · rintro ⟨hx | hx | rfl | hx, hxa, hxs⟩
      · exact Or.inl hx
      · exact absurd hx hxs
      · exact absurd rfl hxa
      · exact Or.inr hx

/-- A step of the collector frees one expired entry, or no entry at all. -/
theorem stepCollector_cases
    {a : GcStep} (h : s.stepCollector a = some s') :
    s'.cache = s.cache ∨
      ∃ g x rest e, a = .entry ∧ s.gc = some g ∧ g.rest = x :: rest ∧
        s.cache.entries x = some e ∧ e.isLoading = false ∧
        e.expired s.cache.defaultTtl g.now = true ∧ s'.locks = s.locks ∧
        s'.cache = s.collected g x rest e := by
  cases a with
  | begin b now =>
      obtain ⟨-, -, rfl⟩ := gcBegin_spec h
      exact Or.inl rfl
  | entry =>
      obtain ⟨g, x, rest, e, hg, hrest, he,
        ⟨-, rfl⟩ | ⟨hload, hexp, rfl⟩ | ⟨-, rfl⟩⟩ := gcEntry_spec h
      · exact Or.inl rfl
      · exact Or.inr
          ⟨g, x, rest, e, rfl, hg, hrest, he, hload, hexp, rfl, rfl⟩
      · exact Or.inl rfl
  | finish =>
      obtain ⟨g, -, -, rfl⟩ := gcEnd_spec h
      exact Or.inl rfl

/-- The collector touches no lock that a request holds. -/
theorem stepCollector_locks
    (hs : Consistent s) {a : GcStep} (h : s.stepCollector a = some s') {b r : ℕ}
    (hb : s.locks b = some (.request r)) :
    s'.locks b = some (.request r) := by
  cases a with
  | begin b' now =>
      obtain ⟨-, hfree, rfl⟩ := gcBegin_spec h
      have hne : b ≠ b' := by
        rintro rfl
        rw [hb] at hfree
        cases hfree
      simpa [setLock, hne] using hb
  | entry =>
      obtain ⟨g, x, rest, e, -, -, -, ⟨-, rfl⟩ | ⟨-, -, rfl⟩ | ⟨-, rfl⟩⟩ :=
        gcEntry_spec h
      · exact hb
      · exact hb
      · exact hb
  | finish =>
      obtain ⟨g, hg, -, rfl⟩ := gcEnd_spec h
      have hne : b ≠ g.bucket := by
        rintro rfl
        rw [(hs.collecting g hg).1] at hb
        cases hb
      simpa [setLock, hne] using hb

/-- The collector's own position stays correct. -/
theorem stepCollector_collecting
    (hs : Consistent s) {a : GcStep} (h : s.stepCollector a = some s')
    {g' : Collector} (hg' : s'.gc = some g') :
    s'.locks g'.bucket = some .collector ∧
      s'.cache.chain g'.bucket = g'.front ++ (g'.skipped ++ g'.rest) := by
  cases a with
  | begin b now =>
      obtain ⟨-, -, rfl⟩ := gcBegin_spec h
      obtain rfl := Option.some.inj hg'
      exact ⟨by simp [setLock], rfl⟩
  | entry =>
      obtain ⟨g, x, rest, e, hg, hrest, -, hcase⟩ := gcEntry_spec h
      obtain ⟨hlock, hchain⟩ := hs.collecting g hg
      rw [hrest] at hchain
      rcases hcase with ⟨-, rfl⟩ | ⟨-, -, rfl⟩ | ⟨-, rfl⟩
      · obtain rfl := Option.some.inj hg'
        exact ⟨hlock, by simp [hchain]⟩
      · obtain rfl := Option.some.inj hg'
        exact ⟨hlock, by simp [collected]⟩
      · obtain rfl := Option.some.inj hg'
        exact ⟨hlock, by simp [hchain]⟩
  | finish =>
      obtain ⟨g, -, -, rfl⟩ := gcEnd_spec h
      cases hg'

theorem of_stepCollector
    (hs : Consistent s) {a : GcStep} (h : s.stepCollector a = some s') :
    Consistent s' := by
  have hframe := stepCollector_frame h
  -- what holds of the entries afterwards held before
  have hcache : s'.cache.WF ∧
      (∀ key, s'.cache.bucketOf key = s.cache.bucketOf key) ∧
      s'.cache.nextEntry = s.cache.nextEntry ∧
      (∀ x e, s'.cache.entries x = some e → s.cache.entries x = some e) ∧
      (∀ r w, s.reqs r = some w → w.pc = .inLookup → ∀ e,
        s.cache.findEntry w.key = some (w.entry, e) →
        s'.cache.findEntry w.key = some (w.entry, e)) := by
    rcases stepCollector_cases h with
      heq | ⟨g, x, rest, e, -, hg, hrest, -, -, -, -, heq⟩
    · rw [heq]
      exact ⟨hs.wf, fun _ => rfl, rfl, fun _ _ => id, fun _ _ _ _ _ => id⟩
    · obtain ⟨hwf, hfrees⟩ := hs.collected_frees hg hrest e
      obtain ⟨hlock, hchain⟩ := hs.collecting g hg
      rw [heq]
      refine ⟨hwf, hfrees.bucketOf_eq, hfrees.nextEntry,
        fun y f hf => (hfrees.entries_back hf).2, ?_⟩
      intro r w hw hpc f hfind
      have hne : s.cache.bucketOf w.key ≠ g.bucket := by
        intro hbucket
        have hlock' := hs.locked r w hw hpc
        rw [hbucket, hlock] at hlock'
        cases hlock'
      have hx : x ∈ s.cache.chain g.bucket := by simp [hchain, hrest]
      exact hfrees.findEntry_of_ne hs.wf hwf hx hne hfind
  obtain ⟨hwf, hbucket, hnext, hback, hfound⟩ := hcache
  refine ⟨hwf, ?_, ?_, ?_, ?_, ?_, ?_, ?_, ?_, ?_⟩
  · rw [hframe.reqs]
    exact hs.fields
  · rw [hframe.reqs]
    exact hs.keyed
  · intro r w hw hpc
    rw [hframe.reqs] at hw
    rw [hbucket]
    exact hs.stepCollector_locks h (hs.locked r w hw hpc)
  · intro r w hw hpc
    rw [hframe.reqs] at hw
    obtain ⟨e, hfind, hload⟩ := hs.found r w hw hpc
    exact ⟨e, hfound r w hw hpc e hfind, hload⟩
  · exact fun g' hg' => hs.stepCollector_collecting h hg'
  · rw [hframe.reqs, hframe.tasks]
    exact hs.owned
  · intro t task htask hpc
    rw [hframe.tasks] at htask
    obtain ⟨hlt, hkey⟩ := hs.handed t task htask hpc
    exact ⟨hnext ▸ hlt, fun e he => hkey e (hback _ e he)⟩
  · intro x e he
    rw [hframe.appends]
    exact hs.contents x e (hback x e he)
  · intro x hx
    rw [hframe.appends]
    exact hs.unappended x (hnext ▸ hx)

/-! ## Steps that are quiet for the workers -/

/-- Seen from the workers nothing happens, except that entries may be freed,
new tasks queued, and tasks told to stop. -/
structure Quiet (s s' : State) : Prop where
  entries : ∀ x e', s'.cache.entries x = some e' →
    ∃ e, s.cache.entries x = some e ∧ e'.key = e.key ∧
      e'.isLoading = e.isLoading ∧ e'.data = e.data
  tasks : ∀ t task', s'.tasks t = some task' →
    (∃ task, s.tasks t = some task ∧
      task' = { task with shouldStop := task'.shouldStop }) ∨
    ∃ x key, task' = .launched x key
  kept : ∀ t task, s.tasks t = some task →
    ∃ stop, s'.tasks t = some { task with shouldStop := stop }
  appends : s'.appends = s.appends
  nextEntry : s'.cache.nextEntry = s.cache.nextEntry

theorem quiet_of_stepRequest
    (hs : Consistent s) {r : ℕ} {a : ReqStep}
    (h : s.stepRequest r a = some s') : Quiet s s' := by
  have hframe := stepRequest_frame h
  refine ⟨hframe.contents.back, ?_, ?_, hframe.appends,
    hframe.contents.nextEntry⟩
  · intro t task' htask'
    rcases stepRequest_tasks h t with heq | ⟨-, -, task, htask, heq⟩ |
      ⟨-, w, -, -, heq, -⟩
    · exact Or.inl ⟨task', heq ▸ htask', rfl⟩
    · obtain rfl := Option.some.inj (heq.symm.trans htask')
      exact Or.inl ⟨task, htask, rfl⟩
    · obtain rfl := Option.some.inj (heq.symm.trans htask')
      exact Or.inr ⟨_, _, rfl⟩
  · intro t task htask
    rcases stepRequest_tasks h t with heq | ⟨-, -, task₀, htask₀, heq⟩ |
      ⟨rfl, w, hw, hpc, -, -⟩
    · exact ⟨task.shouldStop, heq.trans htask⟩
    · obtain rfl := Option.some.inj (htask.symm.trans htask₀)
      exact ⟨true, heq⟩
    · -- a request about to launch has no task yet
      obtain ⟨w₀, hw₀, hstream, -⟩ := hs.owned t task htask
      obtain rfl := Option.some.inj (hw.symm.trans hw₀)
      exact absurd hpc ((hs.fields t w hw).notLaunching hstream)

theorem quiet_of_stepCollector
    (hs : Consistent s) {a : GcStep} (h : s.stepCollector a = some s') :
    Quiet s s' := by
  have hframe := stepCollector_frame h
  have htasks : ∀ t task', s'.tasks t = some task' →
      (∃ task, s.tasks t = some task ∧
        task' = { task with shouldStop := task'.shouldStop }) ∨
      ∃ x key, task' = .launched x key :=
    fun t task' htask' => Or.inl ⟨task', hframe.tasks ▸ htask', rfl⟩
  have hkept : ∀ t task, s.tasks t = some task →
      ∃ stop, s'.tasks t = some { task with shouldStop := stop } :=
    fun t task htask => ⟨task.shouldStop, hframe.tasks ▸ htask⟩
  rcases stepCollector_cases h with
    heq | ⟨g, x, rest, e, -, hg, hrest, -, -, -, -, heq⟩
  · exact ⟨fun y e' he' => ⟨e', heq ▸ he', rfl, rfl, rfl⟩, htasks, hkept,
      hframe.appends, by rw [heq]⟩
  · obtain ⟨-, hfrees⟩ := hs.collected_frees hg hrest e
    refine ⟨fun y e' he' => ?_, htasks, hkept, hframe.appends, ?_⟩
    · rw [heq] at he'
      exact ⟨e', (hfrees.entries_back he').2, rfl, rfl, rfl⟩
    · rw [heq, hfrees.nextEntry]

/-! ## Every run -/

theorem of_step
    (hs : Consistent s) {a : Action} (h : s.step a = some s') :
    Consistent s' := by
  cases a with
  | request r a => exact hs.of_stepRequest h
  | worker t a => exact hs.of_stepWorker h
  | collector a => exact hs.of_stepCollector h

theorem of_reachable
    {allowed : State → Action → Prop} (hs : proxy.ReachableUnder allowed s) :
    Consistent s := by
  refine hs.invariant ?_ fun s a s' hs _ hstep => hs.of_step hstep
  rintro s ⟨numBuckets, defaultTtl, rfl⟩
  exact init numBuckets defaultTtl

end Consistent

end Streaming
end Proxy
end OsFifthSem
