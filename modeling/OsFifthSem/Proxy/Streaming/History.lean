import OsFifthSem.Proxy.Streaming.Consistent

/-!
# What a request has been served

The history of a request changes only at the end of a lookup: either the
whole response is answered from the cache, or one chunk is cut out of the
entry at the current offset.
-/

namespace OsFifthSem
namespace Proxy
namespace Streaming

open Support State

/-- Nothing was handed to `uv_write`. -/
structure WriteReq.SameHistory (w w' : WriteReq) : Prop where
  sent : w'.sent = w.sent
  sources : w'.sources = w.sources
  lastOffset : w'.lastOffset = w.lastOffset

namespace WriteReq

namespace SameHistory

variable {w w' : WriteReq}

theorem notify (w : WriteReq) : w.SameHistory w.notify := by
  unfold WriteReq.notify
  split <;> exact ⟨rfl, rfl, rfl⟩

theorem sendNextChunk (w : WriteReq) : w.SameHistory w.sendNextChunk := by
  unfold WriteReq.sendNextChunk
  split <;> exact ⟨rfl, rfl, rfl⟩

theorem registerOnce (w : WriteReq) (recheck : Bool) :
    w.SameHistory (w.registerOnce recheck) := by
  unfold WriteReq.registerOnce
  split <;> exact ⟨rfl, rfl, rfl⟩

theorem beginStreaming
    (hok : w.Ok) (hstream : w.streaming = false) (launched : Bool) :
    w.SameHistory (w.beginStreaming launched) := by
  have hoffset := hok.unsent hstream
  unfold WriteReq.beginStreaming WriteReq.sendNextChunk
  split <;> exact ⟨rfl, rfl, hoffset.symm⟩

theorem afterMiss (hout : w.MissOutcome w') : w.SameHistory w' := by
  cases hout with
  | launch hsite => exact ⟨rfl, rfl, rfl⟩
  | register hsite => exact registerOnce w false
  | again hsite => exact sendNextChunk w

theorem afterRegister (w : WriteReq) : w.SameHistory w.afterRegister := by
  unfold WriteReq.afterRegister
  split <;> exact ⟨rfl, rfl, rfl⟩

theorem onDataReady (w : WriteReq) : w.SameHistory w.onDataReady := by
  unfold WriteReq.onDataReady
  split
  · exact ⟨rfl, rfl, rfl⟩
  · have hsame := sendNextChunk { w with queued := false }
    exact ⟨hsame.sent, hsame.sources, hsame.lastOffset⟩

theorem onWritten (w : WriteReq) (ok : Bool) :
    w.SameHistory (w.onWritten ok) := by
  unfold WriteReq.onWritten
  dsimp only
  split
  · split
    · exact ⟨rfl, rfl, rfl⟩
    · split
      · have hsame := sendNextChunk
          { w with inFlight := w.inFlight.tail, writePending := false }
        exact ⟨hsame.sent, hsame.sources, hsame.lastOffset⟩
      · exact ⟨rfl, rfl, rfl⟩
  · exact ⟨rfl, rfl, rfl⟩

end SameHistory

/-! ## Staying alive -/

theorem live_notify_iff (w : WriteReq) : w.notify.Live ↔ w.Live := by
  unfold notify Live
  split <;> exact Iff.rfl

/-- A request in one of these places is live as soon as it is streaming. -/
theorem live_of_streaming
    {w : WriteReq} (hstream : w.streaming = true)
    (hpc : w.pc = .lookup ∨ w.pc = .inLookup ∨ w.pc = .register ∨
      w.pc = .idle) : w.Live := by
  refine ⟨hstream, ?_, ?_, ?_⟩ <;>
    rcases hpc with hpc | hpc | hpc | hpc <;> simp [hpc]

theorem not_live_release (w : WriteReq) (cause : ReleaseCause) :
    ¬ (w.release cause).Live := by
  unfold release Live
  rintro ⟨-, hun, hcancel, -⟩
  dsimp only at hun hcancel
  split at hun
  · exact hun rfl
  next hstream => simp [hstream] at hcancel

end WriteReq

/-! ## The steps -/

/-- How a step of a request changes its history, and from where it can be
live. -/
inductive HistoryStep (s s' : State) (a : Action) (r : ℕ) (w w' : WriteReq) :
    Prop
  | same (hsame : w.SameHistory w')
      (hlive : w'.Live → w.Live ∨ w.streaming = false)
      (hstream : w'.streaming = true → w.streaming = true ∨
        w.sent = [] ∧ w.sources = [])
  /-- `read_client` answers from the cache. -/
  | answered (e : Entry) (now : ℤ) (accepted : Bool)
      (hact : a = .request r (.lookupEnd now accepted))
      (hcontents : s.cache.SameContents s'.cache) (hpc : w.pc = .inLookup)
      (he : s.cache.entries w.entry = some e)
      (hstream : w.streaming = false) (hload : w.loading = false)
      (hw : w' = { w.write w.entry e.data accepted with pc := .idle })
  /-- `send_next_chunk` writes a chunk. -/
  | chunk (e : Entry) (now : ℤ) (accepted : Bool)
      (hact : a = .request r (.lookupEnd now accepted))
      (hcontents : s.cache.SameContents s'.cache) (hpc : w.pc = .inLookup)
      (hsite : w.site = .sendNextChunk)
      (he : s.cache.entries w.entry = some e)
      (hstream : w.streaming = true) (hlen : w.lastOffset < e.data.length)
      (hw : w' = { w.write w.entry
          ((e.data.drop w.lastOffset).take packetSize) accepted with
        pc := .idle
        lastOffset := w.lastOffset +
          ((e.data.drop w.lastOffset).take packetSize).length
        writePending := accepted })

namespace Consistent

variable {s s' : State}

theorem stepRequest_history
    (hs : Consistent s) {r : ℕ} {a : ReqStep}
    (h : s.stepRequest r a = some s') {w w' : WriteReq}
    (hw : s.reqs r = some w) (hw' : s'.reqs r = some w') :
    HistoryStep s s' (.request r a) r w w' := by
  have hok := hs.fields r w hw
  have hcontents := (stepRequest_frame h).contents
  cases WriteReq.ownStep_of_stepRequest h hw hw' with
  | lookupHit a e hpc hfree hfind hs' =>
      refine .same ⟨rfl, rfl, rfl⟩ (fun hlive => ?_) Or.inl
      exact Or.inl (WriteReq.live_of_streaming hlive.1 (Or.inl hpc))
  | lookupMiss _ hpc hfind hcache hout =>
      refine .same (.afterMiss hout) (fun _ => ?_) fun _ => ?_
      · by_cases hstream : w.streaming = true
        · exact Or.inl (WriteReq.live_of_streaming hstream (Or.inl hpc))
        · exact Or.inr (by simpa using hstream)
      · by_cases hstream : w.streaming = true
        · exact Or.inl hstream
        · exact Or.inr
            (hok.untouched (by simpa using hstream) (Or.inl hpc)).2
  | lookupEnd now accepted e _ hpc he hout =>
      have hstreaming : w.site ≠ .readClient → w.streaming = true :=
        hok.streaming_of_site (Or.inr hpc)
      -- outcomes of a streaming request that write nothing
      have hquiet : w.site ≠ .readClient → w.SameHistory w' →
          HistoryStep s s' (.request r (.lookupEnd now accepted)) r w w' :=
        fun hsite hsame => .same hsame
          (fun _ => Or.inl (WriteReq.live_of_streaming (hstreaming hsite)
            (Or.inr (Or.inl hpc))))
          fun _ => Or.inl (hstreaming hsite)
      cases hout with
      | answered hsite hload =>
          exact .answered e now accepted rfl hcontents hpc he
            (hok.not_streaming_of_site hsite) hload rfl
      | follow hsite hload =>
          have hnot := hok.not_streaming_of_site hsite
          exact .same (.beginStreaming hok hnot false) (fun _ => Or.inr hnot)
            fun _ => Or.inr (hok.untouched hnot (Or.inr (Or.inl hpc))).2
      | wait hsite hload hlen =>
          exact hquiet (by simp [hsite]) (.registerOnce w true)
      | tooFar hsite hload hlen =>
          exact hquiet (by simp [hsite]) ⟨rfl, rfl, rfl⟩
      | complete hsite hload hlen =>
          exact hquiet (by simp [hsite]) ⟨rfl, rfl, rfl⟩
      | chunk hsite hlen =>
          exact .chunk e now accepted rfl hcontents hpc hsite he
            (hstreaming (by simp [hsite])) hlen rfl
      | stay hsite hload hlen =>
          exact hquiet (by simp [hsite]) ⟨rfl, rfl, rfl⟩
      | again hsite => exact hquiet (by simp [hsite]) (.sendNextChunk w)
  | launched hpc htasks =>
      have hnot := hok.not_streaming_of_launch hpc
      exact .same (.beginStreaming hok hnot true) (fun _ => Or.inr hnot)
        fun _ => Or.inr (hok.untouched hnot (Or.inr (Or.inr hpc))).2
  | notLaunched hpc =>
      exact .same ⟨rfl, rfl, rfl⟩
        (fun _ => Or.inr (hok.not_streaming_of_launch hpc)) Or.inl
  | registerWaiter ok hpc hcache =>
      have hstream := hok.ownPc (Or.inl hpc)
      exact .same (.afterRegister w)
        (fun _ => Or.inl (WriteReq.live_of_streaming hstream
          (Or.inr (Or.inr (Or.inl hpc)))))
        fun _ => Or.inl hstream
  | onDataReady hpc hstream =>
      exact .same (.onDataReady w)
        (fun _ => Or.inl (WriteReq.live_of_streaming hstream
          (Or.inr (Or.inr (Or.inr hpc)))))
        fun _ => Or.inl hstream
  | onWritten ok hpc hflight =>
      by_cases hstream : w.streaming = true
      · exact .same (.onWritten w ok)
          (fun _ => Or.inl (WriteReq.live_of_streaming hstream
            (Or.inr (Or.inr (Or.inr hpc)))))
          fun _ => Or.inl hstream
      · have hnot : w.streaming = false := by simpa using hstream
        refine .same (.onWritten w ok) (fun _ => Or.inr hnot) fun hs' => ?_
        simp [WriteReq.onWritten, WriteReq.release, hnot] at hs'
  | unregisterWaiter hpc =>
      exact .same ⟨rfl, rfl, rfl⟩ (fun hlive => absurd rfl hlive.2.2.1) Or.inl
  | cancelBgw hpc =>
      exact .same ⟨rfl, rfl, rfl⟩ (fun hlive => absurd rfl hlive.2.2.2.1) Or.inl
  | onAsyncClose hpc =>
      exact .same ⟨rfl, rfl, rfl⟩ (fun hlive => absurd rfl hlive.2.2.2.2) Or.inl

/-- A step of the system on one request: the request arrives, or its history
changes in one of the three ways. -/
theorem step_history
    (hs : Consistent s) {a : Action} (h : s.step a = some s') {r : ℕ}
    {w' : WriteReq} (hw' : s'.reqs r = some w') :
    (s.reqs r = none ∧ ∃ x, a = .request r (.readClient x) ∧
      x.cacheKey = some w'.key ∧ w' = .arrived x w'.key) ∨
    ∃ w, s.reqs r = some w ∧ w.SameClient w' ∧ HistoryStep s s' a r w w' := by
  have hkept : s.reqs r = some w' →
      ∃ w, s.reqs r = some w ∧ w.SameClient w' ∧ HistoryStep s s' a r w w' :=
    fun hw => ⟨w', hw, .refl w', .same ⟨rfl, rfl, rfl⟩ Or.inl Or.inl⟩
  cases a with
  | request r' a =>
      by_cases hr : r = r'
      · subst hr
        rcases hs.stepRequest_own h hw' with
          ⟨hnone, x, rfl, hnew⟩ | ⟨w, hw, hsame, -, -⟩
        · exact Or.inl ⟨hnone, x, rfl, hnew⟩
        · exact Or.inr ⟨w, hw, hsame, hs.stepRequest_history h hw hw'⟩
      · exact Or.inr (hkept ((stepRequest_frame h).reqs r hr ▸ hw'))
  | worker t a =>
      rcases (stepWorker_frame h).reqs r with heq | heq
      · exact Or.inr (hkept (heq ▸ hw'))
      · obtain ⟨w, hw, rfl⟩ := Option.map_eq_some_iff.mp (heq ▸ hw')
        refine Or.inr ⟨w, hw, .notify w, .same (.notify w) (fun hlive => ?_)
          fun hstream => Or.inl ?_⟩
        · exact Or.inl (w.live_notify_iff.mp hlive)
        · unfold WriteReq.notify at hstream
          split at hstream <;> exact hstream
  | collector a =>
      exact Or.inr (hkept ((stepCollector_frame h).reqs ▸ hw'))

/-! ## What a step does to one entry or worker -/

/-- An entry was there before the step, with the same key and no more bytes,
or the step created it. -/
theorem step_entries
    (hs : Consistent s) {a : Action} (h : s.step a = some s') {x : ℕ}
    {e' : Entry} (he' : s'.cache.entries x = some e') :
    (∃ e, s.cache.entries x = some e ∧ e'.key = e.key ∧
      e.data <+: e'.data ∧ (e'.isLoading = true → e.isLoading = true)) ∨
    (x = s.cache.nextEntry ∧ e'.data = [] ∧ e'.isLoading = true ∧
      ∃ t now task, a = .worker t (.startLoading now true) ∧
        s.tasks t = some task ∧ s.cache.findEntry task.key = none ∧
        e'.key = task.key) := by
  have hquiet : Quiet s s' → ∃ e, s.cache.entries x = some e ∧
      e'.key = e.key ∧ e.data <+: e'.data ∧
      (e'.isLoading = true → e.isLoading = true) := by
    intro hq
    obtain ⟨e, he, hkey, hload, hdata⟩ := hq.entries x e' he'
    exact ⟨e, he, hkey, hdata ▸ List.prefix_rfl, fun hl => hload ▸ hl⟩
  cases a with
  | request r a => exact Or.inl (hquiet (hs.quiet_of_stepRequest h))
  | collector a => exact Or.inl (hquiet (hs.quiet_of_stepCollector h))
  | worker t a =>
      rcases hs.effect_entries (stepWorker_effect h) he' with
        hold | ⟨hx, hdata, hload, task, htask, hpc, hnone, hkey⟩
      · exact Or.inl hold
      · obtain ⟨now, ok, rfl⟩ := stepWorker_of_queued h htask hpc
        obtain ⟨u, hu, -, -, ⟨y, e, hfind, -⟩ | ⟨-, rfl, -⟩ | ⟨-, -, rfl⟩⟩ :=
          startLoading_spec h
        · obtain rfl := Option.some.inj (htask.symm.trans hu)
          rw [hnone] at hfind
          cases hfind
        · exact Or.inr ⟨hx, hdata, hload, t, now, task, rfl, htask, hnone, hkey⟩
        · have he : s.cache.entries x = some e' := he'
          rw [hx, hs.wf.entries_nextEntry] at he
          cases he

theorem step_nextEntry
    (hs : Consistent s) {a : Action} (h : s.step a = some s') :
    s.cache.nextEntry ≤ s'.cache.nextEntry := by
  cases a with
  | request r a => exact (hs.quiet_of_stepRequest h).nextEntry.ge
  | worker t a => exact effect_nextEntry (stepWorker_effect h)
  | collector a => exact (hs.quiet_of_stepCollector h).nextEntry.ge

/-- Workers stay, with their request and their key. -/
theorem step_task
    (hs : Consistent s) {a : Action} (h : s.step a = some s') {t : ℕ}
    {task : Task} (htask : s.tasks t = some task) :
    ∃ task', s'.tasks t = some task' ∧ task'.req = task.req ∧
      task'.key = task.key := by
  have hquiet : Quiet s s' → ∃ task', s'.tasks t = some task' ∧
      task'.req = task.req ∧ task'.key = task.key := by
    intro hq
    obtain ⟨stop, htask'⟩ := hq.kept t task htask
    exact ⟨_, htask', rfl, rfl⟩
  cases a with
  | request r a => exact hquiet (hs.quiet_of_stepRequest h)
  | collector a => exact hquiet (hs.quiet_of_stepCollector h)
  | worker t' a =>
      by_cases ht : t = t'
      · subst ht
        obtain ⟨u, task', hu, htask', hreq, hkey, -⟩ := stepWorker_task h
        obtain rfl := Option.some.inj (htask.symm.trans hu)
        exact ⟨task', htask', hreq, hkey⟩
      · exact ⟨task, ((stepWorker_frame h).tasks t ht).trans htask, rfl, rfl⟩

/-- The chunks of an entry stay, and a chunk is added only by a worker in the
critical section of `cache_append_data`. -/
theorem step_appends
    (hs : Consistent s) {a : Action} (h : s.step a = some s') (x : ℕ) :
    s'.appends x = s.appends x ∨
    ∃ t task e, s.tasks t = some task ∧ task.pc = .appending ∧
      task.entry = x ∧ s.cache.entries x = some e ∧
      s'.appends x = s.appends x ++ [(t, task.chunk)] := by
  cases a with
  | request r a =>
      exact Or.inl (congrFun (hs.quiet_of_stepRequest h).appends x)
  | collector a =>
      exact Or.inl (congrFun (hs.quiet_of_stepCollector h).appends x)
  | worker t a =>
      cases stepWorker_effect h with
      | kept hcontents happends => exact Or.inl (congrFun happends x)
      | created task now htask hpc hfree hnone hcache happends =>
          exact Or.inl (congrFun happends x)
      | appended task e e' htask hpc he hkey hload hdata hcache happends =>
          rw [happends]
          by_cases hx : x = task.entry
          · subst hx
            exact Or.inr ⟨t, task, e, htask, hpc, rfl, he,
              Function.update_self ..⟩
          · exact Or.inl (Function.update_of_ne hx _ _)
      | finished task e e' htask hpc he hkey hload hdata hcache happends =>
          exact Or.inl (congrFun happends x)
      | freed task y e htask hpc hfree hmem he hkey hload hcache happends =>
          exact Or.inl (congrFun happends x)

/-! ## What a search finds -/

/-- What a search finds after a step it found before, unless the step created
it. -/
theorem step_findEntry
    (hs : Consistent s) {a : Action} (h : s.step a = some s') {key : CString}
    {x : ℕ} {e' : Entry} (hfind : s'.cache.findEntry key = some (x, e')) :
    (∃ e, s.cache.findEntry key = some (x, e)) ∨
      (x = s.cache.nextEntry ∧ ∃ t now ok task,
        a = .worker t (.startLoading now ok) ∧ s.tasks t = some task ∧
          task.key = key ∧ s.cache.findEntry task.key = none) := by
  have hwf := (hs.of_step h).wf
  cases a with
  | request r a =>
      obtain ⟨e, he, -⟩ := (stepRequest_frame h).contents.findEntry_back
        hs.wf hwf hfind
      exact Or.inl ⟨e, he⟩
  | collector a =>
      rcases stepCollector_cases h with
        heq | ⟨g, y, rest, e, -, hg, hrest, -, -, -, -, heq⟩
      · exact Or.inl ⟨e', heq ▸ hfind⟩
      · obtain ⟨hwf', hfrees⟩ := hs.collected_frees hg hrest e
        rw [heq] at hfind
        exact Or.inl ⟨e', hfrees.findEntry_back hs.wf hwf' hfind⟩
  | worker t a =>
      obtain ⟨hlinked, he', hkey⟩ := hwf.findEntry_eq_some_iff.mp hfind
      have hput : ∀ {y : ℕ} {e f : Entry}, s.cache.entries y = some e →
          f.key = e.key → s'.cache = s.cache.putEntry y f →
          ∃ e, s.cache.findEntry key = some (x, e) := by
        intro y e f hy hfkey hcache
        rw [hcache, Cache.findEntry_putEntry hy hfkey] at hfind
        obtain ⟨⟨z, e₀⟩, he₀, heq⟩ := Option.map_eq_some_iff.mp hfind
        obtain ⟨rfl, -⟩ := Prod.mk.inj heq
        exact ⟨e₀, he₀⟩
      cases stepWorker_effect h with
      | kept hcontents =>
          obtain ⟨e, he, -⟩ := hcontents.findEntry_back hs.wf hwf hfind
          exact Or.inl ⟨e, he⟩
      | created task now htask hpc hfree hnone hcache =>
          rw [hcache] at hlinked he'
          rcases Cache.created_linked.mp hlinked with hold | rfl
          · have hx : x ≠ s.cache.nextEntry := by
              rintro rfl
              obtain ⟨b, hb⟩ := hold
              obtain ⟨f, hf, -⟩ := hs.wf.linked b _ hb
              rw [hs.wf.entries_nextEntry] at hf
              cases hf
            rw [Cache.created_entries_of_ne hx] at he'
            exact Or.inl ⟨e', hs.wf.findEntry_eq_some_iff.mpr
              ⟨hold, he', hkey⟩⟩
          · rw [Cache.created_entries_new] at he'
            obtain rfl := Option.some.inj he'
            obtain ⟨now', ok, rfl⟩ := stepWorker_of_queued h htask hpc
            exact Or.inr ⟨rfl, t, now', ok, task, rfl, htask, hkey, hnone⟩
      | appended task e f htask hpc he hfkey hload hdata hcache =>
          exact Or.inl (hput he hfkey hcache)
      | finished task e f htask hpc he hfkey hload hdata hcache =>
          exact Or.inl (hput he hfkey hcache)
      | freed task y e htask hpc hfree hmem he hfkey hload hcache =>
          have hfrees :=
            hs.wf.removeEntry_frees (s.cache.bucketOf task.path) y
          rw [hcache] at hfind hwf
          exact Or.inl ⟨e', hfrees.findEntry_back hs.wf hwf hfind⟩

end Consistent

end Streaming
end Proxy
end OsFifthSem
