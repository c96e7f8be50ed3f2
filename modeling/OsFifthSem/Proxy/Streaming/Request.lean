import OsFifthSem.Proxy.Streaming.Steps

/-!
# A write request on its own

The outcomes of a lookup, read off `cache_lookup_partial` and the two switches
of `backend.c`, and the facts about the fields of a request that hold whatever
the cache does.
-/

namespace OsFifthSem
namespace Proxy
namespace Streaming

open Support

/-! ## The results of a lookup -/

theorem readEntry_existence (loading : Bool) (bytes : List UInt8) :
    (loading = false ∧
      readEntry loading bytes 0 0 = ⟨.found, bytes, some loading⟩) ∨
    (loading = true ∧
      ((readEntry loading bytes 0 0).status = .newLoaded ∨
        (readEntry loading bytes 0 0).status = .newNotLoaded)) := by
  cases loading with
  | false => exact Or.inl ⟨rfl, by simp [readEntry]⟩
  | true =>
      refine Or.inr ⟨rfl, ?_⟩
      cases bytes with
      | nil => exact Or.inr (by simp [readEntry])
      | cons b bytes => exact Or.inl (by simp [readEntry])

/-- The four results of a lookup with a positive maximum. -/
theorem readEntry_cases
    (loading : Bool) (bytes : List UInt8) (offset : ℕ) {maxSize : ℕ}
    (hmax : 0 < maxSize) :
    (loading = true ∧ bytes.length ≤ offset ∧
      readEntry loading bytes offset maxSize =
        ⟨.newNotLoaded, [], some loading⟩) ∨
    (loading = false ∧ bytes.length < offset ∧
      readEntry loading bytes offset maxSize = ⟨.error, [], some loading⟩) ∨
    (loading = false ∧ bytes.length = offset ∧
      readEntry loading bytes offset maxSize = ⟨.done, [], some loading⟩) ∨
    (offset < bytes.length ∧
      readEntry loading bytes offset maxSize =
        ⟨.newLoaded, (bytes.drop offset).take maxSize, some loading⟩) := by
  have hne : maxSize ≠ 0 := by omega
  rcases Nat.lt_trichotomy offset bytes.length with hlt | heq | hgt
  · refine Or.inr (Or.inr (Or.inr ⟨hlt, ?_⟩))
    have hge : ¬ bytes.length ≤ offset := by omega
    have hgt : ¬ bytes.length < offset := by omega
    by_cases hbig : maxSize < bytes.length - offset
    · simp [readEntry, hne, hge, hgt, hbig, hmax]
    · have htake : (bytes.drop offset).take (bytes.length - offset) =
          (bytes.drop offset).take maxSize := by
        rw [List.take_of_length_le (by simp),
          List.take_of_length_le (by simp; omega)]
      have hpos : 0 < bytes.length - offset := by omega
      simp [readEntry, hne, hge, hgt, hbig, hpos, htake]
  · subst heq
    cases loading with
    | true => exact Or.inl ⟨rfl, le_rfl, by simp [readEntry]⟩
    | false =>
        exact Or.inr (Or.inr (Or.inl ⟨rfl, rfl, by simp [readEntry, hne]⟩))
  · have hle : bytes.length ≤ offset := by omega
    cases loading with
    | true => exact Or.inl ⟨rfl, hle, by simp [readEntry, hle]⟩
    | false =>
        exact Or.inr (Or.inl ⟨rfl, hgt, by simp [readEntry, hne, hgt]⟩)

/-- A chunk cut out in front of the end is not empty. -/
theorem take_drop_ne_nil
    {bytes : List UInt8} {offset maxSize : ℕ} (hlen : offset < bytes.length)
    (hmax : 0 < maxSize) : (bytes.drop offset).take maxSize ≠ [] := by
  apply List.ne_nil_of_length_pos
  rw [List.length_take, List.length_drop]
  omega

namespace WriteReq

/-- What a request becomes when its lookup has found entry `a` with the
contents `bytes`, and had read `loading` before. -/
inductive LookupOutcome (w : WriteReq) (a : ℕ) (bytes : List UInt8)
    (accepted : Bool) : WriteReq → Prop
  /-- `read_client`: the response is complete and sent at once. -/
  | answered (hsite : w.site = .readClient) (hload : w.loading = false) :
      LookupOutcome w a bytes accepted
        { w.write a bytes accepted with pc := .idle }
  /-- `read_client`: the response is loading. -/
  | follow (hsite : w.site = .readClient) (hload : w.loading = true) :
      LookupOutcome w a bytes accepted (w.beginStreaming false)
  /-- `send_next_chunk`: nothing new yet. -/
  | wait (hsite : w.site = .sendNextChunk) (hload : w.loading = true)
      (hlen : bytes.length ≤ w.lastOffset) :
      LookupOutcome w a bytes accepted (w.registerOnce true)
  /-- `send_next_chunk`: the offset lies behind the end of the entry. -/
  | tooFar (hsite : w.site = .sendNextChunk) (hload : w.loading = false)
      (hlen : bytes.length < w.lastOffset) :
      LookupOutcome w a bytes accepted (w.release .cacheError)
  /-- `send_next_chunk`: everything is sent. -/
  | complete (hsite : w.site = .sendNextChunk) (hload : w.loading = false)
      (hlen : bytes.length = w.lastOffset) :
      LookupOutcome w a bytes accepted (w.release .cacheDone)
  /-- `send_next_chunk`: the next chunk is written. -/
  | chunk (hsite : w.site = .sendNextChunk)
      (hlen : w.lastOffset < bytes.length) :
      LookupOutcome w a bytes accepted
        { w.write a ((bytes.drop w.lastOffset).take packetSize) accepted with
          pc := .idle
          lastOffset := w.lastOffset +
            ((bytes.drop w.lastOffset).take packetSize).length
          writePending := accepted }
  /-- The second lookup: still nothing new. -/
  | stay (hsite : w.site = .recheck) (hload : w.loading = true)
      (hlen : bytes.length ≤ w.lastOffset) :
      LookupOutcome w a bytes accepted { w with pc := .idle }
  /-- The second lookup: there is something to do. -/
  | again (hsite : w.site = .recheck) :
      LookupOutcome w a bytes accepted w.sendNextChunk

theorem afterLookup_outcome
    (w : WriteReq) (a : ℕ) (bytes : List UInt8) (accepted : Bool) :
    w.LookupOutcome a bytes accepted
      (w.afterLookup a
        (readEntry w.loading bytes w.lookupArgs.1 w.lookupArgs.2)
        accepted) := by
  have hpacket : 0 < packetSize := by decide
  cases hsite : w.site with
  | readClient =>
      have hargs : w.lookupArgs = (0, 0) := by simp [lookupArgs, hsite]
      have hfollow : w.loading = true →
          w.LookupOutcome a bytes accepted (w.beginStreaming false) :=
        .follow hsite
      rw [hargs]
      rcases readEntry_existence w.loading bytes with
        ⟨hload, hres⟩ | ⟨hload, hres | hres⟩
      · have hout : w.LookupOutcome a bytes accepted
            { w.write a bytes accepted with pc := .idle } :=
          .answered hsite hload
        simpa [afterLookup, hsite, afterCacheLookup, hres] using hout
      · simpa [afterLookup, hsite, afterCacheLookup, hres] using hfollow hload
      · simpa [afterLookup, hsite, afterCacheLookup, hres] using hfollow hload
  | sendNextChunk =>
      have hargs : w.lookupArgs = (w.lastOffset, packetSize) := by
        simp [lookupArgs, hsite]
      have hafter : ∀ res, w.afterLookup a res accepted =
          w.afterSendLookup a res accepted := by
        simp [afterLookup, hsite]
      rw [hargs, hafter]
      rcases readEntry_cases w.loading bytes w.lastOffset hpacket with
        ⟨hload, hlen, hres⟩ | ⟨hload, hlen, hres⟩ | ⟨hload, hlen, hres⟩ |
        ⟨hlen, hres⟩
      · rw [hres]
        exact .wait hsite hload hlen
      · rw [hres]
        exact .tooFar hsite hload hlen
      · have hdone : w.afterSendLookup a ⟨.done, [], some w.loading⟩ accepted =
            w.release .cacheDone := by
          simp [afterSendLookup, hload]
        rw [hres, hdone]
        exact .complete hsite hload hlen
      · have hdata := take_drop_ne_nil hlen hpacket
        rw [hres]
        simp only [afterSendLookup, hdata, ne_eq, not_false_eq_true, if_true]
        exact .chunk hsite hlen
  | recheck =>
      have hargs : w.lookupArgs = (w.lastOffset, packetSize) := by
        simp [lookupArgs, hsite]
      have hafter : ∀ res, w.afterLookup a res accepted =
          w.afterRecheck res := by
        simp [afterLookup, hsite]
      have hagain : ∀ {data : List UInt8} {loading : Bool},
          data ≠ [] ∨ loading = false →
          ∀ status, w.LookupOutcome a bytes accepted
            (w.afterRecheck ⟨status, data, some loading⟩) := by
        intro data loading hcond status
        rw [afterRecheck, if_pos (by simpa using hcond)]
        exact .again hsite
      rw [hargs, hafter]
      rcases readEntry_cases w.loading bytes w.lastOffset hpacket with
        ⟨hload, hlen, hres⟩ | ⟨hload, -, hres⟩ | ⟨hload, -, hres⟩ |
        ⟨hlen, hres⟩
      · rw [hres, afterRecheck, if_neg (by simp [hload])]
        exact .stay hsite hload hlen
      · rw [hres]
        exact hagain (Or.inr hload) _
      · rw [hres]
        exact hagain (Or.inr hload) _
      · rw [hres]
        exact hagain (Or.inl (take_drop_ne_nil hlen hpacket)) _

/-- What a request becomes when its lookup finds no entry. -/
inductive MissOutcome (w : WriteReq) : WriteReq → Prop
  /-- `read_client`: a worker is launched. -/
  | launch (hsite : w.site = .readClient) :
      MissOutcome w { w with pc := .launch }
  /-- `send_next_chunk`: register, without a second lookup. -/
  | register (hsite : w.site = .sendNextChunk) :
      MissOutcome w (w.registerOnce false)
  /-- The second lookup: start over. -/
  | again (hsite : w.site = .recheck) : MissOutcome w w.sendNextChunk

theorem afterLookup_missing (w : WriteReq) (a : ℕ) (accepted : Bool) :
    w.MissOutcome (w.afterLookup a .missing accepted) := by
  cases hsite : w.site with
  | readClient =>
      have hout : w.MissOutcome { w with pc := .launch } := .launch hsite
      simpa [afterLookup, hsite, afterCacheLookup, LookupResult.missing]
        using hout
  | sendNextChunk =>
      have hout : w.MissOutcome (w.registerOnce false) := .register hsite
      simpa [afterLookup, hsite, afterSendLookup, LookupResult.missing]
        using hout
  | recheck =>
      have hout : w.MissOutcome w.sendNextChunk := .again hsite
      simpa [afterLookup, hsite, afterRecheck, LookupResult.missing]
        using hout

/-- What its own step makes of request `w`, and of the system around it. -/
inductive OwnStep (s s' : State) (r : ℕ) (w : WriteReq) :
    ReqStep → WriteReq → Prop
  /-- The lookup finds entry `a` and goes on under the lock. -/
  | lookupHit (a : ℕ) (e : Entry) (hpc : w.pc = .lookup)
      (hfree : s.Unlocked w.key)
      (hfind : s.cache.findEntry w.key = some (a, e))
      (hs' : s' =
        (s.setLock (s.cache.bucketOf w.key) (some (.request r))).setReq r
          { w with pc := .inLookup, entry := a, loading := e.isLoading }) :
      OwnStep s s' r w .lookupBegin
        { w with pc := .inLookup, entry := a, loading := e.isLoading }
  | lookupMiss (w' : WriteReq) (hpc : w.pc = .lookup)
      (hfind : s.cache.findEntry w.key = none)
      (hcache : s'.cache = { s.cache with misses := s.cache.misses + 1 })
      (hout : w.MissOutcome w') : OwnStep s s' r w .lookupBegin w'
  | lookupEnd (now : ℤ) (accepted : Bool) (e : Entry) (w' : WriteReq)
      (hpc : w.pc = .inLookup) (he : s.cache.entries w.entry = some e)
      (hout : w.LookupOutcome w.entry e.data accepted w') :
      OwnStep s s' r w (.lookupEnd now accepted) w'
  | launched (hpc : w.pc = .launch)
      (htasks : s'.tasks r = some (.launched w.req w.key)) :
      OwnStep s s' r w (.launchBgw true) (w.beginStreaming true)
  | notLaunched (hpc : w.pc = .launch) :
      OwnStep s s' r w (.launchBgw false) { w with pc := .released }
  | registerWaiter (ok : Bool) (hpc : w.pc = .register)
      (hcache : s'.cache = (s.cache.registerWaiter w.key r ok).2) :
      OwnStep s s' r w (.registerWaiter ok) w.afterRegister
  | onDataReady (hpc : w.pc = .idle) (hstream : w.streaming = true) :
      OwnStep s s' r w .onDataReady w.onDataReady
  | onWritten (ok : Bool) (hpc : w.pc = .idle) (hflight : w.inFlight ≠ []) :
      OwnStep s s' r w (.onWritten ok) (w.onWritten ok)
  | unregisterWaiter (hpc : w.pc = .unregister) :
      OwnStep s s' r w .unregisterWaiter { w with pc := .cancelBgw }
  | cancelBgw (hpc : w.pc = .cancelBgw) :
      OwnStep s s' r w .cancelBgw { w with pc := .released }
  | onAsyncClose (hpc : w.pc = .released) :
      OwnStep s s' r w .onAsyncClose { w with pc := .freed }

theorem ownStep_of_stepRequest
    {s s' : State} {r : ℕ} {a : ReqStep} (h : s.stepRequest r a = some s')
    {w w' : WriteReq} (hw : s.reqs r = some w) (hw' : s'.reqs r = some w') :
    w.OwnStep s s' r a w' := by
  have hsame : ∀ {v : WriteReq}, s.reqs r = some v → v = w := by
    intro v hv
    exact Option.some.inj (hv.symm.trans hw)
  cases a with
  | readClient x =>
      obtain ⟨hnone, -⟩ := State.readClient_spec h
      rw [hw] at hnone
      cases hnone
  | lookupBegin =>
      obtain ⟨v, hv, hpc, hfree, ⟨a, e, hfind, rfl⟩ | ⟨hfind, rfl⟩⟩ :=
        State.lookupBegin_spec h
      · obtain rfl := hsame hv
        obtain rfl := State.eq_of_setReq hw'
        exact .lookupHit a e hpc hfree hfind rfl
      · obtain rfl := hsame hv
        obtain rfl := State.eq_of_setReq hw'
        exact .lookupMiss _ hpc hfind rfl (v.afterLookup_missing 0 false)
  | lookupEnd now accepted =>
      obtain ⟨v, e, hv, hpc, he, rfl⟩ := State.lookupEnd_spec h
      obtain rfl := hsame hv
      obtain rfl := State.eq_of_setReq hw'
      exact .lookupEnd now accepted e _ hpc he
        (v.afterLookup_outcome v.entry e.data accepted)
  | launchBgw ok =>
      obtain ⟨v, hv, hpc, ⟨rfl, rfl⟩ | ⟨rfl, rfl⟩⟩ := State.launchBgw_spec h
      · obtain rfl := hsame hv
        obtain rfl := State.eq_of_setReq hw'
        exact .launched hpc (State.setTask_self ..)
      · obtain rfl := hsame hv
        obtain rfl := State.eq_of_setReq hw'
        exact .notLaunched hpc
  | registerWaiter ok =>
      obtain ⟨v, hv, hpc, -, rfl⟩ := State.registerWaiter_spec h
      obtain rfl := hsame hv
      obtain rfl := State.eq_of_setReq hw'
      exact .registerWaiter ok hpc rfl
  | onDataReady =>
      obtain ⟨v, hv, hpc, hstream, -, rfl⟩ := State.onDataReady_spec h
      obtain rfl := hsame hv
      obtain rfl := State.eq_of_setReq hw'
      exact .onDataReady hpc hstream
  | onWritten ok =>
      obtain ⟨v, hv, hpc, hflight, rfl⟩ := State.onWritten_spec h
      obtain rfl := hsame hv
      obtain rfl := State.eq_of_setReq hw'
      exact .onWritten ok hpc hflight
  | unregisterWaiter =>
      obtain ⟨v, hv, hpc, -, rfl⟩ := State.unregisterWaiter_spec h
      obtain rfl := hsame hv
      obtain rfl := State.eq_of_setReq hw'
      exact .unregisterWaiter hpc
  | cancelBgw =>
      obtain ⟨v, hv, hpc, rfl⟩ := State.cancelBgw_spec h
      obtain rfl := hsame hv
      obtain rfl := State.eq_of_setReq hw'
      exact .cancelBgw hpc
  | onAsyncClose =>
      obtain ⟨v, hv, hpc, rfl⟩ := State.onAsyncClose_spec h
      obtain rfl := hsame hv
      obtain rfl := State.eq_of_setReq hw'
      exact .onAsyncClose hpc

/-! ## The fields of a request -/

/-- What holds of the fields of every request.  In particular a streaming
request has one write in flight while `write_pending` is set and none
otherwise, and it is in the middle of a function only when none is. -/
structure Ok (w : WriteReq) : Prop where
  unlaunched : w.streaming = false → w.launched = false
  unregistered : w.streaming = false → w.didRegister = false
  unsent : w.streaming = false → w.lastOffset = 0
  notWriting : w.streaming = false → w.writePending = false
  firstSite : w.streaming = false → w.pc = .lookup ∨ w.pc = .inLookup →
    w.site = .readClient
  untouched : w.streaming = false →
    w.pc = .lookup ∨ w.pc = .inLookup ∨ w.pc = .launch →
      w.inFlight = [] ∧ w.sent = [] ∧ w.sources = []
  laterSite : w.streaming = true → w.site ≠ .readClient
  notLaunching : w.streaming = true → w.pc ≠ .launch
  ownPc : w.pc = .register ∨ w.pc = .unregister → w.streaming = true
  isLoading : w.streaming = true → w.isLoading = true
  writing : w.writePending = true → w.pc = .idle ∧ w.inFlight.length = 1
  notPending : w.streaming = true → w.writePending = false → w.inFlight = []
  rechecks : w.site = .recheck → w.pc = .lookup ∨ w.pc = .inLookup →
    w.didRegister = true
  registers : w.pc = .register → w.didRegister = false

namespace Ok

variable {w w' : WriteReq}

theorem arrived (x : HttpReq) (key : CString) : (arrived x key).Ok := by
  constructor <;> simp [WriteReq.arrived]

theorem notify (h : w.Ok) : w.notify.Ok := by
  unfold WriteReq.notify
  split
  · exact h
  · exact { h with }

theorem sendNextChunk (h : w.Ok) (hstream : w.streaming = true) :
    w.sendNextChunk.Ok := by
  unfold WriteReq.sendNextChunk
  have hload := h.isLoading hstream
  split
  next hpending =>
    have hwriting := h.writing hpending
    constructor <;> simp_all [h.laterSite hstream]
  next hpending =>
    have hempty := h.notPending hstream (by simpa using hpending)
    constructor <;> simp_all

theorem registerOnce
    (h : w.Ok) (hstream : w.streaming = true) (hpending : w.writePending = false)
    (recheck : Bool) : (w.registerOnce recheck).Ok := by
  unfold WriteReq.registerOnce
  have hload := h.isLoading hstream
  have hempty := h.notPending hstream hpending
  have hsite := h.laterSite hstream
  split
  · constructor <;> simp_all
  · constructor <;> simp_all

theorem release
    (h : w.Ok) (hstream : w.streaming = true) (hpending : w.writePending = false)
    (cause : ReleaseCause) : (w.release cause).Ok := by
  have hload := h.isLoading hstream
  have hempty := h.notPending hstream hpending
  have hsite := h.laterSite hstream
  constructor <;> simp_all [WriteReq.release]

theorem beginStreaming
    (h : w.Ok) (hstream : w.streaming = false)
    (hpc : w.pc = .inLookup ∨ w.pc = .launch) (launched : Bool) :
    (w.beginStreaming launched).Ok := by
  have huntouched := h.untouched hstream (Or.inr hpc)
  have hpending := h.notWriting hstream
  constructor <;> simp_all [WriteReq.beginStreaming, WriteReq.sendNextChunk]

/-- A request in the middle of a function has no write in flight. -/
theorem not_writing
    (h : w.Ok) (hpc : w.pc ≠ .idle) : w.writePending = false := by
  by_contra hne
  exact hpc (h.writing (by simpa using hne)).1

/-- A request that looks up for the second time, or for its next chunk, is
streaming. -/
theorem streaming_of_site
    (h : w.Ok) (hpc : w.pc = .lookup ∨ w.pc = .inLookup)
    (hsite : w.site ≠ .readClient) : w.streaming = true := by
  by_contra hne
  exact hsite (h.firstSite (by simpa using hne) hpc)

theorem not_streaming_of_site
    (h : w.Ok) (hsite : w.site = .readClient) : w.streaming = false := by
  by_contra hne
  exact h.laterSite (by simpa using hne) hsite

theorem not_streaming_of_launch
    (h : w.Ok) (hpc : w.pc = .launch) : w.streaming = false := by
  by_contra hne
  exact h.notLaunching (by simpa using hne) hpc

theorem enterLookup
    (h : w.Ok) (hpc : w.pc = .lookup) (a : ℕ) (loading : Bool) :
    { w with pc := .inLookup, entry := a, loading := loading }.Ok := by
  have hpending := h.not_writing (by simp [hpc])
  obtain ⟨h1, h2, h3, h4, h5, h6, h7, h8, h9, h10, h11, h12, h13, h14⟩ := h
  constructor <;> simp_all

theorem afterMiss
    (h : w.Ok) (hpc : w.pc = .lookup) (hout : w.MissOutcome w') : w'.Ok := by
  have hpending := h.not_writing (by simp [hpc])
  cases hout with
  | launch hsite =>
      have hstream := h.not_streaming_of_site hsite
      obtain ⟨h1, h2, h3, h4, h5, h6, h7, h8, h9, h10, h11, h12, h13, h14⟩ := h
      constructor <;> simp_all
  | register hsite =>
      have hstream := h.streaming_of_site (Or.inl hpc) (by simp [hsite])
      exact h.registerOnce hstream hpending false
  | again hsite =>
      have hstream := h.streaming_of_site (Or.inl hpc) (by simp [hsite])
      exact h.sendNextChunk hstream

theorem afterLookup
    (h : w.Ok) (hpc : w.pc = .inLookup) {a : ℕ} {bytes : List UInt8}
    {accepted : Bool} (hout : w.LookupOutcome a bytes accepted w') :
    w'.Ok := by
  have hpending := h.not_writing (by simp [hpc])
  have hstream : w.site ≠ .readClient → w.streaming = true :=
    h.streaming_of_site (Or.inr hpc)
  cases hout with
  | answered hsite hload =>
      have hnot := h.not_streaming_of_site hsite
      obtain ⟨h1, h2, h3, h4, h5, h6, h7, h8, h9, h10, h11, h12, h13, h14⟩ := h
      constructor <;> simp_all [write]
  | follow hsite hload =>
      exact h.beginStreaming (h.not_streaming_of_site hsite) (Or.inl hpc) false
  | wait hsite hload hlen =>
      exact h.registerOnce (hstream (by simp [hsite])) hpending true
  | tooFar hsite hload hlen =>
      exact h.release (hstream (by simp [hsite])) hpending _
  | complete hsite hload hlen =>
      exact h.release (hstream (by simp [hsite])) hpending _
  | chunk hsite hlen =>
      have hs := hstream (by simp [hsite])
      have hload := h.isLoading hs
      have hempty := h.notPending hs hpending
      constructor <;> simp_all [write]
  | stay hsite hload hlen =>
      have hs := hstream (by simp [hsite])
      have hload := h.isLoading hs
      have hempty := h.notPending hs hpending
      constructor <;> simp_all
  | again hsite => exact h.sendNextChunk (hstream (by simp [hsite]))

theorem drop
    (h : w.Ok) (hpc : w.pc ≠ .idle) {pc : ReqPc}
    (hgone : pc = .released ∨ pc = .freed) : { w with pc := pc }.Ok := by
  have hpending := h.not_writing hpc
  obtain ⟨h1, h2, h3, h4, h5, h6, h7, h8, h9, h10, h11, h12, h13, h14⟩ := h
  rcases hgone with rfl | rfl
  · constructor <;> simp_all
  · constructor <;> simp_all

theorem afterRegister (h : w.Ok) (hpc : w.pc = .register) :
    w.afterRegister.Ok := by
  have hstream := h.ownPc (Or.inl hpc)
  have hpending := h.not_writing (by simp [hpc])
  have hload := h.isLoading hstream
  have hempty := h.notPending hstream hpending
  have hsite := h.laterSite hstream
  unfold WriteReq.afterRegister
  split
  · constructor <;> simp_all
  · constructor <;> simp_all

theorem onDataReady
    (h : w.Ok) (hstream : w.streaming = true) : w.onDataReady.Ok := by
  have hqueue : { w with queued := false }.Ok := { h with }
  unfold WriteReq.onDataReady
  split
  · exact hqueue
  · exact hqueue.sendNextChunk hstream

theorem onWritten
    (h : w.Ok) (hflight : w.inFlight ≠ []) (ok : Bool) :
    (w.onWritten ok).Ok := by
  unfold WriteReq.onWritten
  by_cases hstream : w.streaming = true
  · have hpending : w.writePending = true := by
      by_contra hne
      exact hflight (h.notPending hstream (by simpa using hne))
    have htail : w.inFlight.tail = [] := by
      have hlen := (h.writing hpending).2
      exact List.eq_nil_of_length_eq_zero (by simp [hlen])
    have hload := h.isLoading hstream
    have hsite := h.laterSite hstream
    have hidle := (h.writing hpending).1
    -- the request with the completed write taken off
    have hbase : { w with
        inFlight := w.inFlight.tail, writePending := false }.Ok := by
      constructor <;> simp_all
    cases ok with
    | false => simpa [hstream] using hbase.release hstream rfl .writeStatus
    | true => simpa [hstream, hload] using hbase.sendNextChunk hstream
  · have hstream' : w.streaming = false := by simpa using hstream
    obtain ⟨h1, h2, h3, h4, h5, h6, h7, h8, h9, h10, h11, h12, h13, h14⟩ := h
    constructor <;> simp_all [WriteReq.release]

theorem afterUnregister (h : w.Ok) (hpc : w.pc = .unregister) :
    { w with pc := .cancelBgw }.Ok := by
  have hpending := h.not_writing (by simp [hpc])
  obtain ⟨h1, h2, h3, h4, h5, h6, h7, h8, h9, h10, h11, h12, h13, h14⟩ := h
  constructor <;> simp_all

end Ok

/-! ## What stays the same -/

/-- The request, its key, and its task if it has one, stay. -/
structure SameClient (w w' : WriteReq) : Prop where
  req : w'.req = w.req
  key : w'.key = w.key
  streaming : w.streaming = true → w'.streaming = true
  launched : w.streaming = true → w'.launched = w.launched

namespace SameClient

variable {w w' : WriteReq}

theorem refl (w : WriteReq) : w.SameClient w := ⟨rfl, rfl, id, fun _ => rfl⟩

theorem notify (w : WriteReq) : w.SameClient w.notify := by
  unfold WriteReq.notify
  split <;> exact ⟨rfl, rfl, id, fun _ => rfl⟩

theorem sendNextChunk (w : WriteReq) : w.SameClient w.sendNextChunk := by
  unfold WriteReq.sendNextChunk
  split <;> exact ⟨rfl, rfl, id, fun _ => rfl⟩

theorem beginStreaming
    (hstream : w.streaming = false) (launched : Bool) :
    w.SameClient (w.beginStreaming launched) := by
  unfold WriteReq.beginStreaming WriteReq.sendNextChunk
  split <;> exact ⟨rfl, rfl, fun _ => rfl, by simp [hstream]⟩

theorem registerOnce (w : WriteReq) (recheck : Bool) :
    w.SameClient (w.registerOnce recheck) := by
  unfold WriteReq.registerOnce
  split <;> exact ⟨rfl, rfl, id, fun _ => rfl⟩

theorem afterRegister (w : WriteReq) : w.SameClient w.afterRegister := by
  unfold WriteReq.afterRegister
  split <;> exact ⟨rfl, rfl, id, fun _ => rfl⟩

theorem onDataReady (w : WriteReq) : w.SameClient w.onDataReady := by
  unfold WriteReq.onDataReady
  split
  · exact ⟨rfl, rfl, id, fun _ => rfl⟩
  · have hsame := sendNextChunk { w with queued := false }
    exact ⟨hsame.req, hsame.key, hsame.streaming, hsame.launched⟩

theorem onWritten (w : WriteReq) (ok : Bool) :
    w.SameClient (w.onWritten ok) := by
  unfold WriteReq.onWritten
  dsimp only
  split
  · split
    · exact ⟨rfl, rfl, id, fun _ => rfl⟩
    · split
      · have hsame := sendNextChunk
          { w with inFlight := w.inFlight.tail, writePending := false }
        exact ⟨hsame.req, hsame.key, hsame.streaming, hsame.launched⟩
      · exact ⟨rfl, rfl, id, fun _ => rfl⟩
  · exact ⟨rfl, rfl, id, fun _ => rfl⟩

theorem afterMiss (hout : w.MissOutcome w') : w.SameClient w' := by
  cases hout with
  | launch hsite => exact ⟨rfl, rfl, id, fun _ => rfl⟩
  | register hsite => exact registerOnce w false
  | again hsite => exact sendNextChunk w

theorem afterLookup
    (hok : w.Ok) {a : ℕ} {bytes : List UInt8} {accepted : Bool}
    (hout : w.LookupOutcome a bytes accepted w') : w.SameClient w' := by
  cases hout with
  | answered hsite hload => exact ⟨rfl, rfl, id, fun _ => rfl⟩
  | follow hsite hload =>
      exact beginStreaming (hok.not_streaming_of_site hsite) false
  | wait hsite hload hlen => exact registerOnce w true
  | tooFar hsite hload hlen => exact ⟨rfl, rfl, id, fun _ => rfl⟩
  | complete hsite hload hlen => exact ⟨rfl, rfl, id, fun _ => rfl⟩
  | chunk hsite hlen => exact ⟨rfl, rfl, id, fun _ => rfl⟩
  | stay hsite hload hlen => exact ⟨rfl, rfl, id, fun _ => rfl⟩
  | again hsite => exact sendNextChunk w

end SameClient

/-! ## Leaving a lookup -/

section Outside

variable {w w' : WriteReq}

theorem sendNextChunk_pc (w : WriteReq) : w.sendNextChunk.pc ≠ .inLookup := by
  unfold sendNextChunk
  split <;> simp

theorem beginStreaming_pc (w : WriteReq) (launched : Bool) :
    (w.beginStreaming launched).pc ≠ .inLookup :=
  sendNextChunk_pc _

theorem registerOnce_pc (w : WriteReq) (recheck : Bool) :
    (w.registerOnce recheck).pc ≠ .inLookup := by
  unfold registerOnce
  split <;> simp

theorem release_pc (w : WriteReq) (cause : ReleaseCause) :
    (w.release cause).pc ≠ .inLookup := by
  unfold release
  dsimp only
  split <;> simp

theorem afterRegister_pc (w : WriteReq) : w.afterRegister.pc ≠ .inLookup := by
  unfold afterRegister
  split <;> simp

theorem onDataReady_pc (hpc : w.pc = .idle) :
    w.onDataReady.pc ≠ .inLookup := by
  unfold onDataReady
  split
  · simp [hpc]
  · exact sendNextChunk_pc _

theorem onWritten_pc (w : WriteReq) (ok : Bool) :
    (w.onWritten ok).pc ≠ .inLookup := by
  unfold onWritten
  dsimp only
  split
  · split
    · exact release_pc _ _
    · split
      · exact sendNextChunk_pc _
      · exact release_pc _ _
  · exact release_pc _ _

theorem MissOutcome.pc_ne (hout : w.MissOutcome w') : w'.pc ≠ .inLookup := by
  cases hout with
  | launch hsite => simp
  | register hsite => exact registerOnce_pc w false
  | again hsite => exact sendNextChunk_pc w

theorem LookupOutcome.pc_ne
    {a : ℕ} {bytes : List UInt8} {accepted : Bool}
    (hout : w.LookupOutcome a bytes accepted w') : w'.pc ≠ .inLookup := by
  cases hout with
  | answered hsite hload => simp
  | follow hsite hload => exact beginStreaming_pc w false
  | wait hsite hload hlen => exact registerOnce_pc w true
  | tooFar hsite hload hlen => exact release_pc w _
  | complete hsite hload hlen => exact release_pc w _
  | chunk hsite hlen => simp
  | stay hsite hload hlen => simp
  | again hsite => exact sendNextChunk_pc w

end Outside

/-! ## Being released -/

section Released

variable {w w' : WriteReq}

@[simp] theorem notify_releasedBy (w : WriteReq) :
    w.notify.releasedBy = w.releasedBy := by
  unfold notify
  split <;> rfl

@[simp] theorem sendNextChunk_releasedBy (w : WriteReq) :
    w.sendNextChunk.releasedBy = w.releasedBy := by
  unfold sendNextChunk
  split <;> rfl

@[simp] theorem beginStreaming_releasedBy (w : WriteReq) (launched : Bool) :
    (w.beginStreaming launched).releasedBy = w.releasedBy := by
  simp [beginStreaming]

@[simp] theorem registerOnce_releasedBy (w : WriteReq) (recheck : Bool) :
    (w.registerOnce recheck).releasedBy = w.releasedBy := by
  unfold registerOnce
  split <;> rfl

@[simp] theorem afterRegister_releasedBy (w : WriteReq) :
    w.afterRegister.releasedBy = w.releasedBy := by
  unfold afterRegister
  split <;> rfl

@[simp] theorem onDataReady_releasedBy (w : WriteReq) :
    w.onDataReady.releasedBy = w.releasedBy := by
  unfold onDataReady
  split
  · rfl
  · simp

/-- The completion of a write does not end a request as done. -/
theorem onWritten_releasedBy (w : WriteReq) (ok : Bool) :
    (w.onWritten ok).releasedBy = w.releasedBy ∨
      (w.onWritten ok).releasedBy ≠ some .cacheDone := by
  unfold onWritten
  dsimp only
  split
  · split
    · exact Or.inr (by simp [release])
    · split
      · exact Or.inl (by simp)
      · exact Or.inr (by simp [release])
  · exact Or.inr (by simp [release])

theorem MissOutcome.releasedBy_eq (hout : w.MissOutcome w') :
    w'.releasedBy = w.releasedBy := by
  cases hout with
  | launch hsite => rfl
  | register hsite => simp
  | again hsite => simp

/-- A lookup ends a request as done only when the entry is finished and has
no more bytes. -/
theorem LookupOutcome.cacheDone
    {a : ℕ} {bytes : List UInt8} {accepted : Bool}
    (hout : w.LookupOutcome a bytes accepted w')
    (hnot : w.releasedBy ≠ some .cacheDone)
    (hdone : w'.releasedBy = some .cacheDone) :
    w.site = .sendNextChunk ∧ w.loading = false ∧
      bytes.length = w.lastOffset ∧ w' = w.release .cacheDone := by
  cases hout with
  | complete hsite hload hlen => exact ⟨hsite, hload, hlen, rfl⟩
  | answered hsite hload => exact absurd hdone hnot
  | follow hsite hload => exact absurd (by simpa using hdone) hnot
  | wait hsite hload hlen => exact absurd (by simpa using hdone) hnot
  | tooFar hsite hload hlen => simp [release] at hdone
  | chunk hsite hlen => exact absurd hdone hnot
  | stay hsite hload hlen => exact absurd hdone hnot
  | again hsite => exact absurd (by simpa using hdone) hnot

end Released

end WriteReq

end Streaming
end Proxy
end OsFifthSem
