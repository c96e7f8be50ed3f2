import OsFifthSem.Proxy.Streaming.History
import OsFifthSem.Proxy.Streaming.Schedules

/-!
# One response from one entry

A write request keeps the key and its offset, not the entry it reads from.
While a write is pending the entry may be freed and the key loaded again, and
then the old offset is applied to the new response.  As long as no entry is
created for a key some of whose clients are already part of the way through a
response, everything a request is sent comes from one entry.
-/

namespace OsFifthSem
namespace Proxy
namespace Streaming

open Support State

/-- Every chunk of a request was read from the same entry. -/
def OneInstance (s : State) : Prop :=
  ∀ r w, s.reqs r = some w → ∀ x ∈ w.sources, ∀ y ∈ w.sources, x = y

/-- `cache_start_loading` creates no entry for a key while a request of that
key, not yet freed, has a positive `last_offset`. -/
def CreatesEarly (s : State) (a : Action) : Prop :=
  ∀ t now, a = .worker t (.startLoading now true) →
    ∀ task, s.tasks t = some task → s.cache.findEntry task.key = none →
      ∀ r w, s.reqs r = some w → w.Live → w.key = task.key → w.lastOffset = 0

/-- The invariant: what a live request was sent comes from the entry that its
next lookup would find, if there is one. -/
structure OneSource (s : State) : Prop where
  base : Consistent s
  agree : OneInstance s
  current : ∀ r w, s.reqs r = some w → w.Live → ∀ x ∈ w.sources,
    ∀ y e, s.cache.findEntry w.key = some (y, e) → x = y
  started : ∀ r w, s.reqs r = some w → w.streaming = true →
    w.lastOffset = 0 → w.sources = []

namespace OneSource

variable {s s' : State}

theorem init (numBuckets : ℕ) (defaultTtl : ℤ) :
    OneSource (.init numBuckets defaultTtl) where
  base := .init numBuckets defaultTtl
  agree := by simp [OneInstance, State.init]
  current := by simp [State.init]
  started := by simp [State.init]

/-- Everything a request inside a lookup was sent comes from the entry it has
found. -/
theorem sources_eq_entry
    (hs : OneSource s) {r : ℕ} {w : WriteReq} (hw : s.reqs r = some w)
    (hpc : w.pc = .inLookup) : ∀ x ∈ w.sources ++ [w.entry], x = w.entry := by
  intro x hx
  rcases List.mem_append.mp hx with hx | hx
  on_goal 2 => exact List.mem_singleton.mp hx
  by_cases hstream : w.streaming = true
  · obtain ⟨e, hfind, -⟩ := hs.base.found r w hw hpc
    exact hs.current r w hw
      (WriteReq.live_of_streaming hstream (Or.inr (Or.inl hpc))) x hx _ e hfind
  · have hempty := ((hs.base.fields r w hw).untouched (by simpa using hstream)
      (Or.inr (Or.inl hpc))).2.2
    simp [hempty] at hx

/-- What a step leaves of the search for the key of a request that has been
sent something. -/
theorem findEntry_back
    (hs : OneSource s) {a : Action} (hearly : CreatesEarly s a)
    (h : s.step a = some s') {r : ℕ} {w : WriteReq} (hw : s.reqs r = some w)
    (hlive : w.Live) (hsent : w.sources ≠ []) {y : ℕ} {e' : Entry}
    (hfind : s'.cache.findEntry w.key = some (y, e')) :
    ∃ e, s.cache.findEntry w.key = some (y, e) := by
  rcases hs.base.step_findEntry h hfind with
    hold | ⟨-, t, now, ok, task, rfl, htask, hkey, hnone⟩
  · exact hold
  · -- the entry is new, so the request has been sent nothing
    have hok : ok = true := by
      by_contra hne
      obtain rfl : ok = false := by simpa using hne
      obtain ⟨u, hu, -, -, ⟨x, e, hsome, -⟩ | ⟨-, hbad, -⟩ | ⟨-, -, rfl⟩⟩ :=
        startLoading_spec h
      · obtain rfl := Option.some.inj (htask.symm.trans hu)
        rw [hnone] at hsome
        cases hsome
      · cases hbad
      · have hbad : s.cache.findEntry w.key = some (y, e') := hfind
        rw [← hkey, hnone] at hbad
        cases hbad
    subst hok
    have hzero := hearly t now rfl task htask hnone r w hw hlive hkey.symm
    exact absurd (hs.started r w hw hlive.1 hzero) hsent

theorem of_step
    (hs : OneSource s) {a : Action} (hearly : CreatesEarly s a)
    (h : s.step a = some s') : OneSource s' := by
  have hbase := hs.base.of_step h
  refine ⟨hbase, ?_, ?_, ?_⟩
  · intro r w' hw' x hx y hy
    rcases hs.base.step_history h hw' with
      ⟨-, k, -, -, hnew⟩ | ⟨w, hw, -, hstep⟩
    · rw [hnew] at hx
      cases hx
    · have hsent : w.pc = .inLookup →
          w'.sources = w.sources ++ [w.entry] → x = y := by
        intro hpc hsources
        have hall := hs.sources_eq_entry hw hpc
        rw [hsources] at hx hy
        exact (hall x hx).trans (hall y hy).symm
      cases hstep with
      | same hsame =>
          rw [hsame.sources] at hx hy
          exact hs.agree r w hw x hx y hy
      | answered e now accepted hact hcontents hpc he hstream hload heq =>
          exact hsent hpc (heq ▸ rfl)
      | chunk e now accepted hact hcontents hpc hsite he hstream hlen heq =>
          exact hsent hpc (heq ▸ rfl)
  · intro r w' hw' hlive' x hx y e' hfind
    rcases hs.base.step_history h hw' with
      ⟨-, k, -, -, hnew⟩ | ⟨w, hw, hclient, hstep⟩
    · rw [hnew] at hx
      cases hx
    · rw [hclient.key] at hfind
      -- a request that was live and had been sent something
      have hold : w.Live → x ∈ w.sources → x = y := by
        intro hlive hmem
        obtain ⟨e, he⟩ := hs.findEntry_back hearly h hw hlive
          (List.ne_nil_of_mem hmem) hfind
        exact hs.current r w hw hlive x hmem y e he
      cases hstep with
      | same hsame hlive hstream =>
          rw [hsame.sources] at hx
          rcases hlive hlive' with hlive | hnot
          · exact hold hlive hx
          · rcases hstream hlive'.1 with hyes | ⟨-, hempty⟩
            · rw [hnot] at hyes
              cases hyes
            · rw [hempty] at hx
              cases hx
      | answered e now accepted hact hcontents hpc he hstream hload heq =>
          have hyes := hlive'.1
          rw [heq] at hyes
          simp [WriteReq.write, hstream] at hyes
      | chunk e now accepted hact hcontents hpc hsite he hstream hlen heq =>
          obtain ⟨f, hf, -⟩ :=
            hcontents.findEntry_back hs.base.wf hbase.wf hfind
          obtain ⟨f', hfound, -⟩ := hs.base.found r w hw hpc
          rw [hfound] at hf
          obtain ⟨rfl, -⟩ := Prod.mk.inj (Option.some.inj hf)
          have hsources : w'.sources = w.sources ++ [w.entry] := by
            rw [heq]
            rfl
          exact hs.sources_eq_entry hw hpc x (hsources ▸ hx)
  · intro r w' hw' hstream' hzero
    rcases hs.base.step_history h hw' with
      ⟨-, k, -, -, hnew⟩ | ⟨w, hw, hclient, hstep⟩
    · rw [hnew]
      rfl
    · cases hstep with
      | same hsame hlive hstream =>
          rw [hsame.lastOffset] at hzero
          rw [hsame.sources]
          rcases hstream hstream' with hyes | ⟨-, hempty⟩
          · exact hs.started r w hw hyes hzero
          · exact hempty
      | answered e now accepted hact hcontents hpc he hstream hload heq =>
          rw [heq] at hstream'
          simp [WriteReq.write, hstream] at hstream'
      | chunk e now accepted hact hcontents hpc hsite he hstream hlen heq =>
          have hpos : 0 < w'.lastOffset := by
            have hdata := take_drop_ne_nil hlen (by decide : 0 < packetSize)
            have hlen' := List.length_pos_of_ne_nil hdata
            rw [heq]
            exact Nat.add_pos_right _ hlen'
          omega

end OneSource

/-- As long as no entry is created for a key while one of its clients is part
of the way through a response, every request is served from one entry. -/
theorem oneInstance_of_createsEarly
    {s : State} (hs : proxy.ReachableUnder CreatesEarly s) :
    OneInstance s := by
  have hinv : OneSource s := by
    refine hs.invariant ?_ fun s a s' hs ha hstep => hs.of_step ha hstep
    rintro s ⟨numBuckets, defaultTtl, rfl⟩
    exact .init numBuckets defaultTtl
  exact hinv.agree

/-- A test for `CreatesEarly` in a system of `n` clients. -/
def createsEarly (n : ℕ) (s : State) : Action → Bool
  | .worker t (.startLoading _ _) =>
      (s.tasks t).all fun task =>
        (s.cache.findEntry task.key).isSome ||
          (List.range n).all fun r => (s.reqs r).all fun w =>
            decide (w.Live → w.key = task.key → w.lastOffset = 0)
  | _ => true

theorem createsEarly_sound
    (n : ℕ) (s : State) (a : Action) (hs : s.Below n)
    (h : createsEarly n s a = true) : CreatesEarly s a := by
  rintro t now rfl task htask hnone r w hw
  have hall : ∀ r < n, (s.reqs r).all (fun w =>
      decide (w.Live → w.key = task.key → w.lastOffset = 0)) = true := by
    simpa [createsEarly, htask, hnone] using h
  have hreq := hall r (hs.lt_of_req hw)
  rw [hw] at hreq
  exact of_decide_eq_true hreq

/-- The first load of the page fails before it delivers anything, and its
client is then served by the second one. -/
def failedLoad : List Action :=
  arriveFirst 0 rootRequest ++ beginLoad 0 ++ failLoad 0 ++
    arriveFirst 1 rootRequest ++ beginLoad 1 ++ deliver 1 [5, 6] ++
    sendChunk 0 ++ [.request 0 (.onWritten true)]

theorem oneInstance_of_createsEarly_failedLoad :
    ∃ s, proxy.runWhile (fun s a => a.within 2 && createsEarly 2 s a)
      (.init 1 100) failedLoad = some s ∧
      (s.reqs 0).map WriteReq.sources = some [1] ∧ OneInstance s := by
  have hrun : (proxy.runWhile (fun s a => a.within 2 && createsEarly 2 s a)
      (.init 1 100) failedLoad).map (fun s =>
        (s.reqs 0).map WriteReq.sources) = some (some [1]) := rfl
  obtain ⟨s, hs, hobs⟩ := Option.map_eq_some_iff.mp hrun
  exact ⟨s, hs, hobs, oneInstance_of_createsEarly
    (reachableUnder_of_runWhile (createsEarly_sound 2) hs)⟩

/-- The first load fails after the client was sent one byte, and the write
completes when another client has started the second load. -/
def reloadedBetweenChunks : List Action :=
  arriveFirst 0 rootRequest ++ beginLoad 0 ++ deliver 0 [1] ++ sendChunk 0 ++
    failLoad 0 ++ arriveFirst 1 rootRequest ++ beginLoad 1 ++
    deliver 1 [5, 6] ++ [.request 0 (.onWritten true)] ++ sendChunk 0

/-- The client goes on at offset 1 of the new response. -/
theorem reloadedBetweenChunks_splices :
    ∃ s, proxy.run (.init 1 100) reloadedBetweenChunks = some s ∧
      proxy.Reachable s ∧
      (s.reqs 0).map (fun w => (w.sources, w.sent)) =
        some ([0, 1], [1, 6]) ∧
      ¬ OneInstance s := by
  have hrun : (proxy.run (.init 1 100) reloadedBetweenChunks).map (fun s =>
      (s.reqs 0).map fun w => (w.sources, w.sent)) =
      some (some ([0, 1], [1, 6])) := rfl
  obtain ⟨s, hs, hobs⟩ := Option.map_eq_some_iff.mp hrun
  refine ⟨s, hs, .run (.initial (proxy_initial 1 100)) hs, hobs, fun h => ?_⟩
  obtain ⟨w, hw, hsent⟩ := Option.map_eq_some_iff.mp hobs
  have hsources := (Prod.mk.inj hsent).1
  have hbad := h 0 w hw 0 (by simp [hsources]) 1 (by simp [hsources])
  cases hbad

end Streaming
end Proxy
end OsFifthSem
