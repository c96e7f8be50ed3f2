import OsFifthSem.Proxy.Streaming.History
import OsFifthSem.Proxy.Streaming.Schedules

/-!
# The key and the resource

Everything a request is sent was appended by workers of its key, so a request
is answered with the response of its own URL as long as the key determines
the URL.  The key is the path with the referer behind it and nothing in
between; two requests get the same key and differ in a part exactly when they
are `Confusable`.
-/

namespace OsFifthSem
namespace Proxy
namespace Streaming

open Support State

/-- What a request was sent was fetched from the URL it asked for. -/
def OwnUrlOnly (s : State) : Prop :=
  ∀ r w, s.reqs r = some w → ∀ x ∈ w.sources, ∀ p ∈ s.appends x,
    ∃ task, s.tasks p.1 = some task ∧ task.path = w.req.urlPath

/-- A request that arrives is not confusable with one that arrived before. -/
def ArrivesDistinct (s : State) (a : Action) : Prop :=
  ∀ r x, a = .request r (.readClient x) →
    ∀ r' w, s.reqs r' = some w → ¬ x.Confusable w.req

/-- Every chunk in `l` was appended by a worker of `key`. -/
def WrittenFor (s : State) (key : CString) (l : List (ℕ × List UInt8)) : Prop :=
  ∀ p ∈ l, ∃ task, s.tasks p.1 = some task ∧ task.key = key

/-- Entries and requests are filled by the workers of their key. -/
structure FilledByKey (s : State) : Prop where
  base : Consistent s
  writers : ∀ x e, s.cache.entries x = some e →
    WrittenFor s e.key (s.appends x)
  sources : ∀ r w, s.reqs r = some w → ∀ x ∈ w.sources,
    x < s.cache.nextEntry ∧
      (∀ e, s.cache.entries x = some e → e.key = w.key) ∧
      WrittenFor s w.key (s.appends x)

namespace FilledByKey

variable {s s' : State}

theorem init (numBuckets : ℕ) (defaultTtl : ℤ) :
    FilledByKey (.init numBuckets defaultTtl) where
  base := .init numBuckets defaultTtl
  writers := by simp [State.init, Cache.init]
  sources := by simp [State.init]

/-- The writers of an entry keep their key, and a new one has it too. -/
theorem writtenFor_of_step
    (hs : FilledByKey s) {a : Action} (h : s.step a = some s') {x : ℕ}
    {key : CString} (hkey : ∀ e, s.cache.entries x = some e → e.key = key)
    (hwritten : WrittenFor s key (s.appends x)) :
    WrittenFor s' key (s'.appends x) := by
  have hold : WrittenFor s' key (s.appends x) := by
    intro p hp
    obtain ⟨task, htask, htkey⟩ := hwritten p hp
    obtain ⟨task', htask', -, hsame⟩ := hs.base.step_task h htask
    exact ⟨task', htask', hsame.trans htkey⟩
  rcases hs.base.step_appends h x with
    heq | ⟨t, task, e, htask, hpc, rfl, he, heq⟩
  · rwa [heq]
  · rw [heq]
    intro p hp
    rcases List.mem_append.mp hp with hp | hp
    · exact hold p hp
    · obtain rfl := List.mem_singleton.mp hp
      obtain ⟨task', htask', -, hsame⟩ := hs.base.step_task h htask
      refine ⟨task', htask', hsame.trans ?_⟩
      have hhanded := hs.base.handed t task htask
        (by simp [hpc, TaskPc.HasEntry])
      rw [← hhanded.2 e he, hkey e he]

theorem of_step
    (hs : FilledByKey s) {a : Action} (h : s.step a = some s') :
    FilledByKey s' := by
  have hbase := hs.base.of_step h
  -- an entry served before
  have hserved : ∀ {x key}, x < s.cache.nextEntry →
      (∀ e, s.cache.entries x = some e → e.key = key) →
      WrittenFor s key (s.appends x) →
      x < s'.cache.nextEntry ∧
        (∀ e, s'.cache.entries x = some e → e.key = key) ∧
        WrittenFor s' key (s'.appends x) := by
    intro x key hlt hkey hwritten
    refine ⟨hlt.trans_le (hs.base.step_nextEntry h), ?_,
      hs.writtenFor_of_step h hkey hwritten⟩
    intro e' he'
    rcases hs.base.step_entries h he' with ⟨e, he, hsame, -⟩ | ⟨rfl, -⟩
    · exact hsame.trans (hkey e he)
    · exact absurd hlt (lt_irrefl _)
  refine ⟨hbase, ?_, ?_⟩
  · intro x e' he'
    rcases hs.base.step_entries h he' with ⟨e, he, hsame, -⟩ | ⟨rfl, -⟩
    · refine hs.writtenFor_of_step h (fun f hf => ?_) ?_
      · obtain rfl := Option.some.inj (he.symm.trans hf)
        exact hsame.symm
      · rw [hsame]
        exact hs.writers x e he
    · have hnone := hs.base.wf.entries_nextEntry
      refine hs.writtenFor_of_step h (fun f hf => ?_) ?_
      · rw [hnone] at hf
        cases hf
      · rw [hs.base.unappended _ le_rfl]
        simp [WrittenFor]
  · intro r w' hw' x hx
    rcases hs.base.step_history h hw' with
      ⟨-, k, -, -, hnew⟩ | ⟨w, hw, hclient, hstep⟩
    · rw [hnew] at hx
      cases hx
    · rw [hclient.key]
      have hold : x ∈ w.sources → _ := fun hmem =>
        have hsrc := hs.sources r w hw x hmem
        hserved hsrc.1 hsrc.2.1 hsrc.2.2
      -- the entry that a lookup has found
      have hfound : w.pc = .inLookup → _ := fun hpc =>
        have hkeyed : s.cache.Linked w.entry ∧
            ∃ e, s.cache.entries w.entry = some e ∧ e.key = w.key := by
          obtain ⟨e, hfind, -⟩ := hs.base.found r w hw hpc
          obtain ⟨hlinked, he, hkey⟩ :=
            hs.base.wf.findEntry_eq_some_iff.mp hfind
          exact ⟨hlinked, e, he, hkey⟩
        have hserve : ∀ e, s.cache.entries w.entry = some e → e.key = w.key :=
          fun f hf => by
            obtain ⟨-, e, he, hkey⟩ := hkeyed
            obtain rfl := Option.some.inj (he.symm.trans hf)
            exact hkey
        have hwriters : WrittenFor s w.key (s.appends w.entry) := by
          obtain ⟨-, e, he, hkey⟩ := hkeyed
          exact hkey ▸ hs.writers _ e he
        have hlt : w.entry < s.cache.nextEntry := by
          obtain ⟨-, e, he, -⟩ := hkeyed
          exact hs.base.wf.fresh _ e he
        hserved hlt hserve hwriters
      cases hstep with
      | same hsame => exact hold (hsame.sources ▸ hx)
      | answered e now accepted hact hcontents hpc he hstream hload heq =>
          rw [heq] at hx
          rcases List.mem_append.mp hx with hx | hx
          · exact hold hx
          · obtain rfl := List.mem_singleton.mp hx
            exact hfound hpc
      | chunk e now accepted hact hcontents hpc hsite he hstream hlen heq =>
          rw [heq] at hx
          rcases List.mem_append.mp hx with hx | hx
          · exact hold hx
          · obtain rfl := List.mem_singleton.mp hx
            exact hfound hpc

theorem of_reachable
    {allowed : State → Action → Prop} (hs : proxy.ReachableUnder allowed s) :
    FilledByKey s := by
  refine hs.invariant ?_ fun s a s' hs _ hstep => hs.of_step hstep
  rintro s ⟨numBuckets, defaultTtl, rfl⟩
  exact init numBuckets defaultTtl

end FilledByKey

/-- Requests with the same key ask for the same URL. -/
def KeysDistinct (s : State) : Prop :=
  ∀ r r' w w', s.reqs r = some w → s.reqs r' = some w' → w.key = w'.key →
    w.req.urlPath = w'.req.urlPath

theorem keysDistinct_of_arrivesDistinct
    {s : State} (hs : proxy.ReachableUnder ArrivesDistinct s) :
    KeysDistinct s := by
  refine hs.invariant_of ?_ fun s a s' hreach hs ha hstep => ?_
  · rintro s ⟨numBuckets, defaultTtl, rfl⟩ r r' w w' hw
    cases hw
  · have hbase := Consistent.of_reachable hreach
    have hbase' := hbase.of_step hstep
    -- a new request against one that was there
    have hnew : ∀ {r r' x w₁ w₂}, a = .request r (.readClient x) →
        s'.reqs r = some w₁ → w₁ = .arrived x w₁.key →
        s.reqs r' = some w₂ → w₁.key = w₂.key →
        w₁.req.urlPath = w₂.req.urlPath := by
      intro r r' x w₁ w₂ hact hw₁ hx hw₂ hkey
      have hreq : w₁.req = x := by
        rw [hx]
        rfl
      have hk₁ := hbase'.keyed r w₁ hw₁
      have hk₂ := hbase.keyed r' w₂ hw₂
      rw [hreq] at hk₁ ⊢
      exact (HttpReq.parts_eq_of_cacheKey_eq hk₁ (hkey ▸ hk₂)
        (ha r x hact r' w₂ hw₂)).1
    intro r r' w₁ w₂ hw₁ hw₂ hkey
    rcases hbase.step_history hstep hw₁ with
      ⟨-, x, hact, -, hx⟩ | ⟨v₁, hv₁, hsame₁, -⟩
    · rcases hbase.step_history hstep hw₂ with
        ⟨-, y, hact', -, hy⟩ | ⟨v₂, hv₂, hsame₂, -⟩
      · rw [hact] at hact'
        cases hact'
        rw [hx, hy]
        rfl
      · rw [hsame₂.key] at hkey
        rw [hsame₂.req]
        exact hnew hact hw₁ hx hv₂ hkey
    · rcases hbase.step_history hstep hw₂ with
        ⟨-, y, hact, -, hy⟩ | ⟨v₂, hv₂, hsame₂, -⟩
      · rw [hsame₁.key] at hkey
        rw [hsame₁.req]
        exact (hnew hact hw₂ hy hv₁ hkey.symm).symm
      · rw [hsame₁.key, hsame₂.key] at hkey
        rw [hsame₁.req, hsame₂.req]
        exact hs r r' v₁ v₂ hv₁ hv₂ hkey

/-- Equal keys come from equal paths and referers exactly when the requests
are not confusable, and where no confusable requests arrive, every request is
answered with the response of its own URL. -/
theorem resource_of_not_confusable
    {x y : HttpReq} {kx ky : CString} (hx : x.cacheKey = some kx)
    (hy : y.cacheKey = some ky) {s : State}
    (hs : proxy.ReachableUnder ArrivesDistinct s) :
    ((kx = ky → x.urlPath = y.urlPath ∧ x.referer = y.referer) ↔
      ¬ x.Confusable y) ∧ OwnUrlOnly s := by
  refine ⟨⟨fun h hc => ?_, fun hc heq => ?_⟩, fun r w hw a ha p hp => ?_⟩
  · obtain ⟨heq, hne⟩ := HttpReq.confusable_spec hx hy hc
    exact hne (h heq)
  · exact HttpReq.parts_eq_of_cacheKey_eq hx (heq ▸ hy) hc
  · obtain ⟨task, htask, hkey⟩ :=
      ((FilledByKey.of_reachable hs).sources r w hw a ha).2.2 p hp
    obtain ⟨v, hv, -, -, hreq, hvkey⟩ :=
      (Consistent.of_reachable hs).owned p.1 task htask
    refine ⟨task, htask, ?_⟩
    rw [Task.path, ← hreq]
    exact keysDistinct_of_arrivesDistinct hs p.1 r v w hv hw
      (hvkey.trans hkey)

/-- A test for `ArrivesDistinct` in a system of `n` clients: the request
repeats an earlier one, or its key is new. -/
def arrivesDistinct (n : ℕ) (s : State) : Action → Bool
  | .request _ (.readClient x) =>
      (List.range n).all fun r => (s.reqs r).all fun w =>
        decide (x = w.req) || (x.cacheKey.isSome && w.req.cacheKey.isSome &&
          decide (x.cacheKey ≠ w.req.cacheKey))
  | _ => true

theorem arrivesDistinct_sound
    (n : ℕ) (s : State) (a : Action) (hs : s.Below n)
    (h : arrivesDistinct n s a = true) : ArrivesDistinct s a := by
  rintro r x rfl r' w hw hc
  have hall : ∀ r < n, (s.reqs r).all (fun w =>
      decide (x = w.req) || (x.cacheKey.isSome && w.req.cacheKey.isSome &&
        decide (x.cacheKey ≠ w.req.cacheKey))) = true := by
    simpa only [arrivesDistinct, List.all_eq_true, List.mem_range] using h
  have hreq := hall r' (hs.lt_of_req hw)
  rw [hw] at hreq
  rcases Bool.or_eq_true_iff.mp hreq with hsame | hkeys
  · have hxw := of_decide_eq_true hsame
    subst hxw
    cases hkey : w.req.cacheKey with
    | none =>
        rcases hc with ⟨d, hd, hpath, -⟩ | ⟨d, hd, hpath, -⟩ | hempty
        · exact hd (by simpa using hpath)
        · exact hd (by simpa using hpath)
        · exact hempty.2.2.2 rfl
    | some key => exact (HttpReq.confusable_spec hkey hkey hc).2 ⟨rfl, rfl⟩
  · obtain ⟨hsome, hne⟩ := Bool.and_eq_true_iff.mp hkeys
    obtain ⟨hx, hy⟩ := Bool.and_eq_true_iff.mp hsome
    obtain ⟨kx, hkx⟩ := Option.isSome_iff_exists.mp hx
    obtain ⟨ky, hky⟩ := Option.isSome_iff_exists.mp hy
    refine of_decide_eq_true hne ?_
    rw [hkx, hky, (HttpReq.confusable_spec hkx hky hc).1]

/-- `GET /ab` without a referer. -/
def longRequest : HttpReq := ⟨[47, 97, 98], []⟩

/-- `GET /a` with the referer `b`. -/
def shortRequestFromB : HttpReq := ⟨[47, 97], [⟨refererName, [98]⟩]⟩

/-- A page is loaded and requested again. -/
def repeatedPage : List Action :=
  arriveFirst 0 longRequest ++ beginLoad 0 ++ deliver 0 [1] ++ endLoad 0 ++
    [.request 1 (.readClient longRequest)] ++ sendChunk 1

theorem resource_of_not_confusable_repeatedPage :
    ¬ longRequest.Confusable rootRequest ∧
    ∃ s, proxy.runWhile (fun s a => a.within 2 && arrivesDistinct 2 s a)
      (.init 1 100) repeatedPage = some s ∧
      (s.reqs 1).map WriteReq.sources = some [0] ∧ OwnUrlOnly s := by
  have hrun : (proxy.runWhile (fun s a => a.within 2 && arrivesDistinct 2 s a)
      (.init 1 100) repeatedPage).map (fun s =>
        (s.reqs 1).map WriteReq.sources) = some (some [0]) := rfl
  obtain ⟨s, hs, hobs⟩ := Option.map_eq_some_iff.mp hrun
  obtain ⟨hiff, hown⟩ :=
    resource_of_not_confusable (x := longRequest) (y := rootRequest) rfl rfl
      (reachableUnder_of_runWhile (arrivesDistinct_sound 2) hs)
  exact ⟨hiff.mp fun heq => absurd heq (by decide), s, hs, hobs, hown⟩

/-- One page is loaded, and then another one is requested that gets the same
key. -/
def confusedPages : List Action :=
  arriveFirst 0 longRequest ++ beginLoad 0 ++ deliver 0 [1] ++ endLoad 0 ++
    [.request 1 (.readClient shortRequestFromB)] ++ sendChunk 1

/-- The second client is answered with the first page. -/
theorem confusedPages_served :
    (∃ key, longRequest.cacheKey = some key ∧
      shortRequestFromB.cacheKey = some key) ∧
    longRequest.urlPath ≠ shortRequestFromB.urlPath ∧
    ∃ s, proxy.run (.init 1 100) confusedPages = some s ∧
      proxy.Reachable s ∧ ¬ OwnUrlOnly s := by
  refine ⟨⟨_, rfl, rfl⟩, by decide, ?_⟩
  have hrun : (proxy.run (.init 1 100) confusedPages).map (fun s =>
      ((s.reqs 1).map fun w => (w.req.urlPath, w.sources), s.appends 0,
        (s.tasks 0).map Task.path)) =
      some (some (shortRequestFromB.urlPath, [0]), [(0, [1])],
        some longRequest.urlPath) := rfl
  obtain ⟨s, hs, hobs⟩ := Option.map_eq_some_iff.mp hrun
  obtain ⟨hreq, hrest⟩ := Prod.mk.inj hobs
  obtain ⟨happ, htask⟩ := Prod.mk.inj hrest
  refine ⟨s, hs, .run (.initial (proxy_initial 1 100)) hs, fun h => ?_⟩
  obtain ⟨w, hw, hwobs⟩ := Option.map_eq_some_iff.mp hreq
  obtain ⟨hurl, hsources⟩ := Prod.mk.inj hwobs
  obtain ⟨task, ht, hpath⟩ := Option.map_eq_some_iff.mp htask
  obtain ⟨task', ht', hsame⟩ :=
    h 1 w hw 0 (by simp [hsources]) (0, [1]) (by simp [happ])
  obtain rfl := Option.some.inj (ht.symm.trans ht')
  rw [hpath, hurl] at hsame
  exact absurd hsame (by decide)

end Streaming
end Proxy
end OsFifthSem
