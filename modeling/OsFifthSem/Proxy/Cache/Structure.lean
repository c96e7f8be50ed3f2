import OsFifthSem.Proxy.Cache.WaiterRefinement
import OsFifthSem.Support.Transition

/-!
# The structure of the cache along every sequence of calls

A run of calls on linked cells is matched by a run on lists, so what the
structure invariant says about the lists can be read off the cells.
-/

namespace OsFifthSem
namespace Proxy

open Support

/-- The calls into the cache.  The entry of a call is the pointer it gets. -/
inductive CacheCall
  | startLoading (key : CString) (now : ℤ) (allocOk : Bool)
  | appendData (entry : Option ℕ) (chunk : List UInt8) (now : ℤ)
      (reallocOk : Bool)
  | finishLoading (entry : Option ℕ) (now : ℤ) (reallocOk : Bool)
  | cancelLoading (key : CString)
  | cleanExpired (now : ℤ)
  | lookup (key : CString) (now : ℤ)
  | lookupPartial (key : CString) (offset maxSize : ℕ) (now : ℤ)
  | registerWaiter (key : CString) (h : AsyncHandle) (rowOk : Bool)
  | unregisterWaiter (key : CString) (h : AsyncHandle)

/-- The entry pointer of a call, if it gets one that is not NULL. -/
def CacheCall.entry : CacheCall → Option ℕ
  | .appendData entry _ _ _ => entry
  | .finishLoading entry _ _ => entry
  | .startLoading _ _ _ => none
  | .cancelLoading _ => none
  | .cleanExpired _ => none
  | .lookup _ _ => none
  | .lookupPartial _ _ _ _ => none
  | .registerWaiter _ _ _ => none
  | .unregisterWaiter _ _ => none

namespace Memory

/-- The memory after a call.  A NULL entry is refused. -/
def call (m : Memory) : CacheCall → Option Memory
  | .startLoading key now ok => (m.cacheStartLoading key now ok).map Prod.snd
  | .appendData none _ _ _ => some m
  | .appendData (some a) chunk now ok =>
      (m.cacheAppendData a chunk now ok).map Prod.snd
  | .finishLoading none _ _ => some m
  | .finishLoading (some a) now ok =>
      (m.cacheFinishLoading a now ok).map Prod.snd
  | .cancelLoading key => (m.cacheCancelLoading key).map Prod.snd
  | .cleanExpired now => m.cacheCleanExpired now
  | .lookup key now => (m.cacheLookup key now).map Prod.snd
  | .lookupPartial key offset maxSize now =>
      (m.cacheLookupPartial key offset maxSize now).map Prod.snd
  | .registerWaiter key h ok =>
      (m.cacheRegisterWaiter key h ok).map Prod.snd
  | .unregisterWaiter key h => (m.cacheUnregisterWaiter key h).map Prod.snd

/-- The sequences of calls from `cache_init`. -/
def calls (numBuckets : ℕ) (defaultTtl : ℤ) :
    TransitionSystem Memory CacheCall where
  Initial := fun m => m = cacheInit numBuckets defaultTtl
  step := call

/-- The cells that hang off the head of bucket `b`, in order. -/
def EntriesOf (m : Memory) (b : ℕ) (xs : List ℕ) : Prop :=
  Chain EntryCell.next m.entryCells (m.head b) xs

/-- The row cells that hang off the pending waiter table of bucket `b`. -/
def RowsOf (m : Memory) (b : ℕ) (rs : List ℕ) : Prop :=
  Chain RowCell.next m.rowCells (m.pendingHead b) rs

/-- The entry at `a` is one that has expired at time `now`. -/
def expiredAt (m : Memory) (now : ℤ) (a : ℕ) : Bool :=
  (m.entryCells a).any fun e => !e.isLoading && e.expired m.defaultTtl now

def loadingAt (m : Memory) (a : ℕ) : Bool :=
  (m.entryCells a).any fun e => e.isLoading

/-- The block of the entry at `a` is allocated. -/
def liveAt (m : Memory) (a : ℕ) : Bool :=
  (m.entryCells a).any fun e => e.dataLive

/-- No linked entry that has expired at time `now` has a freed block. -/
def FreesOnce (m : Memory) (now : ℤ) : Prop :=
  ∀ b xs, m.EntriesOf b xs → ∀ a ∈ xs,
    m.expiredAt now a = true → m.liveAt a = true

/-- Every chain is finite and acyclic, its cells are allocated and hash to
its bucket, no key is in two cells of the cache, and the pending tables are
likewise and disjoint from the entries. -/
structure Structured (m : Memory) : Prop where
  chain : ∀ b, ∃ xs, m.EntriesOf b xs ∧ xs.Nodup ∧
    ∀ a ∈ xs, ∃ e, m.entryCells a = some e ∧
      cacheHash e.key m.numBuckets = b
  key_unique : ∀ b b' xs xs' a a' e e',
    m.EntriesOf b xs → m.EntriesOf b' xs' → a ∈ xs → a' ∈ xs' →
    m.entryCells a = some e → m.entryCells a' = some e' →
    e.key = e'.key → a = a'
  rows : ∀ b, ∃ rs, m.RowsOf b rs ∧ rs.Nodup ∧
    ∀ r ∈ rs, ∃ row, m.rowCells r = some row ∧
      cacheHash row.key m.numBuckets = b
  row_unique : ∀ b rs r r' row row', m.RowsOf b rs → r ∈ rs → r' ∈ rs →
    m.rowCells r = some row → m.rowCells r' = some row' →
    row.key = row'.key → r = r'
  row_missing : ∀ b rs xs r a row e, m.RowsOf b rs → m.EntriesOf b xs →
    r ∈ rs → a ∈ xs → m.rowCells r = some row → m.entryCells a = some e →
    e.key ≠ row.key

end Memory

/-! ## Reading the structure off the lists -/

theorem Represents.entriesOf_iff
    {m : Memory} {c : Cache} (hr : Represents m c) {b : ℕ} {xs : List ℕ} :
    m.EntriesOf b xs ↔ xs = c.chain b := by
  constructor
  · intro hxs
    exact hxs.unique (hr.chains b)
  · rintro rfl
    exact hr.chains b

theorem Represents.expiredAt_eq
    {m : Memory} {c : Cache} (hr : Represents m c) (now : ℤ) :
    m.expiredAt now = c.isExpired now := by
  funext a
  rw [Memory.expiredAt, Cache.isExpired, ← hr.entries, hr.fields]
  cases m.entryCells a <;> rfl

theorem Represents.loadingAt_eq
    {m : Memory} {c : Cache} (hr : Represents m c) :
    m.loadingAt = c.isLoadingAt := by
  funext a
  rw [Memory.loadingAt, Cache.isLoadingAt, ← hr.entries]
  cases m.entryCells a <;> rfl

theorem Represents.liveAt_eq
    {m : Memory} {c : Cache} (hr : Represents m c) :
    m.liveAt = c.isLiveAt := by
  funext a
  rw [Memory.liveAt, Cache.isLiveAt, ← hr.entries]
  cases m.entryCells a <;> rfl

/-- Only the buckets of the cache have entries. -/
theorem Cache.WF.lt_of_mem_chain
    {c : Cache} (hw : c.WF) {a b : ℕ} (ha : a ∈ c.chain b) :
    b < c.numBuckets := by
  obtain ⟨e, -, rfl⟩ := hw.linked b a ha
  exact cacheHash_lt e.key hw.buckets_pos

theorem Represents.freesOnce_iff
    {m : Memory} {c : Cache} (hr : Represents m c) (hw : c.WF) {now : ℤ} :
    m.FreesOnce now ↔ ∃ c', c.cleanExpired now = some c' := by
  rw [hw.exists_cleanExpired_iff now]
  unfold Memory.FreesOnce
  rw [hr.expiredAt_eq, hr.liveAt_eq]
  constructor
  · intro hfrees b _
    exact hfrees b _ (hr.entriesOf_iff.mpr rfl)
  · intro hfrees b xs hxs a ha
    rw [hr.entriesOf_iff.mp hxs] at ha
    exact hfrees b (hw.lt_of_mem_chain ha) a ha

theorem Represents.exists_cacheCleanExpired_iff
    {m : Memory} {c : Cache} (hr : Represents m c) (hw : c.WF) {now : ℤ} :
    (∃ m', m.cacheCleanExpired now = some m') ↔ m.FreesOnce now := by
  rw [hr.freesOnce_iff hw]
  have hagree := hr.cacheCleanExpired hw now
  constructor
  · rintro ⟨m', hm'⟩
    rw [hm'] at hagree
    generalize c.cleanExpired now = res at hagree ⊢
    cases hagree with
    | some => exact ⟨_, rfl⟩
  · rintro ⟨c', hc'⟩
    rw [hc'] at hagree
    generalize m.cacheCleanExpired now = res at hagree ⊢
    cases hagree with
    | some => exact ⟨_, rfl⟩

theorem Represents.structured
    {m : Memory} {c : Cache} (hr : Represents m c) (hw : c.WF) :
    m.Structured := by
  have hbuckets : m.numBuckets = c.numBuckets := by rw [hr.fields]
  have hchain : ∀ {b xs}, m.EntriesOf b xs → xs = c.chain b :=
    fun hxs => hr.entriesOf_iff.mp hxs
  -- a row cell of the table holds one of its rows
  have hrow : ∀ {b rs r row}, m.RowsOf b rs → r ∈ rs →
      m.rowCells r = some row → row.toWaiterRow ∈ c.pending b := by
    intro b rs r row hrs hmem hcell
    obtain ⟨rs', hrs', hspell⟩ := hr.rows b
    obtain rfl := hrs.unique hrs'
    have hat : m.rowAt r ∈ (c.pending b).map some :=
      hspell ▸ List.mem_map_of_mem hmem
    simpa [Memory.rowAt, hcell] using hat
  refine ⟨?_, ?_, ?_, ?_, ?_⟩
  · intro b
    refine ⟨c.chain b, hr.chains b, hw.nodup b, fun a ha => ?_⟩
    obtain ⟨e, he, hb⟩ := hw.linked b a ha
    obtain ⟨cell, hcell, rfl⟩ := hr.cell_of_entries he
    exact ⟨cell, hcell, by rw [hbuckets]; exact hb⟩
  · intro b b' xs xs' a a' e e' hxs hxs' ha ha' he he' hkey
    rw [hchain hxs] at ha
    rw [hchain hxs'] at ha'
    have hmem := hw.mem_chain_of_key ha (hr.entries_of_cell he)
    have hmem' := hw.mem_chain_of_key ha' (hr.entries_of_cell he')
    rw [← hkey] at hmem'
    exact hw.key_unique _ _ _ _ _ hmem hmem' (hr.entries_of_cell he)
      (hr.entries_of_cell he') hkey
  · intro b
    obtain ⟨rs, hrs, -⟩ := hr.rows b
    refine ⟨rs, hrs, hrs.nodup, fun r hmem => ?_⟩
    obtain ⟨row, hcell⟩ := hrs.exists_cell hmem
    refine ⟨row, hcell, ?_⟩
    rw [hbuckets]
    exact hw.rows_bucket b _ (hrow hrs hmem hcell)
  · intro b rs r r' row row' hrs hmem hmem' hcell hcell' hkey
    obtain ⟨rs', hrs', hspell⟩ := hr.rows b
    obtain rfl := hrs.unique hrs'
    -- the keys along the table are distinct, so their positions are equal
    have hkeys : rs.map (fun r => (m.rowAt r).map WaiterRow.key) =
        ((c.pending b).map WaiterRow.key).map some := by
      have hmap := congrArg (List.map (Option.map WaiterRow.key)) hspell
      simpa [Function.comp_def] using hmap
    have hnodup : (rs.map fun r => (m.rowAt r).map WaiterRow.key).Nodup := by
      rw [hkeys]
      exact (hw.rows_nodup b).map (Option.some_injective _)
    refine List.inj_on_of_nodup_map hnodup hmem hmem' ?_
    simp [Memory.rowAt, hcell, hcell', hkey]
  · intro b rs xs r a row e hrs hxs hmem ha hcell he
    rw [hchain hxs] at ha
    exact hw.rows_missing b _ a _ (hrow hrs hmem hcell) ha
      (hr.entries_of_cell he)

/-! ## Sequences of calls -/

/-- What holds between calls: the cells spell out some well-formed lists. -/
def Memory.Represented (m : Memory) : Prop :=
  ∃ c : Cache, Represents m c ∧ c.WF

/-- The lists after a call. -/
def Cache.call (c : Cache) : CacheCall → Option Cache
  | .startLoading key now ok => some (c.startLoading key now ok).2
  | .appendData none _ _ _ => some c
  | .appendData (some a) chunk now ok =>
      (c.appendData a chunk now ok).map Prod.snd
  | .finishLoading none _ _ => some c
  | .finishLoading (some a) now ok =>
      (c.finishLoading a now ok).map Prod.snd
  | .cancelLoading key => some (c.cancelLoading key).2
  | .cleanExpired now => c.cleanExpired now
  | .lookup key now => some (c.lookup key now).2
  | .lookupPartial key offset maxSize now =>
      some (c.lookupPartial key offset maxSize now).2
  | .registerWaiter key h ok => some (c.registerWaiter key h ok).2
  | .unregisterWaiter key h => some (c.unregisterWaiter key h).2

/-- A call on linked cells is matched by the call on lists. -/
theorem Represents.call
    {m m' : Memory} {c : Cache} {op : CacheCall} (hr : Represents m c)
    (hw : c.WF) (hcall : m.call op = some m') :
    ∃ c', c.call op = some c' ∧ Represents m' c' ∧ c'.WF := by
  cases op with
  | startLoading key now ok =>
      obtain ⟨m'', hm'', hr'⟩ := hr.cacheStartLoading hw key now ok
      simp only [Memory.call, hm'', Option.map_some,
        Option.some.injEq] at hcall
      exact ⟨_, rfl, hcall ▸ hr', hw.startLoading key now ok⟩
  | appendData entry chunk now ok =>
      cases entry with
      | none => exact ⟨c, rfl, Option.some.inj hcall ▸ hr, hw⟩
      | some a =>
          obtain ⟨⟨r, m''⟩, hm'', rfl⟩ := Option.map_eq_some_iff.mp hcall
          have hagree := hr.cacheAppendData a chunk now ok
          rw [hm''] at hagree
          generalize hc' : c.appendData a chunk now ok = res at hagree
          cases hagree with
          | some hp =>
              exact ⟨_, by rw [Cache.call, hc']; rfl, hp.2, hw.appendData hc'⟩
  | finishLoading entry now ok =>
      cases entry with
      | none => exact ⟨c, rfl, Option.some.inj hcall ▸ hr, hw⟩
      | some a =>
          obtain ⟨⟨r, m''⟩, hm'', rfl⟩ := Option.map_eq_some_iff.mp hcall
          have hagree := hr.cacheFinishLoading a now ok
          rw [hm''] at hagree
          generalize hc' : c.finishLoading a now ok = res at hagree
          cases hagree with
          | some hp =>
              exact ⟨_, by rw [Cache.call, hc']; rfl, hp.2,
                hw.finishLoading hc'⟩
  | cancelLoading key =>
      obtain ⟨m'', hm'', hr'⟩ := hr.cacheCancelLoading hw key
      simp only [Memory.call, hm'', Option.map_some,
        Option.some.injEq] at hcall
      exact ⟨_, rfl, hcall ▸ hr', hw.cancelLoading key⟩
  | cleanExpired now =>
      have hagree := hr.cacheCleanExpired hw now
      change m.cacheCleanExpired now = some m' at hcall
      rw [hcall] at hagree
      generalize hc' : c.cleanExpired now = res at hagree
      cases hagree with
      | some hr' => exact ⟨_, hc', hr', hw.cleanExpired hc'⟩
  | lookup key now =>
      obtain ⟨m'', hm'', hr'⟩ := hr.cacheLookupPartial hw key 0 0 now
      simp only [Memory.call, Memory.cacheLookup, hm'', Option.map_some,
        Option.some.injEq] at hcall
      exact ⟨_, rfl, hcall ▸ hr', hw.lookupPartial key 0 0 now⟩
  | lookupPartial key offset maxSize now =>
      obtain ⟨m'', hm'', hr'⟩ :=
        hr.cacheLookupPartial hw key offset maxSize now
      simp only [Memory.call, hm'', Option.map_some,
        Option.some.injEq] at hcall
      exact ⟨_, rfl, hcall ▸ hr', hw.lookupPartial key offset maxSize now⟩
  | registerWaiter key h ok =>
      obtain ⟨m'', hm'', hr'⟩ := hr.cacheRegisterWaiter hw key h ok
      simp only [Memory.call, hm'', Option.map_some,
        Option.some.injEq] at hcall
      exact ⟨_, rfl, hcall ▸ hr', hw.registerWaiter key h ok⟩
  | unregisterWaiter key h =>
      obtain ⟨m'', hm'', hr'⟩ := hr.cacheUnregisterWaiter hw key h
      simp only [Memory.call, hm'', Option.map_some,
        Option.some.injEq] at hcall
      exact ⟨_, rfl, hcall ▸ hr', hw.unregisterWaiter key h⟩

theorem Memory.represented_call
    {m m' : Memory} {op : CacheCall} (hm : m.Represented)
    (hcall : m.call op = some m') : m'.Represented := by
  obtain ⟨c, hr, hw⟩ := hm
  obtain ⟨c', -, hr', hw'⟩ := hr.call hw hcall
  exact ⟨c', hr', hw'⟩

theorem Memory.represented_of_run
    {numBuckets : ℕ} {defaultTtl : ℤ} {ops : List CacheCall} {m : Memory}
    (hrun : (calls numBuckets defaultTtl).run
      (cacheInit numBuckets defaultTtl) ops = some m) : m.Represented := by
  have hreach : (calls numBuckets defaultTtl).Reachable m :=
    TransitionSystem.Reachable.run (.initial rfl) hrun
  refine hreach.invariant ?_ ?_
  · rintro s rfl
    exact ⟨_, Represents.init numBuckets defaultTtl,
      Cache.wf_init numBuckets defaultTtl⟩
  · intro s op s' hs _ hstep
    exact represented_call hs hstep

/-- A call that gets no entry pointer returns: none of its loops runs on
forever or reads a freed cell, and only the collector can free a block a second
time. -/
theorem Memory.call_returns
    {m : Memory} (hm : m.Represented) {op : CacheCall}
    (hop : op.entry = none)
    (hfrees : ∀ now, op = .cleanExpired now → m.FreesOnce now) :
    ∃ m', m.call op = some m' := by
  obtain ⟨c, hr, hw⟩ := hm
  cases op with
  | startLoading key now ok =>
      obtain ⟨m', hm', -⟩ := hr.cacheStartLoading hw key now ok
      exact ⟨m', by simp [call, hm']⟩
  | appendData entry chunk now ok =>
      obtain rfl : entry = none := hop
      exact ⟨m, rfl⟩
  | finishLoading entry now ok =>
      obtain rfl : entry = none := hop
      exact ⟨m, rfl⟩
  | cancelLoading key =>
      obtain ⟨m', hm', -⟩ := hr.cacheCancelLoading hw key
      exact ⟨m', by simp [call, hm']⟩
  | cleanExpired now =>
      exact (hr.exists_cacheCleanExpired_iff hw).mpr (hfrees now rfl)
  | lookup key now =>
      obtain ⟨m', hm', -⟩ := hr.cacheLookupPartial hw key 0 0 now
      exact ⟨m', by simp [call, cacheLookup, hm']⟩
  | lookupPartial key offset maxSize now =>
      obtain ⟨m', hm', -⟩ := hr.cacheLookupPartial hw key offset maxSize now
      exact ⟨m', by simp [call, hm']⟩
  | registerWaiter key h ok =>
      obtain ⟨m', hm', -⟩ := hr.cacheRegisterWaiter hw key h ok
      exact ⟨m', by simp [call, hm']⟩
  | unregisterWaiter key h =>
      obtain ⟨m', hm', -⟩ := hr.cacheUnregisterWaiter hw key h
      exact ⟨m', by simp [call, hm']⟩

/-- From `cache_init` on, whatever calls are made with whatever arguments,
the buckets and the pending tables keep their structure, and the calls that
walk them return, a call of the collector exactly if it does not free a block a
second time. -/
theorem Memory.calls_keep_structure
    (numBuckets : ℕ) (defaultTtl : ℤ) (ops : List CacheCall) (m : Memory)
    (hrun : (calls numBuckets defaultTtl).run
      (cacheInit numBuckets defaultTtl) ops = some m) :
    m.Structured ∧
      ∀ op : CacheCall, op.entry = none →
        ((∃ m', m.call op = some m') ↔
          ∀ now, op = .cleanExpired now → m.FreesOnce now) := by
  have hm := represented_of_run hrun
  refine ⟨?_, fun op hop => ⟨?_, call_returns hm hop⟩⟩
  · obtain ⟨c, hr, hw⟩ := hm
    exact hr.structured hw
  · rintro hreturns now rfl
    obtain ⟨c, hr, hw⟩ := hm
    exact (hr.exists_cacheCleanExpired_iff hw).mp hreturns

/-- Two keys in one bucket: both wait in the pending table, one takes its row
from behind the other, is loaded and read, and is collected together with the
loading entry in front of it. -/
def Memory.collisionCalls : List CacheCall :=
  [.registerWaiter ⟨[97], by decide⟩ 1 true,
    .registerWaiter ⟨[98], by decide⟩ 2 true,
    .startLoading ⟨[97], by decide⟩ 0 true,
    .appendData (some 0) [1, 2, 3] 0 true,
    .lookupPartial ⟨[97], by decide⟩ 0 2 0,
    .finishLoading (some 0) 1 true,
    .lookup ⟨[97], by decide⟩ 1,
    .startLoading ⟨[98], by decide⟩ 2 true,
    .unregisterWaiter ⟨[98], by decide⟩ 2,
    .cleanExpired 100,
    .cancelLoading ⟨[98], by decide⟩]

theorem Memory.calls_keep_structure_collision :
    ∃ m, (calls 1 60).run (cacheInit 1 60) collisionCalls = some m ∧
      m.Structured ∧
        ∀ op : CacheCall, op.entry = none →
          ((∃ m', m.call op = some m') ↔
            ∀ now, op = .cleanExpired now → m.FreesOnce now) :=
  ⟨_, rfl, calls_keep_structure 1 60 collisionCalls _ rfl⟩

/-- A response without a body. -/
def Memory.emptyCalls : List CacheCall :=
  [.startLoading (.ofBuffer [97]) 0 true, .finishLoading (some 0) 0 true]

/-- `cache_finish_loading` has freed the block of the entry, and the collector
frees it once more. -/
theorem Memory.emptyCalls_freedTwice :
    ∃ m, (calls 1 60).run (cacheInit 1 60) emptyCalls = some m ∧
      m.liveAt 0 = false ∧ m.call (.cleanExpired 100) = none ∧
      ¬∀ op : CacheCall, op.entry = none → ∃ m', m.call op = some m' := by
  refine ⟨_, rfl, rfl, rfl, fun hreturns => ?_⟩
  obtain ⟨m', hm'⟩ := hreturns (.cleanExpired 100) rfl
  cases hm'

end Proxy
end OsFifthSem
