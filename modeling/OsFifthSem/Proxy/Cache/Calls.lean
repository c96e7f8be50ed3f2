import OsFifthSem.Proxy.Cache.Buffer
import OsFifthSem.Proxy.Cache.Collect
import OsFifthSem.Proxy.Cache.Contents

/-!
# What a call does to the chains and the entries

One inversion lemma for all calls: a call creates an entry, rewrites one in
place, removes one, sweeps the chains, or leaves chains and entries alone.
The results about runs of calls cite it and do not unfold the calls.
-/

namespace OsFifthSem
namespace Proxy

open Support

/-- The arguments of a lookup: the key, the offset, the maximum and the
time. -/
def CacheCall.asLookup : CacheCall → Option (CString × ℕ × ℕ × ℤ)
  | .lookup key now => some (key, 0, 0, now)
  | .lookupPartial key offset maxSize now => some (key, offset, maxSize, now)
  | .startLoading _ _ _ => none
  | .appendData _ _ _ _ => none
  | .finishLoading _ _ _ => none
  | .cancelLoading _ => none
  | .cleanExpired _ => none
  | .registerWaiter _ _ _ => none
  | .unregisterWaiter _ _ => none

namespace Cache

/-- The chains are as they were, and so are the fields that concern them. -/
structure SameChains (c c' : Cache) : Prop where
  numBuckets : c'.numBuckets = c.numBuckets
  defaultTtl : c'.defaultTtl = c.defaultTtl
  chain : c'.chain = c.chain
  nextEntry : c'.nextEntry = c.nextEntry
  currentSize : c'.currentSize = c.currentSize
  currentEntries : c'.currentEntries = c.currentEntries

theorem SameChains.refl (c : Cache) : c.SameChains c :=
  ⟨rfl, rfl, rfl, rfl, rfl, rfl⟩

theorem SameChains.putEntry (c : Cache) (a : ℕ) (e : Entry) :
    c.SameChains (c.putEntry a e) :=
  ⟨rfl, rfl, rfl, rfl, rfl, rfl⟩

theorem SameChains.linked_iff
    {c c' : Cache} (h : c.SameChains c') {a : ℕ} : c'.Linked a ↔ c.Linked a := by
  simp [Linked, h.chain]

/-- What the call `op` makes of the cache. -/
inductive CallCase (c : Cache) : CacheCall → Cache → Prop
  | same {op : CacheCall} {c' : Cache} (hsame : c.SameChains c')
      (hentries : c'.entries = c.entries) : CallCase c op c'
  | created (key : CString) (now : ℤ) (hfind : c.findEntry key = none) :
      CallCase c (.startLoading key now true) (c.created key now)
  /-- A lookup copies a chunk. -/
  | touched {op : CacheCall} {key : CString} {offset maxSize a : ℕ} {now : ℤ}
      {e : Entry} {c' : Cache}
      (hop : op.asLookup = some (key, offset, maxSize, now))
      (hfind : c.findEntry key = some (a, e))
      (hsame : c.SameChains c')
      (hentries : c'.entries =
        (c.putEntry a { e with lastAccessed := now }).entries) :
      CallCase c op c'
  | appended {a : ℕ} {e e' : Entry} {chunk : List UInt8} {now : ℤ} {ok : Bool}
      {r : ℤ} (he : c.entries a = some e) (hload : e.isLoading = true)
      (happ : e.appendData chunk now ok = some (r, e')) :
      CallCase c (.appendData (some a) chunk now ok) (c.putEntry a e')
  | finished {a : ℕ} {e e' : Entry} {now : ℤ} {ok : Bool}
      (he : c.entries a = some e) (hload : e.isLoading = true)
      (hfin : e.finishLoading now ok = some e') :
      CallCase c (.finishLoading (some a) now ok) (c.putEntry a e')
  | cancelled {key : CString} {a : ℕ} {e : Entry}
      (hmem : a ∈ c.chain (c.bucketOf key)) (he : c.entries a = some e)
      (hkey : e.key = key) (hload : e.isLoading = true) :
      CallCase c (.cancelLoading key) (c.removeEntry (c.bucketOf key) a)
  | cleaned {now : ℤ} {c' : Cache} (hclean : c.cleanExpired now = some c') :
      CallCase c (.cleanExpired now) c'
  | waiters {op : CacheCall} {a : ℕ} {e : Entry} (l : List AsyncHandle)
      (he : c.entries a = some e) :
      CallCase c op (c.putEntry a { e with waitingClients := l })

theorem lookupPartial_case
    {op : CacheCall} {key : CString} {offset maxSize : ℕ} {now : ℤ}
    (c : Cache) (hop : op.asLookup = some (key, offset, maxSize, now)) :
    c.CallCase op (c.lookupPartial key offset maxSize now).2 := by
  unfold Cache.lookupPartial
  cases hfind : c.findEntry key with
  | none => exact .same ⟨rfl, rfl, rfl, rfl, rfl, rfl⟩ rfl
  | some p =>
      obtain ⟨a, e⟩ := p
      dsimp only
      split
      next hread =>
        refine .touched hop hfind ⟨rfl, rfl, rfl, rfl, rfl, rfl⟩ ?_
        simp [Entry.touch, hread]
      next => exact .same (.refl c) rfl

theorem registerWaiter_case
    (c : Cache) (key : CString) (h : AsyncHandle) (ok : Bool) :
    c.CallCase (.registerWaiter key h ok) (c.registerWaiter key h ok).2 := by
  unfold Cache.registerWaiter
  cases hfind : c.findEntry key with
  | some p =>
      obtain ⟨a, e⟩ := p
      exact .waiters _ (findEntry_eq_some hfind).2.1
  | none =>
      dsimp only
      cases addToRow key h (c.pending (c.bucketOf key)) with
      | some rows => exact .same ⟨rfl, rfl, rfl, rfl, rfl, rfl⟩ rfl
      | none =>
          cases ok with
          | false => exact .same (.refl c) rfl
          | true => exact .same ⟨rfl, rfl, rfl, rfl, rfl, rfl⟩ rfl

theorem unregisterWaiter_case (c : Cache) (key : CString) (h : AsyncHandle) :
    c.CallCase (.unregisterWaiter key h) (c.unregisterWaiter key h).2 := by
  unfold Cache.unregisterWaiter
  cases hfind : c.findEntry key with
  | some p =>
      obtain ⟨a, e⟩ := p
      exact .waiters _ (findEntry_eq_some hfind).2.1
  | none => exact .same (.refl c) rfl

theorem call_case
    {c c' : Cache} {op : CacheCall} (hcall : c.call op = some c') :
    c.CallCase op c' := by
  cases op with
  | startLoading key now ok =>
      obtain rfl := Option.some.inj hcall
      rcases c.startLoading_cases key now ok with
        ⟨a, e, -, heq⟩ | ⟨hfind, rfl, heq⟩ | ⟨-, -, heq⟩
      · rw [heq]
        exact .same (.refl c) rfl
      · rw [heq]
        exact .created key now hfind
      · rw [heq]
        exact .same (.refl c) rfl
  | appendData entry chunk now ok =>
      cases entry with
      | none =>
          obtain rfl := Option.some.inj hcall
          exact .same (.refl c) rfl
      | some a =>
          obtain ⟨⟨r, c''⟩, hret, rfl⟩ := Option.map_eq_some_iff.mp hcall
          obtain ⟨e, he, hret⟩ := Option.bind_eq_some_iff.mp hret
          split at hret
          next hload =>
            obtain ⟨⟨r', e'⟩, happ, heq⟩ := Option.map_eq_some_iff.mp hret
            obtain ⟨rfl, rfl⟩ := Prod.mk.inj heq
            exact .appended he hload happ
          next =>
            obtain ⟨rfl, rfl⟩ := Prod.mk.inj (Option.some.inj hret)
            exact .same (.refl c) rfl
  | finishLoading entry now ok =>
      cases entry with
      | none =>
          obtain rfl := Option.some.inj hcall
          exact .same (.refl c) rfl
      | some a =>
          obtain ⟨⟨r, c''⟩, hret, rfl⟩ := Option.map_eq_some_iff.mp hcall
          obtain ⟨e, he, hret⟩ := Option.bind_eq_some_iff.mp hret
          split at hret
          next hload =>
            obtain ⟨e', hfin, heq⟩ := Option.map_eq_some_iff.mp hret
            obtain ⟨rfl, rfl⟩ := Prod.mk.inj heq
            exact .finished he hload hfin
          next =>
            obtain ⟨rfl, rfl⟩ := Prod.mk.inj (Option.some.inj hret)
            exact .same (.refl c) rfl
  | cancelLoading key =>
      obtain rfl := Option.some.inj hcall
      rcases c.cancelLoading_cases key with
        ⟨a, e, hmem, he, hkey, hload, heq⟩ | ⟨-, heq⟩
      · rw [heq]
        exact .cancelled hmem he hkey hload
      · rw [heq]
        exact .same (.refl c) rfl
  | cleanExpired now =>
      exact .cleaned hcall
  | lookup key now =>
      obtain rfl := Option.some.inj hcall
      exact c.lookupPartial_case rfl
  | lookupPartial key offset maxSize now =>
      obtain rfl := Option.some.inj hcall
      exact c.lookupPartial_case rfl
  | registerWaiter key h ok =>
      obtain rfl := Option.some.inj hcall
      exact c.registerWaiter_case key h ok
  | unregisterWaiter key h =>
      obtain rfl := Option.some.inj hcall
      exact c.unregisterWaiter_case key h

end Cache

/-- A call on linked cells, with what it does to the lists that they spell
out. -/
theorem Represents.call_case
    {m m' : Memory} {c : Cache} {op : CacheCall} (hr : Represents m c)
    (hw : c.WF) (hcall : m.call op = some m') :
    ∃ c', c.CallCase op c' ∧ Represents m' c' ∧ c'.WF := by
  obtain ⟨c', hcall', hr', hw'⟩ := hr.call hw hcall
  exact ⟨c', Cache.call_case hcall', hr', hw'⟩

/-! ## The blocks of the entries -/

/-- The block of an entry is freed exactly when the entry was finished with no
bytes in it. -/
structure Entry.BlockOk (e : Entry) : Prop where
  sizes : e.SizesOk
  freed_iff : e.dataLive = false ↔ e.isLoading = false ∧ e.data = []

namespace Entry.BlockOk

variable {e e' : Entry} {now : ℤ} {ok : Bool}

/-- What the block depends on is the same. -/
theorem congr
    (he : e.BlockOk) (hsize : e'.allocatedSize = e.allocatedSize)
    (hlive : e'.dataLive = e.dataLive) (hload : e'.isLoading = e.isLoading)
    (hdata : e'.data = e.data) : e'.BlockOk := by
  refine ⟨⟨hsize ▸ he.sizes.pos, hsize ▸ he.sizes.lt, ?_⟩, ?_⟩
  · rw [hdata, hsize]
    exact he.sizes.fits
  · rw [hlive, hload, hdata]
    exact he.freed_iff

theorem created (key : CString) (now : ℤ) : (createEntry key 4096 now).BlockOk :=
  ⟨createEntry_sizesOk key 4096 now, by simp [createEntry]⟩

theorem appendData
    {chunk : List UInt8} {r : ℤ} (he : e.BlockOk) (hload : e.isLoading = true)
    (h : e.appendData chunk now ok = some (r, e')) : e'.BlockOk := by
  refine ⟨he.sizes.appendData h, ?_⟩
  have hload' := (Entry.appendData_cases h).2.1.trans hload
  obtain ⟨hlive, ⟨size, -, rfl, -⟩ | ⟨-, -, rfl⟩⟩ := Entry.appendData_eq_some h
  · simp [hlive, hload]
  · simp [hlive, hload]

theorem finishLoading
    (he : e.BlockOk) (h : e.finishLoading now ok = some e') : e'.BlockOk := by
  refine ⟨he.sizes.finishLoading h, ?_⟩
  obtain ⟨-, hload, hdata, -⟩ := Entry.finishLoading_spec h
  have hlive := Entry.finishLoading_dataLive he.sizes h
  rw [hload, hdata, ← Bool.not_eq_true, hlive]
  simp

end Entry.BlockOk

/-- All entries that are allocated, linked or not. -/
def Cache.BlocksOk (c : Cache) : Prop :=
  ∀ a e, c.entries a = some e → e.BlockOk

theorem Cache.CallCase.blocksOk
    {c c' : Cache} {op : CacheCall} (hcase : c.CallCase op c') (hw : c.WF)
    (hc : c.BlocksOk) : c'.BlocksOk := by
  have hput : ∀ {a : ℕ} {e : Entry}, e.BlockOk → (c.putEntry a e).BlocksOk := by
    intro a e he x f hf
    simp only [putEntry, Function.update_apply] at hf
    split at hf
    · exact Option.some.inj hf ▸ he
    · exact hc x f hf
  cases hcase with
  | same _ hentries => exact fun a e he => hc a e (hentries ▸ he)
  | created key now hfind =>
      intro a e he
      by_cases hne : a = c.nextEntry
      · subst hne
        rw [created_entries_new, Option.some.injEq] at he
        exact he ▸ (Entry.BlockOk.created key now).congr rfl rfl rfl rfl
      · exact hc a e (created_entries_of_ne hne ▸ he)
  | touched _ hfind _ hentries =>
      have he := hc _ _ (findEntry_eq_some hfind).2.1
      intro a f hf
      rw [hentries] at hf
      refine hput ?_ a f hf
      exact he.congr rfl rfl rfl rfl
  | appended he hload happ => exact hput ((hc _ _ he).appendData hload happ)
  | finished he _ hfin => exact hput ((hc _ _ he).finishLoading hfin)
  | cancelled _ _ _ _ =>
      intro a e he
      simp only [removeEntry, Function.update_apply] at he
      split at he
      · cases he
      · exact hc a e he
  | cleaned hclean =>
      intro a e he
      rw [(hw.swept hclean).entries] at he
      split at he
      · cases he
      · exact hc a e he
  | waiters l he => exact hput ((hc _ _ he).congr rfl rfl rfl rfl)

/-- In every run the block of an entry is freed exactly when the entry was
finished with no bytes in it; that of a loading entry, which
`cache_cancel_loading` frees, is allocated. -/
theorem Memory.blockOk_of_run
    {numBuckets : ℕ} {defaultTtl : ℤ} {ops : List CacheCall} {m : Memory}
    (hrun : (calls numBuckets defaultTtl).run
      (cacheInit numBuckets defaultTtl) ops = some m)
    {a : ℕ} {e : EntryCell} (he : m.entryCells a = some e) :
    e.toEntry.BlockOk := by
  have hreach : (calls numBuckets defaultTtl).Reachable m :=
    TransitionSystem.Reachable.run (.initial rfl) hrun
  have hblocks : ∃ c, Represents m c ∧ c.WF ∧ c.BlocksOk := by
    refine hreach.invariant
      (P := fun m => ∃ c, Represents m c ∧ c.WF ∧ c.BlocksOk) ?_ ?_
    · rintro s rfl
      exact ⟨_, .init numBuckets defaultTtl, Cache.wf_init _ _,
        fun a e he => by cases he⟩
    · rintro s op s' ⟨c, hr, hw, hc⟩ - hstep
      obtain ⟨c', hcase, hr', hw'⟩ := hr.call_case hw hstep
      exact ⟨c', hr', hw', hcase.blocksOk hw hc⟩
  obtain ⟨c, hr, -, hc⟩ := hblocks
  exact hc a _ (hr.entries_of_cell he)

end Proxy
end OsFifthSem
