import OsFifthSem.Proxy.Cache.Collect
import OsFifthSem.Proxy.Cache.Forget
import OsFifthSem.Proxy.Cache.HandOver

/-!
# Unregistering a waiter

`cache_unregister_waiter` looks for the handle among the waiters of the entry
that its search finds.  It misses a handle in a pending row, and one in an
entry that is not linked any more; otherwise the handle is gone for good.
-/

namespace OsFifthSem
namespace Proxy

open Support

/-- The handle that a call registers. -/
def CacheCall.registered : CacheCall → Option AsyncHandle
  | .registerWaiter _ h _ => some h
  | .startLoading _ _ _ => none
  | .appendData _ _ _ _ => none
  | .finishLoading _ _ _ => none
  | .cancelLoading _ => none
  | .cleanExpired _ => none
  | .lookup _ _ => none
  | .lookupPartial _ _ _ _ => none
  | .unregisterWaiter _ _ => none

namespace Cache

/-! ## Properties of all waiter lists -/

/-- All lists of waiters, in entries and in pending rows, have a property. -/
structure AllWaiters (c : Cache) (P : List AsyncHandle → Prop) : Prop where
  entries : ∀ a e, c.entries a = some e → P e.waitingClients
  rows : ∀ b row, row ∈ c.pending b → P row.waiter

namespace AllWaiters

variable {c c' : Cache} {P Q : List AsyncHandle → Prop} {key : CString}
  {h : AsyncHandle}

theorem imp (hc : c.AllWaiters P) (hPQ : ∀ l, P l → Q l) : c.AllWaiters Q where
  entries := fun a e he => hPQ _ (hc.entries a e he)
  rows := fun b row hrow => hPQ _ (hc.rows b row hrow)

/-- Entries that keep their waiters, or are freed. -/
theorem of_same
    (hc : c.AllWaiters P) (hpending : c'.pending = c.pending)
    (hentries : ∀ a e', c'.entries a = some e' →
      ∃ e, c.entries a = some e ∧ e'.waitingClients = e.waitingClients) :
    c'.AllWaiters P where
  entries := by
    intro a e' he'
    obtain ⟨e, he, hsame⟩ := hentries a e' he'
    exact hsame ▸ hc.entries a e he
  rows := fun b row hrow => hc.rows b row (hpending ▸ hrow)

theorem putEntry
    (hc : c.AllWaiters P) {a : ℕ} {e : Entry} (he : P e.waitingClients) :
    (c.putEntry a e).AllWaiters P where
  entries := by
    intro x f hf
    by_cases hx : x = a
    · subst hx
      obtain rfl : e = f := by simpa [Cache.putEntry] using hf
      exact he
    · exact hc.entries x f (by simpa [Cache.putEntry, hx] using hf)
  rows := hc.rows

theorem setPending
    (hc : c.AllWaiters P) {b : ℕ} {rows : List WaiterRow}
    (hrows : ∀ row ∈ rows, P row.waiter) :
    { c with pending := Function.update c.pending b rows }.AllWaiters P where
  entries := hc.entries
  rows := by
    intro b' row hrow
    by_cases hb : b' = b
    · subst hb
      exact hrows row (by simpa using hrow)
    · exact hc.rows b' row (by simpa [hb] using hrow)

/-- The waiters that are handed over stood in a row. -/
theorem waitersOf
    (hc : c.AllWaiters P) (hnil : P []) (key : CString) (b : ℕ) :
    P (Cache.waitersOf key (c.pending b)) := by
  unfold Cache.waitersOf
  cases hfind : (c.pending b).find? fun r => decide (r.key = key) with
  | none => exact hnil
  | some row => exact hc.rows b row (List.mem_of_find?_eq_some hfind)

theorem startLoading
    (hc : c.AllWaiters P) (hw : c.WF) (hnil : P []) (key : CString) (now : ℤ)
    (ok : Bool) : (c.startLoading key now ok).2.AllWaiters P := by
  rcases c.startLoading_cases key now ok with
    ⟨a, e, -, heq⟩ | ⟨-, -, heq⟩ | ⟨-, -, heq⟩
  · exact heq ▸ hc
  · rw [heq]
    constructor
    · intro a e he
      by_cases ha : a = c.nextEntry
      · subst ha
        obtain rfl : c.newEntry key now = e := by
          simpa using (c.created_entries_new key now).symm.trans he
        rw [newEntry, handOver_fst_eq (hw.rows_nodup _)]
        exact hc.waitersOf hnil key _
      · exact hc.entries a e ((created_entries_of_ne ha).symm.trans he)
    · intro b row hrow
      by_cases hb : b = c.bucketOf key
      · subst hb
        have hmem : row ∈ (handOver key (c.pending (c.bucketOf key))).2 := by
          simpa [created] using hrow
        exact hc.rows _ row ((handOver_sublist _ _).subset hmem)
      · exact hc.rows b row (by simpa [created, hb] using hrow)
  · exact heq ▸ hc

theorem cancelLoading (hc : c.AllWaiters P) (key : CString) :
    (c.cancelLoading key).2.AllWaiters P := by
  rcases c.cancelLoading_cases key with
    ⟨a, e, -, -, -, -, heq⟩ | ⟨-, heq⟩
  · rw [heq]
    refine hc.of_same rfl fun x e' he' => ⟨e', ?_, rfl⟩
    have hx : x ≠ a := by
      rintro rfl
      simp [removeEntry] at he'
    simpa [removeEntry, hx] using he'
  · rw [heq]
    exact hc

theorem cleanExpired
    (hc : c.AllWaiters P) (hw : c.WF) {c' : Cache} {now : ℤ}
    (h : c.cleanExpired now = some c') : c'.AllWaiters P := by
  have hs := hw.swept h
  refine hc.of_same hs.pending fun a e' he' => ⟨e', ?_, rfl⟩
  rw [hs.entries] at he'
  split at he'
  · cases he'
  · exact he'

theorem lookupPartial
    (hc : c.AllWaiters P) (key : CString) (offset maxSize : ℕ) (now : ℤ) :
    (c.lookupPartial key offset maxSize now).2.AllWaiters P := by
  unfold Cache.lookupPartial
  cases hfind : c.findEntry key with
  | none => exact ⟨hc.entries, hc.rows⟩
  | some p =>
      obtain ⟨a, e⟩ := p
      have he := hc.entries a e (findEntry_eq_some hfind).2.1
      dsimp only
      split
      · have htouch : P (e.touch (readEntry e.isLoading e.data offset
            maxSize).status now).waitingClients := by
          simpa using he
        have hput := hc.putEntry (a := a) htouch
        exact ⟨hput.entries, hput.rows⟩
      · exact hc

theorem appendData
    (hc : c.AllWaiters P) {a : ℕ} {chunk : List UInt8} {now : ℤ} {ok : Bool}
    {r : ℤ} (hcall : c.appendData a chunk now ok = some (r, c')) :
    c'.AllWaiters P := by
  obtain ⟨e, he, hcall⟩ := Option.bind_eq_some_iff.mp hcall
  split at hcall
  · obtain ⟨⟨r', e'⟩, happ, heq⟩ := Option.map_eq_some_iff.mp hcall
    obtain ⟨rfl, rfl⟩ := Prod.mk.inj heq
    have hwait := (Entry.appendData_cases happ).2.2.1
    exact hc.putEntry (hwait ▸ hc.entries a e he)
  · obtain ⟨rfl, rfl⟩ := Prod.mk.inj (Option.some.inj hcall)
    exact hc

theorem finishLoading
    (hc : c.AllWaiters P) {a : ℕ} {now : ℤ} {ok : Bool} {r : ℤ}
    (hcall : c.finishLoading a now ok = some (r, c')) : c'.AllWaiters P := by
  obtain ⟨e, he, hcall⟩ := Option.bind_eq_some_iff.mp hcall
  split at hcall
  · obtain ⟨e', hfin, heq⟩ := Option.map_eq_some_iff.mp hcall
    obtain ⟨rfl, rfl⟩ := Prod.mk.inj heq
    have hwait := (Entry.finishLoading_spec hfin).2.2.2.1
    exact hc.putEntry (hwait ▸ hc.entries a e he)
  · obtain ⟨rfl, rfl⟩ := Prod.mk.inj (Option.some.inj hcall)
    exact hc

theorem unregisterWaiter
    (hc : c.AllWaiters P) (herase : ∀ l, P l → P (l.erase h))
    (key : CString) : (c.unregisterWaiter key h).2.AllWaiters P := by
  unfold Cache.unregisterWaiter
  cases hfind : c.findEntry key with
  | none => exact hc
  | some p =>
      obtain ⟨a, e⟩ := p
      have he := hc.entries a e (findEntry_eq_some hfind).2.1
      exact hc.putEntry (herase _ he)

/-- A row of the table after a registration is a row of the table before, or
one that the handle was added to. -/
theorem addToRow
    {rows rows' : List WaiterRow} (hrows : ∀ row ∈ rows, P row.waiter)
    (hPQ : ∀ l, P l → Q l) (hadd : ∀ l, P l → Q (h :: l))
    (hcall : Cache.addToRow key h rows = some rows') :
    ∀ row ∈ rows', Q row.waiter := by
  induction rows generalizing rows' with
  | nil => cases hcall
  | cons r rows ih =>
      have htail : ∀ row ∈ rows, P row.waiter :=
        fun row hrow => hrows row (List.mem_cons_of_mem r hrow)
      have hr := hrows r List.mem_cons_self
      simp only [Cache.addToRow] at hcall
      split at hcall
      · obtain rfl := Option.some.inj hcall
        intro row hrow
        rcases List.mem_cons.mp hrow with rfl | hrow
        · exact hadd _ hr
        · exact hPQ _ (htail row hrow)
      · obtain ⟨rest, hrest, rfl⟩ := Option.map_eq_some_iff.mp hcall
        intro row hrow
        rcases List.mem_cons.mp hrow with rfl | hrow
        · exact hPQ _ hr
        · exact ih htail hrest row hrow

theorem registerWaiter
    (hc : c.AllWaiters P) (hnil : P []) (hPQ : ∀ l, P l → Q l)
    (hadd : ∀ l, P l → Q (h :: l)) (key : CString) (ok : Bool) :
    (c.registerWaiter key h ok).2.AllWaiters Q := by
  have hQ := hc.imp hPQ
  unfold Cache.registerWaiter
  cases hfind : c.findEntry key with
  | some p =>
      obtain ⟨a, e⟩ := p
      have he := hc.entries a e (findEntry_eq_some hfind).2.1
      exact hQ.putEntry (hadd _ he)
  | none =>
      dsimp only
      cases hrow : Cache.addToRow key h (c.pending (c.bucketOf key)) with
      | some rows =>
          exact hQ.setPending (addToRow (hc.rows _) hPQ hadd hrow)
      | none =>
          cases ok with
          | false => exact hQ
          | true =>
              refine hQ.setPending fun row hmem => ?_
              rcases List.mem_cons.mp hmem with rfl | hmem
              · exact hadd [] hnil
              · exact hQ.rows _ row hmem

/-- Every call keeps a property of waiter lists that holds of the empty list,
survives the removal of a handle and that of the call's own handle. -/
theorem call
    {op : CacheCall} (hc : c.AllWaiters P) (hw : c.WF) (hnil : P [])
    (herase : ∀ h l, P l → P (l.erase h))
    (hadd : ∀ h l, op.registered = some h → P l → P (h :: l))
    (hcall : c.call op = some c') : c'.AllWaiters P := by
  cases op with
  | startLoading key now ok =>
      exact Option.some.inj hcall ▸ hc.startLoading hw hnil key now ok
  | appendData entry chunk now ok =>
      cases entry with
      | none => exact Option.some.inj hcall ▸ hc
      | some a =>
          obtain ⟨⟨r, c''⟩, happ, rfl⟩ := Option.map_eq_some_iff.mp hcall
          exact hc.appendData happ
  | finishLoading entry now ok =>
      cases entry with
      | none => exact Option.some.inj hcall ▸ hc
      | some a =>
          obtain ⟨⟨r, c''⟩, hfin, rfl⟩ := Option.map_eq_some_iff.mp hcall
          exact hc.finishLoading hfin
  | cancelLoading key => exact Option.some.inj hcall ▸ hc.cancelLoading key
  | cleanExpired now => exact hc.cleanExpired hw hcall
  | lookup key now =>
      exact Option.some.inj hcall ▸ hc.lookupPartial key 0 0 now
  | lookupPartial key offset maxSize now =>
      exact Option.some.inj hcall ▸ hc.lookupPartial key offset maxSize now
  | registerWaiter key h ok =>
      exact Option.some.inj hcall ▸
        hc.registerWaiter hnil (fun _ hl => hl) (fun l => hadd h l rfl) key ok
  | unregisterWaiter key h =>
      exact Option.some.inj hcall ▸ hc.unregisterWaiter (herase h) key

end AllWaiters

end Cache

/-! ## Where a handle is -/

namespace Memory

/-- No waiter of the cache has the handle: not in an entry, linked or not, and
not in a pending row. -/
structure FreeOf (m : Memory) (h : AsyncHandle) : Prop where
  entries : ∀ a e, m.entryCells a = some e → h ∉ e.waitingClients
  rows : ∀ b rows row, m.PendingOf b rows → row ∈ rows → h ∉ row.waiter

/-- The handle waits, if anywhere, in the entry that the search for the key
finds. -/
structure WaitsInEntry (m : Memory) (key : CString) (h : AsyncHandle) :
    Prop where
  entries : ∀ a e, m.entryCells a = some e → h ∈ e.waitingClients →
    e.key = key ∧ ∃ b xs, m.EntriesOf b xs ∧ a ∈ xs
  rows : ∀ b rows row, m.PendingOf b rows → row ∈ rows → h ∉ row.waiter

/-- The handle is gone, the registrations of all other handles are as they
were, and it stays away until it is registered again. -/
structure Unregistered (m : Memory) (h : AsyncHandle) (m' : Memory) :
    Prop where
  gone : m'.FreeOf h
  linked : ∀ b xs, m.EntriesOf b xs → m'.EntriesOf b xs
  entries : ∀ a, (m'.entryCells a).map (fun e => e.toEntry.forget h) =
    (m.entryCells a).map (fun e => e.toEntry.forget h)
  rows : ∀ b rows, m.PendingOf b rows → ∃ rows', m'.PendingOf b rows' ∧
    rows'.map (WaiterRow.forget h) = rows.map (WaiterRow.forget h)
  later : ∀ (ops : List CacheCall) m'', (∀ op ∈ ops, op.registered ≠ some h) →
    ops.foldlM Memory.call m' = some m'' → m''.FreeOf h

end Memory

section Call

variable {m m' : Memory} {c : Cache} {key : CString} {h : AsyncHandle}

theorem Represents.freeOf_iff (hr : Represents m c) :
    m.FreeOf h ↔ c.AllWaiters fun l => h ∉ l := by
  constructor
  · intro hfree
    constructor
    · intro a e he
      obtain ⟨cell, hcell, rfl⟩ := hr.cell_of_entries he
      exact hfree.entries a cell hcell
    · intro b row hrow
      exact hfree.rows b _ row (hr.pendingOf_iff.mpr rfl) hrow
  · intro hall
    constructor
    · intro a e he
      exact hall.entries a e.toEntry (hr.entries_of_cell he)
    · intro b rows row hrows hrow
      rw [hr.pendingOf_iff] at hrows
      exact hall.rows b row (hrows ▸ hrow)

/-- A handle that is nowhere stays away while it is not registered. -/
theorem Memory.FreeOf.calls
    (hm : m.Represented) (hfree : m.FreeOf h) (ops : List CacheCall)
    (hops : ∀ op ∈ ops, op.registered ≠ some h)
    (hrun : ops.foldlM Memory.call m = some m') : m'.FreeOf h := by
  induction ops generalizing m with
  | nil =>
      obtain rfl : m = m' := Option.some.inj hrun
      exact hfree
  | cons op ops ih =>
      rw [List.foldlM_cons] at hrun
      obtain ⟨m₁, hcall, hrest⟩ := Option.bind_eq_some_iff.mp hrun
      obtain ⟨c, hr, hw⟩ := hm
      obtain ⟨c₁, hcall₁, hr₁, hw₁⟩ := hr.call hw hcall
      have hop := hops op List.mem_cons_self
      have hall := hr.freeOf_iff.mp hfree
      have hall₁ : c₁.AllWaiters fun l => h ∉ l := by
        refine hall.call hw (by simp) ?_ ?_ hcall₁
        · exact fun h' l hl hmem => hl (List.mem_of_mem_erase hmem)
        · rintro h' l hreg hl hmem
          rcases List.mem_cons.mp hmem with rfl | hmem
          · exact hop hreg
          · exact hl hmem
      exact ih ⟨c₁, hr₁, hw₁⟩ (hr₁.freeOf_iff.mpr hall₁)
        (fun op' hop' => hops op' (List.mem_cons_of_mem op hop')) hrest

/-- Where the handle may be in a cache, on lists. -/
theorem Represents.waitsInEntry_iff (hr : Represents m c) :
    m.WaitsInEntry key h ↔
      (∀ a e, c.entries a = some e → h ∈ e.waitingClients →
        c.Linked a ∧ e.key = key) ∧
      ∀ b row, row ∈ c.pending b → h ∉ row.waiter := by
  constructor
  · intro hin
    constructor
    · intro a e he hmem
      obtain ⟨cell, hcell, rfl⟩ := hr.cell_of_entries he
      obtain ⟨hkey, b, xs, hxs, ha⟩ := hin.entries a cell hcell hmem
      exact ⟨⟨b, hr.entriesOf_iff.mp hxs ▸ ha⟩, hkey⟩
    · intro b row hrow
      exact hin.rows b _ row (hr.pendingOf_iff.mpr rfl) hrow
  · rintro ⟨hentries, hrows⟩
    constructor
    · intro a e he hmem
      obtain ⟨⟨b, hb⟩, hkey⟩ := hentries a _ (hr.entries_of_cell he) hmem
      exact ⟨hkey, b, _, hr.chains b, hb⟩
    · intro b rows row hpending hrow
      rw [hr.pendingOf_iff] at hpending
      exact hrows b row (hpending ▸ hrow)

/-- A handle that is at most once in each list is gone exactly when it was in
the entry that the search finds. -/
theorem Cache.WF.unregisterWaiter_gone_iff
    (hw : c.WF) (key : CString)
    (honce : c.AllWaiters fun l => l.count h ≤ 1) :
    ((c.unregisterWaiter key h).2.AllWaiters fun l => h ∉ l) ↔
      (∀ a e, c.entries a = some e → h ∈ e.waitingClients →
        c.Linked a ∧ e.key = key) ∧
      ∀ b row, row ∈ c.pending b → h ∉ row.waiter := by
  unfold Cache.unregisterWaiter
  cases hfind : c.findEntry key with
  | none =>
      constructor
      · rintro ⟨hentries, hrows⟩
        exact ⟨fun a e he hmem => absurd hmem (hentries a e he), hrows⟩
      · rintro ⟨hentries, hrows⟩
        refine ⟨fun a e he hmem => ?_, hrows⟩
        obtain ⟨hlinked, hkey⟩ := hentries a e he hmem
        have hsome := hw.findEntry_of_linked hlinked he
        rw [hkey, hfind] at hsome
        cases hsome
  | some p =>
      obtain ⟨a, e⟩ := p
      obtain ⟨hlinked, he, hkey⟩ := hw.findEntry_eq_some_iff.mp hfind
      constructor
      · rintro ⟨hentries, hrows⟩
        refine ⟨fun x f hf hmem => ?_, hrows⟩
        by_cases hx : x = a
        · subst hx
          obtain rfl := Option.some.inj (he.symm.trans hf)
          exact ⟨hlinked, hkey⟩
        · have hf' : (c.putEntry a { e with
              waitingClients := e.waitingClients.erase h }).entries x =
                some f := by
            simpa [Cache.putEntry, hx] using hf
          exact absurd hmem (hentries x f hf')
      · rintro ⟨hentries, hrows⟩
        refine ⟨fun x f hf => ?_, hrows⟩
        by_cases hx : x = a
        · subst hx
          obtain rfl : { e with
              waitingClients := e.waitingClients.erase h } = f := by
            simpa [Cache.putEntry] using hf
          have hcount := honce.entries x e he
          rw [← List.count_eq_zero, List.count_erase_self]
          omega
        · have hf' : c.entries x = some f := by
            simpa [Cache.putEntry, hx] using hf
          intro hmem
          obtain ⟨hlinked', hkey'⟩ := hentries x f hf' hmem
          have hsome := hw.findEntry_of_linked hlinked' hf'
          rw [hkey', hfind] at hsome
          exact hx (Prod.mk.inj (Option.some.inj hsome)).1.symm

/-- A call on a handle that is at most once in each list removes it for good
exactly when it was in the entry that the search finds. -/
theorem Represents.unregistered_iff
    (hr : Represents m c) (hw : c.WF)
    (honce : c.AllWaiters fun l => l.count h ≤ 1) :
    (∃ r m', m.cacheUnregisterWaiter key h = some (r, m') ∧
        m.Unregistered h m') ↔ m.WaitsInEntry key h := by
  obtain ⟨m', hcall, hr'⟩ := hr.cacheUnregisterWaiter hw key h
  have hgone := hw.unregisterWaiter_gone_iff key honce
  rw [← hr'.freeOf_iff, ← hr.waitsInEntry_iff] at hgone
  rw [← hgone]
  constructor
  · rintro ⟨r, m'', hcall', hun⟩
    have heq := Option.some.inj (hcall.symm.trans hcall')
    obtain rfl : m' = m'' := (Prod.mk.inj heq).2
    exact hun.gone
  · intro hfree
    have hforget : (c.unregisterWaiter key h).2.forget h = c.forget h :=
      Cache.forget_unregisterWaiter_self c key
    have hm' : m'.Represented := ⟨_, hr', hw.unregisterWaiter key h⟩
    refine ⟨_, m', hcall, hfree, ?_, ?_, ?_,
      fun ops m'' hops hrun => hfree.calls hm' ops hops hrun⟩
    · intro b xs hxs
      have hchain := congrArg Cache.chain hforget
      rw [Cache.forget_chain, Cache.forget_chain] at hchain
      rw [hr.entriesOf_iff] at hxs
      rw [hr'.entriesOf_iff, hxs, hchain]
    · intro a
      have hentry := congrFun (congrArg Cache.entries hforget) a
      rw [Cache.forget_entries, Cache.forget_entries, ← hr'.entries,
        ← hr.entries, Option.map_map, Option.map_map] at hentry
      exact hentry
    · intro b rows hrows
      have hpending := congrFun (congrArg Cache.pending hforget) b
      rw [hr.pendingOf_iff] at hrows
      exact ⟨_, hr'.pendingOf_iff.mpr rfl, hrows ▸ hpending⟩

end Call

/-! ## Sequences of calls -/

theorem CacheCall.registered_eq_some_iff {op : CacheCall} {h : AsyncHandle} :
    op.registered = some h ↔ ∃ key ok, op = .registerWaiter key h ok := by
  cases op <;> simp [CacheCall.registered]

/-- A registration that fails changes nothing. -/
theorem Cache.registerWaiter_cases (c : Cache) (key : CString) (h : AsyncHandle)
    (ok : Bool) : (c.registerWaiter key h ok).1 = 0 ∨
      (c.registerWaiter key h ok).2 = c := by
  unfold Cache.registerWaiter
  cases c.findEntry key with
  | some p => exact Or.inl rfl
  | none =>
      dsimp only
      cases Cache.addToRow key h (c.pending (c.bucketOf key)) with
      | some rows => exact Or.inl rfl
      | none =>
          cases ok with
          | false => exact Or.inr rfl
          | true => exact Or.inl rfl

namespace Memory

/-- The number of times `h` has been registered since its last
unregistration, after one more call. -/
def registrations (m : Memory) (h : AsyncHandle) (n : ℕ) : CacheCall → ℕ
  | .registerWaiter key h' ok =>
      if h' = h ∧ (m.cacheRegisterWaiter key h' ok).any (fun p => p.1 == 0)
      then n + 1 else n
  | .unregisterWaiter _ h' => if h' = h then 0 else n
  | _ => n

/-- The sequences of calls, with the registrations of `h`. -/
def trackedCalls (numBuckets : ℕ) (defaultTtl : ℤ) (h : AsyncHandle) :
    TransitionSystem (Memory × ℕ) CacheCall where
  Initial := fun s => s = (cacheInit numBuckets defaultTtl, 0)
  step := fun s op =>
    (s.1.call op).map fun m' => (m', s.1.registrations h s.2 op)

/-- An unregistration of `h` finds it registered at most once, and waiting
nowhere but in the entry that its own search finds. -/
def UnregistersFound (h : AsyncHandle) (s : Memory × ℕ) (op : CacheCall) :
    Prop :=
  ∀ key, op = .unregisterWaiter key h → s.2 ≤ 1 ∧ s.1.WaitsInEntry key h

/-- No list holds the handle more often than it was registered. -/
def Tracked (h : AsyncHandle) (s : Memory × ℕ) : Prop :=
  ∃ c : Cache, Represents s.1 c ∧ c.WF ∧
    c.AllWaiters fun l => l.count h ≤ s.2

theorem registrations_of_other
    {m : Memory} {h : AsyncHandle} {n : ℕ} {op : CacheCall}
    (hreg : op.registered ≠ some h)
    (hun : ∀ key, op ≠ .unregisterWaiter key h) :
    m.registrations h n op = n := by
  cases op with
  | registerWaiter key h' ok =>
      have hne : h' ≠ h := by
        rintro rfl
        exact hreg rfl
      simp [registrations, hne]
  | unregisterWaiter key h' =>
      have hne : h' ≠ h := by
        rintro rfl
        exact hun key rfl
      simp [registrations, hne]
  | _ => rfl

theorem tracked_step
    {numBuckets : ℕ} {defaultTtl : ℤ} {h : AsyncHandle} {s t : Memory × ℕ}
    {op : CacheCall} (hs : Tracked h s) (hop : UnregistersFound h s op)
    (hstep : (trackedCalls numBuckets defaultTtl h).step s op = some t) :
    Tracked h t := by
  obtain ⟨c, hr, hw, hall⟩ := hs
  obtain ⟨m', hcall, rfl⟩ := Option.map_eq_some_iff.mp hstep
  obtain ⟨c', hcall', hr', hw'⟩ := hr.call hw hcall
  refine ⟨c', hr', hw', ?_⟩
  by_cases hreg : op.registered = some h
  · obtain ⟨key, ok, rfl⟩ := CacheCall.registered_eq_some_iff.mp hreg
    obtain rfl := Option.some.inj hcall'
    obtain ⟨m'', hm'', -⟩ := hr.cacheRegisterWaiter hw key h ok
    rcases c.registerWaiter_cases key h ok with hzero | hsame
    · have hadd := hall.registerWaiter (h := h) (Q := fun l =>
        l.count h ≤ s.2 + 1) (by simp) (fun l hl => by omega)
        (fun l hl => by simpa using hl) key ok
      simpa [registrations, hm'', hzero] using hadd
    · rw [hsame]
      refine hall.imp fun l hl => ?_
      simp only [registrations]
      split <;> omega
  · by_cases hun : ∃ key, op = .unregisterWaiter key h
    · obtain ⟨key, rfl⟩ := hun
      obtain rfl := Option.some.inj hcall'
      obtain ⟨hone, hin⟩ := hop key rfl
      have hgone := (hw.unregisterWaiter_gone_iff key (hall.imp fun l hl =>
        hl.trans hone)).mpr (hr.waitsInEntry_iff.mp hin)
      refine hgone.imp fun l hl => ?_
      rw [List.count_eq_zero.mpr hl]
      exact Nat.zero_le _
    · have hkeep := registrations_of_other (m := s.1) (n := s.2) hreg
        fun key hkey => hun ⟨key, hkey⟩
      rw [hkeep]
      refine hall.call hw (by simp) ?_ ?_ hcall'
      · exact fun h' l hl => (List.erase_sublist.count_le h).trans hl
      · intro h' l hreg' hl
        have hne : h' ≠ h := by
          rintro rfl
          exact hreg hreg'
        rwa [List.count_cons_of_ne hne]

theorem tracked_of_reachable
    {numBuckets : ℕ} {defaultTtl : ℤ} {h : AsyncHandle} {s : Memory × ℕ}
    (hs : (trackedCalls numBuckets defaultTtl h).ReachableUnder
      (UnregistersFound h) s) : Tracked h s := by
  refine hs.invariant ?_ fun s op t hs hop hstep => tracked_step hs hop hstep
  rintro s rfl
  refine ⟨_, Represents.init numBuckets defaultTtl,
    Cache.wf_init numBuckets defaultTtl, ?_, ?_⟩
  · simp [Cache.init]
  · simp [Cache.init]

/-- In every run in which the earlier unregistrations of `h` found it, an
unregistration removes it for good exactly when it, too, finds `h` waiting
nowhere but in the entry of the key. -/
theorem unregistered_iff_waitsInEntry
    (numBuckets : ℕ) (defaultTtl : ℤ) (key : CString) (h : AsyncHandle)
    (m : Memory) (n : ℕ)
    (hreach : (trackedCalls numBuckets defaultTtl h).ReachableUnder
      (UnregistersFound h) (m, n)) (hn : n ≤ 1) :
    (∃ r m', m.cacheUnregisterWaiter key h = some (r, m') ∧
        m.Unregistered h m') ↔ m.WaitsInEntry key h := by
  obtain ⟨c, hr, hw, hall⟩ := tracked_of_reachable hreach
  exact hr.unregistered_iff hw (hall.imp fun l hl => hl.trans hn)

/-- A handle that is registered for a key without an entry, and unregistered
at once, stays in the pending row. -/
theorem unregister_leaves_row :
    ∃ m, (trackedCalls 1 60 7).run (cacheInit 1 60, 0)
        [.registerWaiter (.ofBuffer [97]) 7 true] = some (m, 1) ∧
      ¬∃ r m', m.cacheUnregisterWaiter (.ofBuffer [97]) 7 = some (r, m') ∧
        m.Unregistered 7 m' := by
  refine ⟨_, rfl, ?_⟩
  rintro ⟨r, m', hcall, hun⟩
  obtain rfl := (Prod.mk.inj (Option.some.inj hcall)).2
  refine hun.gone.rows 0 [⟨.ofBuffer [97], [7]⟩] _ ?_ List.mem_cons_self
    List.mem_cons_self
  exact ⟨[0], Chain.cons rfl Chain.nil, rfl⟩

/-- Two handles are registered while the entry is loading, and the second one
stays. -/
theorem unregistered_iff_waitsInEntry_loading :
    ∃ m r m', (trackedCalls 1 60 7).run (cacheInit 1 60, 0)
        [.startLoading (.ofBuffer [97]) 0 true,
          .registerWaiter (.ofBuffer [97]) 7 true,
          .registerWaiter (.ofBuffer [97]) 9 true] = some (m, 1) ∧
      m.cacheUnregisterWaiter (.ofBuffer [97]) 7 = some (r, m') ∧
      (m.entryCells 0).map (·.waitingClients) = some [9, 7] ∧
      (m'.entryCells 0).map (·.waitingClients) = some [9] ∧
      ((∃ r m', m.cacheUnregisterWaiter (.ofBuffer [97]) 7 = some (r, m') ∧
          m.Unregistered 7 m') ↔ m.WaitsInEntry (.ofBuffer [97]) 7) := by
  refine ⟨_, _, _, rfl, rfl, rfl, rfl,
    unregistered_iff_waitsInEntry 1 60 _ 7 _ 1 ?_ le_rfl⟩
  refine TransitionSystem.ReachableUnder.run (.initial rfl) ?_
    (rfl : (trackedCalls 1 60 7).run (cacheInit 1 60, 0)
      [.startLoading (.ofBuffer [97]) 0 true,
        .registerWaiter (.ofBuffer [97]) 7 true,
        .registerWaiter (.ofBuffer [97]) 9 true] = some _)
  exact ⟨nofun, fun _ _ => ⟨nofun, fun _ _ => ⟨nofun, fun _ _ => trivial⟩⟩⟩

end Memory

end Proxy
end OsFifthSem
