import OsFifthSem.Proxy.Cache.Invariant
import OsFifthSem.Proxy.Cache.Memory

/-!
# The linked cells refine the lists

`Represents m c` reads the chains and the pending tables of `c` off the cells
of `m`.  From a memory that represents a well-formed cache, every operation of
`cache.c` ends, returns what the operation on lists returns, and leaves a
memory that represents the resulting lists.

Relinking a cell of one bucket does not disturb another bucket, because the
key of a cell determines the only bucket whose chain can pass through it.
-/

namespace OsFifthSem
namespace Proxy

open Support

/-- The contents of the row cell at an address. -/
def Memory.rowAt (m : Memory) (r : ℕ) : Option WaiterRow :=
  (m.rowCells r).map RowCell.toWaiterRow

/-- The cells of `m` spell out the lists of `c`. -/
structure Represents (m : Memory) (c : Cache) : Prop where
  fields : m.toCacheFields = c.toCacheFields
  nextEntry : m.nextEntry = c.nextEntry
  entries : ∀ a, (m.entryCells a).map EntryCell.toEntry = c.entries a
  chains : ∀ b, Chain EntryCell.next m.entryCells (m.head b) (c.chain b)
  rows : ∀ b, ∃ rs,
    Chain RowCell.next m.rowCells (m.pendingHead b) rs ∧
      rs.map m.rowAt = (c.pending b).map some
  rowFresh : ∀ r row, m.rowCells r = some row → r < m.nextRow

namespace Represents

variable {m : Memory} {c : Cache}

theorem init (numBuckets : ℕ) (defaultTtl : ℤ) :
    Represents (Memory.cacheInit numBuckets defaultTtl)
      (Cache.init numBuckets defaultTtl) where
  fields := rfl
  nextEntry := rfl
  entries := fun _ => rfl
  chains := fun _ => .nil
  rows := fun _ => ⟨[], .nil, rfl⟩
  rowFresh := by simp [Memory.cacheInit]

theorem bucketOf_eq (hr : Represents m c) (key : CString) :
    m.bucketOf key = c.bucketOf key := by
  rw [Memory.bucketOf, Cache.bucketOf, hr.fields]

theorem entries_of_cell
    (hr : Represents m c) {a : ℕ} {cell : EntryCell}
    (hcell : m.entryCells a = some cell) :
    c.entries a = some cell.toEntry := by
  rw [← hr.entries, hcell]
  rfl

theorem cell_of_entries
    (hr : Represents m c) {a : ℕ} {e : Entry} (he : c.entries a = some e) :
    ∃ cell, m.entryCells a = some cell ∧ cell.toEntry = e := by
  rw [← hr.entries] at he
  exact Option.map_eq_some_iff.mp he

/-! ## Searching -/

theorem chain_length_lt
    (hr : Represents m c) (hw : c.WF) (b : ℕ) :
    (c.chain b).length < m.nextEntry + 1 := by
  refine Nat.lt_succ_of_le ((hr.chains b).length_le fun a cell hcell => ?_)
  rw [hr.nextEntry]
  exact hw.fresh a _ (hr.entries_of_cell hcell)

/-- The search loop over a chain stops at the first entry that passes the
test, if there is one. -/
theorem scanEntries_cases
    (hr : Represents m c) (hw : c.WF) (test : Entry → Bool) (b : ℕ) :
    (∃ pre a post cell, c.chain b = pre ++ a :: post ∧
      m.entryCells a = some cell ∧ cell.next = post.head? ∧
      test cell.toEntry = true ∧
      m.scanEntries (fun cell => test cell.toEntry) b =
        some (pre.getLast?, some a)) ∨
    (∃ last, m.scanEntries (fun cell => test cell.toEntry) b =
        some (last, none) ∧
      ∀ a ∈ c.chain b, ∀ e, c.entries a = some e → test e = false) := by
  let cellTest := testAt m.entryCells fun cell => test cell.toEntry
  have hfuel := hr.chain_length_lt hw b
  by_cases hex : ∃ a ∈ c.chain b, cellTest a = true
  · obtain ⟨pre, a, post, hsplit⟩ := exists_splitAt hex
    have hscan : m.scanEntries (fun cell => test cell.toEntry) b =
        some (pre.getLast?.or none, some a) :=
      scan_of_splitAt (hr.chains b) hfuel hsplit
    obtain ⟨cell, hcell, hnext⟩ := Chain.cell (hsplit.eq ▸ hr.chains b)
    refine Or.inl ⟨pre, a, post, cell, hsplit.eq, hcell, hnext, ?_, ?_⟩
    · simpa [cellTest, testAt, hcell] using hsplit.at_split
    · rw [hscan, Option.or_none]
  · have hnone : ∀ a ∈ c.chain b, cellTest a = false := by
      intro a ha
      by_contra htrue
      exact hex ⟨a, ha, by simpa using htrue⟩
    obtain ⟨last, hscan⟩ := scan_of_forall (hr.chains b) hfuel hnone
    refine Or.inr ⟨last, hscan, fun a ha e he => ?_⟩
    obtain ⟨cell, hcell, rfl⟩ := hr.cell_of_entries he
    simpa [cellTest, testAt, hcell] using hnone a ha

/-- The search for a key agrees with the search on lists. -/
theorem scanEntries_key
    (hr : Represents m c) (hw : c.WF) (key : CString) :
    (∃ prev a cell, m.scanEntries (fun e => decide (e.key = key))
        (m.bucketOf key) = some (prev, some a) ∧
      m.entryCells a = some cell ∧
      c.findEntry key = some (a, cell.toEntry)) ∨
    (∃ last, m.scanEntries (fun e => decide (e.key = key))
        (m.bucketOf key) = some (last, none) ∧ c.findEntry key = none) := by
  rw [hr.bucketOf_eq]
  rcases hr.scanEntries_cases hw (fun e => decide (e.key = key))
      (c.bucketOf key) with
    ⟨pre, a, post, cell, hchain, hcell, -, htest, hscan⟩ | ⟨last, hscan, hnone⟩
  · refine Or.inl ⟨_, a, cell, hscan, hcell, ?_⟩
    have hmem : a ∈ c.chain (c.bucketOf key) := by simp [hchain]
    exact hw.findEntry_eq_some_iff.mpr
      ⟨⟨_, hmem⟩, hr.entries_of_cell hcell, by simpa using htest⟩
  · refine Or.inr ⟨last, hscan, ?_⟩
    cases hfind : c.findEntry key with
    | none => rfl
    | some p =>
        obtain ⟨a, e⟩ := p
        obtain ⟨hmem, he, hkey⟩ := Cache.findEntry_eq_some hfind
        simpa [hkey] using hnone a hmem e he

/-! ## Editing cells -/

/-- Changing the contents of a cell without its link. -/
theorem putCell
    (hr : Represents m c) {a : ℕ} {cell : EntryCell}
    (hcell : m.entryCells a = some cell) (e : Entry) :
    Represents (m.putCell a { cell with toEntry := e }) (c.putEntry a e) where
  fields := hr.fields
  nextEntry := hr.nextEntry
  entries := by
    intro x
    by_cases hx : x = a
    · subst hx
      simp [Memory.putCell, Cache.putEntry]
    · simpa [Memory.putCell, Cache.putEntry, hx] using hr.entries x
  chains := by
    intro b
    refine (hr.chains b).congr fun x _ n hn => ?_
    by_cases hx : x = a
    · subst hx
      obtain rfl := Option.some.inj (hcell.symm.trans hn)
      exact ⟨{ cell with toEntry := e }, by simp [Memory.putCell], rfl⟩
    · exact ⟨n, by simpa [Memory.putCell, hx] using hn, rfl⟩
  rows := hr.rows
  rowFresh := hr.rowFresh

/-- Following the links of one bucket never leads into another bucket. -/
theorem notMem_chain_of_ne
    (hw : c.WF) {a b b' : ℕ} (ha : a ∈ c.chain b) (hb : b' ≠ b) :
    a ∉ c.chain b' :=
  fun ha' => hb (hw.chain_unique ha' ha)

theorem setLink_fields
    {m' : Memory} {b : ℕ} {prev p : Option ℕ}
    (h : m.setLink b prev p = some m') :
    m'.toCacheFields = m.toCacheFields ∧ m'.nextEntry = m.nextEntry := by
  cases prev with
  | none =>
      obtain rfl := Option.some.inj h
      exact ⟨rfl, rfl⟩
  | some q =>
      obtain ⟨cell, -, hm⟩ := Option.bind_eq_some_iff.mp h
      obtain rfl := Option.some.inj hm
      exact ⟨rfl, rfl⟩

/-- Linking from the last kept entry past `skipped` and the entry behind it,
and freeing the latter. -/
theorem setLink_free
    (hr : Represents m c) (hw : c.WF) {b a : ℕ} {pre post : List ℕ}
    (skipped : List ℕ) (size count : UInt64)
    (hchain : c.chain b = pre ++ (skipped ++ a :: post)) :
    ∃ m', m.setLink b pre.getLast? post.head? = some m' ∧
      Represents
        { m' with
          currentSize := size
          currentEntries := count
          entryCells := Function.update m'.entryCells a none }
        { c with
          currentSize := size
          currentEntries := count
          chain := Function.update c.chain b (pre ++ post)
          entries := Function.update c.entries a none } := by
  have hc := hr.chains b
  rw [hchain] at hc
  have hnodup := hc.nodup
  have hmem : a ∈ c.chain b := by simp [hchain]
  have hout : ∀ b', b' ≠ b → ∀ x ∈ c.chain b', x ≠ a := by
    rintro b' hb' x hx rfl
    exact notMem_chain_of_ne hw hmem hb' hx
  have hpost : a ∉ pre ++ post := by
    have hperm : (pre ++ (skipped ++ a :: post)).Nodup := hnodup
    simp only [List.nodup_append, List.nodup_cons, List.mem_append,
      List.mem_cons] at hperm ⊢
    rintro (hx | hx)
    · exact hperm.2.2 a hx a (Or.inr (Or.inl rfl)) rfl
    · exact hperm.2.1.2.1.1 hx
  rcases List.eq_nil_or_concat pre with rfl | ⟨front, q, rfl⟩
  · -- no kept entry in front: the head of the bucket is set
    refine ⟨_, rfl, ?_⟩
    have hc' : Chain EntryCell.next m.entryCells (m.head b)
        ((skipped ++ [a]) ++ post) := by
      simpa using hc
    have htail := hc'.drop
    refine ⟨?_, hr.nextEntry, ?_, ?_, hr.rows, hr.rowFresh⟩
    · simp [hr.fields]
    · intro x
      by_cases hx : x = a
      · subst hx
        simp
      · simpa [hx] using hr.entries x
    · intro b'
      by_cases hb : b' = b
      · subst hb
        simp only [Function.update_self, List.nil_append]
        refine htail.congr_of_eq fun x hx => ?_
        rw [Function.update_of_ne]
        rintro rfl
        exact hpost (by simpa using hx)
      · simp only [Function.update_of_ne hb]
        exact (hr.chains b').congr_of_eq fun x hx =>
          Function.update_of_ne (hout b' hb x hx) _ _
  · -- the last kept entry `q` is relinked
    have hq : q ∈ c.chain b := by simp [hchain]
    obtain ⟨cell, hcell⟩ := (hr.chains b).exists_cell hq
    have hqa : q ≠ a := by
      rintro rfl
      exact hpost (by simp)
    have hlast : (front ++ [q]).getLast? = some q := by simp
    simp only [List.concat_eq_append] at *
    refine ⟨m.putCell q { cell with next := post.head? }, ?_, ?_⟩
    · simp [Memory.setLink, hcell]
    refine ⟨?_, hr.nextEntry, ?_, ?_, hr.rows, hr.rowFresh⟩
    · simp [Memory.putCell, hr.fields]
    · intro x
      by_cases hx : x = a
      · subst hx
        simp
      · by_cases hxq : x = q
        · subst hxq
          simpa [hx, Memory.putCell] using (hr.entries_of_cell hcell).symm
        · simpa [hx, hxq, Memory.putCell] using hr.entries x
    · intro b'
      by_cases hb : b' = b
      · subst hb
        simp only [Function.update_self]
        have hc' : Chain EntryCell.next m.entryCells (m.head b')
            (front ++ q :: ((skipped ++ [a]) ++ post)) := by
          simpa using hc
        have hnodup' := hc'.nodup
        have hgoal : Chain EntryCell.next
            (Function.update
              (m.putCell q { cell with next := post.head? }).entryCells a none)
            (m.head b') (front ++ q :: post) := by
          refine hc'.relink (n := { cell with next := post.head? })
            (by simp [hqa, Memory.putCell]) rfl ?_
          intro x hx
          have hxa : x ≠ a := by
            rintro rfl
            apply hpost
            rcases List.mem_append.mp hx with hx | hx <;> simp [hx]
          have hxq : x ≠ q := by
            rintro rfl
            simp only [List.nodup_append, List.nodup_cons, List.mem_append,
              List.mem_cons] at hnodup'
            rcases List.mem_append.mp hx with hx | hx
            · exact hnodup'.2.2 x hx x (Or.inl rfl) rfl
            · exact hnodup'.2.1.1 (Or.inr hx)
          simp [hxa, hxq, Memory.putCell]
        simpa [Memory.putCell] using hgoal
      · simp only [Function.update_of_ne hb]
        refine (hr.chains b').congr_of_eq fun x hx => ?_
        have hxq : x ≠ q := by
          rintro rfl
          exact notMem_chain_of_ne hw hq hb hx
        simp [hout b' hb x hx, hxq, Memory.putCell]

/-! ## The operations on entries -/

theorem setCounters
    (hr : Represents m c) (size entries hits misses : UInt64) :
    Represents
      { m with
        currentSize := size, currentEntries := entries
        hits := hits, misses := misses }
      { c with
        currentSize := size, currentEntries := entries
        hits := hits, misses := misses } where
  fields := by simp [hr.fields]
  nextEntry := hr.nextEntry
  entries := hr.entries
  chains := hr.chains
  rows := hr.rows
  rowFresh := hr.rowFresh

theorem cacheLookupPartial
    (hr : Represents m c) (hw : c.WF) (key : CString) (offset maxSize : ℕ)
    (now : ℤ) :
    ∃ m', m.cacheLookupPartial key offset maxSize now =
        some ((c.lookupPartial key offset maxSize now).1, m') ∧
      Represents m' (c.lookupPartial key offset maxSize now).2 := by
  unfold Memory.cacheLookupPartial Cache.lookupPartial
  rcases hr.scanEntries_key hw key with
    ⟨prev, a, cell, hscan, hcell, hfind⟩ | ⟨last, hscan, hfind⟩
  · simp only [hscan, hfind, hcell, Option.bind_eq_bind, Option.bind_some]
    split
    · refine ⟨_, rfl, ?_⟩
      have hput := hr.putCell hcell (cell.touch
        (readEntry cell.isLoading cell.data offset maxSize).status now)
      have hgoal := hput.setCounters c.currentSize c.currentEntries
        (c.hits + 1) c.misses
      simpa [hr.fields, Memory.putCell, Cache.putEntry] using hgoal
    · exact ⟨m, rfl, hr⟩
  · simp only [hscan, hfind, Option.bind_eq_bind, Option.bind_some]
    refine ⟨_, rfl, ?_⟩
    have hgoal := hr.setCounters c.currentSize c.currentEntries c.hits
      (c.misses + 1)
    simpa [hr.fields] using hgoal

/-- Two results agree: both are undefined, or they return the same value and
the memory represents the lists. -/
def Agree {β : Type} : Option (β × Memory) → Option (β × Cache) → Prop :=
  Option.Rel fun p q => p.1 = q.1 ∧ Represents p.2 q.2

theorem cacheAppendData
    (hr : Represents m c) (a : ℕ) (chunk : List UInt8) (now : ℤ) (ok : Bool) :
    Agree (m.cacheAppendData a chunk now ok) (c.appendData a chunk now ok) := by
  unfold Memory.cacheAppendData Cache.appendData
  rw [← hr.entries]
  cases hcell : m.entryCells a with
  | none => exact .none
  | some cell =>
      simp only [Option.bind_eq_bind, Option.bind_some, Option.map_some]
      split
      · cases happ : cell.appendData chunk now ok with
        | none => exact .none
        | some p => exact .some ⟨rfl, hr.putCell hcell p.2⟩
      · exact .some ⟨rfl, hr⟩

theorem cacheFinishLoading
    (hr : Represents m c) (a : ℕ) (now : ℤ) (ok : Bool) :
    Agree (m.cacheFinishLoading a now ok) (c.finishLoading a now ok) := by
  unfold Memory.cacheFinishLoading Cache.finishLoading
  rw [← hr.entries]
  cases hcell : m.entryCells a with
  | none => exact .none
  | some cell =>
      simp only [Option.bind_eq_bind, Option.bind_some, Option.map_some]
      split
      · cases hfin : cell.finishLoading now ok with
        | none => exact .none
        | some e => exact .some ⟨rfl, hr.putCell hcell e⟩
      · exact .some ⟨rfl, hr⟩

theorem findLoading_of_mem
    (hw : c.WF) {a : ℕ} {e : Entry} (ha : c.Linked a)
    (he : c.entries a = some e) (hload : e.isLoading = true) :
    c.findLoading e.key = some a := by
  obtain ⟨b, hb⟩ := ha
  have hmem := hw.mem_chain_of_key hb he
  cases hfind : c.findLoading e.key with
  | none =>
      have hnone := List.find?_eq_none.mp hfind a hmem
      simp [he, hload] at hnone
  | some a' =>
      obtain ⟨hmem', e', he', hkey, -⟩ := Cache.findLoading_eq_some hfind
      rw [hw.key_unique _ _ _ _ _ hmem' hmem he' he hkey]

theorem cacheCancelLoading
    (hr : Represents m c) (hw : c.WF) (key : CString) :
    ∃ m', m.cacheCancelLoading key = some ((c.cancelLoading key).1, m') ∧
      Represents m' (c.cancelLoading key).2 := by
  unfold Memory.cacheCancelLoading Cache.cancelLoading
  rw [hr.bucketOf_eq]
  rcases hr.scanEntries_cases hw
      (fun e => decide (e.key = key) && e.isLoading) (c.bucketOf key) with
    ⟨pre, a, post, cell, hchain, hcell, hnext, htest, hscan⟩ |
    ⟨last, hscan, hnone⟩
  · simp only [Bool.and_eq_true, decide_eq_true_eq] at htest
    have hmem : a ∈ c.chain (c.bucketOf key) := by simp [hchain]
    have hfind : c.findLoading key = some a := by
      rw [← htest.1]
      exact findLoading_of_mem hw ⟨_, hmem⟩ (hr.entries_of_cell hcell) htest.2
    obtain ⟨m', hlink, hrep⟩ :=
      hr.setLink_free hw [] c.currentSize (c.currentEntries - 1) hchain
    have herase : (c.chain (c.bucketOf key)).erase a = pre ++ post := by
      have hnodup := hchain ▸ hw.nodup (c.bucketOf key)
      have hpre : a ∉ pre := by
        intro hx
        exact (List.nodup_append.mp hnodup).2.2 a hx a (by simp) rfl
      rw [hchain, List.erase_append_right _ hpre, List.erase_cons_head]
    simp only [hscan, hfind, hcell, hnext, hlink, Option.bind_eq_bind,
      Option.bind_some]
    refine ⟨_, rfl, ?_⟩
    have hfields := (setLink_fields hlink).1
    rw [Cache.removeEntry, herase]
    simpa [hfields, hr.fields] using hrep
  · have hfind : c.findLoading key = none := by
      refine List.find?_eq_none.mpr fun a ha => ?_
      cases he : c.entries a with
      | none => simp
      | some e => simpa [Bool.and_eq_true] using hnone a ha e he
    simp only [hscan, hfind, Option.bind_eq_bind, Option.bind_some]
    exact ⟨m, rfl, hr⟩

/-! ## The collector -/

theorem freeExpired_setChain
    (now : ℤ) (l : List ℕ) (c : Cache) (f : ℕ → List ℕ) :
    Cache.freeExpired now l { c with chain := f } =
      (Cache.freeExpired now l c).map fun c' => { c' with chain := f } := by
  induction l generalizing c with
  | nil => rfl
  | cons a l ih =>
      unfold Cache.freeExpired
      cases c.entries a with
      | none => exact ih c
      | some e =>
          dsimp only
          split
          · split
            · exact ih (c.freed a e)
            · rfl
          · exact ih c

/-- The loop over one chain computes the sweep.  The induction is on the part
of the chain still ahead; `front` ends with `prev`, and `skipped` are the
loading entries passed since. -/
theorem cleanLoop
    (now : ℤ) (b : ℕ) (loading expired : ℕ → Bool) (rest : List ℕ) :
    ∀ {m : Memory} {c : Cache} {fuel : ℕ} (front skipped : List ℕ),
      Represents m c → c.WF → c.chain b = front ++ (skipped ++ rest) →
      rest.length < fuel →
      (∀ a ∈ rest, loading a = c.isLoadingAt a ∧
        expired a = c.isExpired now a) →
      Option.Rel Represents
        (Memory.cleanLoop now b fuel front.getLast? rest.head? m)
        ((Cache.freeExpired now rest c).map fun c' =>
          { c' with
            chain := Function.update c.chain b
              (front ++ Cache.sweep loading expired skipped rest) }) := by
  induction rest with
  | nil =>
      intro m c fuel front skipped hr hw hchain hfuel _
      obtain ⟨fuel, rfl⟩ := Nat.exists_eq_succ_of_ne_zero (by omega : fuel ≠ 0)
      have hsame : Function.update c.chain b (front ++ skipped) = c.chain := by
        rw [Function.update_eq_self_iff, hchain, List.append_nil]
      rw [Cache.sweep, hsame]
      exact .some hr
  | cons a rest ih =>
      intro m c fuel front skipped hr hw hchain hfuel hpred
      obtain ⟨fuel, rfl⟩ := Nat.exists_eq_succ_of_ne_zero (by omega : fuel ≠ 0)
      have hlen : rest.length < fuel := by simpa using hfuel
      have hmem : a ∈ c.chain b := by simp [hchain]
      have hc : Chain EntryCell.next m.entryCells (m.head b)
          ((front ++ skipped) ++ a :: rest) := by
        have := hr.chains b
        rwa [hchain, ← List.append_assoc] at this
      obtain ⟨cell, hcell, hnext⟩ := hc.cell
      have he := hr.entries_of_cell hcell
      obtain ⟨hload, hexp⟩ := hpred a (by simp)
      rw [Cache.isLoadingAt, he, Option.any_some] at hload
      rw [Cache.isExpired, he, Option.any_some] at hexp
      have hpred' : ∀ x ∈ rest, loading x = c.isLoadingAt x ∧
          expired x = c.isExpired now x := fun x hx => hpred x (by simp [hx])
      have httl : m.defaultTtl = c.defaultTtl := by rw [hr.fields]
      simp only [Memory.cleanLoop, List.head?_cons, hcell, hnext,
        Option.bind_eq_bind, Option.bind_some, httl]
      rw [Cache.freeExpired, he, Cache.sweep]
      by_cases hl : cell.isLoading = true
      · -- passed over: `prev` stays
        have hrest := ih front (skipped ++ [a]) hr hw (by simpa using hchain)
          hlen hpred'
        simpa [hl, hload] using hrest
      · by_cases hx : cell.expired c.defaultTtl now = true
        · -- unlinked from `prev` and freed
          have hexpired : expired a = true := by simp [hexp, hl, hx]
          obtain ⟨m', hlink, hrep⟩ := hr.setLink_free hw skipped
            (c.currentSize - .ofNat cell.allocatedSize)
            (c.currentEntries - 1) hchain
          have hfields := setLink_fields hlink
          have hw' := hw.unlink (c.currentSize - .ofNat cell.allocatedSize)
            (c.currentEntries - 1) hchain
          have hout : a ∉ rest := by
            have hnodup := hchain ▸ hw.nodup b
            simp only [List.nodup_append, List.nodup_cons] at hnodup
            exact hnodup.2.1.2.1.1
          have hl' : cell.isLoading = false := by simpa using hl
          simp only [hl', Bool.not_false, hx, Bool.and_self, if_true, hload,
            Bool.false_eq_true, if_false, hexpired, hlink, Option.bind_some]
          by_cases hlive : cell.dataLive = true
          · have hrest := ih front [] hrep hw' (by simp) hlen
              (by
                intro x hxr
                have hxa : x ≠ a := by
                  rintro rfl
                  exact hout hxr
                simpa [Cache.isLoadingAt, Cache.isExpired, hxa] using
                  hpred' x hxr)
            have hset := freeExpired_setChain now rest
              (c.freed a cell.toEntry)
              (Function.update c.chain b (front ++ rest))
            dsimp only [Cache.freed] at hset hrest
            rw [hset, Option.map_map] at hrest
            simpa [hlive, hfields.1, hr.fields, Function.comp_def,
              Cache.freed] using hrest
          · -- the block is freed already
            rw [if_neg hlive, if_neg hlive]
            exact .none
        · -- kept: the entry becomes `prev`
          have hexpired : expired a = false := by simp [hexp, hl, hx]
          have hrest := ih ((front ++ skipped) ++ [a]) [] hr hw
            (by simpa using hchain) hlen hpred'
          simpa [hl, hx, hload, hexpired] using hrest

theorem cleanBucket
    (hr : Represents m c) (hw : c.WF) (b : ℕ) (now : ℤ) :
    Option.Rel Represents
      (Memory.cleanLoop now b (m.nextEntry + 1) none (m.head b) m)
      (c.cleanBucket b now) := by
  have hloop := cleanLoop now b c.isLoadingAt (c.isExpired now) (c.chain b)
    [] [] hr hw rfl (hr.chain_length_lt hw b) fun _ _ => ⟨rfl, rfl⟩
  simpa [(hr.chains b).head_eq, Cache.cleanBucket] using hloop

theorem cacheCleanExpired
    (hr : Represents m c) (hw : c.WF) (now : ℤ) :
    Option.Rel Represents (m.cacheCleanExpired now) (c.cleanExpired now) := by
  unfold Memory.cacheCleanExpired Cache.cleanExpired
  have hbuckets : m.numBuckets = c.numBuckets := by rw [hr.fields]
  rw [hbuckets]
  generalize List.range c.numBuckets = l
  induction l generalizing m c with
  | nil => exact .some hr
  | cons b l ih =>
      rw [List.foldlM_cons, List.foldlM_cons]
      have hbucket := hr.cleanBucket hw b now
      generalize Memory.cleanLoop now b (m.nextEntry + 1) none (m.head b) m =
        res at hbucket
      generalize hc : c.cleanBucket b now = res' at hbucket
      cases hbucket with
      | none => exact .none
      | some hr' => exact ih hr' (hw.cleanBucket hc) (by rw [hr'.fields])

end Represents

end Proxy
end OsFifthSem
