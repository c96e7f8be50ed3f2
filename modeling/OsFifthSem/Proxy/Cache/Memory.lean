import OsFifthSem.Proxy.Cache.Lists
import OsFifthSem.Support.LinkedList

/-!
# The operations of `cache.c` on linked cells

Each operation follows `cache.c` statement by statement on two heaps: one for
the `cache_entry_t` cells, linked from the `head` of their bucket, and one for
the `cache_waiter_table_entry_t` cells, linked from the head of the bucket's
pending waiter table.  The short lists of `cache_waiter_t` are kept as lists.

An operation has no result when it reads a freed cell, when it frees the block
of an entry a second time, or when one of its loops takes more turns than there
are cells, so that it would never end.  The locks are those of the callers'
interleaving and do not appear: every operation that walks a chain holds the
mutex of its bucket throughout.
-/

namespace OsFifthSem
namespace Proxy

open Support

/-- `cache_entry_t`. -/
structure EntryCell extends Entry where
  next : Option ℕ

/-- `cache_waiter_table_entry_t`. -/
structure RowCell extends WaiterRow where
  next : Option ℕ

/-- `cache_t` and the cells it was given by `malloc`. -/
structure Memory extends CacheFields where
  head : ℕ → Option ℕ
  pendingHead : ℕ → Option ℕ
  entryCells : ℕ → Option EntryCell
  rowCells : ℕ → Option RowCell
  nextEntry : ℕ
  nextRow : ℕ

namespace Memory

/-- `cache_init`, for a `calloc` that succeeds. -/
def cacheInit (numBuckets : ℕ) (defaultTtl : ℤ) : Memory where
  toCacheFields := .init numBuckets defaultTtl
  head := fun _ => none
  pendingHead := fun _ => none
  entryCells := fun _ => none
  rowCells := fun _ => none
  nextEntry := 0
  nextRow := 0

def bucketOf (m : Memory) (key : CString) : ℕ := cacheHash key m.numBuckets

/-- The loop that looks for an entry in the chain of bucket `b`. -/
def scanEntries (m : Memory) (test : EntryCell → Bool) (b : ℕ) :
    Option (Option ℕ × Option ℕ) :=
  scan EntryCell.next m.entryCells test (m.nextEntry + 1) none (m.head b)

/-- The loop that looks for the key's row in the pending table of bucket
`b`. -/
def scanRows (m : Memory) (key : CString) (b : ℕ) :
    Option (Option ℕ × Option ℕ) :=
  scan RowCell.next m.rowCells (fun r => decide (r.key = key)) (m.nextRow + 1)
    none (m.pendingHead b)

def putCell (m : Memory) (a : ℕ) (e : EntryCell) : Memory :=
  { m with entryCells := Function.update m.entryCells a (some e) }

def putRow (m : Memory) (r : ℕ) (row : RowCell) : Memory :=
  { m with rowCells := Function.update m.rowCells r (some row) }

/-- `cache_lookup_partial`. -/
def cacheLookupPartial (m : Memory) (key : CString) (offset maxSize : ℕ)
    (now : ℤ) : Option (LookupResult × Memory) := do
  let (_, cur) ← m.scanEntries (fun e => decide (e.key = key)) (m.bucketOf key)
  match cur with
  | none => some (.missing, { m with misses := m.misses + 1 })
  | some a =>
      let e ← m.entryCells a
      let r := readEntry e.isLoading e.data offset maxSize
      if r.status = .newLoaded then
        some (r, { m.putCell a { e with toEntry := e.touch r.status now } with
          hits := m.hits + 1 })
      else some (r, m)

/-- `cache_lookup`. -/
def cacheLookup (m : Memory) (key : CString) (now : ℤ) :
    Option (LookupResult × Memory) :=
  m.cacheLookupPartial key 0 0 now

/-- The second half of `cache_start_loading`: the new entry `a` takes over
the key's row of the pending table. -/
def takePendingRow (m : Memory) (key : CString) (b a : ℕ) : Option Memory := do
  let (prevWaiter, current) ← m.scanRows key b
  match current with
  | none => some m
  | some r =>
      let row ← m.rowCells r
      let e ← m.entryCells a
      let m := m.putCell a
        { e with toEntry := { e.toEntry with waitingClients := row.waiter } }
      match prevWaiter with
      | some q =>
          let prevRow ← m.rowCells q
          some (m.putRow q { prevRow with next := row.next })
      | none =>
          some { m with
            pendingHead := Function.update m.pendingHead b none }

/-- `cache_start_loading`; `allocOk` tells whether `create_entry` gets its
memory. -/
def cacheStartLoading (m : Memory) (key : CString) (now : ℤ) (allocOk : Bool) :
    Option (Option ℕ × Memory) := do
  let b := m.bucketOf key
  let (_, cur) ← m.scanEntries (fun e => decide (e.key = key)) b
  match cur with
  | some a => some (some a, m)
  | none =>
      if allocOk then
        let a := m.nextEntry
        let cell : EntryCell :=
          { toEntry := createEntry key 4096 now, next := m.head b }
        let m' ← takePendingRow { m.putCell a cell with
          head := Function.update m.head b (some a)
          currentEntries := m.currentEntries + 1
          nextEntry := a + 1 } key b a
        some (some a, m')
      else some (none, m)

/-- `cache_append_data`, with the test of `is_loading` and the critical
section taken together. -/
def cacheAppendData (m : Memory) (a : ℕ) (chunk : List UInt8) (now : ℤ)
    (reallocOk : Bool) : Option (ℤ × Memory) := do
  let e ← m.entryCells a
  if e.isLoading then
    let (r, entry) ← e.appendData chunk now reallocOk
    some (r, m.putCell a { e with toEntry := entry })
  else some (-1, m)

/-- `cache_finish_loading`, taken together in the same way. -/
def cacheFinishLoading (m : Memory) (a : ℕ) (now : ℤ) (reallocOk : Bool) :
    Option (ℤ × Memory) := do
  let e ← m.entryCells a
  if e.isLoading then
    let entry ← e.finishLoading now reallocOk
    some (0, m.putCell a { e with toEntry := entry })
  else some (-1, m)

/-- `if (prev) prev->next = p; else bucket->head = p;` -/
def setLink (m : Memory) (b : ℕ) (prev p : Option ℕ) : Option Memory :=
  match prev with
  | some q => do
      let cell ← m.entryCells q
      some (m.putCell q { cell with next := p })
  | none => some { m with head := Function.update m.head b p }

/-- `cache_cancel_loading`.  The block of a loading entry is allocated. -/
def cacheCancelLoading (m : Memory) (key : CString) : Option (ℤ × Memory) := do
  let b := m.bucketOf key
  let (prev, cur) ←
    m.scanEntries (fun e => decide (e.key = key) && e.isLoading) b
  match cur with
  | none => some (-1, m)
  | some a =>
      let e ← m.entryCells a
      let m ← m.setLink b prev e.next
      some (0, { m with
        currentEntries := m.currentEntries - 1
        entryCells := Function.update m.entryCells a none })

/-- The loop of `cache_clean_expired` over the chain of bucket `b`.  A
loading entry is passed over without becoming `prev`.  `free_entry` frees the
block of an expired entry, which must not be freed already. -/
def cleanLoop (now : ℤ) (b : ℕ) :
    ℕ → Option ℕ → Option ℕ → Memory → Option Memory
  | 0, _, _, _ => none
  | _ + 1, _, none, m => some m
  | fuel + 1, prev, some a, m => do
      let e ← m.entryCells a
      if e.isLoading then cleanLoop now b fuel prev e.next m
      else if e.expired m.defaultTtl now then
        let m ← m.setLink b prev e.next
        if e.dataLive then
          cleanLoop now b fuel prev e.next { m with
            currentSize := m.currentSize - .ofNat e.allocatedSize
            currentEntries := m.currentEntries - 1
            entryCells := Function.update m.entryCells a none }
        else none
      else cleanLoop now b fuel (some a) e.next m

/-- `cache_clean_expired`, at time `now`. -/
def cacheCleanExpired (m : Memory) (now : ℤ) : Option Memory :=
  (List.range m.numBuckets).foldlM
    (fun m b => cleanLoop now b (m.nextEntry + 1) none (m.head b) m) m

/-- `cache_register_waiter`.  The allocation of the waiter itself succeeds;
`rowOk` tells whether that of a new row does. -/
def cacheRegisterWaiter (m : Memory) (key : CString) (h : AsyncHandle)
    (rowOk : Bool) : Option (ℤ × Memory) := do
  let b := m.bucketOf key
  let (_, cur) ← m.scanEntries (fun e => decide (e.key = key)) b
  match cur with
  | some a =>
      let e ← m.entryCells a
      some (0, m.putCell a { e with
        toEntry := { e.toEntry with waitingClients := h :: e.waitingClients } })
  | none =>
      let (_, current) ← m.scanRows key b
      match current with
      | some r =>
          let row ← m.rowCells r
          some (0, m.putRow r { row with
            toWaiterRow := { row.toWaiterRow with waiter := h :: row.waiter } })
      | none =>
          if rowOk then
            let row : RowCell :=
              { toWaiterRow := ⟨key, [h]⟩, next := m.pendingHead b }
            some (0, { m.putRow m.nextRow row with
              pendingHead := Function.update m.pendingHead b (some m.nextRow)
              nextRow := m.nextRow + 1 })
          else some (-1, m)

/-- `cache_unregister_waiter`. -/
def cacheUnregisterWaiter (m : Memory) (key : CString) (h : AsyncHandle) :
    Option (ℤ × Memory) := do
  let (_, cur) ← m.scanEntries (fun e => decide (e.key = key)) (m.bucketOf key)
  match cur with
  | some a =>
      let e ← m.entryCells a
      some (0, m.putCell a { e with
        toEntry :=
          { e.toEntry with waitingClients := e.waitingClients.erase h } })
  | none => some (-1, m)

end Memory

end Proxy
end OsFifthSem
