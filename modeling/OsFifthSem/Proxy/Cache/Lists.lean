import Mathlib.Logic.Function.Basic
import OsFifthSem.Proxy.Cache.Entry

/-!
# The cache with its chains as lists

This is the abstract state of the cache: the chain of a bucket is the list of
the addresses of its entries, and its pending waiter table is the list of its
rows.  `Memory.lean` gives the operations as the code performs them on linked
cells, and `Refinement.lean` shows that they compute the operations below.

An entry that was unlinked without being freed stays in `entries`.
-/

namespace OsFifthSem
namespace Proxy

open Support

/-- The scalar fields of `cache_t` that some operation reads or writes after
`cache_init`. -/
structure CacheFields where
  numBuckets : ℕ
  currentSize : UInt64
  currentEntries : UInt64
  hits : UInt64
  misses : UInt64
  defaultTtl : ℤ
  deriving DecidableEq

/-- The cache as lists. -/
structure Cache extends CacheFields where
  chain : ℕ → List ℕ
  pending : ℕ → List WaiterRow
  entries : ℕ → Option Entry
  nextEntry : ℕ

/-- `cache_init`: no bucket count stands for 1024. -/
def CacheFields.init (numBuckets : ℕ) (defaultTtl : ℤ) : CacheFields where
  numBuckets := if numBuckets = 0 then 1024 else numBuckets
  currentSize := 0
  currentEntries := 0
  hits := 0
  misses := 0
  defaultTtl := defaultTtl

namespace Cache

def init (numBuckets : ℕ) (defaultTtl : ℤ) : Cache where
  toCacheFields := .init numBuckets defaultTtl
  chain := fun _ => []
  pending := fun _ => []
  entries := fun _ => none
  nextEntry := 0

/-- The bucket of a key. -/
def bucketOf (c : Cache) (key : CString) : ℕ := cacheHash key c.numBuckets

def putEntry (c : Cache) (a : ℕ) (e : Entry) : Cache :=
  { c with entries := Function.update c.entries a (some e) }

/-- The first entry of the key's bucket whose key compares equal. -/
def findEntry (c : Cache) (key : CString) : Option (ℕ × Entry) :=
  (c.chain (c.bucketOf key)).findSome? fun a =>
    (c.entries a).bind fun e => if e.key = key then some (a, e) else none

def lookupPartial (c : Cache) (key : CString) (offset maxSize : ℕ) (now : ℤ) :
    LookupResult × Cache :=
  match c.findEntry key with
  | none => (.missing, { c with misses := c.misses + 1 })
  | some (a, e) =>
      let r := readEntry e.isLoading e.data offset maxSize
      if r.status = .newLoaded then
        (r, { c.putEntry a (e.touch r.status now) with
          hits := c.hits + 1 })
      else (r, c)

def lookup (c : Cache) (key : CString) (now : ℤ) : LookupResult × Cache :=
  c.lookupPartial key 0 0 now

/-- Take the key's row out of the rows behind the head of the table. -/
def takeRow (key : CString) :
    List WaiterRow → List AsyncHandle × List WaiterRow
  | [] => ([], [])
  | r :: rows =>
      if r.key = key then (r.waiter, rows)
      else ((takeRow key rows).1, r :: (takeRow key rows).2)

/-- Take the key's row out of a pending table.  A row at the head of the
table takes the whole table with it: the code sets the head to NULL. -/
def handOver (key : CString) :
    List WaiterRow → List AsyncHandle × List WaiterRow
  | [] => ([], [])
  | r :: rows =>
      if r.key = key then (r.waiter, [])
      else ((takeRow key rows).1, r :: (takeRow key rows).2)

def startLoading (c : Cache) (key : CString) (now : ℤ) (allocOk : Bool) :
    Option ℕ × Cache :=
  match c.findEntry key with
  | some (a, _) => (some a, c)
  | none =>
      if allocOk then
        let b := c.bucketOf key
        let a := c.nextEntry
        let (waiters, rows) := handOver key (c.pending b)
        let e := { createEntry key 4096 now with waitingClients := waiters }
        (some a, { c with
          currentEntries := c.currentEntries + 1
          chain := Function.update c.chain b (a :: c.chain b)
          pending := Function.update c.pending b rows
          entries := Function.update c.entries a (some e)
          nextEntry := a + 1 })
      else (none, c)

/-- `cache_append_data` with its test of `is_loading` and its critical
section taken together; undefined at a freed entry. -/
def appendData (c : Cache) (a : ℕ) (chunk : List UInt8) (now : ℤ)
    (reallocOk : Bool) : Option (ℤ × Cache) :=
  (c.entries a).bind fun e =>
    if e.isLoading then
      (e.appendData chunk now reallocOk).map fun p => (p.1, c.putEntry a p.2)
    else some (-1, c)

def finishLoading (c : Cache) (a : ℕ) (now : ℤ) (reallocOk : Bool) :
    Option (ℤ × Cache) :=
  (c.entries a).bind fun e =>
    if e.isLoading then
      (e.finishLoading now reallocOk).map fun e' => (0, c.putEntry a e')
    else some (-1, c)

/-- Unlink an entry from a chain and free it. -/
def removeEntry (c : Cache) (b a : ℕ) : Cache :=
  { c with
    currentEntries := c.currentEntries - 1
    chain := Function.update c.chain b ((c.chain b).erase a)
    entries := Function.update c.entries a none }

/-- The first entry of the key's bucket with this key that is loading. -/
def findLoading (c : Cache) (key : CString) : Option ℕ :=
  (c.chain (c.bucketOf key)).find? fun a =>
    (c.entries a).any fun e => decide (e.key = key) && e.isLoading

def cancelLoading (c : Cache) (key : CString) : ℤ × Cache :=
  match c.findLoading key with
  | some a => (0, c.removeEntry (c.bucketOf key) a)
  | none => (-1, c)

/-! ## The collector -/

/-- The entry is one that `cache_clean_expired` frees at time `now`. -/
def isExpired (c : Cache) (now : ℤ) (a : ℕ) : Bool :=
  (c.entries a).any fun e => !e.isLoading && e.expired c.defaultTtl now

def isLoadingAt (c : Cache) (a : ℕ) : Bool :=
  (c.entries a).any fun e => e.isLoading

/-- The block of the entry is allocated. -/
def isLiveAt (c : Cache) (a : ℕ) : Bool :=
  (c.entries a).any fun e => e.dataLive

/-- The chain that one sweep of `cache_clean_expired` leaves behind.  The
loop does not advance `prev` over a loading entry; `skipped` are the loading
entries met since `prev`, and unlinking an expired entry from `prev` unlinks
them as well. -/
def sweep (loading expired : ℕ → Bool) : List ℕ → List ℕ → List ℕ
  | skipped, [] => skipped
  | skipped, a :: rest =>
      if loading a then sweep loading expired (skipped ++ [a]) rest
      else if expired a then sweep loading expired [] rest
      else skipped ++ a :: sweep loading expired [] rest

/-- Free an entry and take it out of the counters. -/
def freed (c : Cache) (a : ℕ) (e : Entry) : Cache :=
  { c with
    currentSize := c.currentSize - .ofNat e.allocatedSize
    currentEntries := c.currentEntries - 1
    entries := Function.update c.entries a none }

/-- Free the expired entries of a list and take them out of the counters.
`free_entry` frees the block of an entry, so there is no result when that of an
expired one is freed already. -/
def freeExpired (now : ℤ) : List ℕ → Cache → Option Cache
  | [], c => some c
  | a :: rest, c =>
      match c.entries a with
      | some e =>
          if !e.isLoading && e.expired c.defaultTtl now then
            if e.dataLive then
              freeExpired now rest (c.freed a e)
            else none
          else freeExpired now rest c
      | none => freeExpired now rest c

/-- One turn of the outer loop of `cache_clean_expired`. -/
def cleanBucket (c : Cache) (b : ℕ) (now : ℤ) : Option Cache :=
  (freeExpired now (c.chain b) c).map fun c' =>
    { c' with
      chain := Function.update c.chain b
        (sweep c.isLoadingAt (c.isExpired now) [] (c.chain b)) }

/-- `cache_clean_expired`, at time `now`. -/
def cleanExpired (c : Cache) (now : ℤ) : Option Cache :=
  (List.range c.numBuckets).foldlM (fun c b => c.cleanBucket b now) c

/-! ## Waiters -/

/-- Add a waiter to the key's row, if there is one. -/
def addToRow (key : CString) (h : AsyncHandle) :
    List WaiterRow → Option (List WaiterRow)
  | [] => none
  | r :: rows =>
      if r.key = key then some ({ r with waiter := h :: r.waiter } :: rows)
      else (addToRow key h rows).map fun rows => r :: rows

/-- `cache_register_waiter`; `rowOk` tells whether the allocation of a new
row succeeds. -/
def registerWaiter (c : Cache) (key : CString) (h : AsyncHandle)
    (rowOk : Bool) : ℤ × Cache :=
  match c.findEntry key with
  | some (a, e) =>
      (0, c.putEntry a { e with waitingClients := h :: e.waitingClients })
  | none =>
      let b := c.bucketOf key
      match addToRow key h (c.pending b) with
      | some rows => (0, { c with pending := Function.update c.pending b rows })
      | none =>
          if rowOk then
            (0, { c with
              pending := Function.update c.pending b
                (⟨key, [h]⟩ :: c.pending b) })
          else (-1, c)

/-- `cache_unregister_waiter`, which looks at the entry of the key only. -/
def unregisterWaiter (c : Cache) (key : CString) (h : AsyncHandle) :
    ℤ × Cache :=
  match c.findEntry key with
  | some (a, e) =>
      (0, c.putEntry a { e with waitingClients := e.waitingClients.erase h })
  | none => (-1, c)

end Cache

end Proxy
end OsFifthSem
