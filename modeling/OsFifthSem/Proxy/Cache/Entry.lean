import Mathlib.Data.Int.Notation
import OsFifthSem.Support.CString

/-!
# Cache entries

The types of `cache.h` and the parts of `cache.c` that read or write a single
`cache_entry_t`.  The sizes of an entry are natural numbers, reduced modulo
`2 ^ 64` where the code computes a `size_t` that could wrap.

An entry is identified by its address.  Addresses are never reused in the
model, so an address also names one instance of an entry.
-/

namespace OsFifthSem
namespace Proxy

open Support

/-- The number of values of a `size_t`. -/
def sizeRange : ℕ := Nat.pow 2 64

/-- `a + b` in `size_t`. -/
def sizeAdd (a b : ℕ) : ℕ := (a + b) % sizeRange

/-- `cache_status_t`. -/
inductive CacheStatus
  | found
  | newLoaded
  | newNotLoaded
  | notFound
  | done
  | error
  deriving DecidableEq, Repr

/-- A `uv_async_t *`. -/
abbrev AsyncHandle := ℕ

/-- `cache_entry_t`, without its link.  `data` holds the first `data_size`
bytes of the entry's block, and `dataLive` says that the block is allocated. -/
structure Entry where
  key : CString
  isLoading : Bool
  data : List UInt8
  dataLive : Bool
  allocatedSize : ℕ
  lastAccessed : ℤ
  waitingClients : List AsyncHandle

/-- `cache_waiter_table_entry_t`, without its link. -/
structure WaiterRow where
  key : CString
  waiter : List AsyncHandle

/-- `cache_hash`.  A `char` is signed, so a byte from 128 on is sign-extended
before it is added. -/
def cacheHash (key : CString) (numBuckets : ℕ) : ℕ :=
  (key.bytes.foldl
    (fun (hash : UInt64) c =>
      (hash <<< 5) + hash + c.toInt8.toInt64.toUInt64) 5381).toNat % numBuckets

theorem cacheHash_lt (key : CString) {numBuckets : ℕ} (h : 0 < numBuckets) :
    cacheHash key numBuckets < numBuckets :=
  Nat.mod_lt _ h

/-- `create_entry`, at time `now`. -/
def createEntry (key : CString) (initialSize : ℕ) (now : ℤ) : Entry where
  key := key
  isLoading := true
  data := []
  dataLive := true
  allocatedSize := if initialSize > 0 then initialSize else 4096
  lastAccessed := now
  waitingClients := []

/-! ## Reading an entry -/

/-- What `cache_lookup_partial` returns and stores through its pointers.
`data` is empty when `*data_size` is left alone or set to 0, and `isLoading`
is `none` when `*is_loading` is left alone. -/
structure LookupResult where
  status : CacheStatus
  data : List UInt8
  isLoading : Option Bool
  deriving DecidableEq

/-- The result of a lookup that finds no entry. -/
def LookupResult.missing : LookupResult := ⟨.notFound, [], none⟩

/-- `cache_lookup_partial` at a matching entry, after it loaded `is_loading`
and found `data_size` equal to the length of `bytes`. -/
def readEntry (loading : Bool) (bytes : List UInt8)
    (offset maxSize : ℕ) : LookupResult :=
  if !loading && maxSize == 0 then ⟨.found, bytes, some loading⟩
  else if loading && offset ≥ bytes.length then
    ⟨.newNotLoaded, [], some loading⟩
  else if offset > bytes.length then ⟨.error, [], some loading⟩
  else
    let copySize := bytes.length - offset
    let copySize :=
      if maxSize > 0 && copySize > maxSize then maxSize else copySize
    if copySize > 0 then
      ⟨.newLoaded, (bytes.drop offset).take copySize, some loading⟩
    else ⟨.done, [], some loading⟩

/-- The entry after a lookup that returned `status`: only a lookup that
copied a chunk counts as an access. -/
def Entry.touch (e : Entry) (status : CacheStatus) (now : ℤ) : Entry :=
  if status = .newLoaded then { e with lastAccessed := now } else e

/-! ## Writing an entry -/

/-- `while (new_size < need) new_size *= 2`, with at most `fuel` turns.  After
64 doublings `new_size` is 0 for good, so 65 turns decide the loop. -/
def growSize (need : ℕ) : ℕ → ℕ → Option ℕ
  | 0, _ => none
  | fuel + 1, newSize =>
      if newSize < need then growSize need fuel (newSize * 2 % sizeRange)
      else some newSize

/-- `memcpy(entry->data + current_size, chunk, chunk_size)` and the store of
the new size; undefined when the chunk does not fit into the block. -/
def Entry.storeChunk (e : Entry) (chunk : List UInt8) : Option Entry :=
  if e.data.length + chunk.length ≤ e.allocatedSize then
    some { e with data := e.data ++ chunk }
  else none

/-- `cache_append_data` under `data_lock`: the return value and the entry.
There is no result when the block is freed, when the loop that doubles
`new_size` does not end, or when the copy leaves the block. -/
def Entry.appendData (e : Entry) (chunk : List UInt8) (now : ℤ)
    (reallocOk : Bool) : Option (ℤ × Entry) :=
  let e := { e with lastAccessed := now }
  let need := sizeAdd e.data.length chunk.length
  if !e.dataLive then none
  else if need > e.allocatedSize then
    (growSize need 65 e.allocatedSize).bind fun newSize =>
      if reallocOk then
        (Entry.storeChunk { e with allocatedSize := newSize } chunk).map
          fun e => (0, e)
      else some (-1, e)
  else (e.storeChunk chunk).map fun e => (0, e)

/-- `cache_finish_loading` under `data_lock`.  `realloc` to size 0 frees the
block and returns NULL, so the entry keeps the dangling pointer. -/
def Entry.finishLoading (e : Entry) (now : ℤ) (reallocOk : Bool) :
    Option Entry :=
  let e := { e with lastAccessed := now, isLoading := false }
  if !e.dataLive then none
  else if e.allocatedSize > e.data.length then
    if e.data.length = 0 then some { e with dataLive := false }
    else if reallocOk then some { e with allocatedSize := e.data.length }
    else some e
  else some e

/-- The test of `cache_clean_expired` on an entry that is not loading. -/
def Entry.expired (e : Entry) (defaultTtl now : ℤ) : Bool :=
  e.lastAccessed + defaultTtl < now

/-! ## What the writers keep -/

theorem Entry.storeChunk_eq_some_iff
    {e e' : Entry} {chunk : List UInt8} :
    e.storeChunk chunk = some e' ↔
      e.data.length + chunk.length ≤ e.allocatedSize ∧
        e' = { e with data := e.data ++ chunk } := by
  simp [Entry.storeChunk, eq_comm]

/-- An append returns 0 with the chunk in a block that holds it, or returns -1
and changes only the time of the last access. -/
theorem Entry.appendData_eq_some
    {e e' : Entry} {chunk : List UInt8} {now : ℤ} {ok : Bool} {r : ℤ}
    (h : e.appendData chunk now ok = some (r, e')) :
    e.dataLive = true ∧
      ((∃ size, r = 0 ∧ e' = { e with
            lastAccessed := now
            allocatedSize := size
            data := e.data ++ chunk } ∧
          e.data.length + chunk.length ≤ size ∧
          (size = e.allocatedSize ∨
            growSize (sizeAdd e.data.length chunk.length) 65 e.allocatedSize =
              some size)) ∨
        (r = -1 ∧ ok = false ∧ e' = { e with lastAccessed := now })) := by
  simp only [Entry.appendData] at h
  split_ifs at h with hlive _ hok
  · obtain ⟨newSize, hgrow, h⟩ := Option.bind_eq_some_iff.mp h
    obtain ⟨f, hf, heq⟩ := Option.map_eq_some_iff.mp h
    obtain ⟨hfits, rfl⟩ := Entry.storeChunk_eq_some_iff.mp hf
    obtain ⟨rfl, rfl⟩ := Prod.mk.inj heq
    exact ⟨by simpa using hlive, .inl ⟨newSize, rfl, rfl, hfits, .inr hgrow⟩⟩
  · obtain ⟨newSize, -, h⟩ := Option.bind_eq_some_iff.mp h
    obtain ⟨rfl, rfl⟩ := Prod.mk.inj (Option.some.inj h)
    exact ⟨by simpa using hlive, .inr ⟨rfl, by simpa using hok, rfl⟩⟩
  · obtain ⟨f, hf, heq⟩ := Option.map_eq_some_iff.mp h
    obtain ⟨hfits, rfl⟩ := Entry.storeChunk_eq_some_iff.mp hf
    obtain ⟨rfl, rfl⟩ := Prod.mk.inj heq
    exact ⟨by simpa using hlive, .inl ⟨_, rfl, rfl, hfits, .inl rfl⟩⟩

/-- An append returns 0 and adds the chunk, or returns -1 and leaves the
contents alone; it never changes the key, the flag or the waiters. -/
theorem Entry.appendData_cases
    {e e' : Entry} {chunk : List UInt8} {now : ℤ} {ok : Bool} {r : ℤ}
    (h : e.appendData chunk now ok = some (r, e')) :
    e'.key = e.key ∧ e'.isLoading = e.isLoading ∧
      e'.waitingClients = e.waitingClients ∧
      ((r = 0 ∧ e'.data = e.data ++ chunk) ∨
        (r = -1 ∧ ok = false ∧ e'.data = e.data)) := by
  obtain ⟨-, ⟨size, rfl, rfl, -⟩ | ⟨rfl, hok, rfl⟩⟩ :=
    Entry.appendData_eq_some h
  · exact ⟨rfl, rfl, rfl, .inl ⟨rfl, rfl⟩⟩
  · exact ⟨rfl, rfl, rfl, .inr ⟨rfl, hok, rfl⟩⟩

/-- Finishing clears the flag and keeps the key, the contents and the
waiters. -/
theorem Entry.finishLoading_spec
    {e e' : Entry} {now : ℤ} {ok : Bool}
    (h : e.finishLoading now ok = some e') :
    e'.key = e.key ∧ e'.isLoading = false ∧ e'.data = e.data ∧
      e'.waitingClients = e.waitingClients ∧ e'.lastAccessed = now := by
  simp only [Entry.finishLoading] at h
  split_ifs at h <;> cases h <;> exact ⟨rfl, rfl, rfl, rfl, rfl⟩

@[simp] theorem Entry.touch_key (e : Entry) (status : CacheStatus) (now : ℤ) :
    (e.touch status now).key = e.key := by
  unfold Entry.touch
  split <;> rfl

@[simp] theorem Entry.touch_isLoading
    (e : Entry) (status : CacheStatus) (now : ℤ) :
    (e.touch status now).isLoading = e.isLoading := by
  unfold Entry.touch
  split <;> rfl

@[simp] theorem Entry.touch_data
    (e : Entry) (status : CacheStatus) (now : ℤ) :
    (e.touch status now).data = e.data := by
  unfold Entry.touch
  split <;> rfl

@[simp] theorem Entry.touch_waitingClients
    (e : Entry) (status : CacheStatus) (now : ℤ) :
    (e.touch status now).waitingClients = e.waitingClients := by
  unfold Entry.touch
  split <;> rfl

end Proxy
end OsFifthSem
