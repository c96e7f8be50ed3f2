import OsFifthSem.Proxy.Cache.Structure
import OsFifthSem.Support.Refinement

/-!
# What the cache is for

The store has no buckets, no chains and no counters: it maps each key to the
address of its response, and each address to the response there.  The loader
of a key goes by the address, the other callers by the key.

A call of the store is answered by a reply.  Three things are left open: the
address of a new response, whether an append for which memory may be short
fails, and which loading responses the collector loses the keys of.
-/

namespace OsFifthSem
namespace Proxy

open Support

/-- What the callers can learn of an entry. -/
structure Response where
  key : CString
  isLoading : Bool
  data : List UInt8
  lastAccessed : ℤ
  deriving DecidableEq

/-- The response has been loaded and has not been read for longer than the
time to live. -/
def Response.expired (r : Response) (defaultTtl now : ℤ) : Bool :=
  !r.isLoading && r.lastAccessed + defaultTtl < now

/-- What a call returns. -/
inductive CacheReply
  | entry (a : Option ℕ)
  | code (r : ℤ)
  | found (r : LookupResult)
  | done
  deriving DecidableEq

/-- The responses by key and by address. -/
@[ext] structure Store where
  entryOf : CString → Option ℕ
  response : ℕ → Option Response
  defaultTtl : ℤ

namespace Store

def init (defaultTtl : ℤ) : Store where
  entryOf := fun _ => none
  response := fun _ => none
  defaultTtl := defaultTtl

/-- The response of a key, with its address. -/
def find (s : Store) (key : CString) : Option (ℕ × Response) :=
  (s.entryOf key).bind fun a => (s.response a).map fun r => (a, r)

def put (s : Store) (a : ℕ) (r : Response) : Store :=
  { s with response := Function.update s.response a (some r) }

/-- A new response, which is loading and empty. -/
def create (s : Store) (key : CString) (a : ℕ) (now : ℤ) : Store :=
  { s with
    entryOf := Function.update s.entryOf key (some a)
    response := Function.update s.response a (some ⟨key, true, [], now⟩) }

def remove (s : Store) (key : CString) (a : ℕ) : Store :=
  { s with
    entryOf := Function.update s.entryOf key none
    response := Function.update s.response a none }

/-- What a lookup returns, and the store behind it. -/
def look (s : Store) (key : CString) (offset maxSize : ℕ) (now : ℤ) :
    LookupResult × Store :=
  match s.find key with
  | none => (.missing, s)
  | some (a, r) =>
      let found := readEntry r.isLoading r.data offset maxSize
      (found, if found.status = .newLoaded then
        s.put a { r with lastAccessed := now } else s)

/-- The collector frees the responses that have expired.  A loading one stays,
but its key may be lost. -/
def collect (s : Store) (now : ℤ) (loses : CString → Bool) : Store :=
  { s with
    entryOf := fun key => (s.find key).bind fun p =>
      if p.2.expired s.defaultTtl now || p.2.isLoading && loses key then none
      else some p.1
    response := fun a => (s.response a).filter fun r =>
      !(r.expired s.defaultTtl now && decide (s.entryOf r.key = some a)) }

/-- The store after a call that was answered so, if that is an answer. -/
def react (s : Store) (call : CacheCall) (reply : CacheReply)
    (loses : CString → Bool) : Option Store :=
  match call, reply with
  | .startLoading key now ok, .entry r =>
      match s.entryOf key, r with
      | some a, some b => if a = b then some s else none
      | some _, none => none
      | none, some b =>
          if ok && (s.response b).isNone then some (s.create key b now)
          else none
      | none, none => if ok then none else some s
  | .appendData none _ _ _, .code r => if r = -1 then some s else none
  | .appendData (some a) chunk now ok, .code r =>
      (s.response a).bind fun e =>
        if !e.isLoading then if r = -1 then some s else none
        else if r = 0 then
          some (s.put a { e with data := e.data ++ chunk, lastAccessed := now })
        else if r = -1 ∧ ok = false then
          some (s.put a { e with lastAccessed := now })
        else none
  | .finishLoading none _ _, .code r => if r = -1 then some s else none
  | .finishLoading (some a) now _, .code r =>
      (s.response a).bind fun e =>
        if !e.isLoading then if r = -1 then some s else none
        else if r = 0 then
          some (s.put a { e with isLoading := false, lastAccessed := now })
        else none
  | .cancelLoading key, .code r =>
      match s.find key with
      | some (a, e) =>
          if e.isLoading then if r = 0 then some (s.remove key a) else none
          else if r = -1 then some s else none
      | none => if r = -1 then some s else none
  | .cleanExpired now, .done => some (s.collect now loses)
  | .lookup key now, .found r =>
      if r = (s.look key 0 0 now).1 then some (s.look key 0 0 now).2 else none
  | .lookupPartial key offset maxSize now, .found r =>
      if r = (s.look key offset maxSize now).1 then
        some (s.look key offset maxSize now).2
      else none
  | .registerWaiter key _ ok, .code r =>
      if r = 0 ∨ r = -1 ∧ ok = false ∧ s.entryOf key = none then some s
      else none
  | .unregisterWaiter key _, .code r =>
      if r = if (s.entryOf key).isSome then 0 else -1 then some s else none
  | _, _ => none

end Store

/-- A call with its answer. -/
structure StoreCall where
  call : CacheCall
  reply : CacheReply
  /-- The keys that `cache_clean_expired` loses. -/
  loses : CString → Bool

/-- The calls that a store can answer so. -/
def storeSystem (defaultTtl : ℤ) : TransitionSystem Store StoreCall where
  Initial := fun s => s = Store.init defaultTtl
  step := fun s x => s.react x.call x.reply x.loses

/-- Calls and replies are seen. -/
def answered (_ : Store) (x : StoreCall) : List (CacheCall × CacheReply) :=
  [(x.call, x.reply)]

/-! ## The replies of the code -/

namespace Memory

/-- What a call returns.  A NULL entry is refused. -/
def reply (m : Memory) : CacheCall → Option CacheReply
  | .startLoading key now ok =>
      (m.cacheStartLoading key now ok).map fun p => .entry p.1
  | .appendData none _ _ _ => some (.code (-1))
  | .appendData (some a) chunk now ok =>
      (m.cacheAppendData a chunk now ok).map fun p => .code p.1
  | .finishLoading none _ _ => some (.code (-1))
  | .finishLoading (some a) now ok =>
      (m.cacheFinishLoading a now ok).map fun p => .code p.1
  | .cancelLoading key => (m.cacheCancelLoading key).map fun p => .code p.1
  | .cleanExpired now => (m.cacheCleanExpired now).map fun _ => .done
  | .lookup key now => (m.cacheLookup key now).map fun p => .found p.1
  | .lookupPartial key offset maxSize now =>
      (m.cacheLookupPartial key offset maxSize now).map fun p => .found p.1
  | .registerWaiter key h ok =>
      (m.cacheRegisterWaiter key h ok).map fun p => .code p.1
  | .unregisterWaiter key h =>
      (m.cacheUnregisterWaiter key h).map fun p => .code p.1

/-- The call is about one of these keys: by the key itself, by an entry that
has it, or by sweeping all entries. -/
def concerns (keys : CString → Bool) (m : Memory) : CacheCall → Bool
  | .startLoading key _ _ | .cancelLoading key | .lookup key _
  | .lookupPartial key _ _ _ | .registerWaiter key _ _
  | .unregisterWaiter key _ => keys key
  | .appendData entry _ _ _ | .finishLoading entry _ _ =>
      entry.all fun a => (m.entryCells a).all fun e => keys e.key
  | .cleanExpired _ => true

/-- The calls about these keys are seen, with their replies. -/
def answered (keys : CString → Bool) (m : Memory) (op : CacheCall) :
    List (CacheCall × CacheReply) :=
  if m.concerns keys op then (m.reply op).toList.map fun r => (op, r) else []

end Memory

end Proxy
end OsFifthSem
