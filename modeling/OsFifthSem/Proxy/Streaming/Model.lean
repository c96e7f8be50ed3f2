import OsFifthSem.Proxy.Cache.Invariant
import OsFifthSem.Proxy.Http
import OsFifthSem.Support.Transition

/-!
# Clients, background workers and the collector around one cache

The model follows `backend.c` and `background_worker.c` from one critical
section to the next.  Write requests, workers and the collector take their
steps in any order; a request on a loop of its own has at least the
interleavings it has on a loop it shares.

A lookup takes two steps, because it reads `is_loading` and then `data_size`
while a worker, which does not hold the mutex of the bucket, may append or
finish.  For the same reason the collector looks at one entry at a time.
Whatever holds the mutex of a bucket across two steps is recorded in `locks`.

The task of a worker is named by the request that launched it, and the async
handle of a request by the request.  A step that touches a freed entry, a
freed block of one or a freed request has no successor.
-/

namespace OsFifthSem
namespace Proxy
namespace Streaming

open Support

/-- `PACKET_SIZE`. -/
def packetSize : ℕ := 16384

/-! ## Write requests -/

/-- The calls of the lookup functions: `cache_lookup` in `read_client`, the
lookup of `send_next_chunk`, and its second lookup after registering. -/
inductive LookupSite
  | readClient
  | sendNextChunk
  | recheck
  deriving DecidableEq, Repr

/-- What a request does next. -/
inductive ReqPc
  /-- Lock the bucket, find the entry and load `is_loading`. -/
  | lookup
  /-- Inside the lookup, holding the mutex of the bucket. -/
  | inLookup
  /-- `launch_bgw`. -/
  | launch
  /-- `cache_register_waiter`. -/
  | register
  /-- Nothing, until the loop calls one of its callbacks. -/
  | idle
  /-- `free_write_req`: `cache_unregister_waiter`. -/
  | unregister
  /-- `free_write_req`: `cancel_bgw`. -/
  | cancelBgw
  /-- `free_write_req` has returned: the async handle of a streaming request is
  closing, any other request is gone. -/
  | released
  /-- `on_async_close` has freed the request, and its async handle with it. -/
  | freed
  deriving DecidableEq, Repr

/-- Why `free_write_req` was called. -/
inductive ReleaseCause
  /-- `send_next_chunk`: `CACHE_DONE` with no data. -/
  | cacheDone
  /-- `send_next_chunk`: `CACHE_ERROR`. -/
  | cacheError
  /-- `echo_write_buffer_load`: the write failed. -/
  | writeStatus
  /-- `echo_write_buffer_load`: nothing is left to send. -/
  | allSent
  /-- `echo_write`. -/
  | echoWrite
  deriving DecidableEq, Repr

/-- `write_req_t` with the local variables of the functions that work on it.
`streaming` is `was_async_init`, `launched` says that `task` is set, `queued`
that the async handle is signalled, and `inFlight` lists the writes given to
the loop and not completed.  The last three fields are history. -/
structure WriteReq where
  req : HttpReq
  key : CString
  pc : ReqPc
  site : LookupSite
  entry : ℕ
  loading : Bool
  willRecheck : Bool
  launched : Bool
  streaming : Bool
  lastOffset : ℕ
  totalSize : ℕ
  isLoading : Bool
  didRegister : Bool
  writePending : Bool
  queued : Bool
  inFlight : List (List UInt8)
  /-- The bytes that `uv_write` accepted. -/
  sent : List UInt8
  /-- The entries whose bytes were handed to `uv_write`. -/
  sources : List ℕ
  releasedBy : Option ReleaseCause

namespace WriteReq

/-- The request of a client that has just been parsed. -/
def arrived (x : HttpReq) (key : CString) : WriteReq where
  req := x
  key := key
  pc := .lookup
  site := .readClient
  entry := 0
  loading := false
  willRecheck := false
  launched := false
  streaming := false
  lastOffset := 0
  totalSize := 0
  isLoading := false
  didRegister := false
  writePending := false
  queued := false
  inFlight := []
  sent := []
  sources := []
  releasedBy := none

/-- The start of `free_write_req`: only a request whose async handle was
initialised has a waiter to unregister. -/
def release (w : WriteReq) (cause : ReleaseCause) : WriteReq :=
  { w with
    pc := if w.streaming then .unregister else .cancelBgw
    releasedBy := some cause }

/-- `send_next_chunk`, up to its lookup. -/
def sendNextChunk (w : WriteReq) : WriteReq :=
  if w.writePending then { w with pc := .idle }
  else { w with pc := .lookup, site := .sendNextChunk }

/-- `alloc_write_req_t` and the initialisation of the progress, for a client
whose response is loading, up to the first `send_next_chunk`. -/
def beginStreaming (w : WriteReq) (launched : Bool) : WriteReq :=
  { w with
    lastOffset := 0
    totalSize := 0
    isLoading := true
    launched := launched
    streaming := true }.sendNextChunk

/-- `uv_write` with the chunk `data` of entry `a`. -/
def write (w : WriteReq) (a : ℕ) (data : List UInt8) (accepted : Bool) :
    WriteReq :=
  { w with
    inFlight := if accepted then w.inFlight ++ [data] else w.inFlight
    sent := if accepted then w.sent ++ data else w.sent
    sources := w.sources ++ [a] }

/-- `if (!did_register) cache_register_waiter(...)`, followed by the second
lookup when `recheck` is set. -/
def registerOnce (w : WriteReq) (recheck : Bool) : WriteReq :=
  if w.didRegister then { w with pc := .idle }
  else { w with pc := .register, willRecheck := recheck }

/-- The `switch` of `read_client`. -/
def afterCacheLookup (w : WriteReq) (a : ℕ) (res : LookupResult)
    (accepted : Bool) : WriteReq :=
  match res.status with
  | .found => { w.write a res.data accepted with pc := .idle }
  | .notFound => { w with pc := .launch }
  | .newLoaded => w.beginStreaming false
  | .newNotLoaded => w.beginStreaming false
  | .done => { w with pc := .released }
  | .error => { w with pc := .released }

/-- The `switch` of `send_next_chunk`. -/
def afterSendLookup (w : WriteReq) (a : ℕ) (res : LookupResult)
    (accepted : Bool) : WriteReq :=
  -- `still_loading` keeps its initial value when no entry is found
  let stillLoading := res.isLoading.getD false
  let finished :=
    if res.data ≠ [] then
      { w.write a res.data accepted with
        pc := .idle
        lastOffset := w.lastOffset + res.data.length }
    else if !stillLoading then w.release .cacheDone
    else w.registerOnce false
  match res.status with
  | .done => finished
  | .found => finished
  | .notFound => w.registerOnce false
  | .newLoaded =>
      if res.data ≠ [] then
        { w.write a res.data accepted with
          pc := .idle
          lastOffset := w.lastOffset + res.data.length
          writePending := accepted }
      else { w with pc := .idle }
  | .newNotLoaded => w.registerOnce true
  | .error => w.release .cacheError

/-- The test behind the second lookup of `send_next_chunk`. -/
def afterRecheck (w : WriteReq) (res : LookupResult) : WriteReq :=
  if res.data ≠ [] ∨ res.isLoading.getD false = false then w.sendNextChunk
  else { w with pc := .idle }

/-- What follows a lookup. -/
def afterLookup (w : WriteReq) (a : ℕ) (res : LookupResult)
    (accepted : Bool) : WriteReq :=
  match w.site with
  | .readClient => w.afterCacheLookup a res accepted
  | .sendNextChunk => w.afterSendLookup a res accepted
  | .recheck => w.afterRecheck res

/-- The offset and the maximum a lookup is called with. -/
def lookupArgs (w : WriteReq) : ℕ × ℕ :=
  match w.site with
  | .readClient => (0, 0)
  | .sendNextChunk => (w.lastOffset, packetSize)
  | .recheck => (w.lastOffset, packetSize)

/-- What follows `cache_register_waiter`, whatever it returned. -/
def afterRegister (w : WriteReq) : WriteReq :=
  if w.willRecheck then
    { w with didRegister := true, pc := .lookup, site := .recheck }
  else { w with didRegister := true, pc := .idle }

/-- `on_data_ready`. -/
def onDataReady (w : WriteReq) : WriteReq :=
  if w.writePending then { w with queued := false }
  else { w with queued := false }.sendNextChunk

/-- `echo_write_buffer_load` for a streaming request and `echo_write` for one
that was answered from the cache; `ok` is `status == 0`. -/
def onWritten (w : WriteReq) (ok : Bool) : WriteReq :=
  let w := { w with inFlight := w.inFlight.tail }
  if w.streaming then
    let w := { w with writePending := false }
    if !ok then w.release .writeStatus
    else if w.isLoading || w.lastOffset < w.totalSize then w.sendNextChunk
    else w.release .allSent
  else w.release .echoWrite

/-- `uv_async_send` on the handle of the request, unless it is closing. -/
def notify (w : WriteReq) : WriteReq :=
  if w.pc = .released then w else { w with queued := true }

/-- `free_write_req` has returned. -/
def Gone (w : WriteReq) : Prop :=
  w.pc = .released ∨ w.pc = .freed

/-- A streaming request for which `free_write_req` has not been called. -/
def Live (w : WriteReq) : Prop :=
  w.streaming = true ∧ w.pc ≠ .unregister ∧ w.pc ≠ .cancelBgw ∧
    w.pc ≠ .released ∧ w.pc ≠ .freed

instance (w : WriteReq) : Decidable w.Live := by
  unfold Live
  infer_instance

end WriteReq

/-! ## Workers -/

/-- What a worker does next. -/
inductive TaskPc
  /-- Queued by `uv_queue_work`; `cache_start_loading` comes next. -/
  | queued
  /-- `curl_easy_init`. -/
  | started
  /-- Inside `curl_easy_perform`, not in `write_callback`. -/
  | performing
  /-- `write_callback`: the test of `is_loading`. -/
  | testing
  /-- `cache_append_data`: the critical section. -/
  | appending
  /-- `cache_append_data`: `notify_waiting_clients`. -/
  | notifying
  /-- `cache_finish_loading`: the test of `is_loading`. -/
  | finishTest
  /-- `cache_finish_loading`: the critical section. -/
  | finishing
  /-- `cache_finish_loading`: `notify_waiting_clients`. -/
  | finishNotify
  /-- `cache_cancel_loading`. -/
  | failing
  /-- `load_http_resp` has returned. -/
  | ended
  deriving DecidableEq, Repr

/-- `task_t` with the local variables of `load_http_resp`.  `delivered` is
history: the chunks that curl passed to `write_callback`, in order. -/
structure Task where
  req : HttpReq
  key : CString
  pc : TaskPc
  shouldStop : Bool
  entry : ℕ
  chunk : List UInt8
  result : ℤ
  delivered : List (List UInt8)

namespace Task

def launched (x : HttpReq) (key : CString) : Task where
  req := x
  key := key
  pc := .queued
  shouldStop := false
  entry := 0
  chunk := []
  result := 0
  delivered := []

/-- `path` in `load_http_resp`: the URL, and the string that
`cache_cancel_loading` is called with. -/
def path (t : Task) : CString := t.req.urlPath

/-- `write_callback` returns 0.  Curl fails the transfer if that is not the
size of the chunk. -/
def refuse (t : Task) : Task :=
  { t with pc := if t.chunk = [] then .performing else .failing }

/-- `notify_waiting_clients` returns to `write_callback`, or to the end of
the load. -/
def afterNotify (t : Task) : Task :=
  { t with pc := if t.pc = .notifying then .performing else .ended }

end Task

/-- The entry is in the hands of the worker: it got it from
`cache_start_loading` and may still use it. -/
def TaskPc.UsesEntry : TaskPc → Prop
  | .queued | .failing | .ended => False
  | .started | .performing | .testing | .appending | .notifying
  | .finishTest | .finishing | .finishNotify => True

instance (p : TaskPc) : Decidable p.UsesEntry := by
  cases p <;> unfold TaskPc.UsesEntry <;> infer_instance

/-- The worker got an entry from `cache_start_loading` and has not ended. -/
def TaskPc.HasEntry : TaskPc → Prop
  | .queued | .ended => False
  | .started | .performing | .testing | .appending | .notifying
  | .finishTest | .finishing | .finishNotify | .failing => True

/-! ## The whole system -/

inductive LockHolder
  | request (r : ℕ)
  | collector
  deriving DecidableEq, Repr

/-- The loop of `cache_clean_expired` over one chain: the entries up to
`prev`, the loading entries passed since, and those still ahead. -/
structure Collector where
  bucket : ℕ
  now : ℤ
  front : List ℕ
  skipped : List ℕ
  rest : List ℕ

/-- The cache, the requests, the workers and the collector.  `appends` is
history: which worker appended which chunks to an entry. -/
structure State where
  cache : Cache
  reqs : ℕ → Option WriteReq
  tasks : ℕ → Option Task
  locks : ℕ → Option LockHolder
  gc : Option Collector
  appends : ℕ → List (ℕ × List UInt8)

namespace State

def init (numBuckets : ℕ) (defaultTtl : ℤ) : State where
  cache := .init numBuckets defaultTtl
  reqs := fun _ => none
  tasks := fun _ => none
  locks := fun _ => none
  gc := none
  appends := fun _ => []

/-- Nobody holds the mutex of the key's bucket. -/
def Unlocked (s : State) (key : CString) : Prop :=
  s.locks (s.cache.bucketOf key) = none

instance (s : State) (key : CString) : Decidable (s.Unlocked key) := by
  unfold Unlocked
  infer_instance

def setReq (s : State) (r : ℕ) (w : WriteReq) : State :=
  { s with reqs := Function.update s.reqs r (some w) }

def setTask (s : State) (t : ℕ) (task : Task) : State :=
  { s with tasks := Function.update s.tasks t (some task) }

def setLock (s : State) (b : ℕ) (holder : Option LockHolder) : State :=
  { s with locks := Function.update s.locks b holder }

theorem setReq_self (s : State) (r : ℕ) (w : WriteReq) :
    (s.setReq r w).reqs r = some w :=
  Function.update_self ..

theorem eq_of_setReq
    {s : State} {r : ℕ} {w w' : WriteReq}
    (h : (s.setReq r w).reqs r = some w') : w = w' :=
  Option.some.inj ((s.setReq_self r w).symm.trans h)

theorem setTask_self (s : State) (t : ℕ) (task : Task) :
    (s.setTask t task).tasks t = some task :=
  Function.update_self ..

theorem eq_of_setTask
    {s : State} {t : ℕ} {task task' : Task}
    (h : (s.setTask t task).tasks t = some task') : task = task' :=
  Option.some.inj ((s.setTask_self t task).symm.trans h)

/-! ### Steps of a request -/

/-- `read_client` on a parsed request, up to its lookup. -/
def readClient (s : State) (r : ℕ) (x : HttpReq) : Option State :=
  if s.reqs r = none then
    x.cacheKey.map fun key => s.setReq r (.arrived x key)
  else none

/-- The first half of a lookup. -/
def lookupBegin (s : State) (r : ℕ) : Option State :=
  (s.reqs r).bind fun w =>
    if w.pc = .lookup ∧ s.Unlocked w.key then
      match s.cache.findEntry w.key with
      | some (a, e) =>
          some ((s.setLock (s.cache.bucketOf w.key) (some (.request r))).setReq
            r { w with pc := .inLookup, entry := a, loading := e.isLoading })
      | none =>
          some ({ s with
            cache := { s.cache with misses := s.cache.misses + 1 } }.setReq r
              (w.afterLookup 0 .missing false))
    else none

/-- The second half of a lookup that found an entry. -/
def lookupEnd (s : State) (r : ℕ) (now : ℤ) (accepted : Bool) :
    Option State :=
  (s.reqs r).bind fun w =>
    if w.pc = .inLookup then
      (s.cache.entries w.entry).map fun e =>
        let res := readEntry w.loading e.data w.lookupArgs.1 w.lookupArgs.2
        let cache :=
          if res.status = .newLoaded then
            { s.cache.putEntry w.entry (e.touch res.status now) with
              hits := s.cache.hits + 1 }
          else s.cache
        ({ s with cache := cache }.setLock (s.cache.bucketOf w.key) none).setReq
          r (w.afterLookup w.entry res accepted)
    else none

/-- `launch_bgw`, which `uv_queue_work` may refuse. -/
def launchBgw (s : State) (r : ℕ) (ok : Bool) : Option State :=
  (s.reqs r).bind fun w =>
    if w.pc = .launch then
      if ok then
        some ((s.setTask r (.launched w.req w.key)).setReq r
          (w.beginStreaming true))
      else some (s.setReq r { w with pc := .released })
    else none

def registerWaiter (s : State) (r : ℕ) (rowOk : Bool) : Option State :=
  (s.reqs r).bind fun w =>
    if w.pc = .register ∧ s.Unlocked w.key then
      some ({ s with
        cache := (s.cache.registerWaiter w.key r rowOk).2 }.setReq r
          w.afterRegister)
    else none

def onDataReady (s : State) (r : ℕ) : Option State :=
  (s.reqs r).bind fun w =>
    if w.pc = .idle ∧ w.streaming = true ∧ w.queued = true then
      some (s.setReq r w.onDataReady)
    else none

def onWritten (s : State) (r : ℕ) (ok : Bool) : Option State :=
  (s.reqs r).bind fun w =>
    if w.pc = .idle ∧ w.inFlight ≠ [] then some (s.setReq r (w.onWritten ok))
    else none

def unregisterWaiter (s : State) (r : ℕ) : Option State :=
  (s.reqs r).bind fun w =>
    if w.pc = .unregister ∧ s.Unlocked w.key then
      some ({ s with
        cache := (s.cache.unregisterWaiter w.key r).2 }.setReq r
          { w with pc := .cancelBgw })
    else none

/-- `cancel_bgw` on the task of the request, if it has one, and the rest of
`free_write_req`. -/
def cancelBgw (s : State) (r : ℕ) : Option State :=
  (s.reqs r).bind fun w =>
    if w.pc = .cancelBgw then
      let s := s.setReq r { w with pc := .released }
      if w.launched then
        some { s with
          tasks := Function.update s.tasks r
            ((s.tasks r).map fun t => { t with shouldStop := true }) }
      else some s
    else none

/-- `on_async_close`, which the loop calls some time after `uv_close`. -/
def onAsyncClose (s : State) (r : ℕ) : Option State :=
  (s.reqs r).bind fun w =>
    if w.pc = .released ∧ w.streaming = true then
      some (s.setReq r { w with pc := .freed })
    else none

/-! ### Steps of a worker -/

/-- `cache_start_loading`. -/
def startLoading (s : State) (t : ℕ) (now : ℤ) (allocOk : Bool) :
    Option State :=
  (s.tasks t).bind fun task =>
    if task.pc = .queued ∧ s.Unlocked task.key then
      let (entry, cache) := s.cache.startLoading task.key now allocOk
      match entry with
      | some a =>
          some ({ s with cache := cache }.setTask t
            { task with pc := .started, entry := a })
      | none =>
          some ({ s with cache := cache }.setTask t
            { task with pc := .ended, result := -1 })
    else none

/-- `curl_easy_init`. -/
def curlInit (s : State) (t : ℕ) (ok : Bool) : Option State :=
  (s.tasks t).bind fun task =>
    if task.pc = .started then
      some (s.setTask t
        { task with pc := if ok then .performing else .failing })
    else none

/-- Curl calls `write_callback`, which tests `should_stop`. -/
def writeCallback (s : State) (t : ℕ) (chunk : List UInt8) : Option State :=
  (s.tasks t).bind fun task =>
    if task.pc = .performing then
      let task :=
        { task with chunk := chunk, delivered := task.delivered ++ [chunk] }
      some (s.setTask t
        (if task.shouldStop then task.refuse
        else { task with pc := .testing }))
    else none

/-- `write_callback` tests `is_loading`, twice. -/
def testLoading (s : State) (t : ℕ) : Option State :=
  (s.tasks t).bind fun task =>
    if task.pc = .testing then
      (s.cache.entries task.entry).map fun e =>
        s.setTask t
          (if e.isLoading then { task with pc := .appending } else task.refuse)
    else none

/-- The critical section of `cache_append_data`. -/
def appendData (s : State) (t : ℕ) (now : ℤ) (reallocOk : Bool) :
    Option State :=
  (s.tasks t).bind fun task =>
    if task.pc = .appending then
      (s.cache.entries task.entry).bind fun e =>
        (e.appendData task.chunk now reallocOk).map fun p =>
          let s := { s with cache := s.cache.putEntry task.entry p.2 }
          if p.1 = 0 then
            { s with
              appends := Function.update s.appends task.entry
                (s.appends task.entry ++ [(t, task.chunk)]) }.setTask t
                { task with pc := .notifying }
          else s.setTask t task.refuse
    else none

/-- No request whose handle waits for the entry has been freed. -/
def HandlesAlive (s : State) (e : Entry) : Prop :=
  ∀ r ∈ e.waitingClients, (s.reqs r).map WriteReq.pc ≠ some .freed

instance (s : State) (e : Entry) : Decidable (s.HandlesAlive e) := by
  unfold HandlesAlive
  infer_instance

/-- `notify_waiting_clients`, after an append or at the end of the load. -/
def notifyWaitingClients (s : State) (t : ℕ) : Option State :=
  (s.tasks t).bind fun task =>
    if task.pc = .notifying ∨ task.pc = .finishNotify then
      (s.cache.entries task.entry).bind fun e =>
        if s.HandlesAlive e then
          some ({ s with
            reqs := fun r =>
              if r ∈ e.waitingClients then (s.reqs r).map WriteReq.notify
              else s.reqs r }.setTask t task.afterNotify)
        else none
    else none

/-- `curl_easy_perform` returns; `ok` says that it succeeded with code 200. -/
def curlDone (s : State) (t : ℕ) (ok : Bool) : Option State :=
  (s.tasks t).bind fun task =>
    if task.pc = .performing then
      some (s.setTask t
        { task with pc := if ok then .finishTest else .failing })
    else none

/-- `cache_finish_loading` tests `is_loading`; `load_http_resp` does not look
at its result. -/
def finishTest (s : State) (t : ℕ) : Option State :=
  (s.tasks t).bind fun task =>
    if task.pc = .finishTest then
      (s.cache.entries task.entry).map fun e =>
        s.setTask t
          { task with pc := if e.isLoading then .finishing else .ended }
    else none

/-- The critical section of `cache_finish_loading`. -/
def finishLoading (s : State) (t : ℕ) (now : ℤ) (reallocOk : Bool) :
    Option State :=
  (s.tasks t).bind fun task =>
    if task.pc = .finishing then
      (s.cache.entries task.entry).bind fun e =>
        (e.finishLoading now reallocOk).map fun e' =>
          { s with cache := s.cache.putEntry task.entry e' }.setTask t
            { task with pc := .finishNotify }
    else none

/-- `cache_cancel_loading(cache, path)`. -/
def cancelLoading (s : State) (t : ℕ) : Option State :=
  (s.tasks t).bind fun task =>
    if task.pc = .failing ∧ s.Unlocked task.path then
      some ({ s with cache := (s.cache.cancelLoading task.path).2 }.setTask t
        { task with pc := .ended, result := -1 })
    else none

/-! ### Steps of the collector -/

/-- `cache_clean_expired` turns to bucket `b`. -/
def gcBegin (s : State) (b : ℕ) (now : ℤ) : Option State :=
  if s.gc.isNone ∧ s.locks b = none then
    some ({ s with
      gc := some ⟨b, now, [], [], s.cache.chain b⟩ }.setLock b
        (some .collector))
  else none

/-- One turn of the loop over the chain. -/
def gcEntry (s : State) : Option State :=
  s.gc.bind fun g =>
    match g.rest with
    | [] => none
    | a :: rest =>
        (s.cache.entries a).bind fun e =>
          if e.isLoading then
            some { s with
              gc := some { g with skipped := g.skipped ++ [a], rest := rest } }
          else if e.expired s.cache.defaultTtl g.now then
            -- `free_entry` frees the block of the data
            if e.dataLive then
              some { s with
                cache := { s.cache with
                  currentSize := s.cache.currentSize - .ofNat e.allocatedSize
                  currentEntries := s.cache.currentEntries - 1
                  chain :=
                    Function.update s.cache.chain g.bucket (g.front ++ rest)
                  entries := Function.update s.cache.entries a none }
                gc := some { g with skipped := [], rest := rest } }
            else none
          else
            some { s with
              gc := some { g with
                front := g.front ++ g.skipped ++ [a]
                skipped := []
                rest := rest } }

/-- The end of the chain: the mutex of the bucket is released. -/
def gcEnd (s : State) : Option State :=
  s.gc.bind fun g =>
    if g.rest = [] then some ({ s with gc := none }.setLock g.bucket none)
    else none

end State

/-- The steps of a request. -/
inductive ReqStep
  | readClient (x : HttpReq)
  | lookupBegin
  | lookupEnd (now : ℤ) (accepted : Bool)
  | launchBgw (ok : Bool)
  | registerWaiter (rowOk : Bool)
  | onDataReady
  | onWritten (ok : Bool)
  | unregisterWaiter
  | cancelBgw
  | onAsyncClose

/-- The steps of a worker. -/
inductive WorkerStep
  | startLoading (now : ℤ) (allocOk : Bool)
  | curlInit (ok : Bool)
  | writeCallback (chunk : List UInt8)
  | testLoading
  | appendData (now : ℤ) (reallocOk : Bool)
  | notifyWaitingClients
  | curlDone (ok : Bool)
  | finishTest
  | finishLoading (now : ℤ) (reallocOk : Bool)
  | cancelLoading

/-- The steps of the collector. -/
inductive GcStep
  | begin (b : ℕ) (now : ℤ)
  | entry
  | finish

/-- One scheduling choice. -/
inductive Action
  | request (r : ℕ) (a : ReqStep)
  | worker (t : ℕ) (a : WorkerStep)
  | collector (a : GcStep)

namespace State

def stepRequest (s : State) (r : ℕ) : ReqStep → Option State
  | .readClient x => s.readClient r x
  | .lookupBegin => s.lookupBegin r
  | .lookupEnd now accepted => s.lookupEnd r now accepted
  | .launchBgw ok => s.launchBgw r ok
  | .registerWaiter ok => s.registerWaiter r ok
  | .onDataReady => s.onDataReady r
  | .onWritten ok => s.onWritten r ok
  | .unregisterWaiter => s.unregisterWaiter r
  | .cancelBgw => s.cancelBgw r
  | .onAsyncClose => s.onAsyncClose r

def stepWorker (s : State) (t : ℕ) : WorkerStep → Option State
  | .startLoading now ok => s.startLoading t now ok
  | .curlInit ok => s.curlInit t ok
  | .writeCallback chunk => s.writeCallback t chunk
  | .testLoading => s.testLoading t
  | .appendData now ok => s.appendData t now ok
  | .notifyWaitingClients => s.notifyWaitingClients t
  | .curlDone ok => s.curlDone t ok
  | .finishTest => s.finishTest t
  | .finishLoading now ok => s.finishLoading t now ok
  | .cancelLoading => s.cancelLoading t

def stepCollector (s : State) : GcStep → Option State
  | .begin b now => s.gcBegin b now
  | .entry => s.gcEntry
  | .finish => s.gcEnd

def step (s : State) : Action → Option State
  | .request r a => s.stepRequest r a
  | .worker t a => s.stepWorker t a
  | .collector a => s.stepCollector a

end State

/-- The proxy, from `cache_init` on. -/
def proxy : TransitionSystem State Action where
  Initial := fun s => ∃ numBuckets defaultTtl, s = .init numBuckets defaultTtl
  step := State.step

theorem proxy_initial (numBuckets : ℕ) (defaultTtl : ℤ) :
    proxy.Initial (.init numBuckets defaultTtl) :=
  ⟨numBuckets, defaultTtl, rfl⟩

/-! ## Schedules for concrete runs -/

/-- `GET /` without a referer. -/
def rootRequest : HttpReq := ⟨[47], []⟩

/-- A worker gets its entry and starts its transfer. -/
def beginLoad (t : ℕ) : List Action :=
  [.worker t (.startLoading 0 true), .worker t (.curlInit true)]

/-- Curl delivers a chunk, which is appended and announced. -/
def deliver (t : ℕ) (chunk : List UInt8) : List Action :=
  [.worker t (.writeCallback chunk), .worker t .testLoading,
    .worker t (.appendData 0 true), .worker t .notifyWaitingClients]

/-- The transfer succeeds and the load is finished and announced. -/
def endLoad (t : ℕ) : List Action :=
  [.worker t (.curlDone true), .worker t .finishTest,
    .worker t (.finishLoading 0 true), .worker t .notifyWaitingClients]

/-- The transfer fails and the load is cancelled. -/
def failLoad (t : ℕ) : List Action :=
  [.worker t (.curlDone false), .worker t .cancelLoading]

/-- A client asks for the page and finds nothing. -/
def arriveFirst (r : ℕ) (x : HttpReq) : List Action :=
  [.request r (.readClient x), .request r .lookupBegin,
    .request r (.launchBgw true)]

/-- `send_next_chunk` finds a chunk and writes it. -/
def sendChunk (r : ℕ) : List Action :=
  [.request r .lookupBegin, .request r (.lookupEnd 0 true)]

end Streaming
end Proxy
end OsFifthSem
