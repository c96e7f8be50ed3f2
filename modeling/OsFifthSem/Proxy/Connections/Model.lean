import OsFifthSem.Proxy.Streaming.Model

/-!
# The connections of one backend

The callbacks of `backend.c` that use a client's handle: `read_client`,
`send_next_chunk`, the two write callbacks and `free_write_req`.  A callback
runs to its end before the loop calls the next one.  What the cache answers is
up to the other threads, so each callback is given what its lookups find.

The loop belongs to a library that is not part of the repository.  It is taken
to work as documented: nothing is read from a client after the end of the
stream, an error or `uv_close`; `uv_write` refuses a closing handle; every
write that was accepted completes, with any status, and on a closing handle
before the close callback; an async handle reports only until it is closed.

The calls of `cache_unregister_waiter` and `cancel_bgw` in `free_write_req`
are left out, since nothing here depends on them.
-/

namespace OsFifthSem
namespace Proxy
namespace Connections

open Support

/-! ## Data -/

/-- A client's handle: in use, passed to `uv_close`, or freed by its close
callback. -/
inductive HandleStatus
  | active
  | closing
  | freed
  deriving DecidableEq, Repr

/-- An accepted client.  `closes` counts the calls of `uv_close`. -/
structure Client where
  status : HandleStatus
  /-- The end of the stream or a read error was reported. -/
  ended : Bool
  closes : ℕ
  deriving DecidableEq, Repr

/-- `write_req_t`.  `inFlight` counts the writes that were accepted and have
not completed, and `released` says that `free_write_req` was called. -/
structure WriteReq where
  client : ℕ
  path : CString
  lastOffset : ℕ
  totalSize : ℕ
  isLoading : Bool
  wasAsyncInit : Bool
  didRegister : Bool
  writePending : Bool
  inFlight : ℕ
  released : Bool

/-- The part of `backend_t` that concerns its connections.  The last two fields
are history: what the client's handle was at each call of `uv_write` and
`uv_is_closing`, and how many other write requests of the client were not
released at each `uv_close`. -/
structure Backend where
  clientCount : ℤ
  clients : List Client
  reqs : List WriteReq
  uses : List HandleStatus
  others : List ℕ

/-- `create_backend`. -/
def createBackend : Backend where
  clientCount := 0
  clients := []
  reqs := []
  uses := []
  others := []

/-- The entry that a lookup finds, as `is_loading` and the bytes it reads. -/
abbrev Found := Option (Bool × List UInt8)

/-- `cache_lookup_partial`; `cache_lookup` is called with 0 and 0. -/
def Found.lookup (found : Found) (offset maxSize : ℕ) : LookupResult :=
  match found with
  | none => .missing
  | some (loading, bytes) => readEntry loading bytes offset maxSize

/-- What a callback gets from elsewhere. -/
structure Outside where
  /-- For the lookup of `read_client`. -/
  cached : Found
  /-- `uv_queue_work` succeeds. -/
  launches : Bool
  /-- For the lookup of `send_next_chunk`. -/
  chunk : Found
  /-- For its second lookup, after registering. -/
  recheck : Found
  /-- For the lookup of the call that may follow. -/
  rechecked : Found
  /-- `uv_write` accepts, unless the handle is closing. -/
  accepts : Bool
  /-- What `uv_is_closing` makes of freed memory. -/
  garbage : Bool
  deriving DecidableEq

namespace Backend

/-! ## Handles -/

def handleStatus (b : Backend) (c : ℕ) : HandleStatus :=
  b.clients[c]?.elim .freed Client.status

/-- The write requests of a client that are not released. -/
def unreleased (b : Backend) (c : ℕ) : ℕ :=
  b.reqs.countP fun wr => wr.client = c ∧ wr.released = false

def setReq (b : Backend) (i : ℕ) (wr : WriteReq) : Backend :=
  { b with reqs := b.reqs.set i wr }

def addReq (b : Backend) (wr : WriteReq) : Backend :=
  { b with reqs := b.reqs ++ [wr] }

def setClient (b : Backend) (c : ℕ) (f : Client → Client) : Backend :=
  { b with clients := b.clients.modify c f }

/-- A client's handle is passed to a function of the loop. -/
def use (b : Backend) (c : ℕ) : Backend :=
  { b with uses := b.handleStatus c :: b.uses }

/-- `uv_write` of request `i`: whether it is accepted, and the backend. -/
def uvWrite (b : Backend) (env : Outside) (i : ℕ) (wr : WriteReq) :
    Bool × Backend :=
  let accepted := env.accepts && b.handleStatus wr.client ≠ .closing
  (accepted, (b.use wr.client).setReq i
    (if accepted then { wr with inFlight := wr.inFlight + 1 } else wr))

def uvIsClosing (b : Backend) (env : Outside) (c : ℕ) : Bool :=
  match b.handleStatus c with
  | .active => false
  | .closing => true
  | .freed => env.garbage

/-- `uv_close` of a client, with `client_count` decremented. -/
def closeClient (b : Backend) (c : ℕ) : Backend :=
  { b.setClient c fun cl =>
      { cl with status := .closing, closes := cl.closes + 1 } with
    clientCount := b.clientCount - 1
    others := b.unreleased c :: b.others }

/-- `free_write_req`. -/
def freeWriteReq (b : Backend) (env : Outside) (i : ℕ) (wr : WriteReq) :
    Backend :=
  let closed := b.uvIsClosing env wr.client
  let b := (b.use wr.client).setReq i { wr with released := true }
  if closed then b else b.closeClient wr.client

/-! ## Sending -/

/-- `if (!did_register) cache_register_waiter(...)`. -/
def registerOnce (wr : WriteReq) : WriteReq :=
  if wr.didRegister then wr else { wr with didRegister := true }

/-- `send_next_chunk` of request `i`, where `again` is its call of itself. -/
def sendChunk (again : Backend → WriteReq → Backend) (chunk recheck : Found)
    (env : Outside) (i : ℕ) (b : Backend) (wr : WriteReq) : Backend :=
  if wr.writePending then b.setReq i wr
  else
    let res := chunk.lookup wr.lastOffset Streaming.packetSize
    let finished :=
      if res.data ≠ [] then
        (b.uvWrite env i
          { wr with lastOffset := wr.lastOffset + res.data.length }).2
      -- `still_loading` keeps its initial value when no entry is found
      else if res.isLoading.getD false = false then b.freeWriteReq env i wr
      else b.setReq i (registerOnce wr)
    match res.status with
    | .done => finished
    | .found => finished
    | .notFound => b.setReq i (registerOnce wr)
    | .newLoaded =>
        if res.data ≠ [] then
          let wr := { wr with
            lastOffset := wr.lastOffset + res.data.length
            writePending := true }
          let r := b.uvWrite env i wr
          if r.1 then r.2
          else r.2.setReq i { wr with writePending := false }
        else b.setReq i wr
    | .newNotLoaded =>
        if wr.didRegister then b.setReq i wr
        else
          let wr := { wr with didRegister := true }
          let check := recheck.lookup wr.lastOffset Streaming.packetSize
          if check.data ≠ [] ∨ check.isLoading.getD false = false then
            again b wr
          else b.setReq i wr
    | .error => b.freeWriteReq env i wr

/-- `send_next_chunk`.  It calls itself only after it has set `did_register`,
so the call does not do so again. -/
def sendNextChunk (env : Outside) (i : ℕ) (b : Backend) (wr : WriteReq) :
    Backend :=
  sendChunk
    (sendChunk (fun b wr => b.setReq i wr) env.rechecked none env i)
    env.chunk env.recheck env i b wr

/-- `on_data_ready`. -/
def onDataReady (b : Backend) (env : Outside) (i : ℕ) (wr : WriteReq) :
    Backend :=
  if wr.writePending then b else b.sendNextChunk env i wr

/-- `echo_write`, whatever the status. -/
def echoWrite (b : Backend) (env : Outside) (i : ℕ) (wr : WriteReq) :
    Backend :=
  b.freeWriteReq env i wr

/-- `echo_write_buffer_load`; `ok` is `status == 0`. -/
def echoWriteBufferLoad (b : Backend) (env : Outside) (i : ℕ)
    (wr : WriteReq) (ok : Bool) : Backend :=
  let wr := { wr with writePending := false }
  if !ok then b.freeWriteReq env i wr
  else if wr.isLoading || wr.lastOffset < wr.totalSize then
    b.sendNextChunk env i wr
  else b.freeWriteReq env i wr

/-- The callback of a write.  Only a request that streams has its chunks
written with `echo_write_buffer_load`. -/
def onWritten (b : Backend) (env : Outside) (i : ℕ) (wr : WriteReq)
    (ok : Bool) : Backend :=
  let wr := { wr with inFlight := wr.inFlight - 1 }
  if wr.wasAsyncInit then b.echoWriteBufferLoad env i wr ok
  else b.echoWrite env i wr

/-! ## Clients -/

/-- `new_client`. -/
def newClient (b : Backend) : Backend :=
  { b with
    clientCount := b.clientCount + 1
    clients := b.clients ++ [⟨.active, false, 0⟩] }

/-- `alloc_write_req_t`. -/
def allocWriteReq (c : ℕ) (path : CString) : WriteReq where
  client := c
  path := path
  lastOffset := 0
  totalSize := 0
  isLoading := false
  wasAsyncInit := false
  didRegister := false
  writePending := false
  inFlight := 0
  released := false

/-- The part of `read_client` for a response that is loading. -/
def startStreaming (b : Backend) (env : Outside) (c : ℕ) (key : CString) :
    Backend :=
  let wr := { allocWriteReq c key with isLoading := true, wasAsyncInit := true }
  (b.addReq wr).sendNextChunk env b.reqs.length wr

end Backend

/-- What a call of `read_client` reports: data, with the result of
`parse_http_req`, nothing, or the end of the stream or an error. -/
inductive ReadEvent
  | data (parsed : Option HttpReq)
  | again
  | ended
  deriving DecidableEq

namespace Backend

/-- `read_client`; there is no result when the key does not fit into its
buffer. -/
def readClient (b : Backend) (env : Outside) (c : ℕ) :
    ReadEvent → Option Backend
  | .data (some x) =>
      x.cacheKey.map fun key =>
        match (env.cached.lookup 0 0).status with
        | .found =>
            let wr := allocWriteReq c key
            ((b.addReq wr).uvWrite env b.reqs.length wr).2
        | .notFound =>
            if env.launches then b.startStreaming env c key else b
        | .newLoaded => b.startStreaming env c key
        | .newNotLoaded => b.startStreaming env c key
        | .done => b
        | .error => b
  | .data none => some b
  | .again => some b
  -- the handle remembers that the stream ended, the program does not
  | .ended => some (b.setClient c fun cl => { cl with ended := true })

end Backend

/-! ## The loop -/

inductive Action
  | newClient
  | read (c : ℕ) (event : ReadEvent) (env : Outside)
  /-- The callback of a write of request `i`. -/
  | written (i : ℕ) (ok : Bool) (env : Outside)
  | dataReady (i : ℕ) (env : Outside)
  /-- The close callback of a client, which is `free`. -/
  | closed (c : ℕ)
  deriving DecidableEq

def step (b : Backend) : Action → Option Backend
  | .newClient => some b.newClient
  | .read c event env =>
      b.clients[c]?.bind fun cl =>
        if cl.status = .active ∧ cl.ended = false then b.readClient env c event
        else none
  | .written i ok env =>
      b.reqs[i]?.bind fun wr =>
        if 0 < wr.inFlight then some (b.onWritten env i wr ok) else none
  | .dataReady i env =>
      b.reqs[i]?.bind fun wr =>
        if wr.didRegister = true ∧ wr.released = false then
          some (b.onDataReady env i wr)
        else none
  | .closed c =>
      if b.handleStatus c = .closing ∧
          ∀ wr ∈ b.reqs, wr.client = c → wr.inFlight = 0 then
        some (b.setClient c fun cl => { cl with status := .freed })
      else none

/-- The callbacks of one backend in any order, from its creation. -/
def loopSystem : TransitionSystem Backend Action where
  Initial := fun b => b = createBackend
  step := step

end Connections
end Proxy
end OsFifthSem
