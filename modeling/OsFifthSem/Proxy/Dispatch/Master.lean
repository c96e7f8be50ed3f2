import OsFifthSem.Proxy.Dispatch.Backend

/-!
# The master and the load of its backends

`on_new_connection` asks `get_backend` for a backend, accepts the connection
and writes it into the pipe of that backend.  `get_backend` reads
`client_count` of one backend after the other while the backends run, takes the
first with room, and otherwise adds a backend and returns the last one, whether
or not `add_backend` succeeds.

`add_thread` returns the index of the slot it uses, which is always 0, since
`create_thread` leaves every slot marked free.  When `pthread_create` fails
there, the mutex of the thread pool stays locked.  After an access outside
`backends` the master takes no further step.
-/

namespace OsFifthSem
namespace Proxy
namespace Dispatch

open Support

/-- `MAX_BACKEND_NUM`. -/
def maxBackendNum : ℕ := 10

/-- `MAX_BACKEND_CONNECTIONS_NUM`. -/
def maxBackendConnectionsNum : ℤ := 10

/-- Where the master thread is. -/
inductive MasterPc
  /-- In its event loop. -/
  | idle
  /-- `get_backend`, before it reads `client_count` of backend `i`. -/
  | getBackend (i : ℕ)
  /-- `get_backend` has returned backend `i`. -/
  | accept (i : ℕ)
  /-- `send_client_to_backend`. -/
  | send (i : ℕ) (client : ℕ)
  /-- `backends` was accessed outside its bounds. -/
  | fault
  deriving DecidableEq, Repr

/-- `master_t` with its backends, of which there are `cur_backend_count`. -/
structure Master where
  backends : List Backend
  pc : MasterPc
  /-- The number of connections accepted, which names the next one. -/
  accepted : ℕ
  /-- The mutex of the thread pool was left locked. -/
  poolLocked : Bool
  deriving DecidableEq, Repr

/-- How `add_backend` ends. -/
inductive AddResult
  | created
  /-- `create_backend` or one of the calls for the pipe fails. -/
  | notCreated
  /-- `pthread_create` fails. -/
  | noThread
  deriving DecidableEq, Repr

/-- One scheduling choice, with the results of the calls it makes. -/
inductive MasterAction
  /-- `on_new_connection` is called. -/
  | connection (statusOk : Bool)
  /-- `get_backend` reads one counter. -/
  | scan
  /-- `get_backend` has found no room. -/
  | addBackend (result : AddResult)
  /-- `uv_accept` in `on_new_connection`. -/
  | accept (ok : Bool)
  /-- `uv_write2`. -/
  | send (ok : Bool)
  /-- A write that was queued fails later, and its handle is lost. -/
  | clientLost (i : ℕ) (position : ℕ)
  /-- A read callback of backend `i`. -/
  | readPipe (i : ℕ) (event : ReadEvent)
  /-- `free_write_req` in backend `i`. -/
  | freeWriteReq (i : ℕ) (client : ℕ)
  deriving DecidableEq, Repr

namespace Master

/-- The end of `get_backend` after a call of `add_backend` that failed:
`&master->backends[master->cur_backend_count - 1]`. -/
def returnLast (s : Master) : Master :=
  { s with
    pc := if s.backends = [] then .fault else .accept (s.backends.length - 1) }

/-- `add_backend`, and the return of the last backend. -/
def addBackend (s : Master) (result : AddResult) : Option Master :=
  if s.backends.length = maxBackendNum then
    -- `create_backend` writes behind the array
    some { s with pc := .fault }
  else
    match result with
    | .notCreated => some s.returnLast
    | .noThread =>
        if s.poolLocked then none
        else some { s.returnLast with poolLocked := true }
    | .created =>
        if s.poolLocked then none
        else some { s with
          backends := s.backends ++ [createBackend]
          pc := .accept s.backends.length }

end Master

/-- One step of the master or of a backend. -/
def masterStep (s : Master) : MasterAction → Option Master
  | .connection statusOk =>
      if s.pc = .idle then
        some { s with pc := if statusOk then .getBackend 0 else .idle }
      else none
  | .scan =>
      match s.pc with
      | .getBackend i =>
          match s.backends[i]? with
          | some b =>
              some { s with
                pc := if b.clientCount < maxBackendConnectionsNum then .accept i
                  else .getBackend (i + 1) }
          | none => none
      | _ => none
  | .addBackend result =>
      match s.pc with
      | .getBackend i =>
          if s.backends.length ≤ i then s.addBackend result else none
      | _ => none
  | .accept ok =>
      match s.pc with
      | .accept i =>
          some (if ok then
            { s with pc := .send i s.accepted, accepted := s.accepted + 1 }
          else { s with pc := .idle })
      | _ => none
  | .send ok =>
      match s.pc with
      | .send i client =>
          some { s with
            backends :=
              if ok then s.backends.modify i (Backend.send · client)
              else s.backends
            pc := .idle }
      | _ => none
  | .clientLost i position =>
      some { s with
        backends := s.backends.modify i fun b =>
          { b with sent := b.sent.eraseIdx position } }
  | .readPipe i event =>
      (s.backends[i]?.bind fun b => b.callback event).map fun b =>
        { s with backends := s.backends.set i b }
  | .freeWriteReq i client =>
      some { s with
        backends := s.backends.modify i (Backend.freeWriteReq · client) }

/-- A master without backends. -/
def startMaster : Master where
  backends := []
  pc := .idle
  accepted := 0
  poolLocked := false

/-- The master thread and any number of backends. -/
def masterSystem : TransitionSystem Master MasterAction where
  Initial := fun s => s = startMaster
  step := masterStep

end Dispatch
end Proxy
end OsFifthSem
