import OsFifthSem.Proxy.Cache.Entry
import OsFifthSem.Support.AtomicObject

/-!
# One cache entry, access by access

`cache_lookup_partial` holds the mutex of the bucket and takes `data_lock` for
reading only around the copy of a chunk; `cache_append_data` and
`cache_finish_loading` hold `data_lock` for writing and not the mutex.  The
flag and the size are atomic variables that a lookup loads without
`data_lock`.  Here every access to the shared memory is a step of its own.

The entry stays linked, and one loader appends to it and finishes it.  All
other calls for the bucket only hold its mutex for a while.
-/

namespace OsFifthSem
namespace Proxy
namespace SharedEntry

open Support

universe u

/-! ## Calls -/

/-- What `realloc` makes of a block. -/
inductive Realloc
  | fails
  | inPlace
  | moves
  deriving DecidableEq, Repr

def Realloc.ok : Realloc → Bool
  | .fails => false
  | .inPlace | .moves => true

/-- The arguments of `cache_lookup_partial`; `cache_lookup` passes 0 twice. -/
structure Lookup where
  offset : ℕ
  maxSize : ℕ
  deriving DecidableEq, Repr

/-- A call, with the outcome of the `realloc` that it may make. -/
inductive Call
  | lookupPartial (l : Lookup)
  | appendData (chunk : List UInt8) (r : Realloc)
  | finishLoading (r : Realloc)
  deriving DecidableEq, Repr

inductive Reply
  | looked (r : LookupResult)
  | returned (code : ℤ)
  deriving DecidableEq

/-! ## The memory of the entry -/

/-- An allocated block: its size and the bytes written to it so far. -/
structure Block where
  bytes : List UInt8
  size : ℕ

/-- The fields of the entry and the blocks of memory. -/
structure Heap where
  isLoading : Bool
  dataSize : ℕ
  data : ℕ
  allocatedSize : ℕ
  blocks : ℕ → Option Block
  nextBlock : ℕ

/-- `memcpy` of `n` bytes from `data + offset`, which must have been
written. -/
def Heap.read (h : Heap) (data offset n : ℕ) : Option (List UInt8) :=
  if n = 0 then some []
  else (h.blocks data).bind fun b =>
    if offset + n ≤ b.bytes.length then some ((b.bytes.drop offset).take n)
    else none

/-- `memcpy(entry->data + offset, chunk, chunk_size)`. -/
def Heap.write (h : Heap) (offset : ℕ) (chunk : List UInt8) : Option Heap :=
  (h.blocks h.data).bind fun b =>
    if offset + chunk.length ≤ b.size then
      some { h with
        blocks := Function.update h.blocks h.data
          (some { b with bytes := b.bytes.take offset ++ chunk }) }
    else none

/-- `realloc(entry->data, size)` and, when it succeeds, the stores of `data`
and `allocated_size`.  For size 0 it frees the block and returns NULL. -/
def Heap.realloc (h : Heap) (r : Realloc) (size : ℕ) : Option Heap :=
  (h.blocks h.data).map fun b =>
    if size = 0 then { h with blocks := Function.update h.blocks h.data none }
    else
      match r with
      | .fails => h
      | .inPlace =>
          { h with
            allocatedSize := size
            blocks := Function.update h.blocks h.data
              (some ⟨b.bytes.take size, size⟩) }
      | .moves =>
          { h with
            data := h.nextBlock
            allocatedSize := size
            nextBlock := h.nextBlock + 1
            blocks := Function.update (Function.update h.blocks h.data none)
              h.nextBlock (some ⟨b.bytes.take size, size⟩) }

/-! ## The threads -/

/-- The next step of `cache_lookup_partial`. -/
inductive LookupPc
  | lock
  | loadFlag
  | loadSize (loading : Bool)
  /-- The copy of a finished response, without `data_lock`. -/
  | foundLoadData (size : ℕ)
  | foundCopy (size data : ℕ)
  | rdLock (loading : Bool) (size : ℕ)
  | loadData (loading : Bool) (copySize : ℕ)
  | copy (loading : Bool) (copySize data : ℕ)
  | rdUnlock (r : LookupResult)
  | unlock (r : LookupResult)
  deriving DecidableEq

/-- The next step of `cache_append_data`. -/
inductive AppendPc
  | test
  | wrLock
  | loadSize
  | grow (size newSize : ℕ)
  | copy (size : ℕ)
  | storeSize (size : ℕ)
  | wrUnlock (code : ℤ)
  | notify
  | exit (code : ℤ)
  deriving DecidableEq

/-- The next step of `cache_finish_loading`. -/
inductive FinishPc
  | test
  | wrLock
  | clearFlag
  | loadSize
  | shrink (size : ℕ)
  | wrUnlock
  | notify
  | exit (code : ℤ)
  deriving DecidableEq

/-- Where a thread is. -/
inductive Pc
  | idle
  | lookup (l : Lookup) (p : LookupPc)
  | append (chunk : List UInt8) (r : Realloc) (p : AppendPc)
  | finish (r : Realloc) (p : FinishPc)
  /-- Another call for the same bucket. -/
  | visitLock
  | visitUnlock
  | fault
  deriving DecidableEq

/-- The entry, the mutex of its bucket, `data_lock`, and the threads. -/
structure State (T : Type u) where
  heap : Heap
  bucket : Option T
  writer : Option T
  readers : ℕ
  pc : T → Pc

/-- One scheduling choice. -/
inductive Action (T : Type u)
  | call (t : T) (c : Call)
  | visit (t : T)
  /-- The thread takes its next step. -/
  | advance (t : T)

/-- The first step of a call. -/
def Call.entryPc : Call → Pc
  | .lookupPartial l => .lookup l .lock
  | .appendData chunk r => .append chunk r .test
  | .finishLoading r => .finish r .test

def Call.isLookup : Call → Bool
  | .lookupPartial _ => true
  | .appendData _ _ | .finishLoading _ => false

/-- Where a lookup goes on when it has loaded the flag and the size. -/
def Lookup.branch (l : Lookup) (loading : Bool) (size : ℕ) : LookupPc :=
  if !loading && l.maxSize == 0 then .foundLoadData size
  else if loading && l.offset ≥ size then
    .unlock ⟨.newNotLoaded, [], some loading⟩
  else if l.offset > size then .unlock ⟨.error, [], some loading⟩
  else .rdLock loading size

/-- `copy_size`. -/
def Lookup.copySize (l : Lookup) (size : ℕ) : ℕ :=
  let copySize := size - l.offset
  if l.maxSize > 0 && copySize > l.maxSize then l.maxSize else copySize

/-- The way on under `data_lock`. -/
def Lookup.chunk (l : Lookup) (loading : Bool) (size : ℕ) : LookupPc :=
  if l.copySize size > 0 then .loadData loading (l.copySize size)
  else .rdUnlock ⟨.done, [], some loading⟩

variable {T : Type u} [DecidableEq T]

def State.goto (s : State T) (t : T) (pc : Pc) : State T :=
  { s with pc := Function.update s.pc t pc }

/-- A step of `cache_lookup_partial`. -/
def lookupStep (s : State T) (t : T) (l : Lookup) :
    LookupPc → Option (State T)
  | .lock =>
      if s.bucket = none then
        some ({ s with bucket := some t }.goto t (.lookup l .loadFlag))
      else none
  | .loadFlag => some (s.goto t (.lookup l (.loadSize s.heap.isLoading)))
  | .loadSize loading =>
      some (s.goto t (.lookup l (l.branch loading s.heap.dataSize)))
  | .foundLoadData size =>
      some (s.goto t (.lookup l (.foundCopy size s.heap.data)))
  | .foundCopy size data =>
      match s.heap.read data 0 size with
      | none => some (s.goto t .fault)
      | some bytes =>
          some (s.goto t (.lookup l (.unlock ⟨.found, bytes, some false⟩)))
  | .rdLock loading size =>
      if s.writer = none then
        some ({ s with readers := s.readers + 1 }.goto t
          (.lookup l (l.chunk loading size)))
      else none
  | .loadData loading copySize =>
      some (s.goto t (.lookup l (.copy loading copySize s.heap.data)))
  | .copy loading copySize data =>
      match s.heap.read data l.offset copySize with
      | none => some (s.goto t .fault)
      | some bytes =>
          some (s.goto t
            (.lookup l (.rdUnlock ⟨.newLoaded, bytes, some loading⟩)))
  | .rdUnlock r =>
      some ({ s with readers := s.readers - 1 }.goto t (.lookup l (.unlock r)))
  | .unlock _ => some ({ s with bucket := none }.goto t .idle)

/-- `pthread_rwlock_wrlock`. -/
def wrLock (s : State T) (t : T) (pc : Pc) : Option (State T) :=
  if s.writer = none ∧ s.readers = 0 then
    some ({ s with writer := some t }.goto t pc)
  else none

/-- A step of `cache_append_data`.  A loop that doubles `new_size` for ever
takes no further step. -/
def appendStep (s : State T) (t : T) (chunk : List UInt8) (r : Realloc) :
    AppendPc → Option (State T)
  | .test =>
      some (s.goto t
        (.append chunk r (if s.heap.isLoading then .wrLock else .exit (-1))))
  | .wrLock => wrLock s t (.append chunk r .loadSize)
  | .loadSize =>
      let size := s.heap.dataSize
      let need := sizeAdd size chunk.length
      if need > s.heap.allocatedSize then
        (growSize need 65 s.heap.allocatedSize).map fun newSize =>
          s.goto t (.append chunk r (.grow size newSize))
      else some (s.goto t (.append chunk r (.copy size)))
  | .grow size newSize =>
      match s.heap.realloc r newSize with
      | none => some (s.goto t .fault)
      | some heap =>
          some ({ s with heap := heap }.goto t
            (.append chunk r (if r.ok then .copy size else .wrUnlock (-1))))
  | .copy size =>
      match s.heap.write size chunk with
      | none => some (s.goto t .fault)
      | some heap =>
          some ({ s with heap := heap }.goto t (.append chunk r (.storeSize size)))
  | .storeSize size =>
      some ({ s with heap :=
          { s.heap with dataSize := sizeAdd size chunk.length } }.goto t
        (.append chunk r (.wrUnlock 0)))
  | .wrUnlock code =>
      some ({ s with writer := none }.goto t
        (.append chunk r (if code = 0 then .notify else .exit code)))
  | .notify => some (s.goto t (.append chunk r (.exit 0)))
  | .exit _ => some (s.goto t .idle)

/-- A step of `cache_finish_loading`. -/
def finishStep (s : State T) (t : T) (r : Realloc) :
    FinishPc → Option (State T)
  | .test =>
      some (s.goto t
        (.finish r (if s.heap.isLoading then .wrLock else .exit (-1))))
  | .wrLock => wrLock s t (.finish r .clearFlag)
  | .clearFlag =>
      some ({ s with heap := { s.heap with isLoading := false } }.goto t
        (.finish r .loadSize))
  | .loadSize =>
      let size := s.heap.dataSize
      some (s.goto t (.finish r
        (if s.heap.allocatedSize > size then .shrink size else .wrUnlock)))
  | .shrink size =>
      match s.heap.realloc r size with
      | none => some (s.goto t .fault)
      | some heap => some ({ s with heap := heap }.goto t (.finish r .wrUnlock))
  | .wrUnlock => some ({ s with writer := none }.goto t (.finish r .notify))
  | .notify => some (s.goto t (.finish r (.exit 0)))
  | .exit _ => some (s.goto t .idle)

/-- The next step of thread `t`. -/
def advance (s : State T) (t : T) : Option (State T) :=
  match s.pc t with
  | .idle | .fault => none
  | .lookup l p => lookupStep s t l p
  | .append chunk r p => appendStep s t chunk r p
  | .finish r p => finishStep s t r p
  | .visitLock =>
      if s.bucket = none then
        some ({ s with bucket := some t }.goto t .visitUnlock)
      else none
  | .visitUnlock => some ({ s with bucket := none }.goto t .idle)

/-- One step of the system with the loader `w`. -/
def step (w : T) (s : State T) : Action T → Option (State T)
  | .call t c =>
      if s.pc t = .idle ∧ (c.isLookup = true ∨ t = w) then
        some (s.goto t c.entryPc)
      else none
  | .visit t => if s.pc t = .idle then some (s.goto t .visitLock) else none
  | .advance t => advance s t

/-- The fields of a new entry. -/
def Heap.ofEntry (e : Entry) : Heap where
  isLoading := e.isLoading
  dataSize := e.data.length
  data := 0
  allocatedSize := e.allocatedSize
  blocks := Function.update (fun _ => none) 0 (some ⟨e.data, e.allocatedSize⟩)
  nextBlock := 1

def start (T : Type u) (e : Entry) : State T where
  heap := .ofEntry e
  bucket := none
  writer := none
  readers := 0
  pc := fun _ => .idle

/-- Any number of threads at one entry. -/
def entrySystem (w : T) (e : Entry) :
    TransitionSystem (State T) (Action T) where
  Initial := fun s => s = start T e
  step := step w

/-- The calls and what they return. -/
def observed (s : State T) : Action T → List (CallEvent T Call Reply)
  | .call t c => [.call t c]
  | .visit _ => []
  | .advance t =>
      match s.pc t with
      | .lookup _ (.unlock r) => [.answer t (.looked r)]
      | .append _ _ (.exit code) | .finish _ (.exit code) =>
          [.answer t (.returned code)]
      | _ => []

end SharedEntry
end Proxy
end OsFifthSem
