import OsFifthSem.Proxy.Cache.Growth
import OsFifthSem.Proxy.Cache.SharedEntry.Model
import OsFifthSem.Support.MutexOwner

/-!
# The atomic entry and what the threads know of it

The atomic entry performs `readEntry`, `Entry.appendData` and
`Entry.finishLoading` at one moment each.  `Refines` compares it with the
entry that is accessed step by step: what the loader has written already, and
what a lookup has seen and will return.
-/

namespace OsFifthSem
namespace Proxy
namespace SharedEntry

open Support

universe u

/-- The calls at one moment each.  The time of the last access is left alone,
since no call at the entry reads it. -/
def entryObject (T : Type u) (e : Entry) : AtomicObject T Call Reply Entry where
  initial := e
  apply := fun e _ c =>
    match c with
    | .lookupPartial l =>
        some (.looked (readEntry e.isLoading e.data l.offset l.maxSize), e)
    | .appendData chunk r =>
        if e.isLoading then
          (e.appendData chunk e.lastAccessed r.ok).map fun p =>
            (.returned p.1, p.2)
        else some (.returned (-1), e)
    | .finishLoading r =>
        if e.isLoading then
          (e.finishLoading e.lastAccessed r.ok).map fun e' => (.returned 0, e')
        else some (.returned (-1), e)

/-! ## The results of a lookup -/

/-- The result of a lookup that goes on under `data_lock`. -/
def Lookup.chunkResult (l : Lookup) (loading : Bool) (size : ℕ)
    (bytes : List UInt8) : LookupResult :=
  if l.copySize size > 0 then
    ⟨.newLoaded, (bytes.drop l.offset).take (l.copySize size), some loading⟩
  else ⟨.done, [], some loading⟩

theorem Lookup.copySize_le
    (l : Lookup) {size : ℕ} (h : l.offset ≤ size) :
    l.offset + l.copySize size ≤ size := by
  unfold Lookup.copySize
  dsimp only
  split
  · rename_i hmax
    simp only [Bool.and_eq_true, decide_eq_true_eq] at hmax
    omega
  · omega

/-- The three ways on after the load of the size. -/
theorem Lookup.branch_cases (l : Lookup) (loading : Bool) (bytes : List UInt8) :
    (l.branch loading bytes.length = .foundLoadData bytes.length ∧
      loading = false ∧ l.maxSize = 0 ∧
      readEntry loading bytes l.offset l.maxSize =
        ⟨.found, bytes, some false⟩) ∨
    (l.branch loading bytes.length =
      .unlock (readEntry loading bytes l.offset l.maxSize)) ∨
    (l.branch loading bytes.length = .rdLock loading bytes.length ∧
      l.offset ≤ bytes.length ∧
      readEntry loading bytes l.offset l.maxSize =
        l.chunkResult loading bytes.length bytes) := by
  unfold Lookup.branch readEntry
  split
  · rename_i hfound
    simp only [Bool.and_eq_true, Bool.not_eq_true', beq_iff_eq] at hfound
    refine Or.inl ⟨rfl, hfound.1, hfound.2, ?_⟩
    rw [hfound.1]
  · split
    · exact Or.inr (Or.inl rfl)
    · split
      · exact Or.inr (Or.inl rfl)
      · exact Or.inr (Or.inr ⟨rfl, by omega, rfl⟩)

/-- A slice of the bytes stays what it is when more bytes follow. -/
theorem slice_append
    {bytes : List UInt8} (more : List UInt8) {offset n : ℕ}
    (h : offset + n ≤ bytes.length) :
    ((bytes ++ more).drop offset).take n = (bytes.drop offset).take n := by
  rw [List.drop_append_of_le_length (by omega),
    List.take_append_of_le_length (by rw [List.length_drop]; omega)]

theorem Lookup.chunkResult_append
    (l : Lookup) (loading : Bool) {size : ℕ} {bytes : List UInt8}
    (more : List UInt8) (hoffset : l.offset ≤ size)
    (hsize : size ≤ bytes.length) :
    l.chunkResult loading size (bytes ++ more) =
      l.chunkResult loading size bytes := by
  have hle := l.copySize_le hoffset
  rw [Lookup.chunkResult, Lookup.chunkResult, slice_append more (by omega)]

/-! ## What the threads know -/

/-- The block has the size with which `cache_append_data` copies. -/
def Grown (e : Entry) (chunk : List UInt8) (r : Realloc) (size : ℕ) : Prop :=
  (sizeAdd e.data.length chunk.length ≤ e.allocatedSize ∧
    size = e.allocatedSize) ∨
  (e.allocatedSize < sizeAdd e.data.length chunk.length ∧
    growSize (sizeAdd e.data.length chunk.length) 65 e.allocatedSize =
      some size ∧ r.ok = true)

/-- What a lookup knows of the entry `e`, whose block is at `data`, and where
its atomic call stands.  A lookup that has found the flag set has taken effect
before the flag is cleared. -/
def LookupPc.Stands (l : Lookup) (e : Entry) (data : ℕ) (quiet : Prop)
    (ph : CallPhase Call Reply) : LookupPc → Prop
  | .lock | .loadFlag => ph = .called (.lookupPartial l)
  | .loadSize true =>
      ph = if e.isLoading then .called (.lookupPartial l)
        else .answered (.looked (readEntry true e.data l.offset l.maxSize))
  | .loadSize false =>
      ph = .called (.lookupPartial l) ∧ e.isLoading = false ∧
        (l.maxSize = 0 → quiet)
  | .foundLoadData size =>
      ph = .answered (.looked ⟨.found, e.data, some false⟩) ∧
        size = e.data.length ∧ e.isLoading = false ∧ quiet
  | .foundCopy size block =>
      ph = .answered (.looked ⟨.found, e.data, some false⟩) ∧
        size = e.data.length ∧ e.isLoading = false ∧ quiet ∧ block = data
  | .rdLock loading size =>
      ph = .answered (.looked (l.chunkResult loading size e.data)) ∧
        l.offset ≤ size ∧ size ≤ e.data.length
  | .loadData loading n =>
      ph = .answered (.looked
          ⟨.newLoaded, (e.data.drop l.offset).take n, some loading⟩) ∧
        l.offset + n ≤ e.data.length
  | .copy loading n block =>
      ph = .answered (.looked
          ⟨.newLoaded, (e.data.drop l.offset).take n, some loading⟩) ∧
        l.offset + n ≤ e.data.length ∧ block = data
  | .rdUnlock r | .unlock r => ph = .answered (.looked r)

/-- What the loader knows while it appends. -/
def AppendPc.Stands (chunk : List UInt8) (r : Realloc) (e : Entry)
    (allocated : ℕ) (ph : CallPhase Call Reply) : AppendPc → Prop
  | .test =>
      ph = .called (.appendData chunk r) ∧
        e.data.length + chunk.length ≤ 2 ^ 63
  | .wrLock | .loadSize =>
      ph = .called (.appendData chunk r) ∧
        e.data.length + chunk.length ≤ 2 ^ 63 ∧ e.isLoading = true
  | .grow size newSize =>
      ph = .called (.appendData chunk r) ∧
        e.data.length + chunk.length ≤ 2 ^ 63 ∧ e.isLoading = true ∧
        size = e.data.length ∧
        e.allocatedSize < sizeAdd e.data.length chunk.length ∧
        growSize (sizeAdd e.data.length chunk.length) 65 e.allocatedSize =
          some newSize
  | .copy size | .storeSize size =>
      ph = .called (.appendData chunk r) ∧
        e.data.length + chunk.length ≤ 2 ^ 63 ∧ e.isLoading = true ∧
        size = e.data.length ∧ Grown e chunk r allocated
  | .wrUnlock code | .exit code => ph = .answered (.returned code)
  | .notify => ph = .answered (.returned 0)

/-- What the loader knows while it finishes the entry. -/
def FinishPc.Stands (r : Realloc) (e : Entry) (ph : CallPhase Call Reply) :
    FinishPc → Prop
  | .test => ph = .called (.finishLoading r)
  | .wrLock | .clearFlag =>
      ph = .called (.finishLoading r) ∧ e.isLoading = true
  | .loadSize => ph = .answered (.returned 0) ∧ e.isLoading = false
  | .shrink size =>
      ph = .answered (.returned 0) ∧ e.isLoading = false ∧
        size = e.data.length
  | .wrUnlock | .notify => ph = .answered (.returned 0)
  | .exit code => ph = .answered (.returned code)

/-- What a thread knows, and where its atomic call stands.  No thread has
accessed memory that it may not access. -/
def Pc.Stands (e : Entry) (h : Heap) (quiet : Prop)
    (ph : CallPhase Call Reply) : Pc → Prop
  | .idle | .visitLock | .visitUnlock => ph = .idle
  | .lookup l p => p.Stands l e h.data quiet ph
  | .append chunk r p => p.Stands chunk r e h.allocatedSize ph
  | .finish r p => p.Stands r e ph
  | .fault => False

/-! ## Who holds which lock -/

def Pc.ownsBucket : Pc → Bool
  | .lookup _ .lock => false
  | .lookup _ _ | .visitUnlock => true
  | _ => false

/-- The thread holds `data_lock` for writing. -/
def Pc.ownsData : Pc → Bool
  | .append _ _ .test | .append _ _ .wrLock | .append _ _ .notify
  | .append _ _ (.exit _) => false
  | .append _ _ _ => true
  | .finish _ .test | .finish _ .wrLock | .finish _ .notify
  | .finish _ (.exit _) => false
  | .finish _ _ => true
  | _ => false

/-- The thread holds `data_lock` for reading. -/
def Pc.reads : Pc → Bool
  | .lookup _ (.loadData _ _) | .lookup _ (.copy _ _ _)
  | .lookup _ (.rdUnlock _) => true
  | _ => false

/-- The thread is in a call of the loader. -/
def Pc.writes : Pc → Bool
  | .append _ _ _ | .finish _ _ => true
  | _ => false

/-- The bytes that are copied but not counted yet. -/
def Pc.pending : Pc → List UInt8
  | .append chunk _ (.storeSize _) => chunk
  | _ => []

/-- The block may have grown already. -/
def Pc.grown : Pc → Bool
  | .append _ _ (.copy _) | .append _ _ (.storeSize _) => true
  | _ => false

/-- The block is still there, also of an empty response. -/
def Pc.shrinks : Pc → Bool
  | .finish _ .loadSize | .finish _ (.shrink _) => true
  | _ => false

/-- The block of an entry that is loading is there, and it has only been
doubled. -/
def Growable (e : Entry) : Prop :=
  e.dataLive = true ∧
    ∃ k, e.allocatedSize = 4096 * 2 ^ k ∧ e.allocatedSize < sizeRange

/-- The memory holds the entry `e`, while the loader is at `pc`. -/
structure Heap.Agrees (h : Heap) (e : Entry) (pc : Pc) : Prop where
  isLoading : h.isLoading = e.isLoading
  dataSize : h.dataSize = e.data.length
  growable : e.isLoading = true → Growable e
  allocated : e.isLoading = true → pc.grown = false →
    h.allocatedSize = e.allocatedSize
  block : e.isLoading = true ∨ e.data ≠ [] ∨ pc.shrinks = true →
    h.blocks h.data = some ⟨e.data ++ pc.pending, h.allocatedSize⟩
  fresh : ∀ a, h.nextBlock ≤ a → h.blocks a = none

variable {T : Type u}

/-- The number of threads that read under `data_lock`. -/
def readersOf (bucket : Option T) (pc : T → Pc) : ℕ :=
  bucket.elim 0 fun t => if (pc t).reads then 1 else 0

/-- The entry that is accessed step by step stands for the atomic one. -/
structure Refines (w : T) (s : State T)
    (u : AtomicState T Call Reply Entry) : Prop where
  bucket : Owned Pc.ownsBucket s.bucket s.pc
  writer : Owned Pc.ownsData s.writer s.pc
  readers : s.readers = readersOf s.bucket s.pc
  apart : s.writer = none ∨ s.readers = 0
  loader : ∀ t, (s.pc t).writes = true → t = w
  heap : s.heap.Agrees u.value (s.pc w)
  stands : ∀ t, (s.pc t).Stands u.value s.heap (s.writer = none) (u.phase t)

variable {w t : T} {s s' : State T} {u u' : AtomicState T Call Reply Entry}
  {pc p : Pc} {e e' : Entry} {h h' : Heap} {quiet quiet' : Prop}
  {ph : CallPhase Call Reply} {l : Lookup} {chunk : List UInt8} {r : Realloc}

/-! ## Threads that do not write -/

section NotWriting

variable (hpc : pc.writes = false)
include hpc

theorem Pc.ownsData_of_not_writes : pc.ownsData = false := by
  unfold Pc.ownsData
  split <;> simp_all [Pc.writes]

theorem Pc.pending_of_not_writes : pc.pending = [] := by
  unfold Pc.pending
  split <;> simp_all [Pc.writes]

theorem Pc.grown_of_not_writes : pc.grown = false := by
  unfold Pc.grown
  split <;> simp_all [Pc.writes]

theorem Pc.shrinks_of_not_writes : pc.shrinks = false := by
  unfold Pc.shrinks
  split <;> simp_all [Pc.writes]

/-- What a lookup knows stays true while the loader appends to the entry or
moves its block. -/
theorem Pc.Stands.frame
    (more : List UInt8) (hs : pc.Stands e h quiet ph)
    (hload : e'.isLoading = e.isLoading) (hdata : e'.data = e.data ++ more)
    (hdone : e.isLoading = false →
      more = [] ∧ (quiet → quiet' ∧ h'.data = h.data))
    (hreads : pc.reads = true → h'.data = h.data) :
    pc.Stands e' h' quiet' ph := by
  cases pc with
  | append | finish => cases hpc
  | idle | visitLock | visitUnlock | fault => exact hs
  | lookup l p =>
      cases p with
      | lock | loadFlag | rdUnlock | unlock => exact hs
      | loadSize loading =>
          cases loading with
          | true =>
              change ph = if e'.isLoading then _ else _
              change ph = if e.isLoading then _ else _ at hs
              rw [hload, hdata]
              cases hl : e.isLoading with
              | true => rwa [hl] at hs
              | false =>
                  rw [(hdone hl).1, List.append_nil]
                  rwa [hl] at hs
          | false =>
              obtain ⟨hph, hl, hq⟩ := hs
              exact ⟨hph, hload.trans hl, fun hmax =>
                ((hdone hl).2 (hq hmax)).1⟩
      | foundLoadData size =>
          obtain ⟨hph, hsize, hl, hq⟩ := hs
          obtain ⟨rfl, hkeep⟩ := hdone hl
          rw [List.append_nil] at hdata
          exact ⟨hdata ▸ hph, hdata ▸ hsize, hload.trans hl, (hkeep hq).1⟩
      | foundCopy size block =>
          obtain ⟨hph, hsize, hl, hq, hblock⟩ := hs
          obtain ⟨rfl, hkeep⟩ := hdone hl
          rw [List.append_nil] at hdata
          exact ⟨hdata ▸ hph, hdata ▸ hsize, hload.trans hl, (hkeep hq).1,
            hblock.trans (hkeep hq).2.symm⟩
      | rdLock loading size =>
          obtain ⟨hph, hoffset, hsize⟩ := hs
          refine ⟨?_, hoffset, ?_⟩
          · rw [hdata, l.chunkResult_append loading more hoffset hsize]
            exact hph
          · rw [hdata, List.length_append]
            omega
      | loadData loading n =>
          obtain ⟨hph, hle⟩ := hs
          refine ⟨?_, ?_⟩
          · rw [hdata, slice_append more hle]
            exact hph
          · rw [hdata, List.length_append]
            omega
      | copy loading n block =>
          obtain ⟨hph, hle, hblock⟩ := hs
          refine ⟨?_, ?_, hblock.trans (hreads rfl).symm⟩
          · rw [hdata, slice_append more hle]
            exact hph
          · rw [hdata, List.length_append]
            omega

/-- All threads that do not write see the same of the memory. -/
theorem Heap.Agrees.congr_pc
    (ha : h.Agrees e p) (hp : p.writes = false) : h.Agrees e pc where
  isLoading := ha.isLoading
  dataSize := ha.dataSize
  growable := ha.growable
  allocated := fun hl _ => ha.allocated hl (Pc.grown_of_not_writes hp)
  block := fun hb => by
    rw [Pc.shrinks_of_not_writes hpc] at hb
    have hblock := ha.block (by
      rw [Pc.shrinks_of_not_writes hp]
      exact hb)
    rw [Pc.pending_of_not_writes hp] at hblock
    rw [Pc.pending_of_not_writes hpc]
    exact hblock
  fresh := ha.fresh

end NotWriting

namespace Refines

theorem stands_at (href : Refines w s u) (hpc : s.pc t = p) :
    p.Stands u.value s.heap (s.writer = none) (u.phase t) :=
  hpc ▸ href.stands t

/-- The mutex of the bucket lets one lookup read at a time. -/
theorem readers_of_reads (href : Refines w s u) (ht : (s.pc t).reads = true)
    (howns : (s.pc t).ownsBucket = true) :
    s.bucket = some t ∧ s.readers = 1 ∧ s.writer = none := by
  have howner := (href.bucket t).mp howns
  have hreaders : s.readers = 1 := by
    rw [href.readers, howner, readersOf, Option.elim_some, if_pos ht]
  refine ⟨howner, hreaders, ?_⟩
  rcases href.apart with hfree | hnone
  · exact hfree
  · omega

end Refines

theorem Pc.ownsBucket_of_reads (hpc : pc.reads = true) :
    pc.ownsBucket = true := by
  unfold Pc.reads at hpc
  split at hpc <;> simp_all [Pc.ownsBucket]

namespace Refines

/-- While the loader holds `data_lock`, nobody reads. -/
theorem not_reads (href : Refines w s u) (hheld : s.writer ≠ none) (t : T) :
    (s.pc t).reads = false := by
  by_contra hreads
  rw [Bool.not_eq_false] at hreads
  exact hheld (href.readers_of_reads hreads
    (Pc.ownsBucket_of_reads hreads)).2.2

variable [DecidableEq T]

/-- A step of a thread that does not write. -/
theorem goto_reader
    {bucket : Option T} {readers : ℕ} (href : Refines w s u)
    (hold : (s.pc t).writes = false) (hnew : pc.writes = false)
    (hbucket : Owned Pc.ownsBucket bucket (Function.update s.pc t pc))
    (hreaders : readers = readersOf bucket (Function.update s.pc t pc))
    (hapart : s.writer = none ∨ readers = 0)
    (hvalue : u'.value = u.value)
    (hphase : u'.phase = Function.update u.phase t ph)
    (hstands : pc.Stands u.value s.heap (s.writer = none) ph) :
    Refines w ({ s with bucket := bucket, readers := readers }.goto t pc) u' where
  bucket := hbucket
  writer := href.writer.keep (by
    rw [Pc.ownsData_of_not_writes hold, Pc.ownsData_of_not_writes hnew])
  readers := hreaders
  apart := hapart
  loader := fun x hx => by
    by_cases hxt : x = t
    · subst hxt
      simp [State.goto, hnew] at hx
    · exact href.loader x (by simpa [State.goto, hxt] using hx)
  heap := by
    rw [hvalue]
    by_cases hw : w = t
    · subst hw
      simpa [State.goto] using href.heap.congr_pc hnew hold
    · simpa [State.goto, hw] using href.heap
  stands := fun x => by
    rw [hvalue, hphase]
    by_cases hx : x = t
    · subst hx
      simpa [State.goto] using hstands
    · simpa [State.goto, hx] using href.stands x

/-- A step of the loader. -/
theorem goto_loader
    {heap : Heap} {writer : Option T} (href : Refines w s u)
    (hold : (s.pc w).ownsBucket = false) (hnew : pc.ownsBucket = false)
    (hwriter : Owned Pc.ownsData writer (Function.update s.pc w pc))
    (hapart : writer = none ∨ s.readers = 0)
    (hheap : heap.Agrees u'.value pc)
    (hself : pc.Stands u'.value heap (writer = none) (u'.phase w))
    (hothers : ∀ x, x ≠ w →
      (s.pc x).Stands u'.value heap (writer = none) (u'.phase x)) :
    Refines w ({ s with heap := heap, writer := writer }.goto w pc) u' where
  bucket := href.bucket.keep (hnew.trans hold.symm)
  writer := hwriter
  readers := by
    change s.readers = readersOf s.bucket (Function.update s.pc w pc)
    rw [href.readers, readersOf, readersOf]
    cases hb : s.bucket with
    | none => rfl
    | some x =>
        have hx : x ≠ w := by
          rintro rfl
          have howns := (href.bucket x).mpr hb
          rw [hold] at howns
          cases howns
        simp [hx]
  apart := hapart
  loader := fun x hx => by
    by_cases hxw : x = w
    · exact hxw
    · exact href.loader x (by simpa [State.goto, hxw] using hx)
  heap := by simpa [State.goto] using hheap
  stands := fun x => by
    by_cases hx : x = w
    · subst hx
      simpa [State.goto] using hself
    · simpa [State.goto, hx] using hothers x hx

end Refines

end SharedEntry
end Proxy
end OsFifthSem
