import OsFifthSem.Proxy.Dispatch.Master

/-!
# The table of backends

One call of `get_backend` after the other, with arbitrary client counts and
arbitrary results of the calls inside `add_backend`.  `get_backend` ignores
what `add_backend` returns, and neither tests whether the table is full.
-/

namespace OsFifthSem
namespace Proxy
namespace Dispatch

open Support

/-- How `add_thread` ends.  The error is `THREADS_REALLOC_ERR`, or the positive
one of `pthread_create`, which is returned unchanged. -/
inductive ThreadResult
  /-- The thread was started, and its slot is returned. -/
  | started (slot : ℕ)
  | failed (err : {err : ℤ // err ≠ 0})
  deriving DecidableEq, Repr

/-- What `add_thread` returns. -/
def ThreadResult.value : ThreadResult → ℤ
  | .started slot => slot
  | .failed err => err

/-- The results of the calls that `add_backend` makes. -/
structure AddCalls where
  createBackend : ℤ
  uvPipeInit : ℤ
  uvPipeOpen : ℤ
  addThread : ThreadResult
  deriving DecidableEq, Repr

/-- All calls return 0. -/
structure AddCalls.Succeed (calls : AddCalls) : Prop where
  createBackend : calls.createBackend = 0
  uvPipeInit : calls.uvPipeInit = 0
  uvPipeOpen : calls.uvPipeOpen = 0
  addThread : calls.addThread.value = 0

/-- What a new connection meets: the `client_count` of each backend as
`get_backend` reads it, and the results of the calls in `add_backend`. -/
structure Connection where
  clientCount : ℕ → ℤ
  calls : AddCalls

/-- The part of `master_t` that `get_backend` works on.  `started` lists the
backends that a thread was started for. -/
structure Table where
  curBackendCount : UInt64
  started : List ℕ
  deriving DecidableEq, Repr

/-- A call of `get_backend`: the index that the returned pointer is computed
from, and all indices into `backends` that the call uses.  It never returns
NULL, since nothing jumps to `mutex_err`. -/
structure Call where
  returned : ℕ
  used : List ℕ
  deriving DecidableEq, Repr

namespace Table

/-- `add_backend`. -/
def addBackend (t : Table) (calls : AddCalls) : ℤ × Table :=
  if calls.createBackend ≠ 0 then (calls.createBackend, t)
  else if calls.uvPipeInit ≠ 0 then (calls.uvPipeInit, t)
  else if calls.uvPipeOpen ≠ 0 then (calls.uvPipeOpen, t)
  else
    let t :=
      match calls.addThread with
      | .started _ => { t with started := t.curBackendCount.toNat :: t.started }
      | .failed _ => t
    -- a thread that was started in another slot than 0 counts as an error
    if calls.addThread.value ≠ 0 then (calls.addThread.value, t)
    else (0, { t with curBackendCount := t.curBackendCount + 1 })

/-- The loop of `get_backend`. -/
def findRoom (t : Table) (clientCount : ℕ → ℤ) : Option ℕ :=
  (List.range t.curBackendCount.toNat).find? fun i =>
    clientCount i < maxBackendConnectionsNum

/-- `get_backend`. -/
def getBackend (t : Table) (c : Connection) : Call × Table :=
  match t.findRoom c.clientCount with
  | some i => (⟨i, List.range (i + 1)⟩, t)
  | none =>
      let t' := (t.addBackend c.calls).2
      let last := (t'.curBackendCount - 1).toNat
      (⟨last, List.range t.curBackendCount.toNat ++
        [t.curBackendCount.toNat, last]⟩, t')

/-- What `get_backend` owes its caller: a backend of the table that was
started and has room, by the count that was read or because it is new, and no
access outside the table. -/
structure Served (t : Table) (c : Connection) : Prop where
  index : (t.getBackend c).1.returned < (t.getBackend c).2.curBackendCount.toNat
  started : (t.getBackend c).1.returned ∈ (t.getBackend c).2.started
  room : ((t.getBackend c).1.returned < t.curBackendCount.toNat ∧
      c.clientCount (t.getBackend c).1.returned < maxBackendConnectionsNum) ∨
    (t.getBackend c).1.returned = t.curBackendCount.toNat
  bound : (t.getBackend c).2.curBackendCount.toNat ≤ maxBackendNum
  used : ∀ i ∈ (t.getBackend c).1.used, i < maxBackendNum

/-- Some backend is read below the limit, or the table is not full and all
calls in `add_backend` return 0. -/
def HasRoom (t : Table) (c : Connection) : Prop :=
  (∃ i < t.curBackendCount.toNat,
    c.clientCount i < maxBackendConnectionsNum) ∨
  (t.curBackendCount.toNat < maxBackendNum ∧ c.calls.Succeed)

/-- A master that has no backend yet. -/
def start : Table := ⟨0, []⟩

/-- The calls of `get_backend`, one for each new connection.  Behind an access
outside the table nothing is defined. -/
def connections : TransitionSystem Table Connection where
  Initial := fun t => t = start
  step := fun t c =>
    if (t.getBackend c).1.used.all (· < maxBackendNum) then
      some (t.getBackend c).2
    else none

/-- The invariant of the calls that are served. -/
structure Bounded (t : Table) : Prop where
  count : t.curBackendCount.toNat ≤ maxBackendNum
  started : ∀ i < t.curBackendCount.toNat, i ∈ t.started

variable {t t' : Table} {c : Connection}

theorem findRoom_eq_some
    {clientCount : ℕ → ℤ} {i : ℕ} (h : t.findRoom clientCount = some i) :
    i < t.curBackendCount.toNat ∧ clientCount i < maxBackendConnectionsNum := by
  have hmem := List.mem_of_find?_eq_some h
  have htest := List.find?_some h
  exact ⟨List.mem_range.mp hmem, by simpa using htest⟩

theorem findRoom_eq_none
    {clientCount : ℕ → ℤ} (h : t.findRoom clientCount = none) {i : ℕ}
    (hi : i < t.curBackendCount.toNat) :
    ¬clientCount i < maxBackendConnectionsNum := by
  have hnone := List.find?_eq_none.mp h i (List.mem_range.mpr hi)
  simpa using hnone

/-- `add_backend` counts the backend exactly when all calls return 0, and then
it has started it. -/
theorem addBackend_cases (t : Table) (calls : AddCalls) :
    (calls.Succeed ∧ (t.addBackend calls).2 =
      ⟨t.curBackendCount + 1, t.curBackendCount.toNat :: t.started⟩) ∨
    (¬calls.Succeed ∧
      (t.addBackend calls).2.curBackendCount = t.curBackendCount ∧
      ∀ i ∈ t.started, i ∈ (t.addBackend calls).2.started) := by
  unfold addBackend
  split_ifs with hcreate hinit hopen hthread
  · exact .inr ⟨fun h => hcreate h.createBackend, rfl, fun _ hi => hi⟩
  · exact .inr ⟨fun h => hinit h.uvPipeInit, rfl, fun _ hi => hi⟩
  · exact .inr ⟨fun h => hopen h.uvPipeOpen, rfl, fun _ hi => hi⟩
  · refine .inr ⟨fun h => hthread h.addThread, ?_⟩
    cases calls.addThread with
    | started slot => exact ⟨rfl, fun _ hi => List.mem_cons_of_mem _ hi⟩
    | failed err => exact ⟨rfl, fun _ hi => hi⟩
  · rw [not_not] at hcreate hinit hopen hthread
    refine .inl ⟨⟨hcreate, hinit, hopen, hthread⟩, ?_⟩
    cases hcall : calls.addThread with
    | started slot => rfl
    | failed err =>
        rw [hcall] at hthread
        exact absurd hthread err.property

/-- `get_backend` finds a backend with room, or adds one, or returns the last
one after `add_backend` has failed. -/
theorem getBackend_cases (t : Table) (c : Connection) :
    (∃ i < t.curBackendCount.toNat,
      c.clientCount i < maxBackendConnectionsNum ∧
      t.getBackend c = (⟨i, List.range (i + 1)⟩, t)) ∨
    (¬∃ i < t.curBackendCount.toNat,
      c.clientCount i < maxBackendConnectionsNum) ∧
      ((c.calls.Succeed ∧
        t.getBackend c =
          (⟨t.curBackendCount.toNat, List.range t.curBackendCount.toNat ++
            [t.curBackendCount.toNat, t.curBackendCount.toNat]⟩,
            ⟨t.curBackendCount + 1, t.curBackendCount.toNat :: t.started⟩)) ∨
      (¬c.calls.Succeed ∧
        (t.getBackend c).1.returned = (t.curBackendCount - 1).toNat ∧
        (t.getBackend c).2.curBackendCount = t.curBackendCount ∧
        ∀ i ∈ t.started, i ∈ (t.getBackend c).2.started)) := by
  unfold getBackend
  cases hfind : t.findRoom c.clientCount with
  | some i =>
      obtain ⟨hi, hroom⟩ := findRoom_eq_some hfind
      exact .inl ⟨i, hi, hroom, rfl⟩
  | none =>
      refine .inr ⟨fun ⟨i, hi, hroom⟩ => findRoom_eq_none hfind hi hroom, ?_⟩
      rcases t.addBackend_cases c.calls with
        ⟨hok, hadded⟩ | ⟨hfail, hcount, hkept⟩
      · refine .inl ⟨hok, ?_⟩
        have hlast : t.curBackendCount + 1 - 1 = t.curBackendCount := by grind
        simp only [hadded, hlast]
      · refine .inr ⟨hfail, ?_, hcount, hkept⟩
        simp only [hcount]

theorem Bounded.served_iff (ht : t.Bounded) : t.Served c ↔ t.HasRoom c := by
  rcases t.getBackend_cases c with
    ⟨i, hi, hroom, hcall⟩ | ⟨hfull, ⟨hok, hcall⟩ | ⟨hfail, hlast, hcount, -⟩⟩
  · refine iff_of_true ?_ (.inl ⟨i, hi, hroom⟩)
    have hle := ht.count
    constructor <;> simp only [hcall]
    · exact hi
    · exact ht.started i hi
    · exact .inl ⟨hi, hroom⟩
    · exact hle
    · intro j hj
      have hlt := List.mem_range.mp hj
      omega
  · constructor
    · intro hs
      have hlt := hs.used t.curBackendCount.toNat (by simp [hcall])
      exact .inr ⟨hlt, hok⟩
    · rintro (hroom | ⟨hlt, -⟩)
      · exact absurd hroom hfull
      have hsucc : (t.curBackendCount + 1).toNat =
          t.curBackendCount.toNat + 1 := by
        unfold maxBackendNum at hlt
        rw [UInt64.toNat_add]
        exact Nat.mod_eq_of_lt (by simp; omega)
      constructor <;> simp only [hcall]
      · omega
      · exact List.mem_cons_self ..
      · exact .inr trivial
      · omega
      · intro i hi
        rcases List.mem_append.mp hi with hi | hi
        · have hlt' := List.mem_range.mp hi
          omega
        · simp only [List.mem_cons, List.not_mem_nil, or_false, or_self] at hi
          omega
  · -- the last backend is full, or there is none
    refine iff_of_false (fun hs => ?_) ?_
    · have hindex := hs.index
      have hroom := hs.room
      rw [hlast] at hindex hroom
      rw [hcount] at hindex
      rcases hroom with ⟨hlt, hroom⟩ | heq
      · exact hfull ⟨_, hlt, hroom⟩
      · omega
    · rintro (hroom | ⟨-, hok⟩)
      · exact hfull hroom
      · exact hfail hok

theorem Bounded.step
    (ht : t.Bounded) (hc : t.HasRoom c)
    (h : connections.step t c = some t') : t'.Bounded := by
  obtain ⟨-, h⟩ := Option.ite_none_right_eq_some.mp h
  obtain rfl := Option.some.inj h
  have hs := ht.served_iff.mpr hc
  refine ⟨hs.bound, ?_⟩
  rcases t.getBackend_cases c with
    ⟨i, -, -, hcall⟩ | ⟨-, ⟨-, hcall⟩ | ⟨-, -, hcount, hkept⟩⟩
  · rw [hcall]
    exact ht.started
  · rw [hcall]
    intro i hi
    have hle : (t.curBackendCount + 1).toNat ≤ t.curBackendCount.toNat + 1 := by
      rw [UInt64.toNat_add]
      exact Nat.mod_le _ _
    rcases Nat.lt_or_eq_of_le (Nat.lt_succ_iff.mp (hi.trans_le hle)) with
      hlt | rfl
    · exact List.mem_cons_of_mem _ (ht.started i hlt)
    · exact List.mem_cons_self ..
  · rw [hcount]
    exact fun i hi => hkept i (ht.started i hi)

/-- For every sequence of new connections: every call of `get_backend` is as it
should be if and only if every call finds room. -/
theorem served_iff_hasRoom (cs : List Connection) :
    connections.RunAllowed Served start cs ↔
      connections.RunAllowed HasRoom start cs :=
  TransitionSystem.runAllowed_congr (I := Bounded)
    (fun _ _ ht => ht.served_iff) (fun _ _ _ ht => ht.step)
    ⟨by decide, by simp [start]⟩

/-- Every backend is full, and every call in `add_backend` succeeds. -/
def fullConnection : Connection := ⟨fun _ => 10, ⟨0, 0, 0, .started 0⟩⟩

/-- The eleventh connection is given a backend behind the table. -/
theorem fullConnection_not_served :
    ∃ t, connections.run start (List.replicate 10 fullConnection) = some t ∧
      t.curBackendCount = 10 ∧ ¬t.Served fullConnection := by
  refine ⟨_, rfl, by decide, fun h => ?_⟩
  exact absurd (h.used 10 (by decide)) (by decide)

end Table

end Dispatch
end Proxy
end OsFifthSem
