import OsFifthSem.Support.LinkedQueue

/-!
# The bounded queue of `sync`

`2.2f.c` and `2.2g.c` protect the same `queue_t` in different ways.  The code
between lock and unlock is the same in both files, and each part of it is a
function here: the attempt with its assertion, the change of the linked list,
and the counters.  A null pointer that is dereferenced gives no result.

`added` and `got` are history variables: the values put into the list and
taken from it so far, in the order of the critical sections.
-/

namespace OsFifthSem
namespace BoundedQueue

open Support

/-- `qnode_t`. -/
structure QNode where
  val : ℤ
  next : Option ℕ
  deriving DecidableEq, Repr

/-- `queue_t` with the heap of its nodes. -/
structure Queue where
  nodes : ℕ → Option QNode
  allocated : ℕ
  first : Option ℕ
  last : Option ℕ
  count : ℤ
  maxCount : ℤ
  addAttempts : ℤ
  getAttempts : ℤ
  addCount : ℤ
  getCount : ℤ
  added : List ℤ
  got : List ℤ

/-- The fields that `queue_init` sets. -/
def queueInit (maxCount : ℤ) : Queue where
  nodes := fun _ => none
  allocated := 0
  first := none
  last := none
  count := 0
  maxCount := maxCount
  addAttempts := 0
  getAttempts := 0
  addCount := 0
  getCount := 0
  added := []
  got := []

namespace Queue

/-- `add_attempts++; assert(count <= max_count);`: no result when the
assertion fails. -/
def addAttempt (q : Queue) : Option Queue :=
  if q.count ≤ q.maxCount then some { q with addAttempts := q.addAttempts + 1 }
  else none

/-- `get_attempts++; assert(count >= 0);`. -/
def getAttempt (q : Queue) : Option Queue :=
  if q.count ≥ 0 then some { q with getAttempts := q.getAttempts + 1 }
  else none

/-- `queue_add`: allocate the new node and link it behind the last one.  A
failed `malloc` ends the process. -/
def addLink (q : Queue) (val : ℤ) : Option Queue :=
  let new := q.allocated
  let nodes := Function.update q.nodes new (some ⟨val, none⟩)
  match q.first with
  | none =>
      some { q with
        nodes := nodes
        allocated := new + 1
        first := some new
        last := some new
        added := q.added ++ [val] }
  | some _ =>
      -- `q->last->next = new; q->last = q->last->next;`
      q.last.bind fun a => (nodes a).map fun n =>
        { q with
          nodes := Function.update nodes a (some { n with next := some new })
          allocated := new + 1
          last := some new
          added := q.added ++ [val] }

/-- `queue_get`: read the first node, unlink it and free it. -/
def getUnlink (q : Queue) : Option Queue :=
  q.first.bind fun tmp => (q.nodes tmp).map fun n =>
    { q with
      nodes := Function.update q.nodes tmp none
      first := n.next
      last := if n.next = none then none else q.last
      got := q.got ++ [n.val] }

/-- `count++; add_count++;`. -/
def countAdd (q : Queue) : Queue :=
  { q with count := q.count + 1, addCount := q.addCount + 1 }

/-- `count--; get_count++;`. -/
def countGet (q : Queue) : Queue :=
  { q with count := q.count - 1, getCount := q.getCount + 1 }

theorem first_ne_none_of_getUnlink
    {q q' : Queue} (h : q.getUnlink = some q') : q.first ≠ none := by
  intro hfirst
  simp [getUnlink, hfirst] at h

/-! ## What the list holds -/

/-- The nodes from `first` on are `xs` and hold the values `vals`, `last` is
the final node, and every value added is either returned already or still in
the list, in order. -/
structure Lists (q : Queue) (xs : List ℕ) (vals : List ℤ) : Prop where
  cells : LinkedQueue.Lists QNode.next QNode.val q.nodes q.first q.last xs vals
  fresh : ∀ a, q.allocated ≤ a → q.nodes a = none
  history : q.added = q.got ++ vals

variable {q q' : Queue} {xs : List ℕ} {vals : List ℤ}

theorem lists_queueInit (maxCount : ℤ) :
    (queueInit maxCount).Lists [] [] where
  cells := .nil
  fresh := fun _ _ => rfl
  history := rfl

theorem Lists.length_eq (hl : q.Lists xs vals) : xs.length = vals.length :=
  hl.cells.length_eq

/-- The counters are consistent and `count` is within its bounds. -/
structure Counts (q : Queue) (m : ℤ) : Prop where
  maxCount : q.maxCount = m
  nonneg : 0 ≤ q.count
  le_max : q.count ≤ m
  difference : q.addCount - q.getCount = q.count

/-- The two queues agree on these counters. -/
structure SameCounters (q q' : Queue) : Prop where
  count : q'.count = q.count
  maxCount : q'.maxCount = q.maxCount
  addCount : q'.addCount = q.addCount
  getCount : q'.getCount = q.getCount

theorem Counts.congr {m : ℤ} (hc : q.Counts m) (hs : SameCounters q q') :
    q'.Counts m where
  maxCount := hs.maxCount.trans hc.maxCount
  nonneg := hs.count ▸ hc.nonneg
  le_max := hs.count ▸ hc.le_max
  difference := by
    rw [hs.addCount, hs.getCount, hs.count]
    exact hc.difference

/-- `queue_add` puts the value at the end of the list. -/
theorem Lists.addLink (hl : q.Lists xs vals) (val : ℤ) :
    ∃ q', q.addLink val = some q' ∧ SameCounters q q' ∧
      q'.Lists (xs ++ [q.allocated]) (vals ++ [val]) := by
  obtain ⟨hcells, hfresh, hhistory⟩ := hl
  cases hfirst : q.first with
  | none =>
      rw [hfirst] at hcells
      obtain ⟨rfl, rfl⟩ := hcells.eq_nil_of_first
      refine ⟨_, by simp only [Queue.addLink, hfirst]; rfl, ?_, ?_⟩
      · exact ⟨rfl, rfl, rfl, rfl⟩
      constructor
      · exact .singleton (Function.update_self ..) rfl
      · exact LinkedQueue.fresh_update hfresh _
      · simp [hhistory]
  | some b =>
      obtain ⟨a, hlast⟩ : ∃ a, q.last = some a := by
        cases hlast : q.last with
        | none =>
            rw [hlast] at hcells
            have hnone := hcells.eq_nil_of_last.1
            rw [hfirst] at hnone
            cases hnone
        | some a => exact ⟨a, rfl⟩
      rw [hlast] at hcells
      obtain ⟨n, hcell, hcells', hfresh'⟩ := hcells.snoc_fresh
        (m := ⟨val, none⟩) (fun n => { n with next := some q.allocated })
        hfresh (fun _ => rfl) (fun _ => rfl) rfl
      refine ⟨_, by simp only [Queue.addLink, hfirst, hlast, Option.bind_some,
        hcell, Option.map_some]; rfl, ?_, ?_⟩
      · exact ⟨rfl, rfl, rfl, rfl⟩
      constructor
      · rw [hfirst] at hcells'
        exact hcells'
      · exact hfresh'
      · simp [hhistory]

/-- `queue_get` takes the first value of a list that is not empty. -/
theorem Lists.getUnlink {a : ℕ} {val : ℤ}
    (hl : q.Lists (a :: xs) (val :: vals)) :
    ∃ q', q.getUnlink = some q' ∧ SameCounters q q' ∧ q'.Lists xs vals := by
  obtain ⟨hcells, hfresh, hhistory⟩ := hl
  have hfirst : q.first = some a := hcells.chain.head_eq
  rw [hfirst] at hcells
  obtain ⟨n, hcell, hval, htail⟩ := hcells.tail
  refine ⟨_,
    by simp only [Queue.getUnlink, hfirst, Option.bind_some, hcell]; rfl,
    ?_, ?_⟩
  · exact ⟨rfl, rfl, rfl, rfl⟩
  constructor
  · exact htail
  · exact LinkedQueue.fresh_free hfresh a
  · simp [hhistory, hval]

end Queue

/-! ## The two operations -/

/-- The parts of `queue_add` and `queue_get` between lock and unlock. -/
structure Operation where
  /-- The attempt with its assertion. -/
  attempt : Queue → Option Queue
  /-- The change of the list. -/
  link : Queue → Option Queue
  /-- The counters. -/
  count : Queue → Queue

/-- `queue_add`. -/
def queueAdd (val : ℤ) : Operation where
  attempt := Queue.addAttempt
  link := fun q => q.addLink val
  count := Queue.countAdd

/-- `queue_get`. -/
def queueGet : Operation where
  attempt := Queue.getAttempt
  link := Queue.getUnlink
  count := Queue.countGet

/-- A call of `queue_add` or `queue_get`. -/
inductive Call
  | add (val : ℤ)
  | get
  deriving DecidableEq, Repr

/-- What the callers wait for. -/
inductive Resource
  /-- Free slots: the condition variable `not_full`, the semaphore `empty`. -/
  | slots
  /-- Values: the condition variable `not_empty`, the semaphore `full`. -/
  | values
  deriving DecidableEq, Repr

/-- The amount of a resource. -/
def Queue.room (q : Queue) : Resource → ℤ
  | .slots => q.maxCount - q.count
  | .values => q.count

namespace Call

def operation : Call → Operation
  | .add val => queueAdd val
  | .get => queueGet

/-- What a call waits for. -/
def needs : Call → Resource
  | .add _ => .slots
  | .get => .values

/-- What a call provides. -/
def gives : Call → Resource
  | .add _ => .values
  | .get => .slots

/-- The change of the number of values. -/
def delta : Call → ℤ
  | .add _ => 1
  | .get => -1

end Call

variable {q q' : Queue} {m : ℤ}

theorem Queue.Counts.room_nonneg (hc : q.Counts m) (r : Resource) :
    0 ≤ q.room r := by
  have hnonneg := hc.nonneg
  have hle := hc.le_max
  have hmax := hc.maxCount
  cases r <;> simp only [Queue.room] <;> omega

theorem Queue.room_congr
    (hcount : q'.count = q.count) (hmax : q'.maxCount = q.maxCount)
    (r : Resource) : q'.room r = q.room r := by
  cases r <;> simp [Queue.room, hcount, hmax]

namespace Call

/-- A call that found room stays within the bounds. -/
theorem delta_bounds
    {c : Call} (hc : q.Counts m) (hroom : 0 < q.room c.needs) :
    0 ≤ q.count + c.delta ∧ q.count + c.delta ≤ m := by
  have hnonneg := hc.nonneg
  have hle := hc.le_max
  have hmax := hc.maxCount
  cases c <;> simp only [Queue.room, needs, delta] at hroom ⊢ <;> omega

/-- The assertions hold. -/
theorem exists_attempt (c : Call) (hc : q.Counts m) :
    ∃ q', c.operation.attempt q = some q' ∧ Queue.SameCounters q q' ∧
      ∀ xs vals, q.Lists xs vals → q'.Lists xs vals := by
  have hnonneg := hc.nonneg
  have hle := hc.le_max
  have hmax := hc.maxCount
  cases c with
  | add val =>
      refine ⟨{ q with addAttempts := q.addAttempts + 1 }, ?_,
        ⟨rfl, rfl, rfl, rfl⟩, ?_⟩
      · exact if_pos (by omega)
      · exact fun xs vals hl => ⟨hl.cells, hl.fresh, hl.history⟩
  | get =>
      refine ⟨{ q with getAttempts := q.getAttempts + 1 }, ?_,
        ⟨rfl, rfl, rfl, rfl⟩, ?_⟩
      · exact if_pos (by omega)
      · exact fun xs vals hl => ⟨hl.cells, hl.fresh, hl.history⟩

/-- The list can be changed: `first` is not null when a value is taken. -/
theorem exists_link
    {xs : List ℕ} {vals : List ℤ} (c : Call) (hl : q.Lists xs vals)
    (hroom : 0 ≤ (vals.length : ℤ) + c.delta) :
    ∃ q', c.operation.link q = some q' ∧ Queue.SameCounters q q' ∧
      ∃ xs' vals', q'.Lists xs' vals' ∧
        (vals'.length : ℤ) = vals.length + c.delta := by
  cases c with
  | add val =>
      obtain ⟨q', hadd, hsame, hl'⟩ := hl.addLink val
      exact ⟨q', hadd, hsame, _, _, hl', by simp [delta]⟩
  | get =>
      have hxs := hl.length_eq
      simp only [delta] at hroom
      obtain ⟨val, vals', rfl⟩ := List.exists_cons_of_length_pos
        (by omega : 0 < vals.length)
      obtain ⟨a, xs', rfl⟩ := List.exists_cons_of_length_pos
        (by simp at hxs; omega : 0 < xs.length)
      obtain ⟨q', hget, hsame, hl'⟩ := hl.getUnlink
      refine ⟨q', hget, hsame, _, _, hl', ?_⟩
      rw [List.length_cons, delta]
      omega

theorem count_count (c : Call) (q : Queue) :
    (c.operation.count q).count = q.count + c.delta := by
  cases c <;> rfl

/-- A call takes one unit of what it waits for and provides one unit of the
other resource. -/
theorem room_count (c : Call) (q : Queue) (r : Resource) :
    (c.operation.count q).room r + (if c.needs = r then 1 else 0) =
      q.room r + (if c.gives = r then 1 else 0) := by
  cases c <;> cases r <;>
    simp [operation, queueAdd, queueGet, Queue.countAdd, Queue.countGet,
      Queue.room, needs, gives] <;>
    omega

/-- The counters after the operation. -/
theorem counts_count
    (c : Call) (hc : q.Counts m) (hnonneg : 0 ≤ q.count + c.delta)
    (hle : q.count + c.delta ≤ m) :
    (c.operation.count q).Counts m ∧
      ∀ xs vals, q.Lists xs vals → (c.operation.count q).Lists xs vals := by
  have hmax := hc.maxCount
  have hdiff := hc.difference
  constructor
  · constructor
    · cases c <;> exact hmax
    · rwa [c.count_count]
    · rwa [c.count_count]
    · rw [c.count_count]
      cases c with
      | add val =>
          change q.addCount + 1 - q.getCount = q.count + 1
          omega
      | get =>
          change q.addCount - (q.getCount + 1) = q.count + -1
          omega
  · intro xs vals hl
    cases c <;>
      exact ⟨hl.cells, hl.fresh, hl.history⟩

end Call
end BoundedQueue
end OsFifthSem
