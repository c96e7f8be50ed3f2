import OsFifthSem.Support.LinkedQueue

/-!
# The queue of a scheduler and the map of running coroutines

`coro_queue.c` is a linked list with a head and a tail; `coro_map.c` is a hash
table from thread ids to the coroutine that the thread runs.  Coroutines are
named by numbers.  Allocations succeed.
-/

namespace OsFifthSem
namespace Coroutine

open Support

/-! ## The queue -/

/-- `coro_queue_node_t`. -/
structure CoroQueueNode where
  coro : ℕ
  next : Option ℕ
  deriving DecidableEq, Repr

/-- `coro_queue_t` with the heap of its nodes; `pushed` is a history
variable. -/
structure CoroQueue where
  nodes : ℕ → Option CoroQueueNode
  allocated : ℕ
  head : Option ℕ
  tail : Option ℕ
  size : ℕ
  pushed : List ℕ

/-- `coro_queue_init`. -/
def coroQueueInit : CoroQueue where
  nodes := fun _ => none
  allocated := 0
  head := none
  tail := none
  size := 0
  pushed := []

namespace CoroQueue

/-- `coro_queue_push`; no result when a null pointer is followed. -/
def push (q : CoroQueue) (coro : ℕ) : Option CoroQueue :=
  let node := q.allocated
  let nodes := Function.update q.nodes node (some ⟨coro, none⟩)
  match q.tail with
  | none =>
      some { q with
        nodes := nodes
        allocated := node + 1
        head := some node
        tail := some node
        size := q.size + 1
        pushed := q.pushed ++ [coro] }
  | some t =>
      (nodes t).map fun n =>
        { q with
          nodes := Function.update nodes t (some { n with next := some node })
          allocated := node + 1
          tail := some node
          size := q.size + 1
          pushed := q.pushed ++ [coro] }

/-- `coro_queue_pop`. -/
def pop (q : CoroQueue) : Option (Option ℕ × CoroQueue) :=
  match q.head with
  | none => some (none, q)
  | some node =>
      (q.nodes node).map fun n =>
        (some n.coro, { q with
          nodes := Function.update q.nodes node none
          head := n.next
          tail := if n.next = none then none else q.tail
          size := q.size - 1 })

/-- The nodes `xs` hold the coroutines `coros`, from the head to the tail. -/
structure Lists (q : CoroQueue) (xs coros : List ℕ) : Prop where
  cells : LinkedQueue.Lists CoroQueueNode.next CoroQueueNode.coro q.nodes
    q.head q.tail xs coros
  fresh : ∀ a, q.allocated ≤ a → q.nodes a = none
  size_eq : q.size = coros.length

variable {q q' : CoroQueue} {xs coros : List ℕ} {coro : ℕ}

theorem lists_coroQueueInit : coroQueueInit.Lists [] [] where
  cells := .nil
  fresh := fun _ _ => rfl
  size_eq := rfl

theorem Lists.unique
    {ys coros' : List ℕ} (hl : q.Lists xs coros) (hl' : q.Lists ys coros') :
    coros = coros' :=
  hl.cells.unique hl'.cells

theorem Lists.push (hl : q.Lists xs coros) (coro : ℕ) :
    ∃ q', q.push coro = some q' ∧ q'.pushed = q.pushed ++ [coro] ∧
      q'.Lists (xs ++ [q.allocated]) (coros ++ [coro]) := by
  obtain ⟨hcells, hfresh, hsize⟩ := hl
  cases htail : q.tail with
  | none =>
      rw [htail] at hcells
      obtain ⟨-, rfl, rfl⟩ := hcells.eq_nil_of_last
      refine ⟨_, by simp only [CoroQueue.push, htail]; rfl, rfl, ?_⟩
      constructor
      · exact .singleton (Function.update_self ..) rfl
      · exact LinkedQueue.fresh_update hfresh _
      · simp [hsize]
  | some t =>
      rw [htail] at hcells
      obtain ⟨n, hcell, hcells', hfresh'⟩ := hcells.snoc_fresh
        (m := ⟨coro, none⟩) (fun n => { n with next := some q.allocated })
        hfresh (fun _ => rfl) (fun _ => rfl) rfl
      refine ⟨_, by simp only [CoroQueue.push, htail, hcell,
        Option.map_some]; rfl, rfl, ?_⟩
      constructor
      · exact hcells'
      · exact hfresh'
      · simp [hsize]

theorem Lists.pop_nil (hl : q.Lists xs []) : q.pop = some (none, q) := by
  have hxs : xs = [] := by simpa using hl.cells.length_eq
  have hhead : q.head = none := by
    rw [hl.cells.chain.head_eq, hxs]
    rfl
  simp only [pop, hhead]

theorem Lists.pop_cons (hl : q.Lists xs (coro :: coros)) :
    ∃ q' xs', q.pop = some (some coro, q') ∧ q'.pushed = q.pushed ∧
      q'.Lists xs' coros := by
  obtain ⟨hcells, hfresh, hsize⟩ := hl
  obtain ⟨a, xs', rfl⟩ := List.exists_cons_of_length_pos
    (by rw [hcells.length_eq]; simp : 0 < xs.length)
  have hhead : q.head = some a := hcells.chain.head_eq
  rw [hhead] at hcells
  obtain ⟨n, hcell, rfl, htail⟩ := hcells.tail
  refine ⟨_, xs',
    by simp only [pop, hhead, hcell, Option.map_some]; rfl, ?_, ?_⟩
  · rfl
  constructor
  · exact htail
  · exact LinkedQueue.fresh_free hfresh a
  · simp [hsize]

end CoroQueue

/-! ## The map -/

/-- `MAP_CAPACITY`. -/
def mapCapacity : ℕ := 16

/-- `coro_map_t`: each bucket lists thread ids with their coroutines. -/
structure CoroMap where
  buckets : List (List (ℕ × ℕ))
  capacity_pos : 0 < buckets.length

/-- `coro_map_create`. -/
def coroMapCreate (capacity : ℕ) : CoroMap where
  buckets := List.replicate (if capacity = 0 then mapCapacity else capacity) []
  capacity_pos := by
    rw [List.length_replicate]
    split
    · decide
    · omega

/-- `hash_tid`. -/
def hashTid (tid capacity : ℕ) : ℕ := tid % capacity

/-- The loop of `coro_map_add` over a bucket: the entry of the thread is
changed, if there is one. -/
def bucketReplace (tid coro : ℕ) : List (ℕ × ℕ) → Option (List (ℕ × ℕ))
  | [] => none
  | (t, c) :: rest =>
      if t = tid then some ((t, coro) :: rest)
      else (bucketReplace tid coro rest).map ((t, c) :: ·)

/-- The loop of `coro_map_get` over a bucket. -/
def bucketGet (tid : ℕ) : List (ℕ × ℕ) → Option ℕ
  | [] => none
  | (t, c) :: rest => if t = tid then some c else bucketGet tid rest

theorem bucketGet_of_bucketReplace
    {tid coro : ℕ} {bucket bucket' : List (ℕ × ℕ)}
    (h : bucketReplace tid coro bucket = some bucket') :
    bucketGet tid bucket' = some coro := by
  induction bucket generalizing bucket' with
  | nil => cases h
  | cons entry rest ih =>
      obtain ⟨t, c⟩ := entry
      simp only [bucketReplace] at h
      split at h
      · next ht =>
          obtain rfl := Option.some.inj h
          simp [bucketGet, ht]
      · next ht =>
          obtain ⟨rest', hrest, rfl⟩ := Option.map_eq_some_iff.mp h
          simp [bucketGet, ht, ih hrest]

namespace CoroMap

/-- `coro_map_add`. -/
def add (m : CoroMap) (tid coro : ℕ) : CoroMap where
  buckets := m.buckets.modify (hashTid tid m.buckets.length) fun bucket =>
    (bucketReplace tid coro bucket).getD ((tid, coro) :: bucket)
  capacity_pos := by
    rw [List.length_modify]
    exact m.capacity_pos

/-- `coro_map_get`. -/
def get (m : CoroMap) (tid : ℕ) : Option ℕ :=
  m.buckets[hashTid tid m.buckets.length]?.bind (bucketGet tid)

/-- The map gives the coroutine that was added last for the thread. -/
theorem get_add (m : CoroMap) (tid coro : ℕ) :
    (m.add tid coro).get tid = some coro := by
  have hlt : hashTid tid m.buckets.length < m.buckets.length :=
    Nat.mod_lt _ m.capacity_pos
  simp only [get, add, List.length_modify, List.getElem?_modify_eq,
    List.getElem?_eq_getElem hlt, Option.map_eq_map, Option.map_some,
    Option.bind_some]
  cases hreplace : bucketReplace tid coro
      m.buckets[hashTid tid m.buckets.length] with
  | none => simp [bucketGet]
  | some bucket => exact bucketGet_of_bucketReplace hreplace

end CoroMap
end Coroutine
end OsFifthSem
