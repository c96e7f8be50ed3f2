import OsFifthSem.Support.CString
import OsFifthSem.Support.LinkedList

/-!
# The list of `sync/2.3`

Both programs of `sync/2.3` build the same list: `2.3-2.4.c` puts a mutex in
every node and `2.3m.c` a read-write lock.  Nodes are allocated one after the
other, so the `k`-th call of `add_node` allocates address `k`.
-/

namespace OsFifthSem
namespace SwapList

open Support

universe u

variable {T : Type u}

/-! ## The lock of a node -/

/-- How a lock is taken: `pthread_rwlock_rdlock`, or `pthread_rwlock_wrlock`
and `mutex_lock`. -/
inductive Mode
  | shared
  | exclusive
  deriving DecidableEq, Repr

/-- The lock of a node with the threads that hold it.  A mutex has no
readers. -/
structure NodeLock (T : Type u) where
  writer : Option T
  readers : List T
  deriving DecidableEq

namespace NodeLock

/-- `mutex_init`, `pthread_rwlock_init`. -/
def init : NodeLock T where
  writer := none
  readers := []

/-- The thread holds the lock, in either mode. -/
def HeldBy (l : NodeLock T) (t : T) : Prop :=
  l.writer = some t ∨ t ∈ l.readers

variable [DecidableEq T]

/-- The lock after a successful acquisition.  There is no result while the
thread has to wait: a reader waits for the writer, a writer for everybody. -/
def acquire (l : NodeLock T) (t : T) : Mode → Option (NodeLock T)
  | .shared =>
      if l.writer = none then some { l with readers := t :: l.readers }
      else none
  | .exclusive =>
      if l.writer = none ∧ l.readers = [] then some { l with writer := some t }
      else none

/-- `mutex_unlock`, `pthread_rwlock_unlock`. -/
def release (l : NodeLock T) (t : T) : NodeLock T :=
  if l.writer = some t then { l with writer := none }
  else { l with readers := l.readers.erase t }

end NodeLock

/-! ## Building the list -/

/-- `MAX_STRING_LENGTH`. -/
def maxStringLength : ℕ := 100

/-- `Node`. -/
structure Node (T : Type u) where
  value : CString
  next : Option ℕ
  sync : NodeLock T

/-- `Storage` together with the heap its nodes live in. -/
structure Storage (T : Type u) where
  first : Option ℕ
  size : ℤ
  nodes : ℕ → Option (Node T)
  allocated : ℕ

/-- `create_node`: the value is cut to what fits in front of the terminator. -/
def createNode (value : CString) : Node T where
  value :=
    { bytes := value.bytes.take (maxStringLength - 1)
      noNul := fun h => value.noNul (List.mem_of_mem_take h) }
  next := none
  sync := .init

/-- `add_node`: walk to the node without a successor and link the new node
there.  There is no result when the walk does not end. -/
def addNode (st : Storage T) (value : CString) : Option (Storage T) :=
  let new := st.allocated
  let nodes := Function.update st.nodes new (some (createNode value))
  match st.first with
  | none =>
      some { st with first := some new, nodes := nodes, allocated := new + 1 }
  | some first =>
      -- `while (current->next != NULL) current = current->next;`
      match scan Node.next nodes (fun n => n.next.isNone)
        (st.allocated + 1) none (some first) with
      | some (_, some current) =>
          (nodes current).map fun n =>
            { st with
              nodes := Function.update nodes current
                (some { n with next := some new })
              allocated := new + 1 }
      | _ => none

/-- The empty `Storage` of `main`, with `size = list_size`. -/
def emptyStorage (size : ℤ) : Storage T where
  first := none
  size := size
  nodes := fun _ => none
  allocated := 0

/-- The loop of `main` that adds the nodes. -/
def addNodes (st : Storage T) : List CString → Option (Storage T)
  | [] => some st
  | value :: values => (addNode st value).bind fun st' => addNodes st' values

/-- The list of `main` with one node for each value. -/
def buildStorage (T : Type u) (values : List CString) : Option (Storage T) :=
  addNodes (emptyStorage values.length) values

/-! ## The list that is built -/

/-- The storage after `k` calls of `add_node`: the nodes follow each other in
the order of their allocation and no lock is held. -/
structure Built (size : ℤ) (k : ℕ) (st : Storage T) : Prop where
  size_eq : st.size = size
  allocated : st.allocated = k
  first : st.first = (List.range k).head?
  cell : ∀ a < k, ∃ n, st.nodes a = some n ∧
    n.next = (if a + 1 < k then some (a + 1) else none) ∧ n.sync = .init
  fresh : ∀ a, k ≤ a → st.nodes a = none

theorem Built.next_eq
    {size : ℤ} {k : ℕ} {st : Storage T} (hb : Built size k st) {a : ℕ}
    (ha : a < k) :
    ∃ n, st.nodes a = some n ∧ n.next = (List.range k)[a + 1]? := by
  obtain ⟨n, hn, hnext, -⟩ := hb.cell a ha
  refine ⟨n, hn, ?_⟩
  rw [hnext]
  split_ifs with h
  · rw [List.getElem?_range h]
  · exact (List.getElem?_eq_none (by simpa using h)).symm

theorem Built.chain
    {size : ℤ} {k : ℕ} {st : Storage T} (hb : Built size k st) :
    Chain Node.next st.nodes st.first (List.range k) := by
  rw [hb.first]
  refine Chain.of_links fun i hi => ?_
  rw [List.getElem_range]
  exact hb.next_eq (by simpa using hi)

theorem built_emptyStorage (size : ℤ) :
    Built size 0 (emptyStorage size : Storage T) where
  size_eq := rfl
  allocated := rfl
  first := rfl
  cell := fun a ha => absurd ha (Nat.not_lt_zero a)
  fresh := fun _ _ => rfl

/-- `add_node` links the new node behind the last one. -/
theorem Built.addNode
    {size : ℤ} {k : ℕ} {st : Storage T} (hb : Built size k st)
    (value : CString) :
    ∃ st', addNode st value = some st' ∧ Built size (k + 1) st' := by
  have hnew : ∀ a < k, Function.update st.nodes st.allocated
      (some (createNode value)) a = st.nodes a := by
    intro a ha
    rw [hb.allocated, Function.update_of_ne (by omega)]
  cases k with
  | zero =>
      have hfirst : st.first = none := hb.first
      refine ⟨_, by simp only [SwapList.addNode, hfirst]; rfl, ?_⟩
      constructor
      · exact hb.size_eq
      · exact congrArg (· + 1) hb.allocated
      · simp [hb.allocated]
      · intro a ha
        obtain rfl : a = 0 := by omega
        exact ⟨createNode value, by simp [hb.allocated], by simp [createNode]⟩
      · intro a ha
        simp only [hb.allocated]
        rw [Function.update_of_ne (by omega)]
        exact hb.fresh a (Nat.zero_le a)
  | succ k =>
      have hfirst : st.first = some 0 := by simp [hb.first, List.head?_range]
      have hchain : Chain Node.next (Function.update st.nodes st.allocated
          (some (createNode value))) (some 0) (List.range (k + 1)) := by
        rw [← hfirst]
        exact hb.chain.congr_of_eq fun a ha => hnew a (by simpa using ha)
      -- the walk stops at the first node without a successor, which is `k`
      have hsplit : SplitAt (testAt (Function.update st.nodes st.allocated
          (some (createNode value))) fun n : Node T => n.next.isNone)
          (List.range (k + 1)) (List.range k) k [] := by
        constructor
        · exact List.range_succ
        · intro a ha
          have hak : a < k := by simpa using ha
          obtain ⟨n, hn, hnext, -⟩ := hb.cell a (by omega)
          simp [testAt, hnew a (by omega), hn, hnext, hak]
        · obtain ⟨n, hn, hnext, -⟩ := hb.cell k (by omega)
          simp [testAt, hnew k (by omega), hn, hnext]
      have hscan : scan Node.next (Function.update st.nodes st.allocated
          (some (createNode value))) (fun n => n.next.isNone)
          (st.allocated + 1) none (some 0) =
            some ((List.range k).getLast?.or none, some k) :=
        scan_of_splitAt hchain (by simp [hb.allocated]) hsplit
      obtain ⟨n, hn, -, hsync⟩ := hb.cell k (by omega)
      have hlast : Function.update st.nodes st.allocated
          (some (createNode value)) k = some n := (hnew k (by omega)).trans hn
      refine ⟨_, by simp only [SwapList.addNode, hfirst, hscan, hlast,
        Option.map_some]; rfl, ?_⟩
      constructor
      · exact hb.size_eq
      · exact congrArg (· + 1) hb.allocated
      · simp [List.head?_range]
      · intro a ha
        by_cases hak : a = k
        · subst hak
          exact ⟨_, Function.update_self .., by simp [hb.allocated], hsync⟩
        · simp only [Function.update_of_ne hak]
          by_cases hlast : a = k + 1
          · subst hlast
            exact ⟨createNode value, by simp [hb.allocated], by simp [createNode]⟩
          · obtain ⟨m, hm, hnext, hsync'⟩ := hb.cell a (by omega)
            refine ⟨m, (hnew a (by omega)).trans hm, ?_, hsync'⟩
            rw [hnext, if_pos (by omega), if_pos (by omega)]
      · intro a ha
        have hak : a ≠ k := by omega
        have hnewest : a ≠ k + 1 := by omega
        simp only [Function.update_of_ne hak, hb.allocated,
          Function.update_of_ne hnewest]
        exact hb.fresh a (by omega)

theorem Built.addNodes
    {size : ℤ} {k : ℕ} {st : Storage T} (hb : Built size k st)
    (values : List CString) :
    ∃ st', addNodes st values = some st' ∧
      Built size (k + values.length) st' := by
  induction values generalizing k st with
  | nil => exact ⟨st, rfl, hb⟩
  | cons value values ih =>
      obtain ⟨st₁, hadd, hb₁⟩ := hb.addNode value
      obtain ⟨st', hadds, hb'⟩ := ih hb₁
      refine ⟨st', ?_, ?_⟩
      · simp [SwapList.addNodes, hadd, hadds]
      · have hlen : k + (value :: values).length = k + 1 + values.length := by
          simp only [List.length_cons]
          omega
        exact hlen ▸ hb'

theorem buildStorage_built (values : List CString) :
    ∃ st, buildStorage T values = some st ∧
      Built values.length values.length st := by
  have hb := (@built_emptyStorage T values.length).addNodes values
  simpa [buildStorage] using hb

end SwapList
end OsFifthSem
