import OsFifthSem.Sync.BoundedQueue.Queue

/-!
# The queue without locks

`queue.c` is the queue of one thread.  `queue_add` refuses a value when the
queue is full and `queue_get` returns at once when it is empty, and taking the
last value leaves `q->last` pointing to the freed node.  Calls of the two give
the results of a bounded queue of values, so the dangling pointer is never
followed.
-/

namespace OsFifthSem
namespace BoundedQueue

open Support

/-- What a call returns: the return value, and `*val` when it was stored. -/
structure Reply where
  code : ℤ
  value : Option ℤ
  deriving DecidableEq, Repr

/-! ## A bounded queue of values -/

/-- The values in order of arrival, of which there are at most `capacity`. -/
def fifoCall (capacity : ℤ) (vals : List ℤ) : Call → Reply × List ℤ
  | .add val =>
      if (vals.length : ℤ) < capacity then (⟨1, none⟩, vals ++ [val])
      else (⟨0, none⟩, vals)
  | .get =>
      match vals with
      | [] => (⟨0, none⟩, [])
      | val :: rest => (⟨1, some val⟩, rest)

/-- The replies to a sequence of calls and the values that are left. -/
def fifoCalls (capacity : ℤ) (vals : List ℤ) :
    List Call → List Reply × List ℤ
  | [] => ([], vals)
  | c :: calls =>
      let (reply, rest) := fifoCall capacity vals c
      let (replies, final) := fifoCalls capacity rest calls
      (reply :: replies, final)

/-! ## `queue.c` -/

namespace Queue

/-- `queue_get`: read the first node, unlink it and free it; `last` is left
alone. -/
def getFirst (q : Queue) : Option (ℤ × Queue) :=
  q.first.bind fun tmp => (q.nodes tmp).map fun n =>
    (n.val, { q with
      nodes := Function.update q.nodes tmp none
      first := n.next
      got := q.got ++ [n.val] })

/-- `queue_add`. -/
def queueAdd (q : Queue) (val : ℤ) : Option (Reply × Queue) :=
  q.addAttempt.bind fun q =>
    if q.count = q.maxCount then some (⟨0, none⟩, q)
    else (q.addLink val).map fun q => (⟨1, none⟩, q.countAdd)

/-- `queue_get`. -/
def queueGet (q : Queue) : Option (Reply × Queue) :=
  q.getAttempt.bind fun q =>
    if q.count = 0 then some (⟨0, none⟩, q)
    else q.getFirst.map fun p => (⟨1, some p.1⟩, p.2.countGet)

/-- A call of one of the two.  There is no result when an assertion fails or
a null pointer or a freed node is dereferenced. -/
def call (q : Queue) : Call → Option (Reply × Queue)
  | .add val => q.queueAdd val
  | .get => q.queueGet

/-- A sequence of calls. -/
def calls (q : Queue) : List Call → Option (List Reply × Queue)
  | [] => some ([], q)
  | c :: cs => do
      let (reply, q) ← q.call c
      let (replies, q) ← q.calls cs
      some (reply :: replies, q)

/-- The fields of a queue that holds `vals`: `count` is the length of the list
from `first`, within the bound, and `last` is the final node unless the list
is empty. -/
structure Holds (q : Queue) (max : ℤ) (vals : List ℤ) : Prop where
  list : ∃ xs, Chain QNode.next q.nodes q.first xs ∧
    xs.map (fun a => (q.nodes a).map QNode.val) = vals.map some ∧
    q.count = xs.length ∧ (0 < q.count → q.last = xs.getLast?)
  le_max : q.count ≤ max
  difference : q.addCount - q.getCount = q.count

/-! ## The dangling pointer -/

/-- The queue with `last` reset when the list is empty, as the other files
keep it. -/
def settled (q : Queue) : Queue :=
  { q with last := if q.first = none then none else q.last }

variable {q q' : Queue} {xs : List ℕ} {vals : List ℤ} {max : ℤ}

theorem settled_of_first {a : ℕ} (h : q.first = some a) : q.settled = q := by
  have hlast : (if q.first = none then none else q.last) = q.last := by
    simp [h]
  rw [settled, hlast]

/-- `queue_add` reads `last` only when the list is not empty. -/
theorem addLink_settled (q : Queue) (val : ℤ) :
    q.settled.addLink val = q.addLink val := by
  cases hfirst : q.first with
  | none => simp [addLink, settled, hfirst]
  | some a => rw [settled_of_first hfirst]

/-- The two ways of taking a value differ in `last` only. -/
theorem getUnlink_settled (q : Queue) :
    q.settled.getUnlink = q.getFirst.map fun p => p.2.settled := by
  cases hfirst : q.first with
  | none => simp [getUnlink, getFirst, settled, hfirst]
  | some a =>
      rw [settled_of_first hfirst]
      cases hcell : q.nodes a with
      | none => simp [getUnlink, getFirst, hfirst, hcell]
      | some n => simp [getUnlink, getFirst, settled, hfirst, hcell]

theorem settled_of_last
    (hl : q.Lists xs vals) : q.settled = q := by
  cases hfirst : q.first with
  | some a => exact settled_of_first hfirst
  | none =>
      have hcells := hl.cells
      rw [hfirst] at hcells
      obtain ⟨rfl, -⟩ := hcells.eq_nil_of_first
      have hlast : (if q.first = none then none else q.last) = q.last := by
        rw [if_pos hfirst]
        exact hcells.last_eq.symm
      rw [settled, hlast]

/-- The invariant: apart from `last`, the queue is as in the other files. -/
structure Settles (q : Queue) (max : ℤ) (vals : List ℤ) : Prop where
  lists : ∃ xs, q.settled.Lists xs vals
  counts : q.Counts max
  count_eq : q.count = vals.length

theorem settles_queueInit (hmax : 0 ≤ max) :
    (queueInit max).Settles max [] where
  lists := ⟨[], lists_queueInit max⟩
  counts := ⟨rfl, le_rfl, hmax, rfl⟩
  count_eq := rfl

theorem Settles.holds (hs : q.Settles max vals) : q.Holds max vals := by
  obtain ⟨⟨xs, hl⟩, hcounts, hcount⟩ := hs
  refine ⟨⟨xs, hl.cells.chain, hl.cells.values, ?_, fun hpos => ?_⟩,
    hcounts.le_max, hcounts.difference⟩
  · rw [hcount, hl.length_eq]
  · have hfirst : q.first ≠ none := by
      intro hnone
      have hcells := hl.cells
      rw [show q.settled.first = none from hnone] at hcells
      obtain ⟨-, rfl⟩ := hcells.eq_nil_of_first
      simp at hcount
      omega
    obtain ⟨a, ha⟩ := Option.ne_none_iff_exists'.mp hfirst
    rw [← hl.cells.last_eq, settled_of_first ha]

theorem Settles.queueAdd (hs : q.Settles max vals) (val : ℤ) :
    ∃ q', q.queueAdd val = some ((fifoCall max vals (.add val)).1, q') ∧
      q'.Settles max (fifoCall max vals (.add val)).2 := by
  obtain ⟨⟨xs, hl⟩, ⟨hmax, hnonneg, hle, hdiff⟩, hcount⟩ := hs
  let q₁ : Queue := { q with addAttempts := q.addAttempts + 1 }
  have hattempt : q.addAttempt = some q₁ := if_pos (by omega)
  have hl₁ : q₁.settled.Lists xs vals := ⟨hl.cells, hl.fresh, hl.history⟩
  rw [Queue.queueAdd, hattempt, Option.bind_some]
  by_cases hfull : q₁.count = q₁.maxCount
  · have hroom : ¬(vals.length : ℤ) < max := by
      change q.count = q.maxCount at hfull
      omega
    rw [if_pos hfull, fifoCall, if_neg hroom]
    exact ⟨q₁, rfl, ⟨xs, hl₁⟩, ⟨hmax, hnonneg, hle, hdiff⟩, hcount⟩
  · have hroom : (vals.length : ℤ) < max := by
      change q.count ≠ q.maxCount at hfull
      omega
    obtain ⟨q₂, hadd, hsame, hl₂⟩ := hl₁.addLink val
    rw [addLink_settled] at hadd
    rw [if_neg hfull, hadd, fifoCall, if_pos hroom]
    have hl₃ : q₂.countAdd.Lists (xs ++ [q₁.allocated]) (vals ++ [val]) :=
      ⟨hl₂.cells, hl₂.fresh, hl₂.history⟩
    have hcount₂ : q₂.count = q.count := hsame.count
    have hadd₂ : q₂.addCount = q.addCount := hsame.addCount
    have hget₂ : q₂.getCount = q.getCount := hsame.getCount
    refine ⟨q₂.countAdd, rfl, ⟨_, (settled_of_last hl₃).symm ▸ hl₃⟩,
      ⟨hsame.maxCount.trans hmax, ?_, ?_, ?_⟩, ?_⟩
    · simp only [countAdd]
      omega
    · simp only [countAdd]
      omega
    · simp only [countAdd]
      omega
    · simp only [countAdd, List.length_append, List.length_singleton]
      omega

theorem Settles.queueGet (hs : q.Settles max vals) :
    ∃ q', q.queueGet = some ((fifoCall max vals .get).1, q') ∧
      q'.Settles max (fifoCall max vals .get).2 := by
  obtain ⟨⟨xs, hl⟩, ⟨hmax, hnonneg, hle, hdiff⟩, hcount⟩ := hs
  let q₁ : Queue := { q with getAttempts := q.getAttempts + 1 }
  have hattempt : q.getAttempt = some q₁ := if_pos hnonneg
  have hl₁ : q₁.settled.Lists xs vals := ⟨hl.cells, hl.fresh, hl.history⟩
  rw [Queue.queueGet, hattempt, Option.bind_some]
  cases vals with
  | nil =>
      have hzero : q₁.count = 0 := hcount
      rw [if_pos hzero]
      exact ⟨q₁, rfl, ⟨xs, hl₁⟩, ⟨hmax, hnonneg, hle, hdiff⟩, hcount⟩
  | cons val vals =>
      rw [List.length_cons] at hcount
      have hlen := hl.length_eq
      obtain ⟨a, xs, rfl⟩ := List.exists_cons_of_length_pos
        (by simp at hlen; omega : 0 < xs.length)
      have hfirst : q₁.first = some a := hl₁.cells.chain.head_eq
      have hcells := hl₁.cells
      rw [show q₁.settled.first = some a from hfirst] at hcells
      obtain ⟨n, hcell, rfl, -⟩ := hcells.tail
      obtain ⟨q₂, hunlink, hsame, hl₂⟩ := hl₁.getUnlink
      have hcell₁ : q₁.nodes a = some n := hcell
      rw [getUnlink_settled] at hunlink
      simp only [getFirst, hfirst, hcell₁, Option.bind_some, Option.map_some,
        Option.some.injEq] at hunlink
      subst hunlink
      have hne : q₁.count ≠ 0 := by
        change q.count ≠ 0
        omega
      simp only [if_neg hne, getFirst, hfirst, hcell₁, Option.bind_some,
        Option.map_some, fifoCall]
      refine ⟨_, rfl, ⟨xs, hl₂.cells, hl₂.fresh, hl₂.history⟩,
        ⟨hmax, ?_, ?_, ?_⟩, ?_⟩
      · change 0 ≤ q.count - 1
        omega
      · change q.count - 1 ≤ max
        omega
      · change q.addCount - (q.getCount + 1) = q.count - 1
        omega
      · change q.count - 1 = (vals.length : ℤ)
        omega

/-- A call replies as the queue of values does, and keeps the invariant. -/
theorem Settles.call (hs : q.Settles max vals) (c : Call) :
    ∃ q', q.call c = some ((fifoCall max vals c).1, q') ∧
      q'.Settles max (fifoCall max vals c).2 := by
  cases c with
  | add val => exact hs.queueAdd val
  | get => exact hs.queueGet

theorem Settles.calls (hs : q.Settles max vals) (cs : List Call) :
    ∃ q', q.calls cs = some ((fifoCalls max vals cs).1, q') ∧
      q'.Settles max (fifoCalls max vals cs).2 := by
  induction cs generalizing q vals with
  | nil => exact ⟨q, rfl, hs⟩
  | cons c cs ih =>
      obtain ⟨q₁, hcall, hs₁⟩ := hs.call c
      obtain ⟨q', hcalls, hs'⟩ := ih hs₁
      refine ⟨q', ?_, hs'⟩
      simp only [Queue.calls, hcall, hcalls, Option.bind_eq_bind,
        Option.bind_some]
      rfl

/-- From `queue_init` on, every sequence of calls returns, with the replies of
a queue of at most `max` values, and leaves a queue that holds the values left
over. -/
theorem calls_refine_fifo (max : ℤ) (hmax : 0 ≤ max) (cs : List Call) :
    ∃ q, (queueInit max).calls cs = some ((fifoCalls max [] cs).1, q) ∧
      q.Holds max (fifoCalls max [] cs).2 := by
  obtain ⟨q, hcalls, hs⟩ := (settles_queueInit hmax).calls cs
  exact ⟨q, hcalls, hs.holds⟩

/-- A queue for one value that is filled, emptied and filled again. -/
theorem calls_refine_fifo_one :
    (0 : ℤ) ≤ 1 ∧
      ∃ q, (queueInit 1).calls [.add 5, .get, .add 6, .add 7] =
          some ([⟨1, none⟩, ⟨1, some 5⟩, ⟨1, none⟩, ⟨0, none⟩], q) ∧
        q.Holds 1 [6] :=
  ⟨by decide, calls_refine_fifo 1 (by decide) [.add 5, .get, .add 6, .add 7]⟩

end Queue

end BoundedQueue
end OsFifthSem
