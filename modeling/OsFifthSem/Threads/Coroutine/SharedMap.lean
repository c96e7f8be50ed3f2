import OsFifthSem.Support.LinkedList
import OsFifthSem.Support.Transition
import OsFifthSem.Threads.Coroutine.Containers

/-!
# The map shared by the schedulers

In `cluster.c` every kernel thread runs a scheduler of its own, and all of them
use `cur_coro_map` without a lock.  The schedulers interleave between the
accesses of `coro_map_add` and `coro_map_get` to the buckets, the nodes and the
size.  Threads are named by their ids; a thread that is not started is idle.

Two threads whose ids fall into one bucket can read the same head and both
write it, and then one of the nodes is lost.  `size++` is a read and a write.
-/

namespace OsFifthSem
namespace Coroutine
namespace SharedMap

open Support

/-- `coro_node_t`. -/
structure CoroNode where
  tid : ℕ
  coro : ℕ
  next : Option ℕ
  deriving DecidableEq, Repr

/-- Where a thread is. -/
inductive Pc
  /-- `scheduler_routine`, before it takes a coroutine from the queue. -/
  | idle
  /-- `coro_map_add`: `current = map->buckets[index]`. -/
  | addHead (coro : ℕ)
  /-- `coro_map_add`: the loop, at `current`. -/
  | addWalk (coro : ℕ) (current : Option ℕ)
  /-- `coro_map_add`: the new node is allocated. -/
  | addMalloc (coro : ℕ)
  /-- `coro_map_add`: `new_node->next = map->buckets[index]`. -/
  | addNext (coro new : ℕ)
  /-- `coro_map_add`: `map->buckets[index] = new_node`. -/
  | addPublish (coro new : ℕ)
  /-- `coro_map_add`: `map->size++`, the read and the write. -/
  | sizeRead (coro : ℕ)
  | sizeWrite (coro size : ℕ)
  /-- In the coroutine. -/
  | running (coro : ℕ)
  /-- `yeild` calls `coro_map_get`. -/
  | getHead (coro : ℕ)
  | getWalk (coro : ℕ) (current : Option ℕ)
  /-- `yeild` has `cur_coro` from the map. -/
  | yeilding (coro : ℕ) (curCoro : Option ℕ)
  deriving DecidableEq, Repr

/-- `coro_map_t` with the heap of its nodes.  `added` is a history variable:
the thread ids for which a call of `coro_map_add` has returned. -/
structure State where
  nodes : ℕ → Option CoroNode
  allocated : ℕ
  buckets : ℕ → Option ℕ
  size : ℕ
  pc : ℕ → Pc
  added : List ℕ

/-- One scheduling choice. -/
inductive Action
  /-- The scheduler of the thread takes the coroutine from its queue. -/
  | schedule (tid coro : ℕ)
  /-- The thread takes its next step in `coro_map_add`, `coro_map_get` or
  behind it. -/
  | advance (tid : ℕ)
  /-- The running coroutine calls `yeild`. -/
  | yeild (tid : ℕ)
  /-- The running coroutine finishes. -/
  | finish (tid : ℕ)
  deriving DecidableEq, Repr

/-- The bucket of a thread in a map created with this capacity. -/
def index (capacity tid : ℕ) : ℕ :=
  hashTid tid (if capacity = 0 then mapCapacity else capacity)

namespace State

def goto (s : State) (tid : ℕ) (p : Pc) : State :=
  { s with pc := Function.update s.pc tid p }

theorem pc_goto_self (s : State) (tid : ℕ) (p : Pc) :
    (s.goto tid p).pc tid = p :=
  Function.update_self ..

/-- `coro_map_add` of the thread returns. -/
def noteAdded (s : State) (tid : ℕ) : State :=
  { s with added := if tid ∈ s.added then s.added else s.added ++ [tid] }

/-- A write to a node. -/
def setNode (s : State) (a : ℕ) (n : CoroNode) : State :=
  { s with nodes := Function.update s.nodes a (some n) }

/-- A write to the head of a bucket. -/
def setBucket (s : State) (i a : ℕ) : State :=
  { s with buckets := Function.update s.buckets i (some a) }

/-- The thread id in a node. -/
def tidOf (s : State) (a : ℕ) : Option ℕ := (s.nodes a).map CoroNode.tid

end State

/-- A step of `coro_map_add` or `coro_map_get`; there is none when a null
pointer is followed. -/
def advance (capacity : ℕ) (s : State) (tid : ℕ) : Option State :=
  match s.pc tid with
  | .addHead coro =>
      some (s.goto tid (.addWalk coro (s.buckets (index capacity tid))))
  | .addWalk coro none => some (s.goto tid (.addMalloc coro))
  | .addWalk coro (some current) =>
      (s.nodes current).map fun n =>
        if n.tid = tid then
          ((s.setNode current { n with coro := coro }).noteAdded tid).goto tid
            (.running coro)
        else s.goto tid (.addWalk coro n.next)
  | .addMalloc coro =>
      let new := s.allocated
      some (({ s with allocated := new + 1 }.setNode new
        ⟨tid, coro, none⟩).goto tid (.addNext coro new))
  | .addNext coro new =>
      (s.nodes new).map fun n =>
        (s.setNode new { n with next := s.buckets (index capacity tid) }).goto
          tid (.addPublish coro new)
  | .addPublish coro new =>
      some ((s.setBucket (index capacity tid) new).goto tid (.sizeRead coro))
  | .sizeRead coro => some (s.goto tid (.sizeWrite coro s.size))
  | .sizeWrite coro size =>
      some (({ s with size := size + 1 }.noteAdded tid).goto tid
        (.running coro))
  | .getHead coro =>
      some (s.goto tid (.getWalk coro (s.buckets (index capacity tid))))
  | .getWalk coro none => some (s.goto tid (.yeilding coro none))
  | .getWalk coro (some current) =>
      (s.nodes current).map fun n =>
        if n.tid = tid then s.goto tid (.yeilding coro (some n.coro))
        else s.goto tid (.getWalk coro n.next)
  -- `yeild` queues `cur_coro` and switches to the scheduler
  | .yeilding _ (some _) => some (s.goto tid .idle)
  | .yeilding _ none => none
  | .idle => none
  | .running _ => none

def step (capacity : ℕ) (s : State) : Action → Option State
  | .schedule tid coro =>
      if s.pc tid = .idle then some (s.goto tid (.addHead coro)) else none
  | .advance tid => advance capacity s tid
  | .yeild tid => match s.pc tid with
      | .running coro => some (s.goto tid (.getHead coro))
      | _ => none
  | .finish tid => match s.pc tid with
      | .running _ => some (s.goto tid .idle)
      | _ => none

/-- After `coro_map_create`. -/
def start : State where
  nodes := fun _ => none
  allocated := 0
  buckets := fun _ => none
  size := 0
  pc := fun _ => .idle
  added := []

/-- Any number of threads with any ids share the map. -/
def mapSystem (capacity : ℕ) : TransitionSystem State Action where
  Initial := fun s => s = start
  step := step capacity

/-- If this step writes the head of a bucket, no other thread has written it
since the thread read it, and likewise for the size. -/
def KeepsUpdates (capacity : ℕ) (s : State) (a : Action) : Prop :=
  ∀ tid, a = .advance tid →
    (∀ coro new n, s.pc tid = .addPublish coro new → s.nodes new = some n →
      n.next = s.buckets (index capacity tid)) ∧
    ∀ coro size, s.pc tid = .sizeWrite coro size → size = s.size

/-- In `coro_map_add`. -/
def Pc.InAdd : Pc → Prop
  | .addHead _ | .addWalk _ _ | .addMalloc _ | .addNext _ _ | .addPublish _ _
  | .sizeRead _ | .sizeWrite _ _ => True
  | _ => False

/-- In `coro_map_get`, called by this coroutine. -/
def Pc.InGet (coro : ℕ) : Pc → Prop
  | .getHead c | .getWalk c _ => c = coro
  | _ => False

/-- `coro_map_get` returns the coroutine that runs on the thread, and the map
has one node for each thread that added one. -/
structure MapCorrect (capacity : ℕ) (s : State) : Prop where
  found : ∀ t coro r, s.pc t = .yeilding coro r → r = some coro
  /-- `coro_map_get` does not follow a null pointer. -/
  goesOn : ∀ t coro, (s.pc t).InGet coro →
    ∃ s', step capacity s (.advance t) = some s'
  /-- The walk of `coro_map_get` ends, whatever the other threads do. -/
  returns : ∀ t coro current, s.pc t = .getWalk coro current →
    ∃ n, ∀ as s', (mapSystem capacity).RunAllowed (KeepsUpdates capacity) s as →
      (mapSystem capacity).run s as = some s' →
      n ≤ as.countP (· = .advance t) →
      ∃ pre, pre <+: as ∧ ∃ s'', (mapSystem capacity).run s pre = some s'' ∧
        s''.pc t = .yeilding coro (some coro)
  /-- When no thread is in `coro_map_add`. -/
  ends : (∀ t, ¬(s.pc t).InAdd) →
    s.added.Nodup ∧ s.size = s.added.length ∧
      ∃ lists : ℕ → List ℕ,
        (∀ i, Chain CoroNode.next s.nodes (s.buckets i) (lists i)) ∧
        ∀ i t, ((lists i).map s.tidOf).count (some t) =
          if t ∈ s.added ∧ i = index capacity t then 1 else 0

/-! ## The invariant -/

/-- The node of the thread is in the map and not counted yet. -/
def Pc.Pending : Pc → Prop
  | .sizeRead _ | .sizeWrite _ _ => True
  | _ => False

/-- The thread has a node in its bucket. -/
def State.Linked (s : State) (t : ℕ) : Prop :=
  t ∈ s.added ∨ (s.pc t).Pending

/-- One of these nodes is the one of the thread, with this coroutine. -/
def State.HasNode (s : State) (xs : List ℕ) (t coro : ℕ) : Prop :=
  ∃ a ∈ xs, ∃ n, s.nodes a = some n ∧ n.tid = t ∧ n.coro = coro

/-- What a thread knows at its place about the lists of the buckets. -/
def Facts (capacity : ℕ) (s : State) (lists : ℕ → List ℕ) (t : ℕ) :
    Pc → Prop
  | .idle => True
  | .addHead _ => True
  | .addWalk _ current => ∃ ys, ys <:+ lists (index capacity t) ∧
      current = ys.head? ∧ (t ∈ s.added → some t ∈ ys.map s.tidOf)
  | .addMalloc _ => t ∉ s.added
  | .addNext coro new => t ∉ s.added ∧ s.HasNode [new] t coro
  | .addPublish coro new => t ∉ s.added ∧ s.HasNode [new] t coro
  | .sizeRead coro =>
      t ∉ s.added ∧ s.HasNode (lists (index capacity t)) t coro
  | .sizeWrite coro _ =>
      t ∉ s.added ∧ s.HasNode (lists (index capacity t)) t coro
  | .running coro => t ∈ s.added ∧ s.HasNode (lists (index capacity t)) t coro
  | .getHead coro => t ∈ s.added ∧ s.HasNode (lists (index capacity t)) t coro
  | .getWalk coro current => t ∈ s.added ∧
      ∃ ys, ys <:+ lists (index capacity t) ∧ current = ys.head? ∧
        s.HasNode ys t coro
  | .yeilding coro curCoro => t ∈ s.added ∧ curCoro = some coro

/-- The buckets hold the nodes `lists`, one for each thread that has linked one,
and the size counts the threads that have added one. -/
structure Inv (capacity : ℕ) (s : State) (lists : ℕ → List ℕ) : Prop where
  chain : ∀ i, Chain CoroNode.next s.nodes (s.buckets i) (lists i)
  nodup : ∀ i, ((lists i).map s.tidOf).Nodup
  mem_iff : ∀ i t, some t ∈ (lists i).map s.tidOf ↔
    s.Linked t ∧ i = index capacity t
  fresh : ∀ a, s.allocated ≤ a → s.nodes a = none
  size_eq : s.size = s.added.length
  added : s.added.Nodup
  facts : ∀ t, Facts capacity s lists t (s.pc t)

section Steps

variable {capacity t : ℕ} {s s' : State} {lists lists' : ℕ → List ℕ}

theorem inv_start (capacity : ℕ) : Inv capacity start fun _ => [] where
  chain := fun _ => .nil
  nodup := fun _ => List.nodup_nil
  mem_iff := by simp [State.Linked, start, Pc.Pending]
  fresh := fun _ _ => rfl
  size_eq := rfl
  added := List.nodup_nil
  facts := fun _ => trivial

/-- What a step of `t` leaves to the other threads. -/
structure Frame (t : ℕ) (s s' : State) (lists lists' : ℕ → List ℕ) :
    Prop where
  nodes : ∀ a n, s.nodes a = some n → n.tid ≠ t → s'.nodes a = some n
  tids : ∀ i, ∀ a ∈ lists i, s'.tidOf a = s.tidOf a
  lists : ∀ i, lists i <:+ lists' i
  added : ∀ u, u ≠ t → (u ∈ s'.added ↔ u ∈ s.added)
  pc : ∀ u, u ≠ t → s'.pc u = s.pc u

theorem Frame.hasNode
    {u coro : ℕ} {xs ys : List ℕ} (hf : Frame t s s' lists lists')
    (hu : u ≠ t) (hsub : xs ⊆ ys) (h : s.HasNode xs u coro) :
    s'.HasNode ys u coro := by
  obtain ⟨a, ha, n, hn, rfl, hcoro⟩ := h
  exact ⟨a, hsub ha, n, hf.nodes a n hn hu, rfl, hcoro⟩

/-- The other threads keep what they know. -/
theorem Frame.facts
    {u : ℕ} (hf : Frame t s s' lists lists') (hu : u ≠ t) {p : Pc}
    (h : Facts capacity s lists u p) : Facts capacity s' lists' u p := by
  have hadded := hf.added u hu
  have hbucket := hf.lists (index capacity u)
  cases p with
  | idle => trivial
  | addHead coro => trivial
  | addWalk coro current =>
      obtain ⟨ys, hys, hcurrent, hmem⟩ := h
      refine ⟨ys, hys.trans hbucket, hcurrent, fun hin => ?_⟩
      obtain ⟨a, ha, htid⟩ := List.mem_map.mp (hmem (hadded.mp hin))
      exact List.mem_map.mpr ⟨a, ha, (hf.tids _ a (hys.subset ha)).trans htid⟩
  | addMalloc coro => exact fun hin => h (hadded.mp hin)
  | addNext coro new =>
      exact ⟨fun hin => h.1 (hadded.mp hin),
        hf.hasNode hu (List.Subset.refl _) h.2⟩
  | addPublish coro new =>
      exact ⟨fun hin => h.1 (hadded.mp hin),
        hf.hasNode hu (List.Subset.refl _) h.2⟩
  | sizeRead coro =>
      exact ⟨fun hin => h.1 (hadded.mp hin), hf.hasNode hu hbucket.subset h.2⟩
  | sizeWrite coro size =>
      exact ⟨fun hin => h.1 (hadded.mp hin), hf.hasNode hu hbucket.subset h.2⟩
  | running coro =>
      exact ⟨hadded.mpr h.1, hf.hasNode hu hbucket.subset h.2⟩
  | getHead coro =>
      exact ⟨hadded.mpr h.1, hf.hasNode hu hbucket.subset h.2⟩
  | getWalk coro current =>
      obtain ⟨hin, ys, hys, hcurrent, hnode⟩ := h
      exact ⟨hadded.mpr hin, ys, hys.trans hbucket, hcurrent,
        hf.hasNode hu (List.Subset.refl _) hnode⟩
  | yeilding coro curCoro => exact ⟨hadded.mpr h.1, h.2⟩

/-- Linking a node makes its thread linked. -/
theorem linked_publish
    {i a coro u : ℕ} :
    ((s.setBucket i a).goto t (.sizeRead coro)).Linked u ↔
      u = t ∨ s.Linked u := by
  by_cases hu : u = t
  · subst hu
    exact iff_of_true (Or.inr (by rw [State.pc_goto_self]; trivial))
      (Or.inl rfl)
  · have hsame : ((s.setBucket i a).goto t (.sizeRead coro)).pc u = s.pc u :=
      Function.update_of_ne hu _ _
    rw [State.Linked, hsame]
    exact (or_iff_right hu).symm

namespace Inv

theorem facts_of_frame
    (h : Inv capacity s lists) (hf : Frame t s s' lists lists')
    (hfacts : Facts capacity s' lists' t (s'.pc t)) (u : ℕ) :
    Facts capacity s' lists' u (s'.pc u) := by
  by_cases hu : u = t
  · exact hu ▸ hfacts
  · rw [hf.pc u hu]
    exact hf.facts hu (h.facts u)

/-- A step of `t` that leaves the lists of the buckets alone. -/
theorem of_nodes
    (h : Inv capacity s lists) (hbuckets : s'.buckets = s.buckets)
    (hnodes : ∀ i, ∀ a ∈ lists i, ∀ n, s.nodes a = some n →
      ∃ n', s'.nodes a = some n' ∧ n'.tid = n.tid ∧ n'.next = n.next)
    (hother : ∀ a n, s.nodes a = some n → n.tid ≠ t → s'.nodes a = some n)
    (hpc : ∀ u, u ≠ t → s'.pc u = s.pc u)
    (hadded : ∀ u, u ≠ t → (u ∈ s'.added ↔ u ∈ s.added))
    (hlinked : s'.Linked t ↔ s.Linked t)
    (hfresh : ∀ a, s'.allocated ≤ a → s'.nodes a = none)
    (hsize : s'.size = s'.added.length) (hnodup : s'.added.Nodup)
    (hfacts : Facts capacity s' lists t (s'.pc t)) : Inv capacity s' lists := by
  have htids : ∀ i, ∀ a ∈ lists i, s'.tidOf a = s.tidOf a := by
    intro i a ha
    obtain ⟨n, hn⟩ := (h.chain i).exists_cell ha
    obtain ⟨n', hn', htid, -⟩ := hnodes i a ha n hn
    simp [State.tidOf, hn, hn', htid]
  have hmap : ∀ i, (lists i).map s'.tidOf = (lists i).map s.tidOf :=
    fun i => List.map_congr_left (htids i)
  have hall : ∀ u, s'.Linked u ↔ s.Linked u := by
    intro u
    by_cases hu : u = t
    · exact hu ▸ hlinked
    · rw [State.Linked, State.Linked, hadded u hu, hpc u hu]
  constructor
  · intro i
    rw [hbuckets]
    refine (h.chain i).congr fun a ha n hn => ?_
    obtain ⟨n', hn', -, hnext⟩ := hnodes i a ha n hn
    exact ⟨n', hn', hnext⟩
  · intro i
    rw [hmap]
    exact h.nodup i
  · intro i u
    rw [hmap, hall]
    exact h.mem_iff i u
  · exact hfresh
  · exact hsize
  · exact hnodup
  · exact h.facts_of_frame
      ⟨hother, htids, fun i => List.suffix_refl _, hadded, hpc⟩ hfacts

/-- A step of `t` that changes nothing but its place. -/
theorem goto
    {p : Pc} (h : Inv capacity s lists)
    (hpending : p.Pending ↔ (s.pc t).Pending)
    (hfacts : Facts capacity s lists t p) :
    Inv capacity (s.goto t p) lists := by
  have hpc := s.pc_goto_self t p
  refine h.of_nodes (t := t) rfl (fun i a ha n hn => ⟨n, hn, rfl, rfl⟩)
    (fun a n hn _ => hn) (fun u hu => Function.update_of_ne hu _ _)
    (fun u _ => Iff.rfl) ?_ h.fresh h.size_eq h.added ?_
  · rw [State.Linked, State.Linked, hpc, hpending]
    exact Iff.rfl
  · rw [hpc]
    -- the facts do not mention where the threads are
    cases p <;> exact hfacts

theorem linked_of_mem
    {a i : ℕ} {n : CoroNode} (h : Inv capacity s lists) (ha : a ∈ lists i)
    (hn : s.nodes a = some n) : s.Linked n.tid := by
  have hmem : some n.tid ∈ (lists i).map s.tidOf :=
    List.mem_map.mpr ⟨a, ha, by simp [State.tidOf, hn]⟩
  exact ((h.mem_iff i n.tid).mp hmem).1

theorem mem_of_linked
    (h : Inv capacity s lists) (hlinked : s.Linked t) :
    some t ∈ (lists (index capacity t)).map s.tidOf :=
  (h.mem_iff _ t).mpr ⟨hlinked, rfl⟩

/-- The walk is at a node of the list. -/
theorem cell
    {i a : ℕ} {ys : List ℕ} (h : Inv capacity s lists)
    (hys : ys <:+ lists i) (hcurrent : some a = ys.head?) :
    ∃ n zs, ys = a :: zs ∧ s.nodes a = some n ∧ n.next = zs.head? ∧
      zs <:+ lists i := by
  obtain ⟨zs, rfl⟩ : ∃ zs, ys = a :: zs := by
    cases ys with
    | nil => cases hcurrent
    | cons b zs =>
        obtain rfl : a = b := Option.some.inj hcurrent
        exact ⟨zs, rfl⟩
  obtain ⟨front, hfront⟩ := hys
  obtain ⟨n, hn, hnext⟩ := (hfront ▸ h.chain i).cell
  exact ⟨n, zs, rfl, hn, hnext, front ++ [a], by simp [← hfront]⟩

/-! ## One step of `coro_map_add` -/

theorem addHead
    {coro : ℕ} (h : Inv capacity s lists) (hpc : s.pc t = .addHead coro) :
    Inv capacity
      (s.goto t (.addWalk coro (s.buckets (index capacity t)))) lists := by
  refine h.goto (by simp [hpc, Pc.Pending]) ?_
  exact ⟨_, List.suffix_refl _, (h.chain _).head_eq,
    fun hin => h.mem_of_linked (Or.inl hin)⟩

theorem addWalk_none
    {coro : ℕ} (h : Inv capacity s lists)
    (hpc : s.pc t = .addWalk coro none) :
    Inv capacity (s.goto t (.addMalloc coro)) lists := by
  refine h.goto (by simp [hpc, Pc.Pending]) fun hin => ?_
  have hfacts := h.facts t
  rw [hpc] at hfacts
  obtain ⟨ys, -, hcurrent, hmem⟩ := hfacts
  obtain rfl : ys = [] := List.head?_eq_none_iff.mp hcurrent.symm
  exact absurd (hmem hin) (by simp)

theorem addWalk_next
    {coro a : ℕ} {n : CoroNode} (h : Inv capacity s lists)
    (hpc : s.pc t = .addWalk coro (some a)) (hn : s.nodes a = some n)
    (hne : n.tid ≠ t) :
    Inv capacity (s.goto t (.addWalk coro n.next)) lists := by
  refine h.goto (by simp [hpc, Pc.Pending]) ?_
  have hfacts := h.facts t
  rw [hpc] at hfacts
  obtain ⟨ys, hys, hcurrent, hmem⟩ := hfacts
  obtain ⟨n', zs, rfl, hn', hnext, hzs⟩ := h.cell hys hcurrent
  obtain rfl := Option.some.inj (hn.symm.trans hn')
  refine ⟨zs, hzs, hnext, fun hin => ?_⟩
  rcases List.mem_cons.mp (hmem hin) with hhead | hrest
  · rw [State.tidOf, hn] at hhead
    exact absurd (Option.some.inj hhead).symm hne
  · exact hrest

/-- The thread has a node already, which gets the new coroutine. -/
theorem addWalk_found
    {coro a : ℕ} {n : CoroNode} (h : Inv capacity s lists)
    (hpc : s.pc t = .addWalk coro (some a)) (hn : s.nodes a = some n)
    (htid : n.tid = t) :
    Inv capacity (((s.setNode a { n with coro := coro }).noteAdded t).goto t
      (.running coro)) lists := by
  have hfacts := h.facts t
  rw [hpc] at hfacts
  obtain ⟨ys, hys, hcurrent, -⟩ := hfacts
  obtain ⟨n', zs, rfl, -, -, -⟩ := h.cell hys hcurrent
  have ha : a ∈ lists (index capacity t) := hys.subset List.mem_cons_self
  have hin : t ∈ s.added := by
    have hlinked := h.linked_of_mem ha hn
    rw [htid] at hlinked
    simpa [State.Linked, hpc, Pc.Pending] using hlinked
  have hsame : ((s.setNode a { n with coro := coro }).noteAdded t).added =
      s.added := if_pos hin
  have hself : (Function.update s.nodes a
      (some { n with coro := coro })) a = some { n with coro := coro } :=
    Function.update_self ..
  refine h.of_nodes (t := t) rfl ?_ ?_
    (fun u hu => Function.update_of_ne hu _ _) ?_ ?_ ?_ ?_ ?_ ?_
  · intro i b hb m hm
    by_cases hba : b = a
    · subst hba
      obtain rfl := Option.some.inj (hm.symm.trans hn)
      exact ⟨_, hself, rfl, rfl⟩
    · exact ⟨m, (Function.update_of_ne hba _ _).trans hm, rfl, rfl⟩
  · intro b m hm hne
    refine (Function.update_of_ne ?_ _ _).trans hm
    rintro rfl
    obtain rfl := Option.some.inj (hm.symm.trans hn)
    exact hne htid
  · exact fun u _ => by rw [State.goto, hsame]
  · simp [State.Linked, State.goto, hsame, hin]
  · intro b hb
    refine (Function.update_of_ne ?_ _ _).trans (h.fresh b hb)
    rintro rfl
    exact absurd (hn.symm.trans (h.fresh b hb)) (by simp)
  · exact h.size_eq.trans (congrArg List.length hsame.symm)
  · exact hsame.symm ▸ h.added
  · rw [State.pc_goto_self]
    exact ⟨hsame.symm ▸ hin, a, ha, _, hself, htid, rfl⟩

theorem addMalloc
    {coro : ℕ} (h : Inv capacity s lists) (hpc : s.pc t = .addMalloc coro) :
    Inv capacity (({ s with allocated := s.allocated + 1 }.setNode s.allocated
      ⟨t, coro, none⟩).goto t (.addNext coro s.allocated)) lists := by
  have hnew := h.fresh s.allocated le_rfl
  have hold : ∀ b m, s.nodes b = some m → Function.update s.nodes s.allocated
      (some ⟨t, coro, none⟩) b = some m := by
    intro b m hm
    refine (Function.update_of_ne ?_ _ _).trans hm
    rintro rfl
    exact absurd (hm.symm.trans hnew) (by simp)
  refine h.of_nodes (t := t) rfl (fun i b _ m hm => ⟨m, hold b m hm, rfl, rfl⟩)
    (fun b m hm _ => hold b m hm) (fun u hu => Function.update_of_ne hu _ _)
    (fun u _ => Iff.rfl) ?_ ?_ h.size_eq h.added ?_
  · simp [State.Linked, State.goto, State.setNode, hpc, Pc.Pending]
  · intro b hb
    have hb' : s.allocated + 1 ≤ b := hb
    refine (Function.update_of_ne (by omega) _ _).trans (h.fresh b (by omega))
  · have hfacts := h.facts t
    rw [hpc] at hfacts
    rw [State.pc_goto_self]
    exact ⟨hfacts, s.allocated, List.mem_singleton.mpr rfl, _,
      Function.update_self .., rfl, rfl⟩

/-- A node that its thread has not linked is in no bucket. -/
theorem not_mem_of_new
    {a i : ℕ} {n : CoroNode} (h : Inv capacity s lists)
    (hn : s.nodes a = some n) (hin : n.tid ∉ s.added)
    (hpending : ¬(s.pc n.tid).Pending) : a ∉ lists i :=
  fun ha => (h.linked_of_mem ha hn).elim hin hpending

theorem addNext
    {coro new : ℕ} {n : CoroNode} {next : Option ℕ}
    (h : Inv capacity s lists) (hpc : s.pc t = .addNext coro new)
    (hn : s.nodes new = some n) :
    Inv capacity ((s.setNode new { n with next := next }).goto t
      (.addPublish coro new)) lists := by
  have hfacts := h.facts t
  rw [hpc] at hfacts
  obtain ⟨hin, a, ha, n', hn', htid, hcoro⟩ := hfacts
  obtain rfl := List.mem_singleton.mp ha
  obtain rfl := Option.some.inj (hn.symm.trans hn')
  have hpending : ¬(s.pc n.tid).Pending := by simp [htid, hpc, Pc.Pending]
  have hnot : ∀ i, a ∉ lists i :=
    fun i => h.not_mem_of_new hn (htid ▸ hin) hpending
  have hold : ∀ b m, b ≠ a → s.nodes b = some m →
      Function.update s.nodes a (some { n with next := next }) b = some m :=
    fun b m hba hm => (Function.update_of_ne hba _ _).trans hm
  refine h.of_nodes (t := t) rfl ?_ ?_
    (fun u hu => Function.update_of_ne hu _ _) (fun u _ => Iff.rfl) ?_ ?_
    h.size_eq h.added ?_
  · intro i b hb m hm
    exact ⟨m, hold b m (fun hba => hnot i (hba ▸ hb)) hm, rfl, rfl⟩
  · intro b m hm hne
    refine hold b m ?_ hm
    rintro rfl
    obtain rfl := Option.some.inj (hm.symm.trans hn)
    exact hne htid
  · simp [State.Linked, State.goto, State.setNode, hpc, Pc.Pending]
  · intro b hb
    refine (Function.update_of_ne ?_ _ _).trans (h.fresh b hb)
    rintro rfl
    exact absurd (hn.symm.trans (h.fresh b hb)) (by simp)
  · rw [State.pc_goto_self]
    exact ⟨hin, a, List.mem_singleton.mpr rfl, _, Function.update_self ..,
      htid, hcoro⟩

/-- The new node becomes the first one of its bucket. -/
theorem addPublish
    {coro new : ℕ} {n : CoroNode} (h : Inv capacity s lists)
    (hpc : s.pc t = .addPublish coro new) (hn : s.nodes new = some n)
    (hkeep : n.next = s.buckets (index capacity t)) :
    Inv capacity ((s.setBucket (index capacity t) new).goto t (.sizeRead coro))
      (Function.update lists (index capacity t)
        (new :: lists (index capacity t))) := by
  have hfacts := h.facts t
  rw [hpc] at hfacts
  obtain ⟨hin, a, ha, n', hn', htid, hcoro⟩ := hfacts
  obtain rfl := List.mem_singleton.mp ha
  obtain rfl := Option.some.inj (hn.symm.trans hn')
  have hpending : ¬(s.pc t).Pending := by simp [hpc, Pc.Pending]
  have hnot : ∀ i, a ∉ lists i := fun i =>
    h.not_mem_of_new hn (htid ▸ hin) (htid ▸ hpending)
  have htidOf : s.tidOf a = some t := by simp [State.tidOf, hn, htid]
  have hunlinked : some t ∉ (lists (index capacity t)).map s.tidOf :=
    fun hmem => ((h.mem_iff _ t).mp hmem).1.elim hin hpending
  constructor
  · refine (Function.forall_update_iff lists fun i xs => Chain CoroNode.next
      s.nodes (Function.update s.buckets (index capacity t) (some a) i)
        xs).mpr ⟨?_, fun i hi => ?_⟩
    · rw [Function.update_self]
      exact (h.chain _).push (hnot _) hn hkeep fun _ _ => rfl
    · rw [Function.update_of_ne hi]
      exact h.chain i
  · refine (Function.forall_update_iff lists fun _ xs =>
      (xs.map s.tidOf).Nodup).mpr ⟨?_, fun i _ => h.nodup i⟩
    rw [List.map_cons, htidOf]
    exact List.nodup_cons.mpr ⟨hunlinked, h.nodup _⟩
  · refine (Function.forall_update_iff lists fun i xs => ∀ u,
      some u ∈ xs.map s.tidOf ↔ ((s.setBucket (index capacity t) a).goto t
        (.sizeRead coro)).Linked u ∧ i = index capacity u).mpr
          ⟨fun u => ?_, fun i hi u => ?_⟩
    · rw [linked_publish, List.map_cons, List.mem_cons, htidOf, h.mem_iff,
        Option.some.injEq, or_and_right]
      exact or_congr_left ⟨fun hu => ⟨hu, by rw [hu]⟩, And.left⟩
    · rw [linked_publish, h.mem_iff, or_and_right]
      refine (or_iff_right ?_).symm
      rintro ⟨rfl, hi'⟩
      exact hi hi'
  · exact h.fresh
  · exact h.size_eq
  · exact h.added
  · have hlists : ∀ i, lists i <:+ Function.update lists (index capacity t)
        (a :: lists (index capacity t)) i :=
      (Function.forall_update_iff lists fun i xs => lists i <:+ xs).mpr
        ⟨List.suffix_cons _ _, fun i _ => List.suffix_refl _⟩
    refine h.facts_of_frame ⟨fun _ _ hm _ => hm, fun _ _ _ => rfl, hlists,
      fun _ _ => Iff.rfl, fun u hu => Function.update_of_ne hu _ _⟩ ?_
    rw [State.pc_goto_self]
    refine ⟨hin, a, ?_, n, hn, htid, hcoro⟩
    rw [Function.update_self]
    exact List.mem_cons_self

theorem sizeRead
    {coro : ℕ} (h : Inv capacity s lists) (hpc : s.pc t = .sizeRead coro) :
    Inv capacity (s.goto t (.sizeWrite coro s.size)) lists := by
  have hfacts := h.facts t
  rw [hpc] at hfacts
  exact h.goto (by simp [hpc, Pc.Pending]) hfacts

/-- The thread that has linked its node counts it. -/
theorem sizeWrite
    {coro : ℕ} (h : Inv capacity s lists)
    (hpc : s.pc t = .sizeWrite coro s.size) :
    Inv capacity (({ s with size := s.size + 1 }.noteAdded t).goto t
      (.running coro)) lists := by
  have hfacts := h.facts t
  rw [hpc] at hfacts
  obtain ⟨hin, hnode⟩ := hfacts
  have hadded : ({ s with size := s.size + 1 }.noteAdded t).added =
      s.added ++ [t] := if_neg hin
  refine h.of_nodes (t := t) rfl (fun i a _ n hn => ⟨n, hn, rfl, rfl⟩)
    (fun a n hn _ => hn) (fun u hu => Function.update_of_ne hu _ _) ?_ ?_
    h.fresh ?_ ?_ ?_
  · intro u hu
    rw [State.goto, hadded]
    simp [hu]
  · simp [State.Linked, State.goto, hadded, hpc, Pc.Pending]
  · rw [State.goto, hadded, List.length_append, ← h.size_eq]
    rfl
  · rw [State.goto, hadded]
    exact List.nodup_append.mpr ⟨h.added, List.nodup_singleton t,
      fun a ha b hb hab => hin (List.mem_singleton.mp hb ▸ hab ▸ ha)⟩
  · rw [State.pc_goto_self]
    refine ⟨?_, hnode⟩
    rw [State.goto, hadded]
    exact List.mem_append_right _ (List.mem_singleton.mpr rfl)

/-! ## One step of `coro_map_get` -/

theorem getHead
    {coro : ℕ} (h : Inv capacity s lists) (hpc : s.pc t = .getHead coro) :
    Inv capacity
      (s.goto t (.getWalk coro (s.buckets (index capacity t)))) lists := by
  have hfacts := h.facts t
  rw [hpc] at hfacts
  refine h.goto (by simp [hpc, Pc.Pending]) ?_
  exact ⟨hfacts.1, _, List.suffix_refl _, (h.chain _).head_eq, hfacts.2⟩

/-- The walk of `coro_map_get` is at a node.  When the node is the one of the
thread, it has the running coroutine, and otherwise that node comes later. -/
theorem getWalk
    {coro : ℕ} {current : Option ℕ} (h : Inv capacity s lists)
    (hpc : s.pc t = .getWalk coro current) :
    ∃ a n, current = some a ∧ s.nodes a = some n ∧
      (n.tid = t → n.coro = coro) ∧
      (n.tid ≠ t → Inv capacity (s.goto t (.getWalk coro n.next)) lists) := by
  have hfacts := h.facts t
  rw [hpc] at hfacts
  obtain ⟨hin, ys, hys, hcurrent, b, hb, m, hm, hmtid, hmcoro⟩ := hfacts
  obtain ⟨a, ha⟩ : ∃ a, current = some a := by
    cases ys with
    | nil => cases hb
    | cons a zs => exact ⟨a, hcurrent⟩
  subst ha
  obtain ⟨n, zs, rfl, hn, hnext, hzs⟩ := h.cell hys hcurrent
  refine ⟨a, n, rfl, hn, fun htid => ?_, fun hne => ?_⟩
  · -- a bucket has one node for each thread
    have hab : a = b := by
      refine List.inj_on_of_nodup_map (h.nodup _)
        (hys.subset List.mem_cons_self) (hys.subset hb) ?_
      simp [State.tidOf, hn, hm, htid, hmtid]
    subst hab
    obtain rfl := Option.some.inj (hn.symm.trans hm)
    exact hmcoro
  · refine h.goto (by simp [hpc, Pc.Pending]) ?_
    refine ⟨hin, zs, hzs, hnext, b, ?_, m, hm, hmtid, hmcoro⟩
    rcases List.mem_cons.mp hb with rfl | hrest
    · obtain rfl := Option.some.inj (hn.symm.trans hm)
      exact absurd hmtid hne
    · exact hrest

theorem getWalk_found
    {coro : ℕ} {current : Option ℕ} (h : Inv capacity s lists)
    (hpc : s.pc t = .getWalk coro current) :
    Inv capacity (s.goto t (.yeilding coro (some coro))) lists := by
  have hfacts := h.facts t
  rw [hpc] at hfacts
  exact h.goto (by simp [hpc, Pc.Pending]) ⟨hfacts.1, rfl⟩

end Inv

/-! ## Runs -/

/-- What a step of a thread in `coro_map_add` or `coro_map_get` leads to. -/
theorem Inv.advance
    (h : Inv capacity s lists) (hkeep : KeepsUpdates capacity s (.advance t))
    (hstep : advance capacity s t = some s') :
    ∃ lists', Inv capacity s' lists' := by
  obtain ⟨hpublish, hwrite⟩ := hkeep t rfl
  unfold SharedMap.advance at hstep
  split at hstep
  next coro hpc =>
    obtain rfl := Option.some.inj hstep
    exact ⟨lists, h.addHead hpc⟩
  next coro hpc =>
    obtain rfl := Option.some.inj hstep
    exact ⟨lists, h.addWalk_none hpc⟩
  next coro current hpc =>
    obtain ⟨n, hn, rfl⟩ := Option.map_eq_some_iff.mp hstep
    split
    next htid => exact ⟨lists, h.addWalk_found hpc hn htid⟩
    next hne => exact ⟨lists, h.addWalk_next hpc hn hne⟩
  next coro hpc =>
    obtain rfl := Option.some.inj hstep
    exact ⟨lists, h.addMalloc hpc⟩
  next coro new hpc =>
    obtain ⟨n, hn, rfl⟩ := Option.map_eq_some_iff.mp hstep
    exact ⟨lists, h.addNext hpc hn⟩
  next coro new hpc =>
    obtain rfl := Option.some.inj hstep
    have hfacts := h.facts t
    rw [hpc] at hfacts
    obtain ⟨-, a, ha, n, hn, -, -⟩ := hfacts
    obtain rfl := List.mem_singleton.mp ha
    exact ⟨_, h.addPublish hpc hn (hpublish coro a n hpc hn)⟩
  next coro hpc =>
    obtain rfl := Option.some.inj hstep
    exact ⟨lists, h.sizeRead hpc⟩
  next coro size hpc =>
    obtain rfl := Option.some.inj hstep
    obtain rfl := hwrite coro size hpc
    exact ⟨lists, h.sizeWrite hpc⟩
  next coro hpc =>
    obtain rfl := Option.some.inj hstep
    exact ⟨lists, h.getHead hpc⟩
  next coro hpc =>
    obtain ⟨a, n, hnone, -⟩ := h.getWalk hpc
    cases hnone
  next coro current hpc =>
    obtain ⟨n, hn, rfl⟩ := Option.map_eq_some_iff.mp hstep
    obtain ⟨a, n', ha, hn', hfound, hnext⟩ := h.getWalk hpc
    obtain rfl := Option.some.inj ha
    obtain rfl := Option.some.inj (hn.symm.trans hn')
    split
    next htid =>
      rw [hfound htid]
      exact ⟨lists, h.getWalk_found hpc⟩
    next hne => exact ⟨lists, hnext hne⟩
  next coro curCoro hpc =>
    obtain rfl := Option.some.inj hstep
    exact ⟨lists, h.goto (by simp [hpc, Pc.Pending]) trivial⟩
  next => cases hstep
  next => cases hstep
  next => cases hstep

theorem Inv.step
    {a : Action} (h : Inv capacity s lists) (hkeep : KeepsUpdates capacity s a)
    (hstep : step capacity s a = some s') : ∃ lists', Inv capacity s' lists' := by
  cases a with
  | schedule tid coro =>
      obtain ⟨hpc, hs'⟩ := Option.ite_none_right_eq_some.mp hstep
      obtain rfl := Option.some.inj hs'
      exact ⟨lists, h.goto (by simp [hpc, Pc.Pending]) trivial⟩
  | advance tid => exact h.advance hkeep hstep
  | yeild tid =>
      simp only [SharedMap.step] at hstep
      split at hstep
      next coro hpc =>
        obtain rfl := Option.some.inj hstep
        have hfacts := h.facts tid
        rw [hpc] at hfacts
        exact ⟨lists, h.goto (by simp [hpc, Pc.Pending]) hfacts⟩
      next => cases hstep
  | finish tid =>
      simp only [SharedMap.step] at hstep
      split at hstep
      next coro hpc =>
        obtain rfl := Option.some.inj hstep
        exact ⟨lists, h.goto (by simp [hpc, Pc.Pending]) trivial⟩
      next => cases hstep

theorem inv_of_reachable
    (hs : (mapSystem capacity).ReachableUnder (KeepsUpdates capacity) s) :
    ∃ lists, Inv capacity s lists := by
  refine TransitionSystem.ReachableUnder.invariant
    (P := fun s => ∃ lists, Inv capacity s lists) ?_ ?_ hs
  · rintro s rfl
    exact ⟨_, inv_start capacity⟩
  · rintro s a s' ⟨lists, h⟩ hkeep hstep
    exact h.step hkeep hstep

/-! ## The walk of `coro_map_get` ends -/

/-- A step of a thread moves no other thread, and writes at most one node: a
new one, or one whose link it keeps, or the one it is about to link. -/
theorem advance_cases
    {u : ℕ} (hstep : advance capacity s u = some s') :
    (∀ v, v ≠ u → s'.pc v = s.pc v) ∧
      (s'.nodes = s.nodes ∨
        (∃ m, s'.nodes = Function.update s.nodes s.allocated m) ∨
        ∃ a n m, s.nodes a = some n ∧
          s'.nodes = Function.update s.nodes a (some m) ∧
          (m.next = n.next ∨ ∃ coro, s.pc u = .addNext coro a)) := by
  have hpc : ∀ (s : State) p v, v ≠ u → (s.goto u p).pc v = s.pc v :=
    fun s p v hv => Function.update_of_ne hv _ _
  unfold SharedMap.advance at hstep
  split at hstep
  next => exact Option.some.inj hstep ▸ ⟨hpc _ _, Or.inl rfl⟩
  next => exact Option.some.inj hstep ▸ ⟨hpc _ _, Or.inl rfl⟩
  next coro current _ =>
    obtain ⟨n, hn, rfl⟩ := Option.map_eq_some_iff.mp hstep
    split
    · exact ⟨hpc _ _, Or.inr (Or.inr ⟨current, n, _, hn, rfl, Or.inl rfl⟩)⟩
    · exact ⟨hpc _ _, Or.inl rfl⟩
  next => exact Option.some.inj hstep ▸ ⟨hpc _ _, Or.inr (Or.inl ⟨_, rfl⟩)⟩
  next coro new hnext =>
    obtain ⟨n, hn, rfl⟩ := Option.map_eq_some_iff.mp hstep
    exact ⟨hpc _ _,
      Or.inr (Or.inr ⟨new, n, _, hn, rfl, Or.inr ⟨coro, hnext⟩⟩)⟩
  next => exact Option.some.inj hstep ▸ ⟨hpc _ _, Or.inl rfl⟩
  next => exact Option.some.inj hstep ▸ ⟨hpc _ _, Or.inl rfl⟩
  next => exact Option.some.inj hstep ▸ ⟨hpc _ _, Or.inl rfl⟩
  next => exact Option.some.inj hstep ▸ ⟨hpc _ _, Or.inl rfl⟩
  next => exact Option.some.inj hstep ▸ ⟨hpc _ _, Or.inl rfl⟩
  next =>
    obtain ⟨n, -, rfl⟩ := Option.map_eq_some_iff.mp hstep
    split <;> exact ⟨hpc _ _, Or.inl rfl⟩
  next => exact Option.some.inj hstep ▸ ⟨hpc _ _, Or.inl rfl⟩
  next => cases hstep
  next => cases hstep
  next => cases hstep

/-- The links of the nodes in the buckets do not change. -/
theorem Inv.link_kept
    {u i a : ℕ} {n : CoroNode} (h : Inv capacity s lists)
    (hstep : SharedMap.advance capacity s u = some s') (ha : a ∈ lists i)
    (hn : s.nodes a = some n) :
    ∃ n', s'.nodes a = some n' ∧ n'.next = n.next := by
  obtain ⟨-, hsame | ⟨m, hnew⟩ | ⟨b, k, m, hk, hset, hnext⟩⟩ :=
    advance_cases hstep
  · exact ⟨n, hsame ▸ hn, rfl⟩
  · refine ⟨n, ?_, rfl⟩
    rw [hnew]
    refine (Function.update_of_ne ?_ _ _).trans hn
    rintro rfl
    exact absurd (hn.symm.trans (h.fresh _ le_rfl)) (by simp)
  · rw [hset]
    by_cases hab : a = b
    · subst hab
      obtain rfl := Option.some.inj (hn.symm.trans hk)
      refine ⟨m, Function.update_self .., ?_⟩
      refine hnext.resolve_right ?_
      rintro ⟨coro, hpc⟩
      have hfacts := h.facts u
      rw [hpc] at hfacts
      obtain ⟨hin, c, hc, n', hn', htid, -⟩ := hfacts
      obtain rfl := List.mem_singleton.mp hc
      obtain rfl := Option.some.inj (hn.symm.trans hn')
      exact h.not_mem_of_new hn (htid ▸ hin)
        (by simp [htid, hpc, Pc.Pending]) ha
    · exact ⟨n, (Function.update_of_ne hab _ _).trans hn, rfl⟩

open Classical in
/-- The number of nodes from `current` on. -/
noncomputable def State.walkLength (s : State) (current : Option ℕ) : ℕ :=
  if h : ∃ xs, Chain CoroNode.next s.nodes current xs then h.choose.length
  else 0

theorem State.walkLength_eq
    {current : Option ℕ} {xs : List ℕ}
    (hc : Chain CoroNode.next s.nodes current xs) :
    s.walkLength current = xs.length := by
  have h : ∃ xs, Chain CoroNode.next s.nodes current xs := ⟨xs, hc⟩
  rw [State.walkLength, dif_pos h, h.choose_spec.unique hc]

/-- The steps left to a walk of `coro_map_get`. -/
noncomputable def State.walkLeft (s : State) (t : ℕ) : ℕ :=
  match s.pc t with
  | .getWalk _ current => s.walkLength current + 1
  | _ => 0

theorem State.walkLeft_eq
    {coro : ℕ} {current : Option ℕ} {xs : List ℕ}
    (hpc : s.pc t = .getWalk coro current)
    (hc : Chain CoroNode.next s.nodes current xs) :
    s.walkLeft t = xs.length + 1 := by
  simp only [State.walkLeft, hpc, State.walkLength_eq hc]

/-- The thread is in the walk, or has the running coroutine from it. -/
def State.Walks (s : State) (t coro : ℕ) : Prop :=
  (∃ current, s.pc t = .getWalk coro current) ∨
    s.pc t = .yeilding coro (some coro)

theorem Inv.walk_step
    {coro : ℕ} {a : Action} (h : Inv capacity s lists)
    (hwalks : s.Walks t coro) (hgoal : s.pc t ≠ .yeilding coro (some coro))
    (hstep : SharedMap.step capacity s a = some s') :
    s'.Walks t coro ∧
      s'.walkLeft t + (if decide (a = .advance t) then 1 else 0) ≤
        s.walkLeft t := by
  obtain ⟨current, hpc⟩ := hwalks.resolve_right hgoal
  have hfacts := h.facts t
  rw [hpc] at hfacts
  obtain ⟨-, ys, hys, hcurrent, -⟩ := hfacts
  obtain ⟨front, hfront⟩ := hys
  have hchain : Chain CoroNode.next s.nodes current ys :=
    hcurrent ▸ (hfront ▸ h.chain _).drop
  have hleft := State.walkLeft_eq hpc hchain
  -- a step that does not move the thread keeps the nodes it still has to visit
  have hkept : ∀ s' : State, s'.pc t = s.pc t →
      (∀ a ∈ ys, ∀ n, s.nodes a = some n →
        ∃ n', s'.nodes a = some n' ∧ n'.next = n.next) →
      s'.Walks t coro ∧ s'.walkLeft t ≤ s.walkLeft t := by
    intro s' hsame hlinks
    have hpc' := hsame.trans hpc
    refine ⟨Or.inl ⟨current, hpc'⟩, ?_⟩
    rw [hleft, State.walkLeft_eq hpc' (hchain.congr hlinks)]
  have hgoto : ∀ u p, u ≠ t → (s.goto u p).Walks t coro ∧
      (s.goto u p).walkLeft t ≤ s.walkLeft t := fun u p hu =>
    hkept _ (Function.update_of_ne hu.symm _ _) fun _ _ n hn => ⟨n, hn, rfl⟩
  cases a with
  | schedule u c =>
      obtain ⟨hidle, hs'⟩ := Option.ite_none_right_eq_some.mp hstep
      obtain rfl := Option.some.inj hs'
      exact hgoto u _ (by rintro rfl; simp [hpc] at hidle)
  | yeild u =>
      simp only [SharedMap.step] at hstep
      split at hstep
      next hrun =>
        obtain rfl := Option.some.inj hstep
        exact hgoto u _ (by rintro rfl; simp [hpc] at hrun)
      next => cases hstep
  | finish u =>
      simp only [SharedMap.step] at hstep
      split at hstep
      next hrun =>
        obtain rfl := Option.some.inj hstep
        exact hgoto u _ (by rintro rfl; simp [hpc] at hrun)
      next => cases hstep
  | advance u =>
      by_cases hu : u = t
      · subst hu
        obtain ⟨b, n, rfl, hn, hfound, -⟩ := h.getWalk hpc
        simp only [SharedMap.step, SharedMap.advance, hpc, hn, Option.map_some,
          Option.some.injEq] at hstep
        subst hstep
        split
        next htid =>
          refine ⟨Or.inr ?_, ?_⟩
          · rw [State.pc_goto_self, hfound htid]
          · rw [hleft]
            simp [State.walkLeft, State.pc_goto_self]
        next =>
          have hpc' := s.pc_goto_self u (.getWalk coro n.next)
          refine ⟨Or.inl ⟨n.next, hpc'⟩, ?_⟩
          cases hchain with
          | @cons _ m zs hm htail =>
              obtain rfl := Option.some.inj (hn.symm.trans hm)
              rw [hleft, State.walkLeft_eq hpc' htail]
              simp
      · have hkeeps := hkept s' ((advance_cases hstep).1 t (Ne.symm hu))
          fun b hb m hm => h.link_kept (i := index capacity t) hstep
            (hfront ▸ List.mem_append_right _ hb) hm
        simpa [hu] using hkeeps

theorem Inv.returns
    {coro : ℕ} {current : Option ℕ} (h : Inv capacity s lists)
    (hpc : s.pc t = .getWalk coro current) {as : List Action}
    (hkeep : (mapSystem capacity).RunAllowed (KeepsUpdates capacity) s as)
    (hrun : (mapSystem capacity).run s as = some s')
    (hcount : s.walkLeft t ≤ as.countP (· = .advance t)) :
    ∃ pre, pre <+: as ∧ ∃ s'', (mapSystem capacity).run s pre = some s'' ∧
      s''.pc t = .yeilding coro (some coro) := by
  refine TransitionSystem.exists_prefix_of_measure
    (I := fun s => (∃ lists, Inv capacity s lists) ∧ s.Walks t coro)
    (fun s => s.pc t = .yeilding coro (some coro))
    (fun a => decide (a = .advance t)) (fun s => s.walkLeft t) ?_ ?_
    ⟨⟨lists, h⟩, Or.inl ⟨current, hpc⟩⟩ hkeep hrun hcount
  · rintro s ⟨-, hwalks⟩ hgoal
    obtain ⟨current, hpc⟩ := hwalks.resolve_right hgoal
    simp [State.walkLeft, hpc]
  · rintro s a s' ⟨⟨lists, h⟩, hwalks⟩ hgoal hkeep hstep
    obtain ⟨hwalks', hless⟩ := h.walk_step hwalks hgoal hstep
    exact ⟨⟨h.step hkeep hstep, hwalks'⟩, hless⟩

/-! ## The map -/

theorem Inv.mapCorrect (h : Inv capacity s lists) : MapCorrect capacity s := by
  constructor
  · intro t coro r hpc
    have hfacts := h.facts t
    rw [hpc] at hfacts
    exact hfacts.2
  · intro t coro hin
    cases hpc : s.pc t <;> rw [hpc] at hin <;> try exact hin.elim
    · exact ⟨_, by simp only [SharedMap.step, SharedMap.advance, hpc]; rfl⟩
    · obtain ⟨a, n, rfl, hn, -⟩ := h.getWalk hpc
      exact ⟨_, by
        simp only [SharedMap.step, SharedMap.advance, hpc, hn, Option.map_some]
        rfl⟩
  · intro t coro current hpc
    exact ⟨s.walkLeft t, fun as s' hkeep hrun hcount =>
      h.returns hpc hkeep hrun hcount⟩
  · intro hquiet
    refine ⟨h.added, h.size_eq, lists, h.chain, fun i t => ?_⟩
    have hlinked : s.Linked t ↔ t ∈ s.added := by
      refine or_iff_left fun hpending => hquiet t ?_
      cases hpc : s.pc t <;> rw [hpc] at hpending <;>
        first | exact hpending.elim | trivial
    have hmem := h.mem_iff i t
    rw [hlinked] at hmem
    split
    next hin => exact List.count_eq_one_of_mem (h.nodup i) (hmem.mpr hin)
    next hout => exact List.count_eq_zero.mpr fun hin => hout (hmem.mp hin)

end Steps

/-- For any number of threads with any ids: in every state that is reached
without a lost update, `coro_map_get` gives each thread its running coroutine,
and the map has one node for each thread that added one. -/
theorem mapCorrect_of_keepsUpdates
    (capacity : ℕ) {s : State}
    (hs : (mapSystem capacity).ReachableUnder (KeepsUpdates capacity) s) :
    MapCorrect capacity s := by
  obtain ⟨lists, h⟩ := inv_of_reachable hs
  exact h.mapCorrect

/-- The test of `KeepsUpdates`. -/
def keepsUpdates (capacity : ℕ) (s : State) : Action → Bool
  | .advance tid =>
      match s.pc tid with
      | .addPublish _ new =>
          (s.nodes new).all fun n => n.next = s.buckets (index capacity tid)
      | .sizeWrite _ size => size = s.size
      | _ => true
  | _ => true

theorem keepsUpdates_of_check
    (capacity : ℕ) (s : State) (a : Action)
    (h : keepsUpdates capacity s a = true) : KeepsUpdates capacity s a := by
  rintro tid rfl
  constructor
  · intro coro new n hpc hn
    simpa [keepsUpdates, hpc, hn] using h
  · intro coro size hpc
    simpa [keepsUpdates, hpc] using h

/-- A thread takes `n` steps. -/
def advances (tid n : ℕ) : List Action := List.replicate n (.advance tid)

/-- The schedulers of two threads whose ids fall into one bucket. -/
def bothSchedule : List Action := [.schedule 1 5, .schedule 17 6]

/-- They walk the bucket at the same time, link their nodes one after the other,
and the first one yields. -/
def linkedInTurn : List Action :=
  bothSchedule ++ (advances 1 2 ++ (advances 17 2 ++ (advances 1 5 ++
    (advances 17 5 ++ (.yeild 1 :: advances 1 1)))))

theorem mapCorrect_of_keepsUpdates_linkedInTurn :
    ∃ s, (mapSystem mapCapacity).runWhile (keepsUpdates mapCapacity) start
      linkedInTurn = some s ∧ MapCorrect mapCapacity s := by
  have hsome : ((mapSystem mapCapacity).runWhile (keepsUpdates mapCapacity)
      start linkedInTurn).isSome = true := rfl
  obtain ⟨s, hrun⟩ := Option.isSome_iff_exists.mp hsome
  exact ⟨s, hrun, mapCorrect_of_keepsUpdates mapCapacity
    (TransitionSystem.ReachableUnder.runWhile
      (keepsUpdates_of_check mapCapacity) (.initial rfl) hrun)⟩

/-- Both threads read the head of the bucket before either writes it, and then
the first one yields. -/
def linkedAtOnce : List Action :=
  bothSchedule ++ (advances 1 4 ++ (advances 17 4 ++ (advances 1 1 ++
    (advances 17 1 ++ (advances 1 2 ++ (.yeild 1 :: advances 1 3))))))

/-- The node of the first thread is lost, and its `yeild` finds no coroutine. -/
theorem not_mapCorrect_linkedAtOnce :
    ¬∀ s, (mapSystem mapCapacity).Reachable s → MapCorrect mapCapacity s := by
  intro hall
  have hlast : ((mapSystem mapCapacity).run start linkedAtOnce).map
      (fun s => s.pc 1) = some (.yeilding 5 none) := rfl
  obtain ⟨s, hrun, hpc⟩ := Option.map_eq_some_iff.mp hlast
  have hreach : (mapSystem mapCapacity).Reachable s :=
    TransitionSystem.Reachable.run (.initial rfl) hrun
  exact absurd ((hall s hreach).found 1 5 none hpc) (by simp)

end SharedMap
end Coroutine
end OsFifthSem
