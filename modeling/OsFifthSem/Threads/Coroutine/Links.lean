import OsFifthSem.Threads.Coroutine.SharedMap

/-!
# The map without its size

`coro_map_get` never reads the size, so an update of it that is lost harms
nobody.  What the threads know about the buckets holds of every run in which
no head of a bucket is overwritten, and no head is when the threads that use
the map have buckets of their own.
-/

namespace OsFifthSem
namespace Coroutine
namespace SharedMap

open Support

/-- If this step writes the head of a bucket, no other thread has written it
since the thread read it. -/
def KeepsLinks (capacity : ℕ) (s : State) (a : Action) : Prop :=
  ∀ tid, a = .advance tid → ∀ coro new n, s.pc tid = .addPublish coro new →
    s.nodes new = some n → n.next = s.buckets (index capacity tid)

/-- The thread that takes the step. -/
def Action.thread : Action → ℕ
  | .schedule tid _ | .advance tid | .yeild tid | .finish tid => tid

namespace State

/-- The map with another size. -/
def resize (s : State) (size : ℕ) : State := { s with size := size }

/-- The map with the size that it should have. -/
def recount (s : State) : State := s.resize s.added.length

end State

section Steps

variable {capacity t : ℕ} {s s' : State} {lists lists' : ℕ → List ℕ}

/-! ## Steps that do not depend on the size -/

/-- Away from `map->size++` the size is neither read nor written. -/
theorem advance_resize
    (hread : ∀ coro, s.pc t ≠ .sizeRead coro)
    (hwrite : ∀ coro v, s.pc t ≠ .sizeWrite coro v)
    (hstep : advance capacity s t = some s') (size : ℕ) :
    advance capacity (s.resize size) t = some (s'.resize size) := by
  have hpc : (s.resize size).pc t = s.pc t := rfl
  unfold SharedMap.advance at hstep ⊢
  rw [hpc]
  cases h : s.pc t with
  | sizeRead coro => exact absurd h (hread coro)
  | sizeWrite coro v => exact absurd h (hwrite coro v)
  | idle | running => rw [h] at hstep; cases hstep
  | addHead | addMalloc | addPublish | getHead =>
      rw [h] at hstep
      exact Option.some.inj hstep ▸ rfl
  | addNext coro new =>
      rw [h] at hstep
      obtain ⟨n, hn, rfl⟩ := Option.map_eq_some_iff.mp hstep
      exact Option.map_eq_some_iff.mpr ⟨n, hn, rfl⟩
  | addWalk coro current | getWalk coro current =>
      rw [h] at hstep
      cases current with
      | none => exact Option.some.inj hstep ▸ rfl
      | some a =>
          obtain ⟨n, hn, rfl⟩ := Option.map_eq_some_iff.mp hstep
          refine Option.map_eq_some_iff.mpr ⟨n, hn, ?_⟩
          split <;> rfl
  | yeilding coro curCoro =>
      rw [h] at hstep
      cases curCoro with
      | none => cases hstep
      | some cur => exact Option.some.inj hstep ▸ rfl

theorem step_resize
    {a : Action} (hread : ∀ coro, s.pc a.thread ≠ .sizeRead coro)
    (hwrite : ∀ coro v, s.pc a.thread ≠ .sizeWrite coro v)
    (hstep : step capacity s a = some s') (size : ℕ) :
    step capacity (s.resize size) a = some (s'.resize size) := by
  cases a with
  | schedule tid coro =>
      obtain ⟨hpc, hs'⟩ := Option.ite_none_right_eq_some.mp hstep
      obtain rfl := Option.some.inj hs'
      exact Option.ite_none_right_eq_some.mpr ⟨hpc, rfl⟩
  | advance tid => exact advance_resize hread hwrite hstep size
  | yeild tid | finish tid =>
      have hpc : (s.resize size).pc tid = s.pc tid := rfl
      simp only [SharedMap.step] at hstep ⊢
      rw [hpc]
      split at hstep
      next => exact Option.some.inj hstep ▸ rfl
      next => cases hstep

/-- Between linking its node and counting it, a thread is in `coro_map_add`. -/
theorem eq_advance_of_counting
    {a : Action} (hstep : step capacity s a = some s')
    (hpending : (s.pc a.thread).Pending) : ∃ tid, a = .advance tid := by
  cases a with
  | advance tid => exact ⟨tid, rfl⟩
  | schedule tid coro =>
      obtain ⟨hpc, -⟩ := Option.ite_none_right_eq_some.mp hstep
      change (s.pc tid).Pending at hpending
      rw [hpc] at hpending
      exact hpending.elim
  | yeild tid | finish tid =>
      change (s.pc tid).Pending at hpending
      simp only [SharedMap.step] at hstep
      split at hstep
      next hpc =>
        rw [hpc] at hpending
        exact hpending.elim
      next => cases hstep

/-! ## The invariant of the buckets -/

/-- What the invariant of the map says, but for the size. -/
def LinksInv (capacity : ℕ) (s : State) (lists : ℕ → List ℕ) : Prop :=
  Inv capacity s.recount lists

namespace LinksInv

theorem of_resize
    (size : ℕ) (h : Inv capacity (s.resize size) lists) :
    LinksInv capacity s lists := by
  have hsize : size = s.added.length := h.size_eq
  rw [LinksInv, State.recount, ← hsize]
  exact h

theorem start (capacity : ℕ) : LinksInv capacity start fun _ => [] :=
  inv_start capacity

theorem sizeRead
    {coro : ℕ} (h : LinksInv capacity s lists)
    (hpc : s.pc t = .sizeRead coro) :
    LinksInv capacity (s.goto t (.sizeWrite coro s.size)) lists := by
  have hfacts := h.facts t
  change Facts capacity _ lists t (s.pc t) at hfacts
  rw [hpc] at hfacts
  exact Inv.goto h (by simp [State.recount, State.resize, hpc, Pc.Pending])
    hfacts

/-- The thread counts its node, whatever it has read. -/
theorem sizeWrite
    {coro v : ℕ} (h : LinksInv capacity s lists)
    (hpc : s.pc t = .sizeWrite coro v) :
    LinksInv capacity (({ s with size := v + 1 }.noteAdded t).goto t
      (.running coro)) lists := by
  have hfacts := h.facts t
  change Facts capacity _ lists t (s.pc t) at hfacts
  rw [hpc] at hfacts
  -- the same state, had the thread read the size that the map should have
  let s₁ := s.recount.goto t (.sizeWrite coro s.added.length)
  have h₁ : Inv capacity s₁ lists :=
    Inv.goto h (by simp [State.recount, State.resize, hpc, Pc.Pending]) hfacts
  have hcounted := h₁.sizeWrite (State.pc_goto_self _ t _)
  refine of_resize (s.added.length + 1) ?_
  convert hcounted using 1
  simp [State.resize, State.recount, State.goto, State.noteAdded, s₁]

/-- A step away from `map->size++`. -/
theorem step_of_ne
    {a : Action} (h : LinksInv capacity s lists)
    (hkeep : KeepsLinks capacity s a)
    (hread : ∀ coro, s.pc a.thread ≠ .sizeRead coro)
    (hwrite : ∀ coro v, s.pc a.thread ≠ .sizeWrite coro v)
    (hstep : SharedMap.step capacity s a = some s') :
    ∃ lists', LinksInv capacity s' lists' := by
  have hkeep' : KeepsUpdates capacity s.recount a := by
    rintro tid rfl
    exact ⟨hkeep tid rfl, fun coro v hpc => absurd hpc (hwrite coro v)⟩
  obtain ⟨lists', h'⟩ := Inv.step h hkeep'
    (step_resize hread hwrite hstep s.added.length)
  exact ⟨lists', of_resize _ h'⟩

theorem step
    {a : Action} (h : LinksInv capacity s lists)
    (hkeep : KeepsLinks capacity s a)
    (hstep : SharedMap.step capacity s a = some s') :
    ∃ lists', LinksInv capacity s' lists' := by
  by_cases hread : ∃ coro, s.pc a.thread = .sizeRead coro
  · obtain ⟨coro, hpc⟩ := hread
    obtain ⟨tid, rfl⟩ := eq_advance_of_counting hstep (by simp [hpc, Pc.Pending])
    change s.pc tid = _ at hpc
    simp only [SharedMap.step, SharedMap.advance, hpc] at hstep
    exact Option.some.inj hstep ▸ ⟨lists, h.sizeRead hpc⟩
  by_cases hwrite : ∃ coro v, s.pc a.thread = .sizeWrite coro v
  · obtain ⟨coro, v, hpc⟩ := hwrite
    obtain ⟨tid, rfl⟩ := eq_advance_of_counting hstep (by simp [hpc, Pc.Pending])
    change s.pc tid = _ at hpc
    simp only [SharedMap.step, SharedMap.advance, hpc] at hstep
    exact Option.some.inj hstep ▸ ⟨lists, h.sizeWrite hpc⟩
  · simp only [not_exists] at hread hwrite
    exact h.step_of_ne hkeep hread hwrite hstep

/-- What the thread knows at its place. -/
theorem facts
    (h : LinksInv capacity s lists) (t : ℕ) :
    Facts capacity s lists t (s.pc t) := by
  have hfacts := Inv.facts h t
  change Facts capacity _ lists t (s.pc t) at hfacts
  cases hpc : s.pc t <;> rw [hpc] at hfacts <;> exact hfacts

/-- The threads in a bucket are those that have linked a node in it. -/
theorem mem_iff
    (h : LinksInv capacity s lists) (i u : ℕ) :
    some u ∈ (lists i).map s.tidOf ↔ s.Linked u ∧ i = index capacity u :=
  Inv.mem_iff h i u

end LinksInv

/-! ## Threads with buckets of their own -/

theorem State.mem_noteAdded {u : ℕ} (h : u ∈ (s.noteAdded t).added) :
    u ∈ s.added ∨ u = t := by
  unfold State.noteAdded at h
  split at h
  · exact Or.inl h
  · simpa using h

/-- A step moves no other thread, writes no other bucket and adds no other
thread to the map. -/
structure StepFrame (capacity t : ℕ) (s s' : State) : Prop where
  pc : ∀ u, u ≠ t → s'.pc u = s.pc u
  buckets : ∀ i, i ≠ index capacity t → s'.buckets i = s.buckets i
  added : ∀ u ∈ s'.added, u ∈ s.added ∨ u = t

/-- A step that moves the thread only. -/
theorem StepFrame.goto (s : State) (p : Pc) :
    StepFrame capacity t s (s.goto t p) :=
  ⟨fun _ hu => Function.update_of_ne hu _ _, fun _ _ => rfl, fun _ => Or.inl⟩

theorem step_frame
    {a : Action} (hstep : step capacity s a = some s') :
    StepFrame capacity a.thread s s' := by
  cases a with
  | schedule tid coro =>
      obtain ⟨-, hs'⟩ := Option.ite_none_right_eq_some.mp hstep
      exact Option.some.inj hs' ▸ .goto s _
  | yeild tid | finish tid =>
      simp only [SharedMap.step] at hstep
      split at hstep
      next => exact Option.some.inj hstep ▸ .goto s _
      next => cases hstep
  | advance tid =>
      have hpc := (advance_cases hstep).1
      change advance capacity s tid = some s' at hstep
      unfold SharedMap.advance at hstep
      cases h : s.pc tid with
      | idle | running => rw [h] at hstep; cases hstep
      | addHead | addMalloc | sizeRead | getHead =>
          rw [h] at hstep
          obtain rfl := Option.some.inj hstep
          exact ⟨hpc, fun _ _ => rfl, fun _ => Or.inl⟩
      | sizeWrite coro size =>
          rw [h] at hstep
          obtain rfl := Option.some.inj hstep
          exact ⟨hpc, fun _ _ => rfl, fun _ hu => State.mem_noteAdded hu⟩
      | addPublish coro new =>
          rw [h] at hstep
          obtain rfl := Option.some.inj hstep
          exact ⟨hpc, fun _ hi => Function.update_of_ne hi _ _, fun _ => Or.inl⟩
      | addNext coro new =>
          rw [h] at hstep
          obtain ⟨n, hn, rfl⟩ := Option.map_eq_some_iff.mp hstep
          exact ⟨hpc, fun _ _ => rfl, fun _ => Or.inl⟩
      | addWalk coro current =>
          rw [h] at hstep
          cases current with
          | none =>
              obtain rfl := Option.some.inj hstep
              exact ⟨hpc, fun _ _ => rfl, fun _ => Or.inl⟩
          | some a =>
              obtain ⟨n, hn, rfl⟩ := Option.map_eq_some_iff.mp hstep
              refine ⟨hpc, fun _ _ => by split <;> rfl, fun u hu => ?_⟩
              split at hu
              · exact State.mem_noteAdded hu
              · exact Or.inl hu
      | getWalk coro current =>
          rw [h] at hstep
          cases current with
          | none =>
              obtain rfl := Option.some.inj hstep
              exact ⟨hpc, fun _ _ => rfl, fun _ => Or.inl⟩
          | some a =>
              obtain ⟨n, hn, rfl⟩ := Option.map_eq_some_iff.mp hstep
              refine ⟨hpc, fun _ _ => by split <;> rfl, fun u hu => ?_⟩
              split at hu <;> exact Or.inl hu
      | yeilding coro curCoro =>
          rw [h] at hstep
          cases curCoro with
          | none => cases hstep
          | some cur =>
              obtain rfl := Option.some.inj hstep
              exact ⟨hpc, fun _ _ => rfl, fun _ => Or.inl⟩

/-- The links of the nodes in the buckets do not change. -/
theorem LinksInv.link_kept
    {a : Action} {i b : ℕ} {n : CoroNode} (h : LinksInv capacity s lists)
    (hstep : SharedMap.step capacity s a = some s') (hb : b ∈ lists i)
    (hn : s.nodes b = some n) :
    ∃ n', s'.nodes b = some n' ∧ n'.next = n.next := by
  cases a with
  | schedule tid coro =>
      obtain ⟨-, hs'⟩ := Option.ite_none_right_eq_some.mp hstep
      exact Option.some.inj hs' ▸ ⟨n, hn, rfl⟩
  | yeild tid | finish tid =>
      simp only [SharedMap.step] at hstep
      split at hstep
      next => exact Option.some.inj hstep ▸ ⟨n, hn, rfl⟩
      next => cases hstep
  | advance tid =>
      change advance capacity s tid = some s' at hstep
      cases hpc : s.pc tid with
      | sizeRead | sizeWrite =>
          simp only [SharedMap.advance, hpc] at hstep
          exact Option.some.inj hstep ▸ ⟨n, hn, rfl⟩
      | _ =>
          have hstep' := advance_resize (by simp [hpc]) (by simp [hpc]) hstep
            s.added.length
          have hkept := Inv.link_kept h hstep' hb hn
          exact hkept

/-- Nobody has written the head of a bucket since a thread that is about to
write it has read it. -/
def NotRaced (capacity : ℕ) (s : State) : Prop :=
  ∀ t coro new n, s.pc t = .addPublish coro new → s.nodes new = some n →
    n.next = s.buckets (index capacity t)

/-- No two of the threads use one bucket. -/
def OwnBuckets (capacity : ℕ) (workers : Finset ℕ) : Prop :=
  ∀ t ∈ workers, ∀ u ∈ workers, index capacity t = index capacity u → t = u

theorem NotRaced.keepsLinks
    (h : NotRaced capacity s) (a : Action) : KeepsLinks capacity s a :=
  fun tid _ => h tid

/-- The node that a thread is about to link keeps its link. -/
theorem LinksInv.new_kept
    {a : Action} {u coro new : ℕ} {n' : CoroNode}
    (h : LinksInv capacity s lists) (hu : u ≠ a.thread)
    (hpc : s.pc u = .addPublish coro new)
    (hstep : SharedMap.step capacity s a = some s') (hn' : s'.nodes new = some n') :
    ∃ n, s.nodes new = some n ∧ n.next = n'.next := by
  have hfacts := h.facts u
  rw [hpc] at hfacts
  obtain ⟨-, b, hb, n, hn, htid, -⟩ := hfacts
  obtain rfl := List.mem_singleton.mp hb
  refine ⟨n, hn, ?_⟩
  have hsame : s'.nodes = s.nodes → n.next = n'.next := by
    intro hnodes
    rw [hnodes, hn] at hn'
    exact congrArg CoroNode.next (Option.some.inj hn')
  cases a with
  | schedule tid c =>
      obtain ⟨-, hs'⟩ := Option.ite_none_right_eq_some.mp hstep
      exact hsame (Option.some.inj hs' ▸ rfl)
  | yeild tid | finish tid =>
      simp only [SharedMap.step] at hstep
      split at hstep
      next => exact hsame (Option.some.inj hstep ▸ rfl)
      next => cases hstep
  | advance tid =>
      obtain ⟨-, hnodes | ⟨m, hnew⟩ | ⟨c, k, m, hk, hset, hnext⟩⟩ :=
        advance_cases hstep
      · exact hsame hnodes
      · have hne : b ≠ s.allocated := by
          rintro rfl
          exact absurd (hn.symm.trans (Inv.fresh h _ le_rfl)) (by simp)
        rw [hnew, Function.update_of_ne hne, hn] at hn'
        exact congrArg CoroNode.next (Option.some.inj hn')
      · by_cases hbc : b = c
        · subst hbc
          obtain rfl := Option.some.inj (hn.symm.trans hk)
          rw [hset, Function.update_self] at hn'
          obtain rfl := Option.some.inj hn'
          refine (hnext.resolve_right ?_).symm
          -- a thread writes the link of its own new node only
          rintro ⟨coro', hpc'⟩
          have hfacts' := h.facts tid
          rw [hpc'] at hfacts'
          obtain ⟨-, d, hd, n₁, hn₁, htid', -⟩ := hfacts'
          obtain rfl := List.mem_singleton.mp hd
          obtain rfl := Option.some.inj (hn.symm.trans hn₁)
          exact hu (htid.symm.trans htid')
        · rw [hset, Function.update_of_ne hbc, hn] at hn'
          exact congrArg CoroNode.next (Option.some.inj hn')

/-- A thread that is about to write the head of its bucket has just read it. -/
theorem next_of_addPublish
    {a : Action} {coro new : ℕ} {n : CoroNode}
    (hstep : step capacity s a = some s')
    (hpc : s'.pc a.thread = .addPublish coro new)
    (hn : s'.nodes new = some n) :
    n.next = s'.buckets (index capacity a.thread) := by
  cases a with
  | schedule tid c =>
      obtain ⟨-, hs'⟩ := Option.ite_none_right_eq_some.mp hstep
      obtain rfl := Option.some.inj hs'
      simp [Action.thread, State.pc_goto_self] at hpc
  | yeild tid | finish tid =>
      simp only [SharedMap.step] at hstep
      split at hstep
      next =>
        obtain rfl := Option.some.inj hstep
        simp [Action.thread, State.pc_goto_self] at hpc
      next => cases hstep
  | advance tid =>
      change advance capacity s tid = some s' at hstep
      change s'.pc tid = _ at hpc
      unfold SharedMap.advance at hstep
      cases h : s.pc tid with
      | idle | running => rw [h] at hstep; cases hstep
      | addHead | addMalloc | addPublish | sizeRead | sizeWrite | getHead =>
          rw [h] at hstep
          obtain rfl := Option.some.inj hstep
          simp [State.pc_goto_self] at hpc
      | addNext coro' new' =>
          rw [h] at hstep
          obtain ⟨m, hm, rfl⟩ := Option.map_eq_some_iff.mp hstep
          rw [State.pc_goto_self, Pc.addPublish.injEq] at hpc
          obtain ⟨rfl, rfl⟩ := hpc
          change Function.update s.nodes _ _ _ = _ at hn
          rw [Function.update_self] at hn
          exact Option.some.inj hn ▸ rfl
      | addWalk coro' current | getWalk coro' current =>
          rw [h] at hstep
          cases current with
          | none =>
              obtain rfl := Option.some.inj hstep
              simp [State.pc_goto_self] at hpc
          | some a =>
              obtain ⟨m, hm, rfl⟩ := Option.map_eq_some_iff.mp hstep
              split at hpc <;> simp [State.pc_goto_self] at hpc
      | yeilding coro' curCoro =>
          rw [h] at hstep
          cases curCoro with
          | none => cases hstep
          | some cur =>
              obtain rfl := Option.some.inj hstep
              simp [State.pc_goto_self] at hpc

/-- A step of one of several threads that have buckets of their own. -/
theorem LinksInv.notRaced
    {a : Action} {workers : Finset ℕ} (h : LinksInv capacity s lists)
    (hraced : NotRaced capacity s)
    (hown : OwnBuckets capacity workers) (ha : a.thread ∈ workers)
    (hidle : ∀ u, u ∉ workers → s.pc u = .idle)
    (hstep : SharedMap.step capacity s a = some s') : NotRaced capacity s' := by
  intro u coro new n hpc hn
  by_cases hu : u = a.thread
  · subst hu
    exact next_of_addPublish hstep hpc hn
  have hframe := step_frame hstep
  rw [hframe.pc u hu] at hpc
  have hworker : u ∈ workers := by
    by_contra hout
    rw [hidle u hout] at hpc
    cases hpc
  obtain ⟨m, hm, hnext⟩ := h.new_kept hu hpc hstep hn
  rw [hframe.buckets _ fun heq => hu (hown u hworker _ ha heq), ← hnext]
  exact hraced u coro new m hpc hm

/-! ## A call in progress -/

/-- In `coro_map_add`, called for this coroutine. -/
def Pc.Adds (coro : ℕ) : Pc → Prop
  | .addHead c | .addWalk c _ | .addMalloc c | .addNext c _ | .addPublish c _
  | .sizeRead c | .sizeWrite c _ => c = coro
  | _ => False

/-- The steps left to a scheduler until `coro_map_add` has returned, when no
bucket has more nodes than this. -/
noncomputable def State.addLeft (s : State) (bound t : ℕ) : ℕ :=
  match s.pc t with
  | .idle => bound + 8
  | .addHead _ => bound + 7
  | .addWalk _ current => s.walkLength current + 6
  | .addMalloc _ => 5
  | .addNext _ _ => 4
  | .addPublish _ _ => 3
  | .sizeRead _ => 2
  | .sizeWrite _ _ => 1
  | _ => 0

/-- The steps left to a coroutine until `coro_map_get` has returned. -/
noncomputable def State.getLeft (s : State) (bound t : ℕ) : ℕ :=
  match s.pc t with
  | .running _ => bound + 3
  | .getHead _ => bound + 2
  | .getWalk _ current => s.walkLength current + 1
  | _ => 0

namespace LinksInv

/-- What is left of a walk over the bucket of the thread. -/
theorem walkLength_eq
    {current : Option ℕ} {ys : List ℕ} (h : LinksInv capacity s lists)
    (hys : ys <:+ lists (index capacity t)) (hcurrent : current = ys.head?) :
    s.walkLength current = ys.length := by
  obtain ⟨front, hfront⟩ := hys
  have hchain : Chain CoroNode.next s.nodes
      (s.buckets (index capacity t)) (front ++ ys) := hfront ▸ Inv.chain h _
  exact State.walkLength_eq (hcurrent ▸ hchain.drop)

/-- `coro_map_add` goes on until it returns. -/
theorem advance_adds
    {coro : ℕ} (h : LinksInv capacity s lists) (hpc : (s.pc t).Adds coro) :
    ∃ s', advance capacity s t = some s' ∧
      ((s'.pc t).Adds coro ∨ s'.pc t = .running coro) ∧
      ∀ bound, (∀ i, (lists i).length ≤ bound) →
        s'.addLeft bound t < s.addLeft bound t := by
  have hfacts := h.facts t
  cases h' : s.pc t with
  | idle | running | getHead | getWalk | yeilding =>
      rw [h'] at hpc
      exact hpc.elim
  | addHead c =>
      rw [h'] at hpc
      obtain rfl : c = coro := hpc
      refine ⟨_, by simp only [SharedMap.advance, h']; rfl,
        Or.inl (by rw [State.pc_goto_self]; rfl), fun bound hbound => ?_⟩
      simp only [State.addLeft, h', State.pc_goto_self]
      have hlength := h.walkLength_eq (t := t) (List.suffix_refl _)
        (Inv.chain h (index capacity t)).head_eq
      have hle := hbound (index capacity t)
      change s.walkLength (s.buckets (index capacity t)) + 6 < _
      change s.walkLength (s.buckets (index capacity t)) = _ at hlength
      omega
  | addWalk c current =>
      rw [h'] at hpc hfacts
      obtain rfl : c = coro := hpc
      obtain ⟨ys, hys, hcurrent, -⟩ := hfacts
      have hlength := h.walkLength_eq hys hcurrent
      cases current with
      | none =>
          refine ⟨_, by simp only [SharedMap.advance, h']; rfl,
            Or.inl (by rw [State.pc_goto_self]; rfl), fun bound _ => ?_⟩
          simp only [State.addLeft, h', State.pc_goto_self]
          omega
      | some a =>
          obtain ⟨n, zs, rfl, hn, hnext, hzs⟩ := Inv.cell h hys hcurrent
          change s.nodes a = some n at hn
          by_cases htid : n.tid = t
          · refine ⟨_, by
              simp only [SharedMap.advance, h', hn, Option.map_some,
                if_pos htid]
              rfl, Or.inr (State.pc_goto_self ..), fun bound _ => ?_⟩
            simp only [State.addLeft, h', State.pc_goto_self]
            omega
          · refine ⟨_, by
              simp only [SharedMap.advance, h', hn, Option.map_some,
                if_neg htid]
              rfl, Or.inl (by rw [State.pc_goto_self]; rfl),
              fun bound _ => ?_⟩
            have hrest := h.walkLength_eq hzs hnext
            simp only [State.addLeft, h', State.pc_goto_self]
            change s.walkLength n.next + 6 < _
            rw [hlength, hrest, List.length_cons]
            omega
  | addMalloc c | addPublish c new | sizeRead c =>
      rw [h'] at hpc
      obtain rfl : c = coro := hpc
      refine ⟨_, by simp only [SharedMap.advance, h']; rfl,
        Or.inl (by rw [State.pc_goto_self]; rfl), fun bound _ => ?_⟩
      simp only [State.addLeft, h', State.pc_goto_self]
      omega
  | addNext c new =>
      rw [h'] at hpc hfacts
      obtain rfl : c = coro := hpc
      obtain ⟨-, a, ha, n, hn, -, -⟩ := hfacts
      obtain rfl := List.mem_singleton.mp ha
      refine ⟨_, by simp only [SharedMap.advance, h', hn, Option.map_some]; rfl,
        Or.inl (by rw [State.pc_goto_self]; rfl), fun bound _ => ?_⟩
      simp only [State.addLeft, h', State.pc_goto_self]
      omega
  | sizeWrite c size =>
      rw [h'] at hpc
      obtain rfl : c = coro := hpc
      refine ⟨_, by simp only [SharedMap.advance, h']; rfl,
        Or.inr (State.pc_goto_self ..), fun bound _ => ?_⟩
      simp only [State.addLeft, h', State.pc_goto_self]
      omega

theorem addLeft_le
    {bound : ℕ} (h : LinksInv capacity s lists)
    (hbound : ∀ i, (lists i).length ≤ bound) :
    s.addLeft bound t ≤ bound + 8 := by
  have hfacts := h.facts t
  unfold State.addLeft
  cases h' : s.pc t with
  | addWalk c current =>
      rw [h'] at hfacts
      obtain ⟨ys, hys, hcurrent, -⟩ := hfacts
      have hle := hys.length_le.trans (hbound _)
      change s.walkLength current + 6 ≤ _
      rw [h.walkLength_eq hys hcurrent]
      omega
  | _ => dsimp only; omega

theorem getLeft_le
    {bound : ℕ} (h : LinksInv capacity s lists)
    (hbound : ∀ i, (lists i).length ≤ bound) :
    s.getLeft bound t ≤ bound + 3 := by
  have hfacts := h.facts t
  unfold State.getLeft
  cases h' : s.pc t with
  | getWalk c current =>
      rw [h'] at hfacts
      obtain ⟨-, ys, hys, hcurrent, -⟩ := hfacts
      have hle := hys.length_le.trans (hbound _)
      change s.walkLength current + 1 ≤ _
      rw [h.walkLength_eq hys hcurrent]
      omega
  | _ => dsimp only; omega

/-- `coro_map_get` goes on until it has found the running coroutine. -/
theorem advance_gets
    {coro : ℕ} (h : LinksInv capacity s lists) (hpc : (s.pc t).InGet coro) :
    ∃ s', advance capacity s t = some s' ∧
      ((s'.pc t).InGet coro ∨ s'.pc t = .yeilding coro (some coro)) ∧
      ∀ bound, (∀ i, (lists i).length ≤ bound) →
        s'.getLeft bound t < s.getLeft bound t := by
  have hfacts := h.facts t
  cases h' : s.pc t with
  | getHead c =>
      rw [h'] at hpc
      obtain rfl : c = coro := hpc
      refine ⟨_, by simp only [SharedMap.advance, h']; rfl,
        Or.inl (by rw [State.pc_goto_self]; rfl), fun bound hbound => ?_⟩
      simp only [State.getLeft, h', State.pc_goto_self]
      have hlength := h.walkLength_eq (t := t) (List.suffix_refl _)
        (Inv.chain h (index capacity t)).head_eq
      have hle := hbound (index capacity t)
      change s.walkLength (s.buckets (index capacity t)) + 1 < _
      change s.walkLength (s.buckets (index capacity t)) = _ at hlength
      omega
  | getWalk c current =>
      rw [h'] at hpc hfacts
      obtain rfl : c = coro := hpc
      obtain ⟨-, ys, hys, hcurrent, -⟩ := hfacts
      have hlength := h.walkLength_eq hys hcurrent
      obtain ⟨a, n, rfl, hn, hfound, -⟩ := Inv.getWalk h h'
      change s.nodes a = some n at hn
      by_cases htid : n.tid = t
      · refine ⟨_, by
          simp only [SharedMap.advance, h', hn, Option.map_some, if_pos htid]
          rfl, Or.inr ?_, fun bound _ => ?_⟩
        · rw [State.pc_goto_self, hfound htid]
        · simp only [State.getLeft, h', State.pc_goto_self]
          omega
      · refine ⟨_, by
          simp only [SharedMap.advance, h', hn, Option.map_some, if_neg htid]
          rfl, Or.inl (by rw [State.pc_goto_self]; rfl), fun bound _ => ?_⟩
        obtain ⟨n', zs, rfl, hn', hnext, hzs⟩ := Inv.cell h hys hcurrent
        obtain rfl := Option.some.inj (hn.symm.trans hn')
        have hrest := h.walkLength_eq hzs hnext
        simp only [State.getLeft, h', State.pc_goto_self]
        change s.walkLength n.next + 1 < _
        rw [hlength, hrest, List.length_cons]
        omega
  | _ =>
      rw [h'] at hpc
      exact hpc.elim

/-- The other threads do not keep a call from going on. -/
theorem left_kept
    {a : Action} (h : LinksInv capacity s lists) (ht : t ≠ a.thread)
    (hstep : SharedMap.step capacity s a = some s') (bound : ℕ) :
    s'.addLeft bound t = s.addLeft bound t ∧
      s'.getLeft bound t = s.getLeft bound t := by
  have hpc := (step_frame hstep).pc t ht
  have hfacts := h.facts t
  have hwalk : ∀ {current : Option ℕ} {ys : List ℕ},
      ys <:+ lists (index capacity t) → current = ys.head? →
      s'.walkLength current = s.walkLength current := by
    intro current ys hys hcurrent
    obtain ⟨front, hfront⟩ := hys
    have hchain : Chain CoroNode.next s.nodes
        (s.buckets (index capacity t)) (front ++ ys) := hfront ▸ Inv.chain h _
    have hrest := hchain.drop
    rw [← hcurrent] at hrest
    rw [State.walkLength_eq hrest]
    refine State.walkLength_eq (hrest.congr fun b hb n hn => ?_)
    exact h.link_kept hstep (hfront ▸ List.mem_append_right _ hb) hn
  unfold State.addLeft State.getLeft
  rw [hpc]
  cases h' : s.pc t with
  | addWalk c current =>
      rw [h'] at hfacts
      obtain ⟨ys, hys, hcurrent, -⟩ := hfacts
      exact ⟨congrArg (· + 6) (hwalk hys hcurrent), rfl⟩
  | getWalk c current =>
      rw [h'] at hfacts
      obtain ⟨-, ys, hys, hcurrent, -⟩ := hfacts
      exact ⟨rfl, congrArg (· + 1) (hwalk hys hcurrent)⟩
  | _ => exact ⟨rfl, rfl⟩

/-- A bucket has at most one node for each thread that uses the map. -/
theorem length_le
    {workers : Finset ℕ} (h : LinksInv capacity s lists)
    (hlinked : ∀ u, s.Linked u → u ∈ workers) (i : ℕ) :
    (lists i).length ≤ workers.card := by
  have hsub : (lists i).map s.tidOf ⊆ (workers.image some).toList := by
    intro x hx
    obtain ⟨a, ha, rfl⟩ := List.mem_map.mp hx
    obtain ⟨n, hn⟩ := (Inv.chain h i).exists_cell ha
    change s.nodes a = some n at hn
    have htid : s.tidOf a = some n.tid := by simp [State.tidOf, hn]
    rw [htid] at hx ⊢
    have hmem := hlinked _ ((h.mem_iff i n.tid).mp hx).1
    simpa using hmem
  have hnodup : ((lists i).map s.tidOf).Nodup := Inv.nodup h i
  have hle := (hnodup.subperm hsub).length_le
  rw [List.length_map, Finset.length_toList,
    Finset.card_image_of_injective _ (Option.some_injective ℕ)] at hle
  exact hle

end LinksInv

end Steps

end SharedMap
end Coroutine
end OsFifthSem
