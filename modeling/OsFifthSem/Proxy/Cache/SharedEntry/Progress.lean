import OsFifthSem.Proxy.Cache.SharedEntry.Linearizable
import OsFifthSem.Support.Termination

/-!
# Every call at an entry comes to its end

A lookup waits for `data_lock` while it holds the mutex of the bucket.  The
loader never waits for that mutex, and no loop is unbounded, so wherever no
thread can go on all calls have returned.
-/

namespace OsFifthSem
namespace Proxy
namespace SharedEntry

open Support

universe u

/-! ## The steps that are left -/

def LookupPc.rank : LookupPc → ℕ
  | .lock => 8
  | .loadFlag => 7
  | .loadSize _ => 6
  | .rdLock _ _ => 5
  | .foundLoadData _ | .loadData _ _ => 4
  | .foundCopy _ _ | .copy _ _ _ => 3
  | .rdUnlock _ => 2
  | .unlock _ => 1

def AppendPc.rank : AppendPc → ℕ
  | .test => 9
  | .wrLock => 8
  | .loadSize => 7
  | .grow _ _ => 6
  | .copy _ => 5
  | .storeSize _ => 4
  | .wrUnlock _ => 3
  | .notify => 2
  | .exit _ => 1

def FinishPc.rank : FinishPc → ℕ
  | .test => 8
  | .wrLock => 7
  | .clearFlag => 6
  | .loadSize => 5
  | .shrink _ => 4
  | .wrUnlock => 3
  | .notify => 2
  | .exit _ => 1

/-- The number of steps a thread has at most left in its call. -/
def Pc.rank : Pc → ℕ
  | .idle | .fault => 0
  | .lookup _ p => p.rank
  | .append _ _ p => p.rank
  | .finish _ p => p.rank
  | .visitLock => 2
  | .visitUnlock => 1

theorem Pc.rank_le (pc : Pc) : pc.rank ≤ 9 := by
  cases pc with
  | idle | fault | visitLock | visitUnlock => simp [Pc.rank]
  | lookup l p => cases p <;> simp [Pc.rank, LookupPc.rank]
  | append chunk r p => cases p <;> simp [Pc.rank, AppendPc.rank]
  | finish r p => cases p <;> simp [Pc.rank, FinishPc.rank]

theorem Lookup.rank_branch (l : Lookup) (loading : Bool) (size : ℕ) :
    (l.branch loading size).rank < 6 := by
  unfold Lookup.branch
  split_ifs <;> simp [LookupPc.rank]

theorem Lookup.rank_chunk (l : Lookup) (loading : Bool) (size : ℕ) :
    (l.chunk loading size).rank < 5 := by
  unfold Lookup.chunk
  split_ifs <;> simp [LookupPc.rank]

def Action.isCall {T : Type u} : Action T → Bool
  | .call _ _ | .visit _ => true
  | .advance _ => false

variable {T : Type u} [DecidableEq T] {w t : T} {s s' : State T} {pc : Pc}
  {u : AtomicState T Call Reply Entry}

/-- The thread moves to a program point with fewer steps left, and no other
thread moves. -/
def Lowers (s : State T) (t : T) (s' : State T) : Prop :=
  ∃ pc, s'.pc = Function.update s.pc t pc ∧ pc.rank < (s.pc t).rank

theorem lowers_goto
    {s₁ : State T} (hsame : s₁.pc = s.pc) (hlt : pc.rank < (s.pc t).rank) :
    Lowers s t (s₁.goto t pc) :=
  ⟨pc, by rw [State.goto, hsame], hlt⟩

theorem lookupStep_lowers
    {l : Lookup} {p : LookupPc} (hpc : s.pc t = .lookup l p)
    (hstep : lookupStep s t l p = some s') : Lowers s t s' := by
  cases p with
  | lock =>
      obtain ⟨-, h⟩ := Option.ite_none_right_eq_some.mp hstep
      obtain rfl := Option.some.inj h
      exact lowers_goto rfl (by simp [hpc, Pc.rank, LookupPc.rank])
  | rdLock loading size =>
      obtain ⟨-, h⟩ := Option.ite_none_right_eq_some.mp hstep
      obtain rfl := Option.some.inj h
      exact lowers_goto rfl (hpc ▸ l.rank_chunk loading size)
  | loadSize loading =>
      obtain rfl := Option.some.inj hstep
      exact lowers_goto rfl (hpc ▸ l.rank_branch loading _)
  | foundCopy | copy =>
      simp only [lookupStep] at hstep
      split at hstep <;> obtain rfl := Option.some.inj hstep <;>
        exact lowers_goto rfl (by simp [hpc, Pc.rank, LookupPc.rank])
  | loadFlag | foundLoadData | loadData | rdUnlock | unlock =>
      obtain rfl := Option.some.inj hstep
      exact lowers_goto rfl (by simp [hpc, Pc.rank, LookupPc.rank])

theorem appendStep_lowers
    {chunk : List UInt8} {r : Realloc} {p : AppendPc}
    (hpc : s.pc t = .append chunk r p)
    (hstep : appendStep s t chunk r p = some s') : Lowers s t s' := by
  cases p with
  | wrLock =>
      obtain ⟨-, h⟩ := Option.ite_none_right_eq_some.mp hstep
      obtain rfl := Option.some.inj h
      exact lowers_goto rfl (by simp [hpc, Pc.rank, AppendPc.rank])
  | loadSize =>
      simp only [appendStep] at hstep
      split at hstep
      · obtain ⟨newSize, -, rfl⟩ := Option.map_eq_some_iff.mp hstep
        exact lowers_goto rfl (by simp [hpc, Pc.rank, AppendPc.rank])
      · obtain rfl := Option.some.inj hstep
        exact lowers_goto rfl (by simp [hpc, Pc.rank, AppendPc.rank])
  | grow | copy =>
      simp only [appendStep] at hstep
      split at hstep <;> obtain rfl := Option.some.inj hstep <;>
        refine lowers_goto rfl ?_ <;> rw [hpc] <;>
        first
          | (split <;> simp [Pc.rank, AppendPc.rank])
          | simp [Pc.rank, AppendPc.rank]
  | test | wrUnlock =>
      obtain rfl := Option.some.inj hstep
      refine lowers_goto rfl ?_
      rw [hpc]
      split <;> simp [Pc.rank, AppendPc.rank]
  | storeSize | notify | exit =>
      obtain rfl := Option.some.inj hstep
      exact lowers_goto rfl (by simp [hpc, Pc.rank, AppendPc.rank])

theorem finishStep_lowers
    {r : Realloc} {p : FinishPc} (hpc : s.pc t = .finish r p)
    (hstep : finishStep s t r p = some s') : Lowers s t s' := by
  cases p with
  | wrLock =>
      obtain ⟨-, h⟩ := Option.ite_none_right_eq_some.mp hstep
      obtain rfl := Option.some.inj h
      exact lowers_goto rfl (by simp [hpc, Pc.rank, FinishPc.rank])
  | shrink =>
      simp only [finishStep] at hstep
      split at hstep <;> obtain rfl := Option.some.inj hstep <;>
        exact lowers_goto rfl (by simp [hpc, Pc.rank, FinishPc.rank])
  | test | loadSize =>
      obtain rfl := Option.some.inj hstep
      refine lowers_goto rfl ?_
      rw [hpc]
      split <;> simp [Pc.rank, FinishPc.rank]
  | clearFlag | wrUnlock | notify | exit =>
      obtain rfl := Option.some.inj hstep
      exact lowers_goto rfl (by simp [hpc, Pc.rank, FinishPc.rank])

/-- Every step of a thread leaves it fewer steps. -/
theorem advance_lowers (hstep : advance s t = some s') : Lowers s t s' := by
  rw [advance] at hstep
  cases hpc : s.pc t with
  | idle | fault => simp [hpc] at hstep
  | lookup l p => exact lookupStep_lowers hpc (by simpa only [hpc] using hstep)
  | append chunk r p =>
      exact appendStep_lowers hpc (by simpa only [hpc] using hstep)
  | finish r p => exact finishStep_lowers hpc (by simpa only [hpc] using hstep)
  | visitLock =>
      simp only [hpc, Option.ite_none_right_eq_some, Option.some.injEq] at hstep
      obtain ⟨-, rfl⟩ := hstep
      exact lowers_goto rfl (by simp [hpc, Pc.rank])
  | visitUnlock =>
      simp only [hpc, Option.some.injEq] at hstep
      subst hstep
      exact lowers_goto rfl (by simp [hpc, Pc.rank])

theorem Lowers.threadSum_lt [Fintype T] (h : Lowers s t s') :
    threadSum Pc.rank s'.pc + 1 ≤ threadSum Pc.rank s.pc := by
  obtain ⟨pc, hpc, hlt⟩ := h
  have hsum := threadSum_update Pc.rank s.pc t pc
  rw [hpc]
  omega

/-! ## Where no thread can go on -/

/-- Wherever a thread holds `data_lock` for writing, it has a step. -/
theorem loader_moves
    (href : Refines w s u) (hpc : (s.pc t).ownsData = true) :
    ∃ s', advance s t = some s' := by
  cases h : s.pc t with
  | idle | visitLock | visitUnlock | fault | lookup =>
      simp [h, Pc.ownsData] at hpc
  | finish r p =>
      cases p with
      | test | wrLock | notify | exit => simp [h, Pc.ownsData] at hpc
      | clearFlag | loadSize | wrUnlock =>
          simp [advance, h, finishStep]
      | shrink size =>
          simp only [advance, h, finishStep]
          split <;> exact ⟨_, rfl⟩
  | append chunk r p =>
      cases p with
      | test | wrLock | notify | exit => simp [h, Pc.ownsData] at hpc
      | storeSize | wrUnlock => simp [advance, h, appendStep]
      | grow size newSize | copy size =>
          simp only [advance, h, appendStep]
          split <;> exact ⟨_, rfl⟩
      | loadSize =>
          -- the loop that doubles `new_size` ends
          obtain rfl := href.loader t (by rw [h]; rfl)
          obtain ⟨-, hfits, hl⟩ := href.stands_at h
          have hheap := href.agrees_at h
          obtain ⟨-, k, hk, hlt⟩ := hheap.growable hl
          have hneed : sizeAdd s.heap.dataSize chunk.length ≤ 2 ^ 63 := by
            rw [hheap.dataSize, sizeAdd_of_le hfits]
            exact hfits
          obtain ⟨size, hgrow, -⟩ := growSize_doublesTo (hk ▸ hlt) hneed
          simp only [advance, h, appendStep]
          split
          · rw [hheap.allocated hl rfl, hk, hgrow]
            exact ⟨_, rfl⟩
          · exact ⟨_, rfl⟩

/-- Wherever a thread holds the mutex of the bucket and nobody holds
`data_lock` for writing, it has a step. -/
theorem owner_moves
    (hpc : (s.pc t).ownsBucket = true) (hfree : s.writer = none) :
    ∃ s', advance s t = some s' := by
  cases h : s.pc t with
  | idle | visitLock | fault | append | finish =>
      simp [h, Pc.ownsBucket] at hpc
  | visitUnlock => simp [advance, h]
  | lookup l p =>
      cases p with
      | lock => simp [h, Pc.ownsBucket] at hpc
      | rdLock => simp [advance, h, lookupStep, hfree]
      | foundCopy | copy =>
          simp only [advance, h, lookupStep]
          split <;> exact ⟨_, rfl⟩
      | loadFlag | loadSize | foundLoadData | loadData | rdUnlock | unlock =>
          simp [advance, h, lookupStep]

/-- Wherever no thread can go on in time, all calls have returned and no lock
is held. -/
theorem settled_of_stuck
    (href : Refines w s u)
    (hstuck : ∀ t, Timely s (.advance t) → advance s t = none) :
    (∀ t, s.pc t = .idle) ∧ s.bucket = none ∧ s.writer = none ∧
      s.readers = 0 := by
  have hfree : s.writer = none := by
    by_contra hheld
    obtain ⟨t, ht⟩ := Option.ne_none_iff_exists'.mp hheld
    have howns := (href.writer t).mpr ht
    obtain ⟨s', hstep⟩ := loader_moves href howns
    have htimely : Timely s (.advance t) := by
      intro hlooks
      cases hpc : s.pc t <;> simp [hpc, Pc.ownsData, Pc.looksForWhole] at *
    simp [hstuck t htimely] at hstep
  have hmoves : ∀ t, advance s t = none := fun t => hstuck t fun _ => hfree
  have hbucket : s.bucket = none := by
    by_contra hheld
    obtain ⟨t, ht⟩ := Option.ne_none_iff_exists'.mp hheld
    obtain ⟨s', hstep⟩ := owner_moves ((href.bucket t).mpr ht) hfree
    simp [hmoves t] at hstep
  have hnone : s.readers = 0 := by
    rw [href.readers, hbucket]
    rfl
  refine ⟨fun t => ?_, hbucket, hfree, hnone⟩
  have hmove := hmoves t
  cases hpc : s.pc t with
  | idle => rfl
  | fault => exact (href.stands_at hpc).elim
  | visitLock => simp [advance, hpc, hbucket] at hmove
  | visitUnlock =>
      simp [(href.bucket t).mp (by rw [hpc]; rfl)] at hbucket
  | lookup l p =>
      by_cases hp : p = .lock
      · simp [advance, hpc, hp, lookupStep, hbucket] at hmove
      · have howns : (s.pc t).ownsBucket = true := by
          rw [hpc]
          cases p <;> simp_all [Pc.ownsBucket]
        simp [(href.bucket t).mp howns] at hbucket
  | append chunk r p =>
      by_cases howns : (s.pc t).ownsData = true
      · simp [(href.writer t).mp howns] at hfree
      · cases p <;> simp [hpc, Pc.ownsData] at howns <;>
          simp [advance, hpc, appendStep, wrLock, hfree, hnone] at hmove
  | finish r p =>
      by_cases howns : (s.pc t).ownsData = true
      · simp [(href.writer t).mp howns] at hfree
      · cases p <;> simp [hpc, Pc.ownsData] at howns <;>
          simp [advance, hpc, finishStep, wrLock, hfree, hnone] at hmove

/-- From any state of a timely run on, a timely schedule without new calls has
at most nine steps for each thread, and wherever it cannot be continued all
calls have returned and no lock is held. -/
theorem sharedEntry_settles [Fintype T]
    (w : T) (key : CString) (now : ℤ)
    (hs : (entrySystem w (createEntry key 4096 now)).ReachableUnder Timely s)
    {as : List (Action T)} (hcalls : ∀ a ∈ as, a.isCall = false)
    (hallowed : (entrySystem w (createEntry key 4096 now)).RunAllowed Timely
      s as)
    (hrun : (entrySystem w (createEntry key 4096 now)).run s as = some s') :
    as.length ≤ 9 * Fintype.card T ∧
      ((∀ t, Timely s' (.advance t) → advance s' t = none) →
        (∀ t, s'.pc t = .idle) ∧ s'.bucket = none ∧ s'.writer = none ∧
          s'.readers = 0) := by
  constructor
  · have hbound := TransitionSystem.length_le_of_measure
      (I := fun _ => True) (fun s => threadSum Pc.rank s.pc) (fun _ => false) 0
      ?_ trivial (TransitionSystem.runAllowed_of_mem hcalls s) hrun
    · have hnone : as.countP (fun _ => false) = 0 := by simp
      have hle := threadSum_le Pc.rank_le s.pc
      omega
    · intro s₁ a s₂ _ hcall hstep
      refine ⟨trivial, ?_⟩
      cases a with
      | call | visit => cases hcall
      | advance t => exact (advance_lowers hstep).threadSum_lt
  · intro hstuck
    obtain ⟨u, href⟩ := exists_refines T w key now (hs.run hallowed hrun)
    exact settled_of_stuck href hstuck

/-- The loader `w` appends a byte while the client `t` looks for it. -/
def appendAndLook (w t : T) : List (Action T) :=
  List.replicate 2 (.advance t) ++ List.replicate 8 (.advance w) ++
    List.replicate 6 (.advance t)

theorem sharedEntry_settles_two :
    ∃ s s' : State (Fin 2), s.pc 0 = .append [7] .moves .test ∧
      s.pc 1 = .lookup ⟨0, 5⟩ .lock ∧ s'.heap.dataSize = 1 ∧
      (∀ t, s'.pc t = .idle) ∧ s'.bucket = none ∧ s'.writer = none ∧
      s'.readers = 0 := by
  obtain ⟨s, s', hcall, hrun, hw, ht, hsize, h0, h1⟩ : ∃ s s',
      (entrySystem (0 : Fin 2) (createEntry (.ofBuffer [97]) 4096 0)).runWhile
        (fun s a => decide (Timely s a))
        (start (Fin 2) (createEntry (.ofBuffer [97]) 4096 0))
        [.call 0 (.appendData [7] .moves), .call 1 (.lookupPartial ⟨0, 5⟩)] =
          some s ∧
      (entrySystem (0 : Fin 2) (createEntry (.ofBuffer [97]) 4096 0)).runWhile
        (fun s a => decide (Timely s a)) s (appendAndLook 0 1) = some s' ∧
      s.pc 0 = .append [7] .moves .test ∧ s.pc 1 = .lookup ⟨0, 5⟩ .lock ∧
      s'.heap.dataSize = 1 ∧ s'.pc 0 = .idle ∧ s'.pc 1 = .idle :=
    ⟨_, _, rfl, rfl, rfl, rfl, rfl, rfl, rfl⟩
  have hs := TransitionSystem.ReachableUnder.runWhile
    (fun _ _ h => of_decide_eq_true h)
    (.initial (S := entrySystem (0 : Fin 2)
      (createEntry (.ofBuffer [97]) 4096 0)) rfl) hcall
  obtain ⟨hallowed, hrun⟩ := TransitionSystem.runAllowed_of_runWhile
    (fun _ _ h => of_decide_eq_true h) hrun
  have hcalls : ∀ a ∈ appendAndLook (0 : Fin 2) 1, a.isCall = false := by
    simp [appendAndLook, Action.isCall]
  have hmain := sharedEntry_settles 0 (.ofBuffer [97]) 0 hs hcalls hallowed hrun
  refine ⟨s, s', hw, ht, hsize, hmain.2 fun t _ => ?_⟩
  match t with
  | 0 => simp [advance, h0]
  | 1 => simp [advance, h1]

end SharedEntry
end Proxy
end OsFifthSem
