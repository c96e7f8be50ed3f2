import OsFifthSem.Support.Termination
import OsFifthSem.Sync.SwapList.Deadlock
import OsFifthSem.Sync.SwapList.Position

/-!
# The end of the two list programs

When `main` has set `stop`, every thread comes to its end under every
schedule: a swap thread finishes the exchange it has begun, and all loops test
`stop` or walk along a bounded list.  A schedule ends early only where threads
are deadlocked.  Behind the joins no lock is held, and `free_list` frees every
node of the list once.
-/

namespace OsFifthSem
namespace SwapList

open Support

universe u

/-! ## `free_list` -/

/-- The loop of `free_list` from `current` on, with one unit of `fuel` for each
round.  `2.3m.c` destroys the lock of a node first, which must not be held.
There is no result when a freed node is read. -/
def freeList {T : Type u} [DecidableEq T] (file : Source) :
    ℕ → (ℕ → Option (Node T)) → Option ℕ → Option (ℕ → Option (Node T))
  | _, nodes, none => some nodes
  | 0, _, some _ => none
  | fuel + 1, nodes, some current =>
      (nodes current).bind fun n =>
        if file = .rwlockList ∧ n.sync ≠ .init then none
        else freeList file fuel (Function.update nodes current none) n.next

theorem freeList_of_chain
    {T : Type u} [DecidableEq T] (file : Source) {nodes : ℕ → Option (Node T)}
    {first : Option ℕ} {xs : List ℕ} (hc : Chain Node.next nodes first xs)
    (hfree : ∀ a ∈ xs, ∀ n, nodes a = some n → n.sync = .init) :
    freeList file xs.length nodes first =
      some fun a => if a ∈ xs then none else nodes a := by
  induction xs generalizing nodes first with
  | nil =>
      cases hc
      simp [freeList]
  | cons a xs ih =>
      have hnotMem : a ∉ xs := (List.nodup_cons.mp hc.nodup).1
      cases hc with
      | @cons _ n _ hcell htail =>
          have hsame : ∀ b ∈ xs, Function.update nodes a none b = nodes b := by
            intro b hb
            refine Function.update_of_ne ?_ _ _
            rintro rfl
            exact hnotMem hb
          have hrest := ih (htail.congr_of_eq hsame) fun b hb m hm =>
            hfree b (List.mem_cons_of_mem a hb) m (hsame b hb ▸ hm)
          rw [List.length_cons, freeList, hcell, Option.bind_some,
            if_neg (fun h => h.2 (hfree a List.mem_cons_self n hcell)), hrest]
          congr 1
          funext b
          by_cases hba : b = a
          · subst hba
            simp
          · simp [hba]

/-! ## A rank that every step lowers -/

/-- The steps that a swap thread has left at most, once `stop` is set. -/
def SwapPc.rank (size : ℤ) : SwapPc → ℕ
  | .threadTop => 1
  | .retry | .countSwap => 2
  | .giveUp _ | .failNext _ => 3
  | .failCurrent _ _ => 4
  | .failPrev _ _ _ => 5
  | p => p.stepsLeft size + 5

/-- The steps that a counter has left at most, once `stop` is set. -/
def CountPc.rank : CountPc → ℕ
  | .threadTop => 1
  | .passDone => 2
  | .testStop _ _ => 3
  | .testNext _ _ => 4
  | .passTop | .unlockNext _ _ => 5
  | .unlockCurrent _ _ _ => 6
  | .nextLoad _ _ _ => 7
  | .compare _ _ _ _ => 8
  | .compareTarget _ _ _ => 9
  | .nextLock _ _ _ => 10
  | .nextTarget _ _ => 11
  | .currentLock _ _ => 12

def Pc.rank (size : ℤ) : Pc → ℕ
  | .swap p => p.rank size
  | .count _ p => p.rank
  | .done | .fault => 0

/-- The command of a thread that reads `stop` when it is set. -/
def Command.stopped : Command → Command
  | .readStop next => .readStop fun _ => next true
  | cmd => cmd

theorem loopHead_rank_lt
    {size r ind : ℤ} {p k : ℕ} (hcheck : 29 < k)
    (htest : ind < r → 5 * (r - ind - 1).toNat + 34 < k) :
    (loopHead r ind p).rank size < k := by
  unfold loopHead
  split_ifs with hlt
  · exact htest hlt
  · exact hcheck

theorem safeSwapNodes_rank
    (file : Source) {bound : ℕ} (hfour : 4 ≤ bound) (p : SwapPc) :
    (safeSwapNodes file bound p).stopped.AllNext
      fun q => q.rank bound < (Pc.swap p).rank bound := by
  cases p with
  | threadTop | retry => exact fun _ => Nat.lt_add_one _
  | pickRand =>
      intro v
      have hrand := randElem_le hfour v
      simp only [Pc.rank, SwapPc.rank, SwapPc.stepsLeft]
      omega
  | firstTarget r =>
      rintro (_ | q) <;> simp [deref, Pc.rank, SwapPc.rank, SwapPc.stepsLeft]
  | firstLoad r q =>
      rintro (_ | p)
      · simp [Pc.rank, SwapPc.rank, SwapPc.stepsLeft]
      · refine loopHead_rank_lt ?_ fun hlt => ?_ <;>
          simp only [Pc.rank, SwapPc.rank, SwapPc.stepsLeft] <;> omega
  | walkUnlock r ind temp prev =>
      cases prev with
      | none =>
          change 2 < 5 * (r - ind - 1).toNat + 25 + 5
          omega
      | some p =>
          refine loopHead_rank_lt ?_ fun hlt => ?_ <;>
            simp only [Pc.rank, SwapPc.rank, SwapPc.stepsLeft] <;> omega
  | loopTest r ind p =>
      rintro (_ | q) <;> simp [Pc.rank, SwapPc.rank, SwapPc.stepsLeft]
  | walkTarget r ind p =>
      rintro (_ | q) <;> simp [deref, Pc.rank, SwapPc.rank, SwapPc.stepsLeft]
  | checkTarget p | currentTarget p | currentLoad p q | nextTarget p c =>
      rintro (_ | q) <;> simp [deref, Pc.rank, SwapPc.rank, SwapPc.stepsLeft]
  | checkNext p | checkNextNext p q =>
      rintro (_ | q) <;> simp [Pc.rank, SwapPc.rank, SwapPc.stepsLeft]
  | nextLoad p c q =>
      rintro (_ | x)
      · simp [deref, Pc.rank, SwapPc.rank, SwapPc.stepsLeft]
      · cases file <;> simp [deref, Pc.rank, SwapPc.rank, SwapPc.stepsLeft]
  | validatePrev p c x | validateCurrent p c x =>
      intro v
      dsimp only
      split_ifs <;> simp [Pc.rank, SwapPc.rank, SwapPc.stepsLeft]
  | walkLoad r ind p q | loadNextNext p c x =>
      intro v
      simp [Pc.rank, SwapPc.rank, SwapPc.stepsLeft]
  | _ =>
      simp [safeSwapNodes, Command.stopped, Command.AllNext, Pc.rank,
        SwapPc.rank, SwapPc.stepsLeft]

theorem countNodes_rank
    (file : Source) (k : Counting) (size : ℤ) (p : CountPc) :
    (countNodes file k p).stopped.AllNext
      fun q => q.rank size < (Pc.count k p).rank size := by
  cases p with
  | threadTop | testStop cur n => exact fun _ => by simp [Pc.rank, CountPc.rank]
  | passTop | testNext cur n | nextTarget cur n | compareTarget cur n q
  | nextLoad cur n q =>
      rintro (_ | v) <;> simp [deref, Pc.rank, CountPc.rank]
  | compare cur n q b => exact fun _ _ => by simp [Pc.rank, CountPc.rank]
  | _ =>
      simp [countNodes, Command.stopped, Command.AllNext, Pc.rank,
        CountPc.rank]

theorem code_rank
    (file : Source) {bound : ℕ} (hfour : 4 ≤ bound) (pc : Pc) :
    (code file bound pc).stopped.AllNext
      fun q => q.rank bound < pc.rank bound := by
  cases pc with
  | swap p => exact safeSwapNodes_rank file hfour p
  | count k p => exact countNodes_rank file k bound p
  | done => trivial
  | fault => trivial

/-- The place of a thread in the list bounds its rank. -/
theorem Pc.Facts.rank_le
    {v : View} {pc : Pc} (hf : pc.Facts v) :
    pc.rank v.bound ≤ 5 * v.bound + 38 := by
  have hwalk : ∀ {r ind : ℤ} {p : ℕ}, v.Walk r ind p →
      5 * (r - ind - 1).toNat + 34 ≤ 5 * v.bound + 38 := by
    intro r ind p hw
    have htarget := hw.target
    have hplace := hw.place
    omega
  cases pc with
  | done | fault => exact Nat.zero_le _
  | count k p => cases p <;> simp [Pc.rank, CountPc.rank]
  | swap p =>
      cases p with
      | firstTarget r =>
          have hr : r + 3 ≤ v.bound := hf
          simp only [Pc.rank, SwapPc.rank, SwapPc.stepsLeft]
          omega
      | firstLock r q | firstLoad r q =>
          have hr : r + 3 ≤ v.bound := hf.1
          simp only [Pc.rank, SwapPc.rank, SwapPc.stepsLeft]
          omega
      | loopTest r ind p => exact hwalk hf
      | walkTarget r ind p =>
          have hle := hwalk hf
          simp only [Pc.rank, SwapPc.rank, SwapPc.stepsLeft]
          omega
      | walkLock r ind p q | walkLoad r ind p q =>
          have hle := hwalk hf.1
          simp only [Pc.rank, SwapPc.rank, SwapPc.stepsLeft]
          omega
      | walkUnlock r ind temp prev =>
          obtain ⟨-, htarget, p, -, -, hplace⟩ := hf
          simp only [Pc.rank, SwapPc.rank, SwapPc.stepsLeft]
          omega
      | _ =>
          simp [Pc.rank, SwapPc.rank, SwapPc.stepsLeft]

variable {T : Type u} [DecidableEq T] {file : Source} {n : ℕ}
  {s s' : State T} {t : T}

theorem exec_stopped
    (hstop : s.stop = true) (rand : ℕ) (cmd : Command) :
    exec s t rand cmd.stopped = exec s t rand cmd := by
  cases cmd <;> simp [Command.stopped, exec, hstop]

theorem exec_stop_eq
    {rand : ℕ} {cmd : Command} (hstep : exec s t rand cmd = some s') :
    s'.stop = s.stop := by
  cases cmd <;> simp only [exec, Option.some.injEq, reduceCtorEq] at hstep
  case lock m a next =>
    split at hstep
    · obtain rfl := Option.some.inj hstep
      rfl
    · obtain ⟨l, -, rfl⟩ := Option.map_eq_some_iff.mp hstep
      rfl
  case load | store | unlock | strlens =>
    split at hstep <;> obtain rfl := Option.some.inj hstep <;> rfl
  all_goals
    obtain rfl := hstep
    rfl

/-- The ranks of all threads. -/
def State.rank [Fintype T] (s : State T) : ℕ :=
  threadSum (Pc.rank s.size) s.pc

theorem Inv.rank_le [Fintype T] (hi : Inv file n s) :
    s.rank ≤ Fintype.card T * (5 * n + 38) := by
  have hle : ∀ t, (s.pc t).rank s.size ≤ 5 * n + 38 := by
    intro t
    have hrank := (hi.facts t).rank_le
    rw [hi.bound_eq] at hrank
    rwa [hi.size_eq]
  calc
    s.rank ≤ ∑ _t : T, (5 * n + 38) := Finset.sum_le_sum fun t _ => hle t
    _ = Fintype.card T * (5 * n + 38) := by
      rw [Finset.sum_const, Finset.card_univ, smul_eq_mul]

/-- The step sets `stop`. -/
def Action.isStop : Action T → Bool
  | .stopThreads => true
  | .advance _ _ => false

/-- With `stop` set every step of a thread lowers the rank. -/
theorem Inv.rank_step [Fintype T]
    {a : Action T} (hi : Inv file n s) (hfour : 4 ≤ n)
    (hstop : s.stop = true) (hstep : step file s a = some s') :
    s'.stop = true ∧ s'.rank + 1 ≤ s.rank + if a.isStop then 0 + 1 else 0 := by
  cases a with
  | stopThreads =>
      obtain rfl := Option.some.inj hstep
      exact ⟨rfl, le_rfl⟩
  | advance t rand =>
      refine ⟨(exec_stop_eq hstep).trans hstop, ?_⟩
      have hsize := (step_inv hi hstep).size_eq.trans hi.size_eq.symm
      have hcode := code_rank file hfour (s.pc t)
      rw [← hi.size_eq] at hcode
      have hrest : exec s t rand (code file s.size (s.pc t)).stopped =
          some s' := (exec_stopped hstop rand _).trans hstep
      have hpos : 0 < (s.pc t).rank s.size := by
        by_contra hzero
        have hend : s.pc t = .done ∨ s.pc t = .fault := by
          cases hpc : s.pc t with
          | done => exact Or.inl rfl
          | fault => exact Or.inr rfl
          | swap p => cases p <;> simp [hpc, Pc.rank, SwapPc.rank] at hzero
          | count k p => cases p <;> simp [hpc, Pc.rank, CountPc.rank] at hzero
        rcases hend with hpc | hpc <;>
          simp [step, hpc, code, exec] at hstep
      obtain ⟨hlt, hothers⟩ := exec_next hrest hcode hpos
      have hsum : threadSum (Pc.rank s.size) s'.pc + Pc.rank s.size (s.pc t) =
          threadSum (Pc.rank s.size) s.pc + Pc.rank s.size (s'.pc t) :=
        threadSum_of_others t fun x hx => by rw [hothers x hx]
      simp only [Action.isStop, State.rank, hsize]
      omega

/-! ## Where it ends -/

/-- The runs in which no deadlock arises: in `2.3m.c` the write locks are taken
in list order. -/
def NoOvertaking (file : Source) (s : State T) (a : Action T) : Prop :=
  match file with
  | .mutexList => True
  | .rwlockList => LocksForward s a

/-- No thread can take a step. -/
def State.Stuck (file : Source) (s : State T) : Prop :=
  ∀ t rand, step file s (.advance t rand) = none

theorem relocksForward_of_noOvertaking
    {values : List CString} {role : T → Role} (hfour : 4 ≤ values.length)
    (hs : (swapSystem file values role).ReachableUnder (NoOvertaking file) s)
    (t : T) : (s.pc t).RelocksForward s.view := by
  cases file with
  | mutexList =>
      exact Pc.relocksForward_of_not_relocking
        (mutexList_not_relocking hs.reachable t) s.view
  | rwlockList => exact relocksForward_of_reachableUnder hfour hs t

omit [DecidableEq T] in
theorem NodeLock.exists_heldBy
    [DecidableEq T] {l : NodeLock T} {m : Mode} (h : l.acquire t m = none) :
    ∃ u, l.HeldBy u := by
  by_contra hnone
  push Not at hnone
  have hwriter : l.writer = none := by
    by_contra hne
    obtain ⟨u, hu⟩ := Option.ne_none_iff_exists'.mp hne
    exact hnone u (Or.inl hu)
  have hreaders : l.readers = [] :=
    List.eq_nil_iff_forall_not_mem.mpr fun u hu => hnone u (Or.inr hu)
  cases m <;> simp [NodeLock.acquire, hwriter, hreaders] at h

/-- A thread that cannot go on is done or blocked on a lock. -/
theorem Inv.waits_of_stuck
    (hi : Inv file n s) (hstuck : s.Stuck file) (hdone : s.pc t ≠ .done) :
    ∃ a, s.Waits file t a := by
  have hstep := hstuck t 0
  rw [step] at hstep
  cases hcode : code file s.size (s.pc t) with
  | lock m a next =>
      rw [hcode, exec] at hstep
      split at hstep
      · cases hstep
      · next node hnode =>
          exact ⟨a, m, next, node, hcode, hnode,
            Option.map_eq_none_iff.mp hstep⟩
  | halt =>
      have hend : s.pc t = .done ∨ s.pc t = .fault := by
        cases hpc : s.pc t with
        | done => exact Or.inl rfl
        | fault => exact Or.inr rfl
        | swap p => cases p <;> simp [hpc, code, safeSwapNodes] at hcode
        | count k p => cases p <;> simp [hpc, code, countNodes] at hcode
      exact absurd hend (not_or.mpr ⟨hdone, hi.ne_fault t⟩)
  | load | strlens | store | unlock =>
      rw [hcode, exec] at hstep
      split at hstep <;> cases hstep
  | readStop | rand | readFirst | countSwap | countPass =>
      rw [hcode, exec] at hstep
      cases hstep

/-- Where no thread can go on, all are done: otherwise those that are not
would wait for each other. -/
theorem Inv.done_of_stuck
    (hi : Inv file n s) (hforward : ∀ t, (s.pc t).RelocksForward s.view)
    (hstuck : s.Stuck file) (t : T) : s.pc t = .done := by
  have hranked := hi.rankedWaits hforward
  by_contra hdone
  refine hranked.not_waitCycle {u | s.pc u ≠ .done} ⟨⟨t, hdone⟩, ?_⟩
  intro u hu
  obtain ⟨a, hwaits⟩ := hi.waits_of_stuck hstuck hu
  obtain ⟨m, next, node, -, hnode, hblocked⟩ := id hwaits
  obtain ⟨x, hx⟩ := NodeLock.exists_heldBy hblocked
  have hholds : s.Holds x a := ⟨node, hnode, hx⟩
  refine ⟨a, hwaits, x, ?_, ?_, hholds⟩
  · intro hxdone
    have hheld := hi.mem_held_of_holds hholds
    simp [hxdone, Pc.held] at hheld
  · rintro rfl
    exact absurd (hranked.above x a a hwaits hholds) (lt_irrefl _)

/-- When all threads are done, no node is locked. -/
theorem Inv.sync_eq_init
    (hi : Inv file n s) (hdone : ∀ t, s.pc t = .done) {a : ℕ} {m : Node T}
    (hm : s.nodes a = some m) : m.sync = .init := by
  have hnone : ∀ u, ¬m.sync.HeldBy u := by
    intro u hu
    have hcount := (hi.locks a m hm).heldBy_iff.mp hu
    simp [hdone u, Pc.held] at hcount
  have hwriter : m.sync.writer = none := by
    by_contra hne
    obtain ⟨u, hu⟩ := Option.ne_none_iff_exists'.mp hne
    exact hnone u (Or.inl hu)
  have hreaders : m.sync.readers = [] :=
    List.eq_nil_iff_forall_not_mem.mpr fun u hu => hnone u (Or.inr hu)
  cases hsync : m.sync with
  | mk writer readers =>
      rw [hsync] at hwriter hreaders
      rw [NodeLock.init, ← hwriter, ← hreaders]

/-- When all threads are done, `free_list` frees the whole list. -/
theorem Inv.freeList_eq
    (hi : Inv file n s) (hdone : ∀ t, s.pc t = .done) :
    ∃ nodes, freeList file n s.nodes s.first = some nodes ∧
      ∀ a, nodes a = none := by
  have hchain := hi.chain fun t => by simp [hdone t, Pc.BetweenWrites]
  have hlen : s.order.length = n := by
    simpa using hi.order_perm.length_eq
  have hresult := freeList_of_chain file hchain fun _ _ _ hm =>
    hi.sync_eq_init hdone hm
  rw [hlen] at hresult
  refine ⟨_, hresult, fun a => ?_⟩
  by_cases ha : a < n
  · simp [hi.mem_order ha]
  · simp [hi.fresh a (by omega)]

/-- From any state in which `stop` is set, every schedule of the threads is
linear in their number and in the length of the list.  Where it cannot be
continued, all threads are done, so every join of `main` returns, no node is
locked, and `free_list` leaves no node behind and frees none twice.  In
`2.3m.c` this takes runs in which the write locks are taken in list order. -/
theorem swapList_shutsDown [Fintype T]
    {values : List CString} {role : T → Role} (hfour : 4 ≤ values.length)
    (hs : (swapSystem file values role).ReachableUnder (NoOvertaking file) s)
    (hstop : s.stop = true) {as : List (Action T)}
    (hallowed : (swapSystem file values role).RunAllowed (NoOvertaking file)
      s as)
    (hrun : (swapSystem file values role).run s as = some s') :
    as.length ≤ Fintype.card T * (5 * values.length + 38) +
        as.countP Action.isStop ∧
      (s'.Stuck file →
        (∀ t, s'.pc t = .done) ∧
          (∀ a node, s'.nodes a = some node → node.sync = .init) ∧
          ∃ nodes, freeList file values.length s'.nodes s'.first = some nodes ∧
            ∀ a, nodes a = none) := by
  constructor
  · have hbound := TransitionSystem.length_le_of_measure
      (I := fun s => Inv file values.length s ∧ s.stop = true)
      State.rank Action.isStop 0
      (fun s₁ a s₂ hI _ hstep =>
        let hrank := hI.1.rank_step hfour hI.2 hstep
        ⟨⟨step_inv hI.1 hstep, hrank.1⟩, hrank.2⟩)
      ⟨inv_of_reachable hfour hs, hstop⟩ hallowed hrun
    have hle := (inv_of_reachable hfour hs).rank_le
    omega
  · intro hstuck
    have hs' := hs.run hallowed hrun
    have hi := inv_of_reachable hfour hs'
    have hdone := hi.done_of_stuck
      (relocksForward_of_noOvertaking hfour hs') hstuck
    exact ⟨hdone, fun _ _ hnode => hi.sync_eq_init hdone hnode,
      hi.freeList_eq hdone⟩

/-- Two threads come to their end: `t` swaps and `u` counts. -/
def shutdownSchedule (t u : T) : List (Action T) :=
  .advance t 0 :: List.replicate 4 (.advance u 0)

theorem swapList_shutsDown_exchange :
    ∃ s s' : State (Fin 2), s.stop = true ∧ s.view.next 0 = some 2 ∧
      (swapSystem .mutexList fourValues (oneSwapper 0)).run s
        (shutdownSchedule 0 1) = some s' ∧
      (∀ t, s'.pc t = .done) ∧
      (∀ a node, s'.nodes a = some node → node.sync = .init) ∧
      ∃ nodes, freeList .mutexList 4 s'.nodes s'.first = some nodes ∧
        ∀ a, nodes a = none := by
  have hrun : (runProgram .mutexList fourValues (oneSwapper (0 : Fin 2))
      (exchangeSchedule 0 1 ++ [.stopThreads])).bind (fun s =>
        ((swapSystem .mutexList fourValues (oneSwapper 0)).run s
          (shutdownSchedule 0 1)).map fun s' => (s.stop, s.view.next 0,
            decide (∀ t, s'.pc t = .done))) =
      some (true, some 2, true) := rfl
  obtain ⟨s, hs, hobs⟩ := Option.bind_eq_some_iff.mp hrun
  obtain ⟨s', hs', hobs⟩ := Option.map_eq_some_iff.mp hobs
  simp only [Prod.mk.injEq, decide_eq_true_eq] at hobs
  obtain ⟨hstop, hnext, hdone⟩ := hobs
  have hreach : (swapSystem .mutexList fourValues (oneSwapper 0)).ReachableUnder
      (NoOvertaking .mutexList) s :=
    (reachable_of_runProgram hs).mono fun _ _ _ => trivial
  have hmain := swapList_shutsDown (by decide) hreach hstop
    ((TransitionSystem.runAllowed_true _ s (shutdownSchedule 0 1)).mono
      fun _ _ _ => trivial) hs'
  refine ⟨s, s', hstop, hnext, hs', hmain.2 fun t rand => ?_⟩
  simp [step, hdone t, code, exec]

end SwapList
end OsFifthSem
