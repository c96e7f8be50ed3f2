import OsFifthSem.Sync.SwapList.Invariant

/-!
# Concurrent exchanges keep the list

Whenever no thread is between its three pointer writes, the list is a
permutation of the one that was built, with the same first and last node, and
no thread ever follows a null pointer.  This holds for both programs: with
mutexes because a thread keeps the locks from the walk on, with read-write
locks because the two tests under the write locks make the stale pointers
harmless.
-/

namespace OsFifthSem
namespace SwapList

open Support

universe u

variable {T : Type u} [DecidableEq T]

/-- The nodes reached from `first` are those of the list `st`, in some order
with the same first and the same last node. -/
def KeepsList (st : Storage T) (s : State T) : Prop :=
  ∃ xs ys, Chain Node.next st.nodes st.first xs ∧
    Chain Node.next s.nodes s.first ys ∧ ys.Perm xs ∧
    ys.head? = xs.head? ∧ ys.getLast? = xs.getLast?

variable {file : Source} {n : ℕ} {s : State T}

theorem Inv.order_lt
    (hi : Inv file n s) {a : ℕ} (ha : a ∈ s.order) : a < n := by
  simpa using hi.order_perm.mem_iff.mp ha

theorem Inv.mem_order
    (hi : Inv file n s) {a : ℕ} (ha : a < n) : a ∈ s.order :=
  hi.order_perm.mem_iff.mpr (by simpa using ha)

/-- The node at a given place. -/
theorem Inv.getElem?_of_pos
    (hi : Inv file n s) {a i : ℕ} (ha : a < n) (hpos : s.view.pos a = i) :
    s.order[i]? = some a := by
  rw [← hpos]
  exact List.getElem?_idxOf (hi.mem_order ha)

/-- Outside the pointer writes the links follow the list order. -/
theorem Inv.chain
    (hi : Inv file n s) (hidle : ∀ t, ¬(s.pc t).BetweenWrites) :
    Chain Node.next s.nodes s.first s.order := by
  have hbound := hi.bound_eq
  have hlen : s.order.length = n := hbound
  have hfour : 4 ≤ n := hbound ▸ hi.linked.four
  have hhead : s.order.head? = s.first := by
    rw [hi.first_eq, List.head?_eq_getElem?]
    exact hi.getElem?_of_pos (by omega) hi.linked.pos_first
  have hfresh : ∀ a, ¬s.Stale a := by
    rintro a ⟨t, ht⟩
    simp [Pc.stale_eq_nil (hidle t)] at ht
  rw [← hhead]
  refine Chain.of_links fun i hilt => ?_
  have hlt : s.order[i] < n := hi.order_lt (List.getElem_mem hilt)
  obtain ⟨m, hm⟩ := hi.cell _ hlt
  refine ⟨m, hm, ?_⟩
  have hpos : s.view.pos s.order[i] = i :=
    (hi.order_perm.nodup_iff.mpr List.nodup_range).idxOf_getElem i hilt
  have hnext : s.view.next s.order[i] = m.next := by
    simp [State.view, hm]
  cases hlink : m.next with
  | none =>
      have hlast := (hi.linked.last_iff _ (hbound ▸ hlt)).mp (hnext.trans hlink)
      have := hi.linked.pos_last _ hlast
      exact (List.getElem?_eq_none (by omega)).symm
  | some b =>
      have hb := hi.linked.next_lt _ b (hnext.trans hlink)
      have hplace := hi.linked.pos_next _ b (hbound ▸ hlt)
        (hnext.trans hlink) (hfresh _)
      exact (hi.getElem?_of_pos (hbound ▸ hb) (by omega)).symm

theorem Inv.keepsList
    (hi : Inv file n s) {st : Storage T} (hb : Built n n st)
    (hidle : ∀ t, ¬(s.pc t).BetweenWrites) : KeepsList st s := by
  have hbound := hi.bound_eq
  have hfour : 4 ≤ n := hbound ▸ hi.linked.four
  refine ⟨List.range n, s.order, hb.chain, hi.chain hidle, hi.order_perm, ?_, ?_⟩
  · rw [List.head?_eq_getElem?, List.head?_eq_getElem?,
      hi.getElem?_of_pos (by omega) hi.linked.pos_first,
      List.getElem?_range (by omega)]
  · have hlast := hi.linked.pos_last (n - 1) (by omega)
    have hplace : s.order[n - 1]? = some (n - 1) :=
      hi.getElem?_of_pos (by omega) (by omega)
    rw [List.getLast?_eq_getElem?, List.getLast?_eq_getElem?,
      hi.order_perm.length_eq, List.length_range, hplace,
      List.getElem?_range (by omega)]

theorem Inv.ne_fault (hi : Inv file n s) (t : T) : s.pc t ≠ .fault := by
  intro hfault
  have hf := hi.facts t
  rw [hfault] at hf
  exact hf

/-! ## The list with mutexes -/

/-- `2.3-2.4.c`: for every list of at least four nodes, every number of swap
threads and counters and every interleaving. -/
theorem mutexList_keepsList
    {values : List CString} {role : T → Role} (hfour : 4 ≤ values.length)
    (hs : (swapSystem .mutexList values role).Reachable s) :
    (∀ t, s.pc t ≠ .fault) ∧
      ∃ st, buildStorage T values = some st ∧
        ((∀ t, ¬(s.pc t).BetweenWrites) → KeepsList st s) := by
  have hi := inv_of_reachable hfour hs
  obtain ⟨st, hbuild, hb⟩ := buildStorage_built (T := T) values
  exact ⟨hi.ne_fault, st, hbuild, hi.keepsList hb⟩

/-- The swap thread exchanges the second and the third node while the counter
stands in front of its test of `first->next`. -/
def exchangeSchedule (swapper counter : T) : List (Action T) :=
  List.replicate 2 (.advance counter 0) ++
    List.replicate 23 (.advance swapper 0)

theorem mutexList_keepsList_exchange :
    ∃ (st : Storage (Fin 2)) (s : State (Fin 2)),
      buildStorage (Fin 2) fourValues = some st ∧
        s.view.next 0 = some 2 ∧ s.view.next 2 = some 1 ∧
        s.view.next 1 = some 3 ∧ (∀ t, s.pc t ≠ .fault) ∧ KeepsList st s := by
  have hrun : (runProgram .mutexList fourValues (oneSwapper (0 : Fin 2))
      (exchangeSchedule 0 1)).map (fun s => (s.pc 0, s.pc 1, s.view.next 0,
        s.view.next 1, s.view.next 2)) =
      some (.swap .threadTop, .count .ascending (.testNext 0 0), some 2,
        some 3, some 1) := rfl
  obtain ⟨s, hs, hobs⟩ := Option.map_eq_some_iff.mp hrun
  simp only [Prod.mk.injEq] at hobs
  obtain ⟨hpc0, hpc1, h0, h1, h2⟩ := hobs
  obtain ⟨hfault, st, hbuild, hkeeps⟩ :=
    mutexList_keepsList (by decide) (reachable_of_runProgram hs)
  refine ⟨st, s, hbuild, h0, h2, h1, hfault, hkeeps fun t => ?_⟩
  obtain rfl | rfl : t = 0 ∨ t = 1 := by omega
  · simp [hpc0, Pc.BetweenWrites]
  · simp [hpc1, Pc.BetweenWrites]

/-! ## The list with read-write locks -/

/-- The thread found its three pointers stale and is unlocking them. -/
def Pc.Failing : Pc → Prop
  | .swap (.failPrev _ _ _) | .swap (.failCurrent _ _) | .swap (.failNext _) =>
      True
  | _ => False

/-- The two states have the same links. -/
def SameLinks (s s' : State T) : Prop :=
  ∀ a, (s'.nodes a).map Node.next = (s.nodes a).map Node.next

/-- The next test of the thread fails: `prev->next != current` or
`current->next != next`. -/
def FailsCheck (s : State T) (t : T) (p c x : ℕ) : Prop :=
  (s.pc t = .swap (.validatePrev p c x) ∧ s.view.next p ≠ some c) ∨
    (s.pc t = .swap (.validateCurrent p c x) ∧ s.view.next c ≠ some x)

theorem sameLinks_setNode
    {a : ℕ} {m k : Node T} (hm : s.nodes a = some m) (hnext : k.next = m.next)
    (t : T) (pc : Pc) : SameLinks s ((s.setNode a k).goto t pc) := by
  intro b
  by_cases hba : b = a
  · subst hba
    simp [State.goto, State.setNode, hm, hnext]
  · simp [State.goto, State.setNode, hba]

theorem Inv.failed_check
    (hi : Inv file n s) {t : T} {p c x : ℕ} (hfail : FailsCheck s t p c x)
    (rand : ℕ) :
    ∃ s', step file s (.advance t rand) = some s' ∧
      s'.pc t = .swap (.failPrev p c x) ∧ SameLinks s s' := by
  have hbound := hi.bound_eq
  have hf := hi.facts t
  have hgo : ∀ pc : Pc, (s.goto t pc).pc t = pc := fun pc =>
    Function.update_self ..
  rcases hfail with ⟨hpc, hne⟩ | ⟨hpc, hne⟩
  · have ht : s.view.Triple p c x := by rwa [hpc] at hf
    obtain ⟨m, hm⟩ := hi.cell p (hbound ▸ ht.prev)
    have hlink : m.next ≠ some c := by simpa [State.view, hm] using hne
    refine ⟨s.goto t (.swap (.failPrev p c x)), ?_, hgo _, fun _ => rfl⟩
    simp [step, hpc, code, safeSwapNodes, exec, hm, hlink]
  · have ht : s.view.Triple p c x ∧ s.view.next p = some c := by
      rwa [hpc] at hf
    obtain ⟨m, hm⟩ := hi.cell c (hbound ▸ ht.1.current)
    have hlink : m.next ≠ some x := by simpa [State.view, hm] using hne
    refine ⟨s.goto t (.swap (.failPrev p c x)), ?_, hgo _, fun _ => rfl⟩
    simp [step, hpc, code, safeSwapNodes, exec, hm, hlink]

/-- A thread that holds no lock according to its point holds none. -/
theorem Inv.not_heldBy
    (hi : Inv file n s) {t : T} (hheld : (s.pc t).held = []) {a : ℕ}
    {m : Node T} (hm : s.nodes a = some m) : ¬m.sync.HeldBy t := by
  rw [(hi.locks a m hm).heldBy_iff, hheld]
  simp

/-- An unlock behind a failed test changes no link and never blocks. -/
theorem Inv.failing_step
    (hi : Inv file n s) {t : T} (hfailing : (s.pc t).Failing) (rand : ℕ) :
    ∃ s', step file s (.advance t rand) = some s' ∧ SameLinks s s' ∧
      ((s'.pc t).Failing ∨ (s'.pc t = .swap .retry ∧
        ∀ a m, s'.nodes a = some m → ¬m.sync.HeldBy t)) := by
  have hunlock : ∀ a next, code file s.size (s.pc t) = .unlock a next →
      ∃ s', step file s (.advance t rand) = some s' ∧ SameLinks s s' ∧
        s'.pc t = next := by
    intro a next hcode
    have hsound := hi.sound t
    rw [hcode] at hsound
    obtain ⟨m, hm⟩ := hi.cell a (hi.bound_eq ▸ hsound.1)
    have hlinks := sameLinks_setNode (k := { m with sync := m.sync.release t })
      hm rfl t next
    refine ⟨_, ?_, hlinks, Function.update_self ..⟩
    simp [step, hcode, exec, hm]
  cases hpc : s.pc t with
  | swap p =>
      cases p with
      | failPrev p c x =>
          obtain ⟨s', hstep, hlinks, hnext⟩ :=
            hunlock p (.swap (.failCurrent c x)) (by rw [hpc]; rfl)
          exact ⟨s', hstep, hlinks, Or.inl (by rw [hnext]; trivial)⟩
      | failCurrent c x =>
          obtain ⟨s', hstep, hlinks, hnext⟩ :=
            hunlock c (.swap (.failNext x)) (by rw [hpc]; rfl)
          exact ⟨s', hstep, hlinks, Or.inl (by rw [hnext]; trivial)⟩
      | failNext x =>
          obtain ⟨s', hstep, hlinks, hnext⟩ :=
            hunlock x (.swap .retry) (by rw [hpc]; rfl)
          refine ⟨s', hstep, hlinks, Or.inr ⟨hnext, fun a m hm => ?_⟩⟩
          have hi' : Inv file n s' := step_inv hi hstep
          exact hi'.not_heldBy (by rw [hnext]; rfl) hm
      | _ =>
          rw [hpc] at hfailing
          exact hfailing.elim
  | count k p =>
      rw [hpc] at hfailing
      exact hfailing.elim
  | done =>
      rw [hpc] at hfailing
      exact hfailing.elim
  | fault =>
      rw [hpc] at hfailing
      exact hfailing.elim

/-- `2.3m.c`: for every list of at least four nodes, every number of swap
threads and counters and every interleaving.  A thread whose test fails goes
on to release its three write locks, which changes no link, and holds no lock
when it tries again. -/
theorem rwlockList_keepsList
    {values : List CString} {role : T → Role} (hfour : 4 ≤ values.length)
    (hs : (swapSystem .rwlockList values role).Reachable s) :
    (∀ t, s.pc t ≠ .fault) ∧
      (∃ st, buildStorage T values = some st ∧
        ((∀ t, ¬(s.pc t).BetweenWrites) → KeepsList st s)) ∧
      (∀ t p c x rand, FailsCheck s t p c x →
        ∃ s', step .rwlockList s (.advance t rand) = some s' ∧
          s'.pc t = .swap (.failPrev p c x) ∧ SameLinks s s') ∧
      ∀ t rand, (s.pc t).Failing →
        ∃ s', step .rwlockList s (.advance t rand) = some s' ∧
          SameLinks s s' ∧ ((s'.pc t).Failing ∨ (s'.pc t = .swap .retry ∧
            ∀ a m, s'.nodes a = some m → ¬m.sync.HeldBy t)) := by
  have hi := inv_of_reachable hfour hs
  obtain ⟨st, hbuild, hb⟩ := buildStorage_built (T := T) values
  refine ⟨hi.ne_fault, ⟨st, hbuild, hi.keepsList hb⟩, ?_, ?_⟩
  · exact fun t p c x rand hfail => hi.failed_check hfail rand
  · exact fun t rand hfailing => hi.failing_step hfailing rand

/-- Two swap threads. -/
def twoSwappers (_ : Fin 2) : Role := .swap

/-- Both threads read the same three nodes; `u` exchanges them first, and the
test of `t` fails. -/
def staleSchedule (t u : T) : List (Action T) :=
  List.replicate 18 (.advance t 0) ++ List.replicate 31 (.advance u 0) ++
    List.replicate 3 (.advance t 0)

theorem rwlockList_keepsList_stale :
    ∃ (st : Storage (Fin 2)) (s : State (Fin 2)),
      buildStorage (Fin 2) fourValues = some st ∧
        FailsCheck s 0 0 1 2 ∧ KeepsList st s ∧
        ∃ s', step .rwlockList s (.advance 0 0) = some s' ∧
          s'.pc 0 = .swap (.failPrev 0 1 2) ∧ SameLinks s s' := by
  have hrun : (runProgram .rwlockList fourValues twoSwappers
      (staleSchedule 0 1)).map (fun s => (s.pc 0, s.pc 1, s.view.next 0)) =
      some (.swap (.validatePrev 0 1 2), .swap .threadTop, some 2) := rfl
  obtain ⟨s, hs, hobs⟩ := Option.map_eq_some_iff.mp hrun
  simp only [Prod.mk.injEq] at hobs
  obtain ⟨hpc0, hpc1, h0⟩ := hobs
  obtain ⟨-, ⟨st, hbuild, hkeeps⟩, hfails, -⟩ :=
    rwlockList_keepsList (by decide) (reachable_of_runProgram hs)
  have hfail : FailsCheck s 0 0 1 2 := Or.inl ⟨hpc0, by simp [h0]⟩
  refine ⟨st, s, hbuild, hfail, hkeeps fun t => ?_, hfails 0 0 1 2 0 hfail⟩
  obtain rfl | rfl : t = 0 ∨ t = 1 := by omega
  · simp [hpc0, Pc.BetweenWrites]
  · simp [hpc1, Pc.BetweenWrites]

end SwapList
end OsFifthSem
