import OsFifthSem.Support.WaitFor
import OsFifthSem.Sync.SwapList.Safety

/-!
# Deadlocks on the node locks

With mutexes a thread waits only for the successor of the last node it holds.
That edge cannot change while the node is held, so waits lead to ever later
places of the list and no set of threads is deadlocked, although the places
of free nodes change all the time.

With read-write locks a thread forgets its locks and takes them again in the
order in which it found the nodes.  That order may be out of date, and then
two threads can lock two nodes in opposite orders.
-/

namespace OsFifthSem
namespace SwapList

open Support

universe u

variable {T : Type u} [DecidableEq T]

/-- The thread is blocked on the lock of node `a`. -/
def State.Waits (file : Source) (s : State T) (t : T) (a : ℕ) : Prop :=
  ∃ m next node, code file s.size (s.pc t) = .lock m a next ∧
    s.nodes a = some node ∧ node.sync.acquire t m = none

/-- The thread holds the lock of node `a`. -/
def State.Holds (s : State T) (t : T) (a : ℕ) : Prop :=
  ∃ node, s.nodes a = some node ∧ node.sync.HeldBy t

/-- The write locks that a thread holds, and the one it waits for, are in list
order. -/
def Pc.RelocksForward (v : View) : Pc → Prop
  | .swap (.relockCurrent p c _) => v.pos p < v.pos c
  | .swap (.relockNext p c x) => v.pos p < v.pos c ∧ v.pos c < v.pos x
  | _ => True

variable {file : Source} {n : ℕ} {s s' : State T} {t u : T}

theorem Inv.mem_held_of_holds
    (hi : Inv file n s) {a : ℕ} (hheld : s.Holds t a) : a ∈ (s.pc t).held := by
  obtain ⟨node, hnode, hby⟩ := hheld
  have hcount := (hi.locks a node hnode).heldBy_iff.mp hby
  exact List.count_pos_iff.mp (Nat.pos_of_ne_zero hcount)

/-- A thread that is about to lock a node holds only nodes in front of it. -/
theorem Pc.Facts.lock_forward
    {v : View} {stale : ℕ → Prop} {pc : Pc} {m : Mode} {a b : ℕ} {next : Pc}
    {size : ℤ} (hf : pc.Facts v) (hforward : pc.RelocksForward v)
    (hlinked : v.Linked stale) (hfree : ∀ d ∈ pc.held, ¬stale d)
    (hcode : code file size pc = .lock m a next) (hb : b ∈ pc.held) :
    v.pos b < v.pos a := by
  cases pc with
  | done => simp [code] at hcode
  | fault => simp [code] at hcode
  | count k p =>
      cases p with
      | currentLock cur n => simp [Pc.held, CountPc.held] at hb
      | nextLock cur n q =>
          obtain ⟨hcur, hq, -⟩ := hf
          obtain rfl : b = cur := by simpa [Pc.held, CountPc.held] using hb
          obtain ⟨-, rfl, -⟩ := Command.lock.inj hcode
          have := hlinked.pos_next b q hcur hq (hfree b hb)
          omega
      | _ => simp [code, countNodes] at hcode
  | swap p =>
      cases p with
      | firstLock r q => simp [Pc.held, SwapPc.held] at hb
      | relockPrev p c x => simp [Pc.held, SwapPc.held] at hb
      | walkLock r ind p q =>
          obtain ⟨hw, hq, -⟩ := hf
          obtain ⟨-, rfl, -⟩ := Command.lock.inj hcode
          obtain rfl : b = p := by simpa [Pc.held, SwapPc.held] using hb
          have := hlinked.pos_next b q hw.node hq (hfree b hb)
          omega
      | currentLock p q =>
          obtain ⟨hp, hq, -⟩ := hf
          obtain ⟨-, rfl, -⟩ := Command.lock.inj hcode
          obtain rfl : b = p := by simpa [Pc.held, SwapPc.held] using hb
          have := hlinked.pos_next b q hp.node hq (hfree b hb)
          omega
      | nextLock p c q =>
          obtain ⟨hp, ⟨hc, -⟩, hq, -⟩ := hf
          obtain ⟨-, rfl, -⟩ := Command.lock.inj hcode
          have hcons := hlinked.consecutive hp.node
            (hfree p (by simp [Pc.held, SwapPc.held])) hc
            (hfree c (by simp [Pc.held, SwapPc.held])) hq
          have h1 := hcons.current
          have h2 := hcons.next
          rcases (by simpa [Pc.held, SwapPc.held] using hb : b = c ∨ b = p)
            with rfl | rfl <;> omega
      | relockCurrent p c x =>
          obtain ⟨-, rfl, -⟩ := Command.lock.inj hcode
          obtain rfl : b = p := by simpa [Pc.held, SwapPc.held] using hb
          exact hforward
      | relockNext p c x =>
          obtain ⟨hpc, hcx⟩ := hforward
          obtain ⟨-, rfl, -⟩ := Command.lock.inj hcode
          rcases (by simpa [Pc.held, SwapPc.held] using hb : b = c ∨ b = p)
            with rfl | rfl <;> omega
      | _ => simp [code, safeSwapNodes] at hcode

theorem Inv.rankedWaits
    (hi : Inv file n s) (hforward : ∀ t, (s.pc t).RelocksForward s.view) :
    RankedWaits (s.Waits file) s.Holds s.view.pos n := by
  constructor
  · rintro t a b ⟨m, next, node, hcode, -, hblocked⟩ hheld
    have hb := hi.mem_held_of_holds hheld
    have hidle : (s.pc t).stale = [] := by
      refine Pc.stale_eq_nil fun hbetween => ?_
      unfold Pc.BetweenWrites at hbetween
      split at hbetween <;> simp_all [code, safeSwapNodes]
    have hfree : ∀ d ∈ (s.pc t).held, ¬s.Stale d := by
      intro d hd
      rw [s.stale_iff t, hidle]
      simpa using hi.not_staleElsewhere hd
    exact (hi.facts t).lock_forward (hforward t) hi.linked hfree hcode hb
  · rintro t a ⟨m, next, node, -, hnode, -⟩
    have ha : a < n := by
      by_contra h
      rw [hi.fresh a (by omega)] at hnode
      simp at hnode
    have hbound := hi.bound_eq
    exact hbound ▸ hi.linked.pos_lt a (hbound.symm ▸ ha)

/-! ## Where a thread can go on -/

/-- Every point at which the thread may go on satisfies `P`. -/
def Command.AllNext (P : Pc → Prop) : Command → Prop
  | .readStop next => ∀ b, P (next b)
  | .rand next => ∀ n, P (next n)
  | .readFirst next => ∀ v, P (next v)
  | .load _ next => ∀ v, P (next v)
  | .strlens _ _ next => ∀ m n, P (next m n)
  | .store _ _ _ next => P next
  | .lock _ _ next => P next
  | .unlock _ next => P next
  | .countSwap next => P next
  | .countPass _ next => P next
  | .halt => True

theorem exec_next
    {P : Pc → Prop} {cmd : Command} {rand : ℕ}
    (hstep : exec s t rand cmd = some s') (hall : cmd.AllNext P)
    (hfault : P .fault) : P (s'.pc t) ∧ ∀ u, u ≠ t → s'.pc u = s.pc u := by
  have hgo : ∀ {r : State T} {pc : Pc}, r.goto t pc = s' → r.pc = s.pc → P pc →
      P (s'.pc t) ∧ ∀ u, u ≠ t → s'.pc u = s.pc u := by
    rintro r pc rfl hr hP
    refine ⟨by simpa [State.goto] using hP, fun u hu => ?_⟩
    simp [State.goto, hu, hr]
  cases cmd with
  | readStop next => exact hgo (Option.some.inj hstep) rfl (hall _)
  | rand next => exact hgo (Option.some.inj hstep) rfl (hall _)
  | readFirst next => exact hgo (Option.some.inj hstep) rfl (hall _)
  | load a next =>
      simp only [exec] at hstep
      split at hstep
      · exact hgo (Option.some.inj hstep) rfl hfault
      · exact hgo (Option.some.inj hstep) rfl (hall _)
  | strlens a b next =>
      simp only [exec] at hstep
      split at hstep
      · exact hgo (Option.some.inj hstep) rfl (hall _ _)
      · exact hgo (Option.some.inj hstep) rfl hfault
  | store a w e next =>
      simp only [exec] at hstep
      split at hstep
      · exact hgo (Option.some.inj hstep) rfl hfault
      · exact hgo (Option.some.inj hstep) rfl hall
  | lock m a next =>
      simp only [exec] at hstep
      split at hstep
      · exact hgo (Option.some.inj hstep) rfl hfault
      · obtain ⟨l, -, heq⟩ := Option.map_eq_some_iff.mp hstep
        exact hgo heq rfl hall
  | unlock a next =>
      simp only [exec] at hstep
      split at hstep
      · exact hgo (Option.some.inj hstep) rfl hfault
      · exact hgo (Option.some.inj hstep) rfl hall
  | countSwap next => exact hgo (Option.some.inj hstep) rfl hall
  | countPass k next => exact hgo (Option.some.inj hstep) rfl hall
  | halt => simp [exec] at hstep

/-- A thread reaches the points that only `2.3m.c` has, up to the last of the
three write locks, from one another only. -/
def Pc.LeadsTo (file : Source) (pc : Pc) : Pc → Prop
  | .swap (.dropPrev _ _ _) => file = .rwlockList
  | .swap (.dropCurrent p c x) => pc = .swap (.dropPrev p c x)
  | .swap (.dropNext p c x) => pc = .swap (.dropCurrent p c x)
  | .swap (.relockPrev p c x) => pc = .swap (.dropNext p c x)
  | .swap (.relockCurrent p c x) => pc = .swap (.relockPrev p c x)
  | .swap (.relockNext p c x) => pc = .swap (.relockCurrent p c x)
  | _ => True

theorem leadsTo_loopHead (file : Source) (pc : Pc) (r ind : ℤ) (p : ℕ) :
    pc.LeadsTo file (loopHead r ind p) := by
  unfold loopHead
  split_ifs <;> trivial

theorem safeSwapNodes_leadsTo (file : Source) (size : ℤ) (p : SwapPc) :
    (safeSwapNodes file size p).AllNext ((Pc.swap p).LeadsTo file) := by
  cases p with
  | threadTop =>
      rintro (_ | _)
      · dsimp only
        split_ifs <;> trivial
      · trivial
  | firstLoad r q =>
      rintro (_ | p)
      · trivial
      · exact leadsTo_loopHead ..
  | walkUnlock r ind temp prev =>
      cases prev with
      | none => trivial
      | some p => exact leadsTo_loopHead ..
  | nextLoad p c q =>
      rintro (_ | x)
      · trivial
      · cases file <;> trivial
  | checkNextNext p q | validatePrev p c x | validateCurrent p c x =>
      intro v
      dsimp only
      split_ifs <;> trivial
  | retry | firstTarget r | loopTest r ind p | walkTarget r ind p
  | checkNext p | checkTarget p | currentTarget p | currentLoad p q
  | nextTarget p c =>
      rintro (_ | _) <;> trivial
  | pickRand | walkLoad r ind p q | loadNextNext p c x => exact fun _ => trivial
  | dropPrev p c x | dropCurrent p c x | dropNext p c x | relockPrev p c x
  | relockCurrent p c x => exact rfl
  | _ => trivial

theorem code_leadsTo (file : Source) (size : ℤ) (pc : Pc) :
    (code file size pc).AllNext (pc.LeadsTo file) := by
  cases pc with
  | swap p => exact safeSwapNodes_leadsTo file size p
  | count k p =>
      cases p with
      | threadTop | passTop | testNext cur n | testStop cur n
      | nextTarget cur n | compareTarget cur n q | nextLoad cur n q =>
          rintro (_ | _) <;> trivial
      | compare cur n q b => exact fun _ _ => trivial
      | _ => trivial
  | done => trivial
  | fault => trivial

/-! ## The list with mutexes -/

/-- The points that only `2.3m.c` has, up to the last of the three write
locks. -/
def Pc.Relocking : Pc → Prop
  | .swap (.dropPrev _ _ _) | .swap (.dropCurrent _ _ _)
  | .swap (.dropNext _ _ _) | .swap (.relockPrev _ _ _)
  | .swap (.relockCurrent _ _ _) | .swap (.relockNext _ _ _) => True
  | _ => False

theorem Pc.LeadsTo.not_relocking
    {pc q : Pc} (hlead : pc.LeadsTo .mutexList q) (hpc : ¬pc.Relocking) :
    ¬q.Relocking := by
  intro hq
  unfold Pc.Relocking at hq
  split at hq
  · cases hlead
  · exact hpc ((hlead : pc = _) ▸ trivial)
  · exact hpc ((hlead : pc = _) ▸ trivial)
  · exact hpc ((hlead : pc = _) ▸ trivial)
  · exact hpc ((hlead : pc = _) ▸ trivial)
  · exact hpc ((hlead : pc = _) ▸ trivial)
  · exact hq

theorem Pc.relocksForward_of_not_relocking
    {pc : Pc} (hpc : ¬pc.Relocking) (v : View) : pc.RelocksForward v := by
  unfold Pc.RelocksForward
  split
  · exact absurd trivial hpc
  · exact absurd trivial hpc
  · trivial

theorem mutexList_not_relocking
    {values : List CString} {role : T → Role}
    (hs : (swapSystem .mutexList values role).Reachable s) (t : T) :
    ¬(s.pc t).Relocking := by
  refine TransitionSystem.ReachableUnder.invariant
    (P := fun s => ∀ t, ¬(s.pc t).Relocking) ?_ ?_ hs t
  · rintro s ⟨st, -, rfl⟩ t
    change ¬(role t).start.Relocking
    cases role t <;> exact id
  · intro s a s' hinv _ hstep t
    cases a with
    | advance u rand =>
        obtain ⟨hlead, hothers⟩ :=
          exec_next hstep (code_leadsTo .mutexList s.size (s.pc u)) trivial
        by_cases htu : t = u
        · subst htu
          exact hlead.not_relocking (hinv t)
        · rw [hothers t htu]
          exact hinv t
    | stopThreads =>
        obtain rfl := Option.some.inj hstep
        exact hinv t

/-- `2.3-2.4.c`: no reachable state contains a set of threads each blocked on
a node mutex that another thread of the set holds. -/
theorem mutexList_noDeadlock
    {values : List CString} {role : T → Role} (hfour : 4 ≤ values.length)
    (hs : (swapSystem .mutexList values role).Reachable s) (D : Set T) :
    ¬WaitCycle (s.Waits .mutexList) s.Holds D := by
  have hi := inv_of_reachable hfour hs
  have hforward : ∀ t, (s.pc t).RelocksForward s.view := fun t =>
    Pc.relocksForward_of_not_relocking (mutexList_not_relocking hs t) s.view
  exact (hi.rankedWaits hforward).not_waitCycle D

omit [DecidableEq T] in
theorem waits_of_writer
    {m : Mode} {a : ℕ} {next : Pc}
    (hcode : code file s.size (s.pc t) = .lock m a next)
    (hwriter : (s.nodes a).map (fun k => k.sync.writer) = some (some u)) :
    s.Waits file t a ∧ s.Holds u a := by
  obtain ⟨node, hnode, hw⟩ := Option.map_eq_some_iff.mp hwriter
  constructor
  · refine ⟨m, next, node, hcode, hnode, ?_⟩
    cases m <;> simp [NodeLock.acquire, hw]
  · exact ⟨node, hnode, Or.inl hw⟩

/-- The swap thread holds the first two nodes while the counter waits for the
first one. -/
def contendedSchedule (swapper counter : T) : List (Action T) :=
  List.replicate 4 (.advance counter 0) ++
    List.replicate 13 (.advance swapper 0)

theorem mutexList_noDeadlock_contended :
    ∃ s : State (Fin 2), s.Waits .mutexList 1 0 ∧ s.Holds 0 0 ∧
      s.Holds 0 1 ∧ ∀ D, ¬WaitCycle (s.Waits .mutexList) s.Holds D := by
  have hrun : (runProgram .mutexList fourValues (oneSwapper (0 : Fin 2))
      (contendedSchedule 0 1)).map (fun s => (s.pc 1,
        (s.nodes 0).map fun k => k.sync.writer,
        (s.nodes 1).map fun k => k.sync.writer)) =
      some (.count .ascending (.currentLock 0 0), some (some 0),
        some (some 0)) := rfl
  obtain ⟨s, hs, hobs⟩ := Option.map_eq_some_iff.mp hrun
  simp only [Prod.mk.injEq] at hobs
  obtain ⟨hpc, h0, h1⟩ := hobs
  obtain ⟨hwaits, hholds⟩ := waits_of_writer (by rw [hpc]; rfl) h0
  obtain ⟨node, hnode, hw⟩ := Option.map_eq_some_iff.mp h1
  exact ⟨s, hwaits, hholds, ⟨node, hnode, Or.inl hw⟩,
    mutexList_noDeadlock (by decide) (reachable_of_runProgram hs)⟩

/-! ## The list with read-write locks -/

/-- The node that a thread is about to lock for writing and the one it locks
for writing next. -/
def Pc.relocks : Pc → Option (ℕ × ℕ)
  | .swap (.relockPrev p c _) => some (p, c)
  | .swap (.relockCurrent _ c x) => some (c, x)
  | _ => none

/-- The step takes the write lock of `prev` or `current` only if `current` or
`next`, which is locked next, is still behind it in the list. -/
def LocksForward (s : State T) : Action T → Prop
  | .advance t _ => ∀ e ∈ (s.pc t).relocks, s.view.pos e.1 < s.view.pos e.2
  | .stopThreads => True

instance (s : State T) (a : Action T) : Decidable (LocksForward s a) :=
  match a with
  | .advance t _ => inferInstanceAs (Decidable
      (∀ e ∈ (s.pc t).relocks, s.view.pos e.1 < s.view.pos e.2))
  | .stopThreads => inferInstanceAs (Decidable True)

/-- An exchange of two neighbours does not move a node past a third one. -/
theorem View.Linked.lt_store
    {v : View} {stale : ℕ → Prop} {a b c x d : ℕ} {w : Option ℕ}
    (hl : v.Linked stale) (hb : b < v.bound) (hc : c < v.bound)
    (hbc : b ≠ c) (hbx : b ≠ x) (hadj : v.pos x = v.pos c + 1)
    (hlt : v.pos b < v.pos d) :
    (v.store a w (some (c, x))).pos b < (v.store a w (some (c, x))).pos d := by
  have hpos : v.pos b ≠ v.pos c := fun h => hbc (hl.pos_inj b hb c hc h)
  have hold : (v.store a w (some (c, x))).pos b = v.pos b :=
    congrArg v.pos (Equiv.swap_apply_of_ne_of_ne hbc hbx)
  rw [hold]
  by_cases hdc : d = c
  · subst hdc
    have hnew : (v.store a w (some (d, x))).pos d = v.pos x := by
      simp [View.store]
    omega
  · by_cases hdx : d = x
    · subst hdx
      have hnew : (v.store a w (some (c, d))).pos d = v.pos c := by
        simp [View.store]
      omega
    · have hnew : (v.store a w (some (c, x))).pos d = v.pos d :=
        congrArg v.pos (Equiv.swap_apply_of_ne_of_ne hdc hdx)
      omega

theorem Moves.pos_eq
    {pc : Pc} {nodes : ℕ → Option (Node T)}
    (hm : Moves s t pc nodes s.order s') (a : ℕ) :
    s'.view.pos a = s.view.pos a :=
  congrArg (fun order : List ℕ => order.idxOf a) hm.order_eq

/-- A step keeps the order between a node that another thread holds and any
other node. -/
theorem Effect.lt_of_held
    (he : Effect file s t s') (hi : Inv file n s) (hne : u ≠ t) {b d : ℕ}
    (hb : b ∈ (s.pc u).held) (hlt : s.view.pos b < s.view.pos d) :
    s'.view.pos b < s'.view.pos d := by
  cases he with
  | quiet next hm hfollows => rwa [hm.pos_eq, hm.pos_eq]
  | lock m a node l next hnode hlock hm hsound => rwa [hm.pos_eq, hm.pos_eq]
  | unlock a node next hnode hm hsound => rwa [hm.pos_eq, hm.pos_eq]
  | store a w e node next hnode hm hsound =>
      obtain ⟨-, ⟨-, hmode⟩, hex, -, -⟩ := hsound
      rw [hm.view_store]
      rcases e with _ | ⟨c, x⟩
      · exact hlt
      · obtain ⟨⟨hc, hx⟩, hadj⟩ := hex c x rfl
        have hother : ∀ a ∈ (s.pc t).held, b ≠ a := by
          rintro a ha rfl
          exact hne (hi.eq_of_exclusive ha hmode hb)
        apply hi.linked.lt_store
        · exact (hi.facts u).held_lt hi.linked.four hb
        · exact (hi.facts t).held_lt hi.linked.four hc
        · exact hother c hc
        · exact hother x hx
        · exact hadj
        · exact hlt

theorem exec_lock_order
    {rand a : ℕ} {m : Mode} {next : Pc}
    (hstep : exec s t rand (.lock m a next) = some s') : s'.order = s.order := by
  simp only [exec] at hstep
  split at hstep
  · obtain rfl := Option.some.inj hstep
    rfl
  · obtain ⟨l, -, rfl⟩ := Option.map_eq_some_iff.mp hstep
    rfl

theorem relocksForward_step
    {rand : ℕ} (hi : Inv file n s)
    (hforward : ∀ u, (s.pc u).RelocksForward s.view)
    (hlocks : LocksForward s (.advance t rand))
    (hstep : step file s (.advance t rand) = some s') (u : T) :
    (s'.pc u).RelocksForward s'.view := by
  obtain ⟨hlead, hothers⟩ :=
    exec_next hstep (code_leadsTo file s.size (s.pc t)) trivial
  have he := hi.effect hstep
  -- another thread only moves nodes that this one does not hold
  have hkeep : ∀ b ∈ (s.pc u).held, u ≠ t → ∀ d,
      s.view.pos b < s.view.pos d → s'.view.pos b < s'.view.pos d :=
    fun b hb hut d => he.lt_of_held hi hut hb
  have hforward := hforward u
  cases hpc : s'.pc u with
  | swap p =>
      cases p with
      | relockCurrent p c x =>
          by_cases hut : u = t
          · subst hut
            have hold : s.pc u = .swap (.relockPrev p c x) := by
              rwa [hpc] at hlead
            have horder : s'.order = s.order := by
              rw [step, hold] at hstep
              exact exec_lock_order hstep
            have hlt : s.view.pos p < s.view.pos c :=
              hlocks (p, c) (by simp [hold, Pc.relocks])
            simpa [Pc.RelocksForward, State.view, horder] using hlt
          · have hold := (hothers u hut).symm.trans hpc
            rw [hold] at hforward
            exact hkeep p (by simp [hold, Pc.held, SwapPc.held]) hut c hforward
      | relockNext p c x =>
          by_cases hut : u = t
          · subst hut
            have hold : s.pc u = .swap (.relockCurrent p c x) := by
              rwa [hpc] at hlead
            have horder : s'.order = s.order := by
              rw [step, hold] at hstep
              exact exec_lock_order hstep
            have hlt : s.view.pos c < s.view.pos x :=
              hlocks (c, x) (by simp [hold, Pc.relocks])
            rw [hold] at hforward
            have hpc : s.view.pos p < s.view.pos c := hforward
            simpa [Pc.RelocksForward, State.view, horder] using And.intro hpc hlt
          · have hold := (hothers u hut).symm.trans hpc
            rw [hold] at hforward
            constructor
            · exact hkeep p (by simp [hold, Pc.held, SwapPc.held]) hut c
                hforward.1
            · exact hkeep c (by simp [hold, Pc.held, SwapPc.held]) hut x
                hforward.2
      | _ => trivial
  | count k p => trivial
  | done => trivial
  | fault => trivial

theorem relocksForward_of_reachableUnder
    {values : List CString} {role : T → Role} (hfour : 4 ≤ values.length)
    (hs : (swapSystem file values role).ReachableUnder LocksForward s) (t : T) :
    (s.pc t).RelocksForward s.view := by
  refine TransitionSystem.ReachableUnder.invariant_of
    (P := fun s => ∀ t, (s.pc t).RelocksForward s.view) ?_ ?_ hs t
  · rintro s ⟨st, -, rfl⟩ t
    change (role t).start.RelocksForward _
    cases role t <;> trivial
  · intro s a s' hreach hinv hlocks hstep t
    have hi := inv_of_reachable hfour hreach
    cases a with
    | advance u rand => exact relocksForward_step hi hinv hlocks hstep t
    | stopThreads =>
        obtain rfl := Option.some.inj hstep
        exact hinv t

/-- `2.3m.c`: if every write lock on `prev` is taken while `current` is behind
it, and every write lock on `current` while `next` is behind it, then no state
contains a set of threads each blocked on a node lock that another thread of
the set holds. -/
theorem rwlockList_noDeadlock_of_locksForward
    {values : List CString} {role : T → Role} (hfour : 4 ≤ values.length)
    (hs : (swapSystem .rwlockList values role).ReachableUnder LocksForward s)
    (D : Set T) : ¬WaitCycle (s.Waits .rwlockList) s.Holds D := by
  have hi := inv_of_reachable hfour hs
  have hforward := relocksForward_of_reachableUnder hfour hs
  exact (hi.rankedWaits hforward).not_waitCycle D

/-- Both threads found the same three nodes and lock them in list order. -/
def inOrderSchedule (t u : T) : List (Action T) :=
  List.replicate 18 (.advance t 0) ++ List.replicate 18 (.advance u 0) ++
    List.replicate 2 (.advance t 0)

theorem rwlockList_noDeadlock_of_locksForward_inOrder :
    ∃ s : State (Fin 2), s.Waits .rwlockList 1 0 ∧ s.Holds 0 0 ∧
      ∀ D, ¬WaitCycle (s.Waits .rwlockList) s.Holds D := by
  have hrun : ((buildStorage (Fin 2) fourValues).bind fun st =>
      (swapSystem .rwlockList fourValues twoSwappers).runWhile
        (fun s a => decide (LocksForward s a)) (start st twoSwappers)
        (inOrderSchedule 0 1)).map (fun s => (s.pc 1,
          (s.nodes 0).map fun k => k.sync.writer)) =
      some (.swap (.relockPrev 0 1 2), some (some 0)) := rfl
  obtain ⟨s, hs, hobs⟩ := Option.map_eq_some_iff.mp hrun
  obtain ⟨st, hbuild, hsteps⟩ := Option.bind_eq_some_iff.mp hs
  simp only [Prod.mk.injEq] at hobs
  obtain ⟨hpc, h0⟩ := hobs
  obtain ⟨hwaits, hholds⟩ := waits_of_writer (by rw [hpc]; rfl) h0
  have hstart : (swapSystem .rwlockList fourValues twoSwappers).ReachableUnder
      LocksForward (start st twoSwappers) := .initial ⟨st, hbuild, rfl⟩
  exact ⟨s, hwaits, hholds, rwlockList_noDeadlock_of_locksForward (by decide)
    (hstart.runWhile (fun s a h => of_decide_eq_true h) hsteps)⟩

/-- A list of five nodes. -/
def fiveValues : List CString :=
  fourValues ++ [.ofBuffer [101]]

/-- Thread `t` finds the first three nodes `0, 1, 2` and drops its read locks.
Thread `u` exchanges 1 and 2, then finds `2, 1, 3`.  Now `t` locks 0 and 1 and
waits for 2, while `u` locks 2 and waits for 1. -/
def oppositeSchedule (t u : T) : List (Action T) :=
  List.replicate 18 (.advance t 0) ++ List.replicate 31 (.advance u 0) ++
    List.replicate 23 (.advance u 1) ++
    [.advance t 0, .advance t 0, .advance u 0]

/-- `2.3m.c` can deadlock with five nodes and two swap threads. -/
theorem rwlockList_deadlock :
    ∃ (values : List CString) (role : Fin 2 → Role) (s : State (Fin 2)),
      4 ≤ values.length ∧
        (swapSystem .rwlockList values role).Reachable s ∧
        ∃ D, WaitCycle (s.Waits .rwlockList) s.Holds D := by
  have hrun : (runProgram .rwlockList fiveValues twoSwappers
      (oppositeSchedule 0 1)).map (fun s => (s.pc 0, s.pc 1,
        (s.nodes 1).map fun k => k.sync.writer,
        (s.nodes 2).map fun k => k.sync.writer)) =
      some (.swap (.relockNext 0 1 2), .swap (.relockCurrent 2 1 3),
        some (some 0), some (some 1)) := rfl
  obtain ⟨s, hs, hobs⟩ := Option.map_eq_some_iff.mp hrun
  simp only [Prod.mk.injEq] at hobs
  obtain ⟨hpc0, hpc1, h1, h2⟩ := hobs
  obtain ⟨hwaits0, hholds1⟩ := waits_of_writer (by rw [hpc0]; rfl) h2
  obtain ⟨hwaits1, hholds0⟩ := waits_of_writer (by rw [hpc1]; rfl) h1
  refine ⟨fiveValues, twoSwappers, s, by decide, reachable_of_runProgram hs,
    Set.univ, ⟨0, trivial⟩, fun t _ => ?_⟩
  obtain rfl | rfl : t = 0 ∨ t = 1 := by omega
  · exact ⟨2, hwaits0, 1, trivial, by decide, hholds1⟩
  · exact ⟨1, hwaits1, 0, trivial, by decide, hholds0⟩

end SwapList
end OsFifthSem
