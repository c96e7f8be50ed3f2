import OsFifthSem.Sync.SwapList.Deadlock

/-!
# The position that a swap thread draws

`safe_swap_nodes` refuses lists of fewer than three nodes and then draws
`rand() % (storage->size - 3) + 1`, which divides by zero on a list of three.
On a longer list the position leaves two nodes behind the one that the walk
stops at, so a thread that swaps on its own never gives up and never repeats
its loop.  Only the result of `rand` can be too large for the `int` it ends up
in, on lists of more than `2 ^ 31 + 2` nodes.
-/

namespace OsFifthSem
namespace SwapList

open Support

universe u

/-- `RAND_MAX`. -/
def randMax : ℕ := 2147483647

/-- `rand() % (storage->size - 3) + 1`, which has no value when the divisor
is 0. -/
def position (size : ℤ) (rand : ℕ) : Option ℤ :=
  if size - 3 = 0 then none else some (randElem size rand)

theorem randElem_eq_of_le
    {n rand : ℕ} (hfour : 4 ≤ n) (hmax : n ≤ 2147483650) :
    randElem n rand = (rand : ℤ) % ((n : ℤ) - 3) + 1 := by
  have hlt : (rand : ℤ) % ((n : ℤ) - 3) < (n : ℤ) - 3 :=
    Int.emod_lt_of_pos _ (by omega)
  have hnonneg : 0 ≤ (rand : ℤ) % ((n : ℤ) - 3) :=
    Int.emod_nonneg _ (by omega)
  unfold randElem
  exact Int.bmod_eq_of_le (by omega) (by omega)

/-- The position is defined and lies in `1..size-2` for every value of `rand`
exactly on lists of 4 to `2 ^ 31 + 2` nodes. -/
theorem position_fits_iff {n : ℕ} (hthree : 3 ≤ n) :
    (∀ rand ≤ randMax, ∃ r, position n rand = some r ∧ 1 ≤ r ∧
      r ≤ (n : ℤ) - 2) ↔ 4 ≤ n ∧ n ≤ 2147483650 := by
  constructor
  · intro hfits
    have hne : n ≠ 3 := by
      rintro rfl
      obtain ⟨r, hr, -⟩ := hfits 0 (Nat.zero_le _)
      simp [position] at hr
    refine ⟨by omega, ?_⟩
    by_contra hlarge
    -- The largest value of `rand` is its own remainder and wraps around.
    obtain ⟨r, hr, hpos, -⟩ := hfits randMax le_rfl
    have hwrap : randElem n randMax = -2147483648 := by
      have hmax : (randMax : ℤ) = 2147483647 := by simp [randMax]
      have hmod : (randMax : ℤ) % ((n : ℤ) - 3) = randMax :=
        Int.emod_eq_of_lt (by omega) (by omega)
      unfold randElem
      rw [hmod, hmax]
      simp [Int.bmod]
    rw [position, if_neg (by omega), hwrap] at hr
    obtain rfl := Option.some.inj hr
    omega
  · rintro ⟨hfour, hmax⟩ rand -
    have hlt : (rand : ℤ) % ((n : ℤ) - 3) < (n : ℤ) - 3 :=
      Int.emod_lt_of_pos _ (by omega)
    have hnonneg : 0 ≤ (rand : ℤ) % ((n : ℤ) - 3) :=
      Int.emod_nonneg _ (by omega)
    refine ⟨randElem n rand, by rw [position, if_neg (by omega)], ?_⟩
    rw [randElem_eq_of_le hfour hmax]
    omega

/-! ## A thread that swaps on its own -/

/-- The thread is inside `safe_swap_nodes`. -/
def Pc.Swapping : Pc → Prop
  | .swap .threadTop => False
  | .swap _ => True
  | _ => False

variable {T : Type u} [DecidableEq T]

/-- When a swap thread takes a step, no other thread is swapping. -/
def SwapsAlone (s : State T) : Action T → Prop
  | .advance t _ => (∃ p, s.pc t = .swap p) → ∀ u, u ≠ t → ¬(s.pc u).Swapping
  | .stopThreads => True

/-- What a thread knows about the links of the nodes it has found, as long as
nobody else writes a link. -/
def Pc.Steady (next : ℕ → Option ℕ) : Pc → Prop
  | .swap (.checkNextNext p q) => next p = some q
  | .swap (.dropPrev p c x) | .swap (.dropCurrent p c x)
  | .swap (.dropNext p c x) | .swap (.relockPrev p c x)
  | .swap (.relockCurrent p c x) | .swap (.relockNext p c x)
  | .swap (.validatePrev p c x) | .swap (.validateCurrent p c x) =>
      next p = some c ∧ next c = some x
  | .swap (.giveUp _) | .swap (.failPrev _ _ _) | .swap (.failCurrent _ _)
  | .swap (.failNext _) => False
  | _ => True

theorem Pc.steady_of_not_swapping
    {pc : Pc} (h : ¬pc.Swapping) (next : ℕ → Option ℕ) : pc.Steady next := by
  cases pc with
  | swap p =>
      cases p with
      | threadTop => trivial
      | _ => exact absurd trivial h
  | _ => trivial

/-- The thread has drawn a position, or is about to, and has not swapped
yet. -/
def SwapPc.Trying : SwapPc → Prop
  | .threadTop | .retry | .countSwap | .giveUp _ | .failPrev _ _ _
  | .failCurrent _ _ | .failNext _ => False
  | _ => True

/-- A bound on the steps the thread takes up to `swap_counters[thread_id]++`.
A node of the walk costs five steps. -/
def SwapPc.stepsLeft (size : ℤ) : SwapPc → ℕ
  | .pickRand => 5 * size.toNat + 33
  | .firstTarget r => 5 * r.toNat + 32
  | .firstLock r _ => 5 * r.toNat + 31
  | .firstLoad r _ => 5 * r.toNat + 30
  | .loopTest r ind _ => 5 * (r - ind - 1).toNat + 29
  | .walkTarget r ind _ => 5 * (r - ind - 1).toNat + 28
  | .walkLock r ind _ _ => 5 * (r - ind - 1).toNat + 27
  | .walkLoad r ind _ _ => 5 * (r - ind - 1).toNat + 26
  | .walkUnlock r ind _ _ => 5 * (r - ind - 1).toNat + 25
  | .checkNext _ => 24
  | .checkTarget _ => 23
  | .checkNextNext _ _ => 22
  | .currentTarget _ => 21
  | .currentLock _ _ => 20
  | .currentLoad _ _ => 19
  | .nextTarget _ _ => 18
  | .nextLock _ _ _ => 17
  | .nextLoad _ _ _ => 16
  | .dropPrev _ _ _ => 15
  | .dropCurrent _ _ _ => 14
  | .dropNext _ _ _ => 13
  | .relockPrev _ _ _ => 12
  | .relockCurrent _ _ _ => 11
  | .relockNext _ _ _ => 10
  | .validatePrev _ _ _ => 9
  | .validateCurrent _ _ _ => 8
  | .loadNextNext _ _ _ => 7
  | .linkPrev _ _ _ _ => 6
  | .linkCurrent _ _ _ _ => 5
  | .linkNext _ _ _ => 4
  | .unlockPrev _ _ _ => 3
  | .unlockCurrent _ _ => 2
  | .unlockNext _ => 1
  | .threadTop | .retry | .countSwap | .giveUp _ | .failPrev _ _ _
  | .failCurrent _ _ | .failNext _ => 0

/-- The thread goes on towards its swap. -/
def SwapPc.AdvancesTo (size : ℤ) (p : SwapPc) : Pc → Prop
  | .swap p' =>
      (p'.Trying ∨ p' = .countSwap) ∧ p'.stepsLeft size < p.stepsLeft size
  | _ => False

/-- The point where a command leaves the thread, and the links it leaves,
satisfy `P`. -/
def Command.Leads (v : View) (P : (ℕ → Option ℕ) → Pc → Prop) :
    Command → Prop
  | .readStop next => ∀ b, P v.next (next b)
  | .rand next => ∀ n, P v.next (next n)
  | .readFirst next => P v.next (next (some 0))
  | .load a next => P v.next (next (v.next a))
  | .strlens _ _ next => ∀ m n, P v.next (next m n)
  | .store a w _ next => P (Function.update v.next a w) next
  | .lock _ _ next => P v.next next
  | .unlock _ next => P v.next next
  | .countSwap next => P v.next next
  | .countPass _ next => P v.next next
  | .halt => True

/-! ### Where the commands lead -/

theorem loopHead_steady (next : ℕ → Option ℕ) (r ind : ℤ) (p : ℕ) :
    (loopHead r ind p).Steady next := by
  unfold loopHead
  split_ifs <;> trivial

/-- The head of the walk, from a point with more steps left than it has. -/
theorem loopHead_advances
    {size r ind : ℤ} {p : ℕ} {pc : SwapPc} (hcheck : 24 < pc.stepsLeft size)
    (htest : ind < r →
      5 * (r - ind - 1).toNat + 29 < pc.stepsLeft size) :
    pc.AdvancesTo size (loopHead r ind p) := by
  unfold loopHead
  split_ifs with hlt
  · exact ⟨Or.inl trivial, htest hlt⟩
  · exact ⟨Or.inl trivial, hcheck⟩

theorem safeSwapNodes_leads
    {file : Source} {v : View} {others : ℕ → Prop} {p : SwapPc}
    (hf : (Pc.swap p).Facts v) (hsteady : (Pc.swap p).Steady v.next)
    (hlinked : v.Linked fun a => a ∈ (Pc.swap p).stale ∨ others a)
    (hothers : ∀ a ∈ (Pc.swap p).held, ¬others a) :
    (safeSwapNodes file v.bound p).Leads v fun next pc =>
      pc.Steady next ∧ (p.Trying → p.AdvancesTo v.bound pc) := by
  have hfree : ∀ a ∈ (Pc.swap p).held, (Pc.swap p).stale = [] →
      ¬(a ∈ (Pc.swap p).stale ∨ others a) := by
    intro a ha hnil
    simp [hnil, hothers a ha]
  have hgo : ∀ {p' : SwapPc} {next : ℕ → Option ℕ}, (Pc.swap p').Steady next →
      (p'.Trying ∨ p' = .countSwap) →
      p'.stepsLeft v.bound < p.stepsLeft v.bound →
      (Pc.swap p').Steady next ∧
        (p.Trying → p.AdvancesTo v.bound (.swap p')) :=
    fun h1 h2 h3 => ⟨h1, fun _ => ⟨h2, h3⟩⟩
  cases p with
  | threadTop =>
      rintro (_ | _)
      · dsimp only
        split_ifs <;> exact ⟨trivial, False.elim⟩
      · exact ⟨trivial, False.elim⟩
  | retry => rintro (_ | _) <;> exact ⟨trivial, False.elim⟩
  | pickRand =>
      intro rand
      have hle := randElem_le hlinked.four rand
      refine hgo trivial (Or.inl trivial) ?_
      simp only [SwapPc.stepsLeft]
      omega
  | firstTarget r | firstLock r q =>
      exact hgo trivial (Or.inl trivial) (by simp [SwapPc.stepsLeft])
  | firstLoad r q =>
      refine ⟨loopHead_steady .., fun _ => loopHead_advances ?_ fun hlt => ?_⟩
      · simp only [SwapPc.stepsLeft]
        omega
      · simp only [SwapPc.stepsLeft]
        omega
  | loopTest r ind p =>
      have hw : v.Walk r ind p := hf
      obtain ⟨q, hq, -⟩ := hlinked.exists_next_of_early hw.early
      simp only [safeSwapNodes, Command.Leads, hq, reduceCtorEq, if_false]
      exact hgo trivial (Or.inl trivial) (by simp [SwapPc.stepsLeft])
  | walkTarget r ind p =>
      have hw : v.Walk r ind p := hf
      obtain ⟨q, hq, -⟩ := hlinked.exists_next_of_early hw.early
      simp only [safeSwapNodes, Command.Leads, hq, deref]
      exact hgo trivial (Or.inl trivial) (by simp [SwapPc.stepsLeft])
  | walkLock r ind p q | walkLoad r ind p q =>
      exact hgo trivial (Or.inl trivial) (by simp [SwapPc.stepsLeft])
  | walkUnlock r ind temp prev =>
      obtain ⟨-, -, p, rfl, -, -⟩ := hf
      refine ⟨loopHead_steady .., fun _ => loopHead_advances ?_ fun hlt => ?_⟩
      · simp only [SwapPc.stepsLeft]
        omega
      · simp only [SwapPc.stepsLeft]
        omega
  | checkNext p =>
      have hp : v.Early p := hf
      obtain ⟨q, hq, -⟩ := hlinked.exists_next_of_early hp
      simp only [safeSwapNodes, Command.Leads, hq, reduceCtorEq, if_false]
      exact hgo trivial (Or.inl trivial) (by simp [SwapPc.stepsLeft])
  | checkTarget p =>
      have hp : v.Early p := hf
      obtain ⟨q, hq, -⟩ := hlinked.exists_next_of_early hp
      simp only [safeSwapNodes, Command.Leads, hq, deref]
      exact hgo hq (Or.inl trivial) (by simp [SwapPc.stepsLeft])
  | checkNextNext p q =>
      obtain ⟨x, hx, -⟩ := hlinked.exists_next_next hf.1
        (hfree p (by simp [Pc.held, SwapPc.held]) rfl) hsteady
      simp only [safeSwapNodes, Command.Leads, hx, reduceCtorEq, if_false]
      exact hgo trivial (Or.inl trivial) (by simp [SwapPc.stepsLeft])
  | giveUp p | failPrev p c x | failCurrent c x | failNext x =>
      exact hsteady.elim
  | currentTarget p =>
      have hp : v.Early p := hf
      obtain ⟨q, hq, -⟩ := hlinked.exists_next_of_early hp
      simp only [safeSwapNodes, Command.Leads, hq, deref]
      exact hgo trivial (Or.inl trivial) (by simp [SwapPc.stepsLeft])
  | currentLoad p q =>
      simp only [safeSwapNodes, Command.Leads, hf.2.1, deref]
      exact hgo trivial (Or.inl trivial) (by simp [SwapPc.stepsLeft])
  | nextTarget p c =>
      obtain ⟨hp, hc, -⟩ := hf
      obtain ⟨q, hq, -⟩ := hlinked.exists_next_next hp
        (hfree p (by simp [Pc.held, SwapPc.held]) rfl) hc
      simp only [safeSwapNodes, Command.Leads, hq, deref]
      exact hgo trivial (Or.inl trivial) (by simp [SwapPc.stepsLeft])
  | nextLoad p c q =>
      obtain ⟨-, ⟨hc, -⟩, hq, -⟩ := hf
      simp only [safeSwapNodes, Command.Leads, hq, deref]
      cases file with
      | mutexList =>
          exact hgo trivial (Or.inl trivial) (by simp [SwapPc.stepsLeft])
      | rwlockList =>
          exact hgo ⟨hc, hq⟩ (Or.inl trivial) (by simp [SwapPc.stepsLeft])
  | dropPrev p c x | dropCurrent p c x | dropNext p c x | relockPrev p c x
  | relockCurrent p c x | relockNext p c x =>
      exact hgo hsteady (Or.inl trivial) (by simp [SwapPc.stepsLeft])
  | validatePrev p c x =>
      obtain ⟨hc, hx⟩ := hsteady
      simp only [safeSwapNodes, Command.Leads, hc, if_true]
      exact hgo ⟨hc, hx⟩ (Or.inl trivial) (by simp [SwapPc.stepsLeft])
  | validateCurrent p c x =>
      simp only [safeSwapNodes, Command.Leads, hsteady.2, if_true]
      exact hgo trivial (Or.inl trivial) (by simp [SwapPc.stepsLeft])
  | currentLock p q | nextLock p c q | linkPrev p c x y | linkCurrent p c x y
  | linkNext p c x | unlockPrev p c x | unlockCurrent c x =>
      exact hgo trivial (Or.inl trivial) (by simp [SwapPc.stepsLeft])
  | loadNextNext p c x =>
      exact hgo trivial (Or.inl trivial) (by simp [SwapPc.stepsLeft])
  | unlockNext x => exact hgo trivial (Or.inr rfl) (by simp [SwapPc.stepsLeft])
  | countSwap => exact ⟨trivial, False.elim⟩

/-- A counter writes no link. -/
theorem countNodes_leads (file : Source) (v : View) (k : Counting)
    (p : CountPc) :
    (countNodes file k p).Leads v fun next pc =>
      next = v.next ∧ pc.Steady v.next := by
  have hderef : ∀ {next : ℕ → Pc} (w : Option ℕ),
      (∀ a, (next a).Steady v.next) →
        v.next = v.next ∧ (deref next w).Steady v.next := by
    intro next w hnext
    cases w with
    | none => exact ⟨rfl, trivial⟩
    | some a => exact ⟨rfl, hnext a⟩
  cases p with
  | threadTop | testStop cur n => rintro (_ | _) <;> exact ⟨rfl, trivial⟩
  | nextTarget cur n | compareTarget cur n q | nextLoad cur n q =>
      exact hderef _ fun _ => trivial
  | compare cur n q b => exact fun _ _ => ⟨rfl, trivial⟩
  | _ => exact ⟨rfl, trivial⟩

variable {file : Source} {n : ℕ} {s s' : State T} {t u : T}

theorem view_next_setNode
    {a : ℕ} {m k : Node T} (hm : s.nodes a = some m) (hnext : k.next = m.next)
    (t : T) (pc : Pc) :
    ((s.setNode a k).goto t pc).view.next = s.view.next := by
  funext b
  by_cases hb : b = a
  · subst hb
    simp [State.view, State.goto, State.setNode, hm, hnext]
  · simp [State.view, State.goto, State.setNode, hb]

/-- A step takes the thread to where its command leads. -/
theorem Inv.exec_leads
    (hi : Inv file n s) {P : (ℕ → Option ℕ) → Pc → Prop} {rand : ℕ}
    (hall : (code file s.size (s.pc t)).Leads s.view P)
    (hstep : exec s t rand (code file s.size (s.pc t)) = some s') :
    P s'.view.next (s'.pc t) ∧ ∀ u, u ≠ t → s'.pc u = s.pc u := by
  have hgo : ∀ {r : State T} {pc : Pc} {next : ℕ → Option ℕ},
      r.goto t pc = s' → r.pc = s.pc → (r.goto t pc).view.next = next →
      P next pc → P s'.view.next (s'.pc t) ∧ ∀ u, u ≠ t → s'.pc u = s.pc u := by
    rintro r pc next rfl hr rfl hP
    refine ⟨by simpa [State.goto] using hP, fun u hu => ?_⟩
    simp [State.goto, hu, hr]
  have hcell : ∀ a, a < s.view.bound → ∃ m, s.nodes a = some m := by
    intro a ha
    exact hi.cell a (hi.bound_eq ▸ ha)
  have hsound := hi.sound t
  cases hcode : code file s.size (s.pc t) with
  | readStop next =>
      rw [hcode] at hstep hall
      exact hgo (Option.some.inj hstep) rfl rfl (hall _)
  | rand next =>
      rw [hcode] at hstep hall
      exact hgo (Option.some.inj hstep) rfl rfl (hall _)
  | readFirst next =>
      rw [hcode] at hstep hall
      rw [exec, hi.first_eq] at hstep
      exact hgo (Option.some.inj hstep) rfl rfl hall
  | load a next =>
      rw [hcode] at hstep hall hsound
      obtain ⟨m, hm⟩ := hcell a hsound.1
      simp only [exec, hm, Option.some.injEq] at hstep
      have hlink : s.view.next a = m.next := by simp [State.view, hm]
      rw [Command.Leads, hlink] at hall
      exact hgo hstep rfl rfl hall
  | strlens a b next =>
      rw [hcode] at hstep hall hsound
      obtain ⟨ha, hb, -⟩ := hsound
      obtain ⟨m, hm⟩ := hcell a ha
      obtain ⟨k, hk⟩ := hcell b hb
      simp only [exec, hm, hk, Option.some.injEq] at hstep
      exact hgo hstep rfl rfl (hall _ _)
  | store a w e next =>
      rw [hcode] at hstep hall hsound
      obtain ⟨m, hm⟩ := hcell a hsound.1
      simp only [exec, hm, Option.some.injEq] at hstep
      refine hgo hstep rfl ?_ hall
      funext b
      by_cases hb : b = a
      · subst hb
        simp [State.view, State.goto, State.setNode]
      · simp [State.view, State.goto, State.setNode, hb]
  | lock m a next =>
      rw [hcode] at hstep hall hsound
      obtain ⟨node, hnode⟩ := hcell a hsound.1
      simp only [exec, hnode, Option.map_eq_some_iff] at hstep
      obtain ⟨l, -, hstep⟩ := hstep
      exact hgo hstep rfl
        (view_next_setNode (k := { node with sync := l }) hnode rfl t next) hall
  | unlock a next =>
      rw [hcode] at hstep hall hsound
      obtain ⟨node, hnode⟩ := hcell a hsound.1
      simp only [exec, hnode, Option.some.injEq] at hstep
      exact hgo hstep rfl (view_next_setNode
        (k := { node with sync := node.sync.release t }) hnode rfl t next) hall
  | countSwap next =>
      rw [hcode] at hstep hall
      exact hgo (Option.some.inj hstep) rfl rfl hall
  | countPass k next =>
      rw [hcode] at hstep hall
      exact hgo (Option.some.inj hstep) rfl rfl hall
  | halt =>
      rw [hcode] at hstep
      simp [exec] at hstep

/-! ### Runs -/

/-- The invariant of the runs in which nobody swaps at the same time as
another thread. -/
structure Undisturbed (file : Source) (n : ℕ) (s : State T) : Prop where
  inv : Inv file n s
  steady : ∀ t, (s.pc t).Steady s.view.next

/-- What a thread that is trying to swap does next. -/
theorem Undisturbed.advance
    (hs : Undisturbed file n s) {rand : ℕ}
    (hstep : step file s (.advance t rand) = some s') :
    (s'.pc t).Steady s'.view.next ∧
      ∀ p, s.pc t = .swap p → p.Trying → p.AdvancesTo n (s'.pc t) := by
  obtain ⟨hi, hsteady⟩ := hs
  have hsize : s.size = s.view.bound := by rw [hi.size_eq, hi.bound_eq]
  cases hpc : s.pc t with
  | swap p =>
      have hlead : (code file s.size (s.pc t)).Leads s.view fun next pc =>
          pc.Steady next ∧ (p.Trying → p.AdvancesTo s.view.bound pc) := by
        rw [hsize, hpc]
        exact safeSwapNodes_leads (hpc ▸ hi.facts t) (hpc ▸ hsteady t)
          (hi.linked.mono fun a ha => by
            rw [← hpc]
            exact (s.stale_iff t a).mp ha)
          fun a ha => hi.not_staleElsewhere (hpc ▸ ha)
      obtain ⟨⟨hnext, hadv⟩, -⟩ := hi.exec_leads hlead hstep
      refine ⟨hnext, ?_⟩
      rintro p' heq htry
      obtain rfl := Pc.swap.inj heq
      rw [hi.bound_eq] at hadv
      exact hadv htry
  | count k p =>
      have hlead : (code file s.size (s.pc t)).Leads s.view fun next pc =>
          next = s.view.next ∧ pc.Steady s.view.next := by
        rw [hpc]
        exact countNodes_leads file s.view k p
      obtain ⟨⟨hsame, hnext⟩, -⟩ := hi.exec_leads hlead hstep
      refine ⟨hsame ▸ hnext, fun p' heq => ?_⟩
      cases heq
  | done =>
      rw [step, hpc] at hstep
      cases hstep
  | fault =>
      rw [step, hpc] at hstep
      cases hstep

/-- A step of another thread leaves what a thread knows alone. -/
theorem Undisturbed.advance_other
    (hs : Undisturbed file n s) {rand : ℕ}
    (halone : SwapsAlone s (.advance t rand))
    (hstep : step file s (.advance t rand) = some s') (hne : u ≠ t) :
    s'.pc u = s.pc u ∧ (s.pc u).Steady s'.view.next := by
  have htrue : (code file s.size (s.pc t)).Leads s.view fun _ _ => True := by
    cases code file s.size (s.pc t) <;> simp [Command.Leads]
  have hpc := (hs.inv.exec_leads htrue hstep).2 u hne
  refine ⟨hpc, ?_⟩
  cases hcode : s.pc t with
  | swap p =>
      exact Pc.steady_of_not_swapping (halone ⟨p, hcode⟩ u hne) _
  | count k p =>
      have hlead : (code file s.size (s.pc t)).Leads s.view fun next pc =>
          next = s.view.next ∧ pc.Steady s.view.next := by
        rw [hcode]
        exact countNodes_leads file s.view k p
      rw [(hs.inv.exec_leads hlead hstep).1.1]
      exact hs.steady u
  | done =>
      rw [step, hcode] at hstep
      cases hstep
  | fault =>
      rw [step, hcode] at hstep
      cases hstep

theorem Undisturbed.step
    {a : Action T} (hs : Undisturbed file n s) (halone : SwapsAlone s a)
    (hstep : SwapList.step file s a = some s') : Undisturbed file n s' := by
  refine ⟨step_inv hs.inv hstep, fun u => ?_⟩
  cases a with
  | advance t rand =>
      by_cases hu : u = t
      · subst hu
        exact (hs.advance hstep).1
      · obtain ⟨hpc, hsteady⟩ := hs.advance_other halone hstep hu
        rwa [hpc]
  | stopThreads =>
      obtain rfl := Option.some.inj hstep
      exact hs.steady u

theorem undisturbed_of_reachable
    {values : List CString} {role : T → Role} (hfour : 4 ≤ values.length)
    (hs : (swapSystem file values role).ReachableUnder SwapsAlone s) :
    Undisturbed file values.length s := by
  refine TransitionSystem.ReachableUnder.invariant ?_ ?_ hs
  · rintro s ⟨st, hbuild, rfl⟩
    have hinit : (swapSystem file values role).ReachableUnder SwapsAlone
        (start st role) := .initial ⟨st, hbuild, rfl⟩
    refine ⟨inv_of_reachable hfour hinit, fun t => ?_⟩
    change (role t).start.Steady _
    cases role t <;> trivial
  · exact fun s a s' hs halone hstep => hs.step halone hstep

/-- A thread that waits for a lock holds only nodes in front of it. -/
theorem Undisturbed.relocksForward
    (hs : Undisturbed file n s) (t : T) :
    (s.pc t).RelocksForward s.view := by
  have hf := hs.inv.facts t
  have hsteady := hs.steady t
  have hfresh : ∀ a ∈ (s.pc t).held, (s.pc t).stale = [] → ¬s.Stale a := by
    intro a ha hnil
    rw [s.stale_iff t, hnil]
    simpa using hs.inv.not_staleElsewhere ha
  cases hpc : s.pc t with
  | swap p =>
      rw [hpc] at hf hsteady hfresh
      cases p with
      | relockCurrent p c x =>
          have ht : s.view.Triple p c x := hf
          have h1 := hs.inv.linked.pos_next p c ht.prev hsteady.1
            (hfresh p (by simp [Pc.held, SwapPc.held]) rfl)
          change s.view.pos p < s.view.pos c
          omega
      | relockNext p c x =>
          have ht : s.view.Triple p c x := hf
          have h1 := hs.inv.linked.pos_next p c ht.prev hsteady.1
            (hfresh p (by simp [Pc.held, SwapPc.held]) rfl)
          have h2 := hs.inv.linked.pos_next c x ht.current hsteady.2
            (hfresh c (by simp [Pc.held, SwapPc.held]) rfl)
          exact ⟨by omega, by omega⟩
      | _ => trivial
  | _ => trivial

theorem Undisturbed.waits_other
    (hs : Undisturbed file n s) {a : ℕ} (hwait : s.Waits file t a) :
    ∃ u, u ≠ t ∧ s.Holds u a := by
  have hranked := hs.inv.rankedWaits hs.relocksForward
  have hself : ¬s.Holds t a := fun hheld =>
    lt_irrefl _ (hranked.above t a a hwait hheld)
  obtain ⟨m, -, node, -, hnode, hblocked⟩ := hwait
  obtain ⟨u, hu⟩ : ∃ u, node.sync.HeldBy u := by
    cases hwriter : node.sync.writer with
    | some w => exact ⟨w, Or.inl hwriter⟩
    | none =>
        cases hreaders : node.sync.readers with
        | cons w ws => exact ⟨w, Or.inr (by simp [hreaders])⟩
        | nil => cases m <;> simp [NodeLock.acquire, hwriter, hreaders] at hblocked
  refine ⟨u, ?_, node, hnode, hu⟩
  rintro rfl
  exact hself ⟨node, hnode, hu⟩

/-- The step is one of thread `t`. -/
def Action.isOf (t : T) : Action T → Bool
  | .advance u _ => u = t
  | .stopThreads => false

/-- The calls of `safe_swap_nodes` by thread `t` swap at the first attempt: the
position is defined and lies in `1..size-2`, the walk stops at a node with two
successors, the branch that gives up is not taken, the thread waits for other
threads only, and with enough steps it gets to count its swap. -/
structure SwapsAtOnce (file : Source) (values : List CString) (role : T → Role)
    (t : T) (s : State T) : Prop where
  drawn : s.pc t = .swap .pickRand → ∀ rand ≤ randMax,
    ∃ r, position s.size rand = some r ∧ 1 ≤ r ∧ r ≤ s.size - 2
  room : ∀ p, s.pc t = .swap (.checkNext p) →
    ∃ c x, s.view.next p = some c ∧ s.view.next c = some x
  keeps : ∀ p, s.pc t ≠ .swap (.giveUp p)
  waits : ∀ a, s.Waits file t a → ∃ u, u ≠ t ∧ s.Holds u a
  swaps : s.pc t = .swap .pickRand → ∀ as s',
    (swapSystem file values role).RunAllowed SwapsAlone s as →
      (swapSystem file values role).run s as = some s' →
        5 * s.size.toNat + 33 ≤ as.countP (Action.isOf t) →
          ∃ pre, pre <+: as ∧
            ∃ s₁, (swapSystem file values role).run s pre = some s₁ ∧
              s₁.pc t = .swap .countSwap

theorem Undisturbed.room
    (hs : Undisturbed file n s) {p : ℕ} (hpc : s.pc t = .swap (.checkNext p)) :
    ∃ c x, s.view.next p = some c ∧ s.view.next c = some x := by
  have hlinked := hs.inv.linked
  have hf := hs.inv.facts t
  rw [hpc] at hf
  have hp : s.view.Early p := hf
  obtain ⟨c, hc, -⟩ := hlinked.exists_next_of_early hp
  have hfresh : ¬s.Stale p := by
    rw [s.stale_iff t, hpc]
    simpa [Pc.stale] using
      hs.inv.not_staleElsewhere (t := t) (a := p)
        (by simp [hpc, Pc.held, SwapPc.held])
  obtain ⟨x, hx, -⟩ := hlinked.exists_next_next hp hfresh hc
  exact ⟨c, x, hc, hx⟩

theorem SwapPc.stepsLeft_pos
    {p : SwapPc} (htry : p.Trying) (size : ℤ) : 0 < p.stepsLeft size := by
  cases p <;> first | exact htry.elim | simp [SwapPc.stepsLeft]

/-- The steps that thread `t` has left. -/
def State.stepsLeft (s : State T) (t : T) : ℕ :=
  match s.pc t with
  | .swap p => p.stepsLeft s.size
  | _ => 0

/-- Thread `t` is trying to swap, or is about to count its swap. -/
def State.Trying (s : State T) (t : T) : Prop :=
  ∃ p, s.pc t = .swap p ∧ (p.Trying ∨ p = .countSwap)

theorem step_size_eq
    {a : Action T} (hi : Inv file n s) (hstep : step file s a = some s') :
    s'.size = s.size := by
  rw [(step_inv hi hstep).size_eq, hi.size_eq]

/-- Until the swap is counted, a step of the thread brings it closer, and no
other step takes it further away. -/
theorem Undisturbed.trying_step
    {a : Action T} (hs : Undisturbed file n s) (htry : s.Trying t)
    (hgoal : s.pc t ≠ .swap .countSwap) (halone : SwapsAlone s a)
    (hstep : SwapList.step file s a = some s') :
    s'.Trying t ∧
      s'.stepsLeft t + (if a.isOf t then 1 else 0) ≤ s.stepsLeft t := by
  obtain ⟨p, hpc, hp⟩ := htry
  have hsize := step_size_eq hs.inv hstep
  have hother : s'.pc t = s.pc t →
      s'.Trying t ∧ s'.stepsLeft t ≤ s.stepsLeft t := by
    intro hsame
    refine ⟨⟨p, hsame.trans hpc, hp⟩, ?_⟩
    rw [State.stepsLeft, State.stepsLeft, hsame, hsize]
  cases a with
  | advance u rand =>
      by_cases hu : u = t
      · subst hu
        have htrying : p.Trying := by
          refine hp.resolve_right ?_
          rintro rfl
          exact hgoal hpc
        have hadv := (hs.advance hstep).2 p hpc htrying
        cases hnext : s'.pc u with
        | swap p' =>
            rw [hnext] at hadv
            obtain ⟨hp', hless⟩ := hadv
            refine ⟨⟨p', hnext, hp'⟩, ?_⟩
            rw [← hs.inv.size_eq] at hless
            simp only [State.stepsLeft, hnext, hpc, hsize, Action.isOf,
              decide_true, if_true]
            omega
        | _ =>
            rw [hnext] at hadv
            exact hadv.elim
      · simpa [Action.isOf, hu] using
          hother (hs.advance_other halone hstep (Ne.symm hu)).1
  | stopThreads =>
      obtain rfl := Option.some.inj hstep
      simpa [Action.isOf] using hother rfl

theorem Undisturbed.swaps
    {values : List CString} {role : T → Role} {as : List (Action T)}
    (hs : Undisturbed file n s) (hpc : s.pc t = .swap .pickRand)
    (hallowed : (swapSystem file values role).RunAllowed SwapsAlone s as)
    (hrun : (swapSystem file values role).run s as = some s')
    (hcount : 5 * s.size.toNat + 33 ≤ as.countP (Action.isOf t)) :
    ∃ pre, pre <+: as ∧
      ∃ s₁, (swapSystem file values role).run s pre = some s₁ ∧
        s₁.pc t = .swap .countSwap := by
  refine TransitionSystem.exists_prefix_of_measure
    (I := fun s => Undisturbed file n s ∧ s.Trying t)
    (fun s => s.pc t = .swap .countSwap) (Action.isOf t)
    (fun s => s.stepsLeft t) ?_ ?_ ⟨hs, .pickRand, hpc, Or.inl trivial⟩
    hallowed hrun ?_
  · rintro s ⟨-, p, hpc, hp⟩ hgoal
    have htry : p.Trying := by
      refine hp.resolve_right ?_
      rintro rfl
      exact hgoal hpc
    rw [State.stepsLeft, hpc]
    exact SwapPc.stepsLeft_pos htry s.size
  · rintro s a s' ⟨hs, htry⟩ hgoal halone hstep
    obtain ⟨htry', hless⟩ := hs.trying_step htry hgoal halone hstep
    exact ⟨⟨hs.step halone hstep, htry'⟩, hless⟩
  · simpa [State.stepsLeft, hpc, SwapPc.stepsLeft] using hcount

/-- Every swap thread gets to draw a position. -/
theorem exists_pickRand
    (file : Source) {values : List CString} {role : T → Role} {t : T}
    (hthree : 3 ≤ values.length) (hswap : role t = .swap) :
    ∃ s, (swapSystem file values role).ReachableUnder SwapsAlone s ∧
      s.size = values.length ∧ s.pc t = .swap .pickRand := by
  obtain ⟨st, hbuild, hb⟩ := buildStorage_built (T := T) values
  have hready : ∀ {s : State T} {rand : ℕ}, s.stop = false → ¬s.size < 3 →
      s.pc t = .swap .threadTop →
        step file s (.advance t rand) = some (s.goto t (.swap .retry)) := by
    intro s rand hstop hsize hpc
    simp [step, hpc, code, safeSwapNodes, exec, hstop, hsize]
  have hretry : ∀ {s : State T} {rand : ℕ}, s.stop = false →
      s.pc t = .swap .retry →
        step file s (.advance t rand) = some (s.goto t (.swap .pickRand)) := by
    intro s rand hstop hpc
    simp [step, hpc, code, safeSwapNodes, exec, hstop]
  have hpc : (start st role).pc t = .swap .threadTop := by
    change (role t).start = _
    rw [hswap]
    rfl
  have hsize : (start st role).size = values.length := hb.size_eq
  have hidle : ∀ u, ¬((start st role).pc u).Swapping := by
    intro u
    change ¬((role u).start).Swapping
    cases role u <;> exact id
  have hidle' : ∀ u, u ≠ t →
      ¬(((start st role).goto t (.swap .retry)).pc u).Swapping := by
    intro u hu
    have hsame : ((start st role).goto t (.swap .retry)).pc u =
        (start st role).pc u := Function.update_of_ne hu _ _
    rw [hsame]
    exact hidle u
  have hstart : (swapSystem file values role).ReachableUnder SwapsAlone
      (start st role) := .initial ⟨st, hbuild, rfl⟩
  have hfirst := hstart.step (show SwapsAlone _ (.advance t 0) from
    fun _ u _ => hidle u) (hready rfl (by omega) hpc)
  have hsecond := hfirst.step (show SwapsAlone _ (.advance t 0) from
    fun _ => hidle') (hretry rfl (Function.update_self ..))
  exact ⟨_, hsecond, hsize, Function.update_self ..⟩

theorem position_fits_of_swapsAtOnce
    {values : List CString} {role : T → Role} (hthree : 3 ≤ values.length)
    (hswap : role t = .swap)
    (hall : ∀ s, (swapSystem file values role).ReachableUnder SwapsAlone s →
      SwapsAtOnce file values role t s) :
    ∀ rand ≤ randMax, ∃ r, position values.length rand = some r ∧ 1 ≤ r ∧
      r ≤ (values.length : ℤ) - 2 := by
  obtain ⟨s, hs, hsize, hpc⟩ := exists_pickRand file hthree hswap
  have hdrawn := (hall s hs).drawn hpc
  rwa [hsize] at hdrawn

/-- Both files: a swap thread that is alone in swapping swaps at once, for
every value of `rand`, exactly on lists of 4 to `2 ^ 31 + 2` nodes. -/
theorem swapsAtOnce_iff
    (file : Source) (values : List CString) (role : T → Role) (t : T)
    (hthree : 3 ≤ values.length) (hswap : role t = .swap) :
    (∀ s, (swapSystem file values role).ReachableUnder SwapsAlone s →
      SwapsAtOnce file values role t s) ↔
        4 ≤ values.length ∧ values.length ≤ 2147483650 := by
  constructor
  · intro hall
    exact (position_fits_iff hthree).mp
      (position_fits_of_swapsAtOnce hthree hswap hall)
  · intro hsize s hs
    have hun := undisturbed_of_reachable hsize.1 hs
    constructor
    · rw [hun.inv.size_eq]
      exact fun _ => (position_fits_iff hthree).mpr hsize
    · exact fun p => hun.room
    · intro p hpc
      have hsteady := hun.steady t
      rw [hpc] at hsteady
      exact hsteady
    · exact fun a => hun.waits_other
    · exact fun hpc as s' => hun.swaps hpc

/-- A list of four nodes with one swap thread and one counter. -/
theorem swapsAtOnce_iff_four :
    3 ≤ fourValues.length ∧ oneSwapper (0 : Fin 2) 0 = .swap ∧
      ((∀ s, (swapSystem .rwlockList fourValues
          (oneSwapper (0 : Fin 2))).ReachableUnder SwapsAlone s →
        SwapsAtOnce .rwlockList fourValues (oneSwapper 0) 0 s) ↔
          4 ≤ fourValues.length ∧ fourValues.length ≤ 2147483650) :=
  ⟨by decide, rfl,
    swapsAtOnce_iff .rwlockList fourValues (oneSwapper 0) 0 (by decide) rfl⟩

/-- A list of three nodes, which the guard admits. -/
theorem not_swapsAtOnce_three :
    ¬∀ s, (swapSystem .mutexList (fourValues.take 3)
        (oneSwapper (0 : Fin 2))).ReachableUnder SwapsAlone s →
      SwapsAtOnce .mutexList (fourValues.take 3) (oneSwapper 0) 0 s := by
  intro hall
  obtain ⟨r, hr, -⟩ := position_fits_of_swapsAtOnce (by decide) rfl hall 0
    (Nat.zero_le _)
  simp [position, fourValues] at hr

end SwapList
end OsFifthSem
