import OsFifthSem.Support.MutexOwner
import OsFifthSem.Sync.BoundedQueue.CondVar.Model

/-!
# The invariant of the queue with condition variables

One signal is sent for each value or free slot that appears, and a thread that
was never signalled may take it before the thread that was.  The invariant
therefore does not speak about single threads: as long as some thread is
blocked on a condition variable, what it waits for is at most the number of
threads that have been signalled there, are on their way to take it, or are
about to signal.
-/

namespace OsFifthSem
namespace BoundedQueue
namespace CondVar

open Support

universe u

/-- The thread owns the mutex. -/
def Pc.owns : Pc → Bool
  | .inCall _ .test | .inCall _ .wait | .inCall _ .attempt | .inCall _ .link
  | .inCall _ .count | .inCall _ .signal | .inCall _ .unlock | .printUnlock =>
      true
  | _ => false

/-- The thread was signalled on the condition variable and does not have the
mutex yet. -/
def Pc.signalled (r : Resource) : Pc → Bool
  | .inCall c (.woken true) => c.needs = r
  | _ => false

/-- 1 for a thread that is bound to take what a waiter on the condition
variable waits for, or to signal it: it was signalled, or it owns the mutex
and is past the waiting loop, or it is about to signal. -/
def Pc.relief (r : Resource) : Pc → ℤ
  | .inCall c (.woken true) | .inCall c .test | .inCall c .attempt
  | .inCall c .link | .inCall c .count => if c.needs = r then 1 else 0
  | .inCall c .signal => if c.gives = r then 1 else 0
  | _ => 0

/-- The number of values in the list that are not counted yet. -/
def Pc.uncounted : Pc → ℤ
  | .inCall c .count => c.delta
  | _ => 0

/-- What the thread knows about the queue.  No assertion has failed and no
null pointer was followed. -/
def Pc.Facts (q : Queue) : Pc → Prop
  | .inCall c .wait => q.room c.needs = 0
  | .inCall c .attempt | .inCall c .link | .inCall c .count =>
      0 < q.room c.needs
  | .assertFailed | .fault => False
  | _ => True

variable {T : Type u} [DecidableEq T] [Fintype T]

/-- While a thread is blocked on a condition variable, what it waits for is
bounded by the threads that are bound to take it or to signal. -/
def Wakeups (s : State T) : Prop :=
  ∀ r, (∃ t, (s.pc t).blockedOn r = true) →
    s.q.room r ≤ threadSum (Pc.relief r) s.pc

structure Inv (m : ℤ) (s : State T) : Prop where
  owned : Owned Pc.owns s.owner s.pc
  counts : s.q.Counts m
  listed : ∃ xs vals, s.q.Lists xs vals ∧
    (vals.length : ℤ) = s.q.count + threadSum Pc.uncounted s.pc
  facts : ∀ t, (s.pc t).Facts s.q
  wakeups : Wakeups s

variable {m : ℤ} {s s' : State T} {t u : T} {q q' : Queue} {o : Option T}
  {pc : Pc}

omit [DecidableEq T] [Fintype T] in
/-- The facts of a thread that does not own the mutex do not depend on the
queue. -/
theorem Pc.Facts.of_not_owns
    (hf : pc.Facts q) (howns : pc.owns = false) : pc.Facts q' := by
  unfold Pc.Facts at hf ⊢
  split <;> simp_all [Pc.owns]

/-- Facts depend on the counters only. -/
theorem Pc.Facts.congr
    (hf : pc.Facts q) (hcount : q'.count = q.count)
    (hmax : q'.maxCount = q.maxCount) : pc.Facts q' := by
  unfold Pc.Facts at hf ⊢
  split <;> simp_all [Queue.room_congr hcount hmax]

omit [DecidableEq T] in
theorem relief_nonneg (r : Resource) (pc : T → Pc) :
    0 ≤ threadSum (Pc.relief r) pc := by
  apply threadSum_nonneg
  intro p
  unfold Pc.relief
  split <;> try split_ifs
  all_goals simp

/-- The step of one thread keeps the wake-ups if nothing is left to wait for,
or if the thread gives as much relief as before. -/
theorem Wakeups.goto
    (hw : Wakeups s)
    (hwake : ∀ r, q.room r ≤ 0 ∨ (pc.blockedOn r = false ∧
      ((∃ u, (s.pc u).blockedOn r = true) →
        q.room r + (s.pc t).relief r ≤
          s.q.room r + pc.relief r))) :
    Wakeups (s.goto t q o pc) := by
  rintro r ⟨u, hu⟩
  change q.room r ≤ threadSum (Pc.relief r) (Function.update s.pc t pc)
  have hrelief := threadSum_update (Pc.relief r) s.pc t pc
  rcases hwake r with hzero | ⟨hnot, hle⟩
  · have := relief_nonneg r (Function.update s.pc t pc)
    omega
  · have hold : ∃ v, (s.pc v).blockedOn r = true := by
      by_cases hut : u = t
      · subst hut
        rw [State.goto_pc_self, hnot] at hu
        simp at hu
      · rw [State.goto_pc_of_ne hut] at hu
        exact ⟨u, hu⟩
    have hbound := hw r hold
    have hgain := hle hold
    omega

/-- A step of one thread keeps the invariant if it keeps the books. -/
theorem Inv.goto
    (hi : Inv m s) (howned : Owned Pc.owns o (s.goto t q o pc).pc)
    (hcounts : q.Counts m)
    (hquiet : (s.pc t).owns = true ∨ q.count = s.q.count)
    (hlisted : ∀ xs vals, s.q.Lists xs vals →
      (vals.length : ℤ) = s.q.count + threadSum Pc.uncounted s.pc →
        ∃ xs' vals', q.Lists xs' vals' ∧
          (vals'.length : ℤ) + s.q.count + (s.pc t).uncounted =
            vals.length + q.count + pc.uncounted)
    (hfacts : pc.Facts q) (hwake : Wakeups (s.goto t q o pc)) :
    Inv m (s.goto t q o pc) := by
  constructor
  · exact howned
  · exact hcounts
  · obtain ⟨xs, vals, hl, hlen⟩ := hi.listed
    obtain ⟨xs', vals', hl', hlen'⟩ := hlisted xs vals hl hlen
    refine ⟨xs', vals', hl', ?_⟩
    have huncounted := threadSum_update Pc.uncounted s.pc t pc
    change (vals'.length : ℤ) =
      q.count + threadSum Pc.uncounted (Function.update s.pc t pc)
    omega
  · intro u
    by_cases hut : u = t
    · subst hut
      rw [State.goto_pc_self]
      exact hfacts
    · rw [State.goto_pc_of_ne hut]
      rcases hquiet with howns | hcount
      · exact (hi.facts u).of_not_owns (hi.owned.not_owns_of_ne howns hut)
      · exact (hi.facts u).congr hcount
          (hcounts.maxCount.trans hi.counts.maxCount.symm)
  · exact hwake

/-- A step that leaves the queue as it is. -/
theorem Inv.goto_same
    (hi : Inv m s) (howned : Owned Pc.owns o (s.goto t s.q o pc).pc)
    (huncounted : pc.uncounted = (s.pc t).uncounted) (hfacts : pc.Facts s.q)
    (hwake : ∀ r, s.q.room r ≤ 0 ∨ (pc.blockedOn r = false ∧
      ((∃ u, (s.pc u).blockedOn r = true) →
        (s.pc t).relief r ≤ pc.relief r))) :
    Inv m (s.goto t s.q o pc) := by
  apply hi.goto howned hi.counts (Or.inr rfl)
  · intro xs vals hl hlen
    exact ⟨xs, vals, hl, by omega⟩
  · exact hfacts
  · apply hi.wakeups.goto
    intro r
    rcases hwake r with h | ⟨h, hle⟩
    · exact Or.inl h
    · exact Or.inr ⟨h, fun hblocked => by have := hle hblocked; omega⟩

/-- A step of an owner that leaves the counters as they are. -/
theorem Inv.goto_list
    (hi : Inv m s) (howns : (s.pc t).owns = true) (hkeeps : pc.owns = true)
    (hsame : Queue.SameCounters s.q q)
    (hlisted : ∀ xs vals, s.q.Lists xs vals →
      (vals.length : ℤ) = s.q.count + threadSum Pc.uncounted s.pc →
        ∃ xs' vals', q.Lists xs' vals' ∧
          (vals'.length : ℤ) + (s.pc t).uncounted =
            vals.length + pc.uncounted)
    (hfacts : pc.Facts s.q) (hblocked : ∀ r, pc.blockedOn r = false)
    (hrelief : ∀ r, pc.relief r = (s.pc t).relief r) :
    Inv m (s.goto t q s.owner pc) := by
  have howned := hi.owned.keep (hkeeps.trans howns.symm)
  apply hi.goto howned (hi.counts.congr hsame) (Or.inl howns)
  · intro xs vals hl hlen
    obtain ⟨xs', vals', hl', hlen'⟩ := hlisted xs vals hl hlen
    have hcount := hsame.count
    exact ⟨xs', vals', hl', by omega⟩
  · exact hfacts.congr hsame.count hsame.maxCount
  · apply hi.wakeups.goto
    intro r
    rw [Queue.room_congr hsame.count hsame.maxCount, hrelief r]
    exact Or.inr ⟨hblocked r, fun _ => le_rfl⟩

/-! ### The operations -/

omit [DecidableEq T] [Fintype T] in
theorem mustWait_iff (c : Call) (q : Queue) :
    mustWait c q = true ↔ q.room c.needs = 0 := by
  cases c with
  | add val =>
      simp [mustWait, Call.needs, Queue.room]
      omega
  | get => simp [mustWait, Call.needs, Queue.room]

/-! ### The steps -/

omit [DecidableEq T] [Fintype T] in
/-- Only the owner of the mutex has changed the list without counting. -/
theorem Pc.uncounted_of_not_owns
    (p : Pc) (howns : p.owns = false) : p.uncounted = 0 := by
  unfold Pc.uncounted
  split <;> simp_all [Pc.owns]

omit [DecidableEq T] in
theorem Inv.facts_of
    (hi : Inv m s) (hpc : s.pc t = pc) : pc.Facts s.q :=
  hpc ▸ hi.facts t

/-- Taking the mutex, before or after a wait. -/
theorem Inv.acquire
    (hi : Inv m s) (hfree : s.owner = none) (howns : pc.owns = true)
    (huncounted : pc.uncounted = (s.pc t).uncounted) (hfacts : pc.Facts s.q)
    (hblocked : ∀ r, pc.blockedOn r = false)
    (hrelief : ∀ r, (s.pc t).relief r ≤ pc.relief r) :
    Inv m (s.goto t s.q (some t) pc) := by
  apply hi.goto_same (hi.owned.acquire hfree howns) huncounted hfacts
  intro r
  exact Or.inr ⟨hblocked r, fun _ => hrelief r⟩

/-- The test of the waiting loop. -/
theorem Inv.test
    {c : Call} (hi : Inv m s) (hpc : s.pc t = .inCall c .test) :
    Inv m (s.goto t s.q s.owner
      (.inCall c (if mustWait c s.q then .wait else .attempt))) := by
  have hnonneg := hi.counts.room_nonneg c.needs
  by_cases hwait : mustWait c s.q = true
  · have hzero := (mustWait_iff c s.q).mp hwait
    rw [if_pos hwait]
    apply hi.goto_same (hi.owned.keep (by rw [hpc]; rfl))
    · rw [hpc]
      cases c <;> rfl
    · exact hzero
    · intro r
      by_cases hside : c.needs = r
      · subst hside
        exact Or.inl hzero.le
      · exact Or.inr ⟨rfl, fun _ => by simp [hpc, Pc.relief, hside]⟩
  · have hroom : s.q.room c.needs ≠ 0 := by
      rwa [Ne, ← mustWait_iff]
    rw [if_neg hwait]
    apply hi.goto_same (hi.owned.keep (by rw [hpc]; rfl))
    · rw [hpc]
      cases c <;> rfl
    · change 0 < s.q.room c.needs
      omega
    · intro r
      exact Or.inr ⟨rfl, fun _ => by simp [hpc, Pc.relief]⟩

/-- `pthread_cond_wait`: the mutex is released by a thread that found no
room. -/
theorem Inv.wait
    {c : Call} (hi : Inv m s) (hpc : s.pc t = .inCall c .wait) :
    Inv m (s.goto t s.q none (.inCall c .blocked)) := by
  have hzero : s.q.room c.needs = 0 := hi.facts_of hpc
  apply hi.goto_same (hi.owned.release (by rw [hpc]; rfl) rfl)
  · rw [hpc]
    cases c <;> rfl
  · trivial
  · intro r
    by_cases hside : c.needs = r
    · subst hside
      exact Or.inl hzero.le
    · exact Or.inr ⟨by simp [Pc.blockedOn, hside],
        fun _ => by simp [hpc, Pc.relief]⟩

/-- The assertion and the attempt counter. -/
theorem Inv.attempt
    {c : Call} (hi : Inv m s) (hpc : s.pc t = .inCall c .attempt) :
    ∃ q, c.operation.attempt s.q = some q ∧
      Inv m (s.goto t q s.owner (.inCall c .link)) := by
  obtain ⟨q, hattempt, hsame, hlists⟩ := c.exists_attempt hi.counts
  refine ⟨q, hattempt, ?_⟩
  apply hi.goto_list (by rw [hpc]; rfl) rfl hsame
  · intro xs vals hl hlen
    refine ⟨xs, vals, hlists xs vals hl, ?_⟩
    rw [hpc]
    cases c <;> simp [Pc.uncounted]
  · change 0 < s.q.room c.needs
    exact hi.facts_of hpc
  · intro r
    rfl
  · intro r
    rw [hpc]
    rfl

/-- The change of the list: `first` is not null when a value is taken. -/
theorem Inv.link
    {c : Call} (hi : Inv m s) (hpc : s.pc t = .inCall c .link) :
    ∃ q, c.operation.link s.q = some q ∧
      Inv m (s.goto t q s.owner (.inCall c .count)) := by
  have howns : (s.pc t).owns = true := by rw [hpc]; rfl
  have hnone : (s.pc t).uncounted = 0 := by
    rw [hpc]
    rfl
  have huncounted := hi.owned.threadSum_eq howns Pc.uncounted_of_not_owns
  have hroom : 0 < s.q.room c.needs := hi.facts_of hpc
  have hbounds := Call.delta_bounds hi.counts hroom
  obtain ⟨xs, vals, hl, hlen⟩ := hi.listed
  obtain ⟨q, hlink, hsame, xs', vals', hl', hlen'⟩ :=
    c.exists_link hl (by omega)
  refine ⟨q, hlink, ?_⟩
  apply hi.goto_list howns rfl hsame
  · intro ys ws _ hys
    have hcount : (Pc.inCall c .count).uncounted = c.delta := rfl
    exact ⟨xs', vals', hl', by omega⟩
  · exact hroom
  · intro r
    rfl
  · intro r
    rw [hpc]
    rfl

/-- The counters: the thread now owes a signal for what it has given. -/
theorem Inv.count
    {c : Call} (hi : Inv m s) (hpc : s.pc t = .inCall c .count) :
    Inv m (s.goto t (c.operation.count s.q) s.owner (.inCall c .signal)) := by
  have howns : (s.pc t).owns = true := by rw [hpc]; rfl
  have hroom : 0 < s.q.room c.needs := hi.facts_of hpc
  have hbounds := Call.delta_bounds hi.counts hroom
  have hcount := c.count_count s.q
  obtain ⟨hcounts, hlists⟩ := c.counts_count hi.counts hbounds.1 hbounds.2
  apply hi.goto (hi.owned.keep (by rw [hpc]; rfl)) hcounts (Or.inl howns)
  · intro xs vals hl hlen
    refine ⟨xs, vals, hlists xs vals hl, ?_⟩
    rw [hpc, hcount]
    simp only [Pc.uncounted]
    omega
  · trivial
  · apply hi.wakeups.goto
    intro r
    have hroom := c.room_count s.q r
    refine Or.inr ⟨rfl, fun _ => ?_⟩
    rw [hpc]
    simp only [Pc.relief]
    omega

/-- `pthread_mutex_unlock`. -/
theorem Inv.release
    (hi : Inv m s) (howns : (s.pc t).owns = true)
    (huncounted : (s.pc t).uncounted = 0)
    (hrelief : ∀ r, (s.pc t).relief r = 0) :
    Inv m (s.goto t s.q none .idle) := by
  apply hi.goto_same (hi.owned.release howns rfl)
  · exact huncounted.symm
  · trivial
  · intro r
    exact Or.inr ⟨rfl, fun _ => (hrelief r).le⟩

/-- A signal that wakes nobody is sent when nobody is blocked. -/
theorem Inv.signal_none
    {c : Call} (hi : Inv m s) (hpc : s.pc t = .inCall c .signal)
    (hnobody : ∀ u, (s.pc u).blockedOn c.gives = false) :
    Inv m (s.goto t s.q s.owner (.inCall c .unlock)) := by
  apply hi.goto_same (hi.owned.keep (by rw [hpc]; rfl))
  · rw [hpc]
    cases c <;> rfl
  · trivial
  · intro r
    refine Or.inr ⟨rfl, ?_⟩
    rintro ⟨u, hu⟩
    by_cases hside : c.gives = r
    · subst hside
      rw [hnobody u] at hu
      simp at hu
    · simp [hpc, Pc.relief, hside]

/-- The signalled thread takes over the relief of the one that signals. -/
theorem Inv.signal_some
    {c d : Call} (hi : Inv m s) (hpc : s.pc t = .inCall c .signal)
    (hupc : s.pc u = .inCall d .blocked) (hside : d.needs = c.gives) :
    Inv m ((s.goto u s.q s.owner (.inCall d (.woken true))).goto t
      s.q s.owner (.inCall c .unlock)) := by
  have htu : t ≠ u := by
    rintro rfl
    rw [hpc] at hupc
    cases hupc
  have hwoken : Inv m (s.goto u s.q s.owner (.inCall d (.woken true))) := by
    apply hi.goto_same (hi.owned.keep (by rw [hupc]; rfl))
    · rw [hupc]
      cases d <;> rfl
    · trivial
    · intro r
      refine Or.inr ⟨rfl, fun _ => ?_⟩
      rw [hupc]
      simp only [Pc.relief]
      split_ifs <;> simp
  have ht : (s.goto u s.q s.owner (.inCall d (.woken true))).pc t =
      .inCall c .signal := (State.goto_pc_of_ne htu ..).trans hpc
  apply hwoken.goto (hwoken.owned.keep (by rw [ht]; rfl)) hi.counts (Or.inr rfl)
  · intro xs vals hl hlen
    refine ⟨xs, vals, hl, ?_⟩
    rw [ht]
    cases c <;> simp [Pc.uncounted]
  · trivial
  · rintro r ⟨v, hv⟩
    have hfirst := threadSum_update (Pc.relief r) s.pc u
      (.inCall d (.woken true))
    have hsecond := threadSum_update (Pc.relief r)
      (s.goto u s.q s.owner (.inCall d (.woken true))).pc t (.inCall c .unlock)
    rw [ht] at hsecond
    rw [hupc] at hfirst
    have hblocked : (s.pc v).blockedOn r = true := by
      by_cases hvt : v = t
      · subst hvt
        simp [Pc.blockedOn] at hv
      · rw [State.goto_pc_of_ne hvt] at hv
        by_cases hvu : v = u
        · subst hvu
          simp [Pc.blockedOn] at hv
        · rwa [State.goto_pc_of_ne hvu] at hv
    have hbound := hi.wakeups r ⟨v, hblocked⟩
    simp only [Pc.relief, hside] at hfirst hsecond
    simp only [State.goto] at hsecond ⊢
    omega

theorem advance_inv
    (hi : Inv m s) (hstep : advance s t = some s') : Inv m s' := by
  unfold advance at hstep
  split at hstep
  · cases hstep
  · cases hstep
  · cases hstep
  · next c hpc =>
      split at hstep
      · next hfree =>
          obtain rfl := Option.some.inj hstep
          apply hi.acquire hfree rfl
          · rw [hpc]
            cases c <;> rfl
          · trivial
          · intro r
            rfl
          · intro r
            rw [hpc]
            simp only [Pc.relief]
            split_ifs <;> simp
      · cases hstep
  · next c signalled hpc =>
      split at hstep
      · next hfree =>
          obtain rfl := Option.some.inj hstep
          apply hi.acquire hfree rfl
          · rw [hpc]
            cases c <;> rfl
          · trivial
          · intro r
            rfl
          · intro r
            rw [hpc]
            cases signalled <;> simp only [Pc.relief] <;> split_ifs <;> simp
      · cases hstep
  · next c hpc =>
      obtain rfl := Option.some.inj hstep
      exact hi.test hpc
  · next c hpc =>
      obtain rfl := Option.some.inj hstep
      exact hi.wait hpc
  · cases hstep
  · cases hstep
  · next c hpc =>
      obtain ⟨q, hattempt, hinv⟩ := hi.attempt hpc
      rw [hattempt] at hstep
      obtain rfl := Option.some.inj hstep
      exact hinv
  · next c hpc =>
      obtain ⟨q, hlink, hinv⟩ := hi.link hpc
      rw [hlink] at hstep
      obtain rfl := Option.some.inj hstep
      exact hinv
  · next c hpc =>
      obtain rfl := Option.some.inj hstep
      exact hi.count hpc
  · next c hpc =>
      obtain rfl := Option.some.inj hstep
      apply hi.release (by rw [hpc]; rfl)
      · rw [hpc]
        cases c <;> rfl
      · intro r
        rw [hpc]
        rfl
  · next hpc =>
      split at hstep
      · next hfree =>
          obtain rfl := Option.some.inj hstep
          apply hi.acquire hfree rfl
          · rw [hpc]
            rfl
          · trivial
          · intro r
            rfl
          · intro r
            rw [hpc]
            rfl
      · cases hstep
  · next hpc =>
      obtain rfl := Option.some.inj hstep
      apply hi.release (by rw [hpc]; rfl)
      · rw [hpc]
        rfl
      · intro r
        rw [hpc]
        rfl

end CondVar
end BoundedQueue
end OsFifthSem
