import OsFifthSem.Proxy.Cache.Entry
import OsFifthSem.Support.MutexOwner
import OsFifthSem.Support.Transition

/-!
# Writers of one entry

Any number of threads call `cache_append_data` and `cache_finish_loading` on
one entry.  Both test `is_loading` before they take `data_lock` and do not test
it again, so an append that waits for the lock may store its chunk in an entry
that has been finished in the meantime.
-/

namespace OsFifthSem
namespace Proxy

open Support

/-- A call into the entry. -/
inductive WriterCall
  | appendData (chunk : List UInt8)
  | finishLoading
  deriving DecidableEq

/-- Where a thread is.  A call is named by a number. -/
inductive WriterPc
  | outside
  | tested (i : ℕ) (call : WriterCall)
  | locked (i : ℕ) (call : WriterCall)
  | updated (i : ℕ) (call : WriterCall) (result : ℤ)

/-- The thread has the write lock. -/
def WriterPc.owns : WriterPc → Bool
  | .outside | .tested _ _ => false
  | .locked _ _ | .updated _ _ _ => true

/-- The call that the thread is in. -/
def WriterPc.call : WriterPc → Option ℕ
  | .outside => none
  | .tested i _ | .locked i _ | .updated i _ _ => some i

/-- The call of a thread that has not yet done its update. -/
def WriterPc.pending : WriterPc → Option ℕ
  | .tested i _ | .locked i _ => some i
  | .outside | .updated _ _ _ => none

/-- The append of a thread that is going to return 0. -/
def WriterPc.success : WriterPc → Option (ℕ × List UInt8)
  | .updated i (.appendData chunk) r => if r = 0 then some (i, chunk) else none
  | .outside | .tested _ _ | .locked _ _ | .updated _ .finishLoading _ => none

theorem WriterPc.call_of_pending
    {p : WriterPc} {i : ℕ} (h : p.pending = some i) : p.call = some i := by
  cases p <;> first | exact h | cases h

theorem WriterPc.success_eq_some
    {p : WriterPc} {i : ℕ} {chunk : List UInt8}
    (h : p.success = some (i, chunk)) :
    p = .updated i (.appendData chunk) 0 := by
  unfold WriterPc.success at h
  split at h
  · obtain ⟨rfl, h⟩ := Option.ite_none_right_eq_some.mp h
    obtain ⟨rfl, rfl⟩ := Prod.mk.inj (Option.some.inj h)
    rfl
  all_goals cases h

/-- The history: an append stored its chunk, an append returned, or a finish
released `data_lock` and left `data` behind. -/
inductive WriterEvent
  | stored (i : ℕ) (chunk : List UInt8)
  | returned (i : ℕ) (chunk : List UInt8) (result : ℤ)
  | finished (i : ℕ) (data : List UInt8)
  deriving DecidableEq

/-- The call of an event. -/
def WriterEvent.call : WriterEvent → ℕ
  | .stored i _ | .returned i _ _ | .finished i _ => i

/-- The chunk that an event adds to the entry. -/
def WriterEvent.chunk : WriterEvent → List UInt8
  | .stored _ chunk => chunk
  | .returned _ _ _ | .finished _ _ => []

/-- An append that is going to return 0 has stored its chunk. -/
def storeEvents (i : ℕ) (chunk : List UInt8) (result : ℤ) : List WriterEvent :=
  if result = 0 then [.stored i chunk] else []

/-- The event of the release that ends a call. -/
def WriterCall.release (i : ℕ) (result : ℤ) (data : List UInt8) :
    WriterCall → WriterEvent
  | .appendData chunk => .returned i chunk result
  | .finishLoading => .finished i data

section Events

variable {i j : ℕ} {chunk chunk' data : List UInt8} {r : ℤ} {call : WriterCall}
  {ev : WriterEvent}

@[simp] theorem WriterCall.release_call :
    (call.release i r data).call = i := by
  cases call <;> rfl

@[simp] theorem WriterCall.release_chunk :
    (call.release i r data).chunk = [] := by
  cases call <;> rfl

@[simp] theorem WriterCall.release_ne_stored :
    call.release i r data ≠ .stored j chunk := by
  cases call <;> simp [WriterCall.release]

theorem mem_storeEvents :
    ev ∈ storeEvents i chunk r ↔ r = 0 ∧ ev = .stored i chunk := by
  unfold storeEvents
  split <;> simp_all

theorem count_storeEvents_of_ne (h : j ≠ i) :
    (storeEvents i chunk r).count (.stored j chunk') = 0 := by
  rw [List.count_eq_zero, mem_storeEvents]
  rintro ⟨-, heq⟩
  exact h (WriterEvent.stored.inj heq).1

end Events

/-- The entry, its writers, and the history. -/
structure Writers (T : Type*) where
  entry : Entry
  dataLock : Option T
  pc : T → WriterPc
  calls : ℕ
  log : List WriterEvent

/-- The steps of the writers.  `now` is the time that the update reads, and
`reallocOk` tells whether a `realloc` in it succeeds. -/
inductive WriterStep (T : Type*)
  | test (t : T) (call : WriterCall)
  | acquire (t : T)
  | update (t : T) (now : ℤ) (reallocOk : Bool)
  | release (t : T)

namespace Writers

variable {T : Type*} [DecidableEq T]

/-- Move a thread. -/
def goto (s : Writers T) (t : T) (p : WriterPc) : Writers T :=
  { s with pc := Function.update s.pc t p }

/-- One step of a thread.  A refused call returns -1 at once. -/
def step (s : Writers T) : WriterStep T → Option (Writers T)
  | .test t call =>
      match s.pc t with
      | .outside =>
          if s.entry.isLoading then
            some { s.goto t (.tested s.calls call) with calls := s.calls + 1 }
          else some s
      | _ => none
  | .acquire t =>
      match s.pc t with
      | .tested i call =>
          if s.dataLock.isNone then
            some { s.goto t (.locked i call) with dataLock := some t }
          else none
      | _ => none
  | .update t now ok =>
      match s.pc t with
      | .locked i (.appendData chunk) =>
          (s.entry.appendData chunk now ok).map fun p =>
            { s.goto t (.updated i (.appendData chunk) p.1) with
              entry := p.2
              log := s.log ++ storeEvents i chunk p.1 }
      | .locked i .finishLoading =>
          (s.entry.finishLoading now ok).map fun e =>
            { s.goto t (.updated i .finishLoading 0) with entry := e }
      | _ => none
  | .release t =>
      match s.pc t with
      | .updated i call r =>
          some { s.goto t .outside with
            dataLock := none
            log := s.log ++ [call.release i r s.entry.data] }
      | _ => none

/-- An entry of `create_entry`, before its writers. -/
def start (key : CString) (initialSize : UInt64) (now : ℤ) : Writers T where
  entry := createEntry key initialSize.toNat now
  dataLock := none
  pc := fun _ => .outside
  calls := 0
  log := []

/-- All interleavings of the writers of one entry. -/
def writers (T : Type*) [DecidableEq T] :
    TransitionSystem (Writers T) (WriterStep T) where
  Initial := fun s => ∃ key initialSize now, s = start key initialSize now
  step := step

/-- What a step can do. -/
inductive Move (s : Writers T) : WriterStep T → Writers T → Prop
  | refused {t : T} {call : WriterCall} : Move s (.test t call) s
  | tested {t : T} {call : WriterCall} (hpc : s.pc t = .outside)
      (hload : s.entry.isLoading = true) :
      Move s (.test t call)
        { s.goto t (.tested s.calls call) with calls := s.calls + 1 }
  | acquired {t : T} {i : ℕ} {call : WriterCall} (hpc : s.pc t = .tested i call)
      (hfree : s.dataLock = none) :
      Move s (.acquire t) { s.goto t (.locked i call) with dataLock := some t }
  | appended {t : T} {i : ℕ} {chunk : List UInt8} {now : ℤ} {ok : Bool} {r : ℤ}
      {e : Entry} (hpc : s.pc t = .locked i (.appendData chunk))
      (happ : s.entry.appendData chunk now ok = some (r, e)) :
      Move s (.update t now ok)
        { s.goto t (.updated i (.appendData chunk) r) with
          entry := e
          log := s.log ++ storeEvents i chunk r }
  | finished {t : T} {i : ℕ} {now : ℤ} {ok : Bool} {e : Entry}
      (hpc : s.pc t = .locked i .finishLoading)
      (hfin : s.entry.finishLoading now ok = some e) :
      Move s (.update t now ok)
        { s.goto t (.updated i .finishLoading 0) with entry := e }
  | released {t : T} {i : ℕ} {call : WriterCall} {r : ℤ}
      (hpc : s.pc t = .updated i call r) :
      Move s (.release t) { s.goto t .outside with
        dataLock := none
        log := s.log ++ [call.release i r s.entry.data] }

variable {s s' : Writers T} {a : WriterStep T}

theorem step_move (h : (writers T).step s a = some s') : s.Move a s' := by
  change s.step a = some s' at h
  cases a with
  | test t call =>
      simp only [step] at h
      split at h
      next hpc =>
        split at h
        next hload =>
          obtain rfl := Option.some.inj h
          exact .tested hpc hload
        next =>
          obtain rfl := Option.some.inj h
          exact .refused
      next => cases h
  | acquire t =>
      simp only [step] at h
      split at h
      next i call hpc =>
        obtain ⟨hfree, h⟩ := Option.ite_none_right_eq_some.mp h
        obtain rfl := Option.some.inj h
        exact .acquired hpc (Option.isNone_iff_eq_none.mp hfree)
      next => cases h
  | update t now ok =>
      simp only [step] at h
      split at h
      next i chunk hpc =>
        obtain ⟨⟨r, e⟩, happ, rfl⟩ := Option.map_eq_some_iff.mp h
        exact .appended hpc happ
      next i hpc =>
        obtain ⟨e, hfin, rfl⟩ := Option.map_eq_some_iff.mp h
        exact .finished hpc hfin
      next => cases h
  | release t =>
      simp only [step] at h
      split at h
      next i call r hpc =>
        obtain rfl := Option.some.inj h
        exact .released hpc
      next => cases h

theorem Move.log_grows (hm : s.Move a s') : s.log <+: s'.log := by
  cases hm with
  | refused | tested | acquired | finished => exact List.prefix_rfl
  | appended | released => exact List.prefix_append _ _

/-! ## Calls are numbered and the lock has one owner -/

/-- The owner of `data_lock` and the numbers of the calls. -/
structure Numbered (s : Writers T) : Prop where
  lock : Owned WriterPc.owns s.dataLock s.pc
  below : ∀ t i, (s.pc t).call = some i → i < s.calls
  distinct : ∀ t u i, (s.pc t).call = some i → (s.pc u).call = some i → t = u
  logged : ∀ ev ∈ s.log, ev.call < s.calls

theorem goto_pc_self (s : Writers T) (t : T) (p : WriterPc) :
    (s.goto t p).pc t = p :=
  Function.update_self ..

theorem goto_pc_of_ne (s : Writers T) {t u : T} (p : WriterPc) (h : u ≠ t) :
    (s.goto t p).pc u = s.pc u :=
  Function.update_of_ne h ..

/-- What a program point says is said by the thread that moved or was said
before. -/
theorem goto_cases
    {α : Type*} {f : WriterPc → Option α} {t u : T} {p : WriterPc} {x : α}
    (h : f ((s.goto t p).pc u) = some x) :
    (u = t ∧ f p = some x) ∨ (u ≠ t ∧ f (s.pc u) = some x) := by
  by_cases hut : u = t
  · subst hut
    rw [goto_pc_self] at h
    exact .inl ⟨rfl, h⟩
  · rw [goto_pc_of_ne _ _ hut] at h
    exact .inr ⟨hut, h⟩

theorem goto_pc_cases
    {t u : T} {p q : WriterPc} (h : (s.goto t p).pc u = q) :
    (u = t ∧ p = q) ∨ (u ≠ t ∧ s.pc u = q) := by
  rcases goto_cases (f := some) (congrArg some h) with ⟨hut, hp⟩ | ⟨hut, hold⟩
  · exact .inl ⟨hut, Option.some.inj hp⟩
  · exact .inr ⟨hut, Option.some.inj hold⟩

theorem goto_of
    {α : Type*} {f : WriterPc → Option α} {t u : T} {p : WriterPc} {x : α}
    (hp : f p = f (s.pc t) ∨ f p = none)
    (h : f ((s.goto t p).pc u) = some x) : f (s.pc u) = some x := by
  rcases goto_cases h with ⟨rfl, hx⟩ | ⟨-, hold⟩
  · rcases hp with hp | hp
    · rw [← hp, hx]
    · rw [hp] at hx
      cases hx
  · exact hold

theorem Numbered.goto
    (hs : s.Numbered) {t : T} {p : WriterPc} {lock : Option T} {e : Entry}
    {log : List WriterEvent}
    (hp : p.call = (s.pc t).call ∨ p.call = none)
    (hlock : Owned WriterPc.owns lock (s.goto t p).pc)
    (hlog : ∀ ev ∈ log, ev ∈ s.log ∨ some ev.call = (s.pc t).call) :
    Numbered { s.goto t p with entry := e, dataLock := lock, log := log } := by
  refine ⟨hlock, ?_, ?_, ?_⟩
  · intro u i h
    exact hs.below u i (goto_of hp h)
  · intro u v i hu hv
    exact hs.distinct u v i (goto_of hp hu) (goto_of hp hv)
  · intro ev hev
    rcases hlog ev hev with hold | hnew
    · exact hs.logged ev hold
    · exact hs.below t _ hnew.symm

theorem Move.numbered (hm : s.Move a s') (hs : s.Numbered) : s'.Numbered := by
  cases hm with
  | refused => exact hs
  | tested hpc hload =>
      refine ⟨hs.lock.keep (by rw [hpc]; rfl), ?_, ?_, ?_⟩
      · intro u i h
        rcases goto_cases h with ⟨-, hi⟩ | ⟨-, hold⟩
        · exact Option.some.inj hi ▸ Nat.lt_succ_self _
        · exact (hs.below u i hold).trans (Nat.lt_succ_self _)
      · intro u v i hu hv
        rcases goto_cases hu with ⟨hut, hi⟩ | ⟨-, hu'⟩ <;>
          rcases goto_cases hv with ⟨hvt, hi'⟩ | ⟨-, hv'⟩
        · exact hut.trans hvt.symm
        · exact absurd (hs.below v i hv') (Option.some.inj hi ▸ lt_irrefl _)
        · exact absurd (hs.below u i hu') (Option.some.inj hi' ▸ lt_irrefl _)
        · exact hs.distinct u v i hu' hv'
      · intro ev hev
        exact (hs.logged ev hev).trans (Nat.lt_succ_self _)
  | acquired hpc hfree =>
      exact hs.goto (.inl (by rw [hpc]; rfl)) (hs.lock.acquire hfree rfl)
        fun ev hev => .inl hev
  | appended hpc happ =>
      refine hs.goto (.inl (by rw [hpc]; rfl))
        (hs.lock.keep (by rw [hpc]; rfl)) fun ev hev => ?_
      rcases List.mem_append.mp hev with hold | hnew
      · exact .inl hold
      · obtain ⟨-, rfl⟩ := mem_storeEvents.mp hnew
        exact .inr (by rw [hpc]; rfl)
  | finished hpc hfin =>
      exact hs.goto (.inl (by rw [hpc]; rfl))
        (hs.lock.keep (by rw [hpc]; rfl)) fun ev hev => .inl hev
  | released hpc =>
      refine hs.goto (.inr rfl) (hs.lock.release (by rw [hpc]; rfl) rfl)
        fun ev hev => ?_
      rcases List.mem_append.mp hev with hold | hnew
      · exact .inl hold
      · obtain rfl := List.mem_singleton.mp hnew
        exact .inr (by rw [hpc, WriterCall.release_call]; rfl)

/-! ## Every append stores its chunk once -/

/-- The chunks of the calls that returned 0, once each. -/
structure Once (s : Writers T) : Prop where
  pending : ∀ t i, (s.pc t).pending = some i →
    ∀ chunk, .stored i chunk ∉ s.log
  counted : ∀ t i chunk, (s.pc t).success = some (i, chunk) →
    s.log.count (.stored i chunk) = 1
  returned : ∀ i chunk, .returned i chunk 0 ∈ s.log →
    s.log.count (.stored i chunk) = 1
  ended : ∀ i chunk r, .returned i chunk r ∈ s.log →
    ∀ t, (s.pc t).call ≠ some i
  contents : s.entry.data = s.log.flatMap WriterEvent.chunk

theorem Once.test
    {t : T} {call : WriterCall} (hs : s.Once) (hn : s.Numbered) :
    Once { s.goto t (.tested s.calls call) with calls := s.calls + 1 } := by
  refine ⟨?_, ?_, hs.returned, ?_, hs.contents⟩
  · intro u i h chunk hmem
    rcases goto_cases h with ⟨-, hi⟩ | ⟨-, hold⟩
    · have hlt := hn.logged _ hmem
      exact absurd hlt (Option.some.inj hi ▸ lt_irrefl _)
    · exact hs.pending u i hold chunk hmem
  · intro u i chunk h
    exact hs.counted u i chunk (goto_of (.inr rfl) h)
  · intro i chunk r hmem u h
    rcases goto_cases h with ⟨-, hi⟩ | ⟨-, hold⟩
    · have hlt := hn.logged _ hmem
      exact absurd hlt (Option.some.inj hi ▸ lt_irrefl _)
    · exact hs.ended i chunk r hmem u hold

/-- A step within a call that stores nothing. -/
theorem Once.goto
    {t : T} {p : WriterPc} {lock : Option T} {e : Entry} (hs : s.Once)
    (hcall : p.call = (s.pc t).call)
    (hpending : p.pending = (s.pc t).pending ∨ p.pending = none)
    (hsuccess : p.success = none) (he : e.data = s.entry.data) :
    Once { s.goto t p with entry := e, dataLock := lock } := by
  refine ⟨?_, ?_, hs.returned, ?_, he.trans hs.contents⟩
  · exact fun u i h => hs.pending u i (goto_of hpending h)
  · exact fun u i chunk h => hs.counted u i chunk (goto_of (.inr hsuccess) h)
  · exact fun i chunk r hmem u h =>
      hs.ended i chunk r hmem u (goto_of (.inl hcall) h)

theorem Move.once
    (hm : s.Move a s') (hn : s.Numbered) (hs : s.Once) : s'.Once := by
  cases hm with
  | refused => exact hs
  | tested hpc hload => exact hs.test hn
  | acquired hpc hfree =>
      exact hs.goto (by rw [hpc]; rfl) (.inl (by rw [hpc]; rfl)) rfl rfl
  | @appended t i chunk now ok r e hpc happ =>
      have hcall : (s.pc t).call = some i := by rw [hpc]; rfl
      have hfresh : ∀ chunk, .stored i chunk ∉ s.log :=
        hs.pending t i (by rw [hpc]; rfl)
      refine ⟨?_, ?_, ?_, ?_, ?_⟩
      · intro u j h chunk' hmem
        rcases goto_cases h with ⟨-, hj⟩ | ⟨hut, hold⟩
        · cases hj
        rcases List.mem_append.mp hmem with hmem | hmem
        · exact hs.pending u j hold chunk' hmem
        · obtain ⟨-, heq⟩ := mem_storeEvents.mp hmem
          obtain ⟨rfl, -⟩ := WriterEvent.stored.inj heq
          exact hut (hn.distinct u t j (WriterPc.call_of_pending hold) hcall)
      · intro u j chunk' h
        rw [List.count_append]
        rcases goto_cases h with ⟨-, hj⟩ | ⟨hut, hold⟩
        · have heq := WriterPc.success_eq_some hj
          obtain ⟨rfl, hcalls, rfl⟩ := WriterPc.updated.inj heq
          obtain rfl := WriterCall.appendData.inj hcalls
          rw [List.count_eq_zero.mpr (hfresh chunk)]
          simp [storeEvents]
        · have hne : j ≠ i := by
            rintro rfl
            have hj : (s.pc u).call = some j := by
              rw [WriterPc.success_eq_some hold]
              rfl
            exact hut (hn.distinct u t j hj hcall)
          rw [hs.counted u j chunk' hold, count_storeEvents_of_ne hne]
      · intro j chunk' hmem
        have hold : .returned j chunk' 0 ∈ s.log := by
          simpa [mem_storeEvents] using hmem
        have hne : j ≠ i := by
          rintro rfl
          exact hs.ended j chunk' 0 hold t hcall
        rw [List.count_append, hs.returned j chunk' hold,
          count_storeEvents_of_ne hne]
      · intro j chunk' r' hmem u h
        refine hs.ended j chunk' r' ?_ u (goto_of (.inl (by rw [hpc]; rfl)) h)
        simpa [mem_storeEvents] using hmem
      · simp only [List.flatMap_append, ← hs.contents]
        rcases (Entry.appendData_cases happ).2.2.2 with
          ⟨rfl, hdata⟩ | ⟨rfl, -, hdata⟩
        · simpa [storeEvents, WriterEvent.chunk] using hdata
        · simpa [storeEvents] using hdata
  | finished hpc hfin =>
      exact hs.goto (by rw [hpc]; rfl) (.inr rfl) rfl
        (Entry.finishLoading_spec hfin).2.2.1
  | @released t i call r hpc =>
      have hcall : (s.pc t).call = some i := by rw [hpc]; rfl
      have hcount : ∀ j chunk,
          (s.log ++ [call.release i r s.entry.data]).count (.stored j chunk) =
            s.log.count (.stored j chunk) := by
        intro j chunk
        rw [List.count_append, List.count_singleton, if_neg]
        · rfl
        · rw [beq_iff_eq]
          exact WriterCall.release_ne_stored
      refine ⟨?_, ?_, ?_, ?_, ?_⟩
      · intro u j h chunk hmem
        rcases List.mem_append.mp hmem with hmem | hmem
        · exact hs.pending u j (goto_of (.inr rfl) h) chunk hmem
        · exact WriterCall.release_ne_stored (List.mem_singleton.mp hmem).symm
      · intro u j chunk h
        rw [hcount]
        exact hs.counted u j chunk (goto_of (.inr rfl) h)
      · intro j chunk hmem
        rw [hcount]
        rcases List.mem_append.mp hmem with hmem | hmem
        · exact hs.returned j chunk hmem
        · have heq := List.mem_singleton.mp hmem
          cases call with
          | finishLoading => cases heq
          | appendData chunk' =>
              obtain ⟨rfl, rfl, rfl⟩ := WriterEvent.returned.inj heq
              exact hs.counted t j chunk (by rw [hpc]; rfl)
      · intro j chunk r' hmem u h
        rcases goto_cases h with ⟨-, hj⟩ | ⟨hut, hold⟩
        · cases hj
        rcases List.mem_append.mp hmem with hmem | hmem
        · exact hs.ended j chunk r' hmem u hold
        · have heq := congrArg WriterEvent.call (List.mem_singleton.mp hmem)
          rw [WriterCall.release_call] at heq
          obtain rfl : j = i := heq
          exact hut (hn.distinct u t j hold hcall)
      · simpa [Writers.goto] using hs.contents

/-! ## The flag -/

/-- `is_loading` is cleared by the update of a finish, and stays so. -/
structure Flagged (s : Writers T) : Prop where
  cleared : ∀ t i r, s.pc t = .updated i .finishLoading r →
    s.entry.isLoading = false
  logged : ∀ i d, .finished i d ∈ s.log → s.entry.isLoading = false
  source : s.entry.isLoading = false →
    (∃ t i r, s.pc t = .updated i .finishLoading r) ∨
      ∃ i d, .finished i d ∈ s.log

/-- A step that leaves the flag alone and adds no finish. -/
theorem Flagged.goto
    {t : T} {p : WriterPc} {lock : Option T} {e : Entry} {calls : ℕ}
    {log : List WriterEvent} (hs : s.Flagged)
    (hp : ∀ i r, p ≠ .updated i .finishLoading r)
    (hpc : ∀ i r, s.pc t ≠ .updated i .finishLoading r)
    (he : e.isLoading = s.entry.isLoading)
    (hlog : ∀ i d, .finished i d ∈ log ↔ .finished i d ∈ s.log) :
    Flagged { s.goto t p with
      entry := e, dataLock := lock, calls := calls, log := log } := by
  refine ⟨?_, ?_, ?_⟩
  · intro u i r h
    rcases goto_pc_cases h with ⟨-, heq⟩ | ⟨-, hold⟩
    · exact absurd heq (hp i r)
    · exact he.trans (hs.cleared u i r hold)
  · exact fun i d h => he.trans (hs.logged i d ((hlog i d).mp h))
  · intro h
    rcases hs.source (he.symm.trans h) with ⟨u, i, r, hu⟩ | ⟨i, d, hd⟩
    · refine .inl ⟨u, i, r, (goto_pc_of_ne s p ?_).trans hu⟩
      rintro rfl
      exact hpc i r hu
    · exact .inr ⟨i, d, (hlog i d).mpr hd⟩

theorem Move.flagged (hm : s.Move a s') (hs : s.Flagged) : s'.Flagged := by
  cases hm with
  | refused => exact hs
  | tested hpc hload =>
      exact hs.goto (by simp) (by simp [hpc]) rfl fun _ _ => Iff.rfl
  | acquired hpc hfree =>
      exact hs.goto (by simp) (by simp [hpc]) rfl fun _ _ => Iff.rfl
  | appended hpc happ =>
      exact hs.goto (by simp) (by simp [hpc]) (Entry.appendData_cases happ).2.1
        fun i d => by simp [mem_storeEvents]
  | @finished t i now ok e hpc hfin =>
      have hclear : e.isLoading = false := (Entry.finishLoading_spec hfin).2.1
      exact ⟨fun _ _ _ _ => hclear, fun _ _ _ => hclear,
        fun _ => .inl ⟨t, i, 0, goto_pc_self ..⟩⟩
  | @released t i call r hpc =>
      refine ⟨?_, ?_, ?_⟩
      · intro u j r' h
        rcases goto_pc_cases h with ⟨-, heq⟩ | ⟨-, hold⟩
        · cases heq
        · exact hs.cleared u j r' hold
      · intro j d h
        rcases List.mem_append.mp h with h | h
        · exact hs.logged j d h
        · have heq := List.mem_singleton.mp h
          cases call with
          | appendData chunk => cases heq
          | finishLoading => exact hs.cleared t i r hpc
      · intro h
        rcases hs.source h with ⟨u, j, r', hu⟩ | ⟨j, d, hd⟩
        · by_cases hut : u = t
          · subst hut
            obtain ⟨rfl, rfl, rfl⟩ := WriterPc.updated.inj (hpc.symm.trans hu)
            exact .inr ⟨i, s.entry.data, List.mem_append_right _ (by simp [WriterCall.release])⟩
          · exact .inl ⟨u, j, r', (goto_pc_of_ne s _ hut).trans hu⟩
        · exact .inr ⟨j, d, List.mem_append_left _ hd⟩

/-- The history of a finished entry. -/
structure Sealed (s : Writers T) : Prop where
  finished : ∀ i d, .finished i d ∈ s.log → s.entry.data = d
  loading : ∀ t i chunk, s.pc t = .locked i (.appendData chunk) →
    s.entry.isLoading = true
  ordered : s.log.Pairwise fun ev ev' =>
    ∀ i d, ev = .finished i d → ∀ j chunk, ev' ≠ .stored j chunk

/-- An append takes `data_lock` only while the entry is still loading. -/
def InTime (s : Writers T) (a : WriterStep T) : Prop :=
  ∀ t i chunk, a = .acquire t → s.pc t = .tested i (.appendData chunk) →
    s.entry.isLoading = true

theorem Move.sealed
    (hm : s.Move a s') (hn : s.Numbered) (hf : s.Flagged) (hs : s.Sealed)
    (ha : s.InTime a) : s'.Sealed := by
  obtain ⟨hfinished, hloading, hordered⟩ := hs
  cases hm with
  | refused => exact ⟨hfinished, hloading, hordered⟩
  | tested hpc hload =>
      refine ⟨hfinished, fun u i chunk h => ?_, hordered⟩
      rcases goto_pc_cases h with ⟨-, heq⟩ | ⟨-, hold⟩
      · cases heq
      · exact hloading u i chunk hold
  | @acquired t i call hpc hfree =>
      refine ⟨hfinished, fun u j chunk h => ?_, hordered⟩
      rcases goto_pc_cases h with ⟨-, heq⟩ | ⟨-, hold⟩
      · obtain ⟨rfl, rfl⟩ := WriterPc.locked.inj heq
        exact ha t i chunk rfl hpc
      · exact hloading u j chunk hold
  | @appended t i chunk now ok r e hpc happ =>
      -- nothing has been finished yet
      have hload := hloading t i chunk hpc
      have hnone : ∀ j d, .finished j d ∉ s.log := by
        intro j d h
        simp [hf.logged j d h] at hload
      refine ⟨?_, ?_, ?_⟩
      · intro j d h
        exact absurd (by simpa [mem_storeEvents] using h) (hnone j d)
      · intro u j chunk' _
        exact (Entry.appendData_cases happ).2.1.trans hload
      · refine List.pairwise_append.mpr ⟨hordered, ?_, ?_⟩
        · unfold storeEvents
          split <;> simp
        · rintro ev hev ev' - j d rfl
          exact absurd hev (hnone j d)
  | @finished t i now ok e hpc hfin =>
      refine ⟨?_, ?_, hordered⟩
      · intro j d h
        exact (Entry.finishLoading_spec hfin).2.2.1.trans (hfinished j d h)
      · intro u j chunk h
        rcases goto_pc_cases h with ⟨-, heq⟩ | ⟨hut, hold⟩
        · cases heq
        · have hout := hn.lock.not_owns_of_ne (t := t) (by rw [hpc]; rfl) hut
          rw [hold] at hout
          cases hout
  | @released t i call r hpc =>
      refine ⟨?_, ?_, ?_⟩
      · intro j d h
        rcases List.mem_append.mp h with h | h
        · exact hfinished j d h
        · have heq := List.mem_singleton.mp h
          cases call with
          | appendData chunk => cases heq
          | finishLoading => exact (WriterEvent.finished.inj heq).2.symm
      · intro u j chunk h
        rcases goto_pc_cases h with ⟨-, heq⟩ | ⟨-, hold⟩
        · cases heq
        · exact hloading u j chunk hold
      · refine List.pairwise_append.mpr ⟨hordered, List.pairwise_singleton _ _, ?_⟩
        rintro ev - ev' hev' j d - k chunk rfl
        exact WriterCall.release_ne_stored (List.mem_singleton.mp hev').symm

/-- After the release of a finish the contents are what that release left, and
every append that returned 0 has stored its chunk once, before that. -/
structure Immutable (s : Writers T) : Prop where
  contents : s.entry.data = s.log.flatMap WriterEvent.chunk
  frozen : ∀ i d, .finished i d ∈ s.log → s.entry.data = d
  once : ∀ i chunk, .returned i chunk 0 ∈ s.log →
    s.log.count (.stored i chunk) = 1
  before : ∀ i chunk, .returned i chunk 0 ∈ s.log →
    ∀ pre j d post, s.log = pre ++ .finished j d :: post →
      .stored i chunk ∈ pre

/-- The invariant of all interleavings. -/
structure Recorded (s : Writers T) : Prop where
  numbered : s.Numbered
  once : s.Once
  flagged : s.Flagged

omit [DecidableEq T] in
theorem recorded_start (key : CString) (initialSize : UInt64) (now : ℤ) :
    (start key initialSize now : Writers T).Recorded where
  numbered := ⟨fun _ => by simp [start, WriterPc.owns], by simp [start, WriterPc.call],
    by simp [start, WriterPc.call], by simp [start]⟩
  once := ⟨by simp [start, WriterPc.pending], by simp [start, WriterPc.success],
    by simp [start], by simp [start], rfl⟩
  flagged := ⟨by simp [start], by simp [start], by simp [start, createEntry]⟩

theorem Recorded.step
    (hs : s.Recorded) (h : (writers T).step s a = some s') : s'.Recorded :=
  have hm := step_move h
  ⟨hm.numbered hs.numbered, hm.once hs.numbered hs.once, hm.flagged hs.flagged⟩

/-- Every append stores at most one chunk, in every interleaving. -/
theorem recorded_of_reachable (hs : (writers T).Reachable s) : s.Recorded := by
  refine hs.invariant ?_ fun _ _ _ h _ => h.step
  rintro s ⟨key, initialSize, now, rfl⟩
  exact recorded_start key initialSize now

theorem sealed_of_inTime
    (hs : (writers T).ReachableUnder InTime s) : s.Sealed := by
  refine hs.invariant_of ?_ ?_
  · rintro s ⟨key, initialSize, now, rfl⟩
    exact ⟨by simp [start], by simp [start], List.Pairwise.nil⟩
  · intro s a s' hreach hsealed ha hstep
    have hrec := recorded_of_reachable hreach.reachable
    exact (step_move hstep).sealed hrec.numbered hrec.flagged hsealed ha

/-- For any number of threads, in every interleaving in which each append takes
`data_lock` while the entry is still loading, a finished entry is immutable. -/
theorem immutable_of_inTime
    (T : Type*) [DecidableEq T] (s : Writers T)
    (hs : (writers T).ReachableUnder InTime s) : s.Immutable := by
  have hrec := recorded_of_reachable hs.reachable
  have hsealed := sealed_of_inTime hs
  refine ⟨hrec.once.contents, hsealed.finished, hrec.once.returned, ?_⟩
  intro i chunk hret pre j d post hlog
  have hcount := hrec.once.returned i chunk hret
  have hmem : .stored i chunk ∈ s.log :=
    List.count_pos_iff.mp (by omega)
  have hordered := hsealed.ordered
  rw [hlog] at hmem hordered
  rcases List.mem_append.mp hmem with hpre | hpost
  · exact hpre
  · rcases List.mem_cons.mp hpost with heq | hpost
    · cases heq
    · have hafter := (List.pairwise_cons.mp (List.pairwise_append.mp hordered).2.1).1
      exact absurd rfl (hafter _ hpost j d rfl i chunk)

/-- An append that takes `data_lock` too late and returns 0 has changed a
finished entry. -/
theorem not_immutable_of_late
    {t : T} {i : ℕ} {chunk : List UInt8} {now : ℤ} {ok : Bool}
    (hs : (writers T).Reachable s)
    (hpc : s.pc t = .tested i (.appendData chunk))
    (hload : s.entry.isLoading = false)
    (hrun : (writers T).run s [.acquire t, .update t now ok, .release t] =
      some s')
    (hret : .returned i chunk 0 ∈ s'.log) : ¬s'.Immutable := by
  obtain ⟨hnumbered, honce, hflagged⟩ := recorded_of_reachable hs
  obtain ⟨s₁, hacquire, hrun⟩ := TransitionSystem.run_cons_eq_some_iff.mp hrun
  obtain ⟨s₂, hupdate, hrun⟩ := TransitionSystem.run_cons_eq_some_iff.mp hrun
  obtain ⟨s₃, hrelease, hrun⟩ := TransitionSystem.run_cons_eq_some_iff.mp hrun
  obtain rfl := Option.some.inj hrun
  -- the lock is free, so a finish has released it
  have hfree : s.dataLock = none := by
    cases step_move hacquire with
    | acquired _ hfree => exact hfree
  have hsource : ∃ j d, .finished j d ∈ s.log := by
    rcases hflagged.source hload with ⟨u, j, r, hu⟩ | hfin
    · have hout := hnumbered.lock.not_owns_of_free hfree u
      rw [hu] at hout
      cases hout
    · exact hfin
  have hgrows : s.log <+: s₃.log := (step_move hacquire).log_grows.trans
    ((step_move hupdate).log_grows.trans (step_move hrelease).log_grows)
  obtain ⟨later, hlater⟩ := hgrows
  obtain ⟨j, d, hfin⟩ := hsource
  obtain ⟨pre, post, hsplit⟩ := List.append_of_mem hfin
  intro himm
  have hpre := himm.before i chunk hret pre j d (post ++ later) (by
    rw [← hlater, hsplit, List.append_assoc, List.cons_append])
  refine honce.pending t i (by rw [hpc]; rfl) chunk ?_
  rw [hsplit]
  exact List.mem_append_left _ hpre

/-- One thread appends a byte and finishes the entry while the append of the
other one, which has seen it loading, waits. -/
def lateAppend : List (WriterStep Bool) :=
  [.test true (.appendData [65]), .acquire true, .update true 0 true,
    .release true, .test false (.appendData [66]), .test true .finishLoading,
    .acquire true, .update true 0 true, .release true, .acquire false,
    .update false 0 true, .release false]

/-- The late append returns 0 and the finished entry has a byte more. -/
theorem lateAppend_changes_finished :
    ∃ s, (writers Bool).run (start (.ofBuffer [97]) 4096 0) lateAppend = some s ∧
      .returned 1 [66] 0 ∈ s.log ∧ .finished 2 [65] ∈ s.log ∧
      s.entry.data = [65, 66] ∧ ¬s.Immutable := by
  refine ⟨_, rfl, by decide, by decide, rfl, fun h => ?_⟩
  exact absurd (h.frozen 2 [65] (by decide)) (by decide)

/-- Without the last three steps the entry is as the finish left it. -/
theorem immutable_of_inTime_finished :
    ∃ s, (writers Bool).run (start (.ofBuffer [97]) 4096 0)
        (lateAppend.take 9) = some s ∧
      .finished 2 [65] ∈ s.log ∧ s.Immutable := by
  refine ⟨_, rfl, by decide, immutable_of_inTime Bool _ ?_⟩
  let check : Writers Bool → WriterStep Bool → Bool := fun s a =>
    match a with
    | .acquire _ => s.entry.isLoading
    | _ => true
  refine TransitionSystem.ReachableUnder.runWhile ?_
    (.initial ⟨.ofBuffer [97], 4096, 0, rfl⟩)
    (rfl : (writers Bool).runWhile check (start (.ofBuffer [97]) 4096 0)
      (lateAppend.take 9) = some _)
  rintro s a hpass t i chunk rfl -
  exact hpass

end Writers

end Proxy
end OsFifthSem
