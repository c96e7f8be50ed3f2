import OsFifthSem.Threads.Uthread.Program

/-!
# Rounds of creating, starting and joining

`main` may create, start and join threads again and again.  A round comes to
its end exactly when its numbers of yields are balanced: otherwise `main` is
resumed while a thread has not finished, and sleeps in `uthread_join` for ever.
A round that has ended leaves all threads free for the next one.
-/

namespace OsFifthSem
namespace Uthread

open Support

universe u

variable {V : Type u} {limit first t i : ℕ} {ys : List ℕ} {m : Machine}

/-! ## The threads while they run -/

namespace Machine

/-- What a step does to a thread: nothing, or it saves where the thread goes
on, or the thread has finished. -/
theorem step_thread (limit : ℕ) (m : Machine) (i : ℕ) :
    (m.step limit).threads i = m.threads i ∨
      ∃ th, m.threads i = some th ∧
        ((∃ c, (m.step limit).threads i = some { th with context := c }) ∨
          (∃ thread, m.control = .finish thread) ∧ i = m.curTid ∧
            ∃ active, (m.step limit).threads i =
              some { th with isActive := active, isFinished := true }) := by
  cases hcontrol : m.control with
  | uthreadStart thread | threadWrapper thread =>
      refine Or.inl ?_
      simp only [step, hcontrol]
      split <;> rfl
  | routine thread left =>
      refine Or.inl ?_
      cases left <;> simp [step, hcontrol]
  | finish thread =>
      simp only [step, hcontrol]
      cases hth : m.threads m.curTid with
      | none => exact Or.inl rfl
      | some th =>
          by_cases hi : i = m.curTid
          · subst hi
            exact Or.inr ⟨th, hth, Or.inr
              ⟨⟨thread, rfl⟩, rfl, _, Function.update_self ..⟩⟩
          · exact Or.inl (Function.update_of_ne hi _ _)
  | yield thread caller =>
      simp only [step, hcontrol, yield]
      split
      · exact Or.inl rfl
      · split
        · exact Or.inl rfl
        · split
          · exact Or.inl rfl
          · split
            next old new hold hnew =>
              by_cases hi : i = m.curTid
              · subst hi
                exact Or.inr ⟨old, hold, Or.inl ⟨_, Function.update_self ..⟩⟩
              · exact Or.inl (Function.update_of_ne hi _ _)
            next => exact Or.inl rfl
  | yielded thread caller res =>
      refine Or.inl ?_
      cases caller with
      | routine left => simp [step, hcontrol]
      | finish =>
          simp only [step, hcontrol]
          split <;> rfl
  | main | fault => exact Or.inl (by simp [step, hcontrol])

/-- No step joins a thread or frees its memory. -/
theorem step_isJoined (limit : ℕ) (m : Machine) (i : ℕ) :
    ((m.step limit).threads i).map UThread.isJoined =
      (m.threads i).map UThread.isJoined := by
  rcases m.step_thread limit i with
    hsame | ⟨th, hth, ⟨c, hnew⟩ | ⟨-, -, active, hnew⟩⟩
  · rw [hsame]
  · rw [hnew, hth]
    rfl
  · rw [hnew, hth]
    rfl

/-- A thread is finished by `finish` only. -/
theorem step_isFinished
    {th' : UThread}
    (hcur : ∀ thread, m.control = .finish thread → m.curTid = thread)
    (hth' : (m.step limit).threads i = some th')
    (hfinished : th'.isFinished = true) :
    (∃ th, m.threads i = some th ∧ th.isFinished = true) ∨
      m.control = .finish i := by
  rcases m.step_thread limit i with
    hsame | ⟨th, hth, ⟨c, hnew⟩ | ⟨⟨thread, hcontrol⟩, rfl, -⟩⟩
  · exact Or.inl ⟨th', hsame ▸ hth', hfinished⟩
  · obtain rfl := Option.some.inj (hnew.symm.trans hth')
    exact Or.inl ⟨th, hth, hfinished⟩
  · exact Or.inr (hcur thread hcontrol ▸ hcontrol)

/-- No context goes on in `finish`. -/
theorem resume_ne_finish (c : ResumePoint) (i : ℕ) : resume c ≠ .finish i := by
  cases c <;> simp [resume]

/-- `finish` is called when the routine has returned. -/
theorem eq_routine_of_step
    (h : (m.step limit).control = .finish i) : m.control = .routine i 0 := by
  cases hcontrol : m.control with
  | uthreadStart thread =>
      simp only [step, hcontrol] at h
      split at h
      · cases h
      · exact absurd h (resume_ne_finish _ i)
  | threadWrapper thread =>
      simp only [step, hcontrol] at h
      split at h <;> cases h
  | routine thread left =>
      cases left with
      | zero =>
          simp only [step, hcontrol, Control.finish.injEq] at h
          rw [h]
      | succ left => simp [step, hcontrol] at h
  | finish thread =>
      simp only [step, hcontrol] at h
      split at h <;> cases h
  | yield thread caller =>
      simp only [step, hcontrol, yield] at h
      split at h
      · cases h
      · split at h
        · cases h
        · split at h
          · cases h
          · split at h
            · exact absurd h (resume_ne_finish _ i)
            · cases h
  | yielded thread caller res =>
      cases caller with
      | routine left => simp [step, hcontrol] at h
      | finish =>
          simp only [step, hcontrol] at h
          split at h
          · cases h
          · exact absurd h (resume_ne_finish _ i)
  | main | fault => simp [step, hcontrol] at h

end Machine

namespace Sim

theorem curTid_of_finish
    {thread : ℕ} (h : Sim limit ys first m t)
    (hcontrol : m.control = .finish thread) : m.curTid = thread := by
  have hat := h.control
  rw [hcontrol] at hat
  obtain ⟨rfl, -⟩ := hat
  exact (h.running (by rw [hcontrol]; rfl)).1

/-- The threads that were created. -/
theorem exists_created (h : Sim limit ys first m t) (hi : i < ys.length) :
    ∃ th y finished, m.threads i = some th ∧ Created th y finished := by
  obtain ⟨o, ho, rfl⟩ := exists_threadAt hi first
  by_cases hot : o = t % ys.length
  · subst hot
    obtain ⟨th, hth, hcreated, -⟩ := h.current
    rw [threadAt_mod]
    exact ⟨th, _, _, hth, hcreated⟩
  · obtain ⟨th, hth, hcreated, -⟩ := h.others o ho hot
    exact ⟨th, _, _, hth, hcreated⟩

/-- Main is resumed. -/
theorem exists_main
    (hys : 0 < ys.length) (hkl : ys.length ≤ limit)
    (h : Sim limit ys first m 0) :
    ∃ n, ((Machine.step limit)^[n] m).control = .main := by
  have hexists : ∃ t, Late ys.length (yieldsAt ys first) t :=
    ⟨_, late_of_offset hys⟩
  have hstutter := stutterSim hys hkl first
  obtain ⟨n, hn⟩ := hstutter.reaches h (Nat.find hexists)
  rw [iterate_nextTurn (fun t' ht' => Nat.find_min hexists ht') _ le_rfl] at hn
  obtain ⟨n', hfinal, -⟩ :=
    hstutter.exists_final hn (if_pos (Nat.find_spec hexists))
  refine ⟨n' + n, ?_⟩
  rw [Function.iterate_add_apply]
  exact hfinal

/-- Where main is resumed, all threads have finished exactly when the numbers
of yields are balanced. -/
theorem allFinished_iff_balanced
    (hys : 0 < ys.length) (h : Sim limit ys first m t)
    (hmain : m.control = .main) :
    (∀ i < ys.length, ∃ th, m.threads i = some th ∧ th.isFinished = true) ↔
      Balanced ys.length (yieldsAt ys first) := by
  have hexists : ∃ t, Late ys.length (yieldsAt ys first) t :=
    ⟨_, late_of_offset hys⟩
  have hlate := Nat.find_spec hexists
  have hfirst : ∀ t' < Nat.find hexists,
      ¬ Late ys.length (yieldsAt ys first) t' :=
    fun t' ht' => Nat.find_min hexists ht'
  rw [h.allFinished_iff hys hmain, h.eq_of_main hmain hlate hfirst]
  exact balanced_iff_of_first_late hys hlate hfirst

end Sim

namespace Program

variable {p p₀ : Program V}

/-- The program has gone on from `p₀` in its first `n` threads. -/
structure Runs (n : ℕ) (p₀ p : Program V) : Prop where
  todo : p.todo = p₀.todo
  ret : p.ret = p₀.ret
  joined : p.joined = p₀.joined
  threads : ∀ i, (p.machine.threads i).map UThread.isJoined =
    (p₀.machine.threads i).map UThread.isJoined
  /-- A thread that has finished has left its value. -/
  retval : ∀ i < n, ∀ th, p.machine.threads i = some th →
    th.isFinished = true → p.retval i = p.ret i
  returned : ∀ i, p.machine.control = .finish i → p.retval i = p.ret i

variable (limit) in
/-- A step of a thread, which stores the value that its routine returns. -/
theorem step_thread (hmain : p.machine.control ≠ .main) :
    p.step limit = { p with
      machine := p.machine.step limit
      retval := (p.step limit).retval } ∧
    ∀ i, p.retval i = p.ret i ∨ p.machine.control = .routine i 0 →
      (p.step limit).retval i = p.ret i := by
  have hother : (p.step limit).retval = p.retval →
      (∀ i, p.machine.control ≠ .routine i 0) →
      ∀ i, p.retval i = p.ret i ∨ p.machine.control = .routine i 0 →
        (p.step limit).retval i = p.ret i := by
    intro hsame hne i hi
    rw [hsame]
    exact hi.resolve_right (hne i)
  cases hcontrol : p.machine.control with
  | main => exact absurd hcontrol hmain
  | routine thread left =>
      cases left with
      | succ left =>
          simp only [hcontrol] at hother
          have hstep : p.step limit =
              { p with machine := p.machine.step limit } := by
            simp only [step, hcontrol]
          exact ⟨by rw [hstep], hother (by rw [hstep]) (by simp)⟩
      | zero =>
          have hstep : p.step limit = { p with
              machine := p.machine.step limit
              retval := Function.update p.retval thread (p.ret thread) } := by
            simp only [step, hcontrol]
          refine ⟨by rw [hstep], fun i hi => ?_⟩
          rw [hstep]
          by_cases hit : i = thread
          · subst hit
            exact Function.update_self ..
          · have hne : Control.routine thread 0 ≠ .routine i 0 := by
              simpa using Ne.symm hit
            exact (Function.update_of_ne hit _ _).trans (hi.resolve_right hne)
  | uthreadStart | threadWrapper | finish | yield | yielded | fault =>
      simp only [hcontrol] at hother
      have hstep : p.step limit =
          { p with machine := p.machine.step limit } := by
        simp only [step, hcontrol]
      exact ⟨by rw [hstep], hother (by rw [hstep]) (by simp)⟩

theorem Runs.step
    {n : ℕ} (h : Runs n p₀ p) (hmain : p.machine.control ≠ .main)
    (hsim : Sim limit ys first p.machine t) :
    Runs n p₀ (p.step limit) := by
  obtain ⟨hstep, hretval⟩ := step_thread limit hmain
  have hmachine : (p.step limit).machine = p.machine.step limit := by
    rw [hstep]
  have hret : (p.step limit).ret = p.ret := by rw [hstep]
  constructor
  · rw [hstep]
    exact h.todo
  · exact hret.trans h.ret
  · rw [hstep]
    exact h.joined
  · intro i
    rw [hmachine, Machine.step_isJoined]
    exact h.threads i
  · intro i hi th' hth' hfinished
    rw [hmachine] at hth'
    rw [hret]
    refine hretval i (Or.inl ?_)
    rcases Machine.step_isFinished (fun _ => hsim.curTid_of_finish) hth'
      hfinished with ⟨th, hth, hold⟩ | hfinish
    · exact h.retval i hi th hth hold
    · exact h.returned i hfinish
  · intro i hfinish
    rw [hmachine] at hfinish
    rw [hret]
    exact hretval i (Or.inr (Machine.eq_routine_of_step hfinish))

/-- The threads run until main is resumed. -/
theorem reaches_main
    {n : ℕ} (hys : 0 < ys.length) (hkl : ys.length ≤ limit)
    (hsim : Sim limit ys first p.machine 0) (h : Runs n p₀ p) :
    ∃ p' t, Reaches (step limit) p p' ∧ p'.machine.control = .main ∧
      Sim limit ys first p'.machine t ∧ Runs n p₀ p' := by
  obtain ⟨k, hk⟩ := hsim.exists_main hys hkl
  revert hsim
  generalize (0 : ℕ) = t
  intro hsim
  induction k generalizing p t with
  | zero => exact ⟨p, t, .refl _ p, hk, hsim, h⟩
  | succ k ih =>
      by_cases hmain : p.machine.control = .main
      · exact ⟨p, t, .refl _ p, hmain, hsim, h⟩
      · have hmachine : (p.step limit).machine = p.machine.step limit := by
          rw [(step_thread limit hmain).1]
        obtain ⟨t', hsim'⟩ : ∃ t', Sim limit ys first (p.step limit).machine t' := by
          rw [hmachine]
          rcases (stutterSim hys hkl first).step _ _ hsim with
            ⟨hfinal, -⟩ | ⟨hstutter, -⟩ | ⟨hmoves, -⟩
          · exact absurd hfinal hmain
          · exact ⟨_, hstutter⟩
          · exact ⟨_, hmoves⟩
        obtain ⟨p', t'', hreach, hrest⟩ := ih (h.step hmain hsim)
          (by rw [hmachine]; exact hk) t' hsim'
        exact ⟨p', t'', hreach.head, hrest⟩

/-! ## One round -/

/-- The threads of a round with their numbers of yields and values, the thread
that is started, and the order in which `main` joins the threads. -/
structure Round (V : Type u) where
  threads : List (ℕ × V)
  first : ℕ
  joins : List ℕ

namespace Round

def yields (r : Round V) : List ℕ := r.threads.map Prod.fst

/-- What `main` calls in the round. -/
def calls (r : Round V) : List (MainCall V) :=
  r.threads.map (fun x => .create x.1 x.2) ++
    .start r.first :: r.joins.map .join

/-- What the joins store: the value of each thread. -/
def replies (r : Round V) : List (JoinReply V) :=
  r.joins.map fun i => .stored (r.threads[i]?.map Prod.snd)

/-- There are enough threads, and `main` joins each of them once. -/
structure Fits (limit : ℕ) (r : Round V) : Prop where
  count : r.threads.length ≤ limit
  first : r.first < r.threads.length
  joins : r.joins.Perm (List.range r.threads.length)

def Balanced (r : Round V) : Prop :=
  Uthread.Balanced r.yields.length (yieldsAt r.yields r.first)

instance (r : Round V) : Decidable r.Balanced :=
  inferInstanceAs (Decidable (Uthread.Balanced _ _))

end Round

/-- `main` runs and no thread is active. -/
structure Idle (limit : ℕ) (p : Program V) : Prop where
  main : p.machine.control = .main
  free : AllFree limit p.machine.threads

/-- The threads of a round have been created, and one of them is started. -/
theorem sim_start
    {base : Threads} (hfree : AllFree limit base)
    (hfirst : first < ys.length) (hthreads : m.threads = createdOver base ys)
    (hcontrol : m.control = .uthreadStart first) (hswitches : m.switches = []) :
    Sim limit ys first m 0 := by
  have hys : 0 < ys.length := by omega
  have hzero : threadAt ys first 0 = first := Nat.mod_eq_of_lt hfirst
  have hthread : ∀ o, m.threads (threadAt ys first o) =
      some ⟨threadAt ys first o, yieldsAt ys first o, true, true, false, false,
        .threadWrapper (threadAt ys first o)⟩ := by
    intro o
    have hlt : threadAt ys first o < ys.length := threadAt_lt hys o
    rw [hthreads, createdOver_of_lt base hlt, yieldsAt,
      List.getD_eq_getElem _ _ hlt]
  constructor
  · intro t' ht'
    omega
  · intro o ho _
    refine ⟨_, hthread o, ⟨rfl, rfl, rfl, by simp⟩, ?_⟩
    rw [turnsBefore_zero]
    rfl
  · refine ⟨_, hthread 0, ⟨rfl, rfl, ?_, ?_⟩, fun _ => ⟨rfl, rfl⟩⟩
    · rw [Nat.zero_mod]
    · rw [hcontrol]
      rfl
  · intro i hi hil
    have hbase := hfree i hil
    rw [Threads.isActive, hthreads, createdOver_of_le base hi]
    rw [Threads.isFree] at hbase
    cases hth : base i with
    | none => rfl
    | some th => simpa [hth] using hbase
  · rw [hcontrol]
    exact ⟨hzero.symm, Nat.zero_div _⟩
  · intro hfalse
    rw [hcontrol] at hfalse
    cases hfalse
  · exact fun _ => hswitches
  · intro _ hlate
    unfold Late at hlate
    rw [Nat.zero_div] at hlate
    exact absurd hlate (Nat.not_lt_zero _)

/-- `main` has been resumed in the round and is about to join its threads. -/
structure Joining (limit : ℕ) (r : Round V) (rest : List (MainCall V))
    (p₀ p : Program V) : Prop where
  main : p.machine.control = .main
  todo : p.todo = r.joins.map .join ++ rest
  joined : p.joined = p₀.joined
  ret : ∀ i < r.threads.length, p.ret i = r.threads[i]?.map Prod.snd
  joinable : ∀ i < r.threads.length, ∃ th, p.Joinable i th
  finished : (∀ i < r.threads.length, ∃ th, p.machine.threads i = some th ∧
    th.isFinished = true) ↔ r.Balanced
  others : ∀ i, r.threads.length ≤ i → i < limit →
    p.machine.threads.isFree i = true

theorem reaches_joining
    {r : Round V} {rest : List (MainCall V)} (hidle : p.Idle limit)
    (hfits : r.Fits limit) (htodo : p.todo = r.calls ++ rest) :
    ∃ p', Reaches (step limit) p p' ∧ Joining limit r rest p p' := by
  have hlength : r.yields.length = r.threads.length := List.length_map _
  have hfirst : r.first < r.yields.length := hlength ▸ hfits.first
  have hcount := hfits.count
  set later := r.joins.map MainCall.join ++ rest with hlater
  -- the threads are created
  have hnil : p.afterCreates [] (r.threads.map (fun x => .create x.1 x.2) ++
      .start r.first :: later) = p := by
    have hsame : p.todo = r.threads.map (fun x => .create x.1 x.2) ++
        .start r.first :: later := by
      rw [htodo, Round.calls, List.append_assoc, List.cons_append]
    rw [← hsame]
    rfl
  have hcreates := reaches_creates hidle.main hidle.free
    (.start r.first :: later) [] r.threads (by simpa using hcount)
  rw [hnil, List.nil_append] at hcreates
  -- one of them is started
  set p₁ := p.afterCreates r.threads (.start r.first :: later) with hp₁
  have hthreads : p₁.machine.threads =
      createdOver p.machine.threads r.yields := rfl
  set p₂ := p₁.start r.first later with hp₂
  have hstart : p₁.step limit = p₂ := by
    have hmain : p₁.machine.control = .main := hidle.main
    simp only [step, hmain]
    rfl
  have hsim : Sim limit r.yields r.first p₂.machine 0 :=
    sim_start hidle.free hfirst hthreads rfl rfl
  have hcreated : ∀ i, i < r.threads.length → ∃ y, p₂.machine.threads i =
      some ⟨i, y, true, true, false, false, .threadWrapper i⟩ := by
    intro i hi
    exact ⟨_, createdOver_of_lt p.machine.threads (hlength.symm ▸ hi)⟩
  have hruns : Runs r.threads.length p₂ p₂ := by
    refine ⟨rfl, rfl, rfl, fun _ => rfl, ?_, ?_⟩
    · intro i hi th hth hfinished
      obtain ⟨y, hy⟩ := hcreated i hi
      obtain rfl := Option.some.inj (hy.symm.trans hth)
      cases hfinished
    · intro i hfinish
      cases hfinish
  -- they run until `main` is resumed
  obtain ⟨p', t, hreach, hmain, hsim', hruns'⟩ :=
    reaches_main (by omega) (hlength.trans_le hcount) hsim hruns
  refine ⟨p', (hcreates.trans (hstart ▸ Reaches.one _ _)).trans hreach, hmain,
    hruns'.todo, hruns'.joined, ?_, ?_, ?_, ?_⟩
  · intro i hi
    rw [hruns'.ret]
    change retOver p.ret r.threads i = _
    simp only [retOver, List.getElem?_eq_getElem hi, Option.map_some]
  · intro i hi
    obtain ⟨th, y, finished, hth, hth'⟩ :=
      hsim'.exists_created (hlength.symm ▸ hi)
    refine ⟨th, hth, hth'.joinable, ?_, hruns'.retval i hi th hth⟩
    obtain ⟨y, hy⟩ := hcreated i hi
    have hjoined := hruns'.threads i
    rw [hth, hy] at hjoined
    exact Option.some.inj hjoined
  · rw [← hlength]
    exact hsim'.allFinished_iff_balanced (by omega) hmain
  · intro i hi hil
    have hinactive := hsim'.inactive i (hlength.trans_le hi) hil
    have hbase := hidle.free i hil
    have hjoined := hruns'.threads i
    have hold : p₂.machine.threads i = p.machine.threads i :=
      createdOver_of_le p.machine.threads (hlength.trans_le hi)
    rw [hold] at hjoined
    rw [Threads.isFree] at hbase ⊢
    rw [Threads.isActive] at hinactive
    cases hth : p'.machine.threads i with
    | some th => simpa [hth] using hinactive
    | none =>
        rw [hth] at hjoined
        cases hth₀ : p.machine.threads i with
        | none => simp [hth₀] at hbase
        | some th₀ => simp [hth₀] at hjoined

/-- A balanced round comes to its end, and leaves all threads free. -/
theorem Joining.ends
    {r : Round V} {rest : List (MainCall V)} (h : Joining limit r rest p₀ p)
    (hfits : r.Fits limit) (hbalanced : r.Balanced) :
    ∃ p', Reaches (step limit) p p' ∧ p'.Idle limit ∧ p'.todo = rest ∧
      p'.joined = p₀.joined ++ r.replies := by
  have hlt : ∀ j ∈ r.joins, j < r.threads.length := fun j hj =>
    List.mem_range.mp (hfits.joins.mem_iff.mp hj)
  have hall := h.finished.mpr hbalanced
  obtain ⟨p', hreach, hmain, htodo, -, hjoined, hfree, hkeep⟩ :=
    reaches_joins limit h.main h.todo
      (hfits.joins.nodup_iff.mpr List.nodup_range) fun j hj => by
        obtain ⟨th, hth⟩ := h.joinable j (hlt j hj)
        obtain ⟨th', hth', hfinished⟩ := hall j (hlt j hj)
        obtain rfl := Option.some.inj (hth.thread.symm.trans hth')
        exact ⟨th, hth, hfinished⟩
  refine ⟨p', hreach, ⟨hmain, fun i hi => ?_⟩, htodo, ?_⟩
  · by_cases hin : i < r.threads.length
    · exact hfree i (hfits.joins.mem_iff.mpr (List.mem_range.mpr hin))
    · have hout : i ∉ r.joins := fun hi => hin (hlt i hi)
      rw [Threads.isFree, hkeep i hout]
      exact h.others i (by omega) hi
  · rw [hjoined, h.joined, Round.replies]
    congr 1
    refine List.map_congr_left fun j hj => ?_
    rw [h.ret j (hlt j hj)]

/-- In any other round `main` sleeps for ever. -/
theorem Joining.sleeps
    {r : Round V} {rest : List (MainCall V)} (h : Joining limit r rest p₀ p)
    (hfits : r.Fits limit) (hbalanced : ¬ r.Balanced) :
    ∃ p', Reaches (step limit) p p' ∧ p'.Asleep limit := by
  have hlt : ∀ j ∈ r.joins, j < r.threads.length := fun j hj =>
    List.mem_range.mp (hfits.joins.mem_iff.mp hj)
  refine reaches_asleep h.main h.todo
    (hfits.joins.nodup_iff.mpr List.nodup_range)
    (fun j hj => h.joinable j (hlt j hj)) ?_
  rw [← h.finished] at hbalanced
  push Not at hbalanced
  obtain ⟨j, hj, hunfinished⟩ := hbalanced
  obtain ⟨th, hth⟩ := h.joinable j hj
  exact ⟨j, hfits.joins.mem_iff.mpr (List.mem_range.mpr hj), th, hth.thread,
    (Bool.not_eq_true _).mp (hunfinished th hth.thread)⟩

/-! ## All rounds -/

/-- `main` has made all its calls. -/
def Done (p : Program V) : Prop := p.machine.control = .main ∧ p.todo = []

theorem Done.rest (h : p.Done) : p.step limit = p := by
  obtain ⟨hmain, htodo⟩ := h
  simp only [step, hmain, htodo]

/-- `main` does not sleep at the end of its calls. -/
theorem Asleep.not_done (h : p.Asleep limit) : ¬p.Done := by
  rintro ⟨-, htodo⟩
  obtain ⟨i, th, todo, hjoin, -⟩ := h.join
  rw [htodo] at hjoin
  cases hjoin

theorem step_of_fault (h : p.machine.control = .fault) : p.step limit = p := by
  have hmachine : p.machine.step limit = p.machine := by
    simp only [Machine.step, h]
  simp only [step, h, hmachine]

/-- Where the program comes to rest. -/
theorem reaches_rest
    (rounds : List (Round V)) (hfits : ∀ r ∈ rounds, r.Fits limit)
    (hidle : p.Idle limit) (htodo : p.todo = rounds.flatMap Round.calls) :
    ∃ p', Reaches (step limit) p p' ∧
      ((∀ r ∈ rounds, r.Balanced) ∧ p'.Done ∧
          p'.joined = p.joined ++ rounds.flatMap Round.replies ∧
          AllFree limit p'.machine.threads ∨
        (¬∀ r ∈ rounds, r.Balanced) ∧ p'.Asleep limit) := by
  induction rounds generalizing p with
  | nil =>
      exact ⟨p, .refl _ p,
        Or.inl ⟨by simp, ⟨hidle.main, htodo⟩, by simp, hidle.free⟩⟩
  | cons r rounds ih =>
      obtain ⟨hr, hrounds⟩ := List.forall_mem_cons.mp hfits
      rw [List.flatMap_cons] at htodo
      obtain ⟨p₁, hreach₁, hjoining⟩ := reaches_joining hidle hr htodo
      by_cases hbalanced : r.Balanced
      · obtain ⟨p₂, hreach₂, hidle₂, htodo₂, hjoined₂⟩ :=
          hjoining.ends hr hbalanced
        obtain ⟨p', hreach', hends⟩ := ih hrounds hidle₂ htodo₂
        refine ⟨p', (hreach₁.trans hreach₂).trans hreach', ?_⟩
        rcases hends with ⟨hall, hdone, hjoined', hfree⟩ | ⟨hnot, hasleep⟩
        · refine Or.inl ⟨List.forall_mem_cons.mpr ⟨hbalanced, hall⟩, hdone, ?_,
            hfree⟩
          rw [hjoined', hjoined₂, List.flatMap_cons, List.append_assoc]
        · exact Or.inr ⟨fun hall => hnot (List.forall_mem_cons.mp hall).2,
            hasleep⟩
      · obtain ⟨p', hreach', hasleep⟩ := hjoining.sleeps hr hbalanced
        refine ⟨p', hreach₁.trans hreach', Or.inr ⟨fun hall => ?_, hasleep⟩⟩
        exact hbalanced (hall r List.mem_cons_self)

/-- Before the first call `main` runs and all threads are free. -/
theorem idle_init (limit : ℕ) (calls : List (MainCall V)) :
    (init limit calls).Idle limit where
  main := rfl
  free i hi := by simp [init, Threads.isFree, initializeThreads, hi]

/-- `main` creates, starts and joins threads in any number of rounds.  It comes
to the end of its calls exactly when the numbers of yields of every round are
balanced, and otherwise to a join in which it sleeps for ever.  At the end each
join has stored the value of its thread, and all threads are free.  No null
pointer is ever followed. -/
theorem rounds_end_iff
    (limit : ℕ) (rounds : List (Round V)) (hfits : ∀ r ∈ rounds, r.Fits limit) :
    ((∃ p, Reaches (step limit) (init limit (rounds.flatMap Round.calls)) p ∧
        p.Done) ↔
      ∀ r ∈ rounds, r.Balanced) ∧
    ((∃ p, Reaches (step limit) (init limit (rounds.flatMap Round.calls)) p ∧
        p.Asleep limit) ↔
      ¬∀ r ∈ rounds, r.Balanced) ∧
    ∀ p, Reaches (step limit) (init limit (rounds.flatMap Round.calls)) p →
      p.machine.control ≠ .fault ∧
      (p.Done → p.joined = rounds.flatMap Round.replies ∧
        AllFree limit p.machine.threads) := by
  obtain ⟨p', hreach', hends⟩ :=
    reaches_rest rounds hfits (idle_init limit (rounds.flatMap Round.calls)) rfl
  have hrest' : p'.step limit = p' :=
    hends.elim (fun h => h.2.1.rest) (fun h => h.2.rest)
  -- no other state is at rest
  have hunique : ∀ {p},
      Reaches (step limit) (init limit (rounds.flatMap Round.calls)) p →
      p.step limit = p → p = p' :=
    fun hreach hrest => hreach.rest_unique hreach' hrest hrest'
  rcases hends with ⟨hall, hdone, hjoined, hfree⟩ | ⟨hnot, hasleep⟩
  · refine ⟨iff_of_true ⟨p', hreach', hdone⟩ hall, iff_of_false ?_ ?_, ?_⟩
    · rintro ⟨p, hreach, hp⟩
      obtain rfl := hunique hreach hp.rest
      exact hp.not_done hdone
    · exact not_not_intro hall
    · refine fun p hreach => ⟨fun hfault => ?_, fun hp => ?_⟩
      · obtain rfl := hunique hreach (step_of_fault hfault)
        exact nomatch hdone.1.symm.trans hfault
      · obtain rfl := hunique hreach hp.rest
        exact ⟨hjoined, hfree⟩
  · have hnotDone : ∀ {p},
        Reaches (step limit) (init limit (rounds.flatMap Round.calls)) p →
        ¬p.Done := by
      intro p hreach hp
      obtain rfl := hunique hreach hp.rest
      exact hasleep.not_done hp
    refine ⟨iff_of_false ?_ hnot, iff_of_true ⟨p', hreach', hasleep⟩ hnot, ?_⟩
    · rintro ⟨p, hreach, hp⟩
      exact hnotDone hreach hp
    · refine fun p hreach => ⟨fun hfault => ?_, fun hp => ?_⟩
      · obtain rfl := hunique hreach (step_of_fault hfault)
        exact nomatch hasleep.main.symm.trans hfault
      · exact absurd hp (hnotDone hreach)

/-- Two threads as in `main`, and then three of which the last one yields less
often. -/
def twoRounds : List (Round Bool) :=
  [⟨[(3, true), (3, false)], 0, [0, 1]⟩,
    ⟨[(3, false), (3, true), (2, true)], 0, [2, 0, 1]⟩]

theorem twoRounds_fits : ∀ r ∈ twoRounds, r.Fits 4 := by
  intro r hr
  simp only [twoRounds, List.mem_cons, List.not_mem_nil, or_false] at hr
  rcases hr with rfl | rfl <;> exact ⟨by decide, by decide, by decide⟩

/-- A thread behind another one yields more often than it. -/
def laterRound : List (Round Bool) :=
  [⟨[(0, true), (2, false)], 0, [0, 1]⟩]

theorem laterRound_fits : ∀ r ∈ laterRound, r.Fits 4 := by
  intro r hr
  simp only [laterRound, List.mem_cons, List.not_mem_nil, or_false] at hr
  subst hr
  exact ⟨by decide, by decide, by decide⟩

theorem rounds_end_iff_two :
    (∃ p, Reaches (step 4) (init 4 (twoRounds.flatMap Round.calls)) p ∧
      p.Done) ∧
    ∃ p, Reaches (step 4) (init 4 (laterRound.flatMap Round.calls)) p ∧
      p.Asleep 4 :=
  ⟨(rounds_end_iff 4 twoRounds twoRounds_fits).1.mpr (by decide),
    (rounds_end_iff 4 laterRound laterRound_fits).2.1.mpr (by decide)⟩

end Program

end Uthread
end OsFifthSem
