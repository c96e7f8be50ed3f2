import Mathlib.Data.List.GetD
import Mathlib.Data.Nat.Find
import OsFifthSem.Threads.Uthread.Simulation

/-!
# When all threads have finished before main is resumed

`main_context` is resumed in the first late turn, whether or not the other
threads have finished by then.
-/

namespace OsFifthSem
namespace Uthread

open Support

variable {limit first t : ℕ} {ys : List ℕ} {m m₀ : Machine}

/-! ## The start -/

/-- The threads after `uthread_create` has been called for each of `ys`. -/
def createdThreads (limit : ℕ) (ys : List ℕ) : Threads := fun i =>
  match ys[i]? with
  | some y => some ⟨i, y, true, true, false, false, .threadWrapper i⟩
  | none => initializeThreads limit i

theorem createdThreads_of_lt
    {i : ℕ} (limit : ℕ) (hi : i < ys.length) :
    createdThreads limit ys i =
      some ⟨i, ys[i], true, true, false, false, .threadWrapper i⟩ := by
  simp only [createdThreads, List.getElem?_eq_getElem hi]

theorem createdThreads_of_le
    {i : ℕ} (limit : ℕ) (hi : ys.length ≤ i) :
    createdThreads limit ys i = initializeThreads limit i := by
  simp only [createdThreads, List.getElem?_eq_none hi]

/-- A thread is created at the first position behind the others. -/
theorem uthreadCreate_eq (hlt : ys.length < limit) (y : ℕ) :
    uthreadCreate limit (createdThreads limit ys) y =
      some (createdThreads limit (ys ++ [y])) := by
  have hfree : getFreePosition limit (createdThreads limit ys) =
      some ys.length := by
    rw [getFreePosition, List.find?_range_eq_some]
    refine ⟨?_, List.mem_range.mpr hlt, ?_⟩
    · rw [Threads.isFree, createdThreads_of_le limit le_rfl,
        initializeThreads, if_pos hlt]
      rfl
    · intro j hj
      rw [Threads.isFree, createdThreads_of_lt limit hj]
      rfl
  rw [uthreadCreate, hfree, Option.map_some]
  congr 1
  funext i
  rcases Nat.lt_trichotomy i ys.length with hi | rfl | hi
  · rw [Function.update_of_ne (by omega), createdThreads_of_lt limit hi,
      createdThreads_of_lt limit (by simp; omega)]
    simp [List.getElem_append_left hi]
  · rw [Function.update_self, createdThreads_of_lt limit (by simp)]
    simp
  · rw [Function.update_of_ne (by omega), createdThreads_of_le limit (by omega),
      createdThreads_of_le limit (by simp; omega)]

theorem foldlM_uthreadCreate
    (rest : List ℕ) (hle : ys.length + rest.length ≤ limit) :
    rest.foldlM (uthreadCreate limit) (createdThreads limit ys) =
      some (createdThreads limit (ys ++ rest)) := by
  induction rest generalizing ys with
  | nil => simp
  | cons y rest ih =>
      rw [List.length_cons] at hle
      rw [List.foldlM_cons, uthreadCreate_eq (by omega)]
      have htail : rest.foldlM (uthreadCreate limit)
          (createdThreads limit (ys ++ [y])) =
            some (createdThreads limit (ys ++ [y] ++ rest)) :=
        ih (by simp; omega)
      simpa using htail

theorem createdThreads_threadAt (limit : ℕ) (hys : 0 < ys.length) (o : ℕ) :
    createdThreads limit ys (threadAt ys first o) =
      some ⟨threadAt ys first o, yieldsAt ys first o, true, true, false, false,
        .threadWrapper (threadAt ys first o)⟩ := by
  have hlt : threadAt ys first o < ys.length := threadAt_lt hys o
  rw [createdThreads_of_lt limit hlt, yieldsAt, List.getD_eq_getElem _ _ hlt]

/-- Before `uthread_start` no thread has had a turn. -/
theorem start_sim
    (hkl : ys.length ≤ limit) (hfirst : first < ys.length) :
    ∃ m, start limit ys first = some m ∧ Sim limit ys first m 0 := by
  have hys : 0 < ys.length := by omega
  have hcreate : ys.foldlM (uthreadCreate limit) (initializeThreads limit) =
      some (createdThreads limit ys) := by
    have hnone : createdThreads limit [] = initializeThreads limit :=
      funext fun i => createdThreads_of_le limit (Nat.zero_le i)
    rw [← hnone]
    exact foldlM_uthreadCreate ys (by simpa using hkl)
  have hzero : threadAt ys first 0 = first := Nat.mod_eq_of_lt hfirst
  refine ⟨_, by rw [start, hcreate]; rfl, ?_⟩
  constructor
  · intro t' ht'
    omega
  · intro o ho _
    refine ⟨_, createdThreads_threadAt limit hys o, ?_, ?_⟩
    · exact ⟨rfl, rfl, rfl, by simp⟩
    · rw [turnsBefore_zero]
      rfl
  · refine ⟨_, createdThreads_threadAt limit hys 0, ?_, fun _ => ⟨rfl, rfl⟩⟩
    refine ⟨rfl, rfl, ?_, rfl⟩
    rw [Nat.zero_mod]
  · intro i hi hil
    simp only [Threads.isActive]
    rw [createdThreads_of_le limit hi, initializeThreads, if_pos hil]
    rfl
  · exact ⟨hzero.symm, Nat.zero_div _⟩
  · intro hfalse
    cases hfalse
  · exact fun _ => rfl
  · intro _ hlate
    unfold Late at hlate
    rw [Nat.zero_div] at hlate
    exact absurd hlate (Nat.not_lt_zero _)

/-! ## The turns up to the first late one -/

theorem iterate_nextTurn
    (hfirst : ∀ t' < t, ¬ Late ys.length (yieldsAt ys first) t') :
    ∀ j ≤ t, (nextTurn ys first)^[j] 0 = j := by
  intro j
  induction j with
  | zero => exact fun _ => rfl
  | succ j ih =>
      intro hj
      rw [Function.iterate_succ_apply', ih (by omega)]
      exact if_neg (hfirst j (by omega))

/-- Main is resumed in a late turn, and in the first one. -/
theorem Sim.eq_of_main
    (h : Sim limit ys first m t) (hmain : m.control = .main) {T : ℕ}
    (hlate : Late ys.length (yieldsAt ys first) T)
    (hfirst : ∀ t' < T, ¬ Late ys.length (yieldsAt ys first) t') : t = T := by
  have hat := h.control
  rw [hmain] at hat
  have hq : t / ys.length = yieldsAt ys first (t % ys.length) + 1 := hat
  have hlate' : Late ys.length (yieldsAt ys first) t := by
    unfold Late
    omega
  rcases Nat.lt_trichotomy t T with hlt | heq | hgt
  · exact absurd hlate' (hfirst t hlt)
  · exact heq
  · exact absurd hlate (h.early T hgt)

/-- Which threads have finished when main is resumed. -/
theorem Sim.allFinished_iff
    (hys : 0 < ys.length) (h : Sim limit ys first m t)
    (hmain : m.control = .main) :
    (∀ i < ys.length, ∃ th, m.threads i = some th ∧ th.isFinished = true) ↔
      ∀ o < ys.length, yieldsAt ys first o < turnsBefore ys.length t o := by
  have hat := h.control
  rw [hmain] at hat
  have hq : t / ys.length = yieldsAt ys first (t % ys.length) + 1 := hat
  have hturn : yieldsAt ys first (t % ys.length) <
      turnsBefore ys.length t (t % ys.length) := by
    rw [turnsBefore_self]
    omega
  constructor
  · intro hall o ho
    by_cases hot : o = t % ys.length
    · subst hot
      exact hturn
    · obtain ⟨th, hth, hcreated, -⟩ := h.others o ho hot
      obtain ⟨th', hth', hfinished⟩ := hall _ (threadAt_lt hys o)
      obtain rfl := Option.some.inj (hth.symm.trans hth')
      rw [hcreated.finished] at hfinished
      exact of_decide_eq_true hfinished
  · intro hall i hi
    obtain ⟨o, ho, rfl⟩ := exists_threadAt hi first
    by_cases hot : o = t % ys.length
    · subst hot
      obtain ⟨th, hth, hcreated, -⟩ := h.current
      refine ⟨th, ?_, ?_⟩
      · rw [threadAt_mod]
        exact hth
      · rw [hcreated.finished, hmain]
        rfl
    · obtain ⟨th, hth, hcreated, -⟩ := h.others o ho hot
      refine ⟨th, hth, ?_⟩
      rw [hcreated.finished]
      exact decide_eq_true (hall o ho)

/-! ## The exact condition -/

/-- Main is resumed only when the first `count` threads have finished. -/
def MainLast (limit count : ℕ) (m₀ : Machine) : Prop :=
  ∀ n, (after limit m₀ n).control = .main → ∀ i < count,
    ∃ th, (after limit m₀ n).threads i = some th ∧ th.isFinished = true

/-- `yield` never switches to a thread that has finished. -/
def SwitchesToUnfinished (limit : ℕ) (m₀ : Machine) : Prop :=
  ∀ n, ∀ x ∈ (after limit m₀ n).switches, x.2 = false

theorem mainLast_iff
    (hkl : ys.length ≤ limit) (hys : 0 < ys.length)
    (hsim : Sim limit ys first m₀ 0) :
    MainLast limit ys.length m₀ ↔ Balanced ys.length (yieldsAt ys first) := by
  have hexists : ∃ t, Late ys.length (yieldsAt ys first) t :=
    ⟨_, late_of_offset hys⟩
  set T := Nat.find hexists with hT
  have hlate : Late ys.length (yieldsAt ys first) T := Nat.find_spec hexists
  have hfirst : ∀ t' < T, ¬ Late ys.length (yieldsAt ys first) t' :=
    fun t' ht' => Nat.find_min hexists ht'
  have hstutter := stutterSim hys hkl first
  rw [← balanced_iff_of_first_late hys hlate hfirst]
  constructor
  · intro hmain
    -- main is resumed in turn `T`
    obtain ⟨n, hn⟩ := hstutter.reaches hsim T
    rw [iterate_nextTurn hfirst T le_rfl] at hn
    obtain ⟨n', hfinal, hn'⟩ := hstutter.exists_final hn (if_pos hlate)
    have hcontrol : (after limit m₀ (n' + n)).control = .main := by
      rw [after, Function.iterate_add_apply]
      exact hfinal
    refine (hn'.allFinished_iff hys hfinal).mp ?_
    have hall := hmain (n' + n) hcontrol
    rw [after, Function.iterate_add_apply] at hall
    exact hall
  · intro hall n hcontrol
    obtain ⟨j, hj⟩ := hstutter.follows hsim n
    have heq := Sim.eq_of_main hj hcontrol hlate hfirst
    rw [heq] at hj
    exact (hj.allFinished_iff hys hcontrol).mpr hall

theorem switchesToUnfinished_iff
    (hkl : ys.length ≤ limit) (hys : 0 < ys.length)
    (hsim : Sim limit ys first m₀ 0) :
    SwitchesToUnfinished limit m₀ ↔ ys.length = 1 := by
  have hstutter := stutterSim hys hkl first
  constructor
  · intro hnever
    by_contra hone
    have hexists : ∃ t, Late ys.length (yieldsAt ys first) t :=
      ⟨_, late_of_offset hys⟩
    obtain ⟨n, hn⟩ := hstutter.reaches hsim (Nat.find hexists)
    rw [iterate_nextTurn (fun t' ht' => Nat.find_min hexists ht') _ le_rfl] at hn
    obtain ⟨x, hx, hfinished⟩ := hn.seen (by omega) (Nat.find_spec hexists)
    have hfalse := hnever n x hx
    rw [hfinished] at hfalse
    cases hfalse
  · intro hone n x hx
    obtain ⟨j, hj⟩ := hstutter.follows hsim n
    unfold after at hx
    rw [hj.alone hone] at hx
    cases hx

theorem balanced_one (y : ℕ → ℕ) : Balanced 1 y := by
  intro i hi j hj
  obtain rfl : i = j := by omega
  omega

/-- Main is resumed only after all threads have finished exactly when the
numbers of yields are balanced, and `yield` never switches to a finished thread
exactly when there is one thread only. -/
theorem allFinish_iff
    (hkl : ys.length ≤ limit) (hfirst : first < ys.length) :
    ∃ m₀, start limit ys first = some m₀ ∧
      (MainLast limit ys.length m₀ ↔
        Balanced ys.length (yieldsAt ys first)) ∧
      (SwitchesToUnfinished limit m₀ ↔ ys.length = 1) ∧
      (MainLast limit ys.length m₀ ∧ SwitchesToUnfinished limit m₀ ↔
        ys.length = 1) := by
  obtain ⟨m₀, hstart, hsim⟩ := start_sim hkl hfirst
  have hys : 0 < ys.length := by omega
  have hmain := mainLast_iff hkl hys hsim
  have hswitches := switchesToUnfinished_iff hkl hys hsim
  refine ⟨m₀, hstart, hmain, hswitches, ?_⟩
  constructor
  · exact fun h => hswitches.mp h.2
  · intro hone
    refine ⟨hmain.mpr ?_, hswitches.mpr hone⟩
    rw [hone]
    exact balanced_one _

/-- Three threads that yield 3, 3 and 2 times, started by the first one. -/
theorem allFinish_threeThreads :
    ∃ m₀, start 4 [3, 3, 2] 0 = some m₀ ∧ MainLast 4 3 m₀ ∧
      ¬ SwitchesToUnfinished 4 m₀ := by
  have hkl : [3, 3, 2].length ≤ 4 := by decide
  have hfirst : 0 < [3, 3, 2].length := by decide
  obtain ⟨m₀, hstart, hmain, hswitches, -⟩ := allFinish_iff hkl hfirst
  refine ⟨m₀, hstart, hmain.mpr (by decide), ?_⟩
  intro hnever
  exact absurd (hswitches.mp hnever) (by decide)

/-- The first thread does not yield and the second one yields once: main is
resumed while the second one has not finished. -/
theorem allFinish_fails :
    ¬ ∀ limit ys first m₀, ys.length ≤ limit → first < ys.length →
      start limit ys first = some m₀ →
      MainLast limit ys.length m₀ ∧ SwitchesToUnfinished limit m₀ := by
  intro hall
  have hrun : (start 4 [0, 1] 0).map (fun m => ((after 4 m 9).control,
      ((after 4 m 9).threads 1).map UThread.isFinished)) =
        some (.main, some false) := by
    decide
  obtain ⟨m₀, hstart, heq⟩ := Option.map_eq_some_iff.mp hrun
  obtain ⟨hmain, hunfinished⟩ := Prod.mk.inj heq
  obtain ⟨th, hth, hfinished⟩ :=
    (hall 4 [0, 1] 0 m₀ (by decide) (by decide) hstart).1 9 hmain 1 (by decide)
  rw [hth, Option.map_some, hfinished] at hunfinished
  cases hunfinished

end Uthread
end OsFifthSem
