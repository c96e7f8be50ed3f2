import OsFifthSem.Support.Iterate
import OsFifthSem.Threads.Uthread.AllFinish

/-!
# A program that creates, starts and joins user-level threads

`main` of `1.7.c` creates threads, starts one of them and joins them when
`main_context` is resumed.  `uthread_join` sleeps until the thread has
finished, and while `main` sleeps no thread runs.

`thread_wrapper` stores what the routine returns; here each routine returns a
given value.  `uthread_join` ends without a return statement when it has joined
the thread, so what it returns then is not modelled.
-/

namespace OsFifthSem
namespace Uthread

open Support

universe u

variable {V : Type u}

/-- A call that `main` makes. -/
inductive MainCall (V : Type u)
  /-- `uthread_create` of a routine that yields so often and returns `ret`. -/
  | create (yields : ℕ) (ret : V)
  | start (thread : ℕ)
  | join (thread : ℕ)

/-- What a call of `uthread_join` leaves behind. -/
inductive JoinReply (V : Type u)
  /-- It returns -1. -/
  | refused
  /-- `*retval` is stored. -/
  | stored (retval : Option V)
  deriving DecidableEq

/-- `main` and the threads. -/
structure Program (V : Type u) where
  machine : Machine
  /-- What the routine of a thread returns. -/
  ret : ℕ → Option V
  /-- `thread->retval`. -/
  retval : ℕ → Option V
  /-- What `main` has still to call. -/
  todo : List (MainCall V)
  joined : List (JoinReply V)

namespace Program

/-- `uthread_create`; when there is no free thread, `main` returns. -/
def create (limit : ℕ) (p : Program V) (yields : ℕ) (ret : V)
    (todo : List (MainCall V)) : Program V :=
  match getFreePosition limit p.machine.threads,
      uthreadCreate limit p.machine.threads yields with
  | some pos, some threads =>
      { p with
        machine := { p.machine with threads := threads }
        ret := Function.update p.ret pos (some ret)
        todo := todo }
  | _, _ => { p with todo := [] }

/-- `uthread_start`.  The history of the switches begins anew. -/
def start (p : Program V) (thread : ℕ) (todo : List (MainCall V)) :
    Program V :=
  { p with
    machine := { p.machine with control := .uthreadStart thread, switches := [] }
    todo := todo }

/-- One test of the loop in `uthread_join`, or a call that does not come to
the loop. -/
def join (p : Program V) (thread : ℕ) (todo : List (MainCall V)) :
    Program V :=
  match p.machine.threads thread with
  | none => { p with machine := p.machine.faulty }
  | some th =>
      if th.isJoined || !th.isJoinable then
        { p with todo := todo, joined := p.joined ++ [.refused] }
      else if th.isFinished then
        { p with
          machine := { p.machine with
            threads := Function.update p.machine.threads thread
              (some { th with isActive := false, isJoined := true }) }
          todo := todo
          joined := p.joined ++ [.stored (p.retval thread)] }
      -- `sleep(1)`
      else p

/-- One step of `main` or of the thread that runs. -/
def step (limit : ℕ) (p : Program V) : Program V :=
  match p.machine.control with
  | .main =>
      match p.todo with
      | [] => p
      | .create yields ret :: todo => p.create limit yields ret todo
      | .start thread :: todo => p.start thread todo
      | .join thread :: todo => p.join thread todo
  -- `thread->retval = thread->start_routine(thread->arg)`
  | .routine thread 0 =>
      { p with
        machine := p.machine.step limit
        retval := Function.update p.retval thread (p.ret thread) }
  | _ => { p with machine := p.machine.step limit }

/-- After `initializeThreads`, before the first call. -/
def init (limit : ℕ) (calls : List (MainCall V)) : Program V where
  machine :=
    { threads := initializeThreads limit
      curTid := 0
      mainContext := none
      control := .main
      switches := [] }
  ret := fun _ => none
  retval := fun _ => none
  todo := calls
  joined := []

variable {limit : ℕ} {p : Program V}

/-! ## Creating threads -/

/-- No thread is active. -/
def AllFree (limit : ℕ) (threads : Threads) : Prop :=
  ∀ i < limit, threads.isFree i = true

/-- The threads after `uthread_create` has been called for each of `ys`. -/
def createdOver (base : Threads) (ys : List ℕ) : Threads := fun i =>
  match ys[i]? with
  | some y => some ⟨i, y, true, true, false, false, .threadWrapper i⟩
  | none => base i

/-- What the routines return then. -/
def retOver (base : ℕ → Option V) (xs : List (ℕ × V)) : ℕ → Option V :=
  fun i =>
    match xs[i]? with
    | some x => some x.2
    | none => base i

theorem createdOver_of_lt
    {ys : List ℕ} {i : ℕ} (base : Threads) (hi : i < ys.length) :
    createdOver base ys i =
      some ⟨i, ys[i], true, true, false, false, .threadWrapper i⟩ := by
  simp only [createdOver, List.getElem?_eq_getElem hi]

theorem createdOver_of_le
    {ys : List ℕ} {i : ℕ} (base : Threads) (hi : ys.length ≤ i) :
    createdOver base ys i = base i := by
  simp only [createdOver, List.getElem?_eq_none hi]

/-- The first free thread is the one behind those created. -/
theorem getFreePosition_createdOver
    {base : Threads} (hfree : AllFree limit base) (ys : List ℕ)
    (hlt : ys.length < limit) :
    getFreePosition limit (createdOver base ys) = some ys.length := by
  rw [getFreePosition, List.find?_range_eq_some]
  refine ⟨?_, List.mem_range.mpr hlt, ?_⟩
  · rw [Threads.isFree, createdOver_of_le base le_rfl]
    exact hfree _ hlt
  · intro j hj
    rw [Threads.isFree, createdOver_of_lt base hj]
    rfl

theorem createdOver_update (base : Threads) (ys : List ℕ) (y : ℕ) :
    Function.update (createdOver base ys) ys.length
        (some ⟨ys.length, y, true, true, false, false,
          .threadWrapper ys.length⟩) =
      createdOver base (ys ++ [y]) := by
  funext i
  rcases Nat.lt_trichotomy i ys.length with hi | rfl | hi
  · rw [Function.update_of_ne (by omega), createdOver_of_lt base hi,
      createdOver_of_lt base (by simp; omega)]
    simp [List.getElem_append_left hi]
  · rw [Function.update_self, createdOver_of_lt base (by simp)]
    simp
  · rw [Function.update_of_ne (by omega), createdOver_of_le base (by omega),
      createdOver_of_le base (by simp; omega)]

theorem retOver_update (base : ℕ → Option V) (xs : List (ℕ × V)) (x : ℕ × V) :
    Function.update (retOver base xs) xs.length (some x.2) =
      retOver base (xs ++ [x]) := by
  funext i
  rcases Nat.lt_trichotomy i xs.length with hi | rfl | hi
  · rw [Function.update_of_ne (by omega)]
    simp [retOver, List.getElem?_append_left hi]
  · rw [Function.update_self]
    simp [retOver]
  · rw [Function.update_of_ne (by omega)]
    simp only [retOver, List.getElem?_eq_none (by omega : xs.length ≤ i),
      List.getElem?_eq_none (by simp; omega : (xs ++ [x]).length ≤ i)]

/-- The program after the creation of `xs`. -/
def afterCreates (p : Program V) (xs : List (ℕ × V))
    (todo : List (MainCall V)) : Program V :=
  { p with
    machine := { p.machine with
      threads := createdOver p.machine.threads (xs.map Prod.fst) }
    ret := retOver p.ret xs
    todo := todo }

theorem step_create
    {xs : List (ℕ × V)} (hmain : p.machine.control = .main)
    (hfree : AllFree limit p.machine.threads) (hlt : xs.length < limit)
    (x : ℕ × V) (todo : List (MainCall V)) :
    (p.afterCreates xs (.create x.1 x.2 :: todo)).step limit =
      p.afterCreates (xs ++ [x]) todo := by
  have hlength : (xs.map Prod.fst).length = xs.length := List.length_map _
  have hpos := getFreePosition_createdOver hfree (xs.map Prod.fst) (by omega)
  rw [hlength] at hpos
  have hupdate := createdOver_update p.machine.threads (xs.map Prod.fst) x.1
  rw [hlength] at hupdate
  simp only [step, afterCreates, hmain, create, hpos, uthreadCreate,
    Option.map_some, hupdate, retOver_update, List.map_append, List.map_cons,
    List.map_nil]

theorem reaches_creates
    (hmain : p.machine.control = .main)
    (hfree : AllFree limit p.machine.threads) (todo : List (MainCall V))
    (xs rest : List (ℕ × V)) (hle : xs.length + rest.length ≤ limit) :
    Reaches (step limit)
      (p.afterCreates xs (rest.map (fun x => .create x.1 x.2) ++ todo))
      (p.afterCreates (xs ++ rest) todo) := by
  induction rest generalizing xs with
  | nil => simpa using Reaches.refl _ _
  | cons x rest ih =>
      rw [List.length_cons] at hle
      refine Reaches.head ?_
      rw [List.map_cons, List.cons_append, step_create hmain hfree (by omega)]
      simpa using ih (xs ++ [x]) (by simp; omega)

/-! ## Joining threads -/

/-- A thread that has not been joined, and whose value is there when it has
finished. -/
structure Joinable (p : Program V) (i : ℕ) (th : UThread) : Prop where
  thread : p.machine.threads i = some th
  joinable : th.isJoinable = true
  joined : th.isJoined = false
  retval : th.isFinished = true → p.retval i = p.ret i

/-- The program after the thread has been joined. -/
def afterJoin (p : Program V) (i : ℕ) (th : UThread)
    (todo : List (MainCall V)) : Program V :=
  { p with
    machine := { p.machine with
      threads := Function.update p.machine.threads i
        (some { th with isActive := false, isJoined := true }) }
    todo := todo
    joined := p.joined ++ [.stored (p.ret i)] }

variable (limit) in
theorem step_join
    {i : ℕ} {th : UThread} {todo : List (MainCall V)}
    (hmain : p.machine.control = .main) (htodo : p.todo = .join i :: todo)
    (h : p.Joinable i th) :
    p.step limit = if th.isFinished then p.afterJoin i th todo else p := by
  have hstep : p.step limit = p.join i todo := by
    simp only [step, hmain, htodo]
  have hloop : ¬(th.isJoined || !th.isJoinable) = true := by
    simp [h.joined, h.joinable]
  rw [hstep, join, h.thread]
  dsimp only
  rw [if_neg hloop]
  split
  next hfinished => rw [h.retval hfinished, afterJoin]
  next => rfl

/-- Joining one thread does not touch another one. -/
theorem Joinable.afterJoin
    {i j : ℕ} {th th' : UThread} (h : p.Joinable j th') (hij : j ≠ i)
    (todo : List (MainCall V)) : (p.afterJoin i th todo).Joinable j th' where
  thread := (Function.update_of_ne hij _ _).trans h.thread
  joinable := h.joinable
  joined := h.joined
  retval := h.retval

variable (limit) in
/-- All the threads have finished, and `main` joins them one after the
other. -/
theorem reaches_joins
    {js : List ℕ} {todo : List (MainCall V)}
    (hmain : p.machine.control = .main)
    (htodo : p.todo = js.map .join ++ todo) (hnodup : js.Nodup)
    (hjs : ∀ j ∈ js, ∃ th, p.Joinable j th ∧ th.isFinished = true) :
    ∃ p', Reaches (step limit) p p' ∧ p'.machine.control = .main ∧
      p'.todo = todo ∧ p'.ret = p.ret ∧
      p'.joined = p.joined ++ js.map (fun j => .stored (p.ret j)) ∧
      (∀ j ∈ js, p'.machine.threads.isFree j = true) ∧
      ∀ j ∉ js, p'.machine.threads j = p.machine.threads j := by
  induction js generalizing p with
  | nil => exact ⟨p, .refl _ p, hmain, htodo, rfl, by simp, by simp, by simp⟩
  | cons j js ih =>
      obtain ⟨hj, hnodup⟩ := List.nodup_cons.mp hnodup
      obtain ⟨th, hth, hfinished⟩ := hjs j List.mem_cons_self
      have hstep := step_join limit hmain htodo hth
      rw [if_pos hfinished] at hstep
      obtain ⟨p', hreach, hmain', htodo', hret, hjoined, hfree, hkeep⟩ :=
        ih (p := p.afterJoin j th (js.map .join ++ todo)) hmain rfl hnodup
          fun k hk => by
            obtain ⟨th', hth', hfinished'⟩ := hjs k (List.mem_cons_of_mem j hk)
            exact ⟨th', hth'.afterJoin (ne_of_mem_of_not_mem hk hj) _, hfinished'⟩
      refine ⟨p', (hstep ▸ Reaches.one (step limit) p).trans hreach, hmain',
        htodo', hret, ?_, ?_, ?_⟩
      · rw [hjoined]
        simp [Program.afterJoin]
      · intro k hk
        rcases List.mem_cons.mp hk with rfl | hk
        · rw [Threads.isFree, hkeep k hj]
          simp [Program.afterJoin]
        · exact hfree k hk
      · intro k hk
        rw [List.mem_cons, not_or] at hk
        rw [hkeep k hk.2]
        exact Function.update_of_ne hk.1 _ _

/-- `main` sleeps in `uthread_join` of a thread that has not finished, for
ever. -/
structure Asleep (limit : ℕ) (p : Program V) : Prop where
  main : p.machine.control = .main
  join : ∃ i th todo, p.todo = .join i :: todo ∧
    p.machine.threads i = some th ∧ th.isFinished = false
  forever : ∀ p', Reaches (step limit) p p' → p' = p

theorem Asleep.rest (h : p.Asleep limit) : p.step limit = p :=
  h.forever _ (Reaches.one _ p)

/-- Some thread has not finished, and `main` sleeps for ever. -/
theorem reaches_asleep
    {js : List ℕ} {todo : List (MainCall V)}
    (hmain : p.machine.control = .main)
    (htodo : p.todo = js.map .join ++ todo) (hnodup : js.Nodup)
    (hjs : ∀ j ∈ js, ∃ th, p.Joinable j th)
    (hleft : ∃ j ∈ js, ∃ th, p.machine.threads j = some th ∧
      th.isFinished = false) :
    ∃ p', Reaches (step limit) p p' ∧ p'.Asleep limit := by
  induction js generalizing p with
  | nil => simp at hleft
  | cons j js ih =>
      obtain ⟨hj, hnodup⟩ := List.nodup_cons.mp hnodup
      obtain ⟨th, hth⟩ := hjs j List.mem_cons_self
      have hstep := step_join limit hmain htodo hth
      cases hfinished : th.isFinished with
      | false =>
          rw [hfinished, if_neg Bool.false_ne_true] at hstep
          exact ⟨p, .refl _ p, hmain,
            ⟨j, th, _, htodo, hth.thread, hfinished⟩,
            fun _ hreach => hreach.eq_of_rest hstep⟩
      | true =>
          rw [hfinished, if_pos rfl] at hstep
          obtain ⟨k, hk, th', hth', hunfinished⟩ := hleft
          have hkj : k ≠ j := by
            rintro rfl
            obtain rfl := Option.some.inj (hth.thread.symm.trans hth')
            simp [hfinished] at hunfinished
          obtain ⟨p', hreach, hrest⟩ :=
            ih (p := p.afterJoin j th (js.map .join ++ todo)) hmain rfl hnodup
              (fun k hk => by
                obtain ⟨th', hth'⟩ := hjs k (List.mem_cons_of_mem j hk)
                exact ⟨th', hth'.afterJoin (ne_of_mem_of_not_mem hk hj) _⟩)
              ⟨k, (List.mem_cons.mp hk).resolve_left hkj, th',
                (Function.update_of_ne hkj _ _).trans hth', hunfinished⟩
          exact ⟨p', (hstep ▸ Reaches.one (step limit) p).trans hreach, hrest⟩

end Program

end Uthread
end OsFifthSem
