import Mathlib.Logic.Equiv.Basic
import OsFifthSem.Support.Transition
import OsFifthSem.Sync.SwapList.Storage

/-!
# The threads of `sync/2.3`

`2.3-2.4.c` and `2.3m.c` run threads that exchange two neighbours of a shared
list and threads that walk over it.  The two programs agree up to the lock
functions and up to the last part of `safe_swap_nodes`: with read-write locks
the three nodes are unlocked, locked again for writing and checked.

Between two accesses to shared memory a thread is at a program point, which
says what it does next and with which locals.  `safeSwapNodes` and `countNodes`
give for each point one command: a read or a write of one pointer, a lock or an
unlock, and where the thread goes on.  Lock functions do not fail.  At `fault`
a thread has loaded a null pointer which it dereferences next.
-/

namespace OsFifthSem
namespace SwapList

open Support

universe u

/-- The source file. -/
inductive Source
  /-- `2.3-2.4.c`, with a mutex in each node. -/
  | mutexList
  /-- `2.3m.c`, with a read-write lock in each node. -/
  | rwlockList
  deriving DecidableEq, Repr

/-- How the walk over the list locks a node. -/
def Source.walkMode : Source → Mode
  | .mutexList => .exclusive
  | .rwlockList => .shared

/-- Which pairs a counter counts. -/
inductive Counting
  /-- `count_ascending`: `len1 < len2`. -/
  | ascending
  /-- `count_descending`: `len1 > len2`. -/
  | descending
  /-- `count_equal`: `len1 == len2`. -/
  | equal
  deriving DecidableEq, Repr

def Counting.test : Counting → ℕ → ℕ → Bool
  | .ascending, len1, len2 => len1 < len2
  | .descending, len1, len2 => len1 > len2
  | .equal, len1, len2 => len1 = len2

/-- `rand() % (storage->size - 3) + 1`, computed as a `long` and stored in
an `int`. -/
def randElem (size : ℤ) (rand : ℕ) : ℤ :=
  ((rand : ℤ) % (size - 3) + 1).bmod 4294967296

/-- The points of `swap_thread` and `safe_swap_nodes`.  The variables are
`r = randElem`, `ind`, `p = prev`, `c = current`, `x = next` and
`y = next_next`; `q` is a node that is locked or about to be locked and not
stored in a variable yet. -/
inductive SwapPc
  /-- `swap_thread`: the test of `stop`. -/
  | threadTop
  /-- `safe_swap_nodes`: the test of `stop`. -/
  | retry
  | pickRand
  /-- `mutex_lock(&storage->first->sync)`: load and lock. -/
  | firstTarget (r : ℤ)
  | firstLock (r : ℤ) (q : ℕ)
  /-- `prev = storage->first`. -/
  | firstLoad (r : ℤ) (q : ℕ)
  /-- The test `prev->next != NULL` of the walk, with `ind < randElem`. -/
  | loopTest (r ind : ℤ) (p : ℕ)
  | walkTarget (r ind : ℤ) (p : ℕ)
  | walkLock (r ind : ℤ) (p q : ℕ)
  /-- `prev = prev->next`. -/
  | walkLoad (r ind : ℤ) (p q : ℕ)
  | walkUnlock (r ind : ℤ) (temp : ℕ) (prev : Option ℕ)
  /-- The test `prev->next == NULL` behind the walk. -/
  | checkNext (p : ℕ)
  /-- The test `prev->next->next == NULL`: two loads, the second one from a
  node that is not locked. -/
  | checkTarget (p : ℕ)
  | checkNextNext (p q : ℕ)
  | giveUp (p : ℕ)
  | currentTarget (p : ℕ)
  | currentLock (p q : ℕ)
  /-- `current = prev->next`. -/
  | currentLoad (p q : ℕ)
  | nextTarget (p c : ℕ)
  | nextLock (p c q : ℕ)
  /-- `next = current->next`. -/
  | nextLoad (p c q : ℕ)
  /-- `2.3m.c`: the three read locks are released. -/
  | dropPrev (p c x : ℕ)
  | dropCurrent (p c x : ℕ)
  | dropNext (p c x : ℕ)
  /-- `2.3m.c`: the three write locks are taken. -/
  | relockPrev (p c x : ℕ)
  | relockCurrent (p c x : ℕ)
  | relockNext (p c x : ℕ)
  /-- `2.3m.c`: the tests `prev->next != current` and
  `current->next != next`. -/
  | validatePrev (p c x : ℕ)
  | validateCurrent (p c x : ℕ)
  /-- `2.3m.c`: the unlocks after a failed test. -/
  | failPrev (p c x : ℕ)
  | failCurrent (c x : ℕ)
  | failNext (x : ℕ)
  /-- `next_next = next->next`. -/
  | loadNextNext (p c x : ℕ)
  /-- The three pointer writes. -/
  | linkPrev (p c x : ℕ) (y : Option ℕ)
  | linkCurrent (p c x : ℕ) (y : Option ℕ)
  | linkNext (p c x : ℕ)
  | unlockPrev (p c x : ℕ)
  | unlockCurrent (c x : ℕ)
  | unlockNext (x : ℕ)
  /-- `swap_counters[thread_id]++`. -/
  | countSwap
  deriving DecidableEq, Repr

/-- The points of a counter, with `cur = current` and `n = local_count`. -/
inductive CountPc
  /-- The outer test of `stop`. -/
  | threadTop
  /-- `current = storage->first`. -/
  | passTop
  /-- The test `current->next != NULL`, without a lock. -/
  | testNext (cur : ℕ) (n : BitVec 64)
  | testStop (cur : ℕ) (n : BitVec 64)
  | currentLock (cur : ℕ) (n : BitVec 64)
  | nextTarget (cur : ℕ) (n : BitVec 64)
  | nextLock (cur : ℕ) (n : BitVec 64) (q : ℕ)
  /-- `strlen(current->value)`, `strlen(current->next->value)`. -/
  | compareTarget (cur : ℕ) (n : BitVec 64) (q : ℕ)
  | compare (cur : ℕ) (n : BitVec 64) (q b : ℕ)
  /-- `next = current->next`. -/
  | nextLoad (cur : ℕ) (n : BitVec 64) (q : ℕ)
  | unlockCurrent (cur : ℕ) (n : BitVec 64) (next : ℕ)
  | unlockNext (n : BitVec 64) (next : ℕ)
  /-- `count_asc++` and its likes. -/
  | passDone
  deriving DecidableEq, Repr

/-- Where a thread is. -/
inductive Pc
  | swap (p : SwapPc)
  | count (k : Counting) (p : CountPc)
  | done
  | fault
  deriving DecidableEq, Repr

/-- One access to shared memory and how the thread goes on. -/
inductive Command
  | readStop (next : Bool → Pc)
  | rand (next : ℕ → Pc)
  | readFirst (next : Option ℕ → Pc)
  | load (a : ℕ) (next : Option ℕ → Pc)
  | strlens (a b : ℕ) (next : ℕ → ℕ → Pc)
  /-- `a->next = v`.  With `exchanged` the two nodes change places in the
  history variable `order`. -/
  | store (a : ℕ) (v : Option ℕ) (exchanged : Option (ℕ × ℕ)) (next : Pc)
  | lock (m : Mode) (a : ℕ) (next : Pc)
  | unlock (a : ℕ) (next : Pc)
  | countSwap (next : Pc)
  | countPass (k : Counting) (next : Pc)
  | halt

/-- Go on with a loaded pointer that is dereferenced next. -/
def deref (next : ℕ → Pc) : Option ℕ → Pc
  | none => .fault
  | some a => next a

/-- The test `ind < randElem` at the head of the walk. -/
def loopHead (r ind : ℤ) (p : ℕ) : Pc :=
  .swap (if ind < r then .loopTest r ind p else .checkNext p)

/-- `swap_thread` and `safe_swap_nodes`. -/
def safeSwapNodes (file : Source) (size : ℤ) : SwapPc → Command
  | .threadTop => .readStop fun stop =>
      if stop then .done
      else .swap (if size < 3 then .threadTop else .retry)
  | .retry => .readStop fun stop => .swap (if stop then .threadTop else .pickRand)
  | .pickRand => .rand fun v => .swap (.firstTarget (randElem size v))
  | .firstTarget r => .readFirst (deref fun q => .swap (.firstLock r q))
  | .firstLock r q => .lock file.walkMode q (.swap (.firstLoad r q))
  | .firstLoad r _ => .readFirst fun prev =>
      match prev with
      | none => .swap .retry
      | some p => loopHead r 1 p
  | .loopTest r ind p => .load p fun v =>
      .swap (if v = none then .checkNext p else .walkTarget r ind p)
  | .walkTarget r ind p => .load p (deref fun q => .swap (.walkLock r ind p q))
  | .walkLock r ind p q => .lock file.walkMode q (.swap (.walkLoad r ind p q))
  | .walkLoad r ind p _ => .load p fun prev => .swap (.walkUnlock r ind p prev)
  | .walkUnlock r ind temp prev => .unlock temp
      (match prev with
      | none => .swap .retry
      | some p => loopHead r (ind + 1) p)
  | .checkNext p => .load p fun v =>
      .swap (if v = none then .giveUp p else .checkTarget p)
  | .checkTarget p => .load p (deref fun q => .swap (.checkNextNext p q))
  | .checkNextNext p q => .load q fun v =>
      .swap (if v = none then .giveUp p else .currentTarget p)
  | .giveUp p => .unlock p (.swap .retry)
  | .currentTarget p => .load p (deref fun q => .swap (.currentLock p q))
  | .currentLock p q => .lock file.walkMode q (.swap (.currentLoad p q))
  | .currentLoad p _ => .load p (deref fun c => .swap (.nextTarget p c))
  | .nextTarget p c => .load c (deref fun q => .swap (.nextLock p c q))
  | .nextLock p c q => .lock file.walkMode q (.swap (.nextLoad p c q))
  | .nextLoad p c _ => .load c (deref fun x =>
      match file with
      | .mutexList => .swap (.loadNextNext p c x)
      | .rwlockList => .swap (.dropPrev p c x))
  | .dropPrev p c x => .unlock p (.swap (.dropCurrent p c x))
  | .dropCurrent p c x => .unlock c (.swap (.dropNext p c x))
  | .dropNext p c x => .unlock x (.swap (.relockPrev p c x))
  | .relockPrev p c x => .lock .exclusive p (.swap (.relockCurrent p c x))
  | .relockCurrent p c x => .lock .exclusive c (.swap (.relockNext p c x))
  | .relockNext p c x => .lock .exclusive x (.swap (.validatePrev p c x))
  | .validatePrev p c x => .load p fun v =>
      .swap (if v = some c then .validateCurrent p c x else .failPrev p c x)
  | .validateCurrent p c x => .load c fun v =>
      .swap (if v = some x then .loadNextNext p c x else .failPrev p c x)
  | .failPrev p c x => .unlock p (.swap (.failCurrent c x))
  | .failCurrent c x => .unlock c (.swap (.failNext x))
  | .failNext x => .unlock x (.swap .retry)
  | .loadNextNext p c x => .load x fun y => .swap (.linkPrev p c x y)
  | .linkPrev p c x y => .store p (some x) none (.swap (.linkCurrent p c x y))
  | .linkCurrent p c x y => .store c y none (.swap (.linkNext p c x))
  | .linkNext p c x => .store x (some c) (some (c, x)) (.swap (.unlockPrev p c x))
  | .unlockPrev p c x => .unlock p (.swap (.unlockCurrent c x))
  | .unlockCurrent c x => .unlock c (.swap (.unlockNext x))
  | .unlockNext x => .unlock x (.swap .countSwap)
  | .countSwap => .countSwap (.swap .threadTop)

/-- `count_ascending`, `count_descending` and `count_equal`. -/
def countNodes (file : Source) (k : Counting) : CountPc → Command
  | .threadTop => .readStop fun stop =>
      if stop then .done else .count k .passTop
  | .passTop => .readFirst fun cur =>
      match cur with
      | none => .count k .passDone
      | some cur => .count k (.testNext cur 0)
  | .testNext cur n => .load cur fun v =>
      .count k (if v = none then .passDone else .testStop cur n)
  | .testStop cur n => .readStop fun stop =>
      .count k (if stop then .passDone else .currentLock cur n)
  | .currentLock cur n => .lock file.walkMode cur (.count k (.nextTarget cur n))
  | .nextTarget cur n => .load cur (deref fun q => .count k (.nextLock cur n q))
  | .nextLock cur n q => .lock file.walkMode q (.count k (.compareTarget cur n q))
  | .compareTarget cur n q => .load cur
      (deref fun b => .count k (.compare cur n q b))
  | .compare cur n q b => .strlens cur b fun len1 len2 =>
      .count k (.nextLoad cur (if k.test len1 len2 then n + 1 else n) q)
  | .nextLoad cur n _ => .load cur
      (deref fun next => .count k (.unlockCurrent cur n next))
  | .unlockCurrent cur n next => .unlock cur (.count k (.unlockNext n next))
  | .unlockNext n next => .unlock next (.count k (.testNext next n))
  | .passDone => .countPass k (.count k .threadTop)

/-- The next access of a thread. -/
def code (file : Source) (size : ℤ) : Pc → Command
  | .swap p => safeSwapNodes file size p
  | .count k p => countNodes file k p
  | .done => .halt
  | .fault => .halt

/-- What a thread does: `swap_thread` or one of the counters. -/
inductive Role
  | swap
  | count (k : Counting)
  deriving DecidableEq, Repr

def Role.start : Role → Pc
  | .swap => .swap .threadTop
  | .count k => .count k .threadTop

/-- The shared memory and the threads.  `order` is a history variable: the
nodes in list order, where an exchange counts from its last pointer write. -/
structure State (T : Type u) where
  first : Option ℕ
  size : ℤ
  nodes : ℕ → Option (Node T)
  stop : Bool
  swapCounters : T → BitVec 64
  counts : Counting → BitVec 64
  order : List ℕ
  pc : T → Pc

/-- One scheduling choice. -/
inductive Action (T : Type u)
  /-- The thread takes its next step; `rand` returns the given value. -/
  | advance (t : T) (rand : ℕ)
  /-- `main` sets `stop`. -/
  | stopThreads

variable {T : Type u} [DecidableEq T]

def State.goto (s : State T) (t : T) (p : Pc) : State T :=
  { s with pc := Function.update s.pc t p }

def State.setNode (s : State T) (a : ℕ) (n : Node T) : State T :=
  { s with nodes := Function.update s.nodes a (some n) }

/-- The list order after two nodes change places. -/
def exchange (order : List ℕ) : Option (ℕ × ℕ) → List ℕ
  | none => order
  | some (c, x) => order.map (Equiv.swap c x)

/-- Execute a command of thread `t`.  There is no result while it waits for a
lock. -/
def exec (s : State T) (t : T) (rand : ℕ) : Command → Option (State T)
  | .readStop next => some (s.goto t (next s.stop))
  | .rand next => some (s.goto t (next rand))
  | .readFirst next => some (s.goto t (next s.first))
  | .load a next =>
      match s.nodes a with
      | none => some (s.goto t .fault)
      | some n => some (s.goto t (next n.next))
  | .strlens a b next =>
      match s.nodes a, s.nodes b with
      | some m, some n =>
          some (s.goto t (next m.value.bytes.length n.value.bytes.length))
      | _, _ => some (s.goto t .fault)
  | .store a v exchanged next =>
      match s.nodes a with
      | none => some (s.goto t .fault)
      | some n =>
          some ({ s.setNode a { n with next := v } with
            order := exchange s.order exchanged }.goto t next)
  | .lock m a next =>
      match s.nodes a with
      | none => some (s.goto t .fault)
      | some n => (n.sync.acquire t m).map fun l =>
          (s.setNode a { n with sync := l }).goto t next
  | .unlock a next =>
      match s.nodes a with
      | none => some (s.goto t .fault)
      | some n =>
          some ((s.setNode a { n with sync := n.sync.release t }).goto t next)
  | .countSwap next =>
      some ({ s with
        swapCounters := Function.update s.swapCounters t (s.swapCounters t + 1)
        }.goto t next)
  | .countPass k next =>
      some ({ s with
        counts := Function.update s.counts k (s.counts k + 1) }.goto t next)
  | .halt => none

/-- One step of the system. -/
def step (file : Source) (s : State T) : Action T → Option (State T)
  | .advance t rand => exec s t rand (code file s.size (s.pc t))
  | .stopThreads => some { s with stop := true }

/-- The threads are created after the list is built. -/
def start (st : Storage T) (role : T → Role) : State T where
  first := st.first
  size := st.size
  nodes := st.nodes
  stop := false
  swapCounters := fun _ => 0
  counts := fun _ => 0
  order := List.range st.allocated
  pc := fun t => (role t).start

/-- Any number of swap threads and counters on a list built by `add_node`. -/
def swapSystem (file : Source) (values : List CString) (role : T → Role) :
    TransitionSystem (State T) (Action T) where
  Initial := fun s =>
    ∃ st, buildStorage T values = some st ∧ s = start st role
  step := step file

/-! ## Schedules -/

/-- Build the list, create the threads and take the steps of a schedule. -/
def runProgram (file : Source) (values : List CString) (role : T → Role)
    (schedule : List (Action T)) : Option (State T) :=
  (buildStorage T values).bind fun st =>
    (swapSystem file values role).run (start st role) schedule

theorem reachable_of_runProgram
    {file : Source} {values : List CString} {role : T → Role}
    {schedule : List (Action T)} {s : State T}
    (hrun : runProgram file values role schedule = some s) :
    (swapSystem file values role).Reachable s := by
  obtain ⟨st, hbuild, hsteps⟩ := Option.bind_eq_some_iff.mp hrun
  have hstart : (swapSystem file values role).Reachable (start st role) :=
    .initial ⟨st, hbuild, rfl⟩
  exact hstart.run hsteps

/-- A list of four nodes. -/
def fourValues : List CString :=
  [.ofBuffer [97], .ofBuffer [98], .ofBuffer [99], .ofBuffer [100]]

/-- One thread swaps and every other thread counts. -/
def oneSwapper (swapper t : T) : Role :=
  if t = swapper then .swap else .count .ascending

end SwapList
end OsFifthSem
