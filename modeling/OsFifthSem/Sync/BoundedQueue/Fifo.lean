import OsFifthSem.Support.AtomicClient
import OsFifthSem.Sync.BoundedQueue.Sequential

/-!
# A reader and a writer of a bounded queue

`2.2d.c`, `queue-threads.c` and `2.1b.c` run the same two threads on a queue.
The writer adds 0, 1, 2, ... and repeats a refused `queue_add` with the same
value; the reader counts along and prints an error when the value taken is not
the one it expects.  On a queue that is linearizable to a first-in first-out
list the error is never printed, whether calls are refused or wait.
-/

namespace OsFifthSem
namespace BoundedQueue

open Support

universe u y z

/-! ## The queue as an atomic object -/

/-- The bounded queue whose calls return at once, with code 0 when the queue
is full or empty. -/
def fifoObject (T : Type u) (capacity : ℤ) :
    AtomicObject T Call Reply (List ℤ) where
  initial := []
  apply := fun vals _ c => some (fifoCall capacity vals c)

/-- The bounded queue whose calls wait instead. -/
def blockingFifoObject (T : Type u) (capacity : ℤ) :
    AtomicObject T Call Reply (List ℤ) where
  initial := []
  apply := fun vals _ c =>
    if (fifoCall capacity vals c).1.code = 0 then none
    else some (fifoCall capacity vals c)

/-- Every call that takes effect is one of the bounded queue. -/
structure IsFifo {T : Type u} (capacity : ℤ)
    (obj : AtomicObject T Call Reply (List ℤ)) : Prop where
  initial : obj.initial = []
  apply : ∀ vals t c r vals', obj.apply vals t c = some (r, vals') →
    fifoCall capacity vals c = (r, vals')

theorem isFifo_fifoObject (T : Type u) (capacity : ℤ) :
    IsFifo capacity (fifoObject T capacity) where
  initial := rfl
  apply := fun _ _ _ _ _ h => Option.some.inj h

theorem isFifo_blockingFifoObject (T : Type u) (capacity : ℤ) :
    IsFifo capacity (blockingFifoObject T capacity) where
  initial := rfl
  apply := by
    intro vals t c r vals' h
    exact Option.some.inj (Option.ite_none_left_eq_some.mp h).2

theorem blockingFifoObject_add
    {T : Type u} {capacity : ℤ} {vals : List ℤ} (t : T) (val : ℤ)
    (hroom : (vals.length : ℤ) < capacity) :
    (blockingFifoObject T capacity).apply vals t (.add val) =
      some (⟨1, none⟩, vals ++ [val]) := by
  simp [blockingFifoObject, fifoCall, hroom]

theorem blockingFifoObject_get
    {T : Type u} (capacity : ℤ) (vals : List ℤ) (t : T) (val : ℤ) :
    (blockingFifoObject T capacity).apply (val :: vals) t .get =
      some (⟨1, some val⟩, vals) := by
  simp [blockingFifoObject, fifoCall]

/-! ## The threads -/

/-- `INT_MAX`. -/
def intMax : ℤ := 2147483647

/-- `i + 1` on `int`, which is undefined on overflow. -/
def intSucc (i : ℤ) : Option ℤ :=
  if i < intMax then some (i + 1) else none

/-- The variables of `writer` and `reader`; `errors` counts the lines that the
reader prints. -/
structure Local where
  i : ℤ
  expected : ℤ
  errors : ℕ
  deriving DecidableEq, Repr

/-- `writer`, behind `ok = queue_add(q, i)`. -/
def writer (c : Local) (r : Reply) : Option Local :=
  if r.code = 0 then some c
  else (intSucc c.i).map fun i => { c with i := i }

/-- `reader`, behind `val = -1; ok = queue_get(q, &val)`. -/
def reader (c : Local) (r : Reply) : Option Local :=
  let val := r.value.getD (-1)
  if r.code = 0 then some c
  else (intSucc val).map fun expected =>
    { c with
      expected := expected
      errors := if c.expected ≠ val then c.errors + 1 else c.errors }

/-- Thread `w` runs `writer` and thread `r` runs `reader`; no other thread
adds or gets. -/
def readerWriter {T : Type u} [DecidableEq T] (w r : T) :
    Client T Call Reply Local where
  start := fun _ => ⟨0, 0, 0⟩
  next := fun t c =>
    if t = w then some (.add c.i) else if t = r then some .get else none
  resume := fun t c reply =>
    if t = w then writer c reply
    else if t = r then reader c reply
    else none

/-! ## The values in the queue -/

/-- The values are `a`, `a + 1`, ... -/
def CountsUp : ℤ → List ℤ → Prop
  | _, [] => True
  | a, val :: vals => val = a ∧ CountsUp (a + 1) vals

theorem CountsUp.snoc
    {a : ℤ} {vals : List ℤ} (h : CountsUp a vals) :
    CountsUp a (vals ++ [a + vals.length]) := by
  induction vals generalizing a with
  | nil => exact ⟨by simp, trivial⟩
  | cons val vals ih =>
      obtain ⟨rfl, htail⟩ := h
      have hnext : val + 1 + (vals.length : ℤ) =
          val + ((val :: vals).length : ℤ) := by
        rw [List.length_cons]
        omega
      exact ⟨rfl, hnext ▸ ih htail⟩

/-- 1 when the call of the thread took effect and was not refused. -/
def accepted : CallPhase Call Reply → ℤ
  | .answered r => if r.code = 0 then 0 else 1
  | .idle | .called _ => 0

@[simp] theorem accepted_idle : accepted .idle = 0 := rfl

@[simp] theorem accepted_called (c : Call) : accepted (.called c) = 0 := rfl

@[simp] theorem accepted_taken (val : Option ℤ) :
    accepted (.answered ⟨1, val⟩) = 1 := rfl

@[simp] theorem accepted_refused (val : Option ℤ) :
    accepted (.answered ⟨0, val⟩) = 0 := rfl

variable {T : Type u} [DecidableEq T] {w r : T} {capacity : ℤ}
  {obj : AtomicObject T Call Reply (List ℤ)}

/-- The queue holds the values from the reader's next one to the writer's next
one, and the reader was never surprised. -/
structure InOrder (w r : T) (capacity : ℤ)
    (u : AtomicState T Call Reply (List ℤ)) (cs : T → Local) : Prop where
  calls : ∀ t c, u.phase t = .called c →
    (readerWriter w r).next t (cs t) = some c
  countsUp :
    CountsUp ((cs r).expected + accepted (u.phase r)) u.value
  length : (cs r).expected + accepted (u.phase r) + u.value.length =
    (cs w).i + accepted (u.phase w)
  bounded : (u.value.length : ℤ) ≤ capacity
  taken : ∀ reply, u.phase r = .answered reply →
    reply.code = 0 ∨ reply.value = some (cs r).expected
  errors : (cs r).errors = 0

namespace InOrder

variable {u : AtomicState T Call Reply (List ℤ)} {cs : T → Local}

/-- A call is made. -/
theorem call
    (h : InOrder w r capacity u cs) {t : T} {c : Call}
    (hidle : u.phase t = .idle)
    (hnext : (readerWriter w r).next t (cs t) = some c) :
    InOrder w r capacity
      { u with phase := Function.update u.phase t (.called c) } cs := by
  have hsame : ∀ x, accepted (Function.update u.phase t (.called c) x) =
      accepted (u.phase x) := by
    intro x
    by_cases hx : x = t
    · subst hx
      simp [hidle]
    · rw [Function.update_of_ne hx]
  refine ⟨?_, ?_, ?_, h.bounded, ?_, h.errors⟩
  · intro x d hx
    by_cases hxt : x = t
    · subst hxt
      obtain rfl : c = d := by simpa using hx
      exact hnext
    · exact h.calls x d (by simpa [hxt] using hx)
  · exact (hsame r).symm ▸ h.countsUp
  · simp only [hsame]
    exact h.length
  · intro reply hreply
    by_cases hrt : r = t
    · subst hrt
      simp at hreply
    · exact h.taken reply (by simpa [hrt] using hreply)

/-- A call takes effect: the writer's at the end of the queue, the reader's at
its beginning. -/
theorem effect
    (h : InOrder w r capacity u cs) (hne : w ≠ r) {t : T} {c : Call}
    {reply : Reply} {vals : List ℤ} (hcalled : u.phase t = .called c)
    (hfifo : fifoCall capacity u.value c = (reply, vals)) :
    InOrder w r capacity
      { value := vals
        phase := Function.update u.phase t (.answered reply) } cs := by
  have hcalls : ∀ x d,
      Function.update u.phase t (.answered reply) x = .called d →
      (readerWriter w r).next x (cs x) = some d := by
    intro x d hx
    by_cases hxt : x = t
    · subst hxt
      simp at hx
    · exact h.calls x d (by simpa [hxt] using hx)
  have hnext := h.calls t c hcalled
  have hcountsUp := h.countsUp
  have hlength := h.length
  have hbounded := h.bounded
  by_cases htw : t = w
  · -- the writer
    subst htw
    obtain rfl : .add (cs t).i = c := by
      simpa [readerWriter] using hnext
    rw [hcalled, accepted_called, Int.add_zero] at hlength
    have htaken : ∀ reply',
        Function.update u.phase t (.answered reply) r = .answered reply' →
        reply'.code = 0 ∨ reply'.value = some (cs r).expected := by
      intro reply' hreply
      exact h.taken reply' (by simpa [hne.symm] using hreply)
    by_cases hroom : (u.value.length : ℤ) < capacity
    · rw [fifoCall, if_pos hroom] at hfifo
      obtain ⟨rfl, rfl⟩ := Prod.mk.inj hfifo
      have hsnoc := hcountsUp.snoc
      rw [hlength] at hsnoc
      refine ⟨hcalls, ?_, ?_, ?_, htaken, h.errors⟩
      · simpa [hne.symm] using hsnoc
      · simp only [Function.update_self, Function.update_of_ne hne.symm,
          accepted_taken, List.length_append, List.length_singleton]
        push_cast
        omega
      · rw [List.length_append, List.length_singleton]
        push_cast
        omega
    · rw [fifoCall, if_neg hroom] at hfifo
      obtain ⟨rfl, rfl⟩ := Prod.mk.inj hfifo
      refine ⟨hcalls, ?_, ?_, hbounded, htaken, h.errors⟩
      · simpa [hne.symm] using hcountsUp
      · simpa [hne.symm] using hlength
  · -- the reader
    obtain rfl : t = r := by
      by_contra htr
      simp [readerWriter, htw, htr] at hnext
    obtain rfl : Call.get = c := by
      simpa [readerWriter, htw] using hnext
    rw [hcalled, accepted_called, Int.add_zero] at hcountsUp hlength
    cases hvalue : u.value with
    | nil =>
        rw [hvalue] at hfifo hlength
        obtain ⟨rfl, rfl⟩ := Prod.mk.inj hfifo
        refine ⟨hcalls, trivial, ?_, ?_, ?_, h.errors⟩
        · simpa [Ne.symm htw] using hlength
        · simpa [hvalue] using hbounded
        · intro reply' hreply
          obtain rfl : _ = reply' := by simpa using hreply
          exact Or.inl rfl
    | cons val rest =>
        rw [hvalue] at hfifo hlength hcountsUp hbounded
        obtain ⟨rfl, rfl⟩ := Prod.mk.inj hfifo
        obtain ⟨rfl, htail⟩ := hcountsUp
        rw [List.length_cons] at hlength hbounded
        refine ⟨hcalls, ?_, ?_, ?_, ?_, h.errors⟩
        · simpa using htail
        · simp only [Function.update_self, Function.update_of_ne (Ne.symm htw),
            accepted_taken]
          push_cast at hlength
          omega
        · change (rest.length : ℤ) ≤ capacity
          omega
        · intro reply' hreply
          obtain rfl : _ = reply' := by simpa using hreply
          exact Or.inr rfl

/-- A call returns. -/
theorem answer
    (h : InOrder w r capacity u cs) (hne : w ≠ r) {t : T} {reply : Reply}
    {c : Local} (hanswered : u.phase t = .answered reply)
    (hresume : (readerWriter w r).resume t (cs t) reply = some c) :
    InOrder w r capacity
      { u with phase := Function.update u.phase t .idle }
      (Function.update cs t c) := by
  have hcountsUp := h.countsUp
  have hlength := h.length
  have hcalls : ∀ x d, Function.update u.phase t .idle x = .called d →
      (readerWriter w r).next x (Function.update cs t c x) = some d := by
    intro x d hx
    by_cases hxt : x = t
    · subst hxt
      simp at hx
    · rw [Function.update_of_ne hxt]
      exact h.calls x d (by simpa [hxt] using hx)
  by_cases htw : t = w
  · subst htw
    have hwriter : writer (cs t) reply = some c := by
      simpa [readerWriter] using hresume
    have hi : c.i = (cs t).i + accepted (u.phase t) := by
      rw [hanswered, accepted]
      by_cases hcode : reply.code = 0
      · obtain rfl : cs t = c := by simpa [writer, hcode] using hwriter
        simp [hcode]
      · simp only [writer, if_neg hcode, Option.map_eq_some_iff, intSucc,
          Option.ite_none_right_eq_some, Option.some.injEq] at hwriter
        obtain ⟨i, ⟨-, rfl⟩, rfl⟩ := hwriter
        simp [hcode]
    refine ⟨hcalls, ?_, ?_, h.bounded, ?_, ?_⟩
    · simpa [hne.symm] using hcountsUp
    · simpa [hne.symm, hi] using hlength
    · intro reply' hreply
      rw [Function.update_of_ne hne.symm]
      exact h.taken reply' (by simpa [hne.symm] using hreply)
    · rw [Function.update_of_ne hne.symm]
      exact h.errors
  · obtain rfl : t = r := by
      by_contra htr
      simp [readerWriter, htw, htr] at hresume
    have hreader : reader (cs t) reply = some c := by
      simpa [readerWriter, htw] using hresume
    have hlocal : c.expected = (cs t).expected + accepted (u.phase t) ∧
        c.errors = 0 := by
      rw [hanswered, accepted]
      by_cases hcode : reply.code = 0
      · obtain rfl : cs t = c := by simpa [reader, hcode] using hreader
        simpa [hcode] using h.errors
      · -- the value taken is the one expected
        have hval := (h.taken reply hanswered).resolve_left hcode
        simp only [reader, if_neg hcode, hval, Option.getD_some,
          Option.map_eq_some_iff, intSucc, Option.ite_none_right_eq_some,
          Option.some.injEq] at hreader
        obtain ⟨e, ⟨-, rfl⟩, rfl⟩ := hreader
        simpa [hcode] using h.errors
    refine ⟨hcalls, ?_, ?_, h.bounded, ?_, ?_⟩
    · simpa [hlocal.1] using hcountsUp
    · simpa [hlocal.1, Ne.symm htw] using hlength
    · intro reply' hreply
      simp at hreply
    · simpa using hlocal.2

end InOrder

theorem inOrder_invariant
    (hfifo : IsFifo capacity obj) (hne : w ≠ r) (hcapacity : 0 ≤ capacity) :
    Client.Invariant obj (readerWriter w r) (InOrder w r capacity) where
  initial := by
    rw [hfifo.initial]
    refine ⟨?_, trivial, rfl, hcapacity, ?_, rfl⟩
    · intro t c h
      cases h
    · intro reply h
      cases h
  call := fun _ _ _ _ h => h.call
  effect := fun _ _ _ _ _ _ h hcalled happly =>
    h.effect hne hcalled (hfifo.apply _ _ _ _ _ happly)
  answer := fun _ _ _ _ _ h => h.answer hne

/-- The reader printed no error, and it is at most the capacity and the two
calls under way behind the writer. -/
def Undisturbed (w r : T) (capacity : ℤ) (cs : T → Local) : Prop :=
  (cs r).errors = 0 ∧ 0 ≤ (cs w).i + 1 - (cs r).expected ∧
    (cs w).i - (cs r).expected ≤ capacity + 1

theorem InOrder.undisturbed
    {u : AtomicState T Call Reply (List ℤ)} {cs : T → Local}
    (h : InOrder w r capacity u cs) : Undisturbed w r capacity cs := by
  have hbound : ∀ phase : CallPhase Call Reply,
      0 ≤ accepted phase ∧ accepted phase ≤ 1 := by
    intro phase
    cases phase with
    | answered reply => simp only [accepted]; split_ifs <;> simp
    | idle | called => simp
  have hlength := h.length
  have hbounded := h.bounded
  have hw := hbound (u.phase w)
  have hr := hbound (u.phase r)
  exact ⟨h.errors, by omega, by omega⟩

/-- The reader and the writer on any queue that is linearizable to a bounded
queue. -/
theorem undisturbed_of_linearizable
    {σ : Type y} {α : Type z} {S : TransitionSystem σ α}
    {allowed : σ → α → Prop} {obs : σ → α → List (CallEvent T Call Reply)}
    (hfifo : IsFifo capacity obj) (hne : w ≠ r) (hcapacity : 0 ≤ capacity)
    (hlin : obj.Linearizable S allowed obs)
    {events : List (CallEvent T Call Reply)} {cs : T → Local}
    (htrace : S.IsTraceUnder allowed obs events)
    (hfollow : (readerWriter w r).follow (readerWriter w r).start events =
      some cs) : Undisturbed w r capacity cs := by
  obtain ⟨u, hu⟩ := (inOrder_invariant hfifo hne hcapacity).of_linearizable
    hlin htrace hfollow
  exact hu.undisturbed

end BoundedQueue
end OsFifthSem
