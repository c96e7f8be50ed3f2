import OsFifthSem.Proxy.Cache.WaiterRefinement

/-!
# The error paths of `cache_register_waiter`

The call allocates up to three blocks and takes up to two mutexes.  Here it is
modelled with the outcome of every allocation, the mutex calls it makes and
the blocks it leaves allocated, so that its failures can be judged.  Chains
and counters are not touched by it and are left out of its result.
-/

namespace OsFifthSem
namespace Proxy

open Support

/-- The outcomes of the allocations of one call: `malloc` in `create_waiter`,
`malloc` of a new row, and `strdup` of the key. -/
structure Allocations where
  waiter : Bool
  row : Bool
  key : Bool
  deriving DecidableEq

/-- The blocks these allocations return. -/
inductive Block
  | waiter
  | row
  | key
  deriving DecidableEq

/-- The mutexes of a bucket and of an entry's waiters. -/
inductive CacheMutex
  | bucket (b : ℕ)
  | waiters (a : ℕ)
  deriving DecidableEq

inductive MutexCall
  | lock (m : CacheMutex)
  | unlock (m : CacheMutex)
  deriving DecidableEq

/-- The mutexes held after a sequence of calls; none when a held mutex is
locked again or one is unlocked that is not held. -/
def heldAfter : List CacheMutex → List MutexCall → Option (List CacheMutex)
  | held, [] => some held
  | held, .lock m :: calls =>
      if m ∈ held then none else heldAfter (m :: held) calls
  | held, .unlock m :: calls =>
      if m ∈ held then heldAfter (held.erase m) calls else none

/-- `cache_waiter_table_entry_t`, where the pointer `key` may be NULL. -/
structure PendingRow where
  key : Option CString
  waiter : List AsyncHandle

def WaiterRow.toPendingRow (row : WaiterRow) : PendingRow :=
  ⟨some row.key, row.waiter⟩

/-- What a call returns and leaves behind.  `blocks` are the blocks allocated
by the call and not freed by it. -/
structure Registration where
  returned : ℤ
  entries : ℕ → Option Entry
  rows : ℕ → List PendingRow
  calls : List MutexCall
  blocks : List Block

namespace Cache

variable (c : Cache) (key : CString) (h : AsyncHandle) (ok : Allocations)

/-- The pending table of a bucket. -/
def pendingRows (b : ℕ) : List PendingRow :=
  (c.pending b).map WaiterRow.toPendingRow

/-- `cache_register_waiter`.  There is no result when it computes the address
of a mutex from the NULL head of an empty bucket. -/
def cacheRegisterWaiter : Option Registration :=
  let b := c.bucketOf key
  if ok.waiter then
    match c.findEntry key with
    | some (a, e) =>
        some {
          returned := 0
          entries := Function.update c.entries a
            (some { e with waitingClients := h :: e.waitingClients })
          rows := c.pendingRows
          calls := [.lock (.bucket b), .lock (.waiters a),
            .unlock (.waiters a), .unlock (.bucket b)]
          blocks := [.waiter] }
    | none =>
        match addToRow key h (c.pending b) with
        | some rows =>
            some {
              returned := 0
              entries := c.entries
              rows := Function.update c.pendingRows b
                (rows.map WaiterRow.toPendingRow)
              calls := [.lock (.bucket b), .unlock (.bucket b)]
              blocks := [.waiter] }
        | none =>
            if ok.row then
              -- The result of `strdup` is not tested.
              some {
                returned := 0
                entries := c.entries
                rows := Function.update c.pendingRows b
                  (⟨if ok.key then some key else none, [h]⟩ ::
                    c.pendingRows b)
                calls := [.lock (.bucket b), .unlock (.bucket b)]
                blocks :=
                  if ok.key then [.waiter, .row, .key] else [.waiter, .row] }
            else
              some {
                returned := -1
                entries := c.entries
                rows := c.pendingRows
                calls := [.lock (.bucket b), .unlock (.bucket b)]
                blocks := [] }
  else
    -- `entry` is still the head of the bucket's chain.
    match c.chain b with
    | [] => none
    | a :: _ =>
        some {
          returned := -1
          entries := c.entries
          rows := c.pendingRows
          calls := [.lock (.bucket b), .unlock (.waiters a),
            .unlock (.bucket b)]
          blocks := [] }

/-- The key has neither an entry nor a row. -/
def NeedsRow : Prop :=
  c.findEntry key = none ∧ ∀ row ∈ c.pending (c.bucketOf key), row.key ≠ key

/-- Some allocation that the call makes fails. -/
def AllocationFails : Prop :=
  ok.waiter = false ∨
    c.NeedsRow key ∧ (ok.row = false ∨ ok.key = false)

/-- One node with the handle is linked: at the head of the entry's list, or at
the head of the list of the key's row, which may be a new one. -/
def LinksOnce (r : Registration) : Prop :=
  match c.findEntry key with
  | some (a, e) =>
      r.entries = Function.update c.entries a
          (some { e with waitingClients := h :: e.waitingClients }) ∧
        r.rows = c.pendingRows
  | none =>
      r.entries = c.entries ∧
        ∃ front waiter back,
          r.rows = Function.update c.pendingRows (c.bucketOf key)
            (front ++ ⟨some key, h :: waiter⟩ :: back) ∧
          (c.pendingRows (c.bucketOf key) =
              front ++ ⟨some key, waiter⟩ :: back ∨
            c.NeedsRow key ∧ waiter = [] ∧ front = [] ∧
              c.pendingRows (c.bucketOf key) = back)

/-- The call returns with every mutex given back that it took, a failing one
returns -1, frees what it allocated and changes nothing, and one that returns
0 has linked the handle. -/
structure Clean (r : Registration) : Prop where
  balanced : heldAfter [] r.calls = some []
  failed : c.AllocationFails key ok →
    r.returned = -1 ∧ r.blocks = [] ∧ r.entries = c.entries ∧
      r.rows = c.pendingRows
  linked : r.returned = 0 → c.LinksOnce key h r

/-- The call has a result, and it is clean. -/
def RegistersCleanly : Prop :=
  ∃ r, c.cacheRegisterWaiter key h ok = some r ∧ c.Clean key h ok r

variable {c key h ok}

theorem addToRow_eq_some
    {rows rows' : List WaiterRow} (hadd : addToRow key h rows = some rows') :
    ∃ front waiter back, rows = front ++ ⟨key, waiter⟩ :: back ∧
      rows' = front ++ ⟨key, h :: waiter⟩ :: back := by
  induction rows generalizing rows' with
  | nil => cases hadd
  | cons r rows ih =>
      simp only [addToRow] at hadd
      split at hadd
      next hkey =>
        obtain rfl := Option.some.inj hadd
        subst hkey
        exact ⟨[], r.waiter, rows, rfl, rfl⟩
      next =>
        obtain ⟨rows'', hrest, rfl⟩ := Option.map_eq_some_iff.mp hadd
        obtain ⟨front, waiter, back, rfl, rfl⟩ := ih hrest
        exact ⟨r :: front, waiter, back, rfl, rfl⟩

theorem needsRow_iff :
    c.NeedsRow key ↔
      c.findEntry key = none ∧
        addToRow key h (c.pending (c.bucketOf key)) = none :=
  and_congr_right fun _ => ⟨addToRow_missing, addToRow_eq_none⟩

/-- With the waiter and the copy of the key allocated, the call is the
operation on lists. -/
theorem cacheRegisterWaiter_eq
    (hwaiter : ok.waiter = true) (hkey : ok.key = true) :
    ∃ r, c.cacheRegisterWaiter key h ok = some r ∧
      r.returned = (c.registerWaiter key h ok.row).1 ∧
      r.entries = (c.registerWaiter key h ok.row).2.entries ∧
      r.rows = (c.registerWaiter key h ok.row).2.pendingRows := by
  have hrows : ∀ rows : List WaiterRow,
      Function.update c.pendingRows (c.bucketOf key)
          (rows.map WaiterRow.toPendingRow) =
        pendingRows { c with
          pending := Function.update c.pending (c.bucketOf key) rows } := by
    intro rows
    funext b
    by_cases hb : b = c.bucketOf key
    · subst hb
      simp [pendingRows]
    · simp [pendingRows, hb]
  simp only [cacheRegisterWaiter, registerWaiter, hwaiter, hkey, if_true]
  cases hfind : c.findEntry key with
  | some p => exact ⟨_, rfl, rfl, rfl, rfl⟩
  | none =>
      dsimp only
      cases hadd : addToRow key h (c.pending (c.bucketOf key)) with
      | some rows => exact ⟨_, rfl, rfl, rfl, hrows rows⟩
      | none =>
          cases hrow : ok.row with
          | false => exact ⟨_, rfl, rfl, rfl, rfl⟩
          | true =>
              exact ⟨_, rfl, rfl, rfl,
                hrows (⟨key, [h]⟩ :: c.pending (c.bucketOf key))⟩

/-- Without memory for the waiter, the call unlocks a mutex that it never
locked, or has none to unlock. -/
theorem not_registersCleanly_of_waiter (hwaiter : ok.waiter = false) :
    ¬ c.RegistersCleanly key h ok := by
  rintro ⟨r, hr, hclean⟩
  unfold cacheRegisterWaiter at hr
  cases hchain : c.chain (c.bucketOf key) with
  | nil => simp [hwaiter, hchain] at hr
  | cons a rest =>
      simp only [hwaiter, hchain, Bool.false_eq_true, if_false,
        Option.some.injEq] at hr
      have hbalanced := hclean.balanced
      simp [← hr, heldAfter] at hbalanced

/-- Without memory for the key, a row with a NULL key is linked and the call
returns 0. -/
theorem not_registersCleanly_of_key
    (hwaiter : ok.waiter = true) (hneeds : c.NeedsRow key)
    (hrow : ok.row = true) (hkey : ok.key = false) :
    ¬ c.RegistersCleanly key h ok := by
  rintro ⟨r, hr, hclean⟩
  obtain ⟨hfind, hadd⟩ := (needsRow_iff (h := h)).mp hneeds
  have hreturned := (hclean.failed (Or.inr ⟨hneeds, Or.inr hkey⟩)).1
  simp only [cacheRegisterWaiter, hwaiter, hfind, hadd, hrow, if_true,
    Option.some.injEq] at hr
  simp [← hr] at hreturned

/-- Whatever is allocated otherwise, the call is clean. -/
theorem registersCleanly_of_waiter_of_key
    (hwaiter : ok.waiter = true)
    (hkey : c.NeedsRow key → ok.row = true → ok.key = true) :
    c.RegistersCleanly key h ok := by
  have hno : ok.waiter ≠ false := by simp [hwaiter]
  simp only [RegistersCleanly, cacheRegisterWaiter, hwaiter, if_true]
  cases hfind : c.findEntry key with
  | some p =>
      obtain ⟨a, e⟩ := p
      refine ⟨_, rfl, by simp [heldAfter], ?_, fun _ => ?_⟩
      · rintro (hw | ⟨hneeds, -⟩)
        · exact absurd hw hno
        · exact absurd (hfind.symm.trans hneeds.1) (by simp)
      · simp [LinksOnce, hfind]
  | none =>
      dsimp only
      cases hadd : addToRow key h (c.pending (c.bucketOf key)) with
      | some rows =>
          refine ⟨_, rfl, by simp [heldAfter], ?_, fun _ => ?_⟩
          · rintro (hw | ⟨hneeds, -⟩)
            · exact absurd hw hno
            · exact absurd (hadd.symm.trans (needsRow_iff.mp hneeds).2)
                (by simp)
          · obtain ⟨front, waiter, back, hold, rfl⟩ := addToRow_eq_some hadd
            simp only [LinksOnce, hfind, true_and]
            refine ⟨front.map WaiterRow.toPendingRow, waiter,
              back.map WaiterRow.toPendingRow, ?_, Or.inl ?_⟩
            · simp [WaiterRow.toPendingRow]
            · simp [pendingRows, hold, WaiterRow.toPendingRow]
      | none =>
          have hneeds : c.NeedsRow key := needsRow_iff.mpr ⟨hfind, hadd⟩
          cases hrow : ok.row with
          | false =>
              exact ⟨_, rfl, by simp [heldAfter],
                fun _ => ⟨rfl, rfl, rfl, rfl⟩, by simp⟩
          | true =>
              have hk := hkey hneeds hrow
              simp only [hk, if_true]
              refine ⟨_, rfl, by simp [heldAfter], ?_, fun _ => ?_⟩
              · rintro (hw | ⟨-, hr | hk'⟩)
                · exact absurd hw hno
                · exact absurd hrow (by simp [hr])
                · exact absurd hk (by simp [hk'])
              · simp only [LinksOnce, hfind, true_and]
                exact ⟨[], [], c.pendingRows (c.bucketOf key), rfl,
                  Or.inr ⟨hneeds, rfl, rfl, rfl⟩⟩

variable (c key h ok)

/-- The call is clean exactly when the waiter is allocated and, where a new
row is, the copy of its key. -/
theorem registersCleanly_iff :
    c.RegistersCleanly key h ok ↔
      ok.waiter = true ∧
        (c.NeedsRow key → ok.row = true → ok.key = true) := by
  constructor
  · intro hclean
    constructor
    · by_contra hno
      exact not_registersCleanly_of_waiter (by simpa using hno) hclean
    · intro hneeds hrow
      by_contra hno
      have hwaiter : ok.waiter = true := by
        by_contra hw
        exact not_registersCleanly_of_waiter (by simpa using hw) hclean
      exact not_registersCleanly_of_key hwaiter hneeds hrow
        (by simpa using hno) hclean
  · rintro ⟨hwaiter, hkey⟩
    exact registersCleanly_of_waiter_of_key hwaiter hkey

/-- An empty cache, where `malloc` of the waiter fails. -/
theorem not_registersCleanly_init :
    ¬ (Cache.init 1 300).RegistersCleanly ⟨[47], by decide⟩ 0
      ⟨false, true, true⟩ := by
  rintro ⟨r, hr, -⟩
  simp [cacheRegisterWaiter, Cache.init] at hr

end Cache

end Proxy
end OsFifthSem
