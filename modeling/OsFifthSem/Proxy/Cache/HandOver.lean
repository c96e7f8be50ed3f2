import OsFifthSem.Proxy.Cache.Structure
import OsFifthSem.Proxy.Cache.Waiters

/-!
# Handing the pending waiters over to a new entry

A new entry always gets the waiters of its key's row.  The other rows of the
bucket stay in the table unless the row of the key is the first of several:
the code then sets the head of the table to NULL.
-/

namespace OsFifthSem
namespace Proxy

open Support

namespace Cache

variable {key : CString} {rows : List WaiterRow}

/-! ## Rows of a pending table -/

/-- The waiters in the key's row of a table, none if it has no row. -/
def waitersOf (key : CString) (rows : List WaiterRow) : List AsyncHandle :=
  ((rows.find? fun r => decide (r.key = key)).map WaiterRow.waiter).getD []

/-- A table without the row of a key. -/
def otherRows (key : CString) (rows : List WaiterRow) : List WaiterRow :=
  rows.filter fun r => decide (r.key ≠ key)

theorem otherRows_of_missing (hrows : ∀ r ∈ rows, r.key ≠ key) :
    otherRows key rows = rows := by
  refine List.filter_eq_self.mpr fun r hr => ?_
  simpa using hrows r hr

theorem takeRow_eq (hnodup : (rows.map WaiterRow.key).Nodup) :
    takeRow key rows = (waitersOf key rows, otherRows key rows) := by
  induction rows with
  | nil => rfl
  | cons r rows ih =>
      rw [List.map_cons, List.nodup_cons] at hnodup
      have hrest := ih hnodup.2
      by_cases hr : r.key = key
      · have hmissing : ∀ r' ∈ rows, r'.key ≠ key := by
          rintro r' hr' rfl
          exact hnodup.1 (hr ▸ List.mem_map_of_mem hr')
        have hother : otherRows key (r :: rows) = rows := by
          rw [otherRows, List.filter_cons_of_neg (by simp [hr])]
          exact otherRows_of_missing hmissing
        simp [takeRow, waitersOf, hr, hother]
      · rw [waitersOf, otherRows] at hrest
        simp [takeRow, waitersOf, otherRows, hr, hrest]

/-- The waiters are handed over wherever the row stands. -/
theorem handOver_fst_eq (hnodup : (rows.map WaiterRow.key).Nodup) :
    (handOver key rows).1 = waitersOf key rows := by
  have htake : (takeRow key rows).1 = waitersOf key rows := by
    rw [takeRow_eq hnodup]
  cases rows with
  | nil => rfl
  | cons r rows =>
      rw [← htake]
      simp only [handOver, takeRow]
      split <;> rfl

/-- The table is handed over as it should be, unless the row of the key is
the first of several. -/
theorem handOver_eq_iff (hnodup : (rows.map WaiterRow.key).Nodup) :
    handOver key rows = (waitersOf key rows, otherRows key rows) ↔
      ((∃ r ∈ rows.head?, r.key = key) → rows.length = 1) := by
  cases rows with
  | nil => simp [handOver, waitersOf, otherRows]
  | cons r rows =>
      have htake : takeRow key (r :: rows) = _ := takeRow_eq hnodup
      by_cases hr : r.key = key
      · simp only [takeRow, if_pos hr] at htake
        rw [← htake]
        simp [handOver, hr, eq_comm]
      · simp only [takeRow, if_neg hr] at htake
        simp [handOver, hr, htake]

end Cache

/-! ## The call on linked cells -/

namespace Memory

/-- The contents of the rows in the pending table of bucket `b`, in order. -/
def PendingOf (m : Memory) (b : ℕ) (rows : List WaiterRow) : Prop :=
  ∃ rs, m.RowsOf b rs ∧ rs.map m.rowAt = rows.map some

/-- No entry of the cache has the key. -/
def HasNoEntry (m : Memory) (key : CString) : Prop :=
  ∀ b xs a e, m.EntriesOf b xs → a ∈ xs → m.entryCells a = some e →
    e.key ≠ key

/-- The new entry `a` takes the key's waiters with it, and the table keeps all
its other rows. -/
structure HandsOver (m : Memory) (key : CString) (a : ℕ)
    (m' : Memory) : Prop where
  linked : ∀ xs, m.EntriesOf (m.bucketOf key) xs →
    m'.EntriesOf (m.bucketOf key) (a :: xs)
  entry : ∀ rows, m.PendingOf (m.bucketOf key) rows →
    ∃ e, m'.entryCells a = some e ∧ e.key = key ∧
      e.waitingClients = Cache.waitersOf key rows
  rows : ∀ rows, m.PendingOf (m.bucketOf key) rows →
    m'.PendingOf (m.bucketOf key) (Cache.otherRows key rows)
  others : ∀ b rows, b ≠ m.bucketOf key → m.PendingOf b rows →
    m'.PendingOf b rows

/-- The row of the key is not the first of several rows of its table. -/
def RowNotFirst (m : Memory) (key : CString) : Prop :=
  ∀ rows, m.PendingOf (m.bucketOf key) rows →
    (∃ r ∈ rows.head?, r.key = key) → rows.length = 1

end Memory

section Call

variable {m : Memory} {c : Cache}

theorem Represents.pendingOf_iff
    (hr : Represents m c) {b : ℕ} {rows : List WaiterRow} :
    m.PendingOf b rows ↔ rows = c.pending b := by
  obtain ⟨rs, hrs, hspell⟩ := hr.rows b
  constructor
  · rintro ⟨rs', hrs', hspell'⟩
    obtain rfl := hrs'.unique hrs
    have hsame := hspell'.symm.trans hspell
    exact List.map_injective_iff.mpr (Option.some_injective _) hsame
  · rintro rfl
    exact ⟨rs, hrs, hspell⟩

theorem Represents.findEntry_of_hasNoEntry
    (hr : Represents m c) {key : CString} (hkey : m.HasNoEntry key) :
    c.findEntry key = none := by
  cases hfind : c.findEntry key with
  | none => rfl
  | some p =>
      obtain ⟨a, e⟩ := p
      obtain ⟨hmem, he, rfl⟩ := Cache.findEntry_eq_some hfind
      obtain ⟨cell, hcell, rfl⟩ := hr.cell_of_entries he
      exact absurd rfl (hkey _ _ a cell (hr.chains _) hmem hcell)

/-- A call for a key without an entry hands its pending waiters over, and
keeps all other rows, if and only if the row of the key is not the first of
several. -/
theorem Memory.handsOver_iff_rowNotFirst
    (m : Memory) (key : CString) (now : ℤ) (hm : m.Represented)
    (hkey : m.HasNoEntry key) :
    (∃ a m', m.cacheStartLoading key now true = some (some a, m') ∧
        m.HandsOver key a m') ↔ m.RowNotFirst key := by
  obtain ⟨c, hr, hw⟩ := hm
  have hfind := hr.findEntry_of_hasNoEntry hkey
  have hcreate : c.startLoading key now true =
      (some c.nextEntry, c.created key now) := by
    rcases c.startLoading_cases key now true with
      ⟨a, e, hsome, -⟩ | ⟨-, -, heq⟩ | ⟨-, hok, -⟩
    · simp [hfind] at hsome
    · exact heq
    · cases hok
  obtain ⟨m', hcall, hr'⟩ := hr.cacheStartLoading hw key now true
  rw [hcreate] at hcall hr'
  have hbucket := hr.bucketOf_eq key
  have hiff : Cache.handOver key (c.pending (c.bucketOf key)) = _ ↔ _ :=
    Cache.handOver_eq_iff (hw.rows_nodup (c.bucketOf key))
  have hrows : (c.created key now).pending (c.bucketOf key) =
      (Cache.handOver key (c.pending (c.bucketOf key))).2 := by
    simp [Cache.created]
  constructor
  · rintro ⟨a, m'', hcall', hover⟩ rows hpending
    obtain rfl : m' = m'' := by
      have heq := Option.some.inj (hcall.symm.trans hcall')
      exact (Prod.mk.inj heq).2
    have hafter := hr'.pendingOf_iff.mp (hover.rows rows hpending)
    obtain rfl := hr.pendingOf_iff.mp hpending
    rw [hbucket] at hafter ⊢
    rw [hrows] at hafter
    refine hiff.mp (Prod.ext ?_ hafter.symm)
    exact Cache.handOver_fst_eq (hw.rows_nodup _)
  · intro hfirst
    have hover := hiff.mpr (hbucket ▸ hfirst _ (hr.pendingOf_iff.mpr rfl))
    have hsnd := congrArg Prod.snd hover
    refine ⟨c.nextEntry, m', hcall, ⟨?_, ?_, ?_, ?_⟩⟩
    · intro xs hxs
      rw [hr.entriesOf_iff] at hxs
      rw [hr'.entriesOf_iff, hxs, hbucket]
      simp [Cache.created]
    · intro rows hpending
      rw [hr.pendingOf_iff, hbucket] at hpending
      obtain ⟨cell, hcell, hentry⟩ :=
        hr'.cell_of_entries (c.created_entries_new key now)
      refine ⟨cell, hcell, ?_, ?_⟩
      · rw [hentry]
        rfl
      · rw [hentry, hpending]
        exact Cache.handOver_fst_eq (hw.rows_nodup _)
    · intro rows hpending
      rw [hr.pendingOf_iff] at hpending
      rw [hr'.pendingOf_iff, hpending, hbucket, hrows, hsnd]
    · intro b rows hb hpending
      rw [hr.pendingOf_iff] at hpending
      rw [hbucket] at hb
      rw [hr'.pendingOf_iff, hpending]
      exact (Function.update_of_ne hb _ _).symm

/-- Two keys of one bucket wait; the row of the second one comes first. -/
def Memory.twoRowCalls : List CacheCall :=
  [.registerWaiter (.ofBuffer [97]) 1 true,
    .registerWaiter (.ofBuffer [98]) 2 true]

/-- Starting to load the key of the first row loses the other row. -/
theorem Memory.twoRowCalls_loses :
    ∃ m, (calls 1 60).run (cacheInit 1 60) twoRowCalls = some m ∧
      m.HasNoEntry (.ofBuffer [98]) ∧
      ¬∃ a m', m.cacheStartLoading (.ofBuffer [98]) 0 true =
          some (some a, m') ∧ m.HandsOver (.ofBuffer [98]) a m' := by
  refine ⟨_, rfl, ?_, ?_⟩
  · intro b xs a e _ _ he
    cases he
  · rintro ⟨a, m', hcall, hover⟩
    obtain rfl := (Prod.mk.inj (Option.some.inj hcall)).2
    obtain ⟨rs, hrs, hspell⟩ := hover.rows
      [⟨.ofBuffer [98], [2]⟩, ⟨.ofBuffer [97], [1]⟩]
      ⟨[1, 0], Chain.cons rfl (Chain.cons rfl Chain.nil), rfl⟩
    cases hrs
    cases hspell

/-- Starting to load the key of the row behind it loses nothing. -/
theorem Memory.handsOver_iff_rowNotFirst_second :
    ∃ m, (calls 1 60).run (cacheInit 1 60) twoRowCalls = some m ∧
      m.HasNoEntry (.ofBuffer [97]) ∧
      ((∃ a m', m.cacheStartLoading (.ofBuffer [97]) 0 true =
          some (some a, m') ∧ m.HandsOver (.ofBuffer [97]) a m') ↔
        m.RowNotFirst (.ofBuffer [97])) := by
  refine ⟨_, rfl, ?_, handsOver_iff_rowNotFirst _ _ 0
    (represented_of_run (rfl : (calls 1 60).run (cacheInit 1 60)
      twoRowCalls = some _)) ?_⟩ <;>
  · intro b xs a e _ _ he
    cases he

end Call

end Proxy
end OsFifthSem
