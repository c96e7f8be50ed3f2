import OsFifthSem.Proxy.Cache.Refinement

/-!
# Refinement of the operations on waiters

`cache_start_loading`, `cache_register_waiter` and `cache_unregister_waiter`.
The row cells of two buckets are disjoint, since the key of a row determines
its bucket, so an edit of one pending table leaves the others alone.
-/

namespace OsFifthSem
namespace Proxy

open Support

/-! ## A pending table split at the row of a key -/

namespace Cache

theorem takeRow_split
    {key : CString} {pre post : List WaiterRow} {row : WaiterRow}
    (hpre : ∀ r ∈ pre, r.key ≠ key) (hrow : row.key = key) :
    takeRow key (pre ++ row :: post) = (row.waiter, pre ++ post) := by
  induction pre with
  | nil => simp [takeRow, hrow]
  | cons r pre ih =>
      have hr : r.key ≠ key := hpre r (by simp)
      have hrest := ih fun x hx => hpre x (by simp [hx])
      simp [takeRow, hr, hrest]

theorem takeRow_missing
    {key : CString} {rows : List WaiterRow} (hrows : ∀ r ∈ rows, r.key ≠ key) :
    takeRow key rows = ([], rows) := by
  induction rows with
  | nil => rfl
  | cons r rows ih =>
      have hr : r.key ≠ key := hrows r (by simp)
      have hrest := ih fun x hx => hrows x (by simp [hx])
      simp [takeRow, hr, hrest]

theorem handOver_head
    {key : CString} {post : List WaiterRow} {row : WaiterRow}
    (hrow : row.key = key) :
    handOver key (row :: post) = (row.waiter, []) := by
  simp [handOver, hrow]

theorem handOver_behind
    {key : CString} {pre post : List WaiterRow} {row : WaiterRow}
    (hne : pre ≠ []) (hpre : ∀ r ∈ pre, r.key ≠ key) (hrow : row.key = key) :
    handOver key (pre ++ row :: post) = (row.waiter, pre ++ post) := by
  cases pre with
  | nil => exact absurd rfl hne
  | cons r pre =>
      have hr : r.key ≠ key := hpre r (by simp)
      have hrest : takeRow key (pre ++ row :: post) =
          (row.waiter, pre ++ post) :=
        takeRow_split (fun x hx => hpre x (List.mem_cons_of_mem r hx)) hrow
      simp [handOver, hr, hrest]

theorem handOver_missing
    {key : CString} {rows : List WaiterRow} (hrows : ∀ r ∈ rows, r.key ≠ key) :
    handOver key rows = ([], rows) := by
  cases rows with
  | nil => rfl
  | cons r rows =>
      have hr : r.key ≠ key := hrows r (by simp)
      have hrest := takeRow_missing fun x hx => hrows x (List.mem_cons_of_mem r hx)
      simp [handOver, hr, hrest]

theorem addToRow_split
    {key : CString} {h : AsyncHandle} {pre post : List WaiterRow}
    {row : WaiterRow} (hpre : ∀ r ∈ pre, r.key ≠ key) (hrow : row.key = key) :
    addToRow key h (pre ++ row :: post) =
      some (pre ++ { row with waiter := h :: row.waiter } :: post) := by
  induction pre with
  | nil => simp [addToRow, hrow]
  | cons r pre ih =>
      have hr : r.key ≠ key := hpre r (by simp)
      have hrest := ih fun x hx => hpre x (by simp [hx])
      simp [addToRow, hr, hrest]

theorem addToRow_missing
    {key : CString} {h : AsyncHandle} {rows : List WaiterRow}
    (hrows : ∀ r ∈ rows, r.key ≠ key) : addToRow key h rows = none := by
  induction rows with
  | nil => rfl
  | cons r rows ih =>
      have hr : r.key ≠ key := hrows r (by simp)
      have hrest := ih fun x hx => hrows x (by simp [hx])
      simp [addToRow, hr, hrest]

end Cache

namespace Represents

variable {m : Memory} {c : Cache}

/-- The pending table of a bucket, split at the key's row, next to the chain
of cells that holds it. -/
structure RowSplit (m : Memory) (c : Cache) (key : CString) (b : ℕ)
    (rpre : List ℕ) (r : ℕ) (rpost : List ℕ) (pre : List WaiterRow)
    (row : RowCell) (post : List WaiterRow) : Prop where
  chain : Chain RowCell.next m.rowCells (m.pendingHead b) (rpre ++ r :: rpost)
  pending : c.pending b = pre ++ row.toWaiterRow :: post
  front : rpre.map m.rowAt = pre.map some
  back : rpost.map m.rowAt = post.map some
  cell : m.rowCells r = some row
  next : row.next = rpost.head?
  key_eq : row.key = key
  key_ne : ∀ x ∈ pre, x.key ≠ key

/-- The search through a pending table stops at the key's row, if there is
one. -/
theorem scanRows_cases
    (hr : Represents m c) (key : CString) (b : ℕ) :
    (∃ rpre r rpost pre row post,
      RowSplit m c key b rpre r rpost pre row post ∧
      m.scanRows key b = some (rpre.getLast?, some r)) ∨
    (∃ last, m.scanRows key b = some (last, none) ∧
      ∀ x ∈ c.pending b, x.key ≠ key) := by
  obtain ⟨rs, hchain, hrows⟩ := hr.rows b
  let cellTest := testAt m.rowCells fun row => decide (row.key = key)
  have hfuel : rs.length < m.nextRow + 1 :=
    Nat.lt_succ_of_le (hchain.length_le hr.rowFresh)
  by_cases hex : ∃ r ∈ rs, cellTest r = true
  · obtain ⟨rpre, r, rpost, hsplit⟩ := exists_splitAt hex
    have hscan : m.scanRows key b = some (rpre.getLast?.or none, some r) :=
      scan_of_splitAt hchain hfuel hsplit
    obtain ⟨rfl, hbefore, hat⟩ := hsplit
    obtain ⟨row, hrow, hnext⟩ := hchain.cell
    rw [List.map_append, List.map_cons, List.append_eq_map_iff] at hrows
    obtain ⟨pre, tail, hpending, hfront, htail⟩ := hrows
    obtain ⟨row', post, rfl, hrow', hback⟩ := List.map_eq_cons_iff.mp htail
    have hrow'' : row' = row.toWaiterRow := by
      rw [Memory.rowAt, hrow] at hrow'
      exact (Option.some.inj hrow')
    subst hrow''
    refine Or.inl ⟨rpre, r, rpost, pre, row, post, ?_, by simpa using hscan⟩
    refine ⟨hchain, hpending, hfront.symm, hback.symm, hrow, hnext, ?_, ?_⟩
    · simpa [cellTest, testAt, hrow] using hat
    · intro x hx
      have hmem : some x ∈ rpre.map m.rowAt := hfront ▸ List.mem_map_of_mem hx
      obtain ⟨y, hy, hyx⟩ := List.mem_map.mp hmem
      obtain ⟨cell, hcell, rfl⟩ := Option.map_eq_some_iff.mp hyx
      simpa [cellTest, testAt, hcell] using hbefore y hy
  · have hnone : ∀ r ∈ rs, cellTest r = false := by
      intro r hmem
      by_contra htrue
      exact hex ⟨r, hmem, by simpa using htrue⟩
    obtain ⟨last, hscan⟩ := scan_of_forall hchain hfuel hnone
    refine Or.inr ⟨last, hscan, fun x hx => ?_⟩
    have hmem : some x ∈ rs.map m.rowAt := hrows ▸ List.mem_map_of_mem hx
    obtain ⟨y, hy, hyx⟩ := List.mem_map.mp hmem
    obtain ⟨cell, hcell, rfl⟩ := Option.map_eq_some_iff.mp hyx
    simpa [cellTest, testAt, hcell] using hnone y hy

/-- Replacing the pending table of one bucket.  The cells of rows that hash
to another bucket stay as they are. -/
theorem setRows
    (hr : Represents m c)
    (hbucket : ∀ b r, r ∈ c.pending b → c.bucketOf r.key = b)
    (b bound : ℕ) {cells : ℕ → Option RowCell} {head : Option ℕ}
    {rs : List ℕ} {rows : List WaiterRow}
    (hchain : Chain RowCell.next cells head rs)
    (hrows : rs.map (fun r => (cells r).map RowCell.toWaiterRow) =
      rows.map some)
    (hout : ∀ r row, m.rowCells r = some row → c.bucketOf row.key ≠ b →
      cells r = some row)
    (hfresh : ∀ r row, cells r = some row → r < bound) :
    Represents
      { m with
        pendingHead := Function.update m.pendingHead b head
        rowCells := cells
        nextRow := bound }
      { c with pending := Function.update c.pending b rows } where
  fields := hr.fields
  nextEntry := hr.nextEntry
  entries := hr.entries
  chains := hr.chains
  rowFresh := hfresh
  rows := by
    intro b'
    by_cases hb : b' = b
    · subst hb
      refine ⟨rs, by simpa using hchain, ?_⟩
      dsimp only
      rw [Function.update_self, ← hrows]
      rfl
    · obtain ⟨rs', hchain', hrows'⟩ := hr.rows b'
      have hsame : ∀ r ∈ rs', cells r = m.rowCells r := by
        intro r hmem
        obtain ⟨row, hrow⟩ := hchain'.exists_cell hmem
        have hpend : row.toWaiterRow ∈ c.pending b' := by
          have hat : m.rowAt r ∈ (c.pending b').map some :=
            hrows' ▸ List.mem_map_of_mem hmem
          simpa [Memory.rowAt, hrow] using hat
        rw [hrow]
        refine hout r row hrow ?_
        rw [hbucket b' _ hpend]
        exact hb
      refine ⟨rs', ?_, ?_⟩
      · simpa [hb] using hchain'.congr_of_eq hsame
      · simp only [Function.update_of_ne hb, ← hrows']
        refine List.map_congr_left fun r hmem => ?_
        simp [Memory.rowAt, hsame r hmem]

/-! ## Starting a load -/

/-- A new entry cell at the head of a bucket. -/
theorem pushEntry
    (hr : Represents m c) (hw : c.WF) (b : ℕ) (e : Entry) (count : UInt64) :
    Represents
      { m.putCell m.nextEntry { toEntry := e, next := m.head b } with
        head := Function.update m.head b (some m.nextEntry)
        currentEntries := count
        nextEntry := m.nextEntry + 1 }
      { c with
        currentEntries := count
        chain := Function.update c.chain b (c.nextEntry :: c.chain b)
        entries := Function.update c.entries c.nextEntry (some e)
        nextEntry := c.nextEntry + 1 } where
  fields := by simp [Memory.putCell, hr.fields]
  nextEntry := by simp [hr.nextEntry]
  entries := by
    intro x
    simp only [Memory.putCell, hr.nextEntry]
    by_cases hx : x = c.nextEntry
    · subst hx
      simp
    · simpa [hx] using hr.entries x
  chains := by
    intro b'
    have hnew : ∀ b', m.nextEntry ∉ c.chain b' := by
      intro b' hmem
      obtain ⟨e', he', -⟩ := hw.linked b' _ hmem
      have hlt := hw.fresh _ _ he'
      rw [hr.nextEntry] at hlt
      omega
    have hsame : ∀ x, x ≠ m.nextEntry →
        Function.update m.entryCells m.nextEntry
          (some { toEntry := e, next := m.head b }) x = m.entryCells x :=
      fun x hx => Function.update_of_ne hx _ _
    by_cases hb : b' = b
    · subst hb
      have hpush := (hr.chains b').push (hnew b')
        (Function.update_self m.nextEntry _ m.entryCells) rfl hsame
      simpa [Memory.putCell, hr.nextEntry] using hpush
    · simp only [Memory.putCell, Function.update_of_ne hb]
      refine (hr.chains b').congr_of_eq fun x hx => hsame x ?_
      rintro rfl
      exact hnew b' hx
  rows := hr.rows
  rowFresh := hr.rowFresh

/-- The row of the key moves to the new entry `a`. -/
theorem takePendingRow
    (hr : Represents m c)
    (hbucket : ∀ b r, r ∈ c.pending b → c.bucketOf r.key = b)
    {a : ℕ} {e : Entry} (he : c.entries a = some e)
    (hwait : e.waitingClients = []) (key : CString) (b : ℕ) :
    ∃ m', m.takePendingRow key b a = some m' ∧
      Represents m'
        { c with
          pending :=
            Function.update c.pending b (Cache.handOver key (c.pending b)).2
          entries := Function.update c.entries a
            (some { e with
              waitingClients := (Cache.handOver key (c.pending b)).1 }) } := by
  obtain ⟨cell, hcell, rfl⟩ := hr.cell_of_entries he
  unfold Memory.takePendingRow
  rcases hr.scanRows_cases key b with
    ⟨rpre, r, rpost, pre, row, post, hsplit, hscan⟩ | ⟨last, hscan, hnone⟩
  · have hput := hr.putCell hcell
      { cell.toEntry with waitingClients := row.waiter }
    rcases List.eq_nil_or_concat rpre with rfl | ⟨rfront, q, rfl⟩
    · -- the head row: the table is emptied
      have hpre : pre = [] := by simpa using hsplit.front.symm
      have hover : Cache.handOver key (c.pending b) = (row.waiter, []) := by
        rw [hsplit.pending, hpre]
        exact Cache.handOver_head hsplit.key_eq
      simp only [hscan, hsplit.cell, hcell, Option.bind_eq_bind,
        Option.bind_some, List.getLast?_nil, hover]
      refine ⟨_, rfl, ?_⟩
      have hempty : ([] : List ℕ).map m.rowAt =
          ([] : List WaiterRow).map some := rfl
      exact hput.setRows hbucket b m.nextRow .nil hempty
        (fun r row hrow _ => hrow) hr.rowFresh
    · -- the row in front is relinked past it
      simp only [List.concat_eq_append] at hsplit hscan
      have hlast : (rfront ++ [q]).getLast? = some q := by simp
      have hchain : Chain RowCell.next m.rowCells (m.pendingHead b)
          (rfront ++ q :: ([r] ++ rpost)) := by
        simpa using hsplit.chain
      obtain ⟨qrow, hqrow, -⟩ := hchain.cell
      have hqmem : qrow.toWaiterRow ∈ pre := by
        have hat : m.rowAt q ∈ pre.map some :=
          hsplit.front ▸ List.mem_map_of_mem (by simp)
        simpa [Memory.rowAt, hqrow] using hat
      have hover : Cache.handOver key (c.pending b) =
          (row.waiter, pre ++ post) := by
        rw [hsplit.pending]
        exact Cache.handOver_behind (List.ne_nil_of_mem hqmem) hsplit.key_ne
          hsplit.key_eq
      simp only [hscan, hsplit.cell, hcell, hlast, Option.bind_eq_bind,
        Option.bind_some, hover]
      refine ⟨Memory.putRow _ q { qrow with next := row.next },
        by simp [Memory.putCell, hqrow]; rfl, ?_⟩
      let cells := Function.update m.rowCells q
        (some { qrow with next := row.next })
      have hother : ∀ x, x ≠ q → cells x = m.rowCells x :=
        fun x hx => Function.update_of_ne hx _ _
      have hself : cells q = some { qrow with next := row.next } :=
        Function.update_self ..
      have hcontents : ∀ x, (cells x).map RowCell.toWaiterRow = m.rowAt x := by
        intro x
        by_cases hx : x = q
        · rw [hx, hself, Memory.rowAt, hqrow]
          rfl
        · rw [hother x hx]
          rfl
      have hrelink : Chain RowCell.next cells (m.pendingHead b)
          (rfront ++ q :: rpost) := by
        refine hchain.relink hself hsplit.next fun x hx => hother x ?_
        rintro rfl
        have hnodup := hchain.nodup
        simp only [List.nodup_append, List.nodup_cons, List.mem_append,
          List.mem_cons] at hnodup
        rcases List.mem_append.mp hx with hx | hx
        · exact hnodup.2.2 x hx x (Or.inl rfl) rfl
        · exact hnodup.2.1.1 (Or.inr hx)
      have hrows : (rfront ++ q :: rpost).map
          (fun x => (cells x).map RowCell.toWaiterRow) =
            (pre ++ post).map some := by
        rw [funext hcontents, List.map_append (f := some), ← hsplit.front,
          ← hsplit.back]
        simp
      have hset := hput.setRows hbucket b m.nextRow hrelink hrows ?_ ?_
      · simpa [Memory.putCell, Memory.putRow, Cache.putEntry, cells] using hset
      · intro x xrow hxrow hne
        rw [hother x, ← hxrow]
        · rfl
        · rintro rfl
          apply hne
          obtain rfl := Option.some.inj (hqrow.symm.trans hxrow)
          exact hbucket b _ (by simp [hsplit.pending, hqmem])
      · intro x xrow hxrow
        by_cases hx : x = q
        · exact hr.rowFresh x qrow (hx ▸ hqrow)
        · exact hr.rowFresh x xrow ((hother x hx).symm.trans hxrow)
  · have hover : Cache.handOver key (c.pending b) = ([], c.pending b) :=
      Cache.handOver_missing hnone
    simp only [hscan, Option.bind_eq_bind, Option.bind_some, hover]
    refine ⟨m, rfl, ?_⟩
    rw [← hwait, Function.update_eq_self, Function.update_eq_self_iff.mpr]
    · exact hr
    · exact he.symm

theorem cacheStartLoading
    (hr : Represents m c) (hw : c.WF) (key : CString) (now : ℤ) (ok : Bool) :
    ∃ m', m.cacheStartLoading key now ok =
        some ((c.startLoading key now ok).1, m') ∧
      Represents m' (c.startLoading key now ok).2 := by
  unfold Memory.cacheStartLoading Cache.startLoading
  rcases hr.scanEntries_key hw key with
    ⟨prev, a, cell, hscan, hcell, hfind⟩ | ⟨last, hscan, hfind⟩
  · simp only [hscan, hfind, Option.bind_eq_bind, Option.bind_some]
    exact ⟨m, rfl, hr⟩
  · simp only [hscan, hfind, Option.bind_eq_bind, Option.bind_some]
    cases ok with
    | false => exact ⟨m, rfl, hr⟩
    | true =>
        have hcount : m.currentEntries = c.currentEntries := by rw [hr.fields]
        have hpush := hr.pushEntry hw (m.bucketOf key)
          (createEntry key 4096 now) (m.currentEntries + 1)
        obtain ⟨m', htake, hrep⟩ := hpush.takePendingRow hw.rows_bucket
          (Function.update_self c.nextEntry _ c.entries) rfl key
          (m.bucketOf key)
        refine ⟨m', ?_, ?_⟩
        · rw [← hr.nextEntry] at htake
          refine Option.bind_eq_some_iff.mpr ⟨m', htake, ?_⟩
          rw [hr.nextEntry]
          rfl
        · simpa [hr.bucketOf_eq, hcount] using hrep

/-! ## Registration -/

/-- Changing the waiters of a row in place. -/
theorem putRow
    (hr : Represents m c) (hw : c.WF) {key : CString} {b r : ℕ}
    {rpre rpost : List ℕ} {pre post : List WaiterRow} {row : RowCell}
    (hsplit : RowSplit m c key b rpre r rpost pre row post)
    (waiter : List AsyncHandle) :
    Represents
      (m.putRow r
        { row with toWaiterRow := { row.toWaiterRow with waiter := waiter } })
      { c with
        pending := Function.update c.pending b
          (pre ++ { row.toWaiterRow with waiter := waiter } :: post) } := by
  let cells := Function.update m.rowCells r
    (some { row with toWaiterRow := { row.toWaiterRow with waiter := waiter } })
  have hother : ∀ x, x ≠ r → cells x = m.rowCells x :=
    fun x hx => Function.update_of_ne hx _ _
  have hself : cells r = some
      { row with toWaiterRow := { row.toWaiterRow with waiter := waiter } } :=
    Function.update_self ..
  have hchain : Chain RowCell.next cells (m.pendingHead b)
      (rpre ++ r :: rpost) := by
    refine hsplit.chain.congr fun x _ n hn => ?_
    by_cases hx : x = r
    · subst hx
      obtain rfl := Option.some.inj (hsplit.cell.symm.trans hn)
      exact ⟨_, hself, rfl⟩
    · exact ⟨n, (hother x hx).trans hn, rfl⟩
  have hnodup := hchain.nodup
  simp only [List.nodup_append, List.nodup_cons, List.mem_cons] at hnodup
  have hfront : rpre.map (fun x => (cells x).map RowCell.toWaiterRow) =
      pre.map some := by
    rw [← hsplit.front]
    refine List.map_congr_left fun x hx => ?_
    rw [hother x fun heq => hnodup.2.2 x hx r (Or.inl rfl) heq]
    rfl
  have hback : rpost.map (fun x => (cells x).map RowCell.toWaiterRow) =
      post.map some := by
    rw [← hsplit.back]
    refine List.map_congr_left fun x hx => ?_
    rw [hother x fun heq => hnodup.2.1.1 (heq ▸ hx)]
    rfl
  have hrows : (rpre ++ r :: rpost).map
      (fun x => (cells x).map RowCell.toWaiterRow) =
        (pre ++ { row.toWaiterRow with waiter := waiter } :: post).map some := by
    rw [List.map_append, List.map_cons, hfront, hback, hself, List.map_append]
    rfl
  have hset := hr.setRows hw.rows_bucket b m.nextRow hchain hrows ?_ ?_
  · simpa [Memory.putRow, cells] using hset
  · intro x xrow hxrow hne
    rw [hother x, hxrow]
    rintro rfl
    apply hne
    obtain rfl := Option.some.inj (hsplit.cell.symm.trans hxrow)
    exact hw.rows_bucket b _ (by simp [hsplit.pending])
  · intro x xrow hxrow
    by_cases hx : x = r
    · exact hr.rowFresh x row (hx ▸ hsplit.cell)
    · exact hr.rowFresh x xrow ((hother x hx).symm.trans hxrow)

/-- A new row cell at the head of a pending table. -/
theorem pushRow
    (hr : Represents m c) (hw : c.WF) (b : ℕ) (row : WaiterRow) :
    Represents
      { m.putRow m.nextRow { toWaiterRow := row, next := m.pendingHead b } with
        pendingHead := Function.update m.pendingHead b (some m.nextRow)
        nextRow := m.nextRow + 1 }
      { c with
        pending := Function.update c.pending b (row :: c.pending b) } := by
  obtain ⟨rs, hchain, hspell⟩ := hr.rows b
  let cells := Function.update m.rowCells m.nextRow
    (some { toWaiterRow := row, next := m.pendingHead b })
  have hother : ∀ x, x ≠ m.nextRow → cells x = m.rowCells x :=
    fun x hx => Function.update_of_ne hx _ _
  have hself : cells m.nextRow =
      some { toWaiterRow := row, next := m.pendingHead b } :=
    Function.update_self ..
  have hold : m.nextRow ∉ rs := by
    intro hmem
    obtain ⟨row', hrow'⟩ := hchain.exists_cell hmem
    exact (hr.rowFresh _ row' hrow').ne rfl
  have hrest : rs.map (fun x => (cells x).map RowCell.toWaiterRow) =
      (c.pending b).map some := by
    rw [← hspell]
    refine List.map_congr_left fun x hx => ?_
    rw [hother x fun heq => hold (heq ▸ hx)]
    rfl
  have hrows : (m.nextRow :: rs).map
      (fun x => (cells x).map RowCell.toWaiterRow) =
        (row :: c.pending b).map some := by
    rw [List.map_cons, List.map_cons, hrest, hself]
    rfl
  have hset := hr.setRows hw.rows_bucket b (m.nextRow + 1)
    (hchain.push hold hself rfl hother) hrows ?_ ?_
  · exact hset
  · intro x xrow hxrow _
    rw [hother x (hr.rowFresh x xrow hxrow).ne, hxrow]
  · intro x xrow hxrow
    by_cases hx : x = m.nextRow
    · omega
    · have hlt := hr.rowFresh x xrow ((hother x hx).symm.trans hxrow)
      omega

theorem cacheRegisterWaiter
    (hr : Represents m c) (hw : c.WF) (key : CString) (h : AsyncHandle)
    (ok : Bool) :
    ∃ m', m.cacheRegisterWaiter key h ok =
        some ((c.registerWaiter key h ok).1, m') ∧
      Represents m' (c.registerWaiter key h ok).2 := by
  unfold Memory.cacheRegisterWaiter Cache.registerWaiter
  rcases hr.scanEntries_key hw key with
    ⟨prev, a, cell, hscan, hcell, hfind⟩ | ⟨last, hscan, hfind⟩
  · simp only [hscan, hfind, hcell, Option.bind_eq_bind, Option.bind_some]
    exact ⟨_, rfl, hr.putCell hcell _⟩
  · simp only [hscan, hfind, Option.bind_eq_bind, Option.bind_some]
    rw [← hr.bucketOf_eq]
    rcases hr.scanRows_cases key (m.bucketOf key) with
      ⟨rpre, r, rpost, pre, row, post, hsplit, hrows⟩ | ⟨last', hrows, hnone⟩
    · have hadd : Cache.addToRow key h (c.pending (m.bucketOf key)) =
          some (pre ++ { row.toWaiterRow with waiter := h :: row.waiter } ::
            post) := by
        rw [hsplit.pending]
        exact Cache.addToRow_split hsplit.key_ne hsplit.key_eq
      simp only [hrows, hadd, hsplit.cell, Option.bind_some]
      refine ⟨_, rfl, ?_⟩
      exact hr.putRow hw hsplit _
    · have hadd := Cache.addToRow_missing (h := h) hnone
      simp only [hrows, hadd, Option.bind_some]
      cases ok with
      | false => exact ⟨m, rfl, hr⟩
      | true =>
          refine ⟨_, rfl, ?_⟩
          exact hr.pushRow hw _ _

theorem cacheUnregisterWaiter
    (hr : Represents m c) (hw : c.WF) (key : CString) (h : AsyncHandle) :
    ∃ m', m.cacheUnregisterWaiter key h =
        some ((c.unregisterWaiter key h).1, m') ∧
      Represents m' (c.unregisterWaiter key h).2 := by
  unfold Memory.cacheUnregisterWaiter Cache.unregisterWaiter
  rcases hr.scanEntries_key hw key with
    ⟨prev, a, cell, hscan, hcell, hfind⟩ | ⟨last, hscan, hfind⟩
  · simp only [hscan, hfind, hcell, Option.bind_eq_bind, Option.bind_some]
    exact ⟨_, rfl, hr.putCell hcell _⟩
  · simp only [hscan, hfind, Option.bind_eq_bind, Option.bind_some]
    exact ⟨m, rfl, hr⟩

end Represents

end Proxy
end OsFifthSem
