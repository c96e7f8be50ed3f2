import OsFifthSem.Proxy.Cache.Contents

/-!
# Handles that wait for a key

A handle waits for a key when it is linked among the waiters of the key's
entry, or, while the key has no entry, in the key's row of the pending table.
It goes on waiting until it is unregistered, its entry leaves the chain, or
its row is lost when the entry of another key is created.
-/

namespace OsFifthSem
namespace Proxy

open Support

namespace Cache

/-- The handle is linked among the waiters of the key. -/
def Waits (c : Cache) (key : CString) (h : AsyncHandle) : Prop :=
  match c.findEntry key with
  | some (_, e) => h ∈ e.waitingClients
  | none => ∃ row ∈ c.pending (c.bucketOf key), row.key = key ∧ h ∈ row.waiter

variable {c c' : Cache} {key : CString} {h : AsyncHandle}

theorem waits_of_found
    {a : ℕ} {e : Entry} (hfind : c.findEntry key = some (a, e)) :
    c.Waits key h ↔ h ∈ e.waitingClients := by
  unfold Waits
  rw [hfind]

theorem waits_of_missing (hfind : c.findEntry key = none) :
    c.Waits key h ↔
      ∃ row ∈ c.pending (c.bucketOf key), row.key = key ∧ h ∈ row.waiter := by
  unfold Waits
  rw [hfind]

/-! ## Rows of a pending table -/

theorem exists_mem_of_addToRow
    {rows rows' : List WaiterRow} (hadd : addToRow key h rows = some rows') :
    ∃ row ∈ rows', row.key = key ∧ h ∈ row.waiter := by
  induction rows generalizing rows' with
  | nil => cases hadd
  | cons r rows ih =>
      simp only [addToRow] at hadd
      split at hadd
      next hkey =>
        obtain rfl := Option.some.inj hadd
        exact ⟨_, List.mem_cons_self, hkey, List.mem_cons_self⟩
      next =>
        obtain ⟨rows'', hrest, rfl⟩ := Option.map_eq_some_iff.mp hadd
        obtain ⟨row, hmem, hrow⟩ := ih hrest
        exact ⟨row, List.mem_cons_of_mem r hmem, hrow⟩

/-- Adding a waiter to a row takes no waiter out of any row. -/
theorem exists_row_of_addToRow
    {rows rows' : List WaiterRow} (hadd : addToRow key h rows = some rows')
    {row : WaiterRow} (hrow : row ∈ rows) :
    ∃ row' ∈ rows', row'.key = row.key ∧ row.waiter ⊆ row'.waiter := by
  induction rows generalizing rows' with
  | nil => cases hadd
  | cons r rows ih =>
      simp only [addToRow] at hadd
      split at hadd
      next hkey =>
        obtain rfl := Option.some.inj hadd
        rcases List.mem_cons.mp hrow with rfl | hmem
        · exact ⟨_, List.mem_cons_self, rfl, List.subset_cons_self _ _⟩
        · exact ⟨row, List.mem_cons_of_mem _ hmem, rfl, List.Subset.refl _⟩
      next =>
        obtain ⟨rows'', hrest, rfl⟩ := Option.map_eq_some_iff.mp hadd
        rcases List.mem_cons.mp hrow with rfl | hmem
        · exact ⟨row, List.mem_cons_self, rfl, List.Subset.refl _⟩
        · obtain ⟨row', hmem', hrow'⟩ := ih hrest hmem
          exact ⟨row', List.mem_cons_of_mem r hmem', hrow'⟩

theorem takeRow_fst
    {rows : List WaiterRow} (hnodup : (rows.map WaiterRow.key).Nodup)
    {row : WaiterRow} (hrow : row ∈ rows) (hkey : row.key = key) :
    (takeRow key rows).1 = row.waiter := by
  induction rows with
  | nil => cases hrow
  | cons r rows ih =>
      rw [List.map_cons, List.nodup_cons] at hnodup
      simp only [takeRow]
      rcases List.mem_cons.mp hrow with rfl | hmem
      · rw [if_pos hkey]
      · have hne : r.key ≠ key := by
          rintro rfl
          exact hnodup.1 (hkey ▸ List.mem_map_of_mem hmem)
        rw [if_neg hne]
        exact ih hnodup.2 hmem

theorem handOver_fst
    {rows : List WaiterRow} (hnodup : (rows.map WaiterRow.key).Nodup)
    {row : WaiterRow} (hrow : row ∈ rows) (hkey : row.key = key) :
    (handOver key rows).1 = row.waiter := by
  have htake := takeRow_fst hnodup hrow hkey
  cases rows with
  | nil => cases hrow
  | cons r rows =>
      simp only [takeRow] at htake
      simp only [handOver]
      split at htake
      next hr => rw [if_pos hr, ← htake]
      next hr => rw [if_neg hr, ← htake]

theorem mem_takeRow_of_ne
    {rows : List WaiterRow} {row : WaiterRow} (hrow : row ∈ rows)
    (hkey : row.key ≠ key) : row ∈ (takeRow key rows).2 := by
  induction rows with
  | nil => cases hrow
  | cons r rows ih =>
      simp only [takeRow]
      rcases List.mem_cons.mp hrow with rfl | hmem
      · rw [if_neg hkey]
        exact List.mem_cons_self
      · split
        · exact hmem
        · exact List.mem_cons_of_mem r (ih hmem)

/-- A row of another key stays in the table, unless it lies behind the row of
the key at the head. -/
theorem mem_handOver_of_ne
    {rows : List WaiterRow} {row : WaiterRow} (hrow : row ∈ rows)
    (hkey : row.key ≠ key)
    (hhead : ∀ r rest, rows = r :: rest → r.key = key → row ∉ rest) :
    row ∈ (handOver key rows).2 := by
  cases rows with
  | nil => cases hrow
  | cons r rows =>
      simp only [handOver]
      rcases List.mem_cons.mp hrow with rfl | hmem
      · rw [if_neg hkey]
        exact List.mem_cons_self
      · have hr : r.key ≠ key := fun hr => hhead r rows rfl hr hmem
        rw [if_neg hr]
        exact List.mem_cons_of_mem r (mem_takeRow_of_ne hmem hkey)

/-! ## The operations -/

theorem Waits.putEntry
    (hw : c.Waits key h) {a : ℕ} {e e' : Entry} (he : c.entries a = some e)
    (hkey : e'.key = e.key)
    (hsub : h ∈ e.waitingClients → h ∈ e'.waitingClients) :
    (c.putEntry a e').Waits key h := by
  have hput := findEntry_putEntry he hkey key
  cases hfind : c.findEntry key with
  | none =>
      rw [hfind] at hput
      exact (waits_of_missing hput).mpr ((waits_of_missing hfind).mp hw)
  | some p =>
      obtain ⟨x, f⟩ := p
      have hmem := (waits_of_found hfind).mp hw
      rw [hfind] at hput
      refine (waits_of_found hput).mpr ?_
      by_cases hx : x = a
      · subst hx
        obtain rfl := Option.some.inj
          (he.symm.trans (findEntry_eq_some hfind).2.1)
        simpa using hsub hmem
      · simpa [hx] using hmem

theorem Waits.setPending
    (hw : c.Waits key h) {pending : ℕ → List WaiterRow}
    (hrows : ∀ row ∈ c.pending (c.bucketOf key), row.key = key →
      h ∈ row.waiter →
        ∃ row' ∈ pending (c.bucketOf key), row'.key = key ∧ h ∈ row'.waiter) :
    Waits { c with pending := pending } key h := by
  cases hfind : c.findEntry key with
  | none =>
      obtain ⟨row, hmem, hkey, hrow⟩ := (waits_of_missing hfind).mp hw
      exact (waits_of_missing (c := { c with pending := pending }) hfind).mpr
        (hrows row hmem hkey hrow)
  | some p =>
      exact (waits_of_found (c := { c with pending := pending }) hfind).mpr
        ((waits_of_found hfind).mp hw)

theorem waits_setRows
    (hfind : c.findEntry key = none) {rows : List WaiterRow}
    (hrow : ∃ row ∈ rows, row.key = key ∧ h ∈ row.waiter) :
    Waits { c with pending := Function.update c.pending (c.bucketOf key) rows }
      key h := by
  refine (waits_of_missing (c := { c with
    pending := Function.update c.pending (c.bucketOf key) rows }) hfind).mpr ?_
  change ∃ row ∈ Function.update c.pending (c.bucketOf key) rows
    (c.bucketOf key), row.key = key ∧ h ∈ row.waiter
  rwa [Function.update_self]

/-- `cache_register_waiter` links the handle. -/
theorem waits_registerWaiter_self (c : Cache) (key : CString)
    (h : AsyncHandle) : (c.registerWaiter key h true).2.Waits key h := by
  unfold registerWaiter
  cases hfind : c.findEntry key with
  | some p =>
      obtain ⟨a, e⟩ := p
      have hput := findEntry_putEntry (findEntry_eq_some hfind).2.1
        (rfl : { e with waitingClients := h :: e.waitingClients }.key = e.key)
        key
      rw [hfind] at hput
      exact (waits_of_found hput).mpr (by simp)
  | none =>
      dsimp only
      cases hadd : addToRow key h (c.pending (c.bucketOf key)) with
      | some rows =>
          exact waits_setRows hfind (exists_mem_of_addToRow hadd)
      | none =>
          exact waits_setRows hfind ⟨⟨key, [h]⟩, List.mem_cons_self, rfl,
            List.mem_singleton_self h⟩

/-- `cache_register_waiter` unlinks nothing. -/
theorem Waits.registerWaiter
    (hw : c.Waits key h) (key' : CString) (h' : AsyncHandle) (ok : Bool) :
    (c.registerWaiter key' h' ok).2.Waits key h := by
  unfold Cache.registerWaiter
  cases hfind : c.findEntry key' with
  | some p =>
      obtain ⟨a, e⟩ := p
      exact hw.putEntry (findEntry_eq_some hfind).2.1 rfl
        (List.mem_cons_of_mem h')
  | none =>
      dsimp only
      cases hadd : addToRow key' h' (c.pending (c.bucketOf key')) with
      | some rows =>
          refine hw.setPending fun row hmem hkey hrow => ?_
          by_cases hb : c.bucketOf key = c.bucketOf key'
          · rw [hb, Function.update_self]
            obtain ⟨row', hmem', hkey', hsub⟩ :=
              exists_row_of_addToRow hadd (hb ▸ hmem)
            exact ⟨row', hmem', hkey'.trans hkey, hsub hrow⟩
          · exact ⟨row, by rwa [Function.update_of_ne hb], hkey, hrow⟩
      | none =>
          cases ok with
          | false => exact hw
          | true =>
              refine hw.setPending fun row hmem hkey hrow => ?_
              by_cases hb : c.bucketOf key = c.bucketOf key'
              · rw [hb, Function.update_self]
                exact ⟨row, List.mem_cons_of_mem _ (hb ▸ hmem), hkey, hrow⟩
              · exact ⟨row, by rwa [Function.update_of_ne hb], hkey, hrow⟩

/-- `cache_unregister_waiter` unlinks no other handle. -/
theorem Waits.unregisterWaiter
    (hw : c.Waits key h) (key' : CString) {h' : AsyncHandle} (hne : h ≠ h') :
    (c.unregisterWaiter key' h').2.Waits key h := by
  unfold Cache.unregisterWaiter
  cases hfind : c.findEntry key' with
  | some p =>
      obtain ⟨a, e⟩ := p
      exact hw.putEntry (findEntry_eq_some hfind).2.1 rfl
        (List.mem_erase_of_ne hne).mpr
  | none => exact hw

/-! ## A new entry -/

theorem WF.findEntry_created_self
    (hwf : c.WF) (now : ℤ) (hnone : c.findEntry key = none) :
    (c.created key now).findEntry key =
      some (c.nextEntry, c.newEntry key now) :=
  (hwf.created now hnone).findEntry_eq_some_iff.mpr
    ⟨created_linked.mpr (Or.inr rfl), created_entries_new c key now, rfl⟩

theorem WF.findEntry_created_of_ne
    (hwf : c.WF) {key' : CString} (now : ℤ)
    (hnone : c.findEntry key' = none) (hne : key ≠ key') :
    (c.created key' now).findEntry key = c.findEntry key := by
  have hwf' := hwf.created now hnone
  refine Option.ext fun p => ?_
  obtain ⟨a, e⟩ := p
  rw [hwf'.findEntry_eq_some_iff, hwf.findEntry_eq_some_iff, created_linked]
  constructor
  · rintro ⟨hlinked, he, hkey⟩
    have ha : a ≠ c.nextEntry := by
      rintro rfl
      rw [created_entries_new] at he
      obtain rfl := Option.some.inj he
      exact hne hkey.symm
    exact ⟨hlinked.resolve_right ha, created_entries_of_ne ha ▸ he, hkey⟩
  · rintro ⟨hlinked, he, hkey⟩
    exact ⟨Or.inl hlinked, hwf.created_entries he, hkey⟩

/-- `cache_start_loading` hands the waiters over to the new entry, and loses
only handles in rows behind the row of its key at the head of the table. -/
theorem Waits.created
    (hw : c.Waits key h) (hwf : c.WF) {key' : CString} (now : ℤ)
    (hnone : c.findEntry key' = none)
    (hhead : ∀ row rows, c.pending (c.bucketOf key') = row :: rows →
      row.key = key' → ∀ row' ∈ rows, h ∉ row'.waiter) :
    (c.created key' now).Waits key h := by
  by_cases hkey : key = key'
  · subst hkey
    obtain ⟨row, hmem, hkey, hrow⟩ := (waits_of_missing hnone).mp hw
    have hover := handOver_fst (hwf.rows_nodup _) hmem hkey
    refine (waits_of_found (hwf.findEntry_created_self now hnone)).mpr ?_
    simpa only [newEntry, hover] using hrow
  · have hsame := hwf.findEntry_created_of_ne now hnone hkey
    cases hfind : c.findEntry key with
    | some p =>
        exact (waits_of_found (hsame.trans hfind)).mpr
          ((waits_of_found hfind).mp hw)
    | none =>
        obtain ⟨row, hmem, hrowkey, hrow⟩ := (waits_of_missing hfind).mp hw
        refine (waits_of_missing (hsame.trans hfind)).mpr
          ⟨row, ?_, hrowkey, hrow⟩
        change row ∈ Function.update c.pending (c.bucketOf key')
          (handOver key' (c.pending (c.bucketOf key'))).2 (c.bucketOf key)
        by_cases hb : c.bucketOf key = c.bucketOf key'
        · rw [hb, Function.update_self]
          exact mem_handOver_of_ne (hb ▸ hmem) (hrowkey ▸ hkey)
            fun r rest hrows hr hrest => hhead r rest hrows hr row hrest hrow
        · rwa [Function.update_of_ne hb]

/-! ## Freeing an entry -/

/-- A search whose result is neither freed nor leaked. -/
theorem Frees.findEntry_of_kept
    {b a : ℕ} {leaked : List ℕ} (hfrees : c.Frees c' b a leaked) (hwf : c.WF)
    (hwf' : c'.WF) (hkept : ∀ x e, c.findEntry key = some (x, e) →
      x ≠ a ∧ x ∉ leaked) : c'.findEntry key = c.findEntry key := by
  refine Option.ext fun p => ?_
  obtain ⟨x, e⟩ := p
  constructor
  · exact hfrees.findEntry_back hwf hwf'
  · intro hfind
    obtain ⟨hmem, he, hkey⟩ := findEntry_eq_some hfind
    obtain ⟨hx, hleak⟩ := hkept x e hfind
    refine hwf'.findEntry_eq_some_iff.mpr ⟨⟨c.bucketOf key, ?_⟩, ?_, hkey⟩
    · by_cases hb : c.bucketOf key = b
      · subst hb
        exact (hfrees.mem_chain x).mpr ⟨hmem, hx, hleak⟩
      · rwa [hfrees.chain_ne _ hb]
    · rwa [hfrees.entries_of_ne hx]

theorem Waits.frees
    (hw : c.Waits key h) {b a : ℕ} {leaked : List ℕ}
    (hfrees : c.Frees c' b a leaked)
    (hsame : c'.findEntry key = c.findEntry key) : c'.Waits key h := by
  cases hfind : c.findEntry key with
  | some p =>
      exact (waits_of_found (hsame.trans hfind)).mpr
        ((waits_of_found hfind).mp hw)
  | none =>
      obtain ⟨row, hmem, hrow⟩ := (waits_of_missing hfind).mp hw
      refine (waits_of_missing (hsame.trans hfind)).mpr ⟨row, ?_, hrow⟩
      rwa [hfrees.pending, hfrees.bucketOf_eq]

end Cache

end Proxy
end OsFifthSem
