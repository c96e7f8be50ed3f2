import OsFifthSem.Proxy.Cache.Contents

/-!
# Operations and one waiter

The operations of the cache store the handles of waiters and hand them on, but
nothing else depends on them.  `forget r` takes handle `r` out of every list
of waiters, and every operation on behalf of another request commutes with it.
-/

namespace OsFifthSem
namespace Proxy

open Support

/-- The entry without handle `r` among its waiters. -/
def Entry.forget (r : AsyncHandle) (e : Entry) : Entry :=
  { e with waitingClients := e.waitingClients.filter (· ≠ r) }

/-- The row without handle `r`. -/
def WaiterRow.forget (r : AsyncHandle) (row : WaiterRow) : WaiterRow :=
  { row with waiter := row.waiter.filter (· ≠ r) }

/-- The cache without handle `r`. -/
def Cache.forget (c : Cache) (r : AsyncHandle) : Cache :=
  { c with
    pending := fun b => (c.pending b).map (WaiterRow.forget r)
    entries := fun a => (c.entries a).map (Entry.forget r) }

section Lists

variable {α : Type*} [DecidableEq α]

theorem filter_ne_erase_self (l : List α) (a : α) :
    (l.erase a).filter (· ≠ a) = l.filter (· ≠ a) := by
  induction l with
  | nil => rfl
  | cons b l ih =>
      by_cases hb : b = a
      · subst hb
        simp
      · rw [List.erase_cons_tail (by simpa using hb)]
        simpa [hb] using ih

theorem filter_ne_erase {a b : α} (l : List α) (hab : a ≠ b) :
    (l.erase a).filter (· ≠ b) = (l.filter (· ≠ b)).erase a := by
  induction l with
  | nil => rfl
  | cons c l ih =>
      by_cases hc : c = a
      · subst hc
        simp [hab]
      · rw [List.erase_cons_tail (by simpa using hc)]
        by_cases hcb : c = b
        · simpa [hcb] using ih
        · simp only [ne_eq, hcb, not_false_eq_true, decide_true,
            List.filter_cons_of_pos]
          rw [List.erase_cons_tail (by simpa using hc), ih]

end Lists

namespace Entry

variable (r : AsyncHandle) (e : Entry)

@[simp] theorem forget_key : (e.forget r).key = e.key := rfl

@[simp] theorem forget_isLoading : (e.forget r).isLoading = e.isLoading := rfl

@[simp] theorem forget_data : (e.forget r).data = e.data := rfl

@[simp] theorem forget_allocatedSize :
    (e.forget r).allocatedSize = e.allocatedSize := rfl

theorem forget_touch (status : CacheStatus) (now : ℤ) :
    (e.forget r).touch status now = (e.touch status now).forget r := by
  unfold touch
  split <;> rfl

theorem forget_storeChunk (chunk : List UInt8) :
    (e.forget r).storeChunk chunk = (e.storeChunk chunk).map (forget r) := by
  unfold storeChunk
  rw [forget_data, forget_allocatedSize]
  split <;> rfl

theorem forget_appendData (chunk : List UInt8) (now : ℤ) (ok : Bool) :
    (e.forget r).appendData chunk now ok =
      (e.appendData chunk now ok).map fun p => (p.1, p.2.forget r) := by
  have hstore : ∀ f : Entry,
      ((f.forget r).storeChunk chunk).map (fun e => ((0 : ℤ), e)) =
        ((f.storeChunk chunk).map fun e => ((0 : ℤ), e)).map
          fun p => (p.1, p.2.forget r) := by
    intro f
    rw [forget_storeChunk]
    cases f.storeChunk chunk <;> rfl
  unfold appendData
  dsimp only [forget]
  split_ifs with hlive hfit hok
  · rfl
  · cases growSize (sizeAdd e.data.length chunk.length) 65
        e.allocatedSize with
    | none => rfl
    | some newSize =>
        exact hstore { e with lastAccessed := now, allocatedSize := newSize }
  · cases growSize (sizeAdd e.data.length chunk.length) 65
        e.allocatedSize with
    | none => rfl
    | some newSize => rfl
  · exact hstore { e with lastAccessed := now }

theorem forget_finishLoading (now : ℤ) (ok : Bool) :
    (e.forget r).finishLoading now ok =
      (e.finishLoading now ok).map (forget r) := by
  unfold finishLoading
  simp only [apply_ite (Option.map (forget r)), Option.map_none,
    Option.map_some]
  rfl

end Entry

namespace Cache

variable (c : Cache) {r : AsyncHandle}

@[simp] theorem forget_bucketOf (key : CString) :
    (c.forget r).bucketOf key = c.bucketOf key := rfl

@[simp] theorem forget_chain : (c.forget r).chain = c.chain := rfl

@[simp] theorem forget_entries (a : ℕ) :
    (c.forget r).entries a = (c.entries a).map (Entry.forget r) := rfl

theorem forget_putEntry (a : ℕ) (e : Entry) :
    (c.putEntry a e).forget r = (c.forget r).putEntry a (e.forget r) := by
  have hentries : (fun x => (Function.update c.entries a (some e) x).map
      (Entry.forget r)) = Function.update
        (fun x => (c.entries x).map (Entry.forget r)) a
          (some (e.forget r)) := by
    funext x
    by_cases hx : x = a
    · simp [hx]
    · simp [hx]
  simp only [Cache.forget, Cache.putEntry, hentries]

theorem forget_findEntry (key : CString) :
    (c.forget r).findEntry key =
      (c.findEntry key).map fun p => (p.1, p.2.forget r) := by
  unfold findEntry
  rw [forget_chain, forget_bucketOf]
  induction c.chain (c.bucketOf key) with
  | nil => rfl
  | cons a l ih =>
      cases he : c.entries a with
      | none => simpa [he] using ih
      | some e =>
          by_cases hkey : e.key = key
          · simp [he, hkey]
          · simpa [he, hkey] using ih

theorem forget_findLoading (key : CString) :
    (c.forget r).findLoading key = c.findLoading key := by
  unfold findLoading
  rw [forget_chain, forget_bucketOf]
  congr 1
  funext a
  rw [forget_entries]
  cases c.entries a <;> rfl

theorem forget_removeEntry (b a : ℕ) :
    (c.removeEntry b a).forget r = (c.forget r).removeEntry b a := by
  have hentries : (fun x => (Function.update c.entries a none x).map
      (Entry.forget r)) = Function.update
        (fun x => (c.entries x).map (Entry.forget r)) a none := by
    funext x
    by_cases hx : x = a
    · simp [hx]
    · simp [hx]
  simp only [Cache.forget, Cache.removeEntry, hentries]

theorem forget_cancelLoading (key : CString) :
    (c.cancelLoading key).2.forget r =
      ((c.forget r).cancelLoading key).2 := by
  unfold cancelLoading
  rw [forget_findLoading]
  cases c.findLoading key with
  | none => rfl
  | some a => exact forget_removeEntry c _ a

/-! ## The pending tables -/

theorem forget_takeRow (key : CString) (rows : List WaiterRow) :
    takeRow key (rows.map (WaiterRow.forget r)) =
      ((takeRow key rows).1.filter (· ≠ r),
        (takeRow key rows).2.map (WaiterRow.forget r)) := by
  induction rows with
  | nil => rfl
  | cons row rows ih =>
      by_cases hkey : row.key = key
      · simp [takeRow, WaiterRow.forget, hkey]
      · simp only [List.map_cons, takeRow, WaiterRow.forget, hkey, if_false]
        exact congrArg (fun p => (p.1, _ :: p.2)) ih

theorem forget_handOver (key : CString) (rows : List WaiterRow) :
    handOver key (rows.map (WaiterRow.forget r)) =
      ((handOver key rows).1.filter (· ≠ r),
        (handOver key rows).2.map (WaiterRow.forget r)) := by
  cases rows with
  | nil => rfl
  | cons row rows =>
      by_cases hkey : row.key = key
      · simp [handOver, WaiterRow.forget, hkey]
      · simp only [List.map_cons, handOver, WaiterRow.forget, hkey, if_false]
        exact congrArg (fun p => (p.1, _ :: p.2)) (forget_takeRow key rows)

theorem forget_addToRow
    {h : AsyncHandle} (hne : h ≠ r) (key : CString) (rows : List WaiterRow) :
    addToRow key h (rows.map (WaiterRow.forget r)) =
      (addToRow key h rows).map (List.map (WaiterRow.forget r)) := by
  induction rows with
  | nil => rfl
  | cons row rows ih =>
      by_cases hkey : row.key = key
      · simp [addToRow, WaiterRow.forget, hkey, hne]
      · have hkey' : (row.forget r).key ≠ key := hkey
        simp only [List.map_cons, addToRow, hkey, hkey', if_false, ih]
        cases addToRow key h rows <;> rfl

theorem forget_setPending (b : ℕ) (rows : List WaiterRow) :
    Cache.forget { c with pending := Function.update c.pending b rows } r =
      { c.forget r with
        pending := Function.update (c.forget r).pending b
          (rows.map (WaiterRow.forget r)) } := by
  have hpending : (fun x => (Function.update c.pending b rows x).map
      (WaiterRow.forget r)) = Function.update
        (fun x => (c.pending x).map (WaiterRow.forget r)) b
          (rows.map (WaiterRow.forget r)) := by
    funext x
    by_cases hx : x = b
    · simp [hx]
    · simp [hx]
  simp only [Cache.forget, hpending]

theorem forget_registerWaiter
    {h : AsyncHandle} (hne : h ≠ r) (key : CString) (ok : Bool) :
    (c.registerWaiter key h ok).2.forget r =
      ((c.forget r).registerWaiter key h ok).2 := by
  unfold registerWaiter
  rw [forget_findEntry]
  cases hfind : c.findEntry key with
  | some p =>
      obtain ⟨a, e⟩ := p
      refine (forget_putEntry c a _).trans ?_
      simp [Entry.forget, hne]
  | none =>
      have hrows : addToRow key h ((c.forget r).pending (c.bucketOf key)) = _ :=
        forget_addToRow hne key (c.pending (c.bucketOf key))
      simp only [Option.map_none, forget_bucketOf, hrows]
      cases haddRow : addToRow key h (c.pending (c.bucketOf key)) with
      | some rows => exact forget_setPending c _ rows
      | none =>
          cases ok with
          | false => rfl
          | true =>
              refine (forget_setPending c _ _).trans ?_
              simp [WaiterRow.forget, hne, Cache.forget]

theorem forget_unregisterWaiter
    {h : AsyncHandle} (hne : h ≠ r) (key : CString) :
    (c.unregisterWaiter key h).2.forget r =
      ((c.forget r).unregisterWaiter key h).2 := by
  unfold unregisterWaiter
  rw [forget_findEntry]
  cases hfind : c.findEntry key with
  | none => rfl
  | some p =>
      obtain ⟨a, e⟩ := p
      refine (forget_putEntry c a _).trans ?_
      simp only [Option.map_some, Entry.forget, filter_ne_erase _ hne]

/-- Unregistering handle `r` itself leaves nothing to be seen. -/
theorem forget_unregisterWaiter_self (key : CString) :
    (c.unregisterWaiter key r).2.forget r = c.forget r := by
  unfold unregisterWaiter
  cases hfind : c.findEntry key with
  | none => rfl
  | some p =>
      obtain ⟨a, e⟩ := p
      obtain ⟨-, he, -⟩ := findEntry_eq_some hfind
      refine (forget_putEntry c a _).trans ?_
      have hentries : Function.update (c.forget r).entries a
          (some (e.forget r)) = (c.forget r).entries := by
        rw [Function.update_eq_self_iff, forget_entries, he]
        rfl
      have hsame : Entry.forget r
          { e with waitingClients := e.waitingClients.erase r } =
            e.forget r := by
        simp only [Entry.forget, filter_ne_erase_self]
      rw [hsame, Cache.putEntry, hentries]

theorem forget_created (key : CString) (now : ℤ) :
    (c.created key now).forget r = (c.forget r).created key now := by
  have hover := forget_handOver (r := r) key (c.pending (c.bucketOf key))
  have hpending : (c.forget r).pending (c.bucketOf key) =
      (c.pending (c.bucketOf key)).map (WaiterRow.forget r) := rfl
  have hnew : (c.forget r).newEntry key now =
      (c.newEntry key now).forget r := by
    simp only [newEntry, forget_bucketOf, hpending, hover]
    rfl
  have hentries : (fun x => (Function.update c.entries c.nextEntry
      (some (c.newEntry key now)) x).map (Entry.forget r)) =
        Function.update (fun x => (c.entries x).map (Entry.forget r))
          c.nextEntry (some ((c.newEntry key now).forget r)) := by
    funext x
    by_cases hx : x = c.nextEntry
    · simp [hx]
    · simp [hx]
  have hrows : (fun x => (Function.update c.pending (c.bucketOf key)
      (handOver key (c.pending (c.bucketOf key))).2 x).map
        (WaiterRow.forget r)) =
      Function.update (fun x => (c.pending x).map (WaiterRow.forget r))
        (c.bucketOf key) (handOver key ((c.pending (c.bucketOf key)).map
          (WaiterRow.forget r))).2 := by
    funext x
    by_cases hx : x = c.bucketOf key
    · simp [hx, hover]
    · simp [hx]
  simp only [created, hnew, forget_bucketOf, hpending]
  simp only [Cache.forget, hentries, hrows]

theorem forget_startLoading (key : CString) (now : ℤ) (ok : Bool) :
    (c.forget r).startLoading key now ok =
      ((c.startLoading key now ok).1,
        (c.startLoading key now ok).2.forget r) := by
  have hfind := c.forget_findEntry (r := r) key
  rcases c.startLoading_cases key now ok with
    ⟨a, e, hsome, heq⟩ | ⟨hnone, rfl, heq⟩ | ⟨hnone, rfl, heq⟩
  · rw [heq, startLoading, hfind, hsome]
    rfl
  · rw [heq, startLoading, hfind, hnone, forget_created]
    rfl
  · rw [heq, startLoading, hfind, hnone]
    rfl

end Cache

end Proxy
end OsFifthSem
