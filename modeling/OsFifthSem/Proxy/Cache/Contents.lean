import OsFifthSem.Proxy.Cache.Invariant

/-!
# What the operations do to the contents of entries

Many operations leave the key, the flag and the bytes of every entry alone;
`SameContents` says so.  The others are read as one of three edits: a new
entry, one entry rewritten in place, and one entry unlinked and freed.
-/

namespace OsFifthSem
namespace Proxy

open Support

namespace Cache

/-- The chains and, up to access times and waiters, the entries agree. -/
structure SameContents (c c' : Cache) : Prop where
  numBuckets : c'.numBuckets = c.numBuckets
  chain : c'.chain = c.chain
  nextEntry : c'.nextEntry = c.nextEntry
  forth : ∀ a e, c.entries a = some e → ∃ e', c'.entries a = some e' ∧
    e'.key = e.key ∧ e'.isLoading = e.isLoading ∧ e'.data = e.data
  back : ∀ a e', c'.entries a = some e' → ∃ e, c.entries a = some e ∧
    e'.key = e.key ∧ e'.isLoading = e.isLoading ∧ e'.data = e.data

namespace SameContents

variable {c c' : Cache}

theorem refl (c : Cache) : c.SameContents c where
  numBuckets := rfl
  chain := rfl
  nextEntry := rfl
  forth := fun _ e he => ⟨e, he, rfl, rfl, rfl⟩
  back := fun _ e he => ⟨e, he, rfl, rfl, rfl⟩

theorem bucketOf_eq (h : c.SameContents c') (key : CString) :
    c'.bucketOf key = c.bucketOf key := by
  simp [bucketOf, h.numBuckets]

theorem linked_iff (h : c.SameContents c') {a : ℕ} :
    c'.Linked a ↔ c.Linked a := by
  simp [Linked, h.chain]

theorem findEntry
    (h : c.SameContents c') (hw : c.WF) (hw' : c'.WF) {key : CString} {a : ℕ}
    {e : Entry} (hfind : c.findEntry key = some (a, e)) :
    ∃ e', c'.findEntry key = some (a, e') ∧
      e'.isLoading = e.isLoading ∧ e'.data = e.data := by
  obtain ⟨hlinked, he, hkey⟩ := hw.findEntry_eq_some_iff.mp hfind
  obtain ⟨e', he', hkey', hload, hdata⟩ := h.forth a e he
  exact ⟨e', hw'.findEntry_eq_some_iff.mpr
    ⟨h.linked_iff.mpr hlinked, he', hkey'.trans hkey⟩, hload, hdata⟩

theorem findEntry_back
    (h : c.SameContents c') (hw : c.WF) (hw' : c'.WF) {key : CString} {a : ℕ}
    {e' : Entry} (hfind : c'.findEntry key = some (a, e')) :
    ∃ e, c.findEntry key = some (a, e) ∧
      e'.isLoading = e.isLoading ∧ e'.data = e.data := by
  obtain ⟨hlinked, he', hkey⟩ := hw'.findEntry_eq_some_iff.mp hfind
  obtain ⟨e, he, hkey', hload, hdata⟩ := h.back a e' he'
  exact ⟨e, hw.findEntry_eq_some_iff.mpr
    ⟨h.linked_iff.mp hlinked, he, hkey'.symm.trans hkey⟩, hload, hdata⟩

/-- Rewriting an entry without changing its contents. -/
theorem putEntry
    {a : ℕ} {e e' : Entry} (he : c.entries a = some e)
    (hkey : e'.key = e.key) (hload : e'.isLoading = e.isLoading)
    (hdata : e'.data = e.data) : c.SameContents (c.putEntry a e') where
  numBuckets := rfl
  chain := rfl
  nextEntry := rfl
  forth := by
    intro x f hf
    by_cases hx : x = a
    · subst hx
      obtain rfl := Option.some.inj (he.symm.trans hf)
      exact ⟨e', by simp [Cache.putEntry], hkey, hload, hdata⟩
    · exact ⟨f, by simpa [Cache.putEntry, hx] using hf, rfl, rfl, rfl⟩
  back := by
    intro x f hf
    by_cases hx : x = a
    · subst hx
      obtain rfl : e' = f := by simpa [Cache.putEntry] using hf
      exact ⟨e, he, hkey, hload, hdata⟩
    · exact ⟨f, by simpa [Cache.putEntry, hx] using hf, rfl, rfl, rfl⟩

theorem setCounters (c : Cache) (hits misses : UInt64) :
    c.SameContents { c with hits := hits, misses := misses } where
  numBuckets := rfl
  chain := rfl
  nextEntry := rfl
  forth := fun _ e he => ⟨e, he, rfl, rfl, rfl⟩
  back := fun _ e he => ⟨e, he, rfl, rfl, rfl⟩

theorem setPending (c : Cache) (pending : ℕ → List WaiterRow) :
    c.SameContents { c with pending := pending } where
  numBuckets := rfl
  chain := rfl
  nextEntry := rfl
  forth := fun _ e he => ⟨e, he, rfl, rfl, rfl⟩
  back := fun _ e he => ⟨e, he, rfl, rfl, rfl⟩

theorem registerWaiter (c : Cache) (key : CString) (h : AsyncHandle)
    (ok : Bool) : c.SameContents (c.registerWaiter key h ok).2 := by
  unfold Cache.registerWaiter
  cases hfind : c.findEntry key with
  | some p =>
      obtain ⟨a, e⟩ := p
      exact putEntry (findEntry_eq_some hfind).2.1 rfl rfl rfl
  | none =>
      dsimp only
      cases addToRow key h (c.pending (c.bucketOf key)) with
      | some rows => exact setPending c _
      | none =>
          cases ok with
          | false => exact refl c
          | true => exact setPending c _

theorem unregisterWaiter (c : Cache) (key : CString) (h : AsyncHandle) :
    c.SameContents (c.unregisterWaiter key h).2 := by
  unfold Cache.unregisterWaiter
  cases hfind : c.findEntry key with
  | some p =>
      obtain ⟨a, e⟩ := p
      exact putEntry (findEntry_eq_some hfind).2.1 rfl rfl rfl
  | none => exact refl c

end SameContents

/-- A search after an entry was rewritten in place, with the same key. -/
theorem findEntry_putEntry
    {c : Cache} {a : ℕ} {e e' : Entry} (he : c.entries a = some e)
    (hkey : e'.key = e.key) (key : CString) :
    (c.putEntry a e').findEntry key =
      (c.findEntry key).map fun p => (p.1, if p.1 = a then e' else p.2) := by
  unfold findEntry
  rw [List.map_findSome?]
  change List.findSome? _ (c.chain (c.bucketOf key)) = _
  congr 1
  funext x
  by_cases hx : x = a
  · subst hx
    simp only [putEntry, Function.update_self, he, Option.bind_some,
      Function.comp_apply, hkey]
    split <;> simp
  · simp only [putEntry, Function.update_of_ne hx, Function.comp_apply]
    cases c.entries x with
    | none => rfl
    | some f =>
        simp only [Option.bind_some]
        split <;> simp [hx]

/-! ## A new entry -/

/-- The entry that `cache_start_loading` creates. -/
def newEntry (c : Cache) (key : CString) (now : ℤ) : Entry :=
  { createEntry key 4096 now with
    waitingClients := (handOver key (c.pending (c.bucketOf key))).1 }

/-- The cache after `cache_start_loading` has created an entry. -/
def created (c : Cache) (key : CString) (now : ℤ) : Cache :=
  { c with
    currentEntries := c.currentEntries + 1
    chain := Function.update c.chain (c.bucketOf key)
      (c.nextEntry :: c.chain (c.bucketOf key))
    pending := Function.update c.pending (c.bucketOf key)
      (handOver key (c.pending (c.bucketOf key))).2
    entries := Function.update c.entries c.nextEntry
      (some (c.newEntry key now))
    nextEntry := c.nextEntry + 1 }

theorem startLoading_cases (c : Cache) (key : CString) (now : ℤ) (ok : Bool) :
    (∃ a e, c.findEntry key = some (a, e) ∧
      c.startLoading key now ok = (some a, c)) ∨
    (c.findEntry key = none ∧ ok = true ∧
      c.startLoading key now ok = (some c.nextEntry, c.created key now)) ∨
    (c.findEntry key = none ∧ ok = false ∧
      c.startLoading key now ok = (none, c)) := by
  unfold Cache.startLoading
  cases hfind : c.findEntry key with
  | some p =>
      obtain ⟨a, e⟩ := p
      exact Or.inl ⟨a, e, rfl, rfl⟩
  | none =>
      cases ok with
      | true => exact Or.inr (Or.inl ⟨rfl, rfl, rfl⟩)
      | false => exact Or.inr (Or.inr ⟨rfl, rfl, rfl⟩)

theorem WF.created
    {c : Cache} (hw : c.WF) {key : CString} (now : ℤ)
    (hfind : c.findEntry key = none) : (c.created key now).WF := by
  have hwf := hw.startLoading key now true
  rcases c.startLoading_cases key now true with
    ⟨a, e, hsome, -⟩ | ⟨-, -, heq⟩ | ⟨-, hok, -⟩
  · simp [hfind] at hsome
  · rwa [heq] at hwf
  · cases hok

theorem created_entries_of_ne
    {c : Cache} {key : CString} {now : ℤ} {a : ℕ} (ha : a ≠ c.nextEntry) :
    (c.created key now).entries a = c.entries a :=
  Function.update_of_ne ha _ _

@[simp] theorem created_entries_new (c : Cache) (key : CString) (now : ℤ) :
    (c.created key now).entries c.nextEntry = some (c.newEntry key now) :=
  Function.update_self ..

theorem WF.entries_nextEntry {c : Cache} (hw : c.WF) :
    c.entries c.nextEntry = none := by
  cases he : c.entries c.nextEntry with
  | none => rfl
  | some e => exact absurd (hw.fresh _ e he) (by omega)

/-- An entry that was there stays as it was, and stays linked. -/
theorem WF.created_entries
    {c : Cache} (hw : c.WF) {key : CString} {now : ℤ} {a : ℕ} {e : Entry}
    (he : c.entries a = some e) :
    (c.created key now).entries a = some e := by
  rw [created_entries_of_ne, he]
  rintro rfl
  rw [hw.entries_nextEntry] at he
  cases he

theorem created_linked
    {c : Cache} {key : CString} {now : ℤ} {a : ℕ} :
    (c.created key now).Linked a ↔ c.Linked a ∨ a = c.nextEntry := by
  constructor
  · rintro ⟨b, hb⟩
    by_cases hbucket : b = c.bucketOf key
    · subst hbucket
      simp only [created, Function.update_self, List.mem_cons] at hb
      exact hb.elim Or.inr fun hmem => Or.inl ⟨_, hmem⟩
    · simp only [created, Function.update_of_ne hbucket] at hb
      exact Or.inl ⟨b, hb⟩
  · rintro (⟨b, hb⟩ | rfl)
    · by_cases hbucket : b = c.bucketOf key
      · subst hbucket
        exact ⟨c.bucketOf key, by simp [created, hb]⟩
      · exact ⟨b, by simpa [created, hbucket] using hb⟩
    · exact ⟨c.bucketOf key, by simp [created]⟩

/-! ## Freeing an entry -/

/-- `a` leaves the chain of bucket `b` and is freed, and the entries of
`leaked` leave the chain without being freed. -/
structure Frees (c c' : Cache) (b a : ℕ) (leaked : List ℕ) : Prop where
  numBuckets : c'.numBuckets = c.numBuckets
  nextEntry : c'.nextEntry = c.nextEntry
  pending : c'.pending = c.pending
  entries : c'.entries = Function.update c.entries a none
  chain_ne : ∀ b', b' ≠ b → c'.chain b' = c.chain b'
  mem_chain : ∀ x, x ∈ c'.chain b ↔ x ∈ c.chain b ∧ x ≠ a ∧ x ∉ leaked

namespace Frees

variable {c c' : Cache} {b a : ℕ} {leaked : List ℕ}

theorem bucketOf_eq (h : c.Frees c' b a leaked) (key : CString) :
    c'.bucketOf key = c.bucketOf key := by
  simp [bucketOf, h.numBuckets]

theorem entries_self (h : c.Frees c' b a leaked) : c'.entries a = none := by
  rw [h.entries, Function.update_self]

theorem entries_of_ne (h : c.Frees c' b a leaked) {x : ℕ} (hx : x ≠ a) :
    c'.entries x = c.entries x := by
  rw [h.entries, Function.update_of_ne hx]

/-- An entry that is left is an entry that was there. -/
theorem entries_back
    (h : c.Frees c' b a leaked) {x : ℕ} {e : Entry}
    (he : c'.entries x = some e) : x ≠ a ∧ c.entries x = some e := by
  have hx : x ≠ a := by
    rintro rfl
    rw [h.entries_self] at he
    cases he
  exact ⟨hx, by rwa [← h.entries_of_ne hx]⟩

theorem linked_back
    (h : c.Frees c' b a leaked) {x : ℕ} (hx : c'.Linked x) : c.Linked x := by
  obtain ⟨b', hb'⟩ := hx
  by_cases hb : b' = b
  · subst hb
    exact ⟨b', ((h.mem_chain x).mp hb').1⟩
  · exact ⟨b', by rwa [← h.chain_ne b' hb]⟩

/-- In another bucket a search finds what it found. -/
theorem findEntry_of_ne
    (h : c.Frees c' b a leaked) (hw : c.WF) (hw' : c'.WF) (ha : a ∈ c.chain b)
    {key : CString} (hkey : c.bucketOf key ≠ b) {x : ℕ} {e : Entry}
    (hfind : c.findEntry key = some (x, e)) :
    c'.findEntry key = some (x, e) := by
  obtain ⟨hmem, he, hkey'⟩ := findEntry_eq_some hfind
  have hx : x ≠ a := by
    rintro rfl
    exact hkey (hw.chain_unique hmem ha)
  refine hw'.findEntry_eq_some_iff.mpr ⟨⟨c.bucketOf key, ?_⟩, ?_, hkey'⟩
  · rwa [h.chain_ne _ hkey]
  · rwa [h.entries_of_ne hx]

theorem findEntry_back
    (h : c.Frees c' b a leaked) (hw : c.WF) (hw' : c'.WF)
    {key : CString} {x : ℕ} {e : Entry}
    (hfind : c'.findEntry key = some (x, e)) :
    c.findEntry key = some (x, e) := by
  obtain ⟨hlinked, he, hkey⟩ := hw'.findEntry_eq_some_iff.mp hfind
  exact hw.findEntry_eq_some_iff.mpr
    ⟨h.linked_back hlinked, (h.entries_back he).2, hkey⟩

end Frees

theorem WF.removeEntry_frees
    {c : Cache} (hw : c.WF) (b a : ℕ) :
    c.Frees (c.removeEntry b a) b a [] where
  numBuckets := rfl
  nextEntry := rfl
  pending := rfl
  entries := rfl
  chain_ne := fun b' hb => Function.update_of_ne hb _ _
  mem_chain := by
    intro x
    simp only [Cache.removeEntry, Function.update_self,
      (hw.nodup b).mem_erase_iff, List.not_mem_nil, not_false_eq_true,
      and_true]
    exact and_comm

theorem WF.removeEntry_linked
    {c : Cache} (hw : c.WF) {a b : ℕ} (ha : a ∈ c.chain b) {x : ℕ} :
    (c.removeEntry b a).Linked x ↔ x ≠ a ∧ c.Linked x := by
  have hfrees := hw.removeEntry_frees b a
  constructor
  · rintro ⟨b', hb'⟩
    by_cases hb : b' = b
    · subst hb
      obtain ⟨hmem, hne, -⟩ := (hfrees.mem_chain x).mp hb'
      exact ⟨hne, b', hmem⟩
    · rw [hfrees.chain_ne b' hb] at hb'
      refine ⟨?_, b', hb'⟩
      rintro rfl
      exact hb (hw.chain_unique hb' ha)
  · rintro ⟨hne, b', hb'⟩
    by_cases hb : b' = b
    · subst hb
      exact ⟨b', (hfrees.mem_chain x).mpr ⟨hb', hne, List.not_mem_nil⟩⟩
    · exact ⟨b', by rwa [hfrees.chain_ne b' hb]⟩

theorem cancelLoading_cases (c : Cache) (key : CString) :
    (∃ a e, a ∈ c.chain (c.bucketOf key) ∧ c.entries a = some e ∧
      e.key = key ∧ e.isLoading = true ∧
      (c.cancelLoading key).2 = c.removeEntry (c.bucketOf key) a) ∨
    (c.findLoading key = none ∧ (c.cancelLoading key).2 = c) := by
  unfold Cache.cancelLoading
  cases hfind : c.findLoading key with
  | some a =>
      obtain ⟨hmem, e, he, hkey, hload⟩ := findLoading_eq_some hfind
      exact Or.inl ⟨a, e, hmem, he, hkey, hload, rfl⟩
  | none => exact Or.inr ⟨rfl, rfl⟩

/-- Nothing linked is loading under a key that `cache_cancel_loading` does not
find. -/
theorem WF.findLoading_eq_none
    {c : Cache} (hw : c.WF) {key : CString} (h : c.findLoading key = none)
    {a : ℕ} {e : Entry} (ha : c.Linked a) (he : c.entries a = some e)
    (hkey : e.key = key) : e.isLoading = false := by
  obtain ⟨b, hb⟩ := ha
  have hmem := hw.mem_chain_of_key hb he
  rw [hkey] at hmem
  have hnone := List.find?_eq_none.mp h a hmem
  simpa [he, hkey] using hnone

end Cache

end Proxy
end OsFifthSem
