import OsFifthSem.Proxy.Cache.Calls
import OsFifthSem.Proxy.Cache.Store
import OsFifthSem.Proxy.Cache.Waiters

/-!
# The store that some keys see

The cache, restricted to the entries of a set of keys, is read as a store, and
each way of writing the cache is read as a way of writing the store.  Writing
an entry of another key is not seen.
-/

namespace OsFifthSem
namespace Proxy

open Support

/-- What the store keeps of an entry. -/
def Entry.response (e : Entry) : Response :=
  ⟨e.key, e.isLoading, e.data, e.lastAccessed⟩

namespace Cache

/-- The store that these keys see. -/
def shows (c : Cache) (keys : CString → Bool) : Store where
  entryOf := fun key =>
    if keys key then (c.findEntry key).map Prod.fst else none
  response := fun a =>
    ((c.entries a).map Entry.response).filter fun r => keys r.key
  defaultTtl := c.defaultTtl

variable {c c' : Cache} {keys : CString → Bool} {key : CString} {a : ℕ}
  {e e' : Entry}

/-! ## Reading the store -/

variable (keys) in
theorem shows_response (he : c.entries a = some e) :
    (c.shows keys).response a = if keys e.key then some e.response else none := by
  simp only [shows, he, Option.map_some, Option.filter_some]
  rfl

theorem shows_find_none
    (hkey : keys key = true) (hfind : c.findEntry key = none) :
    (c.shows keys).find key = none := by
  simp [Store.find, shows, hkey, hfind]

theorem shows_find_some
    (hkey : keys key = true) (hfind : c.findEntry key = some (a, e)) :
    (c.shows keys).find key = some (a, e.response) := by
  obtain ⟨-, he, hek⟩ := findEntry_eq_some hfind
  have hresponse := shows_response keys he
  rw [hek, if_pos hkey] at hresponse
  have hentry : (c.shows keys).entryOf key = some a := by
    simp [shows, hkey, hfind]
  rw [Store.find, hentry, Option.bind_some, hresponse, Option.map_some]

/-! ## Writing the store -/

variable (keys) in
/-- An entry is rewritten in place. -/
theorem shows_putEntry
    (he : c.entries a = some e) (hkey : e'.key = e.key) :
    (c.putEntry a e').shows keys =
      if keys e.key then (c.shows keys).put a e'.response
      else c.shows keys := by
  have hfind : ∀ k, ((c.putEntry a e').findEntry k).map Prod.fst =
      (c.findEntry k).map Prod.fst := by
    intro k
    rw [findEntry_putEntry he hkey, Option.map_map]
    rfl
  have hother : ∀ x, x ≠ a → (c.putEntry a e').entries x = c.entries x :=
    fun x hx => Function.update_of_ne hx _ _
  have hself : (c.putEntry a e').entries a = some e' :=
    Function.update_self ..
  split
  next hkeys =>
    refine Store.ext ?_ ?_ rfl
    · funext k
      simp only [shows, Store.put, hfind]
    · funext x
      by_cases hx : x = a
      · subst hx
        rw [shows_response keys hself, hkey, if_pos hkeys]
        simp only [Store.put, Function.update_self]
      · simp only [shows, Store.put, Function.update_of_ne hx, hother x hx]
  next hkeys =>
    refine Store.ext ?_ ?_ rfl
    · funext k
      simp only [shows, hfind]
    · funext x
      by_cases hx : x = a
      · subst hx
        rw [shows_response keys hself, shows_response keys he, hkey, if_neg hkeys,
          if_neg hkeys]
      · simp only [shows, hother x hx]

variable (keys) in
/-- An entry is read. -/
theorem shows_touched (he : c.entries a = some e) (now : ℤ) :
    (c.putEntry a { e with lastAccessed := now }).shows keys =
      if keys e.key then
        (c.shows keys).put a { e.response with lastAccessed := now }
      else c.shows keys :=
  shows_putEntry keys he rfl

/-- Neither the chains nor what the store keeps of the entries changes. -/
theorem shows_congr
    (hsame : c.SameChains c') (hentries : c'.entries = c.entries) :
    c'.shows keys = c.shows keys := by
  have hfind : ∀ k, c'.findEntry k = c.findEntry k := by
    intro k
    simp only [findEntry, bucketOf, hsame.chain, hsame.numBuckets, hentries]
  refine Store.ext ?_ ?_ hsame.defaultTtl
  · funext k
    simp only [shows, hfind]
  · funext x
    simp only [shows, hentries]

/-- The counters are not shown. -/
theorem shows_counters (c : Cache) (hits misses : UInt64) :
    Cache.shows { c with hits := hits, misses := misses } keys =
      c.shows keys :=
  shows_congr ⟨rfl, rfl, rfl, rfl, rfl, rfl⟩ rfl

/-- The waiters of an entry change. -/
theorem shows_waiters
    (he : c.entries a = some e) (l : List AsyncHandle) :
    (c.putEntry a { e with waitingClients := l }).shows keys =
      c.shows keys := by
  have hkey : ({ e with waitingClients := l } : Entry).key = e.key := rfl
  rw [shows_putEntry keys he hkey]
  split
  next hkeys =>
    refine Store.ext rfl ?_ rfl
    refine Function.update_eq_self_iff.mpr ?_
    rw [shows_response keys he, if_pos hkeys]
    rfl
  next => rfl

/-- A new entry. -/
theorem shows_created
    (hw : c.WF) (now : ℤ) (hfind : c.findEntry key = none) :
    (c.created key now).shows keys =
      if keys key then (c.shows keys).create key c.nextEntry now
      else c.shows keys := by
  have hnew := hw.findEntry_created_self now hfind
  have hother : ∀ k, k ≠ key →
      (c.created key now).findEntry k = c.findEntry k :=
    fun k hk => hw.findEntry_created_of_ne now hfind hk
  have hentries : ∀ x, x ≠ c.nextEntry →
      (c.created key now).entries x = c.entries x :=
    fun x hx => created_entries_of_ne hx
  split
  next hkeys =>
    refine Store.ext ?_ ?_ rfl
    · funext k
      by_cases hk : k = key
      · subst hk
        simp [shows, Store.create, hkeys, hnew]
      · simp [shows, Store.create, hk, hother k hk]
    · funext x
      by_cases hx : x = c.nextEntry
      · subst hx
        rw [shows_response keys (created_entries_new c key now)]
        simp [Store.create, newEntry, createEntry, hkeys, Entry.response]
      · simp [shows, Store.create, hx, hentries x hx]
  next hkeys =>
    refine Store.ext ?_ ?_ rfl
    · funext k
      by_cases hk : k = key
      · subst hk
        simp [shows, hkeys]
      · simp [shows, hother k hk]
    · funext x
      by_cases hx : x = c.nextEntry
      · subst hx
        rw [shows_response keys (created_entries_new c key now)]
        simp [newEntry, createEntry, hkeys, shows, hw.entries_nextEntry]
      · simp [shows, hentries x hx]

variable (keys) in
/-- An entry is unlinked and freed. -/
theorem shows_removeEntry
    (hw : c.WF) (hmem : a ∈ c.chain (c.bucketOf key))
    (he : c.entries a = some e) (hkey : e.key = key) :
    (c.removeEntry (c.bucketOf key) a).shows keys =
      if keys key then (c.shows keys).remove key a else c.shows keys := by
  subst hkey
  have hfrees := hw.removeEntry_frees (c.bucketOf e.key) a
  have hw' : (c.removeEntry (c.bucketOf e.key) a).WF :=
    hw.removeEntry hmem
  have hgone : (c.removeEntry (c.bucketOf e.key) a).findEntry e.key = none := by
    rw [Option.eq_none_iff_forall_ne_some]
    rintro ⟨x, f⟩ hf
    have hback := hfrees.findEntry_back hw hw' hf
    rw [hw.findEntry_of_linked ⟨_, hmem⟩ he] at hback
    obtain ⟨rfl, -⟩ := Prod.mk.inj (Option.some.inj hback)
    obtain ⟨-, hfx, -⟩ := hw'.findEntry_eq_some_iff.mp hf
    exact absurd (hfx.symm.trans hfrees.entries_self) (by simp)
  have hother : ∀ k, k ≠ e.key →
      (c.removeEntry (c.bucketOf e.key) a).findEntry k = c.findEntry k := by
    intro k hk
    refine hfrees.findEntry_of_kept hw hw' fun x f hf =>
      ⟨?_, List.not_mem_nil⟩
    rintro rfl
    obtain ⟨-, hfx, hfk⟩ := findEntry_eq_some hf
    obtain rfl := Option.some.inj (he.symm.trans hfx)
    exact hk hfk.symm
  split
  next hkeys =>
    refine Store.ext ?_ ?_ rfl
    · funext k
      by_cases hk : k = e.key
      · subst hk
        simp [shows, Store.remove, hgone]
      · simp [shows, Store.remove, hk, hother k hk]
    · funext x
      by_cases hx : x = a
      · subst hx
        simp [shows, Store.remove, hfrees.entries_self]
      · simp [shows, Store.remove, hx, hfrees.entries_of_ne hx]
  next hkeys =>
    refine Store.ext ?_ ?_ rfl
    · funext k
      by_cases hk : k = e.key
      · subst hk
        simp [shows, hkeys]
      · simp [shows, hother k hk]
    · funext x
      by_cases hx : x = a
      · subst hx
        rw [shows_response keys he, if_neg hkeys]
        simp [shows, hfrees.entries_self]
      · simp [shows, hfrees.entries_of_ne hx]

/-! ## The collector -/

/-- A sweep keeps the entries that it neither skips nor frees. -/
theorem mem_sweep
    {loading expired : ℕ → Bool} {skipped rest : List ℕ} {x : ℕ}
    (hx : x ∈ rest) (hload : loading x = false) (hexp : expired x = false) :
    x ∈ sweep loading expired skipped rest := by
  induction rest generalizing skipped with
  | nil => cases hx
  | cons y rest ih =>
      simp only [sweep]
      rcases List.mem_cons.mp hx with rfl | hmem
      · simp [hload, hexp]
      · split
        · exact ih hmem
        · split
          · exact ih hmem
          · exact List.mem_append_right _ (List.mem_cons_of_mem _ (ih hmem))

/-- No linked entry has the key. -/
def lacks (c : Cache) (key : CString) : Bool :=
  (c.findEntry key).isNone

theorem isExpired_eq (he : c.entries a = some e) (now : ℤ) :
    c.isExpired now a = e.response.expired c.defaultTtl now := by
  simp only [isExpired, he, Option.any_some]
  rfl

/-- What a search finds behind the collector. -/
theorem cleanExpired_findEntry
    (hw : c.WF) {now : ℤ} (hclean : c.cleanExpired now = some c')
    (hfind : c.findEntry key = some (a, e)) :
    c'.findEntry key =
      if e.response.expired c.defaultTtl now || e.isLoading && c'.lacks key then
        none
      else some (a, e) := by
  have hswept := hw.swept hclean
  obtain ⟨hmem, he, hkey⟩ := findEntry_eq_some hfind
  have hback : ∀ x f, c'.findEntry key = some (x, f) →
      x = a ∧ f = e ∧ c.isExpired now a = false := by
    intro x f hf
    obtain ⟨⟨b, hb⟩, hfx, hfk⟩ := hswept.wf.findEntry_eq_some_iff.mp hf
    have hkept := (hw.cleanExpired_chain_sublist hclean b).subset hb
    obtain ⟨hxb, hfresh⟩ := List.mem_filter.mp hkept
    rw [hswept.entries, if_neg fun h => by simp [h.2] at hfresh] at hfx
    have hx := hw.findEntry_eq_some_iff.mpr ⟨⟨b, hxb⟩, hfx, hfk⟩
    rw [hfind] at hx
    obtain ⟨rfl, rfl⟩ := Prod.mk.inj (Option.some.inj hx)
    exact ⟨rfl, rfl, by simpa using hfresh⟩
  have hexp := isExpired_eq he now
  split
  next hgone =>
    rw [Option.eq_none_iff_forall_ne_some]
    rintro ⟨x, f⟩ hf
    obtain ⟨rfl, rfl, hfresh⟩ := hback x f hf
    rw [← hexp, hfresh, Bool.false_or, Bool.and_eq_true] at hgone
    simp [lacks, hf] at hgone
  next hstays =>
    rw [Bool.or_eq_true, not_or, ← hexp, Bool.not_eq_true] at hstays
    obtain ⟨hfresh, hlost⟩ := hstays
    cases hload : e.isLoading with
    | true =>
        rw [hload, Bool.true_and] at hlost
        cases hf : c'.findEntry key with
        | none => simp [lacks, hf] at hlost
        | some p =>
            obtain ⟨x, f⟩ := p
            obtain ⟨rfl, rfl, -⟩ := hback x f hf
            rfl
    | false =>
        refine hswept.wf.findEntry_eq_some_iff.mpr
          ⟨⟨c.bucketOf key, ?_⟩, ?_, hkey⟩
        · rw [hswept.chain, if_pos (hw.lt_of_mem_chain hmem)]
          exact mem_sweep hmem (by simp [isLoadingAt, he, hload]) hfresh
        · rw [hswept.entries, if_neg fun h => by simp [hfresh] at h, he]

theorem cleanExpired_findEntry_none
    (hw : c.WF) {now : ℤ} (hclean : c.cleanExpired now = some c')
    (hfind : c.findEntry key = none) : c'.findEntry key = none := by
  have hswept := hw.swept hclean
  rw [Option.eq_none_iff_forall_ne_some]
  rintro ⟨x, f⟩ hf
  obtain ⟨⟨b, hb⟩, hfx, hfk⟩ := hswept.wf.findEntry_eq_some_iff.mp hf
  obtain ⟨hxb, hfresh⟩ :=
    List.mem_filter.mp ((hw.cleanExpired_chain_sublist hclean b).subset hb)
  rw [hswept.entries, if_neg fun h => by simp [h.2] at hfresh] at hfx
  have hx := hw.findEntry_eq_some_iff.mpr ⟨⟨b, hxb⟩, hfx, hfk⟩
  simp [hfind] at hx

/-- The key of an entry leads to it when it is linked. -/
theorem shows_entryOf_iff
    (hw : c.WF) (he : c.entries a = some e) (hkey : keys e.key = true) :
    (c.shows keys).entryOf e.key = some a ↔
      ∃ b < c.numBuckets, a ∈ c.chain b := by
  simp only [shows, hkey, if_true]
  constructor
  · intro h
    obtain ⟨⟨x, f⟩, hf, rfl⟩ := Option.map_eq_some_iff.mp h
    obtain ⟨⟨b, hb⟩, -⟩ := hw.findEntry_eq_some_iff.mp hf
    exact ⟨b, hw.lt_of_mem_chain hb, hb⟩
  · rintro ⟨b, -, hb⟩
    rw [hw.findEntry_of_linked ⟨b, hb⟩ he]
    rfl

theorem shows_cleanExpired
    (hw : c.WF) {now : ℤ} (hclean : c.cleanExpired now = some c') :
    c'.shows keys = (c.shows keys).collect now c'.lacks := by
  have hswept := hw.swept hclean
  refine Store.ext ?_ ?_ hswept.defaultTtl
  · funext k
    change (if keys k then (c'.findEntry k).map Prod.fst else none) =
      ((c.shows keys).find k).bind _
    by_cases hk : keys k = true
    · rw [if_pos hk]
      cases hfind : c.findEntry k with
      | none =>
          rw [cleanExpired_findEntry_none hw hclean hfind,
            shows_find_none hk hfind]
          rfl
      | some p =>
          obtain ⟨a, e⟩ := p
          rw [cleanExpired_findEntry hw hclean hfind, shows_find_some hk hfind,
            Option.bind_some]
          change _ = if e.response.expired c.defaultTtl now ||
            e.isLoading && c'.lacks k then none else some a
          split <;> rfl
    · simp [shows, Store.find, hk]
  · funext x
    change (((c'.entries x).map Entry.response).filter _) =
      ((c.shows keys).response x).filter _
    rw [hswept.entries]
    cases he : c.entries x with
    | none => simp [shows, he]
    | some e =>
        rw [shows_response keys he, isExpired_eq he]
        by_cases hk : keys e.key = true
        · have hiff := shows_entryOf_iff hw he hk
          have hkr : keys e.response.key = true := hk
          have hkey : e.response.key = e.key := rfl
          simp only [hk, if_true, Option.filter_some, hkey, hiff]
          by_cases hexp : e.response.expired c.defaultTtl now = true <;>
            by_cases hlinked : ∃ b < c.numBuckets, x ∈ c.chain b <;>
              simp [hexp, hlinked, hkr, shows]
        · have hkr : keys e.response.key = false := (Bool.not_eq_true _).mp hk
          rw [if_neg hk]
          split <;> simp [hkr]

end Cache

end Proxy
end OsFifthSem
