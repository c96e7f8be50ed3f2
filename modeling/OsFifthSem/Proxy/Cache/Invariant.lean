import Mathlib.Data.List.Nodup
import OsFifthSem.Proxy.Cache.Lists

/-!
# The structure invariant of the cache

Every linked entry sits in the bucket of its own key, and a key has at most
one linked entry.  A pending row belongs to a key without an entry, and a key
has at most one row.  Each operation is an instance of three edits: changing
or dropping linked entries, pushing a new one, and editing a pending table.
-/

namespace OsFifthSem
namespace Proxy

open Support

namespace Cache

/-- The structure invariant. -/
structure WF (c : Cache) : Prop where
  buckets_pos : 0 < c.numBuckets
  linked : ∀ b a, a ∈ c.chain b →
    ∃ e, c.entries a = some e ∧ c.bucketOf e.key = b
  nodup : ∀ b, (c.chain b).Nodup
  key_unique : ∀ b a a' e e', a ∈ c.chain b → a' ∈ c.chain b →
    c.entries a = some e → c.entries a' = some e' → e.key = e'.key → a = a'
  fresh : ∀ a e, c.entries a = some e → a < c.nextEntry
  rows_nodup : ∀ b, ((c.pending b).map WaiterRow.key).Nodup
  rows_bucket : ∀ b r, r ∈ c.pending b → c.bucketOf r.key = b
  rows_missing : ∀ b r a e, r ∈ c.pending b → a ∈ c.chain b →
    c.entries a = some e → e.key ≠ r.key

/-- The address is in some chain. -/
def Linked (c : Cache) (a : ℕ) : Prop := ∃ b, a ∈ c.chain b

theorem wf_init (numBuckets : ℕ) (defaultTtl : ℤ) :
    (init numBuckets defaultTtl).WF where
  buckets_pos := by
    simp only [init, CacheFields.init]
    split <;> omega
  linked := by simp [init]
  nodup := by simp [init]
  key_unique := by simp [init]
  fresh := by simp [init]
  rows_nodup := by simp [init]
  rows_bucket := by simp [init]
  rows_missing := by simp [init]

/-! ## Searching a chain -/

theorem findEntry_eq_some
    {c : Cache} {key : CString} {a : ℕ} {e : Entry}
    (h : c.findEntry key = some (a, e)) :
    a ∈ c.chain (c.bucketOf key) ∧ c.entries a = some e ∧ e.key = key := by
  obtain ⟨x, hx, hfound⟩ := List.exists_of_findSome?_eq_some h
  obtain ⟨e', he', hif⟩ := Option.bind_eq_some_iff.mp hfound
  split_ifs at hif with hkey
  obtain ⟨rfl, rfl⟩ := Prod.mk.inj (Option.some.inj hif)
  exact ⟨hx, he', hkey⟩

theorem findEntry_eq_none
    {c : Cache} {key : CString} (h : c.findEntry key = none)
    {a : ℕ} {e : Entry} (ha : a ∈ c.chain (c.bucketOf key))
    (he : c.entries a = some e) : e.key ≠ key := by
  intro hkey
  have hnone := List.findSome?_eq_none_iff.mp h a ha
  simp [he, hkey] at hnone

theorem WF.mem_chain_of_key
    {c : Cache} (hw : c.WF) {a b : ℕ} {e : Entry} (ha : a ∈ c.chain b)
    (he : c.entries a = some e) : a ∈ c.chain (c.bucketOf e.key) := by
  obtain ⟨e', he', hb⟩ := hw.linked b a ha
  obtain rfl := Option.some.inj (he.symm.trans he')
  exact hb ▸ ha

/-- A linked entry is what a search for its key finds. -/
theorem WF.findEntry_of_linked
    {c : Cache} (hw : c.WF) {a : ℕ} {e : Entry} (ha : c.Linked a)
    (he : c.entries a = some e) : c.findEntry e.key = some (a, e) := by
  obtain ⟨b, hb⟩ := ha
  have hmem := hw.mem_chain_of_key hb he
  cases hfind : c.findEntry e.key with
  | none => exact absurd rfl (findEntry_eq_none hfind hmem he)
  | some p =>
      obtain ⟨a', e'⟩ := p
      obtain ⟨hmem', he', hkey⟩ := findEntry_eq_some hfind
      obtain rfl := hw.key_unique _ _ _ _ _ hmem hmem' he he' hkey.symm
      obtain rfl := Option.some.inj (he.symm.trans he')
      rfl

theorem WF.findEntry_eq_some_iff
    {c : Cache} (hw : c.WF) {key : CString} {a : ℕ} {e : Entry} :
    c.findEntry key = some (a, e) ↔
      c.Linked a ∧ c.entries a = some e ∧ e.key = key := by
  constructor
  · intro h
    obtain ⟨hmem, he, hkey⟩ := findEntry_eq_some h
    exact ⟨⟨_, hmem⟩, he, hkey⟩
  · rintro ⟨hlinked, he, rfl⟩
    exact hw.findEntry_of_linked hlinked he

theorem findLoading_eq_some
    {c : Cache} {key : CString} {a : ℕ} (h : c.findLoading key = some a) :
    a ∈ c.chain (c.bucketOf key) ∧
      ∃ e, c.entries a = some e ∧ e.key = key ∧ e.isLoading = true := by
  have hmem := List.mem_of_find?_eq_some h
  have htest := List.find?_some h
  cases he : c.entries a with
  | none => simp [he] at htest
  | some e =>
      simp only [he, Option.any_some, Bool.and_eq_true,
        decide_eq_true_eq] at htest
      exact ⟨hmem, e, rfl, htest⟩

/-! ## The three edits -/

/-- Changing linked entries without their keys, and dropping some of them,
keeps the invariant. -/
theorem WF.shrink
    {c c' : Cache} (hw : c.WF)
    (hbuckets : c'.numBuckets = c.numBuckets)
    (hchain : ∀ b, (c'.chain b).Sublist (c.chain b))
    (hpending : c'.pending = c.pending)
    (hkeep : ∀ b a e, a ∈ c'.chain b → c.entries a = some e →
      ∃ e', c'.entries a = some e' ∧ e'.key = e.key)
    (hfresh : ∀ a e, c'.entries a = some e → a < c'.nextEntry) :
    c'.WF := by
  have hbucket : ∀ key, c'.bucketOf key = c.bucketOf key := by
    intro key
    simp [bucketOf, hbuckets]
  -- the entry at a linked address had the same key before
  have hold : ∀ b a e', a ∈ c'.chain b → c'.entries a = some e' →
      a ∈ c.chain b ∧ ∃ e, c.entries a = some e ∧ e.key = e'.key := by
    intro b a e' ha he'
    have ha' := (hchain b).subset ha
    obtain ⟨e, he, -⟩ := hw.linked b a ha'
    obtain ⟨e'', he'', hkey⟩ := hkeep b a e ha he
    obtain rfl := Option.some.inj (he'.symm.trans he'')
    exact ⟨ha', e, he, hkey.symm⟩
  refine ⟨hbuckets ▸ hw.buckets_pos, ?_, fun b => (hw.nodup b).sublist (hchain b),
    ?_, hfresh, hpending ▸ hw.rows_nodup, ?_, ?_⟩
  · intro b a ha
    obtain ⟨e, he, hb⟩ := hw.linked b a ((hchain b).subset ha)
    obtain ⟨e', he', hkey⟩ := hkeep b a e ha he
    exact ⟨e', he', by rw [hbucket, hkey, hb]⟩
  · intro b a a' e e' ha ha' he he' hkey
    obtain ⟨hm, f, hf, hfk⟩ := hold b a e ha he
    obtain ⟨hm', f', hf', hfk'⟩ := hold b a' e' ha' he'
    exact hw.key_unique b a a' f f' hm hm' hf hf' (by rw [hfk, hfk', hkey])
  · intro b r hr
    rw [hbucket]
    exact hw.rows_bucket b r (hpending ▸ hr)
  · intro b r a e hr ha he
    obtain ⟨hm, f, hf, hfk⟩ := hold b a e ha he
    rw [← hfk]
    exact hw.rows_missing b r a f (hpending ▸ hr) hm hf

/-- Editing one pending table keeps the invariant when the new rows have
distinct keys of that bucket without an entry. -/
theorem WF.setPending
    {c : Cache} (hw : c.WF) (b : ℕ) (rows : List WaiterRow)
    (hnodup : (rows.map WaiterRow.key).Nodup)
    (hbucket : ∀ r ∈ rows, c.bucketOf r.key = b)
    (hmissing : ∀ r ∈ rows, ∀ a e, a ∈ c.chain b →
      c.entries a = some e → e.key ≠ r.key) :
    { c with pending := Function.update c.pending b rows }.WF := by
  refine ⟨hw.buckets_pos, hw.linked, hw.nodup, hw.key_unique, hw.fresh,
    ?_, ?_, ?_⟩
  · intro b'
    by_cases hb : b' = b
    · subst hb
      simpa using hnodup
    · simpa [hb] using hw.rows_nodup b'
  · intro b' r hr
    by_cases hb : b' = b
    · subst hb
      exact hbucket r (by simpa using hr)
    · exact hw.rows_bucket b' r (by simpa [hb] using hr)
  · intro b' r a e hr ha he
    by_cases hb : b' = b
    · subst hb
      exact hmissing r (by simpa using hr) a e ha he
    · exact hw.rows_missing b' r a e (by simpa [hb] using hr) ha he

/-- Pushing a new entry for a key that has neither an entry nor, any more, a
pending row keeps the invariant. -/
theorem WF.pushEntry
    {c : Cache} (hw : c.WF) {key : CString} {e : Entry} {count : UInt64}
    (hkey : e.key = key)
    (hentry : ∀ a e', a ∈ c.chain (c.bucketOf key) →
      c.entries a = some e' → e'.key ≠ key)
    (hrow : ∀ r ∈ c.pending (c.bucketOf key), r.key ≠ key) :
    { c with
      currentEntries := count
      chain := Function.update c.chain (c.bucketOf key)
        (c.nextEntry :: c.chain (c.bucketOf key))
      entries := Function.update c.entries c.nextEntry (some e)
      nextEntry := c.nextEntry + 1 }.WF := by
  have hnew : ∀ b, c.nextEntry ∉ c.chain b := by
    intro b hmem
    obtain ⟨f, hf, -⟩ := hw.linked b _ hmem
    exact absurd (hw.fresh _ f hf) (lt_irrefl _)
  have hne : ∀ b a, a ∈ c.chain b → a ≠ c.nextEntry := by
    rintro b a ha rfl
    exact hnew b ha
  -- the members of a chain after the push
  have hmem : ∀ b a, a ∈ Function.update c.chain (c.bucketOf key)
      (c.nextEntry :: c.chain (c.bucketOf key)) b →
      (a = c.nextEntry ∧ b = c.bucketOf key) ∨
        (a ≠ c.nextEntry ∧ a ∈ c.chain b) := by
    intro b a ha
    by_cases hb : b = c.bucketOf key
    · subst hb
      rcases List.mem_cons.mp (by simpa using ha) with h | h
      · exact Or.inl ⟨h, rfl⟩
      · exact Or.inr ⟨hne _ a h, h⟩
    · have ha' : a ∈ c.chain b := by simpa [hb] using ha
      exact Or.inr ⟨hne b a ha', ha'⟩
  refine ⟨hw.buckets_pos, ?_, ?_, ?_, ?_, hw.rows_nodup, hw.rows_bucket, ?_⟩
  · intro b a ha
    rcases hmem b a ha with ⟨rfl, rfl⟩ | ⟨hane, ha'⟩
    · exact ⟨e, by simp, by simp [bucketOf, hkey]⟩
    · obtain ⟨f, hf, hb⟩ := hw.linked b a ha'
      exact ⟨f, by simpa [hane] using hf, hb⟩
  · intro b
    by_cases hb : b = c.bucketOf key
    · subst hb
      simpa using ⟨hnew _, hw.nodup _⟩
    · simpa [hb] using hw.nodup b
  · intro b a a' f f' ha ha' hf hf' heq
    rcases hmem b a ha with ⟨rfl, rfl⟩ | ⟨hane, hac⟩
    · obtain rfl : e = f := by simpa using hf
      rcases hmem _ a' ha' with ⟨rfl, -⟩ | ⟨hane', hac'⟩
      · rfl
      · refine absurd ?_ (hentry a' f' hac' (by simpa [hane'] using hf'))
        rw [← heq, hkey]
    · rcases hmem b a' ha' with ⟨rfl, rfl⟩ | ⟨hane', hac'⟩
      · obtain rfl : e = f' := by simpa using hf'
        exact absurd (heq.trans hkey)
          (hentry a f hac (by simpa [hane] using hf))
      · exact hw.key_unique b a a' f f' hac hac' (by simpa [hane] using hf)
          (by simpa [hane'] using hf') heq
  · intro a f hf
    by_cases ha : a = c.nextEntry
    · subst ha
      exact Nat.lt_succ_self _
    · exact Nat.lt_succ_of_lt (hw.fresh a f (by simpa [ha] using hf))
  · intro b r a f hr ha hf
    rcases hmem b a ha with ⟨rfl, rfl⟩ | ⟨hane, ha'⟩
    · obtain rfl : e = f := by simpa using hf
      rw [hkey]
      exact (hrow r hr).symm
    · exact hw.rows_missing b r a f hr ha' (by simpa [hane] using hf)

theorem WF.putEntry
    {c : Cache} (hw : c.WF) {a : ℕ} {e e' : Entry}
    (he : c.entries a = some e) (hkey : e'.key = e.key) :
    (c.putEntry a e').WF := by
  refine hw.shrink rfl (fun b => List.Sublist.refl _) rfl ?_ ?_
  · intro b x f _ hf
    by_cases hx : x = a
    · subst hx
      obtain rfl := Option.some.inj (he.symm.trans hf)
      exact ⟨e', by simp [Cache.putEntry], hkey⟩
    · exact ⟨f, by simpa [Cache.putEntry, hx] using hf, rfl⟩
  · intro x f hf
    by_cases hx : x = a
    · subst hx
      exact hw.fresh x e he
    · exact hw.fresh x f (by simpa [Cache.putEntry, hx] using hf)

/-! ## The operations -/

/-- The counters do not matter to the invariant. -/
theorem WF.setCounters
    {c : Cache} (hw : c.WF) (size entries hits misses : UInt64) :
    { c with
      currentSize := size, currentEntries := entries
      hits := hits, misses := misses }.WF :=
  ⟨hw.buckets_pos, hw.linked, hw.nodup, hw.key_unique, hw.fresh,
    hw.rows_nodup, hw.rows_bucket, hw.rows_missing⟩

theorem WF.lookupPartial
    {c : Cache} (hw : c.WF) (key : CString) (offset maxSize : ℕ) (now : ℤ) :
    (c.lookupPartial key offset maxSize now).2.WF := by
  unfold Cache.lookupPartial
  cases hfind : c.findEntry key with
  | none => exact hw.setCounters _ _ _ _
  | some p =>
      obtain ⟨a, e⟩ := p
      obtain ⟨-, he, -⟩ := findEntry_eq_some hfind
      dsimp only
      split
      · exact (hw.putEntry he (by simp)).setCounters _ _ _ _
      · exact hw

theorem takeRow_sublist (key : CString) (rows : List WaiterRow) :
    (takeRow key rows).2.Sublist rows := by
  induction rows with
  | nil => exact List.Sublist.refl _
  | cons r rows ih =>
      simp only [takeRow]
      split
      · exact List.sublist_cons_self r rows
      · exact ih.cons_cons r

theorem handOver_sublist (key : CString) (rows : List WaiterRow) :
    (handOver key rows).2.Sublist rows := by
  cases rows with
  | nil => exact List.Sublist.refl _
  | cons r rows =>
      simp only [handOver]
      split
      · exact List.nil_sublist _
      · exact (takeRow_sublist key rows).cons_cons r

theorem takeRow_key_ne
    {key : CString} {rows : List WaiterRow}
    (hnodup : (rows.map WaiterRow.key).Nodup) :
    ∀ r ∈ (takeRow key rows).2, r.key ≠ key := by
  induction rows with
  | nil => simp [takeRow]
  | cons r rows ih =>
      simp only [List.map_cons, List.nodup_cons] at hnodup
      intro r' hr'
      simp only [takeRow] at hr'
      split at hr'
      next hkey =>
        rintro rfl
        exact hnodup.1 (hkey ▸ List.mem_map_of_mem hr')
      next hkey =>
        rcases List.mem_cons.mp hr' with rfl | hr'
        · exact hkey
        · exact ih hnodup.2 r' hr'

/-- After the hand-over no row of the key is left. -/
theorem handOver_key_ne
    {key : CString} {rows : List WaiterRow}
    (hnodup : (rows.map WaiterRow.key).Nodup) :
    ∀ r ∈ (handOver key rows).2, r.key ≠ key := by
  cases rows with
  | nil => simp [handOver]
  | cons r rows =>
      simp only [List.map_cons, List.nodup_cons] at hnodup
      intro r' hr'
      simp only [handOver] at hr'
      split at hr'
      next hkey => simp at hr'
      next hkey =>
        rcases List.mem_cons.mp hr' with rfl | hr'
        · exact hkey
        · exact takeRow_key_ne hnodup.2 r' hr'

theorem WF.startLoading
    {c : Cache} (hw : c.WF) (key : CString) (now : ℤ) (ok : Bool) :
    (c.startLoading key now ok).2.WF := by
  unfold Cache.startLoading
  cases hfind : c.findEntry key with
  | some p => exact hw
  | none =>
      dsimp only
      split
      · have hsub := handOver_sublist key (c.pending (c.bucketOf key))
        have hrows : { c with
            pending := Function.update c.pending (c.bucketOf key)
              (handOver key (c.pending (c.bucketOf key))).2 }.WF := by
          refine hw.setPending _ _ ((hw.rows_nodup _).sublist (hsub.map _)) ?_ ?_
          · exact fun r hr => hw.rows_bucket _ r (hsub.subset hr)
          · exact fun r hr a e ha he =>
              hw.rows_missing _ r a e (hsub.subset hr) ha he
        refine hrows.pushEntry ?_ ?_ ?_
        · rfl
        · intro a e' ha he'
          exact findEntry_eq_none hfind ha he'
        · intro r hr
          have hr' : r ∈ (handOver key (c.pending (c.bucketOf key))).2 := by
            simpa [Cache.bucketOf] using hr
          exact handOver_key_ne (hw.rows_nodup _) r hr'
      · exact hw

theorem WF.appendData
    {c c' : Cache} (hw : c.WF) {a : ℕ} {chunk : List UInt8} {now : ℤ}
    {ok : Bool} {r : ℤ} (h : c.appendData a chunk now ok = some (r, c')) :
    c'.WF := by
  obtain ⟨e, he, h⟩ := Option.bind_eq_some_iff.mp h
  split at h
  · obtain ⟨⟨r', e'⟩, happ, heq⟩ := Option.map_eq_some_iff.mp h
    obtain ⟨rfl, rfl⟩ := Prod.mk.inj heq
    exact hw.putEntry he (Entry.appendData_cases happ).1
  · obtain ⟨rfl, rfl⟩ := Prod.mk.inj (Option.some.inj h)
    exact hw

theorem WF.finishLoading
    {c c' : Cache} (hw : c.WF) {a : ℕ} {now : ℤ} {ok : Bool} {r : ℤ}
    (h : c.finishLoading a now ok = some (r, c')) : c'.WF := by
  obtain ⟨e, he, h⟩ := Option.bind_eq_some_iff.mp h
  split at h
  · obtain ⟨e', hfin, heq⟩ := Option.map_eq_some_iff.mp h
    obtain ⟨rfl, rfl⟩ := Prod.mk.inj heq
    exact hw.putEntry he (Entry.finishLoading_spec hfin).1
  · obtain ⟨rfl, rfl⟩ := Prod.mk.inj (Option.some.inj h)
    exact hw

/-- A linked address is in the chain of one bucket only. -/
theorem WF.chain_unique
    {c : Cache} (hw : c.WF) {a b b' : ℕ} (hb : a ∈ c.chain b)
    (hb' : a ∈ c.chain b') : b = b' := by
  obtain ⟨e, he, rfl⟩ := hw.linked b a hb
  obtain ⟨e', he', rfl⟩ := hw.linked b' a hb'
  obtain rfl := Option.some.inj (he.symm.trans he')
  rfl

theorem WF.removeEntry
    {c : Cache} (hw : c.WF) {a b : ℕ} (ha : a ∈ c.chain b) :
    (c.removeEntry b a).WF := by
  have hsub : ∀ b', ((c.removeEntry b a).chain b').Sublist (c.chain b') := by
    intro b'
    by_cases hb : b' = b
    · subst hb
      simpa [Cache.removeEntry] using List.erase_sublist
    · simp [Cache.removeEntry, hb]
  refine hw.shrink (by simp [Cache.removeEntry]) hsub
    (by simp [Cache.removeEntry]) ?_ ?_
  · intro b' x e hx he
    have hxa : x ≠ a := by
      rintro rfl
      by_cases hb : b' = b
      · subst hb
        have hx' : x ∈ (c.chain b').erase x := by
          simpa [Cache.removeEntry] using hx
        exact (hw.nodup b').not_mem_erase hx'
      · exact hb (hw.chain_unique ((hsub b').subset hx) ha)
    exact ⟨e, by simpa [Cache.removeEntry, hxa] using he, rfl⟩
  · intro x e he
    by_cases hx : x = a
    · subst hx
      simp [Cache.removeEntry] at he
    · exact hw.fresh x e (by simpa [Cache.removeEntry, hx] using he)

theorem WF.cancelLoading
    {c : Cache} (hw : c.WF) (key : CString) : (c.cancelLoading key).2.WF := by
  unfold Cache.cancelLoading
  cases hfind : c.findLoading key with
  | none => exact hw
  | some a => exact hw.removeEntry (findLoading_eq_some hfind).1

/-! ### The collector -/

/-- Unlinking one entry of a chain, together with the entries in front of it
back to the last kept one, keeps the structure invariant. -/
theorem WF.unlink
    {c : Cache} (hw : c.WF) {b a : ℕ} {pre skipped post : List ℕ} (size count : UInt64)
    (hchain : c.chain b = pre ++ (skipped ++ a :: post)) :
    { c with
      currentSize := size
      currentEntries := count
      chain := Function.update c.chain b (pre ++ post)
      entries := Function.update c.entries a none }.WF := by
  have hmem : a ∈ c.chain b := by simp [hchain]
  have hsub : (pre ++ post).Sublist (c.chain b) := by
    rw [hchain]
    refine List.Sublist.append_left ?_ pre
    exact (List.sublist_cons_self a post).trans
      (List.sublist_append_right skipped _)
  have hout : a ∉ pre ++ post := by
    have hperm := hchain ▸ hw.nodup b
    simp only [List.nodup_append, List.nodup_cons, List.mem_append,
      List.mem_cons] at hperm ⊢
    rintro (hx | hx)
    · exact hperm.2.2 a hx a (Or.inr (Or.inl rfl)) rfl
    · exact hperm.2.1.2.1.1 hx
  refine hw.shrink rfl ?_ rfl ?_ ?_
  · intro b'
    by_cases hb : b' = b
    · subst hb
      simpa using hsub
    · simp [hb]
  · intro b' x e hx he
    have hxa : x ≠ a := by
      rintro rfl
      by_cases hb : b' = b
      · subst hb
        exact hout (by simpa using hx)
      · exact hb (hw.chain_unique (by simpa [hb] using hx) hmem)
    exact ⟨e, by simpa [hxa] using he, rfl⟩
  · intro x e he
    by_cases hxa : x = a
    · subst hxa
      simp at he
    · exact hw.fresh x e (by simpa [hxa] using he)

theorem sweep_sublist (loading expired : ℕ → Bool) (skipped rest : List ℕ) :
    (sweep loading expired skipped rest).Sublist (skipped ++ rest) := by
  induction rest generalizing skipped with
  | nil => simp [sweep]
  | cons a rest ih =>
      simp only [sweep]
      split
      · simpa using ih (skipped ++ [a])
      · split
        · exact (ih []).trans ((List.sublist_cons_self a rest).trans
            (List.sublist_append_right skipped (a :: rest)))
        · exact List.Sublist.append_left ((ih []).cons_cons a) skipped

/-- A sweep keeps no expired entry, apart from the loading ones. -/
theorem sweep_not_expired
    {loading expired : ℕ → Bool} {skipped rest : List ℕ}
    (hskipped : ∀ a ∈ skipped, loading a = true) :
    ∀ a ∈ sweep loading expired skipped rest,
      loading a = true ∨ expired a = false := by
  induction rest generalizing skipped with
  | nil => exact fun a ha => Or.inl (hskipped a ha)
  | cons x rest ih =>
      intro a ha
      simp only [sweep] at ha
      split at ha
      next hx =>
        refine ih ?_ a ha
        intro y hy
        rcases List.mem_append.mp hy with hy | hy
        · exact hskipped y hy
        · rw [List.mem_singleton.mp hy]
          exact hx
      next hx =>
        split at ha
        next he => exact ih (by simp) a ha
        next he =>
          rcases List.mem_append.mp ha with hy | hy
          · exact Or.inl (hskipped a hy)
          · rcases List.mem_cons.mp hy with rfl | hy
            · exact Or.inr (by simpa using he)
            · exact ih (by simp) a hy

/-- What becomes of the head of the list: it is passed over or freed. -/
theorem freeExpired_cons
    {now : ℤ} {a : ℕ} {l : List ℕ} {c c' : Cache}
    (h : freeExpired now (a :: l) c = some c') :
    (c.isExpired now a = false ∧ freeExpired now l c = some c') ∨
      ∃ e, c.entries a = some e ∧ c.isExpired now a = true ∧
        e.dataLive = true ∧ freeExpired now l (c.freed a e) = some c' := by
  rw [freeExpired] at h
  cases he : c.entries a with
  | none =>
      rw [he] at h
      exact Or.inl ⟨by simp [isExpired, he], h⟩
  | some e =>
      have hexp : c.isExpired now a =
          (!e.isLoading && e.expired c.defaultTtl now) := by
        simp [isExpired, he]
      rw [he] at h
      dsimp only at h
      rw [← hexp] at h
      split at h
      next hold =>
        obtain ⟨hlive, h⟩ := Option.ite_none_right_eq_some.mp h
        exact Or.inr ⟨e, rfl, hold, hlive, h⟩
      next hold => exact Or.inl ⟨by simpa using hold, h⟩

/-- Freeing leaves everything but the entries and the counters alone. -/
theorem freeExpired_frame
    {now : ℤ} {l : List ℕ} {c c' : Cache} (h : freeExpired now l c = some c') :
    c'.numBuckets = c.numBuckets ∧ c'.defaultTtl = c.defaultTtl ∧
      c'.chain = c.chain ∧ c'.pending = c.pending ∧
      c'.nextEntry = c.nextEntry := by
  induction l generalizing c with
  | nil =>
      obtain rfl := Option.some.inj h
      exact ⟨rfl, rfl, rfl, rfl, rfl⟩
  | cons a l ih =>
      obtain ⟨-, h⟩ | ⟨e, -, -, -, h⟩ := freeExpired_cons h
      · exact ih h
      · have hrest := ih h
        exact hrest

/-- The entries after freeing the expired ones of a list. -/
theorem freeExpired_entries
    {now : ℤ} {l : List ℕ} {c c' : Cache} (hnodup : l.Nodup)
    (h : freeExpired now l c = some c') (a : ℕ) :
    c'.entries a =
      if a ∈ l ∧ c.isExpired now a = true then none else c.entries a := by
  induction l generalizing c with
  | nil =>
      obtain rfl := Option.some.inj h
      simp
  | cons x l ih =>
      obtain ⟨hx, hl⟩ := List.nodup_cons.mp hnodup
      obtain ⟨hexp, h⟩ | ⟨e, he, hexp, -, h⟩ := freeExpired_cons h
      · rw [ih hl h]
        by_cases hax : a = x
        · subst hax
          simp [hexp]
        · simp [hax]
      · rw [ih hl h]
        by_cases hax : a = x
        · subst hax
          simp [freed, hx, hexp]
        · simp [freed, isExpired, hax]

theorem cleanBucket_eq_some
    {c c' : Cache} {b : ℕ} {now : ℤ} (h : c.cleanBucket b now = some c') :
    ∃ c₁, freeExpired now (c.chain b) c = some c₁ ∧
      c' = { c₁ with
        chain := Function.update c.chain b
          (sweep c.isLoadingAt (c.isExpired now) [] (c.chain b)) } := by
  obtain ⟨c₁, hfree, rfl⟩ := Option.map_eq_some_iff.mp h
  exact ⟨c₁, hfree, rfl⟩

theorem WF.cleanBucket_entries
    {c c' : Cache} (hw : c.WF) {b : ℕ} {now : ℤ}
    (h : c.cleanBucket b now = some c') (a : ℕ) :
    c'.entries a =
      if a ∈ c.chain b ∧ c.isExpired now a = true then none
      else c.entries a := by
  obtain ⟨c₁, hfree, rfl⟩ := cleanBucket_eq_some h
  exact freeExpired_entries (hw.nodup b) hfree a

theorem isLoadingAt_not_isExpired
    {c : Cache} {now : ℤ} {a : ℕ} (h : c.isLoadingAt a = true) :
    c.isExpired now a = false := by
  unfold isLoadingAt at h
  unfold isExpired
  cases he : c.entries a with
  | none => rfl
  | some e =>
      simp only [he, Option.any_some] at h
      simp [h]

theorem WF.cleanBucket
    {c c' : Cache} (hw : c.WF) {b : ℕ} {now : ℤ}
    (h : c.cleanBucket b now = some c') : c'.WF := by
  have hentries := hw.cleanBucket_entries h
  obtain ⟨c₁, hfree, rfl⟩ := cleanBucket_eq_some h
  have hframe := freeExpired_frame hfree
  have hsweep := sweep_sublist c.isLoadingAt (c.isExpired now) [] (c.chain b)
  refine hw.shrink hframe.1 ?_ hframe.2.2.2.1 ?_ ?_
  · intro b'
    by_cases hb : b' = b
    · subst hb
      simpa using hsweep
    · simp [hb]
  · intro b' a e ha he
    refine ⟨e, ?_, rfl⟩
    rw [hentries, if_neg, he]
    rintro ⟨hab, hexp⟩
    by_cases hb : b' = b
    · subst hb
      -- a sweep does not keep what it frees
      have ha' : a ∈ sweep c.isLoadingAt (c.isExpired now) []
          (c.chain b') := by
        simpa using ha
      rcases sweep_not_expired (by simp) a ha' with hload | hnot
      · simp [isLoadingAt_not_isExpired hload] at hexp
      · simp [hnot] at hexp
    · have ha' : a ∈ c.chain b' := by simpa [hb] using ha
      exact hb (hw.chain_unique ha' hab)
  · intro a e he
    have hnext : c₁.nextEntry = c.nextEntry := hframe.2.2.2.2
    rw [hentries] at he
    change a < c₁.nextEntry
    rw [hnext]
    split at he
    · simp at he
    · exact hw.fresh a e he

theorem WF.cleanExpired
    {c c' : Cache} (hw : c.WF) {now : ℤ} (h : c.cleanExpired now = some c') :
    c'.WF := by
  unfold Cache.cleanExpired at h
  generalize List.range c.numBuckets = l at h
  induction l generalizing c with
  | nil => exact Option.some.inj h ▸ hw
  | cons b l ih =>
      rw [List.foldlM_cons] at h
      obtain ⟨c₁, hbucket, hrest⟩ := Option.bind_eq_some_iff.mp h
      exact ih (hw.cleanBucket hbucket) hrest

/-! ### When the collector returns -/

/-- Freeing gives a result when the blocks of the expired entries are
allocated. -/
theorem exists_freeExpired_iff
    {now : ℤ} {l : List ℕ} {c : Cache} (hnodup : l.Nodup) :
    (∃ c', freeExpired now l c = some c') ↔
      ∀ a ∈ l, c.isExpired now a = true → c.isLiveAt a = true := by
  induction l generalizing c with
  | nil => simp [freeExpired]
  | cons x l ih =>
      obtain ⟨hx, hl⟩ := List.nodup_cons.mp hnodup
      rw [List.forall_mem_cons, freeExpired]
      cases he : c.entries x with
      | none =>
          have hexp : c.isExpired now x = false := by simp [isExpired, he]
          simpa [hexp] using ih hl
      | some e =>
          have hexp : c.isExpired now x =
              (!e.isLoading && e.expired c.defaultTtl now) := by
            simp [isExpired, he]
          have hlive : c.isLiveAt x = e.dataLive := by simp [isLiveAt, he]
          dsimp only
          rw [← hexp, hlive]
          split
          next hold =>
            -- the entries behind it are as they were
            have hsame : (∀ a ∈ l, (c.freed x e).isExpired now a = true →
                (c.freed x e).isLiveAt a = true) ↔
                ∀ a ∈ l, c.isExpired now a = true → c.isLiveAt a = true := by
              refine forall₂_congr fun a ha => ?_
              have hax : a ≠ x := ne_of_mem_of_not_mem ha hx
              simp [freed, isExpired, isLiveAt, hax]
            have hrest := (ih (c := c.freed x e) hl).trans hsame
            cases hdata : e.dataLive with
            | true => simpa [hold] using hrest
            | false => simp [hold]
          next hold => simpa [hold] using ih hl

theorem exists_cleanBucket_iff
    {c : Cache} (hw : c.WF) (b : ℕ) (now : ℤ) :
    (∃ c', c.cleanBucket b now = some c') ↔
      ∀ a ∈ c.chain b, c.isExpired now a = true → c.isLiveAt a = true := by
  rw [← exists_freeExpired_iff (hw.nodup b)]
  simp [Cache.cleanBucket]

/-- Cleaning one bucket does not touch the entries of another one. -/
theorem WF.cleanBucket_of_ne
    {c c' : Cache} (hw : c.WF) {b b' : ℕ} {now : ℤ}
    (h : c.cleanBucket b now = some c') (hne : b' ≠ b) :
    c'.chain b' = c.chain b' ∧ ∀ a ∈ c.chain b',
      c'.isExpired now a = c.isExpired now a ∧
        c'.isLiveAt a = c.isLiveAt a := by
  have hentries := hw.cleanBucket_entries h
  obtain ⟨c₁, hfree, rfl⟩ := cleanBucket_eq_some h
  refine ⟨Function.update_of_ne hne _ _, fun a ha => ?_⟩
  have hsame := hentries a
  rw [if_neg fun hb => hne (hw.chain_unique ha hb.1)] at hsame
  have httl := (freeExpired_frame hfree).2.1
  dsimp only at hsame httl
  simp only [isExpired, isLiveAt, hsame, httl, and_self]

/-- `cache_clean_expired` returns exactly when no linked entry that has expired
has a freed block. -/
theorem WF.exists_cleanExpired_iff
    {c : Cache} (hw : c.WF) (now : ℤ) :
    (∃ c', c.cleanExpired now = some c') ↔ ∀ b < c.numBuckets,
      ∀ a ∈ c.chain b, c.isExpired now a = true → c.isLiveAt a = true := by
  unfold Cache.cleanExpired
  simp only [← List.mem_range (n := c.numBuckets)]
  have hnodup : (List.range c.numBuckets).Nodup := List.nodup_range
  generalize List.range c.numBuckets = l at hnodup
  induction l generalizing c with
  | nil => simp
  | cons b l ih =>
      obtain ⟨hb, hl⟩ := List.nodup_cons.mp hnodup
      rw [List.forall_mem_cons, ← exists_cleanBucket_iff hw b now,
        List.foldlM_cons]
      cases hbucket : c.cleanBucket b now with
      | none => simp
      | some c₁ =>
          have hrest := ih (hw.cleanBucket hbucket) hl
          have hsame : (∀ b' ∈ l, ∀ a ∈ c₁.chain b',
              c₁.isExpired now a = true → c₁.isLiveAt a = true) ↔
              ∀ b' ∈ l, ∀ a ∈ c.chain b',
                c.isExpired now a = true → c.isLiveAt a = true := by
            refine forall₂_congr fun b' hb' => ?_
            have hne : b' ≠ b := ne_of_mem_of_not_mem hb' hb
            obtain ⟨hchain, hat⟩ := hw.cleanBucket_of_ne hbucket hne
            rw [hchain]
            refine forall₂_congr fun a ha => ?_
            rw [(hat a ha).1, (hat a ha).2]
          simpa using hrest.trans hsame

/-! ### Waiters -/

theorem addToRow_keys
    {key : CString} {h : AsyncHandle} {rows rows' : List WaiterRow}
    (hadd : addToRow key h rows = some rows') :
    rows'.map WaiterRow.key = rows.map WaiterRow.key := by
  induction rows generalizing rows' with
  | nil => simp [addToRow] at hadd
  | cons r rows ih =>
      simp only [addToRow] at hadd
      split at hadd
      · obtain rfl := Option.some.inj hadd
        rfl
      · obtain ⟨rows'', hrest, rfl⟩ := Option.map_eq_some_iff.mp hadd
        simp [ih hrest]

theorem addToRow_eq_none
    {key : CString} {h : AsyncHandle} {rows : List WaiterRow}
    (hadd : addToRow key h rows = none) : ∀ r ∈ rows, r.key ≠ key := by
  induction rows with
  | nil => simp
  | cons r rows ih =>
      simp only [addToRow] at hadd
      split at hadd
      · simp at hadd
      next hkey =>
        intro r' hr'
        rcases List.mem_cons.mp hr' with rfl | hr'
        · exact hkey
        · exact ih (Option.map_eq_none_iff.mp hadd) r' hr'

theorem WF.registerWaiter
    {c : Cache} (hw : c.WF) (key : CString) (h : AsyncHandle) (ok : Bool) :
    (c.registerWaiter key h ok).2.WF := by
  unfold Cache.registerWaiter
  cases hfind : c.findEntry key with
  | some p =>
      obtain ⟨a, e⟩ := p
      exact hw.putEntry (findEntry_eq_some hfind).2.1 rfl
  | none =>
      dsimp only
      cases hadd : addToRow key h (c.pending (c.bucketOf key)) with
      | some rows =>
          -- a property of the keys alone carries over to the edited rows
          have hkeys : ∀ r ∈ rows, ∃ r' ∈ c.pending (c.bucketOf key),
              r'.key = r.key := by
            intro r hr
            have hmem : r.key ∈ rows.map WaiterRow.key :=
              List.mem_map_of_mem hr
            rw [addToRow_keys hadd] at hmem
            exact List.mem_map.mp hmem
          refine hw.setPending _ _ (addToRow_keys hadd ▸ hw.rows_nodup _) ?_ ?_
          · intro r hr
            obtain ⟨r', hr', hkey⟩ := hkeys r hr
            exact hkey ▸ hw.rows_bucket _ r' hr'
          · intro r hr a e ha he
            obtain ⟨r', hr', hkey⟩ := hkeys r hr
            exact hkey ▸ hw.rows_missing _ r' a e hr' ha he
      | none =>
          cases ok with
          | false => exact hw
          | true =>
              refine hw.setPending _ _ ?_ ?_ ?_
              · rw [List.map_cons, List.nodup_cons]
                refine ⟨?_, hw.rows_nodup _⟩
                intro hmem
                obtain ⟨r, hr, hkey⟩ := List.mem_map.mp hmem
                exact addToRow_eq_none hadd r hr hkey
              · intro r hr
                rcases List.mem_cons.mp hr with rfl | hr
                · rfl
                · exact hw.rows_bucket _ r hr
              · intro r hr a e ha he
                rcases List.mem_cons.mp hr with rfl | hr
                · exact findEntry_eq_none hfind ha he
                · exact hw.rows_missing _ r a e hr ha he

theorem WF.unregisterWaiter
    {c : Cache} (hw : c.WF) (key : CString) (h : AsyncHandle) :
    (c.unregisterWaiter key h).2.WF := by
  unfold Cache.unregisterWaiter
  cases hfind : c.findEntry key with
  | some p =>
      obtain ⟨a, e⟩ := p
      exact hw.putEntry (findEntry_eq_some hfind).2.1 rfl
  | none => exact hw

end Cache

end Proxy
end OsFifthSem
