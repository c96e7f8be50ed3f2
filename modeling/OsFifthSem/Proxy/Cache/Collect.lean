import Mathlib.Data.List.Chain
import OsFifthSem.Proxy.Cache.Structure

/-!
# What the collector takes out of the chains

A sweep keeps exactly the entries that are not expired when no expired entry
stands directly behind a loading one; otherwise it loses the loading entry as
well, since the loop does not advance `prev` over it.
-/

namespace OsFifthSem
namespace Proxy

open Support

namespace Cache

/-! ## One sweep -/

section Sweep

variable {loading expired : ℕ → Bool}

/-- No expired entry stands directly behind a loading one. -/
def Unskipped (loading expired : ℕ → Bool) (xs : List ℕ) : Prop :=
  xs.IsChain fun a a' => loading a = true → expired a' = false

/-- A sweep keeps no more than it should. -/
theorem sweep_sublist_filter
    (hload : ∀ a, loading a = true → expired a = false)
    (skipped rest : List ℕ) :
    (sweep loading expired skipped rest).Sublist
      (skipped ++ rest.filter fun a => !expired a) := by
  induction rest generalizing skipped with
  | nil => simp [sweep]
  | cons a rest ih =>
      simp only [sweep]
      by_cases hl : loading a = true
      · simpa [hl, hload a hl] using ih (skipped ++ [a])
      · by_cases he : expired a = true
        · have hrest := ih []
          simp only [hl, he, if_true, Bool.false_eq_true, if_false,
            Bool.not_true, List.filter_cons, List.nil_append] at hrest ⊢
          exact hrest.trans (List.sublist_append_right skipped _)
        · have hrest := (ih []).cons_cons a
          simpa [hl, he] using List.Sublist.append_left hrest skipped

/-- A sweep keeps all that it should when no loading entry that it has passed
over is followed by an expired one. -/
theorem sweep_eq_filter_iff
    (hload : ∀ a, loading a = true → expired a = false)
    (skipped rest : List ℕ) :
    sweep loading expired skipped rest =
        skipped ++ rest.filter (fun a => !expired a) ↔
      (skipped ≠ [] → ∀ a ∈ rest.head?, expired a = false) ∧
        Unskipped loading expired rest := by
  induction rest generalizing skipped with
  | nil => simp [sweep, Unskipped]
  | cons a rest ih =>
      unfold Unskipped at ih ⊢
      rw [List.isChain_cons]
      simp only [sweep]
      by_cases hl : loading a = true
      · have hpass := ih (skipped ++ [a])
        simpa [hl, hload a hl] using hpass
      · by_cases he : expired a = true
        · simp only [hl, he, if_true, Bool.false_eq_true, if_false,
            Bool.not_true, List.filter_cons]
          have hrest := ih []
          by_cases hs : skipped = []
          · simpa [hs, hl] using hrest
          · -- the sweep has dropped `skipped`, so it is too short
            have hshort :=
              (sweep_sublist_filter hload [] rest).length_le
            refine iff_of_false ?_ ?_
            · intro heq
              have hlen := congrArg List.length heq
              have hpos : 0 < skipped.length := List.length_pos_iff.mpr hs
              simp only [List.nil_append, List.length_append] at hshort hlen
              omega
            · rintro ⟨hhead, -⟩
              have hfresh := hhead hs a (by simp)
              simp [he] at hfresh
        · have hrest := ih []
          simpa [hl, he] using hrest

theorem sweep_congr
    {loading' expired' : ℕ → Bool} (skipped : List ℕ) {rest : List ℕ}
    (hrest : ∀ a ∈ rest, loading' a = loading a ∧ expired' a = expired a) :
    sweep loading' expired' skipped rest =
      sweep loading expired skipped rest := by
  induction rest generalizing skipped with
  | nil => rfl
  | cons a rest ih =>
      obtain ⟨hl, he⟩ := hrest a (by simp)
      have htail : ∀ a ∈ rest, loading' a = loading a ∧
          expired' a = expired a := fun x hx => hrest x (by simp [hx])
      simp only [sweep, hl, he, ih _ htail]

end Sweep

/-! ## All the sweeps of a call -/

theorem freeExpired_currentEntries
    {now : ℤ} {l : List ℕ} {c c' : Cache} (hnodup : l.Nodup)
    (h : freeExpired now l c = some c') :
    c'.currentEntries =
      c.currentEntries - .ofNat (l.filter (c.isExpired now)).length := by
  induction l generalizing c with
  | nil =>
      obtain rfl := Option.some.inj h
      simp
  | cons x l ih =>
      obtain ⟨hx, hl⟩ := List.nodup_cons.mp hnodup
      obtain ⟨hexp, h⟩ | ⟨e, he, hexp, -, h⟩ := freeExpired_cons h
      · simpa [hexp] using ih hl h
      · -- the freed entry is not met again
        have hsame : ∀ a ∈ l, (c.freed x e).isExpired now a =
            c.isExpired now a := by
          intro a ha
          have hax : a ≠ x := ne_of_mem_of_not_mem ha hx
          simp [freed, isExpired, hax]
        rw [ih hl h, List.filter_congr hsame, List.filter_cons, if_pos hexp,
          List.length_cons, UInt64.ofNat_add]
        change c.currentEntries - 1 - _ = _
        grind

/-- The entries that a call takes out of the first `n` buckets. -/
def expiredIn (c : Cache) (now : ℤ) (n : ℕ) : List ℕ :=
  (List.range n).flatMap fun b => (c.chain b).filter (c.isExpired now)

/-- The cache `c'` after the sweeps of the first `n` buckets of `c`. -/
structure Swept (c : Cache) (now : ℤ) (n : ℕ) (c' : Cache) : Prop where
  chain : ∀ b, c'.chain b = if b < n then
      sweep c.isLoadingAt (c.isExpired now) [] (c.chain b)
    else c.chain b
  entries : ∀ a, c'.entries a =
    if (∃ b < n, a ∈ c.chain b) ∧ c.isExpired now a = true then none
    else c.entries a
  count : c'.currentEntries =
    c.currentEntries - .ofNat (c.expiredIn now n).length
  defaultTtl : c'.defaultTtl = c.defaultTtl
  pending : c'.pending = c.pending
  nextEntry : c'.nextEntry = c.nextEntry
  wf : c'.WF

/-- One more bucket. -/
theorem Swept.cleanBucket
    {c c' c'' : Cache} {now : ℤ} {n : ℕ} (hw : c.WF) (hs : c.Swept now n c')
    (h : c'.cleanBucket n now = some c'') : c.Swept now (n + 1) c'' := by
  have hw'' := hs.wf.cleanBucket h
  have hentries := hs.wf.cleanBucket_entries h
  obtain ⟨c₁, hfree, rfl⟩ := cleanBucket_eq_some h
  have hframe := freeExpired_frame hfree
  have hchain : c'.chain n = c.chain n := by simp [hs.chain]
  -- the entries of this bucket are still as they were
  have hsame : ∀ a ∈ c.chain n, c'.entries a = c.entries a := by
    intro a ha
    rw [hs.entries, if_neg]
    rintro ⟨⟨b, hb, hmem⟩, -⟩
    exact hb.ne (hw.chain_unique hmem ha)
  have hload : ∀ a ∈ c.chain n, c'.isLoadingAt a = c.isLoadingAt a := by
    intro a ha
    rw [isLoadingAt, isLoadingAt, hsame a ha]
  have hexp : ∀ a ∈ c.chain n, c'.isExpired now a = c.isExpired now a := by
    intro a ha
    rw [isExpired, isExpired, hsame a ha, hs.defaultTtl]
  refine ⟨?_, ?_, ?_, hframe.2.1.trans hs.defaultTtl,
    hframe.2.2.2.1.trans hs.pending, hframe.2.2.2.2.trans hs.nextEntry, hw''⟩
  · intro b
    by_cases hb : b = n
    · subst hb
      rw [if_pos (Nat.lt_succ_self b)]
      simp only [Function.update_self, hchain]
      exact sweep_congr [] fun a ha => ⟨hload a ha, hexp a ha⟩
    · have hlt : b < n + 1 ↔ b < n := by omega
      simp only [Function.update_of_ne hb, hlt]
      exact hs.chain b
  · intro a
    rw [hentries, hchain]
    by_cases ha : a ∈ c.chain n
    · have hex : ∃ b < n + 1, a ∈ c.chain b := ⟨n, Nat.lt_succ_self n, ha⟩
      simp only [ha, hex, true_and, hexp a ha, hsame a ha]
    · have hiff : (∃ b < n + 1, a ∈ c.chain b) ↔ ∃ b < n, a ∈ c.chain b := by
        constructor
        · rintro ⟨b, hb, hmem⟩
          refine ⟨b, ?_, hmem⟩
          have hbn : b ≠ n := by
            rintro rfl
            exact ha hmem
          omega
        · rintro ⟨b, hb, hmem⟩
          exact ⟨b, Nat.lt_succ_of_lt hb, hmem⟩
      rw [if_neg fun h => ha h.1, hs.entries]
      simp only [hiff]
  · change c₁.currentEntries = _
    have hnodup : (c'.chain n).Nodup := hs.wf.nodup n
    rw [freeExpired_currentEntries hnodup hfree, hs.count, hchain,
      List.filter_congr hexp, expiredIn, expiredIn, List.range_succ,
      List.flatMap_append, List.length_append, UInt64.ofNat_add]
    simp only [List.flatMap_singleton]
    grind

theorem WF.swept
    {c c' : Cache} (hw : c.WF) {now : ℤ} (h : c.cleanExpired now = some c') :
    c.Swept now c.numBuckets c' := by
  unfold Cache.cleanExpired at h
  generalize c.numBuckets = n at h
  induction n generalizing c' with
  | zero =>
      obtain rfl := Option.some.inj h
      exact ⟨by simp, by simp, by simp [expiredIn], rfl, rfl, rfl, hw⟩
  | succ n ih =>
      rw [List.range_succ, List.foldlM_append] at h
      obtain ⟨c₁, hbefore, hlast⟩ := Option.bind_eq_some_iff.mp h
      rw [List.foldlM_cons] at hlast
      obtain ⟨c₂, hbucket, hrest⟩ := Option.bind_eq_some_iff.mp hlast
      obtain rfl := Option.some.inj hrest
      exact (ih hbefore).cleanBucket hw hbucket

theorem WF.cleanExpired_chain_sublist
    {c c' : Cache} (hw : c.WF) {now : ℤ} (h : c.cleanExpired now = some c')
    (b : ℕ) :
    (c'.chain b).Sublist ((c.chain b).filter fun a => !c.isExpired now a) := by
  have hnot : ∀ a, c.isLoadingAt a = true → c.isExpired now a = false :=
    fun a ha => isLoadingAt_not_isExpired ha
  rw [(hw.swept h).chain]
  split
  · exact sweep_sublist_filter hnot [] (c.chain b)
  next hb =>
    have hnil : c.chain b = [] := by
      rw [List.eq_nil_iff_forall_not_mem]
      exact fun a ha => hb (hw.lt_of_mem_chain ha)
    rw [hnil]
    exact List.nil_sublist _

/-- What one bucket is left with, and when that is right. -/
theorem WF.cleanExpired_chain_iff
    {c c' : Cache} (hw : c.WF) {now : ℤ} (h : c.cleanExpired now = some c')
    (b : ℕ) :
    c'.chain b = ((c.chain b).filter fun a => !c.isExpired now a) ↔
      Unskipped c.isLoadingAt (c.isExpired now) (c.chain b) := by
  have hnot : ∀ a, c.isLoadingAt a = true → c.isExpired now a = false :=
    fun a ha => isLoadingAt_not_isExpired ha
  rw [(hw.swept h).chain]
  by_cases hb : b < c.numBuckets
  · rw [if_pos hb]
    have hiff := sweep_eq_filter_iff hnot [] (c.chain b)
    simpa using hiff
  · have hnil : c.chain b = [] := by
      rw [List.eq_nil_iff_forall_not_mem]
      exact fun a ha => hb (hw.lt_of_mem_chain ha)
    simp [hb, hnil, Unskipped]

/-- In no chain an expired entry stands directly behind a loading one. -/
def NoneSkipped (c : Cache) (now : ℤ) : Prop :=
  ∀ b, Unskipped c.isLoadingAt (c.isExpired now) (c.chain b)

end Cache

/-! ## The call on linked cells -/

namespace Memory

/-- The call takes the entries `removed` out of the chains, and nothing else.
A cell that is freed was allocated until then, and so was its block. -/
structure Collected (m : Memory) (now : ℤ) (removed : List ℕ)
    (m' : Memory) : Prop where
  mem_removed : ∀ a, a ∈ removed ↔
    ∃ b xs, m.EntriesOf b xs ∧ a ∈ xs ∧ m.expiredAt now a = true
  once : removed.Nodup
  chain : ∀ b xs, m.EntriesOf b xs →
    m'.EntriesOf b (xs.filter fun a => !m.expiredAt now a)
  linked : ∀ b xs a, m.EntriesOf b xs → a ∈ xs →
    m.expiredAt now a = false → ∃ xs', m'.EntriesOf b xs' ∧ a ∈ xs'
  count : m'.currentEntries = m.currentEntries - .ofNat removed.length
  freed : ∀ a ∈ removed,
    (∃ e, m.entryCells a = some e ∧ e.dataLive = true) ∧
      m'.entryCells a = none
  kept : ∀ a, a ∉ removed → (m'.entryCells a).map EntryCell.toEntry =
    (m.entryCells a).map EntryCell.toEntry

/-- In no chain an expired entry stands directly behind a loading one. -/
def NoneSkipped (m : Memory) (now : ℤ) : Prop :=
  ∀ b xs, m.EntriesOf b xs →
    Cache.Unskipped m.loadingAt (m.expiredAt now) xs

end Memory

section Call

variable {m : Memory} {c : Cache}

theorem Represents.noneSkipped_iff (hr : Represents m c) {now : ℤ} :
    m.NoneSkipped now ↔ c.NoneSkipped now := by
  unfold Memory.NoneSkipped Cache.NoneSkipped
  rw [hr.expiredAt_eq, hr.loadingAt_eq]
  constructor
  · intro hnone b
    exact hnone b _ (hr.entriesOf_iff.mpr rfl)
  · intro hnone b xs hxs
    rw [hr.entriesOf_iff.mp hxs]
    exact hnone b

theorem Cache.mem_expiredIn
    {now : ℤ} {a : ℕ} :
    a ∈ c.expiredIn now c.numBuckets ↔
      (∃ b < c.numBuckets, a ∈ c.chain b) ∧ c.isExpired now a = true := by
  simp only [Cache.expiredIn, List.mem_flatMap, List.mem_range,
    List.mem_filter]
  constructor
  · rintro ⟨b, hb, hmem, hexp⟩
    exact ⟨⟨b, hb, hmem⟩, hexp⟩
  · rintro ⟨⟨b, hb, hmem⟩, hexp⟩
    exact ⟨b, hb, hmem, hexp⟩

theorem Cache.WF.nodup_expiredIn (hw : c.WF) (now : ℤ) (n : ℕ) :
    (c.expiredIn now n).Nodup := by
  rw [Cache.expiredIn, List.nodup_flatMap]
  constructor
  · intro b _
    exact (hw.nodup b).filter _
  · refine List.nodup_range.imp fun {b b'} hne => ?_
    intro a ha ha'
    exact hne (hw.chain_unique (List.mem_filter.mp ha).1
      (List.mem_filter.mp ha').1)

/-- A call whose sweeps skip no entry takes out what has expired. -/
theorem Represents.collected
    {m' : Memory} {c' : Cache} {now : ℤ} (hr : Represents m c) (hw : c.WF)
    (hclean : c.cleanExpired now = some c') (hr' : Represents m' c')
    (hsweep : ∀ b, c'.chain b =
      (c.chain b).filter fun a => !c.isExpired now a) :
    m.Collected now (c.expiredIn now c.numBuckets) m' := by
  have hs := hw.swept hclean
  refine ⟨?_, hw.nodup_expiredIn now _, ?_, ?_, ?_, ?_, ?_⟩
  · intro a
    rw [Cache.mem_expiredIn, hr.expiredAt_eq]
    constructor
    · rintro ⟨⟨b, -, hmem⟩, hexp⟩
      exact ⟨b, _, hr.chains b, hmem, hexp⟩
    · rintro ⟨b, xs, hxs, hmem, hexp⟩
      rw [hr.entriesOf_iff.mp hxs] at hmem
      exact ⟨⟨b, hw.lt_of_mem_chain hmem, hmem⟩, hexp⟩
  · intro b xs hxs
    rw [hr'.entriesOf_iff, hsweep, hr.expiredAt_eq, hr.entriesOf_iff.mp hxs]
  · intro b xs a hxs hmem hfresh
    refine ⟨_, hr'.chains b, ?_⟩
    rw [hr.expiredAt_eq] at hfresh
    rw [hr.entriesOf_iff.mp hxs] at hmem
    rw [hsweep, List.mem_filter]
    exact ⟨hmem, by simp [hfresh]⟩
  · have hcount := hs.count
    have hfields := congrArg CacheFields.currentEntries hr'.fields
    rw [hfields, hcount, hr.fields]
  · intro a ha
    have hmem := Cache.mem_expiredIn.mp ha
    obtain ⟨⟨b, hlt, hb⟩, hexp⟩ := hmem
    constructor
    · have hlive :=
        (hw.exists_cleanExpired_iff now).mp ⟨c', hclean⟩ b hlt a hb hexp
      rw [← hr.liveAt_eq, Memory.liveAt, Option.any_eq_true] at hlive
      exact hlive
    · have hnone : c'.entries a = none := by
        rw [hs.entries, if_pos (Cache.mem_expiredIn.mp ha)]
      rwa [← hr'.entries, Option.map_eq_none_iff] at hnone
  · intro a ha
    rw [hr'.entries, hs.entries, if_neg, hr.entries]
    exact fun h => ha (Cache.mem_expiredIn.mpr h)

/-- From any well-formed cache, at any time and with any `default_ttl`, the
call takes out exactly what has expired if and only if no expired entry stands
directly behind a loading one and none has a block that is freed already. -/
theorem Memory.collected_iff_noneSkipped
    (m : Memory) (now : ℤ) (hm : m.Represented) :
    (∃ removed m', m.cacheCleanExpired now = some m' ∧
        m.Collected now removed m') ↔ m.NoneSkipped now ∧ m.FreesOnce now := by
  obtain ⟨c, hr, hw⟩ := hm
  constructor
  · rintro ⟨removed, m', hcall, hcol⟩
    refine ⟨?_, (hr.exists_cacheCleanExpired_iff hw).mp ⟨m', hcall⟩⟩
    have hop : m.call (.cleanExpired now) = some m' := hcall
    obtain ⟨c', hclean, hr', -⟩ := hr.call hw hop
    rw [hr.noneSkipped_iff]
    intro b
    have hchain :=
      hr'.entriesOf_iff.mp (hcol.chain b _ (hr.entriesOf_iff.mpr rfl))
    rw [hr.expiredAt_eq] at hchain
    exact (hw.cleanExpired_chain_iff hclean b).mp hchain.symm
  · rintro ⟨hnone, hfrees⟩
    obtain ⟨m', hcall⟩ := (hr.exists_cacheCleanExpired_iff hw).mpr hfrees
    have hop : m.call (.cleanExpired now) = some m' := hcall
    obtain ⟨c', hclean, hr', -⟩ := hr.call hw hop
    refine ⟨_, m', hcall, hr.collected hw hclean hr' fun b => ?_⟩
    exact (hw.cleanExpired_chain_iff hclean b).mpr
      (hr.noneSkipped_iff.mp hnone b)

/-- An entry of one byte that was last accessed long ago, one that started to
load in front of it, and `later` calls. -/
def Memory.staleCalls (later : List CacheCall) : List CacheCall :=
  [.startLoading (.ofBuffer [97]) 0 true, .appendData (some 0) [65] 0 true,
    .finishLoading (some 0) 0 true, .startLoading (.ofBuffer [98]) 90 true] ++
      later

/-- The expired entry is unlinked behind a loading one. -/
theorem Memory.staleCalls_loses :
    ∃ m, (calls 1 60).run (cacheInit 1 60) (staleCalls []) = some m ∧
      m.FreesOnce 100 ∧
      ¬∃ removed m', m.cacheCleanExpired 100 = some m' ∧
        m.Collected 100 removed m' := by
  have hrun : (calls 1 60).run (cacheInit 1 60) (staleCalls []) = some _ := rfl
  obtain ⟨c, hr, hw⟩ := represented_of_run hrun
  refine ⟨_, hrun, (hr.exists_cacheCleanExpired_iff hw).mp ⟨_, rfl⟩, ?_⟩
  rintro ⟨removed, m', hcall, hcol⟩
  obtain rfl := Option.some.inj hcall
  obtain ⟨xs', hxs', hmem⟩ := hcol.linked 0 [1, 0] 1
    (Chain.cons rfl (Chain.cons rfl Chain.nil)) (by decide) rfl
  cases hxs'
  cases hmem

/-- With a byte in the entry in front and that finished as well, only the
expired one goes. -/
def Memory.finishedFront : List CacheCall :=
  [.appendData (some 1) [66] 90 true, .finishLoading (some 1) 90 true]

theorem Memory.collected_iff_noneSkipped_stale :
    ∃ m, (calls 1 60).run (cacheInit 1 60) (staleCalls finishedFront) =
        some m ∧
      (m.cacheCleanExpired 100).isSome ∧
      ((∃ removed m', m.cacheCleanExpired 100 = some m' ∧
        m.Collected 100 removed m') ↔ m.NoneSkipped 100 ∧ m.FreesOnce 100) :=
  ⟨_, rfl, rfl, collected_iff_noneSkipped _ 100
    (represented_of_run (rfl : (calls 1 60).run (cacheInit 1 60)
      (staleCalls finishedFront) = some _))⟩

end Call

end Proxy
end OsFifthSem
