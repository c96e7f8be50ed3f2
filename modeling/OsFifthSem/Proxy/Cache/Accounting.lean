import Mathlib.Algebra.BigOperators.Group.Finset.Basic
import OsFifthSem.Proxy.Cache.Buffer
import OsFifthSem.Proxy.Cache.Calls

/-!
# The counters of the cache

`current_entries` is right as long as no sweep takes out a loading entry
together with an expired one, since such an entry is not counted as removed.
`current_size` is never increased: it is right until an entry is finished.
-/

namespace OsFifthSem
namespace Proxy

open Support

namespace Cache

/-! ## The linked entries -/

/-- The entries of all buckets. -/
def linkedSet (c : Cache) : Finset ℕ :=
  ((List.range c.numBuckets).flatMap c.chain).toFinset

section LinkedSet

variable {c c' : Cache}

theorem WF.mem_linkedSet (hw : c.WF) {a : ℕ} :
    a ∈ c.linkedSet ↔ c.Linked a := by
  simp only [linkedSet, List.mem_toFinset, List.mem_flatMap, List.mem_range]
  constructor
  · rintro ⟨b, -, ha⟩
    exact ⟨b, ha⟩
  · rintro ⟨b, ha⟩
    exact ⟨b, hw.lt_of_mem_chain ha, ha⟩

theorem WF.linkedSet_congr
    (hw : c.WF) (hw' : c'.WF) (h : ∀ a, c'.Linked a ↔ c.Linked a) :
    c'.linkedSet = c.linkedSet := by
  ext a
  rw [hw'.mem_linkedSet, hw.mem_linkedSet, h]

theorem WF.nextEntry_not_linked (hw : c.WF) : ¬c.Linked c.nextEntry := by
  rintro ⟨b, hb⟩
  obtain ⟨e, he, -⟩ := hw.linked b _ hb
  rw [hw.entries_nextEntry] at he
  cases he

theorem WF.card_created
    (hw : c.WF) {key : CString} (now : ℤ) (hfind : c.findEntry key = none) :
    (c.created key now).linkedSet.card = c.linkedSet.card + 1 := by
  have hinsert : (c.created key now).linkedSet =
      insert c.nextEntry c.linkedSet := by
    ext a
    rw [(hw.created now hfind).mem_linkedSet, created_linked,
      Finset.mem_insert, hw.mem_linkedSet, or_comm]
  rw [hinsert, Finset.card_insert_of_notMem]
  exact fun hmem => hw.nextEntry_not_linked (hw.mem_linkedSet.mp hmem)

theorem WF.card_removeEntry
    (hw : c.WF) {a b : ℕ} (ha : a ∈ c.chain b) :
    (c.removeEntry b a).linkedSet.card + 1 = c.linkedSet.card := by
  have herase : (c.removeEntry b a).linkedSet = c.linkedSet.erase a := by
    ext x
    rw [(hw.removeEntry ha).mem_linkedSet, hw.removeEntry_linked ha,
      Finset.mem_erase, hw.mem_linkedSet]
  rw [herase]
  exact Finset.card_erase_add_one (hw.mem_linkedSet.mpr ⟨b, ha⟩)

/-- The expired entries of all buckets. -/
theorem WF.card_expired (hw : c.WF) (now : ℤ) :
    (c.expiredIn now c.numBuckets).length =
      (c.linkedSet.filter fun a => c.isExpired now a = true).card := by
  rw [← List.toFinset_card_of_nodup (hw.nodup_expiredIn now _)]
  congr 1
  ext a
  rw [List.mem_toFinset, mem_expiredIn, Finset.mem_filter, hw.mem_linkedSet]
  constructor
  · rintro ⟨⟨b, -, ha⟩, hexp⟩
    exact ⟨⟨b, ha⟩, hexp⟩
  · rintro ⟨⟨b, ha⟩, hexp⟩
    exact ⟨⟨b, hw.lt_of_mem_chain ha, ha⟩, hexp⟩

/-- The linked entries that a call should keep. -/
def freshSet (c : Cache) (now : ℤ) : Finset ℕ :=
  c.linkedSet.filter fun a => ¬c.isExpired now a = true

theorem WF.card_freshSet (hw : c.WF) (now : ℤ) :
    (c.expiredIn now c.numBuckets).length + (c.freshSet now).card =
      c.linkedSet.card := by
  rw [hw.card_expired, freshSet]
  exact Finset.card_filter_add_card_filter_not _

theorem WF.cleanExpired_linkedSet_subset
    (hw : c.WF) {now : ℤ} (h : c.cleanExpired now = some c') :
    c'.linkedSet ⊆ c.freshSet now := by
  intro a ha
  obtain ⟨b, hb⟩ := (hw.cleanExpired h).mem_linkedSet.mp ha
  obtain ⟨hmem, hfresh⟩ :=
    List.mem_filter.mp ((hw.cleanExpired_chain_sublist h b).subset hb)
  exact Finset.mem_filter.mpr ⟨hw.mem_linkedSet.mpr ⟨b, hmem⟩, by simpa using hfresh⟩

/-- A call keeps all fresh entries if and only if it skips none. -/
theorem WF.cleanExpired_linkedSet_iff
    (hw : c.WF) {now : ℤ} (h : c.cleanExpired now = some c') :
    c'.linkedSet = c.freshSet now ↔ c.NoneSkipped now := by
  have hw' := hw.cleanExpired h
  constructor
  · intro hall b
    rw [← hw.cleanExpired_chain_iff h b]
    refine (hw.cleanExpired_chain_sublist h b).eq_of_length_le ?_
    refine (((hw.nodup b).filter _).subperm fun a ha => ?_).length_le
    obtain ⟨hmem, hfresh⟩ := List.mem_filter.mp ha
    have hin : a ∈ c'.linkedSet := by
      rw [hall]
      exact Finset.mem_filter.mpr
        ⟨hw.mem_linkedSet.mpr ⟨b, hmem⟩, by simpa using hfresh⟩
    -- it can only be linked in its own bucket
    obtain ⟨b', hb'⟩ := hw'.mem_linkedSet.mp hin
    have hmem' :=
      (List.mem_filter.mp
        ((hw.cleanExpired_chain_sublist h b').subset hb')).1
    exact hw.chain_unique hmem' hmem ▸ hb'
  · intro hnone
    refine (hw.cleanExpired_linkedSet_subset h).antisymm fun a ha => ?_
    obtain ⟨hin, hfresh⟩ := Finset.mem_filter.mp ha
    obtain ⟨b, hb⟩ := hw.mem_linkedSet.mp hin
    refine hw'.mem_linkedSet.mpr ⟨b, ?_⟩
    rw [(hw.cleanExpired_chain_iff h b).mpr (hnone b), List.mem_filter]
    exact ⟨hb, by simpa using hfresh⟩

end LinkedSet

/-! ## The number of entries -/

/-- `current_entries` is the number of linked entries. -/
def Counted (c : Cache) : Prop :=
  c.currentEntries = .ofNat c.linkedSet.card

theorem WF.counted_cleanExpired
    {c c' : Cache} (hw : c.WF) (hc : c.Counted) {now : ℤ}
    (h : c.cleanExpired now = some c') :
    c'.currentEntries = .ofNat (c.freshSet now).card := by
  unfold Counted at hc
  rw [(hw.swept h).count, hc, ← hw.card_freshSet now, UInt64.ofNat_add]
  grind

theorem CallCase.counted
    {c c' : Cache} {op : CacheCall} (hcase : c.CallCase op c') (hw : c.WF)
    (hw' : c'.WF) (hc : c.Counted)
    (hsweep : ∀ now, op = .cleanExpired now → c.NoneSkipped now) :
    c'.Counted := by
  have hsame : c.SameChains c' → c'.Counted := by
    intro h
    unfold Counted at hc ⊢
    rw [h.currentEntries, hw.linkedSet_congr hw' fun a => h.linked_iff, hc]
  cases hcase with
  | same h _ => exact hsame h
  | created key now hfind =>
      unfold Counted at hc ⊢
      rw [hw.card_created now hfind, UInt64.ofNat_add, ← hc]
      rfl
  | touched _ _ h _ => exact hsame h
  | appended => exact hsame (.putEntry c _ _)
  | finished => exact hsame (.putEntry c _ _)
  | cancelled hmem =>
      unfold Counted at hc ⊢
      rw [← hw.card_removeEntry hmem, UInt64.ofNat_add] at hc
      change c.currentEntries - 1 = _
      rw [hc]
      grind
  | cleaned hclean =>
      unfold Counted
      rw [hw.counted_cleanExpired hc hclean,
        (hw.cleanExpired_linkedSet_iff hclean).mpr (hsweep _ rfl)]
  | waiters => exact hsame (.putEntry c _ _)

/-! ## The size of the cache -/

/-- The size that an entry counts for: loading entries are left out. -/
def finishedSize (c : Cache) (a : ℕ) : ℕ :=
  (c.entries a).elim 0 fun e => if e.isLoading then 0 else e.allocatedSize

/-- No linked entry has been finished, so `current_size` is still right. -/
structure Unfinished (c : Cache) : Prop where
  size : c.currentSize = 0
  loading : ∀ a, c.Linked a → c.isLoadingAt a = true
  sizes : ∀ a e, c.entries a = some e → e.SizesOk

namespace Unfinished

variable {c c' : Cache}

theorem finishedSize_eq (hc : c.Unfinished) {a : ℕ} (ha : c.Linked a) :
    c.finishedSize a = 0 := by
  have hload := hc.loading a ha
  rw [isLoadingAt, Option.any_eq_true] at hload
  obtain ⟨e, he, hload⟩ := hload
  simp [finishedSize, he, hload]

/-- The rewriting of one entry, which may be finished if it is not linked. -/
theorem rewrite
    (hc : c.Unfinished) {a : ℕ} {e : Entry} (hsame : c.SameChains c')
    (hentries : c'.entries = (c.putEntry a e).entries) (hsize : e.SizesOk)
    (hload : c.Linked a → e.isLoading = true) : c'.Unfinished := by
  refine ⟨hsame.currentSize.trans hc.size, ?_, ?_⟩
  · intro x hx
    have hlinked := hsame.linked_iff.mp hx
    rw [isLoadingAt, hentries, putEntry]
    by_cases hxa : x = a
    · subst hxa
      simpa using hload hlinked
    · simpa [hxa, isLoadingAt] using hc.loading x hlinked
  · intro x f hf
    rw [hentries, putEntry] at hf
    by_cases hxa : x = a
    · subst hxa
      simp only [Function.update_self, Option.some.injEq] at hf
      exact hf ▸ hsize
    · simp only [Function.update_of_ne hxa] at hf
      exact hc.sizes x f hf

theorem not_isExpired
    (hc : c.Unfinished) (now : ℤ) {a : ℕ} (ha : c.Linked a) :
    c.isExpired now a = false :=
  isLoadingAt_not_isExpired (hc.loading a ha)

theorem cleanBucket_eq_self (hc : c.Unfinished) (b : ℕ) (now : ℤ) :
    c.cleanBucket b now = some c := by
  have hfresh : ∀ a ∈ c.chain b, c.isExpired now a = false :=
    fun a ha => hc.not_isExpired now ⟨b, ha⟩
  have hfree : ∀ l : List ℕ, (∀ a ∈ l, c.isExpired now a = false) →
      freeExpired now l c = some c := by
    intro l hl
    induction l with
    | nil => rfl
    | cons a l ih =>
        have hrest := ih fun x hx => hl x (List.mem_cons_of_mem a hx)
        have ha := hl a (List.mem_cons_self ..)
        rw [freeExpired]
        cases he : c.entries a with
        | none => exact hrest
        | some e =>
            simp only [isExpired, he, Option.any_some] at ha
            simpa [ha] using hrest
  have hsweep : sweep c.isLoadingAt (c.isExpired now) [] (c.chain b) =
      c.chain b := by
    have hchain : Unskipped c.isLoadingAt (c.isExpired now) (c.chain b) := by
      refine (List.pairwise_of_forall_mem_list ?_).isChain
      intro _ _ a ha _
      exact hfresh a ha
    have hkept := (sweep_eq_filter_iff
      (fun _ ha => isLoadingAt_not_isExpired ha) [] (c.chain b)).mpr
        ⟨fun h => absurd rfl h, hchain⟩
    rw [hkept, List.nil_append, List.filter_eq_self]
    simpa using hfresh
  rw [cleanBucket, hfree _ hfresh, hsweep, Function.update_eq_self]
  rfl

/-- A collector that finds only loading entries leaves all of them. -/
theorem cleanExpired_eq_self (hc : c.Unfinished) (now : ℤ) :
    c.cleanExpired now = some c := by
  unfold Cache.cleanExpired
  generalize List.range c.numBuckets = l
  induction l with
  | nil => rfl
  | cons b l ih => rw [List.foldlM_cons, hc.cleanBucket_eq_self b now]; exact ih

end Unfinished

theorem CallCase.unfinished
    {c c' : Cache} {op : CacheCall} (hcase : c.CallCase op c') (hw : c.WF)
    (hc : c.Unfinished)
    (hop : ∀ a now ok, op = .finishLoading (some a) now ok → c.Linked a →
      c.isLoadingAt a = false) : c'.Unfinished := by
  cases hcase with
  | same hsame hentries =>
      refine ⟨hsame.currentSize.trans hc.size, ?_, ?_⟩
      · intro a ha
        rw [isLoadingAt, hentries]
        exact hc.loading a (hsame.linked_iff.mp ha)
      · intro a e he
        rw [hentries] at he
        exact hc.sizes a e he
  | created key now hfind =>
      refine ⟨hc.size, ?_, ?_⟩
      · intro a ha
        rcases created_linked.mp ha with hlinked | rfl
        · have hne : a ≠ c.nextEntry := by
            rintro rfl
            exact hw.nextEntry_not_linked hlinked
          rw [isLoadingAt, created_entries_of_ne hne]
          exact hc.loading a hlinked
        · simp [isLoadingAt, newEntry, createEntry]
      · intro a e he
        by_cases hne : a = c.nextEntry
        · subst hne
          rw [created_entries_new, Option.some.injEq] at he
          have hsizes := Entry.createEntry_sizesOk key 4096 now
          exact he ▸ ⟨hsizes.pos, hsizes.lt, hsizes.fits⟩
        · rw [created_entries_of_ne hne] at he
          exact hc.sizes a e he
  | touched _ hfind hsame hentries =>
      have he := (findEntry_eq_some hfind).2.1
      have hsizes := hc.sizes _ _ he
      refine hc.rewrite hsame hentries ⟨hsizes.pos, hsizes.lt, hsizes.fits⟩ ?_
      intro hlinked
      simpa [isLoadingAt, he] using hc.loading _ hlinked
  | appended he hload happ =>
      refine hc.rewrite (.putEntry c _ _) rfl
        ((hc.sizes _ _ he).appendData happ) fun _ => ?_
      exact (Entry.appendData_cases happ).2.1.trans hload
  | finished he hload hfin =>
      refine hc.rewrite (.putEntry c _ _) rfl
        ((hc.sizes _ _ he).finishLoading hfin) fun hlinked => ?_
      have hnot := hop _ _ _ rfl hlinked
      simp [isLoadingAt, he, hload] at hnot
  | cancelled hmem he _ hload =>
      refine ⟨hc.size, ?_, ?_⟩
      · intro a ha
        obtain ⟨hne, hlinked⟩ := (hw.removeEntry_linked hmem).mp ha
        simpa [isLoadingAt, removeEntry, hne] using hc.loading a hlinked
      · intro a e he
        simp only [removeEntry, Function.update_apply] at he
        split at he
        · cases he
        · exact hc.sizes a e he
  | cleaned hclean =>
      rw [hc.cleanExpired_eq_self] at hclean
      exact Option.some.inj hclean ▸ hc
  | waiters l he =>
      have hsizes := hc.sizes _ _ he
      refine hc.rewrite (.putEntry c _ _) rfl
        ⟨hsizes.pos, hsizes.lt, hsizes.fits⟩ fun hlinked => ?_
      simpa [isLoadingAt, he] using hc.loading _ hlinked

/-- `current_size` is the size of the finished linked entries, and no call of
the collector would take more than that from it. -/
def SizeKept (c : Cache) : Prop :=
  c.currentSize = .ofNat (∑ a ∈ c.linkedSet, c.finishedSize a) ∧
    ∀ now, ∑ a ∈ c.linkedSet with c.isExpired now a = true, c.finishedSize a ≤
      c.currentSize.toNat

theorem Unfinished.sizeKept {c : Cache} (hc : c.Unfinished) (hw : c.WF) :
    c.SizeKept := by
  have hzero : ∀ a ∈ c.linkedSet, c.finishedSize a = 0 :=
    fun a ha => hc.finishedSize_eq (hw.mem_linkedSet.mp ha)
  constructor
  · rw [Finset.sum_eq_zero hzero, hc.size]
    rfl
  · intro now
    rw [Finset.sum_eq_zero fun a ha => hzero a (Finset.mem_filter.mp ha).1]
    exact Nat.zero_le _

/-- The first linked entry that is finished is missing from the size. -/
theorem Unfinished.not_sizeKept
    {c : Cache} (hc : c.Unfinished) (hw : c.WF) {a : ℕ} {e e' : Entry}
    {now : ℤ} {ok : Bool} (hlinked : c.Linked a) (he : c.entries a = some e)
    (hfin : e.finishLoading now ok = some e') : ¬(c.putEntry a e').SizeKept := by
  have hsizes := (hc.sizes a e he).finishLoading hfin
  have hload : e'.isLoading = false := (Entry.finishLoading_spec hfin).2.1
  have hsum : ∑ x ∈ (c.putEntry a e').linkedSet, (c.putEntry a e').finishedSize x =
      e'.allocatedSize := by
    have hself : (c.putEntry a e').finishedSize a = e'.allocatedSize := by
      simp [finishedSize, putEntry, hload]
    change ∑ x ∈ c.linkedSet, _ = _
    rw [Finset.sum_eq_single_of_mem a (hw.mem_linkedSet.mpr hlinked), hself]
    intro x hx hne
    have hzero := hc.finishedSize_eq (hw.mem_linkedSet.mp hx)
    simpa [finishedSize, putEntry, hne] using hzero
  rintro ⟨hsize, -⟩
  rw [hsum] at hsize
  have hnat := congrArg UInt64.toNat (hc.size.symm.trans hsize)
  rw [UInt64.toNat_ofNat_of_lt' hsizes.lt] at hnat
  exact hsizes.pos.ne hnat

end Cache

namespace Memory

/-- The entries that hang off the heads of the buckets. -/
def LinkedSet (m : Memory) (S : Finset ℕ) : Prop :=
  ∀ a, a ∈ S ↔ ∃ b xs, m.EntriesOf b xs ∧ a ∈ xs

/-- `current_entries` is the number of linked entries.  It is one modulo
`2 ^ 64`; with fewer entries than that it has not wrapped. -/
def CountExact (m : Memory) : Prop :=
  ∃ S, m.LinkedSet S ∧ m.currentEntries = .ofNat S.card ∧
    (S.card < sizeRange → m.currentEntries.toNat = S.card)

/-- A call of `cache_clean_expired` finds no expired entry directly behind a
loading one. -/
def SweepsAll (m : Memory) (op : CacheCall) : Prop :=
  ∀ now, op = .cleanExpired now → m.NoneSkipped now

/-- The size that an entry counts for: loading entries are left out. -/
def finishedSize (m : Memory) (a : ℕ) : ℕ :=
  (m.entryCells a).elim 0 fun e => if e.isLoading then 0 else e.allocatedSize

/-- `current_size` is the size of the finished linked entries, modulo `2 ^ 64`,
and what `cache_clean_expired` subtracts, whenever it is called, is no more
than that. -/
def SizeKept (m : Memory) : Prop :=
  ∃ S, m.LinkedSet S ∧
    m.currentSize = .ofNat (∑ a ∈ S, m.finishedSize a) ∧
    ∀ now, ∑ a ∈ S with m.expiredAt now a = true, m.finishedSize a ≤
      m.currentSize.toNat

/-- A call of `cache_finish_loading` on a linked entry that is loading. -/
def Finishes (m : Memory) (op : CacheCall) : Prop :=
  ∃ a now ok, op = .finishLoading (some a) now ok ∧
    (∃ b xs, m.EntriesOf b xs ∧ a ∈ xs) ∧ m.loadingAt a = true

end Memory

section Runs

variable {m m' : Memory} {c : Cache}

theorem Represents.linked_iff (hr : Represents m c) {a : ℕ} :
    (∃ b xs, m.EntriesOf b xs ∧ a ∈ xs) ↔ c.Linked a := by
  constructor
  · rintro ⟨b, xs, hxs, ha⟩
    exact ⟨b, hr.entriesOf_iff.mp hxs ▸ ha⟩
  · rintro ⟨b, ha⟩
    exact ⟨b, _, hr.entriesOf_iff.mpr rfl, ha⟩

theorem Represents.linkedSet_iff
    (hr : Represents m c) (hw : c.WF) {S : Finset ℕ} :
    m.LinkedSet S ↔ S = c.linkedSet := by
  unfold Memory.LinkedSet
  simp only [hr.linked_iff, Finset.ext_iff, hw.mem_linkedSet]

theorem Represents.countExact_iff
    (hr : Represents m c) (hw : c.WF) : m.CountExact ↔ c.Counted := by
  have hfields := congrArg CacheFields.currentEntries hr.fields
  unfold Cache.Counted
  rw [← hfields]
  constructor
  · rintro ⟨S, hS, hcount, -⟩
    rwa [(hr.linkedSet_iff hw).mp hS] at hcount
  · intro hcount
    refine ⟨c.linkedSet, (hr.linkedSet_iff hw).mpr rfl, hcount, fun hlt => ?_⟩
    rw [hcount]
    exact UInt64.toNat_ofNat_of_lt' hlt

/-- The invariant of the runs in which every sweep is complete. -/
def Memory.Accounted (m : Memory) : Prop :=
  ∃ c : Cache, Represents m c ∧ c.WF ∧ c.Counted

theorem Memory.accounted_call
    {op : CacheCall} (hm : m.Accounted) (hsweep : m.SweepsAll op)
    (hcall : m.call op = some m') : m'.Accounted := by
  obtain ⟨c, hr, hw, hc⟩ := hm
  obtain ⟨c', hcase, hr', hw'⟩ := hr.call_case hw hcall
  refine ⟨c', hr', hw', hcase.counted hw hw' hc fun now hop => ?_⟩
  exact hr.noneSkipped_iff.mp (hsweep now hop)

/-- In every run in which no call of `cache_clean_expired` meets an expired
entry directly behind a loading one, `current_entries` is the number of linked
entries. -/
theorem Memory.countExact_of_sweepsAll
    (numBuckets : ℕ) (defaultTtl : ℤ) (m : Memory)
    (hm : (calls numBuckets defaultTtl).ReachableUnder SweepsAll m) :
    m.CountExact := by
  have hacc : m.Accounted := by
    refine hm.invariant ?_ fun s op s' hs hallowed hstep =>
      accounted_call hs hallowed hstep
    rintro s rfl
    have hw := Cache.wf_init numBuckets defaultTtl
    refine ⟨_, .init numBuckets defaultTtl, hw, ?_⟩
    have hempty : (Cache.init numBuckets defaultTtl).linkedSet = ∅ := by
      refine Finset.eq_empty_of_forall_notMem fun a ha => ?_
      obtain ⟨b, hb⟩ := hw.mem_linkedSet.mp ha
      cases hb
    rw [Cache.Counted, hempty]
    rfl
  obtain ⟨c, hr, hw, hc⟩ := hacc
  exact (hr.countExact_iff hw).mpr hc

/-- A sweep that skips an entry makes the count wrong. -/
theorem Memory.not_countExact_of_skipped
    {now : ℤ} (hm : m.Represented) (hcount : m.CountExact)
    (hfew : ∀ S, m.LinkedSet S → S.card < sizeRange)
    (hskip : ¬m.NoneSkipped now) (hcall : m.cacheCleanExpired now = some m') :
    ¬m'.CountExact := by
  obtain ⟨c, hr, hw⟩ := hm
  have hop : m.call (.cleanExpired now) = some m' := hcall
  obtain ⟨c', hclean, hr', hw'⟩ := hr.call hw hop
  have hlt := hfew _ ((hr.linkedSet_iff hw).mpr rfl)
  rw [hr.countExact_iff hw] at hcount
  rw [hr'.countExact_iff hw', Cache.Counted,
    hw.counted_cleanExpired hcount hclean]
  have hsub := hw.cleanExpired_linkedSet_subset hclean
  have hle : (c.freshSet now).card ≤ c.linkedSet.card :=
    Finset.card_filter_le _ _
  intro heq
  have hcard : (c.freshSet now).card = c'.linkedSet.card := by
    have hnat := congrArg UInt64.toNat heq
    rwa [UInt64.toNat_ofNat_of_lt' (hle.trans_lt hlt),
      UInt64.toNat_ofNat_of_lt'
        (((Finset.card_le_card hsub).trans hle).trans_lt hlt)] at hnat
  have hall := Finset.eq_of_subset_of_card_le hsub hcard.le
  exact hskip (hr.noneSkipped_iff.mpr
    ((hw.cleanExpired_linkedSet_iff hclean).mp hall))

/-- Only the buckets of the cache have entries. -/
theorem Memory.Represented.bucket_lt
    (hm : m.Represented) {a b : ℕ} {xs : List ℕ} (hxs : m.EntriesOf b xs)
    (ha : a ∈ xs) : b < m.numBuckets := by
  obtain ⟨c, hr, hw⟩ := hm
  rw [hr.entriesOf_iff.mp hxs] at ha
  have hfields := congrArg CacheFields.numBuckets hr.fields
  exact hfields ▸ hw.lt_of_mem_chain ha

/-- With one bucket only its chain matters. -/
theorem Memory.Represented.noneSkipped_of_one
    (hm : m.Represented) (hone : m.numBuckets = 1) {now : ℤ} {xs : List ℕ}
    (hxs : m.EntriesOf 0 xs)
    (hchain : Cache.Unskipped m.loadingAt (m.expiredAt now) xs) :
    m.NoneSkipped now := by
  intro b ys hys
  cases ys with
  | nil => exact List.isChain_nil
  | cons a ys =>
      have hlt := hm.bucket_lt hys (List.mem_cons_self ..)
      obtain rfl : b = 0 := by omega
      rw [hys.unique hxs]
      exact hchain

theorem Memory.Represented.linkedSet_of_one
    (hm : m.Represented) (hone : m.numBuckets = 1) {xs : List ℕ}
    (hxs : m.EntriesOf 0 xs) {S : Finset ℕ} (hS : m.LinkedSet S) :
    S = xs.toFinset := by
  ext a
  rw [hS a, List.mem_toFinset]
  constructor
  · rintro ⟨b, ys, hys, ha⟩
    have hlt := hm.bucket_lt hys ha
    obtain rfl : b = 0 := by omega
    exact hys.unique hxs ▸ ha
  · exact fun ha => ⟨0, xs, hxs, ha⟩

/-- The loading entry that is swept away with the expired one is still
counted. -/
theorem Memory.countExact_staleCalls :
    ∃ m, (calls 1 60).run (cacheInit 1 60) (staleCalls [.cleanExpired 100]) =
      some m ∧ ¬m.CountExact := by
  refine ⟨_, rfl, ?_⟩
  have hm := represented_of_run (rfl : (calls 1 60).run (cacheInit 1 60)
    (staleCalls [.cleanExpired 100]) = some _)
  rintro ⟨S, hS, hcount, -⟩
  rw [hm.linkedSet_of_one rfl Chain.nil hS] at hcount
  exact absurd hcount (by decide)

/-- An entry of one byte is collected when it has expired, and then another one
starts to load. -/
def Memory.collectedCalls : List CacheCall :=
  [.startLoading (.ofBuffer [97]) 0 true, .appendData (some 0) [65] 0 true,
    .finishLoading (some 0) 0 true, .cleanExpired 100,
    .startLoading (.ofBuffer [98]) 100 true]

theorem Memory.countExact_of_sweepsAll_collected :
    ∃ m, (calls 1 60).run (cacheInit 1 60) collectedCalls = some m ∧
      m.currentEntries = 1 ∧ m.CountExact := by
  refine ⟨_, rfl, rfl, countExact_of_sweepsAll 1 60 _ ?_⟩
  refine TransitionSystem.ReachableUnder.run (.initial rfl) ?_
    (rfl : (calls 1 60).run (cacheInit 1 60) collectedCalls = some _)
  have hother : ∀ {m : Memory} {op : CacheCall}, (∀ now, op ≠ .cleanExpired now) →
      m.SweepsAll op := fun hop now heq => absurd heq (hop now)
  refine ⟨hother (by simp), fun m₁ hm₁ => ⟨hother (by simp), fun m₂ hm₂ =>
    ⟨hother (by simp), fun m₃ hm₃ => ?_⟩⟩⟩
  obtain rfl := Option.some.inj hm₁
  obtain rfl := Option.some.inj hm₂
  obtain rfl := Option.some.inj hm₃
  refine ⟨?_, fun m₄ hm₄ => ⟨hother (by simp), fun _ _ => trivial⟩⟩
  -- the expired entry is alone in its chain
  rintro now ⟨⟩
  have hm := represented_of_run (rfl : (calls 1 60).run (cacheInit 1 60)
    (collectedCalls.take 3) = some _)
  exact hm.noneSkipped_of_one rfl (Chain.cons rfl Chain.nil)
    (List.isChain_singleton _)

/-! ## The size along a run -/

theorem Represents.sizeKept_iff
    (hr : Represents m c) (hw : c.WF) : m.SizeKept ↔ c.SizeKept := by
  have hsize : m.finishedSize = c.finishedSize := by
    funext a
    rw [Memory.finishedSize, Cache.finishedSize, ← hr.entries]
    cases m.entryCells a <;> rfl
  have hfields := congrArg CacheFields.currentSize hr.fields
  unfold Memory.SizeKept Cache.SizeKept
  simp only [hr.linkedSet_iff hw, exists_eq_left, hr.expiredAt_eq, hsize,
    hfields]

theorem Represents.finishes_iff (hr : Represents m c) {op : CacheCall} :
    m.Finishes op ↔ ∃ a now ok, op = .finishLoading (some a) now ok ∧
      c.Linked a ∧ c.isLoadingAt a = true := by
  unfold Memory.Finishes
  simp only [hr.linked_iff, hr.loadingAt_eq]

/-- The invariant of the runs that finish no linked entry. -/
def Memory.Unfinished (m : Memory) : Prop :=
  ∃ c : Cache, Represents m c ∧ c.WF ∧ c.Unfinished

theorem Memory.unfinished_call
    {op : CacheCall} (hm : m.Unfinished) (hop : ¬m.Finishes op)
    (hcall : m.call op = some m') : m'.Unfinished := by
  obtain ⟨c, hr, hw, hc⟩ := hm
  obtain ⟨c', hcase, hr', hw'⟩ := hr.call_case hw hcall
  refine ⟨c', hr', hw', hcase.unfinished hw hc ?_⟩
  intro a now ok hcallop hlinked
  rw [hr.finishes_iff] at hop
  by_contra hload
  exact hop ⟨a, now, ok, hcallop, hlinked, by simpa using hload⟩

theorem Memory.not_sizeKept_of_finishes
    {op : CacheCall} (hm : m.Unfinished) (hop : m.Finishes op)
    (hcall : m.call op = some m') : ¬m'.SizeKept := by
  obtain ⟨c, hr, hw, hc⟩ := hm
  obtain ⟨c', hcall', hr', hw'⟩ := hr.call hw hcall
  obtain ⟨a, now, ok, rfl, hlinked, hload⟩ := hr.finishes_iff.mp hop
  rw [hr'.sizeKept_iff hw']
  rw [Cache.isLoadingAt, Option.any_eq_true] at hload
  obtain ⟨e, he, hload⟩ := hload
  obtain ⟨⟨r, c''⟩, hret, rfl⟩ := Option.map_eq_some_iff.mp hcall'
  simp only [Cache.finishLoading, he, Option.bind_some, hload, if_true,
    Option.map_eq_some_iff, Prod.mk.injEq] at hret
  obtain ⟨e', hfin, -, rfl⟩ := hret
  exact hc.not_sizeKept hw hlinked he hfin

/-- In every run, `current_size` is right after each call if and only if the
run finishes no linked entry. -/
theorem Memory.sizeKept_iff_noneFinished
    (numBuckets : ℕ) (defaultTtl : ℤ) (ops : List CacheCall) (m : Memory)
    (hrun : (calls numBuckets defaultTtl).run
      (cacheInit numBuckets defaultTtl) ops = some m) :
    (∀ pre, pre <+: ops → ∀ m', (calls numBuckets defaultTtl).run
        (cacheInit numBuckets defaultTtl) pre = some m' → m'.SizeKept) ↔
      (calls numBuckets defaultTtl).RunAllowed (fun m op => ¬m.Finishes op)
        (cacheInit numBuckets defaultTtl) ops := by
  refine TransitionSystem.forall_prefix_iff_runAllowed (I := Memory.Unfinished)
    ?_ (fun _ _ _ => unfinished_call) ?_ ?_ hrun
  · rintro m ⟨c, hr, hw, hc⟩
    exact (hr.sizeKept_iff hw).mpr (hc.sizeKept hw)
  · intro m op m' hm hop hcall
    exact not_sizeKept_of_finishes hm (not_not.mp hop) hcall
  · refine ⟨_, .init numBuckets defaultTtl, Cache.wf_init _ _, rfl, ?_, ?_⟩
    · rintro a ⟨b, hb⟩
      cases hb
    · intro a e he
      cases he

/-- One entry is created and finished, without `cache_clean_expired`. -/
def Memory.finishedCalls : List CacheCall :=
  [.startLoading (.ofBuffer [97]) 0 true,
    .appendData (some 0) [65, 66] 0 true, .finishLoading (some 0) 0 true]

/-- Its block of two bytes is in no counter. -/
theorem Memory.not_sizeKept_finishedCalls :
    ∃ m, (calls 1 60).run (cacheInit 1 60) finishedCalls = some m ∧
      ¬m.SizeKept := by
  refine ⟨_, rfl, ?_⟩
  have hm := represented_of_run (rfl : (calls 1 60).run (cacheInit 1 60)
    finishedCalls = some _)
  rintro ⟨S, hS, hsize, -⟩
  rw [hm.linkedSet_of_one rfl (Chain.cons rfl Chain.nil) hS] at hsize
  exact absurd hsize (by decide)

theorem Memory.sizeKept_iff_noneFinished_loading :
    ∃ m, (calls 1 60).run (cacheInit 1 60) (finishedCalls.take 2) = some m ∧
      ((∀ pre, pre <+: finishedCalls.take 2 → ∀ m', (calls 1 60).run
          (cacheInit 1 60) pre = some m' → m'.SizeKept) ↔
        (calls 1 60).RunAllowed (fun m op => ¬m.Finishes op)
          (cacheInit 1 60) (finishedCalls.take 2)) :=
  ⟨_, rfl, sizeKept_iff_noneFinished 1 60 _ _ rfl⟩

end Runs

end Proxy
end OsFifthSem
