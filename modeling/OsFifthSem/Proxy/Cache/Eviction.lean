import OsFifthSem.Proxy.Cache.Accounting

/-!
# Use and eviction

The collector goes by `last_accessed`, and a lookup that copies a chunk sets
it.  The branch of `cache_lookup_partial` for finished entries does not, so an
entry whose last chunk is old enough is collected however often it is found.
-/

namespace OsFifthSem
namespace Proxy

open Support

/-- The time that a call reads from the clock, or at which it runs. -/
def CacheCall.time : CacheCall → Option ℤ
  | .startLoading _ now _ => some now
  | .appendData _ _ now _ => some now
  | .finishLoading _ now _ => some now
  | .cleanExpired now => some now
  | .lookup _ now => some now
  | .lookupPartial _ _ _ now => some now
  | .cancelLoading _ => none
  | .registerWaiter _ _ _ => none
  | .unregisterWaiter _ _ => none

theorem CacheCall.time_of_asLookup
    {op : CacheCall} {key : CString} {offset maxSize : ℕ} {now : ℤ}
    (h : op.asLookup = some (key, offset, maxSize, now)) :
    op.time = some now := by
  cases op <;> simp_all [CacheCall.asLookup, CacheCall.time]

namespace Cache

/-- The entry whose data a lookup returns, and the time. -/
def served (c : Cache) (op : CacheCall) : Option (ℕ × ℤ) := do
  let (key, offset, maxSize, now) ← op.asLookup
  let (a, e) ← c.findEntry key
  let r := readEntry e.isLoading e.data offset maxSize
  if r.status = .found ∨ r.status = .newLoaded then some (a, now) else none

/-- A lookup without a maximum of an entry that is finished and was last
accessed before. -/
def StaleHit (c : Cache) (op : CacheCall) : Prop :=
  ∃ key offset now a e, op.asLookup = some (key, offset, 0, now) ∧
    c.findEntry key = some (a, e) ∧ e.isLoading = false ∧ e.lastAccessed < now

/-- What has been served was accessed no earlier than that. -/
structure Timed (c : Cache) (clock : ℤ) (served : List (ℕ × ℤ)) : Prop where
  past : ∀ a t, (a, t) ∈ served → t ≤ clock
  known : ∀ a t, (a, t) ∈ served → a < c.nextEntry
  recent : ∀ a t e, (a, t) ∈ served → c.entries a = some e →
    t ≤ e.lastAccessed

variable {c c' : Cache} {op : CacheCall}

/-- An entry is only changed by a call that sets the time of its last access,
if it is changed in that respect. -/
theorem CallCase.lastAccessed
    (hcase : c.CallCase op c') (hw : c.WF) :
    c.nextEntry ≤ c'.nextEntry ∧
      ∀ a e', a < c.nextEntry → c'.entries a = some e' →
        ∃ e, c.entries a = some e ∧
          (e'.lastAccessed = e.lastAccessed ∨
            op.time = some e'.lastAccessed) := by
  have hput : ∀ {a₀ : ℕ} {e₀ e₁ : Entry}, c.entries a₀ = some e₀ →
      (e₁.lastAccessed = e₀.lastAccessed ∨ op.time = some e₁.lastAccessed) →
      ∀ a e', (c.putEntry a₀ e₁).entries a = some e' →
        ∃ e, c.entries a = some e ∧
          (e'.lastAccessed = e.lastAccessed ∨
            op.time = some e'.lastAccessed) := by
    intro a₀ e₀ e₁ he₀ htime a e' he'
    simp only [putEntry, Function.update_apply] at he'
    split at he'
    next heq =>
      obtain rfl := Option.some.inj he'
      exact ⟨e₀, heq ▸ he₀, htime⟩
    next => exact ⟨e', he', .inl rfl⟩
  cases hcase with
  | same hsame hentries =>
      refine ⟨hsame.nextEntry.ge, fun a e' _ he' => ?_⟩
      exact ⟨e', hentries ▸ he', .inl rfl⟩
  | created key now hfind =>
      refine ⟨Nat.le_succ _, fun a e' ha he' => ⟨e', ?_, .inl rfl⟩⟩
      rwa [created_entries_of_ne ha.ne] at he'
  | touched hop hfind hsame hentries =>
      refine ⟨hsame.nextEntry.ge, fun a e' _ he' => ?_⟩
      rw [hentries] at he'
      exact hput (findEntry_eq_some hfind).2.1
        (.inr (CacheCall.time_of_asLookup hop)) a e' he'
  | appended he hload happ =>
      refine ⟨le_rfl, fun a e' _ => hput he ?_ a e'⟩
      obtain ⟨-, ⟨_, -, rfl, -⟩ | ⟨-, -, rfl⟩⟩ := Entry.appendData_eq_some happ
      · exact .inr rfl
      · exact .inr rfl
  | finished he hload hfin =>
      refine ⟨le_rfl, fun a e' _ => hput he (.inr ?_) a e'⟩
      rw [(Entry.finishLoading_spec hfin).2.2.2.2]
      rfl
  | cancelled hmem he _ _ =>
      refine ⟨le_rfl, fun a e' _ he' => ⟨e', ?_, .inl rfl⟩⟩
      simp only [removeEntry, Function.update_apply] at he'
      split at he'
      · cases he'
      · exact he'
  | cleaned hclean =>
      have hs := hw.swept hclean
      refine ⟨hs.nextEntry.ge, fun a e' _ he' => ⟨e', ?_, .inl rfl⟩⟩
      rw [hs.entries] at he'
      split at he'
      · cases he'
      · exact he'
  | waiters l he =>
      refine ⟨le_rfl, fun a e' _ => hput he (.inl ?_) a e'⟩
      rfl

theorem CallCase.timed
    {clock : ℤ} {served : List (ℕ × ℤ)} (hcase : c.CallCase op c') (hw : c.WF)
    (hc : c.Timed clock served) (htime : ∀ now, op.time = some now → clock ≤ now) :
    c'.Timed (op.time.getD clock) served := by
  obtain ⟨hnext, haccess⟩ := hcase.lastAccessed hw
  refine ⟨?_, fun a t h => (hc.known a t h).trans_le hnext, ?_⟩
  · intro a t h
    have hpast := hc.past a t h
    cases hop : op.time with
    | none => exact hpast
    | some now => exact hpast.trans (htime now hop)
  · intro a t e' h he'
    obtain ⟨e, he, hsame | hset⟩ := haccess a e' (hc.known a t h) he'
    · exact hsame ▸ hc.recent a t e h he
    · exact (hc.past a t h).trans (htime _ hset)

theorem call_of_asLookup
    {key : CString} {offset maxSize : ℕ} {now : ℤ}
    (hop : op.asLookup = some (key, offset, maxSize, now)) :
    c.call op = some (c.lookupPartial key offset maxSize now).2 := by
  cases op <;> simp only [CacheCall.asLookup, reduceCtorEq, Option.some.injEq,
    Prod.mk.injEq] at hop
  all_goals
    obtain ⟨rfl, rfl, rfl, rfl⟩ := hop
    rfl

theorem readEntry_found_iff
    {loading : Bool} {bytes : List UInt8} {offset maxSize : ℕ} :
    (readEntry loading bytes offset maxSize).status = .found ↔
      loading = false ∧ maxSize = 0 := by
  simp only [readEntry]
  split_ifs <;> simp_all

theorem served_eq_some
    {a : ℕ} {t : ℤ} (h : c.served op = some (a, t)) :
    ∃ key offset maxSize e, op.asLookup = some (key, offset, maxSize, t) ∧
      c.findEntry key = some (a, e) ∧
      ((e.isLoading = false ∧ maxSize = 0) ∨
        (readEntry e.isLoading e.data offset maxSize).status = .newLoaded) := by
  obtain ⟨⟨key, offset, maxSize, now⟩, hop, h⟩ := Option.bind_eq_some_iff.mp h
  obtain ⟨⟨a', e⟩, hfind, h⟩ := Option.bind_eq_some_iff.mp h
  obtain ⟨hstatus, h⟩ := Option.ite_none_right_eq_some.mp h
  obtain ⟨rfl, rfl⟩ := Prod.mk.inj (Option.some.inj h)
  exact ⟨key, offset, maxSize, e, hop, hfind,
    hstatus.imp_left readEntry_found_iff.mp⟩

/-- A lookup that is not stale leaves the entry that it serves accessed at
that time. -/
theorem served_recent
    {a : ℕ} {t : ℤ} {e' : Entry} (h : c.served op = some (a, t))
    (hstale : ¬c.StaleHit op) (hcall : c.call op = some c')
    (he' : c'.entries a = some e') : t ≤ e'.lastAccessed := by
  obtain ⟨key, offset, maxSize, e, hop, hfind, hread⟩ := served_eq_some h
  rw [call_of_asLookup hop, Option.some.injEq] at hcall
  subst hcall
  simp only [lookupPartial, hfind] at he'
  split at he'
  next hloaded =>
    simp only [putEntry, Function.update_self, Option.some.injEq] at he'
    subst he'
    simp [Entry.touch, hloaded]
  next hnot =>
    rw [(findEntry_eq_some hfind).2.1, Option.some.injEq] at he'
    subst he'
    rcases hread with ⟨hload, rfl⟩ | hloaded
    · by_contra hlt
      exact hstale ⟨key, offset, t, a, e, hop, hfind, hload, by omega⟩
    · exact absurd hloaded hnot

/-- The invariant of the runs without a stale hit. -/
theorem Timed.call
    {clock : ℤ} {served : List (ℕ × ℤ)} (hc : c.Timed clock served) (hw : c.WF)
    (htime : ∀ now, op.time = some now → clock ≤ now)
    (hstale : ¬c.StaleHit op) (hcall : c.call op = some c') :
    c'.Timed (op.time.getD clock) ((c.served op).toList ++ served) := by
  have hcase := call_case hcall
  obtain ⟨hpast, hknown, hrecent⟩ := hcase.timed hw hc htime
  cases hserved : c.served op with
  | none => exact ⟨hpast, hknown, hrecent⟩
  | some p =>
      obtain ⟨a₀, t₀⟩ := p
      obtain ⟨key, offset, maxSize, e, hop, hfind, -⟩ := served_eq_some hserved
      simp only [Option.toList_some, List.singleton_append]
      refine ⟨?_, ?_, ?_⟩
      · intro a t hmem
        rcases List.mem_cons.mp hmem with heq | hmem
        · obtain ⟨rfl, rfl⟩ := Prod.mk.inj heq
          simp [CacheCall.time_of_asLookup hop]
        · exact hpast a t hmem
      · intro a t hmem
        rcases List.mem_cons.mp hmem with heq | hmem
        · obtain ⟨rfl, rfl⟩ := Prod.mk.inj heq
          have hlt := hw.fresh a e (findEntry_eq_some hfind).2.1
          exact hlt.trans_le (hcase.lastAccessed hw).1
        · exact hknown a t hmem
      · intro a t e' hmem he'
        rcases List.mem_cons.mp hmem with heq | hmem
        · obtain ⟨rfl, rfl⟩ := Prod.mk.inj heq
          exact served_recent hserved hstale hcall he'
        · exact hrecent a t e' hmem he'

/-- What was served less than `default_ttl` ago survives a call that skips
nothing. -/
theorem Timed.survives
    {clock : ℤ} {served : List (ℕ × ℤ)} (hc : c.Timed clock served) (hw : c.WF)
    {a : ℕ} {t now : ℤ} (hserved : (a, t) ∈ served)
    (hnow : now ≤ t + c.defaultTtl) (hnone : c.NoneSkipped now)
    (hclean : c.cleanExpired now = some c') (hlinked : c.Linked a) :
    c'.Linked a := by
  obtain ⟨b, hb⟩ := hlinked
  obtain ⟨e, he, -⟩ := hw.linked b a hb
  have hrecent := hc.recent a t e hserved he
  refine ⟨b, ?_⟩
  rw [(hw.cleanExpired_chain_iff hclean b).mpr (hnone b), List.mem_filter]
  refine ⟨hb, ?_⟩
  have hfresh : ¬e.lastAccessed + c.defaultTtl < now := by omega
  simp [isExpired, he, Entry.expired, hfresh]

/-- What is expired does not. -/
theorem WF.not_linked_of_expired
    (hw : c.WF) {a : ℕ} {now : ℤ} (hclean : c.cleanExpired now = some c')
    (hexp : c.isExpired now a = true) : ¬c'.Linked a := by
  rintro ⟨b, hb⟩
  have hmem := (hw.cleanExpired_chain_sublist hclean b).subset hb
  simpa [hexp] using (List.mem_filter.mp hmem).2

end Cache

/-! ## Runs with a clock -/

namespace Memory

/-- The loop of a lookup, which stops at the first entry with the key. -/
def findEntry (m : Memory) (key : CString) : Option (ℕ × EntryCell) := do
  let (_, cur) ← m.scanEntries (fun e => decide (e.key = key)) (m.bucketOf key)
  let a ← cur
  let e ← m.entryCells a
  some (a, e)

/-- The entry whose data a lookup returns, and the time. -/
def served (m : Memory) (op : CacheCall) : Option (ℕ × ℤ) := do
  let (key, offset, maxSize, now) ← op.asLookup
  let (r, _) ← m.cacheLookupPartial key offset maxSize now
  let (a, _) ← m.findEntry key
  if r.status = .found ∨ r.status = .newLoaded then some (a, now) else none

/-- A lookup with `max_size` 0, as `cache_lookup` makes it, of an entry that is
finished and was last accessed at an earlier time. -/
def StaleHit (m : Memory) (op : CacheCall) : Prop :=
  ∃ key offset now a e, op.asLookup = some (key, offset, 0, now) ∧
    m.findEntry key = some (a, e) ∧ e.isLoading = false ∧ e.lastAccessed < now

/-- The entry hangs off the head of some bucket. -/
def LinkedIn (m : Memory) (a : ℕ) : Prop :=
  ∃ b xs, m.EntriesOf b xs ∧ a ∈ xs

end Memory

/-- The cache, the clock, and the entries that lookups have served, with the
times. -/
structure TimedMemory where
  memory : Memory
  clock : ℤ
  served : List (ℕ × ℤ)

/-- The calls with a clock that never goes back. -/
def timedCalls (numBuckets : ℕ) (defaultTtl : ℤ) :
    TransitionSystem TimedMemory CacheCall where
  Initial := fun s =>
    s.memory = Memory.cacheInit numBuckets defaultTtl ∧ s.served = []
  step := fun s op =>
    if op.time.all (s.clock ≤ ·) then
      (s.memory.call op).map fun m =>
        ⟨m, op.time.getD s.clock, (s.memory.served op).toList ++ s.served⟩
    else none

namespace TimedMemory

/-- A lookup that finds a finished entry comes in the second of its last
access, and the collector skips no entry. -/
def Prompt (s : TimedMemory) (op : CacheCall) : Prop :=
  ¬s.memory.StaleHit op ∧ s.memory.SweepsAll op

variable {numBuckets : ℕ} {defaultTtl : ℤ} {s s' : TimedMemory}
  {op : CacheCall}

theorem step_eq_some_iff :
    (timedCalls numBuckets defaultTtl).step s op = some s' ↔
      (∀ now, op.time = some now → s.clock ≤ now) ∧
        ∃ m, s.memory.call op = some m ∧
          ⟨m, op.time.getD s.clock,
            (s.memory.served op).toList ++ s.served⟩ = s' := by
  simp only [timedCalls, Option.ite_none_right_eq_some,
    Option.map_eq_some_iff, Option.all_eq_true, decide_eq_true_eq]

end TimedMemory

section Timed

variable {m : Memory} {c : Cache}

theorem Represents.findEntry_eq (hr : Represents m c) (hw : c.WF) (key : CString) :
    (m.findEntry key).map (fun p => (p.1, p.2.toEntry)) = c.findEntry key := by
  unfold Memory.findEntry
  rcases hr.scanEntries_key hw key with
    ⟨prev, a, cell, hscan, hcell, hfind⟩ | ⟨last, hscan, hfind⟩
  · simp [hscan, hcell, hfind]
  · simp [hscan, hfind]

theorem Represents.served_eq (hr : Represents m c) (hw : c.WF) (op : CacheCall) :
    m.served op = c.served op := by
  unfold Memory.served Cache.served
  cases hop : op.asLookup with
  | none => rfl
  | some args =>
      obtain ⟨key, offset, maxSize, now⟩ := args
      obtain ⟨m', hm', -⟩ := hr.cacheLookupPartial hw key offset maxSize now
      have hfind := hr.findEntry_eq hw key
      simp only [Option.bind_eq_bind, Option.bind_some, hm', ← hfind,
        Option.bind_map, Function.comp_def]
      cases hcell : m.findEntry key with
      | none => rfl
      | some p =>
          rw [hcell, Option.map_some] at hfind
          have hresult : (c.lookupPartial key offset maxSize now).1 =
              readEntry p.2.isLoading p.2.data offset maxSize := by
            simp only [Cache.lookupPartial, ← hfind]
            split <;> rfl
          simp only [Option.bind_some, hresult]

theorem Represents.staleHit_iff
    (hr : Represents m c) (hw : c.WF) {op : CacheCall} :
    m.StaleHit op ↔ c.StaleHit op := by
  unfold Memory.StaleHit Cache.StaleHit
  constructor
  · rintro ⟨key, offset, now, a, e, hop, hfind, hload, hlast⟩
    refine ⟨key, offset, now, a, e.toEntry, hop, ?_, hload, hlast⟩
    rw [← hr.findEntry_eq hw, hfind]
    rfl
  · rintro ⟨key, offset, now, a, e, hop, hfind, hload, hlast⟩
    rw [← hr.findEntry_eq hw, Option.map_eq_some_iff] at hfind
    obtain ⟨⟨a', cell⟩, hcell, heq⟩ := hfind
    obtain ⟨rfl, rfl⟩ := Prod.mk.inj heq
    exact ⟨key, offset, now, a', cell, hop, hcell, hload, hlast⟩

namespace TimedMemory

variable {numBuckets : ℕ} {defaultTtl : ℤ} {s s' : TimedMemory}
  {op : CacheCall}

/-- The invariant of the prompt runs. -/
def Timed (s : TimedMemory) : Prop :=
  ∃ c : Cache, Represents s.memory c ∧ c.WF ∧ c.Timed s.clock s.served

theorem timed_step
    (hs : s.Timed) (hprompt : s.Prompt op)
    (hstep : (timedCalls numBuckets defaultTtl).step s op = some s') :
    s'.Timed := by
  obtain ⟨c, hr, hw, hc⟩ := hs
  obtain ⟨htime, m, hcall, rfl⟩ := step_eq_some_iff.mp hstep
  obtain ⟨c', hcall', hr', hw'⟩ := hr.call hw hcall
  have hstale : ¬c.StaleHit op := (hr.staleHit_iff hw).not.mp hprompt.1
  refine ⟨c', hr', hw', ?_⟩
  rw [hr.served_eq hw]
  exact hc.call hw htime hstale hcall'

theorem timed_of_prompt
    (hs : (timedCalls numBuckets defaultTtl).ReachableUnder Prompt s) :
    s.Timed := by
  refine hs.invariant ?_ fun _ _ _ => timed_step
  rintro s ⟨hmem, hserved⟩
  refine ⟨.init numBuckets defaultTtl, ?_, Cache.wf_init _ _, ?_⟩
  · rw [hmem]
    exact .init numBuckets defaultTtl
  · rw [hserved]
    constructor <;> simp

/-- In every prompt run, a call of `cache_clean_expired` at `now` leaves every
entry linked that a lookup served at a time `t` with `now ≤ t + default_ttl`. -/
theorem served_survives
    (numBuckets : ℕ) (defaultTtl : ℤ) (s s' : TimedMemory) (now : ℤ)
    (hs : (timedCalls numBuckets defaultTtl).ReachableUnder Prompt s)
    (hprompt : s.Prompt (.cleanExpired now))
    (hstep : (timedCalls numBuckets defaultTtl).step s (.cleanExpired now) =
      some s') :
    ∀ a t, (a, t) ∈ s.served → now ≤ t + s.memory.defaultTtl →
      s.memory.LinkedIn a → s'.memory.LinkedIn a := by
  intro a t hserved hnow hlinked
  obtain ⟨c, hr, hw, hc⟩ := timed_of_prompt hs
  obtain ⟨-, m, hcall, rfl⟩ := step_eq_some_iff.mp hstep
  obtain ⟨c', hclean, hr', -⟩ := hr.call hw hcall
  have hfields := congrArg CacheFields.defaultTtl hr.fields
  rw [hfields] at hnow
  refine hr'.linked_iff.mpr (hc.survives hw hserved hnow ?_ hclean ?_)
  · exact hr.noneSkipped_iff.mp (hprompt.2 now rfl)
  · exact hr.linked_iff.mp hlinked

/-- A stale hit is served, and the call of the collector `default_ttl` later
removes the entry. -/
theorem not_linkedIn_of_staleHit
    {s₁ s₂ : TimedMemory} {t : ℤ} (hs : s.memory.Represented)
    (hstale : s.memory.StaleHit op) (hop : op.time = some t)
    (hstep : (timedCalls numBuckets defaultTtl).step s op = some s₁)
    (hclean : (timedCalls numBuckets defaultTtl).step s₁
      (.cleanExpired (t + s₁.memory.defaultTtl)) = some s₂) :
    ∃ a, (a, t) ∈ s₁.served ∧ s₁.memory.LinkedIn a ∧ ¬s₂.memory.LinkedIn a := by
  obtain ⟨c, hr, hw⟩ := hs
  obtain ⟨key, offset, now, a, e, hlookup, hfind, hload, hlast⟩ :=
    (hr.staleHit_iff hw).mp hstale
  obtain rfl : now = t :=
    Option.some.inj ((CacheCall.time_of_asLookup hlookup).symm.trans hop)
  obtain ⟨-, m, hcall, rfl⟩ := step_eq_some_iff.mp hstep
  obtain ⟨-, m', hcall', rfl⟩ := step_eq_some_iff.mp hclean
  -- the lookup has changed nothing
  have hsame : (c.lookupPartial key offset 0 now).2 = c := by
    simp [Cache.lookupPartial, hfind, readEntry, hload]
  obtain ⟨c₁, hc₁, hr₁, -⟩ := hr.call hw hcall
  rw [Cache.call_of_asLookup hlookup, hsame, Option.some.injEq] at hc₁
  subst hc₁
  obtain ⟨c₂, hclean, hr₂, -⟩ := hr₁.call hw hcall'
  obtain ⟨hmem, he, -⟩ := Cache.findEntry_eq_some hfind
  refine ⟨a, ?_, hr₁.linked_iff.mpr ⟨_, hmem⟩, ?_⟩
  · have hserved : s.memory.served op = some (a, now) := by
      simp [hr.served_eq hw, Cache.served, hlookup, hfind, readEntry, hload]
    simp [hserved]
  · have hfields : m.defaultTtl = c.defaultTtl :=
      congrArg CacheFields.defaultTtl hr₁.fields
    have hexp : c.isExpired (now + m.defaultTtl) a = true := by
      simp [Cache.isExpired, he, hload, Entry.expired, hfields, hlast]
    exact hr₂.linked_iff.not.mpr (hw.not_linked_of_expired hclean hexp)

/-- A finished entry is found at 50 and collected at 61. -/
def hitCalls (hit : CacheCall) : List CacheCall :=
  [.startLoading (.ofBuffer [97]) 0 true, .appendData (some 0) [65] 0 true,
    .finishLoading (some 0) 0 true, hit]

/-- The hit at 50 counts for nothing. -/
theorem hitCalls_loses_entry :
    ∃ s s', (timedCalls 1 60).run ⟨Memory.cacheInit 1 60, 0, []⟩
        (hitCalls (.lookup (.ofBuffer [97]) 50)) = some s ∧
      (timedCalls 1 60).step s (.cleanExpired 61) = some s' ∧
      (0, 50) ∈ s.served ∧ s.memory.LinkedIn 0 ∧ ¬s'.memory.LinkedIn 0 := by
  refine ⟨_, _, rfl, rfl, List.mem_singleton_self _,
    ⟨0, [0], Chain.cons rfl Chain.nil, List.mem_singleton_self 0⟩, ?_⟩
  have hm := Memory.represented_of_run
    (rfl : (Memory.calls 1 60).run (Memory.cacheInit 1 60)
      (hitCalls (.lookup (.ofBuffer [97]) 50) ++ [.cleanExpired 61]) = some _)
  rintro ⟨b, xs, hxs, hmem⟩
  obtain rfl : b = 0 := Nat.lt_one_iff.mp (hm.bucket_lt hxs hmem)
  cases hxs
  cases hmem

/-- The same hit through the path for chunks keeps the entry. -/
theorem served_survives_chunk :
    ∃ s s', (timedCalls 1 60).run ⟨Memory.cacheInit 1 60, 0, []⟩
        (hitCalls (.lookupPartial (.ofBuffer [97]) 0 1 50)) = some s ∧
      (timedCalls 1 60).step s (.cleanExpired 61) = some s' ∧
      ∀ a t, (a, t) ∈ s.served → 61 ≤ t + s.memory.defaultTtl →
        s.memory.LinkedIn a → s'.memory.LinkedIn a := by
  refine ⟨_, _, rfl, rfl, served_survives 1 60 _ _ 61 ?_ ⟨?_, ?_⟩ rfl⟩
  · refine TransitionSystem.ReachableUnder.run (.initial ⟨rfl, rfl⟩) ?_
      (rfl : (timedCalls 1 60).run ⟨Memory.cacheInit 1 60, 0, []⟩
        (hitCalls (.lookupPartial (.ofBuffer [97]) 0 1 50)) = some _)
    have hother : ∀ {s : TimedMemory} {op : CacheCall},
        (∀ key offset now, op.asLookup ≠ some (key, offset, 0, now)) →
        (∀ now, op ≠ .cleanExpired now) → s.Prompt op :=
      fun hlookup hclean =>
        ⟨fun ⟨key, offset, now, _, _, hop, _⟩ => hlookup key offset now hop,
          fun now hop => absurd hop (hclean now)⟩
    refine ⟨hother (by simp [CacheCall.asLookup]) (by simp), fun _ _ =>
      ⟨hother (by simp [CacheCall.asLookup]) (by simp), fun _ _ =>
        ⟨hother (by simp [CacheCall.asLookup]) (by simp), fun _ _ =>
          ⟨hother (by simp [CacheCall.asLookup]) (by simp), fun _ _ => trivial⟩⟩⟩⟩
  · rintro ⟨_, _, _, _, _, hop, -⟩
    cases hop
  · rintro now ⟨⟩
    have hm := Memory.represented_of_run
      (rfl : (Memory.calls 1 60).run (Memory.cacheInit 1 60)
        (hitCalls (.lookupPartial (.ofBuffer [97]) 0 1 50)) = some _)
    exact hm.noneSkipped_of_one rfl (Chain.cons rfl Chain.nil)
      (List.isChain_singleton _)

end TimedMemory

end Timed

end Proxy
end OsFifthSem
