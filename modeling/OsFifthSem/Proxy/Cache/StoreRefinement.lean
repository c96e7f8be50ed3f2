import OsFifthSem.Proxy.Cache.Shown

/-!
# The cache answers as a store does

The calls about any set of keys, with the replies of the code, are calls that
a store answers so, whatever other calls come between them.  For the set of all
keys this says that the cache is a store; for one key, that the other keys
cannot be noticed.
-/

namespace OsFifthSem
namespace Proxy

open Support

namespace Cache

variable {c c' : Cache} {keys : CString → Bool} {key : CString} {a : ℕ}
  {e e' : Entry}

/-! ## The answers -/

/-- A call that is seen is answered by the store, and a call that is not seen
leaves the store alone. -/
def Answers (s : Store) (seen : Bool) (op : CacheCall) (reply : CacheReply)
    (s' : Store) : Prop :=
  if seen then ∃ loses, s.react op reply loses = some s' else s' = s

variable (keys) in
/-- A lookup that finds an entry. -/
theorem lookupPartial_found
    (hfind : c.findEntry key = some (a, e)) (offset maxSize : ℕ) (now : ℤ) :
    (c.lookupPartial key offset maxSize now).1 =
        readEntry e.isLoading e.data offset maxSize ∧
      (c.lookupPartial key offset maxSize now).2.shows keys =
        if (readEntry e.isLoading e.data offset maxSize).status = .newLoaded
        then (c.putEntry a { e with lastAccessed := now }).shows keys
        else c.shows keys := by
  unfold Cache.lookupPartial
  rw [hfind]
  dsimp only
  split
  next hread =>
    refine ⟨rfl, ?_⟩
    rw [Entry.touch, if_pos hread]
    exact shows_counters _ _ _
  next => exact ⟨rfl, rfl⟩

/-- A lookup of one of the keys is the lookup of the store. -/
theorem look_shows
    (hkey : keys key = true) (offset maxSize : ℕ) (now : ℤ) :
    (c.shows keys).look key offset maxSize now =
      ((c.lookupPartial key offset maxSize now).1,
        (c.lookupPartial key offset maxSize now).2.shows keys) := by
  cases hfind : c.findEntry key with
  | none =>
      simp only [Store.look, shows_find_none hkey hfind, Cache.lookupPartial,
        hfind]
      exact congrArg _ (shows_counters c c.hits _).symm
  | some p =>
      obtain ⟨a, e⟩ := p
      obtain ⟨hreply, hshows⟩ :=
        lookupPartial_found keys hfind offset maxSize now
      obtain ⟨-, he, rfl⟩ := findEntry_eq_some hfind
      have hput := shows_touched keys he now
      rw [if_pos hkey] at hput
      rw [hreply, hshows, hput]
      simp only [Store.look, shows_find_some hkey hfind]
      rfl

/-- A lookup of another key changes nothing. -/
theorem lookupPartial_unseen
    (hkey : keys key = false) (offset maxSize : ℕ) (now : ℤ) :
    (c.lookupPartial key offset maxSize now).2.shows keys = c.shows keys := by
  cases hfind : c.findEntry key with
  | none =>
      simp only [Cache.lookupPartial, hfind]
      exact shows_counters c c.hits _
  | some p =>
      obtain ⟨a, e⟩ := p
      rw [(lookupPartial_found keys hfind offset maxSize now).2]
      obtain ⟨-, he, rfl⟩ := findEntry_eq_some hfind
      have hput := shows_touched keys he now
      rw [hkey, if_neg Bool.false_ne_true] at hput
      split
      · exact hput
      · rfl

/-- `cache_start_loading`. -/
theorem startLoading_answers (hw : c.WF) (now : ℤ) (ok : Bool) :
    Answers (c.shows keys) (keys key) (.startLoading key now ok)
      (.entry (c.startLoading key now ok).1)
      ((c.startLoading key now ok).2.shows keys) := by
  cases hk : keys key with
  | false =>
      change _ = _
      rcases c.startLoading_cases key now ok with
        ⟨a, e, -, heq⟩ | ⟨hfind, rfl, heq⟩ | ⟨-, -, heq⟩
      · rw [heq]
      · rw [heq, shows_created hw now hfind, hk]
        rfl
      · rw [heq]
  | true =>
      refine ⟨fun _ => false, ?_⟩
      rcases c.startLoading_cases key now ok with
        ⟨a, e, hfind, heq⟩ | ⟨hfind, rfl, heq⟩ | ⟨hfind, rfl, heq⟩
      · have hentry : (c.shows keys).entryOf key = some a := by
          simp [shows, hk, hfind]
        rw [heq]
        simp [Store.react, hentry]
      · have hentry : (c.shows keys).entryOf key = none := by
          simp [shows, hfind]
        have hfree : (c.shows keys).response c.nextEntry = none := by
          simp [shows, hw.entries_nextEntry]
        rw [heq, shows_created hw now hfind, hk, if_pos rfl]
        simp [Store.react, hentry, hfree]
      · have hentry : (c.shows keys).entryOf key = none := by
          simp [shows, hfind]
        rw [heq]
        simp [Store.react, hentry]

/-- An entry is rewritten in place, as the store would. -/
theorem putEntry_answers
    {op : CacheCall} {reply : CacheReply}
    (he : c.entries a = some e) (hkey : e'.key = e.key)
    (hreact : ∀ s : Store, s.response a = some e.response →
      s.react op reply (fun _ => false) = some (s.put a e'.response)) :
    Answers (c.shows keys) (keys e.key) op reply
      ((c.putEntry a e').shows keys) := by
  have hput := shows_putEntry keys he hkey
  have hresponse := shows_response keys he
  cases hk : keys e.key with
  | false =>
      rw [hk, if_neg Bool.false_ne_true] at hput
      exact hput
  | true =>
      rw [hk, if_pos rfl] at hput hresponse
      exact ⟨fun _ => false, by rw [hreact _ hresponse, hput]⟩

/-- An entry is left alone, as the store would. -/
theorem refused_answers
    {op : CacheCall} {reply : CacheReply} (he : c.entries a = some e)
    (hreact : ∀ s : Store, s.response a = some e.response →
      s.react op reply (fun _ => false) = some s) :
    Answers (c.shows keys) (keys e.key) op reply (c.shows keys) := by
  have hresponse := shows_response keys he
  cases hk : keys e.key with
  | false => rfl
  | true =>
      rw [hk, if_pos rfl] at hresponse
      exact ⟨fun _ => false, hreact _ hresponse⟩

/-- `cache_append_data` on a live entry. -/
theorem appendData_answers
    {chunk : List UInt8} {now : ℤ} {ok : Bool} {r : ℤ}
    (he : c.entries a = some e)
    (happend : c.appendData a chunk now ok = some (r, c')) :
    Answers (c.shows keys) (keys e.key) (.appendData (some a) chunk now ok)
      (.code r) (c'.shows keys) := by
  obtain ⟨e₀, he₀, hret⟩ := Option.bind_eq_some_iff.mp happend
  obtain rfl := Option.some.inj (he.symm.trans he₀)
  split at hret
  next hload =>
    obtain ⟨⟨r', e'⟩, happ, heq⟩ := Option.map_eq_some_iff.mp hret
    obtain ⟨rfl, rfl⟩ := Prod.mk.inj heq
    have hkey := (Entry.appendData_cases happ).1
    refine putEntry_answers he hkey fun s hs => ?_
    obtain ⟨-, ⟨size, rfl, rfl, -⟩ | ⟨rfl, rfl, rfl⟩⟩ :=
      Entry.appendData_eq_some happ
    · simp [Store.react, hs, Entry.response, hload]
    · simp [Store.react, hs, Entry.response, hload]
  next hload =>
    obtain ⟨rfl, rfl⟩ := Prod.mk.inj (Option.some.inj hret)
    refine refused_answers he fun s hs => ?_
    have hloading : e.response.isLoading = false :=
      (Bool.not_eq_true _).mp hload
    simp [Store.react, hs, hloading]

/-- `cache_finish_loading` on a live entry. -/
theorem finishLoading_answers
    {now : ℤ} {ok : Bool} {r : ℤ} (he : c.entries a = some e)
    (hfinish : c.finishLoading a now ok = some (r, c')) :
    Answers (c.shows keys) (keys e.key) (.finishLoading (some a) now ok)
      (.code r) (c'.shows keys) := by
  obtain ⟨e₀, he₀, hret⟩ := Option.bind_eq_some_iff.mp hfinish
  obtain rfl := Option.some.inj (he.symm.trans he₀)
  split at hret
  next hload =>
    obtain ⟨e', hfin, heq⟩ := Option.map_eq_some_iff.mp hret
    obtain ⟨rfl, rfl⟩ := Prod.mk.inj heq
    obtain ⟨hkey, hdone, hdata, -, hnow⟩ := Entry.finishLoading_spec hfin
    refine putEntry_answers he hkey fun s hs => ?_
    have hloading : e.response.isLoading = true := hload
    have hresponse : e'.response =
        { e.response with isLoading := false, lastAccessed := now } := by
      simp only [Entry.response, hkey, hdone, hdata, hnow]
    simp [Store.react, hs, hloading, hresponse]
  next hload =>
    obtain ⟨rfl, rfl⟩ := Prod.mk.inj (Option.some.inj hret)
    refine refused_answers he fun s hs => ?_
    have hloading : e.response.isLoading = false :=
      (Bool.not_eq_true _).mp hload
    simp [Store.react, hs, hloading]

/-- `cache_cancel_loading`. -/
theorem cancelLoading_answers (hw : c.WF) (key : CString) :
    Answers (c.shows keys) (keys key) (.cancelLoading key)
      (.code (c.cancelLoading key).1) ((c.cancelLoading key).2.shows keys) := by
  unfold Cache.cancelLoading
  cases hfind : c.findLoading key with
  | some a =>
      obtain ⟨hmem, e, he, hkey, hload⟩ := findLoading_eq_some hfind
      have hremove := shows_removeEntry keys hw hmem he hkey
      cases hk : keys key with
      | false =>
          rw [hk, if_neg Bool.false_ne_true] at hremove
          exact hremove
      | true =>
          rw [hk, if_pos rfl] at hremove
          have hlook : c.findEntry key = some (a, e) :=
            hw.findEntry_eq_some_iff.mpr ⟨⟨_, hmem⟩, he, hkey⟩
          have hseen := shows_find_some hk hlook
          have hloading : e.response.isLoading = true := hload
          refine ⟨fun _ => false, ?_⟩
          simp only [Store.react, hseen, hloading, if_true]
          exact congrArg some hremove.symm
  | none =>
      cases hk : keys key with
      | false => rfl
      | true =>
          refine ⟨fun _ => false, ?_⟩
          cases hlook : c.findEntry key with
          | none => simp [Store.react, shows_find_none hk hlook]
          | some p =>
              obtain ⟨a, e⟩ := p
              obtain ⟨hmem, he, hkey⟩ := findEntry_eq_some hlook
              have hload : e.response.isLoading = false :=
                hw.findLoading_eq_none hfind ⟨_, hmem⟩ he hkey
              simp [Store.react, shows_find_some hk hlook, hload]

/-- Waiters are not shown. -/
theorem registerWaiter_shows (key : CString) (h : AsyncHandle) (ok : Bool) :
    (c.registerWaiter key h ok).2.shows keys = c.shows keys := by
  unfold Cache.registerWaiter
  cases hfind : c.findEntry key with
  | some p =>
      obtain ⟨a, e⟩ := p
      exact shows_waiters (findEntry_eq_some hfind).2.1 _
  | none =>
      dsimp only
      cases addToRow key h (c.pending (c.bucketOf key)) with
      | some rows => exact shows_congr ⟨rfl, rfl, rfl, rfl, rfl, rfl⟩ rfl
      | none =>
          cases ok with
          | false => rfl
          | true => exact shows_congr ⟨rfl, rfl, rfl, rfl, rfl, rfl⟩ rfl

/-- A registration fails only when the key has no entry and there is no memory
for a row. -/
theorem registerWaiter_code (key : CString) (h : AsyncHandle) (ok : Bool) :
    (c.registerWaiter key h ok).1 = 0 ∨
      (c.registerWaiter key h ok).1 = -1 ∧ ok = false ∧
        c.findEntry key = none := by
  unfold Cache.registerWaiter
  cases hfind : c.findEntry key with
  | some p => exact Or.inl rfl
  | none =>
      dsimp only
      cases addToRow key h (c.pending (c.bucketOf key)) with
      | some rows => exact Or.inl rfl
      | none =>
          cases ok with
          | false => exact Or.inr ⟨rfl, rfl, rfl⟩
          | true => exact Or.inl rfl

/-- `cache_register_waiter`. -/
theorem registerWaiter_answers (key : CString) (h : AsyncHandle) (ok : Bool) :
    Answers (c.shows keys) (keys key) (.registerWaiter key h ok)
      (.code (c.registerWaiter key h ok).1)
      ((c.registerWaiter key h ok).2.shows keys) := by
  rw [registerWaiter_shows]
  cases hk : keys key with
  | false => rfl
  | true =>
      refine ⟨fun _ => false, if_pos ?_⟩
      rcases c.registerWaiter_code key h ok with hzero | ⟨hfail, hok, hfind⟩
      · exact Or.inl hzero
      · exact Or.inr ⟨hfail, hok, by simp [shows, hfind]⟩

/-- `cache_unregister_waiter`. -/
theorem unregisterWaiter_answers (key : CString) (h : AsyncHandle) :
    Answers (c.shows keys) (keys key) (.unregisterWaiter key h)
      (.code (c.unregisterWaiter key h).1)
      ((c.unregisterWaiter key h).2.shows keys) := by
  unfold Cache.unregisterWaiter
  cases hfind : c.findEntry key with
  | some p =>
      obtain ⟨a, e⟩ := p
      dsimp only
      rw [shows_waiters (findEntry_eq_some hfind).2.1]
      cases hk : keys key with
      | false => rfl
      | true => exact ⟨fun _ => false, if_pos (by simp [shows, hk, hfind])⟩
  | none =>
      cases hk : keys key with
      | false => rfl
      | true => exact ⟨fun _ => false, if_pos (by simp [shows, hfind])⟩

/-- `cache_clean_expired`, which concerns every key. -/
theorem cleanExpired_answers
    (hw : c.WF) {c' : Cache} {now : ℤ} (hclean : c.cleanExpired now = some c') :
    Answers (c.shows keys) true (.cleanExpired now) .done (c'.shows keys) :=
  ⟨c'.lacks, congrArg some (shows_cleanExpired hw hclean).symm⟩

/-- `cache_lookup_partial`, and `cache_lookup`, which passes it zeros. -/
theorem lookupPartial_answers (key : CString) (offset maxSize : ℕ) (now : ℤ) :
    Answers (c.shows keys) (keys key) (.lookupPartial key offset maxSize now)
      (.found (c.lookupPartial key offset maxSize now).1)
      ((c.lookupPartial key offset maxSize now).2.shows keys) := by
  cases hk : keys key with
  | false => exact lookupPartial_unseen hk offset maxSize now
  | true =>
      have hlook := look_shows (c := c) hk offset maxSize now
      refine ⟨fun _ => false, ?_⟩
      simp only [Store.react, hlook, if_true]

theorem lookup_answers (key : CString) (now : ℤ) :
    Answers (c.shows keys) (keys key) (.lookup key now)
      (.found (c.lookup key now).1) ((c.lookup key now).2.shows keys) :=
  c.lookupPartial_answers key 0 0 now

end Cache

/-- Every call on linked cells is answered so. -/
theorem Represents.answers
    {m m' : Memory} {c : Cache} {op : CacheCall} (keys : CString → Bool)
    (hr : Represents m c) (hw : c.WF) (hcall : m.call op = some m') :
    ∃ c' reply, Represents m' c' ∧ c'.WF ∧ m.reply op = some reply ∧
      Cache.Answers (c.shows keys) (m.concerns keys op) op reply
        (c'.shows keys) := by
  cases op with
  | startLoading key now ok =>
      obtain ⟨m₁, hm₁, hr'⟩ := hr.cacheStartLoading hw key now ok
      obtain rfl : m₁ = m' := by simpa [Memory.call, hm₁] using hcall
      exact ⟨_, _, hr', hw.startLoading key now ok, by simp [Memory.reply, hm₁],
        Cache.startLoading_answers hw now ok⟩
  | appendData entry chunk now ok =>
      cases entry with
      | none =>
          obtain rfl := Option.some.inj hcall
          exact ⟨c, _, hr, hw, rfl, fun _ => false, rfl⟩
      | some a =>
          obtain ⟨⟨r, m₁⟩, hm₁, rfl⟩ := Option.map_eq_some_iff.mp hcall
          have hagree := hr.cacheAppendData a chunk now ok
          rw [hm₁] at hagree
          obtain ⟨cell, hcell, -⟩ := Option.bind_eq_some_iff.mp hm₁
          have he := hr.entries_of_cell hcell
          generalize hc' : c.appendData a chunk now ok = res at hagree
          cases hagree with
          | @some p q hp =>
              obtain ⟨rfl, hr'⟩ := hp
              have hanswer : Cache.Answers (c.shows keys)
                  (keys cell.toEntry.key) _ _ (q.2.shows keys) :=
                Cache.appendData_answers he hc'
              exact ⟨q.2, .code q.1, hr', hw.appendData hc',
                by simp [Memory.reply, hm₁],
                by simpa [Memory.concerns, hcell] using hanswer⟩
  | finishLoading entry now ok =>
      cases entry with
      | none =>
          obtain rfl := Option.some.inj hcall
          exact ⟨c, _, hr, hw, rfl, fun _ => false, rfl⟩
      | some a =>
          obtain ⟨⟨r, m₁⟩, hm₁, rfl⟩ := Option.map_eq_some_iff.mp hcall
          have hagree := hr.cacheFinishLoading a now ok
          rw [hm₁] at hagree
          obtain ⟨cell, hcell, -⟩ := Option.bind_eq_some_iff.mp hm₁
          have he := hr.entries_of_cell hcell
          generalize hc' : c.finishLoading a now ok = res at hagree
          cases hagree with
          | @some p q hp =>
              obtain ⟨rfl, hr'⟩ := hp
              have hanswer : Cache.Answers (c.shows keys)
                  (keys cell.toEntry.key) _ _ (q.2.shows keys) :=
                Cache.finishLoading_answers he hc'
              exact ⟨q.2, .code q.1, hr', hw.finishLoading hc',
                by simp [Memory.reply, hm₁],
                by simpa [Memory.concerns, hcell] using hanswer⟩
  | cancelLoading key =>
      obtain ⟨m₁, hm₁, hr'⟩ := hr.cacheCancelLoading hw key
      obtain rfl : m₁ = m' := by simpa [Memory.call, hm₁] using hcall
      exact ⟨_, _, hr', hw.cancelLoading key, by simp [Memory.reply, hm₁],
        Cache.cancelLoading_answers hw key⟩
  | cleanExpired now =>
      obtain ⟨c', hclean, hr', hw'⟩ := hr.call hw hcall
      change m.cacheCleanExpired now = some m' at hcall
      exact ⟨_, _, hr', hw', by simp [Memory.reply, hcall],
        Cache.cleanExpired_answers hw hclean⟩
  | lookup key now =>
      obtain ⟨m₁, hm₁, hr'⟩ := hr.cacheLookupPartial hw key 0 0 now
      obtain rfl : m₁ = m' := by
        simpa [Memory.call, Memory.cacheLookup, hm₁] using hcall
      exact ⟨_, _, hr', hw.lookupPartial key 0 0 now,
        by simp [Memory.reply, Memory.cacheLookup, hm₁, Cache.lookup],
        c.lookup_answers key now⟩
  | lookupPartial key offset maxSize now =>
      obtain ⟨m₁, hm₁, hr'⟩ := hr.cacheLookupPartial hw key offset maxSize now
      obtain rfl : m₁ = m' := by simpa [Memory.call, hm₁] using hcall
      exact ⟨_, _, hr', hw.lookupPartial key offset maxSize now,
        by simp [Memory.reply, hm₁],
        c.lookupPartial_answers key offset maxSize now⟩
  | registerWaiter key h ok =>
      obtain ⟨m₁, hm₁, hr'⟩ := hr.cacheRegisterWaiter hw key h ok
      obtain rfl : m₁ = m' := by simpa [Memory.call, hm₁] using hcall
      exact ⟨_, _, hr', hw.registerWaiter key h ok,
        by simp [Memory.reply, hm₁], c.registerWaiter_answers key h ok⟩
  | unregisterWaiter key h =>
      obtain ⟨m₁, hm₁, hr'⟩ := hr.cacheUnregisterWaiter hw key h
      obtain rfl : m₁ = m' := by simpa [Memory.call, hm₁] using hcall
      exact ⟨_, _, hr', hw.unregisterWaiter key h,
        by simp [Memory.reply, hm₁], c.unregisterWaiter_answers key h⟩

/-! ## The simulation -/

/-- The cells spell out well-formed lists, which show the keys this store. -/
def Memory.Shows (keys : CString → Bool) (m : Memory) (s : Store) : Prop :=
  ∃ c, Represents m c ∧ c.WF ∧ s = c.shows keys

/-- The cache after `cache_init` shows an empty store. -/
theorem Cache.shows_init
    (keys : CString → Bool) (numBuckets : ℕ) (defaultTtl : ℤ) :
    (Cache.init numBuckets defaultTtl).shows keys = Store.init defaultTtl := by
  refine Store.ext ?_ ?_ rfl
  · funext key
    simp [shows, Store.init, findEntry, init]
  · funext a
    simp [shows, Store.init, init]

/-- The calls about these keys are answered as the store answers them, and the
other calls are not seen. -/
theorem Memory.forwardSim_store
    (keys : CString → Bool) (numBuckets : ℕ) (defaultTtl : ℤ) :
    TransitionSystem.ForwardSim (calls numBuckets defaultTtl)
      (fun _ _ => True) (answered keys) (storeSystem defaultTtl)
      Proxy.answered (Shows keys) where
  initial := by
    rintro m rfl
    exact ⟨Store.init defaultTtl, rfl, _,
      Represents.init numBuckets defaultTtl,
      Cache.wf_init numBuckets defaultTtl,
      (Cache.shows_init keys numBuckets defaultTtl).symm⟩
  step := by
    rintro m _ op m' - ⟨c, hr, hw, rfl⟩ - hstep
    obtain ⟨c', reply, hr', hw', hreply, hanswer⟩ := hr.answers keys hw hstep
    cases hseen : m.concerns keys op with
    | false =>
        rw [hseen] at hanswer
        refine ⟨[], c.shows keys, rfl, ?_, c', hr', hw', hanswer.symm⟩
        simp [Memory.answered, hseen]
    | true =>
        rw [hseen] at hanswer
        obtain ⟨loses, hreact⟩ := hanswer
        refine ⟨[⟨op, reply, loses⟩], c'.shows keys, ?_, ?_, c', hr', hw', rfl⟩
        · exact TransitionSystem.run_cons_eq_some_iff.mpr ⟨_, hreact, rfl⟩
        · refine (TransitionSystem.trace_cons hreact).trans ?_
          simp [Memory.answered, Proxy.answered, hseen, hreply]

/-- From `cache_init` on, whatever calls are made with whatever arguments, the
calls about any keys and their replies are ones that a store gives. -/
theorem Memory.answers_as_store
    (keys : CString → Bool) (numBuckets : ℕ) (defaultTtl : ℤ)
    (events : List (CacheCall × CacheReply))
    (htrace : (calls numBuckets defaultTtl).IsTrace (answered keys) events) :
    (storeSystem defaultTtl).IsTrace Proxy.answered events :=
  (forwardSim_store keys numBuckets defaultTtl).isTrace htrace

/-- Two keys share the only bucket, and the calls about one of them are what
its users see. -/
theorem Memory.answers_as_store_collision :
    (storeSystem 60).IsTrace Proxy.answered
      [(.registerWaiter ⟨[97], by decide⟩ 1 true, .code 0),
        (.startLoading ⟨[97], by decide⟩ 0 true, .entry (some 0)),
        (.appendData (some 0) [1, 2, 3] 0 true, .code 0),
        (.lookupPartial ⟨[97], by decide⟩ 0 2 0,
          .found ⟨.newLoaded, [1, 2], some true⟩),
        (.finishLoading (some 0) 1 true, .code 0),
        (.lookup ⟨[97], by decide⟩ 1, .found ⟨.found, [1, 2, 3], some false⟩),
        (.cleanExpired 100, .done)] :=
  answers_as_store (fun key => key = ⟨[97], by decide⟩) 1 60 _
    ⟨_, collisionCalls, _, rfl, TransitionSystem.runAllowed_true _ _ _, rfl, rfl⟩

end Proxy
end OsFifthSem
