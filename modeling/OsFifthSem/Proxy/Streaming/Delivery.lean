import OsFifthSem.Proxy.Streaming.History
import OsFifthSem.Proxy.Streaming.Schedules

/-!
# Delivery of a response that is loaded once

One worker loads the key, and its entry is neither cancelled nor collected.
Then every client that streams the key is sent the bytes in front of its
`last_offset`, and it is done only with the whole response.
-/

namespace OsFifthSem
namespace Proxy
namespace Streaming

open Support State

/-- The bytes appended to an entry. -/
def State.bytesOf (s : State) (x : ℕ) : List UInt8 :=
  ((s.appends x).map Prod.snd).flatten

/-- Worker `t` has called `cache_start_loading` for `key`. -/
structure Loads (s : State) (key : CString) (t : ℕ) (task : Task) : Prop where
  isTask : s.tasks t = some task
  hasKey : task.key = key
  begun : task.pc ≠ .queued

/-- The bytes appended so far by a worker that loads the key. -/
inductive Appended (s : State) (key : CString) : List UInt8 → Prop
  | unstarted (h : ∀ t task, ¬ Loads s key t task) : Appended s key []
  | loading (t : ℕ) (task : Task) (h : Loads s key t task) :
      Appended s key (s.bytesOf task.entry)

/-- The setting: the key is loaded once, its entry is neither cancelled nor
expired, and every `uv_write` of request `r` is accepted. -/
structure LoadedOnce (key : CString) (r : ℕ) (s : State) (a : Action) :
    Prop where
  once : ∀ t now ok, a = .worker t (.startLoading now ok) →
    ∀ task, s.tasks t = some task → task.key = key →
      ok = true ∧ ∀ t' task', ¬ Loads s key t' task'
  uncancelled : ∀ t, a = .worker t .cancelLoading →
    ∀ task x e, s.tasks t = some task → task.path = key →
      s.cache.findEntry key = some (x, e) → e.isLoading = false
  unexpired : a = .collector .entry → ∀ g x rest e, s.gc = some g →
    g.rest = x :: rest → s.cache.entries x = some e → e.key = key →
      e.isLoading = false → e.expired s.cache.defaultTtl g.now = false
  accepted : ∀ now accepted, a = .request r (.lookupEnd now accepted) →
    accepted = true

/-- What a streaming request has been sent, and when it is done. -/
structure Delivered (s : State) (w : WriteReq) : Prop where
  oneWrite : w.inFlight.length ≤ 1
  exact : ∃ bytes, (∀ b, Appended s w.key b ↔ b = bytes) ∧
    w.lastOffset ≤ bytes.length ∧ w.sent = bytes.take w.lastOffset ∧
    (w.releasedBy = some .cacheDone → w.sent = bytes)

/-! ## The load -/

/-- The invariant of the load: one worker loads the key, and the entry of the
key is the one it got, which it alone finishes. -/
structure LoadInv (key : CString) (s : State) : Prop where
  base : Consistent s
  one : ∀ t t' task task', Loads s key t task → Loads s key t' task' → t = t'
  loaded : ∀ t task, Loads s key t task →
    ∃ e, s.cache.entries task.entry = some e ∧ e.key = key ∧
      (e.isLoading = false → task.pc = .finishNotify ∨ task.pc = .ended)
  loader : ∀ x e, s.cache.entries x = some e → e.key = key →
    ∃ t task, Loads s key t task ∧ task.entry = x

namespace LoadInv

variable {key : CString} {r : ℕ} {s s' : State}

theorem init (numBuckets : ℕ) (defaultTtl : ℤ) :
    LoadInv key (.init numBuckets defaultTtl) where
  base := .init numBuckets defaultTtl
  one := by
    rintro t t' task task' ⟨htask, -, -⟩
    cases htask
  loaded := by
    rintro t task ⟨htask, -, -⟩
    cases htask
  loader := by simp [State.init, Cache.init]

/-- The entry of the key is not freed. -/
theorem kept
    (hs : LoadInv key s) {a : Action} (hload : LoadedOnce key r s a)
    (h : s.step a = some s') {x : ℕ} {e : Entry}
    (he : s.cache.entries x = some e) (hkey : e.key = key) :
    ∃ e', s'.cache.entries x = some e' := by
  cases a with
  | request r' a =>
      obtain ⟨e', he', -⟩ := (stepRequest_frame h).contents.forth x e he
      exact ⟨e', he'⟩
  | collector a =>
      rcases Consistent.stepCollector_cases h with
        heq | ⟨g, y, rest, f, rfl, hg, hrest, hf, hdone, hexp, -, heq⟩
      · exact ⟨e, heq ▸ he⟩
      · have hne : x ≠ y := by
          rintro rfl
          obtain rfl := Option.some.inj (he.symm.trans hf)
          rw [hload.unexpired rfl g x rest e hg hrest he hkey hdone] at hexp
          cases hexp
        refine ⟨e, ?_⟩
        rw [heq, (hs.base.collected_frees hg hrest f).2.entries_of_ne hne, he]
  | worker t a =>
      have hput : ∀ {y : ℕ} {f : Entry}, s'.cache = s.cache.putEntry y f →
          ∃ e', s'.cache.entries x = some e' := by
        intro y f hcache
        rw [hcache]
        by_cases hx : x = y
        · exact ⟨f, by simp [Cache.putEntry, hx]⟩
        · exact ⟨e, by simp [Cache.putEntry, hx, he]⟩
      cases stepWorker_effect h with
      | kept hcontents =>
          obtain ⟨e', he', -⟩ := hcontents.forth x e he
          exact ⟨e', he'⟩
      | created task now htask hpc hfree hnone hcache =>
          exact ⟨e, hcache ▸ hs.base.wf.created_entries he⟩
      | appended task f f' htask hpc hf hfkey hfload hdata hcache =>
          exact hput hcache
      | finished task f f' htask hpc hf hfkey hfload hdata hcache =>
          exact hput hcache
      | freed task y f htask hpc hfree hmem hf hfkey hfload hcache =>
          obtain rfl := stepWorker_of_failing h htask hpc
          have hne : x ≠ y := by
            rintro rfl
            obtain rfl := Option.some.inj (he.symm.trans hf)
            have hfind : s.cache.findEntry key = some (x, e) :=
              hs.base.wf.findEntry_eq_some_iff.mpr ⟨⟨_, hmem⟩, he, hkey⟩
            rw [hload.uncancelled t rfl task x e htask (hfkey.symm.trans hkey)
              hfind] at hfload
            cases hfload
          refine ⟨e, ?_⟩
          rw [hcache, (hs.base.wf.removeEntry_frees _ y).entries_of_ne hne, he]

theorem of_quiet
    (hs : LoadInv key s) (hbase : Consistent s') (hq : Consistent.Quiet s s')
    (hkept : ∀ x e, s.cache.entries x = some e → e.key = key →
      ∃ e', s'.cache.entries x = some e') : LoadInv key s' := by
  have hback : ∀ {t task'}, Loads s' key t task' →
      ∃ task, Loads s key t task ∧ task'.pc = task.pc ∧
        task'.entry = task.entry := by
    rintro t task' ⟨htask', hkey, hpc⟩
    rcases hq.tasks t task' htask' with ⟨task, htask, heq⟩ | ⟨x, k, rfl⟩
    · rw [heq] at hkey hpc ⊢
      exact ⟨task, ⟨htask, hkey, hpc⟩, rfl, rfl⟩
    · exact absurd rfl hpc
  refine ⟨hbase, ?_, ?_, ?_⟩
  · intro t t' task task' h₁ h₂
    obtain ⟨u, hu, -⟩ := hback h₁
    obtain ⟨u', hu', -⟩ := hback h₂
    exact hs.one t t' u u' hu hu'
  · intro t task' h'
    obtain ⟨task, hl, hpc, hentry⟩ := hback h'
    obtain ⟨e, he, hkey, hdone⟩ := hs.loaded t task hl
    obtain ⟨e', he'⟩ := hkept _ e he hkey
    obtain ⟨f, hf, hfkey, hfload, -⟩ := hq.entries _ e' he'
    obtain rfl := Option.some.inj (he.symm.trans hf)
    rw [hpc, hentry]
    exact ⟨e', he', hfkey.trans hkey, fun hl' => hdone (hfload ▸ hl')⟩
  · intro x e' he' hkey
    obtain ⟨e, he, hekey, -⟩ := hq.entries x e' he'
    obtain ⟨t, task, hl, hentry⟩ := hs.loader x e he (hekey.symm.trans hkey)
    obtain ⟨stop, htask'⟩ := hq.kept t task hl.isTask
    exact ⟨t, _, ⟨htask', hl.hasKey, hl.begun⟩, hentry⟩

/-- The worker that loads the key loaded it before, or has just created its
entry. -/
theorem loads_back
    (hs : LoadInv key s) {t : ℕ} {a : WorkerStep}
    (hload : LoadedOnce key r s (.worker t a))
    (h : s.stepWorker t a = some s') {t' : ℕ} {task' : Task}
    (hl' : Loads s' key t' task') :
    (∃ task, Loads s key t' task ∧ task'.entry = task.entry ∧
      (task'.pc = task.pc ∨ t' = t ∧ PcMove task.pc task'.pc)) ∨
    ((∀ t task, ¬ Loads s key t task) ∧ task'.pc = .started ∧
      task'.entry = s.cache.nextEntry ∧ t' = t ∧
      ∃ now, s'.cache = s.cache.created key now) := by
  by_cases ht : t' = t
  · subst ht
    obtain ⟨task, u', htask, hu', -, hkey, -, hcase⟩ := stepWorker_task h
    obtain rfl := Option.some.inj (hl'.isTask.symm.trans hu')
    obtain ⟨v, v', hv, hv', hmove, -⟩ := stepWorker_move h
    obtain rfl := Option.some.inj (htask.symm.trans hv)
    obtain rfl := Option.some.inj (hl'.isTask.symm.trans hv')
    have htkey : task.key = key := hkey.symm.trans hl'.hasKey
    by_cases hqueued : task.pc = .queued
    · obtain ⟨now, ok, rfl⟩ := stepWorker_of_queued h htask hqueued
      obtain ⟨hok, hnone⟩ := hload.once t' now ok rfl task htask htkey
      subst hok
      rcases hcase with ⟨-, hhas⟩ | ⟨-, hpc, ⟨e, hfind, -⟩ |
        ⟨now', hentry, -, hcache⟩⟩
      · -- without memory the worker would have ended
        have hpc : task'.pc = .started := by
          have hset := hl'.isTask
          obtain ⟨w, -, -, -, ⟨x, e, -, rfl⟩ | ⟨-, -, rfl⟩ | ⟨-, hbad, -⟩⟩ :=
            startLoading_spec h
          · exact congrArg Task.pc (eq_of_setTask hset).symm
          · exact congrArg Task.pc (eq_of_setTask hset).symm
          · cases hbad
        rw [hpc, hqueued] at hhas
        exact (hhas trivial).elim
      · obtain ⟨-, he, hekey⟩ := Cache.findEntry_eq_some hfind
        obtain ⟨u, v, hl, -⟩ := hs.loader _ e he (hekey.trans htkey)
        exact absurd hl (hnone u v)
      · exact Or.inr ⟨hnone, hpc, hentry, rfl, now', htkey ▸ hcache⟩
    · rcases hcase with ⟨hentry, -⟩ | ⟨hbad, -⟩
      · exact Or.inl ⟨task, ⟨htask, htkey, hqueued⟩, hentry,
          Or.inr ⟨rfl, hmove⟩⟩
      · exact absurd hbad hqueued
  · have htask := (stepWorker_frame h).tasks t' ht ▸ hl'.isTask
    exact Or.inl ⟨task', ⟨htask, hl'.hasKey, hl'.begun⟩, rfl, Or.inl rfl⟩

/-- The worker that loads the key goes on with its entry. -/
theorem loads_forth
    {t : ℕ} {a : WorkerStep} (h : s.stepWorker t a = some s') {t' : ℕ}
    {task : Task} (hl : Loads s key t' task) :
    ∃ task', Loads s' key t' task' ∧ task'.entry = task.entry := by
  by_cases ht : t' = t
  · subst ht
    obtain ⟨u, task', hu, htask', -, hkey, -, hcase⟩ := stepWorker_task h
    obtain rfl := Option.some.inj (hl.isTask.symm.trans hu)
    obtain ⟨v, v', hv, hv', hmove, -⟩ := stepWorker_move h
    obtain rfl := Option.some.inj (hl.isTask.symm.trans hv)
    obtain rfl := Option.some.inj (htask'.symm.trans hv')
    rcases hcase with ⟨hentry, -⟩ | ⟨hbad, -⟩
    · refine ⟨task', ⟨htask', hkey.trans hl.hasKey, fun hqueued => ?_⟩, hentry⟩
      rw [hqueued] at hmove
      generalize task.pc = pc at hmove
      cases hmove
    · exact absurd hbad hl.begun
  · exact ⟨task, ⟨((stepWorker_frame h).tasks t' ht).trans hl.isTask,
      hl.hasKey, hl.begun⟩, rfl⟩

/-- Only the worker that loads the key finishes its entry. -/
theorem finishes
    (hs : LoadInv key s) {t : ℕ} {a : WorkerStep}
    (h : s.stepWorker t a = some s') {t' : ℕ} {task : Task} {e e' : Entry}
    (hl : Loads s key t' task) (he : s.cache.entries task.entry = some e)
    (hloading : e.isLoading = true)
    (he' : s'.cache.entries task.entry = some e')
    (hdone : e'.isLoading = false) : t' = t ∧ task.pc = .finishing := by
  obtain ⟨f, hf, hfkey, -⟩ := hs.loaded t' task hl
  obtain rfl := Option.some.inj (he.symm.trans hf)
  have hstill : e' = e → t' = t ∧ task.pc = .finishing := by
    rintro rfl
    rw [hloading] at hdone
    cases hdone
  cases stepWorker_effect h with
  | kept hcontents =>
      obtain ⟨f, hf, -, hsame, -⟩ := hcontents.back _ e' he'
      obtain rfl := Option.some.inj (he.symm.trans hf)
      rw [hsame, hloading] at hdone
      cases hdone
  | created u now hu hpc hfree hnone hcache =>
      rw [hcache, hs.base.wf.created_entries he] at he'
      exact hstill (Option.some.inj he').symm
  | appended u f f' hu hpc hf hkey hsame hdata hcache =>
      rw [hcache] at he'
      by_cases hx : task.entry = u.entry
      · have hfe : f' = e' := by simpa [Cache.putEntry, hx] using he'
        rw [hx, hf] at he
        rw [← hfe, hsame, Option.some.inj he, hloading] at hdone
        cases hdone
      · refine hstill (Option.some.inj (he.symm.trans ?_)).symm
        simpa [Cache.putEntry, hx] using he'
  | finished u f f' hu hpc hf hkey hsame hdata hcache =>
      rw [hcache] at he'
      by_cases hx : task.entry = u.entry
      · have hukey := (hs.base.handed t u hu (by simp [hpc, TaskPc.HasEntry])).2
          e (hx ▸ he)
        have hlu : Loads s key t u :=
          ⟨hu, hukey.symm.trans hfkey, by simp [hpc]⟩
        obtain rfl := hs.one t' t task u hl hlu
        obtain rfl := Option.some.inj (hl.isTask.symm.trans hu)
        exact ⟨rfl, hpc⟩
      · refine hstill (Option.some.inj (he.symm.trans ?_)).symm
        simpa [Cache.putEntry, hx] using he'
  | freed u y f hu hpc hfree hmem hf hkey hsame hcache =>
      rw [hcache] at he'
      have hback := ((hs.base.wf.removeEntry_frees _ y).entries_back he').2
      exact hstill (Option.some.inj (he.symm.trans hback)).symm

theorem of_stepWorker
    (hs : LoadInv key s) {t : ℕ} {a : WorkerStep}
    (hload : LoadedOnce key r s (.worker t a))
    (h : s.stepWorker t a = some s') : LoadInv key s' := by
  have hstep : s.step (.worker t a) = some s' := h
  refine ⟨hs.base.of_stepWorker h, ?_, ?_, ?_⟩
  · intro t₁ t₂ u₁ u₂ h₁ h₂
    rcases hs.loads_back hload h h₁ with
      ⟨v₁, hv₁, -⟩ | ⟨hnone, -, -, rfl, -⟩
    · rcases hs.loads_back hload h h₂ with ⟨v₂, hv₂, -⟩ | ⟨hnone, -⟩
      · exact hs.one t₁ t₂ v₁ v₂ hv₁ hv₂
      · exact absurd hv₁ (hnone t₁ v₁)
    · rcases hs.loads_back hload h h₂ with
        ⟨v₂, hv₂, -⟩ | ⟨-, -, -, rfl, -⟩
      · exact absurd hv₂ (hnone t₂ v₂)
      · rfl
  · intro t' task' hl'
    rcases hs.loads_back hload h hl' with
      ⟨task, hl, hentry, hpc⟩ | ⟨hnone, hpc, hentry, -, now, hcache⟩
    · obtain ⟨e, he, hekey, hdone⟩ := hs.loaded t' task hl
      obtain ⟨e', he'⟩ := hs.kept hload hstep he hekey
      rw [hentry]
      refine ⟨e', he', ?_, fun hdone' => ?_⟩
      · rcases hs.base.step_entries hstep he' with ⟨f, hf, hsame, -⟩ | ⟨hx, -⟩
        · obtain rfl := Option.some.inj (he.symm.trans hf)
          exact hsame.trans hekey
        · rw [hx, hs.base.wf.entries_nextEntry] at he
          cases he
      · by_cases hloading : e.isLoading = true
        · obtain ⟨-, hfin⟩ := hs.finishes h hl he hloading he' hdone'
          obtain ⟨rfl, -⟩ := hs.finishes h hl he hloading he' hdone'
          obtain ⟨v, v', hv, hv', hmove, -⟩ := stepWorker_move h
          obtain rfl := Option.some.inj (hl.isTask.symm.trans hv)
          obtain rfl := Option.some.inj (hl'.isTask.symm.trans hv')
          rw [hfin] at hmove
          generalize task'.pc = pc at hmove
          cases hmove
          exact Or.inl rfl
        · rcases hpc with hsame | ⟨-, hmove⟩
          · rw [hsame]
            exact hdone (by simpa using hloading)
          · have hat := hdone (by simpa using hloading)
            generalize task.pc = pc, task'.pc = pc' at hmove hat
            rcases hat with rfl | rfl
            · cases hmove
              exact Or.inr rfl
            · cases hmove
    · refine ⟨s.cache.newEntry key now, ?_, rfl, fun hdone => by cases hdone⟩
      rw [hentry, hcache, Cache.created_entries_new]
  · intro x e' he' hkey
    rcases hs.base.step_entries hstep he' with
      ⟨e, he, hsame, -⟩ | ⟨hx, -, -, u, now, task, hact, htask, hnone, hkey'⟩
    · obtain ⟨t', task, hl, hentry⟩ := hs.loader x e he (hsame.symm.trans hkey)
      obtain ⟨task', hl', hentry'⟩ := loads_forth h hl
      exact ⟨t', task', hl', hentry'.trans hentry⟩
    · cases hact
      obtain ⟨v, hv, -, -, ⟨y, f, hfind, -⟩ | ⟨-, -, rfl⟩ | ⟨-, hbad, -⟩⟩ :=
        startLoading_spec h
      · obtain rfl := Option.some.inj (htask.symm.trans hv)
        rw [hnone] at hfind
        cases hfind
      · obtain rfl := Option.some.inj (htask.symm.trans hv)
        refine ⟨t, { task with pc := .started, entry := s.cache.nextEntry },
          ⟨setTask_self .., hkey'.symm.trans hkey, ?_⟩, hx.symm⟩
        simp
      · cases hbad

theorem of_step
    (hs : LoadInv key s) {a : Action} (hload : LoadedOnce key r s a)
    (h : s.step a = some s') : LoadInv key s' := by
  cases a with
  | request r' a =>
      exact hs.of_quiet (hs.base.of_step h) (hs.base.quiet_of_stepRequest h)
        fun x e he hkey => hs.kept hload h he hkey
  | worker t a => exact hs.of_stepWorker hload h
  | collector a =>
      exact hs.of_quiet (hs.base.of_step h) (hs.base.quiet_of_stepCollector h)
        fun x e he hkey => hs.kept hload h he hkey

/-- A worker that loads the key after a step loaded it before, or nobody
did. -/
theorem loads_step_back
    (hs : LoadInv key s) {a : Action} (hload : LoadedOnce key r s a)
    (h : s.step a = some s') {t : ℕ} {task' : Task}
    (hl' : Loads s' key t task') :
    (∃ task, Loads s key t task ∧ task'.entry = task.entry) ∨
      ∀ t task, ¬ Loads s key t task := by
  have hquiet : Consistent.Quiet s s' →
      ∃ task, Loads s key t task ∧ task'.entry = task.entry := by
    intro hq
    obtain ⟨htask', hkey, hpc⟩ := hl'
    rcases hq.tasks t task' htask' with ⟨task, htask, heq⟩ | ⟨x, k, rfl⟩
    · rw [heq] at hkey hpc ⊢
      exact ⟨task, ⟨htask, hkey, hpc⟩, rfl⟩
    · exact absurd rfl hpc
  cases a with
  | request r' a => exact Or.inl (hquiet (hs.base.quiet_of_stepRequest h))
  | collector a => exact Or.inl (hquiet (hs.base.quiet_of_stepCollector h))
  | worker u a =>
      rcases hs.loads_back hload h hl' with
        ⟨task, hl, hentry, -⟩ | ⟨hnone, -⟩
      · exact Or.inl ⟨task, hl, hentry⟩
      · exact Or.inr hnone

theorem loads_step_forth
    (hs : LoadInv key s) {a : Action} (h : s.step a = some s') {t : ℕ}
    {task : Task} (hl : Loads s key t task) :
    ∃ task', Loads s' key t task' ∧ task'.entry = task.entry := by
  have hquiet : Consistent.Quiet s s' →
      ∃ task', Loads s' key t task' ∧ task'.entry = task.entry := by
    intro hq
    obtain ⟨stop, htask'⟩ := hq.kept t task hl.isTask
    exact ⟨_, ⟨htask', hl.hasKey, hl.begun⟩, rfl⟩
  cases a with
  | request r' a => exact hquiet (hs.base.quiet_of_stepRequest h)
  | collector a => exact hquiet (hs.base.quiet_of_stepCollector h)
  | worker u a => exact loads_forth h hl

/-- The entry that a search for the key finds is that of the worker. -/
theorem loader_of_findEntry
    (hs : LoadInv key s) {x : ℕ} {e : Entry}
    (hfind : s.cache.findEntry key = some (x, e)) :
    ∃ t task, Loads s key t task ∧ task.entry = x ∧
      s.bytesOf task.entry = e.data := by
  obtain ⟨-, he, hkey⟩ := Cache.findEntry_eq_some hfind
  obtain ⟨t, task, hl, rfl⟩ := hs.loader x e he hkey
  exact ⟨t, task, hl, rfl, (hs.base.contents _ e he).symm⟩

/-- The bytes of a finished entry stay. -/
theorem bytesOf_frozen
    (hs : LoadInv key s) {a : Action} (h : s.step a = some s') {t : ℕ}
    {task : Task} {e : Entry} (hl : Loads s key t task)
    (he : s.cache.entries task.entry = some e) (hdone : e.isLoading = false) :
    s'.bytesOf task.entry = s.bytesOf task.entry := by
  obtain ⟨f, hf, hfkey, hpc⟩ := hs.loaded t task hl
  obtain rfl := Option.some.inj (he.symm.trans hf)
  unfold State.bytesOf
  rcases hs.base.step_appends h task.entry with
    heq | ⟨u, v, f, hv, hvpc, hentry, -, -⟩
  · rw [heq]
  · have hvkey := (hs.base.handed u v hv (by simp [hvpc, TaskPc.HasEntry])).2
      e (hentry ▸ he)
    have hlv : Loads s key u v := ⟨hv, hvkey.symm.trans hfkey, by simp [hvpc]⟩
    obtain rfl := hs.one t u task v hl hlv
    obtain rfl := Option.some.inj (hl.isTask.symm.trans hv)
    rw [hvpc] at hpc
    rcases hpc hdone with hbad | hbad <;> cases hbad

/-- A finished entry stays finished, with its bytes. -/
theorem finished_step
    (hs : LoadInv key s) {a : Action} (hload : LoadedOnce key r s a)
    (h : s.step a = some s') {t : ℕ} {task : Task} {e : Entry}
    (hl : Loads s key t task) (he : s.cache.entries task.entry = some e)
    (hdone : e.isLoading = false) :
    ∃ task' e', Loads s' key t task' ∧ task'.entry = task.entry ∧
      s'.cache.entries task.entry = some e' ∧ e'.isLoading = false ∧
      s'.bytesOf task.entry = s.bytesOf task.entry := by
  obtain ⟨task', hl', hentry⟩ := hs.loads_step_forth h hl
  obtain ⟨f, hf, hfkey, -⟩ := hs.loaded t task hl
  obtain rfl := Option.some.inj (he.symm.trans hf)
  obtain ⟨e', he'⟩ := hs.kept hload h he hfkey
  refine ⟨task', e', hl', hentry, he', ?_, hs.bytesOf_frozen h hl he hdone⟩
  rcases hs.base.step_entries h he' with ⟨g, hg, -, -, hwas⟩ | ⟨hx, -⟩
  · obtain rfl := Option.some.inj (he.symm.trans hg)
    by_contra hne
    rw [hwas (by simpa using hne)] at hdone
    cases hdone
  · rw [hx, hs.base.wf.entries_nextEntry] at he
    cases he

end LoadInv

/-- The bytes of an entry only grow. -/
theorem Consistent.bytesOf_prefix
    {s s' : State} (hs : Consistent s) {a : Action} (h : s.step a = some s')
    (x : ℕ) : s.bytesOf x <+: s'.bytesOf x := by
  unfold State.bytesOf
  rcases hs.step_appends h x with heq | ⟨t, task, e, -, -, -, -, heq⟩
  · exact heq ▸ List.prefix_rfl
  · rw [heq, List.map_append, List.flatten_append]
    exact List.prefix_append _ _

/-- A request ends as done only at the end of a lookup that finds the entry
finished and without further bytes. -/
theorem Consistent.step_cacheDone
    {s s' : State} (hs : Consistent s) {a : Action} (h : s.step a = some s')
    {r : ℕ} {w w' : WriteReq} (hw : s.reqs r = some w)
    (hw' : s'.reqs r = some w') (hnot : w.releasedBy ≠ some .cacheDone)
    (hdone : w'.releasedBy = some .cacheDone) :
    ∃ e, s.cache.findEntry w.key = some (w.entry, e) ∧
      e.isLoading = false ∧ e.data.length = w.lastOffset ∧
      w.streaming = true ∧ w' = w.release .cacheDone ∧
      s.cache.SameContents s'.cache := by
  -- no other step changes the cause to this one
  have hother : w'.releasedBy = w.releasedBy → False :=
    fun heq => hnot (heq.symm.trans hdone)
  cases a with
  | worker t a =>
      rcases (stepWorker_frame h).reqs r with heq | heq
      · rw [hw', hw] at heq
        exact (hother (by rw [Option.some.inj heq])).elim
      · rw [hw', hw] at heq
        exact (hother (by simp [Option.some.inj heq])).elim
  | collector a =>
      have heq := congrFun (stepCollector_frame h).reqs r
      rw [hw', hw] at heq
      exact (hother (by rw [Option.some.inj heq])).elim
  | request r' a =>
      by_cases hr : r = r'
      on_goal 2 =>
        have heq := (stepRequest_frame h).reqs r hr
        rw [hw', hw] at heq
        exact (hother (by rw [Option.some.inj heq])).elim
      subst hr
      have hcontents := (stepRequest_frame h).contents
      cases WriteReq.ownStep_of_stepRequest h hw hw' with
      | lookupHit => exact (hother rfl).elim
      | lookupMiss _ _ _ _ hout => exact (hother hout.releasedBy_eq).elim
      | lookupEnd now accepted e _ hpc he hout =>
          obtain ⟨hsite, hload, hlen, heq⟩ := hout.cacheDone hnot hdone
          obtain ⟨f, hfind, hfload⟩ := hs.found r w hw hpc
          obtain ⟨-, hf, -⟩ := Cache.findEntry_eq_some hfind
          obtain rfl := Option.some.inj (he.symm.trans hf)
          exact ⟨e, hfind, hfload hload, hlen,
            (hs.fields r w hw).streaming_of_site (Or.inr hpc) (by simp [hsite]),
            heq, hcontents⟩
      | launched => exact (hother (by simp)).elim
      | notLaunched => exact (hother rfl).elim
      | registerWaiter => exact (hother (by simp)).elim
      | onDataReady => exact (hother (by simp)).elim
      | onWritten ok =>
          rcases w.onWritten_releasedBy ok with heq | hne
          · exact (hother heq).elim
          · exact absurd hdone hne
      | unregisterWaiter => exact (hother rfl).elim
      | cancelBgw => exact (hother rfl).elim
      | onAsyncClose => exact (hother rfl).elim

/-! ## The client -/

/-- The next chunk continues what was sent. -/
theorem take_append_chunk
    {bytes : List UInt8} {offset : ℕ} (maxSize : ℕ) :
    bytes.take offset ++ (bytes.drop offset).take maxSize =
      bytes.take (offset + ((bytes.drop offset).take maxSize).length) := by
  rw [List.take_add]
  congr 1
  simp

/-- The invariant of request `r`: what it has been sent are the first bytes of
the entry that its key was loaded into. -/
structure Streamed (key : CString) (r : ℕ) (s : State) : Prop where
  load : LoadInv key s
  early : ∀ w, s.reqs r = some w → w.key = key → w.streaming = true →
    (∀ t task, ¬ Loads s key t task) → w.sent = [] ∧ w.lastOffset = 0
  exact : ∀ w, s.reqs r = some w → w.key = key → w.streaming = true →
    ∀ t task, Loads s key t task →
      w.lastOffset ≤ (s.bytesOf task.entry).length ∧
        w.sent = (s.bytesOf task.entry).take w.lastOffset
  whole : ∀ w, s.reqs r = some w → w.key = key →
    w.releasedBy = some .cacheDone → ∃ t task e, Loads s key t task ∧
      s.cache.entries task.entry = some e ∧ e.isLoading = false ∧
      w.lastOffset = (s.bytesOf task.entry).length

namespace Streamed

variable {key : CString} {r : ℕ} {s s' : State}

theorem init (numBuckets : ℕ) (defaultTtl : ℤ) :
    Streamed key r (.init numBuckets defaultTtl) where
  load := .init numBuckets defaultTtl
  early := by simp [State.init]
  exact := by simp [State.init]
  whole := by simp [State.init]

/-- A step of the system on the request: it is new, it was sent nothing, or it
was sent the next chunk of its entry. -/
theorem exact_of_step
    (hs : Streamed key r s) {a : Action} (hload : LoadedOnce key r s a)
    (h : s.step a = some s') {w' : WriteReq} (hw' : s'.reqs r = some w')
    (hkey : w'.key = key) (hstream' : w'.streaming = true) {t : ℕ}
    {task' : Task} (hl' : Loads s' key t task') :
    w'.lastOffset ≤ (s'.bytesOf task'.entry).length ∧
      w'.sent = (s'.bytesOf task'.entry).take w'.lastOffset := by
  rcases hs.load.base.step_history h hw' with
    ⟨-, x, -, -, hnew⟩ | ⟨w, hw, hclient, hstep⟩
  · rw [hnew] at hstream'
    cases hstream'
  · have hwkey : w.key = key := hclient.key.symm.trans hkey
    cases hstep with
    | same hsame hlive hstream =>
        rw [hsame.lastOffset, hsame.sent]
        by_cases hwas : w.streaming = true
        · rcases hs.load.loads_step_back hload h hl' with
            ⟨task, hl, hentry⟩ | hnone
          · obtain ⟨hle, hsent⟩ := hs.exact w hw hwkey hwas t task hl
            obtain ⟨d, hd⟩ := hs.load.base.bytesOf_prefix h task.entry
            rw [hentry, ← hd, List.take_append_of_le_length hle, hsent]
            exact ⟨by rw [List.length_append]; omega, rfl⟩
          · obtain ⟨hempty, hzero⟩ := hs.early w hw hwkey hwas hnone
            rw [hempty, hzero]
            exact ⟨Nat.zero_le _, by simp⟩
        · -- the request has just begun to stream
          have hempty := ((hstream hstream').resolve_left hwas).1
          have hzero := (hs.load.base.fields r w hw).unsent
            (by simpa using hwas)
          rw [hempty, hzero]
          exact ⟨Nat.zero_le _, by simp⟩
    | answered e now accepted hact hcontents hpc he hstream hloading heq =>
        rw [heq] at hstream'
        simp [WriteReq.write, hstream] at hstream'
    | chunk e now accepted hact hcontents hpc hsite he hstream hlen heq =>
        subst hact
        obtain rfl := hload.accepted now accepted rfl
        obtain ⟨f, hfind, -⟩ := hs.load.base.found r w hw hpc
        obtain ⟨-, hf, -⟩ := Cache.findEntry_eq_some hfind
        obtain rfl := Option.some.inj (he.symm.trans hf)
        rw [hwkey] at hfind
        obtain ⟨u, v, hv, hentry, hbytes⟩ := hs.load.loader_of_findEntry hfind
        obtain ⟨task, hl, hsame⟩ :=
          (hs.load.loads_step_back hload h hl').resolve_right
            fun hnone => hnone u v hv
        obtain rfl := hs.load.one t u task v hl hv
        obtain rfl := Option.some.inj (hl.isTask.symm.trans hv.isTask)
        obtain ⟨-, hsent⟩ := hs.exact w hw hwkey hstream t task hl
        have hreq : s.stepRequest r (.lookupEnd now true) = some s' := h
        have hkept : s'.bytesOf task.entry = s.bytesOf task.entry := by
          unfold State.bytesOf
          rw [(stepRequest_frame hreq).appends]
        rw [hbytes] at hsent
        rw [hsame, hkept, hbytes, heq]
        constructor
        · simp only [List.length_take, List.length_drop]
          omega
        · simp only [WriteReq.write, if_true, hsent]
          exact take_append_chunk packetSize

theorem early_of_step
    (hs : Streamed key r s) {a : Action} (h : s.step a = some s')
    {w' : WriteReq} (hw' : s'.reqs r = some w') (hkey : w'.key = key)
    (hstream' : w'.streaming = true)
    (hnone' : ∀ t task, ¬ Loads s' key t task) :
    w'.sent = [] ∧ w'.lastOffset = 0 := by
  have hnone : ∀ t task, ¬ Loads s key t task := by
    intro t task hl
    obtain ⟨task', hl', -⟩ := hs.load.loads_step_forth h hl
    exact hnone' t task' hl'
  rcases hs.load.base.step_history h hw' with
    ⟨-, x, -, -, hnew⟩ | ⟨w, hw, hclient, hstep⟩
  · rw [hnew] at hstream'
    cases hstream'
  · have hwkey : w.key = key := hclient.key.symm.trans hkey
    cases hstep with
    | same hsame hlive hstream =>
        rw [hsame.lastOffset, hsame.sent]
        by_cases hwas : w.streaming = true
        · exact hs.early w hw hwkey hwas hnone
        · exact ⟨((hstream hstream').resolve_left hwas).1,
            (hs.load.base.fields r w hw).unsent (by simpa using hwas)⟩
    | answered e now accepted hact hcontents hpc he hstream hloading heq =>
        rw [heq] at hstream'
        simp [WriteReq.write, hstream] at hstream'
    | chunk e now accepted hact hcontents hpc hsite he hstream hlen heq =>
        obtain ⟨f, hfind, -⟩ := hs.load.base.found r w hw hpc
        obtain ⟨t, task, hl, -⟩ :=
          hs.load.loader_of_findEntry (hwkey ▸ hfind)
        exact absurd hl (hnone t task)

theorem whole_of_step
    (hs : Streamed key r s) {a : Action} (hload : LoadedOnce key r s a)
    (h : s.step a = some s') {w' : WriteReq} (hw' : s'.reqs r = some w')
    (hkey : w'.key = key) (hdone' : w'.releasedBy = some .cacheDone) :
    ∃ t task e, Loads s' key t task ∧ s'.cache.entries task.entry = some e ∧
      e.isLoading = false ∧
      w'.lastOffset = (s'.bytesOf task.entry).length := by
  rcases hs.load.base.step_history h hw' with
    ⟨-, x, -, -, hnew⟩ | ⟨w, hw, hclient, hstep⟩
  · rw [hnew] at hdone'
    cases hdone'
  · have hwkey : w.key = key := hclient.key.symm.trans hkey
    -- the entry was finished before the step, with `w'.lastOffset` bytes
    suffices hbefore : ∃ t task e, Loads s key t task ∧
        s.cache.entries task.entry = some e ∧ e.isLoading = false ∧
        w'.lastOffset = (s.bytesOf task.entry).length by
      obtain ⟨t, task, e, hl, he, hfin, hlen⟩ := hbefore
      obtain ⟨task', e', hl', hentry, he', hfin', hbytes⟩ :=
        hs.load.finished_step hload h hl he hfin
      exact ⟨t, task', e', hl', hentry ▸ he', hfin', by
        rw [hentry, hbytes, hlen]⟩
    by_cases hdone : w.releasedBy = some .cacheDone
    · obtain ⟨t, task, e, hl, he, hfin, hlen⟩ := hs.whole w hw hwkey hdone
      refine ⟨t, task, e, hl, he, hfin, ?_⟩
      cases hstep with
      | same hsame => rw [hsame.lastOffset, hlen]
      | answered f now accepted hact hcontents hpc hf hstream hloading heq =>
          rw [heq]
          exact hlen
      | chunk f now accepted hact hcontents hpc hsite hf hstream hlt heq =>
          -- a request that is done looks up nothing more
          obtain ⟨g, hfind, -⟩ := hs.load.base.found r w hw hpc
          obtain ⟨-, hg, -⟩ := Cache.findEntry_eq_some hfind
          obtain rfl := Option.some.inj (hf.symm.trans hg)
          obtain ⟨u, v, hv, -, hbytes⟩ :=
            hs.load.loader_of_findEntry (hwkey ▸ hfind)
          obtain rfl := hs.load.one t u task v hl hv
          obtain rfl := Option.some.inj (hl.isTask.symm.trans hv.isTask)
          rw [hbytes] at hlen
          omega
    · obtain ⟨e, hfind, hfin, hlen, -, heq, -⟩ :=
        hs.load.base.step_cacheDone h hw hw' hdone hdone'
      obtain ⟨t, task, hl, hentry, hbytes⟩ :=
        hs.load.loader_of_findEntry (hwkey ▸ hfind)
      have he := (Cache.findEntry_eq_some hfind).2.1
      refine ⟨t, task, e, hl, hentry ▸ he, hfin, ?_⟩
      rw [hbytes, hlen, heq]
      rfl

theorem of_step
    (hs : Streamed key r s) {a : Action} (hload : LoadedOnce key r s a)
    (h : s.step a = some s') : Streamed key r s' where
  load := hs.load.of_step hload h
  early := fun _ hw' hkey hstream hnone =>
    hs.early_of_step h hw' hkey hstream hnone
  exact := fun _ hw' hkey hstream _ _ hl' =>
    hs.exact_of_step hload h hw' hkey hstream hl'
  whole := fun _ hw' hkey hdone => hs.whole_of_step hload h hw' hkey hdone

theorem of_reachable
    (hs : proxy.ReachableUnder (LoadedOnce key r) s) : Streamed key r s := by
  refine hs.invariant ?_ fun s a s' hs ha hstep => hs.of_step ha hstep
  rintro s ⟨numBuckets, defaultTtl, rfl⟩
  exact init numBuckets defaultTtl

theorem delivered
    (hs : Streamed key r s) {w : WriteReq} (hw : s.reqs r = some w)
    (hkey : w.key = key) (hstream : w.streaming = true) : Delivered s w := by
  subst hkey
  have hok := hs.load.base.fields r w hw
  refine ⟨?_, ?_⟩
  · by_cases hpending : w.writePending = true
    · exact (hok.writing hpending).2.le
    · simp [hok.notPending hstream (by simpa using hpending)]
  · by_cases hany : ∃ t task, Loads s w.key t task
    · obtain ⟨t, task, hl⟩ := hany
      obtain ⟨hle, hsent⟩ := hs.exact w hw rfl hstream t task hl
      refine ⟨s.bytesOf task.entry, fun b => ⟨?_, ?_⟩, hle, hsent, ?_⟩
      · rintro (hnone | ⟨u, v, hv⟩)
        · exact absurd hl (hnone t task)
        · obtain rfl := hs.load.one t u task v hl hv
          obtain rfl := Option.some.inj (hl.isTask.symm.trans hv.isTask)
          rfl
      · rintro rfl
        exact .loading t task hl
      · intro hdone
        obtain ⟨u, v, e, hv, -, -, hlen⟩ := hs.whole w hw rfl hdone
        obtain rfl := hs.load.one t u task v hl hv
        obtain rfl := Option.some.inj (hl.isTask.symm.trans hv.isTask)
        rw [hsent, hlen, List.take_length]
    · have hnone : ∀ t task, ¬ Loads s w.key t task :=
        fun t task hl => hany ⟨t, task, hl⟩
      obtain ⟨hempty, hzero⟩ := hs.early w hw rfl hstream hnone
      refine ⟨[], fun b => ⟨?_, ?_⟩, by simp [hzero], by simp [hempty],
        fun _ => hempty⟩
      · rintro (- | ⟨t, task, hl⟩)
        · rfl
        · exact absurd hl (hnone t task)
      · rintro rfl
        exact .unstarted hnone

end Streamed

/-- Streaming delivers the response of a key that is loaded once, and a
request that ends as done has been sent what `cache_lookup` returns for its
key. -/
theorem delivered_of_loadedOnce
    {key : CString} {r : ℕ} {s : State}
    (hs : proxy.ReachableUnder (LoadedOnce key r) s) :
    (∀ w, s.reqs r = some w → w.key = key → w.streaming = true →
      Delivered s w) ∧
    ∀ a s' w w', LoadedOnce key r s a → s.step a = some s' →
      s.reqs r = some w → s'.reqs r = some w' → w.key = key →
      w.releasedBy ≠ some .cacheDone → w'.releasedBy = some .cacheDone →
        ∀ now, (s'.cache.lookup key now).1 =
          ⟨.found, w'.sent, some false⟩ := by
  have hinv := Streamed.of_reachable hs
  refine ⟨fun w hw hkey hstream => hinv.delivered hw hkey hstream, ?_⟩
  intro a s' w w' hload h hw hw' hkey hnot hdone now
  have hbase := hinv.load.base
  obtain ⟨e, hfind, hfin, hlen, hstream, heq, hcontents⟩ :=
    hbase.step_cacheDone h hw hw' hnot hdone
  rw [hkey] at hfind
  obtain ⟨t, task, hl, -, hbytes⟩ := hinv.load.loader_of_findEntry hfind
  obtain ⟨-, hsent⟩ := hinv.exact w hw hkey hstream t task hl
  have hall : w'.sent = e.data := by
    rw [heq]
    change w.sent = e.data
    rw [hsent, hbytes, ← hlen, List.take_length]
  obtain ⟨e', hfind', hload', hdata'⟩ :=
    hcontents.findEntry hbase.wf (hbase.of_step h).wf hfind
  simp [Cache.lookup, Cache.lookupPartial, hfind', readEntry, hload', hfin,
    hdata', hall]

/-- A test for `LoadedOnce` in a system of `n` clients without a collector. -/
def loadedOnce (n : ℕ) (key : CString) (r : ℕ) (s : State) : Action → Bool
  | .worker t (.startLoading _ ok) =>
      (s.tasks t).all fun task => decide (task.key ≠ key) ||
        (ok && (List.range n).all fun t' => (s.tasks t').all fun task' =>
          decide (task'.key = key → task'.pc = .queued))
  | .worker t .cancelLoading =>
      (s.tasks t).all fun task => decide (task.path ≠ key)
  | .collector .entry => false
  | .request r' (.lookupEnd _ accepted) => decide (r' ≠ r) || accepted
  | _ => true

theorem loadedOnce_sound
    (n : ℕ) (key : CString) (r : ℕ) (s : State) (a : Action) (hs : s.Below n)
    (h : loadedOnce n key r s a = true) : LoadedOnce key r s a := by
  refine ⟨?_, ?_, ?_, ?_⟩
  · rintro t now ok rfl task htask hkey
    have hall : ok = true ∧ ∀ t < n, (s.tasks t).all (fun task =>
        decide (task.key = key → task.pc = .queued)) = true := by
      simpa only [loadedOnce, htask, Option.all_some, hkey, ne_eq,
        not_true_eq_false, decide_false, Bool.false_or, Bool.and_eq_true,
        List.all_eq_true, List.mem_range] using h
    refine ⟨hall.1, fun t' task' hl => ?_⟩
    have hqueued := hall.2 t' (hs.lt_of_task hl.isTask)
    rw [hl.isTask] at hqueued
    exact hl.begun (of_decide_eq_true hqueued hl.hasKey)
  · rintro t rfl task x e htask hpath
    simp [loadedOnce, htask, hpath] at h
  · rintro rfl
    cases h
  · rintro now accepted rfl
    simpa [loadedOnce] using h

/-- One client and its worker.  The client registers, is notified, ignores
two notifications while its first write is pending, and looks up for the last
time. -/
def streamedPage : List Action :=
  arriveFirst 0 rootRequest ++ beginLoad 0 ++ sendChunk 0 ++
    [.request 0 (.registerWaiter true)] ++ sendChunk 0 ++ deliver 0 [1] ++
    [.request 0 .onDataReady] ++ sendChunk 0 ++ deliver 0 [2, 3] ++
    [.request 0 .onDataReady] ++ endLoad 0 ++
    [.request 0 .onDataReady, .request 0 (.onWritten true)] ++ sendChunk 0 ++
    [.request 0 (.onWritten true), .request 0 .lookupBegin]

theorem delivered_of_loadedOnce_streamedPage :
    ∃ s s' w w', proxy.runWhile (fun s a => a.within 1 &&
        loadedOnce 1 rootRequest.urlPath 0 s a) (.init 1 100) streamedPage =
          some s ∧
      s.step (.request 0 (.lookupEnd 0 true)) = some s' ∧
      s.reqs 0 = some w ∧ s'.reqs 0 = some w' ∧
      w'.releasedBy = some .cacheDone ∧ Delivered s w ∧
      (s'.cache.lookup rootRequest.urlPath 0).1 =
        ⟨.found, [1, 2, 3], some false⟩ := by
  have hrun : (proxy.runWhile (fun s a => a.within 1 &&
      loadedOnce 1 rootRequest.urlPath 0 s a) (.init 1 100)
        streamedPage).bind (fun s =>
      (s.step (.request 0 (.lookupEnd 0 true))).map fun s' =>
        ((s.reqs 0).map fun w => (w.key, w.streaming, w.releasedBy),
          (s'.reqs 0).map fun w => (w.sent, w.releasedBy))) =
      some (some (rootRequest.urlPath, true, none),
        some ([1, 2, 3], some .cacheDone)) := rfl
  obtain ⟨s, hs, hlast⟩ := Option.bind_eq_some_iff.mp hrun
  obtain ⟨s', hstep, hobs⟩ := Option.map_eq_some_iff.mp hlast
  obtain ⟨hreq, hreq'⟩ := Prod.mk.inj hobs
  obtain ⟨w, hw, hwobs⟩ := Option.map_eq_some_iff.mp hreq
  obtain ⟨w', hw', hwobs'⟩ := Option.map_eq_some_iff.mp hreq'
  obtain ⟨hkey, hrest⟩ := Prod.mk.inj hwobs
  obtain ⟨hstream, hnone⟩ := Prod.mk.inj hrest
  obtain ⟨hsent, hdone⟩ := Prod.mk.inj hwobs'
  obtain ⟨hdeliv, hfound⟩ := delivered_of_loadedOnce
    (reachableUnder_of_runWhile (loadedOnce_sound 1 rootRequest.urlPath 0) hs)
  refine ⟨s, s', w, w', hs, hstep, hw, hw', hdone, hdeliv w hw hkey hstream, ?_⟩
  rw [← hsent]
  refine hfound _ s' w w' ⟨?_, ?_, ?_, ?_⟩ hstep hw hw' hkey (by simp [hnone])
    hdone 0
  · rintro t now ok ⟨⟩
  · rintro t ⟨⟩
  · rintro ⟨⟩
  · rintro now accepted ⟨⟩
    rfl

end Streaming
end Proxy
end OsFifthSem
