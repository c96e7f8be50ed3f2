import OsFifthSem.Proxy.Streaming.Consistent

/-!
# One worker per response

Two clients can both miss in the cache before either worker has started, and
then `cache_start_loading` hands the entry of the first worker to the second
one, which is not told that the entry is already being filled.  As long as
that does not happen, every loading entry has one worker, and a finished entry
holds what curl delivered to that worker.
-/

namespace OsFifthSem
namespace Proxy
namespace Streaming

open Support State

/-- Finished entries hold the chunks delivered to one worker, and the chunks
of two workers never meet in an entry. -/
structure SingleFlight (s : State) : Prop where
  finished : ∀ x e, s.cache.entries x = some e → e.isLoading = false →
    ∃ t task, s.tasks t = some task ∧ e.data = task.delivered.flatten ∧
      ∀ p ∈ s.appends x, p.1 = t
  unmixed : ∀ x p q, p ∈ s.appends x → q ∈ s.appends x → p.1 = q.1

/-- `cache_start_loading` does not hand out an entry that is still loading. -/
def StartsAlone (s : State) (a : Action) : Prop :=
  ∀ t now ok, a = .worker t (.startLoading now ok) →
    ∀ task x e, s.tasks t = some task →
      s.cache.findEntry task.key = some (x, e) → e.isLoading = false

/-- The chunk that curl has delivered and that is not yet appended. -/
def Task.pendingChunk (task : Task) : List UInt8 :=
  if task.pc = .testing ∨ task.pc = .appending then task.chunk else []

/-- Worker `t` uses an entry that is still loading. -/
structure Fills (s : State) (t : ℕ) (task : Task) (e : Entry) : Prop where
  isTask : s.tasks t = some task
  uses : task.pc.UsesEntry
  isEntry : s.cache.entries task.entry = some e
  loading : e.isLoading = true

/-- The invariant: a loading entry has at most one worker, which has appended
everything it was given. -/
structure OneWorker (s : State) : Prop where
  base : Consistent s
  sole : ∀ t t' task task' e, Fills s t task e → Fills s t' task' e →
    task.entry = task'.entry → t = t'
  writer : ∀ t task e, Fills s t task e →
    task.delivered.flatten = e.data ++ task.pendingChunk ∧
      ∀ p ∈ s.appends task.entry, p.1 = t
  unfinished : ∀ t task e, s.tasks t = some task → task.pc = .appending →
    s.cache.entries task.entry = some e → e.isLoading = true
  undelivered : ∀ t task, s.tasks t = some task →
    task.pc = .queued ∨ task.pc = .started → task.delivered = []
  finished : ∀ x e, s.cache.entries x = some e → e.isLoading = false →
    ∃ t task, s.tasks t = some task ∧
      (task.pc = .finishNotify ∨ task.pc = .ended) ∧
      e.data = task.delivered.flatten ∧ ∀ p ∈ s.appends x, p.1 = t
  unmixed : ∀ x p q, p ∈ s.appends x → q ∈ s.appends x → p.1 = q.1

namespace OneWorker

variable {s s' : State}

theorem init (numBuckets : ℕ) (defaultTtl : ℤ) :
    OneWorker (.init numBuckets defaultTtl) where
  base := .init numBuckets defaultTtl
  sole := by
    rintro t t' task task' e ⟨htask, -, -, -⟩
    cases htask
  writer := by
    rintro t task e ⟨htask, -, -, -⟩
    cases htask
  unfinished := by simp [State.init]
  undelivered := by simp [State.init]
  finished := by simp [State.init, Cache.init]
  unmixed := by simp [State.init]

theorem of_quiet
    (hs : OneWorker s) (hbase : Consistent s') (hq : Consistent.Quiet s s') :
    OneWorker s' := by
  have hfills : ∀ {t task' e'}, Fills s' t task' e' →
      ∃ task e, Fills s t task e ∧ task'.entry = task.entry ∧
        task'.delivered = task.delivered ∧
        task'.pendingChunk = task.pendingChunk ∧ e'.data = e.data := by
    rintro t task' e' ⟨htask', huses, he', hload'⟩
    obtain ⟨e, he, -, hload, hdata⟩ := hq.entries _ e' he'
    rcases hq.tasks t task' htask' with ⟨task, htask, heq⟩ | ⟨x, key, rfl⟩
    · rw [heq] at huses he ⊢
      exact ⟨task, e, ⟨htask, huses, he, hload ▸ hload'⟩, rfl, rfl, rfl, hdata⟩
    · exact huses.elim
  refine ⟨hbase, ?_, ?_, ?_, ?_, ?_, ?_⟩
  · intro t t' task₁ task₂ e' h₁ h₂ heq
    obtain ⟨u₁, e₁, hf₁, hentry₁, -⟩ := hfills h₁
    obtain ⟨u₂, e₂, hf₂, hentry₂, -⟩ := hfills h₂
    have hu : u₁.entry = u₂.entry := by rw [← hentry₁, ← hentry₂, heq]
    have he₂ := hf₂.isEntry
    rw [← hu, hf₁.isEntry] at he₂
    obtain rfl := Option.some.inj he₂
    exact hs.sole t t' u₁ u₂ e₁ hf₁ hf₂ hu
  · intro t task' e' h'
    obtain ⟨task, e, hf, hentry, hdeliv, hpend, hdata⟩ := hfills h'
    rw [hdeliv, hpend, hdata, hq.appends, hentry]
    exact hs.writer t task e hf
  · intro t task' e' htask' hpc he'
    obtain ⟨e, he, -, hload, -⟩ := hq.entries _ e' he'
    rcases hq.tasks t task' htask' with ⟨task, htask, heq⟩ | ⟨x, key, rfl⟩
    · rw [heq] at hpc he
      rw [hload]
      exact hs.unfinished t task e htask hpc he
    · cases hpc
  · intro t task' htask' hpc
    rcases hq.tasks t task' htask' with ⟨task, htask, heq⟩ | ⟨x, key, rfl⟩
    · rw [heq] at hpc ⊢
      exact hs.undelivered t task htask hpc
    · rfl
  · intro x e' he' hload'
    obtain ⟨e, he, -, hload, hdata⟩ := hq.entries x e' he'
    obtain ⟨t, task, htask, hpc, hbytes, hwrite⟩ :=
      hs.finished x e he (hload ▸ hload')
    obtain ⟨stop, htask'⟩ := hq.kept t task htask
    rw [hdata, hq.appends]
    exact ⟨t, _, htask', hpc, hbytes, hwrite⟩
  · rw [hq.appends]
    exact hs.unmixed

/-- A worker in the critical section of `cache_append_data` fills its
entry. -/
theorem fills_of_appending
    (hs : OneWorker s) {t : ℕ} {task : Task} {e : Entry}
    (htask : s.tasks t = some task) (hpc : task.pc = .appending)
    (he : s.cache.entries task.entry = some e) : Fills s t task e :=
  ⟨htask, by simp [hpc, TaskPc.UsesEntry], he,
    hs.unfinished t task e htask hpc he⟩

/-- What another worker fills was being filled by it before, and has not been
touched. -/
theorem other_fills
    (hs : OneWorker s) {t t' : ℕ} {a : WorkerStep}
    (h : s.stepWorker t a = some s') (ht : t' ≠ t) {task' : Task} {e' : Entry}
    (hf : Fills s' t' task' e') :
    ∃ e, Fills s t' task' e ∧ e'.data = e.data ∧
      s'.appends task'.entry = s.appends task'.entry := by
  have htask : s.tasks t' = some task' :=
    (stepWorker_frame h).tasks t' ht ▸ hf.isTask
  have hold := (hs.base.handed t' task' htask hf.uses.hasEntry).1
  have hentry := hf.isEntry
  have hload := hf.loading
  cases stepWorker_effect h with
  | kept hcontents happends =>
      obtain ⟨e, he, -, hsame, hdata⟩ := hcontents.back _ e' hentry
      exact ⟨e, ⟨htask, hf.uses, he, hsame ▸ hload⟩, hdata, by rw [happends]⟩
  | created task now _ hpc hfree hnone hcache happends =>
      rw [hcache, Cache.created_entries_of_ne (by omega)] at hentry
      exact ⟨e', ⟨htask, hf.uses, hentry, hload⟩, rfl, by rw [happends]⟩
  | appended task e f htask₀ hpc he hkey hsame hdata hcache happends =>
      have hne : task'.entry ≠ task.entry := by
        intro heq
        have hfe : f = e' := by
          simpa [hcache, heq, Cache.putEntry] using hentry
        have hother : Fills s t' task' e :=
          ⟨htask, hf.uses, heq ▸ he, by rw [← hsame, hfe]; exact hload⟩
        exact ht (hs.sole t' t task' task e hother
          (hs.fills_of_appending htask₀ hpc he) heq)
      have hentry' : s.cache.entries task'.entry = some e' := by
        simpa [hcache, hne, Cache.putEntry] using hentry
      exact ⟨e', ⟨htask, hf.uses, hentry', hload⟩, rfl, by
        rw [happends, Function.update_of_ne hne]⟩
  | finished task e f _ hpc he hkey hdone hdata hcache happends =>
      have hne : task'.entry ≠ task.entry := by
        intro heq
        have hfe : f = e' := by
          simpa [hcache, heq, Cache.putEntry] using hentry
        rw [← hfe, hdone] at hload
        cases hload
      have hentry' : s.cache.entries task'.entry = some e' := by
        simpa [hcache, hne, Cache.putEntry] using hentry
      exact ⟨e', ⟨htask, hf.uses, hentry', hload⟩, rfl, by rw [happends]⟩
  | freed task x e _ hpc hfree hmem he hkey hloading hcache happends =>
      have hfrees :=
        hs.base.wf.removeEntry_frees (s.cache.bucketOf task.path) x
      rw [hcache] at hentry
      exact ⟨e', ⟨htask, hf.uses, (hfrees.entries_back hentry).2, hload⟩, rfl,
        by rw [happends]⟩

/-- What the worker of the step fills is its own new entry, or what it filled
before; either way it has appended everything it was given. -/
theorem own_fills
    (hs : OneWorker s) {t : ℕ} {a : WorkerStep}
    (halone : StartsAlone s (.worker t a))
    (h : s.stepWorker t a = some s') {task' : Task} {e' : Entry}
    (hf : Fills s' t task' e') :
    (task'.delivered.flatten = e'.data ++ task'.pendingChunk ∧
      ∀ p ∈ s'.appends task'.entry, p.1 = t) ∧
    (task'.entry = s.cache.nextEntry ∨
      ∃ task e, Fills s t task e ∧ task'.entry = task.entry) := by
  obtain ⟨htask', huses, hentry, hload⟩ := hf
  -- a step that leaves the entry alone
  have hkeep : ∀ task, s.tasks t = some task → task.pc.UsesEntry →
      task'.entry = task.entry → s.cache.entries task.entry = some e' →
      (task.delivered.flatten = e'.data ++ task.pendingChunk →
        task'.delivered.flatten = e'.data ++ task'.pendingChunk) →
      (task'.delivered.flatten = e'.data ++ task'.pendingChunk ∧
        ∀ p ∈ s.appends task'.entry, p.1 = t) ∧
      (task'.entry = s.cache.nextEntry ∨
        ∃ task e, Fills s t task e ∧ task'.entry = task.entry) := by
    intro task htask huses' hsame he hdeliv
    have hfill : Fills s t task e' := ⟨htask, huses', he, hload⟩
    obtain ⟨hbytes, hwrite⟩ := hs.writer t task e' hfill
    refine ⟨⟨hdeliv hbytes, ?_⟩, Or.inr ⟨task, e', hfill, hsame⟩⟩
    rw [hsame]
    exact hwrite
  cases a with
  | startLoading now ok =>
      obtain ⟨task, htask, hpc, -,
        ⟨x, e, hfind, rfl⟩ | ⟨hnone, -, rfl⟩ | ⟨-, -, rfl⟩⟩ :=
        startLoading_spec h
      · obtain rfl := eq_of_setTask htask'
        obtain ⟨-, he, -⟩ := Cache.findEntry_eq_some hfind
        obtain rfl := Option.some.inj (he.symm.trans hentry)
        rw [halone t now ok rfl task x e htask hfind] at hload
        cases hload
      · obtain rfl := eq_of_setTask htask'
        have hnew : e' = s.cache.newEntry task.key now := by
          simpa [setTask] using hentry.symm
        have hdeliv := hs.undelivered t task htask (Or.inl hpc)
        have happ := hs.base.unappended _ le_rfl
        refine ⟨⟨?_, ?_⟩, Or.inl rfl⟩
        · simp [hdeliv, hnew, Cache.newEntry, createEntry, Task.pendingChunk]
        · simp [setTask, happ]
      · obtain rfl := eq_of_setTask htask'
        exact huses.elim
  | curlInit ok =>
      obtain ⟨task, htask, hpc, rfl⟩ := curlInit_spec h
      obtain rfl := eq_of_setTask htask'
      refine hkeep task htask (by simp [hpc, TaskPc.UsesEntry]) rfl hentry ?_
      cases ok with
      | true => simp [Task.pendingChunk, hpc]
      | false => exact huses.elim
  | writeCallback chunk =>
      obtain ⟨task, task₁, htask, hpc, rfl, hset, hcase⟩ :=
        writeCallback_spec h
      obtain rfl := eq_of_setTask htask'
      have hsame : task₁.entry = task.entry := by rw [hset]
      have hchunk : task₁.chunk = chunk := by rw [hset]
      have hdeliv : task₁.delivered = task.delivered ++ [chunk] := by rw [hset]
      have hentry' : s.cache.entries task.entry = some e' := hsame ▸ hentry
      refine hkeep task htask (by simp [hpc, TaskPc.UsesEntry]) hsame hentry' ?_
      intro hbytes
      have hbefore : task.delivered.flatten = e'.data := by
        simpa [Task.pendingChunk, hpc] using hbytes
      rcases hcase with ⟨-, hpc'⟩ | ⟨-, hempty, hpc'⟩ | ⟨-, hpc'⟩
      · simp [Task.pendingChunk, hpc', hdeliv, hchunk, hbefore]
      · simp [Task.pendingChunk, hpc', hdeliv, hempty, hbefore]
      · simp [hpc', TaskPc.UsesEntry] at huses
  | testLoading =>
      obtain ⟨task, e, htask, hpc, he, ⟨-, rfl⟩ | ⟨hdone, rfl⟩⟩ :=
        testLoading_spec h
      · obtain rfl := eq_of_setTask htask'
        refine hkeep task htask (by simp [hpc, TaskPc.UsesEntry]) rfl hentry ?_
        simp [Task.pendingChunk, hpc]
      · obtain rfl := eq_of_setTask htask'
        obtain rfl := Option.some.inj (he.symm.trans hentry)
        rw [hdone] at hload
        cases hload
  | appendData now ok =>
      obtain ⟨task, e, f, htask, hpc, he, -, -, -,
        ⟨hdata, rfl⟩ | ⟨hdata, rfl⟩⟩ := appendData_spec h
      · obtain rfl := eq_of_setTask htask'
        have hfe : f = e' := by
          simpa [setTask, Cache.putEntry] using hentry
        have hfill := hs.fills_of_appending htask hpc he
        obtain ⟨hbytes, hwrite⟩ := hs.writer t task e hfill
        refine ⟨⟨?_, ?_⟩, Or.inr ⟨task, e, hfill, rfl⟩⟩
        · simpa [Task.pendingChunk, hpc, ← hfe, hdata] using hbytes
        · simp only [setTask, Function.update_self, List.mem_append,
            List.mem_singleton]
          rintro p (hp | rfl)
          · exact hwrite p hp
          · rfl
      · obtain rfl := eq_of_setTask htask'
        have hfe : f = e' := by
          simpa [setTask, Cache.putEntry, Task.refuse] using hentry
        have hfill := hs.fills_of_appending htask hpc he
        obtain ⟨hbytes, hwrite⟩ := hs.writer t task e hfill
        have hempty : task.chunk = [] := by
          by_contra hne
          simp [Task.refuse, hne, TaskPc.UsesEntry] at huses
        refine ⟨⟨?_, hwrite⟩, Or.inr ⟨task, e, hfill, rfl⟩⟩
        simpa [Task.pendingChunk, hpc, Task.refuse, hempty, ← hfe, hdata]
          using hbytes
  | notifyWaitingClients =>
      obtain ⟨task, e, htask, hpc, he, rfl⟩ := notifyWaitingClients_spec h
      obtain rfl := eq_of_setTask htask'
      have huses₀ : task.pc.UsesEntry := by
        rcases hpc with hpc | hpc <;> simp [hpc, TaskPc.UsesEntry]
      refine hkeep task htask huses₀ rfl hentry ?_
      rcases hpc with hpc | hpc
      · simp [Task.pendingChunk, Task.afterNotify, hpc]
      · simp [Task.afterNotify, hpc, TaskPc.UsesEntry] at huses
  | curlDone ok =>
      obtain ⟨task, htask, hpc, rfl⟩ := curlDone_spec h
      obtain rfl := eq_of_setTask htask'
      refine hkeep task htask (by simp [hpc, TaskPc.UsesEntry]) rfl hentry ?_
      cases ok with
      | true => simp [Task.pendingChunk, hpc]
      | false => exact huses.elim
  | finishTest =>
      obtain ⟨task, e, htask, hpc, he, rfl⟩ := finishTest_spec h
      obtain rfl := eq_of_setTask htask'
      obtain rfl := Option.some.inj (he.symm.trans hentry)
      refine hkeep task htask (by simp [hpc, TaskPc.UsesEntry]) rfl he ?_
      simp [Task.pendingChunk, hpc, hload]
  | finishLoading now ok =>
      obtain ⟨task, e, f, htask, hpc, he, -, hdone, -, -, -, rfl⟩ :=
        finishLoading_spec h
      obtain rfl := eq_of_setTask htask'
      have hfe : f = e' := by
        simpa [setTask, Cache.putEntry] using hentry
      rw [← hfe, hdone] at hload
      cases hload
  | cancelLoading =>
      obtain ⟨task, htask, -, -, ⟨x, e, -, -, -, -, rfl⟩ | ⟨-, rfl⟩⟩ :=
        cancelLoading_spec h
      · obtain rfl := eq_of_setTask htask'
        exact huses.elim
      · obtain rfl := eq_of_setTask htask'
        exact huses.elim

/-- A worker that has set an entry to finished is delivered nothing more. -/
theorem delivered_of_done
    {t t' : ℕ} {a : WorkerStep} (h : s.stepWorker t a = some s') {task : Task}
    (htask : s.tasks t' = some task)
    (hpc : task.pc = .finishNotify ∨ task.pc = .ended) :
    ∃ task', s'.tasks t' = some task' ∧
      (task'.pc = .finishNotify ∨ task'.pc = .ended) ∧
      task'.delivered = task.delivered := by
  by_cases ht : t' = t
  · subst ht
    obtain ⟨u, task', hu, htask', hmove, hdeliv⟩ := stepWorker_move h
    obtain rfl := Option.some.inj (htask.symm.trans hu)
    have hne : task.pc ≠ .performing := by
      rcases hpc with hpc | hpc <;> simp [hpc]
    refine ⟨task', htask', Or.inr ?_, hdeliv hne⟩
    generalize task.pc = pc, task'.pc = pc' at hmove hpc
    rcases hpc with rfl | rfl
    · cases hmove
      rfl
    · cases hmove
  · exact ⟨task, ((stepWorker_frame h).tasks t' ht).trans htask, hpc, rfl⟩

/-- A worker reaches the critical section of an append only through the test
of `is_loading`, and only the sole worker of the entry could finish it in
between. -/
theorem unfinished_of_stepWorker
    (hs : OneWorker s) {t : ℕ} {a : WorkerStep}
    (h : s.stepWorker t a = some s') {t' : ℕ} {task' : Task} {e' : Entry}
    (htask' : s'.tasks t' = some task') (hpc : task'.pc = .appending)
    (he' : s'.cache.entries task'.entry = some e') : e'.isLoading = true := by
  by_cases ht : t' = t
  · subst ht
    obtain ⟨e, he, hload, hcache⟩ := stepWorker_appending h htask' hpc
    rw [hcache, he] at he'
    exact Option.some.inj he' ▸ hload
  · have htask : s.tasks t' = some task' :=
      (stepWorker_frame h).tasks t' ht ▸ htask'
    have hwas : ∀ e, s.cache.entries task'.entry = some e →
        e.isLoading = true := fun e he => hs.unfinished t' task' e htask hpc he
    have hlt := (hs.base.handed t' task' htask
      (by simp [hpc, TaskPc.HasEntry])).1
    cases stepWorker_effect h with
    | kept hcontents =>
        obtain ⟨e, he, -, hsame, -⟩ := hcontents.back _ e' he'
        exact hsame.trans (hwas e he)
    | created task now _ hpc₀ hfree hnone hcache =>
        rw [hcache, Cache.created_entries_of_ne (by omega)] at he'
        exact hwas e' he'
    | appended task e f _ hpc₀ he hkey hsame hdata hcache =>
        rw [hcache] at he'
        by_cases hx : task'.entry = task.entry
        · have hfe : f = e' := by simpa [hx, Cache.putEntry] using he'
          rw [← hfe, hsame]
          exact hwas e (hx ▸ he)
        · exact hwas e' (by simpa [hx, Cache.putEntry] using he')
    | finished task e f htask₀ hpc₀ he hkey hdone hdata hcache =>
        by_cases hx : task'.entry = task.entry
        · have hload := hwas e (hx ▸ he)
          exact absurd (hs.sole t' t task' task e
            ⟨htask, by simp [hpc, TaskPc.UsesEntry], hx ▸ he, hload⟩
            ⟨htask₀, by simp [hpc₀, TaskPc.UsesEntry], he, hload⟩ hx) ht
        · rw [hcache] at he'
          exact hwas e' (by simpa [hx, Cache.putEntry] using he')
    | freed task x e _ hpc₀ hfree hmem he hkey hloading hcache =>
        have hfrees :=
          hs.base.wf.removeEntry_frees (s.cache.bucketOf task.path) x
        rw [hcache] at he'
        exact hwas e' (hfrees.entries_back he').2

/-- A finished entry was filled by one worker that is done. -/
theorem finished_of_stepWorker
    (hs : OneWorker s) {t : ℕ} {a : WorkerStep}
    (h : s.stepWorker t a = some s') {x : ℕ} {e' : Entry}
    (he' : s'.cache.entries x = some e') (hdone : e'.isLoading = false) :
    ∃ t₀ task, s'.tasks t₀ = some task ∧
      (task.pc = .finishNotify ∨ task.pc = .ended) ∧
      e'.data = task.delivered.flatten ∧ ∀ p ∈ s'.appends x, p.1 = t₀ := by
  -- an entry that was finished before
  have hbefore : ∀ e, s.cache.entries x = some e → e.isLoading = false →
      e'.data = e.data → s'.appends x = s.appends x →
      ∃ t₀ task, s'.tasks t₀ = some task ∧
        (task.pc = .finishNotify ∨ task.pc = .ended) ∧
        e'.data = task.delivered.flatten ∧ ∀ p ∈ s'.appends x, p.1 = t₀ := by
    intro e he hload hdata happ
    obtain ⟨t₀, task, htask, hpc, hbytes, hwrite⟩ := hs.finished x e he hload
    obtain ⟨task', htask', hpc', hdeliv⟩ := delivered_of_done h htask hpc
    exact ⟨t₀, task', htask', hpc', by rw [hdata, hbytes, hdeliv],
      by rw [happ]; exact hwrite⟩
  cases stepWorker_effect h with
  | kept hcontents happends =>
      obtain ⟨e, he, -, hsame, hdata⟩ := hcontents.back x e' he'
      exact hbefore e he (hsame ▸ hdone) hdata (by rw [happends])
  | created task now _ hpc hfree hnone hcache happends =>
      rw [hcache] at he'
      by_cases hx : x = s.cache.nextEntry
      · rw [hx, Cache.created_entries_new] at he'
        obtain rfl := Option.some.inj he'
        cases hdone
      · rw [Cache.created_entries_of_ne hx] at he'
        exact hbefore e' he' hdone rfl (by rw [happends])
  | appended task e f htask hpc he hkey hsame hdata hcache happends =>
      rw [hcache] at he'
      by_cases hx : x = task.entry
      · have hfe : f = e' := by simpa [hx, Cache.putEntry] using he'
        have hload := hs.unfinished t task e htask hpc he
        rw [← hfe, hsame, hload] at hdone
        cases hdone
      · exact hbefore e' (by simpa [hx, Cache.putEntry] using he') hdone rfl
          (by rw [happends, Function.update_of_ne hx])
  | finished task e f htask hpc he hkey hload hdata hcache happends =>
      rw [hcache] at he'
      by_cases hx : x = task.entry
      · have hfe : f = e' := by simpa [hx, Cache.putEntry] using he'
        by_cases hwas : e.isLoading = true
        · have hfill : Fills s t task e :=
            ⟨htask, by simp [hpc, TaskPc.UsesEntry], he, hwas⟩
          obtain ⟨hbytes, hwrite⟩ := hs.writer t task e hfill
          have hpend : task.pendingChunk = [] := by
            simp [Task.pendingChunk, hpc]
          obtain ⟨u, task', hu, htask', hmove, hdeliv⟩ := stepWorker_move h
          obtain rfl := Option.some.inj (htask.symm.trans hu)
          have hpc' : task'.pc = .finishNotify := by
            generalize task'.pc = pc' at hmove
            rw [hpc] at hmove
            cases hmove
            rfl
          refine ⟨t, task', htask', Or.inl hpc', ?_, ?_⟩
          · rw [← hfe, hdata, hdeliv (by simp [hpc]), hbytes, hpend,
              List.append_nil]
          · rw [happends, hx]
            exact hwrite
        · exact hbefore e (hx ▸ he) (by simpa using hwas) (hfe ▸ hdata)
            (by rw [happends])
      · exact hbefore e' (by simpa [hx, Cache.putEntry] using he') hdone rfl
          (by rw [happends])
  | freed task y e _ hpc hfree hmem he hkey hload hcache happends =>
      have hfrees :=
        hs.base.wf.removeEntry_frees (s.cache.bucketOf task.path) y
      rw [hcache] at he'
      exact hbefore e' (hfrees.entries_back he').2 hdone rfl (by rw [happends])

theorem of_stepWorker
    (hs : OneWorker s) {t : ℕ} {a : WorkerStep}
    (halone : StartsAlone s (.worker t a))
    (h : s.stepWorker t a = some s') : OneWorker s' := by
  have hframe := stepWorker_frame h
  refine ⟨hs.base.of_stepWorker h, ?_, ?_, ?_, ?_, ?_, ?_⟩
  · -- at most one worker: either both were filling, or one is new
    have hnew : ∀ {t₁ t₂ u₁ u₂ e₁ e₂}, Fills s' t₁ u₁ e₁ → Fills s' t₂ u₂ e₂ →
        u₁.entry = u₂.entry → t₁ = t → t₂ ≠ t → False := by
      rintro t₁ t₂ u₁ u₂ e₁ e₂ h₁ h₂ heq rfl hne
      obtain ⟨f₂, hf₂, -⟩ := hs.other_fills h hne h₂
      rcases (hs.own_fills halone h h₁).2 with hentry | ⟨u, f, hf, hentry⟩
      · have hlt := (hs.base.handed _ _ hf₂.isTask hf₂.uses.hasEntry).1
        omega
      · have he := hf.isEntry
        rw [← hentry, heq, hf₂.isEntry] at he
        obtain rfl := Option.some.inj he
        exact hne (hs.sole _ _ _ _ _ hf₂ hf (heq.symm.trans hentry))
    intro t₁ t₂ u₁ u₂ e h₁ h₂ heq
    by_cases ht₁ : t₁ = t
    · by_cases ht₂ : t₂ = t
      · rw [ht₁, ht₂]
      · exact (hnew h₁ h₂ heq ht₁ ht₂).elim
    · by_cases ht₂ : t₂ = t
      · exact (hnew h₂ h₁ heq.symm ht₂ ht₁).elim
      · obtain ⟨f₁, hf₁, -⟩ := hs.other_fills h ht₁ h₁
        obtain ⟨f₂, hf₂, -⟩ := hs.other_fills h ht₂ h₂
        have he := hf₂.isEntry
        rw [← heq, hf₁.isEntry] at he
        obtain rfl := Option.some.inj he
        exact hs.sole _ _ _ _ _ hf₁ hf₂ heq
  · intro t' task' e' hf
    by_cases ht : t' = t
    · subst ht
      exact (hs.own_fills halone h hf).1
    · obtain ⟨e, hold, hdata, happ⟩ := hs.other_fills h ht hf
      rw [hdata, happ]
      exact hs.writer t' task' e hold
  · exact fun t' task' e' htask' hpc he' =>
      hs.unfinished_of_stepWorker h htask' hpc he'
  · intro t' task' htask' hpc
    by_cases ht : t' = t
    · subst ht
      obtain ⟨task, task₁, htask, htask₁, hmove, hdeliv⟩ := stepWorker_move h
      obtain rfl := Option.some.inj (htask'.symm.trans htask₁)
      have hqueued : task.pc = .queued := by
        generalize task.pc = pc, task'.pc = pc' at hmove hpc
        rcases hpc with rfl | rfl <;> cases hmove
        rfl
      rw [hdeliv (by simp [hqueued])]
      exact hs.undelivered t' task htask (Or.inl hqueued)
    · exact hs.undelivered t' task' (hframe.tasks t' ht ▸ htask') hpc
  · exact fun x e' he' hdone => hs.finished_of_stepWorker h he' hdone
  · intro x p q hp hq
    cases stepWorker_effect h with
    | kept hcontents happends =>
        rw [happends] at hp hq
        exact hs.unmixed x p q hp hq
    | created task now _ hpc hfree hnone hcache happends =>
        rw [happends] at hp hq
        exact hs.unmixed x p q hp hq
    | appended task e f htask hpc he hkey hsame hdata hcache happends =>
        rw [happends] at hp hq
        by_cases hx : x = task.entry
        · obtain ⟨-, hwrite⟩ :=
            hs.writer t task e (hs.fills_of_appending htask hpc he)
          have hall : ∀ p ∈ s.appends task.entry ++ [(t, task.chunk)],
              p.1 = t := by
            intro p hp
            rcases List.mem_append.mp hp with hp | hp
            · exact hwrite p hp
            · rw [List.mem_singleton.mp hp]
          rw [hx, Function.update_self] at hp hq
          rw [hall p hp, hall q hq]
        · rw [Function.update_of_ne hx] at hp hq
          exact hs.unmixed x p q hp hq
    | finished task e f htask hpc he hkey hload hdata hcache happends =>
        rw [happends] at hp hq
        exact hs.unmixed x p q hp hq
    | freed task y e _ hpc hfree hmem he hkey hload hcache happends =>
        rw [happends] at hp hq
        exact hs.unmixed x p q hp hq

theorem of_step
    (hs : OneWorker s) {a : Action} (halone : StartsAlone s a)
    (h : s.step a = some s') : OneWorker s' := by
  cases a with
  | request r a =>
      exact hs.of_quiet (hs.base.of_step h) (hs.base.quiet_of_stepRequest h)
  | worker t a => exact hs.of_stepWorker halone h
  | collector a =>
      exact hs.of_quiet (hs.base.of_step h) (hs.base.quiet_of_stepCollector h)

end OneWorker

/-- As long as no worker is handed an entry that is still loading, a finished
entry holds exactly what curl delivered to one worker. -/
theorem singleFlight_of_startsAlone
    {s : State} (hs : proxy.ReachableUnder StartsAlone s) : SingleFlight s := by
  have hinv : OneWorker s := by
    refine hs.invariant ?_ fun s a s' hs ha hstep => hs.of_step ha hstep
    rintro s ⟨numBuckets, defaultTtl, rfl⟩
    exact .init numBuckets defaultTtl
  refine ⟨fun x e he hdone => ?_, hinv.unmixed⟩
  obtain ⟨t, task, htask, -, hbytes, hwrite⟩ := hinv.finished x e he hdone
  exact ⟨t, task, htask, hbytes, hwrite⟩

/-- A test for `StartsAlone`: the key has no entry, or a finished one. -/
def startsAlone (s : State) : Action → Bool
  | .worker t (.startLoading _ _) =>
      (s.tasks t).all fun task =>
        (s.cache.findEntry task.key).all fun p => !p.2.isLoading
  | _ => true

theorem startsAlone_sound
    (s : State) (a : Action) (h : startsAlone s a = true) :
    StartsAlone s a := by
  rintro t now ok rfl task x e htask hfind
  simpa [startsAlone, htask, hfind] using h

/-- Two clients miss, on two loops, before either of their workers starts. -/
def bothMiss : List Action :=
  [.request 0 (.readClient rootRequest), .request 0 .lookupBegin] ++
    arriveFirst 1 rootRequest ++ [.request 0 (.launchBgw true)]

/-- The second worker starts when the first one has finished, and its first
chunk is refused. -/
def secondLate : List Action :=
  bothMiss ++ beginLoad 0 ++ deliver 0 [1] ++ deliver 0 [2, 3] ++ endLoad 0 ++
    beginLoad 1 ++ [.worker 1 (.writeCallback [1]), .worker 1 .testLoading,
      .worker 1 .cancelLoading]

theorem singleFlight_of_startsAlone_secondLate :
    ∃ s, proxy.runWhile startsAlone (.init 1 100) secondLate = some s ∧
      (s.cache.entries 0).map (fun e => (e.isLoading, e.data)) =
        some (false, [1, 2, 3]) ∧
      SingleFlight s := by
  have hrun : (proxy.runWhile startsAlone (.init 1 100) secondLate).map
      (fun s => (s.cache.entries 0).map fun e => (e.isLoading, e.data)) =
      some (some (false, [1, 2, 3])) := rfl
  obtain ⟨s, hs, hentry⟩ := Option.map_eq_some_iff.mp hrun
  exact ⟨s, hs, hentry, singleFlight_of_startsAlone
    (.runWhile startsAlone_sound (.initial (proxy_initial 1 100)) hs)⟩

/-- Both workers start before one of them has finished. -/
def doubleStart : List Action :=
  bothMiss ++ beginLoad 0 ++ beginLoad 1 ++ deliver 0 [1] ++ deliver 1 [1] ++
    endLoad 0

/-- Both workers append their responses to the one entry. -/
theorem doubleStart_mixes :
    ∃ s, proxy.run (.init 1 100) doubleStart = some s ∧ proxy.Reachable s ∧
      (s.cache.entries 0).map (fun e => (e.isLoading, e.data)) =
        some (false, [1, 1]) ∧
      ¬ SingleFlight s := by
  have hrun : (proxy.run (.init 1 100) doubleStart).map (fun s =>
      (s.appends 0,
        (s.cache.entries 0).map fun e => (e.isLoading, e.data))) =
      some ([(0, [1]), (1, [1])], some (false, [1, 1])) := rfl
  obtain ⟨s, hs, hobs⟩ := Option.map_eq_some_iff.mp hrun
  obtain ⟨happ, hentry⟩ := Prod.mk.inj hobs
  refine ⟨s, hs, .run (.initial (proxy_initial 1 100)) hs, hentry, fun h => ?_⟩
  have hmixed := h.unmixed 0 (0, [1]) (1, [1]) (by simp [happ])
    (by simp [happ])
  cases hmixed

end Streaming
end Proxy
end OsFifthSem
