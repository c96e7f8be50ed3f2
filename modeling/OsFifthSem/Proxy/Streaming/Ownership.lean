import OsFifthSem.Proxy.Streaming.SingleFlight
import OsFifthSem.Proxy.Streaming.Schedules

/-!
# Workers and freed entries

An entry has no reference count.  What protects the entry of a worker is that
`cache_cancel_loading` frees loading entries only, each for the worker that
fills it, and that `cache_clean_expired` passes loading entries.  The first
fails when two workers share an entry, or when the path under which a worker
cancels is the key of somebody else's entry; the second when the entry of a
worker is already finished.
-/

namespace OsFifthSem
namespace Proxy
namespace Streaming

open Support State

/-- The entry of every worker that may still use it is allocated. -/
def EntriesAlive (s : State) : Prop :=
  ∀ t task, s.tasks t = some task → task.pc.UsesEntry →
    s.cache.entries task.entry ≠ none

/-- The branches on which an entry loses its protection are not taken. -/
structure Protected (s : State) (a : Action) : Prop where
  /-- `cache_start_loading` hands out no entry that is still loading. -/
  alone : StartsAlone s a
  /-- `cache_cancel_loading` finds under `path` no loading entry but the
  worker's own. -/
  own : ∀ t, a = .worker t .cancelLoading → ∀ task x e,
    s.tasks t = some task → s.cache.findEntry task.path = some (x, e) →
      e.isLoading = true → x = task.entry
  /-- `cache_clean_expired` comes early: when it meets a finished entry that a
  worker still announces, or got although it was finished, the time to live has
  not passed since the last access. -/
  early : a = .collector .entry → ∀ g x rest, s.gc = some g →
    g.rest = x :: rest → ∀ t task e, s.tasks t = some task →
      task.pc.UsesEntry → task.entry = x → s.cache.entries x = some e →
        e.isLoading = false → e.expired s.cache.defaultTtl g.now = false

/-- The invariant: a loading entry is in the hands of at most one worker,
even after the worker has failed. -/
structure HeldAlone (s : State) : Prop where
  base : Consistent s
  alive : EntriesAlive s
  sole : ∀ t t' task task' e, s.tasks t = some task →
    s.tasks t' = some task' → task.pc.HasEntry → task'.pc.HasEntry →
      task.entry = task'.entry → s.cache.entries task.entry = some e →
        e.isLoading = true → t = t'

namespace HeldAlone

variable {s s' : State}

theorem init (numBuckets : ℕ) (defaultTtl : ℤ) :
    HeldAlone (.init numBuckets defaultTtl) where
  base := .init numBuckets defaultTtl
  alive := by simp [EntriesAlive, State.init]
  sole := by simp [State.init]

/-- Steps that do not touch the workers, and free no entry in use. -/
theorem of_quiet
    (hs : HeldAlone s) (hbase : Consistent s') (hq : Consistent.Quiet s s')
    (hkept : ∀ t task, s.tasks t = some task → task.pc.UsesEntry →
      s'.cache.entries task.entry ≠ none) : HeldAlone s' := by
  have hback : ∀ t task', s'.tasks t = some task' → task'.pc.HasEntry →
      ∃ task, s.tasks t = some task ∧ task'.pc = task.pc ∧
        task'.entry = task.entry := by
    intro t task' htask' hpc
    rcases hq.tasks t task' htask' with ⟨task, htask, heq⟩ | ⟨x, key, rfl⟩
    · exact ⟨task, htask, by rw [heq], by rw [heq]⟩
    · exact hpc.elim
  refine ⟨hbase, ?_, ?_⟩
  · intro t task' htask' huses
    obtain ⟨task, htask, hpc, hentry⟩ :=
      hback t task' htask' huses.hasEntry
    rw [hentry]
    exact hkept t task htask (hpc ▸ huses)
  · intro t t' u u' e htask htask' hhas hhas' hsame he hload
    obtain ⟨v, hv, hpc, hentry⟩ := hback t u htask hhas
    obtain ⟨v', hv', hpc', hentry'⟩ := hback t' u' htask' hhas'
    obtain ⟨f, hf, -, hfload, -⟩ := hq.entries _ e he
    exact hs.sole t t' v v' f hv hv' (hpc ▸ hhas) (hpc' ▸ hhas')
      (hentry ▸ hentry' ▸ hsame) (hentry ▸ hf) (hfload ▸ hload)

/-- What the worker of a step holds afterwards it held before, or it is an
entry that no other worker holds or that is finished. -/
theorem held_of_stepWorker
    {t : ℕ} {a : WorkerStep}
    (halone : StartsAlone s (.worker t a)) (h : s.stepWorker t a = some s')
    {task' : Task} (htask' : s'.tasks t = some task')
    (hhas : task'.pc.HasEntry) :
    (∃ task, s.tasks t = some task ∧ task.pc.HasEntry ∧
      task'.entry = task.entry ∧ (task'.pc.UsesEntry → task.pc.UsesEntry)) ∨
    (∃ e, s'.cache.entries task'.entry = some e ∧ e.isLoading = false) ∨
    (task'.entry = s.cache.nextEntry ∧
      s'.cache.entries task'.entry ≠ none) := by
  obtain ⟨task, task₁, htask, htask₁, -, -, -, hcase⟩ := stepWorker_task h
  obtain rfl := Option.some.inj (htask'.symm.trans htask₁)
  obtain ⟨u, u', hu, hu', hmove, -⟩ := stepWorker_move h
  obtain rfl := Option.some.inj (htask.symm.trans hu)
  obtain rfl := Option.some.inj (htask'.symm.trans hu')
  rcases hcase with ⟨hentry, hpc⟩ | ⟨hpc, -, ⟨e, hfind, hcache⟩ |
    ⟨now, hentry, hnone, hcache⟩⟩
  · refine Or.inl ⟨task, htask, hpc hhas, hentry, fun huses => ?_⟩
    have hhad := hpc hhas
    generalize task.pc = pc, task'.pc = pc' at hmove hhad huses
    cases hmove <;> first | exact hhad | exact huses.elim
  · obtain ⟨now, ok, rfl⟩ := stepWorker_of_queued h htask hpc
    refine Or.inr (Or.inl ⟨e, ?_, ?_⟩)
    · rw [hcache]
      exact (Cache.findEntry_eq_some hfind).2.1
    · exact halone t now ok rfl task _ e htask hfind
  · refine Or.inr (Or.inr ⟨hentry, ?_⟩)
    rw [hcache, hentry, Cache.created_entries_new]
    simp

/-- A step of worker `t` frees no entry that another worker uses. -/
theorem alive_of_stepWorker
    (hs : HeldAlone s) {t : ℕ} {a : WorkerStep}
    (hprot : Protected s (.worker t a)) (h : s.stepWorker t a = some s')
    {t' : ℕ} {task : Task} (htask : s.tasks t' = some task)
    (huses : task.pc.UsesEntry) (hkeep : t' = t → a ≠ .cancelLoading) :
    s'.cache.entries task.entry ≠ none := by
  obtain ⟨e, he⟩ := Option.ne_none_iff_exists'.mp (hs.alive t' task htask huses)
  have hput : ∀ {y : ℕ} {f : Entry},
      (s.cache.putEntry y f).entries task.entry ≠ none := by
    intro y f
    by_cases hy : task.entry = y
    · simp [Cache.putEntry, hy]
    · simp [Cache.putEntry, hy, he]
  cases stepWorker_effect h with
  | kept hcontents =>
      obtain ⟨e', he', -⟩ := hcontents.forth _ e he
      simp [he']
  | created u now _ hpc hfree hnone hcache =>
      rw [hcache, hs.base.wf.created_entries he]
      simp
  | appended u f f' _ hpc hf hkey hload hdata hcache =>
      rw [hcache]
      exact hput
  | finished u f f' _ hpc hf hkey hload hdata hcache =>
      rw [hcache]
      exact hput
  | freed u y f hu hpc hfree hmem hf hkey hload hcache =>
      obtain rfl := stepWorker_of_failing h hu hpc
      have hy : y = u.entry := hprot.own t rfl u y f hu
        (hs.base.wf.findEntry_eq_some_iff.mpr ⟨⟨_, hmem⟩, hf, hkey⟩) hload
      have hne : task.entry ≠ y := by
        intro heq
        refine hkeep ?_ rfl
        exact hs.sole t' t task u f htask hu
          huses.hasEntry (by simp [hpc, TaskPc.HasEntry])
          (heq.trans hy) (heq ▸ hf) hload
      rw [hcache, (hs.base.wf.removeEntry_frees _ y).entries_of_ne hne, he]
      simp

theorem of_stepWorker
    (hs : HeldAlone s) {t : ℕ} {a : WorkerStep}
    (hprot : Protected s (.worker t a)) (h : s.stepWorker t a = some s') :
    HeldAlone s' := by
  have hframe := stepWorker_frame h
  have heff := stepWorker_effect h
  have hheld : ∀ {task'}, s'.tasks t = some task' → task'.pc.HasEntry → _ :=
    fun htask' hhas => held_of_stepWorker hprot.alone h htask' hhas
  refine ⟨hs.base.of_stepWorker h, ?_, ?_⟩
  · intro t' task' htask' huses
    by_cases ht : t' = t
    · subst ht
      rcases hheld htask' huses.hasEntry with
        ⟨task, htask, -, hentry, hused⟩ | ⟨e, he, -⟩ | ⟨-, he⟩
      · rw [hentry]
        refine hs.alive_of_stepWorker hprot h htask (hused huses) ?_
        rintro - rfl
        obtain ⟨u, hu, -, -, ⟨x, e, -, -, -, -, rfl⟩ | ⟨-, rfl⟩⟩ :=
          cancelLoading_spec h
        · simp [setTask] at htask'
          simp [← htask', TaskPc.UsesEntry] at huses
        · simp [setTask] at htask'
          simp [← htask', TaskPc.UsesEntry] at huses
      · simp [he]
      · exact he
    · exact hs.alive_of_stepWorker hprot h (hframe.tasks t' ht ▸ htask') huses
        fun heq => absurd heq ht
  · -- two workers: either both held the entry before, or one is new to it
    have hload : ∀ {x e'}, s'.cache.entries x = some e' →
        e'.isLoading = true → x < s.cache.nextEntry →
        ∃ e, s.cache.entries x = some e ∧ e.isLoading = true := by
      intro x e' he' hloading hlt
      rcases hs.base.effect_entries heff he' with
        ⟨e, he, -, -, hwas⟩ | ⟨heq, -⟩
      · exact ⟨e, he, hwas hloading⟩
      · omega
    have hnew : ∀ {t' u u' e}, s'.tasks t = some u → s'.tasks t' = some u' →
        u.pc.HasEntry → u'.pc.HasEntry → u.entry = u'.entry →
        s'.cache.entries u.entry = some e → e.isLoading = true → t' ≠ t →
        False := by
      intro t' u u' e hu hu' hhas hhas' hsame he hloading hne
      have hold : s.tasks t' = some u' := hframe.tasks t' hne ▸ hu'
      have hlt := (hs.base.handed t' u' hold hhas').1
      rcases hheld hu hhas with
        ⟨v, hv, hvhas, hentry, -⟩ | ⟨e₁, he₁, hdone⟩ | ⟨hentry, -⟩
      · obtain ⟨f, hf, hfload⟩ := hload he hloading (hsame ▸ hlt)
        exact hne (hs.sole t' t u' v f hold hv hhas' hvhas
          (hsame.symm.trans hentry) (hsame ▸ hf) hfload)
      · obtain rfl := Option.some.inj (he.symm.trans he₁)
        rw [hdone] at hloading
        cases hloading
      · omega
    intro t₁ t₂ u₁ u₂ e h₁ h₂ hhas₁ hhas₂ hsame he hloading
    by_cases ht₁ : t₁ = t
    · by_cases ht₂ : t₂ = t
      · rw [ht₁, ht₂]
      · exact (hnew (ht₁ ▸ h₁) h₂ hhas₁ hhas₂ hsame he hloading ht₂).elim
    · by_cases ht₂ : t₂ = t
      · exact (hnew (ht₂ ▸ h₂) h₁ hhas₂ hhas₁ hsame.symm (hsame ▸ he) hloading
          ht₁).elim
      · have hold₁ : s.tasks t₁ = some u₁ := hframe.tasks t₁ ht₁ ▸ h₁
        have hold₂ : s.tasks t₂ = some u₂ := hframe.tasks t₂ ht₂ ▸ h₂
        obtain ⟨f, hf, hfload⟩ := hload he hloading
          (hs.base.handed t₁ u₁ hold₁ hhas₁).1
        exact hs.sole t₁ t₂ u₁ u₂ f hold₁ hold₂ hhas₁ hhas₂ hsame hf hfload

theorem of_step
    (hs : HeldAlone s) {a : Action} (hprot : Protected s a)
    (h : s.step a = some s') : HeldAlone s' := by
  cases a with
  | request r a =>
      refine hs.of_quiet (hs.base.of_step h) (hs.base.quiet_of_stepRequest h)
        fun t task htask huses => ?_
      obtain ⟨e, he⟩ := Option.ne_none_iff_exists'.mp
        (hs.alive t task htask huses)
      obtain ⟨e', he', -⟩ := (stepRequest_frame h).contents.forth _ e he
      simp [he']
  | worker t a => exact hs.of_stepWorker hprot h
  | collector a =>
      refine hs.of_quiet (hs.base.of_step h) (hs.base.quiet_of_stepCollector h)
        fun t task htask huses => ?_
      have halive := hs.alive t task htask huses
      rcases Consistent.stepCollector_cases h with
        heq | ⟨g, x, rest, e, rfl, hg, hrest, he, hdone, hexp, -, heq⟩
      · rwa [heq]
      · have hne : task.entry ≠ x := by
          intro hx
          have hyoung := hprot.early rfl g x rest hg hrest t task e htask huses
            hx he hdone
          rw [hexp] at hyoung
          cases hyoung
        rwa [heq, (hs.base.collected_frees hg hrest e).2.entries_of_ne hne]

end HeldAlone

/-- As long as no entry loses its protection, no entry in the hands of a
worker is freed. -/
theorem entriesAlive_of_protected
    {s : State} (hs : proxy.ReachableUnder Protected s) : EntriesAlive s := by
  have hinv : HeldAlone s := by
    refine hs.invariant ?_ fun s a s' hs ha hstep => hs.of_step ha hstep
    rintro s ⟨numBuckets, defaultTtl, rfl⟩
    exact .init numBuckets defaultTtl
  exact hinv.alive

/-- A sufficient test for `Protected` in a system of `n` clients: the collector
meets entries only while no worker has one. -/
def protects (n : ℕ) (s : State) : Action → Bool
  | .worker t (.startLoading now ok) =>
      startsAlone s (.worker t (.startLoading now ok))
  | .worker t .cancelLoading =>
      (s.tasks t).all fun task => (s.cache.findEntry task.path).all fun p =>
        !p.2.isLoading || p.1 == task.entry
  | .collector .entry =>
      (List.range n).all fun t =>
        (s.tasks t).all fun task => decide ¬ task.pc.UsesEntry
  | _ => true

theorem protects_sound
    (n : ℕ) (s : State) (a : Action) (hs : s.Below n)
    (h : protects n s a = true) : Protected s a := by
  refine ⟨?_, ?_, ?_⟩
  · rintro t now ok rfl
    exact startsAlone_sound s (.worker t (.startLoading now ok)) h
      t now ok rfl
  · rintro t rfl task x e htask hfind hload
    simpa [protects, htask, hfind, hload] using h
  · rintro rfl g x rest - - t task e htask huses - - -
    have hall : ∀ t < n, (s.tasks t).all
        (fun task => decide ¬ task.pc.UsesEntry) = true := by
      simpa [protects] using h
    have hnot := hall t (hs.lt_of_task htask)
    rw [htask] at hnot
    exact absurd huses (of_decide_eq_true hnot)

/-- One pass of the collector over bucket `b`, which holds `n` entries. -/
def collect (b : ℕ) (now : ℤ) (n : ℕ) : List Action :=
  [.collector (.begin b now)] ++ List.replicate n (.collector .entry) ++
    [.collector .finish]

/-- `GET /p` without a referer. -/
def pageRequest : HttpReq := ⟨[47, 112], []⟩

/-- `GET /p` with the referer `r`. -/
def pageRequestFromR : HttpReq := ⟨[47, 112], [⟨refererName, [114]⟩]⟩

/-- One load fails and is cancelled, another one of the same key succeeds, and
its entry expires. -/
def failedThenExpired : List Action :=
  arriveFirst 0 pageRequest ++ beginLoad 0 ++ deliver 0 [1] ++ failLoad 0 ++
    arriveFirst 1 pageRequest ++ beginLoad 1 ++ deliver 1 [1] ++ endLoad 1 ++
    collect 0 1000 1

theorem entriesAlive_of_protected_failedThenExpired :
    ∃ s, proxy.runWhile (fun s a => a.within 2 && protects 2 s a)
      (.init 1 100) failedThenExpired = some s ∧
      s.cache.chain 0 = [] ∧ EntriesAlive s := by
  have hrun : (proxy.runWhile (fun s a => a.within 2 && protects 2 s a)
      (.init 1 100) failedThenExpired).map (fun s => s.cache.chain 0) =
      some [] := rfl
  obtain ⟨s, hs, hobs⟩ := Option.map_eq_some_iff.mp hrun
  exact ⟨s, hs, hobs, entriesAlive_of_protected
    (reachableUnder_of_runWhile (protects_sound 2) hs)⟩

/-- Two workers load the same page for clients with different referers, so
into two entries.  The second load fails while the first worker is about to
append a chunk. -/
def cancelledByPath : List Action :=
  arriveFirst 0 pageRequest ++ arriveFirst 1 pageRequestFromR ++
    beginLoad 0 ++ beginLoad 1 ++
    [.worker 0 (.writeCallback [1]), .worker 0 .testLoading] ++ failLoad 1

/-- The second worker has freed the entry of the first one, which is about to
write to it, and not its own. -/
theorem cancelledByPath_frees :
    ∃ s, proxy.run (.init 1 100) cancelledByPath = some s ∧
      proxy.Reachable s ∧
      (s.tasks 0).map (fun task => (task.pc, task.entry)) =
        some (.appending, 0) ∧
      (s.cache.entries 0).isNone ∧ (s.cache.entries 1).isSome ∧
      ¬ EntriesAlive s := by
  have hrun : (proxy.run (.init 1 100) cancelledByPath).map (fun s =>
      ((s.tasks 0).map fun task => (task.pc, task.entry),
        (s.cache.entries 0).isNone, (s.cache.entries 1).isSome)) =
      some (some (.appending, 0), true, true) := rfl
  obtain ⟨s, hs, hobs⟩ := Option.map_eq_some_iff.mp hrun
  obtain ⟨htask, hrest⟩ := Prod.mk.inj hobs
  obtain ⟨hnone, hsome⟩ := Prod.mk.inj hrest
  refine ⟨s, hs, .run (.initial (proxy_initial 1 100)) hs, htask, hnone, hsome,
    fun halive => ?_⟩
  obtain ⟨task, ht, hat⟩ := Option.map_eq_some_iff.mp htask
  obtain ⟨hpc, hentry⟩ := Prod.mk.inj hat
  refine halive 0 task ht (by simp [hpc, TaskPc.UsesEntry]) ?_
  rw [hentry]
  exact Option.isNone_iff_eq_none.mp hnone

end Streaming
end Proxy
end OsFifthSem
