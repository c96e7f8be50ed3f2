import OsFifthSem.Proxy.Cache.Forget
import OsFifthSem.Proxy.Streaming.Consistent

/-!
# The other clients of a client that disconnects

A client that fails its write unregisters its handle and, if its request
launched the worker, sets the worker's `should_stop`.  The flag aborts the
transfer at the next call of `write_callback`, and with it the load of every
client that streams the same entry.  And where the unregistering misses the
handle, the next notification of the entry meets the request after
`on_async_close` has freed it.  Until one of the two happens the others go on
as if the client were still there and merely slow.
-/

namespace OsFifthSem
namespace Proxy
namespace Streaming

open Support State

/-- The task without the stop flag, if it is that of client `r`. -/
def Task.unstop (r t : ℕ) (task : Task) : Task :=
  { task with shouldStop := if t = r then false else task.shouldStop }

/-- What there is apart from client `r`: not its request, nor its handle among
the waiters, nor the stop flag of its worker. -/
def State.without (s : State) (r : ℕ) : State :=
  { s with
    cache := s.cache.forget r
    reqs := Function.update s.reqs r none
    tasks := fun t => (s.tasks t).map (Task.unstop r t) }

/-- The step is not one of client `r`. -/
def Action.others (r : ℕ) : Action → Bool
  | .request r' _ => decide (r' ≠ r)
  | _ => true

/-- `write_callback` does not run in the worker of client `r` while its
`should_stop` is set. -/
def NotAborted (r : ℕ) (s : State) (a : Action) : Prop :=
  ∀ chunk, a = .worker r (.writeCallback chunk) →
    ∀ task, s.tasks r = some task → task.shouldStop = false

/-- `notify_waiting_clients` does not run on an entry that lists the handle of
client `r` after the request of `r` was freed. -/
def NotDangling (r : ℕ) (s : State) (a : Action) : Prop :=
  ∀ t, a = .worker t .notifyWaitingClients → ∀ task e,
    s.tasks t = some task → s.cache.entries task.entry = some e →
      r ∈ e.waitingClients → (s.reqs r).map WriteReq.pc ≠ some .freed

namespace State

variable {s : State} {r : ℕ}

/-! ## Steps of the others -/

theorem without_setReq_of_ne
    {r' : ℕ} (hne : r' ≠ r) (s : State) (w : WriteReq) :
    (s.setReq r' w).without r = (s.without r).setReq r' w := by
  simp only [without, setReq, Function.update_comm hne]

theorem without_setReq_self (s : State) (r : ℕ) (w : WriteReq) :
    (s.setReq r w).without r = s.without r := by
  simp only [without, setReq, Function.update_idem]

theorem without_setCache (s : State) (c : Cache) :
    State.without { s with cache := c } r =
      { s.without r with cache := c.forget r } := rfl

theorem without_setTask (s : State) (t : ℕ) (task : Task) :
    (s.setTask t task).without r =
      (s.without r).setTask t (task.unstop r t) := by
  have htasks : (fun x => (Function.update s.tasks t (some task) x).map
      (Task.unstop r x)) = Function.update
        (fun x => (s.tasks x).map (Task.unstop r x)) t
          (some (task.unstop r t)) := by
    funext x
    by_cases hx : x = t
    · simp [hx]
    · simp [hx]
  simp only [without, setTask, htasks]

theorem without_reqs_of_ne {r' : ℕ} (hne : r' ≠ r) :
    (s.without r).reqs r' = s.reqs r' :=
  Function.update_of_ne hne _ _

/-- A step that looks at the request of another client. -/
theorem without_guardedReq
    {r' : ℕ} (hne : r' ≠ r) {P P' : WriteReq → Prop} {_ : DecidablePred P}
    {_ : DecidablePred P'} {f f' : WriteReq → Option State}
    (hP : ∀ w, P' w ↔ P w)
    (hf : ∀ w, P w → f' w = (f w).map fun s => s.without r) :
    (((s.without r).reqs r').bind fun w => if P' w then f' w else none) =
      ((s.reqs r').bind fun w => if P w then f w else none).map
        fun s => s.without r := by
  rw [without_reqs_of_ne hne]
  cases s.reqs r' with
  | none => rfl
  | some w =>
      simp only [Option.bind_some]
      by_cases hguard : P w
      · rw [if_pos hguard, if_pos ((hP w).mpr hguard), hf w hguard]
      · rw [if_neg hguard, if_neg (mt (hP w).mp hguard)]
        rfl

/-- A step that looks at a worker, whose stop flag is hidden if it belongs to
client `r`. -/
theorem without_guardedTask
    {t : ℕ} {P P' : Task → Prop} {_ : DecidablePred P} {_ : DecidablePred P'}
    {f f' : Task → Option State} (hP : ∀ task, P' (task.unstop r t) ↔ P task)
    (hf : ∀ task, s.tasks t = some task → P task →
      f' (task.unstop r t) = (f task).map fun s => s.without r) :
    (((s.without r).tasks t).bind fun task =>
      if P' task then f' task else none) =
      ((s.tasks t).bind fun task => if P task then f task else none).map
        fun s => s.without r := by
  change ((s.tasks t).map (Task.unstop r t)).bind _ = _
  cases htask : s.tasks t with
  | none => rfl
  | some task =>
      simp only [Option.map_some, Option.bind_some]
      by_cases hguard : P task
      · rw [if_pos hguard, if_pos ((hP task).mpr hguard), hf task htask hguard]
      · rw [if_neg hguard, if_neg (mt (hP task).mp hguard)]
        rfl

/-- A step that looks at an entry, whose waiters do not matter. -/
theorem without_entry
    {x : ℕ} {f f' : Entry → Option State}
    (hf : ∀ e, s.cache.entries x = some e →
      f' (e.forget r) = (f e).map fun s => s.without r) :
    ((s.without r).cache.entries x).bind f' =
      ((s.cache.entries x).bind f).map fun s => s.without r := by
  change ((s.cache.entries x).map (Entry.forget r)).bind f' = _
  cases he : s.cache.entries x with
  | none => rfl
  | some e => exact hf e he

theorem without_entry_map
    {x : ℕ} {f f' : Entry → State}
    (hf : ∀ e, f' (e.forget r) = (f e).without r) :
    ((s.without r).cache.entries x).map f' =
      ((s.cache.entries x).map f).map fun s => s.without r := by
  change ((s.cache.entries x).map (Entry.forget r)).map f' = _
  cases s.cache.entries x with
  | none => rfl
  | some e => exact congrArg some (hf e)

theorem without_readClient {r' : ℕ} (hne : r' ≠ r) (x : HttpReq) :
    (s.without r).readClient r' x =
      (s.readClient r' x).map fun s => s.without r := by
  unfold readClient
  rw [without_reqs_of_ne hne]
  split
  · cases x.cacheKey with
    | none => rfl
    | some key => exact congrArg some (without_setReq_of_ne hne s _).symm
  · rfl

theorem without_lookupBegin {r' : ℕ} (hne : r' ≠ r) :
    (s.without r).lookupBegin r' =
      (s.lookupBegin r').map fun s => s.without r := by
  refine without_guardedReq hne (fun _ => Iff.rfl) fun w _ => ?_
  have hfind : (s.without r).cache.findEntry w.key = _ :=
    s.cache.forget_findEntry w.key
  rw [hfind]
  cases s.cache.findEntry w.key with
  | none =>
      refine congrArg some (Eq.symm ?_)
      exact without_setReq_of_ne hne _ _
  | some p =>
      refine congrArg some (Eq.symm ?_)
      exact without_setReq_of_ne hne _ _

theorem without_lookedUp (w : WriteReq) (e : Entry) (now : ℤ) :
    (s.without r).lookedUp w (e.forget r) now =
      (s.lookedUp w e now).forget r := by
  unfold lookedUp
  simp only [Entry.forget_data, Entry.forget_touch]
  split
  · exact congrArg (fun c : Cache => { c with hits := s.cache.hits + 1 })
      (s.cache.forget_putEntry _ _).symm
  · rfl

theorem without_lookupEnd
    {r' : ℕ} (hne : r' ≠ r) (now : ℤ) (accepted : Bool) :
    (s.without r).lookupEnd r' now accepted =
      (s.lookupEnd r' now accepted).map fun s => s.without r := by
  refine without_guardedReq hne (fun _ => Iff.rfl) fun w _ => ?_
  refine without_entry_map fun e => Eq.symm ?_
  refine (without_setReq_of_ne hne _ _).trans ?_
  exact congrArg (fun c => (({ s.without r with cache := c } :
    State).setLock _ none).setReq r' _) (without_lookedUp w e now).symm

theorem without_launchBgw {r' : ℕ} (hne : r' ≠ r) (ok : Bool) :
    (s.without r).launchBgw r' ok =
      (s.launchBgw r' ok).map fun s => s.without r := by
  refine without_guardedReq hne (fun _ => Iff.rfl) fun w _ => ?_
  cases ok with
  | true =>
      refine congrArg some (Eq.symm ?_)
      refine (without_setReq_of_ne hne _ _).trans ?_
      rw [without_setTask]
      simp [Task.unstop, Task.launched]
  | false => exact congrArg some (without_setReq_of_ne hne s _).symm

theorem without_registerWaiter {r' : ℕ} (hne : r' ≠ r) (ok : Bool) :
    (s.without r).registerWaiter r' ok =
      (s.registerWaiter r' ok).map fun s => s.without r := by
  refine without_guardedReq hne (fun _ => Iff.rfl) fun w _ => ?_
  refine congrArg some (Eq.symm ?_)
  refine (without_setReq_of_ne hne _ _).trans ?_
  rw [without_setCache, Cache.forget_registerWaiter _ hne]
  rfl

theorem without_unregisterWaiter {r' : ℕ} (hne : r' ≠ r) :
    (s.without r).unregisterWaiter r' =
      (s.unregisterWaiter r').map fun s => s.without r := by
  refine without_guardedReq hne (fun _ => Iff.rfl) fun w _ => ?_
  refine congrArg some (Eq.symm ?_)
  refine (without_setReq_of_ne hne _ _).trans ?_
  rw [without_setCache, Cache.forget_unregisterWaiter _ hne]
  rfl

theorem without_cancelBgw {r' : ℕ} (hne : r' ≠ r) :
    (s.without r).cancelBgw r' =
      (s.cancelBgw r').map fun s => s.without r := by
  refine without_guardedReq hne (fun _ => Iff.rfl) fun w _ => ?_
  cases hlaunched : w.launched with
  | false => exact congrArg some (without_setReq_of_ne hne s _).symm
  | true =>
      -- the flag that is set is not that of client `r`
      have htasks : (fun x => (Function.update s.tasks r'
          ((s.tasks r').map fun t => { t with shouldStop := true }) x).map
            (Task.unstop r x)) =
          Function.update (fun x => (s.tasks x).map (Task.unstop r x)) r'
            (((s.tasks r').map (Task.unstop r r')).map
              fun t => { t with shouldStop := true }) := by
        funext x
        by_cases hx : x = r'
        · subst hx
          cases s.tasks x <;> simp [Task.unstop, hne]
        · simp [hx]
      simp only [without, setReq, htasks, Function.update_comm hne, if_true,
        Option.map_some]

theorem without_stepRequest
    {r' : ℕ} (hne : r' ≠ r) (a : ReqStep) :
    (s.without r).stepRequest r' a =
      (s.stepRequest r' a).map fun s => s.without r := by
  cases a with
  | readClient x => exact without_readClient hne x
  | lookupBegin => exact without_lookupBegin hne
  | lookupEnd now accepted => exact without_lookupEnd hne now accepted
  | launchBgw ok => exact without_launchBgw hne ok
  | registerWaiter ok => exact without_registerWaiter hne ok
  | onDataReady =>
      exact without_guardedReq hne (fun _ => Iff.rfl) fun w _ =>
        congrArg some (without_setReq_of_ne hne s _).symm
  | onWritten ok =>
      exact without_guardedReq hne (fun _ => Iff.rfl) fun w _ =>
        congrArg some (without_setReq_of_ne hne s _).symm
  | unregisterWaiter => exact without_unregisterWaiter hne
  | cancelBgw => exact without_cancelBgw hne
  | onAsyncClose =>
      exact without_guardedReq hne (fun _ => Iff.rfl) fun w _ =>
        congrArg some (without_setReq_of_ne hne s _).symm

/-! ## Steps of workers and of the collector -/

theorem without_startLoading (t : ℕ) (now : ℤ) (ok : Bool) :
    (s.without r).startLoading t now ok =
      (s.startLoading t now ok).map fun s => s.without r := by
  refine without_guardedTask (fun _ => Iff.rfl) fun task _ _ => ?_
  have hstart : (s.without r).cache.startLoading (task.unstop r t).key now ok =
      _ := s.cache.forget_startLoading task.key now ok
  simp only [hstart]
  cases s.cache.startLoading task.key now ok with
  | mk entry cache =>
      cases entry with
      | none =>
          refine congrArg some (Eq.symm ?_)
          exact without_setTask _ _ _
      | some a =>
          refine congrArg some (Eq.symm ?_)
          exact without_setTask _ _ _

theorem without_writeCallback
    (t : ℕ) (chunk : List UInt8)
    (hstop : t = r → ∀ task, s.tasks r = some task → task.shouldStop = false) :
    (s.without r).writeCallback t chunk =
      (s.writeCallback t chunk).map fun s => s.without r := by
  refine without_guardedTask (fun _ => Iff.rfl) fun task htask _ => ?_
  have hsame : (task.unstop r t).shouldStop = task.shouldStop := by
    by_cases ht : t = r
    · subst ht
      rw [hstop rfl task htask]
      simp [Task.unstop]
    · simp [Task.unstop, ht]
  refine congrArg some (Eq.symm ?_)
  refine (without_setTask _ _ _).trans (congrArg ((s.without r).setTask t) ?_)
  dsimp only
  by_cases hs : task.shouldStop = true
  · rw [if_pos hs, if_pos (hsame.trans hs)]
    rfl
  · rw [if_neg hs, if_neg (hsame ▸ hs)]
    rfl

theorem without_testLoading (t : ℕ) :
    (s.without r).testLoading t =
      (s.testLoading t).map fun s => s.without r := by
  refine without_guardedTask (fun _ => Iff.rfl) fun task _ _ => ?_
  refine without_entry_map fun e => Eq.symm ?_
  refine (without_setTask _ _ _).trans (congrArg ((s.without r).setTask t) ?_)
  rw [Entry.forget_isLoading]
  split
  · rfl
  · rfl

theorem without_appendData (t : ℕ) (now : ℤ) (ok : Bool) :
    (s.without r).appendData t now ok =
      (s.appendData t now ok).map fun s => s.without r := by
  refine without_guardedTask (fun _ => Iff.rfl) fun task _ _ => ?_
  refine without_entry fun e _ => ?_
  have happ : (e.forget r).appendData (task.unstop r t).chunk now ok = _ :=
    e.forget_appendData r task.chunk now ok
  rw [happ]
  cases e.appendData task.chunk now ok with
  | none => rfl
  | some p =>
      refine congrArg some (Eq.symm ?_)
      have hput := s.cache.forget_putEntry (r := r) task.entry p.2
      dsimp only
      split
      · refine (without_setTask _ _ _).trans ?_
        exact congrArg (fun c => State.setTask { s.without r with
          cache := c, appends := _ } t _) hput
      · refine (without_setTask _ _ _).trans ?_
        exact congrArg (fun c => State.setTask { s.without r with
          cache := c } t _) hput

/-- The handle of client `r` does not matter as long as it is there. -/
theorem without_handlesAlive
    {e : Entry} (hmine : r ∈ e.waitingClients →
      (s.reqs r).map WriteReq.pc ≠ some .freed) :
    (s.without r).HandlesAlive (e.forget r) ↔ s.HandlesAlive e := by
  constructor
  · intro halive r' hr'
    by_cases hr : r' = r
    · exact hr ▸ hmine (hr ▸ hr')
    · rw [← without_reqs_of_ne hr]
      exact halive r' (by simp [Entry.forget, hr, hr'])
  · intro halive r' hr'
    obtain ⟨hmem, hr⟩ : r' ∈ e.waitingClients ∧ r' ≠ r := by
      simpa [Entry.forget] using hr'
    rw [without_reqs_of_ne hr]
    exact halive r' hmem

theorem without_notifyWaitingClients
    (t : ℕ) (hlisted : NotDangling r s (.worker t .notifyWaitingClients)) :
    (s.without r).notifyWaitingClients t =
      (s.notifyWaitingClients t).map fun s => s.without r := by
  refine without_guardedTask (fun _ => Iff.rfl) fun task htask _ => ?_
  refine without_entry fun e he => ?_
  have halive := without_handlesAlive (hlisted t rfl task e htask he)
  by_cases hguard : s.HandlesAlive e
  swap
  · rw [if_neg hguard, if_neg (mt halive.mp hguard)]
    rfl
  rw [if_pos hguard, if_pos (halive.mpr hguard)]
  refine congrArg some (Eq.symm ?_)
  refine (without_setTask _ _ _).trans ?_
  refine congrArg (fun reqs => State.setTask { s.without r with reqs := reqs }
    t _) ?_
  -- the others are notified as if client `r` did not wait
  funext r'
  by_cases hr : r' = r
  · subst hr
    simp [without]
  · simp [without, hr, Entry.forget]

theorem without_finishLoading (t : ℕ) (now : ℤ) (ok : Bool) :
    (s.without r).finishLoading t now ok =
      (s.finishLoading t now ok).map fun s => s.without r := by
  refine without_guardedTask (fun _ => Iff.rfl) fun task _ _ => ?_
  refine without_entry fun e _ => ?_
  rw [Entry.forget_finishLoading]
  cases e.finishLoading now ok with
  | none => rfl
  | some e' =>
      refine congrArg some (Eq.symm ?_)
      refine (without_setTask _ _ _).trans ?_
      exact congrArg (fun c => State.setTask { s.without r with cache := c } t _)
        (s.cache.forget_putEntry task.entry e')

theorem without_cancelLoading (t : ℕ) :
    (s.without r).cancelLoading t =
      (s.cancelLoading t).map fun s => s.without r := by
  refine without_guardedTask (fun _ => Iff.rfl) fun task _ _ => ?_
  refine congrArg some (Eq.symm ?_)
  refine (without_setTask _ _ _).trans ?_
  exact congrArg (fun c => State.setTask { s.without r with cache := c } t _)
    (s.cache.forget_cancelLoading task.path)

theorem without_stepWorker
    (t : ℕ) (a : WorkerStep) (hstop : NotAborted r s (.worker t a))
    (hlisted : NotDangling r s (.worker t a)) :
    (s.without r).stepWorker t a =
      (s.stepWorker t a).map fun s => s.without r := by
  cases a with
  | startLoading now ok => exact without_startLoading t now ok
  | curlInit ok =>
      refine without_guardedTask (fun _ => Iff.rfl) fun task _ _ => ?_
      refine congrArg some (Eq.symm ?_)
      exact without_setTask _ _ _
  | writeCallback chunk =>
      refine without_writeCallback t chunk fun ht => ?_
      exact hstop chunk (ht ▸ rfl)
  | testLoading => exact without_testLoading t
  | appendData now ok => exact without_appendData t now ok
  | notifyWaitingClients => exact without_notifyWaitingClients t hlisted
  | curlDone ok =>
      refine without_guardedTask (fun _ => Iff.rfl) fun task _ _ => ?_
      refine congrArg some (Eq.symm ?_)
      exact without_setTask _ _ _
  | finishTest =>
      refine without_guardedTask (fun _ => Iff.rfl) fun task _ _ => ?_
      refine without_entry_map fun e => Eq.symm ?_
      exact without_setTask _ _ _
  | finishLoading now ok => exact without_finishLoading t now ok
  | cancelLoading => exact without_cancelLoading t

theorem without_gcEntry :
    (s.without r).gcEntry = s.gcEntry.map fun s => s.without r := by
  unfold gcEntry
  change s.gc.bind _ = _
  cases s.gc with
  | none => rfl
  | some g =>
      obtain ⟨b, now, front, skipped, rest⟩ := g
      cases rest with
      | nil => rfl
      | cons a rest =>
          refine without_entry fun e _ => ?_
          have hentries : (fun x => (Function.update s.cache.entries a none
              x).map (Entry.forget r)) =
              Function.update (s.without r).cache.entries a none := by
            funext x
            by_cases hx : x = a
            · simp [hx]
            · simp [hx, without]
          rw [Entry.forget_isLoading]
          by_cases hload : e.isLoading = true
          · rw [if_pos hload, if_pos hload]
            rfl
          · have hexp : (e.forget r).expired (s.without r).cache.defaultTtl now =
                e.expired s.cache.defaultTtl now := rfl
            rw [if_neg hload, if_neg hload, hexp]
            have hlive : (e.forget r).dataLive = e.dataLive := rfl
            by_cases hold : e.expired s.cache.defaultTtl now = true
            · rw [if_pos hold, if_pos hold, hlive]
              by_cases hblock : e.dataLive = true
              · rw [if_pos hblock, if_pos hblock]
                simp only [Option.map_some, without, Cache.forget, hentries]
                rfl
              · rw [if_neg hblock, if_neg hblock]
                rfl
            · rw [if_neg hold, if_neg hold]
              rfl

theorem without_stepCollector (a : GcStep) :
    (s.without r).stepCollector a =
      (s.stepCollector a).map fun s => s.without r := by
  cases a with
  | begin b now =>
      simp only [stepCollector, gcBegin, apply_ite (Option.map _),
        Option.map_some, Option.map_none]
      rfl
  | entry => exact without_gcEntry
  | finish =>
      change s.gc.bind _ = (s.gc.bind _).map _
      cases s.gc with
      | none => rfl
      | some g =>
          simp only [Option.bind_some, apply_ite (Option.map _),
            Option.map_some, Option.map_none]
          rfl

/-- The steps of the others do not depend on client `r`. -/
theorem without_step
    {a : Action} (hothers : a.others r = true) (hstop : NotAborted r s a)
    (hlisted : NotDangling r s a) :
    (s.without r).step a = (s.step a).map fun s => s.without r := by
  cases a with
  | request r' a =>
      exact without_stepRequest (by simpa [Action.others] using hothers) a
  | worker t a => exact without_stepWorker t a hstop hlisted
  | collector a => exact without_stepCollector a

end State

/-! ## The client that leaves and the client that stays -/

/-- `free_write_req` has been called for client `r`. -/
def Leaving (r : ℕ) (s : State) : Prop :=
  ∃ w, s.reqs r = some w ∧ (w.pc = .unregister ∨ w.pc = .cancelBgw ∨ w.Gone)

/-- The worker of client `r` has not been told to stop. -/
def Running (r : ℕ) (s : State) : Prop :=
  ∀ task, s.tasks r = some task → task.shouldStop = false

variable {s s' : State} {r : ℕ}

/-- What a client that leaves still does cannot be seen. -/
theorem Leaving.hidden
    (hs : Leaving r s) {a : ReqStep} (h : s.stepRequest r a = some s') :
    Leaving r s' ∧ s'.without r = s.without r := by
  obtain ⟨w, hw, hpc⟩ := hs
  have hat := stepRequest_at h hw
  cases a with
  | readClient x => exact hat.elim
  | unregisterWaiter =>
      obtain ⟨v, -, -, -, rfl⟩ := unregisterWaiter_spec h
      refine ⟨⟨_, Function.update_self .., Or.inr (Or.inl rfl)⟩, ?_⟩
      rw [without_setReq_self, without_setCache,
        Cache.forget_unregisterWaiter_self]
      rfl
  | cancelBgw =>
      obtain ⟨v, -, -, rfl⟩ := cancelBgw_spec h
      refine ⟨⟨_, Function.update_self .., Or.inr (Or.inr (Or.inl rfl))⟩, ?_⟩
      rw [without_setReq_self]
      -- the flag that is set is the hidden one
      have htasks : (fun t => (s.stopped r v t).map (Task.unstop r t)) =
          fun t => (s.tasks t).map (Task.unstop r t) := by
        funext t
        unfold stopped
        split
        · by_cases ht : t = r
          · subst ht
            cases s.tasks t <;> simp [Task.unstop]
          · simp [ht]
        · rfl
      simp only [without, htasks]
  | onAsyncClose =>
      obtain ⟨v, -, -, rfl⟩ := onAsyncClose_spec h
      exact ⟨⟨_, Function.update_self .., Or.inr (Or.inr (Or.inr rfl))⟩,
        without_setReq_self s r _⟩
  | lookupBegin | lookupEnd _ _ | launchBgw _ | registerWaiter _
  | onDataReady | onWritten _ =>
      -- it stands elsewhere
      simp [WriteReq.Gone, show w.pc = _ from hat] at hpc

/-- The others do not move client `r`. -/
theorem req_of_others
    {a : Action} (hothers : a.others r = true) (h : s.step a = some s')
    {w : WriteReq} (hw : s.reqs r = some w) :
    ∃ w', s'.reqs r = some w' ∧ w'.pc = w.pc := by
  cases a with
  | request r' a =>
      have hne : r ≠ r' := Ne.symm (by simpa [Action.others] using hothers)
      exact ⟨w, ((stepRequest_frame h).reqs r hne).trans hw, rfl⟩
  | worker t a =>
      rcases (stepWorker_frame h).reqs r with heq | heq
      · exact ⟨w, heq.trans hw, rfl⟩
      · refine ⟨w.notify, by rw [heq, hw]; rfl, ?_⟩
        unfold WriteReq.notify
        split <;> rfl
  | collector a => exact ⟨w, (stepCollector_frame h).reqs ▸ hw, rfl⟩

/-- Client `r` has a write in flight or waits, and its worker goes on. -/
structure Staying (r : ℕ) (s : State) : Prop where
  running : Running r s
  idle : ∃ w, s.reqs r = some w ∧ w.pc = .idle

theorem Staying.notAborted
    (hs : Staying r s) {a : Action} : NotAborted r s a :=
  fun _ _ task htask => hs.running task htask

theorem Staying.notDangling
    (hs : Staying r s) {a : Action} : NotDangling r s a := by
  intro t _ task e _ _ _ hfreed
  obtain ⟨w, hw, hpc⟩ := hs.idle
  simp [hw, hpc] at hfreed

/-- The others do not stop the worker of client `r`. -/
theorem Running.of_others
    (hs : Running r s) {a : Action} (hothers : a.others r = true)
    (h : s.step a = some s') : Running r s' := by
  intro task' htask'
  cases a with
  | request r' a =>
      have hne : r ≠ r' := Ne.symm (by simpa [Action.others] using hothers)
      rcases stepRequest_tasks h r with heq | ⟨heq, -⟩ | ⟨heq, -⟩
      · exact hs task' (heq ▸ htask')
      · exact absurd heq hne
      · exact absurd heq hne
  | worker t a =>
      by_cases ht : r = t
      · subst ht
        obtain ⟨u, u', hu, hu', -, -, hstop, -⟩ := stepWorker_task h
        obtain rfl := Option.some.inj (htask'.symm.trans hu')
        exact hstop.trans (hs u hu)
      · exact hs task' ((stepWorker_frame h).tasks r ht ▸ htask')
  | collector a => exact hs task' ((stepCollector_frame h).tasks ▸ htask')

theorem Staying.of_others
    (hs : Staying r s) {a : Action} (hothers : a.others r = true)
    (h : s.step a = some s') : Staying r s' := by
  obtain ⟨w, hw, hpc⟩ := hs.idle
  obtain ⟨w', hw', hsame⟩ := req_of_others hothers h hw
  exact ⟨hs.running.of_others hothers h, w', hw', hsame.trans hpc⟩

/-- A worker is told to stop only by a request that is then gone. -/
theorem running_or_gone (hs : proxy.Reachable s) (r : ℕ) :
    Running r s ∨ ∃ w, s.reqs r = some w ∧ w.Gone := by
  refine TransitionSystem.ReachableUnder.invariant
    (P := fun s => Running r s ∨ ∃ w, s.reqs r = some w ∧ w.Gone)
    ?_ ?_ hs
  · rintro s ⟨numBuckets, defaultTtl, rfl⟩
    exact Or.inl fun task htask => by cases htask
  · rintro s a s' hs - h
    by_cases hothers : a.others r = true
    · rcases hs with hrun | ⟨w, hw, hpc⟩
      · exact Or.inl (hrun.of_others hothers h)
      · obtain ⟨w', hw', hsame⟩ := req_of_others hothers h hw
        exact Or.inr ⟨w', hw', by rwa [WriteReq.Gone, hsame]⟩
    · -- a step of the request itself
      obtain ⟨b, rfl⟩ : ∃ b, a = .request r b := by
        cases a with
        | request r' b =>
            obtain rfl : r' = r := by simpa [Action.others] using hothers
            exact ⟨b, rfl⟩
        | worker t b => exact absurd rfl hothers
        | collector b => exact absurd rfl hothers
      have hreq : s.stepRequest r b = some s' := h
      rcases hs with hrun | ⟨w, hw, hgone⟩
      · rcases stepRequest_tasks hreq r with heq | ⟨-, rfl, -⟩ |
          ⟨-, w, -, -, heq, -⟩
        · exact Or.inl fun task htask => hrun task (heq ▸ htask)
        · obtain ⟨w, -, -, rfl⟩ := cancelBgw_spec hreq
          exact Or.inr ⟨_, Function.update_self .., Or.inl rfl⟩
        · refine Or.inl fun task htask => ?_
          obtain rfl := Option.some.inj (heq.symm.trans htask)
          rfl
      · -- only its handle is still to be closed
        have hat := stepRequest_at hreq hw
        cases b with
        | onAsyncClose =>
            obtain ⟨v, -, -, rfl⟩ := onAsyncClose_spec hreq
            exact Or.inr ⟨_, Function.update_self .., Or.inr rfl⟩
        | _ => rcases hgone with hpc | hpc <;> simp [ReqStep.At, hpc] at hat

/-- Whatever happens after the disconnect of client `r` that took `s` to `s₁`,
the others see what they see when `r` does nothing from `s` on, and each of
their next steps does the same, or meets the same fault. -/
def Undisturbed (r : ℕ) (allowed : State → Action → Prop) (s s₁ : State) :
    Prop :=
  ∀ as t, proxy.RunAllowed allowed s₁ as → proxy.run s₁ as = some t →
    ∃ t', proxy.run s (as.filter (·.others r)) = some t' ∧
      t'.without r = t.without r ∧
      ∀ a, a.others r = true → allowed t a →
        (t.step a).map (fun s => s.without r) =
          (t'.step a).map fun s => s.without r

/-- A client that disconnects does not disturb the others as long as its
worker is not called back with `should_stop` set and its handle is not
notified after it was freed. -/
theorem undisturbed_of_notAborted
    {s s₁ : State} {r : ℕ} (hs : proxy.Reachable s)
    (h : s.step (.request r (.onWritten false)) = some s₁) :
    Undisturbed r (fun s a => NotAborted r s a ∧ NotDangling r s a) s s₁ := by
  have hreq : s.onWritten r false = some s₁ := h
  obtain ⟨w, hw, hpc, -, rfl⟩ := onWritten_spec hreq
  have hrun : Running r s := by
    rcases running_or_gone hs r with hrun | ⟨v, hv, hgone⟩
    · exact hrun
    · obtain rfl := Option.some.inj (hw.symm.trans hv)
      simp [WriteReq.Gone, hpc] at hgone
  have hleave : Leaving r (s.setReq r (w.onWritten false)) := by
    refine ⟨_, Function.update_self .., ?_⟩
    by_cases hstream : w.streaming = true
    · exact Or.inl (by simp [WriteReq.onWritten, WriteReq.release, hstream])
    · exact Or.inr (Or.inl (by
        simp [WriteReq.onWritten, WriteReq.release, hstream]))
  intro as t hallowed hto
  refine TransitionSystem.run_filter (fun s => s.without r)
    (P := Leaving r) (Q := Staying r) ?_ ?_ ?_ ?_ hleave ⟨hrun, w, hw, hpc⟩
    (without_setReq_self s r _).symm hallowed hto
  · intro u a u' hu hself hstep
    cases a with
    | request r' a =>
        obtain rfl : r' = r := by simpa [Action.others] using hself
        exact hu.hidden hstep
    | worker t a => cases hself
    | collector a => cases hself
  · intro u a v hu hv hview hothers ha
    have hleaves := without_step hothers ha.1 ha.2
    have hstays := without_step hothers hv.notAborted hv.notDangling
    exact hleaves.symm.trans (hview ▸ hstays)
  · intro u a u' hu hothers hstep
    obtain ⟨x, hx, hxpc⟩ := hu
    obtain ⟨x', hx', hsame⟩ := req_of_others hothers hstep hx
    exact ⟨x', hx', by rwa [WriteReq.Gone, hsame]⟩
  · intro v a v' hv hothers hstep
    exact hv.of_others hothers hstep

/-- A test for both conditions. -/
def harmless (r : ℕ) (s : State) : Action → Bool
  | .worker t (.writeCallback _) =>
      t ≠ r || (s.tasks t).all fun task => !task.shouldStop
  | .worker t .notifyWaitingClients =>
      (s.reqs r).map WriteReq.pc ≠ some .freed ||
        ((s.tasks t).bind fun task => s.cache.entries task.entry).all fun e =>
          r ∉ e.waitingClients
  | _ => true

theorem harmless_sound
    (r : ℕ) (s : State) (a : Action) (h : harmless r s a = true) :
    NotAborted r s a ∧ NotDangling r s a := by
  constructor
  · rintro chunk rfl task htask
    simpa [harmless, htask] using h
  · rintro t rfl task e htask he hmem hfreed
    simp [harmless, hfreed, htask, he, hmem] at h

/-- Two clients stream the page from one loading entry, and each has a write
pending.  Client 0 launched the worker. -/
def twoReaders : List Action :=
  arriveFirst 0 rootRequest ++ beginLoad 0 ++ deliver 0 [1] ++ sendChunk 0 ++
    [.request 1 (.readClient rootRequest)] ++ sendChunk 1 ++ sendChunk 1

/-- The write completes, nothing more is there, and the client registers. -/
def catchUp (r : ℕ) : List Action :=
  [.request r (.onWritten true)] ++ sendChunk r ++
    [.request r (.registerWaiter true)] ++ sendChunk r

/-- Client 1 has registered and has been sent a second chunk. -/
def followerRegistered : List Action :=
  twoReaders ++ catchUp 1 ++ deliver 0 [2] ++ [.request 1 .onDataReady] ++
    sendChunk 1

/-- The rest of `free_write_req`. -/
def leave (r : ℕ) : List Action :=
  [.request r .unregisterWaiter, .request r .cancelBgw]

/-- Client 1 leaves and is freed while the load goes on and client 0 is
served. -/
def afterFollowerLeft : List Action :=
  leave 1 ++ [.request 1 .onAsyncClose] ++ deliver 0 [3] ++
    [.request 0 (.onWritten true)] ++ sendChunk 0

theorem undisturbed_of_notAborted_followerRegistered :
    ∃ s s₁ t t', proxy.run (.init 1 100) followerRegistered = some s ∧
      s.step (.request 1 (.onWritten false)) = some s₁ ∧
      proxy.runWhile (harmless 1) s₁ afterFollowerLeft = some t ∧
      (t.reqs 0).map WriteReq.sent = some [1, 2, 3] ∧
      proxy.run s (afterFollowerLeft.filter (·.others 1)) = some t' ∧
      t'.without 1 = t.without 1 := by
  have hrun : (proxy.run (.init 1 100) followerRegistered).bind (fun s =>
      (s.step (.request 1 (.onWritten false))).bind fun s₁ =>
        (proxy.runWhile (harmless 1) s₁ afterFollowerLeft).map fun t =>
          (t.reqs 0).map WriteReq.sent) = some (some [1, 2, 3]) := rfl
  obtain ⟨s, hs, hrun⟩ := Option.bind_eq_some_iff.mp hrun
  obtain ⟨s₁, hs₁, hrun⟩ := Option.bind_eq_some_iff.mp hrun
  obtain ⟨t, ht, hsent⟩ := Option.map_eq_some_iff.mp hrun
  obtain ⟨hallowed, hto⟩ :=
    TransitionSystem.runAllowed_of_runWhile (harmless_sound 1) ht
  obtain ⟨t', ht', hsee, -⟩ := undisturbed_of_notAborted
    (.run (.initial (proxy_initial 1 100)) hs) hs₁ afterFollowerLeft t hallowed
    hto
  exact ⟨s, s₁, t, t', hs, hs₁, ht, hsent, ht', hsee⟩

/-- A page of the same bucket is loaded and old when client 1 streams the
first one.  The collector frees it and unlinks the loading entry with it. -/
def unlinkedWhileStreamed : List Action :=
  arriveFirst 2 ⟨[47, 97], []⟩ ++ beginLoad 2 ++ deliver 2 [9] ++ endLoad 2 ++
    followerRegistered ++ [.collector (.begin 0 200), .collector .entry,
      .collector .entry, .collector .finish]

/-- Client 1 leaves and is freed, and the next chunk comes. -/
def leftUnlinked : List Action :=
  leave 1 ++ [.request 1 .onAsyncClose, .worker 0 (.writeCallback [3]),
    .worker 0 .testLoading, .worker 0 (.appendData 0 true)]

/-- A client that did not launch the worker disturbs the other one, too: its
handle is left in the list of the unlinked entry. -/
theorem unlinkedWhileStreamed_disturbed :
    ∃ s s₁, proxy.run (.init 1 100) unlinkedWhileStreamed = some s ∧
      s.step (.request 1 (.onWritten false)) = some s₁ ∧
      ¬ Undisturbed 1 (NotAborted 1) s s₁ := by
  have hrun : (proxy.run (.init 1 100) unlinkedWhileStreamed).bind (fun s =>
      (s.step (.request 1 (.onWritten false))).bind fun s₁ =>
        (proxy.run s₁ leftUnlinked).bind fun t =>
          (proxy.run s (leftUnlinked.filter (·.others 1))).map fun t' =>
            ((t.step (.worker 0 .notifyWaitingClients)).isNone,
              (t'.step (.worker 0 .notifyWaitingClients)).isSome)) =
      some (true, true) := rfl
  obtain ⟨s, hs, hrun⟩ := Option.bind_eq_some_iff.mp hrun
  obtain ⟨s₁, hs₁, hrun⟩ := Option.bind_eq_some_iff.mp hrun
  obtain ⟨t, ht, hrun⟩ := Option.bind_eq_some_iff.mp hrun
  obtain ⟨t', ht', hobs⟩ := Option.map_eq_some_iff.mp hrun
  obtain ⟨hfault, hgoes⟩ := Prod.mk.inj hobs
  refine ⟨s, s₁, hs, hs₁, fun hund => ?_⟩
  obtain ⟨u, hu, -, hnext⟩ := hund leftUnlinked t
    (by simp [leftUnlinked, leave, TransitionSystem.RunAllowed, NotAborted]) ht
  obtain rfl := Option.some.inj (ht'.symm.trans hu)
  have hsame := hnext (.worker 0 .notifyWaitingClients) rfl
    (by simp [NotAborted])
  rw [Option.isNone_iff_eq_none.mp hfault] at hsame
  obtain ⟨v, hv⟩ := Option.isSome_iff_exists.mp hgoes
  rw [hv] at hsame
  cases hsame

/-- Client 0 leaves, its worker is called back once more, and client 1 asks
for its next chunk. -/
def afterLauncherLeft : List Action :=
  leave 0 ++ [.worker 0 (.writeCallback [2]), .worker 0 .cancelLoading,
    .request 1 (.onWritten true), .request 1 .lookupBegin,
    .request 1 (.registerWaiter true)]

/-- The same time without the disconnect. -/
def whileLauncherStays : List Action :=
  deliver 0 [2] ++ [.request 1 (.onWritten true)] ++ sendChunk 1

/-- The entry that client 1 streams is freed because client 0 left, and client
1 waits for a load that nobody will start. -/
theorem twoReaders_disturbed :
    ∃ s s₁ t t', proxy.run (.init 1 100) twoReaders = some s ∧
      proxy.Reachable s ∧ s.step (.request 0 (.onWritten false)) = some s₁ ∧
      proxy.run s₁ afterLauncherLeft = some t ∧
      (t.cache.entries 0).isNone ∧
      (t.reqs 1).map (fun w => (w.pc, w.sent)) = some (.idle, [1]) ∧
      proxy.run s whileLauncherStays = some t' ∧
      (t'.reqs 1).map (fun w => (w.pc, w.sent)) = some (.idle, [1, 2]) ∧
      ¬ Undisturbed 0 (fun _ _ => True) s s₁ := by
  have hrun : (proxy.run (.init 1 100) twoReaders).bind (fun s =>
      (s.step (.request 0 (.onWritten false))).bind fun s₁ =>
        (proxy.run s₁ afterLauncherLeft).bind fun t =>
          (proxy.run s whileLauncherStays).map fun t' =>
            ((t.cache.entries 0).isNone,
              (t.reqs 1).map fun w => (w.pc, w.sent),
              (t'.reqs 1).map (fun w => (w.pc, w.sent)),
              (proxy.run s
                (afterLauncherLeft.filter (·.others 0))).isNone)) =
      some (true, some (.idle, [1]), some (.idle, [1, 2]), true) := rfl
  obtain ⟨s, hs, hrun⟩ := Option.bind_eq_some_iff.mp hrun
  obtain ⟨s₁, hs₁, hrun⟩ := Option.bind_eq_some_iff.mp hrun
  obtain ⟨t, ht, hrun⟩ := Option.bind_eq_some_iff.mp hrun
  obtain ⟨t', ht', hobs⟩ := Option.map_eq_some_iff.mp hrun
  obtain ⟨hgone, hobs⟩ := Prod.mk.inj hobs
  obtain ⟨hsent, hobs⟩ := Prod.mk.inj hobs
  obtain ⟨hsent', hnone⟩ := Prod.mk.inj hobs
  refine ⟨s, s₁, t, t', hs, .run (.initial (proxy_initial 1 100)) hs, hs₁, ht,
    hgone, hsent, ht', hsent', fun hund => ?_⟩
  obtain ⟨u, hu, -⟩ := hund afterLauncherLeft t
    (TransitionSystem.runAllowed_true _ _ _) ht
  rw [hu] at hnone
  cases hnone

end Streaming
end Proxy
end OsFifthSem
