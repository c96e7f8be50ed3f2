import OsFifthSem.Proxy.Connections.Steps

/-!
# Write requests and the handles of their clients

Every read creates a write request of its own with the pointer to the client,
and the first request that is released closes the client for all of them.  The
others keep the pointer after the close callback has freed the handle.  Nothing
of this happens while no client has two requests at a time.
-/

namespace OsFifthSem
namespace Proxy
namespace Connections

open Support

/-- No freed handle was passed to `uv_write` or `uv_is_closing`, and no client
was closed that had another write request. -/
structure NoneOutlived (b : Backend) : Prop where
  used : ∀ status ∈ b.uses, status ≠ .freed
  alone : ∀ n ∈ b.others, n = 0

/-- A read that creates a write request finds no other one of its client. -/
def OneAtATime (b : Backend) : Action → Prop
  | .read c (.data (some _)) env => env.creates = true → b.unreleased c = 0
  | _ => True

instance (b : Backend) : (a : Action) → Decidable (OneAtATime b a)
  | .read c (.data (some _)) env =>
      inferInstanceAs (Decidable (env.creates = true → b.unreleased c = 0))
  | .read _ (.data none) _ | .read _ .again _ | .read _ .ended _
  | .newClient | .written _ _ _ | .dataReady _ _ | .closed _ => .isTrue trivial

/-- Every client has at most one request, and only while its handle is in
use. -/
structure Alone (b : Backend) : Prop where
  wf : b.Wf
  one : ∀ c, b.unreleased c ≤ 1
  active : ∀ c, 0 < b.unreleased c → b.handleStatus c = .active
  outlived : NoneOutlived b

namespace Alone

variable {b b' : Backend} {env : Outside} {i c : ℕ} {wr wr' : WriteReq}

theorem active_of_live (h : Alone b) (hreq : b.reqs[i]? = some wr)
    (hlive : wr.released = false) : b.handleStatus wr.client = .active := by
  apply h.active
  rw [Backend.unreleased_pos_iff]
  exact ⟨wr, List.mem_of_getElem? hreq, rfl, hlive⟩

/-- A callback that has not released its request. -/
theorem setReq
    (h : Alone b) (hreq : b.reqs[i]? = some wr) (hwf : (b.setReq i wr').Wf)
    (hlive : wr.released = false) (hkept : wr.Kept wr') :
    Alone (b.setReq i wr') := by
  have hsame := Backend.unreleased_setReq hreq hkept.client
    (hkept.live.trans hlive.symm)
  refine ⟨hwf, fun c => ?_, fun c hc => ?_, ⟨h.outlived.used,
    h.outlived.alone⟩⟩
  · exact (hsame c).trans_le (h.one c)
  · exact h.active c (hsame c ▸ hc)

/-- The release of the only request of a client. -/
theorem freeWriteReq
    (h : Alone b) (hreq : b.reqs[i]? = some wr)
    (hwf : (b.freeWriteReq env i wr').Wf) (hlive : wr.released = false)
    (hkept : wr.Kept wr') : Alone (b.freeWriteReq env i wr') := by
  have hactive : b.handleStatus wr'.client = .active :=
    hkept.client ▸ h.active_of_live hreq hlive
  have hrest := Backend.unreleased_release { wr' with released := true }
    hreq hlive rfl
  have hcount := b.freeWriteReq_unreleased env i wr'
  refine ⟨hwf, fun c => ?_, fun c hc => ?_, ?_⟩
  · have hone := h.one c
    have hc := hrest c
    rw [hcount]
    omega
  · -- nothing is left of the client that was closed
    rw [hcount] at hc
    have hone := h.one c
    have hc' := hrest c
    have hne : wr'.client ≠ c := by
      intro heq
      rw [hkept.client] at heq
      rw [if_pos heq] at hc'
      omega
    have hbefore : 0 < b.unreleased c := by omega
    rw [Backend.freeWriteReq_active env i hactive]
    exact (Backend.handleStatus_setClient_ne hne).trans (h.active c hbefore)
  · rw [Backend.freeWriteReq_active env i hactive]
    have hone := h.one wr'.client
    have hc := hrest wr'.client
    rw [if_pos hkept.client.symm] at hc
    have hnone : (b.setReq i { wr' with released := true }).unreleased
        wr'.client = 0 := by omega
    exact ⟨List.forall_mem_cons.mpr ⟨by simp [hactive], h.outlived.used⟩,
      List.forall_mem_cons.mpr ⟨hnone, h.outlived.alone⟩⟩

theorem outcome
    (h : Alone b) (hreq : b.reqs[i]? = some wr) (hlive : wr.released = false)
    (hstep : Outcome b env i wr b') : Alone b' := by
  have hwf : b'.Wf :=
    h.wf.outcome (h.wf wr (List.mem_of_getElem? hreq)).2 hstep
  cases hstep with
  | kept wr' hkept => exact h.setReq hreq hwf hlive hkept
  | wrote wr' hkept =>
      have hset := h.setReq hreq hwf hlive hkept
      have hactive := h.active_of_live hreq hlive
      exact ⟨hwf, hset.one, hset.active,
        ⟨List.forall_mem_cons.mpr ⟨by simp [hactive], h.outlived.used⟩,
          h.outlived.alone⟩⟩
  | freed wr' hkept hidle => exact h.freeWriteReq hreq hwf hlive hkept

theorem created
    (h : Alone b) (hactive : b.handleStatus c = .active)
    (hfirst : b.unreleased c = 0) (hwr : wr.Fresh c) :
    Alone (b.addReq wr) where
  wf := h.wf.addReq hwr (Backend.lt_of_handleStatus (by simp [hactive]))
  one := by
    intro d
    have hone := h.one d
    rw [Backend.unreleased_addReq hwr]
    split
    next heq => rw [← heq, hfirst]
    next => exact hone
  active := by
    intro d hd
    rw [Backend.unreleased_addReq hwr] at hd
    split at hd
    next heq => exact heq ▸ hactive
    next => exact h.active d hd
  outlived := ⟨h.outlived.used, h.outlived.alone⟩

theorem step
    {a : Action} (h : Alone b) (hallowed : OneAtATime b a)
    (hstep : Connections.step b a = some b') : Alone b' := by
  have hcase := step_cases h.wf hstep
  have hwf := hcase.wf h.wf
  cases hcase with
  | newClient =>
      refine ⟨hwf, h.one, fun c hc => ?_, ⟨h.outlived.used, h.outlived.alone⟩⟩
      have hstatus := h.active c hc
      rw [← hstatus]
      exact Backend.handleStatus_newClient
        (Backend.lt_of_handleStatus (by simp [hstatus]))
  | nothing => exact h
  | ended c env hactive =>
      refine ⟨hwf, h.one, fun d hd => ?_, ⟨h.outlived.used, h.outlived.alone⟩⟩
      rw [Backend.handleStatus_setClient_self
        (f := fun cl => { cl with ended := true }) fun _ => rfl]
      exact h.active d hd
  | created c x env wr _ hactive hcreates hwr hout =>
      exact (h.created hactive (hallowed hcreates) hwr).outcome
        (Backend.addReq_getElem? b wr) hwr.live hout
  | written i ok env wr _ hreq hflight hout =>
      have hok := (h.wf wr (List.mem_of_getElem? hreq)).1
      exact h.outcome hreq (hok.live_of_inFlight hflight) hout
  | dataReady i env wr _ hreq hlive hout => exact h.outcome hreq hlive hout
  | closed c hclosing hidle =>
      refine ⟨hwf, h.one, fun d hd => ?_, ⟨h.outlived.used, h.outlived.alone⟩⟩
      have hstatus := h.active d hd
      have hne : c ≠ d := by
        rintro rfl
        rw [hclosing] at hstatus
        cases hstatus
      exact (Backend.handleStatus_setClient_ne hne).trans hstatus

end Alone

/-- In every run in which no client has two write requests at a time, no freed
handle is used and no client is closed under a request. -/
theorem noneOutlived_of_oneAtATime
    (b : Backend) (hreach : loopSystem.ReachableUnder OneAtATime b) :
    NoneOutlived b := by
  refine Alone.outlived (hreach.invariant ?_ ?_)
  · rintro b rfl
    exact ⟨nofun, fun _ => Nat.zero_le _, nofun, ⟨nofun, nofun⟩⟩
  · intro b a b' h hallowed hstep
    exact h.step hallowed hstep

/-- Where a client has two requests, the first one to be released breaks it. -/
theorem outlived_of_two
    {b : Backend} {env : Outside} {i : ℕ} {wr : WriteReq}
    (hreq : b.reqs[i]? = some wr) (hlive : wr.released = false)
    (hactive : b.handleStatus wr.client = .active)
    (htwo : 2 ≤ b.unreleased wr.client) :
    ¬NoneOutlived (b.freeWriteReq env i wr) := by
  intro h
  rw [Backend.freeWriteReq_active env i hactive] at h
  have hnone := h.alone _ List.mem_cons_self
  have hrest := Backend.unreleased_release { wr with released := true }
    hreq hlive rfl wr.client
  rw [if_pos rfl] at hrest
  have hzero : (b.setReq i { wr with released := true }).unreleased
      wr.client = 0 := hnone
  omega

/-! ## Two runs -/

/-- A page that is loading and has no data yet. -/
def loadingPage : Outside where
  cached := some (true, [])
  launches := true
  chunk := some (true, [])
  recheck := some (true, [])
  rechecked := none
  accepts := true
  garbage := false

/-- A page that is cached. -/
def cachedPage : Outside :=
  { loadingPage with cached := some (false, [1, 2]) }

/-- The loading page when a chunk has arrived. -/
def arrivedChunk : Outside :=
  { loadingPage with chunk := some (true, [7]) }

/-- The loading page when its load has ended, and all of it was sent. -/
def endedLoad : Outside :=
  { loadingPage with chunk := some (false, [7]) }

/-- Two clients with one request each, of which one waits for a chunk. -/
theorem noneOutlived_of_oneAtATime_twoClients :
    ∃ b, loopSystem.ReachableUnder OneAtATime b ∧
      b.clientCount = 0 ∧ b.uses.length = 4 ∧ NoneOutlived b := by
  have hrun : loopSystem.runWhile (fun b a => decide (OneAtATime b a))
      createBackend
      [.newClient, .newClient,
        .read 0 (.data (some ⟨[47], []⟩)) loadingPage,
        .read 1 (.data (some ⟨[48], []⟩)) cachedPage,
        .dataReady 0 arrivedChunk, .written 1 true cachedPage, .closed 1,
        .written 0 true arrivedChunk, .dataReady 0 endedLoad,
        .closed 0] = some _ := rfl
  have hreach := (TransitionSystem.ReachableUnder.initial rfl).runWhile
    (fun _ _ => of_decide_eq_true) hrun
  exact ⟨_, hreach, rfl, rfl, noneOutlived_of_oneAtATime _ hreach⟩

/-- One client asks for a page that is loading and for one that is cached. -/
theorem twoRequests_outlived :
    ∃ b, loopSystem.run createBackend
        [.newClient,
          .read 0 (.data (some ⟨[47], []⟩)) loadingPage,
          .read 0 (.data (some ⟨[48], []⟩)) cachedPage,
          .written 1 true cachedPage, .closed 0,
          .dataReady 0 arrivedChunk] = some b ∧
      b.uses = [.freed, .active, .active] ∧ b.others = [1] ∧
      ¬NoneOutlived b := by
  refine ⟨_, rfl, rfl, rfl, fun h => ?_⟩
  exact h.used .freed List.mem_cons_self rfl

end Connections
end Proxy
end OsFifthSem
