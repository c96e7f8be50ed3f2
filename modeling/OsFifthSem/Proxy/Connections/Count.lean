import OsFifthSem.Proxy.Connections.Lifetime

/-!
# The number of clients of a backend

`client_count` is decremented in `free_write_req` alone, so a client is closed
only with one of its write requests: `read_client` does nothing when the stream
has ended.  The count is that of the open clients, but a client that leaves
without a request stays one of them.
-/

namespace OsFifthSem
namespace Proxy
namespace Connections

open Support

/-- `client_count` is the number of accepted clients that were not closed, no
client is closed twice, and a client that has ended and has no write request
left is closed. -/
structure CountExact (b : Backend) : Prop where
  exact : b.clientCount = b.clients.countP fun cl => cl.closes = 0
  nonneg : 0 ≤ b.clientCount
  once : ∀ cl ∈ b.clients, cl.closes ≤ 1
  ended : ∀ c cl, b.clients[c]? = some cl → cl.ended = true →
    b.unreleased c = 0 → cl.closes = 1

/-- A client that ends has a write request, and no request is told of new data
after the handle of its client was freed. -/
def EndsServed (b : Backend) : Action → Prop
  | .read c .ended _ => 0 < b.unreleased c
  | .dataReady i _ =>
      ∀ wr ∈ b.reqs[i]?, b.handleStatus wr.client ≠ .freed
  | _ => True

instance (b : Backend) : (a : Action) → Decidable (EndsServed b a)
  | .read c .ended _ => inferInstanceAs (Decidable (0 < b.unreleased c))
  | .dataReady i _ =>
      inferInstanceAs
        (Decidable (∀ wr ∈ b.reqs[i]?, b.handleStatus wr.client ≠ .freed))
  | .read _ (.data _) _ | .read _ .again _ | .newClient | .written _ _ _
  | .closed _ => .isTrue trivial

/-- What holds of a client with `n` requests that are not released. -/
structure Client.Counted (n : ℕ) (cl : Client) : Prop where
  closes : cl.closes = if cl.status = .active then 0 else 1
  served : cl.status = .active → cl.ended = true → 0 < n

/-- A client is counted while its handle is in use, and the requests of a freed
handle have no write under way. -/
structure Counted (b : Backend) : Prop where
  wf : b.Wf
  count : b.clientCount = b.clients.countP fun cl => cl.status = .active
  client : ∀ c (cl : Client), b.clients[c]? = some cl →
    cl.Counted (b.unreleased c)
  idle : ∀ wr ∈ b.reqs, b.handleStatus wr.client = .freed → wr.inFlight = 0

theorem Backend.forall_setClient
    {b : Backend} {c : ℕ} {f : Client → Client} {P : ℕ → Client → Prop}
    (hother : ∀ d cl, c ≠ d → b.clients[d]? = some cl → P d cl)
    (hself : ∀ cl, b.clients[c]? = some cl → P c (f cl)) (d : ℕ)
    (cl : Client) (h : (b.setClient c f).clients[d]? = some cl) : P d cl := by
  rw [setClient, List.getElem?_modify] at h
  obtain ⟨cl', hcl', rfl⟩ := Option.map_eq_some_iff.mp h
  split
  next heq =>
    subst heq
    exact hself cl' hcl'
  next hne => exact hother d cl' hne hcl'

namespace Counted

variable {b b' : Backend} {env : Outside} {i c : ℕ} {wr wr' : WriteReq}

/-- The invariant gives what is claimed of the count. -/
theorem countExact (h : Counted b) : CountExact b := by
  have hclosed : ∀ cl ∈ b.clients,
      cl.closes = if cl.status = .active then 0 else 1 := by
    intro cl hcl
    obtain ⟨c, hc⟩ := List.mem_iff_getElem?.mp hcl
    exact (h.client c cl hc).closes
  have hcount : (b.clients.countP fun cl => cl.closes = 0) =
      b.clients.countP fun cl => cl.status = .active := by
    refine List.countP_congr fun cl hcl => ?_
    have hcloses := hclosed cl hcl
    simp only [decide_eq_true_eq]
    split at hcloses <;> simp_all
  refine ⟨?_, ?_, fun cl hcl => ?_, fun c cl hc hended hnone => ?_⟩
  · rw [hcount]
    exact h.count
  · rw [h.count]
    exact Int.natCast_nonneg _
  · rw [hclosed cl hcl]
    split <;> decide
  · have hcl := h.client c cl hc
    rw [hcl.closes, if_neg]
    intro hactive
    exact absurd hnone (Nat.ne_of_gt (hcl.served hactive hended))

/-- A callback that has not released its request. -/
theorem setReq
    (h : Counted b) (hreq : b.reqs[i]? = some wr) (hwf : (b.setReq i wr').Wf)
    (hlive : wr.released = false) (hkept : wr.Kept wr')
    (hhandle : b.handleStatus wr.client ≠ .freed) :
    Counted (b.setReq i wr') where
  wf := hwf
  count := h.count
  client := by
    intro c cl hc
    rw [Backend.unreleased_setReq hreq hkept.client
      (hkept.live.trans hlive.symm)]
    exact h.client c cl hc
  idle := by
    intro w hw hfreed
    rcases List.mem_or_eq_of_mem_set hw with hw | rfl
    · exact h.idle w hw hfreed
    · exact absurd (hkept.client ▸ hfreed) hhandle

/-- The first release of a request of a client. -/
theorem closeClient
    (h : Counted b) (hreq : b.reqs[i]? = some wr)
    (hwf : (b.freeWriteReq env i wr').Wf) (hlive : wr.released = false)
    (hkept : wr.Kept wr') (hidle : wr'.inFlight = 0)
    (hactive : b.handleStatus wr.client = .active) :
    Counted (b.freeWriteReq env i wr') := by
  have hactive' : b.handleStatus wr'.client = .active := hkept.client ▸ hactive
  obtain ⟨cl, hcl, hstatus⟩ : ∃ cl, b.clients[wr'.client]? = some cl ∧
      cl.status = b.handleStatus wr'.client :=
    Backend.exists_of_handleStatus (by simp [hactive'])
  rw [hactive'] at hstatus
  have hrest := Backend.unreleased_release { wr' with released := true }
    hreq hlive rfl
  have heq := Backend.freeWriteReq_active env i hactive'
  refine ⟨hwf, ?_, ?_, ?_⟩
  · have hcount := countP_modify (p := fun cl => cl.status = .active)
      (f := fun cl => { cl with status := .closing, closes := cl.closes + 1 })
      hcl
    simp only [hstatus, decide_true, if_true, reduceCtorEq, decide_false,
      Bool.false_eq_true, if_false, Nat.add_zero] at hcount
    have hbefore := h.count
    rw [heq]
    change b.clientCount - 1 = ((b.clients.modify wr'.client _).countP _ : ℕ)
    omega
  · rw [heq]
    refine Backend.forall_setClient ?_ ?_
    · intro d cl' hne hcl'
      have hcounted := h.client d cl' hcl'
      rw [← hrest d, if_neg (hkept.client ▸ hne), Nat.add_zero] at hcounted
      exact hcounted
    · intro cl' hcl'
      obtain rfl : cl = cl' := Option.some.inj (hcl.symm.trans hcl')
      have hcloses := (h.client _ cl hcl).closes
      rw [if_pos hstatus] at hcloses
      exact ⟨by simp [hcloses], nofun⟩
  · rw [heq]
    intro w hw hfreed
    rcases List.mem_or_eq_of_mem_set hw with hw | rfl
    · refine h.idle w hw ?_
      by_cases hne : wr'.client = w.client
      · -- the client that is closed is not freed
        rw [← hne] at hfreed
        cases hfreed.symm.trans (Backend.handleStatus_closeClient hactive')
      · exact (Backend.handleStatus_setClient_ne hne).symm.trans hfreed
    · exact hidle

/-- A later release, while the client is closing. -/
theorem release
    (h : Counted b) (hreq : b.reqs[i]? = some wr)
    (hwf : (b.freeWriteReq env i wr').Wf) (hlive : wr.released = false)
    (hkept : wr.Kept wr') (hidle : wr'.inFlight = 0)
    (hclosing : b.handleStatus wr.client = .closing) :
    Counted (b.freeWriteReq env i wr') := by
  have hclosing' : b.handleStatus wr'.client = .closing :=
    hkept.client ▸ hclosing
  have hrest := Backend.unreleased_release { wr' with released := true }
    hreq hlive rfl
  have heq : b.freeWriteReq env i wr' =
      (b.use wr'.client).setReq i { wr' with released := true } := by
    simp [Backend.freeWriteReq, Backend.uvIsClosing, hclosing']
  refine ⟨hwf, ?_, ?_, ?_⟩
  · rw [heq]
    exact h.count
  · rw [heq]
    intro d cl (hcl : b.clients[d]? = some cl)
    have hcounted := h.client d cl hcl
    refine ⟨hcounted.closes, fun hactive hended => ?_⟩
    have hne : wr.client ≠ d := by
      rintro rfl
      simp [Backend.handleStatus, hcl, hactive] at hclosing
    have hserved := hcounted.served hactive hended
    rw [← hrest d, if_neg hne, Nat.add_zero] at hserved
    exact hserved
  · rw [heq]
    intro w hw hfreed
    rcases List.mem_or_eq_of_mem_set hw with hw | rfl
    · exact h.idle w hw hfreed
    · exact hidle

theorem outcome
    (h : Counted b) (hreq : b.reqs[i]? = some wr) (hlive : wr.released = false)
    (hhandle : b.handleStatus wr.client ≠ .freed)
    (hstep : Outcome b env i wr b') : Counted b' := by
  have hwf : b'.Wf :=
    h.wf.outcome (h.wf wr (List.mem_of_getElem? hreq)).2 hstep
  cases hstep with
  | kept wr' hkept => exact h.setReq hreq hwf hlive hkept hhandle
  | wrote wr' hkept =>
      have hset := h.setReq hreq hwf hlive hkept hhandle
      exact ⟨hwf, hset.count, hset.client, hset.idle⟩
  | freed wr' hkept hidle =>
      cases hstatus : b.handleStatus wr.client with
      | active => exact h.closeClient hreq hwf hlive hkept hidle hstatus
      | closing => exact h.release hreq hwf hlive hkept hidle hstatus
      | freed => exact absurd hstatus hhandle

theorem addReq
    (h : Counted b) (hactive : b.handleStatus c = .active)
    (hwr : wr.Fresh c) : Counted (b.addReq wr) where
  wf := h.wf.addReq hwr (Backend.lt_of_handleStatus (by simp [hactive]))
  count := h.count
  client := by
    intro d cl hcl
    have hcounted := h.client d cl hcl
    refine ⟨hcounted.closes, fun hd hended => ?_⟩
    rw [Backend.unreleased_addReq hwr]
    exact Nat.add_pos_left (hcounted.served hd hended) _
  idle := by
    intro w hw hfreed
    rcases List.mem_append.mp hw with hw | hw
    · exact h.idle w hw hfreed
    · rw [List.mem_singleton.mp hw, hwr.client] at hfreed
      cases hactive.symm.trans hfreed

theorem newClient (h : Counted b) (hwf : b.newClient.Wf) :
    Counted b.newClient where
  wf := hwf
  count := by
    have hcount := h.count
    simp [Backend.newClient, hcount]
  client := by
    intro c cl hcl
    rcases Nat.lt_or_ge c b.clients.length with hlt | hge
    · refine h.client c cl ?_
      rwa [Backend.newClient, List.getElem?_append_left hlt] at hcl
    · rw [Backend.newClient, List.getElem?_append_right hge] at hcl
      obtain rfl := List.mem_singleton.mp (List.mem_of_getElem? hcl)
      exact ⟨rfl, fun _ hended => by cases hended⟩
  idle := by
    intro w hw hfreed
    rw [Backend.handleStatus_newClient (h.wf w hw).2] at hfreed
    exact h.idle w hw hfreed

/-- The end of a stream, and the close callback, change one client. -/
theorem setClient
    {f : Client → Client} (h : Counted b) (hwf : (b.setClient c f).Wf)
    (hstatus : ∀ cl, b.clients[c]? = some cl →
      ((f cl).status = .active ↔ cl.status = .active))
    (hcounted : ∀ cl, b.clients[c]? = some cl →
      (f cl).Counted (b.unreleased c))
    (hidle : ∀ w ∈ b.reqs, (b.setClient c f).handleStatus w.client = .freed →
      w.inFlight = 0) : Counted (b.setClient c f) where
  wf := hwf
  count := by
    refine h.count.trans (congrArg Nat.cast ?_)
    cases hcl : b.clients[c]? with
    | none =>
        rw [Backend.setClient, List.modify_eq_self]
        simpa using hcl
    | some cl =>
        have hcount := countP_modify (f := f)
          (p := fun cl => cl.status = .active) hcl
        simp only [hstatus cl hcl] at hcount
        exact (Nat.add_right_cancel hcount).symm
  client := Backend.forall_setClient (fun d cl _ hcl => h.client d cl hcl)
    hcounted
  idle := hidle

theorem step
    {a : Action} (h : Counted b) (hallowed : EndsServed b a)
    (hstep : Connections.step b a = some b') : Counted b' := by
  have hcase := step_cases h.wf hstep
  have hwf := hcase.wf h.wf
  cases hcase with
  | newClient => exact h.newClient hwf
  | nothing => exact h
  | ended c env hactive =>
      refine h.setClient hwf (fun _ _ => Iff.rfl) ?_ ?_
      · intro cl hcl
        exact ⟨(h.client c cl hcl).closes, fun _ _ => hallowed⟩
      · intro w hw hfreed
        rw [Backend.handleStatus_setClient_self
          (f := fun cl => { cl with ended := true }) fun _ => rfl] at hfreed
        exact h.idle w hw hfreed
  | created c x env wr _ hactive hcreates hwr hout =>
      refine (h.addReq hactive hwr).outcome (Backend.addReq_getElem? b wr)
        hwr.live ?_ hout
      intro hfreed
      rw [hwr.client] at hfreed
      cases hactive.symm.trans hfreed
  | written i ok env wr _ hreq hflight hout =>
      have hmem := List.mem_of_getElem? hreq
      refine h.outcome hreq ((h.wf wr hmem).1.live_of_inFlight hflight) ?_ hout
      -- the close callback waits for the writes of its client
      intro hfreed
      exact absurd (h.idle wr hmem hfreed) (Nat.ne_of_gt hflight)
  | dataReady i env wr _ hreq hlive hout =>
      exact h.outcome hreq hlive (hallowed wr hreq) hout
  | closed c hclosing hidle =>
      have hstatus : ∀ cl, b.clients[c]? = some cl → cl.status = .closing := by
        intro cl hcl
        simpa [Backend.handleStatus, hcl] using hclosing
      refine h.setClient hwf ?_ ?_ ?_
      · intro cl hcl
        simp [hstatus cl hcl]
      · intro cl hcl
        have hcloses := (h.client c cl hcl).closes
        rw [hstatus cl hcl] at hcloses
        exact ⟨hcloses, fun hfreed => by cases hfreed⟩
      · intro w hw hfreed
        by_cases hc : w.client = c
        · exact hidle w hw hc
        · refine h.idle w hw ?_
          rwa [Backend.handleStatus_setClient_ne (Ne.symm hc)] at hfreed

end Counted

/-- In every run in which each client that ends has a write request, and no
request is told of new data behind a freed handle, the count is exact. -/
theorem countExact_of_endsServed
    (b : Backend) (hreach : loopSystem.ReachableUnder EndsServed b) :
    CountExact b := by
  refine Counted.countExact (hreach.invariant ?_ ?_)
  · rintro b rfl
    exact ⟨nofun, rfl, nofun, nofun⟩
  · intro b a b' h hallowed hstep
    exact h.step hallowed hstep

/-- Two clients: one leaves while its page is loading, the other sends what
cannot be parsed and stays. -/
theorem countExact_of_endsServed_twoClients :
    ∃ b, loopSystem.ReachableUnder EndsServed b ∧
      b.clientCount = 1 ∧ b.clients.length = 2 ∧ CountExact b := by
  have hrun : loopSystem.runWhile (fun b a => decide (EndsServed b a))
      createBackend
      [.newClient, .newClient, .read 1 (.data none) cachedPage,
        .read 0 (.data (some ⟨[47], []⟩)) loadingPage,
        .read 0 .ended loadingPage, .dataReady 0 arrivedChunk,
        .written 0 false arrivedChunk, .closed 0] = some _ := rfl
  have hreach := (TransitionSystem.ReachableUnder.initial rfl).runWhile
    (fun _ _ => of_decide_eq_true) hrun
  exact ⟨_, hreach, rfl, rfl, countExact_of_endsServed _ hreach⟩

/-- A client leaves without a request, and is counted for ever. -/
theorem clientLeaves_counted :
    ∃ b, loopSystem.run createBackend
        [.newClient, .read 0 .ended cachedPage] = some b ∧
      b.clientCount = 1 ∧ ¬CountExact b := by
  refine ⟨_, rfl, rfl, fun h => ?_⟩
  exact absurd (h.ended 0 _ rfl rfl rfl) (by decide)

/-- A client with no request left whose end is reported is not closed. -/
theorem Counted.not_countExact_of_ended
    {b : Backend} {c : ℕ} (h : Counted b) (hactive : b.handleStatus c = .active)
    (hnone : b.unreleased c = 0) :
    ¬CountExact (b.setClient c fun cl => { cl with ended := true }) := by
  obtain ⟨cl, hcl, hstatus⟩ :=
    Backend.exists_of_handleStatus (b := b) (c := c) (by simp [hactive])
  intro hexact
  have hget : (b.setClient c fun cl => { cl with ended := true }).clients[c]? =
      some { cl with ended := true } := by
    simp [Backend.setClient, hcl]
  have hone := hexact.ended c _ hget rfl hnone
  have hzero := (h.client c cl hcl).closes
  rw [if_pos (hstatus.trans hactive)] at hzero
  exact absurd (hzero.symm.trans hone) (by decide)

/-- A notification after the handle was freed: the request of a page whose load
has ended is released, and closes the client again. -/
example : ∃ b, loopSystem.run createBackend
    [.newClient, .read 0 (.data (some ⟨[47], []⟩)) loadingPage,
      .read 0 (.data (some ⟨[48], []⟩)) cachedPage,
      .written 1 true cachedPage, .closed 0,
      .dataReady 0 { loadingPage with chunk := some (false, []) }] = some b ∧
    b.clientCount = -1 :=
  ⟨_, rfl, rfl⟩

end Connections
end Proxy
end OsFifthSem
