import OsFifthSem.Proxy.Connections.Model

/-!
# What a callback does to its request and its client

Whatever its lookups find, a callback that works on a write request ends in one
of three ways: it leaves the handle of the client alone, it passes the handle
to `uv_write`, or it calls `free_write_req`.  A streaming request has at most
one write under way, and none when `send_next_chunk` gets past its first test.
-/

namespace OsFifthSem
namespace Proxy
namespace Connections

open Support

/-! ## Lookups -/

/-- A bounded lookup reports `CACHE_DONE` without data, and never
`CACHE_FOUND`. -/
theorem Found.lookup_data_of_finished
    {found : Found} {offset maxSize : ℕ} (hmax : maxSize ≠ 0)
    (h : (found.lookup offset maxSize).status = .done ∨
      (found.lookup offset maxSize).status = .found) :
    (found.lookup offset maxSize).data = [] := by
  unfold Found.lookup at h ⊢
  split
  next => rfl
  next loading bytes =>
    simp only [readEntry] at h ⊢
    split_ifs at h ⊢ <;> simp_all

/-! ## Requests -/

/-- What holds of every write request between two callbacks. -/
structure WriteReq.Ok (wr : WriteReq) : Prop where
  single : wr.inFlight ≤ 1
  ended : wr.released = true → wr.inFlight = 0
  pending : wr.wasAsyncInit = true → 0 < wr.inFlight →
    wr.writePending = true
  registered : wr.didRegister = true → wr.wasAsyncInit = true

/-- A callback that has not released its request. -/
structure WriteReq.Kept (wr wr' : WriteReq) : Prop where
  client : wr'.client = wr.client
  live : wr'.released = false
  ok : wr'.Ok

/-- The request has been read, and nothing has been done for it. -/
structure WriteReq.Fresh (wr : WriteReq) (c : ℕ) : Prop where
  client : wr.client = c
  live : wr.released = false
  ok : wr.Ok

theorem WriteReq.Ok.live_of_inFlight
    {wr : WriteReq} (h : wr.Ok) (hflight : 0 < wr.inFlight) :
    wr.released = false := by
  by_contra hreleased
  have hnone := h.ended (Bool.not_eq_false _ ▸ hreleased)
  omega

theorem WriteReq.Ok.of_idle
    {wr : WriteReq} (hidle : wr.inFlight = 0)
    (hregister : wr.didRegister = false) : wr.Ok where
  single := by simp [hidle]
  ended := fun _ => hidle
  pending := fun _ hpos => absurd hidle (Nat.ne_of_gt hpos)
  registered := fun h => by simp [hregister] at h

/-- How a callback that works on a request ends. -/
inductive Outcome (b : Backend) (env : Outside) (i : ℕ) (wr : WriteReq) :
    Backend → Prop
  | kept (wr' : WriteReq) (h : wr.Kept wr') : Outcome b env i wr (b.setReq i wr')
  | wrote (wr' : WriteReq) (h : wr.Kept wr') :
      Outcome b env i wr ((b.use wr.client).setReq i wr')
  | freed (wr' : WriteReq) (h : wr.Kept wr') (hidle : wr'.inFlight = 0) :
      Outcome b env i wr (b.freeWriteReq env i wr')

theorem WriteReq.Kept.trans
    {wr wr' wr'' : WriteReq} (h : wr.Kept wr') (h' : wr'.Kept wr'') :
    wr.Kept wr'' :=
  ⟨h'.client.trans h.client, h'.live, h'.ok⟩

theorem Outcome.of_kept
    {b b' : Backend} {env : Outside} {i : ℕ} {wr wr' : WriteReq}
    (hkept : wr.Kept wr') (h : Outcome b env i wr' b') :
    Outcome b env i wr b' := by
  cases h with
  | kept wr'' h => exact .kept wr'' (hkept.trans h)
  | wrote wr'' h =>
      rw [hkept.client]
      exact .wrote wr'' (hkept.trans h)
  | freed wr'' h hidle => exact .freed wr'' (hkept.trans h) hidle

namespace Backend

variable {b : Backend} {env : Outside} {i : ℕ} {wr : WriteReq}

@[simp] theorem setReq_setReq (b : Backend) (i : ℕ) (wr wr' : WriteReq) :
    (b.setReq i wr).setReq i wr' = b.setReq i wr' := by
  simp [setReq]

theorem setReq_self (h : b.reqs[i]? = some wr) : b.setReq i wr = b := by
  obtain ⟨hlt, rfl⟩ := List.getElem?_eq_some_iff.mp h
  simp [setReq]

theorem uvWrite_refused (h : (b.uvWrite env i wr).1 = false) :
    (b.uvWrite env i wr).2 = (b.use wr.client).setReq i wr := by
  unfold uvWrite at h ⊢
  dsimp only at h ⊢
  rw [h]
  rfl

/-- A write of a request that has none under way. -/
theorem uvWrite_outcome
    (hok : wr.Ok) (hlive : wr.released = false) (hidle : wr.inFlight = 0)
    (hpending : wr.wasAsyncInit = true → wr.writePending = true) :
    Outcome b env i wr (b.uvWrite env i wr).2 := by
  unfold uvWrite
  dsimp only
  split
  next =>
    refine .wrote _ ⟨rfl, hlive, ?_⟩
    refine ⟨?_, ?_, fun hasync _ => hpending hasync, hok.registered⟩
    · simp [hidle]
    · simp [hlive]
  next => exact .wrote wr ⟨rfl, hlive, hok⟩

/-- What holds of `wr` when `send_next_chunk` is called for it. -/
structure Sending (wr : WriteReq) : Prop where
  ok : wr.Ok
  live : wr.released = false
  async : wr.wasAsyncInit = true

theorem Sending.kept (h : Sending wr) : wr.Kept wr :=
  ⟨rfl, h.live, h.ok⟩

theorem Sending.registerOnce (h : Sending wr) :
    wr.Kept (registerOnce wr) := by
  unfold Backend.registerOnce
  split
  next => exact h.kept
  next => exact ⟨rfl, h.live, h.ok.single, h.ok.ended, h.ok.pending,
      fun _ => h.async⟩

theorem sendChunk_outcome
    {again : Backend → WriteReq → Backend} {chunk recheck : Found}
    (hwr : Sending wr)
    (hagain : ∀ wr', Sending wr' → wr.Kept wr' →
      Outcome b env i wr' (again b wr')) :
    Outcome b env i wr (sendChunk again chunk recheck env i b wr) := by
  unfold sendChunk
  split
  next => exact .kept wr hwr.kept
  next hpending =>
    have hidle : wr.inFlight = 0 := by
      refine Nat.eq_zero_of_not_pos fun hpos => hpending ?_
      exact hwr.ok.pending hwr.async hpos
    have hfree : Outcome b env i wr (b.freeWriteReq env i wr) :=
      .freed wr hwr.kept hidle
    have hregister : Outcome b env i wr (b.setReq i (registerOnce wr)) :=
      .kept _ hwr.registerOnce
    have hdata := @Found.lookup_data_of_finished chunk wr.lastOffset
      Streaming.packetSize (by decide)
    dsimp only
    split
    next hstatus =>
      rw [if_neg (not_not.mpr (hdata (Or.inl hstatus)))]
      split
      · exact hfree
      · exact hregister
    next hstatus =>
      rw [if_neg (not_not.mpr (hdata (Or.inr hstatus)))]
      split
      · exact hfree
      · exact hregister
    next => exact hregister
    next =>
      split
      next =>
        -- the chunk is sent, and `write_pending` is set unless it is refused
        have hsent : ∀ pending, wr.Kept { wr with
            lastOffset := wr.lastOffset +
              (chunk.lookup wr.lastOffset Streaming.packetSize).data.length
            writePending := pending } := fun pending =>
          ⟨rfl, hwr.live, hwr.ok.single, hwr.ok.ended,
            fun _ hpos => absurd hidle (Nat.ne_of_gt hpos), hwr.ok.registered⟩
        split
        next =>
          exact (uvWrite_outcome (hsent true).ok hwr.live hidle
            fun _ => rfl).of_kept (hsent true)
        next hrefused =>
          rw [uvWrite_refused (Bool.not_eq_true _ ▸ hrefused), setReq_setReq]
          exact .wrote _ (hsent false)
      next => exact .kept wr hwr.kept
    next =>
      split
      next => exact .kept wr hwr.kept
      next =>
        have hkept : wr.Kept { wr with didRegister := true } :=
          ⟨rfl, hwr.live, hwr.ok.single, hwr.ok.ended, hwr.ok.pending,
            fun _ => hwr.async⟩
        split
        next =>
          refine (hagain _ ⟨hkept.ok, hkept.live, hwr.async⟩ hkept).of_kept
            hkept
        next => exact .kept _ hkept
    next => exact hfree

theorem sendChunk_congr
    {again again' : Backend → WriteReq → Backend} {chunk recheck : Found}
    (h : ∀ wr, wr.didRegister = true → again b wr = again' b wr) :
    sendChunk again chunk recheck env i b wr =
      sendChunk again' chunk recheck env i b wr := by
  have hagain := h { wr with didRegister := true } rfl
  simp only [sendChunk, hagain]

theorem sendChunk_of_didRegister
    {again again' : Backend → WriteReq → Backend}
    {chunk recheck recheck' : Found} (h : wr.didRegister = true) :
    sendChunk again chunk recheck env i b wr =
      sendChunk again' chunk recheck' env i b wr := by
  simp [sendChunk, h]

/-- The call of `send_next_chunk` in itself neither looks up a second time nor
calls itself: what it would do then does not matter. -/
theorem sendNextChunk_eq
    (again : Backend → WriteReq → Backend) (recheck : Found) :
    b.sendNextChunk env i wr =
      sendChunk (sendChunk again env.rechecked recheck env i)
        env.chunk env.recheck env i b wr :=
  sendChunk_congr fun _ hregistered => sendChunk_of_didRegister hregistered

theorem sendNextChunk_outcome (hwr : Sending wr) :
    Outcome b env i wr (b.sendNextChunk env i wr) :=
  sendChunk_outcome hwr fun _ hwr' _ =>
    sendChunk_outcome hwr' fun _ hwr'' _ => .kept _ hwr''.kept

theorem onDataReady_outcome
    (hreq : b.reqs[i]? = some wr) (hwr : Sending wr) :
    Outcome b env i wr (b.onDataReady env i wr) := by
  unfold onDataReady
  split
  next =>
    have hkept : Outcome b env i wr (b.setReq i wr) := .kept wr hwr.kept
    rwa [setReq_self hreq] at hkept
  next => exact sendNextChunk_outcome hwr

theorem onWritten_outcome
    (hok : wr.Ok) (hflight : 0 < wr.inFlight) (ok : Bool) :
    Outcome b env i wr (b.onWritten env i wr ok) := by
  have hidle : wr.inFlight - 1 = 0 := Nat.sub_eq_zero_of_le hok.single
  have hlive := hok.live_of_inFlight hflight
  -- the request without the write that has completed
  have hdone : ∀ pending,
      wr.Kept { wr with inFlight := wr.inFlight - 1, writePending := pending } :=
    fun pending => ⟨rfl, hlive, by simp [hidle], fun _ => hidle,
      fun _ hpos => absurd hidle (Nat.ne_of_gt hpos), hok.registered⟩
  unfold onWritten
  dsimp only
  split
  next hasync =>
    unfold echoWriteBufferLoad
    dsimp only
    split
    next => exact .freed _ (hdone false) hidle
    next =>
      split
      next =>
        exact (sendNextChunk_outcome ⟨(hdone false).ok, hlive, hasync⟩).of_kept
          (hdone false)
      next => exact .freed _ (hdone false) hidle
  next =>
    exact .freed _ (hdone wr.writePending) hidle

theorem startStreaming_outcome (b : Backend) (env : Outside) (c : ℕ)
    (key : CString) :
    ∃ wr, wr.Fresh c ∧
      Outcome (b.addReq wr) env b.reqs.length wr (b.startStreaming env c key) :=
  ⟨_, ⟨rfl, rfl, .of_idle rfl rfl⟩,
    sendNextChunk_outcome ⟨.of_idle rfl rfl, rfl, rfl⟩⟩

end Backend

/-! ## Steps of the loop -/

/-- `read_client` creates a write request for what it has parsed. -/
def Outside.creates (env : Outside) : Bool :=
  match (env.cached.lookup 0 0).status with
  | .found => true
  | .notFound => env.launches
  | .newLoaded => true
  | .newNotLoaded => true
  | .done => false
  | .error => false

/-- What a step of the loop does. -/
inductive StepCase (b : Backend) : Action → Backend → Prop
  | newClient : StepCase b .newClient b.newClient
  | nothing (c : ℕ) (event : ReadEvent) (env : Outside)
      (hevent : event ≠ .ended) : StepCase b (.read c event env) b
  | ended (c : ℕ) (env : Outside) (hactive : b.handleStatus c = .active) :
      StepCase b (.read c .ended env)
        (b.setClient c fun cl => { cl with ended := true })
  | created (c : ℕ) (x : HttpReq) (env : Outside) (wr : WriteReq)
      (b' : Backend) (hactive : b.handleStatus c = .active)
      (hcreates : env.creates = true) (hwr : wr.Fresh c)
      (h : Outcome (b.addReq wr) env b.reqs.length wr b') :
      StepCase b (.read c (.data (some x)) env) b'
  | written (i : ℕ) (ok : Bool) (env : Outside) (wr : WriteReq)
      (b' : Backend) (hreq : b.reqs[i]? = some wr) (hflight : 0 < wr.inFlight)
      (h : Outcome b env i wr b') : StepCase b (.written i ok env) b'
  | dataReady (i : ℕ) (env : Outside) (wr : WriteReq) (b' : Backend)
      (hreq : b.reqs[i]? = some wr) (hlive : wr.released = false)
      (h : Outcome b env i wr b') : StepCase b (.dataReady i env) b'
  | closed (c : ℕ) (hclosing : b.handleStatus c = .closing)
      (hidle : ∀ wr ∈ b.reqs, wr.client = c → wr.inFlight = 0) :
      StepCase b (.closed c)
        (b.setClient c fun cl => { cl with status := .freed })

theorem Backend.readClient_cases
    {b b' : Backend} {env : Outside} {c : ℕ} {event : ReadEvent}
    (hactive : b.handleStatus c = .active)
    (h : b.readClient env c event = some b') :
    StepCase b (.read c event env) b' := by
  cases event with
  | again =>
      obtain rfl := Option.some.inj h
      exact .nothing c _ env nofun
  | ended =>
      obtain rfl := Option.some.inj h
      exact .ended c env hactive
  | data parsed =>
      cases parsed with
      | none =>
          obtain rfl := Option.some.inj h
          exact .nothing c _ env nofun
      | some x =>
          obtain ⟨key, -, rfl⟩ := Option.map_eq_some_iff.mp h
          obtain ⟨wr, hwr, hstream⟩ := b.startStreaming_outcome env c key
          have hcreated : env.creates = true →
              StepCase b (.read c (.data (some x)) env)
                (b.startStreaming env c key) := fun hcreates =>
            .created c x env wr _ hactive hcreates hwr hstream
          split
          next hstatus =>
            refine .created c x env _ _ hactive ?_
              ⟨rfl, rfl, .of_idle rfl rfl⟩
              (Backend.uvWrite_outcome (.of_idle rfl rfl) rfl rfl ?_)
            · simp [Outside.creates, hstatus]
            · intro hasync
              cases hasync
          next hstatus =>
            split
            next hlaunch =>
              exact hcreated (by simp [Outside.creates, hstatus, hlaunch])
            next => exact .nothing c _ env nofun
          next hstatus => exact hcreated (by simp [Outside.creates, hstatus])
          next hstatus => exact hcreated (by simp [Outside.creates, hstatus])
          next => exact .nothing c _ env nofun
          next => exact .nothing c _ env nofun

/-- Every request of the backend is as it should be between two callbacks. -/
def Backend.Wf (b : Backend) : Prop :=
  ∀ wr ∈ b.reqs, wr.Ok ∧ wr.client < b.clients.length

theorem step_cases
    {b b' : Backend} {a : Action} (hwf : b.Wf) (h : step b a = some b') :
    StepCase b a b' := by
  cases a with
  | newClient =>
      obtain rfl := Option.some.inj h
      exact .newClient
  | read c event env =>
      obtain ⟨cl, hcl, h⟩ := Option.bind_eq_some_iff.mp h
      obtain ⟨⟨hactive, -⟩, h⟩ := Option.ite_none_right_eq_some.mp h
      refine Backend.readClient_cases ?_ h
      simp [Backend.handleStatus, hcl, hactive]
  | written i ok env =>
      obtain ⟨wr, hreq, h⟩ := Option.bind_eq_some_iff.mp h
      obtain ⟨hflight, h⟩ := Option.ite_none_right_eq_some.mp h
      obtain rfl := Option.some.inj h
      have hok := (hwf wr (List.mem_of_getElem? hreq)).1
      exact .written i ok env wr _ hreq hflight
        (Backend.onWritten_outcome hok hflight ok)
  | dataReady i env =>
      obtain ⟨wr, hreq, h⟩ := Option.bind_eq_some_iff.mp h
      obtain ⟨⟨hregister, hlive⟩, h⟩ := Option.ite_none_right_eq_some.mp h
      obtain rfl := Option.some.inj h
      have hok := (hwf wr (List.mem_of_getElem? hreq)).1
      exact .dataReady i env wr _ hreq hlive
        (Backend.onDataReady_outcome hreq
          ⟨hok, hlive, hok.registered hregister⟩)
  | closed c =>
      obtain ⟨⟨hclosing, hidle⟩, h⟩ := Option.ite_none_right_eq_some.mp h
      obtain rfl := Option.some.inj h
      exact .closed c hclosing hidle

/-! ## Counting -/

/-- Changing one element changes a count by what it was and what it becomes. -/
theorem countP_modify
    {α : Type*} {p : α → Bool} {f : α → α} {l : List α} {i : ℕ} {a : α}
    (h : l[i]? = some a) :
    (l.modify i f).countP p + (if p a then 1 else 0) =
      l.countP p + (if p (f a) then 1 else 0) := by
  induction l generalizing i with
  | nil => simp at h
  | cons x l ih =>
      cases i with
      | zero =>
          obtain rfl : x = a := by simpa using h
          simp only [List.modify_zero_cons, List.countP_cons]
          omega
      | succ i =>
          have hrest := ih (by simpa using h)
          simp only [List.modify_succ_cons, List.countP_cons]
          omega

namespace Backend

variable {b : Backend} {env : Outside} {i c d : ℕ} {wr wr' : WriteReq}

theorem unreleased_pos_iff :
    0 < b.unreleased c ↔
      ∃ wr ∈ b.reqs, wr.client = c ∧ wr.released = false := by
  simp [unreleased]

theorem unreleased_setReq
    (hreq : b.reqs[i]? = some wr) (hclient : wr'.client = wr.client)
    (hlive : wr'.released = wr.released) (c : ℕ) :
    (b.setReq i wr').unreleased c = b.unreleased c := by
  have hcount := countP_modify (f := fun _ => wr')
    (p := fun wr => wr.client = c ∧ wr.released = false) hreq
  simpa [unreleased, setReq, List.set_eq_modify, hclient, hlive] using hcount

theorem unreleased_release
    (wr' : WriteReq) (hreq : b.reqs[i]? = some wr)
    (hlive : wr.released = false) (hreleased : wr'.released = true) (c : ℕ) :
    (b.setReq i wr').unreleased c + (if wr.client = c then 1 else 0) =
      b.unreleased c := by
  have hcount := countP_modify (f := fun _ => wr')
    (p := fun wr => wr.client = c ∧ wr.released = false) hreq
  simpa [unreleased, setReq, List.set_eq_modify, hlive, hreleased] using hcount

theorem unreleased_addReq (hwr : wr.Fresh c) (d : ℕ) :
    (b.addReq wr).unreleased d =
      b.unreleased d + (if c = d then 1 else 0) := by
  simp [unreleased, addReq, hwr.client, hwr.live, List.countP_singleton]

theorem handleStatus_setClient (f : Client → Client) :
    (b.setClient c f).handleStatus d =
      if c = d then b.clients[d]?.elim .freed fun cl => (f cl).status
      else b.handleStatus d := by
  simp only [handleStatus, setClient, List.getElem?_modify]
  split
  next => cases b.clients[d]? <;> rfl
  next => cases b.clients[d]? <;> rfl

theorem handleStatus_setClient_ne {f : Client → Client} (h : c ≠ d) :
    (b.setClient c f).handleStatus d = b.handleStatus d := by
  rw [handleStatus_setClient, if_neg h]

theorem handleStatus_setClient_self
    {f : Client → Client} (h : ∀ cl, (f cl).status = cl.status) :
    (b.setClient c f).handleStatus d = b.handleStatus d := by
  rw [handleStatus_setClient]
  split
  · simp [handleStatus, h]
  · rfl

theorem handleStatus_newClient (h : c < b.clients.length) :
    b.newClient.handleStatus c = b.handleStatus c := by
  simp [handleStatus, newClient, List.getElem?_append_left h]

theorem lt_of_handleStatus (h : b.handleStatus c ≠ .freed) :
    c < b.clients.length := by
  by_contra hge
  apply h
  simp [handleStatus, List.getElem?_eq_none (Nat.le_of_not_lt hge)]

theorem exists_of_handleStatus (h : b.handleStatus c ≠ .freed) :
    ∃ cl, b.clients[c]? = some cl ∧ cl.status = b.handleStatus c := by
  have hlt := lt_of_handleStatus h
  refine ⟨b.clients[c], List.getElem?_eq_getElem hlt, ?_⟩
  simp [handleStatus, List.getElem?_eq_getElem hlt]

theorem handleStatus_closeClient (h : b.handleStatus c = .active) :
    (b.closeClient c).handleStatus c = .closing := by
  obtain ⟨cl, hcl, -⟩ := exists_of_handleStatus (b := b) (c := c) (by simp [h])
  refine (handleStatus_setClient _).trans ?_
  rw [if_pos rfl, hcl]
  rfl

/-! ## The requests after a step -/

@[simp] theorem freeWriteReq_reqs :
    (b.freeWriteReq env i wr).reqs =
      b.reqs.set i { wr with released := true } := by
  unfold freeWriteReq
  dsimp only
  split <;> rfl

@[simp] theorem freeWriteReq_length :
    (b.freeWriteReq env i wr).clients.length = b.clients.length := by
  unfold freeWriteReq
  dsimp only
  split
  · rfl
  · simp [closeClient, setClient, setReq, use]

/-- The first request to be released closes the client. -/
theorem freeWriteReq_active (env : Outside) (i : ℕ)
    (h : b.handleStatus wr.client = .active) :
    b.freeWriteReq env i wr =
      ((b.use wr.client).setReq i { wr with released := true }).closeClient
        wr.client := by
  simp [freeWriteReq, uvIsClosing, h]

theorem freeWriteReq_unreleased (b : Backend) (env : Outside) (i : ℕ)
    (wr : WriteReq) (d : ℕ) :
    (b.freeWriteReq env i wr).unreleased d =
      (b.setReq i { wr with released := true }).unreleased d := by
  simp [unreleased, setReq]

theorem Wf.set
    {b' : Backend} (hwf : b.Wf) (hreqs : b'.reqs = b.reqs.set i wr')
    (hlength : b'.clients.length = b.clients.length) (hok : wr'.Ok)
    (hclient : wr'.client < b.clients.length) : b'.Wf := by
  intro w hw
  rw [hreqs] at hw
  rw [hlength]
  rcases List.mem_or_eq_of_mem_set hw with hw | rfl
  · exact hwf w hw
  · exact ⟨hok, hclient⟩

theorem Wf.outcome
    {b' : Backend} (hwf : b.Wf) (hclient : wr.client < b.clients.length)
    (h : Outcome b env i wr b') : b'.Wf := by
  cases h with
  | kept wr' h => exact hwf.set rfl rfl h.ok (h.client ▸ hclient)
  | wrote wr' h => exact hwf.set rfl rfl h.ok (h.client ▸ hclient)
  | freed wr' h hidle =>
      refine hwf.set freeWriteReq_reqs freeWriteReq_length ?_
        (h.client ▸ hclient)
      exact ⟨h.ok.single, fun _ => hidle, h.ok.pending, h.ok.registered⟩

theorem Wf.addReq (hwf : b.Wf) (hwr : wr.Fresh c)
    (hclient : c < b.clients.length) : (b.addReq wr).Wf := by
  intro w hw
  rcases List.mem_append.mp hw with hw | hw
  · exact hwf w hw
  · rw [List.mem_singleton.mp hw]
    exact ⟨hwr.ok, hwr.client ▸ hclient⟩

theorem addReq_getElem? (b : Backend) (wr : WriteReq) :
    (b.addReq wr).reqs[b.reqs.length]? = some wr := by
  simp [addReq]

end Backend

theorem StepCase.wf
    {b b' : Backend} {a : Action} (hwf : b.Wf) (h : StepCase b a b') :
    b'.Wf := by
  cases h with
  | newClient =>
      intro wr hwr
      have hold := hwf wr hwr
      exact ⟨hold.1, by simpa [Backend.newClient] using Nat.lt_succ_of_lt hold.2⟩
  | nothing => exact hwf
  | ended c env hactive =>
      intro wr hwr
      simpa [Backend.setClient] using hwf wr hwr
  | created c x env wr _ hactive hcreates hwr h =>
      have hlt : c < b.clients.length :=
        Backend.lt_of_handleStatus (by simp [hactive])
      exact (hwf.addReq hwr hlt).outcome (hwr.client ▸ hlt) h
  | written i ok env wr _ hreq hflight h =>
      exact hwf.outcome (hwf wr (List.mem_of_getElem? hreq)).2 h
  | dataReady i env wr _ hreq hlive h =>
      exact hwf.outcome (hwf wr (List.mem_of_getElem? hreq)).2 h
  | closed c hclosing hidle =>
      intro wr hwr
      simpa [Backend.setClient] using hwf wr hwr

end Connections
end Proxy
end OsFifthSem
