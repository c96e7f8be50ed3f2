import OsFifthSem.Proxy.Dispatch.Master

/-!
# Who holds a handle of a connection

The master accepts a connection into a `uv_tcp_t` of its own loop and writes it
into the pipe of a backend.  `uv_write2` passes a duplicate of the descriptor,
and the backend accepts it into a second `uv_tcp_t`; the connection stays open
until both handles are closed.

The backend closes its handle in `free_write_req`.  The master never closes
its own: `on_client_sent_cb` frees the write request only, and a failed
`send_client_to_backend` frees nothing but that.
-/

namespace OsFifthSem
namespace Proxy
namespace Dispatch

open Support

/-- The master, its backends, and the handles in the loop of the master.  The
handles of the backends are their `clients`.  `sentCalled`, `sendFailed` and
`backendClosed` are history variables. -/
structure Owners where
  master : Master
  /-- The connections whose handle in the loop of the master is open. -/
  masterOpen : List ℕ
  /-- The writes into the pipe of a backend that are not reported yet. -/
  writing : List (ℕ × ℕ)
  /-- The connections for which `on_client_sent_cb` was called. -/
  sentCalled : List ℕ
  /-- The connections for which `send_client_to_backend` failed. -/
  sendFailed : List ℕ
  /-- The connections whose handle a backend has closed. -/
  backendClosed : List ℕ
  deriving DecidableEq, Repr

inductive OwnersAction
  /-- A step of the master or of a backend. -/
  | step (a : MasterAction)
  /-- The first write into the pipe of backend `i` ends, and libuv calls
  `on_client_sent_cb`. -/
  | clientSent (i : ℕ) (statusOk : Bool)
  deriving DecidableEq, Repr

namespace Owners

/-- `uv_accept` in `on_new_connection` opens a handle. -/
def accepted (s : Owners) (ok : Bool) : Owners :=
  match s.master.pc, ok with
  | .accept _, true => { s with masterOpen := s.master.accepted :: s.masterOpen }
  | _, _ => s

/-- The end of `send_client_to_backend`, which leaves the handle alone. -/
def sent (s : Owners) (ok : Bool) : Owners :=
  match s.master.pc with
  | .send i client =>
      if ok then { s with writing := s.writing ++ [(i, client)] }
      else { s with sendFailed := client :: s.sendFailed }
  | _ => s

/-- `uv_close` in `free_write_req`. -/
def closed (s : Owners) (i client : ℕ) : Owners :=
  if ∃ b ∈ s.master.backends[i]?, client ∈ b.clients then
    { s with backendClosed := client :: s.backendClosed }
  else s

/-- What a step does to the handles. -/
def note (s : Owners) : MasterAction → Owners
  | .accept ok => s.accepted ok
  | .send ok => s.sent ok
  | .freeWriteReq i client => s.closed i client
  | _ => s

/-- `on_client_sent_cb` for the write `w`, which only frees the request. -/
def sentCb (s : Owners) (w : ℕ × ℕ) : Owners :=
  { s with
    writing := s.writing.erase w
    sentCalled := w.2 :: s.sentCalled }

end Owners

/-- One step.  When a write has failed, its descriptor never reaches the
backend. -/
def ownersStep (s : Owners) : OwnersAction → Option Owners
  | .step (.clientLost _ _) => none
  | .step a => (masterStep s.master a).map fun m => { s.note a with master := m }
  | .clientSent i statusOk =>
      (s.writing.find? fun w => w.1 == i).bind fun w =>
        if statusOk then some (s.sentCb w)
        else
          s.master.backends[i]?.bind fun b =>
            if w.2 ∈ b.sent then
              (masterStep s.master (.clientLost i (b.sent.idxOf w.2))).map
                fun m => { s.sentCb w with master := m }
            else none

def startOwners : Owners where
  master := startMaster
  masterOpen := []
  writing := []
  sentCalled := []
  sendFailed := []
  backendClosed := []

def ownersSystem : TransitionSystem Owners OwnersAction where
  Initial := fun s => s = startOwners
  step := ownersStep

namespace Owners

/-- Some loop has an open handle of the connection. -/
def OpenSomewhere (s : Owners) (client : ℕ) : Prop :=
  client ∈ s.masterOpen ∨ ∃ b ∈ s.master.backends, client ∈ b.clients

/-- Once the hand-over of a connection has ended, the master has no open handle
of it; after a failed one nobody has, and none is left when the backend has
closed its own. -/
structure HandedOver (s : Owners) : Prop where
  sent : ∀ c ∈ s.sentCalled, c ∉ s.masterOpen
  failed : ∀ c ∈ s.sendFailed, ¬s.OpenSomewhere c
  closed : ∀ c ∈ s.sentCalled, c ∈ s.backendClosed → ¬s.OpenSomewhere c

end Owners

/-- The step ends a hand-over: `on_client_sent_cb` is called, or
`send_client_to_backend` fails. -/
def OwnersAction.EndsHandOver : OwnersAction → Bool
  | .clientSent _ _ => true
  | .step (.send ok) => !ok
  | .step _ => false

/-! ## The master keeps its handles -/

section MasterSteps

variable {s s' : Master} {a : MasterAction}

theorem addBackend_quiet
    {result : AddResult} (hstep : s.addBackend result = some s') :
    s'.accepted = s.accepted ∧ ∀ i c, s'.pc ≠ .send i c := by
  have hlast : s.returnLast.accepted = s.accepted ∧
      ∀ i c, s.returnLast.pc ≠ .send i c := by
    unfold Master.returnLast
    split_ifs <;> exact ⟨rfl, nofun⟩
  unfold Master.addBackend at hstep
  split at hstep
  · obtain rfl := Option.some.inj hstep
    exact ⟨rfl, nofun⟩
  · cases result with
    | notCreated =>
        obtain rfl := Option.some.inj hstep
        exact hlast
    | noThread =>
        simp only at hstep
        split at hstep
        · cases hstep
        · obtain rfl := Option.some.inj hstep
          exact hlast
    | created =>
        simp only at hstep
        split at hstep
        · cases hstep
        · obtain rfl := Option.some.inj hstep
          exact ⟨rfl, nofun⟩

/-- Apart from `uv_accept`, no step accepts a connection or goes on to send
one. -/
theorem masterStep_quiet
    (hstep : masterStep s a = some s') (ha : ∀ ok, a ≠ .accept ok) :
    s'.accepted = s.accepted ∧
      ∀ i c, s'.pc = .send i c → s.pc = .send i c := by
  cases a with
  | connection statusOk =>
      simp only [masterStep] at hstep
      split at hstep
      · obtain rfl := Option.some.inj hstep
        cases statusOk <;> exact ⟨rfl, nofun⟩
      · cases hstep
  | scan =>
      simp only [masterStep] at hstep
      split at hstep
      · split at hstep
        · obtain rfl := Option.some.inj hstep
          refine ⟨rfl, fun i c hpc => ?_⟩
          dsimp only at hpc
          split at hpc <;> cases hpc
        · cases hstep
      · cases hstep
  | addBackend result =>
      simp only [masterStep] at hstep
      split at hstep
      · split at hstep
        · obtain ⟨hacc, hpc⟩ := addBackend_quiet hstep
          exact ⟨hacc, fun i c h => absurd h (hpc i c)⟩
        · cases hstep
      · cases hstep
  | accept ok => exact absurd rfl (ha ok)
  | send ok =>
      simp only [masterStep] at hstep
      split at hstep
      · obtain rfl := Option.some.inj hstep
        exact ⟨rfl, nofun⟩
      · cases hstep
  | clientLost i position =>
      obtain rfl := Option.some.inj hstep
      exact ⟨rfl, fun _ _ h => h⟩
  | readPipe i event =>
      obtain ⟨b, -, rfl⟩ := Option.map_eq_some_iff.mp hstep
      exact ⟨rfl, fun _ _ h => h⟩
  | freeWriteReq i client =>
      obtain rfl := Option.some.inj hstep
      exact ⟨rfl, fun _ _ h => h⟩

end MasterSteps

namespace Owners

/-- The master still has an open handle of every connection it has accepted. -/
structure Kept (s : Owners) : Prop where
  accepted : ∀ c < s.master.accepted, c ∈ s.masterOpen
  sending : ∀ i c, s.master.pc = .send i c → c < s.master.accepted
  writing : ∀ w ∈ s.writing, w.2 < s.master.accepted
  sentCalled : ∀ c ∈ s.sentCalled, c < s.master.accepted
  sendFailed : ∀ c ∈ s.sendFailed, c < s.master.accepted

variable {s t : Owners}

/-- Steps that neither accept a connection nor send one. -/
theorem Kept.of_same
    (hs : s.Kept) (hopen : t.masterOpen = s.masterOpen)
    (haccepted : t.master.accepted = s.master.accepted)
    (hpc : ∀ i c, t.master.pc = .send i c → s.master.pc = .send i c)
    (hwriting : t.writing = s.writing) (hsent : t.sentCalled = s.sentCalled)
    (hfailed : t.sendFailed = s.sendFailed) : t.Kept where
  accepted := by
    rw [haccepted, hopen]
    exact hs.accepted
  sending := by
    intro i c h
    rw [haccepted]
    exact hs.sending i c (hpc i c h)
  writing := by
    rw [hwriting, haccepted]
    exact hs.writing
  sentCalled := by
    rw [hsent, haccepted]
    exact hs.sentCalled
  sendFailed := by
    rw [hfailed, haccepted]
    exact hs.sendFailed

theorem Kept.accept
    (hs : s.Kept) {ok : Bool} {m : Master}
    (hstep : masterStep s.master (.accept ok) = some m) :
    { s.accepted ok with master := m }.Kept := by
  simp only [masterStep] at hstep
  split at hstep
  next i hpc =>
    obtain rfl := Option.some.inj hstep
    cases ok with
    | false =>
        simp only [Owners.accepted, hpc]
        exact hs.of_same rfl rfl nofun rfl rfl rfl
    | true =>
        have hlt : ∀ c, c < s.master.accepted → c < s.master.accepted + 1 :=
          fun c hc => Nat.lt_succ_of_lt hc
        simp only [Owners.accepted, hpc]
        refine ⟨?_, ?_, fun w hw => hlt _ (hs.writing w hw),
          fun c hc => hlt _ (hs.sentCalled c hc),
          fun c hc => hlt _ (hs.sendFailed c hc)⟩
        · intro c hc
          rcases Nat.lt_succ_iff_lt_or_eq.mp hc with hlt | rfl
          · exact List.mem_cons_of_mem _ (hs.accepted c hlt)
          · exact List.mem_cons_self
        · intro j c hsend
          cases hsend
          exact Nat.lt_succ_self _
  next => cases hstep

theorem Kept.send
    (hs : s.Kept) {ok : Bool} {m : Master}
    (hstep : masterStep s.master (.send ok) = some m) :
    { s.sent ok with master := m }.Kept := by
  obtain ⟨hacc, hquiet⟩ := masterStep_quiet hstep nofun
  simp only [masterStep] at hstep
  split at hstep
  next i client hpc =>
    obtain rfl := Option.some.inj hstep
    have hclient := hs.sending i client hpc
    simp only [Owners.sent, hpc]
    cases ok with
    | true =>
        refine ⟨hs.accepted, nofun, ?_, hs.sentCalled, hs.sendFailed⟩
        intro w hw
        rcases List.mem_append.mp hw with hw | hw
        · exact hs.writing w hw
        · rw [List.mem_singleton.mp hw]
          exact hclient
    | false =>
        refine ⟨hs.accepted, nofun, hs.writing, hs.sentCalled, ?_⟩
        intro c hc
        rcases List.mem_cons.mp hc with rfl | hc
        · exact hclient
        · exact hs.sendFailed c hc
  next => cases hstep

theorem Kept.sentCb
    (hs : s.Kept) {w : ℕ × ℕ} (hw : w ∈ s.writing) : (s.sentCb w).Kept where
  accepted := hs.accepted
  sending := hs.sending
  writing := fun w' hw' => hs.writing w' (List.mem_of_mem_erase hw')
  sentCalled := by
    intro c hc
    rcases List.mem_cons.mp hc with rfl | hc
    · exact hs.writing w hw
    · exact hs.sentCalled c hc
  sendFailed := hs.sendFailed

/-- The other steps of the master and the backends. -/
theorem Kept.quiet
    (hs : s.Kept) {a : MasterAction} {m : Master}
    (hstep : masterStep s.master a = some m) (ha : ∀ ok, a ≠ .accept ok) :
    { s with master := m }.Kept := by
  obtain ⟨hacc, hquiet⟩ := masterStep_quiet hstep ha
  exact hs.of_same rfl hacc hquiet rfl rfl rfl

theorem closed_master (s : Owners) (i client : ℕ) :
    (s.closed i client).master = s.master := by
  unfold Owners.closed
  split <;> rfl

theorem Kept.closed
    (hs : s.Kept) (i client : ℕ) : (s.closed i client).Kept := by
  unfold Owners.closed
  split
  · exact hs.of_same rfl rfl (fun _ _ h => h) rfl rfl rfl
  · exact hs

end Owners

/-- What a step can do: report a write, accept a connection, send one, or
leave the handles of the master and the writes alone. -/
theorem ownersStep_cases
    {s t : Owners} {a : OwnersAction} (hstep : ownersStep s a = some t) :
    (∃ i ok w, a = .clientSent i ok ∧ w ∈ s.writing ∧
      (t = s.sentCb w ∨ ∃ position m,
        masterStep s.master (.clientLost i position) = some m ∧
        t = { s.sentCb w with master := m })) ∨
    (∃ ok m, a = .step (.accept ok) ∧
      masterStep s.master (.accept ok) = some m ∧
      t = { s.accepted ok with master := m }) ∨
    (∃ ok m, a = .step (.send ok) ∧ masterStep s.master (.send ok) = some m ∧
      t = { s.sent ok with master := m }) ∨
    (∃ b m o, a = .step b ∧ (∀ ok, b ≠ .accept ok) ∧ (∀ ok, b ≠ .send ok) ∧
      masterStep s.master b = some m ∧ (o = s ∨ ∃ i c, o = s.closed i c) ∧
      t = { o with master := m }) := by
  cases a with
  | clientSent i statusOk =>
      refine Or.inl ⟨i, statusOk, ?_⟩
      obtain ⟨w, hfind, hstep⟩ := Option.bind_eq_some_iff.mp hstep
      refine ⟨w, rfl, List.mem_of_find?_eq_some hfind, ?_⟩
      split at hstep
      · exact Or.inl (Option.some.inj hstep).symm
      · obtain ⟨b, -, hstep⟩ := Option.bind_eq_some_iff.mp hstep
        obtain ⟨-, hstep⟩ := Option.ite_none_right_eq_some.mp hstep
        obtain ⟨m, hm, rfl⟩ := Option.map_eq_some_iff.mp hstep
        exact Or.inr ⟨_, m, hm, rfl⟩
  | step b =>
      have hother : ∀ o, (∀ ok, b ≠ .accept ok) → (∀ ok, b ≠ .send ok) →
          (o = s ∨ ∃ i c, o = s.closed i c) →
          (masterStep s.master b).map (fun m => { o with master := m }) =
            some t →
          ∃ b' m o, OwnersAction.step b = .step b' ∧
            (∀ ok, b' ≠ .accept ok) ∧ (∀ ok, b' ≠ .send ok) ∧
            masterStep s.master b' = some m ∧
            (o = s ∨ ∃ i c, o = s.closed i c) ∧
            t = { o with master := m } := by
        intro o haccept hsend ho hmap
        obtain ⟨m, hm, rfl⟩ := Option.map_eq_some_iff.mp hmap
        exact ⟨b, m, o, rfl, haccept, hsend, hm, ho, rfl⟩
      cases b with
      | clientLost i position => cases hstep
      | accept ok =>
          obtain ⟨m, hm, rfl⟩ := Option.map_eq_some_iff.mp hstep
          exact Or.inr (Or.inl ⟨ok, m, rfl, hm, rfl⟩)
      | send ok =>
          obtain ⟨m, hm, rfl⟩ := Option.map_eq_some_iff.mp hstep
          exact Or.inr (Or.inr (Or.inl ⟨ok, m, rfl, hm, rfl⟩))
      | freeWriteReq i client =>
          exact Or.inr (Or.inr (Or.inr
            (hother _ nofun nofun (Or.inr ⟨i, client, rfl⟩) hstep)))
      | connection statusOk =>
          exact Or.inr (Or.inr (Or.inr
            (hother s nofun nofun (Or.inl rfl) hstep)))
      | scan =>
          exact Or.inr (Or.inr (Or.inr
            (hother s nofun nofun (Or.inl rfl) hstep)))
      | addBackend result =>
          exact Or.inr (Or.inr (Or.inr
            (hother s nofun nofun (Or.inl rfl) hstep)))
      | readPipe i event =>
          exact Or.inr (Or.inr (Or.inr
            (hother s nofun nofun (Or.inl rfl) hstep)))

theorem ownersStep_kept
    {s t : Owners} {a : OwnersAction} (hs : s.Kept)
    (hstep : ownersStep s a = some t) : t.Kept := by
  rcases ownersStep_cases hstep with ⟨i, ok, w, -, hw, hend⟩ |
    ⟨ok, m, -, hm, rfl⟩ | ⟨ok, m, -, hm, rfl⟩ |
    ⟨b, m, o, -, haccept, -, hm, ho, rfl⟩
  · have hcb := hs.sentCb hw
    rcases hend with rfl | ⟨position, m, hm, rfl⟩
    · exact hcb
    · exact hcb.quiet hm nofun
  · exact hs.accept hm
  · exact hs.send hm
  · rcases ho with rfl | ⟨i, c, rfl⟩
    · exact hs.quiet hm haccept
    · refine (hs.closed i c).quiet ?_ haccept
      rwa [Owners.closed_master]

/-- In every reachable state the master still has its handle of every
connection it has accepted. -/
theorem kept_of_reachable
    {s : Owners} (hs : ownersSystem.Reachable s) : s.Kept := by
  refine hs.invariant ?_ ?_
  · rintro s rfl
    exact ⟨nofun, nofun, nofun, nofun, nofun⟩
  · intro s a t hs _ hstep
    exact ownersStep_kept hs hstep

/-! ## Hand-overs that have ended -/

/-- A hand-over has ended. -/
def Owners.SomeEnded (s : Owners) : Prop :=
  s.sentCalled ≠ [] ∨ s.sendFailed ≠ []

theorem ownersStep_someEnded
    {s t : Owners} {a : OwnersAction} (hstep : ownersStep s a = some t) :
    t.SomeEnded ↔ s.SomeEnded ∨ a.EndsHandOver = true := by
  unfold Owners.SomeEnded
  rcases ownersStep_cases hstep with ⟨i, ok, w, rfl, -, hend⟩ |
    ⟨ok, m, rfl, -, rfl⟩ | ⟨ok, m, rfl, hm, rfl⟩ |
    ⟨b, m, o, rfl, -, hsend, -, ho, rfl⟩
  · refine iff_of_true (Or.inl ?_) (Or.inr rfl)
    rcases hend with rfl | ⟨position, m, -, rfl⟩ <;>
      exact List.cons_ne_nil _ _
  · simp only [Owners.accepted, OwnersAction.EndsHandOver]
    split <;> simp
  · simp only [masterStep] at hm
    split at hm
    next i client hpc =>
      simp only [Owners.sent, hpc, OwnersAction.EndsHandOver]
      cases ok <;> simp
    next => cases hm
  · have hnot : (OwnersAction.step b).EndsHandOver = false := by
      unfold OwnersAction.EndsHandOver
      split
      next hsent => cases hsent
      next ok hsent => exact absurd (OwnersAction.step.inj hsent) (hsend ok)
      next => rfl
    rcases ho with rfl | ⟨i, c, rfl⟩
    · simp [hnot]
    · simp only [Owners.closed, hnot]
      split <;> simp

theorem someEnded_run
    {s t : Owners} {actions : List OwnersAction}
    (hrun : ownersSystem.run s actions = some t) :
    t.SomeEnded ↔
      s.SomeEnded ∨ ∃ a ∈ actions, a.EndsHandOver = true := by
  induction actions generalizing s with
  | nil =>
      obtain rfl : s = t := Option.some.inj hrun
      simp
  | cons a actions ih =>
      obtain ⟨s', hstep, hrest⟩ :=
        TransitionSystem.run_cons_eq_some_iff.mp hrun
      rw [ih hrest, ownersStep_someEnded hstep]
      simp [or_assoc]

/-- Every hand-over that has ended breaks the rule. -/
theorem Owners.Kept.handedOver_iff
    {s : Owners} (hs : s.Kept) : s.HandedOver ↔ ¬s.SomeEnded := by
  constructor
  · rintro hover (hsent | hfailed)
    · obtain ⟨c, hc⟩ := List.exists_mem_of_ne_nil _ hsent
      exact hover.sent c hc (hs.accepted c (hs.sentCalled c hc))
    · obtain ⟨c, hc⟩ := List.exists_mem_of_ne_nil _ hfailed
      exact hover.failed c hc (Or.inl (hs.accepted c (hs.sendFailed c hc)))
  · intro hnone
    have hsent : s.sentCalled = [] := by
      by_contra hne
      exact hnone (Or.inl hne)
    have hfailed : s.sendFailed = [] := by
      by_contra hne
      exact hnone (Or.inr hne)
    exact ⟨by simp [hsent], by simp [hfailed], by simp [hsent]⟩

/-- In every run, the connections are handed over as they should be if and only
if no hand-over has ended yet. -/
theorem handedOver_iff_noneEnded
    (actions : List OwnersAction) (s : Owners)
    (hrun : ownersSystem.run startOwners actions = some s) :
    s.HandedOver ↔ ∀ a ∈ actions, a.EndsHandOver = false := by
  have hreach : ownersSystem.Reachable s :=
    TransitionSystem.Reachable.run (.initial rfl) hrun
  rw [(kept_of_reachable hreach).handedOver_iff, someEnded_run hrun]
  have hstart : ¬startOwners.SomeEnded := by
    rintro (h | h) <;> exact h rfl
  simp [hstart]

/-- One connection is accepted, handed to a new backend, accepted and closed
there, and the master's write is reported. -/
def oneConnection : List OwnersAction :=
  [.step (.connection true), .step (.addBackend .created),
    .step (.accept true), .step (.send true),
    .step (.readPipe 0 (.data 1 true)), .step (.freeWriteReq 0 0),
    .clientSent 0 true]

/-- The backend has closed its handle, and the master's is still open. -/
theorem oneConnection_staysOpen :
    ∃ s, ownersSystem.run startOwners oneConnection = some s ∧
      0 ∈ s.sentCalled ∧ 0 ∈ s.backendClosed ∧ s.OpenSomewhere 0 ∧
      ¬s.HandedOver := by
  refine ⟨_, rfl, by decide, by decide, Or.inl (by decide), fun h => ?_⟩
  exact h.sent 0 (by decide) (by decide)

theorem handedOver_iff_noneEnded_oneConnection :
    ∃ s, ownersSystem.run startOwners oneConnection = some s ∧
      (s.HandedOver ↔ ∀ a ∈ oneConnection, a.EndsHandOver = false) :=
  ⟨_, rfl, handedOver_iff_noneEnded oneConnection _ rfl⟩

end Dispatch
end Proxy
end OsFifthSem
