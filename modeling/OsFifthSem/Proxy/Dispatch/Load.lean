import Mathlib.Algebra.Order.Group.Int
import OsFifthSem.Proxy.Dispatch.Master

/-!
# The load limit of a backend

`get_backend` compares `client_count` with the limit, and a backend counts a
client when it takes the handle from its pipe.  Handles that are under way are
not seen.  The load of a backend counts them; the limit is kept in runs where
`get_backend` returns a backend only if its load is below the limit.
-/

namespace OsFifthSem
namespace Proxy
namespace Dispatch

open Support

/-- The clients that the backend has counted and the handles in its pipe. -/
def Backend.load (b : Backend) : ℤ :=
  b.clientCount + b.sent.length + b.pending.length

/-- The backend to which the master is about to send a client. -/
def MasterPc.target : MasterPc → Option ℕ
  | .accept i | .send i _ => some i
  | _ => none

/-- If this step makes `get_backend` return a backend, the load of that backend
is below the limit.  A new backend has no load. -/
def HasRoom (s : Master) : MasterAction → Prop
  | .scan =>
      match s.pc with
      | .getBackend i =>
          ∀ b ∈ s.backends[i]?, b.clientCount < maxBackendConnectionsNum →
            b.load < maxBackendConnectionsNum
      | _ => True
  | .addBackend .notCreated | .addBackend .noThread =>
      ∀ b ∈ s.backends.getLast?, b.load < maxBackendConnectionsNum
  | _ => True

instance (s : Master) : DecidablePred (HasRoom s)
  | .scan =>
      match h : s.pc with
      | .getBackend i => decidable_of_iff
          (∀ b ∈ s.backends[i]?, b.clientCount < maxBackendConnectionsNum →
            b.load < maxBackendConnectionsNum) (by simp only [HasRoom, h])
      | .idle | .accept _ | .send _ _ | .fault =>
          .isTrue (by simp only [HasRoom, h])
  | .addBackend .notCreated | .addBackend .noThread =>
      inferInstanceAs (Decidable (∀ b ∈ s.backends.getLast?, _))
  | .addBackend .created | .connection _ | .accept _ | .send _
  | .clientLost _ _ | .readPipe _ _ | .freeWriteReq _ _ => .isTrue trivial

namespace Backend

variable {b b' : Backend} {event : ReadEvent}

theorem clientCount_le_load (b : Backend) : b.clientCount ≤ b.load := by
  unfold load
  omega

@[simp] theorem load_send (b : Backend) (client : ℕ) :
    (b.send client).load = b.load + 1 := by
  simp only [load, send, List.length_append, List.length_singleton]
  omega

theorem load_eraseIdx_le (b : Backend) (position : ℕ) :
    load { b with sent := b.sent.eraseIdx position } ≤ b.load := by
  have hle := List.length_eraseIdx_le b.sent position
  simp only [load]
  omega

theorem load_freeWriteReq_le (b : Backend) (client : ℕ) :
    (b.freeWriteReq client).load ≤ b.load := by
  unfold freeWriteReq
  split
  · simp only [load]
    omega
  · exact le_rfl

theorem load_receive (b : Backend) (n : ℕ) : (b.receive n).load = b.load := by
  simp only [load, receive, List.length_append, List.length_take,
    List.length_drop]
  omega

theorem load_readPipe_le (b : Backend) (event : ReadEvent) :
    (b.readPipe event).load ≤ b.load := by
  cases event with
  | data n accepts =>
      unfold readPipe
      cases hpending : b.pending with
      | nil => exact le_rfl
      | cons client rest =>
          cases accepts <;> simp [load, hpending, accept, newClient]
          omega
  | again => exact le_rfl
  | error => exact le_rfl

/-- A backend never raises its own load. -/
theorem load_callback_le (h : b.callback event = some b') :
    b'.load ≤ b.load := by
  obtain ⟨n, accepts, -, -, -, rfl⟩ | ⟨-, rfl⟩ | ⟨-, rfl⟩ := callback_cases h
  · rw [← b.load_receive n]
    exact load_readPipe_le _ _
  · exact le_rfl
  · exact le_rfl

end Backend

/-- The load of every backend, with the client that is about to be sent to it,
is within the limit. -/
def WithinLimit (s : Master) : Prop :=
  ∀ (i : ℕ) (b : Backend), s.backends[i]? = some b →
    b.load + (if s.pc.target = some i then 1 else 0) ≤ maxBackendConnectionsNum

variable {s s' : Master} {a : MasterAction}

/-- A step that raises no load and chooses no backend. -/
theorem WithinLimit.mono
    (h : WithinLimit s)
    (hle : ∀ (i : ℕ) (b' : Backend), s'.backends[i]? = some b' →
      ∃ b, s.backends[i]? = some b ∧ b'.load ≤ b.load)
    (htarget : s'.pc.target = s.pc.target ∨ s'.pc.target = none) :
    WithinLimit s' := by
  intro i b' hb'
  obtain ⟨b, hb, hload⟩ := hle i b' hb'
  have hlimit := h i b hb
  rcases htarget with hsame | hnone
  · rw [hsame]
    omega
  · rw [hnone]
    simp only [reduceCtorEq, if_false]
    split_ifs at hlimit <;> omega

/-- A step that leaves the backends as they are and chooses none. -/
theorem WithinLimit.same_backends
    (h : WithinLimit s) (hsame : s'.backends = s.backends)
    (htarget : s'.pc.target = s.pc.target ∨ s'.pc.target = none) :
    WithinLimit s' := by
  apply h.mono ?_ htarget
  intro i b hb
  exact ⟨b, hsame ▸ hb, le_rfl⟩

/-- Backend `i` changes without a gain of load. -/
theorem WithinLimit.modify
    {f : Backend → Backend} (h : WithinLimit s)
    (hf : ∀ b, (f b).load ≤ b.load) (i : ℕ) :
    WithinLimit { s with backends := s.backends.modify i f } := by
  apply h.mono
  · intro j b' hb'
    rw [List.getElem?_modify] at hb'
    obtain ⟨b, hb, rfl⟩ := Option.map_eq_some_iff.mp hb'
    refine ⟨b, hb, ?_⟩
    split_ifs
    · exact hf b
    · exact le_rfl
  · exact Or.inl rfl

/-- The choice of a backend with room. -/
theorem WithinLimit.choose
    (h : WithinLimit s) {i : ℕ} (hidle : s.pc.target = none)
    (hroom : ∀ b ∈ s.backends[i]?, b.load < maxBackendConnectionsNum) :
    WithinLimit { s with pc := .accept i } := by
  intro j b hb
  have hlimit := h j b hb
  simp only [MasterPc.target]
  by_cases hij : i = j
  · subst hij
    have hlt := hroom b hb
    simp only [if_true]
    omega
  · rw [hidle] at hlimit
    simpa [hij] using hlimit

theorem addBackend_withinLimit
    {result : AddResult} (h : WithinLimit s) (hidle : s.pc.target = none)
    (hroom : result = .created ∨
      ∀ b ∈ s.backends.getLast?, b.load < maxBackendConnectionsNum)
    (hstep : s.addBackend result = some s') : WithinLimit s' := by
  have hlast : result ≠ .created → WithinLimit s.returnLast := by
    intro hresult
    unfold Master.returnLast
    split_ifs with hnil
    · exact h.same_backends rfl (Or.inr rfl)
    · apply h.choose hidle
      rw [← List.getLast?_eq_getElem?]
      exact hroom.resolve_left hresult
  unfold Master.addBackend at hstep
  split at hstep
  · obtain rfl := Option.some.inj hstep
    exact h.same_backends rfl (Or.inr rfl)
  · cases result with
    | notCreated =>
        obtain rfl := Option.some.inj hstep
        exact hlast (by simp)
    | noThread =>
        simp only at hstep
        split at hstep
        · cases hstep
        · obtain rfl := Option.some.inj hstep
          exact (hlast (by simp)).same_backends rfl (Or.inl rfl)
    | created =>
        simp only at hstep
        split at hstep
        · cases hstep
        · obtain rfl := Option.some.inj hstep
          intro i b hb
          rcases Nat.lt_trichotomy i s.backends.length with hlt | heq | hgt
          · have hold := h i b (by simpa [List.getElem?_append, hlt] using hb)
            have hne : s.backends.length ≠ i := by omega
            rw [hidle] at hold
            simpa [MasterPc.target, hne] using hold
          · subst heq
            obtain rfl : createBackend = b := by simpa using hb
            simp [MasterPc.target, Backend.load, createBackend,
              maxBackendConnectionsNum]
          · rw [List.getElem?_eq_none (by simp; omega)] at hb
            cases hb

/-- A step with room keeps every backend within the limit. -/
theorem masterStep_withinLimit
    (h : WithinLimit s) (hroom : HasRoom s a)
    (hstep : masterStep s a = some s') : WithinLimit s' := by
  cases a with
  | connection statusOk =>
      simp only [masterStep] at hstep
      split at hstep
      · obtain rfl := Option.some.inj hstep
        apply h.same_backends
        · rfl
        · cases statusOk <;> exact Or.inr rfl
      · cases hstep
  | scan =>
      simp only [masterStep] at hstep
      split at hstep
      · next i hpc =>
          split at hstep
          · next b hb =>
              obtain rfl := Option.some.inj hstep
              simp only [HasRoom, hpc] at hroom
              split_ifs with hlt
              · apply h.choose (by rw [hpc]; rfl)
                intro b' hb'
                obtain rfl : b = b' := Option.some.inj (hb.symm.trans hb')
                exact hroom b hb hlt
              · exact h.same_backends rfl (Or.inr rfl)
          · cases hstep
      · cases hstep
  | addBackend result =>
      simp only [masterStep] at hstep
      split at hstep
      · next i hpc =>
          split at hstep
          · apply addBackend_withinLimit h (by rw [hpc]; rfl) ?_ hstep
            cases result with
            | created => exact Or.inl rfl
            | notCreated => exact Or.inr hroom
            | noThread => exact Or.inr hroom
          · cases hstep
      · cases hstep
  | accept ok =>
      simp only [masterStep] at hstep
      split at hstep
      · next i hpc =>
          obtain rfl := Option.some.inj hstep
          cases ok with
          | false => exact h.same_backends rfl (Or.inr rfl)
          | true =>
              apply h.same_backends
              · rfl
              · left
                rw [hpc]
                rfl
      · cases hstep
  | send ok =>
      simp only [masterStep] at hstep
      split at hstep
      · next i client hpc =>
          obtain rfl := Option.some.inj hstep
          cases ok with
          | false => exact h.same_backends rfl (Or.inr rfl)
          | true =>
              intro j b' hb'
              simp only [if_true, List.getElem?_modify] at hb'
              obtain ⟨b, hb, rfl⟩ := Option.map_eq_some_iff.mp hb'
              have hlimit := h j b hb
              rw [hpc] at hlimit
              by_cases hij : i = j <;>
                simpa [MasterPc.target, hij] using hlimit
      · cases hstep
  | clientLost i position =>
      obtain rfl := Option.some.inj hstep
      exact h.modify (fun b => b.load_eraseIdx_le position) i
  | readPipe i event =>
      simp only [masterStep, Option.map_eq_some_iff,
        Option.bind_eq_some_iff] at hstep
      obtain ⟨b', ⟨b, hb, hcallback⟩, rfl⟩ := hstep
      refine h.mono ?_ (Or.inl rfl)
      intro j c hc
      by_cases hij : i = j
      · subst hij
        have hlt : i < s.backends.length := by
          by_contra hge
          rw [List.getElem?_eq_none (by omega)] at hb
          cases hb
        obtain rfl : b' = c := by simpa [hlt] using hc
        exact ⟨b, hb, Backend.load_callback_le hcallback⟩
      · refine ⟨c, ?_, le_rfl⟩
        simpa [List.getElem?_set_ne hij] using hc
  | freeWriteReq i client =>
      obtain rfl := Option.some.inj hstep
      exact h.modify (fun b => b.load_freeWriteReq_le client) i

/-- No backend counts more than `MAX_BACKEND_CONNECTIONS_NUM` clients in a run
in which `get_backend` returns a backend only while the clients it has counted
and the handles under way to it are fewer. -/
theorem loadLimit_of_hasRoom
    (hs : masterSystem.ReachableUnder HasRoom s) {b : Backend}
    (hb : b ∈ s.backends) : b.clientCount ≤ maxBackendConnectionsNum := by
  have hlimit : WithinLimit s := by
    apply hs.invariant
    · rintro _ rfl i b hb
      simp [startMaster] at hb
    · intro s a s' h hroom hstep
      exact masterStep_withinLimit h hroom hstep
  obtain ⟨i, hi⟩ := List.mem_iff_getElem?.mp hb
  have hbound := hlimit i b hi
  have hle := b.clientCount_le_load
  split_ifs at hbound <;> omega

/-- The steps of the master for one connection when backend 0 has room. -/
def connectToFirst : List MasterAction :=
  [.connection true, .scan, .accept true, .send true]

/-- Two clients are counted, and the run has room. -/
theorem loadLimit_twoClients :
    ∃ s b, masterSystem.ReachableUnder HasRoom s ∧ b ∈ s.backends ∧
      b.clientCount = 2 ∧ b.clientCount ≤ maxBackendConnectionsNum := by
  have hrun : (masterSystem.runWhile (fun s a => decide (HasRoom s a))
      startMaster
      ([.connection true, .addBackend .created, .accept true, .send true,
        .readPipe 0 (.data 1 true)] ++ connectToFirst ++
        [.readPipe 0 (.data 1 true)])).map Master.backends =
          some [⟨2, [1, 0], [], [], false, [0, 1], [(0, true), (1, true)]⟩] := by
    decide
  obtain ⟨s, hs, hbackends⟩ := Option.map_eq_some_iff.mp hrun
  have hstart : masterSystem.ReachableUnder HasRoom startMaster := .initial rfl
  have hreach := hstart.runWhile (fun s a h => of_decide_eq_true h) hs
  have hb : (⟨2, [1, 0], [], [], false, [0, 1], [(0, true), (1, true)]⟩ :
      Backend) ∈ s.backends := by
    rw [hbackends]
    simp
  exact ⟨s, _, hreach, hb, rfl, loadLimit_of_hasRoom hreach hb⟩

/-- Eleven connections arrive before backend 0 reads its pipe, and all of them
are sent to it. -/
theorem loadLimit_exceeded :
    ¬ ∀ s, masterSystem.Reachable s → ∀ b ∈ s.backends,
      b.clientCount ≤ maxBackendConnectionsNum := by
  intro hall
  have hrun : (masterSystem.run startMaster
      ([.connection true, .addBackend .created, .accept true, .send true] ++
        (List.replicate 10 connectToFirst).flatten ++
        List.replicate 11 (.readPipe 0 (.data 1 true)))).map
      (fun s => s.backends.map Backend.clientCount) = some [11] := by
    decide
  obtain ⟨s, hs, hcounts⟩ := Option.map_eq_some_iff.mp hrun
  have hreach : masterSystem.Reachable s :=
    TransitionSystem.Reachable.run (.initial rfl) hs
  obtain ⟨b, hb, hcount⟩ := List.mem_map.mp
    (hcounts ▸ List.mem_singleton.mpr rfl :
      (11 : ℤ) ∈ s.backends.map Backend.clientCount)
  have hle := hall s hreach b hb
  rw [hcount] at hle
  exact absurd hle (by decide)

end Dispatch
end Proxy
end OsFifthSem
