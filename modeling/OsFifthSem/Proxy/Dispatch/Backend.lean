import Mathlib.Data.List.Infix
import OsFifthSem.Support.Transition

/-!
# A backend and the pipe through which it gets its clients

The master writes one byte with one client handle for every connection
(`send_client_to_backend`).  libuv reads the pipe of the backend and calls
`read_pipe`; a call may deliver any number of the bytes that are under way, and
their handles are then pending in the pipe until `uv_accept` takes them, in
order.  A handle whose `uv_accept` fails is gone from the pipe as well.

All handles are of type `UV_TCP`, since the master sends nothing else.
`delivered` and `handled` are history variables.
-/

namespace OsFifthSem
namespace Proxy
namespace Dispatch

open Support

/-- The part of `backend_t` that concerns its clients. -/
structure Backend where
  clientCount : ℤ
  /-- The clients that were counted and are not closing. -/
  clients : List ℕ
  /-- Handles that are written and not read yet. -/
  sent : List ℕ
  /-- Handles that are read and not accepted yet. -/
  pending : List ℕ
  /-- The pipe is closed after an error or the end of the stream. -/
  closed : Bool
  /-- All handles read so far. -/
  delivered : List ℕ
  /-- The handles taken from the pipe, with the success of `uv_accept`. -/
  handled : List (ℕ × Bool)
  deriving DecidableEq, Repr

/-- `create_backend`. -/
def createBackend : Backend where
  clientCount := 0
  clients := []
  sent := []
  pending := []
  closed := false
  delivered := []
  handled := []

/-- What a call of `read_pipe` reports. -/
inductive ReadEvent
  /-- `nread > 0`, with the result of `uv_accept` if it is called. -/
  | data (nread : ℕ) (accepts : Bool)
  /-- `nread == 0`: nothing was read. -/
  | again
  /-- `nread < 0`. -/
  | error
  deriving DecidableEq, Repr

namespace Backend

/-- `uv_write2` of one client. -/
def send (b : Backend) (client : ℕ) : Backend :=
  { b with sent := b.sent ++ [client] }

/-- `new_client`. -/
def newClient (b : Backend) (client : ℕ) : Backend :=
  { b with
    clientCount := b.clientCount + 1
    clients := client :: b.clients }

/-- `uv_accept` of the first pending handle. -/
def accept (b : Backend) (client : ℕ) (rest : List ℕ) (accepts : Bool) :
    Backend :=
  { b with pending := rest, handled := b.handled ++ [(client, accepts)] }

/-- `read_pipe`. -/
def readPipe (b : Backend) : ReadEvent → Backend
  | .data _ accepts =>
      match b.pending with
      | [] => b
      | client :: rest =>
          if accepts then (b.accept client rest true).newClient client
          else b.accept client rest false
  | .again => b
  | .error => { b with closed := true }

/-- libuv reads `n` bytes with their handles. -/
def receive (b : Backend) (n : ℕ) : Backend :=
  { b with
    sent := b.sent.drop n
    pending := b.pending ++ b.sent.take n
    delivered := b.delivered ++ b.sent.take n }

/-- A read callback: libuv reads what it reports, then `read_pipe` runs. -/
def callback (b : Backend) (event : ReadEvent) : Option Backend :=
  if b.closed then none
  else
    match event with
    | .data n accepts =>
        if 0 < n ∧ n ≤ b.sent.length
        then some ((b.receive n).readPipe (.data n accepts))
        else none
    | event => some (b.readPipe event)

/-- The part of `free_write_req` that closes the client, unless it is closing
already. -/
def freeWriteReq (b : Backend) (client : ℕ) : Backend :=
  if client ∈ b.clients then
    { b with
      clientCount := b.clientCount - 1
      clients := b.clients.erase client }
  else b

end Backend

/-! ## One pipe -/

/-- What happens to a backend and its pipe. -/
inductive PipeAction
  | send (client : ℕ)
  | read (event : ReadEvent)
  | freeWriteReq (client : ℕ)
  deriving DecidableEq, Repr

def pipeStep (b : Backend) : PipeAction → Option Backend
  | .send client => some (b.send client)
  | .read event => b.callback event
  | .freeWriteReq client => some (b.freeWriteReq client)

/-- A backend with any number of clients sent to it. -/
def pipeSystem : TransitionSystem Backend PipeAction where
  Initial := fun b => b = createBackend
  step := pipeStep

/-- Every handle delivered so far was passed to `new_client` or failed to be
accepted, exactly once and in order. -/
def Backend.Settled (b : Backend) : Prop :=
  b.handled.map Prod.fst = b.delivered

instance (b : Backend) : Decidable b.Settled :=
  inferInstanceAs (Decidable (b.handled.map Prod.fst = b.delivered))

/-- The callback delivers at most one handle. -/
def PipeAction.Single : PipeAction → Prop
  | .read (.data n _) => n ≤ 1
  | _ => True

/-- Handles are taken from the pipe in the order of their delivery. -/
def Backend.InOrder (b : Backend) : Prop :=
  b.delivered = b.handled.map Prod.fst ++ b.pending

namespace Backend

variable {b b' : Backend} {event : ReadEvent} {a : PipeAction}

theorem InOrder.settled_iff (h : b.InOrder) : b.Settled ↔ b.pending = [] := by
  unfold Settled
  rw [h]
  simp

theorem InOrder.receive (h : b.InOrder) (n : ℕ) : (b.receive n).InOrder := by
  unfold InOrder at h ⊢
  simp [Backend.receive, h]

@[simp] theorem readPipe_data_pending (b : Backend) (n : ℕ) (accepts : Bool) :
    (b.readPipe (.data n accepts)).pending = b.pending.tail := by
  unfold readPipe
  cases hpending : b.pending with
  | nil => simp [hpending]
  | cons client rest => cases accepts <;> rfl

theorem InOrder.readPipe (h : b.InOrder) (event : ReadEvent) :
    (b.readPipe event).InOrder := by
  cases event with
  | data n accepts =>
      unfold Backend.readPipe
      cases hpending : b.pending with
      | nil => simpa using h
      | cons client rest =>
          unfold InOrder at h ⊢
          cases accepts <;>
            simp [h, hpending, Backend.accept, Backend.newClient]
  | again => exact h
  | error => exact h

/-- What a callback can do. -/
theorem callback_cases (h : b.callback event = some b') :
    (∃ n accepts, event = .data n accepts ∧ 0 < n ∧ n ≤ b.sent.length ∧
      b' = (b.receive n).readPipe (.data n accepts)) ∨
    (event = .again ∧ b' = b) ∨
    (event = .error ∧ b' = { b with closed := true }) := by
  unfold callback at h
  split at h
  · cases h
  · cases event with
    | data n accepts =>
        simp only at h
        split at h
        · next hn =>
            exact Or.inl ⟨n, accepts, rfl, hn.1, hn.2, (Option.some.inj h).symm⟩
        · cases h
    | again => exact Or.inr (Or.inl ⟨rfl, (Option.some.inj h).symm⟩)
    | error => exact Or.inr (Or.inr ⟨rfl, (Option.some.inj h).symm⟩)

theorem pipeStep_inOrder
    (hb : b.InOrder) (hstep : pipeStep b a = some b') : b'.InOrder := by
  cases a with
  | send client =>
      obtain rfl := Option.some.inj hstep
      exact hb
  | read event =>
      obtain ⟨n, accepts, rfl, -, -, rfl⟩ | ⟨-, rfl⟩ | ⟨-, rfl⟩ :=
        callback_cases hstep
      · exact (hb.receive n).readPipe _
      · exact hb
      · exact hb
  | freeWriteReq client =>
      obtain rfl := Option.some.inj hstep
      unfold freeWriteReq
      split
      · exact hb
      · exact hb

/-- A step from a settled state leads to a settled state exactly when it
delivers at most one handle. -/
theorem pipeStep_settled_iff
    (hb : b.InOrder) (hempty : b.pending = [])
    (hstep : pipeStep b a = some b') :
    b'.pending = [] ↔ a.Single := by
  cases a with
  | send client =>
      obtain rfl := Option.some.inj hstep
      exact iff_of_true hempty trivial
  | read event =>
      obtain ⟨n, accepts, rfl, hpos, hle, rfl⟩ | ⟨rfl, rfl⟩ | ⟨rfl, rfl⟩ :=
        callback_cases hstep
      · rw [readPipe_data_pending]
        simp only [Backend.receive, hempty, List.nil_append, PipeAction.Single,
          ← List.length_eq_zero_iff, List.length_tail, List.length_take]
        omega
      · exact iff_of_true hempty trivial
      · exact iff_of_true hempty trivial
  | freeWriteReq client =>
      obtain rfl := Option.some.inj hstep
      refine iff_of_true ?_ trivial
      unfold freeWriteReq
      split
      · exact hempty
      · exact hempty

/-- In a run from a settled state every state is settled exactly when every
callback delivers at most one handle. -/
theorem run_settled_iff
    {as : List PipeAction} (hb : b.InOrder) (hempty : b.pending = [])
    (hrun : pipeSystem.run b as = some b') :
    (∀ bs c, bs <+: as → pipeSystem.run b bs = some c → c.Settled) ↔
      ∀ a ∈ as, a.Single := by
  induction as generalizing b with
  | nil =>
      refine iff_of_true ?_ (by simp)
      intro bs c hbs hc
      obtain rfl := List.prefix_nil.mp hbs
      obtain rfl := Option.some.inj hc
      exact hb.settled_iff.mpr hempty
  | cons a as ih =>
      obtain ⟨b₁, hstep, hrest⟩ :=
        TransitionSystem.run_cons_eq_some_iff.mp hrun
      have hb₁ : b₁.InOrder := pipeStep_inOrder hb hstep
      have hfirst := pipeStep_settled_iff hb hempty hstep
      rw [List.forall_mem_cons]
      constructor
      · intro hall
        have hone : pipeSystem.run b [a] = some b₁ := by
          rw [TransitionSystem.run_cons_eq_some_iff]
          exact ⟨b₁, hstep, rfl⟩
        have hempty₁ : b₁.pending = [] :=
          hb₁.settled_iff.mp (hall [a] b₁ (by simp) hone)
        refine ⟨hfirst.mp hempty₁, (ih hb₁ hempty₁ hrest).mp ?_⟩
        intro bs c hbs hc
        apply hall (a :: bs) c (by simpa using hbs)
        rw [TransitionSystem.run_cons_eq_some_iff]
        exact ⟨b₁, hstep, hc⟩
      · rintro ⟨hsingle, hall⟩ bs c hbs hc
        have htail := (ih hb₁ (hfirst.mpr hsingle) hrest).mpr hall
        cases bs with
        | nil =>
            obtain rfl := Option.some.inj hc
            exact hb.settled_iff.mpr hempty
        | cons a' bs =>
            obtain ⟨rfl, hbs'⟩ := List.cons_prefix_cons.mp hbs
            obtain ⟨b₂, hstep₂, hc'⟩ :=
              TransitionSystem.run_cons_eq_some_iff.mp hc
            obtain rfl : b₁ = b₂ :=
              Option.some.inj (hstep.symm.trans hstep₂)
            exact htail bs c hbs' hc'

end Backend

/-- `read_pipe` accepts one handle for each call.  In every run, no delivered
handle is left pending after any callback exactly when no callback delivers
more than one. -/
theorem noneStranded_iff_single
    {as : List PipeAction} {b : Backend}
    (hrun : pipeSystem.run createBackend as = some b) :
    (∀ bs c, bs <+: as → pipeSystem.run createBackend bs = some c →
      c.Settled) ↔
      ∀ a ∈ as, a.Single :=
  Backend.run_settled_iff rfl rfl hrun

/-- Three clients, of which the second cannot be accepted, and the end of the
stream. -/
def oneByOne : List PipeAction :=
  [.send 1, .send 2, .read (.data 1 true), .send 3, .read (.data 1 false),
    .read .again, .read (.data 1 true), .read .error]

/-- No handle is left pending. -/
theorem noneStranded_oneByOne :
    ∃ b, pipeSystem.run createBackend oneByOne = some b ∧
      ∀ bs c, bs <+: oneByOne → pipeSystem.run createBackend bs = some c →
        c.Settled := by
  have hrun : pipeSystem.run createBackend oneByOne =
      some ⟨2, [3, 1], [], [], true, [1, 2, 3],
        [(1, true), (2, false), (3, true)]⟩ := by
    decide
  refine ⟨_, hrun, (noneStranded_iff_single hrun).mpr ?_⟩
  simp [oneByOne, PipeAction.Single]

/-- Two handles that one callback delivers: the second one stays pending. -/
theorem coalesced_stranded :
    ¬ ∀ b, pipeSystem.Reachable b → b.Settled := by
  intro hall
  have hrun : pipeSystem.run createBackend
      [.send 1, .send 2, .read (.data 2 true)] =
        some ⟨1, [1], [], [2], false, [1, 2], [(1, true)]⟩ := by
    decide
  have hreach := TransitionSystem.Reachable.run (.initial rfl) hrun
  exact absurd (hall _ hreach) (by decide)

end Dispatch
end Proxy
end OsFifthSem
