import OsFifthSem.Proxy.Streaming.Delivery

/-!
# Refused writes

`send_next_chunk` moves its offset over a chunk before `uv_write` has accepted
it, and leaves it there when `uv_write` refuses.  As long as no chunk is
refused, and every chunk is read from the entry of the earlier ones, the
accepted bytes are those of the entry up to the offset.
-/

namespace OsFifthSem
namespace Proxy
namespace Streaming

open Support State

/-! ## What was accepted -/

/-- All chunks of the request were read from one entry, and the bytes that
`uv_write` accepted are its first ones, as many as the offset says. -/
structure Contiguous (s : State) (w : WriteReq) : Prop where
  length : w.sent.length = w.lastOffset
  unread : w.sources = [] → w.sent = []
  one : ∀ x ∈ w.sources, ∀ y ∈ w.sources, x = y
  bytes : ∀ x ∈ w.sources, w.sent <+: s.bytesOf x

/-- `send_next_chunk` finds a chunk for request `r` and hands it to
`uv_write`. -/
def State.HandsChunk (s : State) (a : Action) (r : ℕ) (w : WriteReq)
    (accepted : Bool) : Prop :=
  ∃ now e, a = .request r (.lookupEnd now accepted) ∧ s.reqs r = some w ∧
    w.pc = .inLookup ∧ w.site = .sendNextChunk ∧
    s.cache.entries w.entry = some e ∧ w.lastOffset < e.data.length

/-- No chunk is refused. -/
def State.Accepts (s : State) (a : Action) : Prop :=
  ∀ r w, ¬s.HandsChunk a r w false

/-- A chunk is found in the entry that the earlier chunks of the request were
read from. -/
def State.SameEntry (s : State) (a : Action) : Prop :=
  ∀ r w accepted, s.HandsChunk a r w accepted → ∀ x ∈ w.sources, x = w.entry

/-- A call of `send_next_chunk` whose write is refused releases the request or
leaves its offset as it was. -/
def State.KeepsOffset (s : State) (a : Action) : Prop :=
  ∀ r w s' w', s.HandsChunk a r w false → s.step a = some s' →
    s'.reqs r = some w' → w'.releasedBy ≠ none ∨ w'.lastOffset = w.lastOffset

section Bytes

variable {s s' : State} {w w' : WriteReq}

theorem contiguous_nil
    (hsent : w.sent = []) (hsources : w.sources = [])
    (hoffset : w.lastOffset = 0) : Contiguous s w where
  length := by rw [hsent, hoffset]; rfl
  unread := fun _ => hsent
  one := by simp [hsources]
  bytes := by simp [hsources]

/-- A step that leaves the history of the request alone. -/
theorem Contiguous.of_same
    (hc : Contiguous s w) (hsame : w.SameHistory w')
    (hgrow : ∀ x, s.bytesOf x <+: s'.bytesOf x) : Contiguous s' w' := by
  obtain ⟨hsent, hsources, hoffset⟩ := hsame
  refine ⟨?_, ?_, ?_, ?_⟩
  · rw [hsent, hoffset, hc.length]
  · rw [hsent, hsources]
    exact hc.unread
  · rw [hsources]
    exact hc.one
  · rw [hsent, hsources]
    exact fun x hx => (hc.bytes x hx).trans (hgrow x)

/-- What was sent are the first bytes of the entry that the next chunk is read
from. -/
theorem Contiguous.prefix_bytesOf
    (hc : Contiguous s w) {x : ℕ} (hx : ∀ y ∈ w.sources, y = x) :
    w.sent <+: s.bytesOf x := by
  cases hsources : w.sources with
  | nil =>
      rw [hc.unread hsources]
      exact List.nil_prefix
  | cons y ys =>
      have hy : y ∈ w.sources := hsources ▸ List.mem_cons_self
      exact hx y hy ▸ hc.bytes y hy

/-- A chunk that is accepted continues what was sent. -/
theorem Contiguous.chunk
    (hc : Contiguous s w) (hgrow : ∀ x, s.bytesOf x <+: s'.bytesOf x) {x : ℕ}
    (hx : ∀ y ∈ w.sources, y = x)
    (hsent : w'.sent =
      w.sent ++ ((s.bytesOf x).drop w.lastOffset).take packetSize)
    (hsources : w'.sources = w.sources ++ [x])
    (hoffset : w'.lastOffset = w.lastOffset +
      (((s.bytesOf x).drop w.lastOffset).take packetSize).length) :
    Contiguous s' w' := by
  have hall : ∀ y ∈ w'.sources, y = x := by
    intro y hy
    rw [hsources] at hy
    rcases List.mem_append.mp hy with hy | hy
    · exact hx y hy
    · exact List.mem_singleton.mp hy
  have htake : w.sent = (s.bytesOf x).take w.lastOffset := by
    rw [← hc.length]
    exact List.prefix_iff_eq_take.mp (hc.prefix_bytesOf hx)
  refine ⟨?_, fun hnone => ?_, fun y hy z hz => ?_, fun y hy => ?_⟩
  · rw [hsent, hoffset, List.length_append, hc.length]
  · simp [hsources] at hnone
  · rw [hall y hy, hall z hz]
  · rw [hall y hy, hsent, htake, take_append_chunk]
    exact (List.take_prefix _ _).trans (hgrow x)

end Bytes

/-! ## Along a run -/

/-- The invariant of the runs in which every chunk is accepted and continues
the earlier ones. -/
structure Unrefused (s : State) : Prop where
  base : Consistent s
  streams : ∀ r w, s.reqs r = some w → w.streaming = true → Contiguous s w

namespace Unrefused

variable {s s' : State} {a : Action}

theorem init (numBuckets : ℕ) (defaultTtl : ℤ) :
    Unrefused (.init numBuckets defaultTtl) :=
  ⟨.init numBuckets defaultTtl, by simp [State.init]⟩

theorem step
    (hs : Unrefused s) (ha : s.Accepts a) (hsame : s.SameEntry a)
    (h : s.step a = some s') : Unrefused s' := by
  refine ⟨hs.base.of_step h, fun r w' hw' hstream' => ?_⟩
  have hgrow := hs.base.bytesOf_prefix h
  rcases hs.base.step_history h hw' with
    ⟨-, x, -, -, hnew⟩ | ⟨w, hw, -, hhist⟩
  · rw [hnew] at hstream'
    cases hstream'
  · cases hhist with
    | same hkept _ hstream =>
        by_cases hwas : w.streaming = true
        · exact (hs.streams r w hw hwas).of_same hkept hgrow
        · obtain ⟨hempty, hunread⟩ := (hstream hstream').resolve_left hwas
          have hzero := (hs.base.fields r w hw).unsent (by simpa using hwas)
          exact contiguous_nil (hkept.sent.trans hempty)
            (hkept.sources.trans hunread) (hkept.lastOffset.trans hzero)
    | answered e now accepted _ _ _ _ hstream _ heq =>
        have hwas : w.streaming = true := by
          rw [heq] at hstream'
          exact hstream'
        simp [hstream] at hwas
    | chunk e now accepted hact _ hpc hsite he hstream hlt heq =>
        have hdata : e.data = s.bytesOf w.entry := hs.base.contents _ e he
        have hhands : s.HandsChunk a r w accepted :=
          ⟨now, e, hact, hw, hpc, hsite, he, hlt⟩
        cases accepted with
        | false => exact absurd hhands (ha r w)
        | true =>
            rw [hdata] at heq
            refine (hs.streams r w hw hstream).chunk hgrow
              (hsame r w true hhands) ?_ ?_ ?_ <;> rw [heq] <;> rfl

/-- What `send_next_chunk` makes of a request for which it finds a chunk. -/
theorem handed
    (hs : Unrefused s) {r : ℕ} {w : WriteReq} {accepted : Bool}
    (ha : s.HandsChunk a r w accepted) (h : s.step a = some s') :
    s.reqs r = some w ∧ w.streaming = true ∧ ∃ (e : Entry) (w' : WriteReq),
      w.lastOffset < e.data.length ∧ s'.reqs r = some w' ∧
      w' = { w.write w.entry
          ((e.data.drop w.lastOffset).take packetSize) accepted with
        pc := .idle
        lastOffset := w.lastOffset +
          ((e.data.drop w.lastOffset).take packetSize).length
        writePending := accepted } := by
  obtain ⟨now, e, rfl, hw, hpc, hsite, he, hlt⟩ := ha
  obtain ⟨u, f, hu, -, hf, rfl⟩ := lookupEnd_spec h
  obtain rfl := Option.some.inj (hw.symm.trans hu)
  obtain rfl := Option.some.inj (he.symm.trans hf)
  have hstream := (hs.base.fields r w hw).streaming_of_site (Or.inr hpc)
    (by simp [hsite])
  refine ⟨hw, hstream, e, _, hlt, setReq_self .., ?_⟩
  have hout := w.afterLookup_outcome w.entry e.data accepted
  generalize w.afterLookup w.entry (readEntry w.loading e.data w.lookupArgs.1
    w.lookupArgs.2) accepted = w' at hout
  cases hout with
  | chunk hsite' hlen => rfl
  | answered hsite' | follow hsite' | stay hsite' | again hsite' =>
      rw [hsite] at hsite'
      cases hsite'
  | wait _ _ hlen | tooFar _ _ hlen | complete _ _ hlen => omega

/-- A refused chunk leaves the offset ahead of what was accepted. -/
theorem refused
    (hs : Unrefused s) {r : ℕ} {w : WriteReq} (ha : s.HandsChunk a r w false)
    (h : s.step a = some s') :
    ∃ w', s'.reqs r = some w' ∧ w'.streaming = true ∧ ¬Contiguous s' w' := by
  obtain ⟨hw, hstream, e, -, hlt, hw', rfl⟩ := hs.handed ha h
  refine ⟨_, hw', hstream, fun hc => ?_⟩
  have hold := (hs.streams r w hw hstream).length
  have hnew : w.sent.length = w.lastOffset +
      ((e.data.drop w.lastOffset).take packetSize).length := hc.length
  have hpacket : 0 < packetSize := by decide
  rw [List.length_take, List.length_drop] at hnew
  omega

/-- A chunk of another entry does not continue what was sent. -/
theorem spliced
    (hs : Unrefused s) {r : ℕ} {w : WriteReq} {accepted : Bool}
    (ha : s.HandsChunk a r w accepted) {x : ℕ} (hx : x ∈ w.sources)
    (hne : x ≠ w.entry) (h : s.step a = some s') :
    ∃ w', s'.reqs r = some w' ∧ w'.streaming = true ∧ ¬Contiguous s' w' := by
  obtain ⟨-, hstream, e, -, -, hw', rfl⟩ := hs.handed ha h
  refine ⟨_, hw', hstream, fun hc => hne ?_⟩
  exact hc.one x (List.mem_append_left _ hx) w.entry
    (List.mem_append_right _ (List.mem_singleton_self _))

end Unrefused

/-- In every run, a refused write loses no bytes, and what was accepted is
contiguous in every state on the way, if and only if no write is refused and
no chunk is read from another entry than the earlier ones. -/
theorem contiguous_iff_accepts
    (numBuckets : ℕ) (defaultTtl : ℤ) (as : List Action) (s : State)
    (hrun : proxy.run (.init numBuckets defaultTtl) as = some s) :
    ((∀ pre, pre <+: as → ∀ s',
        proxy.run (.init numBuckets defaultTtl) pre = some s' →
          ∀ r w, s'.reqs r = some w → w.streaming = true → Contiguous s' w) ∧
      proxy.RunAllowed KeepsOffset (.init numBuckets defaultTtl) as) ↔
      proxy.RunAllowed (fun s a => s.Accepts a ∧ s.SameEntry a)
        (.init numBuckets defaultTtl) as := by
  have hbreak : ∀ s a s', Unrefused s → ¬(s.Accepts a ∧ s.SameEntry a) →
      proxy.step s a = some s' →
      ¬∀ r w, s'.reqs r = some w → w.streaming = true → Contiguous s' w := by
    intro s a s' hs hna hstep hall
    have hbad : ∃ r w', s'.reqs r = some w' ∧ w'.streaming = true ∧
        ¬Contiguous s' w' := by
      by_cases haccepts : s.Accepts a
      · have hother : ¬s.SameEntry a := fun h => hna ⟨haccepts, h⟩
        simp only [SameEntry, not_forall] at hother
        obtain ⟨r, w, accepted, hhands, x, hx, hne⟩ := hother
        exact ⟨r, hs.spliced hhands hx hne hstep⟩
      · simp only [Accepts, not_forall, not_not] at haccepts
        obtain ⟨r, w, hhands⟩ := haccepts
        exact ⟨r, hs.refused hhands hstep⟩
    obtain ⟨r, w', hw', hstream, hnot⟩ := hbad
    exact hnot (hall r w' hw' hstream)
  have hiff := TransitionSystem.forall_prefix_iff_runAllowed
    (P := fun s => ∀ r w, s.reqs r = some w → w.streaming = true →
      Contiguous s w)
    (fun _ hs => hs.streams) (fun _ _ _ hs ha => hs.step ha.1 ha.2) hbreak
    (Unrefused.init numBuckets defaultTtl) hrun
  rw [hiff]
  refine ⟨fun h => h.1, fun h => ⟨h, h.mono fun s a ha => ?_⟩⟩
  exact fun r w s' w' hhands => absurd hhands (ha.1 r w)

/-- A chunk of one byte is found, and `uv_write` takes it or not. -/
def oneChunk (accepted : Bool) : List Action :=
  arriveFirst 0 rootRequest ++ beginLoad 0 ++ deliver 0 [65] ++
    [.request 0 .lookupBegin, .request 0 (.lookupEnd 0 accepted)]

/-- The offset has moved over the byte that was refused. -/
theorem oneChunk_refused :
    ∃ s w, proxy.run (.init 1 60) (oneChunk false) = some s ∧
      s.reqs 0 = some w ∧ w.releasedBy = none ∧ w.lastOffset = 1 ∧
      w.sent = [] ∧ ¬Contiguous s w := by
  refine ⟨_, _, rfl, rfl, rfl, rfl, rfl, fun h => ?_⟩
  exact absurd h.length (by decide)

/-- The byte is accepted, and a second chunk follows. -/
def twoAccepted : List Action :=
  oneChunk true ++ [.request 0 (.onWritten true)] ++ deliver 0 [66] ++
    sendChunk 0

theorem contiguous_iff_accepts_twoAccepted :
    ∃ s, proxy.run (.init 1 60) twoAccepted = some s ∧
      (s.reqs 0).map WriteReq.sent = some [65, 66] ∧
      (((∀ pre, pre <+: twoAccepted → ∀ s',
          proxy.run (.init 1 60) pre = some s' →
            ∀ r w, s'.reqs r = some w → w.streaming = true →
              Contiguous s' w) ∧
        proxy.RunAllowed KeepsOffset (.init 1 60) twoAccepted) ↔
        proxy.RunAllowed (fun s a => s.Accepts a ∧ s.SameEntry a) (.init 1 60)
          twoAccepted) :=
  ⟨_, rfl, rfl, contiguous_iff_accepts 1 60 _ _ rfl⟩

end Streaming
end Proxy
end OsFifthSem
