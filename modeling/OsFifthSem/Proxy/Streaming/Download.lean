import OsFifthSem.Proxy.Cache.SharedEntry.Linearizable
import OsFifthSem.Proxy.Streaming.Model
import OsFifthSem.Support.AtomicClient

/-!
# Clients of one entry, access by access

The loader appends the chunks that arrive and finishes the entry behind the
last one; it stops behind an append that fails.  Every other thread sends the
entry to a client with `send_next_chunk`, which may be called again at any
time.  The threads meet at the entry whose accesses are single steps.
-/

namespace OsFifthSem
namespace Proxy
namespace Download

open Support SharedEntry Streaming

universe u

/-- The progress of a write request, and the work that a loader has left. -/
structure Local where
  lastOffset : ℕ
  sent : List UInt8
  complete : Bool
  failed : Bool
  todo : List (List UInt8 × Realloc)
  stopped : Bool

/-- `uv_write` of a chunk, with the advance of `last_offset`. -/
def Local.write (c : Local) (data : List UInt8) : Local :=
  { c with lastOffset := c.lastOffset + data.length, sent := c.sent ++ data }

/-- `send_next_chunk` behind its lookup. -/
def sendNextChunk (c : Local) (res : LookupResult) : Local :=
  match res.status with
  | .done | .found =>
      if res.data.length > 0 then c.write res.data
      else if !res.isLoading.getD false then { c with complete := true }
      else c
  | .newLoaded => if res.data.length > 0 then c.write res.data else c
  | .newNotLoaded | .notFound => c
  | .error => { c with failed := true }

/-- `write_callback` behind `cache_append_data`, and `load_http_resp` behind
`cache_finish_loading`. -/
def writeCallback (c : Local) (code : ℤ) : Local :=
  match c.todo with
  | [] => { c with stopped := true }
  | _ :: rest =>
      if code = 0 then { c with todo := rest } else { c with stopped := true }

/-- The threads around one entry; `w` is the loader. -/
def downloads
    {T : Type u} [DecidableEq T] (w : T) (chunks : List (List UInt8 × Realloc))
    (r : Realloc) : Client T Call Reply Local where
  start := fun _ => ⟨0, [], false, false, chunks, false⟩
  next := fun t c =>
    if t = w then
      if c.stopped then none
      else
        match c.todo with
        | [] => some (.finishLoading r)
        | (chunk, r) :: _ => some (.appendData chunk r)
    else if c.complete || c.failed then none
    else some (.lookupPartial ⟨c.lastOffset, packetSize⟩)
  resume := fun t c reply =>
    match reply with
    | .looked res => if t = w then none else some (sendNextChunk c res)
    | .returned code => if t = w then some (writeCallback c code) else none

/-- The bytes of some chunks. -/
def response (chunks : List (List UInt8 × Realloc)) : List UInt8 :=
  (chunks.map Prod.fst).flatten

/-! ## What holds whatever the order of the calls -/

/-- The chunk of an append that has taken effect and not returned yet. -/
def landed (c : Local) : CallPhase Call Reply → List UInt8
  | .answered (.returned code) =>
      if code = 0 then c.todo.head?.elim [] Prod.fst else []
  | .answered (.looked _) | .idle | .called _ => []

/-- A client has got the first bytes of the entry, and all of them when its
request is complete. -/
structure Local.Follows (c : Local) (e : Entry) : Prop where
  lastOffset : c.lastOffset = c.sent.length
  sent : c.sent <+: e.data
  failed : c.failed = false
  complete : c.complete = true → e.isLoading = false ∧ c.sent = e.data

/-- What a lookup may return to a client. -/
inductive Local.Gets (c : Local) (e : Entry) : LookupResult → Prop
  | newLoaded (data : List UInt8) (loading : Option Bool)
      (hdata : c.sent ++ data <+: e.data) : c.Gets e ⟨.newLoaded, data, loading⟩
  | newNotLoaded (data : List UInt8) (loading : Option Bool) :
      c.Gets e ⟨.newNotLoaded, data, loading⟩
  | done (loading : Option Bool) (hdone : e.isLoading = false)
      (hsent : c.sent = e.data) : c.Gets e ⟨.done, [], loading⟩

/-- The entry holds the chunks appended so far, and the clients follow it. -/
structure Streams {T : Type u} [DecidableEq T] (w : T)
    (chunks : List (List UInt8 × Realloc)) (r : Realloc)
    (u : AtomicState T Call Reply Entry) (cs : T → Local) : Prop where
  calls : ∀ t c, u.phase t = .called c →
    (downloads w chunks r).next t (cs t) = some c
  loaded : ∃ taken, chunks = taken ++ (cs w).todo ∧
    u.value.data = response taken ++ landed (cs w) (u.phase w)
  finished : u.value.isLoading = false → (cs w).todo = []
  follows : ∀ t, t ≠ w → (cs t).Follows u.value
  gets : ∀ t, t ≠ w → ∀ reply, u.phase t = .answered reply →
    ∃ res, reply = .looked res ∧ (cs t).Gets u.value res

variable {T : Type u} [DecidableEq T] {w t : T}
  {chunks : List (List UInt8 × Realloc)} {r : Realloc}
  {u : AtomicState T Call Reply Entry} {cs : T → Local} {c : Local}
  {e e' : Entry} {res : LookupResult}

namespace Local

/-- More bytes arrive while the entry is loading. -/
theorem Follows.append
    {more : List UInt8} (hf : c.Follows e) (hl : e.isLoading = true)
    (hdata : e'.data = e.data ++ more) : c.Follows e' where
  lastOffset := hf.lastOffset
  sent := hdata ▸ hf.sent.trans (List.prefix_append _ _)
  failed := hf.failed
  complete := fun hc => nomatch hl.symm.trans (hf.complete hc).1

theorem Gets.append
    {more : List UInt8} (hg : c.Gets e res) (hl : e.isLoading = true)
    (hdata : e'.data = e.data ++ more) : c.Gets e' res := by
  cases hg with
  | newLoaded data loading h =>
      exact .newLoaded data loading
        (hdata ▸ h.trans (List.prefix_append _ _))
  | newNotLoaded data loading => exact .newNotLoaded data loading
  | done loading hdone hsent => exact nomatch hl.symm.trans hdone

/-- The entry is finished. -/
theorem Follows.finish
    (hf : c.Follows e) (hl : e.isLoading = true) (hdata : e'.data = e.data) :
    c.Follows e' :=
  hf.append hl (hdata.trans (List.append_nil _).symm)

theorem Gets.finish
    (hg : c.Gets e res) (hl : e.isLoading = true) (hdata : e'.data = e.data) :
    c.Gets e' res :=
  hg.append hl (hdata.trans (List.append_nil _).symm)

/-- What a lookup finds behind the bytes that the client has got. -/
theorem Follows.gets (hf : c.Follows e) :
    c.Gets e (readEntry e.isLoading e.data c.lastOffset packetSize) := by
  obtain ⟨rest, hrest⟩ := hf.sent
  have hdrop : e.data.drop c.lastOffset = rest := by
    rw [hf.lastOffset, ← hrest, List.drop_left]
  have hlen : c.lastOffset ≤ e.data.length := by
    rw [hf.lastOffset]
    exact hf.sent.length_le
  unfold readEntry
  rw [if_neg (by simp [packetSize])]
  split
  · exact .newNotLoaded _ _
  · rename_i hmore
    rw [if_neg (by omega)]
    change c.Gets e (Lookup.chunkResult ⟨c.lastOffset, packetSize⟩ e.isLoading
      e.data.length e.data)
    unfold Lookup.chunkResult
    split
    · refine .newLoaded _ _ ?_
      rw [hdrop, ← hrest]
      exact (List.prefix_append_right_inj _).mpr (List.take_prefix _ _)
    · -- all bytes have been sent, and the loader has finished
      rename_i hnone
      have hend : e.data.length ≤ c.lastOffset := by
        unfold Lookup.copySize at hnone
        dsimp only at hnone
        split at hnone
        · exact absurd (by decide) hnone
        · omega
      have hdone : e.isLoading = false := by
        by_contra hl
        exact hmore (by simp [hl, hend])
      refine .done _ hdone ?_
      have hnil : rest = [] := by
        rw [← hdrop, List.drop_eq_nil_iff]
        exact hend
      rw [← hrest, hnil, List.append_nil]

/-- The client goes on behind its lookup. -/
theorem Follows.sendNextChunk (hf : c.Follows e) (hg : c.Gets e res) :
    (sendNextChunk c res).Follows e := by
  cases hg with
  | newNotLoaded data loading => exact hf
  | newLoaded data loading hdata =>
      change Follows (if data.length > 0 then c.write data else c) e
      split
      · rename_i hpos
        refine ⟨?_, hdata, hf.failed, fun hc => ?_⟩
        · change c.lastOffset + data.length = (c.sent ++ data).length
          rw [hf.lastOffset, List.length_append]
        · -- nothing is left to send to a client whose request is complete
          have hle := hdata.length_le
          rw [(hf.complete hc).2, List.length_append] at hle
          omega
      · exact hf
  | done loading hdone hsent =>
      change Follows (if !loading.getD false then { c with complete := true }
        else c) e
      split
      · exact ⟨hf.lastOffset, hf.sent, hf.failed, fun _ => ⟨hdone, hsent⟩⟩
      · exact hf

end Local

/-! ## The steps -/

namespace Streams

theorem call
    {o : Call} (h : Streams w chunks r u cs) (hidle : u.phase t = .idle)
    (hnext : (downloads w chunks r).next t (cs t) = some o) :
    Streams w chunks r
      { u with phase := Function.update u.phase t (.called o) } cs where
  calls := fun x d hx => by
    by_cases hxt : x = t
    · subst hxt
      obtain rfl : o = d := by simpa using hx
      exact hnext
    · exact h.calls x d (by simpa [hxt] using hx)
  loaded := by
    obtain ⟨taken, htodo, hdata⟩ := h.loaded
    refine ⟨taken, htodo, ?_⟩
    by_cases hw : w = t
    · subst hw
      simpa [hidle, landed] using hdata
    · simpa [hw] using hdata
  finished := h.finished
  follows := h.follows
  gets := fun x hx reply hreply => by
    by_cases hxt : x = t
    · subst hxt
      simp at hreply
    · exact h.gets x hx reply (by simpa [hxt] using hreply)

/-- The calls under way, when one of them has taken effect. -/
theorem calls_effect
    (h : Streams w chunks r u cs) (reply : Reply) (x : T) (d : Call)
    (hx : Function.update u.phase t (.answered reply) x = .called d) :
    (downloads w chunks r).next x (cs x) = some d := by
  by_cases hxt : x = t
  · subst hxt
    simp at hx
  · exact h.calls x d (by simpa [hxt] using hx)

/-- A lookup takes effect. -/
theorem lookup_effect
    {l : Lookup} (h : Streams w chunks r u cs)
    (hcalled : u.phase t = .called (.lookupPartial l)) :
    Streams w chunks r
      { u with phase := Function.update u.phase t (.answered (.looked
          (readEntry u.value.isLoading u.value.data l.offset l.maxSize))) }
      cs := by
  have hnext := h.calls t _ hcalled
  have htw : t ≠ w := by
    rintro rfl
    simp only [downloads, if_true] at hnext
    split at hnext
    · cases hnext
    · split at hnext <;> cases hnext
  have hl : l = ⟨(cs t).lastOffset, packetSize⟩ := by
    simp only [downloads, if_neg htw, Option.ite_none_left_eq_some,
      Option.some.injEq, Call.lookupPartial.injEq] at hnext
    exact hnext.2.symm
  refine ⟨h.calls_effect _, ?_, h.finished, h.follows, ?_⟩
  · obtain ⟨taken, htodo, hdata⟩ := h.loaded
    exact ⟨taken, htodo, by simpa [Ne.symm htw] using hdata⟩
  · intro x hx reply hreply
    by_cases hxt : x = t
    · subst hxt
      obtain rfl : _ = reply := by simpa using hreply
      refine ⟨_, rfl, ?_⟩
      rw [hl]
      exact (h.follows x hx).gets
    · exact h.gets x hx reply (by simpa [hxt] using hreply)

/-- Only the loader writes, and it does what is next in its program. -/
theorem todo_of_append
    {chunk : List UInt8} {r' : Realloc} (h : Streams w chunks r u cs)
    (hcalled : u.phase t = .called (.appendData chunk r')) :
    t = w ∧ ∃ rest, (cs w).todo = (chunk, r') :: rest := by
  have hnext := h.calls t _ hcalled
  by_cases htw : t = w
  · subst htw
    refine ⟨rfl, ?_⟩
    simp only [downloads, if_true, Option.ite_none_left_eq_some] at hnext
    cases htodo : (cs t).todo with
    | nil => simp [htodo] at hnext
    | cons p rest =>
        obtain ⟨chunk', r''⟩ := p
        simp only [htodo, Option.some.injEq, Call.appendData.injEq] at hnext
        obtain ⟨-, rfl, rfl⟩ := hnext
        exact ⟨rest, rfl⟩
  · simp [downloads, htw] at hnext

theorem todo_of_finish
    {r' : Realloc} (h : Streams w chunks r u cs)
    (hcalled : u.phase t = .called (.finishLoading r')) :
    t = w ∧ (cs w).todo = [] := by
  have hnext := h.calls t _ hcalled
  by_cases htw : t = w
  · subst htw
    refine ⟨rfl, ?_⟩
    simp only [downloads, if_true, Option.ite_none_left_eq_some] at hnext
    cases htodo : (cs t).todo with
    | nil => rfl
    | cons p rest => simp [htodo] at hnext
  · simp [downloads, htw] at hnext

/-- The loader has made its change `v` of the entry. -/
theorem write_effect
    {v : Entry} {code : ℤ} (more : List UInt8) (h : Streams w chunks r u cs)
    (hl : u.value.isLoading = true) (hdata : v.data = u.value.data ++ more)
    (hmore : more = landed (cs w) (.answered (.returned code)))
    (hold : landed (cs w) (u.phase w) = [])
    (hfinished : v.isLoading = false → (cs w).todo = []) :
    Streams w chunks r
      { value := v
        phase := Function.update u.phase w (.answered (.returned code)) }
      cs where
  calls := h.calls_effect _
  loaded := by
    obtain ⟨taken, htodo, hold'⟩ := h.loaded
    refine ⟨taken, htodo, ?_⟩
    dsimp only
    rw [hdata, hold', hold, List.append_nil, Function.update_self, hmore]
  finished := hfinished
  follows := fun x hx => (h.follows x hx).append hl hdata
  gets := fun x hx reply hreply => by
    obtain ⟨res, hres, hg⟩ :=
      h.gets x hx reply (by simpa [hx] using hreply)
    exact ⟨res, hres, hg.append hl hdata⟩

theorem effect
    {o : Call} {reply : Reply} {v : Entry} {e₀ : Entry}
    (h : Streams w chunks r u cs) (hcalled : u.phase t = .called o)
    (happly : (entryObject T e₀).apply u.value t o = some (reply, v)) :
    Streams w chunks r
      { value := v
        phase := Function.update u.phase t (.answered reply) } cs := by
  cases o with
  | lookupPartial l =>
      obtain ⟨rfl, rfl⟩ := Prod.mk.inj (Option.some.inj happly)
      exact h.lookup_effect hcalled
  | appendData chunk r' =>
      obtain ⟨rfl, rest, htodo⟩ := h.todo_of_append hcalled
      have hl : u.value.isLoading = true := by
        by_contra hl
        rw [Bool.not_eq_true] at hl
        simp [h.finished hl] at htodo
      simp only [entryObject, hl, if_true] at happly
      obtain ⟨⟨code, e'⟩, happend, hret⟩ := Option.map_eq_some_iff.mp happly
      obtain ⟨rfl, rfl⟩ := Prod.mk.inj hret
      obtain ⟨-, hload, -, hcases⟩ := Entry.appendData_cases happend
      have hloading : e'.isLoading = false → (cs t).todo = [] := fun hdone =>
        Bool.noConfusion ((hload.trans hl).symm.trans hdone)
      have hold : landed (cs t) (u.phase t) = [] := by
        rw [hcalled]
        rfl
      rcases hcases with ⟨rfl, hdata⟩ | ⟨rfl, -, hdata⟩
      · exact h.write_effect chunk hl hdata (by simp [landed, htodo]) hold hloading
      · exact h.write_effect [] hl (by rw [hdata, List.append_nil])
          (by simp [landed]) hold hloading
  | finishLoading r' =>
      obtain ⟨rfl, htodo⟩ := h.todo_of_finish hcalled
      have hold : landed (cs t) (u.phase t) = [] := by
        rw [hcalled]
        rfl
      simp only [entryObject] at happly
      split at happly
      next hl =>
        obtain ⟨e', hfinish, hret⟩ := Option.map_eq_some_iff.mp happly
        obtain ⟨rfl, rfl⟩ := Prod.mk.inj hret
        obtain ⟨-, -, hdata, -, -⟩ := Entry.finishLoading_spec hfinish
        exact h.write_effect [] hl (by rw [hdata, List.append_nil])
          (by simp [landed, htodo]) hold fun _ => htodo
      next hl =>
        obtain ⟨rfl, rfl⟩ := Prod.mk.inj (Option.some.inj happly)
        refine ⟨h.calls_effect _, ?_, h.finished, h.follows, ?_⟩
        · obtain ⟨taken, htaken, hdata⟩ := h.loaded
          refine ⟨taken, htaken, ?_⟩
          rw [hold] at hdata
          simpa [landed] using hdata
        · intro x hx reply hreply
          exact h.gets x hx reply (by simpa [hx] using hreply)

/-- A client or the loader goes on behind its call. -/
theorem answer
    {reply : Reply} (h : Streams w chunks r u cs)
    (hanswered : u.phase t = .answered reply)
    (hresume : (downloads w chunks r).resume t (cs t) reply = some c) :
    Streams w chunks r
      { u with phase := Function.update u.phase t .idle }
      (Function.update cs t c) := by
  have hcalls : ∀ x d, Function.update u.phase t .idle x = .called d →
      (downloads w chunks r).next x (Function.update cs t c x) = some d := by
    intro x d hx
    by_cases hxt : x = t
    · subst hxt
      simp at hx
    · rw [Function.update_of_ne hxt]
      exact h.calls x d (by simpa [hxt] using hx)
  have hgets : ∀ x, x ≠ w → ∀ reply,
      Function.update u.phase t .idle x = .answered reply →
      ∃ res, reply = .looked res ∧
        (Function.update cs t c x).Gets u.value res := by
    intro x hx reply hreply
    by_cases hxt : x = t
    · subst hxt
      simp at hreply
    · rw [Function.update_of_ne hxt]
      exact h.gets x hx reply (by simpa [hxt] using hreply)
  by_cases htw : t = w
  · subst htw
    cases reply with
    | looked res => simp [downloads] at hresume
    | returned code =>
        obtain rfl : writeCallback (cs t) code = c := by
          simpa [downloads] using hresume
        obtain ⟨taken, htodo, hdata⟩ := h.loaded
        rw [hanswered] at hdata
        have hfollows : ∀ x, x ≠ t →
            (Function.update cs t (writeCallback (cs t) code) x).Follows
              u.value := by
          intro x hx
          rw [Function.update_of_ne hx]
          exact h.follows x hx
        refine ⟨hcalls, ?_, ?_, hfollows, hgets⟩
        · simp only [Function.update_self, landed, List.append_nil]
          unfold writeCallback
          cases hrest : (cs t).todo with
          | nil =>
              rw [hrest] at htodo
              exact ⟨taken, by simp [htodo],
                by simpa [landed, hrest] using hdata⟩
          | cons p rest =>
              rw [hrest] at htodo
              dsimp only
              split
              · rename_i hzero
                refine ⟨taken ++ [p], by simp [htodo], ?_⟩
                simpa [landed, hrest, hzero, response] using hdata
              · rename_i hcode
                exact ⟨taken, by simp [htodo],
                  by simpa [landed, hcode] using hdata⟩
        · intro hdone
          rw [Function.update_self, writeCallback, h.finished hdone]
  · obtain ⟨res, rfl, hg⟩ := h.gets t htw reply hanswered
    obtain rfl : sendNextChunk (cs t) res = c := by
      simpa [downloads, htw] using hresume
    refine ⟨hcalls, ?_, ?_, ?_, hgets⟩
    · simpa [Ne.symm htw] using h.loaded
    · simpa [Ne.symm htw] using h.finished
    · intro x hx
      by_cases hxt : x = t
      · subst hxt
        rw [Function.update_self]
        exact (h.follows x hx).sendNextChunk hg
      · rw [Function.update_of_ne hxt]
        exact h.follows x hx

end Streams

theorem streams_invariant
    (w : T) (chunks : List (List UInt8 × Realloc)) (r : Realloc)
    (key : CString) (now : ℤ) :
    Client.Invariant (entryObject T (createEntry key 4096 now))
      (downloads w chunks r) (Streams w chunks r) where
  initial :=
    { calls := fun _ _ h => nomatch h
      loaded := ⟨[], rfl, rfl⟩
      finished := fun h => nomatch h
      follows := fun _ _ => ⟨rfl, List.prefix_rfl, rfl, fun h => nomatch h⟩
      gets := fun _ _ _ h => nomatch h }
  call := fun _ _ _ _ h => h.call
  effect := fun _ _ _ _ _ _ h hcalled happly => h.effect hcalled happly
  answer := fun _ _ _ _ _ h => h.answer

/-- Whatever the order of the accesses of all threads, a client has been sent
the first bytes of the response and nothing else, its request never fails, and
when it is complete the client has got the whole response. -/
theorem downloads_exact
    (T : Type u) [DecidableEq T] (w : T) (key : CString)
    (now : ℤ) (chunks : List (List UInt8 × Realloc)) (r : Realloc)
    (events : List (CallEvent T Call Reply)) (cs : T → Local)
    (hfollow : (downloads w chunks r).follow (downloads w chunks r).start
      events = some cs)
    (htrace : (entrySystem w (createEntry key 4096 now)).IsTraceUnder
      Timely observed events) :
    ∀ t, t ≠ w → (cs t).failed = false ∧ (cs t).sent <+: response chunks ∧
      ((cs t).complete = true → (cs t).sent = response chunks) := by
  obtain ⟨u, h⟩ :=
    (streams_invariant w chunks r key now).of_linearizable
      (entry_linearizable T w key now) htrace hfollow
  intro t ht
  have hf := h.follows t ht
  obtain ⟨taken, htodo, hdata⟩ := h.loaded
  have hprefix : u.value.data <+: response chunks := by
    rw [hdata, htodo]
    simp only [response, List.map_append, List.flatten_append]
    rw [List.prefix_append_right_inj]
    unfold landed
    split
    · split
      · cases (cs w).todo with
        | nil => exact List.nil_prefix
        | cons p rest => exact List.prefix_append _ _
      · exact List.nil_prefix
    all_goals exact List.nil_prefix
  refine ⟨hf.failed, hf.sent.trans hprefix, fun hc => ?_⟩
  obtain ⟨hdone, hsent⟩ := hf.complete hc
  have hnil := h.finished hdone
  rw [hnil, List.append_nil] at htodo
  rw [hsent, hdata, htodo]
  have hlanded : landed (cs w) (u.phase w) = [] := by
    unfold landed
    split
    · simp [hnil]
    all_goals rfl
  rw [hlanded, List.append_nil]

/-- The client `t` gets the only chunk, and loads the flag again before the
loader `w` clears it and the size afterwards. -/
def downloadSchedule (w t : T) : List (Action T) :=
  .call w (.appendData [7] .moves) :: List.replicate 8 (.advance w) ++
  .call t (.lookupPartial ⟨0, packetSize⟩) :: List.replicate 8 (.advance t) ++
  .call t (.lookupPartial ⟨1, packetSize⟩) :: List.replicate 2 (.advance t) ++
  .call w (.finishLoading .moves) :: List.replicate 8 (.advance w) ++
  List.replicate 2 (.advance t) ++
  .call t (.lookupPartial ⟨1, packetSize⟩) :: List.replicate 6 (.advance t)

def downloadEvents (w t : T) : List (CallEvent T Call Reply) :=
  [.call w (.appendData [7] .moves), .answer w (.returned 0),
    .call t (.lookupPartial ⟨0, packetSize⟩),
    .answer t (.looked ⟨.newLoaded, [7], some true⟩),
    .call t (.lookupPartial ⟨1, packetSize⟩),
    .call w (.finishLoading .moves), .answer w (.returned 0),
    .answer t (.looked ⟨.newNotLoaded, [], some true⟩),
    .call t (.lookupPartial ⟨1, packetSize⟩),
    .answer t (.looked ⟨.done, [], some false⟩)]

theorem downloadEvents_isTrace (key : CString) :
    (entrySystem (0 : Fin 2) (createEntry key 4096 0)).IsTraceUnder Timely
      observed (downloadEvents 0 1) := by
  obtain ⟨s, hsteps⟩ : ∃ s, (entrySystem (0 : Fin 2)
      (createEntry key 4096 0)).runWhile (fun s a => decide (Timely s a))
        (start (Fin 2) (createEntry key 4096 0)) (downloadSchedule 0 1) =
      some s := ⟨_, rfl⟩
  obtain ⟨hallowed, hrun⟩ := TransitionSystem.runAllowed_of_runWhile
    (fun _ _ h => of_decide_eq_true h) hsteps
  exact ⟨_, downloadSchedule 0 1, s, rfl, hallowed, hrun, rfl⟩

theorem downloads_exact_chunk :
    ∃ cs : Fin 2 → Local, (cs 1).complete = true ∧ (cs 1).sent = [7] := by
  obtain ⟨cs, hfollow, hcomplete⟩ : ∃ cs,
      (downloads (0 : Fin 2) [([7], .moves)] .moves).follow
        (downloads (0 : Fin 2) [([7], .moves)] .moves).start
        (downloadEvents 0 1) = some cs ∧ (cs 1).complete = true := ⟨_, rfl, rfl⟩
  have hmain := downloads_exact (Fin 2) 0 (.ofBuffer [97]) 0
    [([7], .moves)] .moves _ cs hfollow (downloadEvents_isTrace _) 1 (by decide)
  exact ⟨cs, hcomplete, hmain.2.2 hcomplete⟩

end Download
end Proxy
end OsFifthSem
