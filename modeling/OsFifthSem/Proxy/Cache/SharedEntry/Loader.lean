import OsFifthSem.Proxy.Cache.SharedEntry.Refines

/-!
# The steps of the loader

An append takes effect when it stores the new size, and finishing when it
clears the flag.  A lookup that has found the flag set but has not loaded the
size yet takes effect just before the flag is cleared: the size does not change
any more.
-/

namespace OsFifthSem
namespace Proxy
namespace SharedEntry

open Support

universe u

variable {T : Type u} {w t : T} {s s' : State T} {e₀ e e' : Entry}
  {u u' : AtomicState T Call Reply Entry} {chunk more : List UInt8}
  {r : Realloc} {size newSize : ℕ} {code : ℤ} {h h' : Heap} {p pc : Pc}
  {ph : CallPhase Call Reply} {heap : Heap}

/-! ## The block of the entry -/

/-- The loop that doubles `new_size` ends with enough room. -/
theorem le_of_growSize
    {need fuel n : ℕ} (hgrow : growSize need fuel n = some size) :
    need ≤ size := by
  induction fuel generalizing n with
  | zero => cases hgrow
  | succ fuel ih =>
      rw [growSize] at hgrow
      split at hgrow
      · exact ih hgrow
      · obtain rfl := Option.some.inj hgrow
        omega

theorem sizeAdd_of_le {m n : ℕ} (h : m + n ≤ 2 ^ 63) :
    sizeAdd m n = m + n :=
  Nat.mod_eq_of_lt (h.trans_lt (by decide))

theorem Grown.le
    (hgrown : Grown e chunk r size)
    (hfits : e.data.length + chunk.length ≤ 2 ^ 63) :
    e.data.length + chunk.length ≤ size := by
  rw [Grown, sizeAdd_of_le hfits] at hgrown
  rcases hgrown with ⟨hle, rfl⟩ | ⟨-, hgrow, -⟩
  · exact hle
  · exact le_of_growSize hgrow

/-- The append that the steps of the loader amount to. -/
theorem Grown.appendData
    (hgrown : Grown e chunk r size) (hlive : e.dataLive = true)
    (hfits : e.data.length + chunk.length ≤ 2 ^ 63) :
    e.appendData chunk e.lastAccessed r.ok =
      some (0, { e with allocatedSize := size, data := e.data ++ chunk }) := by
  have hle := hgrown.le hfits
  have hstore : Entry.storeChunk { e with allocatedSize := size } chunk =
      some { e with allocatedSize := size, data := e.data ++ chunk } :=
    Entry.storeChunk_eq_some_iff.mpr ⟨hle, rfl⟩
  unfold Entry.appendData
  dsimp only
  rw [if_neg (by simp [hlive])]
  rcases hgrown with ⟨hroom, rfl⟩ | ⟨hfull, hgrow, hok⟩
  · rw [if_neg (Nat.not_lt.mpr hroom), hstore]
    rfl
  · rw [if_pos hfull, hgrow, Option.bind_some, if_pos hok, hstore]
    rfl

theorem Grown.growable
    (hgrown : Grown e chunk r size) (he : Growable e)
    (hlive : e'.dataLive = e.dataLive) (hsize : e'.allocatedSize = size) :
    Growable e' := by
  obtain ⟨hlive', k, hk, hlt⟩ := he
  refine ⟨hlive.trans hlive', ?_⟩
  rw [hsize]
  rcases hgrown with ⟨-, rfl⟩ | ⟨hfull, hgrow, -⟩
  · exact ⟨k, hk, hlt⟩
  · obtain ⟨j, hj⟩ := exists_pow_of_growSize hk hlt (by omega) hgrow
    exact ⟨j, hj, (growSize_bounds hlt hgrow).2⟩

/-- The append whose `realloc` fails. -/
theorem appendData_fails
    (hlive : e.dataLive = true)
    (hfull : e.allocatedSize < sizeAdd e.data.length chunk.length)
    (hgrow : growSize (sizeAdd e.data.length chunk.length) 65
      e.allocatedSize = some newSize) :
    e.appendData chunk e.lastAccessed false = some (-1, e) := by
  unfold Entry.appendData
  dsimp only
  rw [if_neg (by simp [hlive]), if_pos hfull, hgrow]
  rfl

theorem exists_finishLoading (hlive : e.dataLive = true) (ok : Bool) :
    ∃ e', e.finishLoading e.lastAccessed ok = some e' := by
  simp only [Entry.finishLoading, hlive, Bool.not_true, Bool.false_eq_true,
    if_false]
  split_ifs <;> exact ⟨_, rfl⟩

namespace Heap.Agrees

/-- The loader moves to a program point at which it has done as much. -/
theorem congr_of
    (ha : h.Agrees e p) (hpending : pc.pending = p.pending)
    (hgrown : pc.grown = p.grown) (hshrinks : pc.shrinks = p.shrinks) :
    h.Agrees e pc where
  isLoading := ha.isLoading
  dataSize := ha.dataSize
  growable := ha.growable
  allocated := fun hl hg => ha.allocated hl (hgrown ▸ hg)
  block := by
    rw [hpending, hshrinks]
    exact ha.block
  fresh := ha.fresh

/-- The block, when no copied bytes wait to be counted. -/
theorem settled_block
    (ha : h.Agrees e p) (hpending : p.pending = [])
    (hb : e.isLoading = true ∨ e.data ≠ [] ∨ p.shrinks = true) :
    h.blocks h.data = some ⟨e.data, h.allocatedSize⟩ := by
  have hblock := ha.block hb
  rwa [hpending, List.append_nil] at hblock

/-- The block of the entry is not a fresh one. -/
theorem data_lt
    {b : Block} (ha : h.Agrees e p) (hblock : h.blocks h.data = some b) :
    h.data < h.nextBlock := by
  by_contra hge
  rw [ha.fresh _ (by omega)] at hblock
  cases hblock

/-- A `realloc` that keeps all bytes of the entry. -/
theorem realloc
    (ha : h.Agrees e p) (hblock : h.blocks h.data = some ⟨e.data, n⟩)
    (hsize : newSize ≠ 0) (hle : e.data.length ≤ newSize) :
    ∃ h', h.realloc r newSize = some h' ∧
      h'.isLoading = h.isLoading ∧ h'.dataSize = h.dataSize ∧
      (∀ a, h'.nextBlock ≤ a → h'.blocks a = none) ∧
      (r.ok = false → h' = h) ∧
      (r.ok = true → h'.allocatedSize = newSize ∧
        h'.blocks h'.data = some ⟨e.data, newSize⟩) := by
  have hlt := ha.data_lt hblock
  rw [Heap.realloc, hblock, Option.map_some, if_neg hsize,
    List.take_of_length_le hle]
  cases r with
  | fails => exact ⟨h, rfl, rfl, rfl, ha.fresh, fun _ => rfl, nofun⟩
  | inPlace =>
      refine ⟨_, rfl, rfl, rfl, fun a hfresh => ?_, nofun,
        fun _ => ⟨rfl, Function.update_self ..⟩⟩
      change h.nextBlock ≤ a at hfresh
      dsimp only
      rw [Function.update_of_ne (by omega)]
      exact ha.fresh a hfresh
  | moves =>
      refine ⟨_, rfl, rfl, rfl, fun a hfresh => ?_, nofun,
        fun _ => ⟨rfl, Function.update_self ..⟩⟩
      change h.nextBlock + 1 ≤ a at hfresh
      dsimp only
      rw [Function.update_of_ne (by omega), Function.update_of_ne (by omega)]
      exact ha.fresh a (by omega)

end Heap.Agrees

theorem Pc.ownsBucket_of_ownsData (hpc : pc.ownsData = true) :
    pc.ownsBucket = false := by
  unfold Pc.ownsData at hpc
  split at hpc <;> simp_all [Pc.ownsBucket]

namespace Refines

theorem not_writes (href : Refines w s u) (hne : t ≠ w) :
    (s.pc t).writes = false := by
  by_contra hwrites
  rw [Bool.not_eq_false] at hwrites
  exact hne (href.loader t hwrites)

theorem agrees_at (href : Refines w s u) (hpc : s.pc w = p) :
    s.heap.Agrees u.value p :=
  hpc ▸ href.heap

variable [DecidableEq T]

/-- A step of the loader that changes nothing but its program point. -/
theorem loader_same
    (href : Refines w s u) (hpc : s.pc w = p) (hold : p.ownsBucket = false)
    (hnew : pc.ownsBucket = false) (howns : pc.ownsData = p.ownsData)
    (hvalue : u'.value = u.value)
    (hphase : u'.phase = Function.update u.phase w ph)
    (hheap : s.heap.Agrees u.value pc)
    (hself : pc.Stands u.value s.heap (s.writer = none) ph) :
    Refines w (s.goto w pc) u' := by
  refine href.goto_loader (hpc ▸ hold) hnew (href.writer.keep ?_) href.apart
    (hvalue ▸ hheap) ?_ fun x hx => ?_
  · rw [howns, hpc]
  · rw [hvalue, hphase, Function.update_self]
    exact hself
  · rw [hvalue, hphase, Function.update_of_ne hx]
    exact href.stands x

/-- A silent step of the loader that changes nothing but its program
point. -/
theorem loader_silent
    (href : Refines w s u) (hpc : s.pc w = p) (hold : p.ownsBucket = false)
    (hnew : pc.ownsBucket = false) (howns : pc.ownsData = p.ownsData)
    (hheap : s.heap.Agrees u.value pc)
    (hself : pc.Stands u.value s.heap (s.writer = none) (u.phase w)) :
    Refines w (s.goto w pc) u :=
  href.loader_same hpc hold hnew howns rfl
    (Function.update_eq_self w u.phase).symm hheap hself

/-- A step of the loader under `data_lock`. -/
theorem loader_holding
    (more : List UInt8) (href : Refines w s u) (hpc : s.pc w = p)
    (howns : p.ownsData = true) (hkeeps : pc.ownsData = true)
    (hload : u'.value.isLoading = u.value.isLoading)
    (hdata : u'.value.data = u.value.data ++ more)
    (hmore : u.value.isLoading = false → more = [])
    (hphase : u'.phase = Function.update u.phase w ph)
    (hheap : heap.Agrees u'.value pc)
    (hself : pc.Stands u'.value heap (s.writer = none) ph) :
    Refines w ({ s with heap := heap }.goto w pc) u' := by
  have hheld : s.writer ≠ none := by
    rw [(href.writer w).mp (hpc ▸ howns)]
    simp
  refine href.goto_loader (hpc ▸ Pc.ownsBucket_of_ownsData howns)
    (Pc.ownsBucket_of_ownsData hkeeps) (href.writer.keep ?_) href.apart hheap
    ?_ fun x hx => ?_
  · rw [hkeeps, hpc, howns]
  · rw [hphase, Function.update_self]
    exact hself
  · rw [hphase, Function.update_of_ne hx]
    refine (href.stands x).frame (href.not_writes hx) more hload hdata
      (fun hl => ⟨hmore hl, fun hquiet => absurd hquiet hheld⟩) fun hreads => ?_
    rw [href.not_reads hheld x] at hreads
    cases hreads

/-- A step of the loader under `data_lock` that keeps the entry. -/
theorem loader_keeping
    (href : Refines w s u) (hpc : s.pc w = p) (howns : p.ownsData = true)
    (hkeeps : pc.ownsData = true) (hheap : heap.Agrees u.value pc)
    (hself : pc.Stands u.value heap (s.writer = none) (u.phase w)) :
    Refines w ({ s with heap := heap }.goto w pc) u :=
  href.loader_holding [] hpc howns hkeeps rfl (List.append_nil _).symm
    (fun _ => rfl) (Function.update_eq_self w u.phase).symm hheap hself

/-- Taking `data_lock`, while the entry is loading. -/
theorem loader_acquire
    (href : Refines w s u) (hpc : s.pc w = p) (hold : p.ownsBucket = false)
    (hfree : s.writer = none) (hnone : s.readers = 0)
    (hkeeps : pc.ownsData = true) (hl : u.value.isLoading = true)
    (hheap : s.heap.Agrees u.value pc)
    (hself : pc.Stands u.value s.heap False (u.phase w)) :
    Refines w ({ s with writer := some w }.goto w pc) u := by
  have hfalse : (some w = none) = False := by simp
  refine href.goto_loader (hpc ▸ hold) (Pc.ownsBucket_of_ownsData hkeeps)
    (href.writer.acquire hfree hkeeps) (Or.inr hnone) hheap ?_ fun x hx => ?_
  · rw [hfalse]
    exact hself
  · exact (href.stands x).frame (href.not_writes hx) [] rfl
      (List.append_nil _).symm (fun hdone => by simp [hl] at hdone)
      fun _ => rfl

/-- Giving up `data_lock`. -/
theorem loader_release
    (href : Refines w s u) (hpc : s.pc w = p) (howns : p.ownsData = true)
    (hnew : pc.ownsBucket = false) (hgives : pc.ownsData = false)
    (hheap : s.heap.Agrees u.value pc)
    (hself : pc.Stands u.value s.heap True (u.phase w)) :
    Refines w ({ s with writer := none }.goto w pc) u := by
  have htrue : ((none : Option T) = none) = True := by simp
  refine href.goto_loader (hpc ▸ Pc.ownsBucket_of_ownsData howns) hnew
    (href.writer.release (hpc ▸ howns) hgives) (Or.inl rfl) hheap ?_
    fun x hx => ?_
  · rw [htrue]
    exact hself
  · exact (href.stands x).frame (href.not_writes hx) [] rfl
      (List.append_nil _).symm (fun _ => ⟨rfl, fun _ => ⟨rfl, rfl⟩⟩)
      fun _ => rfl

/-! ## Appending -/

theorem append_test
    (href : Refines w s u) (hpc : s.pc w = .append chunk r .test) :
    ∃ u', (entryObject T e₀).Explains u [] u' ∧
      Refines w (s.goto w (.append chunk r
        (if s.heap.isLoading then .wrLock else .exit (-1)))) u' := by
  obtain ⟨hph, hfits⟩ := href.stands_at hpc
  rw [href.heap.isLoading]
  cases hl : u.value.isLoading with
  | true =>
      exact ⟨u, .silent u, href.loader_silent hpc rfl rfl rfl
        ((href.agrees_at hpc).congr_of rfl rfl rfl) ⟨hph, hfits, hl⟩⟩
  | false =>
      have happly : (entryObject T e₀).apply u.value w (.appendData chunk r) =
          some (.returned (-1), u.value) := by
        simp [entryObject, hl]
      exact ⟨_, .effect hph happly, href.loader_same hpc rfl rfl rfl rfl rfl
        ((href.agrees_at hpc).congr_of rfl rfl rfl) rfl⟩

theorem append_loadSize
    (href : Refines w s u) (hpc : s.pc w = .append chunk r .loadSize)
    (hstep : appendStep s w chunk r .loadSize = some s') :
    Refines w s' u := by
  obtain ⟨hph, hfits, hl⟩ := href.stands_at hpc
  have hheap := href.agrees_at hpc
  have hsize := hheap.dataSize
  have halloc := hheap.allocated hl rfl
  simp only [appendStep, hsize, halloc] at hstep
  split at hstep
  next hfull =>
    obtain ⟨newSize, hgrow, rfl⟩ := Option.map_eq_some_iff.mp hstep
    exact href.loader_silent hpc rfl rfl rfl (hheap.congr_of rfl rfl rfl)
      ⟨hph, hfits, hl, rfl, hfull, hgrow⟩
  next hroom =>
    obtain rfl := Option.some.inj hstep
    refine href.loader_silent hpc rfl rfl rfl ?_
      ⟨hph, hfits, hl, rfl, Or.inl ⟨Nat.not_lt.mp hroom, halloc⟩⟩
    exact ⟨hheap.isLoading, hheap.dataSize, hheap.growable,
      fun _ hg => (nomatch hg), hheap.block, hheap.fresh⟩

variable (e₀) in
theorem append_grow
    (href : Refines w s u)
    (hpc : s.pc w = .append chunk r (.grow size newSize)) :
    ∃ heap u', s.heap.realloc r newSize = some heap ∧
      (entryObject T e₀).Explains u [] u' ∧
      Refines w ({ s with heap := heap }.goto w (.append chunk r
        (if r.ok then .copy size else .wrUnlock (-1)))) u' := by
  obtain ⟨hph, hfits, hl, rfl, hfull, hgrow⟩ := href.stands_at hpc
  have hheap := href.agrees_at hpc
  have hblock := hheap.settled_block rfl (Or.inl hl)
  have hneed := le_of_growSize hgrow
  have hsum := sizeAdd_of_le hfits
  obtain ⟨heap, hrealloc, hload, hdata, hfresh, hfails, hok⟩ :=
    hheap.realloc (r := r) hblock (by omega) (by omega : _ ≤ newSize)
  by_cases hr : r.ok = true
  · obtain ⟨halloc, hnew⟩ := hok hr
    rw [if_pos hr]
    refine ⟨heap, u, hrealloc, .silent u, href.loader_keeping hpc rfl rfl ?_
      ⟨hph, hfits, hl, rfl, Or.inr ⟨hfull, halloc ▸ hgrow, hr⟩⟩⟩
    refine ⟨hload.trans hheap.isLoading, hdata.trans hheap.dataSize,
      hheap.growable, fun _ hg => (nomatch hg), fun _ => ?_, hfresh⟩
    change heap.blocks heap.data = some ⟨u.value.data ++ [], _⟩
    rw [hnew, halloc, List.append_nil]
  · rw [Bool.not_eq_true] at hr
    obtain rfl := hfails hr
    have happend := appendData_fails (hheap.growable hl).1 hfull hgrow
    have happly : (entryObject T e₀).apply u.value w (.appendData chunk r) =
        some (.returned (-1), u.value) := by
      simp [entryObject, hl, hr, happend]
    rw [hr]
    exact ⟨s.heap, _, hrealloc, .effect hph happly,
      href.loader_holding [] hpc rfl rfl rfl
        (List.append_nil _).symm (fun _ => rfl) rfl
        (hheap.congr_of rfl rfl rfl) rfl⟩

theorem append_copy
    (href : Refines w s u) (hpc : s.pc w = .append chunk r (.copy size)) :
    ∃ heap, s.heap.write size chunk = some heap ∧
      Refines w ({ s with heap := heap }.goto w
        (.append chunk r (.storeSize size))) u := by
  obtain ⟨hph, hfits, hl, rfl, hgrown⟩ := href.stands_at hpc
  have hheap := href.agrees_at hpc
  have hblock := hheap.settled_block rfl (Or.inl hl)
  have hlt := hheap.data_lt hblock
  have hwrite : s.heap.write u.value.data.length chunk = some { s.heap with
      blocks := Function.update s.heap.blocks s.heap.data
        (some ⟨u.value.data ++ chunk, s.heap.allocatedSize⟩) } := by
    rw [Heap.write, hblock, Option.bind_some, if_pos (hgrown.le hfits),
      List.take_length]
  refine ⟨_, hwrite, href.loader_keeping hpc rfl rfl ?_
    ⟨hph, hfits, hl, rfl, hgrown⟩⟩
  refine ⟨hheap.isLoading, hheap.dataSize, hheap.growable,
    fun _ hg => (nomatch hg), fun _ => Function.update_self .., ?_⟩
  intro a hfresh
  change s.heap.nextBlock ≤ a at hfresh
  dsimp only
  rw [Function.update_of_ne (by omega)]
  exact hheap.fresh a hfresh

theorem append_storeSize
    (href : Refines w s u) (hpc : s.pc w = .append chunk r (.storeSize size)) :
    ∃ u', (entryObject T e₀).Explains u [] u' ∧
      Refines w ({ s with heap :=
          { s.heap with dataSize := sizeAdd size chunk.length } }.goto w
        (.append chunk r (.wrUnlock 0))) u' := by
  obtain ⟨hph, hfits, hl, rfl, hgrown⟩ := href.stands_at hpc
  have hheap := href.agrees_at hpc
  have happend := hgrown.appendData (hheap.growable hl).1 hfits
  have happly : (entryObject T e₀).apply u.value w (.appendData chunk r) =
      some (.returned 0, { u.value with
        allocatedSize := s.heap.allocatedSize
        data := u.value.data ++ chunk }) := by
    simp [entryObject, hl, happend]
  refine ⟨_, .effect hph happly, href.loader_holding chunk hpc rfl rfl
    rfl rfl (fun hdone => by simp [hl] at hdone) rfl ?_ rfl⟩
  refine ⟨hheap.isLoading, ?_,
    fun _ => hgrown.growable (hheap.growable hl) rfl rfl, fun _ _ => rfl,
    fun _ => ?_, hheap.fresh⟩
  · change sizeAdd _ _ = (u.value.data ++ chunk).length
    rw [sizeAdd_of_le hfits, List.length_append]
  · change s.heap.blocks s.heap.data = some ⟨(_ ++ chunk) ++ [], _⟩
    rw [List.append_nil]
    exact hheap.block (Or.inl hl)

/-- Every step of an append is explained by the atomic entry. -/
theorem appendStep
    {p : AppendPc} (href : Refines w s u) (hpc : s.pc w = .append chunk r p)
    (hstep : SharedEntry.appendStep s w chunk r p = some s') :
    ∃ u', (entryObject T e₀).Explains u (observed s (.advance w)) u' ∧
      Refines w s' u' := by
  have hseen : (∀ code, p ≠ .exit code) → observed s (.advance w) = [] := by
    intro hne
    rw [observed, hpc]
    cases p with
    | exit code => exact absurd rfl (hne code)
    | _ => rfl
  have hheap := href.agrees_at hpc
  cases p with
  | test =>
      obtain rfl := Option.some.inj hstep
      rw [hseen (by simp)]
      exact href.append_test hpc
  | wrLock =>
      obtain ⟨⟨hfree, hnone⟩, h⟩ := Option.ite_none_right_eq_some.mp hstep
      obtain rfl := Option.some.inj h
      rw [hseen (by simp)]
      obtain ⟨hph, hfits, hl⟩ := href.stands_at hpc
      exact ⟨u, .silent u, href.loader_acquire hpc rfl hfree hnone rfl hl
        (hheap.congr_of rfl rfl rfl) ⟨hph, hfits, hl⟩⟩
  | loadSize =>
      rw [hseen (by simp)]
      exact ⟨u, .silent u, href.append_loadSize hpc hstep⟩
  | grow size newSize =>
      obtain ⟨heap, u', hrealloc, hexplains, href'⟩ :=
        href.append_grow e₀ hpc
      rw [SharedEntry.appendStep, hrealloc] at hstep
      obtain rfl := Option.some.inj hstep
      rw [hseen (by simp)]
      exact ⟨u', hexplains, href'⟩
  | copy size =>
      obtain ⟨heap, hwrite, href'⟩ := href.append_copy hpc
      rw [SharedEntry.appendStep, hwrite] at hstep
      obtain rfl := Option.some.inj hstep
      rw [hseen (by simp)]
      exact ⟨u, .silent u, href'⟩
  | storeSize size =>
      obtain rfl := Option.some.inj hstep
      rw [hseen (by simp)]
      exact href.append_storeSize hpc
  | wrUnlock code =>
      obtain rfl := Option.some.inj hstep
      rw [hseen (by simp)]
      have hph : u.phase w = .answered (.returned code) := href.stands_at hpc
      refine ⟨u, .silent u, ?_⟩
      split
      · rename_i hzero
        subst hzero
        exact href.loader_release hpc rfl rfl rfl (hheap.congr_of rfl rfl rfl)
          hph
      · exact href.loader_release hpc rfl rfl rfl (hheap.congr_of rfl rfl rfl)
          hph
  | notify =>
      obtain rfl := Option.some.inj hstep
      rw [hseen (by simp)]
      have hph : u.phase w = .answered (.returned 0) := href.stands_at hpc
      exact ⟨u, .silent u, href.loader_silent hpc rfl rfl rfl
        (hheap.congr_of rfl rfl rfl) hph⟩
  | exit code =>
      obtain rfl := Option.some.inj hstep
      have hph : u.phase w = .answered (.returned code) := href.stands_at hpc
      rw [observed, hpc]
      exact ⟨_, .answer hph, href.loader_same hpc rfl rfl rfl rfl rfl
        (hheap.congr_of rfl rfl rfl) rfl⟩

/-! ## Finishing -/

theorem finish_test
    (href : Refines w s u) (hpc : s.pc w = .finish r .test) :
    ∃ u', (entryObject T e₀).Explains u [] u' ∧
      Refines w (s.goto w (.finish r
        (if s.heap.isLoading then .wrLock else .exit (-1)))) u' := by
  have hph : u.phase w = .called (.finishLoading r) := href.stands_at hpc
  rw [href.heap.isLoading]
  cases hl : u.value.isLoading with
  | true =>
      exact ⟨u, .silent u, href.loader_silent hpc rfl rfl rfl
        ((href.agrees_at hpc).congr_of rfl rfl rfl) ⟨hph, hl⟩⟩
  | false =>
      have happly : (entryObject T e₀).apply u.value w (.finishLoading r) =
          some (.returned (-1), u.value) := by
        simp [entryObject, hl]
      exact ⟨_, .effect hph happly, href.loader_same hpc rfl rfl rfl rfl rfl
        ((href.agrees_at hpc).congr_of rfl rfl rfl) rfl⟩

variable (e₀) in
/-- The lookup that has found the flag set and has not loaded the size yet
takes effect, so that no lookup minds when the flag is cleared. -/
theorem help_lookup
    (href : Refines w s u) (howner : s.writer = some w)
    (hl : u.value.isLoading = true) (hdone : e'.isLoading = false)
    (hdata : e'.data = u.value.data) :
    ∃ u₁, (entryObject T e₀).Explains u [] u₁ ∧ u₁.value = u.value ∧
      u₁.phase w = u.phase w ∧
      ∀ x, x ≠ w → (s.pc x).Stands e' s.heap False (u₁.phase x) := by
  have hheld : s.writer ≠ none := by simp [howner]
  -- the other lookups know nothing that depends on the flag
  have hothers : ∀ x, x ≠ w → (∀ l, s.pc x ≠ .lookup l (.loadSize true)) →
      (s.pc x).Stands e' s.heap False (u.phase x) := by
    intro x hx hne
    have hstands := href.stands x
    have hwrites := href.not_writes hx
    cases hpc : s.pc x with
    | append | finish => simp [hpc, Pc.writes] at hwrites
    | idle | visitLock | visitUnlock | fault =>
        rw [hpc] at hstands
        exact hstands
    | lookup l p =>
        rw [hpc] at hstands
        cases p with
        | lock | loadFlag | rdUnlock | unlock => exact hstands
        | loadSize loading =>
            cases loading with
            | true => exact absurd hpc (hne l)
            | false =>
                exact Bool.noConfusion (hl.symm.trans hstands.2.1)
        | foundLoadData size =>
            exact Bool.noConfusion (hl.symm.trans hstands.2.2.1)
        | foundCopy size block =>
            exact Bool.noConfusion (hl.symm.trans hstands.2.2.1)
        | rdLock loading size =>
            change _ ∧ _
            rw [hdata]
            exact hstands
        | loadData loading n =>
            change _ ∧ _
            rw [hdata]
            exact hstands
        | copy loading n block =>
            change _ ∧ _
            rw [hdata]
            exact hstands
  by_cases hpending : ∃ x l, s.pc x = .lookup l (.loadSize true)
  · obtain ⟨x, l, hpc⟩ := hpending
    have hxw : x ≠ w := by
      rintro rfl
      have howns := (href.writer x).mpr howner
      simp [hpc, Pc.ownsData] at howns
    have hstands := href.stands_at hpc
    change u.phase x = if u.value.isLoading then _ else _ at hstands
    rw [hl, if_pos rfl] at hstands
    refine ⟨_, .effect hstands rfl, rfl, Function.update_of_ne hxw.symm _ _,
      fun y hy => ?_⟩
    by_cases hyx : y = x
    · subst hyx
      dsimp only
      rw [hpc, Function.update_self]
      change _ = if e'.isLoading then _ else _
      rw [hdone, hdata, hl]
      rfl
    · dsimp only
      rw [Function.update_of_ne hyx]
      refine hothers y hy fun l' hpc' => hyx ?_
      -- both hold the mutex of the bucket
      have hown := (href.bucket x).mp (by rw [hpc]; rfl)
      have hown' := (href.bucket y).mp (by rw [hpc']; rfl)
      exact Option.some.inj (hown'.symm.trans hown)
  · exact ⟨u, .silent u, rfl, rfl, fun y hy => hothers y hy fun l hpc =>
      hpending ⟨y, l, hpc⟩⟩

theorem finish_clearFlag
    (href : Refines w s u) (hpc : s.pc w = .finish r .clearFlag) :
    ∃ u', (entryObject T e₀).Explains u [] u' ∧
      Refines w ({ s with heap := { s.heap with isLoading := false } }.goto w
        (.finish r .loadSize)) u' := by
  obtain ⟨hph, hl⟩ := href.stands_at hpc
  have hheap := href.agrees_at hpc
  have howner : s.writer = some w := (href.writer w).mp (by rw [hpc]; rfl)
  obtain ⟨e', hfinish⟩ := exists_finishLoading (hheap.growable hl).1 r.ok
  obtain ⟨-, hdone, hdata, -, -⟩ := Entry.finishLoading_spec hfinish
  obtain ⟨u₁, hhelp, hvalue, hself, hothers⟩ :=
    href.help_lookup e₀ howner hl hdone hdata
  have happly : (entryObject T e₀).apply u₁.value w (.finishLoading r) =
      some (.returned 0, e') := by
    simp [entryObject, hvalue, hl, hfinish]
  have heffect := AtomicObject.Explains.effect (hself.trans hph) happly
  refine ⟨_, hhelp.trans heffect, href.goto_loader (hpc ▸ rfl) rfl
    (href.writer.keep (by rw [hpc]; rfl)) href.apart ?_ ?_ fun x hx => ?_⟩
  · refine ⟨hdone.symm, hheap.dataSize.trans (congrArg _ hdata.symm),
      fun h => ?_, fun h => ?_, fun _ => ?_, hheap.fresh⟩
    · simp [hdone] at h
    · simp [hdone] at h
    · change s.heap.blocks s.heap.data = some ⟨e'.data ++ [], _⟩
      rw [hdata]
      exact hheap.block (Or.inl hl)
  · dsimp only
    rw [Function.update_self]
    exact ⟨rfl, hdone⟩
  · dsimp only
    rw [Function.update_of_ne hx, howner]
    have hfalse : (some w = none) = False := by simp
    rw [hfalse]
    exact hothers x hx

theorem finish_shrink
    (href : Refines w s u) (hpc : s.pc w = .finish r (.shrink size)) :
    ∃ heap, s.heap.realloc r size = some heap ∧
      Refines w ({ s with heap := heap }.goto w (.finish r .wrUnlock)) u := by
  obtain ⟨hph, hl, rfl⟩ := href.stands_at hpc
  have hheap := href.agrees_at hpc
  have hblock := hheap.settled_block rfl (Or.inr (Or.inr rfl))
  have hnever : u.value.isLoading ≠ true := by simp [hl]
  by_cases hzero : u.value.data.length = 0
  · -- `realloc` frees the block of an empty response
    have hrealloc : s.heap.realloc r u.value.data.length = some { s.heap with
        blocks := Function.update s.heap.blocks s.heap.data none } := by
      rw [Heap.realloc, hblock, Option.map_some, if_pos hzero]
    refine ⟨_, hrealloc, href.loader_keeping hpc rfl rfl ?_ hph⟩
    refine ⟨hheap.isLoading, hheap.dataSize, fun h => absurd h hnever,
      fun h => absurd h hnever, ?_, ?_⟩
    · rintro (h | hne | h)
      · exact absurd h hnever
      · exact absurd (List.length_eq_zero_iff.mp hzero) hne
      · cases h
    · intro a hfresh
      dsimp only
      by_cases ha : a = s.heap.data
      · rw [ha, Function.update_self]
      · rw [Function.update_of_ne ha]
        exact hheap.fresh a hfresh
  · obtain ⟨heap, hrealloc, hload, hdata, hfresh, hfails, hok⟩ :=
      hheap.realloc (r := r) hblock hzero le_rfl
    refine ⟨heap, hrealloc, href.loader_keeping hpc rfl rfl ?_ hph⟩
    refine ⟨hload.trans hheap.isLoading, hdata.trans hheap.dataSize,
      fun h => absurd h hnever, fun h => absurd h hnever, fun _ => ?_, hfresh⟩
    change heap.blocks heap.data = some ⟨u.value.data ++ [], _⟩
    rw [List.append_nil]
    cases hr : r.ok with
    | true =>
        obtain ⟨halloc, hnew⟩ := hok hr
        rw [hnew, halloc]
    | false =>
        rw [hfails hr]
        exact hblock

/-- Every step of `cache_finish_loading` is explained by the atomic entry. -/
theorem finishStep
    {p : FinishPc} (href : Refines w s u) (hpc : s.pc w = .finish r p)
    (hstep : SharedEntry.finishStep s w r p = some s') :
    ∃ u', (entryObject T e₀).Explains u (observed s (.advance w)) u' ∧
      Refines w s' u' := by
  have hseen : (∀ code, p ≠ .exit code) → observed s (.advance w) = [] := by
    intro hne
    rw [observed, hpc]
    cases p with
    | exit code => exact absurd rfl (hne code)
    | _ => rfl
  have hheap := href.agrees_at hpc
  cases p with
  | test =>
      obtain rfl := Option.some.inj hstep
      rw [hseen (by simp)]
      exact href.finish_test hpc
  | wrLock =>
      obtain ⟨⟨hfree, hnone⟩, h⟩ := Option.ite_none_right_eq_some.mp hstep
      obtain rfl := Option.some.inj h
      rw [hseen (by simp)]
      obtain ⟨hph, hl⟩ := href.stands_at hpc
      exact ⟨u, .silent u, href.loader_acquire hpc rfl hfree hnone rfl hl
        (hheap.congr_of rfl rfl rfl) ⟨hph, hl⟩⟩
  | clearFlag =>
      obtain rfl := Option.some.inj hstep
      rw [hseen (by simp)]
      exact href.finish_clearFlag hpc
  | loadSize =>
      obtain rfl := Option.some.inj hstep
      rw [hseen (by simp)]
      obtain ⟨hph, hl⟩ := href.stands_at hpc
      refine ⟨u, .silent u, ?_⟩
      split
      · exact href.loader_silent hpc rfl rfl rfl (hheap.congr_of rfl rfl rfl)
          ⟨hph, hl, hheap.dataSize⟩
      · refine href.loader_silent hpc rfl rfl rfl ?_ hph
        exact ⟨hheap.isLoading, hheap.dataSize, hheap.growable, hheap.allocated,
          fun _ => hheap.block (Or.inr (Or.inr rfl)), hheap.fresh⟩
  | shrink size =>
      obtain ⟨heap, hrealloc, href'⟩ := href.finish_shrink hpc
      rw [SharedEntry.finishStep, hrealloc] at hstep
      obtain rfl := Option.some.inj hstep
      rw [hseen (by simp)]
      exact ⟨u, .silent u, href'⟩
  | wrUnlock =>
      obtain rfl := Option.some.inj hstep
      rw [hseen (by simp)]
      have hph : u.phase w = .answered (.returned 0) := href.stands_at hpc
      exact ⟨u, .silent u, href.loader_release hpc rfl rfl rfl
        (hheap.congr_of rfl rfl rfl) hph⟩
  | notify =>
      obtain rfl := Option.some.inj hstep
      rw [hseen (by simp)]
      have hph : u.phase w = .answered (.returned 0) := href.stands_at hpc
      exact ⟨u, .silent u, href.loader_silent hpc rfl rfl rfl
        (hheap.congr_of rfl rfl rfl) hph⟩
  | exit code =>
      obtain rfl := Option.some.inj hstep
      have hph : u.phase w = .answered (.returned code) := href.stands_at hpc
      rw [observed, hpc]
      exact ⟨_, .answer hph, href.loader_same hpc rfl rfl rfl rfl rfl
        (hheap.congr_of rfl rfl rfl) rfl⟩

end Refines

end SharedEntry
end Proxy
end OsFifthSem
