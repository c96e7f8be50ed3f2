import OsFifthSem.Proxy.Cache.SharedEntry.Refines

/-!
# The steps of a lookup

A lookup takes effect when it loads the size, unless the loader has cleared
the flag in between: then it took effect before that.  What it copies
afterwards is what it returned at that moment.
-/

namespace OsFifthSem
namespace Proxy
namespace SharedEntry

open Support

universe u

variable {T : Type u} [DecidableEq T] {w t : T} {s s' : State T} {e₀ : Entry}
  {u : AtomicState T Call Reply Entry} {l : Lookup} {loading : Bool}
  {size n block : ℕ} {res : LookupResult}

namespace Refines

omit [DecidableEq T] in
theorem owner_eq {p : Pc} (href : Refines w s u) (hpc : s.pc t = p)
    (howns : p.ownsBucket = true) : s.bucket = some t :=
  (href.bucket t).mp (hpc ▸ howns)

omit [DecidableEq T] in
theorem readers_eq {p : Pc} (href : Refines w s u) (hpc : s.pc t = p)
    (howns : p.ownsBucket = true) :
    s.readers = if p.reads then 1 else 0 := by
  rw [href.readers, readersOf, href.owner_eq hpc howns, Option.elim_some, hpc]

/-- A step of a lookup that keeps the mutex, `data_lock` and its atomic
call. -/
theorem inside
    {p pc : Pc} {u' : AtomicState T Call Reply Entry}
    {ph : CallPhase Call Reply} (href : Refines w s u) (hpc : s.pc t = p)
    (hold : p.writes = false) (hnew : pc.writes = false)
    (howns : p.ownsBucket = true) (hkeeps : pc.ownsBucket = true)
    (hreads : pc.reads = p.reads) (hvalue : u'.value = u.value)
    (hphase : u'.phase = Function.update u.phase t ph)
    (hstands : pc.Stands u.value s.heap (s.writer = none) ph) :
    Refines w (s.goto t pc) u' := by
  have howner := href.owner_eq hpc howns
  refine href.goto_reader (hpc ▸ hold) hnew (href.bucket.keep ?_) ?_
    href.apart hvalue hphase hstands
  · rw [hpc, howns, hkeeps]
  · rw [href.readers_eq hpc howns, readersOf, howner, Option.elim_some,
      Function.update_self, hreads]

/-- The same without an effect. -/
theorem inside_silent
    {p pc : Pc} (href : Refines w s u) (hpc : s.pc t = p)
    (hold : p.writes = false) (hnew : pc.writes = false)
    (howns : p.ownsBucket = true) (hkeeps : pc.ownsBucket = true)
    (hreads : pc.reads = p.reads)
    (hstands : pc.Stands u.value s.heap (s.writer = none) (u.phase t)) :
    Refines w (s.goto t pc) u :=
  href.inside hpc hold hnew howns hkeeps hreads rfl
    (Function.update_eq_self t u.phase).symm hstands

/-- Taking the mutex of the bucket. -/
theorem enter
    {p pc : Pc} (href : Refines w s u) (hpc : s.pc t = p)
    (hold : p.writes = false) (hnew : pc.writes = false)
    (hfree : s.bucket = none) (howns : pc.ownsBucket = true)
    (hreads : pc.reads = false)
    (hstands : pc.Stands u.value s.heap (s.writer = none) (u.phase t)) :
    Refines w ({ s with bucket := some t }.goto t pc) u := by
  have hnone : s.readers = 0 := by
    rw [href.readers, hfree]
    rfl
  refine href.goto_reader (hpc ▸ hold) hnew
    (href.bucket.acquire hfree howns) ?_ href.apart rfl
    (Function.update_eq_self t u.phase).symm hstands
  rw [hnone, readersOf, Option.elim_some, Function.update_self, hreads]
  rfl

/-- Giving up the mutex of the bucket. -/
theorem leave
    {p : Pc} {u' : AtomicState T Call Reply Entry} (href : Refines w s u)
    (hpc : s.pc t = p) (hold : p.writes = false) (howns : p.ownsBucket = true)
    (hreads : p.reads = false) (hvalue : u'.value = u.value)
    (hphase : u'.phase = Function.update u.phase t .idle) :
    Refines w ({ s with bucket := none }.goto t .idle) u' := by
  refine href.goto_reader (hpc ▸ hold) rfl
    (href.bucket.release (hpc ▸ howns) rfl) ?_ href.apart hvalue hphase rfl
  rw [href.readers_eq hpc howns, hreads]
  rfl

theorem loadFlag
    (href : Refines w s u) (hpc : s.pc t = .lookup l .loadFlag)
    (htimely : l.maxSize = 0 → s.writer = none) :
    Refines w (s.goto t (.lookup l (.loadSize s.heap.isLoading))) u := by
  have hstands : u.phase t = .called (.lookupPartial l) := href.stands_at hpc
  refine href.inside_silent hpc rfl rfl rfl rfl rfl ?_
  rw [href.heap.isLoading]
  cases hl : u.value.isLoading with
  | true =>
      change u.phase t = if u.value.isLoading then _ else _
      rw [hl]
      exact hstands
  | false => exact ⟨hstands, hl, htimely⟩

variable (e₀) in
/-- When the size is loaded, the lookup has its result. -/
theorem loadSize_effect
    (href : Refines w s u) (hpc : s.pc t = .lookup l (.loadSize loading)) :
    ∃ u', (entryObject T e₀).Explains u [] u' ∧ u'.value = u.value ∧
      u'.phase = Function.update u.phase t (.answered (.looked
        (readEntry loading u.value.data l.offset l.maxSize))) := by
  have hstands := href.stands_at hpc
  have heffect : ∀ b, u.value.isLoading = b →
      u.phase t = .called (.lookupPartial l) →
      ∃ u', (entryObject T e₀).Explains u [] u' ∧ u'.value = u.value ∧
        u'.phase = Function.update u.phase t (.answered (.looked
          (readEntry b u.value.data l.offset l.maxSize))) := by
    rintro b rfl hcalled
    exact ⟨_, .effect hcalled rfl, rfl, rfl⟩
  cases loading with
  | false => exact heffect false hstands.2.1 hstands.1
  | true =>
      change u.phase t = if u.value.isLoading then _ else _ at hstands
      cases hl : u.value.isLoading with
      | true =>
          rw [hl] at hstands
          exact heffect true hl hstands
      | false =>
          -- the lookup took effect before the flag was cleared
          rw [hl, if_neg Bool.false_ne_true] at hstands
          refine ⟨u, .silent u, rfl, ?_⟩
          rw [← hstands, Function.update_eq_self]

theorem loadSize
    (href : Refines w s u) (hpc : s.pc t = .lookup l (.loadSize loading)) :
    ∃ u', (entryObject T e₀).Explains u [] u' ∧
      Refines w (s.goto t (.lookup l (l.branch loading s.heap.dataSize))) u' := by
  obtain ⟨u', hexplains, hvalue, hphase⟩ := href.loadSize_effect e₀ hpc
  refine ⟨u', hexplains, ?_⟩
  rw [href.heap.dataSize]
  rcases l.branch_cases loading u.value.data with
    ⟨hbranch, hl, hmax, hread⟩ | hbranch | ⟨hbranch, hoffset, hread⟩
  · subst hl
    rw [hbranch]
    rw [hread] at hphase
    have hstands := href.stands_at hpc
    exact href.inside hpc rfl rfl rfl rfl rfl hvalue hphase
      ⟨rfl, rfl, hstands.2.1, hstands.2.2 hmax⟩
  · rw [hbranch]
    exact href.inside hpc rfl rfl rfl rfl rfl hvalue hphase rfl
  · rw [hbranch]
    rw [hread] at hphase
    exact href.inside hpc rfl rfl rfl rfl rfl hvalue hphase
      ⟨rfl, hoffset, le_rfl⟩

omit [DecidableEq T] in
/-- The bytes of the entry are there to be read. -/
theorem read_eq
    (href : Refines w s u) {offset n : ℕ}
    (hle : offset + n ≤ u.value.data.length) :
    s.heap.read s.heap.data offset n =
      some ((u.value.data.drop offset).take n) := by
  by_cases hn : n = 0
  · subst hn
    simp [Heap.read]
  · have hne : u.value.data ≠ [] := by
      rintro hnil
      rw [hnil] at hle
      simp at hle
      omega
    have hblock := href.heap.block (Or.inr (Or.inl hne))
    rw [Heap.read, if_neg hn, hblock, Option.bind_some, if_pos,
      slice_append _ hle]
    rw [List.length_append]
    omega

theorem foundCopy
    (href : Refines w s u) (hpc : s.pc t = .lookup l (.foundCopy size block)) :
    ∃ bytes, s.heap.read block 0 size = some bytes ∧
      Refines w (s.goto t (.lookup l (.unlock ⟨.found, bytes, some false⟩)))
        u := by
  obtain ⟨hph, rfl, -, -, rfl⟩ := href.stands_at hpc
  refine ⟨u.value.data, ?_, href.inside_silent hpc rfl rfl rfl rfl rfl hph⟩
  rw [href.read_eq (by omega), List.drop_zero, List.take_length]

theorem rdLock
    (href : Refines w s u) (hpc : s.pc t = .lookup l (.rdLock loading size))
    (hfree : s.writer = none) :
    Refines w ({ s with readers := s.readers + 1 }.goto t
      (.lookup l (l.chunk loading size))) u := by
  obtain ⟨hph, hoffset, hsize⟩ := href.stands_at hpc
  have hle := l.copySize_le hoffset
  have howner := href.owner_eq hpc rfl
  have hnone : s.readers = 0 := href.readers_eq hpc rfl
  have hchunk : (Pc.lookup l (l.chunk loading size)).writes = false ∧
      (Pc.lookup l (l.chunk loading size)).ownsBucket = true ∧
      (Pc.lookup l (l.chunk loading size)).reads = true := by
    unfold Lookup.chunk
    split <;> exact ⟨rfl, rfl, rfl⟩
  refine href.goto_reader (hpc ▸ rfl) hchunk.1 (href.bucket.keep ?_) ?_
    (Or.inl hfree) rfl (Function.update_eq_self t u.phase).symm ?_
  · rw [hpc, hchunk.2.1]
    rfl
  · rw [hnone, readersOf, howner, Option.elim_some, Function.update_self,
      hchunk.2.2]
    rfl
  · unfold Lookup.chunk
    unfold Lookup.chunkResult at hph
    split
    · rename_i hpos
      rw [if_pos hpos] at hph
      exact ⟨hph, by omega⟩
    · rename_i hzero
      rw [if_neg hzero] at hph
      exact hph

theorem copy
    (href : Refines w s u) (hpc : s.pc t = .lookup l (.copy loading n block)) :
    ∃ bytes, s.heap.read block l.offset n = some bytes ∧
      Refines w (s.goto t
        (.lookup l (.rdUnlock ⟨.newLoaded, bytes, some loading⟩))) u := by
  obtain ⟨hph, hle, rfl⟩ := href.stands_at hpc
  exact ⟨_, href.read_eq hle,
    href.inside_silent hpc rfl rfl rfl rfl rfl hph⟩

theorem rdUnlock
    (href : Refines w s u) (hpc : s.pc t = .lookup l (.rdUnlock res)) :
    Refines w ({ s with readers := s.readers - 1 }.goto t
      (.lookup l (.unlock res))) u := by
  have hph : u.phase t = .answered (.looked res) := href.stands_at hpc
  have howner := href.owner_eq hpc rfl
  have hone : s.readers = 1 := href.readers_eq hpc rfl
  refine href.goto_reader (hpc ▸ rfl) rfl (href.bucket.keep ?_) ?_
    (Or.inr (by omega)) rfl (Function.update_eq_self t u.phase).symm hph
  · rw [hpc]
    rfl
  · rw [hone, readersOf, howner, Option.elim_some, Function.update_self]
    rfl

/-- Every step of a lookup is explained by the atomic entry. -/
theorem lookupStep
    {p : LookupPc} (href : Refines w s u) (hpc : s.pc t = .lookup l p)
    (htimely : p = .loadFlag → l.maxSize = 0 → s.writer = none)
    (hstep : SharedEntry.lookupStep s t l p = some s') :
    ∃ u', (entryObject T e₀).Explains u (observed s (.advance t)) u' ∧
      Refines w s' u' := by
  have hseen : (∀ r, p ≠ .unlock r) → observed s (.advance t) = [] := by
    intro hne
    rw [observed, hpc]
    cases p with
    | unlock r => exact absurd rfl (hne r)
    | _ => rfl
  cases p with
  | lock =>
      obtain ⟨hfree, h⟩ := Option.ite_none_right_eq_some.mp hstep
      obtain rfl := Option.some.inj h
      rw [hseen (by simp)]
      have hph : u.phase t = .called (.lookupPartial l) := href.stands_at hpc
      exact ⟨u, .silent u, href.enter hpc rfl rfl hfree rfl rfl hph⟩
  | loadFlag =>
      obtain rfl := Option.some.inj hstep
      rw [hseen (by simp)]
      exact ⟨u, .silent u, href.loadFlag hpc (htimely rfl)⟩
  | loadSize loading =>
      obtain rfl := Option.some.inj hstep
      rw [hseen (by simp)]
      exact href.loadSize hpc
  | foundLoadData size =>
      obtain rfl := Option.some.inj hstep
      rw [hseen (by simp)]
      obtain ⟨hph, hsize, hl, hq⟩ := href.stands_at hpc
      exact ⟨u, .silent u, href.inside_silent hpc rfl rfl rfl rfl rfl
        ⟨hph, hsize, hl, hq, rfl⟩⟩
  | foundCopy size block =>
      obtain ⟨bytes, hread, href'⟩ := href.foundCopy hpc
      rw [SharedEntry.lookupStep, hread] at hstep
      obtain rfl := Option.some.inj hstep
      rw [hseen (by simp)]
      exact ⟨u, .silent u, href'⟩
  | rdLock loading size =>
      obtain ⟨hfree, h⟩ := Option.ite_none_right_eq_some.mp hstep
      obtain rfl := Option.some.inj h
      rw [hseen (by simp)]
      exact ⟨u, .silent u, href.rdLock hpc hfree⟩
  | loadData loading n =>
      obtain rfl := Option.some.inj hstep
      rw [hseen (by simp)]
      obtain ⟨hph, hle⟩ := href.stands_at hpc
      exact ⟨u, .silent u, href.inside_silent hpc rfl rfl rfl rfl rfl
        ⟨hph, hle, rfl⟩⟩
  | copy loading n block =>
      obtain ⟨bytes, hread, href'⟩ := href.copy hpc
      rw [SharedEntry.lookupStep, hread] at hstep
      obtain rfl := Option.some.inj hstep
      rw [hseen (by simp)]
      exact ⟨u, .silent u, href'⟩
  | rdUnlock r =>
      obtain rfl := Option.some.inj hstep
      rw [hseen (by simp)]
      exact ⟨u, .silent u, href.rdUnlock hpc⟩
  | unlock r =>
      obtain rfl := Option.some.inj hstep
      have hph : u.phase t = .answered (.looked r) := href.stands_at hpc
      rw [observed, hpc]
      exact ⟨_, .answer hph, href.leave hpc rfl rfl rfl rfl rfl⟩

end Refines

end SharedEntry
end Proxy
end OsFifthSem
