import OsFifthSem.Proxy.Cache.SharedEntry.Loader
import OsFifthSem.Proxy.Cache.SharedEntry.Lookup

/-!
# The entry behaves as if each call happened at once

A lookup for the whole response copies it without `data_lock`, so it must not
find the flag cleared while the loader still holds the lock and shrinks the
block.  A lookup for a chunk may come at any time.
-/

namespace OsFifthSem
namespace Proxy
namespace SharedEntry

open Support

universe u

/-- A lookup for the whole response, about to load the flag. -/
def Pc.looksForWhole : Pc → Bool
  | .lookup l .loadFlag => l.maxSize = 0
  | _ => false

/-- The bytes of the entry and the chunk fit into memory together; and a
lookup for the whole response loads the flag while nobody holds `data_lock`
for writing. -/
def Timely {T : Type u} (s : State T) : Action T → Prop
  | .call _ (.appendData chunk _) =>
      s.heap.dataSize + chunk.length ≤ 2 ^ 63
  | .call _ (.lookupPartial _) | .call _ (.finishLoading _) | .visit _ => True
  | .advance t => (s.pc t).looksForWhole = true → s.writer = none

instance {T : Type u} [DecidableEq T] (s : State T) (a : Action T) :
    Decidable (Timely s a) :=
  match a with
  | .call _ (.appendData chunk _) =>
      inferInstanceAs (Decidable (s.heap.dataSize + chunk.length ≤ 2 ^ 63))
  | .call _ (.lookupPartial _) | .call _ (.finishLoading _) | .visit _ =>
      inferInstanceAs (Decidable True)
  | .advance t =>
      inferInstanceAs (Decidable
        ((s.pc t).looksForWhole = true → s.writer = none))

variable {T : Type u} {w t : T} {s s' : State T} {e₀ : Entry} {a : Action T}
  {u : AtomicState T Call Reply Entry}

namespace Refines

variable [DecidableEq T]

/-- A thread outside starts a call or visits the bucket. -/
theorem enter_call
    {pc : Pc} (href : Refines w s u) (hpc : s.pc t = .idle)
    (hnew : pc.writes = false) (howns : pc.ownsBucket = false)
    {u' : AtomicState T Call Reply Entry} {ph : CallPhase Call Reply}
    (hvalue : u'.value = u.value)
    (hphase : u'.phase = Function.update u.phase t ph)
    (hstands : pc.Stands u.value s.heap (s.writer = none) ph) :
    Refines w (s.goto t pc) u' := by
  refine href.goto_reader (hpc ▸ rfl) hnew (href.bucket.keep ?_) ?_ href.apart
    hvalue hphase hstands
  · rw [hpc, howns]
    rfl
  · rw [href.readers, readersOf, readersOf]
    cases hb : s.bucket with
    | none => rfl
    | some x =>
        have hx : x ≠ t := by
          rintro rfl
          have hown := (href.bucket x).mpr hb
          rw [hpc] at hown
          cases hown
        simp [hx]

theorem call
    {c : Call} (href : Refines w s u) (hpc : s.pc t = .idle)
    (hallowed : c.isLookup = true ∨ t = w)
    (htimely : Timely s (.call t c)) :
    ∃ u', (entryObject T e₀).Explains u [.call t c] u' ∧
      Refines w (s.goto t c.entryPc) u' := by
  have hidle : u.phase t = .idle := href.stands_at hpc
  refine ⟨_, .call hidle c, ?_⟩
  cases c with
  | lookupPartial l => exact href.enter_call hpc rfl rfl rfl rfl rfl
  | appendData chunk r =>
      obtain rfl : t = w := hallowed.resolve_left (by simp [Call.isLookup])
      have hheap := href.agrees_at hpc
      refine href.loader_same hpc rfl rfl rfl rfl rfl
        (hheap.congr_of rfl rfl rfl) ⟨rfl, ?_⟩
      rw [← hheap.dataSize]
      exact htimely
  | finishLoading r =>
      obtain rfl : t = w := hallowed.resolve_left (by simp [Call.isLookup])
      exact href.loader_same hpc rfl rfl rfl rfl rfl
        ((href.agrees_at hpc).congr_of rfl rfl rfl) rfl

theorem advance
    (href : Refines w s u) (htimely : Timely s (.advance t))
    (hstep : SharedEntry.advance s t = some s') :
    ∃ u', (entryObject T e₀).Explains u (observed s (.advance t)) u' ∧
      Refines w s' u' := by
  rw [SharedEntry.advance] at hstep
  cases hpc : s.pc t with
  | idle | fault => simp [hpc] at hstep
  | lookup l p =>
      simp only [hpc] at hstep
      refine href.lookupStep hpc (fun hp hmax => htimely ?_) hstep
      rw [hpc, hp, Pc.looksForWhole, hmax]
      rfl
  | append chunk r p =>
      obtain rfl := href.loader t (by rw [hpc]; rfl)
      simp only [hpc] at hstep
      exact href.appendStep hpc hstep
  | finish r p =>
      obtain rfl := href.loader t (by rw [hpc]; rfl)
      simp only [hpc] at hstep
      exact href.finishStep hpc hstep
  | visitLock =>
      simp only [hpc, Option.ite_none_right_eq_some, Option.some.injEq] at hstep
      obtain ⟨hfree, rfl⟩ := hstep
      have hidle : u.phase t = .idle := href.stands_at hpc
      rw [observed, hpc]
      exact ⟨u, .silent u, href.enter hpc rfl rfl hfree rfl rfl hidle⟩
  | visitUnlock =>
      simp only [hpc, Option.some.injEq] at hstep
      subst hstep
      have hidle : u.phase t = .idle := href.stands_at hpc
      rw [observed, hpc]
      refine ⟨u, .silent u, href.leave hpc rfl rfl rfl rfl ?_⟩
      rw [← hidle, Function.update_eq_self]

theorem step
    (href : Refines w s u) (htimely : Timely s a)
    (hstep : SharedEntry.step w s a = some s') :
    ∃ u', (entryObject T e₀).Explains u (observed s a) u' ∧
      Refines w s' u' := by
  cases a with
  | advance t => exact href.advance htimely hstep
  | call t c =>
      simp only [SharedEntry.step, Option.ite_none_right_eq_some,
        Option.some.injEq] at hstep
      obtain ⟨⟨hpc, hallowed⟩, rfl⟩ := hstep
      exact href.call hpc hallowed htimely
  | visit t =>
      simp only [SharedEntry.step, Option.ite_none_right_eq_some,
        Option.some.injEq] at hstep
      obtain ⟨hpc, rfl⟩ := hstep
      have hidle : u.phase t = .idle := href.stands_at hpc
      refine ⟨u, .silent u, href.enter_call hpc rfl rfl rfl ?_ rfl⟩
      rw [← hidle, Function.update_eq_self]

end Refines

theorem growable_createEntry (key : CString) (now : ℤ) :
    Growable (createEntry key 4096 now) :=
  ⟨rfl, 0, rfl, show 4096 < sizeRange by decide⟩

theorem agrees_ofEntry (hgrow : Growable e₀) :
    (Heap.ofEntry e₀).Agrees e₀ .idle where
  isLoading := rfl
  dataSize := rfl
  growable := fun _ => hgrow
  allocated := fun _ _ => rfl
  block := fun _ => by simp [Heap.ofEntry, Pc.pending]
  fresh := fun a ha => by
    have hne : a ≠ 0 := by
      rintro rfl
      simp [Heap.ofEntry] at ha
    simp [Heap.ofEntry, hne]

theorem refines_start (w : T) (hgrow : Growable e₀) :
    Refines w (start T e₀) { value := e₀, phase := fun _ => .idle } where
  bucket := fun t => by simp [start, Pc.ownsBucket]
  writer := fun t => by simp [start, Pc.ownsData]
  readers := rfl
  apart := Or.inl rfl
  loader := fun t ht => by simp [start, Pc.writes] at ht
  heap := agrees_ofEntry hgrow
  stands := fun _ => rfl

section Runs

variable (T : Type u) [DecidableEq T] (w : T) (key : CString)
  (now : ℤ)

theorem entry_linearizable :
    (entryObject T (createEntry key 4096 now)).Linearizable
      (entrySystem w (createEntry key 4096 now)) Timely observed := by
  refine AtomicObject.linearizable_of_relation (Refines w) ?_ ?_
  · rintro s rfl
    exact refines_start w (growable_createEntry key now)
  · intro s u a s' _ href htimely hstep
    exact href.step htimely hstep

theorem exists_refines
    {s : State T}
    (hs : (entrySystem w (createEntry key 4096 now)).ReachableUnder
      Timely s) : ∃ u, Refines w s u := by
  refine AtomicObject.related_of_relation
    (entryObject T (createEntry key 4096 now)) observed (Refines w) ?_ ?_ hs
  · rintro s rfl
    exact refines_start w (growable_createEntry key now)
  · intro s u a s' _ href htimely hstep
    exact href.step htimely hstep

/-- Any number of threads look up an entry of `create_entry` while its loader
appends to it and finishes it: whatever they see could have come from an entry
whose calls happen at one moment each, and no thread accesses memory that it
may not access. -/
theorem sharedEntry_linearizable :
    (entryObject T (createEntry key 4096 now)).Linearizable
      (entrySystem w (createEntry key 4096 now)) Timely observed ∧
    ∀ s, (entrySystem w (createEntry key 4096 now)).ReachableUnder
      Timely s → ∀ t, s.pc t ≠ .fault := by
  refine ⟨entry_linearizable T w key now, ?_⟩
  intro s hs t hfault
  obtain ⟨u, href⟩ := exists_refines T w key now hs
  exact href.stands_at hfault

end Runs

/-- The client `t` loads the address of the block while the loader `w`
finishes, and copies when the block is freed. -/
def staleSchedule (w t : T) : List (Action T) :=
  .call w (.appendData [7] .moves) :: List.replicate 8 (.advance w) ++
  .call w (.finishLoading .moves) :: List.replicate 3 (.advance w) ++
  .call t (.lookupPartial ⟨0, 0⟩) :: List.replicate 4 (.advance t) ++
  List.replicate 2 (.advance w) ++ [.advance t]

/-- A lookup for the whole response at the wrong time reads a freed block. -/
example (key : CString) :
    ((entrySystem (0 : Fin 2) (createEntry key 4096 0)).run
      (start (Fin 2) (createEntry key 4096 0)) (staleSchedule 0 1)).map
        (fun s => s.pc 1) = some .fault := rfl

end SharedEntry
end Proxy
end OsFifthSem
