import OsFifthSem.Sync.SwapList.Storage

/-!
# Who holds a lock

`NodeLock.Agrees` compares a lock with a bookkeeping of the threads: how often
each thread holds the lock, and in which mode a thread holds its locks.
Acquiring and releasing the lock keep the two in step.
-/

namespace OsFifthSem
namespace SwapList

universe u

variable {T : Type u} [DecidableEq T]

namespace NodeLock

/-- How often a thread holds the lock. -/
def holds (l : NodeLock T) (t : T) : ℕ :=
  l.readers.count t + if l.writer = some t then 1 else 0

/-- The lock is held as often as `held` says, in the mode `mode` says, and a
writer holds it alone. -/
structure Agrees (l : NodeLock T) (held : T → ℕ) (mode : T → Mode) :
    Prop where
  count : ∀ t, l.holds t = held t
  writer_mode : ∀ t, l.writer = some t → mode t = .exclusive
  reader_mode : ∀ t ∈ l.readers, mode t = .shared
  alone : ∀ t, l.writer = some t → l.readers = []

variable {l l' : NodeLock T} {held held' : T → ℕ} {mode mode' : T → Mode}
  {t u : T} {m : Mode}

theorem agrees_init (mode : T → Mode) :
    (init : NodeLock T).Agrees (fun _ => 0) mode where
  count := fun t => by simp [holds, init]
  writer_mode := fun t h => by simp [init] at h
  reader_mode := fun t h => by simp [init] at h
  alone := fun t h => by simp [init] at h

theorem Agrees.heldBy_iff (ha : l.Agrees held mode) :
    l.HeldBy t ↔ held t ≠ 0 := by
  rw [← ha.count t, HeldBy, holds]
  by_cases hw : l.writer = some t
  · simp [hw]
  · simp [hw, List.count_eq_zero]

/-- Nobody else holds a lock that is held in exclusive mode. -/
theorem Agrees.eq_of_exclusive (ha : l.Agrees held mode)
    (ht : held t ≠ 0) (hmode : mode t = .exclusive) (hu : held u ≠ 0) :
    u = t := by
  have hwriter : l.writer = some t := by
    rcases ha.heldBy_iff.mpr ht with hw | hr
    · exact hw
    · have hshared := ha.reader_mode t hr
      rw [hmode] at hshared
      simp at hshared
  rcases ha.heldBy_iff.mpr hu with hw | hr
  · exact Option.some.inj (hw.symm.trans hwriter)
  · rw [ha.alone t hwriter] at hr
    simp at hr

/-- A lock that is not touched, while its holders keep their mode. -/
theorem Agrees.congr (ha : l.Agrees held mode)
    (hheld : ∀ u, held' u = held u)
    (hmode : ∀ u, held u ≠ 0 → mode' u = mode u) : l.Agrees held' mode' where
  count := fun u => (ha.count u).trans (hheld u).symm
  writer_mode := fun u hu =>
    (hmode u (ha.heldBy_iff.mp (Or.inl hu))).trans (ha.writer_mode u hu)
  reader_mode := fun u hu =>
    (hmode u (ha.heldBy_iff.mp (Or.inr hu))).trans (ha.reader_mode u hu)
  alone := ha.alone

theorem Agrees.acquire (ha : l.Agrees held mode)
    (hlock : l.acquire t m = some l') (hheld : held' t = held t + 1)
    (hmode : mode' t = m) (hbefore : held t ≠ 0 → mode t = m)
    (hothers : ∀ u, u ≠ t → held' u = held u ∧ mode' u = mode u) :
    l'.Agrees held' mode' := by
  have hkeep : ∀ u, held u ≠ 0 → mode' u = mode u := by
    intro u hu
    by_cases hut : u = t
    · subst hut
      rw [hmode, hbefore hu]
    · exact (hothers u hut).2
  cases m with
  | shared =>
      obtain ⟨hfree, rfl⟩ : l.writer = none ∧
          { l with readers := t :: l.readers } = l' := by
        simpa [NodeLock.acquire] using hlock
      constructor
      · intro u
        have hcount := ha.count u
        by_cases hut : u = t
        · subst hut
          simp only [holds, hfree, List.count_cons_self] at hcount ⊢
          simp at hcount ⊢
          omega
        · rw [(hothers u hut).1, ← hcount]
          simp [holds, hfree, List.count_cons_of_ne (Ne.symm hut)]
      · intro u hu
        simp [hfree] at hu
      · intro u hu
        rcases List.mem_cons.mp hu with rfl | hu
        · exact hmode
        · rw [hkeep u (ha.heldBy_iff.mp (Or.inr hu))]
          exact ha.reader_mode u hu
      · intro u hu
        simp [hfree] at hu
  | exclusive =>
      obtain ⟨⟨hfree, hnil⟩, rfl⟩ : (l.writer = none ∧ l.readers = []) ∧
          { l with writer := some t } = l' := by
        simpa [NodeLock.acquire] using hlock
      constructor
      · intro u
        have hcount := ha.count u
        by_cases hut : u = t
        · subst hut
          simp [holds, hfree, hnil] at hcount ⊢
          omega
        · rw [(hothers u hut).1, ← hcount]
          simp [holds, hfree, hnil, Ne.symm hut]
      · intro u hu
        obtain rfl : t = u := by simpa using hu
        exact hmode
      · intro u hu
        simp [hnil] at hu
      · exact fun _ _ => hnil

theorem Agrees.release (ha : l.Agrees held mode)
    (hheld : held t = held' t + 1) (hmode : held' t ≠ 0 → mode' t = mode t)
    (hothers : ∀ u, u ≠ t → held' u = held u ∧ mode' u = mode u) :
    (l.release t).Agrees held' mode' := by
  by_cases hw : l.writer = some t
  · have hnil := ha.alone t hw
    have hrel : l.release t = { l with writer := none } := by
      simp [NodeLock.release, hw]
    rw [hrel]
    constructor
    · intro u
      have hcount := ha.count u
      by_cases hut : u = t
      · subst hut
        simp [holds, hw, hnil] at hcount ⊢
        omega
      · rw [(hothers u hut).1, ← hcount]
        simp [holds, hw, Ne.symm hut]
    · intro u hu
      simp at hu
    · intro u hu
      simp [hnil] at hu
    · intro u hu
      simp at hu
  · have hrel : l.release t = { l with readers := l.readers.erase t } := by
      simp [NodeLock.release, hw]
    rw [hrel]
    constructor
    · intro u
      have hcount := ha.count u
      by_cases hut : u = t
      · subst hut
        simp [holds, hw] at hcount ⊢
        omega
      · rw [(hothers u hut).1, ← hcount]
        simp [holds, List.count_erase_of_ne hut]
    · intro u hu
      have hut : u ≠ t := by
        rintro rfl
        exact hw hu
      rw [(hothers u hut).2]
      exact ha.writer_mode u hu
    · intro u hu
      have hmem : u ∈ l.readers := List.mem_of_mem_erase hu
      by_cases hut : u = t
      · subst hut
        have hcount := ha.count u
        have hleft : 0 < (l.readers.erase u).count u :=
          List.count_pos_iff.mpr hu
        simp [holds, hw] at hcount hleft
        rw [hmode (by omega)]
        exact ha.reader_mode u hmem
      · rw [(hothers u hut).2]
        exact ha.reader_mode u hmem
    · intro u hu
      rw [ha.alone u hu]
      rfl

end NodeLock
end SwapList
end OsFifthSem
