import Mathlib.Algebra.Group.Nat.Defs
import OsFifthSem.Proxy.Cache.Entry
import OsFifthSem.Support.Transition

/-!
# The block of an entry

One loader appends to an entry and finishes it.  The block holds what was
appended as long as the loader does not finish an entry that is still empty:
`realloc(data, 0)` frees the block, and its NULL is taken for a failure.
-/

namespace OsFifthSem
namespace Proxy

open Support

/-! ## Doubling -/

/-- The loop ends with a size that is large enough. -/
theorem growSize_bounds
    {need fuel n size : ℕ} (hn : n < sizeRange)
    (h : growSize need fuel n = some size) : need ≤ size ∧ size < sizeRange := by
  induction fuel generalizing n with
  | zero => cases h
  | succ fuel ih =>
      rw [growSize] at h
      split at h
      · exact ih (Nat.mod_lt _ (by decide)) h
      · obtain rfl := Option.some.inj h
        omega

/-- A size that has wrapped around is not taken unless it is larger. -/
theorem growSize_le
    {need fuel n size : ℕ} (hn : n < sizeRange)
    (h : growSize need fuel n = some size) : n ≤ size := by
  by_cases hneed : n < need
  · exact hneed.le.trans (growSize_bounds hn h).1
  · cases fuel with
    | zero => cases h
    | succ fuel =>
        rw [growSize, if_neg hneed] at h
        exact (Option.some.inj h).le

/-- The loop ends if and only if some doubling is large enough. -/
theorem growSize_isSome_iff
    {need fuel n : ℕ} (hn : n < sizeRange) :
    (growSize need fuel n).isSome = true ↔
      ∃ k < fuel, need ≤ n * 2 ^ k % sizeRange := by
  induction fuel generalizing n with
  | zero => simp [growSize]
  | succ fuel ih =>
      have hdouble : ∀ k, n * 2 % sizeRange * 2 ^ k % sizeRange =
          n * 2 ^ (k + 1) % sizeRange := by
        intro k
        rw [Nat.mod_mul_mod, Nat.pow_succ', Nat.mul_assoc]
      have hfirst : n * 2 ^ 0 % sizeRange = n := by
        rw [Nat.pow_zero, Nat.mul_one, Nat.mod_eq_of_lt hn]
      rw [growSize, Nat.exists_lt_succ_left, hfirst]
      split
      next hlt =>
        rw [ih (Nat.mod_lt _ (by decide))]
        simp only [hdouble, Nat.not_le.mpr hlt, false_or]
      next hge => simp [Nat.not_lt.mp hge]

namespace Entry

/-- The sizes of the block: it is not empty, its size is a `size_t`, and it
holds the contents. -/
structure SizesOk (e : Entry) : Prop where
  pos : 0 < e.allocatedSize
  lt : e.allocatedSize < sizeRange
  fits : e.data.length ≤ e.allocatedSize

/-- Some doubling of the block, computed in `size_t`, holds `need` bytes. -/
def CanGrow (e : Entry) (need : ℕ) : Prop :=
  ∃ k < 65, need ≤ e.allocatedSize * 2 ^ k % sizeRange

variable {e e' : Entry} {chunk : List UInt8} {now : ℤ} {ok : Bool} {r : ℤ}

theorem createEntry_sizesOk (key : CString) (initialSize : UInt64) (now : ℤ) :
    (createEntry key initialSize.toNat now).SizesOk := by
  have hlt : initialSize.toNat < sizeRange := initialSize.toNat_lt
  have hrange : 4096 < sizeRange := by decide
  constructor <;> simp only [createEntry, List.length_nil] <;> split <;> omega

theorem SizesOk.appendData
    (hs : e.SizesOk) (h : e.appendData chunk now ok = some (r, e')) :
    e'.SizesOk := by
  obtain ⟨-, ⟨size, -, rfl, hfits, hsize⟩ | ⟨-, -, rfl⟩⟩ :=
    Entry.appendData_eq_some h
  · have hle : e.allocatedSize ≤ size := by
      rcases hsize with rfl | hgrow
      · exact le_rfl
      · exact growSize_le hs.lt hgrow
    have hlt : size < sizeRange := by
      rcases hsize with rfl | hgrow
      · exact hs.lt
      · exact (growSize_bounds hs.lt hgrow).2
    exact ⟨hs.pos.trans_le hle, hlt, by simpa using hfits⟩
  · exact ⟨hs.pos, hs.lt, hs.fits⟩

theorem SizesOk.finishLoading
    (hs : e.SizesOk) (h : e.finishLoading now ok = some e') : e'.SizesOk := by
  obtain ⟨hpos, hlt, hfits⟩ := hs
  simp only [Entry.finishLoading] at h
  split_ifs at h <;> cases h <;> constructor <;> simp only <;> omega

theorem CanGrow.lt {need : ℕ} (h : e.CanGrow need) : need < sizeRange := by
  obtain ⟨k, -, hk⟩ := h
  exact hk.trans_lt (Nat.mod_lt _ (by decide))

/-- An append that needs a size which the block can grow to returns. -/
theorem CanGrow.appendData
    (hgrow : e.CanGrow (e.data.length + chunk.length)) (hs : e.SizesOk)
    (hlive : e.dataLive = true) (now : ℤ) (ok : Bool) :
    ∃ r e', e.appendData chunk now ok = some (r, e') := by
  have hneed : sizeAdd e.data.length chunk.length =
      e.data.length + chunk.length := Nat.mod_eq_of_lt hgrow.lt
  obtain ⟨size, hsize⟩ :=
    Option.isSome_iff_exists.mp ((growSize_isSome_iff hs.lt).mpr hgrow)
  have hfits := (growSize_bounds hs.lt hsize).1
  simp only [Entry.appendData, hlive, hneed, hsize, Entry.storeChunk]
  split_ifs <;> simp_all

/-- With a `realloc` that succeeds, only such an append returns. -/
theorem canGrow_of_appendData
    (hs : e.SizesOk) (h : e.appendData chunk now true = some (r, e')) :
    e.CanGrow (e.data.length + chunk.length) := by
  obtain ⟨-, ⟨size, -, -, hfits, hsize⟩ | ⟨-, hok, -⟩⟩ :=
    Entry.appendData_eq_some h
  · rcases hsize with rfl | hgrow
    · refine ⟨0, by decide, ?_⟩
      rwa [Nat.pow_zero, Nat.mul_one, Nat.mod_eq_of_lt hs.lt]
    · have hlt := (growSize_bounds hs.lt hgrow).2
      have hneed : sizeAdd e.data.length chunk.length =
          e.data.length + chunk.length :=
        Nat.mod_eq_of_lt (hfits.trans_lt hlt)
      rw [hneed] at hgrow
      exact (growSize_isSome_iff hs.lt).mp (by rw [hgrow]; rfl)
  · cases hok

theorem finishLoading_returns (hlive : e.dataLive = true) (now : ℤ) (ok : Bool) :
    ∃ e', e.finishLoading now ok = some e' := by
  simp only [Entry.finishLoading, hlive]
  split_ifs <;> simp_all

/-- `realloc` to size 0 frees the block, and no other size does. -/
theorem finishLoading_dataLive
    (hs : e.SizesOk) (h : e.finishLoading now ok = some e') :
    e'.dataLive = true ↔ e.data ≠ [] := by
  have hempty : e.data ≠ [] ↔ 0 < e.data.length := List.length_pos_iff.symm
  have hpos := hs.pos
  rw [hempty]
  simp only [Entry.finishLoading, Bool.not_eq_true'] at h
  split_ifs at h with hlive hshrink hzero
  · cases h
    simp [hzero]
  all_goals
    cases h
    exact iff_of_true (by simpa using hlive) (by omega)

end Entry

/-! ## One loader -/

/-- The calls of a loader on its entry. -/
inductive LoaderCall
  | appendData (chunk : List UInt8) (now : ℤ) (reallocOk : Bool)
  | finishLoading (now : ℤ) (reallocOk : Bool)

/-- The call with a `realloc` that succeeds. -/
def LoaderCall.withMemory : LoaderCall → LoaderCall
  | .appendData chunk now _ => .appendData chunk now true
  | .finishLoading now _ => .finishLoading now true

/-- The entry, and the chunks of the calls that have returned 0. -/
structure LoaderState where
  entry : Entry
  stored : List (List UInt8)

namespace LoaderState

/-- The call of the loader: its return value and what it leaves. -/
def call (s : LoaderState) : LoaderCall → Option (ℤ × LoaderState)
  | .appendData chunk now ok =>
      if s.entry.isLoading then
        (s.entry.appendData chunk now ok).map fun p =>
          (p.1, ⟨p.2, if p.1 = 0 then s.stored ++ [chunk] else s.stored⟩)
      else some (-1, s)
  | .finishLoading now ok =>
      if s.entry.isLoading then
        (s.entry.finishLoading now ok).map fun e => (0, { s with entry := e })
      else some (-1, s)

/-- The entries of `create_entry` and the calls of their loaders. -/
def loader : TransitionSystem LoaderState LoaderCall where
  Initial := fun s => ∃ key, ∃ initialSize : UInt64, ∃ now,
    s = ⟨createEntry key initialSize.toNat now, []⟩
  step := fun s op => (s.call op).map Prod.snd

/-- The block is allocated, `free_entry` may free it, and it holds the chunks
that were appended. -/
structure BufferOk (s : LoaderState) : Prop where
  size : s.entry.data.length ≤ s.entry.allocatedSize
  live : s.entry.dataLive = true
  contents : s.entry.data = s.stored.flatten

/-- A call that returns -1 leaves the contents and the sizes alone. -/
def Unchanged (s s' : LoaderState) : Prop :=
  s'.entry.data = s.entry.data ∧
    s'.entry.allocatedSize = s.entry.allocatedSize ∧ s'.stored = s.stored

/-- An entry that is still loading is not finished while it is empty, and an
append to it needs a size that the block can grow to. -/
def Fits (s : LoaderState) : LoaderCall → Prop
  | .appendData chunk _ _ => s.entry.isLoading = true →
      s.entry.CanGrow (s.entry.data.length + chunk.length)
  | .finishLoading _ _ => s.entry.isLoading = true → s.entry.data ≠ []

variable {s s' : LoaderState} {op : LoaderCall} {r : ℤ}

/-- What a call can do. -/
theorem call_cases (h : s.call op = some (r, s')) :
    (r = -1 ∧ s' = s) ∨
      (∃ chunk now ok e', op = .appendData chunk now ok ∧
        s.entry.isLoading = true ∧
        s.entry.appendData chunk now ok = some (r, e') ∧
        s' = ⟨e', if r = 0 then s.stored ++ [chunk] else s.stored⟩) ∨
      (∃ now ok e', op = .finishLoading now ok ∧ s.entry.isLoading = true ∧
        s.entry.finishLoading now ok = some e' ∧ r = 0 ∧
        s' = { s with entry := e' }) := by
  cases op with
  | appendData chunk now ok =>
      simp only [call] at h
      split at h
      next hload =>
        obtain ⟨⟨r', e'⟩, happ, heq⟩ := Option.map_eq_some_iff.mp h
        obtain ⟨rfl, rfl⟩ := Prod.mk.inj heq
        exact .inr (.inl ⟨chunk, now, ok, e', rfl, hload, happ, rfl⟩)
      next =>
        obtain ⟨rfl, rfl⟩ := Prod.mk.inj (Option.some.inj h)
        exact .inl ⟨rfl, rfl⟩
  | finishLoading now ok =>
      simp only [call] at h
      split at h
      next hload =>
        obtain ⟨e', hfin, heq⟩ := Option.map_eq_some_iff.mp h
        obtain ⟨rfl, rfl⟩ := Prod.mk.inj heq
        exact .inr (.inr ⟨now, ok, e', rfl, hload, hfin, rfl, rfl⟩)
      next =>
        obtain ⟨rfl, rfl⟩ := Prod.mk.inj (Option.some.inj h)
        exact .inl ⟨rfl, rfl⟩

theorem call_failed (h : s.call op = some (-1, s')) : s.Unchanged s' := by
  rcases call_cases h with ⟨-, rfl⟩ |
    ⟨chunk, now, ok, e', -, -, happ, rfl⟩ | ⟨_, _, _, -, -, -, hr, -⟩
  · exact ⟨rfl, rfl, rfl⟩
  · obtain ⟨-, ⟨_, hr, -⟩ | ⟨-, -, rfl⟩⟩ := Entry.appendData_eq_some happ
    · cases hr
    · exact ⟨rfl, rfl, rfl⟩
  · cases hr

/-- The invariant of the runs whose calls fit. -/
structure Holds (s : LoaderState) : Prop where
  buffer : s.BufferOk
  sizes : s.entry.SizesOk

theorem Holds.call
    (hs : s.Holds) (hfits : s.Fits op) (h : s.call op = some (r, s')) :
    s'.Holds := by
  obtain ⟨⟨-, hlive, hcont⟩, hsizes⟩ := hs
  rcases call_cases h with ⟨-, rfl⟩ |
    ⟨chunk, now, ok, e', -, -, happ, rfl⟩ |
    ⟨now, ok, e', rfl, hload, hfin, -, rfl⟩
  · exact ⟨⟨hsizes.fits, hlive, hcont⟩, hsizes⟩
  · have hsizes' := hsizes.appendData happ
    refine ⟨⟨hsizes'.fits, ?_, ?_⟩, hsizes'⟩
    all_goals
      obtain ⟨-, ⟨_, rfl, rfl, -⟩ | ⟨rfl, -, rfl⟩⟩ :=
        Entry.appendData_eq_some happ
    · exact hlive
    · exact hlive
    · simp [hcont]
    · exact hcont
  · have hsizes' := hsizes.finishLoading hfin
    refine ⟨⟨hsizes'.fits, ?_, ?_⟩, hsizes'⟩
    · exact (Entry.finishLoading_dataLive hsizes hfin).mpr (hfits hload)
    · exact (Entry.finishLoading_spec hfin).2.2.1.trans hcont

theorem Holds.call_returns (hs : s.Holds) (hfits : s.Fits op) :
    ∃ r s', s.call op = some (r, s') := by
  cases op with
  | appendData chunk now ok =>
      simp only [LoaderState.call]
      split
      next hload =>
        obtain ⟨r, e', happ⟩ :=
          (hfits hload).appendData hs.sizes hs.buffer.live now ok
        exact ⟨_, _, by rw [happ]; rfl⟩
      next => exact ⟨_, _, rfl⟩
  | finishLoading now ok =>
      simp only [LoaderState.call]
      split
      next =>
        obtain ⟨e', hfin⟩ :=
          Entry.finishLoading_returns hs.buffer.live now ok
        exact ⟨_, _, by rw [hfin]; rfl⟩
      next => exact ⟨_, _, rfl⟩

theorem holds_of_fits (hs : loader.ReachableUnder Fits s) : s.Holds := by
  refine hs.invariant ?_ ?_
  · rintro s ⟨key, initialSize, now, rfl⟩
    have hsizes := Entry.createEntry_sizesOk key initialSize now
    exact ⟨⟨hsizes.fits, rfl, rfl⟩, hsizes⟩
  · intro s op s' hs hfits hstep
    obtain ⟨⟨r, s''⟩, hcall, rfl⟩ := Option.map_eq_some_iff.mp hstep
    exact hs.call hfits hcall

/-- For every entry of `create_entry` and every run of its loader whose calls
fit, the block is as it should be, and the next call that fits returns; if it
returns -1 it has changed nothing. -/
theorem bufferOk_of_fits
    (s : LoaderState) (hs : loader.ReachableUnder Fits s) :
    s.BufferOk ∧ ∀ op, s.Fits op →
      ∃ r s', s.call op = some (r, s') ∧ (r = -1 → s.Unchanged s') := by
  have hholds := holds_of_fits hs
  refine ⟨hholds.buffer, fun op hfits => ?_⟩
  obtain ⟨r, s', hcall⟩ := hholds.call_returns hfits
  refine ⟨r, s', hcall, ?_⟩
  rintro rfl
  exact call_failed hcall

/-- A call that does not fit does not return, or leaves the entry without a
block, when `realloc` has memory for it. -/
theorem not_bufferOk_of_not_fits
    (hs : loader.ReachableUnder Fits s) (hfits : ¬s.Fits op)
    (h : s.call op.withMemory = some (r, s')) : ¬s'.BufferOk := by
  have hsizes := (holds_of_fits hs).sizes
  cases op with
  | appendData chunk now ok =>
      obtain ⟨hload, hgrow⟩ := Classical.not_imp.mp hfits
      simp only [LoaderCall.withMemory, LoaderState.call, hload, if_true] at h
      obtain ⟨⟨r', e'⟩, happ, -⟩ := Option.map_eq_some_iff.mp h
      exact absurd (Entry.canGrow_of_appendData hsizes happ) hgrow
  | finishLoading now ok =>
      obtain ⟨hload, hempty⟩ := Classical.not_imp.mp hfits
      simp only [LoaderCall.withMemory, LoaderState.call, hload, if_true] at h
      obtain ⟨e', hfin, heq⟩ := Option.map_eq_some_iff.mp h
      obtain ⟨rfl, rfl⟩ := Prod.mk.inj heq
      intro hok
      exact hempty ((Entry.finishLoading_dataLive hsizes hfin).mp hok.live)

/-- A response without a body. -/
def emptyLoader : LoaderState := ⟨createEntry (.ofBuffer [97]) 4096 0, []⟩

/-- Finishing it frees the block that the entry still points to. -/
theorem emptyLoader_loses_block :
    ∃ s, loader.run emptyLoader [.finishLoading 0 true] = some s ∧
      ¬s.BufferOk :=
  ⟨_, rfl, fun h => absurd h.live (by decide)⟩

/-- One byte is enough to keep the block. -/
theorem bufferOk_of_fits_byte :
    ∃ s, loader.run emptyLoader
        [.appendData [65] 0 true, .finishLoading 0 true] = some s ∧
      s.BufferOk ∧ ∀ op, s.Fits op →
        ∃ r s', s.call op = some (r, s') ∧ (r = -1 → s.Unchanged s') := by
  refine ⟨_, rfl, bufferOk_of_fits _ ?_⟩
  refine TransitionSystem.ReachableUnder.run
    (.initial ⟨.ofBuffer [97], 4096, 0, rfl⟩) ?_
    (rfl : loader.run emptyLoader
      [.appendData [65] 0 true, .finishLoading 0 true] = some _)
  refine ⟨fun _ => ⟨0, by decide, by decide⟩, fun s₁ hs₁ => ?_⟩
  obtain rfl := Option.some.inj hs₁
  exact ⟨fun _ => by decide, fun _ _ => trivial⟩

end LoaderState

end Proxy
end OsFifthSem
