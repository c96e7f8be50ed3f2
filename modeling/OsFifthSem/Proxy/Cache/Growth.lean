import Mathlib.Data.Nat.Find
import OsFifthSem.Proxy.Cache.Buffer

/-!
# The sizes of a growing block

`cache_start_loading` allocates 4096 bytes, and `cache_append_data` doubles
the size until the chunk fits.  The size of a loading entry is therefore 4096
times a power of two, which is why the loop meets every need up to `2 ^ 63`
without wrapping around.
-/

namespace OsFifthSem
namespace Proxy

open Support

/-- The loop on `new_size`, started with `n`, ends with `size`: it doubles
exactly while `new_size` is too small, and no product wraps around. -/
def DoublesTo (need n size : ℕ) : Prop :=
  ∃ turns, size = n * 2 ^ turns ∧ need ≤ size ∧ size < sizeRange ∧
    ∀ i < turns, n * 2 ^ i < need

theorem DoublesTo.le {need n size : ℕ} (h : DoublesTo need n size) :
    need ≤ size := by
  obtain ⟨-, -, hneed, -⟩ := h
  exact hneed

/-- A size that was doubled at all is less than twice what is needed. -/
theorem DoublesTo.lt_two_mul
    {need n size : ℕ} (h : DoublesTo need n size) (hne : size ≠ n) :
    size < 2 * need := by
  obtain ⟨turns, rfl, -, -, hsmall⟩ := h
  cases turns with
  | zero => simp at hne
  | succ turns =>
      have hlast := hsmall turns (Nat.lt_succ_self turns)
      calc n * 2 ^ (turns + 1) = 2 * (n * 2 ^ turns) := by
            rw [Nat.pow_succ', Nat.mul_left_comm]
        _ < 2 * need := by omega

theorem growSize_eq_of_doubles
    {need n turns fuel : ℕ} (hneed : need ≤ n * 2 ^ turns)
    (hlt : n * 2 ^ turns < sizeRange)
    (hsmall : ∀ i < turns, n * 2 ^ i < need) (hfuel : turns < fuel) :
    growSize need fuel n = some (n * 2 ^ turns) := by
  induction turns generalizing n fuel with
  | zero =>
      obtain ⟨fuel, rfl⟩ : ∃ f, fuel = f + 1 := ⟨fuel - 1, by omega⟩
      rw [Nat.pow_zero, Nat.mul_one] at hneed ⊢
      rw [growSize, if_neg (Nat.not_lt.mpr hneed)]
  | succ turns ih =>
      obtain ⟨fuel, rfl⟩ : ∃ f, fuel = f + 1 := ⟨fuel - 1, by omega⟩
      have hdouble : ∀ i, n * 2 * 2 ^ i = n * 2 ^ (i + 1) := by
        intro i
        rw [Nat.pow_succ', Nat.mul_assoc]
      have hfirst : n < need := by simpa using hsmall 0 (Nat.succ_pos turns)
      have hstep : n * 2 < sizeRange := by
        refine lt_of_le_of_lt ?_ hlt
        rw [← hdouble]
        exact Nat.le_mul_of_pos_right _ (Nat.two_pow_pos turns)
      rw [growSize, if_pos hfirst, Nat.mod_eq_of_lt hstep, ← hdouble]
      refine ih ?_ ?_ ?_ (by omega)
      · rwa [hdouble]
      · rwa [hdouble]
      · intro i hi
        rw [hdouble]
        exact hsmall (i + 1) (by omega)

theorem initialSize_mul_pow (k : ℕ) : 4096 * 2 ^ k = 2 ^ (k + 12) := by
  rw [Nat.pow_add, Nat.mul_comm]

theorem le_of_initialSize_mul_pow_lt
    {k : ℕ} (hk : 4096 * 2 ^ k < sizeRange) : k ≤ 51 := by
  rw [initialSize_mul_pow] at hk
  have hexp : k + 12 < 64 := (Nat.pow_lt_pow_iff_right (by decide)).mp hk
  omega

/-- Started with a multiple of 4096 by a power of two, the loop meets every
need up to `2 ^ 63`. -/
theorem growSize_doublesTo
    {need k : ℕ} (hk : 4096 * 2 ^ k < sizeRange) (hneed : need ≤ 2 ^ 63) :
    ∃ size, growSize need 65 (4096 * 2 ^ k) = some size ∧
      DoublesTo need (4096 * 2 ^ k) size := by
  have hk' := le_of_initialSize_mul_pow_lt hk
  have htop : 4096 * 2 ^ k * 2 ^ (51 - k) = 2 ^ 63 := by
    rw [Nat.mul_assoc, ← Nat.pow_add, show k + (51 - k) = 51 by omega,
      initialSize_mul_pow]
  have hex : ∃ j, need ≤ 4096 * 2 ^ k * 2 ^ j := ⟨51 - k, htop ▸ hneed⟩
  obtain ⟨turns, hleast, hsmall⟩ :
      ∃ turns, need ≤ 4096 * 2 ^ k * 2 ^ turns ∧
        ∀ i < turns, 4096 * 2 ^ k * 2 ^ i < need :=
    ⟨Nat.find hex, Nat.find_spec hex,
      fun i hi => Nat.not_le.mp (Nat.find_min hex hi)⟩
  have hturns : turns ≤ 51 - k := by
    by_contra hgt
    have hless := hsmall (51 - k) (by omega)
    omega
  have hlt : 4096 * 2 ^ k * 2 ^ turns < sizeRange := by
    have hle : 4096 * 2 ^ k * 2 ^ turns ≤ 2 ^ 63 := by
      rw [← htop]
      exact Nat.mul_le_mul_left _ (Nat.pow_le_pow_right (by decide) hturns)
    exact hle.trans_lt (by decide)
  exact ⟨_, growSize_eq_of_doubles hleast hlt hsmall (by omega),
    turns, rfl, hleast, hlt, hsmall⟩

/-- The loop only ends with such a multiple: once a product wraps around, the
size is 0 for good. -/
theorem exists_pow_of_growSize
    {need fuel n size k : ℕ} (hn : n = 4096 * 2 ^ k) (hlt : n < sizeRange)
    (hpos : 0 < need) (h : growSize need fuel n = some size) :
    ∃ j, size = 4096 * 2 ^ j := by
  have hzero : ∀ fuel, growSize need fuel 0 = none := by
    intro fuel
    induction fuel with
    | zero => rfl
    | succ fuel ih =>
        rw [growSize, if_pos hpos, Nat.zero_mul, Nat.zero_mod, ih]
  induction fuel generalizing n k with
  | zero => cases h
  | succ fuel ih =>
      have hdouble : n * 2 = 4096 * 2 ^ (k + 1) := by
        rw [hn, Nat.mul_assoc, ← Nat.pow_succ]
      rw [growSize] at h
      split at h
      · by_cases hwrap : n * 2 < sizeRange
        · rw [Nat.mod_eq_of_lt hwrap] at h
          exact ih hdouble hwrap h
        · have hk := le_of_initialSize_mul_pow_lt (hn ▸ hlt)
          have hlast : k = 51 := by
            by_contra hne
            refine hwrap (hdouble.trans_lt ?_)
            rw [initialSize_mul_pow]
            exact (Nat.pow_lt_pow_iff_right (by decide)).mpr
              (show k + 1 + 12 < 64 by omega)
          have hnone : n * 2 % sizeRange = 0 := by
            rw [hdouble, hlast]
            decide
          rw [hnone, hzero] at h
          cases h
      · obtain rfl := Option.some.inj h
        exact ⟨k, hn⟩

/-! ## The entries of `cache_start_loading` -/

namespace LoaderState

/-- The loaders of the entries that `cache_start_loading` creates. -/
def startedLoader : TransitionSystem LoaderState LoaderCall where
  Initial := fun s => ∃ key now, s = ⟨createEntry key 4096 now, []⟩
  step := loader.step

/-- The size of a block that has only been doubled. -/
def DoubledBlock (s : LoaderState) : Prop :=
  ∃ k, s.entry.allocatedSize = 4096 * 2 ^ k

/-- The invariant of these loaders. -/
structure Growing (s : LoaderState) : Prop where
  sizes : s.entry.SizesOk
  live : s.entry.isLoading = true → s.entry.dataLive = true
  doubled : s.entry.isLoading = true → s.DoubledBlock

/-- For every need up to `2 ^ 63`, the loop of the next append ends with a size
that was reached by doubling alone, and that is less than twice the need when
it is a new one; and the append leaves the chunk in a block of that size. -/
def GrowthEnds (s : LoaderState) : Prop :=
  ∀ chunk : List UInt8,
    sizeAdd s.entry.data.length chunk.length ≤ 2 ^ 63 →
      ∃ size,
        growSize (sizeAdd s.entry.data.length chunk.length) 65
            s.entry.allocatedSize = some size ∧
          DoublesTo (sizeAdd s.entry.data.length chunk.length)
            s.entry.allocatedSize size ∧
          (size ≠ s.entry.allocatedSize →
            size < 2 * sizeAdd s.entry.data.length chunk.length) ∧
          (s.entry.data.length + chunk.length < sizeRange →
            ∀ now, ∃ e', s.entry.appendData chunk now true = some (0, e') ∧
              e'.allocatedSize = size ∧ e'.data = s.entry.data ++ chunk)

variable {s s' : LoaderState} {op : LoaderCall} {r : ℤ}

theorem growing_of_initial (hs : startedLoader.Initial s) : s.Growing := by
  obtain ⟨key, now, rfl⟩ := hs
  exact ⟨Entry.createEntry_sizesOk key 4096 now, fun _ => rfl, fun _ => ⟨0, rfl⟩⟩

theorem Growing.call (hs : s.Growing) (h : s.call op = some (r, s')) :
    s'.Growing := by
  rcases call_cases h with ⟨-, rfl⟩ |
    ⟨chunk, now, ok, e', -, hload, happ, rfl⟩ |
    ⟨now, ok, e', -, -, hfin, -, rfl⟩
  · exact hs
  · refine ⟨hs.sizes.appendData happ, fun _ => ?_, fun _ => ?_⟩
    · obtain ⟨hlive, ⟨size, -, rfl, -⟩ | ⟨-, -, rfl⟩⟩ :=
        Entry.appendData_eq_some happ
      · exact hlive
      · exact hlive
    obtain ⟨k, hk⟩ := hs.doubled hload
    obtain ⟨-, ⟨size, -, rfl, hfits, hsize⟩ | ⟨-, -, rfl⟩⟩ :=
      Entry.appendData_eq_some happ
    · rcases hsize with rfl | hgrow
      · exact ⟨k, hk⟩
      · by_cases hneed : 0 < sizeAdd s.entry.data.length chunk.length
        · exact exists_pow_of_growSize hk hs.sizes.lt hneed hgrow
        · -- Nothing is needed, so the loop takes no turn.
          rw [growSize, if_neg (by omega)] at hgrow
          obtain rfl := Option.some.inj hgrow
          exact ⟨k, hk⟩
    · exact ⟨k, hk⟩
  · have hfinished : e'.isLoading ≠ true := by
      simp [(Entry.finishLoading_spec hfin).2.1]
    exact ⟨hs.sizes.finishLoading hfin, fun hload => absurd hload hfinished,
      fun hload => absurd hload hfinished⟩

theorem growing_of_reachable (hs : startedLoader.Reachable s) : s.Growing := by
  refine hs.invariant (fun _ => growing_of_initial) ?_
  intro s op s' hs _ hstep
  obtain ⟨⟨r, s''⟩, hcall, rfl⟩ := Option.map_eq_some_iff.mp hstep
  exact hs.call hcall

/-- The append takes the size with which the loop ends. -/
theorem appendData_of_growSize
    {e : Entry} {chunk : List UInt8} {size : ℕ} (hlive : e.dataLive = true)
    (hsize : growSize (sizeAdd e.data.length chunk.length) 65 e.allocatedSize =
      some size)
    (hneed : sizeAdd e.data.length chunk.length ≤ size)
    (hlt : e.data.length + chunk.length < sizeRange) (now : ℤ) :
    ∃ e', e.appendData chunk now true = some (0, e') ∧
      e'.allocatedSize = size ∧ e'.data = e.data ++ chunk := by
  have hadd : sizeAdd e.data.length chunk.length =
      e.data.length + chunk.length := Nat.mod_eq_of_lt hlt
  rw [hadd] at hsize hneed
  by_cases hgrow : e.data.length + chunk.length > e.allocatedSize
  · refine ⟨{ e with
      lastAccessed := now
      allocatedSize := size
      data := e.data ++ chunk }, ?_, rfl, rfl⟩
    simp [Entry.appendData, hlive, hadd, hgrow, hsize, Entry.storeChunk, hneed]
  · -- the chunk fits, and the loop takes no turn
    rw [growSize, if_neg (by omega)] at hsize
    refine ⟨{ e with
      lastAccessed := now
      data := e.data ++ chunk }, ?_, Option.some.inj hsize, rfl⟩
    simp [Entry.appendData, hlive, hadd, hgrow, Entry.storeChunk,
      Nat.not_lt.mp hgrow]

/-- While an entry loads, its size is 4096 times a power of two, and the loop
of every append that needs at most `2 ^ 63` bytes ends with room for them. -/
theorem growthEnds_of_reachable
    (s : LoaderState) (hs : startedLoader.Reachable s)
    (hload : s.entry.isLoading = true) : s.DoubledBlock ∧ s.GrowthEnds := by
  have hgrowing := growing_of_reachable hs
  obtain ⟨k, hk⟩ := hgrowing.doubled hload
  refine ⟨⟨k, hk⟩, fun chunk hneed => ?_⟩
  have hlt : 4096 * 2 ^ k < sizeRange := hk ▸ hgrowing.sizes.lt
  obtain ⟨size, hsize, hdoubles⟩ := growSize_doublesTo hlt hneed
  rw [← hk] at hsize hdoubles
  have hroom := hdoubles.le
  exact ⟨size, hsize, hdoubles, hdoubles.lt_two_mul,
    fun hrange => appendData_of_growSize (hgrowing.live hload) hsize hroom hrange⟩

/-- An entry that holds one byte. -/
theorem growthEnds_of_reachable_byte :
    ∃ s, loader.run emptyLoader [.appendData [65] 0 true] = some s ∧
      s.DoubledBlock ∧ s.GrowthEnds := by
  refine ⟨_, rfl, growthEnds_of_reachable _ ?_ rfl⟩
  exact TransitionSystem.Reachable.run
    (.initial ⟨.ofBuffer [97], 0, rfl⟩)
    (rfl : startedLoader.run emptyLoader [.appendData [65] 0 true] = some _)

end LoaderState

end Proxy
end OsFifthSem
