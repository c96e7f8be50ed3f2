import Mathlib.Data.List.TakeWhile

/-!
# NUL-terminated strings

A C string is the list of bytes in front of its terminator, so it contains no
NUL byte.  Two strings compare equal under `strcmp` exactly when these lists
are equal.
-/

namespace OsFifthSem
namespace Support

/-- The bytes of a C string in front of its terminator. -/
structure CString where
  bytes : List UInt8
  noNul : (0 : UInt8) ∉ bytes
  deriving DecidableEq

namespace CString

@[ext] theorem ext {s t : CString} (h : s.bytes = t.bytes) : s = t := by
  cases s
  cases t
  cases h
  rfl

/-- The string at the start of a buffer: everything in front of its first
NUL byte. -/
def ofBuffer (buffer : List UInt8) : CString where
  bytes := buffer.takeWhile (· ≠ 0)
  noNul := by
    intro hmem
    simpa using List.mem_takeWhile_imp hmem

theorem ofBuffer_bytes (buffer : List UInt8) :
    (ofBuffer buffer).bytes = buffer.takeWhile (· ≠ 0) := rfl

theorem ofBuffer_bytes_of_notMem
    {buffer : List UInt8} (h : (0 : UInt8) ∉ buffer) :
    (ofBuffer buffer).bytes = buffer := by
  refine List.takeWhile_eq_self_iff.mpr fun b hb => ?_
  have hne : b ≠ 0 := fun h0 => h (h0 ▸ hb)
  simpa using hne

theorem takeWhile_append (s : CString) (rest : List UInt8) :
    (s.bytes ++ rest).takeWhile (· ≠ 0) =
      s.bytes ++ rest.takeWhile (· ≠ 0) := by
  refine List.takeWhile_append_of_pos fun c hc => ?_
  have hne : c ≠ 0 := fun h0 => s.noNul (h0 ▸ hc)
  simpa using hne

/-- `strcat`: the concatenation of two strings. -/
def append (s t : CString) : CString where
  bytes := s.bytes ++ t.bytes
  noNul := by
    rw [List.mem_append]
    exact fun h => h.elim s.noNul t.noNul

@[simp] theorem append_bytes (s t : CString) :
    (s.append t).bytes = s.bytes ++ t.bytes := rfl

end CString
end Support
end OsFifthSem
