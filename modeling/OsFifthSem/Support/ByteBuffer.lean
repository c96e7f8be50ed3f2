import OsFifthSem.Support.CString

/-!
# Byte buffers with checked writes

A buffer of fixed size, whose first contents are arbitrary.  A write that
leaves the buffer has no result.  A buffer holds a string when the bytes of
the string stand at its start and a NUL byte behind them.
-/

namespace OsFifthSem
namespace Support

/-- A buffer of `n` bytes. -/
structure ByteBuffer (n : ℕ) where
  bytes : List UInt8
  length_bytes : bytes.length = n

namespace ByteBuffer

variable {n : ℕ}

/-- The write of some bytes from offset `i` on. -/
def write (b : ByteBuffer n) (i : ℕ) (data : List UInt8) :
    Option (ByteBuffer n) :=
  if h : i + data.length ≤ n then
    some
      { bytes := b.bytes.take i ++ (data ++ b.bytes.drop (i + data.length))
        length_bytes := by
          have hlen := b.length_bytes
          simp only [List.length_append, List.length_take, List.length_drop]
          omega }
  else none

/-- The store of a terminator at offset `i`. -/
def terminate (b : ByteBuffer n) (i : ℕ) : Option (ByteBuffer n) :=
  b.write i [0]

/-- The string at the start of the buffer. -/
def string (b : ByteBuffer n) : CString := .ofBuffer b.bytes

/-- `strcat`.  Where the buffer has no terminator the write leaves it. -/
def strcat (b : ByteBuffer n) (s : CString) : Option (ByteBuffer n) :=
  b.write b.string.bytes.length (s.bytes ++ [0])

/-- The buffer holds the string with its terminator. -/
def Holds (b : ByteBuffer n) (s : CString) : Prop :=
  ∃ rest, b.bytes = s.bytes ++ 0 :: rest

variable {b b' : ByteBuffer n} {s t : CString} {i : ℕ} {data : List UInt8}

theorem write_eq_none (h : n < i + data.length) : b.write i data = none :=
  dif_neg (Nat.not_le.mpr h)

theorem terminate_eq_none (h : n ≤ i) : b.terminate i = none :=
  write_eq_none (Nat.lt_succ_of_le h)

/-- A write inside the buffer, by the bytes in front of it and behind it. -/
theorem exists_write (b : ByteBuffer n) (h : i + data.length ≤ n) :
    ∃ b', b.write i data = some b' ∧
      b'.bytes = b.bytes.take i ++
        (data ++ b.bytes.drop (i + data.length)) :=
  ⟨_, dif_pos h, rfl⟩

theorem exists_terminate (b : ByteBuffer n) (h : i < n) :
    ∃ b', b.terminate i = some b' ∧
      b'.bytes = b.bytes.take i ++ 0 :: b.bytes.drop (i + 1) :=
  b.exists_write h

/-! ## Strings in a buffer -/

theorem Holds.string_eq (h : b.Holds s) : b.string = s := by
  obtain ⟨rest, hb⟩ := h
  apply CString.ext
  rw [string, CString.ofBuffer_bytes, hb, s.takeWhile_append]
  simp

/-- Bytes with a terminator behind them hold the string at their start, which
ends at their first NUL byte. -/
theorem holds_ofBuffer
    {rest : List UInt8} (hb : b.bytes = data ++ 0 :: rest) :
    b.Holds (.ofBuffer data) := by
  have hsplit := List.takeWhile_append_dropWhile (p := (· ≠ (0 : UInt8)))
    (l := data)
  cases hdrop : data.dropWhile (· ≠ (0 : UInt8)) with
  | nil =>
      rw [hdrop, List.append_nil] at hsplit
      exact ⟨rest, by rw [hb, CString.ofBuffer_bytes, hsplit]⟩
  | cons c more =>
      obtain rfl : c = 0 := by
        have hhead := List.head?_dropWhile_not (· ≠ (0 : UInt8)) data
        rw [hdrop] at hhead
        simpa using hhead
      rw [hdrop] at hsplit
      refine ⟨more ++ 0 :: rest, ?_⟩
      rw [hb, CString.ofBuffer_bytes, ← List.cons_append,
        ← List.append_assoc, hsplit]

/-- Bytes and a terminator behind them, written into any buffer that has the
room. -/
theorem exists_write_terminate
    (b : ByteBuffer n) (h : data.length < n) :
    ∃ b', (b.write 0 data).bind (terminate · data.length) = some b' ∧
      b'.Holds (.ofBuffer data) := by
  have hle : 0 + data.length ≤ n := by omega
  obtain ⟨b₁, hb₁, hbytes₁⟩ := b.exists_write hle
  rw [List.take_zero, List.nil_append] at hbytes₁
  obtain ⟨b₂, hb₂, hbytes₂⟩ := b₁.exists_terminate h
  refine ⟨b₂, by rw [hb₁]; exact hb₂, ?_⟩
  rw [hbytes₁, List.take_left] at hbytes₂
  exact holds_ofBuffer hbytes₂

/-- A terminator behind the string does not change it. -/
theorem Holds.exists_terminate
    (h : b.Holds s) (hle : s.bytes.length ≤ i) (hlt : i < n) :
    ∃ b', b.terminate i = some b' ∧ b'.Holds s := by
  obtain ⟨rest, hb⟩ := h
  obtain ⟨b', hb', hbytes⟩ := b.exists_terminate hlt
  refine ⟨b', hb', ?_⟩
  obtain ⟨k, rfl⟩ := Nat.exists_eq_add_of_le hle
  rw [hb, List.take_length_add_append] at hbytes
  cases k with
  | zero =>
      rw [List.take_zero, List.append_nil] at hbytes
      exact ⟨_, hbytes⟩
  | succ k =>
      rw [List.take_succ_cons, List.append_assoc] at hbytes
      exact ⟨_, hbytes⟩

theorem Holds.exists_strcat
    (h : b.Holds s) (hlt : s.bytes.length + t.bytes.length < n) :
    ∃ b', b.strcat t = some b' ∧ b'.Holds (s.append t) := by
  rw [strcat, h.string_eq]
  obtain ⟨rest, hb⟩ := h
  have hle : s.bytes.length + (t.bytes ++ [0]).length ≤ n := by
    rw [List.length_append]
    exact hlt
  obtain ⟨b', hb', hbytes⟩ := b.exists_write hle
  refine ⟨b', hb', (0 :: rest).drop (t.bytes.length + 1), ?_⟩
  rw [hbytes, hb, List.take_left, List.drop_length_add_append]
  simp

end ByteBuffer
end Support
end OsFifthSem
