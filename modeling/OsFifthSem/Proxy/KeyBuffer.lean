import OsFifthSem.Proxy.Segmentation
import OsFifthSem.Support.ByteBuffer

/-!
# The buffers of the key and of the path

The bytes that `read_client` writes into the buffer of the key and
`load_http_resp` into that of the path, whatever these contain before.
Neither function compares a length with the size of its buffer.  Where the
writes stay inside, the key is the string that `cacheKey` says.
-/

namespace OsFifthSem
namespace Proxy

open Support

/-- The size that `read_client` allocates for `key`. -/
def keySize : ℕ := 512

/-- The size of `path` in `load_http_resp`. -/
def pathSize : ℕ := 1024

namespace HttpReq

/-- The bytes of the header value that `referer` is copied from. -/
def refererValue (x : HttpReq) : List UInt8 :=
  x.headers.foldl
    (fun value h => if strncmpEq refererName h.name then h.value else value)
    []

/-- `strncpy` of the path and the terminator behind it, as both functions have
it. -/
def copyPath {n : ℕ} (x : HttpReq) (b : ByteBuffer n) :
    Option (ByteBuffer n) :=
  (b.write 0 (strncpyBytes x.path)).bind (·.terminate x.path.length)

/-- `strcat` of the referer, if there is one. -/
def appendReferer {n : ℕ} (x : HttpReq) (b : ByteBuffer n) :
    Option (ByteBuffer n) :=
  match x.referer with
  | some referer => b.strcat referer
  | none => some b

/-- The writes to `key` in `read_client`. -/
def writeKey (x : HttpReq) (key : ByteBuffer keySize) :
    Option (ByteBuffer keySize) :=
  (x.copyPath key).bind fun key =>
    (x.appendReferer key).bind
      (·.terminate (x.path.length + x.refererBytes.length))

/-- The writes to `path` in `load_http_resp`. -/
def writePath (x : HttpReq) (path : ByteBuffer pathSize) :
    Option (ByteBuffer pathSize) :=
  x.copyPath path

/-- Whatever the buffers contain before: all writes are inside, and the key is
the path followed by the referer, terminated. -/
structure KeyBuilt (x : HttpReq) : Prop where
  key : ∀ key, ∃ key' s, x.writeKey key = some key' ∧ key'.Holds s ∧
    s.bytes = x.path ++ x.refererValue
  path : ∀ path, (x.writePath path).isSome

/-- Path and referer leave room for a terminator and contain none. -/
structure KeyFits (x : HttpReq) : Prop where
  room : x.path.length + x.refererValue.length < keySize
  noNul : (0 : UInt8) ∉ x.path ++ x.refererValue

variable {x : HttpReq}

/-! ## The path -/

theorem length_strncpyBytes (bytes : List UInt8) :
    (strncpyBytes bytes).length = bytes.length := by
  have hle := (List.takeWhile_sublist (l := bytes) (· ≠ 0)).length_le
  rw [strncpyBytes, List.length_append, List.length_replicate,
    CString.ofBuffer_bytes]
  omega

theorem ofBuffer_strncpyBytes (bytes : List UInt8) :
    CString.ofBuffer (strncpyBytes bytes) = .ofBuffer bytes := by
  apply CString.ext
  rw [strncpyBytes, CString.ofBuffer_bytes, CString.takeWhile_append]
  simp

theorem exists_copyPath
    {n : ℕ} (b : ByteBuffer n) (h : x.path.length < n) :
    ∃ b', x.copyPath b = some b' ∧ b'.Holds x.urlPath := by
  have hlen := length_strncpyBytes x.path
  rw [← hlen] at h
  obtain ⟨b', hb', hholds⟩ := b.exists_write_terminate h
  rw [hlen] at hb'
  rw [ofBuffer_strncpyBytes] at hholds
  exact ⟨b', hb', hholds⟩

/-! ## The key -/

theorem writeKey_eq_none
    (h : keySize ≤ x.path.length + x.refererBytes.length)
    (key : ByteBuffer keySize) : x.writeKey key = none := by
  simp only [writeKey, ByteBuffer.terminate_eq_none h, Option.bind_fun_none]

/-- Where the writes stay inside, they make the string that `cacheKey` says. -/
theorem exists_writeKey
    (h : x.path.length + x.refererBytes.length < keySize)
    (key : ByteBuffer keySize) :
    ∃ key' s, x.writeKey key = some key' ∧ key'.Holds s ∧
      x.cacheKey = some s := by
  have hpath : x.urlPath.bytes.length ≤ x.path.length :=
    (List.takeWhile_sublist _).length_le
  obtain ⟨key₁, hkey₁, hholds₁⟩ := x.exists_copyPath key (by omega)
  unfold writeKey appendReferer cacheKey
  rw [hkey₁, Option.bind_some, if_pos (show _ < 512 from h)]
  cases href : x.referer with
  | none =>
      obtain ⟨key₂, hkey₂, hholds₂⟩ := hholds₁.exists_terminate
        (hpath.trans (Nat.le_add_right ..)) h
      exact ⟨key₂, x.urlPath, hkey₂, hholds₂, rfl⟩
  | some referer =>
      have hbytes : x.refererBytes = referer.bytes := by
        rw [refererBytes, href, Option.elim_some]
      rw [hbytes] at h ⊢
      have hlen : (x.urlPath.append referer).bytes.length ≤
          x.path.length + referer.bytes.length := by
        rw [CString.append_bytes, List.length_append]
        omega
      obtain ⟨key₂, hkey₂, hholds₂⟩ :=
        hholds₁.exists_strcat (t := referer) (by omega)
      obtain ⟨key₃, hkey₃, hholds₃⟩ := hholds₂.exists_terminate hlen h
      refine ⟨key₃, x.urlPath.append referer, ?_, hholds₃, rfl⟩
      exact (congrArg (Option.bind · _) hkey₂).trans hkey₃

/-- The key that the rest of the development compares is the one in the
buffer. -/
theorem map_string_writeKey (x : HttpReq) (key : ByteBuffer keySize) :
    (x.writeKey key).map ByteBuffer.string = x.cacheKey := by
  by_cases h : x.path.length + x.refererBytes.length < keySize
  · obtain ⟨key', s, hkey', hholds, hs⟩ := x.exists_writeKey h key
    rw [hkey', hs, Option.map_some, hholds.string_eq]
  · rw [writeKey_eq_none (Nat.not_lt.mp h), Option.map_none, cacheKey,
      if_neg (show ¬_ < 512 from h)]

/-! ## The referer -/

/-- `strndup` keeps the value in front of its first NUL byte.  The induction is
on the headers left, from any header picked so far. -/
theorem refererBytes_eq (x : HttpReq) :
    x.refererBytes = (CString.ofBuffer x.refererValue).bytes := by
  suffices h : ∀ (headers : List Header) (referer : Option CString)
      (value : List UInt8),
      referer.elim [] CString.bytes = (CString.ofBuffer value).bytes →
      (headers.foldl (fun referer h =>
        if strncmpEq refererName h.name then some (.ofBuffer h.value)
        else referer) referer).elim [] CString.bytes =
      (CString.ofBuffer (headers.foldl (fun value h =>
        if strncmpEq refererName h.name then h.value
        else value) value)).bytes from
    h x.headers none [] rfl
  intro headers
  induction headers with
  | nil => exact fun _ _ h => h
  | cons header headers ih =>
      intro referer value h
      rw [List.foldl_cons, List.foldl_cons]
      split_ifs
      · exact ih _ _ rfl
      · exact ih _ _ h

/-- For every request: the writes of both functions stay in their buffers and
make the right key if and only if path and referer fit and contain no NUL
byte. -/
theorem keyBuilt_iff_keyFits (x : HttpReq) : x.KeyBuilt ↔ x.KeyFits := by
  constructor
  · intro h
    obtain ⟨key', s, hkey', hholds, hs⟩ :=
      h.key ⟨List.replicate keySize 0, List.length_replicate⟩
    have hnul : (0 : UInt8) ∉ x.path ++ x.refererValue := hs ▸ s.noNul
    have hvalue : (0 : UInt8) ∉ x.refererValue :=
      fun hmem => hnul (List.mem_append_right _ hmem)
    refine ⟨?_, hnul⟩
    by_contra hroom
    rw [← CString.ofBuffer_bytes_of_notMem hvalue, ← refererBytes_eq] at hroom
    rw [writeKey_eq_none (Nat.not_lt.mp hroom)] at hkey'
    cases hkey'
  · rintro ⟨hroom, hnul⟩
    rw [List.mem_append, not_or] at hnul
    have hvalue : x.refererBytes = x.refererValue := by
      rw [refererBytes_eq, CString.ofBuffer_bytes_of_notMem hnul.2]
    have hurl : x.urlPath.bytes = x.path :=
      CString.ofBuffer_bytes_of_notMem hnul.1
    constructor
    · intro key
      rw [← hvalue] at hroom
      obtain ⟨key', s, hkey', hholds, hs⟩ := x.exists_writeKey hroom key
      exact ⟨key', s, hkey', hholds, by rw [cacheKey_bytes hs, hurl, hvalue]⟩
    · intro path
      have hlt : x.path.length < pathSize := by
        unfold keySize at hroom
        unfold pathSize
        omega
      obtain ⟨path', hpath', -⟩ := x.exists_copyPath path hlt
      rw [writePath, hpath']
      rfl

/-- A path of 512 bytes. -/
def longPath : HttpReq := ⟨List.replicate 512 47, []⟩

/-- Its terminator is the first byte behind the buffer. -/
theorem longPath_not_keyBuilt : ¬longPath.KeyBuilt := by
  intro h
  obtain ⟨key', s, hkey', -⟩ :=
    h.key ⟨List.replicate keySize 0, List.length_replicate⟩
  have hlong : keySize ≤
      longPath.path.length + longPath.refererBytes.length := by
    rw [longPath, List.length_replicate]
    exact Nat.le_add_right ..
  rw [writeKey_eq_none hlong] at hkey'
  cases hkey'

end HttpReq

end Proxy
end OsFifthSem
