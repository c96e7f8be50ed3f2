import OsFifthSem.Proxy.Http

/-!
# Requests that arrive in several reads

`read_client` parses the bytes of each read on their own.  The parser's answer
that a request is not complete yet is treated like a parse error, and nothing
is kept for the next read.

The parser is a parameter: it belongs to a library that is not part of the
repository.
-/

namespace OsFifthSem
namespace Proxy

open Support

/-- What `phr_parse_request` returns, and what it stores through its
pointers. -/
structure PhrResult where
  bytesUsed : ℤ
  req : HttpReq

/-- `strncpy(http_string, bytes, size)` for the `size` bytes of a buffer: the
bytes in front of the first NUL byte, filled up with NUL bytes. -/
def strncpyBytes (bytes : List UInt8) : List UInt8 :=
  let copied := (CString.ofBuffer bytes).bytes
  copied ++ List.replicate (bytes.length - copied.length) 0

/-- What one call of `read_client` does with the bytes it is given. -/
inductive RequestEvent
  | skipped
  | lookup (key : CString)
  deriving DecidableEq

section Reads

variable (phr : List UInt8 → PhrResult)

/-- `parse_http_req`: the return value and the request. -/
def parseHttpReq (bytes : List UInt8) : ℤ × HttpReq :=
  let result := phr (strncpyBytes bytes)
  (if result.bytesUsed ≤ 0 then -1 else 0, result.req)

/-- `read_client` up to its `cache_lookup`, for a read of `bytes`; undefined
when the key leaves its buffer. -/
def readClient (bytes : List UInt8) : Option (List RequestEvent) :=
  if bytes.length > 0 then
    let (err, req) := parseHttpReq phr bytes
    if err ≠ 0 then some [.skipped]
    else req.cacheKey.map fun key => [.lookup key]
  else some []

/-- Successive calls of `read_client` on one connection. -/
def readAll : List (List UInt8) → Option (List RequestEvent)
  | [] => some []
  | bytes :: segments => do
      let events ← readClient phr bytes
      let later ← readAll segments
      some (events ++ later)

/-- What is known of `phr_parse_request`, given which byte strings are complete
well-formed requests: it accepts these, it answers -2 to their proper prefixes
and to nothing else, and it finds no NUL byte in them. -/
structure PhrSpec (Complete : List UInt8 → Prop) : Prop where
  whole : ∀ bytes, Complete bytes → 0 < (phr bytes).bytesUsed
  cut : ∀ bytes, (phr bytes).bytesUsed = -2 ↔
    ∃ rest, rest ≠ [] ∧ Complete (bytes ++ rest)
  noNul : ∀ bytes, Complete bytes → (0 : UInt8) ∉ bytes

end Reads

/-! ## Reads of a split request -/

theorem strncpyBytes_of_noNul
    {bytes : List UInt8} (h : (0 : UInt8) ∉ bytes) :
    strncpyBytes bytes = bytes := by
  unfold strncpyBytes
  rw [CString.ofBuffer_bytes_of_notMem h]
  simp

section Split

variable {phr : List UInt8 → PhrResult} {Complete : List UInt8 → Prop}

/-- Empty reads do nothing. -/
theorem readAll_filter (segments : List (List UInt8)) :
    readAll phr (segments.filter fun bytes => !bytes.isEmpty) =
      readAll phr segments := by
  induction segments with
  | nil => rfl
  | cons bytes segments ih =>
      cases bytes with
      | nil =>
          have hempty : readClient phr [] = some [] := rfl
          rw [List.filter_cons_of_neg (by simp), ih, readAll, hempty]
          cases readAll phr segments <;> rfl
      | cons b bytes =>
          rw [List.filter_cons_of_pos (by simp), readAll, readAll, ih]

/-- The first part of a request that is cut is skipped. -/
theorem readClient_of_cut
    (hphr : PhrSpec phr Complete) {bytes rest : List UInt8}
    (hbytes : bytes ≠ []) (hrest : rest ≠ [])
    (hreq : Complete (bytes ++ rest)) :
    readClient phr bytes = some [.skipped] := by
  have hnul : (0 : UInt8) ∉ bytes := by
    intro hmem
    exact hphr.noNul _ hreq (List.mem_append_left rest hmem)
  have hcut := (hphr.cut bytes).mpr ⟨rest, hrest, hreq⟩
  have hpos : 0 < bytes.length := List.length_pos_iff.mpr hbytes
  simp [readClient, parseHttpReq, strncpyBytes_of_noNul hnul, hcut, hpos]

/-- A request that arrives whole is looked up, if its key fits. -/
theorem readAll_whole
    (hphr : PhrSpec phr Complete) {request : List UInt8}
    (hne : request ≠ []) (hreq : Complete request) :
    readAll phr [request] =
      (phr request).req.cacheKey.map fun key => [.lookup key] := by
  have hpos : 0 < request.length := List.length_pos_iff.mpr hne
  have hused : ¬(phr request).bytesUsed ≤ 0 := by
    have := hphr.whole request hreq
    omega
  have hread : readClient phr request =
      (phr request).req.cacheKey.map fun key => [.lookup key] := by
    simp [readClient, parseHttpReq, strncpyBytes_of_noNul (hphr.noNul _ hreq),
      hpos, hused]
  rw [readAll, hread]
  cases (phr request).req.cacheKey <;> rfl

/-- However a request is split, it is looked up once, under the key it has in
a single read, and nothing is skipped, if and only if it is not cut and its
key fits. -/
theorem lookedUpOnce_iff_whole
    (phr : List UInt8 → PhrResult) (Complete : List UInt8 → Prop)
    (request : List UInt8) (segments : List (List UInt8))
    (hphr : PhrSpec phr Complete) (hreq : Complete request)
    (hsplit : segments.flatten = request) :
    (∃ key, readAll phr [request] = some [.lookup key] ∧
        readAll phr segments = some [.lookup key]) ↔
      segments.filter (fun bytes => !bytes.isEmpty) = [request] ∧
        ∃ key, (phr request).req.cacheKey = some key := by
  rw [← readAll_filter segments]
  rw [← List.flatten_filter_not_isEmpty] at hsplit
  have hnonempty : ∀ bytes ∈ segments.filter (fun bytes => !bytes.isEmpty),
      bytes ≠ [] := by
    intro bytes hmem
    simpa using (List.mem_filter.mp hmem).2
  generalize segments.filter (fun bytes => !bytes.isEmpty) = parts at *
  constructor
  · rintro ⟨key, hwhole, hparts⟩
    cases parts with
    | nil => cases hparts
    | cons bytes parts =>
        have hbytes := hnonempty bytes List.mem_cons_self
        have hone : parts = [] := by
          cases parts with
          | nil => rfl
          | cons next parts =>
              -- the first part is not the whole request
              have hrest : (next :: parts).flatten ≠ [] := by
                have hnext := hnonempty next (by simp)
                simp [hnext]
              have hskip := readClient_of_cut hphr hbytes hrest
                (by rw [← List.flatten_cons, hsplit]; exact hreq)
              rw [readAll, hskip, Option.bind_eq_bind,
                Option.bind_some] at hparts
              obtain ⟨later, -, hlog⟩ := Option.bind_eq_some_iff.mp hparts
              cases hlog
        subst hone
        obtain rfl : bytes = request := by simpa using hsplit
        refine ⟨rfl, key, ?_⟩
        rw [readAll_whole hphr hbytes hreq] at hwhole
        obtain ⟨key', hkey, hlog⟩ := Option.map_eq_some_iff.mp hwhole
        cases hlog
        exact hkey
  · rintro ⟨rfl, key, hkey⟩
    have hne := hnonempty request List.mem_cons_self
    have hlog : readAll phr [request] = some [.lookup key] := by
      rw [readAll_whole hphr hne hreq, hkey]
      rfl
    exact ⟨key, hlog, hlog⟩

end Split

/-- `GET / HTTP/1.1` and an empty line. -/
def getRoot : List UInt8 :=
  [71, 69, 84, 32, 47, 32, 72, 84, 84, 80, 47, 49, 46, 49, 13, 10, 13, 10]

/-- A parser that knows this one request. -/
def phrGetRoot (bytes : List UInt8) : PhrResult :=
  if bytes = getRoot then ⟨18, ⟨[47], []⟩⟩
  else if bytes.isPrefixOf getRoot then ⟨-2, ⟨[], []⟩⟩
  else ⟨-1, ⟨[], []⟩⟩

theorem phrSpec_getRoot : PhrSpec phrGetRoot fun bytes => bytes = getRoot where
  whole := by
    rintro bytes rfl
    simp [phrGetRoot]
  cut := by
    intro bytes
    unfold phrGetRoot
    by_cases hall : bytes = getRoot
    · simp only [hall, if_true]
      refine iff_of_false (by decide) ?_
      rintro ⟨rest, hrest, happ⟩
      exact hrest (by simpa using happ)
    · rw [if_neg hall]
      by_cases hcut : bytes.isPrefixOf getRoot = true
      · rw [if_pos hcut]
        obtain ⟨rest, happ⟩ := List.isPrefixOf_iff_prefix.mp hcut
        refine iff_of_true rfl ⟨rest, ?_, happ⟩
        rintro rfl
        exact hall (by simpa using happ)
      · rw [if_neg hcut]
        refine iff_of_false (by decide) ?_
        rintro ⟨rest, -, happ⟩
        exact hcut (List.isPrefixOf_iff_prefix.mpr ⟨rest, happ⟩)
  noNul := by
    rintro bytes rfl
    decide

/-- Cut behind its first five bytes, the request is never looked up. -/
theorem getRoot_cut :
    PhrSpec phrGetRoot (fun bytes => bytes = getRoot) ∧
      [getRoot.take 5, getRoot.drop 5].flatten = getRoot ∧
      ¬∃ key, readAll phrGetRoot [getRoot] = some [.lookup key] ∧
        readAll phrGetRoot [getRoot.take 5, getRoot.drop 5] =
          some [.lookup key] := by
  refine ⟨phrSpec_getRoot, rfl, ?_⟩
  rintro ⟨key, -, hlog⟩
  have hcut : readAll phrGetRoot [getRoot.take 5, getRoot.drop 5] =
      some [.skipped, .skipped] := by
    decide
  rw [hcut] at hlog
  cases hlog

/-- Two splits: an empty read in front, and a cut in the request line. -/
theorem lookedUpOnce_iff_whole_getRoot :
    (∃ key, readAll phrGetRoot [getRoot] = some [.lookup key] ∧
        readAll phrGetRoot [[], getRoot] = some [.lookup key]) ∧
      ¬∃ key, readAll phrGetRoot [getRoot] = some [.lookup key] ∧
        readAll phrGetRoot [getRoot.take 7, [], getRoot.drop 7] =
          some [.lookup key] := by
  refine ⟨?_, fun h => ?_⟩
  · exact (lookedUpOnce_iff_whole phrGetRoot _ getRoot [[], getRoot]
      phrSpec_getRoot rfl rfl).mpr ⟨rfl, _, rfl⟩
  · have hwhole := (lookedUpOnce_iff_whole phrGetRoot _ getRoot
      [getRoot.take 7, [], getRoot.drop 7] phrSpec_getRoot rfl rfl).mp h
    exact absurd hwhole.1 (by decide)

end Proxy
end OsFifthSem
