import OsFifthSem.Support.CString

/-!
# Parsed requests and their cache keys

`http_req_t` as `parse_http_req` fills it in, the loop of `read_client` that
picks the referer, and the key it builds.  The parser itself belongs to a
library that is not part of the repository; nothing below depends on what it
accepts, so a request is any path with any list of headers.
-/

namespace OsFifthSem
namespace Proxy

open Support

/-- `struct phr_header`: a name and a value, each a pointer with a length. -/
structure Header where
  name : List UInt8
  value : List UInt8
  deriving DecidableEq

/-- `http_req_t`, as far as it is read after parsing. -/
structure HttpReq where
  path : List UInt8
  headers : List Header
  deriving DecidableEq

/-- `strncmp(s, t, n) == 0` for a string `s` and the first `n` bytes `t` of
the other argument. -/
def strncmpEq : List UInt8 → List UInt8 → Bool
  | _, [] => true
  | [], c :: _ => c == 0
  | b :: s, c :: t => b == c && strncmpEq s t

/-- The literal `"Referer"`. -/
def refererName : List UInt8 := [82, 101, 102, 101, 114, 101, 114]

namespace HttpReq

/-- `referer` after the loop over the headers, `none` for NULL: the value of
the last header that compares equal. -/
def referer (x : HttpReq) : Option CString :=
  x.headers.foldl
    (fun referer h =>
      if strncmpEq refererName h.name then some (.ofBuffer h.value)
      else referer)
    none

/-- The bytes of the referer; none of them when there is no referer. -/
def refererBytes (x : HttpReq) : List UInt8 :=
  x.referer.elim [] CString.bytes

/-- `path` in `load_http_resp`, the string given to curl as the URL. -/
def urlPath (x : HttpReq) : CString := .ofBuffer x.path

/-- `key` in `read_client`; undefined when the writes leave the 512 bytes
allocated for it. -/
def cacheKey (x : HttpReq) : Option CString :=
  if x.path.length + x.refererBytes.length < 512 then
    match x.referer with
    | some referer => some (x.urlPath.append referer)
    | none => some x.urlPath
  else none

theorem cacheKey_bytes
    {x : HttpReq} {key : CString} (h : x.cacheKey = some key) :
    key.bytes = x.urlPath.bytes ++ x.refererBytes := by
  unfold cacheKey at h
  split at h
  · cases href : x.referer with
    | none =>
        simp only [href, Option.some.injEq] at h
        simp [refererBytes, href, h]
    | some referer =>
        simp only [href, Option.some.injEq] at h
        simp [refererBytes, href, ← h]
  · cases h

/-! ## When a key determines its request -/

/-- The URL of `y` is that of `x` with further bytes behind it, and these
bytes are what the referer of `x` has in front of the referer of `y`. -/
def Shifted (x y : HttpReq) : Prop :=
  ∃ d : List UInt8, d ≠ [] ∧
    y.urlPath.bytes = x.urlPath.bytes ++ d ∧
    x.refererBytes = d ++ y.refererBytes

/-- Equal URLs, where one request has an empty referer and the other has
none. -/
def EmptyVsAbsent (x y : HttpReq) : Prop :=
  x.urlPath = y.urlPath ∧ x.refererBytes = [] ∧ y.refererBytes = [] ∧
    x.referer ≠ y.referer

/-- The two requests may be confused. -/
def Confusable (x y : HttpReq) : Prop :=
  x.Shifted y ∨ y.Shifted x ∨ x.EmptyVsAbsent y

theorem refererBytes_injective_of_ne
    {x y : HttpReq} (hbytes : x.refererBytes = y.refererBytes)
    (hne : x.refererBytes ≠ []) : x.referer = y.referer := by
  unfold refererBytes at hbytes hne
  cases hx : x.referer with
  | none => simp [hx] at hne
  | some r =>
      cases hy : y.referer with
      | none => simp [hx, hy] at hbytes hne; exact absurd hbytes hne
      | some r' =>
          simp only [hx, hy, Option.elim_some] at hbytes
          rw [CString.ext hbytes]

/-- Equal URLs and equal bytes behind them. -/
theorem referer_eq_of_refererBytes_eq
    {x y : HttpReq} (hc : ¬ x.Confusable y) (hurl : x.urlPath = y.urlPath)
    (hbytes : x.refererBytes = y.refererBytes) : x.referer = y.referer := by
  by_cases hempty : x.refererBytes = []
  · by_contra hne
    exact hc (Or.inr (Or.inr ⟨hurl, hempty, hbytes ▸ hempty, hne⟩))
  · exact refererBytes_injective_of_ne hbytes hempty

/-- Requests with equal keys that are not confusable agree in both parts. -/
theorem parts_eq_of_cacheKey_eq
    {x y : HttpReq} {key : CString} (hx : x.cacheKey = some key)
    (hy : y.cacheKey = some key) (hc : ¬ x.Confusable y) :
    x.urlPath = y.urlPath ∧ x.referer = y.referer := by
  have hkey : x.urlPath.bytes ++ x.refererBytes =
      y.urlPath.bytes ++ y.refererBytes :=
    (cacheKey_bytes hx).symm.trans (cacheKey_bytes hy)
  rcases List.append_eq_append_iff.mp hkey with
    ⟨d, hpath, href⟩ | ⟨d, hpath, href⟩
  · by_cases hd : d = []
    · subst hd
      have hurl : x.urlPath = y.urlPath := CString.ext (by simp [hpath])
      exact ⟨hurl, referer_eq_of_refererBytes_eq hc hurl (by simpa using href)⟩
    · exact absurd (Or.inl ⟨d, hd, hpath, href⟩) hc
  · by_cases hd : d = []
    · subst hd
      have hurl : x.urlPath = y.urlPath := CString.ext (by simp [hpath])
      exact ⟨hurl,
        referer_eq_of_refererBytes_eq hc hurl (by simpa using href.symm)⟩
    · exact absurd (Or.inr (Or.inl ⟨d, hd, hpath, href⟩)) hc

/-- Confusable requests get one key and differ in a part. -/
theorem confusable_spec
    {x y : HttpReq} {kx ky : CString} (hx : x.cacheKey = some kx)
    (hy : y.cacheKey = some ky) (hc : x.Confusable y) :
    kx = ky ∧ ¬ (x.urlPath = y.urlPath ∧ x.referer = y.referer) := by
  have hbx := cacheKey_bytes hx
  have hby := cacheKey_bytes hy
  rcases hc with ⟨d, hd, hpath, href⟩ | ⟨d, hd, hpath, href⟩ | hempty
  · refine ⟨CString.ext ?_, fun hparts => hd ?_⟩
    · rw [hbx, hby, hpath, href, List.append_assoc]
    · rw [hparts.1] at hpath
      simpa using hpath
  · refine ⟨CString.ext ?_, fun hparts => hd ?_⟩
    · rw [hbx, hby, hpath, href, List.append_assoc]
    · rw [hparts.1] at hpath
      simpa using hpath
  · obtain ⟨hurl, hxe, hye, hne⟩ := hempty
    refine ⟨CString.ext ?_, fun hparts => hne hparts.2⟩
    rw [hbx, hby, hurl, hxe, hye]

end HttpReq

end Proxy
end OsFifthSem
