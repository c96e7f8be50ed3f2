import OsFifthSem.Proxy.Http

/-!
# Which header names count as the referer

`read_client` compares `"Referer"` with each header name by `strncmp`, bounded
by the length of the header's own name.  The bound makes every prefix of the
literal compare equal, the empty name of a continuation line among them.  This
module says which names these are and when they decide the key.
-/

namespace OsFifthSem
namespace Proxy

open Support

/-- A loop that keeps the last element satisfying `p` is a search from the
end of the list. -/
theorem foldl_keepLast
    {α β : Type} (p : α → Bool) (f : α → β) (l : List α) (start : Option β) :
    l.foldl (fun kept a => if p a then some (f a) else kept) start =
      ((l.reverse.find? p).map f).or start := by
  induction l generalizing start with
  | nil => simp
  | cons a l ih =>
      rw [List.foldl_cons, ih, List.reverse_cons, List.find?_append]
      cases hfind : l.reverse.find? p with
      | some b => simp
      | none => cases hp : p a <;> simp [hp]

/-! ## The comparison -/

/-- Bounded by `t`, the comparison accepts the prefixes of the string `s`, and
the buffers that continue behind a terminator. -/
theorem strncmpEq_iff
    {s : List UInt8} (hs : (0 : UInt8) ∉ s) (t : List UInt8) :
    strncmpEq s t = true ↔ t <+: s ∨ s ++ [0] <+: t := by
  induction s generalizing t with
  | nil =>
      cases t with
      | nil => simp [strncmpEq]
      | cons c t =>
          have hnul : (0 : UInt8) = c ↔ c = 0 := eq_comm
          simp [strncmpEq, hnul]
  | cons b s ih =>
      cases t with
      | nil => simp [strncmpEq]
      | cons c t =>
          have hs' : (0 : UInt8) ∉ s := fun h => hs (List.mem_cons_of_mem b h)
          simp only [strncmpEq, Bool.and_eq_true, beq_iff_eq, ih hs' t,
            List.cons_append, List.cons_prefix_cons, eq_comm (a := c)]
          exact and_or_left

namespace Header

/-- The name is exactly `"Referer"`. -/
def IsReferer (h : Header) : Prop :=
  h.name = refererName

/-- The name is another one that compares equal all the same: a proper prefix
of `"Referer"`, or `"Referer"` with a NUL byte behind it. -/
def Misleading (h : Header) : Prop :=
  h.name ≠ refererName ∧
    (h.name <+: refererName ∨ refererName ++ [0] <+: h.name)

instance : DecidablePred IsReferer := fun h =>
  inferInstanceAs (Decidable (h.name = refererName))

instance : DecidablePred Misleading := fun _ =>
  inferInstanceAs (Decidable (_ ∧ _))

theorem strncmpEq_iff_isReferer_or_misleading (h : Header) :
    strncmpEq refererName h.name = true ↔ h.IsReferer ∨ h.Misleading := by
  rw [strncmpEq_iff (by decide)]
  constructor
  · intro hcmp
    by_cases hname : h.name = refererName
    · exact Or.inl hname
    · exact Or.inr ⟨hname, hcmp⟩
  · rintro (hname | hmis)
    · exact Or.inl (hname ▸ List.prefix_rfl)
    · exact hmis.2

end Header

/-- Every misleading header has a header named exactly `"Referer"` behind
it. -/
def Shadowed : List Header → Prop
  | [] => True
  | h :: l => (h.Misleading → ∃ g ∈ l, g.IsReferer) ∧ Shadowed l

/-- What may be done to the headers with other names: each of them may be
dropped, or get another value. -/
inductive OthersChanged : List Header → List Header → Prop
  | nil : OthersChanged [] []
  | keep (h : Header) {l l' : List Header} :
      OthersChanged l l' → OthersChanged (h :: l) (h :: l')
  | drop {h : Header} (hname : ¬ h.IsReferer) {l l' : List Header} :
      OthersChanged l l' → OthersChanged (h :: l) l'
  | revalue {h : Header} (hname : ¬ h.IsReferer) (value : List UInt8)
      {l l' : List Header} :
      OthersChanged l l' → OthersChanged (h :: l) (⟨h.name, value⟩ :: l')

namespace OthersChanged

/-- No header named exactly `"Referer"` comes or goes. -/
theorem isReferer_mem_iff
    {l l' : List Header} (hch : OthersChanged l l') (g : Header)
    (hg : g.IsReferer) : g ∈ l' ↔ g ∈ l := by
  have hne : ∀ {h : Header}, ¬ h.IsReferer → g ≠ h := by
    rintro h hname rfl
    exact hname hg
  induction hch with
  | nil => rfl
  | keep h _ ih => simp [ih]
  | drop hname _ ih => simp [ih, hne hname]
  | @revalue h hname value _ _ _ ih =>
      have hname' : ¬ Header.IsReferer ⟨h.name, value⟩ := hname
      simp [ih, hne hname, hne hname']

theorem find?_eq
    {l l' : List Header} (hch : OthersChanged l l') :
    l'.reverse.find? (fun h => decide h.IsReferer) =
      l.reverse.find? (fun h => decide h.IsReferer) := by
  induction hch with
  | nil => rfl
  | keep h _ ih => simp [ih]
  | drop hname _ ih => simp [ih, hname]
  | @revalue h hname value l l' _ ih =>
      have hname' : ¬ Header.IsReferer ⟨h.name, value⟩ := hname
      simp [ih, hname, hname']

theorem shadowed
    {l l' : List Header} (hch : OthersChanged l l') (hsh : Shadowed l) :
    Shadowed l' := by
  induction hch with
  | nil => trivial
  | keep h hch ih =>
      refine ⟨fun hmis => ?_, ih hsh.2⟩
      obtain ⟨g, hg, href⟩ := hsh.1 hmis
      exact ⟨g, (hch.isReferer_mem_iff g href).mpr hg, href⟩
  | drop _ _ ih => exact ih hsh.2
  | revalue _ value hch ih =>
      refine ⟨fun hmis => ?_, ih hsh.2⟩
      obtain ⟨g, hg, href⟩ := hsh.1 hmis
      exact ⟨g, (hch.isReferer_mem_iff g href).mpr hg, href⟩

theorem refl (l : List Header) : OthersChanged l l := by
  induction l with
  | nil => exact .nil
  | cons h l ih => exact .keep h ih

/-- Headers with other names can all be dropped. -/
theorem dropAll
    {l : List Header} (hl : ∀ g ∈ l, ¬ g.IsReferer) : OthersChanged l [] := by
  induction l with
  | nil => exact .nil
  | cons h l ih =>
      exact .drop (hl h List.mem_cons_self)
        (ih fun g hg => hl g (List.mem_cons_of_mem h hg))

end OthersChanged

namespace HttpReq

/-- The value of the last header named exactly `"Referer"`. -/
def exactReferer (x : HttpReq) : Option CString :=
  (x.headers.reverse.find? fun h => decide h.IsReferer).map
    fun h => .ofBuffer h.value

theorem referer_eq_find? (x : HttpReq) :
    x.referer =
      (x.headers.reverse.find? fun h => strncmpEq refererName h.name).map
        fun h => .ofBuffer h.value := by
  rw [referer, foldl_keepLast, Option.or_none]

/-- With one path and the same bytes behind it, the keys are the same. -/
theorem cacheKey_congr
    {x y : HttpReq} (hpath : y.path = x.path)
    (hbytes : y.refererBytes = x.refererBytes) : y.cacheKey = x.cacheKey := by
  have hurl : y.urlPath = x.urlPath := by rw [urlPath, urlPath, hpath]
  have happ : ∀ z : HttpReq, ∀ key,
      z.cacheKey = some key ↔
        z.path.length + z.refererBytes.length < 512 ∧
          key.bytes = z.urlPath.bytes ++ z.refererBytes := by
    intro z key
    constructor
    · intro hkey
      refine ⟨?_, cacheKey_bytes hkey⟩
      by_contra hlen
      simp [cacheKey, hlen] at hkey
    · rintro ⟨hlen, hkey⟩
      rw [cacheKey, if_pos hlen]
      cases href : z.referer with
      | none =>
          refine congrArg some (CString.ext ?_)
          simp [hkey, refererBytes, href]
      | some referer =>
          refine congrArg some (CString.ext ?_)
          simp [hkey, refererBytes, href]
  ext1 key
  rw [happ, happ, hpath, hurl, hbytes]

/-- The referer of a request is chosen by the exact name only. -/
structure SelectsExactly (x : HttpReq) : Prop where
  picked : x.referer = x.exactReferer
  uninfluenced :
    ∀ headers, OthersChanged x.headers headers →
      (HttpReq.mk x.path headers).refererBytes = x.refererBytes ∧
        (HttpReq.mk x.path headers).cacheKey = x.cacheKey

theorem find?_eq_of_shadowed
    {l : List Header} (hsh : Shadowed l) :
    (l.reverse.find? fun h => strncmpEq refererName h.name) =
      l.reverse.find? fun h => decide h.IsReferer := by
  induction l with
  | nil => rfl
  | cons h l ih =>
      rw [List.reverse_cons, List.find?_append, List.find?_append, ih hsh.2]
      by_cases hmis : h.Misleading
      · obtain ⟨g, hg, href⟩ := hsh.1 hmis
        have hsome :
            (l.reverse.find? fun h => decide h.IsReferer).isSome := by
          rw [List.find?_isSome]
          exact ⟨g, List.mem_reverse.mpr hg, decide_eq_true href⟩
        obtain ⟨a, ha⟩ := Option.isSome_iff_exists.mp hsome
        rw [ha, Option.some_or, Option.some_or]
      · have hsame : strncmpEq refererName h.name = decide h.IsReferer := by
          rw [Bool.eq_iff_iff, h.strncmpEq_iff_isReferer_or_misleading,
            decide_eq_true_iff]
          simp [hmis]
        simp [List.find?_cons, hsame]

theorem referer_eq_exactReferer
    {x : HttpReq} (hsh : Shadowed x.headers) : x.referer = x.exactReferer := by
  rw [referer_eq_find?, find?_eq_of_shadowed hsh, exactReferer]

/-- Where a misleading header is not shadowed, the other headers can be
changed so that it comes last, with any value. -/
theorem exists_othersChanged_of_not_shadowed
    {l : List Header} (hsh : ¬ Shadowed l) (value : List UInt8) :
    ∃ (front : List Header) (h : Header), h.Misleading ∧
      OthersChanged l (front ++ [⟨h.name, value⟩]) := by
  induction l with
  | nil => exact absurd trivial hsh
  | cons h l ih =>
      by_cases hl : Shadowed l
      · have hlast : h.Misleading ∧ ∀ g ∈ l, ¬ g.IsReferer := by
          by_contra hno
          refine hsh ⟨fun hmis => ?_, hl⟩
          by_contra hnone
          exact hno ⟨hmis, fun g hg href => hnone ⟨g, hg, href⟩⟩
        exact ⟨[], h, hlast.1,
          .revalue hlast.1.1 value (.dropAll hlast.2)⟩
      · obtain ⟨front, g, hmis, hch⟩ := ih hl
        exact ⟨h :: front, g, hmis, .keep h hch⟩

theorem refererBytes_of_misleading_last
    (path : List UInt8) (front : List Header) {h : Header}
    (hmis : h.Misleading) (value : List UInt8) :
    (HttpReq.mk path (front ++ [⟨h.name, value⟩])).refererBytes =
      (CString.ofBuffer value).bytes := by
  have hcmp : strncmpEq refererName h.name = true :=
    h.strncmpEq_iff_isReferer_or_misleading.mpr (Or.inr hmis)
  simp [refererBytes, referer, hcmp]

/-- The referer is chosen by the exact name exactly when every misleading
header is shadowed. -/
theorem selectsExactly_iff (x : HttpReq) :
    x.SelectsExactly ↔ Shadowed x.headers := by
  constructor
  · intro hsel
    by_contra hsh
    obtain ⟨front₁, h₁, hmis₁, hch₁⟩ :=
      exists_othersChanged_of_not_shadowed hsh [1]
    obtain ⟨front₂, h₂, hmis₂, hch₂⟩ :=
      exists_othersChanged_of_not_shadowed hsh [2]
    have hone := (hsel.uninfluenced _ hch₁).1
    have htwo := (hsel.uninfluenced _ hch₂).1
    rw [refererBytes_of_misleading_last _ _ hmis₁] at hone
    rw [refererBytes_of_misleading_last _ _ hmis₂] at htwo
    exact absurd (hone.trans htwo.symm) (by decide)
  · intro hsh
    have hpicked := referer_eq_exactReferer hsh
    refine ⟨hpicked, fun headers hch => ?_⟩
    have href : (HttpReq.mk x.path headers).referer = x.referer := by
      rw [referer_eq_exactReferer (hch.shadowed hsh), hpicked, exactReferer,
        exactReferer, hch.find?_eq]
    have hbytes :
        (HttpReq.mk x.path headers).refererBytes = x.refererBytes := by
      rw [refererBytes, refererBytes, href]
    exact ⟨hbytes, cacheKey_congr rfl hbytes⟩

/-- A `Referer` header followed by a continuation line, whose name is
empty. -/
theorem not_selectsExactly_continuation :
    ¬ (HttpReq.mk [47] [⟨refererName, [97]⟩, ⟨[], [98]⟩]).SelectsExactly :=
  fun hsel => absurd hsel.picked (by decide)

end HttpReq

end Proxy
end OsFifthSem
