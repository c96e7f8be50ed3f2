import Mathlib.Data.Finset.Card
import Mathlib.Data.Finset.Range
import Mathlib.Data.List.Nodup

/-!
# Singly linked lists in a heap

A heap maps addresses to cells, and `next` reads the link of a cell.
`Chain next h p xs` says that following the links from `p` visits exactly the
addresses `xs` and then ends at the null pointer.  Since links are followed
deterministically, such a list is unique and never visits a cell twice.

The edits are the two that hand-written list code performs: push a cell at
the head, and relink a cell past some of its successors.
-/

namespace OsFifthSem
namespace Support

universe u

variable {N : Type u} {next : N → Option ℕ} {h h' : ℕ → Option N}

/-- The links from `p` visit exactly `xs` and end at the null pointer. -/
inductive Chain (next : N → Option ℕ) (h : ℕ → Option N) :
    Option ℕ → List ℕ → Prop
  | nil : Chain next h none []
  | cons {a : ℕ} {n : N} {xs : List ℕ} (hcell : h a = some n)
      (htail : Chain next h (next n) xs) : Chain next h (some a) (a :: xs)

namespace Chain

theorem head_eq {p : Option ℕ} {xs : List ℕ} (hc : Chain next h p xs) :
    p = xs.head? := by
  cases hc <;> rfl

theorem unique
    {p : Option ℕ} {xs ys : List ℕ}
    (hx : Chain next h p xs) (hy : Chain next h p ys) : xs = ys := by
  induction hx generalizing ys with
  | nil =>
      cases hy
      rfl
  | cons hcell _ ih =>
      cases hy with
      | cons hcell' htail' =>
          obtain rfl := Option.some.inj (hcell.symm.trans hcell')
          rw [ih htail']

/-- The part of a chain behind a given cell. -/
theorem drop
    {pre post : List ℕ} {p : Option ℕ} (hc : Chain next h p (pre ++ post)) :
    Chain next h post.head? post := by
  induction pre generalizing p with
  | nil => exact hc.head_eq ▸ hc
  | cons a pre ih =>
      cases hc with
      | cons _ htail => exact ih htail

theorem cell
    {pre post : List ℕ} {a : ℕ} {p : Option ℕ}
    (hc : Chain next h p (pre ++ a :: post)) :
    ∃ n, h a = some n ∧ next n = post.head? := by
  have hdrop := hc.drop
  cases hdrop with
  | cons hcell htail => exact ⟨_, hcell, htail.head_eq⟩

theorem exists_cell
    {p : Option ℕ} {xs : List ℕ} {a : ℕ}
    (hc : Chain next h p xs) (ha : a ∈ xs) : ∃ n, h a = some n := by
  obtain ⟨pre, post, rfl⟩ := List.append_of_mem ha
  obtain ⟨n, hn, -⟩ := hc.cell
  exact ⟨n, hn⟩

/-- A chain never visits a cell twice. -/
theorem nodup
    {p : Option ℕ} {xs : List ℕ} (hc : Chain next h p xs) : xs.Nodup := by
  induction hc with
  | nil => exact List.nodup_nil
  | @cons a n xs hcell htail ih =>
      refine List.nodup_cons.mpr ⟨?_, ih⟩
      intro hmem
      -- the chain from `a` would be a proper suffix of itself
      obtain ⟨pre, post, rfl⟩ := List.append_of_mem hmem
      have hsuffix : Chain next h (some a) (a :: post) := htail.drop
      have heq := hsuffix.unique (.cons hcell htail)
      have hlen := congrArg List.length heq
      simp at hlen
      omega

/-- The chain is unaffected by changes elsewhere in the heap. -/
theorem congr
    {p : Option ℕ} {xs : List ℕ} (hc : Chain next h p xs)
    (hsame : ∀ a ∈ xs, ∀ n, h a = some n →
      ∃ n', h' a = some n' ∧ next n' = next n) :
    Chain next h' p xs := by
  induction hc with
  | nil => exact .nil
  | @cons a n xs hcell _ ih =>
      obtain ⟨n', hn', hnext⟩ := hsame a (by simp) n hcell
      refine .cons hn' ?_
      rw [hnext]
      exact ih fun b hb => hsame b (by simp [hb])

theorem congr_of_eq
    {p : Option ℕ} {xs : List ℕ} (hc : Chain next h p xs)
    (hsame : ∀ a ∈ xs, h' a = h a) : Chain next h' p xs :=
  hc.congr fun a ha n hn => ⟨n, (hsame a ha).trans hn, rfl⟩

/-- Pushing a new cell at the head. -/
theorem push
    {p : Option ℕ} {xs : List ℕ} {a : ℕ} {n : N} (hc : Chain next h p xs)
    (ha : a ∉ xs) (hn : h' a = some n) (hnext : next n = p)
    (hsame : ∀ b, b ≠ a → h' b = h b) :
    Chain next h' (some a) (a :: xs) := by
  refine .cons hn ?_
  rw [hnext]
  refine hc.congr_of_eq fun b hb => hsame b ?_
  rintro rfl
  exact ha hb

/-- Linking a new cell behind the last one. -/
theorem snoc
    {p : Option ℕ} {pre : List ℕ} {a b : ℕ} {n m : N}
    (hc : Chain next h p (pre ++ [a])) (hn : h' a = some n)
    (hnext : next n = some b) (hm : h' b = some m) (hend : next m = none)
    (hsame : ∀ c ∈ pre, h' c = h c) :
    Chain next h' p (pre ++ [a, b]) := by
  induction pre generalizing p with
  | nil =>
      cases hc with
      | cons _ _ =>
          refine .cons hn ?_
          rw [hnext]
          refine .cons hm ?_
          rw [hend]
          exact .nil
  | cons c pre ih =>
      cases hc with
      | @cons _ k _ hcell htail =>
          have hk : h' c = some k := (hsame c (by simp)).trans hcell
          refine .cons hk (ih htail fun d hd => hsame d ?_)
          exact List.mem_cons_of_mem c hd

/-- Relinking the cell `q` past `mid`: the cells of `mid` leave the chain. -/
theorem relink
    {p : Option ℕ} {pre mid post : List ℕ} {q : ℕ} {n : N}
    (hc : Chain next h p (pre ++ q :: (mid ++ post)))
    (hn : h' q = some n) (hnext : next n = post.head?)
    (hsame : ∀ b ∈ pre ++ post, h' b = h b) :
    Chain next h' p (pre ++ q :: post) := by
  induction pre generalizing p with
  | nil =>
      cases hc with
      | cons _ htail =>
          refine .cons hn ?_
          rw [hnext]
          refine htail.drop.congr_of_eq fun b hb => hsame b ?_
          simpa using hb
  | cons a pre ih =>
      cases hc with
      | @cons _ m _ hcell htail =>
          have ha : h' a = some m := (hsame a (by simp)).trans hcell
          refine .cons ha (ih htail fun b hb => hsame b ?_)
          simp only [List.cons_append, List.mem_cons]
          exact Or.inr hb

/-- A chain from the links of its cells, each to the one behind it. -/
theorem of_links
    {xs : List ℕ} (hlinks : ∀ i (hi : i < xs.length),
      ∃ n, h xs[i] = some n ∧ next n = xs[i + 1]?) :
    Chain next h xs.head? xs := by
  induction xs with
  | nil => exact .nil
  | cons a xs ih =>
      obtain ⟨n, hn, hnext⟩ := hlinks 0 (by simp)
      refine .cons hn ?_
      have htail : Chain next h xs.head? xs := by
        apply ih
        intro i hi
        exact hlinks (i + 1) (by simpa using hi)
      rw [hnext]
      simpa [List.head?_eq_getElem?] using htail

/-- A chain whose cells all lie below `bound` has at most `bound` cells. -/
theorem length_le
    {p : Option ℕ} {xs : List ℕ} {bound : ℕ} (hc : Chain next h p xs)
    (hbound : ∀ a n, h a = some n → a < bound) : xs.length ≤ bound := by
  rw [← List.toFinset_card_of_nodup hc.nodup, ← Finset.card_range bound]
  refine Finset.card_le_card fun a ha => ?_
  obtain ⟨n, hn⟩ := hc.exists_cell (List.mem_toFinset.mp ha)
  exact Finset.mem_range.mpr (hbound a n hn)

end Chain

/-! ## The search loop -/

/-- `while (cur) { if (test(cur)) break; prev = cur; cur = cur->next; }`,
with the final values of `prev` and `cur`.  There is no result when a freed
cell is read or `fuel` turns of the loop do not suffice. -/
def scan (next : N → Option ℕ) (h : ℕ → Option N) (test : N → Bool) :
    ℕ → Option ℕ → Option ℕ → Option (Option ℕ × Option ℕ)
  | 0, _, _ => none
  | _ + 1, prev, none => some (prev, none)
  | fuel + 1, prev, some a =>
      (h a).bind fun n =>
        if test n then some (prev, some a)
        else scan next h test fuel (some a) (next n)

/-- The cells in front of the first cell that passes the test, the cell, and
the cells behind it. -/
structure SplitAt (test : ℕ → Bool) (xs pre : List ℕ) (a : ℕ)
    (post : List ℕ) : Prop where
  eq : xs = pre ++ a :: post
  before : ∀ b ∈ pre, test b = false
  at_split : test a = true

/-- The test of a cell at an address. -/
def testAt (h : ℕ → Option N) (test : N → Bool) (a : ℕ) : Bool :=
  (h a).any test

theorem exists_splitAt
    {test : ℕ → Bool} {xs : List ℕ} (hex : ∃ a ∈ xs, test a = true) :
    ∃ pre a post, SplitAt test xs pre a post := by
  induction xs with
  | nil => simp at hex
  | cons x xs ih =>
      by_cases hx : test x = true
      · exact ⟨[], x, xs, rfl, by simp, hx⟩
      · have htail : ∃ a ∈ xs, test a = true := by
          obtain ⟨a, ha, htest⟩ := hex
          rcases List.mem_cons.mp ha with rfl | ha
          · exact absurd htest hx
          · exact ⟨a, ha, htest⟩
        obtain ⟨pre, a, post, rfl, hpre, ha⟩ := ih htail
        refine ⟨x :: pre, a, post, rfl, ?_, ha⟩
        intro b hb
        rcases List.mem_cons.mp hb with rfl | hb
        · simpa using hx
        · exact hpre b hb

theorem scan_of_splitAt
    {test : N → Bool} {xs pre post : List ℕ} {a : ℕ} {p prev : Option ℕ}
    {fuel : ℕ} (hc : Chain next h p xs) (hfuel : xs.length < fuel)
    (hsplit : SplitAt (testAt h test) xs pre a post) :
    scan next h test fuel prev p = some (pre.getLast?.or prev, some a) := by
  obtain ⟨rfl, hpre, ha⟩ := hsplit
  induction pre generalizing p prev fuel with
  | nil =>
      obtain ⟨fuel, rfl⟩ := Nat.exists_eq_succ_of_ne_zero (by omega : fuel ≠ 0)
      cases hc with
      | @cons _ n _ hcell _ =>
          have htest : test n = true := by
            simpa [testAt, hcell] using ha
          simp [scan, hcell, htest]
  | cons x pre ih =>
      obtain ⟨fuel, rfl⟩ := Nat.exists_eq_succ_of_ne_zero (by omega : fuel ≠ 0)
      cases hc with
      | @cons _ n _ hcell htail =>
          have htest : test n = false := by
            simpa [testAt, hcell] using hpre x (by simp)
          have hrest : scan next h test fuel (some x) (next n) =
              some (pre.getLast?.or (some x), some a) :=
            ih (fun b hb => hpre b (by simp [hb])) htail
              (by simp at hfuel ⊢; omega)
          simp only [scan, hcell, Option.bind_some, htest, Bool.false_eq_true,
            if_false, hrest, List.getLast?_cons]
          cases pre.getLast? <;> rfl

theorem scan_of_forall
    {test : N → Bool} {xs : List ℕ} {p prev : Option ℕ} {fuel : ℕ}
    (hc : Chain next h p xs) (hfuel : xs.length < fuel)
    (hnone : ∀ a ∈ xs, testAt h test a = false) :
    ∃ last, scan next h test fuel prev p = some (last, none) := by
  induction hc generalizing prev fuel with
  | nil =>
      obtain ⟨fuel, rfl⟩ := Nat.exists_eq_succ_of_ne_zero (by omega : fuel ≠ 0)
      exact ⟨prev, rfl⟩
  | @cons a n xs hcell _ ih =>
      obtain ⟨fuel, rfl⟩ := Nat.exists_eq_succ_of_ne_zero (by omega : fuel ≠ 0)
      have htest : test n = false := by
        simpa [testAt, hcell] using hnone a (by simp)
      have hrest : ∃ last, scan next h test fuel (some a) (next n) =
          some (last, none) :=
        ih (by simp at hfuel; omega) fun b hb => hnone b (by simp [hb])
      obtain ⟨last, hlast⟩ := hrest
      exact ⟨last, by simp [scan, hcell, htest, hlast]⟩

end Support
end OsFifthSem
