import OsFifthSem.Support.LinkedList

/-!
# First-in first-out queues as linked lists

A queue keeps a pointer to its first and to its last cell.  `Lists` says that
the cells between them hold the given values.  The edits are the two of a
queue: link a new cell behind the last one, and unlink the first one.
-/

namespace OsFifthSem
namespace Support
namespace LinkedQueue

universe u v

variable {N : Type u} {V : Type v} {next : N → Option ℕ} {val : N → V}
  {h h' : ℕ → Option N} {first last : Option ℕ} {xs : List ℕ} {vals : List V}

/-! ## Free cells -/

theorem fresh_update
    {n : ℕ} (hfresh : ∀ b, n ≤ b → h b = none) (m : N) (b : ℕ)
    (hb : n + 1 ≤ b) : Function.update h n (some m) b = none := by
  rw [Function.update_of_ne (by omega)]
  exact hfresh b (by omega)

theorem fresh_free
    {n : ℕ} (hfresh : ∀ b, n ≤ b → h b = none) (a b : ℕ) (hb : n ≤ b) :
    Function.update h a none b = none := by
  by_cases hba : b = a
  · subst hba
    exact Function.update_self ..
  · exact (Function.update_of_ne hba _ _).trans (hfresh b hb)

/-! ## The list of a queue -/

/-- The cells `xs` from `first` on hold the values `vals`, and `last` is the
final one. -/
structure Lists (next : N → Option ℕ) (val : N → V) (h : ℕ → Option N)
    (first last : Option ℕ) (xs : List ℕ) (vals : List V) : Prop where
  chain : Chain next h first xs
  last_eq : last = xs.getLast?
  values : xs.map (fun a => (h a).map val) = vals.map some

namespace Lists

theorem nil : Lists next val h none none [] [] where
  chain := .nil
  last_eq := rfl
  values := rfl

theorem length_eq (hl : Lists next val h first last xs vals) :
    xs.length = vals.length := by
  simpa using congrArg List.length hl.values

/-- A queue holds one list of values. -/
theorem unique
    {ys : List ℕ} {vals' : List V} (hl : Lists next val h first last xs vals)
    (hl' : Lists next val h first last ys vals') : vals = vals' := by
  obtain rfl := hl.chain.unique hl'.chain
  have hmap : vals.map some = vals'.map some := hl.values.symm.trans hl'.values
  exact List.map_injective_iff.mpr (Option.some_injective V) hmap

theorem eq_nil_of_first
    (hl : Lists next val h none last xs vals) : xs = [] ∧ vals = [] := by
  have hchain := hl.chain
  cases hchain
  refine ⟨rfl, ?_⟩
  simpa using hl.values.symm

/-- The list is empty when there is no last cell. -/
theorem eq_nil_of_last
    (hl : Lists next val h first none xs vals) :
    first = none ∧ xs = [] ∧ vals = [] := by
  obtain rfl : xs = [] := by simpa using hl.last_eq.symm
  refine ⟨hl.chain.head_eq, rfl, ?_⟩
  simpa using hl.values.symm

/-- The first cell of a new queue. -/
theorem singleton
    {b : ℕ} {m : N} (hm : h b = some m) (hend : next m = none) :
    Lists next val h (some b) (some b) [b] [val m] where
  chain := by
    refine .cons hm ?_
    rw [hend]
    exact .nil
  last_eq := rfl
  values := by simp [hm]

theorem exists_last
    {a : ℕ} (hl : Lists next val h first (some a) xs vals) :
    ∃ pre n, xs = pre ++ [a] ∧ h a = some n := by
  rcases List.eq_nil_or_concat' xs with rfl | ⟨pre, c, rfl⟩
  · have hnone := hl.last_eq
    simp at hnone
  · obtain rfl : a = c := by simpa using hl.last_eq
    obtain ⟨n, hn, -⟩ := hl.chain.cell
    exact ⟨pre, n, rfl, hn⟩

/-- A new cell is linked behind the last one. -/
theorem snoc
    {a b : ℕ} {n l m : N} (hl : Lists next val h first (some a) xs vals)
    (hn : h a = some n) (hn' : h' a = some l) (hnext : next l = some b)
    (hval : val l = val n) (hm : h' b = some m) (hend : next m = none)
    (hsame : ∀ c ∈ xs, c ≠ a → h' c = h c) :
    Lists next val h' first (some b) (xs ++ [b]) (vals ++ [val m]) := by
  obtain ⟨pre, k, rfl, -⟩ := hl.exists_last
  have hnodup := hl.chain.nodup
  rw [List.nodup_append] at hnodup
  have hpre : ∀ c ∈ pre, h' c = h c := by
    intro c hc
    apply hsame c (by simp [hc])
    exact hnodup.2.2 c hc a (by simp)
  constructor
  · rw [List.append_assoc]
    exact hl.chain.snoc hn' hnext hm hend hpre
  · simp
  · simp only [List.map_append, ← hl.values]
    congr 1
    · congr 1
      · exact List.map_congr_left fun c hc => by rw [hpre c hc]
      · simp [hn, hn', hval]
    · simp [hm]

/-- A new cell is allocated at `n`, where all cells from `n` on are free, and
`link` writes its address into the last one. -/
theorem snoc_fresh
    {a n : ℕ} {m : N} (link : N → N)
    (hl : Lists next val h first (some a) xs vals)
    (hfresh : ∀ b, n ≤ b → h b = none)
    (hnext : ∀ k, next (link k) = some n) (hval : ∀ k, val (link k) = val k)
    (hend : next m = none) :
    ∃ k, Function.update h n (some m) a = some k ∧
      Lists next val
        (Function.update (Function.update h n (some m)) a (some (link k)))
        first (some n) (xs ++ [n]) (vals ++ [val m]) ∧
      ∀ b, n + 1 ≤ b → Function.update (Function.update h n (some m)) a
        (some (link k)) b = none := by
  obtain ⟨pre, k, rfl, hcell⟩ := hl.exists_last
  have hne : ∀ c ∈ pre ++ [a], c ≠ n := by
    rintro c hc rfl
    obtain ⟨l, hl'⟩ := hl.chain.exists_cell hc
    rw [hfresh c le_rfl] at hl'
    cases hl'
  have han : a ≠ n := hne a (by simp)
  refine ⟨k, (Function.update_of_ne han _ _).trans hcell, ?_, ?_⟩
  · refine hl.snoc hcell (Function.update_self ..) (hnext k) (hval k) ?_ hend ?_
    · rw [Function.update_of_ne han.symm, Function.update_self]
    · intro c hc hca
      rw [Function.update_of_ne hca, Function.update_of_ne (hne c hc)]
  · intro b hb
    have hba : b ≠ a := by
      rintro rfl
      rw [hfresh b (by omega)] at hcell
      cases hcell
    rw [Function.update_of_ne hba]
    exact fresh_update hfresh m b hb

/-- The first cell is unlinked and freed. -/
theorem tail
    {a : ℕ} {v : V} (hl : Lists next val h (some a) last (a :: xs) (v :: vals)) :
    ∃ n, h a = some n ∧ val n = v ∧
      Lists next val (Function.update h a none) (next n)
        (if next n = none then none else last) xs vals := by
  have hnodup := hl.chain.nodup
  have hnotMem : a ∉ xs := (List.nodup_cons.mp hnodup).1
  have hchain := hl.chain
  cases hchain with
  | @cons _ n _ hcell htail =>
      have hval : val n = v := by
        simpa [hcell] using (List.cons.inj hl.values).1
      refine ⟨n, hcell, hval, ?_⟩
      have hsame : ∀ b ∈ xs, Function.update h a none b = h b := by
        intro b hb
        refine Function.update_of_ne ?_ _ _
        rintro rfl
        exact hnotMem hb
      constructor
      · exact htail.congr_of_eq hsame
      · rw [hl.last_eq, htail.head_eq]
        cases xs <;> simp
      · rw [← (List.cons.inj hl.values).2]
        refine List.map_congr_left fun b hb => ?_
        rw [hsame b hb]

end Lists
end LinkedQueue
end Support
end OsFifthSem
