import Mathlib.Tactic.MkIffOfInductiveProp
import OsFifthSem.Sync.SwapList.Model

/-!
# What the program points know

A thread holds the locks of the nodes in `Pc.held` and knows the facts
`Pc.Facts` about the list.  All these facts are about the links and the places
of nodes that the thread holds, or about bounds that never change, so steps of
other threads keep them (`Pc.Facts.congr`).  `Command.Sound` says that every
command of the two programs leads from the facts of its point to the facts of
the next one.
-/

namespace OsFifthSem
namespace SwapList

/-- The part of the memory that the facts talk about: the nodes are the
addresses below `bound`, `next` reads their links and `pos` gives their place
in the list order. -/
structure View where
  bound : ℕ
  next : ℕ → Option ℕ
  pos : ℕ → ℕ

namespace View

/-- A node that is followed by at least three others. -/
@[mk_iff]
structure Early (v : View) (p : ℕ) : Prop where
  node : p < v.bound
  early : v.pos p + 4 ≤ v.bound

/-- The walk stands at `p`, with `ind` nodes visited. -/
@[mk_iff]
structure Walk (v : View) (r ind : ℤ) (p : ℕ) : Prop where
  node : p < v.bound
  target : r + 3 ≤ v.bound
  place : (v.pos p : ℤ) + 1 = ind
  continues : ind < r

/-- Three different nodes of which the last is not the final node. -/
@[mk_iff]
structure Triple (v : View) (p c x : ℕ) : Prop where
  prev : p < v.bound
  current : c < v.bound
  next : x < v.bound
  not_last : x + 1 ≠ v.bound
  prev_current : p ≠ c
  prev_next : p ≠ x
  current_next : c ≠ x

/-- Three nodes at consecutive places. -/
@[mk_iff]
structure Consecutive (v : View) (p c x : ℕ) : Prop where
  current : v.pos c = v.pos p + 1
  next : v.pos x = v.pos p + 2

/-- The links and places of a list.  The link of a node in `stale` may
disagree with the order. -/
structure Linked (v : View) (stale : ℕ → Prop) : Prop where
  four : 4 ≤ v.bound
  last_iff : ∀ a < v.bound, v.next a = none ↔ a + 1 = v.bound
  next_lt : ∀ a b, v.next a = some b → b < v.bound
  pos_next : ∀ a b, a < v.bound → v.next a = some b → ¬stale a →
    v.pos b = v.pos a + 1
  pos_lt : ∀ a < v.bound, v.pos a < v.bound
  pos_inj : ∀ a < v.bound, ∀ b < v.bound, v.pos a = v.pos b → a = b
  pos_first : v.pos 0 = 0
  pos_last : ∀ a, a + 1 = v.bound → v.pos a + 1 = v.bound

end View

/-! ## Locks held at a point -/

/-- The nodes whose lock the thread holds. -/
def SwapPc.held : SwapPc → List ℕ
  | .threadTop | .retry | .pickRand | .firstTarget _ | .firstLock _ _
  | .relockPrev _ _ _ | .countSwap => []
  | .firstLoad _ q => [q]
  | .loopTest _ _ p | .walkTarget _ _ p | .walkLock _ _ p _ => [p]
  | .walkLoad _ _ p q => [q, p]
  | .walkUnlock _ _ temp prev => prev.toList ++ [temp]
  | .checkNext p | .checkTarget p | .checkNextNext p _ | .giveUp p
  | .currentTarget p | .currentLock p _ => [p]
  | .currentLoad p q => [q, p]
  | .nextTarget p c | .nextLock p c _ => [c, p]
  | .nextLoad p c q => [q, c, p]
  | .dropPrev p c x => [x, c, p]
  | .dropCurrent _ c x => [x, c]
  | .dropNext _ _ x => [x]
  | .relockCurrent p _ _ => [p]
  | .relockNext p c _ => [c, p]
  | .validatePrev p c x | .validateCurrent p c x | .failPrev p c x
  | .loadNextNext p c x | .linkPrev p c x _ | .linkCurrent p c x _
  | .linkNext p c x | .unlockPrev p c x => [x, c, p]
  | .failCurrent c x | .unlockCurrent c x => [x, c]
  | .failNext x | .unlockNext x => [x]

def CountPc.held : CountPc → List ℕ
  | .threadTop | .passTop | .testNext _ _ | .testStop _ _ | .currentLock _ _
  | .passDone => []
  | .nextTarget cur _ | .nextLock cur _ _ => [cur]
  | .compareTarget cur _ q | .compare cur _ q _ | .nextLoad cur _ q => [q, cur]
  | .unlockCurrent cur _ next => [next, cur]
  | .unlockNext _ next => [next]

def Pc.held : Pc → List ℕ
  | .swap p => p.held
  | .count _ p => p.held
  | .done | .fault => []

/-- The mode in which the thread holds its locks. -/
def Pc.mode (file : Source) : Pc → Mode
  | .swap (.relockCurrent _ _ _) | .swap (.relockNext _ _ _)
  | .swap (.validatePrev _ _ _) | .swap (.validateCurrent _ _ _)
  | .swap (.failPrev _ _ _) | .swap (.failCurrent _ _) | .swap (.failNext _)
  | .swap (.loadNextNext _ _ _) | .swap (.linkPrev _ _ _ _)
  | .swap (.linkCurrent _ _ _ _) | .swap (.linkNext _ _ _)
  | .swap (.unlockPrev _ _ _) | .swap (.unlockCurrent _ _)
  | .swap (.unlockNext _) => .exclusive
  | _ => file.walkMode

/-- The nodes whose link the thread has overwritten ahead of the last one of
its three writes. -/
def Pc.stale : Pc → List ℕ
  | .swap (.linkCurrent p _ _ _) => [p]
  | .swap (.linkNext p c _) => [p, c]
  | _ => []

/-- The thread is between its three pointer writes. -/
def Pc.BetweenWrites : Pc → Prop
  | .swap (.linkCurrent _ _ _ _) | .swap (.linkNext _ _ _) => True
  | _ => False

theorem Pc.stale_eq_nil
    {pc : Pc} (h : ¬pc.BetweenWrites) : pc.stale = [] := by
  unfold Pc.stale
  split
  · exact absurd trivial h
  · exact absurd trivial h
  · rfl

/-! ## Facts -/

/-- What a swap thread knows about the list. -/
def SwapPc.Facts (v : View) : SwapPc → Prop
  | .threadTop | .retry | .pickRand | .countSwap => True
  | .firstTarget r => r + 3 ≤ v.bound
  | .firstLock r q | .firstLoad r q => r + 3 ≤ v.bound ∧ q = 0
  | .loopTest r ind p | .walkTarget r ind p => v.Walk r ind p
  | .walkLock r ind p q | .walkLoad r ind p q =>
      v.Walk r ind p ∧ v.next p = some q ∧ q < v.bound
  | .walkUnlock r ind temp prev =>
      temp < v.bound ∧ r + 3 ≤ v.bound ∧
        ∃ p, prev = some p ∧ v.Early p ∧ (v.pos p : ℤ) = ind
  | .checkNext p | .checkTarget p | .currentTarget p => v.Early p
  | .checkNextNext p q => v.Early p ∧ q < v.bound
  | .giveUp p => p < v.bound
  | .currentLock p q | .currentLoad p q =>
      v.Early p ∧ v.next p = some q ∧ q < v.bound
  | .nextTarget p c => v.Early p ∧ v.next p = some c ∧ c < v.bound
  | .nextLock p c q | .nextLoad p c q =>
      v.Early p ∧ (v.next p = some c ∧ c < v.bound) ∧
        v.next c = some q ∧ q < v.bound
  | .dropPrev p c x | .dropCurrent p c x | .dropNext p c x
  | .relockPrev p c x | .relockCurrent p c x | .relockNext p c x
  | .validatePrev p c x | .failPrev p c x | .unlockPrev p c x => v.Triple p c x
  | .validateCurrent p c x => v.Triple p c x ∧ v.next p = some c
  | .failCurrent c x | .unlockCurrent c x => c < v.bound ∧ x < v.bound
  | .failNext x | .unlockNext x => x < v.bound
  | .loadNextNext p c x =>
      v.Triple p c x ∧ v.next p = some c ∧ v.next c = some x
  | .linkPrev p c x y =>
      v.Triple p c x ∧ v.next p = some c ∧ v.next c = some x ∧ v.next x = y
  | .linkCurrent p c x y =>
      v.Triple p c x ∧ v.Consecutive p c x ∧ v.next p = some x ∧ v.next x = y
  | .linkNext p c x =>
      v.Triple p c x ∧ v.Consecutive p c x ∧ v.next p = some x ∧
        v.next c = v.next x

/-- What a counter knows about the list. -/
def CountPc.Facts (v : View) : CountPc → Prop
  | .threadTop | .passTop | .passDone => True
  | .testNext cur _ => cur < v.bound
  | .testStop cur _ | .currentLock cur _ | .nextTarget cur _ =>
      cur < v.bound ∧ cur + 1 ≠ v.bound
  | .nextLock cur _ q | .compareTarget cur _ q | .nextLoad cur _ q =>
      cur < v.bound ∧ v.next cur = some q ∧ q < v.bound
  | .compare cur _ q b =>
      cur < v.bound ∧ v.next cur = some q ∧ q < v.bound ∧ b = q
  | .unlockCurrent cur _ next => cur < v.bound ∧ next < v.bound
  | .unlockNext _ next => next < v.bound

/-- What a thread knows about the list.  It never follows a null pointer. -/
def Pc.Facts (v : View) : Pc → Prop
  | .swap p => p.Facts v
  | .count _ p => p.Facts v
  | .done => True
  | .fault => False

/-- Two views that agree on the nodes `held`. -/
structure View.Agree (v w : View) (held : List ℕ) : Prop where
  bound : w.bound = v.bound
  next : ∀ a ∈ held, w.next a = v.next a
  pos : ∀ a ∈ held, w.pos a = v.pos a

/-- Facts depend only on the nodes a thread holds. -/
theorem Pc.Facts.congr
    {v w : View} {pc : Pc} (hf : pc.Facts v) (hagree : v.Agree w pc.held) :
    pc.Facts w := by
  obtain ⟨hbound, hnext, hpos⟩ := hagree
  cases pc with
  | done => trivial
  | fault => exact hf
  | count k p =>
      cases p <;> simp_all [Pc.Facts, CountPc.Facts, Pc.held, CountPc.held]
  | swap p =>
      cases p with
      | walkUnlock r ind temp prev =>
          obtain ⟨htemp, hr, p, rfl, hearly, hplace⟩ := hf
          have hp := hpos p (by simp [Pc.held, SwapPc.held])
          refine ⟨by omega, by omega, p, rfl, ?_, by omega⟩
          exact ⟨by have := hearly.node; omega, by have := hearly.early; omega⟩
      | _ =>
          simp_all [Pc.Facts, SwapPc.Facts, Pc.held, SwapPc.held,
            View.early_iff, View.walk_iff, View.triple_iff,
            View.consecutive_iff]

/-! ## Commands lead from facts to facts -/

/-- The view after `a->next = w`. -/
def View.store (v : View) (a : ℕ) (w : Option ℕ)
    (exchanged : Option (ℕ × ℕ)) : View where
  bound := v.bound
  next := Function.update v.next a w
  pos := fun b =>
    match exchanged with
    | none => v.pos b
    | some (c, x) => v.pos (Equiv.swap c x b)

/-- The thread goes on at `pc'` with the locks it holds at `pc`. -/
@[mk_iff]
structure Pc.Follows (file : Source) (v : View) (pc pc' : Pc) : Prop where
  facts : pc'.Facts v
  held : pc'.held = pc.held
  mode : pc.held ≠ [] → pc'.mode file = pc.mode file
  stale : pc'.stale = pc.stale

/-- A command at `pc` uses nodes of the list only, locks and unlocks what
`Pc.held` says, and establishes the facts of the next point.  `others` are
the nodes that other threads are about to relink. -/
def Command.Sound (file : Source) (v : View) (others : ℕ → Prop) (pc : Pc) :
    Command → Prop
  | .readStop next => ∀ b, pc.Follows file v (next b)
  | .rand next => ∀ n, pc.Follows file v (next n)
  | .readFirst next => pc.Follows file v (next (some 0))
  | .load a next => a < v.bound ∧ pc.Follows file v (next (v.next a))
  | .strlens a b next =>
      a < v.bound ∧ b < v.bound ∧ ∀ m n, pc.Follows file v (next m n)
  | .store a w exchanged next =>
      a < v.bound ∧ (a ∈ pc.held ∧ pc.mode file = .exclusive) ∧
        (∀ c x, exchanged = some (c, x) →
          (c ∈ pc.held ∧ x ∈ pc.held) ∧ v.pos x = v.pos c + 1) ∧
        (next.Facts (v.store a w exchanged) ∧ next.held = pc.held ∧
          next.mode file = pc.mode file) ∧
        (v.store a w exchanged).Linked fun b => b ∈ next.stale ∨ others b
  | .lock m a next =>
      a < v.bound ∧ next.Facts v ∧ next.held = a :: pc.held ∧
        next.mode file = m ∧ (pc.held ≠ [] → pc.mode file = m) ∧
        next.stale = pc.stale
  | .unlock a next =>
      a < v.bound ∧ next.Facts v ∧ pc.held.Perm (a :: next.held) ∧
        (next.held ≠ [] → next.mode file = pc.mode file) ∧
        next.stale = pc.stale
  | .countSwap next => pc.Follows file v next
  | .countPass _ next => pc.Follows file v next
  | .halt => True

/-! ### The walk -/

theorem bmod_le_self {x : ℤ} (hx : 0 ≤ x) (m : ℕ) : x.bmod m ≤ x := by
  have hmod : x % m ≤ x := by
    rw [Int.emod_def]
    exact Int.sub_le_self x
      (Int.mul_nonneg (Int.natCast_nonneg m) (Int.ediv_nonneg hx (by omega)))
  unfold Int.bmod
  dsimp only
  split_ifs <;> omega

/-- The position drawn leaves three nodes behind it. -/
theorem randElem_le {bound : ℕ} (hfour : 4 ≤ bound) (rand : ℕ) :
    randElem bound rand + 3 ≤ bound := by
  have hmod : (rand : ℤ) % ((bound : ℤ) - 3) < (bound : ℤ) - 3 :=
    Int.emod_lt_of_pos _ (by omega)
  have hnonneg : 0 ≤ (rand : ℤ) % ((bound : ℤ) - 3) :=
    Int.emod_nonneg _ (by omega)
  have hint := bmod_le_self (x := (rand : ℤ) % ((bound : ℤ) - 3) + 1)
    (by omega) 4294967296
  unfold randElem
  omega

theorem loopHead_facts
    {v : View} {r ind : ℤ} {p : ℕ} (hp : v.Early p)
    (htarget : r + 3 ≤ v.bound) (hplace : (v.pos p : ℤ) + 1 = ind) :
    (loopHead r ind p).Facts v := by
  unfold loopHead
  split_ifs with h
  · exact ⟨hp.node, htarget, hplace, h⟩
  · exact hp

@[simp] theorem loopHead_held (r ind : ℤ) (p : ℕ) :
    (loopHead r ind p).held = [p] := by
  unfold loopHead
  split_ifs <;> rfl

@[simp] theorem loopHead_mode (file : Source) (r ind : ℤ) (p : ℕ) :
    (loopHead r ind p).mode file = file.walkMode := by
  unfold loopHead
  split_ifs <;> rfl

@[simp] theorem loopHead_stale (r ind : ℤ) (p : ℕ) :
    (loopHead r ind p).stale = [] := by
  unfold loopHead
  split_ifs <;> rfl

namespace View

variable {v : View} {stale : ℕ → Prop} {r ind : ℤ} {p c x : ℕ}

theorem Walk.early (hw : v.Walk r ind p) : v.Early p where
  node := hw.node
  early := by
    have := hw.target
    have := hw.place
    have := hw.continues
    omega

theorem Linked.ne_last_of_early (hl : v.Linked stale) (hp : v.Early p) :
    p + 1 ≠ v.bound := by
  intro hlast
  have := hl.pos_last p hlast
  have := hp.early
  omega

theorem Linked.exists_next (hl : v.Linked stale) (hp : p < v.bound)
    (hlast : p + 1 ≠ v.bound) : ∃ q, v.next p = some q ∧ q < v.bound := by
  cases hnext : v.next p with
  | none => exact absurd ((hl.last_iff p hp).mp hnext) hlast
  | some q => exact ⟨q, rfl, hl.next_lt p q hnext⟩

theorem Linked.exists_next_of_early (hl : v.Linked stale) (hp : v.Early p) :
    ∃ q, v.next p = some q ∧ q < v.bound :=
  hl.exists_next hp.node (hl.ne_last_of_early hp)

/-- The successor of an early node has a successor too. -/
theorem Linked.exists_next_next (hl : v.Linked stale) (hp : v.Early p)
    (hps : ¬stale p) (hpc : v.next p = some c) :
    ∃ q, v.next c = some q ∧ q < v.bound := by
  have hpos := hl.pos_next p c hp.node hpc hps
  have hearly := hp.early
  have hlast : c + 1 ≠ v.bound := by
    intro hlast
    have := hl.pos_last c hlast
    omega
  exact hl.exists_next (hl.next_lt p c hpc) hlast

theorem Linked.ne_last_of_next (hl : v.Linked stale) (hp : p < v.bound)
    (hnext : v.next p = some c) : p + 1 ≠ v.bound := by
  intro hlast
  have hnone := (hl.last_iff p hp).mpr hlast
  exact absurd (hnone.symm.trans hnext) (by simp)

/-- Two links in a row lead to consecutive places. -/
theorem Linked.consecutive (hl : v.Linked stale)
    (hp : p < v.bound) (hps : ¬stale p) (hpc : v.next p = some c)
    (hcs : ¬stale c) (hcx : v.next c = some x) : v.Consecutive p c x := by
  have hc := hl.next_lt p c hpc
  have h1 := hl.pos_next p c hp hpc hps
  have h2 := hl.pos_next c x hc hcx hcs
  exact ⟨h1, by omega⟩

/-- The nodes that a thread is going to exchange: the second and the third one
behind an early node. -/
theorem Linked.triple (hl : v.Linked stale) (hp : v.Early p)
    (hps : ¬stale p) (hpc : v.next p = some c) (hcs : ¬stale c)
    (hcx : v.next c = some x) : v.Triple p c x := by
  obtain ⟨hc, hx⟩ := hl.consecutive hp.node hps hpc hcs hcx
  have hearly := hp.early
  refine ⟨hp.node, hl.next_lt p c hpc, hl.next_lt c x hcx, ?_, ?_, ?_, ?_⟩
  · intro hlast
    have := hl.pos_last x hlast
    omega
  · rintro rfl
    omega
  · rintro rfl
    omega
  · rintro rfl
    omega

/-! ### The pointer writes -/

theorem Linked.mono {stale' : ℕ → Prop} (hl : v.Linked stale)
    (himp : ∀ a, stale a → stale' a) : v.Linked stale' where
  four := hl.four
  last_iff := hl.last_iff
  next_lt := hl.next_lt
  pos_next := fun a b ha hb hfresh =>
    hl.pos_next a b ha hb fun hstale => hfresh (himp a hstale)
  pos_lt := hl.pos_lt
  pos_inj := hl.pos_inj
  pos_first := hl.pos_first
  pos_last := hl.pos_last

theorem Triple.store {a : ℕ} {w : Option ℕ} {e : Option (ℕ × ℕ)}
    (ht : v.Triple p c x) : (v.store a w e).Triple p c x where
  prev := ht.prev
  current := ht.current
  next := ht.next
  not_last := ht.not_last
  prev_current := ht.prev_current
  prev_next := ht.prev_next
  current_next := ht.current_next

theorem Consecutive.store {a : ℕ} {w : Option ℕ}
    (hcons : v.Consecutive p c x) : (v.store a w none).Consecutive p c x where
  current := hcons.current
  next := hcons.next

/-- A link may be set to any node; it is stale then. -/
theorem Linked.store_link {a b : ℕ} (hl : v.Linked stale) (ha : a < v.bound)
    (hlast : a + 1 ≠ v.bound) (hb : b < v.bound) :
    (v.store a (some b) none).Linked fun d => d = a ∨ stale d where
  four := hl.four
  last_iff := by
    intro d hd
    by_cases hda : d = a
    · subst hda
      simpa [View.store] using hlast
    · simpa [View.store, hda] using hl.last_iff d hd
  next_lt := by
    intro d e hde
    by_cases hda : d = a
    · subst hda
      obtain rfl : b = e := by simpa [View.store] using hde
      exact hb
    · exact hl.next_lt d e (by simpa [View.store, hda] using hde)
  pos_next := by
    intro d e hd hde hfresh
    have hda : d ≠ a := fun h => hfresh (Or.inl h)
    exact hl.pos_next d e hd (by simpa [View.store, hda] using hde)
      fun hstale => hfresh (Or.inr hstale)
  pos_lt := hl.pos_lt
  pos_inj := hl.pos_inj
  pos_first := hl.pos_first
  pos_last := hl.pos_last

/-- The last of the three writes: `p`, `c`, `x` become `p`, `x`, `c`, and the
links of `p` and `c` agree with the order again. -/
theorem Linked.store_exchange
    (hl : v.Linked fun a => (a = p ∨ a = c) ∨ stale a)
    (ht : v.Triple p c x) (hcons : v.Consecutive p c x)
    (hp : v.next p = some x) (hc : v.next c = v.next x) (hx : ¬stale x) :
    (v.store x (some c) (some (c, x))).Linked stale := by
  obtain ⟨hposc, hposx⟩ := hcons
  have hinj := hl.pos_inj
  have hlt := hl.pos_lt x ht.next
  -- the new places
  have hc' : (v.store x (some c) (some (c, x))).pos c = v.pos x := by
    simp [View.store]
  have hx' : (v.store x (some c) (some (c, x))).pos x = v.pos c := by
    simp [View.store]
  have hother : ∀ d, d ≠ c → d ≠ x →
      (v.store x (some c) (some (c, x))).pos d = v.pos d := by
    intro d hdc hdx
    exact congrArg v.pos (Equiv.swap_apply_of_ne_of_ne hdc hdx)
  have hp' := hother p ht.prev_current ht.prev_next
  constructor
  · exact hl.four
  · intro d hd
    by_cases hdx : d = x
    · subst hdx
      simpa [View.store] using ht.not_last
    · simpa [View.store, hdx] using hl.last_iff d hd
  · intro d e hde
    by_cases hdx : d = x
    · subst hdx
      obtain rfl : c = e := by simpa [View.store] using hde
      exact ht.current
    · exact hl.next_lt d e (by simpa [View.store, hdx] using hde)
  · intro d e hd hde hfresh
    by_cases hdx : d = x
    · subst hdx
      obtain rfl : c = e := by simpa [View.store] using hde
      omega
    · have hold : v.next d = some e := by simpa [View.store, hdx] using hde
      by_cases hdc : d = c
      · subst hdc
        -- the node behind `next` is now behind `current`
        have hfree : ¬((x = p ∨ x = d) ∨ stale x) := by
          simp [ht.prev_next.symm, ht.current_next.symm, hx]
        have hpos := hl.pos_next x e ht.next (hc ▸ hold) hfree
        have he := hother e (by rintro rfl; omega) (by rintro rfl; omega)
        omega
      · by_cases hdp : d = p
        · subst hdp
          obtain rfl : x = e := by simpa [hp] using hold
          omega
        · have hpos := hl.pos_next d e hd hold (by simp [hdp, hdc, hfresh])
          have hec : e ≠ c := by
            rintro rfl
            exact hdp (hinj d hd p ht.prev (by omega))
          have hex : e ≠ x := by
            rintro rfl
            exact hdc (hinj d hd c ht.current (by omega))
          rw [hother e hec hex, hother d hdc hdx, hpos]
  · intro d hd
    by_cases hdc : d = c
    · subst hdc
      exact hc' ▸ hlt
    · by_cases hdx : d = x
      · subst hdx
        exact hx' ▸ hl.pos_lt c ht.current
      · exact hother d hdc hdx ▸ hl.pos_lt d hd
  · intro d hd e he hde
    have hmem : ∀ b < v.bound, Equiv.swap c x b < v.bound := by
      intro b hb
      rw [Equiv.swap_apply_def]
      split_ifs
      · exact ht.next
      · exact ht.current
      · exact hb
    exact (Equiv.swap c x).injective (hinj _ (hmem d hd) _ (hmem e he) hde)
  · have hzero := hl.pos_first
    rw [hother 0 (by rintro rfl; omega) (by rintro rfl; omega), hzero]
  · intro d hlast
    have hpos := hl.pos_last d hlast
    have hdx : d ≠ x := by
      rintro rfl
      exact ht.not_last hlast
    have hdc : d ≠ c := by
      rintro rfl
      have hbound : v.pos d + 1 = v.bound := hpos
      omega
    rw [hother d hdc hdx]
    exact hpos

end View

theorem safeSwapNodes_sound
    {file : Source} {v : View} {others : ℕ → Prop} {p : SwapPc}
    (hf : (Pc.swap p).Facts v)
    (hlinked : v.Linked fun a => a ∈ (Pc.swap p).stale ∨ others a)
    (hothers : ∀ a ∈ (Pc.swap p).held, ¬others a) :
    (safeSwapNodes file v.bound p).Sound file v others (.swap p) := by
  have hfree : ∀ a ∈ (Pc.swap p).held, (Pc.swap p).stale = [] →
      ¬(a ∈ (Pc.swap p).stale ∨ others a) := by
    intro a ha hnil
    simp [hnil, hothers a ha]
  cases p with
  | threadTop =>
      have hsize : ¬(v.bound : ℤ) < 3 := by
        have := hlinked.four
        omega
      rintro (_ | _)
      · simp only [Bool.false_eq_true, if_false, if_neg hsize]
        exact ⟨trivial, rfl, fun _ => rfl, rfl⟩
      · exact ⟨trivial, rfl, fun _ => rfl, rfl⟩
  | retry =>
      rintro (_ | _)
      · exact ⟨trivial, rfl, fun _ => rfl, rfl⟩
      · exact ⟨trivial, rfl, fun _ => rfl, rfl⟩
  | pickRand =>
      intro n
      refine ⟨?_, rfl, fun _ => rfl, rfl⟩
      exact randElem_le hlinked.four n
  | firstTarget r => exact ⟨⟨hf, rfl⟩, rfl, fun _ => rfl, rfl⟩
  | firstLock r q =>
      obtain ⟨hr, rfl⟩ := hf
      have := hlinked.four
      exact ⟨by omega, ⟨hr, rfl⟩, rfl, rfl, fun h => absurd rfl h, rfl⟩
  | firstLoad r q =>
      obtain ⟨hr, rfl⟩ := hf
      have hfour := hlinked.four
      have hzero := hlinked.pos_first
      refine ⟨?_, loopHead_held r 1 0, ?_, loopHead_stale r 1 0⟩
      · apply loopHead_facts
        · exact ⟨by omega, by omega⟩
        · exact hr
        · omega
      · exact fun _ => loopHead_mode file r 1 0
  | loopTest r ind p =>
      have hw : v.Walk r ind p := hf
      obtain ⟨q, hq, -⟩ := hlinked.exists_next_of_early hw.early
      refine ⟨hw.node, ?_⟩
      simp only [hq, reduceCtorEq, if_false]
      exact ⟨hw, rfl, fun _ => rfl, rfl⟩
  | walkTarget r ind p =>
      have hw : v.Walk r ind p := hf
      obtain ⟨q, hq, hlt⟩ := hlinked.exists_next_of_early hw.early
      refine ⟨hw.node, ?_⟩
      rw [hq]
      exact ⟨⟨hw, hq, hlt⟩, rfl, fun _ => rfl, rfl⟩
  | walkLock r ind p q =>
      exact ⟨hf.2.2, hf, rfl, rfl, fun _ => rfl, rfl⟩
  | walkLoad r ind p q =>
      obtain ⟨hw, hq, hlt⟩ := hf
      have hpos := hlinked.pos_next p q hw.node hq
        (hfree p (by simp [Pc.held, SwapPc.held]) rfl)
      have hplace := hw.place
      have htarget := hw.target
      have hcontinues := hw.continues
      refine ⟨hw.node, ?_⟩
      rw [hq]
      refine ⟨⟨hw.node, htarget, q, rfl, ⟨hlt, ?_⟩, ?_⟩, rfl, fun _ => rfl, rfl⟩
      · omega
      · omega
  | walkUnlock r ind temp prev =>
      obtain ⟨htemp, hr, p, rfl, hp, hplace⟩ := hf
      refine ⟨htemp, ?_, ?_, ?_, loopHead_stale r (ind + 1) p⟩
      · exact loopHead_facts hp hr (by omega)
      · rw [loopHead_held]
        exact .swap temp p []
      · exact fun _ => loopHead_mode file r (ind + 1) p
  | checkNext p =>
      have hp : v.Early p := hf
      obtain ⟨q, hq, -⟩ := hlinked.exists_next_of_early hp
      refine ⟨hp.node, ?_⟩
      simp only [hq, reduceCtorEq, if_false]
      exact ⟨hp, rfl, fun _ => rfl, rfl⟩
  | checkTarget p =>
      have hp : v.Early p := hf
      obtain ⟨q, hq, hlt⟩ := hlinked.exists_next_of_early hp
      refine ⟨hp.node, ?_⟩
      rw [hq]
      exact ⟨⟨hp, hlt⟩, rfl, fun _ => rfl, rfl⟩
  | checkNextNext p q =>
      obtain ⟨hp, hq⟩ := hf
      refine ⟨hq, ?_⟩
      dsimp only
      split_ifs
      · exact ⟨hp.node, rfl, fun _ => rfl, rfl⟩
      · exact ⟨hp, rfl, fun _ => rfl, rfl⟩
  | giveUp p =>
      exact ⟨hf, trivial, .refl _, fun h => absurd rfl h, rfl⟩
  | currentTarget p =>
      have hp : v.Early p := hf
      obtain ⟨q, hq, hlt⟩ := hlinked.exists_next_of_early hp
      refine ⟨hp.node, ?_⟩
      rw [hq]
      exact ⟨⟨hp, hq, hlt⟩, rfl, fun _ => rfl, rfl⟩
  | currentLock p q =>
      exact ⟨hf.2.2, hf, rfl, rfl, fun _ => rfl, rfl⟩
  | currentLoad p q =>
      obtain ⟨hp, hq, hlt⟩ := hf
      refine ⟨hp.node, ?_⟩
      rw [hq]
      exact ⟨⟨hp, hq, hlt⟩, rfl, fun _ => rfl, rfl⟩
  | nextTarget p c =>
      obtain ⟨hp, hc, hlt⟩ := hf
      obtain ⟨q, hq, hqlt⟩ := hlinked.exists_next_next hp
        (hfree p (by simp [Pc.held, SwapPc.held]) rfl) hc
      refine ⟨hlt, ?_⟩
      rw [hq]
      exact ⟨⟨hp, ⟨hc, hlt⟩, hq, hqlt⟩, rfl, fun _ => rfl, rfl⟩
  | nextLock p c q =>
      exact ⟨hf.2.2.2, hf, rfl, rfl, fun _ => rfl, rfl⟩
  | nextLoad p c q =>
      obtain ⟨hp, ⟨hc, hlt⟩, hq, hqlt⟩ := hf
      have htriple : v.Triple p c q := hlinked.triple hp
        (hfree p (by simp [Pc.held, SwapPc.held]) rfl) hc
        (hfree c (by simp [Pc.held, SwapPc.held]) rfl) hq
      refine ⟨hlt, ?_⟩
      rw [hq]
      cases file with
      | mutexList => exact ⟨⟨htriple, hc, hq⟩, rfl, fun _ => rfl, rfl⟩
      | rwlockList => exact ⟨htriple, rfl, fun _ => rfl, rfl⟩
  | dropPrev p c x =>
      have ht : v.Triple p c x := hf
      refine ⟨ht.prev, ht, ?_, fun _ => rfl, rfl⟩
      exact List.perm_append_singleton p [x, c]
  | dropCurrent p c x =>
      have ht : v.Triple p c x := hf
      exact ⟨ht.current, ht, .swap c x [], fun _ => rfl, rfl⟩
  | dropNext p c x =>
      have ht : v.Triple p c x := hf
      exact ⟨ht.next, ht, .refl _, fun h => absurd rfl h, rfl⟩
  | relockPrev p c x =>
      have ht : v.Triple p c x := hf
      exact ⟨ht.prev, ht, rfl, rfl, fun h => absurd rfl h, rfl⟩
  | relockCurrent p c x =>
      have ht : v.Triple p c x := hf
      exact ⟨ht.current, ht, rfl, rfl, fun _ => rfl, rfl⟩
  | relockNext p c x =>
      have ht : v.Triple p c x := hf
      exact ⟨ht.next, ht, rfl, rfl, fun _ => rfl, rfl⟩
  | validatePrev p c x =>
      have ht : v.Triple p c x := hf
      refine ⟨ht.prev, ?_⟩
      dsimp only
      split_ifs with h
      · exact ⟨⟨ht, h⟩, rfl, fun _ => rfl, rfl⟩
      · exact ⟨ht, rfl, fun _ => rfl, rfl⟩
  | validateCurrent p c x =>
      obtain ⟨ht, hc⟩ := hf
      refine ⟨ht.current, ?_⟩
      dsimp only
      split_ifs with h
      · exact ⟨⟨ht, hc, h⟩, rfl, fun _ => rfl, rfl⟩
      · exact ⟨ht, rfl, fun _ => rfl, rfl⟩
  | failPrev p c x =>
      have ht : v.Triple p c x := hf
      refine ⟨ht.prev, ⟨ht.current, ht.next⟩, ?_, fun _ => rfl, rfl⟩
      exact List.perm_append_singleton p [x, c]
  | failCurrent c x =>
      exact ⟨hf.1, hf.2, .swap c x [], fun _ => rfl, rfl⟩
  | failNext x => exact ⟨hf, trivial, .refl _, fun h => absurd rfl h, rfl⟩
  | loadNextNext p c x =>
      obtain ⟨ht, hc, hx⟩ := hf
      exact ⟨ht.next, ⟨ht, hc, hx, rfl⟩, rfl, fun _ => rfl, rfl⟩
  | linkPrev p c x y =>
      obtain ⟨ht, hc, hx, hy⟩ := hf
      have hcons : v.Consecutive p c x := hlinked.consecutive ht.prev
        (hfree p (by simp [Pc.held, SwapPc.held]) rfl) hc
        (hfree c (by simp [Pc.held, SwapPc.held]) rfl) hx
      have hlast := hlinked.ne_last_of_next ht.prev hc
      refine ⟨ht.prev, ⟨by simp [Pc.held, SwapPc.held], rfl⟩, by simp, ?_, ?_⟩
      · refine ⟨⟨ht.store, hcons.store, ?_, ?_⟩, rfl, rfl⟩
        · simp [View.store]
        · simpa [View.store, ht.prev_next.symm] using hy
      · refine (hlinked.store_link ht.prev hlast ht.next).mono ?_
        simp [Pc.stale]
  | linkCurrent p c x y =>
      obtain ⟨ht, hcons, hx, hy⟩ := hf
      obtain ⟨d, hd, hdlt⟩ := hlinked.exists_next ht.next ht.not_last
      obtain rfl : some d = y := hd.symm.trans hy
      have hlast : c + 1 ≠ v.bound := by
        intro hlast
        have := hlinked.pos_last c hlast
        have := hlinked.pos_lt x ht.next
        have := hcons.current
        have := hcons.next
        omega
      refine ⟨ht.current, ⟨by simp [Pc.held, SwapPc.held], rfl⟩, by simp, ?_, ?_⟩
      · refine ⟨⟨ht.store, hcons.store, ?_, ?_⟩, rfl, rfl⟩
        · simpa [View.store, ht.prev_current] using hx
        · simpa [View.store, ht.current_next.symm] using hy.symm
      · refine (hlinked.store_link ht.current hlast hdlt).mono ?_
        simp only [Pc.stale, List.mem_cons]
        tauto
  | linkNext p c x =>
      obtain ⟨ht, hcons, hx, hc⟩ := hf
      refine ⟨ht.next, ⟨by simp [Pc.held, SwapPc.held], rfl⟩, ?_, ?_, ?_⟩
      · rintro c' x' heq
        obtain ⟨rfl, rfl⟩ : c = c' ∧ x = x' := by simpa using heq
        have hcurrent := hcons.current
        have hnext := hcons.next
        exact ⟨by simp [Pc.held, SwapPc.held], by omega⟩
      · exact ⟨ht.store, rfl, rfl⟩
      · have hl : v.Linked fun a => (a = p ∨ a = c) ∨ others a :=
          hlinked.mono (by simp [Pc.stale])
        have hxs : ¬others x := hothers x (by simp [Pc.held, SwapPc.held])
        exact (hl.store_exchange ht hcons hx hc hxs).mono (by simp [Pc.stale])
  | unlockPrev p c x =>
      have ht : v.Triple p c x := hf
      refine ⟨ht.prev, ⟨ht.current, ht.next⟩, ?_, fun _ => rfl, rfl⟩
      exact List.perm_append_singleton p [x, c]
  | unlockCurrent c x =>
      exact ⟨hf.1, hf.2, .swap c x [], fun _ => rfl, rfl⟩
  | unlockNext x => exact ⟨hf, trivial, .refl _, fun h => absurd rfl h, rfl⟩
  | countSwap => exact ⟨trivial, rfl, fun _ => rfl, rfl⟩

theorem countNodes_sound
    {file : Source} {v : View} {others stale : ℕ → Prop} {k : Counting}
    {p : CountPc} (hf : (Pc.count k p).Facts v) (hlinked : v.Linked stale) :
    (countNodes file k p).Sound file v others (.count k p) := by
  cases p with
  | threadTop =>
      rintro (_ | _)
      · exact ⟨trivial, rfl, fun _ => rfl, rfl⟩
      · exact ⟨trivial, rfl, fun _ => rfl, rfl⟩
  | passTop =>
      have hzero : 0 < v.bound := by
        have := hlinked.four
        omega
      exact ⟨hzero, rfl, fun _ => rfl, rfl⟩
  | testNext cur n =>
      have hcur : cur < v.bound := hf
      refine ⟨hcur, ?_⟩
      dsimp only
      split_ifs with h
      · exact ⟨trivial, rfl, fun _ => rfl, rfl⟩
      · have hlast : cur + 1 ≠ v.bound := fun hlast =>
          h ((hlinked.last_iff cur hcur).mpr hlast)
        exact ⟨⟨hcur, hlast⟩, rfl, fun _ => rfl, rfl⟩
  | testStop cur n =>
      rintro (_ | _)
      · exact ⟨hf, rfl, fun _ => rfl, rfl⟩
      · exact ⟨trivial, rfl, fun _ => rfl, rfl⟩
  | currentLock cur n =>
      exact ⟨hf.1, hf, rfl, rfl, fun h => absurd rfl h, rfl⟩
  | nextTarget cur n =>
      obtain ⟨hcur, hlast⟩ := hf
      obtain ⟨q, hq, hlt⟩ := hlinked.exists_next hcur hlast
      refine ⟨hcur, ?_⟩
      rw [hq]
      exact ⟨⟨hcur, hq, hlt⟩, rfl, fun _ => rfl, rfl⟩
  | nextLock cur n q =>
      exact ⟨hf.2.2, hf, rfl, rfl, fun _ => rfl, rfl⟩
  | compareTarget cur n q =>
      obtain ⟨hcur, hq, hlt⟩ := hf
      refine ⟨hcur, ?_⟩
      rw [hq]
      exact ⟨⟨hcur, hq, hlt, rfl⟩, rfl, fun _ => rfl, rfl⟩
  | compare cur n q b =>
      obtain ⟨hcur, hq, hlt, rfl⟩ := hf
      refine ⟨hcur, hlt, fun m l => ?_⟩
      exact ⟨⟨hcur, hq, hlt⟩, rfl, fun _ => rfl, rfl⟩
  | nextLoad cur n q =>
      obtain ⟨hcur, hq, hlt⟩ := hf
      refine ⟨hcur, ?_⟩
      rw [hq]
      exact ⟨⟨hcur, hlt⟩, rfl, fun _ => rfl, rfl⟩
  | unlockCurrent cur n next =>
      exact ⟨hf.1, hf.2, .swap cur next [], fun _ => rfl, rfl⟩
  | unlockNext n next =>
      exact ⟨hf, hf, .refl _, fun h => absurd rfl h, rfl⟩
  | passDone => exact ⟨trivial, rfl, fun _ => rfl, rfl⟩

/-- Every command of the two programs is sound. -/
theorem code_sound
    {file : Source} {v : View} {others : ℕ → Prop} {pc : Pc}
    (hf : pc.Facts v) (hlinked : v.Linked fun a => a ∈ pc.stale ∨ others a)
    (hothers : ∀ a ∈ pc.held, ¬others a) :
    (code file v.bound pc).Sound file v others pc := by
  cases pc with
  | swap p => exact safeSwapNodes_sound hf hlinked hothers
  | count k p => exact countNodes_sound hf hlinked
  | done => trivial
  | fault => exact hf.elim

end SwapList
end OsFifthSem
