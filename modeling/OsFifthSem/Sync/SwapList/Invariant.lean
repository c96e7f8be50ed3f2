import OsFifthSem.Sync.SwapList.Facts
import OsFifthSem.Sync.SwapList.Locks

/-!
# The invariant of the swap list

In every reachable state the list order is a permutation of the nodes, the
locks are held as the program points say, and every thread knows the facts of
its point.  A link disagrees with the order only between the three writes of
an exchange, on nodes that the writing thread holds.

The proof has one case for each kind of step: a step that leaves the nodes
alone, a lock, an unlock and a pointer write.
-/

namespace OsFifthSem
namespace SwapList

open Support

universe u

variable {T : Type u} [DecidableEq T]

/-- The links and the list order of a state. -/
def State.view (s : State T) : View where
  bound := s.order.length
  next := fun a => (s.nodes a).bind Node.next
  pos := fun a => s.order.idxOf a

/-- Some thread is about to make the link of the node agree with the order
again. -/
def State.Stale (s : State T) (a : ℕ) : Prop := ∃ t, a ∈ (s.pc t).stale

structure Inv (file : Source) (n : ℕ) (s : State T) : Prop where
  order_perm : s.order.Perm (List.range n)
  size_eq : s.size = n
  first_eq : s.first = some 0
  cell : ∀ a < n, ∃ m, s.nodes a = some m
  fresh : ∀ a, n ≤ a → s.nodes a = none
  linked : s.view.Linked s.Stale
  locks : ∀ a m, s.nodes a = some m →
    m.sync.Agrees (fun t => (s.pc t).held.count a) fun t => (s.pc t).mode file
  facts : ∀ t, (s.pc t).Facts s.view

variable {file : Source} {n : ℕ} {s s' : State T} {t u : T}

theorem Inv.bound_eq (hi : Inv file n s) : s.view.bound = n := by
  have hlen := hi.order_perm.length_eq
  simpa [State.view] using hlen

/-! ## Locks exclude other threads -/

/-- A thread holds nodes of the list only. -/
theorem Pc.Facts.held_lt
    {v : View} {pc : Pc} (hf : pc.Facts v) (hfour : 4 ≤ v.bound) {a : ℕ}
    (ha : a ∈ pc.held) : a < v.bound := by
  cases pc with
  | done => simp [Pc.held] at ha
  | fault => exact hf.elim
  | count k p =>
      cases p <;> simp_all [Pc.Facts, CountPc.Facts, Pc.held, CountPc.held] <;>
        grind
  | swap p =>
      cases p <;> simp_all [Pc.Facts, SwapPc.Facts, Pc.held, SwapPc.held,
        View.early_iff, View.walk_iff, View.triple_iff] <;> grind

theorem Pc.held_of_stale
    (file : Source) {pc : Pc} {a : ℕ} (ha : a ∈ pc.stale) :
    a ∈ pc.held ∧ pc.mode file = .exclusive := by
  unfold Pc.stale at ha
  split at ha
  · refine ⟨?_, rfl⟩
    simp_all [Pc.held, SwapPc.held]
  · refine ⟨?_, rfl⟩
    simp_all [Pc.held, SwapPc.held]
    tauto
  · simp at ha

/-- Two threads do not hold a node while one of them holds it exclusively. -/
theorem Inv.eq_of_exclusive
    (hi : Inv file n s) {a : ℕ} (ht : a ∈ (s.pc t).held)
    (hmode : (s.pc t).mode file = .exclusive) (hu : a ∈ (s.pc u).held) :
    u = t := by
  have hlt : a < n := by
    rw [← hi.bound_eq]
    exact (hi.facts t).held_lt hi.linked.four ht
  obtain ⟨m, hm⟩ := hi.cell a hlt
  refine (hi.locks a m hm).eq_of_exclusive ?_ hmode ?_
  · exact (List.count_pos_iff.mpr ht).ne'
  · exact (List.count_pos_iff.mpr hu).ne'

/-- The nodes that threads other than `t` are about to relink. -/
def State.StaleElsewhere (s : State T) (t : T) (a : ℕ) : Prop :=
  ∃ u, u ≠ t ∧ a ∈ (s.pc u).stale

theorem Inv.not_staleElsewhere
    (hi : Inv file n s) {a : ℕ} (ha : a ∈ (s.pc t).held) :
    ¬s.StaleElsewhere t a := by
  rintro ⟨u, hut, hstale⟩
  obtain ⟨hheld, hmode⟩ := Pc.held_of_stale file hstale
  exact hut (hi.eq_of_exclusive hheld hmode ha).symm

theorem State.stale_iff (s : State T) (t : T) (a : ℕ) :
    s.Stale a ↔ a ∈ (s.pc t).stale ∨ s.StaleElsewhere t a := by
  constructor
  · rintro ⟨u, hu⟩
    by_cases hut : u = t
    · exact Or.inl (hut ▸ hu)
    · exact Or.inr ⟨u, hut, hu⟩
  · rintro (h | ⟨u, -, hu⟩)
    · exact ⟨t, h⟩
    · exact ⟨u, hu⟩

/-- The next command of a thread is sound. -/
theorem Inv.sound (hi : Inv file n s) (t : T) :
    (code file s.size (s.pc t)).Sound file s.view (s.StaleElsewhere t)
      (s.pc t) := by
  have hsize : s.size = s.view.bound := by rw [hi.size_eq, hi.bound_eq]
  rw [hsize]
  apply code_sound (hi.facts t)
  · exact hi.linked.mono fun a => (s.stale_iff t a).mp
  · exact fun a => hi.not_staleElsewhere

/-! ## What one step can do -/

/-- Thread `t` goes on at `pc`, and the nodes and the list order become
`nodes` and `order`. -/
structure Moves (s : State T) (t : T) (pc : Pc) (nodes : ℕ → Option (Node T))
    (order : List ℕ) (s' : State T) : Prop where
  pc_eq : s'.pc = Function.update s.pc t pc
  nodes_eq : s'.nodes = nodes
  order_eq : s'.order = order
  first_eq : s'.first = s.first
  size_eq : s'.size = s.size

/-- The effect of one step of thread `t`. -/
inductive Effect (file : Source) (s : State T) (t : T) (s' : State T) : Prop
  | quiet (next : Pc) (hmoves : Moves s t next s.nodes s.order s')
      (hfollows : (s.pc t).Follows file s.view next)
  | lock (m : Mode) (a : ℕ) (node : Node T) (l : NodeLock T) (next : Pc)
      (hnode : s.nodes a = some node) (hlock : node.sync.acquire t m = some l)
      (hmoves : Moves s t next
        (Function.update s.nodes a (some { node with sync := l })) s.order s')
      (hsound : (Command.lock m a next).Sound file s.view
        (s.StaleElsewhere t) (s.pc t))
  | unlock (a : ℕ) (node : Node T) (next : Pc)
      (hnode : s.nodes a = some node)
      (hmoves : Moves s t next (Function.update s.nodes a
        (some { node with sync := node.sync.release t })) s.order s')
      (hsound : (Command.unlock a next).Sound file s.view
        (s.StaleElsewhere t) (s.pc t))
  | store (a : ℕ) (w : Option ℕ) (exchanged : Option (ℕ × ℕ)) (node : Node T)
      (next : Pc) (hnode : s.nodes a = some node)
      (hmoves : Moves s t next
        (Function.update s.nodes a (some { node with next := w }))
        (exchange s.order exchanged) s')
      (hsound : (Command.store a w exchanged next).Sound file s.view
        (s.StaleElsewhere t) (s.pc t))

theorem Inv.effect
    (hi : Inv file n s) {rand : ℕ}
    (hstep : exec s t rand (code file s.size (s.pc t)) = some s') :
    Effect file s t s' := by
  have hcell : ∀ a, a < s.view.bound → ∃ m, s.nodes a = some m := by
    intro a ha
    exact hi.cell a (hi.bound_eq ▸ ha)
  have hsound := hi.sound t
  cases hcode : code file s.size (s.pc t) with
  | readStop next =>
      rw [hcode] at hstep hsound
      obtain rfl := Option.some.inj hstep
      exact .quiet _ ⟨rfl, rfl, rfl, rfl, rfl⟩ (hsound s.stop)
  | rand next =>
      rw [hcode] at hstep hsound
      obtain rfl := Option.some.inj hstep
      exact .quiet _ ⟨rfl, rfl, rfl, rfl, rfl⟩ (hsound rand)
  | readFirst next =>
      rw [hcode] at hstep hsound
      obtain rfl := Option.some.inj hstep
      refine .quiet _ ⟨rfl, rfl, rfl, rfl, rfl⟩ ?_
      rw [hi.first_eq]
      exact hsound
  | load a next =>
      rw [hcode] at hstep hsound
      obtain ⟨m, hm⟩ := hcell a hsound.1
      simp only [exec, hm, Option.some.injEq] at hstep
      subst hstep
      refine .quiet _ ⟨rfl, rfl, rfl, rfl, rfl⟩ ?_
      simpa [State.view, hm] using hsound.2
  | strlens a b next =>
      rw [hcode] at hstep hsound
      obtain ⟨ha, hb, hnext⟩ := hsound
      obtain ⟨m, hm⟩ := hcell a ha
      obtain ⟨k, hk⟩ := hcell b hb
      simp only [exec, hm, hk, Option.some.injEq] at hstep
      subst hstep
      exact .quiet _ ⟨rfl, rfl, rfl, rfl, rfl⟩ (hnext _ _)
  | store a w exchanged next =>
      rw [hcode] at hstep hsound
      obtain ⟨m, hm⟩ := hcell a hsound.1
      simp only [exec, hm, Option.some.injEq] at hstep
      subst hstep
      exact .store a w exchanged m next hm ⟨rfl, rfl, rfl, rfl, rfl⟩ hsound
  | lock m a next =>
      rw [hcode] at hstep hsound
      obtain ⟨node, hnode⟩ := hcell a hsound.1
      simp only [exec, hnode, Option.map_eq_some_iff] at hstep
      obtain ⟨l, hl, rfl⟩ := hstep
      exact .lock m a node l next hnode hl ⟨rfl, rfl, rfl, rfl, rfl⟩ hsound
  | unlock a next =>
      rw [hcode] at hstep hsound
      obtain ⟨node, hnode⟩ := hcell a hsound.1
      simp only [exec, hnode, Option.some.injEq] at hstep
      subst hstep
      exact .unlock a node next hnode ⟨rfl, rfl, rfl, rfl, rfl⟩ hsound
  | countSwap next =>
      rw [hcode] at hstep hsound
      obtain rfl := Option.some.inj hstep
      exact .quiet _ ⟨rfl, rfl, rfl, rfl, rfl⟩ hsound
  | countPass k next =>
      rw [hcode] at hstep hsound
      obtain rfl := Option.some.inj hstep
      exact .quiet _ ⟨rfl, rfl, rfl, rfl, rfl⟩ hsound
  | halt =>
      rw [hcode] at hstep
      simp [exec] at hstep

/-! ## The invariant is kept -/

theorem Moves.pc_self
    {pc : Pc} {nodes : ℕ → Option (Node T)} {order : List ℕ}
    (hm : Moves s t pc nodes order s') : s'.pc t = pc := by
  rw [hm.pc_eq, Function.update_self]

theorem Moves.pc_of_ne
    {pc : Pc} {nodes : ℕ → Option (Node T)} {order : List ℕ}
    (hm : Moves s t pc nodes order s') (hne : u ≠ t) : s'.pc u = s.pc u := by
  rw [hm.pc_eq, Function.update_of_ne hne]

theorem Moves.stale_iff
    {pc : Pc} {nodes : ℕ → Option (Node T)} {order : List ℕ}
    (hm : Moves s t pc nodes order s') (a : ℕ) :
    s'.Stale a ↔ a ∈ pc.stale ∨ s.StaleElsewhere t a := by
  rw [s'.stale_iff t, hm.pc_self]
  refine or_congr_right ⟨?_, ?_⟩
  · rintro ⟨u, hut, hu⟩
    exact ⟨u, hut, hm.pc_of_ne hut ▸ hu⟩
  · rintro ⟨u, hut, hu⟩
    exact ⟨u, hut, (hm.pc_of_ne hut).symm ▸ hu⟩

/-- A step that keeps the links keeps the invariant if it keeps the locks in
step with the points. -/
theorem Inv.of_view_eq
    (hi : Inv file n s) {pc : Pc} {nodes : ℕ → Option (Node T)}
    (hm : Moves s t pc nodes s.order s')
    (hnext : ∀ a, (nodes a).map Node.next = (s.nodes a).map Node.next)
    (hfacts : pc.Facts s.view) (hstale : pc.stale = (s.pc t).stale)
    (hlocks : ∀ a m, nodes a = some m → m.sync.Agrees
      (fun u => (s'.pc u).held.count a) fun u => (s'.pc u).mode file) :
    Inv file n s' := by
  have hview : s'.view = s.view := by
    have hlink : ∀ a, (s'.nodes a).bind Node.next =
        (s.nodes a).bind Node.next := by
      intro a
      have ha := hnext a
      rw [hm.nodes_eq]
      cases h1 : nodes a <;> cases h2 : s.nodes a <;> simp_all
    simp only [State.view, hm.order_eq, hlink]
  constructor
  · exact hm.order_eq ▸ hi.order_perm
  · exact hm.size_eq.trans hi.size_eq
  · exact hm.first_eq.trans hi.first_eq
  · intro a ha
    obtain ⟨m, hcell⟩ := hi.cell a ha
    have hsome := hnext a
    rw [hcell, Option.map_some, Option.map_eq_some_iff] at hsome
    obtain ⟨m', hm', -⟩ := hsome
    exact ⟨m', hm.nodes_eq ▸ hm'⟩
  · intro a ha
    have hnone := hnext a
    rw [hi.fresh a ha, Option.map_none, Option.map_eq_none_iff] at hnone
    exact hm.nodes_eq ▸ hnone
  · rw [hview]
    refine hi.linked.mono fun a ha => ?_
    rw [hm.stale_iff, hstale]
    exact (s.stale_iff t a).mp ha
  · intro a m ha
    exact hlocks a m (hm.nodes_eq ▸ ha)
  · intro u
    rw [hview]
    by_cases hut : u = t
    · subst hut
      exact hm.pc_self ▸ hfacts
    · exact hm.pc_of_ne hut ▸ hi.facts u

theorem idxOf_exchange (order : List ℕ) (c x b : ℕ) :
    (exchange order (some (c, x))).idxOf b = order.idxOf (Equiv.swap c x b) := by
  have hmap : ∀ d, (order.map (Equiv.swap c x)).idxOf (Equiv.swap c x d) =
      order.idxOf d := by
    intro d
    induction order with
    | nil => rfl
    | cons a order ih =>
        simp only [List.map_cons, List.idxOf_cons, ih, beq_eq_decide,
          EmbeddingLike.apply_eq_iff_eq]
  have hb := hmap (Equiv.swap c x b)
  rwa [Equiv.swap_apply_self] at hb

theorem exchange_perm
    {order : List ℕ} {e : Option (ℕ × ℕ)} (hperm : order.Perm (List.range n))
    (he : ∀ c x, e = some (c, x) → c < n ∧ x < n) :
    (exchange order e).Perm (List.range n) := by
  rcases e with _ | ⟨c, x⟩
  · exact hperm
  · obtain ⟨hc, hx⟩ := he c x rfl
    refine (hperm.map _).trans ?_
    rw [List.perm_ext_iff_of_nodup
      (List.nodup_range.map (Equiv.swap c x).injective) List.nodup_range]
    intro b
    have hmem : ∀ d < n, Equiv.swap c x d < n := by
      intro d hd
      rw [Equiv.swap_apply_def]
      split_ifs
      · exact hx
      · exact hc
      · exact hd
    simp only [List.mem_map, List.mem_range]
    constructor
    · rintro ⟨d, hd, rfl⟩
      exact hmem d hd
    · intro hb
      exact ⟨Equiv.swap c x b, hmem b hb, Equiv.swap_apply_self c x b⟩

theorem Moves.view_store
    {a : ℕ} {w : Option ℕ} {e : Option (ℕ × ℕ)} {node : Node T} {pc : Pc}
    (hm : Moves s t pc
      (Function.update s.nodes a (some { node with next := w }))
      (exchange s.order e) s') : s'.view = s.view.store a w e := by
  have hbound : (exchange s.order e).length = s.order.length := by
    rcases e with _ | ⟨c, x⟩
    · rfl
    · exact List.length_map ..
  have hnext : ∀ b, (Function.update s.nodes a
      (some { node with next := w }) b).bind Node.next =
        Function.update (fun b => (s.nodes b).bind Node.next) a w b := by
    intro b
    by_cases hba : b = a
    · subst hba
      simp
    · simp [Function.update_of_ne hba]
  have hpos : ∀ b, (exchange s.order e).idxOf b =
      (s.view.store a w e).pos b := by
    intro b
    rcases e with _ | ⟨c, x⟩
    · rfl
    · exact idxOf_exchange s.order c x b
  simp only [State.view, hm.order_eq, hm.nodes_eq, hbound, hnext, hpos]
  rfl

/-- A pointer write keeps the facts of the other threads. -/
theorem Inv.agree_store
    (hi : Inv file n s) {a : ℕ} {w : Option ℕ} {e : Option (ℕ × ℕ)}
    (hmode : (s.pc t).mode file = .exclusive) (ha : a ∈ (s.pc t).held)
    (he : ∀ c x, e = some (c, x) →
      (c ∈ (s.pc t).held ∧ x ∈ (s.pc t).held) ∧
        s.view.pos x = s.view.pos c + 1)
    (hne : u ≠ t) : s.view.Agree (s.view.store a w e) (s.pc u).held := by
  have hother : ∀ b ∈ (s.pc u).held, ∀ d ∈ (s.pc t).held, b ≠ d := by
    rintro b hb d hd rfl
    exact hne (hi.eq_of_exclusive hd hmode hb)
  constructor
  · rfl
  · intro b hb
    exact Function.update_of_ne (hother b hb a ha) _ _
  · intro b hb
    rcases e with _ | ⟨c, x⟩
    · rfl
    · obtain ⟨⟨hc, hx⟩, -⟩ := he c x rfl
      exact congrArg s.view.pos
        (Equiv.swap_apply_of_ne_of_ne (hother b hb c hc) (hother b hb x hx))

/-- The lock of a node that the step neither takes nor releases. -/
theorem Inv.agrees_of_moves
    (hi : Inv file n s) {pc : Pc} {nodes : ℕ → Option (Node T)}
    {order : List ℕ} (hm : Moves s t pc nodes order s') {b : ℕ} {k : Node T}
    (hb : s.nodes b = some k)
    (hcount : pc.held.count b = (s.pc t).held.count b)
    (hmode : (s.pc t).held ≠ [] → pc.mode file = (s.pc t).mode file ∨
      b ∉ (s.pc t).held) :
    k.sync.Agrees (fun u => (s'.pc u).held.count b)
      fun u => (s'.pc u).mode file := by
  refine (hi.locks b k hb).congr ?_ ?_
  · intro u
    by_cases hut : u = t
    · subst hut
      simp only [hm.pc_self, hcount]
    · simp only [hm.pc_of_ne hut]
  · intro u hu
    by_cases hut : u = t
    · subst hut
      have hmem := List.count_pos_iff.mp (Nat.pos_of_ne_zero hu)
      simp only [hm.pc_self]
      exact (hmode (List.ne_nil_of_mem hmem)).resolve_right fun h => h hmem
    · simp only [hm.pc_of_ne hut]

theorem Effect.inv
    (hi : Inv file n s) (he : Effect file s t s') : Inv file n s' := by
  cases he with
  | quiet next hm hfollows =>
      refine hi.of_view_eq hm (fun _ => rfl) hfollows.facts hfollows.stale ?_
      intro a m ha
      exact hi.agrees_of_moves hm ha (by rw [hfollows.held])
        fun h => Or.inl (hfollows.mode h)
  | lock m a node l next hnode hlock hm hsound =>
      obtain ⟨-, hfacts, hheld, hmode, hbefore, hstale⟩ := hsound
      refine hi.of_view_eq hm ?_ hfacts hstale ?_
      · intro b
        by_cases hba : b = a
        · subst hba
          simp [hnode]
        · simp [hba]
      · intro b k hb
        by_cases hba : b = a
        · subst hba
          obtain rfl : { node with sync := l } = k := by simpa using hb
          refine (hi.locks b node hnode).acquire hlock ?_ ?_ ?_ ?_
          · simp [hm.pc_self, hheld]
          · simp only [hm.pc_self, hmode]
          · exact fun h => hbefore (List.ne_nil_of_mem
              (List.count_pos_iff.mp (Nat.pos_of_ne_zero h)))
          · intro u hut
            simp only [hm.pc_of_ne hut, and_self]
        · have hold : s.nodes b = some k := by simpa [hba] using hb
          refine hi.agrees_of_moves hm hold ?_ fun h => Or.inl ?_
          · rw [hheld, List.count_cons_of_ne (Ne.symm hba)]
          · rw [hmode, hbefore h]
  | unlock a node next hnode hm hsound =>
      obtain ⟨-, hfacts, hperm, hmode, hstale⟩ := hsound
      refine hi.of_view_eq hm ?_ hfacts hstale ?_
      · intro b
        by_cases hba : b = a
        · subst hba
          simp [hnode]
        · simp [hba]
      · intro b k hb
        by_cases hba : b = a
        · subst hba
          obtain rfl : { node with sync := node.sync.release t } = k := by
            simpa using hb
          refine (hi.locks b node hnode).release ?_ ?_ ?_
          · simp [hm.pc_self, hperm.count_eq]
          · intro h
            simp only [hm.pc_self] at h ⊢
            exact hmode (List.ne_nil_of_mem
              (List.count_pos_iff.mp (Nat.pos_of_ne_zero h)))
          · intro u hut
            simp only [hm.pc_of_ne hut, and_self]
        · have hold : s.nodes b = some k := by simpa [hba] using hb
          have hcount : next.held.count b = (s.pc t).held.count b := by
            rw [hperm.count_eq, List.count_cons_of_ne (Ne.symm hba)]
          refine hi.agrees_of_moves hm hold hcount fun _ => ?_
          by_cases hmem : b ∈ next.held
          · exact Or.inl (hmode (List.ne_nil_of_mem hmem))
          · right
            rw [← List.count_pos_iff, ← hcount]
            exact fun h => hmem (List.count_pos_iff.mp h)
  | store a w e node next hnode hm hsound =>
      obtain ⟨ha, ⟨hheld, hmode⟩, hex, ⟨hfacts, hsame, hmode'⟩, hlinked⟩ := hsound
      have hview := hm.view_store
      constructor
      · rw [hm.order_eq]
        refine exchange_perm hi.order_perm fun c x heq => ?_
        have hlt : ∀ b ∈ (s.pc t).held, b < n := by
          intro b hb
          rw [← hi.bound_eq]
          exact (hi.facts t).held_lt hi.linked.four hb
        exact ⟨hlt c (hex c x heq).1.1, hlt x (hex c x heq).1.2⟩
      · exact hm.size_eq.trans hi.size_eq
      · exact hm.first_eq.trans hi.first_eq
      · intro b hb
        rw [hm.nodes_eq]
        by_cases hba : b = a
        · subst hba
          exact ⟨_, Function.update_self ..⟩
        · rw [Function.update_of_ne hba]
          exact hi.cell b hb
      · intro b hb
        have hba : b ≠ a := by
          rintro rfl
          have := hi.bound_eq
          omega
        rw [hm.nodes_eq, Function.update_of_ne hba]
        exact hi.fresh b hb
      · rw [hview]
        exact hlinked.mono fun b hb => (hm.stale_iff b).mpr hb
      · intro b k hb
        have hkeep : ∀ m, s.nodes b = some m → m.sync.Agrees
            (fun u => (s'.pc u).held.count b) fun u => (s'.pc u).mode file :=
          fun m hmb => hi.agrees_of_moves hm hmb (by rw [hsame])
            fun _ => Or.inl hmode'
        rw [hm.nodes_eq] at hb
        by_cases hba : b = a
        · subst hba
          obtain rfl : { node with next := w } = k := by simpa using hb
          exact hkeep node hnode
        · exact hkeep k (by simpa [hba] using hb)
      · intro u
        rw [hview]
        by_cases hut : u = t
        · subst hut
          exact hm.pc_self ▸ hfacts
        · rw [hm.pc_of_ne hut]
          exact (hi.facts u).congr (hi.agree_store hmode hheld hex hut)

/-! ## Reachable states -/

theorem start_inv
    {st : Storage T} (hb : Built n n st) (hfour : 4 ≤ n) (role : T → Role) :
    Inv file n (start st role) := by
  have hpc : ∀ t, ((start st role).pc t).held = [] ∧
      ((start st role).pc t).stale = [] ∧
      ((start st role).pc t).Facts (start st role).view := by
    intro t
    change (role t).start.held = [] ∧ (role t).start.stale = [] ∧
      (role t).start.Facts _
    cases role t with
    | swap => exact ⟨rfl, rfl, trivial⟩
    | count k => exact ⟨rfl, rfl, trivial⟩
  have horder : (start st role).order = List.range n :=
    congrArg List.range hb.allocated
  have hbound : (start st role).view.bound = n := by
    simp [State.view, horder]
  have hpos : ∀ a < n, (start st role).view.pos a = a := by
    intro a ha
    change (start st role).order.idxOf a = a
    rw [horder]
    have hidx := List.nodup_range.idxOf_getElem a
      (by simpa using ha : a < (List.range n).length)
    simpa using hidx
  have hnext : ∀ a < n, (start st role).view.next a =
      if a + 1 < n then some (a + 1) else none := by
    intro a ha
    obtain ⟨m, hm, hnext, -⟩ := hb.cell a ha
    rw [← hnext]
    simp [State.view, start, hm]
  constructor
  · rw [horder]
  · exact hb.size_eq
  · change st.first = some 0
    rw [hb.first, List.head?_range, if_neg (by omega)]
  · intro a ha
    obtain ⟨m, hm, -⟩ := hb.cell a ha
    exact ⟨m, hm⟩
  · exact hb.fresh
  · constructor
    · rw [hbound]
      exact hfour
    · rw [hbound]
      intro a ha
      rw [hnext a ha]
      split_ifs with h
      · simp
        omega
      · simp
        omega
    · intro a b hab
      rw [hbound]
      by_cases ha : a < n
      · rw [hnext a ha] at hab
        split_ifs at hab with h
        obtain rfl : a + 1 = b := by simpa using hab
        exact h
      · have hnone : st.nodes a = none := hb.fresh a (by omega)
        simp [State.view, start, hnone] at hab
    · rw [hbound]
      intro a b ha hab _
      rw [hnext a ha] at hab
      split_ifs at hab with h
      obtain rfl : a + 1 = b := by simpa using hab
      rw [hpos a ha, hpos (a + 1) h]
    · rw [hbound]
      intro a ha
      rwa [hpos a ha]
    · rw [hbound]
      intro a ha b hb' hab
      rwa [hpos a ha, hpos b hb'] at hab
    · exact hpos 0 (by omega)
    · rw [hbound]
      intro a ha
      rw [hpos a (by omega)]
      exact ha
  · intro a m hm
    have ha : a < n := by
      by_contra h
      rw [show (start st role).nodes a = none from hb.fresh a (by omega)] at hm
      simp at hm
    obtain ⟨k, hk, -, hinit⟩ := hb.cell a ha
    obtain rfl : k = m := Option.some.inj (hk.symm.trans hm)
    rw [hinit]
    have hfree := NodeLock.agrees_init fun u => ((start st role).pc u).mode file
    apply hfree.congr
    · intro u
      simp [(hpc u).1]
    · exact fun u _ => rfl
  · exact fun t => (hpc t).2.2

theorem step_inv
    {a : Action T} (hi : Inv file n s) (hstep : step file s a = some s') :
    Inv file n s' := by
  cases a with
  | advance t rand => exact (hi.effect hstep).inv hi
  | stopThreads =>
      obtain rfl := Option.some.inj hstep
      exact ⟨hi.order_perm, hi.size_eq, hi.first_eq, hi.cell, hi.fresh,
        hi.linked, hi.locks, hi.facts⟩

theorem inv_of_reachable
    {values : List CString} {role : T → Role}
    {allowed : State T → Action T → Prop} (hfour : 4 ≤ values.length)
    (hs : (swapSystem file values role).ReachableUnder allowed s) :
    Inv file values.length s := by
  refine TransitionSystem.ReachableUnder.invariant ?_ ?_ hs
  · rintro s ⟨st, hbuild, rfl⟩
    obtain ⟨st', hbuild', hb⟩ := buildStorage_built (T := T) values
    obtain rfl : st' = st := Option.some.inj (hbuild'.symm.trans hbuild)
    exact start_inv hb hfour role
  · exact fun s a s' hi _ hstep => step_inv hi hstep

end SwapList
end OsFifthSem
