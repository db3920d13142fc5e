/-
Module: FamGraph.Proofs.Kcore
Layer: Proofs
Purpose: Peeling ends with the k-core. At every moment the degree of a vertex counts the arcs that
  come in from vertices not peeled before the round, plus the arcs the running pushes still carry.
  So a degree about to be decremented is positive, a vertex crosses from `k` to `k - 1` once, and a
  set whose members have `k` arcs to members never loses a member.
Trusted boundary: none
Main exports: Acts, discipline, discipline_sound, Balanced, loopInvariant_kept, kcore_peels_to_core
-/
import FamGraph.Core.Kcore
import FamGraph.Proofs.GraphKernel

namespace FamGraph.Kcore

variable {threads : Nat} {G : Graph} {k : Nat}

/-! ### The atomic steps -/

theorem store_vtable (s : Shared G) (w v : G.Vertex) (x : KcoreVertex) :
    (s.store w x).vtable v = if v = w then x else s.vtable v := by
  simp [Shared.store, Function.update_apply]

/-- A positive degree is decremented without wrapping. -/
theorem subtractDegree_of_pos {x : KcoreVertex} (hpos : 0 < x.degree) (hlt : x.degree < 2 ^ 32) :
    x.subtractDegree = ({ degree := x.degree - 1 }, x.degree) := by
  have hwrap : (x.degree + (2 ^ 32 - 1)) % 2 ^ 32 = x.degree - 1 := by omega
  rw [KcoreVertex.subtractDegree, hwrap]

/-- The atomic steps of `kcore_push` where the degree about to be decremented is positive, one
    constructor for each outcome. -/
inductive Acts (k : Nat) :
    Shared G × Bitmap threads → Push G → Shared G × Bitmap threads → Push G → Prop where
  | crossing {s b w rest} : (s.vtable w).degree = k → 0 < k →
      Acts k (s, b) (.subtract (w :: rest)) (s.store w { degree := k - 1 }, b) (.activate w rest)
  | lowering {s b w rest} : (s.vtable w).degree ≠ k → 0 < (s.vtable w).degree →
      Acts k (s, b) (.subtract (w :: rest)) (s.store w { degree := (s.vtable w).degree - 1 }, b)
        (.subtract rest)
  | activate {s b w rest} (t : Fin threads) :
      Acts k (s, b) (.activate w rest)
        ({ s with activated := w :: s.activated }, (b.setBit t w).1) (.subtract rest)

/-- The edges a push has not subtracted yet. -/
def Push.todo : Push G → List G.Vertex
  | .subtract edges => edges
  | .activate _ rest => rest

/-- The push has taken `x` below `k` and is going to activate it. -/
def Push.Claims (x : G.Vertex) : Push G → Prop
  | .activate w _ => w = x
  | .subtract _ => False

/-- The next step of the push does not decrement a zero. -/
def Push.Safe (s : Shared G) : Push G → Prop
  | .subtract (w :: _) => 0 < (s.vtable w).degree ∧ (s.vtable w).degree < 2 ^ 32
  | _ => True

/-- `pushStep` takes no other step from a safe push. -/
theorem acts_of_act {p p' : Shared G × Bitmap threads} {l l' : Push G}
    (h : (kernel threads G k).Act p l p' l') (hsafe : l.Safe p.1) : Acts k p l p' l' := by
  obtain ⟨t, _, h⟩ := h
  obtain ⟨s, b⟩ := p
  cases l with
  | subtract edges =>
      cases edges with
      | nil => simp [kernel, pushStep] at h
      | cons w rest =>
          obtain ⟨hpos, hlt⟩ := hsafe
          by_cases hk : (s.vtable w).degree = k
          · simp only [kernel, pushStep, subtractDegree_of_pos hpos hlt, if_pos hk,
              Option.some.injEq, Prod.mk.injEq] at h
            obtain ⟨rfl, rfl⟩ := h
            rw [hk]
            exact .crossing hk (hk ▸ hpos)
          · simp only [kernel, pushStep, subtractDegree_of_pos hpos hlt, if_neg hk,
              Option.some.injEq, Prod.mk.injEq] at h
            obtain ⟨rfl, rfl⟩ := h
            exact .lowering hk hpos
  | activate w rest =>
      simp only [kernel, pushStep, Option.some.injEq, Prod.mk.injEq] at h
      obtain ⟨rfl, rfl⟩ := h
      exact .activate t

/-- A push that has not returned can act. -/
theorem exists_act (p : Shared G × Bitmap (threads + 1)) {l : Push G} (h : l.returned = false) :
    ∃ p' l', (kernel (threads + 1) G k).Act p l p' l' := by
  obtain ⟨s, b⟩ := p
  cases l with
  | subtract edges =>
      cases edges with
      | nil => simp [Push.returned] at h
      | cons w rest =>
          by_cases hk : (s.vtable w).degree = k
          · exact ⟨(s.store w (s.vtable w).subtractDegree.1, b), .activate w rest, 0, (),
              by simp [kernel, pushStep, KcoreVertex.subtractDegree, hk]⟩
          · exact ⟨(s.store w (s.vtable w).subtractDegree.1, b), .subtract rest, 0, (),
              by simp [kernel, pushStep, KcoreVertex.subtractDegree, hk]⟩
  | activate w rest => exact ⟨_, _, 0, (), rfl⟩

/-- Degrees only fall. -/
theorem Acts.degree_le {p p' : Shared G × Bitmap threads} {l l' : Push G} (h : Acts k p l p' l')
    (v : G.Vertex) : (p'.1.vtable v).degree ≤ (p.1.vtable v).degree := by
  cases h with
  | @crossing s b w rest hk hpos =>
      rw [store_vtable]
      split
      · rename_i hv
        subst hv
        exact Nat.le_trans (Nat.sub_le _ _) (Nat.le_of_eq hk.symm)
      · exact Nat.le_refl _
  | @lowering s b w rest hk hpos =>
      rw [store_vtable]
      split
      · rename_i hv
        subst hv
        exact Nat.sub_le _ _
      · exact Nat.le_refl _
  | activate t => exact Nat.le_refl _

/-- Only the step that then claims the vertex takes a degree below `k`. -/
theorem Acts.lt_or_claims {p p' : Shared G × Bitmap threads} {l l' : Push G} (h : Acts k p l p' l')
    {v : G.Vertex} (hv : (p'.1.vtable v).degree < k) :
    (p.1.vtable v).degree < k ∨ l'.Claims v := by
  cases h with
  | @crossing s b w rest hk hpos =>
      by_cases hvw : v = w
      · exact Or.inr hvw.symm
      · rw [store_vtable, if_neg hvw] at hv
        exact Or.inl hv
  | @lowering s b w rest hk hpos =>
      rw [store_vtable] at hv
      split at hv
      · rename_i hvw
        subst hvw
        have hlow : (s.vtable v).degree - 1 < k := hv
        have hlt : (s.vtable v).degree < k := by omega
        exact Or.inl hlt
      · exact Or.inl hv
  | activate t => exact Or.inl hv

/-- A step takes off the degree of `v` what it takes off the arcs to `v` it carries. -/
theorem Acts.balance {p p' : Shared G × Bitmap threads} {l l' : Push G} (h : Acts k p l p' l')
    (v : G.Vertex) :
    (p'.1.vtable v).degree + l.todo.count v = (p.1.vtable v).degree + l'.todo.count v := by
  cases h with
  | @crossing s b w rest hk hpos =>
      rw [store_vtable]
      by_cases hvw : v = w
      · subst hvw
        simp only [if_true, Push.todo, List.count_cons_self, hk]
        omega
      · have hwv : w ≠ v := fun heq => hvw heq.symm
        simp only [if_neg hvw, Push.todo, List.count_cons_of_ne hwv]
  | @lowering s b w rest hk hpos =>
      rw [store_vtable]
      by_cases hvw : v = w
      · subst hvw
        simp only [if_true, Push.todo, List.count_cons_self]
        omega
      · have hwv : w ≠ v := fun heq => hvw heq.symm
        simp only [if_neg hvw, Push.todo, List.count_cons_of_ne hwv]
  | activate t => rfl

/-! ### Who activates a vertex -/

/-- The shared part of the argument for one round; `peeled` holds the vertices below `k` when it
    began. -/
structure Peeling (k : Nat) (peeled : Finset G.Vertex) (p : Shared G × Bitmap threads) : Prop where
  fits : p.2.Fits G
  bounded : ∀ v, (p.1.vtable v).degree ≤ (G.out v).length
  nodup : p.1.activated.Nodup
  log : ∀ v, v ∈ p.1.activated ↔ v ∈ peeled ∨ p.2.Active v
  peeled : ∀ v ∈ peeled, (p.1.vtable v).degree < k ∧ ¬ p.2.Active v
  active : ∀ v : G.Vertex, p.2.Active v → (p.1.vtable v).degree < k

/-- The argument for one round. Obligation `v`: a vertex that has fallen below `k` gets
    activated. -/
def discipline (threads : Nat) (k : Nat) (peeled : Finset G.Vertex) :
    TaskPool.Discipline (Shared G × Bitmap threads) (Push G) G.Vertex where
  Shared := Peeling k peeled
  Local p l := ∀ x, l.Claims x → (p.1.vtable x).degree < k ∧ x ∉ p.1.activated
  Apart l m := ∀ x, ¬ (l.Claims x ∧ m.Claims x)
  Owes v _ l := l.Claims v
  Paid v p := (p.1.vtable v).degree < k → v ∈ peeled ∨ p.2.Active v

variable {peeled : Finset G.Vertex}

/-- A vertex in the log is already below `k`. -/
theorem Peeling.lt_of_activated {p : Shared G × Bitmap threads} (hp : Peeling k peeled p)
    {v : G.Vertex} (hv : v ∈ p.1.activated) : (p.1.vtable v).degree < k := by
  rcases (hp.log v).1 hv with hin | hactive
  · exact (hp.peeled v hin).1
  · exact hp.active v hactive

/-- Lowering a degree keeps the shared part. -/
theorem Peeling.lower {s s' : Shared G} {b : Bitmap threads} (hp : Peeling k peeled (s, b))
    (hlog : s'.activated = s.activated) (hle : ∀ v, (s'.vtable v).degree ≤ (s.vtable v).degree) :
    Peeling k peeled (s', b) where
  fits := hp.fits
  bounded v := Nat.le_trans (hle v) (hp.bounded v)
  nodup := hlog ▸ hp.nodup
  log v := by
    rw [hlog]
    exact hp.log v
  peeled v hv := ⟨Nat.lt_of_le_of_lt (hle v) (hp.peeled v hv).1, (hp.peeled v hv).2⟩
  active v hv := Nat.lt_of_le_of_lt (hle v) (hp.active v hv)

/-- Activating a vertex below `k` for the first time keeps the shared part. -/
theorem Peeling.setBit {s : Shared G} {b : Bitmap threads} (hp : Peeling k peeled (s, b))
    (t : Fin threads) {w : G.Vertex} (hlow : (s.vtable w).degree < k) (hfresh : w ∉ s.activated) :
    Peeling k peeled ({ s with activated := w :: s.activated }, (b.setBit t w).1) := by
  have hsame : ∀ v : G.Vertex, (b.setBit t w).1.Active v ↔ v = w ∨ b.Active v := fun v => by
    rw [Bitmap.active_setBit, Fin.val_inj]
  refine ⟨hp.fits.setBit t w, hp.bounded, List.nodup_cons.2 ⟨hfresh, hp.nodup⟩, ?_, ?_, ?_⟩
  · intro v
    rw [List.mem_cons, hp.log v, hsame v]
    exact or_left_comm
  · intro v hv
    refine ⟨(hp.peeled v hv).1, fun hactive => ?_⟩
    rcases (hsame v).1 hactive with rfl | hactive
    · exact hfresh ((hp.log v).2 (Or.inl hv))
    · exact (hp.peeled v hv).2 hactive
  · intro v hv
    rcases (hsame v).1 hv with rfl | hactive
    · exact hlow
    · exact hp.active v hactive

/-- One step of a push keeps the shared invariant and its own assertion. -/
theorem own_step {p p' : Shared G × Bitmap threads} {l l' : Push G} (h : Acts k p l p' l')
    (hp : (discipline threads k peeled).Shared p) (hl : (discipline threads k peeled).Local p l) :
    (discipline threads k peeled).Shared p' ∧ (discipline threads k peeled).Local p' l' := by
  have hle := h.degree_le
  cases h with
  | @crossing s b w rest hk hpos =>
      refine ⟨Peeling.lower hp rfl hle, ?_⟩
      rintro x rfl
      refine ⟨?_, fun hmem => ?_⟩
      · rw [store_vtable, if_pos rfl]
        exact Nat.sub_lt hpos Nat.one_pos
      · exact absurd hk (Nat.ne_of_lt (Peeling.lt_of_activated hp hmem))
  | lowering hk hpos => exact ⟨Peeling.lower hp rfl hle, fun x hx => hx.elim⟩
  | @activate s b w rest t =>
      obtain ⟨hlow, hfresh⟩ := hl w rfl
      exact ⟨Peeling.setBit hp t hlow hfresh, fun x hx => hx.elim⟩

/-- Another push keeps what it knows about the vertex it claims. -/
theorem stable_step {p p' : Shared G × Bitmap threads} {l l' m : Push G} (h : Acts k p l p' l')
    (hapart : (discipline threads k peeled).Apart l m)
    (hm : (discipline threads k peeled).Local p m) :
    (discipline threads k peeled).Local p' m := by
  intro x hx
  obtain ⟨hlow, hfresh⟩ := hm x hx
  refine ⟨Nat.lt_of_le_of_lt (h.degree_le x) hlow, ?_⟩
  cases h with
  | @activate s b w rest t =>
      rw [List.mem_cons, not_or]
      exact ⟨fun heq => hapart x ⟨heq.symm, hx⟩, hfresh⟩
  | _ => exact hfresh

/-- A push comes to claim only a vertex nobody else claims. -/
theorem apart_step {p p' : Shared G × Bitmap threads} {l l' m : Push G} (h : Acts k p l p' l')
    (hm : (discipline threads k peeled).Local p m) (_ : (discipline threads k peeled).Apart l m) :
    (discipline threads k peeled).Apart l' m := by
  rintro x ⟨hl', hmx⟩
  cases h with
  | @crossing s b w rest hk hpos =>
      have hw : w = x := hl'
      subst hw
      exact absurd hk (Nat.ne_of_lt (hm w hmx).1)
  | _ => exact hl'

/-- One step of a push settles what the push owed. -/
theorem settle_step {p p' : Shared G × Bitmap threads} {l l' : Push G} (v : G.Vertex)
    (h : Acts k p l p' l')
    (hd : (discipline threads k peeled).Owes v p l ∨ (discipline threads k peeled).Paid v p) :
    (discipline threads k peeled).Owes v p' l' ∨ (discipline threads k peeled).Paid v p' := by
  rcases hd with hclaims | hpaid
  · cases h with
    | @activate s b w rest t =>
        have hw : w = v := hclaims
        exact Or.inr fun _ => Or.inr ((Bitmap.active_setBit b t w v).2 (Or.inl (by rw [hw])))
    | _ => exact hclaims.elim
  · by_cases hclaims : l'.Claims v
    · exact Or.inl hclaims
    · refine Or.inr fun hlow => ?_
      rcases hpaid ((h.lt_or_claims hlow).resolve_right hclaims) with hin | hactive
      · exact Or.inl hin
      · refine Or.inr ?_
        cases h with
        | @activate s b w rest t => exact (Bitmap.active_setBit b t w v).2 (Or.inr hactive)
        | _ => exact hactive

/-- The discipline is sound for the safe steps of `kcore_push`. -/
theorem discipline_sound : (discipline threads k peeled).Sound (Acts k) where
  symm _ _ h x hx := h x hx.symm
  apart _ _ _ _ _ hact _ _ hm hapart := apart_step hact hm hapart
  own _ _ _ _ hact hp hl := own_step hact hp hl
  stable _ _ _ _ _ hact _ _ hapart hm := stable_step hact hapart hm
  settle _ _ _ _ v hact _ _ hd := settle_step v hact hd
  keep _ _ _ _ _ _ _ _ _ _ _ howes := Or.inl howes

/-! ### The arc count -/

/-- The arcs to `v` from vertices outside `peeled`. -/
def arcsFrom (peeled : Finset G.Vertex) (v : G.Vertex) : Nat := ∑ u ∈ peeledᶜ, G.adjacency.arcs u v

/-- The arcs to `v` the running pushes still carry. -/
def carried (pool : List (Push G)) (v : G.Vertex) : Nat :=
  (pool.map fun l => l.todo.count v).sum

/-- The degrees count the arcs from unpeeled vertices and the arcs under way. -/
def Balanced (peeled : Finset G.Vertex) (s : Shared G) (pool : List (Push G)) : Prop :=
  ∀ v, (s.vtable v).degree = arcsFrom peeled v + carried pool v

theorem count_le_carried {pool : List (Push G)} {l : Push G} (hl : l ∈ pool) (v : G.Vertex) :
    l.todo.count v ≤ carried pool v :=
  List.single_le_sum (fun _ _ => Nat.zero_le _) _ (List.mem_map_of_mem hl)

/-- A step keeps the balance. -/
theorem Balanced.step {p p' : Shared G × Bitmap threads} {pool pool' : List (Push G)}
    (hstep : TaskPool.Step (Acts k) (p, pool) (p', pool')) (h : Balanced peeled p.1 pool) :
    Balanced peeled p'.1 pool' := by
  intro v
  obtain ⟨l, hl, l', hact, hsum⟩ := hstep.sum_map fun l : Push G => l.todo.count v
  have hbalance := hact.balance v
  have hcount := count_le_carried hl v
  have hv := h v
  simp only [carried] at hcount hv ⊢
  omega

/-! ### The loop -/

/-- At the loop head: `peeled` has been pushed, the frontier holds the other vertices below `k`, and
    every sturdy set is still whole. -/
structure AtHead (k : Nat) (s : Shared G) (frontier next_frontier : Bitmap threads)
    (peeled : Finset G.Vertex) : Prop where
  peeling : Peeling k peeled (s, frontier)
  next_fits : next_frontier.Fits G
  next_empty : ∀ v : G.Vertex, ¬ next_frontier.Active v
  complete : ∀ v, (s.vtable v).degree < k → v ∈ peeled ∨ frontier.Active v
  balanced : Balanced peeled s []
  sturdy : ∀ A, G.adjacency.Sturdy k A → ∀ v ∈ A, k ≤ (s.vtable v).degree

/-- While pushes run: `peeled` is what was below `k` when the round began. -/
structure AtPush (k : Nat) (p : Shared G × Bitmap threads) (pool : List (Push G))
    (peeled : Finset G.Vertex) : Prop where
  holds : (discipline threads k peeled).Holds p pool
  balanced : Balanced peeled p.1 pool
  sturdy : ∀ A, G.adjacency.Sturdy k A → Disjoint A peeled

def loopInvariant (threads : Nat) (G : Graph) (k : Nat) :
    PushKernel.LoopInvariant threads (Shared G) (Push G) where
  Head s frontier next_frontier := ∃ peeled, AtHead k s frontier next_frontier peeled
  Running frontier p pool := frontier.Fits G ∧ ∃ peeled, AtPush k p pool peeled

/-- The pushes of a round carry the arcs out of the frontier. -/
theorem carried_tasks (frontier : Bitmap threads) (v : G.Vertex) :
    carried ((kernel threads G k).tasks frontier) v =
      ∑ u ∈ Finset.univ.filter (fun u : G.Vertex => frontier.Active u), G.adjacency.arcs u v := by
  have hfilter : ∀ us : List G.Vertex, us.Nodup →
      ((us.filter fun u : G.Vertex => frontier.Active u && !(G.out u).isEmpty).map
        fun u => (G.out u).count v).sum =
      ∑ u ∈ us.toFinset.filter (fun u : G.Vertex => frontier.Active u), G.adjacency.arcs u v := by
    intro us hnodup
    induction us with
    | nil => rfl
    | cons u us ih =>
        obtain ⟨hnew, hrest⟩ := List.nodup_cons.1 hnodup
        rw [List.toFinset_cons, Finset.filter_insert]
        by_cases hactive : frontier.Active u
        · rw [if_pos hactive, Finset.sum_insert (by simp [hnew]), ← ih hrest]
          cases hout : G.out u with
          | nil => simp [hout, Multigraph.arcs]
          | cons w ws => simp [hactive, hout, Multigraph.arcs]
        · rw [if_neg hactive, ← ih hrest]
          simp [hactive]
  have htasks := hfilter (List.finRange G.num_vertices) (List.nodup_finRange _)
  rw [List.toFinset_finRange] at htasks
  rw [← htasks]
  simp [carried, PushKernel.tasks, Graph.calls, kernel, Push.todo, Function.comp_def]

/-- The vertices below `k`. -/
def belowK (k : Nat) (s : Shared G) : Finset G.Vertex :=
  Finset.univ.filter fun v => (s.vtable v).degree < k

theorem mem_belowK {s : Shared G} {v : G.Vertex} : v ∈ belowK k s ↔ (s.vtable v).degree < k := by
  simp [belowK]

/-- Entering a round: the arcs out of the frontier pass from the unpeeled side to the pushes. -/
theorem enter_kept {s : Shared G} {frontier next_frontier : Bitmap threads}
    (h : AtHead k s frontier next_frontier peeled) :
    AtPush k (s, next_frontier) ((kernel threads G k).tasks frontier) (belowK k s) := by
  have hpush : ∀ l ∈ (kernel threads G k).tasks frontier, ∀ x, ¬ l.Claims x := by
    intro l hl x
    obtain ⟨v, -, -, rfl⟩ := PushKernel.mem_tasks.1 hl
    exact id
  refine ⟨⟨⟨h.next_fits, h.peeling.bounded, h.peeling.nodup, ?_, ?_, ?_⟩, ?_, ?_, ?_⟩, ?_, ?_⟩
  · intro v
    rw [mem_belowK]
    constructor
    · exact fun hv => Or.inl (h.peeling.lt_of_activated hv)
    · rintro (hv | hv)
      · exact (h.peeling.log v).2 (h.complete v hv)
      · exact absurd hv (h.next_empty v)
  · exact fun v hv => ⟨mem_belowK.1 hv, h.next_empty v⟩
  · exact fun v hv => absurd hv (h.next_empty v)
  · exact fun l hl x hx => absurd hx (hpush l hl x)
  · exact List.pairwise_of_forall_mem_list fun l hl _ _ x hx => hpush l hl x hx.1
  · exact fun v => Or.inr fun hlow => Or.inl (mem_belowK.2 hlow)
  · intro v
    have hsplit : peeledᶜ = (belowK k s)ᶜ ∪
        Finset.univ.filter (fun u : G.Vertex => frontier.Active u) := by
      ext u
      simp only [Finset.mem_compl, mem_belowK, Finset.mem_union, Finset.mem_filter,
        Finset.mem_univ, true_and]
      constructor
      · intro hout
        by_cases hlow : (s.vtable u).degree < k
        · exact Or.inr ((h.complete u hlow).resolve_left hout)
        · exact Or.inl hlow
      · rintro (hhigh | hactive) hin
        · exact hhigh (h.peeling.peeled u hin).1
        · exact (h.peeling.peeled u hin).2 hactive
    have hdisjoint : Disjoint (belowK k s)ᶜ
        (Finset.univ.filter fun u : G.Vertex => frontier.Active u) := by
      rw [Finset.disjoint_left]
      intro u hhigh hactive
      rw [Finset.mem_compl, mem_belowK] at hhigh
      exact hhigh (h.peeling.active u (Finset.mem_filter.1 hactive).2)
    have hbalanced := h.balanced v
    rw [arcsFrom, hsplit, Finset.sum_union hdisjoint, ← carried_tasks (k := k)] at hbalanced
    exact hbalanced
  · intro A hA
    rw [Finset.disjoint_left]
    intro v hv hlow
    exact absurd (h.sturdy A hA v hv) (Nat.not_le.2 (mem_belowK.1 hlow))

/-- A running push is about to decrement a positive degree. -/
theorem AtPush.safe {p : Shared G × Bitmap threads} {pool : List (Push G)}
    (h : AtPush k p pool peeled) {l : Push G} (hl : l ∈ pool) : l.Safe p.1 := by
  cases l with
  | subtract edges =>
      cases edges with
      | nil => trivial
      | cons w rest =>
          refine ⟨?_, Nat.lt_of_le_of_lt (h.holds.shared.bounded w) (G.degree_lt w)⟩
          have hcount := count_le_carried hl w
          rw [Push.todo, List.count_cons_self] at hcount
          have hbalanced := h.balanced w
          omega
  | activate w rest => trivial

/-- One step of a push keeps the invariant of the round. -/
theorem push_kept {p p' : Shared G × Bitmap threads} {pool pool' : List (Push G)}
    (h : AtPush k p pool peeled)
    (hstep : TaskPool.Step (kernel threads G k).Act (p, pool) (p', pool')) :
    AtPush k p' pool' peeled := by
  have hacts : TaskPool.Step (Acts k) (p, pool) (p', pool') :=
    hstep.strengthen fun l hl l' hact => acts_of_act hact (h.safe hl)
  exact ⟨discipline_sound.step hacts h.holds, h.balanced.step hacts, h.sturdy⟩

/-- On a symmetric graph a sturdy set none of whose members is peeled keeps its degrees. -/
theorem sturdy_le_arcsFrom (hsymm : G.adjacency.Symmetric) {A : Finset G.Vertex}
    (hA : G.adjacency.Sturdy k A) (hdisjoint : Disjoint A peeled) {v : G.Vertex} (hv : v ∈ A) :
    k ≤ arcsFrom peeled v := by
  have hsubset : A ⊆ peeledᶜ := fun u hu => by
    rw [Finset.mem_compl]
    exact Finset.disjoint_left.1 hdisjoint hu
  calc k ≤ ∑ u ∈ A, G.adjacency.arcs v u := hA v hv
    _ = ∑ u ∈ A, G.adjacency.arcs u v := Finset.sum_congr rfl fun u _ => hsymm v u
    _ ≤ arcsFrom peeled v := Finset.sum_le_sum_of_subset hsubset

/-- Leaving a round: no push carries an arc any more. -/
theorem leave_kept (hsymm : G.adjacency.Symmetric) {s : Shared G}
    {frontier next_frontier : Bitmap threads} {pool : List (Push G)} (hfits : frontier.Fits G)
    (h : AtPush k (s, next_frontier) pool peeled) (hall : ∀ l ∈ pool, l.returned = true) :
    AtHead k s next_frontier frontier.clear peeled := by
  have hdone : ∀ l ∈ pool, l = .subtract [] := by
    intro l hl
    have hret := hall l hl
    cases l with
    | subtract edges =>
        cases edges with
        | nil => rfl
        | cons w rest => cases hret
    | activate w rest => cases hret
  have hbalanced : Balanced peeled s [] := by
    intro v
    have hzero : carried pool v = 0 := by
      refine List.sum_eq_zero fun n hn => ?_
      obtain ⟨l, hl, rfl⟩ := List.mem_map.1 hn
      rw [hdone l hl]
      rfl
    have hv := h.balanced v
    rw [hzero] at hv
    exact hv
  refine ⟨h.holds.shared, hfits.clear, hfits.not_active_clear, ?_, hbalanced, ?_⟩
  · intro v hlow
    rcases h.holds.covered v with ⟨l, hl, howes⟩ | hpaid
    · rw [hdone l hl] at howes
      exact howes.elim
    · exact hpaid hlow
  · intro A hA v hv
    have hdegree : (s.vtable v).degree = arcsFrom peeled v := hbalanced v
    rw [hdegree]
    exact sturdy_le_arcsFrom hsymm hA (h.sturdy A hA) hv

theorem loopInvariant_kept (hsymm : G.adjacency.Symmetric) :
    PushKernel.Kept (kernel threads G k) (loopInvariant threads G k) where
  enter _ _ _ h _ := by
    obtain ⟨peeled, h⟩ := h
    exact ⟨h.peeling.fits, _, enter_kept h⟩
  push _ _ _ _ _ h hpool := by
    obtain ⟨hfits, peeled, h⟩ := h
    exact ⟨hfits, peeled, push_kept h hpool⟩
  leave _ _ _ _ h hall := by
    obtain ⟨hfits, peeled, h⟩ := h
    exact ⟨peeled, leave_kept hsymm hfits h hall⟩

/-- The seeding loop activates the vertices it is given. -/
theorem seedFrontier_spec (worker : G.Vertex → Fin threads) (order : List G.Vertex) :
    (seedFrontier G worker order).Fits G ∧
      ∀ v : G.Vertex, (seedFrontier G worker order).Active v ↔ v ∈ order := by
  induction order with
  | nil =>
      exact ⟨.fresh G, fun v => ⟨fun hv => absurd hv (Bitmap.not_active_fresh _ _),
        fun hv => absurd hv List.not_mem_nil⟩⟩
  | cons w order ih =>
      refine ⟨ih.1.setBit (worker w) w, fun v => ?_⟩
      have hset := Bitmap.active_setBit (seedFrontier G worker order) (worker w) w v
      rw [Fin.val_inj, ih.2 v] at hset
      rw [List.mem_cons]
      exact hset

/-- `operator()` reaches the loop with nothing peeled and every degree an in-degree. -/
theorem atHead_initial (hsymm : G.adjacency.Symmetric) (worker : G.Vertex → Fin threads)
    {order : List G.Vertex} (horder : order.Perm (seeds G k)) :
    AtHead k (initial G worker order).shared (initial G worker order).frontier
      (initial G worker order).next_frontier ∅ := by
  have hmem : ∀ v, v ∈ order ↔ (G.out v).length < k := fun v => by
    rw [horder.mem_iff]
    simp [seeds]
  obtain ⟨hfits, hactive⟩ := seedFrontier_spec worker order
  have hbalanced : Balanced ∅ (initial G worker order).shared [] := by
    intro v
    calc (G.out v).length = ∑ u, G.adjacency.arcs v u := Multigraph.length_out_eq_sum v
      _ = ∑ u, G.adjacency.arcs u v := Finset.sum_congr rfl fun u _ => hsymm v u
      _ = arcsFrom ∅ v + carried [] v := by simp [arcsFrom, carried]
  refine ⟨⟨hfits, fun v => Nat.le_refl _, ?_, ?_, ?_, ?_⟩, .fresh G, ?_, ?_, hbalanced, ?_⟩
  · exact horder.nodup_iff.2 ((List.nodup_finRange _).filter _)
  · exact fun v => ⟨fun hv => Or.inr ((hactive v).2 hv),
      fun hv => (hactive v).1 (hv.resolve_left (Finset.notMem_empty v))⟩
  · exact fun v hv => absurd hv (Finset.notMem_empty v)
  · exact fun v hv => (hmem v).1 ((hactive v).1 hv)
  · exact fun v => Bitmap.not_active_fresh _ _
  · exact fun v hlow => Or.inr ((hactive v).2 ((hmem v).2 hlow))
  · intro A hA v hv
    have hdegree : ((initial G worker order).shared.vtable v).degree = arcsFrom ∅ v := hbalanced v
    rw [hdegree]
    exact sturdy_le_arcsFrom hsymm hA (Finset.disjoint_empty_right A) hv

/-! ### Termination -/

/-- Steps a push has left. -/
def Push.remaining : Push G → Nat
  | .subtract edges => 2 * edges.length
  | .activate _ rest => 2 * rest.length + 1

/-- Lowering one degree lowers the sum of the degrees. -/
theorem sum_store_lt {s : Shared G} {w : G.Vertex} {x : KcoreVertex}
    (h : x.degree < (s.vtable w).degree) :
    ∑ v, ((s.store w x).vtable v).degree < ∑ v, (s.vtable v).degree := by
  apply Graph.sum_lt (w := w)
  · rw [store_vtable, if_pos rfl]
    exact h
  · intro v hv
    rw [store_vtable, if_neg hv]

/-- An atomic step lowers a degree, or is the activation a push owes. -/
theorem Acts.descend {p p' : Shared G × Bitmap threads} {l l' : Push G} (h : Acts k p l p' l') :
    ∑ v, (p'.1.vtable v).degree < ∑ v, (p.1.vtable v).degree ∨
      p'.1.vtable = p.1.vtable ∧ l'.remaining < l.remaining ∧ ∃ w, l.Claims w := by
  cases h with
  | @crossing s b w rest hk hpos =>
      refine Or.inl (sum_store_lt ?_)
      rw [hk]
      exact Nat.sub_lt hpos Nat.one_pos
  | lowering hk hpos => exact Or.inl (sum_store_lt (Nat.sub_lt hpos Nat.one_pos))
  | @activate s b w rest t => exact Or.inr ⟨rfl, Nat.lt_succ_self _, w, rfl⟩

def termination (helpers : Nat) (G : Graph) (k : Nat) :
    PushKernel.Termination (kernel (helpers + 1) G k) (loopInvariant (helpers + 1) G k) where
  potential s := ∑ v, (s.vtable v).degree
  fuel _ l := l.remaining
  Won l := ∃ w, l.Claims w
  begin_potential _ := rfl
  push_not_won _ _ := fun ⟨_, hc⟩ => hc
  returned_not_won l hret := by
    cases l with
    | subtract edges => exact fun ⟨_, hc⟩ => hc
    | activate w rest => cases hret
  next_empty _ _ _ h := by
    obtain ⟨peeled, h⟩ := h
    exact h.next_fits.isEmpty_iff.2 h.next_empty
  descend _ _ _ _ _ _ h hl hact := by
    obtain ⟨-, peeled, h⟩ := h
    rcases (acts_of_act hact (h.safe hl)).descend with hlt | ⟨heq, hless, hclaims⟩
    · exact Or.inl hlt
    · refine Or.inr ⟨?_, hless, fun _ => Nat.le_refl _, fun _ => hclaims⟩
      simp only [heq]
  move _ p _ _ _ _ hrun := exists_act p hrun

/-! ### Correctness -/

/-- With an empty frontier exactly the vertices below `k` are peeled, and the others are the
    core. -/
theorem isGreatest_of_stopped (hsymm : G.adjacency.Symmetric) {s : Shared G}
    {frontier next_frontier : Bitmap threads} (h : AtHead k s frontier next_frontier peeled)
    (hempty : frontier.isEmpty = true) :
    IsGreatest {A : Finset G.Vertex | G.adjacency.Sturdy k A}
      (Finset.univ.filter fun v => k ≤ (s.vtable v).degree) := by
  have hpeeled : peeledᶜ = Finset.univ.filter fun v => k ≤ (s.vtable v).degree := by
    ext v
    rw [Finset.mem_compl, Finset.mem_filter, ← Nat.not_lt]
    refine ⟨fun hout => ⟨Finset.mem_univ v, fun hlow => ?_⟩,
      fun hhigh hin => hhigh.2 (h.peeling.peeled v hin).1⟩
    exact hout ((h.complete v hlow).resolve_right (h.peeling.fits.isEmpty_iff.1 hempty v))
  constructor
  · intro v hv
    rw [← hpeeled]
    calc k ≤ (s.vtable v).degree := (Finset.mem_filter.1 hv).2
      _ = ∑ u ∈ peeledᶜ, G.adjacency.arcs u v := h.balanced v
      _ = ∑ u ∈ peeledᶜ, G.adjacency.arcs v u := Finset.sum_congr rfl fun u _ => hsymm u v
  · intro A hA v hv
    exact Finset.mem_filter.2 ⟨Finset.mem_univ v, h.sturdy A hA v hv⟩

/-- The members of the core with an id of `[lo, hi)`. -/
def membersIn (k : Nat) (vtable : G.Vertex → KcoreVertex) (lo hi : Nat) : Finset G.Vertex :=
  Finset.univ.filter fun v => (lo ≤ v.val ∧ v.val < hi) ∧ k ≤ (vtable v).degree

/-- Adjacent ranges have no member in common. -/
theorem card_membersIn_add (vtable : G.Vertex → KcoreVertex) {lo mid hi : Nat} (hlo : lo ≤ mid)
    (hhi : mid ≤ hi) :
    (membersIn k vtable lo hi).card =
      (membersIn k vtable lo mid).card + (membersIn k vtable mid hi).card := by
  rw [← Finset.card_union_of_disjoint]
  · congr 1
    ext v
    simp only [membersIn, Finset.mem_filter, Finset.mem_univ, true_and, Finset.mem_union]
    constructor
    · rintro ⟨⟨hl, hh⟩, hk⟩
      rcases Nat.lt_or_ge v.val mid with hlt | hge
      · exact Or.inl ⟨⟨hl, hlt⟩, hk⟩
      · exact Or.inr ⟨⟨hge, hh⟩, hk⟩
    · rintro (⟨⟨hl, hh⟩, hk⟩ | ⟨⟨hl, hh⟩, hk⟩)
      · exact ⟨⟨hl, Nat.lt_of_lt_of_le hh hhi⟩, hk⟩
      · exact ⟨⟨Nat.le_trans hlo hl, hh⟩, hk⟩
  · rw [Finset.disjoint_left]
    intro v hleft hright
    have hlt := (Finset.mem_filter.1 hleft).2.1.2
    have hge := (Finset.mem_filter.1 hright).2.1.1
    omega

/-- The loop body counts the members of its sub-range, modulo 2^32. -/
theorem countMembers_eq (vtable : G.Vertex → KcoreVertex) (first last init : Nat)
    (hinit : init < 2 ^ 32) :
    countMembers vtable k first last init =
      (init + (membersIn k vtable first last).card) % 2 ^ 32 := by
  have hfold : ∀ (us : List G.Vertex) (init : Nat), us.Nodup → init < 2 ^ 32 →
      us.foldl (fun init i => if k ≤ (vtable i).degree then (init + 1) % 2 ^ 32 else init) init =
        (init + (us.toFinset.filter fun v => k ≤ (vtable v).degree).card) % 2 ^ 32 := by
    intro us
    induction us with
    | nil =>
        intro init _ hlt
        exact (Nat.mod_eq_of_lt hlt).symm
    | cons u us ih =>
        intro init hnodup hlt
        obtain ⟨hnew, hrest⟩ := List.nodup_cons.1 hnodup
        rw [List.foldl_cons, List.toFinset_cons, Finset.filter_insert]
        by_cases hk : k ≤ (vtable u).degree
        · rw [if_pos hk, if_pos hk, ih _ hrest (Nat.mod_lt _ (by decide)),
            Finset.card_insert_of_notMem (by simp [hnew])]
          omega
        · rw [if_neg hk, if_neg hk, ih _ hrest hlt]
  rw [countMembers, hfold _ init ((List.nodup_finRange _).filter _) hinit]
  congr 3
  ext v
  simp [membersIn]

/-- Whatever tree of sub-ranges is reduced, the result counts the members. -/
theorem parallelReduce_eq {vtable : G.Vertex → KcoreVertex} {lo hi size : Nat}
    (h : ParallelReduce 0 (countMembers vtable k) (fun a b => (a + b) % 2 ^ 32) lo hi size) :
    lo ≤ hi ∧ size = (membersIn k vtable lo hi).card := by
  induction h with
  | identity lo =>
      refine ⟨Nat.le_refl _, ?_⟩
      have hnone : membersIn k vtable lo lo = ∅ := by
        refine Finset.filter_eq_empty_iff.2 fun v _ hv => ?_
        omega
      rw [hnone, Finset.card_empty]
  | @range lo mid hi x hmid _ ih =>
      obtain ⟨hlo, rfl⟩ := ih
      refine ⟨Nat.le_trans hlo hmid, ?_⟩
      rw [countMembers_eq vtable _ _ _ (Graph.card_lt _), ← card_membersIn_add vtable hlo hmid]
      exact Nat.mod_eq_of_lt (Graph.card_lt _)
  | @join lo mid hi x y _ _ ihx ihy =>
      obtain ⟨hlo, rfl⟩ := ihx
      obtain ⟨hhi, rfl⟩ := ihy
      refine ⟨Nat.le_trans hlo hhi, ?_⟩
      rw [← card_membersIn_add vtable hlo hhi]
      exact Nat.mod_eq_of_lt (Graph.card_lt _)

/-- `kth_core_membership` returns the number of vertices whose degree is at least `k`. -/
theorem kthCoreMembership_eq {vtable : G.Vertex → KcoreVertex} {size : Nat}
    (h : KthCoreMembership vtable k size) :
    size = (Finset.univ.filter fun v => k ≤ (vtable v).degree).card := by
  rw [(parallelReduce_eq h).2]
  congr 1
  ext v
  simp [membersIn]

/-- One leaf is a tree. -/
theorem exists_kthCoreMembership (vtable : G.Vertex → KcoreVertex) (k : Nat) :
    ∃ size, KthCoreMembership vtable k size :=
  ⟨_, .range (Nat.zero_le _) (.identity 0)⟩

theorem kthCoreMembership_iff {vtable : G.Vertex → KcoreVertex} {size : Nat} :
    KthCoreMembership vtable k size ↔
    size = (Finset.univ.filter fun v => k ≤ (vtable v).degree).card := by
  refine ⟨kthCoreMembership_eq, fun hsize => ?_⟩
  obtain ⟨size', h⟩ := exists_kthCoreMembership vtable k
  exact (hsize.trans (kthCoreMembership_eq h).symm) ▸ h

/-- On a symmetric multigraph, for every interleaving of the pushes, k-core peeling terminates;
    throughout the run no vertex is activated twice and no degree is decremented below zero; at the
    end the vertices of degree at least `k` are the largest set whose members have `k` arcs to
    members, and `kth_core_membership` returns its size. -/
theorem kcore_peels_to_core (helpers : Nat) (G : Graph) (k : Nat) (hsymm : G.adjacency.Symmetric) :
    (system helpers G k).Terminates ∧
      (∀ s, (system helpers G k).Reachable s → s.shared.activated.Nodup ∧
        ∀ pool, s.control = .pushing pool → ∀ w rest, Push.subtract (w :: rest) ∈ pool →
          0 < (s.shared.vtable w).degree) ∧
      ∀ s, (system helpers G k).Reachable s → s.control = .stopped →
        IsGreatest {A : Finset G.Vertex | G.adjacency.Sturdy k A}
          (Finset.univ.filter fun v => k ≤ (s.shared.vtable v).degree) ∧
        ∀ size, KthCoreMembership s.shared.vtable k size ↔
          size = (Finset.univ.filter fun v => k ≤ (s.shared.vtable v).degree).card := by
  have hinit : ∀ s, (∃ worker order, order.Perm (seeds G k) ∧ s = initial G worker order) →
      (loopInvariant (helpers + 1) G k).At s := by
    rintro s ⟨worker, order, horder, rfl⟩
    exact ⟨∅, atHead_initial hsymm worker horder⟩
  have hkept : PushKernel.Kept (kernel (helpers + 1) G k) (loopInvariant (helpers + 1) G k) :=
    loopInvariant_kept hsymm
  refine ⟨(termination helpers G k).terminates hkept hinit, ?_, ?_⟩
  · rintro ⟨shared, frontier, next_frontier, control⟩ hs
    have hat := hkept.reachable hinit hs
    cases control with
    | head =>
        obtain ⟨peeled, h⟩ := hat
        exact ⟨h.peeling.nodup, fun _ hctl => by cases hctl⟩
    | pushing pool =>
        obtain ⟨-, peeled, h⟩ := hat
        refine ⟨h.holds.shared.nodup, ?_⟩
        rintro _ ⟨⟩ w rest hl
        exact (h.safe hl).1
    | stopped =>
        obtain ⟨⟨peeled, h⟩, -⟩ := hat
        exact ⟨h.peeling.nodup, fun _ hctl => by cases hctl⟩
  · rintro ⟨shared, frontier, next_frontier, control⟩ hs rfl
    obtain ⟨⟨peeled, h⟩, hempty⟩ := hkept.reachable hinit hs
    exact ⟨isGreatest_of_stopped hsymm h hempty, fun _ => kthCoreMembership_iff⟩

/-- A triangle with a tail. -/
def pan : Graph where
  num_vertices := 4
  adjacency := ⟨fun v => ![[1, 2], [0, 2], [0, 1, 3], [2]] v⟩
  num_vertices_lt := by decide
  degree_lt := by decide

theorem pan_symmetric : pan.adjacency.Symmetric := by
  simp only [Multigraph.Symmetric, Multigraph.arcs, pan]
  decide

/-- Only the triangle is left when every vertex must have two neighbors. -/
theorem pan_core : IsGreatest {A : Finset pan.Vertex | pan.adjacency.Sturdy 2 A}
    (Finset.univ.filter fun v => v.val < 3) := by
  have htriangle : ∀ v : Fin 4, v.val < 3 →
      2 ≤ ∑ u ∈ Finset.univ.filter (fun u : Fin 4 => u.val < 3), pan.adjacency.arcs v u := by decide
  have htail : ∀ v : Fin 4, ¬ v.val < 3 → ∑ u, pan.adjacency.arcs v u = 1 := by decide
  constructor
  · intro v hv
    exact htriangle v (Finset.mem_filter.1 hv).2
  · intro A hA v hv
    refine Finset.mem_filter.2 ⟨Finset.mem_univ v, ?_⟩
    by_contra hlast
    have htwo : 2 ≤ ∑ u ∈ A, pan.adjacency.arcs v u := hA v hv
    have hsum : ∑ u ∈ A, pan.adjacency.arcs v u ≤ ∑ u, pan.adjacency.arcs v u :=
      Finset.sum_le_sum_of_subset (Finset.subset_univ A)
    have hone := htail v hlast
    omega

/-- The triangle with a tail is peeled down to the triangle, and its size is printed. -/
theorem kcore_peels_to_core_pan :
    ∃ s, (system 1 pan 2).Reachable s ∧ s.control = .stopped ∧
      (∀ v, 2 ≤ (s.shared.vtable v).degree ↔ v.val < 3) ∧
      KthCoreMembership s.shared.vtable 2 3 := by
  obtain ⟨hends, -, hstops⟩ := kcore_peels_to_core 1 pan 2 pan_symmetric
  obtain ⟨s, hs, hstopped⟩ := hends.exists_final ⟨0, seeds pan 2, List.Perm.refl _, rfl⟩
  obtain ⟨hgreatest, hsize⟩ := hstops s hs hstopped
  have hcore := hgreatest.unique pan_core
  refine ⟨s, hs, hstopped, fun v => ?_, (hsize 3).2 ?_⟩
  · have hv := Finset.ext_iff.1 hcore v
    rwa [Finset.mem_filter, Finset.mem_filter, and_iff_right (Finset.mem_univ v),
      and_iff_right (Finset.mem_univ v)] at hv
  · rw [hcore]
    decide

end FamGraph.Kcore
