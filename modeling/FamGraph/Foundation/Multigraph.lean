/-
Module: FamGraph.Foundation.Multigraph
Layer: Foundation
Purpose: Directed multigraphs given by ordered out-neighbour lists, and the notions a graph kernel
  is specified with: walks and the vertices at a given distance, reachability, the arcs turned
  around, arc counts and the k-core, the greedy independent set of a linear order on the vertices
  and the descending paths that say how far the greedy rule looks back.
Trusted boundary: human-reviewed specification of distance, reachability, k-core and greedy set
Main exports: Multigraph, Walk, Level, Reaches, Transposes, arcs, Symmetric, Sturdy, IsGreedy,
  Descent, level_lt_card, isGreedy_unique, exists_isGreedy
-/
import Mathlib.Algebra.BigOperators.Group.Finset.Basic
import Mathlib.Algebra.Order.BigOperators.Group.Finset
import Mathlib.Data.Fintype.Card
import Mathlib.Order.Bounds.Basic
import Mathlib.Data.Nat.Find
import Mathlib.Data.List.Count

/-- Parallel arcs are repeated entries of a list, a self-loop is a vertex in its own list. -/
structure Multigraph (V : Type*) where
  out : V → List V

namespace Multigraph

variable {V : Type*} (G : Multigraph V)

/-! ### Walks and distance -/

/-- A walk of `n` arcs from `s`. -/
inductive Walk (s : V) : Nat → V → Prop where
  | nil : Walk s 0 s
  | snoc {n u v} : Walk s n u → v ∈ G.out u → Walk s (n + 1) v

/-- `v` is at distance `n` from `s`: a shortest walk has `n` arcs. -/
def Level (s : V) (n : Nat) (v : V) : Prop := IsLeast {k | G.Walk s k v} n

/-- Some walk leads from `s` to `v`. -/
def Reaches (s v : V) : Prop := ∃ n, G.Walk s n v

variable {G} {s u v w : V} {m n : Nat}

theorem Reaches.refl (s : V) : G.Reaches s s := ⟨0, .nil⟩

theorem Reaches.tail (h : G.Reaches s u) (harc : v ∈ G.out u) : G.Reaches s v := by
  obtain ⟨n, hwalk⟩ := h
  exact ⟨n + 1, hwalk.snoc harc⟩

theorem Reaches.trans (huv : G.Reaches s u) (hvw : G.Reaches u v) : G.Reaches s v := by
  obtain ⟨n, hwalk⟩ := hvw
  induction hwalk with
  | nil => exact huv
  | snoc _ harc ih => exact ih.tail harc

theorem walk_zero_iff : G.Walk s 0 v ↔ v = s := by
  constructor
  · intro h
    cases h
    rfl
  · rintro rfl
    exact .nil

theorem level_zero_iff : G.Level s 0 v ↔ v = s := by
  constructor
  · intro h
    exact walk_zero_iff.1 h.1
  · rintro rfl
    exact ⟨.nil, fun _ _ => Nat.zero_le _⟩

theorem Level.unique (h₁ : G.Level s m v) (h₂ : G.Level s n v) : m = n :=
  IsLeast.unique h₁ h₂

theorem Level.reaches (h : G.Level s n v) : G.Reaches s v := ⟨n, h.1⟩

/-- A walk of `n` arcs bounds the distance. -/
theorem exists_level_le (h : G.Walk s n v) : ∃ m ≤ n, G.Level s m v := by
  classical
  have hex : ∃ k, G.Walk s k v := ⟨n, h⟩
  exact ⟨Nat.find hex, Nat.find_min' hex h, Nat.find_spec hex, fun k hk => Nat.find_min' hex hk⟩

/-- An arc leads at most one level further. -/
theorem Level.arc (h : G.Level s n u) (harc : v ∈ G.out u) : ∃ m ≤ n + 1, G.Level s m v :=
  exists_level_le (h.1.snoc harc)

/-- A vertex at distance `n + 1` is entered from distance `n`. -/
theorem Level.pred (h : G.Level s (n + 1) v) : ∃ u, G.Level s n u ∧ v ∈ G.out u := by
  obtain ⟨hwalk, hleast⟩ := h
  cases hwalk with
  | @snoc _ u _ hu harc =>
      obtain ⟨m, hmn, hm⟩ := exists_level_le hu
      have hback : n + 1 ≤ m + 1 := hleast (hm.1.snoc harc)
      have hmeq : m = n := by omega
      subst hmeq
      exact ⟨u, hm, harc⟩

/-- No level below an occupied one is empty. -/
theorem Level.exists_of_le (h : G.Level s n v) (hmn : m ≤ n) : ∃ u, G.Level s m u := by
  induction n generalizing v with
  | zero => exact ⟨v, by rwa [Nat.le_zero.1 hmn]⟩
  | succ n ih =>
      rcases Nat.lt_or_eq_of_le hmn with hlt | rfl
      · obtain ⟨u, hu, -⟩ := h.pred
        exact ih hu (by omega)
      · exact ⟨v, h⟩

/-- Levels are disjoint and none below an occupied one is empty, so distances stay below the number
    of vertices. -/
theorem level_lt_card [Fintype V] (h : G.Level s n v) : n < Fintype.card V := by
  choose f hf using fun i : Fin (n + 1) => h.exists_of_le (Nat.lt_succ_iff.1 i.isLt)
  have hinj : Function.Injective f := by
    intro i j hij
    have hj : G.Level s j (f i) := hij ▸ hf j
    exact Fin.ext ((hf i).unique hj)
  have hcard := Fintype.card_le_of_injective f hinj
  rw [Fintype.card_fin] at hcard
  omega

/-- If no arc leads upwards in a labelling, the label of a reached vertex is at most the label of
    the vertex it is reached from. -/
theorem Reaches.label_le (label : V → Nat) (hdown : ∀ u v, v ∈ G.out u → label v ≤ label u)
    (h : G.Reaches s v) : label v ≤ label s := by
  obtain ⟨n, hwalk⟩ := h
  induction hwalk with
  | nil => exact Nat.le_refl _
  | snoc _ harc ih => exact Nat.le_trans (hdown _ _ harc) ih

/-! ### Turning the arcs around -/

section Transposes

variable {W : Type*} {H : Multigraph W} {f : V ≃ W}

/-- A walk may be given an arc in front. -/
theorem Walk.cons (harc : u ∈ G.out s) (h : G.Walk u n v) : G.Walk s (n + 1) v := by
  induction h with
  | nil => exact Walk.nil.snoc harc
  | snoc _ hlast ih => exact ih.snoc hlast

variable (G H f) in
/-- `H` is `G` with all arcs turned around, and the vertices named by `f`. -/
def Transposes : Prop := ∀ u v, f u ∈ H.out (f v) ↔ v ∈ G.out u

theorem Transposes.symm (h : G.Transposes H f) : H.Transposes G f.symm := by
  intro x y
  have harc := h (f.symm y) (f.symm x)
  rw [f.apply_symm_apply, f.apply_symm_apply] at harc
  exact harc.symm

theorem Transposes.walk (h : G.Transposes H f) (hwalk : G.Walk u n v) : H.Walk (f v) n (f u) := by
  induction hwalk with
  | nil => exact .nil
  | snoc _ harc ih => exact ih.cons ((h _ _).2 harc)

/-- Distances are those of the other direction. -/
theorem Transposes.level (h : G.Transposes H f) (hlevel : G.Level u n v) :
    H.Level (f v) n (f u) := by
  constructor
  · exact h.walk hlevel.1
  · intro k hk
    have hback := h.symm.walk hk
    rw [f.symm_apply_apply, f.symm_apply_apply] at hback
    exact hlevel.2 hback

theorem Transposes.level_iff (h : G.Transposes H f) : H.Level (f v) n (f u) ↔ G.Level u n v := by
  constructor
  · intro hlevel
    have hback := h.symm.level hlevel
    rwa [f.symm_apply_apply, f.symm_apply_apply] at hback
  · exact h.level

end Transposes

/-! ### Arc counts and the k-core -/

variable [DecidableEq V]

variable (G) in
/-- How many arcs lead from `u` to `v`. -/
def arcs (u v : V) : Nat := (G.out u).count v

variable (G) in
/-- As many arcs lead from `u` to `v` as back. -/
def Symmetric : Prop := ∀ u v, G.arcs u v = G.arcs v u

theorem arcs_pos_iff : 0 < G.arcs u v ↔ v ∈ G.out u := List.count_pos_iff

theorem Symmetric.mem_out (h : G.Symmetric) (harc : v ∈ G.out u) : u ∈ G.out v := by
  rw [← arcs_pos_iff, ← h u v, arcs_pos_iff]
  exact harc

/-- Reachability of a symmetric graph is symmetric. -/
theorem Symmetric.reaches (h : G.Symmetric) (huv : G.Reaches u v) : G.Reaches v u := by
  have hprepend : ∀ {n a b}, G.Walk a n b → ∀ {c}, a ∈ G.out c → G.Reaches c b := by
    intro n a b hwalk
    induction hwalk with
    | nil => exact fun harc => (Reaches.refl _).tail harc
    | snoc _ harc ih => exact fun hc => (ih hc).tail harc
  obtain ⟨n, hwalk⟩ := huv
  induction hwalk with
  | nil => exact .refl _
  | snoc _ harc ih =>
      obtain ⟨k, hk⟩ := ih
      exact hprepend hk (h.mem_out harc)

/-- The out-degree counts the arcs to every vertex. -/
theorem length_out_eq_sum [Fintype V] (u : V) : (G.out u).length = ∑ v, G.arcs u v := by
  have hsum := List.sum_toFinset_count_eq_length (G.out u)
  rw [← hsum]
  refine Finset.sum_subset (Finset.subset_univ _) fun v _ hv => ?_
  exact List.count_eq_zero.2 fun hmem => hv (List.mem_toFinset.2 hmem)

variable (G) in
/-- Every member of `A` has at least `k` arcs to members. -/
def Sturdy (k : Nat) (A : Finset V) : Prop := ∀ v ∈ A, k ≤ ∑ u ∈ A, G.arcs v u

/-! ### The greedy independent set -/

variable [LinearOrder V]

variable (G) in
/-- `I` is the set built by taking vertices in ascending order unless a smaller neighbour was
    taken. -/
def IsGreedy (I : V → Prop) : Prop := ∀ v, I v ↔ ∀ w ∈ G.out v, w < v → ¬ I w

omit [DecidableEq V] in
/-- The greedy rule determines the set. -/
theorem isGreedy_unique [WellFoundedLT V] {I J : V → Prop} (hI : G.IsGreedy I) (hJ : G.IsGreedy J)
    (v : V) : I v ↔ J v := by
  induction v using WellFoundedLT.induction with
  | _ v ih =>
      rw [hI v, hJ v]
      constructor
      · intro h w hw hlt hjw
        exact h w hw hlt ((ih w hlt).2 hjw)
      · intro h w hw hlt hiw
        exact h w hw hlt ((ih w hlt).1 hiw)

/-- A greedy set of a symmetric graph is independent, self-loops aside. -/
theorem IsGreedy.independent {I : V → Prop} (hI : G.IsGreedy I) (hsymm : G.Symmetric)
    (hu : I u) (hv : I v) (harc : v ∈ G.out u) : u = v := by
  rcases lt_trichotomy u v with hlt | heq | hgt
  · exact absurd hu ((hI v).1 hv u (hsymm.mem_out harc) hlt)
  · exact heq
  · exact absurd hv ((hI u).1 hu v harc hgt)

omit [DecidableEq V] in
/-- A vertex outside a greedy set has a neighbour inside. -/
theorem IsGreedy.maximal {I : V → Prop} (hI : G.IsGreedy I) (hv : ¬ I v) :
    ∃ w ∈ G.out v, w ≠ v ∧ I w := by
  rw [hI v] at hv
  push Not at hv
  obtain ⟨w, hw, hlt, hiw⟩ := hv
  exact ⟨w, hw, hlt.ne, hiw⟩

omit [DecidableEq V] in
/-- Every graph has a greedy set: its rule asks for smaller vertices only. -/
theorem exists_isGreedy [WellFoundedLT V] (G : Multigraph V) : ∃ I : V → Prop, G.IsGreedy I := by
  let rule : ∀ v, (∀ w, w < v → Prop) → Prop :=
    fun v chosen => ∀ w (_ : w ∈ G.out v) (h : w < v), ¬ chosen w h
  refine ⟨(wellFounded_lt (α := V)).fix rule, fun v => ?_⟩
  rw [WellFounded.fix_eq]

/-- On a symmetric graph the members of a greedy set and their neighbours are all vertices. -/
theorem IsGreedy.card_le [Fintype V] {G : Multigraph V} {I : Finset V} {bound : Nat}
    (hI : G.IsGreedy fun v => v ∈ I) (hsymm : G.Symmetric)
    (hbound : ∀ v, (G.out v).length ≤ bound) :
    Fintype.card V ≤ I.card * (bound + 1) := by
  have hcover : Finset.univ ⊆ I.biUnion fun v => insert v (G.out v).toFinset := by
    intro v _
    rw [Finset.mem_biUnion]
    by_cases hv : v ∈ I
    · exact ⟨v, hv, Finset.mem_insert_self _ _⟩
    · obtain ⟨w, hw, -, hin⟩ := hI.maximal hv
      exact ⟨w, hin, Finset.mem_insert_of_mem (List.mem_toFinset.2 (hsymm.mem_out hw))⟩
  have hsize : ∀ v ∈ I, (insert v (G.out v).toFinset).card ≤ bound + 1 := by
    intro v _
    apply (Finset.card_insert_le _ _).trans
    exact Nat.succ_le_succ ((List.toFinset_card_le _).trans (hbound v))
  rw [← Finset.card_univ]
  exact (Finset.card_le_card hcover).trans (Finset.card_biUnion_le_card_mul _ _ _ hsize)

/-! ### Descending paths -/

/-- A path of `n` arcs leads from a vertex to smaller and smaller ones: the greedy rule may have to
    decide `n` others before it. -/
inductive Descent (G : Multigraph V) : Nat → V → Prop where
  | nil {v : V} : Descent G 0 v
  | cons {n : Nat} {v w : V} : w ∈ G.out v → w < v → Descent G n w → Descent G (n + 1) v

omit [DecidableEq V] in
/-- A vertex without smaller neighbours is the end of every descending path to it. -/
theorem Descent.eq_zero {G : Multigraph V} (h : G.Descent n v) (hleast : ∀ w ∈ G.out v, ¬ w < v) :
    n = 0 := by
  cases h with
  | nil => rfl
  | cons harc hlt _ => exact absurd hlt (hleast _ harc)

end Multigraph
