/-
Module: FamGraph.Foundation.Components
Layer: Foundation
Purpose: The connected components of a finite symmetric graph, and how they are counted through
  labels. A labelling that is the same on two vertices just if they are connected has one label for
  each component, as often as the component has vertices, so a histogram of the labels tells the
  number and the sizes of the components.
Trusted boundary: none
Main exports: IsHistogram, Multigraph.components, Multigraph.Labels, Multigraph.Labels.sizes_eq
-/
import FamGraph.Foundation.Multigraph
import Mathlib.Data.Fintype.Card
import Mathlib.Data.Finset.Card
import Mathlib.Data.Finset.Lattice.Fold
import Mathlib.Data.List.Dedup
import Mathlib.Data.List.Count

/-! ### Histograms -/

section Histogram

variable {κ : Type*} [DecidableEq κ]

/-- `m` lists each element of `xs` once, with the number of times it occurs. -/
structure IsHistogram (xs : List κ) (m : List (κ × Nat)) : Prop where
  nodup : (m.map Prod.fst).Nodup
  mem_iff : ∀ k c, (k, c) ∈ m ↔ k ∈ xs ∧ c = xs.count k

namespace IsHistogram

variable {xs : List κ} {m m' : List (κ × Nat)} {k : κ}

theorem nil : IsHistogram ([] : List κ) [] := ⟨List.nodup_nil, by simp⟩

theorem mem_keys_iff (h : IsHistogram xs m) : k ∈ m.map Prod.fst ↔ k ∈ xs := by
  rw [List.mem_map]
  constructor
  · intro hk
    obtain ⟨⟨k', c⟩, hmem, rfl⟩ := hk
    exact ((h.mem_iff k' c).1 hmem).1
  · intro hk
    exact ⟨(k, xs.count k), (h.mem_iff k _).2 ⟨hk, rfl⟩, rfl⟩

/-- An element that was not there before gets an entry of its own. -/
theorem insert (h : IsHistogram xs m) (hk : k ∉ xs) : IsHistogram (xs ++ [k]) (m ++ [(k, 1)]) where
  nodup := by
    rw [List.map_append, List.map_singleton, List.nodup_append']
    refine ⟨h.nodup, List.nodup_singleton k, ?_⟩
    intro k' hk' hsame
    rw [List.mem_singleton.1 hsame] at hk'
    exact hk (h.mem_keys_iff.1 hk')
  mem_iff k' c := by
    rw [List.mem_append, h.mem_iff, List.mem_singleton, List.mem_append, List.mem_singleton,
      List.count_append, Prod.mk.injEq]
    by_cases hsame : k' = k
    · subst hsame
      simp [hk, List.count_eq_zero.2 hk]
    · simp [hsame, Ne.symm hsame]

/-- An element that was there before counts once more. -/
theorem increment (h : IsHistogram xs m) (hk : k ∈ xs) :
    IsHistogram (xs ++ [k]) (m.map fun p => if p.1 = k then (p.1, p.2 + 1) else p) where
  nodup := by
    have hkeys :
        (m.map fun p => if p.1 = k then (p.1, p.2 + 1) else p).map Prod.fst = m.map Prod.fst := by
      rw [List.map_map]
      apply List.map_congr_left
      intro p _
      rw [Function.comp_apply]
      split <;> rfl
    rw [hkeys]
    exact h.nodup
  mem_iff k' c := by
    have hcount : (xs ++ [k]).count k' = xs.count k' + if k = k' then 1 else 0 := by
      rw [List.count_append, List.count_singleton]
      simp only [beq_iff_eq]
    rw [List.mem_map, hcount]
    constructor
    · intro hmem
      obtain ⟨⟨k₀, c₀⟩, hp, heq⟩ := hmem
      obtain ⟨hxs, rfl⟩ := (h.mem_iff k₀ c₀).1 hp
      by_cases hsame : k₀ = k
      · subst hsame
        rw [if_pos rfl] at heq
        cases heq
        exact ⟨List.mem_append_left _ hxs, by rw [if_pos rfl]⟩
      · rw [if_neg hsame] at heq
        cases heq
        exact ⟨List.mem_append_left _ hxs, by rw [if_neg (Ne.symm hsame), Nat.add_zero]⟩
    · intro hmem
      obtain ⟨hxs, rfl⟩ := hmem
      have hold : k' ∈ xs := by
        cases List.mem_append.1 hxs with
        | inl hold => exact hold
        | inr hnew => exact List.mem_singleton.1 hnew ▸ hk
      refine ⟨(k', xs.count k'), (h.mem_iff k' _).2 ⟨hold, rfl⟩, ?_⟩
      by_cases hsame : k' = k
      · rw [if_pos hsame, if_pos hsame.symm]
      · rw [if_neg hsame, if_neg (Ne.symm hsame), Nat.add_zero]

theorem perm (h : IsHistogram xs m) (hperm : m'.Perm m) : IsHistogram xs m' where
  nodup := (hperm.map Prod.fst).nodup_iff.2 h.nodup
  mem_iff k c := hperm.mem_iff.trans (h.mem_iff k c)

/-- All histograms of a list are the same, but for the order of the entries. -/
theorem perm_dedup (h : IsHistogram xs m) : m.Perm (xs.dedup.map fun k => (k, xs.count k)) := by
  have hnodup : (xs.dedup.map fun k => (k, xs.count k)).Nodup :=
    (List.nodup_dedup xs).map fun _ _ heq => (Prod.mk.inj heq).1
  rw [List.perm_ext_iff_of_nodup h.nodup.of_map hnodup]
  intro p
  obtain ⟨k, c⟩ := p
  rw [h.mem_iff, List.mem_map]
  constructor
  · intro hmem
    exact ⟨k, List.mem_dedup.2 hmem.1, by rw [hmem.2]⟩
  · intro hmem
    obtain ⟨k', hk', heq⟩ := hmem
    cases heq
    exact ⟨List.mem_dedup.1 hk', rfl⟩

end IsHistogram

end Histogram

/-! ### Components and their labels -/

namespace Multigraph

section Components

open Classical

variable {V κ : Type*} [Fintype V] [DecidableEq V] [DecidableEq κ]

/-- The vertices that can be reached from `v`. -/
noncomputable def component (G : Multigraph V) (v : V) : Finset V :=
  Finset.univ.filter (G.Reaches v)

/-- The connected components of a symmetric graph. -/
noncomputable def components (G : Multigraph V) : Finset (Finset V) := Finset.univ.image G.component

/-- Two vertices have the same label just if they are connected. -/
def Labels (G : Multigraph V) (label : V → κ) : Prop := ∀ v w, label v = label w ↔ G.Reaches v w

variable {G : Multigraph V} {label : V → κ} {vs : List V}

omit [DecidableEq V] in
theorem mem_component_iff {v w : V} : w ∈ G.component v ↔ G.Reaches v w := by
  rw [component, Finset.mem_filter]
  exact and_iff_right (Finset.mem_univ w)

omit [DecidableEq V] in
theorem Labels.component_eq (h : G.Labels label) (v : V) :
    G.component v = Finset.univ.filter fun w => label w = label v := by
  apply Finset.filter_congr
  intro w _
  rw [← h v w]
  exact eq_comm

omit [DecidableEq V] in
/-- A label occurs as often as its component has vertices. -/
theorem Labels.count_eq (h : G.Labels label) (hnodup : vs.Nodup) (hall : ∀ v, v ∈ vs) (v : V) :
    (vs.map label).count (label v) = (G.component v).card := by
  have hfilter : G.component v = (vs.filter fun w => label w = label v).toFinset := by
    rw [h.component_eq]
    ext w
    simp [hall w]
  rw [hfilter, List.toFinset_card_of_nodup (hnodup.filter _), List.count_eq_countP, List.countP_map,
    List.countP_eq_length_filter]
  congr 1

/-- The labels, each taken once, stand for the components. -/
theorem Labels.sizes_eq (h : G.Labels label) (hnodup : vs.Nodup) (hall : ∀ v, v ∈ vs) :
    (((vs.map label).dedup.map fun k => (vs.map label).count k : List Nat) : Multiset Nat) =
      G.components.val.map Finset.card := by
  have huniv : vs.toFinset = Finset.univ := by
    ext w
    simp [hall w]
  -- the vertices with one label
  let fibre : κ → Finset V := fun k => Finset.univ.filter fun w => label w = k
  have hcomponents : G.components = (vs.map label).toFinset.image fibre := by
    rw [components, ← huniv]
    ext A
    simp [fibre, h.component_eq]
  have hinjective : Set.InjOn fibre (vs.map label).toFinset := by
    intro k hk k' _ heq
    obtain ⟨v, -, rfl⟩ := List.mem_map.1 (List.mem_toFinset.1 (Finset.mem_coe.1 hk))
    have hv : v ∈ fibre k' := heq ▸ Finset.mem_filter.2 ⟨Finset.mem_univ v, rfl⟩
    exact (Finset.mem_filter.1 hv).2
  rw [hcomponents, Finset.image_val_of_injOn hinjective, List.toFinset_val, Multiset.map_coe,
    Multiset.map_coe, List.map_map]
  congr 1
  apply List.map_congr_left
  intro k hk
  obtain ⟨v, -, rfl⟩ := List.mem_map.1 (List.mem_dedup.1 hk)
  rw [h.count_eq hnodup hall, h.component_eq, Function.comp_apply]

/-- The counts of a histogram of the labels are the sizes of the components. -/
theorem Labels.histogram (h : G.Labels label) (hnodup : vs.Nodup) (hall : ∀ v, v ∈ vs)
    {m : List (κ × Nat)} (hm : IsHistogram (vs.map label) m) :
    ((m.map Prod.snd : List Nat) : Multiset Nat) = G.components.val.map Finset.card := by
  rw [← h.sizes_eq hnodup hall, Multiset.coe_eq_coe]
  have hperm := hm.perm_dedup.map Prod.snd
  rw [List.map_map] at hperm
  exact hperm

end Components

end Multigraph
