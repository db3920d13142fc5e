/-
Module: FamGraph.Proofs.PrintTop20
Layer: Proofs
Purpose: The list printed after PageRank holds the top vertices. After every turn of the scan the
  buffer selects, of the vertices seen, those with the greatest values and is sorted, so that its
  first pair is the one to give way. Equal values give way to nothing.
Trusted boundary: none
Main exports: Buffer, Buffer.visit, buffer_scan, TopVertices, printTop20_selects, printResult_top
-/
import FamGraph.Core.PrintTop20
import FamGraph.Foundation.BoundedSelection
import Mathlib.Data.List.Sort

namespace FamGraph.PagerankDelta

section Scan

variable {α : Type} [LinearOrder α]

/-! ### Sorting the buffer -/

theorem pairLe_trans (p q r : α × Nat) (hpq : pairLe p q = true) (hqr : pairLe q r = true) :
    pairLe p r = true := by
  simp only [pairLe, decide_eq_true_eq] at hpq hqr ⊢
  rcases hpq with hpq | ⟨hpq, hpq'⟩
  · rcases hqr with hqr | ⟨hqr, -⟩
    · exact Or.inl (hpq.trans hqr)
    · exact Or.inl (hqr ▸ hpq)
  · rcases hqr with hqr | ⟨hqr, hqr'⟩
    · exact Or.inl (hpq ▸ hqr)
    · exact Or.inr ⟨hpq.trans hqr, hpq'.trans hqr'⟩

theorem pairLe_total (p q : α × Nat) : (pairLe p q || pairLe q p) = true := by
  simp only [pairLe, Bool.or_eq_true, decide_eq_true_eq]
  rcases lt_trichotomy p.1 q.1 with hlt | heq | hgt
  · exact Or.inl (Or.inl hlt)
  · rcases Nat.le_total p.2 q.2 with hle | hle
    · exact Or.inl (Or.inr ⟨heq, hle⟩)
    · exact Or.inr (Or.inr ⟨heq.symm, hle⟩)
  · exact Or.inr (Or.inl hgt)

theorem fst_le_of_pairLe {p q : α × Nat} (h : pairLe p q = true) : p.1 ≤ q.1 := by
  simp only [pairLe, decide_eq_true_eq] at h
  rcases h with hlt | ⟨heq, -⟩
  · exact hlt.le
  · exact heq.le

theorem perm_sortPairs (t20 : List (α × Nat)) : (sortPairs t20).Perm t20 :=
  List.mergeSort_perm t20 pairLe

/-- The values do not fall from the front of a sorted buffer to its back. -/
theorem pairwise_sortPairs (t20 : List (α × Nat)) :
    (sortPairs t20).Pairwise fun p q => p.1 ≤ q.1 :=
  (List.pairwise_mergeSort pairLe_trans pairLe_total t20).imp fst_le_of_pairLe

/-! ### The scan -/

/-- What the scan offers for the first `n` vertices. -/
def entries (value : Nat → α) (n : Nat) : List (α × Nat) := (List.range n).map fun v => (value v, v)

omit [LinearOrder α] in
theorem entries_succ (value : Nat → α) (n : Nat) :
    entries value (n + 1) = entries value n ++ [(value n, n)] := by
  rw [entries, List.range_succ, List.map_append]
  rfl

omit [LinearOrder α] in
theorem mem_entries {value : Nat → α} {n : Nat} {p : α × Nat} :
    p ∈ entries value n ↔ p.2 < n ∧ p.1 = value p.2 := by
  simp only [entries, List.mem_map, List.mem_range]
  constructor
  · rintro ⟨v, hv, rfl⟩
    exact ⟨hv, rfl⟩
  · rintro ⟨hv, hvalue⟩
    exact ⟨p.2, hv, by rw [← hvalue]⟩

omit [LinearOrder α] in
theorem length_entries (value : Nat → α) (n : Nat) : (entries value n).length = n := by
  rw [entries, List.length_map, List.length_range]

omit [LinearOrder α] in
theorem nodup_entries (value : Nat → α) (n : Nat) : ((entries value n).map Prod.snd).Nodup := by
  rw [entries, List.map_map]
  exact (List.map_id (List.range n)).symm ▸ List.nodup_range

/-- The buffer after the first `n` vertices. -/
structure Buffer (value : Nat → α) (n : Nat) (t20 : List (α × Nat)) : Prop where
  selects : BoundedSelection.Selects Prod.fst 20 (entries value n) t20
  sorted : t20.Pairwise fun p q => p.1 ≤ q.1

variable {value : Nat → α} {n : Nat} {t20 : List (α × Nat)}

theorem buffer_nil : Buffer value 0 [] where
  selects := .nil
  sorted := .nil

/-- Sorting makes a buffer of any selection. -/
theorem buffer_sortPairs (h : BoundedSelection.Selects Prod.fst 20 (entries value n) t20) :
    Buffer value n (sortPairs t20) where
  selects := h.perm (perm_sortPairs t20)
  sorted := pairwise_sortPairs t20

theorem visit_of_room (hroom : t20.length < 20) (v : Nat) :
    visit value t20 v = sortPairs (t20 ++ [(value v, v)]) := dif_pos hroom

theorem visit_of_full {least : α × Nat} {rest : List (α × Nat)}
    (hfull : ¬ (least :: rest).length < 20) (v : Nat) : visit value (least :: rest) v =
      if least.1 < value v then sortPairs ((value v, v) :: rest) else least :: rest := dif_neg hfull

/-- While the buffer has room, every vertex goes in; once it is full, a vertex whose value exceeds
    the least one takes its place and the others are left out. -/
theorem Buffer.visit (h : Buffer value n t20) : Buffer value (n + 1) (visit value t20 n) := by
  by_cases hroom : t20.length < 20
  · rw [visit_of_room hroom]
    refine buffer_sortPairs ?_
    rw [entries_succ]
    exact h.selects.add hroom _
  · obtain ⟨least, rest, rfl⟩ := List.exists_cons_of_length_pos (show 0 < t20.length by omega)
    have hleast := (List.pairwise_cons.1 h.sorted).1
    rw [visit_of_full hroom]
    by_cases hx : least.1 < value n
    · rw [if_pos hx]
      refine buffer_sortPairs ?_
      rw [entries_succ]
      exact h.selects.replace (Nat.le_of_not_lt hroom) hleast hx
    · rw [if_neg hx]
      refine ⟨?_, h.sorted⟩
      rw [entries_succ]
      refine h.selects.drop (Nat.le_of_not_lt hroom) fun q hq => ?_
      rcases List.mem_cons.1 hq with rfl | hq
      · exact le_of_not_gt hx
      · exact (le_of_not_gt hx).trans (hleast q hq)

/-- The whole scan. -/
theorem buffer_scan (value : Nat → α) (num_verts : Nat) :
    Buffer value num_verts (scan value num_verts) := by
  induction num_verts with
  | zero => exact buffer_nil
  | succ n ih =>
      rw [scan, List.range_succ, List.foldl_append]
      exact ih.visit

/-! ### The printed list -/

/-- The lines name distinct vertices with their values, the greatest of all first. -/
structure TopVertices (value : Nat → α) (num_verts : Nat) (printed : List (Nat × α)) : Prop where
  length : printed.length = min 20 num_verts
  distinct : (printed.map Prod.fst).Nodup
  own : ∀ p ∈ printed, p.1 < num_verts ∧ p.2 = value p.1
  falling : printed.Pairwise fun p q => q.2 ≤ p.2
  others : ∀ v < num_verts, v ∉ printed.map Prod.fst → ∀ p ∈ printed, value v ≤ p.2

omit [LinearOrder α] in
/-- A line is a pair of the buffer the other way round. -/
theorem mem_reverse_map_swap {t20 : List (α × Nat)} {p : Nat × α} :
    p ∈ t20.reverse.map Prod.swap ↔ p.swap ∈ t20 := by
  simp only [List.mem_map, List.mem_reverse]
  exact ⟨fun ⟨q, hq, hp⟩ => hp ▸ hq, fun hp => ⟨p.swap, hp, rfl⟩⟩

omit [LinearOrder α] in
theorem map_fst_reverse_map_swap (t20 : List (α × Nat)) :
    (t20.reverse.map Prod.swap).map Prod.fst = (t20.map Prod.snd).reverse := by
  rw [List.map_map, List.map_reverse]
  rfl

/-- The lines of a buffer, from back to front. -/
theorem Buffer.topVertices (h : Buffer value n t20) :
    TopVertices value n (t20.reverse.map Prod.swap) where
  length := by rw [List.length_map, List.length_reverse, h.selects.length, length_entries]
  distinct := by
    rw [map_fst_reverse_map_swap, List.nodup_reverse]
    exact h.selects.nodup_map (nodup_entries value n)
  own p hp := mem_entries.1 (h.selects.mem (mem_reverse_map_swap.1 hp))
  falling := by
    rw [List.pairwise_map, List.pairwise_reverse]
    exact h.sorted
  others v hv hnot p hp := by
    have hout : (value v, v) ∉ t20 := by
      intro hin
      rw [map_fst_reverse_map_swap, List.mem_reverse] at hnot
      exact hnot (List.mem_map_of_mem hin)
    exact h.selects.le_of_not_mem (mem_entries.2 ⟨hv, rfl⟩) hout (mem_reverse_map_swap.1 hp)

/-- The printed list holds the top vertices. For any values from a linear order and any number of
    vertices, `min 20 num_verts` distinct vertices are printed, each with its value and in order of
    falling values, and no other vertex has a value greater than a printed one. -/
theorem printTop20_selects (value : Nat → α) (num_verts : Nat) :
    (printTop20 value num_verts).length = min 20 num_verts ∧
    ((printTop20 value num_verts).map Prod.fst).Nodup ∧
    (∀ p ∈ printTop20 value num_verts, p.1 < num_verts ∧ p.2 = value p.1) ∧
    (printTop20 value num_verts).Pairwise (fun p q => q.2 ≤ p.2) ∧
    ∀ v < num_verts, v ∉ (printTop20 value num_verts).map Prod.fst →
      ∀ p ∈ printTop20 value num_verts, value v ≤ p.2 := by
  have h : TopVertices value num_verts (printTop20 value num_verts) :=
    (buffer_scan value num_verts).topVertices
  exact ⟨h.length, h.distinct, h.own, h.falling, h.others⟩

end Scan

/-- What `print_result` shows of a vertex table: every line is a vertex of the graph with its rank,
    and the ranks it leaves out are no greater. -/
theorem printResult_top {G : Graph} (vtable : Table G) :
    (∀ p ∈ printResult vtable, ∃ v : G.Vertex, p = (v.val, (vtable v).value)) ∧
    ∀ v : G.Vertex, (∀ p ∈ printResult vtable, p.1 ≠ v.val) →
      ∀ p ∈ printResult vtable, (vtable v).value ≤ p.2 := by
  have h : TopVertices _ G.num_vertices (printResult vtable) :=
    (buffer_scan _ G.num_vertices).topVertices
  constructor
  · rintro ⟨v, rank⟩ hp
    obtain ⟨hv, hrank⟩ := h.own _ hp
    exact ⟨⟨v, hv⟩, Prod.ext rfl (hrank.trans (dif_pos hv))⟩
  · intro v hnot p hp
    have hout : v.val ∉ (printResult vtable).map Prod.fst := by
      rintro hin
      obtain ⟨q, hq, hqv⟩ := List.mem_map.1 hin
      exact hnot q hq hqv
    have hle := h.others v.val v.isLt hout p hp
    rwa [dif_pos v.isLt] at hle

end FamGraph.PagerankDelta
