/-
Module: FamGraph.Proofs.VertexTable
Layer: Proofs
Purpose: The index as a partition of the edge array. On offsets that are nondecreasing and end
  within the array, the wrapping subtraction of `get_num_edges` is the length of the gap between two
  neighbouring offsets; a table written as little-endian words is loaded unchanged.
Trusted boundary: none
Main exports: WellFormedIndex, adjacencyEnd, getNumEdges_eq, getNumVerts_encodeAll,
  getVertexTable_encodeAll
-/
import FamGraph.Core.VertexTable
import Mathlib.Data.Finset.Lattice.Fold

namespace FamGraph

/-- The offsets are nondecreasing and stay within the edge array; counts fit the types of the
    source. -/
structure WellFormedIndex (edge_offset : Nat → Nat) (num_vertices num_edges : Nat) : Prop where
  num_vertices_lt : num_vertices < 2 ^ 32
  num_edges_lt : num_edges < 2 ^ 64
  mono : ∀ v, v + 1 < num_vertices → edge_offset v ≤ edge_offset (v + 1)
  le : ∀ v < num_vertices, edge_offset v ≤ num_edges

/-- Where the adjacency list of `v` ends. -/
def adjacencyEnd (edge_offset : Nat → Nat) (num_vertices num_edges v : Nat) : Nat :=
  if v + 1 = num_vertices then num_edges else edge_offset (v + 1)

namespace WellFormedIndex

variable {edge_offset : Nat → Nat} {num_vertices num_edges v : Nat}

theorem le_adjacencyEnd (h : WellFormedIndex edge_offset num_vertices num_edges)
    (hv : v < num_vertices) :
    edge_offset v ≤ adjacencyEnd edge_offset num_vertices num_edges v := by
  unfold adjacencyEnd
  split
  · exact h.le v hv
  · exact h.mono v (by omega)

theorem adjacencyEnd_le (h : WellFormedIndex edge_offset num_vertices num_edges)
    (hv : v < num_vertices) : adjacencyEnd edge_offset num_vertices num_edges v ≤ num_edges := by
  unfold adjacencyEnd
  split
  · exact Nat.le_refl _
  · exact h.le (v + 1) (by omega)

/-- `get_num_edges` is the length of the adjacency list, as a `uint32_t`. -/
theorem getNumEdges_mod (h : WellFormedIndex edge_offset num_vertices num_edges)
    (hv : v < num_vertices) :
    getNumEdges v edge_offset num_vertices num_edges =
      (adjacencyEnd edge_offset num_vertices num_edges v - edge_offset v) % 2 ^ 32 := by
  have hstart := h.le_adjacencyEnd hv
  have hstop := h.adjacencyEnd_le hv
  have hedges := h.num_edges_lt
  have hverts := h.num_vertices_lt
  have hlast : v = (num_vertices + (2 ^ 32 - 1)) % 2 ^ 32 ↔ v + 1 = num_vertices := by omega
  have hnext : (v + 1) % 2 ^ 32 = v + 1 := Nat.mod_eq_of_lt (by omega)
  have hstop_eq : (if v = (num_vertices + (2 ^ 32 - 1)) % 2 ^ 32 then num_edges
      else edge_offset ((v + 1) % 2 ^ 32)) = adjacencyEnd edge_offset num_vertices num_edges v := by
    rw [hnext, if_congr hlast rfl rfl, adjacencyEnd]
  simp only [getNumEdges, hstop_eq]
  omega

/-- Without wrapping, `get_num_edges` is the length of the adjacency list. -/
theorem getNumEdges_eq (h : WellFormedIndex edge_offset num_vertices num_edges)
    (hv : v < num_vertices)
    (hdegree : adjacencyEnd edge_offset num_vertices num_edges v - edge_offset v < 2 ^ 32) :
    getNumEdges v edge_offset num_vertices num_edges =
      adjacencyEnd edge_offset num_vertices num_edges v - edge_offset v :=
  (h.getNumEdges_mod hv).trans (Nat.mod_eq_of_lt hdegree)

end WellFormedIndex

/-- A loop that keeps the larger value ends with the largest. -/
theorem foldl_max_range (f : Nat → Nat) (n : Nat) :
    (List.range n).foldl (fun m v => max m (f v)) 0 = (Finset.range n).sup f := by
  induction n with
  | zero => rfl
  | succ n ih =>
      rw [List.range_succ, List.foldl_append, ih, Finset.range_add_one, Finset.sup_insert]
      exact Nat.max_comm _ _

/-- The words of a file are within it. -/
theorem mul_numElements_le (size_of : Nat) (file : List UInt8) :
    size_of * numElements size_of file ≤ file.length :=
  Nat.mul_div_le _ _

/-- A file of `uint64_t` words has as many vertices as words. -/
theorem getNumVerts_encodeAll {table : List Nat} (h : table.length < 2 ^ 32) :
    getNumVerts (LittleEndian.encodeAll 8 table) = .ok table.length := by
  have hlength : (LittleEndian.encodeAll 8 table).length / 8 = table.length := by
    rw [LittleEndian.length_encodeAll, Nat.mul_div_cancel_left _ (by decide)]
  rw [getNumVerts, hlength, numericCast, if_pos h]

/-- A table written as words is loaded unchanged. -/
theorem getVertexTable_encodeAll {table : List Nat} (h : ∀ x ∈ table, x < 2 ^ 64) :
    getVertexTable table.length (LittleEndian.encodeAll 8 table) = .ok table := by
  induction table with
  | nil => rfl
  | cons x table ih =>
      have hskip :
          (LittleEndian.encodeAll 8 (x :: table)).drop 8 = LittleEndian.encodeAll 8 table :=
        LittleEndian.drop_encodeAll 8 (x :: table) 1
      have hword : LittleEndian.decode (LittleEndian.encode 8 x) = x :=
        LittleEndian.decode_encode_of_lt (h x List.mem_cons_self)
      rw [List.length_cons, getVertexTable, LittleEndian.take_encodeAll_cons, hskip,
        ih fun y hy => h y (List.mem_cons_of_mem x hy), hword]
      simp only [LittleEndian.length_encode, ne_eq, not_true_eq_false, if_false]
      rfl

/-- The table loaded from a file is the words in it. -/
theorem getVertexTable_eq {num_vertices : Nat} {input : List UInt8}
    (h : 8 * num_vertices ≤ input.length) :
    getVertexTable num_vertices input =
      .ok ((List.range num_vertices).map (LittleEndian.wordAt 8 input)) := by
  induction num_vertices generalizing input with
  | zero => rfl
  | succ n ih =>
      have hlength : (input.take 8).length = 8 := by
        rw [List.length_take]
        omega
      have hrest : 8 * n ≤ (input.drop 8).length := by
        rw [List.length_drop]
        omega
      have hshift :
          LittleEndian.wordAt 8 (input.drop 8) = LittleEndian.wordAt 8 input ∘ Nat.succ := by
        funext i
        exact (LittleEndian.wordAt_drop 8 1 input i).trans (congrArg _ (Nat.add_comm 1 i))
      rw [getVertexTable, ih hrest, hshift, List.range_succ_eq_map, List.map_cons, List.map_map]
      simp only [hlength, ne_eq, not_true_eq_false, if_false]
      rfl

end FamGraph
