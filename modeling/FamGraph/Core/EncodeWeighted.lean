/-
Module: FamGraph.Core.EncodeWeighted
Layer: Core
Purpose: The converter `edge_list_to_csr.cpp` for weighted graphs: reading, adding the reversed arcs
  on request, sorting, building and writing. A weight is the 32 bits of its `float`. The sorting
  algorithm is a parameter.
Trusted boundary: human-reviewed model of `encode_weighted`
Main exports: readWEdgeList, encodeWeighted
-/
import FamGraph.Core.EdgeListToWCsr

namespace FamGraph

/-- `max_size()` of a `std::vector` of tuples of two `uint32_t` and a `float`. -/
def maxTuples : Nat := (2 ^ 63 - 1) / 12

/-- `v.push_back(std::make_tuple(a, b, c))` -/
def pushBackTuple (v : List (Nat × Nat × Nat)) (p : Nat × Nat × Nat) :
    Except String (List (Nat × Nat × Nat)) :=
  if v.length < maxTuples then .ok (v ++ [p]) else .error "vector::_M_realloc_insert"

/-- The reading loop of `encode_weighted`. -/
def readWEdgeList (make_undirected : Bool) (v : List (Nat × Nat × Nat)) (max_vert : Nat) :
    List (Nat × Nat × Nat) → Except String (List (Nat × Nat × Nat) × Nat)
  | [] => .ok (v, max_vert)
  | (a, b, c) :: input => do
      let v ← pushBackTuple v (a, b, c)
      let v ← if make_undirected then pushBackTuple v (b, a, c) else .ok v
      readWEdgeList make_undirected v (max max_vert (max a b)) input

/-- `encode_weighted`: the bytes of the `.idx` and of the `.adj` file, the latter in records of a
    destination and a weight. -/
def encodeWeighted (sort : List (Nat × Nat × Nat) → List (Nat × Nat × Nat))
    (make_undirected sorted : Bool) (input : List (Nat × Nat × Nat)) :
    Except String (List UInt8 × List UInt8) := do
  let (v, max_vert) ← readWEdgeList make_undirected [] 0 input
  let v := if sorted then v else sort v
  let g := edgeListToWCsr v max_vert
  let adj := (List.range g.dest.length).flatMap fun idx =>
    LittleEndian.encode 4 (g.dest.getD idx 0) ++ LittleEndian.encode 4 (g.val.getD idx 0)
  return (LittleEndian.encodeAll 8 g.index, adj)

end FamGraph
