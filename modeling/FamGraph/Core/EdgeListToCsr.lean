/-
Module: FamGraph.Core.EdgeListToCsr
Layer: Core
Purpose: The converter `edge_list_to_csr.cpp` for unweighted graphs: reading the pairs, adding the
  reversed ones on request, sorting, building index and destination arrays in one pass, and writing
  both. Vectors are lists and an assignment through `operator[]` is `List.set`. The sorting
  algorithm is a parameter.
Trusted boundary: human-reviewed model of `edge_list_to_csr` and `encode_unweighted`
Main exports: CsrGraph, fillRows, Scan, edgeListToCsr, readEdgeList, encodeUnweighted
-/
import FamGraph.Foundation.LittleEndian

namespace FamGraph

/-- `csr_graph` -/
structure CsrGraph where
  index : List Nat
  dest : List Nat
deriving DecidableEq, Repr

/-- `for (row = first; row <= last; ++row) idx[row] = count;` -/
def fillRows (idx : List Nat) (first last count : Nat) : List Nat :=
  (List.range' first (last + 1 - first)).foldl (fun idx row => idx.set row count) idx

/-- The variables of the pass over the sorted pairs. -/
structure Scan where
  idx : List Nat
  dest : List Nat
  prev_vertex_from : Nat
  count : Nat
  vertex_from : Nat

/-- One pair of the pass: rows without out-edges are filled in when the first edge after them
    comes. -/
def Scan.step (s : Scan) (p : Nat × Nat) : Scan :=
  let vertex_from := p.1
  let vertex_to := p.2
  let idx := if vertex_from ≠ s.prev_vertex_from then
      fillRows s.idx ((s.prev_vertex_from + 1) % 2 ^ 32) vertex_from s.count
    else s.idx
  { idx := idx
    dest := s.dest.set s.count vertex_to
    prev_vertex_from := vertex_from
    count := s.count + 1
    vertex_from := vertex_from }

/-- The variables before the first pair. Every index entry starts as `v.size() - 1`, an unsigned
    64-bit subtraction. -/
def Scan.start (v : List (Nat × Nat)) (max_vert : Nat) : Scan where
  idx := (List.replicate ((max_vert + 1) % 2 ^ 32) ((v.length + (2 ^ 64 - 1)) % 2 ^ 64)).set 0 0
  dest := List.replicate v.length 0
  prev_vertex_from := 0
  count := 0
  vertex_from := 0

/-- `edge_list_to_csr` -/
def edgeListToCsr (v : List (Nat × Nat)) (max_vert : Nat) : CsrGraph :=
  let s := v.foldl Scan.step (Scan.start v max_vert)
  { index := fillRows s.idx ((s.vertex_from + 1) % 2 ^ 32) max_vert v.length
    dest := s.dest }

/-- `max_size()` of a `std::vector` of pairs of `uint32_t`, beyond which `push_back` throws. -/
def maxPairs : Nat := (2 ^ 63 - 1) / 8

/-- `v.push_back(p)` -/
def pushBack (v : List (Nat × Nat)) (p : Nat × Nat) : Except String (List (Nat × Nat)) :=
  if v.length < maxPairs then .ok (v ++ [p]) else .error "vector::_M_realloc_insert"

/-- The reading loop of `encode_unweighted`: the pairs with their reverses on request, and the
    largest id. -/
def readEdgeList (make_undirected : Bool) (v : List (Nat × Nat)) (max_vert : Nat) :
    List (Nat × Nat) → Except String (List (Nat × Nat) × Nat)
  | [] => .ok (v, max_vert)
  | (a, b) :: input => do
      let v ← pushBack v (a, b)
      let v ← if make_undirected then pushBack v (b, a) else .ok v
      readEdgeList make_undirected v (max max_vert (max a b)) input

/-- `encode_unweighted`: the bytes of the `.idx` and of the `.adj` file. -/
def encodeUnweighted (sort : List (Nat × Nat) → List (Nat × Nat)) (make_undirected sorted : Bool)
    (input : List (Nat × Nat)) : Except String (List UInt8 × List UInt8) := do
  let (v, max_vert) ← readEdgeList make_undirected [] 0 input
  let v := if sorted then v else sort v
  let g := edgeListToCsr v max_vert
  return (LittleEndian.encodeAll 8 g.index, LittleEndian.encodeAll 4 g.dest)

end FamGraph
