/-
Module: FamGraph.Core.EdgeListToDecsr
Layer: Core
Purpose: The second converter, `edge_list_to_decsr.cpp`, for unweighted graphs. It swaps the two ids
  of a pair right after reading it, so that its rows are the in-edges. The pass `edge_list_to_csr`
  is the same text in both tools, as are the type `csr_graph` and the meaning of the options.
Trusted boundary: human-reviewed model of `encode_unweighted`
Main exports: Decsr.readEdgeList, Decsr.encodeUnweighted, Converter, Converter.encodeUnweighted
-/
import FamGraph.Core.EdgeListToCsr

namespace FamGraph

namespace Decsr

/-- The reading loop of `encode_unweighted`: the swapped pairs with their reverses on request, and
    the largest id. -/
def readEdgeList (make_undirected : Bool) (v : List (Nat × Nat)) (max_vert : Nat) :
    List (Nat × Nat) → Except String (List (Nat × Nat) × Nat)
  | [] => .ok (v, max_vert)
  | (a, b) :: input => do
      -- `std::swap(a, b)`
      let (a, b) := (b, a)
      let v ← pushBack v (a, b)
      let v ← if make_undirected then pushBack v (b, a) else .ok v
      readEdgeList make_undirected v (max max_vert (max a b)) input

/-- `encode_unweighted`: the bytes of the `.idx` and of the `.adj` file. -/
def encodeUnweighted (sort : List (Nat × Nat) → List (Nat × Nat)) (make_undirected sorted : Bool)
    (input : List (Nat × Nat)) : Except String (List UInt8 × List UInt8) := do
  let (v, max_vert) ← readEdgeList make_undirected [] 0 input
  let v := if sorted then v else sort v
  let g := edgeListToCsr v max_vert
  return (LittleEndian.encodeAll 8 g.index, LittleEndian.encodeAll 4 g.dest)

end Decsr

/-- The two tools. -/
inductive Converter where
  | csr
  | decsr
deriving DecidableEq, Repr

/-- What the tool writes, under the options `--make-undirected` and `--sorted`. -/
def Converter.encodeUnweighted : Converter → (List (Nat × Nat) → List (Nat × Nat)) → Bool → Bool →
    List (Nat × Nat) → Except String (List UInt8 × List UInt8)
  | .csr => FamGraph.encodeUnweighted
  | .decsr => Decsr.encodeUnweighted

end FamGraph
