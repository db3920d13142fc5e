/-
Module: FamGraph.Core.VertexTable
Layer: Core
Purpose: The client's side of the CSR files, `vertex_table.cpp` and `vertex_table.hpp`: the number
  of vertices from the size of the `.idx` file, the table of edge offsets it holds, and the
  out-degree of a vertex as the difference of two offsets, and the largest one. The number of words
  in a file, which the server and the utilities ask for, stands in front. Files are given by their
  bytes; that a path names no regular file is not modelled. The table is mapped by `mmap_unique`,
  which succeeds, and calls `advice_vertex_thp`; that this function ends without its return is taken
  as harmless.
Trusted boundary: human-reviewed model of `get_num_verts`, `get_vertex_table`, `get_num_edges` and
  `get_max_out_degree`
Main exports: numElements, getNumVerts, getVertexTable, getNumEdges, getMaxOutDegree
-/
import FamGraph.Foundation.LittleEndian

namespace FamGraph

/-- `num_elements<T>` of the server and the utilities, with `sizeof(T)` for `T`. -/
def numElements (size_of : Nat) (file : List UInt8) : Nat :=
  let file_size := file.length
  file_size / size_of

/-- `boost::numeric_cast<uint32_t>`, which throws what does not fit. -/
def numericCast (x : Nat) : Except String Nat :=
  if x < 2 ^ 32 then .ok x else .error "bad numeric conversion: positive overflow"

/-- `get_num_verts`: the `.idx` file holds one `uint64_t` for each vertex. -/
def getNumVerts (idx : List UInt8) : Except String Nat :=
  let file_size := idx.length
  let num_vertices := file_size / 8
  numericCast num_vertices

/-- `get_vertex_table`, the loop over the input stream: `edge_offset` of the next `num_vertices`
    vertices. -/
def getVertexTable : Nat → List UInt8 → Except String (List Nat)
  | 0, _ => .ok []
  | num_vertices + 1, input =>
      let a := input.take 8
      if a.length ≠ 8 then .error "can't read index data"
      else do
        let table ← getVertexTable num_vertices (input.drop 8)
        return LittleEndian.decode a :: table

/-- `get_num_edges`, in the `uint64_t` and `uint32_t` arithmetic of the source. The list of the last
    vertex ends with the edge array, every other one where the next begins. -/
def getNumEdges (v : Nat) (edge_offset : Nat → Nat) (total_verts total_edges : Nat) : Nat :=
  let start_range := edge_offset v
  let max_exclusive :=
    if v = (total_verts + (2 ^ 32 - 1)) % 2 ^ 32 then total_edges
    else edge_offset ((v + 1) % 2 ^ 32)
  ((max_exclusive + (2 ^ 64 - start_range)) % 2 ^ 64) % 2 ^ 32

/-- `get_max_out_degree` -/
def getMaxOutDegree (edge_offset : Nat → Nat) (n_vert n_edges : Nat) : Nat :=
  (List.range n_vert).foldl (fun my_max v => max my_max (getNumEdges v edge_offset n_vert n_edges))
    0

end FamGraph
