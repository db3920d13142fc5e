/-
Module: FamGraph.Core.EdgeListToWCsr
Layer: Core
Purpose: The builder for weighted graphs in `edge_list_to_csr.cpp`, a second copy of the pass of
  `edge_list_to_csr` with another fill value, another final value and a third array. A weight is a
  `float` the builder only copies, so its type is a parameter.
Trusted boundary: human-reviewed model of `edge_list_to_w_csr`
Main exports: WCsrGraph, WScan, edgeListToWCsr, wIndexFrom, indexFrom
-/
import FamGraph.Core.EdgeListToCsr

namespace FamGraph

variable {α : Type}

/-- `w_csr_graph` -/
structure WCsrGraph (α : Type) where
  index : List Nat
  dest : List Nat
  val : List α
deriving DecidableEq, Repr

/-- The variables of the pass over the weighted arcs. -/
structure WScan (α : Type) where
  idx : List Nat
  dest : List Nat
  w : List α
  prev_vertex_from : Nat
  count : Nat
  vertex_from : Nat

/-- `if (vertex_from != prev_vertex_from) {...}` -/
def WScan.skipRows (s : WScan α) : WScan α :=
  if s.vertex_from ≠ s.prev_vertex_from then
    { s with
      idx := fillRows s.idx ((s.prev_vertex_from + 1) % 2 ^ 32) s.vertex_from s.count
      prev_vertex_from := s.vertex_from }
  else s

/-- One arc of the pass. -/
def WScan.step (s : WScan α) (p : Nat × Nat × α) : WScan α :=
  let (vertex_from, vertex_to, weight) := p
  let s := { s with vertex_from := vertex_from }.skipRows
  { s with
    dest := s.dest.set s.count vertex_to
    w := s.w.set s.count weight
    count := s.count + 1 }

/-- The variables before the first arc. Every index entry starts as `v.size()`. -/
def WScan.start [Zero α] (v : List (Nat × Nat × α)) (max_vert : Nat) : WScan α where
  idx := (List.replicate ((max_vert + 1) % 2 ^ 32) v.length).set 0 0
  dest := List.replicate v.length 0
  w := List.replicate v.length 0
  prev_vertex_from := 0
  count := 0
  vertex_from := 0

/-- `edge_list_to_w_csr` -/
def edgeListToWCsr [Zero α] (v : List (Nat × Nat × α)) (max_vert : Nat) : WCsrGraph α :=
  let s := v.foldl WScan.step (WScan.start v max_vert)
  { index := fillRows s.idx ((s.vertex_from + 1) % 2 ^ 32) max_vert s.count
    dest := s.dest
    val := s.w }

/-- The arc without its weight. -/
def dropWeight (p : Nat × Nat × α) : Nat × Nat := (p.1, p.2.1)

/-! ### The loops on any index array -/

/-- The variables of `edge_list_to_csr` before the first pair, with `idx` as the index array. -/
def Scan.startFrom (v : List (Nat × Nat)) (idx : List Nat) : Scan where
  idx := idx
  dest := List.replicate v.length 0
  prev_vertex_from := 0
  count := 0
  vertex_from := 0

/-- The index entries the loops of `edge_list_to_csr` leave behind when they start from `idx`. -/
def indexFrom (v : List (Nat × Nat)) (max_vert : Nat) (idx : List Nat) : List Nat :=
  let s := v.foldl Scan.step (Scan.startFrom v idx)
  fillRows s.idx ((s.vertex_from + 1) % 2 ^ 32) max_vert v.length

/-- The variables of `edge_list_to_w_csr` before the first arc, with `idx` as the index array. -/
def WScan.startFrom [Zero α] (v : List (Nat × Nat × α)) (idx : List Nat) : WScan α where
  idx := idx
  dest := List.replicate v.length 0
  w := List.replicate v.length 0
  prev_vertex_from := 0
  count := 0
  vertex_from := 0

/-- The index entries the loops of `edge_list_to_w_csr` leave behind when they start from `idx`. -/
def wIndexFrom [Zero α] (v : List (Nat × Nat × α)) (max_vert : Nat) (idx : List Nat) : List Nat :=
  let s := v.foldl WScan.step (WScan.startFrom v idx)
  fillRows s.idx ((s.vertex_from + 1) % 2 ^ 32) max_vert s.count

end FamGraph
