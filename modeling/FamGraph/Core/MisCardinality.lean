/-
Module: FamGraph.Core.MisCardinality
Layer: Core
Purpose: `get_cardinality` of `mis.hpp`, what a user sees of the independent set: a parallel count
  of the vertices that are in, and the line that prints it.
Trusted boundary: human-reviewed model of `get_cardinality` and `print_result`
Main exports: countIn, GetCardinality, printResult
-/
import FamGraph.Core.Mis
import FamGraph.Core.Kcore

namespace FamGraph.Mis

/-- `init = vtable[i].flag == mis::MatchFlag::IN ? init + 1 : init` for each `i` of
    `[first, last)`. -/
def countIn {G : Graph} (vtable : G.Vertex → MisVertex) (first last init : Nat) : Nat :=
  ((List.finRange G.num_vertices).filter fun i => first ≤ i.val ∧ i.val < last).foldl
    (fun init i => if (vtable i).flag = .IN then (init + 1) % 2 ^ 32 else init) init

/-- `size` is a value `get_cardinality` may return for the whole vertex range. -/
def GetCardinality {G : Graph} (vtable : G.Vertex → MisVertex) (size : Nat) : Prop :=
  Kcore.ParallelReduce 0 (countIn vtable) (fun a t_b => (a + t_b) % 2 ^ 32) 0 G.num_vertices size

/-- `print_result`: the line it logs when `get_cardinality` returns `size`. -/
def printResult (size : Nat) : String := "MIS Cardinality: " ++ toString size

end FamGraph.Mis
