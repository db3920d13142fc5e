/-
Module: FamGraph.Core.PrintTop20
Layer: Core
Purpose: `print_top_20` of `pagerank_delta.hpp`, what a user sees of the ranks. The values come from
  any linear order, which `float` is without its NaNs. `std::sort` on pairs is the merge sort by
  `operator<` of `std::pair`; the pairs of a scan are distinct, so any sort gives the same.
Trusted boundary: human-reviewed model of `print_top_20` and `print_result`
Main exports: pairLe, visit, printTop20, printResult
-/
import FamGraph.Core.PagerankDelta
import Mathlib.Order.Defs.LinearOrder

namespace FamGraph.PagerankDelta

section Scan

variable {α : Type} [LinearOrder α]

/-- `std::pair<float, uint32_t>`, not after another one. -/
def pairLe (p q : α × Nat) : Bool := decide (p.1 < q.1 ∨ p.1 = q.1 ∧ p.2 ≤ q.2)

/-- `std::sort(t20.begin(), t20.end())` -/
def sortPairs (t20 : List (α × Nat)) : List (α × Nat) := t20.mergeSort pairLe

/-- One turn of the scan, for vertex `v`. -/
def visit (value : Nat → α) (t20 : List (α × Nat)) (v : Nat) : List (α × Nat) :=
  if hroom : t20.length < 20 then sortPairs (t20 ++ [(value v, v)])
  else if value v > (t20.get ⟨0, by omega⟩).1 then sortPairs (t20.set 0 (value v, v))
  else t20

/-- `t20` after the scan:

        for (uint32_t v = 0; v < num_verts; ++v) {...}
-/
def scan (value : Nat → α) (num_verts : Nat) : List (α × Nat) :=
  (List.range num_verts).foldl (visit value) []

/-- `print_top_20`: the vertex and the rank of every line, printed from the back of `t20`. -/
def printTop20 (value : Nat → α) (num_verts : Nat) : List (Nat × α) :=
  (scan value num_verts).reverse.map Prod.swap

end Scan

/-- `print_result` -/
def printResult {G : Graph} (vtable : Table G) : List (Nat × ℚ) :=
  printTop20 (fun v => if h : v < G.num_vertices then (vtable ⟨v, h⟩).value else 0) G.num_vertices

end FamGraph.PagerankDelta
