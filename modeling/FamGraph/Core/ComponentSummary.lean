/-
Module: FamGraph.Core.ComponentSummary
Layer: Core
Purpose: `print_top_n` of `connected_components.hpp`, what a user sees of the labels. `comp_counts`
  is the list of its entries; the order in which the range-for visits a `std::unordered_map` is a
  parameter. `none` is undefined behaviour: an `int` that overflows, or `rbegin()` of an empty
  vector.
Trusted boundary: human-reviewed model of `print_top_n` and `print_result`
Main exports: countLabel, compCounts, tally, Summary, printTopN
-/
import FamGraph.Core.ConnectedComponents
import FamGraph.Core.PrintTop20

namespace FamGraph.ConnectedComponents

/-- One turn of the first loop, for a vertex labelled `rep_comp`. The counts are `uint32_t`. -/
def countLabel (comp_counts : List (Nat × Nat)) (rep_comp : Nat) : List (Nat × Nat) :=
  if rep_comp ∈ comp_counts.map Prod.fst then
    comp_counts.map fun p => if p.1 = rep_comp then (p.1, (p.2 + 1) % 2 ^ 32) else p
  else comp_counts ++ [(rep_comp, 1)]

/-- `comp_counts` after the first loop. -/
def compCounts {G : Graph} (vtable : G.Vertex → ComponentVertex) : List (Nat × Nat) :=
  (List.finRange G.num_vertices).foldl (fun comp_counts v => countLabel comp_counts (vtable v).id)
    []

/-- The sum of two `int`s that are not negative. -/
def addInt (a b : Nat) : Option Nat := if a + b < 2 ^ 31 then some (a + b) else none

/-- The last loop, on what is left of `v` from the back:

        if (count > 1) { non_trivial++; } else { trivial_comps++; }
-/
def tally : List (Nat × Nat) → Nat → Nat → Option (Nat × Nat)
  | [], trivial_comps, non_trivial => some (trivial_comps, non_trivial)
  | (count, _) :: rest, trivial_comps, non_trivial =>
      if count > 1 then
        (addInt non_trivial 1).bind fun non_trivial => tally rest trivial_comps non_trivial
      else (addInt trivial_comps 1).bind fun trivial_comps => tally rest trivial_comps non_trivial

/-- The numbers in the two log lines. -/
structure Summary where
  total : Nat
  non_trivial : Nat
  largest : Nat
deriving DecidableEq, Repr

/-- The two log lines. -/
def Summary.lines (s : Summary) : List String :=
  ["# of total components: " ++ toString s.total,
    "# of non-trivial components: " ++ toString s.non_trivial ++ " largest component size: " ++
      toString s.largest]

/-- `print_top_n`, where `order` is the order in which the entries of `comp_counts` are visited. -/
def printTopN (order : List (Nat × Nat) → List (Nat × Nat)) {G : Graph}
    (vtable : G.Vertex → ComponentVertex) : Option Summary := do
  let v := PagerankDelta.sortPairs ((order (compCounts vtable)).map Prod.swap)
  let (trivial_comps, non_trivial) ← tally v.reverse 0 0
  let total ← addInt non_trivial trivial_comps
  let largest ← v.reverse.head?
  return { total := total, non_trivial := non_trivial, largest := largest.1 }

/-- `print_result` -/
def printResult (order : List (Nat × Nat) → List (Nat × Nat)) {G : Graph} (s : Shared G) :
    Option (List String) :=
  (printTopN order s.vtable).map Summary.lines

end FamGraph.ConnectedComponents
