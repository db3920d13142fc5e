/-
Module: FamGraph.Core.MaxDegree
Layer: Core
Purpose: `max_degree` of the utilities `maxd.cpp` and `memusage.cpp`: the largest difference of two
  neighbouring offsets, taken while an `.idx` file is read. The two loops are alike but for the
  progress that `maxd` prints, at a percentage it gets by a division. The file exists and can be
  opened; the command line and what is printed are left out.
Trusted boundary: human-reviewed model of both functions
Main exports: Fault, maxDegreeLoop, Maxd.maxDegree, Memusage.maxDegree
-/
import FamGraph.Foundation.LittleEndian

namespace FamGraph

/-- How a utility ends without a result. -/
inductive Fault where
  | thrown (what : String)
  | divisionByZero
deriving DecidableEq, Repr

/-- The loop over the vertices: `num_vertices` more of them, from `i` on. The body ends with what
    depends on the utility. -/
def maxDegreeLoop (progress : Nat → Except Fault Unit) :
    (i num_vertices : Nat) → (input : List UInt8) → (prev_off max : Nat) → Except Fault Nat
  | _, 0, _, _, max => .ok max
  | i, num_vertices + 1, input, prev_off, max =>
      let word := input.take 8
      if word.length ≠ 8 then .error (.thrown "can't read index data")
      else do
        let off := LittleEndian.decode word
        let edges := (off + (2 ^ 64 - prev_off)) % 2 ^ 64
        progress i
        maxDegreeLoop progress (i + 1) num_vertices (input.drop 8) off (Max.max edges max)

/-- `i % (num_vertices / 100)`, which faults on fewer than 100 vertices. -/
def Maxd.progress (num_vertices : Nat) (_i : Nat) : Except Fault Unit :=
  if num_vertices / 100 = 0 then .error .divisionByZero else .ok ()

/-- `max_degree` of `maxd.cpp` -/
def Maxd.maxDegree (file : List UInt8) : Except Fault Nat :=
  let num_vertices := file.length / 8
  maxDegreeLoop (Maxd.progress num_vertices) 0 num_vertices file 0 0

/-- `max_degree` of `memusage.cpp`, where the progress is commented out. -/
def Memusage.maxDegree (file : List UInt8) : Except Fault Nat :=
  let num_vertices := file.length / 8
  maxDegreeLoop (fun _ => .ok ()) 0 num_vertices file 0 0

end FamGraph
