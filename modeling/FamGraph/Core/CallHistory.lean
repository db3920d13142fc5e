/-
Module: FamGraph.Core.CallHistory
Layer: Core
Purpose: What the runs of a push-style kernel ask its driver for. The loop of `operator()` calls
  `ccy_for_each_active_batch` once a round with the frontier of that round; `drives` keeps the
  frontiers of these calls beside the state of the kernel, and `requested` lists the vertices they
  ask for, call by call. The history decides nothing about the run.
Trusted boundary: human-reviewed model of where the kernels call their driver
Main exports: noteDrive, drives, Graph.requested
-/
import FamGraph.Core.Bfs
import FamGraph.Core.ConnectedComponents
import FamGraph.Core.Kcore

namespace FamGraph

variable {threads : Nat} {Shared Local : Type}

/-- Entering a round is the call of the driver with the frontier. -/
def noteDrive (s t : KernelState threads Shared Local) (frontiers : List (Bitmap threads)) :
    List (Bitmap threads) :=
  match s.control, t.control with
  | .head, .pushing _ => frontiers ++ [s.frontier]
  | _, _ => frontiers

/-- A kernel with the frontiers it has called its driver with. -/
def drives (kernel : TransitionSystem (KernelState threads Shared Local)) :
    TransitionSystem (KernelState threads Shared Local × List (Bitmap threads)) :=
  kernel.withHistory [] noteDrive

/-- The vertices the drivers invoke the callback for, call after call. -/
def Graph.requested (G : Graph) (frontiers : List (Bitmap threads)) : List G.Vertex :=
  frontiers.flatMap fun frontier => G.calls fun v => frontier.Active v

end FamGraph
