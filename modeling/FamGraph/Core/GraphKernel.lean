/-
Module: FamGraph.Core.GraphKernel
Layer: Core
Purpose: What the kernels share. `Graph` is the graph as the runtime sees it: vertex ids and
  callback lengths are `uint32_t`. `Graph.calls` lists the callback invocations a batch driver
  makes, one for each wanted vertex with out-edges. `PushKernel` is the loop that bfs, connected
  components and k-core have in common,

    while (!frontier->is_empty()) {
      ...ccy_for_each_active_batch(..., *frontier, my_range, c, push);
      frontier->clear();
      std::swap(frontier, next_frontier);
    }

  where the invocations of `push` of one round run as a pool of tasks whose atomic steps interleave
  in any order.
Trusted boundary: human-reviewed model of the kernel loops
Main exports: Graph, Graph.calls, PushKernel, KernelState, PushKernel.Step, PushKernel.system
-/
import FamGraph.Core.Bitmap
import FamGraph.Foundation.Multigraph
import FamGraph.Foundation.TaskPool
import FamGraph.Foundation.TransitionSystem

namespace FamGraph

/-- A graph with `uint32_t` vertex ids whose adjacency lists have a `uint32_t` length. -/
structure Graph where
  num_vertices : Nat
  adjacency : Multigraph (Fin num_vertices)
  num_vertices_lt : num_vertices < 2 ^ 32
  degree_lt : ∀ v, (adjacency.out v).length < 2 ^ 32

namespace Graph

/-- Vertex ids of `G`. -/
abbrev Vertex (G : Graph) : Type := Fin G.num_vertices

/-- The adjacency list the callback receives for `v`. -/
abbrev out (G : Graph) (v : G.Vertex) : List G.Vertex := G.adjacency.out v

/-- The vertices a driver invokes the callback for (invocations with `n = 0` left out). -/
def calls (G : Graph) (wanted : G.Vertex → Bool) : List G.Vertex :=
  (List.finRange G.num_vertices).filter fun v => wanted v && !(G.out v).isEmpty

end Graph

/-- The kernel's own part of a push-style kernel. `Shared` is the vertex table with the variables of
    `operator()` that the callback captures, `Local` the control state of one running callback. A
    step of a callback is taken by a thread, and may depend on a `Choice` of the hardware. -/
structure PushKernel (threads : Nat) (G : Graph) (Shared Local Choice : Type) where
  beginRound : Shared → Shared
  push : G.Vertex → List G.Vertex → Local
  step : Fin threads → Choice → Shared × Bitmap threads → Local →
    Option ((Shared × Bitmap threads) × Local)
  returned : Local → Bool

/-- Where `operator()` is: at the loop head, inside the driver with running callbacks, or past the
    loop. -/
inductive Control (Local : Type) where
  | head
  | pushing (tasks : List Local)
  | stopped

/-- State of a running kernel between two atomic steps. -/
structure KernelState (threads : Nat) (Shared Local : Type) where
  shared : Shared
  frontier : Bitmap threads
  next_frontier : Bitmap threads
  control : Control Local

namespace PushKernel

variable {threads : Nat} {G : Graph} {Shared Local Choice : Type}

/-- One atomic step of one running callback, by any thread and with any hardware choice. -/
def Act (K : PushKernel threads G Shared Local Choice) :
    TaskPool.Action (Shared × Bitmap threads) Local :=
  fun p l p' l' => ∃ t choice, K.step t choice p l = some (p', l')

/-- The callbacks a driver starts for the active vertices of a frontier. -/
def tasks (K : PushKernel threads G Shared Local Choice) (frontier : Bitmap threads) : List Local :=
  (G.calls fun v => frontier.Active v).map fun v => K.push v (G.out v)

/-- The steps of `operator()` from its loop head on. -/
inductive Step (K : PushKernel threads G Shared Local Choice) :
    KernelState threads Shared Local → KernelState threads Shared Local → Prop where
  | enter {shared frontier next_frontier} :
      frontier.isEmpty = false →
      Step K ⟨shared, frontier, next_frontier, .head⟩
        ⟨K.beginRound shared, frontier, next_frontier, .pushing (K.tasks frontier)⟩
  | push {shared frontier next_frontier pool shared' next_frontier' pool'} :
      TaskPool.Step K.Act ((shared, next_frontier), pool) ((shared', next_frontier'), pool') →
      Step K ⟨shared, frontier, next_frontier, .pushing pool⟩
        ⟨shared', frontier, next_frontier', .pushing pool'⟩
  | leave {shared frontier next_frontier pool} :
      (∀ l ∈ pool, K.returned l = true) →
      Step K ⟨shared, frontier, next_frontier, .pushing pool⟩
        ⟨shared, next_frontier, frontier.clear, .head⟩
  | stop {shared frontier next_frontier} :
      frontier.isEmpty = true →
      Step K ⟨shared, frontier, next_frontier, .head⟩ ⟨shared, frontier, next_frontier, .stopped⟩

/-- `operator()` as a transition system. -/
def system (K : PushKernel threads G Shared Local Choice)
    (init : KernelState threads Shared Local → Prop) :
    TransitionSystem (KernelState threads Shared Local) where
  init := init
  step := K.Step
  final s := s.control = .stopped

end PushKernel

end FamGraph
