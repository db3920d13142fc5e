/-
Module: FamGraph.Core.Bfs
Layer: Core
Purpose: `bfs::bfs_kernel` of `bfs.hpp`. The callback `bfs_push` is split at its atomic accesses:
  load `visited`, compare-exchange `parent`, store `visited`, `set_bit`.
Trusted boundary: human-reviewed model of `bfs_vertex` and `bfs_kernel::operator()`
Main exports: BfsVertex, BfsVertex.updateAtomic, Push, pushStep, kernel, initial, system
-/
import FamGraph.Core.GraphKernel

namespace FamGraph.Bfs

/-- `constexpr uint32_t NULLVERT` -/
def NULLVERT : Nat := 0xFFFFFFFF

/-- `bfs_vertex` -/
structure BfsVertex where
  parent : Nat := NULLVERT
  visited : Bool := false
deriving DecidableEq, Repr

/-- `update_atomic`: a strong compare-exchange of `parent` from `NULLVERT`; true if it succeeded. -/
def BfsVertex.updateAtomic (x : BfsVertex) (t_parent : Nat) : BfsVertex × Bool :=
  if x.parent = NULLVERT then ({ x with parent := t_parent }, true) else (x, false)

/-- The vertex table and the round counter `bfs_push` captures. -/
structure Shared (G : Graph) where
  vtable : G.Vertex → BfsVertex
  round : Nat

/-- Write back one entry of the vertex table. -/
def Shared.store {G : Graph} (s : Shared G) (w : G.Vertex) (x : BfsVertex) : Shared G :=
  { s with vtable := Function.update s.vtable w x }

/-- A running `bfs_push`, by the atomic access it takes next. The list holds the edges not yet
    looked at. -/
inductive Push (G : Graph) where
  | load (edges : List G.Vertex)
  | update (w : G.Vertex) (rest : List G.Vertex)
  | visit (w : G.Vertex) (rest : List G.Vertex)
  | activate (w : G.Vertex) (rest : List G.Vertex)

/-- One atomic step of `bfs_push` by thread `t`:

        if (!vtable[w].visited && vtable[w].update_atomic(round)) {
          vtable[w].visited = true;
          next_frontier->set_bit(w);
        }
-/
def pushStep {threads : Nat} {G : Graph} (t : Fin threads) (_ : Unit) :
    Shared G × Bitmap threads → Push G → Option ((Shared G × Bitmap threads) × Push G)
  | _, .load [] => none
  | (s, next_frontier), .load (w :: rest) =>
      if (s.vtable w).visited then some ((s, next_frontier), .load rest)
      else some ((s, next_frontier), .update w rest)
  | (s, next_frontier), .update w rest =>
      match (s.vtable w).updateAtomic s.round with
      | (x, true) => some ((s.store w x, next_frontier), .visit w rest)
      | (_, false) => some ((s, next_frontier), .load rest)
  | (s, next_frontier), .visit w rest =>
      some ((s.store w { s.vtable w with visited := true }, next_frontier), .activate w rest)
  | (s, next_frontier), .activate w rest =>
      some ((s, (next_frontier.setBit t w).1), .load rest)

/-- `bfs_push` has run through its edges. -/
def Push.returned {G : Graph} : Push G → Bool
  | .load [] => true
  | _ => false

/-- `bfs_kernel`: `++round`, then `bfs_push` for every active vertex. -/
def kernel (threads : Nat) (G : Graph) : PushKernel threads G (Shared G) (Push G) Unit where
  beginRound s := { s with round := (s.round + 1) % 2 ^ 32 }
  push _ edges := .load edges
  step := pushStep
  returned := Push.returned

/-- What `operator()` has set up when it reaches the loop: only `start_v` is active, at distance 0.
    It runs on thread 0, next to `helpers` further threads. -/
def initial (helpers : Nat) (G : Graph) (start_v : G.Vertex) :
    KernelState (helpers + 1) (Shared G) (Push G) :=
  let vtable : G.Vertex → BfsVertex := fun _ => { visited := false }
  { shared :=
      { vtable := Function.update vtable start_v ((vtable start_v).updateAtomic 0).1
        round := 0 }
    frontier := ((Bitmap.fresh G.num_vertices).clear.setBit 0 start_v).1
    next_frontier := Bitmap.fresh G.num_vertices
    control := .head }

/-- `bfs_kernel::operator()` from `start_v`. -/
def system (helpers : Nat) (G : Graph) (start_v : G.Vertex) :
    TransitionSystem (KernelState (helpers + 1) (Shared G) (Push G)) :=
  (kernel (helpers + 1) G).system (· = initial helpers G start_v)

end FamGraph.Bfs
