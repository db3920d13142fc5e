/-
Module: FamGraph.Core.PagerankDelta
Layer: Core
Purpose: `pagerank_delta_kernel` of `pagerank_delta.hpp`, with `float` read as exact rationals. An
  iteration runs `pagerank_push` for the frontier and then `vertex_map` for every vertex. A push is
  split at its accesses to shared memory; `vertex_map` touches its own vertex only, which no other
  task of that phase does, and is one step followed by `set_bit`.
Trusted boundary: human-reviewed model of `pagerank_delta_vertex` and
  `pagerank_delta_kernel::operator()`; exact arithmetic
Main exports: PagerankDeltaVertex, Push, pushStep, VertexMap, mapStep, RankState, Step, initial,
  system
-/
import FamGraph.Core.GraphKernel
import Mathlib.Algebra.Order.Field.Rat

namespace FamGraph.PagerankDelta

/-- `constexpr float alpha = 0.85f` -/
def alpha : ℚ := 85 / 100

/-- `constexpr float epsilon = 0.001f` -/
def epsilon : ℚ := 1 / 1000

/-- `constexpr float INIT_RESIDUAL = 1 - alpha` -/
def INIT_RESIDUAL : ℚ := 1 - alpha

/-- `pagerank_delta_vertex` -/
structure PagerankDeltaVertex where
  value : ℚ
  delta : ℚ
  residual : ℚ
deriving DecidableEq

/-- `vertex_map`: the vertex afterwards, and whether its residual was loaded up. -/
def PagerankDeltaVertex.vertexMap (x : PagerankDeltaVertex) : PagerankDeltaVertex × Bool :=
  let res := x.residual
  if |res| > epsilon then ({ value := x.value + res, delta := res, residual := 0 }, true)
  else (x, false)

/-- The vertex table. -/
abbrev Table (G : Graph) : Type := G.Vertex → PagerankDeltaVertex

/-- A running `pagerank_push` for vertex `v`, by the access it takes next. Inside
    `update_add_atomic` on `w`, `current` is the local variable of that name. -/
inductive Push (G : Graph) where
  | start (v : G.Vertex) (edges : List G.Vertex)
  | clear (v : G.Vertex) (my_delta : ℚ) (edges : List G.Vertex)
  | load (v : G.Vertex) (my_val : ℚ) (edges : List G.Vertex)
  | exchange (v : G.Vertex) (my_val : ℚ) (w : G.Vertex) (current : ℚ) (rest : List G.Vertex)

/-- One atomic step of `pagerank_push`. `spurious` makes a compare-exchange fail that could have
    succeeded.

        my_delta = vtable[v].delta;
        vtable[v].delta = 0.0;
        my_val = my_delta * alpha / n;
        for (i < n) { w = edges[i]; vtable[w].update_add_atomic(my_val); }

    where `update_add_atomic` is

        auto current = residual.load();
        while (!residual.compare_exchange_weak(current, current + s_val));
-/
def pushStep {G : Graph} (spurious : Bool) : Table G → Push G → Option (Table G × Push G)
  | vtable, .start v edges =>
      if edges.length > 0 then some (vtable, .clear v (vtable v).delta edges)
      else some (vtable, .load v 0 [])
  | vtable, .clear v my_delta edges =>
      some (Function.update vtable v { vtable v with delta := 0 },
        .load v (my_delta * alpha / edges.length) edges)
  | _, .load _ _ [] => none
  | vtable, .load v my_val (w :: rest) =>
      some (vtable, .exchange v my_val w (vtable w).residual rest)
  | vtable, .exchange v my_val w current rest =>
      if (vtable w).residual = current ∧ spurious = false then
        some (Function.update vtable w { vtable w with residual := current + my_val },
          .load v my_val rest)
      else some (vtable, .exchange v my_val w (vtable w).residual rest)

def Push.returned {G : Graph} : Push G → Bool
  | .load _ _ [] => true
  | _ => false

/-- One vertex of the second parallel loop: `vertex_map` to run, bit to set, or finished. -/
inductive VertexMap (G : Graph) where
  | map (v : G.Vertex)
  | activate (v : G.Vertex)
  | finished

/-- `if (vtable[v].vertex_map()) { next_frontier->set_bit(v); }` on thread `t`. -/
def mapStep {threads : Nat} {G : Graph} (t : Fin threads) :
    Table G × Bitmap threads → VertexMap G → Option ((Table G × Bitmap threads) × VertexMap G)
  | (vtable, next_frontier), .map v =>
      match (vtable v).vertexMap with
      | (x, true) => some ((Function.update vtable v x, next_frontier), .activate v)
      | (x, false) => some ((Function.update vtable v x, next_frontier), .finished)
  | (vtable, next_frontier), .activate v => some ((vtable, (next_frontier.setBit t v).1), .finished)
  | _, .finished => none

def VertexMap.done {G : Graph} : VertexMap G → Bool
  | .finished => true
  | _ => false

def PushAct {G : Graph} : TaskPool.Action (Table G) (Push G) :=
  fun vtable l vtable' l' => ∃ spurious, pushStep spurious vtable l = some (vtable', l')

def MapAct {threads : Nat} {G : Graph} : TaskPool.Action (Table G × Bitmap threads) (VertexMap G) :=
  fun p l p' l' => ∃ t, mapStep t p l = some (p', l')

/-- Where `operator()` is: at the loop head, in one of the two phases of an iteration, or past the
    loop. -/
inductive Control (G : Graph) where
  | head
  | pushing (pool : List (Push G))
  | mapping (pool : List (VertexMap G))
  | stopped

/-- State of a running `operator()`. -/
structure RankState (threads : Nat) (G : Graph) where
  vtable : Table G
  frontier : Bitmap threads
  next_frontier : Bitmap threads
  iter : Nat
  control : Control G

variable {threads : Nat} {G : Graph}

/-- The pushes of an iteration. -/
def pushes (frontier : Bitmap threads) : List (Push G) :=
  (G.calls fun v => frontier.Active v).map fun v => .start v (G.out v)

/-- The second parallel loop visits every vertex. -/
def maps (G : Graph) : List (VertexMap G) := (List.finRange G.num_vertices).map .map

/-- The steps of `operator()` from its loop head on:

        while (!frontier->is_empty() && ++iter < max_iterations) {...}
-/
inductive Step (max_iterations : Nat) : RankState threads G → RankState threads G → Prop where
  | enter {vtable frontier next_frontier iter} :
      frontier.isEmpty = false → iter + 1 < max_iterations →
      Step max_iterations ⟨vtable, frontier, next_frontier, iter, .head⟩
        ⟨vtable, frontier, next_frontier, iter + 1, .pushing (pushes frontier)⟩
  | push {vtable frontier next_frontier iter pool vtable' pool'} :
      TaskPool.Step PushAct (vtable, pool) (vtable', pool') →
      Step max_iterations ⟨vtable, frontier, next_frontier, iter, .pushing pool⟩
        ⟨vtable', frontier, next_frontier, iter, .pushing pool'⟩
  | pushed {vtable frontier next_frontier iter pool} :
      (∀ l ∈ pool, l.returned = true) →
      Step max_iterations ⟨vtable, frontier, next_frontier, iter, .pushing pool⟩
        ⟨vtable, frontier, next_frontier, iter, .mapping (maps G)⟩
  | map {vtable frontier next_frontier iter pool vtable' next_frontier' pool'} :
      TaskPool.Step MapAct ((vtable, next_frontier), pool) ((vtable', next_frontier'), pool') →
      Step max_iterations ⟨vtable, frontier, next_frontier, iter, .mapping pool⟩
        ⟨vtable', frontier, next_frontier', iter, .mapping pool'⟩
  | mapped {vtable frontier next_frontier iter pool} :
      (∀ l ∈ pool, l.done = true) →
      Step max_iterations ⟨vtable, frontier, next_frontier, iter, .mapping pool⟩
        ⟨vtable, next_frontier, frontier.clear, iter, .head⟩
  | stopEmpty {vtable frontier next_frontier iter} :
      frontier.isEmpty = true →
      Step max_iterations ⟨vtable, frontier, next_frontier, iter, .head⟩
        ⟨vtable, frontier, next_frontier, iter, .stopped⟩
  | stopBound {vtable frontier next_frontier iter} :
      frontier.isEmpty = false → ¬ iter + 1 < max_iterations →
      Step max_iterations ⟨vtable, frontier, next_frontier, iter, .head⟩
        ⟨vtable, frontier, next_frontier, iter + 1, .stopped⟩

/-- What `operator()` has set up when it reaches the loop. -/
def initial (helpers : Nat) (G : Graph) : RankState (helpers + 1) G where
  vtable _ := { value := 0, delta := INIT_RESIDUAL, residual := 0 }
  frontier := (Bitmap.fresh G.num_vertices).setAll ⟨0, Nat.succ_pos helpers⟩
  next_frontier := Bitmap.fresh G.num_vertices
  iter := 0
  control := .head

/-- `pagerank_delta_kernel::operator()`; the source fixes `max_iterations` to 5. -/
def system (helpers : Nat) (G : Graph) (max_iterations : Nat) :
    TransitionSystem (RankState (helpers + 1) G) where
  init s := s = initial helpers G
  step := Step max_iterations
  final s := s.control = .stopped

end FamGraph.PagerankDelta
