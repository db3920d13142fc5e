/-
Module: FamGraph.Core.ConnectedComponents
Layer: Core
Purpose: `connected_components_kernel` of `connected_components.hpp`. The callback `CC_push` and the
  `update_atomic` it calls are split at their atomic accesses. A weak compare-exchange may fail
  spuriously; the hardware does so finitely often, and the shared state carries how often it still
  will.
Trusted boundary: human-reviewed model of `connected_components_vertex` and
  `connected_components_kernel::operator()`
Main exports: ComponentVertex, Push, pushStep, kernel, initial, system
-/
import FamGraph.Core.GraphKernel

namespace FamGraph.ConnectedComponents

/-- `connected_components_vertex` -/
structure ComponentVertex where
  id : Nat
deriving DecidableEq, Repr

/-- `should_update`, on the label just loaded. -/
def ComponentVertex.shouldUpdate (x : ComponentVertex) (proposed_label : Nat) : Bool :=
  proposed_label < x.id

/-- The vertex table, and the number of spurious failures the hardware has left. -/
structure Shared (G : Graph) where
  vtable : G.Vertex → ComponentVertex
  spurious_left : Nat

/-- Write back one entry of the vertex table. -/
def Shared.store {G : Graph} (s : Shared G) (w : G.Vertex) (x : ComponentVertex) : Shared G :=
  { s with vtable := Function.update s.vtable w x }

/-- A running `CC_push` for vertex `v`, by the access it takes next. Inside `update_atomic` on `w`,
    `current` is the local variable of that name. -/
inductive Push (G : Graph) where
  | start (v : G.Vertex) (edges : List G.Vertex)
  | load (v : G.Vertex) (my_id : Nat) (edges : List G.Vertex)
  | check (v : G.Vertex) (my_id : Nat) (w : G.Vertex) (current : Nat) (rest : List G.Vertex)
  | exchange (v : G.Vertex) (my_id : Nat) (w : G.Vertex) (current : Nat) (rest : List G.Vertex)
  | activate (v : G.Vertex) (my_id : Nat) (w : G.Vertex) (rest : List G.Vertex)

/-- One atomic step of `CC_push` by thread `t`. `spurious` makes a compare-exchange fail that could
    have succeeded.

        uint32_t const my_id = vtable[v].id.load();
        for (i < n) { w = edges[i]; if (vtable[w].update_atomic(my_id)) next_frontier->set_bit(w); }

    where `update_atomic` is

        auto current = id.load();
        while (should_update(proposed_label)
               && !(ret = id.compare_exchange_weak(current, proposed_label)));
        return ret;
-/
def pushStep {threads : Nat} {G : Graph} (t : Fin threads) (spurious : Bool) :
    Shared G × Bitmap threads → Push G → Option ((Shared G × Bitmap threads) × Push G)
  | (s, next_frontier), .start v edges =>
      some ((s, next_frontier), .load v (s.vtable v).id edges)
  | _, .load _ _ [] => none
  | (s, next_frontier), .load v my_id (w :: rest) =>
      some ((s, next_frontier), .check v my_id w (s.vtable w).id rest)
  | (s, next_frontier), .check v my_id w current rest =>
      if (s.vtable w).shouldUpdate my_id then
        some ((s, next_frontier), .exchange v my_id w current rest)
      else some ((s, next_frontier), .load v my_id rest)
  | (s, next_frontier), .exchange v my_id w current rest =>
      if spurious then
        match s.spurious_left with
        | 0 => none
        | left + 1 =>
            some (({ s with spurious_left := left }, next_frontier),
              .check v my_id w (s.vtable w).id rest)
      else if (s.vtable w).id = current then
        some ((s.store w { id := my_id }, next_frontier), .activate v my_id w rest)
      else some ((s, next_frontier), .check v my_id w (s.vtable w).id rest)
  | (s, next_frontier), .activate v my_id w rest =>
      some ((s, (next_frontier.setBit t w).1), .load v my_id rest)

/-- `CC_push` has run through its edges. -/
def Push.returned {G : Graph} : Push G → Bool
  | .load _ _ [] => true
  | _ => false

def kernel (threads : Nat) (G : Graph) : PushKernel threads G (Shared G) (Push G) Bool where
  beginRound s := s
  push v edges := .start v edges
  step := pushStep
  returned := Push.returned

/-- What `operator()` has set up when it reaches the loop: every vertex is labelled with itself and
    active. -/
def initial (helpers : Nat) (G : Graph) (spurious : Nat) :
    KernelState (helpers + 1) (Shared G) (Push G) where
  shared := { vtable := fun v => { id := v }, spurious_left := spurious }
  frontier := (Bitmap.fresh G.num_vertices).setAll ⟨0, Nat.succ_pos helpers⟩
  next_frontier := Bitmap.fresh G.num_vertices
  control := .head

/-- `connected_components_kernel::operator()`, on hardware with any finite number of spurious
    failures. -/
def system (helpers : Nat) (G : Graph) :
    TransitionSystem (KernelState (helpers + 1) (Shared G) (Push G)) :=
  (kernel (helpers + 1) G).system fun s => ∃ spurious, s = initial helpers G spurious

end FamGraph.ConnectedComponents
