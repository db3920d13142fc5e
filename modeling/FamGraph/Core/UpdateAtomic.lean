/-
Module: FamGraph.Core.UpdateAtomic
Layer: Core
Purpose: `connected_components_vertex::update_atomic` by itself: any number of calls on one vertex,
  each split at its loads and its weak compare-exchange. A compare-exchange may fail spuriously any
  number of times. Each call notes the changes of the label that its own steps made; the notes
  decide nothing.
Trusted boundary: human-reviewed model of `connected_components_vertex::update_atomic`
Main exports: Call, Call.step, system, note, notedSystem
-/
import FamGraph.Core.ConnectedComponents

namespace FamGraph.ConnectedComponents.UpdateAtomic

/-- A running `update_atomic(proposed_label)`, by the access it takes next. `current` is the local
    variable of that name. -/
inductive Call where
  | load (proposed_label : Nat)
  | check (proposed_label current : Nat)
  | exchange (proposed_label current : Nat)
  | returned (proposed_label : Nat) (ret : Bool)
deriving DecidableEq, Repr

def Call.proposedLabel : Call → Nat
  | .load proposed_label => proposed_label
  | .check proposed_label _ => proposed_label
  | .exchange proposed_label _ => proposed_label
  | .returned proposed_label _ => proposed_label

/-- What the call has returned. -/
def Call.ret? : Call → Option Bool
  | .returned _ ret => some ret
  | _ => none

/-- One atomic step of `update_atomic`. `spurious` makes a compare-exchange fail that could have
    succeeded.

        bool ret = false;
        auto current = id.load();
        while (should_update(proposed_label)
               && !(ret = id.compare_exchange_weak(current, proposed_label)));
        return ret;

    `should_update` loads the label anew. A compare-exchange that fails stores the label it saw in
    `current` and leaves `ret` false.
-/
def Call.step (spurious : Bool) : ComponentVertex → Call → Option (ComponentVertex × Call)
  | x, .load proposed_label => some (x, .check proposed_label x.id)
  | x, .check proposed_label current =>
      if x.shouldUpdate proposed_label then some (x, .exchange proposed_label current)
      else some (x, .returned proposed_label false)
  | x, .exchange proposed_label current =>
      if x.id = current ∧ spurious = false then
        some ({ id := proposed_label }, .returned proposed_label true)
      else some (x, .check proposed_label x.id)
  | _, .returned _ _ => none

def CallAct : TaskPool.Action ComponentVertex Call :=
  fun x c x' c' => ∃ spurious, c.step spurious x = some (x', c')

/-- Concurrent calls with the given proposals on a vertex with the given label. -/
def system (label : Nat) (proposals : List Nat) :
    TransitionSystem (ComponentVertex × List Call) where
  init s := s = ({ id := label }, proposals.map .load)
  step := TaskPool.Step CallAct
  final s := ∀ c ∈ s.2, c.ret?.isSome

/-! ### Notes -/

/-- A change of the label is noted with the label replaced and the label put in its place. -/
def note (x x' : ComponentVertex) (replaced : List (Nat × Nat)) : List (Nat × Nat) :=
  if x'.id = x.id then replaced else replaced ++ [(x.id, x'.id)]

/-- A call, and what its own steps replaced so far. -/
abbrev NotedCall : Type := Call × List (Nat × Nat)

/-- The same calls, each with its notes. -/
def notedSystem (label : Nat) (proposals : List Nat) :
    TransitionSystem (ComponentVertex × List NotedCall) where
  init s := s = ({ id := label }, proposals.map fun p => (.load p, []))
  step := TaskPool.Step (TaskPool.noting CallAct note)
  final s := ∀ c ∈ s.2, c.1.ret?.isSome

end FamGraph.ConnectedComponents.UpdateAtomic
