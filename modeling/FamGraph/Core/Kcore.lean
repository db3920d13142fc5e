/-
Module: FamGraph.Core.Kcore
Layer: Core
Purpose: `kcore::kcore_kernel` of `kcore.hpp`. The callback `kcore_push` is split at its two atomic
  accesses, `fetch_sub` and `set_bit`; the parallel loop that seeds the frontier visits the vertices
  in any order and on any threads; `kth_core_membership` combines any tree of sub-ranges
  `tbb::parallel_reduce` may build.
Trusted boundary: human-reviewed model of `kcore_vertex`, `kcore_kernel::operator()` and
  `kth_core_membership`
Main exports: KcoreVertex, Push, pushStep, kernel, initial, system, kthCoreMembership
-/
import FamGraph.Core.GraphKernel

namespace FamGraph.Kcore

/-- `kcore_vertex` -/
structure KcoreVertex where
  degree : Nat
deriving DecidableEq, Repr

/-- `degree.fetch_sub(1)` on a `uint32_t`: the vertex afterwards, and the old degree. -/
def KcoreVertex.subtractDegree (x : KcoreVertex) : KcoreVertex × Nat :=
  ({ degree := (x.degree + (2 ^ 32 - 1)) % 2 ^ 32 }, x.degree)

/-- The vertex table. `activated` is a history variable: every vertex `set_bit` has been called for
    in the whole run, latest first. -/
structure Shared (G : Graph) where
  vtable : G.Vertex → KcoreVertex
  activated : List G.Vertex

/-- Write back one entry of the vertex table. -/
def Shared.store {G : Graph} (s : Shared G) (w : G.Vertex) (x : KcoreVertex) : Shared G :=
  { s with vtable := Function.update s.vtable w x }

/-- A running `kcore_push`, by the atomic access it takes next. -/
inductive Push (G : Graph) where
  | subtract (edges : List G.Vertex)
  | activate (w : G.Vertex) (rest : List G.Vertex)

/-- One atomic step of `kcore_push` by thread `t`:

        uint32_t old = vtable[w].subtract_degree();
        if (old == k) { next_frontier->set_bit(w); }
-/
def pushStep {threads : Nat} {G : Graph} (k : Nat) (t : Fin threads) (_ : Unit) :
    Shared G × Bitmap threads → Push G → Option ((Shared G × Bitmap threads) × Push G)
  | _, .subtract [] => none
  | (s, next_frontier), .subtract (w :: rest) =>
      let (x, old) := (s.vtable w).subtractDegree
      if old = k then some ((s.store w x, next_frontier), .activate w rest)
      else some ((s.store w x, next_frontier), .subtract rest)
  | (s, next_frontier), .activate w rest =>
      some (({ s with activated := w :: s.activated }, (next_frontier.setBit t w).1),
        .subtract rest)

/-- `kcore_push` has run through its edges. -/
def Push.returned {G : Graph} : Push G → Bool
  | .subtract [] => true
  | _ => false

def kernel (threads : Nat) (G : Graph) (k : Nat) :
    PushKernel threads G (Shared G) (Push G) Unit where
  beginRound s := s
  push _ edges := .subtract edges
  step := pushStep k
  returned := Push.returned

/-- The vertices the loop before the rounds activates. -/
def seeds (G : Graph) (k : Nat) : List G.Vertex :=
  (List.finRange G.num_vertices).filter fun v => (G.out v).length < k

/-- The frontier after that loop, when the vertices of `order` were activated in turn, each by the
    thread `worker` gives. -/
def seedFrontier {threads : Nat} (G : Graph) (worker : G.Vertex → Fin threads)
    (order : List G.Vertex) : Bitmap threads :=
  order.foldr (fun v b => (b.setBit (worker v) v).1) (Bitmap.fresh G.num_vertices)

/-- What `operator()` has set up when it reaches the loop. -/
def initial {threads : Nat} (G : Graph) (worker : G.Vertex → Fin threads) (order : List G.Vertex) :
    KernelState threads (Shared G) (Push G) where
  shared := { vtable := fun v => { degree := (G.out v).length }, activated := order }
  frontier := seedFrontier G worker order
  next_frontier := Bitmap.fresh G.num_vertices
  control := .head

/-- `kcore_kernel::operator()`, whichever way the seeding loop was scheduled. -/
def system (helpers : Nat) (G : Graph) (k : Nat) :
    TransitionSystem (KernelState (helpers + 1) (Shared G) (Push G)) :=
  (kernel (helpers + 1) G k).system fun s =>
    ∃ worker order, order.Perm (seeds G k) ∧ s = initial G worker order

/-! ### The size of the core -/

/-- The results `tbb::parallel_reduce` may produce for `[lo, hi)`: a body starts from the identity,
    runs through sub-ranges from left to right, and is joined with the body of the range to its
    right. -/
inductive ParallelReduce {β : Type*} (identity : β) (func : Nat → Nat → β → β) (join : β → β → β) :
    Nat → Nat → β → Prop where
  | identity (lo : Nat) : ParallelReduce identity func join lo lo identity
  | range {lo mid hi : Nat} {x : β} : mid ≤ hi → ParallelReduce identity func join lo mid x →
      ParallelReduce identity func join lo hi (func mid hi x)
  | join {lo mid hi : Nat} {x y : β} : ParallelReduce identity func join lo mid x →
      ParallelReduce identity func join mid hi y →
      ParallelReduce identity func join lo hi (join x y)

/-- `init = vtable[i].degree >= t_k ? init + 1 : init` for each `i` of `[first, last)`. -/
def countMembers {G : Graph} (vtable : G.Vertex → KcoreVertex) (t_k first last init : Nat) : Nat :=
  ((List.finRange G.num_vertices).filter fun i => first ≤ i.val ∧ i.val < last).foldl
    (fun init i => if t_k ≤ (vtable i).degree then (init + 1) % 2 ^ 32 else init) init

/-- `size` is a value `kth_core_membership` may return for the whole vertex range. -/
def KthCoreMembership {G : Graph} (vtable : G.Vertex → KcoreVertex) (t_k size : Nat) : Prop :=
  ParallelReduce 0 (countMembers vtable t_k) (fun a b => (a + b) % 2 ^ 32) 0 G.num_vertices size

end FamGraph.Kcore
