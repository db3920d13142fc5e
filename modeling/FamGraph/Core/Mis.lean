/-
Module: FamGraph.Core.Mis
Layer: Core
Purpose: `mis::mis_kernel` of `mis.hpp`. Every iteration pulls the undecided vertices of the
  frontier, then opens a window of at most `delta` undecided vertices and pulls those. The callback
  `pull` is split at its accesses to flags, to the next frontier and to the thread-local counters.
  Assertions are compiled out, as the build does.
Trusted boundary: human-reviewed model of `mis_vertex` and `mis_kernel::operator()`
Main exports: MatchFlag, Combinable, Pull, pullStep, MisState, Step, initial, system
-/
import FamGraph.Core.GraphKernel

namespace FamGraph.Mis

inductive MatchFlag where
  | UNDECIDED
  | IN
  | OUT
deriving DecidableEq, Repr

/-- `mis_vertex` -/
structure MisVertex where
  flag : MatchFlag := .UNDECIDED
deriving DecidableEq, Repr

/-- `tbb::combinable<uint32_t>`: one counter for each thread. -/
abbrev Combinable (threads : Nat) : Type := Fin threads → BitVec 32

namespace Combinable

variable {threads : Nat}

/-- No thread has a counter yet; also the state after `clear()`. -/
def zero : Combinable threads := fun _ => 0#32

/-- `++counter.local()` on thread `t`. -/
def increment (c : Combinable threads) (t : Fin threads) : Combinable threads :=
  Function.update c t (c t + 1#32)

/-- `combine(std::plus<uint32_t>{})` -/
def combine (c : Combinable threads) : BitVec 32 := ∑ t, c t

end Combinable

/-- The vertex table and the counters `pull` captures. -/
structure Shared (threads : Nat) (G : Graph) where
  vtable : G.Vertex → MisVertex
  n_decided : Combinable threads
  next_frontier_size : Combinable threads

/-- Write back one entry of the vertex table. -/
def Shared.store {threads : Nat} {G : Graph} (s : Shared threads G) (v : G.Vertex) (x : MisVertex) :
    Shared threads G :=
  { s with vtable := Function.update s.vtable v x }

/-- A running `pull` for vertex `v`, by the access it takes next. `v_flag` is the local variable. -/
inductive Pull (G : Graph) where
  | enter (v : G.Vertex) (edges : List G.Vertex)
  | scan (v : G.Vertex) (v_flag : MatchFlag) (edges : List G.Vertex)
  | activate (v : G.Vertex)
  | countNext (v : G.Vertex)
  | countDecided (v : G.Vertex) (v_flag : MatchFlag)
  | write (v : G.Vertex) (v_flag : MatchFlag)
  | returned (v : G.Vertex)

/-- The `switch` on the flag of a neighbour with priority. -/
def nextFlag (v_flag : MatchFlag) : MatchFlag → MatchFlag
  | .UNDECIDED => .UNDECIDED
  | .IN => .OUT
  | .OUT => v_flag

/-- One step of `pull` by thread `t`:

        if (vtable[v].flag == OUT) return;
        v_flag = IN;
        for (i < n) {
          w = edges[i];
          if (w < v) { switch (vtable[w].flag) {...}  if (v_flag == OUT) break; }
        }
        if (v_flag == UNDECIDED) { next_frontier->set_bit(v); ++next_frontier_size.local(); }
        else { ++n_decided.local(); }
        vtable[v].flag = v_flag;
-/
def pullStep {threads : Nat} {G : Graph} (t : Fin threads) :
    Shared threads G × Bitmap threads → Pull G →
      Option ((Shared threads G × Bitmap threads) × Pull G)
  | (s, next_frontier), .enter v edges =>
      if (s.vtable v).flag = .OUT then some ((s, next_frontier), .returned v)
      else some ((s, next_frontier), .scan v .IN edges)
  | (s, next_frontier), .scan v v_flag [] =>
      if v_flag = .UNDECIDED then some ((s, next_frontier), .activate v)
      else some ((s, next_frontier), .countDecided v v_flag)
  | (s, next_frontier), .scan v v_flag (w :: rest) =>
      if w < v then
        let v_flag := nextFlag v_flag (s.vtable w).flag
        -- `break` leaves the loop with the remaining edges unread
        some ((s, next_frontier), .scan v v_flag (if v_flag = .OUT then [] else rest))
      else some ((s, next_frontier), .scan v v_flag rest)
  | (s, next_frontier), .activate v => some ((s, (next_frontier.setBit t v).1), .countNext v)
  | (s, next_frontier), .countNext v =>
      some (({ s with next_frontier_size := s.next_frontier_size.increment t }, next_frontier),
        .write v .UNDECIDED)
  | (s, next_frontier), .countDecided v v_flag =>
      some (({ s with n_decided := s.n_decided.increment t }, next_frontier), .write v v_flag)
  | (s, next_frontier), .write v v_flag =>
      some ((s.store v { flag := v_flag }, next_frontier), .returned v)
  | _, .returned _ => none

def Act {threads : Nat} {G : Graph} :
    TaskPool.Action (Shared threads G × Bitmap threads) (Pull G) :=
  fun p l p' l' => ∃ t, pullStep t p l = some (p', l')

def Pull.done {G : Graph} : Pull G → Bool
  | .returned _ => true
  | _ => false

/-- Where `operator()` is: at the loop head, pulling the frontier, pulling the new range, or past
    the loop. -/
inductive Control (G : Graph) where
  | head
  | frontierPulls (pulls : List (Pull G))
  | rangePulls (pulls : List (Pull G))
  | stopped

/-- State of a running `operator()`. `start`, `end_` and the counts are `uint32_t`. -/
structure MisState (threads : Nat) (G : Graph) where
  shared : Shared threads G
  frontier : Bitmap threads
  next_frontier : Bitmap threads
  start : BitVec 32
  end_ : BitVec 32
  undecided : BitVec 32
  front_size : BitVec 32
  control : Control G

variable {threads : Nat} {G : Graph}

def totalVerts (G : Graph) : BitVec 32 := BitVec.ofNat 32 G.num_vertices

/-- The pulls a driver starts. -/
def pulls (wanted : G.Vertex → Bool) : List (Pull G) :=
  (G.calls wanted).map fun v => .enter v (G.out v)

/-- `ccy_for_each_active_batch` over `[0, end)`, if there is an undecided vertex to visit. -/
def MisState.frontierPulls (s : MisState threads G) : List (Pull G) :=
  if 0#32 < s.front_size then pulls fun v => s.frontier.Active v && v.val < s.end_.toNat else []

/-- `end = std::min(total_verts, end + delta - front_size)` -/
def MisState.nextEnd (delta : BitVec 32) (s : MisState threads G) : BitVec 32 :=
  let window := s.end_ + delta - s.front_size
  if window < totalVerts G then window else totalVerts G

/-- `for_each_range` over `[start, end)`, if that is not empty. -/
def MisState.rangePulls (s : MisState threads G) : List (Pull G) :=
  if s.start < s.end_ then pulls fun v => s.start.toNat ≤ v.val && v.val < s.end_.toNat else []

/-- The end of the loop body: the counters are read off and reset, the frontiers change places. -/
def MisState.finishRound (s : MisState threads G) : MisState threads G where
  shared := { s.shared with n_decided := .zero, next_frontier_size := .zero }
  frontier := s.next_frontier
  next_frontier := s.frontier.clear
  start := s.end_
  end_ := s.end_
  undecided := s.undecided - s.shared.n_decided.combine
  front_size := s.shared.next_frontier_size.combine
  control := .head

/-- The steps of `operator()` from its loop head on. -/
inductive Step (delta : BitVec 32) : MisState threads G → MisState threads G → Prop where
  | enter {s : MisState threads G} :
      s.control = .head → 0#32 < s.undecided →
      Step delta s { s with control := .frontierPulls s.frontierPulls }
  | pullFrontier {s : MisState threads G} {pool shared next_frontier pool'} :
      s.control = .frontierPulls pool →
      TaskPool.Step Act ((s.shared, s.next_frontier), pool) ((shared, next_frontier), pool') →
      Step delta s { s with
        shared := shared, next_frontier := next_frontier, control := .frontierPulls pool' }
  | breakGround {s : MisState threads G} {pool} :
      s.control = .frontierPulls pool → (∀ l ∈ pool, l.done = true) →
      Step delta s { s with
        end_ := s.nextEnd delta
        control := .rangePulls { s with end_ := s.nextEnd delta }.rangePulls }
  | pullRange {s : MisState threads G} {pool shared next_frontier pool'} :
      s.control = .rangePulls pool →
      TaskPool.Step Act ((s.shared, s.next_frontier), pool) ((shared, next_frontier), pool') →
      Step delta s { s with
        shared := shared, next_frontier := next_frontier, control := .rangePulls pool' }
  | finish {s : MisState threads G} {pool} :
      s.control = .rangePulls pool → (∀ l ∈ pool, l.done = true) →
      Step delta s s.finishRound
  | stop {s : MisState threads G} :
      s.control = .head → ¬ 0#32 < s.undecided →
      Step delta s { s with control := .stopped }

/-- The vertices the loop before the rounds decides. -/
def zeroDegNodes (G : Graph) : List G.Vertex :=
  (List.finRange G.num_vertices).filter fun v => (G.out v).length = 0

/-- What `operator()` has set up when it reaches the loop: vertices without out-edges are in. -/
def initial (threads : Nat) (G : Graph) : MisState threads G where
  shared :=
    { vtable := fun v => if (G.out v).length = 0 then { flag := .IN } else {}
      n_decided := .zero
      next_frontier_size := .zero }
  frontier := Bitmap.fresh G.num_vertices
  next_frontier := Bitmap.fresh G.num_vertices
  start := 0#32
  end_ := 0#32
  undecided := totalVerts G - BitVec.ofNat 32 (zeroDegNodes G).length
  front_size := 0#32
  control := .head

/-- `mis_kernel::operator()`. A zero divisor traps before the loop. -/
def system (helpers : Nat) (G : Graph) (divisor : BitVec 32) :
    TransitionSystem (MisState (helpers + 1) G) where
  init s := divisor ≠ 0#32 ∧ s = initial (helpers + 1) G
  step := Step (totalVerts G / divisor)
  final s := s.control = .stopped

end FamGraph.Mis
