/-
Module: FamGraph.Core.Edgemap
Layer: Core
Purpose: The edge enumeration of `edgemap.hpp`: the frontier scanner `next_set`, the interval type,
  and the iterator `next_batch`, which hands out the edges of a sub-range of vertices in batches of
  bounded size and carries a partially consumed vertex from one call to the next.
Trusted boundary: human-reviewed model of `next_set` and `next_batch`
Main exports: NextSet, VInterval, NextBatch, NextBatch.isDone, NextBatch.call, drain
-/
import FamGraph.Core.Bitmap
import FamGraph.Foundation.Loop

namespace FamGraph.Edgemap

/-- `next_set`, a scanner over the set bits of a frontier. -/
structure NextSet (threads : Nat) where
  b : Bitmap threads
  from_inclusive : Nat
  end_exclusive : Nat

/-- The `while` loop of `next_set::operator()`, which turns at most `left` more times. -/
def NextSet.scan {threads : Nat} : Nat → NextSet threads → NextSet threads × Nat
  | 0, s => (s, s.end_exclusive)
  | left + 1, s =>
      let prev := s.from_inclusive
      let s := { s with from_inclusive := s.from_inclusive + 1 }
      if s.b.getBit prev ≠ 0#64 then (s, prev) else scan left s

/-- `next_set::operator()` -/
def NextSet.call {threads : Nat} (s : NextSet threads) : NextSet threads × Nat :=
  s.scan (s.end_exclusive - s.from_inclusive)

/-- `v_interval`: the edges `[start, end_)` of vertex `v`, whose degree is `d`. -/
structure VInterval where
  v : Nat
  d : Nat
  start : Nat
  end_ : Nat
deriving DecidableEq, Repr

/-- `next_batch` -/
structure NextBatch (threads : Nat) where
  b : Bitmap threads
  cur_v : Nat
  cur_e : Nat
  end_ : Nat
  capacity : Nat

variable {threads : Nat}

/-- The constructor. -/
def NextBatch.new (b : Bitmap threads) (start end_ capacity : Nat) : NextBatch threads where
  b := b
  cur_v := start
  cur_e := 0
  end_ := end_
  capacity := capacity

def NextBatch.isDone (s : NextBatch threads) : Bool := s.end_ ≤ s.cur_v

/-- The variables of one call of `next_batch::operator()`. -/
structure BatchLoop (threads : Nat) where
  self : NextBatch threads
  vec : List VInterval
  get_next_v : NextSet threads
  edges : Nat

/-- `v < this->end && edges < this->capacity` -/
def BatchLoop.cond (s : BatchLoop threads) : Bool :=
  s.self.cur_v < s.self.end_ && s.edges < s.self.capacity

/-- `v = get_next_v(); this->cur_e = 0;` -/
def BatchLoop.nextVertex (s : BatchLoop threads) : BatchLoop threads :=
  let (get_next_v, v) := s.get_next_v.call
  { s with self := { s.self with cur_v := v, cur_e := 0 }, get_next_v := get_next_v }

/-- The loop body, in `uint32_t` arithmetic. -/
def BatchLoop.body (get_degree : Nat → Nat) (s : BatchLoop threads) : BatchLoop threads :=
  let v := s.self.cur_v
  let d := get_degree v
  if d = 0 then s.nextVertex
  else
    let n_left := (d + (2 ^ 32 - s.self.cur_e)) % 2 ^ 32
    let space_left := (s.self.capacity + (2 ^ 32 - s.edges)) % 2 ^ 32
    let take := min n_left space_left
    let cur_e := (s.self.cur_e + take) % 2 ^ 32
    let interval : VInterval := { v := v, d := d, start := s.self.cur_e, end_ := cur_e }
    let s := { s with vec := s.vec ++ [interval], edges := (s.edges + take) % 2 ^ 32 }
    if take = n_left then s.nextVertex
    else { s with self := { s.self with cur_e := cur_e } }

/-- The variables at the start of a call: the scanner begins after the current vertex. -/
def NextBatch.enter (s : NextBatch threads) : BatchLoop threads where
  self := s
  vec := []
  get_next_v := { b := s.b, from_inclusive := (s.cur_v + 1) % 2 ^ 32, end_exclusive := s.end_ }
  edges := 0

/-- `next_batch::operator()`: the iterator afterwards and the batch. -/
def NextBatch.call (fuel : Nat) (get_degree : Nat → Nat) (s : NextBatch threads) :
    Option (NextBatch threads × List VInterval) :=
  (Loop.run BatchLoop.cond (fun l => some (l.body get_degree)) fuel s.enter).map
    fun l => (l.self, l.vec)

/-- `while (!get_next_batch.is_done()) { intervals = get_next_batch(get_degree); ... }`: all
    batches, in the order in which they are returned. -/
def drain (fuel : Nat) (get_degree : Nat → Nat) (s : NextBatch threads) :
    Option (List (List VInterval)) :=
  (Loop.run (fun p : NextBatch threads × List (List VInterval) => !p.1.isDone)
    (fun p => (p.1.call fuel get_degree).map fun q => (q.1, p.2 ++ [q.2])) fuel (s, [])).map
      Prod.snd

end FamGraph.Edgemap
