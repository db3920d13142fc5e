/-
Module: FamGraph.Core.WorkRequests
Layer: Core
Purpose: From a batch of intervals to RDMA READs, as `edgemap.hpp` has it: `coalesce_intervals`,
  `sign_buffer`, `make_WRs` and `post_all`. The vector of work requests is a growable one, so a
  pointer into it names a buffer and an index. Words of the RDMA area are given by their index, the
  server by the context of the packers.
Trusted boundary: human-reviewed model of the four functions; `ibv_post_send` follows `next` and
  either accepts a chain or does not
Main exports: VInterval.length, coalesceIntervals, signBuffer, ReadWr, WR, makeWRs, Posting, postAll
-/
import FamGraph.Core.Edgemap
import FamGraph.Core.Packing
import FamGraph.Foundation.GrowableVector

namespace FamGraph.Edgemap

/-- `interval.end - interval.start` -/
def VInterval.length (i : VInterval) : Nat := (i.end_ + (2 ^ 32 - i.start)) % 2 ^ 32

/-- `last_interval.end += interval.end - interval.start` -/
def VInterval.extend (last_interval interval : VInterval) : VInterval :=
  { last_interval with end_ := (last_interval.end_ + interval.length) % 2 ^ 32 }

/-- `vec[i - 1].v + 1 == interval.v` -/
def VInterval.follows (prev interval : VInterval) : Bool := (prev.v + 1) % 2 ^ 32 = interval.v

/-- The loop of `coalesce_intervals`: `combined` without its last element, that element,
    `vec[i - 1]`, and the intervals from `i` on. -/
def coalesceLoop (combined : List VInterval) (last_interval prev : VInterval) :
    List VInterval → List VInterval
  | [] => combined ++ [last_interval]
  | interval :: vec =>
      if prev.follows interval then
        coalesceLoop combined (last_interval.extend interval) interval vec
      else coalesceLoop (combined ++ [last_interval]) interval interval vec

/-- `coalesce_intervals`; there is no `vec[0]` in an empty vector. -/
def coalesceIntervals : List VInterval → Option (List VInterval)
  | [] => none
  | interval :: vec => some (coalesceLoop [] interval interval vec)

/-- `sign_buffer`: the words it overwrites with `NULL_VERT`, in order. -/
def signBuffer : List VInterval → Nat → List Nat
  | [], _ => []
  | interval :: vec, b =>
      let edges := interval.length
      b :: (b + (edges + (2 ^ 32 - 1)) % 2 ^ 32) :: signBuffer vec (b + edges)

/-- `ibv_send_wr`, an RDMA READ. `sg_list` is the place of the `WR` whose `sge` it points to, `next`
    that of the `WR` whose `wr` it points to. -/
structure ReadWr where
  signaled : Bool
  remote_addr : Nat
  rkey : Nat
  sg_list : Option Slot
  num_sge : Nat
  next : Option Slot
deriving DecidableEq, Repr

/-- `WR` -/
structure WR where
  wr : ReadWr
  sge : Sge
deriving DecidableEq, Repr

/-- All bytes zero. -/
def WR.zero : WR where
  wr :=
    { signaled := false, remote_addr := 0, rkey := 0, sg_list := none, num_sge := 0, next := none }
  sge := { addr := 0, length := 0, lkey := 0 }

/-- The variables of `make_WRs`; `fresh` is the identity of the next buffer allocated. -/
structure MakeState where
  fresh : Nat
  WRs : GrowableVector WR
  buffer : Nat

/-- The loop body of `make_WRs`. -/
def makeStep (policy : GrowthPolicy) (c : ClientContext) (s : MakeState) (interval : VInterval) :
    MakeState :=
  let v := interval.v
  let remote_offset := (c.edge_offset v + interval.start) * 4
  let edges := interval.length
  let (WRs, fresh) := s.WRs.emplaceBack policy s.fresh WR.zero
  let wr : ReadWr :=
    { signaled := false
      remote_addr := c.peer_addr + remote_offset
      rkey := c.peer_rkey
      sg_list := some WRs.back
      num_sge := 1
      next := none }
  let sge : Sge := { addr := s.buffer, length := edges * 4 % 2 ^ 32, lkey := c.lkey }
  { fresh := fresh, WRs := WRs.setBack { wr := wr, sge := sge }, buffer := s.buffer + edges }

/-- `make_WRs` -/
def makeWRs (policy : GrowthPolicy) (c : ClientContext) (fresh : Nat) (vec : List VInterval)
    (RDMA_area : Nat) : GrowableVector WR :=
  (vec.foldl (makeStep policy c) { fresh := fresh, WRs := .empty fresh, buffer := RDMA_area }).WRs

/-- The work requests found from a pointer on along `next`, with their places, up to `fuel` of
    them. -/
def chain (WRs : GrowableVector WR) : Nat → Option Slot → List (Slot × WR)
  | 0, _ => []
  | _ + 1, none => []
  | fuel + 1, some p =>
      match WRs.at? p with
      | none => []
      | some r => (p, r) :: chain WRs fuel r.wr.next

/-- The variables of `post_all`. `chains` are the ones handed to `ibv_post_send`; `died` is set
    where `TEST_NZ` ends the process. -/
structure Posting where
  WRs : GrowableVector WR
  wr : Option Slot
  chains : List (List (Slot × WR))
  died : Bool

/-- The loop body of `post_all`. `accepts n` tells if `ibv_post_send` returns 0 on the `n`-th
    chain. -/
def postStep (WR_WINDOW_SIZE : Nat) (accepts : Nat → Bool) (s : Posting) (i : Nat) : Posting :=
  if s.died then s
  else
    match s.WRs.items[i]? with
    | none => s
    | some my_wr =>
        let size := s.WRs.items.length
        if i % WR_WINDOW_SIZE = WR_WINDOW_SIZE - 1 ∨ i = size - 1 then
          let WRs := s.WRs.set i
            { my_wr with wr := { my_wr.wr with signaled := true, next := none } }
          -- One more than there are, so that a chain that does not end shows.
          let posted := chain WRs (size + 1) s.wr
          { WRs := WRs
            wr := if i = size - 1 then none else some (WRs.slot (i + 1))
            chains := s.chains ++ [posted]
            died := !accepts s.chains.length }
        else
          { s with
            WRs := s.WRs.set i
              { my_wr with wr := { my_wr.wr with next := some (s.WRs.slot (i + 1)) } } }

/-- `post_all` -/
def postAll (WR_WINDOW_SIZE : Nat) (accepts : Nat → Bool) (WRs : GrowableVector WR) : Posting :=
  (List.range WRs.items.length).foldl (postStep WR_WINDOW_SIZE accepts)
    { WRs := WRs, wr := some (WRs.slot 0), chains := [], died := false }

end FamGraph.Edgemap
