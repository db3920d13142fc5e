/-
Module: FamGraph.Core.Packing
Layer: Core
Purpose: The window packers of `bitmap.hpp`: `prep_wr`, `pack_window`, `cache_pack_window` and
  `pack_window2`. A packer walks a range of vertices, turns runs of wanted vertices into a chain of
  RDMA READs into one buffer, and marks the first and last word of every adjacency list it asks for.
  The arrays are functions on indices, a `uint32_t *` into the RDMA area is the index of a word, and
  pointers into an array are indices; addresses on the server are byte addresses and do not wrap.
  Clocks are left out.
Trusted boundary: human-reviewed model of the packers; `CacheManager` and `CacheMap` are given by
  what they answer
Main exports: BuildOptions, ClientContext, Window, prepWr, PackState, packWindow, cachePackWindow,
  packWindow2
-/
import FamGraph.Core.Bitmap
import FamGraph.Core.VertexTable
import FamGraph.Foundation.Loop

namespace FamGraph

/-- `famgraph::NULL_VERT` -/
def NULL_VERT : Nat := 2 ^ 32 - 1

/-- `famgraph::build_options`; an array of no work requests could not be indexed. -/
structure BuildOptions where
  wr_window_size : Nat
  vertex_coalescing : Bool
  wr_window_size_pos : 0 < wr_window_size

/-- What the packers read of `client_context` and the vertex table. `words` is the edge array in the
    server's memory, from `peer_addr` on. -/
structure ClientContext where
  num_vertices : Nat
  num_edges : Nat
  edge_offset : Nat → Nat
  peer_addr : Nat
  peer_rkey : Nat
  lkey : Nat
  words : Nat → Nat

namespace ClientContext

/-- `get_num_edges` on this index. -/
def degree (c : ClientContext) (v : Nat) : Nat :=
  getNumEdges v c.edge_offset c.num_vertices c.num_edges

/-- The word at an address of the server. -/
def remote (c : ClientContext) (addr : Nat) : Nat := c.words ((addr - c.peer_addr) / 4)

end ClientContext

/-- `ibv_send_wr`, an RDMA READ. `sg_list` and `next` are indices into the arrays beside it. -/
structure SendWr where
  signaled : Bool
  remote_addr : Nat
  rkey : Nat
  sg_list : Nat
  num_sge : Nat
  next : Option Nat
deriving DecidableEq, Repr

/-- `ibv_sge`; `length` is in bytes. -/
structure Sge where
  addr : Nat
  length : Nat
  lkey : Nat
deriving DecidableEq, Repr

/-- `vertex_range`: the vertices from `v_s` to `v_e`, both included. -/
structure VertexRange where
  v_s : Nat
  v_e : Nat
deriving DecidableEq, Repr

/-- `for (v = v_s; v <= v_e; v++)` -/
def VertexRange.vertices (r : VertexRange) : List Nat := List.range' r.v_s (r.v_e + 1 - r.v_s)

/-- The arrays a driver reuses from window to window. -/
structure Window where
  wr_window : Nat → SendWr
  vertex_batch : Nat → VertexRange
  sge_window : Nat → Sge

/-- A call of the driver's `function`: the vertex, the words its second argument points to, the
    third argument. -/
structure Call where
  v : Nat
  edges : List Nat
  n : Nat
deriving DecidableEq, Repr

/-- `prep_wr` -/
def prepWr (w : Window) (idx : Nat) (c : ClientContext) (buffer length remote_offset : Nat) :
    Window :=
  let wr : SendWr :=
    { signaled := idx = 0
      remote_addr := c.peer_addr + remote_offset
      rkey := c.peer_rkey
      sg_list := idx
      num_sge := 1
      next := none }
  let sge : Sge := { addr := buffer, length := length, lkey := c.lkey }
  let wr_window := Function.update w.wr_window idx wr
  { w with
    wr_window :=
      if 0 < idx then
        Function.update wr_window (idx - 1) { wr_window (idx - 1) with next := some idx }
      else wr_window
    sge_window := Function.update w.sge_window idx sge }

/-- What a packer does with a vertex: nothing, hand it to `function` out of the cache, or fetch
    it. -/
inductive Visit where
  | skip
  | serve (call : Call)
  | fetch
deriving DecidableEq, Repr

/-- The variables of a packer. `full` is set where it returns from inside the loop, `marks` lists
    the words it has overwritten with `NULL_VERT`, `stats` are the thread's `wrs_verts_sends`. -/
structure PackState where
  window : Window
  total_edges : Nat
  batch_size : Nat
  wrs : Nat
  v : Nat
  n_wr : Nat
  full : Bool
  marks : List Nat
  calls : List Call
  cache_hit : Nat
  stats : Nat × Nat × Nat

namespace PackState

/-- The variables at the top of the loop. -/
def new (window : Window) (batch_size n_wr range_start : Nat) (stats : Nat × Nat × Nat) :
    PackState where
  window := window
  total_edges := 0
  batch_size := batch_size
  wrs := 0
  v := range_start
  n_wr := n_wr
  full := false
  marks := []
  calls := []
  cache_hit := 0
  stats := stats

/-- The condition of the `while`. -/
def cond (o : BuildOptions) (edge_buf_size range_end : Nat) (s : PackState) : Bool :=
  !s.full && s.total_edges < edge_buf_size && s.wrs < o.wr_window_size && s.v < range_end

/-- Put `v` into the last work request, if it follows the vertices there, or into a new one. -/
def request (o : BuildOptions) (c : ClientContext) (b n_out_edge : Nat) (s : PackState) :
    PackState :=
  let w := s.window
  let last := w.vertex_batch (s.wrs - 1)
  if o.vertex_coalescing ∧ 0 < s.batch_size ∧ s.v = last.v_e + 1 then
    let sge := w.sge_window (s.wrs - 1)
    { s with
      window :=
        { w with
          vertex_batch := Function.update w.vertex_batch (s.wrs - 1) { last with v_e := s.v }
          sge_window :=
            Function.update w.sge_window (s.wrs - 1)
              { sge with length := (sge.length + n_out_edge * 4) % 2 ^ 32 } } }
  else
    let w :=
      { w with vertex_batch := Function.update w.vertex_batch s.wrs { v_s := s.v, v_e := s.v } }
    { s with
      window := prepWr w s.wrs c b (n_out_edge * 4 % 2 ^ 32) (c.edge_offset s.v * 4)
      wrs := s.wrs + 1 }

/-- The part of the loop body that fetches `v`. -/
def fetch (o : BuildOptions) (c : ClientContext) (edge_buf edge_buf_size : Nat) (s : PackState) :
    PackState :=
  let n_out_edge := c.degree s.v
  if (s.total_edges + n_out_edge) % 2 ^ 32 ≤ edge_buf_size then
    if 0 < n_out_edge then
      let b := edge_buf + s.total_edges
      let s := { s with marks := s.marks ++ [b, b + (n_out_edge - 1)] }
      let s := s.request o c b n_out_edge
      { s with
        batch_size := s.batch_size + 1
        total_edges := (s.total_edges + n_out_edge) % 2 ^ 32
        n_wr := s.n_wr + 1
        v := s.v + 1 }
    else { s with v := s.v + 1 }
  else { s with full := true }

/-- The loop body. -/
def body (o : BuildOptions) (c : ClientContext) (edge_buf edge_buf_size : Nat) (visit : Nat → Visit)
    (s : PackState) : PackState :=
  match visit s.v with
  | .skip => { s with v := s.v + 1 }
  | .serve call =>
      { s with calls := s.calls ++ [call], cache_hit := s.cache_hit + 1, v := s.v + 1 }
  | .fetch => s.fetch o c edge_buf edge_buf_size

/-- The statistics both exits of a packer write. -/
def count (s : PackState) : PackState :=
  { s with stats := (s.stats.1 + s.wrs, s.stats.2.1 + s.batch_size, s.stats.2.2 + 1) }

end PackState

/-- What the three packers have in common. Every turn of the loop but a last one moves on to the
    next vertex, so it turns at most once for each vertex. -/
def pack (o : BuildOptions) (c : ClientContext) (edge_buf edge_buf_size range_end : Nat)
    (visit : Nat → Visit) (s : PackState) : PackState :=
  (Loop.iter (PackState.cond o edge_buf_size range_end)
    (PackState.body o c edge_buf edge_buf_size visit) (range_end - s.v + 1) s).count

/-- `CacheManager`, by its answers. -/
structure CacheManager where
  is_vertex_exist : Nat → Bool
  get_neighbors : Nat → List Nat
  get_out_degree : Nat → Nat

/-- `CacheElem` -/
structure CacheElem where
  id : Nat
  neighbors : List Nat
  out_degree : Nat

/-- `CacheMap`, by its answers. -/
structure CacheMap where
  get : Nat → Option CacheElem

variable {threads : Nat}

/-- The cache lookup of `cache_pack_window`. -/
def lookup (cache_map : Option CacheMap) (cacheManager : Option CacheManager) (v : Nat) : Visit :=
  let cache_elem := cache_map.bind fun m => m.get v
  -- What the CacheMap says about `v` is overwritten here.
  let in_cache :=
    match cacheManager with
    | none => false
    | some m => m.is_vertex_exist v
  if in_cache then
    match cacheManager, cache_elem with
    | some m, _ => .serve { v := v, edges := m.get_neighbors v, n := m.get_out_degree v }
    | none, some e => .serve { v := e.id, edges := e.neighbors, n := e.out_degree }
    | none, none => .fetch
  else .fetch

/-- The vertices `cache_pack_window` skips, serves and fetches. -/
def cacheVisit (cache_map : Option CacheMap) (cacheManager : Option CacheManager)
    (frontier : Bitmap threads) (v : Nat) : Visit :=
  if frontier.getBit v ≠ 0#64 then lookup cache_map cacheManager v else .skip

/-- The vertices `pack_window` skips and fetches. -/
def frontierVisit (frontier : Bitmap threads) (v : Nat) : Visit :=
  if frontier.getBit v ≠ 0#64 then .fetch else .skip

/-- `cache_pack_window`; it returns `v` and `wrs`. -/
def cachePackWindow (o : BuildOptions) (cache_map : Option CacheMap)
    (cacheManager : Option CacheManager) (window : Window) (edge_buf_size : Nat)
    (range_start range_end : Nat) (frontier : Bitmap threads) (c : ClientContext) (edge_buf : Nat)
    (stats : Nat × Nat × Nat) : PackState :=
  pack o c edge_buf edge_buf_size range_end (cacheVisit cache_map cacheManager frontier)
    (.new window 0 0 range_start stats)

/-- `pack_window`; it returns `v` and `wrs`. -/
def packWindow (o : BuildOptions) (window : Window) (edge_buf_size : Nat)
    (range_start range_end : Nat) (frontier : Bitmap threads) (c : ClientContext) (edge_buf : Nat)
    (stats : Nat × Nat × Nat) :
    PackState :=
  pack o c edge_buf edge_buf_size range_end (frontierVisit frontier)
    (.new window 0 0 range_start stats)

/-- `pack_window2`; it returns `v` and `wrs`, and `batch_size` and `n_wr` by reference. -/
def packWindow2 (o : BuildOptions) (window : Window) (batch_size : Nat) (edge_buf_size : Nat)
    (range_start range_end : Nat) (c : ClientContext) (edge_buf : Nat) (n_wr : Nat)
    (stats : Nat × Nat × Nat) : PackState :=
  pack o c edge_buf edge_buf_size range_end (fun _ => .fetch)
    (.new window batch_size n_wr range_start stats)

end FamGraph
