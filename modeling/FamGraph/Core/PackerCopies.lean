/-
Module: FamGraph.Core.PackerCopies
Layer: Core
Purpose: The loops of `pack_window`, `cache_pack_window` and `pack_window2` as they stand in
  `bitmap.hpp`, each written out by itself with its own order of branches. A `return` from inside
  the loop writes the thread's statistics there and sets `full`; otherwise they are written after
  the loop.
Trusted boundary: human-reviewed model of the packers
Main exports: AsWritten.packWindow, AsWritten.cachePackWindow, AsWritten.packWindow2
-/
import FamGraph.Core.Packing

namespace FamGraph.AsWritten

variable {threads : Nat}

/-- The loop body of `pack_window`. -/
def packWindowBody (o : BuildOptions) (c : ClientContext) (edge_buf edge_buf_size : Nat)
    (frontier : Bitmap threads) (s : PackState) : PackState :=
  if frontier.getBit s.v ≠ 0#64 then
    let n_out_edge := c.degree s.v
    if (s.total_edges + n_out_edge) % 2 ^ 32 ≤ edge_buf_size then
      if n_out_edge > 0 then
        let b := edge_buf + s.total_edges
        let s := { s with marks := s.marks ++ [b, b + (n_out_edge - 1)] }
        let last := s.window.vertex_batch (s.wrs - 1)
        let sge := s.window.sge_window (s.wrs - 1)
        let s :=
          if o.vertex_coalescing ∧ s.batch_size > 0 ∧ s.v = last.v_e + 1 then
            { s with
              window :=
                { s.window with
                  vertex_batch := Function.update s.window.vertex_batch (s.wrs - 1)
                    { last with v_e := s.v }
                  sge_window :=
                    Function.update s.window.sge_window (s.wrs - 1)
                      { sge with length := (sge.length + n_out_edge * 4) % 2 ^ 32 } } }
          else
            let vertex_batch := Function.update s.window.vertex_batch s.wrs
              { v_s := s.v, v_e := s.v }
            { s with
              window :=
                prepWr { s.window with vertex_batch := vertex_batch } s.wrs c b
                  (n_out_edge * 4 % 2 ^ 32) (c.edge_offset s.v * 4)
              wrs := s.wrs + 1 }
        { s with
          batch_size := s.batch_size + 1
          total_edges := (s.total_edges + n_out_edge) % 2 ^ 32
          v := s.v + 1 }
      else { s with v := s.v + 1 }
    else { s.count with full := true }
  else { s with v := s.v + 1 }

/-- The loop body of `cache_pack_window`. A pointer to a cached element that was never set is
    `none`. -/
def cachePackWindowBody (o : BuildOptions) (cache_map : Option CacheMap)
    (cacheManager : Option CacheManager) (c : ClientContext) (edge_buf edge_buf_size : Nat)
    (frontier : Bitmap threads) (s : PackState) :
    PackState :=
  if frontier.getBit s.v ≠ 0#64 then
    let cache_elem := cache_map.bind fun m => m.get s.v
    -- `in_cache` is first set from `cache_elem`; both branches here overwrite that.
    let in_cache :=
      match cacheManager with
      | none => false
      | some m => m.is_vertex_exist s.v
    if in_cache then
      let call :=
        match cacheManager with
        | some m => [{ v := s.v, edges := m.get_neighbors s.v, n := m.get_out_degree s.v }]
        | none =>
            (cache_elem.map fun e =>
              { v := e.id, edges := e.neighbors, n := e.out_degree : Call }).toList
      { s with calls := s.calls ++ call, cache_hit := s.cache_hit + 1, v := s.v + 1 }
    else
      let n_out_edge := c.degree s.v
      if (s.total_edges + n_out_edge) % 2 ^ 32 ≤ edge_buf_size then
        if n_out_edge > 0 then
          let b := edge_buf + s.total_edges
          let s := { s with marks := s.marks ++ [b, b + (n_out_edge - 1)] }
          let last := s.window.vertex_batch (s.wrs - 1)
          let sge := s.window.sge_window (s.wrs - 1)
          let s :=
            if o.vertex_coalescing ∧ s.batch_size > 0 ∧ s.v = last.v_e + 1 then
              { s with
                window :=
                  { s.window with
                    vertex_batch := Function.update s.window.vertex_batch (s.wrs - 1)
                      { last with v_e := s.v }
                    sge_window :=
                      Function.update s.window.sge_window (s.wrs - 1)
                        { sge with length := (sge.length + n_out_edge * 4) % 2 ^ 32 } } }
            else
              let vertex_batch := Function.update s.window.vertex_batch s.wrs
                { v_s := s.v, v_e := s.v }
              { s with
                window :=
                  prepWr { s.window with vertex_batch := vertex_batch } s.wrs c b
                    (n_out_edge * 4 % 2 ^ 32) (c.edge_offset s.v * 4)
                wrs := s.wrs + 1 }
          { s with
            batch_size := s.batch_size + 1
            total_edges := (s.total_edges + n_out_edge) % 2 ^ 32
            v := s.v + 1 }
        else { s with v := s.v + 1 }
      else { s.count with full := true }
  else { s with v := s.v + 1 }

/-- The loop body of `pack_window2`; its guard is `if (true)`. -/
def packWindow2Body (o : BuildOptions) (c : ClientContext) (edge_buf edge_buf_size : Nat)
    (s : PackState) :
    PackState :=
  if true then
    let n_out_edge := c.degree s.v
    if (s.total_edges + n_out_edge) % 2 ^ 32 ≤ edge_buf_size then
      if n_out_edge > 0 then
        let b := edge_buf + s.total_edges
        let s := { s with marks := s.marks ++ [b, b + (n_out_edge - 1)] }
        let last := s.window.vertex_batch (s.wrs - 1)
        let sge := s.window.sge_window (s.wrs - 1)
        let s :=
          if o.vertex_coalescing ∧ s.batch_size > 0 ∧ s.v = last.v_e + 1 then
            { s with
              window :=
                { s.window with
                  vertex_batch := Function.update s.window.vertex_batch (s.wrs - 1)
                    { last with v_e := s.v }
                  sge_window :=
                    Function.update s.window.sge_window (s.wrs - 1)
                      { sge with length := (sge.length + n_out_edge * 4) % 2 ^ 32 } } }
          else
            let vertex_batch := Function.update s.window.vertex_batch s.wrs
              { v_s := s.v, v_e := s.v }
            { s with
              window :=
                prepWr { s.window with vertex_batch := vertex_batch } s.wrs c b
                  (n_out_edge * 4 % 2 ^ 32) (c.edge_offset s.v * 4)
              wrs := s.wrs + 1 }
        { s with
          batch_size := s.batch_size + 1
          total_edges := (s.total_edges + n_out_edge) % 2 ^ 32
          n_wr := s.n_wr + 1
          v := s.v + 1 }
      else { s with v := s.v + 1 }
    else { s.count with full := true }
  else { s with v := s.v + 1 }

/-- The loop and what follows it. -/
def whileThenCount (o : BuildOptions) (edge_buf_size range_end : Nat) (body : PackState → PackState)
    (s : PackState) : PackState :=
  let s := Loop.iter (PackState.cond o edge_buf_size range_end) body (range_end - s.v + 1) s
  if s.full then s else s.count

/-- `pack_window` -/
def packWindow (o : BuildOptions) (window : Window) (edge_buf_size : Nat)
    (range_start range_end : Nat) (frontier : Bitmap threads) (c : ClientContext) (edge_buf : Nat)
    (stats : Nat × Nat × Nat) :
    PackState :=
  whileThenCount o edge_buf_size range_end (packWindowBody o c edge_buf edge_buf_size frontier)
    (.new window 0 0 range_start stats)

/-- `cache_pack_window` -/
def cachePackWindow (o : BuildOptions) (cache_map : Option CacheMap)
    (cacheManager : Option CacheManager) (window : Window) (edge_buf_size : Nat)
    (range_start range_end : Nat) (frontier : Bitmap threads) (c : ClientContext) (edge_buf : Nat)
    (stats : Nat × Nat × Nat) : PackState :=
  whileThenCount o edge_buf_size range_end
    (cachePackWindowBody o cache_map cacheManager c edge_buf edge_buf_size frontier)
    (.new window 0 0 range_start stats)

/-- `pack_window2` -/
def packWindow2 (o : BuildOptions) (window : Window) (batch_size : Nat) (edge_buf_size : Nat)
    (range_start range_end : Nat) (c : ClientContext) (edge_buf : Nat) (n_wr : Nat)
    (stats : Nat × Nat × Nat) : PackState :=
  whileThenCount o edge_buf_size range_end (packWindow2Body o c edge_buf edge_buf_size)
    (.new window batch_size n_wr range_start stats)

end FamGraph.AsWritten
