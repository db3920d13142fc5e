/-
Module: FamGraph.Core.BatchDrivers
Layer: Core
Purpose: The drivers of `bitmap.hpp` that fetch a range of vertices window by window and run a
  callback on each adjacency list: `for_each_active_batch`, `ccy_for_each_active_batch` and
  `for_each_range`. A driver is given by what it does with one sub-range of `tbb::parallel_for`, on
  one worker; the READs it posts complete before it decodes the buffer, and `ibv_post_send` fails
  with ENOMEM at most, which only `ccy_for_each_active_batch` survives. A call records what the
  callback is given. Clocks and the printing of statistics are left out.
Trusted boundary: human-reviewed model of the drivers; a READ copies the words its work request
  names
Main exports: readWords, posted, decode, Worker, ccyForEachActiveBatch, forEachActiveBatch,
  forEachRange, parallelFor
-/
import FamGraph.Core.Packing
import FamGraph.Foundation.Memory

namespace FamGraph

/-- The words a READ puts into memory, in ascending order. -/
def readWords (c : ClientContext) (wr : SendWr) (sge : Sge) : List (Nat × Nat) :=
  Memory.segment sge.addr
    ((List.range (sge.length / 4)).map fun j => c.remote (wr.remote_addr + 4 * j))

/-- The work requests reached from one along `next`; an array of `fuel` requests has no longer
    chain. -/
def Window.chain (w : Window) : Nat → Option Nat → List Nat
  | 0, _ => []
  | _ + 1, none => []
  | fuel + 1, some i => i :: chain w fuel (w.wr_window i).next

/-- What the READs of a chain from `my_window[0]` on write, request by request. -/
def posted (o : BuildOptions) (c : ClientContext) (w : Window) : List (List (Nat × Nat)) :=
  (w.chain o.wr_window_size (some 0)).map fun i =>
    readWords c (w.wr_window i) (w.sge_window (w.wr_window i).sg_list)

/-- The vertices the two loops over `vertex_batch` go through. -/
def batchVertices (w : Window) (wrs : Nat) : List Nat :=
  (List.range wrs).flatMap fun i => (w.vertex_batch i).vertices

/-- The decoding loops, from `e_buf` on. Nothing changes the memory any more, so a word that is
    `NULL_VERT` is waited for forever. -/
def decode (c : ClientContext) (mem : Nat → Nat) : List Nat → Nat → Option (List Call)
  | [], _ => some []
  | v :: vs, e_buf =>
      let n_edges := c.degree v
      if mem e_buf = NULL_VERT then none
      else if mem (e_buf + (n_edges + (2 ^ 32 - 1)) % 2 ^ 32) = NULL_VERT then none
      else do
        let calls ← decode c mem vs (e_buf + n_edges)
        return { v := v, edges := Memory.read mem e_buf n_edges, n := n_edges } :: calls

/-- The worker a sub-range runs on: its index, the RDMA area and its arrays as it finds them. -/
structure Worker where
  worker_id : Nat
  RDMA_area : Nat → Nat
  window : Window

/-- The variables of a driver on one sub-range. -/
structure DriverState where
  next_range_start : Nat
  window : Window
  mem : Nat → Nat
  calls : List Call
  stats : Nat × Nat × Nat

/-- One turn of `while (next_range_start < range_end)`: pack a window, post it if `posts` says so,
    decode it. `enomem` lists how many requests `ibv_post_send` accepted in each attempt that
    failed. -/
def windowTurn (o : BuildOptions) (c : ClientContext) (edge_buf : Nat)
    (pack : Window → Nat → Nat × Nat × Nat → PackState) (posts : PackState → Bool)
    (enomem : Nat → List Nat) (st : DriverState) : Option DriverState :=
  let s := pack st.window st.next_range_start st.stats
  let mem := Memory.store st.mem (s.marks.map fun a => (a, NULL_VERT))
  if posts s then
    let chain := posted o c s.window
    let mem := Memory.store mem
      ((enomem st.next_range_start).flatMap fun k => (chain.take k).flatten)
    let mem := Memory.store mem chain.flatten
    (decode c mem (batchVertices s.window s.wrs) edge_buf).map fun calls =>
      { next_range_start := s.v
        window := s.window
        mem := mem
        calls := st.calls ++ s.calls ++ calls
        stats := s.stats }
  else
    some
      { next_range_start := s.v
        window := s.window
        mem := mem
        calls := st.calls ++ s.calls
        stats := s.stats }

/-- What the three drivers have in common: the calls made for one sub-range. -/
def driveRange (turn : DriverState → Option DriverState) (fuel : Nat) (range : Nat × Nat)
    (w : Worker) :
    Option (List Call) :=
  (Loop.run (fun st : DriverState => st.next_range_start < range.2) turn fuel
    { next_range_start := range.1
      window := w.window
      mem := w.RDMA_area
      calls := []
      stats := (0, 0, 0) }).map (·.calls)

variable {threads : Nat}

/-- `ccy_for_each_active_batch`, which posts again from the head of the chain after ENOMEM. -/
def ccyForEachActiveBatch (o : BuildOptions) (cache_map : Option CacheMap)
    (cacheManager : Option CacheManager) (frontier : Bitmap threads) (c : ClientContext)
    (edge_buf_size : Nat) (enomem : Nat → List Nat) (fuel : Nat) (range : Nat × Nat) (w : Worker) :
    Option (List Call) :=
  let edge_buf := w.worker_id * edge_buf_size
  driveRange
    (windowTurn o c edge_buf
      (fun window next_range_start stats =>
        cachePackWindow o cache_map cacheManager window edge_buf_size next_range_start range.2
          frontier c edge_buf stats)
      (fun s => 0 < s.wrs) enomem)
    fuel range w

/-- `for_each_active_batch` -/
def forEachActiveBatch (o : BuildOptions) (frontier : Bitmap threads) (c : ClientContext)
    (edge_buf_size : Nat) (fuel : Nat) (range : Nat × Nat) (w : Worker) : Option (List Call) :=
  let edge_buf := w.worker_id * edge_buf_size
  driveRange
    (windowTurn o c edge_buf
      (fun window next_range_start stats =>
        packWindow o window edge_buf_size next_range_start range.2 frontier c edge_buf stats)
      (fun s => 0 < s.wrs) fun _ => [])
    fuel range w

/-- `for_each_range`, which posts when `batch_size` says that something was packed. -/
def forEachRange (o : BuildOptions) (c : ClientContext) (edge_buf_size : Nat) (fuel : Nat)
    (range : Nat × Nat) (w : Worker) : Option (List Call) :=
  let edge_buf := w.worker_id * edge_buf_size
  driveRange
    (windowTurn o c edge_buf
      (fun window next_range_start stats =>
        packWindow2 o window 0 edge_buf_size next_range_start range.2 c edge_buf 0 stats)
      (fun s => 0 < s.batch_size) fun _ => [])
    fuel range w

/-- `tbb::parallel_for`: the calls of each sub-range, if all of them return. -/
def parallelFor (body : Nat × Nat → Option (List Call)) (parts : List (Nat × Nat)) :
    Option (List (List Call)) :=
  parts.mapM body

end FamGraph
