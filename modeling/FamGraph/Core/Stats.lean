/-
Module: FamGraph.Core.Stats
Layer: Core
Purpose: The counters of `stats.hpp` through the calls a kernel makes of the drivers: what the
  packers add to the counters of their thread, window by window, `clear_stats_round`, which every
  driver calls at its end, the numbers of `print_stats_summary`, and `clear_all`. `bfs_kernel`
  prints and clears the statistics after every call of its driver, because `DEBUG` is 1; the other
  kernels do neither. The threads of one call may count in any order. The times are left out.
Trusted boundary: human-reviewed model of the counters; a counter of a thread that has none yet is
  zero
Main exports: FgStats, count, clearStatsRound, clearAll, printStatsSummary, Driver, Round, Counted
-/
import FamGraph.Core.BatchDrivers

namespace FamGraph

/-- `FG_stats`. `cache_hit` and `wrs_verts_sends` are thread-local. -/
structure FgStats (threads : Nat) where
  cache_hit : Fin threads → Nat
  wrs_verts_sends : Fin threads → BitVec 32 × BitVec 32 × BitVec 32
  total_cache_hit : Nat
  wrs : BitVec 32
  verts : BitVec 32
  sends : BitVec 32

namespace FgStats

variable {threads : Nat}

/-- The counters of a new `client_context`. -/
def new : FgStats threads where
  cache_hit := fun _ => 0
  wrs_verts_sends := fun _ => (0, 0, 0)
  total_cache_hit := 0
  wrs := 0
  verts := 0
  sends := 0

/-- What a packer adds to the counters of its thread for one window. -/
def count (stats : FgStats threads) (thread : Fin threads) (s : PackState) : FgStats threads :=
  let p := stats.wrs_verts_sends thread
  { stats with
    cache_hit := Function.update stats.cache_hit thread (stats.cache_hit thread + s.cache_hit)
    wrs_verts_sends :=
      Function.update stats.wrs_verts_sends thread
        (p.1 + BitVec.ofNat 32 s.wrs, p.2.1 + BitVec.ofNat 32 s.batch_size, p.2.2 + 1) }

/-- `clear_stats_round`, which goes through the counters of the threads in an order of its own. -/
def clearStatsRound (stats : FgStats threads) (order order' : List (Fin threads)) :
    FgStats threads :=
  let stats :=
    order.foldl
      (fun (stats : FgStats threads) t =>
        { stats with
          total_cache_hit := stats.total_cache_hit + stats.cache_hit t
          cache_hit := Function.update stats.cache_hit t 0 })
      stats
  order'.foldl
    (fun (stats : FgStats threads) p =>
      { stats with
        wrs := stats.wrs + (stats.wrs_verts_sends p).1
        verts := stats.verts + (stats.wrs_verts_sends p).2.1
        sends := stats.sends + (stats.wrs_verts_sends p).2.2
        wrs_verts_sends := Function.update stats.wrs_verts_sends p (0, 0, 0) })
    stats

/-- `clear_all`, which leaves `wrs_verts_sends` alone. -/
def clearAll (stats : FgStats threads) : FgStats threads :=
  { stats with
    cache_hit := fun _ => 0
    total_cache_hit := 0
    wrs := 0
    verts := 0
    sends := 0 }

/-- `print_stats_summary`: the cache hits, the WRs and the sends. -/
def printStatsSummary (stats : FgStats threads) : Nat × BitVec 32 × BitVec 32 :=
  (stats.total_cache_hit, stats.wrs, stats.sends)

end FgStats

/-! ### Calls of the drivers -/

/-- A call of one of the drivers, but for its range. -/
inductive Driver (threads : Nat) where
  | ccyForEachActiveBatch (cache_map : Option CacheMap) (cacheManager : Option CacheManager)
      (frontier : Bitmap threads)
  | forEachActiveBatch (frontier : Bitmap threads)
  | forEachRange

namespace Driver

variable {threads : Nat}

/-- What its packer does with a vertex. -/
def visit : Driver threads → Nat → Visit
  | ccyForEachActiveBatch cache_map cacheManager frontier =>
      cacheVisit cache_map cacheManager frontier
  | forEachActiveBatch frontier => frontierVisit frontier
  | forEachRange => fun _ => .fetch

/-- Its packer. -/
def pack (d : Driver threads) (o : BuildOptions) (c : ClientContext)
    (edge_buf edge_buf_size range_end : Nat) (window : Window) (next_range_start : Nat)
    (stats : Nat × Nat × Nat) : PackState :=
  match d with
  | ccyForEachActiveBatch cache_map cacheManager frontier =>
      cachePackWindow o cache_map cacheManager window edge_buf_size next_range_start range_end
        frontier c edge_buf stats
  | forEachActiveBatch frontier =>
      packWindow o window edge_buf_size next_range_start range_end frontier c edge_buf stats
  | forEachRange =>
      packWindow2 o window 0 edge_buf_size next_range_start range_end c edge_buf 0 stats

/-- Whether it calls `ibv_post_send` for a window. -/
def posts : Driver threads → PackState → Bool
  | ccyForEachActiveBatch _ _ _, s => 0 < s.wrs
  | forEachActiveBatch _, s => 0 < s.wrs
  | forEachRange, s => 0 < s.batch_size

/-- The driver on one sub-range; only the first survives ENOMEM. -/
def calls (d : Driver threads) (o : BuildOptions) (c : ClientContext) (edge_buf_size : Nat)
    (enomem : Nat → List Nat) (fuel : Nat) (range : Nat × Nat) (w : Worker) : Option (List Call) :=
  match d with
  | ccyForEachActiveBatch cache_map cacheManager frontier =>
      FamGraph.ccyForEachActiveBatch o cache_map cacheManager frontier c edge_buf_size enomem fuel
        range w
  | forEachActiveBatch frontier =>
      FamGraph.forEachActiveBatch o frontier c edge_buf_size fuel range w
  | forEachRange => FamGraph.forEachRange o c edge_buf_size fuel range w

/-- The attempts that fail with ENOMEM and are made again. -/
def retries (d : Driver threads) (enomem : Nat → List Nat) : Nat → List Nat :=
  match d with
  | ccyForEachActiveBatch _ _ _ => enomem
  | _ => fun _ => []

/-- The chain a window hands to `ibv_post_send`, if it calls it. -/
def post (d : Driver threads) (o : BuildOptions) (s : PackState) : Option (List SendWr) :=
  if d.posts s then some ((s.window.chain o.wr_window_size (some 0)).map s.window.wr_window)
    else none

/-- The loop of the driver on one sub-range, with a record of the windows it packs. -/
def run (d : Driver threads) (o : BuildOptions) (c : ClientContext) (edge_buf_size : Nat)
    (enomem : Nat → List Nat) (fuel : Nat) (range : Nat × Nat) (w : Worker) :
    Option (DriverState × List PackState) :=
  let edge_buf := w.worker_id * edge_buf_size
  Loop.run (fun st : DriverState × List PackState => st.1.next_range_start < range.2)
    (Loop.recorded
      (fun st => d.pack o c edge_buf edge_buf_size range.2 st.window st.next_range_start st.stats)
      (windowTurn o c edge_buf (d.pack o c edge_buf edge_buf_size range.2) d.posts
        (d.retries enomem)))
    fuel
    ({ next_range_start := range.1
       window := w.window
       mem := w.RDMA_area
       calls := []
       stats := (0, 0, 0) }, [])

end Driver

/-- A call of a driver on `[lo, hi)`: the sub-ranges, with the thread and the arrays each finds, and
    the attempts of each that fail. -/
structure Round (threads : Nat) where
  driver : Driver threads
  lo : Nat
  hi : Nat
  parts : List (Nat × Nat)
  thread : Nat × Nat → Fin threads
  worker : Nat × Nat → Worker
  enomem : Nat × Nat → Nat → List Nat

/-- The windows of all sub-ranges, each with the thread that packs it. -/
def Round.windows {threads : Nat} (r : Round threads) (o : BuildOptions) (c : ClientContext)
    (edge_buf_size : Nat) (fuel : Nat) : Option (List (Fin threads × PackState)) :=
  (r.parts.mapM fun p =>
    (r.driver.run o c edge_buf_size (r.enomem p) fuel p (r.worker p)).map fun st =>
      st.2.map fun s => (r.thread p, s)).map List.flatten

/-- A call of a driver that packs these windows, counted in any order, and its
    `clear_stats_round`. -/
def FgStats.afterRound {threads : Nat} (stats : FgStats threads)
    (events : List (Fin threads × PackState)) (order order' : List (Fin threads)) :
    FgStats threads :=
  (events.foldl (fun stats e => stats.count e.1 e.2) stats).clearStatsRound order order'

/-- The counters a kernel has after some calls of the drivers that have returned, what each window
    of each call handed to `ibv_post_send`, and the summaries printed so far. With `clears` the
    kernel prints and clears the statistics after each call, as `bfs_kernel` does. -/
inductive Counted {threads : Nat} (o : BuildOptions) (c : ClientContext) (edge_buf_size : Nat)
    (clears : Bool) :
    List (Round threads) → FgStats threads → List (List (Option (List SendWr))) →
      List (Nat × BitVec 32 × BitVec 32) → Prop where
  | start : Counted o c edge_buf_size clears [] .new [] []
  | round {rounds : List (Round threads)} {stats : FgStats threads}
      {posted : List (List (Option (List SendWr)))} {printed : List (Nat × BitVec 32 × BitVec 32)}
      (r : Round threads) {fuel : Nat} {windows events : List (Fin threads × PackState)}
      {order order' : List (Fin threads)}
      (before : Counted o c edge_buf_size clears rounds stats posted printed)
      (returns : r.windows o c edge_buf_size fuel = some windows) (counts : events.Perm windows)
      (flushes : order.Perm (List.finRange threads))
      (flushes' : order'.Perm (List.finRange threads)) :
      Counted o c edge_buf_size clears (rounds ++ [r])
        (if clears then (stats.afterRound events order order').clearAll
          else stats.afterRound events order order')
        (posted ++ [events.map fun e => r.driver.post o e.2])
        (printed ++
          if clears then [(stats.afterRound events order order').printStatsSummary] else [])

end FamGraph
