/-
Module: FamGraph.Core.SentinelProtocol
Layer: Core
Purpose: One worker of `ccy_for_each_active_batch` and its queue pair, step by step. The worker
  packs window after window into one buffer, writing its marks word by word, posts each chain
  request by request, starts again from the head of the chain after ENOMEM, and decodes the buffer
  while the READs are still under way; the words of the accepted READs land one at a time, in
  posting order and ascending within a READ. The two interleave in any way. The sub-ranges a worker
  is handed, and the frontier and cache it works with then, are arbitrary.
Trusted boundary: human-reviewed model of the worker's loop; the queue pair is a FIFO of words
Main exports: Task, Phase, WorkerState, WorkerStep, workerSystem
-/
import FamGraph.Core.BatchDrivers
import FamGraph.Foundation.TransitionSystem

namespace FamGraph

/-- A sub-range, with what the driver was called with. -/
structure Task (threads : Nat) where
  cache_map : Option CacheMap
  cacheManager : Option CacheManager
  frontier : Bitmap threads
  range_begin : Nat
  range_end : Nat

/-- The vertices that `cache_pack_window` skips, serves and fetches in this task. -/
def Task.visit {threads : Nat} (t : Task threads) : Nat → Visit :=
  cacheVisit t.cache_map t.cacheManager t.frontier

/-- Where the worker is. In `marking` some marks of the last turn of the packer are still to be
    written, in `posting` `k` requests of the chain were accepted in this attempt. The last three
    are the body of the decoding loops: waiting for the first and for the last word of the list of
    `v`, and inside the call of `function`; `vs` are the vertices after `v`. -/
inductive Phase (threads : Nat) where
  | idle (window : Window)
  | top (t : Task threads) (next_range_start : Nat) (window : Window)
  | packing (t : Task threads) (s : PackState)
  | marking (t : Task threads) (s : PackState) (pending : List Nat)
  | posting (t : Task threads) (s : PackState) (k : Nat)
  | spinFirst (t : Task threads) (s : PackState) (v : Nat) (vs : List Nat) (e_buf : Nat)
  | spinLast (t : Task threads) (s : PackState) (v : Nat) (vs : List Nat) (e_buf : Nat)
  | calling (t : Task threads) (s : PackState) (v : Nat) (vs : List Nat) (e_buf : Nat)

/-- The worker, its memory and the words in flight to it. -/
structure WorkerState (threads : Nat) where
  mem : Nat → Nat
  queue : List (Nat × Nat)
  phase : Phase threads

variable {threads : Nat}

/-- The decoding loops at `vs`: the next vertex, or the next window. -/
def Phase.decoding (t : Task threads) (s : PackState) (e_buf : Nat) : List Nat → Phase threads
  | [] => .top t s.v s.window
  | v :: vs => .spinFirst t s v vs e_buf

/-- A step of the worker, or a word that lands. -/
inductive WorkerStep (o : BuildOptions) (c : ClientContext) (edge_buf edge_buf_size : Nat) :
    WorkerState threads → WorkerState threads → Prop where
  /-- The next word in flight lands in memory, whatever the worker is doing. -/
  | land {mem a w queue phase} :
      WorkerStep o c edge_buf edge_buf_size ⟨mem, (a, w) :: queue, phase⟩
        ⟨Function.update mem a w, queue, phase⟩
  /-- The worker is handed a sub-range of the vertices. -/
  | begin {mem queue window} {t : Task threads} :
      t.range_end ≤ c.num_vertices →
      WorkerStep o c edge_buf edge_buf_size ⟨mem, queue, .idle window⟩
        ⟨mem, queue, .top t t.range_begin window⟩
  /-- `next_range_start < range_end`: the packer is called. -/
  | enter {mem queue window next_range_start} {t : Task threads} {stats : Nat × Nat × Nat} :
      next_range_start < t.range_end →
      WorkerStep o c edge_buf edge_buf_size ⟨mem, queue, .top t next_range_start window⟩
        ⟨mem, queue, .packing t (.new window 0 0 next_range_start stats)⟩
  /-- The sub-range is done. -/
  | leave {mem queue window next_range_start} {t : Task threads} :
      ¬ next_range_start < t.range_end →
      WorkerStep o c edge_buf edge_buf_size ⟨mem, queue, .top t next_range_start window⟩
        ⟨mem, queue, .idle window⟩
  /-- One turn of the packer's loop; its marks are still to be written. -/
  | turn {mem queue s} {t : Task threads} :
      s.cond o edge_buf_size t.range_end = true →
      WorkerStep o c edge_buf edge_buf_size ⟨mem, queue, .packing t s⟩
        ⟨mem, queue, .marking t (s.body o c edge_buf edge_buf_size t.visit)
          ((s.body o c edge_buf edge_buf_size t.visit).marks.drop s.marks.length)⟩
  /-- `b[0] = NULL_VERT` or `b[n_out_edge - 1] = NULL_VERT` -/
  | mark {mem queue s x pending} {t : Task threads} :
      WorkerStep o c edge_buf edge_buf_size ⟨mem, queue, .marking t s (x :: pending)⟩
        ⟨Function.update mem x NULL_VERT, queue, .marking t s pending⟩
  | marked {mem queue s} {t : Task threads} :
      WorkerStep o c edge_buf edge_buf_size ⟨mem, queue, .marking t s []⟩ ⟨mem, queue, .packing t s⟩
  /-- The packer returns, and `wrs > 0`. -/
  | post {mem queue s} {t : Task threads} :
      s.cond o edge_buf_size t.range_end = false → 0 < s.wrs →
      WorkerStep o c edge_buf edge_buf_size ⟨mem, queue, .packing t s⟩
        ⟨mem, queue, .posting t s.count 0⟩
  /-- The packer returns, and there is nothing to post. -/
  | skip {mem queue s} {t : Task threads} :
      s.cond o edge_buf_size t.range_end = false → ¬ 0 < s.wrs →
      WorkerStep o c edge_buf edge_buf_size ⟨mem, queue, .packing t s⟩
        ⟨mem, queue, .top t s.v s.window⟩
  /-- `ibv_post_send` accepts the next request of the chain. -/
  | accept {mem queue s k words} {t : Task threads} :
      (posted o c s.window)[k]? = some words →
      WorkerStep o c edge_buf edge_buf_size ⟨mem, queue, .posting t s k⟩
        ⟨mem, queue ++ words, .posting t s (k + 1)⟩
  /-- It returns ENOMEM, having accepted `k` requests but not all, and is called again. -/
  | enomem {mem queue s k} {t : Task threads} :
      k < (posted o c s.window).length →
      WorkerStep o c edge_buf edge_buf_size ⟨mem, queue, .posting t s k⟩
        ⟨mem, queue, .posting t s 0⟩
  /-- It returns 0, having accepted the whole chain. -/
  | ok {mem queue s k} {t : Task threads} :
      k = (posted o c s.window).length →
      WorkerStep o c edge_buf edge_buf_size ⟨mem, queue, .posting t s k⟩
        ⟨mem, queue, .decoding t s edge_buf (batchVertices s.window s.wrs)⟩
  /-- `e_buf[0]` is no longer `NULL_VERT`. -/
  | first {mem queue s v vs e_buf} {t : Task threads} :
      mem e_buf ≠ NULL_VERT →
      WorkerStep o c edge_buf edge_buf_size ⟨mem, queue, .spinFirst t s v vs e_buf⟩
        ⟨mem, queue, .spinLast t s v vs e_buf⟩
  /-- `e_buf[n_edges - 1]` is no longer `NULL_VERT`. -/
  | last {mem queue s v vs e_buf} {t : Task threads} :
      mem (e_buf + (c.degree v + (2 ^ 32 - 1)) % 2 ^ 32) ≠ NULL_VERT →
      WorkerStep o c edge_buf edge_buf_size ⟨mem, queue, .spinLast t s v vs e_buf⟩
        ⟨mem, queue, .calling t s v vs e_buf⟩
  /-- `function` returns; `e_buf += n_edges`. -/
  | returned {mem queue s v vs e_buf} {t : Task threads} :
      WorkerStep o c edge_buf edge_buf_size ⟨mem, queue, .calling t s v vs e_buf⟩
        ⟨mem, queue, .decoding t s (e_buf + c.degree v) vs⟩

/-- A worker that starts with nothing in flight and anything in its memory and its arrays. -/
def workerSystem (o : BuildOptions) (c : ClientContext) (edge_buf edge_buf_size : Nat) :
    TransitionSystem (WorkerState threads) where
  init s := s.queue = [] ∧ ∃ window, s.phase = .idle window
  step := WorkerStep o c edge_buf edge_buf_size
  final s := s.queue = [] ∧ ∃ window, s.phase = .idle window

end FamGraph
