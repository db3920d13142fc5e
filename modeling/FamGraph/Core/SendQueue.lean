/-
Module: FamGraph.Core.SendQueue
Layer: Core
Purpose: A worker's queue pair under the drivers of `bitmap.hpp`: the chains of work requests
  `prep_wr` builds, the retry loop of `ccy_for_each_active_batch`, and the sub-ranges that
  `for_each_active_batch` and `for_each_range` run one after the other on one worker, each posting
  its windows once. Everything queued executes, and the communication thread takes all completions,
  before each attempt to post.
Trusted boundary: human-reviewed model of the posting of the drivers; `ibv_post_send` queues
  requests until one does not fit
Main exports: max_send_wr, Prepared, Window.sendWrs, postUntilQueued, LeftBehind, PostingWorker,
  postingRuns
-/
import FamGraph.Core.BatchDrivers
import FamGraph.Foundation.SendQueue
import FamGraph.Foundation.TransitionSystem

namespace FamGraph

/-- `max_send_wr` as `build_qp_attr` sets it. -/
def max_send_wr : Nat := 40

/-- The array holds a chain of `n` requests that `prep_wr` has put there one after the other,
    whatever has happened to the other arrays in between. -/
inductive Prepared (c : ClientContext) : Window → Nat → Prop where
  | start (w : Window) : Prepared c w 0
  | next {w : Window} {n : Nat} (buffer length remote_offset : Nat) :
      Prepared c w n → Prepared c (prepWr w n c buffer length remote_offset) (n + 1)
  | others {w w' : Window} {n : Nat} : w'.wr_window = w.wr_window → Prepared c w n → Prepared c w' n

/-- The requests `ibv_post_send` is given with `&my_window[0]`. -/
def Window.sendWrs (o : BuildOptions) (w : Window) : List SendWr :=
  (w.chain o.wr_window_size (some 0)).map w.wr_window

/-! ### Posting until it succeeds -/

/-- `ibv_post_send`, and again while it returns `ENOMEM`. -/
def postUntilQueued (capacity : Nat) (o : BuildOptions) (w : Window) (fuel : Nat)
    (queue : List SendWr) :
    Option (List SendWr) :=
  SendQueue.retry SendWr.signaled capacity (w.sendWrs o) fuel queue

/-- What windows that have been posted before may leave in the queue. -/
inductive LeftBehind (capacity : Nat) (o : BuildOptions) (c : ClientContext) :
    List SendWr → Prop where
  | nothing : LeftBehind capacity o c []
  | window {queue queue' : List SendWr} {w : Window} {wrs fuel : Nat} :
      LeftBehind capacity o c queue → Prepared c w wrs → 0 < wrs → wrs ≤ o.wr_window_size →
      postUntilQueued capacity o w fuel queue = some queue' → LeftBehind capacity o c queue'

/-! ### Posting once -/

variable {threads : Nat}

/-- A sub-range given to a worker, by one of the two drivers that post a window once. -/
inductive PostingTask (threads : Nat) where
  | forEachActiveBatch (frontier : Bitmap threads) (range_start range_end : Nat)
  | forEachRange (range_start range_end : Nat)

namespace PostingTask

/-- `range.begin()` -/
def range_start : PostingTask threads → Nat
  | forEachActiveBatch _ range_start _ => range_start
  | forEachRange range_start _ => range_start

/-- `range.end()` -/
def range_end : PostingTask threads → Nat
  | forEachActiveBatch _ _ range_end => range_end
  | forEachRange _ range_end => range_end

/-- The packer of the driver. -/
def pack (o : BuildOptions) (c : ClientContext) (edge_buf_size edge_buf : Nat) (window : Window)
    (next_range_start : Nat) (stats : Nat × Nat × Nat) : PostingTask threads → PackState
  | forEachActiveBatch frontier _ range_end =>
      packWindow o window edge_buf_size next_range_start range_end frontier c edge_buf stats
  | forEachRange _ range_end =>
      packWindow2 o window 0 edge_buf_size next_range_start range_end c edge_buf 0 stats

/-- The test before `ibv_post_send`. -/
def posts (s : PackState) : PostingTask threads → Bool
  | forEachActiveBatch _ _ _ => 0 < s.wrs
  | forEachRange _ _ => 0 < s.batch_size

end PostingTask

/-- A worker between two turns of the loop over a sub-range. `aborted` is set where `TEST_NZ(ret)`
    ends the process; `posted` lists the lengths of the chains given to `ibv_post_send` so far. -/
structure PostingWorker (threads : Nat) where
  task : PostingTask threads
  next_range_start : Nat
  window : Window
  stats : Nat × Nat × Nat
  queue : List SendWr
  aborted : Bool
  posted : List Nat

/-- One turn of `while (next_range_start < range_end)`, as far as the queue goes. -/
def PostingWorker.turn (capacity : Nat) (o : BuildOptions) (c : ClientContext)
    (edge_buf_size edge_buf : Nat) (p : PostingWorker threads) : PostingWorker threads :=
  let s := p.task.pack o c edge_buf_size edge_buf p.window p.next_range_start p.stats
  let p := { p with next_range_start := s.v, window := s.window, stats := s.stats }
  if p.task.posts s then
    let chain := s.window.sendWrs o
    let (queue, queued) := SendQueue.post capacity (SendQueue.retire SendWr.signaled p.queue) chain
    { p with queue := queue, aborted := !queued, posted := p.posted ++ [chain.length] }
  else p

/-- A worker goes on with its sub-range, or has finished it and is given another; its arrays are
    then new ones. -/
inductive PostingWorker.Step (capacity : Nat) (o : BuildOptions) (c : ClientContext)
    (edge_buf_size edge_buf : Nat) :
    PostingWorker threads → PostingWorker threads → Prop where
  | turn {p : PostingWorker threads} : p.aborted = false → p.next_range_start < p.task.range_end →
      Step capacity o c edge_buf_size edge_buf p (p.turn capacity o c edge_buf_size edge_buf)
  | task {p : PostingWorker threads} (task : PostingTask threads) (window : Window) :
      p.aborted = false → p.task.range_end ≤ p.next_range_start →
      Step capacity o c edge_buf_size edge_buf p
        { p with task := task, next_range_start := task.range_start, window := window }

/-- A worker from its first sub-range on, with an empty queue. -/
def postingRuns (capacity : Nat) (o : BuildOptions) (c : ClientContext)
    (edge_buf_size edge_buf : Nat) :
    TransitionSystem (PostingWorker threads) where
  init p := p.next_range_start = p.task.range_start ∧ p.queue = [] ∧ p.aborted = false ∧
    p.posted = []
  step := PostingWorker.Step capacity o c edge_buf_size edge_buf
  final p := p.aborted = true

end FamGraph
