/-
Module: FamGraph.Core.ReadTraffic
Layer: Core
Purpose: Which words of the server's edge array the drivers read. A READ reads the words from its
  `remote_addr` on that its scatter entry has room for; a window hands one chain of READs to
  `ibv_post_send`, and the windows of all threads and all calls of a kernel make up its traffic.
  Calls that do not return, because a chain is never accepted, have no traffic here. A chain that
  ENOMEM made a driver post again is counted once.
Trusted boundary: human-reviewed model of the words an RDMA READ of a window reads
Main exports: SendWr.reads, Driver.reads, Traffic
-/
import FamGraph.Core.Stats

namespace FamGraph

variable {threads : Nat}

/-- The addresses of the words a READ reads. -/
def SendWr.reads (wr : SendWr) (sge : Sge) : List Nat :=
  (List.range (sge.length / 4)).map fun j => wr.remote_addr + 4 * j

/-- The addresses of the words read for a window, request by request. -/
def Driver.reads (d : Driver threads) (o : BuildOptions) (s : PackState) : List Nat :=
  if d.posts s then
    (s.window.chain o.wr_window_size (some 0)).flatMap fun i =>
      (s.window.wr_window i).reads (s.window.sge_window (s.window.wr_window i).sg_list)
  else []

/-- The words read for some calls of the drivers, one after another. -/
inductive Traffic (o : BuildOptions) (c : ClientContext) (edge_buf_size : Nat) :
    List (Round threads) → List Nat → Prop where
  | start : Traffic o c edge_buf_size [] []
  | round {rounds : List (Round threads)} {reads : List Nat} (r : Round threads) {fuel : Nat}
      {windows : List (Fin threads × PackState)} (before : Traffic o c edge_buf_size rounds reads)
      (returns : r.windows o c edge_buf_size fuel = some windows) :
      Traffic o c edge_buf_size (rounds ++ [r])
        (reads ++ windows.flatMap fun w => r.driver.reads o w.2)

end FamGraph
