/-
Module: FamGraph.Core.GenericCtx
Layer: Core
Purpose: What `--threads` and `--edgewindow` become on the client: the connections of `run_client`,
  the buffer sizes of `Generic_ctx`, the memory `RDMA_mmap_unique` maps for the buffers, the
  parallelism `run_kernel` allows, and the slice of the buffers a worker takes. An `unsigned long`,
  `size_t` or `uint64_t` has 64 bits.
Trusted boundary: human-reviewed model of the constructors' initialisers
Main exports: Buffering, numConnections, GenericCtx, genericCtx, maxAllowedParallelism
-/
import FamGraph.Core.VertexTable

namespace FamGraph

/-- `Buffering` -/
inductive Buffering where
  | SINGLE
  | DOUBLE
deriving DecidableEq, Repr

/-- `static_cast<uint32_t>(b)` -/
def Buffering.value : Buffering → Nat
  | .SINGLE => 1
  | .DOUBLE => 2

/-- `num_connections` of `run_client`, the number of worker connections and the size of `cm_ids`. -/
def numConnections (threads max_cores : Nat) : Nat :=
  if threads = 0 ∨ threads > max_cores then max_cores else threads

/-- `boost::alignment::align_up` to huge pages of 2 MB. -/
def alignUp (value : Nat) : Nat := (value + (2 ^ 21 - 1)) % 2 ^ 64 / 2 ^ 21 * 2 ^ 21

/-- `aligned_size` of `RDMA_mmap_unique<uint32_t>`, in bytes. -/
def rdmaMmapSize (array_size : Nat) (use_HP : Bool) : Nat :=
  let req_size := 4 * array_size % 2 ^ 64
  if use_HP then alignUp req_size else req_size

/-- `Generic_ctx`, as far as its buffers go; `RDMA_window` is the size of the mapping in bytes. -/
structure GenericCtx where
  num_workers : Nat
  max_out_degree : Nat
  edge_buf_size : Nat
  RDMA_window : Nat
deriving Repr

/-- The constructor. -/
def genericCtx (threads edgewindow : Nat) (b : Buffering) (use_HP : Bool) (edge_offset : Nat → Nat)
    (num_vertices num_edges : Nat) : GenericCtx :=
  let max_out_degree := getMaxOutDegree edge_offset num_vertices num_edges
  let edge_buf_size := edgewindow * max_out_degree % 2 ^ 32
  { num_workers := threads
    max_out_degree := max_out_degree
    edge_buf_size := edge_buf_size
    RDMA_window := rdmaMmapSize (edge_buf_size * threads % 2 ^ 64 * b.value % 2 ^ 64) use_HP }

/-- `max_allowed_parallelism` as `run_kernel` sets it. -/
def maxAllowedParallelism (c : GenericCtx) : Nat := c.num_workers

/-- `worker_id * edge_buf_size`, the first word of a worker's slice. -/
def GenericCtx.slice (c : GenericCtx) (worker_id : Nat) : Nat :=
  worker_id * c.edge_buf_size % 2 ^ 64

end FamGraph
