/-
Module: FamGraph.Proofs.GenericCtx
Layer: Proofs
Purpose: When the sizes the client derives from its options are right. The buffer is the 32-bit
  product of `--edgewindow` and the largest degree: the window loops advance with it exactly if that
  product leaves room for the largest list. Connections, buffers and parallelism come from
  `--threads` in three places: they agree exactly if it is neither 0 nor more than there are cores.
Trusted boundary: none
Main exports: Returns, WindowLoopAdvances, window_loop_advances_iff, WorkersOwn, workers_own_iff
-/
import FamGraph.Core.GenericCtx
import FamGraph.Proofs.WindowGeometry

namespace FamGraph

/-! ### The buffer size -/

/-- The length of the longest adjacency list. -/
def ClientContext.maxOutDegree (c : ClientContext) : Nat :=
  (Finset.range c.num_vertices).sup c.outDegree

section MaxDegree

variable {c : ClientContext} {v : Nat}

theorem ClientContext.outDegree_le_max (hv : v < c.num_vertices) : c.outDegree v ≤ c.maxOutDegree :=
  Finset.le_sup (f := c.outDegree) (Finset.mem_range.2 hv)

/-- Lists of less than `2 ^ 32` edges are counted right. -/
theorem getMaxOutDegree_eq (hindex : c.WellFormed)
    (h : ∀ v < c.num_vertices, c.outDegree v < 2 ^ 32) :
    getMaxOutDegree c.edge_offset c.num_vertices c.num_edges = c.maxOutDegree := by
  rw [getMaxOutDegree, foldl_max_range, ClientContext.maxOutDegree]
  apply Finset.sup_congr rfl
  intro v hv
  have hv' := Finset.mem_range.1 hv
  exact (hindex.degree_eq hv').trans (Nat.mod_eq_of_lt (h v hv'))

end MaxDegree

/-- In 32 bits, `w` times `d` is at least `d` exactly if adding the last `d` does not cross a
    multiple of `2 ^ 32`. -/
theorem le_mul_mod_iff {w d : Nat} (hw : 0 < w) :
    d ≤ w * d % 2 ^ 32 ↔ d < 2 ^ 32 ∧ (w - 1) * d / 2 ^ 32 = w * d / 2 ^ 32 := by
  have hsplit : w * d = (w - 1) * d + d := by
    rw [← Nat.succ_mul, Nat.succ_eq_add_one, Nat.sub_add_cancel hw]
  generalize (w - 1) * d = x at hsplit ⊢
  rw [hsplit]
  omega

/-- What some packer returns as the next vertex, called at `v` for any frontier, with any cache, and
    with anything in its arrays. -/
inductive Returns (o : BuildOptions) (c : ClientContext) (edge_buf_size range_end v : Nat) :
    Nat → Prop where
  | packWindow {threads} (frontier : Bitmap threads) (window : Window) (edge_buf : Nat)
      (stats : Nat × Nat × Nat) :
      Returns o c edge_buf_size range_end v
        (packWindow o window edge_buf_size v range_end frontier c edge_buf stats).v
  | cachePackWindow {threads} (frontier : Bitmap threads) (cache_map : Option CacheMap)
      (cacheManager : Option CacheManager) (window : Window) (edge_buf : Nat)
      (stats : Nat × Nat × Nat) :
      Returns o c edge_buf_size range_end v
        (cachePackWindow o cache_map cacheManager window edge_buf_size v range_end frontier c
          edge_buf stats).v
  | packWindow2 (window : Window) (edge_buf n_wr : Nat) (stats : Nat × Nat × Nat) :
      Returns o c edge_buf_size range_end v
        (packWindow2 o window 0 edge_buf_size v range_end c edge_buf n_wr stats).v

/-- Every list fits in the buffer, every packer gets beyond the vertex it starts at, and the loop
    over the windows of a range ends. -/
structure WindowLoopAdvances (o : BuildOptions) (c : ClientContext) (edge_buf_size : Nat) :
    Prop where
  degree_le : ∀ v < c.num_vertices, c.outDegree v ≤ edge_buf_size
  advances : ∀ range_end ≤ c.num_vertices, ∀ v < range_end, ∀ next,
    Returns o c edge_buf_size range_end v next → v < next
  terminates : ∀ range_end ≤ c.num_vertices, ¬ ∃ next_range_start : Nat → Nat, ∀ k,
    next_range_start k < range_end ∧
      Returns o c edge_buf_size range_end (next_range_start k) (next_range_start (k + 1))

/-- A buffer that holds the longest list is enough. -/
theorem windowLoopAdvances_of_degree_le {o : BuildOptions} {c : ClientContext} {edge_buf_size : Nat}
    (hindex : c.WellFormed) (hpos : 0 < edge_buf_size)
    (hdegree : ∀ v < c.num_vertices, c.outDegree v ≤ edge_buf_size) :
    WindowLoopAdvances o c edge_buf_size := by
  have hadvances : ∀ range_end ≤ c.num_vertices, ∀ v < range_end, ∀ next,
      Returns o c edge_buf_size range_end v next → v < next := by
    intro range_end hend v hv next hnext
    have hfit : c.degree v % 2 ^ 32 ≤ edge_buf_size := by
      have hle := hdegree v (Nat.lt_of_lt_of_le hv hend)
      rw [hindex.degree_eq (Nat.lt_of_lt_of_le hv hend), Nat.mod_mod]
      exact Nat.le_trans (Nat.mod_le _ _) hle
    cases hnext with
    | packWindow frontier window edge_buf stats =>
        exact lt_pack window 0 stats hpos hv fun _ => hfit
    | cachePackWindow frontier cache_map cacheManager window edge_buf stats =>
        exact lt_pack window 0 stats hpos hv fun _ => hfit
    | packWindow2 window edge_buf n_wr stats =>
        exact lt_pack window n_wr stats hpos hv fun _ => hfit
  refine ⟨hdegree, hadvances, ?_⟩
  rintro range_end hend ⟨next_range_start, hrun⟩
  have hgrows : ∀ k, k ≤ next_range_start k := by
    intro k
    induction k with
    | zero => exact Nat.zero_le _
    | succ k ih =>
        have hlt := hadvances range_end hend _ (hrun k).1 _ (hrun k).2
        omega
  have hlast := hgrows range_end
  have hin := (hrun range_end).1
  omega

/-- For every well-formed index of a graph with an edge and every `--edgewindow` of at least 1: with
    the buffer `Generic_ctx` computes, the window loops advance exactly if no list has `2 ^ 32`
    edges and no multiple of `2 ^ 32` lies beyond `edgewindow - 1` and within `edgewindow` times the
    largest degree. -/
theorem window_loop_advances_iff (o : BuildOptions) (c : ClientContext) (threads edgewindow : Nat)
    (b : Buffering) (use_HP : Bool) (hindex : c.WellFormed)
    (hedge : ∃ v < c.num_vertices, 0 < c.outDegree v) (hwindow : 1 ≤ edgewindow) :
    WindowLoopAdvances o c (genericCtx threads edgewindow b use_HP c.edge_offset c.num_vertices
        c.num_edges).edge_buf_size ↔
      (∀ v < c.num_vertices, c.outDegree v < 2 ^ 32) ∧
        (edgewindow - 1) * c.maxOutDegree / 2 ^ 32 = edgewindow * c.maxOutDegree / 2 ^ 32 := by
  have hsize : (genericCtx threads edgewindow b use_HP c.edge_offset c.num_vertices
      c.num_edges).edge_buf_size =
        edgewindow * getMaxOutDegree c.edge_offset c.num_vertices c.num_edges % 2 ^ 32 := rfl
  rw [hsize]
  constructor
  · intro h
    have hsmall : ∀ v < c.num_vertices, c.outDegree v < 2 ^ 32 := by
      intro v hv
      exact Nat.lt_of_le_of_lt (h.degree_le v hv) (Nat.mod_lt _ (Nat.two_pow_pos 32))
    rw [getMaxOutDegree_eq hindex hsmall] at h
    have hmax : c.maxOutDegree ≤ edgewindow * c.maxOutDegree % 2 ^ 32 :=
      Finset.sup_le fun v hv => h.degree_le v (Finset.mem_range.1 hv)
    exact ⟨hsmall, ((le_mul_mod_iff hwindow).1 hmax).2⟩
  · rintro ⟨hsmall, hcross⟩
    obtain ⟨u, hu, hpos⟩ := hedge
    have hmax := ClientContext.outDegree_le_max hu
    have hlt : c.maxOutDegree < 2 ^ 32 :=
      (Finset.sup_lt_iff (Nat.two_pow_pos 32)).2 fun v hv => hsmall v (Finset.mem_range.1 hv)
    have hroom := (le_mul_mod_iff hwindow).2 ⟨hlt, hcross⟩
    rw [getMaxOutDegree_eq hindex hsmall]
    apply windowLoopAdvances_of_degree_le hindex
    · exact Nat.lt_of_lt_of_le hpos (Nat.le_trans hmax hroom)
    · intro v hv
      exact Nat.le_trans (ClientContext.outDegree_le_max hv) hroom

/-- Three vertices with one edge each, and a buffer of twice the largest degree. -/
theorem window_loop_advances_three :
    WindowLoopAdvances ⟨40, true, by decide⟩ threeVertices
      (genericCtx 1 2 .SINGLE false threeVertices.edge_offset 3 3).edge_buf_size := by
  have hindex : threeVertices.WellFormed :=
    ⟨by decide, by decide, fun v _ => Nat.le_succ v, fun v hv => Nat.le_of_lt hv⟩
  apply (window_loop_advances_iff ⟨40, true, by decide⟩ threeVertices 1 2 .SINGLE false hindex
    ⟨0, by decide, by decide⟩ (by decide)).2
  exact ⟨by decide, by decide⟩

/-- One vertex with two edges back to it. -/
def twoLoops : ClientContext where
  num_vertices := 1
  num_edges := 2
  edge_offset := fun _ => 0
  peer_addr := 4096
  peer_rkey := 7
  lkey := 9
  words := fun _ => 0

/-- With `--edgewindow 2147483648` its buffer has no words, and a packer stays where it is. -/
theorem edgewindow_wraps_to_nothing :
    twoLoops.WellFormed ∧ (∃ v < 1, 0 < twoLoops.outDegree v) ∧
      (genericCtx 1 (2 ^ 31) .SINGLE false twoLoops.edge_offset 1 2).edge_buf_size = 0 ∧
      (packWindow2 ⟨40, true, by decide⟩ clearWorker.window 0 0 0 1 twoLoops 0 0 (0, 0, 0)).v = 0 ∧
      ¬ WindowLoopAdvances ⟨40, true, by decide⟩ twoLoops
        (genericCtx 1 (2 ^ 31) .SINGLE false twoLoops.edge_offset 1 2).edge_buf_size := by
  refine ⟨⟨by decide, by decide, fun v _ => Nat.le_refl _, fun v _ => Nat.zero_le _⟩,
    ⟨0, by decide, by decide⟩, by decide, by decide, ?_⟩
  intro h
  exact absurd (h.degree_le 0 (by decide)) (by decide)

/-! ### Workers, connections and buffers -/

/-- There is a worker, and each one TBB may start has a connection and a slice of the buffer memory
    to itself. -/
structure WorkersOwn (c : GenericCtx) (cm_ids : Nat) : Prop where
  worker : 0 < maxAllowedParallelism c
  connection : ∀ i < maxAllowedParallelism c, i < cm_ids
  inside : ∀ i < maxAllowedParallelism c, 4 * (c.slice i + c.edge_buf_size) ≤ c.RDMA_window
  disjoint : ∀ i < maxAllowedParallelism c, ∀ j < i, c.slice j + c.edge_buf_size ≤ c.slice i

/-- What aligning to huge pages may add. -/
def alignSlack (use_HP : Bool) : Nat := if use_HP then 2 ^ 21 - 1 else 0

/-- The mapping holds `words` words exactly if the bytes asked for, and what aligning them may add,
    have a 64-bit number. -/
theorem le_rdmaMmapSize_iff {words : Nat} (b : Buffering) (use_HP : Bool)
    (hwords : words < 2 ^ 64) :
    4 * words ≤ rdmaMmapSize (words % 2 ^ 64 * b.value % 2 ^ 64) use_HP ↔
      4 * (words * b.value) + alignSlack use_HP < 2 ^ 64 := by
  rw [Nat.mod_eq_of_lt hwords]
  cases b <;> cases use_HP <;>
    simp only [rdmaMmapSize, alignUp, alignSlack, Buffering.value, Bool.false_eq_true, if_false,
      if_true] <;>
    omega

section Slices

variable {c : GenericCtx} {cm_ids i : Nat}

/-- With fewer workers and words in a buffer than a `uint32_t` counts, slices start where they
    should. -/
theorem GenericCtx.slice_eq (hsize : c.edge_buf_size < 2 ^ 32) (hi : i < 2 ^ 32) :
    c.slice i = i * c.edge_buf_size := by
  have hlt : i * c.edge_buf_size < 2 ^ 32 * 2 ^ 32 := Nat.mul_lt_mul'' hi hsize
  exact Nat.mod_eq_of_lt (by omega)

theorem GenericCtx.slice_end (hsize : c.edge_buf_size < 2 ^ 32) (hi : i < 2 ^ 32) :
    c.slice i + c.edge_buf_size = (i + 1) * c.edge_buf_size := by
  rw [GenericCtx.slice_eq hsize hi, Nat.succ_mul]

/-- A connection for each worker, and room for all the slices together. -/
theorem workersOwn_iff (hsize : c.edge_buf_size < 2 ^ 32) (hconns : cm_ids < 2 ^ 32) :
    WorkersOwn c cm_ids ↔
      0 < c.num_workers ∧ c.num_workers ≤ cm_ids ∧
      4 * (c.num_workers * c.edge_buf_size) ≤ c.RDMA_window := by
  constructor
  · intro h
    have hpos : 0 < c.num_workers := h.worker
    have hlast : c.num_workers - 1 < c.num_workers := Nat.sub_one_lt_of_lt hpos
    have hconn := h.connection _ hlast
    -- The last worker's slice is the one that reaches furthest.
    have hinside := h.inside _ hlast
    rw [GenericCtx.slice_end hsize (by omega), Nat.sub_add_cancel hpos] at hinside
    exact ⟨hpos, by omega, hinside⟩
  · rintro ⟨hpos, hmany, hroom⟩
    refine ⟨hpos, fun i hi => Nat.lt_of_lt_of_le hi hmany, ?_, ?_⟩
    · intro i (hi : i < c.num_workers)
      rw [GenericCtx.slice_end hsize (by omega)]
      exact Nat.le_trans (Nat.mul_le_mul_left 4 (Nat.mul_le_mul_right _ hi)) hroom
    · intro i (hi : i < c.num_workers) j hj
      rw [GenericCtx.slice_end hsize (by omega), GenericCtx.slice_eq hsize (by omega)]
      exact Nat.mul_le_mul_right _ hj

end Slices

/-- There are as many connections as threads asked for if there are cores for them, and never more
    than cores. -/
theorem le_numConnections_iff (threads max_cores : Nat) :
    threads ≤ numConnections threads max_cores ↔ threads ≤ max_cores := by
  rw [numConnections]
  split <;> omega

theorem numConnections_le (threads max_cores : Nat) :
    numConnections threads max_cores ≤ max_cores := by
  rw [numConnections]
  split <;> omega

/-- For every `--threads` and number of cores, whatever the other options and the graph: the workers
    have what they need exactly if `--threads` is neither 0 nor more than there are cores, and the
    buffers of all of them have a 64-bit size. -/
theorem workers_own_iff (threads max_cores edgewindow : Nat) (b : Buffering) (use_HP : Bool)
    (edge_offset : Nat → Nat) (num_vertices num_edges : Nat) (hcores : max_cores < 2 ^ 32) :
    WorkersOwn (genericCtx threads edgewindow b use_HP edge_offset num_vertices num_edges)
        (numConnections threads max_cores) ↔
      1 ≤ threads ∧ threads ≤ max_cores ∧
        4 * (edgewindow * getMaxOutDegree edge_offset num_vertices num_edges % 2 ^ 32 * threads *
          b.value) + alignSlack use_HP < 2 ^ 64 := by
  have hsize : edgewindow * getMaxOutDegree edge_offset num_vertices num_edges % 2 ^ 32 < 2 ^ 32 :=
    Nat.mod_lt _ (Nat.two_pow_pos 32)
  rw [workersOwn_iff hsize (Nat.lt_of_le_of_lt (numConnections_le threads max_cores) hcores)]
  apply and_congr Iff.rfl
  rw [genericCtx, le_numConnections_iff]
  apply and_congr_right
  intro (hthreads : threads ≤ max_cores)
  have hwords : edgewindow * getMaxOutDegree edge_offset num_vertices num_edges % 2 ^ 32 * threads <
      2 ^ 32 * 2 ^ 32 := Nat.mul_lt_mul'' hsize (by omega)
  rw [Nat.mul_comm threads]
  exact le_rdmaMmapSize_iff b use_HP (by omega)

/-- Two workers on four cores. -/
theorem workers_own_two :
    WorkersOwn (genericCtx 2 1 .SINGLE true threeVertices.edge_offset 3 3)
      (numConnections 2 4) := by
  apply (workers_own_iff 2 4 1 .SINGLE true threeVertices.edge_offset 3 3 (by decide)).2
  exact ⟨by decide, by decide, by decide⟩

/-- With `--threads 0` there is no worker, and with two threads on one core the second has no
    connection. -/
theorem workers_without_connection :
    maxAllowedParallelism (genericCtx 0 1 .SINGLE false threeVertices.edge_offset 3 3) = 0 ∧
      numConnections 0 4 = 4 ∧
      ¬ WorkersOwn (genericCtx 0 1 .SINGLE false threeVertices.edge_offset 3 3)
        (numConnections 0 4) ∧
      maxAllowedParallelism (genericCtx 2 1 .SINGLE false threeVertices.edge_offset 3 3) = 2 ∧
      numConnections 2 1 = 1 ∧
      ¬ WorkersOwn (genericCtx 2 1 .SINGLE false threeVertices.edge_offset 3 3)
        (numConnections 2 1) := by
  refine ⟨rfl, rfl, ?_, rfl, rfl, ?_⟩
  · intro h
    exact absurd h.worker (by decide)
  · intro h
    exact absurd (h.connection 1 (by decide)) (by decide)

end FamGraph
