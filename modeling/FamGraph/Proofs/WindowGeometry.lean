/-
Module: FamGraph.Proofs.WindowGeometry
Layer: Proofs
Purpose: The geometry of a window. What a packer returns is described over the integers: a chain of
  READs, one for each of the ascending vertex ranges, that lie one behind the other in the buffer
  and read exactly the adjacency lists of their vertices. The packers compute in 32 bits, and return
  such a window exactly if their test for room in the buffer never takes a vertex whose list does
  not fit.
Trusted boundary: none
Main exports: ClientContext.outDegree, Geometry, Overflows, window_geometry_iff
-/
import FamGraph.Proofs.BatchDrivers

namespace FamGraph

/-! ### Degrees over the integers -/

namespace ClientContext

/-- The length of the adjacency list of `v`. -/
def outDegree (c : ClientContext) (v : Nat) : Nat :=
  adjacencyEnd c.edge_offset c.num_vertices c.num_edges v - c.edge_offset v

/-- The number of words of some adjacency lists. -/
def wordsIn (c : ClientContext) (vs : List Nat) : Nat := (vs.map c.outDegree).sum

/-- The vertices of `[lo, hi)` that are to be fetched and have edges. -/
def wanted (c : ClientContext) (visit : Nat → Visit) (lo hi : Nat) : List Nat :=
  (List.range' lo (hi - lo)).filter fun v => visit v = .fetch ∧ 0 < c.outDegree v

/-- The index of the packers is well formed. -/
def WellFormed (c : ClientContext) : Prop :=
  WellFormedIndex c.edge_offset c.num_vertices c.num_edges

variable {c : ClientContext} {visit : Nat → Visit} {lo hi v : Nat}

/-- `get_num_edges` is the length of the list as a `uint32_t`. -/
theorem WellFormed.degree_eq (h : c.WellFormed) (hv : v < c.num_vertices) :
    c.degree v = c.outDegree v % 2 ^ 32 := h.getNumEdges_mod hv

theorem wordsIn_append (vs ws : List Nat) : c.wordsIn (vs ++ ws) = c.wordsIn vs + c.wordsIn ws := by
  rw [wordsIn, List.map_append, List.sum_append]
  rfl

theorem wordsIn_singleton (v : Nat) : c.wordsIn [v] = c.outDegree v := List.sum_singleton

/-- Some of the lists take up no more words than all. -/
theorem wordsIn_le_of_subset (c : ClientContext) {vs ws : List Nat} (hnodup : vs.Nodup)
    (h : vs ⊆ ws) :
    c.wordsIn vs ≤ c.wordsIn ws := by
  obtain ⟨us, hperm, hsub⟩ := hnodup.subperm h
  rw [wordsIn, ← (hperm.map c.outDegree).sum_eq]
  exact (hsub.map c.outDegree).sum_le_sum fun _ _ => Nat.zero_le _

theorem edgesIn_eq_wordsIn {vs : List Nat} (h : ∀ v ∈ vs, c.degree v = c.outDegree v) :
    c.edgesIn vs = c.wordsIn vs := by
  rw [edgesIn, wordsIn, List.map_congr_left h]

/-- Where the lists of the vertices to fetch are as long as `get_num_edges` says, so are those of
    the vertices that are fetched, and they are the same. -/
theorem fetched_eq_wanted
    (h : ∀ u, lo ≤ u → u < hi → visit u = .fetch → c.degree u = c.outDegree u) :
    fetched c visit lo hi = c.wanted visit lo hi ∧
      c.edgesIn (fetched c visit lo hi) = c.wordsIn (c.wanted visit lo hi) := by
  have hsame : fetched c visit lo hi = c.wanted visit lo hi := by
    apply List.filter_congr
    intro u hu
    rw [List.mem_range'_1] at hu
    by_cases hfetch : visit u = .fetch
    · rw [h u hu.1 (by omega) hfetch]
    · simp [hfetch]
  refine ⟨hsame, ?_⟩
  rw [hsame]
  apply edgesIn_eq_wordsIn
  intro u hu
  obtain ⟨hrange, hwanted⟩ := List.mem_filter.1 hu
  rw [List.mem_range'_1] at hrange
  exact h u hrange.1 (by omega) (of_decide_eq_true hwanted).1

/-- No wanted list is longer than all together. -/
theorem outDegree_le_wordsIn (hlo : lo ≤ v) (hhi : v < hi) (hfetch : visit v = .fetch) :
    c.outDegree v ≤ c.wordsIn (c.wanted visit lo hi) := by
  rcases Nat.eq_zero_or_pos (c.outDegree v) with hzero | hpos
  · rw [hzero]
    exact Nat.zero_le _
  · have hmem : v ∈ c.wanted visit lo hi :=
      List.mem_filter.2 ⟨List.mem_range'_1.2 (by omega), decide_eq_true ⟨hfetch, hpos⟩⟩
    exact List.single_le_sum (fun _ _ => Nat.zero_le _) _ (List.mem_map_of_mem hmem)

/-- Adjacency lists lie one behind the other. -/
theorem WellFormed.edge_offset_succ (h : c.WellFormed) (hv : v + 1 < c.num_vertices) :
    c.edge_offset (v + 1) = c.edge_offset v + c.outDegree v := by
  have hmono := h.mono v hv
  rw [outDegree, adjacencyEnd, if_neg (by omega)]
  omega

/-- They end within the edge array. -/
theorem WellFormed.adjacency_le (h : c.WellFormed) (hv : v < c.num_vertices) :
    c.edge_offset v + c.outDegree v ≤ c.num_edges := by
  have hstart := h.le_adjacencyEnd hv
  have hstop := h.adjacencyEnd_le hv
  rw [outDegree]
  omega

/-- Lists that take up less than `2 ^ 32` words together are as long as `get_num_edges` says. -/
theorem WellFormed.degree_eq_outDegree (h : c.WellFormed) (hhi : hi ≤ c.num_vertices)
    (hwords : c.wordsIn (c.wanted visit lo hi) < 2 ^ 32) (u : Nat) (hlo : lo ≤ u) (hlt : u < hi)
    (hfetch : visit u = .fetch) : c.degree u = c.outDegree u := by
  have hle := outDegree_le_wordsIn (c := c) hlo hlt hfetch
  rw [h.degree_eq (by omega), Nat.mod_eq_of_lt (by omega)]

end ClientContext

/-! ### The window -/

/-- What a packer that started at `range_start` returns: READs for the ascending ranges
    `vertex_batch`, whose members are the wanted vertices before the next one, chained in order
    behind entry 0, the only signaled one. Each READ reads the adjacency lists of its range, all
    within the edge array, to where a driver that advances by `get_num_edges` looks for them, and
    together they stay within the buffer. -/
structure Geometry (o : BuildOptions) (c : ClientContext) (edge_buf edge_buf_size range_start : Nat)
    (visit : Nat → Visit) (s : PackState) : Prop where
  wrs_le : s.wrs ≤ o.wr_window_size
  chain : 0 < s.wrs → ∀ fuel, s.wrs ≤ fuel → s.window.chain fuel (some 0) = List.range s.wrs
  signaled : ∀ i < s.wrs, (s.window.wr_window i).signaled = decide (i = 0)
  scatter : ∀ i < s.wrs, (s.window.wr_window i).sg_list = i ∧ (s.window.wr_window i).num_sge = 1
  interval : ∀ i < s.wrs, (s.window.vertex_batch i).v_s ≤ (s.window.vertex_batch i).v_e
  ascending :
    ∀ i j, i < j → j < s.wrs → (s.window.vertex_batch i).v_e < (s.window.vertex_batch j).v_s
  members : ∀ v, v ∈ batchVertices s.window s.wrs ↔
    range_start ≤ v ∧ v < s.v ∧ visit v = .fetch ∧ 0 < c.outDegree v
  degree : ∀ v ∈ batchVertices s.window s.wrs, c.degree v = c.outDegree v
  local_addr : ∀ i < s.wrs,
    (s.window.sge_window i).addr = edge_buf + c.wordsIn (batchVertices s.window i)
  length : ∀ i < s.wrs,
    (s.window.sge_window i).length = 4 * c.wordsIn (s.window.vertex_batch i).vertices
  total : s.total_edges = c.wordsIn (batchVertices s.window s.wrs)
  total_le : s.total_edges ≤ edge_buf_size
  remote_addr : ∀ i < s.wrs,
    (s.window.wr_window i).remote_addr =
      c.peer_addr + 4 * c.edge_offset (s.window.vertex_batch i).v_s
  remote : ∀ i < s.wrs,
    c.edge_offset (s.window.vertex_batch i).v_s + c.wordsIn (s.window.vertex_batch i).vertices =
      c.edge_offset (s.window.vertex_batch i).v_e + c.outDegree (s.window.vertex_batch i).v_e ∧
    c.edge_offset (s.window.vertex_batch i).v_e + c.outDegree (s.window.vertex_batch i).v_e ≤
      c.num_edges

/-- The packer gets to `v`, whose list does not fit behind those before it, but the sum of the
    `uint32_t`s does. -/
structure Overflows (o : BuildOptions) (c : ClientContext) (edge_buf_size range_start : Nat)
    (visit : Nat → Visit) (v : Nat) : Prop where
  fetch : visit v = .fetch
  room : c.wordsIn (c.wanted visit range_start v) < edge_buf_size
  requests : (runs o.vertex_coalescing (c.wanted visit range_start v)).length < o.wr_window_size
  exceeds : edge_buf_size < c.wordsIn (c.wanted visit range_start v) + c.outDegree v
  wraps :
    (c.wordsIn (c.wanted visit range_start v) + c.outDegree v % 2 ^ 32) % 2 ^ 32 ≤ edge_buf_size

section Geometry

variable {o : BuildOptions} {c : ClientContext} {edge_buf edge_buf_size range_start range_end : Nat}
  {visit : Nat → Visit} {rs : List VertexRange} {s : PackState}

/-- Without overflow, a vertex the packer takes has the degree it is taken for. -/
theorem degree_eq_of_not_overflows (hindex : c.WellFormed) (hsize : edge_buf_size < 2 ^ 32)
    {u : Nat} (hu : u < c.num_vertices) (hnot : ¬ Overflows o c edge_buf_size range_start visit u)
    (hbefore : ∀ w, range_start ≤ w → w < u → visit w = .fetch → c.degree w = c.outDegree w)
    (hopen : WindowOpen o c edge_buf_size range_start visit u) (hfetch : visit u = .fetch)
    (htaken : c.edgesIn (fetched c visit range_start u) + c.degree u ≤ edge_buf_size) :
    c.degree u = c.outDegree u := by
  obtain ⟨hsame, hwords⟩ := ClientContext.fetched_eq_wanted hbefore
  have hdegree := hindex.degree_eq hu
  rw [WindowOpen, hwords, hsame] at hopen
  rw [hwords] at htaken
  have hfits : c.wordsIn (c.wanted visit range_start u) + c.outDegree u ≤ edge_buf_size := by
    by_contra hover
    exact hnot
      { fetch := hfetch
        room := hopen.1
        requests := hopen.2
        exceeds := Nat.lt_of_not_le hover
        wraps := by rw [← hdegree, Nat.mod_eq_of_lt (by omega)]; exact htaken }
  rw [hdegree, Nat.mod_eq_of_lt (by omega)]

/-- So do all vertices before one that the packer looks at. -/
theorem degree_eq_of_windowOpen (hindex : c.WellFormed) (hsize : edge_buf_size < 2 ^ 32)
    (hend : range_end ≤ c.num_vertices)
    (hnot : ∀ v, range_start ≤ v → v < range_end →
      ¬ Overflows o c edge_buf_size range_start visit v)
    {v : Nat} (hv : v ≤ range_end)
    (htaken : ∀ u, range_start ≤ u → u < v → visit u = .fetch →
      WindowOpen o c edge_buf_size range_start visit u ∧
        c.edgesIn (fetched c visit range_start u) + c.degree u ≤ edge_buf_size) :
    ∀ u, range_start ≤ u → u < v → visit u = .fetch → c.degree u = c.outDegree u := by
  intro u
  induction u using Nat.strong_induction_on with
  | _ u ih =>
      intro hu hlt hfetch
      obtain ⟨hopen, hle⟩ := htaken u hu hlt hfetch
      apply degree_eq_of_not_overflows hindex hsize (by omega) (hnot u hu (by omega)) ?_ hopen
        hfetch hle
      intro w hw hwu hwfetch
      exact ih w hwu hw (by omega) hwfetch

/-- Then the 32-bit test is exact. -/
theorem exactTest_of_not_overflows (hindex : c.WellFormed) (hsize : edge_buf_size < 2 ^ 32)
    (hend : range_end ≤ c.num_vertices)
    (hnot : ∀ v, range_start ≤ v → v < range_end →
      ¬ Overflows o c edge_buf_size range_start visit v) :
    ExactTest o c edge_buf_size range_start range_end visit where
  size := hsize
  exact v hstart hv hfetch hopen hle := by
    have hbefore :
        ∀ u, range_start ≤ u → u < v → visit u = .fetch → c.degree u = c.outDegree u := by
      apply degree_eq_of_windowOpen hindex hsize hend hnot (Nat.le_of_lt hv)
      intro u hu hlt hufetch
      have hpart := edgesIn_fetched_le (c := c) hu hlt hufetch
      exact ⟨hopen.mono hu (Nat.le_of_lt hlt), Nat.le_trans hpart (Nat.le_of_lt hopen.1)⟩
    obtain ⟨hsame, hwords⟩ := ClientContext.fetched_eq_wanted hbefore
    have hdegree := hindex.degree_eq (v := v) (by omega)
    have hmod := Nat.mod_le (c.outDegree v) (2 ^ 32)
    rw [WindowOpen, hwords, hsame] at hopen
    rw [hwords] at hle ⊢
    by_contra hover
    apply hnot v hstart hv
    exact
      { fetch := hfetch
        room := hopen.1
        requests := hopen.2
        exceeds := by omega
        wraps := hdegree ▸ hle }

/-- The vertices of the first entries. -/
theorem Packed.batchVertices_take
    (h : Packed o c edge_buf edge_buf_size range_start range_end visit rs s) {i : Nat}
    (hi : i ≤ rs.length) :
    batchVertices s.window i = (rs.take i).flatMap VertexRange.vertices := by
  have hbatch : (List.range i).map s.window.vertex_batch = rs.take i := by
    apply List.ext_getElem
    · rw [List.length_map, List.length_range, List.length_take, Nat.min_eq_left hi]
    · intro k hk hk'
      rw [List.length_map, List.length_range] at hk
      rw [List.getElem_map, List.getElem_range, List.getElem_take, h.arrays.batch k (by omega)]
  rw [← hbatch, List.flatMap_map]
  rfl

/-- The vertices of a range are among those fetched. -/
theorem Packed.mem_fetched (h : Packed o c edge_buf edge_buf_size range_start range_end visit rs s)
    {r : VertexRange} (hr : r ∈ rs) {v : Nat} (hv : v ∈ r.vertices) :
    v ∈ fetched c visit range_start s.v := by
  rw [← h.vertices]
  exact List.mem_flatMap.2 ⟨r, hr, hv⟩

/-- What a READ reads, when its vertices have the degrees they were taken for. -/
theorem Packed.remote (h : Packed o c edge_buf edge_buf_size range_start range_end visit rs s)
    (hindex : c.WellFormed) (hend : range_end ≤ c.num_vertices)
    (hdegree : ∀ v ∈ fetched c visit range_start s.v, c.degree v = c.outDegree v) {r : VertexRange}
    (hr : r ∈ rs) :
    c.edge_offset r.v_s + c.wordsIn r.vertices = c.edge_offset r.v_e + c.outDegree r.v_e ∧
      c.edge_offset r.v_e + c.outDegree r.v_e ≤ c.num_edges := by
  obtain ⟨hle, hlt⟩ := h.range_lt hend hr
  have hmember : ∀ v ∈ r.vertices, c.degree v = c.outDegree v :=
    fun v hv => hdegree v (h.mem_fetched hr hv)
  have hlists := (flatMap_adjacency_range (c := c) hle fun v hv hv' => by
    rw [hmember v (VertexRange.mem_vertices.2 ⟨hv, Nat.le_of_lt hv'⟩)]
    exact hindex.edge_offset_succ (by omega)).2
  rw [ClientContext.edgesIn_eq_wordsIn hmember, hmember r.v_e (VertexRange.mem_vertices.2
    ⟨hle, Nat.le_refl _⟩)] at hlists
  exact ⟨hlists.symm, hindex.adjacency_le hlt⟩

/-- Ranges of ascending vertices ascend. -/
theorem Packed.ascending (h : Packed o c edge_buf edge_buf_size range_start range_end visit rs s) :
    rs.Pairwise fun r r' => r.v_e < r'.v_s := by
  have hsorted : (rs.flatMap VertexRange.vertices).Pairwise (· < ·) := by
    rw [h.vertices]
    exact List.Pairwise.filter _ List.pairwise_lt_range'
  rw [List.pairwise_flatMap] at hsorted
  refine hsorted.2.imp_of_mem ?_
  intro r r' hr hr' hlt
  exact hlt r.v_e (VertexRange.mem_vertices.2 ⟨h.ranges r hr, Nat.le_refl _⟩) r'.v_s
    (VertexRange.mem_vertices.2 ⟨Nat.le_refl _, h.ranges r' hr'⟩)

/-- The window of an exact packer, when the degrees it saw were right. -/
theorem Packed.geometry (h : Packed o c edge_buf edge_buf_size range_start range_end visit rs s)
    (hindex : c.WellFormed) (hsize : 4 * edge_buf_size < 2 ^ 32) (hend : range_end ≤ c.num_vertices)
    (hseen : ∀ u, range_start ≤ u → u < s.v → visit u = .fetch → c.degree u = c.outDegree u) :
    Geometry o c edge_buf edge_buf_size range_start visit s := by
  have hwrs := h.wrs
  have hdegree : ∀ v ∈ fetched c visit range_start s.v, c.degree v = c.outDegree v := by
    intro v hv
    obtain ⟨hrange, hfetch, -⟩ := FamGraph.mem_fetched.1 hv
    exact hseen v hrange.1 hrange.2 hfetch
  have hbatch : batchVertices s.window rs.length = fetched c visit range_start s.v :=
    hwrs ▸ h.batchVertices_eq
  have hpart : ∀ i ≤ rs.length, c.edgesIn (batchVertices s.window i) =
      c.wordsIn (batchVertices s.window i) := by
    intro i hi
    apply ClientContext.edgesIn_eq_wordsIn
    intro v hv
    rw [h.batchVertices_take hi] at hv
    obtain ⟨r, hr, hvr⟩ := List.mem_flatMap.1 hv
    exact hdegree v (h.mem_fetched (List.mem_of_mem_take hr) hvr)
  exact
    { wrs_le := hwrs ▸ h.wrs_le
      chain := by
        rw [hwrs]
        intro hpos fuel hfuel
        rw [chain_eq h.arrays hpos (by omega), Nat.sub_zero, List.range_eq_range']
      signaled := by
        rw [hwrs]
        intro i hi
        rw [h.arrays.wr i hi]
      scatter := by
        rw [hwrs]
        intro i hi
        rw [h.arrays.wr i hi]
        exact ⟨rfl, rfl⟩
      interval := by
        rw [hwrs]
        intro i hi
        rw [h.arrays.batch i hi]
        exact h.ranges _ (List.getElem_mem hi)
      ascending := by
        rw [hwrs]
        intro i j hij hj
        rw [h.arrays.batch i (by omega), h.arrays.batch j hj]
        exact List.pairwise_iff_getElem.1 h.ascending i j _ hj hij
      members := by
        rw [hwrs, hbatch]
        intro v
        constructor
        · intro hv
          have hmem := FamGraph.mem_fetched.1 hv
          exact ⟨hmem.1.1, hmem.1.2, hmem.2.1, hdegree v hv ▸ hmem.2.2⟩
        · rintro ⟨hstart, hlt, hfetch, hpos⟩
          exact FamGraph.mem_fetched.2 ⟨⟨hstart, hlt⟩, hfetch, hseen v hstart hlt hfetch ▸ hpos⟩
      degree := by
        rw [hwrs, hbatch]
        exact hdegree
      local_addr := by
        rw [hwrs]
        intro i hi
        rw [h.arrays.sge i hi, ← hpart i (Nat.le_of_lt hi), h.batchVertices_take (Nat.le_of_lt hi)]
      length := by
        rw [hwrs]
        intro i hi
        have hr := List.getElem_mem hi
        have hle := h.edgesIn_le hr
        have htotal := h.total_le
        have hwords := ClientContext.edgesIn_eq_wordsIn fun v hv => hdegree v (h.mem_fetched hr hv)
        rw [h.arrays.sge i hi, h.arrays.batch i hi, ← hwords]
        exact Nat.mod_eq_of_lt (by omega)
      total := by
        rw [hwrs, ← hpart _ (Nat.le_refl _), hbatch]
        exact h.total
      total_le := h.total_le
      remote_addr := by
        rw [hwrs]
        intro i hi
        rw [h.arrays.wr i hi, h.arrays.batch i hi, Nat.mul_comm]
      remote := by
        rw [hwrs]
        intro i hi
        rw [h.arrays.batch i hi]
        exact h.remote hindex hend hdegree (List.getElem_mem hi) }

/-- A packer that gets to a vertex that overflows goes beyond it. -/
theorem lt_of_overflows (hindex : c.WellFormed) (hsize : edge_buf_size < 2 ^ 32)
    (hend : range_end ≤ c.num_vertices) (window : Window) (n_wr : Nat) (stats : Nat × Nat × Nat)
    {v : Nat} (hstart : range_start ≤ v) (hlt : v < range_end)
    (hover : Overflows o c edge_buf_size range_start visit v) :
    v < (pack o c edge_buf edge_buf_size range_end visit
      (.new window 0 n_wr range_start stats)).v := by
  have hdegree : ∀ u, range_start ≤ u → u < v → visit u = .fetch → c.degree u = c.outDegree u :=
    hindex.degree_eq_outDegree (by omega) (Nat.lt_trans hover.room hsize)
  obtain ⟨hsame, hwords⟩ := ClientContext.fetched_eq_wanted hdegree
  have hopen : WindowOpen o c edge_buf_size range_start visit v := by
    rw [WindowOpen, hwords, hsame]
    exact ⟨hover.room, hover.requests⟩
  obtain ⟨rs, s, n, rest, h, hv, -, -, hpack⟩ :=
    pack_splits edge_buf window n_wr stats hsize hopen hstart hlt
  -- At `v` the sum wraps, and the packer goes on.
  have hnext : (s.body o c edge_buf edge_buf_size visit).v = v + 1 := by
    rw [← hv]
    apply body_next
    intro _
    rw [h.total, hv, hwords, hindex.degree_eq (by omega)]
    exact hover.wraps
  rw [hpack]
  exact Nat.lt_of_lt_of_le (hnext ▸ Nat.lt_succ_self v) (le_iter rest _)

/-- A window with the right geometry holds no vertex that overflows. -/
theorem Geometry.not_overflows (h : Geometry o c edge_buf edge_buf_size range_start visit s)
    {v : Nat} (hstart : range_start ≤ v) (hlt : v < s.v) :
    ¬ Overflows o c edge_buf_size range_start visit v := by
  intro hover
  have hsnoc : c.wanted visit range_start (v + 1) = c.wanted visit range_start v ++ [v] := by
    have hpos : 0 < c.outDegree v := by
      have hroom := hover.room
      have hbig := hover.exceeds
      omega
    rw [ClientContext.wanted, range'_snoc hstart, List.filter_append, List.filter_singleton,
      decide_eq_true ⟨hover.fetch, hpos⟩]
    rfl
  have hsubset : c.wanted visit range_start (v + 1) ⊆ batchVertices s.window s.wrs := by
    intro u hu
    obtain ⟨hrange, hwanted⟩ := List.mem_filter.1 hu
    rw [List.mem_range'_1] at hrange
    have hu' := of_decide_eq_true hwanted
    exact (h.members u).2 ⟨hrange.1, by omega, hu'⟩
  have hnodup : (c.wanted visit range_start (v + 1)).Nodup := List.Nodup.filter _ List.nodup_range'
  have hwords := c.wordsIn_le_of_subset hnodup hsubset
  rw [hsnoc, ClientContext.wordsIn_append, ClientContext.wordsIn_singleton, ← h.total] at hwords
  exact Nat.not_le_of_lt hover.exceeds (Nat.le_trans hwords h.total_le)

/-- The geometry of a window is right exactly if no vertex of the range overflows. -/
theorem geometry_pack_iff (hindex : c.WellFormed) (hsize : 4 * edge_buf_size < 2 ^ 32)
    (hle : range_start ≤ range_end) (hend : range_end ≤ c.num_vertices) (window : Window)
    (n_wr : Nat) (stats : Nat × Nat × Nat) :
    Geometry o c edge_buf edge_buf_size range_start visit
        (pack o c edge_buf edge_buf_size range_end visit (.new window 0 n_wr range_start stats)) ↔
      ∀ v, range_start ≤ v → v < range_end → ¬ Overflows o c edge_buf_size range_start visit v := by
  constructor
  · intro hgeometry v hstart hlt hover
    exact hgeometry.not_overflows hstart
      (lt_of_overflows hindex (by omega) hend window n_wr stats hstart hlt hover) hover
  · intro hnot
    obtain ⟨rs, h⟩ : ∃ rs, Packed o c edge_buf edge_buf_size range_start range_end visit rs
        (pack o c edge_buf edge_buf_size range_end visit (.new window 0 n_wr range_start stats)) :=
      packed_pack window n_wr stats (exactTest_of_not_overflows hindex (by omega) hend hnot) hle
    apply h.geometry hindex hsize hend
    apply degree_eq_of_windowOpen hindex (by omega) hend hnot h.v_le
    intro u hu hlt hfetch
    refine ⟨h.passed u hu hlt, ?_⟩
    have hpart := edgesIn_fetched_le (c := c) hu hlt hfetch
    rw [← h.total] at hpart
    exact Nat.le_trans hpart h.total_le

end Geometry

/-! ### The three packers -/

/-- The vertices `cache_pack_window` finds in the cache; what a `CacheMap` holds does not count
    there. -/
def Cached (cacheManager : Option CacheManager) (v : Nat) : Prop :=
  ∃ m, cacheManager = some m ∧ m.is_vertex_exist v = true

theorem cacheVisit_eq_fetch_iff {threads : Nat} (cache_map : Option CacheMap)
    (cacheManager : Option CacheManager) (frontier : Bitmap threads) (v : Nat) :
    cacheVisit cache_map cacheManager frontier v = .fetch ↔
    frontier.Active v ∧ ¬ Cached cacheManager v := by
  by_cases hactive : frontier.Active v
  · have hvisit : cacheVisit cache_map cacheManager frontier v = lookup cache_map cacheManager v :=
      if_pos hactive
    rw [hvisit]
    cases cacheManager with
    | none =>
        refine iff_of_true rfl ⟨hactive, ?_⟩
        rintro ⟨m, hm, -⟩
        cases hm
    | some m =>
        cases hexist : m.is_vertex_exist v with
        | false =>
            apply iff_of_true
            · simp only [lookup, hexist, Bool.false_eq_true, if_false]
            · refine ⟨hactive, ?_⟩
              rintro ⟨_, ⟨⟩, hm⟩
              cases hexist.symm.trans hm
        | true =>
            apply iff_of_false
            · simp [lookup, hexist]
            · intro h
              exact h.2 ⟨m, rfl, hexist⟩
  · have hvisit : cacheVisit cache_map cacheManager frontier v = .skip := if_neg hactive
    rw [hvisit]
    exact iff_of_false (by simp) fun h => hactive h.1

/-- For every well-formed index, range and buffer of less than `2 ^ 32` bytes, with or without
    coalescing, and whatever the arrays held before: what each packer returns has the geometry of a
    window exactly if no vertex of the range overflows. -/
theorem window_geometry_iff {threads : Nat} (o : BuildOptions) (c : ClientContext)
    (edge_buf edge_buf_size range_start range_end : Nat) (window : Window) (stats : Nat × Nat × Nat)
    (hindex : c.WellFormed) (hsize : 4 * edge_buf_size < 2 ^ 32) (hle : range_start ≤ range_end)
    (hend : range_end ≤ c.num_vertices) :
    (∀ frontier : Bitmap threads,
      Geometry o c edge_buf edge_buf_size range_start (frontierVisit frontier)
          (packWindow o window edge_buf_size range_start range_end frontier c edge_buf stats) ↔
        ∀ v, range_start ≤ v → v < range_end →
          ¬ Overflows o c edge_buf_size range_start (frontierVisit frontier) v) ∧
    (∀ cache_map cacheManager, ∀ frontier : Bitmap threads,
      Geometry o c edge_buf edge_buf_size range_start (cacheVisit cache_map cacheManager frontier)
          (cachePackWindow o cache_map cacheManager window edge_buf_size range_start range_end
            frontier c edge_buf stats) ↔
        ∀ v, range_start ≤ v → v < range_end →
          ¬ Overflows o c edge_buf_size range_start (cacheVisit cache_map cacheManager frontier)
            v) ∧
    (∀ n_wr, Geometry o c edge_buf edge_buf_size range_start (fun _ => .fetch)
          (packWindow2 o window 0 edge_buf_size range_start range_end c edge_buf n_wr stats) ↔
        ∀ v, range_start ≤ v → v < range_end →
          ¬ Overflows o c edge_buf_size range_start (fun _ => .fetch) v) := by
  refine ⟨?_, ?_, ?_⟩
  · intro frontier
    exact geometry_pack_iff hindex hsize hle hend window 0 stats
  · intro cache_map cacheManager frontier
    exact geometry_pack_iff hindex hsize hle hend window 0 stats
  · intro n_wr
    exact geometry_pack_iff hindex hsize hle hend window n_wr stats

/-- Three vertices with one edge each. -/
def threeVertices : ClientContext where
  num_vertices := 3
  num_edges := 3
  edge_offset := fun v => v
  peer_addr := 4096
  peer_rkey := 7
  lkey := 9
  words := fun i => i

/-- Their first window into a buffer of two words. -/
theorem window_geometry_three :
    Geometry ⟨40, true, by decide⟩ threeVertices 0 2 0 (fun _ => .fetch)
      (packWindow2 ⟨40, true, by decide⟩ clearWorker.window 0 2 0 3 threeVertices 0 0
        (0, 0, 0)) := by
  have hindex : threeVertices.WellFormed :=
    ⟨by decide, by decide, fun v _ => Nat.le_succ v, fun v hv => Nat.le_of_lt hv⟩
  have hdegree : ∀ v < 3, threeVertices.outDegree v = 1 := by decide
  apply ((@window_geometry_iff 1 ⟨40, true, by decide⟩ threeVertices 0 2 0 3 clearWorker.window
    (0, 0, 0) hindex (by decide) (by decide) (Nat.le_refl 3)).2.2 0).2
  intro v _ hv hover
  have hroom := hover.room
  have hbig := hover.exceeds
  rw [hdegree v hv] at hbig
  omega

/-- Two vertices, the second with `2 ^ 32 - 1` edges. -/
def longList : ClientContext where
  num_vertices := 2
  num_edges := 2 ^ 32
  edge_offset := fun v => v
  peer_addr := 4096
  peer_rkey := 7
  lkey := 9
  words := fun _ => 0

/-- Behind the edge of the first, the second list seems to fit in a buffer of two words. -/
theorem long_list_breaks_geometry :
    longList.WellFormed ∧ 4 * 2 < 2 ^ 32 ∧
      ¬ Geometry ⟨40, true, by decide⟩ longList 0 2 0
        (frontierVisit ((Bitmap.fresh 2 : Bitmap 1).setAll 0))
        (packWindow ⟨40, true, by decide⟩ clearWorker.window 2 0 2
          ((Bitmap.fresh 2 : Bitmap 1).setAll 0) longList 0 (0, 0, 0)) := by
  have hindex : longList.WellFormed :=
    ⟨by decide,
      by
        decide, fun v _ => Nat.le_succ v,
          fun v hv => by change v ≤ 2 ^ 32; change v < 2 at hv; omega⟩
  refine ⟨hindex, by decide, ?_⟩
  intro hgeometry
  have hnot := (geometry_pack_iff hindex (by decide) (by decide) (Nat.le_refl 2) clearWorker.window
    0 (0, 0, 0)).1 hgeometry 1 (by decide) (by decide)
  apply hnot
  exact
    { fetch := by decide
      room := by decide
      requests := by decide
      exceeds := by decide
      wraps := by decide }

end FamGraph
