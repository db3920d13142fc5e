/-
Module: FamGraph.Proofs.BatchDrivers
Layer: Proofs
Purpose: The drivers deliver every wanted adjacency list exactly once. The READs of a window put the
  adjacency lists of its vertices one behind the other into the buffer, where the decoding loops
  find them as long as none begins or ends with the sentinel; the windows of a sub-range cut it into
  consecutive pieces, and so do the sub-ranges the whole range.
Trusted boundary: none
Main exports: posted_eq, decode_eq, driveRange_calls, Delivers, batch_drivers_deliver_once
-/
import FamGraph.Core.BatchDrivers
import FamGraph.Core.GraphKernel
import FamGraph.Proofs.Packing

namespace FamGraph

/-! ### What a window's READs write -/

section Posted

variable {c : ClientContext} {edge_buf edge_buf_size : Nat} {rs : List VertexRange} {w : Window}

/-- The lists of consecutive vertices are consecutive words on the server. -/
theorem flatMap_adjacency_range {v_s v_e : Nat} (hle : v_s ≤ v_e)
    (hnext : ∀ v, v_s ≤ v → v < v_e → c.edge_offset (v + 1) = c.edge_offset v + c.degree v) :
    (VertexRange.vertices ⟨v_s, v_e⟩).flatMap c.adjacency =
        (List.range (c.edgesIn (VertexRange.vertices ⟨v_s, v_e⟩))).map
          (fun j => c.words (c.edge_offset v_s + j)) ∧
      c.edge_offset v_e + c.degree v_e =
        c.edge_offset v_s + c.edgesIn (VertexRange.vertices ⟨v_s, v_e⟩) := by
  induction v_e, hle using Nat.le_induction with
  | base =>
      rw [VertexRange.vertices_single, ClientContext.edgesIn_singleton, List.flatMap_singleton]
      exact ⟨rfl, rfl⟩
  | succ v_e hle ih =>
      obtain ⟨hlists, hoffset⟩ := ih fun v hv hlt => hnext v hv (Nat.lt_succ_of_lt hlt)
      have hnext := hnext v_e hle (Nat.lt_succ_self v_e)
      have hvertices : VertexRange.vertices ⟨v_s, v_e + 1⟩ =
          VertexRange.vertices ⟨v_s, v_e⟩ ++ [v_e + 1] :=
        VertexRange.vertices_extend (r := ⟨v_s, v_e⟩) hle
      have hlast : c.adjacency (v_e + 1) = (List.range (c.degree (v_e + 1))).map fun j =>
          c.words (c.edge_offset v_s + (c.edgesIn (VertexRange.vertices ⟨v_s, v_e⟩) + j)) := by
        rw [ClientContext.adjacency, hnext, hoffset]
        simp only [Nat.add_assoc]
      rw [hvertices, ClientContext.edgesIn_append, ClientContext.edgesIn_singleton,
        List.flatMap_append, List.flatMap_singleton, hlists, hlast, List.range_add, List.map_append,
        List.map_map]
      exact ⟨rfl, by omega⟩

/-- One work request reads the lists of its range. -/
theorem readWords_eq (hfits : Fits c edge_buf_size) (h : Represents c edge_buf w rs) {i : Nat}
    (hi : i < rs.length) (hrange : rs[i].v_s ≤ rs[i].v_e) (hlt : rs[i].v_e < c.num_vertices)
    (hedges : 4 * c.edgesIn rs[i].vertices < 2 ^ 32) :
    readWords c (w.wr_window i) (w.sge_window (w.wr_window i).sg_list) =
      Memory.segment (edge_buf + c.edgesIn ((rs.take i).flatMap VertexRange.vertices))
        (rs[i].vertices.flatMap c.adjacency) := by
  have hlists := (flatMap_adjacency_range hrange fun v _ hv => hfits.edge_offset_succ (by omega)).1
  rw [readWords, h.wr i hi]
  simp only
  rw [h.sge i hi]
  simp only
  rw [Nat.mod_eq_of_lt hedges, Nat.mul_div_cancel_left _ (by decide), hlists]
  congr 1
  apply List.map_congr_left
  intro j _
  rw [ClientContext.remote]
  congr 1
  omega

/-- Following `next` from a request of a chain visits it and all behind it. -/
theorem chain_of_next {n : Nat}
    (hnext : ∀ i < n, (w.wr_window i).next = if i + 1 < n then some (i + 1) else none)
    {i fuel : Nat} (hi : i < n) (hfuel : n ≤ i + fuel) :
    w.chain fuel (some i) = List.range' i (n - i) := by
  induction fuel generalizing i with
  | zero => omega
  | succ fuel ih =>
      rw [Window.chain, hnext i hi]
      rcases Nat.lt_or_ge (i + 1) n with hmore | hlast
      · have hlength : n - i = n - (i + 1) + 1 := by omega
        rw [if_pos hmore, ih hmore (by omega), hlength, List.range'_succ]
      · have hlength : n - i = 1 := by omega
        rw [if_neg (by omega), hlength]
        cases fuel <;> rfl

theorem chain_eq (h : Represents c edge_buf w rs) {i fuel : Nat} (hi : i < rs.length)
    (hfuel : rs.length ≤ i + fuel) : w.chain fuel (some i) = List.range' i (rs.length - i) := by
  apply chain_of_next _ hi hfuel
  intro j hj
  rw [h.wr j hj]

/-- The chain of a window puts the lists of its vertices one behind the other. -/
theorem flatten_readWords (hfits : Fits c edge_buf_size) (h : Represents c edge_buf w rs)
    (hranges : ∀ r ∈ rs, r.v_s ≤ r.v_e ∧ r.v_e < c.num_vertices)
    (hedges : ∀ r ∈ rs, 4 * c.edgesIn r.vertices < 2 ^ 32) {n : Nat} (hn : n ≤ rs.length) :
    ((List.range n).map fun i =>
        readWords c (w.wr_window i) (w.sge_window (w.wr_window i).sg_list)).flatten =
      Memory.segment edge_buf (((rs.take n).flatMap VertexRange.vertices).flatMap c.adjacency) := by
  induction n with
  | zero => rfl
  | succ n ih =>
      have hlt : n < rs.length := hn
      have hr := hranges rs[n] (List.getElem_mem hlt)
      rw [List.range_succ, List.map_append, List.flatten_append, ih (Nat.le_of_lt hlt),
        List.map_singleton, List.flatten_singleton,
        readWords_eq hfits h hlt hr.1 hr.2 (hedges _ (List.getElem_mem hlt)),
        ← List.take_append_getElem hlt, List.flatMap_append, List.flatMap_append,
        List.flatMap_singleton, Memory.segment_append, ClientContext.length_flatMap_adjacency]

theorem posted_eq {o : BuildOptions} (hfits : Fits c edge_buf_size) (h : Represents c edge_buf w rs)
    (hranges : ∀ r ∈ rs, r.v_s ≤ r.v_e ∧ r.v_e < c.num_vertices)
    (hedges : ∀ r ∈ rs, 4 * c.edgesIn r.vertices < 2 ^ 32) (hpos : 0 < rs.length)
    (hle : rs.length ≤ o.wr_window_size) :
    (posted o c w).flatten =
      Memory.segment edge_buf ((rs.flatMap VertexRange.vertices).flatMap c.adjacency) := by
  rw [posted, chain_eq h hpos (by omega), Nat.sub_zero, ← List.range_eq_range',
    flatten_readWords hfits h hranges hedges (Nat.le_refl _), List.take_length]

end Posted

/-! ### Decoding -/

/-- The call a driver owes `v`. -/
def ClientContext.delivery (c : ClientContext) (v : Nat) : Call where
  v := v
  edges := c.adjacency v
  n := c.degree v

/-- Neither end of the adjacency list of `v` looks like a word that has not arrived. -/
def ClientContext.Decodable (c : ClientContext) (v : Nat) : Prop :=
  c.words (c.edge_offset v) ≠ NULL_VERT ∧ c.words (c.edge_offset v + (c.degree v - 1)) ≠ NULL_VERT

theorem pred_uint32 {n : Nat} (hpos : 0 < n) (hlt : n < 2 ^ 32) :
    (n + (2 ^ 32 - 1)) % 2 ^ 32 = n - 1 := by
  omega

/-- With the lists of `vs` in the buffer, decoding calls the function once on each. -/
theorem decode_eq {c : ClientContext} {mem : Nat → Nat} {vs : List Nat} {e_buf : Nat}
    (hmem : Memory.Holds mem e_buf (vs.flatMap c.adjacency))
    (hvs : ∀ v ∈ vs, (0 < c.degree v ∧ c.degree v < 2 ^ 32) ∧ c.Decodable v) :
    decode c mem vs e_buf = some (vs.map c.delivery) := by
  induction vs generalizing e_buf with
  | nil => rfl
  | cons v vs ih =>
      obtain ⟨⟨hpos, hlt⟩, hfirst, hlast⟩ := hvs v List.mem_cons_self
      rw [List.flatMap_cons, Memory.holds_append, ClientContext.length_adjacency] at hmem
      obtain ⟨hv, hrest⟩ := hmem
      have hword : ∀ j, j < c.degree v → mem (e_buf + j) = c.words (c.edge_offset v + j) := by
        intro j hj
        rw [hv j (by rw [ClientContext.length_adjacency]; exact hj)]
        simp only [ClientContext.adjacency, List.getElem_map, List.getElem_range]
      have hread : Memory.read mem e_buf (c.degree v) = c.adjacency v := by
        rw [← ClientContext.length_adjacency]
        exact hv.read_eq
      have hhead : mem e_buf = c.words (c.edge_offset v) := hword 0 hpos
      have htail : mem (e_buf + (c.degree v - 1)) = c.words (c.edge_offset v + (c.degree v - 1)) :=
        hword _ (by omega)
      have hdecode := ih hrest fun u hu => hvs u (List.mem_cons_of_mem v hu)
      rw [decode]
      simp only [pred_uint32 hpos hlt, hhead, htail, if_neg hfirst, if_neg hlast, hdecode, hread]
      rfl

/-! ### One sub-range -/

/-- What a driver owes the vertices of a list that it serves out of the cache or fetches. -/
def callsOf (c : ClientContext) (visit : Nat → Visit) (v : Nat) : List Call :=
  (visit v).call?.toList ++ if visit v = .fetch ∧ 0 < c.degree v then [c.delivery v] else []

theorem flatMap_filter_eq {α β : Type*} (p : α → Prop) [DecidablePred p] (f : α → List β)
    (l : List α) :
    (l.filter fun a => p a).flatMap f = l.flatMap fun a => if p a then f a else [] := by
  induction l with
  | nil => rfl
  | cons a l ih =>
      rw [List.flatMap_cons, ← ih]
      by_cases ha : p a
      · rw [List.filter_cons_of_pos (by exact decide_eq_true ha), if_pos ha, List.flatMap_cons]
      · rw [List.filter_cons_of_neg (by simpa using ha), if_neg ha, List.nil_append]

theorem map_filter_eq_flatMap {α β : Type*} (p : α → Prop) [DecidablePred p] (f : α → β)
    (l : List α) :
    (l.filter fun a => p a).map f = l.flatMap fun a => if p a then [f a] else [] := by
  rw [List.map_eq_flatMap]
  exact flatMap_filter_eq p (fun a => [f a]) l

/-- Serving some vertices and fetching others in between does to each what it is owed. -/
theorem flatMap_callsOf_perm (c : ClientContext) (visit : Nat → Visit) (lo hi : Nat) :
    (served visit lo hi ++ (fetched c visit lo hi).map c.delivery).Perm
      ((List.range' lo (hi - lo)).flatMap (callsOf c visit)) := by
  rw [served, fetched, List.filterMap_eq_flatMap_toList, map_filter_eq_flatMap]
  exact List.flatMap_append_perm _ _ _

section Driver

variable {o : BuildOptions} {c : ClientContext} {edge_buf edge_buf_size range_end : Nat}
  {visit : Nat → Visit} {packer : Window → Nat → Nat × Nat × Nat → PackState}
  {posts : PackState → Bool} {enomem : Nat → List Nat}

/-- A driver's own way to pack and to tell whether there is something to post. -/
structure IsPacker (o : BuildOptions) (c : ClientContext) (edge_buf edge_buf_size range_end : Nat)
    (visit : Nat → Visit) (packer : Window → Nat → Nat × Nat × Nat → PackState)
    (posts : PackState → Bool) : Prop where
  pack_eq : ∀ w v stats, packer w v stats =
    pack o c edge_buf edge_buf_size range_end visit (.new w 0 0 v stats)
  posts_iff : ∀ {start rs s}, Packed o c edge_buf edge_buf_size start range_end visit rs s →
    (posts s = true ↔ fetched c visit start s.v ≠ [])

theorem Packed.wrs_pos_iff {start : Nat} {rs : List VertexRange} {s : PackState}
    (h : Packed o c edge_buf edge_buf_size start range_end visit rs s) :
    0 < s.wrs ↔ fetched c visit start s.v ≠ [] := by
  rw [h.wrs]
  constructor
  · intro hpos hnone
    rw [h.eq_nil hnone] at hpos
    exact Nat.lt_irrefl 0 hpos
  · intro hne
    apply List.length_pos_of_ne_nil
    rintro rfl
    exact hne h.vertices.symm

theorem Packed.range_lt {start : Nat} {rs : List VertexRange} {s : PackState}
    (h : Packed o c edge_buf edge_buf_size start range_end visit rs s)
    (hend : range_end ≤ c.num_vertices) {r : VertexRange} (hr : r ∈ rs) :
    r.v_s ≤ r.v_e ∧ r.v_e < c.num_vertices := by
  have hle := h.ranges r hr
  have hmem : r.v_e ∈ rs.flatMap VertexRange.vertices :=
    List.mem_flatMap.2 ⟨r, hr, VertexRange.mem_vertices.2 ⟨hle, Nat.le_refl _⟩⟩
  rw [h.vertices, mem_fetched] at hmem
  have hv := h.v_le
  exact ⟨hle, by omega⟩

/-- The length of a READ is a `uint32_t`. -/
theorem Packed.four_edgesIn_lt {start : Nat} {rs : List VertexRange} {s : PackState}
    (h : Packed o c edge_buf edge_buf_size start range_end visit rs s)
    (hfits : Fits c edge_buf_size) {r : VertexRange} (hr : r ∈ rs) :
    4 * c.edgesIn r.vertices < 2 ^ 32 := by
  have hle := h.edgesIn_le hr
  have htotal := h.total_le
  have hsize := hfits.lt
  omega

/-- The decoding loops go through the vertices that were packed. -/
theorem Packed.batchVertices_eq {start : Nat} {rs : List VertexRange} {s : PackState}
    (h : Packed o c edge_buf edge_buf_size start range_end visit rs s) :
    batchVertices s.window s.wrs = fetched c visit start s.v := by
  have hbatch : (List.range s.wrs).map s.window.vertex_batch = rs := by
    apply List.ext_getElem
    · rw [List.length_map, List.length_range, h.wrs]
    · intro i hi hi'
      rw [List.getElem_map, List.getElem_range, h.arrays.batch i hi']
  rw [← h.vertices, ← hbatch, List.flatMap_map]
  rfl

/-- One turn of a driver: the vertices up to the next window's start get what they are owed. -/
theorem windowTurn_eq (enomem : Nat → List Nat)
    (hpacker : IsPacker o c edge_buf edge_buf_size range_end visit packer posts)
    (hfits : Fits c edge_buf_size) (hend : range_end ≤ c.num_vertices)
    {st : DriverState} (hlt : st.next_range_start < range_end)
    (hdecodable : ∀ v, st.next_range_start ≤ v → v < range_end → visit v = .fetch → 0 < c.degree v →
      c.Decodable v) :
    ∃ st', windowTurn o c edge_buf packer posts enomem st = some st' ∧
      st.next_range_start < st'.next_range_start ∧ st'.next_range_start ≤ range_end ∧
      st'.calls = st.calls ++ (served visit st.next_range_start st'.next_range_start ++
        (fetched c visit st.next_range_start st'.next_range_start).map c.delivery) := by
  obtain ⟨rs, hs⟩ : ∃ rs, Packed o c edge_buf edge_buf_size st.next_range_start range_end visit rs
      (packer st.window st.next_range_start st.stats) := by
    rw [hpacker.pack_eq]
    exact packed_pack st.window 0 st.stats (hfits.exactTest hend) (Nat.le_of_lt hlt)
  have hnext : st.next_range_start < (packer st.window st.next_range_start st.stats).v := by
    rw [hpacker.pack_eq]
    exact hfits.lt_pack st.window 0 st.stats hend hlt
  rw [windowTurn]
  generalize packer st.window st.next_range_start st.stats = s at hs hnext ⊢
  by_cases hposts : posts s = true
  · have hne := (hpacker.posts_iff hs).1 hposts
    have hpos : 0 < rs.length := hs.wrs ▸ hs.wrs_pos_iff.2 hne
    have hwords := posted_eq (o := o) hfits hs.arrays (fun r => hs.range_lt hend)
      (fun r => hs.four_edgesIn_lt hfits) hpos hs.wrs_le
    simp only [hposts, if_true, hwords, hs.batchVertices_eq, hs.vertices]
    rw [decode_eq (Memory.store_segment _ _ _)]
    · exact ⟨_, rfl, hnext, hs.v_le, by simp only [hs.calls, List.append_assoc]⟩
    · intro v hv
      obtain ⟨⟨hstart, hvlt⟩, hfetch, hdegree⟩ := mem_fetched.1 hv
      have hvend : v < range_end := Nat.lt_of_lt_of_le hvlt hs.v_le
      have hle := hfits.degree_le_size (v := v) (by omega)
      have hsize := hfits.lt
      exact ⟨⟨hdegree, by omega⟩, hdecodable v hstart hvend hfetch hdegree⟩
  · have hnone : fetched c visit st.next_range_start s.v = [] := by
      by_contra hne
      exact hposts ((hpacker.posts_iff hs).2 hne)
    rw [if_neg hposts]
    exact ⟨_, rfl, hnext, hs.v_le, by simp only [hs.calls, hnone, List.map_nil, List.append_nil]⟩

/-- A driver returns from a sub-range, having done to each vertex what it is owed. -/
theorem driveRange_calls {range : Nat × Nat} (w : Worker) {fuel : Nat}
    (hpacker : IsPacker o c edge_buf edge_buf_size range.2 visit packer posts)
    (hfits : Fits c edge_buf_size) (hend : range.1 < range.2 → range.2 ≤ c.num_vertices)
    (hdecodable : ∀ v, range.1 ≤ v → v < range.2 → visit v = .fetch → 0 < c.degree v →
      c.Decodable v)
    (hfuel : range.2 - range.1 ≤ fuel) :
    ∃ calls, driveRange (windowTurn o c edge_buf packer posts enomem) fuel range w = some calls ∧
      calls.Perm ((List.range' range.1 (range.2 - range.1)).flatMap (callsOf c visit)) := by
  rcases Nat.lt_or_ge range.1 range.2 with hlt | hge
  · have hloop : ∃ t : DriverState,
        Loop.run (fun st : DriverState => st.next_range_start < range.2)
          (windowTurn o c edge_buf packer posts enomem) fuel
          { next_range_start := range.1
            window := w.window
            mem := w.RDMA_area
            calls := []
            stats := (0, 0, 0) } = some t ∧
        ((range.1 ≤ t.next_range_start ∧ t.next_range_start ≤ range.2) ∧
          t.calls.Perm ((List.range' range.1 (t.next_range_start - range.1)).flatMap
            (callsOf c visit))) ∧
        decide (t.next_range_start < range.2) = false := by
      apply Loop.run_total _ fun st : DriverState => range.2 - st.next_range_start
      · rintro st ⟨⟨hstart, hstop⟩, hcalls⟩ hcond
        have hnext : st.next_range_start < range.2 := of_decide_eq_true hcond
        obtain ⟨st', hturn, hlt', hle', hcalls'⟩ :=
          windowTurn_eq enomem hpacker hfits (hend hlt) hnext fun v hv => hdecodable v (by omega)
        refine ⟨st', hturn, ⟨⟨by omega, hle'⟩, ?_⟩, by omega⟩
        rw [hcalls', range'_append_of_le hstart (Nat.le_of_lt hlt'), List.flatMap_append]
        exact hcalls.append (flatMap_callsOf_perm c visit _ _)
      · rw [Nat.sub_self]
        exact ⟨⟨Nat.le_refl _, Nat.le_of_lt hlt⟩, List.Perm.refl _⟩
      · exact hfuel
    obtain ⟨t, hrun, ⟨⟨-, hle⟩, hcalls⟩, hdone⟩ := hloop
    have heq : t.next_range_start = range.2 :=
      Nat.le_antisymm hle (Nat.le_of_not_lt (of_decide_eq_false hdone))
    rw [driveRange, hrun]
    exact ⟨t.calls, rfl, heq ▸ hcalls⟩
  · rw [driveRange, Loop.run_of_done (by exact decide_eq_false (Nat.not_lt.2 hge)),
      Nat.sub_eq_zero_of_le hge]
    exact ⟨[], rfl, List.Perm.refl _⟩

end Driver

/-! ### The whole range -/

/-- A way to split `[lo, hi)` into disjoint sub-ranges: each vertex is in exactly one of them. -/
def Splits (parts : List (Nat × Nat)) (lo hi : Nat) : Prop :=
  (parts.flatMap fun p => List.range' p.1 (p.2 - p.1)).Perm (List.range' lo (hi - lo))

/-- Exactly-once delivery: leaving out calls without edges, the calls of all sub-ranges are one for
    each wanted vertex with edges, on its adjacency list; so each edge of a wanted vertex is seen
    once. -/
structure Delivers (c : ClientContext) (wanted : Nat → Prop) [DecidablePred wanted] (lo hi : Nat)
    (logs : List (List Call)) : Prop where
  calls : (logs.flatten.filter fun call => call.n ≠ 0).Perm
    (((List.range' lo (hi - lo)).filter fun v => wanted v ∧ 0 < c.degree v).map c.delivery)
  edges : (logs.flatten.flatMap fun call => call.edges.map fun w => (call.v, w)).Perm
    (((List.range' lo (hi - lo)).filter fun v => wanted v).flatMap fun v =>
      (c.adjacency v).map fun w => (v, w))

/-- The manager reports the adjacency lists of the vertices it holds. -/
def CacheManager.Faithful (m : CacheManager) (c : ClientContext) : Prop :=
  ∀ v < c.num_vertices, m.is_vertex_exist v = true →
    m.get_neighbors v = c.adjacency v ∧ m.get_out_degree v = c.degree v

section ParallelFor

variable {o : BuildOptions} {c : ClientContext} {edge_buf_size lo hi : Nat} {visit : Nat → Visit}

theorem Splits.mem {parts : List (Nat × Nat)} (h : Splits parts lo hi) {p : Nat × Nat}
    (hp : p ∈ parts) {v : Nat} (hv : p.1 ≤ v) (hv' : v < p.2) : lo ≤ v ∧ v < hi := by
  have hmem : v ∈ parts.flatMap fun p => List.range' p.1 (p.2 - p.1) :=
    List.mem_flatMap.2 ⟨p, hp, List.mem_range'_1.2 (by omega)⟩
  have hrange := List.mem_range'_1.1 (h.mem_iff.1 hmem)
  omega

theorem Splits.le {parts : List (Nat × Nat)} (h : Splits parts lo hi) {p : Nat × Nat}
    (hp : p ∈ parts) (hlt : p.1 < p.2) : p.2 ≤ hi := by
  have hlast := (h.mem hp (v := p.2 - 1) (by omega) (by omega)).2
  omega

/-- Sub-ranges that each do to their vertices what these are owed do so to the whole range. -/
theorem parallelFor_calls {body : Nat × Nat → Option (List Call)} {parts : List (Nat × Nat)}
    (hbody : ∀ p ∈ parts, ∃ calls, body p = some calls ∧
      calls.Perm ((List.range' p.1 (p.2 - p.1)).flatMap (callsOf c visit))) :
    ∃ logs, parallelFor body parts = some logs ∧ logs.flatten.Perm
      ((parts.flatMap fun p => List.range' p.1 (p.2 - p.1)).flatMap (callsOf c visit)) := by
  induction parts with
  | nil => exact ⟨[], rfl, List.Perm.refl _⟩
  | cons p parts ih =>
      obtain ⟨calls, hcalls, hperm⟩ := hbody p List.mem_cons_self
      obtain ⟨logs, hlogs, hrest⟩ := ih fun q hq => hbody q (List.mem_cons_of_mem p hq)
      refine ⟨calls :: logs, ?_, ?_⟩
      · rw [parallelFor] at hlogs ⊢
        rw [List.mapM_cons, hcalls, hlogs]
        rfl
      · rw [List.flatten_cons, List.flatMap_cons, List.flatMap_append]
        exact hperm.append hrest

/-- What a driver does with a vertex it was asked for or not. -/
def Owes (c : ClientContext) (wanted : Nat → Prop) (visit : Nat → Visit) (v : Nat) : Prop :=
  (¬ wanted v ∧ visit v = .skip) ∨ (wanted v ∧ (visit v = .serve (c.delivery v) ∨ visit v = .fetch))

variable {wanted : Nat → Prop} [DecidablePred wanted] {v : Nat}

theorem adjacency_eq_nil (h : ¬ 0 < c.degree v) : c.adjacency v = [] := by
  rw [← List.length_eq_zero_iff, ClientContext.length_adjacency]
  exact Nat.eq_zero_of_not_pos h

theorem Owes.filter_callsOf (h : Owes c wanted visit v) :
    ((callsOf c visit v).filter fun call => call.n ≠ 0) =
      if wanted v ∧ 0 < c.degree v then [c.delivery v] else [] := by
  by_cases hpos : 0 < c.degree v
  · have hn : (c.delivery v).n ≠ 0 := Nat.ne_of_gt hpos
    rcases h with ⟨hnot, hvisit⟩ | ⟨hwanted, hvisit | hvisit⟩
    · simp [callsOf, hvisit, Visit.call?, hnot]
    · simp [callsOf, hvisit, Visit.call?, hwanted, hpos, hn]
    · simp [callsOf, hvisit, Visit.call?, hwanted, hpos, hn]
  · have hn : (c.delivery v).n = 0 := Nat.eq_zero_of_not_pos hpos
    rcases h with ⟨hnot, hvisit⟩ | ⟨hwanted, hvisit | hvisit⟩
    · simp [callsOf, hvisit, Visit.call?, hnot]
    · simp [callsOf, hvisit, Visit.call?, hpos, hn]
    · simp [callsOf, hvisit, Visit.call?, hpos]

theorem Owes.edges_callsOf (h : Owes c wanted visit v) :
    ((callsOf c visit v).flatMap fun call => call.edges.map fun w => (call.v, w)) =
      if wanted v then (c.adjacency v).map fun w => (v, w) else [] := by
  rcases h with ⟨hnot, hvisit⟩ | ⟨hwanted, hvisit | hvisit⟩
  · simp [callsOf, hvisit, Visit.call?, hnot]
  · simp [callsOf, hvisit, Visit.call?, hwanted, ClientContext.delivery]
  · by_cases hpos : 0 < c.degree v
    · simp [callsOf, hvisit, Visit.call?, hwanted, hpos, ClientContext.delivery]
    · simp [callsOf, hvisit, Visit.call?, hpos, adjacency_eq_nil hpos]

/-- Doing to each vertex what it is owed delivers every wanted list once. -/
theorem delivers_of_perm {logs : List (List Call)}
    (howes : ∀ v, lo ≤ v → v < hi → Owes c wanted visit v)
    (hlogs : logs.flatten.Perm ((List.range' lo (hi - lo)).flatMap (callsOf c visit))) :
    Delivers c wanted lo hi logs := by
  have howes' : ∀ v ∈ List.range' lo (hi - lo), Owes c wanted visit v := by
    intro v hv
    rw [List.mem_range'_1] at hv
    exact howes v hv.1 (by omega)
  constructor
  · rw [map_filter_eq_flatMap]
    refine (hlogs.filter _).trans (List.Perm.of_eq ?_)
    rw [List.filter_flatMap]
    exact List.flatMap_congr fun v hv => (howes' v hv).filter_callsOf
  · rw [flatMap_filter_eq]
    refine (hlogs.flatMap_right _).trans (List.Perm.of_eq ?_)
    rw [List.flatMap_assoc]
    exact List.flatMap_congr fun v hv => (howes' v hv).edges_callsOf

/-- The drivers on every sub-range of a split, with fuel that is enough for each. -/
theorem parallelFor_delivers {packer : Nat × Nat → Window → Nat → Nat × Nat × Nat → PackState}
    {posts : PackState → Bool} {enomem : Nat × Nat → Nat → List Nat} {edge_buf : Nat × Nat → Nat}
    {worker : Nat × Nat → Worker} {parts : List (Nat × Nat)}
    (hpacker : ∀ p, IsPacker o c (edge_buf p) edge_buf_size p.2 visit (packer p) posts)
    (hfits : Fits c edge_buf_size) (hhi : hi ≤ c.num_vertices) (hsplit : Splits parts lo hi)
    (howes : ∀ v, lo ≤ v → v < hi → Owes c wanted visit v)
    (hdecodable : ∀ v, lo ≤ v → v < hi → visit v = .fetch → 0 < c.degree v → c.Decodable v) :
    ∃ fuel logs,
      parallelFor
        (fun p => driveRange (windowTurn o c (edge_buf p) (packer p) posts (enomem p)) fuel p
          (worker p))
        parts = some logs ∧ Delivers c wanted lo hi logs := by
  have hcalls : ∃ logs,
      parallelFor
        (fun p => driveRange (windowTurn o c (edge_buf p) (packer p) posts (enomem p)) hi p
          (worker p))
        parts = some logs ∧ logs.flatten.Perm
        ((parts.flatMap fun p => List.range' p.1 (p.2 - p.1)).flatMap (callsOf c visit)) := by
    apply parallelFor_calls
    intro p hp
    apply driveRange_calls (worker p) (hpacker p) hfits
    · intro hlt
      exact Nat.le_trans (hsplit.le hp hlt) hhi
    · intro v hv hv'
      have hmem := hsplit.mem hp hv hv'
      exact hdecodable v hmem.1 hmem.2
    · rcases Nat.lt_or_ge p.1 p.2 with hlt | hge
      · exact Nat.le_trans (Nat.sub_le _ _) (hsplit.le hp hlt)
      · omega
  obtain ⟨logs, hlogs, hperm⟩ := hcalls
  exact ⟨hi, logs, hlogs, delivers_of_perm howes (hperm.trans (hsplit.flatMap_right _))⟩

end ParallelFor

section Drivers

variable {threads : Nat} {o : BuildOptions} {c : ClientContext}
  {edge_buf edge_buf_size range_end : Nat} {frontier : Bitmap threads}

theorem isPacker_cachePackWindow (cache_map : Option CacheMap)
    (cacheManager : Option CacheManager) :
    IsPacker o c edge_buf edge_buf_size range_end (cacheVisit cache_map cacheManager frontier)
      (fun window next_range_start stats =>
        cachePackWindow o cache_map cacheManager window edge_buf_size next_range_start range_end
          frontier c edge_buf stats)
      (fun s => 0 < s.wrs) where
  pack_eq _ _ _ := rfl
  posts_iff h := by rw [decide_eq_true_eq]; exact h.wrs_pos_iff

theorem isPacker_packWindow :
    IsPacker o c edge_buf edge_buf_size range_end (frontierVisit frontier)
      (fun window next_range_start stats =>
        packWindow o window edge_buf_size next_range_start range_end frontier c edge_buf stats)
      (fun s => 0 < s.wrs) where
  pack_eq _ _ _ := rfl
  posts_iff h := by rw [decide_eq_true_eq]; exact h.wrs_pos_iff

theorem isPacker_packWindow2 :
    IsPacker o c edge_buf edge_buf_size range_end (fun _ => .fetch)
      (fun window next_range_start stats =>
        packWindow2 o window 0 edge_buf_size next_range_start range_end c edge_buf 0 stats)
      (fun s => 0 < s.batch_size) where
  pack_eq _ _ _ := rfl
  posts_iff h := by rw [decide_eq_true_eq, h.batch, List.length_pos_iff]

theorem owes_cacheVisit {cache_map : Option CacheMap} {cacheManager : Option CacheManager}
    (hcache : ∀ m, cacheManager = some m → m.Faithful c) {v : Nat} (hv : v < c.num_vertices) :
    Owes c frontier.Active (cacheVisit cache_map cacheManager frontier) v := by
  by_cases hactive : frontier.Active v
  · refine .inr ⟨hactive, ?_⟩
    have hvisit : cacheVisit cache_map cacheManager frontier v = lookup cache_map cacheManager v :=
      if_pos hactive
    rw [hvisit]
    cases hmanager : cacheManager with
    | none => exact .inr rfl
    | some m =>
        cases hexist : m.is_vertex_exist v with
        | false =>
            right
            simp only [lookup, hexist, Bool.false_eq_true, if_false]
        | true =>
            left
            obtain ⟨hneighbors, hdegree⟩ := hcache m hmanager v hv hexist
            simp only [lookup, hexist, if_true, hneighbors, hdegree, ClientContext.delivery]
  · exact .inl ⟨hactive, if_neg hactive⟩

theorem owes_frontierVisit (v : Nat) : Owes c frontier.Active (frontierVisit frontier) v := by
  by_cases hactive : frontier.Active v
  · exact .inr ⟨hactive, .inr (if_pos hactive)⟩
  · exact .inl ⟨hactive, if_neg hactive⟩

end Drivers

/-! ### The kernels' view -/

/-- The index and the edge array of a graph. -/
structure Encodes (c : ClientContext) (G : Graph) : Prop where
  num_vertices : c.num_vertices = G.num_vertices
  adjacency : ∀ v : G.Vertex, c.adjacency v = (G.out v).map Fin.val

/-- On the index of a graph, delivery over all vertices is what the kernels are modelled to get: one
    call for each vertex of `Graph.calls`, on its adjacency list. -/
theorem Delivers.graph_calls {c : ClientContext} {G : Graph} (hG : Encodes c G)
    {wanted : Nat → Prop} [DecidablePred wanted] {logs : List (List Call)}
    (h : Delivers c wanted 0 G.num_vertices logs) :
    (logs.flatten.filter fun call => call.n ≠ 0).Perm
      ((G.calls fun v => wanted v).map fun v : G.Vertex =>
        { v := v, edges := (G.out v).map Fin.val, n := (G.out v).length }) := by
  have hdegree : ∀ v : G.Vertex, c.degree v = (G.out v).length := by
    intro v
    rw [← ClientContext.length_adjacency, hG.adjacency, List.length_map]
  refine h.calls.trans (List.Perm.of_eq ?_)
  rw [Nat.sub_zero, ← List.range_eq_range', ← List.map_coe_finRange_eq_range, List.filter_map,
    List.map_map, Graph.calls]
  have hfilter : (List.finRange G.num_vertices).filter
      ((fun v => decide (wanted v ∧ 0 < c.degree v)) ∘ Fin.val) =
      (List.finRange G.num_vertices).filter
        fun v : G.Vertex => decide (wanted v) && !(G.out v).isEmpty := by
    apply List.filter_congr
    intro v _
    rw [Function.comp_apply, hdegree, Bool.decide_and]
    cases G.out v with
    | nil => rfl
    | cons w ws => simp
  rw [hfilter]
  apply List.map_congr_left
  intro v _
  rw [Function.comp_apply, ClientContext.delivery, hG.adjacency, hdegree]

/-- On every index, frontier, cache, range and split of it, each driver returns and delivers each
    wanted adjacency list exactly once, if no list that it fetches begins or ends with `NULL_VERT`
    and `ibv_post_send` accepts its chains, those of the caching driver after finitely many
    ENOMEM. -/
theorem batch_drivers_deliver_once {threads : Nat} (o : BuildOptions) (c : ClientContext)
    (edge_buf_size : Nat) (frontier : Bitmap threads) (cache_map : Option CacheMap)
    (cacheManager : Option CacheManager) (lo hi : Nat) (parts : List (Nat × Nat))
    (worker : Nat × Nat → Worker) (enomem : Nat × Nat → Nat → List Nat)
    (hfits : Fits c edge_buf_size) (hhi : hi ≤ c.num_vertices) (hsplit : Splits parts lo hi)
    (hcache : ∀ m, cacheManager = some m → m.Faithful c) :
    ((∀ v, lo ≤ v → v < hi → cacheVisit cache_map cacheManager frontier v = .fetch →
        0 < c.degree v → c.Decodable v) →
      ∃ fuel logs, parallelFor (fun p => ccyForEachActiveBatch o cache_map cacheManager frontier c
        edge_buf_size (enomem p) fuel p (worker p)) parts = some logs ∧
        Delivers c frontier.Active lo hi logs) ∧
    ((∀ v, lo ≤ v → v < hi → frontier.Active v → 0 < c.degree v → c.Decodable v) →
      ∃ fuel logs,
        parallelFor (fun p => forEachActiveBatch o frontier c edge_buf_size fuel p (worker p))
          parts = some logs ∧ Delivers c frontier.Active lo hi logs) ∧
    ((∀ v, lo ≤ v → v < hi → 0 < c.degree v → c.Decodable v) →
      ∃ fuel logs, parallelFor (fun p => forEachRange o c edge_buf_size fuel p (worker p)) parts =
        some logs ∧ Delivers c (fun _ => True) lo hi logs) := by
  refine ⟨?_, ?_, ?_⟩
  · intro hdecodable
    exact parallelFor_delivers (fun p => isPacker_cachePackWindow cache_map cacheManager) hfits hhi
      hsplit (fun v _ hv => owes_cacheVisit hcache (Nat.lt_of_lt_of_le hv hhi)) hdecodable
  · intro hdecodable
    apply parallelFor_delivers (fun p => isPacker_packWindow) hfits hhi hsplit
      (fun v _ _ => owes_frontierVisit v)
    intro v hv hv' hfetch
    apply hdecodable v hv hv'
    by_contra hnot
    exact nomatch (if_neg hnot : frontierVisit frontier v = .skip).symm.trans hfetch
  · intro hdecodable
    exact parallelFor_delivers (fun p => isPacker_packWindow2) hfits hhi hsplit
      (fun v _ _ => .inr ⟨trivial, .inr rfl⟩) (fun v hv hv' _ => hdecodable v hv hv')

/-- A worker whose memory is clear. -/
def clearWorker : Worker where
  worker_id := 0
  RDMA_area := fun _ => 0
  window := ⟨fun _ => ⟨false, 0, 0, 0, 0, none⟩, fun _ => ⟨0, 0⟩, fun _ => ⟨0, 0, 0⟩⟩

/-- Three vertices with one edge each, the last one cached, in two sub-ranges. -/
theorem batch_drivers_deliver_path :
    let c : ClientContext :=
      { num_vertices := 3, num_edges := 3, edge_offset := fun v => v,
        peer_addr := 4096, peer_rkey := 7, lkey := 9, words := fun i => i + 1 }
    let manager : CacheManager :=
      { is_vertex_exist := fun v => v = 2, get_neighbors := fun _ => [3],
        get_out_degree := fun _ => 1 }
    let frontier : Bitmap 1 := (Bitmap.fresh 3 : Bitmap 1).setAll 0
    ∃ fuel logs,
      parallelFor (fun p => ccyForEachActiveBatch ⟨40, true, by decide⟩ none (some manager)
        frontier c 1 (fun _ => [0]) fuel p clearWorker) [(1, 3), (0, 1)] = some logs ∧
      Delivers c frontier.Active 0 3 logs := by
  intro c manager frontier
  have hdegree : ∀ v < 3, c.degree v = 1 := by decide
  have hfits : Fits c 1 :=
    { index := ⟨by decide, by decide, fun v _ => Nat.le_succ v, fun v hv => Nat.le_of_lt hv⟩
      pos := by decide
      lt := by decide
      degree_le := by decide }
  have hcache : ∀ m, some manager = some m → m.Faithful c := by
    rintro m ⟨⟩ v hv hexist
    obtain rfl : v = 2 := of_decide_eq_true hexist
    exact ⟨by decide, by decide⟩
  have hsplit : Splits [(1, 3), (0, 1)] 0 3 := by
    change List.Perm [1, 2, 0] [0, 1, 2]
    decide
  apply (batch_drivers_deliver_once ⟨40, true, by decide⟩ c 1 frontier none (some manager) 0 3
    [(1, 3), (0, 1)] (fun _ => clearWorker) (fun _ _ => [0]) hfits (Nat.le_refl 3) hsplit hcache).1
  intro v _ hv _ _
  have hsmall : ∀ i, i < 3 → c.words i ≠ NULL_VERT := by
    intro i hi
    change i + 1 ≠ 2 ^ 32 - 1
    omega
  refine ⟨hsmall v hv, hsmall _ ?_⟩
  rw [hdegree v hv]
  exact hv

/-- One vertex whose only edge is `NULL_VERT`. -/
def sentinelVertex : ClientContext where
  num_vertices := 1
  num_edges := 1
  edge_offset := fun _ => 0
  peer_addr := 4096
  peer_rkey := 7
  lkey := 9
  words := fun _ => NULL_VERT

/-- That edge is waited for forever: the driver never returns. -/
theorem sentinel_edge_blocks_driver :
    Fits sentinelVertex 1 ∧ Splits [(0, 1)] 0 1 ∧ ((Bitmap.fresh 1 : Bitmap 1).setAll 0).Active 0 ∧
      0 < sentinelVertex.degree 0 ∧
      ¬ ∃ fuel logs, parallelFor (fun p => ccyForEachActiveBatch ⟨40, true, by decide⟩ none none
          ((Bitmap.fresh 1 : Bitmap 1).setAll 0) sentinelVertex 1 (fun _ => []) fuel p clearWorker)
          [(0, 1)] = some logs ∧
        Delivers sentinelVertex ((Bitmap.fresh 1 : Bitmap 1).setAll 0).Active 0 1 logs := by
  refine ⟨?_, List.Perm.refl _, by decide, by decide, ?_⟩
  · exact
      { index := ⟨by decide, by decide, fun v _ => Nat.le_refl _, fun v _ => Nat.zero_le _⟩
        pos := by decide
        lt := by decide
        degree_le := by decide }
  · rintro ⟨fuel, logs, hrun, -⟩
    rw [parallelFor, List.mapM_cons] at hrun
    obtain ⟨calls, hcalls, -⟩ := Option.bind_eq_some_iff.1 hrun
    cases fuel with
    | zero => exact nomatch hcalls
    | succ fuel =>
        change none = some calls at hcalls
        exact nomatch hcalls

end FamGraph
