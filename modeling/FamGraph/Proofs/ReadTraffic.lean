/-
Module: FamGraph.Proofs.ReadTraffic
Layer: Proofs
Purpose: The words a kernel reads from the server. The READs of a window read the rows of the
  vertices it fetches, each word once and no other word, coalesced or not; so do the windows of a
  sub-range, the sub-ranges of a call and the calls of a kernel. Rows do not overlap. Together with
  what the kernels ask their drivers for this counts the RDMA traffic of a whole run: a search reads
  every word of the rows it reaches once.
Trusted boundary: none
Main exports: row, Packed.reads_eq, Round.reads_perm, Traffic.perm_rows, nodup_rows,
  bfs_reads_rows_once
-/
import FamGraph.Core.ReadTraffic
import FamGraph.Proofs.CallHistory
import FamGraph.Proofs.Stats
import FamGraph.Proofs.WindowGeometry

namespace FamGraph

/-! ### Rows -/

namespace ClientContext

/-- The addresses of the words of the adjacency list of `v`. -/
def row (c : ClientContext) (v : Nat) : List Nat :=
  (List.range (c.degree v)).map fun j => c.peer_addr + 4 * (c.edge_offset v + j)

/-- The index whose words are their own addresses: there a row is an adjacency list. -/
def addressed (c : ClientContext) : ClientContext :=
  { c with words := fun i => c.peer_addr + 4 * i }

theorem row_eq (c : ClientContext) (v : Nat) : c.row v = c.addressed.adjacency v := rfl

theorem mem_row {c : ClientContext} {v a : Nat} :
    a ∈ c.row v ↔ ∃ j < c.degree v, a = c.peer_addr + 4 * (c.edge_offset v + j) := by
  rw [row, List.mem_map]
  constructor
  · rintro ⟨j, hj, rfl⟩
    exact ⟨j, List.mem_range.1 hj, rfl⟩
  · rintro ⟨j, hj, rfl⟩
    exact ⟨j, List.mem_range.2 hj, rfl⟩

theorem nodup_row (c : ClientContext) (v : Nat) : (c.row v).Nodup := by
  refine List.Nodup.map_on ?_ List.nodup_range
  intro i _ j _ heq
  omega

end ClientContext

section Rows

variable {c : ClientContext} {edge_buf_size : Nat}

/-- A row ends before the rows of later vertices begin. -/
theorem Fits.row_end_le (hfits : Fits c edge_buf_size) {u v : Nat} (huv : u < v)
    (hv : v < c.num_vertices) :
    c.edge_offset u + c.degree u ≤ c.edge_offset v := by
  induction v, huv using Nat.le_induction with
  | base => exact Nat.le_of_eq (hfits.edge_offset_succ hv).symm
  | succ v huv ih =>
      have hnext := hfits.edge_offset_succ hv
      have hold := ih (Nat.lt_of_succ_lt hv)
      omega

/-- No word is in two rows. -/
theorem Fits.disjoint_rows (hfits : Fits c edge_buf_size) {u v : Nat} (hu : u < c.num_vertices)
    (hv : v < c.num_vertices) (hne : u ≠ v) : List.Disjoint (c.row u) (c.row v) := by
  intro a hau hav
  obtain ⟨i, hi, heq⟩ := ClientContext.mem_row.1 hau
  obtain ⟨j, hj, heq'⟩ := ClientContext.mem_row.1 hav
  rcases Nat.lt_or_gt_of_ne hne with hlt | hgt
  · have hend := hfits.row_end_le hlt hv
    omega
  · have hend := hfits.row_end_le hgt hu
    omega

/-- The rows of different vertices of the index have different words. -/
theorem nodup_rows (hfits : Fits c edge_buf_size) {vs : List Nat} (hvs : vs.Nodup)
    (hlt : ∀ v ∈ vs, v < c.num_vertices) : (vs.flatMap c.row).Nodup := by
  refine List.nodup_flatMap.2 ⟨fun v _ => c.nodup_row v, ?_⟩
  exact hvs.imp_of_mem fun hu hv hne => hfits.disjoint_rows (hlt _ hu) (hlt _ hv) hne

end Rows

/-! ### The READs of a window -/

section Window

variable {threads : Nat} {d : Driver threads} {o : BuildOptions} {c : ClientContext}
  {edge_buf edge_buf_size range_end : Nat} {enomem : Nat → List Nat}

/-- One work request reads the rows of its range. -/
theorem Represents.reads_eq {rs : List VertexRange} {w : Window} (h : Represents c edge_buf w rs)
    (hfits : Fits c edge_buf_size) {i : Nat} (hi : i < rs.length) (hrange : rs[i].v_s ≤ rs[i].v_e)
    (hlt : rs[i].v_e < c.num_vertices) (hedges : 4 * c.edgesIn rs[i].vertices < 2 ^ 32) :
    (w.wr_window i).reads (w.sge_window (w.wr_window i).sg_list) =
      rs[i].vertices.flatMap c.row := by
  have hlists : rs[i].vertices.flatMap c.row = (List.range (c.edgesIn rs[i].vertices)).map
      fun j => c.peer_addr + 4 * (c.edge_offset rs[i].v_s + j) :=
    (flatMap_adjacency_range (c := c.addressed) hrange fun v _ hv =>
      hfits.edge_offset_succ (by omega)).1
  rw [SendWr.reads, h.wr i hi]
  simp only
  rw [h.sge i hi]
  simp only
  rw [Nat.mod_eq_of_lt hedges, Nat.mul_div_cancel_left _ (by decide), hlists]
  apply List.map_congr_left
  intro j _
  omega

/-- The chain of a window reads the rows of the vertices it fetches, in order. -/
theorem Packed.reads_eq {start : Nat} {rs : List VertexRange} {s : PackState}
    (h : Packed o c edge_buf edge_buf_size start range_end d.visit rs s)
    (hfits : Fits c edge_buf_size) (hend : range_end ≤ c.num_vertices) :
    d.reads o s = (fetched c d.visit start s.v).flatMap c.row := by
  by_cases hposts : d.posts s = true
  · have hpos : 0 < rs.length := h.wrs ▸ h.wrs_pos_iff.2 ((d.isPacker.posts_iff h).1 hposts)
    have hchain : s.window.chain o.wr_window_size (some 0) = List.range' 0 (rs.length - 0) :=
      chain_eq h.arrays hpos (Nat.zero_add _ ▸ h.wrs_le)
    rw [Driver.reads, if_pos hposts, hchain, Nat.sub_zero, ← List.range_eq_range', ← h.vertices,
      List.flatMap_assoc, List.flatMap_def, List.flatMap_def]
    congr 1
    apply List.ext_getElem
    · rw [List.length_map, List.length_map, List.length_range]
    · intro i hi hi'
      have hlt : i < rs.length := by rwa [List.length_map] at hi'
      have hr := h.range_lt hend (List.getElem_mem hlt)
      rw [List.getElem_map, List.getElem_map, List.getElem_range,
        h.arrays.reads_eq hfits hlt hr.1 hr.2 (h.four_edgesIn_lt hfits (List.getElem_mem hlt))]
  · have hnone : fetched c d.visit start s.v = [] := by
      by_contra hne
      exact hposts ((d.isPacker.posts_iff h).2 hne)
    rw [Driver.reads, if_neg hposts, hnone, List.flatMap_nil]

/-- The loop on a sub-range: the windows so far have read the rows of the vertices fetched so
    far. -/
def Driver.HasRead (d : Driver threads) (o : BuildOptions) (c : ClientContext) (range : Nat × Nat)
    (st : DriverState × List PackState) : Prop :=
  (range.1 ≤ st.1.next_range_start ∧ st.1.next_range_start ≤ range.2) ∧
    st.2.flatMap (d.reads o) = (fetched c d.visit range.1 st.1.next_range_start).flatMap c.row

/-- One turn reads the rows of one window more. -/
theorem Driver.HasRead.turn {range : Nat × Nat} {st st' : DriverState × List PackState}
    (h : d.HasRead o c range st) (hfits : Fits c edge_buf_size) (hend : range.2 ≤ c.num_vertices)
    (hturn : Loop.recorded
      (fun st => d.pack o c edge_buf edge_buf_size range.2 st.window st.next_range_start st.stats)
      (windowTurn o c edge_buf (d.pack o c edge_buf edge_buf_size range.2) d.posts enomem) st =
      some st') :
    d.HasRead o c range st' := by
  obtain ⟨⟨hstart, hstop⟩, hlog⟩ := h
  obtain ⟨next, hnext, rfl⟩ := Option.map_eq_some_iff.1 hturn
  obtain ⟨rs, hpacked⟩ := d.packed hfits hend st.1.window st.1.stats hstop
  have hv := next_of_windowTurn hnext
  rw [Driver.HasRead]
  dsimp only
  rw [hv, fetched_append hstart hpacked.start_le, List.flatMap_append, List.flatMap_append, hlog,
    List.flatMap_singleton, hpacked.reads_eq hfits hend]
  exact ⟨⟨Nat.le_trans hstart hpacked.start_le, hpacked.v_le⟩, rfl⟩

/-- The windows of a sub-range read the rows of the vertices fetched there. -/
theorem Driver.reads_run (hfits : Fits c edge_buf_size) {range : Nat × Nat}
    (hend : range.1 < range.2 → range.2 ≤ c.num_vertices) {w : Worker} {fuel : Nat}
    {st : DriverState × List PackState}
    (hrun : d.run o c edge_buf_size enomem fuel range w = some st) :
    st.2.flatMap (d.reads o) = (fetched c d.visit range.1 range.2).flatMap c.row := by
  rcases Nat.lt_or_ge range.1 range.2 with hlt | hge
  · have hread := Loop.run_invariant (d.HasRead o c range) (fun st st' hst _ hturn =>
      hst.turn hfits (hend hlt) hturn) ⟨⟨Nat.le_refl _, Nat.le_of_lt hlt⟩, by simp [fetched]⟩ hrun
    obtain ⟨⟨⟨-, hle⟩, hlog⟩, hdone⟩ := hread
    have heq : st.1.next_range_start = range.2 :=
      Nat.le_antisymm hle (Nat.le_of_not_lt (of_decide_eq_false hdone))
    exact heq ▸ hlog
  · rw [Driver.run, Loop.run_of_done (by exact decide_eq_false (Nat.not_lt.2 hge))] at hrun
    cases hrun
    rw [fetched, Nat.sub_eq_zero_of_le hge]
    rfl

end Window

/-! ### Calls of the drivers -/

section Rounds

variable {threads : Nat} {o : BuildOptions} {c : ClientContext} {edge_buf_size : Nat}
  {r : Round threads}

/-- Sub-ranges one after the other. -/
theorem reads_flatten (hfits : Fits c edge_buf_size) {parts : List (Nat × Nat)}
    (hend : ∀ p ∈ parts, p.1 < p.2 → p.2 ≤ c.num_vertices) {fuel : Nat}
    {logs : List (List (Fin threads × PackState))}
    (hlogs : parts.mapM (fun p =>
      (r.driver.run o c edge_buf_size (r.enomem p) fuel p (r.worker p)).map fun st =>
        st.2.map fun s => (r.thread p, s)) = some logs) :
    (logs.flatten.flatMap fun w => r.driver.reads o w.2) =
      (parts.flatMap fun p => fetched c r.driver.visit p.1 p.2).flatMap c.row := by
  induction parts generalizing logs with
  | nil =>
      cases hlogs
      rfl
  | cons p parts ih =>
      rw [List.mapM_cons] at hlogs
      obtain ⟨log, hlog, hlogs⟩ := Option.bind_eq_some_iff.1 hlogs
      obtain ⟨rest, hrest, hlogs⟩ := Option.bind_eq_some_iff.1 hlogs
      cases hlogs
      obtain ⟨st, hst, rfl⟩ := Option.map_eq_some_iff.1 hlog
      rw [List.flatten_cons, List.flatMap_append,
        ih (fun q hq => hend q (List.mem_cons_of_mem p hq)) hrest, List.flatMap_cons,
        List.flatMap_append, List.flatMap_map,
        ← Driver.reads_run hfits (hend p List.mem_cons_self) hst]

/-- A call of a driver reads the row of each vertex that it fetches once, and nothing else. -/
theorem Round.reads_perm (hfits : Fits c edge_buf_size) (h : r.Valid c) {fuel : Nat}
    {windows : List (Fin threads × PackState)}
    (hwindows : r.windows o c edge_buf_size fuel = some windows) :
    (windows.flatMap fun w => r.driver.reads o w.2).Perm
      ((fetched c r.driver.visit r.lo r.hi).flatMap c.row) := by
  obtain ⟨logs, hlogs, rfl⟩ := Option.map_eq_some_iff.1 hwindows
  rw [reads_flatten hfits (fun p hp => h.end_le hp) hlogs]
  exact h.fetched_perm.flatMap_right _

/-- The calls of a kernel read the rows of the vertices that each of them fetches. -/
theorem Traffic.perm_rows (hfits : Fits c edge_buf_size) {rounds : List (Round threads)}
    {reads : List Nat} (h : Traffic o c edge_buf_size rounds reads)
    (hrounds : ∀ r ∈ rounds, r.Valid c) :
    reads.Perm ((rounds.flatMap fun r => fetched c r.driver.visit r.lo r.hi).flatMap c.row) := by
  induction h with
  | start => exact List.Perm.refl _
  | @round rounds reads r fuel windows before returns ih =>
      have hold := ih fun q hq => hrounds q (List.mem_append_left _ hq)
      have hnew := Round.reads_perm hfits (hrounds r (by simp)) returns
      rw [List.flatMap_append, List.flatMap_append, List.flatMap_singleton]
      exact hold.append hnew

/-- Chains that are accepted after finitely many attempts keep no call from returning. -/
theorem traffic_total (hfits : Fits c edge_buf_size) {rounds : List (Round threads)}
    (hrounds : ∀ r ∈ rounds, r.Valid c) : ∃ reads, Traffic o c edge_buf_size rounds reads := by
  induction rounds using List.reverseRecOn with
  | nil => exact ⟨[], .start⟩
  | append_singleton rounds r ih =>
      obtain ⟨reads, hbefore⟩ := ih fun q hq => hrounds q (List.mem_append_left _ hq)
      obtain ⟨fuel, windows, hwindows⟩ := Round.windows_total (o := o) hfits (hrounds r (by simp))
      exact ⟨_, .round r hbefore hwindows⟩

end Rounds

/-! ### Whole runs -/

section Runs

variable {threads edge_buf_size : Nat} {o : BuildOptions} {c : ClientContext} {G : Graph}
  {cache_map : Option CacheMap} {cacheManager : Option CacheManager}
  {frontiers : List (Bitmap threads)} {rounds : List (Round threads)} {reads : List Nat}

instance (cacheManager : Option CacheManager) (v : Nat) : Decidable (Cached cacheManager v) :=
  match cacheManager with
  | none => .isFalse fun ⟨_, hm, _⟩ => Option.some_ne_none _ hm.symm
  | some m =>
      decidable_of_iff (m.is_vertex_exist v = true)
        ⟨fun h => ⟨m, rfl, h⟩, fun ⟨_, hm, h⟩ => Option.some.inj hm ▸ h⟩

theorem Encodes.degree_eq (hG : Encodes c G) (v : G.Vertex) : c.degree v = (G.out v).length := by
  rw [← ClientContext.length_adjacency, hG.adjacency, List.length_map]

/-- What the driver fetches is what the kernel asks for, without the vertices in the cache. -/
theorem fetched_eq_calls (hG : Encodes c G) (frontier : Bitmap threads) :
    fetched c (cacheVisit cache_map cacheManager frontier) 0 c.num_vertices =
      ((G.calls fun v => frontier.Active v).filter fun v : G.Vertex => ¬ Cached cacheManager v).map
        Fin.val := by
  rw [fetched, hG.num_vertices, Nat.sub_zero, ← List.range_eq_range',
    ← List.map_coe_finRange_eq_range, List.filter_map, Graph.calls, List.filter_filter]
  congr 1
  apply List.filter_congr
  intro v _
  have hedges : (0 < c.degree v) ↔ G.out v ≠ [] := by
    rw [hG.degree_eq, List.length_pos_iff]
  rw [Function.comp_apply, Bool.eq_iff_iff, decide_eq_true_iff, cacheVisit_eq_fetch_iff, hedges]
  simp only [Bool.and_eq_true, decide_eq_true_eq, Bool.not_eq_true', List.isEmpty_eq_false_iff]
  exact and_right_comm.trans and_comm

/-- A kernel calls the caching driver for each of the frontiers, on all vertices and split among the
    threads in any way. -/
structure CallsFor (c : ClientContext) (cache_map : Option CacheMap)
    (cacheManager : Option CacheManager) (frontiers : List (Bitmap threads))
    (rounds : List (Round threads)) : Prop where
  drivers : rounds.map Round.driver = frontiers.map (.ccyForEachActiveBatch cache_map cacheManager)
  ranges : ∀ r ∈ rounds, r.lo = 0 ∧ r.hi = c.num_vertices ∧ Splits r.parts 0 c.num_vertices

namespace CallsFor

theorem valid (h : CallsFor c cache_map cacheManager frontiers rounds)
    (hdecodable : ∀ v < c.num_vertices, 0 < c.degree v → c.Decodable v) :
    ∀ r ∈ rounds, r.Valid c := by
  intro r hr
  obtain ⟨hlo, hhi, hsplits⟩ := h.ranges r hr
  exact
    { hi_le := Nat.le_of_eq hhi
      splits := by rwa [hlo, hhi]
      decodable := fun v _ hv _ hdegree => hdecodable v (hhi ▸ hv) hdegree }

theorem fetched_eq (h : CallsFor c cache_map cacheManager frontiers rounds) (hG : Encodes c G) :
    (rounds.flatMap fun r => fetched c r.driver.visit r.lo r.hi) =
      ((G.requested frontiers).filter fun v : G.Vertex => ¬ Cached cacheManager v).map Fin.val := by
  have hranges : (rounds.flatMap fun r => fetched c r.driver.visit r.lo r.hi) =
      (rounds.map Round.driver).flatMap fun d => fetched c d.visit 0 c.num_vertices := by
    rw [List.flatMap_map]
    apply List.flatMap_congr
    intro r hr
    obtain ⟨hlo, hhi, -⟩ := h.ranges r hr
    rw [hlo, hhi]
  rw [hranges, h.drivers, List.flatMap_map, Graph.requested, List.filter_flatMap, List.map_flatMap]
  apply List.flatMap_congr
  intro frontier _
  exact fetched_eq_calls hG frontier

/-- What the calls read: the rows of the vertices asked for, call by call, without those in the
    cache. -/
theorem perm_rows (h : CallsFor c cache_map cacheManager frontiers rounds) (hG : Encodes c G)
    (hfits : Fits c edge_buf_size)
    (hdecodable : ∀ v < c.num_vertices, 0 < c.degree v → c.Decodable v)
    (hreads : Traffic o c edge_buf_size rounds reads) :
    reads.Perm (((G.requested frontiers).filter fun v : G.Vertex => ¬ Cached cacheManager v).flatMap
      fun v : G.Vertex => c.row v) := by
  have hperm := hreads.perm_rows hfits (h.valid hdecodable)
  rwa [h.fetched_eq hG, List.flatMap_map] at hperm

/-- Asking once is reading once. -/
theorem reads_once (h : CallsFor c cache_map cacheManager frontiers rounds) (hG : Encodes c G)
    (hfits : Fits c edge_buf_size)
    (hdecodable : ∀ v < c.num_vertices, 0 < c.degree v → c.Decodable v)
    (hreads : Traffic o c edge_buf_size rounds reads) {done : G.Vertex → Prop}
    (hasked : AskedOnce G frontiers done) :
    reads.Nodup ∧ ∀ a, a ∈ reads ↔ ∃ v, done v ∧ ¬ Cached cacheManager v ∧ a ∈ c.row v := by
  have hperm := h.perm_rows hG hfits hdecodable hreads
  constructor
  · rw [hperm.nodup_iff, ← List.flatMap_map Fin.val c.row]
    apply nodup_rows hfits
    · exact (hasked.nodup.filter _).map Fin.val_injective
    · intro v hv
      obtain ⟨w, -, rfl⟩ := List.mem_map.1 hv
      rw [hG.num_vertices]
      exact w.isLt
  · intro a
    rw [hperm.mem_iff, List.mem_flatMap]
    constructor
    · rintro ⟨v, hv, ha⟩
      obtain ⟨hv, hcache⟩ := List.mem_filter.1 hv
      exact ⟨v, ((hasked.mem v).1 hv).1, of_decide_eq_true hcache, ha⟩
    · rintro ⟨v, hv, hcache, ha⟩
      obtain ⟨j, hj, -⟩ := ClientContext.mem_row.1 ha
      have hout : G.out v ≠ [] := List.ne_nil_of_length_pos (hG.degree_eq v ▸ Nat.zero_lt_of_lt hj)
      exact ⟨v, List.mem_filter.2 ⟨(hasked.mem v).2 ⟨hv, hout⟩, decide_eq_true hcache⟩, ha⟩

end CallsFor

/-- For every interleaving of the pushes, every split of every call among the threads and every
    cache: if `ibv_post_send` accepts every chain in the end, so that the calls of a search return,
    they have read no word of the server's edge array twice; when the search stops they have read
    the rows of the vertices that `start_v` reaches and the cache does not hold, and no other
    word. -/
theorem bfs_reads_rows_once (helpers : Nat) (G : Graph) (start_v : G.Vertex) (o : BuildOptions)
    (c : ClientContext) (edge_buf_size : Nat) (hG : Encodes c G) (hfits : Fits c edge_buf_size)
    (hdecodable : ∀ v < c.num_vertices, 0 < c.degree v → c.Decodable v)
    (cache_map : Option CacheMap) (cacheManager : Option CacheManager) :
    ∀ s frontiers, (drives (Bfs.system helpers G start_v)).Reachable (s, frontiers) →
      ∀ rounds, CallsFor c cache_map cacheManager frontiers rounds →
        ∀ reads, Traffic o c edge_buf_size rounds reads →
          reads.Nodup ∧
          (s.control = .stopped → ∀ a, a ∈ reads ↔
            ∃ v, G.adjacency.Reaches start_v v ∧ ¬ Cached cacheManager v ∧ a ∈ c.row v) := by
  intro s frontiers hs rounds hcalls reads hreads
  constructor
  · exact (hcalls.reads_once hG hfits hdecodable hreads (Bfs.askedLevels_of_run hs)).1
  · intro hstopped
    exact (hcalls.reads_once hG hfits hdecodable hreads (Bfs.askedReached_of_run hs hstopped)).2

end Runs

/-- A kernel may always call its driver on the whole range. -/
theorem exists_callsFor {helpers : Nat} (c : ClientContext) (cache_map : Option CacheMap)
    (cacheManager : Option CacheManager) (frontiers : List (Bitmap (helpers + 1))) :
    ∃ rounds, CallsFor c cache_map cacheManager frontiers rounds := by
  let round : Bitmap (helpers + 1) → Round (helpers + 1) := fun frontier =>
    { driver := .ccyForEachActiveBatch cache_map cacheManager frontier
      lo := 0
      hi := c.num_vertices
      parts := [(0, c.num_vertices)]
      thread := fun _ => 0
      worker := fun _ => clearWorker
      enomem := fun _ _ => [] }
  refine ⟨frontiers.map round, ⟨List.map_map, fun r hr => ?_⟩⟩
  obtain ⟨frontier, -, rfl⟩ := List.mem_map.1 hr
  exact ⟨rfl, rfl, List.Perm.of_eq (List.append_nil _)⟩

/-- Two vertices with an edge each way. -/
def edgeContext : ClientContext where
  num_vertices := 2
  num_edges := 2
  edge_offset := fun v => v
  peer_addr := 4096
  peer_rkey := 7
  lkey := 9
  words := fun i => 1 - i

theorem bfs_reads_rows_once_edge : ∃ s frontiers rounds reads,
    (drives (Bfs.system 1 Graph.edge ⟨0, by decide⟩)).Reachable (s, frontiers) ∧
    s.control = .stopped ∧
      CallsFor edgeContext none none frontiers rounds ∧
      Traffic ⟨40, true, by decide⟩ edgeContext 1 rounds reads ∧ reads.Nodup ∧
      ∀ a, a ∈ reads ↔
        ∃ v, Graph.edge.adjacency.Reaches ⟨0, by decide⟩ v ∧ ¬ Cached none v ∧
        a ∈ edgeContext.row v := by
  have hG : Encodes edgeContext Graph.edge := ⟨rfl, by decide⟩
  have hfits : Fits edgeContext 1 :=
    { index := ⟨by decide, by decide, fun v _ => Nat.le_succ v, fun v hv => Nat.le_of_lt hv⟩
      pos := by decide
      lt := by decide
      degree_le := by decide }
  have hdecodable :
      ∀ v < edgeContext.num_vertices, 0 < edgeContext.degree v → edgeContext.Decodable v := by
    unfold ClientContext.Decodable
    decide
  obtain ⟨s, hs, hstopped⟩ := Bfs.exists_stopped (G := Graph.edge) 1 ⟨0, by decide⟩
  obtain ⟨frontiers, hrun⟩ := exists_drives hs
  obtain ⟨rounds, hcalls⟩ := exists_callsFor edgeContext none none frontiers
  obtain ⟨reads, hreads⟩ :=
    traffic_total (o := ⟨40, true, by decide⟩) hfits (hcalls.valid hdecodable)
  obtain ⟨hnodup, hall⟩ := bfs_reads_rows_once 1 Graph.edge ⟨0, by decide⟩ ⟨40, true, by decide⟩
    edgeContext 1 hG hfits hdecodable none none s frontiers hrun rounds hcalls reads hreads
  exact ⟨s, frontiers, rounds, reads, hrun, hstopped, hcalls, hreads, hnodup, hall hstopped⟩

end FamGraph
