/-
Module: FamGraph.Proofs.Pipeline
Layer: Proofs
Purpose: From the edge list to the kernels. The converter's files, read back by the client and the
  server, are an index of the graph the edge list asks for; with the buffer `Generic_ctx` makes,
  every driver on every split then gives a kernel the calls it is modelled to get on that graph.
Trusted boundary: none
Main exports: EdgeList, EdgeList.graph, Loaded, exists_loaded, edge_list_reaches_kernels
-/
import FamGraph.Core.Pipeline
import FamGraph.Proofs.EdgeListToCsr
import FamGraph.Proofs.FamServer
import FamGraph.Proofs.GenericCtx

namespace FamGraph

/-- An edge list the converter can represent. -/
structure EdgeList where
  pairs : List (Nat × Nat)
  make_undirected : Bool
  ids : ∀ p ∈ pairs, p.1 ≤ 2 ^ 32 - 2 ∧ p.2 ≤ 2 ^ 32 - 2
  fits : (requested make_undirected pairs).length ≤ maxPairs
  degree_lt : ∀ v, ((requested make_undirected pairs).countP fun p => p.1 = v) < 2 ^ 32

namespace EdgeList

/-- The arcs the list asks for. -/
def arcs (e : EdgeList) : List (Nat × Nat) := requested e.make_undirected e.pairs

/-- One more vertex than the largest id. -/
def numVertices (e : EdgeList) : Nat := largestId e.pairs + 1

/-- The neighbours of a vertex, in ascending order. -/
def row (e : EdgeList) (v : Nat) : List Nat :=
  ((e.arcs.filter fun p => p.1 = v).map Prod.snd).mergeSort

theorem numVertices_lt (e : EdgeList) : e.numVertices < 2 ^ 32 := by
  have hmax := largestId_le e.ids
  rw [numVertices]
  omega

theorem length_row (e : EdgeList) (v : Nat) :
    (e.row v).length = e.arcs.countP fun p => p.1 = v := by
  rw [row, List.length_mergeSort, List.length_map, List.countP_eq_length_filter]

theorem lt_of_mem_row {e : EdgeList} {v w : Nat} (h : w ∈ e.row v) : w < e.numVertices := by
  obtain ⟨p, hp, rfl⟩ := List.mem_map.1 (List.mem_mergeSort.1 h)
  exact Nat.lt_succ_of_le (le_largestId (List.mem_filter.1 hp).1).2

/-- The neighbours as vertices. -/
def out (e : EdgeList) (v : Nat) : List (Fin e.numVertices) :=
  (e.row v).pmap Fin.mk fun _ => lt_of_mem_row

theorem map_val_out (e : EdgeList) (v : Nat) : (e.out v).map Fin.val = e.row v := by
  rw [out, List.map_pmap, List.pmap_eq_map, List.map_id']

/-- The graph the list asks for. -/
def graph (e : EdgeList) : Graph where
  num_vertices := e.numVertices
  adjacency := { out := fun v => e.out v }
  num_vertices_lt := e.numVertices_lt
  degree_lt v := by
    rw [← List.length_map Fin.val, map_val_out, length_row]
    exact e.degree_lt v

/-- The arcs of the graph are those the list asks for. -/
theorem mem_out_iff (e : EdgeList) (v w : e.graph.Vertex) :
    w ∈ e.graph.out v ↔ (v.val, w.val) ∈ e.arcs := by
  have hval : w ∈ e.out v ↔ w.val ∈ (e.out v).map Fin.val :=
    (List.mem_map_of_injective Fin.val_injective).symm
  change w ∈ e.out v ↔ _
  rw [hval, map_val_out, row, List.mem_mergeSort, List.mem_map]
  constructor
  · intro h
    obtain ⟨⟨a, b⟩, hp, rfl⟩ := h
    obtain ⟨hmem, hv⟩ := List.mem_filter.1 hp
    exact of_decide_eq_true hv ▸ hmem
  · intro h
    exact ⟨(v.val, w.val), List.mem_filter.2 ⟨h, decide_eq_true rfl⟩, rfl⟩

/-- An arc is in its row as often as the list asks for it. -/
theorem arcs_graph (e : EdgeList) (u v : e.graph.Vertex) :
    e.graph.adjacency.arcs u v = e.arcs.count (u.val, v.val) := by
  have hrow : (e.out u).count v = (e.row u).count v.val := by
    rw [← e.map_val_out u]
    exact (List.count_map_of_injective _ Fin.val Fin.val_injective v).symm
  change (e.out u).count v = _
  rw [hrow, row, (List.mergeSort_perm _ _).count_eq, List.count_eq_countP, List.countP_map,
    List.countP_filter, List.count_eq_countP]
  apply List.countP_congr
  intro p _
  simp [Prod.ext_iff, and_comm]

/-- An undirected edge list asks for a symmetric graph. -/
theorem symmetric_graph (e : EdgeList) (h : e.make_undirected = true) :
    e.graph.adjacency.Symmetric := by
  have hswap : ∀ (pairs : List (Nat × Nat)) (a b : Nat),
      (requested true pairs).count (a, b) = (requested true pairs).count (b, a) := by
    intro pairs a b
    induction pairs with
    | nil => rfl
    | cons p pairs ih =>
        obtain ⟨x, y⟩ := p
        rw [requested_cons, List.count_append, List.count_append, ih]
        simp only [if_true, Prod.swap_prod_mk, List.count_cons, List.count_nil, beq_iff_eq,
          Prod.mk.injEq, and_comm]
        omega
  intro u v
  rw [arcs_graph, arcs_graph, arcs, h]
  exact hswap e.pairs u v

end EdgeList

/-! ### The files -/

section Loaded

variable {e : EdgeList} {sort : List (Nat × Nat) → List (Nat × Nat)} {c : ClientContext}

/-- An index of the graph of `e`, with no word that looks like one that has not arrived. -/
structure Loaded (e : EdgeList) (c : ClientContext) : Prop where
  encodes : Encodes c e.graph
  index : c.WellFormed
  outDegree : ∀ v < c.num_vertices, c.outDegree v = e.arcs.countP fun p => p.1 = v
  decodable : ∀ i, c.words i ≠ NULL_VERT

/-- The arrays of the sorted arcs. -/
theorem loaded_of_sorted (hsort : SortsPairs sort) (hvertices : c.num_vertices = e.numVertices)
    (hedges : c.num_edges = e.arcs.length)
    (hoffset : ∀ v ≤ largestId e.pairs, c.edge_offset v = pairsBefore (sort e.arcs) v)
    (hwords : ∀ i, c.words i = ((sort e.arcs).map Prod.snd).getD i 0) : Loaded e c := by
  have hperm : (sort e.arcs).Perm e.arcs := hsort.perm e.arcs
  have hlength : (sort e.arcs).length = e.arcs.length := hperm.length_eq
  have hin : ∀ p ∈ sort e.arcs, p.1 ≤ largestId e.pairs ∧ p.2 ≤ largestId e.pairs :=
    fun p hp => le_largestId (hperm.mem_iff.1 hp)
  have hverts : largestId e.pairs + 1 < 2 ^ 32 := e.numVertices_lt
  have hsize : (sort e.arcs).length < 2 ^ 64 := by
    have hle : e.arcs.length ≤ maxPairs := e.fits
    have hmax : maxPairs < 2 ^ 64 := by decide
    omega
  have hwell : c.WellFormed := by
    have h := wellFormed_pairsBefore hverts hsize hoffset
    rw [hlength] at h
    rw [ClientContext.WellFormed, hvertices, hedges]
    exact h
  have hgap : ∀ v < c.num_vertices, c.outDegree v = e.arcs.countP fun p => p.1 = v := by
    intro v hv
    rw [hvertices] at hv
    have h := adjacencyEnd_eq hoffset (fun p hp => (hin p hp).1) (Nat.le_of_lt_succ hv)
    rw [hlength, hperm.countP_eq] at h
    rw [ClientContext.outDegree, hvertices, hedges]
    exact h
  have hdegree : ∀ v < c.num_vertices, c.degree v = e.arcs.countP fun p => p.1 = v := by
    intro v hv
    rw [hwell.degree_eq hv, hgap v hv]
    exact Nat.mod_eq_of_lt (e.degree_lt v)
  have hsmall : ∀ x ∈ (sort e.arcs).map Prod.snd, x < e.numVertices := by
    intro x hx
    obtain ⟨p, hp, rfl⟩ := List.mem_map.1 hx
    exact Nat.lt_succ_of_le (hin p hp).2
  refine ⟨⟨hvertices, ?_⟩, hwell, hgap, ?_⟩
  · -- the slice between two offsets is the row of its vertex
    intro v
    have hv : v.val < e.numVertices := v.isLt
    have hcount := hdegree v (hvertices ▸ hv)
    have hslice : c.adjacency v = (((sort e.arcs).drop (pairsBefore (sort e.arcs) v)).take
        ((sort e.arcs).countP fun p => p.1 = v.val)).map Prod.snd := by
      rw [hperm.countP_eq, ← hcount]
      have hroom : pairsBefore (sort e.arcs) v + c.degree v ≤ (sort e.arcs).length := by
        rw [hcount, ← hperm.countP_eq, ← pairsBefore_succ]
        exact pairsBefore_le _ _
      apply List.ext_getElem?
      intro j
      rw [ClientContext.adjacency, List.getElem?_map, List.map_take, List.map_drop,
        List.getElem?_take]
      by_cases hj : j < c.degree v
      · have hget : pairsBefore (sort e.arcs) v + j < ((sort e.arcs).map Prod.snd).length := by
          rw [List.length_map]
          omega
        rw [List.getElem?_range hj, Option.map_some, if_pos hj, List.getElem?_drop, hwords,
          hoffset v (Nat.le_of_lt_succ hv), List.getD_eq_getElem?_getD,
          List.getElem?_eq_getElem hget, Option.getD_some]
      · rw [if_neg hj, List.getElem?_eq_none (by rw [List.length_range]; omega), Option.map_none]
    rw [hslice, slice_eq_row (hsort.sortedByOrigin e.arcs), sorted_row hsort]
    exact (e.map_val_out v).symm
  · intro i
    have hlt : c.words i < e.numVertices := by
      rw [hwords, List.getD_eq_getElem?_getD]
      cases hget : ((sort e.arcs).map Prod.snd)[i]? with
      | none => exact Nat.succ_pos _
      | some x => exact hsmall x (List.mem_of_getElem? hget)
    have hverts' : e.numVertices ≤ 2 ^ 32 - 1 := Nat.le_pred_of_lt e.numVertices_lt
    exact Nat.ne_of_lt (Nat.lt_of_lt_of_le hlt hverts')

/-- The converter writes files that the server and the client read as an index of the graph. -/
theorem exists_loaded (hsort : SortsPairs sort) (e : EdgeList) (mr : MemoryRegion) (lkey : Nat) :
    ∃ idx adj c, encodeUnweighted sort e.make_undirected false e.pairs = .ok (idx, adj) ∧
      clientContext idx (FamServer.mrMessage mr adj) (getEdgeList adj) lkey = .ok c ∧
      Loaded e c := by
  have hencode := encodeUnweighted_eq hsort e.make_undirected e.ids
  rw [if_pos e.fits] at hencode
  change _ = Except.ok
    (LittleEndian.encodeAll 8 ((List.range e.numVertices).map (pairsBefore (sort e.arcs))),
      LittleEndian.encodeAll 4 ((sort e.arcs).map Prod.snd)) at hencode
  have hperm : (sort e.arcs).Perm e.arcs := hsort.perm e.arcs
  have hsize : e.arcs.length ≤ maxPairs := e.fits
  have hdest : getEdgeList (LittleEndian.encodeAll 4 ((sort e.arcs).map Prod.snd)) =
      (sort e.arcs).map Prod.snd := by
    apply getEdgeList_encodeAll
    intro x hx
    obtain ⟨p, hp, rfl⟩ := List.mem_map.1 hx
    exact Nat.lt_trans (Nat.lt_succ_of_le (le_largestId (hperm.mem_iff.1 hp)).2) e.numVertices_lt
  have htable :
      ((List.range e.numVertices).map (pairsBefore (sort e.arcs))).length = e.numVertices := by
    rw [List.length_map, List.length_range]
  have hverts := getNumVerts_encodeAll (htable ▸ e.numVertices_lt)
  rw [htable] at hverts
  have hentries : ∀ x ∈ (List.range e.numVertices).map (pairsBefore (sort e.arcs)), x < 2 ^ 64 := by
    intro x hx
    obtain ⟨row, -, rfl⟩ := List.mem_map.1 hx
    have hle := pairsBefore_le (sort e.arcs) row
    have hmax : maxPairs < 2 ^ 64 := by decide
    rw [hperm.length_eq] at hle
    omega
  have hload := getVertexTable_encodeAll hentries
  rw [htable] at hload
  have hedges :
      numElements 4 (LittleEndian.encodeAll 4 ((sort e.arcs).map Prod.snd)) = e.arcs.length := by
    rw [numElements_encodeAll, List.length_map, hperm.length_eq]
  refine ⟨_, _,
    { num_vertices := e.numVertices
      num_edges := e.arcs.length
      edge_offset := fun v => ((List.range e.numVertices).map (pairsBefore (sort e.arcs))).getD v 0
      peer_addr := mr.addr
      peer_rkey := mr.rkey
      lkey := lkey
      words := fun i => ((sort e.arcs).map Prod.snd).getD i 0 },
    hencode, ?_, loaded_of_sorted hsort rfl rfl ?_ fun _ => rfl⟩
  · simp only [clientContext, hverts, hload, hdest, bind, Except.bind, FamServer.mrMessage, hedges]
    rfl
  · intro v hv
    have hrow : v < e.numVertices := Nat.lt_succ_of_le hv
    have hget : ((List.range e.numVertices).map (pairsBefore (sort e.arcs)))[v]? =
        some (pairsBefore (sort e.arcs) v) := by
      rw [List.getElem?_map, List.getElem?_range hrow, Option.map_some]
    exact (List.getD_eq_getElem?_getD).trans (hget ▸ rfl)

/-! ### The drivers -/

/-- Some vertex has as many edges as any. -/
theorem Loaded.exists_maxOutDegree (h : Loaded e c) :
    ∃ v, c.maxOutDegree = e.arcs.countP fun p => p.1 = v := by
  have hnonempty : (Finset.range c.num_vertices).Nonempty := by
    rw [Finset.nonempty_range_iff, h.encodes.num_vertices]
    exact Nat.succ_ne_zero _
  obtain ⟨v, hv, hmax⟩ := Finset.exists_mem_eq_sup _ hnonempty c.outDegree
  exact ⟨v, hmax.trans (h.outDegree v (Finset.mem_range.1 hv))⟩

theorem Loaded.maxOutDegree_pos (h : Loaded e c) (hedge : e.arcs ≠ []) : 0 < c.maxOutDegree := by
  obtain ⟨p, hp⟩ := List.exists_mem_of_ne_nil _ hedge
  have hv : p.1 < c.num_vertices := by
    rw [h.encodes.num_vertices]
    exact Nat.lt_succ_of_le (le_largestId hp).1
  have hpos : 0 < e.arcs.countP fun q => q.1 = p.1 :=
    List.countP_pos_iff.2 ⟨p, hp, decide_eq_true rfl⟩
  rw [← h.outDegree p.1 hv] at hpos
  exact Nat.lt_of_lt_of_le hpos (ClientContext.outDegree_le_max hv)

/-- The buffer `Generic_ctx` makes holds the longest list, unless there is none or its size
    wraps. -/
theorem Loaded.fits (h : Loaded e c) (threads : Nat) {edgewindow : Nat} (b : Buffering)
    (use_HP : Bool) (hwindow : 0 < edgewindow) (hedge : e.arcs ≠ [])
    (hsize : ∀ v, 4 * (edgewindow * e.arcs.countP fun p => p.1 = v) < 2 ^ 32) :
    Fits c (genericCtx threads edgewindow b use_HP c.edge_offset c.num_vertices
      c.num_edges).edge_buf_size := by
  have hdegree : ∀ v < c.num_vertices, c.outDegree v < 2 ^ 32 := by
    intro v hv
    rw [h.outDegree v hv]
    exact e.degree_lt v
  have hmax : getMaxOutDegree c.edge_offset c.num_vertices c.num_edges = c.maxOutDegree :=
    getMaxOutDegree_eq h.index hdegree
  have hbytes : 4 * (edgewindow * c.maxOutDegree) < 2 ^ 32 := by
    obtain ⟨v, hv⟩ := h.exists_maxOutDegree
    rw [hv]
    exact hsize v
  have hbuf : (genericCtx threads edgewindow b use_HP c.edge_offset c.num_vertices
      c.num_edges).edge_buf_size = edgewindow * c.maxOutDegree := by
    simp only [genericCtx, hmax]
    exact Nat.mod_eq_of_lt (by omega)
  rw [hbuf]
  exact
    { index := h.index
      pos := Nat.mul_pos hwindow (h.maxOutDegree_pos hedge)
      lt := hbytes
      degree_le := fun v hv => Nat.le_trans (ClientContext.outDegree_le_max hv)
        (Nat.le_mul_of_pos_left _ hwindow) }

/-- A run of a driver, with enough fuel, gives the callback what a kernel on `G` is modelled to get
    for the wanted vertices. -/
def GivesCalls (G : Graph) (wanted : Nat → Prop) [DecidablePred wanted]
    (run : Nat → Option (List (List Call))) : Prop :=
  ∃ fuel logs, run fuel = some logs ∧ (logs.flatten.filter fun call => call.n ≠ 0).Perm
    ((G.calls fun v => wanted v).map fun v : G.Vertex =>
      { v := v, edges := (G.out v).map Fin.val, n := (G.out v).length })

theorem Loaded.givesCalls (h : Loaded e c) {wanted : Nat → Prop} [DecidablePred wanted]
    {run : Nat → Option (List (List Call))}
    (hrun : ∃ fuel logs, run fuel = some logs ∧ Delivers c wanted 0 c.num_vertices logs) :
    GivesCalls e.graph wanted run := by
  obtain ⟨fuel, logs, hlogs, hdelivers⟩ := hrun
  rw [h.encodes.num_vertices] at hdelivers
  exact ⟨fuel, logs, hlogs, hdelivers.graph_calls h.encodes⟩

variable {threads edge_buf_size : Nat} {o : BuildOptions} {frontier : Bitmap threads}
  {cache_map : Option CacheMap} {cacheManager : Option CacheManager} {parts : List (Nat × Nat)}
  {worker : Nat × Nat → Worker} {enomem : Nat × Nat → Nat → List Nat}

theorem Loaded.ccy (h : Loaded e c) (hfits : Fits c edge_buf_size)
    (hsplit : Splits parts 0 c.num_vertices) (hcache : ∀ m, cacheManager = some m → m.Faithful c) :
    GivesCalls e.graph frontier.Active fun fuel =>
      parallelFor (fun p =>
        ccyForEachActiveBatch o cache_map cacheManager frontier c edge_buf_size (enomem p) fuel p
          (worker p)) parts :=
  h.givesCalls (parallelFor_delivers (fun _ => isPacker_cachePackWindow cache_map cacheManager)
    hfits (Nat.le_refl _) hsplit (fun _ _ hv => owes_cacheVisit hcache hv)
    fun _ _ _ _ _ => ⟨h.decodable _, h.decodable _⟩)

theorem Loaded.active (h : Loaded e c) (hfits : Fits c edge_buf_size)
    (hsplit : Splits parts 0 c.num_vertices) :
    GivesCalls e.graph frontier.Active fun fuel =>
      parallelFor (fun p => forEachActiveBatch o frontier c edge_buf_size fuel p (worker p))
        parts :=
  h.givesCalls (parallelFor_delivers (fun _ => isPacker_packWindow) hfits (Nat.le_refl _) hsplit
    (fun v _ _ => owes_frontierVisit v) fun _ _ _ _ _ => ⟨h.decodable _, h.decodable _⟩)

theorem Loaded.range (h : Loaded e c) (hfits : Fits c edge_buf_size)
    (hsplit : Splits parts 0 c.num_vertices) :
    GivesCalls e.graph (fun _ => True) fun fuel =>
      parallelFor (fun p => forEachRange o c edge_buf_size fuel p (worker p)) parts :=
  h.givesCalls (parallelFor_delivers (fun _ => isPacker_packWindow2) hfits (Nat.le_refl _) hsplit
    (fun _ _ _ => .inr ⟨trivial, .inr rfl⟩) fun _ _ _ _ _ => ⟨h.decodable _, h.decodable _⟩)

end Loaded

/-- From the text to the callbacks. For every edge list with an arc that the types can hold, the
    converter writes its files, and the server and the client read them as an index of the graph the
    list asks for. With the buffer `Generic_ctx` makes, unless its size in bytes wraps, and on every
    frontier, split, worker and cache, a driver whose chains `ibv_post_send` accepts, for the
    caching one after finitely many ENOMEM, returns and gives a kernel one call for each wanted
    vertex of that graph with edges. -/
theorem edge_list_reaches_kernels (workers : Nat) (sort : List (Nat × Nat) → List (Nat × Nat))
    (hsort : SortsPairs sort) (e : EdgeList) (mr : MemoryRegion) (lkey : Nat) (o : BuildOptions)
    (threads edgewindow : Nat) (b : Buffering) (use_HP : Bool) (hwindow : 0 < edgewindow)
    (hedge : e.arcs ≠ [])
    (hsize : ∀ v, 4 * (edgewindow * e.arcs.countP fun p => p.1 = v) < 2 ^ 32) :
    ∃ idx adj c, encodeUnweighted sort e.make_undirected false e.pairs = .ok (idx, adj) ∧
      clientContext idx (FamServer.mrMessage mr adj) (getEdgeList adj) lkey = .ok c ∧
      Encodes c e.graph ∧
      ∀ (frontier : Bitmap workers) (cache_map : Option CacheMap)
        (cacheManager : Option CacheManager)
        (parts : List (Nat × Nat)) (worker : Nat × Nat → Worker)
        (enomem : Nat × Nat → Nat → List Nat), Splits parts 0 e.numVertices →
        (∀ m, cacheManager = some m → m.Faithful c) →
        let edge_buf_size :=
          (genericCtx threads edgewindow b use_HP c.edge_offset c.num_vertices
            c.num_edges).edge_buf_size
        (GivesCalls e.graph frontier.Active fun fuel =>
          parallelFor (fun p =>
            ccyForEachActiveBatch o cache_map cacheManager frontier c edge_buf_size (enomem p) fuel
              p (worker p)) parts) ∧
        (GivesCalls e.graph frontier.Active fun fuel =>
          parallelFor (fun p => forEachActiveBatch o frontier c edge_buf_size fuel p (worker p))
            parts) ∧
        (GivesCalls e.graph (fun _ => True) fun fuel =>
          parallelFor (fun p => forEachRange o c edge_buf_size fuel p (worker p)) parts) := by
  obtain ⟨idx, adj, c, hencode, hclient, hloaded⟩ := exists_loaded hsort e mr lkey
  refine ⟨idx, adj, c, hencode, hclient, hloaded.encodes, ?_⟩
  intro frontier cache_map cacheManager parts worker enomem hsplit hcache
  have hsplit' : Splits parts 0 c.num_vertices := hloaded.encodes.num_vertices ▸ hsplit
  have hfits := hloaded.fits threads b use_HP hwindow hedge hsize
  exact ⟨hloaded.ccy hfits hsplit' hcache, hloaded.active hfits hsplit',
    hloaded.range hfits hsplit'⟩

/-- A triangle with a gap in its ids and a self-loop, taken as undirected. -/
def triangle : EdgeList where
  pairs := [(5, 1), (1, 2), (2, 5), (2, 2)]
  make_undirected := true
  ids := by decide
  fits := by decide
  degree_lt _ := Nat.lt_of_le_of_lt List.countP_le_length (by decide)

theorem edge_list_reaches_kernels_triangle :
    ∃ idx adj c, encodeUnweighted (fun v => v.mergeSort fun p q => decide (PairLe p q)) true false
        triangle.pairs = .ok (idx, adj) ∧
      clientContext idx (FamServer.mrMessage ⟨4096, 7⟩ adj) (getEdgeList adj) 9 = .ok c ∧
      Encodes c triangle.graph := by
  have hsize : ∀ v, 4 * (1 * triangle.arcs.countP fun p => p.1 = v) < 2 ^ 32 := by
    intro v
    have hle : (triangle.arcs.countP fun p => p.1 = v) ≤ 8 := List.countP_le_length
    omega
  obtain ⟨idx, adj, c, hencode, hclient, hencodes, -⟩ :=
    edge_list_reaches_kernels 1 _ sortsPairs_mergeSort triangle ⟨4096, 7⟩ 9 ⟨40, true, by decide⟩ 2
      1 .SINGLE false Nat.one_pos (by decide) hsize
  exact ⟨idx, adj, c, hencode, hclient, hencodes⟩

end FamGraph
