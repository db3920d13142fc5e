/-
Module: FamGraph.Proofs.Transpose
Layer: Proofs
Purpose: The two converters on one edge list. What the second writes is the first's graph with its
  arcs turned around, and if the list is taken as undirected the very same files; a search on it
  finds the distances to its start instead of those from it.
Trusted boundary: none
Main exports: EdgeList.transpose, converters_transpose, bfs_measures_both_directions
-/
import FamGraph.Proofs.KernelRelations
import FamGraph.Proofs.SortedOption

namespace FamGraph

/-! ### The list turned around -/

/-- The reversed pairs ask for the reversed arcs. -/
theorem requested_map_swap (make_undirected : Bool) (pairs : List (Nat × Nat)) :
    (requested make_undirected (pairs.map Prod.swap)).Perm
      ((requested make_undirected pairs).map Prod.swap) := by
  induction pairs with
  | nil => exact List.Perm.refl _
  | cons p pairs ih =>
      rw [List.map_cons, requested_cons, requested_cons, List.map_append]
      apply List.Perm.append _ ih
      cases make_undirected with
      | true => exact List.Perm.refl _
      | false => exact List.Perm.refl _

/-- With the reversed arcs added, turning the pairs around makes no difference but for the order. -/
theorem requested_true_swap (pairs : List (Nat × Nat)) :
    (requested true (pairs.map Prod.swap)).Perm (requested true pairs) := by
  induction pairs with
  | nil => exact List.Perm.refl _
  | cons p pairs ih =>
      rw [List.map_cons, requested_cons, requested_cons]
      exact List.Perm.append (List.Perm.swap p p.swap []) ih

/-- Sorting does not depend on the order before. -/
theorem SortsPairs.eq_of_perm {sort : List (Nat × Nat) → List (Nat × Nat)} (h : SortsPairs sort)
    {v w : List (Nat × Nat)} (hperm : v.Perm w) : sort v = sort w := by
  have hsorted : (sort v).Perm (sort w) := ((h.perm v).trans hperm).trans (h.perm w).symm
  refine hsorted.eq_of_pairwise ?_ (h.sorted v) (h.sorted w)
  intro p q _ _ hpq hqp
  simp only [PairLe] at hpq hqp
  exact Prod.ext (by omega) (by omega)

namespace EdgeList

/-- The list with its pairs turned around, if no vertex then gets too many edges. -/
def transpose (e : EdgeList)
    (hin : ∀ v,
      ((requested e.make_undirected (e.pairs.map Prod.swap)).countP fun p => p.1 = v) < 2 ^ 32) :
    EdgeList where
  pairs := e.pairs.map Prod.swap
  make_undirected := e.make_undirected
  ids := by
    intro p hp
    obtain ⟨q, hq, rfl⟩ := List.mem_map.1 hp
    exact (e.ids q hq).symm
  fits := by
    rw [(requested_map_swap e.make_undirected e.pairs).length_eq, List.length_map]
    exact e.fits
  degree_lt := hin

variable {e : EdgeList}
  {hin : ∀ v,
    ((requested e.make_undirected (e.pairs.map Prod.swap)).countP fun p => p.1 = v) < 2 ^ 32}

theorem numVertices_transpose : (e.transpose hin).numVertices = e.numVertices :=
  congrArg (· + 1) (Converter.largestId_oriented .decsr e.pairs)

theorem count_arcs_transpose (u v : Nat) :
    (e.transpose hin).arcs.count (u, v) = e.arcs.count (v, u) := by
  have hperm : (e.transpose hin).arcs.Perm (e.arcs.map Prod.swap) :=
    requested_map_swap e.make_undirected e.pairs
  rw [hperm.count_eq]
  exact List.count_map_of_injective _ Prod.swap Prod.swap_injective (v, u)

/-- The vertices of the two graphs. -/
def vertexEquiv (e : EdgeList)
    (hin : ∀ v,
      ((requested e.make_undirected (e.pairs.map Prod.swap)).countP fun p => p.1 = v) < 2 ^ 32) :
    e.graph.Vertex ≃ (e.transpose hin).graph.Vertex := finCongr numVertices_transpose.symm

theorem graph_transposes :
    e.graph.adjacency.Transposes (e.transpose hin).graph.adjacency (e.vertexEquiv hin) := by
  intro u v
  rw [← Multigraph.arcs_pos_iff, ← Multigraph.arcs_pos_iff, arcs_graph, arcs_graph]
  exact iff_of_eq (congrArg (0 < ·) (count_arcs_transpose v.val u.val))

end EdgeList

/-! ### The files -/

section Files

variable {sort : List (Nat × Nat) → List (Nat × Nat)} {e : EdgeList}

/-- The rows of an index give the arcs of the graph. -/
theorem Encodes.count_adjacency {c : ClientContext} {G : Graph} (h : Encodes c G) (u v : G.Vertex) :
    (c.adjacency u).count v.val = G.adjacency.arcs u v := by
  rw [h.adjacency u]
  exact List.count_map_of_injective _ Fin.val Fin.val_injective v

/-- Files with the reversed arcs added do not tell which way the pairs stood. -/
theorem encodeUnweighted_true_swap (hsort : SortsPairs sort) {pairs : List (Nat × Nat)}
    (hids : ∀ p ∈ pairs, p.1 ≤ 2 ^ 32 - 2 ∧ p.2 ≤ 2 ^ 32 - 2) :
    encodeUnweighted sort true false (pairs.map Prod.swap) =
      encodeUnweighted sort true false pairs := by
  have hids' : ∀ p ∈ pairs.map Prod.swap, p.1 ≤ 2 ^ 32 - 2 ∧ p.2 ≤ 2 ^ 32 - 2 := by
    intro p hp
    obtain ⟨q, hq, rfl⟩ := List.mem_map.1 hp
    exact (hids q hq).symm
  have hlargest : largestId (pairs.map Prod.swap) = largestId pairs :=
    Converter.largestId_oriented .decsr pairs
  have hperm := requested_true_swap pairs
  rw [encodeUnweighted_eq hsort true hids', encodeUnweighted_eq hsort true hids, hperm.length_eq,
    hsort.eq_of_perm hperm, hlargest]

/-- Both converters on one edge list, of which no vertex has too many in-edges: both write their
    files, the client and the server load both, and from the second pair they get the graph with all
    arcs turned around, so that a row has the in-edges of its vertex. If the list is taken as
    undirected the files are the same. -/
theorem converters_transpose (hsort : SortsPairs sort) (e : EdgeList)
    (hin : ∀ v,
      ((requested e.make_undirected (e.pairs.map Prod.swap)).countP fun p => p.1 = v) < 2 ^ 32)
    (mr : MemoryRegion) (lkey : Nat) :
    ∃ idx adj c idx' adj' c',
      Converter.csr.encodeUnweighted sort e.make_undirected false e.pairs = .ok (idx, adj) ∧
      Converter.decsr.encodeUnweighted sort e.make_undirected false e.pairs = .ok (idx', adj') ∧
      clientContext idx (FamServer.mrMessage mr adj) (getEdgeList adj) lkey = .ok c ∧
      clientContext idx' (FamServer.mrMessage mr adj') (getEdgeList adj') lkey = .ok c' ∧
      Encodes c e.graph ∧ Encodes c' (e.transpose hin).graph ∧ c'.num_vertices = c.num_vertices ∧
      (∀ u < c.num_vertices, ∀ v < c.num_vertices,
        (c'.adjacency u).count v = (c.adjacency v).count u) ∧
      (e.make_undirected = true → idx' = idx ∧ adj' = adj) := by
  obtain ⟨idx, adj, c, hencode, hclient, hloaded⟩ := exists_loaded hsort e mr lkey
  obtain ⟨idx', adj', c', hencode', hclient', hloaded'⟩ :=
    exists_loaded hsort (e.transpose hin) mr lkey
  have hdecsr :
      Converter.decsr.encodeUnweighted sort e.make_undirected false e.pairs = .ok (idx', adj') := by
    rw [Converter.encodeUnweighted_oriented]
    exact hencode'
  have hvertices : c.num_vertices = e.graph.num_vertices := hloaded.encodes.num_vertices
  have hvertices' : c'.num_vertices = e.numVertices :=
    hloaded'.encodes.num_vertices.trans EdgeList.numVertices_transpose
  refine ⟨idx, adj, c, idx', adj', c', hencode, hdecsr, hclient, hclient', hloaded.encodes,
    hloaded'.encodes, hvertices'.trans hvertices.symm, ?_, ?_⟩
  · intro u hu v hv
    rw [hvertices] at hu hv
    have hrow := hloaded.encodes.count_adjacency ⟨v, hv⟩ ⟨u, hu⟩
    have hrow' := hloaded'.encodes.count_adjacency (e.vertexEquiv hin ⟨u, hu⟩)
      (e.vertexEquiv hin ⟨v, hv⟩)
    rw [EdgeList.arcs_graph] at hrow hrow'
    exact hrow'.trans ((EdgeList.count_arcs_transpose u v).trans hrow.symm)
  · intro hundirected
    have hsame := encodeUnweighted_true_swap hsort e.ids
    rw [← hundirected] at hsame
    have hfiles := hencode'.symm.trans (hsame.trans hencode)
    cases hfiles
    exact ⟨rfl, rfl⟩

/-- A triangle with a tail, directed. -/
def kite : EdgeList where
  pairs := [(0, 1), (1, 2), (2, 0), (2, 4)]
  make_undirected := false
  ids := by decide
  fits := by decide
  degree_lt _ := Nat.lt_of_le_of_lt List.countP_le_length (by decide)

theorem kite_inDegree_lt (v : Nat) :
    ((requested kite.make_undirected (kite.pairs.map Prod.swap)).countP fun p => p.1 = v) <
      2 ^ 32 :=
  Nat.lt_of_le_of_lt List.countP_le_length (by decide)

theorem converters_transpose_kite :
    ∃ idx adj c idx' adj' c',
      Converter.csr.encodeUnweighted (fun v => v.mergeSort fun p q => decide (PairLe p q)) false
        false kite.pairs = .ok (idx, adj) ∧
      Converter.decsr.encodeUnweighted (fun v => v.mergeSort fun p q => decide (PairLe p q)) false
        false kite.pairs = .ok (idx', adj') ∧
      clientContext idx (FamServer.mrMessage ⟨4096, 7⟩ adj) (getEdgeList adj) 9 = .ok c ∧
      clientContext idx' (FamServer.mrMessage ⟨4096, 7⟩ adj') (getEdgeList adj') 9 = .ok c' ∧
      ∀ u < c.num_vertices, ∀ v < c.num_vertices,
        (c'.adjacency u).count v = (c.adjacency v).count u := by
  obtain ⟨idx, adj, c, idx', adj', c', hencode, hencode', hclient, hclient', -, -, -, hcount, -⟩ :=
    converters_transpose sortsPairs_mergeSort kite kite_inDegree_lt ⟨4096, 7⟩ 9
  exact ⟨idx, adj, c, idx', adj', c', hencode, hencode', hclient, hclient', hcount⟩

end Files

/-! ### Searching -/

/-- The search on the transposed list finds, for every vertex, its distance to the start in the
    graph of the list, in any interleavings: what it says about `v` from `u` is what the search from
    `v` says about `u`. -/
theorem bfs_measures_both_directions (e : EdgeList)
    (hin : ∀ v,
      ((requested e.make_undirected (e.pairs.map Prod.swap)).countP fun p => p.1 = v) < 2 ^ 32)
    (helpers helpers' : Nat) (u v : e.graph.Vertex) :
    ∀ s s', (Bfs.system helpers e.graph v).Reachable s → s.control = .stopped →
      (Bfs.system helpers' (e.transpose hin).graph (e.vertexEquiv hin u)).Reachable s' →
      s'.control = .stopped →
      (s'.shared.vtable (e.vertexEquiv hin v)).parent = (s.shared.vtable u).parent := by
  intro s s' hs hstopped hs' hstopped'
  obtain ⟨hexact, hsound⟩ := Bfs.parents_of_run hs hstopped
  obtain ⟨hexact', hsound'⟩ := Bfs.parents_of_run hs' hstopped'
  have htransposes :
      e.graph.adjacency.Transposes (e.transpose hin).graph.adjacency (e.vertexEquiv hin) :=
    EdgeList.graph_transposes
  by_cases hreached : (s.shared.vtable u).parent = Bfs.NULLVERT
  · rw [hreached]
    by_contra hother
    obtain ⟨k, hk⟩ := hsound' _ hother
    have hlevel := htransposes.level_iff.1 hk
    exact Bfs.level_ne_null hlevel ((hexact k u hlevel).symm.trans hreached)
  · obtain ⟨k, hk⟩ := hsound u hreached
    rw [hexact k u hk]
    exact hexact' k _ (htransposes.level hk)

/-- On the triangle with a tail: the search from 0 on one side, from the tail on the other. -/
theorem bfs_measures_both_directions_kite :
    ∃ s s', (Bfs.system 1 kite.graph ⟨0, by decide⟩).Reachable s ∧ s.control = .stopped ∧
      (Bfs.system 2 (kite.transpose kite_inDegree_lt).graph ⟨4, by decide⟩).Reachable s' ∧
      s'.control = .stopped ∧
      (s'.shared.vtable ⟨0, by decide⟩).parent = (s.shared.vtable ⟨4, by decide⟩).parent := by
  obtain ⟨s, hs, hstopped⟩ := Bfs.exists_stopped (G := kite.graph) 1 ⟨0, by decide⟩
  obtain ⟨s', hs', hstopped'⟩ :=
    Bfs.exists_stopped (G := (kite.transpose kite_inDegree_lt).graph) 2 ⟨4, by decide⟩
  have hsame := bfs_measures_both_directions kite kite_inDegree_lt 1 2 ⟨4, by decide⟩ ⟨0, by decide⟩
    s s' hs hstopped hs' hstopped'
  exact ⟨s, s', hs, hstopped, hs', hstopped', hsame⟩

end FamGraph
