/-
Module: FamGraph.Proofs.KernelRelations
Layer: Proofs
Purpose: What the kernels say about the same graph. Each of them is run on its own, in any
  interleaving, and still their results have to fit together: breadth-first search reaches the
  vertices that share the label of its start, no component is without a vertex of the independent
  set, and a larger `k` leaves a smaller core.
Trusted boundary: none
Main exports: bfs_reaches_one_component, components_le_mis, kcores_nested
-/
import FamGraph.Proofs.Bfs
import FamGraph.Proofs.ComponentSummary
import FamGraph.Proofs.MisCardinality
import FamGraph.Proofs.MisTermination

namespace FamGraph

variable {G : Graph}

/-! ### The result of one run -/

theorem Bfs.at_of_init {helpers : Nat} {start_v : G.Vertex} :
    ∀ s, (Bfs.system helpers G start_v).init s →
    (Bfs.loopInvariant (helpers + 1) start_v).At s := by
  intro s hs
  cases hs
  exact Bfs.atHead_initial helpers start_v

theorem Kcore.at_of_init (hsymm : G.adjacency.Symmetric) {helpers k : Nat} :
    ∀ s, (Kcore.system helpers G k).init s → (Kcore.loopInvariant (helpers + 1) G k).At s := by
  intro s hs
  obtain ⟨worker, order, horder, rfl⟩ := hs
  exact ⟨∅, Kcore.atHead_initial hsymm worker horder⟩

/-- A search that has stopped has given their distance to the vertices its start reaches, and to no
    others. -/
theorem Bfs.parents_of_run {helpers : Nat} {start_v : G.Vertex}
    {s : KernelState (helpers + 1) (Bfs.Shared G) (Bfs.Push G)}
    (hs : (Bfs.system helpers G start_v).Reachable s) (hstopped : s.control = .stopped) :
    (∀ k v, G.adjacency.Level start_v k v → (s.shared.vtable v).parent = k) ∧
      ∀ v, (s.shared.vtable v).parent ≠ Bfs.NULLVERT → ∃ k, G.adjacency.Level start_v k v := by
  obtain ⟨shared, frontier, next_frontier, control⟩ := s
  cases hstopped
  obtain ⟨hhead, hempty⟩ := (Bfs.loopInvariant_kept start_v).reachable Bfs.at_of_init hs
  obtain ⟨d, hgreatest, hround⟩ := Bfs.round_of_stopped hhead hempty
  constructor
  · intro k v hk
    have hkd : k ≤ d := hgreatest.2 ⟨v, hk⟩
    have hround : shared.round = d + 1 := hround
    exact hhead.labelled.exact k v hk (by omega)
  · intro v hparent
    obtain ⟨k, -, hk, -⟩ := hhead.labelled.sound v hparent
    exact ⟨k, hk⟩

theorem Bfs.parent_ne_null_iff {helpers : Nat} {start_v : G.Vertex}
    {s : KernelState (helpers + 1) (Bfs.Shared G) (Bfs.Push G)}
    (hs : (Bfs.system helpers G start_v).Reachable s) (hstopped : s.control = .stopped)
    (v : G.Vertex) :
    (s.shared.vtable v).parent ≠ Bfs.NULLVERT ↔ G.adjacency.Reaches start_v v := by
  obtain ⟨hexact, hsound⟩ := Bfs.parents_of_run hs hstopped
  constructor
  · intro hparent
    obtain ⟨k, hk⟩ := hsound v hparent
    exact hk.reaches
  · intro hreach
    obtain ⟨n, hwalk⟩ := hreach
    obtain ⟨k, -, hk⟩ := Multigraph.exists_level_le hwalk
    exact (hexact k v hk).symm ▸ Bfs.level_ne_null hk

/-- Peeling that has stopped leaves the core. -/
theorem Kcore.isGreatest_of_run (hsymm : G.adjacency.Symmetric) {helpers k : Nat}
    {s : KernelState (helpers + 1) (Kcore.Shared G) (Kcore.Push G)}
    (hs : (Kcore.system helpers G k).Reachable s) (hstopped : s.control = .stopped) :
    IsGreatest {A : Finset G.Vertex | G.adjacency.Sturdy k A}
      (Finset.univ.filter fun v => k ≤ (s.shared.vtable v).degree) := by
  obtain ⟨shared, frontier, next_frontier, control⟩ := s
  cases hstopped
  obtain ⟨⟨peeled, hhead⟩, hempty⟩ :=
    (Kcore.loopInvariant_kept hsymm).reachable (Kcore.at_of_init hsymm) hs
  exact Kcore.isGreatest_of_stopped hsymm hhead hempty

/-! ### Runs that stop -/

theorem Bfs.exists_stopped (helpers : Nat) (start_v : G.Vertex) :
    ∃ s, (Bfs.system helpers G start_v).Reachable s ∧ s.control = .stopped := by
  have hends : (Bfs.system helpers G start_v).Terminates :=
    (Bfs.termination helpers start_v).terminates (Bfs.loopInvariant_kept start_v) Bfs.at_of_init
  exact hends.exists_final rfl

theorem Kcore.exists_stopped (hsymm : G.adjacency.Symmetric) (helpers k : Nat) :
    ∃ s, (Kcore.system helpers G k).Reachable s ∧ s.control = .stopped := by
  have hends : (Kcore.system helpers G k).Terminates :=
    (Kcore.termination helpers G k).terminates (Kcore.loopInvariant_kept hsymm)
      (Kcore.at_of_init hsymm)
  exact hends.exists_final ⟨fun _ => 0, Kcore.seeds G k, List.Perm.refl _, rfl⟩

/-! ### Search and components -/

/-- The vertices a search has given a distance to. -/
def visited (vtable : G.Vertex → Bfs.BfsVertex) : Finset G.Vertex :=
  Finset.univ.filter fun v => (vtable v).parent ≠ Bfs.NULLVERT

theorem visited_eq_component {helpers : Nat} {start_v : G.Vertex}
    {s : KernelState (helpers + 1) (Bfs.Shared G) (Bfs.Push G)}
    (hs : (Bfs.system helpers G start_v).Reachable s) (hstopped : s.control = .stopped) :
    visited s.shared.vtable = G.adjacency.component start_v := by
  ext v
  rw [visited, Finset.mem_filter, Bfs.parent_ne_null_iff hs hstopped, Multigraph.mem_component_iff]
  exact and_iff_right (Finset.mem_univ v)

/-- What is printed as the largest component is one, and none is larger. -/
theorem isGreatest_largest {summary : ConnectedComponents.Summary}
    (h : ConnectedComponents.summarise (G.adjacency.components.val.map Finset.card) =
      some summary) :
    IsGreatest {n | ∃ v, (G.adjacency.component v).card = n} summary.largest := by
  rw [ConnectedComponents.summarise] at h
  split at h
  · rename_i hsize
    cases h
    have hne : G.adjacency.components.Nonempty := by
      rw [← Finset.card_pos]
      simpa using hsize.1
    have hmem : ∀ v, G.adjacency.component v ∈ G.adjacency.components := fun v =>
      Finset.mem_image_of_mem _ (Finset.mem_univ v)
    constructor
    · obtain ⟨A, hA, hsup⟩ := Finset.exists_mem_eq_sup _ hne Finset.card
      obtain ⟨v, -, rfl⟩ := Finset.mem_image.1 hA
      exact ⟨v, hsup.symm⟩
    · intro n hn
      obtain ⟨v, rfl⟩ := hn
      exact Finset.le_sup (f := Finset.card) (hmem v)
  · cases h

/-- On a symmetric graph, whatever the interleavings of the two runs, breadth-first search reaches
    just the vertices that connected components gives the label of the start, and the size connected
    components prints as the largest is the greatest number of vertices a search can reach. -/
theorem bfs_reaches_one_component (G : Graph) (hsymm : G.adjacency.Symmetric)
    (order : List (Nat × Nat) → List (Nat × Nat)) (horder : ∀ m, (order m).Perm m) (helpers : Nat) :
    ∀ t, (ConnectedComponents.system helpers G).Reachable t → t.control = .stopped →
      (∀ helpers' start_v s, (Bfs.system helpers' G start_v).Reachable s → s.control = .stopped →
        ∀ v, (s.shared.vtable v).parent ≠ Bfs.NULLVERT ↔
          (t.shared.vtable v).id = (t.shared.vtable start_v).id) ∧
      ∀ summary, ConnectedComponents.printTopN order t.shared.vtable = some summary →
        (∀ helpers' start_v s, (Bfs.system helpers' G start_v).Reachable s → s.control = .stopped →
          (visited s.shared.vtable).card ≤ summary.largest) ∧
        ∃ start_v, ∀ helpers' s, (Bfs.system helpers' G start_v).Reachable s →
        s.control = .stopped →
          (visited s.shared.vtable).card = summary.largest := by
  intro t ht htstopped
  have hlabels := ConnectedComponents.labels_of_run hsymm ht htstopped
  constructor
  · intro helpers' start_v s hs hstopped v
    rw [Bfs.parent_ne_null_iff hs hstopped, ← hlabels start_v v]
    exact eq_comm
  · intro summary hprint
    rw [ConnectedComponents.printTopN_of_labels horder hlabels] at hprint
    obtain ⟨⟨start_v, hstart⟩, hmax⟩ := isGreatest_largest hprint
    constructor
    · intro helpers' v s hs hstopped
      rw [visited_eq_component hs hstopped]
      exact hmax ⟨v, rfl⟩
    · exists start_v
      intro helpers' s hs hstopped
      rw [visited_eq_component hs hstopped]
      exact hstart

/-- On the triangle, with two threads for one run and three for the other. -/
theorem bfs_reaches_one_component_triangle :
    ∃ t s, (ConnectedComponents.system 1 triangle.graph).Reachable t ∧ t.control = .stopped ∧
      (Bfs.system 2 triangle.graph ⟨5, by decide⟩).Reachable s ∧ s.control = .stopped ∧
      ∀ v, (s.shared.vtable v).parent ≠ Bfs.NULLVERT ↔
        (t.shared.vtable v).id = (t.shared.vtable ⟨5, by decide⟩).id := by
  obtain ⟨t, ht, htstopped⟩ := ConnectedComponents.exists_stopped 1 triangle.graph
  obtain ⟨s, hs, hstopped⟩ := Bfs.exists_stopped (G := triangle.graph) 2 ⟨5, by decide⟩
  have hboth := bfs_reaches_one_component triangle.graph (triangle.symmetric_graph rfl) List.reverse
    List.reverse_perm 1 t ht htstopped
  exact ⟨t, s, ht, htstopped, hs, hstopped, hboth.1 2 _ s hs hstopped⟩

/-! ### Components and the independent set -/

/-- On a symmetric graph no component is without a vertex of the independent set, so the number of
    components that is printed is at most the cardinality that is printed. -/
theorem components_le_mis (G : Graph) (hsymm : G.adjacency.Symmetric)
    (order : List (Nat × Nat) → List (Nat × Nat)) (horder : ∀ m, (order m).Perm m)
    (divisor : BitVec 32) (hroom : G.num_vertices + G.num_vertices / divisor.toNat < 2 ^ 32)
    (helpers helpers' : Nat) :
    ∀ t m, (ConnectedComponents.system helpers G).Reachable t → t.control = .stopped →
      (Mis.system helpers' G divisor).Reachable m → m.control = .stopped →
      (∀ v, ∃ w, (t.shared.vtable w).id = (t.shared.vtable v).id ∧ (m.shared.vtable w).flag = .IN) ∧
      ∀ summary size, ConnectedComponents.printTopN order t.shared.vtable = some summary →
        Mis.GetCardinality m.shared.vtable size → summary.total ≤ size := by
  intro t m ht htstopped hm hmstopped
  have hlabels := ConnectedComponents.labels_of_run hsymm ht htstopped
  have hgreedy := Mis.isGreedy_of_run hroom hm hmstopped
  have hmember :
      ∀ v, ∃ w, (t.shared.vtable w).id = (t.shared.vtable v).id ∧
      (m.shared.vtable w).flag = .IN := by
    intro v
    by_cases hv : (m.shared.vtable v).flag = .IN
    · exact ⟨v, rfl, hv⟩
    · obtain ⟨w, hw, -, hin⟩ := hgreedy.maximal hv
      exact ⟨w, ((hlabels v w).2 ((Multigraph.Reaches.refl v).tail hw)).symm, hin⟩
  refine ⟨hmember, ?_⟩
  intro summary size hprint hsize
  rw [ConnectedComponents.printTopN_of_labels horder hlabels,
    ConnectedComponents.summarise] at hprint
  split at hprint
  · cases hprint
    have hsub : G.adjacency.components ⊆
        (Finset.univ.filter fun v => (m.shared.vtable v).flag = .IN).image
          G.adjacency.component := by
      intro A hA
      obtain ⟨v, -, rfl⟩ := Finset.mem_image.1 hA
      obtain ⟨w, hw, hin⟩ := hmember v
      refine Finset.mem_image.2 ⟨w, Finset.mem_filter.2 ⟨Finset.mem_univ w, hin⟩, ?_⟩
      have hw : (t.shared.vtable w).id = (t.shared.vtable v).id := hw
      rw [hlabels.component_eq, hlabels.component_eq, hw]
    rw [Mis.getCardinality_eq hsize, Multiset.card_map, Finset.card_val]
    exact (Finset.card_le_card hsub).trans Finset.card_image_le
  · cases hprint

/-- On the triangle, with windows of three vertices. -/
theorem components_le_mis_triangle :
    ∃ t m, (ConnectedComponents.system 1 triangle.graph).Reachable t ∧ t.control = .stopped ∧
      (Mis.system 2 triangle.graph 2#32).Reachable m ∧ m.control = .stopped ∧
      ∀ v, ∃ w, (t.shared.vtable w).id = (t.shared.vtable v).id ∧
      (m.shared.vtable w).flag = .IN := by
  obtain ⟨t, ht, htstopped⟩ := ConnectedComponents.exists_stopped 1 triangle.graph
  have hwindow : Mis.HasWindow triangle.graph 2#32 := ⟨by decide, .inl (by decide)⟩
  obtain ⟨m, hm, hmstopped⟩ := Mis.exists_stopped hwindow (by decide) 2
  have hboth := components_le_mis triangle.graph (triangle.symmetric_graph rfl) List.reverse
    List.reverse_perm 2#32 (by decide) 1 2 t m ht htstopped hm hmstopped
  exact ⟨t, m, ht, htstopped, hm, hmstopped, hboth.1⟩

/-! ### Cores -/

/-- On a symmetric graph a run for a larger `k` leaves a part of what a run for a smaller one
    leaves, in any interleavings, and prints no larger size. -/
theorem kcores_nested (G : Graph) (hsymm : G.adjacency.Symmetric) {k k' : Nat} (hk : k ≤ k')
    (helpers helpers' : Nat) :
    ∀ s s', (Kcore.system helpers G k).Reachable s → s.control = .stopped →
      (Kcore.system helpers' G k').Reachable s' → s'.control = .stopped →
      (∀ v, k' ≤ (s'.shared.vtable v).degree → k ≤ (s.shared.vtable v).degree) ∧
      ∀ size size', Kcore.KthCoreMembership s.shared.vtable k size →
        Kcore.KthCoreMembership s'.shared.vtable k' size' → size' ≤ size := by
  intro s s' hs hstopped hs' hstopped'
  have hcore := Kcore.isGreatest_of_run hsymm hs hstopped
  have hcore' := Kcore.isGreatest_of_run hsymm hs' hstopped'
  have hsub : (Finset.univ.filter fun v => k' ≤ (s'.shared.vtable v).degree) ⊆
      Finset.univ.filter fun v => k ≤ (s.shared.vtable v).degree :=
    hcore.2 fun v hv => Nat.le_trans hk (hcore'.1 v hv)
  constructor
  · intro v hv
    have hmem := hsub (Finset.mem_filter.2 ⟨Finset.mem_univ v, hv⟩)
    exact (Finset.mem_filter.1 hmem).2
  · intro size size' hsize hsize'
    rw [Kcore.kthCoreMembership_eq hsize, Kcore.kthCoreMembership_eq hsize']
    exact Finset.card_le_card hsub

/-- On the triangle, for the 1-core and the 2-core. -/
theorem kcores_nested_triangle :
    ∃ s s', (Kcore.system 1 triangle.graph 1).Reachable s ∧ s.control = .stopped ∧
      (Kcore.system 2 triangle.graph 2).Reachable s' ∧ s'.control = .stopped ∧
      ∀ v, 2 ≤ (s'.shared.vtable v).degree → 1 ≤ (s.shared.vtable v).degree := by
  have hsymm : triangle.graph.adjacency.Symmetric := triangle.symmetric_graph rfl
  obtain ⟨s, hs, hstopped⟩ := Kcore.exists_stopped hsymm 1 1
  obtain ⟨s', hs', hstopped'⟩ := Kcore.exists_stopped hsymm 2 2
  have hboth := kcores_nested triangle.graph hsymm (Nat.le_succ 1) 1 2 s s' hs hstopped hs'
    hstopped'
  exact ⟨s, s', hs, hstopped, hs', hstopped', hboth.1⟩

end FamGraph
