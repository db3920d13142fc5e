/-
Module: FamGraph.Proofs.MisCardinality
Layer: Proofs
Purpose: The number the independent set kernel prints. It depends on the graph alone: every
  schedule, every divisor and every tree of sub-ranges the reduction is split into gives the size of
  one maximal independent set, and since each vertex of the set rules out its neighbours only, the
  set is not small.
Trusted boundary: none
Main exports: getCardinality_eq, isGreedy_of_run, mis_prints_one_cardinality
-/
import FamGraph.Core.MisCardinality
import FamGraph.Proofs.Kcore
import FamGraph.Proofs.MisTermination
import FamGraph.Proofs.Pipeline

namespace FamGraph.Mis

variable {G : Graph}

/-! ### The count -/

/-- Counting the vertices that are in is counting those of degree at least one in a table that holds
    a one for each of them. -/
theorem countIn_eq (vtable : G.Vertex → MisVertex) :
    countIn vtable = Kcore.countMembers
      (fun v => { degree := if (vtable v).flag = .IN then 1 else 0 : Kcore.KcoreVertex }) 1 := by
  funext first last init
  rw [countIn, Kcore.countMembers]
  congr 1
  funext init i
  by_cases hin : (vtable i).flag = .IN
  · simp [hin]
  · simp [hin]

/-- `get_cardinality` returns the number of vertices that are in. -/
theorem getCardinality_eq {vtable : G.Vertex → MisVertex} {size : Nat}
    (h : GetCardinality vtable size) :
    size = (Finset.univ.filter fun v => (vtable v).flag = .IN).card := by
  rw [GetCardinality, countIn_eq] at h
  rw [Kcore.kthCoreMembership_eq h]
  congr 1
  apply Finset.filter_congr
  intro v _
  by_cases hin : (vtable v).flag = .IN
  · simp [hin]
  · simp [hin]

/-- One leaf is a tree. -/
theorem exists_getCardinality (vtable : G.Vertex → MisVertex) :
    ∃ size, GetCardinality vtable size :=
  ⟨_, .range (Nat.zero_le _) (.identity 0)⟩

/-! ### The print of a run -/

/-- A run that has stopped has decided for the greedy set. -/
theorem isGreedy_of_run {helpers : Nat} {divisor : BitVec 32} {s : MisState (helpers + 1) G}
    (hroom : G.num_vertices + G.num_vertices / divisor.toNat < 2 ^ 32)
    (hs : (system helpers G divisor).Reachable s) (hstopped : s.control = .stopped) :
    G.adjacency.IsGreedy fun v => (s.shared.vtable v).flag = .IN := by
  have hinv := reachable_invariant hroom hs
  simp only [Invariant, hstopped] at hinv
  exact (decided_of_stopped hinv.1 hinv.2).2

/-- A symmetric graph has one maximal independent set (self-loops aside) whose size every run prints
    that stops, for every number of threads, every divisor that leaves the counters room, every
    interleaving and every way the count is split and joined. The set has at least one vertex for
    every `degree + 1` vertices. -/
theorem mis_prints_one_cardinality (G : Graph) (hsymm : G.adjacency.Symmetric) :
    ∃ I : Finset G.Vertex,
      (∀ u ∈ I, ∀ v ∈ I, v ∈ G.out u → u = v) ∧
      (∀ v ∉ I, ∃ w ∈ G.out v, w ≠ v ∧ w ∈ I) ∧
      (∀ degree, (∀ v, (G.out v).length ≤ degree) → G.num_vertices ≤ I.card * (degree + 1)) ∧
      ∀ (helpers : Nat) (divisor : BitVec 32) (s : MisState (helpers + 1) G) (size : Nat),
        G.num_vertices + G.num_vertices / divisor.toNat < 2 ^ 32 →
        (system helpers G divisor).Reachable s → s.control = .stopped →
        GetCardinality s.shared.vtable size → size = I.card := by
  classical
  obtain ⟨J, hJ⟩ := G.adjacency.exists_isGreedy
  have hI : G.adjacency.IsGreedy fun v => v ∈ Finset.univ.filter J := by
    intro v
    simpa using hJ v
  refine ⟨Finset.univ.filter J, fun u hu v hv harc => hI.independent hsymm hu hv harc,
    fun v hv => hI.maximal hv, fun degree hdegree => ?_, ?_⟩
  · have hcard := hI.card_le hsymm hdegree
    rwa [Fintype.card_fin] at hcard
  · intro helpers divisor s size hroom hs hstopped hsize
    rw [getCardinality_eq hsize]
    congr 1
    apply Finset.filter_congr
    intro v _
    exact Multigraph.isGreedy_unique (isGreedy_of_run hroom hs hstopped) hJ v

/-- On the triangle of an undirected edge list, by three threads, with windows of three vertices. -/
theorem mis_prints_one_cardinality_triangle :
    ∃ s size, (system 2 triangle.graph 2#32).Reachable s ∧ s.control = .stopped ∧
      GetCardinality s.shared.vtable size ∧ 6 ≤ size * (8 + 1) := by
  obtain ⟨I, -, -, hsize, hprints⟩ :=
    mis_prints_one_cardinality triangle.graph (triangle.symmetric_graph rfl)
  have hwindow : HasWindow triangle.graph 2#32 := ⟨by decide, .inl (by decide)⟩
  obtain ⟨s, hs, hstopped⟩ := exists_stopped hwindow (by decide) 2
  obtain ⟨size, hcounted⟩ := exists_getCardinality s.shared.vtable
  refine ⟨s, size, hs, hstopped, hcounted, ?_⟩
  rw [hprints 2 2#32 s size (by decide) hs hstopped hcounted]
  refine hsize 8 fun v => ?_
  change (triangle.out v).length ≤ 8
  rw [← List.length_map Fin.val, triangle.map_val_out, triangle.length_row]
  exact List.countP_le_length

end FamGraph.Mis
