/-
Module: FamGraph.Proofs.CallHistory
Layer: Proofs
Purpose: How often a run asks its driver for a vertex. `KeptAlong.reachable` is the rule of the
  shared loop for invariants that speak of the calls made so far: only entering a round makes one.
  bfs asks for every vertex it reaches once, in the call for its distance; k-core asks for every
  vertex it peels once, and for no member of the core. The call for a frontier adds vertices that no
  call before it has named, so nothing is fetched twice.
Trusted boundary: none
Main exports: AskedOnce, KeptAlong, KeptAlong.reachable, bfs_asks_once, kcore_asks_once
-/
import FamGraph.Core.CallHistory
import FamGraph.Proofs.KernelRelations

namespace FamGraph

variable {threads : Nat} {G : Graph}

/-! ### Vertices asked for -/

theorem Graph.requested_concat (frontiers : List (Bitmap threads)) (frontier : Bitmap threads) :
    G.requested (frontiers ++ [frontier]) = G.requested frontiers ++ G.calls fun v =>
      frontier.Active v := by
  rw [requested, List.flatMap_append, List.flatMap_singleton]
  rfl

/-- The vertices of `done` with out-edges have been asked for, each once. -/
structure AskedOnce (G : Graph) (frontiers : List (Bitmap threads)) (done : G.Vertex → Prop) :
    Prop where
  nodup : (G.requested frontiers).Nodup
  mem : ∀ v, v ∈ G.requested frontiers ↔ done v ∧ G.out v ≠ []

namespace AskedOnce

variable {frontiers : List (Bitmap threads)} {frontier : Bitmap threads}
  {done done' : G.Vertex → Prop}

theorem nil (hdone : ∀ v, ¬ done v) : AskedOnce G ([] : List (Bitmap threads)) done where
  nodup := List.nodup_nil
  mem v := ⟨fun hv => absurd hv List.not_mem_nil, fun hv => absurd hv.1 (hdone v)⟩

/-- A call for a frontier of new vertices. -/
theorem concat (h : AskedOnce G frontiers done)
    (hnew : ∀ v : G.Vertex, frontier.Active v → ¬ done v)
    (hdone : ∀ v, done' v ↔ done v ∨ frontier.Active v) :
    AskedOnce G (frontiers ++ [frontier]) done' := by
  constructor
  · rw [Graph.requested_concat, List.nodup_append']
    refine ⟨h.nodup, G.nodup_calls _, fun v hold hcall => ?_⟩
    have hactive : frontier.Active v := of_decide_eq_true (Graph.mem_calls.1 hcall).1
    exact hnew v hactive ((h.mem v).1 hold).1
  · intro v
    rw [Graph.requested_concat, List.mem_append, h.mem, Graph.mem_calls, decide_eq_true_iff, hdone,
      or_and_right]

end AskedOnce

/-! ### The rule of the loop -/

namespace PushKernel

variable {Shared Local Choice : Type} {K : PushKernel threads G Shared Local Choice}
  {I : List (Bitmap threads) → LoopInvariant threads Shared Local}

/-- What entering a round, one callback step and leaving a round have to preserve, given the calls
    so far. -/
structure KeptAlong (K : PushKernel threads G Shared Local Choice)
    (I : List (Bitmap threads) → LoopInvariant threads Shared Local) : Prop where
  enter :
    ∀ frontiers shared frontier next_frontier, (I frontiers).Head shared frontier next_frontier →
    frontier.isEmpty = false →
    (I (frontiers ++ [frontier])).Running frontier (K.beginRound shared, next_frontier)
      (K.tasks frontier)
  push : ∀ frontiers frontier p pool p' pool', (I frontiers).Running frontier p pool →
    TaskPool.Step K.Act (p, pool) (p', pool') → (I frontiers).Running frontier p' pool'
  leave : ∀ frontiers shared frontier next_frontier pool,
    (I frontiers).Running frontier (shared, next_frontier) pool →
    (∀ l ∈ pool, K.returned l = true) → (I frontiers).Head shared next_frontier frontier.clear

/-- One step of `operator()`, with the call it makes. -/
theorem KeptAlong.step (hkept : KeptAlong K I) {s t : KernelState threads Shared Local}
    {frontiers : List (Bitmap threads)} (hs : (I frontiers).At s) (hst : K.Step s t) :
    (I (noteDrive s t frontiers)).At t := by
  cases hst with
  | enter hfull => exact hkept.enter _ _ _ _ hs hfull
  | push hpool => exact hkept.push _ _ _ _ _ _ hs hpool
  | leave hall => exact hkept.leave _ _ _ _ _ hs hall
  | stop hempty => exact ⟨hs, hempty⟩

/-- An invariant kept along the calls holds at every point of every run. -/
theorem KeptAlong.reachable (hkept : KeptAlong K I) {init : KernelState threads Shared Local → Prop}
    (hinit : ∀ s, init s → (I []).At s) {s : KernelState threads Shared Local}
    {frontiers : List (Bitmap threads)} (h : (drives (K.system init)).Reachable (s, frontiers)) :
    (I frontiers).At s := by
  apply TransitionSystem.Reachable.induct
    (I := fun p : KernelState threads Shared Local × List (Bitmap threads) => (I p.2).At p.1) _ _ h
  · rintro ⟨s, frontiers⟩ ⟨hs, hempty⟩
    cases hempty
    exact hinit s hs
  · rintro ⟨s, frontiers⟩ ⟨t, frontiers'⟩ - hs ⟨hst, hnote⟩
    obtain rfl : frontiers' = noteDrive s t frontiers := hnote
    exact hkept.step hs hst

end PushKernel

/-- Every run makes its calls. -/
theorem exists_drives {Shared Local : Type}
    {kernel : TransitionSystem (KernelState threads Shared Local)}
    {s : KernelState threads Shared Local} (h : kernel.Reachable s) :
    ∃ frontiers, (drives kernel).Reachable (s, frontiers) := h.exists_history

/-! ### Breadth-first search -/

namespace Bfs

variable {start_v : G.Vertex}

/-- No step of a push counts a round. -/
theorem Acts.round_eq {p p' : Shared G × Bitmap threads} {l l' : Push G} (h : Acts p l p' l') :
    p'.1.round = p.1.round := by
  cases h <;> rfl

/-- The calls so far have asked for the levels so far. -/
def AskedLevels (start_v : G.Vertex) (frontiers : List (Bitmap threads)) : Prop :=
  AskedOnce G frontiers fun v => ∃ k < frontiers.length, G.adjacency.Level start_v k v

/-- The loop invariant, with one call for each round. -/
def callInvariant (threads : Nat) (start_v : G.Vertex) (frontiers : List (Bitmap threads)) :
    PushKernel.LoopInvariant threads (Shared G) (Push G) where
  Head s frontier next_frontier := AtHead start_v s frontier next_frontier ∧
    s.round = frontiers.length ∧ AskedLevels start_v frontiers
  Running frontier p pool := (loopInvariant threads start_v).Running frontier p pool ∧
    p.1.round = frontiers.length ∧ AskedLevels start_v frontiers

/-- The call for level `frontiers.length`. -/
theorem AskedLevels.concat {frontiers : List (Bitmap threads)} {frontier : Bitmap threads}
    (h : AskedLevels start_v frontiers)
    (hlevel : ∀ v : G.Vertex, frontier.Active v ↔ G.adjacency.Level start_v frontiers.length v) :
    AskedLevels start_v (frontiers ++ [frontier]) := by
  apply AskedOnce.concat h
  · rintro v hactive ⟨k, hk, hlow⟩
    exact absurd (hlow.unique ((hlevel v).1 hactive)) (Nat.ne_of_lt hk)
  · intro v
    rw [List.length_append, List.length_singleton, hlevel]
    constructor
    · rintro ⟨k, hk, hlow⟩
      rcases Nat.lt_succ_iff_lt_or_eq.1 hk with hlt | rfl
      · exact .inl ⟨k, hlt, hlow⟩
      · exact .inr hlow
    · rintro (⟨k, hk, hlow⟩ | hlow)
      · exact ⟨k, Nat.lt_succ_of_lt hk, hlow⟩
      · exact ⟨_, Nat.lt_succ_self _, hlow⟩

theorem callInvariant_kept (start_v : G.Vertex) :
    PushKernel.KeptAlong (kernel threads G) (callInvariant threads start_v) where
  enter frontiers shared frontier next_frontier h hfull := by
    obtain ⟨hhead, hround, hasked⟩ := h
    have hrunning := enter_kept hhead hfull
    refine ⟨hrunning, ?_, hasked.concat fun v => hround ▸ hhead.frontier_level v⟩
    -- the round counter does not wrap around before the levels are used up
    obtain ⟨v, hv⟩ := hhead.fits.isEmpty_eq_false_iff.1 hfull
    have hcard := Multigraph.level_lt_card ((hhead.frontier_level v).1 hv)
    have hlt := G.num_vertices_lt
    rw [Fintype.card_fin] at hcard
    have hnext : ((kernel threads G).beginRound shared).round = shared.round + 1 :=
      Nat.mod_eq_of_lt (by omega)
    rw [hnext, hround, List.length_append, List.length_singleton]
  push frontiers frontier p pool p' pool' h hpool := by
    obtain ⟨hrunning, hround, hasked⟩ := h
    obtain ⟨l, -, l', hact, -⟩ := hpool.sum_map fun _ => 0
    exact ⟨(loopInvariant_kept start_v).push _ _ _ _ _ hrunning hpool,
      (acts_of_act hact).round_eq.trans hround, hasked⟩
  leave frontiers shared frontier next_frontier pool h hall := by
    obtain ⟨hrunning, hround, hasked⟩ := h
    exact ⟨leave_kept hrunning hall, hround, hasked⟩

theorem callInvariant_of_run {helpers : Nat} {s : KernelState (helpers + 1) (Shared G) (Push G)}
    {frontiers : List (Bitmap (helpers + 1))}
    (h : (drives (system helpers G start_v)).Reachable (s, frontiers)) :
    (callInvariant (helpers + 1) start_v frontiers).At s := by
  refine (callInvariant_kept start_v).reachable (fun t ht => ?_) h
  cases ht
  exact ⟨atHead_initial helpers start_v, rfl,
    AskedOnce.nil fun v ⟨k, hk, _⟩ => absurd hk (Nat.not_lt_zero k)⟩

/-- At whatever point a search is, the levels of its calls have been asked for. -/
theorem askedLevels_of_run {helpers : Nat} {s : KernelState (helpers + 1) (Shared G) (Push G)}
    {frontiers : List (Bitmap (helpers + 1))}
    (h : (drives (system helpers G start_v)).Reachable (s, frontiers)) :
    AskedLevels start_v frontiers := by
  have hat := callInvariant_of_run h
  obtain ⟨shared, frontier, next_frontier, control⟩ := s
  cases control with
  | head => exact hat.2.2
  | pushing pool => exact hat.2.2
  | stopped => exact hat.1.2.2

/-- A search that has stopped has made one call for each level. -/
theorem length_of_stopped {helpers : Nat} {s : KernelState (helpers + 1) (Shared G) (Push G)}
    {frontiers : List (Bitmap (helpers + 1))}
    (h : (drives (system helpers G start_v)).Reachable (s, frontiers))
    (hstopped : s.control = .stopped) :
    ∃ d, IsGreatest {d | ∃ v, G.adjacency.Level start_v d v} d ∧ frontiers.length = d + 1 := by
  have hat := callInvariant_of_run h
  obtain ⟨shared, frontier, next_frontier, control⟩ := s
  cases hstopped
  obtain ⟨⟨hhead, hround, -⟩, hempty⟩ := hat
  obtain ⟨d, hgreatest, hlast⟩ := round_of_stopped hhead hempty
  exact ⟨d, hgreatest, hround.symm.trans hlast⟩

/-- When a search stops, everything reached has been asked for. -/
theorem askedReached_of_run {helpers : Nat} {s : KernelState (helpers + 1) (Shared G) (Push G)}
    {frontiers : List (Bitmap (helpers + 1))}
    (h : (drives (system helpers G start_v)).Reachable (s, frontiers))
    (hstopped : s.control = .stopped) : AskedOnce G frontiers (G.adjacency.Reaches start_v) := by
  obtain ⟨d, hgreatest, hlength⟩ := length_of_stopped h hstopped
  have hasked := askedLevels_of_run h
  refine ⟨hasked.nodup, fun v => (hasked.mem v).trans (and_congr_left fun _ => ?_)⟩
  constructor
  · rintro ⟨k, -, hlevel⟩
    exact hlevel.reaches
  · rintro ⟨n, hwalk⟩
    obtain ⟨k, -, hlevel⟩ := Multigraph.exists_level_le hwalk
    exact ⟨k, hlength ▸ Nat.lt_succ_of_le (hgreatest.2 ⟨v, hlevel⟩), hlevel⟩

/-- For every interleaving of the pushes, bfs asks its driver for no vertex twice and for none that
    `start_v` does not reach; when it stops it has asked for every vertex with out-edges that
    `start_v` reaches, in one call more than the greatest distance. -/
theorem bfs_asks_once (helpers : Nat) (G : Graph) (start_v : G.Vertex) :
    ∀ s frontiers, (drives (system helpers G start_v)).Reachable (s, frontiers) →
      (G.requested frontiers).Nodup ∧
      (∀ v ∈ G.requested frontiers, G.adjacency.Reaches start_v v) ∧
      (s.control = .stopped →
        (∀ v, v ∈ G.requested frontiers ↔ G.adjacency.Reaches start_v v ∧ G.out v ≠ []) ∧
        ∃ d, IsGreatest {d | ∃ v, G.adjacency.Level start_v d v} d ∧ frontiers.length = d + 1) := by
  intro s frontiers hs
  have hasked := askedLevels_of_run hs
  refine ⟨hasked.nodup, fun v hv => ?_, fun hstopped => ?_⟩
  · obtain ⟨⟨k, -, hlevel⟩, -⟩ := (hasked.mem v).1 hv
    exact hlevel.reaches
  · exact ⟨(askedReached_of_run hs hstopped).mem, length_of_stopped hs hstopped⟩

/-- A search of a single edge asks for both ends. -/
theorem bfs_asks_once_edge : ∃ s frontiers,
    (drives (system 1 Graph.edge ⟨0, by decide⟩)).Reachable (s, frontiers) ∧ s.control = .stopped ∧
      (Graph.edge.requested frontiers).Nodup ∧ ∀ v, v ∈ Graph.edge.requested frontiers := by
  obtain ⟨s, hs, hstopped⟩ := exists_stopped (G := Graph.edge) 1 ⟨0, by decide⟩
  obtain ⟨frontiers, hrun⟩ := exists_drives hs
  obtain ⟨hnodup, -, hall⟩ := bfs_asks_once 1 Graph.edge ⟨0, by decide⟩ s frontiers hrun
  refine ⟨s, frontiers, hrun, hstopped, hnodup,
    fun v => ((hall hstopped).1 v).2 ⟨?_, List.cons_ne_nil _ _⟩⟩
  have harc : ∀ v : Fin 2, v = 0 ∨ v ∈ [(0 : Fin 2).rev] := by decide
  rcases harc v with rfl | hv
  · exact .refl _
  · exact (Multigraph.Reaches.refl _).tail hv

end Bfs

/-! ### Peeling -/

namespace Kcore

variable {k : Nat}

/-- The loop invariant, when what is peeled is what has been asked for. -/
def callInvariant (threads : Nat) (G : Graph) (k : Nat) (frontiers : List (Bitmap threads)) :
    PushKernel.LoopInvariant threads (Shared G) (Push G) where
  Head s frontier next_frontier := ∃ peeled, AtHead k s frontier next_frontier peeled ∧
    AskedOnce G frontiers (· ∈ peeled)
  Running frontier p pool := frontier.Fits G ∧ ∃ peeled, AtPush k p pool peeled ∧
    AskedOnce G frontiers (· ∈ peeled)

/-- A round peels its frontier. -/
theorem AtHead.mem_belowK_iff {s : Shared G} {frontier next_frontier : Bitmap threads}
    {peeled : Finset G.Vertex} (h : AtHead k s frontier next_frontier peeled) (v : G.Vertex) :
    v ∈ belowK k s ↔ v ∈ peeled ∨ frontier.Active v := by
  rw [mem_belowK]
  constructor
  · exact h.complete v
  · rintro (hin | hactive)
    · exact (h.peeling.peeled v hin).1
    · exact h.peeling.active v hactive

theorem callInvariant_kept (hsymm : G.adjacency.Symmetric) :
    PushKernel.KeptAlong (kernel threads G k) (callInvariant threads G k) where
  enter frontiers shared frontier next_frontier h _ := by
    obtain ⟨peeled, hhead, hasked⟩ := h
    refine ⟨hhead.peeling.fits, _, enter_kept hhead,
      hasked.concat (fun v hactive hin => ?_) hhead.mem_belowK_iff⟩
    exact (hhead.peeling.peeled v hin).2 hactive
  push frontiers frontier p pool p' pool' h hpool := by
    obtain ⟨hfits, peeled, hpush, hasked⟩ := h
    exact ⟨hfits, peeled, push_kept hpush hpool, hasked⟩
  leave frontiers shared frontier next_frontier pool h hall := by
    obtain ⟨hfits, peeled, hpush, hasked⟩ := h
    exact ⟨peeled, leave_kept hsymm hfits hpush hall, hasked⟩

theorem callInvariant_of_run (hsymm : G.adjacency.Symmetric) {helpers : Nat}
    {s : KernelState (helpers + 1) (Shared G) (Push G)} {frontiers : List (Bitmap (helpers + 1))}
    (h : (drives (system helpers G k)).Reachable (s, frontiers)) :
    (callInvariant (helpers + 1) G k frontiers).At s := by
  refine (callInvariant_kept hsymm).reachable (fun t ht => ?_) h
  obtain ⟨worker, order, horder, rfl⟩ := ht
  exact ⟨∅, atHead_initial hsymm worker horder, AskedOnce.nil fun v => Finset.notMem_empty v⟩

/-- At whatever point a run is, what it has asked for lies outside every sturdy set. -/
theorem asked_of_run (hsymm : G.adjacency.Symmetric) {helpers : Nat}
    {s : KernelState (helpers + 1) (Shared G) (Push G)} {frontiers : List (Bitmap (helpers + 1))}
    (h : (drives (system helpers G k)).Reachable (s, frontiers)) :
    ∃ peeled, AskedOnce G frontiers (· ∈ peeled) ∧ ∀ A, G.adjacency.Sturdy k A →
    Disjoint A peeled := by
  have hat := callInvariant_of_run hsymm h
  have hhead : ∀ {shared : Shared G} {frontier next_frontier : Bitmap (helpers + 1)} {peeled},
      AtHead k shared frontier next_frontier peeled → ∀ A, G.adjacency.Sturdy k A →
      Disjoint A peeled := by
    intro shared frontier next_frontier peeled hhead A hA
    rw [Finset.disjoint_left]
    intro v hv hin
    exact absurd (hhead.peeling.peeled v hin).1 (Nat.not_lt.2 (hhead.sturdy A hA v hv))
  obtain ⟨shared, frontier, next_frontier, control⟩ := s
  cases control with
  | head =>
      obtain ⟨peeled, h, hasked⟩ := hat
      exact ⟨peeled, hasked, hhead h⟩
  | pushing pool =>
      obtain ⟨-, peeled, h, hasked⟩ := hat
      exact ⟨peeled, hasked, h.sturdy⟩
  | stopped =>
      obtain ⟨⟨peeled, h, hasked⟩, -⟩ := hat
      exact ⟨peeled, hasked, hhead h⟩

/-- On a symmetric graph, for every interleaving of the pushes, k-core asks its driver for no vertex
    twice and for none of a set whose members have `k` arcs to members; when it stops it has asked
    for every vertex with out-edges outside the core. -/
theorem kcore_asks_once (helpers : Nat) (G : Graph) (k : Nat) (hsymm : G.adjacency.Symmetric) :
    ∀ s frontiers, (drives (system helpers G k)).Reachable (s, frontiers) →
      (G.requested frontiers).Nodup ∧
      (∀ A, G.adjacency.Sturdy k A → ∀ v ∈ A, v ∉ G.requested frontiers) ∧
      (s.control = .stopped →
        ∀ v, v ∈ G.requested frontiers ↔ (∀ A, G.adjacency.Sturdy k A → v ∉ A) ∧ G.out v ≠ []) := by
  intro s frontiers hs
  obtain ⟨peeled, hasked, hsturdy⟩ := asked_of_run hsymm hs
  refine ⟨hasked.nodup, fun A hA v hv hin => ?_, fun hstopped => ?_⟩
  · exact Finset.disjoint_left.1 (hsturdy A hA) hv ((hasked.mem v).1 hin).1
  · have hat := callInvariant_of_run hsymm hs
    obtain ⟨shared, frontier, next_frontier, control⟩ := s
    cases hstopped
    obtain ⟨⟨peeled, hhead, hasked⟩, hempty⟩ := hat
    have hgreatest := isGreatest_of_stopped hsymm hhead hempty
    refine fun v => (hasked.mem v).trans (and_congr_left fun _ => ?_)
    have hpeeled : v ∈ peeled ↔ (shared.vtable v).degree < k := by
      rw [← mem_belowK, hhead.mem_belowK_iff]
      exact (or_iff_left (hhead.peeling.fits.isEmpty_iff.1 hempty v)).symm
    rw [hpeeled]
    constructor
    · intro hlow A hA hv
      exact absurd hlow (Nat.not_lt.2 (hhead.sturdy A hA v hv))
    · intro hout
      by_contra hhigh
      exact hout _ hgreatest.1 (Finset.mem_filter.2 ⟨Finset.mem_univ v, Nat.not_lt.1 hhigh⟩)

/-- Peeling a single edge for the 2-core asks for both ends. -/
theorem kcore_asks_once_edge : ∃ s frontiers,
    (drives (system 1 Graph.edge 2)).Reachable (s, frontiers) ∧ s.control = .stopped ∧
      (Graph.edge.requested frontiers).Nodup ∧
      ∀ v, v ∈ Graph.edge.requested frontiers ↔
        (∀ A, Graph.edge.adjacency.Sturdy 2 A → v ∉ A) ∧ Graph.edge.out v ≠ [] := by
  obtain ⟨s, hs, hstopped⟩ := exists_stopped Graph.edge_symmetric 1 2
  obtain ⟨frontiers, hrun⟩ := exists_drives hs
  obtain ⟨hnodup, -, hall⟩ := kcore_asks_once 1 Graph.edge 2 Graph.edge_symmetric s frontiers hrun
  exact ⟨s, frontiers, hrun, hstopped, hnodup, hall hstopped⟩

end Kcore

end FamGraph
