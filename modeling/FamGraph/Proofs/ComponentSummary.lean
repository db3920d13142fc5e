/-
Module: FamGraph.Proofs.ComponentSummary
Layer: Proofs
Purpose: What connected components prints. The counts of `print_top_n` are a histogram of the labels
  whatever order the hash table has, and no count wraps since there are fewer than `2 ^ 32`
  vertices. On a symmetric graph the labels of a finished run stand for the components, so the
  printed numbers are their number, how many have two vertices or more, and the size of the largest.
Trusted boundary: none
Main exports: isHistogram_compCounts, tally_eq, printTopN_of_sizes, labels_of_run,
  printed_summary_counts_components
-/
import FamGraph.Core.ComponentSummary
import FamGraph.Foundation.Components
import FamGraph.Proofs.ConnectedComponents
import FamGraph.Proofs.PrintTop20
import FamGraph.Proofs.Pipeline

namespace FamGraph.ConnectedComponents

/-! ### The counts -/

section Counts

variable {xs : List Nat} {comp_counts : List (Nat × Nat)}

/-- One turn of the first loop keeps the histogram, as long as the labels fit the counter. -/
theorem isHistogram_countLabel (h : IsHistogram xs comp_counts) (hfits : xs.length + 1 < 2 ^ 32)
    (rep_comp : Nat) : IsHistogram (xs ++ [rep_comp]) (countLabel comp_counts rep_comp) := by
  rw [countLabel]
  split
  · rename_i hfound
    have hcount := h.increment (h.mem_keys_iff.1 hfound)
    have hsame :
        (comp_counts.map fun p => if p.1 = rep_comp then (p.1, (p.2 + 1) % 2 ^ 32) else p) =
          comp_counts.map fun p => if p.1 = rep_comp then (p.1, p.2 + 1) else p := by
      apply List.map_congr_left
      intro p hp
      have hle : p.2 ≤ xs.length := by
        rw [((h.mem_iff p.1 p.2).1 hp).2]
        exact List.count_le_length
      have hlt : p.2 + 1 < 2 ^ 32 := Nat.lt_of_le_of_lt (Nat.succ_le_succ hle) hfits
      rw [Nat.mod_eq_of_lt hlt]
    rw [hsame]
    exact hcount
  · rename_i hnew
    exact h.insert fun hmem => hnew (h.mem_keys_iff.2 hmem)

/-- Counting on from a histogram of the labels that went before. -/
theorem isHistogram_foldl_countLabel (labels : List Nat) (h : IsHistogram xs comp_counts)
    (hfits : (xs ++ labels).length < 2 ^ 32) :
    IsHistogram (xs ++ labels) (labels.foldl countLabel comp_counts) := by
  induction labels generalizing xs comp_counts with
  | nil => simpa using h
  | cons rep_comp labels ih =>
      have hroom : xs.length + 1 < 2 ^ 32 := by
        rw [List.length_append, List.length_cons] at hfits
        omega
      have hnext := ih (isHistogram_countLabel h hroom rep_comp) (by simpa using hfits)
      simpa using hnext

/-- `comp_counts` counts every label, without a wrap. -/
theorem isHistogram_compCounts {G : Graph} (vtable : G.Vertex → ComponentVertex) :
    IsHistogram ((List.finRange G.num_vertices).map fun v => (vtable v).id)
      (compCounts vtable) := by
  have hfits : (([] : List Nat) ++ (List.finRange G.num_vertices).map fun v =>
      (vtable v).id).length < 2 ^ 32 := by
    simpa using G.num_vertices_lt
  have h := isHistogram_foldl_countLabel _ .nil hfits
  rw [List.nil_append, List.foldl_map] at h
  exact h

end Counts

/-! ### The tally -/

/-- The tally splits the entries by whether their count is above one, or an `int` overflows. -/
theorem tally_eq (vs : List (Nat × Nat)) {trivial_comps non_trivial : Nat}
    (ht : trivial_comps < 2 ^ 31) (hn : non_trivial < 2 ^ 31) :
    tally vs trivial_comps non_trivial =
      if trivial_comps + vs.countP (fun p => ¬ 1 < p.1) < 2 ^ 31 ∧
          non_trivial + vs.countP (fun p => 1 < p.1) < 2 ^ 31 then
        some (trivial_comps + vs.countP (fun p => ¬ 1 < p.1),
          non_trivial + vs.countP fun p => 1 < p.1)
      else none := by
  induction vs generalizing trivial_comps non_trivial with
  | nil => rw [tally, List.countP_nil, List.countP_nil, if_pos ⟨ht, hn⟩]; rfl
  | cons p vs ih =>
      obtain ⟨count, label⟩ := p
      rw [tally]
      by_cases hcount : 1 < count
      · rw [if_pos hcount, List.countP_cons_of_neg (by simpa using hcount),
          List.countP_cons_of_pos (by simpa using hcount), addInt]
        split
        · rename_i hroom
          rw [Option.bind_some, ih ht hroom, Nat.add_assoc, Nat.add_comm 1]
        · rename_i hroom
          rw [Option.bind_none, if_neg (fun h => hroom (by omega))]
      · rw [if_neg hcount, List.countP_cons_of_pos (by simpa using hcount),
          List.countP_cons_of_neg (by simpa using hcount), addInt]
        split
        · rename_i hroom
          rw [Option.bind_some, ih hroom hn, Nat.add_assoc, Nat.add_comm 1]
        · rename_i hroom
          rw [Option.bind_none, if_neg (fun h => hroom (by omega))]

theorem countP_add_countP (vs : List (Nat × Nat)) :
    vs.countP (fun p => 1 < p.1) + vs.countP (fun p => ¬ 1 < p.1) = vs.length := by
  have hlength := List.length_eq_countP_add_countP (fun p : Nat × Nat => decide (1 < p.1)) (l := vs)
  simp only [decide_eq_true_eq] at hlength
  exact hlength.symm

/-- With their sum the counters overflow just if there are too many entries. -/
theorem tally_total {α : Type} (vs : List (Nat × Nat)) (print : Nat → Nat → Option α) :
    ((tally vs 0 0).bind fun p => (addInt p.2 p.1).bind fun total => print total p.2) =
      if vs.length < 2 ^ 31 then print vs.length (vs.countP fun p => 1 < p.1) else none := by
  have hsplit := countP_add_countP vs
  rw [tally_eq vs (Nat.two_pow_pos 31) (Nat.two_pow_pos 31), Nat.zero_add, Nat.zero_add]
  by_cases hfits : vs.length < 2 ^ 31
  · rw [if_pos hfits, if_pos ⟨by omega, by omega⟩, Option.bind_some, addInt, hsplit, if_pos hfits,
      Option.bind_some]
  · rw [if_neg hfits]
    split
    · rw [Option.bind_some, addInt, hsplit, if_neg hfits, Option.bind_none]
    · rfl

/-! ### The summary -/

/-- The last pair of a sorted vector has the largest count. -/
theorem largest_eq (v : List (Nat × Nat)) :
    (PagerankDelta.sortPairs v).reverse.head?.map Prod.fst =
      if 0 < v.length then some ((v.map Prod.fst : List Nat) : Multiset Nat).sup else none := by
  have hsorted : (PagerankDelta.sortPairs v).reverse.Pairwise fun q p => p.1 ≤ q.1 :=
    List.pairwise_reverse.2 (PagerankDelta.pairwise_sortPairs v)
  have hperm : (PagerankDelta.sortPairs v).reverse.Perm v :=
    (List.reverse_perm _).trans (PagerankDelta.perm_sortPairs v)
  rw [← hperm.length_eq, ← Multiset.coe_eq_coe.2 (hperm.map Prod.fst)]
  cases hlist : (PagerankDelta.sortPairs v).reverse with
  | nil => rfl
  | cons last rest =>
      rw [hlist] at hsorted
      have hpos : 0 < (last :: rest).length := Nat.succ_pos rest.length
      rw [if_pos hpos, List.head?_cons, Option.map_some]
      congr 1
      apply Nat.le_antisymm
      · exact Multiset.le_sup (Multiset.mem_coe.2 List.mem_cons_self)
      · rw [Multiset.sup_le]
        intro n hn
        obtain ⟨p, hp, rfl⟩ := List.mem_map.1 (Multiset.mem_coe.1 hn)
        cases List.mem_cons.1 hp with
        | inl hlast => exact hlast ▸ Nat.le_refl _
        | inr hrest => exact List.rel_of_pairwise_cons hsorted hrest

/-- The numbers a list of sizes gives, or `none` where `print_top_n` has no defined result. -/
def summarise (sizes : Multiset Nat) : Option Summary :=
  if 0 < sizes.card ∧ sizes.card < 2 ^ 31 then
    some { total := sizes.card, non_trivial := sizes.countP (1 < ·), largest := sizes.sup }
  else none

/-- `print_top_n` depends on the counts alone, not on the labels or the order of the hash table. -/
theorem printTopN_of_sizes {order : List (Nat × Nat) → List (Nat × Nat)}
    (horder : ∀ m, (order m).Perm m) {G : Graph} (vtable : G.Vertex → ComponentVertex) :
    printTopN order vtable =
      summarise (((compCounts vtable).map Prod.snd : List Nat) : Multiset Nat) := by
  have hcounts : (((order (compCounts vtable)).map Prod.swap).map Prod.fst).Perm
      ((compCounts vtable).map Prod.snd) := by
    rw [List.map_map]
    exact (horder (compCounts vtable)).map Prod.snd
  rw [← Multiset.coe_eq_coe.2 hcounts, printTopN]
  generalize (order (compCounts vtable)).map Prod.swap = v
  have hperm : (PagerankDelta.sortPairs v).reverse.Perm v :=
    (List.reverse_perm _).trans (PagerankDelta.perm_sortPairs v)
  have htally := tally_total (PagerankDelta.sortPairs v).reverse fun total non_trivial =>
    ((PagerankDelta.sortPairs v).reverse.head?.map Prod.fst).map (Summary.mk total non_trivial)
  rw [hperm.length_eq, hperm.countP_eq, largest_eq] at htally
  have hprint : ∀ total non_trivial : Nat,
      ((PagerankDelta.sortPairs v).reverse.head?.bind fun largest =>
        pure { total := total, non_trivial := non_trivial, largest := largest.1 : Summary }) =
      ((PagerankDelta.sortPairs v).reverse.head?.map Prod.fst).map
        (Summary.mk total non_trivial) := by
    intro total non_trivial
    cases (PagerankDelta.sortPairs v).reverse.head? <;> rfl
  have hcard : ((v.map Prod.fst : List Nat) : Multiset Nat).card = v.length := by simp
  have hcount :
      ((v.map Prod.fst : List Nat) : Multiset Nat).countP (1 < ·) = v.countP fun p => 1 < p.1 := by
    rw [Multiset.coe_countP, List.countP_map]
    rfl
  simp only [bind, hprint, largest_eq]
  rw [htally, summarise, hcard, hcount]
  by_cases hpos : 0 < v.length
  · simp [hpos]
  · simp [hpos]

/-- The labels of a labelling that tells the components apart give their numbers. -/
theorem printTopN_of_labels {order : List (Nat × Nat) → List (Nat × Nat)}
    (horder : ∀ m, (order m).Perm m) {G : Graph} {vtable : G.Vertex → ComponentVertex}
    (h : G.adjacency.Labels fun v => (vtable v).id) :
    printTopN order vtable = summarise (G.adjacency.components.val.map Finset.card) := by
  rw [printTopN_of_sizes horder]
  exact congrArg summarise
    (h.histogram (List.nodup_finRange _) List.mem_finRange (isHistogram_compCounts vtable))

/-! ### The print of a run -/

theorem at_of_init {G : Graph} {helpers : Nat} :
    ∀ s, (system helpers G).init s → (loopInvariant (helpers + 1) G).At s := by
  intro s hs
  obtain ⟨spurious, rfl⟩ := hs
  exact atHead_initial helpers spurious

/-- On a symmetric graph the labels of a run that has stopped tell the components apart. -/
theorem labels_of_run {G : Graph} (hsymm : G.adjacency.Symmetric) {helpers : Nat}
    {s : KernelState (helpers + 1) (Shared G) (Push G)} (hs : (system helpers G).Reachable s)
    (hstopped : s.control = .stopped) : G.adjacency.Labels fun v => (s.shared.vtable v).id := by
  obtain ⟨shared, frontier, next_frontier, control⟩ := s
  cases hstopped
  have hhead := loopInvariant_kept.reachable at_of_init hs
  exact id_eq_iff_reaches hsymm (least_of_stopped hhead.1 hhead.2)

/-- Some run of connected components stops. -/
theorem exists_stopped (helpers : Nat) (G : Graph) :
    ∃ s, (system helpers G).Reachable s ∧ s.control = .stopped := by
  have hends : (system helpers G).Terminates :=
    (termination helpers G).terminates loopInvariant_kept at_of_init
  exact hends.exists_final ⟨0, rfl⟩

/-- On a symmetric graph, for every interleaving and every order of the hash table, connected
    components prints the number of components, the number of those with two vertices or more and
    the size of the largest; its result is undefined just if there is no vertex, or the number of
    components does not fit an `int`. -/
theorem printed_summary_counts_components (helpers : Nat) (G : Graph)
    (order : List (Nat × Nat) → List (Nat × Nat)) (horder : ∀ m, (order m).Perm m)
    (hsymm : G.adjacency.Symmetric) :
    ∀ s, (system helpers G).Reachable s → s.control = .stopped →
      printTopN order s.shared.vtable =
        if 0 < G.num_vertices ∧ G.adjacency.components.card < 2 ^ 31 then
          some
            { total := G.adjacency.components.card
              non_trivial := (G.adjacency.components.filter fun A => 1 < A.card).card
              largest := G.adjacency.components.sup Finset.card }
        else none := by
  intro s hs hstopped
  have hpos : 0 < G.adjacency.components.card ↔ 0 < G.num_vertices := by
    rw [Finset.card_pos, Multigraph.components, Finset.image_nonempty, Finset.univ_nonempty_iff,
      ← Fin.pos_iff_nonempty]
  have hcount : (G.adjacency.components.val.map Finset.card).countP (1 < ·) =
      (G.adjacency.components.filter fun A => 1 < A.card).card := by
    rw [Multiset.countP_map]
    rfl
  simp only [printTopN_of_labels horder (labels_of_run hsymm hs hstopped), summarise,
    Multiset.card_map, Finset.card_val, hpos, hcount]
  rfl

/-- On the triangle of an undirected edge list, with an id nobody uses. -/
theorem printed_summary_counts_components_triangle :
    ∃ s, (system 1 triangle.graph).Reachable s ∧ s.control = .stopped ∧
      printTopN List.reverse s.shared.vtable =
        some
          { total := triangle.graph.adjacency.components.card
            non_trivial := (triangle.graph.adjacency.components.filter fun A => 1 < A.card).card
            largest := triangle.graph.adjacency.components.sup Finset.card } := by
  obtain ⟨s, hs, hstopped⟩ := exists_stopped 1 triangle.graph
  have hprint := printed_summary_counts_components 1 triangle.graph List.reverse List.reverse_perm
    (triangle.symmetric_graph rfl) s hs hstopped
  have hcard : triangle.graph.adjacency.components.card ≤ 6 := Finset.card_image_le
  rw [if_pos ⟨by decide, by omega⟩] at hprint
  exact ⟨s, hs, hstopped, hprint⟩

end FamGraph.ConnectedComponents
