/-
Module: FamGraph.Proofs.EncodeWeighted
Layer: Proofs
Purpose: What the weighted converter writes. Its `.idx` file is the one the unweighted converter
  writes for the same arcs, and the records of its `.adj` file between two offsets are the arcs of a
  vertex with their weights. The runtime reads the file as plain words, so it finds twice as many
  edges and takes the weights for vertices.
Trusted boundary: none
Main exports: requestedW, records, encodeWeighted_eq, weighted_files_hold_records
-/
import FamGraph.Core.EncodeWeighted
import FamGraph.Proofs.EdgeListToCsr
import FamGraph.Proofs.EdgeListToWCsr

namespace FamGraph

/-! ### Lists in ascending order of a key -/

section Slices

variable {α : Type*} {key : α → Nat} {l : List α}

/-- An ascending list is its smaller, its equal and its larger part. -/
theorem eq_filter_append (h : l.Pairwise fun p q => key p ≤ key q) (k : Nat) :
    l = l.filter (key · < k) ++ (l.filter (key · = k) ++ l.filter (k < key ·)) := by
  induction l with
  | nil => rfl
  | cons p l ih =>
      obtain ⟨hp, h⟩ := List.pairwise_cons.1 h
      have hrest := ih h
      rcases Nat.lt_trichotomy (key p) k with hlt | heq | hgt
      · have hne : ¬ key p = k := Nat.ne_of_lt hlt
        have hngt : ¬ k < key p := Nat.lt_asymm hlt
        simpa [hlt, hne, hngt] using hrest
      · have hsmall : l.filter (key · < k) = [] := by
          rw [List.filter_eq_nil_iff]
          intro q hq
          simpa [heq] using hp q hq
        rw [hsmall, List.nil_append] at hrest
        simpa [heq, hsmall] using hrest
      · have hsmall : l.filter (key · < k) = [] := by
          rw [List.filter_eq_nil_iff]
          intro q hq
          simpa using Nat.le_trans (Nat.le_of_lt hgt) (hp q hq)
        have hequal : l.filter (key · = k) = [] := by
          rw [List.filter_eq_nil_iff]
          intro q hq
          simpa using Nat.ne_of_gt (Nat.lt_of_lt_of_le hgt (hp q hq))
        have hne : ¬ key p = k := Nat.ne_of_gt hgt
        have hnlt : ¬ key p < k := Nat.lt_asymm hgt
        rw [hsmall, hequal, List.nil_append, List.nil_append] at hrest
        simpa [hgt, hne, hnlt, hsmall, hequal] using hrest

/-- The equal part stands behind the smaller one. -/
theorem slice_eq_filter (h : l.Pairwise fun p q => key p ≤ key q) (k : Nat) :
    (l.drop (l.countP (key · < k))).take (l.countP (key · = k)) = l.filter (key · = k) := by
  have hparts := eq_filter_append h k
  rw [List.countP_eq_length_filter, List.countP_eq_length_filter]
  conv_lhs =>
    enter [2, 2]
    rw [hparts]
  rw [List.drop_left, List.take_left]

end Slices

/-! ### The arcs -/

/-- The weighted arcs of the graph the files stand for. -/
def requestedW (make_undirected : Bool) (input : List (Nat × Nat × Nat)) : List (Nat × Nat × Nat) :=
  input.flatMap fun p => if make_undirected then [p, (p.2.1, p.1, p.2.2)] else [p]

theorem map_dropWeight_requestedW (make_undirected : Bool) (input : List (Nat × Nat × Nat)) :
    (requestedW make_undirected input).map dropWeight =
      requested make_undirected (input.map dropWeight) := by
  rw [requestedW, requested, List.map_flatMap, List.flatMap_map]
  apply List.flatMap_congr
  intro p _
  cases make_undirected <;> rfl

/-- What the converter relies on: the tuples are ordered by origin, then by destination. -/
structure SortsTuples (sort : List (Nat × Nat × Nat) → List (Nat × Nat × Nat)) : Prop where
  perm : ∀ v, (sort v).Perm v
  sorted : ∀ v, (sort v).Pairwise fun p q => PairLe (dropWeight p) (dropWeight q)

/-- One turn of the reading loop. -/
theorem readWEdgeList_cons (make_undirected : Bool) (v : List (Nat × Nat × Nat)) (max_vert : Nat)
    (p : Nat × Nat × Nat) (input : List (Nat × Nat × Nat)) :
    readWEdgeList make_undirected v max_vert (p :: input) =
      if (v ++ if make_undirected then [p, (p.2.1, p.1, p.2.2)] else [p]).length ≤ maxTuples then
        readWEdgeList make_undirected
          (v ++ if make_undirected then [p, (p.2.1, p.1, p.2.2)] else [p])
          (max max_vert (max p.1 p.2.1)) input
      else .error "vector::_M_realloc_insert" := by
  obtain ⟨a, b, c⟩ := p
  by_cases hone : v.length < maxTuples
  · cases make_undirected with
    | false => simp [readWEdgeList, pushBackTuple, hone, Nat.succ_le_of_lt hone, bind, Except.bind]
    | true =>
        by_cases htwo : v.length + 1 < maxTuples
        · simp [readWEdgeList, pushBackTuple, hone, htwo, Nat.succ_le_of_lt htwo, bind, Except.bind]
        · have hfull : ¬ v.length + 2 ≤ maxTuples := htwo
          simp [readWEdgeList, pushBackTuple, hone, htwo, hfull, bind, Except.bind]
  · cases make_undirected with
    | false =>
        have hfull : ¬ v.length + 1 ≤ maxTuples := hone
        simp [readWEdgeList, pushBackTuple, hone, hfull, bind, Except.bind]
    | true =>
        have hfull : ¬ v.length + 2 ≤ maxTuples := fun h => hone (Nat.lt_of_succ_lt h)
        simp [readWEdgeList, pushBackTuple, hone, hfull, bind, Except.bind]

/-- The reading loop collects the requested arcs, as long as a vector can hold them. -/
theorem readWEdgeList_eq (make_undirected : Bool) (v : List (Nat × Nat × Nat)) (max_vert : Nat)
    (input : List (Nat × Nat × Nat)) (hv : v.length ≤ maxTuples) :
    readWEdgeList make_undirected v max_vert input =
      if (v ++ requestedW make_undirected input).length ≤ maxTuples then
        .ok (v ++ requestedW make_undirected input, max max_vert (largestId (input.map dropWeight)))
      else .error "vector::_M_realloc_insert" := by
  induction input generalizing v max_vert with
  | nil => simp [readWEdgeList, requestedW, largestId, hv]
  | cons p input ih =>
      have hcons : requestedW make_undirected (p :: input) =
          (if make_undirected then [p, (p.2.1, p.1, p.2.2)] else [p]) ++
            requestedW make_undirected input := rfl
      have hmax : largestId ((p :: input).map dropWeight) =
          max (max p.1 p.2.1) (largestId (input.map dropWeight)) := rfl
      rw [readWEdgeList_cons, hcons, hmax, ← List.append_assoc,
        ← max_assoc max_vert (max p.1 p.2.1) (largestId _)]
      generalize (v ++ if make_undirected then [p, (p.2.1, p.1, p.2.2)] else [p]) = v'
      by_cases hroom : v'.length ≤ maxTuples
      · rw [if_pos hroom, ih v' _ hroom]
      · have hfull : ¬ (v' ++ requestedW make_undirected input).length ≤ maxTuples := by
          rw [List.length_append]
          omega
        rw [if_neg hroom, if_neg hfull]

/-! ### The files -/

/-- The records as words: destination and weight in turn. -/
def recordWords (arcs : List (Nat × Nat × Nat)) : List Nat := arcs.flatMap fun p => [p.2.1, p.2.2]

/-- The records of an `.adj` file. -/
def records (adj : List UInt8) : List (Nat × Nat) :=
  (List.range (adj.length / 8)).map fun i =>
    (LittleEndian.wordAt 4 adj (2 * i), LittleEndian.wordAt 4 adj (2 * i + 1))

theorem length_recordWords (arcs : List (Nat × Nat × Nat)) :
    (recordWords arcs).length = 2 * arcs.length := by
  induction arcs with
  | nil => rfl
  | cons p arcs ih =>
      rw [recordWords, List.flatMap_cons, List.length_append, ← recordWords, ih, List.length_cons]
      simp only [List.length_cons, List.length_nil]
      omega

theorem getElem?_recordWords (arcs : List (Nat × Nat × Nat)) (i : Nat) :
    (recordWords arcs)[2 * i]? = arcs[i]?.map (fun p => p.2.1) ∧
      (recordWords arcs)[2 * i + 1]? = arcs[i]?.map fun p => p.2.2 := by
  induction arcs generalizing i with
  | nil => simp [recordWords]
  | cons p arcs ih =>
      cases i with
      | zero => exact ⟨rfl, rfl⟩
      | succ i => exact ih i

/-- The writing loop writes the records. -/
theorem adj_eq_recordWords (arcs : List (Nat × Nat × Nat)) :
    ((List.range arcs.length).flatMap fun idx =>
      LittleEndian.encode 4 ((arcs.map fun p => p.2.1).getD idx 0) ++
        LittleEndian.encode 4 ((arcs.map fun p => p.2.2).getD idx 0)) =
      LittleEndian.encodeAll 4 (recordWords arcs) := by
  induction arcs with
  | nil => rfl
  | cons p arcs ih =>
      rw [List.length_cons, List.range_succ_eq_map, List.flatMap_cons, List.flatMap_map,
        recordWords, List.flatMap_cons, ← recordWords]
      simp only [List.map_cons, List.getD_cons_zero, Nat.succ_eq_add_one, List.getD_cons_succ, ih,
        List.cons_append, List.nil_append, LittleEndian.encodeAll_cons, List.append_assoc]

/-- Reading the records gives them back. -/
theorem records_encodeAll {arcs : List (Nat × Nat × Nat)}
    (h : ∀ p ∈ arcs, p.2.1 < 2 ^ 32 ∧ p.2.2 < 2 ^ 32) :
    records (LittleEndian.encodeAll 4 (recordWords arcs)) = arcs.map Prod.snd := by
  have hlength : (LittleEndian.encodeAll 4 (recordWords arcs)).length / 8 = arcs.length := by
    rw [LittleEndian.length_encodeAll, length_recordWords]
    omega
  apply List.ext_getElem?
  intro i
  rw [records, hlength, List.getElem?_map, List.getElem?_map]
  by_cases hi : i < arcs.length
  · obtain ⟨hdest, hweight⟩ := getElem?_recordWords arcs i
    rw [List.getElem?_eq_getElem hi, Option.map_some] at hdest hweight
    obtain ⟨hd, hw⟩ := h arcs[i] (List.getElem_mem hi)
    rw [List.getElem?_range hi, List.getElem?_eq_getElem hi, Option.map_some, Option.map_some,
      LittleEndian.wordAt_of_getElem? hdest hd, LittleEndian.wordAt_of_getElem? hweight hw]
  · rw [List.getElem?_eq_none (by simpa using hi), List.getElem?_eq_none (by simpa using hi)]
    rfl

/-! ### The converter -/

section Converter

variable {sort : List (Nat × Nat × Nat) → List (Nat × Nat × Nat)} {make_undirected : Bool}
  {input : List (Nat × Nat × Nat)}

theorem SortsTuples.sortedByOrigin (h : SortsTuples sort) (v : List (Nat × Nat × Nat)) :
    (sort v).Pairwise fun p q => p.1 ≤ q.1 := by
  apply (h.sorted v).imp
  intro p q hpq
  cases hpq with
  | inl hlt => exact Nat.le_of_lt hlt
  | inr heq => exact Nat.le_of_eq heq.1

/-- The ids of the requested arcs are those of the input. -/
theorem le_largestId_requestedW {p : Nat × Nat × Nat} (h : p ∈ requestedW make_undirected input) :
    p.1 ≤ largestId (input.map dropWeight) ∧ p.2.1 ≤ largestId (input.map dropWeight) := by
  have hmem : dropWeight p ∈ requested make_undirected (input.map dropWeight) := by
    rw [← map_dropWeight_requestedW]
    exact List.mem_map_of_mem h
  exact le_largestId hmem

/-- Weights are only moved. -/
theorem weight_requestedW {p : Nat × Nat × Nat} (h : p ∈ requestedW make_undirected input) :
    ∃ q ∈ input, p.2.2 = q.2.2 := by
  obtain ⟨q, hq, hp⟩ := List.mem_flatMap.1 h
  refine ⟨q, hq, ?_⟩
  cases make_undirected with
  | false =>
      rw [List.mem_singleton.1 hp]
  | true =>
      cases List.mem_cons.1 hp with
      | inl heq => rw [heq]
      | inr hback => rw [List.mem_singleton.1 hback]

/-- What the weighted converter writes for the requested arcs. -/
theorem encodeWeighted_eq (hsort : SortsTuples sort)
    (hids : ∀ p ∈ input, p.1 ≤ 2 ^ 32 - 2 ∧ p.2.1 ≤ 2 ^ 32 - 2)
    (hroom : (requestedW make_undirected input).length ≤ maxTuples) :
    encodeWeighted sort make_undirected false input =
      .ok (LittleEndian.encodeAll 8 ((List.range (largestId (input.map dropWeight) + 1)).map
          (pairsBefore (requested make_undirected (input.map dropWeight)))),
        LittleEndian.encodeAll 4 (recordWords (sort (requestedW make_undirected input)))) := by
  have hread := readWEdgeList_eq make_undirected [] 0 input (Nat.zero_le _)
  rw [List.nil_append, Nat.zero_max, if_pos hroom] at hread
  have hmax : largestId (input.map dropWeight) ≤ 2 ^ 32 - 2 := by
    apply largestId_le
    intro p hp
    obtain ⟨q, hq, rfl⟩ := List.mem_map.1 hp
    exact hids q hq
  have hperm := hsort.perm (requestedW make_undirected input)
  have horigin :
      ∀ p ∈ sort (requestedW make_undirected input), p.1 ≤ largestId (input.map dropWeight) :=
    fun p hp => (le_largestId_requestedW (hperm.mem_iff.1 hp)).1
  obtain ⟨hdest, hval⟩ := edgeListToWCsr_stored (sort (requestedW make_undirected input))
    (largestId (input.map dropWeight))
  have hsorted : SortedByOrigin ((sort (requestedW make_undirected input)).map dropWeight) :=
    List.pairwise_map.2 (hsort.sortedByOrigin _)
  have hbefore : pairsBefore ((sort (requestedW make_undirected input)).map dropWeight) =
      pairsBefore (requested make_undirected (input.map dropWeight)) := by
    funext row
    rw [← map_dropWeight_requestedW]
    exact (hperm.map dropWeight).countP_eq _
  have hindex := edgeListToWCsr_index_eq horigin (by omega)
  rw [edgeListToCsr_eq hsorted (by omega) (le_max_dropWeight horigin), hbefore] at hindex
  simp only [encodeWeighted, hread, bind, Except.bind, Bool.false_eq_true, if_false, hindex, hdest,
    hval, List.length_map, adj_eq_recordWords]
  rfl

/-- The offsets read back from the `.idx` file. -/
theorem wordAt_pairsBefore_requestedW
    (hroom : (requestedW make_undirected input).length ≤ maxTuples) {v : Nat}
    (hv : v ≤ largestId (input.map dropWeight)) :
    LittleEndian.wordAt 8
      (LittleEndian.encodeAll 8 ((List.range (largestId (input.map dropWeight) + 1)).map
        (pairsBefore (requested make_undirected (input.map dropWeight))))) v =
      (requestedW make_undirected input).countP fun p => p.1 < v := by
  have hget : ((List.range (largestId (input.map dropWeight) + 1)).map
      (pairsBefore (requested make_undirected (input.map dropWeight))))[v]? =
      some ((requestedW make_undirected input).countP fun p => p.1 < v) := by
    rw [List.getElem?_map, List.getElem?_range (Nat.lt_succ_of_le hv), Option.map_some, pairsBefore,
      ← map_dropWeight_requestedW, List.countP_map]
    rfl
  apply LittleEndian.wordAt_of_getElem? hget
  have hle : ((requestedW make_undirected input).countP fun p => p.1 < v) ≤ maxTuples :=
    Nat.le_trans List.countP_le_length hroom
  exact Nat.lt_of_le_of_lt hle (by decide)

theorem sortsTuples_mergeSort :
    SortsTuples fun v => v.mergeSort fun p q => decide (PairLe (dropWeight p) (dropWeight q)) where
  perm v := List.mergeSort_perm v _
  sorted v := by
    have hsorted : (v.mergeSort fun p q => decide (PairLe (dropWeight p) (dropWeight q))).Pairwise
        fun p q => decide (PairLe (dropWeight p) (dropWeight q)) = true := by
      apply List.pairwise_mergeSort
      · intro p q r hpq hqr
        have hpq := of_decide_eq_true hpq
        have hqr := of_decide_eq_true hqr
        apply decide_eq_true
        simp only [PairLe] at hpq hqr ⊢
        omega
      · intro p q
        rw [Bool.or_eq_true, decide_eq_true_eq, decide_eq_true_eq]
        simp only [PairLe]
        omega
    exact hsorted.imp of_decide_eq_true

/-- The weighted converter's files. The `.idx` file is the one the unweighted converter writes for
    the arcs without their weights; between two offsets the `.adj` file has the records of a vertex,
    its arcs with their weights in ascending order of their destinations. To the runtime the `.adj`
    file is twice as many edges, each second one a weight. -/
theorem weighted_files_hold_records (sort : List (Nat × Nat × Nat) → List (Nat × Nat × Nat))
    (hsort : SortsTuples sort) (make_undirected : Bool) (input : List (Nat × Nat × Nat))
    (hids : ∀ p ∈ input, p.1 ≤ 2 ^ 32 - 2 ∧ p.2.1 ≤ 2 ^ 32 - 2 ∧ p.2.2 < 2 ^ 32)
    (hroom : (requestedW make_undirected input).length ≤ maxTuples) :
    ∃ idx adj, encodeWeighted sort make_undirected false input = .ok (idx, adj) ∧
      (∀ sortPairs, SortsPairs sortPairs → ∃ adjUnweighted,
        encodeUnweighted sortPairs make_undirected false (input.map dropWeight) =
          .ok (idx, adjUnweighted)) ∧
      (∀ v ≤ largestId (input.map dropWeight),
        let row := ((records adj).drop (LittleEndian.wordAt 8 idx v)).take
          ((requestedW make_undirected input).countP fun p => p.1 = v)
        row.Perm (((requestedW make_undirected input).filter fun p => p.1 = v).map Prod.snd) ∧
          row.Pairwise fun r s => r.1 ≤ s.1) ∧
      numElements 4 adj = 2 * (requestedW make_undirected input).length ∧
      getEdgeList adj = (records adj).flatMap fun r => [r.1, r.2] := by
  have hids' : ∀ p ∈ input, p.1 ≤ 2 ^ 32 - 2 ∧ p.2.1 ≤ 2 ^ 32 - 2 :=
    fun p hp => ⟨(hids p hp).1, (hids p hp).2.1⟩
  have hperm := hsort.perm (requestedW make_undirected input)
  have hwords : ∀ p ∈ sort (requestedW make_undirected input), p.2.1 < 2 ^ 32 ∧ p.2.2 < 2 ^ 32 := by
    intro p hp
    have hmax : largestId (input.map dropWeight) ≤ 2 ^ 32 - 2 := by
      apply largestId_le
      intro q hq
      obtain ⟨q', hq', rfl⟩ := List.mem_map.1 hq
      exact hids' q' hq'
    obtain ⟨q, hq, hweight⟩ := weight_requestedW (hperm.mem_iff.1 hp)
    have hdest := (le_largestId_requestedW (hperm.mem_iff.1 hp)).2
    exact ⟨by omega, hweight ▸ (hids q hq).2.2⟩
  have hrecords := records_encodeAll hwords
  refine ⟨_, _, encodeWeighted_eq hsort hids' hroom, ?_, ?_, ?_, ?_⟩
  · intro sortPairs hsortPairs
    have hpairs : ∀ p ∈ input.map dropWeight, p.1 ≤ 2 ^ 32 - 2 ∧ p.2 ≤ 2 ^ 32 - 2 := by
      intro p hp
      obtain ⟨q, hq, rfl⟩ := List.mem_map.1 hp
      exact hids' q hq
    have hbefore : pairsBefore (sortPairs (requested make_undirected (input.map dropWeight))) =
        pairsBefore (requested make_undirected (input.map dropWeight)) :=
      funext fun row => (hsortPairs.perm _).countP_eq _
    have hfits : (requested make_undirected (input.map dropWeight)).length ≤ maxPairs := by
      rw [← map_dropWeight_requestedW, List.length_map]
      exact Nat.le_trans hroom (by decide)
    rw [encodeUnweighted_eq hsortPairs make_undirected hpairs, if_pos hfits, hbefore]
    exact ⟨_, rfl⟩
  · intro v hv
    have hoffset := wordAt_pairsBefore_requestedW hroom hv
    have hslice := slice_eq_filter (hsort.sortedByOrigin (requestedW make_undirected input)) v
    rw [hperm.countP_eq, hperm.countP_eq] at hslice
    simp only [hrecords, hoffset, ← List.map_drop, ← List.map_take, hslice]
    refine ⟨(hperm.filter _).map _, ?_⟩
    rw [List.pairwise_map]
    apply List.Pairwise.imp_of_mem _ ((hsort.sorted (requestedW make_undirected input)).filter _)
    intro p q hp hq hpq
    have hpv : p.1 = v := of_decide_eq_true (List.mem_filter.1 hp).2
    have hqv : q.1 = v := of_decide_eq_true (List.mem_filter.1 hq).2
    cases hpq with
    | inl hlt => exact absurd (hpv.trans hqv.symm) (Nat.ne_of_lt hlt)
    | inr heq => exact heq.2
  · rw [numElements_encodeAll, length_recordWords, hperm.length_eq]
  · have hall : ∀ x ∈ recordWords (sort (requestedW make_undirected input)), x < 2 ^ 32 := by
      intro x hx
      obtain ⟨p, hp, hmem⟩ := List.mem_flatMap.1 hx
      cases List.mem_cons.1 hmem with
      | inl hdest => exact hdest ▸ (hwords p hp).1
      | inr hweight => exact List.mem_singleton.1 hweight ▸ (hwords p hp).2
    rw [getEdgeList_encodeAll hall, hrecords, List.flatMap_map]
    rfl

/-- Two arcs with weights, in the wrong order. -/
theorem weighted_files_hold_records_two :
    ∃ idx adj, encodeWeighted
      (fun v => v.mergeSort fun p q => decide (PairLe (dropWeight p) (dropWeight q))) false
        false [(1, 0, 7), (0, 1, 5)] = .ok (idx, adj) ∧ numElements 4 adj = 4 := by
  obtain ⟨idx, adj, hencode, -, -, hsize, -⟩ :=
    weighted_files_hold_records _ sortsTuples_mergeSort false [(1, 0, 7), (0, 1, 5)] (by decide)
      (by decide)
  exact ⟨idx, adj, hencode, hsize⟩

end Converter

end FamGraph
