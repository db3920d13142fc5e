/-
Module: FamGraph.Proofs.MaxDegree
Layer: Proofs
Purpose: When the utilities find the runtime's largest degree. Their backward differences are the
  degrees of all vertices but the last, whose list ends with the edge array, which they never see;
  and `maxd` divides by the hundredth part of the number of vertices.
Trusted boundary: none
Main exports: degree, maxDegreeLoop_eq, Memusage.maxDegree_eq, Maxd.maxDegree_eq, max_degree_iff
-/
import FamGraph.Core.MaxDegree
import FamGraph.Proofs.GaloisGr

namespace FamGraph

open LittleEndian Galois

/-- The length of the list of `v`. -/
def degree (index adj : List UInt8) (v : Nat) : Nat :=
  adjacencyEnd (wordAt 8 index) (numElements 8 index) (numElements 4 adj) v - wordAt 8 index v

section Loop

variable {index adj : List UInt8} {progress : Nat → Except Fault Unit}

/-- One iteration, on words that do not decrease. -/
theorem maxDegreeLoop_succ {i num_vertices prev_off m : Nat} (hlength : 8 * (i + 1) ≤ index.length)
    (hprev : prev_off ≤ wordAt 8 index i) (hprogress : progress i = .ok ()) :
    maxDegreeLoop progress i (num_vertices + 1) (index.drop (8 * i)) prev_off m =
      maxDegreeLoop progress (i + 1) num_vertices (index.drop (8 * (i + 1))) (wordAt 8 index i)
        (max m (wordAt 8 index i - prev_off)) := by
  have hword : ((index.drop (8 * i)).take 8).length = 8 := by
    rw [List.length_take, List.length_drop]
    omega
  have hlt : wordAt 8 index i < 2 ^ 64 := wordAt_lt 8 index i
  have hedges :
      (wordAt 8 index i + (2 ^ 64 - prev_off)) % 2 ^ 64 = wordAt 8 index i - prev_off := by omega
  have hoff : LittleEndian.decode ((index.drop (8 * i)).take 8) = wordAt 8 index i := rfl
  rw [maxDegreeLoop]
  simp only [hword, ne_eq, not_true_eq_false, if_false, hoff, hedges, hprogress, ok_bind,
    List.drop_drop]
  rw [Nat.max_comm, Nat.mul_succ]

/-- The loop from the second vertex on: the differences of neighbouring offsets. -/
theorem maxDegreeLoop_eq (h : WellFormedPair index adj) (hprogress : ∀ i, progress i = .ok ())
    {i n m : Nat} (hn : i + 1 + n = numElements 8 index) :
    maxDegreeLoop progress (i + 1) n (index.drop (8 * (i + 1))) (wordAt 8 index i) m =
      .ok ((List.range' i n).foldl (fun m v => max m (degree index adj v)) m) := by
  induction n generalizing i m with
  | zero => rw [maxDegreeLoop, List.range'_zero, List.foldl_nil]
  | succ n ih =>
      have hlength := mul_numElements_le 8 index
      have hdegree : degree index adj i = wordAt 8 index (i + 1) - wordAt 8 index i := by
        rw [degree, adjacencyEnd, if_neg (by omega)]
      rw [maxDegreeLoop_succ (by omega) (h.mono i (by omega)) (hprogress _), ← hdegree,
        ih (by omega), List.range'_succ, List.foldl_cons]

/-- What both utilities return, if no iteration faults: the largest degree of a vertex but the
    last. -/
theorem maxDegreeLoop_zero (h : WellFormedPair index adj) (hprogress : ∀ i, progress i = .ok ()) :
    maxDegreeLoop progress 0 (numElements 8 index) index 0 0 =
      .ok ((Finset.range (numElements 8 index - 1)).sup (degree index adj)) := by
  have hlength := mul_numElements_le 8 index
  have hpos := h.pos
  have hverts : numElements 8 index = numElements 8 index - 1 + 1 := by omega
  have hfirst :
      maxDegreeLoop progress 0 (numElements 8 index - 1 + 1) (index.drop (8 * 0)) 0 0 = _ :=
    maxDegreeLoop_succ (by omega) (Nat.zero_le _) (hprogress 0)
  rw [Nat.mul_zero, List.drop_zero, ← hverts] at hfirst
  rw [hfirst, maxDegreeLoop_eq h hprogress (by omega), h.first, Nat.sub_zero, Nat.max_zero,
    ← List.range_eq_range', foldl_max_range]

theorem Memusage.maxDegree_eq (h : WellFormedPair index adj) :
    Memusage.maxDegree index =
      .ok ((Finset.range (numElements 8 index - 1)).sup (degree index adj)) :=
  maxDegreeLoop_zero h fun _ => rfl

theorem Maxd.maxDegree_eq (h : WellFormedPair index adj) (hverts : 100 ≤ numElements 8 index) :
    Maxd.maxDegree index = .ok ((Finset.range (numElements 8 index - 1)).sup (degree index adj)) :=
  maxDegreeLoop_zero h fun _ => if_neg <| by
    have hfile : index.length / 8 = numElements 8 index := rfl
    omega

/-- On fewer than 100 vertices the first iteration of `maxd` divides by zero. -/
theorem Maxd.maxDegree_fault (h : WellFormedPair index adj) (hverts : numElements 8 index < 100) :
    Maxd.maxDegree index = .error .divisionByZero := by
  have hlength := mul_numElements_le 8 index
  have hpos := h.pos
  have hfile : index.length / 8 = numElements 8 index - 1 + 1 := by
    rw [Nat.sub_add_cancel hpos]
    rfl
  have hword : (index.take 8).length = 8 := by
    rw [List.length_take]
    omega
  have hprogress : Maxd.progress (numElements 8 index - 1 + 1) 0 = .error .divisionByZero :=
    if_pos (by omega)
  rw [Maxd.maxDegree, hfile]
  rw [maxDegreeLoop, if_neg (by rw [hword]; decide), hprogress]
  rfl

end Loop

/-! ### The runtime -/

section Runtime

variable {index adj : List UInt8} {n : Nat} {table : List Nat}

/-- What the client loads is the table of the index. -/
theorem loaded_iff : getNumVerts index = .ok n ∧ getVertexTable n index = .ok table ↔
    numElements 8 index < 2 ^ 32 ∧ n = numElements 8 index ∧ table = loadedTable index := by
  constructor
  · rintro ⟨hn, htable⟩
    have hverts : numElements 8 index < 2 ^ 32 := by
      by_contra hlarge
      have herror : getNumVerts index = .error "bad numeric conversion: positive overflow" :=
        if_neg hlarge
      rw [herror] at hn
      cases hn
    rw [getNumVerts_eq hverts] at hn
    cases hn
    rw [getVertexTable_loaded] at htable
    cases htable
    exact ⟨hverts, rfl, rfl⟩
  · rintro ⟨hverts, rfl, rfl⟩
    exact ⟨getNumVerts_eq hverts, getVertexTable_loaded index⟩

/-- The runtime takes the largest degree of all vertices. -/
theorem getMaxOutDegree_loaded (h : WellFormedPair index adj)
    (hverts : numElements 8 index < 2 ^ 32) :
    getMaxOutDegree (fun v => (loadedTable index).getD v 0) (numElements 8 index)
      (numElements 4 adj) = (Finset.range (numElements 8 index)).sup (degree index adj) := by
  rw [getMaxOutDegree, foldl_max_range]
  exact Finset.sup_congr rfl fun v hv => h.getNumEdges_eq hverts (Finset.mem_range.1 hv)

/-- The last value of a range may be left out of the largest exactly if it is 0 or not above
    another. -/
theorem sup_range_succ_eq_iff (f : Nat → Nat) (n : Nat) :
    (Finset.range n).sup f = (Finset.range (n + 1)).sup f ↔ f n = 0 ∨ ∃ v < n, f n ≤ f v := by
  rw [Finset.range_add_one, Finset.sup_insert, eq_comm, sup_eq_right]
  rcases Nat.eq_zero_or_pos (f n) with hzero | hpos
  · simp [hzero]
  · rw [Finset.le_sup_iff hpos, or_iff_right (Nat.ne_of_gt hpos)]
    simp only [Finset.mem_range]

/-- Both utilities return the runtime's largest degree exactly if there are 100 vertices or more and
    the last has no edges or not more than another. -/
theorem max_degree_iff (h : WellFormedPair index adj) (hn : getNumVerts index = .ok n)
    (htable : getVertexTable n index = .ok table) :
    (Maxd.maxDegree index = .ok (getMaxOutDegree (fun v => table.getD v 0) n (numElements 4 adj)) ∧
      Memusage.maxDegree index =
        .ok (getMaxOutDegree (fun v => table.getD v 0) n (numElements 4 adj))) ↔
      100 ≤ n ∧ (degree index adj (n - 1) = 0 ∨
        ∃ v < n - 1, degree index adj (n - 1) ≤ degree index adj v) := by
  obtain ⟨hverts, rfl, rfl⟩ := loaded_iff.1 ⟨hn, htable⟩
  have hlast : numElements 8 index - 1 + 1 = numElements 8 index := Nat.sub_add_cancel h.pos
  have hsup := sup_range_succ_eq_iff (degree index adj) (numElements 8 index - 1)
  rw [hlast] at hsup
  rw [getMaxOutDegree_loaded h hverts, Memusage.maxDegree_eq h, Except.ok.injEq, hsup]
  refine and_congr_left fun hdegree => ?_
  rcases Nat.lt_or_ge (numElements 8 index) 100 with hsmall | hlarge
  · rw [Maxd.maxDegree_fault h hsmall]
    exact iff_of_false nofun (Nat.not_le.2 hsmall)
  · rw [Maxd.maxDegree_eq h hlarge, hsup.2 hdegree]
    exact iff_of_true rfl hlarge

end Runtime

/-! ### One edge each -/

section OneEach

variable {n : Nat}

/-- The index of `n` vertices with one edge each. -/
def eachIndex (n : Nat) : List UInt8 := encodeAll 8 (List.range n)

/-- All edges lead to the first vertex. -/
def eachAdj (n : Nat) : List UInt8 := encodeAll 4 (List.replicate n 0)

theorem numElements_eachIndex (n : Nat) : numElements 8 (eachIndex n) = n := by
  rw [eachIndex, numElements, length_encodeAll, List.length_range,
    Nat.mul_div_cancel_left _ (by decide)]

theorem numElements_eachAdj (n : Nat) : numElements 4 (eachAdj n) = n := by
  rw [eachAdj, numElements, length_encodeAll, List.length_replicate,
    Nat.mul_div_cancel_left _ (by decide)]

theorem wordAt_eachIndex {v : Nat} (hv : v < n) (hn : n < 2 ^ 32) : wordAt 8 (eachIndex n) v = v :=
  have hentry : (List.range n)[v]? = some v := List.getElem?_range hv
  wordAt_of_getElem? hentry (by omega)

theorem degree_each {v : Nat} (hv : v < n) (hn : n < 2 ^ 32) :
    degree (eachIndex n) (eachAdj n) v = 1 := by
  have hend : adjacencyEnd (wordAt 8 (eachIndex n)) n n v = v + 1 := by
    unfold adjacencyEnd
    split
    · omega
    · exact wordAt_eachIndex (by omega) hn
  rw [degree, numElements_eachIndex, numElements_eachAdj, wordAt_eachIndex hv hn, hend]
  exact Nat.add_sub_cancel_left v 1

theorem each_wellFormed (hpos : 0 < n) (hn : n < 2 ^ 32) :
    WellFormedPair (eachIndex n) (eachAdj n) where
  length_index := by
    rw [eachIndex, length_encodeAll, List.length_range]
    omega
  length_adj := by
    rw [eachAdj, length_encodeAll, List.length_replicate]
    omega
  pos := by
    rw [numElements_eachIndex]
    exact hpos
  first := wordAt_eachIndex hpos hn
  mono := by
    intro v hv
    rw [numElements_eachIndex] at hv
    rw [wordAt_eachIndex (by omega) hn, wordAt_eachIndex hv hn]
    exact Nat.le_succ v
  le := by
    intro v hv
    rw [numElements_eachIndex] at hv
    rw [wordAt_eachIndex hv hn, numElements_eachAdj]
    exact Nat.le_of_lt hv
  degree := by
    intro v hv
    rw [numElements_eachIndex] at hv
    exact Nat.lt_of_le_of_lt (Nat.le_of_eq (degree_each hv hn)) (by decide)

theorem each_loaded (hn : n < 2 ^ 32) :
    getNumVerts (eachIndex n) = .ok n ∧
      getVertexTable n (eachIndex n) = .ok (loadedTable (eachIndex n)) :=
  loaded_iff.2 ⟨by rw [numElements_eachIndex]; exact hn, (numElements_eachIndex n).symm, rfl⟩

end OneEach

/-- A hundred vertices with one edge each. -/
theorem max_degree_hundred : ∃ index adj n table,
    getNumVerts index = .ok n ∧ getVertexTable n index = .ok table ∧ numElements 4 adj = 100 ∧
      Maxd.maxDegree index = .ok (getMaxOutDegree (fun v => table.getD v 0) n (numElements 4 adj)) ∧
      Memusage.maxDegree index =
        .ok (getMaxOutDegree (fun v => table.getD v 0) n (numElements 4 adj)) := by
  obtain ⟨hn, htable⟩ := @each_loaded 100 (by decide)
  have hpair : WellFormedPair (eachIndex 100) (eachAdj 100) :=
    each_wellFormed (by decide) (by decide)
  have hfirst : degree (eachIndex 100) (eachAdj 100) 0 = 1 := degree_each (by decide) (by decide)
  have hlast : degree (eachIndex 100) (eachAdj 100) (100 - 1) = 1 :=
    degree_each (by decide) (by decide)
  have hboth := (max_degree_iff hpair hn htable).2
    ⟨Nat.le_refl _, .inr ⟨0, by decide, Nat.le_of_eq (hlast.trans hfirst.symm)⟩⟩
  exact ⟨_, _, 100, _, hn, htable, numElements_eachAdj 100, hboth⟩

theorem oneEdge_wellFormed : WellFormedPair (encodeAll 8 [0]) (encodeAll 4 [0]) where
  length_index := by decide
  length_adj := by decide
  pos := by decide
  first := by decide
  mono := by
    intro v hv
    have hcount : numElements 8 (encodeAll 8 [0]) = 1 := by decide
    omega
  le := by decide
  degree := by decide

/-- One vertex with one edge: `maxd` faults, and `memusage` returns 0 in place of 1. -/
theorem max_degree_one_vertex : WellFormedPair (encodeAll 8 [0]) (encodeAll 4 [0]) ∧
    getNumVerts (encodeAll 8 [0]) = .ok 1 ∧ getVertexTable 1 (encodeAll 8 [0]) = .ok [0] ∧
      ¬(Maxd.maxDegree (encodeAll 8 [0]) =
          .ok (getMaxOutDegree (fun v => [0].getD v 0) 1 (numElements 4 (encodeAll 4 [0]))) ∧
        Memusage.maxDegree (encodeAll 8 [0]) =
          .ok (getMaxOutDegree (fun v => [0].getD v 0) 1 (numElements 4 (encodeAll 4 [0])))) := by
  have hfault : Maxd.maxDegree (encodeAll 8 [0]) = .error .divisionByZero := by decide +kernel
  have hzero : Memusage.maxDegree (encodeAll 8 [0]) = .ok 0 := by decide +kernel
  have hone : getMaxOutDegree (fun v => [0].getD v 0) 1 (numElements 4 (encodeAll 4 [0])) = 1 := by
    decide +kernel
  refine ⟨oneEdge_wellFormed, by decide, by decide, ?_⟩
  rw [hfault, hzero, hone]
  decide

end FamGraph
