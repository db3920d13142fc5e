/-
Module: FamGraph.Proofs.GaloisTools
Layer: Proofs
Purpose: The two Galois tools used together. Converting two graphs and comparing the files tells the
  graphs apart: on graphs of one size the reports are the entries that differ, in order, and a
  comparison in both directions is silent on one and the same graph only.
Trusted boundary: none
Main exports: difference, SameFiles, compareFor_words, conversions_compare
-/
import FamGraph.Proofs.CompareGr

namespace FamGraph.Galois

open LittleEndian

/-- What is said about one entry of two arrays. -/
def difference (a b : Nat → Nat) (i : Nat) : Option Report :=
  if a i ≠ b i then some (.differs i (a i) (b i)) else none

/-- Two `.idx` files and two `.adj` files with the same words. -/
structure SameFiles (index adj index' adj' : List UInt8) : Prop where
  num_vertices : numElements 8 index = numElements 8 index'
  offsets : ∀ v < numElements 8 index, wordAt 8 index v = wordAt 8 index' v
  num_edges : numElements 4 adj = numElements 4 adj'
  words : ∀ e < numElements 4 adj, wordAt 4 adj e = wordAt 4 adj' e

/-! ### Reports -/

/-- `compare_for` on two arrays of one length reports the entries that differ, in order. -/
theorem compareFor_words {size_of i n : Nat} {a b : Nat → Nat} {restA restB : List UInt8}
    (ha : ∀ j < i + n, a j < 256 ^ size_of) (hb : ∀ j < i + n, b j < 256 ^ size_of) :
    compareFor size_of i n (encodeAll size_of ((List.range' i n).map a) ++ restA)
      (encodeAll size_of ((List.range' i n).map b) ++ restB) =
      ((List.range' i n).filterMap (difference a b), .ok (restA, restB)) := by
  induction n generalizing i with
  | zero => rfl
  | succ n ih =>
      have hi : i < i + (n + 1) := Nat.lt_add_of_pos_right (Nat.succ_pos n)
      have hrest : ∀ j, j < i + 1 + n → j < i + (n + 1) := by
        intro j hj
        rwa [Nat.add_right_comm] at hj
      have hloop := ih (i := i + 1) (fun j hj => ha j (hrest j hj)) fun j hj => hb j (hrest j hj)
      rw [List.range'_succ, List.map_cons, List.map_cons, encodeAll_cons, encodeAll_cons,
        List.append_assoc, List.append_assoc, compareFor, readOne_encode (ha i hi)]
      dsimp only
      rw [readOne_encode (hb i hi)]
      dsimp only
      rw [hloop, List.filterMap_cons, difference]
      split <;> rfl

theorem compareFor_range {size_of n : Nat} {a b : Nat → Nat} (restA restB : List UInt8)
    (ha : ∀ j < n, a j < 256 ^ size_of) (hb : ∀ j < n, b j < 256 ^ size_of) :
    compareFor size_of 0 n (encodeAll size_of ((List.range n).map a) ++ restA)
      (encodeAll size_of ((List.range n).map b) ++ restB) =
      ((List.range n).filterMap (difference a b), .ok (restA, restB)) := by
  rw [List.range_eq_range']
  apply compareFor_words <;> rwa [Nat.zero_add]

/-- A bound on the entries of an array bounds the function that gives them. -/
theorem lt_of_map_range {entries : List Nat} {n bound : Nat} {f : Nat → Nat}
    (h : entries = (List.range n).map f) (hbound : ∀ x ∈ entries, x < bound) :
    ∀ i < n, f i < bound := by
  intro i hi
  apply hbound
  rw [h]
  exact List.mem_map_of_mem (List.mem_range.2 hi)

/-- Under one header the arrays are compared entry by entry, first the end offsets. -/
theorem compareGr_of_arrays {A B : GrFile} (hA : A.Valid) (hB : B.Valid) {V E : Nat}
    {ends ends' dests dests' : Nat → Nat} (hV : A.num_vertices = V) (hE : A.num_edges = E)
    (hends : A.ends = (List.range V).map ends) (hends' : B.ends = (List.range V).map ends')
    (hdests : A.dests = (List.range E).map dests) (hdests' : B.dests = (List.range E).map dests') :
    compareGr A.bytes B.bytes =
      (List.range V).filterMap (difference ends ends') ++
        (List.range E).filterMap (difference dests dests') := by
  have hoffset : ∀ v < V, ends v < 256 ^ 8 := lt_of_map_range hends hA.ends_lt
  have hoffset' : ∀ v < V, ends' v < 256 ^ 8 := lt_of_map_range hends' hB.ends_lt
  have hdest : ∀ e < E, dests e < 256 ^ 4 := lt_of_map_range hdests hA.dests_lt
  have hdest' : ∀ e < E, dests' e < 256 ^ 4 := lt_of_map_range hdests' hB.dests_lt
  have hindex := compareFor_range (encodeAll 4 ((List.range E).map dests) ++ A.padding)
    (encodeAll 4 ((List.range E).map dests') ++ B.padding) hoffset hoffset'
  have hadj := compareFor_range A.padding B.padding hdest hdest'
  rw [compareGr, compareHeaders_bytes hA hB]
  dsimp only
  rw [GrFile.payload, GrFile.payload, List.append_assoc, List.append_assoc, hV, hE, hends, hends',
    hdests, hdests', hindex]
  dsimp only
  rw [hadj]

section Tools

variable {index adj index' adj' : List UInt8}

/-- End offsets of one graph, as `fg2gr` writes them: the offset of the next vertex, or the number
    of edges. -/
theorem ends_grOf (hpos : 0 < numElements 8 index) : (grOf index adj).ends =
    (List.range (numElements 8 index)).map
      (adjacencyEnd (wordAt 8 index) (numElements 8 index) (numElements 4 adj)) := by
  have hlength : (grOf index adj).ends.length = numElements 8 index := by
    simp only [grOf, List.length_append, List.length_map, List.length_range, List.length_singleton]
    exact Nat.sub_add_cancel hpos
  apply List.ext_getElem
  · rw [hlength, List.length_map, List.length_range]
  · intro v hv _
    rw [List.getElem_map, List.getElem_range, ← getD_ends (hlength ▸ hv),
      List.getD_eq_getElem?_getD, List.getElem?_eq_getElem hv, Option.getD_some]

/-- The entries of the index section: the offsets from that of vertex 1 on, each under the number
    before. -/
theorem filterMap_ends (hpos : 0 < numElements 8 index)
    (hverts : numElements 8 index = numElements 8 index')
    (hedges : numElements 4 adj = numElements 4 adj') :
    (List.range (numElements 8 index)).filterMap (difference
      (adjacencyEnd (wordAt 8 index) (numElements 8 index) (numElements 4 adj))
      (adjacencyEnd (wordAt 8 index') (numElements 8 index') (numElements 4 adj'))) =
      (List.range (numElements 8 index - 1)).filterMap
        (difference (fun v => wordAt 8 index (v + 1)) fun v => wordAt 8 index' (v + 1)) := by
  rw [← hverts, ← hedges]
  obtain ⟨n, hn⟩ := Nat.exists_eq_succ_of_ne_zero (Nat.ne_of_gt hpos)
  -- the last entry is the number of edges in both
  have hlast : difference (adjacencyEnd (wordAt 8 index) (n + 1) (numElements 4 adj))
      (adjacencyEnd (wordAt 8 index') (n + 1) (numElements 4 adj)) n = none := by
    rw [difference, adjacencyEnd, adjacencyEnd, if_pos rfl, if_pos rfl, if_neg (not_not_intro rfl)]
  rw [hn, Nat.succ_eq_add_one, Nat.add_sub_cancel, List.range_succ, List.filterMap_append,
    List.filterMap_cons_none hlast, List.filterMap_nil, List.append_nil]
  apply List.filterMap_congr
  intro v hv
  have hv : v < n := List.mem_range.1 hv
  rw [difference, difference, adjacencyEnd, adjacencyEnd,
    if_neg (Nat.ne_of_lt (Nat.succ_lt_succ hv)), if_neg (Nat.ne_of_lt (Nat.succ_lt_succ hv))]

/-- Converted graphs of one size: the entries that differ are reported, first those of the index. -/
theorem compareGr_grOf (h : WellFormedPair index adj) (h' : WellFormedPair index' adj')
    (hverts : numElements 8 index = numElements 8 index')
    (hedges : numElements 4 adj = numElements 4 adj') :
    compareGr (grOf index adj).bytes (grOf index' adj').bytes =
      (List.range (numElements 8 index - 1)).filterMap
        (difference (fun v => wordAt 8 index (v + 1)) fun v => wordAt 8 index' (v + 1)) ++
      (List.range (numElements 4 adj)).filterMap (difference (wordAt 4 adj) (wordAt 4 adj')) := by
  rw [← filterMap_ends h.pos hverts hedges]
  have hends' : (grOf index' adj').ends = (List.range (numElements 8 index)).map
      (adjacencyEnd (wordAt 8 index') (numElements 8 index') (numElements 4 adj')) := by
    rw [hverts]
    exact ends_grOf h'.pos
  have hdests' :
      (grOf index' adj').dests = (List.range (numElements 4 adj)).map (wordAt 4 adj') := by
    rw [hedges]
    rfl
  exact compareGr_of_arrays h.grOf_valid h'.grOf_valid rfl rfl (ends_grOf h.pos) hends' rfl hdests'

theorem filterMap_difference_eq_nil {n : Nat} {a b : Nat → Nat} :
    (List.range n).filterMap (difference a b) = [] ↔ ∀ i < n, a i = b i := by
  rw [List.filterMap_eq_nil_iff]
  constructor
  · intro hnone i hi
    by_contra hne
    have hnone := hnone i (List.mem_range.2 hi)
    rw [difference, if_pos hne] at hnone
    cases hnone
  · intro hsame i hi
    rw [difference, if_neg (not_not_intro (hsame i (List.mem_range.1 hi)))]

/-- On graphs of one size the comparison is silent just if the graphs are the same. -/
theorem compareGr_grOf_silent (h : WellFormedPair index adj) (h' : WellFormedPair index' adj')
    (hverts : numElements 8 index = numElements 8 index')
    (hedges : numElements 4 adj = numElements 4 adj') :
    compareGr (grOf index adj).bytes (grOf index' adj').bytes = [] ↔
    SameFiles index adj index' adj' := by
  rw [compareGr_grOf h h' hverts hedges, List.append_eq_nil_iff, filterMap_difference_eq_nil,
    filterMap_difference_eq_nil]
  constructor
  · intro hsame
    obtain ⟨hoffsets, hwords⟩ := hsame
    refine ⟨hverts, ?_, hedges, hwords⟩
    intro v hv
    cases v with
    | zero => rw [h.first, h'.first]
    | succ v => exact hoffsets v (Nat.lt_sub_of_add_lt hv)
  · intro hsame
    exact ⟨fun v hv => hsame.offsets (v + 1) (Nat.add_lt_of_lt_sub hv), hsame.words⟩

/-- Two graphs are converted and the files compared. Comparing in both directions is silent just if
    the `.idx` files and the `.adj` files have the same words; on graphs of one size the comparison
    reports the offsets that differ, each under the number of the vertex before, and then the edges
    that differ. -/
theorem conversions_compare (h : WellFormedPair index adj) (h' : WellFormedPair index' adj') :
    ∃ A B, fg2gr index adj = .ok A ∧ fg2gr index' adj' = .ok B ∧
      (compareGr A B = [] ∧ compareGr B A = [] ↔ SameFiles index adj index' adj') ∧
      (numElements 8 index = numElements 8 index' → numElements 4 adj = numElements 4 adj' →
        compareGr A B =
          (List.range (numElements 8 index - 1)).filterMap
            (difference (fun v => wordAt 8 index (v + 1)) fun v => wordAt 8 index' (v + 1)) ++
          (List.range (numElements 4 adj)).filterMap
            (difference (wordAt 4 adj) (wordAt 4 adj'))) := by
  refine ⟨_, _, h.fg2gr_eq, h'.fg2gr_eq, ?_, compareGr_grOf h h'⟩
  constructor
  · intro hsilent
    obtain ⟨hAB, hBA⟩ := hsilent
    rw [compareGr_silent h.grOf_valid h'.grOf_valid] at hAB
    rw [compareGr_silent h'.grOf_valid h.grOf_valid] at hBA
    by_cases hheader : (grOf index adj).num_vertices = (grOf index' adj').num_vertices ∧
        (grOf index adj).num_edges = (grOf index' adj').num_edges
    · rw [← compareGr_silent h.grOf_valid h'.grOf_valid] at hAB
      exact (compareGr_grOf_silent h h' hheader.1 hheader.2).1 hAB
    · -- with different headers each of the two would have fewer vertices
      have hlt := (fewer_of_silent h.grOf_wellFormed h'.grOf_wellFormed hheader hAB).1
      have hgt := (fewer_of_silent h'.grOf_wellFormed h.grOf_wellFormed
        (fun heq => hheader ⟨heq.1.symm, heq.2.symm⟩) hBA).1
      exact absurd hlt (Nat.lt_asymm hgt)
  · intro hsame
    have hsymm : SameFiles index' adj' index adj :=
      { num_vertices := hsame.num_vertices.symm
        offsets := fun v hv => (hsame.offsets v (hsame.num_vertices ▸ hv)).symm
        num_edges := hsame.num_edges.symm
        words := fun e he => (hsame.words e (hsame.num_edges ▸ he)).symm }
    exact ⟨(compareGr_grOf_silent h h' hsame.num_vertices hsame.num_edges).2 hsame,
      (compareGr_grOf_silent h' h hsymm.num_vertices hsymm.num_edges).2 hsymm⟩

end Tools

/-- Two vertices with an edge each way and two vertices with both edges at the first: the offset of
    vertex 1 is reported under 0. -/
theorem conversions_compare_two : ∃ A B,
    fg2gr (encodeAll 8 [0, 1]) (encodeAll 4 [1, 0]) = .ok A ∧
      fg2gr (encodeAll 8 [0, 2]) (encodeAll 4 [1, 1]) = .ok B ∧
      compareGr A B = [.differs 0 1 2, .differs 1 0 1] := by
  have hmono : ∀ index : List UInt8, numElements 8 index = 2 → wordAt 8 index 0 ≤ wordAt 8 index 1 →
      ∀ v, v + 1 < numElements 8 index → wordAt 8 index v ≤ wordAt 8 index (v + 1) := by
    intro index hcount hle v hv
    have hzero : v = 0 := by omega
    rw [hzero]
    exact hle
  have hone : WellFormedPair (encodeAll 8 [0, 1]) (encodeAll 4 [1, 0]) :=
    ⟨by decide, by decide, by decide, by decide, hmono _ (by decide) (by decide), by decide,
      by decide⟩
  have htwo : WellFormedPair (encodeAll 8 [0, 2]) (encodeAll 4 [1, 1]) :=
    ⟨by decide, by decide, by decide, by decide, hmono _ (by decide) (by decide), by decide,
      by decide⟩
  obtain ⟨A, B, hA, hB, -, hreports⟩ := conversions_compare hone htwo
  exact ⟨A, B, hA, hB, (hreports (by decide) (by decide)).trans (by decide)⟩

end FamGraph.Galois
