/-
Module: FamGraph.Proofs.CompareGr
Layer: Proofs
Purpose: What a silent run of `compare_gr` says. The header test joins its four comparisons with
  `||` and all files have version 1, so it never fails; the counts of the first file then steer both
  streams. The run is silent if and only if the arrays of the first file, as bytes, begin what
  stands behind the header of the second. On files as `fg2gr` writes them this is more than equality
  exactly if the first has fewer vertices.
Trusted boundary: none
Main exports: GrFile.WellFormed, compareFor_silent, compareGr_silent, compareGr_iff
-/
import FamGraph.Proofs.GaloisGr

namespace FamGraph.Galois

open LittleEndian

/-- A file as `fg2gr` writes it: at least one vertex, nondecreasing end offsets, and the last is the
    number of edges. -/
structure GrFile.WellFormed (g : GrFile) : Prop extends g.Valid where
  pos : 0 < g.num_vertices
  mono : ∀ v, v + 1 < g.num_vertices → g.ends.getD v 0 ≤ g.ends.getD (v + 1) 0
  last : g.ends.getD (g.num_vertices - 1) 0 = g.num_edges

theorem WellFormedPair.grOf_wellFormed {index adj : List UInt8} (h : WellFormedPair index adj) :
    (grOf index adj).WellFormed where
  toValid := h.grOf_valid
  pos := h.pos
  mono := by
    intro v hv
    have hv : v + 1 < numElements 8 index := hv
    rw [getD_ends (by omega), getD_ends hv, adjacencyEnd, if_neg (by omega), adjacencyEnd]
    split
    · exact h.le _ hv
    · exact h.mono _ (by omega)
  last := by
    have hpos := h.pos
    have hlast : (grOf index adj).num_vertices - 1 + 1 = numElements 8 index :=
      Nat.sub_add_cancel hpos
    rw [getD_ends (by omega), adjacencyEnd, if_pos hlast]
    rfl

theorem GrFile.WellFormed.ends_le {g : GrFile} (h : g.WellFormed) {v w : Nat} (hvw : v ≤ w)
    (hw : w < g.num_vertices) : g.ends.getD v 0 ≤ g.ends.getD w 0 := by
  induction w, hvw using Nat.le_induction with
  | base => exact Nat.le_refl _
  | succ w _ ih => exact Nat.le_trans (ih (by omega)) (h.mono w hw)

/-- No end offset is beyond the edge array. -/
theorem GrFile.WellFormed.ends_le_num_edges {g : GrFile} (h : g.WellFormed) {v : Nat}
    (hv : v < g.num_vertices) :
    g.ends.getD v 0 ≤ g.num_edges := by
  rw [← h.last]
  exact h.ends_le (by omega) (by omega)

/-! ### The comparison loop -/

/-- A word that fits is read back and leaves what stands behind it. -/
theorem readOne_encode {size_of x : Nat} (hx : x < 256 ^ size_of) (s : List UInt8) :
    readOne size_of (encode size_of x ++ s) = .ok (x, s) := by
  have hlength : (encode size_of x).length = size_of := length_encode size_of x
  have htake : (encode size_of x ++ s).take size_of = encode size_of x := by
    rw [List.take_append_of_le_length (Nat.le_of_eq hlength.symm),
      List.take_of_length_le (Nat.le_of_eq hlength)]
  have hdrop : (encode size_of x ++ s).drop size_of = s := List.drop_left' hlength
  rw [readOne_eq (by rw [List.length_append]; omega), htake, hdrop, decode_encode_of_lt hx]

theorem readOne_word {x : Nat} (hx : x < 2 ^ 64) (s : List UInt8) :
    readOne 8 (encode 8 x ++ s) = .ok (x, s) :=
  readOne_encode hx s

/-- A stream gives a word if and only if it begins with its bytes. -/
theorem readOne_eq_ok_iff {size_of : Nat} {s rest : List UInt8} {x : Nat} :
    readOne size_of s = .ok (x, rest) ↔
    ∃ word : List UInt8, word.length = size_of ∧ LittleEndian.decode word = x ∧
      s = word ++ rest := by
  constructor
  · intro h
    by_cases hlength : size_of ≤ s.length
    · rw [readOne_eq hlength] at h
      cases h
      exact ⟨s.take size_of,
        by rw [List.length_take, Nat.min_eq_left hlength], rfl, (List.take_append_drop _ _).symm⟩
    · rw [readOne] at h
      have hshort : (s.take size_of).length ≠ size_of := by
        rw [List.length_take]
        omega
      rw [if_pos hshort] at h
      cases h
  · rintro ⟨word, rfl, rfl, rfl⟩
    rw [readOne_eq (by rw [List.length_append]; omega), List.take_left, List.drop_left]

/-- `compare_for` is silent if and only if both streams begin with the same words. -/
theorem compareFor_silent {size_of i n : Nat} {a b restA restB : List UInt8} :
    compareFor size_of i n a b = ([], .ok (restA, restB)) ↔
      ∃ words : List UInt8, words.length = size_of * n ∧ a = words ++ restA ∧
      b = words ++ restB := by
  induction n generalizing i a b with
  | zero =>
      simp only [compareFor, Prod.mk.injEq, Except.ok.injEq, true_and, Nat.mul_zero,
        List.length_eq_zero_iff, exists_eq_left, List.nil_append]
  | succ n ih =>
      constructor
      · intro h
        rw [compareFor] at h
        split at h
        case h_1 => simp at h
        case h_2 x restA' hx =>
          split at h
          case h_1 => simp at h
          case h_2 y restB' hy =>
            obtain ⟨hreports, hrest⟩ := Prod.mk.inj h
            split at hreports
            case isTrue => simp at hreports
            case isFalse hxy =>
              obtain ⟨words, hlength, hA, hB⟩ := ih.1 (Prod.ext hreports hrest)
              obtain ⟨wordA, hwordA, rfl, rfl⟩ := readOne_eq_ok_iff.1 hx
              obtain ⟨wordB, hwordB, rfl, rfl⟩ := readOne_eq_ok_iff.1 hy
              have hword : wordA = wordB :=
                (decode_inj (hwordA.trans hwordB.symm)).1 (not_not.1 hxy)
              refine ⟨wordA ++ words, ?_, ?_, ?_⟩
              · rw [List.length_append, hwordA, hlength, Nat.mul_succ, Nat.add_comm]
              · rw [hA, List.append_assoc]
              · rw [hB, hword, List.append_assoc]
      · rintro ⟨words, hlength, rfl, rfl⟩
        have hword : (words.take size_of).length = size_of := by
          rw [List.length_take, hlength, Nat.mul_succ]
          omega
        have hwords : (words.drop size_of).length = size_of * n := by
          rw [List.length_drop, hlength, Nat.mul_succ]
          omega
        have hread : ∀ rest, readOne size_of (words ++ rest) =
            .ok (LittleEndian.decode (words.take size_of), words.drop size_of ++ rest) :=
              fun rest =>
          readOne_eq_ok_iff.2 ⟨words.take size_of, hword, rfl,
            by rw [← List.append_assoc, List.take_append_drop]⟩
        have hloop := (@ih (i + 1) _ _).2 ⟨words.drop size_of, hwords, rfl, rfl⟩
        simp only [compareFor, hread, hloop, ne_eq, not_true_eq_false, if_false]

/-! ### Whole files -/

section Files

variable {A B : GrFile}

/-- The header test lets every two files through: their versions are the same. -/
theorem compareHeaders_bytes (hA : A.Valid) (hB : B.Valid) : compareHeaders A.bytes B.bytes =
    .ok (true, A.num_vertices, A.num_edges, A.payload ++ A.padding, B.payload ++ B.padding) := by
  have hone : 1 < 2 ^ 64 := by decide
  have hzero : 0 < 2 ^ 64 := by decide
  simp only [GrFile.bytes, encodeAll_cons, encodeAll_nil, List.append_nil, List.append_assoc]
  simp only [compareHeaders, readOne_word hone, readOne_word hzero, readOne_word hA.num_vertices_lt,
    readOne_word hA.num_edges_lt, readOne_word hB.num_vertices_lt, readOne_word hB.num_edges_lt,
    ok_bind]
  simp only [true_or, decide_true]
  rfl

/-- A silent run: the arrays of the first file begin what stands behind the header of the second. -/
theorem compareGr_silent (hA : A.Valid) (hB : B.Valid) :
    compareGr A.bytes B.bytes = [] ↔ A.payload <+: B.payload ++ B.padding := by
  rw [compareGr, compareHeaders_bytes hA hB]
  dsimp only
  constructor
  · intro h
    split at h
    case h_1 => simp at h
    case h_2 reports inputA inputB hindex =>
      split at h
      case h_1 => simp at h
      case h_2 reports' rest hadj =>
        obtain ⟨rfl, rfl⟩ := List.append_eq_nil_iff.1 h
        obtain ⟨restA, restB⟩ := rest
        obtain ⟨ends, hends, hA', hB'⟩ := compareFor_silent.1 hindex
        obtain ⟨dests, hdests, rfl, rfl⟩ := compareFor_silent.1 hadj
        have hlength : A.payload.length = (ends ++ dests).length := by
          rw [hA.length_payload, List.length_append, hends, hdests]
        have hpayload : A.payload = ends ++ dests := by
          rw [← List.append_assoc] at hA'
          exact (List.append_inj hA' hlength).1
        exact ⟨restB, by rw [hpayload, hB', List.append_assoc]⟩
  · rintro ⟨restB, hB'⟩
    have hends :
        (encodeAll 8 A.ends).length = 8 * A.num_vertices := by rw [length_encodeAll, hA.length_ends]
    have hdests :
        (encodeAll 4 A.dests).length = 4 * A.num_edges := by rw [length_encodeAll, hA.length_dests]
    have hindex : compareFor 8 0 A.num_vertices (A.payload ++ A.padding) (B.payload ++ B.padding) =
        ([], .ok (encodeAll 4 A.dests ++ A.padding, encodeAll 4 A.dests ++ restB)) := by
      refine compareFor_silent.2 ⟨encodeAll 8 A.ends, hends, ?_, ?_⟩
      · rw [GrFile.payload, List.append_assoc]
      · rw [← hB', GrFile.payload, List.append_assoc]
    have hadj :
        compareFor 4 0 A.num_edges (encodeAll 4 A.dests ++ A.padding)
          (encodeAll 4 A.dests ++ restB) =
          ([], .ok (A.padding, restB)) :=
            compareFor_silent.2 ⟨encodeAll 4 A.dests, hdests, rfl, rfl⟩
    simp only [hindex, hadj, List.append_nil]

/-- An end offset, read from the bytes. -/
theorem wordAt_payload (hA : A.Valid) {v : Nat} (hv : v < A.num_vertices) (rest : List UInt8) :
    wordAt 8 (A.payload ++ rest) v = A.ends.getD v 0 := by
  have hv : v < A.ends.length := by rw [hA.length_ends]; exact hv
  rw [GrFile.payload, List.append_assoc, wordAt_append_left _ (by rw [length_encodeAll]; omega),
    wordAt_encodeAll hv (hA.ends_lt _ (List.getElem_mem hv)), List.getD_eq_getElem?_getD,
    List.getElem?_eq_getElem hv, Option.getD_some]

/-- End offsets that both files have are compared with each other. -/
theorem ends_eq_of_silent (hA : A.Valid) (hB : B.Valid) (h : A.payload <+: B.payload ++ B.padding)
    {v : Nat} (hvA : v < A.num_vertices) (hvB : v < B.num_vertices) :
    A.ends.getD v 0 = B.ends.getD v 0 := by
  obtain ⟨rest, hrest⟩ := h
  rw [← wordAt_payload hA hvA rest, hrest, wordAt_payload hB hvB]

/-- Under one header, silence means equal arrays. -/
theorem payload_prefix_iff_of_header (hA : A.Valid) (hB : B.Valid)
    (hverts : A.num_vertices = B.num_vertices) (hedges : A.num_edges = B.num_edges) :
    A.payload <+: B.payload ++ B.padding ↔ A.ends = B.ends ∧ A.dests = B.dests := by
  constructor
  · rintro ⟨rest, hrest⟩
    have hlength : A.payload.length = B.payload.length := by
      rw [hA.length_payload, hB.length_payload, hverts, hedges]
    have hpayload : A.payload = B.payload := (List.append_inj hrest hlength).1
    have hends : (encodeAll 8 A.ends).length = (encodeAll 8 B.ends).length := by
      rw [length_encodeAll, length_encodeAll, hA.length_ends, hB.length_ends, hverts]
    obtain ⟨hbytes, hbytes'⟩ := List.append_inj hpayload hends
    exact ⟨encodeAll_inj hA.ends_lt hB.ends_lt (by decide) hbytes,
      encodeAll_inj hA.dests_lt hB.dests_lt (by decide) hbytes'⟩
  · rintro ⟨hends, hdests⟩
    rw [GrFile.payload, GrFile.payload, hends, hdests]
    exact List.prefix_append _ _

/-- Under different headers, silence needs a first file of fewer vertices, whose arrays begin those
    of the second. -/
theorem fewer_of_silent (hA : A.WellFormed) (hB : B.WellFormed)
    (hheader : ¬(A.num_vertices = B.num_vertices ∧ A.num_edges = B.num_edges))
    (h : A.payload <+: B.payload ++ B.padding) :
    A.num_vertices < B.num_vertices ∧ A.payload <+: B.payload := by
  have hposA := hA.pos
  have hposB := hB.pos
  have hpadding : B.padding.length = 4 * (B.num_edges % 2) := List.length_replicate
  have hlength := h.length_le
  rw [List.length_append, hA.length_payload, hB.length_payload, hpadding] at hlength
  rcases Nat.lt_trichotomy A.num_vertices B.num_vertices with hlt | heq | hgt
  · -- the total of `A` is an offset of `B`, so the arrays of `A` end before the padding
    have hedges : A.num_edges ≤ B.num_edges := by
      rw [← hA.last, ends_eq_of_silent hA.toValid hB.toValid h (by omega) (by omega)]
      exact hB.ends_le_num_edges (by omega)
    refine ⟨hlt, List.prefix_of_prefix_length_le h (List.prefix_append _ _) ?_⟩
    rw [hA.length_payload, hB.length_payload]
    omega
  · -- the last offsets are compared, and they are the totals
    refine absurd ⟨heq, ?_⟩ hheader
    rw [← hA.last, ends_eq_of_silent hA.toValid hB.toValid h (by omega) (by omega), heq, hB.last]
  · -- the total of `B` is an offset of `A`, so the arrays of `A` do not fit
    have hedges : B.num_edges ≤ A.num_edges := by
      rw [← hB.last, ← ends_eq_of_silent hA.toValid hB.toValid h (by omega) (by omega)]
      exact hA.ends_le_num_edges (by omega)
    omega

/-- `compare_gr` is silent exactly on equal files, except where the first file has fewer vertices
    and its arrays begin those of the second. -/
theorem compareGr_iff (hA : A.WellFormed) (hB : B.WellFormed) :
    (compareGr A.bytes B.bytes = [] ↔ A.num_vertices = B.num_vertices ∧ A.num_edges = B.num_edges ∧
      A.ends = B.ends ∧ A.dests = B.dests) ↔
      ¬(A.num_vertices < B.num_vertices ∧ A.payload <+: B.payload) := by
  rw [compareGr_silent hA.toValid hB.toValid]
  by_cases hheader : A.num_vertices = B.num_vertices ∧ A.num_edges = B.num_edges
  · obtain ⟨hverts, hedges⟩ := hheader
    have hlt : ¬A.num_vertices < B.num_vertices := by omega
    simp only [payload_prefix_iff_of_header hA.toValid hB.toValid hverts hedges, hverts, hedges,
      true_and, Nat.lt_irrefl, false_and, not_false_eq_true]
  · have hdiffer : ¬(A.num_vertices = B.num_vertices ∧ A.num_edges = B.num_edges ∧ A.ends = B.ends ∧
        A.dests = B.dests) := fun h => hheader ⟨h.1, h.2.1⟩
    rw [iff_false_right hdiffer]
    refine not_congr ⟨fewer_of_silent hA hB hheader, ?_⟩
    rintro ⟨-, h⟩
    exact h.trans (List.prefix_append _ _)

end Files

/-- The file of one vertex without edges. -/
def oneVertex : GrFile := { num_vertices := 1, num_edges := 0, ends := [0], dests := [] }

/-- The file of two vertices without edges. -/
def twoVertices : GrFile := { num_vertices := 2, num_edges := 0, ends := [0, 0], dests := [] }

theorem oneVertex_wellFormed : oneVertex.WellFormed where
  length_ends := rfl
  length_dests := rfl
  num_vertices_lt := by decide
  num_edges_lt := by decide
  ends_lt := by decide
  dests_lt := by decide
  pos := by decide
  mono := fun v hv => absurd hv (by simp [oneVertex])
  last := rfl

theorem twoVertices_wellFormed : twoVertices.WellFormed where
  length_ends := rfl
  length_dests := rfl
  num_vertices_lt := by decide
  num_edges_lt := by decide
  ends_lt := by decide
  dests_lt := by decide
  pos := by decide
  mono := by
    intro v hv
    have hzero : v = 0 := Nat.le_zero.1 (Nat.le_of_lt_succ (Nat.lt_of_succ_lt_succ hv))
    subst hzero
    decide
  last := rfl

/-- The other way round the shorter stream ends the run with an error. -/
theorem compareGr_iff_two : (compareGr twoVertices.bytes oneVertex.bytes = [] ↔
    twoVertices.num_vertices = oneVertex.num_vertices ∧
    twoVertices.num_edges = oneVertex.num_edges ∧
      twoVertices.ends = oneVertex.ends ∧ twoVertices.dests = oneVertex.dests) :=
  (compareGr_iff twoVertices_wellFormed oneVertex_wellFormed).2 fun h => absurd h.1 (by decide)

/-- Files of one and of two vertices, and no report. -/
theorem compareGr_silent_on_different_headers :
    (fg2gr (encodeAll 8 [0]) [] = .ok oneVertex.bytes ∧
      fg2gr (encodeAll 8 [0, 0]) [] = .ok twoVertices.bytes) ∧ oneVertex.WellFormed ∧
      twoVertices.WellFormed ∧ ¬(compareGr oneVertex.bytes twoVertices.bytes = [] ↔
        oneVertex.num_vertices = twoVertices.num_vertices ∧
        oneVertex.num_edges = twoVertices.num_edges ∧
          oneVertex.ends = twoVertices.ends ∧ oneVertex.dests = twoVertices.dests) := by
  refine ⟨⟨by decide, by decide⟩, oneVertex_wellFormed, twoVertices_wellFormed, fun h => ?_⟩
  have hverts := (h.1 (by decide)).1
  exact absurd hverts (by decide)

end FamGraph.Galois
