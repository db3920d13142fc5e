/-
Module: FamGraph.Proofs.GaloisGr
Layer: Proofs
Purpose: `fg2gr` keeps the graph. Writing and reading a word are inverse, so the file written is the
  encoding of a `.gr` file whose end offsets are the start offsets without the first and with the
  total behind the last, and reading the format gives that file back. Where one list ends the next
  begins, so the rows are those the client reads.
Trusted boundary: human-reviewed specification `famRow`, the client's reading of a row
Main exports: GrFile.Valid, GrFile.bytes, readGr_bytes, WellFormedPair, grOf, fg2gr_eq,
  fg2gr_preserves
-/
import FamGraph.Core.GaloisGr
import FamGraph.Proofs.VertexTable

namespace FamGraph.Galois

open LittleEndian

/-! ### The format -/

/-- The counts are those of the lists, and every number fits its width. -/
structure GrFile.Valid (g : GrFile) : Prop where
  length_ends : g.ends.length = g.num_vertices
  length_dests : g.dests.length = g.num_edges
  num_vertices_lt : g.num_vertices < 2 ^ 64
  num_edges_lt : g.num_edges < 2 ^ 64
  ends_lt : ∀ x ∈ g.ends, x < 2 ^ 64
  dests_lt : ∀ x ∈ g.dests, x < 2 ^ 32

/-- What stands behind the header: the two arrays. -/
def GrFile.payload (g : GrFile) : List UInt8 := encodeAll 8 g.ends ++ encodeAll 4 g.dests

def GrFile.padding (g : GrFile) : List UInt8 := List.replicate (4 * (g.num_edges % 2)) 0

/-- The file. -/
def GrFile.bytes (g : GrFile) : List UInt8 :=
  encodeAll 8 [1, 0, g.num_vertices, g.num_edges] ++ (g.payload ++ g.padding)

section Format

variable {g : GrFile}

theorem GrFile.Valid.length_payload (h : g.Valid) :
    g.payload.length = 8 * g.num_vertices + 4 * g.num_edges := by
  rw [GrFile.payload, List.length_append, length_encodeAll, length_encodeAll, h.length_ends,
    h.length_dests]

theorem GrFile.Valid.length_bytes (h : g.Valid) :
    g.bytes.length = 32 + 8 * g.num_vertices + 4 * g.num_edges + 4 * (g.num_edges % 2) := by
  rw [GrFile.bytes, List.length_append, length_encodeAll, List.length_append, h.length_payload,
    GrFile.padding, List.length_replicate]
  simp only [List.length_cons, List.length_nil]
  omega

/-- A file that was written is read back. -/
theorem readGr_bytes (h : g.Valid) : readGr g.bytes = some g := by
  have hheader :
      ∀ i (hi : i < 4), wordAt 8 g.bytes i = [1, 0, g.num_vertices, g.num_edges].get ⟨i, hi⟩ := by
    intro i hi
    rw [GrFile.bytes,
      wordAt_append_left _ (by rw [length_encodeAll]; exact Nat.mul_le_mul_left 8 hi)]
    refine wordAt_encodeAll hi ?_
    have hvertices := h.num_vertices_lt
    have hedges := h.num_edges_lt
    match i, hi with
    | 0, _ => exact (by decide : 1 < 256 ^ 8)
    | 1, _ => exact (by decide : 0 < 256 ^ 8)
    | 2, _ => exact hvertices
    | 3, _ => exact hedges
  have hV : wordAt 8 g.bytes 2 = g.num_vertices := hheader 2 (by decide)
  have hE : wordAt 8 g.bytes 3 = g.num_edges := hheader 3 (by decide)
  have hfirst : wordAt 8 g.bytes 0 = 1 := hheader 0 (by decide)
  have hsecond : wordAt 8 g.bytes 1 = 0 := hheader 1 (by decide)
  have hbody : g.bytes.drop 32 = encodeAll 8 g.ends ++ (encodeAll 4 g.dests ++ g.padding) := by
    have hlength : (encodeAll 8 [1, 0, g.num_vertices, g.num_edges]).length = 32 := by
      rw [length_encodeAll]
      rfl
    rw [GrFile.bytes, ← hlength, List.drop_left, GrFile.payload, List.append_assoc]
  have hdests : g.bytes.drop (32 + 8 * g.num_vertices) = encodeAll 4 g.dests ++ g.padding := by
    have hlength : (encodeAll 8 g.ends).length = 8 * g.num_vertices := by
      rw [length_encodeAll, h.length_ends]
    rw [← List.drop_drop, hbody, ← hlength, List.drop_left]
  have hends : (List.range g.num_vertices).map (wordAt 8 (g.bytes.drop 32)) = g.ends := by
    rw [hbody, ← h.length_ends]
    exact map_wordAt_encodeAll h.ends_lt _
  have hwords :
      (List.range g.num_edges).map (wordAt 4 (g.bytes.drop (32 + 8 * g.num_vertices))) =
        g.dests := by
    rw [hdests, ← h.length_dests]
    exact map_wordAt_encodeAll h.dests_lt _
  simp only [readGr, hV, hE, hfirst, hsecond, h.length_bytes, true_and, if_true]
  rw [hends, hwords]

end Format

/-! ### Streams -/

section Streams

variable {size_of n : Nat} {input o : List UInt8}

theorem ok_bind {ε α β : Type} (x : α) (f : α → Except ε β) : (Except.ok x >>= f) = f x := rfl

theorem readOne_eq (h : size_of ≤ input.length) :
    readOne size_of input = .ok (LittleEndian.decode (input.take size_of), input.drop size_of) := by
  have hlength : (input.take size_of).length = size_of := by
    rw [List.length_take, Nat.min_eq_left h]
  rw [readOne]
  simp only [hlength, ne_eq, not_true_eq_false, if_false]

/-- `write_as` copies. -/
theorem writeAs_eq (h : size_of * n ≤ input.length) :
    writeAs size_of n input o = .ok (input.drop (size_of * n), o ++ input.take (size_of * n)) := by
  induction n generalizing input o with
  | zero => simp [writeAs]
  | succ n ih =>
      rw [Nat.mul_succ] at h
      have hrest : size_of * n ≤ (input.drop size_of).length := by
        rw [List.length_drop]
        omega
      have hword : encode size_of (LittleEndian.decode (input.take size_of)) = input.take size_of :=
        encode_decode (by rw [List.length_take]; omega)
      have hsum : size_of * (n + 1) = size_of + size_of * n := by rw [Nat.mul_succ, Nat.add_comm]
      rw [writeAs, readOne_eq (by omega)]
      simp only [bind, Except.bind, hword]
      rw [ih hrest, List.drop_drop, hsum, List.take_add, List.append_assoc]

/-- The words of a file, written. -/
theorem encodeAll_map_wordAt {width : Nat} (bytes : List UInt8) (h : width * n ≤ bytes.length) :
    encodeAll width ((List.range n).map (wordAt width bytes)) = bytes.take (width * n) := by
  induction n with
  | zero => simp
  | succ n ih =>
      rw [Nat.mul_succ] at h
      have hword : encode width (wordAt width bytes n) = (bytes.drop (width * n)).take width :=
        encode_decode (by rw [List.length_take, List.length_drop]; omega)
      rw [List.range_succ, List.map_append, encodeAll, List.flatMap_append, ← encodeAll,
        ih (by omega), Nat.mul_succ, List.take_add, ← hword]
      simp

end Streams

/-! ### The conversion -/

/-- A pair of files with a well-formed index: at least one vertex, the first offset 0, offsets that
    are nondecreasing and stay within the edge array, and lists whose length is a `uint32_t`. The
    sizes of files are `uint64_t`. -/
structure WellFormedPair (index adj : List UInt8) : Prop where
  length_index : index.length < 2 ^ 64
  length_adj : adj.length < 2 ^ 64
  pos : 0 < numElements 8 index
  first : wordAt 8 index 0 = 0
  mono : ∀ v, v + 1 < numElements 8 index → wordAt 8 index v ≤ wordAt 8 index (v + 1)
  le : ∀ v < numElements 8 index, wordAt 8 index v ≤ numElements 4 adj
  degree : ∀ v < numElements 8 index,
    adjacencyEnd (wordAt 8 index) (numElements 8 index) (numElements 4 adj) v - wordAt 8 index v <
      2 ^ 32

/-- The start offsets without the first, the number of edges behind them, and the destinations. -/
def grOf (index adj : List UInt8) : GrFile :=
  let V := numElements 8 index
  let E := numElements 4 adj
  { num_vertices := V
    num_edges := E
    ends := (List.range (V - 1)).map (wordAt 8 (index.drop 8)) ++ [E]
    dests := (List.range E).map (wordAt 4 adj) }

/-- The list of `v` as the client reads it: `get_num_edges` words from its offset on. -/
def famRow (table : List Nat) (adj : List UInt8) (v : Nat) : List Nat :=
  let edge_offset := fun v => table.getD v 0
  let degree := getNumEdges v edge_offset table.length (numElements 4 adj)
  (List.range' (edge_offset v) degree).map (wordAt 4 adj)

section Conversion

variable {index adj : List UInt8}

theorem numElements_lt {size_of : Nat} {file : List UInt8} (h : file.length < 2 ^ 64) :
    numElements size_of file < 2 ^ 64 :=
  Nat.lt_of_le_of_lt (Nat.div_le_self _ _) h

theorem WellFormedPair.grOf_valid (h : WellFormedPair index adj) : (grOf index adj).Valid where
  length_ends := by
    have hpos := h.pos
    simp only [grOf, List.length_append, List.length_map, List.length_range, List.length_singleton]
    omega
  length_dests := by simp only [grOf, List.length_map, List.length_range]
  num_vertices_lt := numElements_lt h.length_index
  num_edges_lt := numElements_lt h.length_adj
  ends_lt := by
    intro x hx
    rcases List.mem_append.1 hx with hx | hx
    · obtain ⟨v, -, rfl⟩ := List.mem_map.1 hx
      exact wordAt_lt 8 _ _
    · rw [List.mem_singleton.1 hx]
      exact numElements_lt h.length_adj
  dests_lt := by
    intro x hx
    obtain ⟨e, -, rfl⟩ := List.mem_map.1 hx
    exact wordAt_lt 4 _ _

/-- The padding is written if the number of edges is odd. -/
theorem padding_eq (os : List UInt8) :
    (if numElements 4 adj &&& 1 ≠ 0 then os ++ encode 4 0 else os) =
      os ++ (grOf index adj).padding := by
  have hpadding : (grOf index adj).padding = List.replicate (4 * (numElements 4 adj % 2)) 0 := rfl
  rw [hpadding, Nat.and_one_is_mod]
  rcases Nat.mod_two_eq_zero_or_one (numElements 4 adj) with heven | hodd
  · rw [heven, if_neg (by decide), Nat.mul_zero, List.replicate_zero, List.append_nil]
  · rw [hodd, if_pos (by decide)]
    rfl

/-- What `fg2gr` writes is the encoding of `grOf`. -/
theorem WellFormedPair.fg2gr_eq (h : WellFormedPair index adj) :
    fg2gr index adj = .ok (grOf index adj).bytes := by
  have hpos := h.pos
  have hindex := mul_numElements_le 8 index
  have hadj := mul_numElements_le 4 adj
  have hcount : (numElements 8 index + (2 ^ 64 - 1)) % 2 ^ 64 = numElements 8 index - 1 := by
    have hverts : numElements 8 index < 2 ^ 64 := numElements_lt h.length_index
    omega
  have hrest : 8 * (numElements 8 index - 1) ≤ (index.drop 8).length := by
    rw [List.length_drop]
    omega
  have hends : (index.drop 8).take (8 * (numElements 8 index - 1)) ++ encode 8 (numElements 4 adj) =
      encodeAll 8 (grOf index adj).ends := by
    rw [← encodeAll_map_wordAt _ hrest]
    simp only [grOf, encodeAll, List.flatMap_append, List.flatMap_singleton]
  have hdests : adj.take (4 * numElements 4 adj) = encodeAll 4 (grOf index adj).dests :=
    (encodeAll_map_wordAt _ hadj).symm
  have hheader : writeHeader [] (numElements 8 index) (numElements 4 adj) =
      encodeAll 8 [1, 0, numElements 8 index, numElements 4 adj] := by
    simp only [writeHeader, encodeAll_cons, encodeAll_nil, List.nil_append, List.append_nil,
      List.append_assoc]
  have hread : readOne 8 index = .ok (LittleEndian.decode (index.take 8), index.drop 8) :=
    readOne_eq (by omega)
  rw [fg2gr, hread, ok_bind]
  dsimp only
  rw [hcount, writeAs_eq hrest, ok_bind]
  dsimp only
  rw [writeAs_eq hadj, ok_bind]
  dsimp only
  rw [padding_eq, List.append_assoc (writeHeader _ _ _), hends, hdests, hheader]
  simp only [GrFile.bytes, GrFile.payload, List.append_assoc]
  rfl

theorem take_drop_map_range (f : Nat → Nat) {first last n : Nat} (h : last ≤ n) :
    (((List.range n).map f).take last).drop first = (List.range' first (last - first)).map f := by
  rw [← List.map_take, ← List.map_drop, List.take_range, Nat.min_eq_left h, List.range_eq_range',
    List.drop_range', Nat.zero_add, Nat.mul_one]

/-- The list of `v` ends where that of the next vertex begins, the last one with the edge array. -/
theorem getD_ends {v : Nat} (hv : v < numElements 8 index) : (grOf index adj).ends.getD v 0 =
    adjacencyEnd (wordAt 8 index) (numElements 8 index) (numElements 4 adj) v := by
  have hlength : ((List.range (numElements 8 index - 1)).map (wordAt 8 (index.drop 8))).length =
      numElements 8 index - 1 := by rw [List.length_map, List.length_range]
  unfold adjacencyEnd
  split
  case isTrue hlast =>
    have hv : v = numElements 8 index - 1 := by omega
    simp only [grOf, List.getD_eq_getElem?_getD, hv]
    rw [List.getElem?_append_right (by omega), hlength, Nat.sub_self]
    rfl
  case isFalse hlast =>
    have hv : v < numElements 8 index - 1 := by omega
    have hword : wordAt 8 (index.drop 8) v = wordAt 8 index (1 + v) := wordAt_drop 8 1 index v
    simp only [grOf, List.getD_eq_getElem?_getD]
    rw [List.getElem?_append_left (by omega), List.getElem?_map, List.getElem?_range hv,
      Option.map_some, Option.getD_some, hword, Nat.add_comm]

/-- A row of the file written. -/
theorem WellFormedPair.row_eq (h : WellFormedPair index adj) {v : Nat}
    (hv : v < numElements 8 index) :
    (grOf index adj).row v = (List.range' (wordAt 8 index v)
      (adjacencyEnd (wordAt 8 index) (numElements 8 index) (numElements 4 adj) v -
        wordAt 8 index v)).map (wordAt 4 adj) := by
  have hfirst : (if v = 0 then 0 else (grOf index adj).ends.getD (v - 1) 0) = wordAt 8 index v := by
    split
    case isTrue hzero => rw [hzero, h.first]
    case isFalse hpos =>
      have hprev : v - 1 + 1 = v := by omega
      rw [getD_ends (by omega), adjacencyEnd, if_neg (by omega), hprev]
  have hlast : adjacencyEnd (wordAt 8 index) (numElements 8 index) (numElements 4 adj) v ≤
      numElements 4 adj := by
    unfold adjacencyEnd
    split
    · exact Nat.le_refl _
    · exact h.le (v + 1) (by omega)
  simp only [GrFile.row, hfirst, getD_ends hv]
  exact take_drop_map_range _ hlast

/-- The offsets of the index, as the client has them in its table. -/
def loadedTable (index : List UInt8) : List Nat :=
  (List.range (numElements 8 index)).map (wordAt 8 index)

theorem length_loadedTable (index : List UInt8) :
    (loadedTable index).length = numElements 8 index := by
  rw [loadedTable, List.length_map, List.length_range]

theorem getD_loadedTable {v : Nat} (hv : v < numElements 8 index) :
    (loadedTable index).getD v 0 = wordAt 8 index v := by
  rw [loadedTable, List.getD_eq_getElem?_getD, List.getElem?_map, List.getElem?_range hv,
    Option.map_some, Option.getD_some]

theorem getNumVerts_eq (hverts : numElements 8 index < 2 ^ 32) :
    getNumVerts index = .ok (numElements 8 index) := by
  rw [getNumVerts]
  exact if_pos hverts

theorem getVertexTable_loaded (index : List UInt8) :
    getVertexTable (numElements 8 index) index = .ok (loadedTable index) :=
  getVertexTable_eq (mul_numElements_le 8 index)

/-- The out-degree the client computes is the length of the list. -/
theorem WellFormedPair.getNumEdges_eq (h : WellFormedPair index adj)
    (hverts : numElements 8 index < 2 ^ 32) {v : Nat} (hv : v < numElements 8 index) :
    getNumEdges v (fun v => (loadedTable index).getD v 0) (numElements 8 index)
      (numElements 4 adj) =
      adjacencyEnd (wordAt 8 index) (numElements 8 index) (numElements 4 adj) v -
        wordAt 8 index v := by
  have hindex : WellFormedIndex (fun v => (loadedTable index).getD v 0) (numElements 8 index)
      (numElements 4 adj) := by
    refine ⟨hverts, numElements_lt h.length_adj, ?_, ?_⟩
    · intro v hv
      rw [getD_loadedTable (by omega), getD_loadedTable hv]
      exact h.mono v hv
    · intro v hv
      rw [getD_loadedTable hv]
      exact h.le v hv
  have hlast : adjacencyEnd (fun v => (loadedTable index).getD v 0) (numElements 8 index)
      (numElements 4 adj) v =
      adjacencyEnd (wordAt 8 index) (numElements 8 index) (numElements 4 adj) v := by
    unfold adjacencyEnd
    split
    · rfl
    · exact getD_loadedTable (by omega)
  have hdegree := h.degree v hv
  rw [hindex.getNumEdges_eq hv (by rw [hlast, getD_loadedTable hv]; exact hdegree), hlast,
    getD_loadedTable hv]

/-- `fg2gr` keeps the graph: the file written has the counts of the pair and its length is rounded
    up to a multiple of 8. The rows read from it are the words between the offsets of the index, and
    if the client can load that index, those it reads. -/
theorem fg2gr_preserves (h : WellFormedPair index adj) :
    ∃ file g, fg2gr index adj = .ok file ∧ readGr file = some g ∧
      g.num_vertices = numElements 8 index ∧ g.num_edges = numElements 4 adj ∧
      file.length = (32 + 8 * numElements 8 index + 4 * numElements 4 adj + 7) / 8 * 8 ∧
      (∀ v < numElements 8 index, g.row v = (List.range' (wordAt 8 index v)
        (adjacencyEnd (wordAt 8 index) (numElements 8 index) (numElements 4 adj) v -
          wordAt 8 index v)).map (wordAt 4 adj)) ∧
      (numElements 8 index < 2 ^ 32 →
        ∃ n table, getNumVerts index = .ok n ∧ getVertexTable n index = .ok table ∧
        table.length = g.num_vertices ∧ ∀ v < n, g.row v = famRow table adj v) := by
  have hvalid := h.grOf_valid
  refine ⟨_, grOf index adj, h.fg2gr_eq, readGr_bytes hvalid, rfl, rfl, ?_, fun v hv => h.row_eq hv,
    ?_⟩
  · have hlength := hvalid.length_bytes
    simp only [grOf] at hlength ⊢
    omega
  · intro hverts
    refine ⟨_, _, getNumVerts_eq hverts, getVertexTable_loaded index, length_loadedTable index, ?_⟩
    intro v hv
    simp only [famRow, length_loadedTable]
    rw [h.row_eq hv, h.getNumEdges_eq hverts hv, getD_loadedTable hv]

end Conversion

/-- Two vertices, the second without edges, and one edge: both boundaries and the padding. -/
theorem fg2gr_preserves_two : ∃ file g,
    fg2gr (encodeAll 8 [0, 1]) (encodeAll 4 [1]) = .ok file ∧ readGr file = some g ∧
      g.row 0 = [1] ∧ g.row 1 = [] := by
  have hpair : WellFormedPair (encodeAll 8 [0, 1]) (encodeAll 4 [1]) := by
    refine ⟨by decide, by decide, by decide, by decide, ?_, by decide, by decide⟩
    intro v hv
    have hzero : v = 0 := by
      have hcount : numElements 8 (encodeAll 8 [0, 1]) = 2 := by decide
      omega
    subst hzero
    decide
  obtain ⟨file, g, hfile, hread, -, -, -, hrows, -⟩ := fg2gr_preserves hpair
  refine ⟨file, g, hfile, hread, (hrows 0 (by decide)).trans (by decide),
    (hrows 1 (by decide)).trans (by decide)⟩

end FamGraph.Galois
