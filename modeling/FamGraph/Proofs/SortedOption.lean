/-
Module: FamGraph.Proofs.SortedOption
Layer: Proofs
Purpose: The option `--sorted` of the two converters, which skips the sort. On any list the pass
  leaves in the entry of a row a position from which on no smaller origin follows. That position is
  the number of smaller origins, for every row, exactly if the list is sorted by origin. The list in
  question is the input with its pairs swapped and reversed ones added, and an input sorted by
  origin need not stay so.
Trusted boundary: none
Main exports: StartsAt, edgeListToCsr_startsAt, sortedByOrigin_iff_startsAt, Converter.arcs,
  Converter.Writes, Converter.SortedAgrees, sorted_option_agrees_iff
-/
import FamGraph.Core.EdgeListToDecsr
import FamGraph.Proofs.EdgeListToCsr

namespace FamGraph

variable {max_vert total : Nat}

/-! ### The pass over any pairs -/

/-- From position `c` on, no pair has an origin before `row`. -/
structure StartsAt (pairs : List (Nat × Nat)) (row c : Nat) : Prop where
  le : c ≤ pairs.length
  later : ∀ p ∈ pairs.drop c, row ≤ p.1

theorem startsAt_length (pairs : List (Nat × Nat)) (row : Nat) :
    StartsAt pairs row pairs.length where
  le := Nat.le_refl _
  later p hp := by
    rw [List.drop_length] at hp
    exact absurd hp List.not_mem_nil

/-- A pair at or after the row does not move its start. -/
theorem StartsAt.snoc {pairs : List (Nat × Nat)} {row c : Nat} {p : Nat × Nat}
    (h : StartsAt pairs row c) (hp : row ≤ p.1) : StartsAt (pairs ++ [p]) row c where
  le := by
    rw [List.length_append]
    exact Nat.le_add_right_of_le h.le
  later q hq := by
    rw [List.drop_append_of_le_length h.le] at hq
    rcases List.mem_append.1 hq with hq | hq
    · exact h.later q hq
    · rw [List.mem_singleton.1 hq]
      exact hp

/-- The variables of the pass after the pairs `done`, in whatever order these come. -/
structure Scan.Follows (s : Scan) (max_vert : Nat) (done : List (Nat × Nat)) : Prop where
  idx_length : s.idx.length = max_vert + 1
  count : s.count = done.length
  prev : s.prev_vertex_from = s.vertex_from
  le_max : s.vertex_from ≤ max_vert
  rows : ∀ row ≤ s.vertex_from, ∃ c, s.idx[row]? = some c ∧ StartsAt done row c

theorem Scan.follows_start (v : List (Nat × Nat)) (hmax : max_vert + 1 < 2 ^ 32) :
    (Scan.start v max_vert).Follows max_vert [] where
  idx_length := Scan.length_idx_start v hmax
  count := rfl
  prev := rfl
  le_max := Nat.zero_le _
  rows row hrow := by
    obtain rfl : row = 0 := Nat.le_zero.1 hrow
    exact ⟨0, Scan.getElem?_idx_start v hmax, startsAt_length [] 0⟩

/-- One pair. A smaller origin than the last one leaves all entries as they are. -/
theorem Scan.Follows.step {s : Scan} {done : List (Nat × Nat)} {p : Nat × Nat}
    (h : s.Follows max_vert done) (hp : p.1 ≤ max_vert) (hmax : max_vert + 1 < 2 ^ 32) :
    (s.step p).Follows max_vert (done ++ [p]) := by
  have hle := h.le_max
  have hprev := h.prev
  have hlength := h.idx_length
  refine ⟨by rw [Scan.length_idx_step, hlength], ?_, rfl, hp, ?_⟩
  · simp only [Scan.step, h.count, List.length_append, List.length_singleton]
  · intro row hrow
    have hrow' : row ≤ p.1 := hrow
    rw [Scan.getElem?_idx_step s p row (by omega)]
    rcases Nat.lt_or_ge s.vertex_from row with hnew | hold
    · have hin : s.prev_vertex_from < row ∧ row ≤ p.1 ∧ row < s.idx.length := by omega
      rw [if_pos hin, h.count]
      exact ⟨done.length, rfl, (startsAt_length done row).snoc hrow'⟩
    · have hout : ¬ (s.prev_vertex_from < row ∧ row ≤ p.1 ∧ row < s.idx.length) := by omega
      obtain ⟨c, hc, hstart⟩ := h.rows row hold
      rw [if_neg hout]
      exact ⟨c, hc, hstart.snoc hrow'⟩

/-- The whole pass. -/
theorem Scan.Follows.foldl {s : Scan} {done rest : List (Nat × Nat)} (h : s.Follows max_vert done)
    (hmax : max_vert + 1 < 2 ^ 32) (hrest : ∀ p ∈ rest, p.1 ≤ max_vert) :
    (rest.foldl Scan.step s).Follows max_vert (done ++ rest) := by
  induction rest generalizing s done with
  | nil =>
      rw [List.append_nil]
      exact h
  | cons p rest ih =>
      have hstep := h.step (hrest p List.mem_cons_self) hmax
      have hsplit : done ++ p :: rest = (done ++ [p]) ++ rest := by simp
      rw [List.foldl_cons, hsplit]
      exact ih hstep fun q hq => hrest q (List.mem_cons_of_mem p hq)

/-- Each entry the pass leaves is a position from which on no smaller origin follows. -/
theorem edgeListToCsr_startsAt {v : List (Nat × Nat)} {row : Nat} (hmax : max_vert + 1 < 2 ^ 32)
    (hv : ∀ p ∈ v, p.1 ≤ max_vert) (hrow : row ≤ max_vert) :
    ∃ c, (edgeListToCsr v max_vert).index[row]? = some c ∧ StartsAt v row c := by
  have h := (Scan.follows_start v hmax).foldl hmax hv
  rw [List.nil_append] at h
  have hle := h.le_max
  rw [edgeListToCsr_index_getElem? v row (by omega), h.idx_length]
  rcases Nat.lt_or_ge (v.foldl Scan.step (Scan.start v max_vert)).vertex_from row with hnew | hold
  · rw [if_pos ⟨hnew, hrow, by omega⟩]
    exact ⟨v.length, rfl, startsAt_length v row⟩
  · rw [if_neg fun hnew => absurd hnew.1 (by omega)]
    exact h.rows row hold

/-- The smaller origins all come first, if none follows their number. -/
theorem StartsAt.before_lt {pairs : List (Nat × Nat)} {row : Nat}
    (h : StartsAt pairs row (pairsBefore pairs row)) :
    ∀ p ∈ pairs.take (pairsBefore pairs row), p.1 < row := by
  have hsplit := congrArg (fun l => pairsBefore l row)
    (List.take_append_drop (pairsBefore pairs row) pairs)
  have hlater : pairsBefore (pairs.drop (pairsBefore pairs row)) row = 0 :=
    List.countP_eq_zero.2 fun p hp => by simpa using h.later p hp
  have hlength : (pairs.take (pairsBefore pairs row)).length = pairsBefore pairs row := by
    rw [List.length_take, Nat.min_eq_left h.le]
  have hall : pairsBefore (pairs.take (pairsBefore pairs row)) row =
      (pairs.take (pairsBefore pairs row)).length := by
    rw [hlength]
    calc pairsBefore (pairs.take (pairsBefore pairs row)) row
        = pairsBefore (pairs.take (pairsBefore pairs row)) row +
            pairsBefore (pairs.drop (pairsBefore pairs row)) row := by rw [hlater, Nat.add_zero]
      _ = pairsBefore (pairs.take (pairsBefore pairs row) ++
            pairs.drop (pairsBefore pairs row)) row := List.countP_append.symm
      _ = pairsBefore pairs row := hsplit
  intro p hp
  exact of_decide_eq_true (List.countP_eq_length.1 hall p hp)

/-- Being sorted, said row by row. -/
theorem sortedByOrigin_iff_startsAt {pairs : List (Nat × Nat)}
    (hpairs : ∀ p ∈ pairs, p.1 ≤ max_vert) :
    SortedByOrigin pairs ↔ ∀ row ≤ max_vert, StartsAt pairs row (pairsBefore pairs row) := by
  constructor
  · intro hsorted row _
    refine ⟨pairsBefore_le pairs row, fun p hp => ?_⟩
    rw [drop_pairsBefore hsorted] at hp
    simpa using (List.mem_filter.1 hp).2
  · intro hstarts
    refine List.pairwise_iff_getElem.2 fun i j hi hj hij => ?_
    -- the row of the earlier pair cannot start behind it
    have hrow := hstarts pairs[i].1 (hpairs _ (List.getElem_mem hi))
    have hle : pairsBefore pairs pairs[i].1 ≤ i := by
      by_contra hlt
      have hmem : pairs[i] ∈ pairs.take (pairsBefore pairs pairs[i].1) :=
        List.mem_take_iff_getElem.2 ⟨i, by omega, rfl⟩
      exact absurd (hrow.before_lt _ hmem) (Nat.lt_irrefl _)
    refine hrow.later pairs[j]
      (List.mem_drop_iff_getElem.2 ⟨j - pairsBefore pairs pairs[i].1, by omega, ?_⟩)
    congr 1
    omega

/-- The pass finds the number of smaller origins for every row only on a sorted list. -/
theorem sortedByOrigin_of_index {v : List (Nat × Nat)} (hmax : max_vert + 1 < 2 ^ 32)
    (hv : ∀ p ∈ v, p.1 ≤ max_vert)
    (hindex : ∀ row ≤ max_vert, (edgeListToCsr v max_vert).index[row]? = some (pairsBefore v row)) :
    SortedByOrigin v := by
  refine (sortedByOrigin_iff_startsAt hv).2 fun row hrow => ?_
  obtain ⟨c, hc, hstart⟩ := edgeListToCsr_startsAt hmax hv hrow
  rw [hindex row hrow, Option.some_inj] at hc
  rw [hc]
  exact hstart

/-! ### The two tools -/

/-- The second tool reads what the first would read from the swapped pairs. -/
theorem Decsr.readEdgeList_eq (make_undirected : Bool) (v : List (Nat × Nat)) (max_vert : Nat)
    (input : List (Nat × Nat)) :
    Decsr.readEdgeList make_undirected v max_vert input =
      FamGraph.readEdgeList make_undirected v max_vert (input.map Prod.swap) := by
  induction input generalizing v max_vert with
  | nil => rfl
  | cons p input ih =>
      simp only [Decsr.readEdgeList, List.map_cons, Prod.fst_swap, Prod.snd_swap,
        FamGraph.readEdgeList, ih]

namespace Converter

/-- The pairs as the tool pushes them, before the reversed ones. -/
def oriented : Converter → List (Nat × Nat) → List (Nat × Nat)
  | .csr, input => input
  | .decsr, input => input.map Prod.swap

/-- The arcs of the tool's graph: those of the input, transposed for the second tool, and the
    reversed ones on request. -/
def arcs (c : Converter) (make_undirected : Bool) (input : List (Nat × Nat)) : List (Nat × Nat) :=
  requested make_undirected (c.oriented input)

theorem encodeUnweighted_oriented (c : Converter) (sort : List (Nat × Nat) → List (Nat × Nat))
    (make_undirected sorted : Bool) (input : List (Nat × Nat)) :
    c.encodeUnweighted sort make_undirected sorted input =
      FamGraph.encodeUnweighted sort make_undirected sorted (c.oriented input) := by
  cases c with
  | csr => rfl
  | decsr =>
      simp only [Converter.encodeUnweighted, Decsr.encodeUnweighted, FamGraph.encodeUnweighted,
        Decsr.readEdgeList_eq, oriented]

@[simp] theorem largestId_oriented (c : Converter) (input : List (Nat × Nat)) :
    largestId (c.oriented input) = largestId input := by
  cases c with
  | csr => rfl
  | decsr =>
      have hswap : ((fun p : Nat × Nat => max p.1 p.2) ∘ Prod.swap) = fun p => max p.1 p.2 :=
        funext fun p => Nat.max_comm p.2 p.1
      rw [oriented, largestId, List.map_map, hswap, largestId]

theorem length_arcs (c : Converter) (make_undirected : Bool) (input : List (Nat × Nat)) :
    (c.arcs make_undirected input).length = (if make_undirected then 2 else 1) * input.length := by
  have hrequested : ∀ pairs, (requested make_undirected pairs).length =
      (if make_undirected then 2 else 1) * pairs.length := by
    intro pairs
    induction pairs with
    | nil => rfl
    | cons p pairs ih =>
        rw [requested_cons, List.length_append, ih, List.length_cons]
        cases make_undirected with
        | true => simp only [if_true, List.length_cons, List.length_nil]; omega
        | false =>
            simp only [Bool.false_eq_true, if_false, List.length_cons, List.length_nil]; omega
  rw [arcs, hrequested]
  cases c with
  | csr => rfl
  | decsr => rw [oriented, List.length_map]

theorem le_largestId_of_mem_arcs {c : Converter} {make_undirected : Bool} {input : List (Nat × Nat)}
    {p : Nat × Nat} (hp : p ∈ c.arcs make_undirected input) :
    p.1 ≤ largestId input ∧ p.2 ≤ largestId input := by
  have hle := le_largestId hp
  rwa [largestId_oriented] at hle

end Converter

/-! ### What the files say -/

/-- The destinations of vertex `v` in a pair of files: the words from its offset to the next one, or
    to the end of the array. -/
def adjacency (idx adj : List UInt8) (v : Nat) : List Nat :=
  let edge_offset := LittleEndian.wordAt 8 idx
  let stop := adjacencyEnd edge_offset (numElements 8 idx) (numElements 4 adj) v
  ((getEdgeList adj).drop (edge_offset v)).take (stop - edge_offset v)

/-- The offsets of pairs, written to a file, are read back. -/
theorem wordAt_pairsBefore {pairs : List (Nat × Nat)} (hpairs : pairs.length < 2 ^ 64) {row : Nat}
    (hrow : row ≤ max_vert) :
    LittleEndian.wordAt 8 (LittleEndian.encodeAll 8 ((List.range (max_vert + 1)).map
      (pairsBefore pairs))) row = pairsBefore pairs row := by
  have hlt : row < ((List.range (max_vert + 1)).map (pairsBefore pairs)).length := by simp; omega
  have hentry :
      ((List.range (max_vert + 1)).map (pairsBefore pairs))[row] = pairsBefore pairs row := by
    simp
  have hle := pairsBefore_le pairs row
  rw [LittleEndian.wordAt_encodeAll hlt (by rw [hentry]; omega), hentry]

/-- Skipping the sort gives the same `.idx` file only if there was nothing to sort. -/
theorem index_file_eq_iff {sort : List (Nat × Nat) → List (Nat × Nat)} (hsort : SortsPairs sort)
    {pairs : List (Nat × Nat)} (hmax : max_vert + 1 < 2 ^ 32) (hlength : pairs.length < 2 ^ 64)
    (hpairs : ∀ p ∈ pairs, p.1 ≤ max_vert) :
    LittleEndian.encodeAll 8 (edgeListToCsr (sort pairs) max_vert).index =
        LittleEndian.encodeAll 8 (edgeListToCsr pairs max_vert).index ↔ SortedByOrigin pairs := by
  have hbefore : pairsBefore (sort pairs) = pairsBefore pairs :=
    funext fun row => (hsort.perm pairs).countP_eq _
  have hindex : (edgeListToCsr (sort pairs) max_vert).index =
      (List.range (max_vert + 1)).map (pairsBefore pairs) := by
    rw [edgeListToCsr_eq (hsort.sortedByOrigin pairs) hmax fun p hp =>
      hpairs p ((hsort.perm pairs).mem_iff.1 hp), hbefore]
  rw [hindex]
  constructor
  · intro hfile
    refine sortedByOrigin_of_index hmax hpairs fun row hrow => ?_
    obtain ⟨start, hstart, hle, -⟩ := edgeListToCsr_startsAt hmax hpairs hrow
    have hword : LittleEndian.wordAt 8 _ row = LittleEndian.wordAt 8 _ row :=
      congrArg (fun idx => LittleEndian.wordAt 8 idx row) hfile
    rw [wordAt_pairsBefore hlength hrow, LittleEndian.wordAt_of_getElem? hstart (by omega)] at hword
    rw [hstart, hword]
  · intro hsorted
    rw [edgeListToCsr_eq hsorted hmax hpairs]

/-- In the files of pairs sorted by origin each vertex has its row. -/
theorem adjacency_eq {pairs : List (Nat × Nat)} (hsorted : SortedByOrigin pairs)
    (hmax : max_vert + 1 < 2 ^ 32) (hlength : pairs.length < 2 ^ 64)
    (hpairs : ∀ p ∈ pairs, p.1 ≤ max_vert ∧ p.2 ≤ max_vert) {v : Nat} (hv : v ≤ max_vert) :
    adjacency (LittleEndian.encodeAll 8 (edgeListToCsr pairs max_vert).index)
        (LittleEndian.encodeAll 4 (edgeListToCsr pairs max_vert).dest) v =
      (pairs.filter fun p => p.1 = v).map Prod.snd := by
  have hdest :
      getEdgeList (LittleEndian.encodeAll 4 (pairs.map Prod.snd)) = pairs.map Prod.snd := by
    refine getEdgeList_encodeAll fun x hx => ?_
    obtain ⟨p, hp, rfl⟩ := List.mem_map.1 hx
    have hle := (hpairs p hp).2
    omega
  have hverts : numElements 8 (LittleEndian.encodeAll 8 ((List.range (max_vert + 1)).map
      (pairsBefore pairs))) = max_vert + 1 := by
    rw [numElements, LittleEndian.length_encodeAll, Nat.mul_div_cancel_left _ (by decide),
      List.length_map, List.length_range]
  have hgap := adjacencyEnd_eq (fun row hrow => wordAt_pairsBefore hlength hrow)
    (fun p hp => (hpairs p hp).1) hv
  rw [edgeListToCsr_eq hsorted hmax fun p hp => (hpairs p hp).1]
  simp only [adjacency]
  rw [hverts, numElements_encodeAll, List.length_map, hgap, wordAt_pairsBefore hlength hv, hdest,
    ← List.map_drop, ← List.map_take, slice_eq_row hsorted]

namespace Converter

variable {c : Converter} {sort : List (Nat × Nat) → List (Nat × Nat)}
  {make_undirected sorted : Bool} {input : List (Nat × Nat)}

/-- The run ends with these files. For an id of `2^32 - 1` the vector `idx` is empty and what
    `idx[0] = 0` does is undefined, with any options. -/
structure Writes (c : Converter) (sort : List (Nat × Nat) → List (Nat × Nat))
    (make_undirected sorted : Bool) (input : List (Nat × Nat)) (idx adj : List UInt8) : Prop where
  has_rows : largestId input + 1 < 2 ^ 32
  run : c.encodeUnweighted sort make_undirected sorted input = .ok (idx, adj)

/-- What the run writes: the arrays of the arcs, sorted first unless told that they are. -/
theorem writes_iff {idx adj : List UInt8} :
    c.Writes sort make_undirected sorted input idx adj ↔
      (largestId input + 1 < 2 ^ 32 ∧ (c.arcs make_undirected input).length ≤ maxPairs) ∧
      let pairs := if sorted then c.arcs make_undirected input
        else sort (c.arcs make_undirected input)
      idx = LittleEndian.encodeAll 8 (edgeListToCsr pairs (largestId input)).index ∧
        adj = LittleEndian.encodeAll 4 (edgeListToCsr pairs (largestId input)).dest := by
  have hfiles := encodeUnweighted_files sort make_undirected sorted (c.oriented input)
  rw [← encodeUnweighted_oriented, largestId_oriented, ← arcs] at hfiles
  by_cases hroom : (c.arcs make_undirected input).length ≤ maxPairs
  · rw [if_pos hroom] at hfiles
    constructor
    · intro h
      have hrun := h.run
      rw [hfiles, Except.ok.injEq, Prod.mk.injEq] at hrun
      exact ⟨⟨h.has_rows, hroom⟩, hrun.1.symm, hrun.2.symm⟩
    · rintro ⟨⟨hrows, -⟩, hidx, hadj⟩
      exact ⟨hrows, by rw [hfiles, hidx, hadj]⟩
  · rw [if_neg hroom] at hfiles
    constructor
    · intro h
      have hrun := h.run
      rw [hfiles] at hrun
      exact nomatch hrun
    · exact fun h => absurd h.1.2 hroom

/-- With `--sorted` the tool writes the same offsets as without it, and for each vertex the same
    destinations up to their order, which are those of the tool's graph. -/
def SortedAgrees (c : Converter) (sort : List (Nat × Nat) → List (Nat × Nat))
    (make_undirected : Bool) (input : List (Nat × Nat)) : Prop :=
  ∀ idx adj, c.Writes sort make_undirected false input idx adj →
    ∃ adj', c.Writes sort make_undirected true input idx adj' ∧
      ∀ v < 1 + largestId input, (adjacency idx adj' v).Perm (adjacency idx adj v) ∧
        (adjacency idx adj v).Perm
          (((c.arcs make_undirected input).filter fun p => p.1 = v).map Prod.snd)

/-- The two runs agree exactly if the pass gets a sorted list, or neither run writes anything. -/
theorem sortedAgrees_iff (hsort : SortsPairs sort) :
    c.SortedAgrees sort make_undirected input ↔
      (largestId input + 1 < 2 ^ 32 → (c.arcs make_undirected input).length ≤ maxPairs →
        SortedByOrigin (c.arcs make_undirected input)) := by
  have hin := fun p (hp : p ∈ c.arcs make_undirected input) => le_largestId_of_mem_arcs hp
  have hperm := hsort.perm (c.arcs make_undirected input)
  have hsize : (c.arcs make_undirected input).length ≤ maxPairs →
      (c.arcs make_undirected input).length < 2 ^ 64 := fun hroom =>
        Nat.lt_of_le_of_lt hroom (by decide)
  constructor
  · intro hagrees hrows hroom
    obtain ⟨adj', hwrites, -⟩ := hagrees _ _ (writes_iff.2 ⟨⟨hrows, hroom⟩, rfl, rfl⟩)
    exact (index_file_eq_iff hsort hrows (hsize hroom) fun p hp => (hin p hp).1).1
      (writes_iff.1 hwrites).2.1
  · intro horder idx adj hwrites
    obtain ⟨⟨hrows, hroom⟩, hidx, hadj⟩ := writes_iff.1 hwrites
    simp only [Bool.false_eq_true, if_false] at hidx hadj
    have hsorted := horder hrows hroom
    have hidx' := hidx.trans
      ((index_file_eq_iff hsort hrows (hsize hroom) fun p hp => (hin p hp).1).2 hsorted)
    refine ⟨_, writes_iff.2 ⟨⟨hrows, hroom⟩, hidx', rfl⟩, fun v hv => ?_⟩
    have hunsorted : (adjacency idx adj v).Perm
        (((c.arcs make_undirected input).filter fun p => p.1 = v).map Prod.snd) := by
      rw [hidx, hadj, adjacency_eq (hsort.sortedByOrigin _) hrows (hperm.length_eq ▸ hsize hroom)
        (fun p hp => hin p (hperm.mem_iff.1 hp)) (by omega)]
      exact (hperm.filter _).map _
    have hrow : adjacency idx (LittleEndian.encodeAll 4
          (edgeListToCsr (c.arcs make_undirected input) (largestId input)).dest) v =
        ((c.arcs make_undirected input).filter fun p => p.1 = v).map Prod.snd := by
      rw [hidx', adjacency_eq hsorted hrows (hsize hroom) hin (by omega)]
    exact ⟨hrow.symm ▸ hunsorted.symm, hunsorted⟩

/-! ### Which inputs stay sorted -/

/-- The inputs sorted by origin whose arcs the tool gets sorted. Without reversed arcs the first
    tool gets the input itself and the second one needs sorted targets. With them the two ids of a
    pair follow one another in the list, so every id of a pair has to be at most every id of the
    next. -/
def KeepsOrder : Converter → Bool → List (Nat × Nat) → Prop
  | .csr, false, _ => True
  | .csr, true, input => (∀ p ∈ input, p.1 ≤ p.2) ∧ input.Pairwise fun p q => p.2 ≤ q.1
  | .decsr, false, input => input.Pairwise fun p q => p.2 ≤ q.2
  | .decsr, true, input => (∀ p ∈ input, p.2 ≤ p.1) ∧ input.Pairwise fun p q => p.1 ≤ q.2

theorem requested_false (input : List (Nat × Nat)) : requested false input = input := by
  induction input with
  | nil => rfl
  | cons p input ih =>
      rw [requested_cons, ih]
      rfl

/-- Each pair is followed by its reverse. -/
theorem sortedByOrigin_requested_true {pairs : List (Nat × Nat)} :
    SortedByOrigin (requested true pairs) ↔
      (∀ p ∈ pairs, p.1 ≤ p.2) ∧ pairs.Pairwise fun p q => p.2 ≤ q.1 := by
  have hpair : ∀ p : Nat × Nat, ([p, p.swap].Pairwise fun p q => p.1 ≤ q.1) ↔ p.1 ≤ p.2 := by
    intro p
    simp
  have hnext : ∀ p q : Nat × Nat, p.1 ≤ p.2 → q.1 ≤ q.2 →
      ((∀ x ∈ [p, p.swap], ∀ y ∈ [q, q.swap], x.1 ≤ y.1) ↔ p.2 ≤ q.1) := by
    intro p q hp hq
    simp
    omega
  simp only [SortedByOrigin, requested, if_true, List.pairwise_flatMap, hpair]
  refine and_congr_right fun hall => ?_
  constructor
  · exact fun h => h.imp_of_mem fun hp hq hpq => (hnext _ _ (hall _ hp) (hall _ hq)).1 hpq
  · exact fun h => h.imp_of_mem fun hp hq hpq => (hnext _ _ (hall _ hp) (hall _ hq)).2 hpq

theorem sortedByOrigin_arcs_iff (c : Converter) (make_undirected : Bool) {input : List (Nat × Nat)}
    (hinput : SortedByOrigin input) :
    SortedByOrigin (c.arcs make_undirected input) ↔ c.KeepsOrder make_undirected input := by
  cases c with
  | csr =>
      cases make_undirected with
      | false =>
          rw [arcs, oriented, requested_false]
          exact iff_true_intro hinput
      | true => exact sortedByOrigin_requested_true
  | decsr =>
      cases make_undirected with
      | false =>
          rw [arcs, oriented, requested_false, KeepsOrder, SortedByOrigin, List.pairwise_map]
          rfl
      | true =>
          rw [arcs, oriented, sortedByOrigin_requested_true, List.forall_mem_map, List.pairwise_map]
          rfl

/-- No files come out, with `--sorted` or without: `idx` cannot be indexed, or the arcs do not fit
    in a vector. -/
def WritesNothing (make_undirected : Bool) (input : List (Nat × Nat)) : Prop :=
  2 ^ 32 ≤ largestId input + 1 ∨ maxPairs < (if make_undirected then 2 else 1) * input.length

end Converter

open Converter in
/-- The fast path of `--sorted` agrees with the sorting path, on an input sorted by origin, exactly
    if the arcs the tool makes of it are still sorted. For the first tool without
    `--make-undirected` they always are; the second one swaps the pairs and needs sorted targets;
    with `--make-undirected` the reversed arcs have to fall in place as well. -/
theorem sorted_option_agrees_iff (sort : List (Nat × Nat) → List (Nat × Nat))
    (hsort : SortsPairs sort) (c : Converter) (make_undirected : Bool) (input : List (Nat × Nat))
    (hinput : SortedByOrigin input) :
    c.SortedAgrees sort make_undirected input ↔
      WritesNothing make_undirected input ∨ c.KeepsOrder make_undirected input := by
  rw [sortedAgrees_iff hsort, sortedByOrigin_arcs_iff c make_undirected hinput, length_arcs,
    WritesNothing]
  by_cases hrows : largestId input + 1 < 2 ^ 32
  · by_cases hroom : (if make_undirected then 2 else 1) * input.length ≤ maxPairs
    · have hfits : ¬ (2 ^ 32 ≤ largestId input + 1 ∨
          maxPairs < (if make_undirected then 2 else 1) * input.length) := by omega
      simp only [hrows, hroom, hfits, true_implies, false_or]
    · simp only [hroom, false_implies, implies_true, Nat.not_le.1 hroom, or_true, true_or]
  · simp only [hrows, false_implies, Nat.not_lt.1 hrows, true_or]

/-- Two vertices with a common target: the second tool takes the swapped pairs as they come. -/
theorem sorted_option_agrees_common_target :
    SortedByOrigin [(0, 2), (1, 2), (1, 2)] ∧
      Converter.decsr.SortedAgrees (fun v => v.mergeSort fun p q => decide (PairLe p q)) false
        [(0, 2), (1, 2), (1, 2)] :=
  ⟨by decide, (sorted_option_agrees_iff _ sortsPairs_mergeSort .decsr false _ (by decide)).2
    (Or.inr (by simp [Converter.KeepsOrder]))⟩

/-- A two-cycle is sorted by origin but not by target, and two arcs out of one vertex are not sorted
    once their reverses are pushed after them. -/
theorem sorted_option_differs :
    (SortedByOrigin [(0, 1), (1, 0)] ∧
      ¬ Converter.decsr.SortedAgrees (fun v => v.mergeSort fun p q => decide (PairLe p q)) false
        [(0, 1), (1, 0)]) ∧
    SortedByOrigin [(0, 1), (0, 2)] ∧
      ¬ Converter.csr.SortedAgrees (fun v => v.mergeSort fun p q => decide (PairLe p q)) true
        [(0, 1), (0, 2)] := by
  refine ⟨⟨by decide, fun hagrees => ?_⟩, by decide, fun hagrees => ?_⟩
  · have hsorted := (Converter.sortedAgrees_iff sortsPairs_mergeSort).1 hagrees (by decide)
      (by decide)
    exact absurd hsorted (by decide)
  · have hsorted := (Converter.sortedAgrees_iff sortsPairs_mergeSort).1 hagrees (by decide)
      (by decide)
    exact absurd hsorted (by decide)

end FamGraph
