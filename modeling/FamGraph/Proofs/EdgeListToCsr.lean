/-
Module: FamGraph.Proofs.EdgeListToCsr
Layer: Proofs
Purpose: The converter and the two readers agree. On pairs sorted by origin the one pass computes,
  for every row, the number of pairs with a smaller origin: rows up to the current origin are final,
  the later ones are filled when the next origin or the end comes. Reading the files back gives the
  same arrays, so the slice between two offsets is the row of its vertex.
Trusted boundary: none
Main exports: pairsBefore, fillRows_getElem?, Scan.Covers, edgeListToCsr_eq, encodeUnweighted_eq,
  csr_round_trip
-/
import FamGraph.Core.EdgeListToCsr
import FamGraph.Core.FamServer
import FamGraph.Proofs.VertexTable
import Mathlib.Data.List.Sort

namespace FamGraph

/-! ### The pass over the sorted pairs -/

/-- The number of pairs with an origin before `row`. -/
def pairsBefore (pairs : List (Nat × Nat)) (row : Nat) : Nat := pairs.countP fun p => p.1 < row

theorem pairsBefore_le (pairs : List (Nat × Nat)) (row : Nat) :
    pairsBefore pairs row ≤ pairs.length :=
  List.countP_le_length

theorem pairsBefore_mono (pairs : List (Nat × Nat)) {row row' : Nat} (h : row ≤ row') :
    pairsBefore pairs row ≤ pairsBefore pairs row' := by
  refine List.countP_mono_left fun p _ hp => ?_
  simp only [decide_eq_true_eq] at hp ⊢
  omega

theorem pairsBefore_zero (pairs : List (Nat × Nat)) : pairsBefore pairs 0 = 0 := by
  simp [pairsBefore]

/-- Beyond the largest origin every pair counts. -/
theorem pairsBefore_of_forall_lt {pairs : List (Nat × Nat)} {row : Nat}
    (h : ∀ p ∈ pairs, p.1 < row) : pairsBefore pairs row = pairs.length := by
  rw [pairsBefore, List.countP_eq_length]
  exact fun p hp => decide_eq_true (h p hp)

/-- A pair at or after `row` does not count. -/
theorem pairsBefore_append_of_le (pairs : List (Nat × Nat)) {p : Nat × Nat} {row : Nat}
    (h : row ≤ p.1) : pairsBefore (pairs ++ [p]) row = pairsBefore pairs row := by
  have hp : ¬ p.1 < row := by omega
  simp [pairsBefore, hp]

/-- What the row-filling loop leaves in each entry. -/
theorem fillRows_getElem? (idx : List Nat) (first last count i : Nat) :
    (fillRows idx first last count)[i]? =
      if first ≤ i ∧ i ≤ last ∧ i < idx.length then some count else idx[i]? := by
  have hfold : ∀ (n first : Nat) (idx : List Nat),
      ((List.range' first n).foldl (fun idx row => idx.set row count) idx)[i]? =
        if first ≤ i ∧ i < first + n ∧ i < idx.length then some count else idx[i]? := by
    intro n
    induction n with
    | zero =>
        intro first idx
        have hnone : ¬ (first ≤ i ∧ i < first + 0 ∧ i < idx.length) := by omega
        rw [if_neg hnone]
        rfl
    | succ n ih =>
        intro first idx
        rw [List.range'_succ, List.foldl_cons, ih, List.length_set, List.getElem?_set]
        by_cases hi : first = i
        · subst hi
          have hnot : ¬ (first + 1 ≤ first ∧ first < first + 1 + n ∧ first < idx.length) := by omega
          rw [if_neg hnot, if_pos rfl]
          by_cases hlt : first < idx.length
          · have hin : first ≤ first ∧ first < first + (n + 1) ∧ first < idx.length := by omega
            rw [if_pos hlt, if_pos hin]
          · have hout : ¬ (first ≤ first ∧ first < first + (n + 1) ∧ first < idx.length) := by omega
            rw [if_neg hlt, if_neg hout, List.getElem?_eq_none (by omega)]
        · rw [if_neg hi]
          have hiff : (first + 1 ≤ i ∧ i < first + 1 + n ∧ i < idx.length) ↔
              (first ≤ i ∧ i < first + (n + 1) ∧ i < idx.length) := by omega
          rw [if_congr hiff rfl rfl]
  rw [fillRows, hfold]
  have hiff : (first ≤ i ∧ i < first + (last + 1 - first) ∧ i < idx.length) ↔
      (first ≤ i ∧ i ≤ last ∧ i < idx.length) := by omega
  rw [if_congr hiff rfl rfl]

@[simp] theorem length_fillRows (idx : List Nat) (first last count : Nat) :
    (fillRows idx first last count).length = idx.length := by
  rw [fillRows]
  generalize List.range' first (last + 1 - first) = rows
  induction rows generalizing idx with
  | nil => rfl
  | cons row rows ih => rw [List.foldl_cons, ih, List.length_set]

/-- The pairs are sorted by origin. -/
def SortedByOrigin (pairs : List (Nat × Nat)) : Prop := pairs.Pairwise fun p q => p.1 ≤ q.1

instance : DecidablePred SortedByOrigin := fun pairs =>
  inferInstanceAs (Decidable (pairs.Pairwise fun p q => p.1 ≤ q.1))

@[simp] theorem Scan.length_idx_step (s : Scan) (p : Nat × Nat) :
    (s.step p).idx.length = s.idx.length := by
  simp only [Scan.step]
  split
  · exact length_fillRows _ _ _ _
  · rfl

/-- One turn fills the rows after the last origin, up to the new one. -/
theorem Scan.getElem?_idx_step (s : Scan) (p : Nat × Nat) (row : Nat)
    (hprev : s.prev_vertex_from + 1 < 2 ^ 32) :
    (s.step p).idx[row]? =
      if s.prev_vertex_from < row ∧ row ≤ p.1 ∧ row < s.idx.length then some s.count
      else s.idx[row]? := by
  have hwrap : (s.prev_vertex_from + 1) % 2 ^ 32 = s.prev_vertex_from + 1 := Nat.mod_eq_of_lt hprev
  simp only [Scan.step]
  split
  · rw [fillRows_getElem?, hwrap]
    rfl
  · rename_i hsame
    have hnone : ¬ (s.prev_vertex_from < row ∧ row ≤ p.1 ∧ row < s.idx.length) := by omega
    rw [if_neg hnone]

variable {max_vert total : Nat}

/-- An assignment behind what has been stored stores one more element. -/
theorem set_append_replicate {β : Type} (stored : List β) (x zero : β) (room : Nat) :
    (stored ++ List.replicate (room + 1) zero).set stored.length x =
      stored ++ [x] ++ List.replicate room zero := by
  rw [List.replicate_succ, List.set_append_right _ _ (Nat.le_refl _), Nat.sub_self,
    List.set_cons_zero, List.append_assoc]
  rfl

/-- One turn stores the destination of its pair. -/
theorem Scan.dest_step {s : Scan} {done : List (Nat × Nat)}
    (hdest : s.dest = done.map Prod.snd ++ List.replicate (total - done.length) 0)
    (hcount : s.count = done.length) (p : Nat × Nat) (hroom : done.length < total) :
    (s.step p).dest =
      (done ++ [p]).map Prod.snd ++ List.replicate (total - (done ++ [p]).length) 0 := by
  have hrest : total - done.length = total - (done ++ [p]).length + 1 := by
    rw [List.length_append, List.length_singleton]
    omega
  have hstored : s.count = (done.map Prod.snd).length := by rw [hcount, List.length_map]
  simp only [Scan.step]
  rw [hdest, hstored, hrest, set_append_replicate, List.map_append]
  rfl

/-- The vector of offsets before the first pair. -/
theorem Scan.length_idx_start (v : List (Nat × Nat)) (hmax : max_vert + 1 < 2 ^ 32) :
    (Scan.start v max_vert).idx.length = max_vert + 1 := by
  simp only [Scan.start, List.length_set, List.length_replicate]
  omega

theorem Scan.getElem?_idx_start (v : List (Nat × Nat)) (hmax : max_vert + 1 < 2 ^ 32) :
    (Scan.start v max_vert).idx[0]? = some 0 := by
  have hpos : 0 < (max_vert + 1) % 2 ^ 32 := by omega
  simp only [Scan.start, List.getElem?_set, List.length_replicate, if_true, if_pos hpos]

/-- After the pass the rows behind the last origin are filled. -/
theorem edgeListToCsr_index_getElem? (v : List (Nat × Nat)) (row : Nat)
    (hlast : (v.foldl Scan.step (Scan.start v max_vert)).vertex_from + 1 < 2 ^ 32) :
    (edgeListToCsr v max_vert).index[row]? =
      if (v.foldl Scan.step (Scan.start v max_vert)).vertex_from < row ∧ row ≤ max_vert ∧
          row < (v.foldl Scan.step (Scan.start v max_vert)).idx.length then some v.length
      else (v.foldl Scan.step (Scan.start v max_vert)).idx[row]? := by
  simp only [edgeListToCsr]
  rw [fillRows_getElem?, Nat.mod_eq_of_lt hlast]
  rfl

/-- The variables of the pass after the pairs `done` of `total`: rows up to the current origin are
    final. -/
structure Scan.Covers (s : Scan) (max_vert total : Nat) (done : List (Nat × Nat)) : Prop where
  idx_length : s.idx.length = max_vert + 1
  dest : s.dest = done.map Prod.snd ++ List.replicate (total - done.length) 0
  count : s.count = done.length
  prev : s.prev_vertex_from = s.vertex_from
  origin_le : ∀ p ∈ done, p.1 ≤ s.vertex_from
  le_max : s.vertex_from ≤ max_vert
  rows : ∀ row ≤ s.vertex_from, s.idx[row]? = some (pairsBefore done row)

theorem Scan.covers_start (v : List (Nat × Nat)) (hmax : max_vert + 1 < 2 ^ 32) :
    (Scan.start v max_vert).Covers max_vert v.length [] := by
  refine ⟨Scan.length_idx_start v hmax, by simp [Scan.start], rfl, rfl,
    fun p hp => absurd hp List.not_mem_nil, Nat.zero_le _, ?_⟩
  intro row hrow
  obtain rfl : row = 0 := Nat.le_zero.1 hrow
  rw [pairsBefore_zero, Scan.getElem?_idx_start v hmax]

/-- One pair: the rows skipped since the last origin are filled with the count so far. -/
theorem Scan.Covers.step {s : Scan} {done : List (Nat × Nat)} {p : Nat × Nat}
    (h : s.Covers max_vert total done) (horigin : s.vertex_from ≤ p.1) (hp : p.1 ≤ max_vert)
    (hmax : max_vert + 1 < 2 ^ 32) (hroom : done.length < total) :
    (s.step p).Covers max_vert total (done ++ [p]) := by
  have hle := h.le_max
  have hprev := h.prev
  refine ⟨?_, Scan.dest_step h.dest h.count p hroom, ?_, rfl, ?_, hp, ?_⟩
  · rw [Scan.length_idx_step]
    exact h.idx_length
  · simp only [Scan.step, h.count, List.length_append, List.length_singleton]
  · intro q hq
    rcases List.mem_append.1 hq with hq | hq
    · exact Nat.le_trans (h.origin_le q hq) horigin
    · rw [List.mem_singleton.1 hq]
      exact Nat.le_refl _
  · intro row hrow
    have hrow' : row ≤ p.1 := hrow
    have hlength := h.idx_length
    rw [pairsBefore_append_of_le done hrow', Scan.getElem?_idx_step s p row (by omega)]
    rcases Nat.lt_or_ge s.vertex_from row with hnew | hold
    · have hin : s.prev_vertex_from < row ∧ row ≤ p.1 ∧ row < s.idx.length := by omega
      have hall : pairsBefore done row = done.length :=
        pairsBefore_of_forall_lt fun q hq => Nat.lt_of_le_of_lt (h.origin_le q hq) hnew
      rw [if_pos hin, hall, h.count]
    · have hout : ¬ (s.prev_vertex_from < row ∧ row ≤ p.1 ∧ row < s.idx.length) := by omega
      rw [if_neg hout]
      exact h.rows row hold

/-- The whole pass. -/
theorem Scan.Covers.foldl {s : Scan} {done rest : List (Nat × Nat)}
    (h : s.Covers max_vert (done ++ rest).length done) (hsorted : SortedByOrigin rest)
    (horigin : ∀ p ∈ rest, s.vertex_from ≤ p.1) (hmax : max_vert + 1 < 2 ^ 32)
    (hrest : ∀ p ∈ rest, p.1 ≤ max_vert) :
    (rest.foldl Scan.step s).Covers max_vert (done ++ rest).length (done ++ rest) := by
  induction rest generalizing s done with
  | nil =>
      rw [List.append_nil] at h ⊢
      exact h
  | cons p rest ih =>
      obtain ⟨hp, hsorted⟩ := List.pairwise_cons.1 hsorted
      have hsplit : done ++ p :: rest = (done ++ [p]) ++ rest := by simp
      have hstep := h.step (horigin p List.mem_cons_self) (hrest p List.mem_cons_self) hmax
        (by simp)
      rw [List.foldl_cons]
      rw [hsplit] at hstep ⊢
      exact ih hstep hsorted hp fun q hq => hrest q (List.mem_cons_of_mem p hq)

/-- The converter's arrays, for pairs sorted by origin: no index entry keeps its initial value. -/
theorem edgeListToCsr_eq {v : List (Nat × Nat)} (hsorted : SortedByOrigin v)
    (hmax : max_vert + 1 < 2 ^ 32) (hv : ∀ p ∈ v, p.1 ≤ max_vert) :
    edgeListToCsr v max_vert =
      { index := (List.range (max_vert + 1)).map (pairsBefore v), dest := v.map Prod.snd } := by
  have hstart : (Scan.start v max_vert).Covers max_vert ([] ++ v).length [] :=
    Scan.covers_start v hmax
  have h := hstart.foldl hsorted (fun _ _ => Nat.zero_le _) hmax hv
  rw [List.nil_append] at h
  have hle := h.le_max
  have hdest : (edgeListToCsr v max_vert).dest = v.map Prod.snd := by
    simp [edgeListToCsr, h.dest]
  have hindex : (edgeListToCsr v max_vert).index =
      (List.range (max_vert + 1)).map (pairsBefore v) := by
    refine List.ext_getElem? fun row => ?_
    rw [edgeListToCsr_index_getElem? v row (by omega), h.idx_length, List.getElem?_map]
    rcases Nat.lt_or_ge max_vert row with hout | hin
    · have hnot : ¬ ((v.foldl Scan.step (Scan.start v max_vert)).vertex_from < row ∧
          row ≤ max_vert ∧ row < max_vert + 1) := by omega
      rw [if_neg hnot, List.getElem?_eq_none (by rw [h.idx_length]; omega),
        List.getElem?_eq_none (by rw [List.length_range]; omega)]
      rfl
    · rw [List.getElem?_range (by omega), Option.map_some]
      rcases Nat.lt_or_ge (v.foldl Scan.step (Scan.start v max_vert)).vertex_from row with hnew |
        hold
      · have hall : pairsBefore v row = v.length :=
          pairsBefore_of_forall_lt fun q hq => Nat.lt_of_le_of_lt (h.origin_le q hq) hnew
        rw [if_pos ⟨hnew, hin, by omega⟩, hall]
      · rw [if_neg fun hnew => absurd hnew.1 (by omega)]
        exact h.rows row hold
  rw [← hdest, ← hindex]

/-! ### The rows of the sorted pairs -/

/-- The pairs before the row of `v` come first. -/
theorem drop_pairsBefore {pairs : List (Nat × Nat)} (h : SortedByOrigin pairs) (v : Nat) :
    pairs.drop (pairsBefore pairs v) = pairs.filter fun p => v ≤ p.1 := by
  induction pairs with
  | nil => rfl
  | cons p pairs ih =>
      obtain ⟨hp, h⟩ := List.pairwise_cons.1 h
      rcases Nat.lt_or_ge p.1 v with hlt | hge
      · have hcount : pairsBefore (p :: pairs) v = pairsBefore pairs v + 1 := by
          simp [pairsBefore, hlt]
        have hout : ¬ v ≤ p.1 := by omega
        rw [hcount, List.drop_succ_cons, ih h, List.filter_cons_of_neg (by simpa using hout)]
      · have hall : ∀ q ∈ p :: pairs, v ≤ q.1 := by
          intro q hq
          rcases List.mem_cons.1 hq with rfl | hq
          · exact hge
          · exact Nat.le_trans hge (hp q hq)
        have hnone : pairsBefore (p :: pairs) v = 0 := by
          rw [pairsBefore, List.countP_eq_zero]
          intro q hq
          have hq' := hall q hq
          simp only [decide_eq_true_eq]
          omega
        rw [hnone, List.drop_zero, List.filter_eq_self.2 fun q hq => decide_eq_true (hall q hq)]

/-- Among pairs with an origin of at least `v`, those with origin `v` come first. -/
theorem take_row {pairs : List (Nat × Nat)} (h : SortedByOrigin pairs) {v : Nat}
    (hall : ∀ p ∈ pairs, v ≤ p.1) :
    pairs.take (pairs.countP fun p => p.1 = v) = pairs.filter fun p => p.1 = v := by
  induction pairs with
  | nil => rfl
  | cons p pairs ih =>
      obtain ⟨hp, h⟩ := List.pairwise_cons.1 h
      by_cases hv : p.1 = v
      · have hrest := ih h fun q hq => hall q (List.mem_cons_of_mem p hq)
        rw [List.countP_cons_of_pos (by simpa using hv),
          List.filter_cons_of_pos (by simpa using hv), List.take_succ_cons, hrest]
      · have hlater : ∀ q ∈ p :: pairs, ¬ q.1 = v := by
          intro q hq
          have hpv := hall p List.mem_cons_self
          rcases List.mem_cons.1 hq with rfl | hq
          · exact hv
          · have hpq := hp q hq
            omega
        have hnone : ((p :: pairs).countP fun q => q.1 = v) = 0 :=
          List.countP_eq_zero.2 fun q hq => by simpa using hlater q hq
        rw [hnone, List.take_zero]
        exact (List.filter_eq_nil_iff.2 fun q hq => by simpa using hlater q hq).symm

/-- The slice of `v` holds the pairs with origin `v`. -/
theorem slice_eq_row {pairs : List (Nat × Nat)} (h : SortedByOrigin pairs) (v : Nat) :
    (pairs.drop (pairsBefore pairs v)).take (pairs.countP fun p => p.1 = v) =
      pairs.filter fun p => p.1 = v := by
  have hcount : (pairs.countP fun p => p.1 = v) =
      (pairs.filter fun p => v ≤ p.1).countP fun p => p.1 = v := by
    rw [List.countP_filter]
    refine List.countP_congr fun p _ => ?_
    simp only [decide_eq_true_eq, Bool.and_eq_true]
    omega
  rw [drop_pairsBefore h, hcount, take_row (List.Pairwise.filter _ h) fun p hp => ?_,
    List.filter_filter]
  · refine List.filter_congr fun p _ => ?_
    by_cases hv : p.1 = v
    · simp [hv]
    · simp [hv]
  · simpa using (List.mem_filter.1 hp).2

/-- The pairs up to the row of `v` are those before it and its own. -/
theorem pairsBefore_succ (pairs : List (Nat × Nat)) (v : Nat) :
    pairsBefore pairs (v + 1) = pairsBefore pairs v + pairs.countP fun p => p.1 = v := by
  induction pairs with
  | nil => rfl
  | cons p pairs ih =>
      simp only [pairsBefore, List.countP_cons] at ih ⊢
      rw [ih]
      rcases Nat.lt_trichotomy p.1 v with hlt | heq | hgt
      · have hsucc : p.1 < v + 1 := by omega
        have hne : ¬ p.1 = v := by omega
        simp only [hlt, hsucc, hne, decide_true, decide_false, if_true]
        simp
        omega
      · simp [heq]
        omega
      · have hsucc : ¬ p.1 < v + 1 := by omega
        have hne : ¬ p.1 = v := by omega
        have hnlt : ¬ p.1 < v := by omega
        simp [hsucc, hne, hnlt]

/-! ### Writing and reading back -/

/-- The arcs of the graph the files stand for. -/
def requested (make_undirected : Bool) (input : List (Nat × Nat)) : List (Nat × Nat) :=
  input.flatMap fun p => if make_undirected then [p, p.swap] else [p]

/-- The largest id in the input, 0 if there is none. -/
def largestId (input : List (Nat × Nat)) : Nat := (input.map fun p => max p.1 p.2).foldr max 0

/-- Sorting by origin, then by destination. -/
def PairLe (p q : Nat × Nat) : Prop := p.1 < q.1 ∨ p.1 = q.1 ∧ p.2 ≤ q.2

instance : DecidableRel PairLe := fun p q =>
  inferInstanceAs (Decidable (p.1 < q.1 ∨ p.1 = q.1 ∧ p.2 ≤ q.2))

/-- What the converter relies on: `oneapi::dpl::sort` orders the pairs lexicographically. -/
structure SortsPairs (sort : List (Nat × Nat) → List (Nat × Nat)) : Prop where
  perm : ∀ v, (sort v).Perm v
  sorted : ∀ v, (sort v).Pairwise PairLe

theorem SortsPairs.sortedByOrigin {sort : List (Nat × Nat) → List (Nat × Nat)} (h : SortsPairs sort)
    (v : List (Nat × Nat)) : SortedByOrigin (sort v) := by
  refine List.Pairwise.imp (fun {p q} hpq => ?_) (h.sorted v)
  rcases hpq with hlt | ⟨heq, -⟩
  · exact Nat.le_of_lt hlt
  · exact Nat.le_of_eq heq

/-- A merge sort by that order will do. -/
theorem sortsPairs_mergeSort : SortsPairs fun v => v.mergeSort fun p q => decide (PairLe p q) where
  perm v := List.mergeSort_perm v _
  sorted v := by
    have hsorted : (v.mergeSort fun p q => decide (PairLe p q)).Pairwise
        fun p q => decide (PairLe p q) = true := by
      apply List.pairwise_mergeSort
      · intro p q r hpq hqr
        have hpq := of_decide_eq_true hpq
        have hqr := of_decide_eq_true hqr
        refine decide_eq_true ?_
        simp only [PairLe] at hpq hqr ⊢
        omega
      · intro p q
        rw [Bool.or_eq_true, decide_eq_true_eq, decide_eq_true_eq]
        simp only [PairLe]
        omega
    exact hsorted.imp fun hpq => of_decide_eq_true hpq

theorem requested_cons (make_undirected : Bool) (p : Nat × Nat) (input : List (Nat × Nat)) :
    requested make_undirected (p :: input) =
      (if make_undirected then [p, p.swap] else [p]) ++ requested make_undirected input := rfl

theorem largestId_cons (p : Nat × Nat) (input : List (Nat × Nat)) :
    largestId (p :: input) = max (max p.1 p.2) (largestId input) := rfl

/-- Every id of the requested arcs is at most the largest one. -/
theorem le_largestId {make_undirected : Bool} {input : List (Nat × Nat)} {p : Nat × Nat}
    (hp : p ∈ requested make_undirected input) :
    p.1 ≤ largestId input ∧ p.2 ≤ largestId input := by
  induction input with
  | nil => exact absurd hp List.not_mem_nil
  | cons q input ih =>
      rw [requested_cons] at hp
      rw [largestId_cons]
      rcases List.mem_append.1 hp with hq | hp
      · have hcase : p = q ∨ p = q.swap := by
          cases make_undirected with
          | true => simpa using hq
          | false => exact Or.inl (by simpa using hq)
        rcases hcase with rfl | rfl
        · omega
        · simp only [Prod.fst_swap, Prod.snd_swap]
          omega
      · have hle := ih hp
        omega

theorem largestId_le {input : List (Nat × Nat)} {bound : Nat}
    (h : ∀ p ∈ input, p.1 ≤ bound ∧ p.2 ≤ bound) : largestId input ≤ bound := by
  induction input with
  | nil => exact Nat.zero_le _
  | cons p input ih =>
      have hp := h p List.mem_cons_self
      have hrest := ih fun q hq => h q (List.mem_cons_of_mem p hq)
      rw [largestId_cons]
      omega

/-- One turn of the reading loop appends the arcs of one pair, as long as a vector can hold them. -/
theorem readEdgeList_cons (make_undirected : Bool) (v : List (Nat × Nat)) (max_vert : Nat)
    (p : Nat × Nat) (input : List (Nat × Nat)) :
    readEdgeList make_undirected v max_vert (p :: input) =
      if (v ++ if make_undirected then [p, p.swap] else [p]).length ≤ maxPairs then
        readEdgeList make_undirected (v ++ if make_undirected then [p, p.swap] else [p])
          (max max_vert (max p.1 p.2)) input
      else .error "vector::_M_realloc_insert" := by
  obtain ⟨a, b⟩ := p
  cases make_undirected with
  | false =>
      by_cases hroom : v.length < maxPairs
      · have hfits : v.length + 1 ≤ maxPairs := hroom
        simp [readEdgeList, pushBack, hroom, hfits, bind, Except.bind]
      · have hfull : ¬ v.length + 1 ≤ maxPairs := hroom
        simp [readEdgeList, pushBack, hroom, hfull, bind, Except.bind]
  | true =>
      by_cases hroom : v.length + 1 < maxPairs
      · have hone : v.length < maxPairs := by omega
        have hfits : v.length + 2 ≤ maxPairs := hroom
        simp [readEdgeList, pushBack, hone, hroom, hfits, bind, Except.bind]
      · have hfull : ¬ v.length + 2 ≤ maxPairs := hroom
        by_cases hone : v.length < maxPairs
        · simp [readEdgeList, pushBack, hone, hroom, hfull, bind, Except.bind]
        · simp [readEdgeList, pushBack, hone, hfull, bind, Except.bind]

/-- The reading loop collects the requested arcs, as long as a vector can hold them. -/
theorem readEdgeList_eq (make_undirected : Bool) (v : List (Nat × Nat)) (max_vert : Nat)
    (input : List (Nat × Nat)) (hv : v.length ≤ maxPairs) :
    readEdgeList make_undirected v max_vert input =
      if (v ++ requested make_undirected input).length ≤ maxPairs then
        .ok (v ++ requested make_undirected input, max max_vert (largestId input))
      else .error "vector::_M_realloc_insert" := by
  induction input generalizing v max_vert with
  | nil => simp [readEdgeList, requested, largestId, hv]
  | cons p input ih =>
      have hmax : max max_vert (max (max p.1 p.2) (largestId input)) =
          max (max max_vert (max p.1 p.2)) (largestId input) := by omega
      rw [readEdgeList_cons, requested_cons, largestId_cons, ← List.append_assoc, hmax]
      generalize (v ++ if make_undirected then [p, p.swap] else [p]) = v'
      by_cases hroom : v'.length ≤ maxPairs
      · rw [if_pos hroom, ih v' _ hroom]
      · have hfull : ¬ (v' ++ requested make_undirected input).length ≤ maxPairs := by
          rw [List.length_append]
          omega
        rw [if_neg hroom, if_neg hfull]

/-- What the converter writes: the arrays of the requested arcs, sorted first unless told that they
    are. -/
theorem encodeUnweighted_files (sort : List (Nat × Nat) → List (Nat × Nat))
    (make_undirected sorted : Bool) (input : List (Nat × Nat)) :
    encodeUnweighted sort make_undirected sorted input =
      if (requested make_undirected input).length ≤ maxPairs then
        let arcs := if sorted then requested make_undirected input
          else sort (requested make_undirected input)
        .ok (LittleEndian.encodeAll 8 (edgeListToCsr arcs (largestId input)).index,
          LittleEndian.encodeAll 4 (edgeListToCsr arcs (largestId input)).dest)
      else .error "vector::_M_realloc_insert" := by
  have hread := readEdgeList_eq make_undirected [] 0 input (Nat.zero_le _)
  rw [List.nil_append, Nat.zero_max] at hread
  by_cases hroom : (requested make_undirected input).length ≤ maxPairs
  · rw [if_pos hroom] at hread ⊢
    simp only [encodeUnweighted, hread, bind, Except.bind]
    rfl
  · rw [if_neg hroom] at hread ⊢
    simp only [encodeUnweighted, hread, bind, Except.bind]

/-- What the converter writes for the requested arcs. -/
theorem encodeUnweighted_eq {sort : List (Nat × Nat) → List (Nat × Nat)} (hsort : SortsPairs sort)
    (make_undirected : Bool) {input : List (Nat × Nat)}
    (hids : ∀ p ∈ input, p.1 ≤ 2 ^ 32 - 2 ∧ p.2 ≤ 2 ^ 32 - 2) :
    encodeUnweighted sort make_undirected false input =
      if (requested make_undirected input).length ≤ maxPairs then
        .ok (LittleEndian.encodeAll 8 ((List.range (largestId input + 1)).map
            (pairsBefore (sort (requested make_undirected input)))),
          LittleEndian.encodeAll 4 ((sort (requested make_undirected input)).map Prod.snd))
      else .error "vector::_M_realloc_insert" := by
  have hmax := largestId_le hids
  have hcsr : edgeListToCsr (sort (requested make_undirected input)) (largestId input) = _ :=
    edgeListToCsr_eq (hsort.sortedByOrigin _) (by omega) fun p hp =>
      (le_largestId ((hsort.perm _).mem_iff.1 hp)).1
  simp only [encodeUnweighted_files, Bool.false_eq_true, if_false, hcsr]

/-- The `.adj` file of a word array has as many elements as the array. -/
theorem numElements_encodeAll (dest : List Nat) :
    numElements 4 (LittleEndian.encodeAll 4 dest) = dest.length := by
  rw [numElements, LittleEndian.length_encodeAll, Nat.mul_div_cancel_left _ (by decide)]

/-- The server loads the words that were written. -/
theorem getEdgeList_encodeAll {dest : List Nat} (h : ∀ x ∈ dest, x < 2 ^ 32) :
    getEdgeList (LittleEndian.encodeAll 4 dest) = dest := by
  refine List.ext_getElem (by simp [getEdgeList, numElements_encodeAll]) fun i hi hi' => ?_
  simp only [getEdgeList, List.getElem_map, List.getElem_range]
  exact LittleEndian.wordAt_encodeAll hi' (h _ (List.getElem_mem hi'))

/-- Sorting arcs and then picking a row sorts the row. -/
theorem sorted_row {sort : List (Nat × Nat) → List (Nat × Nat)} (hsort : SortsPairs sort)
    (arcs : List (Nat × Nat)) (v : Nat) :
    ((sort arcs).filter fun p => p.1 = v).map Prod.snd =
      ((arcs.filter fun p => p.1 = v).map Prod.snd).mergeSort := by
  have hperm : (((sort arcs).filter fun p => p.1 = v).map Prod.snd).Perm
      ((arcs.filter fun p => p.1 = v).map Prod.snd).mergeSort :=
    (((hsort.perm arcs).filter _).map _).trans (List.mergeSort_perm _ _).symm
  have hleft : (((sort arcs).filter fun p => p.1 = v).map Prod.snd).Pairwise (· ≤ ·) := by
    rw [List.pairwise_map]
    refine List.Pairwise.imp_of_mem (fun {p q} hp hq hpq => ?_) ((hsort.sorted arcs).filter _)
    have hpv : p.1 = v := by simpa using (List.mem_filter.1 hp).2
    have hqv : q.1 = v := by simpa using (List.mem_filter.1 hq).2
    rcases hpq with hlt | ⟨-, hle⟩
    · omega
    · exact hle
  have hright : ((arcs.filter fun p => p.1 = v).map Prod.snd).mergeSort.Pairwise (· ≤ ·) := by
    refine (List.pairwise_mergeSort ?_ ?_ _).imp fun hab => of_decide_eq_true hab
    · intro a b c hab hbc
      simp only [decide_eq_true_eq] at hab hbc ⊢
      exact Nat.le_trans hab hbc
    · intro a b
      simp only [Bool.or_eq_true, decide_eq_true_eq]
      exact Nat.le_total a b
  exact hperm.eq_of_pairwise (fun a b _ _ hab hba => Nat.le_antisymm hab hba) hleft hright

/-- The offsets the converter writes are a well-formed index of the edge array. -/
theorem wellFormed_pairsBefore {arcs : List (Nat × Nat)} {max_vert : Nat}
    (hmax : max_vert + 1 < 2 ^ 32) (harcs : arcs.length < 2 ^ 64) {edge_offset : Nat → Nat}
    (hoffset : ∀ v ≤ max_vert, edge_offset v = pairsBefore arcs v) :
    WellFormedIndex edge_offset (max_vert + 1) arcs.length where
  num_vertices_lt := hmax
  num_edges_lt := harcs
  mono v hv := by
    rw [hoffset v (by omega), hoffset (v + 1) (by omega)]
    exact pairsBefore_mono arcs (Nat.le_succ v)
  le v hv := by
    rw [hoffset v (by omega)]
    exact pairsBefore_le arcs v

/-- The gap between two offsets is the size of the row. -/
theorem adjacencyEnd_eq {arcs : List (Nat × Nat)} {max_vert v : Nat} {edge_offset : Nat → Nat}
    (hoffset : ∀ v ≤ max_vert, edge_offset v = pairsBefore arcs v)
    (harcs : ∀ p ∈ arcs, p.1 ≤ max_vert) (hv : v ≤ max_vert) :
    adjacencyEnd edge_offset (max_vert + 1) arcs.length v - edge_offset v =
      arcs.countP fun p => p.1 = v := by
  have hnext :
      adjacencyEnd edge_offset (max_vert + 1) arcs.length v = pairsBefore arcs (v + 1) := by
    unfold adjacencyEnd
    split
    · rename_i hlast
      exact (pairsBefore_of_forall_lt fun p hp => by have := harcs p hp; omega).symm
    · exact hoffset (v + 1) (by omega)
  rw [hnext, hoffset v hv, pairsBefore_succ]
  omega

/-- Round trip of the converter and the runtime: for every list of pairs of ids below `2^32 - 1`
    that a vector can hold, with or without the reversed pairs, the files are written, the client
    reads one more vertex than the largest id and an index that starts at 0, is nondecreasing and
    stays within the edge array, the server counts the arcs, and each vertex gets its out-degree and
    its sorted neighbours. -/
theorem csr_round_trip (sort : List (Nat × Nat) → List (Nat × Nat)) (hsort : SortsPairs sort)
    (make_undirected : Bool) (input : List (Nat × Nat))
    (hids : ∀ p ∈ input, p.1 ≤ 2 ^ 32 - 2 ∧ p.2 ≤ 2 ^ 32 - 2) :
    ((requested make_undirected input).length ≤ maxPairs →
      ∃ files, encodeUnweighted sort make_undirected false input = .ok files) ∧
    ∀ idx adj, encodeUnweighted sort make_undirected false input = .ok (idx, adj) →
      getNumVerts idx = .ok (1 + largestId input) ∧
      numElements 4 adj = (requested make_undirected input).length ∧
      ∃ table, getVertexTable (1 + largestId input) idx = .ok table ∧
        table.length = 1 + largestId input ∧ table[0]? = some 0 ∧ table.Pairwise (· ≤ ·) ∧
        (∀ offset ∈ table, offset ≤ (requested make_undirected input).length) ∧
        ∀ v < 1 + largestId input,
          ((requested make_undirected input).countP fun p => p.1 = v) < 2 ^ 32 →
          getNumEdges v (fun i => table.getD i 0) (1 + largestId input) (numElements 4 adj) =
            ((requested make_undirected input).countP fun p => p.1 = v) ∧
          ((getEdgeList adj).drop (table.getD v 0)).take
              ((requested make_undirected input).countP fun p => p.1 = v) =
            (((requested make_undirected input).filter fun p => p.1 = v).map
              Prod.snd).mergeSort := by
  have hencode := encodeUnweighted_eq hsort make_undirected hids
  have hmax := largestId_le hids
  have hbound := fun p (hp : p ∈ requested make_undirected input) => le_largestId hp
  have hcomm : 1 + largestId input = largestId input + 1 := Nat.add_comm _ _
  generalize requested make_undirected input = arcs at hencode hbound ⊢
  refine ⟨fun hroom => ⟨_, hencode.trans (if_pos hroom)⟩, fun idx adj hfiles => ?_⟩
  by_cases hroom : arcs.length ≤ maxPairs
  · rw [hencode, if_pos hroom, Except.ok.injEq, Prod.mk.injEq] at hfiles
    obtain ⟨rfl, rfl⟩ := hfiles
    have hperm := hsort.perm arcs
    have hlength : (sort arcs).length = arcs.length := hperm.length_eq
    have hcount : ∀ v, ((sort arcs).countP fun p => p.1 = v) = arcs.countP fun p => p.1 = v :=
      fun v => hperm.countP_eq _
    have hin : ∀ p ∈ sort arcs, p.1 ≤ largestId input ∧ p.2 ≤ largestId input :=
      fun p hp => hbound p (hperm.mem_iff.1 hp)
    have hsize : arcs.length < 2 ^ 64 := by
      have hle : maxPairs < 2 ^ 64 := by decide
      omega
    have htable : ((List.range (largestId input + 1)).map (pairsBefore (sort arcs))).length =
        1 + largestId input := by simp [hcomm]
    have hoffset : ∀ v ≤ largestId input,
        ((List.range (largestId input + 1)).map (pairsBefore (sort arcs))).getD v 0 =
          pairsBefore (sort arcs) v := by
      intro v hv
      rw [List.getD_eq_getElem?_getD, List.getElem?_map, List.getElem?_range (by omega)]
      rfl
    have hentries : ∀ x ∈ (List.range (largestId input + 1)).map (pairsBefore (sort arcs)),
        x ≤ arcs.length := by
      intro x hx
      obtain ⟨row, -, rfl⟩ := List.mem_map.1 hx
      exact hlength ▸ pairsBefore_le _ row
    have hadj : numElements 4 (LittleEndian.encodeAll 4 ((sort arcs).map Prod.snd)) =
        arcs.length := by rw [numElements_encodeAll, List.length_map, hlength]
    have hdest : getEdgeList (LittleEndian.encodeAll 4 ((sort arcs).map Prod.snd)) =
        (sort arcs).map Prod.snd := by
      refine getEdgeList_encodeAll fun x hx => ?_
      obtain ⟨p, hp, rfl⟩ := List.mem_map.1 hx
      have hle := (hin p hp).2
      omega
    rw [hadj, hdest]
    refine ⟨?_, rfl, _, ?_, htable, ?_, ?_, hentries, ?_⟩
    · rw [getNumVerts_encodeAll (by omega), htable]
    · rw [← htable]
      exact getVertexTable_encodeAll fun x hx => by have hle := hentries x hx; omega
    · rw [List.getElem?_map, List.getElem?_range (by omega), Option.map_some, pairsBefore_zero]
    · rw [List.pairwise_map]
      exact List.pairwise_lt_range.imp fun hlt => pairsBefore_mono _ (Nat.le_of_lt hlt)
    · intro v hv hdegree
      have hv' : v ≤ largestId input := by omega
      have hwell : WellFormedIndex _ (largestId input + 1) (sort arcs).length :=
        wellFormed_pairsBefore (by omega) (by omega) hoffset
      have hgap := adjacencyEnd_eq hoffset (fun p hp => (hin p hp).1) hv'
      rw [hlength] at hwell hgap
      rw [hcount] at hgap
      constructor
      · rw [hcomm, hwell.getNumEdges_eq (by omega) (by omega), hgap]
      · rw [hoffset v hv', ← List.map_drop, ← List.map_take, ← hcount v,
          slice_eq_row (hsort.sortedByOrigin arcs), sorted_row hsort]
  · rw [hencode, if_neg hroom] at hfiles
    cases hfiles

/-- A triangle with a gap in its ids and a self-loop is written. -/
theorem csr_round_trip_triangle :
    ∃ files, encodeUnweighted (fun v => v.mergeSort fun p q => decide (PairLe p q)) true false
      [(5, 1), (1, 2), (2, 5), (2, 2)] = .ok files :=
  (csr_round_trip _ sortsPairs_mergeSort true [(5, 1), (1, 2), (2, 5), (2, 2)] (by decide)).1
    (by decide)

end FamGraph
