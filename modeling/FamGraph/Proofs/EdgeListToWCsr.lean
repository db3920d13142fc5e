/-
Module: FamGraph.Proofs.EdgeListToWCsr
Layer: Proofs
Purpose: The two builders agree. Forgetting the weights turns a turn of the weighted pass into a
  turn of the other one, so what is left of their difference is the initial value of the index
  entries. Two passes that differ in nothing else agree, after every arc, on all rows from 1 up to
  the current origin: each of these was written by a row-filling loop. Entry 0 is written before the
  loops and by none of them.
Trusted boundary: none
Main exports: WScan.forget, SameRows, Scan.Agree, wIndexFrom_eq, Assigned, edgeListToWCsr_agrees
-/
import FamGraph.Core.EdgeListToWCsr
import FamGraph.Proofs.EdgeListToCsr

namespace FamGraph

variable {α : Type} {max_vert : Nat}

/-! ### Forgetting the weights -/

/-- The variables the two passes share. -/
def WScan.forget (s : WScan α) : Scan where
  idx := s.idx
  dest := s.dest
  prev_vertex_from := s.prev_vertex_from
  count := s.count
  vertex_from := s.vertex_from

theorem WScan.forget_step (s : WScan α) (p : Nat × Nat × α) :
    (s.step p).forget = s.forget.step (dropWeight p) := by
  by_cases hrow : p.1 = s.prev_vertex_from
  · simp [WScan.step, WScan.skipRows, WScan.forget, Scan.step, dropWeight, hrow]
  · simp [WScan.step, WScan.skipRows, WScan.forget, Scan.step, dropWeight, hrow]

theorem WScan.forget_foldl (v : List (Nat × Nat × α)) (s : WScan α) :
    (v.foldl WScan.step s).forget = (v.map dropWeight).foldl Scan.step s.forget := by
  induction v generalizing s with
  | nil => rfl
  | cons p v ih => rw [List.foldl_cons, ih, WScan.forget_step, List.map_cons, List.foldl_cons]

theorem Scan.length_idx_foldl (v : List (Nat × Nat)) (s : Scan) :
    (v.foldl Scan.step s).idx.length = s.idx.length := by
  induction v generalizing s with
  | nil => rfl
  | cons p v ih => rw [List.foldl_cons, ih, Scan.length_idx_step]

theorem Scan.count_foldl (v : List (Nat × Nat)) (s : Scan) :
    (v.foldl Scan.step s).count = s.count + v.length := by
  induction v generalizing s with
  | nil => rfl
  | cons p v ih =>
      rw [List.foldl_cons, ih, List.length_cons]
      simp only [Scan.step]
      omega

/-! ### Two passes from different index arrays -/

/-- The arrays have the same entries from row 1 to row `last`. -/
structure SameRows (idx idx' : List Nat) (last : Nat) : Prop where
  length : idx.length = idx'.length
  rows : ∀ row, 0 < row → row ≤ last → idx[row]? = idx'[row]?

/-- A row-filling loop that goes on where the last one stopped. -/
theorem SameRows.fillRows {idx idx' : List Nat} {prev : Nat} (h : SameRows idx idx' prev)
    (last count : Nat) :
    SameRows (fillRows idx (prev + 1) last count) (fillRows idx' (prev + 1) last count) last where
  length := by rw [length_fillRows, length_fillRows, h.length]
  rows row hpos hrow := by
    rw [fillRows_getElem?, fillRows_getElem?, ← h.length]
    rcases Nat.lt_or_ge prev row with hnew | hold
    · rcases Nat.lt_or_ge row idx.length with hin | hout
      · rw [if_pos ⟨hnew, hrow, hin⟩, if_pos ⟨hnew, hrow, hin⟩]
      · rw [List.getElem?_eq_none hout, List.getElem?_eq_none (h.length ▸ hout)]
    · have hnot : ¬ (prev + 1 ≤ row ∧ row ≤ last ∧ row < idx.length) := by omega
      rw [if_neg hnot, if_neg hnot]
      exact h.rows row hpos hold

/-- The passes differ at most in the entries no row-filling loop has come to yet, and in entry 0. -/
structure Scan.Agree (max_vert : Nat) (s s' : Scan) : Prop where
  idx : SameRows s.idx s'.idx s.vertex_from
  dest : s.dest = s'.dest
  prev_vertex_from : s.prev_vertex_from = s'.prev_vertex_from
  count : s.count = s'.count
  vertex_from : s.vertex_from = s'.vertex_from
  prev : s.prev_vertex_from = s.vertex_from
  le_max : s.vertex_from ≤ max_vert

theorem Scan.agree_start (v : List (Nat × Nat)) {idx idx' : List Nat}
    (hlength : idx.length = idx'.length) :
    Scan.Agree max_vert (Scan.startFrom v idx) (Scan.startFrom v idx') where
  idx := ⟨hlength, fun _ hpos hrow => absurd hpos (Nat.not_lt.2 hrow)⟩
  dest := rfl
  prev_vertex_from := rfl
  count := rfl
  vertex_from := rfl
  prev := rfl
  le_max := Nat.zero_le _

/-- One arc: the rows since the last origin get the same count in both passes. -/
theorem Scan.Agree.step {s s' : Scan} (h : Scan.Agree max_vert s s') {p : Nat × Nat}
    (hp : p.1 ≤ max_vert) (hmax : max_vert + 1 < 2 ^ 32) :
    Scan.Agree max_vert (s.step p) (s'.step p) := by
  have hle := h.le_max
  have hwrap : (s.vertex_from + 1) % 2 ^ 32 = s.vertex_from + 1 := Nat.mod_eq_of_lt (by omega)
  refine ⟨?_, ?_, rfl, ?_, rfl, rfl, hp⟩
  · simp only [Scan.step, ← h.prev_vertex_from, ← h.count, h.prev, hwrap]
    by_cases hnew : p.1 = s.vertex_from
    · rw [if_neg (not_not.2 hnew), if_neg (not_not.2 hnew), hnew]
      exact h.idx
    · rw [if_pos hnew, if_pos hnew]
      exact h.idx.fillRows p.1 s.count
  · simp only [Scan.step, h.dest, h.count]
  · simp only [Scan.step, h.count]

/-- The whole pass. -/
theorem Scan.Agree.foldl {v : List (Nat × Nat)} {s s' : Scan} (h : Scan.Agree max_vert s s')
    (hids : ∀ p ∈ v, p.1 ≤ max_vert) (hmax : max_vert + 1 < 2 ^ 32) :
    Scan.Agree max_vert (v.foldl Scan.step s) (v.foldl Scan.step s') := by
  induction v generalizing s s' with
  | nil => exact h
  | cons p v ih =>
      have hstep := h.step (hids p List.mem_cons_self) hmax
      exact ih hstep fun q hq => hids q (List.mem_cons_of_mem p hq)

/-- The row-filling loops leave entry 0 alone. -/
theorem Scan.getElem?_zero_foldl {v : List (Nat × Nat)} {s : Scan}
    (hprev : s.prev_vertex_from ≤ max_vert) (hids : ∀ p ∈ v, p.1 ≤ max_vert)
    (hmax : max_vert + 1 < 2 ^ 32) :
    (v.foldl Scan.step s).idx[0]? = s.idx[0]? := by
  induction v generalizing s with
  | nil => rfl
  | cons p v ih =>
      have hp := hids p List.mem_cons_self
      have hnone : ¬ (s.prev_vertex_from < 0 ∧ 0 ≤ p.1 ∧ 0 < s.idx.length) := by omega
      rw [List.foldl_cons, ih hp fun q hq => hids q (List.mem_cons_of_mem p hq),
        Scan.getElem?_idx_step s p 0 (by omega), if_neg hnone]

section Loops

variable {v : List (Nat × Nat)}

/-- What an entry behind entry 0 ends with does not depend on the entries before the loops. -/
theorem sameRows_indexFrom (hids : ∀ p ∈ v, p.1 ≤ max_vert) (hmax : max_vert + 1 < 2 ^ 32)
    {idx idx' : List Nat} (hlength : idx.length = idx'.length) :
    SameRows (indexFrom v max_vert idx) (indexFrom v max_vert idx') max_vert := by
  have h : Scan.Agree max_vert _ _ := (Scan.agree_start v hlength).foldl hids hmax
  have hle := h.le_max
  simp only [indexFrom, ← h.vertex_from]
  rw [Nat.mod_eq_of_lt (by omega)]
  exact h.idx.fillRows max_vert v.length

theorem indexFrom_getElem?_zero (hids : ∀ p ∈ v, p.1 ≤ max_vert) (hmax : max_vert + 1 < 2 ^ 32)
    (idx : List Nat) : (indexFrom v max_vert idx)[0]? = idx[0]? := by
  have h : Scan.Agree max_vert _ _ :=
    (Scan.agree_start v (rfl : idx.length = idx.length)).foldl hids hmax
  have hle := h.le_max
  rw [indexFrom, fillRows_getElem?, Nat.mod_eq_of_lt (by omega), if_neg (by omega),
    Scan.getElem?_zero_foldl (Nat.zero_le _) hids hmax]
  rfl

theorem length_indexFrom (v : List (Nat × Nat)) (max_vert : Nat) (idx : List Nat) :
    (indexFrom v max_vert idx).length = idx.length := by
  rw [indexFrom, length_fillRows]
  exact Scan.length_idx_foldl v _

end Loops

/-! ### The weighted builder -/

variable [Zero α]

theorem WScan.forget_startFrom (v : List (Nat × Nat × α)) (idx : List Nat) :
    (WScan.startFrom v idx).forget = Scan.startFrom (v.map dropWeight) idx := by
  simp only [WScan.forget, WScan.startFrom, Scan.startFrom, List.length_map]

/-- The loops of both builders do the same to an index array. -/
theorem wIndexFrom_eq (v : List (Nat × Nat × α)) (max_vert : Nat) (idx : List Nat) :
    wIndexFrom v max_vert idx = indexFrom (v.map dropWeight) max_vert idx := by
  have hforget := WScan.forget_foldl v (WScan.startFrom v idx)
  rw [WScan.forget_startFrom] at hforget
  have hcount := Scan.count_foldl (v.map dropWeight) (Scan.startFrom (v.map dropWeight) idx)
  rw [← hforget, Scan.startFrom, Nat.zero_add] at hcount
  simp only [indexFrom, ← hforget, ← hcount, wIndexFrom, WScan.forget]

omit [Zero α] in
@[simp] theorem WScan.dest_step (s : WScan α) (p : Nat × Nat × α) :
    (s.step p).dest = s.dest.set s.count p.2.1 := by
  simp only [WScan.step, WScan.skipRows]
  split <;> rfl

omit [Zero α] in
@[simp] theorem WScan.w_step (s : WScan α) (p : Nat × Nat × α) :
    (s.step p).w = s.w.set s.count p.2.2 := by
  simp only [WScan.step, WScan.skipRows]
  split <;> rfl

omit [Zero α] in
@[simp] theorem WScan.count_step (s : WScan α) (p : Nat × Nat × α) :
    (s.step p).count = s.count + 1 := by
  simp only [WScan.step, WScan.skipRows]
  split <;> rfl

/-- Destination and weight of an arc are stored at the same place of their arrays. -/
theorem WScan.foldl_stored {v : List (Nat × Nat × α)} {s : WScan α} {dests : List Nat}
    {weights : List α} (hdest : s.dest = dests ++ List.replicate v.length 0)
    (hw : s.w = weights ++ List.replicate v.length 0) (hdests : dests.length = s.count)
    (hweights : weights.length = s.count) :
    (v.foldl WScan.step s).dest = dests ++ v.map (fun p => p.2.1) ∧
      (v.foldl WScan.step s).w = weights ++ v.map (fun p => p.2.2) := by
  induction v generalizing s dests weights with
  | nil => exact ⟨hdest, hw⟩
  | cons p v ih =>
      have hdest' : (s.step p).dest = dests ++ [p.2.1] ++ List.replicate v.length 0 := by
        rw [WScan.dest_step, hdest, ← hdests]
        exact set_append_replicate _ _ _ _
      have hw' : (s.step p).w = weights ++ [p.2.2] ++ List.replicate v.length 0 := by
        rw [WScan.w_step, hw, ← hweights]
        exact set_append_replicate _ _ _ _
      have h := ih hdest' hw' (by simp [hdests]) (by simp [hweights])
      rw [List.append_assoc, List.append_assoc] at h
      exact h

/-! ### The two builders -/

/-- Whatever the entry `row` of an index array of that size holds, the loops leave a value of their
    own in it. -/
def Assigned (loops : List Nat → List Nat) (size row : Nat) : Prop :=
  ∃ value, ∀ idx, idx.length = size → (loops idx)[row]? = some value

/-- An entry is assigned if what it ends with does not depend on what the array held. -/
theorem Assigned.of_same {loops : List Nat → List Nat} {size row : Nat}
    (hlength : ∀ idx, (loops idx).length = idx.length) (hrow : row < size)
    (hsame : ∀ idx idx', idx.length = size → idx'.length = size →
      (loops idx)[row]? = (loops idx')[row]?) : Assigned loops size row := by
  have hin : row < (loops (List.replicate size 0)).length := by
    rw [hlength, List.length_replicate]
    exact hrow
  refine ⟨(loops (List.replicate size 0))[row], fun idx hidx => ?_⟩
  rw [hsame idx (List.replicate size 0) hidx List.length_replicate]
  exact List.getElem?_eq_getElem hin

section Builders

variable {v : List (Nat × Nat)}

theorem assigned_indexFrom (hids : ∀ p ∈ v, p.1 ≤ max_vert) (hmax : max_vert + 1 < 2 ^ 32)
    {row : Nat} (hpos : 0 < row) (hrow : row ≤ max_vert) :
    Assigned (indexFrom v max_vert) (max_vert + 1) row := by
  refine Assigned.of_same (length_indexFrom v max_vert) (by omega) fun idx idx' hidx hidx' => ?_
  exact (sameRows_indexFrom hids hmax (hidx.trans hidx'.symm)).rows row hpos hrow

/-- Entry 0 keeps what it held before the loops. -/
theorem not_assigned_indexFrom_zero (hids : ∀ p ∈ v, p.1 ≤ max_vert)
    (hmax : max_vert + 1 < 2 ^ 32) :
    ¬ Assigned (indexFrom v max_vert) (max_vert + 1) 0 := by
  rintro ⟨value, hvalue⟩
  have hkept : ∀ fill, some fill = some value := by
    intro fill
    have hfill := hvalue (List.replicate (max_vert + 1) fill) List.length_replicate
    rw [indexFrom_getElem?_zero hids hmax, List.replicate_succ, List.getElem?_cons_zero] at hfill
    exact hfill
  cases (hkept 0).trans (hkept 1).symm

/-- With entry 0 assigned before the loops, nothing of the initial entries is left. -/
theorem indexFrom_set_zero (hids : ∀ p ∈ v, p.1 ≤ max_vert) (hmax : max_vert + 1 < 2 ^ 32)
    {idx idx' : List Nat} (hidx : idx.length = max_vert + 1) (hidx' : idx'.length = max_vert + 1) :
    indexFrom v max_vert (idx.set 0 0) = indexFrom v max_vert (idx'.set 0 0) := by
  have hlength : (idx.set 0 0).length = (idx'.set 0 0).length := by
    rw [List.length_set, List.length_set, hidx, hidx']
  have hsame := sameRows_indexFrom hids hmax hlength
  refine List.ext_getElem? fun row => ?_
  rcases Nat.eq_zero_or_pos row with rfl | hpos
  · rw [indexFrom_getElem?_zero hids hmax, indexFrom_getElem?_zero hids hmax,
      List.getElem?_set_self (by omega), List.getElem?_set_self (by omega)]
  · rcases Nat.lt_or_ge max_vert row with hout | hin
    · have hend : (indexFrom v max_vert (idx.set 0 0)).length ≤ row := by
        rw [length_indexFrom, List.length_set, hidx]
        exact hout
      rw [List.getElem?_eq_none hend, List.getElem?_eq_none (hsame.length ▸ hend)]
    · exact hsame.rows row hpos hin

theorem assigned_indexFrom_set_zero (hids : ∀ p ∈ v, p.1 ≤ max_vert)
    (hmax : max_vert + 1 < 2 ^ 32) {row : Nat} (hrow : row ≤ max_vert) :
    Assigned (fun idx => indexFrom v max_vert (idx.set 0 0)) (max_vert + 1) row := by
  refine Assigned.of_same (fun idx => ?_) (by omega) fun idx idx' hidx hidx' => ?_
  · rw [length_indexFrom, List.length_set]
  · rw [indexFrom_set_zero hids hmax hidx hidx']

/-- The builder's index array is what its loops make of the initial one. -/
theorem edgeListToCsr_index (v : List (Nat × Nat)) (max_vert : Nat) :
    (edgeListToCsr v max_vert).index = indexFrom v max_vert
      ((List.replicate ((max_vert + 1) % 2 ^ 32) ((v.length + (2 ^ 64 - 1)) % 2 ^ 64)).set 0 0) :=
  rfl

theorem edgeListToWCsr_index (v : List (Nat × Nat × α)) (max_vert : Nat) :
    (edgeListToWCsr v max_vert).index =
      wIndexFrom v max_vert ((List.replicate ((max_vert + 1) % 2 ^ 32) v.length).set 0 0) := rfl

/-- The weighted builder stores destinations and weights in the order of the arcs. -/
theorem edgeListToWCsr_stored (v : List (Nat × Nat × α)) (max_vert : Nat) :
    (edgeListToWCsr v max_vert).dest = v.map (fun p => p.2.1) ∧
      (edgeListToWCsr v max_vert).val = v.map (fun p => p.2.2) := by
  have hdest : (WScan.start v max_vert).dest = [] ++ List.replicate v.length 0 := rfl
  have hw : (WScan.start v max_vert).w = [] ++ List.replicate v.length 0 := rfl
  exact WScan.foldl_stored hdest hw rfl rfl

end Builders

section Agreement

variable {v : List (Nat × Nat × α)}

omit [Zero α] in
theorem le_max_dropWeight (hids : ∀ p ∈ v, p.1 ≤ max_vert) :
    ∀ p ∈ v.map dropWeight, p.1 ≤ max_vert := by
  intro p hp
  obtain ⟨q, hq, rfl⟩ := List.mem_map.1 hp
  exact hids q hq

/-- The two fill values make no difference to the offsets. -/
theorem edgeListToWCsr_index_eq (hids : ∀ p ∈ v, p.1 ≤ max_vert) (hmax : max_vert + 1 < 2 ^ 32) :
    (edgeListToWCsr v max_vert).index = (edgeListToCsr (v.map dropWeight) max_vert).index := by
  have hsize : (max_vert + 1) % 2 ^ 32 = max_vert + 1 := Nat.mod_eq_of_lt hmax
  rw [edgeListToWCsr_index, edgeListToCsr_index, wIndexFrom_eq]
  exact indexFrom_set_zero (le_max_dropWeight hids) hmax (by rw [List.length_replicate, hsize])
    (by rw [List.length_replicate, hsize])

theorem edgeListToWCsr_dest_eq (hids : ∀ p ∈ v, p.1 ≤ max_vert) (hmax : max_vert + 1 < 2 ^ 32) :
    (edgeListToWCsr v max_vert).dest = (edgeListToCsr (v.map dropWeight) max_vert).dest := by
  have hlength : (WScan.start v max_vert).idx.length =
      (Scan.start (v.map dropWeight) max_vert).idx.length := by
    simp only [WScan.start, Scan.start, List.length_set, List.length_replicate]
  have hstart : Scan.Agree max_vert _ _ := Scan.agree_start (v.map dropWeight) hlength
  have hend := (hstart.foldl (le_max_dropWeight hids) hmax).dest
  rw [← WScan.forget_startFrom, ← WScan.forget_foldl] at hend
  exact hend

/-- The builders agree. For every list of weighted arcs, in whatever order, with origins up to
    `max_vert ≤ 2^32 - 2`, the weighted builder returns the index and destination arrays of the
    other one, and destination and weight of an arc stand at its place in the list. In both, the
    row-filling loops assign every index entry but entry 0, and with the assignment in front of them
    every entry is assigned. -/
theorem edgeListToWCsr_agrees (v : List (Nat × Nat × α)) (max_vert : Nat)
    (hids : ∀ p ∈ v, p.1 ≤ max_vert) (hmax : max_vert ≤ 2 ^ 32 - 2) :
    (edgeListToWCsr v max_vert).index = (edgeListToCsr (v.map dropWeight) max_vert).index ∧
    (edgeListToWCsr v max_vert).dest = (edgeListToCsr (v.map dropWeight) max_vert).dest ∧
    (edgeListToWCsr v max_vert).dest = v.map (fun p => p.2.1) ∧
    (edgeListToWCsr v max_vert).val = v.map (fun p => p.2.2) ∧
    (edgeListToWCsr v max_vert).index.length = max_vert + 1 ∧
    (∀ row, 0 < row → row ≤ max_vert →
      Assigned (indexFrom (v.map dropWeight) max_vert) (max_vert + 1) row ∧
      Assigned (wIndexFrom v max_vert) (max_vert + 1) row) ∧
    ∀ row ≤ max_vert,
      Assigned (fun idx => indexFrom (v.map dropWeight) max_vert (idx.set 0 0)) (max_vert + 1) row ∧
      Assigned (fun idx => wIndexFrom v max_vert (idx.set 0 0)) (max_vert + 1) row := by
  have hwrap : max_vert + 1 < 2 ^ 32 := by omega
  have hdrop := le_max_dropWeight hids
  have hloops : wIndexFrom v max_vert = indexFrom (v.map dropWeight) max_vert :=
    funext (wIndexFrom_eq v max_vert)
  obtain ⟨hdest, hval⟩ := edgeListToWCsr_stored v max_vert
  refine ⟨edgeListToWCsr_index_eq hids hwrap, edgeListToWCsr_dest_eq hids hwrap, hdest, hval, ?_,
    ?_, ?_⟩
  · rw [edgeListToWCsr_index, wIndexFrom_eq, length_indexFrom, List.length_set,
      List.length_replicate]
    exact Nat.mod_eq_of_lt hwrap
  · intro row hpos hrow
    rw [hloops]
    exact ⟨assigned_indexFrom hdrop hwrap hpos hrow, assigned_indexFrom hdrop hwrap hpos hrow⟩
  · intro row hrow
    rw [hloops]
    exact ⟨assigned_indexFrom_set_zero hdrop hwrap hrow,
      assigned_indexFrom_set_zero hdrop hwrap hrow⟩

/-- Rows without arcs before, between and behind the others. -/
theorem edgeListToWCsr_agrees_gaps :
    (edgeListToWCsr [(1, 2, 10), (1, 0, 20), (4, 1, 30)] 5).index =
      (edgeListToCsr ([(1, 2, 10), (1, 0, 20), (4, 1, 30)].map dropWeight) 5).index ∧
    (edgeListToWCsr [(1, 2, 10), (1, 0, 20), (4, 1, 30)] 5).index = [0, 0, 2, 2, 2, 3] :=
  ⟨(edgeListToWCsr_agrees [(1, 2, 10), (1, 0, 20), (4, 1, 30)] 5 (by decide) (by decide)).1,
    by decide⟩

/-- Neither builder's row-filling loops assign entry 0. -/
theorem not_assigned_zero : ¬ Assigned (indexFrom [(0, 1)] 1) 2 0 ∧
    ¬ Assigned (wIndexFrom [(0, 1, 10)] 1) 2 0 := by
  have hnot : ¬ Assigned (indexFrom [(0, 1)] 1) 2 0 :=
    not_assigned_indexFrom_zero (by decide) (by decide)
  refine ⟨hnot, ?_⟩
  rw [funext (wIndexFrom_eq [(0, 1, 10)] 1)]
  exact hnot

end Agreement

end FamGraph
