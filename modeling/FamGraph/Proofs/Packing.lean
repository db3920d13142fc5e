/-
Module: FamGraph.Proofs.Packing
Layer: Proofs
Purpose: What a window packer leaves behind. A list of vertex ranges is the abstract window;
  `Represents` says that the three arrays spell it out as a chain of READs whose local segments lie
  one behind the other, and `Packed` that the ranges hold exactly the vertices the packer was to
  fetch up to where it stands. Both are kept by every turn of the loop, so they hold of the window
  it returns.
Trusted boundary: none
Main exports: Fits, ClientContext.adjacency, Represents, Packed, packed_pack, lt_pack
-/
import FamGraph.Core.Packing
import FamGraph.Proofs.VertexTable
import FamGraph.Foundation.Memory

namespace FamGraph

/-! ### The index -/

/-- A well-formed index whose adjacency lists all fit in the edge buffer, and a buffer whose size in
    bytes is a `uint32_t`. -/
structure Fits (c : ClientContext) (edge_buf_size : Nat) : Prop where
  index : WellFormedIndex c.edge_offset c.num_vertices c.num_edges
  pos : 0 < edge_buf_size
  lt : 4 * edge_buf_size < 2 ^ 32
  degree_le : ∀ v < c.num_vertices,
    adjacencyEnd c.edge_offset c.num_vertices c.num_edges v - c.edge_offset v ≤ edge_buf_size

namespace ClientContext

/-- The adjacency list of `v` on the server. -/
def adjacency (c : ClientContext) (v : Nat) : List Nat :=
  (List.range (c.degree v)).map fun j => c.words (c.edge_offset v + j)

/-- The number of edges of some vertices. -/
def edgesIn (c : ClientContext) (vs : List Nat) : Nat := (vs.map c.degree).sum

variable {c : ClientContext}

@[simp] theorem length_adjacency (v : Nat) : (c.adjacency v).length = c.degree v := by
  rw [adjacency, List.length_map, List.length_range]

@[simp] theorem edgesIn_nil : c.edgesIn [] = 0 := rfl

@[simp] theorem edgesIn_cons (v : Nat) (vs : List Nat) :
    c.edgesIn (v :: vs) = c.degree v + c.edgesIn vs :=
  List.sum_cons

@[simp] theorem edgesIn_singleton (v : Nat) : c.edgesIn [v] = c.degree v := by
  rw [edgesIn_cons, edgesIn_nil, Nat.add_zero]

@[simp] theorem edgesIn_append (vs ws : List Nat) :
    c.edgesIn (vs ++ ws) = c.edgesIn vs + c.edgesIn ws := by
  rw [edgesIn, List.map_append, List.sum_append]
  rfl

theorem length_flatMap_adjacency (vs : List Nat) :
    (vs.flatMap c.adjacency).length = c.edgesIn vs := by
  induction vs with
  | nil => rfl
  | cons v vs ih => rw [List.flatMap_cons, List.length_append, length_adjacency, ih, edgesIn_cons]

end ClientContext

namespace Fits

variable {c : ClientContext} {edge_buf_size v : Nat}

theorem degree_eq (h : Fits c edge_buf_size) (hv : v < c.num_vertices) :
    c.degree v = adjacencyEnd c.edge_offset c.num_vertices c.num_edges v - c.edge_offset v := by
  have hle := h.degree_le v hv
  have hlt := h.lt
  exact h.index.getNumEdges_eq hv (by omega)

theorem degree_le_size (h : Fits c edge_buf_size) (hv : v < c.num_vertices) :
    c.degree v ≤ edge_buf_size :=
  (h.degree_eq hv).symm ▸ h.degree_le v hv

/-- Adjacency lists lie one behind the other. -/
theorem edge_offset_succ (h : Fits c edge_buf_size) (hv : v + 1 < c.num_vertices) :
    c.edge_offset (v + 1) = c.edge_offset v + c.degree v := by
  have hmono := h.index.mono v hv
  rw [h.degree_eq (by omega), adjacencyEnd, if_neg (by omega)]
  omega

end Fits

/-! ### Vertex ranges -/

namespace VertexRange

theorem vertices_single (v : Nat) : VertexRange.vertices ⟨v, v⟩ = [v] := by
  rw [vertices, Nat.add_sub_cancel_left]
  rfl

theorem vertices_extend {r : VertexRange} (h : r.v_s ≤ r.v_e) :
    VertexRange.vertices ⟨r.v_s, r.v_e + 1⟩ = r.vertices ++ [r.v_e + 1] := by
  have hlength : r.v_e + 1 + 1 - r.v_s = r.v_e + 1 - r.v_s + 1 := by omega
  have hlast : r.v_s + 1 * (r.v_e + 1 - r.v_s) = r.v_e + 1 := by omega
  rw [vertices, vertices, hlength, List.range'_concat, hlast]

theorem mem_vertices {r : VertexRange} {v : Nat} : v ∈ r.vertices ↔ r.v_s ≤ v ∧ v ≤ r.v_e := by
  rw [vertices, List.mem_range'_1]
  omega

end VertexRange

/-- `v` behind some ranges: it joins the last one if it follows it and vertices are coalesced. -/
def addVertex (coalesce : Bool) (rs : List VertexRange) (v : Nat) : List VertexRange :=
  match rs.getLast? with
  | none => [⟨v, v⟩]
  | some r =>
      if coalesce ∧ v = r.v_e + 1 then rs.dropLast ++ [{ r with v_e := v }] else rs ++ [⟨v, v⟩]

/-- The ranges that ascending vertices make up: one for each, or one for each run of consecutive
    ones. -/
def runs (coalesce : Bool) (vs : List Nat) : List VertexRange := vs.foldl (addVertex coalesce) []

section Runs

variable {coalesce : Bool}

theorem runs_snoc (vs : List Nat) (v : Nat) :
    runs coalesce (vs ++ [v]) = addVertex coalesce (runs coalesce vs) v := by
  rw [runs, runs, List.foldl_append]
  rfl

theorem addVertex_nil (v : Nat) : addVertex coalesce [] v = [⟨v, v⟩] := rfl

theorem addVertex_concat (rs : List VertexRange) (r : VertexRange) (v : Nat) :
    addVertex coalesce (rs ++ [r]) v =
      if coalesce ∧ v = r.v_e + 1 then rs ++ [{ r with v_e := v }] else rs ++ [r] ++ [⟨v, v⟩] := by
  rw [addVertex, List.getLast?_concat, List.dropLast_concat]

/-- No range is empty. -/
theorem ranges_runs (vs : List Nat) : ∀ r ∈ runs coalesce vs, r.v_s ≤ r.v_e := by
  induction vs using List.reverseRecOn with
  | nil => exact fun r hr => nomatch hr
  | append_singleton vs v ih =>
      intro r hr
      rw [runs_snoc] at hr
      rcases List.eq_nil_or_concat' (runs coalesce vs) with hnil | ⟨rs, last, hlast⟩
      · rw [hnil, addVertex_nil] at hr
        rw [List.mem_singleton.1 hr]
      · rw [hlast] at ih
        rw [hlast, addVertex_concat] at hr
        split at hr
        · rename_i hjoin
          rcases List.mem_append.1 hr with hold | hnew
          · exact ih r (List.mem_append_left _ hold)
          · have hle := ih last (List.mem_append_right rs List.mem_cons_self)
            rw [List.mem_singleton.1 hnew]
            exact hjoin.2 ▸ Nat.le_succ_of_le hle
        · rcases List.mem_append.1 hr with hold | hnew
          · exact ih r hold
          · rw [List.mem_singleton.1 hnew]

/-- The ranges hold the vertices, in order. -/
theorem vertices_runs (vs : List Nat) : (runs coalesce vs).flatMap VertexRange.vertices = vs := by
  induction vs using List.reverseRecOn with
  | nil => rfl
  | append_singleton vs v ih =>
      have hranges : ∀ r ∈ runs coalesce vs, r.v_s ≤ r.v_e := ranges_runs vs
      rw [runs_snoc]
      rcases List.eq_nil_or_concat' (runs coalesce vs) with hnil | ⟨rs, last, hlast⟩
      · rw [hnil] at ih
        rw [hnil, addVertex_nil, List.flatMap_singleton, VertexRange.vertices_single, ← ih]
        rfl
      · rw [hlast] at ih hranges
        rw [hlast, addVertex_concat]
        split
        · rename_i hjoin
          have hle := hranges last (List.mem_append_right rs List.mem_cons_self)
          have hextend : VertexRange.vertices { last with v_e := v } = last.vertices ++ [v] := by
            rw [hjoin.2]
            exact VertexRange.vertices_extend hle
          rw [List.flatMap_append, List.flatMap_singleton, hextend, ← List.append_assoc,
            ← List.flatMap_singleton (f := VertexRange.vertices), ← List.flatMap_append, ih]
        · rw [List.flatMap_append, ih, List.flatMap_singleton, VertexRange.vertices_single]

/-- A further vertex makes for at most one more range. -/
theorem length_addVertex (rs : List VertexRange) (v : Nat) :
    rs.length ≤ (addVertex coalesce rs v).length ∧
    (addVertex coalesce rs v).length ≤ rs.length + 1 := by
  rcases List.eq_nil_or_concat' rs with rfl | ⟨rs, last, rfl⟩
  · exact ⟨Nat.zero_le _, Nat.le_refl 1⟩
  · rw [addVertex_concat]
    split <;> simp

theorem runs_length_mono (vs ws : List Nat) :
    (runs coalesce vs).length ≤ (runs coalesce (vs ++ ws)).length := by
  induction ws using List.reverseRecOn with
  | nil => rw [List.append_nil]
  | append_singleton ws w ih =>
      rw [← List.append_assoc, runs_snoc]
      exact Nat.le_trans ih (length_addVertex _ w).1

end Runs

/-! ### The arrays -/

/-- The arrays describe one READ for each range, in order: it reads the adjacency lists of the
    range's vertices to behind those of the earlier ranges, and is chained to the next. Its length
    is a `uint32_t`. -/
structure Represents (c : ClientContext) (edge_buf : Nat) (w : Window) (rs : List VertexRange) :
    Prop where
  batch : ∀ i (h : i < rs.length), w.vertex_batch i = rs[i]
  sge : ∀ i (h : i < rs.length), w.sge_window i =
    { addr := edge_buf + c.edgesIn ((rs.take i).flatMap VertexRange.vertices)
      length := 4 * c.edgesIn rs[i].vertices % 2 ^ 32
      lkey := c.lkey }
  wr : ∀ i (h : i < rs.length), w.wr_window i =
    { signaled := i = 0
      remote_addr := c.peer_addr + c.edge_offset rs[i].v_s * 4
      rkey := c.peer_rkey
      sg_list := i
      num_sge := 1
      next := if i + 1 < rs.length then some (i + 1) else none }

namespace Represents

variable {c : ClientContext} {edge_buf : Nat} {w : Window} {rs : List VertexRange}

theorem nil (c : ClientContext) (edge_buf : Nat) (w : Window) : Represents c edge_buf w [] where
  batch _ h := absurd h (Nat.not_lt_zero _)
  sge _ h := absurd h (Nat.not_lt_zero _)
  wr _ h := absurd h (Nat.not_lt_zero _)

/-- A new work request behind the others. -/
theorem push (h : Represents c edge_buf w rs) {v length : Nat}
    (hlength : length = 4 * c.degree v % 2 ^ 32) :
    Represents c edge_buf
      (prepWr { w with vertex_batch := Function.update w.vertex_batch rs.length ⟨v, v⟩ } rs.length c
        (edge_buf + c.edgesIn (rs.flatMap VertexRange.vertices)) length (c.edge_offset v * 4))
      (rs ++ [⟨v, v⟩]) where
  batch i hi := by
    rw [List.length_append, List.length_singleton] at hi
    rcases Nat.lt_succ_iff_lt_or_eq.1 hi with hlt | rfl
    · rw [List.getElem_append_left hlt, ← h.batch i hlt]
      exact Function.update_of_ne (Nat.ne_of_lt hlt) _ _
    · rw [List.getElem_append_right (Nat.le_refl _)]
      simp only [prepWr, Function.update_self, Nat.sub_self, List.getElem_singleton]
  sge i hi := by
    rw [List.length_append, List.length_singleton] at hi
    rcases Nat.lt_succ_iff_lt_or_eq.1 hi with hlt | rfl
    · rw [List.getElem_append_left hlt, List.take_append_of_le_length (Nat.le_of_lt hlt),
        ← h.sge i hlt]
      exact Function.update_of_ne (Nat.ne_of_lt hlt) _ _
    · simp only [prepWr, Function.update_self, List.take_left, List.getElem_concat_length,
        VertexRange.vertices_single, ClientContext.edgesIn_singleton, hlength]
  wr i hi := by
    rw [List.length_append, List.length_singleton] at hi
    simp only [prepWr, List.length_append, List.length_singleton]
    rcases Nat.lt_succ_iff_lt_or_eq.1 hi with hlt | rfl
    · have hpos : 0 < rs.length := Nat.lt_of_le_of_lt (Nat.zero_le i) hlt
      have hold : Function.update w.wr_window rs.length
          { signaled := rs.length = 0, remote_addr := c.peer_addr + c.edge_offset v * 4,
            rkey := c.peer_rkey,
            sg_list := rs.length, num_sge := 1, next := none } i = w.wr_window i :=
        Function.update_of_ne (Nat.ne_of_lt hlt) _ _
      rw [if_pos hpos, List.getElem_append_left hlt, if_pos (by omega)]
      rcases eq_or_ne i (rs.length - 1) with hlast | hother
      · rw [← hlast, Function.update_self, hold, h.wr i hlt]
        simp only [SendWr.mk.injEq, Option.some.injEq, true_and]
        omega
      · rw [Function.update_of_ne hother, hold, h.wr i hlt, if_pos (by omega)]
    · rw [List.getElem_concat_length rfl, if_neg (Nat.lt_irrefl (rs.length + 1))]
      split
      · rw [Function.update_of_ne (by omega), Function.update_self]
      · rw [Function.update_self]

/-- The next vertex in the last work request. -/
theorem extend {r : VertexRange} (h : Represents c edge_buf w (rs ++ [r])) (hr : r.v_s ≤ r.v_e)
    {length : Nat} (hlength : length = 4 * (c.edgesIn r.vertices + c.degree (r.v_e + 1)) % 2 ^ 32) :
    Represents c edge_buf
      { w with
        vertex_batch := Function.update w.vertex_batch rs.length { r with v_e := r.v_e + 1 }
        sge_window := Function.update w.sge_window rs.length
          { w.sge_window rs.length with length := length } }
      (rs ++ [{ r with v_e := r.v_e + 1 }]) where
  batch i hi := by
    rw [List.length_append, List.length_singleton] at hi
    rcases Nat.lt_succ_iff_lt_or_eq.1 hi with hlt | rfl
    · have hbatch := h.batch i (by simp; omega)
      rw [List.getElem_append_left hlt] at hbatch ⊢
      simp only [Function.update_of_ne (Nat.ne_of_lt hlt), hbatch]
    · simp only [Function.update_self, List.getElem_concat_length]
  sge i hi := by
    rw [List.length_append, List.length_singleton] at hi
    rcases Nat.lt_succ_iff_lt_or_eq.1 hi with hlt | rfl
    · have hsge := h.sge i (by simp; omega)
      rw [List.getElem_append_left hlt, List.take_append_of_le_length (Nat.le_of_lt hlt)] at hsge ⊢
      simp only [Function.update_of_ne (Nat.ne_of_lt hlt), hsge]
    · have hsge := h.sge rs.length (by simp)
      have hedges : c.edgesIn (VertexRange.vertices ⟨r.v_s, r.v_e + 1⟩) =
          c.edgesIn r.vertices + c.degree (r.v_e + 1) := by
        rw [VertexRange.vertices_extend hr, ClientContext.edgesIn_append,
          ClientContext.edgesIn_singleton]
      rw [List.take_left] at hsge ⊢
      rw [List.getElem_concat_length rfl, hedges, ← hlength]
      simp only [Function.update_self, hsge]
  wr i hi := by
    rw [List.length_append, List.length_singleton] at hi
    have hwr := h.wr i (by simpa using hi)
    simp only [List.length_append, List.length_singleton] at hwr ⊢
    rcases Nat.lt_succ_iff_lt_or_eq.1 hi with hlt | rfl
    · rw [List.getElem_append_left hlt] at hwr ⊢
      exact hwr
    · rw [List.getElem_concat_length rfl] at hwr ⊢
      exact hwr

end Represents

namespace PackState

variable {o : BuildOptions} {c : ClientContext} {s : PackState}

/-- `s.v` follows the vertices of the last work request, and may join them. -/
def Coalesces (o : BuildOptions) (s : PackState) : Prop :=
  o.vertex_coalescing ∧ 0 < s.batch_size ∧ s.v = (s.window.vertex_batch (s.wrs - 1)).v_e + 1

theorem request_of_coalesces (b n : Nat) (h : s.Coalesces o) :
    s.request o c b n =
      { s with
        window :=
          { s.window with
            vertex_batch := Function.update s.window.vertex_batch (s.wrs - 1)
              { s.window.vertex_batch (s.wrs - 1) with v_e := s.v }
            sge_window := Function.update s.window.sge_window (s.wrs - 1)
              { s.window.sge_window (s.wrs - 1) with
                length := ((s.window.sge_window (s.wrs - 1)).length + n * 4) % 2 ^ 32 } } } :=
  if_pos h

theorem request_of_not_coalesces (b n : Nat) (h : ¬ s.Coalesces o) :
    s.request o c b n =
      { s with
        window :=
          prepWr
            { s.window with vertex_batch := Function.update s.window.vertex_batch s.wrs ⟨s.v, s.v⟩ }
            s.wrs c b (n * 4 % 2 ^ 32) (c.edge_offset s.v * 4)
        wrs := s.wrs + 1 } :=
  if_neg h

/-- `request` touches the arrays and their length only. -/
theorem request_eq (o : BuildOptions) (c : ClientContext) (b n : Nat) (s : PackState) :
    s.request o c b n =
      { s with window := (s.request o c b n).window, wrs := (s.request o c b n).wrs } := by
  by_cases h : s.Coalesces o
  · rw [request_of_coalesces b n h]
  · rw [request_of_not_coalesces b n h]

/-- However `v` is added, the arrays go on to represent the ranges. -/
theorem represents_request {edge_buf : Nat} {rs : List VertexRange}
    (h : Represents c edge_buf s.window rs) (hwrs : s.wrs = rs.length)
    (hbatch : s.batch_size = (rs.flatMap VertexRange.vertices).length)
    (hranges : ∀ r ∈ rs, r.v_s ≤ r.v_e) {t : PackState}
    (ht : t = s.request o c (edge_buf + c.edgesIn (rs.flatMap VertexRange.vertices))
      (c.degree s.v)) :
    Represents c edge_buf t.window (addVertex o.vertex_coalescing rs s.v) ∧
      t.wrs = (addVertex o.vertex_coalescing rs s.v).length := by
  rcases List.eq_nil_or_concat' rs with rfl | ⟨pre, r, rfl⟩
  · -- Nothing is in the window, so `v` starts its first work request.
    have hcond : ¬ s.Coalesces o := fun hjoin => Nat.ne_of_gt hjoin.2.1 hbatch
    rw [request_of_not_coalesces _ _ hcond, hwrs] at ht
    rw [addVertex_nil, ht]
    exact ⟨h.push (by rw [Nat.mul_comm]), rfl⟩
  · have hr : r.v_s ≤ r.v_e := hranges r (List.mem_append_right pre List.mem_cons_self)
    have hlast : s.wrs - 1 = pre.length := by
      rw [hwrs, List.length_append, List.length_singleton, Nat.add_sub_cancel]
    have hentry : s.window.vertex_batch pre.length = r := by
      rw [h.batch pre.length (by simp), List.getElem_concat_length rfl]
    have hpos : 0 < s.batch_size := by
      rw [hbatch]
      apply List.length_pos_of_mem
      exact List.mem_flatMap.2 ⟨r, List.mem_append_right pre List.mem_cons_self,
        VertexRange.mem_vertices.2 ⟨Nat.le_refl _, hr⟩⟩
    rw [addVertex_concat]
    by_cases hjoin : o.vertex_coalescing ∧ s.v = r.v_e + 1
    · have hcond : s.Coalesces o := ⟨hjoin.1, hpos, by rw [hlast, hentry]; exact hjoin.2⟩
      have hsge : (s.window.sge_window pre.length).length = 4 * c.edgesIn r.vertices % 2 ^ 32 := by
        rw [h.sge pre.length (by simp), List.getElem_concat_length rfl]
      have hlength : ((s.window.sge_window pre.length).length + c.degree (r.v_e + 1) * 4) % 2 ^ 32 =
          4 * (c.edgesIn r.vertices + c.degree (r.v_e + 1)) % 2 ^ 32 := by
        rw [hsge, Nat.mod_add_mod, Nat.mul_add, Nat.mul_comm (c.degree (r.v_e + 1))]
      rw [request_of_coalesces _ _ hcond, hlast, hentry, hjoin.2] at ht
      rw [if_pos hjoin, hjoin.2, ht]
      exact ⟨h.extend hr hlength, by simp [hwrs]⟩
    · have hcond : ¬ s.Coalesces o := by
        intro hcond
        apply hjoin
        have hnext := hcond.2.2
        rw [hlast, hentry] at hnext
        exact ⟨hcond.1, hnext⟩
      rw [request_of_not_coalesces _ _ hcond, hwrs] at ht
      rw [if_neg hjoin, ht]
      exact ⟨h.push (by rw [Nat.mul_comm]), by simp⟩

end PackState

/-! ### Fetching a vertex -/

section Fetch

variable (o : BuildOptions) (c : ClientContext) (edge_buf edge_buf_size : Nat) (s : PackState)

/-- The four ways through the part of the loop that fetches a vertex. -/
inductive FetchCase : PackState → Prop where
  | full (hroom : ¬ (s.total_edges + c.degree s.v) % 2 ^ 32 ≤ edge_buf_size) :
      FetchCase { s with full := true }
  | isolated (hroom : (s.total_edges + c.degree s.v) % 2 ^ 32 ≤ edge_buf_size)
      (hedges : ¬ c.degree s.v > 0) : FetchCase { s with v := s.v + 1 }
  | joins (hroom : (s.total_edges + c.degree s.v) % 2 ^ 32 ≤ edge_buf_size)
      (hedges : c.degree s.v > 0)
      (hjoin : o.vertex_coalescing ∧ s.batch_size > 0 ∧
        s.v = (s.window.vertex_batch (s.wrs - 1)).v_e + 1) :
      FetchCase
        { s with
          window :=
            { s.window with
              vertex_batch := Function.update s.window.vertex_batch (s.wrs - 1)
                { s.window.vertex_batch (s.wrs - 1) with v_e := s.v }
              sge_window := Function.update s.window.sge_window (s.wrs - 1)
                { s.window.sge_window (s.wrs - 1) with
                  length :=
                    ((s.window.sge_window (s.wrs - 1)).length + c.degree s.v * 4) % 2 ^ 32 } }
          marks :=
            s.marks ++ [edge_buf + s.total_edges, edge_buf + s.total_edges + (c.degree s.v - 1)]
          batch_size := s.batch_size + 1
          total_edges := (s.total_edges + c.degree s.v) % 2 ^ 32
          n_wr := s.n_wr + 1
          v := s.v + 1 }
  | starts (hroom : (s.total_edges + c.degree s.v) % 2 ^ 32 ≤ edge_buf_size)
      (hedges : c.degree s.v > 0)
      (hjoin : ¬ (o.vertex_coalescing ∧ s.batch_size > 0 ∧
        s.v = (s.window.vertex_batch (s.wrs - 1)).v_e + 1)) :
      FetchCase
        { s with
          window :=
            prepWr
              { s.window with
                vertex_batch := Function.update s.window.vertex_batch s.wrs ⟨s.v, s.v⟩ }
              s.wrs c (edge_buf + s.total_edges) (c.degree s.v * 4 % 2 ^ 32) (c.edge_offset s.v * 4)
          marks :=
            s.marks ++ [edge_buf + s.total_edges, edge_buf + s.total_edges + (c.degree s.v - 1)]
          wrs := s.wrs + 1
          batch_size := s.batch_size + 1
          total_edges := (s.total_edges + c.degree s.v) % 2 ^ 32
          n_wr := s.n_wr + 1
          v := s.v + 1 }

theorem fetch_cases :
    FetchCase o c edge_buf edge_buf_size s (s.fetch o c edge_buf edge_buf_size) := by
  by_cases hroom : (s.total_edges + c.degree s.v) % 2 ^ 32 ≤ edge_buf_size
  · rw [PackState.fetch, if_pos hroom]
    by_cases hedges : 0 < c.degree s.v
    · rw [if_pos hedges]
      simp only
      by_cases hjoin : s.Coalesces o
      · rw [PackState.request_of_coalesces _ _ (by exact hjoin)]
        exact .joins hroom hedges hjoin
      · rw [PackState.request_of_not_coalesces _ _ (by exact hjoin)]
        exact .starts hroom hedges hjoin
    · rw [if_neg hedges]
      exact .isolated hroom hedges
  · rw [PackState.fetch, if_neg hroom]
    exact .full hroom

end Fetch

/-! ### What a packer has done -/

/-- The call a vertex is served with out of the cache, if it is. -/
def Visit.call? : Visit → Option Call
  | .serve call => some call
  | _ => none

/-- The vertices of `[lo, hi)` that are fetched: those with edges that are neither skipped nor
    served. -/
def fetched (c : ClientContext) (visit : Nat → Visit) (lo hi : Nat) : List Nat :=
  (List.range' lo (hi - lo)).filter fun v => visit v = .fetch ∧ 0 < c.degree v

/-- The calls out of the cache for the vertices of `[lo, hi)`. -/
def served (visit : Nat → Visit) (lo hi : Nat) : List Call :=
  (List.range' lo (hi - lo)).filterMap fun v => (visit v).call?

/-- The first and the last word of each adjacency list, when they lie one behind the other from `b`
    on. -/
def marksOf (c : ClientContext) : Nat → List Nat → List Nat
  | _, [] => []
  | b, v :: vs => b :: (b + (c.degree v - 1)) :: marksOf c (b + c.degree v) vs

section Ranges

variable {c : ClientContext} {visit : Nat → Visit} {lo hi : Nat}

theorem range'_append_of_le {lo mid hi : Nat} (hle : lo ≤ mid) (hle' : mid ≤ hi) :
    List.range' lo (hi - lo) = List.range' lo (mid - lo) ++ List.range' mid (hi - mid) := by
  have hlength : hi - lo = mid - lo + (hi - mid) := by omega
  have hmid : lo + (mid - lo) = mid := by omega
  rw [hlength, ← List.range'_append_1, hmid]

theorem range'_snoc (h : lo ≤ hi) :
    List.range' lo (hi + 1 - lo) = List.range' lo (hi - lo) ++ [hi] := by
  rw [range'_append_of_le h (Nat.le_succ hi), Nat.succ_sub (Nat.le_refl hi), Nat.sub_self,
    List.range'_one]

theorem fetched_snoc (h : lo ≤ hi) :
    fetched c visit lo (hi + 1) =
      fetched c visit lo hi ++ if visit hi = .fetch ∧ 0 < c.degree hi then [hi] else [] := by
  rw [fetched, fetched, range'_snoc h, List.filter_append, List.filter_singleton, Bool.cond_decide]

theorem fetched_append {mid : Nat} (hle : lo ≤ mid) (hle' : mid ≤ hi) :
    fetched c visit lo hi = fetched c visit lo mid ++ fetched c visit mid hi := by
  rw [fetched, range'_append_of_le hle hle', List.filter_append]
  rfl

/-- What is fetched up to and including `u` is part of what is fetched up to `hi`. -/
theorem edgesIn_fetched_le {u : Nat} (hle : lo ≤ u) (hlt : u < hi) (hvisit : visit u = .fetch) :
    c.edgesIn (fetched c visit lo u) + c.degree u ≤ c.edgesIn (fetched c visit lo hi) := by
  have hsnoc : c.edgesIn (fetched c visit lo (u + 1)) =
      c.edgesIn (fetched c visit lo u) + c.degree u := by
    rw [fetched_snoc hle, ClientContext.edgesIn_append]
    by_cases hpos : 0 < c.degree u
    · rw [if_pos ⟨hvisit, hpos⟩, ClientContext.edgesIn_singleton]
    · rw [if_neg (fun hf => hpos hf.2), ClientContext.edgesIn_nil]
      omega
  rw [← hsnoc, fetched_append (Nat.le_succ_of_le hle) hlt, ClientContext.edgesIn_append]
  exact Nat.le_add_right _ _

theorem served_snoc (h : lo ≤ hi) :
    served visit lo (hi + 1) = served visit lo hi ++ (visit hi).call?.toList := by
  rw [served, served, range'_snoc h, List.filterMap_append]
  cases hcall : (visit hi).call? with
  | none => simp [hcall]
  | some call => simp [hcall]

theorem mem_fetched {v : Nat} :
    v ∈ fetched c visit lo hi ↔ (lo ≤ v ∧ v < hi) ∧ visit v = .fetch ∧ 0 < c.degree v := by
  rw [fetched, List.mem_filter, List.mem_range'_1, decide_eq_true_eq]
  constructor
  · rintro ⟨hrange, hv⟩
    exact ⟨by omega, hv⟩
  · rintro ⟨hrange, hv⟩
    exact ⟨by omega, hv⟩

theorem marksOf_append (b : Nat) (vs ws : List Nat) :
    marksOf c b (vs ++ ws) = marksOf c b vs ++ marksOf c (b + c.edgesIn vs) ws := by
  induction vs generalizing b with
  | nil => rfl
  | cons v vs ih =>
      rw [List.cons_append, marksOf, marksOf, ih, ClientContext.edgesIn_cons, Nat.add_assoc]
      rfl

end Ranges

/-- Neither the buffer nor the window is full before `v`: a packer that gets there looks at `v`. -/
def WindowOpen (o : BuildOptions) (c : ClientContext) (edge_buf_size range_start : Nat)
    (visit : Nat → Visit) (v : Nat) : Prop :=
  c.edgesIn (fetched c visit range_start v) < edge_buf_size ∧
    (runs o.vertex_coalescing (fetched c visit range_start v)).length < o.wr_window_size

theorem WindowOpen.mono {o : BuildOptions} {c : ClientContext} {edge_buf_size range_start : Nat}
    {visit : Nat → Visit} {u v : Nat} (h : WindowOpen o c edge_buf_size range_start visit v)
    (hle : range_start ≤ u) (hle' : u ≤ v) : WindowOpen o c edge_buf_size range_start visit u := by
  rw [WindowOpen, fetched_append hle hle', ClientContext.edgesIn_append] at h
  exact ⟨Nat.lt_of_le_of_lt (Nat.le_add_right _ _) h.1,
    Nat.lt_of_le_of_lt (runs_length_mono _ _) h.2⟩

/-- Whenever a packer asks if a vertex still fits, its 32-bit sum gives no wrong yes. -/
structure ExactTest (o : BuildOptions) (c : ClientContext)
    (edge_buf_size range_start range_end : Nat) (visit : Nat → Visit) : Prop where
  size : edge_buf_size < 2 ^ 32
  exact : ∀ v, range_start ≤ v → v < range_end → visit v = .fetch →
    WindowOpen o c edge_buf_size range_start visit v →
    (c.edgesIn (fetched c visit range_start v) + c.degree v) % 2 ^ 32 ≤ edge_buf_size →
    c.edgesIn (fetched c visit range_start v) + c.degree v ≤ edge_buf_size

/-- The variables of a packer that has got to `s.v`, from `range_start`. -/
structure Packed (o : BuildOptions) (c : ClientContext)
    (edge_buf edge_buf_size range_start range_end : Nat) (visit : Nat → Visit)
    (rs : List VertexRange) (s : PackState) : Prop where
  start_le : range_start ≤ s.v
  v_le : s.v ≤ range_end
  passed : ∀ u, range_start ≤ u → u < s.v → WindowOpen o c edge_buf_size range_start visit u
  runs : rs = FamGraph.runs o.vertex_coalescing (fetched c visit range_start s.v)
  arrays : Represents c edge_buf s.window rs
  wrs : s.wrs = rs.length
  wrs_le : rs.length ≤ o.wr_window_size
  total : s.total_edges = c.edgesIn (fetched c visit range_start s.v)
  total_le : s.total_edges ≤ edge_buf_size
  batch : s.batch_size = (fetched c visit range_start s.v).length
  marks : s.marks = marksOf c edge_buf (fetched c visit range_start s.v)
  calls : s.calls = served visit range_start s.v
  hits : s.cache_hit = s.calls.length
  full : s.full = true →
    s.v < range_end ∧ visit s.v = .fetch ∧ edge_buf_size < s.total_edges + c.degree s.v

section Loop

variable {o : BuildOptions} {c : ClientContext} {edge_buf edge_buf_size range_start range_end : Nat}
  {visit : Nat → Visit} {rs : List VertexRange} {s : PackState}

/-- Lists that fit in the buffer do not make the test overflow. -/
theorem Fits.exactTest (hfits : Fits c edge_buf_size) (hend : range_end ≤ c.num_vertices) :
    ExactTest o c edge_buf_size range_start range_end visit where
  size := by
    have hlt := hfits.lt
    omega
  exact v _ hv _ hopen hle := by
    have hdegree := hfits.degree_le_size (v := v) (by omega)
    have hlt := hfits.lt
    have hopen' := hopen.1
    rwa [Nat.mod_eq_of_lt (by omega)] at hle

theorem Packed.vertices (h : Packed o c edge_buf edge_buf_size range_start range_end visit rs s) :
    rs.flatMap VertexRange.vertices = fetched c visit range_start s.v := by
  rw [h.runs, vertices_runs]

theorem Packed.ranges (h : Packed o c edge_buf edge_buf_size range_start range_end visit rs s) :
    ∀ r ∈ rs, r.v_s ≤ r.v_e := by
  rw [h.runs]
  exact ranges_runs _

/-- The packer looks at the vertex it has got to. -/
theorem Packed.windowOpen (h : Packed o c edge_buf edge_buf_size range_start range_end visit rs s)
    (htotal : s.total_edges < edge_buf_size) (hwrs : s.wrs < o.wr_window_size) :
    WindowOpen o c edge_buf_size range_start visit s.v :=
  ⟨h.total ▸ htotal, by rw [← h.runs, ← h.wrs]; exact hwrs⟩

/-- The part of the buffer a range takes up. -/
theorem Packed.edgesIn_le (h : Packed o c edge_buf edge_buf_size range_start range_end visit rs s)
    {r : VertexRange} (hr : r ∈ rs) : c.edgesIn r.vertices ≤ s.total_edges := by
  obtain ⟨pre, post, rfl⟩ := List.append_of_mem hr
  rw [h.total, ← h.vertices, List.flatMap_append, List.flatMap_cons, ClientContext.edgesIn_append,
    ClientContext.edgesIn_append]
  omega

theorem packed_new (window : Window) (n_wr : Nat) (stats : Nat × Nat × Nat)
    (hle : range_start ≤ range_end) :
    Packed o c edge_buf edge_buf_size range_start range_end visit []
      (.new window 0 n_wr range_start stats) := by
  have hfetched : fetched c visit range_start range_start = [] := by
    rw [fetched, Nat.sub_self]
    rfl
  have hserved : served visit range_start range_start = [] := by
    rw [served, Nat.sub_self]
    rfl
  exact
    { start_le := Nat.le_refl range_start
      v_le := hle
      passed := fun u hu hlt => absurd hlt (Nat.not_lt.2 hu)
      runs := hfetched.symm ▸ rfl
      arrays := Represents.nil c edge_buf window
      wrs := rfl
      wrs_le := Nat.zero_le _
      total := hfetched.symm ▸ rfl
      total_le := Nat.zero_le _
      batch := hfetched.symm ▸ rfl
      marks := hfetched.symm ▸ rfl
      calls := hserved.symm
      hits := rfl
      full := fun h => nomatch h }

/-- The vertices passed, when `s.v` is passed too. -/
theorem Packed.passed_snoc (h : Packed o c edge_buf edge_buf_size range_start range_end visit rs s)
    (hopen : WindowOpen o c edge_buf_size range_start visit s.v) (u : Nat) (hu : range_start ≤ u)
    (hlt : u < s.v + 1) : WindowOpen o c edge_buf_size range_start visit u := by
  rcases Nat.lt_succ_iff_lt_or_eq.1 hlt with hold | rfl
  · exact h.passed u hu hold
  · exact hopen

/-- A vertex that adds nothing to the window, with what its visit has added to the calls. -/
theorem Packed.pass {calls : List Call} {cache_hit : Nat}
    (h : Packed o c edge_buf edge_buf_size range_start range_end visit rs s)
    (hlt : s.v < range_end) (hfull : s.full = false)
    (hopen : WindowOpen o c edge_buf_size range_start visit s.v)
    (hfetch : ¬ (visit s.v = .fetch ∧ 0 < c.degree s.v))
    (hcalls : calls = s.calls ++ (visit s.v).call?.toList) (hhits : cache_hit = calls.length) :
    Packed o c edge_buf edge_buf_size range_start range_end visit rs
      { s with calls := calls, cache_hit := cache_hit, v := s.v + 1 } := by
  have hsame : fetched c visit range_start (s.v + 1) = fetched c visit range_start s.v := by
    rw [fetched_snoc h.start_le, if_neg hfetch, List.append_nil]
  exact
    { h with
      start_le := Nat.le_succ_of_le h.start_le
      v_le := hlt
      passed := h.passed_snoc hopen
      runs := hsame.symm ▸ h.runs
      total := hsame.symm ▸ h.total
      batch := hsame.symm ▸ h.batch
      marks := hsame.symm ▸ h.marks
      calls := by rw [served_snoc h.start_le, hcalls, h.calls]
      hits := hhits
      full := fun hf => nomatch hfull.symm.trans hf }

theorem Packed.skip (h : Packed o c edge_buf edge_buf_size range_start range_end visit rs s)
    (hlt : s.v < range_end) (hfull : s.full = false)
    (hopen : WindowOpen o c edge_buf_size range_start visit s.v) (hvisit : (visit s.v).call? = none)
    (hfetch : ¬ (visit s.v = .fetch ∧ 0 < c.degree s.v)) :
    Packed o c edge_buf edge_buf_size range_start range_end visit rs { s with v := s.v + 1 } := by
  have hcalls : s.calls = s.calls ++ (visit s.v).call?.toList := by
    rw [hvisit, Option.toList_none, List.append_nil]
  exact h.pass hlt hfull hopen hfetch hcalls h.hits

theorem Packed.serve (h : Packed o c edge_buf edge_buf_size range_start range_end visit rs s)
    (hlt : s.v < range_end) (hfull : s.full = false)
    (hopen : WindowOpen o c edge_buf_size range_start visit s.v) {call : Call}
    (hvisit : visit s.v = .serve call) :
    Packed o c edge_buf edge_buf_size range_start range_end visit rs
      { s with calls := s.calls ++ [call], cache_hit := s.cache_hit + 1, v := s.v + 1 } := by
  have hfetch : ¬ (visit s.v = .fetch ∧ 0 < c.degree s.v) := by
    rintro ⟨hf, -⟩
    cases hvisit.symm.trans hf
  have hcalls : s.calls ++ [call] = s.calls ++ (visit s.v).call?.toList := by
    rw [hvisit]
    rfl
  have hhits : s.cache_hit + 1 = (s.calls ++ [call]).length := by
    rw [List.length_append, List.length_singleton, h.hits]
  exact h.pass hlt hfull hopen hfetch hcalls hhits

/-- A vertex that fits, as the packer puts it behind the others. -/
theorem Packed.push (h : Packed o c edge_buf edge_buf_size range_start range_end visit rs s)
    (hsize : edge_buf_size < 2 ^ 32) (hlt : s.v < range_end) (hfull : s.full = false)
    (hopen : WindowOpen o c edge_buf_size range_start visit s.v) (hvisit : visit s.v = .fetch)
    (hroom : s.total_edges + c.degree s.v ≤ edge_buf_size) (hpos : 0 < c.degree s.v) :
    Packed o c edge_buf edge_buf_size range_start range_end visit
      (addVertex o.vertex_coalescing rs s.v) (s.fetch o c edge_buf edge_buf_size) := by
  have hsum : (s.total_edges + c.degree s.v) % 2 ^ 32 = s.total_edges + c.degree s.v :=
    Nat.mod_eq_of_lt (Nat.lt_of_le_of_lt hroom hsize)
  have hfetched :
      fetched c visit range_start (s.v + 1) = fetched c visit range_start s.v ++ [s.v] := by
    rw [fetched_snoc h.start_le, if_pos ⟨hvisit, hpos⟩]
  have hserved : served visit range_start (s.v + 1) = served visit range_start s.v := by
    rw [served_snoc h.start_le, hvisit]
    exact List.append_nil _
  have hedges : c.edgesIn (rs.flatMap VertexRange.vertices) = s.total_edges := by
    rw [h.vertices, h.total]
  -- The state in which the marks are written, and the one with the work request.
  obtain ⟨m, hm⟩ : ∃ m : PackState, m = { s with
      marks := s.marks ++
        [edge_buf + s.total_edges, edge_buf + s.total_edges + (c.degree s.v - 1)] } :=
    ⟨_, rfl⟩
  obtain ⟨t, ht⟩ : ∃ t, t = m.request o c (edge_buf + s.total_edges) (c.degree s.v) := ⟨_, rfl⟩
  have hstate : s.fetch o c edge_buf edge_buf_size =
      { t with
        batch_size := t.batch_size + 1
        total_edges := (t.total_edges + c.degree s.v) % 2 ^ 32
        n_wr := t.n_wr + 1
        v := t.v + 1 } := by
    rw [PackState.fetch, hsum, if_pos hroom, if_pos hpos, ht, hm]
  have hm_v : m.v = s.v := hm ▸ rfl
  have hrequest : Represents c edge_buf t.window (addVertex o.vertex_coalescing rs m.v) ∧
      t.wrs = (addVertex o.vertex_coalescing rs m.v).length := by
    apply PackState.represents_request (s := m) (hm ▸ h.arrays) (hm ▸ h.wrs)
    · rw [h.vertices, hm]
      exact h.batch
    · exact h.ranges
    · rw [hedges, hm_v]
      exact ht
  rw [hm_v] at hrequest
  rw [PackState.request_eq, hm] at ht
  have hlength : (addVertex o.vertex_coalescing rs s.v).length ≤ rs.length + 1 :=
    (length_addVertex rs s.v).2
  rw [hstate]
  exact
    { start_le := by rw [ht]; exact Nat.le_succ_of_le h.start_le
      v_le := by rw [ht]; exact hlt
      passed := by rw [ht]; exact h.passed_snoc hopen
      runs := by
        rw [ht]
        simp only [hfetched]
        rw [runs_snoc, ← h.runs]
      arrays := hrequest.1
      wrs := hrequest.2
      wrs_le := by
        have hopen' := hopen.2
        rw [← h.runs] at hopen'
        omega
      total := by
        rw [ht]
        simp only [hfetched, hsum]
        rw [ClientContext.edgesIn_append, ClientContext.edgesIn_singleton, h.total]
      total_le := by
        rw [ht]
        simp only [hsum]
        exact hroom
      batch := by
        rw [ht]
        simp only [hfetched]
        rw [List.length_append, List.length_singleton, h.batch]
      marks := by
        rw [ht]
        simp only [hfetched]
        rw [marksOf_append, h.marks, ← h.total]
        rfl
      calls := by
        rw [ht]
        exact h.calls.trans hserved.symm
      hits := by
        rw [ht]
        exact h.hits
      full := by
        intro hf
        rw [ht] at hf
        exact nomatch hfull.symm.trans hf }

/-- Fetching `s.v` either puts it behind the others or finds that it no longer fits. -/
theorem Packed.fetch (h : Packed o c edge_buf edge_buf_size range_start range_end visit rs s)
    (hexact : ExactTest o c edge_buf_size range_start range_end visit) (hlt : s.v < range_end)
    (hfull : s.full = false) (hopen : WindowOpen o c edge_buf_size range_start visit s.v)
    (hvisit : visit s.v = .fetch) :
    ∃ rs', Packed o c edge_buf edge_buf_size range_start range_end visit rs'
      (s.fetch o c edge_buf edge_buf_size) := by
  by_cases hfit : (s.total_edges + c.degree s.v) % 2 ^ 32 ≤ edge_buf_size
  · have hroom : s.total_edges + c.degree s.v ≤ edge_buf_size := by
      rw [h.total] at hfit ⊢
      exact hexact.exact s.v h.start_le hlt hvisit hopen hfit
    by_cases hpos : 0 < c.degree s.v
    · exact ⟨_, h.push hexact.size hlt hfull hopen hvisit hroom hpos⟩
    · refine ⟨rs, ?_⟩
      rw [PackState.fetch, if_pos hfit, if_neg hpos]
      exact h.skip hlt hfull hopen (hvisit ▸ rfl) (fun hf => hpos hf.2)
  · refine ⟨rs, ?_⟩
    rw [PackState.fetch, if_neg hfit]
    have hover : edge_buf_size < s.total_edges + c.degree s.v :=
      Nat.lt_of_lt_of_le (Nat.lt_of_not_le hfit) (Nat.mod_le _ _)
    exact { h with full := fun _ => ⟨hlt, hvisit, hover⟩ }

theorem cond_iff : s.cond o edge_buf_size range_end = true ↔
    s.full = false ∧ s.total_edges < edge_buf_size ∧ s.wrs < o.wr_window_size ∧
    s.v < range_end := by
  simp only [PackState.cond, Bool.and_eq_true, Bool.not_eq_true', decide_eq_true_eq, and_assoc]

/-- One turn of the loop. -/
theorem Packed.body (h : Packed o c edge_buf edge_buf_size range_start range_end visit rs s)
    (hexact : ExactTest o c edge_buf_size range_start range_end visit)
    (hcond : s.cond o edge_buf_size range_end = true) :
    ∃ rs', Packed o c edge_buf edge_buf_size range_start range_end visit rs'
      (s.body o c edge_buf edge_buf_size visit) := by
  obtain ⟨hfull, htotal, hwrs, hlt⟩ := cond_iff.1 hcond
  have hopen := h.windowOpen htotal hwrs
  cases hvisit : visit s.v with
  | skip =>
      rw [PackState.body, hvisit]
      exact ⟨rs, h.skip hlt hfull hopen (hvisit ▸ rfl) (fun hf => nomatch hvisit.symm.trans hf.1)⟩
  | serve call =>
      rw [PackState.body, hvisit]
      exact ⟨rs, h.serve hlt hfull hopen hvisit⟩
  | fetch =>
      rw [PackState.body, hvisit]
      exact h.fetch hexact hlt hfull hopen hvisit

/-- A turn goes on to the next vertex, unless it returns. -/
theorem body_progress (o : BuildOptions) (c : ClientContext) (edge_buf edge_buf_size : Nat)
    (visit : Nat → Visit) (s : PackState) (hfull : s.full = false) :
    (s.body o c edge_buf edge_buf_size visit).full = true ∨
      (s.body o c edge_buf edge_buf_size visit).full = false ∧
        (s.body o c edge_buf edge_buf_size visit).v = s.v + 1 := by
  cases hvisit : visit s.v with
  | skip =>
      rw [PackState.body, hvisit]
      exact .inr ⟨hfull, rfl⟩
  | serve call =>
      rw [PackState.body, hvisit]
      exact .inr ⟨hfull, rfl⟩
  | fetch =>
      rw [PackState.body, hvisit, PackState.fetch]
      simp only
      rw [PackState.request_eq]
      split
      · split
        · exact .inr ⟨hfull, rfl⟩
        · exact .inr ⟨hfull, rfl⟩
      · exact .inl rfl

theorem le_body (o : BuildOptions) (c : ClientContext) (edge_buf edge_buf_size : Nat)
    (visit : Nat → Visit) (s : PackState) : s.v ≤ (s.body o c edge_buf edge_buf_size visit).v := by
  cases hvisit : visit s.v with
  | skip =>
      rw [PackState.body, hvisit]
      exact Nat.le_succ _
  | serve call =>
      rw [PackState.body, hvisit]
      exact Nat.le_succ _
  | fetch =>
      rw [PackState.body, hvisit, PackState.fetch]
      simp only
      rw [PackState.request_eq]
      split
      · split
        · exact Nat.le_succ _
        · exact Nat.le_succ _
      · exact Nat.le_refl _

/-- A vertex that passes the test is left behind. -/
theorem fetch_progress (s : PackState)
    (hfit : (s.total_edges + c.degree s.v) % 2 ^ 32 ≤ edge_buf_size) :
    (s.fetch o c edge_buf edge_buf_size).v = s.v + 1 := by
  rw [PackState.fetch, if_pos hfit]
  simp only
  rw [PackState.request_eq]
  split
  · rfl
  · rfl

/-- The fuel of `pack` is enough: the loop has ended on its own. -/
theorem cond_iter (s : PackState) (hfull : s.full = false) :
    (Loop.iter (PackState.cond o edge_buf_size range_end)
      (PackState.body o c edge_buf edge_buf_size visit) (range_end - s.v + 1) s).cond o
      edge_buf_size
        range_end = false := by
  apply Loop.iter_done fun s : PackState => if s.full then 0 else range_end - s.v + 1
  · intro s hcond
    obtain ⟨hfull, -, -, hlt⟩ := cond_iff.1 hcond
    rw [hfull, if_neg Bool.false_ne_true]
    rcases body_progress o c edge_buf edge_buf_size visit s hfull with hreturn | ⟨hgo, hv⟩
    · rw [hreturn, if_pos rfl]
      exact Nat.succ_pos _
    · rw [hgo, hv, if_neg Bool.false_ne_true]
      omega
  · rw [hfull, if_neg Bool.false_ne_true]

theorem cond_pack (o : BuildOptions) (c : ClientContext) (edge_buf edge_buf_size range_end : Nat)
    (visit : Nat → Visit) (s : PackState) (hfull : s.full = false) :
    (pack o c edge_buf edge_buf_size range_end visit s).cond o edge_buf_size range_end = false :=
  cond_iter s hfull

/-- What every turn of a packer keeps, and the statistics do not matter for, holds of what it
    returns. -/
theorem pack_invariant (I : PackState → Prop)
    (hturn : ∀ s, I s → s.cond o edge_buf_size range_end = true →
      I (s.body o c edge_buf edge_buf_size visit))
    (hcount : ∀ s, I s → I s.count) {s : PackState} (hs : I s) :
    I (pack o c edge_buf edge_buf_size range_end visit s) :=
  hcount _ (Loop.iter_invariant I hturn _ hs)

/-- The window a packer returns. -/
theorem packed_pack (window : Window) (n_wr : Nat) (stats : Nat × Nat × Nat)
    (hexact : ExactTest o c edge_buf_size range_start range_end visit)
    (hle : range_start ≤ range_end) :
    ∃ rs, Packed o c edge_buf edge_buf_size range_start range_end visit rs
      (pack o c edge_buf edge_buf_size range_end visit (.new window 0 n_wr range_start stats)) := by
  apply pack_invariant fun s => ∃ rs,
    Packed o c edge_buf edge_buf_size range_start range_end visit rs s
  · rintro s ⟨rs, h⟩ hcond
    exact h.body hexact hcond
  · rintro s ⟨rs, h⟩
    exact ⟨rs, { h with }⟩
  · exact ⟨[], packed_new window n_wr stats hle⟩

/-- A window without vertices has no work requests. -/
theorem Packed.eq_nil (h : Packed o c edge_buf edge_buf_size range_start range_end visit rs s)
    (hnone : fetched c visit range_start s.v = []) : rs = [] := by
  rw [List.eq_nil_iff_forall_not_mem]
  intro r hr
  have hmem : r.v_s ∈ rs.flatMap VertexRange.vertices :=
    List.mem_flatMap.2 ⟨r, hr, VertexRange.mem_vertices.2 ⟨Nat.le_refl _, h.ranges r hr⟩⟩
  rw [h.vertices, hnone] at hmem
  exact nomatch hmem

/-- A packer only moves on. -/
theorem le_iter (fuel : Nat) (s : PackState) :
    s.v ≤ (Loop.iter (PackState.cond o edge_buf_size range_end)
      (PackState.body o c edge_buf edge_buf_size visit) fuel s).v := by
  apply Loop.iter_invariant fun t : PackState => s.v ≤ t.v
  · intro t hle _
    exact Nat.le_trans hle (le_body o c edge_buf edge_buf_size visit t)
  · exact Nat.le_refl s.v

/-- A turn moves on unless it is to fetch a vertex whose list does not fit. -/
theorem body_next (s : PackState)
    (hfit : visit s.v = .fetch → (s.total_edges + c.degree s.v) % 2 ^ 32 ≤ edge_buf_size) :
    (s.body o c edge_buf edge_buf_size visit).v = s.v + 1 := by
  cases hvisit : visit s.v with
  | skip => rw [PackState.body, hvisit]
  | serve call => rw [PackState.body, hvisit]
  | fetch =>
      rw [PackState.body, hvisit]
      exact fetch_progress s (hfit hvisit)

variable (o c edge_buf range_end visit) in
/-- As long as the window is open, each turn goes on to the next vertex: the packer gets to `v`. -/
theorem packed_iter (window : Window) (n_wr : Nat) (stats : Nat × Nat × Nat)
    (hsize : edge_buf_size < 2 ^ 32) {v : Nat}
    (hopen : WindowOpen o c edge_buf_size range_start visit v) (hend : v ≤ range_end) {n : Nat}
    (hn : range_start + n ≤ v) :
    ∃ rs, Packed o c edge_buf edge_buf_size range_start v visit rs
        (Loop.iter (PackState.cond o edge_buf_size range_end)
          (PackState.body o c edge_buf edge_buf_size visit) n
          (.new window 0 n_wr range_start stats)) ∧
      (Loop.iter (PackState.cond o edge_buf_size range_end)
        (PackState.body o c edge_buf edge_buf_size visit) n
        (.new window 0 n_wr range_start stats)).v = range_start + n ∧
      (Loop.iter (PackState.cond o edge_buf_size range_end)
        (PackState.body o c edge_buf edge_buf_size visit) n
        (.new window 0 n_wr range_start stats)).full = false := by
  have hexact : ExactTest o c edge_buf_size range_start v visit :=
    { size := hsize
      exact := fun u hu huv hfetch _ _ =>
        Nat.le_of_lt (Nat.lt_of_le_of_lt (edgesIn_fetched_le hu huv hfetch) hopen.1) }
  induction n with
  | zero => exact ⟨[], packed_new window n_wr stats hn, rfl, rfl⟩
  | succ n ih =>
      obtain ⟨rs, h, hv, hfull⟩ := ih (by omega)
      rw [Loop.iter_add n 1]
      generalize Loop.iter (PackState.cond o edge_buf_size range_end)
        (PackState.body o c edge_buf edge_buf_size visit) n (.new window 0 n_wr range_start stats) =
        s at h hv hfull ⊢
      have hlt : s.v < v := by omega
      have hhere : WindowOpen o c edge_buf_size range_start visit s.v :=
        hopen.mono h.start_le h.v_le
      have htotal : s.total_edges < edge_buf_size := h.total ▸ hhere.1
      have hwrs : s.wrs < o.wr_window_size := by
        rw [h.wrs, h.runs]
        exact hhere.2
      have hcond : s.cond o edge_buf_size range_end = true :=
        cond_iff.2 ⟨hfull, htotal, hwrs, by omega⟩
      have hnext : (s.body o c edge_buf edge_buf_size visit).v = s.v + 1 := by
        apply body_next
        intro hvisit
        have hfits := edgesIn_fetched_le (c := c) h.start_le hlt hvisit
        have hroom := hopen.1
        rw [h.total, Nat.mod_eq_of_lt (by omega)]
        omega
      obtain ⟨rs', h'⟩ := h.body hexact (cond_iff.2 ⟨hfull, htotal, hwrs, hlt⟩)
      rw [Loop.iter_succ hcond, Loop.iter]
      refine ⟨rs', h', by omega, ?_⟩
      rcases body_progress o c edge_buf edge_buf_size visit s hfull with hreturn | ⟨hgo, -⟩
      · -- It returns only where a list does not fit, and all before `v` do.
        obtain ⟨hbefore, hfetch, hbig⟩ := h'.full hreturn
        have hfits := edgesIn_fetched_le (c := c) h'.start_le hbefore hfetch
        have hroom := hopen.1
        rw [h'.total] at hbig
        omega
      · exact hgo

variable (edge_buf) in
/-- So the run of a packer splits at any vertex up to which the window is open. -/
theorem pack_splits (window : Window) (n_wr : Nat) (stats : Nat × Nat × Nat)
    (hsize : edge_buf_size < 2 ^ 32) {v : Nat}
    (hopen : WindowOpen o c edge_buf_size range_start visit v) (hstart : range_start ≤ v)
    (hlt : v < range_end) :
    ∃ rs s n rest, Packed o c edge_buf edge_buf_size range_start v visit rs s ∧ s.v = v ∧
      s.cond o edge_buf_size range_end = true ∧
      Loop.iter (PackState.cond o edge_buf_size range_end)
        (PackState.body o c edge_buf edge_buf_size visit) n (.new window 0 n_wr range_start stats) =
        s ∧
      pack o c edge_buf edge_buf_size range_end visit (.new window 0 n_wr range_start stats) =
        (Loop.iter (PackState.cond o edge_buf_size range_end)
          (PackState.body o c edge_buf edge_buf_size visit) rest
          (s.body o c edge_buf edge_buf_size visit)).count := by
  have hthere : range_start + (v - range_start) = v := by omega
  have hfuel : range_end - range_start + 1 = v - range_start + (range_end - v + 1) := by omega
  obtain ⟨rs, h, hv, hfull⟩ :=
    packed_iter o c edge_buf range_end visit window n_wr stats hsize hopen (Nat.le_of_lt hlt)
      (Nat.le_of_eq hthere)
  rw [hthere] at hv
  have hcond :
      PackState.cond o edge_buf_size range_end
        (Loop.iter (PackState.cond o edge_buf_size range_end)
          (PackState.body o c edge_buf edge_buf_size visit) (v - range_start)
      (.new window 0 n_wr range_start stats)) = true := by
    apply cond_iff.2
    rw [h.total, h.wrs, h.runs, hv]
    exact ⟨hfull, hopen.1, hopen.2, hlt⟩
  refine ⟨rs, _, v - range_start, range_end - v, h, hv, hcond, rfl, ?_⟩
  rw [pack]
  simp only [PackState.new] at hcond ⊢
  rw [hfuel, Loop.iter_add, Loop.iter_succ hcond]

/-- A packer gets beyond the vertex it starts at, if the list of that vertex fits in an empty
    buffer. -/
theorem lt_pack (window : Window) (n_wr : Nat) (stats : Nat × Nat × Nat) (hpos : 0 < edge_buf_size)
    (hlt : range_start < range_end)
    (hfit : visit range_start = .fetch → c.degree range_start % 2 ^ 32 ≤ edge_buf_size) :
    range_start <
      (pack o c edge_buf edge_buf_size range_end visit
        (.new window 0 n_wr range_start stats)).v := by
  have hcond :
      (PackState.new window 0 n_wr range_start stats).cond o edge_buf_size range_end = true :=
    cond_iff.2 ⟨rfl, hpos, o.wr_window_size_pos, hlt⟩
  have hnext :
      ((PackState.new window 0 n_wr range_start stats).body o c edge_buf edge_buf_size visit).v =
        range_start + 1 := by
    apply body_next
    intro hvisit
    exact (Nat.zero_add (c.degree range_start)).symm ▸ hfit hvisit
  rw [pack, Loop.iter_succ hcond]
  exact Nat.lt_of_lt_of_le (hnext ▸ Nat.lt_succ_self range_start) (le_iter _ _)

/-- With a buffer that every list fits in, every packer moves on. -/
theorem Fits.lt_pack (hfits : Fits c edge_buf_size) (window : Window) (n_wr : Nat)
    (stats : Nat × Nat × Nat) (hend : range_end ≤ c.num_vertices) (hlt : range_start < range_end) :
    range_start <
      (pack o c edge_buf edge_buf_size range_end visit
        (.new window 0 n_wr range_start stats)).v := by
  apply FamGraph.lt_pack window n_wr stats hfits.pos hlt
  intro _
  exact Nat.le_trans (Nat.mod_le _ _) (hfits.degree_le_size (by omega))

end Loop

end FamGraph
