/-
Module: FamGraph.Proofs.PackingArithmetic
Layer: Proofs
Purpose: The 32-bit arithmetic of the packers, for any buffer size a `uint32_t` holds and lists that
  fit in the buffer. Edge counts and byte counts wrap at different sizes: the packers compute what
  they would over the integers exactly if no sum of edges they test reaches `2 ^ 32` and no vertex
  range they build up reaches `2 ^ 32` bytes.
Trusted boundary: none
Main exports: ExactArithmetic, NoWrap, packing_arithmetic_exact_iff
-/
import FamGraph.Proofs.WindowGeometry

namespace FamGraph

/-! ### Ranges grow -/

theorem VertexRange.edgesIn_le (c : ClientContext) {r r' : VertexRange} (hstart : r'.v_s = r.v_s)
    (hend : r.v_e ≤ r'.v_e) : c.edgesIn r.vertices ≤ c.edgesIn r'.vertices := by
  have hsub : r.vertices.Sublist r'.vertices := by
    rw [VertexRange.vertices, VertexRange.vertices, hstart]
    exact (List.range'_sublist_right.2 (by omega))
  exact (hsub.map c.degree).sum_le_sum fun _ _ => Nat.zero_le _

/-- Further vertices leave every range where it starts, and may lengthen it. -/
theorem exists_runs_append (coalesce : Bool) (vs ws : List Nat) {r : VertexRange}
    (hr : r ∈ runs coalesce vs) :
    ∃ r' ∈ runs coalesce (vs ++ ws), r'.v_s = r.v_s ∧ r.v_e ≤ r'.v_e := by
  induction ws using List.reverseRecOn with
  | nil =>
      rw [List.append_nil]
      exact ⟨r, hr, rfl, Nat.le_refl _⟩
  | append_singleton ws w ih =>
      obtain ⟨r', hr', hstart, hend⟩ := ih
      rw [← List.append_assoc, runs_snoc]
      rcases List.eq_nil_or_concat' (runs coalesce (vs ++ ws)) with hnil | ⟨rs, last, hlast⟩
      · rw [hnil] at hr'
        exact nomatch hr'
      · rw [hlast] at hr'
        rw [hlast, addVertex_concat]
        split
        · rename_i hjoin
          rcases List.mem_append.1 hr' with hold | hnew
          · exact ⟨r', List.mem_append_left _ hold, hstart, hend⟩
          · rw [List.mem_singleton.1 hnew] at hstart hend
            exact ⟨_, List.mem_append_right rs List.mem_cons_self, hstart, by simp only; omega⟩
        · exact ⟨r', List.mem_append_left _ hr', hstart, hend⟩

/-! ### The packers' arithmetic -/

/-- In the run from `start`, every test for room decides as it would over the integers and the count
    of edges stays within the buffer, and in the window returned every length is four times the
    number of edges of the vertices. -/
structure ExactArithmetic (o : BuildOptions) (c : ClientContext)
    (edge_buf edge_buf_size range_end : Nat) (visit : Nat → Visit) (start result : PackState) :
    Prop where
  test : ∀ n s, Loop.iter (PackState.cond o edge_buf_size range_end)
      (PackState.body o c edge_buf edge_buf_size visit) n start = s →
    s.cond o edge_buf_size range_end = true → visit s.v = .fetch →
    ((s.total_edges + c.degree s.v) % 2 ^ 32 ≤ edge_buf_size ↔
      s.total_edges + c.degree s.v ≤ edge_buf_size)
  total_le : ∀ n, (Loop.iter (PackState.cond o edge_buf_size range_end)
    (PackState.body o c edge_buf edge_buf_size visit) n start).total_edges ≤ edge_buf_size
  length : ∀ i < result.wrs, (result.window.sge_window i).length =
    4 * c.edgesIn (result.window.vertex_batch i).vertices

/-- Over the integers, the packer gets to `v`: it takes everything before. -/
def GetsTo (o : BuildOptions) (c : ClientContext) (edge_buf_size range_start : Nat)
    (visit : Nat → Visit) (v : Nat) : Prop :=
  ∀ u, range_start ≤ u → u < v → WindowOpen o c edge_buf_size range_start visit u ∧
    (visit u = .fetch → c.edgesIn (fetched c visit range_start u) + c.degree u ≤ edge_buf_size)

/-- Where the packer would get to over the integers, neither a sum of edges nor a range's number of
    bytes reaches `2 ^ 32`. -/
structure NoWrap (o : BuildOptions) (c : ClientContext) (edge_buf_size range_start range_end : Nat)
    (visit : Nat → Visit) : Prop where
  sum : ∀ v, range_start ≤ v → v < range_end → visit v = .fetch →
    WindowOpen o c edge_buf_size range_start visit v →
    c.edgesIn (fetched c visit range_start v) + c.degree v < 2 ^ 32
  bytes : ∀ v, range_start ≤ v → v ≤ range_end → GetsTo o c edge_buf_size range_start visit v →
    ∀ r ∈ runs o.vertex_coalescing (fetched c visit range_start v),
      4 * c.edgesIn r.vertices < 2 ^ 32

section Arithmetic

variable {o : BuildOptions} {c : ClientContext} {edge_buf edge_buf_size range_start range_end : Nat}
  {visit : Nat → Visit} {rs : List VertexRange} {s : PackState}

/-- Sums that do not wrap are tested exactly. -/
theorem NoWrap.exactTest (hsize : edge_buf_size < 2 ^ 32)
    (hsum : ∀ v, range_start ≤ v → v < range_end → visit v = .fetch →
      WindowOpen o c edge_buf_size range_start visit v →
      c.edgesIn (fetched c visit range_start v) + c.degree v < 2 ^ 32) :
    ExactTest o c edge_buf_size range_start range_end visit where
  size := hsize
  exact v hstart hv hfetch hopen hle := by
    rwa [Nat.mod_eq_of_lt (hsum v hstart hv hfetch hopen)] at hle

theorem Packed.getsTo (h : Packed o c edge_buf edge_buf_size range_start range_end visit rs s) :
    GetsTo o c edge_buf_size range_start visit s.v := by
  intro u hu hlt
  refine ⟨h.passed u hu hlt, ?_⟩
  intro hfetch
  have hpart := edgesIn_fetched_le (c := c) hu hlt hfetch
  rw [← h.total] at hpart
  exact Nat.le_trans hpart h.total_le

/-- A packer that has stopped has got as far as it can. -/
theorem Packed.le_of_getsTo (h : Packed o c edge_buf edge_buf_size range_start range_end visit rs s)
    (hdone : s.cond o edge_buf_size range_end = false) {v : Nat} (hv : v ≤ range_end)
    (hgets : GetsTo o c edge_buf_size range_start visit v) : v ≤ s.v := by
  by_contra hlt
  obtain ⟨hopen, hfits⟩ := hgets s.v h.start_le (Nat.lt_of_not_le hlt)
  have hfull : s.full = false := by
    by_contra hset
    obtain ⟨-, hfetch, hbig⟩ := h.full (Bool.eq_true_of_not_eq_false hset)
    rw [h.total] at hbig
    exact Nat.not_le_of_lt hbig (hfits hfetch)
  have hcond : s.cond o edge_buf_size range_end = true := by
    apply cond_iff.2
    rw [h.total, h.wrs, h.runs]
    exact ⟨hfull, hopen.1, hopen.2, by omega⟩
  exact nomatch hdone.symm.trans hcond

/-- Where the tests are exact no sum wraps: one that wraps passes the test, but is too large. -/
theorem ExactArithmetic.sum_lt {window : Window} {n_wr : Nat} {stats : Nat × Nat × Nat}
    (h : ExactArithmetic o c edge_buf edge_buf_size range_end visit
      (.new window 0 n_wr range_start stats)
      (pack o c edge_buf edge_buf_size range_end visit (.new window 0 n_wr range_start stats)))
    (hsize : edge_buf_size < 2 ^ 32) (hdegree : ∀ v < range_end, c.degree v ≤ edge_buf_size) :
    ∀ v, range_start ≤ v → v < range_end → visit v = .fetch →
      WindowOpen o c edge_buf_size range_start visit v →
      c.edgesIn (fetched c visit range_start v) + c.degree v < 2 ^ 32 := by
  intro v hstart hv hfetch hopen
  obtain ⟨rs, s, n, rest, hpacked, hsv, hcond, hrun, -⟩ :=
    pack_splits edge_buf window n_wr stats hsize hopen hstart hv
  have htest := h.test n s hrun hcond (hsv ▸ hfetch)
  rw [hpacked.total, hsv] at htest
  have hd := hdegree v hv
  have hroom := hopen.1
  by_contra hwraps
  omega

/-- Where the lengths are right no range has too many bytes: what it grows to is in the window
    returned. -/
theorem ExactArithmetic.bytes_lt {window : Window} {n_wr : Nat} {stats : Nat × Nat × Nat}
    (h : ExactArithmetic o c edge_buf edge_buf_size range_end visit
      (.new window 0 n_wr range_start stats)
      (pack o c edge_buf edge_buf_size range_end visit (.new window 0 n_wr range_start stats)))
    (hexact : ExactTest o c edge_buf_size range_start range_end visit)
    (hle : range_start ≤ range_end) :
    ∀ v, range_start ≤ v → v ≤ range_end → GetsTo o c edge_buf_size range_start visit v →
      ∀ r ∈ runs o.vertex_coalescing (fetched c visit range_start v),
        4 * c.edgesIn r.vertices < 2 ^ 32 := by
  intro v hstart hv hgets r hr
  obtain ⟨rs, hpacked⟩ : ∃ rs, Packed o c edge_buf edge_buf_size range_start range_end visit rs
      (pack o c edge_buf edge_buf_size range_end visit (.new window 0 n_wr range_start stats)) :=
    packed_pack window n_wr stats hexact hle
  have hdone := cond_pack o c edge_buf edge_buf_size range_end visit
    (.new window 0 n_wr range_start stats) rfl
  have hlength := h.length
  generalize pack o c edge_buf edge_buf_size range_end visit
    (.new window 0 n_wr range_start stats) = s at hpacked hdone hlength
  have hreach := hpacked.le_of_getsTo hdone hv hgets
  obtain ⟨r', hr', hrs, hre⟩ := exists_runs_append o.vertex_coalescing _ (fetched c visit v s.v) hr
  rw [← fetched_append hstart hreach, ← hpacked.runs] at hr'
  obtain ⟨i, hi, rfl⟩ := List.getElem_of_mem hr'
  have hentry := hlength i (hpacked.wrs ▸ hi)
  rw [hpacked.arrays.sge i hi, hpacked.arrays.batch i hi] at hentry
  have hgrows := VertexRange.edgesIn_le c hrs hre
  have hmod := Nat.mod_lt (4 * c.edgesIn rs[i].vertices) (Nat.two_pow_pos 32)
  simp only at hentry
  omega

/-- Without wrapping the arithmetic is exact. -/
theorem NoWrap.exactArithmetic (h : NoWrap o c edge_buf_size range_start range_end visit)
    (hsize : edge_buf_size < 2 ^ 32) (hle : range_start ≤ range_end) (window : Window) (n_wr : Nat)
    (stats : Nat × Nat × Nat) :
    ExactArithmetic o c edge_buf edge_buf_size range_end visit
      (.new window 0 n_wr range_start stats)
      (pack o c edge_buf edge_buf_size range_end visit (.new window 0 n_wr range_start stats)) := by
  have hexact : ExactTest o c edge_buf_size range_start range_end visit :=
    NoWrap.exactTest hsize h.sum
  have hrun : ∀ n, ∃ rs, Packed o c edge_buf edge_buf_size range_start range_end visit rs
      (Loop.iter (PackState.cond o edge_buf_size range_end)
        (PackState.body o c edge_buf edge_buf_size visit) n
        (.new window 0 n_wr range_start stats)) := by
    intro n
    apply Loop.iter_invariant fun s =>
      ∃ rs, Packed o c edge_buf edge_buf_size range_start range_end visit rs s
    · rintro s ⟨rs, hs⟩ hcond
      exact hs.body hexact hcond
    · exact ⟨[], packed_new window n_wr stats hle⟩
  refine ⟨?_, ?_, ?_⟩
  · rintro n s rfl hcond hfetch
    obtain ⟨rs, hs⟩ := hrun n
    obtain ⟨-, htotal, hwrs, hlt⟩ := cond_iff.1 hcond
    have hsum := h.sum _ hs.start_le hlt hfetch (hs.windowOpen htotal hwrs)
    rw [hs.total, Nat.mod_eq_of_lt hsum]
  · intro n
    obtain ⟨rs, hs⟩ := hrun n
    exact hs.total_le
  · obtain ⟨rs, hs⟩ : ∃ rs, Packed o c edge_buf edge_buf_size range_start range_end visit rs
        (pack o c edge_buf edge_buf_size range_end visit (.new window 0 n_wr range_start stats)) :=
      packed_pack window n_wr stats hexact hle
    intro i hi
    have hi' : i < rs.length := hs.wrs ▸ hi
    have hbytes := h.bytes _ hs.start_le hs.v_le hs.getsTo
    rw [← hs.runs] at hbytes
    rw [hs.arrays.sge i hi', hs.arrays.batch i hi']
    exact Nat.mod_eq_of_lt (hbytes _ (List.getElem_mem hi'))

/-- Without wrapping the arithmetic is exact, and otherwise it is not. -/
theorem exactArithmetic_iff (hsize : edge_buf_size < 2 ^ 32) (hle : range_start ≤ range_end)
    (hdegree : ∀ v < range_end, c.degree v ≤ edge_buf_size) (window : Window) (n_wr : Nat)
    (stats : Nat × Nat × Nat) :
    ExactArithmetic o c edge_buf edge_buf_size range_end visit
      (.new window 0 n_wr range_start stats)
        (pack o c edge_buf edge_buf_size range_end visit (.new window 0 n_wr range_start stats)) ↔
      NoWrap o c edge_buf_size range_start range_end visit := by
  constructor
  · intro h
    have hsum := h.sum_lt hsize hdegree
    exact ⟨hsum, h.bytes_lt (NoWrap.exactTest hsize hsum) hle⟩
  · intro h
    exact h.exactArithmetic hsize hle window n_wr stats

/-- What the packer gets to over the integers fits in the buffer. -/
theorem GetsTo.edgesIn_le {v : Nat} (h : GetsTo o c edge_buf_size range_start visit v)
    (hle : range_start ≤ v) : c.edgesIn (fetched c visit range_start v) ≤ edge_buf_size := by
  induction v, hle using Nat.le_induction with
  | base =>
      rw [fetched, Nat.sub_self, List.range'_zero, List.filter_nil, ClientContext.edgesIn_nil]
      exact Nat.zero_le _
  | succ v hle ih =>
      rw [fetched_snoc hle]
      split
      · rename_i hfetch
        rw [ClientContext.edgesIn_append, ClientContext.edgesIn_singleton]
        exact (h v hle (Nat.lt_succ_self v)).2 hfetch.1
      · rw [List.append_nil]
        exact ih fun u hu hlt => h u hu (Nat.lt_succ_of_lt hlt)

/-- Nothing wraps in a buffer of less than `2 ^ 32` bytes, if the largest degree leaves room for a
    sum. -/
theorem NoWrap.of_size_lt (hsize : 4 * edge_buf_size < 2 ^ 32)
    (hdegree : ∀ v < range_end, edge_buf_size + c.degree v < 2 ^ 32) :
    NoWrap o c edge_buf_size range_start range_end visit where
  sum := by
    intro v _ hv _ hopen
    have hroom := hopen.1
    have hlast := hdegree v hv
    omega
  bytes := by
    intro v hle _ hgets r hr
    have htotal := hgets.edgesIn_le hle
    have hpart : c.edgesIn r.vertices ≤ c.edgesIn (fetched c visit range_start v) := by
      have hvertices : (runs o.vertex_coalescing (fetched c visit range_start v)).flatMap
          VertexRange.vertices = fetched c visit range_start v := vertices_runs _
      rw [← hvertices]
      have hsub := List.sublist_flatten_of_mem (List.mem_map_of_mem (f := VertexRange.vertices) hr)
      exact (hsub.map c.degree).sum_le_sum fun _ _ => Nat.zero_le _
    omega

end Arithmetic

/-- For every buffer size of type `uint32_t`, every well-formed index whose lists fit in the buffer,
    every range, and whatever the arrays held before: each packer computes what it would over the
    integers exactly if nothing wraps. -/
theorem packing_arithmetic_exact_iff {threads : Nat} (o : BuildOptions) (c : ClientContext)
    (edge_buf edge_buf_size range_start range_end : Nat) (window : Window) (stats : Nat × Nat × Nat)
    (hindex : c.WellFormed) (hsize : edge_buf_size < 2 ^ 32)
    (hdegree : ∀ v < c.num_vertices, c.outDegree v ≤ edge_buf_size) (hle : range_start ≤ range_end)
    (hend : range_end ≤ c.num_vertices) :
    (∀ v < c.num_vertices, c.degree v = c.outDegree v) ∧
    (∀ frontier : Bitmap threads,
      ExactArithmetic o c edge_buf edge_buf_size range_end (frontierVisit frontier)
          (.new window 0 0 range_start stats)
          (packWindow o window edge_buf_size range_start range_end frontier c edge_buf stats) ↔
        NoWrap o c edge_buf_size range_start range_end (frontierVisit frontier)) ∧
    (∀ cache_map cacheManager, ∀ frontier : Bitmap threads,
      ExactArithmetic o c edge_buf edge_buf_size range_end
        (cacheVisit cache_map cacheManager frontier)
          (.new window 0 0 range_start stats)
          (cachePackWindow o cache_map cacheManager window edge_buf_size range_start range_end
            frontier c edge_buf stats) ↔
        NoWrap o c edge_buf_size range_start range_end
          (cacheVisit cache_map cacheManager frontier)) ∧
    (∀ n_wr,
      ExactArithmetic o c edge_buf edge_buf_size range_end (fun _ => .fetch)
          (.new window 0 n_wr range_start stats)
          (packWindow2 o window 0 edge_buf_size range_start range_end c edge_buf n_wr stats) ↔
        NoWrap o c edge_buf_size range_start range_end (fun _ => .fetch)) := by
  have heq : ∀ v < c.num_vertices, c.degree v = c.outDegree v := by
    intro v hv
    have hfits := hdegree v hv
    rw [hindex.degree_eq hv, Nat.mod_eq_of_lt (by omega)]
  have hsmall : ∀ v < range_end, c.degree v ≤ edge_buf_size := by
    intro v hv
    rw [heq v (by omega)]
    exact hdegree v (by omega)
  refine ⟨heq, ?_, ?_, ?_⟩
  · intro frontier
    exact exactArithmetic_iff hsize hle hsmall window 0 stats
  · intro cache_map cacheManager frontier
    exact exactArithmetic_iff hsize hle hsmall window 0 stats
  · intro n_wr
    exact exactArithmetic_iff hsize hle hsmall window n_wr stats

/-- The arithmetic on three small lists is exact. -/
theorem packing_arithmetic_three :
    ExactArithmetic ⟨40, true, by decide⟩ threeVertices 0 3 3 (fun _ => .fetch)
      (.new clearWorker.window 0 0 0 (0, 0, 0))
      (packWindow2 ⟨40, true, by decide⟩ clearWorker.window 0 3 0 3 threeVertices 0 0
        (0, 0, 0)) := by
  have hindex : threeVertices.WellFormed :=
    ⟨by decide, by decide, fun v _ => Nat.le_succ v, fun v hv => Nat.le_of_lt hv⟩
  apply ((@packing_arithmetic_exact_iff 1 ⟨40, true, by decide⟩ threeVertices 0 3 0 3
    clearWorker.window (0, 0, 0) hindex (by decide) (by decide) (by decide) (Nat.le_refl 3)).2.2.2
    0).2
  exact .of_size_lt (by decide) (by decide)

/-- One vertex with `2 ^ 30` edges, which is `2 ^ 32` bytes. -/
def hugeList : ClientContext where
  num_vertices := 1
  num_edges := 2 ^ 30
  edge_offset := fun _ => 0
  peer_addr := 4096
  peer_rkey := 7
  lkey := 9
  words := fun _ => 0

/-- Its READ is one of no bytes. -/
theorem huge_list_wraps :
    hugeList.WellFormed ∧ 2 ^ 30 < 2 ^ 32 ∧ (∀ v < 1, hugeList.outDegree v ≤ 2 ^ 30) ∧
      ¬ ExactArithmetic ⟨40, true, by decide⟩ hugeList 0 (2 ^ 30) 1
        (frontierVisit ((Bitmap.fresh 1 : Bitmap 1).setAll 0))
        (.new clearWorker.window 0 0 0 (0, 0, 0))
        (packWindow ⟨40, true, by decide⟩ clearWorker.window (2 ^ 30) 0 1
          ((Bitmap.fresh 1 : Bitmap 1).setAll 0) hugeList 0 (0, 0, 0)) := by
  refine ⟨⟨by decide, by decide, fun v _ => Nat.le_refl _, fun v _ => Nat.zero_le _⟩,
    by decide, by decide, ?_⟩
  intro h
  have hlength := h.length 0 (by decide)
  exact absurd hlength (by decide)

end FamGraph
