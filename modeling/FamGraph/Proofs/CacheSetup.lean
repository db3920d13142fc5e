/-
Module: FamGraph.Proofs.CacheSetup
Layer: Proofs
Purpose: Which cached vertices a client fetches all the same. A packer hands over what its visit
  serves and requests what its visit fetches, whatever the arrays hold; `cache_pack_window` serves
  from the manager only, so a cache that was loaded as a `CacheMap` is never used, and under any
  other file name the pointers are never set.
Trusted boundary: none
Main exports: endsWith_iff, Passed, Cache, Windows, ServesCached, NoRequestForCached,
  no_request_for_cached_iff
-/
import FamGraph.Core.CacheSetup
import FamGraph.Proofs.BatchDrivers
import FamGraph.Proofs.Bitmap

namespace FamGraph

/-! ### File names -/

theorem endsWith_iff (str suffix : List Char) : endsWith str suffix = true ↔ suffix <:+ str := by
  rw [endsWith, List.suffix_iff_eq_drop]
  split
  · rename_i hlong
    refine iff_of_false Bool.false_ne_true fun heq => ?_
    have hlength := congrArg List.length heq
    rw [List.length_drop] at hlength
    omega
  · rw [decide_eq_true_eq]
    exact eq_comm

/-- No name has both suffixes. -/
theorem not_bin_cache {str : List Char} (h : endsWith str ".cache".toList = true) :
    endsWith str ".bin_cache".toList = false := by
  rw [← Bool.not_eq_true, endsWith_iff]
  intro hbin
  have hsuffix : ".cache".toList <:+ ".bin_cache".toList :=
    List.suffix_of_suffix_length_le ((endsWith_iff _ _).1 h) hbin (by decide)
  exact absurd hsuffix (by decide)

/-! ### What a packer serves and requests -/

/-- A packer that has got from `range_start` to `s.v`, whatever the index and the buffer are. -/
structure Passed (visit : Nat → Visit) (range_start range_end : Nat) (s : PackState) : Prop where
  le : range_start ≤ s.v
  v_le : s.v ≤ max range_start range_end
  calls : s.calls = served visit range_start s.v
  last : 0 < s.batch_size → 0 < s.wrs
  requested : ∀ i < s.wrs, ∀ v ∈ (s.window.vertex_batch i).vertices, visit v = .fetch

section Passed

variable {o : BuildOptions} {c : ClientContext} {edge_buf edge_buf_size range_start range_end : Nat}
  {visit : Nat → Visit} {s : PackState}

theorem passed_new (window : Window) (n_wr : Nat) (stats : Nat × Nat × Nat) :
    Passed visit range_start range_end (.new window 0 n_wr range_start stats) where
  le := Nat.le_refl range_start
  v_le := Nat.le_max_left _ _
  calls := by
    rw [served]
    simp only [PackState.new, Nat.sub_self]
    rfl
  last := fun h => absurd h (Nat.lt_irrefl 0)
  requested := fun i hi => absurd hi (Nat.not_lt_zero i)

/-- The calls do not change where nothing is served. -/
theorem Passed.calls_next (h : Passed visit range_start range_end s)
    (hvisit : (visit s.v).call? = none) :
    s.calls = served visit range_start (s.v + 1) := by
  rw [served_snoc h.le, hvisit, h.calls]
  exact (List.append_nil _).symm

/-- Fetching `s.v` requests `s.v` and no other vertex. -/
theorem Passed.fetch (h : Passed visit range_start range_end s) (hlt : s.v < range_end)
    (hvisit : visit s.v = .fetch) :
    Passed visit range_start range_end (s.fetch o c edge_buf edge_buf_size) := by
  have hcalls := h.calls_next (by rw [hvisit]; rfl)
  have hle := Nat.le_succ_of_le h.le
  have hend : s.v + 1 ≤ max range_start range_end := Nat.le_trans hlt (Nat.le_max_right _ _)
  have hcase := fetch_cases o c edge_buf edge_buf_size s
  generalize s.fetch o c edge_buf edge_buf_size = t at hcase ⊢
  cases hcase with
  | full hroom => exact ⟨h.le, h.v_le, h.calls, h.last, h.requested⟩
  | isolated hroom hedges => exact ⟨hle, hend, hcalls, h.last, h.requested⟩
  | joins hroom hedges hjoin =>
      have hwrs : 0 < s.wrs := h.last hjoin.2.1
      refine ⟨hle, hend, hcalls, fun _ => hwrs, fun i hi v hv => ?_⟩
      by_cases hlast : i = s.wrs - 1
      · subst hlast
        have hrange := VertexRange.mem_vertices.1 hv
        simp only [Function.update_self] at hrange
        by_cases hnew : v = s.v
        · rw [hnew, hvisit]
        · have hnext := hjoin.2.2
          exact h.requested _ hi v (VertexRange.mem_vertices.2 (by omega))
      · simp only [Function.update_of_ne hlast] at hv
        exact h.requested i hi v hv
  | starts hroom hedges hjoin =>
      refine ⟨hle, hend, hcalls, fun _ => Nat.succ_pos _, fun i hi v hv => ?_⟩
      by_cases hlast : i = s.wrs
      · subst hlast
        simp only [prepWr, Function.update_self, VertexRange.vertices_single,
          List.mem_singleton] at hv
        rw [hv, hvisit]
      · simp only [prepWr, Function.update_of_ne hlast] at hv
        exact h.requested i (by simp only at hi; omega) v hv

/-- One turn of the loop. -/
theorem Passed.body (h : Passed visit range_start range_end s) (hlt : s.v < range_end) :
    Passed visit range_start range_end (s.body o c edge_buf edge_buf_size visit) := by
  have hle := Nat.le_succ_of_le h.le
  have hend : s.v + 1 ≤ max range_start range_end := Nat.le_trans hlt (Nat.le_max_right _ _)
  cases hvisit : visit s.v with
  | skip =>
      rw [PackState.body, hvisit]
      exact ⟨hle, hend, h.calls_next (by rw [hvisit]; rfl), h.last, h.requested⟩
  | serve call =>
      rw [PackState.body, hvisit]
      refine ⟨hle, hend, ?_, h.last, h.requested⟩
      simp only
      rw [served_snoc h.le, hvisit, h.calls]
      rfl
  | fetch =>
      rw [PackState.body, hvisit]
      exact h.fetch hlt hvisit

/-- What a packer returns. -/
theorem passed_pack (window : Window) (stats : Nat × Nat × Nat) :
    Passed visit range_start range_end
      (pack o c edge_buf edge_buf_size range_end visit (.new window 0 0 range_start stats)) :=
  pack_invariant (Passed visit range_start range_end)
    (fun _ h hcond => h.body (cond_iff.1 hcond).2.2.2)
    (fun _ h => ⟨h.le, h.v_le, h.calls, h.last, h.requested⟩) (passed_new window 0 stats)

theorem Passed.not_mem_batchVertices (h : Passed visit range_start range_end s) {v : Nat}
    (hv : visit v ≠ .fetch) :
    v ∉ batchVertices s.window s.wrs := by
  intro hmem
  obtain ⟨i, hi, hmem⟩ := List.mem_flatMap.1 hmem
  exact hv (h.requested i (List.mem_range.1 hi) v hmem)

end Passed

/-! ### The cache in use -/

/-- A vertex cache, of either kind. -/
inductive Cache where
  | map (m : CacheMap)
  | manager (m : CacheManager)

namespace Cache

/-- The pointers that select this cache: one to it, the other null. -/
def pointers : Cache → CachePointers
  | map m => { cacheMap := .to m, cacheManager := .null }
  | manager m => { cacheMap := .null, cacheManager := .to m }

/-- The first argument of `cache_pack_window`. -/
def cache_map : Cache → Option CacheMap
  | map m => some m
  | manager _ => none

/-- The second argument of `cache_pack_window`. -/
def cacheManager : Cache → Option CacheManager
  | map _ => none
  | manager m => some m

/-- What the cache has of a vertex. -/
def get : Cache → Nat → Option Call
  | map m, v => (m.get v).map fun e => { v := e.id, edges := e.neighbors, n := e.out_degree }
  | manager m, v =>
      if m.is_vertex_exist v then
        some { v := v, edges := m.get_neighbors v, n := m.get_out_degree v }
      else none

end Cache

/-- Windows packed one after the other, each from where the last one stopped; what a driver does to
    the arrays and the statistics in between is left open. -/
inductive Windows (packer : Window → Nat → Nat × Nat × Nat → PackState) :
    Nat → List PackState → Nat → Prop where
  | nil (v : Nat) : Windows packer v [] v
  | cons (window : Window) (stats : Nat × Nat × Nat) {v reached : Nat} {ss : List PackState}
      (rest : Windows packer (packer window v stats).v ss reached) :
      Windows packer v (packer window v stats :: ss) reached

/-- The active vertices a cache has are handed over from it, each once and in order, and none is in
    an interval of `vertex_batch`. -/
structure ServesCached {threads : Nat} (cache : Cache) (frontier : Bitmap threads)
    (range_start reached : Nat) (ss : List PackState) : Prop where
  handed :
    ss.flatMap (·.calls) = (List.range' range_start (reached - range_start)).filterMap fun v =>
    if frontier.Active v then cache.get v else none
  no_request : ∀ s ∈ ss, ∀ v < frontier.size, frontier.Active v → (cache.get v).isSome = true →
    v ∉ batchVertices s.window s.wrs

/-- One of the pointers is set and the other null, and with these every range of every frontier is
    packed without a request for a cached vertex. -/
def NoRequestForCached (o : BuildOptions) (c : ClientContext) (p : CachePointers) : Prop :=
  ∃ cache : Cache, p = cache.pointers ∧
    ∀ (threads : Nat) (frontier : Bitmap threads)
      (edge_buf_size range_start range_end edge_buf : Nat)
      (ss : List PackState) (reached : Nat), frontier.size = c.num_vertices →
      range_end ≤ c.num_vertices →
      Windows (fun window v stats =>
        cachePackWindow o cache.cache_map cache.cacheManager window edge_buf_size v range_end
          frontier c edge_buf stats) range_start ss reached →
      ServesCached cache frontier range_start reached ss

section Windows

variable {o : BuildOptions} {c : ClientContext} {threads : Nat} {frontier : Bitmap threads}
  {cache : Cache} {edge_buf edge_buf_size range_start range_end reached : Nat} {ss : List PackState}

/-- `cache_pack_window` serves a vertex if the cache has it. -/
def Cache.Used (cache : Cache) (v : Nat) : Prop :=
  lookup cache.cache_map cache.cacheManager v =
    match cache.get v with
    | none => .fetch
    | some call => .serve call

theorem cacheVisit_of_active {cache_map : Option CacheMap} {cacheManager : Option CacheManager}
    {v : Nat} (h : frontier.Active v) :
    cacheVisit cache_map cacheManager frontier v = lookup cache_map cacheManager v :=
  if_pos h

theorem cacheVisit_of_not_active {cache_map : Option CacheMap} {cacheManager : Option CacheManager}
    {v : Nat} (h : ¬ frontier.Active v) : cacheVisit cache_map cacheManager frontier v = .skip :=
  if_neg h

theorem Cache.Used.call? {v : Nat} (h : cache.Used v) :
    (cacheVisit cache.cache_map cache.cacheManager frontier v).call? =
      if frontier.Active v then cache.get v else none := by
  by_cases hactive : frontier.Active v
  · rw [cacheVisit_of_active hactive, h, if_pos hactive]
    cases cache.get v <;> rfl
  · rw [cacheVisit_of_not_active hactive, if_neg hactive]
    rfl

theorem Cache.Used.ne_fetch {v : Nat} (h : cache.Used v) (hactive : frontier.Active v)
    (hcached : (cache.get v).isSome = true) :
    cacheVisit cache.cache_map cache.cacheManager frontier v ≠ .fetch := by
  obtain ⟨call, hcall⟩ := Option.isSome_iff_exists.1 hcached
  rw [cacheVisit_of_active hactive, h, hcall]
  nofun

theorem Windows.le (h : Windows
    (fun window v stats =>
      cachePackWindow o cache.cache_map cache.cacheManager window edge_buf_size v range_end frontier
        c edge_buf stats) range_start ss reached) :
    range_start ≤ reached ∧ reached ≤ max range_start range_end := by
  induction h with
  | nil v => exact ⟨Nat.le_refl v, Nat.le_max_left _ _⟩
  | cons window stats rest ih =>
      rename_i v u ss
      have hpassed :
          Passed _ v range_end (cachePackWindow o cache.cache_map cache.cacheManager window
        edge_buf_size v range_end frontier c edge_buf stats) := passed_pack window stats
      have hle := hpassed.le
      have hv_le := hpassed.v_le
      omega

/-- The windows of a cache that is used for every vertex. -/
theorem Windows.servesCached (hused : ∀ v < frontier.size, cache.Used v)
    (hend : range_end ≤ frontier.size)
    (h : Windows (fun window v stats =>
      cachePackWindow o cache.cache_map cache.cacheManager window edge_buf_size v range_end frontier
        c edge_buf stats) range_start ss reached) :
    ServesCached cache frontier range_start reached ss := by
  induction h with
  | nil v =>
      refine ⟨?_, fun s hs => absurd hs List.not_mem_nil⟩
      rw [Nat.sub_self]
      rfl
  | cons window stats rest ih =>
      rename_i v u ss
      have hpassed : Passed (cacheVisit cache.cache_map cache.cacheManager frontier) v range_end
        (cachePackWindow o cache.cache_map cache.cacheManager window edge_buf_size v range_end
          frontier c edge_buf stats) := passed_pack window stats
      refine ⟨?_, fun s hs u hu hactive hcached => ?_⟩
      · rw [List.flatMap_cons, ih.handed, hpassed.calls, served,
          range'_append_of_le hpassed.le rest.le.1, List.filterMap_append]
        congr 1
        refine List.filterMap_congr fun u hu => ?_
        have hrange := List.mem_range'_1.1 hu
        have hv_le := hpassed.v_le
        exact (hused u (by omega)).call?
      · rcases List.mem_cons.1 hs with rfl | hs
        · exact hpassed.not_mem_batchVertices ((hused u hu).ne_fetch hactive hcached)
        · exact ih.no_request s hs u hu hactive hcached

end Windows

/-- A manager is used for every vertex. -/
theorem Cache.used_manager (m : CacheManager) (v : Nat) : (Cache.manager m).Used v := by
  by_cases hexist : m.is_vertex_exist v = true
  · rw [Cache.Used, Cache.get, if_pos hexist]
    exact if_pos hexist
  · rw [Cache.Used, Cache.get, if_neg hexist]
    exact if_neg hexist

/-- A map is used for no vertex. -/
theorem Cache.lookup_map (m : CacheMap) (v : Nat) :
    lookup (Cache.map m).cache_map (Cache.map m).cacheManager v = .fetch := rfl

/-- A map with a vertex of the graph in it: the vertex is fetched. -/
theorem not_noRequest_map (o : BuildOptions) (c : ClientContext) {m : CacheMap} {v : Nat}
    {e : CacheElem} (hv : v < c.num_vertices) (he : m.get v = some e) :
    ¬ NoRequestForCached o c (Cache.map m).pointers := by
  rintro ⟨cache, hpointers, hserves⟩
  obtain rfl : Cache.map m = cache := by
    cases cache with
    | map m' => cases hpointers; rfl
    | manager m' => cases hpointers
  -- One window for `v` alone, in a buffer that its list fits in.
  obtain ⟨frontier, hfrontier⟩ :
      ∃ frontier : Bitmap 1, frontier = (Bitmap.fresh c.num_vertices).setAll 0 :=
    ⟨_, rfl⟩
  have hsize : frontier.size = c.num_vertices := by rw [hfrontier]; rfl
  have hactive : frontier.Active v := by
    rw [hfrontier]
    exact Bitmap.active_setAll 0 hv
  have hvisit : cacheVisit (some m) none frontier v = .fetch := by
    rw [cacheVisit_of_active hactive]
    exact Cache.lookup_map m v
  obtain ⟨window, hwindow⟩ :
      ∃ window : Window, window =
        ⟨fun _ => ⟨false, 0, 0, 0, 0, none⟩, fun _ => ⟨0, 0⟩, fun _ => ⟨0, 0, 0⟩⟩ := ⟨_, rfl⟩
  obtain ⟨s, hs⟩ :
      ∃ s, s = cachePackWindow o (some m) none window (max 1 (c.degree v)) v (v + 1) frontier c 0
        (0, 0, 0) := ⟨_, rfl⟩
  have hnext : v < s.v := by
    rw [hs]
    refine lt_pack window 0 (0, 0, 0) (by omega) (Nat.lt_succ_self v) fun _ => ?_
    exact Nat.le_trans (Nat.mod_le _ _) (Nat.le_max_right _ _)
  have hpassed : Passed (cacheVisit (some m) none frontier) v (v + 1) s := by
    rw [hs]
    exact passed_pack window (0, 0, 0)
  have hreached : s.v = v + 1 := by
    have hv_le := hpassed.v_le
    omega
  have hwindows :
      Windows (fun window u stats =>
        cachePackWindow o (some m) none window (max 1 (c.degree v)) u (v + 1) frontier c 0 stats) v
          [s] s.v := by
    rw [hs]
    exact .cons window (0, 0, 0) (.nil _)
  have hhanded := (hserves 1 frontier _ v (v + 1) 0 _ _ hsize hv hwindows).handed
  have hcalls : s.calls = [] := by
    rw [hpassed.calls, hreached, served, Nat.add_sub_cancel_left]
    simp only [List.range'_one, List.filterMap_cons, hvisit, Visit.call?, List.filterMap_nil]
  rw [List.flatMap_singleton, hcalls, hreached, Nat.add_sub_cancel_left] at hhanded
  simp only [List.range'_one, List.filterMap_cons, if_pos hactive, Cache.get, he,
    Option.map_some] at hhanded
  cases hhanded

/-! ### Which files work -/

section Setup

variable {Ratio : Type} [Zero Ratio] [DecidableEq Ratio] {readers : CacheReaders Ratio}
  {vm : ClientOptions Ratio} {num_vertices : Nat} {p : CachePointers} {kernel : Kernel}
  {path : String}

theorem cacheSetup_of_startKernel (hstart : startKernel readers vm num_vertices = .ok (p, kernel)) :
    cacheSetup readers vm num_vertices .constructed = .ok p := by
  rw [startKernel] at hstart
  split at hstart
  · cases hstart
  · cases hsetup : cacheSetup readers vm num_vertices .constructed with
    | error e =>
        rw [hsetup] at hstart
        cases hstart
    | ok q =>
        rw [hsetup] at hstart
        cases hkernel : kernelOf vm.kernel with
        | error e =>
            rw [hkernel] at hstart
            cases hstart
        | ok k =>
            rw [hkernel] at hstart
            cases hstart
            rfl

/-- The three ways to set the pointers up with a cache ratio other than 0. -/
theorem cacheSetup_cases (hratio : vm.cache_ratio ≠ 0) (hpath : vm.cache_file_path = some path)
    {ctx : CachePointers} (hsetup : cacheSetup readers vm num_vertices ctx = .ok p) :
    (endsWith path.toList ".bin_cache".toList = true ∧
      ∃ m, readers.read_bin_cache path.toList vm.cache_ratio num_vertices = .ok m ∧
        p = (Cache.map m).pointers) ∨
    (endsWith path.toList ".cache".toList = true ∧ ∃ m, p = (Cache.manager m).pointers) ∨
    (endsWith path.toList ".bin_cache".toList = false ∧
      endsWith path.toList ".cache".toList = false ∧ p = ctx) := by
  rw [cacheSetup, if_pos hratio, hpath] at hsetup
  simp only at hsetup
  split at hsetup
  · rename_i hbin
    cases hread : readers.read_bin_cache path.toList vm.cache_ratio num_vertices with
    | error e =>
        rw [hread] at hsetup
        cases hsetup
    | ok m =>
        rw [hread] at hsetup
        cases hsetup
        exact Or.inl ⟨hbin, m, rfl, rfl⟩
  · rename_i hbin
    split at hsetup
    · rename_i hcache
      cases hload : readers.load path.toList num_vertices vm.cache_ratio with
      | error e =>
          rw [hload] at hsetup
          cases hsetup
      | ok m =>
          rw [hload] at hsetup
          cases hsetup
          exact Or.inr (Or.inl ⟨hcache, m, rfl⟩)
    · rename_i hcache
      cases hsetup
      exact Or.inr (Or.inr ⟨by simpa using hbin, by simpa using hcache, rfl⟩)

/-- A manager keeps what is promised. -/
theorem noRequest_manager (o : BuildOptions) (c : ClientContext) (m : CacheManager) :
    NoRequestForCached o c (Cache.manager m).pointers := by
  refine ⟨.manager m, rfl, ?_⟩
  intro threads frontier edge_buf_size range_start range_end edge_buf ss reached hsize hend hwindows
  exact hwindows.servesCached (fun v _ => Cache.used_manager m v) (hsize ▸ hend)

/-- A map keeps it as long as it is empty. -/
theorem noRequest_map_iff (o : BuildOptions) (c : ClientContext) (m : CacheMap) :
    NoRequestForCached o c (Cache.map m).pointers ↔ ∀ v < c.num_vertices, m.get v = none := by
  constructor
  · intro h v hv
    by_contra hne
    obtain ⟨e, he⟩ := Option.ne_none_iff_exists'.1 hne
    exact not_noRequest_map o c hv he h
  · intro hempty
    refine ⟨.map m, rfl, ?_⟩
    intro threads frontier edge_buf_size range_start range_end edge_buf ss reached hsize hend
      hwindows
    refine hwindows.servesCached (fun v hv => ?_) (hsize ▸ hend)
    rw [Cache.Used, Cache.get, hempty v (hsize ▸ hv)]
    rfl

/-- Pointers that were never set keep nothing. -/
theorem not_noRequest_constructed (o : BuildOptions) (c : ClientContext) :
    ¬ NoRequestForCached o c .constructed := by
  rintro ⟨cache, hpointers, -⟩
  cases cache with
  | map m => cases hpointers
  | manager m => cases hpointers

end Setup

/-- A client with a cache does without requests for the vertices in it if and only if the cache is a
    manager's, or a map that has no vertex of the graph. -/
theorem no_request_for_cached_iff {Ratio : Type} [Zero Ratio] [DecidableEq Ratio] (o : BuildOptions)
    (c : ClientContext) (readers : CacheReaders Ratio) (vm : ClientOptions Ratio) (path : String)
    (p : CachePointers) (kernel : Kernel) (hratio : vm.cache_ratio ≠ 0)
    (hpath : vm.cache_file_path = some path)
    (hstart : startKernel readers vm c.num_vertices = .ok (p, kernel)) :
    NoRequestForCached o c p ↔
      endsWith path.toList ".cache".toList = true ∨
        endsWith path.toList ".bin_cache".toList = true ∧
          ∃ m, readers.read_bin_cache path.toList vm.cache_ratio c.num_vertices = .ok m ∧
            ∀ v < c.num_vertices, m.get v = none := by
  rcases cacheSetup_cases hratio hpath (cacheSetup_of_startKernel hstart) with
    ⟨hbin, m, hread, rfl⟩ | ⟨hcache, m, rfl⟩ | ⟨hbin, hcache, rfl⟩
  · rw [noRequest_map_iff]
    constructor
    · intro hempty
      exact Or.inr ⟨hbin, m, hread, hempty⟩
    · rintro (hcache | ⟨-, m', hread', hempty⟩)
      · rw [not_bin_cache hcache] at hbin
        cases hbin
      · obtain rfl := Except.ok.inj (hread.symm.trans hread')
        exact hempty
  · exact iff_of_true (noRequest_manager o c m) (Or.inl hcache)
  · refine iff_of_false (not_noRequest_constructed o c) ?_
    rw [hbin, hcache]
    simp

/-- One vertex with an edge to itself. -/
def selfLoop : ClientContext where
  num_vertices := 1
  num_edges := 1
  edge_offset := fun _ => 0
  peer_addr := 4096
  peer_rkey := 7
  lkey := 5
  words := fun _ => 0

/-- Whatever the file, the cache holds vertex 0 of `selfLoop`. -/
def selfLoopReaders : CacheReaders ℚ where
  read_bin_cache _ _ _ :=
    .ok
      { get := fun v =>
          if v = 0 then some { id := 0, neighbors := [0], out_degree := 1 } else none }
  load _ _ _ :=
    .ok
      { is_vertex_exist := fun v => v = 0
        get_neighbors := fun _ => [0]
        get_out_degree := fun _ => 1 }

def selfLoopOptions (path : String) : ClientOptions ℚ where
  kernel := "bfs"
  cache_ratio := 1
  cache_file_path := some path
  double_buffer := false

theorem no_request_for_cached_manager : ∃ p,
    startKernel selfLoopReaders (selfLoopOptions "graph.cache") 1 = .ok (p, .bfs) ∧
      NoRequestForCached ⟨1, true, by decide⟩ selfLoop p := by
  refine ⟨_, rfl, ?_⟩
  refine (no_request_for_cached_iff ⟨1, true, by decide⟩ selfLoop selfLoopReaders
    (selfLoopOptions "graph.cache") "graph.cache" _ .bfs (by decide) rfl rfl).2 (Or.inl ?_)
  decide

/-- A `.bin_cache` that holds the vertex does not keep it from being requested. -/
theorem bin_cache_requests_cached : ∃ p,
    startKernel selfLoopReaders (selfLoopOptions "graph.bin_cache") 1 = .ok (p, .bfs) ∧
      ¬ NoRequestForCached ⟨1, true, by decide⟩ selfLoop p := by
  refine ⟨_, rfl, ?_⟩
  exact not_noRequest_map ⟨1, true, by decide⟩ selfLoop (v := 0) (by decide) rfl

end FamGraph
