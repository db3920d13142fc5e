/-
Module: FamGraph.Proofs.Stats
Layer: Proofs
Purpose: What the numbers of `print_stats_summary` count. Each driver call counts its windows in the
  counters of its threads and empties them at its end, so nothing is lost or counted twice however
  the threads interleave: the WRs are the work requests handed to `ibv_post_send`, the sends are the
  windows, those without a request included. A kernel that clears the statistics after every call
  prints what the last call has counted, and has nothing left to print at the end of the session.
Trusted boundary: none
Main exports: Driver.isPacker, Driver.calls_eq, CountsWindows, Round.countsWindows, summaryOf,
  summary_counts_requests
-/
import FamGraph.Core.Stats
import FamGraph.Foundation.LocalCounters
import FamGraph.Proofs.BatchDrivers
import Mathlib.Data.BitVec

namespace FamGraph

/-! ### The windows of a driver -/

section Windows

variable {threads : Nat} {d : Driver threads} {o : BuildOptions} {c : ClientContext}
  {edge_buf edge_buf_size range_end : Nat} {enomem : Nat → List Nat}

theorem Driver.isPacker (d : Driver threads) :
    IsPacker o c edge_buf edge_buf_size range_end d.visit
      (d.pack o c edge_buf edge_buf_size range_end) d.posts := by
  cases d with
  | ccyForEachActiveBatch cache_map cacheManager frontier =>
      exact isPacker_cachePackWindow cache_map cacheManager
  | forEachActiveBatch frontier => exact isPacker_packWindow
  | forEachRange => exact isPacker_packWindow2

theorem Driver.calls_eq_driveRange (d : Driver threads) (fuel : Nat) (range : Nat × Nat)
    (w : Worker) :
    d.calls o c edge_buf_size enomem fuel range w =
      driveRange
        (windowTurn o c (w.worker_id * edge_buf_size)
          (d.pack o c (w.worker_id * edge_buf_size) edge_buf_size range.2) d.posts
          (d.retries enomem))
        fuel range w := by
  cases d <;> rfl

/-- The record is one of the driver itself. -/
theorem Driver.calls_eq (d : Driver threads) (fuel : Nat) (range : Nat × Nat) (w : Worker) :
    d.calls o c edge_buf_size enomem fuel range w =
      (d.run o c edge_buf_size enomem fuel range w).map fun st => st.1.calls := by
  rw [d.calls_eq_driveRange, driveRange, ← Loop.run_recorded
    (fun st => d.pack o c (w.worker_id * edge_buf_size) edge_buf_size range.2 st.window
      st.next_range_start st.stats)
    fuel (_, []), Option.map_map]
  rfl

/-- What a driver does in a turn is up to its packer. -/
theorem next_of_windowTurn {packer : Window → Nat → Nat × Nat × Nat → PackState}
    {posts : PackState → Bool} {st st' : DriverState}
    (h : windowTurn o c edge_buf packer posts enomem st = some st') :
    st'.next_range_start = (packer st.window st.next_range_start st.stats).v := by
  rw [windowTurn] at h
  dsimp only at h
  split at h
  · obtain ⟨calls, -, rfl⟩ := Option.map_eq_some_iff.1 h
    rfl
  · cases h
    rfl

/-- A window counts the work requests it hands over; there are at least one and at most
    `WR_WINDOW_SIZE` in a chain. -/
structure CountsPost (d : Driver threads) (o : BuildOptions) (s : PackState) : Prop where
  wrs : s.wrs = ((d.post o s).getD []).length
  bounds : ∀ chain, d.post o s = some chain → 0 < chain.length ∧ chain.length ≤ o.wr_window_size

theorem Packed.countsPost {start : Nat} {rs : List VertexRange} {s : PackState}
    (h : Packed o c edge_buf edge_buf_size start range_end d.visit rs s) : CountsPost d o s := by
  have hposts : d.posts s = true ↔ 0 < s.wrs := (d.isPacker.posts_iff h).trans h.wrs_pos_iff.symm
  by_cases hpos : 0 < s.wrs
  · have hchain : s.window.chain o.wr_window_size (some 0) = List.range' 0 (rs.length - 0) :=
      chain_eq h.arrays (h.wrs ▸ hpos) (Nat.zero_add _ ▸ h.wrs_le)
    have hpost : d.post o s = some ((List.range' 0 (rs.length - 0)).map s.window.wr_window) := by
      rw [Driver.post, if_pos (hposts.2 hpos), hchain]
    have hlength : ((List.range' 0 (rs.length - 0)).map s.window.wr_window).length = s.wrs := by
      rw [List.length_map, List.length_range', Nat.sub_zero, h.wrs]
    constructor
    · rw [hpost, Option.getD_some, hlength]
    · intro chain hsome
      rw [hpost] at hsome
      cases hsome
      rw [hlength]
      exact ⟨hpos, h.wrs ▸ h.wrs_le⟩
  · have hpost : d.post o s = none := by
      rw [Driver.post, if_neg fun hyes => hpos (hposts.1 hyes)]
    constructor
    · rw [hpost, Option.getD_none, List.length_nil]
      exact Nat.eq_zero_of_not_pos hpos
    · intro chain hsome
      cases hpost.symm.trans hsome

/-- Windows of a driver that fetch and serve so many vertices. -/
structure CountsWindows (d : Driver threads) (o : BuildOptions) (verts hits : Nat)
    (log : List PackState) :
    Prop where
  verts : (log.map PackState.batch_size).sum = verts
  hits : (log.map PackState.cache_hit).sum = hits
  posts : ∀ s ∈ log, CountsPost d o s

namespace CountsWindows

variable {verts hits verts' hits' : Nat} {log log' : List PackState}

theorem nil (d : Driver threads) (o : BuildOptions) : CountsWindows d o 0 0 [] where
  verts := rfl
  hits := rfl
  posts := fun _ hs => nomatch hs

/-- One window fetches and serves the vertices it has passed. -/
theorem single {start : Nat} {rs : List VertexRange} {s : PackState}
    (h : Packed o c edge_buf edge_buf_size start range_end d.visit rs s) :
    CountsWindows d o (fetched c d.visit start s.v).length (served d.visit start s.v).length
      [s] where
  verts := by rw [List.map_singleton, List.sum_singleton, h.batch]
  hits := by rw [List.map_singleton, List.sum_singleton, h.hits, h.calls]
  posts := by
    intro t ht
    rw [List.mem_singleton.1 ht]
    exact h.countsPost

theorem append (h : CountsWindows d o verts hits log) (h' : CountsWindows d o verts' hits' log') :
    CountsWindows d o (verts + verts') (hits + hits') (log ++ log') where
  verts := by rw [List.map_append, List.sum_append, h.verts, h'.verts]
  hits := by rw [List.map_append, List.sum_append, h.hits, h'.hits]
  posts := by
    intro s hs
    cases List.mem_append.1 hs with
    | inl hs => exact h.posts s hs
    | inr hs => exact h'.posts s hs

theorem perm (h : CountsWindows d o verts hits log) (hperm : log'.Perm log) :
    CountsWindows d o verts hits log' where
  verts := (hperm.map _).sum_eq.trans h.verts
  hits := (hperm.map _).sum_eq.trans h.hits
  posts := fun s hs => h.posts s (hperm.mem_iff.1 hs)

end CountsWindows

theorem served_append {visit : Nat → Visit} {lo mid hi : Nat} (hle : lo ≤ mid) (hle' : mid ≤ hi) :
    served visit lo hi = served visit lo mid ++ served visit mid hi := by
  rw [served, range'_append_of_le hle hle', List.filterMap_append]
  rfl

theorem Driver.packed (d : Driver threads) (hfits : Fits c edge_buf_size)
    (hend : range_end ≤ c.num_vertices) (window : Window) {start : Nat} (stats : Nat × Nat × Nat)
    (hle : start ≤ range_end) :
    ∃ rs, Packed o c edge_buf edge_buf_size start range_end d.visit rs
      (d.pack o c edge_buf edge_buf_size range_end window start stats) := by
  rw [d.isPacker.pack_eq]
  exact packed_pack window 0 stats (hfits.exactTest hend) hle

/-- The loop on a sub-range: the windows so far have fetched and served the vertices so far. -/
def Driver.Progress (d : Driver threads) (o : BuildOptions) (c : ClientContext) (range : Nat × Nat)
    (st : DriverState × List PackState) : Prop :=
  (range.1 ≤ st.1.next_range_start ∧ st.1.next_range_start ≤ range.2) ∧
    CountsWindows d o (fetched c d.visit range.1 st.1.next_range_start).length
      (served d.visit range.1 st.1.next_range_start).length st.2

theorem Driver.progress_start (d : Driver threads) {range : Nat × Nat} (hle : range.1 ≤ range.2)
    {st : DriverState × List PackState} (hstart : st.1.next_range_start = range.1)
    (hlog : st.2 = []) :
    d.Progress o c range st := by
  rw [Driver.Progress, hstart, hlog, fetched, served, Nat.sub_self]
  exact ⟨⟨Nat.le_refl _, hle⟩, CountsWindows.nil d o⟩

/-- One turn packs one window more. -/
theorem Driver.Progress.turn {range : Nat × Nat} {st st' : DriverState × List PackState}
    (h : d.Progress o c range st) (hfits : Fits c edge_buf_size) (hend : range.2 ≤ c.num_vertices)
    (hturn : Loop.recorded
      (fun st => d.pack o c edge_buf edge_buf_size range.2 st.window st.next_range_start st.stats)
      (windowTurn o c edge_buf (d.pack o c edge_buf edge_buf_size range.2) d.posts enomem) st =
      some st') :
    d.Progress o c range st' := by
  obtain ⟨⟨hstart, hstop⟩, hlog⟩ := h
  obtain ⟨next, hnext, rfl⟩ := Option.map_eq_some_iff.1 hturn
  obtain ⟨rs, hpacked⟩ := d.packed hfits hend st.1.window st.1.stats hstop
  have hv := next_of_windowTurn hnext
  rw [Driver.Progress]
  dsimp only
  rw [hv, fetched_append hstart hpacked.start_le, served_append hstart hpacked.start_le,
    List.length_append, List.length_append]
  exact ⟨⟨Nat.le_trans hstart hpacked.start_le, hpacked.v_le⟩,
    hlog.append (CountsWindows.single hpacked)⟩

/-- The windows of a sub-range fetch and serve its vertices, each once. -/
theorem Driver.countsWindows_run (hfits : Fits c edge_buf_size) {range : Nat × Nat}
    (hend : range.1 < range.2 → range.2 ≤ c.num_vertices) {w : Worker} {fuel : Nat}
    {st : DriverState × List PackState}
    (hrun : d.run o c edge_buf_size enomem fuel range w = some st) :
    CountsWindows d o (fetched c d.visit range.1 range.2).length
      (served d.visit range.1 range.2).length st.2 := by
  rcases Nat.lt_or_ge range.1 range.2 with hlt | hge
  · have hprogress := Loop.run_invariant (d.Progress o c range) (fun st st' hst _ hturn =>
      hst.turn hfits (hend hlt) hturn) (d.progress_start (Nat.le_of_lt hlt) rfl rfl) hrun
    obtain ⟨⟨⟨-, hle⟩, hlog⟩, hdone⟩ := hprogress
    have heq : st.1.next_range_start = range.2 :=
      Nat.le_antisymm hle (Nat.le_of_not_lt (of_decide_eq_false hdone))
    exact heq ▸ hlog
  · have hnone : range.2 - range.1 = 0 := Nat.sub_eq_zero_of_le hge
    rw [Driver.run, Loop.run_of_done (by exact decide_eq_false (Nat.not_lt.2 hge))] at hrun
    cases hrun
    rw [fetched, served, hnone]
    exact CountsWindows.nil d o

/-- A driver returns from a sub-range. -/
theorem Driver.run_total (d : Driver threads) (hfits : Fits c edge_buf_size) {range : Nat × Nat}
    (hend : range.1 < range.2 → range.2 ≤ c.num_vertices)
    (hdecodable : ∀ v, range.1 ≤ v → v < range.2 → d.visit v = .fetch → 0 < c.degree v →
      c.Decodable v)
    (w : Worker) {fuel : Nat} (hfuel : range.2 - range.1 ≤ fuel) :
    ∃ st, d.run o c edge_buf_size enomem fuel range w = some st := by
  have hreturns : ∃ calls, d.calls o c edge_buf_size enomem fuel range w = some calls ∧ _ :=
    d.calls_eq_driveRange fuel range w ▸ driveRange_calls w d.isPacker hfits hend hdecodable hfuel
  obtain ⟨calls, hcalls, -⟩ := hreturns
  rw [d.calls_eq] at hcalls
  obtain ⟨st, hst, -⟩ := Option.map_eq_some_iff.1 hcalls
  exact ⟨st, hst⟩

end Windows

/-! ### Calls of the drivers -/

section Rounds

variable {threads : Nat} {o : BuildOptions} {c : ClientContext} {edge_buf_size : Nat}
  {r : Round threads}

/-- The sub-ranges split the range, which is in the index, and no list that is fetched begins or
    ends with the sentinel. -/
structure Round.Valid (r : Round threads) (c : ClientContext) : Prop where
  hi_le : r.hi ≤ c.num_vertices
  splits : Splits r.parts r.lo r.hi
  decodable : ∀ v, r.lo ≤ v → v < r.hi → r.driver.visit v = .fetch → 0 < c.degree v → c.Decodable v

theorem Round.Valid.end_le (h : r.Valid c) {p : Nat × Nat} (hp : p ∈ r.parts) (hlt : p.1 < p.2) :
    p.2 ≤ c.num_vertices := Nat.le_trans (h.splits.le hp hlt) h.hi_le

/-- The sub-ranges fetch what the range fetches. -/
theorem Round.Valid.fetched_perm (h : r.Valid c) :
    (r.parts.flatMap fun p => fetched c r.driver.visit p.1 p.2).Perm
      (fetched c r.driver.visit r.lo r.hi) := by
  have hperm := h.splits.filter fun v => r.driver.visit v = .fetch ∧ 0 < c.degree v
  rwa [List.filter_flatMap] at hperm

/-- Sub-ranges one after the other: what each of them counts. -/
theorem countsWindows_flatten (hfits : Fits c edge_buf_size) {parts : List (Nat × Nat)}
    (hend : ∀ p ∈ parts, p.1 < p.2 → p.2 ≤ c.num_vertices) {fuel : Nat}
    {logs : List (List (Fin threads × PackState))}
    (hlogs : parts.mapM (fun p =>
      (r.driver.run o c edge_buf_size (r.enomem p) fuel p (r.worker p)).map fun st =>
        st.2.map fun s => (r.thread p, s)) = some logs) :
    CountsWindows r.driver o (parts.flatMap fun p => fetched c r.driver.visit p.1 p.2).length
      (parts.flatMap fun p => served r.driver.visit p.1 p.2).length
      (logs.flatten.map Prod.snd) := by
  induction parts generalizing logs with
  | nil =>
      cases hlogs
      exact CountsWindows.nil r.driver o
  | cons p parts ih =>
      rw [List.mapM_cons] at hlogs
      obtain ⟨log, hlog, hlogs⟩ := Option.bind_eq_some_iff.1 hlogs
      obtain ⟨rest, hrest, hlogs⟩ := Option.bind_eq_some_iff.1 hlogs
      cases hlogs
      obtain ⟨st, hst, rfl⟩ := Option.map_eq_some_iff.1 hlog
      have hhead := Driver.countsWindows_run hfits (hend p List.mem_cons_self) hst
      have htail := ih (fun q hq => hend q (List.mem_cons_of_mem p hq)) hrest
      rw [List.flatMap_cons, List.flatMap_cons, List.length_append, List.length_append,
        List.flatten_cons, List.map_append, List.map_map]
      have hwindows : st.2.map (Prod.snd ∘ fun s => (r.thread p, s)) = st.2 := List.map_id st.2
      rw [hwindows]
      exact hhead.append htail

/-- A call of a driver fetches and serves each vertex of its range once. -/
theorem Round.countsWindows (hfits : Fits c edge_buf_size) (h : r.Valid c) {fuel : Nat}
    {windows : List (Fin threads × PackState)}
    (hwindows : r.windows o c edge_buf_size fuel = some windows) :
    CountsWindows r.driver o (fetched c r.driver.visit r.lo r.hi).length
      (served r.driver.visit r.lo r.hi).length
      (windows.map Prod.snd) := by
  obtain ⟨logs, hlogs, rfl⟩ := Option.map_eq_some_iff.1 hwindows
  have hcounts := countsWindows_flatten hfits (fun p hp => h.end_le hp) hlogs
  have hserved : (r.parts.flatMap fun p => served r.driver.visit p.1 p.2).Perm
      (served r.driver.visit r.lo r.hi) := by
    have hperm := h.splits.filterMap fun v => (r.driver.visit v).call?
    rwa [List.filterMap_flatMap] at hperm
  rw [h.fetched_perm.length_eq, hserved.length_eq] at hcounts
  exact hcounts

theorem Round.windows_total (hfits : Fits c edge_buf_size) (h : r.Valid c) :
    ∃ fuel windows, r.windows o c edge_buf_size fuel = some windows := by
  have hreturns : ∀ parts : List (Nat × Nat), (∀ p ∈ parts, p ∈ r.parts) →
      ∃ logs, parts.mapM (fun p =>
        (r.driver.run o c edge_buf_size (r.enomem p) r.hi p (r.worker p)).map fun st =>
          st.2.map fun s => (r.thread p, s)) = some logs := by
    intro parts hparts
    induction parts with
    | nil => exact ⟨[], rfl⟩
    | cons p parts ih =>
        have hp := hparts p List.mem_cons_self
        obtain ⟨logs, hlogs⟩ := ih fun q hq => hparts q (List.mem_cons_of_mem p hq)
        have hfuel : p.2 - p.1 ≤ r.hi := by
          rcases Nat.lt_or_ge p.1 p.2 with hlt | hge
          · exact Nat.le_trans (Nat.sub_le _ _) (h.splits.le hp hlt)
          · rw [Nat.sub_eq_zero_of_le hge]
            exact Nat.zero_le _
        obtain ⟨st, hst⟩ := r.driver.run_total hfits (h.end_le hp) (fun v hv hv' =>
          h.decodable v (h.splits.mem hp hv hv').1 (h.splits.mem hp hv hv').2) (r.worker p) hfuel
        rw [List.mapM_cons, hst, hlogs]
        exact ⟨_, rfl⟩
  obtain ⟨logs, hlogs⟩ := hreturns r.parts fun p hp => hp
  exact ⟨r.hi, logs.flatten, congrArg (Option.map List.flatten) hlogs⟩

end Rounds

/-! ### The counters -/

namespace FgStats

variable {threads : Nat}

/-- The cache hits, as counters of the threads with a total. -/
def hits (stats : FgStats threads) : LocalCounters (Fin threads) Nat where
  own := stats.cache_hit
  total := stats.total_cache_hit

/-- The WRs, vertices and sends, as counters of the threads with a total. -/
def requests (stats : FgStats threads) :
    LocalCounters (Fin threads) (BitVec 32 × BitVec 32 × BitVec 32) where
  own := stats.wrs_verts_sends
  total := (stats.wrs, stats.verts, stats.sends)

/-- What a window adds to the second. -/
def increment (s : PackState) : BitVec 32 × BitVec 32 × BitVec 32 :=
  (BitVec.ofNat 32 s.wrs, BitVec.ofNat 32 s.batch_size, 1)

theorem foldl_count (stats : FgStats threads) (events : List (Fin threads × PackState)) :
    (events.foldl (fun stats e => stats.count e.1 e.2) stats).hits =
        (events.map fun e => (e.1, e.2.cache_hit)).foldl (fun s e => s.add e.1 e.2) stats.hits ∧
      (events.foldl (fun stats e => stats.count e.1 e.2) stats).requests =
        (events.map fun e => (e.1, increment e.2)).foldl (fun s e => s.add e.1 e.2)
          stats.requests := by
  induction events generalizing stats with
  | nil => exact ⟨rfl, rfl⟩
  | cons e events ih => exact ih (stats.count e.1 e.2)

/-- `clear_stats_round` moves the counters of all threads to the totals. -/
theorem clearStatsRound_eq (stats : FgStats threads) (order order' : List (Fin threads)) :
    (stats.clearStatsRound order order').hits = stats.hits.flush order ∧
      (stats.clearStatsRound order order').requests = stats.requests.flush order' := by
  induction order generalizing stats with
  | nil =>
      induction order' generalizing stats with
      | nil => exact ⟨rfl, rfl⟩
      | cons p order' ih =>
          exact ih
            { stats with
              wrs := stats.wrs + (stats.wrs_verts_sends p).1
              verts := stats.verts + (stats.wrs_verts_sends p).2.1
              sends := stats.sends + (stats.wrs_verts_sends p).2.2
              wrs_verts_sends := Function.update stats.wrs_verts_sends p (0, 0, 0) }
  | cons t order ih =>
      exact ih
        { stats with
          total_cache_hit := stats.total_cache_hit + stats.cache_hit t
          cache_hit := Function.update stats.cache_hit t 0 }

/-- No thread has counted since the counters were last moved. -/
structure Cleared (stats : FgStats threads) : Prop where
  cache_hit : ∀ t, stats.cache_hit t = 0
  wrs_verts_sends : ∀ t, stats.wrs_verts_sends t = (0, 0, 0)

theorem sum_increment (windows : List PackState) :
    (windows.map increment).sum =
      (BitVec.ofNat 32 (windows.map PackState.wrs).sum,
        BitVec.ofNat 32 (windows.map PackState.batch_size).sum,
        BitVec.ofNat 32 windows.length) := by
  induction windows with
  | nil => rfl
  | cons s windows ih =>
      rw [List.map_cons, List.sum_cons, ih, List.map_cons, List.sum_cons, List.map_cons,
        List.sum_cons, List.length_cons, BitVec.ofNat_add, BitVec.ofNat_add,
        Nat.add_comm windows.length, BitVec.ofNat_add]
      rfl

/-- A call of a driver empties the counters of the threads, and the totals grow by its windows. -/
theorem Cleared.round {stats : FgStats threads} (h : stats.Cleared)
    (events : List (Fin threads × PackState)) {order order' : List (Fin threads)}
    (horder : order.Perm (List.finRange threads)) (horder' : order'.Perm (List.finRange threads)) :
    let stats' := stats.afterRound events order order'
    stats'.Cleared ∧
      stats'.total_cache_hit = stats.total_cache_hit + (events.map fun e => e.2.cache_hit).sum ∧
      stats'.wrs = stats.wrs + BitVec.ofNat 32 (events.map fun e => e.2.wrs).sum ∧
      stats'.verts = stats.verts + BitVec.ofNat 32 (events.map fun e => e.2.batch_size).sum ∧
      stats'.sends = stats.sends + BitVec.ofNat 32 events.length := by
  intro stats'
  have hall : ∀ {order : List (Fin threads)}, order.Perm (List.finRange threads) → ∀ t, t ∈ order :=
    fun horder t => horder.mem_iff.2 (List.mem_finRange t)
  obtain ⟨hclearHits, hclearRequests⟩ :=
    clearStatsRound_eq (events.foldl (fun stats e => stats.count e.1 e.2) stats) order order'
  obtain ⟨hcountHits, hcountRequests⟩ := foldl_count stats events
  have hhits := LocalCounters.total_flush_foldl_add (s := stats.hits) h.cache_hit (hall horder)
    (events.map fun e => (e.1, e.2.cache_hit))
  have hrequests := LocalCounters.total_flush_foldl_add (s := stats.requests) h.wrs_verts_sends
    (hall horder') (events.map fun e => (e.1, increment e.2))
  rw [← hcountHits, ← hclearHits, List.map_map] at hhits
  have hincrements : (events.map fun e => (e.1, increment e.2)).map Prod.snd =
      (events.map Prod.snd).map increment := by
    rw [List.map_map, List.map_map]
    rfl
  rw [← hcountRequests, ← hclearRequests, hincrements, sum_increment, List.map_map, List.map_map,
    List.length_map] at hrequests
  obtain ⟨hwrs, hrest⟩ := Prod.mk.inj hrequests
  obtain ⟨hverts, hsends⟩ := Prod.mk.inj hrest
  refine ⟨⟨?_, ?_⟩, hhits, hwrs, hverts, hsends⟩
  · intro t
    have hzero := LocalCounters.own_flush
      (s := (events.foldl (fun stats e => stats.count e.1 e.2) stats).hits) (hall horder t)
    rwa [← hclearHits] at hzero
  · intro t
    have hzero := LocalCounters.own_flush
      (s := (events.foldl (fun stats e => stats.count e.1 e.2) stats).requests) (hall horder' t)
    rwa [← hclearRequests] at hzero

end FgStats

/-! ### The print of a session -/

section Session

variable {threads : Nat} {o : BuildOptions} {c : ClientContext} {edge_buf_size : Nat}
  {clears : Bool}

/-- Chains that are accepted after finitely many attempts keep no call from returning. -/
theorem counted_total (clears : Bool) (hfits : Fits c edge_buf_size) {rounds : List (Round threads)}
    (hrounds : ∀ r ∈ rounds, r.Valid c) :
    ∃ stats posted printed, Counted o c edge_buf_size clears rounds stats posted printed := by
  induction rounds using List.reverseRecOn with
  | nil => exact ⟨.new, [], [], .start⟩
  | append_singleton rounds r ih =>
      obtain ⟨stats, posted, printed, hbefore⟩ :=
        ih fun q hq => hrounds q (List.mem_append_left _ hq)
      obtain ⟨fuel, windows, hwindows⟩ :=
        Round.windows_total (o := o) hfits
          (hrounds r (List.mem_append_right _ (List.mem_singleton_self r)))
      exact ⟨_, _, _,
        .round r hbefore hwindows (List.Perm.refl _) (List.Perm.refl _) (List.Perm.refl _)⟩

/-- What windows have counted is what they have handed over. -/
theorem CountsWindows.sum_wrs {d : Driver threads} {verts hits : Nat} {log : List PackState}
    (h : CountsWindows d o verts hits log) :
    (log.map PackState.wrs).sum = (log.map fun s => ((d.post o s).getD []).length).sum :=
  congrArg List.sum (List.map_congr_left fun s hs => (h.posts s hs).wrs)

/-- The vertices that some calls fetch. -/
def vertsOf (c : ClientContext) (rounds : List (Round threads)) : Nat :=
  (rounds.map fun r => (fetched c r.driver.visit r.lo r.hi).length).sum

/-- The summary of some calls: the vertices they serve from the cache, the work requests their
    windows hand over, and the windows. -/
def summaryOf (rounds : List (Round threads)) (posts : List (Option (List SendWr))) :
    Nat × BitVec 32 × BitVec 32 :=
  ((rounds.map fun r => (served r.driver.visit r.lo r.hi).length).sum,
    BitVec.ofNat 32 (posts.map fun post => (post.getD []).length).sum, BitVec.ofNat 32 posts.length)

/-- The totals have counted these calls, and no thread has anything else. -/
structure Totals (c : ClientContext) (stats : FgStats threads) (rounds : List (Round threads))
    (posts : List (Option (List SendWr))) : Prop where
  cleared : stats.Cleared
  verts : stats.verts = BitVec.ofNat 32 (vertsOf c rounds)
  summary : stats.printStatsSummary = summaryOf rounds posts

theorem totals_new : Totals c (.new : FgStats threads) [] [] :=
  ⟨⟨fun _ => rfl, fun _ => rfl⟩, rfl, rfl⟩

theorem Totals.clearAll {stats : FgStats threads} {rounds : List (Round threads)}
    {posts : List (Option (List SendWr))} (h : Totals c stats rounds posts) :
    Totals c stats.clearAll [] [] :=
  ⟨⟨fun _ => rfl, h.cleared.wrs_verts_sends⟩, rfl, rfl⟩

/-- One call more. -/
theorem Totals.round {stats : FgStats threads} {rounds : List (Round threads)}
    {posts : List (Option (List SendWr))} (h : Totals c stats rounds posts)
    (hfits : Fits c edge_buf_size)
    {r : Round threads} (hr : r.Valid c) {fuel : Nat}
    {windows events : List (Fin threads × PackState)}
    {order order' : List (Fin threads)} (returns : r.windows o c edge_buf_size fuel = some windows)
    (counts : events.Perm windows) (flushes : order.Perm (List.finRange threads))
    (flushes' : order'.Perm (List.finRange threads)) :
    Totals c (stats.afterRound events order order') (rounds ++ [r])
        (posts ++ events.map fun e => r.driver.post o e.2) ∧
      ∀ chain, some chain ∈ events.map (fun e => r.driver.post o e.2) →
        0 < chain.length ∧ chain.length ≤ o.wr_window_size := by
  have hcounts := (Round.countsWindows hfits hr returns).perm (counts.map Prod.snd)
  obtain ⟨hcleared, hhits, hwrs, hverts, hsends⟩ := h.cleared.round events flushes flushes'
  -- the sums over the windows are sums over the events
  have hsum : ∀ f : PackState → Nat,
      ((events.map Prod.snd).map f).sum = (events.map fun e => f e.2).sum := by
    intro f
    rw [List.map_map]
    rfl
  have hbatches := hcounts.verts
  have hserved := hcounts.hits
  have hwindows := hcounts.sum_wrs
  rw [hsum] at hbatches hserved
  rw [hsum, hsum] at hwindows
  have hsummary := h.summary
  rw [FgStats.printStatsSummary, summaryOf, Prod.mk.injEq, Prod.mk.injEq] at hsummary
  refine ⟨⟨hcleared, ?_, ?_⟩, fun chain hchain => ?_⟩
  · rw [hverts, h.verts, hbatches, vertsOf, vertsOf, List.map_append, List.sum_append,
      List.map_singleton, List.sum_singleton, BitVec.ofNat_add]
  · rw [FgStats.printStatsSummary, hhits, hwrs, hsends, hsummary.1, hsummary.2.1, hsummary.2.2,
      hserved, hwindows, summaryOf, List.map_append, List.sum_append, List.map_singleton,
      List.sum_singleton, List.map_append, List.sum_append, List.length_append, List.length_map,
      BitVec.ofNat_add, BitVec.ofNat_add, List.map_map]
    rfl
  · obtain ⟨e, he, hpost⟩ := List.mem_map.1 hchain
    exact (hcounts.posts e.2 (List.mem_map_of_mem he)).bounds chain hpost

/-- What has been counted and printed. -/
structure Prints (o : BuildOptions) (c : ClientContext) (clears : Bool)
    (rounds : List (Round threads)) (stats : FgStats threads)
    (posted : List (List (Option (List SendWr)))) (printed : List (Nat × BitVec 32 × BitVec 32)) :
    Prop where
  length : posted.length = rounds.length
  totals : if clears then Totals c stats [] [] else Totals c stats rounds posted.flatten
  printed :
    printed = if clears then List.zipWith (fun r posts => summaryOf [r] posts) rounds posted else []
  chains : ∀ posts ∈ posted, ∀ chain, some chain ∈ posts →
    0 < chain.length ∧ chain.length ≤ o.wr_window_size

theorem Counted.prints {rounds : List (Round threads)} {stats : FgStats threads}
    {posted : List (List (Option (List SendWr)))} {printed : List (Nat × BitVec 32 × BitVec 32)}
    (h : Counted o c edge_buf_size clears rounds stats posted printed)
    (hfits : Fits c edge_buf_size) (hrounds : ∀ r ∈ rounds, r.Valid c) :
    Prints o c clears rounds stats posted printed := by
  induction h with
  | start =>
      refine ⟨rfl, ?_, ?_, fun posts hposts => absurd hposts List.not_mem_nil⟩
      · rw [List.flatten_nil, ite_self]
        exact totals_new
      · rw [List.zipWith_nil_left, ite_self]
  | @round rounds stats posted printed r fuel windows events order order' before returns counts
      flushes flushes' ih =>
      have hvalid : r.Valid c := hrounds r (List.mem_append_right _ (List.mem_singleton_self r))
      obtain ⟨hlength, htotals, hprinted, hchains⟩ :=
        ih fun q hq => hrounds q (List.mem_append_left _ hq)
      have hlength' : (posted ++ [events.map fun e => r.driver.post o e.2]).length =
          (rounds ++ [r]).length := by
        rw [List.length_append, List.length_append, hlength]
        rfl
      have hall : (∀ chain, some chain ∈ events.map (fun e => r.driver.post o e.2) →
            0 < chain.length ∧ chain.length ≤ o.wr_window_size) →
          ∀ posts ∈ posted ++ [events.map fun e => r.driver.post o e.2],
            ∀ chain, some chain ∈ posts →
              0 < chain.length ∧ chain.length ≤ o.wr_window_size := by
        intro hnew posts hposts
        rcases List.mem_append.1 hposts with hold | hlast
        · exact hchains posts hold
        · exact List.mem_singleton.1 hlast ▸ hnew
      cases clears with
      | false =>
          obtain ⟨hround, hnew⟩ := htotals.round hfits hvalid returns counts flushes flushes'
          refine ⟨hlength', ?_, ?_, hall hnew⟩
          · rw [List.flatten_append, List.flatten_singleton]
            exact hround
          · rw [hprinted]
            rfl
      | true =>
          obtain ⟨hround, hnew⟩ := htotals.round hfits hvalid returns counts flushes flushes'
          refine ⟨hlength', hround.clearAll, ?_, hall hnew⟩
          simp only [if_true] at hprinted ⊢
          rw [hprinted, hround.summary, List.zipWith_append hlength.symm]
          rfl

/-- The drivers may be called as often as one likes, on any ranges and frontiers, split in any way
    among the threads, which may count in any order. When the calls have returned, a kernel that
    does not clear the statistics has a summary that gives the vertices served from the cache, the
    work requests handed to `ibv_post_send`, each counted once even if ENOMEM made it be posted
    again, and the windows, those that posted nothing included; the vertices counted are those
    fetched. A kernel that clears them after each call, as `bfs_kernel` does, has printed these
    numbers for each call on its own, and the summary at the end of the session says nothing. The
    unsigned counters are exact up to multiples of 2^32. -/
theorem summary_counts_requests (o : BuildOptions) (c : ClientContext) (edge_buf_size : Nat)
    (hfits : Fits c edge_buf_size) (clears : Bool) (rounds : List (Round threads))
    (hrounds : ∀ r ∈ rounds, r.Valid c) :
    ∀ stats posted printed, Counted o c edge_buf_size clears rounds stats posted printed →
      stats.Cleared ∧
      (clears = false → stats.printStatsSummary = summaryOf rounds posted.flatten ∧
        stats.verts = BitVec.ofNat 32 (vertsOf c rounds) ∧ printed = []) ∧
      (clears = true → stats.printStatsSummary = (0, 0, 0) ∧
        printed = List.zipWith (fun r posts => summaryOf [r] posts) rounds posted) ∧
      ∀ posts ∈ posted, ∀ chain, some chain ∈ posts →
        0 < chain.length ∧ chain.length ≤ o.wr_window_size := by
  intro stats posted printed hcounted
  obtain ⟨-, htotals, hprinted, hchains⟩ := hcounted.prints hfits hrounds
  cases clears with
  | false =>
      refine ⟨htotals.cleared, fun _ => ⟨htotals.summary, htotals.verts, hprinted⟩, fun h => ?_,
        hchains⟩
      cases h
  | true =>
      refine ⟨htotals.cleared, fun h => ?_, fun _ => ⟨htotals.summary, hprinted⟩, hchains⟩
      cases h

end Session

/-- Three vertices with one edge each. -/
def threeEdges : ClientContext where
  num_vertices := 3
  num_edges := 3
  edge_offset := fun v => v
  peer_addr := 4096
  peer_rkey := 7
  lkey := 9
  words := fun i => i + 1

/-- A range for two threads. -/
def rangeRound (hi : Nat) (parts : List (Nat × Nat)) : Round 2 where
  driver := .forEachRange
  lo := 0
  hi := hi
  parts := parts
  thread := fun p => if p.1 = 0 then ⟨0, Nat.two_pos⟩ else ⟨1, Nat.one_lt_two⟩
  worker := fun _ => clearWorker
  enomem := fun _ _ => []

/-- All three vertices in two sub-ranges, and then the first alone, without and with clearing. -/
theorem summary_counts_requests_path :
    (∃ stats posted printed, Counted ⟨40, true, by decide⟩ threeEdges 1 false
      [rangeRound 3 [(1, 3), (0, 1)], rangeRound 1 [(0, 1)]] stats posted printed ∧
        stats.verts = 4#32) ∧
      ∃ stats posted printed, Counted ⟨40, true, by decide⟩ threeEdges 1 true
        [rangeRound 3 [(1, 3), (0, 1)], rangeRound 1 [(0, 1)]] stats posted printed ∧
          stats.printStatsSummary = (0, 0, 0) ∧
          printed = List.zipWith (fun r posts => summaryOf [r] posts)
            [rangeRound 3 [(1, 3), (0, 1)], rangeRound 1 [(0, 1)]] posted := by
  have hfits : Fits threeEdges 1 :=
    { index := ⟨by decide, by decide, fun v _ => Nat.le_succ v, fun v hv => Nat.le_of_lt hv⟩
      pos := by decide
      lt := by decide
      degree_le := by decide }
  have hwords : ∀ v < 3, threeEdges.Decodable v := by
    unfold ClientContext.Decodable
    decide
  have hvalid :
      ∀ r ∈ [rangeRound 3 [(1, 3), (0, 1)], rangeRound 1 [(0, 1)]], r.Valid threeEdges := by
    intro r hr
    rcases List.mem_pair.1 hr with rfl | rfl
    · exact ⟨by decide, (by decide : List.Perm [1, 2, 0] [0, 1, 2]), fun v _ hv _ _ => hwords v hv⟩
    · exact ⟨by decide, (by decide : List.Perm [0] [0]),
        fun v _ hv _ _ => hwords v (Nat.lt_trans hv (by decide))⟩
  constructor
  · obtain ⟨stats, posted, printed, hcounted⟩ :=
      counted_total (o := ⟨40, true, by decide⟩) false hfits hvalid
    have hprint := summary_counts_requests ⟨40, true, by decide⟩ threeEdges 1 hfits false _ hvalid
      stats posted printed hcounted
    exact ⟨stats, posted, printed, hcounted, (hprint.2.1 rfl).2.1.trans (by decide)⟩
  · obtain ⟨stats, posted, printed, hcounted⟩ :=
      counted_total (o := ⟨40, true, by decide⟩) true hfits hvalid
    have hprint := summary_counts_requests ⟨40, true, by decide⟩ threeEdges 1 hfits true _ hvalid
      stats posted printed hcounted
    exact ⟨stats, posted, printed, hcounted, hprint.2.2.1 rfl⟩

end FamGraph
