/-
Module: FamGraph.Proofs.SendQueue
Layer: Proofs
Purpose: What a worker's send queue can take. Only the first request of a chain is signaled, so a
  chain of `n` leaves `n - 1` requests behind until the next one executes: posting again from the
  head ends, and posting once succeeds, exactly under the relations between a chain and what it
  finds that are proved here.
Trusted boundary: none
Main exports: retry_loop_ends_iff, drivers_fit_queue_iff
-/
import FamGraph.Core.SendQueue
import FamGraph.Proofs.WindowGeometry

namespace FamGraph

/-! ### Chains built by `prep_wr` -/

section Chains

variable {c : ClientContext} {o : BuildOptions} {w : Window} {n : Nat}

/-- The request itself, the one before it, and the others. -/
theorem prepWr_wr_window (w : Window) (idx buffer length remote_offset i : Nat) :
    (prepWr w idx c buffer length remote_offset).wr_window i =
      if i = idx then
        { signaled := idx = 0
          remote_addr := c.peer_addr + remote_offset
          rkey := c.peer_rkey
          sg_list := idx
          num_sge := 1
          next := none }
      else if i + 1 = idx then { w.wr_window i with next := some idx } else w.wr_window i := by
  rcases Nat.eq_zero_or_pos idx with rfl | hpos
  · simp only [prepWr, Nat.lt_irrefl, if_false, Function.update_apply]
    rw [if_neg (Nat.succ_ne_zero i)]
  · simp only [prepWr, hpos, if_true]
    rcases eq_or_ne i (idx - 1) with rfl | hprev
    · rw [Function.update_self, Function.update_of_ne (by omega), if_neg (by omega),
        if_pos (Nat.sub_add_cancel hpos)]
    · rw [Function.update_of_ne hprev, Function.update_apply]
      split
      · rfl
      · rw [if_neg (by omega)]

theorem prepWr_signaled (w : Window) (idx buffer length remote_offset i : Nat) :
    ((prepWr w idx c buffer length remote_offset).wr_window i).signaled =
      if i = idx then decide (idx = 0) else (w.wr_window i).signaled := by
  rw [prepWr_wr_window]
  split
  · rfl
  · split <;> rfl

theorem prepWr_next (w : Window) (idx buffer length remote_offset i : Nat) :
    ((prepWr w idx c buffer length remote_offset).wr_window i).next =
      if i = idx then none else if i + 1 = idx then some idx else (w.wr_window i).next := by
  rw [prepWr_wr_window]
  split
  · rfl
  · split <;> rfl

/-- Only the first request is signaled. -/
theorem Prepared.signaled (h : Prepared c w n) {i : Nat} (hi : i < n) :
    (w.wr_window i).signaled = decide (i = 0) := by
  induction h generalizing i with
  | start w => exact absurd hi (Nat.not_lt_zero i)
  | others hwr h ih =>
      rw [hwr]
      exact ih hi
  | @next w n buffer length remote_offset h ih =>
      rw [prepWr_signaled]
      split
      · rename_i hlast
        rw [hlast]
      · exact ih (by omega)

/-- Each request is chained to the one prepared after it. -/
theorem Prepared.next_eq (h : Prepared c w n) {i : Nat} (hi : i < n) :
    (w.wr_window i).next = if i + 1 < n then some (i + 1) else none := by
  induction h generalizing i with
  | start w => exact absurd hi (Nat.not_lt_zero i)
  | others hwr h ih =>
      rw [hwr]
      exact ih hi
  | @next w n buffer length remote_offset h ih =>
      rw [prepWr_next]
      split
      · rw [if_neg (by omega)]
      · split
        · rename_i hlast
          rw [if_pos (by omega), hlast]
        · rw [ih (by omega), if_pos (by omega), if_pos (by omega)]

theorem Prepared.sendWrs_eq (h : Prepared c w n) (hpos : 0 < n) (hle : n ≤ o.wr_window_size) :
    w.sendWrs o = (List.range n).map w.wr_window := by
  rw [Window.sendWrs, chain_of_next (fun i hi => h.next_eq hi) hpos (by omega), Nat.sub_zero,
    List.range_eq_range']

theorem Prepared.length_sendWrs (h : Prepared c w n) (hpos : 0 < n) (hle : n ≤ o.wr_window_size) :
    (w.sendWrs o).length = n := by
  rw [h.sendWrs_eq hpos hle, List.length_map, List.length_range]

theorem Prepared.headSignaled (h : Prepared c w n) (hpos : 0 < n) (hle : n ≤ o.wr_window_size) :
    SendQueue.HeadSignaled SendWr.signaled (w.sendWrs o) := by
  obtain ⟨m, rfl⟩ : ∃ m, n = m + 1 := ⟨n - 1, by omega⟩
  rw [h.sendWrs_eq hpos hle, List.range_succ_eq_map, List.map_cons]
  constructor
  · exact List.cons_ne_nil _ _
  · rintro wr ⟨⟩
    exact h.signaled hpos
  · intro wr hwr
    rw [List.tail_cons, List.map_map, List.mem_map] at hwr
    obtain ⟨i, hi, rfl⟩ := hwr
    have hlt := List.mem_range.1 hi
    exact h.signaled (Nat.succ_lt_succ hlt)

end Chains

/-! ### Windows of the packers -/

/-- A window the driver may post: its requests were prepared in order, there is room in the array
    for them, and there are some if any vertex was packed. -/
structure Sendable (o : BuildOptions) (c : ClientContext) (s : PackState) : Prop where
  prepared : Prepared c s.window s.wrs
  wrs_le : s.wrs ≤ o.wr_window_size
  wrs_pos : 0 < s.batch_size → 0 < s.wrs

section Packers

variable {o : BuildOptions} {c : ClientContext} {edge_buf edge_buf_size range_end : Nat}
  {visit : Nat → Visit} {s : PackState}

theorem Sendable.fetch (h : Sendable o c s) (hroom : s.wrs < o.wr_window_size) :
    Sendable o c (s.fetch o c edge_buf edge_buf_size) := by
  have hfetch := fetch_cases o c edge_buf edge_buf_size s
  generalize s.fetch o c edge_buf edge_buf_size = t at hfetch ⊢
  cases hfetch with
  | full hroom => exact ⟨h.prepared, h.wrs_le, h.wrs_pos⟩
  | isolated hroom hedges => exact ⟨h.prepared, h.wrs_le, h.wrs_pos⟩
  | joins hroom hedges hjoin =>
      exact ⟨.others (w := s.window) rfl h.prepared, h.wrs_le, fun _ => h.wrs_pos hjoin.2.1⟩
  | starts hfit hedges hjoin =>
      exact ⟨.next _ _ _ (.others (w := s.window) rfl h.prepared), hroom, fun _ => Nat.succ_pos _⟩

/-- Whatever the sums of edges do, every packer returns a window that can be posted. -/
theorem sendable_pack (window : Window) (n_wr range_start : Nat) (stats : Nat × Nat × Nat) :
    Sendable o c (pack o c edge_buf edge_buf_size range_end visit
      (.new window 0 n_wr range_start stats)) := by
  apply pack_invariant (Sendable o c)
  · intro s h hcond
    rw [PackState.body]
    split
    · exact ⟨h.prepared, h.wrs_le, h.wrs_pos⟩
    · exact ⟨h.prepared, h.wrs_le, h.wrs_pos⟩
    · exact h.fetch (cond_iff.1 hcond).2.2.1
  · intro s h
    exact ⟨h.prepared, h.wrs_le, h.wrs_pos⟩
  · exact ⟨.start window, Nat.zero_le _, fun h => absurd h (Nat.lt_irrefl 0)⟩

end Packers

/-! ### Posting until it succeeds -/

/-- The retry loops for the windows of a run all end. -/
def EveryLoopEnds (capacity : Nat) (o : BuildOptions) : List SendWr → List Window → Prop
  | _, [] => True
  | queue, w :: windows =>
      ∃ fuel queue', postUntilQueued capacity o w fuel queue = some queue' ∧
        EveryLoopEnds capacity o queue' windows

section Retry

variable {capacity : Nat} {o : BuildOptions} {c : ClientContext} {queue : List SendWr}

/-- What earlier windows leave behind is less than a window. -/
theorem LeftBehind.length_lt (h : LeftBehind capacity o c queue) :
    (SendQueue.retire SendWr.signaled queue).length < o.wr_window_size := by
  cases h with
  | nothing => exact o.wr_window_size_pos
  | window hqueue hw hpos hle hrun =>
      rw [(SendQueue.retry_result (hw.headSignaled hpos hle) hrun).2, List.length_tail,
        hw.length_sendWrs hpos hle]
      omega

/-- For one window behind any others. -/
theorem LeftBehind.loop_ends_iff (h : LeftBehind capacity o c queue)
    (hcap : o.wr_window_size ≤ capacity) {w : Window} {wrs : Nat} (hw : Prepared c w wrs)
    (hpos : 0 < wrs) (hle : wrs ≤ o.wr_window_size) :
    (∃ fuel queue', postUntilQueued capacity o w fuel queue = some queue' ∧
      w.sendWrs o <:+ queue') ↔ (SendQueue.retire SendWr.signaled queue).length + wrs ≤ capacity ∨
        wrs ≤ (SendQueue.retire SendWr.signaled queue).length + 1 := by
  have hhead := hw.headSignaled hpos hle
  have hends := SendQueue.retry_ends_iff hhead (Nat.lt_of_lt_of_le h.length_lt hcap)
  rw [hw.length_sendWrs hpos hle] at hends
  rw [← hends]
  constructor
  · rintro ⟨fuel, queue', hrun, -⟩
    exact ⟨fuel, queue', hrun⟩
  · rintro ⟨fuel, queue', hrun⟩
    obtain ⟨kept, hkept⟩ := (SendQueue.retry_result hhead hrun).1
    exact ⟨fuel, queue', hrun, kept, hkept.symm⟩

/-- For the windows of a run behind a window of `m` requests. -/
theorem everyLoopEnds_iff (hcap : o.wr_window_size ≤ capacity) {windows : List (Window × Nat)}
    (hwindows : ∀ p ∈ windows, Prepared c p.1 p.2 ∧ 0 < p.2 ∧ p.2 ≤ o.wr_window_size)
    (h : LeftBehind capacity o c queue) {m : Nat} (hm : 0 < m)
    (hleft : (SendQueue.retire SendWr.signaled queue).length = m - 1) :
    EveryLoopEnds capacity o queue (windows.map (·.1)) ↔
      (m :: windows.map (·.2)).IsChain fun m n => n ≤ m ∨ m + n ≤ capacity + 1 := by
  induction windows generalizing queue m with
  | nil => simp [EveryLoopEnds]
  | cons p windows ih =>
      obtain ⟨hw, hpos, hle⟩ := hwindows p List.mem_cons_self
      have hone := h.loop_ends_iff hcap hw hpos hle
      rw [List.map_cons, List.map_cons, List.isChain_cons_cons]
      have hrest : ∀ fuel queue', postUntilQueued capacity o p.1 fuel queue = some queue' →
          (EveryLoopEnds capacity o queue' (windows.map (·.1)) ↔
            (p.2 :: windows.map (·.2)).IsChain fun m n => n ≤ m ∨ m + n ≤ capacity + 1) := by
        intro fuel queue' hrun
        apply ih (fun q hq => hwindows q (List.mem_cons_of_mem p hq)) (h.window hw hpos hle hrun)
          hpos
        rw [(SendQueue.retry_result (hw.headSignaled hpos hle) hrun).2, List.length_tail,
          hw.length_sendWrs hpos hle]
      constructor
      · rintro ⟨fuel, queue', hrun, hends⟩
        obtain ⟨kept, hkept⟩ := (SendQueue.retry_result (hw.headSignaled hpos hle) hrun).1
        have hcond := hone.1 ⟨fuel, queue', hrun, kept, hkept.symm⟩
        exact ⟨by omega, (hrest fuel queue' hrun).1 hends⟩
      · rintro ⟨hcond, hchain⟩
        obtain ⟨fuel, queue', hrun, -⟩ := hone.2 (by omega)
        exact ⟨fuel, queue', hrun, (hrest fuel queue' hrun).2 hchain⟩

end Retry

/-- For every capacity of at least a window: behind whatever earlier windows have left, the retry
    loop for a chain built by `prep_wr` ends, with the whole chain queued, exactly if the chain fits
    or is at most one longer than what is left; in a run, exactly if each window is at most as long
    as the one before it or the two together are at most one longer than the queue. -/
theorem retry_loop_ends_iff (capacity : Nat) (o : BuildOptions) (c : ClientContext)
    (hcap : o.wr_window_size ≤ capacity) :
    (∀ queue, LeftBehind capacity o c queue → ∀ w wrs, Prepared c w wrs → 0 < wrs →
      wrs ≤ o.wr_window_size →
      ((∃ fuel queue', postUntilQueued capacity o w fuel queue = some queue' ∧
        w.sendWrs o <:+ queue') ↔ (SendQueue.retire SendWr.signaled queue).length + wrs ≤ capacity ∨
          wrs ≤ (SendQueue.retire SendWr.signaled queue).length + 1)) ∧
    ∀ windows : List (Window × Nat),
      (∀ p ∈ windows, Prepared c p.1 p.2 ∧ 0 < p.2 ∧ p.2 ≤ o.wr_window_size) →
      (EveryLoopEnds capacity o [] (windows.map (·.1)) ↔
        (windows.map (·.2)).IsChain fun m n => n ≤ m ∨ m + n ≤ capacity + 1) := by
  constructor
  · intro queue hqueue w wrs hw hpos hle
    exact hqueue.loop_ends_iff hcap hw hpos hle
  · intro windows hwindows
    rw [everyLoopEnds_iff hcap hwindows .nothing Nat.zero_lt_one rfl]
    cases windows with
    | nil => simp
    | cons p windows =>
        obtain ⟨-, -, hle⟩ := hwindows p List.mem_cons_self
        rw [List.map_cons, List.isChain_cons_cons, and_iff_right]
        exact .inr (by omega)

/-- The default build. -/
def defaultBuild : BuildOptions := ⟨40, true, by decide⟩

/-- Every other vertex has one edge, the others have none. -/
def everyOther : ClientContext where
  num_vertices := 122
  num_edges := 61
  edge_offset := fun v => (v + 1) / 2
  peer_addr := 4096
  peer_rkey := 7
  lkey := 9
  words := fun _ => 0

/-- A frontier of the first 42 vertices. -/
def firstVertices : Bitmap 1 where
  size := 122
  data := fun w => if w = 0 then 0x3ffffffffff#64 else 0#64
  frontier_size := fun _ => 42#32

/-- A window for the frontier of the first vertices, of 21 requests. -/
@[irreducible] def shortWindow : PackState :=
  cachePackWindow defaultBuild none none clearWorker.window 61 0 122 firstVertices everyOther 0
    (0, 0, 0)

/-- A window for a frontier of all vertices, of 40 requests. -/
@[irreducible] def fullWindow : PackState :=
  cachePackWindow defaultBuild none none shortWindow.window 61 0 122
    ((Bitmap.fresh 122 : Bitmap 1).setAll 0)
    everyOther 0 shortWindow.stats

theorem prepared_shortWindow : Prepared everyOther shortWindow.window 21 := by
  have hwrs : shortWindow.wrs = 21 := by decide +kernel
  have hsendable : Sendable defaultBuild everyOther shortWindow := by
    rw [shortWindow]
    exact sendable_pack _ _ _ _
  exact hwrs ▸ hsendable.prepared

theorem prepared_fullWindow : Prepared everyOther fullWindow.window 40 := by
  have hwrs : fullWindow.wrs = 40 := by decide +kernel
  have hsendable : Sendable defaultBuild everyOther fullWindow := by
    rw [fullWindow]
    exact sendable_pack _ _ _ _
  exact hwrs ▸ hsendable.prepared

/-- Two windows of 21 requests. -/
theorem retry_loop_ends_twice :
    EveryLoopEnds max_send_wr defaultBuild [] [shortWindow.window, shortWindow.window] := by
  have hwindows : ∀ p ∈ [(shortWindow.window, 21), (shortWindow.window, 21)],
      Prepared everyOther p.1 p.2 ∧ 0 < p.2 ∧ p.2 ≤ defaultBuild.wr_window_size := by
    intro p hp
    rcases List.mem_cons.1 hp with rfl | hp
    · exact ⟨prepared_shortWindow, by decide, by decide⟩
    · rw [List.mem_singleton.1 hp]
      exact ⟨prepared_shortWindow, by decide, by decide⟩
  have hiff := (retry_loop_ends_iff max_send_wr defaultBuild everyOther (Nat.le_refl 40)).2 _
    hwindows
  rw [List.map_cons, List.map_singleton, List.map_cons, List.map_singleton] at hiff
  exact hiff.2 (by decide)

/-- Behind the window of 21 requests the one of 40 is posted again and again, and never all of it
    queued. -/
theorem retry_loop_cycles :
    ∃ queue, LeftBehind max_send_wr defaultBuild everyOther queue ∧
      postUntilQueued max_send_wr defaultBuild shortWindow.window 0 [] = some queue ∧
      Prepared everyOther fullWindow.window 40 ∧ 40 ≤ defaultBuild.wr_window_size ∧
      ¬ ∃ fuel queue',
        postUntilQueued max_send_wr defaultBuild fullWindow.window fuel queue = some queue' ∧
        fullWindow.window.sendWrs defaultBuild <:+ queue' := by
  have hhead := prepared_shortWindow.headSignaled (o := defaultBuild) (by decide) (by decide)
  have hlength := prepared_shortWindow.length_sendWrs (o := defaultBuild) (by decide) (by decide)
  have hok : (SendQueue.post max_send_wr (SendQueue.retire SendWr.signaled [])
      (shortWindow.window.sendWrs defaultBuild)).2 = true := by
    rw [SendQueue.post_fits_iff hhead.ne_nil, hlength]
    decide
  have hrun : postUntilQueued max_send_wr defaultBuild shortWindow.window 0 [] = some _ :=
    SendQueue.retry_of_fits hok
  have hleft : LeftBehind max_send_wr defaultBuild everyOther _ :=
    .window .nothing prepared_shortWindow (by decide) (by decide) hrun
  refine ⟨_, hleft, hrun, prepared_fullWindow, Nat.le_refl 40, ?_⟩
  rw [hleft.loop_ends_iff (Nat.le_refl 40) prepared_fullWindow (by decide) (Nat.le_refl 40),
    (SendQueue.retry_result hhead hrun).2, List.length_tail, hlength]
  decide

/-! ### Posting once -/

section Once

variable {threads : Nat} {capacity : Nat} {o : BuildOptions} {c : ClientContext}
  {edge_buf_size edge_buf : Nat} {p : PostingWorker threads}

/-- What the packer of either driver returns can be posted, and is not empty if the driver posts
    it. -/
theorem PostingTask.sendable_pack (task : PostingTask threads) (window : Window)
    (next_range_start : Nat) (stats : Nat × Nat × Nat) :
    Sendable o c (task.pack o c edge_buf_size edge_buf window next_range_start stats) := by
  cases task with
  | forEachActiveBatch frontier range_start range_end => exact FamGraph.sendable_pack _ _ _ _
  | forEachRange range_start range_end => exact FamGraph.sendable_pack _ _ _ _

theorem PostingTask.wrs_pos {task : PostingTask threads} {s : PackState} (h : Sendable o c s)
    (hposts : task.posts s = true) : 0 < s.wrs := by
  cases task with
  | forEachActiveBatch frontier range_start range_end => exact of_decide_eq_true hposts
  | forEachRange range_start range_end => exact h.wrs_pos (of_decide_eq_true hposts)

/-- The queue holds what the last chain has left, if no chain has failed to fit; and one has exactly
    if two chains posted one after the other were too long. -/
structure PostingWorker.Inv (capacity : Nat) (o : BuildOptions) (p : PostingWorker threads) :
    Prop where
  left : p.aborted = false →
    (SendQueue.retire SendWr.signaled p.queue).length = p.posted.getLast?.getD 1 - 1
  posted : ∀ n ∈ p.posted, 0 < n ∧ n ≤ o.wr_window_size
  chain : p.aborted = false ↔ p.posted.IsChain fun m n => m + n ≤ capacity + 1

/-- One turn of a driver keeps it. -/
theorem PostingWorker.Inv.turn (h : p.Inv capacity o) (hcap : o.wr_window_size ≤ capacity)
    (hrunning : p.aborted = false) :
    (p.turn capacity o c edge_buf_size edge_buf).Inv capacity o := by
  have hs :
      Sendable o c (p.task.pack o c edge_buf_size edge_buf p.window p.next_range_start p.stats) :=
    PostingTask.sendable_pack _ _ _ _
  rw [PostingWorker.turn]
  generalize p.task.pack o c edge_buf_size edge_buf p.window p.next_range_start p.stats = s at hs
  simp only
  split
  · rename_i hposts
    have hpos := PostingTask.wrs_pos hs hposts
    have hhead := hs.prepared.headSignaled (o := o) hpos hs.wrs_le
    have hlength := hs.prepared.length_sendWrs (o := o) hpos hs.wrs_le
    have hfits : (SendQueue.post capacity (SendQueue.retire SendWr.signaled p.queue)
        (s.window.sendWrs o)).2 = true ↔ p.posted.getLast?.getD 1 - 1 + s.wrs ≤ capacity := by
      rw [SendQueue.post_fits_iff hhead.ne_nil, h.left hrunning, hlength]
    rw [hlength]
    constructor
    · intro hqueued
      have hroom := (SendQueue.post_fits_iff hhead.ne_nil).1 (by simpa using hqueued)
      rw [SendQueue.retire_post_of_fits hhead hroom, List.length_tail, hlength,
        List.getLast?_concat, Option.getD_some]
    · intro n hn
      rcases List.mem_append.1 hn with hold | hnew
      · exact h.posted n hold
      · rw [List.mem_singleton.1 hnew]
        exact ⟨hpos, hs.wrs_le⟩
    · rw [List.isChain_append, Bool.not_eq_false', hfits]
      have hchain := h.chain.1 hrunning
      cases hlast : p.posted.getLast? with
      | none => simp [hchain, Nat.le_trans hs.wrs_le hcap]
      | some m =>
          have hm := h.posted m (List.mem_of_getLast? hlast)
          simp [hchain]
          omega
  · exact ⟨h.left, h.posted, h.chain⟩

theorem PostingWorker.Inv.of_reachable (hcap : o.wr_window_size ≤ capacity)
    (h : (postingRuns capacity o c edge_buf_size edge_buf).Reachable p) : p.Inv capacity o := by
  apply TransitionSystem.Reachable.induct (I := PostingWorker.Inv capacity o) _ _ h
  · rintro p ⟨-, hqueue, haborted, hposted⟩
    constructor
    · intro _
      rw [hqueue, hposted]
      rfl
    · rw [hposted]
      exact fun n hn => nomatch hn
    · rw [hposted]
      exact iff_of_true haborted .nil
  · intro p p' _ hp hstep
    cases hstep with
    | turn hrunning hmore => exact hp.turn hcap hrunning
    | task task window hrunning hdone => exact ⟨hp.left, hp.posted, hp.chain⟩

end Once

/-- For every capacity of at least a window, every graph, and every run of a worker through
    sub-ranges of either driver: no chain has been refused exactly if every two chains posted one
    after the other are together at most one longer than the queue. -/
theorem drivers_fit_queue_iff {threads : Nat} (capacity : Nat) (o : BuildOptions)
    (c : ClientContext) (edge_buf_size edge_buf : Nat) (hcap : o.wr_window_size ≤ capacity)
    (p : PostingWorker threads)
    (hrun : (postingRuns capacity o c edge_buf_size edge_buf).Reachable p) :
    p.aborted = false ↔ p.posted.IsChain fun m n => m + n ≤ capacity + 1 :=
  (PostingWorker.Inv.of_reachable hcap hrun).chain

/-- A worker that is given the first vertices. -/
def givenRange (range_end : Nat) : PostingWorker 1 where
  task := .forEachRange 0 range_end
  next_range_start := 0
  window := clearWorker.window
  stats := (0, 0, 0)
  queue := []
  aborted := false
  posted := []

theorem reachable_firstTurn (range_end : Nat) (hpos : 0 < range_end) :
    (postingRuns max_send_wr defaultBuild everyOther 61 0).Reachable
      ((givenRange range_end).turn max_send_wr defaultBuild everyOther 61 0) := by
  apply TransitionSystem.Reachable.step (s := givenRange range_end)
  · exact .of_init ⟨rfl, rfl, rfl, rfl⟩
  · exact .turn rfl hpos

/-- After 40 requests there is room for one. -/
theorem drivers_fit_queue_twice :
    ∃ p : PostingWorker 1, (postingRuns max_send_wr defaultBuild everyOther 61 0).Reachable p ∧
      p.posted = [40, 1] ∧ p.aborted = false := by
  have hreach := (reachable_firstTurn 82 (by decide)).step
    (.turn (by decide +kernel) (by decide +kernel))
  have hposted : (((givenRange 82).turn max_send_wr defaultBuild everyOther 61 0).turn max_send_wr
      defaultBuild everyOther 61 0).posted = [40, 1] := by
    decide +kernel
  refine ⟨_, hreach, hposted, ?_⟩
  apply (drivers_fit_queue_iff max_send_wr defaultBuild everyOther 61 0 (Nat.le_refl 40) _ hreach).2
  rw [hposted]
  exact .cons_cons (by decide) (.singleton 1)

/-- A second window of 2 requests finds one slot free, and ends the process. -/
theorem second_window_aborts :
    ∃ p : PostingWorker 1, (postingRuns max_send_wr defaultBuild everyOther 61 0).Reachable p ∧
      p.posted = [40, 2] ∧ p.aborted = true := by
  refine ⟨_, (reachable_firstTurn 84 (by decide)).step (.turn ?_ ?_), ?_, ?_⟩
  · decide +kernel
  · decide +kernel
  · decide +kernel
  · decide +kernel

end FamGraph
