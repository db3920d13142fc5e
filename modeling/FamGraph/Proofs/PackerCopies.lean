/-
Module: FamGraph.Proofs.PackerCopies
Layer: Proofs
Purpose: The three copies of the packers' loop agree. Each is, at every exit, the common loop with
  its own choice of what to do with a vertex, and that loop asks about the vertices of the range
  only.
Trusted boundary: none
Main exports: packWindow_as_written, cachePackWindow_as_written, packWindow2_as_written, SameResult,
  packers_agree
-/
import FamGraph.Core.PackerCopies
import FamGraph.Proofs.WindowGeometry

namespace FamGraph

namespace PackState

/-- The variables but `n_wr`, which only `pack_window2` has. -/
def forgetNWr (s : PackState) : PackState := { s with n_wr := 0 }

/-- The state with the statistics written, if the loop was left by `return`. -/
def countIfFull (s : PackState) : PackState := if s.full then s.count else s

end PackState

section Copies

variable {threads : Nat} (o : BuildOptions) (c : ClientContext) (edge_buf edge_buf_size : Nat)

theorem countIfFull_of_not_full {s : PackState} (h : s.full = false) : s.countIfFull = s := by
  rw [PackState.countIfFull, h, if_neg Bool.false_ne_true]

/-- A turn of `pack_window2` is one of the common loop that fetches every vertex, counting on
    `return`. -/
theorem packWindow2Body_as_written (s : PackState) (hfull : s.full = false) :
    AsWritten.packWindow2Body o c edge_buf edge_buf_size s =
      (s.body o c edge_buf edge_buf_size fun _ => .fetch).countIfFull := by
  rw [AsWritten.packWindow2Body, PackState.body, if_pos rfl]
  simp only
  have hfetch := fetch_cases o c edge_buf edge_buf_size s
  generalize s.fetch o c edge_buf edge_buf_size = t at hfetch
  cases hfetch with
  | full hroom =>
      rw [if_neg hroom]
      rfl
  | isolated hroom hedges =>
      rw [if_pos hroom, if_neg hedges, countIfFull_of_not_full (by exact hfull)]
  | joins hroom hedges hjoin =>
      rw [if_pos hroom, if_pos hedges, if_pos hjoin, countIfFull_of_not_full (by exact hfull)]
  | starts hroom hedges hjoin =>
      rw [if_pos hroom, if_pos hedges, if_neg hjoin, countIfFull_of_not_full (by exact hfull)]

/-- At an active vertex `pack_window` does what `pack_window2` does, but for `n_wr`. -/
theorem packWindowBody_of_active {frontier : Bitmap threads} {s : PackState}
    (hactive : frontier.getBit s.v ≠ 0#64) :
    AsWritten.packWindowBody o c edge_buf edge_buf_size frontier s =
      { AsWritten.packWindow2Body o c edge_buf edge_buf_size s with n_wr := s.n_wr } := by
  rw [AsWritten.packWindowBody, AsWritten.packWindow2Body, if_pos hactive, if_pos rfl]
  dsimp only
  split
  · split
    · split <;> rfl
    · rfl
  · rfl

/-- A turn of `pack_window` is one of the common loop, counting on `return`, that leaves `n_wr`
    alone. -/
theorem packWindowBody_as_written (frontier : Bitmap threads) (s : PackState)
    (hfull : s.full = false) :
    AsWritten.packWindowBody o c edge_buf edge_buf_size frontier s =
      { (s.body o c edge_buf edge_buf_size (frontierVisit frontier)).countIfFull with
        n_wr := s.n_wr } := by
  by_cases hactive : frontier.getBit s.v ≠ 0#64
  · have hvisit : s.body o c edge_buf edge_buf_size (frontierVisit frontier) =
        s.body o c edge_buf edge_buf_size fun _ => .fetch := by
      rw [PackState.body, PackState.body, frontierVisit, if_pos hactive]
    rw [packWindowBody_of_active o c edge_buf edge_buf_size hactive,
      packWindow2Body_as_written o c edge_buf edge_buf_size s hfull, hvisit]
  · rw [AsWritten.packWindowBody, PackState.body, frontierVisit, if_neg hactive, if_neg hactive,
      countIfFull_of_not_full (by exact hfull)]

/-- A vertex that is not in the cache is treated as `pack_window` treats it. -/
theorem cachePackWindowBody_of_not_cached {cache_map : Option CacheMap}
    {cacheManager : Option CacheManager} {frontier : Bitmap threads} {s : PackState}
    (hcached : ∀ m, cacheManager = some m → m.is_vertex_exist s.v = false) :
    AsWritten.cachePackWindowBody o cache_map cacheManager c edge_buf edge_buf_size frontier s =
      AsWritten.packWindowBody o c edge_buf edge_buf_size frontier s := by
  cases cacheManager with
  | none => rfl
  | some m =>
      unfold AsWritten.cachePackWindowBody
      simp only
      rw [hcached m rfl, if_neg Bool.false_ne_true]
      rfl

theorem cacheVisit_of_not_cached {cache_map : Option CacheMap} {cacheManager : Option CacheManager}
    {frontier : Bitmap threads} {v : Nat}
    (hcached : ∀ m, cacheManager = some m → m.is_vertex_exist v = false) :
    cacheVisit cache_map cacheManager frontier v = frontierVisit frontier v := by
  cases cacheManager with
  | none => rfl
  | some m =>
      unfold cacheVisit lookup
      simp only
      rw [hcached m rfl, if_neg Bool.false_ne_true]
      rfl

/-- So is one of `cache_pack_window`. -/
theorem cachePackWindowBody_as_written (cache_map : Option CacheMap)
    (cacheManager : Option CacheManager) (frontier : Bitmap threads) (s : PackState)
    (hfull : s.full = false) :
    AsWritten.cachePackWindowBody o cache_map cacheManager c edge_buf edge_buf_size frontier s =
      { (s.body o c edge_buf edge_buf_size
        (cacheVisit cache_map cacheManager frontier)).countIfFull with
        n_wr := s.n_wr } := by
  by_cases hcached : ∀ m, cacheManager = some m → m.is_vertex_exist s.v = false
  · rw [cachePackWindowBody_of_not_cached o c edge_buf edge_buf_size hcached,
      packWindowBody_as_written o c edge_buf edge_buf_size frontier s hfull, PackState.body,
      PackState.body, cacheVisit_of_not_cached hcached]
  · obtain ⟨m, rfl, hin⟩ : ∃ m, cacheManager = some m ∧ m.is_vertex_exist s.v = true := by
      by_contra hno
      apply hcached
      intro m hm
      by_contra hin
      exact hno ⟨m, hm, Bool.eq_true_of_not_eq_false hin⟩
    unfold AsWritten.cachePackWindowBody
    rw [PackState.body, cacheVisit]
    simp only [lookup]
    rw [hin, if_pos rfl, if_pos rfl]
    split
    · rw [countIfFull_of_not_full (by exact hfull)]
    · rw [countIfFull_of_not_full (by exact hfull)]

end Copies

/-! ### The loops -/

section Loops

variable {o : BuildOptions} {c : ClientContext} {edge_buf edge_buf_size range_end : Nat}
  {visit : Nat → Visit} {s t : PackState}

theorem body_setNWr (s : PackState) (n : Nat) :
    (({ s with n_wr := n } : PackState).body o c edge_buf edge_buf_size visit).forgetNWr =
      (s.body o c edge_buf edge_buf_size visit).forgetNWr := by
  rw [PackState.body, PackState.body]
  simp only
  cases visit s.v with
  | skip => rfl
  | serve call => rfl
  | fetch =>
      simp only
      have h := fetch_cases o c edge_buf edge_buf_size s
      have h' := fetch_cases o c edge_buf edge_buf_size { s with n_wr := n }
      generalize s.fetch o c edge_buf edge_buf_size = t at h ⊢
      generalize PackState.fetch o c edge_buf edge_buf_size { s with n_wr := n } = t' at h' ⊢
      cases h <;> cases h' <;> first | rfl | contradiction

/-- `n_wr` decides nothing. -/
theorem body_forgetNWr (h : s.forgetNWr = t.forgetNWr) :
    (s.body o c edge_buf edge_buf_size visit).forgetNWr =
      (t.body o c edge_buf edge_buf_size visit).forgetNWr := by
  rw [← body_setNWr s 0, ← body_setNWr t 0]
  exact congrArg (fun s => (PackState.body o c edge_buf edge_buf_size visit s).forgetNWr) h

/-- States that differ in `n_wr` agree in everything else. -/
theorem eq_of_forgetNWr {α : Type} (f : PackState → α) (hf : ∀ s, f s.forgetNWr = f s)
    (h : s.forgetNWr = t.forgetNWr) : f s = f t := by
  rw [← hf s, h, hf t]

theorem cond_forgetNWr (h : s.forgetNWr = t.forgetNWr) :
    s.cond o edge_buf_size range_end = t.cond o edge_buf_size range_end :=
  eq_of_forgetNWr (PackState.cond o edge_buf_size range_end) (fun _ => rfl) h

theorem cond_countIfFull :
    s.countIfFull.cond o edge_buf_size range_end = s.cond o edge_buf_size range_end := by
  rw [PackState.countIfFull]
  split <;> rfl

theorem forgetNWr_countIfFull : s.countIfFull.forgetNWr = s.forgetNWr.countIfFull := by
  rw [PackState.countIfFull, PackState.countIfFull]
  change (if s.full then s.count else s).forgetNWr = if s.full then s.forgetNWr.count
    else s.forgetNWr
  split <;> rfl

/-- A loop whose turns are those of the common loop, but count on `return`, returns what that loop
    does. -/
theorem whileThenCount_eq {turn : PackState → PackState}
    (hturn : ∀ s, s.full = false →
      (turn s).forgetNWr = (s.body o c edge_buf edge_buf_size visit).countIfFull.forgetNWr)
    (hfull : s.full = false) :
    (AsWritten.whileThenCount o edge_buf_size range_end turn s).forgetNWr =
      (pack o c edge_buf edge_buf_size range_end visit s).forgetNWr := by
  have hend :
      (Loop.iter (PackState.cond o edge_buf_size range_end) turn (range_end - s.v + 1)
        s).forgetNWr = (Loop.iter (PackState.cond o edge_buf_size range_end)
        (PackState.body o c edge_buf edge_buf_size visit) (range_end - s.v + 1)
        s).countIfFull.forgetNWr := by
    apply Loop.iter_simulation fun s t : PackState => s.forgetNWr = t.countIfFull.forgetNWr
    · intro s t hst
      rw [cond_forgetNWr hst, cond_countIfFull]
    · intro s t hst hcond
      rw [cond_forgetNWr hst, cond_countIfFull] at hcond
      have htfull : t.full = false := (cond_iff.1 hcond).1
      rw [countIfFull_of_not_full htfull] at hst
      have hsfull : s.full = false := (congrArg PackState.full hst).trans htfull
      rw [hturn s hsfull, forgetNWr_countIfFull, body_forgetNWr hst, forgetNWr_countIfFull]
    · rw [countIfFull_of_not_full hfull]
  rw [AsWritten.whileThenCount, pack]
  generalize Loop.iter (PackState.cond o edge_buf_size range_end) turn (range_end - s.v + 1) s =
    x at hend ⊢
  generalize Loop.iter (PackState.cond o edge_buf_size range_end)
    (PackState.body o c edge_buf edge_buf_size visit) (range_end - s.v + 1) s = y at hend ⊢
  cases hy : y.full with
  | true =>
      rw [PackState.countIfFull, hy, if_pos rfl] at hend
      have hx : x.full = true := (congrArg PackState.full hend).trans hy
      rw [hx, if_pos rfl, hend]
  | false =>
      rw [countIfFull_of_not_full hy] at hend
      have hx : x.full = false := (congrArg PackState.full hend).trans hy
      rw [hx, if_neg Bool.false_ne_true]
      exact congrArg PackState.count hend

/-- What the common loop returns depends on its choices for the vertices of the range only. -/
theorem pack_congr {visit' : Nat → Visit}
    (hvisit : ∀ v, s.v ≤ v → v < range_end → visit v = visit' v) (hst : s.forgetNWr = t.forgetNWr) :
    (pack o c edge_buf edge_buf_size range_end visit s).forgetNWr =
      (pack o c edge_buf edge_buf_size range_end visit' t).forgetNWr := by
  have hv : s.v = t.v := eq_of_forgetNWr PackState.v (fun _ => rfl) hst
  have hend : s.v ≤ (Loop.iter (PackState.cond o edge_buf_size range_end)
        (PackState.body o c edge_buf edge_buf_size visit) (range_end - s.v + 1) s).v ∧
      (Loop.iter (PackState.cond o edge_buf_size range_end)
        (PackState.body o c edge_buf edge_buf_size visit) (range_end - s.v + 1) s).forgetNWr =
      (Loop.iter (PackState.cond o edge_buf_size range_end)
        (PackState.body o c edge_buf edge_buf_size visit') (range_end - s.v + 1) t).forgetNWr := by
    apply Loop.iter_simulation fun x y : PackState => s.v ≤ x.v ∧ x.forgetNWr = y.forgetNWr
    · intro x y hxy
      exact cond_forgetNWr hxy.2
    · rintro x y ⟨hle, hxy⟩ hcond
      refine ⟨Nat.le_trans hle (le_body o c edge_buf edge_buf_size visit x), ?_⟩
      have hturn :
          x.body o c edge_buf edge_buf_size visit = x.body o c edge_buf edge_buf_size visit' := by
        rw [PackState.body, PackState.body, hvisit x.v hle (cond_iff.1 hcond).2.2.2]
      rw [hturn]
      exact body_forgetNWr hxy
    · exact ⟨Nat.le_refl _, hst⟩
  rw [pack, pack, ← hv]
  exact congrArg PackState.count hend.2

end Loops

/-! ### The copies agree -/

/-- Two packers return the same and leave the same behind. -/
structure SameResult (s t : PackState) : Prop where
  next : s.v = t.v
  wrs : s.wrs = t.wrs
  wr_window : s.window.wr_window = t.window.wr_window
  sge_window : s.window.sge_window = t.window.sge_window
  vertex_batch : s.window.vertex_batch = t.window.vertex_batch
  marks : s.marks = t.marks
  calls : s.calls = t.calls
  stats : s.stats = t.stats

theorem SameResult.of_forgetNWr {s t : PackState} (h : s.forgetNWr = t.forgetNWr) :
    SameResult s t where
  next := eq_of_forgetNWr PackState.v (fun _ => rfl) h
  wrs := eq_of_forgetNWr PackState.wrs (fun _ => rfl) h
  wr_window := eq_of_forgetNWr (fun s => s.window.wr_window) (fun _ => rfl) h
  sge_window := eq_of_forgetNWr (fun s => s.window.sge_window) (fun _ => rfl) h
  vertex_batch := eq_of_forgetNWr (fun s => s.window.vertex_batch) (fun _ => rfl) h
  marks := eq_of_forgetNWr PackState.marks (fun _ => rfl) h
  calls := eq_of_forgetNWr PackState.calls (fun _ => rfl) h
  stats := eq_of_forgetNWr PackState.stats (fun _ => rfl) h

section Agreement

variable {threads : Nat} (o : BuildOptions) (c : ClientContext) (window : Window)
  (edge_buf edge_buf_size range_start range_end : Nat) (stats : Nat × Nat × Nat)

/-- `pack_window` as written is the common loop over the frontier. -/
theorem packWindow_as_written (frontier : Bitmap threads) :
    (AsWritten.packWindow o window edge_buf_size range_start range_end frontier c edge_buf
      stats).forgetNWr = (packWindow o window edge_buf_size range_start range_end frontier c
      edge_buf stats).forgetNWr := by
  apply whileThenCount_eq _ rfl
  intro s hfull
  rw [packWindowBody_as_written o c edge_buf edge_buf_size frontier s hfull]
  rfl

/-- `cache_pack_window` as written is the common loop that looks vertices up. -/
theorem cachePackWindow_as_written (cache_map : Option CacheMap)
    (cacheManager : Option CacheManager) (frontier : Bitmap threads) :
    (AsWritten.cachePackWindow o cache_map cacheManager window edge_buf_size range_start range_end
      frontier c
        edge_buf stats).forgetNWr =
      (cachePackWindow o cache_map cacheManager window edge_buf_size range_start range_end frontier
        c edge_buf stats).forgetNWr := by
  apply whileThenCount_eq _ rfl
  intro s hfull
  rw [cachePackWindowBody_as_written o c edge_buf edge_buf_size cache_map cacheManager frontier s
    hfull]
  rfl

/-- `pack_window2` as written is the common loop that fetches every vertex. -/
theorem packWindow2_as_written (batch_size n_wr : Nat) :
    (AsWritten.packWindow2 o window batch_size edge_buf_size range_start range_end c edge_buf n_wr
        stats).forgetNWr =
      (packWindow2 o window batch_size edge_buf_size range_start range_end c edge_buf n_wr
        stats).forgetNWr := by
  apply whileThenCount_eq _ rfl
  intro s hfull
  rw [packWindow2Body_as_written o c edge_buf edge_buf_size s hfull]

/-- For every index, frontier, range, buffer size, and whatever the arrays held before:
    `cache_pack_window` does what `pack_window` does if no active vertex of the range is in the
    cache, and so does `pack_window2` started with `batch_size` 0 if every vertex of the range is
    active. -/
theorem packers_agree (frontier : Bitmap threads) :
    (∀ cache_map cacheManager,
      (∀ m, cacheManager = some m → ∀ v, range_start ≤ v → v < range_end →
        frontier.getBit v ≠ 0#64 → m.is_vertex_exist v = false) →
      SameResult
        (AsWritten.cachePackWindow o cache_map cacheManager window edge_buf_size range_start
          range_end frontier c edge_buf stats)
        (AsWritten.packWindow o window edge_buf_size range_start range_end frontier c edge_buf
          stats)) ∧
    (∀ n_wr, (∀ v, range_start ≤ v → v < range_end → frontier.getBit v ≠ 0#64) →
      SameResult
        (AsWritten.packWindow2 o window 0 edge_buf_size range_start range_end c edge_buf n_wr stats)
        (AsWritten.packWindow o window edge_buf_size range_start range_end frontier c edge_buf
          stats)) := by
  constructor
  · intro cache_map cacheManager hcached
    apply SameResult.of_forgetNWr
    rw [cachePackWindow_as_written, packWindow_as_written]
    apply pack_congr
    · intro v hstart hend
      by_cases hactive : frontier.getBit v ≠ 0#64
      · exact cacheVisit_of_not_cached fun m hm => hcached m hm v hstart hend hactive
      · rw [cacheVisit, frontierVisit, if_neg hactive, if_neg hactive]
    · rfl
  · intro n_wr hactive
    apply SameResult.of_forgetNWr
    rw [packWindow2_as_written, packWindow_as_written, packWindow2, packWindow]
    apply pack_congr
    · intro v hstart hend
      rw [frontierVisit, if_pos (hactive v hstart hend)]
    · rfl

end Agreement

/-- Three active vertices, none of them cached. -/
theorem packers_agree_three :
    SameResult
        (AsWritten.cachePackWindow ⟨40, true, by decide⟩ none none clearWorker.window 3 0 3
          ((Bitmap.fresh 3 : Bitmap 1).setAll 0) threeVertices 0 (0, 0, 0))
        (AsWritten.packWindow ⟨40, true, by decide⟩ clearWorker.window 3 0 3
          ((Bitmap.fresh 3 : Bitmap 1).setAll 0) threeVertices 0 (0, 0, 0)) ∧
      SameResult
        (AsWritten.packWindow2 ⟨40, true, by decide⟩ clearWorker.window 0 3 0 3 threeVertices 0 0
          (0, 0, 0))
        (AsWritten.packWindow ⟨40, true, by decide⟩ clearWorker.window 3 0 3
          ((Bitmap.fresh 3 : Bitmap 1).setAll 0) threeVertices 0 (0, 0, 0)) := by
  have hactive : ∀ v < 3, ((Bitmap.fresh 3 : Bitmap 1).setAll 0).getBit v ≠ 0#64 := by decide
  have hagree := packers_agree ⟨40, true, by decide⟩ threeVertices clearWorker.window 0 3 0 3
    (0, 0, 0) ((Bitmap.fresh 3 : Bitmap 1).setAll 0)
  exact ⟨hagree.1 none none nofun, hagree.2 0 fun v _ hv => hactive v hv⟩

end FamGraph
