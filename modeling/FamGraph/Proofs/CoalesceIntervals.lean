/-
Module: FamGraph.Proofs.CoalesceIntervals
Layer: Proofs
Purpose: Why intervals may be merged by vertex number alone. Only the first interval of a batch can
  begin inside a vertex and only the last can end inside one, so where one vertex follows another
  the words of the two lie one behind the other on the server, and one READ fetches both to their
  place. A READ's length in bytes is a `uint32_t`, and so is a degree; the reads are right exactly
  where neither overflows.
Trusted boundary: human-reviewed specification `FetchesToPlace`
Main exports: Batch, batch_of_drain, mergeRun, coalesceIntervals_eq, FetchesToPlace, RunsFit,
  coalesced_requests_iff
-/
import FamGraph.Proofs.Edgemap
import FamGraph.Proofs.MakeWRs
import FamGraph.Proofs.Packing
import Mathlib.Data.List.SplitBy

namespace FamGraph.Edgemap

variable {threads : Nat}

/-! ### What a batch looks like -/

/-- One interval behind another in a batch: the first ends with its vertex, the second begins with
    its own. -/
structure Abuts (deg : Nat → Nat) (i j : VInterval) : Prop where
  ends : i.end_ = deg i.v
  begins : j.start = 0
  lt : i.v < j.v

/-- A batch: non-empty pieces of adjacency lists, one behind the other. -/
structure Batch (deg : Nat → Nat) (end_ capacity : Nat) (vec : List VInterval) : Prop where
  chain : vec.IsChain (Abuts deg)
  nonempty : ∀ i ∈ vec, i.start < i.end_
  le : ∀ i ∈ vec, i.end_ ≤ deg i.v
  lt : ∀ i ∈ vec, i.v < end_
  fits : (vec.map fun i => i.end_ - i.start).sum ≤ capacity

/-- A call that still has room has finished its last vertex and moved on. -/
structure Whole (deg : Nat → Nat) (s : NextBatch threads) (l : BatchLoop threads) : Prop where
  chain : l.vec.IsChain (Abuts deg)
  last : ∀ i ∈ l.vec.getLast?, l.edges < s.capacity →
    i.end_ = deg i.v ∧ l.self.cur_e = 0 ∧ i.v < l.self.cur_v

section Batch

variable {b : Bitmap threads} {deg : Nat → Nat} {s : NextBatch threads} {l : BatchLoop threads}
  {end_ : Nat}

theorem Emit.mem {p q : Nat × Nat} {pieces : List VInterval} (h : Emit b deg end_ p pieces q) :
    ∀ i ∈ pieces, i.v < end_ ∧ i.end_ ≤ deg i.v := by
  cases h with
  | skip => exact fun i hi => absurd hi List.not_mem_nil
  | part hv hlt hlt' =>
      intro i hi
      rw [List.mem_singleton.1 hi]
      exact ⟨hv, Nat.le_of_lt hlt'⟩
  | finish hv hlt hnext =>
      intro i hi
      rw [List.mem_singleton.1 hi]
      exact ⟨hv, Nat.le_refl _⟩

theorem Emits.mem {p q : Nat × Nat} {out : List VInterval} (h : Emits b deg end_ p out q) :
    ∀ i ∈ out, i.v < end_ ∧ i.end_ ≤ deg i.v := by
  induction h with
  | refl => exact fun i hi => absurd hi List.not_mem_nil
  | head hemit _ ih =>
      intro i hi
      rcases List.mem_append.1 hi with hi | hi
      · exact hemit.mem i hi
      · exact ih i hi

/-- One turn of the loop. -/
theorem Whole.turn (h : Whole deg s l) (hf : Filling deg s l) (hb : Bounded deg s.end_ s.capacity)
    (hcond : l.cond = true) : Whole deg s (l.body deg) := by
  obtain ⟨hv, hroom⟩ := hf.cond_iff.1 hcond
  by_cases hzero : deg l.self.cur_v = 0
  · obtain ⟨w, hnext, hself, hvec, hedges, -⟩ := nextVertex_spec hv (hf.scanner hv)
    rw [body_of_isolated hzero]
    refine ⟨by rw [hvec]; exact h.chain, fun i hi hlt => ?_⟩
    rw [hvec] at hi
    obtain ⟨hend, -, hi_v⟩ := h.last i hi hroom
    have hle := hnext.le
    rw [hself]
    exact ⟨hend, rfl, by simp only; omega⟩
  · obtain ⟨take, htake, hbody⟩ := hf.body_eq hb hcond hzero
    have hinside : l.self.cur_e = 0 ∨ l.self.cur_e < deg l.self.cur_v := hf.inside hv
    have hchain : (l.vec ++ [(⟨l.self.cur_v, deg l.self.cur_v, l.self.cur_e, l.self.cur_e + take⟩ :
        VInterval)]).IsChain (Abuts deg) := by
      refine h.chain.append (List.isChain_singleton _) fun i hi j hj => ?_
      obtain rfl := Option.some.inj hj
      obtain ⟨hend, hbegin, hlt⟩ := h.last i hi hroom
      exact ⟨hend, hbegin, hlt⟩
    rw [hbody]
    simp only
    split
    · rename_i hall
      have hscanner := hf.scanner hv
      obtain ⟨w, hnext, hself, hvec, hedges, -⟩ := nextVertex_spec
        (l := { l with
          vec := l.vec ++ [(⟨l.self.cur_v, deg l.self.cur_v, l.self.cur_e, l.self.cur_e + take⟩ :
            VInterval)]
          edges := l.edges + take }) hv hscanner
      refine ⟨by rw [hvec]; exact hchain, fun i hi _ => ?_⟩
      rw [hvec, List.getLast?_concat] at hi
      obtain rfl := Option.some.inj hi
      have hle := hnext.le
      rw [hself]
      exact ⟨by simp only; omega, rfl, by simp only at hle ⊢; omega⟩
    · rename_i hpart
      refine ⟨hchain, fun i _ hlt => ?_⟩
      simp only at hlt
      omega

/-- What one call returns. -/
theorem batch_of_call (hb : Bounded deg s.end_ s.capacity)
    (hinside : Inside deg s.end_ (s.cur_v, s.cur_e)) (hv : s.cur_v < s.end_) {fuel : Nat}
    {s' : NextBatch threads} {vec : List VInterval} (hcall : s.call fuel deg = some (s', vec)) :
    (s'.end_ = s.end_ ∧ s'.capacity = s.capacity ∧ Inside deg s.end_ (s'.cur_v, s'.cur_e)) ∧
      Batch deg s.end_ s.capacity vec := by
  obtain ⟨l, hrun, hl⟩ := Option.map_eq_some_iff.1 hcall
  obtain ⟨rfl, rfl⟩ := Prod.mk.inj hl
  have henter : Filling deg s s.enter ∧ Whole deg s s.enter :=
    ⟨filling_enter hb hinside hv, List.isChain_nil, fun i hi => nomatch hi⟩
  obtain ⟨⟨hf, hw⟩, -⟩ :=
    Loop.run_invariant (fun l => Filling deg s l ∧ Whole deg s l) (fun l l' h hcond hturn => by
    obtain rfl := Option.some.inj hturn
    exact ⟨(h.1.turn hb hcond).1, h.2.turn h.1 hb hcond⟩) henter hrun
  refine ⟨⟨hf.end_eq, hf.capacity_eq, hf.inside⟩, ?_⟩
  exact ⟨hw.chain, hf.nonempty, fun i hi => (hf.emits.mem i hi).2,
    fun i hi => (hf.emits.mem i hi).1, hf.edges ▸ hf.edges_le⟩

/-- Every batch of a run is one. -/
theorem batch_of_drain (b : Bitmap threads) {start capacity : Nat} (hb : Bounded deg end_ capacity)
    {fuel : Nat} {batches : List (List VInterval)}
    (hdrain : drain fuel deg (NextBatch.new b start end_ capacity) = some batches)
    {vec : List VInterval} (hvec : vec ∈ batches) : Batch deg end_ capacity vec := by
  obtain ⟨p, hrun, rfl⟩ := Option.map_eq_some_iff.1 hdrain
  have hinvariant := Loop.run_invariant (fun p : NextBatch threads × List (List VInterval) =>
    (p.1.end_ = end_ ∧ p.1.capacity = capacity ∧ Inside deg end_ (p.1.cur_v, p.1.cur_e)) ∧
      ∀ vec ∈ p.2, Batch deg end_ capacity vec) (fun p p' h hcond hturn => by
    obtain ⟨⟨hend, hcapacity, hinside⟩, hbatches⟩ := h
    obtain ⟨q, hcall, rfl⟩ := Option.map_eq_some_iff.1 hturn
    have hv : p.1.cur_v < p.1.end_ := by simpa [NextBatch.isDone] using hcond
    obtain ⟨hstate, hbatch⟩ := batch_of_call (s := p.1) (by rw [hend, hcapacity]; exact hb)
      (by rw [hend]; exact hinside) hv hcall
    rw [hend, hcapacity] at hstate hbatch
    refine ⟨hstate, fun vec hvec => ?_⟩
    rcases List.mem_append.1 hvec with hvec | hvec
    · exact hbatches vec hvec
    · rw [List.mem_singleton.1 hvec]
      exact hbatch)
    ⟨⟨rfl, rfl, fun _ => Or.inl rfl⟩, fun vec hvec => absurd hvec List.not_mem_nil⟩ hrun
  exact hinvariant.1.2 vec hvec

/-- Nothing wraps in the length of an interval. -/
theorem Batch.length_eq {capacity : Nat} {vec : List VInterval} (h : Batch deg end_ capacity vec)
    (hb : Bounded deg end_ capacity) {i : VInterval} (hi : i ∈ vec) :
    i.length = i.end_ - i.start := by
  have hne := h.nonempty i hi
  have hle := h.le i hi
  have hlt := hb.degree_lt i.v
  rw [VInterval.length]
  omega

theorem Batch.length_pos {capacity : Nat} {vec : List VInterval} (h : Batch deg end_ capacity vec)
    (hb : Bounded deg end_ capacity) {i : VInterval} (hi : i ∈ vec) : 0 < i.length := by
  have hne := h.nonempty i hi
  rw [h.length_eq hb hi]
  omega

theorem Batch.words_le {capacity : Nat} {vec : List VInterval} (h : Batch deg end_ capacity vec)
    (hb : Bounded deg end_ capacity) : words vec ≤ capacity := by
  have hsum : vec.map VInterval.length = vec.map fun i => i.end_ - i.start :=
    List.map_congr_left fun i hi => h.length_eq hb hi
  rw [words, hsum]
  exact h.fits

end Batch

/-! ### Merged intervals -/

/-- What `coalesce_intervals` makes of a run of intervals. -/
def mergeRun : List VInterval → VInterval
  | [] => ⟨0, 0, 0, 0⟩
  | interval :: run => run.foldl VInterval.extend interval

section Merge

variable {i j : VInterval} {run : List VInterval}

theorem mergeRun_concat (hne : run ≠ []) (i : VInterval) :
    mergeRun (run ++ [i]) = (mergeRun run).extend i := by
  cases run with
  | nil => exact absurd rfl hne
  | cons first run =>
      rw [List.cons_append, mergeRun, List.foldl_append]
      rfl

theorem coalesceLoop_eq (combined : List (List VInterval)) (run : List VInterval) (prev : VInterval)
    (vec : List VInterval) :
    coalesceLoop (combined.reverse.map mergeRun) (mergeRun (prev :: run).reverse) prev vec =
      (List.splitBy.loop VInterval.follows vec prev run combined).map mergeRun := by
  induction vec generalizing combined run prev with
  | nil =>
      rw [coalesceLoop, List.splitBy.loop, @List.reverse_cons _ _ combined, List.map_append]
      rfl
  | cons interval vec ih =>
      rw [coalesceLoop, List.splitBy.loop]
      cases hfollows : prev.follows interval with
      | true =>
          have hmerge : (mergeRun (prev :: run).reverse).extend interval =
              mergeRun (interval :: prev :: run).reverse := by
            rw [@List.reverse_cons _ _ (prev :: run), mergeRun_concat (by simp)]
          rw [if_pos rfl, hmerge, ih]
      | false =>
          have hnext := ih ((prev :: run).reverse :: combined) [] interval
          rw [@List.reverse_cons _ _ combined, List.map_append] at hnext
          rw [if_neg Bool.false_ne_true, ← hnext]
          rfl

/-- `coalesce_intervals` merges each run of intervals whose vertices follow one another. -/
theorem coalesceIntervals_eq {vec : List VInterval} (hne : vec ≠ []) :
    coalesceIntervals vec = some ((vec.splitBy VInterval.follows).map mergeRun) := by
  cases vec with
  | nil => exact absurd rfl hne
  | cons interval vec =>
      rw [coalesceIntervals, List.splitBy, ← coalesceLoop_eq [] [] interval vec]
      rfl

theorem extend_length (i j : VInterval) : (i.extend j).length = (i.length + j.length) % 2 ^ 32 := by
  rw [VInterval.length, VInterval.length, VInterval.extend]
  simp only
  omega

/-- A merged run begins with its first interval and is as long as all of them. -/
theorem mergeRun_spec (i : VInterval) (run : List VInterval) :
    (mergeRun (i :: run)).v = i.v ∧ (mergeRun (i :: run)).start = i.start ∧
      (mergeRun (i :: run)).length = words (i :: run) % 2 ^ 32 := by
  induction run using List.reverseRecOn with
  | nil =>
      refine ⟨rfl, rfl, ?_⟩
      rw [words_cons, words_nil, Nat.add_zero]
      exact (Nat.mod_mod _ _).symm
  | append_singleton run j ih =>
      obtain ⟨hv, hbegin, hlength⟩ := ih
      rw [← List.cons_append, mergeRun_concat (List.cons_ne_nil _ _)]
      refine ⟨hv, hbegin, ?_⟩
      rw [extend_length, hlength, Nat.mod_add_mod, words_append, words_cons j, words_nil,
        Nat.add_zero]

end Merge

/-! ### What the reads do -/

/-- The words a READ puts into memory. -/
def WR.transfer (c : ClientContext) (r : WR) : List (Nat × Nat) :=
  Memory.segment r.sge.addr
    ((List.range (r.sge.length / 4)).map fun k => c.remote (r.wr.remote_addr + 4 * k))

/-- The segments follow one another from the first address to the last. -/
def Tiles : Nat → List (Nat × Nat) → Nat → Prop
  | a, [], b => a = b
  | a, (addr, n) :: segments, b => addr = a ∧ Tiles (a + n) segments b

/-- The work requests of a batch do what they are for: whatever words the server holds and the
    buffer held, each word of each interval ends up behind those of the intervals before it; the
    local segments tile the buffer; and `sign_buffer` marks the first and the last word of each
    interval and no other. -/
structure FetchesToPlace (c : ClientContext) (buffer : Nat) (vec : List VInterval) (WRs : List WR) :
    Prop where
  fetched :
    ∀ (words' : Nat → Nat) (mem : Nat → Nat) (before after : List VInterval) (i : VInterval),
      vec = before ++ i :: after → ∀ t < i.length,
        Memory.store mem (WRs.flatMap (WR.transfer { c with words := words' }))
        (buffer + words before + t) = words' (c.edge_offset i.v + i.start + t)
  tiles : Tiles buffer (WRs.map fun r => (r.sge.addr, r.sge.length / 4)) (buffer + words vec)
  marked : ∀ a, a ∈ signBuffer vec buffer ↔ ∃ before i after, vec = before ++ i :: after ∧
    (a = buffer + words before ∨ a = buffer + words before + (i.length - 1))

/-- What one READ can fetch of a run: its words fit the length of a scatter entry, and no vertex but
    the last has more edges than a degree can say. -/
def RunFits (c : ClientContext) (run : List VInterval) : Prop :=
  words run < 2 ^ 30 ∧
    ∀ i ∈ run.dropLast,
      adjacencyEnd c.edge_offset c.num_vertices c.num_edges i.v - c.edge_offset i.v < 2 ^ 32

def RunsFit (c : ClientContext) (vec : List VInterval) : Prop :=
  ∀ run ∈ vec.splitBy VInterval.follows, RunFits c run

section Reads

variable {c : ClientContext} {buffer : Nat} {vec : List VInterval} {WRs : List WR}

/-- The words of an interval, on the server. -/
def wordsOf (c : ClientContext) (i : VInterval) : List Nat :=
  (List.range i.length).map fun t => c.words (c.edge_offset i.v + i.start + t)

@[simp] theorem length_wordsOf (i : VInterval) : (wordsOf c i).length = i.length := by
  rw [wordsOf, List.length_map, List.length_range]

@[simp] theorem length_flatMap_wordsOf (vec : List VInterval) :
    (vec.flatMap (wordsOf c)).length = words vec := by
  induction vec with
  | nil => rfl
  | cons i vec ih => rw [List.flatMap_cons, List.length_append, length_wordsOf, ih, words_cons]

/-- The work request of a short interval reads its words. -/
theorem transfer_workRequest {i : VInterval} (hshort : i.length < 2 ^ 30) (p : Slot) :
    (workRequest c buffer i p).transfer c = Memory.segment buffer (wordsOf c i) := by
  have hlength : i.length * 4 % 2 ^ 32 / 4 = i.length := by omega
  rw [WR.transfer, wordsOf]
  simp only [workRequest, hlength]
  congr 1
  refine List.map_congr_left fun k _ => ?_
  rw [ClientContext.remote]
  congr 1
  omega

/-- Something for each interval, at the place where its words go. -/
def placed {β : Type*} (g : Nat → VInterval → β) : Nat → List VInterval → List β
  | _, [] => []
  | a, i :: vec => g a i :: placed g (a + i.length) vec

@[simp] theorem length_placed {β : Type*} (g : Nat → VInterval → β) (a : Nat)
    (vec : List VInterval) :
    (placed g a vec).length = vec.length := by
  induction vec generalizing a with
  | nil => rfl
  | cons i vec ih => rw [placed, List.length_cons, List.length_cons, ih]

theorem getElem_placed {β : Type*} (g : Nat → VInterval → β) (a : Nat) (vec : List VInterval)
    (k : Nat) (h : k < (placed g a vec).length) (h' : k < vec.length) :
    (placed g a vec)[k] = g (a + words (vec.take k)) vec[k] := by
  induction vec generalizing a k with
  | nil => exact absurd h' (Nat.not_lt_zero k)
  | cons i vec ih =>
      cases k with
      | zero => rfl
      | succ k =>
          have hrest := ih (a + i.length) k (by simpa using h') (Nat.lt_of_succ_lt_succ h')
          rw [Nat.add_assoc] at hrest
          simp only [placed, List.getElem_cons_succ, List.take_succ_cons, words_cons, hrest]

/-- The requests `make_WRs` builds, in terms of the intervals. -/
theorem map_makeWRs {β : Type*} (policy : GrowthPolicy) (c : ClientContext) (fresh RDMA_area : Nat)
    (vec : List VInterval) (f : WR → β) (g : Nat → VInterval → β)
    (hfg : ∀ buffer i p, i ∈ vec → f (workRequest c buffer i p) = g buffer i) :
    (makeWRs policy c fresh vec RDMA_area).items.map f = placed g RDMA_area vec := by
  apply List.ext_getElem
  · rw [List.length_map, length_placed, length_makeWRs]
  · intro k hk hk'
    have hvec : k < vec.length := by rwa [length_placed] at hk'
    obtain ⟨p, hitem⟩ :=
      makeWRs_item policy c fresh RDMA_area vec (by rwa [List.length_map] at hk) hvec
    rw [List.getElem_map, hitem, hfg _ _ p (List.getElem_mem hvec), getElem_placed]

/-- The local segments tile the buffer exactly if no length in bytes overflows. -/
theorem tiles_placed_iff (vec : List VInterval) (a : Nat) :
    Tiles a (placed (fun a i => (a, i.length * 4 % 2 ^ 32 / 4)) a vec) (a + words vec) ↔
      ∀ i ∈ vec, i.length < 2 ^ 30 := by
  induction vec generalizing a with
  | nil => simp [placed, Tiles]
  | cons i vec ih =>
      rw [placed, Tiles, List.forall_mem_cons, words_cons, ← Nat.add_assoc]
      by_cases hshort : i.length < 2 ^ 30
      · have hlength : i.length * 4 % 2 ^ 32 / 4 = i.length := by omega
        rw [hlength, ih]
        exact ⟨fun h => ⟨hshort, h.2⟩, fun h => ⟨rfl, h.2⟩⟩
      · -- What comes next is not where the short read ends.
        have hless : i.length * 4 % 2 ^ 32 / 4 < i.length := by omega
        refine iff_of_false ?_ fun h => hshort h.1
        rintro ⟨-, htiles⟩
        cases vec with
        | nil =>
            simp only [placed, Tiles, words_nil, Nat.add_zero] at htiles
            omega
        | cons j vec =>
            simp only [placed, Tiles] at htiles
            omega

/-- Short reads, one behind the other, write one segment. -/
theorem flatten_placed (c : ClientContext) (vec : List VInterval) (a : Nat) :
    (placed (fun a i => Memory.segment a (wordsOf c i)) a vec).flatten =
      Memory.segment a (vec.flatMap (wordsOf c)) := by
  induction vec generalizing a with
  | nil => rfl
  | cons i vec ih =>
      rw [placed, List.flatten_cons, ih, List.flatMap_cons, Memory.segment_append, length_wordsOf]

/-- What all reads write. -/
theorem transfers_makeWRs (policy : GrowthPolicy) (c : ClientContext) (fresh RDMA_area : Nat)
    {vec : List VInterval} (hshort : ∀ i ∈ vec, i.length < 2 ^ 30) :
    (makeWRs policy c fresh vec RDMA_area).items.flatMap (WR.transfer c) =
      Memory.segment RDMA_area (vec.flatMap (wordsOf c)) := by
  rw [List.flatMap_def, map_makeWRs policy c fresh RDMA_area vec (WR.transfer c)
    (fun a i => Memory.segment a (wordsOf c i))
    (fun _ i p hi => transfer_workRequest (hshort i hi) p), flatten_placed]

/-- The marks `sign_buffer` writes. -/
theorem mem_signBuffer (hlength : ∀ i ∈ vec, 0 < i.length) (a : Nat) :
    a ∈ signBuffer vec buffer ↔ ∃ before i after, vec = before ++ i :: after ∧
      (a = buffer + words before ∨ a = buffer + words before + (i.length - 1)) := by
  induction vec generalizing buffer with
  | nil => simp [signBuffer]
  | cons i vec ih =>
      have hpos := hlength i List.mem_cons_self
      have hlt : i.length < 2 ^ 32 := Nat.mod_lt _ (by decide)
      have hlast : (i.length + (2 ^ 32 - 1)) % 2 ^ 32 = i.length - 1 := by omega
      rw [signBuffer, List.mem_cons, List.mem_cons, hlast,
        ih fun j hj => hlength j (List.mem_cons_of_mem i hj)]
      constructor
      · rintro (rfl | rfl | ⟨before, j, after, rfl, ha⟩)
        · exact ⟨[], i, vec, rfl, Or.inl rfl⟩
        · exact ⟨[], i, vec, rfl, Or.inr rfl⟩
        · refine ⟨i :: before, j, after, rfl, ?_⟩
          rw [words_cons, ← Nat.add_assoc]
          exact ha
      · rintro ⟨before, j, after, heq, ha⟩
        cases before with
        | nil =>
            obtain ⟨rfl, rfl⟩ := List.cons.inj heq
            rcases ha with ha | ha
            · exact Or.inl ha
            · exact Or.inr (Or.inl ha)
        | cons k before =>
            obtain ⟨rfl, rfl⟩ := List.cons.inj heq
            rw [words_cons, ← Nat.add_assoc] at ha
            exact Or.inr (Or.inr ⟨before, j, after, rfl, ha⟩)

/-! ### Runs -/

/-- On the server the words of each interval lie behind those of the one before it. -/
def Contiguous (c : ClientContext) (run : List VInterval) : Prop :=
  run.IsChain fun i j => c.edge_offset i.v + i.start + i.length = c.edge_offset j.v + j.start

theorem Contiguous.words_eq {i : VInterval} {run : List VInterval} (h : Contiguous c (i :: run)) :
    (List.range (words (i :: run))).map (fun t => c.words (c.edge_offset i.v + i.start + t)) =
      (i :: run).flatMap (wordsOf c) := by
  induction run generalizing i with
  | nil =>
      rw [words_cons, words_nil, Nat.add_zero, List.flatMap_singleton]
      rfl
  | cons j run ih =>
      obtain ⟨hij, hrest⟩ := List.isChain_cons_cons.1 h
      rw [words_cons, List.range_add, List.map_append, List.flatMap_cons, ← ih hrest, List.map_map,
        ← hij]
      congr 1
      refine List.map_congr_left fun t _ => ?_
      rw [Function.comp_apply, ← Nat.add_assoc]

/-- The words of a merged run whose words number fewer than 2^32. -/
theorem wordsOf_mergeRun (c : ClientContext) {i : VInterval} {run : List VInterval}
    (hlt : words (i :: run) < 2 ^ 32) : wordsOf c (mergeRun (i :: run)) =
      (List.range (words (i :: run))).map fun t => c.words (c.edge_offset i.v + i.start + t) := by
  obtain ⟨hv, hstart, hlength⟩ := mergeRun_spec i run
  rw [wordsOf, hv, hstart, hlength, Nat.mod_eq_of_lt hlt]

theorem length_mergeRun {run : List VInterval} (hne : run ≠ []) (hlt : words run < 2 ^ 32) :
    (mergeRun run).length = words run := by
  cases run with
  | nil => exact absurd rfl hne
  | cons i run => rw [(mergeRun_spec i run).2.2, Nat.mod_eq_of_lt hlt]

/-- The merged intervals have as many words as the runs. -/
theorem words_map_mergeRun (runs : List (List VInterval)) (hne : ∀ run ∈ runs, run ≠ [])
    (hlt : ∀ run ∈ runs, words run < 2 ^ 32) : words (runs.map mergeRun) = words runs.flatten := by
  induction runs with
  | nil => rfl
  | cons run runs ih =>
      rw [List.map_cons, words_cons, List.flatten_cons, words_append,
        length_mergeRun (hne run List.mem_cons_self) (hlt run List.mem_cons_self),
        ih (fun r hr => hne r (List.mem_cons_of_mem run hr))
          (fun r hr => hlt r (List.mem_cons_of_mem run hr))]

end Reads

/-! ### When the reads are right -/

section Runs

variable {c : ClientContext} {end_ capacity : Nat} {vec run : List VInterval}

/-- A run of a batch. -/
theorem Batch.mem_runs (h : Batch c.degree end_ capacity vec)
    (hrun : run ∈ vec.splitBy VInterval.follows) :
    run ≠ [] ∧ run <:+: vec ∧ run.IsChain (Abuts c.degree) ∧
      run.IsChain (fun i j => VInterval.follows i j = true) := by
  have hpart : run <:+: vec := by
    have hflatten := List.infix_of_mem_flatten hrun
    rwa [List.flatten_splitBy] at hflatten
  exact ⟨List.ne_nil_of_mem_splitBy hrun, hpart, h.chain.infix hpart,
    List.isChain_of_mem_splitBy hrun⟩

/-- Where one vertex follows another in a batch, the words of the two are contiguous if and only if
    the degree of the first did not overflow. -/
theorem Batch.contiguous_iff (h : Batch c.degree end_ capacity vec)
    (hb : Bounded c.degree end_ capacity)
    (hindex : WellFormedIndex c.edge_offset c.num_vertices c.num_edges)
    (hend : end_ ≤ c.num_vertices) {i j : VInterval} (hi : i ∈ vec) (hj : j ∈ vec)
    (habuts : Abuts c.degree i j) (hfollows : i.follows j = true) :
    c.edge_offset i.v + i.start + i.length = c.edge_offset j.v + j.start ↔
      adjacencyEnd c.edge_offset c.num_vertices c.num_edges i.v - c.edge_offset i.v < 2 ^ 32 := by
  have hlength := h.length_eq hb hi
  have hnonempty := h.nonempty i hi
  have hiv := h.lt i hi
  have hjv := h.lt j hj
  have hlt := hb.end_lt
  have hnext : i.v + 1 = j.v := by
    have hmod : (i.v + 1) % 2 ^ 32 = j.v := of_decide_eq_true hfollows
    rwa [Nat.mod_eq_of_lt (by omega)] at hmod
  have hends := habuts.ends
  have hbegins := habuts.begins
  have hmono := hindex.mono i.v (by omega)
  have hdegree : c.degree i.v = (c.edge_offset (i.v + 1) - c.edge_offset i.v) % 2 ^ 32 := by
    rw [ClientContext.degree, hindex.getNumEdges_mod (by omega), adjacencyEnd, if_neg (by omega)]
  rw [adjacencyEnd, if_neg (by omega), ← hnext, hbegins, hlength]
  omega

theorem mem_dropLast_iff {α : Type*} {l : List α} {a : α} :
    a ∈ l.dropLast ↔ ∃ l₁ b l₂, l = l₁ ++ a :: b :: l₂ := by
  constructor
  · intro h
    rcases List.eq_nil_or_concat' l with rfl | ⟨init, last, rfl⟩
    · exact absurd h List.not_mem_nil
    · rw [List.dropLast_concat] at h
      obtain ⟨l₁, l₂, rfl⟩ := List.append_of_mem h
      cases l₂ with
      | nil => exact ⟨l₁, last, [], by simp⟩
      | cons b l₂ => exact ⟨l₁, b, l₂ ++ [last], by simp⟩
  · rintro ⟨l₁, b, l₂, rfl⟩
    rw [List.dropLast_append_of_ne_nil (List.cons_ne_nil _ _), List.dropLast_cons_cons]
    exact List.mem_append_right l₁ List.mem_cons_self

/-- A run of a batch is contiguous if and only if no degree in it but the last overflows. -/
theorem Batch.contiguous_run_iff (h : Batch c.degree end_ capacity vec)
    (hb : Bounded c.degree end_ capacity)
    (hindex : WellFormedIndex c.edge_offset c.num_vertices c.num_edges)
    (hend : end_ ≤ c.num_vertices) (hrun : run ∈ vec.splitBy VInterval.follows) : Contiguous c run ↔
      ∀ i ∈ run.dropLast,
        adjacencyEnd c.edge_offset c.num_vertices c.num_edges i.v - c.edge_offset i.v < 2 ^ 32 := by
  obtain ⟨-, hpart, habuts, hfollows⟩ := h.mem_runs hrun
  have hpair : ∀ i j l₁ l₂, run = l₁ ++ i :: j :: l₂ →
      (c.edge_offset i.v + i.start + i.length = c.edge_offset j.v + j.start ↔
        adjacencyEnd c.edge_offset c.num_vertices c.num_edges i.v - c.edge_offset i.v <
          2 ^ 32) := by
    intro i j l₁ l₂ heq
    have hi : i ∈ vec := hpart.subset (by rw [heq]; simp)
    have hj : j ∈ vec := hpart.subset (by rw [heq]; simp)
    exact h.contiguous_iff hb hindex hend hi hj
      (List.isChain_iff_forall_rel_of_append_cons_cons.1 habuts heq)
      (List.isChain_iff_forall_rel_of_append_cons_cons.1 hfollows heq)
  rw [Contiguous, List.isChain_iff_forall_rel_of_append_cons_cons]
  constructor
  · intro hchain i hi
    obtain ⟨l₁, j, l₂, heq⟩ := mem_dropLast_iff.1 hi
    exact (hpair i j l₁ l₂ heq).1 (hchain heq)
  · intro hdegrees i j l₁ l₂ heq
    exact (hpair i j l₁ l₂ heq).2 (hdegrees i (mem_dropLast_iff.2 ⟨l₁, j, l₂, heq⟩))

theorem words_le_of_infix (hpart : run <:+: vec) : words run ≤ words vec := by
  obtain ⟨before, after, rfl⟩ := hpart
  rw [words_append, words_append]
  omega

/-- The words a merged run is read from, whether they are the right ones or not. -/
theorem flatMap_wordsOf_mergeRun {runs : List (List VInterval)} (hne : ∀ run ∈ runs, run ≠ [])
    (hlt : ∀ run ∈ runs, words run < 2 ^ 32) (hcontiguous : ∀ run ∈ runs, Contiguous c run) :
    (runs.map mergeRun).flatMap (wordsOf c) = runs.flatten.flatMap (wordsOf c) := by
  induction runs with
  | nil => rfl
  | cons run runs ih =>
      rw [List.map_cons, List.flatMap_cons, List.flatten_cons, List.flatMap_append,
        ih (fun r hr => hne r (List.mem_cons_of_mem run hr))
          (fun r hr => hlt r (List.mem_cons_of_mem run hr))
          (fun r hr => hcontiguous r (List.mem_cons_of_mem run hr))]
      congr 1
      cases run with
      | nil => exact absurd rfl (hne [] List.mem_cons_self)
      | cons i run =>
          rw [wordsOf_mergeRun c (hlt _ List.mem_cons_self),
            (hcontiguous _ List.mem_cons_self).words_eq]

/-- What the reads of the merged runs write, whatever the server holds. -/
theorem transfers_runs (policy : GrowthPolicy) (c : ClientContext) (fresh buffer : Nat)
    (words' : Nat → Nat) {runs : List (List VInterval)} (hne : ∀ run ∈ runs, run ≠ [])
    (hshort : ∀ run ∈ runs, words run < 2 ^ 30) :
    (makeWRs policy c fresh (runs.map mergeRun) buffer).items.flatMap
      (WR.transfer { c with words := words' }) =
      Memory.segment buffer ((runs.map mergeRun).flatMap (wordsOf { c with words := words' })) := by
  have hmerged : ∀ i ∈ runs.map mergeRun, i.length < 2 ^ 30 := by
    rw [List.forall_mem_map]
    intro run hrun
    have hlt := hshort run hrun
    rw [length_mergeRun (hne run hrun) (by omega)]
    exact hlt
  exact transfers_makeWRs policy { c with words := words' } fresh buffer hmerged

/-- What is left in the place of one run. -/
theorem holds_run (c : ClientContext) (mem : Nat → Nat) (buffer : Nat)
    {front back : List (List VInterval)} (hne : ∀ r ∈ front ++ run :: back, r ≠ [])
    (hlt : ∀ r ∈ front ++ run :: back, words r < 2 ^ 32) :
    Memory.Holds (Memory.store mem
        (Memory.segment buffer (((front ++ run :: back).map mergeRun).flatMap (wordsOf c))))
      (buffer + words front.flatten) (wordsOf c (mergeRun run)) := by
  have hholds := Memory.store_segment mem buffer
    (((front ++ run :: back).map mergeRun).flatMap (wordsOf c))
  have hfront : ((front.map mergeRun).flatMap (wordsOf c)).length = words front.flatten := by
    rw [length_flatMap_wordsOf,
      words_map_mergeRun front (fun r hr => hne r (List.mem_append_left _ hr))
        (fun r hr => hlt r (List.mem_append_left _ hr))]
  generalize Memory.store mem _ = mem' at hholds ⊢
  rw [List.map_append, List.map_cons, List.flatMap_append, List.flatMap_cons, Memory.holds_append,
    Memory.holds_append, hfront] at hholds
  exact hholds.2.1

/-- Reads that are right are contiguous: the words of neighbours come from neighbouring places. -/
theorem contiguous_of_fetched {policy : GrowthPolicy} {fresh buffer : Nat}
    {runs : List (List VInterval)} (hne : ∀ run ∈ runs, run ≠ [])
    (hshort : ∀ run ∈ runs, words run < 2 ^ 30) (hpos : ∀ i ∈ runs.flatten, 0 < i.length)
    (hfetched : ∀ (before after : List VInterval) (i : VInterval),
      runs.flatten = before ++ i :: after →
      ∀ t < i.length,
        Memory.store (fun _ => 0) ((makeWRs policy c fresh (runs.map mergeRun) buffer).items.flatMap
        (WR.transfer { c with words := fun a => a })) (buffer + words before + t) =
        c.edge_offset i.v + i.start + t)
    (hrun : run ∈ runs) : Contiguous c run := by
  obtain ⟨front, back, rfl⟩ := List.append_of_mem hrun
  have hlt : ∀ r ∈ front ++ run :: back, words r < 2 ^ 32 := fun r hr => by
    have hlt := hshort r hr
    omega
  rw [transfers_runs policy c fresh buffer _ hne hshort] at hfetched
  have hread := holds_run { c with words := fun a => a } (fun _ => 0) buffer hne hlt
  generalize Memory.store (fun _ => 0) _ = mem at hread hfetched
  obtain ⟨first, rest, hfirst⟩ := List.exists_cons_of_ne_nil (hne run hrun)
  have hwords : wordsOf { c with words := fun a => a } (mergeRun run) =
      (List.range (words run)).map fun t => c.edge_offset first.v + first.start + t := by
    rw [hfirst]
    exact wordsOf_mergeRun _ (by rw [← hfirst]; exact hlt run hrun)
  rw [hwords] at hread
  rw [Contiguous, List.isChain_iff_forall_rel_of_append_cons_cons]
  intro i j l₁ l₂ heq
  have hlength : words run = words l₁ + (i.length + (j.length + words l₂)) := by
    rw [heq, words_append, words_cons, words_cons]
  have hflatten :
      (front ++ run :: back).flatten = front.flatten ++ l₁ ++ i :: (j :: l₂ ++ back.flatten) := by
    rw [List.flatten_append, List.flatten_cons, heq]
    simp
  have hflatten' : (front ++ run :: back).flatten =
      (front.flatten ++ l₁ ++ [i]) ++ j :: (l₂ ++ back.flatten) := by
    rw [hflatten]
    simp
  have hi : 0 < i.length := hpos i (by rw [hflatten]; simp)
  have hj : 0 < j.length := hpos j (by rw [hflatten]; simp)
  have hread_i := hread (words l₁ + (i.length - 1))
    (by rw [List.length_map, List.length_range]; omega)
  have hread_j := hread (words l₁ + i.length) (by rw [List.length_map, List.length_range]; omega)
  rw [List.getElem_map, List.getElem_range] at hread_i hread_j
  have hfetched_i := hfetched _ _ i hflatten (i.length - 1) (by omega)
  have hfetched_j := hfetched _ _ j hflatten' 0 hj
  have hplace_i : buffer + words (front.flatten ++ l₁) + (i.length - 1) =
      buffer + words front.flatten + (words l₁ + (i.length - 1)) := by
    rw [words_append]
    omega
  have hplace_j : buffer + words (front.flatten ++ l₁ ++ [i]) + 0 =
      buffer + words front.flatten + (words l₁ + i.length) := by
    rw [words_append, words_append, words_cons, words_nil]
    omega
  rw [hplace_i, hread_i] at hfetched_i
  rw [hplace_j, hread_j] at hfetched_j
  omega

/-- The reads of a batch are right if and only if every run in it fits one READ. -/
theorem Batch.fetches_iff (h : Batch c.degree end_ capacity vec)
    (hb : Bounded c.degree end_ capacity)
    (hindex : WellFormedIndex c.edge_offset c.num_vertices c.num_edges)
    (hend : end_ ≤ c.num_vertices) (policy : GrowthPolicy) (fresh buffer : Nat) :
    FetchesToPlace c buffer vec
        (makeWRs policy c fresh ((vec.splitBy VInterval.follows).map mergeRun) buffer).items ↔
        RunsFit c vec := by
  obtain ⟨runs, hruns⟩ : ∃ runs, runs = vec.splitBy VInterval.follows := ⟨_, rfl⟩
  have hflatten : runs.flatten = vec := by rw [hruns, List.flatten_splitBy]
  have hne : ∀ run ∈ runs, run ≠ [] := fun run hrun => (h.mem_runs (hruns ▸ hrun)).1
  have hlt : ∀ run ∈ runs, words run < 2 ^ 32 := fun run hrun => by
    have hle := words_le_of_infix (h.mem_runs (hruns ▸ hrun)).2.1
    have hwords := h.words_le hb
    have hcapacity := hb.capacity_lt
    omega
  have hcontiguous : ∀ run ∈ runs, (Contiguous c run ↔ ∀ i ∈ run.dropLast,
      adjacencyEnd c.edge_offset c.num_vertices c.num_edges i.v - c.edge_offset i.v < 2 ^ 32) :=
    fun run hrun => h.contiguous_run_iff hb hindex hend (hruns ▸ hrun)
  have hwords : words (runs.map mergeRun) = words vec := by
    rw [words_map_mergeRun runs hne hlt, hflatten]
  have htiles : Tiles buffer ((makeWRs policy c fresh (runs.map mergeRun) buffer).items.map
      fun r => (r.sge.addr, r.sge.length / 4)) (buffer + words vec) ↔
      ∀ run ∈ runs, words run < 2 ^ 30 := by
    rw [map_makeWRs policy c fresh buffer _ _ (fun a i => (a, i.length * 4 % 2 ^ 32 / 4))
      (fun _ _ _ _ => rfl), ← hwords, tiles_placed_iff, List.forall_mem_map]
    refine forall₂_congr fun run hrun => ?_
    rw [length_mergeRun (hne run hrun) (hlt run hrun)]
  rw [RunsFit, ← hruns]
  constructor
  · intro hfetches run hrun
    have hshort := htiles.1 hfetches.tiles
    have hfetched := hfetches.fetched (fun a => a) (fun _ => 0)
    rw [← hflatten] at hfetched
    have hpos : ∀ i ∈ runs.flatten, 0 < i.length := fun i hi => h.length_pos hb (hflatten ▸ hi)
    exact ⟨hshort run hrun,
      (hcontiguous run hrun).1 (contiguous_of_fetched hne hshort hpos hfetched hrun)⟩
  · intro hfit
    have hshort : ∀ run ∈ runs, words run < 2 ^ 30 := fun run hrun => (hfit run hrun).1
    refine ⟨fun words' mem before after i heq t ht => ?_, htiles.2 hshort,
      mem_signBuffer fun i => h.length_pos hb⟩
    have hruns' : ∀ run ∈ runs, Contiguous { c with words := words' } run := fun run hrun =>
      (hcontiguous run hrun).2 (hfit run hrun).2
    have htransfers := transfers_runs policy c fresh buffer words' hne hshort
    rw [flatMap_wordsOf_mergeRun hne hlt hruns', hflatten, heq, List.flatMap_append,
      List.flatMap_cons] at htransfers
    rw [htransfers]
    have hholds := Memory.store_segment mem buffer
      (before.flatMap (wordsOf { c with words := words' }) ++
        (wordsOf { c with words := words' } i ++
          after.flatMap (wordsOf { c with words := words' })))
    rw [Memory.holds_append, Memory.holds_append, length_flatMap_wordsOf] at hholds
    rw [hholds.2.1 t (by rw [length_wordsOf]; exact ht)]
    simp only [wordsOf, List.getElem_map, List.getElem_range]

end Runs

/-- The work requests of a batch that `next_batch` returns fetch every interval to its place if and
    only if each run of intervals that follow one another fits one READ. -/
theorem coalesced_requests_iff {threads : Nat} (policy : GrowthPolicy) (c : ClientContext)
    (b : Bitmap threads) (start end_ capacity fresh RDMA_area fuel : Nat)
    (batches : List (List VInterval)) (vec : List VInterval)
    (hindex : WellFormedIndex c.edge_offset c.num_vertices c.num_edges)
    (hend : end_ ≤ c.num_vertices) (hpos : 0 < capacity) (hcapacity : capacity < 2 ^ 32)
    (hdrain : drain fuel c.degree (NextBatch.new b start end_ capacity) = some batches)
    (hvec : vec ∈ batches) (hne : vec ≠ []) :
    ∃ combined, coalesceIntervals vec = some combined ∧
      (FetchesToPlace c RDMA_area vec (makeWRs policy c fresh combined RDMA_area).items ↔
        RunsFit c vec) := by
  have hdegree : ∀ v, c.degree v < 2 ^ 32 := fun v => Nat.mod_lt _ (by decide)
  have hvertices := hindex.num_vertices_lt
  have hb : Bounded c.degree end_ capacity := ⟨hpos, hcapacity, by omega, hdegree⟩
  have hbatch := batch_of_drain b hb hdrain hvec
  exact ⟨_, coalesceIntervals_eq hne, hbatch.fetches_iff hb hindex hend policy fresh RDMA_area⟩

/-- Vertex 0 with two edges, vertex 1 with one. -/
def twoVertices : ClientContext where
  num_vertices := 2
  num_edges := 3
  edge_offset := fun v => if v = 0 then 0 else 2
  peer_addr := 4096
  peer_rkey := 7
  lkey := 5
  words := fun _ => 0

/-- A batch of both vertices, fetched by one READ. -/
theorem coalesced_requests_two : ∃ combined,
    coalesceIntervals [⟨0, 2, 0, 2⟩, ⟨1, 1, 0, 1⟩] = some combined ∧
      FetchesToPlace twoVertices 0 [⟨0, 2, 0, 2⟩, ⟨1, 1, 0, 1⟩]
        (makeWRs .doubling twoVertices 0 combined 0).items := by
  have hindex : WellFormedIndex twoVertices.edge_offset 2 3 := by
    refine ⟨by decide, by decide, fun v hv => ?_, fun v hv => ?_⟩
    · obtain rfl : v = 0 := by omega
      decide
    · simp only [twoVertices]
      split <;> omega
  have hiff := coalesced_requests_iff .doubling twoVertices ((Bitmap.fresh 2 : Bitmap 1).setAll 0) 0
    2 8 0 0 5 [[⟨0, 2, 0, 2⟩, ⟨1, 1, 0, 1⟩]] [⟨0, 2, 0, 2⟩, ⟨1, 1, 0, 1⟩] hindex (Nat.le_refl 2)
    (by decide) (by decide) (by decide) List.mem_cons_self (List.cons_ne_nil _ _)
  obtain ⟨combined, hcombined, hfetches⟩ := hiff
  exact ⟨combined, hcombined, hfetches.2 (by unfold RunsFit RunFits; decide)⟩

/-- A vertex with 2^30 edges. -/
def longVertex : ClientContext where
  num_vertices := 1
  num_edges := 2 ^ 30
  edge_offset := fun _ => 0
  peer_addr := 4096
  peer_rkey := 7
  lkey := 5
  words := fun _ => 0

/-- In a buffer that holds them, 2^30 edges are fetched by a READ of no bytes. -/
theorem long_run_not_fetched :
    drain 5 longVertex.degree (NextBatch.new (Bitmap.fresh 1 : Bitmap 1) 0 1 (2 ^ 30)) =
        some [[⟨0, 2 ^ 30, 0, 2 ^ 30⟩]] ∧
      coalesceIntervals [⟨0, 2 ^ 30, 0, 2 ^ 30⟩] = some [⟨0, 2 ^ 30, 0, 2 ^ 30⟩] ∧
      ¬ FetchesToPlace longVertex 0 [⟨0, 2 ^ 30, 0, 2 ^ 30⟩]
        (makeWRs .doubling longVertex 0 [⟨0, 2 ^ 30, 0, 2 ^ 30⟩] 0).items := by
  refine ⟨by decide, by decide, fun h => ?_⟩
  have hend : 0 + 0 = 0 + 2 ^ 30 := h.tiles.2
  exact absurd hend (by decide)

end FamGraph.Edgemap
