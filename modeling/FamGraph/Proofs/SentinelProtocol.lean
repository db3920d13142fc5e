/-
Module: FamGraph.Proofs.SentinelProtocol
Layer: Proofs
Purpose: The sentinel protocol of the batch drivers is sound: although a worker only looks at the
  first and the last word of an adjacency list, and READs posted before an ENOMEM stay in flight,
  every list it hands out is complete, and it never writes a mark while a word is in flight. The
  adjacency lists of a window are one list restreamed from its head; what has arrived of it is a
  prefix, and its last word is the last one in flight.
Trusted boundary: none
Main exports: Inv, inv_step, inv_of_reachable, sentinel_protocol_sound
-/
import FamGraph.Core.SentinelProtocol
import FamGraph.Proofs.BatchDrivers
import FamGraph.Foundation.Restream

namespace FamGraph

open Restream (reach Arriving Final)

variable {threads : Nat} {o : BuildOptions} {c : ClientContext} {edge_buf edge_buf_size : Nat}

/-- The words in flight to a window that holds the vertices `vs`: `q` are their places in the
    concatenation of the adjacency lists, of which `d` words have arrived. -/
structure InFlight (c : ClientContext) (edge_buf : Nat) (vs : List Nat) (mem : Nat → Nat)
    (queue : List (Nat × Nat)) (q : List Nat) (d : Nat) : Prop where
  queue_eq : queue = q.map (Restream.word NULL_VERT edge_buf (vs.flatMap c.adjacency))
  arriving : Arriving NULL_VERT edge_buf (vs.flatMap c.adjacency) (marksOf c edge_buf vs) mem q d
  final : Final (c.edgesIn vs) q d

/-- A packer of task `t` that has got to `s.v`. -/
structure Packs (o : BuildOptions) (c : ClientContext) (edge_buf edge_buf_size : Nat)
    (t : Task threads) (start : Nat) (rs : List VertexRange) (s : PackState) : Prop where
  packed : Packed o c edge_buf edge_buf_size start t.range_end t.visit rs s
  range_le : t.range_end ≤ c.num_vertices

/-- While decoding, at `v` with `vs` to come: `arrived` words of the list of `v`, and all before it,
    have arrived. -/
def Decoding (o : BuildOptions) (c : ClientContext) (edge_buf edge_buf_size : Nat)
    (t : Task threads) (s : PackState) (v : Nat) (vs : List Nat) (e_buf arrived : Nat)
    (mem : Nat → Nat) (queue : List (Nat × Nat)) : Prop :=
  ∃ start rs past q d, Packs o c edge_buf edge_buf_size t start rs s ∧
    InFlight c edge_buf (fetched c t.visit start s.v) mem queue q d ∧
    fetched c t.visit start s.v = past ++ v :: vs ∧ e_buf = edge_buf + c.edgesIn past ∧
    c.edgesIn past + arrived ≤ d

/-- While posting, with `k` requests of the chain accepted in this attempt: what was sent reaches to
    their end, and the last word is not sent before the last request is. -/
def Posting (o : BuildOptions) (c : ClientContext) (edge_buf edge_buf_size : Nat) (t : Task threads)
    (s : PackState) (k : Nat) (mem : Nat → Nat) (queue : List (Nat × Nat)) : Prop :=
  ∃ start rs q d, Packs o c edge_buf edge_buf_size t start rs s ∧
    InFlight c edge_buf (fetched c t.visit start s.v) mem queue q d ∧ k ≤ rs.length ∧
    0 < rs.length ∧ c.edgesIn ((rs.take k).flatMap VertexRange.vertices) ≤ reach d q ∧
    (k < rs.length → c.edgesIn (fetched c t.visit start s.v) - 1 ∉ q ∧
      d < c.edgesIn (fetched c t.visit start s.v))

/-- The invariant of a worker and its queue pair. -/
def Inv (o : BuildOptions) (c : ClientContext) (edge_buf edge_buf_size : Nat) :
    WorkerState threads → Prop
  | ⟨_, queue, .idle _⟩ => queue = []
  | ⟨_, queue, .top t _ _⟩ => queue = [] ∧ t.range_end ≤ c.num_vertices
  | ⟨mem, queue, .packing t s⟩ => queue = [] ∧
      (∃ start rs, Packs o c edge_buf edge_buf_size t start rs s) ∧ ∀ x ∈ s.marks, mem x = NULL_VERT
  | ⟨mem, queue, .marking t s pending⟩ => queue = [] ∧
      (∃ start rs, Packs o c edge_buf edge_buf_size t start rs s) ∧
      ∃ written, s.marks = written ++ pending ∧ ∀ x ∈ written, mem x = NULL_VERT
  | ⟨mem, queue, .posting t s k⟩ => Posting o c edge_buf edge_buf_size t s k mem queue
  | ⟨mem, queue, .spinFirst t s v vs e_buf⟩ =>
      Decoding o c edge_buf edge_buf_size t s v vs e_buf 0 mem queue
  | ⟨mem, queue, .spinLast t s v vs e_buf⟩ =>
      Decoding o c edge_buf edge_buf_size t s v vs e_buf 1 mem queue
  | ⟨mem, queue, .calling t s v vs e_buf⟩ =>
      Decoding o c edge_buf edge_buf_size t s v vs e_buf (c.degree v) mem queue

/-! ### Words that land -/

/-- A word that lands is the next of the restreamed list. -/
theorem InFlight.land {vs : List Nat} {mem : Nat → Nat} {queue : List (Nat × Nat)} {q : List Nat}
    {d a w : Nat} (h : InFlight c edge_buf vs mem ((a, w) :: queue) q d) :
    ∃ i q', q = i :: q' ∧ i < c.edgesIn vs ∧
      InFlight c edge_buf vs (Function.update mem a w) queue q' (max d (i + 1)) := by
  cases q with
  | nil => exact nomatch h.queue_eq
  | cons i q' =>
      have hqueue := h.queue_eq
      rw [List.map_cons, List.cons.injEq] at hqueue
      obtain ⟨hword, hrest⟩ := hqueue
      have hi : i < c.edgesIn vs := by
        rw [← ClientContext.length_flatMap_adjacency]
        exact h.arriving.lt i List.mem_cons_self
      have hd : d ≤ c.edgesIn vs := by
        rw [← ClientContext.length_flatMap_adjacency]
        exact h.arriving.le
      have hdeliver := h.arriving.deliver
      rw [← hword] at hdeliver
      exact ⟨i, q', rfl, hi, hrest, hdeliver, h.final.deliver hi hd⟩

theorem Decoding.land {t : Task threads} {s : PackState} {v : Nat} {vs : List Nat}
    {e_buf arrived a w : Nat} {mem : Nat → Nat} {queue : List (Nat × Nat)}
    (h : Decoding o c edge_buf edge_buf_size t s v vs e_buf arrived mem ((a, w) :: queue)) :
    Decoding o c edge_buf edge_buf_size t s v vs e_buf arrived (Function.update mem a w) queue := by
  obtain ⟨start, rs, past, q, d, hpacks, hflight, hsplit, hbuf, harrived⟩ := h
  obtain ⟨i, q', -, -, hflight'⟩ := hflight.land
  exact ⟨start, rs, past, q', _, hpacks, hflight', hsplit, hbuf,
    Nat.le_trans harrived (Nat.le_max_left d (i + 1))⟩

theorem Posting.land {t : Task threads} {s : PackState} {k a w : Nat} {mem : Nat → Nat}
    {queue : List (Nat × Nat)}
    (h : Posting o c edge_buf edge_buf_size t s k mem ((a, w) :: queue)) :
    Posting o c edge_buf edge_buf_size t s k (Function.update mem a w) queue := by
  obtain ⟨start, rs, q, d, hpacks, hflight, hk, hpos, hreach, hlast⟩ := h
  obtain ⟨i, q', rfl, hi, hflight'⟩ := hflight.land
  refine ⟨start, rs, q', _, hpacks, hflight', hk, hpos, hreach, ?_⟩
  intro hlt
  obtain ⟨hnot, hd⟩ := hlast hlt
  rw [List.mem_cons, not_or] at hnot
  exact ⟨hnot.2, Nat.max_lt.2 ⟨hd, by omega⟩⟩

/-! ### Packing and posting -/

/-- A turn of the packer only adds marks. -/
theorem PackState.marks_body (o : BuildOptions) (c : ClientContext) (edge_buf edge_buf_size : Nat)
    (visit : Nat → Visit) (s : PackState) :
    s.marks ++ (s.body o c edge_buf edge_buf_size visit).marks.drop s.marks.length =
      (s.body o c edge_buf edge_buf_size visit).marks := by
  have hearlier : s.marks <+: (s.body o c edge_buf edge_buf_size visit).marks := by
    cases hvisit : visit s.v with
    | skip =>
        rw [PackState.body, hvisit]
    | serve call =>
        rw [PackState.body, hvisit]
    | fetch =>
        rw [PackState.body, hvisit, PackState.fetch]
        simp only
        rw [PackState.request_eq]
        split
        · split
          · exact List.prefix_append _ _
          · exact List.prefix_refl _
        · exact List.prefix_refl _
  obtain ⟨new, hnew⟩ := hearlier
  rw [← hnew, List.drop_left]

section Requests

variable {start range_end : Nat} {visit : Nat → Visit} {rs : List VertexRange} {s : PackState}

/-- Where the words of request `k` begin in the concatenation of the window's lists. -/
theorem edgesIn_take_succ {k : Nat} (hk : k < rs.length) :
    c.edgesIn ((rs.take (k + 1)).flatMap VertexRange.vertices) =
      c.edgesIn ((rs.take k).flatMap VertexRange.vertices) + c.edgesIn rs[k].vertices := by
  rw [← List.take_append_getElem hk, List.flatMap_append, List.flatMap_singleton,
    ClientContext.edgesIn_append]

theorem edgesIn_take_le (c : ClientContext) (rs : List VertexRange) (k : Nat) :
    c.edgesIn ((rs.take k).flatMap VertexRange.vertices) ≤
      c.edgesIn (rs.flatMap VertexRange.vertices) := by
  have hsplit : rs.flatMap VertexRange.vertices =
      (rs.take k).flatMap VertexRange.vertices ++ (rs.drop k).flatMap VertexRange.vertices := by
    rw [← List.flatMap_append, List.take_append_drop]
  rw [hsplit, ClientContext.edgesIn_append]
  exact Nat.le_add_right _ _

/-- Every request reads something. -/
theorem Packed.edgesIn_pos (h : Packed o c edge_buf edge_buf_size start range_end visit rs s)
    {r : VertexRange} (hr : r ∈ rs) : 0 < c.edgesIn r.vertices := by
  have hmem : r.v_s ∈ r.vertices := VertexRange.mem_vertices.2 ⟨Nat.le_refl _, h.ranges r hr⟩
  have hfetched : r.v_s ∈ fetched c visit start s.v := by
    rw [← h.vertices]
    exact List.mem_flatMap.2 ⟨r, hr, hmem⟩
  exact Nat.lt_of_lt_of_le (mem_fetched.1 hfetched).2.2
    (List.single_le_sum (fun _ _ => Nat.zero_le _) _ (List.mem_map_of_mem hmem))

/-- The requests of the chain, one for each range. -/
theorem Packed.getElem?_posted (h : Packed o c edge_buf edge_buf_size start range_end visit rs s)
    (hfits : Fits c edge_buf_size) (hend : range_end ≤ c.num_vertices) (hpos : 0 < rs.length)
    (k : Nat) :
    (posted o c s.window)[k]? = (rs[k]?).map fun r =>
      (List.range' (c.edgesIn ((rs.take k).flatMap VertexRange.vertices))
        (c.edgesIn r.vertices)).map
        (Restream.word NULL_VERT edge_buf ((fetched c visit start s.v).flatMap c.adjacency)) := by
  rw [posted, chain_eq h.arrays hpos (Nat.le_trans h.wrs_le (Nat.le_add_left _ _)), Nat.sub_zero,
    ← List.range_eq_range', List.getElem?_map]
  rcases Nat.lt_or_ge k rs.length with hk | hk
  · obtain ⟨hrange, hlt⟩ := h.range_lt hend (List.getElem_mem hk)
    have hsplit : (fetched c visit start s.v).flatMap c.adjacency =
        ((rs.take k).flatMap VertexRange.vertices).flatMap c.adjacency ++
          rs[k].vertices.flatMap c.adjacency ++
          ((rs.drop (k + 1)).flatMap VertexRange.vertices).flatMap c.adjacency := by
      rw [← h.vertices, ← List.flatMap_append, ← List.flatMap_append, ← List.flatMap_singleton
        (f := VertexRange.vertices), ← List.flatMap_append, ← List.flatMap_append,
        List.take_append_getElem, List.take_append_drop]
    have hwords := Restream.segment_eq_map_word NULL_VERT edge_buf
      (((rs.take k).flatMap VertexRange.vertices).flatMap c.adjacency)
      (rs[k].vertices.flatMap c.adjacency)
      (((rs.drop (k + 1)).flatMap VertexRange.vertices).flatMap c.adjacency)
    rw [← hsplit, ClientContext.length_flatMap_adjacency,
      ClientContext.length_flatMap_adjacency] at hwords
    rw [List.getElem?_range hk, List.getElem?_eq_getElem hk, Option.map_some, Option.map_some,
      readWords_eq hfits h.arrays hk hrange hlt (h.four_edgesIn_lt hfits (List.getElem_mem hk)),
      hwords]
  · rw [List.getElem?_eq_none (by rw [List.length_range]; exact hk), List.getElem?_eq_none hk]
    rfl

theorem Packed.length_posted (h : Packed o c edge_buf edge_buf_size start range_end visit rs s)
    (hpos : 0 < rs.length) : (posted o c s.window).length = rs.length := by
  rw [posted, chain_eq h.arrays hpos (Nat.le_trans h.wrs_le (Nat.le_add_left _ _)), List.length_map,
    List.length_range', Nat.sub_zero]

end Requests

section Posting

variable {t : Task threads} {s : PackState} {mem : Nat → Nat} {queue : List (Nat × Nat)} {k : Nat}

/-- With all marks written and nothing in flight, nothing has arrived yet. -/
theorem posting_start {start : Nat} {rs : List VertexRange}
    (hpacks : Packs o c edge_buf edge_buf_size t start rs s)
    (hmarks : ∀ x ∈ s.marks, mem x = NULL_VERT) (hwrs : 0 < s.wrs) :
    Posting o c edge_buf edge_buf_size t s 0 mem [] := by
  have hpos : 0 < rs.length := hpacks.packed.wrs ▸ hwrs
  have hedges : 0 < c.edgesIn (fetched c t.visit start s.v) := by
    rw [← hpacks.packed.vertices]
    apply Nat.lt_of_lt_of_le (hpacks.packed.edgesIn_pos (List.getElem_mem hpos))
    have hle := edgesIn_take_le c rs 1
    rw [edgesIn_take_succ hpos] at hle
    exact Nat.le_trans (Nat.le_add_left _ _) hle
  have hflight : InFlight c edge_buf (fetched c t.visit start s.v) mem [] [] 0 :=
    { queue_eq := rfl
      arriving := Restream.arriving_start (hpacks.packed.marks ▸ hmarks)
      final := Restream.final_of_not_mem List.not_mem_nil hedges }
  exact ⟨start, rs, [], 0, hpacks, hflight, Nat.zero_le _, hpos, Nat.zero_le _,
    fun _ => ⟨List.not_mem_nil, hedges⟩⟩

/-- A request that is accepted goes on where what was sent reaches to, or before. -/
theorem Posting.accept {words : List (Nat × Nat)} (hfits : Fits c edge_buf_size)
    (h : Posting o c edge_buf edge_buf_size t s k mem queue)
    (hwords : (posted o c s.window)[k]? = some words) :
    Posting o c edge_buf edge_buf_size t s (k + 1) mem (queue ++ words) := by
  obtain ⟨start, rs, q, d, hpacks, hflight, -, hpos, hreach, hlast⟩ := h
  have hpacked := hpacks.packed
  rw [hpacked.getElem?_posted hfits hpacks.range_le hpos] at hwords
  obtain ⟨r, hr, rfl⟩ := Option.map_eq_some_iff.1 hwords
  obtain ⟨hk, rfl⟩ := List.getElem?_eq_some_iff.1 hr
  have hedges : 0 < c.edgesIn rs[k].vertices := hpacked.edgesIn_pos (List.getElem_mem hk)
  have hnext := edgesIn_take_succ (c := c) hk
  have hle := edgesIn_take_le c rs (k + 1)
  rw [hpacked.vertices] at hle
  obtain ⟨hnot, hd⟩ := hlast hk
  have hsent : InFlight c edge_buf (fetched c t.visit start s.v) mem
      (queue ++ (List.range' (c.edgesIn ((rs.take k).flatMap VertexRange.vertices))
        (c.edgesIn rs[k].vertices)).map
          (Restream.word NULL_VERT edge_buf ((fetched c t.visit start s.v).flatMap c.adjacency)))
      (q ++ List.range' (c.edgesIn ((rs.take k).flatMap VertexRange.vertices))
        (c.edgesIn rs[k].vertices))
      d ∧
      (k + 1 < rs.length → c.edgesIn (fetched c t.visit start s.v) - 1 ∉ q ++
        List.range' (c.edgesIn ((rs.take k).flatMap VertexRange.vertices))
          (c.edgesIn rs[k].vertices)) := by
    have hqueue := hflight.queue_eq
    have harriving := hflight.arriving.send (n := c.edgesIn rs[k].vertices) hreach
      (by rw [ClientContext.length_flatMap_adjacency]; omega)
    rcases Nat.lt_or_ge (k + 1) rs.length with hmore | hend
    · -- A later request reads something too, so the last word is not among these.
      have hlater := hpacked.edgesIn_pos (List.getElem_mem hmore)
      have hle' := edgesIn_take_le c rs (k + 1 + 1)
      rw [hpacked.vertices, edgesIn_take_succ hmore] at hle'
      have hmem : c.edgesIn (fetched c t.visit start s.v) - 1 ∉ q ++
          List.range' (c.edgesIn ((rs.take k).flatMap VertexRange.vertices))
            (c.edgesIn rs[k].vertices) := by
        rw [List.mem_append, not_or, List.mem_range'_1]
        exact ⟨hnot, by omega⟩
      exact ⟨⟨by rw [hqueue, List.map_append], harriving, Restream.final_of_not_mem hmem hd⟩,
        fun _ => hmem⟩
    · have htake : rs.take (k + 1) = rs := List.take_of_length_le hend
      rw [htake, hpacked.vertices] at hnext
      exact ⟨⟨by rw [hqueue, List.map_append], harriving, Restream.final_send hnot hd hnext.symm⟩,
        fun hmore => absurd hmore (Nat.not_lt.2 hend)⟩
  refine ⟨start, rs, _, d, hpacks, hsent.1, hk, hpos, ?_, fun hmore => ⟨hsent.2 hmore, hd⟩⟩
  rw [Restream.reach_append, hnext]
  exact Restream.le_reach_range' _ _ hedges

/-- Posting starts again from the head of the chain. -/
theorem Posting.retry (h : Posting o c edge_buf edge_buf_size t s k mem queue)
    (hk : k < (posted o c s.window).length) :
    Posting o c edge_buf edge_buf_size t s 0 mem queue := by
  obtain ⟨start, rs, q, d, hpacks, hflight, -, hpos, -, hlast⟩ := h
  rw [hpacks.packed.length_posted hpos] at hk
  exact ⟨start, rs, q, d, hpacks, hflight, Nat.zero_le _, hpos, Nat.zero_le _, fun _ => hlast hk⟩

end Posting

/-! ### Decoding -/

theorem mem_marksOf (c : ClientContext) (b : Nat) (past : List Nat) (v : Nat) (vs : List Nat) :
    b + c.edgesIn past ∈ marksOf c b (past ++ v :: vs) ∧
      b + c.edgesIn past + (c.degree v - 1) ∈ marksOf c b (past ++ v :: vs) := by
  rw [marksOf_append, marksOf]
  exact ⟨List.mem_append_right _ List.mem_cons_self,
    List.mem_append_right _ (List.mem_cons_of_mem _ List.mem_cons_self)⟩

section Decoding

variable {t : Task threads} {s : PackState} {mem : Nat → Nat} {queue : List (Nat × Nat)} {v : Nat}
  {vs : List Nat} {e_buf : Nat}

/-- At a vertex of the decoding loops: its list lies within the buffer's, and has at least one
    edge. -/
theorem Decoding.degree {arrived : Nat} (hfits : Fits c edge_buf_size)
    (h : Decoding o c edge_buf edge_buf_size t s v vs e_buf arrived mem queue) :
    (0 < c.degree v ∧ c.degree v < 2 ^ 32) ∧ v < c.num_vertices ∧ t.visit v = .fetch := by
  obtain ⟨start, rs, past, q, d, hpacks, -, hsplit, -⟩ := h
  have hmem : v ∈ fetched c t.visit start s.v :=
    hsplit ▸ List.mem_append_right past List.mem_cons_self
  obtain ⟨⟨-, hlt⟩, hfetch, hpos⟩ := mem_fetched.1 hmem
  have hv : v < c.num_vertices :=
    Nat.lt_of_lt_of_le hlt (Nat.le_trans hpacks.packed.v_le hpacks.range_le)
  have hle := hfits.degree_le_size hv
  have hsize := hfits.lt
  exact ⟨⟨hpos, by omega⟩, hv, hfetch⟩

/-- The first word has been overwritten: it has arrived. -/
theorem Decoding.first (h : Decoding o c edge_buf edge_buf_size t s v vs e_buf 0 mem queue)
    (hne : mem e_buf ≠ NULL_VERT) :
    Decoding o c edge_buf edge_buf_size t s v vs e_buf 1 mem queue := by
  obtain ⟨start, rs, past, q, d, hpacks, hflight, hsplit, rfl, -⟩ := h
  have hmark := (mem_marksOf c edge_buf past v vs).1
  rw [← hsplit] at hmark
  exact ⟨start, rs, past, q, d, hpacks, hflight, hsplit, rfl,
    hflight.arriving.lt_of_ne_null hmark hne⟩

/-- So has the last word, and with it all words before. -/
theorem Decoding.last (hfits : Fits c edge_buf_size)
    (h : Decoding o c edge_buf edge_buf_size t s v vs e_buf 1 mem queue)
    (hne : mem (e_buf + (c.degree v + (2 ^ 32 - 1)) % 2 ^ 32) ≠ NULL_VERT) :
    Decoding o c edge_buf edge_buf_size t s v vs e_buf (c.degree v) mem queue := by
  obtain ⟨hpos, hlt⟩ := (h.degree hfits).1
  rw [pred_uint32 hpos hlt] at hne
  obtain ⟨start, rs, past, q, d, hpacks, hflight, hsplit, rfl, -⟩ := h
  have hmark := (mem_marksOf c edge_buf past v vs).2
  rw [← hsplit, Nat.add_assoc] at hmark
  rw [Nat.add_assoc] at hne
  have hd := hflight.arriving.lt_of_ne_null hmark hne
  exact ⟨start, rs, past, q, d, hpacks, hflight, hsplit, rfl, by omega⟩

/-- The list of the vertex whose words have all arrived. -/
theorem Decoding.holds
    (h : Decoding o c edge_buf edge_buf_size t s v vs e_buf (c.degree v) mem queue) :
    Memory.Holds mem e_buf (c.adjacency v) := by
  obtain ⟨start, rs, past, q, d, hpacks, hflight, hsplit, rfl, hd⟩ := h
  have hlists : (fetched c t.visit start s.v).flatMap c.adjacency =
      past.flatMap c.adjacency ++ c.adjacency v ++ vs.flatMap c.adjacency := by
    rw [hsplit, List.flatMap_append, List.flatMap_cons, List.append_assoc]
  have hpart := hflight.arriving.holds_part hlists
    (by rw [ClientContext.length_flatMap_adjacency, ClientContext.length_adjacency]; exact hd)
  rw [ClientContext.length_flatMap_adjacency] at hpart
  exact hpart

/-- The decoding loops go on, or end with nothing in flight. -/
theorem inv_decoding {start : Nat} {rs : List VertexRange} (past : List Nat) {q : List Nat}
    {d : Nat} (hpacks : Packs o c edge_buf edge_buf_size t start rs s)
    (hflight : InFlight c edge_buf (fetched c t.visit start s.v) mem queue q d)
    (hsplit : fetched c t.visit start s.v = past ++ vs) (hbuf : e_buf = edge_buf + c.edgesIn past)
    (hd : c.edgesIn past ≤ d) :
    Inv o c edge_buf edge_buf_size ⟨mem, queue, .decoding t s e_buf vs⟩ := by
  cases vs with
  | nil =>
      rw [List.append_nil] at hsplit
      have hle := hflight.arriving.le
      rw [ClientContext.length_flatMap_adjacency] at hle
      have hall : d = c.edgesIn (fetched c t.visit start s.v) := Nat.le_antisymm hle (hsplit ▸ hd)
      have hqueue := hflight.queue_eq
      rw [hflight.final.empty hall] at hqueue
      exact ⟨hqueue, hpacks.range_le⟩
  | cons v vs =>
      exact ⟨start, rs, past, q, d, hpacks, hflight, hsplit, hbuf, hd⟩

end Decoding

/-! ### Soundness -/

/-- Every step of the worker and every word that lands keeps the invariant. -/
theorem inv_step (hfits : Fits c edge_buf_size) {st st' : WorkerState threads}
    (h : Inv o c edge_buf edge_buf_size st) (hstep : WorkerStep o c edge_buf edge_buf_size st st') :
    Inv o c edge_buf edge_buf_size st' := by
  cases hstep with
  | @land mem a w queue phase =>
      cases phase with
      | idle window => exact nomatch h
      | top t next_range_start window => exact nomatch h.1
      | packing t s => exact nomatch h.1
      | marking t s pending => exact nomatch h.1
      | posting t s k => exact Posting.land h
      | spinFirst t s v vs e_buf => exact Decoding.land h
      | spinLast t s v vs e_buf => exact Decoding.land h
      | calling t s v vs e_buf => exact Decoding.land h
  | begin hend => exact ⟨h, hend⟩
  | @enter mem queue window next_range_start t stats hlt =>
      exact ⟨h.1, ⟨next_range_start, [], packed_new window 0 stats (Nat.le_of_lt hlt), h.2⟩,
        fun _ hx => nomatch hx⟩
  | leave hdone => exact h.1
  | @turn mem queue s t hcond =>
      obtain ⟨hqueue, ⟨start, rs, hpacks⟩, hmarks⟩ := h
      obtain ⟨rs', hpacked⟩ := hpacks.packed.body (hfits.exactTest hpacks.range_le) hcond
      exact ⟨hqueue, ⟨start, rs', hpacked, hpacks.range_le⟩, s.marks,
        (s.marks_body o c edge_buf edge_buf_size t.visit).symm, hmarks⟩
  | @mark mem queue s x pending t =>
      obtain ⟨hqueue, hpacks, written, hmarks, hwritten⟩ := h
      refine ⟨hqueue, hpacks, written ++ [x], by rw [hmarks, List.append_assoc]; rfl, ?_⟩
      intro y hy
      rcases eq_or_ne y x with rfl | hne
      · exact Function.update_self _ _ _
      · have hold : y ∈ written :=
          (List.mem_append.1 hy).resolve_right fun hlast => hne (List.mem_singleton.1 hlast)
        rw [Function.update_of_ne hne]
        exact hwritten y hold
  | marked =>
      obtain ⟨hqueue, hpacks, written, hmarks, hwritten⟩ := h
      rw [List.append_nil] at hmarks
      exact ⟨hqueue, hpacks, hmarks ▸ hwritten⟩
  | @post mem queue s t hdone hwrs =>
      obtain ⟨rfl, ⟨start, rs, hpacks⟩, hmarks⟩ := h
      have hcounted : Packs o c edge_buf edge_buf_size t start rs s.count :=
        ⟨{ hpacks.packed with }, hpacks.range_le⟩
      exact posting_start hcounted hmarks hwrs
  | skip hdone hwrs =>
      obtain ⟨hqueue, ⟨start, rs, hpacks⟩, -⟩ := h
      exact ⟨hqueue, hpacks.range_le⟩
  | accept hwords => exact Posting.accept hfits h hwords
  | enomem hk => exact Posting.retry h hk
  | ok hk =>
      obtain ⟨start, rs, q, d, hpacks, hflight, -, hpos, hreach, hlast⟩ := h
      rw [hpacks.packed.batchVertices_eq]
      exact inv_decoding [] hpacks hflight (List.nil_append _).symm rfl (Nat.zero_le d)
  | first hne => exact Decoding.first h hne
  | last hne => exact Decoding.last hfits h hne
  | @returned mem queue s v vs e_buf t =>
      obtain ⟨start, rs, past, q, d, hpacks, hflight, hsplit, rfl, hd⟩ := h
      apply inv_decoding (past ++ [v]) hpacks hflight
      · rw [hsplit, List.append_assoc]
        rfl
      · rw [ClientContext.edgesIn_append, ClientContext.edgesIn_singleton, Nat.add_assoc]
      · rw [ClientContext.edgesIn_append, ClientContext.edgesIn_singleton]
        exact hd

theorem inv_of_reachable (hfits : Fits c edge_buf_size) {st : WorkerState threads}
    (h : (workerSystem o c edge_buf edge_buf_size).Reachable st) :
    Inv o c edge_buf edge_buf_size st := by
  apply h.induct
  · rintro ⟨mem, queue, phase⟩ ⟨hqueue, window, hphase⟩
    rw [show phase = .idle window from hphase]
    exact hqueue
  · intro st st' _ hinv hstep
    exact inv_step hfits hinv hstep

/-- The words of an adjacency list are words of the edge array. -/
theorem exists_words_of_mem_adjacency (hfits : Fits c edge_buf_size) {v w : Nat}
    (hv : v < c.num_vertices) (hw : w ∈ c.adjacency v) : ∃ i < c.num_edges, c.words i = w := by
  obtain ⟨j, hj, rfl⟩ := List.mem_map.1 hw
  rw [List.mem_range, hfits.degree_eq hv] at hj
  have hend := hfits.index.adjacencyEnd_le hv
  exact ⟨_, by omega, rfl⟩

/-- In every state the worker and its queue pair can reach, a call of `function` for a fetched
    vertex is given its adjacency list on the server, without a `NULL_VERT`, and while the packer
    runs nothing is in flight that could overwrite its marks. -/
theorem sentinel_protocol_sound (hfits : Fits c edge_buf_size)
    (hwords : ∀ i < c.num_edges, c.words i ≠ NULL_VERT) {st : WorkerState threads}
    (h : (workerSystem o c edge_buf edge_buf_size).Reachable st) :
    (∀ t s v vs e_buf, st.phase = .calling t s v vs e_buf →
      v < c.num_vertices ∧ t.visit v = .fetch ∧
        Memory.read st.mem e_buf (c.degree v) = c.adjacency v ∧ NULL_VERT ∉ c.adjacency v) ∧
    (∀ t s, (st.phase = .packing t s ∨ ∃ pending, st.phase = .marking t s pending) →
      st.queue = []) := by
  have hinv := inv_of_reachable hfits h
  obtain ⟨mem, queue, phase⟩ := st
  constructor
  · rintro t s v vs e_buf rfl
    obtain ⟨-, hv, hfetch⟩ := Decoding.degree hfits hinv
    have hread : Memory.read mem e_buf (c.degree v) = c.adjacency v := by
      rw [← ClientContext.length_adjacency]
      exact (Decoding.holds hinv).read_eq
    refine ⟨hv, hfetch, hread, ?_⟩
    intro hnull
    obtain ⟨i, hi, hword⟩ := exists_words_of_mem_adjacency hfits hv hnull
    exact hwords i hi hword
  · rintro t s (rfl | ⟨pending, rfl⟩)
    · exact hinv.1
    · exact hinv.1

/-- Four vertices with two edges each. -/
def fourRows : ClientContext where
  num_vertices := 4
  num_edges := 8
  edge_offset := fun v => 2 * v
  peer_addr := 4096
  peer_rkey := 7
  lkey := 9
  words := fun i => i % 4

/-- All of them, of which the second is not active. -/
def threeActive : Task 1 where
  cache_map := none
  cacheManager := none
  frontier := [0, 2, 3].foldl (fun b v => (b.setBit (Fin.last 0) v).1) (Bitmap.fresh 4)
  range_begin := 0
  range_end := 4

/-- Two requests a window. -/
def twoRequests : BuildOptions := ⟨2, true, by decide⟩

/-- The packer after some turns of the window that begins at a vertex. -/
def packedRows (window : Window) (next_range_start : Nat) : Nat → PackState
  | 0 => .new window 0 0 next_range_start (0, 0, 0)
  | n + 1 => (packedRows window next_range_start n).body twoRequests fourRows 0 4 threeActive.visit

/-- The first window, with two lists in it, and the second, with one. -/
def firstRows : PackState := packedRows clearWorker.window 0 3

def secondRows : PackState := packedRows firstRows.count.window 3 1

theorem fourRows_fits : Fits fourRows 4 where
  index := ⟨by decide, by decide, fun v _ => Nat.mul_le_mul_left 2 (Nat.le_succ v),
    fun v hv => Nat.mul_le_mul_left 2 (Nat.le_of_lt hv)⟩
  pos := by decide
  lt := by decide
  degree_le := by decide

/-- What `ibv_post_send` is given, and what is decoded. -/
theorem posted_firstRows :
    posted twoRequests fourRows firstRows.count.window = [[(0, 0), (1, 1)], [(2, 0), (3, 1)]] ∧
      batchVertices firstRows.count.window firstRows.count.wrs = [0, 2] := by
  decide

theorem posted_secondRows :
    posted twoRequests fourRows secondRows.count.window = [[(0, 2), (1, 3)]] ∧
      batchVertices secondRows.count.window secondRows.count.wrs = [3] := by
  decide

/-- The marks of a turn are written one after the other. -/
theorem reachable_marked {mem : Nat → Nat} {queue : List (Nat × Nat)} {t : Task threads}
    {s : PackState} {pending : List Nat}
    (h : (workerSystem o c edge_buf edge_buf_size).Reachable ⟨mem, queue, .marking t s pending⟩) :
    (workerSystem o c edge_buf edge_buf_size).Reachable
      ⟨pending.foldl (fun mem x => Function.update mem x NULL_VERT) mem, queue, .packing t s⟩ := by
  induction pending generalizing mem with
  | nil => exact h.step .marked
  | cons x pending ih => exact ih (h.step .mark)

/-- A run through two windows. In the first, the second request finds the send queue full, the chain
    is posted again, and the first list is decoded while the READs of the second attempt are under
    way. -/
theorem sentinel_protocol_sound_windows :
    ∃ st : WorkerState 1, (workerSystem twoRequests fourRows 0 4).Reachable st ∧
      st.phase = .calling threeActive secondRows.count 3 [] 0 ∧
      Memory.read st.mem 0 (fourRows.degree 3) = [2, 3] := by
  have hwords : ∀ i < fourRows.num_edges, fourRows.words i ≠ NULL_VERT := by decide
  have hidle : (workerSystem twoRequests fourRows 0 4).Reachable
      (⟨fun _ => 5, [], .idle clearWorker.window⟩ : WorkerState 1) := .of_init ⟨rfl, _, rfl⟩
  have hfirst : (workerSystem twoRequests fourRows 0 4).Reachable
      ⟨_, _, .packing threeActive (packedRows clearWorker.window 0 0)⟩ :=
    (hidle.step (.begin (Nat.le_refl 4))).step (.enter (by decide))
  have hpacked : (workerSystem twoRequests fourRows 0 4).Reachable
      ⟨_, _, .packing threeActive firstRows⟩ :=
    reachable_marked ((reachable_marked ((reachable_marked (hfirst.step (.turn (by decide)))).step
      (.turn (by decide)))).step (.turn (by decide)))
  -- one request is accepted, and then the chain is posted again
  have henomem := ((hpacked.step (.post (by decide) (by decide))).step
    (.accept (congrArg (·[0]?) posted_firstRows.1))).step
    (.enomem (by rw [posted_firstRows.1]; decide))
  have haccept := (henomem.step (.accept (congrArg (·[0]?) posted_firstRows.1))).step
    (.accept (congrArg (·[1]?) posted_firstRows.1))
  have hok := ((haccept.step .land).step .land).step
    (.ok (congrArg List.length posted_firstRows.1).symm)
  rw [posted_firstRows.2] at hok
  have hcall := (hok.step (.first (by decide))).step (.last (by decide))
  -- the first list has been read, and the rest arrives
  have hrest := ((((hcall.step .returned).step .land).step .land).step .land).step .land
  have hdone := ((hrest.step (.first (by decide))).step (.last (by decide))).step .returned
  have hsecond : (workerSystem twoRequests fourRows 0 4).Reachable
      ⟨_, _, .packing threeActive (packedRows firstRows.count.window 3 0)⟩ :=
    hdone.step (.enter (by decide))
  have hmarked : (workerSystem twoRequests fourRows 0 4).Reachable
      ⟨_, _, .packing threeActive secondRows⟩ :=
    reachable_marked (hsecond.step (.turn (by decide)))
  have hagain := (hmarked.step (.post (by decide) (by decide))).step
    (.accept (congrArg (·[0]?) posted_secondRows.1))
  have hdecode := ((hagain.step .land).step .land).step
    (.ok (congrArg List.length posted_secondRows.1).symm)
  rw [posted_secondRows.2] at hdecode
  have hlast := (hdecode.step (.first (by decide))).step (.last (by decide))
  have hlist : fourRows.adjacency 3 = [2, 3] := by decide
  exact ⟨_, hlast, rfl,
    (((sentinel_protocol_sound fourRows_fits hwords hlast).1 _ _ _ _ _ rfl).2.2.1).trans hlist⟩

end FamGraph
