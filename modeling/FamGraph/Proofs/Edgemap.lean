/-
Module: FamGraph.Proofs.Edgemap
Layer: Proofs
Purpose: What `next_batch` enumerates. Called until done, it lists the first vertex of the
  sub-range, whatever its frontier bit says, and after it the active vertices, each cut from left to
  right into non-empty intervals. The other packers of the runtime test every vertex, the first one
  included, so the missing test is a defect; it shows exactly when the first vertex has edges and is
  not active.
Trusted boundary: human-reviewed specification `Enumerates`
Main exports: Covers, Lists, Enumerates, NextSet.call_spec, Emits, drain_spec,
  enumerates_iff_start_active
-/
import FamGraph.Core.Edgemap
import FamGraph.Proofs.Bitmap

namespace FamGraph.Edgemap

variable {threads : Nat}

/-! ### The specification -/

/-- The intervals cut the edges `[e, d)` of vertex `v` from left to right. -/
inductive Covers (v d : Nat) : Nat → List VInterval → Prop where
  | nil : Covers v d d []
  | cons {e e' : Nat} {pieces : List VInterval} : e < e' → e' ≤ d → Covers v d e' pieces →
      Covers v d e (⟨v, d, e, e'⟩ :: pieces)

/-- The intervals list the given vertices in order, all edges of each. -/
inductive Lists (deg : Nat → Nat) : List Nat → List VInterval → Prop where
  | nil : Lists deg [] []
  | cons {v : Nat} {vs : List Nat} {pieces rest : List VInterval} : Covers v (deg v) 0 pieces →
      Lists deg vs rest → Lists deg (v :: vs) (pieces ++ rest)

/-- The active vertices of `[v, end_)` with edges, ascending. -/
def wanted (b : Bitmap threads) (deg : Nat → Nat) (v end_ : Nat) : List Nat :=
  (List.range' v (end_ - v)).filter fun u => b.Active u ∧ 0 < deg u

/-- The edges an interval hands to the callback, by position in the list of their vertex. -/
def VInterval.edges (i : VInterval) : List (Nat × Nat) :=
  (List.range' i.start (i.end_ - i.start)).map fun e => (i.v, e)

/-- The batches of a sub-range `[start, end_)` are as they should be: within the capacity, without
    empty intervals, and together each edge of each active vertex once and nothing else. -/
structure Enumerates (b : Bitmap threads) (deg : Nat → Nat) (start end_ capacity : Nat)
    (batches : List (List VInterval)) : Prop where
  capacity : ∀ vec ∈ batches, (vec.map fun i => i.end_ - i.start).sum ≤ capacity
  nonempty : ∀ vec ∈ batches, ∀ i ∈ vec, i.start < i.end_
  lists : Lists deg (wanted b deg start end_) batches.flatten
  edges : batches.flatten.flatMap VInterval.edges =
    (wanted b deg start end_).flatMap fun v => (List.range (deg v)).map fun e => (v, e)

/-- The edges of a cut are those of the vertex. -/
theorem Covers.edges_eq {v d e : Nat} {pieces : List VInterval} (h : Covers v d e pieces) :
    e ≤ d ∧ pieces.flatMap VInterval.edges = (List.range' e (d - e)).map fun e => (v, e) := by
  induction h with
  | nil => simp
  | @cons e e' pieces hlt hle _ ih =>
      refine ⟨by omega, ?_⟩
      have hsplit : List.range' e (d - e) = List.range' e (e' - e) ++ List.range' e' (d - e') := by
        have hlength : d - e = (e' - e) + (d - e') := by omega
        rw [hlength, ← List.range'_append_1]
        congr 2
        omega
      rw [List.flatMap_cons, ih.2, hsplit, List.map_append]
      rfl

/-- Listing vertices hands out their edges. -/
theorem Lists.edges_eq {deg : Nat → Nat} {vs : List Nat} {intervals : List VInterval}
    (h : Lists deg vs intervals) :
    intervals.flatMap VInterval.edges =
      vs.flatMap fun v => (List.range (deg v)).map fun e => (v, e) := by
  induction h with
  | nil => rfl
  | cons hcovers _ ih =>
      rw [List.flatMap_append, List.flatMap_cons, hcovers.edges_eq.2, ih, List.range_eq_range']
      rfl

theorem Covers.vertex_eq {v d e : Nat} {pieces : List VInterval} (h : Covers v d e pieces) :
    ∀ i ∈ pieces, i.v = v := by
  induction h with
  | nil => exact fun i hi => absurd hi List.not_mem_nil
  | cons _ _ _ ih =>
      intro i hi
      rcases List.mem_cons.1 hi with rfl | hi
      · rfl
      · exact ih i hi

/-- A list with edges left to cut has an interval. -/
theorem Covers.ne_nil {v d e : Nat} {pieces : List VInterval} (h : Covers v d e pieces)
    (hlt : e < d) :
    pieces ≠ [] := by
  cases h with
  | nil => omega
  | cons => exact List.cons_ne_nil _ _

/-- Only listed vertices have intervals. -/
theorem Lists.vertex_mem {deg : Nat → Nat} {vs : List Nat} {intervals : List VInterval}
    (h : Lists deg vs intervals) : ∀ i ∈ intervals, i.v ∈ vs := by
  induction h with
  | nil => exact fun i hi => absurd hi List.not_mem_nil
  | cons hcovers _ ih =>
      intro i hi
      rcases List.mem_append.1 hi with hi | hi
      · exact hcovers.vertex_eq i hi ▸ List.mem_cons_self
      · exact List.mem_cons_of_mem _ (ih i hi)

/-- Every listed vertex with edges has an interval. -/
theorem Lists.exists_of_mem {deg : Nat → Nat} {vs : List Nat} {intervals : List VInterval}
    (h : Lists deg vs intervals) {v : Nat} (hv : v ∈ vs) (hdeg : 0 < deg v) :
    ∃ i ∈ intervals, i.v = v := by
  induction h with
  | nil => exact absurd hv List.not_mem_nil
  | @cons u vs pieces rest hcovers _ ih =>
      rcases List.mem_cons.1 hv with rfl | hv
      · obtain ⟨i, hi⟩ := List.exists_mem_of_ne_nil _ (hcovers.ne_nil hdeg)
        exact ⟨i, List.mem_append_left _ hi, hcovers.vertex_eq i hi⟩
      · obtain ⟨i, hi, hiv⟩ := ih hv
        exact ⟨i, List.mem_append_right _ hi, hiv⟩

/-! ### The scanner -/

/-- `w` is the next active vertex from `v` on, or `end_` if there is none. -/
structure IsNext (b : Bitmap threads) (end_ v w : Nat) : Prop where
  le : v ≤ w
  le_end : w ≤ end_
  inactive : ∀ u, v ≤ u → u < w → ¬ b.Active u
  active : w < end_ → b.Active w

/-- The scanner returns the next active vertex and goes on after it. -/
theorem NextSet.call_spec (s : NextSet threads) (hle : s.from_inclusive ≤ s.end_exclusive) :
    IsNext s.b s.end_exclusive s.from_inclusive s.call.2 ∧
      (s.call.2 < s.end_exclusive → s.call.1 = { s with from_inclusive := s.call.2 + 1 }) := by
  have hscan : ∀ (left : Nat) (s : NextSet threads), s.from_inclusive + left = s.end_exclusive →
      IsNext s.b s.end_exclusive s.from_inclusive (s.scan left).2 ∧
        ((s.scan left).2 < s.end_exclusive →
          (s.scan left).1 = { s with from_inclusive := (s.scan left).2 + 1 }) := by
    intro left
    induction left with
    | zero =>
        intro s hs
        refine ⟨⟨?_, Nat.le_refl _, ?_, fun hlt => absurd hlt (Nat.lt_irrefl _)⟩,
          fun hlt => absurd hlt (Nat.lt_irrefl _)⟩
        · change s.from_inclusive ≤ s.end_exclusive
          omega
        · intro u hu hlt
          have hlt' : u < s.end_exclusive := hlt
          omega
    | succ left ih =>
        intro s hs
        by_cases hactive : s.b.getBit s.from_inclusive ≠ 0#64
        · simp only [NextSet.scan, if_pos hactive]
          exact ⟨⟨Nat.le_refl _, by omega, fun u hu hlt => by omega, fun _ => hactive⟩,
            fun _ => trivial⟩
        · simp only [NextSet.scan, if_neg hactive]
          have hs' : s.from_inclusive + 1 + left = s.end_exclusive := by omega
          obtain ⟨hnext, hstate⟩ := ih { s with from_inclusive := s.from_inclusive + 1 } hs'
          refine ⟨⟨Nat.le_of_succ_le hnext.le, hnext.le_end, fun u hu hlt => ?_, hnext.active⟩,
            hstate⟩
          rcases Nat.eq_or_lt_of_le hu with rfl | hu
          · exact hactive
          · exact hnext.inactive u hu hlt
  exact hscan _ s (by omega)

/-- Nothing is wanted before the next active vertex. -/
theorem IsNext.wanted_eq {b : Bitmap threads} {end_ v w : Nat} (h : IsNext b end_ v w)
    (deg : Nat → Nat) : wanted b deg v end_ = wanted b deg w end_ := by
  have hle := h.le
  have hend := h.le_end
  have hsplit : List.range' v (end_ - v) = List.range' v (w - v) ++ List.range' w (end_ - w) := by
    have hlength : end_ - v = (w - v) + (end_ - w) := by omega
    rw [hlength, ← List.range'_append_1]
    congr 2
    omega
  have hnone : ((List.range' v (w - v)).filter fun u => b.Active u ∧ 0 < deg u) = [] := by
    refine List.filter_eq_nil_iff.2 fun u hu => ?_
    obtain ⟨hvu, huw⟩ := List.mem_range'_1.1 hu
    have hinactive := h.inactive u hvu (by omega)
    simp [hinactive]
  rw [wanted, wanted, hsplit, List.filter_append, hnone, List.nil_append]

/-- What is wanted from a vertex on is the vertex itself, if active and with edges, and the rest. -/
theorem wanted_of_lt (b : Bitmap threads) (deg : Nat → Nat) {v end_ : Nat} (hv : v < end_) :
    wanted b deg v end_ =
      (if b.Active v ∧ 0 < deg v then [v] else []) ++ wanted b deg (v + 1) end_ := by
  have hlength : end_ - v = (end_ - (v + 1)) + 1 := by omega
  rw [wanted, hlength, List.range'_succ, List.filter_cons]
  by_cases hactive : b.Active v ∧ 0 < deg v
  · simp [hactive, wanted]
  · simp [hactive, wanted]

theorem wanted_of_le (b : Bitmap threads) (deg : Nat → Nat) {v end_ : Nat} (hv : end_ ≤ v) :
    wanted b deg v end_ = [] := by
  have hlength : end_ - v = 0 := by omega
  rw [wanted, hlength]
  rfl

/-! ### What the iterator emits -/

variable {b : Bitmap threads} {deg : Nat → Nat} {end_ : Nat}

/-- One turn of the loop from position `(v, e)`: vertex `v` with its first `e` edges consumed. -/
inductive Emit (b : Bitmap threads) (deg : Nat → Nat) (end_ : Nat) :
    Nat × Nat → List VInterval → Nat × Nat → Prop where
  | skip {v e w : Nat} : v < end_ → deg v = 0 → IsNext b end_ (v + 1) w →
      Emit b deg end_ (v, e) [] (w, 0)
  | part {v e e' : Nat} : v < end_ → e < e' → e' < deg v →
      Emit b deg end_ (v, e) [⟨v, deg v, e, e'⟩] (v, e')
  | finish {v e w : Nat} : v < end_ → e < deg v → IsNext b end_ (v + 1) w →
      Emit b deg end_ (v, e) [⟨v, deg v, e, deg v⟩] (w, 0)

/-- Any number of turns. -/
inductive Emits (b : Bitmap threads) (deg : Nat → Nat) (end_ : Nat) :
    Nat × Nat → List VInterval → Nat × Nat → Prop where
  | refl (p : Nat × Nat) : Emits b deg end_ p [] p
  | head {p q r : Nat × Nat} {pieces out : List VInterval} : Emit b deg end_ p pieces q →
      Emits b deg end_ q out r → Emits b deg end_ p (pieces ++ out) r

theorem Emits.trans {p q r : Nat × Nat} {out out' : List VInterval} (h : Emits b deg end_ p out q)
    (h' : Emits b deg end_ q out' r) : Emits b deg end_ p (out ++ out') r := by
  induction h with
  | refl => exact h'
  | head hemit _ ih =>
      rw [List.append_assoc]
      exact .head hemit (ih h')

theorem Emits.snoc {p q r : Nat × Nat} {out pieces : List VInterval} (h : Emits b deg end_ p out q)
    (h' : Emit b deg end_ q pieces r) : Emits b deg end_ p (out ++ pieces) r := by
  have hone := Emits.head h' (.refl r)
  rw [List.append_nil] at hone
  exact h.trans hone

/-- The vertices listed from position `v` on when `v` itself is not tested. -/
def visited (b : Bitmap threads) (deg : Nat → Nat) (v end_ : Nat) : List Nat :=
  (if v < end_ ∧ 0 < deg v then [v] else []) ++ wanted b deg (v + 1) end_

/-- At the next active vertex the test makes no difference. -/
theorem IsNext.visited_eq {v w : Nat} (h : IsNext b end_ v w) :
    visited b deg w end_ = wanted b deg v end_ := by
  rw [h.wanted_eq deg, visited]
  rcases Nat.lt_or_ge w end_ with hlt | hge
  · simp only [wanted_of_lt b deg hlt, h.active hlt, hlt, true_and]
  · have hnot : ¬ (w < end_ ∧ 0 < deg w) := by omega
    rw [if_neg hnot, wanted_of_le b deg hge, wanted_of_le b deg (by omega)]
    rfl

/-- A position inside the list of its vertex. -/
def Inside (deg : Nat → Nat) (end_ : Nat) (p : Nat × Nat) : Prop :=
  p.1 < end_ → p.2 = 0 ∨ p.2 < deg p.1

theorem Emit.inside {p q : Nat × Nat} {pieces : List VInterval} (h : Emit b deg end_ p pieces q) :
    Inside deg end_ q := by
  cases h with
  | skip => exact fun _ => Or.inl rfl
  | part _ _ hlt => exact fun _ => Or.inr hlt
  | finish => exact fun _ => Or.inl rfl

/-- Cutting a vertex completely, if it has edges, and listing what is wanted after it. -/
theorem lists_visited {v : Nat} {pieces rest : List VInterval}
    (hpieces : if v < end_ ∧ 0 < deg v then Covers v (deg v) 0 pieces else pieces = [])
    (hrest : Lists deg (wanted b deg (v + 1) end_) rest) :
    Lists deg (visited b deg v end_) (pieces ++ rest) := by
  rw [visited]
  split at hpieces
  · rename_i hin
    rw [if_pos hin]
    exact .cons hpieces hrest
  · rename_i hout
    rw [if_neg hout, hpieces]
    exact hrest

/-- Turns that reach the end have cut what was left of their first vertex, and listed the rest. -/
theorem Emits.complete {p q : Nat × Nat} {out : List VInterval} (h : Emits b deg end_ p out q)
    (hend : end_ ≤ q.1) (hinside : Inside deg end_ p) :
    ∃ pieces rest, out = pieces ++ rest ∧
      (if p.1 < end_ ∧ 0 < deg p.1 then Covers p.1 (deg p.1) p.2 pieces else pieces = []) ∧
      Lists deg (wanted b deg (p.1 + 1) end_) rest := by
  induction h with
  | refl p =>
      refine ⟨[], [], rfl, ?_, ?_⟩
      · have hnot : ¬ (p.1 < end_ ∧ 0 < deg p.1) := by omega
        rw [if_neg hnot]
      · rw [wanted_of_le b deg (by omega)]
        exact .nil
  | @head p q r first out hemit _ ih =>
      obtain ⟨pieces, rest, rfl, hpieces, hrest⟩ := ih hend hemit.inside
      cases hemit with
      | @skip v e w hv hdeg hnext =>
          have hnot : ¬ (v < end_ ∧ 0 < deg v) := by omega
          refine ⟨[], pieces ++ rest, rfl, by rw [if_neg hnot], ?_⟩
          rw [← hnext.visited_eq]
          exact lists_visited hpieces hrest
      | @part v e e' hv hlt hlt' =>
          have hin : v < end_ ∧ 0 < deg v := by omega
          rw [if_pos hin] at hpieces
          refine ⟨⟨v, deg v, e, e'⟩ :: pieces, rest, rfl, ?_, hrest⟩
          rw [if_pos hin]
          exact .cons hlt (Nat.le_of_lt hlt') hpieces
      | @finish v e w hv hlt hnext =>
          have hin : v < end_ ∧ 0 < deg v := by omega
          refine ⟨[⟨v, deg v, e, deg v⟩], pieces ++ rest, rfl, ?_, ?_⟩
          · rw [if_pos hin]
            exact .cons hlt (Nat.le_refl _) .nil
          · rw [← hnext.visited_eq]
            exact lists_visited hpieces hrest

/-- From the beginning of a vertex to the end, the first vertex is listed untested. -/
theorem Emits.lists {v : Nat} {q : Nat × Nat} {out : List VInterval}
    (h : Emits b deg end_ (v, 0) out q) (hend : end_ ≤ q.1) :
    Lists deg (visited b deg v end_) out := by
  obtain ⟨pieces, rest, rfl, hpieces, hrest⟩ := h.complete hend fun _ => Or.inl rfl
  exact lists_visited hpieces hrest

/-! ### The loops -/

/-- What a call of the iterator `s` has done so far. -/
structure Filling (deg : Nat → Nat) (s : NextBatch threads) (l : BatchLoop threads) : Prop where
  b_eq : l.self.b = s.b
  end_eq : l.self.end_ = s.end_
  capacity_eq : l.self.capacity = s.capacity
  emits : Emits s.b deg s.end_ (s.cur_v, s.cur_e) l.vec (l.self.cur_v, l.self.cur_e)
  inside : Inside deg s.end_ (l.self.cur_v, l.self.cur_e)
  scanner : l.self.cur_v < s.end_ → l.get_next_v =
    { b := s.b, from_inclusive := l.self.cur_v + 1, end_exclusive := s.end_ }
  edges : l.edges = (l.vec.map fun i => i.end_ - i.start).sum
  edges_le : l.edges ≤ s.capacity
  nonempty : ∀ i ∈ l.vec, i.start < i.end_

/-- The bounds the types of the source give. -/
structure Bounded (deg : Nat → Nat) (end_ capacity : Nat) : Prop where
  capacity_pos : 0 < capacity
  capacity_lt : capacity < 2 ^ 32
  end_lt : end_ < 2 ^ 32
  degree_lt : ∀ v, deg v < 2 ^ 32

/-- Turns left from position `(v, e)`, at most. -/
def turnsLeft (end_ : Nat) (s : NextBatch threads) : Nat :=
  (end_ - s.cur_v) * 2 ^ 32 + (2 ^ 32 - s.cur_e)

/-- Advancing to the next vertex. -/
theorem nextVertex_spec {l : BatchLoop threads} {b : Bitmap threads} {end_ : Nat}
    (hv : l.self.cur_v < end_) (hscanner : l.get_next_v =
      { b := b, from_inclusive := l.self.cur_v + 1, end_exclusive := end_ }) :
    ∃ w, IsNext b end_ (l.self.cur_v + 1) w ∧
    l.nextVertex.self = { l.self with cur_v := w, cur_e := 0 } ∧
      l.nextVertex.vec = l.vec ∧ l.nextVertex.edges = l.edges ∧
      (w < end_ → l.nextVertex.get_next_v =
        { b := b, from_inclusive := w + 1, end_exclusive := end_ }) := by
  obtain ⟨hnext, hstate⟩ := l.get_next_v.call_spec (by rw [hscanner]; exact hv)
  rw [hscanner] at hnext hstate
  refine ⟨_, hnext, ?_, rfl, rfl, fun hlt => ?_⟩
  · rw [BatchLoop.nextVertex, hscanner]
  · rw [BatchLoop.nextVertex, hscanner]
    exact hstate hlt

variable {s : NextBatch threads} {l : BatchLoop threads}

/-- Leaving a vertex keeps what the call has done in order, and gets ahead. -/
theorem Filling.leave (h : Filling deg s l) {l' : BatchLoop threads} {pieces : List VInterval}
    (hv : l.self.cur_v < s.end_) (hwidth : l.self.cur_e < 2 ^ 32) (hself : l'.self = l.self)
    (hget : l'.get_next_v = l.get_next_v) (hvec : l'.vec = l.vec ++ pieces)
    (hemit : ∀ w, IsNext s.b s.end_ (l.self.cur_v + 1) w →
      Emit s.b deg s.end_ (l.self.cur_v, l.self.cur_e) pieces (w, 0))
    (hedges : l'.edges = (l'.vec.map fun i => i.end_ - i.start).sum) (hle : l'.edges ≤ s.capacity)
    (hnonempty : ∀ i ∈ pieces, i.start < i.end_) :
    Filling deg s l'.nextVertex ∧
    turnsLeft s.end_ l'.nextVertex.self < turnsLeft s.end_ l.self := by
  have hv' : l'.self.cur_v < s.end_ := by rw [hself]; exact hv
  have hscanner' : l'.get_next_v =
      { b := s.b, from_inclusive := l'.self.cur_v + 1, end_exclusive := s.end_ } := by
    rw [hget, hself]
    exact h.scanner hv
  obtain ⟨w, hnext, hself', hvec', hedges', hscanner⟩ := nextVertex_spec hv' hscanner'
  rw [hself] at hnext hself'
  have hstep := hnext.le
  have hend := hnext.le_end
  refine ⟨⟨?_, ?_, ?_, ?_, ?_, ?_, ?_, ?_, ?_⟩, ?_⟩
  · rw [hself']; exact h.b_eq
  · rw [hself']; exact h.end_eq
  · rw [hself']; exact h.capacity_eq
  · rw [hself', hvec', hvec]
    exact h.emits.snoc (hemit w hnext)
  · rw [hself']; exact fun _ => Or.inl rfl
  · rw [hself']; exact hscanner
  · rw [hedges', hvec']; exact hedges
  · rw [hedges']; exact hle
  · rw [hvec', hvec]
    intro i hi
    exact (List.mem_append.1 hi).elim (h.nonempty i) (hnonempty i)
  · rw [hself']
    simp only [turnsLeft]
    omega

theorem Filling.cond_iff (h : Filling deg s l) :
    l.cond = true ↔ l.self.cur_v < s.end_ ∧ l.edges < s.capacity := by
  simp only [BatchLoop.cond, h.end_eq, h.capacity_eq, Bool.and_eq_true, decide_eq_true_eq]

/-- A turn at a vertex without edges. -/
theorem body_of_isolated (hzero : deg l.self.cur_v = 0) : l.body deg = l.nextVertex := by
  simp only [BatchLoop.body, if_pos hzero]

/-- A turn at a vertex with edges: nothing wraps, since the position is inside the list and the
    batch has room. -/
theorem Filling.body_eq (h : Filling deg s l) (hb : Bounded deg s.end_ s.capacity)
    (hcond : l.cond = true) (hpos : deg l.self.cur_v ≠ 0) :
    ∃ take, take = min (deg l.self.cur_v - l.self.cur_e) (s.capacity - l.edges) ∧ l.body deg =
      let interval : VInterval :=
        ⟨l.self.cur_v, deg l.self.cur_v, l.self.cur_e, l.self.cur_e + take⟩
      let filled : BatchLoop threads :=
        { l with vec := l.vec ++ [interval], edges := l.edges + take }
      if take = deg l.self.cur_v - l.self.cur_e then filled.nextVertex
      else { filled with self := { l.self with cur_e := l.self.cur_e + take } } := by
  obtain ⟨hv, hroom⟩ := h.cond_iff.1 hcond
  have hcap := hb.capacity_lt
  have hdeg := hb.degree_lt l.self.cur_v
  have hinside : l.self.cur_e = 0 ∨ l.self.cur_e < deg l.self.cur_v := h.inside hv
  obtain ⟨take, htake⟩ : ∃ take, take = min (deg l.self.cur_v - l.self.cur_e)
      (s.capacity - l.edges) := ⟨_, rfl⟩
  have hleft : (deg l.self.cur_v + (2 ^ 32 - l.self.cur_e)) % 2 ^ 32 =
      deg l.self.cur_v - l.self.cur_e := by omega
  have hspace : (s.capacity + (2 ^ 32 - l.edges)) % 2 ^ 32 = s.capacity - l.edges := by omega
  have hcur : (l.self.cur_e + take) % 2 ^ 32 = l.self.cur_e + take := by omega
  have hsum : (l.edges + take) % 2 ^ 32 = l.edges + take := by omega
  refine ⟨take, htake, ?_⟩
  simp only [BatchLoop.body, if_neg hpos, h.capacity_eq, hleft, hspace, ← htake, hcur, hsum]

/-- One turn of the loop keeps what the call has done in order, and gets ahead. -/
theorem Filling.turn (h : Filling deg s l) (hb : Bounded deg s.end_ s.capacity)
    (hcond : l.cond = true) :
    Filling deg s (l.body deg) ∧ turnsLeft s.end_ (l.body deg).self < turnsLeft s.end_ l.self := by
  obtain ⟨hv, hroom⟩ := h.cond_iff.1 hcond
  have hdeg := hb.degree_lt l.self.cur_v
  have hinside : l.self.cur_e = 0 ∨ l.self.cur_e < deg l.self.cur_v := h.inside hv
  have hwidth : l.self.cur_e < 2 ^ 32 := by omega
  by_cases hzero : deg l.self.cur_v = 0
  · rw [body_of_isolated hzero]
    exact h.leave hv hwidth rfl rfl (List.append_nil _).symm (fun w hnext => .skip hv hzero hnext)
      h.edges h.edges_le fun i hi => absurd hi List.not_mem_nil
  · obtain ⟨take, htake, hbody⟩ := h.body_eq hb hcond hzero
    have hedges : l.edges + take = ((l.vec ++ [(⟨l.self.cur_v, deg l.self.cur_v, l.self.cur_e,
        l.self.cur_e + take⟩ : VInterval)]).map fun i => i.end_ - i.start).sum := by
      rw [List.map_append, List.sum_append, ← h.edges]
      simp
    have hnonempty : ∀ i ∈ [(⟨l.self.cur_v, deg l.self.cur_v, l.self.cur_e,
        l.self.cur_e + take⟩ : VInterval)], i.start < i.end_ := by
      intro i hi
      rw [List.mem_singleton.1 hi]
      change l.self.cur_e < l.self.cur_e + take
      omega
    rw [hbody]
    by_cases hall : take = deg l.self.cur_v - l.self.cur_e
    · simp only [if_pos hall]
      have hend : l.self.cur_e + take = deg l.self.cur_v := by omega
      refine h.leave hv hwidth rfl rfl rfl (fun w hnext => ?_) hedges ?_ hnonempty
      · rw [hend]
        exact .finish hv (by omega) hnext
      · change l.edges + take ≤ s.capacity
        omega
    · simp only [if_neg hall]
      have hpart : Emit s.b deg s.end_ (l.self.cur_v, l.self.cur_e)
          [⟨l.self.cur_v, deg l.self.cur_v, l.self.cur_e, l.self.cur_e + take⟩]
          (l.self.cur_v, l.self.cur_e + take) := .part hv (by omega) (by omega)
      refine ⟨⟨h.b_eq, h.end_eq, h.capacity_eq, h.emits.snoc hpart, hpart.inside, h.scanner, hedges,
        ?_, ?_⟩, ?_⟩
      · change l.edges + take ≤ s.capacity
        omega
      · intro i hi
        exact (List.mem_append.1 hi).elim (h.nonempty i) (hnonempty i)
      · simp only [turnsLeft]
        omega

/-- A call begins with an empty batch. -/
theorem filling_enter (hb : Bounded deg s.end_ s.capacity)
    (hinside : Inside deg s.end_ (s.cur_v, s.cur_e)) (hv : s.cur_v < s.end_) :
    Filling deg s s.enter := by
  have hend := hb.end_lt
  have hwrap : (s.cur_v + 1) % 2 ^ 32 = s.cur_v + 1 := Nat.mod_eq_of_lt (by omega)
  refine ⟨rfl, rfl, rfl, .refl _, hinside, fun _ => ?_, rfl, Nat.zero_le _,
    fun i hi => absurd hi List.not_mem_nil⟩
  simp only [NextBatch.enter, hwrap]

/-- One call of the iterator: it returns, has moved on, and its batch is in order. -/
theorem call_spec (hb : Bounded deg s.end_ s.capacity)
    (hinside : Inside deg s.end_ (s.cur_v, s.cur_e)) (hrunning : s.isDone = false) {fuel : Nat}
    (hfuel : turnsLeft s.end_ s ≤ fuel) :
    ∃ l, s.call fuel deg = some (l.self, l.vec) ∧ Filling deg s l ∧
      turnsLeft s.end_ l.self < turnsLeft s.end_ s := by
  have hv : s.cur_v < s.end_ := by simpa [NextBatch.isDone] using hrunning
  have hstart : Filling deg s s.enter := filling_enter hb hinside hv
  -- the first turn is taken: there is a vertex, and an empty batch has room
  have hcond : s.enter.cond = true := by
    simp [BatchLoop.cond, NextBatch.enter, hv, hb.capacity_pos]
  obtain ⟨hfirst, hless⟩ := hstart.turn hb hcond
  have hless' : turnsLeft s.end_ (s.enter.body deg).self < turnsLeft s.end_ s := hless
  obtain ⟨fuel, rfl⟩ : ∃ more, fuel = more + 1 := ⟨fuel - 1, by omega⟩
  have hloop : ∃ l, Loop.run BatchLoop.cond (fun l => some (l.body deg)) fuel (s.enter.body deg) =
      some l ∧ (Filling deg s l ∧
        turnsLeft s.end_ l.self ≤ turnsLeft s.end_ (s.enter.body deg).self) ∧ l.cond = false := by
    refine Loop.run_total (fun l => Filling deg s l ∧
      turnsLeft s.end_ l.self ≤ turnsLeft s.end_ (s.enter.body deg).self)
      (fun l => turnsLeft s.end_ l.self) (fun l hl hcond => ?_) ⟨hfirst, Nat.le_refl _⟩ (by omega)
    obtain ⟨hturn, hlt⟩ := hl.1.turn hb hcond
    exact ⟨_, rfl, ⟨hturn, by omega⟩, hlt⟩
  obtain ⟨l, hrun, ⟨hl, hle⟩, -⟩ := hloop
  have hbody : (fun l : BatchLoop threads => some (l.body deg)) s.enter = some (s.enter.body deg) :=
    rfl
  refine ⟨l, ?_, hl, by omega⟩
  rw [NextBatch.call, Loop.run_succ hcond hbody hrun]
  rfl

/-- What the calls so far have returned. -/
structure Draining (deg : Nat → Nat) (s : NextBatch threads)
    (p : NextBatch threads × List (List VInterval)) : Prop where
  b_eq : p.1.b = s.b
  end_eq : p.1.end_ = s.end_
  capacity_eq : p.1.capacity = s.capacity
  emits : Emits s.b deg s.end_ (s.cur_v, s.cur_e) p.2.flatten (p.1.cur_v, p.1.cur_e)
  inside : Inside deg s.end_ (p.1.cur_v, p.1.cur_e)
  edges_le : ∀ vec ∈ p.2, (vec.map fun i => i.end_ - i.start).sum ≤ s.capacity
  nonempty : ∀ vec ∈ p.2, ∀ i ∈ vec, i.start < i.end_

/-- Calling the iterator until it is done returns batches that list the first vertex untested and
    the wanted vertices after it. -/
theorem drain_spec (b : Bitmap threads) {start end_ capacity : Nat}
    (hb : Bounded deg end_ capacity) :
    ∃ fuel batches, drain fuel deg (NextBatch.new b start end_ capacity) = some batches ∧
      (∀ vec ∈ batches, (vec.map fun i => i.end_ - i.start).sum ≤ capacity) ∧
      (∀ vec ∈ batches, ∀ i ∈ vec, i.start < i.end_) ∧
      Lists deg (visited b deg start end_) batches.flatten := by
  let s := NextBatch.new b start end_ capacity
  let fuel := turnsLeft end_ s
  have hloop : ∃ p, Loop.run (fun p : NextBatch threads × List (List VInterval) => !p.1.isDone)
      (fun p => (p.1.call fuel deg).map fun q => (q.1, p.2 ++ [q.2])) fuel (s, []) = some p ∧
      (Draining deg s p ∧ turnsLeft end_ p.1 ≤ fuel) ∧ (!p.1.isDone) = false := by
    refine Loop.run_total (fun p => Draining deg s p ∧ turnsLeft end_ p.1 ≤ fuel)
      (fun p => turnsLeft end_ p.1) (fun p hp hcond => ?_) ⟨?_, Nat.le_refl _⟩ (Nat.le_refl _)
    · obtain ⟨h, hfuel⟩ := hp
      have hend : p.1.end_ = end_ := h.end_eq
      have hcap : p.1.capacity = capacity := h.capacity_eq
      have hcall : ∃ l, p.1.call fuel deg = some (l.self, l.vec) ∧ Filling deg p.1 l ∧
          turnsLeft p.1.end_ l.self < turnsLeft p.1.end_ p.1 :=
        call_spec (by rw [hend, hcap]; exact hb) (by rw [hend]; exact h.inside)
          (by simpa using hcond) (by rw [hend]; exact hfuel)
      obtain ⟨l, hcall, hl, hless⟩ := hcall
      rw [hend] at hless
      refine ⟨(l.self, p.2 ++ [l.vec]),
        by rw [hcall]; rfl, ⟨⟨?_, ?_, ?_, ?_, ?_, ?_, ?_⟩, ?_⟩, hless⟩
      · exact hl.b_eq.trans h.b_eq
      · exact hl.end_eq.trans h.end_eq
      · exact hl.capacity_eq.trans h.capacity_eq
      · have hemits := hl.emits
        rw [h.b_eq, h.end_eq] at hemits
        rw [List.flatten_append, List.flatten_singleton]
        exact h.emits.trans hemits
      · have hinside := hl.inside
        rw [h.end_eq] at hinside
        exact hinside
      · intro vec hvec
        rcases List.mem_append.1 hvec with hvec | hvec
        · exact h.edges_le vec hvec
        · rw [List.mem_singleton.1 hvec, ← hl.edges, ← h.capacity_eq]
          exact hl.edges_le
      · intro vec hvec
        rcases List.mem_append.1 hvec with hvec | hvec
        · exact h.nonempty vec hvec
        · rw [List.mem_singleton.1 hvec]
          exact hl.nonempty
      · exact Nat.le_trans (Nat.le_of_lt hless) hfuel
    · exact ⟨rfl, rfl, rfl, .refl _, fun _ => Or.inl rfl,
        fun vec hvec => absurd hvec List.not_mem_nil, fun vec hvec => absurd hvec List.not_mem_nil⟩
  obtain ⟨p, hrun, ⟨h, -⟩, hdone⟩ := hloop
  refine ⟨fuel, p.2, ?_, h.edges_le, h.nonempty, h.emits.lists ?_⟩
  · rw [drain, hrun]
    rfl
  · have hend : p.1.end_ = end_ := h.end_eq
    have hle : p.1.end_ ≤ p.1.cur_v := by simpa [NextBatch.isDone] using hdone
    change end_ ≤ p.1.cur_v
    omega

/-- More fuel gives the same batches. -/
theorem drain_mono {fuel fuel' : Nat} {batches : List (List VInterval)}
    (h : drain fuel deg s = some batches) (hle : fuel ≤ fuel') :
    drain fuel' deg s = some batches := by
  have hcall :
      ∀ (s : NextBatch threads) q, s.call fuel deg = some q → s.call fuel' deg = some q := by
    intro s q hq
    obtain ⟨l, hrun, hl⟩ := Option.map_eq_some_iff.1 hq
    exact Option.map_eq_some_iff.2 ⟨l, Loop.run_mono hrun hle, hl⟩
  obtain ⟨p, hrun, hp⟩ := Option.map_eq_some_iff.1 h
  refine Option.map_eq_some_iff.2 ⟨p, Loop.run_mono (Loop.run_body_mono ?_ hrun) hle, hp⟩
  intro r r' hr
  obtain ⟨q, hq, hr'⟩ := Option.map_eq_some_iff.1 hr
  exact Option.map_eq_some_iff.2 ⟨q, hcall r.1 q hq, hr'⟩

/-- The batches do not depend on the fuel. -/
theorem drain_unique {fuel fuel' : Nat} {batches batches' : List (List VInterval)}
    (h : drain fuel deg s = some batches) (h' : drain fuel' deg s = some batches') :
    batches = batches' := by
  have hleft := drain_mono h (Nat.le_max_left fuel fuel')
  have hright := drain_mono h' (Nat.le_max_right fuel fuel')
  rw [hleft] at hright
  exact Option.some.inj hright

/-! ### When the enumeration is right -/

/-- The first vertex passes for a wanted one exactly if it has no edges or is active. -/
theorem visited_eq_wanted {start : Nat} (h : start < end_ → 0 < deg start → b.Active start) :
    visited b deg start end_ = wanted b deg start end_ := by
  rw [visited]
  rcases Nat.lt_or_ge start end_ with hlt | hge
  · have hiff : (start < end_ ∧ 0 < deg start) ↔ (b.Active start ∧ 0 < deg start) :=
      ⟨fun hin => ⟨h hlt hin.2, hin.2⟩, fun hin => ⟨hlt, hin.2⟩⟩
    rw [wanted_of_lt b deg hlt, if_congr hiff rfl rfl]
  · have hnot : ¬ (start < end_ ∧ 0 < deg start) := by omega
    rw [if_neg hnot, wanted_of_le b deg hge, wanted_of_le b deg (by omega)]
    rfl

/-- Calling the iterator over `[start, end_)` until it is done ends with the right batches exactly
    if the sub-range is empty, or its first vertex has no edges or is active. -/
theorem enumerates_iff_start_active (b : Bitmap threads) (deg : Nat → Nat)
    (start end_ capacity : Nat) (hb : Bounded deg end_ capacity) :
    (∃ fuel batches, drain fuel deg (NextBatch.new b start end_ capacity) = some batches ∧
      Enumerates b deg start end_ capacity batches) ↔
      (start < end_ → 0 < deg start → b.Active start) := by
  have hspec : ∃ fuel batches, drain fuel deg (NextBatch.new b start end_ capacity) = some batches ∧
      (∀ vec ∈ batches, (vec.map fun i => i.end_ - i.start).sum ≤ capacity) ∧
      (∀ vec ∈ batches, ∀ i ∈ vec, i.start < i.end_) ∧
      Lists deg (visited b deg start end_) batches.flatten := drain_spec b hb
  obtain ⟨fuel, batches, hdrain, hcapacity, hnonempty, hlists⟩ := hspec
  constructor
  · rintro ⟨fuel', batches', hdrain', henum⟩ hlt hdeg
    obtain rfl := drain_unique hdrain hdrain'
    have hin : start ∈ visited b deg start end_ := by
      rw [visited, if_pos ⟨hlt, hdeg⟩]
      exact List.mem_append_left _ List.mem_cons_self
    obtain ⟨i, hi, hiv⟩ := hlists.exists_of_mem hin hdeg
    have hwanted := henum.lists.vertex_mem i hi
    rw [hiv, wanted, List.mem_filter, decide_eq_true_eq] at hwanted
    exact hwanted.2.1
  · intro h
    rw [visited_eq_wanted h] at hlists
    exact ⟨fuel, batches, hdrain, hcapacity, hnonempty, hlists, hlists.edges_eq⟩

/-- A sub-range that begins with its only, active vertex is enumerated. -/
theorem enumerates_active_start : ∃ fuel batches,
    drain fuel (fun _ => 3) (NextBatch.new ((Bitmap.fresh 2 : Bitmap 1).setBit 0 1).1 1 2 2) =
        some batches ∧
      Enumerates ((Bitmap.fresh 2 : Bitmap 1).setBit 0 1).1 (fun _ => 3) 1 2 2 batches :=
  (enumerates_iff_start_active _ _ 1 2 2 ⟨by decide, by decide, by decide, fun _ => by decide⟩).2
    fun _ _ => (Bitmap.active_setBit _ 0 1 1).2 (Or.inl rfl)

/-- With no bit set, a sub-range of one vertex with one edge still hands out that edge. -/
theorem inactive_start_enumerated :
    drain 5 (fun _ => 1) (NextBatch.new (Bitmap.fresh 1 : Bitmap 1) 0 1 1) = some [[⟨0, 1, 0, 1⟩]] ∧
      ¬ ∃ fuel batches,
        drain fuel (fun _ => 1) (NextBatch.new (Bitmap.fresh 1 : Bitmap 1) 0 1 1) = some batches ∧
          Enumerates (Bitmap.fresh 1 : Bitmap 1) (fun _ => 1) 0 1 1 batches := by
  have hrun : drain 5 (fun _ => 1) (NextBatch.new (Bitmap.fresh 1 : Bitmap 1) 0 1 1) =
      some [[⟨0, 1, 0, 1⟩]] := by decide
  refine ⟨hrun, ?_⟩
  rintro ⟨fuel, batches, hdrain, henum⟩
  obtain rfl := drain_unique hrun hdrain
  have hwanted := henum.lists.vertex_mem ⟨0, 1, 0, 1⟩ (by decide)
  exact absurd hwanted (by decide)

end FamGraph.Edgemap
