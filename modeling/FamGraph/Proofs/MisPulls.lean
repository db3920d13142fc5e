/-
Module: FamGraph.Proofs.MisPulls
Layer: Proofs
Purpose: How often `mis_kernel::operator()` pulls a vertex. A pull that leaves its vertex undecided
  has met an undecided neighbour with priority, and of two undecided vertices in the window the
  greater was never pulled more often. So a vertex pulled `n + 1` times stands at the top of a
  descending path of `n` arcs, for every interleaving of the pulls and every width of the window.
Trusted boundary: none
Main exports: notePulls, pullHistory, Justified, mis_pulls_within_descent
-/
import FamGraph.Proofs.KernelRelations

namespace FamGraph.Mis

variable {threads : Nat} {G : Graph} {delta : BitVec 32} {s t : MisState threads G}
  {log : List G.Vertex}

/-! ### The pulls of a run -/

/-- The vertices the drivers have been given to call `pull` on, driver after driver. -/
def notePulls (s t : MisState threads G) (log : List G.Vertex) : List G.Vertex :=
  match s.control, t.control with
  | .head, .frontierPulls pool => log ++ pool.map Pull.source
  | .frontierPulls _, .rangePulls pool => log ++ pool.map Pull.source
  | _, _ => log

/-- `mis_kernel::operator()` with the pulls it has started. -/
def pullHistory (helpers : Nat) (G : Graph) (divisor : BitVec 32) :
    TransitionSystem (MisState (helpers + 1) G × List G.Vertex) :=
  (system helpers G divisor).withHistory [] notePulls

/-- A driver call adds one to the count of each vertex it is for. -/
theorem count_append_call (log : List G.Vertex) {called : List G.Vertex} (hnodup : called.Nodup)
    (v : G.Vertex) :
    (log ++ called).count v = log.count v + if v ∈ called then 1 else 0 := by
  rw [List.count_append, hnodup.count]

/-- The pulls of the frontier are for the undecided vertices below the window end. -/
theorem AtHead.mem_frontierPulls (h : AtHead delta s) {v : G.Vertex} :
    v ∈ s.frontierPulls.map Pull.source ↔ v ∈ undecidedBelow s.end_.toNat s.shared.vtable := by
  rw [mem_undecidedBelow]
  constructor
  · intro hv
    have hbelow := (frontierPulls_source s).2 v hv
    rw [MisState.frontierPulls] at hv
    split at hv
    · have hwanted := (pulls_source _).2 v hv
      rw [Bool.and_eq_true] at hwanted
      exact (h.frontier v).1 (of_decide_eq_true hwanted.1)
    · exact absurd hv List.not_mem_nil
  · rintro ⟨hlt, hund⟩
    rcases h.enter.holds.covered v with ⟨l, hl, rfl, -⟩ | hpaid
    · exact List.mem_map_of_mem hl
    · exact absurd (hpaid hlt hund) (h.next_empty v)

/-- The pulls of the range are for the vertices of it with out-edges. -/
theorem mem_rangePulls {v : G.Vertex} :
    v ∈ s.rangePulls.map Pull.source ↔
    (s.start.toNat ≤ v.val ∧ v.val < s.end_.toNat) ∧ G.out v ≠ [] := by
  rw [MisState.rangePulls]
  split
  · rw [map_source_pulls, Graph.mem_calls, Bool.and_eq_true, decide_eq_true_iff, decide_eq_true_iff]
  · rename_i hempty
    have hle : ¬ s.start.toNat < s.end_.toNat := hempty
    constructor
    · exact fun hv => absurd hv List.not_mem_nil
    · rintro ⟨⟨hge, hlt⟩, -⟩
      exact absurd (Nat.lt_of_le_of_lt hge hlt) hle

/-- Nobody waits before his pull has begun. -/
theorem not_waits_of_mem_pulls {wanted : G.Vertex → Bool} {l : Pull G} (hl : l ∈ pulls wanted) :
    ¬ l.Waits := by
  obtain ⟨v, -, rfl⟩ := List.mem_map.1 hl
  exact id

theorem not_waits_frontierPulls {l : Pull G} (hl : l ∈ s.frontierPulls) : ¬ l.Waits := by
  rw [MisState.frontierPulls] at hl
  split at hl
  · exact not_waits_of_mem_pulls hl
  · exact absurd hl List.not_mem_nil

theorem not_waits_rangePulls {l : Pull G} (hl : l ∈ s.rangePulls) : ¬ l.Waits := by
  rw [MisState.rangePulls] at hl
  split at hl
  · exact not_waits_of_mem_pulls hl
  · exact absurd hl List.not_mem_nil

/-! ### What justifies another pull -/

/-- The vertex is to be pulled again: it is in the next frontier, or its pull has met an undecided
    neighbour. -/
def Again (next_frontier : Bitmap threads) (pool : List (Pull G)) (v : G.Vertex) : Prop :=
  next_frontier.Active v ∨ ∃ l ∈ pool, l.Waits ∧ v = l.source

/-- What will be pulled in the next iteration, as far as this is settled. -/
def MisState.again (s : MisState threads G) : G.Vertex → Prop :=
  match s.control with
  | .head => fun v => s.frontier.Active v
  | .frontierPulls pool => Again s.next_frontier pool
  | .rangePulls pool => Again s.next_frontier pool
  | .stopped => fun _ => False

/-- Every pull after the first is justified by one more arc of a descending path. Of two undecided
    vertices below the window end, the smaller has been pulled at least as often. -/
structure Justified (log : List G.Vertex) (s : MisState threads G) (again : G.Vertex → Prop) :
    Prop where
  spent : ∀ v, ∀ n < log.count v, G.adjacency.Descent n v
  again : ∀ v, again v → G.adjacency.Descent (log.count v) v
  ordered : ∀ v w, w < v → v ∈ undecidedBelow s.end_.toNat s.shared.vtable →
    w ∈ undecidedBelow s.end_.toNat s.shared.vtable → log.count v ≤ log.count w
  begun : ∀ v : G.Vertex, v.val < s.end_.toNat → G.out v ≠ [] → 0 < log.count v
  ahead : ∀ v : G.Vertex, s.end_.toNat ≤ v.val → log.count v = 0
  arcs : ∀ v ∈ log, G.out v ≠ []

/-- An undecided vertex has out-edges. -/
theorem Bookkeeping.out_ne_nil {bound : Nat} {p : Shared threads G × Bitmap threads}
    (h : Bookkeeping bound p) {v : G.Vertex} (hund : (p.1.vtable v).flag = .UNDECIDED) :
    G.out v ≠ [] := by
  intro hnil
  rw [h.isolated v hnil] at hund
  cases hund

/-- A pull begins to wait for a neighbour with priority. -/
theorem Acts.waits_for {bound : Nat} {p p' : Shared threads G × Bitmap threads} {l l' : Pull G}
    (h : Acts p l p' l') (hl : l.Knows bound p) (hwaits : l'.Waits) :
    l.Waits ∨ ∃ w ∈ G.out l.source, w < l.source ∧ (p.1.vtable w).flag = .UNDECIDED := by
  cases h with
  | refused hout => exact hwaits.elim
  | entered hout => cases hwaits
  | passed hle => exact .inl hwaits
  | waits hlt hflag => exact .inr ⟨_, hl.2.1 _ List.mem_cons_self, hlt, hflag⟩
  | beaten hlt hflag => cases hwaits
  | clear hlt hflag => exact .inl hwaits
  | undecided => exact .inl rfl
  | decided hdecided => exact hwaits.elim
  | activate t => exact .inl trivial
  | countNext t => exact .inl trivial
  | countDecided t => exact absurd hwaits hl.2.1
  | write => exact hwaits.elim

/-! ### One step -/

/-- The driver of the frontier. -/
theorem Justified.enter (h : Justified log s fun v => s.frontier.Active v) (hs : AtHead delta s) :
    Justified (log ++ s.frontierPulls.map Pull.source)
      { s with control := .frontierPulls s.frontierPulls }
      (Again s.next_frontier s.frontierPulls) := by
  have hcount := count_append_call log (frontierPulls_source s).1
  refine ⟨fun v n hn => ?_, fun v hv => ?_, fun v w hlt hv hw => ?_, fun v hv hout => ?_,
    fun v hv => ?_, fun v hv => ?_⟩
  · rw [hcount] at hn
    by_cases hcall : v ∈ s.frontierPulls.map Pull.source
    · rw [if_pos hcall] at hn
      rcases Nat.lt_succ_iff_lt_or_eq.1 hn with hold | rfl
      · exact h.spent v n hold
      · exact h.again v ((hs.frontier v).2 (mem_undecidedBelow.1 (hs.mem_frontierPulls.1 hcall)))
    · rw [if_neg hcall] at hn
      exact h.spent v n hn
  · rcases hv with hactive | ⟨l, hl, hwaits, -⟩
    · exact absurd hactive (hs.next_empty v)
    · exact absurd hwaits (not_waits_frontierPulls hl)
  · rw [hcount, hcount, if_pos (hs.mem_frontierPulls.2 hv), if_pos (hs.mem_frontierPulls.2 hw)]
    exact Nat.succ_le_succ (h.ordered v w hlt hv hw)
  · rw [hcount]
    exact Nat.add_pos_left (h.begun v hv hout) _
  · have hcall : v ∉ s.frontierPulls.map Pull.source := fun hmem =>
      absurd ((frontierPulls_source s).2 v hmem) (Nat.not_lt.2 hv)
    rw [hcount, if_neg hcall]
    exact h.ahead v hv
  · rcases List.mem_append.1 hv with hold | hcall
    · exact h.arcs v hold
    · exact hs.book.out_ne_nil (mem_undecidedBelow.1 (hs.mem_frontierPulls.1 hcall)).2

/-- One step of a pull. The neighbour it waits for lies on a descending path as long as its own
    pulls are many. -/
theorem Justified.step {room : Nat} {pool pool' : List (Pull G)} {shared : Shared threads G}
    {next_frontier : Bitmap threads} {control : Control G}
    (h : Justified log s (Again s.next_frontier pool)) (hs : Pulling room s pool)
    (hstep : TaskPool.Step Act ((s.shared, s.next_frontier), pool)
      ((shared, next_frontier), pool')) :
    Justified log { s with shared := shared, next_frontier := next_frontier, control := control }
      (Again next_frontier pool') := by
  obtain ⟨before, l, l', after, rfl, rfl, hact⟩ := hstep.cases_on
  have hmem : l ∈ before ++ l :: after := List.mem_append_right _ List.mem_cons_self
  have hacts := acts_of_act hact
  have hknows := hs.holds.tasks l hmem
  have hund := hknows.undecided hacts.running
  have hlt := hknows.lt_bound hacts.running hs.holds.shared
  have hbelow : ∀ v, v ∈ undecidedBelow s.end_.toNat shared.vtable →
      v ∈ undecidedBelow s.end_.toNat s.shared.vtable := by
    intro v hv
    rw [mem_undecidedBelow] at hv ⊢
    exact ⟨hv.1, (hacts.settles hknows).undecided hv.2⟩
  have hown : l'.Waits → G.adjacency.Descent (log.count l.source) l.source := by
    intro hwaits
    rcases hacts.waits_for hknows hwaits with hold | ⟨w, harc, hwlt, hflag⟩
    · exact h.again _ (.inr ⟨l, hmem, hold, rfl⟩)
    · have hle : log.count l.source ≤ log.count w :=
        h.ordered _ w hwlt (mem_undecidedBelow.2 ⟨hlt, hund⟩)
          (mem_undecidedBelow.2 ⟨Nat.lt_trans hwlt hlt, hflag⟩)
      have hpos : 0 < log.count l.source := h.begun _ hlt (List.ne_nil_of_mem harc)
      obtain ⟨n, hn⟩ := Nat.exists_eq_succ_of_ne_zero hpos.ne'
      rw [hn]
      exact .cons harc hwlt (h.spent w n (by omega))
  refine ⟨h.spent, fun v hv => ?_,
    fun v w hwv hv hw => h.ordered v w hwv (hbelow v hv) (hbelow w hw), h.begun, h.ahead, h.arcs⟩
  rcases hv with hactive | ⟨m, hm, hwaits, rfl⟩
  · rcases hacts.activated hactive with hold | ⟨hwaits, rfl⟩
    · exact h.again v (.inl hold)
    · exact h.again _ (.inr ⟨l, hmem, hwaits, rfl⟩)
  · rcases TaskPool.mem_after_act (l := l) hm with rfl | hold
    · rw [hacts.source_eq]
      exact hown hwaits
    · exact h.again _ (.inr ⟨m, hold, hwaits, rfl⟩)

/-- The driver of the new range pulls its vertices for the first time. -/
theorem Justified.breakGround {pool : List (Pull G)}
    (h : Justified log s (Again s.next_frontier pool)) (hs : Pulling s.front_size.toNat s pool)
    (hle : s.end_.toNat ≤ (s.nextEnd delta).toNat) (hstart : s.start = s.end_) :
    Justified (log ++ { s with end_ := s.nextEnd delta }.rangePulls.map Pull.source)
      { s with
        end_ := s.nextEnd delta
        control := .rangePulls { s with end_ := s.nextEnd delta }.rangePulls }
      (Again s.next_frontier { s with end_ := s.nextEnd delta }.rangePulls) := by
  have hcount := count_append_call log (rangePulls_source { s with end_ := s.nextEnd delta }).1
  have hrange : ∀ v : G.Vertex, v ∈ { s with end_ := s.nextEnd delta }.rangePulls.map Pull.source ↔
      (s.end_.toNat ≤ v.val ∧ v.val < (s.nextEnd delta).toNat) ∧ G.out v ≠ [] := by
    intro v
    rw [mem_rangePulls]
    exact hstart ▸ Iff.rfl
  have hbegun : ∀ v : G.Vertex, v.val < (s.nextEnd delta).toNat → G.out v ≠ [] →
      0 < (log ++ { s with end_ := s.nextEnd delta }.rangePulls.map Pull.source).count v := by
    intro v hv hout
    rw [hcount]
    rcases Nat.lt_or_ge v.val s.end_.toNat with hold | hnew
    · exact Nat.add_pos_left (h.begun v hold hout) _
    · rw [if_pos ((hrange v).2 ⟨⟨hnew, hv⟩, hout⟩)]
      exact Nat.succ_pos _
  -- below the old window end nothing is called
  have hsame : ∀ v : G.Vertex, v.val < s.end_.toNat →
      (log ++ { s with end_ := s.nextEnd delta }.rangePulls.map Pull.source).count v =
        log.count v := by
    intro v hv
    rw [hcount, if_neg fun hmem => absurd ((hrange v).1 hmem).1.1 (Nat.not_le.2 hv), Nat.add_zero]
  refine ⟨fun v n hn => ?_, fun v hv => ?_, fun v w hlt hv hw => ?_, hbegun, fun v hv => ?_,
    fun v hv => ?_⟩
  · rcases Nat.lt_or_ge v.val s.end_.toNat with hold | hnew
    · exact h.spent v n (hsame v hold ▸ hn)
    · rw [hcount, h.ahead v hnew] at hn
      have hzero : n = 0 := by
        split at hn <;> omega
      exact hzero ▸ .nil
  · rcases hv with hactive | ⟨l, hl, hwaits, -⟩
    · rw [hsame v (hs.holds.shared.next v hactive).1]
      exact h.again v (.inl hactive)
    · exact absurd hwaits (not_waits_rangePulls hl)
  · have hv' := mem_undecidedBelow.1 hv
    have hw' := mem_undecidedBelow.1 hw
    rcases Nat.lt_or_ge v.val s.end_.toNat with hold | hnew
    · have hwold : w.val < s.end_.toNat := Nat.lt_trans hlt hold
      rw [hsame v hold, hsame w hwold]
      exact h.ordered v w hlt (mem_undecidedBelow.2 ⟨hold, hv'.2⟩)
        (mem_undecidedBelow.2 ⟨hwold, hw'.2⟩)
    · apply Nat.le_trans _ (hbegun w hw'.1 (hs.holds.shared.out_ne_nil hw'.2))
      rw [hcount, h.ahead v hnew]
      split <;> omega
  · have hcall : v ∉ { s with end_ := s.nextEnd delta }.rangePulls.map Pull.source := fun hmem =>
      absurd ((hrange v).1 hmem).1.2 (Nat.not_lt.2 hv)
    rw [hcount, if_neg hcall]
    exact h.ahead v (Nat.le_trans hle hv)
  · rcases List.mem_append.1 hv with hold | hcall
    · exact h.arcs v hold
    · exact ((hrange v).1 hcall).2

/-- One step of `operator()`, with the pulls it starts. -/
theorem Justified.along (h : Justified log s s.again) (hs : Invariant delta s)
    (hroom : RoomToBreak delta s) (hst : Step delta s t) :
    Justified (notePulls s t log) t t.again := by
  have hmono := hs.end_mono hroom hst
  cases hst with
  | enter hctl hpos =>
      simp only [Invariant, hctl] at hs
      simp only [MisState.again, hctl] at h
      simp only [notePulls, hctl]
      exact h.enter hs
  | pullFrontier hctl hstep =>
      simp only [Invariant, hctl] at hs
      simp only [MisState.again, hctl] at h
      simp only [notePulls, hctl]
      exact h.step hs.1 hstep
  | breakGround hctl hall =>
      simp only [Invariant, hctl] at hs
      simp only [MisState.again, hctl] at h
      simp only [notePulls, hctl]
      exact h.breakGround hs.1 hmono hs.2.1
  | pullRange hctl hstep =>
      simp only [Invariant, hctl] at hs
      simp only [MisState.again, hctl] at h
      simp only [notePulls, hctl]
      exact h.step hs hstep
  | finish hctl hall =>
      simp only [MisState.again, hctl] at h
      simp only [notePulls, hctl]
      exact ⟨h.spent, fun v hv => h.again v (.inl hv), h.ordered, h.begun, h.ahead, h.arcs⟩
  | stop hctl hzero =>
      simp only [notePulls, hctl]
      exact ⟨h.spent, fun v hv => hv.elim, h.ordered, h.begun, h.ahead, h.arcs⟩

/-! ### Every run -/

variable {helpers : Nat} {divisor : BitVec 32}

/-- All pulls of a run are justified. -/
theorem justified_of_run (hroom : G.num_vertices + G.num_vertices / divisor.toNat < 2 ^ 32)
    {s : MisState (helpers + 1) G} (h : (pullHistory helpers G divisor).Reachable (s, log)) :
    Justified log s s.again := by
  apply TransitionSystem.Reachable.induct
    (I := fun p : MisState (helpers + 1) G × List G.Vertex => Justified p.2 p.1 p.1.again) _ _ h
  · rintro ⟨s, log⟩ ⟨⟨-, rfl⟩, hempty⟩
    cases hempty
    refine ⟨fun v n hn => absurd hn (Nat.not_lt_zero n), fun v hv => ?_, fun v w _ hv _ => ?_,
      fun v hv => ?_, fun v _ => rfl, fun v hv => absurd hv List.not_mem_nil⟩
    · exact absurd hv (Bitmap.not_active_fresh _ _)
    · exact absurd (mem_undecidedBelow.1 hv).1 (Nat.not_lt_zero _)
    · exact absurd hv (Nat.not_lt_zero _)
  · rintro ⟨s, log⟩ ⟨t, log'⟩ hreach hs ⟨hst, hnote⟩
    obtain rfl : log' = notePulls s t log := hnote
    have hinv := reachable_invariant hroom hreach.of_history
    refine hs.along hinv (hinv.roomToBreak ?_) hst
    rwa [delta_toNat]

/-- For every interleaving of the pulls and every window width, a vertex that `operator()` has
    pulled `n + 1` times stands at the top of a descending path of `n` arcs. So if no such path has
    more than `depth` arcs, at most `depth + 1` pulls are made for each vertex with out-edges, and
    when the loop stops at least one. -/
theorem mis_pulls_within_descent (helpers : Nat) (G : Graph) (divisor : BitVec 32)
    (hroom : G.num_vertices + G.num_vertices / divisor.toNat < 2 ^ 32) :
    ∀ s log, (pullHistory helpers G divisor).Reachable (s, log) →
      (∀ v n, log.count v = n + 1 → G.adjacency.Descent n v) ∧
      (∀ depth, (∀ v n, G.adjacency.Descent n v → n ≤ depth) →
        log.length ≤ (Finset.univ.filter fun v : G.Vertex => G.out v ≠ []).card * (depth + 1)) ∧
      (s.control = .stopped → ∀ v, v ∈ log ↔ G.out v ≠ []) := by
  intro s log hs
  have hjustified := justified_of_run hroom hs
  refine ⟨fun v n hn => hjustified.spent v n (by omega), fun depth hdepth => ?_,
    fun hstopped v => ?_⟩
  · have hcount : ∀ v ∈ log.toFinset, log.count v ≤ depth + 1 := by
      intro v _
      by_contra hmany
      have hdescent := hjustified.spent v (depth + 1) (Nat.not_le.1 hmany)
      exact absurd (hdepth v _ hdescent) (Nat.not_succ_le_self depth)
    have hsubset : log.toFinset ⊆ Finset.univ.filter fun v : G.Vertex => G.out v ≠ [] := by
      intro v hv
      exact Finset.mem_filter.2 ⟨Finset.mem_univ v, hjustified.arcs v (List.mem_toFinset.1 hv)⟩
    rw [← List.sum_toFinset_count_eq_length log]
    apply (Finset.sum_le_card_nsmul _ _ _ hcount).trans
    exact Nat.mul_le_mul_right _ (Finset.card_le_card hsubset)
  · refine ⟨hjustified.arcs v, fun hout => ?_⟩
    have hinv := reachable_invariant hroom hs.of_history
    simp only [Invariant, hstopped] at hinv
    have hdecided := (decided_of_stopped hinv.1 hinv.2).1 v
    rcases Nat.lt_or_ge v.val s.end_.toNat with hlt | hge
    · exact List.count_pos_iff.1 (hjustified.begun v hlt hout)
    · exact absurd (hinv.1.book.ahead v hge hout) hdecided

/-- On a single edge the first vertex is pulled once. -/
theorem mis_pulls_within_descent_edge :
    ∃ s log, (pullHistory 1 Graph.edge 1#32).Reachable (s, log) ∧ s.control = .stopped ∧
    (∀ v, v ∈ log) ∧ log.count ⟨0, by decide⟩ ≤ 1 := by
  have hroom :
      Graph.edge.num_vertices + Graph.edge.num_vertices / (1#32).toNat < 2 ^ 32 := by decide
  have hwindow : HasWindow Graph.edge 1#32 := ⟨by decide, .inl (by decide)⟩
  obtain ⟨s, hs, hstopped⟩ := exists_stopped hwindow hroom 1
  obtain ⟨log, hrun⟩ := hs.exists_history
  obtain ⟨hdescent, -, hall⟩ := mis_pulls_within_descent 1 Graph.edge 1#32 hroom s log hrun
  refine ⟨s, log, hrun, hstopped, fun v => (hall hstopped v).2 (List.cons_ne_nil _ _), ?_⟩
  by_contra hmany
  obtain ⟨n, hn⟩ := Nat.exists_eq_add_of_lt (Nat.not_le.1 hmany)
  have hleast : ∀ w : Fin 2, ¬ w < 0 := by decide
  have htwice : log.count ⟨0, by decide⟩ = n + 1 + 1 := by omega
  have hzero := (hdescent ⟨0, by decide⟩ (n + 1) htwice).eq_zero fun w _ => hleast w
  exact absurd hzero (Nat.succ_ne_zero n)

end FamGraph.Mis
