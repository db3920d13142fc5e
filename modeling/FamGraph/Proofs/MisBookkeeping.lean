/-
Module: FamGraph.Proofs.MisBookkeeping
Layer: Proofs
Purpose: The scheduling of `mis_kernel::operator()`. The window, the frontier and the two counts say
  at every loop head what their names promise; the window never shrinks; and no vertex is handed to
  `pull` decided, or twice in one iteration. The calls of an iteration are kept in a history
  variable.
Trusted boundary: none
Main exports: LoopHead, called, mis_bookkeeping
-/
import FamGraph.Proofs.Mis

namespace FamGraph.Mis

variable {threads : Nat} {G : Graph} {delta : BitVec 32} {s t : MisState threads G}

/-! ### The loop head -/

/-- What holds at the head of the loop, over the integers. -/
structure LoopHead (delta : Nat) (s : MisState threads G) : Prop where
  start_eq : s.start = s.end_
  end_le : s.end_.toNat ≤ G.num_vertices
  frontier : ∀ v : G.Vertex,
    s.frontier.Active v ↔ v.val < s.end_.toNat ∧ (s.shared.vtable v).flag = .UNDECIDED
  front_size : s.front_size.toNat = (undecidedBelow s.end_.toNat s.shared.vtable).card
  front_le : s.front_size.toNat ≤ delta
  undecided : s.undecided.toNat = (undecidedVertices s.shared.vtable).card

theorem AtHead.loopHead (h : AtHead delta s) : LoopHead delta.toNat s := by
  have hfront : s.front_size.toNat = (undecidedBelow s.end_.toNat s.shared.vtable).card := by
    rw [h.front_size, BitVec.toNat_ofNat, Nat.mod_eq_of_lt (Graph.card_lt _)]
  have hundecided : s.undecided.toNat = (undecidedVertices s.shared.vtable).card := by
    rw [h.undecided, BitVec.toNat_ofNat, Nat.mod_eq_of_lt (Graph.card_lt _)]
  exact ⟨h.start_eq, h.end_le, h.frontier, hfront, hfront ▸ h.front_le, hundecided⟩

/-- The window only grows. -/
theorem Invariant.end_mono (hroom : RoomToBreak delta s) (hs : Invariant delta s)
    (hst : Step delta s t) : s.end_.toNat ≤ t.end_.toNat := by
  cases hst with
  | breakGround hctl hall =>
      simp only [Invariant, hctl] at hs
      change s.end_.toNat ≤ (s.nextEnd delta).toNat
      rw [nextEnd_toNat (hroom _ hctl hall) hs.2.2]
      exact Nat.le_min.2 ⟨Nat.le_add_right _ _, hs.1.end_le⟩
  | enter hctl hpos => exact Nat.le_refl _
  | pullFrontier hctl hstep => exact Nat.le_refl _
  | pullRange hctl hstep => exact Nat.le_refl _
  | finish hctl hall => exact Nat.le_refl _
  | stop hctl hzero => exact Nat.le_refl _

/-- A pull that has not begun is for an undecided vertex. -/
theorem Invariant.enter_undecided (hs : Invariant delta s) {pool : List (Pull G)}
    (hctl : s.control = .frontierPulls pool ∨ s.control = .rangePulls pool) {v : G.Vertex}
    {edges : List G.Vertex} (hv : .enter v edges ∈ pool) :
    (s.shared.vtable v).flag = .UNDECIDED := by
  rcases hctl with hctl | hctl
  · simp only [Invariant, hctl] at hs
    exact (hs.1.holds.tasks _ hv).1.undecided
  · simp only [Invariant, hctl] at hs
    exact (hs.holds.tasks _ hv).1.undecided

/-! ### The calls of an iteration -/

/-- The vertices the drivers of the current iteration have been given to call `pull` on. -/
def called (s t : MisState threads G) (log : List G.Vertex) : List G.Vertex :=
  match s.control, t.control with
  | .head, .frontierPulls pool => pool.map Pull.source
  | .frontierPulls _, .rangePulls pool => log ++ pool.map Pull.source
  | _, _ => log

theorem map_source_pulls (wanted : G.Vertex → Bool) :
    (pulls wanted).map Pull.source = G.calls wanted := by
  rw [pulls, List.map_map]
  exact List.map_id _

/-- No vertex is called twice; what runs has been called; the driver of the frontier stays below the
    window end, where the driver of the new range begins. -/
structure CalledOnce (s : MisState threads G) (log : List G.Vertex) : Prop where
  nodup : log.Nodup
  frontier : ∀ pool, s.control = .frontierPulls pool →
    log = pool.map Pull.source ∧ ∀ v ∈ log, v.val < s.end_.toNat
  range : ∀ pool, s.control = .rangePulls pool → pool.map Pull.source <:+ log

/-- A driver calls no vertex twice, and only those it wants. -/
theorem pulls_source (wanted : G.Vertex → Bool) :
    ((pulls wanted).map Pull.source).Nodup ∧
    ∀ v ∈ (pulls wanted).map Pull.source, wanted v = true := by
  rw [map_source_pulls]
  exact ⟨G.nodup_calls _, fun v hv => (Graph.mem_calls.1 hv).1⟩

theorem frontierPulls_source (s : MisState threads G) :
    (s.frontierPulls.map Pull.source).Nodup ∧
      ∀ v ∈ s.frontierPulls.map Pull.source, v.val < s.end_.toNat := by
  rw [MisState.frontierPulls]
  split
  · refine ⟨(pulls_source _).1, fun v hv => ?_⟩
    have hwanted := (pulls_source _).2 v hv
    rw [Bool.and_eq_true] at hwanted
    exact of_decide_eq_true hwanted.2
  · exact ⟨.nil, fun _ hv => absurd hv List.not_mem_nil⟩

theorem rangePulls_source (s : MisState threads G) :
    (s.rangePulls.map Pull.source).Nodup ∧
      ∀ v ∈ s.rangePulls.map Pull.source, s.start.toNat ≤ v.val := by
  rw [MisState.rangePulls]
  split
  · refine ⟨(pulls_source _).1, fun v hv => ?_⟩
    have hwanted := (pulls_source _).2 v hv
    rw [Bool.and_eq_true] at hwanted
    exact of_decide_eq_true hwanted.1
  · exact ⟨.nil, fun _ hv => absurd hv List.not_mem_nil⟩

/-- Running pulls does not change whom they are for. -/
theorem map_source_step {p p' : Shared threads G × Bitmap threads} {pool pool' : List (Pull G)}
    (h : TaskPool.Step Act (p, pool) (p', pool')) : pool'.map Pull.source = pool.map Pull.source :=
  h.map_eq fun _ _ hact => (acts_of_act hact).source_eq

theorem CalledOnce.step {log : List G.Vertex} (h : CalledOnce s log) (hs : Invariant delta s)
    (hst : Step delta s t) : CalledOnce t (called s t log) := by
  cases hst with
  | enter hctl hpos =>
      obtain ⟨hnodup, hbelow⟩ := frontierPulls_source s
      simp only [called, hctl]
      refine ⟨hnodup, ?_, ?_⟩
      · rintro pool ⟨⟩
        exact ⟨rfl, hbelow⟩
      · rintro pool ⟨⟩
  | @pullFrontier pool shared next_frontier pool' hctl hstep =>
      obtain ⟨hlog, hbelow⟩ := h.frontier pool hctl
      simp only [called, hctl]
      refine ⟨h.nodup, ?_, ?_⟩
      · rintro pool ⟨⟩
        exact ⟨hlog.trans (map_source_step hstep).symm, hbelow⟩
      · rintro pool ⟨⟩
  | @breakGround pool hctl hall =>
      obtain ⟨hlog, hbelow⟩ := h.frontier pool hctl
      obtain ⟨hnodup, hfrom⟩ := rangePulls_source { s with end_ := s.nextEnd delta }
      simp only [Invariant, hctl] at hs
      simp only [called, hctl]
      refine ⟨?_, ?_, ?_⟩
      · apply h.nodup.append hnodup
        intro v hv hv'
        have hlt := hbelow v hv
        have hge : s.start.toNat ≤ v.val := hfrom v hv'
        rw [hs.2.1] at hge
        exact Nat.not_lt_of_le hge hlt
      · rintro pool ⟨⟩
      · rintro pool ⟨⟩
        exact List.suffix_append _ _
  | @pullRange pool shared next_frontier pool' hctl hstep =>
      have hsuffix := h.range pool hctl
      simp only [called, hctl]
      refine ⟨h.nodup, ?_, ?_⟩
      · rintro pool ⟨⟩
      · rintro pool ⟨⟩
        rw [map_source_step hstep]
        exact hsuffix
  | finish hctl hall =>
      simp only [called, hctl]
      refine ⟨h.nodup, ?_, ?_⟩
      · rintro pool ⟨⟩
      · rintro pool ⟨⟩
  | stop hctl hzero =>
      simp only [called, hctl]
      refine ⟨h.nodup, ?_, ?_⟩
      · rintro pool ⟨⟩
      · rintro pool ⟨⟩

/-- In every run each vertex is called at most once in an iteration. -/
theorem CalledOnce.of_reachable {helpers : Nat} {divisor : BitVec 32}
    (hroom : G.num_vertices + G.num_vertices / divisor.toNat < 2 ^ 32)
    {p : MisState (helpers + 1) G × List G.Vertex}
    (h : ((system helpers G divisor).withHistory [] called).Reachable p) : CalledOnce p.1 p.2 := by
  apply TransitionSystem.Reachable.induct (I := fun p => CalledOnce p.1 p.2) _ _ h
  · rintro ⟨s, log⟩ ⟨⟨-, hinit⟩, hlog⟩
    obtain rfl : s = initial (helpers + 1) G := hinit
    obtain rfl : log = [] := hlog
    exact ⟨.nil, nofun, nofun⟩
  · rintro ⟨s, log⟩ ⟨t, log'⟩ hreach hs ⟨hstep, hlog⟩
    obtain rfl : log' = called s t log := hlog
    exact hs.step (reachable_invariant hroom hreach.of_history) hstep

/-! ### The bookkeeping -/

theorem delta_toNat (divisor : BitVec 32) :
    (totalVerts G / divisor).toNat = G.num_vertices / divisor.toNat := by
  rw [BitVec.toNat_udiv, totalVerts_toNat]

/-- For every graph and divisor with room for `total_verts + delta` in 32 bits, and every
    interleaving of pulls: the window starts empty, the loop head finds window, frontier and counts
    right, the assertion holds and the window does not shrink, a pull begins on an undecided vertex,
    and no vertex is called twice in one iteration. -/
theorem mis_bookkeeping (helpers : Nat) (G : Graph) (divisor : BitVec 32)
    (hroom : G.num_vertices + G.num_vertices / divisor.toNat < 2 ^ 32) :
    (∀ s, (system helpers G divisor).init s → s.start = 0#32 ∧ s.end_ = 0#32) ∧
    (∀ s, (system helpers G divisor).Reachable s →
      (s.control = .head → LoopHead (G.num_vertices / divisor.toNat) s) ∧
      (∀ pool, s.control = .frontierPulls pool →
        s.front_size.toNat ≤ G.num_vertices / divisor.toNat ∧
          (s.nextEnd (totalVerts G / divisor)).toNat =
            min (s.end_.toNat + (G.num_vertices / divisor.toNat - s.front_size.toNat))
              G.num_vertices) ∧
      (∀ t, (system helpers G divisor).step s t → s.end_.toNat ≤ t.end_.toNat) ∧
      (∀ pool, s.control = .frontierPulls pool ∨ s.control = .rangePulls pool → ∀ v edges,
        .enter v edges ∈ pool → (s.shared.vtable v).flag = .UNDECIDED)) ∧
    ∀ s log, ((system helpers G divisor).withHistory [] called).Reachable (s, log) →
    CalledOnce s log := by
  have hroom' : G.num_vertices + (totalVerts G / divisor).toNat < 2 ^ 32 := by
    rw [delta_toNat]
    exact hroom
  refine ⟨?_, ?_, ?_⟩
  · rintro s ⟨-, rfl⟩
    exact ⟨rfl, rfl⟩
  · intro s hs
    have hinv := reachable_invariant hroom hs
    refine ⟨?_, ?_, ?_, ?_⟩
    · intro hctl
      simp only [Invariant, hctl] at hinv
      exact delta_toNat divisor ▸ hinv.loopHead
    · intro pool hctl
      simp only [Invariant, hctl] at hinv
      have hle : s.front_size.toNat ≤ (totalVerts G / divisor).toNat := hinv.2.2
      have hend := hinv.1.end_le
      rw [nextEnd_toNat (by rw [HasRoom]; omega) hinv.2.2]
      rw [delta_toNat] at hle ⊢
      exact ⟨hle, rfl⟩
    · intro t hst
      exact hinv.end_mono (hinv.roomToBreak hroom') hst
    · intro pool hctl v edges hv
      exact hinv.enter_undecided hctl hv
  · intro s log hreach
    exact CalledOnce.of_reachable hroom hreach

/-- The next accesses of one pull, as many as there are up to a number. -/
def pullSteps (t : Fin threads) : Nat → Shared threads G × Bitmap threads → Pull G →
    (Shared threads G × Bitmap threads) × Pull G
  | 0, p, l => (p, l)
  | n + 1, p, l =>
      match pullStep t p l with
      | none => (p, l)
      | some (p', l') => pullSteps t n p' l'

/-- One pull of the range takes its accesses, and the others wait. -/
theorem reachable_pullSteps {helpers : Nat} {divisor : BitVec 32} (t : Fin (helpers + 1)) (n : Nat)
    (before after : List (Pull G)) {s : MisState (helpers + 1) G} {l : Pull G}
    (h : (system helpers G divisor).Reachable s)
    (hctl : s.control = .rangePulls (before ++ l :: after)) :
    (system helpers G divisor).Reachable
      { s with
        shared := (pullSteps t n (s.shared, s.next_frontier) l).1.1
        next_frontier := (pullSteps t n (s.shared, s.next_frontier) l).1.2
        control :=
          .rangePulls (before ++ (pullSteps t n (s.shared, s.next_frontier) l).2 :: after) } := by
  induction n generalizing s l with
  | zero =>
      rw [pullSteps, ← hctl]
      exact h
  | succ n ih =>
      rw [pullSteps]
      cases hnext : pullStep t (s.shared, s.next_frontier) l with
      | none =>
          rw [← hctl]
          exact h
      | some next =>
          obtain ⟨⟨shared, next_frontier⟩, l'⟩ := next
          exact ih (h.step (.pullRange hctl (.intro before after ⟨t, hnext⟩))) rfl

/-- On a single edge, with a window of both vertices, of which the second is pulled first: the loop
    head finds it on the frontier. -/
theorem mis_bookkeeping_edge :
    ∃ s, (system 0 Graph.edge 1#32).Reachable s ∧ s.control = .head ∧ s.end_ = 2#32 ∧
      s.front_size = 1#32 ∧ LoopHead 2 s := by
  have hrange := ((TransitionSystem.Reachable.of_init (M := system 0 Graph.edge 1#32)
    (s := initial 1 Graph.edge) ⟨by decide, rfl⟩).step (.enter rfl (by decide))).step
    (.breakGround rfl (by decide))
  have hsecond := reachable_pullSteps 0 8 [.enter ⟨0, by decide⟩ [⟨1, by decide⟩]] [] hrange rfl
  have hfirst := reachable_pullSteps 0 8 [] [.returned ⟨1, by decide⟩] hsecond rfl
  have hhead := hfirst.step (.finish rfl (by decide))
  exact ⟨_, hhead, rfl, by decide, by decide,
    ((mis_bookkeeping 0 Graph.edge 1#32 (by decide)).2.1 _ hhead).1 rfl⟩

end FamGraph.Mis
