/-
Module: FamGraph.Proofs.MisTermination
Layer: Proofs
Purpose: When the loop of `mis_kernel::operator()` ends. An iteration that visits a frontier decides
  its least vertex, whose neighbours with priority are all decided; an iteration without a frontier
  opens new ground, if the window has a width. Both need that the end of the window does not
  overflow. A divisor above the number of vertices leaves a window of width 0, and then the loop
  goes round without doing anything.
Trusted boundary: none
Main exports: Round, Progressed, Ends, Feasible, mis_terminates_iff
-/
import FamGraph.Proofs.MisBookkeeping

namespace FamGraph.Mis

variable {threads : Nat} {G : Graph} {delta : BitVec 32} {s t : MisState threads G}

/-! ### What an iteration achieves -/

/-- The pull has met an undecided neighbour with priority. -/
def Pull.Waits : Pull G → Prop
  | .scan _ v_flag _ => v_flag = .UNDECIDED
  | .activate _ => True
  | .countNext _ => True
  | .write _ v_flag => v_flag = .UNDECIDED
  | _ => False

/-- While the frontier is pulled: it holds what was undecided below the window end when the
    iteration began, and whoever waits, waits for a vertex of the frontier. -/
structure Round (s : MisState threads G) (pool : List (Pull G)) : Prop where
  ahead : s.front_size = 0#32 → s.end_.toNat < G.num_vertices ∧ ∃ v, G.out v ≠ []
  counted : s.front_size.toNat = (Finset.univ.filter fun v : G.Vertex => s.frontier.Active v).card
  bounded : ∀ v : G.Vertex, s.frontier.Active v → v.val < s.end_.toNat
  visited : ∀ v ∈ undecidedBelow s.end_.toNat s.shared.vtable, s.frontier.Active v
  next : ∀ v : G.Vertex, s.next_frontier.Active v → ∃ w < v, s.frontier.Active w
  waiting : ∀ l ∈ pool, l.Waits → ∃ w < l.source, s.frontier.Active w

/-- After the frontier was pulled: a vertex of it is decided, or the window has grown. -/
def Progressed (s : MisState threads G) : Prop :=
  s.start.toNat ≤ s.end_.toNat ∧
    (undecidedBelow s.start.toNat s.shared.vtable).card ≤ s.front_size.toNat ∧
    ((undecidedBelow s.start.toNat s.shared.vtable).card < s.front_size.toNat ∨
      s.start.toNat < s.end_.toNat)

/-- What is known of the current iteration. -/
def Lively (s : MisState threads G) : Prop :=
  match s.control with
  | .head => True
  | .frontierPulls pool => Round s pool
  | .rangePulls _ => Progressed s
  | .stopped => True

theorem mem_undecidedBelow {bound : Nat} {vtable : G.Vertex → MisVertex} {v : G.Vertex} :
    v ∈ undecidedBelow bound vtable ↔ v.val < bound ∧ (vtable v).flag = .UNDECIDED := by
  simp [undecidedBelow]

/-- Entering an iteration. -/
theorem AtHead.round (h : AtHead delta s) (hpos : 0#32 < s.undecided) :
    Round { s with control := .frontierPulls s.frontierPulls } s.frontierPulls := by
  have hfront := h.loopHead.front_size
  have hundecided := h.loopHead.undecided
  have hfilter : (Finset.univ.filter fun v : G.Vertex => s.frontier.Active v) =
      undecidedBelow s.end_.toNat s.shared.vtable := by
    rw [undecidedBelow]
    exact Finset.filter_congr fun v _ => h.frontier v
  refine ⟨fun hzero => ?_, ?_, fun v hv => ((h.frontier v).1 hv).1, fun v hv => ?_, fun v hv => ?_,
    ?_⟩
  · -- an undecided vertex that is not in the frontier lies ahead
    have hempty : undecidedBelow s.end_.toNat s.shared.vtable = ∅ := by
      rw [← Finset.card_eq_zero, ← hfront, hzero]
      rfl
    have hsome : 0 < (undecidedVertices s.shared.vtable).card := by
      rw [← hundecided]
      exact hpos
    obtain ⟨v, hv⟩ := Finset.card_pos.1 hsome
    have hflag : (s.shared.vtable v).flag = .UNDECIDED := by simpa [undecidedVertices] using hv
    constructor
    · by_contra hge
      have hmem : v ∈ undecidedBelow s.end_.toNat s.shared.vtable :=
        mem_undecidedBelow.2 ⟨Nat.lt_of_lt_of_le v.isLt (Nat.le_of_not_lt hge), hflag⟩
      rw [hempty] at hmem
      exact Finset.notMem_empty v hmem
    · refine ⟨v, fun hnil => ?_⟩
      rw [h.book.isolated v hnil] at hflag
      cases hflag
  · rw [hfront]
    exact congrArg Finset.card hfilter.symm
  · exact (h.frontier v).2 (mem_undecidedBelow.1 hv)
  · exact absurd hv (h.next_empty v)
  · intro l hl hwaits
    have hstart : ∃ wanted, l ∈ pulls (G := G) wanted := by
      rw [MisState.frontierPulls] at hl
      split at hl
      · exact ⟨_, hl⟩
      · cases hl
    obtain ⟨wanted, hmem⟩ := hstart
    obtain ⟨v, -, rfl⟩ := List.mem_map.1 hmem
    exact hwaits.elim

/-- A step of a pull that then waits for somebody. -/
theorem Acts.source_waits {bound : Nat} {p p' : Shared threads G × Bitmap threads} {l l' : Pull G}
    (h : Acts p l p' l') (hl : l.Knows bound p) (hwaits : l'.Waits) :
    l.Waits ∨ ∃ w < l.source, (p.1.vtable w).flag = .UNDECIDED := by
  cases h with
  | refused hout => exact hwaits.elim
  | entered hout => cases hwaits
  | passed hle => exact Or.inl hwaits
  | waits hlt hflag => exact Or.inr ⟨_, hlt, hflag⟩
  | beaten hlt hflag => cases hwaits
  | clear hlt hflag => exact Or.inl hwaits
  | undecided => exact Or.inl rfl
  | decided hdecided => exact hwaits.elim
  | activate t => exact Or.inl trivial
  | countNext t => exact Or.inl trivial
  | countDecided t => exact absurd hwaits hl.2.1
  | write => exact hwaits.elim

/-- A bit that a step sets belongs to a pull that waits. -/
theorem Acts.activated {p p' : Shared threads G × Bitmap threads} {l l' : Pull G}
    (h : Acts p l p' l') {v : G.Vertex} (hv : p'.2.Active v) :
    p.2.Active v ∨ l.Waits ∧ v = l.source := by
  cases h with
  | @activate s b u t =>
      rcases (Bitmap.active_setBit b t u v).1 hv with heq | hold
      · exact Or.inr ⟨trivial, Fin.ext heq⟩
      · exact Or.inl hold
  | _ => exact Or.inl hv

/-- One step of a pull of the frontier. -/
theorem Round.step {pool pool' : List (Pull G)} {shared : Shared threads G}
    {next_frontier : Bitmap threads} {control : Control G} {room : Nat} (h : Round s pool)
    (hs : Pulling room s pool)
    (hstep : TaskPool.Step Act ((s.shared, s.next_frontier), pool)
      ((shared, next_frontier), pool')) :
    Round { s with shared := shared, next_frontier := next_frontier, control := control }
      pool' := by
  obtain ⟨before, l, l', after, rfl, rfl, hact⟩ := hstep.cases_on
  have hmem : l ∈ before ++ l :: after := List.mem_append_right _ List.mem_cons_self
  have hacts := acts_of_act hact
  have hknows := hs.holds.tasks l hmem
  have hsettles := hacts.settles hknows
  have hlt := hknows.lt_bound hacts.running hs.holds.shared
  -- the vertex a pull meets undecided lies below its own, hence in the frontier
  have hwaits : l'.Waits → ∃ w < l.source, s.frontier.Active w := by
    intro hw
    rcases hacts.source_waits hknows hw with hold | ⟨w, hwlt, hflag⟩
    · exact h.waiting l hmem hold
    · exact ⟨w, hwlt, h.visited w (mem_undecidedBelow.2 ⟨Nat.lt_trans hwlt hlt, hflag⟩)⟩
  refine ⟨h.ahead, h.counted, h.bounded, fun v hv => ?_, fun v hv => ?_, fun m hm hw => ?_⟩
  · obtain ⟨hbelow, hflag⟩ := mem_undecidedBelow.1 hv
    exact h.visited v (mem_undecidedBelow.2 ⟨hbelow, hsettles.undecided hflag⟩)
  · rcases hacts.activated hv with hold | ⟨hw, rfl⟩
    · exact h.next v hold
    · exact h.waiting l hmem hw
  · rcases List.mem_append.1 hm with hm | hm
    · exact h.waiting m (List.mem_append_left _ hm) hw
    · rcases List.mem_cons.1 hm with rfl | hm
      · rw [hacts.source_eq]
        exact hwaits hw
      · exact h.waiting m (List.mem_append_right _ (List.mem_cons_of_mem _ hm)) hw

/-- When the frontier has been pulled, its least vertex is decided. -/
theorem Round.card_lt {room : Nat} {pool : List (Pull G)} (h : Round s pool)
    (hs : Pulling room s pool) (hall : ∀ l ∈ pool, l.done = true) (hfront : s.front_size ≠ 0#32) :
    (undecidedBelow s.end_.toNat s.shared.vtable).card < s.front_size.toNat := by
  have hcard : 0 < (Finset.univ.filter fun v : G.Vertex => s.frontier.Active v).card := by
    rw [← h.counted]
    exact Nat.pos_of_ne_zero fun hzero => hfront (BitVec.eq_of_toNat_eq hzero)
  obtain ⟨v, hv, hleast⟩ := Finset.exists_min_image _ id (Finset.card_pos.1 hcard)
  rw [Finset.mem_filter] at hv
  rw [h.counted]
  refine Finset.card_lt_card (Finset.ssubset_iff_of_subset ?_ |>.2 ⟨v, ?_, ?_⟩)
  · intro w hw
    exact Finset.mem_filter.2 ⟨Finset.mem_univ w, h.visited w hw⟩
  · exact Finset.mem_filter.2 hv
  · intro hund
    obtain ⟨w, hlt, hw⟩ := h.next v ((hs.next_iff hall v).2 (mem_undecidedBelow.1 hund))
    exact absurd (hleast w (Finset.mem_filter.2 ⟨Finset.mem_univ w, hw⟩)) (not_le_of_gt hlt)

/-- Opening the window. -/
theorem Round.progressed {pool : List (Pull G)} (h : Round s pool)
    (hs : Pulling s.front_size.toNat s pool) (hall : ∀ l ∈ pool, l.done = true)
    (hwindow : 0 < delta.toNat ∨ ∀ v, G.out v = []) (hroom : HasRoom delta s)
    (hstart : s.start = s.end_) (hfront : s.front_size ≤ delta) :
    Progressed { s with
      end_ := s.nextEnd delta
      control := .rangePulls { s with end_ := s.nextEnd delta }.rangePulls } := by
  have hend := nextEnd_toNat hroom hfront
  have hend_le := hs.end_le
  have hstart' : s.start.toNat = s.end_.toNat := by rw [hstart]
  have hle : s.start.toNat ≤ (s.nextEnd delta).toNat := by omega
  refine ⟨hle, ?_, ?_⟩
  · change (undecidedBelow s.start.toNat s.shared.vtable).card ≤ s.front_size.toNat
    rw [hstart']
    exact hs.room
  · by_cases hzero : s.front_size = 0#32
    · obtain ⟨hahead, v, hv⟩ := h.ahead hzero
      have hpos : 0 < delta.toNat := hwindow.resolve_right fun hnone => hv (hnone v)
      have hfront0 : s.front_size.toNat = 0 := by rw [hzero]; rfl
      have hlt : s.start.toNat < (s.nextEnd delta).toNat := by omega
      exact Or.inr hlt
    · have hlt := h.card_lt hs hall hzero
      rw [← hstart'] at hlt
      exact Or.inl hlt

/-- Pulling the new range does not undo the progress. -/
theorem Progressed.step {pool pool' : List (Pull G)} {shared : Shared threads G}
    {next_frontier : Bitmap threads} {control : Control G} {room : Nat} (h : Progressed s)
    (hs : Pulling room s pool)
    (hstep : TaskPool.Step Act ((s.shared, s.next_frontier), pool)
      ((shared, next_frontier), pool')) :
    Progressed { s with shared := shared, next_frontier := next_frontier, control := control } := by
  obtain ⟨before, l, l', after, rfl, -, hact⟩ := hstep.cases_on
  have hknows := hs.holds.tasks l (List.mem_append_right _ List.mem_cons_self)
  have hcard : (undecidedBelow s.start.toNat shared.vtable).card ≤
      (undecidedBelow s.start.toNat s.shared.vtable).card :=
    ((acts_of_act hact).settles hknows).card_le _
  obtain ⟨hle, hfront, hprogress⟩ := h
  refine ⟨hle, Nat.le_trans hcard hfront, ?_⟩
  rcases hprogress with hlt | hlt
  · exact Or.inl (Nat.lt_of_le_of_lt hcard hlt)
  · exact Or.inr hlt

/-- One step of `operator()`. -/
theorem Lively.step (hwindow : 0 < delta.toNat ∨ ∀ v, G.out v = []) (hroom : RoomToBreak delta s)
    (hs : Invariant delta s) (h : Lively s) (hst : Step delta s t) : Lively t := by
  cases hst with
  | enter hctl hpos =>
      simp only [Invariant, hctl] at hs
      exact hs.round hpos
  | pullFrontier hctl hstep =>
      simp only [Invariant, hctl] at hs
      simp only [Lively, hctl] at h
      exact h.step hs.1 hstep
  | breakGround hctl hall =>
      simp only [Invariant, hctl] at hs
      simp only [Lively, hctl] at h
      exact h.progressed hs.1 hall hwindow (hroom _ hctl hall) hs.2.1 hs.2.2
  | pullRange hctl hstep =>
      simp only [Invariant, hctl] at hs
      simp only [Lively, hctl] at h
      exact h.step hs hstep
  | finish hctl hall => trivial
  | stop hctl hzero => trivial

/-! ### The measure -/

/-- The undecided vertices at or above a bound. -/
def undecidedFrom (bound : Nat) (vtable : G.Vertex → MisVertex) : Finset G.Vertex :=
  Finset.univ.filter fun v => bound ≤ v.val ∧ (vtable v).flag = .UNDECIDED

/-- Undecided vertices, and vertices the window does not cover, when the iteration began. -/
def potential (s : MisState threads G) : Nat :=
  (undecidedFrom s.start.toNat s.shared.vtable).card + s.front_size.toNat +
    (G.num_vertices - s.start.toNat)

/-- Position within an iteration. -/
def phase (s : MisState threads G) : Nat :=
  match s.control with
  | .head => 3
  | .frontierPulls _ => 2
  | .rangePulls _ => 1
  | .stopped => 0

/-- Steps a pull can still take. -/
def Pull.fuel : Pull G → Nat
  | .enter _ edges => edges.length + 5
  | .scan _ _ edges => edges.length + 4
  | .activate _ => 3
  | .countNext _ => 2
  | .countDecided _ _ => 2
  | .write _ _ => 1
  | .returned _ => 0

/-- Steps the running pulls can still take. -/
def work (s : MisState threads G) : Nat :=
  match s.control with
  | .frontierPulls pool => (pool.map Pull.fuel).sum
  | .rangePulls pool => (pool.map Pull.fuel).sum
  | _ => 0

def measure (s : MisState threads G) : Nat ×ₗ Nat ×ₗ Nat :=
  toLex (potential s, toLex (phase s, work s))

theorem measure_lt_of_potential (h : potential t < potential s) : measure t < measure s :=
  Prod.Lex.toLex_lt_toLex.2 (Or.inl h)

theorem measure_lt_of_phase (hpotential : potential t = potential s) (h : phase t < phase s) :
    measure t < measure s :=
  Prod.Lex.toLex_lt_toLex.2 (Or.inr ⟨hpotential, Prod.Lex.toLex_lt_toLex.2 (Or.inl h)⟩)

theorem measure_lt_of_work (hpotential : potential t ≤ potential s) (hphase : phase t = phase s)
    (h : work t < work s) : measure t < measure s := by
  rcases Nat.lt_or_eq_of_le hpotential with hlt | heq
  · exact measure_lt_of_potential hlt
  · exact Prod.Lex.toLex_lt_toLex.2
      (Or.inr ⟨heq, Prod.Lex.toLex_lt_toLex.2 (Or.inr ⟨hphase, h⟩)⟩)

/-- Every step of a pull is one less to go. -/
theorem Acts.fuel_lt {p p' : Shared threads G × Bitmap threads} {l l' : Pull G}
    (h : Acts p l p' l') :
    l'.fuel < l.fuel := by
  cases h with
  | @clear s b v v_flag w rest hlt hflag =>
      by_cases hout : v_flag = .OUT
      · simp [Pull.fuel, hout]
      · simp [Pull.fuel, hout]
  | _ => simp [Pull.fuel]

theorem sum_fuel_lt {p p' : Shared threads G × Bitmap threads} {pool pool' : List (Pull G)}
    (hstep : TaskPool.Step Act (p, pool) (p', pool')) :
    (pool'.map Pull.fuel).sum < (pool.map Pull.fuel).sum := by
  refine TaskPool.Step.measure_lt (f := fun _ l => l.fuel) ?_ ?_ hstep
  · exact fun l _ l' hact => (acts_of_act hact).fuel_lt
  · exact fun m _ => Nat.le_refl m.fuel

/-- A pull only decides vertices. -/
theorem card_undecidedFrom_le {pool pool' : List (Pull G)} {shared : Shared threads G}
    {next_frontier : Bitmap threads} {room : Nat} (hs : Pulling room s pool)
    (hstep : TaskPool.Step Act ((s.shared, s.next_frontier), pool) ((shared, next_frontier), pool'))
    (bound : Nat) :
    (undecidedFrom bound shared.vtable).card ≤ (undecidedFrom bound s.shared.vtable).card := by
  obtain ⟨before, l, l', after, rfl, -, hact⟩ := hstep.cases_on
  have hknows := hs.holds.tasks l (List.mem_append_right _ List.mem_cons_self)
  have hsettles := (acts_of_act hact).settles hknows
  refine Finset.card_le_card fun v hv => ?_
  simp only [undecidedFrom, Finset.mem_filter] at hv ⊢
  exact ⟨hv.1, hv.2.1, hsettles.undecided hv.2.2⟩

/-- The undecided vertices lie below a bound or not. -/
theorem card_undecided_split (bound : Nat) (vtable : G.Vertex → MisVertex) :
    (undecidedBelow bound vtable).card + (undecidedFrom bound vtable).card =
      (undecidedVertices vtable).card := by
  rw [← Finset.card_filter_add_card_filter_not (s := undecidedVertices vtable) fun v =>
    v.val < bound]
  congr 2
  · ext v
    simp [undecidedBelow, undecidedVertices, and_comm]
  · ext v
    simp [undecidedFrom, undecidedVertices, and_comm]

/-- A whole iteration lowers the potential. -/
theorem potential_finish {pool : List (Pull G)} (hs : Pulling delta.toNat s pool)
    (hall : ∀ l ∈ pool, l.done = true) (h : Progressed s) :
    potential s.finishRound < potential s := by
  have hhead := (hs.finish hall).loopHead
  have hfront :
      s.finishRound.front_size.toNat = (undecidedBelow s.end_.toNat s.shared.vtable).card :=
    hhead.front_size
  have hold := card_undecided_split s.start.toNat s.shared.vtable
  have hnew := card_undecided_split s.end_.toNat s.shared.vtable
  have hend_le := hs.end_le
  have hpotential : potential s.finishRound = (undecidedFrom s.end_.toNat s.shared.vtable).card +
      s.finishRound.front_size.toNat + (G.num_vertices - s.end_.toNat) := rfl
  obtain ⟨hle, hcard, hprogress⟩ := h
  rw [hpotential, hfront, potential]
  omega

/-- Every step lowers the measure. -/
theorem measure_lt_of_step (hs : Invariant delta s) (h : Lively s) (hst : Step delta s t) :
    measure t < measure s := by
  cases hst with
  | enter hctl hpos =>
      apply measure_lt_of_phase
      · rfl
      · simp [phase, hctl]
  | @pullFrontier pool shared next_frontier pool' hctl hstep =>
      simp only [Invariant, hctl] at hs
      apply measure_lt_of_work
      · exact Nat.add_le_add_right
          (Nat.add_le_add_right (card_undecidedFrom_le hs.1 hstep s.start.toNat) _) _
      · simp [phase, hctl]
      · simp only [work, hctl]
        exact sum_fuel_lt hstep
  | breakGround hctl hall =>
      apply measure_lt_of_phase
      · rfl
      · simp [phase, hctl]
  | @pullRange pool shared next_frontier pool' hctl hstep =>
      simp only [Invariant, hctl] at hs
      apply measure_lt_of_work
      · exact Nat.add_le_add_right
          (Nat.add_le_add_right (card_undecidedFrom_le hs hstep s.start.toNat) _) _
      · simp [phase, hctl]
      · simp only [work, hctl]
        exact sum_fuel_lt hstep
  | finish hctl hall =>
      simp only [Invariant, hctl] at hs
      simp only [Lively, hctl] at h
      exact measure_lt_of_potential (potential_finish hs hall h)
  | stop hctl hzero =>
      apply measure_lt_of_phase
      · rfl
      · simp [phase, hctl]

/-- A pull that has not returned can go on. -/
theorem exists_act {p : Shared (threads + 1) G × Bitmap (threads + 1)} {l : Pull G}
    (hrunning : l.done = false) : ∃ p' l', Act p l p' l' := by
  obtain ⟨s, b⟩ := p
  cases l with
  | enter v edges =>
      by_cases hout : (s.vtable v).flag = .OUT
      · exact ⟨_, _, 0, if_pos hout⟩
      · exact ⟨_, _, 0, if_neg hout⟩
  | scan v v_flag edges =>
      cases edges with
      | nil =>
          by_cases hund : v_flag = .UNDECIDED
          · exact ⟨_, _, 0, if_pos hund⟩
          · exact ⟨_, _, 0, if_neg hund⟩
      | cons w rest =>
          by_cases hlt : w < v
          · exact ⟨_, _, 0, if_pos hlt⟩
          · exact ⟨_, _, 0, if_neg hlt⟩
  | activate v => exact ⟨_, _, 0, rfl⟩
  | countNext v => exact ⟨_, _, 0, rfl⟩
  | countDecided v v_flag => exact ⟨_, _, 0, rfl⟩
  | write v v_flag => exact ⟨_, _, 0, rfl⟩
  | returned v => cases hrunning

/-- Until it has stopped, `operator()` can take a step. -/
theorem exists_step {s : MisState (threads + 1) G} (hrunning : s.control ≠ .stopped) :
    ∃ t, Step delta s t := by
  cases hctl : s.control with
  | head =>
      by_cases hpos : 0#32 < s.undecided
      · exact ⟨_, .enter hctl hpos⟩
      · exact ⟨_, .stop hctl hpos⟩
  | frontierPulls pool =>
      by_cases hall : ∀ l ∈ pool, l.done = true
      · exact ⟨_, .breakGround hctl hall⟩
      · push Not at hall
        obtain ⟨l, hl, hrun⟩ := hall
        obtain ⟨⟨shared, next_frontier⟩, l', hact⟩ := exists_act (by simpa using hrun)
        obtain ⟨pool', hpool⟩ := TaskPool.Step.of_mem hl hact
        exact ⟨_, .pullFrontier hctl hpool⟩
  | rangePulls pool =>
      by_cases hall : ∀ l ∈ pool, l.done = true
      · exact ⟨_, .finish hctl hall⟩
      · push Not at hall
        obtain ⟨l, hl, hrun⟩ := hall
        obtain ⟨⟨shared, next_frontier⟩, l', hact⟩ := exists_act (by simpa using hrun)
        obtain ⟨pool', hpool⟩ := TaskPool.Step.of_mem hl hact
        exact ⟨_, .pullRange hctl hpool⟩
  | stopped => exact absurd hctl hrunning

/-! ### Termination -/

variable {helpers : Nat} {divisor : BitVec 32}

/-- The window has a width, or is never needed. -/
def HasWindow (G : Graph) (divisor : BitVec 32) : Prop :=
  divisor ≠ 0#32 ∧ (divisor.toNat ≤ G.num_vertices ∨ ∀ v, G.out v = [])

/-- `mis_kernel::operator()`, in the runs whose steps all find room in 32 bits. -/
def roomy (helpers : Nat) (G : Graph) (divisor : BitVec 32) :
    TransitionSystem (MisState (helpers + 1) G) :=
  { system helpers G divisor with
    step := fun s t => Step (totalVerts G / divisor) s t ∧ RoomToBreak (totalVerts G / divisor) s }

/-- What is asked of a divisor: `total_verts / divisor` is defined, the window end never decreases,
    and the loop ends. -/
structure Ends (helpers : Nat) (G : Graph) (divisor : BitVec 32) : Prop where
  divides : divisor ≠ 0#32
  end_mono : ∀ s t, (system helpers G divisor).Reachable s → (system helpers G divisor).step s t →
    s.end_.toNat ≤ t.end_.toNat
  terminates : (system helpers G divisor).Terminates

/-- What a divisor must fulfil for that. -/
structure Feasible (helpers : Nat) (G : Graph) (divisor : BitVec 32) : Prop where
  window : HasWindow G divisor
  room : ∀ s, (system helpers G divisor).Reachable s → RoomToBreak (totalVerts G / divisor) s

theorem HasWindow.width (h : HasWindow G divisor) :
    0 < (totalVerts G / divisor).toNat ∨ ∀ v, G.out v = [] := by
  rw [delta_toNat]
  have hpos : 0 < divisor.toNat := Nat.pos_of_ne_zero fun hzero => h.1 (BitVec.eq_of_toNat_eq hzero)
  exact h.2.imp_left fun hle => Nat.div_pos hle hpos

/-- As long as there is room, the invariants hold. -/
theorem roomy_invariant (hwindow : HasWindow G divisor) {s : MisState (helpers + 1) G}
    (h : (roomy helpers G divisor).Reachable s) :
    Invariant (totalVerts G / divisor) s ∧ Lively s := by
  refine TransitionSystem.Reachable.induct
    (I := fun s => Invariant (totalVerts G / divisor) s ∧ Lively s) ?_ ?_ h
  · rintro s ⟨-, rfl⟩
    exact ⟨atHead_initial _ G, trivial⟩
  · rintro s t - ⟨hs, hlively⟩ ⟨hst, hroom⟩
    exact ⟨invariant_step hroom hs hst, hlively.step hwindow.width hroom hs hst⟩

/-- Where there is always room, every run is one of the runs with room. -/
theorem reachable_roomy
    (hroom : ∀ s, (system helpers G divisor).Reachable s → RoomToBreak (totalVerts G / divisor) s)
    {s : MisState (helpers + 1) G} (h : (system helpers G divisor).Reachable s) :
    (roomy helpers G divisor).Reachable s := by
  refine TransitionSystem.Reachable.induct (I := (roomy helpers G divisor).Reachable) ?_ ?_ h
  · exact fun s hs => .of_init hs
  · exact fun s t hreach hs hst => hs.step ⟨hst, hroom s hreach⟩

theorem Feasible.ends (h : Feasible helpers G divisor) : Ends helpers G divisor := by
  have hinv : ∀ s, (system helpers G divisor).Reachable s →
      Invariant (totalVerts G / divisor) s ∧ Lively s :=
    fun s hs => roomy_invariant h.window (reachable_roomy h.room hs)
  refine ⟨h.window.1, fun s t hs hst => (hinv s hs).1.end_mono (h.room s hs) hst, ?_⟩
  refine TransitionSystem.terminates_of_measure measure ?_ fun s _ => exists_step
  exact fun s t hs hst => measure_lt_of_step (hinv s hs).1 (hinv s hs).2 hst

/-- An overflow moves the window end back. -/
theorem Invariant.roomToBreak_of_end_mono (hs : Invariant delta s)
    (hmono : ∀ t, Step delta s t → s.end_.toNat ≤ t.end_.toNat) : RoomToBreak delta s := by
  intro pool hctl hall
  have hle : s.end_.toNat ≤ (s.nextEnd delta).toNat := hmono _ (.breakGround hctl hall)
  simp only [Invariant, hctl] at hs
  have hend := hs.1.end_le
  have hfront : s.front_size.toNat ≤ delta.toNat := hs.2.2
  have hdelta := delta.isLt
  have hverts := G.num_vertices_lt
  rw [HasRoom]
  by_contra hover
  have hwindow : (s.end_ + delta - s.front_size).toNat =
      s.end_.toNat + (delta.toNat - s.front_size.toNat) - 2 ^ 32 := by
    rw [BitVec.toNat_sub, BitVec.toNat_add]
    omega
  have hlt : (s.end_ + delta - s.front_size).toNat < (totalVerts G).toNat := by
    rw [hwindow, totalVerts_toNat]
    omega
  have hnext : s.nextEnd delta = s.end_ + delta - s.front_size := if_pos hlt
  rw [hnext, hwindow] at hle
  omega

theorem clear_fresh (n : Nat) : (Bitmap.fresh n : Bitmap threads).clear = Bitmap.fresh n := by
  have hdata : (Bitmap.fresh n : Bitmap threads).clear.data = fun _ => 0#64 := by
    funext w
    exact ite_self _
  rw [Bitmap.clear, Bitmap.fresh]
  exact congrArg (fun data => Bitmap.mk n data fun _ => 0#32) hdata

/-- A window without width: the loop goes round and nothing changes. -/
theorem idle_not_terminates (hdivisor : divisor ≠ 0#32) (hwidth : G.num_vertices < divisor.toNat)
    {v : G.Vertex} (hv : G.out v ≠ []) : ¬ (system helpers G divisor).Terminates := by
  let s : MisState (helpers + 1) G := initial (helpers + 1) G
  let pulling : MisState (helpers + 1) G := { s with control := .frontierPulls [] }
  let opened : MisState (helpers + 1) G := { s with control := .rangePulls [] }
  have hdelta : totalVerts G / divisor = 0#32 := by
    apply BitVec.eq_of_toNat_eq
    rw [delta_toNat, Nat.div_eq_of_lt hwidth]
    rfl
  have hpos : 0#32 < s.undecided := by
    have hat : AtHead 0#32 s := atHead_initial (helpers + 1) G
    have hhead : LoopHead 0 s := hat.loopHead
    have hmem : v ∈ undecidedVertices s.shared.vtable := by
      simp [undecidedVertices, s, initial, hv]
    have hsome : 0 < (undecidedVertices s.shared.vtable).card := Finset.card_pos.2 ⟨v, hmem⟩
    rw [← hhead.undecided] at hsome
    exact hsome
  have hzero : ¬ 0#32 < 0#32 := by decide
  have hnone : ∀ l ∈ ([] : List (Pull G)), l.done = true := fun l hl => absurd hl List.not_mem_nil
  have henter : Step (totalVerts G / divisor) s pulling := by
    have hfrontier : s.frontierPulls = [] := if_neg hzero
    have hstep : Step (totalVerts G / divisor) s _ := Step.enter rfl hpos
    rwa [hfrontier] at hstep
  have hbreak : Step (totalVerts G / divisor) pulling opened := by
    have hend : pulling.nextEnd (totalVerts G / divisor) = 0#32 := by
      have hroom : HasRoom 0#32 pulling := Nat.two_pow_pos 32
      have hfront : pulling.front_size ≤ 0#32 := Nat.le_refl _
      apply BitVec.eq_of_toNat_eq
      rw [hdelta, nextEnd_toNat hroom hfront]
      exact Nat.zero_min _
    have hrange : s.rangePulls = [] := if_neg hzero
    have hopened : opened = { pulling with
        end_ := 0#32
        control := .rangePulls { pulling with end_ := 0#32 }.rangePulls } :=
      congrArg (fun pool => ({ s with control := .rangePulls pool } : MisState (helpers + 1) G))
        hrange.symm
    have hstep : Step (totalVerts G / divisor) pulling _ := Step.breakGround rfl hnone
    rw [hend] at hstep
    rw [hopened]
    exact hstep
  have hfinish : s.finishRound = s := by
    simp [s, MisState.finishRound, initial, clear_fresh]
  refine TransitionSystem.not_terminates_of_recurrent
    (I := fun t => t = s ∨ t = pulling ∨ t = opened) ⟨hdivisor, rfl⟩ (Or.inl rfl) ?_
  rintro t (rfl | rfl | rfl)
  · exact ⟨pulling, henter, Or.inr (Or.inl rfl)⟩
  · exact ⟨opened, hbreak, Or.inr (Or.inr rfl)⟩
  · exact ⟨opened.finishRound, .finish rfl hnone, Or.inl hfinish⟩

theorem Ends.feasible (h : Ends helpers G divisor) : Feasible helpers G divisor := by
  constructor
  · refine ⟨h.divides, ?_⟩
    by_contra hnot
    push Not at hnot
    obtain ⟨hwidth, v, hv⟩ := hnot
    exact idle_not_terminates h.divides hwidth hv h.terminates
  · have hinv :
        ∀ s, (system helpers G divisor).Reachable s → Invariant (totalVerts G / divisor) s := by
      intro s hs
      refine TransitionSystem.Reachable.induct (I := Invariant (totalVerts G / divisor)) ?_ ?_ hs
      · rintro s ⟨-, rfl⟩
        exact atHead_initial _ G
      · intro s t hreach hs hst
        exact invariant_step (hs.roomToBreak_of_end_mono fun t hst => h.end_mono s t hreach hst) hs
          hst
    exact fun s hs => (hinv s hs).roomToBreak_of_end_mono fun t hst => h.end_mono s t hs hst

/-- There is always room when `total_verts + delta` is at most `2^32`. -/
theorem feasible_of_small (hwindow : HasWindow G divisor)
    (hsmall : G.num_vertices + G.num_vertices / divisor.toNat ≤ 2 ^ 32) :
    Feasible helpers G divisor := by
  have hroom : ∀ s : MisState (helpers + 1) G, Invariant (totalVerts G / divisor) s → Lively s →
      RoomToBreak (totalVerts G / divisor) s := by
    intro s hs hlively pool hctl hall
    simp only [Invariant, hctl] at hs
    simp only [Lively, hctl] at hlively
    have hend := hs.1.end_le
    have hfront : s.front_size.toNat ≤ (totalVerts G / divisor).toNat := hs.2.2
    rw [HasRoom]
    rw [delta_toNat] at hfront ⊢
    by_cases hzero : s.front_size = 0#32
    · have hahead := (hlively.ahead hzero).1
      omega
    · have hpos : s.front_size.toNat ≠ 0 := fun heq => hzero (BitVec.eq_of_toNat_eq heq)
      omega
  refine ⟨hwindow, fun s hs => ?_⟩
  have hinv : Invariant (totalVerts G / divisor) s ∧ Lively s := by
    refine TransitionSystem.Reachable.induct
      (I := fun s => Invariant (totalVerts G / divisor) s ∧ Lively s) ?_ ?_ hs
    · rintro s ⟨-, rfl⟩
      exact ⟨atHead_initial _ G, trivial⟩
    · rintro s t - ⟨hs, hlively⟩ hst
      have hbreak := hroom s hs hlively
      exact ⟨invariant_step hbreak hs hst, hlively.step hwindow.width hbreak hs hst⟩
  exact hroom s hinv.1 hinv.2

/-- Some run stops if the windows are not empty and the counters have room. -/
theorem exists_stopped (hwindow : HasWindow G divisor)
    (hroom : G.num_vertices + G.num_vertices / divisor.toNat < 2 ^ 32) (helpers : Nat) :
    ∃ s, (system helpers G divisor).Reachable s ∧ s.control = .stopped := by
  have hends : Ends helpers G divisor := (feasible_of_small hwindow (Nat.le_of_lt hroom)).ends
  exact hends.terminates.exists_final ⟨hwindow.1, rfl⟩

/-- Which divisors are good for a graph, whatever the interleaving of the pulls: the divisor is not
    0, the window it makes has a width unless there are no edges, and the window end never needs
    more than 32 bits. A single run whose steps all find room has a window end that never decreases,
    and ends. -/
theorem mis_terminates_iff (helpers : Nat) (G : Graph) (divisor : BitVec 32) :
    (Ends helpers G divisor ↔ Feasible helpers G divisor) ∧
    (HasWindow G divisor →
      (∀ s t, (roomy helpers G divisor).Reachable s → (roomy helpers G divisor).step s t →
        s.end_.toNat ≤ t.end_.toNat) ∧
      ∀ run : Nat → MisState (helpers + 1) G, (roomy helpers G divisor).init (run 0) →
        ¬ ∀ n, (roomy helpers G divisor).step (run n) (run (n + 1))) := by
  refine ⟨⟨Ends.feasible, Feasible.ends⟩,
    fun hwindow => ⟨fun s t hs hst => ?_, fun run hinit hrun => ?_⟩⟩
  · exact (roomy_invariant hwindow hs).1.end_mono hst.2 hst.1
  · have hreach := TransitionSystem.reachable_of_run hinit hrun
    have hdrop : ∀ n, measure (run (n + 1)) < measure (run n) := by
      intro n
      obtain ⟨hs, hlively⟩ := roomy_invariant hwindow (hreach n)
      exact measure_lt_of_step hs hlively (hrun n).1
    exact (wellFounded_iff_isEmpty_descending_chain.1
      (wellFounded_lt (α := Nat ×ₗ Nat ×ₗ Nat))).elim ⟨measure ∘ run, hdrop⟩

theorem mis_terminates_edge : Ends 0 Graph.edge 1#32 ∧ ∀ run : Nat → MisState 1 Graph.edge,
    (roomy 0 Graph.edge 1#32).init (run 0) →
    ¬ ∀ n, (roomy 0 Graph.edge 1#32).step (run n) (run (n + 1)) := by
  have hwindow : HasWindow Graph.edge 1#32 := ⟨by decide, Or.inl (by decide)⟩
  have hboth := mis_terminates_iff 0 Graph.edge 1#32
  exact ⟨hboth.1.2 (feasible_of_small hwindow (by decide)), (hboth.2 hwindow).2⟩

/-- The default divisor on a single edge. -/
theorem default_divisor_idles : Graph.edge.adjacency.Symmetric ∧ 1 ≤ Graph.edge.num_vertices ∧
    ¬ Ends 0 Graph.edge 25#32 := by
  refine ⟨Graph.edge_symmetric, by decide, fun h => ?_⟩
  exact idle_not_terminates (v := (0 : Fin 2)) (by decide) (by decide) (List.cons_ne_nil _ _)
    h.terminates

end FamGraph.Mis
