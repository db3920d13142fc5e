/-
Module: FamGraph.Proofs.PollCq
Layer: Proofs
Purpose: The poller thread hands every completion on, once and in order, however it interleaves with
  the adapter, and no wake-up gets lost: it arms the queue before it empties it, so a queue it
  blocks on is empty and armed. It stops the process at the first completion that failed, and
  nowhere else. All of this is argued of a queue that announces its entries, which is what the verbs
  documentation makes of the completion queue.
Trusted boundary: none
Main exports: PollCq.Inv, PollCq.inv_of_reachable, PollCq.work_pollerStep, PollCq.poll_cq_hands_on
-/
import FamGraph.Core.PollCq
import Mathlib.Data.List.TakeWhile

namespace FamGraph

namespace PollCq

open NotifiedQueue (Alert Announced)

variable {σ : Type*} {V : Verbs σ} {wc₀ : Wc} {completions : List Wc} {s t : State σ}

/-! ### The calls of the poller -/

/-- What a call of the poller does, if the calls of the verbs library are as documented. -/
theorem pollerStep_cases (hV : V.Documented) (hstep : pollerStep V s = some t) :
    (s.poller = .getCqEvent ∧ 0 < (V.view s.cq).notices ∧ ∃ y, V.view y = (V.view s.cq).take ∧
      t = { s with cq := y, unacked := s.unacked + 1, poller := .ackCqEvents }) ∨
    (s.poller = .ackCqEvents ∧ ∃ y, V.view y = V.view s.cq ∧
      t = { s with cq := y, unacked := s.unacked - 1, poller := .reqNotifyCq }) ∨
    (s.poller = .reqNotifyCq ∧ ∃ y, V.view y = (V.view s.cq).arm ∧
      t = { s with cq := y, poller := .pollCq }) ∨
    (s.poller = .pollCq ∧ (V.view s.cq).entries = [] ∧ ∃ wc y, V.view y = V.view s.cq ∧
      t = { s with cq := y, wc := wc, poller := .getCqEvent }) ∨
    (s.poller = .pollCq ∧ ∃ wc rest y, (V.view s.cq).entries = wc :: rest ∧
      V.view y = (V.view s.cq).pop ∧
      t = { s with cq := y, wc := wc, poller := if wc.success then .onCompletion else .dead }) ∨
    (s.poller = .onCompletion ∧
      t = { s with handled := s.handled ++ [s.wc], poller := .pollCq }) := by
  unfold pollerStep at hstep
  cases hplace : s.poller with
  | getCqEvent =>
      rw [hplace] at hstep
      rcases Nat.eq_zero_or_pos (V.view s.cq).notices with hnone | hpos
      · rw [hV.get_blocks _ hnone] at hstep
        cases hstep
      · obtain ⟨y, hget, hview⟩ := hV.get_event _ hpos
        rw [hget] at hstep
        exact .inl ⟨rfl, hpos, y, hview, (Option.some.inj hstep).symm⟩
  | ackCqEvents =>
      rw [hplace] at hstep
      exact .inr (.inl ⟨rfl, _, hV.ack s.cq, (Option.some.inj hstep).symm⟩)
  | reqNotifyCq =>
      rw [hplace] at hstep
      obtain ⟨hresult, hview⟩ := hV.arm s.cq
      simp only [hresult, if_true, Option.some.injEq] at hstep
      exact .inr (.inr (.inl ⟨rfl, _, hview, hstep.symm⟩))
  | pollCq =>
      rw [hplace] at hstep
      cases hentries : (V.view s.cq).entries with
      | nil =>
          obtain ⟨hresult, hview⟩ := hV.poll_empty s.wc s.cq hentries
          simp only [hresult, if_true, Option.some.injEq] at hstep
          exact .inr (.inr (.inr (.inl ⟨rfl, rfl, _, _, hview, hstep.symm⟩)))
      | cons wc rest =>
          obtain ⟨hresult, hwc, hview⟩ := hV.poll_entry s.wc s.cq wc rest hentries
          simp only [hresult, hwc, Int.one_ne_zero, if_false, Option.some.injEq] at hstep
          exact .inr (.inr (.inr (.inr (.inl ⟨rfl, wc, rest, _, rfl, hview, hstep.symm⟩))))
  | onCompletion =>
      rw [hplace] at hstep
      exact .inr (.inr (.inr (.inr (.inr ⟨rfl, (Option.some.inj hstep).symm⟩))))
  | dead =>
      rw [hplace] at hstep
      cases hstep

/-- What the adapter does. -/
theorem adapterStep_cases (hV : V.Documented) (hstep : adapterStep V s = some t) :
    ∃ wc rest y, s.due = wc :: rest ∧ V.view y = (V.view s.cq).push wc ∧
      t = { s with cq := y, due := rest } := by
  unfold adapterStep at hstep
  cases hdue : s.due with
  | nil =>
      rw [hdue] at hstep
      cases hstep
  | cons wc rest =>
      rw [hdue] at hstep
      obtain ⟨hroom, hnext⟩ := Option.ite_none_right_eq_some.1 hstep
      exact ⟨wc, rest, _, rfl, hV.complete wc s.cq hroom, (Option.some.inj hnext).symm⟩

/-- A poller that is not blocked makes its call. -/
theorem pollerStep_isSome (hdead : s.poller ≠ .dead)
    (hblocked : ¬ (s.poller = .getCqEvent ∧ V.getCqEvent s.cq = none)) :
    ∃ t, pollerStep V s = some t := by
  unfold pollerStep
  cases hplace : s.poller with
  | getCqEvent =>
      obtain ⟨event, hevent⟩ := Option.ne_none_iff_exists'.1 fun hnone => hblocked ⟨hplace, hnone⟩
      exact ⟨_, by rw [hevent, Option.map_some]⟩
  | ackCqEvents => exact ⟨_, rfl⟩
  | reqNotifyCq => exact ⟨_, rfl⟩
  | pollCq => exact ⟨_, rfl⟩
  | onCompletion => exact ⟨_, rfl⟩
  | dead => exact absurd hplace hdead

/-- The poller is blocked just if no event is on the channel. -/
theorem Verbs.Documented.getCqEvent_eq_none (hV : V.Documented) {x : σ}
    (hnone : V.getCqEvent x = none) :
    (V.view x).notices = 0 := by
  by_contra hne
  obtain ⟨y, hget, -⟩ := hV.get_event x (Nat.pos_of_ne_zero hne)
  rw [hget] at hnone
  cases hnone

/-! ### The invariant -/

/-- The completion the poller has taken out of the queue, and not handed on. -/
def State.inHand (s : State σ) : List Wc :=
  if s.poller = .onCompletion then [s.wc] else []

/-- What the poller may rely on where it is. Before it arms the queue it relies on nothing. -/
def Poller.Wakes (cq : NotifiedQueue Wc) : Poller → Prop
  | .getCqEvent => cq.Alert ∧ cq.Announced
  | .ackCqEvents => True
  | .reqNotifyCq => True
  | .pollCq => cq.Alert
  | .onCompletion => cq.Alert
  | .dead => True

/-- The completions that have left the queue, and the failed one among them if the process has
    ended. -/
def Left (s : State σ) (left : List Wc) : Prop :=
  if s.poller = .dead then ∃ wc, left = s.handled ++ [wc] ∧ wc.success = false
  else left = s.handled ++ s.inHand

structure Inv (V : Verbs σ) (completions : List Wc) (s : State σ) : Prop where
  wakes : s.poller.Wakes (V.view s.cq)
  acked : s.unacked = if s.poller = .ackCqEvents then 1 else 0
  order : ∃ left, Left s left ∧ left ++ (V.view s.cq).entries ++ s.due = completions
  success : ∀ wc ∈ s.handled ++ s.inHand, wc.success = true

theorem inv_start (hV : V.Documented) : Inv V completions (start V wc₀ completions) := by
  obtain ⟨hresult, hview⟩ := hV.arm (V.createCq cqe)
  rw [hV.create] at hview
  have hstart : (start V wc₀ completions).poller = .getCqEvent := if_pos hresult
  refine ⟨?_, ?_, ⟨[], ?_, ?_⟩, ?_⟩
  · rw [hstart, start, hview]
    exact ⟨NotifiedQueue.alert_arm _, NotifiedQueue.announced_of_empty rfl⟩
  · rw [hstart]
    rfl
  · rw [Left, State.inHand, hstart]
    rfl
  · rw [start, hview]
    rfl
  · rw [State.inHand, hstart]
    exact fun wc hwc => absurd hwc List.not_mem_nil

/-- An arrival wakes the poller wherever it is. -/
theorem Poller.Wakes.push {p : Poller} {cq : NotifiedQueue Wc} (h : p.Wakes cq) (wc : Wc) :
    p.Wakes (cq.push wc) := by
  cases p with
  | getCqEvent => exact ⟨h.1.push wc, h.1.announced_push wc⟩
  | ackCqEvents => trivial
  | reqNotifyCq => trivial
  | pollCq => exact Alert.push h wc
  | onCompletion => exact Alert.push h wc
  | dead => trivial

theorem inv_adapterStep (hV : V.Documented) (h : Inv V completions s)
    (hstep : adapterStep V s = some t) :
    Inv V completions t := by
  obtain ⟨wc, rest, y, hdue, hview, rfl⟩ := adapterStep_cases hV hstep
  obtain ⟨left, hleft, horder⟩ := h.order
  rw [hdue] at horder
  refine ⟨?_, h.acked, ⟨left, hleft, ?_⟩, h.success⟩
  · dsimp only
    rw [hview]
    exact h.wakes.push wc
  · dsimp only
    rw [hview, NotifiedQueue.push_entries, ← horder]
    simp only [List.append_assoc, List.singleton_append]

theorem inv_pollerStep (hV : V.Documented) (h : Inv V completions s)
    (hstep : pollerStep V s = some t) :
    Inv V completions t := by
  obtain ⟨hwakes, hacked, ⟨left, hleft, horder⟩, hsuccess⟩ := h
  obtain ⟨hplace, hpos, y, hview, rfl⟩ | ⟨hplace, y, hview, rfl⟩ | ⟨hplace, y, hview, rfl⟩ |
    ⟨hplace, hentries, wc, y, hview, rfl⟩ | ⟨hplace, wc, rest, y, hentries, hview, rfl⟩ |
    ⟨hplace, rfl⟩ := pollerStep_cases hV hstep
  all_goals
    rw [hplace] at hwakes hacked
    simp only [Left, State.inHand, hplace] at hleft hsuccess
  · have hzero : s.unacked = 0 := hacked
    exact ⟨trivial, by rw [hzero]; rfl, ⟨left, hleft, by dsimp only; rwa [hview]⟩, hsuccess⟩
  · have hone : s.unacked = 1 := hacked
    exact ⟨trivial, by rw [hone]; rfl, ⟨left, hleft, by dsimp only; rwa [hview]⟩, hsuccess⟩
  · refine ⟨?_, hacked, ⟨left, hleft, by dsimp only; rwa [hview]⟩, hsuccess⟩
    exact hview ▸ NotifiedQueue.alert_arm _
  · refine ⟨?_, hacked, ⟨left, hleft, by dsimp only; rwa [hview]⟩, hsuccess⟩
    rw [← hview] at hwakes hentries
    exact ⟨hwakes, NotifiedQueue.announced_of_empty hentries⟩
  · have hhandled : left = s.handled := by simpa using hleft
    have hgood : ∀ wc ∈ s.handled, wc.success = true := by simpa using hsuccess
    have htail : s.handled ++ [wc] ++ (V.view y).entries ++ s.due = completions := by
      rw [hview, NotifiedQueue.pop_entries, hentries, List.tail_cons, ← horder, hhandled, hentries]
      simp only [List.append_assoc, List.singleton_append]
    cases hwc : wc.success with
    | true =>
        refine ⟨?_, hacked, ⟨s.handled ++ [wc], rfl, htail⟩, ?_⟩
        · exact hview ▸ hwakes
        · intro x hx
          cases List.mem_append.1 hx with
          | inl hx => exact hgood x hx
          | inr hx => exact List.mem_singleton.1 hx ▸ hwc
    | false =>
        refine ⟨trivial, hacked, ⟨s.handled ++ [wc], ⟨wc, rfl, hwc⟩, htail⟩, ?_⟩
        simpa [State.inHand] using hgood
  · have hhandled : left = s.handled ++ [s.wc] := hleft
    refine ⟨hwakes, hacked, ⟨left, ?_, horder⟩, ?_⟩
    · simpa [Left, State.inHand] using hhandled
    · simpa [State.inHand] using hsuccess

theorem inv_of_reachable (hV : V.Documented) (h : (system V wc₀ completions).Reachable s) :
    Inv V completions s := by
  apply TransitionSystem.Reachable.induct _ _ h
  · intro s hinit
    cases hinit
    exact inv_start hV
  · intro s t _ hs hstep
    cases hstep with
    | inl hadapter => exact inv_adapterStep hV hs hadapter
    | inr hpoller => exact inv_pollerStep hV hs hpoller

/-! ### The calls are bounded -/

/-- The calls the poller can still make before it blocks, if nothing comes and no event is
    raised. -/
def Poller.calls : Poller → Nat
  | .getCqEvent => 0
  | .ackCqEvents => 3
  | .reqNotifyCq => 2
  | .pollCq => 1
  | .onCompletion => 2
  | .dead => 0

/-- Each completion that comes can cost an event, which costs four calls, and two calls of its
    own. -/
def work (V : Verbs σ) (s : State σ) : Nat :=
  7 * s.due.length + 2 * (V.view s.cq).entries.length + 4 * (V.view s.cq).notices + s.poller.calls

theorem work_adapterStep (hV : V.Documented) (hstep : adapterStep V s = some t) :
    work V t < work V s := by
  obtain ⟨wc, rest, y, hdue, hview, rfl⟩ := adapterStep_cases hV hstep
  have hnotices : ((V.view s.cq).push wc).notices ≤ (V.view s.cq).notices + 1 :=
    NotifiedQueue.push_notices_le wc (V.view s.cq)
  simp only [work, hdue, hview, List.length_cons, NotifiedQueue.push_entries, List.length_append,
    List.length_nil]
  omega

theorem work_pollerStep (hV : V.Documented) (hstep : pollerStep V s = some t) :
    work V t < work V s := by
  obtain ⟨hplace, hpos, y, hview, rfl⟩ | ⟨hplace, y, hview, rfl⟩ | ⟨hplace, y, hview, rfl⟩ |
    ⟨hplace, -, wc, y, hview, rfl⟩ | ⟨hplace, wc, rest, y, hentries, hview, rfl⟩ |
    ⟨hplace, rfl⟩ := pollerStep_cases hV hstep
  · simp only [work, hplace, hview, Poller.calls, NotifiedQueue.take_entries,
      NotifiedQueue.take_notices]
    omega
  · simp only [work, hplace, hview, Poller.calls]
    omega
  · simp only [work, hplace, hview, Poller.calls, NotifiedQueue.arm_entries,
      NotifiedQueue.arm_notices]
    omega
  · simp only [work, hplace, hview, Poller.calls]
    omega
  · have hcalls : (if wc.success then Poller.onCompletion else .dead).calls ≤ 2 := by
      cases wc.success with
      | true => exact Nat.le_refl 2
      | false => exact Nat.zero_le 2
    simp only [work, hplace, hview, hentries, NotifiedQueue.pop_entries, List.tail_cons,
      List.length_cons, NotifiedQueue.pop_notices, Poller.calls] at hcalls ⊢
    omega
  · simp only [work, hplace, Poller.calls]
    omega

/-- A blocked poller has emptied the queue. -/
theorem Inv.empty (hV : V.Documented) (h : Inv V completions s) (hplace : s.poller = .getCqEvent)
    (hblocked : V.getCqEvent s.cq = none) : (V.view s.cq).entries = [] := by
  have hwakes := h.wakes
  rw [hplace] at hwakes
  exact hwakes.2.entries_eq_nil (hV.getCqEvent_eq_none hblocked)

theorem terminates (hV : V.Documented) : (system V wc₀ completions).Terminates := by
  apply TransitionSystem.terminates_of_measure (work V)
  · intro s t _ hstep
    cases hstep with
    | inl hadapter => exact work_adapterStep hV hadapter
    | inr hpoller => exact work_pollerStep hV hpoller
  · intro s hreach hfinal
    by_cases hblocked : s.poller = .getCqEvent ∧ V.getCqEvent s.cq = none
    · -- a full queue would have been announced, so there is room
      have hempty := (inv_of_reachable hV hreach).empty hV hblocked.1 hblocked.2
      cases hdue : s.due with
      | nil => exact absurd (.inr ⟨hdue, hblocked⟩) hfinal
      | cons wc rest =>
          exact ⟨_, .inl (by rw [adapterStep, hdue, hempty]; exact if_pos (by decide))⟩
    · have hnext : ∃ t, pollerStep V s = some t :=
        pollerStep_isSome (fun hdead => hfinal (.inl hdead)) hblocked
      exact hnext.imp fun _ => .inr

/-! ### What is handed on -/

/-- A blocked poller has handed everything on that came. -/
theorem Inv.blocked (hV : V.Documented) (h : Inv V completions s) (hplace : s.poller = .getCqEvent)
    (hblocked : V.getCqEvent s.cq = none) :
    (V.view s.cq).entries = [] ∧ s.handled ++ s.due = completions := by
  have hempty := h.empty hV hplace hblocked
  obtain ⟨left, hleft, horder⟩ := h.order
  have hhandled : left = s.handled := by simpa [Left, State.inHand, hplace] using hleft
  rw [hhandled, hempty, List.append_nil] at horder
  exact ⟨hempty, horder⟩

/-- A dead poller died of the first completion that failed. -/
theorem Inv.died (h : Inv V completions s) (hdead : s.poller = .dead) :
    ∃ wc rest, completions = s.handled ++ wc :: rest ∧ wc.success = false := by
  obtain ⟨left, hleft, horder⟩ := h.order
  rw [Left, if_pos hdead] at hleft
  obtain ⟨wc, rfl, hwc⟩ := hleft
  exact ⟨wc, (V.view s.cq).entries ++ s.due, by simpa using horder.symm, hwc⟩

theorem Inv.handled_le (h : Inv V completions s) : s.handled <+: completions := by
  obtain ⟨left, hleft, rfl⟩ := h.order
  rw [Left] at hleft
  split at hleft
  · obtain ⟨wc, rfl, -⟩ := hleft
    simp [List.append_assoc]
  · subst hleft
    simp [List.append_assoc]

theorem Inv.handled_success (h : Inv V completions s) : ∀ wc ∈ s.handled, wc.success = true :=
  fun wc hwc => h.success wc (List.mem_append_left _ hwc)

/-- A run that has stopped has handed on the completions before the first that failed. -/
theorem Inv.handled_final (hV : V.Documented) (h : Inv V completions s)
    (hfinal : (system V wc₀ completions).final s) :
    s.handled = completions.takeWhile Wc.success := by
  have hall : s.handled.takeWhile Wc.success = s.handled :=
    List.takeWhile_eq_self_iff.2 h.handled_success
  cases hfinal with
  | inl hdead =>
      obtain ⟨wc, rest, heq, hwc⟩ := h.died hdead
      rw [heq, List.takeWhile_append_of_pos h.handled_success,
        List.takeWhile_cons_of_neg (by simp [hwc]), List.append_nil]
  | inr hblocked =>
      obtain ⟨hdue, hplace, hnone⟩ := hblocked
      have heq := (h.blocked hV hplace hnone).2
      rw [hdue, List.append_nil] at heq
      rw [← heq, hall]

/-- The poller thread, however it interleaves with the adapter, on a queue that behaves as
    documented and never gets an eleventh completion. It ends; it calls `on_completion` with
    completions that succeeded only, in the order they came and each once; when it is blocked
    nothing waits in the queue, and no event is left unacknowledged; and when it has stopped, it has
    been called with just the completions before the first that failed, the process having ended if
    and only if there is one. -/
theorem poll_cq_hands_on (V : Verbs σ) (hV : V.Documented) (wc₀ : Wc) (completions : List Wc) :
    (system V wc₀ completions).Terminates ∧
      ∀ s, (system V wc₀ completions).Reachable s →
        s.handled <+: completions ∧ (∀ wc ∈ s.handled, wc.success = true) ∧
          (s.poller = .getCqEvent → V.getCqEvent s.cq = none →
            (V.view s.cq).entries = [] ∧ s.unacked = 0 ∧ s.handled ++ s.due = completions) ∧
          ((system V wc₀ completions).final s →
            s.handled = completions.takeWhile Wc.success ∧
              (s.poller = .dead ↔ ∃ wc ∈ completions, wc.success = false)) := by
  refine ⟨terminates hV, fun s hreach => ?_⟩
  have hinv : Inv V completions s := inv_of_reachable hV hreach
  refine ⟨hinv.handled_le, hinv.handled_success, ?_, ?_⟩
  · intro hplace hnone
    obtain ⟨hempty, hall⟩ := hinv.blocked hV hplace hnone
    have hacked := hinv.acked
    rw [hplace] at hacked
    exact ⟨hempty, hacked, hall⟩
  · intro hfinal
    refine ⟨hinv.handled_final hV hfinal, ?_, ?_⟩
    · intro hdead
      obtain ⟨wc, rest, heq, hwc⟩ := hinv.died hdead
      exact ⟨wc, by simp [heq], hwc⟩
    · intro hfailed
      obtain ⟨wc, hmem, hwc⟩ := hfailed
      cases hfinal with
      | inl hdead => exact hdead
      | inr hblocked =>
          obtain ⟨hdue, hplace, hnone⟩ := hblocked
          have heq := (hinv.blocked hV hplace hnone).2
          rw [hdue, List.append_nil] at heq
          rw [← heq] at hmem
          rw [hinv.handled_success wc hmem] at hwc
          cases hwc

/-! ### A queue in memory -/

/-- A library that keeps the queue itself, and loses what comes when it is full. -/
def queueVerbs : Verbs (NotifiedQueue Wc) where
  createCq _ := NotifiedQueue.create
  complete wc q := if q.entries.length < cqe then q.push wc else q
  getCqEvent q := if 0 < q.notices then some (0, q.take) else none
  ackCqEvents q := q
  reqNotifyCq q := (0, q.arm)
  pollCq wc q :=
    match q.entries with
    | [] => (0, wc, q)
    | oldest :: _ => (1, oldest, q.pop)
  view q := q

theorem queueVerbs_documented : queueVerbs.Documented where
  create := rfl
  complete wc q hroom := if_pos hroom
  get_event q hpos := ⟨q.take, if_pos hpos, rfl⟩
  get_blocks q hnone := if_neg (hnone ▸ Nat.lt_irrefl 0)
  ack q := rfl
  arm q := ⟨rfl, rfl⟩
  poll_empty wc q hempty := by
    have hentries : q.entries = [] := hempty
    simp only [queueVerbs, hentries]
    exact ⟨trivial, trivial⟩
  poll_entry wc q oldest rest hentry := by
    have hentries : q.entries = oldest :: rest := hentry
    simp only [queueVerbs, hentries]
    exact ⟨trivial, trivial, trivial⟩

/-- Two messages are handed on, and the flushed request behind them ends the process. -/
theorem poll_cq_hands_on_flushed :
    ∃ s, (system queueVerbs ⟨0, 0, 0⟩ [⟨1, 0, 128⟩, ⟨2, 0, 0⟩, ⟨3, 5, 0⟩, ⟨4, 5, 0⟩]).Reachable s ∧
      s.handled = [⟨1, 0, 128⟩, ⟨2, 0, 0⟩] ∧ s.poller = .dead := by
  obtain ⟨hends, hall⟩ := poll_cq_hands_on queueVerbs queueVerbs_documented ⟨0, 0, 0⟩
    [⟨1, 0, 128⟩, ⟨2, 0, 0⟩, ⟨3, 5, 0⟩, ⟨4, 5, 0⟩]
  obtain ⟨s, hreach, hfinal⟩ := hends.exists_final rfl
  obtain ⟨hhandled, hdead⟩ := (hall s hreach).2.2.2 hfinal
  exact ⟨s, hreach, hhandled.trans (by decide), hdead.2 ⟨⟨3, 5, 0⟩, by decide, by decide⟩⟩

end PollCq

end FamGraph
