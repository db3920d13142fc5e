/-
Module: FamGraph.Core.PollCq
Layer: Core
Purpose: `poll_cq`, the poller thread of a context, which is the same loop in `connection_utils.cpp`
  and in `AbstractServer.cpp`, one call at a time, beside an adapter that puts completions into the
  queue at any moment. `build_context` arms the queue before it starts the thread. The completion
  queue belongs to the verbs library and is a parameter; `Verbs.Documented` says what is relied on
  of it, which is that no call fails and that a queue asked for ten entries holds ten.
  `on_completion`, which returns, is an entry in a list of calls here.
Trusted boundary: human-reviewed model of `poll_cq` and of the queue `build_context` makes
Main exports: PollCq.Wc, PollCq.Verbs, PollCq.Verbs.Documented, PollCq.Poller, PollCq.State,
  PollCq.pollerStep, PollCq.system
-/
import FamGraph.Foundation.NotifiedQueue
import FamGraph.Foundation.TransitionSystem

namespace FamGraph

namespace PollCq

/-- `IBV_WC_SUCCESS` -/
def IBV_WC_SUCCESS : Nat := 0

/-- The entries `build_context` asks `ibv_create_cq` for. -/
def cqe : Nat := 10

/-- `ibv_wc`, as far as `poll_cq` and the handlers look at it. -/
structure Wc where
  wr_id : Nat
  status : Nat
  opcode : Nat
deriving DecidableEq, Repr

/-- `wc.status == IBV_WC_SUCCESS` -/
def Wc.success (wc : Wc) : Bool := wc.status == IBV_WC_SUCCESS

/-- A verbs library and its adapter, by what they do to a state of theirs that holds a completion
    queue and its channel. The calls yield what they return. -/
structure Verbs (σ : Type*) where
  createCq : Nat → σ
  complete : Wc → σ → σ
  /-- Nothing while the call blocks. -/
  getCqEvent : σ → Option (Int × σ)
  ackCqEvents : σ → σ
  reqNotifyCq : σ → Int × σ
  /-- It gets `wc` and may write it. -/
  pollCq : Wc → σ → Int × Wc × σ
  /-- The completions in the queue, whether it is armed, and the events on the channel. -/
  view : σ → NotifiedQueue Wc

/-- What the verbs documentation says of the calls, for a queue that does not overrun and calls that
    do not fail. -/
structure Verbs.Documented {σ : Type*} (V : Verbs σ) : Prop where
  create : V.view (V.createCq cqe) = NotifiedQueue.create
  complete : ∀ wc x, (V.view x).entries.length < cqe → V.view (V.complete wc x) = (V.view x).push wc
  get_event :
    ∀ x, 0 < (V.view x).notices → ∃ y, V.getCqEvent x = some (0, y) ∧ V.view y = (V.view x).take
  get_blocks : ∀ x, (V.view x).notices = 0 → V.getCqEvent x = none
  ack : ∀ x, V.view (V.ackCqEvents x) = V.view x
  arm : ∀ x, (V.reqNotifyCq x).1 = 0 ∧ V.view (V.reqNotifyCq x).2 = (V.view x).arm
  poll_empty : ∀ wc x, (V.view x).entries = [] →
    (V.pollCq wc x).1 = 0 ∧ V.view (V.pollCq wc x).2.2 = V.view x
  poll_entry : ∀ wc x oldest rest, (V.view x).entries = oldest :: rest →
    (V.pollCq wc x).1 = 1 ∧ (V.pollCq wc x).2.1 = oldest ∧
    V.view (V.pollCq wc x).2.2 = (V.view x).pop

/-- The call the poller is about to make. -/
inductive Poller where
  | getCqEvent
  | ackCqEvents
  | reqNotifyCq
  | pollCq
  | onCompletion
  /-- `rc_die` was called: there is no process any more. -/
  | dead
deriving DecidableEq, Repr

/-- The queue, the variable `wc`, the events taken and not acknowledged, the poller, the completions
    `on_completion` was called with, and those that are still to come. -/
structure State (σ : Type*) where
  cq : σ
  wc : Wc
  unacked : Nat
  poller : Poller
  handled : List Wc
  due : List Wc

variable {σ : Type*}

/-- What `build_context` leaves behind: `ibv_create_cq`, `ibv_req_notify_cq` under `TEST_NZ`, and
    `pthread_create`; `wc` is not initialized. -/
def start (V : Verbs σ) (wc : Wc) (completions : List Wc) : State σ :=
  let (result, cq) := V.reqNotifyCq (V.createCq cqe)
  { cq := cq
    wc := wc
    unacked := 0
    poller := if result = 0 then .getCqEvent else .dead
    handled := []
    due := completions }

/-- One call of the poller, unless it blocks. -/
def pollerStep (V : Verbs σ) (s : State σ) : Option (State σ) :=
  match s.poller with
  | .getCqEvent =>
      (V.getCqEvent s.cq).map fun (result, cq) =>
        if result = 0 then { s with cq := cq, unacked := s.unacked + 1, poller := .ackCqEvents }
        else { s with cq := cq, poller := .dead }
  | .ackCqEvents =>
      some { s with cq := V.ackCqEvents s.cq, unacked := s.unacked - 1, poller := .reqNotifyCq }
  | .reqNotifyCq =>
      let (result, cq) := V.reqNotifyCq s.cq
      some { s with cq := cq, poller := if result = 0 then .pollCq else .dead }
  | .pollCq =>
      let (result, wc, cq) := V.pollCq s.wc s.cq
      some
        { s with
          cq := cq
          wc := wc
          -- an error, which is negative, passes for a completion
          poller :=
            if result = 0 then .getCqEvent else if wc.success then .onCompletion else .dead }
  | .onCompletion => some { s with handled := s.handled ++ [s.wc], poller := .pollCq }
  | .dead => none

/-- The adapter puts the next completion into the queue. With ten in it the next would be an
    overrun; what is said here is about runs without one. -/
def adapterStep (V : Verbs σ) (s : State σ) : Option (State σ) :=
  match s.due with
  | [] => none
  | wc :: rest =>
      if (V.view s.cq).entries.length < cqe then
        some { s with cq := V.complete wc s.cq, due := rest }
      else none

/-- The poller and an adapter that has `completions` to report, in any interleaving. It ends when
    the process does, or when the poller is blocked and nothing is to come. -/
def system (V : Verbs σ) (wc : Wc) (completions : List Wc) : TransitionSystem (State σ) where
  init s := s = start V wc completions
  step s t := adapterStep V s = some t ∨ pollerStep V s = some t
  final s := s.poller = .dead ∨ (s.due = [] ∧ s.poller = .getCqEvent ∧ V.getCqEvent s.cq = none)

end PollCq

end FamGraph
