/-
Module: FamGraph.Core.SessionKernel
Layer: Core
Purpose: A session with a kernel in its kernel thread. The kernel takes its own steps, posting RDMA
  reads, while the thread is in it, and the thread leaves it when it is done. Each action of the
  session makes calls that may fail: an exception, a `TEST_NZ`, `rc_die`. What happens next is that
  there is no process any more. No read completes with an error, so a polling thread returns when it
  sees `should_stop`.
Trusted boundary: human-reviewed; the kernel and the calls that fail are parameters
Main exports: Session.Hosted, Session.Action.Due, Session.HostedStep, Session.hosted
-/
import FamGraph.Core.Session

namespace FamGraph

namespace Session

/-- A session and its trace, the state of its kernel, and whether a call has failed. -/
structure Hosted (κ : Type*) where
  state : State
  trace : List Action
  kernel : κ
  failed : Bool

/-- The kernel thread is in its kernel. -/
def State.Computing (s : State) : Prop :=
  ∃ rest, s.client.app_thread = .running (.compute :: rest)

/-- `should_stop` of the application object. -/
def State.Stopped (s : State) : Prop :=
  ∃ app, s.client.app = some app ∧ app.should_stop = true

variable {κ : Type*}

/-- The kernel thread waits for its kernel, and the polling threads wait for `should_stop`. -/
structure Action.Due (K : TransitionSystem κ) (s : State) (k : κ) (a : Action) : Prop where
  not_read : a ≠ .rdmaRead
  compute : a = .kernel .compute → K.final k
  comm : ∀ i, a = .commReturn i → s.Stopped

/-- One action of the session, or one step of its kernel. -/
inductive HostedStep (connections : Nat) (mr : MemoryRegion) (total_edges : Nat)
    (K : TransitionSystem κ) (fails : State → Action → Prop) : Hosted κ → Hosted κ → Prop where
  | act {s t : State} {trace : List Action} {k : κ} {a : Action} (due : a.Due K s k)
      (steps : step connections mr total_edges s a = some t) (call : ¬ fails s a) :
      HostedStep connections mr total_edges K fails ⟨s, trace, k, false⟩ ⟨t, trace ++ [a], k, false⟩
  | fail {s t : State} {trace : List Action} {k : κ} {a : Action} (due : a.Due K s k)
      (steps : step connections mr total_edges s a = some t) (call : fails s a) :
      HostedStep connections mr total_edges K fails ⟨s, trace, k, false⟩ ⟨s, trace, k, true⟩
  | compute {s : State} {trace : List Action} {k k' : κ} (computing : s.Computing)
      (steps : K.step k k')
      (reads : Nat) :
      HostedStep connections mr total_edges K fails ⟨s, trace, k, false⟩
        ⟨s, trace ++ List.replicate reads .rdmaRead, k', false⟩

/-- A session with the kernel `K`. It ends when a process does, or when the client has left its
    event loop. -/
def hosted (connections : Nat) (mr : MemoryRegion) (total_edges : Nat) (K : TransitionSystem κ)
    (fails : State → Action → Prop) : TransitionSystem (Hosted κ) where
  init p := (session connections mr total_edges).init (p.state, p.trace) ∧ K.init p.kernel ∧
    p.failed = false
  step p q := HostedStep connections mr total_edges K fails p q
  final p := p.failed = true ∨ p.state.client.loop_exited = true

end Session

end FamGraph
