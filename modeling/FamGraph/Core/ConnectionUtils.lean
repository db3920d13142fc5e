/-
Module: FamGraph.Core.ConnectionUtils
Layer: Core
Purpose: The connection manager's loop on the client's side, `connection_utils.cpp`. It is a copy of
  `AbstractServer::event_loop` over static variables: the handlers are function pointers that
  `rc_init` sets and that may be null, and the context is `s_ctx`. Events, calls out of the loop and
  ways to stop are those of the other copy.
Trusted boundary: human-reviewed model of `event_loop` of `connection_utils.cpp` and the functions
  it calls
Main exports: ConnectionUtils.Callbacks, ConnectionUtils.ClientLoop, ConnectionUtils.eventLoop
-/
import FamGraph.Core.AbstractServer

namespace FamGraph

namespace ConnectionUtils

variable {σ : Type}

/-- `TIMEOUT_IN_MS` -/
def TIMEOUT_IN_MS : Nat := 500

/-- `struct context` -/
structure Context where
  ctx : Nat
  connections : Nat
deriving DecidableEq, Repr

/-- `s_on_pre_conn_cb`, `s_on_connect_cb` and `s_on_disconnect_cb`, as `rc_init` sets them. -/
structure Callbacks (σ : Type) where
  on_pre_conn : Option (Nat → EStateM Stop σ Unit)
  on_connect : Option (Nat → EStateM Stop σ Unit)
  on_disconnect : Option (Nat → EStateM Stop σ Unit)

/-- The pointer of a handler, under the name the trace gives it. -/
def Callbacks.pointer (cb : Callbacks σ) : Virtual → Option (Nat → EStateM Stop σ Unit)
  | .onPreConn => cb.on_pre_conn
  | .onConnection => cb.on_connect
  | .onDisconnect => cb.on_disconnect

/-- The variables of `event_loop`, `s_ctx`, and what the handlers work on. -/
structure ClientLoop (σ : Type) where
  latch0 : Bool
  latch2 : Bool
  latch3 : Bool
  latch4 : Bool
  s_ctx : Option Context
  trace : List Action
  derived : σ

namespace ClientLoop

/-- The state `event_loop` begins in. -/
def new (derived : σ) : ClientLoop σ where
  latch0 := false
  latch2 := false
  latch3 := false
  latch4 := false
  s_ctx := none
  trace := []
  derived := derived

end ClientLoop

def emit (a : Action) : EStateM Stop (ClientLoop σ) Unit :=
  modify fun s => { s with trace := s.trace ++ [a] }

/-- `f(id)` through a pointer that is not null. -/
def callPointer (f : Virtual) (pointer : Nat → EStateM Stop σ Unit) (id : Nat) :
    EStateM Stop (ClientLoop σ) Unit := do
  emit (.handler f id)
  fun s =>
    match pointer id s.derived with
    | .ok _ derived => .ok () { s with derived := derived }
    | .error stop derived => .error stop { s with derived := derived }

/-- `if (f && !latch) f(id)` -/
def callUnless (cb : Callbacks σ) (latch : Bool) (f : Virtual) (id : Nat) :
    EStateM Stop (ClientLoop σ) Unit :=
  match cb.pointer f with
  | some pointer => if !latch then callPointer f pointer id else pure ()
  | none => pure ()

/-- `build_params` -/
def buildParams : ConnParam where
  initiator_depth := 1
  responder_resources := 1
  rnr_retry_count := 7

/-- `build_qp_attr` -/
def buildQpAttr (is_qp0 : Bool) : QpInitAttr where
  shared_cq := is_qp0
  max_send_wr := 40
  max_recv_wr := 1600
  max_send_sge := 1
  max_recv_sge := 1
  sq_sig_all := 0

/-- `build_context` -/
def buildContext (verbs : Nat) : EStateM Stop (ClientLoop σ) Unit := do
  match (← get).s_ctx with
  | some s_ctx =>
      if s_ctx.ctx ≠ verbs then throw (.rcDie "cannot handle events in more than one context.")
  | none => modify fun s => { s with s_ctx := some { ctx := verbs, connections := 0 } }

/-- `build_connection` -/
def buildConnection (verbs : Nat → Nat) (id : Nat) (is_qp0 : Bool) :
    EStateM Stop (ClientLoop σ) Unit := do
  buildContext (verbs id)
  emit (.createQp id (buildQpAttr is_qp0))

/-- `s_ctx->connections++` -/
def countConnection : EStateM Stop (ClientLoop σ) Unit := do
  match (← get).s_ctx with
  | some c => modify fun s => { s with s_ctx := some { c with connections := c.connections + 1 } }
  | none => throw .nullPointer

/-- The body of the loop; `false` is its `break`. -/
def handleEvent (verbs : Nat → Nat) (cb : Callbacks σ) (exit_on_disconnect : Bool) (e : CmEvent) :
    EStateM Stop (ClientLoop σ) Bool := do
  match e.event with
  | .addrResolved =>
      let latch0 := (← get).latch0
      buildConnection verbs e.id (!latch0)
      callUnless cb latch0 .onPreConn e.id
      emit (.resolveRoute e.id TIMEOUT_IN_MS)
      modify fun s => { s with latch0 := true }
      pure true
  | .routeResolved =>
      emit (.connect e.id buildParams)
      pure true
  | .connectRequest =>
      let latch2 := (← get).latch2
      buildConnection verbs e.id (!latch2)
      callUnless cb latch2 .onPreConn e.id
      emit (.accept e.id buildParams)
      modify fun s => { s with latch2 := true }
      pure true
  | .established =>
      callUnless cb (← get).latch3 .onConnection e.id
      modify fun s => { s with latch3 := true }
      countConnection
      pure true
  | .disconnected =>
      emit (.destroyQp e.id)
      callUnless cb (← get).latch4 .onDisconnect e.id
      emit (.destroyId e.id)
      if exit_on_disconnect then
        pure false
      else
        modify fun s => { s with latch4 := true }
        pure true
  | _ => throw (.runtimeError "RDMA event not handled")

/-- `event_loop` on the events that `rdma_get_cm_event` returns. -/
def eventLoop (verbs : Nat → Nat) (cb : Callbacks σ) (exit_on_disconnect : Bool) :
    List CmEvent → EStateM Stop (ClientLoop σ) Bool :=
  EventLoop.run (handleEvent verbs cb exit_on_disconnect)

end ConnectionUtils

end FamGraph
