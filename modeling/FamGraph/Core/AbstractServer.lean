/-
Module: FamGraph.Core.AbstractServer
Layer: Core
Purpose: `AbstractServer.cpp`: what the connection manager's `event_loop` does with each event. The
  virtual functions are a record of handlers over the state of the derived class, an `rdma_cm_id *`
  is a number, and `verbs` gives the device context of an id. Every call out of the loop, of a
  handler or of the connection manager, is recorded in a trace. The calls the source wraps in
  `TEST_NZ` and `TEST_Z` succeed: the process ends otherwise.
Trusted boundary: human-reviewed model of `AbstractServer::event_loop` and the functions it calls
Main exports: CmEventType, CmEvent, Handlers, AbstractServer, handleEvent, eventLoop
-/
import FamGraph.Foundation.EventLoop

namespace FamGraph

/-- `rdma_cm_event_type` -/
inductive CmEventType where
  | addrResolved
  | addrError
  | routeResolved
  | routeError
  | connectRequest
  | connectResponse
  | connectError
  | unreachable
  | rejected
  | established
  | disconnected
  | deviceRemoval
  | multicastJoin
  | multicastError
  | addrChange
  | timewaitExit
deriving DecidableEq, Repr

/-- `rdma_cm_event`: what happened, and on which connection. -/
structure CmEvent where
  event : CmEventType
  id : Nat
deriving DecidableEq, Repr

/-- How the loop can end in the middle of an event. -/
inductive Stop where
  | rcDie (reason : String)
  | runtimeError (what : String)
  | nullPointer
deriving DecidableEq, Repr

/-- The virtual functions `event_loop` calls. -/
inductive Virtual where
  | onPreConn
  | onConnection
  | onDisconnect
deriving DecidableEq, Repr

/-- `rdma_conn_param` -/
structure ConnParam where
  initiator_depth : Nat
  responder_resources : Nat
  rnr_retry_count : Nat
deriving DecidableEq, Repr

/-- `ibv_qp_init_attr`; `shared_cq` tells whether both completion queues are the one of the
    context. -/
structure QpInitAttr where
  shared_cq : Bool
  max_send_wr : Nat
  max_recv_wr : Nat
  max_send_sge : Nat
  max_recv_sge : Nat
  sq_sig_all : Nat
deriving DecidableEq, Repr

/-- A call out of the loop. -/
inductive Action where
  | handler (f : Virtual) (id : Nat)
  | createQp (id : Nat) (attr : QpInitAttr)
  | resolveRoute (id timeout : Nat)
  | connect (id : Nat) (params : ConnParam)
  | accept (id : Nat) (params : ConnParam)
  | destroyQp (id : Nat)
  | destroyId (id : Nat)
deriving DecidableEq, Repr

/-- `fam_ib_context`: the device and the number of established connections. -/
structure FamIbContext where
  ctx : Nat
  connections : Nat
deriving DecidableEq, Repr

/-- The object and the variables of `event_loop`. -/
structure AbstractServer (σ : Type) where
  latch0 : Bool
  latch2 : Bool
  latch3 : Bool
  latch4 : Bool
  fam_ib_ctx : Option FamIbContext
  trace : List Action
  derived : σ

/-- The overriding functions of a derived class. -/
structure Handlers (σ : Type) where
  call : Virtual → Nat → EStateM Stop σ Unit

namespace AbstractServer

variable {σ : Type}

/-- The state `event_loop` begins in. -/
def new (derived : σ) : AbstractServer σ where
  latch0 := false
  latch2 := false
  latch3 := false
  latch4 := false
  fam_ib_ctx := none
  trace := []
  derived := derived

def emit (a : Action) : EStateM Stop (AbstractServer σ) Unit :=
  modify fun s => { s with trace := s.trace ++ [a] }

/-- `this->f(id)` -/
def call (handlers : Handlers σ) (f : Virtual) (id : Nat) :
    EStateM Stop (AbstractServer σ) Unit := do
  emit (.handler f id)
  fun s =>
    match handlers.call f id s.derived with
    | .ok _ derived => .ok () { s with derived := derived }
    | .error stop derived => .error stop { s with derived := derived }

/-- `if (!latch) this->f(id)` -/
def callUnless (handlers : Handlers σ) (latch : Bool) (f : Virtual) (id : Nat) :
    EStateM Stop (AbstractServer σ) Unit :=
  if !latch then call handlers f id else pure ()

/-- `build_params` -/
def buildParams : ConnParam where
  initiator_depth := 1
  responder_resources := 1
  rnr_retry_count := 7

/-- `build_qp_attr` -/
def buildQpAttr (is_qp0 : Bool) : QpInitAttr where
  shared_cq := is_qp0
  max_send_wr := 40
  max_recv_wr := 1600
  max_send_sge := 1
  max_recv_sge := 1
  sq_sig_all := 0

/-- `build_context` -/
def buildContext (verbs : Nat) : EStateM Stop (AbstractServer σ) Unit := do
  match (← get).fam_ib_ctx with
  | some fam_ib_ctx =>
      if fam_ib_ctx.ctx ≠ verbs then throw (.rcDie "cannot handle events in more than one context.")
  | none => modify fun s => { s with fam_ib_ctx := some { ctx := verbs, connections := 0 } }

/-- `build_connection` -/
def buildConnection (verbs : Nat → Nat) (id : Nat) (is_qp0 : Bool) :
    EStateM Stop (AbstractServer σ) Unit := do
  buildContext (verbs id)
  emit (.createQp id (buildQpAttr is_qp0))

/-- `fam_ib_ctx->connections++` -/
def countConnection : EStateM Stop (AbstractServer σ) Unit := do
  match (← get).fam_ib_ctx with
  | some c =>
      modify fun s => { s with fam_ib_ctx := some { c with connections := c.connections + 1 } }
  | none => throw .nullPointer

/-- The body of the loop; `false` is its `break`. -/
def handleEvent (verbs : Nat → Nat) (handlers : Handlers σ) (exit_on_disconnect : Bool)
    (e : CmEvent) :
    EStateM Stop (AbstractServer σ) Bool := do
  match e.event with
  | .addrResolved =>
      let latch0 := (← get).latch0
      buildConnection verbs e.id (!latch0)
      callUnless handlers latch0 .onPreConn e.id
      emit (.resolveRoute e.id 500)
      modify fun s => { s with latch0 := true }
      pure true
  | .routeResolved =>
      emit (.connect e.id buildParams)
      pure true
  | .connectRequest =>
      let latch2 := (← get).latch2
      buildConnection verbs e.id (!latch2)
      callUnless handlers latch2 .onPreConn e.id
      emit (.accept e.id buildParams)
      modify fun s => { s with latch2 := true }
      pure true
  | .established =>
      callUnless handlers (← get).latch3 .onConnection e.id
      modify fun s => { s with latch3 := true }
      countConnection
      pure true
  | .disconnected =>
      emit (.destroyQp e.id)
      callUnless handlers (← get).latch4 .onDisconnect e.id
      emit (.destroyId e.id)
      if exit_on_disconnect then
        pure false
      else
        modify fun s => { s with latch4 := true }
        pure true
  | _ => throw (.runtimeError "RDMA event not handled")

/-- `event_loop` on the events that `rdma_get_cm_event` returns. -/
def eventLoop (verbs : Nat → Nat) (handlers : Handlers σ) (exit_on_disconnect : Bool) :
    List CmEvent → EStateM Stop (AbstractServer σ) Bool :=
  EventLoop.run (handleEvent verbs handlers exit_on_disconnect)

end AbstractServer

end FamGraph
