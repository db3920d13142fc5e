/-
Module: FamGraph.Core.Session
Layer: Core
Purpose: A session of a client with `connections` worker connections and the server, step by step:
  the connection manager's events in the two event loops, `on_completion` of both sides in their
  poller threads, the client's kernel thread with `finish_application`, its polling threads, and the
  control messages on connection 0. A thread is the list of accesses to shared state it has still to
  make; the threads, the events and the adapters interleave in any way. A posted message is copied
  out of the sender's buffer at any time later, travels in order, and is copied into the receiver's
  buffer once a receive is posted there. The kernel returns and no call fails: an exception or a
  failed `TEST_NZ` ends the process, and a kernel that does not return keeps its thread, so either
  only cuts a run short, and what holds of every run is not touched by it. `SessionKernel` is about
  sessions where this is not taken for granted. The server's cleaning up after the disconnect is
  left out.
Trusted boundary: human-reviewed model of `on_completion`, `finish_application`, `event_loop` of the
  client and of `on_connection`, `on_completion`, `event_loop` of the server
Main exports: Endpoint, ClientOp, ServerOp, KernelOp, Session.State, Session.Action, Session.step,
  Session.session
-/
import FamGraph.Core.AbstractServer
import FamGraph.Core.FamServer
import FamGraph.Foundation.TransitionSystem

namespace FamGraph

namespace Session

/-! ### Connection 0 -/

/-- `wc.opcode`, as far as `wc->opcode & IBV_WC_RECV` tells. -/
inductive WcOpcode where
  | send
  | recv
deriving DecidableEq, Repr

/-- One end of connection 0: the two message buffers, the work requests and the completion queue.
    `sends` counts the posted messages that are still to be copied out of `tx_msg`. -/
structure Endpoint where
  tx_msg : Message
  rx_msg : Message
  sends : Nat
  receives : Nat
  cq : List WcOpcode
deriving DecidableEq, Repr

namespace Endpoint

/-- `post_receive` -/
def postReceive (e : Endpoint) : Endpoint := { e with receives := e.receives + 1 }

/-- `send_message` -/
def sendMessage (e : Endpoint) : Endpoint := { e with sends := e.sends + 1 }

/-- `tx_msg->id = id` -/
def setId (id : MessageId) (e : Endpoint) : Endpoint :=
  { e with tx_msg := { e.tx_msg with id := id } }

/-- A posted message is copied out of the buffer, and its completion follows. -/
def transmit (e : Endpoint) : Endpoint := { e with sends := e.sends - 1, cq := e.cq ++ [.send] }

/-- A message is copied into the buffer of a posted receive, and its completion follows. -/
def deliver (m : Message) (e : Endpoint) : Endpoint :=
  { e with rx_msg := m, receives := e.receives - 1, cq := e.cq ++ [.recv] }

/-- `ibv_poll_cq(cq, 1, &wc)` -/
def poll (e : Endpoint) : Endpoint := { e with cq := e.cq.tail }

end Endpoint

/-- How far the client is with a connection. -/
inductive ClientPhase where
  | created
  | addrResolving
  | routeResolving
  | connecting
  | established
deriving DecidableEq, Repr

/-- How far the server is with a connection. -/
inductive ServerPhase where
  | idle
  | accepted
  | established
deriving DecidableEq, Repr

structure Conn where
  client : ClientPhase
  server : ServerPhase
deriving DecidableEq, Repr

/-! ### The threads -/

/-- What `on_completion` of the client does; `dispatch` are the tests of `rx_msg->id`. -/
inductive ClientOp where
  | dispatch
  | setPeerAddr
  | setPeerRkey
  | setNumEdges
  | postReceive
  | createApp
  | resolveAddr (i : Nat)
  | awaitConnections
  | startComm
  | startKernel
  | joinApp
  | joinComm
  | disconnect
deriving DecidableEq, Repr

/-- The branches of `on_completion` of the client. -/
def onCompletion (connections : Nat) : MessageId → List ClientOp
  | .mr =>
      [.setPeerAddr, .setPeerRkey, .setNumEdges, .postReceive, .createApp] ++
        ((List.range connections).map .resolveAddr ++ [.awaitConnections, .startComm, .startKernel])
  | .ready => [.postReceive]
  | .done => [.joinApp, .joinComm, .disconnect]
  | .invalid => []

/-- What the server's threads do. -/
inductive ServerOp where
  | dispatch
  | postReceive
  | setId (id : MessageId)
  | setMr
  | sendMessage
deriving DecidableEq, Repr

/-- `FAMServer::on_connection` -/
def serverOnConnection : List ServerOp := [.setId .mr, .setMr, .sendMessage]

/-- The branches of `FAMServer::on_completion`. -/
def serverOnCompletion : MessageId → List ServerOp
  | .ready => [.postReceive, .setId .done, .sendMessage]
  | .done => [.postReceive, .setId .done, .sendMessage]
  | .mr => []
  | .invalid => []

/-- What the kernel thread does; `compute` is the kernel itself, which posts the RDMA reads. -/
inductive KernelOp where
  | compute
  | setShouldStop
  | setId (id : MessageId)
  | sendMessage
deriving DecidableEq, Repr

/-- `run_kernel`, with `finish_application` at its end. -/
def runKernel : List KernelOp := [.compute, .setShouldStop, .setId .ready, .sendMessage]

/-- `app_thread` -/
inductive AppThread where
  | notStarted
  | running (rest : List KernelOp)
  | exited
  | joined
deriving DecidableEq, Repr

/-- A thread of `comm_threads`. -/
inductive CommThread where
  | polling
  | exited
  | joined
deriving DecidableEq, Repr

/-! ### The state -/

/-- `famgraph::application` -/
structure Application where
  num_edges : Nat
  should_stop : Bool
deriving DecidableEq, Repr

/-- The client's context and threads. `poller` is what the poller thread has still to do in
    `on_completion`, `connections` is `s_ctx->connections`. -/
structure Client where
  base : Endpoint
  poller : List ClientOp
  peer_addr : Nat
  peer_rkey : Nat
  num_edges : Nat
  app : Option Application
  app_thread : AppThread
  comm_threads : List CommThread
  latch0 : Bool
  connections : Nat
  disconnected : Bool
  loop_exited : Bool
deriving DecidableEq, Repr

/-- The server's context and threads. -/
structure Server where
  base : Endpoint
  event_loop : List ServerOp
  poller : List ServerOp
  latch2 : Bool
  latch3 : Bool
deriving DecidableEq, Repr

/-- Both sides, the messages under way, and the connections, of which number 0 is the client's
    `base_id`. `strayed` tells whether a handler was run for another connection than 0, which the
    model follows no further. -/
structure State where
  client : Client
  server : Server
  toClient : List Message
  toServer : List Message
  conns : List Conn
  strayed : Bool
deriving DecidableEq, Repr

/-- `rc_client_loop` and the server's `run` about to enter their event loops; what memory holds that
    nobody has written is given. -/
def start (connections : Nat) (garbage : Endpoint × Endpoint) (peer_addr peer_rkey : Nat) :
    State where
  client :=
    { base := { garbage.1 with sends := 0, receives := 0, cq := [] }
      poller := []
      peer_addr := peer_addr
      peer_rkey := peer_rkey
      num_edges := 0
      app := none
      app_thread := .notStarted
      comm_threads := []
      latch0 := false
      connections := 0
      disconnected := false
      loop_exited := false }
  server :=
    { base := { garbage.2 with sends := 0, receives := 0, cq := [] }
      event_loop := []
      poller := []
      latch2 := false
      latch3 := false }
  toClient := []
  toServer := []
  conns := ⟨.addrResolving, .idle⟩ :: List.replicate connections ⟨.created, .idle⟩
  strayed := false

/-! ### What the threads do -/

/-- One access of the client's `on_completion`, if it does not block or end the process. -/
def ClientOp.exec (connections : Nat) (s : State) : ClientOp → Option State
  | .dispatch => some { s with client.poller := onCompletion connections s.client.base.rx_msg.id }
  | .setPeerAddr => some { s with client.peer_addr := s.client.base.rx_msg.addr }
  | .setPeerRkey => some { s with client.peer_rkey := s.client.base.rx_msg.rkey }
  | .setNumEdges => some { s with client.num_edges := s.client.base.rx_msg.total_edges }
  | .postReceive => some { s with client.base := s.client.base.postReceive }
  | .createApp =>
      some { s with client.app := some { num_edges := s.client.num_edges, should_stop := false } }
  | .resolveAddr i =>
      -- `rdma_resolve_addr` fails on an id that has left its first state
      match s.conns[i + 1]? with
      | some conn =>
          if conn.client = .created then
            some { s with conns := s.conns.set (i + 1) { conn with client := .addrResolving } }
          else none
      | none => none
  | .awaitConnections => if s.client.connections < connections + 1 then none else some s
  | .startComm => some { s with client.comm_threads := s.client.comm_threads ++ [.polling] }
  | .startKernel =>
      -- assigning to a `std::thread` that was not joined ends the process
      match s.client.app_thread with
      | .running _ => none
      | .exited => none
      | .notStarted => some { s with client.app_thread := .running runKernel }
      | .joined => some { s with client.app_thread := .running runKernel }
  | .joinApp =>
      if s.client.app_thread = .exited then some { s with client.app_thread := .joined } else none
  | .joinComm =>
      if ∀ thread ∈ s.client.comm_threads, thread = .exited then
        some { s with client.comm_threads := s.client.comm_threads.map fun _ => .joined }
      else none
  | .disconnect => some { s with client.disconnected := true }

/-- One access of the server's `on_connection` or `on_completion`. -/
def ServerOp.exec (mr : MemoryRegion) (total_edges : Nat) (s : State) : ServerOp → State
  | .dispatch => { s with server.poller := serverOnCompletion s.server.base.rx_msg.id }
  | .postReceive => { s with server.base := s.server.base.postReceive }
  | .setId id => { s with server.base := s.server.base.setId id }
  | .setMr =>
      { s with
        server.base.tx_msg :=
          { s.server.base.tx_msg with
            addr := mr.addr, rkey := mr.rkey, total_edges := total_edges } }
  | .sendMessage => { s with server.base := s.server.base.sendMessage }

/-- One access of the kernel thread. -/
def KernelOp.exec (s : State) : KernelOp → Option State
  | .compute => some s
  | .setShouldStop =>
      match s.client.app with
      | some app => some { s with client.app := some { app with should_stop := true } }
      | none => none
  | .setId id => some { s with client.base := s.client.base.setId id }
  | .sendMessage => some { s with client.base := s.client.base.sendMessage }

/-! ### What the event loops do -/

/-- `on_pre_conn` of the client, behind `latch0`. -/
def clientPreConn (i : Nat) (s : State) : State :=
  if s.client.latch0 then s
  else if i = 0 then { s with client.base := s.client.base.postReceive, client.latch0 := true }
  else { s with client.latch0 := true, strayed := true }

/-- `on_pre_conn` of the server, behind `latch2`. -/
def serverPreConn (i : Nat) (s : State) : State :=
  if s.server.latch2 then s
  else if i = 0 then { s with server.base := s.server.base.postReceive, server.latch2 := true }
  else { s with server.latch2 := true, strayed := true }

/-- `on_connection` of the server, behind `latch3`. -/
def serverConnect (i : Nat) (s : State) : State :=
  if s.server.latch3 then s
  else if i = 0 then { s with server.event_loop := serverOnConnection, server.latch3 := true }
  else { s with server.latch3 := true, strayed := true }

/-- An event of connection `i` in the client's `event_loop`. -/
def clientEvent (event : CmEventType) (i : Nat) (s : State) : Option State :=
  if s.client.loop_exited then none
  else
    match s.conns[i]? with
    | none => none
    | some conn =>
        match event, conn.client with
        | .addrResolved, .addrResolving =>
            some (clientPreConn i
              { s with conns := s.conns.set i { conn with client := .routeResolving } })
        | .routeResolved, .routeResolving =>
            some { s with conns := s.conns.set i { conn with client := .connecting } }
        | .established, .connecting =>
            if conn.server = .idle then none
            else
              some { s with
                conns := s.conns.set i { conn with client := .established }
                client.connections := s.client.connections + 1 }
        | .disconnected, .established =>
            if s.client.disconnected ∧ i = 0 then some { s with client.loop_exited := true }
              else none
        | _, _ => none

/-- An event of connection `i` in the server's `event_loop`, which is not in the middle of another
    one. -/
def serverEvent (event : CmEventType) (i : Nat) (s : State) : Option State :=
  if s.server.event_loop ≠ [] then none
  else
    match s.conns[i]? with
    | none => none
    | some conn =>
        match event, conn.client, conn.server with
        | .connectRequest, .connecting, .idle =>
            some (serverPreConn i
              { s with conns := s.conns.set i { conn with server := .accepted } })
        | .established, _, .accepted =>
            some (serverConnect i
              { s with conns := s.conns.set i { conn with server := .established } })
        | _, _, _ => none

/-! ### One step -/

/-- What can happen next. -/
inductive Action where
  | clientEvent (event : CmEventType) (i : Nat)
  | serverEvent (event : CmEventType) (i : Nat)
  /-- The poller takes a completion out of its queue. -/
  | clientPoll (opcode : WcOpcode)
  | serverPoll (opcode : WcOpcode)
  /-- The next access of a thread. -/
  | client (op : ClientOp)
  | serverLoop (op : ServerOp)
  | server (op : ServerOp)
  | kernel (op : KernelOp)
  /-- The kernel posts an RDMA read. -/
  | rdmaRead
  | kernelReturn
  | commReturn (i : Nat)
  /-- A message leaves the sender's buffer, or arrives in the receiver's. -/
  | transmitToClient (m : Message)
  | transmitToServer (m : Message)
  | deliverToClient (m : Message)
  | deliverToServer (m : Message)
deriving DecidableEq, Repr

/-- The state after an action, if it can happen. -/
def step (connections : Nat) (mr : MemoryRegion) (total_edges : Nat) (s : State) :
    Action → Option State
  | .clientEvent event i => clientEvent event i s
  | .serverEvent event i => serverEvent event i s
  | .clientPoll opcode =>
      if s.client.poller = [] ∧ s.client.base.cq.head? = some opcode then
        some { s with
          client.base := s.client.base.poll
          client.poller := if opcode = .recv then [.dispatch] else [] }
      else none
  | .serverPoll opcode =>
      if s.server.poller = [] ∧ s.server.base.cq.head? = some opcode then
        some { s with
          server.base := s.server.base.poll
          server.poller := if opcode = .recv then [.dispatch] else [] }
      else none
  | .client op =>
      if s.client.poller.head? = some op then
        op.exec connections { s with client.poller := s.client.poller.tail }
      else none
  | .serverLoop op =>
      if s.server.event_loop.head? = some op then
        some (op.exec mr total_edges { s with server.event_loop := s.server.event_loop.tail })
      else none
  | .server op =>
      if s.server.poller.head? = some op then
        some (op.exec mr total_edges { s with server.poller := s.server.poller.tail })
      else none
  | .kernel op =>
      match s.client.app_thread with
      | .running (op' :: rest) =>
          if op' = op then op.exec { s with client.app_thread := .running rest } else none
      | _ => none
  | .rdmaRead =>
      match s.client.app_thread with
      | .running (.compute :: _) => some s
      | _ => none
  | .kernelReturn =>
      if s.client.app_thread = .running [] then some { s with client.app_thread := .exited }
        else none
  | .commReturn i =>
      -- `should_stop` was seen, or a completion with an error
      if s.client.comm_threads[i]? = some .polling then
        some { s with client.comm_threads := s.client.comm_threads.set i .exited }
      else none
  | .transmitToClient m =>
      if 0 < s.server.base.sends ∧ s.server.base.tx_msg = m then
        some { s with server.base := s.server.base.transmit, toClient := s.toClient ++ [m] }
      else none
  | .transmitToServer m =>
      if 0 < s.client.base.sends ∧ s.client.base.tx_msg = m then
        some { s with client.base := s.client.base.transmit, toServer := s.toServer ++ [m] }
      else none
  | .deliverToClient m =>
      if 0 < s.client.base.receives ∧ s.toClient.head? = some m then
        some { s with client.base := s.client.base.deliver m, toClient := s.toClient.tail }
      else none
  | .deliverToServer m =>
      if 0 < s.server.base.receives ∧ s.toServer.head? = some m then
        some { s with server.base := s.server.base.deliver m, toServer := s.toServer.tail }
      else none

/-- A client with `connections` worker connections and the server, with all that has happened. -/
def session (connections : Nat) (mr : MemoryRegion) (total_edges : Nat) :
    TransitionSystem (State × List Action) :=
  .labelled (fun s => ∃ garbage peer_addr peer_rkey,
    s = start connections garbage peer_addr peer_rkey)
    (step connections mr total_edges) fun s => s.client.loop_exited = true

end Session

end FamGraph
