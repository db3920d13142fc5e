/-
Module: FamGraph.Proofs.Session
Layer: Proofs
Purpose: Safety of a session. The two sides pass one token: at any time one thread has something
  left to do, or one message is posted, under way, arrived or taken. `Stage` says where the token
  is, `Stage.Step` how it moves, and `At` what the whole state looks like meanwhile; every step of
  the model moves the token or leaves it (`At.step`). What can happen how often, and in which order,
  is read off the moves of the token.
Trusted boundary: none
Main exports: Stage, Stage.Step, At, At.step, Told, Safe, session_safe
-/
import FamGraph.Core.Session
import FamGraph.Foundation.Program

namespace FamGraph

namespace Session

/-! ### Where the token is -/

/-- The three messages of a session. -/
inductive Notice where
  | mr
  | ready
  | done
deriving DecidableEq

@[simp] def Notice.id : Notice → MessageId
  | .mr => .mr
  | .ready => .ready
  | .done => .done

/-- Where a session stands: which thread has what left to do, or where which message is. `taken`
    means that the poller has its completion and has not looked at it. -/
inductive Stage where
  | connecting
  | offering (rest : List ServerOp)
  | posted (n : Notice)
  | sent (n : Notice)
  | arrived (n : Notice)
  | taken (n : Notice)
  | preparing (rest : List ClientOp)
  | running (rest : List KernelOp)
  | answering (rest : List ServerOp)
  | closing (rest : List ClientOp)
  | closed

/-- What the threads have left to do, what is posted and what is under way. -/
structure Control where
  event_loop : List ServerOp := []
  server_poller : List ServerOp := []
  client_poller : List ClientOp := []
  kernel : List KernelOp := []
  server_sends : Nat := 0
  client_sends : Nat := 0
  toClient : Nat := 0
  toServer : Nat := 0
  client_recv : Nat := 0
  server_recv : Nat := 0

/-- Only the token is there. -/
@[simp] def Stage.control : Stage → Control
  | .connecting => {}
  | .offering rest => { event_loop := rest }
  | .posted .mr => { server_sends := 1 }
  | .posted .ready => { client_sends := 1 }
  | .posted .done => { server_sends := 1 }
  | .sent .mr => { toClient := 1 }
  | .sent .ready => { toServer := 1 }
  | .sent .done => { toClient := 1 }
  | .arrived .mr => { client_recv := 1 }
  | .arrived .ready => { server_recv := 1 }
  | .arrived .done => { client_recv := 1 }
  | .taken .mr => { client_poller := [.dispatch] }
  | .taken .ready => { server_poller := [.dispatch] }
  | .taken .done => { client_poller := [.dispatch] }
  | .preparing rest => { client_poller := rest }
  | .running rest => { kernel := rest }
  | .answering rest => { server_poller := rest }
  | .closing rest => { client_poller := rest }
  | .closed => {}

/-- A thread that has the token is somewhere in its program. -/
def Stage.InProgram (connections : Nat) : Stage → Prop
  | .offering rest => Program.Left serverOnConnection rest
  | .preparing rest => Program.Left (onCompletion connections .mr) rest
  | .running rest => Program.Left runKernel rest
  | .answering rest => Program.Left (serverOnCompletion .ready) rest
  | .closing rest => Program.Left (onCompletion connections .done) rest
  | _ => True

/-- The operations left of the kernel thread. -/
def AppThread.rest : AppThread → List KernelOp
  | .running rest => rest
  | _ => []

/-- The kernel thread is started at the end of `preparing` and joined at the beginning of
    `closing`. -/
def Stage.Thread : Stage → AppThread → Prop
  | .connecting, thread => thread = .notStarted
  | .offering _, thread => thread = .notStarted
  | .posted .mr, thread => thread = .notStarted
  | .sent .mr, thread => thread = .notStarted
  | .arrived .mr, thread => thread = .notStarted
  | .taken .mr, thread => thread = .notStarted
  | .preparing _, thread => thread = .notStarted
  | .running rest, thread => thread = .running rest
  | .closing rest, thread =>
      if .joinApp ∈ rest then thread = .running [] ∨ thread = .exited else thread = .joined
  | .closed, thread => thread = .joined
  | _, thread => thread = .running [] ∨ thread = .exited

/-- The one polling thread. -/
def Stage.Comm : Stage → List CommThread → Prop
  | .connecting, threads => threads = []
  | .offering _, threads => threads = []
  | .posted .mr, threads => threads = []
  | .sent .mr, threads => threads = []
  | .arrived .mr, threads => threads = []
  | .taken .mr, threads => threads = []
  | .preparing rest, threads => if .startComm ∈ rest then threads = [] else threads.length = 1
  | .closing rest, threads => if .joinComm ∈ rest then threads.length = 1 else threads = [.joined]
  | .closed, threads => threads = [.joined]
  | _, threads => threads.length = 1

/-- `should_stop` is set by `finish_application`. -/
def Stage.Stopped : Stage → Prop
  | .connecting => False
  | .offering _ => False
  | .posted .mr => False
  | .sent .mr => False
  | .arrived .mr => False
  | .taken .mr => False
  | .preparing _ => False
  | .running rest => .setShouldStop ∉ rest
  | _ => True

/-- What of `MSG_MR` the client has stored. -/
def Stage.Stored (m : Message) (peer_addr peer_rkey num_edges : Nat) : Stage → Prop
  | .connecting => True
  | .offering _ => True
  | .posted .mr => True
  | .sent .mr => True
  | .arrived .mr => True
  | .taken .mr => True
  | .preparing rest =>
      (.setPeerAddr ∉ rest → peer_addr = m.addr) ∧ (.setPeerRkey ∉ rest → peer_rkey = m.rkey) ∧
        (.setNumEdges ∉ rest → num_edges = m.total_edges)
  | _ => peer_addr = m.addr ∧ peer_rkey = m.rkey ∧ num_edges = m.total_edges

/-- The message buffers of both sides. -/
structure Buffers where
  server_tx : Message
  server_rx : Message
  client_tx : Message
  client_rx : Message

def State.buffers (s : State) : Buffers where
  server_tx := s.server.base.tx_msg
  server_rx := s.server.base.rx_msg
  client_tx := s.client.base.tx_msg
  client_rx := s.client.base.rx_msg

/-- What the message buffers and the messages under way hold. -/
def Stage.Holds (m : Message) (b : Buffers) (toClient toServer : List Message) : Stage → Prop
  | .offering rest =>
      (.setId .mr ∉ rest → b.server_tx.id = m.id) ∧
        (.setMr ∉ rest → b.server_tx.addr = m.addr ∧ b.server_tx.rkey = m.rkey ∧
          b.server_tx.total_edges = m.total_edges)
  | .posted .mr => b.server_tx = m
  | .posted .ready => b.client_tx.id = .ready
  | .posted .done => b.server_tx.id = .done
  | .sent .mr => ∀ x ∈ toClient, x = m
  | .sent .ready => ∀ x ∈ toServer, x.id = .ready
  | .sent .done => ∀ x ∈ toClient, x.id = .done
  | .arrived .mr => b.client_rx = m
  | .arrived .ready => b.server_rx.id = .ready
  | .arrived .done => b.client_rx.id = .done
  | .taken .mr => b.client_rx = m
  | .taken .ready => b.server_rx.id = .ready
  | .taken .done => b.client_rx.id = .done
  | .preparing rest => .postReceive ∈ rest → b.client_rx = m
  | .running rest => .setId .ready ∉ rest → b.client_tx.id = .ready
  | .answering rest => .setId .done ∉ rest → b.server_tx.id = .done
  | _ => True

/-- The receives posted by the client. -/
def Stage.clientReceives (latch0 : Bool) : Stage → Nat
  | .connecting => if latch0 then 1 else 0
  | .arrived .mr => 0
  | .taken .mr => 0
  | .preparing rest => if .postReceive ∈ rest then 0 else 1
  | .arrived .done => 0
  | .taken .done => 0
  | .closing _ => 0
  | .closed => 0
  | _ => 1

/-- The receives posted by the server. -/
def Stage.serverReceives (latch2 : Bool) : Stage → Nat
  | .connecting => if latch2 then 1 else 0
  | .arrived .ready => 0
  | .taken .ready => 0
  | .answering rest => if .postReceive ∈ rest then 0 else 1
  | _ => 1

/-- All connections are up from `awaitConnections` on. -/
def Stage.Established (conns : List Conn) : Stage → Prop
  | .connecting => True
  | .offering _ => True
  | .posted .mr => True
  | .sent .mr => True
  | .arrived .mr => True
  | .taken .mr => True
  | .preparing rest => .awaitConnections ∉ rest → ∀ conn ∈ conns, conn.client = .established
  | _ => ∀ conn ∈ conns, conn.client = .established

/-- The connections and the latches. As long as the server has not seen its first connection
    established, connection 0 is the only one under way. -/
structure Fabric (connections : Nat) (st : Stage) (conns : List Conn) (count : Nat)
    (latch0 latch2 latch3 strayed : Bool) : Prop where
  base_only : strayed = false
  length : conns.length = connections + 1
  counted : count = conns.countP fun conn => conn.client = .established
  latched : st ≠ .connecting → latch0 = true ∧ latch2 = true ∧ latch3 = true
  alone : st = .connecting → latch3 = false ∧
    ∃ conn, conns = conn :: List.replicate connections ⟨.created, .idle⟩ ∧
      conn.client ≠ .created ∧ conn.server ≠ .established ∧
      (latch0 = true ↔ conn.client ≠ .addrResolving) ∧ (latch2 = true ↔ conn.server ≠ .idle) ∧
      (conn.server ≠ .idle → conn.client ≠ .addrResolving)

/-- The state of a session at a stage; `m` is the server's `MSG_MR`. -/
structure At (connections : Nat) (m : Message) (st : Stage) (s : State) : Prop where
  event_loop : s.server.event_loop = st.control.event_loop
  server_poller : s.server.poller = st.control.server_poller
  client_poller : s.client.poller = st.control.client_poller
  kernel : s.client.app_thread.rest = st.control.kernel
  server_sends : s.server.base.sends = st.control.server_sends
  client_sends : s.client.base.sends = st.control.client_sends
  toClient : s.toClient.length = st.control.toClient
  toServer : s.toServer.length = st.control.toServer
  client_recv : s.client.base.cq.count .recv = st.control.client_recv
  server_recv : s.server.base.cq.count .recv = st.control.server_recv
  program : st.InProgram connections
  thread : st.Thread s.client.app_thread
  comm : st.Comm s.client.comm_threads
  stopped : st.Stopped → ∃ app, s.client.app = some app ∧ app.should_stop = true
  stored : st.Stored m s.client.peer_addr s.client.peer_rkey s.client.num_edges
  holds : st.Holds m s.buffers s.toClient s.toServer
  client_receives : s.client.base.receives = st.clientReceives s.client.latch0
  server_receives : s.server.base.receives = st.serverReceives s.server.latch2
  established : st.Established s.conns
  fabric : Fabric connections st s.conns s.client.connections s.client.latch0 s.server.latch2
    s.server.latch3 s.strayed

variable {connections : Nat} {m : Message} {st : Stage} {s t : State}

theorem at_start (garbage : Endpoint × Endpoint) (peer_addr peer_rkey : Nat) :
    At connections m .connecting (start connections garbage peer_addr peer_rkey) where
  event_loop := rfl
  server_poller := rfl
  client_poller := rfl
  kernel := rfl
  server_sends := rfl
  client_sends := rfl
  toClient := rfl
  toServer := rfl
  client_recv := rfl
  server_recv := rfl
  program := trivial
  thread := rfl
  comm := rfl
  stopped h := h.elim
  stored := trivial
  holds := trivial
  client_receives := rfl
  server_receives := rfl
  established := trivial
  fabric :=
    { base_only := rfl
      length := by simp [start]
      counted := by simp [start, List.countP_replicate]
      latched := fun h => absurd rfl h
      alone := fun _ => ⟨rfl, ⟨.addrResolving, .idle⟩, rfl, by simp, by simp, by simp [start],
        by simp [start], by simp⟩ }

/-! ### How the token moves -/

/-- A step of the session that moves the token, or leaves it where it is. -/
inductive Stage.Step (connections : Nat) : Stage → Action → Stage → Prop where
  | connect :
      Step connections .connecting (.serverEvent .established 0) (.offering serverOnConnection)
  | offer {op rest} : rest ≠ [] →
      Step connections (.offering (op :: rest)) (.serverLoop op) (.offering rest)
  | offered : Step connections (.offering [.sendMessage]) (.serverLoop .sendMessage) (.posted .mr)
  | transmitToClient {n x} : n ≠ .ready → x.id = n.id →
      Step connections (.posted n) (.transmitToClient x) (.sent n)
  | transmitToServer {x} : x.id = .ready →
      Step connections (.posted .ready) (.transmitToServer x) (.sent .ready)
  | deliverToClient {n x} :
      n ≠ .ready → Step connections (.sent n) (.deliverToClient x) (.arrived n)
  | deliverToServer {x} : x.id = .ready →
      Step connections (.sent .ready) (.deliverToServer x) (.arrived .ready)
  | clientPoll {n} : n ≠ .ready → Step connections (.arrived n) (.clientPoll .recv) (.taken n)
  | serverPoll : Step connections (.arrived .ready) (.serverPoll .recv) (.taken .ready)
  | clientDispatch : Step connections (.taken .mr) (.client .dispatch)
      (.preparing (onCompletion connections .mr))
  | prepare {op rest} : rest ≠ [] →
      Step connections (.preparing (op :: rest)) (.client op) (.preparing rest)
  | prepared :
      Step connections (.preparing [.startKernel]) (.client .startKernel) (.running runKernel)
  | read {rest} :
      Step connections (.running (.compute :: rest)) .rdmaRead (.running (.compute :: rest))
  | run {op rest} :
      rest ≠ [] → Step connections (.running (op :: rest)) (.kernel op) (.running rest)
  | ran : Step connections (.running [.sendMessage]) (.kernel .sendMessage) (.posted .ready)
  | serverDispatch : Step connections (.taken .ready) (.server .dispatch)
      (.answering (serverOnCompletion .ready))
  | answer {op rest} : rest ≠ [] →
      Step connections (.answering (op :: rest)) (.server op) (.answering rest)
  | answered : Step connections (.answering [.sendMessage]) (.server .sendMessage) (.posted .done)
  | clientDispatchDone : Step connections (.taken .done) (.client .dispatch)
      (.closing (onCompletion connections .done))
  | close {op rest} :
      rest ≠ [] → Step connections (.closing (op :: rest)) (.client op) (.closing rest)
  | closed : Step connections (.closing [.disconnect]) (.client .disconnect) .closed
  | clientEvent {here event i} : Step connections here (.clientEvent event i) here
  | serverEvent {here event i} : Step connections here (.serverEvent event i) here
  | clientSent {here} : Step connections here (.clientPoll .send) here
  | serverSent {here} : Step connections here (.serverPoll .send) here
  | kernelReturn {here} : Step connections here .kernelReturn here
  | commReturn {here i} : Step connections here (.commReturn i) here

/-! ### Who has the token -/

/-- The stages one by one, the notices told apart. -/
@[elab_as_elim]
theorem Stage.shapes {motive : Stage → Prop} (st : Stage) (connecting : motive .connecting)
    (offering : ∀ rest, motive (.offering rest)) (posted_mr : motive (.posted .mr))
    (posted_ready : motive (.posted .ready)) (posted_done : motive (.posted .done))
    (sent_mr : motive (.sent .mr)) (sent_ready : motive (.sent .ready))
    (sent_done : motive (.sent .done)) (arrived_mr : motive (.arrived .mr))
    (arrived_ready : motive (.arrived .ready)) (arrived_done : motive (.arrived .done))
    (taken_mr : motive (.taken .mr)) (taken_ready : motive (.taken .ready))
    (taken_done : motive (.taken .done)) (preparing : ∀ rest, motive (.preparing rest))
    (running : ∀ rest, motive (.running rest)) (answering : ∀ rest, motive (.answering rest))
    (closing : ∀ rest, motive (.closing rest)) (closed : motive .closed) : motive st := by
  rcases st with _ | _ | ⟨_ | _ | _⟩ | ⟨_ | _ | _⟩ | ⟨_ | _ | _⟩ | ⟨_ | _ | _⟩ | _ | _ | _ | _ |
    _ <;> solve_by_elim

theorem Stage.of_event_loop {op : ServerOp} {rest : List ServerOp}
    (h : st.control.event_loop = op :: rest) : st = .offering (op :: rest) := by
  cases st using Stage.shapes <;> simp_all

theorem Stage.of_server_poller {op : ServerOp} {rest : List ServerOp}
    (h : st.control.server_poller = op :: rest) :
    st = .taken .ready ∧ op = .dispatch ∧ rest = [] ∨ st = .answering (op :: rest) := by
  cases st using Stage.shapes <;> simp_all

theorem Stage.of_client_poller {op : ClientOp} {rest : List ClientOp}
    (h : st.control.client_poller = op :: rest) :
    (st = .taken .mr ∨ st = .taken .done) ∧ op = .dispatch ∧ rest = [] ∨
      st = .preparing (op :: rest) ∨ st = .closing (op :: rest) := by
  cases st using Stage.shapes <;> simp_all

theorem Stage.of_kernel {op : KernelOp} {rest : List KernelOp}
    (h : st.control.kernel = op :: rest) :
    st = .running (op :: rest) := by
  cases st using Stage.shapes <;> simp_all

theorem Stage.of_server_sends (h : 0 < st.control.server_sends) :
    st = .posted .mr ∨ st = .posted .done := by
  cases st using Stage.shapes <;> simp_all

theorem Stage.of_client_sends (h : 0 < st.control.client_sends) : st = .posted .ready := by
  cases st using Stage.shapes <;> simp_all

theorem Stage.of_toClient (h : 0 < st.control.toClient) : st = .sent .mr ∨ st = .sent .done := by
  cases st using Stage.shapes <;> simp_all

theorem Stage.of_toServer (h : 0 < st.control.toServer) : st = .sent .ready := by
  cases st using Stage.shapes <;> simp_all

theorem Stage.of_client_recv (h : 0 < st.control.client_recv) :
    st = .arrived .mr ∨ st = .arrived .done := by
  cases st using Stage.shapes <;> simp_all

theorem Stage.of_server_recv (h : 0 < st.control.server_recv) : st = .arrived .ready := by
  cases st using Stage.shapes <;> simp_all

/-- Once the server has seen the first connection, the stage does not matter to the connections. -/
theorem Fabric.move {st' : Stage} {conns : List Conn} {count : Nat}
    {latch0 latch2 latch3 strayed : Bool}
    (h : Fabric connections st conns count latch0 latch2 latch3 strayed) (hst : st ≠ .connecting)
    (hst' : st' ≠ .connecting) :
    Fabric connections st' conns count latch0 latch2 latch3 strayed :=
  { h with
    latched := fun _ => h.latched hst
    alone := fun heq => absurd heq hst' }

/-- Unless the client sees it established, a connection that moves on leaves their number. -/
theorem countP_set_of_not {conns : List Conn} {i : Nat} {conn : Conn} (conn' : Conn)
    (hconn : conns[i]? = some conn)
    (h : conn'.client = .established ↔ conn.client = .established) :
    (conns.set i conn').countP (fun conn => conn.client = .established) =
      conns.countP fun conn => conn.client = .established := by
  obtain ⟨hi, rfl⟩ := List.getElem?_eq_some_iff.1 hconn
  have hpos : conns[i].client = .established →
      0 < conns.countP fun conn => conn.client = .established :=
    fun hup => List.countP_pos_iff.2 ⟨conns[i], List.getElem_mem hi, decide_eq_true hup⟩
  rw [List.countP_set hi]
  by_cases hup : conns[i].client = .established
  · have hone := hpos hup
    simp only [hup, h.2 hup, decide_true, if_true]
    omega
  · simp [hup, mt h.1 hup]

/-- The client sees a connection established. -/
theorem countP_set_established {conns : List Conn} {i : Nat} {conn : Conn} (conn' : Conn)
    (hconn : conns[i]? = some conn) (h : conn.client ≠ .established)
    (h' : conn'.client = .established) :
    (conns.set i conn').countP (fun conn => conn.client = .established) =
      conns.countP (fun conn => conn.client = .established) + 1 := by
  obtain ⟨hi, rfl⟩ := List.getElem?_eq_some_iff.1 hconn
  rw [List.countP_set hi]
  simp [h, h']

/-- Connections that stay established. -/
theorem Stage.Established.imp {conns conns' : List Conn} (h : st.Established conns)
    (himp : (∀ conn ∈ conns, conn.client = .established) →
      ∀ conn ∈ conns', conn.client = .established) :
    st.Established conns' := by
  cases st using Stage.shapes with
  | preparing rest => exact fun hnot => himp (h hnot)
  | _ => first | exact trivial | exact himp h

/-- One connection moves on. -/
theorem Fabric.set {st' : Stage} {conns : List Conn} {count count' i : Nat} {conn' : Conn}
    {latch0 latch2 latch3 strayed : Bool}
    (h : Fabric connections st conns count latch0 latch2 latch3 strayed) (hst : st ≠ .connecting)
    (hst' : st' ≠ .connecting)
    (hcount : count' = (conns.set i conn').countP fun conn => conn.client = .established) :
    Fabric connections st' (conns.set i conn') count' latch0 latch2 latch3 strayed :=
  { h.move hst hst' with
    length := List.length_set.trans h.length
    counted := hcount
    alone := fun heq => absurd heq hst' }

variable {mr : MemoryRegion} {total_edges : Nat} {x : Message}

/-! ### Inversions for the threads

What a thread does is the first thing it has left.
-/

theorem step_serverLoop_inv {op : ServerOp}
    (hstep : step connections mr total_edges s (.serverLoop op) = some t) :
    ∃ rest, s.server.event_loop = op :: rest ∧
      t = op.exec mr total_edges { s with server.event_loop := rest } := by
  obtain ⟨hhead, hstep⟩ := Option.ite_none_right_eq_some.1 hstep
  obtain ⟨rest, hloop⟩ := List.head?_eq_some_iff.1 hhead
  rw [hloop] at hstep
  exact ⟨rest, hloop, (Option.some.inj hstep).symm⟩

theorem step_server_inv {op : ServerOp}
    (hstep : step connections mr total_edges s (.server op) = some t) :
    ∃ rest, s.server.poller = op :: rest ∧
      t = op.exec mr total_edges { s with server.poller := rest } := by
  obtain ⟨hhead, hstep⟩ := Option.ite_none_right_eq_some.1 hstep
  obtain ⟨rest, hpoller⟩ := List.head?_eq_some_iff.1 hhead
  rw [hpoller] at hstep
  exact ⟨rest, hpoller, (Option.some.inj hstep).symm⟩

theorem step_client_inv {op : ClientOp}
    (hstep : step connections mr total_edges s (.client op) = some t) :
    ∃ rest, s.client.poller = op :: rest ∧
      op.exec connections { s with client.poller := rest } = some t := by
  obtain ⟨hhead, hstep⟩ := Option.ite_none_right_eq_some.1 hstep
  obtain ⟨rest, hpoller⟩ := List.head?_eq_some_iff.1 hhead
  rw [hpoller] at hstep
  exact ⟨rest, hpoller, hstep⟩

/-! ### Messages -/

/-- A message leaves the server's buffer. -/
theorem At.transmitToClient (h : At connections m st s) (hm : m.id = .mr)
    (hstep : step connections mr total_edges s (.transmitToClient x) = some t) :
    ∃ st', Stage.Step connections st (.transmitToClient x) st' ∧ At connections m st' t := by
  obtain ⟨⟨hsends, rfl⟩, hstep⟩ := Option.ite_none_right_eq_some.1 hstep
  obtain rfl := Option.some.inj hstep
  have hrecv :
      (s.server.base.cq ++ [WcOpcode.send]).count .recv = s.server.base.cq.count .recv := by
    simp
  have hwire : s.toClient = [] → ∀ y ∈ s.toClient ++ [s.server.base.tx_msg],
      y = s.server.base.tx_msg := by
    intro hempty y hy
    rw [hempty] at hy
    exact List.mem_singleton.1 hy
  rw [h.server_sends] at hsends
  rcases Stage.of_server_sends hsends with rfl | rfl
  · have hone := hwire (List.eq_nil_of_length_eq_zero h.toClient)
    have hheld : s.server.base.tx_msg = m := h.holds
    exact ⟨.sent .mr, .transmitToClient nofun (by rw [hheld]; exact hm), { h with
      server_sends := congrArg (· - 1) h.server_sends
      toClient := by simp [h.toClient, Stage.control]
      server_recv := hrecv.trans h.server_recv
      holds := fun y hy => (hone y hy).trans hheld
      fabric := h.fabric.move nofun nofun }⟩
  · have hone := hwire (List.eq_nil_of_length_eq_zero h.toClient)
    have hheld : s.server.base.tx_msg.id = .done := h.holds
    exact ⟨.sent .done, .transmitToClient nofun hheld, { h with
      server_sends := congrArg (· - 1) h.server_sends
      toClient := by simp [h.toClient, Stage.control]
      server_recv := hrecv.trans h.server_recv
      holds := fun y hy => (congrArg Message.id (hone y hy)).trans hheld
      fabric := h.fabric.move nofun nofun }⟩

/-- A message leaves the client's buffer. -/
theorem At.transmitToServer (h : At connections m st s)
    (hstep : step connections mr total_edges s (.transmitToServer x) = some t) :
    ∃ st', Stage.Step connections st (.transmitToServer x) st' ∧ At connections m st' t := by
  obtain ⟨⟨hsends, rfl⟩, hstep⟩ := Option.ite_none_right_eq_some.1 hstep
  obtain rfl := Option.some.inj hstep
  have hrecv :
      (s.client.base.cq ++ [WcOpcode.send]).count .recv = s.client.base.cq.count .recv := by
    simp
  rw [h.client_sends] at hsends
  obtain rfl := Stage.of_client_sends hsends
  have hempty : s.toServer = [] := List.eq_nil_of_length_eq_zero h.toServer
  have hheld : s.client.base.tx_msg.id = .ready := h.holds
  refine ⟨.sent .ready, .transmitToServer hheld, { h with
    client_sends := congrArg (· - 1) h.client_sends
    toServer := by simp [h.toServer, Stage.control]
    client_recv := hrecv.trans h.client_recv
    holds := fun y hy => ?_
    fabric := h.fabric.move nofun nofun }⟩
  rw [hempty] at hy
  rw [List.mem_singleton.1 hy]
  exact hheld

/-- A message arrives in the client's buffer. -/
theorem At.deliverToClient (h : At connections m st s)
    (hstep : step connections mr total_edges s (.deliverToClient x) = some t) :
    ∃ st', Stage.Step connections st (.deliverToClient x) st' ∧ At connections m st' t := by
  obtain ⟨⟨-, hhead⟩, hstep⟩ := Option.ite_none_right_eq_some.1 hstep
  obtain rfl := Option.some.inj hstep
  have hx : x ∈ s.toClient := List.mem_of_mem_head? hhead
  have hrecv : (s.client.base.cq ++ [WcOpcode.recv]).count .recv =
      s.client.base.cq.count .recv + 1 := by simp
  have hone := List.length_pos_of_mem hx
  rw [h.toClient] at hone
  rcases Stage.of_toClient hone with rfl | rfl
  · exact ⟨.arrived .mr, .deliverToClient nofun, { h with
      toClient := by rw [List.length_tail, h.toClient]; rfl
      client_recv := hrecv.trans (congrArg (· + 1) h.client_recv)
      holds := h.holds x hx
      client_receives := congrArg (· - 1) h.client_receives
      fabric := h.fabric.move nofun nofun }⟩
  · exact ⟨.arrived .done, .deliverToClient nofun, { h with
      toClient := by rw [List.length_tail, h.toClient]; rfl
      client_recv := hrecv.trans (congrArg (· + 1) h.client_recv)
      holds := h.holds x hx
      client_receives := congrArg (· - 1) h.client_receives
      fabric := h.fabric.move nofun nofun }⟩

/-- A message arrives in the server's buffer. -/
theorem At.deliverToServer (h : At connections m st s)
    (hstep : step connections mr total_edges s (.deliverToServer x) = some t) :
    ∃ st', Stage.Step connections st (.deliverToServer x) st' ∧ At connections m st' t := by
  obtain ⟨⟨-, hhead⟩, hstep⟩ := Option.ite_none_right_eq_some.1 hstep
  obtain rfl := Option.some.inj hstep
  have hx : x ∈ s.toServer := List.mem_of_mem_head? hhead
  have hrecv : (s.server.base.cq ++ [WcOpcode.recv]).count .recv =
      s.server.base.cq.count .recv + 1 := by simp
  have hone := List.length_pos_of_mem hx
  rw [h.toServer] at hone
  obtain rfl := Stage.of_toServer hone
  exact ⟨.arrived .ready, .deliverToServer (h.holds x hx), { h with
    toServer := by rw [List.length_tail, h.toServer]; rfl
    server_recv := hrecv.trans (congrArg (· + 1) h.server_recv)
    holds := h.holds x hx
    server_receives := congrArg (· - 1) h.server_receives
    fabric := h.fabric.move nofun nofun }⟩

/-! ### Completions -/

/-- The client's poller takes a completion. -/
theorem At.clientPoll {opcode : WcOpcode} (h : At connections m st s)
    (hstep : step connections mr total_edges s (.clientPoll opcode) = some t) :
    ∃ st', Stage.Step connections st (.clientPoll opcode) st' ∧ At connections m st' t := by
  obtain ⟨⟨hidle, hhead⟩, hstep⟩ := Option.ite_none_right_eq_some.1 hstep
  obtain rfl := Option.some.inj hstep
  obtain ⟨rest, hcq⟩ := List.head?_eq_some_iff.1 hhead
  have hrecv := h.client_recv
  rw [hcq, List.count_cons] at hrecv
  cases opcode with
  | send =>
      refine ⟨st, .clientSent, { h with
        client_poller := hidle.symm.trans h.client_poller
        client_recv := ?_ }⟩
      simpa [Endpoint.poll, hcq] using hrecv
  | recv =>
      have hone : 0 < st.control.client_recv := by
        rw [← hrecv]
        simp
      rcases Stage.of_client_recv hone with rfl | rfl
      · exact ⟨.taken .mr, .clientPoll nofun, { h with
          client_poller := rfl
          client_recv := by simpa [Endpoint.poll, hcq, Stage.control] using hrecv
          fabric := h.fabric.move nofun nofun }⟩
      · exact ⟨.taken .done, .clientPoll nofun, { h with
          client_poller := rfl
          client_recv := by simpa [Endpoint.poll, hcq, Stage.control] using hrecv
          fabric := h.fabric.move nofun nofun }⟩

/-- The server's poller takes a completion. -/
theorem At.serverPoll {opcode : WcOpcode} (h : At connections m st s)
    (hstep : step connections mr total_edges s (.serverPoll opcode) = some t) :
    ∃ st', Stage.Step connections st (.serverPoll opcode) st' ∧ At connections m st' t := by
  obtain ⟨⟨hidle, hhead⟩, hstep⟩ := Option.ite_none_right_eq_some.1 hstep
  obtain rfl := Option.some.inj hstep
  obtain ⟨rest, hcq⟩ := List.head?_eq_some_iff.1 hhead
  have hrecv := h.server_recv
  rw [hcq, List.count_cons] at hrecv
  cases opcode with
  | send =>
      refine ⟨st, .serverSent, { h with
        server_poller := hidle.symm.trans h.server_poller
        server_recv := ?_ }⟩
      simpa [Endpoint.poll, hcq] using hrecv
  | recv =>
      have hone : 0 < st.control.server_recv := by
        rw [← hrecv]
        simp
      obtain rfl := Stage.of_server_recv hone
      exact ⟨.taken .ready, .serverPoll, { h with
        server_poller := rfl
        server_recv := by simpa [Endpoint.poll, hcq, Stage.control] using hrecv
        fabric := h.fabric.move nofun nofun }⟩

/-! ### The server's threads -/

/-- The server's event loop goes on in `on_connection`. -/
theorem At.serverLoop {op : ServerOp} (h : At connections m st s)
    (hm : m = ⟨.mr, mr.addr, mr.rkey, total_edges⟩)
    (hstep : step connections mr total_edges s (.serverLoop op) = some t) :
    ∃ st', Stage.Step connections st (.serverLoop op) st' ∧ At connections m st' t := by
  obtain ⟨rest, hloop, rfl⟩ := step_serverLoop_inv hstep
  obtain rfl := Stage.of_event_loop (h.event_loop.symm.trans hloop)
  have hleft : Program.Left serverOnConnection (op :: rest) := h.program
  obtain ⟨hid, hdata⟩ := h.holds
  have hop := hleft.suffix.mem List.mem_cons_self
  simp only [serverOnConnection, List.mem_cons, List.not_mem_nil, or_false] at hop
  rcases hop with rfl | rfl | rfl
  · have hrest := hleft.tail_of_ne rfl nofun
    refine ⟨.offering rest, .offer hrest.ne_nil, { h with
      event_loop := rfl
      program := hrest
      holds := ⟨fun _ => by rw [hm]; rfl, fun hnot => hdata ?_⟩
      fabric := h.fabric.move nofun nofun }⟩
    simpa using hnot
  · have hrest := hleft.tail_of_ne rfl nofun
    refine ⟨.offering rest, .offer hrest.ne_nil, { h with
      event_loop := rfl
      program := hrest
      holds := ⟨fun hnot => hid ?_, fun _ => by rw [hm]; exact ⟨rfl, rfl, rfl⟩⟩
      fabric := h.fabric.move nofun nofun }⟩
    simpa using hnot
  · obtain rfl := hleft.eq_nil_of_last (by decide) rfl
    have hheld : s.server.base.tx_msg = m := by
      obtain ⟨haddr, hrkey, hedges⟩ := hdata (by decide)
      have hid' := hid (by decide)
      cases m
      simp only at hid' haddr hrkey hedges
      rw [← hid', ← haddr, ← hrkey, ← hedges]
      rfl
    exact ⟨.posted .mr, .offered, { h with
      event_loop := rfl
      program := trivial
      server_sends := congrArg (· + 1) h.server_sends
      holds := hheld
      fabric := h.fabric.move nofun nofun }⟩

/-- The server's poller goes on in `on_completion`. -/
theorem At.server {op : ServerOp} (h : At connections m st s)
    (hstep : step connections mr total_edges s (.server op) = some t) :
    ∃ st', Stage.Step connections st (.server op) st' ∧ At connections m st' t := by
  obtain ⟨rest, hpoller, rfl⟩ := step_server_inv hstep
  rcases Stage.of_server_poller (h.server_poller.symm.trans hpoller) with ⟨rfl, rfl, rfl⟩ | rfl
  · have hready : s.server.base.rx_msg.id = .ready := h.holds
    exact ⟨.answering (serverOnCompletion .ready), .serverDispatch, { h with
      server_poller := congrArg serverOnCompletion hready
      program := .start (by decide)
      holds := fun hnot => absurd (by decide) hnot
      fabric := h.fabric.move nofun nofun }⟩
  · have hleft : Program.Left (serverOnCompletion .ready) (op :: rest) := h.program
    have hid : .setId .done ∉ op :: rest → s.server.base.tx_msg.id = .done := h.holds
    have hreceives : s.server.base.receives = if .postReceive ∈ op :: rest then 0 else 1 :=
      h.server_receives
    have hop := hleft.suffix.mem List.mem_cons_self
    simp only [serverOnCompletion, List.mem_cons, List.not_mem_nil, or_false] at hop
    rcases hop with rfl | rfl | rfl
    · have hrest := hleft.tail_of_ne rfl nofun
      have hnot := hleft.not_mem (by decide)
      refine ⟨.answering rest, .answer hrest.ne_nil, { h with
        server_poller := rfl
        program := hrest
        holds := fun hnot => hid (by simpa using hnot)
        server_receives := ?_
        fabric := h.fabric.move nofun nofun }⟩
      simp [ServerOp.exec, Endpoint.postReceive, hreceives, Stage.serverReceives, hnot]
    · have hrest := hleft.tail_of_ne rfl nofun
      have hsame : s.server.base.receives = if .postReceive ∈ rest then 0 else 1 := by
        simpa using hreceives
      exact ⟨.answering rest, .answer hrest.ne_nil, { h with
        server_poller := rfl
        program := hrest
        holds := fun _ => rfl
        server_receives := hsame
        fabric := h.fabric.move nofun nofun }⟩
    · obtain rfl := hleft.eq_nil_of_last (by decide) rfl
      exact ⟨.posted .done, .answered, { h with
        server_poller := rfl
        program := trivial
        server_sends := congrArg (· + 1) h.server_sends
        holds := hid (by decide)
        server_receives := hreceives
        fabric := h.fabric.move nofun nofun }⟩

/-! ### The client's threads -/

/-- The kernel thread goes on. -/
theorem At.kernelOp {op : KernelOp} (h : At connections m st s)
    (hstep : step connections mr total_edges s (.kernel op) = some t) :
    ∃ st', Stage.Step connections st (.kernel op) st' ∧ At connections m st' t := by
  simp only [step] at hstep
  split at hstep
  · rename_i op' rest hthread
    split at hstep
    · rename_i hsame
      subst hsame
      obtain rfl := Stage.of_kernel (h.kernel.symm.trans (congrArg AppThread.rest hthread))
      have hleft : Program.Left runKernel (op' :: rest) := h.program
      have hid : .setId .ready ∉ op' :: rest → s.client.base.tx_msg.id = .ready := h.holds
      have hstopped : .setShouldStop ∉ op' :: rest →
          ∃ app, s.client.app = some app ∧ app.should_stop = true := h.stopped
      have hop := hleft.suffix.mem List.mem_cons_self
      simp only [runKernel, List.mem_cons, List.not_mem_nil, or_false] at hop
      rcases hop with rfl | rfl | rfl | rfl
      · obtain rfl := Option.some.inj hstep
        have hrest := hleft.tail_of_ne rfl nofun
        exact ⟨.running rest, .run hrest.ne_nil, { h with
          kernel := rfl
          program := hrest
          thread := rfl
          stopped := fun (hnot : KernelOp.setShouldStop ∉ rest) => hstopped (by simpa using hnot)
          holds := fun hnot => hid (by simpa using hnot)
          fabric := h.fabric.move nofun nofun }⟩
      · have hrest := hleft.tail_of_ne rfl nofun
        simp only [KernelOp.exec] at hstep
        split at hstep
        · obtain rfl := Option.some.inj hstep
          exact ⟨.running rest, .run hrest.ne_nil, { h with
            kernel := rfl
            program := hrest
            thread := rfl
            stopped := fun _ => ⟨_, rfl, rfl⟩
            holds := fun hnot => hid (by simpa using hnot)
            fabric := h.fabric.move nofun nofun }⟩
        · cases hstep
      · obtain rfl := Option.some.inj hstep
        have hrest := hleft.tail_of_ne rfl nofun
        exact ⟨.running rest, .run hrest.ne_nil, { h with
          kernel := rfl
          program := hrest
          thread := rfl
          stopped := fun (hnot : KernelOp.setShouldStop ∉ rest) => hstopped (by simpa using hnot)
          holds := fun _ => rfl
          fabric := h.fabric.move nofun nofun }⟩
      · obtain rfl := Option.some.inj hstep
        obtain rfl := hleft.eq_nil_of_last (by decide) rfl
        exact ⟨.posted .ready, .ran, { h with
          kernel := rfl
          program := trivial
          thread := Or.inl rfl
          client_sends := congrArg (· + 1) h.client_sends
          stopped := fun _ => hstopped (by decide)
          holds := hid (by decide)
          fabric := h.fabric.move nofun nofun }⟩
    · cases hstep
  · cases hstep

/-- The kernel thread ends. -/
theorem At.kernelReturn (h : At connections m st s)
    (hstep : step connections mr total_edges s .kernelReturn = some t) : At connections m st t := by
  obtain ⟨hthread, hstep⟩ := Option.ite_none_right_eq_some.1 hstep
  obtain rfl := Option.some.inj hstep
  have hkernel := h.kernel
  rw [hthread] at hkernel
  refine { h with kernel := hkernel, thread := ?_ }
  have hbefore := h.thread
  rw [hthread] at hbefore
  have hprogram := h.program
  cases st using Stage.shapes with
  | running rest => exact absurd (AppThread.running.inj hbefore).symm hprogram.ne_nil
  | closing rest =>
      simp only [Stage.Thread] at hbefore ⊢
      split
      · exact Or.inr trivial
      · rename_i hjoined
        rw [if_neg hjoined] at hbefore
        cases hbefore
  | _ => first | exact Or.inr rfl | cases hbefore

/-- A polling thread ends. -/
theorem At.commReturn {i : Nat} (h : At connections m st s)
    (hstep : step connections mr total_edges s (.commReturn i) = some t) :
    At connections m st t := by
  obtain ⟨hpolling, hstep⟩ := Option.ite_none_right_eq_some.1 hstep
  obtain rfl := Option.some.inj hstep
  refine { h with comm := ?_ }
  have hbefore := h.comm
  have hlength : (s.client.comm_threads.set i .exited).length = s.client.comm_threads.length :=
    List.length_set
  have hnonempty : s.client.comm_threads ≠ [] := by
    intro hnil
    rw [hnil] at hpolling
    cases hpolling
  have hnotJoined : s.client.comm_threads ≠ [.joined] := by
    intro hjoined
    rw [hjoined] at hpolling
    cases i <;> cases hpolling
  cases st using Stage.shapes with
  | preparing rest =>
      simp only [Stage.Comm] at hbefore ⊢
      split at hbefore
      · exact absurd hbefore hnonempty
      · rename_i hstarted
        rw [if_neg hstarted, hlength]
        exact hbefore
  | closing rest =>
      simp only [Stage.Comm] at hbefore ⊢
      split at hbefore
      · rename_i hleft
        rw [if_pos hleft, hlength]
        exact hbefore
      · exact absurd hbefore hnotJoined
  | _ =>
      first
      | exact absurd hbefore hnonempty
      | exact absurd hbefore hnotJoined
      | exact hlength.trans hbefore

/-- The order of the branch for `MSG_MR`: what reads the buffer comes before it is posted again. -/
theorem left_postReceive {rest : List ClientOp} {op : ClientOp}
    (h : Program.Left (onCompletion connections .mr) rest) (hmem : op ∈ rest)
    (hop : op = .setPeerAddr ∨ op = .setPeerRkey ∨ op = .setNumEdges) : .postReceive ∈ rest := by
  have hsplit : onCompletion connections .mr =
      [ClientOp.setPeerAddr, ClientOp.setPeerRkey, ClientOp.setNumEdges] ++
        ClientOp.postReceive :: ClientOp.createApp ::
          ((List.range connections).map ClientOp.resolveAddr ++
            [ClientOp.awaitConnections, ClientOp.startComm, ClientOp.startKernel]) := rfl
  rw [hsplit] at h
  refine h.mem_of_earlier ?_ hmem
  rcases hop with rfl | rfl | rfl <;> simp

theorem nodup_onCompletion (id : MessageId) : (onCompletion connections id).Nodup := by
  cases id with
  | invalid => exact List.nodup_nil
  | mr =>
      have hresolve : ((List.range connections).map ClientOp.resolveAddr).Nodup :=
        List.Nodup.map (fun i j hij => ClientOp.resolveAddr.inj hij) List.nodup_range
      have hrest : ((List.range connections).map ClientOp.resolveAddr ++
          [ClientOp.awaitConnections, .startComm, .startKernel]).Nodup := by
        refine List.Nodup.append hresolve (by decide) ?_
        simp [List.disjoint_left]
      refine List.Nodup.append (by decide) hrest ?_
      simp [List.disjoint_left]
  | ready => exact List.nodup_singleton _
  | done =>
      have hdone : [ClientOp.joinApp, .joinComm, .disconnect].Nodup := by decide
      exact hdone

theorem getLast?_onCompletion_mr : (onCompletion connections .mr).getLast? = some .startKernel := by
  have hsplit : onCompletion connections .mr =
      ([ClientOp.setPeerAddr, ClientOp.setPeerRkey, ClientOp.setNumEdges, ClientOp.postReceive,
        ClientOp.createApp] ++ ((List.range connections).map ClientOp.resolveAddr ++
          [ClientOp.awaitConnections, ClientOp.startComm])) ++ [ClientOp.startKernel] := by
    simp [onCompletion]
  rw [hsplit, List.getLast?_concat]

/-- The client's poller finds out which message it has. -/
theorem At.clientDispatch (h : At connections m st s) (hm : m.id = .mr)
    (hst : st = .taken .mr ∨ st = .taken .done) :
    ∃ st', Stage.Step connections st (.client .dispatch) st' ∧ At connections m st'
      { s with client.poller := onCompletion connections s.client.base.rx_msg.id } := by
  rcases hst with rfl | rfl
  · have hid : s.client.base.rx_msg.id = .mr := (congrArg Message.id h.holds).trans hm
    have hmem : ∀ op ∈ [ClientOp.setPeerAddr, .setPeerRkey, .setNumEdges, .postReceive,
        .awaitConnections, .startComm], op ∈ onCompletion connections .mr := by
      simp [onCompletion]
    refine ⟨.preparing (onCompletion connections .mr), .clientDispatch, { h with
      client_poller := congrArg (onCompletion connections) hid
      program := .start (List.ne_nil_of_mem (hmem .setPeerAddr (by decide)))
      comm := ?_
      stored := ⟨fun hnot => absurd (hmem _ (by decide)) hnot,
        fun hnot => absurd (hmem _ (by decide)) hnot, fun hnot => absurd (hmem _ (by decide)) hnot⟩
      holds := fun _ => h.holds
      client_receives := ?_
      established := fun hnot => absurd (hmem _ (by decide)) hnot
      fabric := h.fabric.move nofun nofun }⟩
    · rw [Stage.Comm, if_pos (hmem _ (by decide))]
      exact h.comm
    · rw [Stage.clientReceives, if_pos (hmem _ (by decide))]
      exact h.client_receives
  · have hid : s.client.base.rx_msg.id = .done := h.holds
    exact ⟨.closing (onCompletion connections .done), .clientDispatchDone, { h with
      client_poller := congrArg (onCompletion connections) hid
      program := .start nofun
      thread := h.thread
      comm := h.comm
      holds := trivial
      fabric := h.fabric.move nofun nofun }⟩

/-! What an operation of the branch for `MSG_MR` leaves alone. -/

section Preparing

variable {op : ClientOp} {rest : List ClientOp}

theorem Stage.Comm.tail {threads : List CommThread}
    (h : (Stage.preparing (op :: rest)).Comm threads) (hop : op ≠ .startComm) :
    (Stage.preparing rest).Comm threads := by
  simpa [Stage.Comm, hop.symm] using h

theorem Stage.Stored.tail {peer_addr peer_rkey num_edges : Nat}
    (h : (Stage.preparing (op :: rest)).Stored m peer_addr peer_rkey num_edges)
    (haddr : op ≠ .setPeerAddr) (hrkey : op ≠ .setPeerRkey) (hedges : op ≠ .setNumEdges) :
    (Stage.preparing rest).Stored m peer_addr peer_rkey num_edges := by
  simpa [Stage.Stored, haddr.symm, hrkey.symm, hedges.symm] using h

theorem Stage.Holds.tail {b : Buffers} {toClient toServer : List Message}
    (h : (Stage.preparing (op :: rest)).Holds m b toClient toServer) :
    (Stage.preparing rest).Holds m b toClient toServer :=
  fun hmem => h (List.mem_cons_of_mem _ hmem)

theorem Stage.clientReceives_tail {latch0 : Bool} (hop : op ≠ .postReceive) :
    (Stage.preparing (op :: rest)).clientReceives latch0 =
      (Stage.preparing rest).clientReceives latch0 := by
  simp [Stage.clientReceives, hop.symm]

theorem Stage.Established.tail {conns : List Conn}
    (h : (Stage.preparing (op :: rest)).Established conns) (hop : op ≠ .awaitConnections) :
    (Stage.preparing rest).Established conns := by
  simpa [Stage.Established, hop.symm] using h

/-- A part of the message is stored. -/
theorem At.store {peer_addr peer_rkey num_edges : Nat}
    (h : At connections m (.preparing (op :: rest)) s)
    (hrest : Program.Left (onCompletion connections .mr) rest)
    (hop : op = .setPeerAddr ∨ op = .setPeerRkey ∨ op = .setNumEdges)
    (hstored : (Stage.preparing rest).Stored m peer_addr peer_rkey num_edges) :
    At connections m (.preparing rest)
      { s with
        client.poller := rest
        client.peer_addr := peer_addr
        client.peer_rkey := peer_rkey
        client.num_edges := num_edges } := by
  have hother : op ≠ .startComm ∧ op ≠ .postReceive ∧ op ≠ .awaitConnections := by
    rcases hop with rfl | rfl | rfl <;> exact ⟨nofun, nofun, nofun⟩
  exact { h with
    client_poller := rfl
    program := hrest
    comm := h.comm.tail hother.1
    stored := hstored
    holds := h.holds.tail
    client_receives := h.client_receives.trans (Stage.clientReceives_tail hother.2.1)
    established := h.established.tail hother.2.2
    fabric := h.fabric.move nofun nofun }

/-- The application is set up or the connections move on. -/
theorem At.goOn {app : Option Application} {conns : List Conn}
    (h : At connections m (.preparing (op :: rest)) s)
    (hrest : Program.Left (onCompletion connections .mr) rest)
    (hop : op = .createApp ∨ op = .awaitConnections ∨ ∃ i, op = .resolveAddr i)
    (hup : (Stage.preparing rest).Established conns)
    (hfabric : Fabric connections (.preparing rest) conns s.client.connections s.client.latch0
      s.server.latch2 s.server.latch3 s.strayed) :
    At connections m (.preparing rest)
      { s with
        client.poller := rest
        client.app := app
        conns := conns } := by
  have hother : op ≠ .startComm ∧ op ≠ .postReceive := by
    rcases hop with rfl | rfl | ⟨i, rfl⟩ <;> exact ⟨nofun, nofun⟩
  have hunread : op ≠ .setPeerAddr ∧ op ≠ .setPeerRkey ∧ op ≠ .setNumEdges := by
    rcases hop with rfl | rfl | ⟨i, rfl⟩ <;> exact ⟨nofun, nofun, nofun⟩
  exact { h with
    client_poller := rfl
    program := hrest
    comm := h.comm.tail hother.1
    stopped := nofun
    stored := h.stored.tail hunread.1 hunread.2.1 hunread.2.2
    holds := h.holds.tail
    client_receives := h.client_receives.trans (Stage.clientReceives_tail hother.2)
    established := hup
    fabric := hfabric }

end Preparing

/-- The client's poller goes on in the branch for `MSG_MR`. -/
theorem At.prepare {op : ClientOp} {rest : List ClientOp}
    (h : At connections m (.preparing (op :: rest)) s)
    (hexec : op.exec connections { s with client.poller := rest } = some t) :
    ∃ st', Stage.Step connections (.preparing (op :: rest)) (.client op) st' ∧
    At connections m st' t := by
  have hleft : Program.Left (onCompletion connections .mr) (op :: rest) := h.program
  have hcomm : if .startComm ∈ op :: rest then s.client.comm_threads = []
      else s.client.comm_threads.length = 1 := h.comm
  obtain ⟨haddr, hrkey, hedges⟩ := h.stored
  have hheld : .postReceive ∈ op :: rest → s.client.base.rx_msg = m := h.holds
  have hreceives : s.client.base.receives = if .postReceive ∈ op :: rest then 0 else 1 :=
    h.client_receives
  have hup : .awaitConnections ∉ op :: rest → ∀ conn ∈ s.conns, conn.client = .established :=
    h.established
  have hnot : op ∉ rest := hleft.not_mem (nodup_onCompletion _)
  have hnext : op ≠ .startKernel → Program.Left (onCompletion connections .mr) rest :=
    hleft.tail_of_ne getLast?_onCompletion_mr
  have hread :
      op = .setPeerAddr ∨ op = .setPeerRkey ∨ op = .setNumEdges → s.client.base.rx_msg = m :=
    fun hop => hheld (left_postReceive hleft List.mem_cons_self hop)
  have hop := hleft.suffix.mem List.mem_cons_self
  cases op with
  | setPeerAddr =>
      obtain rfl := Option.some.inj hexec
      have hrest := hnext nofun
      refine ⟨.preparing rest, .prepare hrest.ne_nil, h.store hrest (by simp)
        ⟨fun _ => congrArg Message.addr (hread (Or.inl rfl)), fun hnot => hrkey ?_,
          fun hnot => hedges ?_⟩⟩ <;>
      simpa using hnot
  | setPeerRkey =>
      obtain rfl := Option.some.inj hexec
      have hrest := hnext nofun
      refine ⟨.preparing rest, .prepare hrest.ne_nil, h.store hrest (by simp)
        ⟨fun hnot => haddr ?_, fun _ => congrArg Message.rkey (hread (Or.inr (Or.inl rfl))),
          fun hnot => hedges ?_⟩⟩ <;>
      simpa using hnot
  | setNumEdges =>
      obtain rfl := Option.some.inj hexec
      have hrest := hnext nofun
      refine ⟨.preparing rest, .prepare hrest.ne_nil, h.store hrest (by simp)
        ⟨fun hnot => haddr ?_, fun hnot => hrkey ?_,
          fun _ => congrArg Message.total_edges (hread (Or.inr (Or.inr rfl)))⟩⟩ <;>
      simpa using hnot
  | postReceive =>
      obtain rfl := Option.some.inj hexec
      have hrest := hnext nofun
      exact ⟨.preparing rest, .prepare hrest.ne_nil, { h with
        client_poller := rfl
        program := hrest
        comm := h.comm.tail nofun
        stored := h.stored.tail nofun nofun nofun
        holds := fun hmem => absurd hmem hnot
        client_receives := by simp [Endpoint.postReceive, hreceives, Stage.clientReceives, hnot]
        established := h.established.tail nofun
        fabric := h.fabric.move nofun nofun }⟩
  | createApp =>
      obtain rfl := Option.some.inj hexec
      have hrest := hnext nofun
      exact ⟨.preparing rest, .prepare hrest.ne_nil,
        h.goOn hrest (Or.inl rfl) (h.established.tail nofun) (h.fabric.move nofun nofun)⟩
  | resolveAddr i =>
      have hrest := hnext nofun
      simp only [ClientOp.exec] at hexec
      split at hexec
      · rename_i conn hconn
        split at hexec
        · rename_i hcreated
          obtain rfl := Option.some.inj hexec
          have hmem : conn ∈ s.conns := List.mem_of_getElem? hconn
          have hdown : conn.client ≠ .established := by rw [hcreated]; nofun
          have hsame := countP_set_of_not { conn with client := .addrResolving } hconn
            (by simp [hcreated])
          have hfabric : Fabric connections (.preparing rest) _ _ _ _ _ _ :=
            h.fabric.set nofun nofun (h.fabric.counted.trans hsame.symm)
          exact ⟨.preparing rest, .prepare hrest.ne_nil, h.goOn hrest (Or.inr (Or.inr ⟨i, rfl⟩))
            (fun hnot => absurd (hup (by simpa using hnot) conn hmem) hdown) hfabric⟩
        · cases hexec
      · cases hexec
  | awaitConnections =>
      have hrest := hnext nofun
      simp only [ClientOp.exec] at hexec
      split at hexec
      · cases hexec
      · rename_i hready
        obtain rfl := Option.some.inj hexec
        have hcount : s.conns.countP (fun conn => conn.client = .established) = s.conns.length := by
          have hle := List.countP_le_length (p := fun conn : Conn => conn.client = .established)
            (l := s.conns)
          have hlength := h.fabric.length
          have hcounted := h.fabric.counted
          omega
        exact ⟨.preparing rest, .prepare hrest.ne_nil, h.goOn hrest (Or.inr (Or.inl rfl))
          (fun _ conn hconn => of_decide_eq_true (List.countP_eq_length.1 hcount conn hconn))
          (h.fabric.move nofun nofun)⟩
  | startComm =>
      obtain rfl := Option.some.inj hexec
      have hrest := hnext nofun
      rw [if_pos List.mem_cons_self] at hcomm
      exact ⟨.preparing rest, .prepare hrest.ne_nil, { h with
        client_poller := rfl
        program := hrest
        comm := by rw [Stage.Comm, if_neg hnot, hcomm]; rfl
        stored := h.stored.tail nofun nofun nofun
        holds := h.holds.tail
        client_receives := h.client_receives.trans (Stage.clientReceives_tail nofun)
        established := h.established.tail nofun
        fabric := h.fabric.move nofun nofun }⟩
  | startKernel =>
      obtain rfl := hleft.eq_nil_of_last (nodup_onCompletion _) getLast?_onCompletion_mr
      have hthread : s.client.app_thread = .notStarted := h.thread
      simp only [ClientOp.exec, hthread, Option.some.injEq] at hexec
      subst hexec
      exact ⟨.running runKernel, .prepared, { h with
        client_poller := rfl
        kernel := rfl
        program := .start (by decide)
        thread := rfl
        comm := hcomm
        stopped := fun hnot => absurd (by decide) hnot
        stored := ⟨haddr (by decide), hrkey (by decide), hedges (by decide)⟩
        holds := fun hnot => absurd (by decide) hnot
        client_receives := hreceives
        established := hup (by decide)
        fabric := h.fabric.move nofun nofun }⟩
  | dispatch => simp [onCompletion] at hop
  | joinApp => simp [onCompletion] at hop
  | joinComm => simp [onCompletion] at hop
  | disconnect => simp [onCompletion] at hop

/-- The client's poller goes on in the branch for `MSG_DONE`. -/
theorem At.close {op : ClientOp} {rest : List ClientOp}
    (h : At connections m (.closing (op :: rest)) s)
    (hexec : op.exec connections { s with client.poller := rest } = some t) :
    ∃ st', Stage.Step connections (.closing (op :: rest)) (.client op) st' ∧
    At connections m st' t := by
  have hleft : Program.Left (onCompletion connections .done) (op :: rest) := h.program
  have hthread : if .joinApp ∈ op :: rest then
      s.client.app_thread = .running [] ∨ s.client.app_thread = .exited
      else s.client.app_thread = .joined := h.thread
  have hcomm : if .joinComm ∈ op :: rest then s.client.comm_threads.length = 1
      else s.client.comm_threads = [.joined] := h.comm
  have hnot : op ∉ rest := hleft.not_mem (nodup_onCompletion _)
  have hop := hleft.suffix.mem List.mem_cons_self
  simp only [onCompletion, List.mem_cons, List.not_mem_nil, or_false] at hop
  rcases hop with rfl | rfl | rfl
  · have hrest := hleft.tail_of_ne rfl nofun
    simp only [ClientOp.exec] at hexec
    split at hexec
    · obtain rfl := Option.some.inj hexec
      exact ⟨.closing rest, .close hrest.ne_nil, { h with
        client_poller := rfl
        kernel := rfl
        program := hrest
        thread := by rw [Stage.Thread, if_neg hnot]
        comm := by simpa [Stage.Comm] using hcomm
        fabric := h.fabric.move nofun nofun }⟩
    · cases hexec
  · have hrest := hleft.tail_of_ne rfl nofun
    simp only [ClientOp.exec] at hexec
    split at hexec
    · obtain rfl := Option.some.inj hexec
      rw [if_pos List.mem_cons_self] at hcomm
      obtain ⟨thread, hone⟩ := List.length_eq_one_iff.1 hcomm
      exact ⟨.closing rest, .close hrest.ne_nil, { h with
        client_poller := rfl
        program := hrest
        thread := by simpa [Stage.Thread] using hthread
        comm := by rw [Stage.Comm, if_neg hnot, hone]; rfl
        fabric := h.fabric.move nofun nofun }⟩
    · cases hexec
  · obtain rfl := Option.some.inj hexec
    obtain rfl := hleft.eq_nil_of_last (nodup_onCompletion _) rfl
    exact ⟨.closed, .closed, { h with
      client_poller := rfl
      program := trivial
      thread := hthread
      comm := hcomm
      fabric := h.fabric.move nofun nofun }⟩

/-- The client's poller goes on. -/
theorem At.clientOp {op : ClientOp} (h : At connections m st s) (hm : m.id = .mr)
    (hstep : step connections mr total_edges s (.client op) = some t) :
    ∃ st', Stage.Step connections st (.client op) st' ∧ At connections m st' t := by
  obtain ⟨rest, hpoller, hexec⟩ := step_client_inv hstep
  rcases Stage.of_client_poller (h.client_poller.symm.trans hpoller) with
    ⟨hst, rfl, rfl⟩ | rfl | rfl
  · obtain rfl := Option.some.inj hexec
    exact h.clientDispatch hm hst
  · exact h.prepare hexec
  · exact h.close hexec

/-! ### The connection manager -/

/-- Before the server has seen it, only connection 0 is under way. -/
theorem alone_getElem? {conn conn' : Conn} {i : Nat}
    (h : (conn :: List.replicate connections ⟨.created, .idle⟩)[i]? = some conn')
    (hmoved : conn' ≠ ⟨.created, .idle⟩) : i = 0 ∧ conn' = conn := by
  cases i with
  | zero => exact ⟨rfl, (Option.some.inj h).symm⟩
  | succ i =>
      rw [List.getElem?_cons_succ] at h
      exact absurd (List.eq_of_mem_replicate (List.mem_of_getElem? h)) hmoved

/-- The connections when one that was not established moves on, as the client sees it. -/
theorem not_all_established {conns conns' : List Conn} {i : Nat} {conn : Conn}
    (hconn : conns[i]? = some conn) (h : conn.client ≠ .established)
    (hall : ∀ conn ∈ conns, conn.client = .established) :
    ∀ conn ∈ conns', conn.client = .established :=
  absurd (hall conn (List.mem_of_getElem? hconn)) h

/-- The server moves on with a connection. -/
theorem still_established {conns : List Conn} {i : Nat} {conn : Conn} (conn' : Conn)
    (hconn : conns[i]? = some conn) (hsame : conn'.client = conn.client)
    (hall : ∀ conn ∈ conns, conn.client = .established) :
    ∀ conn ∈ conns.set i conn', conn.client = .established := by
  intro other hother
  rcases List.mem_or_eq_of_mem_set hother with hmem | rfl
  · exact hall other hmem
  · exact hsame.trans (hall conn (List.mem_of_getElem? hconn))

/-- The client moves on with a connection after its address was resolved. -/
theorem Fabric.setClient {conns : List Conn} {count count' i : Nat} {conn : Conn}
    {phase : ClientPhase} {latch0 latch2 latch3 strayed : Bool}
    (h : Fabric connections st conns count latch0 latch2 latch3 strayed)
    (hconn : conns[i]? = some conn)
    (hbefore : conn.client ≠ .created ∧ conn.client ≠ .addrResolving)
    (hafter : phase ≠ .created ∧ phase ≠ .addrResolving)
    (hcount : count' = (conns.set i { conn with client := phase }).countP
      fun conn => conn.client = .established) :
    Fabric connections st (conns.set i { conn with client := phase }) count' latch0 latch2 latch3
      strayed := by
  by_cases hst : st = .connecting
  · obtain ⟨hlatch3, conn0, hconns, -, hserver, hlatch0, hlatch2, -⟩ := h.alone hst
    rw [hconns] at hconn
    obtain ⟨rfl, rfl⟩ := alone_getElem? hconn fun heq => hbefore.1 (congrArg Conn.client heq)
    exact { h with
      length := List.length_set.trans h.length
      counted := hcount
      latched := fun hne => absurd hst hne
      alone := fun _ => ⟨hlatch3, { conn with client := phase },
        by rw [hconns]; rfl, hafter.1, hserver, iff_of_true (hlatch0.2
          hbefore.2) hafter.2, hlatch2, fun _ => hafter.2⟩ }
  · exact h.set hst hst hcount

/-- An event in the client's event loop. -/
theorem At.clientEvent {event : CmEventType} {i : Nat} (h : At connections m st s)
    (hstep : step connections mr total_edges s (.clientEvent event i) = some t) :
    At connections m st t := by
  simp only [step, Session.clientEvent] at hstep
  split at hstep
  · cases hstep
  split at hstep
  · cases hstep
  rename_i conn hconn
  split at hstep
  · -- the address was resolved: `on_pre_conn` posts the first receive
    rename_i hphase
    obtain rfl := Option.some.inj hstep
    have hdown : conn.client ≠ .established := by rw [hphase]; nofun
    have hsame := countP_set_of_not { conn with client := .routeResolving } hconn (by simp [hphase])
    by_cases hst : st = .connecting
    · subst hst
      obtain ⟨hlatch3, conn0, hconns, -, hserver, hlatch0, hlatch2, -⟩ := h.fabric.alone rfl
      rw [hconns] at hconn
      obtain ⟨rfl, rfl⟩ := alone_getElem? hconn fun heq => by simp [heq] at hphase
      have hopen : s.client.latch0 = false := by
        rw [← Bool.not_eq_true, hlatch0, not_not]
        exact hphase
      have hreceives : s.client.base.receives = 0 := by
        have hbefore := h.client_receives
        rwa [hopen] at hbefore
      rw [clientPreConn, if_neg (by rw [hopen]; nofun), if_pos rfl]
      exact { h with
        client_receives := congrArg (· + 1) hreceives
        fabric :=
          { h.fabric with
            length := List.length_set.trans h.fabric.length
            counted := h.fabric.counted.trans hsame.symm
            latched := fun hne => absurd rfl hne
            alone := fun _ => ⟨hlatch3, { conn with client := .routeResolving },
              by rw [hconns]; rfl, nofun, hserver, by simp, hlatch2, fun _ => nofun⟩ } }
    · have hlatch0 := (h.fabric.latched hst).1
      rw [clientPreConn, if_pos hlatch0]
      exact { h with
        established := h.established.imp (not_all_established hconn hdown)
        fabric := h.fabric.set hst hst (h.fabric.counted.trans hsame.symm) }
  · rename_i hphase
    obtain rfl := Option.some.inj hstep
    have hsame := countP_set_of_not { conn with client := .connecting } hconn (by simp [hphase])
    exact { h with
      established := h.established.imp (not_all_established hconn (by rw [hphase]; nofun))
      fabric := h.fabric.setClient hconn (by simp [hphase]) (by simp)
        (h.fabric.counted.trans hsame.symm) }
  · rename_i hphase
    split at hstep
    · cases hstep
    · obtain rfl := Option.some.inj hstep
      have hone := countP_set_established { conn with client := .established } hconn
        (by rw [hphase]; nofun) rfl
      exact { h with
        established := h.established.imp (not_all_established hconn (by rw [hphase]; nofun))
        fabric := h.fabric.setClient hconn (by simp [hphase]) (by simp)
          ((congrArg (· + 1) h.fabric.counted).trans hone.symm) }
  · split at hstep
    · obtain rfl := Option.some.inj hstep
      exact { h with }
    · cases hstep
  · cases hstep

/-- An event in the server's event loop. -/
theorem At.serverEvent {event : CmEventType} {i : Nat} (h : At connections m st s)
    (hstep : step connections mr total_edges s (.serverEvent event i) = some t) :
    ∃ st', Stage.Step connections st (.serverEvent event i) st' ∧ At connections m st' t := by
  simp only [step, Session.serverEvent] at hstep
  split at hstep
  · cases hstep
  rename_i hidle
  split at hstep
  · cases hstep
  rename_i conn hconn
  split at hstep
  · -- a connection is requested: `on_pre_conn` posts the first receive
    rename_i hclient hserver
    obtain rfl := Option.some.inj hstep
    have hsame := countP_set_of_not { conn with server := .accepted } hconn Iff.rfl
    refine ⟨st, .serverEvent, ?_⟩
    by_cases hst : st = .connecting
    · subst hst
      obtain ⟨hlatch3, conn0, hconns, hcreated, -, hlatch0, hlatch2, -⟩ := h.fabric.alone rfl
      rw [hconns] at hconn
      obtain ⟨rfl, rfl⟩ := alone_getElem? hconn fun heq => by simp [heq] at hclient
      have hopen : s.server.latch2 = false := by
        rw [← Bool.not_eq_true, hlatch2, not_not]
        exact hserver
      have hreceives : s.server.base.receives = 0 := by
        have hbefore := h.server_receives
        rwa [hopen] at hbefore
      rw [serverPreConn, if_neg (by rw [hopen]; nofun), if_pos rfl]
      exact { h with
        server_receives := congrArg (· + 1) hreceives
        fabric :=
          { h.fabric with
            length := List.length_set.trans h.fabric.length
            counted := h.fabric.counted.trans hsame.symm
            latched := fun hne => absurd rfl hne
            alone := fun _ => ⟨hlatch3, { conn with server := .accepted },
              by rw [hconns]; rfl, hcreated, nofun, hlatch0, by simp,
              fun _ => by simp [hclient]⟩ } }
    · have hlatch2 := (h.fabric.latched hst).2.1
      rw [serverPreConn, if_pos hlatch2]
      exact { h with
        established := h.established.imp
          (still_established { conn with server := .accepted } hconn rfl)
        fabric := h.fabric.set hst hst (h.fabric.counted.trans hsame.symm) }
  · -- a connection is established: `on_connection` sends `MSG_MR` on the first one
    rename_i hserver
    obtain rfl := Option.some.inj hstep
    have hsame := countP_set_of_not { conn with server := .established } hconn Iff.rfl
    by_cases hst : st = .connecting
    · subst hst
      obtain ⟨hlatch3, conn0, hconns, hcreated, -, hlatch0, hlatch2, hknown⟩ := h.fabric.alone rfl
      have hnotIdle : conn.server ≠ .idle := by rw [hserver]; nofun
      rw [hconns] at hconn
      obtain ⟨rfl, rfl⟩ := alone_getElem? hconn fun heq => by simp [heq] at hserver
      have hopen0 : s.client.latch0 = true := hlatch0.2 (hknown hnotIdle)
      have hopen2 : s.server.latch2 = true := hlatch2.2 hnotIdle
      rw [serverConnect, if_neg (by rw [hlatch3]; nofun), if_pos rfl]
      exact ⟨.offering serverOnConnection, .connect, { h with
        event_loop := rfl
        program := .start (by decide)
        holds := ⟨fun hnot => absurd (by decide) hnot, fun hnot => absurd (by decide) hnot⟩
        client_receives := by
          have hreceives := h.client_receives
          rwa [hopen0] at hreceives
        server_receives := by
          have hreceives := h.server_receives
          rwa [hopen2] at hreceives
        fabric :=
          { h.fabric with
            length := List.length_set.trans h.fabric.length
            counted := h.fabric.counted.trans hsame.symm
            latched := fun _ => ⟨hopen0, hopen2, rfl⟩
            alone := nofun } }⟩
    · have hlatch3 := (h.fabric.latched hst).2.2
      rw [serverConnect, if_pos hlatch3]
      exact ⟨st, .serverEvent, { h with
        established := h.established.imp
          (still_established { conn with server := .established } hconn rfl)
        fabric := h.fabric.set hst hst (h.fabric.counted.trans hsame.symm) }⟩
  · cases hstep

/-- Every step moves the token or leaves it. -/
theorem At.next {a : Action} (h : At connections m st s)
    (hm : m = ⟨.mr, mr.addr, mr.rkey, total_edges⟩)
    (hstep : step connections mr total_edges s a = some t) :
    ∃ st', Stage.Step connections st a st' ∧ At connections m st' t := by
  have hid : m.id = .mr := by rw [hm]
  cases a with
  | clientEvent event i => exact ⟨st, .clientEvent, h.clientEvent hstep⟩
  | serverEvent event i => exact h.serverEvent hstep
  | clientPoll opcode => exact h.clientPoll hstep
  | serverPoll opcode => exact h.serverPoll hstep
  | client op => exact h.clientOp hid hstep
  | serverLoop op => exact h.serverLoop hm hstep
  | server op => exact h.server hstep
  | kernel op => exact h.kernelOp hstep
  | rdmaRead =>
      simp only [step] at hstep
      split at hstep
      · rename_i rest hthread
        obtain rfl := Option.some.inj hstep
        obtain rfl := Stage.of_kernel (h.kernel.symm.trans (congrArg AppThread.rest hthread))
        exact ⟨_, .read, h⟩
      · cases hstep
  | kernelReturn => exact ⟨st, .kernelReturn, h.kernelReturn hstep⟩
  | commReturn i => exact ⟨st, .commReturn, h.commReturn hstep⟩
  | transmitToClient x => exact h.transmitToClient hid hstep
  | transmitToServer x => exact h.transmitToServer hstep
  | deliverToClient x => exact h.deliverToClient hstep
  | deliverToServer x => exact h.deliverToServer hstep

/-! ### What the moves tell about the past -/

/-- `MSG_READY` arrives at the server. -/
@[simp] def Action.isReady : Action → Bool
  | .deliverToServer x => x.id = .ready
  | _ => false

/-- `MSG_DONE` leaves the server. -/
@[simp] def Action.isDone : Action → Bool
  | .transmitToClient x => x.id = .done
  | _ => false

/-- The actions that are counted. -/
inductive Mark where
  | createApp
  | startKernel
  | compute
  | ready
  | done
  | disconnect

@[simp] def Mark.on : Mark → Action → Bool
  | .createApp, a => a = .client .createApp
  | .startKernel, a => a = .client .startKernel
  | .compute, a => a = .kernel .compute
  | .ready, a => a.isReady
  | .done, a => a.isDone
  | .disconnect, a => a = .client .disconnect

/-- The stages in their order. -/
@[simp] def Stage.rank : Stage → Nat
  | .connecting => 0
  | .offering _ => 1
  | .posted .mr => 2
  | .sent .mr => 3
  | .arrived .mr => 4
  | .taken .mr => 5
  | .preparing _ => 6
  | .running _ => 7
  | .posted .ready => 8
  | .sent .ready => 9
  | .arrived .ready => 10
  | .taken .ready => 11
  | .answering _ => 12
  | .posted .done => 13
  | .sent .done => 14
  | .arrived .done => 15
  | .taken .done => 16
  | .closing _ => 17
  | .closed => 18

/-- The first stage behind a marked action. -/
@[simp] def Mark.rank : Mark → Nat
  | .createApp => 7
  | .startKernel => 7
  | .compute => 8
  | .ready => 10
  | .done => 14
  | .disconnect => 18

/-- How often a marked action was taken, at a stage. -/
@[simp] def Stage.marked : Stage → Mark → Nat
  | .preparing rest, .createApp => if .createApp ∈ rest then 0 else 1
  | .running rest, .compute => if .compute ∈ rest then 0 else 1
  | st, k => if k.rank ≤ st.rank then 1 else 0

/-- What has happened up to a stage. -/
structure Told (st : Stage) (trace : List Action) : Prop where
  marks : ∀ k : Mark, trace.countP k.on = st.marked k
  no_read : trace.Pairwise fun a b => a = .client .disconnect → b ≠ .rdmaRead

theorem told_start : Told .connecting [] where
  marks k := by cases k <;> rfl
  no_read := List.Pairwise.nil

/-- A move counts its action. -/
theorem Stage.Step.marked {a : Action} {st' : Stage} (hstep : Stage.Step connections st a st')
    (hprogram : st.InProgram connections) (k : Mark) :
    st'.marked k = st.marked k + if k.on a then 1 else 0 := by
  cases hstep with
  | transmitToClient hn hx =>
      rename_i n x
      cases n with
      | mr => cases k <;> simp [hx]
      | ready => exact absurd rfl hn
      | done => cases k <;> simp [hx]
  | deliverToClient hn =>
      rename_i n x
      cases n with
      | mr => cases k <;> simp
      | ready => exact absurd rfl hn
      | done => cases k <;> simp
  | clientPoll hn =>
      rename_i n
      cases n with
      | mr => cases k <;> simp
      | ready => exact absurd rfl hn
      | done => cases k <;> simp
  | clientDispatch => cases k <;> simp [onCompletion]
  | prepare hrest =>
      rename_i op rest
      have hleft : Program.Left (onCompletion connections .mr) (op :: rest) := hprogram
      have hnot := hleft.not_mem (nodup_onCompletion _)
      have hop := hleft.suffix.mem List.mem_cons_self
      have hlast : op ≠ .startKernel := by
        rintro rfl
        exact hrest (hleft.eq_nil_of_last (nodup_onCompletion _) getLast?_onCompletion_mr)
      have hother : op ≠ .disconnect := by
        rintro rfl
        simp [onCompletion] at hop
      cases k with
      | createApp =>
          by_cases hcreate : op = .createApp
          · subst hcreate
            simp [hnot]
          · simp [hcreate, Ne.symm hcreate]
      | startKernel => simp [hlast]
      | compute => simp
      | ready => simp
      | done => simp
      | disconnect => simp [hother]
  | prepared => cases k <;> simp [runKernel]
  | run hrest =>
      rename_i op rest
      have hleft : Program.Left runKernel (op :: rest) := hprogram
      have hnot := hleft.not_mem (by decide)
      cases k with
      | compute =>
          by_cases hcompute : op = .compute
          · subst hcompute
            simp [hnot]
          · simp [hcompute, Ne.symm hcompute]
      | createApp => simp
      | startKernel => simp
      | ready => simp
      | done => simp
      | disconnect => simp
  | close hrest =>
      rename_i op rest
      have hleft : Program.Left (onCompletion connections .done) (op :: rest) := hprogram
      have hop := hleft.suffix.mem List.mem_cons_self
      simp only [onCompletion, List.mem_cons, List.not_mem_nil, or_false] at hop
      rcases hop with rfl | rfl | rfl
      · cases k <;> simp
      · cases k <;> simp
      · exact absurd (hleft.eq_nil_of_last (nodup_onCompletion _) rfl) hrest
  | _ => cases k <;> simp_all

theorem Told.next {a : Action} {st' : Stage} {trace : List Action} (h : Told st trace)
    (hprogram : st.InProgram connections) (hstep : Stage.Step connections st a st') :
    Told st' (trace ++ [a]) where
  marks k := by
    rw [List.countP_append, h.marks k, hstep.marked hprogram k, List.countP_singleton]
  no_read := by
    refine List.pairwise_append.2 ⟨h.no_read, List.pairwise_singleton _ _, ?_⟩
    rintro b hb c hc rfl rfl
    obtain rfl := List.mem_singleton.1 hc
    have hdone : 0 < trace.countP Mark.disconnect.on :=
      List.countP_pos_iff.2 ⟨_, hb, by simp⟩
    rw [h.marks] at hdone
    cases hstep with
    | read => simp at hdone

/-- Every reachable state is at a stage. -/
theorem exists_at {s : State} {trace : List Action}
    (h : (session connections mr total_edges).Reachable (s, trace)) :
    ∃ st, At connections ⟨.mr, mr.addr, mr.rkey, total_edges⟩ st s ∧ Told st trace := by
  apply TransitionSystem.Reachable.induct (I := fun p : State × List Action =>
    ∃ st, At connections ⟨.mr, mr.addr, mr.rkey, total_edges⟩ st p.1 ∧ Told st p.2) _ _ h
  · rintro ⟨s, trace⟩ ⟨⟨garbage, peer_addr, peer_rkey, rfl⟩, rfl⟩
    exact ⟨.connecting, at_start garbage peer_addr peer_rkey, told_start⟩
  · rintro ⟨s, trace⟩ ⟨t, trace'⟩ - ⟨st, hat, htold⟩ ⟨a, hstep, rfl⟩
    obtain ⟨st', hmove, hat'⟩ := hat.next rfl hstep
    exact ⟨st', hat', htold.next hat.program hmove⟩

/-! ### Safety -/

/-- The operations of the client's `on_completion` that read the message. -/
def ClientOp.ReadsMessage (op : ClientOp) : Prop :=
  op = .dispatch ∨ op = .setPeerAddr ∨ op = .setPeerRkey ∨ op = .setNumEdges

/-- At the end of the branch for `MSG_MR` everything is prepared. -/
theorem At.before_startKernel (h : At connections m st s)
    (hstep : step connections mr total_edges s (.client .startKernel) = some t) :
    (s.client.peer_addr = m.addr ∧ s.client.peer_rkey = m.rkey ∧
      s.client.num_edges = m.total_edges) ∧ s.conns.length = connections + 1 ∧
      ∀ conn ∈ s.conns, conn.client = .established := by
  obtain ⟨rest, hpoller, hexec⟩ := step_client_inv hstep
  rcases Stage.of_client_poller (h.client_poller.symm.trans hpoller) with
    ⟨-, hop, -⟩ | rfl | rfl
  · cases hop
  · have hleft : Program.Left (onCompletion connections .mr) (.startKernel :: rest) := h.program
    obtain rfl := hleft.eq_nil_of_last (nodup_onCompletion _) getLast?_onCompletion_mr
    obtain ⟨haddr, hrkey, hedges⟩ := h.stored
    have hup := h.established
    exact ⟨⟨haddr (by decide), hrkey (by decide), hedges (by decide)⟩, h.fabric.length,
      hup (by decide)⟩
  · have hop := Program.Left.suffix h.program |>.mem List.mem_cons_self
    simp [onCompletion] at hop

/-- At the end of the branch for `MSG_DONE` the other threads are joined. -/
theorem At.before_disconnect (h : At connections m st s)
    (hstep : step connections mr total_edges s (.client .disconnect) = some t) :
    (∃ rest, st = .closing rest) ∧ s.client.app_thread = .joined ∧
    s.client.comm_threads = [.joined] ∧
      ∃ app, s.client.app = some app ∧ app.should_stop = true := by
  obtain ⟨rest, hpoller, hexec⟩ := step_client_inv hstep
  rcases Stage.of_client_poller (h.client_poller.symm.trans hpoller) with
    ⟨-, hop, -⟩ | rfl | rfl
  · cases hop
  · have hop := Program.Left.suffix h.program |>.mem List.mem_cons_self
    simp [onCompletion] at hop
  · have hleft : Program.Left (onCompletion connections .done) (.disconnect :: rest) := h.program
    obtain rfl := hleft.eq_nil_of_last (nodup_onCompletion _) rfl
    exact ⟨⟨_, rfl⟩, h.thread, h.comm, h.stopped trivial⟩

/-- While the client has a receive posted, the message before is used up. -/
theorem At.client_consumed (h : At connections m st s) (hposted : 0 < s.client.base.receives) :
    .recv ∉ s.client.base.cq ∧ ∀ op ∈ s.client.poller, ¬ op.ReadsMessage := by
  have hreceives := h.client_receives
  have hrecv := h.client_recv
  have hpoller := h.client_poller
  have hprogram := h.program
  rw [← List.count_eq_zero]
  cases st using Stage.shapes with
  | preparing rest =>
      refine ⟨hrecv, fun op hop hreads => ?_⟩
      have hpoller' : s.client.poller = rest := hpoller
      rw [hpoller'] at hop
      have hleft : Program.Left (onCompletion connections .mr) rest := hprogram
      rcases hreads with rfl | hreads
      · have hmem := hleft.suffix.mem hop
        simp [onCompletion] at hmem
      · rw [Stage.clientReceives, if_pos (left_postReceive hleft hop hreads)] at hreceives
        omega
  | _ =>
      first
      | exact absurd hreceives (Nat.ne_of_gt hposted)
      | exact ⟨hrecv, fun op hop => absurd (hpoller ▸ hop) List.not_mem_nil⟩

/-- While the server has a receive posted, the message before is used up. -/
theorem At.server_consumed (h : At connections m st s) (hposted : 0 < s.server.base.receives) :
    .recv ∉ s.server.base.cq ∧ .dispatch ∉ s.server.poller := by
  have hreceives := h.server_receives
  have hrecv := h.server_recv
  have hpoller := h.server_poller
  have hprogram := h.program
  rw [← List.count_eq_zero]
  cases st using Stage.shapes with
  | answering rest =>
      refine ⟨hrecv, fun hop => ?_⟩
      have hpoller' : s.server.poller = rest := hpoller
      rw [hpoller'] at hop
      have hmem := Program.Left.suffix hprogram |>.mem hop
      simp [serverOnCompletion] at hmem
  | _ =>
      first
      | exact absurd hreceives (Nat.ne_of_gt hposted)
      | exact ⟨hrecv, fun hop => absurd (hpoller ▸ hop) List.not_mem_nil⟩

/-- The server has nothing to do: no message to look at, nothing left of `on_completion`, nothing
    posted. -/
structure ServerIdle (s : State) : Prop where
  cq : .recv ∉ s.server.base.cq
  poller : s.server.poller = []
  sends : s.server.base.sends = 0

/-- As many `MSG_DONE` have left an idle server as `MSG_READY` have come. -/
theorem At.answered (h : At connections m st s) (hidle : ServerIdle s) :
    st.marked .done = st.marked .ready := by
  have hrecv := h.server_recv
  have hpoller := h.server_poller
  have hsends := h.server_sends
  have hprogram := h.program
  rw [List.count_eq_zero.2 hidle.cq] at hrecv
  rw [hidle.poller] at hpoller
  rw [hidle.sends] at hsends
  cases st using Stage.shapes with
  | answering rest => exact absurd hpoller.symm hprogram.ne_nil
  | _ =>
      first
      | rfl
      | exact absurd hrecv (by decide)
      | exact absurd hpoller (by decide)
      | exact absurd hsends (by decide)

/-- What must hold of a session, in a state and of all that has happened before. -/
structure Safe (connections : Nat) (mr : MemoryRegion) (total_edges : Nat) (s : State)
    (trace : List Action) : Prop where
  /-- (a) At most one application object and one kernel thread were created. -/
  one_app : trace.countP (· = .client .createApp) ≤ 1
  one_kernel : trace.countP (· = .client .startKernel) ≤ 1
  /-- (b) The kernel thread is started with the contents of `MSG_MR` stored and all connections
      up. -/
  prepared : ∀ t, step connections mr total_edges s (.client .startKernel) = some t →
    (s.client.peer_addr = mr.addr ∧ s.client.peer_rkey = mr.rkey ∧
      s.client.num_edges = total_edges) ∧ s.conns.length = connections + 1 ∧
      ∀ conn ∈ s.conns, conn.client = .established
  /-- (c) No `MSG_DONE` leaves without a `MSG_READY` of its own, and none is missing once the server
      is idle. -/
  answers : trace.countP Action.isDone ≤ trace.countP Action.isReady
  answered : ServerIdle s → trace.countP Action.isDone = trace.countP Action.isReady
  /-- (d) The client disconnects after the kernel, with `should_stop` set and the threads joined,
      and reads nothing any more. -/
  finished : ∀ t, step connections mr total_edges s (.client .disconnect) = some t →
    .kernel .compute ∈ trace ∧ s.client.app_thread = .joined ∧ s.client.comm_threads = [.joined] ∧
      ∃ app, s.client.app = some app ∧ app.should_stop = true
  no_read : trace.Pairwise fun a b => a = .client .disconnect → b ≠ .rdmaRead
  /-- (e) Whenever a receive is posted, no message is left to be read in its buffer. -/
  client_consumed : 0 < s.client.base.receives →
    .recv ∉ s.client.base.cq ∧ ∀ op ∈ s.client.poller, ¬ op.ReadsMessage
  server_consumed : 0 < s.server.base.receives →
    .recv ∉ s.server.base.cq ∧ .dispatch ∉ s.server.poller
  /-- The handlers for connection 0 ran for no other one. -/
  base_only : s.strayed = false

@[simp] theorem Stage.marked_le_one (st : Stage) (k : Mark) : st.marked k ≤ 1 := by
  unfold Stage.marked
  split <;> split <;> omega

theorem Stage.done_le_ready (st : Stage) : st.marked .done ≤ st.marked .ready := by
  simp only [Stage.marked]
  by_cases hdone : Mark.done.rank ≤ st.rank
  · have hready : Mark.ready.rank ≤ st.rank := Nat.le_trans (by decide) hdone
    rw [if_pos hdone, if_pos hready]
  · rw [if_neg hdone]
    exact Nat.zero_le _

/-- Safety of a session with any number of worker connections: in every interleaving of the
    connection manager's events, the messages and the threads of both sides, every state reached is
    safe. -/
theorem session_safe (connections : Nat) (mr : MemoryRegion) (total_edges : Nat) (s : State)
    (trace : List Action) (h : (session connections mr total_edges).Reachable (s, trace)) :
    Safe connections mr total_edges s trace := by
  obtain ⟨st, hat, htold⟩ := exists_at h
  exact
    { one_app := (htold.marks .createApp).trans_le (st.marked_le_one _)
      one_kernel := (htold.marks .startKernel).trans_le (st.marked_le_one _)
      prepared := fun t hstep => hat.before_startKernel hstep
      answers := by
        have hdone : trace.countP Action.isDone = st.marked .done := htold.marks .done
        have hready : trace.countP Action.isReady = st.marked .ready := htold.marks .ready
        rw [hdone, hready]
        exact st.done_le_ready
      answered := fun hidle =>
        (htold.marks .done).trans ((hat.answered hidle).trans (htold.marks .ready).symm)
      finished := fun t hstep => by
        obtain ⟨⟨rest, rfl⟩, hthreads⟩ := hat.before_disconnect hstep
        have hcompute := htold.marks .compute
        obtain ⟨a, ha, hmark⟩ := List.countP_pos_iff.1 (hcompute.trans_gt Nat.one_pos)
        exact ⟨of_decide_eq_true hmark ▸ ha, hthreads⟩
      no_read := htold.no_read
      client_consumed := hat.client_consumed
      server_consumed := hat.server_consumed
      base_only := hat.fabric.base_only }

/-- A whole session with one worker connection, in which `MSG_MR` is handled before the client sees
    its own connection 0 established. -/
def wholeSession : List Action :=
  [.clientEvent .addrResolved 0, .clientEvent .routeResolved 0, .serverEvent .connectRequest 0,
    .serverEvent .established 0, .serverLoop (.setId .mr), .serverLoop .setMr,
    .serverLoop .sendMessage, .transmitToClient ⟨.mr, 4096, 7, 5⟩,
    .deliverToClient ⟨.mr, 4096, 7, 5⟩, .serverPoll .send, .clientPoll .recv, .client .dispatch,
    .client .setPeerAddr, .client .setPeerRkey, .client .setNumEdges, .client .postReceive,
    .client .createApp, .client (.resolveAddr 0), .clientEvent .addrResolved 1,
    .clientEvent .routeResolved 1, .serverEvent .connectRequest 1, .clientEvent .established 1,
    .serverEvent .established 1, .clientEvent .established 0, .client .awaitConnections,
    .client .startComm, .client .startKernel, .rdmaRead, .kernel .compute, .kernel .setShouldStop,
    .kernel (.setId .ready), .kernel .sendMessage, .commReturn 0,
    .transmitToServer ⟨.ready, 0, 0, 0⟩, .deliverToServer ⟨.ready, 0, 0, 0⟩, .serverPoll .recv,
    .server .dispatch, .server .postReceive, .server (.setId .done), .server .sendMessage,
    .transmitToClient ⟨.done, 4096, 7, 5⟩, .deliverToClient ⟨.done, 4096, 7, 5⟩, .clientPoll .send,
    .clientPoll .recv, .client .dispatch, .kernelReturn, .client .joinApp, .client .joinComm,
    .client .disconnect, .clientEvent .disconnected 0]

theorem session_safe_whole :
    ∃ s, s.client.loop_exited = true ∧ (session 1 ⟨4096, 7⟩ 5).Reachable (s, wholeSession) ∧
      Safe 1 ⟨4096, 7⟩ 5 s wholeSession := by
  have hrun : ((wholeSession.foldlM (step 1 ⟨4096, 7⟩ 5)
      (start 1 (⟨⟨.invalid, 0, 0, 0⟩, ⟨.invalid, 0, 0, 0⟩, 0, 0, []⟩,
        ⟨⟨.invalid, 0, 0, 0⟩, ⟨.invalid, 0, 0, 0⟩, 0, 0, []⟩) 0 0)).any
          fun s => s.client.loop_exited) = true := by
    decide +kernel
  obtain ⟨s, hs, hexited⟩ := (Option.any_eq_true _ _).1 hrun
  have hreachable : (session 1 ⟨4096, 7⟩ 5).Reachable (s, [] ++ wholeSession) :=
    .of_foldlM wholeSession (.of_init ⟨⟨_, 0, 0, rfl⟩, rfl⟩) hs
  exact ⟨s, hexited, hreachable, session_safe 1 ⟨4096, 7⟩ 5 s wholeSession hreachable⟩

end Session

end FamGraph
