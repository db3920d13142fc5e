/-
Module: FamGraph.Proofs.SessionProgress
Layer: Proofs
Purpose: A session ends if its kernel returns. Besides the token, a few things are on their way at
  any time: the connections, the completions of messages sent, the threads that are about to return.
  Together with what the holder of the token has still to do they make a number that every action
  but an RDMA read takes one from (`Live.next`), and as long as it is not zero, some action can
  happen (`At.progress`). What it waits for may be the kernel, which then takes a step of its own.
  So all sessions in which no call fails have the same length, and none gets stuck.
Trusted boundary: none
Main exports: Stage.left, State.left, Live, Live.next, Hosted.left, session_completes
-/
import FamGraph.Core.SessionKernel
import FamGraph.Proofs.Bfs
import FamGraph.Proofs.Session
import Mathlib.Algebra.Order.Group.Nat
import Mathlib.Algebra.BigOperators.Group.List.Basic

namespace FamGraph

namespace Session

variable {connections : Nat} {m : Message} {st st' : Stage} {s t : State}

/-! ### What is left to do -/

/-- The events of a connection that are to come at the client. -/
@[simp] def ClientPhase.left : ClientPhase → Nat
  | .created => 3
  | .addrResolving => 3
  | .routeResolving => 2
  | .connecting => 1
  | .established => 0

/-- The events of a connection that are to come at the server. -/
@[simp] def ServerPhase.left : ServerPhase → Nat
  | .idle => 2
  | .accepted => 1
  | .established => 0

def Conn.left (conn : Conn) : Nat := conn.client.left + conn.server.left

/-- A kernel thread that has done its work has to return. -/
@[simp] def AppThread.left : AppThread → Nat
  | .running [] => 1
  | _ => 0

/-- What is under way beside the token. -/
def State.left (s : State) : Nat :=
  (s.conns.map Conn.left).sum + s.client.base.cq.count .send + s.server.base.cq.count .send +
    s.client.app_thread.left + s.client.comm_threads.count .polling + if s.client.loop_exited then 0
    else 1

/-- What the holders of the token have still to do, and what they will set under way: the completion
    of each message, the return of the kernel thread and of the polling thread. -/
def Stage.left (connections : Nat) : Stage → Nat
  | .connecting => 38 + connections
  | .offering rest => 35 + connections + rest.length
  | .posted .mr => 35 + connections
  | .sent .mr => 33 + connections
  | .arrived .mr => 32 + connections
  | .taken .mr => 31 + connections
  | .preparing rest => 21 + rest.length + if .startComm ∈ rest then 1 else 0
  | .running rest => 17 + rest.length
  | .posted .ready => 16
  | .sent .ready => 14
  | .arrived .ready => 13
  | .taken .ready => 12
  | .answering rest => 8 + rest.length
  | .posted .done => 8
  | .sent .done => 6
  | .arrived .done => 5
  | .taken .done => 4
  | .closing rest => rest.length
  | .closed => 0

theorem sum_left_set {conns : List Conn} {i : Nat} {conn : Conn} (conn' : Conn)
    (hconn : conns[i]? = some conn) :
    ((conns.set i conn').map Conn.left).sum + conn.left =
      (conns.map Conn.left).sum + conn'.left := by
  induction conns generalizing i with
  | nil => cases hconn
  | cons first rest ih =>
      cases i with
      | zero =>
          obtain rfl : first = conn := Option.some.inj hconn
          simp only [List.set_cons_zero, List.map_cons, List.sum_cons]
          omega
      | succ i =>
          have hrest := ih (List.getElem?_cons_succ ▸ hconn)
          simp only [List.set_cons_succ, List.map_cons, List.sum_cons]
          omega

/-! ### What more is known of a stage -/

/-- The application object exists from `createApp` on. -/
def Stage.HasApp : Stage → Prop
  | .connecting => False
  | .offering _ => False
  | .posted .mr => False
  | .sent .mr => False
  | .arrived .mr => False
  | .taken .mr => False
  | .preparing rest => .createApp ∉ rest
  | _ => True

/-- No polling thread is joined before `joinComm`. -/
def Stage.Unjoined : Stage → Prop
  | .closing rest => .joinComm ∈ rest
  | .closed => False
  | _ => True

/-- The address of connection `i + 1` is still to be resolved. -/
def Stage.Unresolved (i : Nat) : Stage → Prop
  | .connecting => True
  | .offering _ => True
  | .posted .mr => True
  | .sent .mr => True
  | .arrived .mr => True
  | .taken .mr => True
  | .preparing rest => .resolveAddr i ∈ rest
  | _ => False

/-- The client has not disconnected. -/
def Stage.Open : Stage → Prop
  | .closed => False
  | _ => True

theorem Stage.Open.ne_closed (h : st.Open) : st ≠ .closed := by
  intro hclosed
  subst hclosed
  exact h

/-- What the liveness of a session rests on, beside where the token is. -/
structure Live (st : Stage) (s : State) : Prop where
  app : st.HasApp → s.client.app.isSome = true
  unjoined : st.Unjoined → .joined ∉ s.client.comm_threads
  known : ∀ conn ∈ s.conns, conn.client = .established → conn.server ≠ .idle
  met : ∀ conn ∈ s.conns, conn.server ≠ .idle → conn.client ≠ .created
  base : ∀ conn, s.conns[0]? = some conn → conn.client ≠ .created
  resolved : ∀ i conn, s.conns[i + 1]? = some conn → (conn.client = .created ↔ st.Unresolved i)
  disconnected : s.client.disconnected = true ↔ st = .closed
  exited : s.client.loop_exited = true → st = .closed

theorem Live.still_connected (h : Live st s) (hbefore : st.Open) (hafter : st'.Open) :
    s.client.disconnected = true ↔ st' = .closed :=
  h.disconnected.trans (iff_of_false hbefore.ne_closed hafter.ne_closed)

theorem Live.not_exited (h : Live st s) (hopen : st.Open) : ¬ s.client.loop_exited = true :=
  fun hexited => hopen.ne_closed (h.exited hexited)

theorem live_start (garbage : Endpoint × Endpoint) (peer_addr peer_rkey : Nat) :
    Live .connecting (start connections garbage peer_addr peer_rkey) where
  app h := h.elim
  unjoined _ := List.not_mem_nil
  known := by
    intro conn hconn hup
    cases List.mem_cons.1 hconn with
    | inl hfirst => simp [hfirst] at hup
    | inr hrest => simp [List.eq_of_mem_replicate hrest] at hup
  met := by
    intro conn hconn hmet
    cases List.mem_cons.1 hconn with
    | inl hfirst => exact absurd rfl (hfirst ▸ hmet)
    | inr hrest => exact absurd rfl (List.eq_of_mem_replicate hrest ▸ hmet)
  base := by
    intro conn hconn
    cases hconn
    simp
  resolved := by
    intro i conn hconn
    have hmem : conn ∈ List.replicate connections (⟨.created, .idle⟩ : Conn) :=
      List.mem_of_getElem? hconn
    exact iff_of_true (congrArg Conn.client (List.eq_of_mem_replicate hmem)) trivial
  disconnected := by simp [start]
  exited := by simp [start]

theorem left_start (garbage : Endpoint × Endpoint) (peer_addr peer_rkey : Nat) :
    Stage.connecting.left connections + (start connections garbage peer_addr peer_rkey).left =
      44 + 6 * connections := by
  simp [State.left, Stage.left, start, Conn.left]
  omega

/-! ### The moves of the token -/

/-- What a move of the token takes with it. -/
structure Frame (s t : State) : Prop where
  app : s.client.app.isSome = true → t.client.app.isSome = true
  comm_threads : t.client.comm_threads = s.client.comm_threads
  conns : t.conns = s.conns
  disconnected : t.client.disconnected = s.client.disconnected
  loop_exited : t.client.loop_exited = s.client.loop_exited

/-- Two stages that say the same of what is beside the token. -/
structure Stage.Like (st st' : Stage) : Prop where
  app : st'.HasApp → st.HasApp
  unjoined : st'.Unjoined → st.Unjoined
  unresolved : ∀ i, st.Unresolved i ↔ st'.Unresolved i
  open_before : st.Open
  open_after : st'.Open

theorem Live.moved (h : Live st s) (hframe : Frame s t) (hlike : st.Like st') : Live st' t where
  app happ := hframe.app (h.app (hlike.app happ))
  unjoined hjoin := by
    rw [hframe.comm_threads]
    exact h.unjoined (hlike.unjoined hjoin)
  known := by
    rw [hframe.conns]
    exact h.known
  met := by
    rw [hframe.conns]
    exact h.met
  base := by
    rw [hframe.conns]
    exact h.base
  resolved := by
    rw [hframe.conns]
    exact fun i conn hconn => (h.resolved i conn hconn).trans (hlike.unresolved i)
  disconnected := by
    rw [hframe.disconnected]
    exact h.still_connected hlike.open_before hlike.open_after
  exited hexited := by
    rw [hframe.loop_exited] at hexited
    exact absurd hexited (h.not_exited hlike.open_before)

/-- One action, in stage and state. -/
structure Goes (connections : Nat) (st : Stage) (s : State) (st' : Stage) (t : State) : Prop where
  live : Live st' t
  left : st'.left connections + t.left + 1 = st.left connections + s.left

/-- The completions of messages sent that nobody has looked at. -/
def State.sent (s : State) : Nat := s.client.base.cq.count .send + s.server.base.cq.count .send

/-- The connections stay as they are; what counts is the token, the completions and the kernel
    thread. -/
theorem Live.goThread (h : Live st s) (hframe : Frame s t) (hlike : st.Like st')
    (hleft : st'.left connections + t.sent + t.client.app_thread.left + 1 =
      st.left connections + s.sent + s.client.app_thread.left) : Goes connections st s st' t where
  live := h.moved hframe hlike
  left := by
    rw [State.sent, State.sent] at hleft
    rw [State.left, State.left, hframe.conns, hframe.comm_threads, hframe.loop_exited]
    omega

theorem Live.go (h : Live st s) (hframe : Frame s t) (hlike : st.Like st')
    (hthread : t.client.app_thread = s.client.app_thread)
    (hleft : st'.left connections + t.sent + 1 = st.left connections + s.sent) :
    Goes connections st s st' t := by
  apply h.goThread hframe hlike
  rw [hthread]
  omega

variable {mr : MemoryRegion} {total_edges : Nat} {x : Message}

theorem Live.transmitToClient (h : Live st s)
    (hstep : step connections mr total_edges s (.transmitToClient x) = some t)
    (hmove : Stage.Step connections st (.transmitToClient x) st') :
    Goes connections st s st' t := by
  obtain ⟨-, hstep⟩ := Option.ite_none_right_eq_some.1 hstep
  obtain rfl := Option.some.inj hstep
  cases hmove with
  | @transmitToClient n _ hn _ =>
      cases n with
      | mr =>
          refine h.go ⟨id, rfl, rfl, rfl, rfl⟩ ⟨id, id, fun _ => Iff.rfl, trivial, trivial⟩ rfl ?_
          simp only [Stage.left, State.sent, Endpoint.transmit, List.count_append,
            List.count_singleton_self]
          omega
      | ready => exact absurd rfl hn
      | done =>
          refine h.go ⟨id, rfl, rfl, rfl, rfl⟩ ⟨id, id, fun _ => Iff.rfl, trivial, trivial⟩ rfl ?_
          simp only [Stage.left, State.sent, Endpoint.transmit, List.count_append,
            List.count_singleton_self]
          omega

theorem Live.transmitToServer (h : Live st s)
    (hstep : step connections mr total_edges s (.transmitToServer x) = some t)
    (hmove : Stage.Step connections st (.transmitToServer x) st') :
    Goes connections st s st' t := by
  obtain ⟨-, hstep⟩ := Option.ite_none_right_eq_some.1 hstep
  obtain rfl := Option.some.inj hstep
  cases hmove with
  | transmitToServer =>
      refine h.go ⟨id, rfl, rfl, rfl, rfl⟩ ⟨id, id, fun _ => Iff.rfl, trivial, trivial⟩ rfl ?_
      simp only [Stage.left, State.sent, Endpoint.transmit, List.count_append,
        List.count_singleton_self]
      omega

theorem Live.deliverToClient (h : Live st s)
    (hstep : step connections mr total_edges s (.deliverToClient x) = some t)
    (hmove : Stage.Step connections st (.deliverToClient x) st') : Goes connections st s st' t := by
  obtain ⟨-, hstep⟩ := Option.ite_none_right_eq_some.1 hstep
  obtain rfl := Option.some.inj hstep
  have hsame :
      (s.client.base.cq ++ [WcOpcode.recv]).count .send = s.client.base.cq.count .send := by
    simp
  cases hmove with
  | @deliverToClient n _ hn =>
      cases n with
      | mr =>
          refine h.go ⟨id, rfl, rfl, rfl, rfl⟩ ⟨id, id, fun _ => Iff.rfl, trivial, trivial⟩ rfl ?_
          simp only [Stage.left, State.sent, Endpoint.deliver, hsame]
          omega
      | ready => exact absurd rfl hn
      | done =>
          refine h.go ⟨id, rfl, rfl, rfl, rfl⟩ ⟨id, id, fun _ => Iff.rfl, trivial, trivial⟩ rfl ?_
          simp only [Stage.left, State.sent, Endpoint.deliver, hsame]
          omega

theorem Live.deliverToServer (h : Live st s)
    (hstep : step connections mr total_edges s (.deliverToServer x) = some t)
    (hmove : Stage.Step connections st (.deliverToServer x) st') : Goes connections st s st' t := by
  obtain ⟨-, hstep⟩ := Option.ite_none_right_eq_some.1 hstep
  obtain rfl := Option.some.inj hstep
  have hsame :
      (s.server.base.cq ++ [WcOpcode.recv]).count .send = s.server.base.cq.count .send := by
    simp
  cases hmove with
  | deliverToServer =>
      refine h.go ⟨id, rfl, rfl, rfl, rfl⟩ ⟨id, id, fun _ => Iff.rfl, trivial, trivial⟩ rfl ?_
      simp only [Stage.left, State.sent, Endpoint.deliver, hsame]
      omega

/-! ### Completions -/

/-- A completion that is taken is the first in the queue. -/
theorem count_send_head {cq : List WcOpcode} {opcode : WcOpcode} (h : cq.head? = some opcode) :
    cq.tail.count .send + (if opcode = .send then 1 else 0) = cq.count .send := by
  obtain ⟨rest, rfl⟩ := List.head?_eq_some_iff.1 h
  rw [List.tail_cons, List.count_cons]
  simp only [beq_iff_eq]

/-- Nothing happens but that a completion of a message sent is looked at. -/
theorem Live.sent (h : Live st s) (hframe : Frame s t)
    (hthread : t.client.app_thread = s.client.app_thread)
    (hleft : t.client.base.cq.count .send + t.server.base.cq.count .send + 1 =
      s.client.base.cq.count .send + s.server.base.cq.count .send) :
        Goes connections st s st t where
  live :=
    { app := hframe.app ∘ h.app
      unjoined := hframe.comm_threads ▸ h.unjoined
      known := hframe.conns ▸ h.known
      met := hframe.conns ▸ h.met
      base := hframe.conns ▸ h.base
      resolved := hframe.conns ▸ h.resolved
      disconnected := hframe.disconnected ▸ h.disconnected
      exited := hframe.loop_exited ▸ h.exited }
  left := by
    rw [State.left, State.left, hframe.conns, hframe.comm_threads, hframe.loop_exited, hthread]
    omega

theorem Live.clientPoll {opcode : WcOpcode} (h : Live st s)
    (hstep : step connections mr total_edges s (.clientPoll opcode) = some t)
    (hmove : Stage.Step connections st (.clientPoll opcode) st') : Goes connections st s st' t := by
  obtain ⟨⟨-, hhead⟩, hstep⟩ := Option.ite_none_right_eq_some.1 hstep
  obtain rfl := Option.some.inj hstep
  have hcount := count_send_head hhead
  cases hmove with
  | @clientPoll n hn =>
      rw [if_neg (by decide), Nat.add_zero] at hcount
      cases n with
      | mr =>
          refine h.go ⟨id, rfl, rfl, rfl, rfl⟩ ⟨id, id, fun _ => Iff.rfl, trivial, trivial⟩ rfl ?_
          simp only [Stage.left, State.sent, Endpoint.poll, hcount]
          omega
      | ready => exact absurd rfl hn
      | done =>
          refine h.go ⟨id, rfl, rfl, rfl, rfl⟩ ⟨id, id, fun _ => Iff.rfl, trivial, trivial⟩ rfl ?_
          simp only [Stage.left, State.sent, Endpoint.poll, hcount]
          omega
  | clientSent =>
      refine h.sent ⟨id, rfl, rfl, rfl, rfl⟩ rfl ?_
      rw [if_pos rfl] at hcount
      rw [Nat.add_right_comm]
      exact congrArg (· + s.server.base.cq.count .send) hcount

theorem Live.serverPoll {opcode : WcOpcode} (h : Live st s)
    (hstep : step connections mr total_edges s (.serverPoll opcode) = some t)
    (hmove : Stage.Step connections st (.serverPoll opcode) st') : Goes connections st s st' t := by
  obtain ⟨⟨-, hhead⟩, hstep⟩ := Option.ite_none_right_eq_some.1 hstep
  obtain rfl := Option.some.inj hstep
  have hcount := count_send_head hhead
  cases hmove with
  | serverPoll =>
      rw [if_neg (by decide), Nat.add_zero] at hcount
      refine h.go ⟨id, rfl, rfl, rfl, rfl⟩ ⟨id, id, fun _ => Iff.rfl, trivial, trivial⟩ rfl ?_
      simp only [Stage.left, State.sent, Endpoint.poll, hcount]
      omega
  | serverSent =>
      refine h.sent ⟨id, rfl, rfl, rfl, rfl⟩ rfl ?_
      rw [if_pos rfl] at hcount
      exact congrArg (s.client.base.cq.count .send + ·) hcount

/-! ### The threads -/

/-- What the server's threads do is no matter to the client and to the completions. -/
theorem ServerOp.exec_frame (op : ServerOp) (mr : MemoryRegion) (total_edges : Nat)
    (h : Frame s t) :
    Frame s (op.exec mr total_edges t) ∧ (op.exec mr total_edges t).sent = t.sent ∧
      (op.exec mr total_edges t).client.app_thread = t.client.app_thread := by
  cases op <;> exact ⟨⟨h.app, h.comm_threads, h.conns, h.disconnected, h.loop_exited⟩, rfl, rfl⟩

theorem Live.serverLoop {op : ServerOp} (h : Live st s)
    (hstep : step connections mr total_edges s (.serverLoop op) = some t)
    (hmove : Stage.Step connections st (.serverLoop op) st') : Goes connections st s st' t := by
  obtain ⟨rest, -, rfl⟩ := step_serverLoop_inv hstep
  obtain ⟨hframe, hsent, hthread⟩ :=
    op.exec_frame mr total_edges (s := s) (t := { s with server.event_loop := rest })
      ⟨id, rfl, rfl, rfl, rfl⟩
  have hsame : State.sent { s with server.event_loop := rest } = s.sent := rfl
  cases hmove with
  | offer =>
      refine h.go hframe ⟨id, id, fun _ => Iff.rfl, trivial, trivial⟩ hthread ?_
      rw [hsent, hsame]
      simp only [Stage.left, List.length_cons]
      omega
  | offered =>
      refine h.go hframe ⟨id, id, fun _ => Iff.rfl, trivial, trivial⟩ hthread ?_
      rw [hsent, hsame]
      simp only [Stage.left, List.length_singleton]
      omega

theorem Live.server {op : ServerOp} (h : Live st s)
    (hstep : step connections mr total_edges s (.server op) = some t)
    (hmove : Stage.Step connections st (.server op) st') : Goes connections st s st' t := by
  obtain ⟨rest, -, rfl⟩ := step_server_inv hstep
  obtain ⟨hframe, hsent, hthread⟩ :=
    op.exec_frame mr total_edges (s := s) (t := { s with server.poller := rest })
      ⟨id, rfl, rfl, rfl, rfl⟩
  have hsame : State.sent { s with server.poller := rest } = s.sent := rfl
  cases hmove with
  | serverDispatch =>
      refine h.go hframe ⟨id, id, fun _ => Iff.rfl, trivial, trivial⟩ hthread ?_
      rw [hsent, hsame]
      simp only [Stage.left, serverOnCompletion, List.length_cons, List.length_nil]
      omega
  | answer =>
      refine h.go hframe ⟨id, id, fun _ => Iff.rfl, trivial, trivial⟩ hthread ?_
      rw [hsent, hsame]
      simp only [Stage.left, List.length_cons]
      omega
  | answered =>
      refine h.go hframe ⟨id, id, fun _ => Iff.rfl, trivial, trivial⟩ hthread ?_
      rw [hsent, hsame]
      simp only [Stage.left, List.length_singleton]
      omega

/-- What the kernel thread does to the rest of the client. -/
theorem KernelOp.exec_frame {op : KernelOp} {rest : List KernelOp}
    (hexec : op.exec { s with client.app_thread := .running rest } = some t) :
    Frame s t ∧ t.sent = s.sent ∧ t.client.app_thread = .running rest := by
  cases op with
  | setShouldStop =>
      simp only [KernelOp.exec] at hexec
      split at hexec
      · cases hexec
        exact ⟨⟨fun _ => rfl, rfl, rfl, rfl, rfl⟩, rfl, rfl⟩
      · cases hexec
  | compute | setId _ | sendMessage =>
      cases hexec
      exact ⟨⟨id, rfl, rfl, rfl, rfl⟩, rfl, rfl⟩

theorem step_kernel_inv {op : KernelOp}
    (hstep : step connections mr total_edges s (.kernel op) = some t) :
    ∃ rest, s.client.app_thread = .running (op :: rest) ∧
      op.exec { s with client.app_thread := .running rest } = some t := by
  simp only [step] at hstep
  split at hstep
  · rename_i op' rest hthread
    split at hstep
    · rename_i hsame
      exact ⟨rest, hsame ▸ hthread, hsame ▸ hstep⟩
    · cases hstep
  · cases hstep

theorem Live.kernelOp {op : KernelOp} (h : Live st s) (hat : At connections m st s)
    (hstep : step connections mr total_edges s (.kernel op) = some t)
    (hmove : Stage.Step connections st (.kernel op) st') : Goes connections st s st' t := by
  obtain ⟨left, hthread, hexec⟩ := step_kernel_inv hstep
  obtain ⟨hframe, hsent, hafter⟩ := KernelOp.exec_frame hexec
  have hkernel := hat.kernel
  rw [hthread] at hkernel
  cases hmove with
  | @run _ rest hrest =>
      obtain rfl : left = rest := (List.cons.inj hkernel).2
      refine h.goThread hframe ⟨id, id, fun _ => Iff.rfl, trivial, trivial⟩ ?_
      rw [hsent, hafter, hthread]
      obtain ⟨next, later, rfl⟩ := List.exists_cons_of_ne_nil hrest
      simp only [Stage.left, AppThread.left, List.length_cons]
      omega
  | ran =>
      obtain rfl : left = [] := (List.cons.inj hkernel).2
      refine h.goThread hframe ⟨id, id, fun _ => Iff.rfl, trivial, trivial⟩ ?_
      rw [hsent, hafter, hthread]
      simp only [Stage.left, AppThread.left, List.length_singleton]
      omega

/-- The threads of the client return. -/
theorem Live.kernelReturn (h : Live st s)
    (hstep : step connections mr total_edges s .kernelReturn = some t) :
    Goes connections st s st t := by
  obtain ⟨hthread, hstep⟩ := Option.ite_none_right_eq_some.1 hstep
  obtain rfl := Option.some.inj hstep
  refine ⟨{ h with }, ?_⟩
  rw [State.left, State.left, hthread]
  simp only [AppThread.left]
  omega

theorem Live.commReturn {i : Nat} (h : Live st s)
    (hstep : step connections mr total_edges s (.commReturn i) = some t) :
    Goes connections st s st t := by
  obtain ⟨hpolling, hstep⟩ := Option.ite_none_right_eq_some.1 hstep
  obtain rfl := Option.some.inj hstep
  obtain ⟨hi, hget⟩ := List.getElem?_eq_some_iff.1 hpolling
  have hcount : (s.client.comm_threads.set i .exited).count .polling + 1 =
      s.client.comm_threads.count .polling := by
    have hpos : 0 < s.client.comm_threads.count .polling :=
      List.count_pos_iff.2 (List.mem_of_getElem? hpolling)
    rw [List.count_set hi, hget]
    simp only [beq_self_eq_true, if_true]
    simp
    omega
  refine ⟨{ h with unjoined := ?_ }, ?_⟩
  · intro hunjoined hmem
    cases List.mem_or_eq_of_mem_set hmem with
    | inl hbefore => exact h.unjoined hunjoined hbefore
    | inr heq => cases heq
  · rw [State.left, State.left]
    simp only
    omega

/-! ### The client's poller -/

/-- The operations that only concern the poller's own data. -/
def ClientOp.Own : ClientOp → Prop
  | .createApp => False
  | .resolveAddr _ => False
  | .startComm => False
  | _ => True

section Preparing

variable {op : ClientOp} {rest : List ClientOp}

theorem Stage.left_tail (hop : op ≠ .startComm) :
    (Stage.preparing rest).left connections + 1 =
      (Stage.preparing (op :: rest)).left connections := by
  have hmem : (.startComm ∈ op :: rest) ↔ .startComm ∈ rest := by simp [hop.symm]
  simp only [Stage.left, hmem, List.length_cons]
  omega

theorem Stage.like_tail (hown : op.Own) :
    (Stage.preparing (op :: rest)).Like (.preparing rest) where
  app := by
    have hcreate : .createApp ≠ op := by
      intro heq
      cases heq
      exact hown
    simp [Stage.HasApp, hcreate]
  unjoined := id
  unresolved i := by
    have hresolve : .resolveAddr i ≠ op := by
      intro heq
      cases heq
      exact hown
    simp [Stage.Unresolved, hresolve]
  open_before := trivial
  open_after := trivial

theorem Live.prepareOwn (h : Live (.preparing (op :: rest)) s) (hframe : Frame s t) (hown : op.Own)
    (hthread : t.client.app_thread = s.client.app_thread) (hsent : t.sent = s.sent) :
    Goes connections (.preparing (op :: rest)) s (.preparing rest) t := by
  have hcomm : op ≠ .startComm := fun heq => (heq ▸ hown : ClientOp.Own .startComm)
  apply h.go hframe (Stage.like_tail hown) hthread
  rw [hsent, ← Stage.left_tail hcomm]
  omega

/-- The application object is made. -/
theorem Live.prepareApp {app : Application} (h : Live (.preparing (.createApp :: rest)) s) :
    Goes connections (.preparing (.createApp :: rest)) s (.preparing rest)
      { s with client.poller := rest, client.app := some app } where
  live :=
    { h with
      app := fun _ => rfl
      unjoined := h.unjoined
      resolved := fun i conn hconn => (h.resolved i conn hconn).trans (by simp [Stage.Unresolved])
      disconnected := h.still_connected trivial trivial
      exited := fun hexited => absurd hexited (h.not_exited trivial) }
  left := by
    have htail : (Stage.preparing rest).left connections + 1 =
        (Stage.preparing (.createApp :: rest)).left connections := Stage.left_tail (by simp)
    simp only [State.left]
    omega

/-- The next connection is set going. -/
theorem Live.prepareResolve {i : Nat} {conn : Conn}
    (h : Live (.preparing (.resolveAddr i :: rest)) s) (hnot : .resolveAddr i ∉ rest)
    (hconn : s.conns[i + 1]? = some conn) (hcreated : conn.client = .created) :
    Goes connections (.preparing (.resolveAddr i :: rest)) s (.preparing rest)
      { s with
        client.poller := rest
        conns := s.conns.set (i + 1) { conn with client := .addrResolving } } where
  live :=
    { app := fun hcreate => h.app (by simpa [Stage.HasApp] using hcreate)
      unjoined := h.unjoined
      known := by
        intro other hother hup
        cases List.mem_or_eq_of_mem_set hother with
        | inl hmem => exact h.known other hmem hup
        | inr heq => simp [heq] at hup
      met := by
        intro other hother hmet
        cases List.mem_or_eq_of_mem_set hother with
        | inl hmem => exact h.met other hmem hmet
        | inr heq => simp [heq]
      base := by
        intro other hother
        rw [List.getElem?_set_ne (Nat.succ_ne_zero i)] at hother
        exact h.base other hother
      resolved := by
        intro j other hother
        by_cases hj : i = j
        · subst hj
          rw [List.getElem?_set_self (List.getElem?_eq_some_iff.1 hconn).1] at hother
          cases hother
          exact iff_of_false (by simp) hnot
        · rw [List.getElem?_set_ne fun heq => hj (Nat.succ.inj heq)] at hother
          rw [h.resolved j other hother]
          simp [Stage.Unresolved, Ne.symm hj]
      disconnected := h.still_connected trivial trivial
      exited := fun hexited => absurd hexited (h.not_exited trivial) }
  left := by
    have hsum := sum_left_set { conn with client := .addrResolving } hconn
    have hsame : Conn.left { conn with client := .addrResolving } = conn.left := by
      rw [Conn.left, Conn.left, hcreated]
      rfl
    rw [hsame] at hsum
    have htail : (Stage.preparing rest).left connections + 1 =
        (Stage.preparing (.resolveAddr i :: rest)).left connections := Stage.left_tail (by simp)
    simp only [State.left]
    omega

/-- The polling thread is started. -/
theorem Live.prepareComm (h : Live (.preparing (.startComm :: rest)) s) (hnot : .startComm ∉ rest) :
    Goes connections (.preparing (.startComm :: rest)) s (.preparing rest)
      { s with
        client.poller := rest
        client.comm_threads := s.client.comm_threads ++ [.polling] } where
  live :=
    { h with
      app := fun hcreate => h.app (by simpa [Stage.HasApp] using hcreate)
      unjoined := fun _ => by simpa using h.unjoined trivial
      resolved := fun i conn hconn => (h.resolved i conn hconn).trans (by simp [Stage.Unresolved])
      disconnected := h.still_connected trivial trivial
      exited := fun hexited => absurd hexited (h.not_exited trivial) }
  left := by
    simp only [State.left, Stage.left, if_pos List.mem_cons_self, if_neg hnot, List.length_cons,
      List.count_append, List.count_singleton_self]
    omega

theorem Live.prepare (h : Live (.preparing (op :: rest)) s)
    (hleft : Program.Left (onCompletion connections .mr) (op :: rest)) (hrest : rest ≠ [])
    (hexec : op.exec connections { s with client.poller := rest } = some t) :
    Goes connections (.preparing (op :: rest)) s (.preparing rest) t := by
  have hnot : op ∉ rest := hleft.not_mem (nodup_onCompletion _)
  have hop := hleft.suffix.mem List.mem_cons_self
  cases op with
  | setPeerAddr | setPeerRkey | setNumEdges | postReceive =>
      cases hexec
      exact h.prepareOwn ⟨id, rfl, rfl, rfl, rfl⟩ trivial rfl rfl
  | createApp =>
      cases hexec
      exact h.prepareApp
  | resolveAddr i =>
      simp only [ClientOp.exec] at hexec
      split at hexec
      · rename_i conn hconn
        split at hexec
        · rename_i hcreated
          cases hexec
          exact h.prepareResolve hnot hconn hcreated
        · cases hexec
      · cases hexec
  | awaitConnections =>
      simp only [ClientOp.exec] at hexec
      split at hexec
      · cases hexec
      · cases hexec
        exact h.prepareOwn ⟨id, rfl, rfl, rfl, rfl⟩ trivial rfl rfl
  | startComm =>
      cases hexec
      exact h.prepareComm hnot
  | startKernel =>
      exact absurd (hleft.eq_nil_of_last (nodup_onCompletion _) getLast?_onCompletion_mr) hrest
  | dispatch | joinApp | joinComm | disconnect => simp [onCompletion] at hop

end Preparing

/-- The kernel thread is started. -/
theorem Live.prepared {poller : List ClientOp} (h : Live (.preparing [.startKernel]) s)
    (hthread : s.client.app_thread = .notStarted) :
    Goes connections (.preparing [.startKernel]) s (.running runKernel)
      { s with client.poller := poller, client.app_thread := .running runKernel } where
  live :=
    { h with
      app := fun _ => h.app (by simp [Stage.HasApp])
      unjoined := h.unjoined
      resolved := fun i conn hconn => (h.resolved i conn hconn).trans (by simp [Stage.Unresolved])
      disconnected := h.still_connected trivial trivial
      exited := fun hexited => absurd hexited (h.not_exited trivial) }
  left := by
    simp only [State.left, Stage.left, hthread, runKernel, AppThread.left, List.length_cons,
      List.length_nil, List.mem_singleton, reduceCtorEq, if_false]
    omega

/-- The poller looks at `MSG_MR`. -/
theorem Live.dispatch (h : Live (.taken .mr) s) (hlength : s.conns.length = connections + 1) :
    Goes connections (.taken .mr) s (.preparing (onCompletion connections .mr))
      { s with client.poller := onCompletion connections .mr } where
  live :=
    { h with
      app := fun hcreate => absurd (by simp [onCompletion]) hcreate
      unjoined := h.unjoined
      resolved := by
        intro i conn hconn
        have hi : i < connections := by
          have hlt : i + 1 < s.conns.length := (List.getElem?_eq_some_iff.1 hconn).1
          omega
        have hmem : ClientOp.resolveAddr i ∈ onCompletion connections .mr := by
          simp [onCompletion, hi]
        exact (h.resolved i conn hconn).trans (iff_of_true trivial hmem)
      disconnected := h.still_connected trivial trivial
      exited := fun hexited => absurd hexited (h.not_exited trivial) }
  left := by
    have hmem : ClientOp.startComm ∈ onCompletion connections .mr := by simp [onCompletion]
    have hlength : (onCompletion connections .mr).length = 8 + connections := by
      simp [onCompletion]
      omega
    simp only [State.left, Stage.left, if_pos hmem, hlength]
    omega

/-- The poller looks at `MSG_DONE`. -/
theorem Live.dispatchDone {poller : List ClientOp} (h : Live (.taken .done) s) :
    Goes connections (.taken .done) s (.closing (onCompletion connections .done))
      { s with client.poller := poller } where
  live :=
    { h with
      app := fun _ => h.app trivial
      unjoined := fun _ => h.unjoined trivial
      disconnected := h.still_connected trivial trivial
      exited := fun hexited => absurd hexited (h.not_exited trivial) }
  left := by
    simp only [State.left, Stage.left, onCompletion, List.length_cons, List.length_nil]
    omega

/-- The kernel thread is joined. -/
theorem Live.closeApp {rest : List ClientOp} (h : Live (.closing (.joinApp :: rest)) s)
    (hthread : s.client.app_thread = .exited) :
    Goes connections (.closing (.joinApp :: rest)) s (.closing rest)
      { s with client.poller := rest, client.app_thread := .joined } where
  live :=
    { h with
      app := fun _ => h.app trivial
      unjoined := fun hjoin => h.unjoined (List.mem_cons_of_mem _ hjoin)
      disconnected := h.still_connected trivial trivial
      exited := fun hexited => absurd hexited (h.not_exited trivial) }
  left := by
    simp only [State.left, Stage.left, hthread, AppThread.left, List.length_cons]
    omega

/-- The polling thread is joined. -/
theorem Live.closeComm {rest : List ClientOp} (h : Live (.closing (.joinComm :: rest)) s)
    (hnot : .joinComm ∉ rest) (hexited : ∀ thread ∈ s.client.comm_threads, thread = .exited) :
    Goes connections (.closing (.joinComm :: rest)) s (.closing rest)
      { s with
        client.poller := rest
        client.comm_threads := s.client.comm_threads.map fun _ => .joined } where
  live :=
    { h with
      app := fun _ => h.app trivial
      unjoined := fun hjoin => absurd hjoin hnot
      disconnected := h.still_connected trivial trivial
      exited := fun hexited => absurd hexited (h.not_exited trivial) }
  left := by
    have hbefore : s.client.comm_threads.count .polling = 0 := by
      rw [List.count_eq_zero]
      intro hmem
      have hsame := hexited _ hmem
      cases hsame
    have hafter : (s.client.comm_threads.map fun _ => CommThread.joined).count .polling = 0 := by
      rw [List.count_eq_zero]
      simp
    simp only [State.left, Stage.left, hbefore, hafter, List.length_cons]
    omega

/-- The client disconnects. -/
theorem Live.closed {poller : List ClientOp} (h : Live (.closing [.disconnect]) s) :
    Goes connections (.closing [.disconnect]) s .closed
      { s with client.poller := poller, client.disconnected := true } where
  live :=
    { h with
      app := fun _ => h.app trivial
      unjoined := False.elim
      disconnected := iff_of_true rfl rfl
      exited := fun hexited => absurd hexited (h.not_exited trivial) }
  left := by
    simp only [State.left, Stage.left, List.length_singleton]
    omega

theorem Live.close {op : ClientOp} {rest : List ClientOp} (h : Live (.closing (op :: rest)) s)
    (hleft : Program.Left (onCompletion connections .done) (op :: rest)) (hrest : rest ≠ [])
    (hexec : op.exec connections { s with client.poller := rest } = some t) :
    Goes connections (.closing (op :: rest)) s (.closing rest) t := by
  have hnot : op ∉ rest := hleft.not_mem (nodup_onCompletion _)
  have hop := hleft.suffix.mem List.mem_cons_self
  cases op with
  | joinApp =>
      simp only [ClientOp.exec] at hexec
      split at hexec
      · rename_i hthread
        cases hexec
        exact h.closeApp hthread
      · cases hexec
  | joinComm =>
      simp only [ClientOp.exec] at hexec
      split at hexec
      · rename_i hexited
        cases hexec
        exact h.closeComm hnot hexited
      · cases hexec
  | disconnect => exact absurd (hleft.eq_nil_of_last (nodup_onCompletion _) rfl) hrest
  | dispatch | setPeerAddr | setPeerRkey | setNumEdges | postReceive | createApp | resolveAddr _
  | awaitConnections | startComm | startKernel => simp [onCompletion] at hop

theorem Live.clientOp {op : ClientOp} (h : Live st s) (hat : At connections m st s)
    (hm : m.id = .mr) (hstep : step connections mr total_edges s (.client op) = some t)
    (hmove : Stage.Step connections st (.client op) st') : Goes connections st s st' t := by
  obtain ⟨rest', hpoller, hexec⟩ := step_client_inv hstep
  have hrest := hat.client_poller.symm.trans hpoller
  cases hmove with
  | clientDispatch =>
      cases hexec
      have hid : s.client.base.rx_msg.id = .mr := (congrArg Message.id hat.holds).trans hm
      simp only [hid]
      exact h.dispatch hat.fabric.length
  | prepare hne =>
      obtain rfl := (List.cons.inj hrest).2
      exact h.prepare hat.program hne hexec
  | prepared =>
      have hthread : s.client.app_thread = .notStarted := hat.thread
      simp only [ClientOp.exec, hthread, Option.some.injEq] at hexec
      subst hexec
      exact h.prepared hthread
  | clientDispatchDone =>
      cases hexec
      exact h.dispatchDone
  | close hne =>
      obtain rfl := (List.cons.inj hrest).2
      exact h.close hat.program hne hexec
  | closed =>
      cases hexec
      exact h.closed

/-! ### The connection manager -/

/-- A connection moves on by one event. -/
theorem Live.setConn {i : Nat} {conn conn' : Conn} (h : Live st s) (hconn : s.conns[i]? = some conn)
    (hbefore : conn.client ≠ .created) (hafter : conn'.client ≠ .created)
    (hknown : conn'.client = .established → conn'.server ≠ .idle)
    (happ : t.client.app = s.client.app) (hcomm : t.client.comm_threads = s.client.comm_threads)
    (hdisconnected : t.client.disconnected = s.client.disconnected)
    (hexited : t.client.loop_exited = s.client.loop_exited)
    (hconns : t.conns = s.conns.set i conn') :
    Live st t where
  app := happ ▸ h.app
  unjoined := hcomm ▸ h.unjoined
  known := by
    intro other hother
    rw [hconns] at hother
    cases List.mem_or_eq_of_mem_set hother with
    | inl hmem => exact h.known other hmem
    | inr heq => exact heq ▸ hknown
  met := by
    intro other hother hmet
    rw [hconns] at hother
    cases List.mem_or_eq_of_mem_set hother with
    | inl hmem => exact h.met other hmem hmet
    | inr heq => exact heq ▸ hafter
  base := by
    intro other hother
    rw [hconns] at hother
    by_cases hi : i = 0
    · subst hi
      rw [List.getElem?_set_self (List.getElem?_eq_some_iff.1 hconn).1] at hother
      cases hother
      exact hafter
    · rw [List.getElem?_set_ne hi] at hother
      exact h.base other hother
  resolved := by
    intro j other hother
    rw [hconns] at hother
    by_cases hj : i = j + 1
    · subst hj
      rw [List.getElem?_set_self (List.getElem?_eq_some_iff.1 hconn).1] at hother
      cases hother
      rw [← h.resolved j conn hconn]
      exact iff_of_false hafter hbefore
    · rw [List.getElem?_set_ne hj] at hother
      exact h.resolved j other hother
  disconnected := hdisconnected ▸ h.disconnected
  exited := hexited ▸ h.exited

/-- What an event of a connection leaves alone. -/
structure EventFrame (s t : State) : Prop where
  app : t.client.app = s.client.app
  app_thread : t.client.app_thread = s.client.app_thread
  comm_threads : t.client.comm_threads = s.client.comm_threads
  disconnected : t.client.disconnected = s.client.disconnected
  loop_exited : t.client.loop_exited = s.client.loop_exited
  client_cq : t.client.base.cq = s.client.base.cq
  server_cq : t.server.base.cq = s.server.base.cq
  conns : t.conns = s.conns

theorem clientPreConn_frame (i : Nat) (s : State) : EventFrame s (clientPreConn i s) := by
  rw [clientPreConn]
  split
  · exact ⟨rfl, rfl, rfl, rfl, rfl, rfl, rfl, rfl⟩
  · split
    · exact ⟨rfl, rfl, rfl, rfl, rfl, rfl, rfl, rfl⟩
    · exact ⟨rfl, rfl, rfl, rfl, rfl, rfl, rfl, rfl⟩

theorem serverPreConn_frame (i : Nat) (s : State) : EventFrame s (serverPreConn i s) := by
  rw [serverPreConn]
  split
  · exact ⟨rfl, rfl, rfl, rfl, rfl, rfl, rfl, rfl⟩
  · split
    · exact ⟨rfl, rfl, rfl, rfl, rfl, rfl, rfl, rfl⟩
    · exact ⟨rfl, rfl, rfl, rfl, rfl, rfl, rfl, rfl⟩

theorem serverConnect_frame (i : Nat) (s : State) : EventFrame s (serverConnect i s) := by
  rw [serverConnect]
  split
  · exact ⟨rfl, rfl, rfl, rfl, rfl, rfl, rfl, rfl⟩
  · split
    · exact ⟨rfl, rfl, rfl, rfl, rfl, rfl, rfl, rfl⟩
    · exact ⟨rfl, rfl, rfl, rfl, rfl, rfl, rfl, rfl⟩

/-- A connection that moves on by one event has one event less to come. -/
theorem Live.event {i : Nat} {conn : Conn} (conn' : Conn) (h : Live st s)
    (hconn : s.conns[i]? = some conn) (hbefore : conn.client ≠ .created)
    (hafter : conn'.client ≠ .created) (hknown : conn'.client = .established → conn'.server ≠ .idle)
    (hless : conn'.left + 1 = conn.left)
    (hframe : EventFrame { s with conns := s.conns.set i conn' } t)
    (hstage : st'.left connections = st.left connections) (hlive : Live st t → Live st' t) :
    Goes connections st s st' t where
  live := hlive (h.setConn hconn hbefore hafter hknown hframe.app hframe.comm_threads
    hframe.disconnected hframe.loop_exited hframe.conns)
  left := by
    have hsum := sum_left_set conn' hconn
    have hconns : t.conns = s.conns.set i conn' := hframe.conns
    rw [hstage, State.left, State.left, hconns, hframe.app_thread, hframe.comm_threads,
      hframe.loop_exited, hframe.client_cq, hframe.server_cq]
    dsimp only
    omega

theorem Live.clientEvent {event : CmEventType} {i : Nat} (h : Live st s)
    (hstep : step connections mr total_edges s (.clientEvent event i) = some t) :
    Goes connections st s st t := by
  simp only [step, Session.clientEvent] at hstep
  split at hstep
  · cases hstep
  rename_i hrunning
  split at hstep
  · cases hstep
  rename_i conn hconn
  split at hstep
  · rename_i hphase
    cases hstep
    exact h.event { conn with client := .routeResolving } hconn (by simp [hphase]) (by simp)
      (by simp) (by simp [Conn.left, hphase]; omega) (clientPreConn_frame i _) rfl id
  · rename_i hphase
    cases hstep
    exact h.event { conn with client := .connecting } hconn (by simp [hphase]) (by simp) (by simp)
      (by simp [Conn.left, hphase]; omega) ⟨rfl, rfl, rfl, rfl, rfl, rfl, rfl, rfl⟩ rfl id
  · rename_i hphase
    split at hstep
    · cases hstep
    · rename_i hserver
      cases hstep
      exact h.event { conn with client := .established } hconn (by simp [hphase]) (by simp)
        (fun _ => hserver) (by simp [Conn.left, hphase]; omega)
        ⟨rfl, rfl, rfl, rfl, rfl, rfl, rfl, rfl⟩ rfl id
  · split at hstep
    · rename_i hdisconnected
      cases hstep
      refine ⟨{ h with exited := fun _ => h.disconnected.1 hdisconnected.1 }, ?_⟩
      simp only [State.left, if_neg hrunning, if_true]
      omega
    · cases hstep
  · cases hstep

theorem Live.serverEvent {event : CmEventType} {i : Nat} (h : Live st s)
    (hstep : step connections mr total_edges s (.serverEvent event i) = some t)
    (hmove : Stage.Step connections st (.serverEvent event i) st') :
    Goes connections st s st' t := by
  -- the first event of the first connection moves the token, which changes nothing here
  have hstage : st'.left connections = st.left connections ∧ (Live st t → Live st' t) := by
    cases hmove with
    | connect =>
        refine ⟨by simp [Stage.left, serverOnConnection]; omega, fun hlive => ?_⟩
        exact
          { hlive with
            app := False.elim
            unjoined := hlive.unjoined
            disconnected := hlive.still_connected trivial trivial
            exited := fun hexited => absurd hexited (hlive.not_exited trivial) }
    | serverEvent => exact ⟨rfl, id⟩
  simp only [step, Session.serverEvent] at hstep
  split at hstep
  · cases hstep
  split at hstep
  · cases hstep
  rename_i conn hconn
  split at hstep
  · rename_i hclient hserver
    cases hstep
    exact h.event { conn with server := .accepted } hconn (by simp [hclient]) (by simp [hclient])
      (by simp) (by simp [Conn.left, hserver]) (serverPreConn_frame i _) hstage.1 hstage.2
  · rename_i hserver
    cases hstep
    have hmet : conn.client ≠ .created :=
      h.met conn (List.mem_of_getElem? hconn) (by simp [hserver])
    exact h.event { conn with server := .established } hconn hmet hmet (by simp)
      (by simp [Conn.left, hserver]) (serverConnect_frame i _) hstage.1 hstage.2
  · cases hstep

/-- Every action takes one from what is left, but an RDMA read. -/
theorem Live.next {a : Action} (h : Live st s) (hat : At connections m st s)
    (hm : m = ⟨.mr, mr.addr, mr.rkey, total_edges⟩)
    (hstep : step connections mr total_edges s a = some t)
    (hmove : Stage.Step connections st a st') :
    Live st' t ∧ st'.left connections + t.left + (if a ≠ .rdmaRead then 1 else 0) =
      st.left connections + s.left := by
  have hread : a = .rdmaRead ∨ Goes connections st s st' t := by
    cases a with
    | rdmaRead => exact .inl rfl
    | clientEvent event i =>
        cases hmove
        exact .inr (h.clientEvent hstep)
    | serverEvent event i => exact .inr (h.serverEvent hstep hmove)
    | clientPoll opcode => exact .inr (h.clientPoll hstep hmove)
    | serverPoll opcode => exact .inr (h.serverPoll hstep hmove)
    | client op => exact .inr (h.clientOp hat (by rw [hm]) hstep hmove)
    | serverLoop op => exact .inr (h.serverLoop hstep hmove)
    | server op => exact .inr (h.server hstep hmove)
    | kernel op => exact .inr (h.kernelOp hat hstep hmove)
    | kernelReturn =>
        cases hmove
        exact .inr (h.kernelReturn hstep)
    | commReturn i =>
        cases hmove
        exact .inr (h.commReturn hstep)
    | transmitToClient x => exact .inr (h.transmitToClient hstep hmove)
    | transmitToServer x => exact .inr (h.transmitToServer hstep hmove)
    | deliverToClient x => exact .inr (h.deliverToClient hstep hmove)
    | deliverToServer x => exact .inr (h.deliverToServer hstep hmove)
  by_cases ha : a = .rdmaRead
  · subst ha
    have hsame : t = s := by
      simp only [step] at hstep
      split at hstep
      · exact (Option.some.inj hstep).symm
      · cases hstep
    cases hmove
    exact ⟨hsame ▸ h, by rw [hsame]; rfl⟩
  · have hgoes := hread.resolve_left ha
    rw [if_pos ha]
    exact ⟨hgoes.live, hgoes.left⟩

/-- What has happened and what is left make the same number in every reachable state. -/
theorem exists_live {s : State} {trace : List Action}
    (h : (session connections mr total_edges).Reachable (s, trace)) :
    ∃ st, At connections ⟨.mr, mr.addr, mr.rkey, total_edges⟩ st s ∧ Live st s ∧
      trace.countP (· ≠ .rdmaRead) + (st.left connections + s.left) = 44 + 6 * connections := by
  apply TransitionSystem.Reachable.induct (I := fun p : State × List Action =>
    ∃ st, At connections ⟨.mr, mr.addr, mr.rkey, total_edges⟩ st p.1 ∧ Live st p.1 ∧
      p.2.countP (· ≠ .rdmaRead) + (st.left connections + p.1.left) = 44 + 6 * connections) _ _ h
  · intro p hinit
    obtain ⟨s, trace⟩ := p
    obtain ⟨⟨garbage, peer_addr, peer_rkey, rfl⟩, rfl⟩ := hinit
    exact ⟨.connecting, at_start garbage peer_addr peer_rkey,
      live_start garbage peer_addr peer_rkey, by
      simp only [left_start, List.countP_nil, Nat.zero_add]⟩
  · intro p q _ hp hq
    obtain ⟨s, trace⟩ := p
    obtain ⟨t, trace'⟩ := q
    obtain ⟨st, hat, hlive, hcount⟩ := hp
    obtain ⟨a, hstep, rfl⟩ := hq
    obtain ⟨st', hmove, hat'⟩ := hat.next rfl hstep
    obtain ⟨hlive', hleft⟩ := hlive.next hat rfl hstep hmove
    refine ⟨st', hat', hlive', ?_⟩
    rw [List.countP_append, List.countP_singleton]
    simp only [ne_eq, decide_not, Bool.not_eq_eq_eq_not, Bool.not_true,
      decide_eq_false_iff_not] at hcount hleft ⊢
    omega

/-! ### Something can always happen -/

/-- Something can happen that brings the session on. A polling thread is only counted on to return
    once `should_stop` is set. -/
def Can (connections : Nat) (mr : MemoryRegion) (total_edges : Nat) (s : State) : Prop :=
  ∃ a t, a ≠ .rdmaRead ∧
    (∀ i, a = .commReturn i → ∃ app, s.client.app = some app ∧ app.should_stop = true) ∧
      step connections mr total_edges s a = some t

/-- The actions that wait for nothing and bring the session on. -/
def Action.Prompt : Action → Prop
  | .rdmaRead => False
  | .commReturn _ => False
  | _ => True

theorem Can.of_step {a : Action} (ha : a.Prompt)
    (h : step connections mr total_edges s a = some t) :
    Can connections mr total_edges s := by
  refine ⟨a, t, ?_, ?_, h⟩
  · intro heq
    subst heq
    exact ha
  · intro i heq
    subst heq
    exact ha.elim

theorem can_serverLoop {op : ServerOp} {rest : List ServerOp}
    (h : s.server.event_loop = op :: rest) :
    Can connections mr total_edges s := by
  apply Can.of_step (a := .serverLoop op) trivial
  exact if_pos (by rw [h, List.head?_cons])

theorem can_server {op : ServerOp} {rest : List ServerOp} (h : s.server.poller = op :: rest) :
    Can connections mr total_edges s := by
  apply Can.of_step (a := .server op) trivial
  exact if_pos (by rw [h, List.head?_cons])

theorem can_client {op : ClientOp} {rest : List ClientOp} (h : s.client.poller = op :: rest)
    (hexec : ∃ t, op.exec connections { s with client.poller := rest } = some t) :
    Can connections mr total_edges s := by
  obtain ⟨t, ht⟩ := hexec
  apply Can.of_step (a := .client op) (t := t) trivial
  rw [step, if_pos (by rw [h, List.head?_cons]), h, List.tail_cons]
  exact ht

theorem can_kernel {op : KernelOp} {rest : List KernelOp}
    (h : s.client.app_thread = .running (op :: rest)) (happ : s.client.app.isSome = true) :
    Can connections mr total_edges s := by
  obtain ⟨app, happ⟩ := Option.isSome_iff_exists.1 happ
  have hexec : ∃ t, op.exec { s with client.app_thread := .running rest } = some t := by
    cases op with
    | setShouldStop => exact ⟨_, by simp only [KernelOp.exec, happ]; rfl⟩
    | compute | setId _ | sendMessage => exact ⟨_, rfl⟩
  obtain ⟨t, ht⟩ := hexec
  apply Can.of_step (a := .kernel op) (t := t) trivial
  simp only [step, h, if_true]
  exact ht

theorem can_transmitToClient (h : s.server.base.sends = 1) : Can connections mr total_edges s := by
  apply Can.of_step (a := .transmitToClient s.server.base.tx_msg) trivial
  exact if_pos ⟨by rw [h]; exact Nat.one_pos, rfl⟩

theorem can_transmitToServer (h : s.client.base.sends = 1) : Can connections mr total_edges s := by
  apply Can.of_step (a := .transmitToServer s.client.base.tx_msg) trivial
  exact if_pos ⟨by rw [h]; exact Nat.one_pos, rfl⟩

theorem can_deliverToClient (h : s.toClient.length = 1) (hreceives : s.client.base.receives = 1) :
    Can connections mr total_edges s := by
  obtain ⟨x, hx⟩ := List.length_eq_one_iff.1 h
  apply Can.of_step (a := .deliverToClient x) trivial
  exact if_pos ⟨by rw [hreceives]; exact Nat.one_pos, by rw [hx]; rfl⟩

theorem can_deliverToServer (h : s.toServer.length = 1) (hreceives : s.server.base.receives = 1) :
    Can connections mr total_edges s := by
  obtain ⟨x, hx⟩ := List.length_eq_one_iff.1 h
  apply Can.of_step (a := .deliverToServer x) trivial
  exact if_pos ⟨by rw [hreceives]; exact Nat.one_pos, by rw [hx]; rfl⟩

theorem can_clientPoll {opcode : WcOpcode} (hidle : s.client.poller = [])
    (h : 0 < s.client.base.cq.count opcode) : Can connections mr total_edges s := by
  obtain ⟨first, rest, hcq⟩ :=
    List.exists_cons_of_ne_nil (List.ne_nil_of_mem (List.count_pos_iff.1 h))
  apply Can.of_step (a := .clientPoll first) trivial
  exact if_pos ⟨hidle, by rw [hcq, List.head?_cons]⟩

theorem can_serverPoll {opcode : WcOpcode} (hidle : s.server.poller = [])
    (h : 0 < s.server.base.cq.count opcode) : Can connections mr total_edges s := by
  obtain ⟨first, rest, hcq⟩ :=
    List.exists_cons_of_ne_nil (List.ne_nil_of_mem (List.count_pos_iff.1 h))
  apply Can.of_step (a := .serverPoll first) trivial
  exact if_pos ⟨hidle, by rw [hcq, List.head?_cons]⟩

/-- A connection that is not up at the client, and has left its first state, can move on. -/
theorem can_connect {i : Nat} {conn : Conn} (hconn : s.conns[i]? = some conn)
    (hcreated : conn.client ≠ .created) (hdown : conn.client ≠ .established)
    (hrunning : s.client.loop_exited = false) (hidle : s.server.event_loop = []) :
    Can connections mr total_edges s := by
  have hloop : ¬ s.client.loop_exited = true := by simp [hrunning]
  cases hclient : conn.client with
  | created => exact absurd hclient hcreated
  | addrResolving =>
      apply Can.of_step (a := .clientEvent .addrResolved i) trivial
      simp only [step, Session.clientEvent, if_neg hloop, hconn, hclient]
      rfl
  | routeResolving =>
      apply Can.of_step (a := .clientEvent .routeResolved i) trivial
      simp only [step, Session.clientEvent, if_neg hloop, hconn, hclient]
      rfl
  | connecting =>
      by_cases hserver : conn.server = .idle
      · apply Can.of_step (a := .serverEvent .connectRequest i) trivial
        simp only [step, Session.serverEvent, hidle, ne_eq, not_true_eq_false, if_false, hconn,
          hclient, hserver]
        rfl
      · apply Can.of_step (a := .clientEvent .established i) trivial
        simp only [step, Session.clientEvent, if_neg hloop, hconn, hclient, if_neg hserver]
        rfl
  | established => exact absurd hclient hdown

/-- A connection that the server has accepted can be established there. -/
theorem can_establish {i : Nat} {conn : Conn} (hconn : s.conns[i]? = some conn)
    (hserver : conn.server = .accepted) (hidle : s.server.event_loop = []) :
    Can connections mr total_edges s := by
  apply Can.of_step (a := .serverEvent .established i) trivial
  simp only [step, Session.serverEvent, hidle, ne_eq, not_true_eq_false, if_false, hconn, hserver]
  rfl

/-- While the session is being set up, connection 0 moves on. -/
theorem At.progress_connecting (h : At connections m .connecting s) (hl : Live .connecting s) :
    Can connections mr total_edges s := by
  have hrunning : s.client.loop_exited = false := by
    rw [← Bool.not_eq_true]
    exact hl.not_exited trivial
  obtain ⟨-, conn, hconns, hcreated, hserver, -⟩ := h.fabric.alone rfl
  have hconn : s.conns[0]? = some conn := by
    rw [hconns]
    rfl
  by_cases hup : conn.client = .established
  · have hmet : conn.server ≠ .idle := hl.known conn (List.mem_of_getElem? hconn) hup
    have haccepted : conn.server = .accepted := by
      cases hphase : conn.server with
      | idle => exact absurd hphase hmet
      | accepted => rfl
      | established => exact absurd hphase hserver
    exact can_establish hconn haccepted h.event_loop
  · exact can_connect hconn hcreated hup hrunning h.event_loop

theorem onCompletion_mr : onCompletion connections .mr =
    ([.setPeerAddr, .setPeerRkey, .setNumEdges, .postReceive, .createApp] ++
      (List.range connections).map .resolveAddr) ++ .awaitConnections ::
        [.startComm, .startKernel] := by
  simp [onCompletion]

/-- The branch for `MSG_MR` only waits for connections that are on their way. -/
theorem At.progress_preparing {op : ClientOp} {rest : List ClientOp}
    (h : At connections m (.preparing (op :: rest)) s) (hl : Live (.preparing (op :: rest)) s) :
    Can connections mr total_edges s := by
  have hleft : Program.Left (onCompletion connections .mr) (op :: rest) := h.program
  have hpoller : s.client.poller = op :: rest := h.client_poller
  have hrunning : s.client.loop_exited = false := by
    rw [← Bool.not_eq_true]
    exact hl.not_exited trivial
  have hop := hleft.suffix.mem List.mem_cons_self
  cases op with
  | setPeerAddr | setPeerRkey | setNumEdges | postReceive | createApp | startComm =>
      exact can_client hpoller ⟨_, rfl⟩
  | resolveAddr i =>
      have hi : i < connections := by simpa [onCompletion] using hop
      have hlt : i + 1 < s.conns.length := by
        rw [h.fabric.length]
        exact Nat.succ_lt_succ hi
      have hconn : s.conns[i + 1]? = some s.conns[i + 1] := List.getElem?_eq_getElem hlt
      have hcreated := (hl.resolved i _ hconn).2 List.mem_cons_self
      apply can_client hpoller
      exact ⟨_, by simp only [ClientOp.exec, hconn, if_pos hcreated]; rfl⟩
  | awaitConnections =>
      by_cases hready : s.client.connections < connections + 1
      · -- some connection is not up, and its address is being resolved at least
        have hdown : ∃ conn ∈ s.conns, ¬ decide (conn.client = .established) = true := by
          by_contra hall
          have hcount : s.conns.countP (fun conn => conn.client = .established) = s.conns.length :=
            List.countP_eq_length.2 fun conn hconn => by_contra fun hnot => hall ⟨conn, hconn, hnot⟩
          rw [← h.fabric.counted, h.fabric.length] at hcount
          omega
        obtain ⟨conn, hmem, hdown⟩ := hdown
        obtain ⟨i, hconn⟩ := List.mem_iff_getElem?.1 hmem
        have hcreated : conn.client ≠ .created := by
          cases i with
          | zero => exact hl.base conn hconn
          | succ i =>
              rw [ne_eq, hl.resolved i conn hconn]
              have hrest : rest = [.startComm, .startKernel] := by
                rw [onCompletion_mr] at hleft
                exact hleft.rest_eq (onCompletion_mr ▸ nodup_onCompletion .mr)
              rw [hrest]
              simp [Stage.Unresolved]
        exact can_connect hconn hcreated (fun hup => hdown (decide_eq_true hup)) hrunning
          h.event_loop
      · exact can_client hpoller ⟨_, by simp only [ClientOp.exec, if_neg hready]; rfl⟩
  | startKernel =>
      have hthread : s.client.app_thread = .notStarted := h.thread
      exact can_client hpoller ⟨_, by simp only [ClientOp.exec, hthread]; rfl⟩
  | dispatch | joinApp | joinComm | disconnect => simp [onCompletion] at hop

/-- The branch for `MSG_DONE` only waits for threads that are about to return. -/
theorem At.progress_closing {op : ClientOp} {rest : List ClientOp}
    (h : At connections m (.closing (op :: rest)) s) (hl : Live (.closing (op :: rest)) s) :
    Can connections mr total_edges s := by
  have hleft : Program.Left (onCompletion connections .done) (op :: rest) := h.program
  have hpoller : s.client.poller = op :: rest := h.client_poller
  have hop := hleft.suffix.mem List.mem_cons_self
  cases op with
  | joinApp =>
      have hthread := h.thread
      rw [Stage.Thread, if_pos List.mem_cons_self] at hthread
      cases hthread with
      | inl hreturning =>
          apply Can.of_step (a := .kernelReturn) trivial
          exact if_pos hreturning
      | inr hexited => exact can_client hpoller ⟨_, if_pos hexited⟩
  | joinComm =>
      by_cases hexited : ∀ thread ∈ s.client.comm_threads, thread = .exited
      · exact can_client hpoller ⟨_, if_pos hexited⟩
      · -- it has seen `should_stop` soon
        have hpolling : ∃ i : Nat, s.client.comm_threads[i]? = some CommThread.polling := by
          by_contra hnone
          apply hexited
          intro thread hthread
          obtain ⟨i, hi⟩ := List.mem_iff_getElem?.1 hthread
          cases thread with
          | polling => exact absurd ⟨i, hi⟩ hnone
          | exited => rfl
          | joined => exact absurd hthread (hl.unjoined List.mem_cons_self)
        obtain ⟨i, hi⟩ := hpolling
        refine ⟨.commReturn i,
          { s with client.comm_threads := s.client.comm_threads.set i .exited },
          by simp, fun _ _ => h.stopped trivial, if_pos hi⟩
  | disconnect => exact can_client hpoller ⟨_, rfl⟩
  | dispatch | setPeerAddr | setPeerRkey | setNumEdges | postReceive | createApp | resolveAddr _
  | awaitConnections | startComm | startKernel => simp [onCompletion] at hop

/-- Once the client has disconnected, what is left is on its way. -/
theorem At.progress_closed (h : At connections m .closed s) (hl : Live .closed s)
    (hpos : 0 < s.left) :
    Can connections mr total_edges s := by
  have hup : ∀ conn ∈ s.conns, conn.client = .established := h.established
  by_cases hrunning : s.client.loop_exited = true
  · have hthread : s.client.app_thread = .joined := h.thread
    have hcomm : s.client.comm_threads = [.joined] := h.comm
    have hpolling : [CommThread.joined].count .polling = 0 := by decide
    have hreturned : AppThread.joined.left = 0 := rfl
    rw [State.left, hthread, hcomm, hpolling, hreturned, if_pos hrunning] at hpos
    by_cases hclient : 0 < s.client.base.cq.count .send
    · exact can_clientPoll h.client_poller hclient
    · by_cases hserver : 0 < s.server.base.cq.count .send
      · exact can_serverPoll h.server_poller hserver
      · have hsum : (s.conns.map Conn.left).sum ≠ 0 := by omega
        have hconn : ∃ conn ∈ s.conns, conn.left ≠ 0 := by
          by_contra hnone
          apply hsum
          apply List.sum_eq_zero
          intro left hleft
          obtain ⟨conn, hmem, rfl⟩ := List.mem_map.1 hleft
          exact by_contra fun hne => hnone ⟨conn, hmem, hne⟩
        obtain ⟨conn, hmem, hleft⟩ := hconn
        obtain ⟨i, hi⟩ := List.mem_iff_getElem?.1 hmem
        have haccepted : conn.server = .accepted := by
          cases hphase : conn.server with
          | idle => exact absurd hphase (hl.known conn hmem (hup conn hmem))
          | accepted => rfl
          | established => exact absurd (by rw [Conn.left, hup conn hmem, hphase]; rfl) hleft
        exact can_establish hi haccepted h.event_loop
  · have hlt : 0 < s.conns.length := by
      rw [h.fabric.length]
      exact Nat.succ_pos _
    have hconn : s.conns[0]? = some s.conns[0] := List.getElem?_eq_getElem hlt
    have hphase : s.conns[0].client = .established := hup _ (List.getElem_mem hlt)
    apply Can.of_step (a := .clientEvent .disconnected 0) trivial
    simp only [step, Session.clientEvent, if_neg hrunning, hconn, hphase, hl.disconnected.2 rfl,
      and_self, if_true]
    rfl

/-- As long as something is left, something can happen. -/
theorem At.progress (h : At connections m st s) (hl : Live st s)
    (hpos : 0 < st.left connections + s.left) : Can connections mr total_edges s := by
  have hprogram := h.program
  cases st using Stage.shapes with
  | connecting => exact h.progress_connecting hl
  | offering rest =>
      obtain ⟨op, rest, rfl⟩ := List.exists_cons_of_ne_nil hprogram.ne_nil
      exact can_serverLoop h.event_loop
  | posted_mr => exact can_transmitToClient h.server_sends
  | posted_ready => exact can_transmitToServer h.client_sends
  | posted_done => exact can_transmitToClient h.server_sends
  | sent_mr => exact can_deliverToClient h.toClient h.client_receives
  | sent_ready => exact can_deliverToServer h.toServer h.server_receives
  | sent_done => exact can_deliverToClient h.toClient h.client_receives
  | arrived_mr => exact can_clientPoll h.client_poller (h.client_recv.trans_gt Nat.one_pos)
  | arrived_ready => exact can_serverPoll h.server_poller (h.server_recv.trans_gt Nat.one_pos)
  | arrived_done => exact can_clientPoll h.client_poller (h.client_recv.trans_gt Nat.one_pos)
  | taken_mr => exact can_client h.client_poller ⟨_, rfl⟩
  | taken_ready => exact can_server h.server_poller
  | taken_done => exact can_client h.client_poller ⟨_, rfl⟩
  | preparing rest =>
      obtain ⟨op, rest, rfl⟩ := List.exists_cons_of_ne_nil hprogram.ne_nil
      exact h.progress_preparing hl
  | running rest =>
      obtain ⟨op, rest, rfl⟩ := List.exists_cons_of_ne_nil hprogram.ne_nil
      exact can_kernel h.thread (hl.app trivial)
  | answering rest =>
      obtain ⟨op, rest, rfl⟩ := List.exists_cons_of_ne_nil hprogram.ne_nil
      exact can_server h.server_poller
  | closing rest =>
      obtain ⟨op, rest, rfl⟩ := List.exists_cons_of_ne_nil hprogram.ne_nil
      exact h.progress_closing hl
  | closed => exact h.progress_closed hl (by simpa [Stage.left] using hpos)

/-- Nothing is left of the event loop at the end. -/
theorem loop_exited_of_left (h : s.left = 0) : s.client.loop_exited = true := by
  by_contra hrunning
  rw [State.left, if_neg hrunning] at h
  exact absurd h (Nat.succ_ne_zero _)

/-- As long as not all actions have been taken, some action can happen, and then the loop has
    ended. -/
theorem progress_of_reachable {trace : List Action}
    (h : (session connections mr total_edges).Reachable (s, trace)) :
    trace.countP (· ≠ .rdmaRead) ≤ 44 + 6 * connections ∧
      ((trace.countP (· ≠ .rdmaRead) < 44 + 6 * connections ∨ s.client.loop_exited = false) →
        Can connections mr total_edges s) := by
  obtain ⟨st, hat, hlive, hcount⟩ := exists_live h
  refine ⟨hcount ▸ Nat.le_add_right _ _, fun hmore => hat.progress hlive ?_⟩
  cases hmore with
  | inl hless => omega
  | inr hrunning =>
      have hpos : s.left ≠ 0 := by
        intro hleft
        rw [loop_exited_of_left hleft] at hrunning
        cases hrunning
      omega

/-! ### With a kernel -/

section Hosted

variable {κ : Type*} {K : TransitionSystem κ} {fails : State → Action → Prop} {p q : Hosted κ}

theorem step_rdmaRead (h : s.Computing) : step connections mr total_edges s .rdmaRead = some s := by
  obtain ⟨rest, hthread⟩ := h
  simp only [step, hthread]

/-- The kernel thread leaves the kernel from within. -/
theorem computing_of_step (h : step connections mr total_edges s (.kernel .compute) = some t) :
    s.Computing := by
  simp only [step] at h
  split at h
  · rename_i op rest hthread
    obtain ⟨hop, -⟩ := Option.ite_none_right_eq_some.1 h
    exact ⟨rest, hop ▸ hthread⟩
  · cases h

theorem countP_append_action (trace : List Action) {a : Action} (ha : a ≠ .rdmaRead) :
    (trace ++ [a]).countP (· ≠ .rdmaRead) = trace.countP (· ≠ .rdmaRead) + 1 := by
  rw [List.countP_append, List.countP_singleton, if_pos (decide_eq_true ha)]

/-- What the kernel adds to a trace counts nothing. -/
theorem countP_append_reads (trace : List Action) (reads : Nat) :
    (trace ++ List.replicate reads Action.rdmaRead).countP (· ≠ .rdmaRead) =
      trace.countP (· ≠ .rdmaRead) := by
  simp [List.countP_replicate]

theorem reachable_reads {trace : List Action}
    (h : (session connections mr total_edges).Reachable (s, trace)) (hcomputing : s.Computing)
    (reads : Nat) :
    (session connections mr total_edges).Reachable
      (s, trace ++ List.replicate reads .rdmaRead) := by
  induction reads with
  | zero => rwa [List.replicate_zero, List.append_nil]
  | succ reads ih =>
      rw [List.replicate_succ', ← List.append_assoc]
      exact ih.step ⟨.rdmaRead, step_rdmaRead hcomputing, rfl⟩

/-- A session with a kernel is a session, and a run of the kernel. -/
theorem reachable_of_hosted (h : (hosted connections mr total_edges K fails).Reachable p) :
    (session connections mr total_edges).Reachable (p.state, p.trace) ∧ K.Reachable p.kernel := by
  apply TransitionSystem.Reachable.induct _ _ h
  · intro p hinit
    exact ⟨.of_init hinit.1, .of_init hinit.2.1⟩
  · intro p q _ hp hstep
    cases hstep with
    | act due steps call => exact ⟨hp.1.step ⟨_, steps, rfl⟩, hp.2⟩
    | fail due steps call => exact hp
    | compute computing steps reads => exact ⟨reachable_reads hp.1 computing reads, hp.2.step steps⟩

/-- The actions still to be taken, and one for the process. -/
def Hosted.left (connections : Nat) (p : Hosted κ) : Nat :=
  44 + 6 * connections - p.trace.countP (· ≠ .rdmaRead) + if p.failed then 0 else 1

/-- A step takes an action away, or leaves their number and is one of the kernel. -/
theorem left_of_hostedStep (h : (hosted connections mr total_edges K fails).Reachable p)
    (hstep : HostedStep connections mr total_edges K fails p q) :
    q.left connections < p.left connections ∨
      q.left connections = p.left connections ∧ K.step p.kernel q.kernel := by
  have hnext := (progress_of_reachable (reachable_of_hosted (h.step hstep)).1).1
  cases hstep with
  | act due steps call =>
      left
      rw [Hosted.left, Hosted.left]
      dsimp only at hnext ⊢
      rw [countP_append_action _ due.not_read] at hnext ⊢
      omega
  | fail due steps call =>
      left
      rw [Hosted.left, Hosted.left, if_pos rfl, if_neg Bool.false_ne_true]
      exact Nat.lt_succ_self _
  | compute computing steps reads =>
      right
      refine ⟨?_, steps⟩
      rw [Hosted.left, Hosted.left, countP_append_reads]

/-- While something is left, the session or its kernel can go on. -/
theorem hosted_progress (hreturns : K.Terminates)
    (h : (hosted connections mr total_edges K fails).Reachable p) (hfailed : p.failed = false)
    (hmore : p.trace.countP (· ≠ .rdmaRead) < 44 + 6 * connections ∨
      p.state.client.loop_exited = false) :
    ∃ q, HostedStep connections mr total_edges K fails p q := by
  obtain ⟨hsession, hkernel⟩ := reachable_of_hosted h
  obtain ⟨a, t, hread, hcomm, hstep⟩ := (progress_of_reachable hsession).2 hmore
  obtain ⟨s, trace, k, failed⟩ := p
  obtain rfl : failed = false := hfailed
  by_cases hwaits : a = .kernel .compute ∧ ¬ K.final k
  · obtain ⟨rfl, hfinal⟩ := hwaits
    obtain ⟨k', hk⟩ := hreturns.2 k hkernel hfinal
    exact ⟨_, .compute (computing_of_step hstep) hk 0⟩
  · have hdue : a.Due K s k :=
      ⟨hread, fun hcompute => by_contra fun hfinal => hwaits ⟨hcompute, hfinal⟩, hcomm⟩
    by_cases hcall : fails s a
    · exact ⟨_, .fail hdue hstep hcall⟩
    · exact ⟨_, .act hdue hstep hcall⟩

theorem hosted_terminates (hreturns : K.Terminates) :
    (hosted connections mr total_edges K fails).Terminates := by
  apply TransitionSystem.terminates_of_wellFounded
    ((wellFounded_lt (α := Nat)).prod_lex hreturns.wellFounded) fun p =>
      (p.left connections, p.kernel)
  · intro p q hp hstep
    rcases left_of_hostedStep hp hstep with hless | ⟨hsame, hkernel⟩
    · exact .left _ _ hless
    · rw [hsame]
      exact .right _ ⟨(reachable_of_hosted hp).2, hkernel⟩
  · intro p hp hfinal
    have hfailed : p.failed = false := Bool.eq_false_of_not_eq_true fun h => hfinal (.inl h)
    exact hosted_progress hreturns hp hfailed
      (.inr (Bool.eq_false_of_not_eq_true fun h => hfinal (.inr h)))

/-- Only a call that fails ends a process. -/
theorem not_failed (hcalls : ∀ s a, ¬ fails s a)
    (h : (hosted connections mr total_edges K fails).Reachable p) :
    p.failed = false := by
  apply TransitionSystem.Reachable.induct _ _ h
  · exact fun p hinit => hinit.2.2
  · intro p q _ _ hstep
    cases hstep with
    | act due steps call => rfl
    | fail due steps call => exact absurd call (hcalls _ _)
    | compute computing steps reads => rfl

/-- A session with a kernel that returns, with any number of worker connections, in any interleaving
    of the connection manager's events, the messages, the kernel and the threads of both sides,
    whichever calls fail. It ends; it takes no more than `44 + 6 * connections` actions beside the
    RDMA reads; and if no call fails, it does not get stuck before it has taken them all, although a
    polling thread only returns once `should_stop` is set, and then the client's event loop has
    ended. -/
theorem session_completes (connections : Nat) (mr : MemoryRegion) (total_edges : Nat)
    (K : TransitionSystem κ) (hreturns : K.Terminates) (fails : State → Action → Prop) :
    (hosted connections mr total_edges K fails).Terminates ∧
      ∀ p, (hosted connections mr total_edges K fails).Reachable p →
        p.trace.countP (· ≠ .rdmaRead) ≤ 44 + 6 * connections ∧
          ((∀ s a, ¬ fails s a) → p.failed = false) ∧
            (p.failed = false → (∀ q, ¬ (hosted connections mr total_edges K fails).step p q) →
              p.trace.countP (· ≠ .rdmaRead) = 44 + 6 * connections ∧
                p.state.client.loop_exited = true) := by
  refine ⟨hosted_terminates hreturns, fun p hp => ?_⟩
  have hle := (progress_of_reachable (reachable_of_hosted hp).1).1
  refine ⟨hle, fun hcalls => not_failed hcalls hp, fun hfailed hstuck => ?_⟩
  have hdone : ¬ (p.trace.countP (· ≠ .rdmaRead) < 44 + 6 * connections ∨
      p.state.client.loop_exited = false) := by
    intro hmore
    obtain ⟨q, hq⟩ := hosted_progress hreturns hp hfailed hmore
    exact hstuck q hq
  rw [not_or, Bool.not_eq_false] at hdone
  exact ⟨Nat.le_antisymm hle (Nat.not_lt.1 hdone.1), hdone.2⟩

/-- A session with one worker connection and the breadth-first search of an edge, where no call
    fails. -/
theorem session_completes_bfs :
    ∃ p,
      (hosted 1 ⟨4096, 7⟩ 2 (Bfs.system 1 Graph.edge ⟨0, by decide⟩) fun _ _ => False).Reachable p ∧
      p.trace.countP (· ≠ .rdmaRead) ≤ 50 ∧ p.state.client.loop_exited = true := by
  have hreturns : (Bfs.system 1 Graph.edge ⟨0, by decide⟩).Terminates := by
    apply (Bfs.termination 1 _).terminates (Bfs.loopInvariant_kept _)
    rintro s rfl
    exact Bfs.atHead_initial 1 _
  obtain ⟨hends, hall⟩ := session_completes 1 ⟨4096, 7⟩ 2 (Bfs.system 1 Graph.edge ⟨0, by decide⟩)
    hreturns fun _ _ => False
  have hinit : (hosted 1 ⟨4096, 7⟩ 2 (Bfs.system 1 Graph.edge ⟨0, by decide⟩) fun _ _ => False).init
      ⟨start 1 (⟨⟨.invalid, 0, 0, 0⟩, ⟨.invalid, 0, 0, 0⟩, 0, 0, []⟩,
        ⟨⟨.invalid, 0, 0, 0⟩, ⟨.invalid, 0, 0, 0⟩, 0, 0, []⟩) 0 0, [],
        Bfs.initial 1 Graph.edge ⟨0, by decide⟩, false⟩ := ⟨⟨⟨_, 0, 0, rfl⟩, rfl⟩, rfl, rfl⟩
  obtain ⟨p, hp, hfinal⟩ := hends.exists_final hinit
  obtain ⟨hle, hcalls, -⟩ := hall p hp
  have hfailed : p.failed = false := hcalls fun _ _ => not_false
  rcases hfinal with hdead | hexited
  · rw [hfailed] at hdead
    cases hdead
  · exact ⟨p, hp, hle, hexited⟩

end Hosted

end Session

end FamGraph
