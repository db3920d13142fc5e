/-
Module: FamGraph.Proofs.FamServer
Layer: Proofs
Purpose: Which connections the server runs its handlers on. The loop keys each handler on the first
  event of its kind, not on the connection: for any interleaving of the events of any number of
  connections, the handlers run on connection 0 alone exactly if connection 0 is the first to be
  established and the first to be disconnected.
Trusted boundary: none
Main exports: ConnectionOrder, connectionZero, served, OnConnectionZero,
  handlers_on_connection_zero_iff
-/
import FamGraph.Core.FamServer
import FamGraph.Proofs.AbstractServer
import Mathlib.Data.List.TakeWhile

namespace FamGraph.FamServer

open EventLoop (final bind_ok bind_error)
open AbstractServer (handleEvent eventLoop afterCall)

/-! ### What the handlers do -/

variable {mr : MemoryRegion} {adj_file : Option (List UInt8)} {id : Nat} {s : FamServer}

theorem contextOf_null (h : s.context id = false) : contextOf id s = .error .nullPointer s := by
  apply (bind_ok rfl).trans
  simp only [h, Bool.false_eq_true, if_false]
  rfl

theorem contextOf_ok (h : s.context id = true) : contextOf id s = .ok s.server_ctx s := by
  apply (bind_ok rfl).trans
  simp only [h, if_true]
  rfl

/-- `on_pre_conn` gives the connection its context and posts a receive on it. -/
theorem onPreConn_eq (id : Nat) (s : FamServer) :
    onPreConn id s = .ok ()
      { server_ctx := { s.server_ctx with tx_msg := some none, rx_msg := some none }
        context := Function.update s.context id true
        received := s.received ++ [id]
        sent := s.sent } := by
  have hset : Function.update s.context id true id = true := Function.update_self _ _ _
  apply (bind_ok rfl).trans
  apply (bind_ok (contextOf_ok (by exact hset))).trans
  apply (bind_ok rfl).trans
  apply (bind_ok (contextOf_ok (by exact hset))).trans
  apply (bind_ok rfl).trans
  apply (bind_ok (contextOf_ok (by exact hset))).trans
  rfl

theorem onConnection_null (h : s.context id = false) :
    onConnection mr id s = .error .nullPointer s :=
  bind_error (contextOf_null h)

theorem onConnection_no_file (h : s.context id = true) (hfile : s.server_ctx.adj_file = none) :
    onConnection mr id s = .error (.runtimeError ".adj file not found") s := by
  apply (bind_ok (contextOf_ok h)).trans
  rw [hfile]
  rfl

/-- The message that tells the client where the edges of `file` are. -/
def mrMessage (mr : MemoryRegion) (file : List UInt8) : Message where
  id := .mr
  addr := mr.addr
  rkey := mr.rkey
  total_edges := numElements 4 file

/-- `on_connection` loads the edges and sends the client where they are. -/
theorem onConnection_ok {file : List UInt8} {msg : Option Message} (h : s.context id = true)
    (hfile : s.server_ctx.adj_file = some file) (htx : s.server_ctx.tx_msg = some msg) :
    onConnection mr id s = .ok ()
      { s with
        server_ctx :=
          { s.server_ctx with
            v := s.server_ctx.v ++ [getEdgeList file]
            tx_msg := some (some (mrMessage mr file)) }
        sent := s.sent ++ [(id, some (mrMessage mr file))] } := by
  obtain ⟨⟨adj_file, v, tx_msg, rx_msg⟩, context, received, sent⟩ := s
  cases hfile
  cases htx
  apply (bind_ok (contextOf_ok h)).trans
  apply (bind_ok rfl).trans
  apply (bind_ok (contextOf_ok (by exact h))).trans
  apply (bind_ok rfl).trans
  apply (bind_ok (contextOf_ok (by exact h))).trans
  rfl

theorem onDisconnect_null (h : s.context id = false) :
    onDisconnect id s = .error .nullPointer s :=
  bind_error (contextOf_null h)

theorem onDisconnect_ok (h : s.context id = true) :
    onDisconnect id s =
      .ok () { s with server_ctx := { s.server_ctx with tx_msg := none, rx_msg := none } } :=
  (bind_ok (contextOf_ok h)).trans rfl

/-! ### The order of events -/

/-- The kinds of the events of one connection, in order. -/
def eventsOf (id : Nat) (events : List CmEvent) : List CmEventType :=
  (events.filter fun e => e.id = id).map (·.event)

/-- Every connection is requested, then established, then disconnected, as far as it has got; the
    connections' events interleave in any way. -/
def ConnectionOrder (events : List CmEvent) : Prop :=
  ∀ id, eventsOf id events <+: [.connectRequest, .established, .disconnected]

/-- The connection that the first event of a kind is about. -/
def firstOf (kind : CmEventType) (events : List CmEvent) : Option Nat :=
  (events.find? fun e => e.event = kind).map (·.id)

/-- The connection whose CONNECT_REQUEST comes first. -/
def connectionZero (events : List CmEvent) : Option Nat := firstOf .connectRequest events

/-- What comes before the first CONNECT_REQUEST on another device than that of `c`, which ends the
    process. -/
def served (verbs : Nat → Nat) (c : Nat) (events : List CmEvent) : List CmEvent :=
  events.takeWhile fun e => e.event ≠ .connectRequest ∨ verbs e.id = verbs c

theorem firstOf_concat (kind : CmEventType) (past : List CmEvent) (e : CmEvent) :
    firstOf kind (past ++ [e]) =
      (firstOf kind past).or (if e.event = kind then some e.id else none) := by
  rw [firstOf, firstOf, List.find?_append, Option.map_or]
  by_cases h : e.event = kind
  · simp only [List.find?_singleton, h, decide_true, if_true, Option.map_some]
  · simp only [List.find?_singleton, h, decide_false, if_false, Bool.false_eq_true, Option.map_none]

theorem firstOf_eq_none {kind : CmEventType} {events : List CmEvent} :
    firstOf kind events = none ↔ ∀ e ∈ events, e.event ≠ kind := by
  simp only [firstOf, Option.map_eq_none_iff, List.find?_eq_none, decide_eq_true_eq, ne_eq]

theorem firstOf_mono {kind : CmEventType} {past events : List CmEvent} {id : Nat}
    (h : past <+: events) (hfirst : firstOf kind past = some id) :
    firstOf kind events = some id := by
  obtain ⟨rest, rfl⟩ := h
  rw [firstOf, List.find?_append, Option.map_or]
  change (firstOf kind past).or _ = some id
  rw [hfirst, Option.some_or]

/-- The first event of a kind cuts a sequence in two. -/
theorem exists_of_firstOf {kind : CmEventType} {events : List CmEvent} {id : Nat}
    (h : firstOf kind events = some id) :
    ∃ past rest, events = past ++ ⟨kind, id⟩ :: rest ∧ firstOf kind past = none := by
  rw [firstOf, Option.map_eq_some_iff] at h
  obtain ⟨e, hfind, hid⟩ := h
  rw [List.find?_eq_some_iff_append] at hfind
  obtain ⟨hkind, past, rest, hsplit, hpast⟩ := hfind
  obtain ⟨event, id'⟩ := e
  rw [decide_eq_true_eq] at hkind
  cases hkind
  cases hid
  refine ⟨past, rest, hsplit, firstOf_eq_none.2 ?_⟩
  intro a ha hevent
  have hnot := hpast a ha
  simp only [hevent, decide_true, Bool.not_true, Bool.false_eq_true] at hnot

/-- What a connection has been through when its next event comes. -/
theorem ConnectionOrder.past {events past : List CmEvent} {e : CmEvent} (h : ConnectionOrder events)
    (hpast : past ++ [e] <+: events) :
    (e.event = .connectRequest ∧ eventsOf e.id past = []) ∨
      (e.event = .established ∧ eventsOf e.id past = [.connectRequest]) ∨
      (e.event = .disconnected ∧ eventsOf e.id past = [.connectRequest, .established]) := by
  have hown : eventsOf e.id past ++ [e.event] = eventsOf e.id (past ++ [e]) := by
    simp only [eventsOf, List.filter_append, List.map_append, List.filter_singleton, decide_true,
      cond_true, List.map_cons, List.map_nil]
  have hearlier :
      eventsOf e.id past ++ [e.event] <+: [.connectRequest, .established, .disconnected] := by
    rw [hown]
    exact ((hpast.filter _).map _).trans (h e.id)
  generalize eventsOf e.id past = own at hearlier ⊢
  rcases own with - | ⟨a, - | ⟨b, - | ⟨c, rest⟩⟩⟩
  · simp only [List.nil_append, List.cons_prefix_cons] at hearlier
    exact .inl ⟨hearlier.1, rfl⟩
  · simp only [List.cons_append, List.nil_append, List.cons_prefix_cons] at hearlier
    exact .inr (.inl ⟨hearlier.2.1, by rw [hearlier.1]⟩)
  · simp only [List.cons_append, List.nil_append, List.cons_prefix_cons] at hearlier
    exact .inr (.inr ⟨hearlier.2.2.1, by rw [hearlier.1, hearlier.2.1]⟩)
  · have hlen := hearlier.length_le
    simp only [List.length_append, List.length_cons, List.length_nil] at hlen
    omega

theorem mem_of_mem_eventsOf {id : Nat} {events : List CmEvent} {kind : CmEventType}
    (h : kind ∈ eventsOf id events) : ⟨kind, id⟩ ∈ events := by
  simp only [eventsOf, List.mem_map, List.mem_filter, decide_eq_true_eq] at h
  obtain ⟨⟨event, id'⟩, ⟨hmem, rfl⟩, rfl⟩ := h
  exact hmem

theorem concat_earlier (past : List CmEvent) (e : CmEvent) (rest : List CmEvent) :
    past ++ [e] <+: past ++ e :: rest :=
  (List.prefix_append_right_inj past).2 (List.cons_prefix_cons.2 ⟨rfl, List.nil_prefix⟩)

theorem ConnectionOrder.earlier {past events : List CmEvent} (h : ConnectionOrder events)
    (hpast : past <+: events) : ConnectionOrder past :=
  fun id => ((hpast.filter _).map _).trans (h id)

/-- Whatever a connection does, it was requested. -/
theorem ConnectionOrder.requested {events : List CmEvent} {e : CmEvent} (h : ConnectionOrder events)
    (he : e ∈ events) : ⟨.connectRequest, e.id⟩ ∈ events := by
  obtain ⟨past, rest, rfl⟩ := List.append_of_mem he
  have hpast : past ++ [e] <+: past ++ e :: rest := concat_earlier past e rest
  rcases h.past hpast with ⟨hkind, -⟩ | ⟨-, hown⟩ | ⟨-, hown⟩
  · exact hkind ▸ he
  · exact List.mem_append_left _ (mem_of_mem_eventsOf (hown ▸ List.mem_cons_self))
  · exact List.mem_append_left _ (mem_of_mem_eventsOf (hown ▸ List.mem_cons_self))

/-- A connection is established before it is disconnected. -/
theorem ConnectionOrder.established {past events : List CmEvent} {id : Nat}
    (h : ConnectionOrder events) (hpast : past ++ [⟨.disconnected, id⟩] <+: events) :
    ⟨.established, id⟩ ∈ past := by
  rcases h.past hpast with ⟨hkind, -⟩ | ⟨hkind, -⟩ | ⟨-, hown⟩
  · exact nomatch hkind
  · exact nomatch hkind
  · exact mem_of_mem_eventsOf (hown ▸ List.mem_cons_of_mem _ List.mem_cons_self)

theorem ConnectionOrder.eq_nil {events : List CmEvent} (h : ConnectionOrder events)
    (hnone : firstOf .connectRequest events = none) : events = [] := by
  rw [List.eq_nil_iff_forall_not_mem]
  intro e he
  exact firstOf_eq_none.1 hnone _ (h.requested he) rfl

theorem ConnectionOrder.no_disconnect {events : List CmEvent} (h : ConnectionOrder events)
    (hnone : firstOf .established events = none) : firstOf .disconnected events = none := by
  rw [firstOf_eq_none] at hnone ⊢
  rintro ⟨event, id⟩ he hkind
  cases hkind
  obtain ⟨past, rest, rfl⟩ := List.append_of_mem he
  have hpast : past ++ [⟨.disconnected, id⟩] <+: past ++ ⟨.disconnected, id⟩ :: rest :=
    concat_earlier past _ rest
  exact hnone _ (List.mem_append_left _ (h.established hpast)) rfl

/-! ### What a run leaves behind -/

variable {verbs : Nat → Nat}

/-- The state after the loop has handled some events, given the connection of the first event of
    each kind: each latch and each handler's log depends on nothing else. -/
structure Handled (verbs : Nat → Nat) (adj_file : Option (List UInt8))
    (request established disconnected : Option Nat) (s : AbstractServer FamServer) : Prop where
  latch2 : s.latch2 = request.isSome
  latch3 : s.latch3 = established.isSome
  latch4 : s.latch4 = disconnected.isSome
  preConn : calledWith .onPreConn s.trace = request.toList
  connection : calledWith .onConnection s.trace = established.toList
  disconnect : calledWith .onDisconnect s.trace = disconnected.toList
  context : ∀ id, s.derived.context id = true ↔ request = some id
  device : s.fam_ib_ctx.map (·.ctx) = request.map verbs
  file : s.derived.server_ctx.adj_file = adj_file
  buffer : request.isSome → disconnected = none → s.derived.server_ctx.tx_msg.isSome

theorem Handled.init : Handled verbs adj_file none none none (.new (new adj_file)) where
  latch2 := rfl
  latch3 := rfl
  latch4 := rfl
  preConn := rfl
  connection := rfl
  disconnect := rfl
  context := fun _ => ⟨fun h => Bool.noConfusion h, fun h => nomatch h⟩
  device := rfl
  file := rfl
  buffer := fun h => Bool.noConfusion h

namespace Handled

variable {established disconnected : Option Nat} {c : Nat} {t : AbstractServer FamServer}

theorem context_of_ne {request : Option Nat}
    (h : Handled verbs adj_file request established disconnected t) (hid : request ≠ some id) :
    t.derived.context id = false := by
  rw [Bool.eq_false_iff, ne_eq, h.context]
  exact hid

theorem exists_ctx (h : Handled verbs adj_file (some c) established disconnected t) :
    ∃ n, t.fam_ib_ctx = some ⟨verbs c, n⟩ := by
  have hdevice : t.fam_ib_ctx.map (·.ctx) = some (verbs c) := h.device
  rw [Option.map_eq_some_iff] at hdevice
  obtain ⟨⟨ctx, n⟩, hsome, rfl⟩ := hdevice
  exact ⟨n, hsome⟩

theorem request_first (h : Handled verbs adj_file none none none t) :
    ∃ u, handleEvent verbs (handlers mr) false ⟨.connectRequest, c⟩ t = .ok true u ∧
      Handled verbs adj_file (some c) none none u := by
  have hctx : t.fam_ib_ctx = none := Option.map_eq_none_iff.1 h.device
  refine ⟨_,
    AbstractServer.handleEvent_connectRequest_first h.latch2 hctx (onPreConn_eq c t.derived), ?_⟩
  exact
    { latch2 := rfl
      latch3 := h.latch3
      latch4 := h.latch4
      preConn := by simp [h.preConn]
      connection := by simp [h.connection]
      disconnect := by simp [h.disconnect]
      context := by
        intro id
        rcases eq_or_ne id c with rfl | hne
        · simp only [Function.update_self]
        · have hclear : t.derived.context id = false := h.context_of_ne (fun hnone => nomatch hnone)
          have hid : c ≠ id := fun h => hne h.symm
          simp only [ne_eq, hne, not_false_eq_true, Function.update_of_ne, hclear,
            Option.some.injEq, hid, Bool.false_eq_true]
      device := rfl
      file := h.file
      buffer := fun _ _ => rfl }

theorem request_later (h : Handled verbs adj_file (some c) established disconnected t)
    (hdev : verbs c = verbs id) :
    ∃ u, handleEvent verbs (handlers mr) false ⟨.connectRequest, id⟩ t = .ok true u ∧
      Handled verbs adj_file (some c) established disconnected u := by
  obtain ⟨n, hctx⟩ := h.exists_ctx
  refine ⟨_, AbstractServer.handleEvent_connectRequest_later h.latch2 hctx hdev, ?_⟩
  exact
    { h with
      preConn := by simp [h.preConn]
      connection := by simp [h.connection]
      disconnect := by simp [h.disconnect] }

theorem established_first {file : List UInt8} (h : Handled verbs (some file) (some c) none none t) :
    ∃ u, handleEvent verbs (handlers mr) false ⟨.established, c⟩ t = .ok true u ∧
      Handled verbs (some file) (some c) (some c) none u := by
  obtain ⟨n, hctx⟩ := h.exists_ctx
  obtain ⟨msg, hmsg⟩ := Option.isSome_iff_exists.1 (h.buffer rfl rfl)
  have hcall : onConnection mr c t.derived = .ok () _ :=
    onConnection_ok ((h.context c).2 rfl) h.file hmsg
  refine ⟨_, AbstractServer.handleEvent_established_first h.latch3 hctx hcall, ?_⟩
  exact
    { latch2 := h.latch2
      latch3 := rfl
      latch4 := h.latch4
      preConn := by simp [h.preConn]
      connection := by simp [h.connection]
      disconnect := by simp [h.disconnect]
      context := h.context
      device := rfl
      file := h.file
      buffer := fun _ _ => rfl }

theorem established_later {e : Nat} (h : Handled verbs adj_file (some c) (some e) disconnected t) :
    ∃ u, handleEvent verbs (handlers mr) false ⟨.established, id⟩ t = .ok true u ∧
      Handled verbs adj_file (some c) (some e) disconnected u := by
  obtain ⟨n, hctx⟩ := h.exists_ctx
  exact ⟨_, AbstractServer.handleEvent_established_later h.latch3 hctx, { h with device := rfl }⟩

theorem disconnected_first (h : Handled verbs adj_file (some c) established none t) :
    ∃ u, handleEvent verbs (handlers mr) false ⟨.disconnected, c⟩ t = .ok true u ∧
      Handled verbs adj_file (some c) established (some c) u := by
  have hcall := onDisconnect_ok ((h.context c).2 rfl)
  refine ⟨_, AbstractServer.handleEvent_disconnected_first h.latch4 hcall, ?_⟩
  exact
    { latch2 := h.latch2
      latch3 := h.latch3
      latch4 := rfl
      preConn := by simp [h.preConn]
      connection := by simp [h.connection]
      disconnect := by simp [h.disconnect]
      context := h.context
      device := h.device
      file := h.file
      buffer := fun _ hnone => nomatch hnone }

theorem disconnected_later {request : Option Nat} {d : Nat}
    (h : Handled verbs adj_file request established (some d) t) :
    ∃ u, handleEvent verbs (handlers mr) false ⟨.disconnected, id⟩ t = .ok true u ∧
      Handled verbs adj_file request established (some d) u := by
  refine ⟨_, AbstractServer.handleEvent_disconnected_later h.latch4, ?_⟩
  exact
    { h with
      preConn := by simp [h.preConn]
      connection := by simp [h.connection]
      disconnect := by simp [h.disconnect] }

end Handled

/-- A sequence of events that the loop handles to its end: connection 0, `c`, is the first in
    everything, its device is everyone's, and the edge file is there when it is loaded. -/
structure ZeroFirst (verbs : Nat → Nat) (adj_file : Option (List UInt8)) (c : Nat)
    (events : List CmEvent) : Prop where
  order : ConnectionOrder events
  request : ∀ id, firstOf .connectRequest events = some id → id = c
  device : ∀ e ∈ events, e.event = .connectRequest → verbs e.id = verbs c
  established : ∀ id, firstOf .established events = some id → id = c
  disconnected : ∀ id, firstOf .disconnected events = some id → id = c
  file : (firstOf .established events).isSome → adj_file.isSome

/-- The loop after the events of `past`. -/
def HandledAfter (verbs : Nat → Nat) (adj_file : Option (List UInt8)) (past : List CmEvent) :
    AbstractServer FamServer → Prop :=
  Handled verbs adj_file (firstOf .connectRequest past) (firstOf .established past)
    (firstOf .disconnected past)

theorem ZeroFirst.step {c : Nat} {events past : List CmEvent} {e : CmEvent}
    {t : AbstractServer FamServer} (h : ZeroFirst verbs adj_file c events)
    (hpast : past ++ [e] <+: events) (ht : HandledAfter verbs adj_file past t) :
    ∃ u, handleEvent verbs (handlers mr) false e t = .ok true u ∧
      HandledAfter verbs adj_file (past ++ [e]) u := by
  have hearlier : past <+: events := (List.prefix_append past [e]).trans hpast
  have horder : ConnectionOrder past := h.order.earlier hearlier
  have hrequest : ∀ id, ⟨.connectRequest, id⟩ ∈ past → firstOf .connectRequest past = some c := by
    intro id hid
    cases hfirst : firstOf .connectRequest past with
    | none => exact absurd rfl (firstOf_eq_none.1 hfirst _ hid)
    | some c' => rw [h.request c' (firstOf_mono hearlier hfirst)]
  obtain ⟨event, id⟩ := e
  simp only [HandledAfter, firstOf_concat]
  rcases h.order.past hpast with ⟨rfl, hown⟩ | ⟨rfl, hown⟩ | ⟨rfl, hown⟩
  · simp only [if_true, reduceCtorEq, if_false, Option.or_none]
    cases hfirst : firstOf .connectRequest past with
    | none =>
        obtain rfl := horder.eq_nil hfirst
        rw [HandledAfter, hfirst] at ht
        exact ht.request_first
    | some c' =>
        have hc : c' = c := h.request c' (firstOf_mono hearlier hfirst)
        have hdev : verbs id = verbs c :=
          h.device _ (hpast.subset (List.mem_append_right past List.mem_cons_self)) rfl
        rw [HandledAfter, hfirst] at ht
        exact ht.request_later (hc ▸ hdev.symm)
  · have hzero : firstOf .connectRequest past = some c :=
      hrequest id (mem_of_mem_eventsOf (hown ▸ List.mem_cons_self))
    simp only [if_true, reduceCtorEq, if_false, Option.or_none]
    cases hfirst : firstOf .established past with
    | none =>
        have hlast : firstOf .established (past ++ [⟨.established, id⟩]) = some id := by
          simp only [firstOf_concat, hfirst, if_true, Option.none_or]
        have hsome : firstOf .established events = some id := firstOf_mono hpast hlast
        obtain ⟨file, hfile⟩ := Option.isSome_iff_exists.1 (h.file (hsome ▸ rfl))
        have hid : id = c := h.established id hsome
        rw [HandledAfter, hzero, hfirst, horder.no_disconnect hfirst, hfile] at ht
        rw [hzero, horder.no_disconnect hfirst, hfile, hid]
        exact ht.established_first
    | some e' =>
        rw [HandledAfter, hzero, hfirst] at ht
        rw [hzero]
        exact ht.established_later
  · have hzero : firstOf .connectRequest past = some c :=
      hrequest id (mem_of_mem_eventsOf (hown ▸ List.mem_cons_self))
    simp only [if_true, reduceCtorEq, if_false, Option.or_none]
    cases hfirst : firstOf .disconnected past with
    | none =>
        have hlast : firstOf .disconnected (past ++ [⟨.disconnected, id⟩]) = some id := by
          simp only [firstOf_concat, hfirst, if_true, Option.none_or]
        have hid : id = c := h.disconnected id (firstOf_mono hpast hlast)
        rw [HandledAfter, hzero, hfirst] at ht
        rw [hzero, hid]
        exact ht.disconnected_first
    | some d =>
        rw [HandledAfter, hfirst] at ht
        exact ht.disconnected_later

/-- The loop handles such a sequence to its end, calling each handler on connection 0 only. -/
theorem ZeroFirst.run {c : Nat} {events : List CmEvent} (h : ZeroFirst verbs adj_file c events)
    (mr : MemoryRegion) :
    ∃ t, FamServer.run verbs mr adj_file events = .ok true t ∧
    HandledAfter verbs adj_file events t :=
  EventLoop.run_invariant events Handled.init fun _ _ _ hpast ht => h.step hpast ht

/-! ### Connection 0 -/

/-- The handlers have run on connection 0, `c`, and on no other: `on_pre_conn` once, the two others
    at most once. `c` is the only connection with a context, and none was dereferenced where it is
    null. -/
structure OnConnectionZero (c : Nat) (r : EStateM.Result Stop (AbstractServer FamServer) Bool) :
    Prop where
  preConn : calledWith .onPreConn (final r).trace = [c]
  connection : calledWith .onConnection (final r).trace <+: [c]
  disconnect : calledWith .onDisconnect (final r).trace <+: [c]
  context : ∀ id, (final r).derived.context id = true ↔ id = c
  safe : ∀ t, r ≠ .error .nullPointer t

theorem toList_le {o : Option Nat} {c : Nat} (h : ∀ id, o = some id → id = c) :
    o.toList <+: [c] := by
  cases o with
  | none => exact List.nil_prefix
  | some id => exact h id rfl ▸ List.prefix_refl _

/-- What `served` leaves of a sequence: all of it, or all before a request on another device. -/
theorem served_split (verbs : Nat → Nat) (c : Nat) (events : List CmEvent) :
    events = served verbs c events ∨
      ∃ id rest, events = served verbs c events ++ ⟨.connectRequest, id⟩ :: rest ∧
      verbs c ≠ verbs id := by
  induction events with
  | nil => exact .inl rfl
  | cons e events ih =>
      by_cases hkeep : e.event ≠ .connectRequest ∨ verbs e.id = verbs c
      · have hserved : served verbs c (e :: events) = e :: served verbs c events := by
          rw [served, List.takeWhile_cons_of_pos (by exact decide_eq_true hkeep)]
          rfl
        rw [hserved]
        rcases ih with hall | ⟨id, rest, hsplit, hdev⟩
        · exact .inl (congrArg (e :: ·) hall)
        · exact .inr ⟨id, rest, congrArg (e :: ·) hsplit, hdev⟩
      · have hserved : served verbs c (e :: events) = [] := by
          rw [served, List.takeWhile_cons_of_neg (by simpa using hkeep)]
        obtain ⟨event, id⟩ := e
        simp only [not_or, not_not] at hkeep
        rw [hserved, hkeep.1]
        exact .inr ⟨id, events, rfl, fun h => hkeep.2 h.symm⟩

theorem device_of_mem_served {c : Nat} {events : List CmEvent} {e : CmEvent}
    (h : e ∈ served verbs c events) (hkind : e.event = .connectRequest) : verbs e.id = verbs c := by
  have hkeep := List.mem_takeWhile_imp h
  simpa [hkind] using hkeep

/-- What is cut out of the served events is cut out of all events. -/
theorem exists_of_served {c : Nat} {events past rest : List CmEvent} {e : CmEvent}
    (h : served verbs c events = past ++ e :: rest) : ∃ tail, events = past ++ e :: tail := by
  obtain ⟨tail, htail⟩ : served verbs c events <+: events := List.takeWhile_prefix _
  refine ⟨rest ++ tail, ?_⟩
  rw [← htail, h, List.append_assoc, List.cons_append]

section Theorem

variable {events : List CmEvent} {c : Nat}

/-- Connection 0's request is the first event, and served. -/
theorem firstOf_served (horder : ConnectionOrder events) (hzero : connectionZero events = some c) :
    firstOf .connectRequest (served verbs c events) = some c := by
  obtain ⟨past, rest, rfl, hnone⟩ := exists_of_firstOf hzero
  obtain rfl := (horder.earlier (List.prefix_append past _)).eq_nil hnone
  rw [List.nil_append, served, List.takeWhile_cons_of_pos (by simp), firstOf,
    List.find?_cons_of_pos (by simp)]
  rfl

/-- Once anything but a first request comes, connection 0 has been requested. -/
theorem firstOf_request_past {past : List CmEvent} {e : CmEvent} (horder : ConnectionOrder events)
    (hzero : connectionZero events = some c) (hpast : past ++ [e] <+: events)
    (hkind : e.event ≠ .connectRequest) : firstOf .connectRequest past = some c := by
  have hmem : ⟨.connectRequest, e.id⟩ ∈ past := by
    rcases horder.past hpast with ⟨hrequest, -⟩ | ⟨-, hown⟩ | ⟨-, hown⟩
    · exact absurd hrequest hkind
    · exact mem_of_mem_eventsOf (hown ▸ List.mem_cons_self)
    · exact mem_of_mem_eventsOf (hown ▸ List.mem_cons_self)
  cases hfirst : firstOf .connectRequest past with
  | none => exact absurd rfl (firstOf_eq_none.1 hfirst _ hmem)
  | some c' =>
      have hevents := firstOf_mono ((List.prefix_append past [e]).trans hpast) hfirst
      rw [← hzero, connectionZero, hevents]

/-- A part of the served events, up to which the first ESTABLISHED and DISCONNECTED are connection
    0's. -/
theorem zeroFirst_of_earlier {past : List CmEvent} (horder : ConnectionOrder events)
    (hzero : connectionZero events = some c) (hpast : past <+: served verbs c events)
    (hestablished : ∀ id, firstOf .established past = some id → id = c)
    (hdisconnected : ∀ id, firstOf .disconnected past = some id → id = c)
    (hfile : (firstOf .established past).isSome → adj_file.isSome) :
    ZeroFirst verbs adj_file c past where
  order := horder.earlier (hpast.trans (List.takeWhile_prefix _))
  request := by
    intro id hid
    have hfirst := firstOf_mono hpast hid
    rw [firstOf_served horder hzero] at hfirst
    exact (Option.some.inj hfirst).symm
  device := fun e he => device_of_mem_served (hpast.subset he)
  established := hestablished
  disconnected := hdisconnected
  file := hfile

theorem ZeroFirst.run_append {past : List CmEvent} (h : ZeroFirst verbs adj_file c past)
    (mr : MemoryRegion) (rest : List CmEvent) :
    ∃ t, HandledAfter verbs adj_file past t ∧
      FamServer.run verbs mr adj_file (past ++ rest) =
        eventLoop verbs (handlers mr) false rest t := by
  obtain ⟨t, hrun, ht⟩ := h.run mr
  exact ⟨t, ht, EventLoop.run_append_ok rest hrun⟩

/-- The state that connection 0's events alone have marked. -/
theorem HandledAfter.onConnectionZero {past : List CmEvent} {t : AbstractServer FamServer}
    (h : HandledAfter verbs adj_file past t) (hzero : firstOf .connectRequest past = some c)
    (hestablished : ∀ id, firstOf .established past = some id → id = c)
    (hdisconnected : ∀ id, firstOf .disconnected past = some id → id = c) :
    OnConnectionZero c (.ok true t) where
  preConn := by rw [EventLoop.final_ok, h.preConn, hzero]; rfl
  connection := by rw [EventLoop.final_ok, h.connection]; exact toList_le hestablished
  disconnect := by rw [EventLoop.final_ok, h.disconnect]; exact toList_le hdisconnected
  context := by
    intro id
    rw [EventLoop.final_ok, h.context, hzero, Option.some.injEq, eq_comm]
  safe := fun _ h => nomatch h

/-- If connection 0 is the first to be established, and the first to be disconnected in case the
    server got through its start-up, every handler runs on connection 0. -/
theorem onConnectionZero_of_first (horder : ConnectionOrder events)
    (hzero : connectionZero events = some c)
    (hestablished : ∀ id, firstOf .established (served verbs c events) = some id → id = c)
    (hdisconnected : adj_file.isSome →
      ∀ id, firstOf .disconnected (served verbs c events) = some id → id = c) :
    OnConnectionZero c (run verbs mr adj_file events) := by
  have hrequest : firstOf .connectRequest (served verbs c events) = some c :=
    firstOf_served horder hzero
  have hserved : ConnectionOrder (served verbs c events) := horder.earlier (List.takeWhile_prefix _)
  by_cases hfile : (firstOf .established (served verbs c events)).isSome → adj_file.isSome
  · -- Every served event is handled; only a request on another device can stop the loop.
    have hfirst : ∀ id, firstOf .disconnected (served verbs c events) = some id → id = c := by
      intro id hid
      cases hest : firstOf .established (served verbs c events) with
      | none => exact nomatch hid.symm.trans (hserved.no_disconnect hest)
      | some e => exact hdisconnected (hfile (hest ▸ rfl)) id hid
    have hz : ZeroFirst verbs adj_file c (served verbs c events) :=
      zeroFirst_of_earlier horder hzero (List.prefix_refl _) hestablished hfirst hfile
    rcases served_split verbs c events with hall | ⟨id, rest, hsplit, hdev⟩
    · obtain ⟨t, hrun, ht⟩ := hz.run mr
      rw [hall, hrun]
      exact ht.onConnectionZero hrequest hestablished hfirst
    · obtain ⟨t, ht, hrun⟩ := hz.run_append mr (⟨.connectRequest, id⟩ :: rest)
      have hdone := ht.onConnectionZero hrequest hestablished hfirst
      rw [HandledAfter, hrequest] at ht
      obtain ⟨n, hctx⟩ := ht.exists_ctx
      have hstop : handleEvent verbs (handlers mr) false ⟨.connectRequest, id⟩ t = .error _ t :=
        AbstractServer.handleEvent_connectRequest_other hctx hdev
      rw [hsplit, hrun, eventLoop, EventLoop.run_cons_error rest hstop]
      exact { hdone with safe := fun _ h => nomatch h }
  · -- The first ESTABLISHED finds no edge file.
    rw [Classical.not_imp, Bool.not_eq_true, Option.isSome_eq_false_iff,
      Option.isNone_iff_eq_none] at hfile
    obtain ⟨id, hid⟩ := Option.isSome_iff_exists.1 hfile.1
    obtain ⟨past, rest, hsplit, hnone⟩ := exists_of_firstOf hid
    obtain ⟨tail, hall⟩ := exists_of_served hsplit
    obtain rfl : id = c := hestablished id hid
    have hpast : past <+: served verbs id events := hsplit ▸ List.prefix_append past _
    have hquiet := (hserved.earlier hpast).no_disconnect hnone
    have hz : ZeroFirst verbs adj_file id past :=
      zeroFirst_of_earlier horder hzero hpast (fun _ h => nomatch hnone.symm.trans h)
        (fun _ h => nomatch hquiet.symm.trans h) (fun h => nomatch hnone ▸ h)
    obtain ⟨t, ht, hrun⟩ := hz.run_append mr (⟨.established, id⟩ :: tail)
    have hzeroPast : firstOf .connectRequest past = some id :=
      firstOf_request_past horder hzero (hall ▸ concat_earlier past _ tail) (by simp)
    rw [HandledAfter, hzeroPast, hnone, hquiet, hfile.2] at ht
    have hcall : onConnection mr id t.derived = .error _ t.derived :=
      onConnection_no_file ((ht.context id).2 rfl) ht.file
    have hstop : handleEvent verbs (handlers mr) false ⟨.established, id⟩ t = .error _ _ :=
      AbstractServer.handleEvent_established_error ht.latch3 hcall
    rw [hall, hrun, eventLoop, EventLoop.run_cons_error _ hstop]
    exact
      { preConn := by simp [afterCall, ht.preConn]
        connection := by simp [afterCall, ht.connection]
        disconnect := by simp [afterCall, ht.disconnect]
        context := by
          intro id'
          rw [EventLoop.final_error]
          change t.derived.context id' = true ↔ _
          rw [ht.context, Option.some.injEq, eq_comm]
        safe := fun _ h => nomatch h }

/-- For any interleaving of the events of any number of connections, the handlers run on connection
    0 only if and only if the first connection to be established and, where the server gets beyond
    that, the first to be disconnected is connection 0, among the events it serves. -/
theorem handlers_on_connection_zero_iff (verbs : Nat → Nat) (mr : MemoryRegion)
    (adj_file : Option (List UInt8)) (events : List CmEvent) (c : Nat)
    (horder : ConnectionOrder events) (hzero : connectionZero events = some c) :
    OnConnectionZero c (run verbs mr adj_file events) ↔
      (∀ id, firstOf .established (served verbs c events) = some id → id = c) ∧
        (adj_file.isSome →
          ∀ id, firstOf .disconnected (served verbs c events) = some id → id = c) := by
  constructor
  · intro h
    have hestablished : ∀ id, firstOf .established (served verbs c events) = some id → id = c := by
      intro id hid
      obtain ⟨past, rest, hsplit, hnone⟩ := exists_of_firstOf hid
      obtain ⟨tail, hall⟩ := exists_of_served hsplit
      have hpast : past <+: served verbs c events := hsplit ▸ List.prefix_append past _
      have hquiet := (horder.earlier (hpast.trans (List.takeWhile_prefix _))).no_disconnect hnone
      have hz : ZeroFirst verbs adj_file c past :=
        zeroFirst_of_earlier horder hzero hpast (fun _ h => nomatch hnone.symm.trans h)
          (fun _ h => nomatch hquiet.symm.trans h) (fun h => nomatch hnone ▸ h)
      obtain ⟨t, ht, hrun⟩ := hz.run_append mr (⟨.established, id⟩ :: tail)
      rw [HandledAfter, hnone,
        firstOf_request_past horder hzero (hall ▸ concat_earlier past _ tail) (by simp)] at ht
      obtain ⟨n, hctx⟩ := ht.exists_ctx
      have hcalled : .handler .onConnection id ∈ (final (run verbs mr adj_file events)).trace := by
        rw [hall, hrun]
        exact AbstractServer.mem_trace_eventLoop tail
          (AbstractServer.mem_trace_established ht.latch3 hctx)
      exact List.mem_singleton.1 (h.connection.subset (mem_calledWith hcalled))
    refine ⟨hestablished, ?_⟩
    intro hfile id hid
    obtain ⟨past, rest, hsplit, hnone⟩ := exists_of_firstOf hid
    obtain ⟨tail, hall⟩ := exists_of_served hsplit
    have hpast : past <+: served verbs c events := hsplit ▸ List.prefix_append past _
    have hz : ZeroFirst verbs adj_file c past :=
      zeroFirst_of_earlier horder hzero hpast
        (fun e he => hestablished e (firstOf_mono hpast he))
        (fun _ h => nomatch hnone.symm.trans h) (fun _ => hfile)
    obtain ⟨t, ht, hrun⟩ := hz.run_append mr (⟨.disconnected, id⟩ :: tail)
    rw [HandledAfter, hnone] at ht
    have hcalled : .handler .onDisconnect id ∈ (final (run verbs mr adj_file events)).trace := by
      rw [hall, hrun]
      exact AbstractServer.mem_trace_eventLoop tail
        (AbstractServer.mem_trace_disconnected ht.latch4)
    exact List.mem_singleton.1 (h.disconnect.subset (mem_calledWith hcalled))
  · rintro ⟨hestablished, hdisconnected⟩
    exact onConnectionZero_of_first horder hzero hestablished hdisconnected

end Theorem

theorem eventsOf_two {events : List CmEvent}
    (h0 : eventsOf 0 events <+: [.connectRequest, .established, .disconnected])
    (h1 : eventsOf 1 events <+: [.connectRequest, .established, .disconnected])
    (hids : ∀ e ∈ events, e.id < 2) : ConnectionOrder events := by
  intro id
  match id with
  | 0 => exact h0
  | 1 => exact h1
  | id + 2 =>
      have hnone : events.filter (fun e => e.id = id + 2) = [] := by
        rw [List.filter_eq_nil_iff]
        intro e he
        have hlt := hids e he
        rw [decide_eq_true_eq]
        omega
      rw [eventsOf, hnone]
      exact List.nil_prefix

/-- Two connections that come and go in the same order. -/
theorem handlers_on_connection_zero_two :
    OnConnectionZero 0 (run (fun _ => 0) ⟨4096, 7⟩ (some [1, 0, 0, 0])
      [⟨.connectRequest, 0⟩, ⟨.connectRequest, 1⟩, ⟨.established, 0⟩, ⟨.established, 1⟩,
        ⟨.disconnected, 0⟩, ⟨.disconnected, 1⟩]) := by
  apply (handlers_on_connection_zero_iff _ _ _ _ 0
    (eventsOf_two (by decide) (by decide) (by decide)) (by decide)).2
  constructor
  · intro id h
    exact (Option.some.inj h).symm
  · intro _ id h
    exact (Option.some.inj h).symm

/-- A worker's connection that is torn down before connection 0 gets the handler of connection 0,
    which dereferences its null context. -/
theorem disconnect_handler_on_worker :
    let events : List CmEvent := [⟨.connectRequest, 0⟩, ⟨.connectRequest, 1⟩, ⟨.established, 0⟩,
      ⟨.established, 1⟩, ⟨.disconnected, 1⟩, ⟨.disconnected, 0⟩]
    ConnectionOrder events ∧ connectionZero events = some 0 ∧
      calledWith .onDisconnect
        (final (run (fun _ => 0) ⟨4096, 7⟩ (some [1, 0, 0, 0]) events)).trace = [1] ∧
      (∃ t, run (fun _ => 0) ⟨4096, 7⟩ (some [1, 0, 0, 0]) events = .error .nullPointer t) ∧
      ¬ OnConnectionZero 0 (run (fun _ => 0) ⟨4096, 7⟩ (some [1, 0, 0, 0]) events) := by
  intro events
  have hcalled :
      calledWith .onDisconnect
        (final (run (fun _ => 0) ⟨4096, 7⟩ (some [1, 0, 0, 0]) events)).trace = [1] := rfl
  refine ⟨eventsOf_two (by decide) (by decide) (by decide), by decide, hcalled, ⟨_, rfl⟩, ?_⟩
  intro h
  have hearlier := h.disconnect
  rw [hcalled] at hearlier
  exact absurd hearlier (by decide)

end FamGraph.FamServer
