/-
Module: FamGraph.Proofs.AbstractServer
Layer: Proofs
Purpose: What one event does to the loop of `AbstractServer.cpp`, for any derived class: one
  equation for each branch an event of a connection can take, and the fact that every event only
  adds to the trace.
Trusted boundary: none
Main exports: calledWith, mem_trace_eventLoop, handleEvent_connectRequest_first,
  handleEvent_established_first, handleEvent_disconnected_first
-/
import FamGraph.Core.AbstractServer

namespace FamGraph

open EventLoop (final bind_ok bind_error)

/-- The ids the virtual function `f` was called with, in order. -/
def calledWith (f : Virtual) (trace : List Action) : List Nat :=
  trace.filterMap fun
    | .handler g id => if g = f then some id else none
    | _ => none

@[simp] theorem calledWith_nil (f : Virtual) : calledWith f [] = [] := rfl

@[simp] theorem calledWith_append (f : Virtual) (xs ys : List Action) :
    calledWith f (xs ++ ys) = calledWith f xs ++ calledWith f ys :=
  List.filterMap_append

@[simp] theorem calledWith_handler (f g : Virtual) (id : Nat) (xs : List Action) :
    calledWith f (.handler g id :: xs) =
      if g = f then id :: calledWith f xs else calledWith f xs := by
  cases f <;> cases g <;> rfl

@[simp] theorem calledWith_createQp (f : Virtual) (id : Nat) (attr : QpInitAttr)
    (xs : List Action) :
    calledWith f (.createQp id attr :: xs) = calledWith f xs := rfl

@[simp] theorem calledWith_accept (f : Virtual) (id : Nat) (params : ConnParam) (xs : List Action) :
    calledWith f (.accept id params :: xs) = calledWith f xs := rfl

@[simp] theorem calledWith_destroyQp (f : Virtual) (id : Nat) (xs : List Action) :
    calledWith f (.destroyQp id :: xs) = calledWith f xs := rfl

@[simp] theorem calledWith_destroyId (f : Virtual) (id : Nat) (xs : List Action) :
    calledWith f (.destroyId id :: xs) = calledWith f xs := rfl

theorem mem_calledWith {f : Virtual} {trace : List Action} {id : Nat} (h : .handler f id ∈ trace) :
    id ∈ calledWith f trace := by
  rw [calledWith, List.mem_filterMap]
  exact ⟨.handler f id, h, if_pos rfl⟩

namespace AbstractServer

variable {σ : Type} {verbs : Nat → Nat} {handlers : Handlers σ} {exit_on_disconnect : Bool}

/-! ### The trace only grows -/

/-- A computation that keeps the trace it finds and may add to it. -/
def Extends {α : Type} (m : EStateM Stop (AbstractServer σ) α) : Prop :=
  ∀ s, s.trace <+: (final (m s)).trace

theorem Extends.bind {α β : Type} {m : EStateM Stop (AbstractServer σ) α}
    {f : α → EStateM Stop (AbstractServer σ) β} (hm : Extends m) (hf : ∀ a, Extends (f a)) :
    Extends (m >>= f) := by
  intro s
  have hfirst : s.trace <+: (final (m s)).trace := hm s
  cases h : m s with
  | ok a t =>
      rw [h] at hfirst
      rw [bind_ok h]
      exact hfirst.trans (hf a t)
  | error x t =>
      rw [h] at hfirst
      rw [bind_error h]
      exact hfirst

theorem Extends.pure {α : Type} (a : α) : Extends (σ := σ) (pure a) :=
  fun s => List.prefix_refl s.trace

theorem Extends.throw {α : Type} (x : Stop) : Extends (σ := σ) (α := α) (throw x) :=
  fun s => List.prefix_refl s.trace

theorem Extends.get : Extends (σ := σ) get :=
  fun s => List.prefix_refl s.trace

theorem Extends.modify {f : AbstractServer σ → AbstractServer σ} (h : ∀ s, (f s).trace = s.trace) :
    Extends (modify f : EStateM Stop (AbstractServer σ) Unit) :=
  fun s => (h s).symm ▸ List.prefix_refl s.trace

theorem Extends.ite {α : Type} {c : Prop} [Decidable c] {m n : EStateM Stop (AbstractServer σ) α}
    (hm : Extends m) (hn : Extends n) : Extends (if c then m else n) := by
  split
  · exact hm
  · exact hn

theorem Extends.emit (a : Action) : Extends (σ := σ) (emit a) :=
  fun s => List.prefix_append s.trace [a]

theorem Extends.call (f : Virtual) (id : Nat) : Extends (call handlers f id) := by
  apply Extends.bind (Extends.emit _)
  intro _ s
  cases h : handlers.call f id s.derived with
  | ok a d => simp only [h, EventLoop.final_ok, List.prefix_refl]
  | error x d => simp only [h, EventLoop.final_error, List.prefix_refl]

theorem Extends.buildConnection (id : Nat) (is_qp0 : Bool) :
    Extends (σ := σ) (buildConnection verbs id is_qp0) := by
  apply Extends.bind
  · apply Extends.bind Extends.get
    intro s
    cases s.fam_ib_ctx with
    | none => exact Extends.modify fun _ => rfl
    | some c =>
        apply Extends.ite
        · exact Extends.throw _
        · exact Extends.pure ()
  · intro _
    exact Extends.emit _

theorem Extends.callUnless (latch : Bool) (f : Virtual) (id : Nat) :
    Extends (callUnless handlers latch f id) := by
  cases latch with
  | false => exact Extends.call f id
  | true => exact Extends.pure ()

theorem Extends.handleEvent (e : CmEvent) :
    Extends (handleEvent verbs handlers exit_on_disconnect e) := by
  obtain ⟨event, id⟩ := e
  cases event with
  | addrResolved =>
      exact Extends.get.bind fun s => (Extends.buildConnection id _).bind fun _ =>
        (Extends.callUnless s.latch0 .onPreConn id).bind fun _ => (Extends.emit _).bind fun _ =>
          (Extends.modify (by exact fun _ => rfl)).bind fun _ => Extends.pure true
  | routeResolved => exact (Extends.emit _).bind fun _ => Extends.pure true
  | connectRequest =>
      exact Extends.get.bind fun s => (Extends.buildConnection id _).bind fun _ =>
        (Extends.callUnless s.latch2 .onPreConn id).bind fun _ => (Extends.emit _).bind fun _ =>
          (Extends.modify (by exact fun _ => rfl)).bind fun _ => Extends.pure true
  | established =>
      apply Extends.get.bind
      intro s
      apply (Extends.callUnless s.latch3 .onConnection id).bind
      intro _
      apply (Extends.modify (by exact fun _ => rfl)).bind
      intro _
      have hcount : Extends (σ := σ) countConnection := by
        apply Extends.get.bind
        intro t
        cases t.fam_ib_ctx with
        | none => exact Extends.throw _
        | some c => exact Extends.modify fun _ => rfl
      exact hcount.bind fun _ => Extends.pure true
  | disconnected =>
      apply (Extends.emit _).bind
      intro _
      apply Extends.get.bind
      intro s
      apply (Extends.callUnless s.latch4 .onDisconnect id).bind
      intro _
      apply (Extends.emit _).bind
      intro _
      cases exit_on_disconnect with
      | true => exact Extends.pure false
      | false => exact (Extends.modify fun _ => rfl).bind fun _ => Extends.pure true
  | addrError | routeError | connectResponse | connectError | unreachable | rejected | deviceRemoval
  | multicastJoin | multicastError | addrChange | timewaitExit => exact Extends.throw _

/-- What the first event of a run puts in the trace stays there, however the loop ends. -/
theorem mem_trace_eventLoop {a : Action} {e : CmEvent} (events : List CmEvent)
    {s : AbstractServer σ}
    (h : a ∈ (final (handleEvent verbs handlers exit_on_disconnect e s)).trace) :
    a ∈ (final (eventLoop verbs handlers exit_on_disconnect (e :: events) s)).trace := by
  apply List.IsPrefix.mem h
  exact EventLoop.run_final_cons (R := fun s t : AbstractServer σ => s.trace <+: t.trace)
    (fun _ => List.prefix_refl _) (fun _ _ _ => List.IsPrefix.trans)
    (fun e s => Extends.handleEvent e s) e events s

/-! ### The branches of the loop -/

variable {s : AbstractServer σ} {id : Nat}

/-- The state after a handler was called and left `derived` behind. -/
def afterCall (s : AbstractServer σ) (f : Virtual) (id : Nat) (derived : σ) : AbstractServer σ :=
  { s with trace := s.trace ++ [.handler f id], derived := derived }

theorem emit_eq (a : Action) (s : AbstractServer σ) :
    emit a s = .ok () { s with trace := s.trace ++ [a] } := rfl

theorem callUnless_ok {latch : Bool} {f : Virtual} {derived : σ} (hlatch : latch = false)
    (h : handlers.call f id s.derived = .ok () derived) :
    callUnless handlers latch f id s = .ok () (s.afterCall f id derived) := by
  rw [callUnless, hlatch, Bool.not_false, if_pos rfl]
  apply (bind_ok (emit_eq _ s)).trans
  simp only [h, afterCall]

theorem callUnless_error {latch : Bool} {f : Virtual} {stop : Stop} {derived : σ}
    (hlatch : latch = false) (h : handlers.call f id s.derived = .error stop derived) :
    callUnless handlers latch f id s = .error stop (s.afterCall f id derived) := by
  rw [callUnless, hlatch, Bool.not_false, if_pos rfl]
  apply (bind_ok (emit_eq _ s)).trans
  simp only [h, afterCall]

theorem buildConnection_same {c : FamIbContext} (is_qp0 : Bool) (h : s.fam_ib_ctx = some c)
    (hdev : c.ctx = verbs id) :
    buildConnection verbs id is_qp0 s =
      .ok () { s with trace := s.trace ++ [.createQp id (buildQpAttr is_qp0)] } := by
  have hctx : buildContext (verbs id) s = .ok () s := by
    apply (bind_ok rfl).trans
    simp only [h, hdev, ne_eq, not_true_eq_false, if_false]
    rfl
  exact (bind_ok hctx).trans (emit_eq _ s)

theorem buildConnection_other {c : FamIbContext} (is_qp0 : Bool) (h : s.fam_ib_ctx = some c)
    (hdev : c.ctx ≠ verbs id) :
    buildConnection verbs id is_qp0 s =
      .error (.rcDie "cannot handle events in more than one context.") s := by
  apply bind_error
  apply (bind_ok rfl).trans
  simp only [h, hdev, ne_eq, not_false_eq_true, if_true]
  rfl

/-- The first CONNECT_REQUEST makes the context and runs the handler. -/
theorem handleEvent_connectRequest_first {derived : σ} (hlatch : s.latch2 = false)
    (hctx : s.fam_ib_ctx = none) (hcall : handlers.call .onPreConn id s.derived = .ok () derived) :
    handleEvent verbs handlers exit_on_disconnect ⟨.connectRequest, id⟩ s = .ok true
      { s with
        latch2 := true
        fam_ib_ctx := some { ctx := verbs id, connections := 0 }
        trace := s.trace ++ [.createQp id (buildQpAttr true)] ++ [.handler .onPreConn id] ++
          [.accept id buildParams]
        derived := derived } := by
  cases s
  cases hlatch
  cases hctx
  apply (bind_ok rfl).trans
  apply (bind_ok rfl).trans
  apply (bind_ok (callUnless_ok rfl (by exact hcall))).trans
  rfl

/-- A later CONNECT_REQUEST on the same device only gets its queue pair. -/
theorem handleEvent_connectRequest_later {c : FamIbContext} (hlatch : s.latch2 = true)
    (hctx : s.fam_ib_ctx = some c) (hdev : c.ctx = verbs id) :
    handleEvent verbs handlers exit_on_disconnect ⟨.connectRequest, id⟩ s = .ok true
      { s with
        trace := s.trace ++ [.createQp id (buildQpAttr false)] ++ [.accept id buildParams] } := by
  have hbuild : buildConnection verbs id false s = .ok () _ := buildConnection_same false hctx hdev
  cases s
  cases hlatch
  apply (bind_ok rfl).trans
  apply (bind_ok hbuild).trans
  rfl

/-- A CONNECT_REQUEST on another device ends the process. -/
theorem handleEvent_connectRequest_other {c : FamIbContext} (hctx : s.fam_ib_ctx = some c)
    (hdev : c.ctx ≠ verbs id) :
    handleEvent verbs handlers exit_on_disconnect ⟨.connectRequest, id⟩ s =
      .error (.rcDie "cannot handle events in more than one context.") s := by
  apply (bind_ok rfl).trans
  exact bind_error (buildConnection_other _ hctx hdev)

/-- The first ESTABLISHED runs the handler, and is counted when that returns. -/
theorem handleEvent_established_first {c : FamIbContext} {derived : σ} (hlatch : s.latch3 = false)
    (hctx : s.fam_ib_ctx = some c)
    (hcall : handlers.call .onConnection id s.derived = .ok () derived) :
    handleEvent verbs handlers exit_on_disconnect ⟨.established, id⟩ s = .ok true
      { s with
        latch3 := true
        fam_ib_ctx := some { c with connections := c.connections + 1 }
        trace := s.trace ++ [.handler .onConnection id]
        derived := derived } := by
  cases s
  cases hlatch
  cases hctx
  apply (bind_ok rfl).trans
  apply (bind_ok (callUnless_ok rfl (by exact hcall))).trans
  rfl

theorem handleEvent_established_error {stop : Stop} {derived : σ} (hlatch : s.latch3 = false)
    (hcall : handlers.call .onConnection id s.derived = .error stop derived) :
    handleEvent verbs handlers exit_on_disconnect ⟨.established, id⟩ s =
      .error stop (s.afterCall .onConnection id derived) := by
  cases s
  cases hlatch
  apply (bind_ok rfl).trans
  exact bind_error (callUnless_error rfl (by exact hcall))

theorem handleEvent_established_later {c : FamIbContext} (hlatch : s.latch3 = true)
    (hctx : s.fam_ib_ctx = some c) :
    handleEvent verbs handlers exit_on_disconnect ⟨.established, id⟩ s = .ok true
      { s with fam_ib_ctx := some { c with connections := c.connections + 1 } } := by
  cases s
  cases hlatch
  cases hctx
  rfl

/-- Whatever becomes of it, the first ESTABLISHED calls the handler on its own connection. -/
theorem mem_trace_established {c : FamIbContext} (hlatch : s.latch3 = false)
    (hctx : s.fam_ib_ctx = some c) :
    .handler .onConnection id ∈
      (final (handleEvent verbs handlers exit_on_disconnect ⟨.established, id⟩ s)).trace := by
  cases hcall : handlers.call .onConnection id s.derived with
  | ok a derived =>
      rw [handleEvent_established_first hlatch hctx hcall]
      exact List.mem_append_right _ List.mem_cons_self
  | error stop derived =>
      rw [handleEvent_established_error hlatch hcall]
      exact List.mem_append_right _ List.mem_cons_self

/-- The first DISCONNECTED runs the handler between the two calls that take the connection down. -/
theorem handleEvent_disconnected_first {derived : σ} (hlatch : s.latch4 = false)
    (hcall : handlers.call .onDisconnect id s.derived = .ok () derived) :
    handleEvent verbs handlers false ⟨.disconnected, id⟩ s = .ok true
      { s with
        latch4 := true
        trace := s.trace ++ [.destroyQp id] ++ [.handler .onDisconnect id] ++ [.destroyId id]
        derived := derived } := by
  cases s
  cases hlatch
  apply (bind_ok rfl).trans
  apply (bind_ok rfl).trans
  apply (bind_ok (callUnless_ok rfl (by exact hcall))).trans
  rfl

theorem handleEvent_disconnected_error {stop : Stop} {derived : σ} (hlatch : s.latch4 = false)
    (hcall : handlers.call .onDisconnect id s.derived = .error stop derived) :
    handleEvent verbs handlers exit_on_disconnect ⟨.disconnected, id⟩ s = .error stop
      { s with
        trace := s.trace ++ [.destroyQp id] ++ [.handler .onDisconnect id]
        derived := derived } := by
  cases s
  cases hlatch
  apply (bind_ok rfl).trans
  apply (bind_ok rfl).trans
  exact bind_error (callUnless_error rfl (by exact hcall))

theorem handleEvent_disconnected_later (hlatch : s.latch4 = true) :
    handleEvent verbs handlers false ⟨.disconnected, id⟩ s =
      .ok true { s with trace := s.trace ++ [.destroyQp id] ++ [.destroyId id] } := by
  cases s
  cases hlatch
  rfl

/-- Whatever becomes of it, the first DISCONNECTED calls the handler on its own connection. -/
theorem mem_trace_disconnected (hlatch : s.latch4 = false) :
    .handler .onDisconnect id ∈
      (final (handleEvent verbs handlers false ⟨.disconnected, id⟩ s)).trace := by
  cases hcall : handlers.call .onDisconnect id s.derived with
  | ok a derived =>
      rw [handleEvent_disconnected_first hlatch hcall]
      exact List.mem_append_left _ (List.mem_append_right _ List.mem_cons_self)
  | error stop derived =>
      rw [handleEvent_disconnected_error hlatch hcall]
      exact List.mem_append_right _ List.mem_cons_self

end AbstractServer

end FamGraph
