/-
Module: FamGraph.Proofs.ConnectionUtils
Layer: Proofs
Purpose: The two copies of the connection manager's loop are one program: on the same events they
  make the same calls in the same order and end the same way, but for the calls through a null
  pointer. And how often a handler runs: once for the first event of its kind, and never again in
  the life of a loop.
Trusted boundary: none
Main exports: ConnectionUtils.Same, ConnectionUtils.event_loops_agree, AbstractServer.firsts,
  AbstractServer.handlers_run_for_first_events
-/
import FamGraph.Core.ConnectionUtils
import FamGraph.Foundation.Lockstep
import FamGraph.Proofs.AbstractServer

namespace FamGraph

open EventLoop (final bind_ok bind_error)

namespace ConnectionUtils

/-! ### Two copies of one loop -/

section Agree

variable {σ : Type} {cb : Callbacks σ} {verbs : Nat → Nat}

/-- The virtual functions of a derived class that does what the pointers say; a null pointer does
    nothing. -/
def Callbacks.handlers (cb : Callbacks σ) : Handlers σ where
  call f id :=
    match cb.pointer f with
    | some pointer => pointer id
    | none => pure ()

/-- A call that the copy with the pointers makes too. -/
def Callbacks.makes (cb : Callbacks σ) : Action → Bool
  | .handler f _ => (cb.pointer f).isSome
  | _ => true

/-- The other copy's name for a context. -/
def Context.toFam (c : Context) : FamIbContext := { ctx := c.ctx, connections := c.connections }

/-- The two loops stand at the same point. -/
structure Same (cb : Callbacks σ) (c : ClientLoop σ) (s : AbstractServer σ) : Prop where
  latch0 : c.latch0 = s.latch0
  latch2 : c.latch2 = s.latch2
  latch3 : c.latch3 = s.latch3
  latch4 : c.latch4 = s.latch4
  ctx : c.s_ctx.map Context.toFam = s.fam_ib_ctx
  trace : c.trace = s.trace.filter cb.makes
  derived : c.derived = s.derived

theorem same_new (derived : σ) : Same cb (.new derived) (.new derived) :=
  ⟨rfl, rfl, rfl, rfl, rfl, rfl, rfl⟩

/-- A call that is not one of a handler. -/
theorem lockstep_emit {a : Action} (ha : cb.makes a = true) :
    Lockstep (Same cb) (emit a) (AbstractServer.emit a) := by
  apply Lockstep.modify
  intro c s h
  exact { h with trace := by simp [h.trace, ha] }

theorem lockstep_call {f : Virtual} {pointer : Nat → EStateM Stop σ Unit}
    (hf : cb.pointer f = some pointer) (id : Nat) :
    Lockstep (Same cb) (callPointer f pointer id) (AbstractServer.call cb.handlers f id) := by
  have hmakes : cb.makes (.handler f id) = true := by
    rw [Callbacks.makes, hf]
    rfl
  apply (lockstep_emit hmakes).bind
  intro _ c s h
  have hcall : cb.handlers.call f id s.derived = pointer id c.derived := by
    simp only [Callbacks.handlers, hf, h.derived]
  simp only [hcall]
  cases pointer id c.derived with
  | ok _ derived => exact .ok () { h with derived := rfl }
  | error stop derived => exact .error stop { h with derived := rfl }

theorem lockstep_callUnless (latch : Bool) (f : Virtual) (id : Nat) :
    Lockstep (Same cb) (callUnless cb latch f id)
      (AbstractServer.callUnless cb.handlers latch f id) := by
  rw [callUnless, AbstractServer.callUnless]
  cases hf : cb.pointer f with
  | some pointer => exact Lockstep.ite Iff.rfl (lockstep_call hf id) (Lockstep.pure ())
  | none =>
      cases latch with
      | true => exact Lockstep.pure ()
      | false =>
          -- the other copy calls a handler that does nothing, and its trace says so
          intro c s h
          have hcall : AbstractServer.call cb.handlers f id s =
              .ok () { s with trace := s.trace ++ [.handler f id] } := by
            apply (bind_ok (AbstractServer.emit_eq _ s)).trans
            simp only [Callbacks.handlers, hf]
            rfl
          rw [Bool.not_false, if_pos rfl, hcall]
          exact .ok () { h with trace := by simp [h.trace, Callbacks.makes, hf] }

theorem lockstep_buildConnection (id : Nat) (is_qp0 : Bool) :
    Lockstep (Same cb) (buildConnection verbs id is_qp0)
      (AbstractServer.buildConnection verbs id is_qp0) := by
  apply Lockstep.bind
  · apply Lockstep.get_bind
    intro c s h
    have hctx := h.ctx
    cases hc : c.s_ctx with
    | none =>
        rw [hc] at hctx
        rw [← hctx]
        apply Lockstep.modify
        intro c' s' h'
        exact { h' with ctx := rfl }
    | some s_ctx =>
        rw [hc] at hctx
        rw [← hctx]
        exact Lockstep.ite Iff.rfl (Lockstep.throw _) (Lockstep.pure ())
  · intro _
    exact lockstep_emit rfl

theorem lockstep_countConnection :
    Lockstep (Same cb) (countConnection (σ := σ)) AbstractServer.countConnection := by
  apply Lockstep.get_bind
  intro c s h
  have hctx := h.ctx
  cases hc : c.s_ctx with
  | none =>
      rw [hc] at hctx
      rw [← hctx]
      exact Lockstep.throw _
  | some s_ctx =>
      rw [hc] at hctx
      rw [← hctx]
      apply Lockstep.modify
      intro c' s' h'
      exact { h' with ctx := rfl }

theorem lockstep_handleEvent (exit_on_disconnect : Bool) (e : CmEvent) :
    Lockstep (Same cb) (handleEvent verbs cb exit_on_disconnect e)
      (AbstractServer.handleEvent verbs cb.handlers exit_on_disconnect e) := by
  obtain ⟨event, id⟩ := e
  cases event with
  | addrResolved =>
      apply Lockstep.get_bind
      intro c s h
      rw [h.latch0]
      apply (lockstep_buildConnection id _).bind
      intro _
      apply (lockstep_callUnless _ .onPreConn id).bind
      intro _
      apply (lockstep_emit rfl).bind
      intro _
      exact (Lockstep.modify fun _ _ h => { h with latch0 := rfl }).bind fun _ => Lockstep.pure true
  | routeResolved => exact (lockstep_emit rfl).bind fun _ => Lockstep.pure true
  | connectRequest =>
      apply Lockstep.get_bind
      intro c s h
      rw [h.latch2]
      apply (lockstep_buildConnection id _).bind
      intro _
      apply (lockstep_callUnless _ .onPreConn id).bind
      intro _
      apply (lockstep_emit rfl).bind
      intro _
      exact (Lockstep.modify fun _ _ h => { h with latch2 := rfl }).bind fun _ => Lockstep.pure true
  | established =>
      apply Lockstep.get_bind
      intro c s h
      rw [h.latch3]
      apply (lockstep_callUnless _ .onConnection id).bind
      intro _
      apply (Lockstep.modify fun _ _ h => { h with latch3 := rfl }).bind
      intro _
      exact lockstep_countConnection.bind fun _ => Lockstep.pure true
  | disconnected =>
      apply (lockstep_emit rfl).bind
      intro _
      apply Lockstep.get_bind
      intro c s h
      rw [h.latch4]
      apply (lockstep_callUnless _ .onDisconnect id).bind
      intro _
      apply (lockstep_emit rfl).bind
      intro _
      cases exit_on_disconnect with
      | true => exact Lockstep.pure false
      | false =>
          exact (Lockstep.modify fun _ _ h => { h with latch4 := rfl }).bind fun _ =>
            Lockstep.pure true
  | addrError | routeError | connectResponse | connectError | unreachable | rejected | deviceRemoval
  | multicastJoin | multicastError | addrChange | timewaitExit => exact Lockstep.throw _

/-- `event_loop` of `connection_utils.cpp` and `AbstractServer::event_loop` are one program. On any
    events they return, break or throw alike, with the same latches, the same context and the same
    work done by the handlers; the calls out of the first are those of the second without the ones
    through null pointers. -/
theorem event_loops_agree (verbs : Nat → Nat) (cb : Callbacks σ) (exit_on_disconnect : Bool)
    (events : List CmEvent) (derived : σ) :
    Lockstep.Alike (Same cb) (eventLoop verbs cb exit_on_disconnect events (.new derived))
      (AbstractServer.eventLoop verbs cb.handlers exit_on_disconnect events (.new derived)) :=
  Lockstep.run (lockstep_handleEvent exit_on_disconnect) events _ _ (same_new derived)

end Agree

end ConnectionUtils

namespace AbstractServer

/-! ### Which events reach a handler -/

/-- The call of a handler that an event of a kind asks for. -/
def gate (e : CmEvent) : Option (Virtual × Nat) :=
  match e.event with
  | .addrResolved => some (.onPreConn, e.id)
  | .connectRequest => some (.onPreConn, e.id)
  | .established => some (.onConnection, e.id)
  | .disconnected => some (.onDisconnect, e.id)
  | _ => none

/-- The events that are the first of their kind, after events of the kinds `seen`. -/
def firsts (seen : List CmEventType) : List CmEvent → List CmEvent
  | [] => []
  | e :: events =>
      if e.event ∈ seen then firsts seen events else e :: firsts (e.event :: seen) events

/-- The calls of handlers in a trace. -/
def handlerCalls (trace : List Action) : List (Virtual × Nat) :=
  trace.filterMap fun
    | .handler f id => some (f, id)
    | _ => none

@[simp] theorem handlerCalls_append (xs ys : List Action) :
    handlerCalls (xs ++ ys) = handlerCalls xs ++ handlerCalls ys :=
  List.filterMap_append

@[simp] theorem handlerCalls_handler (f : Virtual) (id : Nat) :
    handlerCalls [.handler f id] = [(f, id)] := rfl

@[simp] theorem handlerCalls_createQp (id : Nat) (attr : QpInitAttr) :
    handlerCalls [.createQp id attr] = [] := rfl

@[simp] theorem handlerCalls_resolveRoute (id timeout : Nat) :
    handlerCalls [.resolveRoute id timeout] = [] := rfl

@[simp] theorem handlerCalls_connect (id : Nat) (params : ConnParam) :
    handlerCalls [.connect id params] = [] := rfl

@[simp] theorem handlerCalls_accept (id : Nat) (params : ConnParam) :
    handlerCalls [.accept id params] = [] := rfl

@[simp] theorem handlerCalls_destroyQp (id : Nat) : handlerCalls [.destroyQp id] = [] := rfl

@[simp] theorem handlerCalls_destroyId (id : Nat) : handlerCalls [.destroyId id] = [] := rfl

section Gates

variable {σ : Type} {handlers : Handlers σ} {verbs : Nat → Nat} {s t : AbstractServer σ} {id : Nat}

/-- `fam_ib_ctx->connections`, none before there is a context. -/
def numConnections (s : AbstractServer σ) : Nat := (s.fam_ib_ctx.map (·.connections)).getD 0

/-- The latches are set for the kinds `seen`. -/
structure Latched (s : AbstractServer σ) (seen : List CmEventType) : Prop where
  latch0 : s.latch0 = decide (.addrResolved ∈ seen)
  latch2 : s.latch2 = decide (.connectRequest ∈ seen)
  latch3 : s.latch3 = decide (.established ∈ seen)
  latch4 : s.latch4 = decide (.disconnected ∈ seen)

theorem latched_new (derived : σ) : Latched (.new derived) [] :=
  ⟨rfl, rfl, rfl, rfl⟩

/-- `s` and `t` differ in nothing the gates are about but the calls `new`. -/
structure Quiet (s t : AbstractServer σ) (new : List (Virtual × Nat)) : Prop where
  latch0 : t.latch0 = s.latch0
  latch2 : t.latch2 = s.latch2
  latch3 : t.latch3 = s.latch3
  latch4 : t.latch4 = s.latch4
  calls : handlerCalls t.trace = handlerCalls s.trace ++ new
  connections : t.numConnections = s.numConnections

theorem Quiet.trans {u : AbstractServer σ} {new new' : List (Virtual × Nat)} (h : Quiet s t new)
    (h' : Quiet t u new') : Quiet s u (new ++ new') where
  latch0 := h'.latch0.trans h.latch0
  latch2 := h'.latch2.trans h.latch2
  latch3 := h'.latch3.trans h.latch3
  latch4 := h'.latch4.trans h.latch4
  calls := by rw [h'.calls, h.calls, List.append_assoc]
  connections := h'.connections.trans h.connections

/-- Whether or not `m` returns, its calls are the first of `new`; if it returns, they are all of
    them. -/
def Makes {α : Type} (m : EStateM Stop (AbstractServer σ) α) (new : List (Virtual × Nat)) : Prop :=
  ∀ s, (∃ a t, m s = .ok a t ∧ Quiet s t new) ∨
    ∃ x t done, m s = .error x t ∧ Quiet s t done ∧ done <+: new

theorem Makes.bind {α β : Type} {m : EStateM Stop (AbstractServer σ) α}
    {f : α → EStateM Stop (AbstractServer σ) β} {new new' : List (Virtual × Nat)} (hm : Makes m new)
    (hf : ∀ a, Makes (f a) new') : Makes (m >>= f) (new ++ new') := by
  intro s
  cases hm s with
  | inl hok =>
      obtain ⟨a, t, heq, hquiet⟩ := hok
      rw [bind_ok heq]
      cases hf a t with
      | inl hok' =>
          obtain ⟨b, u, heq', hquiet'⟩ := hok'
          exact .inl ⟨b, u, heq', hquiet.trans hquiet'⟩
      | inr herror =>
          obtain ⟨x, u, done, heq', hquiet', hdone⟩ := herror
          exact .inr ⟨x, u, new ++ done, heq', hquiet.trans hquiet',
            (List.prefix_append_right_inj new).2 hdone⟩
  | inr herror =>
      obtain ⟨x, t, done, heq, hquiet, hdone⟩ := herror
      rw [bind_error heq]
      exact .inr ⟨x, t, done, rfl, hquiet, hdone.trans (List.prefix_append new new')⟩

theorem makes_emit {a : Action} (ha : handlerCalls [a] = []) : Makes (σ := σ) (emit a) [] :=
  fun s => .inl ⟨(), _, rfl, ⟨rfl, rfl, rfl, rfl, by rw [handlerCalls_append, ha], rfl⟩⟩

theorem makes_callUnless (latch : Bool) (f : Virtual) (id : Nat) :
    Makes (callUnless handlers latch f id) (if latch then [] else [(f, id)]) := by
  intro s
  cases latch with
  | true => exact .inl ⟨(), s, rfl, ⟨rfl, rfl, rfl, rfl, (List.append_nil _).symm, rfl⟩⟩
  | false =>
      have hcalls : ∀ derived, Quiet s (s.afterCall f id derived) [(f, id)] :=
        fun derived => ⟨rfl, rfl, rfl, rfl, handlerCalls_append _ _, rfl⟩
      cases hcall : handlers.call f id s.derived with
      | ok _ derived => exact .inl ⟨(), _, callUnless_ok rfl hcall, hcalls derived⟩
      | error stop derived =>
          exact .inr ⟨stop, _, _, callUnless_error rfl hcall, hcalls derived, List.prefix_refl _⟩

theorem makes_buildConnection (id : Nat) (is_qp0 : Bool) :
    Makes (σ := σ) (buildConnection verbs id is_qp0) [] := by
  have hcontext : Makes (σ := σ) (buildContext (verbs id)) [] := by
    intro s
    cases hctx : s.fam_ib_ctx with
    | none =>
        refine .inl ⟨(), { s with fam_ib_ctx := some { ctx := verbs id, connections := 0 } }, ?_,
          ⟨rfl, rfl, rfl, rfl, (List.append_nil _).symm, by simp [numConnections, hctx]⟩⟩
        apply (bind_ok rfl).trans
        simp only [hctx]
        rfl
    | some c =>
        have hsame : Quiet s s [] := ⟨rfl, rfl, rfl, rfl, (List.append_nil _).symm, rfl⟩
        by_cases hdev : c.ctx = verbs id
        · refine .inl ⟨(), s, ?_, hsame⟩
          apply (bind_ok rfl).trans
          simp only [hctx, hdev, ne_eq, not_true_eq_false, if_false]
          rfl
        · refine .inr ⟨.rcDie "cannot handle events in more than one context.", s, [], ?_, hsame,
            List.prefix_refl _⟩
          apply (bind_ok rfl).trans
          simp only [hctx, hdev, ne_eq, not_false_eq_true, if_true]
          rfl
  exact hcontext.bind fun _ => makes_emit rfl

variable {seen : List CmEventType} {e : CmEvent} {exit_on_disconnect : Bool}

/-- The calls an event may make: the gate of its kind opens once. -/
def allowed (seen : List CmEventType) (e : CmEvent) : List (Virtual × Nat) :=
  if e.event ∈ seen then [] else (gate e).toList

/-- What one event is to do, given the kinds of the events before it. -/
structure Served (s t : AbstractServer σ) (seen : List CmEventType) (e : CmEvent) : Prop where
  calls : handlerCalls t.trace = handlerCalls s.trace ++ allowed seen e
  latched : Latched t (if e.event ∈ seen then seen else e.event :: seen)
  connections : t.numConnections = s.numConnections + if e.event = .established then 1 else 0

/-- What becomes of an event: it is served, or the loop ends with it. -/
def Outcome (s : AbstractServer σ) (seen : List CmEventType) (e : CmEvent) :
    EStateM.Result Stop (AbstractServer σ) Bool → Prop
  | .ok true t => Served s t seen e
  | .ok false t | .error _ t =>
      (∃ done, handlerCalls t.trace = handlerCalls s.trace ++ done ∧ done <+: allowed seen e) ∧
        t.numConnections = s.numConnections

/-- The rule for a part of the handler that comes after the calls `past`. -/
theorem Makes.outcome {α : Type} {m : EStateM Stop (AbstractServer σ) α}
    {past new : List (Virtual × Nat)} {f : α → EStateM Stop (AbstractServer σ) Bool}
    (hm : Makes m new) (ht : Quiet s t past) (hle : past ++ new <+: allowed seen e)
    (hf : ∀ a u, Quiet s u (past ++ new) → Outcome s seen e (f a u)) :
    Outcome s seen e ((m >>= f) t) := by
  cases hm t with
  | inl hok =>
      obtain ⟨a, u, heq, hquiet⟩ := hok
      rw [bind_ok heq]
      exact hf a u (ht.trans hquiet)
  | inr herror =>
      obtain ⟨x, u, done, heq, hquiet, hdone⟩ := herror
      rw [bind_error heq]
      have hu : Quiet s u (past ++ done) := ht.trans hquiet
      exact ⟨⟨past ++ done, hu.calls, ((List.prefix_append_right_inj past).2 hdone).trans hle⟩,
        hu.connections⟩

theorem quiet_refl (s : AbstractServer σ) : Quiet s s [] :=
  ⟨rfl, rfl, rfl, rfl, (List.append_nil _).symm, rfl⟩

/-- The gate of a kind whose latch is as the events before say lets through what is allowed. -/
theorem allowed_eq {f : Virtual} {latch : Bool} (hgate : gate e = some (f, e.id))
    (hlatch : latch = decide (e.event ∈ seen)) :
    (if latch then [] else [(f, e.id)]) = allowed seen e := by
  rw [allowed, hgate, hlatch]
  by_cases hseen : e.event ∈ seen
  · simp [hseen]
  · simp [hseen]

/-- The latch of its kind is set behind an event. -/
theorem Latched.next (h : Latched s seen)
    (h0 : t.latch0 = (s.latch0 || decide (.addrResolved = e.event)))
    (h2 : t.latch2 = (s.latch2 || decide (.connectRequest = e.event)))
    (h3 : t.latch3 = (s.latch3 || decide (.established = e.event)))
    (h4 : t.latch4 = (s.latch4 || decide (.disconnected = e.event))) :
    Latched t (if e.event ∈ seen then seen else e.event :: seen) := by
  have hmem : ∀ kind, (kind ∈ if e.event ∈ seen then seen else e.event :: seen) ↔
      kind ∈ seen ∨ kind = e.event := by
    intro kind
    split
    · exact ⟨.inl, fun h => h.elim id fun heq => heq ▸ ‹e.event ∈ seen›⟩
    · rw [List.mem_cons, or_comm]
  exact
    { latch0 := by rw [h0, h.latch0, decide_eq_decide.2 (hmem _), Bool.decide_or]
      latch2 := by rw [h2, h.latch2, decide_eq_decide.2 (hmem _), Bool.decide_or]
      latch3 := by rw [h3, h.latch3, decide_eq_decide.2 (hmem _), Bool.decide_or]
      latch4 := by rw [h4, h.latch4, decide_eq_decide.2 (hmem _), Bool.decide_or] }

/-- An event of a kind that has a gate and is not counted: its calls are made, then its latch is
    set. -/
theorem Quiet.served {u : AbstractServer σ} (hu : Quiet s u (allowed seen e))
    (hcalls : t.trace = u.trace) (hctx : t.fam_ib_ctx = u.fam_ib_ctx)
    (hkind : e.event ≠ .established)
    (hlatched : Latched t (if e.event ∈ seen then seen else e.event :: seen)) :
    Served s t seen e where
  calls := hcalls ▸ hu.calls
  latched := hlatched
  connections := by
    rw [if_neg hkind, numConnections, hctx]
    exact hu.connections

theorem outcome_handleEvent (h : Latched s seen) :
    Outcome s seen e (handleEvent verbs handlers exit_on_disconnect e s) := by
  obtain ⟨event, id⟩ := e
  cases event with
  | addrResolved =>
      have hallowed := allowed_eq (e := ⟨.addrResolved, id⟩) rfl h.latch0
      apply (makes_buildConnection id _).outcome (quiet_refl s) List.nil_prefix
      intro _ t ht
      apply (makes_callUnless _ .onPreConn id).outcome ht (hallowed ▸ List.prefix_refl _)
      intro _ u hu
      rw [List.nil_append, List.nil_append, hallowed] at hu
      apply (makes_emit rfl).outcome hu (List.append_nil _ ▸ List.prefix_refl _)
      intro _ v hv
      rw [List.append_nil] at hv
      change Served s { v with latch0 := true } seen _
      exact hv.served rfl rfl nofun
        (h.next (Bool.or_true _).symm (hv.latch2.trans (Bool.or_false _).symm)
          (hv.latch3.trans (Bool.or_false _).symm) (hv.latch4.trans (Bool.or_false _).symm))
  | routeResolved =>
      have hallowed : allowed seen ⟨.routeResolved, id⟩ = [] := by
        rw [allowed]
        exact ite_self _
      apply (makes_emit rfl).outcome (quiet_refl s) List.nil_prefix
      intro _ v hv
      rw [List.append_nil, ← hallowed] at hv
      change Served s v seen _
      exact hv.served rfl rfl nofun
        (h.next (hv.latch0.trans (Bool.or_false _).symm) (hv.latch2.trans (Bool.or_false _).symm)
          (hv.latch3.trans (Bool.or_false _).symm) (hv.latch4.trans (Bool.or_false _).symm))
  | connectRequest =>
      have hallowed := allowed_eq (e := ⟨.connectRequest, id⟩) rfl h.latch2
      apply (makes_buildConnection id _).outcome (quiet_refl s) List.nil_prefix
      intro _ t ht
      apply (makes_callUnless _ .onPreConn id).outcome ht (hallowed ▸ List.prefix_refl _)
      intro _ u hu
      rw [List.nil_append, List.nil_append, hallowed] at hu
      apply (makes_emit rfl).outcome hu (List.append_nil _ ▸ List.prefix_refl _)
      intro _ v hv
      rw [List.append_nil] at hv
      change Served s { v with latch2 := true } seen _
      exact hv.served rfl rfl nofun
        (h.next (hv.latch0.trans (Bool.or_false _).symm) (Bool.or_true _).symm
          (hv.latch3.trans (Bool.or_false _).symm) (hv.latch4.trans (Bool.or_false _).symm))
  | established =>
      have hallowed := allowed_eq (e := ⟨.established, id⟩) rfl h.latch3
      apply (makes_callUnless _ .onConnection id).outcome (quiet_refl s)
        (hallowed ▸ List.prefix_refl _)
      intro _ u hu
      rw [List.nil_append, hallowed] at hu
      have hcount : u.numConnections = s.numConnections := hu.connections
      cases hctx : u.fam_ib_ctx with
      | none =>
          have hstop :
              (modify (fun s => { s with latch3 := true }) >>= fun _ => countConnection >>= fun _ =>
              pure true : EStateM Stop (AbstractServer σ) Bool) u =
                .error .nullPointer { u with latch3 := true } := by
            apply (bind_ok rfl).trans
            apply bind_error
            apply (bind_ok rfl).trans
            simp only [hctx]
            rfl
          exact hstop ▸ ⟨⟨_, hu.calls, List.prefix_refl _⟩, hcount⟩
      | some c =>
          have hgo :
              (modify (fun s => { s with latch3 := true }) >>= fun _ => countConnection >>= fun _ =>
              pure true : EStateM Stop (AbstractServer σ) Bool) u =
                .ok true { u with
                  latch3 := true, fam_ib_ctx :=
                    some { c with connections := c.connections + 1 } } := by
            apply (bind_ok rfl).trans
            apply bind_ok
            apply (bind_ok rfl).trans
            simp only [hctx]
            rfl
          have hserved : Served s { u with
              latch3 := true, fam_ib_ctx := some { c with connections := c.connections + 1 } } seen
                ⟨.established, id⟩ :=
            { calls := hu.calls
              latched := h.next (hu.latch0.trans (Bool.or_false _).symm)
                (hu.latch2.trans (Bool.or_false _).symm) (Bool.or_true _).symm
                (hu.latch4.trans (Bool.or_false _).symm)
              connections := by
                rw [if_pos rfl, ← hcount, numConnections, numConnections, hctx]
                rfl }
          exact hgo ▸ hserved
  | disconnected =>
      have hallowed := allowed_eq (e := ⟨.disconnected, id⟩) rfl h.latch4
      apply (makes_emit rfl).outcome (quiet_refl s) List.nil_prefix
      intro _ t ht
      have hlatch : t.latch4 = s.latch4 := ht.latch4
      apply (makes_callUnless t.latch4 .onDisconnect id).outcome ht
      · rw [hlatch]
        exact hallowed ▸ List.prefix_refl _
      · intro _ u hu
        rw [List.nil_append, List.nil_append, hlatch, hallowed] at hu
        apply (makes_emit rfl).outcome hu (List.append_nil _ ▸ List.prefix_refl _)
        intro _ v hv
        rw [List.append_nil] at hv
        cases exit_on_disconnect with
        | true => exact ⟨⟨_, hv.calls, List.prefix_refl _⟩, hv.connections⟩
        | false =>
            change Served s { v with latch4 := true } seen _
            exact hv.served rfl rfl nofun
              (h.next (hv.latch0.trans (Bool.or_false _).symm)
                (hv.latch2.trans (Bool.or_false _).symm) (hv.latch3.trans (Bool.or_false _).symm)
                (Bool.or_true _).symm)
  | addrError | routeError | connectResponse | connectError | unreachable | rejected | deviceRemoval
  | multicastJoin | multicastError | addrChange | timewaitExit =>
      exact ⟨⟨[], (List.append_nil _).symm, List.nil_prefix⟩, rfl⟩

/-- The first event of a kind comes first in what is left of the events. -/
theorem filterMap_firsts_cons (seen : List CmEventType) (e : CmEvent) (events : List CmEvent) :
    (firsts seen (e :: events)).filterMap gate = allowed seen e ++
      (firsts (if e.event ∈ seen then seen else e.event :: seen) events).filterMap gate := by
  rw [firsts, allowed]
  split
  · rfl
  · cases hgate : gate e with
    | none => rw [List.filterMap_cons_none hgate, Option.toList_none, List.nil_append]
    | some call => rw [List.filterMap_cons_some hgate, Option.toList_some, List.singleton_append]

theorem run_gates (verbs : Nat → Nat) (handlers : Handlers σ) (exit_on_disconnect : Bool)
    (events : List CmEvent) (h : Latched s seen) :
    (∃ done, handlerCalls (final (eventLoop verbs handlers exit_on_disconnect events s)).trace =
        handlerCalls s.trace ++ done ∧ done <+: (firsts seen events).filterMap gate) ∧
      (final (eventLoop verbs handlers exit_on_disconnect events s)).numConnections ≤
        s.numConnections + events.countP (·.event = .established) ∧
      ∀ t, eventLoop verbs handlers exit_on_disconnect events s = .ok true t →
        handlerCalls t.trace = handlerCalls s.trace ++ (firsts seen events).filterMap gate ∧
          t.numConnections = s.numConnections + events.countP (·.event = .established) := by
  induction events generalizing s seen with
  | nil =>
      refine ⟨⟨[], (List.append_nil _).symm, List.prefix_refl _⟩, Nat.le_refl _, ?_⟩
      intro t ht
      cases ht
      exact ⟨(List.append_nil _).symm, rfl⟩
  | cons e events ih =>
      have hfirst : Outcome s seen e (handleEvent verbs handlers exit_on_disconnect e s) :=
        outcome_handleEvent h
      rw [filterMap_firsts_cons]
      cases hrun : handleEvent verbs handlers exit_on_disconnect e s with
      | error x t =>
          rw [hrun] at hfirst
          obtain ⟨⟨done, hcalls, hdone⟩, hconnections⟩ := hfirst
          rw [eventLoop, EventLoop.run_cons_error events hrun]
          refine ⟨⟨done, hcalls, hdone.trans (List.prefix_append _ _)⟩, ?_, nofun⟩
          exact hconnections.trans_le (Nat.le_add_right _ _)
      | ok go t =>
          rw [hrun] at hfirst
          cases go with
          | false =>
              obtain ⟨⟨done, hcalls, hdone⟩, hconnections⟩ := hfirst
              rw [eventLoop, EventLoop.run_cons_break events hrun]
              refine ⟨⟨done, hcalls, hdone.trans (List.prefix_append _ _)⟩, ?_, nofun⟩
              exact hconnections.trans_le (Nat.le_add_right _ _)
          | true =>
              have hserved : Served s t seen e := hfirst
              obtain ⟨⟨done, hcalls, hdone⟩, hle, hall⟩ := ih hserved.latched
              rw [eventLoop, EventLoop.run_cons_ok events hrun]
              have hcount : (e :: events).countP (·.event = .established) =
                  (if e.event = .established then 1 else 0) +
                    events.countP (·.event = .established) := by
                rw [List.countP_cons, Nat.add_comm]
                simp only [decide_eq_true_eq]
              have hconnections := hserved.connections
              refine ⟨⟨allowed seen e ++ done, ?_, (List.prefix_append_right_inj _).2 hdone⟩,
                ?_, ?_⟩
              · exact hcalls.trans (by rw [hserved.calls, List.append_assoc])
              · rw [hcount, ← Nat.add_assoc, ← hconnections]
                exact hle
              · intro u hu
                obtain ⟨hcallsU, hconnectionsU⟩ := hall u hu
                rw [hcount, ← Nat.add_assoc, ← hconnections, ← List.append_assoc, ← hserved.calls]
                exact ⟨hcallsU, hconnectionsU⟩

/-- One life of the connection manager's loop, over any events: a handler is called for the first
    event of each kind and for no other, in the order of the events, until an event ends the loop;
    and as long as none does, `connections` counts the connections that were established. -/
theorem handlers_run_for_first_events (verbs : Nat → Nat) (handlers : Handlers σ)
    (exit_on_disconnect : Bool) (events : List CmEvent) (derived : σ) :
    handlerCalls (final (eventLoop verbs handlers exit_on_disconnect events
      (.new derived))).trace <+:
        (firsts [] events).filterMap gate ∧
      (final (eventLoop verbs handlers exit_on_disconnect events (.new derived))).numConnections ≤
        events.countP (·.event = .established) ∧
      ∀ t, eventLoop verbs handlers exit_on_disconnect events (.new derived) = .ok true t →
        handlerCalls t.trace = (firsts [] events).filterMap gate ∧
          t.numConnections = events.countP (·.event = .established) := by
  obtain ⟨⟨done, hcalls, hdone⟩, hle, hall⟩ :=
    run_gates verbs handlers exit_on_disconnect events (latched_new derived)
  have hnone : numConnections (.new derived : AbstractServer σ) = 0 := rfl
  rw [hnone, Nat.zero_add] at hle
  refine ⟨?_, hle, ?_⟩
  · rw [hcalls]
    exact hdone
  · intro t ht
    obtain ⟨hcallsT, hconnections⟩ := hall t ht
    rw [hnone, Nat.zero_add] at hconnections
    exact ⟨hcallsT, hconnections⟩

end Gates

end AbstractServer

namespace ConnectionUtils

open AbstractServer (firsts gate handlerCalls run_gates latched_new)

variable {σ : Type}

/-- `s_ctx->connections`, none before there is a context. -/
def ClientLoop.numConnections (c : ClientLoop σ) : Nat := (c.s_ctx.map (·.connections)).getD 0

/-- The copy with the pointers leaves out the calls of handlers that are null. -/
theorem handlerCalls_filter (cb : Callbacks σ) (trace : List Action) :
    handlerCalls (trace.filter cb.makes) =
      (handlerCalls trace).filter fun call => (cb.pointer call.1).isSome := by
  induction trace with
  | nil => rfl
  | cons a trace ih =>
      cases a with
      | handler f id =>
          cases hf : cb.pointer f with
          | none => simpa [handlerCalls, Callbacks.makes, hf] using ih
          | some pointer => simpa [handlerCalls, Callbacks.makes, hf] using ih
      | createQp _ _ | resolveRoute _ _ | connect _ _ | accept _ _ | destroyQp _ | destroyId _ =>
          exact ih

theorem Same.numConnections {cb : Callbacks σ} {c : ClientLoop σ} {s : AbstractServer σ}
    (h : Same cb c s) : c.numConnections = s.numConnections := by
  rw [ClientLoop.numConnections, AbstractServer.numConnections, ← h.ctx]
  cases c.s_ctx with
  | none => rfl
  | some s_ctx => rfl

/-- The same of the client's loop: a callback that is set is called for the first event of each
    kind, and one that is null is passed over, with the latch set all the same. -/
theorem callbacks_run_for_first_events (verbs : Nat → Nat) (cb : Callbacks σ)
    (exit_on_disconnect : Bool) (events : List CmEvent) (derived : σ) :
    handlerCalls (final (eventLoop verbs cb exit_on_disconnect events (.new derived))).trace <+:
        ((firsts [] events).filterMap gate).filter (fun call => (cb.pointer call.1).isSome) ∧
      ∀ c, eventLoop verbs cb exit_on_disconnect events (.new derived) = .ok true c →
        handlerCalls c.trace =
            ((firsts [] events).filterMap gate).filter (fun call => (cb.pointer call.1).isSome) ∧
          c.numConnections = events.countP (·.event = .established) := by
  have halike :
      Lockstep.Alike (Same cb) (eventLoop verbs cb exit_on_disconnect events (.new derived))
        (AbstractServer.eventLoop verbs cb.handlers exit_on_disconnect events (.new derived)) :=
    Lockstep.run (lockstep_handleEvent exit_on_disconnect) events _ _ (same_new derived)
  obtain ⟨⟨done, hcalls, hdone⟩, -, hall⟩ :=
    run_gates verbs cb.handlers exit_on_disconnect events (latched_new derived)
  constructor
  · rw [halike.final.trace, handlerCalls_filter, hcalls]
    exact hdone.filter _
  · intro c hc
    rw [hc] at halike
    obtain ⟨t, ht, hsame⟩ := halike.of_ok
    obtain ⟨hcallsT, hconnections⟩ := hall t ht
    constructor
    · rw [hsame.trace, handlerCalls_filter, hcallsT]
      rfl
    · rw [hsame.numConnections, hconnections]
      exact Nat.zero_add _

end ConnectionUtils

end FamGraph
