import TypeFerry.Lib.Numeral
import Mathlib.Data.Option.Basic

/-! # The two RPC dispatchers

The WebSocket transport and the HTTP transport each have a dispatcher of their own,
with its own branches for a method that is unknown, forbidden, fails in public, fails
validation or fails otherwise. The values that methods take and return are a type `V`;
all that is asked of one is whether `Presentation.encode` can encode it. -/
namespace TypeFerry.Server.Dispatch
open TypeFerry.Lib.Numeral

/-! ## Methods -/

/-- What a method throws. -/
inductive Thrown where
  | publicError (message : Text)
  | schemaValidation (message : Text) (errors : Option (List Text))
  | other
  deriving DecidableEq

/-- How `Method.exec` ends. -/
inductive Outcome (V : Type) where
  | returned (result : V)
  | threw (error : Thrown)

/-- The login state of a client node. -/
structure Caller where
  authenticated : Bool
  userId : Option Text

structure Method (V : Type) where
  isProtected : Bool
  isSensitive : Bool
  exec : V → Caller → Outcome V

/-- The payload of a `METHOD_ERROR`; what is redacted is left out. -/
structure MethodError (V : Type) where
  error : Option Thrown
  method : Text
  params : Option V
  userId : Option Text

/-- What became of a call: whether the method ran, what was sent back, and the telemetry. -/
structure Served (V R : Type) where
  ran : Bool
  sent : R
  telemetry : List (MethodError V)

namespace Errors

def methodNotFound : Text := js "Method Not Found"
def methodForbidden : Text := js "Method Forbidden"
def internalError : Text := js "Internal Error"
def rateLimitExceeded : Text := js "Rate Limit Exceeded"

end Errors

section
variable {V : Type} (encodes : V → Bool) (methods : Text → Option (Method V))

/-- `redactMethodTelemetry`. -/
def redactMethodTelemetry {α : Type} (m : Method V) (value : α) : Option α :=
  if m.isSensitive then none else some value

def methodError (m : Method V) (error : Thrown) (method : Text) (params : V) (caller : Caller) :
    MethodError V :=
  ⟨redactMethodTelemetry m error, method, redactMethodTelemetry m params, caller.userId⟩

/-! ## Over the WebSocket -/

/-- An `rpc:res` frame. -/
structure RpcResponse (V : Type) where
  id : Text
  error : Option Text
  errors : Option (List Text)
  result : Option V

/-- A node with its socket. -/
structure Connection where
  caller : Caller
  /-- `socket.readyState === OPEN` -/
  isOpen : Bool
  /-- the rate limiter has no token left -/
  limited : Bool

/-- `if (error)`: an empty message is none. -/
def sendResponse (c : Connection) (id : Text) (result : Option V) (error : Option Text)
    (errors : Option (List Text)) : List (RpcResponse V) :=
  if c.isOpen then
    match error.filter (· ≠ []) with
    | some message => [⟨id, some message, errors, none⟩]
    | none => [⟨id, none, none, result⟩]
  else []

def wsRpcError (c : Connection) (m : Method V) (error : Thrown) (id method : Text) (params : V) :
    Served V (List (RpcResponse V)) :=
  match error with
  | .publicError message => ⟨true, sendResponse c id none (some message) none, []⟩
  | .schemaValidation message errors =>
    ⟨true, sendResponse c id none (some message) errors, [methodError m error method params c.caller]⟩
  | .other =>
    ⟨true, sendResponse c id none (some Errors.internalError) none,
      [methodError m error method params c.caller]⟩

/-- `handleRpc` of the WebSocket transport. A result that cannot be encoded throws inside
the `try`, like the method. -/
def handleRpc (c : Connection) (id method : Text) (params : V) : Served V (List (RpcResponse V)) :=
  if c.limited then ⟨false, sendResponse c id none (some Errors.rateLimitExceeded) none, []⟩
  else match methods method with
    | none => ⟨false, sendResponse c id none (some Errors.methodNotFound) none, []⟩
    | some m =>
      if m.isProtected && !c.caller.authenticated then
        ⟨false, sendResponse c id none (some Errors.methodForbidden) none, []⟩
      else match m.exec params c.caller with
        | .returned result =>
          if !c.isOpen || encodes result then ⟨true, sendResponse c id (some result) none none, []⟩
          else wsRpcError c m .other id method params
        | .threw error => wsRpcError c m error id method params

/-- `handleRpcVoid`. -/
def handleRpcVoid (c : Connection) (method : Text) (params : V) : Served V (List (RpcResponse V)) :=
  if c.limited then ⟨false, [], []⟩
  else match methods method with
    | none => ⟨false, [], []⟩
    | some m =>
      if m.isProtected && !c.caller.authenticated then ⟨false, [], []⟩
      else match m.exec params c.caller with
        | .returned _ => ⟨true, [], []⟩
        | .threw error => ⟨true, [], [methodError m error method params c.caller]⟩

/-! ## Over HTTP -/

/-- The request's payload. -/
structure Payload (V : Type) where
  method : Text
  params : V
  uuid : Option Text
  void : Bool

/-- The response envelopes. -/
inductive Envelope (V : Type) where
  | result (uuid : Option Text) (method : Text) (result : V)
  | error (message : Text) (method uuid : Option Text) (errors : Option (List Text))

/-- The body of the response; it may be empty. -/
inductive Response (V : Type) where
  | envelope (e : Envelope V)
  | empty

def rpcError (message : Text) (method uuid : Option Text) : Response V :=
  .envelope (.error message method uuid none)

/-- `payload.uuid ? { uuid } : undefined`. -/
def Payload.echo (payload : Payload V) : Option Text := payload.uuid.filter (· ≠ [])

def httpRpcError (payload : Payload V) (caller : Caller) (m : Method V) (error : Thrown) :
    Served V (Response V) :=
  match error with
  | .publicError message =>
    ⟨true, if payload.void then .empty else rpcError message none payload.echo, []⟩
  | .schemaValidation message errors =>
    ⟨true, if payload.void then .empty else .envelope (.error message none payload.echo errors),
      [methodError m error payload.method payload.params caller]⟩
  | .other =>
    ⟨true, if payload.void then .empty else rpcError Errors.internalError none payload.echo,
      [methodError m error payload.method payload.params caller]⟩

/-- `dispatchRpc` of the HTTP transport; the caller is the node that was built for it. -/
def dispatchRpc (caller : Caller) (payload : Payload V) : Served V (Response V) :=
  match methods payload.method with
  | none => ⟨false, rpcError Errors.methodNotFound (some payload.method) none, []⟩
  | some m =>
    if m.isProtected && !caller.authenticated then
      ⟨false, rpcError Errors.methodForbidden (some payload.method) none, []⟩
    else match m.exec payload.params caller with
      | .returned result =>
        if encodes result then
          ⟨true, .envelope (.result payload.uuid payload.method result), []⟩
        else httpRpcError payload caller m .other
      | .threw error => httpRpcError payload caller m error

/-! ## What a client makes of the answers -/

inductive Reply (V : Type) where
  | success (result : Option V)
  | error (message : Text) (errors : Option (List Text))

def RpcResponse.reply (r : RpcResponse V) : Reply V :=
  match r.error with
  | some message => .error message r.errors
  | none => .success r.result

def Envelope.reply : Envelope V → Reply V
  | .result _ _ v => .success (some v)
  | .error message _ _ errors => .error message errors

/-- The outcome of `exec`, if the dispatchers come to call it. -/
def executed (caller : Caller) (method : Text) (params : V) : Option (Outcome V) :=
  match methods method with
  | none => none
  | some m => if m.isProtected && !caller.authenticated then none else some (m.exec params caller)

/-- One frame with the id of the request over the socket and one envelope over HTTP, which
say the same: the result where the method returned one, and an error everywhere else. -/
def Agree (caller : Caller) (id method : Text) (params : V) (uuid : Option Text) : Prop :=
  ∃ frame envelope,
    (handleRpc encodes methods ⟨caller, true, false⟩ id method params).sent = [frame] ∧
    frame.id = id ∧
    (dispatchRpc encodes methods caller ⟨method, params, uuid, false⟩).sent = .envelope envelope ∧
    frame.reply = envelope.reply ∧
    match executed methods caller method params with
    | some (.returned result) => frame.reply = .success (some result)
    | _ => ∃ message errors, frame.reply = .error message errors

/-- No error goes back. -/
def Silent (caller : Caller) (method : Text) (params : V) (uuid : Option Text) : Prop :=
  (handleRpcVoid methods ⟨caller, true, false⟩ method params).sent = [] ∧
    ∀ envelope, (dispatchRpc encodes methods caller ⟨method, params, uuid, true⟩).sent =
      .envelope envelope → ∃ result, envelope.reply = .success (some result)

/-- The outcome can be answered for what it is: a result that can be encoded, an error with a
message, or one whose message is not told. -/
def Answerable : Outcome V → Prop
  | .returned result => encodes result = true
  | .threw (.publicError message) | .threw (.schemaValidation message _) => message ≠ []
  | .threw .other => True

/-- What is asked of a call, marked void or not. -/
def Conforms (caller : Caller) (id method : Text) (params : V) (uuid : Option Text) : Bool → Prop
  | false => Agree encodes methods caller id method params uuid
  | true => Silent encodes methods caller method params uuid

/-- A call can be answered for what it is, and one that is marked void comes to run. -/
def Sound (caller : Caller) (method : Text) (params : V) : Bool → Prop
  | false => ∀ outcome, executed methods caller method params = some outcome → Answerable encodes outcome
  | true => executed methods caller method params ≠ none

end

section
variable {V : Type} {encodes : V → Bool} {methods : Text → Option (Method V)} {caller : Caller}
  {id method : Text} {params : V} {uuid : Option Text}

/-! ## One case for each way a call can go -/

/-- Why a call does not run, or what it runs. -/
theorem executed_cases : (methods method = none ∧ executed methods caller method params = none) ∨
    (∃ m, methods method = some m ∧ (m.isProtected && !caller.authenticated) = true ∧
      executed methods caller method params = none) ∨
    ∃ m, methods method = some m ∧ (m.isProtected && !caller.authenticated) = false ∧
      executed methods caller method params = some (m.exec params caller) := by
  cases hm : methods method with
  | none => exact .inl ⟨rfl, by rw [executed, hm]⟩
  | some m =>
    cases hf : m.isProtected && !caller.authenticated with
    | true => exact .inr (.inl ⟨m, rfl, hf, by rw [executed, hm]; exact if_pos hf⟩)
    | false =>
      refine .inr (.inr ⟨m, rfl, hf, ?_⟩)
      rw [executed, hm]
      dsimp only
      rw [hf]
      rfl

theorem sendResponse_message (caller : Caller) (id : Text) (result : Option V)
    (errors : Option (List Text)) {message : Text} (h : message ≠ []) :
    sendResponse ⟨caller, true, false⟩ id result (some message) errors =
      [⟨id, some message, errors, none⟩] := by
  simp [sendResponse, Option.filter, h]

/-- An empty message is not sent as an error. -/
theorem sendResponse_empty (caller : Caller) (id : Text) (result : Option V)
    (errors : Option (List Text)) :
    sendResponse ⟨caller, true, false⟩ id result (some []) errors = [⟨id, none, none, result⟩] := rfl

/-- The dispatchers agree on the answers they have sent. -/
theorem agree_iff {frame : RpcResponse V} {envelope : Envelope V}
    (hws : (handleRpc encodes methods ⟨caller, true, false⟩ id method params).sent = [frame])
    (hhttp : (dispatchRpc encodes methods caller ⟨method, params, uuid, false⟩).sent = .envelope envelope) :
    Agree encodes methods caller id method params uuid ↔ frame.id = id ∧ frame.reply = envelope.reply ∧
      match executed methods caller method params with
      | some (.returned result) => frame.reply = .success (some result)
      | _ => ∃ message errors, frame.reply = .error message errors := by
  constructor
  · intro ⟨frame', envelope', hws', hid, hhttp', hsame, hmatch⟩
    rw [hws] at hws'
    rw [hhttp] at hhttp'
    cases hws'
    cases hhttp'
    exact ⟨hid, hsame, hmatch⟩
  · intro ⟨hid, hsame, hmatch⟩
    exact ⟨frame, envelope, hws, hid, hhttp, hsame, hmatch⟩

/-- A call that does not come to run. -/
theorem agree_refused {message : Text} (hmsg : message ≠ [])
    (hws : (handleRpc encodes methods ⟨caller, true, false⟩ id method params).sent =
      sendResponse ⟨caller, true, false⟩ id none (some message) none)
    (hhttp : (dispatchRpc encodes methods caller ⟨method, params, uuid, false⟩).sent =
      rpcError message (some method) none)
    (hexec : executed methods caller method params = none) :
    Agree encodes methods caller id method params uuid := by
  rw [agree_iff (hws.trans (sendResponse_message caller id none none hmsg)) hhttp, hexec]
  exact ⟨rfl, rfl, message, none, rfl⟩

section
variable {m : Method V} (hm : methods method = some m)
  (hf : (m.isProtected && !caller.authenticated) = false)
include hm hf

theorem executed_run : executed methods caller method params = some (m.exec params caller) := by
  rw [executed, hm]
  dsimp only
  rw [hf]
  rfl

/-- A method that throws. -/
theorem agree_threw_iff {error : Thrown} (he : m.exec params caller = .threw error) :
    Agree encodes methods caller id method params uuid ↔ Answerable encodes (.threw error) := by
  have hexec : executed methods caller method params = some (.threw error) := by
    rw [executed_run hm hf, he]
  have hws : (handleRpc encodes methods ⟨caller, true, false⟩ id method params).sent =
      (wsRpcError ⟨caller, true, false⟩ m error id method params).sent := by
    simp [handleRpc, hm, hf, he]
  have hhttp : (dispatchRpc encodes methods caller ⟨method, params, uuid, false⟩).sent =
      (httpRpcError ⟨method, params, uuid, false⟩ caller m error).sent := by
    simp [dispatchRpc, hm, hf, he]
  cases error with
  | publicError message =>
    by_cases hmsg : message = []
    · subst hmsg
      rw [agree_iff (hws.trans (sendResponse_empty caller id none none)) hhttp, hexec]
      simp [Answerable, RpcResponse.reply, Envelope.reply]
    · rw [agree_iff (hws.trans (sendResponse_message caller id none none hmsg)) hhttp, hexec]
      simp [Answerable, hmsg, RpcResponse.reply, Envelope.reply]
  | schemaValidation message errors =>
    by_cases hmsg : message = []
    · subst hmsg
      rw [agree_iff (hws.trans (sendResponse_empty caller id none errors)) hhttp, hexec]
      simp [Answerable, RpcResponse.reply, Envelope.reply]
    · rw [agree_iff (hws.trans (sendResponse_message caller id none errors hmsg)) hhttp, hexec]
      simp [Answerable, hmsg, RpcResponse.reply, Envelope.reply]
  | other =>
    rw [agree_iff hws hhttp, hexec]
    simp [Answerable, RpcResponse.reply, Envelope.reply]

/-- A method that returns. -/
theorem agree_returned_iff {v : V} (he : m.exec params caller = .returned v) :
    Agree encodes methods caller id method params uuid ↔ Answerable encodes (.returned v) := by
  have hexec : executed methods caller method params = some (.returned v) := by
    rw [executed_run hm hf, he]
  cases hv : encodes v with
  | true =>
    have hws : (handleRpc encodes methods ⟨caller, true, false⟩ id method params).sent =
        [⟨id, none, none, some v⟩] := by
      simp [handleRpc, hm, hf, he, hv, sendResponse]
    have hhttp : (dispatchRpc encodes methods caller ⟨method, params, uuid, false⟩).sent =
        .envelope (.result uuid method v) := by
      simp [dispatchRpc, hm, hf, he, hv]
    rw [agree_iff hws hhttp, hexec]
    simp [Answerable, hv, RpcResponse.reply, Envelope.reply]
  | false =>
    have hws : (handleRpc encodes methods ⟨caller, true, false⟩ id method params).sent =
        [⟨id, some Errors.internalError, none, none⟩] := by
      simp [handleRpc, hm, hf, he, hv, wsRpcError, sendResponse_message, Errors.internalError, js]
    have hhttp : (dispatchRpc encodes methods caller ⟨method, params, uuid, false⟩).sent =
        rpcError Errors.internalError none (Payload.echo ⟨method, params, uuid, false⟩) := by
      simp [dispatchRpc, hm, hf, he, hv, httpRpcError]
    rw [agree_iff hws hhttp, hexec]
    simp [Answerable, hv, RpcResponse.reply, Envelope.reply]

/-- A call that is marked void and runs gets no error. -/
theorem silent_run : Silent encodes methods caller method params uuid := by
  constructor
  · cases he : m.exec params caller <;> simp [handleRpcVoid, hm, hf, he]
  · intro envelope hsent
    cases he : m.exec params caller with
    | returned v =>
      cases hv : encodes v with
      | true =>
        simp only [dispatchRpc, hm, hf, he, hv, Bool.false_eq_true, if_false, if_true,
          Response.envelope.injEq] at hsent
        exact ⟨v, by rw [← hsent, Envelope.reply]⟩
      | false => simp [dispatchRpc, hm, hf, he, hv, httpRpcError] at hsent
    | threw error =>
      cases error <;> simp [dispatchRpc, hm, hf, he, httpRpcError] at hsent

end

theorem sound_refused (hexec : executed methods caller method params = none) :
    Sound encodes methods caller method params false := by
  intro outcome ho
  rw [hexec] at ho
  cases ho

/-- Over HTTP a call that does not come to run is answered with an error, void or not. -/
theorem not_silent_refused {message : Text}
    (hhttp : (dispatchRpc encodes methods caller ⟨method, params, uuid, true⟩).sent =
      rpcError message (some method) none) : ¬ Silent encodes methods caller method params uuid := by
  intro h
  obtain ⟨v, hv⟩ := h.2 _ hhttp
  cases hv

/-- **The transports agree exactly on the calls that can be answered for what they are**: a
call that is not marked void is answered alike over the socket and over HTTP if and only if
its method, where it runs, returns a value that can be encoded or throws an error that is not
public with an empty message; and a call that is marked void gets no error if and only if it
comes to run. -/
theorem transports_agree_iff {V : Type} (encodes : V → Bool) (methods : Text → Option (Method V))
    (caller : Caller) (id method : Text) (params : V) (uuid : Option Text) (void : Bool) :
    Conforms encodes methods caller id method params uuid void ↔
      Sound encodes methods caller method params void := by
  rcases @executed_cases V methods caller method params with
    ⟨hm, hexec⟩ | ⟨m, hm, hf, hexec⟩ | ⟨m, hm, hf, hexec⟩
  · -- unknown
    cases void with
    | false =>
      refine ⟨fun _ => sound_refused hexec, fun _ => ?_⟩
      refine @agree_refused V _ _ _ _ _ _ _ Errors.methodNotFound (by decide) ?_ ?_ hexec
      · simp [handleRpc, hm]
      · simp [dispatchRpc, hm]
    | true =>
      refine ⟨fun h => absurd h (@not_silent_refused V _ _ _ _ _ _ Errors.methodNotFound ?_),
        fun h => absurd hexec h⟩
      simp [dispatchRpc, hm]
  · -- forbidden
    cases void with
    | false =>
      refine ⟨fun _ => sound_refused hexec, fun _ => ?_⟩
      refine @agree_refused V _ _ _ _ _ _ _ Errors.methodForbidden (by decide) ?_ ?_ hexec
      · simp [handleRpc, hm, hf]
      · simp [dispatchRpc, hm, hf]
    | true =>
      refine ⟨fun h => absurd h (@not_silent_refused V _ _ _ _ _ _ Errors.methodForbidden ?_),
        fun h => absurd hexec h⟩
      simp [dispatchRpc, hm, hf]
  · -- it runs
    cases void with
    | false =>
      have hsound : Sound encodes methods caller method params false ↔
          Answerable encodes (m.exec params caller) := by
        rw [Sound, hexec]
        simp
      rw [hsound]
      cases he : m.exec params caller with
      | returned v => exact agree_returned_iff hm hf he
      | threw error => exact agree_threw_iff hm hf he
    | true =>
      refine ⟨fun _ hno => ?_, fun _ => silent_run hm hf⟩
      rw [hexec] at hno
      cases hno

end

/-! ## Calls on which they differ -/

/-- A method that throws a public error without a message. -/
def speechless : Method Unit := ⟨false, false, fun _ _ => .threw (.publicError [])⟩

def oneMethod (m : Method Unit) : Text → Option (Method Unit) := fun name =>
  if name = js "m" then some m else none

/-- Over the socket the error has become a success; and a void call of an unknown method gets
an error over HTTP. -/
theorem transports_differ :
    ¬ Conforms (fun _ => true) (oneMethod speechless) ⟨false, none⟩ (js "1") (js "m") () none false ∧
    ¬ Conforms (fun _ => true) (oneMethod speechless) ⟨false, none⟩ (js "1") (js "n") () none true := by
  constructor
  · rintro ⟨frame, envelope, hws, -, -, -, message, errors, hreply⟩
    cases hws
    cases hreply
  · rintro ⟨-, hhttp⟩
    obtain ⟨v, hv⟩ := hhttp _ rfl
    cases hv

end TypeFerry.Server.Dispatch
