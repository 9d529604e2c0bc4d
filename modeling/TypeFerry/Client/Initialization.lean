import TypeFerry.Client.Lifecycle
import TypeFerry.Server.Rooms

/-! # The initialization of the client

An auth frame of the current socket starts `initialize()`, which resubscribes the channels
one after another and then emits `INITIALIZED`. Each resubscription waits until the channel
commits its pending subscriptions, for 15 seconds at most; meanwhile the connection may be
lost and made anew. A call of `initialize()` is known by its number, and an auth frame by
the call it starts. -/
namespace TypeFerry.Client.Initialization
open TypeFerry.Lib.Numeral TypeFerry.Lib.Runs TypeFerry.Client.Socket TypeFerry.Client.Lifecycle
open TypeFerry.Server.Rooms (addTo deleteFrom)

/-! ## The client -/

/-- `ClientChannel`, as far as subscriptions go. -/
structure Channel where
  events : List Text
  pendingSubscriptions : List Text
  /-- the timer of `subscribe` is armed -/
  armed : Bool
  /-- the calls of `commitPendingSubscriptions` that wait for the server -/
  calls : ℕ

def Channel.subscribe (channel : Channel) (events : List Text) : Channel :=
  if events.isEmpty then channel
  else { channel with
    events := events.foldl (fun set e => addTo e set) channel.events
    pendingSubscriptions := events.foldl (fun set e => addTo e set) channel.pendingSubscriptions
    armed := true }

def Channel.unsubscribe (channel : Channel) (events : List Text) : Channel :=
  { channel with events := events.foldl (fun set e => deleteFrom e set) channel.events }

/-- `commitPendingSubscriptions`, as far as it calls the server. -/
def Channel.commitPendingSubscriptions (channel : Channel) : Channel :=
  if channel.pendingSubscriptions.isEmpty then { channel with armed := false }
  else { channel with armed := false, pendingSubscriptions := [], calls := channel.calls + 1 }

/-- A call of `commitPendingSubscriptions` has its answer. -/
def Channel.committed (channel : Channel) : Channel := { channel with calls := channel.calls - 1 }

inductive Stage where
  /-- in the `resubscribe()` of a channel, or after it -/
  | resubscribe (channel : ℕ) (settled : Bool)
  /-- `resubscribeAllChannels` has returned -/
  | resubscribed
  deriving DecidableEq

/-- A call of `initialize()` that has not come to its end. -/
structure Call where
  id : ℕ
  /-- the socket that delivered the auth frame, if one started the call -/
  frame : Option ℕ
  stage : Stage

/-- What was the case when a call emitted `INITIALIZED`. -/
structure Emit where
  call : ℕ
  frame : Option ℕ
  socket : Option ℕ
  readyState : Option ReadyState
  initialized : Bool
  deriving DecidableEq

structure State where
  clientSocket : ClientSocket
  channels : List Channel
  running : List Call
  /-- the number of calls of `initialize()` so far -/
  calls : ℕ
  emitted : List Emit

namespace State

def find (c : State) (id : ℕ) : Option Call := c.running.find? (·.id = id)

def suspend (c : State) (call : Call) (stage : Stage) : State :=
  { c with running := c.running.map fun r => if r.id = call.id then { call with stage } else r }

/-- `resubscribeAllChannels` from a channel on: a channel without events returns at once. -/
def resubscribeFrom (c : State) (call : Call) (j : ℕ) : State :=
  match c.channels[j]? with
  | some channel =>
    if channel.events.isEmpty then c.suspend call (.resubscribe j true)
    else { c with channels := c.channels.modify j (·.subscribe channel.events) }.suspend call
      (.resubscribe j false)
  | none => c.suspend call .resubscribed

/-- `initialize()`, as far as its first `await`. A call that finds another one in progress waits for
`INITIALIZED` and emits nothing. -/
def initializeCall (c : State) (frame : Option ℕ) : State :=
  if c.clientSocket.initializing then c
  else
    let call : Call := ⟨c.calls, frame, .resubscribed⟩
    { c with
      clientSocket := { c.clientSocket with initialized := true, initializing := false }
      running := c.running ++ [call]
      calls := c.calls + 1 }.resubscribeFrom call 0

/-- `handleTypedAuth`, if the socket is the active one. -/
def handleTypedAuth (c : State) (i : ℕ) : State :=
  if c.clientSocket.hears i then c.initializeCall (some i) else c

/-- `this.emit(ClientEvents.INITIALIZED)`. -/
def emitInitialized (c : State) (call : Call) : State :=
  let s := c.clientSocket
  { c with
    emitted := c.emitted ++ [⟨call.id, call.frame, s.socket, s.current, s.initialized⟩]
    running := c.running.filter (·.id ≠ call.id) }

/-- A call whose wait has settled goes on. -/
def resume (c : State) (call : Call) : Option State :=
  match call.stage with
  | .resubscribe j true => some (c.resubscribeFrom call (j + 1))
  | .resubscribe _ false => none
  | .resubscribed => some (c.emitInitialized call)

/-- A channel emits `COMMIT_PENDING_SUBSCRIPTIONS`. -/
def emitCommit (c : State) (j : ℕ) : State :=
  { c with running := c.running.map fun r =>
      if r.stage = .resubscribe j false then { r with stage := .resubscribe j true } else r }

/-- The 15 seconds of a call are over. -/
def timeout (c : State) (id : ℕ) : State :=
  { c with running := c.running.map fun r => match r.stage with
      | .resubscribe j _ => if r.id = id then { r with stage := .resubscribe j true } else r
      | .resubscribed => r }

/-- `close()`: every channel emits `COMMIT_PENDING_SUBSCRIPTIONS`, and the socket is closed. -/
def close (c : State) : State :=
  let c := (List.range c.channels.length).foldl emitCommit c
  { c with clientSocket := c.clientSocket.close }

end State

/-! ## Runs -/

inductive Action where
  /-- anything that happens to the socket, backoff reconnects included -/
  | socket (a : Socket.Action)
  | reconnect
  | close
  /-- a channel is made -/
  | channel
  | subscribe (j : ℕ) (events : List Text)
  | unsubscribe (j : ℕ) (events : List Text)
  /-- the timer of a channel fires -/
  | debounce (j : ℕ)
  /-- a call of a channel to the server completes or fails -/
  | commit (j : ℕ)
  | timeout (id : ℕ)
  /-- an auth frame arrives on a socket -/
  | auth (i : ℕ)
  /-- somebody calls `initialize()` -/
  | initializeCall
  | resume (id : ℕ)

/-- The client is itself its first channel. -/
def init (token : Option Text) : State := ⟨Socket.init token, [⟨[], [], false, 0⟩], [], 0, []⟩

def step (c : State) : Action → Option State
  | .socket a => (Socket.step c.clientSocket a).map fun s => { c with clientSocket := s }
  | .reconnect => some { c with clientSocket := c.clientSocket.reconnect }
  | .close => some c.close
  | .channel => some { c with channels := c.channels ++ [⟨[], [], false, 0⟩] }
  | .subscribe j events => some { c with channels := c.channels.modify j (·.subscribe events) }
  | .unsubscribe j events => some { c with channels := c.channels.modify j (·.unsubscribe events) }
  | .debounce j => if c.channels[j]?.any (·.armed) then
      some { c with channels := c.channels.modify j (·.commitPendingSubscriptions) } else none
  | .commit j => if c.channels[j]?.any (0 < ·.calls) then
      some ({ c with channels := c.channels.modify j (·.committed) }.emitCommit j) else none
  | .timeout id => some (c.timeout id)
  | .auth i => if c.clientSocket.readyState i = some .opened then some (c.handleTypedAuth i) else none
  | .initializeCall => some (c.initializeCall none)
  | .resume id => (c.find id).bind c.resume

def machine (token : Option Text) : Machine State Action := ⟨init token, step⟩

/-- `INITIALIZED` is truthful: the socket of the auth frame is the current one, it is open, and the
client is initialized. -/
def Truthful (e : Emit) : Prop :=
  ∀ i, e.frame = some i → e.socket = some i ∧ e.readyState = some .opened ∧ e.initialized = true

/-- A call that gives the current socket up, or an event of the end of the socket. -/
def endsConnection (i : ℕ) : Socket.Action → Bool
  | .close | .retireConnection => true
  | .closing j | .failed j | .closed j => j = i
  | .connect | .setToken _ | .resume | .fire _ | .opened _ => false

/-- The connection is not lost while a call that an auth frame started resubscribes. -/
def keepsConnection (c : State) : Action → Bool
  | .socket a => c.running.all fun call => !call.frame.any (endsConnection · a)
  | .reconnect | .close => c.running.all (·.frame.isNone)
  | _ => true

end TypeFerry.Client.Initialization
