import TypeFerry.Lib.Numeral
import TypeFerry.Lib.Runs

/-! # The socket of the client

`ClientSocket` with the browser's `WebSocket`s it creates: explicit connections, the
backoff timer, closes that wait for the close event of their socket, and the retirement
of a connection before its replacement. A socket is known by the number of its creation.
Nobody calls the client from inside a listener. -/
namespace TypeFerry.Client.Socket
open TypeFerry.Lib.Numeral TypeFerry.Lib.Runs

/-! ## The browser's sockets -/

inductive ReadyState where
  | connecting
  | opened
  | closing
  | closed
  deriving DecidableEq

structure WebSocket where
  readyState : ReadyState
  /-- the parameter `token` of the URL -/
  token : Option Text
  /-- `close()` has been called -/
  closeCalled : Bool
  /-- `onopen`, `onmessage`, `onclose` and `onerror` are set -/
  handlers : Bool
  /-- the close event has been dispatched -/
  ended : Bool
  deriving DecidableEq

/-- `WebSocket.close()`. -/
def WebSocket.close (ws : WebSocket) : WebSocket :=
  { ws with
    closeCalled := true
    readyState := match ws.readyState with
      | .connecting | .opened | .closing => .closing
      | .closed => .closed }

/-- The handlers are set to null, and the socket is closed. -/
def WebSocket.retire (ws : WebSocket) : WebSocket := { ws with handlers := false }.close

/-! ## The client -/

/-- `ClientSocket`, with what it reads and writes of `Client` and `VisibilityManager`. -/
structure ClientSocket where
  /-- `client.context.token` -/
  token : Option Text
  initialized : Bool
  initializing : Bool
  /-- all sockets that were ever created -/
  sockets : List WebSocket
  socket : Option ℕ
  stopped : Bool
  connecting : Bool
  reconnectAttempt : ℕ
  exhaustedReconnect : Bool
  reconnectTimer : Option ℕ
  /-- the armed timers -/
  timers : List ℕ
  /-- the number of timers that were ever armed -/
  armed : ℕ
  /-- the `close()` calls that wait for the close event of a socket -/
  waiting : List ℕ
  /-- those whose socket has closed, and that go on before the next task -/
  resumed : List ℕ
  /-- `visibilityManager.recovery` -/
  recovery : Option ℕ
  /-- the number of recoveries that were ever begun -/
  recoveries : ℕ
  /-- the recoveries whose signal is aborted -/
  aborted : List ℕ
  /-- the state of the current socket at each `WEBSOCKET_CLOSED` -/
  closedEmits : List (Option ReadyState)

namespace ClientSocket

def readyState (c : ClientSocket) (i : ℕ) : Option ReadyState := c.sockets[i]?.map (·.readyState)

/-- `this.socket?.readyState`. -/
def current (c : ClientSocket) : Option ReadyState := c.socket.bind c.readyState

def ready (c : ClientSocket) : Bool := c.current = some .opened

/-- `this.client.emit(ClientEvents.WEBSOCKET_CLOSED)`. -/
def emitClosed (c : ClientSocket) : ClientSocket := { c with closedEmits := c.closedEmits ++ [c.current] }

def modifySocket (c : ClientSocket) (i : ℕ) (f : WebSocket → WebSocket) : ClientSocket :=
  { c with sockets := c.sockets.modify i f }

def clearReconnectTimer (c : ClientSocket) : ClientSocket :=
  match c.reconnectTimer with
  | some timer => { c with reconnectTimer := none, timers := c.timers.filter (· ≠ timer) }
  | none => c

/-- An empty token is not put into the URL. -/
def createSocket (c : ClientSocket) : ClientSocket :=
  { c with
    sockets := c.sockets ++ [⟨.connecting, c.token.filter (!·.isEmpty), false, true, false⟩]
    socket := some c.sockets.length }

def connect (c : ClientSocket) : ClientSocket :=
  let c := c.clearReconnectTimer
  if c.ready then c
  else { c with stopped := false, connecting := true, reconnectAttempt := 0 }.createSocket

/-- `close()`, as far as its `await`. -/
def close (c : ClientSocket) : ClientSocket :=
  let c := { c with stopped := true, connecting := false }.clearReconnectTimer
  match c.socket with
  | none => c.emitClosed
  | some i =>
    if c.readyState i = some .closed then { c with socket := none }.emitClosed
    else { c.modifySocket i .close with waiting := c.waiting ++ [i] }

/-- The rest of `close()`. -/
def closeResumed (c : ClientSocket) (socketToClose : ℕ) : ClientSocket :=
  (if c.socket = some socketToClose then { c with socket := none } else c).emitClosed

def retireConnection (c : ClientSocket) : ClientSocket :=
  let c := { c with stopped := true, connecting := false }.clearReconnectTimer
  match c.socket with
  | some i => ({ c with socket := none }.modifySocket i .retire).emitClosed
  | none => c.emitClosed

/-! ### The part of the visibility manager -/

/-- `recovery.abort()`. -/
def abort (c : ClientSocket) (recovery : ℕ) : ClientSocket := { c with aborted := recovery :: c.aborted }

/-- `replaceConnection`, as far as it waits for the initialization. -/
def replaceConnection (c : ClientSocket) (recovery : ℕ) : ClientSocket :=
  let c := { c with initialized := false, initializing := false }.retireConnection
  if recovery ∈ c.aborted then c else c.connect

/-- `this.recovery = new AbortController()`. -/
def newRecovery (c : ClientSocket) : ClientSocket :=
  { c with recovery := some c.recoveries, recoveries := c.recoveries + 1 }

/-- `reconnect`. -/
def reconnect (c : ClientSocket) : ClientSocket :=
  (match c.recovery with
    | some recovery => c.abort recovery
    | none => c).newRecovery.replaceConnection c.recoveries

/-! ### The handlers -/

def maxReconnectAttempts : ℕ := 10

/-- `setTimeout` with the delay of the backoff. -/
def setReconnectTimer (c : ClientSocket) : ClientSocket :=
  { c with reconnectTimer := some c.armed, timers := c.timers ++ [c.armed], armed := c.armed + 1 }

def scheduleReconnect (c : ClientSocket) : ClientSocket :=
  if c.stopped then c
  else
    let c := { c with reconnectAttempt := c.reconnectAttempt + 1 }
    if c.reconnectAttempt > maxReconnectAttempts then
      if c.exhaustedReconnect then c else { c with exhaustedReconnect := true }.reconnect
    else { c with connecting := true }.setReconnectTimer

/-- The timer of the backoff fires. -/
def reconnectFires (c : ClientSocket) (timer : ℕ) : ClientSocket :=
  { c with timers := c.timers.filter (· ≠ timer), reconnectTimer := none, socket := none }.createSocket

def handleOpen (c : ClientSocket) : ClientSocket :=
  { c with connecting := false, reconnectAttempt := 0, exhaustedReconnect := false }

def handleClose (c : ClientSocket) : ClientSocket :=
  let c := { c with initialized := false, initializing := false }.emitClosed
  if c.stopped then { c with socket := none } else c.scheduleReconnect

def handleSocketError (c : ClientSocket) : ClientSocket := { c with connecting := false }

/-- The handlers of the socket are set, and it is the active one. -/
def hears (c : ClientSocket) (i : ℕ) : Bool := c.socket = some i && c.sockets[i]?.any (·.handlers)

/-! ### The events of a socket -/

def onopen (c : ClientSocket) (i : ℕ) : ClientSocket :=
  let c := c.modifySocket i ({ · with readyState := .opened })
  if c.hears i then c.handleOpen else c

def onerror (c : ClientSocket) (i : ℕ) : ClientSocket :=
  let c := c.modifySocket i ({ · with readyState := .closed })
  if c.hears i then c.handleSocketError else c

/-- The socket is closed, its close event is dispatched, and the `close()` calls that wait for it are
to go on. -/
def endSocket (c : ClientSocket) (i : ℕ) : ClientSocket :=
  { c.modifySocket i ({ · with readyState := .closed, ended := true }) with
    waiting := c.waiting.filter (· ≠ i)
    resumed := c.resumed ++ c.waiting.filter (· = i) }

def onclose (c : ClientSocket) (i : ℕ) : ClientSocket :=
  let c := c.endSocket i
  if c.hears i then c.handleClose else c

end ClientSocket

/-! ## Runs -/

inductive Action where
  | connect
  | close
  | retireConnection
  | setToken (token : Option Text)
  /-- a `close()` call goes on -/
  | resume
  /-- a timer of the backoff fires -/
  | fire (timer : ℕ)
  /-- the connection of a socket is established -/
  | opened (i : ℕ)
  /-- the other side begins to close -/
  | closing (i : ℕ)
  /-- the connection fails -/
  | failed (i : ℕ)
  /-- the connection is closed -/
  | closed (i : ℕ)

def init (token : Option Text) : ClientSocket :=
  ⟨token, false, false, [], none, false, false, 0, false, none, [], 0, [], [], none, 0, [], []⟩

/-- The close event of the socket is still to come. -/
def ClientSocket.alive (c : ClientSocket) (i : ℕ) : Bool := c.sockets[i]?.any (!·.ended)

def step (c : ClientSocket) : Action → Option ClientSocket
  | .connect => some c.connect
  | .close => some c.close
  | .retireConnection => some c.retireConnection
  | .setToken token => some { c with token }
  | .resume => match c.resumed with
    | i :: rest => some ({ c with resumed := rest }.closeResumed i)
    | [] => none
  | .fire timer => if c.resumed = [] ∧ timer ∈ c.timers then some (c.reconnectFires timer) else none
  | .opened i => if c.resumed = [] ∧ c.readyState i = some .connecting then some (c.onopen i) else none
  | .closing i => if c.resumed = [] ∧ c.readyState i = some .opened then
      some (c.modifySocket i ({ · with readyState := .closing })) else none
  | .failed i => if c.resumed = [] ∧ c.alive i ∧ c.readyState i ≠ some .closed then
      some (c.onerror i) else none
  | .closed i => if c.resumed = [] ∧ c.alive i then some (c.onclose i) else none

def machine (token : Option Text) : Machine ClientSocket Action := ⟨init token, step⟩

/-- What a step does, and when it is possible. -/
inductive Effect (c : ClientSocket) : Action → ClientSocket → Prop where
  | connect : Effect c .connect c.connect
  | close : Effect c .close c.close
  | retireConnection : Effect c .retireConnection c.retireConnection
  | setToken {token : Option Text} : Effect c (.setToken token) { c with token }
  | resume {i : ℕ} {rest : List ℕ} (h : c.resumed = i :: rest) :
    Effect c .resume ({ c with resumed := rest }.closeResumed i)
  | fire {timer : ℕ} (h : timer ∈ c.timers) : Effect c (.fire timer) (c.reconnectFires timer)
  | opened {i : ℕ} (h : c.readyState i = some .connecting) : Effect c (.opened i) (c.onopen i)
  | closing {i : ℕ} (h : c.readyState i = some .opened) :
    Effect c (.closing i) (c.modifySocket i ({ · with readyState := .closing }))
  | failed {i : ℕ} : Effect c (.failed i) (c.onerror i)
  | closed {i : ℕ} (h : c.alive i = true) : Effect c (.closed i) (c.onclose i)

theorem effect_of_step {c c' : ClientSocket} {a : Action} (h : step c a = some c') : Effect c a c' := by
  cases a with
  | connect => cases h; exact .connect
  | close => cases h; exact .close
  | retireConnection => cases h; exact .retireConnection
  | setToken token => cases h; exact .setToken
  | resume =>
    rw [step] at h
    split at h
    · next hresumed => cases h; exact .resume hresumed
    · cases h
  | fire timer =>
    rw [step] at h
    split at h
    · next hguard => cases h; exact .fire hguard.2
    · cases h
  | opened i =>
    rw [step] at h
    split at h
    · next hguard => cases h; exact .opened hguard.2
    · cases h
  | closing i =>
    rw [step] at h
    split at h
    · next hguard => cases h; exact .closing hguard.2
    · cases h
  | failed i =>
    rw [step] at h
    split at h
    · cases h; exact .failed
    · cases h
  | closed i =>
    rw [step] at h
    split at h
    · next hguard => cases h; exact .closed hguard.2
    · cases h

end TypeFerry.Client.Socket
