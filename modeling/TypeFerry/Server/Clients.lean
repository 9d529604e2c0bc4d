import TypeFerry.Server.Registry

/-! # The server's clients

The two indices of the server over its client nodes (`allClients` by uuid and
`clientsByUserId` by user) with everything that writes them: connections and the end
of their authentication, HTTP requests, logouts, socket closes and `disconnectUser`.
A node is known by the number of its creation, and a socket by its node. -/
namespace TypeFerry.Server.Clients
open TypeFerry.Lib.Numeral TypeFerry.Lib.OrderedMap TypeFerry.Lib.Runs
open TypeFerry.Server.Rooms (addTo deleteFrom RoomRegistry)

/-! ## Nodes -/

/-- `ClientNode`. -/
structure Node where
  uuid : Text
  /-- `socket` is set; the node of an HTTP request has none -/
  hasSocket : Bool
  /-- `socket.readyState === OPEN` -/
  isOpen : Bool
  isAuthenticated : Bool
  userId : Option Text
  /-- the guard of `close()` -/
  closed : Bool
  /-- the close handler of the socket has run -/
  deleted : Bool
  /-- the flags of the auth frames that were sent -/
  authFrames : List Bool
  deriving DecidableEq

/-- A node that nobody has made yet. -/
def Node.absent : Node := ⟨[], false, false, false, none, false, false, []⟩

/-- `[^a-zA-Z0-9-]` does not match. -/
def uuidUnit (c : UInt16) : Bool :=
  decide (97 ≤ c ∧ c ≤ 122) || decide (65 ≤ c ∧ c ≤ 90) || decide (48 ≤ c ∧ c ≤ 57) || decide (c = 45)

/-- `validateUuid`. A text without any allowed unit is sanitized to the empty one. -/
def validateUuid (uuid : Option Text) (random : Text) : Text :=
  match uuid with
  | none => random
  | some uuid => if uuid.length = 0 ∨ 64 < uuid.length then random else (uuid.filter uuidUnit).take 64

/-! ## The server -/

structure Config where
  /-- the application authenticates the handshake -/
  handshakeAuthenticator : Bool
  isAuthEnabled : Bool

/-- `authenticateNode` has an authenticator to call. -/
def Config.authenticates (cfg : Config) (token : Option Text) : Bool :=
  cfg.handshakeAuthenticator || (cfg.isAuthEnabled && token.any (· ≠ []))

structure State where
  nodes : ℕ → Node
  /-- the number of the next node -/
  next : ℕ
  allClients : OMap Text ℕ
  clientsByUserId : OMap Text (List ℕ)
  /-- connections whose authenticator has not settled -/
  awaiting : List ℕ
  /-- `rpc:logout` calls behind the middleware -/
  logouts : List ℕ

/-- The `user._id` of a context, which may be any value. -/
inductive UserId where
  /-- missing or `null`, `0`, `NaN`, `false` or an empty text; also one that has no text -/
  | falsy
  /-- `String(user._id)`, which is empty for `[]` -/
  | truthy (text : Text)
  deriving DecidableEq

def UserId.text : UserId → Option Text
  | falsy => none
  | truthy text => some text

/-- What the listeners of `AUTHENTICATION` do. -/
inductive Listener where
  | returns
  | throws
  /-- they close the node, and may throw behind that -/
  | closes
  deriving DecidableEq

/-- How the race between the authenticator and its timeout ends. -/
inductive Outcome where
  | falsy
  | context (user : UserId) (listener : Listener)
  | threw
  | timedOut
  deriving DecidableEq

namespace State

def updateNode (s : State) (n : ℕ) (f : Node → Node) : State :=
  { s with nodes := Function.update s.nodes n (f (s.nodes n)) }

def addClient (s : State) (n : ℕ) : State :=
  { s with allClients := s.allClients.set (s.nodes n).uuid n }

def indexClientByUserId (s : State) (n : ℕ) : State :=
  match (s.nodes n).userId with
  | none => s
  | some userId =>
    if userId = [] then s
    else { s with clientsByUserId :=
      s.clientsByUserId.set userId (addTo n ((s.clientsByUserId.get userId).getD [])) }

/-- The node leaves the set of its user; an empty set is deleted. -/
def removeClientFromUserIndex (s : State) (n : ℕ) : State :=
  match (s.nodes n).userId with
  | none => s
  | some userId =>
    if userId = [] then s
    else { s with clientsByUserId := RoomRegistry.dropMember n s.clientsByUserId userId }

def deleteClient (s : State) (n : ℕ) : State :=
  ({ s with allClients := s.allClients.delete (s.nodes n).uuid }.removeClientFromUserIndex n).updateNode n
    fun node => { node with deleted := true }

def getClientsByUserId (s : State) (userId : Text) : List ℕ := (s.clientsByUserId.get userId).getD []

/-- `node.close()`. -/
def close (s : State) (n : ℕ) : State :=
  if (s.nodes n).closed then s
  else s.updateNode n fun node => { node with closed := true, isOpen := false }

/-- The nodes that `disconnectUser` closes. -/
def disconnected (s : State) (userId : Text) (exceptNodeUuid : Option Text) : List ℕ :=
  (s.getClientsByUserId userId).filter fun n => decide (some (s.nodes n).uuid ≠ exceptNodeUuid)

def disconnectUser (s : State) (userId : Text) (exceptNodeUuid : Option Text) : State :=
  (s.disconnected userId exceptNodeUuid).foldl close s

/-- The socket that `propagate` leaves out. -/
def excluded (s : State) (excludeUuid : Option Text) : Option ℕ :=
  match excludeUuid with
  | none => none
  | some uuid => if uuid = [] then none else s.allClients.get uuid

/-! ## Authentication -/

def emitAuthResult (s : State) (n : ℕ) (authenticated : Bool) : State :=
  if (s.nodes n).hasSocket && (s.nodes n).isOpen then
    s.updateNode n fun node => { node with authFrames := node.authFrames ++ [authenticated] }
  else s

/-- `setContext`, and whether it throws. -/
def setContext (s : State) (n : ℕ) (user : UserId) : State × Bool :=
  if (s.nodes n).isAuthenticated then
    match user with
    | .falsy => (s, true)
    | .truthy userId =>
      ((s.updateNode n fun node => { node with userId := some userId }).indexClientByUserId n, false)
  else (s, false)

def setAuthenticated (s : State) (n : ℕ) (authenticated : Bool) : State :=
  s.updateNode n fun node => { node with isAuthenticated := authenticated }

/-- The end of `authenticateNode`, behind its race. -/
def finishAuth (s : State) (n : ℕ) (outcome : Outcome) : State :=
  if (s.nodes n).isOpen then
    match outcome with
    | .falsy => s.emitAuthResult n (s.nodes n).isAuthenticated
    | .context user listener =>
      let (t, throws) := (s.setAuthenticated n true).setContext n user
      -- What throws here ends in the same `catch` as the authenticator itself.
      if throws then t.emitAuthResult n false
      else
        match listener with
        | .returns => t.emitAuthResult n (t.nodes n).isAuthenticated
        | .throws => t.emitAuthResult n false
        | .closes => (t.close n).emitAuthResult n ((t.close n).nodes n).isAuthenticated
    | .threw | .timedOut => s.emitAuthResult n false
  else s

end State

/-! ## Events -/

inductive Action where
  /-- a connection is opened with these query parameters -/
  | connect (uuid token : Option Text) (random : Text)
  | authResult (client : ℕ) (outcome : Outcome)
  /-- an RPC over HTTP builds its node; `context` has the `user._id` of what the authenticator
  gave, if that is not falsy -/
  | httpRequest (uuid : Text) (context : Option UserId)
  | rpcLogout (client : ℕ)
  | resumeLogout (client : ℕ)
  /-- the socket is not `OPEN` any more -/
  | shut (client : ℕ)
  /-- the socket's `close` event -/
  | closed (client : ℕ)
  | disconnectUser (userId : Text) (exceptNodeUuid : Option Text)
  /-- an event is emitted -/
  | propagate (excludeUuid : Option Text)

namespace State

/-- `handleConnection`, up to the first `await` of `authenticateNode`. -/
def handleConnection (s : State) (cfg : Config) (uuid token : Option Text) (random : Text) : State :=
  let n := s.next
  let t := { s.updateNode n fun _ =>
    { Node.absent with uuid := validateUuid uuid random, hasSocket := true, isOpen := true } with
    next := n + 1 }.addClient n
  if cfg.authenticates token then { t with awaiting := t.awaiting ++ [n] }
  else t.emitAuthResult n false

/-- `buildClientNode`. -/
def buildClientNode (s : State) (uuid : Text) (context : Option UserId) : State :=
  let n := s.next
  let t := { s.updateNode n fun _ => { Node.absent with uuid := uuid } with next := n + 1 }
  ((t.setAuthenticated n context.isSome).setContext n (context.getD .falsy)).1

end State

def init : State where
  nodes _ := Node.absent
  next := 0
  allClients := .empty
  clientsByUserId := .empty
  awaiting := []
  logouts := []

def step (cfg : Config) (s : State) : Action → Option State
  | .connect uuid token random => some (s.handleConnection cfg uuid token random)
  | .authResult n outcome =>
    if n ∈ s.awaiting then
      some ({ s with awaiting := deleteFrom n s.awaiting }.finishAuth n outcome)
    else none
  | .httpRequest uuid context => some (s.buildClientNode uuid context)
  | .rpcLogout n =>
    if (s.nodes n).isAuthenticated && !(s.nodes n).deleted then
      some { s with logouts := s.logouts ++ [n] }
    else none
  | .resumeLogout n =>
    if n ∈ s.logouts then
      some ({ s with logouts := s.logouts.erase n }.updateNode n fun node =>
        { node with isAuthenticated := false, userId := none })
    else none
  | .shut n => some (s.updateNode n fun node => { node with isOpen := false })
  | .closed n =>
    if (s.nodes n).hasSocket && !(s.nodes n).isOpen && !(s.nodes n).deleted then
      some ((s.close n).deleteClient n)
    else none
  | .disconnectUser userId exceptNodeUuid => some (s.disconnectUser userId exceptNodeUuid)
  | .propagate _ => some s

def machine (cfg : Config) : Machine State Action := ⟨init, step cfg⟩

end TypeFerry.Server.Clients
