import TypeFerry.Lib.Numeral
import TypeFerry.Lib.OrderedMap
import TypeFerry.Lib.Runs

/-! # Rooms, events and the nodes that join them

The room registry of the WebSocket transport, the default methods `rpc:on`,
`rpc:off` and `rpc:logout`, the authentication of a node and its disconnection.
Every method runs behind at least one `await`, so a call is a task that is
resumed step by step; the answers of `shouldAllowChannelSubscribe` and of the
application's own `shouldSubscribe` come with the step. A node is known by the
number of its socket. -/
namespace TypeFerry.Server.Rooms
open TypeFerry.Lib.Numeral TypeFerry.Lib.OrderedMap TypeFerry.Lib.Runs

/-! ## The registry -/

/-- `set.add(x)`. -/
def addTo {α : Type} [DecidableEq α] (x : α) (xs : List α) : List α :=
  if x ∈ xs then xs else xs ++ [x]

/-- `set.delete(x)`. -/
def deleteFrom {α : Type} [DecidableEq α] (x : α) (xs : List α) : List α := xs.filter (· ≠ x)

/-- `RoomRegistry`: the sockets of a room, and the rooms of a socket. -/
structure RoomRegistry where
  rooms : OMap Text (List ℕ)
  socketRooms : OMap ℕ (List Text)

namespace RoomRegistry

def join (g : RoomRegistry) (ws : ℕ) (room : Text) : RoomRegistry where
  rooms := g.rooms.set room (addTo ws ((g.rooms.get room).getD []))
  socketRooms := g.socketRooms.set ws (addTo room ((g.socketRooms.get ws).getD []))

/-- A socket leaves the set of one room; an empty room is deleted. -/
def dropMember (ws : ℕ) (rooms : OMap Text (List ℕ)) (room : Text) : OMap Text (List ℕ) :=
  match rooms.get room with
  | some members =>
    if deleteFrom ws members = [] then rooms.delete room
    else rooms.set room (deleteFrom ws members)
  | none => rooms

def leave (g : RoomRegistry) (ws : ℕ) (room : Text) : RoomRegistry where
  rooms := dropMember ws g.rooms room
  socketRooms := match g.socketRooms.get ws with
    | some joined =>
      if deleteFrom room joined = [] then g.socketRooms.delete ws
      else g.socketRooms.set ws (deleteFrom room joined)
    | none => g.socketRooms

def leaveAll (g : RoomRegistry) (ws : ℕ) : RoomRegistry :=
  match g.socketRooms.get ws with
  | some joined => ⟨joined.foldl (dropMember ws) g.rooms, g.socketRooms.delete ws⟩
  | none => g

/-- The sockets that `broadcast(room, data, exclude)` sends to. -/
def broadcast (g : RoomRegistry) (isOpen : ℕ → Bool) (room : Text) (exclude : Option ℕ) : List ℕ :=
  ((g.rooms.get room).getD []).filter fun ws => decide (exclude ≠ some ws) && isOpen ws

/-- What `broadcast` sends to which socket, in order. -/
def sends (g : RoomRegistry) (isOpen : ℕ → Bool) (room data : Text) (exclude : Option ℕ) :
    List (ℕ × Text) :=
  (g.broadcast isOpen room exclude).map fun ws => (ws, data)

def has (g : RoomRegistry) (ws : ℕ) (room : Text) : Bool :=
  ((g.rooms.get room).map fun members => decide (ws ∈ members)).getD false

def getRoomSize (g : RoomRegistry) (room : Text) : ℕ := ((g.rooms.get room).map List.length).getD 0

end RoomRegistry

/-- `getRoomName`. -/
def getRoomName (channel eventName : Text) : Text :=
  js "typeferry:" ++ channel ++ js ":" ++ eventName

/-! ## Events and nodes -/

/-- `EventOptions`, as far as they decide who may subscribe. `shouldSubscribe` says
whether the application gave a function of its own. -/
structure EventOptions where
  isProtected : Bool
  user : Bool
  shouldSubscribe : Bool
  deriving DecidableEq

/-- `Event.isProtected`: the `user` flag makes an event protected. -/
def EventOptions.requiresLogin (o : EventOptions) : Bool := o.isProtected || o.user

/-- The check of the `user` flag is in force: a function of the application overrides it. -/
def EventOptions.ownChannel (o : EventOptions) : Bool := o.user && !o.shouldSubscribe

/-- `ClientNode`. -/
structure ClientNode where
  authenticated : Bool
  userId : Option Text
  /-- `socket.readyState === OPEN` -/
  isOpen : Bool
  deriving DecidableEq

/-- `client.userId && channel === client.userId`. -/
def ClientNode.owns (client : ClientNode) (channel : Text) : Bool :=
  match client.userId with
  | some id => decide (id ≠ [] ∧ channel = id)
  | none => false

/-- The answer of `event.shouldSubscribe` where the framework gives it: at once. -/
def EventOptions.answer (o : EventOptions) (client : ClientNode) (channel : Text) : Option Bool :=
  if o.shouldSubscribe then none
  else if o.user then some (client.owns channel)
  else some true

/-! ## Calls -/

/-- Where a call is suspended. -/
inductive Stage where
  /-- `rpc:on` behind the middleware -/
  | onInvoked (events : List Text) (channel : Text)
  /-- in `shouldAllowChannelSubscribe` -/
  | onChannel (events : List Text) (channel : Text)
  /-- in `event.shouldSubscribe`, with the answer if it is known -/
  | onSubscribing (eventName : Text) (rest : List Text) (channel : Text) (answer : Option Bool)
  /-- behind `canSubscribeToEvent` of one event -/
  | onReturned (rest : List Text) (channel : Text)
  /-- `rpc:off` behind the middleware -/
  | offInvoked (events : List Text) (channel : Text)
  /-- `rpc:logout` behind the middleware -/
  | logoutInvoked
  deriving DecidableEq

structure Task where
  client : ℕ
  stage : Stage
  deriving DecidableEq

structure State where
  nodes : ℕ → ClientNode
  /-- the number of the next socket -/
  next : ℕ
  rooms : RoomRegistry
  tasks : List Task

/-- The declared events. -/
abbrev Events := Text → Option EventOptions

inductive Action where
  | connect
  /-- `authenticateNode` gets a context; `user` is the text of its `user._id`, if it has one -/
  | authenticate (client : ℕ) (user : Option Text)
  | rpcOn (client : ℕ) (events : List Text) (channel : Option Text)
  | rpcOff (client : ℕ) (events : List Text) (channel : Option Text)
  | rpcLogout (client : ℕ)
  /-- a suspended call goes on; `answer` is what it was waiting for -/
  | resume (task : ℕ) (answer : Bool)
  /-- the socket is not `OPEN` any more -/
  | shut (client : ℕ)
  /-- the socket's `close` event -/
  | closed (client : ℕ)
  /-- an event is emitted on a channel -/
  | propagate (channel eventName : Text) (exclude : Option ℕ)

/-- The node that the action gives another login state. -/
def State.relogs (s : State) (client : ℕ) : Action → Bool
  | .authenticate c _ => c == client
  | .resume i _ => match s.tasks[i]? with
    | some ⟨c, .logoutInvoked⟩ => c == client
    | _ => false
  | _ => false

/-- `channel = NO_CHANNEL`. -/
def channelOf (channel : Option Text) : Text := channel.getD (js "NO_CHANNEL")

/-- `canSubscribeToEvent` up to its `await`, for the next event of the list. Nothing: the
call returns. -/
def startNext (events : Events) (client : ClientNode) (channel : Text) : List Text → Option Stage
  | [] => none
  | eventName :: rest => match events eventName with
    | none => some (.onReturned rest channel)
    | some event =>
      if !event.requiresLogin || client.authenticated then
        some (.onSubscribing eventName rest channel (event.answer client channel))
      else some (.onReturned rest channel)

namespace State

def updateNode (s : State) (client : ℕ) (f : ClientNode → ClientNode) : State :=
  { s with nodes := Function.update s.nodes client (f (s.nodes client)) }

def addTask (s : State) (client : ℕ) (stage : Stage) : State :=
  { s with tasks := s.tasks ++ [⟨client, stage⟩] }

/-- The task goes on at another place, or is over. -/
def moveTask (s : State) (i : ℕ) (client : ℕ) : Option Stage → State
  | some stage => { s with tasks := s.tasks.set i ⟨client, stage⟩ }
  | none => { s with tasks := s.tasks.eraseIdx i }

/-- The body of `rpc:off`. -/
def leaveEvents (s : State) (events : Events) (client : ℕ) (channel : Text) (names : List Text) :
    State :=
  { s with rooms := names.foldl (fun g eventName =>
      if (events eventName).isSome then g.leave client (getRoomName channel eventName) else g) s.rooms }

/-- A suspended call runs to its next suspension point. -/
def resume (s : State) (events : Events) (i : ℕ) (answer : Bool) : Option State := do
  let ⟨client, stage⟩ ← s.tasks[i]?
  match stage with
  | .onInvoked names channel =>
    some (s.moveTask i client (if names = [] then none else some (.onChannel names channel)))
  | .onChannel names channel =>
    some (s.moveTask i client
      (if answer then startNext events (s.nodes client) channel names else none))
  | .onSubscribing eventName rest channel known =>
    let s' := s.moveTask i client (some (.onReturned rest channel))
    if known.getD answer then
      some { s' with rooms := s.rooms.join client (getRoomName channel eventName) }
    else some s'
  | .onReturned rest channel =>
    some (s.moveTask i client (startNext events (s.nodes client) channel rest))
  | .offInvoked names channel => some ((s.moveTask i client none).leaveEvents events client channel names)
  | .logoutInvoked =>
    some ((s.moveTask i client none).updateNode client fun n =>
      { n with authenticated := false, userId := none })

/-- The sockets to which `propagate` sends an event of a channel. -/
def propagate (s : State) (events : Events) (channel eventName : Text) (exclude : Option ℕ) : List ℕ :=
  if (events eventName).isSome then
    s.rooms.broadcast (fun ws => (s.nodes ws).isOpen) (getRoomName channel eventName) exclude
  else []

end State

def init : State where
  nodes _ := ⟨false, none, false⟩
  next := 0
  rooms := ⟨.empty, .empty⟩
  tasks := []

/-- One event of the server. -/
def step (events : Events) (s : State) : Action → Option State
  | .connect =>
    some { s.updateNode s.next fun _ => ⟨false, none, true⟩ with next := s.next + 1 }
  | .authenticate client user =>
    -- A context without `user._id` throws, but `authenticated` has been set before.
    if (s.nodes client).isOpen then
      some (s.updateNode client fun n => { n with authenticated := true, userId := user <|> n.userId })
    else none
  | .rpcOn client names channel =>
    if client < s.next then some (s.addTask client (.onInvoked names (channelOf channel))) else none
  | .rpcOff client names channel =>
    if client < s.next then some (s.addTask client (.offInvoked names (channelOf channel))) else none
  | .rpcLogout client =>
    if client < s.next ∧ (s.nodes client).authenticated then some (s.addTask client .logoutInvoked)
    else none
  | .resume i answer => s.resume events i answer
  | .shut client => some (s.updateNode client fun n => { n with isOpen := false })
  | .closed client =>
    if (s.nodes client).isOpen then none
    else some { s with rooms := (s.rooms.leaveAll client).leaveAll client }
  | .propagate _ _ _ => some s

def machine (events : Events) : Machine State Action := ⟨init, step events⟩

end TypeFerry.Server.Rooms
