import TypeFerry.Live.Observer

/-! # The engine

`MongoLiveEngine`: the requests of each client node, serialized and cut at their
awaits, the logout and disconnection of nodes, and `close`. Subscriptions,
per-node maps and abort controllers are objects that several places refer to, so
they are known by number: a map that `stopNode` has taken out of `subscriptions`
lives on in the request that holds it. The observers are those of
`TypeFerry.Live.Observer`; authorization, the change source, the pressure of the
socket and the timers are played by the environment. -/
namespace TypeFerry.Live.Engine
open TypeFerry.Lib.Numeral TypeFerry.Lib.OrderedMap TypeFerry.Lib.Runs
open TypeFerry.Live.Types

/-- `MongoLiveOptions`, as far as the engine reads them here. -/
structure Options where
  maxSubscriptionsPerConnection : ℕ
  maxSnapshotDocuments : ℕ

abbrev MapId := ℕ
abbrev AuthorizationId := ℕ

structure SubscribeRequest where
  subscriptionId : SubscriptionId
  /-- Whether the publication is protected; nothing where there is none of that name. -/
  isProtected : Option Bool
  orderedWindows : Bool
  typedObjectIds : Bool
  deriving DecidableEq

structure ResyncRequest where
  subscriptionId : SubscriptionId
  staleGeneration : Generation
  deriving DecidableEq

/-- `MongoLiveSubscription`. -/
structure Subscription where
  id : SubscriptionId
  authorization : AuthorizationId
  supportsOrderedWindows : Bool
  supportsTypedObjectIds : Bool
  config : Observer.Config
  observer : Observer.State
  stale : Bool
  /-- A timer is set. -/
  pressureTimer : Bool
  /-- The deltas handed to `sendTypeFerryEvent`. -/
  sent : List Delta

/-- A request that has got a map, and the awaits of a request. -/
inductive Pc where
  | idle
  /-- `subscribe`, in `stopSubscription(existing)`. -/
  | subscribeStopping (request : SubscribeRequest) (map : MapId)
  | subscribeAuthorizing (request : SubscribeRequest) (map : MapId) (authorization : AuthorizationId)
  | subscribeSourcing (request : SubscribeRequest) (map : MapId) (authorization : AuthorizationId)
      (windowed : Bool)
  | subscribeStarting (request : SubscribeRequest) (map : MapId) (authorization : AuthorizationId)
      (generation : Generation)
  /-- `subscribe`, in the `catch` block. -/
  | subscribeFailing (request : SubscribeRequest) (map : MapId) (authorization : AuthorizationId)
      (error : Text)
  | resyncAuthorizing (request : ResyncRequest) (map : MapId) (previous : Generation)
  | resyncStopping (request : ResyncRequest) (map : MapId) (previous : Generation)
  | resyncSourcing (request : ResyncRequest) (map : MapId) (previous : Generation) (windowed : Bool)
  | resyncStarting (request : ResyncRequest) (map : MapId) (previous : Generation)
      (replacement : Generation)
  | resyncFailing (request : ResyncRequest) (map : MapId) (error : Text)
  | unsubscribeStopping (map : MapId)
  deriving DecidableEq

/-- What a `subscribe` or a `resync` returned or threw, and what was stored then. -/
structure Return where
  /-- The request of a `resync`. -/
  resync : Option ResyncRequest
  result : Except Text Snapshot
  /-- The generation stored under the identifier of the snapshot. -/
  stored : Option Generation
  /-- Whether that subscription was stale. -/
  stale : Bool
  /-- The deltas of the snapshot's generation that were handed to the socket. -/
  sent : List Delta

structure Node where
  /-- `socket.readyState` is `OPEN`. -/
  socketOpen : Bool
  authenticated : Bool
  /-- `subscriptions.get(node)`. -/
  subscriptions : Option MapId
  maps : MapId → OMap SubscriptionId Generation
  nextMap : MapId
  heap : Generation → Option Subscription
  nextGeneration : Generation
  pendingAuthorizations : List AuthorizationId
  aborted : List AuthorizationId
  nextAuthorization : AuthorizationId
  /-- `resyncSnapshots.get(node)`, which holds one entry at most. -/
  resyncSnapshots : Option (ResyncRequest × Snapshot)
  pc : Pc
  /-- The events that the socket has taken. -/
  outbox : List Event
  returns : List Return

def Node.connected : Node where
  socketOpen := true
  authenticated := false
  subscriptions := none
  maps _ := OMap.empty
  nextMap := 0
  heap _ := none
  nextGeneration := 0
  pendingAuthorizations := []
  aborted := []
  nextAuthorization := 0
  resyncSnapshots := none
  pc := .idle
  outbox := []
  returns := []

/-- What `sendTypeFerryEvent` reports, and the pressure before it. -/
inductive Send where
  /-- More than `maxBufferedBytes` before the event; it is not sent. -/
  | full
  | accepted
  /-- Accepted, and more than `maxBufferedBytes` behind the event. -/
  | exceeding
  /-- Not accepted. -/
  | refused
  deriving DecidableEq

/-- An attempt to send the control event, and whether `slowConsumerGraceMs` are over. -/
structure Attempt where
  send : Send
  expired : Bool
  deriving DecidableEq

/-- How an await ends. -/
inductive Settlement where
  /-- Where a subscription is created next: whether its publication gives a window. -/
  | fulfilled (windowed : Bool)
  | rejected (error : Text)
  deriving DecidableEq

inductive Action where
  | subscribe (request : SubscribeRequest)
  | resync (request : ResyncRequest)
  | unsubscribe (id : SubscriptionId)
  /-- What the request waits for has settled. -/
  | settle (settlement : Settlement)
  /-- An observer goes on; the rest is for a delta or a call of `onStale`. -/
  | observer (generation : Generation) (a : Observer.Action) (send : Send) (attempt : Attempt)
  /-- A pressure timer fires. -/
  | timer (generation : Generation) (attempt : Attempt)
  | login
  | logout
  | disconnect

def inactiveSocket : Text := js "MongoDB live methods require an active WebSocket."
def engineClosed : Text := js "MongoDB live engine is closed."
def publicationNotFound : Text := js "MongoDB live publication not found."
def publicationForbidden : Text := js "MongoDB live publication forbidden."
def capacityExceeded : Text := js "MongoDB live subscription capacity exceeded."
def cancelled : Text := js "MongoDB live subscription was cancelled."
def subscriptionNotFound : Text := js "MongoDB live subscription not found."
def generationIsCurrent : Text := js "MongoDB live subscription generation is current."
def windowCapability : Text :=
  js "MongoDB ordered live windows require client capability negotiation."
def typedCapability : Text :=
  js "MongoDB ordered live windows require typed ObjectId capability negotiation."

namespace Node

/-! ## Objects -/

/-- A subscription is changed in place. -/
def modify (n : Node) (g : Generation) (f : Subscription → Subscription) : Node :=
  { n with heap := fun k => if k = g then (n.heap k).map f else n.heap k }

def setMap (n : Node) (m : MapId) (map : OMap SubscriptionId Generation) : Node :=
  { n with maps := fun k => if k = m then map else n.maps k }

/-- The map of the node. -/
def nodeSubscriptions (n : Node) : OMap SubscriptionId Generation :=
  (n.subscriptions.map n.maps).getD OMap.empty

def abort (n : Node) (authorization : AuthorizationId) : Node :=
  { n with aborted := authorization :: n.aborted }

def stopObserver (n : Node) (g : Generation) : Node :=
  n.modify g fun s => { s with observer := s.observer.stop }

/-- `stopSubscription`, up to its await. -/
def stopSubscription (n : Node) (g : Generation) : Node :=
  match n.heap g with
  | some s => (n.abort s.authorization).modify g fun s =>
      { s with pressureTimer := false, observer := s.observer.stop }
  | none => n

/-! ## Delivery -/

def transmit (n : Node) (send : Send) (event : Event) : Node :=
  match send with
  | .accepted | .exceeding => { n with outbox := n.outbox ++ [event] }
  | .full | .refused => n

variable (closed : Bool)

/-- `attemptControl` of a stale subscription. -/
def attemptControl (n : Node) (g : Generation) (attempt : Attempt) : Node :=
  match n.heap g with
  | none => n
  | some s =>
    if closed ∨ s.stale = false then n
    else
      let n := n.transmit attempt.send (.resyncRequired s.id g)
      if attempt.send = .accepted then n.modify g fun s => { s with pressureTimer := false }
      else if attempt.expired then
        { n.modify g fun s => { s with pressureTimer := false } with socketOpen := false }
      else n.modify g fun s => { s with pressureTimer := true }

def markStale (n : Node) (g : Generation) (attempt : Attempt) : Node :=
  match n.heap g with
  | none => n
  | some s =>
    if s.stale ∨ closed then n
    else (n.modify g fun s => { s with stale := true, observer := s.observer.stop }).attemptControl
      closed g attempt

def deliver (n : Node) (g : Generation) (delta : Delta) (send : Send) (attempt : Attempt) : Node :=
  match n.heap g with
  | none => n
  | some s =>
    if s.stale ∨ closed then n
    else match send with
      | .full => n.markStale closed g attempt
      | .accepted => (n.modify g fun s => { s with sent := s.sent ++ [delta] }).transmit send
          (.delta delta)
      | .exceeding | .refused => ((n.modify g fun s => { s with sent := s.sent ++ [delta] }).transmit send
          (.delta delta)).markStale closed g attempt

/-- An observer goes on, and calls `onDelta` or `onStale`. -/
def observe (n : Node) (g : Generation) (a : Observer.Action) (send : Send) (attempt : Attempt) :
    Option Node := do
  let s ← n.heap g
  let observer ← Observer.step s.config s.observer a
  let n := n.modify g fun s => { s with observer := observer }
  if s.observer.staleCalls < observer.staleCalls then return n.markStale closed g attempt
  if s.observer.emissions.length < observer.emissions.length then
    match observer.emissions.getLast? with
    | some e => return n.deliver closed g e.delta send attempt
    | none => return n
  return n

/-! ## Requests -/

/-- A request is over. -/
def finish (n : Node) (resync : Option ResyncRequest) (id : SubscriptionId)
    (result : Except Text Snapshot) : Node :=
  let stored := n.nodeSubscriptions.get id
  let current := stored.bind n.heap
  let sent := match result with
    | .ok snapshot => (n.heap snapshot.generation).elim [] Subscription.sent
    | .error _ => []
  { n with
    pc := .idle
    returns := n.returns ++ [⟨resync, result, stored, current.elim false Subscription.stale, sent⟩] }

/-- `assertActive`. -/
def isActive (n : Node) (authorization : AuthorizationId) : Bool :=
  n.socketOpen && !closed && !n.aborted.contains authorization

/-- The capability checks of `createSubscription`. -/
def negotiate (windowed orderedWindows typedObjectIds : Bool) : Option Text :=
  if windowed && !orderedWindows then some windowCapability
  else if windowed && !typedObjectIds then some typedCapability
  else none

variable (options : Options)

/-- The end of `createSubscription`; the observer is not started. -/
def createSubscription (n : Node) (id : SubscriptionId) (authorization : AuthorizationId)
    (orderedWindows typedObjectIds windowed : Bool) : Node :=
  { n with
    nextGeneration := n.nextGeneration + 1
    heap := fun k => if k = n.nextGeneration then some {
        id := id
        authorization := authorization
        supportsOrderedWindows := orderedWindows
        supportsTypedObjectIds := typedObjectIds
        config := ⟨id, n.nextGeneration, windowed, typedObjectIds, options.maxSnapshotDocuments⟩
        observer := Observer.init
        stale := false
        pressureTimer := false
        sent := [] } else n.heap k }

def startObserver (n : Node) (g : Generation) : Node :=
  n.modify g fun s => { s with
    observer := (Observer.step s.config s.observer .start).getD s.observer }

/-! ### `subscribe` -/

def trackPending (n : Node) (authorization : AuthorizationId) : Node :=
  { n with pendingAuthorizations := authorization :: n.pendingAuthorizations }

def untrackPending (n : Node) (authorization : AuthorizationId) : Node :=
  { n with pendingAuthorizations := n.pendingAuthorizations.filter fun a => a ≠ authorization }

/-- The `catch` block of `subscribe`, up to its await. -/
def subscribeFail (n : Node) (request : SubscribeRequest) (map : MapId)
    (authorization : AuthorizationId) (subscription : Option Generation) (error : Text) : Node :=
  let n := n.abort authorization
  let n := subscription.elim n n.stopObserver
  { n with pc := .subscribeFailing request map authorization error }

/-- `subscribe` behind the existing subscription. -/
def subscribeAuthorize (n : Node) (request : SubscribeRequest) (map : MapId) : Node :=
  if options.maxSubscriptionsPerConnection ≤ (n.maps map).size then
    n.finish none request.subscriptionId (.error capacityExceeded)
  else { n.trackPending n.nextAuthorization with
    nextAuthorization := n.nextAuthorization + 1
    pc := .subscribeAuthorizing request map n.nextAuthorization }

/-- `subscribe`, up to its first await. -/
def subscribe (n : Node) (request : SubscribeRequest) : Node :=
  let fail := fun error => n.finish none request.subscriptionId (.error error)
  if n.socketOpen = false then fail inactiveSocket
  else if closed then fail engineClosed
  else match request.isProtected with
    | none => fail publicationNotFound
    | some isProtected =>
      if isProtected ∧ n.authenticated = false then fail publicationForbidden
      else
        let (n, map) := match n.subscriptions with
          | some map => (n, map)
          | none => ({ n with
              subscriptions := some n.nextMap
              nextMap := n.nextMap + 1 }.setMap n.nextMap OMap.empty, n.nextMap)
        match (n.maps map).get request.subscriptionId with
        | some existing =>
          { n.stopSubscription existing with pc := .subscribeStopping request map }
        | none => n.subscribeAuthorize options request map

/-- `subscribe` behind `authorize`. -/
def subscribeSource (n : Node) (request : SubscribeRequest) (map : MapId)
    (authorization : AuthorizationId) (windowed : Bool) : Node :=
  if n.isActive closed authorization = false then n.subscribeFail request map authorization none cancelled
  else match negotiate windowed request.orderedWindows request.typedObjectIds with
    | some error => n.subscribeFail request map authorization none error
    | none => { n with pc := .subscribeSourcing request map authorization windowed }

/-- `subscribe` behind `getSource`. -/
def subscribeStart (n : Node) (request : SubscribeRequest) (map : MapId)
    (authorization : AuthorizationId) (windowed : Bool) : Node :=
  let g := n.nextGeneration
  let n := n.createSubscription options request.subscriptionId authorization request.orderedWindows
    request.typedObjectIds windowed
  if n.isActive closed authorization = false then
    n.subscribeFail request map authorization (some g) cancelled
  else { n.startObserver g with pc := .subscribeStarting request map authorization g }

/-- `subscribe` behind `start`, which has given a snapshot. -/
def subscribeStore (n : Node) (request : SubscribeRequest) (map : MapId)
    (authorization : AuthorizationId) (g : Generation) (snapshot : Snapshot) : Node :=
  if n.isActive closed authorization = false then
    n.subscribeFail request map authorization (some g) cancelled
  else ((n.setMap map ((n.maps map).set request.subscriptionId g)).untrackPending authorization).finish
    none request.subscriptionId (.ok snapshot)

/-- `subscribe` behind the `catch` block. -/
def subscribeThrow (n : Node) (request : SubscribeRequest) (map : MapId)
    (authorization : AuthorizationId) (error : Text) : Node :=
  let n := if (n.maps map).size = 0 then { n with subscriptions := none } else n
  (n.untrackPending authorization).finish none request.subscriptionId (.error error)

/-! ### `resync` -/

/-- `resync`, up to its first await. -/
def resync (n : Node) (request : ResyncRequest) : Node :=
  let fail := fun error => n.finish (some request) request.subscriptionId (.error error)
  if n.socketOpen = false then fail inactiveSocket
  else match n.subscriptions with
    | none => fail subscriptionNotFound
    | some map => match (n.maps map).get request.subscriptionId with
      | none => fail subscriptionNotFound
      | some previous =>
        match n.resyncSnapshots.filter fun entry => entry.1 = request with
        | some (_, cached) => n.finish (some request) request.subscriptionId (.ok cached)
        | none =>
          if previous ≠ request.staleGeneration ∧
              (n.heap previous).elim false Subscription.stale = false then fail generationIsCurrent
          else { n with pc := .resyncAuthorizing request map previous }

/-- `resync` behind the stop of the previous observer. -/
def resyncSource (n : Node) (request : ResyncRequest) (map : MapId) (previous : Generation)
    (windowed : Bool) : Node :=
  let n := n.modify previous fun s => { s with pressureTimer := false }
  match n.heap previous with
  | none => n
  | some s => match negotiate windowed s.supportsOrderedWindows s.supportsTypedObjectIds with
    | some error => n.finish (some request) request.subscriptionId (.error error)
    | none => { n with pc := .resyncSourcing request map previous windowed }

/-- `resync` behind `getSource`. -/
def resyncStart (n : Node) (request : ResyncRequest) (map : MapId) (previous : Generation)
    (windowed : Bool) : Node :=
  match n.heap previous with
  | none => n
  | some s =>
    let g := n.nextGeneration
    let n := n.createSubscription options s.id s.authorization s.supportsOrderedWindows
      s.supportsTypedObjectIds windowed
    { n.startObserver g with pc := .resyncStarting request map previous g }

/-- The `catch` block of `resync`, up to its await. -/
def resyncFail (n : Node) (request : ResyncRequest) (map : MapId) (replacement : Generation)
    (error : Text) : Node :=
  { n.stopObserver replacement with pc := .resyncFailing request map error }

/-- `resync` behind `start`, which has given a snapshot. -/
def resyncStore (n : Node) (request : ResyncRequest) (map : MapId) (replacement : Generation)
    (snapshot : Snapshot) : Node :=
  match n.heap replacement with
  | none => n
  | some s =>
    if n.isActive closed s.authorization = false then n.resyncFail request map replacement cancelled
    else { n.setMap map ((n.maps map).set s.id replacement) with
      resyncSnapshots := some (request, snapshot) }.finish (some request) request.subscriptionId
        (.ok snapshot)

/-- `resync` behind the `catch` block. -/
def resyncThrow (n : Node) (request : ResyncRequest) (map : MapId) (error : Text) : Node :=
  (n.setMap map ((n.maps map).delete request.subscriptionId)).finish (some request)
    request.subscriptionId (.error error)

/-! ### `unsubscribe` -/

/-- `unsubscribe`, up to its await. -/
def unsubscribe (n : Node) (id : SubscriptionId) : Node :=
  if n.socketOpen = false then n
  else match n.subscriptions with
    | none => n
    | some map => match (n.maps map).get id with
      | none => n
      | some g => { (n.setMap map ((n.maps map).delete id)).stopSubscription g with
          pc := .unsubscribeStopping map }

def unsubscribed (n : Node) (map : MapId) : Node :=
  { (if (n.maps map).size = 0 then { n with subscriptions := none } else n) with pc := .idle }

/-! ### Awaits -/

/-- How `start` of an observer has ended. -/
def started (n : Node) (g : Generation) : Option (Except Text Snapshot) :=
  match n.heap g with
  | none => none
  | some s => match s.observer.result, s.observer.pc with
    | some snapshot, _ => some (.ok snapshot)
    | none, .startFailed error => some (.error error)
    | none, _ => none

/-- The request goes on. -/
def settle (n : Node) (settlement : Settlement) : Option Node :=
  match n.pc, settlement with
  | .idle, _ => none
  | .subscribeStopping request map, .fulfilled _ =>
    some ((n.setMap map ((n.maps map).delete request.subscriptionId)).subscribeAuthorize options
      request map)
  | .subscribeAuthorizing request map authorization, .fulfilled windowed =>
    some (n.subscribeSource closed request map authorization windowed)
  | .subscribeAuthorizing request map authorization, .rejected error
  | .subscribeSourcing request map authorization _, .rejected error =>
    some (n.subscribeFail request map authorization none error)
  | .subscribeSourcing request map authorization windowed, .fulfilled _ =>
    some (n.subscribeStart closed options request map authorization windowed)
  | .subscribeStarting request map authorization g, .fulfilled _ =>
    (n.started g).map fun
      | .ok snapshot => n.subscribeStore closed request map authorization g snapshot
      | .error error => n.subscribeFail request map authorization (some g) error
  | .subscribeFailing request map authorization error, .fulfilled _ =>
    some (n.subscribeThrow request map authorization error)
  | .resyncAuthorizing request map previous, .fulfilled _ =>
    some { n.stopObserver previous with pc := .resyncStopping request map previous }
  | .resyncAuthorizing request _ _, .rejected error
  | .resyncStopping request _ _, .rejected error | .resyncSourcing request _ _ _, .rejected error =>
    some (n.finish (some request) request.subscriptionId (.error error))
  | .resyncStopping request map previous, .fulfilled windowed =>
    some (n.resyncSource request map previous windowed)
  | .resyncSourcing request map previous windowed, .fulfilled _ =>
    some (n.resyncStart options request map previous windowed)
  | .resyncStarting request map _ replacement, .fulfilled _ =>
    (n.started replacement).map fun
      | .ok snapshot => n.resyncStore closed request map replacement snapshot
      | .error error => n.resyncFail request map replacement error
  | .resyncFailing request map error, .fulfilled _ => some (n.resyncThrow request map error)
  | .unsubscribeStopping map, .fulfilled _ => some (n.unsubscribed map)
  | _, .rejected _ => none

/-! ## Nodes that go -/

def abortPending (n : Node) : Node :=
  { n with aborted := n.pendingAuthorizations ++ n.aborted }

/-- `stopNode`, up to its await. -/
def stopNode (n : Node) : Node :=
  match n.subscriptions with
  | none => n
  | some map => (n.maps map).values.foldl stopSubscription
      { n with subscriptions := none, resyncSnapshots := none }

/-- `handleDisconnection` and `handleLogout`; a closed engine does not listen. -/
def handleGone (n : Node) : Node := if closed then n else n.abortPending.stopNode

end Node

/-- The actions of an observer that the engine does not call. -/
def isForeign : Observer.Action → Bool
  | .start | .stop => false
  | _ => true

def Node.step (options : Options) (closed : Bool) (n : Node) : Action → Option Node
  | .subscribe request => if n.pc = .idle then some (n.subscribe closed options request) else none
  | .resync request => if n.pc = .idle then some (n.resync request) else none
  | .unsubscribe id => if n.pc = .idle then some (n.unsubscribe id) else none
  | .settle settlement => n.settle closed options settlement
  | .observer g a send attempt =>
    if isForeign a then n.observe closed g a send attempt else none
  | .timer g attempt => match n.heap g with
    | some s => if s.pressureTimer then
        some ((n.modify g fun s => { s with pressureTimer := false }).attemptControl closed g attempt)
      else none
    | none => none
  | .login => some { n with authenticated := true }
  | .logout => some ({ n with authenticated := false }.handleGone closed)
  | .disconnect => some ({ n with socketOpen := false }.handleGone closed)

/-! ## All nodes -/

abbrev NodeId := ℕ

structure State where
  nodes : NodeId → Node
  closed : Bool

inductive EngineAction where
  | node (id : NodeId) (a : Action)
  /-- `close`, up to its first await. -/
  | close
  /-- `close` behind the running requests: all stored subscriptions are stopped. -/
  | closeSubscriptions

/-- `close` stops what a node has stored. -/
def Node.closeSubscriptions (n : Node) : Node :=
  { (n.nodeSubscriptions.values.foldl Node.stopSubscription n) with subscriptions := none }

def step (options : Options) (e : State) : EngineAction → Option State
  | .node id a => ((e.nodes id).step options e.closed a).map fun n =>
      { e with nodes := fun k => if k = id then n else e.nodes k }
  | .close => some (if e.closed then e
      else ⟨fun k => (e.nodes k).abortPending, true⟩)
  | .closeSubscriptions => if e.closed then
      some { e with nodes := fun k => (e.nodes k).closeSubscriptions } else none

def machine (options : Options) : Machine State EngineAction :=
  ⟨⟨fun _ => Node.connected, false⟩, step options⟩

end TypeFerry.Live.Engine
