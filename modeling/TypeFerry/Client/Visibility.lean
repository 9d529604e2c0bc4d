import TypeFerry.Client.Socket

/-! # Recovery after a wake signal

`VisibilityManager` begins at most one automatic recovery at a time: it runs a hook, up to
three times, probes the socket for traffic, joins a connection that is being made, or
replaces the socket. Each `await` is a point where everything else may happen. A wait may
settle either way at any time: by the hook or by traffic, by a timeout, or by an abort. -/
namespace TypeFerry.Client.Visibility
open TypeFerry.Lib.Numeral TypeFerry.Lib.Runs TypeFerry.Client.Socket

/-! ## Recoveries -/

/-- Where an automatic recovery is suspended. -/
inductive Stage where
  /-- in an attempt of the hook, or after it -/
  | hook (attempt : ℕ) (settled : Option Bool)
  /-- in the delay after an attempt -/
  | delay (attempt : ℕ) (settled : Bool)
  /-- `runBeforeReconnect` has returned -/
  | hookDone (succeeded : Bool)
  | waitForTraffic (settled : Option Bool)
  | waitForInitialization (settled : Bool)
  /-- `runHookAndReconnect` has returned -/
  | done
  deriving DecidableEq

/-- An automatic recovery, with the socket and the token of its beginning. -/
structure Recovery where
  id : ℕ
  socket : Option ℕ
  token : Option Text
  /-- the number of sockets when it began -/
  began : ℕ
  stage : Stage

/-- What was the case when an automatic recovery called `retireConnection`. -/
structure Retirement where
  recovery : ℕ
  /-- the current socket was a good successor -/
  successor : Bool
  destroyed : Bool
  deriving DecidableEq

structure VisibilityManager where
  client : ClientSocket
  /-- `onBeforeReconnect` is set -/
  hook : Bool
  destroyed : Bool
  initializedSocket : Option ℕ
  /-- the automatic recoveries that have not come to their end -/
  running : List Recovery
  retirements : List Retirement

/-- The current socket is another one than that of the beginning, it was made after the
beginning, and its URL has the current token. -/
def goodSuccessor (c : ClientSocket) (r : Recovery) : Bool :=
  match c.socket with
  | none => false
  | some i => some i ≠ r.socket && r.began ≤ i && c.sockets[i]?.any (·.token = c.token)

def needsTokenHandshake (c : ClientSocket) (previousSocket : Option ℕ)
    (previousToken : Option Text) : Bool :=
  if c.token = previousToken then false
  else match c.socket with
    | none => true
    | some i => if some i = previousSocket then true else c.sockets[i]?.bind (·.token) ≠ c.token

def hookRetryAttempts : ℕ := 3

namespace VisibilityManager

def find (v : VisibilityManager) (id : ℕ) : Option Recovery := v.running.find? (·.id = id)

def isAborted (v : VisibilityManager) (r : Recovery) : Bool := r.id ∈ v.client.aborted

/-- The recovery is suspended again. -/
def suspend (v : VisibilityManager) (r : Recovery) (stage : Stage) : VisibilityManager :=
  { v with running := v.running.map fun r' => if r'.id = r.id then { r with stage } else r' }

/-- A wait whose signal is aborted settles at once. -/
def waitForInitialization (v : VisibilityManager) (r : Recovery) : VisibilityManager :=
  v.suspend r (.waitForInitialization (v.isAborted r))

def replaceConnection (v : VisibilityManager) (r : Recovery) : VisibilityManager :=
  let retirement : Retirement := ⟨r.id, goodSuccessor v.client r, v.destroyed⟩
  { v with
    client := v.client.replaceConnection r.id
    retirements := v.retirements ++ [retirement] }.waitForInitialization r

/-- The socket is another one now. -/
def joinSuccessor (v : VisibilityManager) (r : Recovery) : VisibilityManager :=
  if v.initializedSocket ≠ v.client.socket then v.waitForInitialization r else v.suspend r .done

/-- The end of `runHookAndReconnect`. -/
def joinOrReplace (v : VisibilityManager) (r : Recovery) : VisibilityManager :=
  if v.client.connecting || v.client.current = some .connecting || v.client.initializing ||
      (v.client.ready && v.initializedSocket ≠ r.socket) then v.waitForInitialization r
  else v.replaceConnection r

/-- `runHookAndReconnect` after the hook. -/
def afterHook (v : VisibilityManager) (r : Recovery) (hookSucceeded : Bool) : VisibilityManager :=
  if v.isAborted r then v.suspend r .done
  else if !hookSucceeded || needsTokenHandshake v.client r.socket r.token then v.replaceConnection r
  else if v.client.socket ≠ r.socket then v.joinSuccessor r
  else if v.client.ready && v.client.initialized && v.initializedSocket = r.socket && r.socket.isSome then
    v.suspend r (.waitForTraffic none)
  else v.joinOrReplace r

/-- `runHookAndReconnect` after the probe. -/
def afterTraffic (v : VisibilityManager) (r : Recovery) (receivedTraffic : Bool) : VisibilityManager :=
  if v.isAborted r then v.suspend r .done
  else if needsTokenHandshake v.client r.socket r.token then v.replaceConnection r
  else if v.client.socket ≠ r.socket then v.joinSuccessor r
  else if receivedTraffic && v.client.ready then v.suspend r .done
  else v.joinOrReplace r

/-- The last part of `finishRecovery`. -/
def finishRecovery (v : VisibilityManager) (id : ℕ) : VisibilityManager :=
  let client := v.client.abort id
  { v with
    client := if client.recovery = some id then { client with recovery := none } else client
    running := v.running.filter (·.id ≠ id) }

/-- A recovery whose wait has settled goes on. -/
def resume (v : VisibilityManager) (r : Recovery) : Option VisibilityManager :=
  match r.stage with
  | .hook _ (some true) => some (v.suspend r (.hookDone true))
  | .hook attempt (some false) =>
    if attempt + 1 < hookRetryAttempts then some (v.suspend r (.delay attempt (v.isAborted r)))
    else some (v.suspend r (.hookDone false))
  | .delay attempt true =>
    if v.isAborted r then some (v.suspend r (.hookDone false))
    else some (v.suspend r (.hook (attempt + 1) none))
  | .hookDone succeeded => some (v.afterHook r succeeded)
  | .waitForTraffic (some received) => some (v.afterTraffic r received)
  | .waitForInitialization true => some (v.suspend r .done)
  | .done => some (v.finishRecovery r.id)
  | .hook _ none | .delay _ false | .waitForTraffic none | .waitForInitialization false => none

/-- The wait of a recovery settles. -/
def settle (v : VisibilityManager) (r : Recovery) (success : Bool) : Option VisibilityManager :=
  match r.stage with
  | .hook attempt none => some (v.suspend r (.hook attempt (some success)))
  | .delay attempt false => some (v.suspend r (.delay attempt true))
  | .waitForTraffic none => some (v.suspend r (.waitForTraffic (some success)))
  | .waitForInitialization false => some (v.suspend r (.waitForInitialization true))
  | _ => none

/-- `handleSleepDetected`. Without a hook the recovery goes on at once. -/
def handleSleepDetected (v : VisibilityManager) : VisibilityManager :=
  if v.destroyed || v.client.recovery.isSome then v
  else
    let c := v.client
    let r : Recovery := ⟨c.recoveries, c.socket, c.token, c.sockets.length, .hook 0 none⟩
    let v := { v with client := v.client.newRecovery, running := v.running ++ [r] }
    if v.hook then v else v.afterHook r true

def destroy (v : VisibilityManager) : VisibilityManager :=
  { v with
    destroyed := true
    client := match v.client.recovery with
      | some id => { v.client.abort id with recovery := none }
      | none => v.client }

end VisibilityManager

/-! ## Runs -/

inductive Action where
  /-- anything that happens to the socket, backoff reconnects and token changes included -/
  | socket (a : Socket.Action)
  | setHook (isSet : Bool)
  /-- an auth frame: `initialize()`, as far as it resubscribes -/
  | authFrame
  /-- `INITIALIZED` is emitted -/
  | initialized
  /-- a gap between heartbeats, or a page that becomes visible -/
  | wake
  | reconnect
  | destroy
  | settle (id : ℕ) (success : Bool)
  | resume (id : ℕ)
  /-- an explicit recovery comes to its end -/
  | finish (id : ℕ)

def init (token : Option Text) : VisibilityManager := ⟨Socket.init token, false, false, none, [], []⟩

def step (v : VisibilityManager) : Action → Option VisibilityManager
  | .socket a => (Socket.step v.client a).map fun client => { v with client }
  | .setHook isSet => some { v with hook := isSet }
  | .authFrame => some { v with client := { v.client with initialized := true, initializing := false } }
  | .initialized => some (if v.destroyed then v else { v with initializedSocket := v.client.socket })
  | .wake => some v.handleSleepDetected
  | .reconnect => some { v with client := v.client.reconnect }
  | .destroy => some v.destroy
  | .settle id success => (v.find id).bind (v.settle · success)
  | .resume id => (v.find id).bind v.resume
  | .finish id => if id < v.client.recoveries ∧ (v.find id).isNone then some (v.finishRecovery id) else none

def machine (token : Option Text) : Machine VisibilityManager Action := ⟨init token, step⟩

end TypeFerry.Client.Visibility
