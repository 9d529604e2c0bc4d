import TypeFerry.Lib.OrderedMap
import TypeFerry.Lib.Runs
import TypeFerry.Live.Window

/-! # The observer of one subscription

`MongoLiveObserver` in both modes, cut at its awaits. `start` and the work queue
never run at the same time: no work is queued before `start` has resolved, so
one program counter serves both. What the database reads and the projector give
is the choice of the environment. The fields behind `clearing` are history: no
step reads them. -/
namespace TypeFerry.Live.Observer
open TypeFerry.Lib.Numeral TypeFerry.Lib.OrderedMap TypeFerry.Lib.Runs
open TypeFerry.Ejson.Clone TypeFerry.Live.Types TypeFerry.Live.Window

/-- `MongoLiveObserverOptions`, without what the environment plays. -/
structure Config where
  subscriptionId : SubscriptionId
  generation : Generation
  /-- `options.window` is given. -/
  windowed : Bool
  typedObjectIds : Bool
  maxSnapshotDocuments : Nat

def maxHandoffNotices : Nat := 10000

/-- A suspended `applyNotice` or `refreshOrderedWindow`. -/
inductive Job where
  /-- In `findOne`. -/
  | find (id : SourceId) (previous : Option ClientDocument)
  /-- In the projector, for the document found. -/
  | project (id : SourceId) (previous : Option ClientDocument) (document : Document)
  /-- In the read of the window. -/
  | read
  /-- In the projector, for a document of the window. -/
  | projectWindow (current : List ClientDocument) (document : Document) (rest : List Document)
  deriving DecidableEq

/-- Where the observer is suspended. -/
inductive Pc where
  | created
  /-- `start`, in the first read. -/
  | snapshotRead
  /-- `start`, in the projector. -/
  | snapshotProject (projected : List ClientDocument) (document : Document) (rest : List Document)
  /-- `start`, in a buffered notice; the rest of its batch follows. -/
  | draining (job : Job) (rest : List Notice)
  /-- `start`, behind the await of a buffered notice. -/
  | drained (rest : List Notice)
  | startFailed (error : Text)
  /-- The running work is done; queued work is started by the next turn. -/
  | idle
  | working (job : Job)
  /-- The work has rejected; its `catch` handler follows. -/
  | threw
  /-- Behind the await in the loop of `enqueueOrderedRefresh`. -/
  | loopTest
  /-- The loop is over; the `finally` handler follows. -/
  | exited
  deriving DecidableEq

/-- A delta and the documents of the observer when it was emitted. -/
structure Emission where
  delta : Delta
  documents : OMap Text ClientDocument
  orderedDocuments : List ClientDocument
  deriving DecidableEq

structure State where
  documents : OMap Text ClientDocument
  orderedDocuments : List ClientDocument
  bufferedNotices : List Notice
  /-- `unsubscribeSource` is set: the source calls the listener. -/
  subscribed : Bool
  initializing : Bool
  initializationInvalidated : Bool
  stopped : Bool
  sequence : Nat
  orderedRefreshRunning : Bool
  orderedRefreshPending : Bool
  pc : Pc
  /-- The notices whose `then` callback waits in `work`. -/
  queue : List Notice
  /-- `stop` waits for the work before it clears the buffer. -/
  clearing : Bool
  /-- What `start` resolved with. -/
  result : Option Snapshot
  emissions : List Emission
  staleCalls : Nat
  /-- The window reads begun by the work queue. -/
  reads : Nat
  /-- The documents projected so far. -/
  seen : List ClientDocument

def init : State where
  documents := OMap.empty
  orderedDocuments := []
  bufferedNotices := []
  subscribed := false
  initializing := true
  initializationInvalidated := false
  stopped := false
  sequence := 0
  orderedRefreshRunning := false
  orderedRefreshPending := false
  pc := .created
  queue := []
  clearing := false
  result := none
  emissions := []
  staleCalls := 0
  reads := 0
  seen := []

inductive Action where
  | start
  /-- The source calls the listener. -/
  | notice (n : Notice)
  | stop
  /-- `stop` has waited for the work. -/
  | cleared
  /-- The outstanding `find` gives its documents. -/
  | read (documents : List Document)
  /-- The outstanding `findOne` gives its document. -/
  | found (document : Option Document)
  /-- The outstanding projector gives its fields. -/
  | projected (fields : List (Text × Value))
  /-- What is outstanding rejects. -/
  | fail (error : Text)
  /-- The next continuation that waits for nothing outside. -/
  | turn

/-- How far a piece of a job got: to its end, to an await, or to a throw. -/
inductive Outcome where
  | settled (s : State)
  | awaiting (s : State) (job : Job)
  | rejected (s : State) (error : Text)

def invalidId : Text := js "MongoDB live publications require ObjectId, string, or number \"_id\"."
def projectedId : Text := js "MongoDB live projectors must not return \"_id\"."
def resetWhileStarting : Text :=
  js "MongoDB live source reset while the initial snapshot was being built."
def snapshotExceeds (max : Nat) : Text :=
  js "MongoDB live snapshot exceeds " ++ indexText max ++ js " documents."

namespace State
variable (cfg : Config)

def stop (s : State) : State :=
  if s.stopped then s else { s with stopped := true, subscribed := false, clearing := true }

def onStale (s : State) : State := { s with staleCalls := s.staleCalls + 1 }

/-- `onDelta` with the next sequence number. -/
def onDelta (s : State) (operation : Operation) : State :=
  let delta : Delta := ⟨cfg.subscriptionId, cfg.generation, s.sequence + 1, [operation]⟩
  { s with
    sequence := s.sequence + 1
    emissions := s.emissions ++ [⟨delta, s.documents, s.orderedDocuments⟩] }

/-- The end of `applyNotice` and of `refreshOrderedWindow`. -/
def emitOperation (s : State) (emit : Bool) : Option Operation → State
  | some operation => if emit then s.onDelta cfg operation else s
  | none => s

/-- The key of a source identifier. -/
def idKey (id : SourceId) : Text := canonicalId (toClientId cfg.typedObjectIds id)

/-- `project` behind the projector: the client document, unless the fields hold
an `_id`. -/
def projectDocument (id : SourceId) (fields : List (Text × Value)) : Option ClientDocument :=
  if hasOwn fields (js "_id") then none else some ⟨toClientId cfg.typedObjectIds id, fields⟩

/-- `documents.delete(key)` where there is a previous document. -/
def removeDocument (s : State) (emit : Bool) (id : SourceId) (previous : Option ClientDocument) :
    State :=
  match previous with
  | some _ => { s with documents := s.documents.delete (idKey cfg id) }.emitOperation cfg emit
      (some (.removed (toClientId cfg.typedObjectIds id)))
  | none => s

/-- The operation for a document that was found. -/
def putOperation (previous : Option ClientDocument) (projected : ClientDocument) :
    Option Operation :=
  match previous with
  | none => some (.added projected)
  | some p => if p.equals projected then none else some (.changed projected)

/-- `documents.set(key, projected)` and its operation. -/
def putDocument (s : State) (emit : Bool) (id : SourceId) (previous : Option ClientDocument)
    (projected : ClientDocument) : State :=
  { s with
      documents := s.documents.set (idKey cfg id) projected
      seen := s.seen ++ [projected] }.emitOperation cfg emit (putOperation previous projected)

/-- `refreshOrderedWindow` behind its loop. -/
def finishWindow (s : State) (emit : Bool) (current : List ClientDocument) : Outcome :=
  if s.stopped then .settled s
  else match createSplice s.orderedDocuments current with
    | .ok operation => .settled ({ s with orderedDocuments := current }.emitOperation cfg emit
        (operation.map .windowSplice))
    | .error e => .rejected s e

/-- The loop of `refreshOrderedWindow`, up to the next projector. -/
def projectNext (s : State) (emit : Bool) (current : List ClientDocument) :
    List Document → Outcome
  | [] => s.finishWindow cfg emit current
  | d :: rest => match readLiveId d._id with
    | some _ => .awaiting s (.projectWindow current d rest)
    | none => .rejected s invalidId

/-- `applyNotice`, up to its first await. -/
def applyNotice (s : State) (emit : Bool) (notice : Notice) : Outcome :=
  if s.stopped then .settled s
  else match notice with
    | .reset _ _ => .settled (if emit then s.onStale else s)
    | .change _ id deleted =>
      if cfg.windowed then .awaiting s .read
      else
        let previous := s.documents.get (idKey cfg id)
        if deleted then .settled (s.removeDocument cfg emit id previous)
        else .awaiting s (.find id previous)

/-- A job goes on with what it waited for. -/
def resumeJob (s : State) (emit : Bool) : Job → Action → Option Outcome
  | .find id previous, .found none => some (.settled (s.removeDocument cfg emit id previous))
  | .find id previous, .found (some d) =>
    -- The database gives a document with the `_id` that was asked for.
    if d._id = .live id then some (.awaiting s (.project id previous d)) else none
  | .project id previous _, .projected fields => some (match projectDocument cfg id fields with
    | some projected => .settled (s.putDocument cfg emit id previous projected)
    | none => .rejected s projectedId)
  | .read, .read ds => some (s.projectNext cfg emit [] ds)
  | .projectWindow current d rest, .projected fields => some (match readLiveId d._id with
    | none => .rejected s invalidId
    | some id => match projectDocument cfg id fields with
      | some projected => { s with seen := s.seen ++ [projected] }.projectNext cfg emit
          (current ++ [projected]) rest
      | none => .rejected s projectedId)
  | _, .fail e => some (.rejected s e)
  | _, _ => none

/-! ### `start` -/

/-- `assertInitializationValid` throws. -/
def failInvalidated (s : State) : State := { s.stop with pc := .startFailed resetWhileStarting }

/-- `start` after a piece of a job. -/
def afterDrainJob (rest : List Notice) : Outcome → State
  | .settled s => { s with pc := .drained rest }
  | .awaiting s job => { s with pc := .draining job rest }
  | .rejected s e => { s with pc := .startFailed e }

/-- The buffered notices, from the loop over a batch on. -/
def drain (s : State) (rest : List Notice) : State :=
  if s.initializationInvalidated then s.failInvalidated
  else match rest, s.bufferedNotices with
    | [], [] => { s with
        initializing := false
        pc := .idle
        result := some ⟨cfg.subscriptionId, cfg.generation, s.sequence, cfg.windowed,
          if cfg.windowed then s.orderedDocuments else s.documents.values⟩ }
    | n :: rest, _ => afterDrainJob rest (s.applyNotice cfg false n)
    | [], n :: rest =>
      afterDrainJob rest ({ s with bufferedNotices := [] }.applyNotice cfg false n)

/-- The projected snapshot becomes the observer's documents. -/
def takeSnapshot (s : State) (projected : List ClientDocument) : State :=
  if cfg.windowed then { s with orderedDocuments := projected }
  else { s with documents := projected.foldl (fun m d => m.set d.key d) s.documents }

/-- The loop over the snapshot's documents, up to the next projector. -/
def snapshotNext (s : State) (projected : List ClientDocument) : List Document → State
  | [] => (s.takeSnapshot cfg projected).drain cfg []
  | d :: rest => match readLiveId d._id with
    | some _ => { s with pc := .snapshotProject projected d rest }
    | none => { s with pc := .startFailed invalidId }

/-- `start` goes on with its first read. -/
def snapshotDocuments (s : State) (ds : List Document) : State :=
  if s.initializationInvalidated then s.failInvalidated
  else if cfg.windowed = false ∧ ds.length > cfg.maxSnapshotDocuments then
    { s.stop with pc := .startFailed (snapshotExceeds cfg.maxSnapshotDocuments) }
  else s.snapshotNext cfg [] ds

/-- `start` goes on with a projected document. -/
def snapshotProjected (s : State) (projected : List ClientDocument) (d : Document)
    (rest : List Document) (fields : List (Text × Value)) : State :=
  match readLiveId d._id with
  | none => { s with pc := .startFailed invalidId }
  | some id => match projectDocument cfg id fields with
    | none => { s with pc := .startFailed projectedId }
    | some p =>
      let s := { s with seen := s.seen ++ [p] }
      if s.initializationInvalidated then s.failInvalidated
      else s.snapshotNext cfg (projected ++ [p]) rest

/-! ### The work queue -/

/-- An iteration of the loop in `enqueueOrderedRefresh`. -/
def beginRefresh (s : State) : State :=
  { s with orderedRefreshPending := false, reads := s.reads + 1, pc := .working .read }

/-- The work after a piece of a job. -/
def afterJob : Outcome → State
  | .settled s => { s with pc := if cfg.windowed then .loopTest else .idle }
  | .awaiting s job => { s with pc := .working job }
  | .rejected s _ => { s with pc := .threw }

def enqueueOrderedRefresh (s : State) : State :=
  if s.orderedRefreshRunning then { s with orderedRefreshPending := true }
  else { s with orderedRefreshRunning := true }

/-- The listener registered by `start`. -/
def listen (s : State) (notice : Notice) : State :=
  if s.initializing then match notice with
    | .reset _ _ => { s with initializationInvalidated := true }
    | .change _ _ _ =>
      if maxHandoffNotices ≤ s.bufferedNotices.length then
        { s with initializationInvalidated := true }
      else { s with bufferedNotices := s.bufferedNotices ++ [notice] }
  else match notice with
    | .reset _ _ => s.onStale.stop
    | .change _ _ _ =>
      if cfg.windowed then s.enqueueOrderedRefresh else { s with queue := s.queue ++ [notice] }

def turn (s : State) : Option State :=
  match s.pc with
  | .drained rest => some (s.drain cfg rest)
  | .idle =>
    if cfg.windowed then if s.orderedRefreshRunning then some s.beginRefresh else none
    else match s.queue with
      | n :: queue => some (afterJob cfg ({ s with queue := queue }.applyNotice cfg true n))
      | [] => none
  | .threw => some { (if s.stopped then s else s.onStale) with
      pc := if cfg.windowed then .exited else .idle }
  | .loopTest =>
    if s.orderedRefreshPending ∧ s.stopped = false then some s.beginRefresh
    else some { s with pc := .exited }
  | .exited => some { s with
      orderedRefreshRunning := false, orderedRefreshPending := false, pc := .idle }
  | _ => none

/-- Nothing of `work` is left. -/
def workDone (s : State) : Bool :=
  match s.pc with
  | .working _ | .threw | .loopTest | .exited => false
  | .idle => s.queue.isEmpty && !s.orderedRefreshRunning
  | _ => true

end State

/-- What was outstanding has settled. -/
def resume (cfg : Config) (s : State) (a : Action) : Option State :=
  match s.pc, a with
  | .snapshotRead, .read ds => some (s.snapshotDocuments cfg ds)
  | .snapshotProject projected d rest, .projected fields =>
    some (s.snapshotProjected cfg projected d rest fields)
  | .snapshotRead, .fail e | .snapshotProject _ _ _, .fail e => some { s with pc := .startFailed e }
  | .draining job rest, a => (s.resumeJob cfg false job a).map (State.afterDrainJob rest)
  | .working job, a => (s.resumeJob cfg true job a).map (State.afterJob cfg)
  | _, _ => none

def step (cfg : Config) (s : State) : Action → Option State
  | .start => if s.pc = .created then some { s with subscribed := true, pc := .snapshotRead } else none
  | .notice n => if s.subscribed then some (s.listen cfg n) else none
  | .stop => some s.stop
  | .cleared => if s.clearing ∧ s.workDone then
      some { s with bufferedNotices := [], clearing := false } else none
  | .turn => s.turn cfg
  | .read ds => resume cfg s (.read ds)
  | .found d => resume cfg s (.found d)
  | .projected fields => resume cfg s (.projected fields)
  | .fail e => resume cfg s (.fail e)

def machine (cfg : Config) : Machine State Action := ⟨init, step cfg⟩

/-! ## What a piece of a job can do -/

section
variable {cfg : Config} {s : State} {emit : Bool}

/-- The end of a window's loop. -/
theorem projectNext_cases (current : List ClientDocument) (ds : List Document) :
    (ds = [] ∧ s.stopped = true ∧ s.projectNext cfg emit current ds = .settled s) ∨
    (∃ op, ds = [] ∧ s.stopped = false ∧ createSplice s.orderedDocuments current = .ok op ∧
      s.projectNext cfg emit current ds = .settled
        ({ s with orderedDocuments := current }.emitOperation cfg emit (op.map .windowSplice))) ∨
    (∃ d rest, ds = d :: rest ∧
      s.projectNext cfg emit current ds = .awaiting s (.projectWindow current d rest)) ∨
    ∃ e, s.projectNext cfg emit current ds = .rejected s e := by
  cases ds with
  | nil =>
    cases hs : s.stopped with
    | true => exact .inl ⟨rfl, rfl, by simp [State.projectNext, State.finishWindow, hs]⟩
    | false =>
      cases hc : createSplice s.orderedDocuments current with
      | ok op =>
        exact .inr (.inl ⟨op, rfl, rfl, rfl, by
          simp [State.projectNext, State.finishWindow, hs, hc]⟩)
      | error e =>
        exact .inr (.inr (.inr ⟨e, by simp [State.projectNext, State.finishWindow, hs, hc]⟩))
  | cons d rest =>
    cases hd : readLiveId d._id with
    | some id => exact .inr (.inr (.inl ⟨d, rest, rfl, by simp [State.projectNext, hd]⟩))
    | none => exact .inr (.inr (.inr ⟨invalidId, by simp [State.projectNext, hd]⟩))

/-- Everything a job can do with what it waited for. -/
theorem resumeJob_cases {job : Job} {a : Action} {o : Outcome}
    (h : s.resumeJob cfg emit job a = some o) :
    (∃ id previous, job = .find id previous ∧ a = .found none ∧
      o = .settled (s.removeDocument cfg emit id previous)) ∨
    (∃ id previous d, job = .find id previous ∧ a = .found (some d) ∧ d._id = .live id ∧
      o = .awaiting s (.project id previous d)) ∨
    (∃ id previous d fields p, job = .project id previous d ∧ a = .projected fields ∧
      State.projectDocument cfg id fields = some p ∧
      o = .settled (s.putDocument cfg emit id previous p)) ∨
    (∃ ds, job = .read ∧ a = .read ds ∧ o = s.projectNext cfg emit [] ds) ∨
    (∃ current d rest fields id p, job = .projectWindow current d rest ∧ a = .projected fields ∧
      readLiveId d._id = some id ∧ State.projectDocument cfg id fields = some p ∧
      o = { s with seen := s.seen ++ [p] }.projectNext cfg emit (current ++ [p]) rest) ∨
    ∃ e, o = .rejected s e := by
  unfold State.resumeJob at h
  split at h
  · next id previous => cases h; exact .inl ⟨id, previous, rfl, rfl, rfl⟩
  · next id previous d =>
    split at h
    · next hd => cases h; exact .inr (.inl ⟨id, previous, d, rfl, rfl, hd, rfl⟩)
    · cases h
  · next id previous d fields =>
    cases h
    cases hp : State.projectDocument cfg id fields with
    | some p => exact .inr (.inr (.inl ⟨id, previous, d, fields, p, rfl, rfl, hp, rfl⟩))
    | none => exact .inr (.inr (.inr (.inr (.inr ⟨_, rfl⟩))))
  · next ds => cases h; exact .inr (.inr (.inr (.inl ⟨ds, rfl, rfl, rfl⟩)))
  · next current d rest fields =>
    cases h
    cases hid : readLiveId d._id with
    | none => exact .inr (.inr (.inr (.inr (.inr ⟨_, rfl⟩))))
    | some id =>
      cases hp : State.projectDocument cfg id fields with
      | some p =>
        exact .inr (.inr (.inr (.inr (.inl
          ⟨current, d, rest, fields, id, p, rfl, rfl, hid, hp, by simp only [hp]⟩))))
      | none => exact .inr (.inr (.inr (.inr (.inr ⟨projectedId, by simp only [hp]⟩))))
  · next e => cases h; exact .inr (.inr (.inr (.inr (.inr ⟨e, rfl⟩))))
  · cases h

/-- Everything that can go on once something outstanding has settled. -/
theorem resume_cases {a : Action} {s' : State} (h : resume cfg s a = some s') :
    (∃ ds, s.pc = .snapshotRead ∧ a = .read ds ∧ s' = s.snapshotDocuments cfg ds) ∨
    (∃ projected d rest fields, s.pc = .snapshotProject projected d rest ∧ a = .projected fields ∧
      s' = s.snapshotProjected cfg projected d rest fields) ∨
    (∃ e, (s.pc = .snapshotRead ∨ ∃ projected d rest, s.pc = .snapshotProject projected d rest) ∧
      s' = { s with pc := .startFailed e }) ∨
    (∃ job rest o, s.pc = .draining job rest ∧ s.resumeJob cfg false job a = some o ∧
      s' = State.afterDrainJob rest o) ∨
    ∃ job o, s.pc = .working job ∧ s.resumeJob cfg true job a = some o ∧
      s' = State.afterJob cfg o := by
  unfold resume at h
  split at h
  · next ds hpc => cases h; exact .inl ⟨ds, hpc, rfl, rfl⟩
  · next projected d rest fields hpc =>
    cases h; exact .inr (.inl ⟨projected, d, rest, fields, hpc, rfl, rfl⟩)
  · next e hpc => cases h; exact .inr (.inr (.inl ⟨e, .inl hpc, rfl⟩))
  · next e hpc => cases h; exact .inr (.inr (.inl ⟨_, .inr ⟨_, _, _, hpc⟩, rfl⟩))
  · next job rest hpc =>
    obtain ⟨o, ho, rfl⟩ := Option.map_eq_some_iff.mp h
    exact .inr (.inr (.inr (.inl ⟨job, rest, o, hpc, ho, rfl⟩)))
  · next job hpc =>
    obtain ⟨o, ho, rfl⟩ := Option.map_eq_some_iff.mp h
    exact .inr (.inr (.inr (.inr ⟨job, o, hpc, ho, rfl⟩)))
  · cases h

end

end TypeFerry.Live.Observer
