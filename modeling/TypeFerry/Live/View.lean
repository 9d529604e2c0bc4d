import TypeFerry.Lib.MapEdits
import TypeFerry.Lib.OrderedMap
import TypeFerry.Lib.Runs
import TypeFerry.Live.Window

/-! # The client's live view

`MongoLiveView` of `client.ts`. Promises are numbered by the calls they belong
to: a call is outstanding from the moment it is issued until its `finally`
handler has run. State listeners and the call that releases the subscription
behind `stop` are left out; nothing here depends on them. -/
namespace TypeFerry.Live.View
open TypeFerry.Lib.MapEdits TypeFerry.Lib.Numeral TypeFerry.Lib.OrderedMap TypeFerry.Lib.Runs
open TypeFerry.Live.Types TypeFerry.Live.Window

/-! ## Materialized contents -/

/-- The fields that hold documents: `ordered`, `documents`, `orderedDocuments`. -/
structure Contents where
  ordered : Bool
  documents : OMap Text ClientDocument
  orderedDocuments : List ClientDocument
  deriving DecidableEq

namespace Contents

def empty : Contents := ⟨false, OMap.empty, []⟩

def currentDocuments (c : Contents) : List ClientDocument :=
  if c.ordered then c.orderedDocuments else c.documents.values

def setDocument (documents : OMap Text ClientDocument) (d : ClientDocument) :
    OMap Text ClientDocument := documents.set d.key d

/-- The contents of a snapshot. -/
def ofSnapshot (s : Snapshot) : Contents :=
  if s.ordered then ⟨true, OMap.empty, s.documents⟩
  else ⟨false, s.documents.foldl setDocument OMap.empty, []⟩

/-- One operation of a delta; nothing where `applyDelta` returns `false`. -/
def applyOperation (c : Contents) : Operation → Option Contents
  | .windowSplice op =>
    if c.ordered then (applySplice c.orderedDocuments op).map fun ds =>
      { c with orderedDocuments := ds }
    else none
  | .removed id =>
    if c.ordered then none else some { c with documents := c.documents.delete (canonicalId id) }
  | .added d | .changed d =>
    if c.ordered then none else some { c with documents := setDocument c.documents d }

/-- The loop of `applyDelta`: what was applied before a rejected operation
stays applied. -/
def applyOperations (c : Contents) : List Operation → Contents × Bool
  | [] => (c, true)
  | op :: ops => match c.applyOperation op with
    | some c' => c'.applyOperations ops
    | none => (c, false)

/-- All operations, or nothing. -/
def applyInFull (c : Contents) : List Operation → Option Contents
  | [] => some c
  | op :: ops => (c.applyOperation op).bind fun c' => c'.applyInFull ops

/-- Some operations are accepted before one is rejected. -/
def appliesInPart (c : Contents) : List Operation → Bool
  | [] => false
  | op :: ops => match c.applyOperation op with
    | some c' => (c'.applyInFull ops).isNone
    | none => false

theorem applyOperations_of_some {c c' : Contents} : ∀ {ops : List Operation},
    c.applyInFull ops = some c' → c.applyOperations ops = (c', true) := by
  intro ops
  induction ops generalizing c with
  | nil => rintro ⟨⟩; rfl
  | cons op ops ih =>
    intro h
    obtain ⟨c₁, hop, h⟩ := Option.bind_eq_some_iff.mp h
    rw [applyOperations, hop]
    exact ih h

theorem applyOperations_of_none {c : Contents} : ∀ {ops : List Operation},
    c.applyInFull ops = none → (c.applyOperations ops).2 = false := by
  intro ops
  induction ops generalizing c with
  | nil => rintro ⟨⟩
  | cons op ops ih =>
    intro h
    rw [applyOperations]
    cases hop : c.applyOperation op with
    | none => rfl
    | some c₁ => rw [applyInFull, hop] at h; exact ih h

/-- A delta that is rejected and not applied in part leaves the contents alone. -/
theorem applyOperations_rejected {c : Contents} {ops : List Operation}
    (h : c.applyInFull ops = none) (hpart : c.appliesInPart ops = false) :
    c.applyOperations ops = (c, false) := by
  cases ops with
  | nil => cases h
  | cons op ops =>
    rw [applyOperations]
    cases hop : c.applyOperation op with
    | none => rfl
    | some c₁ => simp_all [applyInFull, appliesInPart]

end Contents

/-! ## The view -/

inductive Status where
  | connecting
  | ready
  | resyncing
  | stopped
  | error
  deriving DecidableEq

/-- `MongoLiveViewSnapshot`. -/
structure ViewSnapshot where
  status : Status
  documents : List ClientDocument
  error : Option Text
  deriving DecidableEq

/-- The two methods a view waits for. -/
inductive Method where
  | subscribe
  | resync (staleGeneration : Generation)
  deriving DecidableEq

/-- A call and the promise made of it. -/
structure Call where
  id : Nat
  method : Method
  epoch : Nat
  /-- The response was handled; the `finally` handler is still to run. -/
  answered : Bool
  deriving DecidableEq

def Call.answer (id : Nat) (c : Call) : Call := if c.id = id then { c with answered := true } else c

structure State where
  subscriptionId : SubscriptionId
  contents : Contents
  bufferedDeltas : List Delta
  generation : Option Generation
  sequence : Nat
  stopped : Bool
  startPromise : Option Nat
  resyncPromise : Option Nat
  connectionEpoch : Nat
  snapshot : ViewSnapshot
  /-- The outstanding calls, in the order in which they were issued. -/
  calls : List Call
  nextCall : Nat
  /-- The promises behind which `resync` is to be called. -/
  followUps : List Nat
  deriving DecidableEq

/-- A view that was created and not started. -/
def created (subscriptionId : SubscriptionId) : State where
  subscriptionId := subscriptionId
  contents := .empty
  bufferedDeltas := []
  generation := none
  sequence := 0
  stopped := false
  startPromise := none
  resyncPromise := none
  connectionEpoch := 0
  snapshot := ⟨.connecting, [], none⟩
  calls := []
  nextCall := 0
  followUps := []

def maxEarlyDeltas : Nat := 1000

namespace State

def updateSnapshot (v : State) (status : Status) : State :=
  { v with snapshot := ⟨status, v.contents.currentDocuments, none⟩ }

def fail (v : State) (error : Text) : State :=
  { v with snapshot := ⟨.error, v.contents.currentDocuments, some error⟩ }

def issue (v : State) (method : Method) : State :=
  { v with
    calls := v.calls ++ [⟨v.nextCall, method, v.connectionEpoch, false⟩]
    nextCall := v.nextCall + 1 }

def start (v : State) : State :=
  if v.stopped ∨ v.startPromise.isSome then v
  else { (v.updateSnapshot .connecting).issue .subscribe with startPromise := some v.nextCall }

def resync (v : State) : State :=
  if v.stopped then v
  else match v.generation with
    | none => v.start
    | some g =>
      if v.resyncPromise.isSome then v
      else { (v.updateSnapshot .resyncing).issue (.resync g) with resyncPromise := some v.nextCall }

def stop (v : State) : State :=
  if v.stopped then v
  else
    { v with
      stopped := true
      contents := { v.contents with documents := OMap.empty, orderedDocuments := [] }
      bufferedDeltas := [] }.updateSnapshot .stopped

/-- `applyDelta`, and whether it returned `true`. -/
def applyDelta (v : State) (delta : Delta) : State × Bool :=
  if delta.sequence ≠ v.sequence + 1 then (v, false)
  else match v.contents.applyOperations delta.operations with
    | (c, true) => ({ v with contents := c, sequence := delta.sequence }.updateSnapshot .ready, true)
    | (c, false) => ({ v with contents := c }, false)

/-- The loop of `applySnapshot` over the deltas that came early. -/
def applyBuffered (v : State) : List Delta → State
  | [] => v.updateSnapshot .ready
  | delta :: deltas =>
    if some delta.generation ≠ v.generation ∨ delta.sequence ≤ v.sequence then
      v.applyBuffered deltas
    else match v.applyDelta delta with
      | (v', true) => v'.applyBuffered deltas
      | (v', false) => match v'.resyncPromise with
        | some promise => { v' with followUps := v'.followUps ++ [promise] }
        | none => v'.resync

def applySnapshot (v : State) (snapshot : Snapshot) : State :=
  if v.stopped then v
  else { v with
      contents := .ofSnapshot snapshot
      generation := some snapshot.generation
      sequence := snapshot.sequence
      bufferedDeltas := [] }.applyBuffered v.bufferedDeltas

/-- The branch of `handleEvent` for a delta. -/
def handleDelta (v : State) (delta : Delta) : State :=
  if v.snapshot.status ≠ .ready ∨ v.generation = none then
    if maxEarlyDeltas ≤ v.bufferedDeltas.length then
      if v.generation.isSome then { v with bufferedDeltas := [] }.resync
      else { v with bufferedDeltas := [] }
    else { v with bufferedDeltas := v.bufferedDeltas ++ [delta] }
  else if some delta.generation ≠ v.generation then v.resync
  else if delta.sequence ≤ v.sequence then v
  else match v.applyDelta delta with
    | (v', true) => v'
    | (v', false) => v'.resync

def handleEvent (v : State) : Event → State
  | .resyncRequired subscriptionId staleGeneration =>
    if v.stopped ∨ subscriptionId ≠ v.subscriptionId then v
    else if v.generation = none ∨ v.generation = some staleGeneration then v.resync
    else v
  | .delta delta =>
    if v.stopped ∨ delta.subscriptionId ≠ v.subscriptionId then v
    else v.handleDelta delta

/-- `handleClosed`, for `WEBSOCKET_CLOSED` and for `LOGOUT`. -/
def handleClosed (v : State) : State :=
  if v.stopped then v
  else
    { v with
      connectionEpoch := v.connectionEpoch + 1
      startPromise := none
      resyncPromise := none
      generation := none
      sequence := 0
      bufferedDeltas := [] }.updateSnapshot .connecting

/-- The handlers of a call's response. -/
def handleResponse (v : State) (call : Call) (result : Except Text Snapshot) : State :=
  if call.epoch ≠ v.connectionEpoch then v
  else match result with
    | .ok snapshot => v.applySnapshot snapshot
    | .error message => v.fail message

/-- The response of a call is handled once. -/
def respond (v : State) (id : Nat) (result : Except Text Snapshot) : Option State :=
  match v.calls.find? fun c => c.id = id with
  | some call =>
    if call.answered then none
    else some ({ v with calls := v.calls.map (Call.answer id) }.handleResponse call result)
  | none => none

/-- The `finally` handler of an answered call. -/
def settle (v : State) (id : Nat) : Option State :=
  if v.calls.any fun c => c.id = id && c.answered then
    some { v with
      calls := v.calls.filter fun c => c.id ≠ id
      startPromise := if v.startPromise = some id then none else v.startPromise
      resyncPromise := if v.resyncPromise = some id then none else v.resyncPromise }
  else none

/-- `activeResync.then(() => this.resync())`, once that promise has settled. -/
def followUp (v : State) (promise : Nat) : Option State :=
  if promise ∈ v.followUps ∧ (v.calls.any fun c => c.id = promise) = false then
    some { v with followUps := v.followUps.erase promise }.resync
  else none

end State

/-- What `applyDelta` can do. -/
theorem applyDelta_cases (v : State) (d : Delta) :
    (d.sequence ≠ v.sequence + 1 ∧ v.applyDelta d = (v, false)) ∨
    (∃ c, d.sequence = v.sequence + 1 ∧ v.contents.applyInFull d.operations = some c ∧
      v.applyDelta d =
        ({ v with contents := c, sequence := d.sequence }.updateSnapshot .ready, true)) ∨
    (∃ c, d.sequence = v.sequence + 1 ∧ v.contents.applyInFull d.operations = none ∧
      (v.contents.appliesInPart d.operations = false → c = v.contents) ∧
      v.applyDelta d = ({ v with contents := c }, false)) := by
  by_cases hq : d.sequence = v.sequence + 1
  · cases hc : v.contents.applyInFull d.operations with
    | some c =>
      have := Contents.applyOperations_of_some hc
      exact .inr (.inl ⟨c, hq, rfl, by simp [State.applyDelta, hq, this]⟩)
    | none =>
      have hfalse := Contents.applyOperations_of_none hc
      refine .inr (.inr ⟨(v.contents.applyOperations d.operations).1, hq, rfl, fun hpart => ?_, ?_⟩)
      · rw [Contents.applyOperations_rejected hc hpart]
      · rw [State.applyDelta, if_neg (by simp [hq])]
        split
        · next heq => rw [heq] at hfalse; cases hfalse
        · next heq => rw [heq]
  · exact .inl ⟨hq, by simp [State.applyDelta, hq]⟩

/-! ## Rejected deltas -/

namespace Contents

/-- The tests of the loop in `applyDelta` that return `false`. -/
def Rejects (c : Contents) : Operation → Prop
  | .windowSplice splice => c.ordered = false ∨ applySplice c.orderedDocuments splice = none
  | .added _ | .changed _ | .removed _ => c.ordered = true

/-! ### What operations undo -/

/-- What an operation does to the documents of a view without an order. -/
def edit : Operation → Option (Edit Text ClientDocument)
  | .added d | .changed d => some (.set d.key d)
  | .removed id => some (.delete (canonicalId id))
  | .windowSplice _ => none

def edits (ops : List Operation) : List (Edit Text ClientDocument) := ops.filterMap edit

/-- The first operation that is rejected is `op`, behind those of `done`: without an order the first splice, and in
an ordered view the first that is no splice or does not fit behind those in front of it. -/
def StopsAt (c : Contents) (done : List Operation) (op : Operation) : Prop :=
  if c.ordered then ∃ splices : List WindowSplice, done = splices.map .windowSplice ∧
    FitInTurn c.orderedDocuments splices ∧ ∀ splice, op = .windowSplice splice → ¬ Fits c.orderedDocuments splices splice
  else (∀ earlier ∈ done, (edit earlier).isSome = true) ∧ ∃ splice, op = .windowSplice splice

/-- At every place of an ordered view the operations leave the document that stands there. Without an order the last
operation on each identity leaves what the view has there, and those that put identities back do so in the view's
order, behind all that were never away. -/
def Restores (c : Contents) (done : List Operation) : Prop :=
  if c.ordered then ∀ splices : List WindowSplice, done = splices.map .windowSplice → ∀ place,
    documentAt c.orderedDocuments splices place = c.orderedDocuments[place]?
  else (∀ key d, last key (edits done) = some d → d = c.documents.get key) ∧ InOrder c.documents (edits done)

/-- The operations in front of a rejected one undo each other. -/
def Undone (c : Contents) (ops : List Operation) : Prop :=
  ∀ done op rest, ops = done ++ op :: rest → c.StopsAt done op → c.Restores done

theorem applyOperation_eq_none {c : Contents} {op : Operation} : c.applyOperation op = none ↔ c.Rejects op := by
  cases op with
  | windowSplice splice =>
    rw [applyOperation, Rejects]
    cases c.ordered with
    | true => simp
    | false => simp
  | added _ | changed _ | removed _ =>
    rw [applyOperation, Rejects]
    cases c.ordered <;> simp

theorem applyOperations_stop {c' : Contents} {op : Operation} (rest : List Operation) (hop : c'.Rejects op) :
    ∀ {c : Contents} {done : List Operation}, c.applyInFull done = some c' →
      c.applyOperations (done ++ op :: rest) = (c', false)
  | c, [], h => by
    obtain rfl := Option.some.inj h
    rw [List.nil_append, applyOperations, applyOperation_eq_none.mpr hop]
  | c, first :: done, h => by
    obtain ⟨c₁, hfirst, hdone⟩ := Option.bind_eq_some_iff.mp h
    rw [List.cons_append, applyOperations, hfirst]
    exact applyOperations_stop rest hop hdone

/-- A delta that is not applied in full stops at its first rejected operation. -/
theorem exists_rejected : ∀ {c : Contents} {ops : List Operation}, c.applyInFull ops = none →
    ∃ done op rest c', ops = done ++ op :: rest ∧ c.applyInFull done = some c' ∧ c'.Rejects op
  | c, [], h => by cases h
  | c, first :: ops, h => by
    cases hfirst : c.applyOperation first with
    | none => exact ⟨[], first, ops, c, rfl, rfl, applyOperation_eq_none.mp hfirst⟩
    | some c₁ =>
      rw [applyInFull, hfirst] at h
      obtain ⟨done, op, rest, c', hops, hdone, hop⟩ := exists_rejected h
      refine ⟨first :: done, op, rest, c', by rw [hops, List.cons_append], ?_, hop⟩
      rw [applyInFull, hfirst]
      exact hdone

/-- Splices change the window, one after the other. -/
theorem applyInFull_splices : ∀ (splices : List WindowSplice) {c : Contents}, c.ordered = true →
    c.applyInFull (splices.map .windowSplice) =
      (splices.foldlM applySplice c.orderedDocuments).map fun ds => { c with orderedDocuments := ds }
  | [], _, _ => rfl
  | splice :: splices, c, h => by
    rw [List.map_cons, applyInFull, applyOperation, if_pos h, List.foldlM_cons]
    cases applySplice c.orderedDocuments splice with
    | none => rfl
    | some ds => exact applyInFull_splices splices (c := { c with orderedDocuments := ds }) h

/-- The other operations edit the documents. -/
theorem applyInFull_edits : ∀ (ops : List Operation) {c : Contents}, c.ordered = false →
    (∀ op ∈ ops, (edit op).isSome = true) →
    c.applyInFull ops = some { c with documents := applyAll c.documents (edits ops) }
  | [], _, _, _ => rfl
  | op :: ops, c, h, hops => by
    obtain ⟨hop, hops⟩ := List.forall_mem_cons.mp hops
    have ih := fun documents => applyInFull_edits ops (c := { c with documents := documents }) h hops
    cases op with
    | windowSplice splice => cases hop
    | added d | changed d | removed id =>
      rw [applyInFull, applyOperation, if_neg (Bool.eq_false_iff.mp h), Option.bind_some, ih]
      rfl

theorem ordered_of_applyInFull : ∀ {ops : List Operation} {c c' : Contents}, c.applyInFull ops = some c' →
    if c.ordered then ∃ splices : List WindowSplice, ops = splices.map .windowSplice else ∀ op ∈ ops, (edit op).isSome = true
  | [], c, _, _ => by
    split
    · exact ⟨[], rfl⟩
    · exact List.forall_mem_nil _
  | op :: ops, c, c', h => by
    obtain ⟨c₁, hop, hrest⟩ := Option.bind_eq_some_iff.mp h
    have ih := ordered_of_applyInFull hrest
    cases op with
    | windowSplice splice =>
      rw [applyOperation] at hop
      split at hop
      · next hordered =>
        obtain ⟨ds, -, rfl⟩ := Option.map_eq_some_iff.mp hop
        rw [if_pos hordered] at ih ⊢
        obtain ⟨splices, rfl⟩ := ih
        exact ⟨splice :: splices, rfl⟩
      · cases hop
    | added d | changed d | removed id =>
      rw [applyOperation] at hop
      split at hop
      · cases hop
      · next hordered =>
        cases hop
        rw [if_neg hordered] at ih ⊢
        exact List.forall_mem_cons.mpr ⟨rfl, ih⟩

theorem stopsAt_iff {c : Contents} {done : List Operation} {op : Operation} :
    c.StopsAt done op ↔ ∃ c', c.applyInFull done = some c' ∧ c'.Rejects op := by
  rw [StopsAt]
  constructor
  · intro h
    split at h
    · next hordered =>
      obtain ⟨splices, rfl, hfit, hop⟩ := h
      obtain ⟨window, hwindow⟩ := fitInTurn_iff.mp hfit
      refine ⟨{ c with orderedDocuments := window }, by rw [applyInFull_splices splices hordered, hwindow]; rfl, ?_⟩
      cases op with
      | windowSplice splice =>
        refine .inr (Option.eq_none_iff_forall_ne_some.mpr fun rs hrs => hop splice rfl ?_)
        exact (behind_of_foldlM hwindow).fits_iff.mpr ⟨rs, hrs⟩
      | added d | changed d | removed id => exact hordered
    · next hordered =>
      obtain ⟨hdone, splice, rfl⟩ := h
      exact ⟨_, applyInFull_edits done (Bool.eq_false_iff.mpr hordered) hdone, .inl (Bool.eq_false_iff.mpr hordered)⟩
  · rintro ⟨c', hdone, hop⟩
    have hkind := ordered_of_applyInFull hdone
    split at hkind
    · next hordered =>
      obtain ⟨splices, rfl⟩ := hkind
      rw [applyInFull_splices splices hordered] at hdone
      obtain ⟨window, hwindow, rfl⟩ := Option.map_eq_some_iff.mp hdone
      rw [if_pos hordered]
      refine ⟨splices, rfl, fitInTurn_iff.mpr ⟨window, hwindow⟩, ?_⟩
      rintro splice rfl hfits
      obtain ⟨rs, hrs⟩ := (behind_of_foldlM hwindow).fits_iff.mp hfits
      rw [Rejects, hrs, hordered] at hop
      rcases hop with hop | hop <;> cases hop
    · next hordered =>
      rw [applyInFull_edits done (Bool.eq_false_iff.mpr hordered) hkind] at hdone
      cases hdone
      rw [if_neg hordered]
      cases op with
      | windowSplice splice => exact ⟨hkind, splice, rfl⟩
      | added d | changed d | removed id => exact absurd hop hordered

/-- The operations of a list that is accepted leave the contents alone exactly if they restore them. -/
theorem eq_iff_restores {c c' : Contents} {done : List Operation} (h : c.applyInFull done = some c') :
    c' = c ↔ c.Restores done := by
  have hkind := ordered_of_applyInFull h
  rw [Restores]
  split at hkind
  · next hordered =>
    obtain ⟨splices, rfl⟩ := hkind
    rw [applyInFull_splices splices hordered] at h
    obtain ⟨window, hwindow, rfl⟩ := Option.map_eq_some_iff.mp h
    have hplace := (behind_of_foldlM hwindow).document
    rw [if_pos hordered]
    constructor
    · intro hsame others hothers place
      obtain rfl := List.map_injective_iff.mpr (fun _ _ => Operation.windowSplice.inj) hothers
      rw [← hplace]
      exact congrArg (·.orderedDocuments[place]?) hsame
    · intro hrestores
      have : window = c.orderedDocuments := List.ext_getElem? fun place => (hplace place).trans (hrestores splices rfl place)
      rw [this]
  · next hordered =>
    rw [applyInFull_edits done (Bool.eq_false_iff.mpr hordered) hkind] at h
    cases h
    rw [if_neg hordered, ← applyAll_eq_self_iff]
    constructor
    · exact congrArg documents
    · intro hsame
      rw [hsame]

end Contents

/-- **A rejected delta changes nothing** exactly if the operations in front of the rejected one undo each other. -/
theorem applyDelta_unchanged_iff (v : State) (d : Delta) :
    ((v.applyDelta d).2 = false → (v.applyDelta d).1 = v) ↔
      (d.sequence = v.sequence + 1 → v.contents.Undone d.operations) := by
  constructor
  · intro hsame hsequence done op rest hops hstops
    obtain ⟨c', hdone, hop⟩ := Contents.stopsAt_iff.mp hstops
    have hstop := Contents.applyOperations_stop rest hop hdone
    have hdelta : v.applyDelta d = ({ v with contents := c' }, false) := by
      rw [State.applyDelta, if_neg (not_not.mpr hsequence), hops, hstop]
    rw [hdelta] at hsame
    exact (Contents.eq_iff_restores hdone).mp (congrArg State.contents (hsame rfl))
  · intro hundone hfalse
    rcases applyDelta_cases v d with ⟨-, heq⟩ | ⟨c, -, -, heq⟩ | ⟨c, hsequence, hnone, -, -⟩
    · rw [heq]
    · rw [heq] at hfalse
      cases hfalse
    · obtain ⟨done, op, rest, c', hops, hdone, hop⟩ := Contents.exists_rejected hnone
      have hrestores := hundone hsequence done op rest hops (Contents.stopsAt_iff.mpr ⟨c', hdone, hop⟩)
      rw [State.applyDelta, if_neg (not_not.mpr hsequence), hops, Contents.applyOperations_stop rest hop hdone,
        (Contents.eq_iff_restores hdone).mpr hrestores]

/-- The view of a window without documents. -/
def emptyWindow : State := { created 0 with generation := some 0, contents := ⟨true, OMap.empty, []⟩ }

/-- The first document is spliced in and stays, although the delta is rejected at its second operation. -/
def halfApplied : Delta where
  subscriptionId := 0
  generation := 0
  sequence := 1
  operations := [.windowSplice ⟨count 0, count 0, [⟨.str (js "a"), []⟩]⟩, .removed (.str (js "a"))]

theorem halfApplied_changes :
    (emptyWindow.applyDelta halfApplied).2 = false ∧ (emptyWindow.applyDelta halfApplied).1 ≠ emptyWindow := by
  decide +kernel

end TypeFerry.Live.View
