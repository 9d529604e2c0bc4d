import TypeFerry.Minimongo.Exclusion

/-! # The event emitter

`EventEmitter2` keeps the listeners of every name in a plain object: a bare function where
there is one, an array where there are more. An emit walks a copy of the list, and while a
listener runs it may call the emitter again, so emits are frames of a stack. Beside the object
stands what has been registered for each name; the results say when the two agree. -/
namespace TypeFerry.Client.EventEmitter
open TypeFerry.Lib.Numeral TypeFerry.Lib.OrderedMap TypeFerry.Lib.Runs
open TypeFerry.Minimongo.Exclusion (inheritedNames)

/-! ## The listeners of a name -/

inductive Listener where
  | function (f : ℕ)
  /-- what `once` has made for `original` -/
  | once (wrapped : ℕ) (event : Text) (original : ℕ)
  /-- what `Object.prototype` has under the name; under `__proto__` that is the prototype itself -/
  | inherited (name : Text)
  deriving DecidableEq

def Listener.isOnce : Listener → Bool
  | .once .. => true
  | _ => false

/-- `matchesListener` with a function of the application. -/
def Listener.is (f : ℕ) : Listener → Bool
  | .function g => g = f
  | .once _ _ original => original = f
  | .inherited _ => false

inductive EventEntry where
  | one (listener : Listener)
  | many (listeners : List Listener)
  deriving DecidableEq

def EventEntry.toList : EventEntry → List Listener
  | .one listener => [listener]
  | .many listeners => listeners

/-- `listeners.length === 1 ? listeners[0] : listeners`. -/
def EventEntry.ofList : List Listener → EventEntry
  | [listener] => .one listener
  | listeners => .many listeners

/-- `_events`. Its prototype is `Object.prototype`, unless an entry was written to `__proto__`. -/
structure EventObject where
  own : OMap Text EventEntry
  prototype : Option EventEntry

namespace EventObject

def new : EventObject := ⟨.empty, none⟩

/-- What a function or an array gives for a name, where it is the prototype. -/
abbrev Through := EventEntry → Text → Option EventEntry

def get (through : Through) (o : EventObject) (name : Text) : Option EventEntry :=
  if name = js "__proto__" then some (o.prototype.getD (.one (.inherited name)))
  else match o.own.get name with
    | some entry => some entry
    | none => match o.prototype with
      | some entry => through entry name
      | none => if name ∈ inheritedNames then some (.one (.inherited name)) else none

def set (o : EventObject) (name : Text) (entry : EventEntry) : EventObject :=
  if name = js "__proto__" then
    { o with prototype := if entry = .one (.inherited name) then none else some entry }
  else { o with own := o.own.set name entry }

def delete (o : EventObject) (name : Text) : EventObject := { o with own := o.own.delete name }

end EventObject

/-! ## The emitter -/

/-- An emit that is going on, or has ended. -/
structure Frame where
  name : Text
  /-- what was registered for the name when the emit began -/
  registered : List Listener
  /-- the any-listeners of that moment -/
  anys : List ℕ
  pending : List Listener
  pendingAny : List ℕ
  called : List Listener
  calledAny : List ℕ
  /-- the once listeners that nested emits have fired -/
  meanwhile : List Listener
  deriving DecidableEq

structure State where
  events : EventObject
  anyListeners : List ℕ
  nextWrapped : ℕ
  /-- the emits that are going on, the innermost first -/
  stack : List Frame
  finished : List Frame
  /-- what is registered for a name: the specification of `events` -/
  registry : Text → List Listener
  fired : List Listener

def init : State := ⟨.new, [], 0, [], [], fun _ => [], []⟩

inductive Action where
  | on (name : Text) (f : ℕ)
  | once (name : Text) (f : ℕ)
  | off (name : Text) (f : ℕ)
  | onAny (f : ℕ)
  | offAny (f : ℕ)
  | removeAllListeners (name : Text)
  | emit (name : Text)
  /-- the listener that runs returns, and the innermost emit goes on -/
  | next
  deriving DecidableEq

section
variable (through : EventObject.Through)

namespace State

def listeners (s : State) (name : Text) : List Listener :=
  ((s.events.get through name).map EventEntry.toList).getD []

def setListeners (s : State) (name : Text) (listeners : List Listener) : State :=
  { s with events := if listeners = [] then s.events.delete name else s.events.set name (.ofList listeners) }

/-- What is registered for the name changes. -/
def register (s : State) (name : Text) (change : List Listener → List Listener) : State :=
  { s with registry := Function.update s.registry name (change (s.registry name)) }

def on (s : State) (name : Text) (listener : Listener) : State :=
  (s.setListeners name (s.listeners through name ++ [listener])).register name (· ++ [listener])

def offWhere (s : State) (name : Text) (gone : Listener → Bool) : State :=
  (s.setListeners name ((s.listeners through name).filter (!gone ·))).register name (·.filter (!gone ·))

/-- `if (event) delete this._events[event] else this.reset()`. -/
def removeAllListeners (s : State) (name : Text) : State :=
  if name = [] then { s with events := .new, anyListeners := [] }.register name fun _ => []
  else { s with events := s.events.delete name }.register name fun _ => []

def emit (s : State) (name : Text) : State :=
  { s with stack := ⟨name, s.registry name, s.anyListeners, s.listeners through name, s.anyListeners, [], [], []⟩ ::
      s.stack }

/-- The innermost emit calls a listener; what `once` has made takes itself out first. -/
def callListener (s : State) (frame : Frame) (outer : List Frame) (listener : Listener) (rest : List Listener) : State :=
  let frame := { frame with pending := rest, called := frame.called ++ [listener] }
  match listener with
  | .once _ event _ =>
    { s.offWhere through event (· = listener) with
      stack := frame :: outer.map fun e => { e with meanwhile := e.meanwhile ++ [listener] }
      fired := s.fired ++ [listener] }
  | _ => { s with stack := frame :: outer }

def next (s : State) : Option State :=
  match s.stack with
  | [] => none
  | frame :: outer =>
    match frame.pending, frame.pendingAny with
    | listener :: rest, _ => some (s.callListener through frame outer listener rest)
    | [], f :: rest =>
      some { s with stack := { frame with pendingAny := rest, calledAny := frame.calledAny ++ [f] } :: outer }
    | [], [] => some { s with stack := outer, finished := s.finished ++ [frame] }

end State

def step (s : State) : Action → Option State
  | .on name f => some (s.on through name (.function f))
  | .once name f => some ({ s with nextWrapped := s.nextWrapped + 1 }.on through name (.once s.nextWrapped name f))
  | .off name f => some (s.offWhere through name (·.is f))
  | .onAny f => some { s with anyListeners := if f ∈ s.anyListeners then s.anyListeners else s.anyListeners ++ [f] }
  | .offAny f => some { s with anyListeners := s.anyListeners.erase f }
  | .removeAllListeners name => some (s.removeAllListeners name)
  | .emit name => some (s.emit through name)
  | .next => s.next through

def machine : Machine State Action := ⟨init, step through⟩

/-! ## What an emit calls -/

/-- Every emit has called what was registered for the name when it began, but for the once
listeners that nested emits fired, and then the any-listeners of that moment. -/
def EmitsRegistered (s : State) : Prop := ∀ frame ∈ s.finished,
  frame.called = frame.registered.filter (· ∉ frame.meanwhile) ∧ frame.calledAny = frame.anys

/-- The name that the step is about. -/
def State.target (s : State) : Action → Option Text
  | .on name _ | .once name _ | .off name _ | .removeAllListeners name => some name
  | .next => match s.stack.head?.bind fun frame => frame.pending.head? with
    | some (.once _ event _) => some event
    | _ => none
  | _ => none

/-- In the runs whose steps meet the condition the emits call what is registered, every once
listener is fired at most once, and a step about one name leaves the listeners of the others. -/
structure Semantics (ok : State → Action → Prop) : Prop where
  emits : ∀ s, (machine through).Reach ok s → EmitsRegistered s
  once : ∀ s, (machine through).Reach ok s → s.fired.Nodup
  apart : ∀ s a s', (machine through).Reach ok s → ok s a → step through s a = some s' →
    ∀ name, s.target a ≠ some name → s'.listeners through name = s.listeners through name

end

/-- An emit is not of a name that objects inherit, nothing is registered for `__proto__`, the empty
name is removed only where nothing else is registered, and no once listener is fired while an
outer emit has still to call it. -/
def Regular (s : State) : Action → Prop
  | .emit name => name ∉ inheritedNames
  | .on name _ | .once name _ => name ≠ js "__proto__"
  | .removeAllListeners name => name = [] → s.anyListeners = [] ∧ ∀ other, other ≠ [] → s.registry other = []
  | .next => ∀ frame outer listener rest, s.stack = frame :: outer → frame.pending = listener :: rest →
      listener.isOnce = true → ∀ e ∈ outer, listener ∉ e.pending
  | _ => True

/-! ## The object and the registrations -/

/-- What the emitter finds where nothing is registered. -/
def base (name : Text) : List Listener := if name ∈ inheritedNames then [.inherited name] else []

section
variable {through : EventObject.Through} {s s' : State} {name other : Text}

theorem listeners_delete (hproto : s.events.prototype = none) :
    State.listeners through { s with events := s.events.delete name } other =
      if other = name then base name else s.listeners through other := by
  have hbase : base (js "__proto__") = [.inherited (js "__proto__")] := by decide
  unfold State.listeners EventObject.get EventObject.delete
  dsimp only
  rw [hproto, OMap.get_delete]
  by_cases hname : other = name
  · subst hname
    rw [if_pos rfl, if_pos rfl]
    by_cases hp : other = js "__proto__"
    · rw [if_pos hp, hp, hbase]
      rfl
    · rw [if_neg hp]
      dsimp only
      unfold base
      split <;> rfl
  · rw [if_neg hname, if_neg hname]

theorem toList_ofList (ls : List Listener) : (EventEntry.ofList ls).toList = ls := by
  unfold EventEntry.ofList
  split <;> rfl

theorem listeners_setListeners (hproto : s.events.prototype = none) (hname : name ≠ js "__proto__")
    (ls : List Listener) : (s.setListeners name (base name ++ ls)).listeners through other =
      if other = name then base name ++ ls else s.listeners through other := by
  unfold State.setListeners
  split
  · next hnone =>
    rw [listeners_delete hproto]
    split
    · rw [(List.append_eq_nil_iff.mp hnone).2, List.append_nil]
    · rfl
  · unfold State.listeners EventObject.get EventObject.set
    rw [if_neg hname]
    dsimp only
    rw [OMap.get_set]
    by_cases hother : other = name
    · rw [if_pos hother, if_pos hother, if_neg (hother ▸ hname)]
      dsimp only
      rw [Option.map_some, toList_ofList, Option.getD_some]
    · rw [if_neg hother, if_neg hother]

/-- The object holds what is registered, behind what it inherits. -/
structure Agrees (through : EventObject.Through) (s : State) : Prop where
  prototype : s.events.prototype = none
  proto : s.registry (js "__proto__") = []
  listeners : ∀ name, s.listeners through name = base name ++ s.registry name

theorem set_proto {o : EventObject} (h : o.prototype = none) :
    o.set (js "__proto__") (.ofList [.inherited (js "__proto__")]) = o := by
  obtain ⟨own, prototype⟩ := o
  cases h
  rfl

theorem register_registry (change : List Listener → List Listener) :
    (s.register name change).registry other = if other = name then change (s.registry name) else s.registry other := by
  exact Function.update_apply ..

/-- A list is written to the object and to the specification. -/
theorem Agrees.write (h : Agrees through s) {change : List Listener → List Listener}
    (hproto : name = js "__proto__" → change [] = []) {ls : List Listener}
    (hls : ls = base name ++ change (s.registry name)) :
    Agrees through ((s.setListeners name ls).register name change) ∧
      ∀ other, other ≠ name → ((s.setListeners name ls).register name change).listeners through other =
        s.listeners through other := by
  subst hls
  by_cases hname : name = js "__proto__"
  · subst hname
    -- `Object.prototype` is written back to where it was read.
    have hsame : s.setListeners (js "__proto__") (base (js "__proto__") ++ change (s.registry (js "__proto__"))) = s := by
      rw [h.proto, hproto rfl, List.append_nil, show base (js "__proto__") = [.inherited (js "__proto__")] by decide]
      unfold State.setListeners
      rw [if_neg (List.cons_ne_nil _ _)]
      exact congrArg (fun o => { s with events := o }) (set_proto h.prototype)
    rw [hsame]
    refine ⟨⟨h.prototype, ?_, fun other => ?_⟩, fun _ _ => rfl⟩
    · rw [register_registry, if_pos rfl, h.proto, hproto rfl]
    · rw [register_registry]
      refine (h.listeners other).trans ?_
      split
      · next ho => rw [ho, h.proto, hproto rfl]
      · rfl
  · have hset : ∀ other, ((s.setListeners name (base name ++ change (s.registry name))).register name change).listeners
        through other = if other = name then base name ++ change (s.registry name) else s.listeners through other :=
      fun other => listeners_setListeners h.prototype hname _
    refine ⟨⟨?_, ?_, fun other => ?_⟩, fun other hother => (hset other).trans (if_neg hother)⟩
    · unfold State.setListeners State.register EventObject.set EventObject.delete
      dsimp only
      split
      · exact h.prototype
      · exact h.prototype
    · rw [register_registry, if_neg (Ne.symm hname)]
      exact h.proto
    · rw [hset, register_registry]
      split
      · next ho => rw [ho]; rfl
      · exact h.listeners other

theorem Agrees.on (h : Agrees through s) (hname : name ≠ js "__proto__") (listener : Listener) :
    Agrees through (s.on through name listener) ∧
      ∀ other, other ≠ name → (s.on through name listener).listeners through other = s.listeners through other :=
  h.write (fun hp => absurd hp hname) (by rw [h.listeners, List.append_assoc])

variable (name) in
theorem Agrees.offWhere (h : Agrees through s) {gone : Listener → Bool} (hgone : ∀ n, gone (.inherited n) = false) :
    Agrees through (s.offWhere through name gone) ∧
      ∀ other, other ≠ name → (s.offWhere through name gone).listeners through other = s.listeners through other := by
  refine h.write (fun _ => rfl) ?_
  rw [h.listeners, List.filter_append]
  congr 1
  unfold base
  split
  · simp [hgone]
  · rfl

theorem get_new (other : Text) : EventObject.new.get through other =
    if other ∈ inheritedNames then some (.one (.inherited other)) else none := by
  unfold EventObject.get
  by_cases hp : other = js "__proto__"
  · subst hp
    rw [if_pos rfl, if_pos (by decide)]
    rfl
  · rw [if_neg hp]
    rfl

theorem Agrees.removeAllListeners (h : Agrees through s)
    (hempty : name = [] → ∀ other, other ≠ [] → s.registry other = []) :
    Agrees through (s.removeAllListeners name) ∧
      ∀ other, other ≠ name → (s.removeAllListeners name).listeners through other = s.listeners through other := by
  unfold State.removeAllListeners
  split
  · next hname =>
    subst hname
    have hnew : ∀ other, State.listeners through
        ({ s with events := .new, anyListeners := [] }.register [] fun _ => []) other = base other := by
      intro other
      refine (congrArg (fun entry => (entry.map EventEntry.toList).getD []) (get_new other)).trans ?_
      unfold base
      split <;> rfl
    have hnone : ∀ other, (State.register { s with events := .new, anyListeners := [] } [] fun _ => []).registry other =
        [] := by
      intro other
      rw [register_registry]
      split
      · rfl
      · next hother => exact hempty rfl other hother
    refine ⟨⟨rfl, hnone _, fun other => ?_⟩, fun other hother => ?_⟩
    · rw [hnew, hnone, List.append_nil]
    · rw [hnew, h.listeners, hempty rfl other hother, List.append_nil]
  · have hdelete : ∀ other, State.listeners through
        ({ s with events := s.events.delete name }.register name fun _ => []) other =
          if other = name then base name else s.listeners through other :=
      fun other => listeners_delete h.prototype
    refine ⟨⟨h.prototype, ?_, fun other => ?_⟩, fun other hother => (hdelete other).trans (if_neg hother)⟩
    · rw [register_registry]
      split
      · rfl
      · exact h.proto
    · rw [hdelete, register_registry]
      split
      · next ho => rw [ho, List.append_nil]
      · exact h.listeners other

/-! ## The once listeners -/

def Listener.Below (n : ℕ) (listener : Listener) : Prop :=
  ∀ wrapped event original, listener = .once wrapped event original → wrapped < n

/-- A once listener is registered under its own name and at most once, and not after it was fired. -/
structure Registered (s : State) : Prop where
  event : ∀ name, ∀ wrapped event original, .once wrapped event original ∈ s.registry name → event = name
  nodup : ∀ name, ((s.registry name).filter Listener.isOnce).Nodup
  below : ∀ name, ∀ listener ∈ s.registry name, listener.Below s.nextWrapped
  fired : ∀ listener ∈ s.fired, listener.isOnce = true ∧ listener.Below s.nextWrapped ∧
    ∀ name, listener ∉ s.registry name

/-- Registrations are taken away. -/
theorem Registered.shrink (h : Registered s) (hsub : ∀ name, (s'.registry name).Sublist (s.registry name))
    (hnext : s'.nextWrapped = s.nextWrapped) (hfired : s'.fired = s.fired) : Registered s' where
  event name _ _ _ hin := h.event name _ _ _ ((hsub name).subset hin)
  nodup name := ((hsub name).filter _).nodup (h.nodup name)
  below name listener hin := hnext ▸ h.below name listener ((hsub name).subset hin)
  fired listener hin := by
    obtain ⟨honce, hbelow, hnot⟩ := h.fired listener (hfired ▸ hin)
    exact ⟨honce, hnext ▸ hbelow, fun name hmem => hnot name ((hsub name).subset hmem)⟩

theorem Listener.Below.mono {listener : Listener} {n n' : ℕ} (h : listener.Below n) (hle : n ≤ n') :
    listener.Below n' := fun wrapped event original heq => (h wrapped event original heq).trans_le hle

/-- A function of the application is registered, or a new once listener. -/
theorem Registered.add (h : Registered s) {listener : Listener}
    (hregistry : ∀ other, s'.registry other = if other = name then s.registry name ++ [listener] else s.registry other)
    (hnext : s.nextWrapped ≤ s'.nextWrapped) (hfired : s'.fired = s.fired)
    (hlistener : listener.isOnce = false ∨ s'.nextWrapped = s.nextWrapped + 1 ∧
      ∃ f, listener = .once s.nextWrapped name f) : Registered s' := by
  have hnew : ∀ other, listener.isOnce = true → listener ∉ s.registry other := by
    rintro other honce hin
    rcases hlistener with hno | ⟨-, f, rfl⟩
    · rw [hno] at honce
      cases honce
    · exact Nat.lt_irrefl _ (h.below other _ hin _ _ _ rfl)
  have hmem : ∀ {other l}, l ∈ s'.registry other → l ∈ s.registry other ∨ other = name ∧ l = listener := by
    intro other l hin
    rw [hregistry] at hin
    split at hin
    · next ho =>
      rw [List.mem_append, List.mem_singleton] at hin
      exact hin.imp (fun hin => ho ▸ hin) fun hl => ⟨ho, hl⟩
    · exact .inl hin
  have hlast : listener.Below s'.nextWrapped := by
    intro wrapped event original heq
    rcases hlistener with hno | ⟨hsucc, f, hf⟩
    · rw [heq] at hno
      cases hno
    · rw [hf] at heq
      cases heq
      omega
  refine ⟨fun other wrapped event original hin => ?_, fun other => ?_, fun other l hin => ?_, fun l hin => ?_⟩
  · rcases hmem hin with hin | ⟨rfl, heq⟩
    · exact h.event other _ _ _ hin
    · rcases hlistener with hno | ⟨-, f, rfl⟩
      · rw [← heq] at hno
        cases hno
      · cases heq
        rfl
  · rw [hregistry]
    split
    · rw [List.filter_append, List.nodup_append]
      refine ⟨h.nodup name, (List.nodup_singleton listener).filter _, fun l hl l' hl' heq => ?_⟩
      rw [List.mem_filter] at hl hl'
      rw [List.mem_singleton.mp hl'.1] at heq
      exact hnew name (heq ▸ hl.2) (heq ▸ hl.1)
    · exact h.nodup other
  · rcases hmem hin with hin | ⟨-, rfl⟩
    · exact (h.below other l hin).mono hnext
    · exact hlast
  · obtain ⟨honce, hbelow, hnot⟩ := h.fired l (hfired ▸ hin)
    refine ⟨honce, hbelow.mono hnext, fun other hmem' => ?_⟩
    rcases hmem hmem' with hmem' | ⟨-, rfl⟩
    · exact hnot other hmem'
    · rcases hlistener with hno | ⟨-, f, rfl⟩
      · rw [hno] at honce
        cases honce
      · exact Nat.lt_irrefl _ (hbelow _ _ _ rfl)

/-! ## The emits -/

/-- An emit that is going on. -/
structure Going (s : State) (e : Frame) : Prop where
  split : e.registered = e.called ++ e.pending
  any : e.anys = e.calledAny ++ e.pendingAny
  nodup : (e.pending.filter Listener.isOnce).Nodup
  below : ∀ listener ∈ e.pending, listener.Below s.nextWrapped
  calledOnce : ∀ listener ∈ e.called, listener.isOnce = true → listener ∈ s.fired
  unfired : ∀ listener ∈ e.pending, listener ∉ s.fired
  meanwhile : ∀ listener ∈ e.meanwhile, listener ∉ e.registered

theorem Going.keep {e : Frame} (h : Going s e) (hnext : s.nextWrapped ≤ s'.nextWrapped) (hfired : s'.fired = s.fired) :
    Going s' e where
  split := h.split
  any := h.any
  nodup := h.nodup
  below listener hin := (h.below listener hin).mono hnext
  calledOnce := hfired ▸ h.calledOnce
  unfired := hfired ▸ h.unfired
  meanwhile := h.meanwhile

/-- What holds along a regular run. -/
structure Inv (through : EventObject.Through) (s : State) : Prop where
  agrees : Agrees through s
  registered : Registered s
  going : ∀ e ∈ s.stack, Going s e
  emits : EmitsRegistered s
  once : s.fired.Nodup

/-- What a regular step keeps. -/
structure Stepped (through : EventObject.Through) (s : State) (a : Action) (s' : State) : Prop where
  inv : Inv through s'
  apart : ∀ name, s.target a ≠ some name → s'.listeners through name = s.listeners through name

/-- A change of the registrations while no listener is called. -/
theorem Inv.change (h : Inv through s) (hagrees : Agrees through s') (hregistered : Registered s')
    (hnext : s.nextWrapped ≤ s'.nextWrapped) (hstack : s'.stack = s.stack) (hfinished : s'.finished = s.finished)
    (hfired : s'.fired = s.fired) : Inv through s' where
  agrees := hagrees
  registered := hregistered
  going e he := (h.going e (hstack ▸ he)).keep hnext hfired
  emits frame hin := h.emits frame (hfinished ▸ hin)
  once := hfired ▸ h.once

/-- A registration. -/
theorem Inv.on (h : Inv through s) (hname : name ≠ js "__proto__") {listener : Listener} {next : ℕ}
    (hnext : s.nextWrapped ≤ next) (hlistener : listener.isOnce = false ∨ next = s.nextWrapped + 1 ∧
      ∃ f, listener = .once s.nextWrapped name f) :
    Inv through ({ s with nextWrapped := next }.on through name listener) ∧ ∀ other, other ≠ name →
      ({ s with nextWrapped := next }.on through name listener).listeners through other = s.listeners through other := by
  have hagrees : Agrees through { s with nextWrapped := next } :=
    ⟨h.agrees.prototype, h.agrees.proto, h.agrees.listeners⟩
  obtain ⟨hon, hapart⟩ := hagrees.on hname listener
  exact ⟨h.change hon (h.registered.add (fun other => register_registry _) hnext rfl hlistener) hnext rfl rfl rfl, hapart⟩

theorem sublist_update {change : List Listener → List Listener} (hsub : (change (s.registry name)).Sublist (s.registry name))
    (other : Text) : ((s.register name change).registry other).Sublist (s.registry other) := by
  rw [register_registry]
  split
  · next ho => exact ho ▸ hsub
  · exact List.Sublist.refl _

theorem registered_offWhere (h : Registered s) (gone : Listener → Bool) : Registered (s.offWhere through name gone) :=
  h.shrink (fun other => sublist_update (s := s) List.filter_sublist other) rfl rfl

variable (name) in
theorem Inv.offWhere (h : Inv through s) (gone : Listener → Bool) (hgone : ∀ n, gone (.inherited n) = false) :
    Inv through (s.offWhere through name gone) ∧ ∀ other, other ≠ name →
      (s.offWhere through name gone).listeners through other = s.listeners through other := by
  obtain ⟨hoff, hapart⟩ := h.agrees.offWhere name hgone
  exact ⟨h.change hoff (registered_offWhere h.registered gone) le_rfl rfl rfl rfl, hapart⟩

theorem Inv.removeAllListeners (h : Inv through s) (hempty : name = [] → ∀ other, other ≠ [] → s.registry other = []) :
    Inv through (s.removeAllListeners name) ∧ ∀ other, other ≠ name →
      (s.removeAllListeners name).listeners through other = s.listeners through other := by
  obtain ⟨hagrees, hapart⟩ := h.agrees.removeAllListeners hempty
  refine ⟨h.change hagrees (h.registered.shrink (fun other => ?_) ?_ ?_) (Nat.le_of_eq ?_) ?_ ?_ ?_, hapart⟩
  · unfold State.removeAllListeners
    split
    · exact sublist_update (s := { s with events := .new, anyListeners := [] }) (List.nil_sublist _) other
    · exact sublist_update (s := { s with events := s.events.delete name }) (List.nil_sublist _) other
  all_goals
    unfold State.removeAllListeners
    split <;> rfl

/-- An emit begins: what it finds is what is registered. -/
theorem Inv.emit (h : Inv through s) (hname : name ∉ inheritedNames) : Inv through (s.emit through name) where
  agrees := ⟨h.agrees.prototype, h.agrees.proto, h.agrees.listeners⟩
  registered := ⟨h.registered.event, h.registered.nodup, h.registered.below, h.registered.fired⟩
  going e he := by
    have hlisteners : s.listeners through name = s.registry name := by
      rw [h.agrees.listeners, base, if_neg hname, List.nil_append]
    rcases List.mem_cons.mp he with rfl | he
    · rw [hlisteners]
      exact ⟨rfl, rfl, h.registered.nodup name, h.registered.below name, nofun,
        fun listener hin hfired => (h.registered.fired listener hfired).2.2 name hin, nofun⟩
    · exact (h.going e he).keep le_rfl rfl
  emits := h.emits
  once := h.once

variable {frame : Frame} {outer : List Frame} {listener : Listener} {rest : List Listener}

/-- A listener that is not a once listener is called. -/
theorem Going.call (h : Going s frame) (hpending : frame.pending = listener :: rest) (hno : listener.isOnce = false) :
    Going s { frame with pending := rest, called := frame.called ++ [listener] } where
  split := by rw [h.split, hpending, List.append_assoc, List.singleton_append]
  any := h.any
  nodup := by
    have hnodup := h.nodup
    rw [hpending, List.filter_cons_of_neg (by simp [hno])] at hnodup
    exact hnodup
  below l hin := h.below l (hpending ▸ List.mem_cons_of_mem _ hin)
  calledOnce l hin honce := by
    rcases List.mem_append.mp hin with hin | hin
    · exact h.calledOnce l hin honce
    · rw [List.mem_singleton.mp hin, hno] at honce
      cases honce
  unfired l hin := h.unfired l (hpending ▸ List.mem_cons_of_mem _ hin)
  meanwhile := h.meanwhile

theorem Going.callAny (h : Going s frame) {f : ℕ} {fs : List ℕ} (hany : frame.pendingAny = f :: fs) :
    Going s { frame with pendingAny := fs, calledAny := frame.calledAny ++ [f] } where
  split := h.split
  any := by rw [h.any, hany, List.append_assoc, List.singleton_append]
  nodup := h.nodup
  below := h.below
  calledOnce := h.calledOnce
  unfired := h.unfired
  meanwhile := h.meanwhile

/-- The emit whose once listener is fired. -/
theorem Going.fire (h : Going s frame) (hpending : frame.pending = listener :: rest) (honce : listener.isOnce = true)
    (hnext : s'.nextWrapped = s.nextWrapped) (hfired : s'.fired = s.fired ++ [listener]) :
    Going s' { frame with pending := rest, called := frame.called ++ [listener] } where
  split := by rw [h.split, hpending, List.append_assoc, List.singleton_append]
  any := h.any
  nodup := by
    have hnodup := h.nodup
    rw [hpending, List.filter_cons_of_pos honce] at hnodup
    exact (List.nodup_cons.mp hnodup).2
  below l hin := hnext ▸ h.below l (hpending ▸ List.mem_cons_of_mem _ hin)
  calledOnce l hin hl := by
    rw [hfired, List.mem_append]
    rcases List.mem_append.mp hin with hin | hin
    · exact .inl (h.calledOnce l hin hl)
    · exact .inr hin
  unfired l hin hmem := by
    rw [hfired, List.mem_append] at hmem
    rcases hmem with hmem | hmem
    · exact h.unfired l (hpending ▸ List.mem_cons_of_mem _ hin) hmem
    · -- The listener stands in the list only once.
      have hnodup := h.nodup
      rw [hpending, List.filter_cons_of_pos honce] at hnodup
      rw [List.mem_singleton.mp hmem] at hin
      exact (List.nodup_cons.mp hnodup).1 (List.mem_filter.mpr ⟨hin, honce⟩)
  meanwhile := h.meanwhile

/-- An outer emit that has not still to call it. -/
theorem Going.nested {e : Frame} (h : Going s e) (honce : listener.isOnce = true) (hunfired : listener ∉ s.fired)
    (hnot : listener ∉ e.pending) (hnext : s'.nextWrapped = s.nextWrapped) (hfired : s'.fired = s.fired ++ [listener]) :
    Going s' { e with meanwhile := e.meanwhile ++ [listener] } where
  split := h.split
  any := h.any
  nodup := h.nodup
  below l hin := hnext ▸ h.below l hin
  calledOnce l hin hl := hfired ▸ List.mem_append_left _ (h.calledOnce l hin hl)
  unfired l hin hmem := by
    rw [hfired, List.mem_append] at hmem
    rcases hmem with hmem | hmem
    · exact h.unfired l hin hmem
    · exact hnot (List.mem_singleton.mp hmem ▸ hin)
  meanwhile l hin := by
    rcases List.mem_append.mp hin with hin | hin
    · exact h.meanwhile l hin
    · rw [List.mem_singleton.mp hin, show _ = e.called ++ e.pending from h.split, List.mem_append]
      exact fun hmem => hmem.elim (fun hcalled => hunfired (h.calledOnce listener hcalled honce)) hnot

/-- A once listener is fired. -/
theorem Inv.fire (h : Inv through s) {wrapped original : ℕ} {event : Text} (hstack : s.stack = frame :: outer)
    (hpending : frame.pending = .once wrapped event original :: rest)
    (houter : ∀ e ∈ outer, .once wrapped event original ∉ e.pending) :
    Inv through (s.callListener through frame outer (.once wrapped event original) rest) ∧ ∀ other, other ≠ event →
      (s.callListener through frame outer (.once wrapped event original) rest).listeners through other =
        s.listeners through other := by
  obtain ⟨hoff, hapart⟩ := h.offWhere event (· = .once wrapped event original) fun n => by simp
  have hframe := h.going frame (hstack ▸ .head _)
  have hunfired : .once wrapped event original ∉ s.fired := hframe.unfired _ (hpending ▸ .head _)
  refine ⟨⟨⟨hoff.agrees.prototype, hoff.agrees.proto, hoff.agrees.listeners⟩, ?_, fun e he => ?_, hoff.emits, ?_⟩, hapart⟩
  · refine ⟨hoff.registered.event, hoff.registered.nodup, hoff.registered.below, fun l hin => ?_⟩
    rcases List.mem_append.mp hin with hin | hin
    · exact hoff.registered.fired l hin
    · rw [List.mem_singleton.mp hin]
      refine ⟨rfl, hframe.below _ (hpending ▸ .head _), fun name hmem => ?_⟩
      -- It was registered under its own name, and from there it has been taken out.
      have hname := hoff.registered.event name _ _ _ hmem
      have hgone : .once wrapped event original ∈ (s.offWhere through event (· = .once wrapped event original)).registry event :=
        hname ▸ hmem
      rw [State.offWhere, register_registry, if_pos rfl] at hgone
      simpa using (List.mem_filter.mp hgone).2
  · rcases List.mem_cons.mp he with rfl | he
    · exact hframe.fire hpending rfl rfl rfl
    · obtain ⟨e, hin, rfl⟩ := List.mem_map.mp he
      exact (h.going e (hstack ▸ List.mem_cons_of_mem _ hin)).nested rfl hunfired (houter e hin) rfl rfl
  · exact List.nodup_append.mpr ⟨h.once, List.nodup_singleton _, fun l hl l' hl' heq => hunfired
      (List.mem_singleton.mp hl' ▸ heq ▸ hl)⟩

/-- An innermost emit that changes nothing but itself. -/
theorem Inv.advance (h : Inv through s) (hstack : s.stack = frame :: outer) {frame' : Frame} (hframe : Going s frame') :
    Inv through { s with stack := frame' :: outer } where
  agrees := ⟨h.agrees.prototype, h.agrees.proto, h.agrees.listeners⟩
  registered := ⟨h.registered.event, h.registered.nodup, h.registered.below, h.registered.fired⟩
  going e he := by
    rcases List.mem_cons.mp he with rfl | he
    · exact hframe.keep le_rfl rfl
    · exact (h.going e (hstack ▸ List.mem_cons_of_mem _ he)).keep le_rfl rfl
  emits := h.emits
  once := h.once

/-- An emit ends. -/
theorem Inv.finish (h : Inv through s) (hstack : s.stack = frame :: outer) (hpending : frame.pending = [])
    (hany : frame.pendingAny = []) : Inv through { s with stack := outer, finished := s.finished ++ [frame] } where
  agrees := ⟨h.agrees.prototype, h.agrees.proto, h.agrees.listeners⟩
  registered := ⟨h.registered.event, h.registered.nodup, h.registered.below, h.registered.fired⟩
  going e he := (h.going e (hstack ▸ List.mem_cons_of_mem _ he)).keep le_rfl rfl
  emits e he := by
    have hframe := h.going frame (hstack ▸ .head _)
    rcases List.mem_append.mp he with he | he
    · exact h.emits e he
    · rw [List.mem_singleton.mp he]
      have hcalled : frame.registered = frame.called := by rw [hframe.split, hpending, List.append_nil]
      have hcalledAny : frame.anys = frame.calledAny := by rw [hframe.any, hany, List.append_nil]
      refine ⟨?_, hcalledAny.symm⟩
      rw [← hcalled]
      refine (List.filter_eq_self.mpr fun l hin => ?_).symm
      exact decide_eq_true (mt (hframe.meanwhile l) (not_not_intro hin))
  once := h.once

theorem Inv.next (h : Inv through s) (hok : Regular s .next) (hs : s.next through = some s') : Stepped through s .next s' := by
  unfold State.next at hs
  split at hs
  · cases hs
  · next frame outer hstack =>
    have hframe := h.going frame (hstack ▸ .head _)
    cases hpending : frame.pending with
    | cons listener rest =>
      rw [hpending] at hs
      obtain rfl := Option.some.inj hs
      cases listener with
      | once wrapped event original =>
        obtain ⟨hinv, hapart⟩ := h.fire hstack hpending (hok frame outer _ rest hstack hpending rfl)
        refine ⟨hinv, fun name hname => hapart name fun heq => hname ?_⟩
        simp [State.target, hstack, hpending, heq]
      | function f => exact ⟨h.advance hstack (hframe.call hpending rfl), fun _ _ => rfl⟩
      | inherited name => exact ⟨h.advance hstack (hframe.call hpending rfl), fun _ _ => rfl⟩
    | nil =>
      cases hany : frame.pendingAny with
      | cons f rest =>
        have hgoing := hframe.callAny hany
        rw [hpending] at hs hgoing
        rw [hany] at hs
        obtain rfl := Option.some.inj hs
        exact ⟨h.advance hstack hgoing, fun _ _ => rfl⟩
      | nil =>
        rw [hpending, hany] at hs
        obtain rfl := Option.some.inj hs
        exact ⟨h.finish hstack hpending hany, fun _ _ => rfl⟩

theorem Inv.anyListeners (h : Inv through s) (anyListeners : List ℕ) :
    Inv through { s with anyListeners := anyListeners } :=
  h.change ⟨h.agrees.prototype, h.agrees.proto, h.agrees.listeners⟩
    ⟨h.registered.event, h.registered.nodup, h.registered.below, h.registered.fired⟩ le_rfl rfl rfl rfl

theorem Inv.step {a : Action} (h : Inv through s) (hok : Regular s a) (hs : step through s a = some s') :
    Stepped through s a s' := by
  cases a with
  | on name f =>
    cases hs
    obtain ⟨hinv, hapart⟩ := h.on hok le_rfl (.inl (rfl : (Listener.function f).isOnce = false))
    exact ⟨hinv, fun other hother => hapart other fun heq => hother (congrArg some heq.symm)⟩
  | once name f =>
    cases hs
    obtain ⟨hinv, hapart⟩ := h.on hok (Nat.le_succ _) (.inr ⟨rfl, f, rfl⟩)
    exact ⟨hinv, fun other hother => hapart other fun heq => hother (congrArg some heq.symm)⟩
  | off name f =>
    cases hs
    obtain ⟨hinv, hapart⟩ := h.offWhere name (·.is f) fun _ => rfl
    exact ⟨hinv, fun other hother => hapart other fun heq => hother (congrArg some heq.symm)⟩
  | onAny f =>
    cases hs
    exact ⟨h.anyListeners _, fun _ _ => rfl⟩
  | offAny f =>
    cases hs
    exact ⟨h.anyListeners _, fun _ _ => rfl⟩
  | removeAllListeners name =>
    cases hs
    obtain ⟨hinv, hapart⟩ := h.removeAllListeners fun hname => (hok hname).2
    exact ⟨hinv, fun other hother => hapart other fun heq => hother (congrArg some heq.symm)⟩
  | emit name =>
    cases hs
    exact ⟨h.emit hok, fun _ _ => rfl⟩
  | next => exact h.next hok hs

end

theorem inv_init (through : EventObject.Through) : Inv through init where
  agrees := by
    refine ⟨rfl, rfl, fun name => ?_⟩
    refine (congrArg (fun entry => (entry.map EventEntry.toList).getD []) (get_new name)).trans ?_
    unfold base
    split <;> rfl
  registered := ⟨nofun, fun _ => List.nodup_nil, nofun, nofun⟩
  going := nofun
  emits := nofun
  once := List.nodup_nil

/-- **The semantics of the emitter**, in every regular run. -/
theorem semantics_regular (through : EventObject.Through) : Semantics through Regular := by
  have hinv : ∀ s, (machine through).Reach Regular s → Inv through s := fun s hs =>
    hs.invariant (Inv through) (inv_init through) fun _ _ _ h hok hstep => (h.step hok hstep).inv
  exact ⟨fun s hs => (hinv s hs).emits, fun s hs => (hinv s hs).once,
    fun s a s' hs hok hstep => ((hinv s hs).step hok hstep).apart⟩

/-- A listener emits its own name once more, and the once listener behind it is fired twice. -/
theorem once_firedTwice : ¬ Semantics (fun _ _ => none) anyStep := by
  intro h
  obtain ⟨s, hs, htwice⟩ := Machine.exists_of_exec (machine fun _ _ => none) anyStep init
    [.on (js "a") 0, .once (js "a") 1, .emit (js "a"), .next, .emit (js "a"), .next, .next, .next, .next]
    (fun s => decide (¬ s.fired.Nodup)) (by decide)
  exact of_decide_eq_true htwice (h.once s hs)

end TypeFerry.Client.EventEmitter
