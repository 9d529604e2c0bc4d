import TypeFerry.Lib.Runs
import TypeFerry.Live.Types

/-! # The change source of a collection

`MongoLiveCollectionSource`: one change stream, its worker and its listeners.
The database is an append-only log; a resume token is a position in it, the
number of entries already seen. The worker is cut at its awaits (`Phase`). What
each listener has been given since it subscribed is recorded beside the state;
no step reads that record. -/
namespace TypeFerry.Live.Source
open TypeFerry.Lib.Numeral TypeFerry.Lib.Runs TypeFerry.Live.Types

/-- A `ChangeStreamDocument`, as far as the source reads it. -/
inductive Change where
  /-- A change with a `documentKey`. -/
  | write (id : StoredId) (deleted : Bool)
  | other
  | invalidate
  deriving DecidableEq

/-- Which of the two functions that open a stream is running. -/
inductive Attempt where
  | establishInitial
  | resetAndReopen
  deriving DecidableEq

/-- What follows the dispatch of a notice. -/
inductive Resume where
  /-- The first change of a stream just opened. -/
  | first (attempt : Attempt)
  /-- A change in the loop of `consume`. -/
  | consume
  /-- The reset at the head of `resetAndReopen`. -/
  | reopen
  deriving DecidableEq

/-- Where the worker is suspended. -/
inductive Phase where
  | idle
  /-- `tryNext` is outstanding and the database has not placed the cursor yet. -/
  | opening (attempt : Attempt)
  /-- `tryNext` is outstanding on a placed cursor. -/
  | polling (attempt : Attempt)
  /-- Inside the loop of `dispatch`; `index` is the log entry of a change. -/
  | dispatching (resume : Resume) (notice : Notice) (index : Option Nat) (remaining : List Nat)
  /-- Behind `dispatch`. -/
  | dispatched (resume : Resume)
  | consuming
  /-- `resetAndReopen` closes the stream that failed. -/
  | failing
  /-- The delay between two attempts. -/
  | waiting
  /-- A stream that could not be opened is being closed. -/
  | discarding (attempt : Attempt)
  | finished
  deriving DecidableEq

/-- A change stream and, once it is placed, its position in the log. -/
structure Stream where
  position : Option Nat
  closed : Bool
  deriving DecidableEq

/-- What a listener has been given. -/
structure Record where
  /-- The length of the log when it subscribed. -/
  since : Nat
  /-- It subscribed after the source had been ready once. -/
  counted : Bool
  /-- The entries it was given before a reset, by their place in the log. -/
  got : List Nat
  reset : Bool
  deriving DecidableEq

structure State where
  log : List Change
  stream : Option Stream
  phase : Phase
  closed : Bool
  ready : Bool
  sequence : Nat
  resumeToken : Option Nat
  /-- The registered listeners, in order of registration. -/
  listeners : List Nat
  count : Nat
  started : Bool
  records : Nat → Record

def init : State where
  log := []
  stream := none
  phase := .idle
  closed := false
  ready := false
  sequence := 0
  resumeToken := none
  listeners := []
  count := 0
  started := false
  records _ := ⟨0, false, [], false⟩

inductive Action where
  /-- The database commits a change. -/
  | append (c : Change)
  | start
  | subscribe
  | unsubscribe (l : Nat)
  | close
  /-- The database places the cursor of the stream that is being opened. -/
  | place
  /-- The stream gives its next entry. -/
  | next
  /-- `tryNext` gives `null`. -/
  | empty
  /-- The stream fails or ends. -/
  | fail
  /-- `dispatch` calls its next listener. -/
  | deliver
  /-- The worker's next continuation. -/
  | turn
  /-- `close` has drained the worker and clears the listeners. -/
  | drained

namespace State

/-- `openStream`. -/
def openStream (s : State) (attempt : Attempt) : State :=
  { s with stream := some ⟨none, false⟩, phase := .opening attempt }

def closeStream (s : State) : State :=
  { s with stream := s.stream.map fun st => { st with closed := true } }

def markUnavailable (s : State) : State := { s with ready := false }

def markReady (s : State) : State := { s with ready := true, started := true }

/-- `dispatch`: without listeners its loop is over at once. -/
def dispatch (s : State) (resume : Resume) (notice : Notice) (index : Option Nat) : State :=
  { s with phase := if s.listeners = [] then .dispatched resume
      else .dispatching resume notice index s.listeners }

/-- A reset with the next sequence number. -/
def dispatchReset (s : State) (resume : Resume) (reason : ResetReason) : State :=
  { s with sequence := s.sequence + 1 }.dispatch resume (.reset (s.sequence + 1) reason) none

/-- `dispatchChange` for the entry at `index`. -/
def dispatchChange (s : State) (resume : Resume) (index : Nat) (change : Change) : State :=
  let s := { s with resumeToken := some (index + 1) }
  match change with
  | .invalidate => s.markUnavailable.dispatchReset resume .invalidated
  | .other => { s with phase := .dispatched resume }
  | .write key deleted => match readLiveId key with
    | none => { s with phase := .dispatched resume }
    | some id => { s with sequence := s.sequence + 1 }.dispatch resume
        (.change (s.sequence + 1) id deleted) (some index)

/-- The condition of the loop in `resetAndReopen`, and the return to `consume`. -/
def reopenLoop (s : State) : State :=
  { s with phase := if s.closed then .finished else if s.ready then .consuming else .waiting }

/-- The code behind a dispatch. -/
def resume (s : State) : Resume → State
  | .first .establishInitial =>
    if s.closed then { s.closeStream with phase := .discarding .establishInitial }
    else { s.markReady with phase := .consuming }
  | .first .resetAndReopen => s.markReady.reopenLoop
  | .consume => { s with phase := .consuming }
  | .reopen => s.reopenLoop

/-- The stream gives the entry at its position. -/
def advance (s : State) (resume : Resume) : Option State :=
  match s.stream with
  | some ⟨some p, closed⟩ => s.log[p]?.map fun change =>
      { s with stream := some ⟨some (p + 1), closed⟩ }.dispatchChange resume p change
  | _ => none

def record (s : State) (l : Nat) (f : Record → Record) : State :=
  { s with records := fun k => if k = l then f (s.records l) else s.records k }

end State

/-- What the call of a listener adds to its record. -/
def Record.give (index : Option Nat) (r : Record) : Record :=
  match index with
  | none => { r with reset := true }
  | some i => if r.reset then r else { r with got := r.got ++ [i] }

/-- The loop of `dispatch` runs over the set of listeners itself: it comes to
those added meanwhile, and no longer to those removed. -/
def Phase.mapRemaining (f : List Nat → List Nat) : Phase → Phase
  | dispatching r n i remaining => dispatching r n i (f remaining)
  | p => p

/-- The next continuation of the worker, where it waits for nothing else. -/
def turn (s : State) : Option State :=
  match s.phase with
  | .dispatching r _ _ [] => some (s.resume r)
  | .dispatched r => some (s.resume r)
  | .failing => some ({ s with stream := none }.dispatchReset .reopen .resumeFailed)
  | .waiting => some (s.openStream .resetAndReopen)
  | .discarding .establishInitial => some { s with stream := none, phase := .idle }
  | .discarding .resetAndReopen =>
    some { s with resumeToken := none, stream := none }.reopenLoop
  | _ => none

def step (s : State) : Action → Option State
  | .append c => some { s with log := s.log ++ [c] }
  | .start =>
    if s.closed then none
    else if s.phase = .idle then some (s.openStream .establishInitial) else some s
  | .subscribe => some { s with
      listeners := s.listeners ++ [s.count]
      phase := s.phase.mapRemaining (· ++ [s.count])
      count := s.count + 1
      records := fun k => if k = s.count then ⟨s.log.length, s.started, [], false⟩ else s.records k }
  | .unsubscribe l => some { s with
      listeners := s.listeners.filter (· ≠ l)
      phase := s.phase.mapRemaining (List.filter (· ≠ l)) }
  | .close => some (if s.closed then s else { s.closeStream with closed := true })
  | .place => match s.phase, s.stream with
    | .opening attempt, some ⟨none, false⟩ => some { s with
        stream := some ⟨some (s.resumeToken.getD s.log.length), false⟩
        phase := .polling attempt }
    | _, _ => none
  | .next => match s.phase with
    | .polling attempt => s.advance (.first attempt)
    | .consuming => if s.closed then some { s.closeStream with phase := .finished }
        else s.advance .consume
    | _ => none
  | .empty => match s.phase with
    | .polling attempt => some (s.resume (.first attempt))
    | _ => none
  | .fail => match s.phase with
    | .opening attempt | .polling attempt =>
      some { s.closeStream with phase := .discarding attempt }
    | .consuming => some (if s.closed then { s with phase := .finished }
        else { s.markUnavailable.closeStream with phase := .failing })
    | _ => none
  | .deliver => match s.phase with
    | .dispatching r n i (l :: remaining) =>
      some { s.record l (Record.give i) with phase := .dispatching r n i remaining }
    | _ => none
  | .turn => turn s
  | .drained =>
    if s.closed ∧ (s.phase = .idle ∨ s.phase = .finished) then some { s with listeners := [] }
    else none

def machine : Machine State Action := ⟨init, step⟩

/-! ## Continuity -/

/-- The changes listeners are told of: those of documents with a usable `_id`. -/
def Change.isTold : Change → Bool
  | write key _ => (readLiveId key).isSome
  | _ => false

def deliverable (log : List Change) (i : Nat) : Bool := (log[i]?.map Change.isTold).getD false

/-- The entries from `a` up to `b` that listeners are told of. -/
def segment (log : List Change) (a b : Nat) : List Nat :=
  (List.range' a (b - a)).filter (deliverable log)

/-- What was given is a segment of the log, in order and without repetition,
that starts no later than the first entry appended after the subscription. -/
def Record.Contiguous (log : List Change) (r : Record) : Prop :=
  ∃ a ≤ r.since, ∃ b ≤ log.length, r.got = segment log a b

/-- A cursor is placed without a token only where nothing was appended since the
subscription of a listener that has not been told of the reset. -/
def tokenlessOpenIsQuiet (s : State) : Action → Prop
  | .place => s.resumeToken = none → ∀ l ∈ s.listeners, (s.records l).counted →
      (s.records l).reset = false → (s.records l).since = s.log.length
  | _ => True

instance (log : List Change) (r : Record) : Decidable (r.Contiguous log) :=
  inferInstanceAs (Decidable (∃ a ≤ r.since, ∃ b ≤ log.length, r.got = segment log a b))

instance (s : State) : ∀ a, Decidable (tokenlessOpenIsQuiet s a)
  | .place => inferInstanceAs (Decidable (s.resumeToken = none → ∀ l ∈ s.listeners,
      (s.records l).counted → (s.records l).reset = false → (s.records l).since = s.log.length))
  | .append _ | .start | .subscribe | .unsubscribe _ | .close | .next | .empty | .fail | .deliver
  | .turn | .drained => isTrue trivial

@[simp] theorem segment_self (log : List Change) (a : Nat) : segment log a a = [] := by
  simp [segment]

theorem segment_succ {log : List Change} {a b : Nat} (h : a ≤ b) :
    segment log a (b + 1) = segment log a b ++ if deliverable log b then [b] else [] := by
  obtain ⟨n, rfl⟩ := Nat.exists_eq_add_of_le h
  have h₁ : a + n + 1 - a = n + 1 := by omega
  have h₂ : a + n - a = n := by omega
  rw [segment, segment, h₁, h₂, List.range'_concat, List.filter_append]
  simp [List.filter_cons]

theorem deliverable_append {log : List Change} {i : Nat} (h : i < log.length) (c : Change) :
    deliverable (log ++ [c]) i = deliverable log i := by
  rw [deliverable, List.getElem?_append_left h, deliverable]

theorem segment_append {log : List Change} {a b : Nat} (h : b ≤ log.length) (c : Change) :
    segment (log ++ [c]) a b = segment log a b := by
  refine List.filter_congr fun i hi => deliverable_append ?_ c
  rw [List.mem_range'_1] at hi
  omega

/-- The next entry for the listener is the one at `p`. -/
def Record.At (log : List Change) (p : Nat) (r : Record) : Prop :=
  ∃ a, a ≤ r.since ∧ a ≤ p ∧ r.got = segment log a p

/-- Nothing was given yet, and a resumed stream will miss nothing. -/
def Record.Waits (token : Option Nat) (r : Record) : Prop :=
  r.got = [] ∧ ∀ t, token = some t → t ≤ r.since

/-- The position of the cursor, once it is placed. -/
def State.position (s : State) : Option Nat := s.stream.bind Stream.position

namespace Phase

/-- The phases before the source is ready for the first time. -/
def isInitial : Phase → Bool
  | idle | opening .establishInitial | polling .establishInitial | discarding .establishInitial
  | dispatching (.first .establishInitial) _ _ _ | dispatched (.first .establishInitial) => true
  | _ => false

/-- The next entry the stream gives will be dispatched. -/
def isPlaced : Phase → Bool
  | polling _ | consuming | dispatched (.first _) | dispatched .consume => true
  | _ => false

/-- The phases between the dispatch of a reset and the next stream. -/
def isBetween : Phase → Bool
  | dispatched .reopen | waiting | opening .resetAndReopen | polling .resetAndReopen
  | discarding .resetAndReopen => true
  | _ => false

/-- The phases between a failure and the next stream. -/
def isReopening : Phase → Bool
  | failing | dispatching .reopen _ _ _ => true
  | p => p.isBetween

end Phase

/-- What is known, phase by phase, of a listener that was not reset. -/
structure Current (s : State) (l : Nat) : Prop where
  placed : s.phase.isPlaced → ∀ p, s.position = some p → (s.records l).At s.log p
  during : ∀ r n i rem, s.phase = .dispatching r n (some i) rem →
    (s.records l).At s.log (if l ∈ rem then i else i + 1)
  resetting : ∀ r n rem, s.phase = .dispatching r n none rem → l ∈ rem
  between : s.phase.isBetween → (s.records l).Waits s.resumeToken

/-- What holds of the source in every state of a run. -/
structure Inv (s : State) : Prop where
  position : ∀ p, s.position = some p → p ≤ s.log.length
  token : ∀ t, s.resumeToken = some t → t ≤ s.log.length
  /-- The stream stands right behind an entry that is being dispatched. -/
  entry : ∀ r n i rem, s.phase = .dispatching r n (some i) rem →
    s.position = some (i + 1) ∧ deliverable s.log i = true ∧ r ≠ .reopen
  unready : s.phase.isReopening → s.ready = false
  initial : s.phase.isInitial → s.started = false ∧ ∀ l, (s.records l).counted = false
  /-- A dispatch still has to call registered listeners only, each of them once. -/
  remaining : ∀ r n i rem, s.phase = .dispatching r n i rem → rem.Nodup ∧ rem ⊆ s.listeners
  registered : s.listeners.Nodup ∧ ∀ l ∈ s.listeners, l < s.count
  contiguous : ∀ l, (s.records l).counted → (s.records l).Contiguous s.log
  current : ∀ l ∈ s.listeners, (s.records l).counted → (s.records l).reset = false → Current s l

theorem Record.At.contiguous {log : List Change} {p : Nat} {r : Record} (h : r.At log p)
    (hp : p ≤ log.length) : r.Contiguous log := by
  obtain ⟨a, ha, -, hgot⟩ := h
  exact ⟨a, ha, p, hp, hgot⟩

theorem Record.At.append {log : List Change} {p : Nat} {r : Record} (h : r.At log p)
    (hp : p ≤ log.length) (c : Change) : r.At (log ++ [c]) p := by
  obtain ⟨a, ha, hap, hgot⟩ := h
  exact ⟨a, ha, hap, by rw [segment_append hp, hgot]⟩

theorem inv_init : Inv init where
  position := by simp [init, State.position]
  token := by simp [init]
  entry := by simp [init]
  unready := by simp [init, Phase.isReopening, Phase.isBetween]
  initial := by simp [init]
  remaining := by simp [init]
  registered := by simp [init]
  contiguous := by simp [init]
  current := by simp [init]

theorem inv_append {s : State} (h : Inv s) (c : Change) : Inv { s with log := s.log ++ [c] } where
  position p hp := by have := h.position p hp; simp; omega
  token t ht := by have := h.token t ht; simp; omega
  entry r n i rem hp := by
    obtain ⟨h₁, h₂, h₃⟩ := h.entry r n i rem hp
    have := h.position _ h₁
    exact ⟨h₁, by rwa [deliverable_append (by omega)], h₃⟩
  unready := h.unready
  initial := h.initial
  remaining := h.remaining
  registered := h.registered
  contiguous l hl := by
    obtain ⟨a, ha, b, hb, hgot⟩ := h.contiguous l hl
    exact ⟨a, ha, b, by simp; omega, by rw [segment_append hb, hgot]⟩
  current l hl hc hr := by
    have hcur := h.current l hl hc hr
    refine ⟨fun hp p hpos => (hcur.placed hp p hpos).append (h.position p hpos) c, ?_,
      hcur.resetting, hcur.between⟩
    intro r n i rem hp
    have hi := h.position _ (h.entry r n i rem hp).1
    exact (hcur.during r n i rem hp).append (by split <;> omega) c

/-- A listener that subscribes now is given the entries from here on. -/
theorem at_fresh {log : List Change} {p : Nat} (counted : Bool) (hp : p ≤ log.length) :
    Record.At log p ⟨log.length, counted, [], false⟩ :=
  ⟨p, hp, Nat.le_refl p, (segment_self log p).symm⟩

theorem mapRemaining_eq {f : List Nat → List Nat} {p : Phase} {r : Resume} {n : Notice}
    {i : Option Nat} {rem : List Nat} (h : p.mapRemaining f = .dispatching r n i rem) :
    ∃ rem', p = .dispatching r n i rem' ∧ rem = f rem' := by
  cases p <;> simp_all [Phase.mapRemaining]

@[simp] theorem isPlaced_mapRemaining (f : List Nat → List Nat) (p : Phase) :
    (p.mapRemaining f).isPlaced = p.isPlaced := by cases p <;> rfl

@[simp] theorem isBetween_mapRemaining (f : List Nat → List Nat) (p : Phase) :
    (p.mapRemaining f).isBetween = p.isBetween := by cases p <;> rfl

@[simp] theorem isReopening_mapRemaining (f : List Nat → List Nat) (p : Phase) :
    (p.mapRemaining f).isReopening = p.isReopening := by
  cases p with
  | dispatching r => cases r <;> rfl
  | _ => rfl

@[simp] theorem isInitial_mapRemaining (f : List Nat → List Nat) (p : Phase) :
    (p.mapRemaining f).isInitial = p.isInitial := by
  cases p with
  | dispatching r => rcases r with (_ | _) | _ | _ <;> rfl
  | _ => rfl

theorem inv_subscribe {s s' : State} (h : Inv s) (hs : step s .subscribe = some s') : Inv s' := by
  simp only [step, Option.some.injEq] at hs
  subst hs
  have hfresh : s.count ∉ s.listeners := fun hm => Nat.lt_irrefl _ (h.registered.2 _ hm)
  constructor
  · exact h.position
  · exact h.token
  · intro r n i rem hp
    obtain ⟨rem', hp, -⟩ := mapRemaining_eq hp
    exact h.entry r n i rem' hp
  · simpa using h.unready
  · intro hp
    obtain ⟨h₁, h₂⟩ := h.initial (by simpa using hp)
    exact ⟨h₁, fun l => by dsimp only; split <;> simp [h₁, h₂]⟩
  · intro r n i rem hp
    obtain ⟨rem', hp', rfl⟩ := mapRemaining_eq hp
    obtain ⟨h₁, h₂⟩ := h.remaining r n i rem' hp'
    exact ⟨List.nodup_append.mpr ⟨h₁, by simp, by grind⟩, by grind⟩
  · refine ⟨List.nodup_append.mpr ⟨h.registered.1, by simp, by grind⟩, fun l hl => ?_⟩
    have := h.registered.2 l
    grind
  · intro l hl
    by_cases hlc : l = s.count
    · exact ⟨0, by simp, 0, by simp, by simp [hlc]⟩
    · simp only [hlc, if_false] at hl ⊢
      exact h.contiguous l hl
  · intro l hl hc hr
    by_cases hlc : l = s.count
    · subst hlc
      refine ⟨fun hp p hpos => ?_, fun r n i rem hp => ?_, fun r n rem hp => ?_, fun hp => ?_⟩
      · simpa using at_fresh _ (h.position p hpos)
      · obtain ⟨rem', hp', rfl⟩ := mapRemaining_eq hp
        have := h.position _ (h.entry r n i rem' hp').1
        simpa using at_fresh _ (by omega : i ≤ s.log.length)
      · obtain ⟨rem', hp', rfl⟩ := mapRemaining_eq hp
        simp
      · exact ⟨by simp, fun t ht => by simpa using h.token t ht⟩
    · simp only [hlc, if_false] at hc hr
      have hl' : l ∈ s.listeners := by simpa [hlc] using hl
      have hcur := h.current l hl' hc hr
      refine ⟨fun hp p hpos => ?_, fun r n i rem hp => ?_, fun r n rem hp => ?_, fun hp => ?_⟩
      · simpa [hlc] using hcur.placed (by simpa using hp) p hpos
      · obtain ⟨rem', hp', rfl⟩ := mapRemaining_eq hp
        simpa [hlc] using hcur.during r n i rem' hp'
      · obtain ⟨rem', hp', rfl⟩ := mapRemaining_eq hp
        simpa [hlc] using hcur.resetting r n rem' hp'
      · simpa [hlc] using hcur.between (by simpa using hp)

theorem inv_unsubscribe {s s' : State} {k : Nat} (h : Inv s)
    (hs : step s (.unsubscribe k) = some s') : Inv s' := by
  simp only [step, Option.some.injEq] at hs
  subst hs
  constructor
  · exact h.position
  · exact h.token
  · intro r n i rem hp
    obtain ⟨rem', hp, -⟩ := mapRemaining_eq hp
    exact h.entry r n i rem' hp
  · simpa using h.unready
  · simpa using h.initial
  · intro r n i rem hp
    obtain ⟨rem', hp', rfl⟩ := mapRemaining_eq hp
    obtain ⟨h₁, h₂⟩ := h.remaining r n i rem' hp'
    exact ⟨h₁.filter _, by grind⟩
  · exact ⟨h.registered.1.filter _, fun l hl => h.registered.2 l (List.mem_filter.mp hl).1⟩
  · exact h.contiguous
  · intro l hl hc hr
    obtain ⟨hl, hlk⟩ := List.mem_filter.mp hl
    simp only [decide_eq_true_eq] at hlk
    have hcur := h.current l hl hc hr
    refine ⟨fun hp p hpos => ?_, fun r n i rem hp => ?_, fun r n rem hp => ?_, fun hp => ?_⟩
    · exact hcur.placed (by simpa using hp) p hpos
    · obtain ⟨rem', hp', rfl⟩ := mapRemaining_eq hp
      simpa [hlk] using hcur.during r n i rem' hp'
    · obtain ⟨rem', hp', rfl⟩ := mapRemaining_eq hp
      simpa [hlk] using hcur.resetting r n rem' hp'
    · exact hcur.between (by simpa using hp)

/-- A step that touches neither the log nor the listeners. -/
theorem Inv.move {s s' : State} (h : Inv s) (hlog : s'.log = s.log)
    (hlis : s'.listeners = s.listeners) (hcount : s'.count = s.count)
    (hrec : s'.records = s.records) (hposition : ∀ p, s'.position = some p → p ≤ s.log.length)
    (htoken : ∀ t, s'.resumeToken = some t → t ≤ s.log.length)
    (hentry : ∀ r n i rem, s'.phase = .dispatching r n (some i) rem →
      s'.position = some (i + 1) ∧ deliverable s.log i = true ∧ r ≠ .reopen)
    (hunready : s'.phase.isReopening → s'.ready = false)
    (hinitial : s'.phase.isInitial → s'.started = false ∧ ∀ l, (s.records l).counted = false)
    (hremaining : ∀ r n i rem, s'.phase = .dispatching r n i rem → rem = s.listeners)
    (hcurrent : ∀ l ∈ s.listeners, (s.records l).counted → (s.records l).reset = false →
      Current s l → Current s' l) : Inv s' where
  position := hlog ▸ hposition
  token := hlog ▸ htoken
  entry := hlog ▸ hentry
  unready := hunready
  initial := hrec ▸ hinitial
  remaining r n i rem hp := by
    rw [hremaining r n i rem hp, hlis]
    exact ⟨h.registered.1, List.Subset.refl _⟩
  registered := by rw [hlis, hcount]; exact h.registered
  contiguous := by rw [hrec, hlog]; exact h.contiguous
  current := by
    rw [hrec, hlis]
    exact fun l hl hc hr => hcurrent l hl hc hr (h.current l hl hc hr)

@[simp] theorem position_closeStream (s : State) : s.closeStream.position = s.position := by
  cases hst : s.stream <;> simp [State.position, State.closeStream, hst]

theorem inv_close {s s' : State} (h : Inv s) (hs : step s .close = some s') : Inv s' := by
  simp only [step, Option.some.injEq] at hs
  subst hs
  split
  · exact h
  · have hpos : ({ s.closeStream with closed := true } : State).position = s.position :=
      position_closeStream s
    refine ⟨hpos ▸ h.position, h.token, hpos ▸ h.entry, h.unready, h.initial, h.remaining,
      h.registered, h.contiguous, fun l hl hc hr => ?_⟩
    have hcur := h.current l hl hc hr
    exact ⟨hpos ▸ hcur.placed, hcur.during, hcur.resetting, hcur.between⟩

theorem inv_openStream {s : State} (h : Inv s) {attempt : Attempt}
    (hready : attempt = .resetAndReopen → s.ready = false)
    (hinitial : attempt = .establishInitial → s.started = false ∧ ∀ l, (s.records l).counted = false)
    (hwaits : attempt = .resetAndReopen → ∀ l ∈ s.listeners, (s.records l).counted →
      (s.records l).reset = false → (s.records l).Waits s.resumeToken) :
    Inv (s.openStream attempt) := by
  refine h.move rfl rfl rfl rfl (by simp [State.openStream, State.position]) h.token
    (by simp [State.openStream]) ?_ ?_ (by simp [State.openStream]) ?_
  · cases attempt <;> simp_all [State.openStream, Phase.isReopening, Phase.isBetween]
  · cases attempt <;> simp_all [State.openStream, Phase.isInitial]
  · intro l hl hc hr _
    refine ⟨by simp [State.openStream, Phase.isPlaced], by simp [State.openStream],
      by simp [State.openStream], fun hp => ?_⟩
    cases attempt with
    | establishInitial => simp [State.openStream, Phase.isBetween] at hp
    | resetAndReopen => exact hwaits rfl l hl hc hr

theorem inv_place {s s' : State} (h : Inv s) (hok : tokenlessOpenIsQuiet s .place)
    (hs : step s .place = some s') : Inv s' := by
  simp only [step] at hs
  split at hs
  · next attempt hphase hstream =>
    simp only [Option.some.injEq] at hs
    subst hs
    have hlen : ∀ p, s.resumeToken.getD s.log.length = p → p ≤ s.log.length := by
      rintro p rfl
      cases htok : s.resumeToken with
      | none => exact Nat.le_refl _
      | some t => exact h.token t htok
    refine h.move rfl rfl rfl rfl (by simpa [State.position] using hlen _ rfl) h.token (by simp)
      ?_ ?_ (by simp) ?_
    · intro hp
      exact h.unready (by cases attempt <;> simp_all [Phase.isReopening, Phase.isBetween])
    · intro hp
      exact h.initial (by cases attempt <;> simp_all [Phase.isInitial])
    · intro l hl hc hr hcur
      cases attempt with
      | establishInitial => simp [(h.initial (by simp [hphase, Phase.isInitial])).2 l] at hc
      | resetAndReopen =>
        have hw := hcur.between (by simp [hphase, Phase.isBetween])
        refine ⟨fun _ p hp => ?_, by simp, by simp, fun _ => hw⟩
        -- The cursor stands at the token, or at the end of a log that did not grow meanwhile.
        simp only [State.position, Option.bind_some, Option.some.injEq] at hp
        refine ⟨p, ?_, Nat.le_refl p, by rw [segment_self]; exact hw.1⟩
        cases htok : s.resumeToken with
        | none =>
          rw [htok, Option.getD_none] at hp
          exact Nat.le_of_eq (hp ▸ (hok htok l hl hc hr).symm)
        | some t =>
          rw [htok, Option.getD_some] at hp
          exact hp ▸ hw.2 t htok
  · cases hs

/-- The shape of the state behind `dispatch`. -/
theorem dispatch_phase (s : State) (r : Resume) (n : Notice) (i : Option Nat) :
    (s.dispatch r n i).phase = .dispatched r ∧ s.listeners = [] ∨
      (s.dispatch r n i).phase = .dispatching r n i s.listeners := by
  by_cases h : s.listeners = [] <;> simp [State.dispatch, h]

/-- The stream has given the entry at `p`, and the worker deals with it. -/
theorem inv_entry {s s' : State} (h : Inv s) {resume : Resume} {p : Nat}
    (hlog : s'.log = s.log) (hlis : s'.listeners = s.listeners) (hcount : s'.count = s.count)
    (hrec : s'.records = s.records) (hstart : s'.started = s.started) (hp : p < s.log.length)
    (hpos : s'.position = some (p + 1)) (htoken : s'.resumeToken = some (p + 1))
    (hphase : s'.phase = .dispatched resume ∧ (s.listeners = [] ∨ deliverable s.log p = false) ∨
      (∃ n, s'.phase = .dispatching resume n (some p) s.listeners) ∧ deliverable s.log p = true ∨
      ∃ n, s'.phase = .dispatching resume n none s.listeners)
    (hresume : resume ≠ .reopen)
    (hinitial : resume = .first .establishInitial →
      s.started = false ∧ ∀ l, (s.records l).counted = false)
    (hat : ∀ l ∈ s.listeners, (s.records l).counted → (s.records l).reset = false →
      (s.records l).At s.log p) : Inv s' := by
  have hnot : s'.phase.isReopening = false := by
    rcases hphase with ⟨hp, -⟩ | ⟨⟨n, hp⟩, -⟩ | ⟨n, hp⟩ <;> rw [hp] <;> cases resume <;>
      simp_all [Phase.isReopening, Phase.isBetween]
  have hinit : s'.phase.isInitial = true → resume = .first .establishInitial := by
    rcases hphase with ⟨hp, -⟩ | ⟨⟨n, hp⟩, -⟩ | ⟨n, hp⟩ <;> rw [hp] <;>
      rcases resume with (_ | _) | _ | _ <;> simp [Phase.isInitial]
  refine h.move hlog hlis hcount hrec ?_ ?_ ?_ ?_ ?_ ?_ ?_
  · rw [hpos]
    rintro q ⟨⟩
    exact hp
  · rw [htoken]
    rintro t ⟨⟩
    exact hp
  · intro r n i rem he
    rcases hphase with ⟨hp, -⟩ | ⟨⟨n', hp⟩, hd⟩ | ⟨n', hp⟩ <;> rw [hp] at he <;> cases he
    exact ⟨hpos, hd, hresume⟩
  · simp [hnot]
  · intro hi
    rw [hstart]
    exact hinitial (hinit hi)
  · intro r n i rem he
    rcases hphase with ⟨hp, -⟩ | ⟨⟨n', hp⟩, -⟩ | ⟨n', hp⟩ <;> rw [hp] at he <;> cases he <;> rfl
  · intro l hl hc hr _
    have ha := hat l hl hc hr
    rw [← hrec, ← hlog] at ha
    refine ⟨fun hpl q hq => ?_, fun r n i rem he => ?_, fun r n rem he => ?_, fun hb => ?_⟩
    · rw [hpos] at hq
      cases hq
      -- Only an entry that no listener is told of is passed over.
      rcases hphase with ⟨-, hnil | hd⟩ | ⟨⟨n, hp⟩, -⟩ | ⟨n, hp⟩
      · simp [hnil] at hl
      · obtain ⟨a, ha₁, ha₂, hgot⟩ := ha
        refine ⟨a, ha₁, by omega, ?_⟩
        rw [segment_succ ha₂, hlog, hd, ← hlog, hgot]
        simp
      · simp [hp, Phase.isPlaced] at hpl
      · simp [hp, Phase.isPlaced] at hpl
    · rcases hphase with ⟨hp, -⟩ | ⟨⟨n', hp⟩, -⟩ | ⟨n', hp⟩ <;> rw [hp] at he <;> cases he
      simpa [hl] using ha
    · rcases hphase with ⟨hp, -⟩ | ⟨⟨n', hp⟩, -⟩ | ⟨n', hp⟩ <;> rw [hp] at he <;> cases he
      exact hl
    · have : s'.phase.isReopening = true := by
        unfold Phase.isReopening
        split <;> simp_all
      simp [hnot] at this

theorem inv_advance {s s' : State} (h : Inv s) {resume : Resume} (hs : s.advance resume = some s')
    (hresume : resume ≠ .reopen)
    (hinitial : resume = .first .establishInitial →
      s.started = false ∧ ∀ l, (s.records l).counted = false)
    (hat : ∀ l ∈ s.listeners, (s.records l).counted → (s.records l).reset = false →
      ∀ p, s.position = some p → (s.records l).At s.log p) : Inv s' := by
  unfold State.advance at hs
  split at hs
  · next p c hstream =>
    have hposition : s.position = some p := by simp [State.position, hstream]
    obtain ⟨change, hget, rfl⟩ := Option.map_eq_some_iff.mp hs
    have hp : p < s.log.length := (List.getElem?_eq_some_iff.mp hget).1
    have hd : deliverable s.log p = change.isTold := by rw [deliverable, hget]; rfl
    have hat' := fun l hl hc hr => hat l hl hc hr p hposition
    cases change with
    | other =>
      exact inv_entry h rfl rfl rfl rfl rfl hp rfl rfl (.inl ⟨rfl, .inr hd⟩) hresume hinitial hat'
    | invalidate =>
      refine inv_entry h rfl rfl rfl rfl rfl hp rfl rfl ?_ hresume hinitial hat'
      rcases dispatch_phase _ resume (.reset (s.sequence + 1) .invalidated) none with ⟨hp, hnil⟩ | hp
      · exact .inl ⟨hp, .inl hnil⟩
      · exact .inr (.inr ⟨_, hp⟩)
    | write key deleted =>
      cases hk : readLiveId key with
      | none =>
        simp only [State.dispatchChange, hk]
        exact inv_entry h rfl rfl rfl rfl rfl hp rfl rfl (.inl ⟨rfl, .inr (by simp [hd, hk, Change.isTold])⟩)
          hresume hinitial hat'
      | some id =>
        simp only [State.dispatchChange, hk]
        refine inv_entry h rfl rfl rfl rfl rfl hp rfl rfl ?_ hresume hinitial hat'
        rcases dispatch_phase _ resume (.change (s.sequence + 1) id deleted) (some p) with
          ⟨hp, hnil⟩ | hp
        · exact .inl ⟨hp, .inl hnil⟩
        · exact .inr (.inl ⟨⟨_, hp⟩, by simp [hd, hk, Change.isTold]⟩)
  · cases hs

/-- A step to a phase in which nothing is dispatched. -/
theorem Inv.settle {s s' : State} (h : Inv s) (hlog : s'.log = s.log)
    (hlis : s'.listeners = s.listeners) (hcount : s'.count = s.count)
    (hrec : s'.records = s.records) (hposition : ∀ p, s'.position = some p → s.position = some p)
    (htoken : ∀ t, s'.resumeToken = some t → s.resumeToken = some t)
    (hphase : ∀ r n i rem, s'.phase ≠ .dispatching r n i rem)
    (hunready : s'.phase.isReopening → s'.ready = false)
    (hinitial : s'.phase.isInitial → s'.started = false ∧ ∀ l, (s.records l).counted = false)
    (hplaced : s'.phase.isPlaced → ∀ l ∈ s.listeners, (s.records l).counted →
      (s.records l).reset = false → ∀ p, s'.position = some p → (s.records l).At s.log p)
    (hbetween : s'.phase.isBetween → ∀ l ∈ s.listeners, (s.records l).counted →
      (s.records l).reset = false → (s.records l).Waits s'.resumeToken) : Inv s' :=
  h.move hlog hlis hcount hrec (fun p hp => h.position p (hposition p hp))
    (fun t ht => h.token t (htoken t ht)) (fun r n i rem hp => absurd hp (hphase r n _ rem))
    hunready hinitial (fun r n i rem hp => absurd hp (hphase r n i rem)) fun l hl hc hr _ =>
      ⟨fun hp p hpos => by rw [hrec, hlog]; exact hplaced hp l hl hc hr p hpos,
        fun r n i rem hp => absurd hp (hphase r n _ rem),
        fun r n rem hp => absurd hp (hphase r n _ rem),
        fun hp => by rw [hrec]; exact hbetween hp l hl hc hr⟩

theorem inv_reopenLoop {s s' : State} (h : Inv s) (hs' : s' = s'.reopenLoop)
    (hlog : s'.log = s.log) (hlis : s'.listeners = s.listeners) (hcount : s'.count = s.count)
    (hrec : s'.records = s.records) (hposition : ∀ p, s'.position = some p → s.position = some p)
    (htoken : ∀ t, s'.resumeToken = some t → s.resumeToken = some t)
    (hplaced : s'.ready = true → ∀ l ∈ s.listeners, (s.records l).counted →
      (s.records l).reset = false → ∀ p, s'.position = some p → (s.records l).At s.log p)
    (hbetween : s'.ready = false → ∀ l ∈ s.listeners, (s.records l).counted →
      (s.records l).reset = false → (s.records l).Waits s'.resumeToken) : Inv s' := by
  have hphase : s'.phase = if s'.closed then .finished else if s'.ready then .consuming
      else .waiting := by rw [hs']; rfl
  clear hs'
  refine h.settle hlog hlis hcount hrec hposition htoken ?_ ?_ ?_ ?_ ?_ <;> rw [hphase] <;>
    split <;> (try split) <;>
    simp_all [Phase.isReopening, Phase.isBetween, Phase.isInitial, Phase.isPlaced]

theorem inv_resume {s : State} (h : Inv s) (r : Resume)
    (hready : r = .reopen → s.ready = false)
    (hinitial : r = .first .establishInitial →
      s.started = false ∧ ∀ l, (s.records l).counted = false)
    (hplaced : r ≠ .reopen → ∀ l ∈ s.listeners, (s.records l).counted →
      (s.records l).reset = false → ∀ p, s.position = some p → (s.records l).At s.log p)
    (hbetween : r = .reopen → ∀ l ∈ s.listeners, (s.records l).counted →
      (s.records l).reset = false → (s.records l).Waits s.resumeToken) : Inv (s.resume r) := by
  rcases r with (_ | _) | _ | _
  · simp only [State.resume]
    split
    · refine h.settle rfl rfl rfl rfl (fun p hp => (position_closeStream s) ▸ hp) (fun _ => id)
        (by simp) (by simp [Phase.isReopening, Phase.isBetween]) (fun _ => hinitial rfl) ?_ ?_ <;>
        simp [Phase.isPlaced, Phase.isBetween]
    · exact h.settle rfl rfl rfl rfl (fun p => id) (fun _ => id) (by simp)
        (by simp [Phase.isReopening, Phase.isBetween]) (by simp [Phase.isInitial])
        (fun _ => hplaced (by simp)) (by simp [Phase.isBetween])
  · exact inv_reopenLoop h rfl rfl rfl rfl rfl (fun p => id) (fun _ => id)
      (fun _ => hplaced (by simp)) (by simp [State.resume, State.reopenLoop, State.markReady])
  · exact h.settle rfl rfl rfl rfl (fun p => id) (fun _ => id) (by simp [State.resume])
      (by simp [State.resume, Phase.isReopening, Phase.isBetween])
      (by simp [State.resume, Phase.isInitial])
      (fun _ => hplaced (by simp)) (by simp [State.resume, Phase.isBetween])
  · refine inv_reopenLoop h rfl rfl rfl rfl rfl (fun p => id) (fun _ => id) ?_
      (fun _ => hbetween rfl)
    simp [State.resume, State.reopenLoop, hready rfl]

theorem inv_fail {s s' : State} (h : Inv s) (hs : step s .fail = some s') : Inv s' := by
  simp only [step] at hs
  split at hs
  iterate 2
    next attempt hphase =>
      cases hs
      refine h.settle rfl rfl rfl rfl (fun p hp => (position_closeStream s) ▸ hp) (fun _ => id)
        (by simp) ?_ ?_ (by simp [Phase.isPlaced]) ?_ <;> cases attempt
      · simp [Phase.isReopening, Phase.isBetween]
      · exact fun _ => h.unready (by simp [hphase, Phase.isReopening, Phase.isBetween])
      · exact fun _ => h.initial (by simp [hphase, Phase.isInitial])
      · simp [Phase.isInitial]
      · simp [Phase.isBetween]
      · exact fun _ l hl hc hr =>
          (h.current l hl hc hr).between (by simp [hphase, Phase.isBetween])
  · cases hs
    split
    · exact h.settle rfl rfl rfl rfl (fun p => id) (fun _ => id) (by simp)
        (by simp [Phase.isReopening, Phase.isBetween]) (by simp [Phase.isInitial])
        (by simp [Phase.isPlaced]) (by simp [Phase.isBetween])
    · exact h.settle rfl rfl rfl rfl (fun p hp => (position_closeStream s) ▸ hp) (fun _ => id)
        (by simp) (by simp [State.closeStream, State.markUnavailable]) (by simp [Phase.isInitial])
        (by simp [Phase.isPlaced]) (by simp [Phase.isBetween])
  · cases hs

theorem give_counted (i : Option Nat) (r : Record) : (r.give i).counted = r.counted := by
  cases i <;> simp only [Record.give]
  split <;> rfl

theorem Record.At.give {log : List Change} {i : Nat} {r : Record} (h : r.At log i)
    (hd : deliverable log i = true) (hr : r.reset = false) :
    (r.give (some i)).At log (i + 1) := by
  obtain ⟨a, ha, hai, hgot⟩ := h
  refine ⟨a, ?_, by omega, ?_⟩
  · simpa [Record.give, hr] using ha
  · rw [segment_succ hai, hd, ← hgot]
    simp [Record.give, hr]

theorem inv_deliver {s s' : State} (h : Inv s) (hs : step s .deliver = some s') : Inv s' := by
  simp only [step] at hs
  split at hs
  · next r n i l rem hphase =>
    cases hs
    obtain ⟨hnd, hsub⟩ := h.remaining _ _ _ _ hphase
    obtain ⟨hlrem, hnd⟩ := List.nodup_cons.mp hnd
    have hlis : l ∈ s.listeners := hsub (List.mem_cons_self ..)
    constructor
    · exact h.position
    · exact h.token
    · intro r' n' i' rem' hp
      cases hp
      exact h.entry _ _ _ _ hphase
    · intro hp
      exact h.unready (by rw [hphase]; cases r <;> exact hp)
    · intro hp
      obtain ⟨h₁, h₂⟩ := h.initial (by rw [hphase]; rcases r with (_ | _) | _ | _ <;> exact hp)
      refine ⟨h₁, fun k => ?_⟩
      simp only [State.record]
      split
      · rw [give_counted, h₂]
      · exact h₂ k
    · intro r' n' i' rem' hp
      cases hp
      exact ⟨hnd, fun k hk => hsub (List.mem_cons_of_mem l hk)⟩
    · exact h.registered
    · intro k hc
      by_cases hk : k = l
      · subst hk
        simp only [State.record, if_true, give_counted] at hc ⊢
        cases i with
        | none => exact h.contiguous k hc
        | some i =>
          obtain ⟨hpos, hd, -⟩ := h.entry _ _ _ _ hphase
          cases hr : (s.records k).reset with
          | true => simpa [Record.give, hr] using h.contiguous k hc
          | false =>
            have hat := (h.current k hlis hc hr).during _ _ _ _ hphase
            rw [if_pos (List.mem_cons_self ..)] at hat
            exact (hat.give hd hr).contiguous (h.position _ hpos)
      · simp only [State.record, if_neg hk] at hc ⊢
        exact h.contiguous k hc
    · intro k hk hc hr
      by_cases hkl : k = l
      · subst hkl
        simp only [State.record, if_true, give_counted] at hc hr
        cases i with
        | none => simp [Record.give] at hr
        | some i =>
          have hr' : (s.records k).reset = false := by
            cases hr' : (s.records k).reset with
            | true => simp [Record.give, hr'] at hr
            | false => rfl
          obtain ⟨-, hd, -⟩ := h.entry _ _ _ _ hphase
          have hat := (h.current k hlis hc hr').during _ _ _ _ hphase
          rw [if_pos (List.mem_cons_self ..)] at hat
          refine ⟨by simp [Phase.isPlaced], fun r' n' i' rem' hp => ?_, by simp,
            by simp [Phase.isBetween]⟩
          cases hp
          simpa [State.record, hlrem] using hat.give hd hr'
      · simp only [State.record, if_neg hkl] at hc hr
        have hcur := h.current k hk hc hr
        refine ⟨by simp [Phase.isPlaced], fun r' n' i' rem' hp => ?_, fun r' n' rem' hp => ?_,
          by simp [Phase.isBetween]⟩
        · cases hp
          simpa [State.record, hkl] using hcur.during _ _ _ _ hphase
        · cases hp
          simpa [hkl] using hcur.resetting _ _ _ hphase
  · cases hs

/-- The reset at the head of `resetAndReopen` goes to every registered listener. -/
theorem inv_dispatchReset {s : State} (h : Inv s) (hphase : s.phase = .failing) :
    Inv ({ s with stream := none }.dispatchReset .reopen .resumeFailed) := by
  have hready := h.unready (by simp [hphase, Phase.isReopening])
  rcases dispatch_phase { s with stream := none, sequence := s.sequence + 1 } .reopen
    (.reset (s.sequence + 1) .resumeFailed) none with ⟨hp, hnil⟩ | hp
  · refine h.settle rfl rfl rfl rfl (by simp [State.position, State.dispatchReset, State.dispatch])
      (fun _ => id) ?_ (fun _ => hready) ?_ ?_ ?_
    · intro r n i rem
      rw [State.dispatchReset, hp]
      simp
    · rw [State.dispatchReset, hp]
      simp [Phase.isInitial]
    · simp [State.dispatchReset, hp, Phase.isPlaced]
    · intro _ l hl
      rw [hnil] at hl
      cases hl
  · refine h.move rfl rfl rfl rfl (by simp [State.position, State.dispatchReset, State.dispatch])
      h.token ?_ (fun _ => hready) ?_ ?_ ?_
    · simp [State.dispatchReset, hp]
    · simp [State.dispatchReset, hp, Phase.isInitial]
    · rw [State.dispatchReset, hp]
      rintro r n i rem ⟨⟩
      rfl
    · intro l hl _ _ _
      rw [State.dispatchReset]
      refine ⟨by simp [hp, Phase.isPlaced], by simp [hp], ?_, by simp [hp, Phase.isBetween]⟩
      rw [hp]
      rintro r n rem ⟨⟩
      exact hl

theorem inv_turn {s s' : State} (h : Inv s) (hs : step s .turn = some s') : Inv s' := by
  simp only [step, turn] at hs
  split at hs <;> cases hs
  · next r n i hphase =>
    refine inv_resume h r ?_ ?_ ?_ ?_
    · rintro rfl
      exact h.unready (by simp [hphase, Phase.isReopening])
    · rintro rfl
      exact h.initial (by simp [hphase, Phase.isInitial])
    · intro _ l hl hc hr p hp
      cases i with
      | none => exact absurd ((h.current l hl hc hr).resetting _ _ _ hphase) (by simp)
      | some i =>
        obtain ⟨hpos, -, -⟩ := h.entry _ _ _ _ hphase
        rw [hpos] at hp
        cases hp
        simpa using (h.current l hl hc hr).during _ _ _ _ hphase
    · rintro rfl l hl hc hr
      cases i with
      | none => exact absurd ((h.current l hl hc hr).resetting _ _ _ hphase) (by simp)
      | some i => exact absurd rfl (h.entry _ _ _ _ hphase).2.2
  · next r hphase =>
    refine inv_resume h r ?_ ?_ ?_ ?_
    · rintro rfl
      exact h.unready (by simp [hphase, Phase.isReopening, Phase.isBetween])
    · rintro rfl
      exact h.initial (by simp [hphase, Phase.isInitial])
    · intro hr' l hl hc hr
      exact (h.current l hl hc hr).placed (by cases r <;> simp_all [Phase.isPlaced])
    · rintro rfl l hl hc hr
      exact (h.current l hl hc hr).between (by simp [hphase, Phase.isBetween])
  · next hphase => exact inv_dispatchReset h hphase
  · next hphase =>
    exact inv_openStream h (fun _ => h.unready (by simp [hphase, Phase.isReopening, Phase.isBetween]))
      (by simp) fun _ l hl hc hr => (h.current l hl hc hr).between (by simp [hphase, Phase.isBetween])
  · next hphase =>
    exact h.settle rfl rfl rfl rfl (by simp [State.position]) (fun _ => id) (by simp)
      (by simp [Phase.isReopening, Phase.isBetween])
      (fun _ => h.initial (by simp [hphase, Phase.isInitial]))
      (by simp [Phase.isPlaced]) (by simp [Phase.isBetween])
  · next hphase =>
    have hready := h.unready (by simp [hphase, Phase.isReopening, Phase.isBetween])
    refine inv_reopenLoop h rfl rfl rfl rfl rfl (by simp [State.reopenLoop, State.position])
      (by simp [State.reopenLoop]) (by simp [State.reopenLoop, hready]) fun _ l hl hc hr => ?_
    exact ⟨((h.current l hl hc hr).between (by simp [hphase, Phase.isBetween])).1,
      by simp [State.reopenLoop]⟩

/-- **One step.** The invariant is kept where a cursor without a token is placed
quietly. -/
theorem inv_step {s s' : State} {a : Action} (h : Inv s) (hok : tokenlessOpenIsQuiet s a)
    (hs : step s a = some s') : Inv s' := by
  cases a with
  | append c => cases hs; exact inv_append h c
  | start =>
    simp only [step] at hs
    split at hs
    · cases hs
    · split at hs <;> cases hs
      · next hphase =>
        exact inv_openStream h (by simp) (fun _ => h.initial (by simp [hphase, Phase.isInitial]))
          (by simp)
      · exact h
  | subscribe => exact inv_subscribe h hs
  | unsubscribe l => exact inv_unsubscribe h hs
  | close => exact inv_close h hs
  | place => exact inv_place h hok hs
  | next =>
    simp only [step] at hs
    split at hs
    · next attempt hphase =>
      refine inv_advance h hs (by simp) ?_ fun l hl hc hr =>
        (h.current l hl hc hr).placed (by simp [hphase, Phase.isPlaced])
      intro ha
      cases ha
      exact h.initial (by simp [hphase, Phase.isInitial])
    · next hphase =>
      split at hs
      · cases hs
        exact h.settle rfl rfl rfl rfl (fun p hp => (position_closeStream s) ▸ hp) (fun _ => id)
          (by simp) (by simp [Phase.isReopening, Phase.isBetween]) (by simp [Phase.isInitial])
          (by simp [Phase.isPlaced]) (by simp [Phase.isBetween])
      · exact inv_advance h hs (by simp) (by simp) fun l hl hc hr =>
          (h.current l hl hc hr).placed (by simp [hphase, Phase.isPlaced])
    · cases hs
  | empty =>
    simp only [step] at hs
    split at hs
    · next attempt hphase =>
      cases hs
      refine inv_resume h _ (by simp) ?_ (fun _ l hl hc hr =>
        (h.current l hl hc hr).placed (by simp [hphase, Phase.isPlaced])) (by simp)
      intro ha
      cases ha
      exact h.initial (by simp [hphase, Phase.isInitial])
    · cases hs
  | fail => exact inv_fail h hs
  | deliver => exact inv_deliver h hs
  | turn => exact inv_turn h hs
  | drained =>
    simp only [step] at hs
    split at hs
    · next hcond =>
      cases hs
      obtain ⟨-, hphase⟩ := hcond
      refine ⟨h.position, h.token, h.entry, h.unready, h.initial, ?_, by simp, h.contiguous,
        by simp⟩
      intro r n i rem hp
      rcases hphase with hphase | hphase <;> rw [hphase] at hp <;> cases hp
    · cases hs

/-- **Change-source continuity.** In every run in which a cursor without a token
is placed quietly, every listener that subscribed after the source was ready has
been given a contiguous segment of the log, from no later than its subscription
up to its next reset. -/
theorem change_source_continuity {s : State} (h : machine.Reach tokenlessOpenIsQuiet s) (l : Nat)
    (hl : (s.records l).counted = true) : (s.records l).Contiguous s.log :=
  (h.invariant Inv inv_init fun _ _ _ => inv_step).contiguous l hl

/-- A change of the document with the `_id` "a". -/
def writeA : Change := .write (.live (.str (js "a"))) false

theorem change_source_continuity_resumed : ∃ s, machine.Reach tokenlessOpenIsQuiet s ∧
    (s.records 0).got = [1] ∧ (s.records 0).Contiguous s.log := by
  obtain ⟨s, hs, hP⟩ := machine.exists_of_exec tokenlessOpenIsQuiet machine.init
    [.start, .place, .empty, .append writeA, .next, .turn, .fail, .turn, .turn, .subscribe,
      .append writeA, .turn, .place, .next, .deliver]
    (fun s => (s.records 0).counted && (s.records 0).got == [1]) (by decide)
  obtain ⟨hc, hgot⟩ := (Bool.and_eq_true _ _).mp hP
  exact ⟨s, hs, eq_of_beq hgot, change_source_continuity hs 0 hc⟩

/-- The stream fails before it has given a token, a listener subscribes once the
reset is dispatched, and an entry is appended before the stream is reopened:
that entry never reaches the listener. -/
theorem tokenless_reopen_skips : ¬ ∀ s, machine.Reach anyStep s → ∀ l,
    (s.records l).counted = true → (s.records l).Contiguous s.log := by
  intro h
  obtain ⟨s, hs, hP⟩ := machine.exists_of_exec anyStep machine.init
    [.start, .place, .empty, .fail, .turn, .turn, .subscribe, .append writeA, .turn, .place,
      .empty, .append writeA, .next, .deliver]
    (fun s => (s.records 0).counted && decide (¬ (s.records 0).Contiguous s.log)) (by decide)
  obtain ⟨hc, hnot⟩ := (Bool.and_eq_true _ _).mp hP
  exact of_decide_eq_true hnot (h s hs 0 hc)

end TypeFerry.Live.Source
