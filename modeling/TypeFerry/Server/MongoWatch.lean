import TypeFerry.Lib.Numeral
import TypeFerry.Lib.Runs

/-! # The watches of a collection

`startMongoWatch`: the changes of a collection go out as events. The database is a log of changes, and a stream reads it
from where it was when the stream was placed, or from where the options of the watch say. A stream that fails is opened
again after a delay, without a resume token. -/
namespace TypeFerry.Server.MongoWatch
open TypeFerry.Lib.Numeral TypeFerry.Lib.Runs

variable {δ : Type}

inductive OperationType where
  | insert
  | replace
  | update
  | delete
  | other
  deriving DecidableEq

/-- `ChangeStreamDocument` -/
structure Change (δ : Type) where
  /-- The resume token, as text. -/
  eventId : Text
  operationType : OperationType
  /-- `documentKey._id`, if it is an `ObjectId` -/
  documentId : Option Text
  fullDocument : Option δ
  fullDocumentBeforeChange : Option δ
  updatedFields : List Text
  removedFields : List Text

structure MongoWatchPayload (δ : Type) where
  eventId : Text
  id : Text
  doc : Option δ
  deleted : Bool
  deriving DecidableEq

/-- What `getChannel` gives. -/
inductive Channels where
  | nothing
  | one (channel : Text)
  | many (channels : List Text)
  | throws

/-- `MongoWatchDefinition`. The pipeline is a filter. -/
structure Watch (δ : Type) where
  excludeFields : List Text
  getChannel : Option (δ → Change δ → Channels)
  pipeline : Change δ → Bool
  /-- The place at which the options have every stream start. -/
  startAfter : Option ℕ

/-! ## A change -/

def changedFieldNames (change : Change δ) : List Text := change.updatedFields ++ change.removedFields

/-- `field.split('.')[0]` -/
def root (field : Text) : Text := field.takeWhile (· ≠ 46)

def shouldSkipMongoWatchChange (change : Change δ) (watch : Watch δ) : Bool :=
  if change.operationType ≠ .update then false
  else
    let fields := changedFieldNames change
    if fields.length = 0 then false
    else fields.all fun field => root field = js "updatedAt" || root field ∈ watch.excludeFields

def readFullDocument (change : Change δ) : Option δ :=
  match change.operationType with
  | .insert | .replace | .update => change.fullDocument
  | _ => none

def toMongoWatchPayload (change : Change δ) : Option (MongoWatchPayload δ) :=
  change.documentId.bind fun id =>
    if change.operationType = .delete then some ⟨change.eventId, id, none, true⟩
    else (readFullDocument change).map fun doc => ⟨change.eventId, id, some doc, false⟩

/-- `resolveChannels`, or nothing if `getChannel` throws. -/
def resolveChannels (watch : Watch δ) (change : Change δ) (document : Option δ) : Option (List Text) :=
  match watch.getChannel, document with
  | some getChannel, some doc => match getChannel doc change with
    | .nothing => some []
    | .one channel => some (if channel = [] then [] else [channel])
    | .many channels => some channels
    | .throws => none
  | _, _ => some [[]]

/-- The payload of a change that is not skipped. -/
def admitted (watch : Watch δ) (change : Change δ) : Option (MongoWatchPayload δ) :=
  if shouldSkipMongoWatchChange change watch then none else toMongoWatchPayload change

def emissions (watch : Watch δ) (change : Change δ) (payload : MongoWatchPayload δ) :
    Option (List (Text × MongoWatchPayload δ)) :=
  (resolveChannels watch change (payload.doc <|> change.fullDocumentBeforeChange)).map
    (·.map fun channel => (channel, payload))

/-! ## The loop -/

/-- Where `run` is suspended. A stream that was placed has read the log from `start` up to `next`. -/
inductive Stage where
  | opening
  | reading (start next : ℕ)
  /-- in `getChannel`, for the change at `next` -/
  | resolving (start next : ℕ)
  | waiting
  | stopped
  deriving DecidableEq

structure State (δ : Type) where
  log : List (Change δ)
  closed : Bool
  stage : Stage
  /-- What the streams before have read. -/
  past : List (ℕ × ℕ)
  emitted : List (Text × MongoWatchPayload δ)

inductive Action (δ : Type) where
  | commit (change : Change δ)
  | placed
  | next
  | resolved
  /-- The stream fails. -/
  | fails
  /-- The stream ends, as it does when it is closed. -/
  | ends
  | delayed
  | close

namespace State
variable (watch : Watch δ) (s : State δ)

/-- What was read of the log, also by the stream that is open. -/
def covered : List (ℕ × ℕ) :=
  match s.stage with
  | .reading start next | .resolving start next => s.past ++ [(start, next)]
  | _ => s.past

/-- Where a stream starts. -/
def place : ℕ := min (watch.startAfter.getD s.log.length) s.log.length

/-- Behind `catch`: the stream is given up. -/
def retry : State δ := { s with stage := if s.closed then .stopped else .waiting, past := s.covered }

/-- The loop over the stream has a change. -/
def take (start next : ℕ) (change : Change δ) : State δ :=
  if s.closed then { s with stage := .stopped, past := s.covered }
  else if !watch.pipeline change then { s with stage := .reading start (next + 1) }
  else match admitted watch change with
    | none => { s with stage := .reading start (next + 1) }
    | some _ => { s with stage := .resolving start next }

def resolve (start next : ℕ) (change : Change δ) : Option (State δ) :=
  (admitted watch change).map fun payload => match emissions watch change payload with
    | some es => { s with stage := .reading start (next + 1), emitted := s.emitted ++ es }
    | none => s.retry

end State

def step (watch : Watch δ) (s : State δ) : Action δ → Option (State δ)
  | .commit change => some { s with log := s.log ++ [change] }
  | .placed => match s.stage with
    | .opening => some { s with stage := .reading (s.place watch) (s.place watch) }
    | _ => none
  | .next => match s.stage with
    | .reading start next => (s.log[next]?).map (s.take watch start next)
    | _ => none
  | .resolved => match s.stage with
    | .resolving start next => (s.log[next]?).bind (s.resolve watch start next)
    | _ => none
  | .fails => match s.stage with
    | .opening | .reading _ _ => some s.retry
    | _ => none
  | .ends => match s.stage with
    | .opening | .reading _ _ => some { s with stage := .stopped, past := s.covered }
    | _ => none
  | .delayed => match s.stage with
    | .waiting => some { s with stage := if s.closed then .stopped else .opening }
    | _ => none
  | .close => some { s with closed := true }

/-- `startMongoWatch`, with what is in the log before. -/
def startMongoWatch (watch : Watch δ) (log : List (Change δ)) : Machine (State δ) (Action δ) :=
  ⟨⟨log, false, .opening, [], []⟩, step watch⟩

/-! ## What a change comes to -/

/-- The events of a change that the stream has. -/
def events (watch : Watch δ) (change : Change δ) : List (Text × MongoWatchPayload δ) :=
  if watch.pipeline change then
    ((admitted watch change).bind (emissions watch change)).getD []
  else []

/-- The changes from `x.1` up to `x.2`. -/
def segment (log : List (Change δ)) (x : ℕ × ℕ) : List (Change δ) := (log.take x.2).drop x.1

structure Inv (watch : Watch δ) (s : State δ) : Prop where
  bounds : ∀ x ∈ s.covered, x.1 ≤ x.2 ∧ x.2 ≤ s.log.length
  emitted : s.emitted = (s.covered.flatMap (segment s.log)).flatMap (events watch)
  /-- The streams read one part of the log after the other. -/
  apart : watch.startAfter = none → s.covered.Pairwise fun x y => x.2 ≤ y.1
  /-- What is resolved has come through the pipeline. -/
  resolving (start next : ℕ) : s.stage = .resolving start next →
    ∃ change, s.log[next]? = some change ∧ watch.pipeline change = true

section
variable {watch : Watch δ} {s : State δ} {start next : ℕ} {change : Change δ}

theorem segment_concat {log : List (Change δ)} {x : ℕ × ℕ} (h : x.2 ≤ log.length) (change : Change δ) :
    segment (log ++ [change]) x = segment log x := by
  rw [segment, segment, List.take_append_of_le_length h]

theorem segment_succ {log : List (Change δ)} (hle : start ≤ next) (h : log[next]? = some change) :
    segment log (start, next + 1) = segment log (start, next) ++ [change] := by
  have hlt := (List.getElem?_eq_some_iff.mp h).1
  rw [segment, segment, List.take_add_one, h, Option.toList_some]
  refine List.drop_append_of_le_length ?_
  rw [List.length_take]
  omega

theorem Inv.commit (h : Inv watch s) (change : Change δ) : Inv watch { s with log := s.log ++ [change] } where
  bounds x hx := by
    obtain ⟨hle, hlen⟩ := h.bounds x hx
    rw [List.length_append]
    exact ⟨hle, Nat.le_add_right_of_le hlen⟩
  emitted := by
    have hsegments : s.covered.flatMap (segment (s.log ++ [change])) = s.covered.flatMap (segment s.log) :=
      List.flatMap_congr fun x hx => segment_concat (h.bounds x hx).2 change
    show s.emitted = (s.covered.flatMap (segment (s.log ++ [change]))).flatMap (events watch)
    rw [hsegments]
    exact h.emitted
  apart := h.apart
  resolving start next hstage := by
    obtain ⟨c, hc, hpipeline⟩ := h.resolving start next hstage
    exact ⟨c, (List.getElem?_append_left (List.getElem?_eq_some_iff.mp hc).1).trans hc, hpipeline⟩

/-- A stream was placed. -/
theorem Inv.placed (h : Inv watch s) (hstage : s.stage = .opening) :
    Inv watch { s with stage := .reading (s.place watch) (s.place watch) } := by
  have hpast : s.covered = s.past := by rw [State.covered, hstage]
  refine ⟨fun x hx => ?_, ?_, fun hstart => ?_, nofun⟩
  · rcases List.mem_append.mp hx with hx | hx
    · exact h.bounds x (hpast ▸ hx)
    · cases List.mem_singleton.mp hx
      exact ⟨le_rfl, min_le_right _ _⟩
  · have hempty : ∀ n, segment s.log (n, n) = [] := by
      intro n
      rw [segment, List.drop_eq_nil_iff, List.length_take]
      exact min_le_left _ _
    show s.emitted = ((s.past ++ [_]).flatMap (segment s.log)).flatMap (events watch)
    rw [List.flatMap_append, List.flatMap_singleton, hempty, List.append_nil, ← hpast]
    exact h.emitted
  · have hapart := h.apart hstart
    rw [hpast] at hapart
    refine List.pairwise_append.mpr ⟨hapart, List.pairwise_singleton .., fun x hx y hy => ?_⟩
    cases List.mem_singleton.mp hy
    show x.2 ≤ s.place watch
    rw [State.place, hstart, Option.getD_none, min_self]
    exact (h.bounds x (hpast ▸ hx)).2

/-- The change at `next` is done with. -/
theorem Inv.advance (h : Inv watch s) (hcovered : s.covered = s.past ++ [(start, next)])
    (hchange : s.log[next]? = some change) {emitted : List (Text × MongoWatchPayload δ)}
    (hemitted : emitted = s.emitted ++ events watch change) :
    Inv watch { s with stage := .reading start (next + 1), emitted := emitted } := by
  have hbounds := h.bounds
  have hapart := h.apart
  rw [hcovered] at hbounds hapart
  have hthis := hbounds (start, next) (List.mem_append_right _ (List.mem_singleton_self _))
  have hlt := (List.getElem?_eq_some_iff.mp hchange).1
  refine ⟨fun x hx => ?_, ?_, fun hstart => ?_, nofun⟩
  · rcases List.mem_append.mp hx with hx | hx
    · exact hbounds x (List.mem_append_left _ hx)
    · cases List.mem_singleton.mp hx
      exact ⟨Nat.le_succ_of_le hthis.1, hlt⟩
  · show emitted = ((s.past ++ [(start, next + 1)]).flatMap (segment s.log)).flatMap (events watch)
    rw [hemitted, h.emitted, hcovered]
    simp only [List.flatMap_append, List.flatMap_singleton, segment_succ hthis.1 hchange, List.append_assoc]
  · obtain ⟨hpast, -, hbefore⟩ := List.pairwise_append.mp (hapart hstart)
    refine List.pairwise_append.mpr ⟨hpast, List.pairwise_singleton .., fun x hx y hy => ?_⟩
    cases List.mem_singleton.mp hy
    exact hbefore x hx (start, next) (List.mem_singleton_self _)

/-- A stage without a stream. -/
def Idle : Stage → Prop
  | .opening | .waiting | .stopped => True
  | _ => False

/-- The stream is given up, or there was none. -/
theorem Inv.leave (h : Inv watch s) {stage : Stage} (hstage : Idle stage) :
    Inv watch { s with stage := stage, past := s.covered } := by
  have hcovered : ({ s with stage := stage, past := s.covered } : State δ).covered = s.covered := by
    cases stage with
    | reading start next => exact hstage.elim
    | resolving start next => exact hstage.elim
    | _ => rfl
  refine ⟨?_, ?_, ?_, fun start next heq => ?_⟩
  · rw [hcovered]
    exact h.bounds
  · rw [hcovered]
    exact h.emitted
  · rw [hcovered]
    exact h.apart
  · obtain rfl : stage = .resolving start next := heq
    exact hstage.elim

theorem Inv.retry (h : Inv watch s) : Inv watch s.retry := by
  refine h.leave ?_
  split <;> trivial

theorem events_of_not_pipeline (h : watch.pipeline change ≠ true) : events watch change = [] := if_neg h

theorem events_of_not_admitted (h : admitted watch change = none) : events watch change = [] := by
  rw [events, h]
  exact ite_self _

theorem Inv.take (h : Inv watch s) (hstage : s.stage = .reading start next) (hchange : s.log[next]? = some change) :
    Inv watch (s.take watch start next change) := by
  have hcovered : s.covered = s.past ++ [(start, next)] := by rw [State.covered, hstage]
  rw [State.take]
  split
  · exact h.leave trivial
  split
  · next hpipeline =>
    refine h.advance hcovered hchange ?_
    rw [events_of_not_pipeline (by simpa using hpipeline), List.append_nil]
  · next hpipeline =>
    split
    · next hnone =>
      refine h.advance hcovered hchange ?_
      rw [events_of_not_admitted hnone, List.append_nil]
    · have hsame : ({ s with stage := .resolving start next } : State δ).covered = s.covered := hcovered.symm
      refine ⟨?_, ?_, ?_, fun start' next' heq => ?_⟩
      · rw [hsame]
        exact h.bounds
      · rw [hsame]
        exact h.emitted
      · rw [hsame]
        exact h.apart
      · cases heq
        exact ⟨change, hchange, by simpa using hpipeline⟩

theorem Inv.resolve (h : Inv watch s) (hstage : s.stage = .resolving start next)
    (hchange : s.log[next]? = some change) {s' : State δ} (hresolve : s.resolve watch start next change = some s') :
    Inv watch s' := by
  have hcovered : s.covered = s.past ++ [(start, next)] := by rw [State.covered, hstage]
  obtain ⟨c, hc, hpipeline⟩ := h.resolving start next hstage
  obtain rfl := Option.some.inj (hchange.symm.trans hc)
  obtain ⟨payload, hpayload, rfl⟩ := Option.map_eq_some_iff.mp hresolve
  cases hes : emissions watch change payload with
  | none => exact h.retry
  | some es =>
    refine h.advance hcovered hchange ?_
    rw [events, if_pos hpipeline, hpayload, Option.bind_some, hes, Option.getD_some]

theorem inv_of_reach {log : List (Change δ)} (h : (startMongoWatch watch log).Reach anyStep s) : Inv watch s := by
  refine h.invariant (Inv watch) ⟨nofun, rfl, fun _ => .nil, nofun⟩ fun s a s' hs _ hstep => ?_
  cases a with
  | commit change =>
    cases hstep
    exact hs.commit change
  | placed =>
    simp only [startMongoWatch, step] at hstep
    split at hstep
    · next hstage =>
      cases hstep
      exact hs.placed hstage
    · cases hstep
  | next =>
    simp only [startMongoWatch, step] at hstep
    split at hstep
    · next hstage =>
      obtain ⟨change, hchange, rfl⟩ := Option.map_eq_some_iff.mp hstep
      exact hs.take hstage hchange
    · cases hstep
  | resolved =>
    simp only [startMongoWatch, step] at hstep
    split at hstep
    · next hstage =>
      obtain ⟨change, hchange, hresolve⟩ := Option.bind_eq_some_iff.mp hstep
      exact hs.resolve hstage hchange hresolve
    · cases hstep
  | fails =>
    simp only [startMongoWatch, step] at hstep
    split at hstep
    · cases hstep
      exact hs.retry
    · cases hstep
      exact hs.retry
    · cases hstep
  | ends =>
    simp only [startMongoWatch, step] at hstep
    split at hstep
    · cases hstep
      exact hs.leave trivial
    · cases hstep
      exact hs.leave trivial
    · cases hstep
  | delayed =>
    simp only [startMongoWatch, step] at hstep
    split at hstep
    · next hstage =>
      cases hstep
      have hcovered : s.covered = s.past := by rw [State.covered, hstage]
      rw [← hcovered]
      refine hs.leave ?_
      split <;> trivial
    · cases hstep
  | close =>
    cases hstep
    exact ⟨hs.bounds, hs.emitted, hs.apart, hs.resolving⟩

/-! ## After `close()` -/

/-- What can be emitted between `s`, which is closed, and `t`. -/
structure Quiet (watch : Watch δ) (s t : State δ) : Prop where
  closed : t.closed = true
  log (n : ℕ) (change : Change δ) : s.log[n]? = some change → t.log[n]? = some change
  emitted : t.emitted = s.emitted ∨
    (∀ start next, t.stage ≠ .resolving start next) ∧ ∃ start next change, s.stage = .resolving start next ∧
      s.log[next]? = some change ∧ t.emitted = s.emitted ++ events watch change
  /-- Only what was resolved when the watch was closed is resolved. -/
  resolving (start next : ℕ) : t.stage = .resolving start next → s.stage = .resolving start next

variable {t : State δ}

theorem Quiet.idle (h : Quiet watch s t) {t' : State δ} (hclosed : t'.closed = t.closed) (hlog : t'.log = t.log)
    (hemitted : t'.emitted = t.emitted) (hstage : ∀ start next, t'.stage ≠ .resolving start next) :
    Quiet watch s t' where
  closed := hclosed.trans h.closed
  log := hlog ▸ h.log
  emitted := by
    rw [hemitted]
    exact h.emitted.imp_right fun hdone => ⟨hstage, hdone.2⟩
  resolving start next heq := absurd heq (hstage start next)

theorem Quiet.commit (h : Quiet watch s t) (change : Change δ) : Quiet watch s { t with log := t.log ++ [change] } where
  closed := h.closed
  log n c hc := by
    have hold := h.log n c hc
    exact (List.getElem?_append_left (List.getElem?_eq_some_iff.mp hold).1).trans hold
  emitted := h.emitted
  resolving := h.resolving

/-- What was resolved goes out, or `getChannel` throws. -/
theorem Quiet.resolve (h : Quiet watch s t) (hinv : Inv watch s) (hstage : t.stage = .resolving start next)
    (hchange : t.log[next]? = some change) {t' : State δ} (hresolve : t.resolve watch start next change = some t') :
    Quiet watch s t' := by
  obtain ⟨payload, hpayload, rfl⟩ := Option.map_eq_some_iff.mp hresolve
  have hwas := h.resolving start next hstage
  obtain ⟨c, hc, hpipeline⟩ := hinv.resolving start next hwas
  obtain rfl := Option.some.inj (hchange.symm.trans (h.log next c hc))
  have hsame : t.emitted = s.emitted := h.emitted.resolve_right fun hdone => hdone.1 start next hstage
  cases hes : emissions watch change payload with
  | none =>
    refine h.idle rfl rfl rfl fun start next => ?_
    dsimp only [State.retry]
    split <;> nofun
  | some es =>
    refine ⟨h.closed, h.log, .inr ⟨nofun, start, next, change, hwas, hc, ?_⟩, nofun⟩
    rw [events, if_pos hpipeline, hpayload, Option.bind_some, hes, Option.getD_some, ← hsame]

theorem Quiet.step (h : Quiet watch s t) (hinv : Inv watch s) {a : Action δ} {t' : State δ}
    (hstep : step watch t a = some t') : Quiet watch s t' := by
  cases a with
  | commit change =>
    cases hstep
    exact h.commit change
  | placed =>
    simp only [MongoWatch.step] at hstep
    split at hstep
    · cases hstep
      exact h.idle rfl rfl rfl nofun
    · cases hstep
  | next =>
    simp only [MongoWatch.step] at hstep
    split at hstep
    · obtain ⟨change, -, rfl⟩ := Option.map_eq_some_iff.mp hstep
      rw [State.take, if_pos h.closed]
      exact h.idle rfl rfl rfl nofun
    · cases hstep
  | resolved =>
    simp only [MongoWatch.step] at hstep
    split at hstep
    · next hstage =>
      obtain ⟨change, hchange, hresolve⟩ := Option.bind_eq_some_iff.mp hstep
      exact h.resolve hinv hstage hchange hresolve
    · cases hstep
  | fails =>
    have hretry : Quiet watch s t.retry := by
      refine h.idle rfl rfl rfl fun start next => ?_
      dsimp only [State.retry]
      split <;> nofun
    simp only [MongoWatch.step] at hstep
    split at hstep <;> cases hstep <;> exact hretry
  | ends =>
    have hstopped : Quiet watch s { t with stage := .stopped, past := t.covered } := h.idle rfl rfl rfl nofun
    simp only [MongoWatch.step] at hstep
    split at hstep <;> cases hstep <;> exact hstopped
  | delayed =>
    simp only [MongoWatch.step] at hstep
    split at hstep
    · cases hstep
      refine h.idle rfl rfl rfl fun start next => ?_
      dsimp only
      split <;> nofun
    · cases hstep
  | close =>
    cases hstep
    exact ⟨rfl, h.log, h.emitted, h.resolving⟩

/-! ## What the watch promises -/

/-- **What goes out is what the streams have read.** The events are those of the changes that the streams have come
past, in the order of the log; with no place to start, no change is read by two of them. -/
theorem watch_exact {log : List (Change δ)} (h : (startMongoWatch watch log).Reach anyStep s) :
    s.emitted = (s.covered.flatMap (segment s.log)).flatMap (events watch) ∧
      (∀ x ∈ s.covered, x.1 ≤ x.2 ∧ x.2 ≤ s.log.length) ∧
      (watch.startAfter = none → s.covered.Pairwise fun x y => x.2 ≤ y.1) := by
  have hs := inv_of_reach h
  exact ⟨hs.emitted, hs.bounds, hs.apart⟩

/-- **Nothing goes out after `close()`**, but the change whose channels were being resolved then. -/
theorem watch_closed {log : List (Change δ)} (h : (startMongoWatch watch log).Reach anyStep s)
    (hclosed : s.closed = true) (hsteps : (startMongoWatch watch log).Steps anyStep s t) :
    t.emitted = s.emitted ∨ ∃ start next change, s.stage = .resolving start next ∧ s.log[next]? = some change ∧
      t.emitted = s.emitted ++ events watch change := by
  have hs := inv_of_reach h
  have hquiet : Quiet watch s t := hsteps.invariant (Quiet watch s) ⟨hclosed, fun _ _ => id, .inl rfl, fun _ _ => id⟩
    fun u a u' hu _ hstep => hu.step hs hstep
  exact hquiet.emitted.imp_right And.right

end

/-! ### A stream that fails -/

def boards : Watch ℕ := ⟨[], some fun author _ => .one [author.toUInt16], fun _ => true, none⟩

def board (eventId : UInt16) (author : ℕ) : Change ℕ := ⟨[eventId], .insert, some [7], some author, none, [], []⟩

def touched : Change ℕ := ⟨[2], .update, some [7], some 5, none, [js "updatedAt"], []⟩

/-- The third change is committed while there is no stream, the fourth is resolved when the watch is closed. -/
def failing : List (Action ℕ) :=
  [.placed, .commit (board 1 5), .next, .resolved, .commit touched, .next, .fails, .commit (board 3 5), .delayed,
    .placed, .commit (board 4 6), .next, .close]

theorem failing_stream : ∃ s : State ℕ, s.emitted.map (fun e => (e.1, e.2.eventId)) = [([5], [1]), ([6], [4])] ∧
    s.covered = [(0, 2), (3, 4)] ∧ s.emitted = (s.covered.flatMap (segment s.log)).flatMap (events boards) := by
  have hreach : (startMongoWatch boards []).Reach anyStep _ := Machine.steps_of_exec (failing ++ [.resolved]) rfl
  exact ⟨_, rfl, rfl, (watch_exact hreach).1⟩

/-- The state in which the watch is closed. -/
def closing : State ℕ :=
  ⟨[board 1 5, touched, board 3 5, board 4 6], true, .resolving 3 3, [(0, 2)], [([5], ⟨[1], [7], some 5, false⟩)]⟩

theorem closed_in_resolving : ∃ t : State ℕ, closing.emitted.length = 1 ∧ t.emitted.length = 2 ∧
    (t.emitted = closing.emitted ∨ ∃ start next change, closing.stage = .resolving start next ∧
      closing.log[next]? = some change ∧ t.emitted = closing.emitted ++ events boards change) := by
  have hreach : (startMongoWatch boards []).Reach anyStep closing := Machine.steps_of_exec failing rfl
  have hsteps : (startMongoWatch boards []).Steps anyStep closing _ := Machine.steps_of_exec [.resolved, .ends] rfl
  exact ⟨_, rfl, rfl, watch_closed hreach rfl hsteps⟩

end TypeFerry.Server.MongoWatch
