import TypeFerry.Lib.Runs
import TypeFerry.Lib.Streams
import TypeFerry.Minimongo.Values

/-! # The streaming body limit of the HTTP transport

`hono-streaming-body-limit.ts`. The body of a request is handed to the route chunk by chunk, as the
route reads, until the chunks together are longer than the limit. The pull loop waits for the source
of the body; while it waits, the route may cancel, the request may be aborted and the middleware may
come to its end, each of which cancels the source, at once or after the response was written. -/
namespace TypeFerry.Server.BodyLimit
open TypeFerry.Lib.Runs TypeFerry.Lib.Streams TypeFerry.Lib.Numeral TypeFerry.Ejson.Canonical
open TypeFerry.Minimongo.Values

abbrev Bytes := List UInt8

/-! ## The request -/

/-- How a request enters: it is passed on as it is, refused, or its body is limited. -/
inductive Entry where
  | pass
  | refuse
  | limit
deriving DecidableEq

/-- A request with a body. -/
structure Request where
  maxSize : ℕ
  method : Text
  /-- `content-length` -/
  declared : Option Text
  body : List Bytes
  /-- The source can be read: it is there, and nobody else has locked it. -/
  available : Bool
  outgoing : Bool

/-- `streamingBodyLimit(maxSize)` up to the stream. -/
def Request.entry (r : Request) : Entry :=
  if r.method = js "GET" ∨ r.method = js "HEAD" then .pass
  else if r.declared.any fun text => isNumericKey text && decide (keyIndex text > r.maxSize) then .refuse
  else .limit

/-! ## The stream of a limited body -/

/-- What the source of the body answers to a read of it. -/
inductive Answer where
  | chunk (bytes : Bytes)
  | done
  /-- The read is refused, or the chunk is no bytes. -/
  | failed
deriving DecidableEq

/-- The pull algorithm: not called, waiting for the source, about to go on, or done. -/
inductive Pull where
  | idle
  | waiting
  | answered (answer : Answer)
  | returned
deriving DecidableEq

/-- The response that is sent: that of the route, the one of the middleware, or none because
`next()` threw. -/
inductive Final where
  | route
  | tooLarge
  | rejected
deriving DecidableEq

structure State where
  /-- `body`, the stream of the route -/
  stream : Stream Bytes
  pull : Pull
  /-- `reader` is set. -/
  reader : Bool
  ended : Bool
  exceeded : Bool
  size : ℕ
  cancellationScheduled : Bool
  /-- The cancellation waits for the response. -/
  deferred : Bool
  /-- The source was cancelled, and has given its lock back. -/
  sourceCancelled : Bool
  released : Bool
  /-- What the source has not given yet. -/
  rest : List Bytes
  aborted : Bool
  /-- `abort` listens to the signal. -/
  listening : Bool
  /-- The response is neither written nor destroyed. -/
  outgoing : Bool
  incomingDestroyed : Bool
  /-- The chunks that the source gave to reads that were still wanted. -/
  taken : List Bytes
  /-- The response, and what was taken before the route was finished. -/
  final : Option (Final × List Bytes)

inductive Action where
  /-- The route reads, gives its lock back, or cancels the stream. -/
  | read
  | release
  | cancel
  /-- The source answers the read that waits. -/
  | answer (answer : Answer)
  /-- The pull goes on with the answer. -/
  | resume
  /-- The promise of the pull is settled. -/
  | settle
  | abort
  /-- The response is written or destroyed, and the event that says so. -/
  | outgoingGone
  | outgoingEvent
  | incomingDestroyed
  /-- The source is cancelled, and gives its lock back. -/
  | releaseLock
  /-- `next()` returns, or throws. -/
  | finish (returns : Bool)
deriving DecidableEq

def length (chunks : List Bytes) : ℕ := chunks.flatten.length

/-- `activeReader.cancel(reason)`: a read that waits is told that the source is over. -/
def cancelReader (s : State) : State :=
  if s.released then { s with deferred := false }
  else { s with
    deferred := false
    sourceCancelled := true
    pull := if s.pull = .waiting then .answered .done else s.pull }

/-- `cancelSource(reason)`. -/
def cancelSource (s : State) : State :=
  if s.cancellationScheduled || s.ended || !s.reader then s
  else if s.outgoing && !s.incomingDestroyed then { s with cancellationScheduled := true, deferred := true }
  else cancelReader { s with cancellationScheduled := true }

/-- The `catch` of the pull algorithm. -/
def caught (s : State) : State :=
  cancelSource (if s.ended || s.aborted then s else { s with stream := s.stream.error })

variable (r : Request)

/-- `pull(value)` until it waits. -/
def startPull (s : State) : State :=
  if s.reader || r.available then
    { s with
      reader := true
      pull := if s.released then .answered .failed
        else if s.sourceCancelled then .answered .done else .waiting }
  else { caught s with pull := .returned }

/-- The stream after `pullIfNeeded`, and the pull that it starts. -/
def pulling (s : State) (p : Stream Bytes × Bool) : State :=
  if p.2 then startPull r { s with stream := p.1 } else { s with stream := p.1 }

/-- `pull(value)` after it waited. -/
def resume (s : State) (answer : Answer) : State :=
  if s.ended || s.aborted then s
  else match answer with
    | .done =>
      let s := { s with ended := true, released := true }
      match s.stream.close with
      | some stream => { s with stream := stream }
      | none => caught s
    | .chunk bytes =>
      let s := { s with size := s.size + bytes.length, taken := s.taken ++ [bytes] }
      if s.size > r.maxSize then caught { s with exceeded := true }
      else match s.stream.enqueue bytes with
        | some stream => { s with stream := stream }
        | none => caught s
    | .failed => caught s

/-- A step of a request whose body is limited. -/
def limitedStep (s : State) : Action → Option State
  | .read => some (pulling r s s.stream.read.pullIfNeeded)
  | .release => some { s with stream := s.stream.release }
  | .cancel =>
    some (if s.stream.state = .readable then cancelSource { s with stream := s.stream.cancel } else s)
  | .answer answer =>
    if s.pull = .waiting then match answer, s.rest with
      | .chunk bytes, next :: rest =>
        if bytes = next then some { s with pull := .answered answer, rest := rest } else none
      | .done, [] => some { s with pull := .answered answer }
      | .failed, _ => some { s with pull := .answered answer }
      | _, _ => none
    else none
  | .resume => match s.pull with
    | .answered answer => some { resume r s answer with pull := .returned }
    | _ => none
  | .settle =>
    if s.pull = .returned then some (pulling r { s with pull := .idle } s.stream.pulled) else none
  | .abort =>
    if s.aborted then none
    else
      let s := { s with aborted := true }
      some (if s.listening && !s.ended then cancelSource { s with stream := s.stream.error } else s)
  | .outgoingGone => some { s with outgoing := false }
  | .outgoingEvent => if s.deferred && !s.outgoing then some (cancelReader s) else none
  | .incomingDestroyed => some { s with incomingDestroyed := true }
  | .releaseLock => if s.sourceCancelled then some { s with released := true } else none
  | .finish returns =>
    if s.final.isSome then none
    else some (cancelSource { s with
      final := some (if returns then if s.exceeded then .tooLarge else .route else .rejected, s.taken)
      listening := false })

def init : State where
  stream := .init
  pull := .idle
  reader := false
  ended := false
  exceeded := false
  size := 0
  cancellationScheduled := false
  deferred := false
  sourceCancelled := false
  released := false
  rest := r.body
  aborted := false
  listening := true
  outgoing := r.outgoing
  incomingDestroyed := false
  taken := []
  final := if r.entry = .refuse then some (.tooLarge, []) else none

/-- The route of a request that is refused is not called, and one that is passed on is not the
concern of this middleware. -/
def step (s : State) (a : Action) : Option State :=
  if r.entry = .limit then limitedStep r s a else none

/-- A request that is served. -/
def machine : Machine State Action := ⟨init r, step r⟩

/-! ## Steps that keep the promise -/

/-- Part of the body was not taken, and the route can still be told that it has all of it. -/
def missing (s : State) : Bool := s.stream.open? && !s.aborted && !s.rest.isEmpty

/-- The middleware cancels the source at its end, or when the response is written. -/
def cancelsSource (s : State) : Action → Bool
  | .finish _ => !s.cancellationScheduled && !s.ended && s.reader && !(s.outgoing && !s.incomingDestroyed)
  | .outgoingEvent => s.deferred && !s.released
  | _ => false

/-- A pull is called. -/
def startsPull (s : State) : Action → Bool
  | .read => s.stream.read.pullIfNeeded.2
  | .settle => s.stream.pulled.2
  | _ => false

/-- While a part of the body is missing, the source is not cancelled under a read that waits for
it, and not read between its cancellation and the release of its lock; and `next()` does not throw
after the excess was met. -/
structure Careful (s : State) (a : Action) : Prop where
  cancels : missing s → cancelsSource s a → s.pull ≠ .waiting
  reads : missing s → startsPull s a → s.sourceCancelled → s.released
  finishes : a = .finish false → s.exceeded = false

/-! ## The promise -/

/-- The route has a beginning of the body, within the limit, it is told that the body is over
only when it has all of it, and a response follows an excess that was met before it. -/
structure Promise (r : Request) (s : State) : Prop where
  beginning : s.stream.delivered.flatten <+: r.body.flatten
  within : length s.stream.delivered ≤ r.maxSize
  whole : s.stream.sawEnd → s.stream.delivered.flatten = r.body.flatten
  refused : ∀ final taken, s.final = some (final, taken) → r.maxSize < length taken → final = .tooLarge

/-- The chunk that the pull is about to look at. -/
def inFlight : Pull → List Bytes
  | .answered (.chunk bytes) => [bytes]
  | _ => []

/-- The stream takes chunks. -/
def live (s : State) : Bool := s.stream.open? && !s.aborted

structure Inv (r : Request) (s : State) : Prop where
  relays : s.stream.Relays r.body
  within : length s.stream.passed ≤ r.maxSize
  split : live s → s.stream.passed ++ inFlight s.pull ++ s.rest = r.body
  size : live s → s.size = length s.stream.passed
  dry : live s → s.pull = .answered .done → s.rest = []
  ended : s.ended → s.stream.open? = false
  idle : s.stream.pulling = false → s.pull = .idle
  taken : s.size = length s.taken
  exceeded : s.exceeded = decide (s.size > r.maxSize)
  refused : ∀ final taken, s.final = some (final, taken) → r.maxSize < length taken → final = .tooLarge

variable {r}

-- The equations are made here, before the many proofs that ask for them side by side.
section
attribute [local simp] cancelReader cancelSource caught startPull pulling resume limitedStep missing cancelsSource inFlight live
end

theorem prefix_length_le {xs ys : List Bytes} (h : xs <+: ys) : length xs ≤ length ys := by
  obtain ⟨zs, rfl⟩ := h
  rw [length, length, List.flatten_append, List.length_append]
  omega

theorem length_concat (xs : List Bytes) (x : Bytes) : length (xs ++ [x]) = length xs + x.length := by
  simp [length]

theorem inv_init : Inv r (init r) := by
  refine ⟨Stream.relays_init, Nat.zero_le _, fun _ => rfl, fun _ => rfl, nofun, nofun, fun _ => rfl, rfl, ?_,
    fun final taken hfinal hlength => ?_⟩
  · exact (decide_eq_false (Nat.not_lt_zero _)).symm
  · unfold init at hfinal
    dsimp only at hfinal
    split at hfinal
    · cases hfinal
      exact absurd hlength (Nat.not_lt_zero _)
    · cases hfinal

/-- A stream in the place of the one before, that takes nothing more. -/
theorem Inv.shut {s : State} (h : Inv r s) {stream : Stream Bytes} (hrelays : stream.Relays r.body)
    (hpassed : stream.passed <+: s.stream.passed) (hopen : stream.open? = false)
    (hpulling : stream.pulling = s.stream.pulling) : Inv r { s with stream := stream } := by
  have hdead : ¬live { s with stream := stream } := by simp [live, hopen]
  exact ⟨hrelays, (prefix_length_le hpassed).trans h.within, fun hl => absurd hl hdead,
    fun hl => absurd hl hdead, fun hl => absurd hl hdead, fun _ => hopen, fun hp => h.idle (hpulling ▸ hp),
    h.taken, h.exceeded, h.refused⟩

theorem Inv.error {s : State} (h : Inv r s) : Inv r { s with stream := s.stream.error } :=
  h.shut h.relays.error (Stream.error_passed _) (Stream.open?_error _) (Stream.error_pulling _)

/-- Cancelling the source under no read that waits, or when the stream takes nothing more. -/
theorem inv_cancelReader {s : State} (h : Inv r s)
    (hsafe : s.released = false → live s → s.pull = .waiting → s.rest = []) : Inv r (cancelReader s) := by
  unfold cancelReader
  split
  · exact ⟨h.relays, h.within, h.split, h.size, h.dry, h.ended, h.idle, h.taken, h.exceeded, h.refused⟩
  · next hreleased =>
    by_cases hpull : s.pull = .waiting
    · rw [if_pos hpull]
      have hsplit := h.split
      rw [hpull] at hsplit
      refine ⟨h.relays, h.within, hsplit, h.size,
        fun hl _ => hsafe (Bool.eq_false_iff.mpr hreleased) hl hpull, h.ended, fun hp => ?_, h.taken,
        h.exceeded, h.refused⟩
      have hidle := h.idle hp
      rw [hpull] at hidle
      cases hidle
    · rw [if_neg hpull]
      exact ⟨h.relays, h.within, h.split, h.size, h.dry, h.ended, h.idle, h.taken, h.exceeded, h.refused⟩

theorem inv_cancelSource {s : State} (h : Inv r s) (hsafe : live s → cancelsSource s (.finish true) →
    s.pull = .waiting → s.rest = []) : Inv r (cancelSource s) := by
  unfold cancelSource
  split
  · exact h
  · next hguard =>
    split
    · exact ⟨h.relays, h.within, h.split, h.size, h.dry, h.ended, h.idle, h.taken, h.exceeded, h.refused⟩
    · next houtgoing =>
      refine inv_cancelReader ⟨h.relays, h.within, h.split, h.size, h.dry, h.ended, h.idle, h.taken, h.exceeded,
        h.refused⟩ fun _ hl => hsafe hl ?_
      simp only [Bool.or_eq_true, Bool.not_eq_true', not_or, Bool.not_eq_true, Bool.not_eq_false] at hguard
      simp [cancelsSource, hguard, houtgoing]

/-- Cancelling the source of a stream that takes nothing more. -/
theorem inv_cancelSource_dead {s : State} (h : Inv r s) (hdead : ¬live s) : Inv r (cancelSource s) :=
  inv_cancelSource h fun hl => absurd hl hdead

theorem inv_caught {s : State} (h : Inv r s) : Inv r (caught s) := by
  unfold caught
  split
  · next hguard =>
    refine inv_cancelSource_dead h fun hl => ?_
    rw [live, Bool.and_eq_true, Bool.not_eq_true'] at hl
    rcases Bool.or_eq_true_iff.mp hguard with hended | haborted
    · rw [h.ended hended] at hl
      cases hl.1
    · rw [haborted] at hl
      cases hl.2
  · refine inv_cancelSource_dead h.error ?_
    simp [live]

theorem cancelSource_stream (s : State) : (cancelSource s).stream = s.stream := by
  unfold cancelSource cancelReader
  split
  · rfl
  · split
    · rfl
    · dsimp only
      split <;> rfl

theorem cancelSource_aborted (s : State) : (cancelSource s).aborted = s.aborted := by
  unfold cancelSource cancelReader
  split
  · rfl
  · split
    · rfl
    · dsimp only
      split <;> rfl

theorem caught_pulling (s : State) : (caught s).stream.pulling = s.stream.pulling := by
  rw [caught, cancelSource_stream]
  split
  · rfl
  · exact Stream.error_pulling _

/-- After an error the stream takes nothing more. -/
theorem caught_dead {s : State} (h : Inv r s) : ¬live (caught s) := by
  rw [live, caught, cancelSource_stream, cancelSource_aborted]
  split
  · next hguard =>
    rcases Bool.or_eq_true_iff.mp hguard with hended | haborted
    · rw [h.ended hended, Bool.false_and]
      exact Bool.false_ne_true
    · rw [haborted, Bool.not_true, Bool.and_false]
      exact Bool.false_ne_true
  · rw [Stream.open?_error, Bool.false_and]
    exact Bool.false_ne_true

/-- The pull is at another place; no chunk is lost with the one where it was. -/
theorem Inv.moved {s : State} (h : Inv r s) {pull : Pull} (hpulling : s.stream.pulling = true)
    (hflight : live s → inFlight pull = inFlight s.pull) (hdry : live s → pull = .answered .done → s.rest = []) :
    Inv r { s with pull := pull } := by
  refine ⟨h.relays, h.within, fun hl => ?_, h.size, hdry, h.ended, fun hp => ?_, h.taken, h.exceeded, h.refused⟩
  · rw [show inFlight _ = _ from hflight hl]
    exact h.split hl
  · rw [show s.stream.pulling = false from hp] at hpulling
    cases hpulling

/-- A pull that is called while none runs. -/
theorem inv_startPull {s : State} (h : Inv r s) (hpulling : s.stream.pulling = true) (hidle : inFlight s.pull = [])
    (hsafe : live s → s.sourceCancelled → s.released ∨ s.rest = []) : Inv r (startPull r s) := by
  unfold startPull
  split
  · have hread : Inv r { s with reader := true } :=
      ⟨h.relays, h.within, h.split, h.size, h.dry, h.ended, h.idle, h.taken, h.exceeded, h.refused⟩
    refine hread.moved hpulling (fun _ => ?_) fun hl hp => ?_
    · rw [show inFlight s.pull = [] from hidle]
      split
      · rfl
      · split <;> rfl
    · split at hp
      · cases hp
      · next hreleased =>
        split at hp
        · next hcancelled => exact (hsafe hl hcancelled).resolve_left hreleased
        · cases hp
  · exact (inv_caught h).moved ((caught_pulling s).trans hpulling) (fun hl => absurd hl (caught_dead h))
      fun hl => absurd hl (caught_dead h)

/-- The stream after a read or at the end of a pull, with the pull that follows. -/
theorem inv_pulling {s : State} {p : Stream Bytes × Bool} (hidle : p.2 → s.pull = .idle)
    (h : Inv r { s with stream := p.1 }) (hpulling : p.2 → p.1.pulling = true)
    (hsafe : p.2 → live { s with stream := p.1 } → s.sourceCancelled → s.released ∨ s.rest = []) :
    Inv r (pulling r s p) := by
  unfold pulling
  split
  · next hstart =>
    have hflight : inFlight s.pull = [] := by
      rw [hidle hstart]
      rfl
    exact inv_startPull h (hpulling hstart) hflight (hsafe hstart)
  · exact h

/-- A stream that takes nothing more needs no exact count. -/
theorem Inv.counted {s : State} (h : Inv r s) (hdead : ¬live s) (bytes : Bytes) :
    Inv r { s with
      size := s.size + bytes.length
      taken := s.taken ++ [bytes]
      exceeded := decide (s.size + bytes.length > r.maxSize) } :=
  ⟨h.relays, h.within, fun hl => absurd hl hdead, fun hl => absurd hl hdead, fun hl => absurd hl hdead, h.ended,
    h.idle, by rw [length_concat, ← h.taken], rfl, h.refused⟩

theorem exceeded_of_not_gt {s : State} (h : Inv r s) {n : ℕ} (hn : ¬s.size + n > r.maxSize) :
    s.exceeded = decide (s.size + n > r.maxSize) := by
  rw [h.exceeded, decide_eq_false hn, decide_eq_false (by omega)]

/-- An error in the pull. -/
theorem inv_returned_caught {s : State} (h : Inv r s) (hpulling : s.stream.pulling = true) :
    Inv r { caught s with pull := .returned } :=
  (inv_caught h).moved ((caught_pulling s).trans hpulling) (fun hl => absurd hl (caught_dead h))
    fun hl => absurd hl (caught_dead h)

/-- An error in the pull, in a state whose count is right only after the error. -/
theorem inv_returned_of_error {s : State} (hguard : (s.ended || s.aborted) = false)
    (h : Inv r { s with stream := s.stream.error }) (hpulling : s.stream.pulling = true) :
    Inv r { caught s with pull := .returned } := by
  have hdead : ¬live { s with stream := s.stream.error } := by simp [live]
  have hcaught : caught s = cancelSource { s with stream := s.stream.error } := by
    rw [caught, hguard, if_neg Bool.false_ne_true]
  have hlive : ¬live (caught s) := by
    rw [hcaught, live, cancelSource_stream, cancelSource_aborted]
    exact hdead
  exact (hcaught ▸ inv_cancelSource_dead h hdead : Inv r (caught s)).moved ((caught_pulling s).trans hpulling)
    (fun hl => absurd hl hlive) fun hl => absurd hl hlive

theorem inv_resume {s : State} {answer : Answer} (h : Inv r s) (hpull : s.pull = .answered answer) :
    Inv r { resume r s answer with pull := .returned } := by
  have hpulling : s.stream.pulling = true := by
    by_contra hp
    have hidle := h.idle (Bool.eq_false_iff.mpr hp)
    rw [hpull] at hidle
    cases hidle
  unfold resume
  split
  · next hguard =>
    have hdead : ¬live s := by
      rw [live]
      rcases Bool.or_eq_true_iff.mp hguard with hended | haborted
      · simp [h.ended hended]
      · simp [haborted]
    exact h.moved hpulling (fun hl => absurd hl hdead) fun hl => absurd hl hdead
  · next hguard =>
    simp only [Bool.or_eq_true, not_or, Bool.not_eq_true] at hguard
    have hlive : s.stream.open? = true → live s := fun hopen => by simp [live, hopen, hguard.2]
    cases answer with
    | done =>
      dsimp only
      cases hclose : s.stream.close with
      | some stream =>
        obtain ⟨hopen, hshut⟩ := Stream.open_of_close hclose
        have hall : s.stream.passed = r.body := by
          have hsplit := h.split (hlive hopen)
          rw [hpull, h.dry (hlive hopen) hpull] at hsplit
          simpa [inFlight] using hsplit
        have hnext := h.shut (h.relays.close hall hclose) (Stream.close_passed hclose ▸ List.prefix_rfl) hshut
          (Stream.close_pulling hclose)
        have hdead : ¬live { s with stream := stream } := by simp [live, hshut]
        have hmoved : Inv r { s with stream := stream, pull := .returned } :=
          hnext.moved (Stream.close_pulling hclose ▸ hpulling) (fun hl => absurd hl hdead) fun hl => absurd hl hdead
        exact ⟨hmoved.relays, hmoved.within, hmoved.split, hmoved.size, hmoved.dry, fun _ => hshut, hmoved.idle,
          hmoved.taken, hmoved.exceeded, hmoved.refused⟩
      | none =>
        have hshut : s.stream.open? = false := by
          unfold Stream.close at hclose
          split at hclose
          · cases hclose
          · next hopen => exact Bool.eq_false_iff.mpr hopen
        refine inv_returned_caught (s := { s with ended := true, released := true }) ?_ hpulling
        exact ⟨h.relays, h.within, h.split, h.size, h.dry, fun _ => hshut, h.idle, h.taken, h.exceeded, h.refused⟩
    | chunk bytes =>
      dsimp only
      split
      · next hgt =>
        -- The excess: the stream is errored before the count is of any use.
        have hcounted := h.error.counted (by simp [live]) bytes
        rw [decide_eq_true hgt] at hcounted
        exact inv_returned_of_error (by simp [hguard]) hcounted hpulling
      · next hle =>
        have hexceeded := exceeded_of_not_gt h hle
        cases henqueue : s.stream.enqueue bytes with
        | some stream =>
          obtain ⟨hopen, hopen'⟩ := Stream.open_of_enqueue henqueue
          have hsplit := h.split (hlive hopen)
          rw [hpull] at hsplit
          have hpassed := Stream.enqueue_passed h.relays henqueue
          have hsize := h.size (hlive hopen)
          have hlength : s.size + bytes.length = length stream.passed := by
            rw [hpassed, length_concat, hsize]
          refine ⟨h.relays.enqueue (hsplit ▸ List.prefix_append _ _) henqueue, hlength ▸ Nat.le_of_not_lt hle,
            fun _ => ?_, fun _ => hlength, fun _ hp => (nomatch hp), fun hended => ?_, fun hp => ?_, ?_,
            hexceeded, h.refused⟩
          · rw [show inFlight Pull.returned = [] from rfl, List.append_nil, hpassed]
            exact hsplit
          · rw [show s.ended = true from hended] at hguard
            cases hguard.1
          · rw [show stream.pulling = true from Stream.enqueue_pulling henqueue hpulling] at hp
            cases hp
          · rw [length_concat, ← h.taken]
        | none =>
          have hshut : s.stream.open? = false := by
            unfold Stream.enqueue at henqueue
            split at henqueue
            · cases henqueue
            · next hopen => exact Bool.eq_false_iff.mpr hopen
          have hcounted := h.counted (by simp [live, hshut]) bytes
          rw [← hexceeded] at hcounted
          exact inv_returned_caught hcounted hpulling
    | failed => exact inv_returned_caught h hpulling

/-- A stream that took and lost nothing. -/
theorem Inv.streamed {s : State} (h : Inv r s) {stream : Stream Bytes} (hrelays : stream.Relays r.body)
    (hpassed : stream.passed = s.stream.passed) (hopen : stream.open? = s.stream.open?)
    (hidle : stream.pulling = false → s.pull = .idle) : Inv r { s with stream := stream } := by
  have hlive : live { s with stream := stream } = live s := by simp only [live, hopen]
  refine ⟨hrelays, hpassed ▸ h.within, fun hl => ?_, fun hl => ?_, fun hl => h.dry (hlive ▸ hl),
    fun hended => hopen.trans (h.ended hended), hidle, h.taken, h.exceeded, h.refused⟩
  · rw [show ({ s with stream := stream } : State).stream.passed = _ from hpassed]
    exact h.split (hlive ▸ hl)
  · exact (h.size (hlive ▸ hl)).trans (congrArg length hpassed.symm)

theorem Inv.pulling {s : State} (h : Inv r s) (hpull : s.pull ≠ .idle) : s.stream.pulling = true := by
  by_contra hp
  exact hpull (h.idle (Bool.eq_false_iff.mpr hp))

/-- A read of the source between its cancellation and the release of its lock. -/
theorem safe_read {s : State} {a : Action} (ha : Careful s a) (hstart : startsPull s a) (hl : live s)
    (hcancelled : s.sourceCancelled) : s.released ∨ s.rest = [] := by
  by_cases hrest : s.rest = []
  · exact .inr hrest
  · refine .inl (ha.reads ?_ hstart hcancelled)
    rw [missing, Bool.and_eq_true, Bool.not_eq_true', List.isEmpty_eq_false_iff]
    exact ⟨hl, hrest⟩

/-- A read of the source that waits when it is cancelled. -/
theorem safe_cancel {s : State} {a : Action} (ha : Careful s a) (hcancels : cancelsSource s a) (hl : live s)
    (hwaiting : s.pull = .waiting) : s.rest = [] := by
  by_contra hrest
  refine ha.cancels ?_ hcancels hwaiting
  rw [missing, Bool.and_eq_true, Bool.not_eq_true', List.isEmpty_eq_false_iff]
  exact ⟨hl, hrest⟩

theorem inv_read {s : State} (h : Inv r s) (ha : Careful s .read) :
    Inv r (pulling r s s.stream.read.pullIfNeeded) := by
  have hidle : s.stream.read.pullIfNeeded.2 → s.pull = .idle := fun hstart =>
    h.idle (by rw [← Stream.read_pulling]; exact (Stream.pulling_of_started _ hstart).1)
  have hopen : s.stream.read.pullIfNeeded.1.open? = s.stream.open? := by simp
  refine inv_pulling hidle (h.streamed h.relays.read.pullIfNeeded (by simp) hopen fun hp => ?_)
    (fun hstart => (Stream.pulling_of_started _ hstart).2) fun hstart hl => safe_read ha hstart ?_
  · cases hstart : s.stream.read.pullIfNeeded.2 with
    | true => exact hidle hstart
    | false =>
      rw [Stream.pulling_of_not_started _ hstart, Stream.read_pulling] at hp
      exact h.idle hp
  · rw [live] at hl ⊢
    rwa [← hopen]

theorem inv_settle {s : State} (h : Inv r s) (ha : Careful s .settle) (hpull : s.pull = .returned) :
    Inv r (pulling r { s with pull := .idle } s.stream.pulled) := by
  have hmoved : Inv r { s with pull := .idle } :=
    h.moved (h.pulling (by rw [hpull]; exact nofun)) (fun _ => by rw [hpull]; rfl) fun _ => nofun
  have hopen : s.stream.pulled.1.open? = s.stream.open? := by simp
  refine inv_pulling (fun _ => rfl) (hmoved.streamed h.relays.pulled (by simp) hopen fun _ => rfl)
    (fun hstart => (Stream.pulled_pulling _).trans hstart) fun hstart hl => ?_
  rw [live, hopen] at hl
  exact safe_read (s := s) ha hstart hl

theorem inv_answer {s s' : State} {answer : Answer} (h : Inv r s)
    (hs : limitedStep r s (.answer answer) = some s') : Inv r s' := by
  unfold limitedStep at hs
  dsimp only at hs
  split at hs
  · next hpull =>
    have hpulling := h.pulling (by rw [hpull]; exact nofun)
    have hidle : ∀ {P : Prop}, s.stream.pulling = false → P := fun hp => by
      rw [hpulling] at hp
      cases hp
    have hsplit := h.split
    rw [hpull] at hsplit
    split at hs
    · next bytes next rest hrest =>
      split at hs
      · next heq =>
        cases hs
        rw [hrest] at hsplit
        refine ⟨h.relays, h.within, fun hl => ?_, h.size, fun _ => nofun, h.ended, hidle, h.taken, h.exceeded,
          h.refused⟩
        rw [← hsplit hl, heq]
        simp [inFlight]
      · cases hs
    · next hrest =>
      cases hs
      exact ⟨h.relays, h.within, hsplit, h.size, fun _ _ => hrest, h.ended, hidle, h.taken, h.exceeded, h.refused⟩
    · cases hs
      exact ⟨h.relays, h.within, hsplit, h.size, fun _ => nofun, h.ended, hidle, h.taken, h.exceeded, h.refused⟩
    · cases hs
  · cases hs

theorem inv_abort {s s' : State} (h : Inv r s) (hs : limitedStep r s .abort = some s') : Inv r s' := by
  rw [limitedStep] at hs
  split at hs
  · cases hs
  · have hdead : ∀ stream, ¬live { s with aborted := true, stream := stream } := fun stream => by simp [live]
    have haborted : Inv r { s with aborted := true } :=
      ⟨h.relays, h.within, fun hl => absurd hl (hdead s.stream), fun hl => absurd hl (hdead s.stream),
        fun hl => absurd hl (hdead s.stream), h.ended, h.idle, h.taken, h.exceeded, h.refused⟩
    cases hs
    dsimp only
    split
    · exact inv_cancelSource_dead haborted.error (hdead _)
    · exact haborted

theorem inv_finish {s s' : State} {returns : Bool} (h : Inv r s) (ha : Careful s (.finish returns))
    (hs : limitedStep r s (.finish returns) = some s') : Inv r s' := by
  rw [limitedStep] at hs
  split at hs
  · cases hs
  · cases hs
    refine inv_cancelSource ⟨h.relays, h.within, h.split, h.size, h.dry, h.ended, h.idle, h.taken, h.exceeded,
      fun final taken hfinal hlength => ?_⟩ fun hl hcancels => safe_cancel (s := s) ha hcancels hl
    obtain ⟨rfl, rfl⟩ := Prod.mk.inj (Option.some.inj hfinal)
    have hexceeded : s.exceeded = true := by
      rw [h.exceeded, h.taken]
      exact decide_eq_true hlength
    cases returns with
    | true => rw [if_pos rfl, hexceeded, if_pos rfl]
    | false =>
      rw [ha.finishes rfl] at hexceeded
      cases hexceeded

theorem inv_limitedStep {s s' : State} {a : Action} (h : Inv r s) (ha : Careful s a)
    (hs : limitedStep r s a = some s') : Inv r s' := by
  cases a with
  | read =>
    cases hs
    exact inv_read h ha
  | release =>
    cases hs
    exact h.streamed h.relays.release rfl rfl h.idle
  | cancel =>
    cases hs
    split
    · refine inv_cancelSource_dead (h.shut h.relays.cancel (Stream.cancel_passed _) (Stream.open?_cancel _)
        (Stream.cancel_pulling _)) ?_
      simp [live]
    · exact h
  | answer answer => exact inv_answer h hs
  | resume =>
    rw [limitedStep] at hs
    split at hs
    · next answer hpull =>
      cases hs
      exact inv_resume h hpull
    · cases hs
  | settle =>
    rw [limitedStep] at hs
    split at hs
    · next hpull =>
      cases hs
      exact inv_settle h ha hpull
    · cases hs
  | abort => exact inv_abort h hs
  | outgoingEvent =>
    rw [limitedStep] at hs
    split at hs
    · next hevent =>
      cases hs
      refine inv_cancelReader h fun hreleased hl => safe_cancel ha ?_ hl
      simp [cancelsSource, hreleased, (Bool.and_eq_true_iff.mp hevent).1]
    · cases hs
  | releaseLock =>
    rw [limitedStep] at hs
    split at hs
    · cases hs
      exact ⟨h.relays, h.within, h.split, h.size, h.dry, h.ended, h.idle, h.taken, h.exceeded, h.refused⟩
    · cases hs
  | finish returns => exact inv_finish h ha hs
  | outgoingGone =>
    cases hs
    exact ⟨h.relays, h.within, h.split, h.size, h.dry, h.ended, h.idle, h.taken, h.exceeded, h.refused⟩
  | incomingDestroyed =>
    cases hs
    exact ⟨h.relays, h.within, h.split, h.size, h.dry, h.ended, h.idle, h.taken, h.exceeded, h.refused⟩

theorem prefix_flatten {xs ys : List Bytes} (h : xs <+: ys) : xs.flatten <+: ys.flatten := by
  obtain ⟨zs, rfl⟩ := h
  rw [List.flatten_append]
  exact List.prefix_append _ _

theorem Inv.promise {s : State} (h : Inv r s) : Promise r s := by
  have hdelivered : s.stream.delivered <+: s.stream.passed := List.prefix_append _ _
  exact ⟨prefix_flatten (hdelivered.trans h.relays.passed), (prefix_length_le hdelivered).trans h.within,
    fun hover => by rw [h.relays.sawEnd hover], h.refused⟩

instance (s : State) (a : Action) : Decidable (Careful s a) :=
  decidable_of_iff ((missing s → cancelsSource s a → s.pull ≠ .waiting) ∧
      (missing s → startsPull s a → s.sourceCancelled → s.released) ∧ (a = .finish false → s.exceeded = false))
    ⟨fun h => ⟨h.1, h.2.1, h.2.2⟩, fun h => ⟨h.cancels, h.reads, h.finishes⟩⟩

end TypeFerry.Server.BodyLimit
