import Mathlib.Data.List.Infix

/-! # Readable streams

A stream of the web platform whose queue holds nothing in advance: it is filled
by a pull algorithm, which is called when a read finds the queue empty, and once
more when it is done if a read was made meanwhile. What the consumer was given,
and whether it was told that the stream is over, is kept with the stream. -/
namespace TypeFerry.Lib.Streams

inductive StreamState where
  | readable
  | closed
  | errored
deriving DecidableEq

structure Stream (α : Type*) where
  state : StreamState
  queue : List α
  closeRequested : Bool
  /-- The number of reads that wait for a chunk. -/
  pending : ℕ
  pulling : Bool
  pullAgain : Bool
  /-- The chunks that reads were given. -/
  delivered : List α
  /-- The consumer has cancelled the stream. -/
  cancelled : Bool
  /-- A read was told that the stream is over, though the consumer had not cancelled it. -/
  sawEnd : Bool

variable {α : Type*}

namespace Stream

def init : Stream α := ⟨.readable, [], false, 0, false, false, [], false, false⟩

/-- `ReadableStreamDefaultControllerCanCloseOrEnqueue` -/
def open? (s : Stream α) : Bool := s.state = .readable ∧ s.closeRequested = false

/-- All reads that wait, or one that is made now, are told that the stream is over. -/
def tell (s : Stream α) : Stream α := { s with sawEnd := s.sawEnd || !s.cancelled }

/-- The stream is closed, and the reads that wait are told so. -/
def finish (s : Stream α) : Stream α :=
  let s := { s with state := .closed }
  if s.pending = 0 then s else { s.tell with pending := 0 }

/-- `reader.read()`, up to the call of the pull algorithm. -/
def read (s : Stream α) : Stream α :=
  match s.state, s.queue with
  | .closed, _ => s.tell
  | .errored, _ => s
  | .readable, [] => { s with pending := s.pending + 1 }
  | .readable, x :: queue =>
    let s := { s with queue := queue, delivered := s.delivered ++ [x] }
    if s.closeRequested && queue.isEmpty then s.finish else s

/-- `reader.releaseLock()`: the reads that wait are refused. -/
def release (s : Stream α) : Stream α := { s with pending := 0 }

/-- `ReadableStreamDefaultControllerCallPullIfNeeded`, and whether it calls the algorithm. -/
def pullIfNeeded (s : Stream α) : Stream α × Bool :=
  if s.open? && s.pending != 0 then
    if s.pulling then ({ s with pullAgain := true }, false) else ({ s with pulling := true }, true)
  else (s, false)

/-- The pull algorithm is done. -/
def pulled (s : Stream α) : Stream α × Bool :=
  if s.pullAgain then { s with pulling := false, pullAgain := false }.pullIfNeeded
  else ({ s with pulling := false }, false)

/-- `controller.enqueue(chunk)` of the pull algorithm; it throws if it cannot. -/
def enqueue (x : α) (s : Stream α) : Option (Stream α) :=
  if s.open? then
    some (if s.pending = 0 then { s with queue := s.queue ++ [x] }
      else { s with pending := s.pending - 1, delivered := s.delivered ++ [x] }).pullIfNeeded.1
  else none

/-- `controller.close()`; it throws if it cannot. -/
def close (s : Stream α) : Option (Stream α) :=
  if s.open? then
    let s := { s with closeRequested := true }
    some (if s.queue.isEmpty then s.finish else s)
  else none

/-- `controller.error(reason)`: the reads that wait are refused. -/
def error (s : Stream α) : Stream α :=
  if s.state = .readable then { s with state := .errored, queue := [], pending := 0 } else s

/-- `stream.cancel(reason)` on a stream that is readable, up to the call of the cancel algorithm. -/
def cancel (s : Stream α) : Stream α := { { s with cancelled := true }.finish with queue := [] }

/-- The chunks that went into the stream, less what was thrown away. -/
def passed (s : Stream α) : List α := s.delivered ++ s.queue

/-! ## What the operations leave -/

section
variable (s : Stream α)

@[simp] theorem tell_passed : s.tell.passed = s.passed := rfl

@[simp] theorem tell_delivered : s.tell.delivered = s.delivered := rfl

@[simp] theorem finish_passed : s.finish.passed = s.passed := by
  unfold finish
  dsimp only
  split <;> rfl

@[simp] theorem finish_delivered : s.finish.delivered = s.delivered := by
  unfold finish
  dsimp only
  split <;> rfl

@[simp] theorem finish_queue : s.finish.queue = s.queue := by
  unfold finish
  dsimp only
  split <;> rfl

@[simp] theorem finish_cancelled : s.finish.cancelled = s.cancelled := by
  unfold finish
  dsimp only
  split <;> rfl

@[simp] theorem finish_state : s.finish.state = .closed := by
  unfold finish
  dsimp only
  split <;> rfl

theorem finish_over (h : s.finish.sawEnd) : s.sawEnd ∨ s.cancelled = false := by
  unfold finish at h
  dsimp only at h
  split at h
  · exact .inl h
  · simpa [tell] using h

@[simp] theorem open?_finish : s.finish.open? = false := by simp [open?]

@[simp] theorem pullIfNeeded_passed : s.pullIfNeeded.1.passed = s.passed := by
  unfold pullIfNeeded
  split
  · split <;> rfl
  · rfl

@[simp] theorem open?_pullIfNeeded : s.pullIfNeeded.1.open? = s.open? := by
  unfold pullIfNeeded
  split
  · split <;> rfl
  · rfl

@[simp] theorem pulled_passed : s.pulled.1.passed = s.passed := by
  unfold pulled
  split
  · exact pullIfNeeded_passed _
  · rfl

@[simp] theorem open?_pulled : s.pulled.1.open? = s.open? := by
  unfold pulled
  split
  · exact open?_pullIfNeeded _
  · rfl

@[simp] theorem read_passed : s.read.passed = s.passed := by
  unfold read
  split
  · rfl
  · rfl
  · rfl
  · next x queue _ hqueue =>
    have hpassed : s.delivered ++ [x] ++ queue = s.passed := by simp [passed, hqueue]
    dsimp only
    split
    · rw [finish_passed]
      exact hpassed
    · exact hpassed

@[simp] theorem open?_read : s.read.open? = s.open? := by
  unfold read
  split
  · rfl
  · rfl
  · rfl
  · dsimp only
    split
    · next h =>
      rw [Bool.and_eq_true] at h
      simp [open?, h.1]
    · rfl

@[simp] theorem release_passed : s.release.passed = s.passed := rfl

@[simp] theorem open?_release : s.release.open? = s.open? := rfl

@[simp] theorem open?_error : s.error.open? = false := by
  unfold error open?
  split
  · rfl
  · next h => simp [h]

@[simp] theorem open?_cancel : s.cancel.open? = false := by simp [cancel, open?]

theorem error_passed : s.error.passed <+: s.passed := by
  unfold error
  split
  · simp [passed]
  · exact List.prefix_rfl

theorem cancel_passed : s.cancel.passed <+: s.passed := by simp [cancel, passed]

@[simp] theorem finish_pulling : s.finish.pulling = s.pulling := by
  unfold finish
  dsimp only
  split <;> rfl

@[simp] theorem read_pulling : s.read.pulling = s.pulling := by
  unfold read
  split
  · rfl
  · rfl
  · rfl
  · dsimp only
    split
    · exact finish_pulling _
    · rfl

@[simp] theorem release_pulling : s.release.pulling = s.pulling := rfl

@[simp] theorem error_pulling : s.error.pulling = s.pulling := by
  unfold error
  split <;> rfl

@[simp] theorem cancel_pulling : s.cancel.pulling = s.pulling := finish_pulling _

/-- The pull algorithm is called if it does not run. -/
theorem pulling_of_not_started (h : s.pullIfNeeded.2 = false) : s.pullIfNeeded.1.pulling = s.pulling := by
  unfold pullIfNeeded at h ⊢
  split
  · next hneeded =>
    rw [if_pos hneeded] at h
    split
    · rfl
    · next hpulling =>
      rw [if_neg hpulling] at h
      cases h
  · rfl

theorem pulling_of_started (h : s.pullIfNeeded.2 = true) :
    s.pulling = false ∧ s.pullIfNeeded.1.pulling = true := by
  unfold pullIfNeeded at h ⊢
  split
  · next hneeded =>
    rw [if_pos hneeded] at h
    split
    · next hpulling =>
      rw [if_pos hpulling] at h
      cases h
    · next hpulling => exact ⟨Bool.eq_false_iff.mpr hpulling, rfl⟩
  · next hneeded =>
    rw [if_neg hneeded] at h
    cases h

theorem pulled_pulling : s.pulled.1.pulling = s.pulled.2 := by
  unfold pulled
  split
  · cases hstart : ({ s with pulling := false, pullAgain := false } : Stream α).pullIfNeeded.2 with
    | true => exact (pulling_of_started _ hstart).2
    | false => exact pulling_of_not_started _ hstart
  · rfl

end

/-! ## A stream that relays a body -/

/-- What the consumer gets is a beginning of the body, and all of it before it is told that the
stream is over. -/
structure Relays (body : List α) (s : Stream α) : Prop where
  passed : s.passed <+: body
  waiting : s.pending ≠ 0 → s.queue = []
  closing : s.closeRequested → s.state = .readable → s.passed = body
  closed : s.state = .closed → s.cancelled = false → s.delivered = body
  sawEnd : s.sawEnd → s.delivered = body

section
variable {body : List α} {s s' : Stream α} {x : α}

theorem relays_init : Relays body init := ⟨List.nil_prefix, nofun, nofun, nofun, nofun⟩

/-- A stream that is closed has delivered the whole body, if that is what went into it. -/
theorem Relays.finish (h : Relays body s) (hqueue : s.queue = []) (hpassed : s.cancelled = false → s.passed = body) :
    Relays body s.finish := by
  have hdelivered : s.cancelled = false → s.delivered = body := fun hc => by
    rw [← hpassed hc, Stream.passed, hqueue, List.append_nil]
  refine ⟨by rw [finish_passed]; exact h.passed, fun _ => by rw [finish_queue, hqueue], fun _ hs => ?_,
    fun _ hc => ?_, fun hover => ?_⟩
  · rw [finish_state] at hs
    cases hs
  · rw [finish_cancelled] at hc
    rw [finish_delivered, hdelivered hc]
  · rw [finish_delivered]
    rcases finish_over s hover with hover | hc
    · exact h.sawEnd hover
    · exact hdelivered hc

theorem Relays.read (h : Relays body s) : Relays body s.read := by
  unfold Stream.read
  split
  · next hstate =>
    refine ⟨h.passed, h.waiting, h.closing, h.closed, fun hover => ?_⟩
    simp only [tell, Bool.or_eq_true, Bool.not_eq_eq_eq_not, Bool.not_true] at hover
    exact hover.elim h.sawEnd (h.closed hstate)
  · exact h
  · next hqueue => exact ⟨h.passed, fun _ => hqueue, h.closing, h.closed, h.sawEnd⟩
  · next x queue hstate hqueue =>
    have hnone : s.pending = 0 := by
      by_contra hpending
      rw [h.waiting hpending] at hqueue
      cases hqueue
    have hpassed : s.delivered ++ [x] ++ queue = s.passed := by simp [Stream.passed, hqueue]
    have hread : Relays body { s with queue := queue, delivered := s.delivered ++ [x] } := by
      refine ⟨show s.delivered ++ [x] ++ queue <+: body from hpassed ▸ h.passed, fun hpending => absurd hnone hpending,
        fun hclosing hs => hpassed.trans (h.closing hclosing hs), fun hclosed => ?_, fun hover => ?_⟩
      · rw [show s.state = _ from hstate] at hclosed
        cases hclosed
      · -- Nothing is left to read once the consumer was told that the stream is over.
        have hall := h.passed
        rw [← h.sawEnd hover, Stream.passed, hqueue] at hall
        have hlength := hall.length_le
        rw [List.length_append, List.length_cons] at hlength
        omega
    dsimp only
    split
    · next hlast =>
      rw [Bool.and_eq_true, List.isEmpty_iff] at hlast
      exact hread.finish hlast.2 fun _ => hread.closing hlast.1 hstate
    · exact hread

theorem Relays.release (h : Relays body s) : Relays body s.release :=
  ⟨h.passed, fun hpending => absurd rfl hpending, h.closing, h.closed, h.sawEnd⟩

theorem Relays.pullIfNeeded (h : Relays body s) : Relays body s.pullIfNeeded.1 := by
  unfold Stream.pullIfNeeded
  split
  · split <;> exact ⟨h.passed, h.waiting, h.closing, h.closed, h.sawEnd⟩
  · exact h

theorem Relays.pulled (h : Relays body s) : Relays body s.pulled.1 := by
  have hcleared : ∀ again, Relays body { s with pulling := false, pullAgain := again } := fun again =>
    ⟨h.passed, h.waiting, h.closing, h.closed, h.sawEnd⟩
  unfold Stream.pulled
  split
  · exact (hcleared false).pullIfNeeded
  · exact hcleared s.pullAgain

theorem open_iff : s.open? = true ↔ s.state = .readable ∧ s.closeRequested = false := by simp [open?]

theorem enqueue_passed (h : Relays body s) (hs : s.enqueue x = some s') : s'.passed = s.passed ++ [x] := by
  unfold enqueue at hs
  split at hs
  · cases hs
    rw [pullIfNeeded_passed]
    split
    · simp [Stream.passed]
    · next hpending => simp [Stream.passed, h.waiting hpending]
  · cases hs

theorem open_of_enqueue (h : s.enqueue x = some s') : s.open? = true ∧ s'.open? = true := by
  unfold enqueue at h
  split at h
  · next hopen =>
    cases h
    rw [open?_pullIfNeeded]
    split <;> exact ⟨hopen, hopen⟩
  · cases h

theorem enqueue_pulling (h : s.enqueue x = some s') (hpulling : s.pulling = true) : s'.pulling = true := by
  unfold enqueue at h
  split at h
  · cases h
    generalize hfilled : (if s.pending = 0 then { s with queue := s.queue ++ [x] }
      else { s with pending := s.pending - 1, delivered := s.delivered ++ [x] }) = filled
    have hfilled' : filled.pulling = true := by
      rw [← hfilled]
      split <;> exact hpulling
    cases hstart : filled.pullIfNeeded.2 with
    | true => exact (pulling_of_started _ hstart).2
    | false => exact (pulling_of_not_started _ hstart).trans hfilled'
  · cases h

theorem close_pulling (h : s.close = some s') : s'.pulling = s.pulling := by
  unfold close at h
  split at h
  · cases h
    dsimp only
    split
    · exact finish_pulling _
    · rfl
  · cases h

theorem Relays.enqueue (h : Relays body s) (hx : s.passed ++ [x] <+: body) (hs : s.enqueue x = some s') :
    Relays body s' := by
  -- There is more to come, so the consumer was not told that the stream is over.
  have hover : ¬s.sawEnd := by
    intro hover
    have hlength := hx.length_le
    rw [← h.sawEnd hover, Stream.passed, List.length_append, List.length_append, List.length_singleton] at hlength
    omega
  unfold Stream.enqueue at hs
  split at hs
  · next hopen =>
    rw [open_iff] at hopen
    have hclosing : ¬s.closeRequested := by simp [hopen.2]
    have hstate : s.state ≠ .closed := by simp [hopen.1]
    cases hs
    refine Relays.pullIfNeeded ?_
    split
    · next hpending =>
      exact ⟨by rwa [Stream.passed, ← List.append_assoc], fun hne => absurd hpending hne,
        fun hc => absurd hc hclosing, fun hc => absurd hc hstate, fun ho => absurd ho hover⟩
    · next hpending =>
      have hqueue := h.waiting hpending
      refine ⟨?_, fun _ => hqueue, fun hc => absurd hc hclosing, fun hc => absurd hc hstate,
        fun ho => absurd ho hover⟩
      rw [Stream.passed, hqueue, List.append_nil] at hx ⊢
      exact hx
  · cases hs

theorem open_of_close (h : s.close = some s') : s.open? = true ∧ s'.open? = false := by
  unfold close at h
  split at h
  · next hopen =>
    cases h
    refine ⟨hopen, ?_⟩
    dsimp only
    split
    · exact open?_finish _
    · simp [open?]
  · cases h

theorem close_passed (h : s.close = some s') : s'.passed = s.passed := by
  unfold close at h
  split at h
  · cases h
    dsimp only
    split
    · exact finish_passed _
    · rfl
  · cases h

theorem Relays.close (h : Relays body s) (hall : s.passed = body) (hs : s.close = some s') : Relays body s' := by
  unfold Stream.close at hs
  split at hs
  · have hclosing : Relays body { s with closeRequested := true } :=
      ⟨h.passed, h.waiting, fun _ _ => hall, h.closed, h.sawEnd⟩
    cases hs
    dsimp only
    split
    · next hqueue => exact hclosing.finish (List.isEmpty_iff.mp hqueue) fun _ => hall
    · exact hclosing
  · cases hs

theorem Relays.error (h : Relays body s) : Relays body s.error := by
  unfold Stream.error
  split
  · refine ⟨?_, fun _ => rfl, nofun, nofun, h.sawEnd⟩
    rw [Stream.passed, List.append_nil]
    exact (List.prefix_append s.delivered s.queue).trans h.passed
  · exact h

theorem Relays.cancel (h : Relays body s) : Relays body s.cancel := by
  refine ⟨(cancel_passed s).trans h.passed, fun _ => rfl, fun _ hs => ?_, fun _ hc => ?_, fun hover => ?_⟩
  · rw [show s.cancel.state = .closed from finish_state _] at hs
    cases hs
  · rw [show s.cancel.cancelled = true from finish_cancelled _] at hc
    cases hc
  · rw [show s.cancel.delivered = s.delivered from finish_delivered _]
    rcases finish_over { s with cancelled := true } hover with ho | hc
    · exact h.sawEnd ho
    · cases hc

end

end Stream

end TypeFerry.Lib.Streams
