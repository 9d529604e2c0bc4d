import Mathlib.Data.Int.Order.Basic
import Mathlib.Data.List.Basic
import TypeFerry.Lib.Runs

/-! # Throttled functions

`throttle` of `lodash.ts`, which the idle timer and `onAllThrottled` go through. A timer is known by the time at which
it is due, and fires then or later. The clock does not go back, and `fn` does not call the throttled function itself. -/
namespace TypeFerry.Client.Throttle
open TypeFerry.Lib.Runs

structure Options where
  leading : Bool
  trailing : Bool
  deriving DecidableEq

structure State (A : Type) where
  now : ℕ
  timer : Option ℕ
  lastArgs : Option A
  lastCallTime : ℕ
  /-- The calls of the throttled function, and those of `fn`, with their times. Both start again at `cancel`. -/
  calls : List (ℕ × A)
  invoked : List (ℕ × A)

inductive Action (A : Type) where
  | tick (ms : ℕ)
  | call (args : A)
  | fire
  | cancel

section
variable {A : Type}

namespace State
variable (wait : ℕ) (options : Options) (s : State A)

def invoke (args : A) : State A := { s with lastCallTime := s.now, invoked := s.invoked ++ [(s.now, args)] }

def remaining : ℤ := wait - (s.now - s.lastCallTime)

def call (args : A) : State A :=
  let s' := { s with calls := s.calls ++ [(s.now, args)] }
  if s.remaining wait ≤ 0 ∨ wait < s.remaining wait then
    if options.leading then { s' with timer := none }.invoke args
    else { s' with lastArgs := some args, timer := if options.trailing then some (s.now + wait) else none }
  else { s' with
    lastArgs := some args
    timer := if s.timer.isNone ∧ options.trailing then some (s.now + (s.remaining wait).toNat) else s.timer }

/-- The timer's callback. -/
def fire : State A :=
  match s.lastArgs with
  | some args => { { s with timer := none }.invoke args with lastArgs := none }
  | none => { s with timer := none }

def cancel : State A := { s with timer := none, lastArgs := none, lastCallTime := 0, calls := [], invoked := [] }

end State

def step (wait : ℕ) (options : Options) (s : State A) : Action A → Option (State A)
  | .tick ms => some { s with now := s.now + ms }
  | .call args => some (s.call wait options args)
  | .fire => match s.timer with
    | some due => if due ≤ s.now then some s.fire else none
    | none => none
  | .cancel => some s.cancel

def throttle (A : Type) (wait : ℕ) (options : Options) (start : ℕ) : Machine (State A) (Action A) :=
  ⟨⟨start, none, none, 0, [], []⟩, step wait options⟩

/-! ## What every step keeps -/

/-- The last call has come to `fn`, or does when the timer fires, which is due within the wait. -/
def Due (wait : ℕ) (s : State A) (t : ℕ) (args : A) : Prop :=
  (∃ t', s.invoked.getLast? = some (t', args) ∧ t ≤ t') ∨
    ∃ due, s.timer = some due ∧ s.lastArgs = some args ∧ due ≤ t + wait

structure Inv (wait : ℕ) (options : Options) (s : State A) : Prop where
  last : s.lastCallTime ≤ s.now
  spaced : s.invoked.Pairwise fun x y => x.1 + wait ≤ y.1
  invoked (t : ℕ) (args : A) : (t, args) ∈ s.invoked → t ≤ s.lastCallTime
  timer (due : ℕ) : s.timer = some due → s.lastCallTime + wait ≤ due
  called (t : ℕ) (args : A) : (t, args) ∈ s.calls → t ≤ s.now
  due (t : ℕ) (args : A) : options.trailing = true → s.calls.getLast? = some (t, args) → Due wait s t args
  pending (due : ℕ) : s.timer = some due → due ≤ s.now + wait
  /-- What `fn` is given, or waits for the timer, was given to the throttled function before. -/
  given (t : ℕ) (args : A) : (t, args) ∈ s.invoked → ∃ t', (t', args) ∈ s.calls ∧ t' ≤ t
  waiting (args : A) : s.lastArgs = some args → ∃ t, (t, args) ∈ s.calls
  keeps (due t : ℕ) (args : A) : s.timer = some due → s.calls.getLast? = some (t, args) → s.lastArgs = some args
  prompt (due : ℕ) : options.leading = true → s.timer = some due → due = s.lastCallTime + wait

variable {wait : ℕ} {options : Options} {s : State A}

theorem Inv.tick (h : Inv wait options s) (ms : ℕ) : Inv wait options { s with now := s.now + ms } where
  last := Nat.le_add_right_of_le h.last
  spaced := h.spaced
  invoked := h.invoked
  timer := h.timer
  called t args hmem := Nat.le_add_right_of_le (h.called t args hmem)
  due := h.due
  pending due hdue := by
    have hle := h.pending due hdue
    show due ≤ s.now + ms + wait
    omega
  given := h.given
  waiting := h.waiting
  keeps := h.keeps
  prompt := h.prompt

/-- `fn` is called, not too soon, with the arguments of the last call. -/
theorem Inv.invoke (h : Inv wait options s) (hwait : s.lastCallTime + wait ≤ s.now) {args : A}
    {calls : List (ℕ × A)} (hcalls : ∀ x ∈ s.calls, x ∈ calls) (hcalled : ∀ x ∈ calls, x.1 ≤ s.now)
    (hmem : ∃ t, (t, args) ∈ calls) (hlast : ∀ t a, calls.getLast? = some (t, a) → a = args) :
    Inv wait options ({ s with timer := none, calls := calls }.invoke args) where
  last := le_rfl
  spaced := by
    refine List.pairwise_append.mpr ⟨h.spaced, List.pairwise_singleton .., fun x hx y hy => ?_⟩
    obtain rfl := List.mem_singleton.mp hy
    have hle := h.invoked x.1 x.2 hx
    show x.1 + wait ≤ s.now
    omega
  invoked t a hin := by
    rcases List.mem_append.mp hin with hin | hin
    · exact (h.invoked t a hin).trans h.last
    · cases List.mem_singleton.mp hin
      exact le_rfl
  timer due hdue := by cases hdue
  called t a hin := hcalled (t, a) hin
  due t a _ hlatest := by
    obtain rfl := hlast t a hlatest
    exact .inl ⟨s.now, List.getLast?_concat, hcalled _ (List.mem_of_getLast? hlatest)⟩
  pending due hdue := by cases hdue
  given t a hin := by
    rcases List.mem_append.mp hin with hin | hin
    · obtain ⟨t', hold, hle⟩ := h.given t a hin
      exact ⟨t', hcalls _ hold, hle⟩
    · cases List.mem_singleton.mp hin
      obtain ⟨t', hin⟩ := hmem
      exact ⟨t', hin, hcalled _ hin⟩
  waiting a ha := by
    obtain ⟨t, hin⟩ := h.waiting a ha
    exact ⟨t, hcalls _ hin⟩
  keeps due t a hdue := by cases hdue
  prompt due _ hdue := by cases hdue

/-- The arguments are kept for a timer that is due within the wait. -/
theorem Inv.keep (h : Inv wait options s) {args : A} {timer : Option ℕ}
    (htimer : ∀ due, timer = some due → s.lastCallTime + wait ≤ due ∧ due ≤ s.now + wait)
    (hset : options.trailing = true → timer.isSome)
    (hprompt : ∀ due, options.leading = true → timer = some due → due = s.lastCallTime + wait) :
    Inv wait options
      { s with calls := s.calls ++ [(s.now, args)], lastArgs := some args, timer := timer } where
  last := h.last
  spaced := h.spaced
  invoked := h.invoked
  timer due hdue := (htimer due hdue).1
  called t a hin := by
    rcases List.mem_append.mp hin with hin | hin
    · exact h.called t a hin
    · cases List.mem_singleton.mp hin
      exact le_rfl
  due t a htrailing hlatest := by
    rw [List.getLast?_concat] at hlatest
    cases hlatest
    obtain ⟨due, hdue⟩ := Option.isSome_iff_exists.mp (hset htrailing)
    exact .inr ⟨due, hdue, rfl, (htimer due hdue).2⟩
  pending due hdue := (htimer due hdue).2
  given t a hin := by
    obtain ⟨t', hold, hle⟩ := h.given t a hin
    exact ⟨t', List.mem_append_left _ hold, hle⟩
  waiting a ha := by
    cases ha
    exact ⟨s.now, List.mem_append_right _ (List.mem_singleton_self _)⟩
  keeps due t a _ hlatest := by
    rw [List.getLast?_concat] at hlatest
    cases hlatest
    rfl
  prompt := hprompt

theorem Inv.call (h : Inv wait options s) (args : A) : Inv wait options (s.call wait options args) := by
  have hlast := h.last
  rw [State.call]
  dsimp only
  split
  · next hpassed =>
    rw [State.remaining] at hpassed
    have hwait : s.lastCallTime + wait ≤ s.now := by omega
    split
    · refine h.invoke hwait (fun x hx => List.mem_append_left _ hx) (fun x hx => ?_) ?_ fun t a hlatest => ?_
      · rcases List.mem_append.mp hx with hx | hx
        · exact h.called x.1 x.2 hx
        · cases List.mem_singleton.mp hx
          exact le_rfl
      · exact ⟨s.now, List.mem_append_right _ (List.mem_singleton_self _)⟩
      · rw [List.getLast?_concat] at hlatest
        cases hlatest
        rfl
    · next hleading =>
      refine h.keep (fun due hdue => ?_) (fun htrailing => by rw [htrailing]; rfl) fun due hyes => absurd hyes hleading
      split at hdue
      · cases hdue
        exact ⟨by omega, le_rfl⟩
      · cases hdue
  · next hearly =>
    rw [State.remaining] at hearly ⊢
    refine h.keep (fun due hdue => ?_) (fun htrailing => ?_) fun due hleading hdue => ?_
    · split at hdue
      · cases hdue
        omega
      · exact ⟨h.timer due hdue, h.pending due hdue⟩
    · cases htimer : s.timer with
      | none =>
        rw [if_pos ⟨rfl, htrailing⟩]
        rfl
      | some due => rfl
    · split at hdue
      · cases hdue
        omega
      · exact h.prompt due hleading hdue

/-- When the timer fires, the arguments that are kept are those of the last call. -/
theorem Inv.fire (h : Inv wait options s) {due : ℕ} (htimer : s.timer = some due) (hdue : due ≤ s.now) :
    Inv wait options s.fire := by
  rw [State.fire]
  split
  · next args hargs =>
    have hwait : s.lastCallTime + wait ≤ s.now := (h.timer due htimer).trans hdue
    have hlast : ∀ t a, s.calls.getLast? = some (t, a) → a = args := by
      intro t a hlatest
      have hkept := h.keeps due t a htimer hlatest
      exact Option.some.inj (hkept.symm.trans hargs)
    have hfired := h.invoke hwait (fun x hx => hx) (fun x hx => h.called x.1 x.2 hx) (h.waiting args hargs) hlast
    exact { hfired with
      due := fun t a htrailing hlatest => by
        rcases hfired.due t a htrailing hlatest with hdone | ⟨due, hdue, -⟩
        · exact .inl hdone
        · cases hdue
      waiting := nofun
      keeps := nofun }
  · next hnone =>
    exact { h with
      timer := nofun
      due := fun t a htrailing hlatest => by
        rcases h.due t a htrailing hlatest with hdone | ⟨due, -, hkept, -⟩
        · exact .inl hdone
        · rw [hnone] at hkept
          cases hkept
      pending := nofun
      keeps := nofun
      prompt := nofun }

theorem inv_cancel (wait : ℕ) (options : Options) (s : State A) : Inv wait options s.cancel where
  last := Nat.zero_le _
  spaced := .nil
  invoked := nofun
  timer := nofun
  called := nofun
  due := nofun
  pending := nofun
  given := nofun
  waiting := nofun
  keeps := nofun
  prompt := nofun

theorem inv_of_reach {start : ℕ} (h : (throttle A wait options start).Reach anyStep s) : Inv wait options s := by
  refine h.invariant (Inv wait options) ⟨Nat.zero_le _, .nil, nofun, nofun, nofun, nofun, nofun, nofun, nofun, nofun,
    nofun⟩ fun s a s' hs _ hstep => ?_
  cases a with
  | tick ms =>
    cases hstep
    exact hs.tick ms
  | call args =>
    cases hstep
    exact hs.call args
  | fire =>
    change (match s.timer with | some due => _ | none => none) = some s' at hstep
    split at hstep
    · next due htimer =>
      obtain ⟨hdue, heq⟩ := Option.ite_none_right_eq_some.mp hstep
      cases heq
      exact hs.fire htimer hdue
    · cases hstep
  | cancel =>
    cases hstep
    exact inv_cancel wait options s

/-! ## What a throttled function promises -/

/-- What holds since the last `cancel`. -/
structure Exact (wait : ℕ) (options : Options) (s : State A) : Prop where
  spaced : s.invoked.Pairwise fun x y => x.1 + wait ≤ y.1
  given (t : ℕ) (args : A) : (t, args) ∈ s.invoked → ∃ t', (t', args) ∈ s.calls ∧ t' ≤ t
  due (t : ℕ) (args : A) : options.trailing = true → s.calls.getLast? = some (t, args) → Due wait s t args
  /-- A call that waits does not wait for longer than it has to. -/
  prompt (due : ℕ) : options.leading = true → s.timer = some due → due = s.lastCallTime + wait

end

end TypeFerry.Client.Throttle
