import TypeFerry.Lib.Runs

/-! # The wait of a recovery

`waitForRecovery` waits for a subscriber, a timeout or an abort, whichever comes first. All
of them end in one cleanup, and so does the executor itself when the subscriber has settled,
or thrown, before it could give its own cleanup function. Calls are cut where code that is not
the function's own runs: a `settle` may come while `subscribe` is still running. -/
namespace TypeFerry.Client.RecoveryWait
open TypeFerry.Lib.Runs

inductive Settlement where
  | resolved (success : Bool)
  | rejected
  deriving DecidableEq

structure State where
  /-- `subscribe` is running -/
  subscribing : Bool
  unsubscribe : Bool
  settled : Bool
  /-- the timer is armed -/
  timer : Bool
  /-- `onAbort` is a listener of the signal -/
  listener : Bool
  aborted : Bool
  promise : Option Settlement
  /-- `subscribe` has returned a cleanup function -/
  returned : Bool
  /-- the calls of that function -/
  calls : ℕ
  deriving DecidableEq

section
-- Whether the n-th call of the returned cleanup function throws.
variable (throws : ℕ → Bool)

namespace State

/-- `resolve` and `reject`: only the first counts. -/
def settle (s : State) (settlement : Settlement) : State :=
  { s with promise := some (s.promise.getD settlement) }

/-- An error is the state in which the returned function has thrown. -/
def cleanup (s : State) : Except State State :=
  let s := { s with timer := false, listener := false }
  if s.unsubscribe then
    if throws s.calls then .error { s with calls := s.calls + 1 }
    else .ok { s with calls := s.calls + 1, unsubscribe := false }
  else .ok s

def finish (s : State) (success : Bool) : Except State State :=
  if s.settled then .ok s
  else do
    let s ← { s with settled := true }.cleanup throws
    return s.settle (.resolved success)

/-- The `catch` of the executor; what is thrown out of it rejects the promise as well. -/
def fail (s : State) : State :=
  match { s with settled := true }.cleanup throws with
  | .ok s => s.settle .rejected
  | .error s => s.settle .rejected

end State

/-- The state behind a call, which may have thrown. -/
def behind : Except State State → State
  | .ok s => s
  | .error s => s

inductive Action where
  /-- the subscriber calls what it was given -/
  | settle (success : Bool)
  | timeout
  | abort
  /-- `subscribe` returns, with a cleanup function or without -/
  | return (cleanup : Bool)
  | throw
  deriving DecidableEq

def step (s : State) : Action → Option State
  | .settle success => some (behind (s.finish throws success))
  | .timeout =>
    if s.timer = true ∧ s.subscribing = false then
      some (behind ({ s with timer := false }.finish throws false))
    else none
  | .abort =>
    if s.aborted then none
    else if s.listener then
      some (behind ({ s with aborted := true, listener := false }.finish throws false))
    else some { s with aborted := true }
  | .return cleanup =>
    if s.subscribing then
      let s := { s with subscribing := false, unsubscribe := cleanup, returned := cleanup }
      -- A subscriber can settle synchronously before returning its cleanup.
      if s.settled then
        match s.cleanup throws with
        | .ok s => some s
        | .error s => some (s.fail throws)
      else some s
    else none
  | .throw => if s.subscribing then some ({ s with subscribing := false }.fail throws) else none

/-- `waitForRecovery` with a signal that is `aborted` or not. -/
def machine (aborted : Bool) : Machine State Action where
  init :=
    if aborted then ⟨false, false, true, false, false, true, some (.resolved false), false, 0⟩
    else ⟨true, false, false, true, true, false, none, false, 0⟩
  step := step throws

end

/-! ## What is released -/

/-- A timer that stays armed fires. -/
def isTimeout (a : Action) : Prop := a = .timeout

/-- The promise settles, once, and then everything is released. -/
structure Releases (M : Machine State Action) : Prop where
  once : ∀ s, M.Reach anyStep s → ∀ settlement, s.promise = some settlement →
    ∀ s', M.Steps anyStep s s' → s'.promise = some settlement
  settles : ∀ T : Trace M anyStep, T.Fair isTimeout → ∀ n, (T.state n).subscribing = false →
    ∃ m, n ≤ m ∧ (T.state m).promise ≠ none
  released : ∀ s, M.Reach anyStep s → s.promise ≠ none → s.subscribing = false →
    s.timer = false ∧ s.listener = false ∧ s.calls = if s.returned then 1 else 0

/-- The invariant, as long as the returned function does not throw. -/
structure Inv (s : State) : Prop where
  promise : s.promise.isSome = s.settled
  timer : s.timer = !s.settled
  listener : s.settled = true → s.listener = false
  unsubscribe : s.unsubscribe = (s.returned && !s.settled)
  calls : s.calls = if s.returned && s.settled then 1 else 0
  subscribing : s.subscribing = true → s.returned = false

section
variable {throws : ℕ → Bool} {s s' : State}

/-- Behind a cleanup that does not throw. -/
def State.released (s : State) : State where
  __ := s
  timer := false
  listener := false
  unsubscribe := false
  calls := s.calls + s.unsubscribe.toNat

theorem cleanup_eq (h : s.unsubscribe = true → throws s.calls = false) : s.cleanup throws = .ok s.released := by
  unfold State.cleanup State.released
  cases hun : s.unsubscribe with
  | true => simp [h hun]
  | false => simp

/-- Before it is settled the function has not been called. -/
theorem Inv.uncalled (h : Inv s) (hopen : s.settled = false) :
    s.calls = 0 ∧ s.unsubscribe = s.returned ∧ s.promise = none := by
  refine ⟨?_, ?_, ?_⟩
  · rw [h.calls, hopen, Bool.and_false]
    rfl
  · rw [h.unsubscribe, hopen, Bool.not_false, Bool.and_true]
  · rw [← Option.not_isSome_iff_eq_none, h.promise, hopen]
    decide

theorem finish_eq (hopen : s.settled = false) (hcalls : throws s.calls = false) (success : Bool) :
    s.finish throws success = .ok ({ s with settled := true }.released.settle (.resolved success)) := by
  have hcleanup : { s with settled := true }.cleanup throws = _ := cleanup_eq fun _ => hcalls
  rw [State.finish, if_neg (by simp [hopen]), hcleanup]
  rfl

/-- The first settlement, whatever became of the timer and of the signal before it. -/
theorem Inv.finish (hthrows : throws 0 = false) (h : Inv s) (hopen : s.settled = false)
    (timer listener aborted success : Bool) {t : State}
    (ht : t = behind (State.finish throws { s with timer := timer, listener := listener, aborted := aborted } success)) :
    Inv t ∧ t.promise = some (.resolved success) ∧ t.subscribing = s.subscribing := by
  obtain ⟨hcalls, hun, hpromise⟩ := h.uncalled hopen
  have hfinish := @finish_eq throws { s with timer := timer, listener := listener, aborted := aborted } hopen
    ((congrArg throws hcalls).trans hthrows) success
  rw [hfinish] at ht
  subst ht
  refine ⟨⟨rfl, rfl, fun _ => rfl, ?_, ?_, h.subscribing⟩, ?_, rfl⟩
  · simp [behind, State.settle, State.released]
  · simp only [behind, State.settle, State.released, hcalls, hun, Bool.and_true]
    cases s.returned <;> rfl
  · simp [behind, State.settle, State.released, hpromise]

theorem Inv.fail (h : Inv s) (hsub : s.subscribing = true) {t : State}
    (ht : t = State.fail throws { s with subscribing := false }) :
    Inv t ∧ t.promise = some (s.promise.getD .rejected) := by
  have hreturned := h.subscribing hsub
  have hun : s.unsubscribe = false := by rw [h.unsubscribe, hreturned, Bool.false_and]
  have hcalls : s.calls = 0 := by
    rw [h.calls, hreturned, Bool.false_and]
    rfl
  have hcleanup : State.cleanup throws { s with subscribing := false, settled := true } = _ :=
    cleanup_eq fun hyes => absurd (hun.symm.trans hyes) (by decide)
  rw [State.fail, hcleanup] at ht
  subst ht
  refine ⟨⟨rfl, rfl, fun _ => rfl, ?_, ?_, nofun⟩, rfl⟩
  · simp [State.settle, State.released, hreturned]
  · simp [State.settle, State.released, hcalls, hun, hreturned]

/-- `subscribe` returns. -/
theorem Inv.return (hthrows : throws 0 = false) (h : Inv s) (hsub : s.subscribing = true) (cleanup : Bool) {t : State}
    (ht : step throws s (.return cleanup) = some t) : Inv t ∧ t.promise = s.promise := by
  have hreturned := h.subscribing hsub
  have hcalls : s.calls = 0 := by
    rw [h.calls, hreturned, Bool.false_and]
    rfl
  rw [step, if_pos hsub] at ht
  cases hset : s.settled with
  | true =>
    have hcleanup : State.cleanup throws { s with subscribing := false, unsubscribe := cleanup, returned := cleanup } = _ :=
      cleanup_eq fun _ => (congrArg throws hcalls).trans hthrows
    dsimp only at ht
    rw [if_pos hset, hcleanup] at ht
    cases ht
    refine ⟨⟨h.promise, ?_, fun _ => rfl, ?_, ?_, nofun⟩, rfl⟩
    · simp [State.released, hset]
    · simp [State.released, hset]
    · simp only [State.released, hset, hcalls, Bool.and_true]
      cases cleanup <;> rfl
  | false =>
    dsimp only at ht
    rw [if_neg (by simp [hset])] at ht
    cases ht
    refine ⟨⟨h.promise, h.timer, h.listener, ?_, ?_, nofun⟩, rfl⟩
    · simp [hset]
    · simp [hset, hcalls]

/-- What a step does: it settles the promise, or it leaves it as it is. -/
structure Stepped (s s' : State) : Prop where
  inv : Inv s'
  kept : ∀ settlement, s.promise = some settlement → s'.promise = some settlement
  subscribing : s.subscribing = false → s'.subscribing = false

theorem Inv.finished (hthrows : throws 0 = false) (h : Inv s) (hopen : s.settled = false)
    (timer listener aborted success : Bool) {t : State}
    (ht : t = behind (State.finish throws { s with timer := timer, listener := listener, aborted := aborted } success)) :
    Stepped s t := by
  obtain ⟨hinv, -, hsub⟩ := h.finish hthrows hopen timer listener aborted success ht
  refine ⟨hinv, fun settlement hsome => ?_, fun hno => hsub.trans hno⟩
  rw [(h.uncalled hopen).2.2] at hsome
  cases hsome

theorem Inv.step (hthrows : throws 0 = false) (h : Inv s) {a : Action} (hs : step throws s a = some s') :
    Stepped s s' := by
  cases a with
  | settle success =>
    cases hset : s.settled with
    | true =>
      rw [RecoveryWait.step, State.finish, if_pos hset] at hs
      cases hs
      exact ⟨h, fun _ hsome => hsome, id⟩
    | false => exact h.finished hthrows hset s.timer s.listener s.aborted success (Option.some.inj hs).symm
  | timeout =>
    rw [RecoveryWait.step] at hs
    split at hs
    · next hfires =>
      have hopen : s.settled = false := by simpa [h.timer] using hfires.1
      exact h.finished hthrows hopen false s.listener s.aborted false (Option.some.inj hs).symm
    · cases hs
  | abort =>
    rw [RecoveryWait.step] at hs
    split at hs
    · cases hs
    · split at hs
      · next hlistens =>
        have hopen : s.settled = false := by
          cases hset : s.settled with
          | false => rfl
          | true => exact absurd (h.listener hset) (by simp [hlistens])
        exact h.finished hthrows hopen s.timer false true false (Option.some.inj hs).symm
      · cases hs
        exact ⟨⟨h.promise, h.timer, h.listener, h.unsubscribe, h.calls, h.subscribing⟩, fun _ hsome => hsome, id⟩
  | «return» cleanup =>
    cases hsub : s.subscribing with
    | true =>
      obtain ⟨hinv, hpromise⟩ := h.return hthrows hsub cleanup hs
      exact ⟨hinv, fun _ hsome => hpromise.trans hsome, fun hno => absurd (hsub.symm.trans hno) (by decide)⟩
    | false =>
      rw [RecoveryWait.step, if_neg (by simp [hsub])] at hs
      cases hs
  | throw =>
    rw [RecoveryWait.step] at hs
    split at hs
    · next hsub =>
      obtain ⟨hinv, hpromise⟩ := h.fail hsub (Option.some.inj hs).symm
      exact ⟨hinv, fun _ hsome => by rw [hpromise, hsome]; rfl, fun hno => absurd (hsub.symm.trans hno) (by decide)⟩
    · cases hs

theorem inv_init (throws : ℕ → Bool) (aborted : Bool) : Inv (machine throws aborted).init := by
  cases aborted with
  | true => exact ⟨rfl, rfl, fun _ => rfl, rfl, rfl, nofun⟩
  | false => exact ⟨rfl, rfl, nofun, rfl, rfl, fun _ => rfl⟩

end

/-! ## Every run -/

/-- The signal was aborted before: nothing is waited for. -/
theorem inert_of_aborted {throws : ℕ → Bool} {s : State} (h : (machine throws true).Reach anyStep s) :
    s = (machine throws true).init := by
  refine h.invariant (· = (machine throws true).init) rfl fun s a s' hs _ hstep => ?_
  subst hs
  cases a with
  | settle success =>
    cases hstep
    rfl
  | _ => cases hstep

theorem inv_run {throws : ℕ → Bool} {aborted : Bool} (hok : aborted = true ∨ throws 0 = false) {s : State}
    (h : (machine throws aborted).Reach anyStep s) : Inv s := by
  rcases hok with rfl | hthrows
  · rw [inert_of_aborted h]
    exact inv_init throws true
  · exact h.invariant Inv (inv_init throws aborted) fun _ _ _ hinv _ hstep => (hinv.step hthrows hstep).inv

/-- What a step of a run does. -/
theorem stepped_run {throws : ℕ → Bool} {aborted : Bool} (hok : aborted = true ∨ throws 0 = false) {s s' : State}
    {a : Action} (h : (machine throws aborted).Reach anyStep s) (hstep : step throws s a = some s') :
    Stepped s s' := by
  rcases hok with rfl | hthrows
  · have hs' := inert_of_aborted (h.tail a trivial hstep)
    rw [inert_of_aborted h, hs']
    exact ⟨inv_init throws true, fun _ hsome => hsome, id⟩
  · exact (inv_run (.inr hthrows) h).step hthrows hstep

/-- While the promise is pending and `subscribe` is over, the timer is armed. -/
theorem Inv.armed {s : State} (h : Inv s) (hsub : s.subscribing = false) (hnone : s.promise = none)
    (throws : ℕ → Bool) : s.settled = false ∧
      RecoveryWait.step throws s .timeout = some (behind ({ s with timer := false }.finish throws false)) := by
  have hopen : s.settled = false := by
    rw [← h.promise, hnone]
    rfl
  have hfires : s.timer = true ∧ s.subscribing = false := by
    rw [h.timer, hopen]
    exact ⟨rfl, hsub⟩
  exact ⟨hopen, if_pos hfires⟩

theorem settles_run {throws : ℕ → Bool} {aborted : Bool} (hok : aborted = true ∨ throws 0 = false)
    (T : Trace (machine throws aborted) anyStep) (hfair : T.Fair isTimeout) (n : ℕ)
    (hn : (T.state n).subscribing = false) : ∃ m, n ≤ m ∧ (T.state m).promise ≠ none := by
  rcases hok with rfl | hthrows
  · refine ⟨n, le_rfl, ?_⟩
    rw [inert_of_aborted (T.reach n)]
    nofun
  · by_cases hpromise : (T.state n).promise = none
    · refine T.leadsTo hfair (P := fun s => Inv s ∧ s.subscribing = false ∧ s.promise = none)
        (Q := fun s => s.promise ≠ none) (fun _ => 0) ?_ ?_ n ⟨inv_run (.inr hthrows) (T.reach n), hn, hpromise⟩
      · intro s ⟨hinv, hsub, hnone⟩
        exact ⟨.timeout, rfl, Option.isSome_of_eq_some (hinv.armed hsub hnone throws).2⟩
      · intro s a s' _ ⟨hinv, hsub, hnone⟩ _ hstep
        by_cases hsettled : s'.promise = none
        · have hstepped := hinv.step hthrows hstep
          refine .inr ⟨⟨hstepped.inv, hstepped.subscribing hsub, hsettled⟩, le_rfl, fun hown => ?_⟩
          -- The timer settles the promise.
          rw [show a = .timeout from hown] at hstep
          obtain ⟨hopen, htimeout⟩ := hinv.armed hsub hnone throws
          obtain ⟨-, hsome, -⟩ := hinv.finish hthrows hopen false s.listener s.aborted false
            (Option.some.inj (hstep.symm.trans htimeout))
          rw [hsettled] at hsome
          cases hsome
        · exact .inl hsettled
    · exact ⟨n, le_rfl, hpromise⟩

theorem releases_of_gentle {throws : ℕ → Bool} {aborted : Bool} (hok : aborted = true ∨ throws 0 = false) :
    Releases (machine throws aborted) where
  once s hs settlement hsome s' hs' := by
    induction hs' with
    | refl => exact hsome
    | tail a hs' _ hstep ih => exact (stepped_run hok (hs.trans hs') hstep).kept settlement ih
  settles := settles_run hok
  released s hs hsome hsub := by
    have hinv := inv_run hok hs
    have hset : s.settled = true := by rw [← hinv.promise, Option.isSome_iff_ne_none]; exact hsome
    refine ⟨by rw [hinv.timer, hset]; rfl, hinv.listener hset, ?_⟩
    rw [hinv.calls, hset, Bool.and_true]

/-- A function that throws leaves the promise pending for ever. -/
theorem not_settles_of_throws {throws : ℕ → Bool} (h : throws 0 = true) : ¬ Releases (machine throws false) := by
  intro hreleases
  let final : State := ⟨false, true, true, false, false, false, none, true, 1⟩
  have hrun : (machine throws false).exec anyStep (machine throws false).init [.return true, .timeout] = some final := by
    simp [Machine.exec, machine, step, anyStep, State.finish, State.cleanup, behind, h, bind, Except.bind, final]
  have hrest : ∀ a, isTimeout a → (machine throws false).step final a = none := by
    intro a ha
    rw [show a = .timeout from ha]
    rfl
  have hstate : ∀ n, 2 ≤ n → (Trace.ofList _ hrun).state n = final := fun n hn => Trace.ofList_final _ hrun hn
  obtain ⟨m, hm, hsome⟩ := hreleases.settles (.ofList _ hrun) (Trace.ofList_fair _ hrun hrest) 2
    (by rw [hstate 2 le_rfl])
  rw [hstate m hm] at hsome
  exact hsome rfl

/-- **Everything is released.** The promise settles exactly once and then the timer, the listener and
the subscriber's own cleanup are done with, in every run, if and only if the signal was aborted before
or the returned function does not throw when it is first called. -/
theorem releases_iff (throws : ℕ → Bool) (aborted : Bool) :
    Releases (machine throws aborted) ↔ aborted = true ∨ throws 0 = false := by
  refine ⟨fun h => ?_, releases_of_gentle⟩
  cases aborted with
  | true => exact .inl rfl
  | false =>
    cases hthrows : throws 0 with
    | false => exact .inr rfl
    | true => exact absurd h (not_settles_of_throws hthrows)

/-- The function that the subscriber returns always throws. -/
theorem throwingCleanup_stranded : ¬ Releases (machine (fun _ => true) false) := not_settles_of_throws rfl

end TypeFerry.Client.RecoveryWait
