import Mathlib.Algebra.Group.Int.Defs
import TypeFerry.Lib.Runs

/-! # The scheduler of the token refresh

`setupTokenRefreshOnExpiry` keeps one handle, `refreshTimeout`, and sets it from three
places: a scheduling, the deferral behind a refresh that is going on, and the handler of
a refresh that failed. Only a scheduling clears what was set before. The delay is computed
in milliseconds and given to a timer that counts to `2 ^ 31 - 1`. -/
namespace TypeFerry.Auth.RefreshScheduler
open TypeFerry.Lib.Runs

/-! ## When to refresh -/

/-- What a scheduling reads of the context: seconds, but for `_tokenReceivedAt`. -/
structure TokenTimes where
  exp : Option ℤ
  iat : Option ℤ
  tokenReceivedAt : Option ℤ
  deriving DecidableEq

/-- The number, unless it is missing; a zero counts as missing. -/
def truthy (x : Option ℤ) : Option ℤ := x.filter (· ≠ 0)

def timeUntilRefresh (refreshBeforeExpirySec exp : ℤ) (context : TokenTimes) (now : ℤ) : ℤ :=
  match truthy context.iat, truthy context.tokenReceivedAt with
  | some iat, some tokenReceivedAt =>
    let tokenTtlMs := (exp - iat) * 1000
    let elapsedMs := now - tokenReceivedAt
    tokenTtlMs - elapsedMs - refreshBeforeExpirySec * 1000
  | _, _ => (exp - now / 1000 - refreshBeforeExpirySec) * 1000

/-- What a timer calls. -/
inductive Callback where
  | scheduleRefresh
  | attemptRefresh
  deriving DecidableEq

inductive Plan where
  | nothing
  /-- a refresh is started at once -/
  | attempt
  | setTimeout (callback : Callback) (delay : ℤ)
  deriving DecidableEq

/-- `scheduleRefresh`, behind the clearing of the handle. -/
def scheduleRefresh (refreshBeforeExpirySec : ℤ) (context : TokenTimes) (isRefreshing : Bool)
    (now : ℤ) : Plan :=
  match truthy context.exp with
  | none => .nothing
  | some exp =>
    let time := timeUntilRefresh refreshBeforeExpirySec exp context now
    if time ≤ 0 then
      if isRefreshing then .setTimeout .scheduleRefresh 1000 else .attempt
    else .setTimeout .attemptRefresh time

/-! ## Never early -/

/-- The longest delay of a timer. -/
def maxDelay : ℤ := 2 ^ 31 - 1

/-- When a timer fires that is set at `now`. -/
def firesAt (now delay : ℤ) : ℤ := if 0 < delay ∧ delay ≤ maxDelay then now + delay else now

/-- When the refresh is started that a scheduling at `now` has planned. -/
def Plan.startsAt (now : ℤ) : Plan → Option ℤ
  | .attempt => some now
  | .setTimeout .attemptRefresh delay => some (firesAt now delay)
  | .setTimeout .scheduleRefresh _ => none
  | .nothing => none

/-- The remaining lifetime in milliseconds: from the token's own times, or from its expiry
and the clock, which counts in whole seconds. -/
def remaining (exp : ℤ) (context : TokenTimes) (time : ℤ) : ℤ :=
  match truthy context.iat, truthy context.tokenReceivedAt with
  | some iat, some tokenReceivedAt => (exp - iat) * 1000 - (time - tokenReceivedAt)
  | _, _ => (exp - time / 1000) * 1000

/-- The refresh is started when the token has no more than the given time left. -/
def NeverEarly (refreshBeforeExpirySec : ℤ) (context : TokenTimes) (isRefreshing : Bool) (now : ℤ) : Prop :=
  ∀ exp, truthy context.exp = some exp → ∀ time,
    (scheduleRefresh refreshBeforeExpirySec context isRefreshing now).startsAt now = some time →
      remaining exp context time ≤ refreshBeforeExpirySec * 1000

section
variable {before exp now : ℤ} {context : TokenTimes}

theorem timeUntilRefresh_eq :
    timeUntilRefresh before exp context now = remaining exp context now - before * 1000 := by
  unfold timeUntilRefresh remaining
  split
  · rfl
  · omega

/-- What is left when the wait is over. -/
theorem remaining_add :
    remaining exp context (now + timeUntilRefresh before exp context now) = before * 1000 := by
  unfold timeUntilRefresh remaining
  cases truthy context.iat with
  | none =>
    dsimp only
    omega
  | some iat =>
    cases truthy context.tokenReceivedAt with
    | none =>
      dsimp only
      omega
    | some tokenReceivedAt =>
      dsimp only
      omega

/-- **Never early.** The refresh is started when the token has no more than
`refreshBeforeExpirySec` left if and only if the wait does not exceed what a timer can count. -/
theorem neverEarly_iff (before : ℤ) (context : TokenTimes) (isRefreshing : Bool) (now : ℤ) :
    NeverEarly before context isRefreshing now ↔ ∀ exp, truthy context.exp = some exp →
      remaining exp context now ≤ before * 1000 + maxDelay := by
  unfold NeverEarly scheduleRefresh
  cases hexp : truthy context.exp with
  | none => simp
  | some exp =>
    simp only [Option.some.injEq, forall_eq']
    have hwait := @timeUntilRefresh_eq before exp now context
    have hmax : 0 ≤ maxDelay := by decide
    by_cases hdue : timeUntilRefresh before exp context now ≤ 0
    · -- The refresh is due: it is started now or not by this scheduling.
      rw [if_pos hdue]
      refine ⟨fun _ => by omega, fun _ time htime => ?_⟩
      cases isRefreshing with
      | true => cases htime
      | false =>
        cases htime
        omega
    · rw [if_neg hdue]
      by_cases hrange : timeUntilRefresh before exp context now ≤ maxDelay
      · have hfires : firesAt now (timeUntilRefresh before exp context now) = _ :=
          if_pos ⟨by omega, hrange⟩
        simp only [Plan.startsAt, hfires, Option.some.injEq, forall_eq', remaining_add]
        omega
      · have hfires : firesAt now (timeUntilRefresh before exp context now) = now :=
          if_neg fun h => hrange h.2
        simp only [Plan.startsAt, hfires, Option.some.injEq, forall_eq']
        omega

end

/-- A token of thirty days that is received at once. -/
theorem longLived_early : ¬ NeverEarly 60 ⟨some 1702592000, some 1700000000, some 1700000000000⟩ false 1700000000000 := by
  intro h
  have hearly := h 1702592000 rfl 1700000000000 rfl
  revert hearly
  decide

/-! ## The scheduler -/

structure Timer where
  handle : ℕ
  callback : Callback
  deriving DecidableEq

structure State where
  context : TokenTimes
  /-- a refresh of the client is going on, of this scheduler or of another caller -/
  isRefreshing : Bool
  refreshTimeout : Option ℕ
  /-- the timers that are armed -/
  timers : List Timer
  nextHandle : ℕ
  /-- `handleContextChange` is a listener of `context:changed` -/
  listening : Bool
  /-- the calls of `handleContextChange` that emits under way have still to make -/
  pending : ℕ
  /-- the refreshes of this scheduler that have not settled -/
  inFlight : ℕ
  /-- how many refreshes it has started -/
  started : ℕ
  /-- the cleanup function has been called -/
  cleaned : Bool

namespace State

/-- `refreshTimeout = setTimeout(callback, …)`. -/
def setTimeout (s : State) (callback : Callback) : State where
  __ := s
  refreshTimeout := some s.nextHandle
  timers := s.timers ++ [⟨s.nextHandle, callback⟩]
  nextHandle := s.nextHandle + 1

/-- `if (refreshTimeout) clearTimeout(refreshTimeout)`. -/
def clearTimeout (s : State) : State where
  __ := s
  timers := s.timers.filter fun timer => decide (s.refreshTimeout ≠ some timer.handle)

/-- The call of `refreshAccessToken`: it leads a refresh, or waits for the one that is going on. -/
def attemptRefresh (s : State) : State where
  __ := s
  isRefreshing := true
  inFlight := s.inFlight + 1
  started := s.started + 1

def follow (s : State) : Plan → State
  | .nothing => s
  | .attempt => s.attemptRefresh
  | .setTimeout callback _ => s.setTimeout callback

def scheduleRefresh (refreshBeforeExpirySec : ℤ) (s : State) (now : ℤ) : State :=
  { s.clearTimeout with refreshTimeout := none }.follow
    (RefreshScheduler.scheduleRefresh refreshBeforeExpirySec s.context s.isRefreshing now)

def call (refreshBeforeExpirySec : ℤ) (s : State) (now : ℤ) : Callback → State
  | .scheduleRefresh => s.scheduleRefresh refreshBeforeExpirySec now
  | .attemptRefresh => s.attemptRefresh

end State

/-- How a refresh of the scheduler settles. -/
inductive Outcome where
  | success
  | authFailure
  | transientFailure
  deriving DecidableEq

inductive Action where
  | setContext (context : TokenTimes)
  /-- another caller starts a refresh, or the refresh that is going on ends -/
  | setRefreshing (isRefreshing : Bool)
  /-- an emit of `context:changed` begins: it walks the listeners of this moment -/
  | emit
  /-- the emit comes to `handleContextChange` -/
  | handleContextChange (now : ℤ)
  /-- a listener before it has thrown -/
  | interrupt
  | fire (handle : ℕ) (now : ℤ)
  | settle (outcome : Outcome)
  | cleanup
  deriving DecidableEq

def step (refreshBeforeExpirySec : ℤ) (s : State) : Action → Option State
  | .setContext context => some { s with context := context }
  | .setRefreshing isRefreshing => some { s with isRefreshing := isRefreshing }
  | .emit => some (if s.listening then { s with pending := s.pending + 1 } else s)
  | .handleContextChange now =>
    if s.pending = 0 then none
    else some ({ s with pending := s.pending - 1 }.scheduleRefresh refreshBeforeExpirySec now)
  | .interrupt => if s.pending = 0 then none else some { s with pending := s.pending - 1 }
  | .fire handle now =>
    match s.timers.find? (·.handle = handle) with
    | none => none
    | some timer =>
      some ({ s with timers := s.timers.filter (·.handle ≠ handle) }.call refreshBeforeExpirySec now
        timer.callback)
  | .settle outcome =>
    if s.inFlight = 0 then none
    else
      let s := { s with inFlight := s.inFlight - 1 }
      -- `setTimeout(scheduleRefresh, RETRY_DELAY_MS)`, whatever the handle holds
      some (if outcome = .transientFailure then s.setTimeout .scheduleRefresh else s)
  | .cleanup => some { s.clearTimeout with listening := false, cleaned := true }

/-- Before the first scheduling. -/
def blank (context : TokenTimes) (isRefreshing : Bool) : State :=
  ⟨context, isRefreshing, none, [], 0, false, 0, 0, 0, false⟩

/-- `setupTokenRefreshOnExpiry`, called at `now`. -/
def machine (refreshBeforeExpirySec : ℤ) (context : TokenTimes) (isRefreshing : Bool) (now : ℤ) :
    Machine State Action where
  init := { (blank context isRefreshing).scheduleRefresh refreshBeforeExpirySec now with listening := true }
  step := step refreshBeforeExpirySec

/-! ## What becomes of the timers -/

/-- At most one timer is armed, and after the cleanup none is, nor will any be, and no refresh
is started any more. -/
def ExclusiveAndStops (M : Machine State Action) (ok : State → Action → Prop) : Prop :=
  ∀ s, M.Reach ok s → s.timers.length ≤ 1 ∧
    (s.cleaned = true → ∀ s', M.Steps ok s s' → s'.timers = [] ∧ s'.started = s.started)

/-- A transient failure finds no timer armed and no cleanup done, and the cleanup is not done
while an emit is on its way to `handleContextChange`, unless the token has no expiry. -/
def Undisturbed (s : State) : Action → Prop
  | .settle .transientFailure => s.timers = [] ∧ s.cleaned = false
  | .handleContextChange _ => s.cleaned = true → truthy s.context.exp = none
  | _ => True

/-- What holds along an undisturbed run: the handle is that of the only timer. -/
structure Inv (s : State) : Prop where
  timers : s.timers = [] ∨ ∃ timer, s.timers = [timer] ∧ s.refreshTimeout = some timer.handle
  cleaned : s.cleaned = true → s.timers = [] ∧ s.listening = false

section
variable {before now : ℤ} {s s' : State}

theorem Inv.length_le (h : Inv s) : s.timers.length ≤ 1 := by
  rcases h.timers with hnone | ⟨timer, hone, -⟩
  · simp [hnone]
  · simp [hone]

theorem Inv.clearTimeout (h : Inv s) : s.clearTimeout.timers = [] := by
  rcases h.timers with hnone | ⟨timer, hone, hhandle⟩
  · simp [State.clearTimeout, hnone]
  · simp [State.clearTimeout, hone, hhandle]

/-- A timer is set where none is armed. -/
theorem Inv.setTimeout (h : s.timers = []) (hcleaned : s.cleaned = false) (callback : Callback) :
    Inv (s.setTimeout callback) where
  timers := .inr ⟨⟨s.nextHandle, callback⟩, by rw [State.setTimeout, h]; rfl, rfl⟩
  cleaned hc := by
    rw [show s.cleaned = true from hc] at hcleaned
    cases hcleaned

theorem Inv.unarmed (h : s.timers = []) (hcleaned : s.cleaned = true → s.listening = false) : Inv s :=
  ⟨.inl h, fun hc => ⟨h, hcleaned hc⟩⟩

theorem scheduleRefresh_eq_nothing {refreshBeforeExpirySec : ℤ} {context : TokenTimes} {isRefreshing : Bool} :
    scheduleRefresh refreshBeforeExpirySec context isRefreshing now = .nothing ↔ truthy context.exp = none := by
  unfold scheduleRefresh
  cases truthy context.exp with
  | none => simp
  | some exp =>
    dsimp only
    split
    · split <;> simp
    · simp

/-- A scheduling: nothing is planned exactly for a token without an expiry. -/
theorem Inv.scheduleRefresh (h : Inv s) (hquiet : s.cleaned = true → truthy s.context.exp = none) :
    Inv (s.scheduleRefresh before now) := by
  unfold State.scheduleRefresh
  cases hplan : RefreshScheduler.scheduleRefresh before s.context s.isRefreshing now with
  | nothing => exact .unarmed h.clearTimeout fun hc => (h.cleaned hc).2
  | attempt => exact .unarmed h.clearTimeout fun hc => (h.cleaned hc).2
  | setTimeout callback delay =>
    refine .setTimeout h.clearTimeout ?_ callback
    cases hc : s.cleaned with
    | false => exact hc
    | true =>
      rw [scheduleRefresh_eq_nothing.mpr (hquiet hc)] at hplan
      cases hplan

@[simp] theorem cleaned_scheduleRefresh : (s.scheduleRefresh before now).cleaned = s.cleaned := by
  unfold State.scheduleRefresh
  cases RefreshScheduler.scheduleRefresh before s.context s.isRefreshing now <;> rfl

/-- Without an expiry nothing is planned. -/
theorem scheduleRefresh_quiet (h : truthy s.context.exp = none) :
    s.scheduleRefresh before now = { s.clearTimeout with refreshTimeout := none } := by
  rw [State.scheduleRefresh, scheduleRefresh_eq_nothing.mpr h]
  rfl

theorem inv_init (before : ℤ) (context : TokenTimes) (isRefreshing : Bool) (now : ℤ) :
    Inv (machine before context isRefreshing now).init := by
  have hblank : Inv (blank context isRefreshing) := .unarmed rfl nofun
  have hfirst : Inv ((blank context isRefreshing).scheduleRefresh before now) := hblank.scheduleRefresh nofun
  refine ⟨hfirst.timers, fun hc => ?_⟩
  have hnot : ((blank context isRefreshing).scheduleRefresh before now).cleaned = false :=
    cleaned_scheduleRefresh
  have hfalse : false = true := hnot.symm.trans hc
  cases hfalse

/-- The timer that fires was the only one, and the cleanup has not been called. -/
theorem Inv.fired (h : Inv s) {handle : ℕ} {timer : Timer}
    (hfind : s.timers.find? (·.handle = handle) = some timer) :
    s.timers.filter (·.handle ≠ handle) = [] ∧ s.cleaned = false := by
  have hin := List.mem_of_find?_eq_some hfind
  have hhandle := of_decide_eq_true (List.find?_some (p := fun t : Timer => t.handle = handle) hfind)
  rcases h.timers with hnone | ⟨only, hone, -⟩
  · rw [hnone] at hin
    cases hin
  · rw [hone] at hin
    obtain rfl := List.mem_singleton.mp hin
    refine ⟨by simp [hone, hhandle], ?_⟩
    cases hc : s.cleaned with
    | false => rfl
    | true =>
      have hnone := (h.cleaned hc).1
      rw [hone] at hnone
      cases hnone

theorem Inv.call (h : s.timers = []) (hcleaned : s.cleaned = false) (callback : Callback) :
    Inv (s.call before now callback) := by
  have hs : Inv s := .unarmed h fun hc => by
    rw [hcleaned] at hc
    cases hc
  cases callback with
  | scheduleRefresh =>
    refine hs.scheduleRefresh fun hc => ?_
    rw [hcleaned] at hc
    cases hc
  | attemptRefresh => exact ⟨hs.timers, hs.cleaned⟩

/-- After the cleanup no refresh is started. -/
def Stopped (s s' : State) : Prop := s.cleaned = true → s'.cleaned = true ∧ s'.started = s.started

theorem stopped_of_running (h : s.cleaned = false) : Stopped s s' := by
  intro hc
  rw [h] at hc
  cases hc

/-- What an undisturbed step keeps. -/
theorem Inv.step {a : Action} (h : Inv s) (hok : Undisturbed s a) (hs : step before s a = some s') :
    Inv s' ∧ Stopped s s' := by
  cases a with
  | setContext context =>
    cases hs
    exact ⟨⟨h.timers, h.cleaned⟩, fun hc => ⟨hc, rfl⟩⟩
  | setRefreshing isRefreshing =>
    cases hs
    exact ⟨⟨h.timers, h.cleaned⟩, fun hc => ⟨hc, rfl⟩⟩
  | emit =>
    cases hs
    split
    · exact ⟨⟨h.timers, h.cleaned⟩, fun hc => ⟨hc, rfl⟩⟩
    · exact ⟨h, fun hc => ⟨hc, rfl⟩⟩
  | handleContextChange now =>
    rw [RefreshScheduler.step] at hs
    split at hs
    · cases hs
    · cases hs
      have hpending : Inv { s with pending := s.pending - 1 } := ⟨h.timers, h.cleaned⟩
      refine ⟨hpending.scheduleRefresh hok, fun hc => ⟨cleaned_scheduleRefresh.trans hc, ?_⟩⟩
      rw [scheduleRefresh_quiet (show truthy { s with pending := s.pending - 1 }.context.exp = none from hok hc)]
      rfl
  | interrupt =>
    rw [RefreshScheduler.step] at hs
    split at hs
    · cases hs
    · cases hs
      exact ⟨⟨h.timers, h.cleaned⟩, fun hc => ⟨hc, rfl⟩⟩
  | fire handle now =>
    rw [RefreshScheduler.step] at hs
    split at hs
    · cases hs
    · next timer hfind =>
      cases hs
      obtain ⟨hnone, hcleaned⟩ := h.fired hfind
      exact ⟨.call (s := { s with timers := s.timers.filter (·.handle ≠ handle) }) hnone hcleaned timer.callback,
        stopped_of_running hcleaned⟩
  | settle outcome =>
    rw [RefreshScheduler.step] at hs
    split at hs
    · cases hs
    · cases hs
      cases outcome with
      | success => exact ⟨⟨h.timers, h.cleaned⟩, fun hc => ⟨hc, rfl⟩⟩
      | authFailure => exact ⟨⟨h.timers, h.cleaned⟩, fun hc => ⟨hc, rfl⟩⟩
      | transientFailure =>
        exact ⟨.setTimeout (s := { s with inFlight := s.inFlight - 1 }) hok.1 hok.2 _, stopped_of_running hok.2⟩
  | cleanup =>
    cases hs
    exact ⟨.unarmed h.clearTimeout fun _ => rfl, fun hc => ⟨rfl, rfl⟩⟩

/-- A step that is disturbed leaves a second timer, or one that is armed or a refresh that is
started after the cleanup. -/
theorem undisturbed_of_kept {a : Action} (hs : RefreshScheduler.step before s a = some s')
    (hlength : s'.timers.length ≤ 1) (hstopped : s.cleaned = true → s'.timers = [] ∧ s'.started = s.started) :
    Undisturbed s a := by
  cases a with
  | handleContextChange now =>
    intro hc
    by_contra hexp
    rw [RefreshScheduler.step] at hs
    split at hs
    · cases hs
    · cases hs
      obtain ⟨htimers, hstarted⟩ := hstopped hc
      unfold State.scheduleRefresh at htimers hstarted
      dsimp only at htimers hstarted
      cases hplan : RefreshScheduler.scheduleRefresh before s.context s.isRefreshing now with
      | nothing => exact hexp (scheduleRefresh_eq_nothing.mp hplan)
      | attempt =>
        rw [hplan] at hstarted
        exact Nat.succ_ne_self _ hstarted
      | setTimeout callback delay =>
        rw [hplan] at htimers
        exact List.append_ne_nil_of_right_ne_nil _ (List.cons_ne_nil _ _) htimers
  | settle outcome =>
    cases outcome with
    | success => trivial
    | authFailure => trivial
    | transientFailure =>
      rw [RefreshScheduler.step] at hs
      split at hs
      · cases hs
      · cases hs
        rw [if_pos rfl] at hlength hstopped
        simp only [State.setTimeout, List.length_append, List.length_singleton] at hlength
        refine ⟨List.length_eq_zero_iff.mp (by omega), ?_⟩
        cases hc : s.cleaned with
        | false => rfl
        | true => exact absurd (hstopped hc).1 (List.append_ne_nil_of_right_ne_nil _ (List.cons_ne_nil _ _))
  | _ => trivial

end

section
variable (before : ℤ) (context : TokenTimes) (isRefreshing : Bool) (now : ℤ)

/-- **Undisturbed runs.** In every run in which no transient failure is handled while a timer is
armed or after the cleanup, and no emit reaches the scheduler after the cleanup, at most one timer
is armed and the cleanup stops everything; any other step breaks this at once. -/
theorem exclusive_undisturbed :
    ExclusiveAndStops (machine before context isRefreshing now) Undisturbed ∧
    ∀ s a s', step before s a = some s' → ¬ Undisturbed s a →
        1 < s'.timers.length ∨ s.cleaned = true ∧ (s'.timers ≠ [] ∨ s'.started ≠ s.started) := by
  have hinv : ∀ s, (machine before context isRefreshing now).Reach Undisturbed s → Inv s := fun s hs =>
    hs.invariant Inv (inv_init before context isRefreshing now) fun _ _ _ h hok hstep => (h.step hok hstep).1
  refine ⟨fun s hs => ⟨(hinv s hs).length_le, fun hc s' hs' => ?_⟩, fun s a s' hstep hno => ?_⟩
  · have hstopped : s'.cleaned = true ∧ s'.started = s.started := by
      induction hs' with
      | refl => exact ⟨hc, rfl⟩
      | tail a hs' hok hstep ih =>
        obtain ⟨hc', hstarted⟩ := ((hinv _ (hs.trans hs')).step hok hstep).2 ih.1
        exact ⟨hc', hstarted.trans ih.2⟩
    exact ⟨((hinv s' (hs.trans hs')).cleaned hstopped.1).1, hstopped.2⟩
  · by_contra hkept
    rw [not_or, not_and, not_or, not_not, not_not] at hkept
    exact hno (undisturbed_of_kept hstep (by omega) hkept.2)

end

/-- The token of another tab arrives while a refresh is going on, which then fails. -/
theorem newToken_duringRefresh : ¬ ExclusiveAndStops
    (machine 60 ⟨some 1700000600, none, none⟩ false 1700000000000) anyStep := by
  intro h
  obtain ⟨s, hs, htwo⟩ := Machine.exists_of_exec (machine 60 ⟨some 1700000600, none, none⟩ false 1700000000000)
    anyStep (machine 60 ⟨some 1700000600, none, none⟩ false 1700000000000).init [.fire 0 1700000540000, .setContext ⟨some 1700001140, none, none⟩, .emit,
      .handleContextChange 1700000541000, .settle .transientFailure] (fun s => decide (s.timers.length = 2)) (by decide)
  have hlength := (h s hs).1
  rw [of_decide_eq_true htwo] at hlength
  omega

end TypeFerry.Auth.RefreshScheduler
