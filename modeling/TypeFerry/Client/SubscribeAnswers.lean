import TypeFerry.Lib.Runs
import TypeFerry.Server.Membership

/-! # What a `subscribe` resolves with

The callers of `subscribe` do not wait for an answer of their own: every `rpc:on` of the
channel ends in one emit of `commit:pending:subscriptions`, and that emit resolves every
caller who is waiting, whichever call had its events. -/
namespace TypeFerry.Client.SubscribeAnswers
open TypeFerry.Lib.Numeral TypeFerry.Lib.Runs
open TypeFerry.Server.Rooms (addTo)
open TypeFerry.Server.Membership (mem_foldl_addTo)

/-- What comes of an `rpc:on`: the server says of each of its events whether it is subscribed
to, or the call fails. -/
inductive Outcome where
  | answered (answer : Text → Bool)
  | failed

structure RpcOn where
  events : List Text
  /-- none as long as it is in flight -/
  outcome : Option Outcome

/-- A caller that waits for the emit. -/
structure Waiter where
  events : List Text
  /-- how many calls had been sent when it subscribed -/
  sentBefore : ℕ
  deriving DecidableEq

structure Resolution where
  caller : Waiter
  result : List (Text × Bool)
  /-- the 15 s wait ran out -/
  ranOut : Bool

structure State where
  pendingSubscriptions : List Text
  /-- the debounce timer is armed -/
  armed : Bool
  /-- every `rpc:on`, in the order in which they were sent -/
  calls : List RpcOn
  waiters : List Waiter
  resolutions : List Resolution

def init : State := ⟨[], false, [], [], []⟩

namespace State

def subscribe (s : State) (events : List Text) : State :=
  if events.isEmpty then s
  else
    { s with pendingSubscriptions := events.foldl (fun set event => addTo event set) s.pendingSubscriptions
             armed := true
             waiters := s.waiters ++ [⟨events, s.calls.length⟩] }

def commitPendingSubscriptions (s : State) : State :=
  let allEvents := s.pendingSubscriptions
  let s := { s with pendingSubscriptions := [] }
  if allEvents.isEmpty then s else { s with calls := s.calls ++ [⟨allEvents, none⟩] }

/-- What the emit passes on: an empty object for a call that failed. -/
def resultOf (events : List Text) : Outcome → List (Text × Bool)
  | .answered answer => events.map fun event => (event, answer event)
  | .failed => []

/-- `emit(COMMIT_PENDING_SUBSCRIPTIONS, result)`. -/
def emit (s : State) (result : List (Text × Bool)) : State :=
  { s with waiters := [], resolutions := s.resolutions ++ s.waiters.map fun caller => ⟨caller, result, false⟩ }

end State

inductive Action where
  | subscribe (events : List Text)
  /-- the debounce timer fires -/
  | fire
  /-- an `rpc:on` that is in flight completes -/
  | complete (number : ℕ) (outcome : Outcome)
  /-- the wait of a caller runs out -/
  | expire (waiter : ℕ)

def step (s : State) : Action → Option State
  | .subscribe events => some (s.subscribe events)
  | .fire => if s.armed then some { s with armed := false }.commitPendingSubscriptions else none
  | .complete number outcome =>
    match s.calls[number]? with
    | some ⟨events, none⟩ =>
      some ({ s with calls := s.calls.set number ⟨events, some outcome⟩ }.emit (State.resultOf events outcome))
    | _ => none
  | .expire waiter =>
    match s.waiters[waiter]? with
    | some caller =>
      some { s with waiters := s.waiters.eraseIdx waiter, resolutions := s.resolutions ++ [⟨caller, [], true⟩] }
    | none => none

def machine : Machine State Action := ⟨init, step⟩

/-! ## Whose answer it is -/

/-- The result has the server's answer for every event of the caller, from an `rpc:on` that was
sent after the call and had the event, unless that failed or the wait ran out. -/
def Answered (s : State) (r : Resolution) : Prop :=
  r.ranOut = true ∨ ∀ event ∈ r.caller.events, ∃ number call outcome, r.caller.sentBefore ≤ number ∧
    s.calls[number]? = some call ∧ event ∈ call.events ∧ call.outcome = some outcome ∧
      match outcome with
      | .answered answer => r.result.lookup event = some (answer event)
      | .failed => True

def OwnAnswers (s : State) : Prop := ∀ r ∈ s.resolutions, Answered s r

/-- It holds in every state of the runs whose steps meet the condition. -/
def OwnAnswersAlong (ok : State → Action → Prop) : Prop := ∀ s, machine.Reach ok s → OwnAnswers s

/-- The `rpc:on` that completes is the first that was sent after the call of each caller who is
waiting, or a later one that has all of the caller's events once more. -/
def InTurn (s : State) : Action → Prop
  | .complete number _ => ∀ caller ∈ s.waiters, caller.sentBefore = number ∨ caller.sentBefore < number ∧
      ∀ call, s.calls[number]? = some call → ∀ event ∈ caller.events, event ∈ call.events
  | _ => True

/-- What holds of a caller who is waiting: its events are pending, or they are in the first call
after it, and no call after it has completed. -/
structure Waits (s : State) (caller : Waiter) : Prop where
  events : caller.events ≠ []
  sentBefore : caller.sentBefore ≤ s.calls.length
  pending : caller.sentBefore = s.calls.length → ∀ event ∈ caller.events, event ∈ s.pendingSubscriptions
  sent : ∀ call, s.calls[caller.sentBefore]? = some call → ∀ event ∈ caller.events, event ∈ call.events
  inFlight : ∀ number call, caller.sentBefore ≤ number → s.calls[number]? = some call → call.outcome = none

/-! ## The callers who wait -/

section
variable {s s' : State} {caller : Waiter}

/-- More events are pending. -/
theorem Waits.pend (h : Waits s caller) (hcalls : s'.calls = s.calls)
    (hpending : ∀ event ∈ s.pendingSubscriptions, event ∈ s'.pendingSubscriptions) : Waits s' caller where
  events := h.events
  sentBefore := hcalls ▸ h.sentBefore
  pending hlast event he := hpending event (h.pending (hcalls ▸ hlast) event he)
  sent := hcalls ▸ h.sent
  inFlight := hcalls ▸ h.inFlight

/-- The pending events are sent. -/
theorem Waits.send (h : Waits s caller) (hcalls : s'.calls = s.calls ++ [⟨s.pendingSubscriptions, none⟩]) :
    Waits s' caller where
  events := h.events
  sentBefore := by
    rw [hcalls, List.length_append]
    exact Nat.le_add_right_of_le h.sentBefore
  pending hlast := by
    have hle := h.sentBefore
    rw [hcalls, List.length_append, List.length_singleton] at hlast
    omega
  sent call hcall := by
    rw [hcalls, List.getElem?_append] at hcall
    split at hcall
    · exact h.sent call hcall
    · next hnot =>
      have hlast : caller.sentBefore = s.calls.length := Nat.le_antisymm h.sentBefore (Nat.le_of_not_lt hnot)
      rw [hlast, Nat.sub_self, List.getElem?_cons_zero] at hcall
      cases hcall
      exact h.pending hlast
  inFlight number call hle hcall := by
    rw [hcalls, List.getElem?_append] at hcall
    split at hcall
    · exact h.inFlight number call hle hcall
    · rw [List.mem_singleton.mp (List.mem_of_getElem? hcall)]

theorem waits_new {events : List Text} (hevents : events ≠ []) :
    Waits (s.subscribe events) ⟨events, s.calls.length⟩ := by
  rw [State.subscribe, if_neg (by simpa using hevents)]
  refine ⟨hevents, le_rfl, fun _ event he => (mem_foldl_addTo events _).mpr (.inr he), ?_, ?_⟩
  · intro call hcall
    rw [List.getElem?_eq_none le_rfl] at hcall
    cases hcall
  · intro number call hle hcall
    rw [List.getElem?_eq_none hle] at hcall
    cases hcall

/-- What every step keeps. -/
def AllWait (s : State) : Prop := ∀ caller ∈ s.waiters, Waits s caller

theorem AllWait.commit (h : AllWait s) : AllWait { s with armed := false }.commitPendingSubscriptions := by
  unfold State.commitPendingSubscriptions
  dsimp only
  split
  · next hnone =>
    rw [List.isEmpty_iff] at hnone
    exact fun caller hin => (h caller hin).pend rfl fun event he => by rwa [hnone] at he
  · exact fun caller hin => (h caller hin).send rfl

theorem AllWait.subscribe (h : AllWait s) (events : List Text) : AllWait (s.subscribe events) := by
  cases events with
  | nil => exact h
  | cons event events =>
    intro caller hin
    rcases List.mem_append.mp hin with hin | hin
    · exact (h caller hin).pend rfl fun e he => (mem_foldl_addTo _ _).mpr (.inl he)
    · rw [List.mem_singleton.mp hin]
      exact waits_new (List.cons_ne_nil _ _)

theorem AllWait.step {a : Action} (h : AllWait s) (hs : step s a = some s') : AllWait s' := by
  cases a with
  | subscribe events =>
    cases hs
    exact h.subscribe events
  | fire =>
    rw [SubscribeAnswers.step] at hs
    split at hs
    · cases hs
      exact h.commit
    · cases hs
  | complete number outcome =>
    rw [SubscribeAnswers.step] at hs
    split at hs
    · cases hs
      exact nofun
    · cases hs
  | expire waiter =>
    rw [SubscribeAnswers.step] at hs
    split at hs
    · cases hs
      exact fun caller hin => (h caller (List.mem_of_mem_eraseIdx hin)).pend rfl fun _ he => he
    · cases hs

/-! ## The answers -/

/-- A call that has completed stays as it is. -/
def Extends (s s' : State) : Prop := ∀ (number : ℕ) (call : RpcOn) (outcome : Outcome), s.calls[number]? = some call →
  call.outcome = some outcome → s'.calls[number]? = some call

theorem Answered.extend {r : Resolution} (h : Answered s r) (hs : Extends s s') : Answered s' r := by
  refine h.imp_right fun hall event he => ?_
  obtain ⟨number, call, outcome, hle, hcall, hin, houtcome, hresult⟩ := hall event he
  exact ⟨number, call, outcome, hle, hs number call outcome hcall houtcome, hin, houtcome, hresult⟩

/-- A call completes: it was in flight, and everyone who waits is resolved. -/
theorem step_complete {number : ℕ} {outcome : Outcome} (hs : step s (.complete number outcome) = some s') :
    ∃ events, s.calls[number]? = some ⟨events, none⟩ ∧ s' =
      ({ s with calls := s.calls.set number ⟨events, some outcome⟩ } : State).emit (State.resultOf events outcome) := by
  rw [step] at hs
  split at hs
  · next events hcall =>
    cases hs
    exact ⟨events, hcall, rfl⟩
  · cases hs

theorem extends_set {number : ℕ} {events : List Text} {call' : RpcOn} (hcall : s.calls[number]? = some ⟨events, none⟩)
    (hcalls : s'.calls = s.calls.set number call') : Extends s s' := by
  intro n call outcome hn houtcome
  have hne : number ≠ n := by
    rintro rfl
    rw [hcall] at hn
    cases hn
    cases houtcome
  rw [hcalls, List.getElem?_set_ne hne, hn]

theorem extends_step {a : Action} (hs : step s a = some s') : Extends s s' := by
  cases a with
  | subscribe events =>
    cases hs
    unfold State.subscribe
    split <;> exact fun _ _ _ hcall _ => hcall
  | fire =>
    rw [step] at hs
    split at hs
    · cases hs
      unfold State.commitPendingSubscriptions
      dsimp only
      split
      · exact fun _ _ _ hcall _ => hcall
      · intro number call outcome hcall _
        dsimp only
        rw [List.getElem?_append_left (List.getElem?_eq_some_iff.mp hcall).1, hcall]
    · cases hs
  | complete number outcome =>
    obtain ⟨events, hcall, rfl⟩ := step_complete hs
    exact extends_set hcall rfl
  | expire waiter =>
    rw [step] at hs
    split at hs
    · cases hs
      exact fun _ _ _ hcall _ => hcall
    · cases hs

theorem lookup_answer {answer : Text → Bool} {event : Text} : ∀ {events : List Text}, event ∈ events →
    (events.map fun e => (e, answer e)).lookup event = some (answer event)
  | e :: events, h => by
    rw [List.map_cons, List.lookup_cons]
    by_cases he : event = e
    · simp [he]
    · rw [beq_false_of_ne he]
      exact lookup_answer (List.mem_of_ne_of_mem he h)

/-- The emit of a call that is in turn. -/
theorem answered_of_inTurn {number : ℕ} {outcome : Outcome} {events : List Text}
    (hcall : s'.calls[number]? = some ⟨events, some outcome⟩) (hle : caller.sentBefore ≤ number)
    (hall : ∀ event ∈ caller.events, event ∈ events) :
    Answered s' ⟨caller, State.resultOf events outcome, false⟩ := by
  refine .inr fun event he => ⟨number, _, outcome, hle, hcall, hall event he, rfl, ?_⟩
  cases outcome with
  | answered answer => exact lookup_answer (hall event he)
  | failed => trivial

/-- The answers of an emit are right if and only if the call is in turn. -/
theorem ownAnswers_complete_iff (hwait : AllWait s) (hown : OwnAnswers s) {number : ℕ} {outcome : Outcome}
    (hs : step s (.complete number outcome) = some s') :
    OwnAnswers s' ↔ InTurn s (.complete number outcome) := by
  have hextends := extends_step hs
  obtain ⟨events, hcall, rfl⟩ := step_complete hs
  have hset : (s.calls.set number ⟨events, some outcome⟩)[number]? = some ⟨events, some outcome⟩ :=
    List.getElem?_set_self (List.getElem?_eq_some_iff.mp hcall).1
  constructor
  · intro h caller hin
    have hwaits := hwait caller hin
    -- Of the calls after the caller only this one has an outcome.
    have heach : ∀ event ∈ caller.events, caller.sentBefore ≤ number ∧ event ∈ events := by
      intro event he
      have hr := h ⟨caller, State.resultOf events outcome, false⟩ (List.mem_append_right _ (List.mem_map_of_mem hin))
      obtain ⟨n, call, outcome', hle, hn, hmem, houtcome, -⟩ := (hr.resolve_left nofun) event he
      have hn' : (s.calls.set number ⟨events, some outcome⟩)[n]? = some call := hn
      by_cases hsame : number = n
      · subst hsame
        rw [hset] at hn'
        cases hn'
        exact ⟨hle, hmem⟩
      · rw [List.getElem?_set_ne hsame] at hn'
        rw [hwaits.inFlight n call hle hn'] at houtcome
        cases houtcome
    obtain ⟨event, he⟩ := List.exists_mem_of_ne_nil _ hwaits.events
    rcases Nat.eq_or_lt_of_le (heach event he).1 with heq | hlt
    · exact .inl heq
    · refine .inr ⟨hlt, fun call hn event he => ?_⟩
      rw [hcall] at hn
      cases hn
      exact (heach event he).2
  · intro hturn r hr
    rcases List.mem_append.mp hr with hr | hr
    · exact (hown r hr).extend hextends
    · obtain ⟨caller, hin, rfl⟩ := List.mem_map.mp hr
      rcases hturn caller hin with heq | ⟨hlt, hall⟩
      · exact answered_of_inTurn hset heq.le fun event he => (hwait caller hin).sent _ (heq ▸ hcall) event he
      · exact answered_of_inTurn hset hlt.le (hall _ hcall)

/-- A step that resolves nobody, or one whose wait has run out. -/
theorem OwnAnswers.step {a : Action} (hwait : AllWait s) (h : OwnAnswers s) (hok : InTurn s a)
    (hs : step s a = some s') : OwnAnswers s' := by
  have hextends := extends_step hs
  cases a with
  | subscribe events =>
    cases hs
    intro r hr
    refine (h r ?_).extend hextends
    unfold State.subscribe at hr
    split at hr <;> exact hr
  | fire =>
    rw [SubscribeAnswers.step] at hs
    split at hs
    · cases hs
      intro r hr
      refine (h r ?_).extend hextends
      unfold State.commitPendingSubscriptions at hr
      dsimp only at hr
      split at hr <;> exact hr
    · cases hs
  | complete number outcome => exact (ownAnswers_complete_iff hwait h hs).mpr hok
  | expire waiter =>
    rw [SubscribeAnswers.step] at hs
    split at hs
    · cases hs
      intro r hr
      rcases List.mem_append.mp hr with hr | hr
      · exact (h r hr).extend hextends
      · rw [List.mem_singleton.mp hr]
        exact .inl rfl
    · cases hs

end

/-- **Every caller gets its own answer**, in every run in which the calls complete in turn; a call that
completes out of turn gives a wrong one. -/
theorem ownAnswers_inTurn {s : State} (hs : machine.Reach InTurn s) : OwnAnswers s ∧
    ∀ number outcome s', step s (.complete number outcome) = some s' →
      ¬ InTurn s (.complete number outcome) → ¬ OwnAnswers s' := by
  have hall : AllWait s ∧ OwnAnswers s := hs.invariant (fun s => AllWait s ∧ OwnAnswers s) ⟨nofun, nofun⟩
    fun _ _ _ h hok hstep => ⟨h.1.step hstep, h.2.step h.1 hok hstep⟩
  refine ⟨hall.2, fun number outcome s' hstep hnot hown => hnot ?_⟩
  exact (ownAnswers_complete_iff hall.1 hall.2 hstep).mp hown

/-- One caller, whose call completes. -/
theorem ownAnswers_single : ∃ s, s.resolutions.length = 1 ∧ OwnAnswers s := by
  have hsent : machine.Reach InTurn { init.subscribe [js "a"] with armed := false }.commitPendingSubscriptions :=
    .tail .fire (.tail (.subscribe [js "a"]) .refl trivial rfl) trivial rfl
  have hturn : InTurn { init.subscribe [js "a"] with armed := false }.commitPendingSubscriptions
      (.complete 0 (.answered fun _ => true)) := fun caller hcaller => .inl (List.mem_singleton.mp hcaller ▸ rfl)
  exact ⟨_, rfl, (ownAnswers_inTurn (hsent.tail (.complete 0 (.answered fun _ => true)) hturn rfl)).1⟩

/-- A second caller subscribes while the first call is in flight. -/
theorem subscribe_whileInFlight : ¬ OwnAnswersAlong anyStep := by
  intro h
  obtain ⟨s, hs, hwrong⟩ := Machine.exists_of_exec machine anyStep init
    [.subscribe [js "a"], .fire, .subscribe [js "b"], .complete 0 (.answered fun _ => true)]
    (fun s => decide (s.calls.length = 1) &&
      s.resolutions.any fun r => decide (r.caller = ⟨[js "b"], 1⟩) && !r.ranOut) (by decide)
  rw [Bool.and_eq_true, List.any_eq_true] at hwrong
  obtain ⟨hlength, r, hr, hcaller⟩ := hwrong
  rw [Bool.and_eq_true, Bool.not_eq_true'] at hcaller
  have hanswered := (h s hs r hr).resolve_left (by simp [hcaller.2])
  rw [of_decide_eq_true hcaller.1] at hanswered
  -- The only call was sent before the second caller.
  obtain ⟨number, call, -, hle, hcall, -⟩ := hanswered (js "b") (.head _)
  have hlt := (List.getElem?_eq_some_iff.mp hcall).1
  rw [of_decide_eq_true hlength] at hlt
  exact absurd hle (Nat.not_le_of_lt hlt)

end TypeFerry.Client.SubscribeAnswers
