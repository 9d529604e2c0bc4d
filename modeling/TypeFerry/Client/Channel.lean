import TypeFerry.Server.Registry

/-! # Subscriptions of one channel

`ClientChannel` keeps the events it is subscribed to, collects the calls of `subscribe`
and `unsubscribe` in two sets, and commits each set when its own timer fires, 100 ms
after the last call that armed it. The calls to the server complete in the order in
which they were sent. -/
namespace TypeFerry.Client.Channel
open TypeFerry.Lib.Numeral TypeFerry.Lib.OrderedMap TypeFerry.Lib.Runs
open TypeFerry.Server.Rooms (addTo deleteFrom RoomRegistry getRoomName)
open TypeFerry.Server.Membership TypeFerry.Server.Registry

/-! ## The channel -/

/-- The two sorts of calls. -/
inductive Kind where
  | on
  | off
  deriving DecidableEq

/-- An armed debounce timer, and when it is due. -/
structure Timer where
  kind : Kind
  due : ℕ
  deriving DecidableEq

/-- An `rpc:on` or `rpc:off` with its events. -/
structure Rpc where
  kind : Kind
  events : List Text

structure State where
  events : List Text
  pendingSubscriptions : List Text
  pendingUnsubscriptions : List Text
  now : ℕ
  /-- the armed timers, in the order in which they were armed -/
  timers : List Timer
  /-- the calls that have not completed, in the order in which they were sent -/
  wire : List Rpc
  rooms : RoomRegistry

/-- `clearTimeout` and `setTimeout(…, 100)`. -/
def State.rearm (s : State) (kind : Kind) : State :=
  { s with timers := s.timers.filter (·.kind ≠ kind) ++ [⟨kind, s.now + 100⟩] }

def State.subscribe (s : State) (events : List Text) : State :=
  if events.isEmpty then s
  else { s with
    events := events.foldl (fun set e => addTo e set) s.events
    pendingSubscriptions := events.foldl (fun set e => addTo e set) s.pendingSubscriptions }.rearm .on

def State.unsubscribe (s : State) (events : List Text) : State :=
  if events.isEmpty then s
  else { s with
    events := events.foldl (fun set e => deleteFrom e set) s.events
    pendingUnsubscriptions := events.foldl (fun set e => addTo e set) s.pendingUnsubscriptions }.rearm .off

def State.send (s : State) (kind : Kind) (events : List Text) : State :=
  if events.isEmpty then s else { s with wire := s.wire ++ [⟨kind, events⟩] }

def State.commitPendingSubscriptions (s : State) : State :=
  { s with pendingSubscriptions := [] }.send .on s.pendingSubscriptions

def State.commitPendingUnsubscriptions (s : State) : State :=
  { s with pendingUnsubscriptions := [] }.send .off s.pendingUnsubscriptions

def State.commit (s : State) : Kind → State
  | .on => s.commitPendingSubscriptions
  | .off => s.commitPendingUnsubscriptions

/-- What the server does for a call; all events are registered and permitted. -/
def serve (channel : Text) (socket : ℕ) (g : RoomRegistry) (rpc : Rpc) : RoomRegistry :=
  match rpc.kind with
  | .on => rpc.events.foldl (fun g e => g.join socket (getRoomName channel e)) g
  | .off => rpc.events.foldl (fun g e => g.leave socket (getRoomName channel e)) g

/-! ## Events -/

inductive Action where
  | subscribe (events : List Text)
  | unsubscribe (events : List Text)
  /-- time passes -/
  | wait (ms : ℕ)
  /-- the first timer fires; timers of equal length fire in the order of their arming -/
  | fire
  /-- the first call completes -/
  | complete

def init : State := ⟨[], [], [], 0, [], [], ⟨.empty, .empty⟩⟩

def step (channel : Text) (socket : ℕ) (s : State) : Action → Option State
  | .subscribe events => some (s.subscribe events)
  | .unsubscribe events => some (s.unsubscribe events)
  | .wait ms => some { s with now := s.now + ms }
  | .fire => match s.timers with
    | timer :: rest =>
      if timer.due ≤ s.now then some ({ s with timers := rest }.commit timer.kind) else none
    | [] => none
  | .complete => match s.wire with
    | rpc :: rest => some { s with wire := rest, rooms := serve channel socket s.rooms rpc }
    | [] => none

def machine (channel : Text) (socket : ℕ) : Machine State Action := ⟨init, step channel socket⟩

/-- The timer that fires commits a call for an event while an earlier call for the same event
still waits in the other set. -/
def overtakes (s : State) : Action → Bool
  | .fire => match s.timers with
    | ⟨.on, _⟩ :: _ => s.pendingSubscriptions.any fun e => e ∈ s.pendingUnsubscriptions ∧ e ∈ s.events
    | ⟨.off, _⟩ :: _ => s.pendingUnsubscriptions.any fun e => e ∈ s.pendingSubscriptions ∧ e ∉ s.events
    | [] => false
  | _ => false

/-! ## What the calls do to one event -/

section
variable {channel : Text} {socket : ℕ} {s s' : State} {a : Action} {e : Text}

theorem mem_foldl_deleteFrom : ∀ (events set : List Text),
    e ∈ events.foldl (fun set e => deleteFrom e set) set ↔ e ∈ set ∧ e ∉ events := by
  intro events
  induction events with
  | nil => simp
  | cons x events ih =>
    intro set
    rw [List.foldl_cons, ih, mem_deleteFrom_iff, List.mem_cons]
    tauto

/-- On one channel each event has a room of its own. -/
theorem getRoomName_inj {e' : Text} : getRoomName channel e = getRoomName channel e' ↔ e = e' := by
  simp [getRoomName]

/-- The socket is in the room of the event. -/
def Subscribed (channel : Text) (socket : ℕ) (g : RoomRegistry) (e : Text) : Prop :=
  Member g socket (getRoomName channel e)

theorem subscribed_serve {g : RoomRegistry} {rpc : Rpc} :
    Subscribed channel socket (serve channel socket g rpc) e ↔
    match rpc.kind with
    | .on => Subscribed channel socket g e ∨ e ∈ rpc.events
    | .off => Subscribed channel socket g e ∧ e ∉ rpc.events := by
  obtain ⟨kind, events⟩ := rpc
  cases kind with
  | on =>
    dsimp only [serve]
    induction events generalizing g with
    | nil => simp
    | cons x events ih =>
      rw [List.foldl_cons, ih, Subscribed, member_join_iff, getRoomName_inj, ← Subscribed, List.mem_cons]
      tauto
  | off =>
    dsimp only [serve]
    induction events generalizing g with
    | nil => simp
    | cons x events ih =>
      rw [List.foldl_cons, ih, Subscribed, member_leave_iff, getRoomName_inj, ← Subscribed, List.mem_cons]
      tauto

/-- The socket will be in the room of the event when all calls have completed. -/
def WillBe (channel : Text) (socket : ℕ) (s : State) (e : Text) : Prop :=
  Subscribed channel socket (s.wire.foldl (serve channel socket) s.rooms) e

/-! ## The invariant -/

/-- The calls of one sort that wait for their timer. -/
def State.pending (s : State) : Kind → List Text
  | .on => s.pendingSubscriptions
  | .off => s.pendingUnsubscriptions

def Kind.other : Kind → Kind
  | .on => .off
  | .off => .on

theorem Kind.eq_of_other_ne {kind kind' : Kind} (h : kind'.other ≠ kind) : kind' = kind := by
  cases kind' <;> cases kind <;> first | rfl | exact absurd rfl h

/-- What waits for an event is the last call for it, or both sorts of calls wait; and where
nothing waits, the calls that were sent are right. The timers are armed for what waits. -/
structure Inv (channel : Text) (socket : ℕ) (s : State) : Prop where
  last : ∀ kind, ∀ e ∈ s.pending kind, e ∉ s.pending kind.other → (e ∈ s.events ↔ kind = .on)
  sent : ∀ e, (∀ kind, e ∉ s.pending kind) → (WillBe channel socket s e ↔ e ∈ s.events)
  armed : ∀ kind, s.pending kind ≠ [] → ∃ t ∈ s.timers, t.kind = kind
  once : s.timers.Pairwise fun t t' => t.kind ≠ t'.kind

theorem pending_init (kind : Kind) : init.pending kind = [] := by
  cases kind with
  | on => rfl
  | off => rfl

theorem inv_init : Inv channel socket init where
  last kind e he := by
    rw [pending_init] at he
    cases he
  sent e _ := by
    constructor
    · intro h
      cases h
    · intro h
      cases h
  armed kind hne := absurd (pending_init kind) hne
  once := List.Pairwise.nil

/-- A timer is armed again. -/
theorem pairwise_rearm {timers : List Timer} {kind : Kind} {due : ℕ}
    (h : timers.Pairwise fun t t' => t.kind ≠ t'.kind) :
    (timers.filter (fun t => t.kind ≠ kind) ++ [(⟨kind, due⟩ : Timer)]).Pairwise
      fun t t' => t.kind ≠ t'.kind := by
  refine List.pairwise_append.mpr ⟨h.sublist List.filter_sublist, List.pairwise_singleton _ _, ?_⟩
  intro t ht t' ht'
  rw [List.mem_singleton.mp ht']
  exact of_decide_eq_true (List.mem_filter.mp ht).2

theorem armed_rearm {timers : List Timer} {kind kind' : Kind} {due : ℕ}
    (h : kind' ≠ kind → ∃ t ∈ timers, t.kind = kind') :
    ∃ t ∈ timers.filter (fun t => t.kind ≠ kind) ++ [(⟨kind, due⟩ : Timer)], t.kind = kind' := by
  by_cases hk : kind' = kind
  · exact ⟨⟨kind, due⟩, by simp, hk.symm⟩
  · obtain ⟨t, ht, htk⟩ := h hk
    exact ⟨t, by simp [ht, htk, hk], htk⟩

/-- A call of either sort: its events wait, they are as the call wants them, and nothing is sent. -/
theorem inv_call {kind : Kind} {events : List Text} (h : Inv channel socket s)
    (hpending : ∀ kind' e, e ∈ s'.pending kind' ↔ e ∈ s.pending kind' ∨ kind' = kind ∧ e ∈ events)
    (hevents : ∀ e, e ∈ s'.events ↔ if e ∈ events then kind = .on else e ∈ s.events)
    (hwill : ∀ e, WillBe channel socket s' e ↔ WillBe channel socket s e)
    (htimers : s'.timers = s.timers.filter (fun t => t.kind ≠ kind) ++ [⟨kind, s.now + 100⟩]) :
    Inv channel socket s' := by
  refine ⟨fun kind' e he hno => ?_, fun e hnone => ?_, fun kind' hne => ?_, ?_⟩
  · rw [hpending] at he hno
    rw [hevents]
    by_cases hin : e ∈ events
    · rw [if_pos hin, Kind.eq_of_other_ne fun hk => hno (.inr ⟨hk, hin⟩)]
    · rw [if_neg hin]
      exact h.last kind' e (he.resolve_right fun hk => hin hk.2) fun he' => hno (.inl he')
  · have hnot : e ∉ events := fun hin => hnone kind ((hpending kind e).mpr (.inr ⟨rfl, hin⟩))
    rw [hwill, hevents, if_neg hnot]
    exact h.sent e fun kind' he => hnone kind' ((hpending kind' e).mpr (.inl he))
  · rw [htimers]
    refine armed_rearm fun hk => h.armed kind' fun hempty => ?_
    obtain ⟨e, he⟩ := List.exists_mem_of_ne_nil _ hne
    rcases (hpending kind' e).mp he with he | he
    · rw [hempty] at he
      cases he
    · exact hk he.1
  · rw [htimers]
    exact pairwise_rearm h.once

theorem inv_subscribe (h : Inv channel socket s) (events : List Text) :
    Inv channel socket (s.subscribe events) := by
  unfold State.subscribe
  split
  · exact h
  · refine @inv_call channel socket s _ .on events h (fun kind' e => ?_) (fun e => ?_) (fun _ => .rfl) rfl
    · cases kind' with
      | on => exact (mem_foldl_addTo _ _).trans (by simp [State.pending])
      | off => simp [State.pending, State.rearm]
    · refine (mem_foldl_addTo _ _).trans ?_
      by_cases hin : e ∈ events
      · simp [hin]
      · simp [hin]

theorem inv_unsubscribe (h : Inv channel socket s) (events : List Text) :
    Inv channel socket (s.unsubscribe events) := by
  unfold State.unsubscribe
  split
  · exact h
  · refine @inv_call channel socket s _ .off events h (fun kind' e => ?_) (fun e => ?_) (fun _ => .rfl) rfl
    · cases kind' with
      | on => simp [State.pending, State.rearm]
      | off => exact (mem_foldl_addTo _ _).trans (by simp [State.pending])
    · refine (mem_foldl_deleteFrom _ _).trans ?_
      by_cases hin : e ∈ events
      · simp [hin]
      · simp [hin]

/-- What is sent comes behind what was sent before. -/
theorem willBe_send {kind : Kind} {events : List Text} : WillBe channel socket (s.send kind events) e ↔
    if e ∈ events then kind = .on else WillBe channel socket s e := by
  unfold State.send
  split
  · next hempty =>
    rw [List.isEmpty_iff.mp hempty, if_neg List.not_mem_nil]
  · rw [WillBe, List.foldl_append]
    refine subscribed_serve.trans ?_
    by_cases hin : e ∈ events
    · cases kind <;> simp [hin]
    · cases kind <;> simp [hin, WillBe]

theorem fields_send {kind : Kind} {events : List Text} :
    (s.send kind events).events = s.events ∧ (s.send kind events).pending = s.pending ∧
      (s.send kind events).timers = s.timers := by
  unfold State.send
  split
  · exact ⟨rfl, rfl, rfl⟩
  · exact ⟨rfl, rfl, rfl⟩

/-- The calls of one sort are sent. -/
theorem commit_facts {kind : Kind} : (s.commit kind).events = s.events ∧
    (s.commit kind).pending kind = [] ∧ (s.commit kind).pending kind.other = s.pending kind.other ∧
    (s.commit kind).timers = s.timers ∧ ∀ e, WillBe channel socket (s.commit kind) e ↔
      if e ∈ s.pending kind then kind = .on else WillBe channel socket s e := by
  cases kind with
  | on =>
    obtain ⟨hevents, hpending, htimers⟩ := @fields_send { s with pendingSubscriptions := [] } .on
      s.pendingSubscriptions
    exact ⟨hevents, congrFun hpending .on, congrFun hpending .off, htimers, fun e => willBe_send⟩
  | off =>
    obtain ⟨hevents, hpending, htimers⟩ := @fields_send { s with pendingUnsubscriptions := [] } .off
      s.pendingUnsubscriptions
    exact ⟨hevents, congrFun hpending .off, congrFun hpending .on, htimers, fun e => willBe_send⟩

/-- A timer commits its calls, and none of them overtakes an earlier one. -/
theorem inv_commit {kind : Kind} {due : ℕ} {rest : List Timer} (h : Inv channel socket s)
    (htimers : s.timers = ⟨kind, due⟩ :: rest)
    (hok : ∀ e ∈ s.pending kind, e ∈ s.pending kind.other → (e ∈ s.events ↔ kind.other = .on)) :
    Inv channel socket ({ s with timers := rest }.commit kind) := by
  obtain ⟨hevents, hown, hother, hrest, hsent⟩ :=
    @commit_facts channel socket { s with timers := rest } kind
  have hwill : ∀ e, WillBe channel socket ({ s with timers := rest }.commit kind) e ↔
    if e ∈ s.pending kind then kind = .on else WillBe channel socket s e := hsent
  have honce := h.once
  rw [htimers] at honce
  have hcases : ∀ kind', kind' = kind ∨ kind' = kind.other := by
    intro kind'
    cases kind' <;> cases kind <;> simp [Kind.other]
  refine ⟨fun kind' e he _ => ?_, fun e hnone => ?_, fun kind' hne => ?_, ?_⟩
  · rcases hcases kind' with rfl | rfl
    · rw [hown] at he
      cases he
    · rw [hother] at he
      rw [hevents]
      by_cases hin : e ∈ s.pending kind
      · exact hok e hin he
      · refine h.last kind.other e he ?_
        cases kind <;> exact hin
  · have hno : e ∉ s.pending kind.other := by
      have hnot := hnone kind.other
      rw [hother] at hnot
      exact hnot
    rw [hwill, hevents]
    by_cases hin : e ∈ s.pending kind
    · rw [if_pos hin]
      exact (h.last kind e hin hno).symm
    · rw [if_neg hin]
      refine h.sent e fun kind' => ?_
      rcases hcases kind' with rfl | rfl
      · exact hin
      · exact hno
  · rcases hcases kind' with rfl | rfl
    · exact absurd hown hne
    · rw [hother] at hne
      obtain ⟨t, ht, hk⟩ := h.armed kind.other hne
      rw [htimers] at ht
      rcases List.mem_cons.mp ht with ht | ht
      · rw [ht] at hk
        cases kind <;> cases hk
      · exact ⟨t, hrest ▸ ht, hk⟩
  · rw [hrest]
    exact honce.of_cons

theorem inv_step (h : Inv channel socket s) (hok : overtakes s a = false)
    (hs : step channel socket s a = some s') : Inv channel socket s' := by
  cases a with
  | subscribe events =>
    cases hs
    exact inv_subscribe h events
  | unsubscribe events =>
    cases hs
    exact inv_unsubscribe h events
  | wait ms =>
    cases hs
    exact ⟨h.last, h.sent, h.armed, h.once⟩
  | fire =>
    rw [step] at hs
    split at hs
    · next timer rest htimers =>
      split at hs
      · cases hs
        obtain ⟨kind, due⟩ := timer
        refine inv_commit h htimers fun e he hwaits => ?_
        rw [overtakes, htimers] at hok
        cases kind with
        | on =>
          simp only [List.any_eq_false, decide_eq_true_eq] at hok
          exact iff_of_false (fun hin => hok e he ⟨hwaits, hin⟩) (by intro hk; cases hk)
        | off =>
          simp only [List.any_eq_false, decide_eq_true_eq] at hok
          exact iff_of_true (not_not.mp fun hin => hok e he ⟨hwaits, hin⟩) rfl
      · cases hs
    · cases hs
  | complete =>
    rw [step] at hs
    split at hs
    · next rpc rest hwire =>
      cases hs
      refine ⟨h.last, fun e hnone => ?_, h.armed, h.once⟩
      have hsent := h.sent e hnone
      rw [WillBe, hwire] at hsent
      exact hsent
    · cases hs

/-- **The subscriptions that were meant reach the server**, as long as no timer commits a call
that overtakes an earlier one for the same event: when no timer is armed and every call has
completed, the socket is in the rooms of the channel's events and in no other of the channel. -/
theorem subscription_intent_reaches
    (h : (machine channel socket).Reach (fun s a => overtakes s a = false) s)
    (htimers : s.timers = []) (hwire : s.wire = []) (e : Text) :
    Member s.rooms socket (getRoomName channel e) ↔ e ∈ s.events := by
  have hinv : Inv channel socket s := by
    refine h.invariant (Inv channel socket) inv_init ?_
    intro t a t' hi hok hs
    exact inv_step hi hok hs
  have hsent := hinv.sent e fun kind he => by
    obtain ⟨t, ht, _⟩ := hinv.armed kind (List.ne_nil_of_mem he)
    rw [htimers] at ht
    cases ht
  rw [WillBe, hwire] at hsent
  exact hsent

end

/-! ## Two runs -/

/-- The channel leaves an event and comes back to it within the 100 ms. -/
def comingBack : List Action :=
  [.subscribe [js "e"], .wait 100, .fire, .complete, .unsubscribe [js "e"], .wait 10, .subscribe [js "e"]]

theorem subscription_intent_reaches_again : ∃ s,
    (machine (js "c") 0).Reach (fun s a => overtakes s a = false) s ∧ s.timers = [] ∧ s.wire = [] ∧
      js "e" ∈ s.events ∧ Member s.rooms 0 (getRoomName (js "c") (js "e")) := by
  obtain ⟨s, hs, hp⟩ := (machine (js "c") 0).exists_of_exec (fun s a => overtakes s a = false) init
    (comingBack ++ [.wait 90, .fire, .complete, .wait 10, .fire, .complete])
    (fun s => s.timers.isEmpty && s.wire.isEmpty && decide (js "e" ∈ s.events)) (by decide)
  simp only [Bool.and_eq_true, List.isEmpty_iff, decide_eq_true_eq] at hp
  exact ⟨s, hs, hp.1.1, hp.1.2, hp.2, (subscription_intent_reaches hs hp.1.1 hp.1.2 _).mpr hp.2⟩

/-- Before the timers fire it leaves another event: its first `rpc:off` is sent last, and the
socket is not in the room of an event the channel has. -/
theorem overtaken_subscription_lost : ∃ s, (machine (js "c") 0).Reach anyStep s ∧
    s.timers = [] ∧ s.wire = [] ∧ js "e" ∈ s.events ∧
    ¬ Member s.rooms 0 (getRoomName (js "c") (js "e")) := by
  obtain ⟨s, hs, hp⟩ := (machine (js "c") 0).exists_of_exec anyStep init
    (comingBack ++
      [.wait 40, .unsubscribe [js "f"], .wait 60, .fire, .complete, .wait 40, .fire, .complete])
    (fun s => s.timers.isEmpty && s.wire.isEmpty && decide (js "e" ∈ s.events) &&
      decide (¬ Member s.rooms 0 (getRoomName (js "c") (js "e")))) (by decide)
  simp only [Bool.and_eq_true, List.isEmpty_iff, decide_eq_true_eq] at hp
  exact ⟨s, hs, hp.1.1.1, hp.1.1.2, hp.1.2, hp.2⟩

end TypeFerry.Client.Channel
