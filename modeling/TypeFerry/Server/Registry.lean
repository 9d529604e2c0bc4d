import TypeFerry.Server.Membership

/-! # The two sides of the room registry

The registry keeps the sockets of a room and, the other way round, the rooms of a
socket. The second index is what a disconnect goes by, so it has to name every room
the socket is in. -/
namespace TypeFerry.Server.Registry
open TypeFerry.Lib.Numeral TypeFerry.Lib.OrderedMap TypeFerry.Lib.Runs
open TypeFerry.Server.Rooms TypeFerry.Server.Membership

instance (g : RoomRegistry) (ws : ℕ) (room : Text) : Decidable (Member g ws room) :=
  inferInstanceAs (Decidable (ws ∈ _))

/-- The room is in the socket's own set. -/
def Joined (g : RoomRegistry) (ws : ℕ) (room : Text) : Prop :=
  room ∈ (g.socketRooms.get ws).getD []

/-- Both indices say the same. -/
def Consistent (g : RoomRegistry) : Prop := ∀ ws room, Member g ws room ↔ Joined g ws room

/-! ## What the operations do to each side -/

theorem joined_join_iff {g : RoomRegistry} {ws ws' : ℕ} {room room' : Text} :
    Joined (g.join ws room) ws' room' ↔ Joined g ws' room' ∨ ws' = ws ∧ room' = room := by
  rw [Joined, RoomRegistry.join, OMap.get_set]
  by_cases hws : ws' = ws
  · simp [hws, Joined]
  · simp [hws, Joined]

theorem joined_leave_iff {g : RoomRegistry} {ws ws' : ℕ} {room room' : Text} :
    Joined (g.leave ws room) ws' room' ↔ Joined g ws' room' ∧ ¬ (ws' = ws ∧ room' = room) := by
  rw [Joined, RoomRegistry.leave]
  dsimp only
  split
  · next joined hj =>
    split
    · next hnone =>
      -- The socket has left its last room.
      have hall : ∀ r ∈ joined, r = room := by
        intro r hin
        by_contra hne
        have hleft := mem_deleteFrom_iff.mpr ⟨hin, hne⟩
        rw [hnone] at hleft
        cases hleft
      rw [OMap.get_delete]
      by_cases hws : ws' = ws
      · subst hws
        simp only [if_pos, Joined, hj, Option.getD_some, Option.getD_none, List.not_mem_nil,
          true_and, false_iff, not_and, not_not]
        exact hall room'
      · simp [hws, Joined]
    · rw [OMap.get_set]
      by_cases hws : ws' = ws
      · subst hws
        simp [hj, Joined]
      · simp [hws, Joined]
  · next hj =>
    by_cases hws : ws' = ws
    · subst hws
      simp [hj, Joined]
    · simp [hws, Joined]

/-- The second index names every room, so nothing of the socket stays behind. -/
theorem member_leaveAll_iff {g : RoomRegistry} (hg : Consistent g) {ws ws' : ℕ} {room : Text} :
    Member (g.leaveAll ws) ws' room ↔ Member g ws' room ∧ ws' ≠ ws := by
  unfold RoomRegistry.leaveAll
  split
  · next joined hj =>
    rw [Member, mem_dropAll_iff]
    refine and_congr_right fun hm => ?_
    have hin : ws' = ws → room ∈ joined := by
      intro hws
      have hjoined := (hg ws' room).mp hm
      rw [Joined, hws, hj] at hjoined
      exact hjoined
    exact ⟨fun hno hws => hno ⟨hws, hin hws⟩, fun hne hyes => hne hyes.1⟩
  · next hj =>
    refine ⟨fun hm => ⟨hm, fun hws => ?_⟩, And.left⟩
    have hjoined := (hg ws' room).mp hm
    rw [Joined, hws, hj] at hjoined
    cases hjoined

theorem socketRooms_leaveAll {g : RoomRegistry} {ws ws' : ℕ} :
    (g.leaveAll ws).socketRooms.get ws' = if ws' = ws then none else g.socketRooms.get ws' := by
  unfold RoomRegistry.leaveAll
  split
  · exact OMap.get_delete ..
  · next hj =>
    split
    · next hws => rw [hws, hj]
    · rfl

theorem consistent_join {g : RoomRegistry} (hg : Consistent g) (ws : ℕ) (room : Text) :
    Consistent (g.join ws room) := by
  intro ws' room'
  rw [member_join_iff, joined_join_iff, hg]

theorem consistent_leave {g : RoomRegistry} (hg : Consistent g) (ws : ℕ) (room : Text) :
    Consistent (g.leave ws room) := by
  intro ws' room'
  rw [member_leave_iff, joined_leave_iff, hg]

theorem consistent_leaveAll {g : RoomRegistry} (hg : Consistent g) (ws : ℕ) :
    Consistent (g.leaveAll ws) := by
  intro ws' room
  rw [member_leaveAll_iff hg, Joined, socketRooms_leaveAll, hg]
  by_cases hws : ws' = ws
  · simp [hws]
  · simp [hws, Joined]

/-! ## What a step does to the rooms -/

variable {events : Events} {s s' : State}

/-- The step is the one in which `rpc:on` admits the client to the event of the channel. -/
def Admits (s : State) (a : Action) (client : ℕ) (channel eventName : Text) : Prop :=
  ∃ i answer rest known, a = .resume i answer ∧ known.getD answer = true ∧
    s.tasks[i]? = some ⟨client, .onSubscribing eventName rest channel known⟩

/-- The rooms an `rpc:off` takes its client out of. -/
def leaveNames (events : Events) (client : ℕ) (channel : Text) (names : List Text)
    (g : RoomRegistry) : RoomRegistry :=
  names.foldl (fun g eventName =>
    if (events eventName).isSome then g.leave client (getRoomName channel eventName) else g) g

/-- What becomes of the rooms. -/
inductive RoomStep (events : Events) (s : State) (a : Action) (g : RoomRegistry) : Prop where
  | same (h : g = s.rooms)
  | join {client : ℕ} {channel eventName : Text} (admits : Admits s a client channel eventName)
      (h : g = s.rooms.join client (getRoomName channel eventName))
  | off {i client : ℕ} {answer : Bool} {names : List Text} {channel : Text}
      (act : a = .resume i answer) (task : s.tasks[i]? = some ⟨client, .offInvoked names channel⟩)
      (h : g = leaveNames events client channel names s.rooms)
  | closed {client : ℕ} (act : a = .closed client)
      (h : g = (s.rooms.leaveAll client).leaveAll client)

theorem roomStep_resume {i : ℕ} {answer : Bool} (h : s.resume events i answer = some s') :
    RoomStep events s (.resume i answer) s'.rooms := by
  unfold State.resume at h
  obtain ⟨⟨client, stage⟩, htask, h⟩ := Option.bind_eq_some_iff.mp h
  cases stage with
  | onInvoked names channel =>
    cases h
    exact .same rooms_moveTask
  | onChannel names channel =>
    cases h
    exact .same rooms_moveTask
  | onSubscribing eventName rest channel known =>
    simp only at h
    split at h
    · next hyes =>
      cases h
      exact .join ⟨i, answer, rest, known, rfl, hyes, htask⟩ rfl
    · cases h
      exact .same rfl
  | onReturned rest channel =>
    cases h
    exact .same rooms_moveTask
  | offInvoked names channel =>
    cases h
    exact .off rfl htask rfl
  | logoutInvoked =>
    cases h
    exact .same rfl

/-- **A step** leaves the rooms alone, admits a client, runs an `rpc:off` or is the end of
a socket. -/
theorem roomStep {a : Action} (h : step events s a = some s') : RoomStep events s a s'.rooms := by
  cases a with
  | connect =>
    cases h
    exact .same rfl
  | authenticate client user =>
    rw [step] at h
    split at h <;> cases h
    exact .same rfl
  | rpcOn client names channel =>
    rw [step] at h
    split at h <;> cases h
    exact .same rfl
  | rpcOff client names channel =>
    rw [step] at h
    split at h <;> cases h
    exact .same rfl
  | rpcLogout client =>
    rw [step] at h
    split at h <;> cases h
    exact .same rfl
  | resume i answer => exact roomStep_resume h
  | shut client =>
    cases h
    exact .same rfl
  | closed client =>
    rw [step] at h
    split at h <;> cases h
    exact .closed rfl rfl
  | propagate channel eventName exclude =>
    cases h
    exact .same rfl

theorem member_leaveNames_iff {client ws : ℕ} {channel room : Text} :
    ∀ (names : List Text) (g : RoomRegistry),
      Member (leaveNames events client channel names g) ws room ↔ Member g ws room ∧
        ¬ (ws = client ∧ ∃ eventName ∈ names, (events eventName).isSome ∧
          room = getRoomName channel eventName) := by
  intro names
  induction names with
  | nil => simp [leaveNames]
  | cons n names ih =>
    intro g
    rw [leaveNames, List.foldl_cons, ← leaveNames, ih]
    split
    · next hdecl =>
      rw [member_leave_iff]
      simp only [List.mem_cons, exists_eq_or_imp, hdecl, true_and]
      grind
    · next hdecl =>
      simp [hdecl]

theorem consistent_leaveNames {client : ℕ} {channel : Text} : ∀ (names : List Text) {g : RoomRegistry},
    Consistent g → Consistent (leaveNames events client channel names g) := by
  intro names
  induction names with
  | nil => exact fun h => h
  | cons n names ih =>
    intro g hg
    rw [leaveNames, List.foldl_cons, ← leaveNames]
    split
    · exact ih (consistent_leave hg client _)
    · exact ih hg

theorem consistent_init : Consistent init.rooms := by
  intro ws room
  constructor
  · intro h
    cases h
  · intro h
    cases h

theorem consistent_step {a : Action} (hg : Consistent s.rooms) (h : step events s a = some s') :
    Consistent s'.rooms := by
  cases roomStep h with
  | same h => rwa [h]
  | join _ h =>
    rw [h]
    exact consistent_join hg _ _
  | off _ _ h =>
    rw [h]
    exact consistent_leaveNames _ hg
  | closed _ h =>
    rw [h]
    exact consistent_leaveAll (consistent_leaveAll hg _) _

/-- **The indices agree** in every state of every run. -/
theorem consistent_run {acts : List Action}
    (hrun : (machine events).exec anyStep init acts = some s) : Consistent s.rooms := by
  refine (Machine.steps_of_exec acts hrun).invariant (fun t => Consistent t.rooms) consistent_init ?_
  intro t a t' hg _ hs
  exact consistent_step hg hs

end TypeFerry.Server.Registry
