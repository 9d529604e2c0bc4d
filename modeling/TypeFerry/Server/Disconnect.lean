import TypeFerry.Server.Registry

/-! # Rooms after a disconnect

The close handler takes the socket out of all its rooms once. A socket that has
closed sends no more messages, but the calls it made before may still be suspended,
and an `rpc:on` among them joins when it goes on. -/
namespace TypeFerry.Server.Disconnect
open TypeFerry.Lib.Numeral TypeFerry.Lib.OrderedMap TypeFerry.Lib.Runs
open TypeFerry.Server.Rooms TypeFerry.Server.Membership TypeFerry.Server.Registry

/-- The server, and the sockets whose close handler has run. -/
structure Served where
  server : Rooms.State
  gone : List ℕ

/-- The socket can be the source of the action. A closed one sends nothing, and it closes
once. -/
def Served.heard (s : Served) : Action → Bool
  | .authenticate c _ | .rpcOn c _ _ | .rpcOff c _ _ | .rpcLogout c => decide (c ∉ s.gone)
  | .closed c => decide (c < s.server.next ∧ c ∉ s.gone)
  | _ => true

/-- The close handler has run for one more socket. -/
def goneAfter (gone : List ℕ) : Action → List ℕ
  | .closed c => c :: gone
  | _ => gone

def init : Served := ⟨Rooms.init, []⟩

def step (events : Events) (s : Served) (a : Action) : Option Served :=
  if s.heard a then (Rooms.step events s.server a).map fun t => ⟨t, goneAfter s.gone a⟩ else none

def machine (events : Events) : Machine Served Action := ⟨init, step events⟩

/-- A call of a closed socket, suspended in `shouldSubscribe`, is told that it may. -/
def answersGone (s : Served) : Action → Bool
  | .resume i answer => match s.server.tasks[i]? with
    | some ⟨c, .onSubscribing _ _ _ known⟩ => known.getD answer && decide (c ∈ s.gone)
    | _ => false
  | _ => false

section
variable {events : Events} {s s' : Served} {a : Action}

theorem step_eq_some (h : step events s a = some s') : s.heard a = true ∧
    Rooms.step events s.server a = some s'.server ∧ s'.gone = goneAfter s.gone a := by
  rw [step] at h
  split at h
  · next hheard =>
    obtain ⟨t, ht, rfl⟩ := Option.map_eq_some_iff.mp h
    exact ⟨hheard, ht, rfl⟩
  · cases h

/-! ## What the operations leave of an empty entry -/

theorem socketRooms_leave {g : RoomRegistry} {ws c : ℕ} {room : Text}
    (h : g.socketRooms.get c = none) : (g.leave ws room).socketRooms.get c = none := by
  rw [RoomRegistry.leave]
  dsimp only
  split
  · next joined hj =>
    have hne : c ≠ ws := by
      intro heq
      rw [heq, hj] at h
      cases h
    split
    · rw [OMap.get_delete, if_neg hne, h]
    · rw [OMap.get_set, if_neg hne, h]
  · exact h

theorem socketRooms_leaveNames {ws c : ℕ} {channel : Text} : ∀ (names : List Text) {g : RoomRegistry},
    g.socketRooms.get c = none → (leaveNames events ws channel names g).socketRooms.get c = none := by
  intro names
  induction names with
  | nil => exact fun h => h
  | cons n names ih =>
    intro g h
    rw [leaveNames, List.foldl_cons, ← leaveNames]
    split
    · exact ih (socketRooms_leave h)
    · exact ih h

theorem socketRooms_join {g : RoomRegistry} {ws c : ℕ} {room : Text} (hne : c ≠ ws) :
    (g.join ws room).socketRooms.get c = g.socketRooms.get c := by
  rw [RoomRegistry.join, OMap.get_set, if_neg hne]

/-! ## The entry of a closed socket -/

/-- The registry has no entry for a closed socket. -/
structure Inv (s : Served) : Prop where
  consistent : Consistent s.server.rooms
  cleared : ∀ c ∈ s.gone, s.server.rooms.socketRooms.get c = none

theorem cleared_step (h : Inv s) (hok : answersGone s a = false) (hs : step events s a = some s')
    {c : ℕ} (hc : c ∈ s.gone) : s'.server.rooms.socketRooms.get c = none := by
  obtain ⟨-, hs, -⟩ := step_eq_some hs
  have hold := h.cleared c hc
  cases roomStep hs with
  | same hg => rw [hg, hold]
  | @join client channel eventName hadm hg =>
    obtain ⟨i, answer, rest, known, rfl, hyes, htask⟩ := hadm
    have hne : c ≠ client := by
      intro heq
      rw [answersGone, htask] at hok
      simp only [hyes, ← heq, hc, decide_true, Bool.and_self, Bool.true_eq_false] at hok
    rw [hg, socketRooms_join hne, hold]
  | off _ _ hg =>
    rw [hg]
    exact socketRooms_leaveNames _ hold
  | closed _ hg =>
    rw [hg, socketRooms_leaveAll, socketRooms_leaveAll, hold]
    simp

theorem inv_step (h : Inv s) (hok : answersGone s a = false) (hs : step events s a = some s') :
    Inv s' := by
  obtain ⟨-, hserver, hgone⟩ := step_eq_some hs
  refine ⟨consistent_step h.consistent hserver, fun c hc => ?_⟩
  rw [hgone] at hc
  cases a with
  | closed c' =>
    rcases List.mem_cons.mp hc with rfl | hc
    · -- The handler that has just run.
      rw [Rooms.step] at hserver
      split at hserver
      · cases hserver
      · have hrooms := congrArg State.rooms (Option.some.inj hserver)
        rw [← hrooms, socketRooms_leaveAll, if_pos rfl]
    · exact cleared_step h hok hs hc
  | _ => exact cleared_step h hok hs hc

/-- **No membership after a disconnect**, as long as no call of a closed socket is told
that it may subscribe: in every state behind its close handler a socket is in no room, and
the registry has no entry for it. -/
theorem no_membership_after_disconnect
    (h : (machine events).Reach (fun s a => answersGone s a = false) s) {c : ℕ} (hc : c ∈ s.gone) :
    (∀ room, ¬ Member s.server.rooms c room) ∧ s.server.rooms.socketRooms.get c = none := by
  have hinv : Inv s := by
    refine h.invariant Inv ⟨consistent_init, fun c hc => ?_⟩ fun t a t' hi hok hs => inv_step hi hok hs
    cases hc
  refine ⟨fun room hm => ?_, hinv.cleared c hc⟩
  have hjoined := (hinv.consistent c room).mp hm
  rw [Registry.Joined, hinv.cleared c hc] at hjoined
  cases hjoined

/-- The other answer puts the closed socket into the room. -/
theorem member_of_answersGone (hs : step events s a = some s') (h : answersGone s a = true) :
    ∃ c ∈ s'.gone, ∃ room, Member s'.server.rooms c room := by
  obtain ⟨-, hserver, hgone⟩ := step_eq_some hs
  cases a with
  | resume i answer =>
    rw [answersGone] at h
    split at h
    · next c eventName rest channel known htask =>
      simp only [Bool.and_eq_true, decide_eq_true_eq] at h
      obtain ⟨task, ht, hserver⟩ := Option.bind_eq_some_iff.mp hserver
      rw [htask] at ht
      cases ht
      simp only [h.1, if_true, Option.some.injEq] at hserver
      refine ⟨c, ?_, getRoomName channel eventName, ?_⟩
      · rw [hgone]
        exact h.2
      · rw [← hserver]
        exact member_join_iff.mpr (.inr ⟨rfl, rfl⟩)
    · cases h
  | connect => cases h
  | authenticate c user => cases h
  | rpcOn c names channel => cases h
  | rpcOff c names channel => cases h
  | rpcLogout c => cases h
  | shut c => cases h
  | closed c => cases h
  | propagate channel eventName exclude => cases h

end

/-! ## Two runs -/

/-- One event for everybody; the application is asked. -/
def news : Events := fun eventName => if eventName = js "news" then some ⟨false, false, true⟩ else none

/-- A socket asks for the event, and its call waits for the application. -/
def asking : List Action :=
  [.connect, .rpcOn 0 [js "news"] (some (js "c")), .resume 0 true, .resume 0 true]

theorem no_membership_after_disconnect_closed : ∃ s,
    (machine news).Reach (fun s a => answersGone s a = false) s ∧ 0 ∈ s.gone ∧
      s.server.rooms.socketRooms.get 0 = none := by
  obtain ⟨s, hs, hgone⟩ := (machine news).exists_of_exec (fun s a => answersGone s a = false) init
    (asking ++ [.resume 0 true, .shut 0, .closed 0]) (fun s => decide (0 ∈ s.gone)) (by decide)
  exact ⟨s, hs, of_decide_eq_true hgone,
    (no_membership_after_disconnect hs (of_decide_eq_true hgone)).2⟩

/-- The application answers behind the close handler, and the socket joins. -/
theorem closed_socket_joins : ∃ s, (machine news).Reach anyStep s ∧ 0 ∈ s.gone ∧
    Member s.server.rooms 0 (getRoomName (js "c") (js "news")) ∧
    s.server.rooms.socketRooms.get 0 ≠ none := by
  obtain ⟨s, hs, hp⟩ := (machine news).exists_of_exec anyStep init
    (asking ++ [.shut 0, .closed 0, .resume 0 true])
    (fun s => decide (0 ∈ s.gone) && decide (Member s.server.rooms 0 (getRoomName (js "c") (js "news"))) &&
      decide (s.server.rooms.socketRooms.get 0 ≠ none)) (by decide)
  simp only [Bool.and_eq_true, decide_eq_true_eq] at hp
  exact ⟨s, hs, hp.1.1, hp.1.2, hp.2⟩

end TypeFerry.Server.Disconnect
