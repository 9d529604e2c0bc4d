import TypeFerry.Server.Rooms

/-! # Who receives an event

A socket is in a room because some `rpc:on` put it there, and that call looked at
the login state of the node once, before it waited for the application. So the
receiver of a protected event was authorized when this call looked, in an earlier
state of the same run, and it still is if its login state was not touched
since. -/
namespace TypeFerry.Server.Membership
open TypeFerry.Lib.Numeral TypeFerry.Lib.OrderedMap TypeFerry.Lib.Runs TypeFerry.Server.Rooms

/-! ## Members of a room -/

def Member (g : RoomRegistry) (ws : ℕ) (room : Text) : Prop := ws ∈ (g.rooms.get room).getD []

@[simp] theorem mem_addTo_iff {α : Type} [DecidableEq α] {x y : α} {xs : List α} :
    y ∈ addTo x xs ↔ y ∈ xs ∨ y = x := by
  unfold addTo
  split
  · next hx =>
    refine ⟨.inl, fun h => h.elim id fun hy => ?_⟩
    rw [hy]
    exact hx
  · simp

theorem mem_foldl_addTo {α : Type} [DecidableEq α] {y : α} (ys : List α) : ∀ xs : List α,
    y ∈ ys.foldl (fun xs x => addTo x xs) xs ↔ y ∈ xs ∨ y ∈ ys := by
  induction ys with
  | nil => simp
  | cons x ys ih =>
    intro xs
    rw [List.foldl_cons, ih, mem_addTo_iff, List.mem_cons, or_assoc]

@[simp] theorem mem_deleteFrom_iff {α : Type} [DecidableEq α] {x y : α} {xs : List α} :
    y ∈ deleteFrom x xs ↔ y ∈ xs ∧ y ≠ x := by
  simp [deleteFrom]

theorem member_join_iff {g : RoomRegistry} {ws ws' : ℕ} {room room' : Text} :
    Member (g.join ws room) ws' room' ↔ Member g ws' room' ∨ ws' = ws ∧ room' = room := by
  rw [Member, RoomRegistry.join, OMap.get_set]
  by_cases hroom : room' = room
  · simp [hroom, Member]
  · simp [hroom, Member]

theorem mem_dropMember_iff {ws ws' : ℕ} {rooms : OMap Text (List ℕ)} {room room' : Text} :
    ws' ∈ ((RoomRegistry.dropMember ws rooms room).get room').getD [] ↔
      ws' ∈ (rooms.get room').getD [] ∧ ¬ (ws' = ws ∧ room' = room) := by
  by_cases hroom : room' = room
  · subst hroom
    unfold RoomRegistry.dropMember
    split
    · next members hm =>
      split
      · next hnone =>
        -- The last member has left.
        have hall : ∀ m ∈ members, m = ws := by
          intro m hin
          by_contra hne
          have hleft := mem_deleteFrom_iff.mpr ⟨hin, hne⟩
          rw [hnone] at hleft
          cases hleft
        simp only [OMap.get_delete, if_pos, hm, Option.getD_some, Option.getD_none,
          List.not_mem_nil, and_true, false_iff, not_and, not_not]
        exact hall ws'
      · simp [hm]
    · next hm => simp [hm]
  · have hsame : ((RoomRegistry.dropMember ws rooms room).get room') = rooms.get room' := by
      unfold RoomRegistry.dropMember
      split
      · split
        · rw [OMap.get_delete, if_neg hroom]
        · rw [OMap.get_set, if_neg hroom]
      · rfl
    simp [hsame, hroom]

theorem member_leave_iff {g : RoomRegistry} {ws ws' : ℕ} {room room' : Text} :
    Member (g.leave ws room) ws' room' ↔ Member g ws' room' ∧ ¬ (ws' = ws ∧ room' = room) :=
  mem_dropMember_iff

theorem mem_dropAll_iff {ws ws' : ℕ} {room : Text} : ∀ (joined : List Text) (rooms : OMap Text (List ℕ)),
    ws' ∈ ((joined.foldl (RoomRegistry.dropMember ws) rooms).get room).getD [] ↔
      ws' ∈ (rooms.get room).getD [] ∧ ¬ (ws' = ws ∧ room ∈ joined) := by
  intro joined
  induction joined with
  | nil => simp
  | cons r joined ih =>
    intro rooms
    rw [List.foldl_cons, ih, mem_dropMember_iff, List.mem_cons]
    grind

theorem member_leaveAll {g : RoomRegistry} {ws ws' : ℕ} {room : Text}
    (h : Member (g.leaveAll ws) ws' room) : Member g ws' room := by
  unfold RoomRegistry.leaveAll at h
  split at h
  · next joined _ => exact ((mem_dropAll_iff joined g.rooms).mp h).1
  · exact h

theorem member_leaveEvents {s : State} {events : Events} {client ws : ℕ} {channel room : Text}
    {names : List Text} (h : Member (s.leaveEvents events client channel names).rooms ws room) :
    Member s.rooms ws room := by
  have hfold : ∀ (names : List Text) (g : RoomRegistry),
      Member (names.foldl (fun g eventName => if (events eventName).isSome then
        g.leave client (getRoomName channel eventName) else g) g) ws room → Member g ws room := by
    intro names
    induction names with
    | nil => exact fun _ h => h
    | cons n names ih =>
      intro g h
      have h' := ih _ h
      simp only at h'
      split at h'
      · exact (member_leave_iff.mp h').1
      · exact h'
  exact hfold names s.rooms h

/-! ## Calls that look and wait -/

/-- The node may receive the event of the channel. -/
def Authorized (events : Events) (s : State) (client : ℕ) (channel eventName : Text) : Prop :=
  ∃ event, events eventName = some event ∧
    (event.requiresLogin = true → (s.nodes client).authenticated = true) ∧
    (event.ownChannel = true → (s.nodes client).userId = some channel)

/-- The call at place `i` is an `rpc:on` of the client that waits for the application's answer about
the event of the channel, and that the framework has not refused. -/
def WaitsAt (s : State) (i client : ℕ) (channel eventName : Text) : Prop :=
  ∃ rest known, known ≠ some false ∧ s.tasks[i]? = some ⟨client, .onSubscribing eventName rest channel known⟩

/-- The place of a call behind a step: it moves up where a call in front of it returns. -/
def placeAfter (s s' : State) : Action → ℕ → ℕ
  | .resume k _, i => if k < i ∧ s'.tasks.length < s.tasks.length then i - 1 else i
  | _, i => i

/-- None of the actions resumes the call, which is at another place behind them. -/
inductive WaitsThrough (events : Events) (t : State) (i : ℕ) : List Action → State → ℕ → Prop where
  | refl : WaitsThrough events t i [] t i
  | tail {acts : List Action} {s s' : State} {a : Action} {j : ℕ} (h : WaitsThrough events t i acts s j)
      (hs : step events s a = some s') (hno : ∀ answer, a ≠ .resume j answer) :
      WaitsThrough events t i (acts ++ [a]) s' (placeAfter s s' a j)

/-- How a call came to wait: it was resumed in `asked`, looked at its node and asked the application,
and was not resumed since then. -/
structure Looked (events : Events) (acts : List Action) (s : State) (i client : ℕ)
    (channel eventName : Text) where
  before : List Action
  asked : State
  place : ℕ
  answer : Bool
  looked : State
  waiting : List Action
  split : acts = before ++ .resume place answer :: waiting
  run : (machine events).exec anyStep init before = some asked
  look : step events asked (.resume place answer) = some looked
  goesOn : looked.tasks.length = asked.tasks.length
  asks : WaitsAt looked place client channel eventName
  waits : WaitsThrough events looked place waiting s i

/-- How a socket came into a room: a call of its node looked and waited, and when it went on the
socket entered the room, in which it has been since. -/
structure Joined (events : Events) (acts : List Action) (s : State) (client : ℕ)
    (channel eventName : Text) where
  earlier : List Action
  waited : State
  place : ℕ
  call : Looked events earlier waited place client channel eventName
  answer : Bool
  joined : State
  later : List Action
  split : acts = earlier ++ .resume place answer :: later
  join : step events waited (.resume place answer) = some joined
  outside : ¬ Member waited.rooms client (getRoomName channel eventName)
  run : (machine events).exec anyStep joined later = some s
  stays : ∀ first rest t, later = first ++ rest → (machine events).exec anyStep joined first = some t →
    Member t.rooms client (getRoomName channel eventName)

/-- What happened since the call looked. -/
def Joined.since {events : Events} {acts : List Action} {s : State} {client : ℕ} {channel eventName : Text}
    (j : Joined events acts s client channel eventName) : List Action :=
  j.call.waiting ++ .resume j.place j.answer :: j.later

-- The equations are made here, before the many proofs that ask for them side by side.
section
attribute [local simp] step State.resume startNext State.moveTask placeAfter
end

section
variable {events : Events} {s s' : State} {acts : List Action} {a : Action}

/-- A call that starts to wait has just been checked. -/
theorem authorized_of_start {client : ℕ} {channel : Text} {names : List Text}
    {eventName channel' : Text} {rest : List Text} {known : Option Bool}
    (h : startNext events (s.nodes client) channel names =
      some (.onSubscribing eventName rest channel' known)) (hk : known ≠ some false) :
    Authorized events s client channel' eventName := by
  unfold startNext at h
  split at h
  · cases h
  · split at h
    · cases h
    · next event he =>
      split at h
      · next hallowed =>
        cases h
        refine ⟨event, he, fun hlogin => ?_, fun hown => ?_⟩
        · simpa [hlogin] using hallowed
        · simp only [EventOptions.ownChannel, Bool.and_eq_true, Bool.not_eq_true'] at hown
          have howns : (s.nodes client).owns channel = true := by
            cases ho : (s.nodes client).owns channel with
            | true => rfl
            | false => exact absurd (by simp [EventOptions.answer, hown, ho]) hk
          unfold ClientNode.owns at howns
          split at howns
          · next id hid =>
            rw [hid, (of_decide_eq_true howns).2]
          · cases howns
      · cases h

theorem nodes_moveTask {i client : ℕ} {stage : Option Stage} :
    (s.moveTask i client stage).nodes = s.nodes ∧ (s.moveTask i client stage).next = s.next := by
  cases stage <;> exact ⟨rfl, rfl⟩

theorem rooms_moveTask {i client : ℕ} {stage : Option Stage} :
    (s.moveTask i client stage).rooms = s.rooms := by
  cases stage <;> rfl

/-- A call that goes on at its place is where it was sent. -/
theorem stage_of_goesOn {i client : ℕ} {stage : Option Stage} {task : Task} (hi : i < s.tasks.length)
    (hlength : (s.moveTask i client stage).tasks.length = s.tasks.length)
    (h : (s.moveTask i client stage).tasks[i]? = some task) : stage = some task.stage ∧ task.client = client := by
  cases stage with
  | none =>
    have herase : (s.tasks.eraseIdx i).length = s.tasks.length := hlength
    rw [List.length_eraseIdx_of_lt hi] at herase
    omega
  | some stage =>
    have hset : (s.tasks.set i ⟨client, stage⟩)[i]? = some task := h
    rw [List.getElem?_set_self hi] at hset
    cases hset
    exact ⟨rfl, rfl⟩

/-- **The look authorizes**: a call that goes on and asks the application has found its node authorized. -/
theorem authorized_of_look {i client : ℕ} {answer : Bool} {channel eventName : Text}
    (hs : s.resume events i answer = some s') (hlength : s'.tasks.length = s.tasks.length)
    (h : WaitsAt s' i client channel eventName) : Authorized events s' client channel eventName := by
  obtain ⟨rest, known, hk, hwaits⟩ := h
  unfold State.resume at hs
  obtain ⟨⟨c, stage⟩, htask, hs⟩ := Option.bind_eq_some_iff.mp hs
  have hi : i < s.tasks.length := (List.getElem?_eq_some_iff.mp htask).1
  have hstart : ∀ {channel' : Text} {names : List Text},
      s' = s.moveTask i c (startNext events (s.nodes c) channel' names) →
      Authorized events s' client channel eventName := by
    rintro channel' names rfl
    obtain ⟨hstage, rfl⟩ := stage_of_goesOn hi hlength hwaits
    obtain ⟨event, he, hlogin, hown⟩ := authorized_of_start hstage hk
    refine ⟨event, he, ?_, ?_⟩
    · rwa [nodes_moveTask.1]
    · rwa [nodes_moveTask.1]
  cases stage with
  | onInvoked names channel' =>
    cases hs
    have hstage := (stage_of_goesOn hi hlength hwaits).1
    split at hstage <;> cases hstage
  | onChannel names channel' =>
    cases answer with
    | true =>
      cases hs
      exact hstart rfl
    | false =>
      cases hs
      cases (stage_of_goesOn hi hlength hwaits).1
  | onSubscribing eventName' rest' channel' known' =>
    have hmoved : s'.tasks = (s.moveTask i c (some (.onReturned rest' channel'))).tasks := by
      simp only at hs
      split at hs <;> cases hs <;> rfl
    rw [hmoved] at hlength hwaits
    cases (stage_of_goesOn hi hlength hwaits).1
  | onReturned rest' channel' =>
    cases hs
    exact hstart rfl
  | offInvoked names channel' =>
    cases hs
    cases (stage_of_goesOn hi hlength hwaits).1
  | logoutInvoked =>
    cases hs
    cases (stage_of_goesOn hi hlength hwaits).1

/-! ## One step -/

/-- A call that is resumed goes on at its place, or returns. -/
theorem tasks_resume {i : ℕ} {answer : Bool} (h : s.resume events i answer = some s') :
    i < s.tasks.length ∧ ((∃ task, s'.tasks = s.tasks.set i task) ∨ s'.tasks = s.tasks.eraseIdx i) := by
  unfold State.resume at h
  obtain ⟨⟨c, stage⟩, htask, h⟩ := Option.bind_eq_some_iff.mp h
  refine ⟨(List.getElem?_eq_some_iff.mp htask).1, ?_⟩
  have hmoved : ∀ stage', (∃ task, (s.moveTask i c stage').tasks = s.tasks.set i task) ∨
      (s.moveTask i c stage').tasks = s.tasks.eraseIdx i := by
    intro stage'
    cases stage' with
    | none => exact .inr rfl
    | some stage' => exact .inl ⟨_, rfl⟩
  cases stage with
  | onInvoked names channel => cases h; exact hmoved _
  | onChannel names channel => cases h; exact hmoved _
  | onSubscribing eventName rest channel known =>
    simp only at h
    split at h <;> cases h <;> exact .inl ⟨_, rfl⟩
  | onReturned rest channel => cases h; exact hmoved _
  | offInvoked names channel => cases h; exact .inr rfl
  | logoutInvoked => cases h; exact .inr rfl

/-- A call that waits behind a step has just asked, or waited through the step. -/
theorem waitsAt_step {j client : ℕ} {channel eventName : Text} (hs : step events s a = some s')
    (h : WaitsAt s' j client channel eventName) :
    ((∃ answer, a = .resume j answer) ∧ s'.tasks.length = s.tasks.length) ∨
      ∃ i, WaitsAt s i client channel eventName ∧ (∀ answer, a ≠ .resume i answer) ∧ placeAfter s s' a i = j := by
  obtain ⟨rest, known, hk, hwaits⟩ := h
  have hstays : (∀ i answer, a ≠ .resume i answer) → WaitsAt s j client channel eventName →
      ∃ i, WaitsAt s i client channel eventName ∧ (∀ answer, a ≠ .resume i answer) ∧ placeAfter s s' a i = j := by
    intro hno hw
    refine ⟨j, hw, hno j, ?_⟩
    cases a <;> first | rfl | exact absurd rfl (hno _ _)
  have hsame : s'.tasks = s.tasks → WaitsAt s j client channel eventName := by
    intro htasks
    rw [htasks] at hwaits
    exact ⟨rest, known, hk, hwaits⟩
  have hadded : ∀ {c : ℕ} {stage : Stage}, (∀ eventName rest channel known,
      stage ≠ .onSubscribing eventName rest channel known) → s' = s.addTask c stage →
      WaitsAt s j client channel eventName := by
    rintro c stage hstage rfl
    have happend : (s.tasks ++ [(⟨c, stage⟩ : Task)])[j]? = some ⟨client, .onSubscribing eventName rest channel known⟩ :=
      hwaits
    rw [List.getElem?_append] at happend
    split at happend
    · exact ⟨rest, known, hk, happend⟩
    · obtain hlast := List.mem_singleton.mp (List.mem_of_getElem? happend)
      exact absurd (congrArg Task.stage hlast).symm (hstage _ _ _ _)
  cases a with
  | connect => cases hs; exact .inr (hstays (by intro _ _ h; cases h) (hsame rfl))
  | authenticate c user =>
    rw [step] at hs
    split at hs <;> cases hs
    exact .inr (hstays (by intro _ _ h; cases h) (hsame rfl))
  | rpcOn c names channel' =>
    rw [step] at hs
    split at hs <;> cases hs
    exact .inr (hstays (by intro _ _ h; cases h) (hadded (by intro _ _ _ _ h; cases h) rfl))
  | rpcOff c names channel' =>
    rw [step] at hs
    split at hs <;> cases hs
    exact .inr (hstays (by intro _ _ h; cases h) (hadded (by intro _ _ _ _ h; cases h) rfl))
  | rpcLogout c =>
    rw [step] at hs
    split at hs <;> cases hs
    exact .inr (hstays (by intro _ _ h; cases h) (hadded (by intro _ _ _ _ h; cases h) rfl))
  | resume k answer =>
    obtain ⟨hk', ⟨task, htasks⟩ | htasks⟩ := tasks_resume hs
    · have hlength : s'.tasks.length = s.tasks.length := by rw [htasks, List.length_set]
      by_cases hj : k = j
      · exact .inl ⟨⟨answer, by rw [hj]⟩, hlength⟩
      · rw [htasks, List.getElem?_set_ne hj] at hwaits
        refine .inr ⟨j, ⟨rest, known, hk, hwaits⟩, fun _ h => hj (Action.resume.inj h).1, ?_⟩
        rw [placeAfter, if_neg (by omega)]
    · -- The calls behind one that returns move up.
      have hlength : s'.tasks.length = s.tasks.length - 1 := by rw [htasks, List.length_eraseIdx_of_lt hk']
      rw [htasks, List.getElem?_eraseIdx] at hwaits
      split at hwaits
      · next hlt =>
        refine .inr ⟨j, ⟨rest, known, hk, hwaits⟩, fun _ h => by have := (Action.resume.inj h).1; omega, ?_⟩
        rw [placeAfter, if_neg (by omega)]
      · next hge =>
        refine .inr ⟨j + 1, ⟨rest, known, hk, hwaits⟩, fun _ h => by have := (Action.resume.inj h).1; omega, ?_⟩
        rw [placeAfter, if_pos (by omega), Nat.add_sub_cancel]
  | shut c => cases hs; exact .inr (hstays (by intro _ _ h; cases h) (hsame rfl))
  | closed c =>
    rw [step] at hs
    split at hs <;> cases hs
    exact .inr (hstays (by intro _ _ h; cases h) (hsame rfl))
  | propagate channel' eventName' exclude => cases hs; exact .inr (hstays (by intro _ _ h; cases h) (hsame rfl))

/-- A socket that is in a room behind a step was in it, or a call that waited has put it there. -/
theorem member_step {ws : ℕ} {room : Text} (hs : step events s a = some s') (hm : Member s'.rooms ws room) :
    Member s.rooms ws room ∨ ∃ i answer channel eventName, a = .resume i answer ∧
      getRoomName channel eventName = room ∧ WaitsAt s i ws channel eventName := by
  cases a with
  | connect => cases hs; exact .inl hm
  | authenticate c user =>
    rw [step] at hs
    split at hs <;> cases hs
    exact .inl hm
  | rpcOn c names channel =>
    rw [step] at hs
    split at hs <;> cases hs
    exact .inl hm
  | rpcOff c names channel =>
    rw [step] at hs
    split at hs <;> cases hs
    exact .inl hm
  | rpcLogout c =>
    rw [step] at hs
    split at hs <;> cases hs
    exact .inl hm
  | resume i answer =>
    unfold step State.resume at hs
    obtain ⟨⟨client, stage⟩, htask, hs⟩ := Option.bind_eq_some_iff.mp hs
    cases stage with
    | onInvoked names channel =>
      cases hs
      rw [rooms_moveTask] at hm
      exact .inl hm
    | onChannel names channel =>
      cases hs
      rw [rooms_moveTask] at hm
      exact .inl hm
    | onSubscribing eventName rest channel known =>
      simp only at hs
      split at hs
      · next hyes =>
        cases hs
        refine (member_join_iff.mp hm).imp_right fun ⟨hws, hroom⟩ => ?_
        rw [hws, hroom]
        refine ⟨i, answer, channel, eventName, rfl, rfl, rest, known, fun hno => ?_, htask⟩
        rw [hno] at hyes
        cases hyes
      · cases hs
        exact .inl hm
    | onReturned rest channel =>
      cases hs
      rw [rooms_moveTask] at hm
      exact .inl hm
    | offInvoked names channel => cases hs; exact .inl (member_leaveEvents hm)
    | logoutInvoked => cases hs; exact .inl hm
  | shut c => cases hs; exact .inl hm
  | closed c =>
    rw [step] at hs
    split at hs <;> cases hs
    exact .inl (member_leaveAll (member_leaveAll hm))
  | propagate channel eventName exclude => cases hs; exact .inl hm

/-! ## Every run -/

theorem exec_snoc {t : State} (hrun : (machine events).exec anyStep t acts = some s)
    (hs : step events s a = some s') : (machine events).exec anyStep t (acts ++ [a]) = some s' := by
  rw [Machine.exec_append, hrun, Option.bind_some, Machine.exec, if_pos (show anyStep s a from trivial)]
  exact Option.bind_eq_some_iff.mpr ⟨s', hs, rfl⟩

section
variable {i client : ℕ} {channel eventName : Text}

theorem Looked.authorized (l : Looked events acts s i client channel eventName) :
    Authorized events l.looked client channel eventName := authorized_of_look l.look l.goesOn l.asks

def Looked.extend (l : Looked events acts s i client channel eventName) (hs : step events s a = some s')
    (hno : ∀ answer, a ≠ .resume i answer) :
    Looked events (acts ++ [a]) s' (placeAfter s s' a i) client channel eventName where
  before := l.before
  asked := l.asked
  place := l.place
  answer := l.answer
  looked := l.looked
  waiting := l.waiting ++ [a]
  split := (congrArg (· ++ [a]) l.split).trans (List.append_assoc ..)
  run := l.run
  look := l.look
  goesOn := l.goesOn
  asks := l.asks
  waits := l.waits.tail hs hno

def Joined.extend (j : Joined events acts s client channel eventName) (hs : step events s a = some s')
    (hm : Member s'.rooms client (getRoomName channel eventName)) :
    Joined events (acts ++ [a]) s' client channel eventName where
  earlier := j.earlier
  waited := j.waited
  place := j.place
  call := j.call
  answer := j.answer
  joined := j.joined
  later := j.later ++ [a]
  split := (congrArg (· ++ [a]) j.split).trans (List.append_assoc ..)
  join := j.join
  outside := j.outside
  run := exec_snoc j.run hs
  stays first rest t hsplit ht := by
    rcases List.eq_nil_or_concat rest with rfl | ⟨rest, b, rfl⟩
    · -- It is the state behind the step.
      rw [List.append_nil] at hsplit
      rw [← hsplit, exec_snoc j.run hs] at ht
      cases ht
      exact hm
    · rw [List.concat_eq_append, ← List.append_assoc] at hsplit
      exact j.stays first rest t (List.append_inj_left' hsplit rfl) ht

end

/-- Members and calls that wait have their history. -/
structure Inv (events : Events) (acts : List Action) (s : State) : Prop where
  members : ∀ ws room, Member s.rooms ws room → ∃ channel eventName,
    getRoomName channel eventName = room ∧ Nonempty (Joined events acts s ws channel eventName)
  waits : ∀ i client channel eventName, WaitsAt s i client channel eventName →
    Nonempty (Looked events acts s i client channel eventName)

theorem inv_init : Inv events [] init where
  members ws room h := by cases h
  waits i client channel eventName h := by
    obtain ⟨rest, known, -, hin⟩ := h
    cases hin

theorem inv_step (hrun : (machine events).exec anyStep init acts = some s)
    (h : Inv events acts s) (hs : step events s a = some s') : Inv events (acts ++ [a]) s' := by
  constructor
  · intro ws room hm
    by_cases hold : Member s.rooms ws room
    · obtain ⟨channel, eventName, rfl, ⟨j⟩⟩ := h.members ws room hold
      exact ⟨channel, eventName, rfl, ⟨j.extend hs hm⟩⟩
    · obtain ⟨i, answer, channel, eventName, rfl, rfl, hw⟩ := (member_step hs hm).resolve_left hold
      obtain ⟨l⟩ := h.waits i ws channel eventName hw
      refine ⟨channel, eventName, rfl, ⟨⟨acts, s, i, l, answer, s', [], rfl, hs, hold, rfl, ?_⟩⟩⟩
      intro first rest t hsplit ht
      obtain ⟨rfl, -⟩ := List.append_eq_nil_iff.mp hsplit.symm
      cases ht
      exact hm
  · intro j client channel eventName hw
    rcases waitsAt_step hs hw with ⟨⟨answer, rfl⟩, hlength⟩ | ⟨i, hw', hno, rfl⟩
    · exact ⟨⟨acts, s, j, answer, s', [], rfl, hrun, hs, hlength, hw, .refl⟩⟩
    · obtain ⟨l⟩ := h.waits i client channel eventName hw'
      exact ⟨l.extend hs hno⟩

/-- **Every member has come in by a call that looked.** -/
theorem inv_run : ∀ (acts : List Action) {s : State},
    (machine events).exec anyStep init acts = some s → Inv events acts s := by
  intro acts
  induction acts using List.reverseRecOn with
  | nil =>
    intro s h
    cases h
    exact inv_init
  | append_singleton acts a ih =>
    intro s h
    rw [Machine.exec_append] at h
    obtain ⟨t, ht, h⟩ := Option.bind_eq_some_iff.mp h
    rw [Machine.exec, if_pos (show anyStep t a from trivial)] at h
    obtain ⟨u, hu, h⟩ := Option.bind_eq_some_iff.mp h
    cases h
    exact inv_step ht (ih ht) hu

/-! ## Names of rooms -/

/-- No other declared event shares a room with the event: none of the two names ends in
a colon and the other. -/
def OwnRooms (events : Events) (eventName : Text) : Prop :=
  ∀ other, (events other).isSome → other ≠ eventName →
    ¬ (js ":" ++ eventName) <:+ other ∧ ¬ (js ":" ++ other) <:+ eventName

theorem suffix_of_room {c c' e e' : Text} (h : c ++ (js ":" ++ e) = c' ++ (js ":" ++ e'))
    (hlen : c.length ≤ c'.length) : c = c' ∧ e = e' ∨ (js ":" ++ e') <:+ e := by
  rcases List.append_eq_append_iff.mp h with ⟨x, hc', he⟩ | ⟨x, hc, he⟩
  · cases x with
    | nil =>
      rw [List.append_nil] at hc'
      exact .inl ⟨hc'.symm, List.append_cancel_left he⟩
    | cons y x =>
      have hcons : e = x ++ (js ":" ++ e') := (List.cons.inj he).2
      exact .inr ⟨x, hcons.symm⟩
  · have hx : x = [] := by
      have := congrArg List.length hc
      rw [List.length_append] at this
      exact List.length_eq_zero_iff.mp (by omega)
    rw [hx, List.append_nil] at hc
    rw [hx, List.nil_append] at he
    exact .inl ⟨hc, (List.append_cancel_left he).symm⟩

theorem roomName_inj {c c' e e' : Text} (h : getRoomName c e = getRoomName c' e')
    (he : ¬ (js ":" ++ e') <:+ e) (he' : ¬ (js ":" ++ e) <:+ e') : c = c' ∧ e = e' := by
  simp only [getRoomName, List.append_assoc, List.append_cancel_left_eq] at h
  rcases Nat.le_total c.length c'.length with hlen | hlen
  · exact (suffix_of_room h hlen).resolve_right he
  · obtain ⟨hc, hee⟩ := (suffix_of_room h.symm hlen).resolve_right he'
    exact ⟨hc.symm, hee.symm⟩

/-! ## Login states -/

/-- A call changes no node, unless it is a logout. -/
theorem nodes_resume {i : ℕ} {answer : Bool} (h : s.resume events i answer = some s') :
    s'.next = s.next ∧ (s'.nodes = s.nodes ∨ ∃ client, s.tasks[i]? = some ⟨client, .logoutInvoked⟩ ∧
      s'.nodes = Function.update s.nodes client
        { s.nodes client with authenticated := false, userId := none }) := by
  unfold State.resume at h
  obtain ⟨⟨client, stage⟩, htask, h⟩ := Option.bind_eq_some_iff.mp h
  cases stage with
  | onInvoked names channel =>
    cases h
    exact ⟨nodes_moveTask.2, .inl nodes_moveTask.1⟩
  | onChannel names channel =>
    cases h
    exact ⟨nodes_moveTask.2, .inl nodes_moveTask.1⟩
  | onSubscribing eventName rest channel known =>
    simp only at h
    split at h <;> cases h <;> exact ⟨rfl, .inl rfl⟩
  | onReturned rest channel =>
    cases h
    exact ⟨nodes_moveTask.2, .inl nodes_moveTask.1⟩
  | offInvoked names channel =>
    cases h
    exact ⟨rfl, .inl rfl⟩
  | logoutInvoked =>
    cases h
    exact ⟨rfl, .inr ⟨client, htask, rfl⟩⟩

/-- The node is there as before, with the same login state. -/
structure Keeps (s s' : State) (client : ℕ) : Prop where
  authenticated : (s'.nodes client).authenticated = (s.nodes client).authenticated
  userId : (s'.nodes client).userId = (s.nodes client).userId
  next : s.next ≤ s'.next

theorem keeps_of_nodes {client : ℕ} (hn : s'.nodes client = s.nodes client)
    (hnext : s.next ≤ s'.next) : Keeps s s' client :=
  ⟨by rw [hn], by rw [hn], hnext⟩

/-- A step that is no login or logout of the node keeps its login state. -/
theorem keeps_step {a : Action} {client : ℕ} (hold : client < s.next)
    (hno : s.relogs client a = false) (hs : step events s a = some s') : Keeps s s' client := by
  cases a with
  | connect =>
    cases hs
    exact keeps_of_nodes (Function.update_of_ne (Nat.ne_of_lt hold) _ _) (Nat.le_succ _)
  | authenticate c user =>
    have hne : client ≠ c := fun h => by simp [State.relogs, h] at hno
    rw [step] at hs
    split at hs
    · cases hs
      exact keeps_of_nodes (Function.update_of_ne hne _ _) (Nat.le_refl _)
    · cases hs
  | rpcOn c names channel =>
    rw [step] at hs
    split at hs <;> cases hs
    exact keeps_of_nodes rfl (Nat.le_refl _)
  | rpcOff c names channel =>
    rw [step] at hs
    split at hs <;> cases hs
    exact keeps_of_nodes rfl (Nat.le_refl _)
  | rpcLogout c =>
    rw [step] at hs
    split at hs <;> cases hs
    exact keeps_of_nodes rfl (Nat.le_refl _)
  | resume i answer =>
    obtain ⟨hnext, hn | ⟨c, htask, hn⟩⟩ := nodes_resume hs
    · exact keeps_of_nodes (by rw [hn]) hnext.ge
    · have hne : client ≠ c := fun h => by simp [State.relogs, htask, h] at hno
      exact keeps_of_nodes (by rw [hn, Function.update_of_ne hne]) hnext.ge
  | shut c =>
    cases hs
    by_cases hc : client = c
    · subst hc
      constructor <;> simp [State.updateNode]
    · exact keeps_of_nodes (Function.update_of_ne hc _ _) (Nat.le_refl _)
  | closed c =>
    rw [step] at hs
    split at hs <;> cases hs
    exact keeps_of_nodes rfl (Nat.le_refl _)
  | propagate channel eventName exclude =>
    cases hs
    exact keeps_of_nodes rfl (Nat.le_refl _)

/-- Sockets that are not there yet belong to nobody. -/
def Absent (s : State) : Prop := ∀ n, s.next ≤ n → s.nodes n = ⟨false, none, false⟩

theorem absent_step {a : Action} (h : Absent s) (hs : step events s a = some s') : Absent s' := by
  intro n hn
  cases a with
  | connect =>
    cases hs
    have hne : n ≠ s.next := fun heq => by
      rw [heq] at hn
      exact Nat.not_succ_le_self _ hn
    exact (Function.update_of_ne hne _ _).trans (h n (Nat.le_of_succ_le hn))
  | authenticate c user =>
    rw [step] at hs
    split at hs
    · next hopen =>
      cases hs
      have hne : n ≠ c := fun heq => by
        rw [← heq, h n hn] at hopen
        cases hopen
      exact (Function.update_of_ne hne _ _).trans (h n hn)
    · cases hs
  | rpcOn c names channel =>
    rw [step] at hs
    split at hs <;> cases hs
    exact h n hn
  | rpcOff c names channel =>
    rw [step] at hs
    split at hs <;> cases hs
    exact h n hn
  | rpcLogout c =>
    rw [step] at hs
    split at hs <;> cases hs
    exact h n hn
  | resume i answer =>
    obtain ⟨hnext, hn' | ⟨c, htask, hn'⟩⟩ := nodes_resume hs
    · rw [hn']
      exact h n (hnext ▸ hn)
    · rw [hn']
      by_cases hc : n = c
      · rw [← hc, Function.update_self, h n (hnext ▸ hn)]
      · rw [Function.update_of_ne hc]
        exact h n (hnext ▸ hn)
  | shut c =>
    cases hs
    have hold := h n hn
    by_cases hc : n = c
    · simp [State.updateNode, ← hc, hold]
    · exact (Function.update_of_ne hc _ _).trans hold
  | closed c =>
    rw [step] at hs
    split at hs <;> cases hs
    exact h n hn
  | propagate channel eventName exclude =>
    cases hs
    exact h n hn

/-- **Authorization lasts** as long as the login state is not touched. -/
theorem authorized_lasts {client : ℕ} {channel eventName : Text} {after : List Action} {t : State}
    (ht : Absent t) (hauth : Authorized events t client channel eventName)
    (hrun : (machine events).exec (fun s a => s.relogs client a = false) t after = some s) :
    Authorized events s client channel eventName := by
  obtain ⟨event, he, hlogin, hown⟩ := hauth
  by_cases hr : event.requiresLogin = true
  · have hold : client < t.next := by
      by_contra hge
      have hyes := hlogin hr
      rw [ht client (Nat.le_of_not_lt hge)] at hyes
      cases hyes
    have hkeep : Keeps t s client := by
      refine (Machine.steps_of_exec after hrun).invariant (fun u => Keeps t u client)
        (keeps_of_nodes rfl (Nat.le_refl _)) ?_
      intro u a u' hk hok hs
      have hst := keeps_step (Nat.lt_of_lt_of_le hold hk.next) hok hs
      exact ⟨hst.authenticated.trans hk.authenticated, hst.userId.trans hk.userId,
        Nat.le_trans hk.next hst.next⟩
    refine ⟨event, he, fun _ => ?_, fun ho => ?_⟩
    · rw [hkeep.authenticated, hlogin hr]
    · rw [hkeep.userId, hown ho]
  · -- An event that needs no login is not bound to a user's channel.
    refine ⟨event, he, fun h => absurd h hr, fun ho => absurd ?_ hr⟩
    simp only [EventOptions.ownChannel, Bool.and_eq_true] at ho
    simp [EventOptions.requiresLogin, ho.1]

end

/-! ## Receivers -/

/-- **Receivers were authorized.** In every run, a socket that gets an event is open, and a call
`rpc:on` of its node has put it into the room of the event and the channel, in which it has been
since. When that call looked, the node was authorized. It still is, if the node neither logged out
nor was authenticated again since. -/
theorem receiver_was_authorized {events : Events} {acts : List Action} {s : State}
    (hrun : (machine events).exec anyStep init acts = some s) {channel eventName : Text}
    (hown : OwnRooms events eventName) {exclude : Option ℕ} {client : ℕ}
    (hsent : client ∈ s.propagate events channel eventName exclude) :
    (s.nodes client).isOpen = true ∧ exclude ≠ some client ∧
      ∃ j : Joined events acts s client channel eventName,
        Authorized events j.call.looked client channel eventName ∧
        ((machine events).exec (fun s a => s.relogs client a = false) j.call.looked j.since = some s →
          Authorized events s client channel eventName) := by
  unfold State.propagate at hsent
  split at hsent
  · next hdecl =>
    obtain ⟨hmem, hopen⟩ := List.mem_filter.mp hsent
    simp only [Bool.and_eq_true, decide_eq_true_eq] at hopen
    obtain ⟨channel', eventName', hroom, ⟨j⟩⟩ := (inv_run acts hrun).members client _ hmem
    have hauth := j.call.authorized
    obtain ⟨event, he, -, -⟩ := id hauth
    have hsame : channel' = channel ∧ eventName' = eventName := by
      by_cases heq : eventName' = eventName
      · subst heq
        simp only [getRoomName, List.append_assoc, List.append_cancel_left_eq] at hroom
        exact ⟨List.append_cancel_right hroom, rfl⟩
      · obtain ⟨h₁, h₂⟩ := hown eventName' (by rw [he]; rfl) heq
        exact roomName_inj hroom h₁ h₂
    obtain ⟨rfl, rfl⟩ := hsame
    have habs : Absent j.call.looked := by
      refine (Machine.steps_of_exec _ (exec_snoc j.call.run j.call.look)).invariant Absent (fun _ _ => rfl) ?_
      intro u a u' hu _ hs
      exact absent_step hu hs
    exact ⟨hopen.2, hopen.1, j, hauth, authorized_lasts habs hauth⟩
  · cases hsent

/-- One event, for users on their own channel. -/
def notes : Events := fun eventName => if eventName = js "note" then some ⟨false, true, false⟩ else none

/-- A node logs in as `u` and subscribes to its notes. -/
def subscribed : List Action :=
  [.connect, .authenticate 0 (some (js "u")), .rpcOn 0 [js "note"] (some (js "u")),
    .resume 0 true, .resume 0 true, .resume 0 true, .resume 0 true]

theorem notes_ownRooms : OwnRooms notes (js "note") := by
  intro other hdecl hne
  rw [notes, if_neg hne] at hdecl
  cases hdecl

theorem receiver_was_authorized_subscribed : ∃ s, (machine notes).exec anyStep init subscribed = some s ∧
    0 ∈ s.propagate notes (js "u") (js "note") none ∧
    ∃ j : Joined notes subscribed s 0 (js "u") (js "note"), Authorized notes j.call.looked 0 (js "u") (js "note") := by
  have hex : ((machine notes).exec anyStep init subscribed).any (fun s =>
      decide (0 ∈ s.propagate notes (js "u") (js "note") none)) = true := by decide
  obtain ⟨s, hs, hsent⟩ := (Option.any_eq_true _ _).mp hex
  have hsent := of_decide_eq_true hsent
  obtain ⟨-, -, j, hauth, -⟩ := receiver_was_authorized hs notes_ownRooms hsent
  exact ⟨s, hs, hsent, j, hauth⟩

/-- Behind a logout the socket is still in the room: it gets the notes of a user that
its node is not any more. -/
theorem logged_out_receiver : ∃ acts s, (machine notes).exec anyStep init acts = some s ∧
    0 ∈ s.propagate notes (js "u") (js "note") none ∧ (s.nodes 0).authenticated = false ∧
    (s.nodes 0).userId ≠ some (js "u") := by
  have hex : ((machine notes).exec anyStep init
      (subscribed ++ [.rpcLogout 0, .resume 0 true])).any (fun s =>
        decide (0 ∈ s.propagate notes (js "u") (js "note") none) && !(s.nodes 0).authenticated &&
          decide ((s.nodes 0).userId ≠ some (js "u"))) = true := by decide
  obtain ⟨s, hs, hp⟩ := (Option.any_eq_true _ _).mp hex
  simp only [Bool.and_eq_true, decide_eq_true_eq, Bool.not_eq_true'] at hp
  exact ⟨_, s, hs, hp.1.1, hp.1.2, hp.2⟩

end TypeFerry.Server.Membership
