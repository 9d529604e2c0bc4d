import TypeFerry.Server.Registry

/-! # Which vocabularies of events keep channels apart

A room is named by its channel and its event with a colon between them, and a
channel is whatever the client says. So two pairs can share a room exactly where one
event's name ends in a colon and another's. -/
namespace TypeFerry.Server.Isolation
open TypeFerry.Lib.Numeral TypeFerry.Lib.OrderedMap TypeFerry.Lib.Runs
open TypeFerry.Server.Rooms TypeFerry.Server.Membership TypeFerry.Server.Registry

/-- No declared name ends in a colon and a declared name. -/
def Separated (events : Events) : Prop :=
  ∀ e₁ e₂, (events e₁).isSome = true → (events e₂).isSome = true → ¬ (js ":" ++ e₂) <:+ e₁

/-- The step takes the client out of the pair: its `rpc:off` runs, or its socket is at an end. -/
def drops (s : State) (client : ℕ) (channel eventName : Text) : Action → Bool
  | .closed c => c == client
  | .resume i _ => match s.tasks[i]? with
    | some ⟨c, .offInvoked names channel'⟩ =>
      c == client && decide (channel' = channel ∧ eventName ∈ names)
    | _ => false
  | _ => false

/-- `rpc:on` admitted the client to the pair, and no step has dropped it since. -/
def AdmittedSince (events : Events) (acts : List Action) (s : State) (client : ℕ)
    (channel eventName : Text) : Prop :=
  ∃ before a after t t', acts = before ++ a :: after ∧
    (machine events).exec anyStep init before = some t ∧
    Admits t a client channel eventName ∧ step events t a = some t' ∧
    (machine events).exec (fun s a => drops s client channel eventName a = false) t' after = some s

/-- `rpc:on` admitted the client to the pair at some time. -/
def Admission (events : Events) (acts : List Action) (client : ℕ) (channel eventName : Text) : Prop :=
  ∃ before a after t, acts = before ++ a :: after ∧
    (machine events).exec anyStep init before = some t ∧ Admits t a client channel eventName

section
variable {events : Events} {s s' : State} {acts : List Action} {client : ℕ}
  {channel eventName room : Text} {a : Action}

/-! ## Members were admitted -/

theorem AdmittedSince.extend (h : AdmittedSince events acts s client channel eventName)
    (hno : drops s client channel eventName a = false) (hs : step events s a = some s') :
    AdmittedSince events (acts ++ [a]) s' client channel eventName := by
  obtain ⟨before, a₀, after, t, t', rfl, hb, hadm, ht, ha⟩ := h
  refine ⟨before, a₀, after ++ [a], t, t', ?_, hb, hadm, ht, ?_⟩
  · rw [List.append_assoc, List.cons_append]
  · rw [Machine.exec_append, ha, Option.bind_some, Machine.exec, if_pos hno]
    exact Option.bind_eq_some_iff.mpr ⟨s', hs, rfl⟩

/-- A member was one before the step, or the step admits it. -/
theorem member_of_step (hs : step events s a = some s') (hm : Member s'.rooms client room) :
    Member s.rooms client room ∨
      ∃ channel eventName, Admits s a client channel eventName ∧ room = getRoomName channel eventName := by
  cases roomStep hs with
  | same h => exact .inl (by rwa [h] at hm)
  | join hadm h =>
    rw [h] at hm
    rcases member_join_iff.mp hm with hm | ⟨rfl, hroom⟩
    · exact .inl hm
    · exact .inr ⟨_, _, hadm, hroom⟩
  | off _ _ h =>
    rw [h] at hm
    exact .inl ((member_leaveNames_iff _ _).mp hm).1
  | closed _ h =>
    rw [h] at hm
    exact .inl (member_leaveAll (member_leaveAll hm))

/-- What drops the pair takes the client out of its room. -/
theorem not_member_of_drops (hg : Consistent s.rooms) (hdecl : (events eventName).isSome = true)
    (hdrops : drops s client channel eventName a = true) (hs : step events s a = some s') :
    ¬ Member s'.rooms client (getRoomName channel eventName) := by
  cases a with
  | closed c =>
    have hc : c = client := by simpa [drops] using hdrops
    rw [step] at hs
    split at hs <;> cases hs
    rw [hc, member_leaveAll_iff (consistent_leaveAll hg client)]
    exact fun h => h.2 rfl
  | resume i answer =>
    rw [drops] at hdrops
    split at hdrops
    · next c names channel' htask =>
      simp only [Bool.and_eq_true, beq_iff_eq, decide_eq_true_eq] at hdrops
      obtain ⟨rfl, rfl, hin⟩ := hdrops
      obtain ⟨_, ht, hs⟩ := Option.bind_eq_some_iff.mp hs
      rw [htask] at ht
      cases ht
      cases hs
      intro hm
      exact ((member_leaveNames_iff _ _).mp hm).2 ⟨rfl, eventName, hin, hdecl, rfl⟩
    · cases hdrops
  | connect => cases hdrops
  | authenticate c user => cases hdrops
  | rpcOn c names channel => cases hdrops
  | rpcOff c names channel => cases hdrops
  | rpcLogout c => cases hdrops
  | shut c => cases hdrops
  | propagate channel eventName exclude => cases hdrops

/-- An admitted event is a declared one. -/
theorem declared_of_admits (hrun : (machine events).exec anyStep init acts = some s)
    (h : Admits s a client channel eventName) : (events eventName).isSome = true := by
  obtain ⟨i, answer, rest, known, -, hyes, htask⟩ := h
  have hknown : known ≠ some false := by
    intro hno
    rw [hno] at hyes
    cases hyes
  have hwaits : WaitsAt s i client channel eventName := ⟨rest, known, hknown, htask⟩
  obtain ⟨l⟩ := (inv_run acts hrun).waits i client channel eventName hwaits
  obtain ⟨event, he, -⟩ := l.authorized
  rw [he]
  rfl

/-- Every member of a room was admitted to a pair of that room, and has not left it. -/
def Held (events : Events) (acts : List Action) (s : State) : Prop :=
  ∀ client room, Member s.rooms client room → ∃ channel eventName,
    getRoomName channel eventName = room ∧ (events eventName).isSome = true ∧
      AdmittedSince events acts s client channel eventName

theorem held_step (hrun : (machine events).exec anyStep init acts = some s) (h : Held events acts s)
    (hs : step events s a = some s') : Held events (acts ++ [a]) s' := by
  intro client room hm
  have hstays : ∀ {channel eventName}, getRoomName channel eventName = room →
      (events eventName).isSome = true → drops s client channel eventName a = false := by
    intro channel eventName hroom hdecl
    refine Bool.eq_false_iff.mpr fun hdrops => ?_
    rw [← hroom] at hm
    exact not_member_of_drops (consistent_run hrun) hdecl hdrops hs hm
  rcases member_of_step hs hm with hold | ⟨channel, eventName, hadm, hroom⟩
  · obtain ⟨channel, eventName, hroom, hdecl, hc⟩ := h client room hold
    exact ⟨channel, eventName, hroom, hdecl, hc.extend (hstays hroom hdecl) hs⟩
  · exact ⟨channel, eventName, hroom.symm, declared_of_admits hrun hadm,
      acts, a, [], s, s', rfl, hrun, hadm, hs, rfl⟩

theorem held_run : ∀ (acts : List Action) {s : State},
    (machine events).exec anyStep init acts = some s → Held events acts s := by
  intro acts
  induction acts using List.reverseRecOn with
  | nil =>
    intro s h client room hm
    cases h
    cases hm
  | append_singleton acts a ih =>
    intro s h
    rw [Machine.exec_append] at h
    obtain ⟨t, ht, h⟩ := Option.bind_eq_some_iff.mp h
    rw [Machine.exec, if_pos (show anyStep t a from trivial)] at h
    obtain ⟨u, hu, h⟩ := Option.bind_eq_some_iff.mp h
    cases h
    exact held_step ht (ih ht) hu

/-! ## Admissions were asked for -/

/-- The call still has to see to the event, on that channel. -/
def Asks (channel eventName : Text) : Stage → Prop
  | .onInvoked names c | .onChannel names c | .onReturned names c => c = channel ∧ eventName ∈ names
  | .onSubscribing e rest c _ => c = channel ∧ eventName ∈ e :: rest
  | .offInvoked _ _ | .logoutInvoked => False

theorem asks_startNext {node : ClientNode} {c : Text} {names : List Text} {stage : Stage}
    (hn : startNext events node c names = some stage) (h : Asks channel eventName stage) :
    c = channel ∧ eventName ∈ names := by
  unfold startNext at hn
  split at hn
  · cases hn
  · split at hn
    · cases hn
      exact ⟨h.1, List.mem_cons_of_mem _ h.2⟩
    · split at hn
      · cases hn
        exact h
      · cases hn
        exact ⟨h.1, List.mem_cons_of_mem _ h.2⟩

/-- A call asks for what it asked for before the step, or it is a new one. -/
def Continues (s : State) (a : Action) (channel eventName : Text) (task : Task) : Prop :=
  (∃ old ∈ s.tasks, old.client = task.client ∧ Asks channel eventName old.stage) ∨
    ∃ names c, a = .rpcOn task.client names c ∧ channelOf c = channel ∧ eventName ∈ names

/-- A task that goes on is as it was, or is at its new place. -/
theorem mem_moveTask {i client : ℕ} {stage : Option Stage} {task : Task}
    (h : task ∈ (s.moveTask i client stage).tasks) : task ∈ s.tasks ∨ some task.stage = stage ∧
      task.client = client := by
  cases stage with
  | none => exact .inl (List.mem_of_mem_eraseIdx h)
  | some stage =>
    rcases List.mem_or_eq_of_mem_set h with h | h
    · exact .inl h
    · exact .inr (by rw [h]; exact ⟨rfl, rfl⟩)

theorem continues_moveTask {i c : ℕ} {old : Stage} {stage : Option Stage} {task : Task}
    (hold : (⟨c, old⟩ : Task) ∈ s.tasks)
    (hmoves : ∀ new, stage = some new → Asks channel eventName new → Asks channel eventName old)
    (hin : task ∈ (s.moveTask i c stage).tasks) (h : Asks channel eventName task.stage) :
    Continues s a channel eventName task := by
  rcases mem_moveTask hin with hin | ⟨hstage, hc⟩
  · exact .inl ⟨task, hin, rfl, h⟩
  · exact .inl ⟨_, hold, hc.symm, hmoves _ hstage.symm h⟩

theorem continues_resume {i : ℕ} {answer : Bool} (hs : s.resume events i answer = some s') {task : Task}
    (hin : task ∈ s'.tasks) (h : Asks channel eventName task.stage) :
    Continues s a channel eventName task := by
  unfold State.resume at hs
  obtain ⟨⟨c, stage⟩, htask, hs⟩ := Option.bind_eq_some_iff.mp hs
  have hold : (⟨c, stage⟩ : Task) ∈ s.tasks := List.mem_of_getElem? htask
  cases stage with
  | onInvoked names ch =>
    cases hs
    refine continues_moveTask hold (fun new hnew hasks => ?_) hin h
    split at hnew <;> cases hnew
    exact hasks
  | onChannel names ch =>
    cases hs
    refine continues_moveTask hold (fun new hnew hasks => ?_) hin h
    split at hnew
    · exact asks_startNext hnew hasks
    · cases hnew
  | onSubscribing e rest ch known =>
    have hmoves : ∀ new, some (Stage.onReturned rest ch) = some new → Asks channel eventName new →
        Asks channel eventName (.onSubscribing e rest ch known) := by
      intro new hnew hasks
      cases hnew
      exact ⟨hasks.1, List.mem_cons_of_mem _ hasks.2⟩
    simp only at hs
    split at hs <;> cases hs <;> exact continues_moveTask hold hmoves hin h
  | onReturned rest ch =>
    cases hs
    exact continues_moveTask hold (fun new hnew hasks => asks_startNext hnew hasks) hin h
  | offInvoked names ch =>
    cases hs
    exact continues_moveTask hold (fun new hnew => by cases hnew) hin h
  | logoutInvoked =>
    cases hs
    exact continues_moveTask hold (fun new hnew => by cases hnew) hin h

theorem continues_step (hs : step events s a = some s') {task : Task} (hin : task ∈ s'.tasks)
    (h : Asks channel eventName task.stage) : Continues s a channel eventName task := by
  cases a with
  | resume i answer => exact continues_resume hs hin h
  | rpcOn c names ch =>
    rw [step] at hs
    split at hs <;> cases hs
    rcases List.mem_append.mp hin with hin | hin
    · exact .inl ⟨task, hin, rfl, h⟩
    · rw [List.mem_singleton.mp hin] at h ⊢
      exact .inr ⟨names, ch, rfl, h⟩
  | rpcOff c names ch =>
    rw [step] at hs
    split at hs <;> cases hs
    rcases List.mem_append.mp hin with hin | hin
    · exact .inl ⟨task, hin, rfl, h⟩
    · rw [List.mem_singleton.mp hin] at h
      cases h
  | rpcLogout c =>
    rw [step] at hs
    split at hs <;> cases hs
    rcases List.mem_append.mp hin with hin | hin
    · exact .inl ⟨task, hin, rfl, h⟩
    · rw [List.mem_singleton.mp hin] at h
      cases h
  | connect =>
    cases hs
    exact .inl ⟨task, hin, rfl, h⟩
  | authenticate c user =>
    rw [step] at hs
    split at hs <;> cases hs
    exact .inl ⟨task, hin, rfl, h⟩
  | shut c =>
    cases hs
    exact .inl ⟨task, hin, rfl, h⟩
  | closed c =>
    rw [step] at hs
    split at hs <;> cases hs
    exact .inl ⟨task, hin, rfl, h⟩
  | propagate ch e exclude =>
    cases hs
    exact .inl ⟨task, hin, rfl, h⟩

/-- The client has called `rpc:on` for the event and the channel. -/
def Requested (acts : List Action) (client : ℕ) (channel eventName : Text) : Prop :=
  ∃ names c, .rpcOn client names c ∈ acts ∧ channelOf c = channel ∧ eventName ∈ names

theorem requested_of_asks : ∀ (acts : List Action) {s : State},
    (machine events).exec anyStep init acts = some s → ∀ {channel eventName : Text}, ∀ task ∈ s.tasks,
      Asks channel eventName task.stage → Requested acts task.client channel eventName := by
  intro acts
  induction acts using List.reverseRecOn with
  | nil =>
    intro s hrun channel eventName task hin
    cases hrun
    cases hin
  | append_singleton acts a ih =>
    intro s hrun channel eventName task hin hasks
    rw [Machine.exec_append] at hrun
    obtain ⟨t, ht, hrun⟩ := Option.bind_eq_some_iff.mp hrun
    rw [Machine.exec, if_pos (show anyStep t a from trivial)] at hrun
    obtain ⟨u, hu, hrun⟩ := Option.bind_eq_some_iff.mp hrun
    cases hrun
    rcases continues_step hu hin hasks with ⟨old, hold, hc, hasks⟩ | ⟨names, c, rfl, hc, hname⟩
    · obtain ⟨names, c, hmem, hrest⟩ := ih ht old hold hasks
      rw [hc] at hmem
      exact ⟨names, c, List.mem_append_left _ hmem, hrest⟩
    · exact ⟨names, c, List.mem_append_right _ List.mem_cons_self, hc, hname⟩

/-- **Admissions were asked for.** -/
theorem requested_of_admission (h : Admission events acts client channel eventName) :
    Requested acts client channel eventName := by
  obtain ⟨before, a, after, t, rfl, hb, i, answer, rest, known, -, -, htask⟩ := h
  obtain ⟨names, c, hmem, hrest⟩ := requested_of_asks before hb _ (List.mem_of_getElem? htask)
    (show Asks channel eventName (.onSubscribing eventName rest channel known) from
      ⟨rfl, List.mem_cons_self⟩)
  exact ⟨names, c, List.mem_append_left _ hmem, hrest⟩

/-! ## The way in by another event -/

/-- A node logs in as the user that the channel names and subscribes to one event there. -/
def subscribeTo (channel eventName : Text) : List Action :=
  [.connect, .authenticate 0 (some channel), .rpcOn 0 [eventName] (some channel),
    .resume 0 true, .resume 0 true, .resume 0 true]

theorem subscribeTo_receives {event : EventOptions} (he : events eventName = some event)
    (hc : channel ≠ []) : ∃ s, (machine events).exec anyStep init (subscribeTo channel eventName) = some s ∧
      Member s.rooms 0 (getRoomName channel eventName) ∧ (s.nodes 0).isOpen = true := by
  have hanswer : (event.answer ⟨true, some channel, true⟩ channel).getD true = true := by
    unfold EventOptions.answer
    split
    · rfl
    · split
      · simp [ClientNode.owns, hc]
      · rfl
  refine ⟨⟨Function.update init.nodes 0 ⟨true, some channel, true⟩, 1,
    init.rooms.join 0 (getRoomName channel eventName), [⟨0, .onReturned [] channel⟩]⟩, ?_, ?_, ?_⟩
  · simp [subscribeTo, Machine.exec, anyStep, machine, step, he, hanswer, State.resume, startNext, init,
      State.updateNode, State.addTask, State.moveTask, channelOf]
  · exact member_join_iff.mpr (.inr ⟨rfl, rfl⟩)
  · rfl

/-- A receiver is a member of the room, and its socket is open. -/
theorem mem_propagate {exclude : Option ℕ} : client ∈ s.propagate events channel eventName exclude ↔
    (events eventName).isSome = true ∧ Member s.rooms client (getRoomName channel eventName) ∧
      exclude ≠ some client ∧ (s.nodes client).isOpen = true := by
  unfold State.propagate RoomRegistry.broadcast
  split
  · next hdecl => simp [hdecl, Member]
  · next hdecl => simp [hdecl]

end

/-- **Channels are isolated exactly when the vocabulary is separated.** If no declared name
ends in a colon and a declared name, then in every run whoever gets an event of a channel
was admitted to just this pair and has not left it since. If some name does, then the longer
one reaches a client that was admitted to the shorter one only. -/
theorem channel_isolation (events : Events) :
    (Separated events → ∀ (acts : List Action) (s : State),
      (machine events).exec anyStep init acts = some s →
      ∀ (channel eventName : Text) (exclude : Option ℕ) (client : ℕ),
        client ∈ s.propagate events channel eventName exclude →
        AdmittedSince events acts s client channel eventName) ∧
    ∀ e₁ e₂ t : Text, (events e₁).isSome = true → (events e₂).isSome = true →
      e₁ = t ++ js ":" ++ e₂ → ∀ c₁ : Text, ∃ c₂ acts s client,
        (machine events).exec anyStep init acts = some s ∧
        client ∈ s.propagate events c₁ e₁ none ∧
        Admission events acts client c₂ e₂ ∧
        ∀ channel eventName, Admission events acts client channel eventName →
          channel = c₂ ∧ eventName = e₂ := by
  constructor
  · intro hsep acts s hrun channel eventName exclude client hsent
    obtain ⟨hdecl, hm, -⟩ := mem_propagate.mp hsent
    obtain ⟨channel', eventName', hroom, hdecl', hadm⟩ := held_run acts hrun client _ hm
    obtain ⟨rfl, rfl⟩ := roomName_inj hroom (hsep _ _ hdecl' hdecl) (hsep _ _ hdecl hdecl')
    exact hadm
  · intro e₁ e₂ t hdecl₁ hdecl₂ heq c₁
    obtain ⟨event, he₂⟩ := Option.isSome_iff_exists.mp hdecl₂
    have hc : c₁ ++ js ":" ++ t ≠ [] := by
      simp [js]
    obtain ⟨s, hrun, hm, hopen⟩ := subscribeTo_receives he₂ hc
    -- Both pairs have the name `typeferry:c₁:t:e₂`.
    have hroom : getRoomName (c₁ ++ js ":" ++ t) e₂ = getRoomName c₁ e₁ := by
      rw [heq]
      simp only [getRoomName, List.append_assoc]
    have honly : ∀ channel eventName,
        Admission events (subscribeTo (c₁ ++ js ":" ++ t) e₂) 0 channel eventName →
          channel = c₁ ++ js ":" ++ t ∧ eventName = e₂ := by
      intro channel eventName h
      obtain ⟨names, c, hmem, hch, hname⟩ := requested_of_admission h
      simp only [subscribeTo, List.mem_cons, Action.rpcOn.injEq, reduceCtorEq, List.not_mem_nil,
        or_false, false_or, true_and] at hmem
      rw [hmem.1, List.mem_singleton] at hname
      rw [hmem.2] at hch
      exact ⟨hch.symm, hname⟩
    refine ⟨_, _, s, 0, hrun, ?_, ?_, honly⟩
    · rw [mem_propagate, ← hroom]
      exact ⟨hdecl₁, hm, (Option.some_ne_none 0).symm, hopen⟩
    · obtain ⟨channel, eventName, -, -, before, a, after, u, u', hsplit, hb, hadm, -⟩ :=
        held_run _ hrun 0 _ hm
      have hadmission : Admission events (subscribeTo (c₁ ++ js ":" ++ t) e₂) 0 channel eventName :=
        ⟨before, a, after, u, hsplit, hb, hadm⟩
      obtain ⟨rfl, rfl⟩ := honly _ _ hadmission
      exact hadmission

theorem notes_separated : Separated notes := by
  intro e₁ e₂ h₁ h₂
  have hnote : ∀ e, (notes e).isSome = true → e = js "note" := by
    intro e he
    by_contra hne
    rw [notes, if_neg hne] at he
    cases he
  rw [hnote e₁ h₁, hnote e₂ h₂]
  decide

theorem channel_isolation_notes : ∃ s, (machine notes).exec anyStep init subscribed = some s ∧
    0 ∈ s.propagate notes (js "u") (js "note") none ∧
    AdmittedSince notes subscribed s 0 (js "u") (js "note") := by
  have hex : ((machine notes).exec anyStep init subscribed).any (fun s =>
      decide (0 ∈ s.propagate notes (js "u") (js "note") none)) = true := by decide
  obtain ⟨s, hs, hsent⟩ := (Option.any_eq_true _ _).mp hex
  have hsent := of_decide_eq_true hsent
  exact ⟨s, hs, hsent, (channel_isolation notes).1 notes_separated _ s hs _ _ none 0 hsent⟩

end TypeFerry.Server.Isolation
