import Mathlib.Data.Prod.Lex
import TypeFerry.Live.Observer

/-! # When an observer reads and when it delivers

Two properties of the work queue of an observer: nothing is delivered behind
`stop`, and in windowed mode every change is followed by a read. -/
namespace TypeFerry.Live.Delivery
open TypeFerry.Lib.Numeral TypeFerry.Lib.OrderedMap TypeFerry.Lib.Runs
open TypeFerry.Live.Types TypeFerry.Live.Window TypeFerry.Live.Observer

/-- The state behind a piece of a job. -/
def outcomeState : Outcome → State
  | .settled s | .awaiting s _ | .rejected s _ => s

/-- The deltas that were given, and their number. -/
def said (s : State) : List Emission × ℕ := (s.emissions, s.sequence)

/-- The jobs of windowed mode. -/
def isWindowJob : Job → Bool
  | .read | .projectWindow _ _ _ => true
  | _ => false

/-- The program counters of `start`. -/
def isStart : Pc → Bool
  | .created | .snapshotRead | .snapshotProject _ _ _ | .draining _ _ | .drained _
  | .startFailed _ => true
  | _ => false

/-! ## What a piece of a job leaves alone -/

/-- The fields that steer an observer are the same, but for the program counter
and the queue. -/
structure SameControl (s t : State) : Prop where
  initializing : t.initializing = s.initializing
  invalidated : t.initializationInvalidated = s.initializationInvalidated
  stopped : t.stopped = s.stopped
  running : t.orderedRefreshRunning = s.orderedRefreshRunning
  pending : t.orderedRefreshPending = s.orderedRefreshPending
  staleCalls : t.staleCalls = s.staleCalls
  reads : t.reads = s.reads

section
variable {cfg : Config} {s : State}

theorem SameControl.refl (s : State) : SameControl s s := ⟨rfl, rfl, rfl, rfl, rfl, rfl, rfl⟩

@[simp] theorem emitOperation_false (op : Option Operation) :
    s.emitOperation cfg false op = s := by cases op <;> rfl

theorem sameControl_emitOperation (emit : Bool) (op : Option Operation) :
    SameControl s (s.emitOperation cfg emit op) := by
  cases op <;> cases emit <;> exact ⟨rfl, rfl, rfl, rfl, rfl, rfl, rfl⟩

theorem sameControl_removeDocument (emit : Bool) (id : SourceId)
    (previous : Option ClientDocument) : SameControl s (s.removeDocument cfg emit id previous) := by
  cases previous with
  | none => exact .refl s
  | some p =>
    obtain ⟨h₁, h₂, h₃, h₄, h₅, h₆, h₇⟩ := @sameControl_emitOperation cfg
      { s with documents := s.documents.delete (State.idKey cfg id) } emit
      (some (.removed (toClientId cfg.typedObjectIds id)))
    exact ⟨h₁, h₂, h₃, h₄, h₅, h₆, h₇⟩

theorem sameControl_putDocument (emit : Bool) (id : SourceId) (previous : Option ClientDocument)
    (p : ClientDocument) : SameControl s (s.putDocument cfg emit id previous p) := by
  obtain ⟨h₁, h₂, h₃, h₄, h₅, h₆, h₇⟩ := @sameControl_emitOperation cfg
    { s with documents := s.documents.set (State.idKey cfg id) p, seen := s.seen ++ [p] } emit
    (State.putOperation previous p)
  exact ⟨h₁, h₂, h₃, h₄, h₅, h₆, h₇⟩

theorem sameControl_projectNext (emit : Bool) (current : List ClientDocument)
    (ds : List Document) : SameControl s (outcomeState (s.projectNext cfg emit current ds)) := by
  rcases @projectNext_cases cfg s emit current ds with
    ⟨-, -, he⟩ | ⟨op, -, -, -, he⟩ | ⟨d, rest, -, he⟩ | ⟨e, he⟩ <;> rw [he]
  · exact .refl s
  · cases op <;> cases emit <;> exact ⟨rfl, rfl, rfl, rfl, rfl, rfl, rfl⟩
  · exact .refl s
  · exact .refl s

theorem sameControl_resumeJob {emit : Bool} {job : Job} {a : Action} {o : Outcome}
    (h : s.resumeJob cfg emit job a = some o) : SameControl s (outcomeState o) := by
  rcases resumeJob_cases h with ⟨id, prev, -, -, rfl⟩ | ⟨id, prev, d, -, -, -, rfl⟩ |
    ⟨id, prev, d, f, p, -, -, -, rfl⟩ | ⟨ds, -, -, rfl⟩ | ⟨cur, d, rest, f, id, p, -, -, -, -, rfl⟩ |
    ⟨e, rfl⟩
  · exact sameControl_removeDocument emit id prev
  · exact .refl s
  · exact sameControl_putDocument emit id prev p
  · exact sameControl_projectNext emit [] ds
  · obtain ⟨h₁, h₂, h₃, h₄, h₅, h₆, h₇⟩ := @sameControl_projectNext cfg
      { s with seen := s.seen ++ [p] } emit (cur ++ [p]) rest
    exact ⟨h₁, h₂, h₃, h₄, h₅, h₆, h₇⟩
  · exact .refl s

end

/-! ## No delivery behind `stop` -/

/-- The job looks at `stopped` only before it is suspended. -/
def Pc.isExposed : Pc → Bool
  | .working job => !isWindowJob job
  | _ => false

/-- `stop` is not called, nor does a reset call it, while an emitting notice of
unordered mode is suspended. -/
def stopsBetweenNotices (s : State) : Action → Prop
  | .stop | .notice (.reset _ _) => s.stopped = false → Pc.isExposed s.pc = false
  | _ => True

section
variable {cfg : Config} {s : State}

theorem projectNext_quiet {emit : Bool} {current : List ClientDocument} {ds : List Document}
    {o : Outcome} (ho : o = s.projectNext cfg emit current ds)
    (hs : s.stopped = true ∨ emit = false) : said (outcomeState o) = said s ∧
      ∀ t job, o = .awaiting t job → isWindowJob job = true := by
  rcases @projectNext_cases cfg s emit current ds with
    ⟨-, -, he⟩ | ⟨op, -, hns, -, he⟩ | ⟨d, rest, -, he⟩ | ⟨e, he⟩ <;> rw [he] at ho <;> subst ho
  · exact ⟨rfl, by simp⟩
  · obtain rfl : emit = false := hs.resolve_left (by simp [hns])
    exact ⟨by rw [emitOperation_false]; rfl, by simp⟩
  · exact ⟨rfl, by rintro t job ⟨⟩; rfl⟩
  · exact ⟨rfl, by simp⟩

theorem applyNotice_keeps (emit : Bool) (n : Notice) :
    (outcomeState (s.applyNotice cfg emit n)).stopped = s.stopped ∧
    (outcomeState (s.applyNotice cfg emit n)).initializing = s.initializing ∧
    (outcomeState (s.applyNotice cfg emit n)).initializationInvalidated =
      s.initializationInvalidated ∧
    s.staleCalls ≤ (outcomeState (s.applyNotice cfg emit n)).staleCalls := by
  unfold State.applyNotice
  split
  · exact ⟨rfl, rfl, rfl, le_refl _⟩
  · split
    · cases emit
      · exact ⟨rfl, rfl, rfl, le_refl _⟩
      · exact ⟨rfl, rfl, rfl, Nat.le_succ _⟩
    · dsimp only
      split
      · exact ⟨rfl, rfl, rfl, le_refl _⟩
      · split
        · next id _ _ _ =>
          have h := @sameControl_removeDocument cfg s emit id (s.documents.get (State.idKey cfg id))
          exact ⟨h.stopped, h.initializing, h.invalidated, h.staleCalls.ge⟩
        · exact ⟨rfl, rfl, rfl, le_refl _⟩

@[simp] theorem afterJob_stopped (o : Outcome) :
    (State.afterJob cfg o).stopped = (outcomeState o).stopped := by cases o <;> rfl

/-- Without `emit` nothing is delivered. -/
theorem resumeJob_silent {job : Job} {a : Action} {o : Outcome}
    (h : s.resumeJob cfg false job a = some o) : said (outcomeState o) = said s := by
  rcases resumeJob_cases h with ⟨id, prev, -, -, rfl⟩ | ⟨id, prev, d, -, -, -, rfl⟩ |
    ⟨id, prev, d, f, p, -, -, -, rfl⟩ | ⟨ds, -, -, ho⟩ | ⟨cur, d, rest, f, id, p, -, -, -, -, ho⟩ |
    ⟨e, rfl⟩
  · cases prev <;> rfl
  · rfl
  · rw [outcomeState, State.putDocument, emitOperation_false]
    rfl
  · exact (projectNext_quiet ho (.inr rfl)).1
  · exact (projectNext_quiet ho (.inr rfl)).1
  · rfl

/-- A stopped observer ends a window without a delta. -/
theorem resumeJob_stopped {job : Job} {a : Action} {o : Outcome} (hs : s.stopped = true)
    (hjob : isWindowJob job = true) (h : s.resumeJob cfg true job a = some o) :
    said (outcomeState o) = said s ∧
      ∀ t job, o = .awaiting t job → isWindowJob job = true := by
  rcases resumeJob_cases h with ⟨id, prev, rfl, -⟩ | ⟨id, prev, d, rfl, -⟩ |
    ⟨id, prev, d, f, p, rfl, -⟩ | ⟨ds, -, -, ho⟩ | ⟨cur, d, rest, f, id, p, -, -, -, -, ho⟩ | ⟨e, rfl⟩
  iterate 3 cases hjob
  · exact projectNext_quiet ho (.inl hs)
  · obtain ⟨h₁, h₂⟩ := projectNext_quiet ho (.inl hs)
    exact ⟨h₁, h₂⟩
  · exact ⟨rfl, by simp⟩

theorem stop_emissions (s : State) : s.stop.emissions = s.emissions := by
  unfold State.stop; split <;> rfl

theorem stop_said (s : State) : said s.stop = said s := by
  unfold State.stop; split <;> rfl

theorem stop_initializing (s : State) : s.stop.initializing = s.initializing := by
  unfold State.stop; split <;> rfl

theorem stop_pc (s : State) : s.stop.pc = s.pc := by
  unfold State.stop; split <;> rfl

@[simp] theorem stop_stopped (s : State) : s.stop.stopped = true := by
  unfold State.stop; split <;> simp_all

/-- Nothing was delivered, and no job is exposed. -/
structure Silent (s t : State) : Prop where
  emissions : t.emissions = s.emissions
  stopped : s.stopped = true → t.stopped = true
  covered : Pc.isExposed t.pc = false

/-- The pieces of `start`: nothing is delivered, and `start` is over or goes on. -/
structure Starts (s t : State) : Prop where
  said : said t = said s
  stopped : s.stopped = true → t.stopped = true
  phase : (t.pc = .idle ∧ t.initializing = false ∧ t.initializationInvalidated = false) ∨
    isStart t.pc = true ∧ t.initializing = s.initializing

theorem Starts.silent {s t : State} (h : Starts s t) : Silent s t := by
  refine ⟨congrArg Prod.fst h.said, h.stopped, ?_⟩
  rcases h.phase with ⟨h, -⟩ | ⟨h, -⟩
  · rw [h]; rfl
  · cases hpc : t.pc <;> simp_all [isStart, Pc.isExposed]

theorem Starts.behind {s t u : State} (hu : Starts t u) (h : Delivery.said t = Delivery.said s)
    (h' : t.stopped = s.stopped) (h'' : t.initializing = s.initializing) : Starts s u :=
  ⟨hu.said.trans h, fun hs => hu.stopped (h'.trans hs),
    hu.phase.imp_right fun ⟨h₁, h₂⟩ => ⟨h₁, h₂.trans h''⟩⟩

theorem starts_afterDrainJob (rest : List Notice) {o : Outcome}
    (h₁ : said (outcomeState o) = said s) (h₂ : (outcomeState o).stopped = s.stopped)
    (h₃ : (outcomeState o).initializing = s.initializing) :
    Starts s (State.afterDrainJob rest o) := by
  cases o <;> exact ⟨h₁, fun hs => h₂.trans hs, .inr ⟨rfl, h₃⟩⟩

theorem applyNotice_silent (n : Notice) :
    said (outcomeState (s.applyNotice cfg false n)) = said s := by
  unfold State.applyNotice
  split
  · rfl
  · split
    · rfl
    · dsimp only
      split
      · rfl
      · split
        · next id _ _ _ =>
          cases s.documents.get (State.idKey cfg id) <;> rfl
        · rfl

theorem starts_failInvalidated (s : State) : Starts s s.failInvalidated :=
  ⟨stop_said s, fun _ => stop_stopped s, .inr ⟨rfl, stop_initializing s⟩⟩

theorem starts_drain (cfg : Config) (s : State) (rest : List Notice) :
    Starts s (s.drain cfg rest) := by
  unfold State.drain
  split
  · exact starts_failInvalidated s
  · next hvalid =>
    split
    · exact ⟨rfl, id, .inl ⟨rfl, rfl, by simpa using hvalid⟩⟩
    · exact starts_afterDrainJob _ (applyNotice_silent _) (applyNotice_keeps _ _).1
        (applyNotice_keeps _ _).2.1
    · exact starts_afterDrainJob _ (applyNotice_silent _) (applyNotice_keeps _ _).1
        (applyNotice_keeps _ _).2.1

theorem starts_snapshotNext (cfg : Config) (s : State) (projected : List ClientDocument)
    (ds : List Document) : Starts s (s.snapshotNext cfg projected ds) := by
  cases ds with
  | nil =>
    refine (starts_drain cfg (s.takeSnapshot cfg projected) []).behind ?_ ?_ ?_ <;>
      unfold State.takeSnapshot <;> split <;> rfl
  | cons d rest => simp only [State.snapshotNext]; split <;> exact ⟨rfl, id, .inr ⟨rfl, rfl⟩⟩

theorem starts_snapshotDocuments (cfg : Config) (s : State) (ds : List Document) :
    Starts s (s.snapshotDocuments cfg ds) := by
  unfold State.snapshotDocuments
  split
  · exact starts_failInvalidated s
  · split
    · exact ⟨stop_said s, fun _ => stop_stopped s, .inr ⟨rfl, stop_initializing s⟩⟩
    · exact starts_snapshotNext cfg s [] ds

theorem starts_snapshotProjected (cfg : Config) (s : State) (projected : List ClientDocument)
    (d : Document) (rest : List Document) (fields : List (Text × Ejson.Clone.Value)) :
    Starts s (s.snapshotProjected cfg projected d rest fields) := by
  unfold State.snapshotProjected
  split
  · exact ⟨rfl, id, .inr ⟨rfl, rfl⟩⟩
  · split
    · exact ⟨rfl, id, .inr ⟨rfl, rfl⟩⟩
    · dsimp only
      split
      · exact (starts_failInvalidated _).behind rfl rfl rfl
      · exact (starts_snapshotNext cfg _ _ rest).behind rfl rfl rfl

theorem silent_listen (cfg : Config) (n : Notice) (h : Pc.isExposed s.pc = false) :
    Silent s (s.listen cfg n) := by
  unfold State.listen
  split
  · split
    · exact ⟨rfl, id, h⟩
    · split <;> exact ⟨rfl, id, h⟩
  · split
    · exact ⟨stop_emissions _, fun _ => stop_stopped _, by rw [stop_pc]; exact h⟩
    · split
      · unfold State.enqueueOrderedRefresh
        split <;> exact ⟨rfl, id, h⟩
      · exact ⟨rfl, id, h⟩

theorem silent_turn {s' : State} (hstop : s.stopped = true) (hs : s.turn cfg = some s') :
    Silent s s' := by
  unfold State.turn at hs
  split at hs
  · cases hs; exact (starts_drain cfg s _).silent
  · split at hs
    · split at hs <;> cases hs
      exact ⟨rfl, id, rfl⟩
    · next hw =>
      split at hs <;> cases hs
      refine ⟨?_, ?_, ?_⟩ <;> simp [State.applyNotice, hstop, State.afterJob, hw, Pc.isExposed]
  · cases hs
    refine ⟨by rw [if_pos hstop], fun _ => by rw [if_pos hstop]; exact hstop, ?_⟩
    cases cfg.windowed <;> rfl
  · rw [if_neg (by simp [hstop])] at hs
    cases hs
    exact ⟨rfl, id, rfl⟩
  · cases hs; exact ⟨rfl, id, rfl⟩
  · cases hs

end

/-- Stopped, with no job left that would deliver. -/
structure Quiet (s : State) : Prop where
  stopped : s.stopped = true
  covered : Pc.isExposed s.pc = false

theorem quiet_of_silent {s t : State} (h : Quiet s) (ht : Silent s t) : Quiet t :=
  ⟨ht.stopped h.stopped, ht.covered⟩

theorem silent_resume {cfg : Config} {s s' : State} {a : Action} (h : Quiet s)
    (hs : resume cfg s a = some s') : Silent s s' := by
  rcases resume_cases hs with ⟨ds, -, -, rfl⟩ | ⟨projected, d, rest, fields, -, -, rfl⟩ |
    ⟨e, -, rfl⟩ | ⟨job, rest, o, -, ho, rfl⟩ | ⟨job, o, hpc, ho, rfl⟩
  · exact (starts_snapshotDocuments cfg s ds).silent
  · exact (starts_snapshotProjected cfg s projected d rest fields).silent
  · exact ⟨rfl, id, rfl⟩
  · exact (starts_afterDrainJob rest (resumeJob_silent ho) (sameControl_resumeJob ho).stopped
      (sameControl_resumeJob ho).initializing).silent
  · have hjob : isWindowJob job = true := by
      simpa [hpc, Pc.isExposed] using h.covered
    obtain ⟨h₁, h₂⟩ := resumeJob_stopped h.stopped hjob ho
    refine ⟨?_, fun hs => ?_, ?_⟩
    · cases o <;> exact congrArg Prod.fst h₁
    · rw [afterJob_stopped, (sameControl_resumeJob ho).stopped, hs]
    · cases o with
      | settled t => simp only [State.afterJob]; split <;> rfl
      | awaiting t job' => simp [State.afterJob, Pc.isExposed, h₂ t job' rfl]
      | rejected t e => rfl

/-- A quiet observer delivers nothing and stays quiet. -/
theorem quiet_step {cfg : Config} {s s' : State} {a : Action} (h : Quiet s)
    (hs : step cfg s a = some s') : Silent s s' := by
  have hc := h.covered
  cases a with
  | start =>
    simp only [step] at hs
    split at hs <;> cases hs
    exact ⟨rfl, id, rfl⟩
  | notice n =>
    simp only [step] at hs
    split at hs <;> cases hs
    exact silent_listen cfg n hc
  | stop =>
    cases hs
    exact ⟨stop_emissions s, fun _ => stop_stopped s, by rw [stop_pc]; exact hc⟩
  | cleared =>
    simp only [step] at hs
    split at hs <;> cases hs
    exact ⟨rfl, id, hc⟩
  | turn => exact silent_turn h.stopped hs
  | read _ | found _ | projected _ | fail _ => exact silent_resume h hs

/-- A stopped observer stays stopped. -/
theorem stopped_step {cfg : Config} {s s' : State} {a : Action} (hs : step cfg s a = some s')
    (h : s.stopped = true) : s'.stopped = true := by
  cases a with
  | start =>
    simp only [step] at hs
    split at hs <;> cases hs
    exact h
  | notice n =>
    simp only [step] at hs
    split at hs <;> cases hs
    unfold State.listen
    split
    · split
      · exact h
      · split <;> exact h
    · split
      · exact stop_stopped _
      · split
        · unfold State.enqueueOrderedRefresh; split <;> exact h
        · exact h
  | stop => cases hs; exact stop_stopped s
  | cleared =>
    simp only [step] at hs
    split at hs <;> cases hs
    exact h
  | turn => exact (silent_turn h hs).stopped h
  | read _ | found _ | projected _ | fail _ =>
    rcases resume_cases hs with ⟨ds, -, -, rfl⟩ | ⟨projected, d, rest, fields, -, -, rfl⟩ |
      ⟨e, -, rfl⟩ | ⟨job, rest, o, -, ho, rfl⟩ | ⟨job, o, -, ho, rfl⟩
    · exact (starts_snapshotDocuments cfg s ds).stopped h
    · exact (starts_snapshotProjected cfg s projected d rest fields).stopped h
    · exact h
    · exact (starts_afterDrainJob rest (resumeJob_silent ho) (sameControl_resumeJob ho).stopped
        (sameControl_resumeJob ho).initializing).stopped h
    · rw [afterJob_stopped, (sameControl_resumeJob ho).stopped, h]

/-- Only a call of `stop` can leave an exposed job in a stopped observer. -/
theorem covered_when_stopped {cfg : Config} {s s' : State} {a : Action} (hstop : s.stopped = false)
    (hok : stopsBetweenNotices s a) (hs : step cfg s a = some s') (hstop' : s'.stopped = true) :
    Pc.isExposed s'.pc = false := by
  have hkept : s'.stopped ≠ s.stopped := by simp [hstop, hstop']
  cases a with
  | start =>
    simp only [step] at hs
    split at hs <;> cases hs
    rfl
  | notice n =>
    simp only [step] at hs
    split at hs <;> cases hs
    cases n with
    | reset q r => exact (silent_listen cfg _ (hok hstop)).covered
    | change q id del =>
      refine absurd ?_ hkept
      unfold State.listen
      split
      · dsimp only; split <;> rfl
      · dsimp only
        split
        · unfold State.enqueueOrderedRefresh; split <;> rfl
        · rfl
  | stop =>
    cases hs
    rw [stop_pc]
    exact hok hstop
  | cleared =>
    simp only [step] at hs
    split at hs <;> cases hs
    exact absurd rfl hkept
  | turn =>
    simp only [step, State.turn] at hs
    split at hs
    · cases hs; exact (starts_drain cfg s _).silent.covered
    · split at hs
      · split at hs <;> cases hs
        rfl
      · split at hs <;> cases hs
        exact absurd (by rw [afterJob_stopped, (applyNotice_keeps _ _).1]) hkept
    · cases hs
      refine absurd ?_ hkept
      dsimp only
      split <;> rfl
    · split at hs <;> cases hs <;> rfl
    · cases hs; rfl
    · cases hs
  | read _ | found _ | projected _ | fail _ =>
    rcases resume_cases hs with ⟨ds, -, -, rfl⟩ | ⟨projected, d, rest, fields, -, -, rfl⟩ |
      ⟨e, -, rfl⟩ | ⟨job, rest, o, -, ho, rfl⟩ | ⟨job, o, -, ho, rfl⟩
    · exact (starts_snapshotDocuments cfg s ds).silent.covered
    · exact (starts_snapshotProjected cfg s projected d rest fields).silent.covered
    · rfl
    · cases o <;> rfl
    · exact absurd (by rw [afterJob_stopped, (sameControl_resumeJob ho).stopped]) hkept

/-- A stopped observer is quiet. -/
theorem quiet_of_reach {cfg : Config} {s : State}
    (h : (machine cfg).Reach stopsBetweenNotices s) : s.stopped = true → Quiet s := by
  refine h.invariant (fun s => s.stopped = true → Quiet s) (by simp [machine, init]) ?_
  intro s a s' hq hok hs hstop'
  cases hstop : s.stopped with
  | true => exact quiet_of_silent (hq hstop) (quiet_step (hq hstop) hs)
  | false => exact ⟨hstop', covered_when_stopped hstop hok hs hstop'⟩

/-- **No delivery after `stop`.** In every run in which `stop` is not called
while an emitting notice of unordered mode is suspended, an observer that was
stopped calls `onDelta` never again, whatever comes. -/
theorem no_delivery_after_stop {cfg : Config} {s t : State}
    (h : (machine cfg).Reach stopsBetweenNotices s) (hstop : s.stopped = true)
    (ht : (machine cfg).Steps anyStep s t) : t.emissions = s.emissions := by
  have hquiet : Quiet t ∧ t.emissions = s.emissions := by
    refine ht.invariant (fun t => Quiet t ∧ t.emissions = s.emissions)
      ⟨quiet_of_reach h hstop, rfl⟩ fun t a t' ⟨hq, he⟩ _ hs => ?_
    have hsilent := quiet_step hq hs
    exact ⟨quiet_of_silent hq hsilent, hsilent.emissions.trans he⟩
  exact hquiet.2

instance (s : State) : ∀ a, Decidable (stopsBetweenNotices s a)
  | .stop | .notice (.reset _ _) =>
    inferInstanceAs (Decidable (s.stopped = false → Pc.isExposed s.pc = false))
  | .start | .notice (.change _ _ _) | .cleared | .read _ | .found _ | .projected _ | .fail _
  | .turn => isTrue trivial

/-! ### Two runs -/

/-- An observer of unordered mode. -/
def unordered : Config := ⟨0, 1, false, true, 10⟩

/-- The stored document with the `_id` "a". -/
def storedA : Document := ⟨.live (.str (js "a")), []⟩

def noticeA : Notice := .change 1 (.str (js "a")) false

theorem no_delivery_after_stop_idle : ∃ s t, (machine unordered).Reach stopsBetweenNotices s ∧
    s.stopped = true ∧ s.emissions.length = 1 ∧ (machine unordered).Steps anyStep s t ∧
    t.queue = [] ∧ t.emissions = s.emissions := by
  obtain ⟨s, hs, hP⟩ := (machine unordered).exists_of_exec stopsBetweenNotices init
    [.start, .read [], .notice noticeA, .notice noticeA, .turn, .found (some storedA),
      .projected [], .stop]
    (fun s => s.stopped && s.emissions.length == 1 &&
      ((machine unordered).exec anyStep s [.turn]).any fun t => t.queue.isEmpty) (by decide)
  simp only [Bool.and_eq_true, beq_iff_eq] at hP
  obtain ⟨t, ht, hq⟩ := (machine unordered).exists_of_exec anyStep s [.turn] _ hP.2
  exact ⟨s, t, hs, hP.1.1, hP.1.2, ht, List.isEmpty_iff.mp hq,
    no_delivery_after_stop hs hP.1.1 ht⟩

/-- `stop` comes while the notice waits for `findOne`: its delta is delivered. -/
theorem delivery_after_stop : ¬ ∀ (cfg : Config) (s t : State), (machine cfg).Reach anyStep s →
    s.stopped = true → (machine cfg).Steps anyStep s t → t.emissions = s.emissions := by
  intro h
  obtain ⟨s, hs, hP⟩ := (machine unordered).exists_of_exec anyStep init
    [.start, .read [], .notice noticeA, .turn, .stop]
    (fun s => s.stopped && s.emissions.isEmpty && ((machine unordered).exec anyStep s
      [.found (some storedA), .projected []]).any fun t => !t.emissions.isEmpty) (by decide)
  simp only [Bool.and_eq_true] at hP
  obtain ⟨t, ht, hne⟩ := (machine unordered).exists_of_exec anyStep s _ _ hP.2
  rw [h unordered s t hs hP.1.1 ht, hP.1.2] at hne
  cases hne

/-! ## Every change is followed by a read -/

/-- No change arrives between the end of the refresh loop and its `finally`
handler, which takes back what the change has asked for. -/
def noChangeAtExit (s : State) : Action → Prop
  | .notice (.change _ _ _) => s.pc ≠ .exited
  | _ => True

/-- The observer's own actions; the rest is called from outside. -/
def isOwn : Action → Prop
  | .turn | .read _ | .found _ | .projected _ | .fail _ => True
  | _ => False

/-- In windowed mode the flag `orderedRefreshRunning` is set while the loop runs. -/
def Coupled (s : State) : Prop :=
  match s.pc with
  | .idle => True
  | .working job => isWindowJob job = true ∧ s.orderedRefreshRunning = true
  | .threw | .loopTest | .exited => s.orderedRefreshRunning = true
  | _ => s.initializing = true

/-- A read will begin, or `onStale` will be called, unless the observer is stopped. -/
def Owes (s : State) : Prop :=
  match s.pc with
  | .idle => s.orderedRefreshRunning = true
  | .working job => isWindowJob job = true ∧ s.orderedRefreshPending = true
  | .loopTest => s.orderedRefreshPending = true
  | .threw => True
  | _ => False

/-- How far the loop is from its next test: the read, the documents left to
project, the test. -/
def distance (s : State) : ℕ ×ₗ ℕ :=
  match s.pc with
  | .working (.projectWindow _ _ rest) => toLex (2, rest.length)
  | .working _ => toLex (3, 0)
  | .loopTest => toLex (1, 0)
  | _ => toLex (0, 0)

/-- Since there were `r` reads and `c` calls of `onStale`, nothing has answered. -/
structure Unanswered (r c : Nat) (s : State) : Prop where
  stopped : s.stopped = false
  reads : s.reads = r
  staleCalls : s.staleCalls = c
  owes : Owes s

def Answered (r c : Nat) (s : State) : Prop := s.stopped = true ∨ r < s.reads ∨ c < s.staleCalls

section
variable {cfg : Config} {s s' : State}

/-- Everything a window job can do in windowed mode. -/
theorem windowJob_cases {emit : Bool} {job : Job} {a : Action} {o : Outcome}
    (hjob : isWindowJob job = true) (h : s.resumeJob cfg emit job a = some o) :
    (∃ t, o = .settled t ∧ SameControl s t) ∨ (∃ t e, o = .rejected t e ∧ SameControl s t) ∨
    ∃ t current d rest, o = .awaiting t (.projectWindow current d rest) ∧ SameControl s t ∧
      (job = .read ∨ ∃ current' d' rest', job = .projectWindow current' d' rest' ∧
        rest'.length = rest.length + 1) := by
  have hsame := sameControl_resumeJob h
  cases o with
  | settled t => exact .inl ⟨t, rfl, hsame⟩
  | rejected t e => exact .inr (.inl ⟨t, e, rfl, hsame⟩)
  | awaiting t job' =>
    refine .inr (.inr ?_)
    rcases resumeJob_cases h with ⟨id, prev, rfl, -⟩ | ⟨id, prev, d, rfl, -⟩ |
      ⟨id, prev, d, f, p, rfl, -⟩ | ⟨ds, rfl, -, ho⟩ | ⟨cur, d, rest, f, id, p, rfl, -, -, -, ho⟩ |
      ⟨e, ho⟩
    iterate 3 cases hjob
    · rcases @projectNext_cases cfg s emit [] ds with
        ⟨-, -, he⟩ | ⟨op, -, -, -, he⟩ | ⟨d, rest, -, he⟩ | ⟨e, he⟩ <;> rw [he] at ho <;> cases ho
      exact ⟨_, _, _, _, rfl, hsame, .inl rfl⟩
    · rcases @projectNext_cases cfg { s with seen := s.seen ++ [p] } emit (cur ++ [p]) rest with
        ⟨-, -, he⟩ | ⟨op, -, -, -, he⟩ | ⟨d', rest', hrest, he⟩ | ⟨e, he⟩ <;> rw [he] at ho <;>
        cases ho
      exact ⟨_, _, _, _, rfl, hsame, .inr ⟨cur, d, rest, rfl, by rw [hrest, List.length_cons]⟩⟩
    · cases ho

theorem Coupled.congr (h : Coupled s) (hpc : s'.pc = s.pc)
    (hrun : s.orderedRefreshRunning = true → s'.orderedRefreshRunning = true)
    (hinit : s'.initializing = s.initializing) : Coupled s' := by
  unfold Coupled at h ⊢
  rw [hpc, hinit]
  split <;> simp_all

theorem coupled_of_starts (h : Starts s s') (hinit : s.initializing = true) : Coupled s' := by
  unfold Coupled
  rcases h.phase with ⟨hpc, -⟩ | ⟨hpc, hinit'⟩
  · rw [hpc]; trivial
  · rw [hinit] at hinit'
    split <;> simp_all [isStart]

theorem listen_control (n : Notice) : (s.listen cfg n).pc = s.pc ∧
    (s.orderedRefreshRunning = true → (s.listen cfg n).orderedRefreshRunning = true) ∧
    (s.listen cfg n).initializing = s.initializing := by
  unfold State.listen
  split
  · split
    · exact ⟨rfl, id, rfl⟩
    · split <;> exact ⟨rfl, id, rfl⟩
  · split
    · refine ⟨stop_pc _, ?_, stop_initializing _⟩
      unfold State.stop
      split <;> exact id
    · split
      · unfold State.enqueueOrderedRefresh
        split
        · exact ⟨rfl, id, rfl⟩
        · exact ⟨rfl, fun _ => rfl, rfl⟩
      · exact ⟨rfl, id, rfl⟩

theorem coupled_step (hw : cfg.windowed = true) (h : Coupled s) {a : Action}
    (hs : step cfg s a = some s') : Coupled s' := by
  cases a with
  | start =>
    simp only [step] at hs
    split at hs <;> cases hs
    next hpc => simpa [Coupled, hpc] using h
  | notice n =>
    simp only [step] at hs
    split at hs <;> cases hs
    obtain ⟨h₁, h₂, h₃⟩ := @listen_control cfg s n
    exact h.congr h₁ h₂ h₃
  | stop =>
    cases hs
    refine h.congr (stop_pc s) ?_ (stop_initializing s)
    unfold State.stop
    split <;> exact id
  | cleared =>
    simp only [step] at hs
    split at hs <;> cases hs
    exact h.congr rfl id rfl
  | turn =>
    simp only [step, State.turn] at hs
    split at hs
    · next rest hpc =>
      cases hs
      exact coupled_of_starts (starts_drain cfg s rest) (by simpa [Coupled, hpc] using h)
    · rw [if_pos hw] at hs
      split at hs <;> cases hs
      next hrun => exact ⟨rfl, hrun⟩
    · next hpc =>
      cases hs
      have hrun : s.orderedRefreshRunning = true := by simpa [Coupled, hpc] using h
      cases s.stopped <;> simp [Coupled, hw, State.onStale, hrun]
    · next hpc =>
      have hrun : s.orderedRefreshRunning = true := by simpa [Coupled, hpc] using h
      split at hs <;> cases hs
      · exact ⟨rfl, hrun⟩
      · exact hrun
    · cases hs; trivial
    · cases hs
  | read _ | found _ | projected _ | fail _ =>
    rcases resume_cases hs with ⟨ds, hpc, -, rfl⟩ | ⟨projected, d, rest, fields, hpc, -, rfl⟩ |
      ⟨e, hpc, rfl⟩ | ⟨job, rest, o, hpc, ho, rfl⟩ | ⟨job, o, hpc, ho, rfl⟩
    · exact coupled_of_starts (starts_snapshotDocuments cfg s ds) (by simpa [Coupled, hpc] using h)
    · exact coupled_of_starts (starts_snapshotProjected cfg s projected d rest fields)
        (by simpa [Coupled, hpc] using h)
    · rcases hpc with hpc | ⟨_, _, _, hpc⟩ <;> simpa [Coupled, hpc] using h
    · have hc := sameControl_resumeJob ho
      exact coupled_of_starts (starts_afterDrainJob rest (resumeJob_silent ho) hc.stopped
        hc.initializing) (by simpa [Coupled, hpc] using h)
    · obtain ⟨hjob, hrun⟩ : isWindowJob job = true ∧ s.orderedRefreshRunning = true := by
        simpa [Coupled, hpc] using h
      rcases windowJob_cases hjob ho with ⟨t, rfl, hc⟩ | ⟨t, e, rfl, hc⟩ |
        ⟨t, cur, d, rest, rfl, hc, -⟩
      · simp only [State.afterJob, hw, if_true]
        exact hc.running.trans hrun
      · exact hc.running.trans hrun
      · exact ⟨rfl, hc.running.trans hrun⟩

/-- An own action is possible as long as something is owed. -/
theorem own_enabled (hw : cfg.windowed = true) (h : Owes s) :
    ∃ a, isOwn a ∧ (step cfg s a).isSome := by
  unfold Owes at h
  split at h
  · next hpc => exact ⟨.turn, trivial, by simp [step, State.turn, hpc, hw, h]⟩
  · next job hpc =>
    refine ⟨.fail [], trivial, ?_⟩
    cases job <;> simp [step, resume, hpc, State.resumeJob]
  · next hpc =>
    refine ⟨.turn, trivial, ?_⟩
    simp only [step, State.turn, hpc]
    split <;> rfl
  · next hpc => exact ⟨.turn, trivial, by simp [step, State.turn, hpc]⟩
  · cases h

/-- What is called from outside keeps the program counter. -/
theorem outside_keeps {a : Action} (ha : ¬ isOwn a) (hs : step cfg s a = some s')
    (hpc : s.pc ≠ .created) : s'.pc = s.pc ∧ s'.reads = s.reads ∧
      (s'.stopped = true ∨ s'.stopped = s.stopped ∧ s'.staleCalls = s.staleCalls ∧
        (s.orderedRefreshRunning = true → s'.orderedRefreshRunning = true) ∧
        (s.orderedRefreshPending = true → s'.orderedRefreshPending = true)) := by
  cases a with
  | start => simp [step, hpc] at hs
  | notice n =>
    simp only [step] at hs
    split at hs <;> cases hs
    unfold State.listen
    split
    · split
      · exact ⟨rfl, rfl, .inr ⟨rfl, rfl, id, id⟩⟩
      · split <;> exact ⟨rfl, rfl, .inr ⟨rfl, rfl, id, id⟩⟩
    · split
      · refine ⟨stop_pc _, ?_, .inl (stop_stopped _)⟩
        unfold State.stop
        split <;> rfl
      · split
        · unfold State.enqueueOrderedRefresh
          split
          · exact ⟨rfl, rfl, .inr ⟨rfl, rfl, id, fun _ => rfl⟩⟩
          · exact ⟨rfl, rfl, .inr ⟨rfl, rfl, fun _ => rfl, id⟩⟩
        · exact ⟨rfl, rfl, .inr ⟨rfl, rfl, id, id⟩⟩
  | stop =>
    cases hs
    refine ⟨stop_pc s, ?_, .inl (stop_stopped s)⟩
    unfold State.stop
    split <;> rfl
  | cleared =>
    simp only [step] at hs
    split at hs <;> cases hs
    exact ⟨rfl, rfl, .inr ⟨rfl, rfl, id, id⟩⟩
  | turn | read _ | found _ | projected _ | fail _ => exact absurd trivial ha

/-- The observer's own next step answers, or brings the answer nearer. -/
theorem own_progress (hw : cfg.windowed = true) {r c : Nat} {a : Action}
    (h : Unanswered r c s) (ha : isOwn a) (hs : step cfg s a = some s') :
    Answered r c s' ∨ (Unanswered r c s' ∧ distance s' < distance s) := by
  obtain ⟨hstop, hr, hc, howes⟩ := h
  cases a with
  | turn =>
    refine .inl ?_
    simp only [step, State.turn] at hs
    split at hs
    · next hpc => simp [Owes, hpc] at howes
    · next hpc =>
      rw [if_pos hw] at hs
      split at hs <;> cases hs
      exact .inr (.inl (by simp [State.beginRefresh, hr]))
    · cases hs
      exact .inr (.inr (by simp [hstop, State.onStale, hc]))
    · next hpc =>
      rw [if_pos ⟨by simpa [Owes, hpc] using howes, hstop⟩] at hs
      cases hs
      exact .inr (.inl (by simp [State.beginRefresh, hr]))
    · next hpc => simp [Owes, hpc] at howes
    · cases hs
  | read _ | found _ | projected _ | fail _ =>
    refine .inr ?_
    rcases resume_cases hs with ⟨ds, hpc, -, rfl⟩ | ⟨projected, d, rest, fields, hpc, -, rfl⟩ |
      ⟨e, hpc, rfl⟩ | ⟨job, rest, o, hpc, ho, rfl⟩ | ⟨job, o, hpc, ho, rfl⟩
    · simp [Owes, hpc] at howes
    · simp [Owes, hpc] at howes
    · rcases hpc with hpc | ⟨_, _, _, hpc⟩ <;> simp [Owes, hpc] at howes
    · simp [Owes, hpc] at howes
    · obtain ⟨hjob, hpend⟩ : isWindowJob job = true ∧ s.orderedRefreshPending = true := by
        simpa [Owes, hpc] using howes
      have hfar : toLex (1, 0) < distance s := by
        cases job <;> simp_all [distance, isWindowJob, Prod.Lex.toLex_lt_toLex]
      rcases windowJob_cases hjob ho with ⟨t, rfl, hsame⟩ | ⟨t, e, rfl, hsame⟩ |
        ⟨t, cur, d, rest, rfl, hsame, hfrom⟩
      · refine ⟨⟨hsame.stopped.trans hstop, hsame.reads.trans hr, hsame.staleCalls.trans hc, ?_⟩, ?_⟩
        · simpa [State.afterJob, hw, Owes] using hsame.pending.trans hpend
        · simpa [State.afterJob, hw, distance] using hfar
      · refine ⟨⟨hsame.stopped.trans hstop, hsame.reads.trans hr, hsame.staleCalls.trans hc,
          trivial⟩, lt_trans ?_ hfar⟩
        simp [State.afterJob, distance, Prod.Lex.toLex_lt_toLex]
      · refine ⟨⟨hsame.stopped.trans hstop, hsame.reads.trans hr, hsame.staleCalls.trans hc,
          rfl, hsame.pending.trans hpend⟩, ?_⟩
        rcases hfrom with rfl | ⟨cur', d', rest', rfl, hlen⟩
        · simp [State.afterJob, distance, hpc, Prod.Lex.toLex_lt_toLex]
        · simp [State.afterJob, distance, hpc, Prod.Lex.toLex_lt_toLex, hlen]
  | start | notice _ | stop | cleared => cases ha

/-- A change sets a flag that the loop, or its beginning, will look at. -/
theorem owed_of_change (hw : cfg.windowed = true) (h : Coupled s) {q : Nat} {id : SourceId}
    {deleted : Bool} (hs : step cfg s (.notice (.change q id deleted)) = some s')
    (hstart : s.initializing = false) (hstop : s.stopped = false) (hexit : s.pc ≠ .exited) :
    Unanswered s.reads s.staleCalls s' := by
  simp only [step] at hs
  split at hs <;> cases hs
  have hlisten : s.listen cfg (.change q id deleted) = s.enqueueOrderedRefresh := by
    simp [State.listen, hstart, hw]
  rw [hlisten]
  unfold State.enqueueOrderedRefresh Coupled at *
  split
  · refine ⟨hstop, rfl, rfl, ?_⟩
    cases hpc : s.pc <;> simp_all [Owes]
  · refine ⟨hstop, rfl, rfl, ?_⟩
    cases hpc : s.pc <;> simp_all [Owes]

theorem unanswered_step (hw : cfg.windowed = true) {r c : Nat} {a : Action}
    (h : Unanswered r c s) (hs : step cfg s a = some s') :
    Answered r c s' ∨ (Unanswered r c s' ∧ distance s' ≤ distance s ∧
      (isOwn a → distance s' < distance s)) := by
  by_cases ha : isOwn a
  · rcases own_progress hw h ha hs with hQ | ⟨hP, hlt⟩
    · exact .inl hQ
    · exact .inr ⟨hP, le_of_lt hlt, fun _ => hlt⟩
  · obtain ⟨hstop, hr, hc, howes⟩ := h
    have hpc : s.pc ≠ .created := fun hpc => by simp [Owes, hpc] at howes
    obtain ⟨hpc', hreads, hstop' | ⟨hstop', hstale, hrun, hpend⟩⟩ := outside_keeps ha hs hpc
    · exact .inl (.inl hstop')
    · refine .inr ⟨⟨hstop'.trans hstop, hreads.trans hr, hstale.trans hc, ?_⟩, ?_,
        fun h => absurd h ha⟩
      · unfold Owes at howes ⊢
        rw [hpc']
        split at howes <;> simp_all
      · rw [distance, distance, hpc']

end

/-- **Ordered windows never lose a change.** In every fair run of a windowed
observer in which no change arrives between the end of the refresh loop and its
`finally` handler, a change that is received behind `start` while the observer
is not stopped is followed by a read that begins later, unless the observer is
stopped or `onStale` is called. -/
theorem ordered_windows_never_lose_a_change {cfg : Config} (hw : cfg.windowed = true)
    (T : Trace (machine cfg) noChangeAtExit) (hfair : T.Fair isOwn) {n q : ℕ} {id : SourceId}
    {deleted : Bool} (hact : T.act n = some (.notice (.change q id deleted)))
    (hstart : (T.state n).initializing = false) (hstop : (T.state n).stopped = false) :
    ∃ m, n < m ∧ Answered (T.state n).reads (T.state n).staleCalls (T.state m) := by
  have hcoupled : Coupled (T.state n) :=
    (T.reach n).invariant Coupled (by simp [machine, init, Coupled]) fun _ _ _ h _ hs =>
      coupled_step hw h hs
  have hnext := T.next n
  rw [hact] at hnext
  have howed := owed_of_change hw hcoupled hnext.2 hstart hstop hnext.1
  obtain ⟨m, hm, hanswered⟩ := T.leadsTo hfair distance (fun s h => own_enabled hw h.owes)
    (fun _ _ _ _ h _ hs => unanswered_step hw h hs) (n + 1) howed
  exact ⟨m, by omega, hanswered⟩

instance (s : State) : ∀ a, Decidable (noChangeAtExit s a)
  | .notice (.change _ _ _) => inferInstanceAs (Decidable (s.pc ≠ .exited))
  | .start | .notice (.reset _ _) | .stop | .cleared | .read _ | .found _ | .projected _ | .fail _
  | .turn => isTrue trivial

/-! ### Two runs -/

/-- An observer of windowed mode. -/
def windowed : Config := ⟨0, 1, true, true, 10⟩

/-- A windowed observer whose loop is not running waits for changes only. -/
theorem resting {s : State} (hpc : s.pc = .idle) (hrun : s.orderedRefreshRunning = false) :
    ∀ a, isOwn a → (machine windowed).step s a = none := by
  intro a ha
  cases a with
  | turn => simp [machine, step, State.turn, hpc, hrun, windowed]
  | read _ | found _ | projected _ | fail _ => simp [machine, step, resume, hpc]
  | start | notice _ | stop | cleared => cases ha

/-- A run of a windowed observer that comes to rest. -/
def restingRun (ok : State → Action → Prop) [∀ s a, Decidable (ok s a)] (as : List Action) : Prop :=
  ∃ final, (machine windowed).exec ok init as = some final ∧ final.pc = .idle ∧
    final.orderedRefreshRunning = false

theorem restingRun_of_exec {ok : State → Action → Prop} [∀ s a, Decidable (ok s a)]
    {as : List Action} (h : ((machine windowed).exec ok init as).any (fun s =>
      decide (s.pc = .idle) && !s.orderedRefreshRunning) = true) : restingRun ok as := by
  cases ht : (machine windowed).exec ok init as with
  | none => simp [ht] at h
  | some t =>
    simp only [ht, Option.any_some, Bool.and_eq_true, decide_eq_true_eq, Bool.not_eq_true'] at h
    exact ⟨t, ht, h⟩

theorem ordered_windows_never_lose_a_change_during_read :
    ∃ T : Trace (machine windowed) noChangeAtExit, T.Fair isOwn ∧
      T.act 4 = some (.notice noticeA) ∧
      ∃ m, 4 < m ∧ Answered (T.state 4).reads (T.state 4).staleCalls (T.state m) := by
  obtain ⟨final, hf, hpc, hrun⟩ := @restingRun_of_exec noChangeAtExit _
    [.start, .read [], .notice noticeA, .turn, .notice noticeA, .read [], .turn, .read [], .turn,
      .turn] (by decide)
  have hfair := Trace.ofList_fair _ hf (resting hpc hrun)
  exact ⟨Trace.ofList _ hf, hfair, rfl,
    ordered_windows_never_lose_a_change rfl (Trace.ofList _ hf) hfair (n := 4) rfl
      rfl rfl⟩

/-- A change that arrives behind the last test of the loop and before its
`finally` handler is forgotten. -/
theorem change_at_exit_is_lost : ¬ ∀ (cfg : Config) (T : Trace (machine cfg) anyStep) (n q : ℕ)
    (id : SourceId) (deleted : Bool), cfg.windowed = true → T.Fair isOwn →
    T.act n = some (.notice (.change q id deleted)) → (T.state n).initializing = false →
    (T.state n).stopped = false →
    ∃ m, n < m ∧ Answered (T.state n).reads (T.state n).staleCalls (T.state m) := by
  intro h
  obtain ⟨final, hf, hpc, hrun⟩ := @restingRun_of_exec anyStep _
    [.start, .read [], .notice noticeA, .turn, .read [], .turn, .notice noticeA, .turn] (by decide)
  obtain ⟨m, hm, hanswered⟩ := h windowed (Trace.ofList _ hf) 6 1 (.str (js "a")) false rfl
    (Trace.ofList_fair _ hf (resting hpc hrun)) rfl rfl rfl
  -- From there on nothing is read, as before it one read was begun.
  have hlast : ((Trace.ofList _ hf).state m).stopped = false ∧
      ((Trace.ofList _ hf).state m).reads = 1 ∧ ((Trace.ofList _ hf).state m).staleCalls = 0 := by
    rcases Nat.eq_or_lt_of_le hm with rfl | hm
    · exact ⟨rfl, rfl, rfl⟩
    · have hsame : (Trace.ofList _ hf).state m = (Trace.ofList _ hf).state 8 := by
        rw [Trace.ofList_final _ hf hm, Trace.ofList_final _ hf (Nat.le_refl 8)]
      rw [hsame]
      exact ⟨rfl, rfl, rfl⟩
  have hbefore : ((Trace.ofList _ hf).state 6).reads = 1 := rfl
  rw [Answered, hlast.1, hlast.2.1, hlast.2.2, hbefore] at hanswered
  simp at hanswered

end TypeFerry.Live.Delivery
