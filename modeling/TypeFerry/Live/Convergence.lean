import TypeFerry.Live.Simulation

/-! # Convergence of an unordered observer

An observer of unordered mode joined to a collection. Writes are committed to a
log, the change source gives a notice for each of them in the order of the log,
and a read sees the collection behind some prefix of the log that reaches as far
as the notices given before the read was begun. A notice carries no more than an
identifier, and what the observer then reads may be ahead of it; once all
notices are worked off, the observer holds the result of its filter. -/
namespace TypeFerry.Live.Convergence
open TypeFerry.Lib.Numeral TypeFerry.Lib.OrderedMap TypeFerry.Lib.Runs
open TypeFerry.Ejson.Clone TypeFerry.Live.Types TypeFerry.Live.Observer TypeFerry.Live.Delivery

/-! ## The collection -/

/-- A committed write: the new fields of a document, or its deletion. -/
structure Write where
  id : SourceId
  fields : Option (List (Text × Value))
  deriving DecidableEq

/-- The stored fields by `_id`. -/
abbrev Stored := OMap SourceId (List (Text × Value))

def Write.apply (c : Stored) (w : Write) : Stored :=
  match w.fields with
  | some fields => c.set w.id fields
  | none => c.delete w.id

/-- The collection behind the writes. -/
def collection (ws : List Write) : Stored := ws.foldl Write.apply OMap.empty

/-- What a publication gives an observer: what its filter matches, and its
projector. -/
structure Publication where
  filter : Document → Bool
  project : Document → List (Text × Value)

variable (pub : Publication)

/-- `findOne` for an identifier. -/
def findOne (ws : List Write) (id : SourceId) : Option Document :=
  (((collection ws).get id).map fun fields => ⟨.live id, fields⟩).filter pub.filter

/-- The documents the filter matches. -/
def matching (ws : List Write) : List Document :=
  ((collection ws).entries.map fun e => ⟨.live e.1, e.2⟩).filter pub.filter

/-- Nothing is written to the document. -/
def Quiet (ws : List Write) (id : SourceId) : Prop := ∀ w ∈ ws, w.id ≠ id

section
variable {pub}

theorem get_foldl_quiet {id : SourceId} : ∀ {ws : List Write} {c : Stored}, Quiet ws id →
    (ws.foldl Write.apply c).get id = c.get id
  | [], _, _ => rfl
  | w :: ws, c, h => by
    obtain ⟨hw, h⟩ := List.forall_mem_cons.mp h
    rw [List.foldl_cons, get_foldl_quiet h, Write.apply]
    split
    · rw [OMap.get_set, if_neg (Ne.symm hw)]
    · rw [OMap.get_delete, if_neg (Ne.symm hw)]

theorem findOne_append_quiet {ws ws' : List Write} {id : SourceId} (h : Quiet ws' id) :
    findOne pub (ws ++ ws') id = findOne pub ws id := by
  rw [findOne, findOne, collection, List.foldl_append, get_foldl_quiet h]
  rfl

/-- A document that is not written behind a point is read there as it is now. -/
theorem findOne_take {ws : List Write} {id : SourceId} {point : ℕ} (h : Quiet (ws.drop point) id) :
    findOne pub (ws.take point) id = findOne pub ws id := by
  conv_rhs => rw [← List.take_append_drop point ws, findOne_append_quiet h]

theorem findOne_deleted {ws ws' : List Write} {w : Write} (hw : w.fields = none)
    (h : Quiet ws' w.id) : findOne pub (ws ++ w :: ws') w.id = none := by
  rw [findOne, collection, List.foldl_append, List.foldl_cons, get_foldl_quiet h, Write.apply, hw]
  simp [OMap.get_delete]

theorem findOne_never {ws : List Write} {id : SourceId} (h : Quiet ws id) :
    findOne pub ws id = none := by
  simpa [findOne, collection] using @findOne_append_quiet pub [] ws id h

theorem id_of_findOne {ws : List Write} {id : SourceId} {d : Document}
    (h : findOne pub ws id = some d) : d._id = .live id := by
  simp only [findOne, Option.filter_eq_some_iff, Option.map_eq_some_iff] at h
  obtain ⟨⟨fields, -, rfl⟩, -⟩ := h
  rfl

theorem mem_matching {ws : List Write} {d : Document} :
    d ∈ matching pub ws ↔ ∃ id, findOne pub ws id = some d := by
  simp only [matching, findOne, List.mem_filter, List.mem_map, Option.filter_eq_some_iff,
    Option.map_eq_some_iff, OMap.get_eq_some, Prod.exists]
  constructor
  · rintro ⟨⟨id, fields, hm, rfl⟩, hf⟩
    exact ⟨id, ⟨fields, hm, rfl⟩, hf⟩
  · rintro ⟨id, ⟨fields, hm, rfl⟩, hf⟩
    exact ⟨⟨id, fields, hm, rfl⟩, hf⟩

end

/-! ## The observer and its surroundings -/

structure World where
  observer : State
  /-- The log of the committed writes. -/
  writes : List Write
  /-- The writes whose notice was given. -/
  delivered : ℕ
  /-- The writes whose notice was given when the outstanding read was begun. -/
  floor : ℕ

inductive Event where
  | commit (w : Write)
  /-- `start`; the listener is told of the writes from `since` on. -/
  | start (since : ℕ)
  /-- The notice of the next write is given. -/
  | notice
  | reset (reason : ResetReason)
  | stop
  | cleared
  /-- The outstanding `find` sees the first `point` writes, and gives the
  matching documents in this order. -/
  | read (point : ℕ) (documents : List Document)
  /-- The outstanding `findOne` sees the first `point` writes. -/
  | found (point : ℕ)
  | projected
  | fail (error : Text)
  | turn

/-- The document that `findOne` is asked for. -/
def findId : Pc → Option SourceId
  | .draining (.find id _) _ | .working (.find id _) => some id
  | _ => none

/-- The document in the projector. -/
def projectee : Pc → Option Document
  | .snapshotProject _ d _ | .draining (.project _ _ d) _ | .working (.project _ _ d)
  | .draining (.projectWindow _ d _) _ | .working (.projectWindow _ d _) => some d
  | _ => none

namespace World
variable (cfg : Config)

/-- Something is called from outside. -/
def outside (w : World) (a : Action) : Option World :=
  (Observer.step cfg w.observer a).map fun s => { w with observer := s }

/-- The observer goes on; a read that it begins is begun now. -/
def own (w : World) (a : Action) : Option World :=
  (Observer.step cfg w.observer a).map fun s => { w with observer := s, floor := w.delivered }

/-- What a read that sees the first `point` writes may be given for. -/
def sees (w : World) (point : ℕ) : Prop := w.floor ≤ point ∧ point ≤ w.writes.length

instance (w : World) (point : ℕ) : Decidable (w.sees point) :=
  inferInstanceAs (Decidable (_ ∧ _))

def step (w : World) : Event → Option World
  | .commit x => some { w with writes := w.writes ++ [x] }
  | .start since => if since ≤ w.writes.length then
      { w with delivered := since }.own cfg .start else none
  | .notice => match w.writes[w.delivered]? with
    | some x => { w with delivered := w.delivered + 1 }.outside cfg
        (.notice (.change (w.delivered + 1) x.id x.fields.isNone))
    | none => none
  | .reset reason => w.outside cfg (.notice (.reset w.delivered reason))
  | .stop => w.outside cfg .stop
  | .cleared => w.outside cfg .cleared
  | .read point ds =>
    if w.sees point ∧ ds.isPerm (matching pub (w.writes.take point)) then
      w.own cfg (.read (ds.take (cfg.maxSnapshotDocuments + 1)))
    else none
  | .found point => match findId w.observer.pc with
    | some id => if w.sees point then
        w.own cfg (.found (findOne pub (w.writes.take point) id)) else none
    | none => none
  | .projected => match projectee w.observer.pc with
    | some d => w.own cfg (.projected (pub.project d))
    | none => none
  | .fail e => w.own cfg (.fail e)
  | .turn => w.own cfg .turn

end World

def worldMachine (cfg : Config) : Machine World Event :=
  ⟨⟨Observer.init, [], 0, 0⟩, World.step pub cfg⟩

/-! ## What does not go back -/

/-- Nothing has ended the observation. -/
structure Alive (s : State) : Prop where
  stopped : s.stopped = false
  staleCalls : s.staleCalls = 0
  valid : s.initializationInvalidated = false

section
variable {cfg : Config} {s : State}

theorem not_alive_stop (h : Alive s.stop) : False := by simpa using h.stopped

theorem alive_resumeJob {emit : Bool} {job : Job} {a : Action} {o : Outcome}
    (ho : s.resumeJob cfg emit job a = some o) (h : Alive (outcomeState o)) : Alive s := by
  have hc := sameControl_resumeJob ho
  exact ⟨hc.stopped ▸ h.stopped, hc.staleCalls ▸ h.staleCalls, hc.invalidated ▸ h.valid⟩

theorem alive_applyNotice {emit : Bool} {n : Notice}
    (h : Alive (outcomeState (s.applyNotice cfg emit n))) : Alive s := by
  obtain ⟨h₁, -, h₂, h₃⟩ := @applyNotice_keeps cfg s emit n
  exact ⟨h₁ ▸ h.stopped, Nat.eq_zero_of_le_zero (h.staleCalls ▸ h₃), h₂ ▸ h.valid⟩

theorem alive_afterDrainJob {rest : List Notice} {o : Outcome}
    (h : Alive (State.afterDrainJob rest o)) : Alive (outcomeState o) := by
  cases o <;> exact ⟨h.stopped, h.staleCalls, h.valid⟩

theorem alive_afterJob {o : Outcome} (h : Alive (State.afterJob cfg o)) :
    Alive (outcomeState o) := by
  cases o <;> exact ⟨h.stopped, h.staleCalls, h.valid⟩

theorem alive_drain {rest : List Notice} (h : Alive (s.drain cfg rest)) : Alive s := by
  unfold State.drain at h
  split at h
  · exact (not_alive_stop ⟨h.stopped, h.staleCalls, h.valid⟩).elim
  · split at h
    · exact ⟨h.stopped, h.staleCalls, h.valid⟩
    · exact alive_applyNotice (alive_afterDrainJob h)
    · have h := alive_applyNotice (alive_afterDrainJob h)
      exact ⟨h.stopped, h.staleCalls, h.valid⟩

theorem alive_snapshotNext {projected : List ClientDocument} {ds : List Document}
    (h : Alive (s.snapshotNext cfg projected ds)) : Alive s := by
  cases ds with
  | nil =>
    have h := alive_drain h
    unfold State.takeSnapshot at h
    split at h <;> exact ⟨h.stopped, h.staleCalls, h.valid⟩
  | cons d rest =>
    simp only [State.snapshotNext] at h
    split at h <;> exact ⟨h.stopped, h.staleCalls, h.valid⟩

theorem alive_resume {a : Action} {t : State} (hs : resume cfg s a = some t) (h : Alive t) :
    Alive s := by
  rcases resume_cases hs with ⟨ds, -, -, rfl⟩ | ⟨projected, d, rest, fields, -, -, rfl⟩ |
    ⟨e, -, rfl⟩ | ⟨job, rest, o, -, ho, rfl⟩ | ⟨job, o, -, ho, rfl⟩
  · unfold State.snapshotDocuments at h
    split at h
    · exact (not_alive_stop ⟨h.stopped, h.staleCalls, h.valid⟩).elim
    · split at h
      · exact (not_alive_stop ⟨h.stopped, h.staleCalls, h.valid⟩).elim
      · exact alive_snapshotNext h
  · unfold State.snapshotProjected at h
    split at h
    · exact ⟨h.stopped, h.staleCalls, h.valid⟩
    · split at h
      · exact ⟨h.stopped, h.staleCalls, h.valid⟩
      · dsimp only at h
        split at h
        · exact (not_alive_stop ⟨h.stopped, h.staleCalls, h.valid⟩).elim
        · have h := alive_snapshotNext h
          exact ⟨h.stopped, h.staleCalls, h.valid⟩
  · exact ⟨h.stopped, h.staleCalls, h.valid⟩
  · exact alive_resumeJob ho (alive_afterDrainJob h)
  · exact alive_resumeJob ho (alive_afterJob h)

theorem alive_turn {t : State} (hs : s.turn cfg = some t) (h : Alive t) : Alive s := by
  unfold State.turn at hs
  split at hs
  · cases hs; exact alive_drain h
  · split at hs
    · split at hs <;> cases hs
      exact ⟨h.stopped, h.staleCalls, h.valid⟩
    · split at hs <;> cases hs
      have h := alive_applyNotice (alive_afterJob h)
      exact ⟨h.stopped, h.staleCalls, h.valid⟩
  · cases hs
    cases hst : s.stopped with
    | true => exact absurd h.stopped (by simp [hst])
    | false => exact absurd h.staleCalls (by simp [hst, State.onStale])
  · split at hs <;> cases hs <;> exact ⟨h.stopped, h.staleCalls, h.valid⟩
  · cases hs; exact ⟨h.stopped, h.staleCalls, h.valid⟩
  · cases hs

/-- What has ended the observation stays. -/
theorem alive_of_step {a : Action} {t : State} (hs : Observer.step cfg s a = some t)
    (h : Alive t) : Alive s := by
  cases a with
  | start =>
    simp only [Observer.step] at hs
    split at hs <;> cases hs
    exact ⟨h.stopped, h.staleCalls, h.valid⟩
  | notice n =>
    simp only [Observer.step] at hs
    split at hs <;> cases hs
    unfold State.listen at h
    split at h
    · split at h
      · exact absurd h.valid (by simp)
      · split at h
        · exact absurd h.valid (by simp)
        · exact ⟨h.stopped, h.staleCalls, h.valid⟩
    · split at h
      · exact (not_alive_stop h).elim
      · split at h
        · unfold State.enqueueOrderedRefresh at h
          split at h <;> exact ⟨h.stopped, h.staleCalls, h.valid⟩
        · exact ⟨h.stopped, h.staleCalls, h.valid⟩
  | stop => cases hs; exact (not_alive_stop h).elim
  | cleared =>
    simp only [Observer.step] at hs
    split at hs <;> cases hs
    exact ⟨h.stopped, h.staleCalls, h.valid⟩
  | turn => exact alive_turn hs h
  | read _ | found _ | projected _ | fail _ => exact alive_resume hs h

/-- Behind `start` a reset makes the observer stale, and no longer invalid. -/
def Up (s : State) : Prop :=
  isStart s.pc = false → s.initializing = false ∧ s.initializationInvalidated = false

theorem up_of_starts {t : State} (h : Starts s t) : Up t := fun hpc => by
  rcases h.phase with ⟨-, h⟩ | ⟨h, -⟩
  · exact h
  · rw [h] at hpc; cases hpc

theorem up_afterJob (h : s.initializing = false ∧ s.initializationInvalidated = false) {o : Outcome}
    (hi : (outcomeState o).initializing = s.initializing)
    (hv : (outcomeState o).initializationInvalidated = s.initializationInvalidated) :
    Up (State.afterJob cfg o) := fun _ => by
  cases o <;> exact ⟨hi.trans h.1, hv.trans h.2⟩

theorem up_turn (h : Up s) {t : State} (hs : s.turn cfg = some t) : Up t := by
  unfold State.turn at hs
  split at hs
  · cases hs; exact up_of_starts (starts_drain cfg s _)
  · next hpc =>
    have h := h (by rw [hpc]; rfl)
    split at hs
    · split at hs <;> cases hs
      exact fun _ => h
    · split at hs <;> cases hs
      obtain ⟨-, h₁, h₂, -⟩ := @applyNotice_keeps cfg { s with queue := _ } true _
      exact up_afterJob h h₁ h₂
  · next hpc =>
    have h := h (by rw [hpc]; rfl)
    cases hs
    cases hst : s.stopped <;> exact fun _ => h
  · next hpc =>
    have h := h (by rw [hpc]; rfl)
    split at hs <;> cases hs <;> exact fun _ => h
  · next hpc =>
    have h := h (by rw [hpc]; rfl)
    cases hs
    exact fun _ => h
  · cases hs

theorem up_step (h : Up s) {a : Action} {t : State} (hs : Observer.step cfg s a = some t) : Up t := by
  cases a with
  | start =>
    simp only [Observer.step] at hs
    split at hs <;> cases hs
    exact fun hpc => by cases hpc
  | notice n =>
    simp only [Observer.step] at hs
    split at hs <;> cases hs
    obtain ⟨hpc, -, hinit⟩ := @listen_control cfg s n
    intro ht
    have h := h (hpc ▸ ht)
    refine ⟨hinit.trans h.1, ?_⟩
    unfold State.listen
    rw [if_neg (by simp [h.1])]
    split
    · unfold State.stop; split <;> exact h.2
    · split
      · unfold State.enqueueOrderedRefresh; split <;> exact h.2
      · exact h.2
  | stop =>
    cases hs
    unfold State.stop
    split <;> exact h
  | cleared =>
    simp only [Observer.step] at hs
    split at hs <;> cases hs
    exact h
  | turn => exact up_turn h hs
  | read _ | found _ | projected _ | fail _ =>
    rcases resume_cases hs with ⟨ds, -, -, rfl⟩ | ⟨projected, d, rest, fields, -, -, rfl⟩ |
      ⟨e, -, rfl⟩ | ⟨job, rest, o, -, ho, rfl⟩ | ⟨job, o, hpc, ho, rfl⟩
    · exact up_of_starts (starts_snapshotDocuments cfg s ds)
    · exact up_of_starts (starts_snapshotProjected cfg s projected d rest fields)
    · exact fun hpc => by cases hpc
    · cases o <;> exact fun hpc => by cases hpc
    · have hc := sameControl_resumeJob ho
      exact up_afterJob (h (by rw [hpc]; rfl)) hc.initializing hc.invalidated

end

/-! ## What the observer has caught up with -/

/-- The notice of a write. -/
def Tells (n : Notice) (w : Write) : Prop := ∃ sequence, n = .change sequence w.id w.fields.isNone

/-- The client document of a stored one. -/
def Projects (cfg : Config) (id : SourceId) (d : Document) (p : ClientDocument) : Prop :=
  State.projectDocument cfg id (pub.project d) = some p

/-- Written identifiers with one key are one identifier. -/
def DistinctKeys (cfg : Config) (ws : List Write) : Prop :=
  ∀ x ∈ ws, ∀ y ∈ ws, State.idKey cfg x.id = State.idKey cfg y.id → x.id = y.id

/-- The map holds the documents that are not written behind the first `q` writes,
but for one that is being worked at, and no document that was never written. -/
structure Caught (cfg : Config) (ws : List Write) (q : ℕ) (busy : Option SourceId)
    (m : OMap Text ClientDocument) : Prop where
  done : ∀ w ∈ ws, busy ≠ some w.id → Quiet (ws.drop q) w.id →
    Option.Rel (Projects pub cfg w.id) (findOne pub ws w.id) (m.get (State.idKey cfg w.id))
  keys : ∀ k p, m.get k = some p → ∃ w ∈ ws, k = State.idKey cfg w.id

section
variable {pub} {cfg : Config} {ws : List Write} {q : ℕ} {m m' : OMap Text ClientDocument}

theorem Quiet.mono {id : SourceId} {n : ℕ} (h : Quiet (ws.drop q) id) (hn : q ≤ n) :
    Quiet (ws.drop n) id := fun w hw =>
  h w ((List.drop_sublist_drop_left ws hn).subset hw)

theorem written_of_findOne {id : SourceId} {d : Document} (h : findOne pub ws id = some d) :
    ∃ w ∈ ws, w.id = id := by
  by_contra hnot
  rw [findOne_never fun w hw heq => hnot ⟨w, hw, heq⟩] at h
  cases h

theorem Caught.begin (h : Caught pub cfg ws q none m) {x : Write} (hx : ws[q]? = some x) :
    Caught pub cfg ws (q + 1) (some x.id) m := by
  refine ⟨fun w hw hbusy hquiet => h.done w hw (by simp) ?_, h.keys⟩
  obtain ⟨hlt, rfl⟩ := List.getElem?_eq_some_iff.mp hx
  rw [List.drop_eq_getElem_cons hlt]
  exact List.forall_mem_cons.mpr ⟨fun heq => hbusy (by rw [heq]), hquiet⟩

theorem Caught.finish {x : Write} (h : Caught pub cfg ws q (some x.id) m) (hx : x ∈ ws)
    (hkeys : DistinctKeys cfg ws)
    (hothers : ∀ k, k ≠ State.idKey cfg x.id → m'.get k = m.get k)
    (hthis : Quiet (ws.drop q) x.id →
      Option.Rel (Projects pub cfg x.id) (findOne pub ws x.id) (m'.get (State.idKey cfg x.id))) :
    Caught pub cfg ws q none m' := by
  constructor
  · intro w hw _ hquiet
    by_cases heq : State.idKey cfg w.id = State.idKey cfg x.id
    · rw [hkeys w hw x hx heq] at hquiet ⊢
      exact hthis hquiet
    · rw [hothers _ heq]
      exact h.done w hw (fun hid => heq (by rw [Option.some.inj hid])) hquiet
  · intro k p hk
    by_cases heq : k = State.idKey cfg x.id
    · exact ⟨x, hx, heq⟩
    · rw [hothers k heq] at hk
      exact h.keys k p hk

/-- A further write concerns no document that is caught up with. -/
theorem Caught.commit {busy : Option SourceId} (h : Caught pub cfg ws q busy m) (x : Write)
    (hq : q ≤ ws.length) : Caught pub cfg (ws ++ [x]) q busy m := by
  constructor
  · intro w hw hbusy hquiet
    rw [List.drop_append_of_le_length hq] at hquiet
    have hx : Quiet [x] w.id := fun y hy => hquiet y (List.mem_append_right _ hy)
    have hold : w ∈ ws := by
      rcases List.mem_append.mp hw with hw | hw
      · exact hw
      · exact absurd rfl (hx w hw)
    rw [findOne_append_quiet hx]
    exact h.done w hold hbusy fun y hy => hquiet y (List.mem_append_left _ hy)
  · intro k p hk
    obtain ⟨w, hw, rfl⟩ := h.keys k p hk
    exact ⟨w, List.mem_append_left _ hw, rfl⟩

/-! ### The snapshot -/

/-- A projected document of the snapshot. -/
def ProjectsTo (pub : Publication) (cfg : Config) (d : Document) (p : ClientDocument) : Prop :=
  ∃ id, d._id = .live id ∧ Projects pub cfg id d p

theorem key_of_projects {id : SourceId} {d : Document} {p : ClientDocument}
    (h : Projects pub cfg id d p) : p.key = State.idKey cfg id := by
  unfold Projects State.projectDocument at h
  split at h <;> cases h
  rfl

theorem get_foldl_set (k : Text) : ∀ (ps : List ClientDocument) (m : OMap Text ClientDocument),
    ((∃ p ∈ ps, p.key = k) → ∃ p ∈ ps, p.key = k ∧
      (ps.foldl (fun m d => m.set d.key d) m).get k = some p) ∧
    ((∀ p ∈ ps, p.key ≠ k) → (ps.foldl (fun m d => m.set d.key d) m).get k = m.get k)
  | [], m => by simp
  | x :: ps, m => by
    obtain ⟨ih₁, ih₂⟩ := get_foldl_set k ps (m.set x.key x)
    constructor
    · rintro ⟨p, hp, hk⟩
      by_cases hlater : ∃ p ∈ ps, p.key = k
      · obtain ⟨p, hp, hk, hget⟩ := ih₁ hlater
        exact ⟨p, List.mem_cons_of_mem _ hp, hk, hget⟩
      · have hx : x.key = k := by
          rcases List.mem_cons.mp hp with rfl | hp
          · exact hk
          · exact absurd ⟨p, hp, hk⟩ hlater
        refine ⟨x, List.mem_cons_self .., hx, ?_⟩
        rw [List.foldl_cons, ih₂ fun p hp hk => hlater ⟨p, hp, hk⟩, ← hx, OMap.get_set_self]
    · intro h
      obtain ⟨hx, h⟩ := List.forall_mem_cons.mp h
      rw [List.foldl_cons, ih₂ h, OMap.get_set, if_neg (Ne.symm hx)]

theorem exists_of_forall₂ {R : Document → ClientDocument → Prop} {ds : List Document}
    {ps : List ClientDocument} (h : List.Forall₂ R ds ps) :
    (∀ d ∈ ds, ∃ p ∈ ps, R d p) ∧ ∀ p ∈ ps, ∃ d ∈ ds, R d p := by
  induction h with
  | nil => simp
  | cons h _ ih =>
    simp only [List.mem_cons, forall_eq_or_imp, exists_eq_or_imp]
    exact ⟨⟨.inl h, fun d hd => .inr (ih.1 d hd)⟩, .inl h, fun p hp => .inr (ih.2 p hp)⟩

/-- The projected snapshot of a read at `point` catches up with the writes before it. -/
theorem caught_of_snapshot (hkeys : DistinctKeys cfg ws) {point : ℕ} (hq : q ≤ point)
    {ds : List Document} (hds : ds.Perm (matching pub (ws.take point))) {ps : List ClientDocument}
    (hps : List.Forall₂ (ProjectsTo pub cfg) ds ps) :
    Caught pub cfg ws q none (ps.foldl (fun m d => m.set d.key d) OMap.empty) := by
  obtain ⟨hto, hfrom⟩ := exists_of_forall₂ hps
  -- A projected document is that of a written one, found at `point`.
  have hback : ∀ p ∈ ps, ∃ w ∈ ws, ∃ d, findOne pub (ws.take point) w.id = some d ∧
      p.key = State.idKey cfg w.id ∧ Projects pub cfg w.id d p := by
    intro p hp
    obtain ⟨d, hd, id, hid, hproj⟩ := hfrom p hp
    obtain ⟨id', hfound⟩ := mem_matching.mp (hds.mem_iff.mp hd)
    obtain rfl : id' = id := by
      rw [id_of_findOne hfound] at hid
      exact StoredId.live.inj hid
    obtain ⟨w, hw, rfl⟩ := written_of_findOne hfound
    exact ⟨w, List.mem_of_mem_take hw, d, hfound, key_of_projects hproj, hproj⟩
  constructor
  · intro w hw _ hquiet
    rw [← findOne_take (hquiet.mono hq)]
    obtain ⟨hsome, hnone⟩ := get_foldl_set (State.idKey cfg w.id) ps OMap.empty
    cases hf : findOne pub (ws.take point) w.id with
    | some d =>
      obtain ⟨p, hp, id, hid, hproj⟩ := hto d (hds.mem_iff.mpr (mem_matching.mpr ⟨w.id, hf⟩))
      obtain rfl : w.id = id := by
        rw [id_of_findOne hf] at hid
        exact StoredId.live.inj hid
      obtain ⟨p', hp', hkey, hget⟩ := hsome ⟨p, hp, key_of_projects hproj⟩
      obtain ⟨w', hw', d', hf', hkey', hproj'⟩ := hback p' hp'
      have heq := hkeys w' hw' w hw (hkey'.symm.trans hkey)
      rw [heq, hf, Option.some.injEq] at hf'
      rw [hget, hf']
      exact .some (heq ▸ hproj')
    | none =>
      rw [hnone fun p hp hkey => ?_]
      · exact .none
      · obtain ⟨w', hw', d', hf', hkey', -⟩ := hback p hp
        rw [hkeys w' hw' w hw (hkey'.symm.trans hkey), hf] at hf'
        cases hf'
  · intro k p hk
    obtain ⟨hsome, hnone⟩ := get_foldl_set k ps OMap.empty
    by_cases hex : ∃ p ∈ ps, p.key = k
    · obtain ⟨p, hp, rfl, -⟩ := hsome hex
      obtain ⟨w, hw, -, -, hkey, -⟩ := hback p hp
      exact ⟨w, hw, hkey⟩
    · rw [hnone fun p hp hkey => hex ⟨p, hp, hkey⟩] at hk
      cases hk

end

/-! ## The position in the log -/

/-- The notices that were given and not yet taken up. -/
def owed (s : State) : List Notice :=
  match s.pc with
  | .snapshotRead | .snapshotProject _ _ _ => s.bufferedNotices
  | .draining _ rest | .drained rest => rest ++ s.bufferedNotices
  | .idle | .working _ => s.queue
  | _ => []

/-- The notices of the first `q` writes were taken up, the others are owed. -/
structure Position (w : World) (q : ℕ) : Prop where
  notices : List.Forall₂ Tells (owed w.observer) ((w.writes.take w.delivered).drop q)
  begun : q ≤ w.delivered
  given : w.delivered ≤ w.writes.length

/-- A suspended notice: what it holds, and what it has found. -/
def Running (cfg : Config) (ws : List Write) (floor q : ℕ) (m : OMap Text ClientDocument) :
    Job → Prop
  | .find id previous => q ≤ floor ∧ previous = m.get (State.idKey cfg id) ∧
      Caught pub cfg ws q (some id) m ∧ ∃ w ∈ ws, w.id = id
  | .project id _ d => (Quiet (ws.drop q) id → findOne pub ws id = some d) ∧
      Caught pub cfg ws q (some id) m ∧ ∃ w ∈ ws, w.id = id
  | _ => False

/-- What the observer holds where it is suspended. -/
def Stage (cfg : Config) (ws : List Write) (floor q : ℕ) (m : OMap Text ClientDocument) : Pc → Prop
  | .created => m = OMap.empty
  | .snapshotRead => m = OMap.empty ∧ q ≤ floor
  | .snapshotProject projected d rest => m = OMap.empty ∧ ∃ point done, q ≤ point ∧
      point ≤ ws.length ∧ (done ++ d :: rest).Perm (matching pub (ws.take point)) ∧
      List.Forall₂ (ProjectsTo pub cfg) done projected
  | .draining job _ | .working job => Running pub cfg ws floor q m job
  | .drained _ | .idle => Caught pub cfg ws q none m
  | _ => False

/-- `start` and the work queue do not run at the same time. -/
structure Begun (s : State) : Prop where
  clearing : s.clearing = false
  initializing : s.initializing = isStart s.pc
  queue : isStart s.pc = true → s.queue = []
  unsubscribed : s.pc = .created → s.subscribed = false ∧ s.bufferedNotices = []

/-- The observer has failed, or is about to say so. -/
def hasFailed : Pc → Bool
  | .startFailed _ | .threw => true
  | _ => false

/-- The observer is somewhere in the log. -/
def Located (cfg : Config) (w : World) : Prop := hasFailed w.observer.pc = false →
  Begun w.observer ∧ ∃ q, Position w q ∧
    Stage pub cfg w.writes w.floor q w.observer.documents w.observer.pc

section
variable {pub} {cfg : Config} {w : World}

/-! ### From outside -/

theorem Stage.commit {ws : List Write} {floor q : ℕ} {m : OMap Text ClientDocument} {pc : Pc}
    (h : Stage pub cfg ws floor q m pc) (x : Write) (hq : q ≤ ws.length) :
    Stage pub cfg (ws ++ [x]) floor q m pc := by
  have hrun : ∀ {job}, Running pub cfg ws floor q m job →
      Running pub cfg (ws ++ [x]) floor q m job := by
    intro job h
    cases job with
    | find id previous =>
      obtain ⟨hf, hp, hc, y, hy, hid⟩ := h
      exact ⟨hf, hp, hc.commit x hq, y, List.mem_append_left _ hy, hid⟩
    | project id previous d =>
      obtain ⟨hd, hc, y, hy, hid⟩ := h
      refine ⟨fun hquiet => ?_, hc.commit x hq, y, List.mem_append_left _ hy, hid⟩
      rw [List.drop_append_of_le_length hq] at hquiet
      rw [findOne_append_quiet fun z hz => hquiet z (List.mem_append_right _ hz)]
      exact hd fun z hz => hquiet z (List.mem_append_left _ hz)
    | read | projectWindow => exact h
  cases pc with
  | created => exact h
  | snapshotRead => exact h
  | snapshotProject projected d rest =>
    obtain ⟨hm, point, done, hqp, hpoint, hperm, hps⟩ := h
    refine ⟨hm, point, done, hqp, ?_, ?_, hps⟩
    · rw [List.length_append]; omega
    · rwa [List.take_append_of_le_length hpoint]
  | draining job rest => exact hrun h
  | working job => exact hrun h
  | drained rest => exact Caught.commit h x hq
  | idle => exact Caught.commit h x hq
  | startFailed | threw | loopTest | exited => exact h

theorem Located.commit (h : Located pub cfg w) (x : Write) :
    Located pub cfg { w with writes := w.writes ++ [x] } := fun hf => by
  obtain ⟨hb, q, hp, hs⟩ := h hf
  refine ⟨hb, q, ⟨?_, hp.begun, ?_⟩, hs.commit x (hp.begun.trans hp.given)⟩
  · rw [List.take_append_of_le_length hp.given]
    exact hp.notices
  · exact hp.given.trans (by simp)

/-- The notice of the next write is owed. -/
theorem Position.notice {q : ℕ} (h : Position w q) {x : Write} (hx : w.writes[w.delivered]? = some x)
    {s : State} {n : Notice} (hn : Tells n x) (howed : owed s = owed w.observer ++ [n]) :
    Position { w with observer := s, delivered := w.delivered + 1 } q := by
  obtain ⟨hlt, rfl⟩ := List.getElem?_eq_some_iff.mp hx
  refine ⟨?_, Nat.le_succ_of_le h.begun, hlt⟩
  rw [howed, List.take_succ_eq_append_getElem hlt, List.drop_append_of_le_length]
  · exact List.rel_append h.notices (.cons hn .nil)
  · rw [List.length_take, Nat.min_eq_left h.given]
    exact h.begun

theorem Located.notice (hw : cfg.windowed = false) (h : Located pub cfg w) {x : Write}
    (hx : w.writes[w.delivered]? = some x) {sequence : ℕ} {s : State}
    (hs : Observer.step cfg w.observer (.notice (.change sequence x.id x.fields.isNone)) = some s)
    (halive : Alive s) :
    Located pub cfg { w with observer := s, delivered := w.delivered + 1 } := by
  simp only [Observer.step] at hs
  split at hs <;> cases hs
  next hsub =>
  intro hf
  have hpc := (@listen_control cfg w.observer (.change sequence x.id x.fields.isNone)).1
  obtain ⟨hb, q, hp, hstage⟩ := h (by rw [← hpc]; exact hf)
  have hcreated : w.observer.pc ≠ .created := fun hc => by simp [(hb.unsubscribed hc).1] at hsub
  have hn : Tells (.change sequence x.id x.fields.isNone) x := ⟨sequence, rfl⟩
  cases hst : isStart w.observer.pc with
  | true =>
    have hinit : w.observer.initializing = true := hb.initializing.trans hst
    have hlisten : w.observer.listen cfg (.change sequence x.id x.fields.isNone) =
        { w.observer with bufferedNotices :=
            w.observer.bufferedNotices ++ [.change sequence x.id x.fields.isNone] } := by
      have hvalid := halive.valid
      simp only [State.listen, hinit, if_true] at hvalid ⊢
      split at hvalid
      · cases hvalid
      · next hroom => rw [if_neg hroom]
    rw [hlisten] at hf ⊢
    refine ⟨⟨hb.clearing, hb.initializing, hb.queue, fun hc => absurd hc hcreated⟩, q,
      hp.notice hx hn ?_, hstage⟩
    cases hpc : w.observer.pc <;> simp_all [owed, isStart, hasFailed]
  | false =>
    have hinit : w.observer.initializing = false := hb.initializing.trans hst
    have hlisten : w.observer.listen cfg (.change sequence x.id x.fields.isNone) =
        { w.observer with queue :=
            w.observer.queue ++ [.change sequence x.id x.fields.isNone] } := by
      simp [State.listen, hinit, hw]
    rw [hlisten] at hf ⊢
    refine ⟨⟨hb.clearing, hb.initializing, fun hc => absurd hc (by simp [hst]), fun hc =>
      absurd hc hcreated⟩, q, hp.notice hx hn ?_, hstage⟩
    cases hpc : w.observer.pc <;> simp_all [owed, isStart, Stage, hasFailed]

/-! ### A piece of a job -/

/-- The fields around the documents are the same. -/
structure SameQueues (s t : State) : Prop where
  bufferedNotices : t.bufferedNotices = s.bufferedNotices
  queue : t.queue = s.queue
  initializing : t.initializing = s.initializing
  clearing : t.clearing = s.clearing

theorem SameQueues.refl (s : State) : SameQueues s s := ⟨rfl, rfl, rfl, rfl⟩

theorem sameQueues_removeDocument (s : State) (emit : Bool) (id : SourceId)
    (previous : Option ClientDocument) : SameQueues s (s.removeDocument cfg emit id previous) := by
  cases previous <;> cases emit <;> exact ⟨rfl, rfl, rfl, rfl⟩

theorem sameQueues_putDocument (s : State) (emit : Bool) (id : SourceId)
    (previous : Option ClientDocument) (p : ClientDocument) :
    SameQueues s (s.putDocument cfg emit id previous p) := by
  rw [State.putDocument]
  cases State.putOperation previous p <;> cases emit <;> exact ⟨rfl, rfl, rfl, rfl⟩

theorem get_removeDocument {s : State} {emit : Bool} {id : SourceId} {previous : Option ClientDocument}
    (hp : previous = s.documents.get (State.idKey cfg id)) (k : Text) :
    (s.removeDocument cfg emit id previous).documents.get k =
      if k = State.idKey cfg id then none else s.documents.get k := by
  cases previous with
  | none =>
    rw [State.removeDocument]
    split
    · next hk => rw [hk]; exact hp.symm
    · rfl
  | some p => cases emit <;> exact OMap.get_delete s.documents (State.idKey cfg id) k

theorem get_putDocument {s : State} {emit : Bool} {id : SourceId} {previous : Option ClientDocument}
    {p : ClientDocument} (k : Text) : (s.putDocument cfg emit id previous p).documents.get k =
      if k = State.idKey cfg id then some p else s.documents.get k := by
  rw [State.putDocument]
  cases State.putOperation previous p <;> cases emit <;>
    exact OMap.get_set s.documents (State.idKey cfg id) k p

/-- What a piece of a job leaves: the notice is worked off, or it is suspended. -/
def Leaves (pub : Publication) (cfg : Config) (ws : List Write) (floor q : ℕ) : Outcome → Prop
  | .settled t => Caught pub cfg ws q none t.documents
  | .awaiting t job => Running pub cfg ws floor q t.documents job
  | .rejected _ _ => True

/-- A document is removed for good reason. -/
theorem caught_remove {ws : List Write} {q : ℕ} {s : State} {id : SourceId}
    {previous : Option ClientDocument} (hkeys : DistinctKeys cfg ws)
    (hp : previous = s.documents.get (State.idKey cfg id))
    (h : Caught pub cfg ws q (some id) s.documents) (hid : ∃ w ∈ ws, w.id = id) (emit : Bool)
    (hgone : Quiet (ws.drop q) id → findOne pub ws id = none) :
    Caught pub cfg ws q none (s.removeDocument cfg emit id previous).documents := by
  obtain ⟨x, hx, rfl⟩ := hid
  refine h.finish hx hkeys (fun k hk => ?_) fun hquiet => ?_
  · rw [get_removeDocument hp, if_neg hk]
  · rw [get_removeDocument hp, if_pos rfl, hgone hquiet]
    exact .none

theorem applyNotice_leaves (hw : cfg.windowed = false) {ws : List Write} {floor q : ℕ} {s : State}
    (hkeys : DistinctKeys cfg ws) (hstop : s.stopped = false)
    (h : Caught pub cfg ws q none s.documents) {x : Write} (hx : ws[q]? = some x)
    (hfloor : q + 1 ≤ floor) {n : Notice} (hn : Tells n x) (emit : Bool) :
    Leaves pub cfg ws floor (q + 1) (s.applyNotice cfg emit n) ∧
      SameQueues s (outcomeState (s.applyNotice cfg emit n)) := by
  obtain ⟨sequence, rfl⟩ := hn
  have hmem : x ∈ ws := List.mem_of_getElem? hx
  have hbegin := h.begin hx
  simp only [State.applyNotice, hstop, hw]
  cases hdel : x.fields.isNone with
  | true =>
    refine ⟨caught_remove hkeys rfl hbegin ⟨x, hmem, rfl⟩ emit fun hquiet => ?_,
      sameQueues_removeDocument s emit _ _⟩
    obtain ⟨hlt, rfl⟩ := List.getElem?_eq_some_iff.mp hx
    have hsplit : ws = ws.take q ++ ws[q] :: ws.drop (q + 1) := by
      rw [← List.drop_eq_getElem_cons hlt, List.take_append_drop]
    have hgone := @findOne_deleted pub (ws.take q) (ws.drop (q + 1)) ws[q]
      (Option.isNone_iff_eq_none.mp hdel) hquiet
    rwa [← hsplit] at hgone
  | false => exact ⟨⟨hfloor, rfl, hbegin, x, hmem, rfl⟩, .refl s⟩

/-- What the surroundings answer. -/
def Answers (pub : Publication) (cfg : Config) (w : World) : Action → Prop
  | .read ds => ∃ point, w.sees point ∧ ∃ all : List Document,
      all.Perm (matching pub (w.writes.take point)) ∧ ds = all.take (cfg.maxSnapshotDocuments + 1)
  | .found d => ∀ id, findId w.observer.pc = some id →
      ∃ point, w.sees point ∧ d = findOne pub (w.writes.take point) id
  | .projected fields => ∀ d, projectee w.observer.pc = some d → fields = pub.project d
  | _ => True

theorem resumeJob_leaves {job : Job} {q : ℕ} {emit : Bool} {a : Action} {o : Outcome}
    (hkeys : DistinctKeys cfg w.writes)
    (h : Running pub cfg w.writes w.floor q w.observer.documents job)
    (hpc : (∃ rest, w.observer.pc = .draining job rest) ∨ w.observer.pc = .working job)
    (ha : Answers pub cfg w a) (ho : w.observer.resumeJob cfg emit job a = some o) :
    Leaves pub cfg w.writes w.delivered q o ∧ SameQueues w.observer (outcomeState o) := by
  rcases resumeJob_cases ho with ⟨id, prev, rfl, rfl, rfl⟩ | ⟨id, prev, d, rfl, rfl, -, rfl⟩ |
    ⟨id, prev, d, f, p, rfl, rfl, hp, rfl⟩ | ⟨ds, rfl, -, rfl⟩ |
    ⟨cur, d, rest, f, id, p, rfl, -, -, -, rfl⟩ | ⟨e, rfl⟩
  · obtain ⟨hfloor, hprev, hc, hid⟩ := h
    obtain ⟨point, ⟨hfp, -⟩, hfound⟩ := ha id (by rcases hpc with ⟨_, hpc⟩ | hpc <;> rw [hpc] <;> rfl)
    refine ⟨caught_remove hkeys hprev hc hid emit fun hquiet => ?_,
      sameQueues_removeDocument _ emit id prev⟩
    rw [← findOne_take (hquiet.mono (hfloor.trans hfp)), ← hfound]
  · obtain ⟨hfloor, hprev, hc, hid⟩ := h
    obtain ⟨point, ⟨hfp, -⟩, hfound⟩ := ha id (by rcases hpc with ⟨_, hpc⟩ | hpc <;> rw [hpc] <;> rfl)
    refine ⟨⟨fun hquiet => ?_, hc, hid⟩, .refl _⟩
    rw [← findOne_take (hquiet.mono (hfloor.trans hfp)), ← hfound]
  · obtain ⟨hd, hc, x, hx, rfl⟩ := h
    obtain rfl := ha d (by rcases hpc with ⟨_, hpc⟩ | hpc <;> rw [hpc] <;> rfl)
    refine ⟨hc.finish hx hkeys (fun k hk => ?_) fun hquiet => ?_,
      sameQueues_putDocument _ emit x.id prev p⟩
    · rw [get_putDocument, if_neg hk]
    · rw [get_putDocument, if_pos rfl, hd hquiet]
      exact .some hp
  · exact h.elim
  · exact h.elim
  · exact ⟨trivial, .refl _⟩

/-! ### The observer's own steps -/

theorem located_afterDrainJob {s : State} {q : ℕ} {rest : List Notice} {o : Outcome}
    (ho : Leaves pub cfg w.writes w.delivered q o ∧ SameQueues s (outcomeState o))
    (hb : s.clearing = false ∧ s.initializing = true ∧ s.queue = [])
    (hn : List.Forall₂ Tells (rest ++ s.bufferedNotices) ((w.writes.take w.delivered).drop q))
    (hq : q ≤ w.delivered) (hgiven : w.delivered ≤ w.writes.length) :
    Located pub cfg { w with observer := State.afterDrainJob rest o, floor := w.delivered } := by
  obtain ⟨hleaves, hsame⟩ := ho
  rw [← hsame.bufferedNotices] at hn
  rw [← hsame.clearing, ← hsame.initializing, ← hsame.queue] at hb
  intro hf
  cases o with
  | settled t => exact ⟨⟨hb.1, hb.2.1, fun _ => hb.2.2, by rintro ⟨⟩⟩, q, ⟨hn, hq, hgiven⟩, hleaves⟩
  | awaiting t job =>
    exact ⟨⟨hb.1, hb.2.1, fun _ => hb.2.2, by rintro ⟨⟩⟩, q, ⟨hn, hq, hgiven⟩, hleaves⟩
  | rejected t e => cases hf

theorem located_afterJob (hw : cfg.windowed = false) {s : State} {q : ℕ} {o : Outcome}
    (ho : Leaves pub cfg w.writes w.delivered q o ∧ SameQueues s (outcomeState o))
    (hb : s.clearing = false ∧ s.initializing = false)
    (hn : List.Forall₂ Tells s.queue ((w.writes.take w.delivered).drop q))
    (hq : q ≤ w.delivered) (hgiven : w.delivered ≤ w.writes.length) :
    Located pub cfg { w with observer := State.afterJob cfg o, floor := w.delivered } := by
  obtain ⟨hleaves, hsame⟩ := ho
  rw [← hsame.queue] at hn
  rw [← hsame.clearing, ← hsame.initializing] at hb
  intro hf
  cases o with
  | settled t =>
    simp only [State.afterJob, hw] at hf ⊢
    exact ⟨⟨hb.1, hb.2, by rintro ⟨⟩, by rintro ⟨⟩⟩, q, ⟨hn, hq, hgiven⟩, hleaves⟩
  | awaiting t job =>
    exact ⟨⟨hb.1, hb.2, by rintro ⟨⟩, by rintro ⟨⟩⟩, q, ⟨hn, hq, hgiven⟩, hleaves⟩
  | rejected t e => cases hf

/-- The first notice that is owed is that of the write behind the first `q`. -/
theorem next_owed {ws : List Write} {q D : ℕ} (hD : D ≤ ws.length) {n : Notice} {ns : List Notice}
    (h : List.Forall₂ Tells (n :: ns) ((ws.take D).drop q)) :
    ∃ x, ws[q]? = some x ∧ q + 1 ≤ D ∧ Tells n x ∧ List.Forall₂ Tells ns ((ws.take D).drop (q + 1)) := by
  have hlt : q < (ws.take D).length := by
    by_contra hge
    rw [List.drop_eq_nil_of_le (Nat.le_of_not_lt hge)] at h
    cases h
  rw [List.drop_eq_getElem_cons hlt] at h
  have hqD : q < D := by rw [List.length_take] at hlt; omega
  cases h with
  | cons hn hns =>
    refine ⟨_, ?_, hqD, hn, hns⟩
    rw [List.getElem_take, List.getElem?_eq_getElem]

theorem located_drain (hw : cfg.windowed = false) (hkeys : DistinctKeys cfg w.writes) {s : State}
    {q : ℕ} {rest : List Notice} (hstop : s.stopped = false)
    (h : Caught pub cfg w.writes q none s.documents)
    (hb : s.clearing = false ∧ s.initializing = true ∧ s.queue = [])
    (hn : List.Forall₂ Tells (rest ++ s.bufferedNotices) ((w.writes.take w.delivered).drop q))
    (hq : q ≤ w.delivered) (hgiven : w.delivered ≤ w.writes.length) :
    Located pub cfg { w with observer := s.drain cfg rest, floor := w.delivered } := by
  unfold State.drain
  split
  · intro hf; cases hf
  · split
    · next hempty =>
      rw [hempty, List.append_nil] at hn
      exact fun _ => ⟨⟨hb.1, rfl, by rintro ⟨⟩, by rintro ⟨⟩⟩, q,
        ⟨by simpa [owed, hb.2.2] using hn, hq, hgiven⟩, h⟩
    · rw [List.cons_append] at hn
      obtain ⟨x, hx, hqx, hnx, hns⟩ := next_owed hgiven hn
      exact located_afterDrainJob (applyNotice_leaves hw hkeys hstop h hx hqx hnx false) hb hns hqx
        hgiven
    · next n rest hbuf =>
      rw [hbuf, List.nil_append] at hn
      obtain ⟨x, hx, hqx, hnx, hns⟩ := next_owed hgiven hn
      exact located_afterDrainJob (@applyNotice_leaves pub cfg hw w.writes w.delivered q
        { s with bufferedNotices := [] } hkeys hstop h x hx hqx n hnx false) hb (by simpa using hns)
        hqx hgiven

/-- The loop over the snapshot's documents. -/
theorem located_snapshotNext (hw : cfg.windowed = false) (hkeys : DistinctKeys cfg w.writes)
    {s : State} {q point : ℕ} (hstop : s.stopped = false) (hempty : s.documents = OMap.empty)
    (hb : s.clearing = false ∧ s.initializing = true ∧ s.queue = [])
    (hn : List.Forall₂ Tells s.bufferedNotices ((w.writes.take w.delivered).drop q))
    (hq : q ≤ w.delivered) (hgiven : w.delivered ≤ w.writes.length) (hqp : q ≤ point)
    (hpoint : point ≤ w.writes.length) {done ds : List Document} {projected : List ClientDocument}
    (hds : (done ++ ds).Perm (matching pub (w.writes.take point)))
    (hps : List.Forall₂ (ProjectsTo pub cfg) done projected) :
    Located pub cfg { w with observer := s.snapshotNext cfg projected ds, floor := w.delivered } := by
  cases ds with
  | nil =>
    rw [List.append_nil] at hds
    have hcaught := caught_of_snapshot hkeys hqp hds hps
    rw [← hempty] at hcaught
    simp only [State.snapshotNext, State.takeSnapshot, hw]
    exact located_drain hw hkeys hstop hcaught hb hn hq hgiven
  | cons d rest =>
    simp only [State.snapshotNext]
    split
    · exact fun _ => ⟨⟨hb.1, hb.2.1, fun _ => hb.2.2, by rintro ⟨⟩⟩, q, ⟨hn, hq, hgiven⟩, hempty,
        point, done, hqp, hpoint, hds, hps⟩
    · intro hf; cases hf

theorem located_resume (hw : cfg.windowed = false) (hkeys : DistinctKeys cfg w.writes)
    (h : Located pub cfg w) (halive : Alive w.observer) {a : Action} (ha : Answers pub cfg w a)
    {s : State} (hs : resume cfg w.observer a = some s) :
    Located pub cfg { w with observer := s, floor := w.delivered } := by
  rcases resume_cases hs with ⟨ds, hpc, rfl, rfl⟩ | ⟨projected, d, rest, fields, hpc, rfl, rfl⟩ |
    ⟨e, hpc, rfl⟩ | ⟨job, rest, o, hpc, ho, rfl⟩ | ⟨job, o, hpc, ho, rfl⟩
  · obtain ⟨hb, q, hp, hstage⟩ := h (by rw [hpc]; rfl)
    rw [hpc] at hstage
    obtain ⟨point, ⟨hfp, hpoint⟩, all, hall, rfl⟩ := ha
    have hn := hp.notices
    rw [owed, hpc] at hn
    unfold State.snapshotDocuments
    rw [if_neg (by simp [halive.valid])]
    split
    · intro hf; cases hf
    · next hsmall =>
      -- The limit of the read has cut nothing off.
      have hall' : all.take (cfg.maxSnapshotDocuments + 1) = all := by
        refine List.take_of_length_le ?_
        simp only [hw, true_and, List.length_take] at hsmall
        omega
      rw [hall']
      exact located_snapshotNext hw hkeys halive.stopped hstage.1
        ⟨hb.clearing, by rw [hb.initializing, hpc]; rfl, hb.queue (by rw [hpc]; rfl)⟩ hn hp.begun
        hp.given (hstage.2.trans hfp) hpoint
        (show ([] ++ all).Perm _ from hall) .nil
  · obtain ⟨hb, q, hp, hstage⟩ := h (by rw [hpc]; rfl)
    rw [hpc] at hstage
    obtain ⟨hempty, point, done, hqp, hpoint, hds, hps⟩ := hstage
    obtain rfl := ha d (by rw [hpc]; rfl)
    have hn := hp.notices
    rw [owed, hpc] at hn
    unfold State.snapshotProjected
    split
    · intro hf; cases hf
    · next id hid =>
      split
      · intro hf; cases hf
      · next p hproj =>
        dsimp only
        rw [if_neg (by simp [halive.valid])]
        have hlive : d._id = .live id := by
          cases hd : d._id with
          | live id' => rw [hd] at hid; cases hid; rfl
          | other => rw [hd] at hid; cases hid
        exact located_snapshotNext (s := { w.observer with seen := w.observer.seen ++ [p] }) hw hkeys
          halive.stopped hempty
          ⟨hb.clearing, by rw [hb.initializing, hpc]; rfl, hb.queue (by rw [hpc]; rfl)⟩ hn hp.begun
          hp.given hqp hpoint (by rwa [List.append_cons] at hds)
          (List.rel_append hps (.cons ⟨id, hlive, hproj⟩ .nil))
  · intro hf; cases hf
  · obtain ⟨hb, q, hp, hstage⟩ := h (by rw [hpc]; rfl)
    have hn := hp.notices
    rw [owed, hpc] at hn
    rw [hpc] at hstage
    exact located_afterDrainJob (resumeJob_leaves hkeys hstage (.inl ⟨rest, hpc⟩) ha ho)
      ⟨hb.clearing, by rw [hb.initializing, hpc]; rfl, hb.queue (by rw [hpc]; rfl)⟩ hn hp.begun hp.given
  · obtain ⟨hb, q, hp, hstage⟩ := h (by rw [hpc]; rfl)
    have hn := hp.notices
    rw [owed, hpc] at hn
    rw [hpc] at hstage
    exact located_afterJob hw (resumeJob_leaves hkeys hstage (.inr hpc) ha ho)
      ⟨hb.clearing, by rw [hb.initializing, hpc]; rfl⟩ hn hp.begun hp.given

theorem located_turn (hw : cfg.windowed = false) (hkeys : DistinctKeys cfg w.writes)
    (h : Located pub cfg w) (halive : Alive w.observer) {s : State} (halive' : Alive s)
    (hs : w.observer.turn cfg = some s) :
    Located pub cfg { w with observer := s, floor := w.delivered } := by
  unfold State.turn at hs
  split at hs
  · next rest hpc =>
    cases hs
    obtain ⟨hb, q, hp, hstage⟩ := h (by rw [hpc]; rfl)
    have hn := hp.notices
    rw [owed, hpc] at hn
    rw [hpc] at hstage
    exact located_drain hw hkeys halive.stopped hstage
      ⟨hb.clearing, by rw [hb.initializing, hpc]; rfl, hb.queue (by rw [hpc]; rfl)⟩ hn hp.begun hp.given
  · next hpc =>
    rw [if_neg (by simp [hw])] at hs
    obtain ⟨hb, q, hp, hstage⟩ := h (by rw [hpc]; rfl)
    have hn := hp.notices
    rw [owed, hpc] at hn
    rw [hpc] at hstage
    split at hs <;> cases hs
    next n queue hqueue =>
    rw [hqueue] at hn
    obtain ⟨x, hx, hqx, hnx, hns⟩ := next_owed hp.given hn
    exact located_afterJob hw (@applyNotice_leaves pub cfg hw w.writes w.delivered q
      { w.observer with queue := queue } hkeys halive.stopped hstage x hx hqx n hnx true)
      ⟨hb.clearing, by rw [hb.initializing, hpc]; rfl⟩ hns hqx hp.given
  · next hpc =>
    cases hs
    exact absurd halive'.staleCalls (by simp [halive.stopped, State.onStale])
  · next hpc => simpa [hpc, Stage] using h (by rw [hpc]; rfl)
  · next hpc => simpa [hpc, Stage] using h (by rw [hpc]; rfl)
  · cases hs

/-! ### A step of the whole -/

/-- Everything that can happen. -/
theorem step_cases {e : Event} {w' : World} (hstep : World.step pub cfg w e = some w') :
    (∃ x, w' = { w with writes := w.writes ++ [x] }) ∨
    (∃ since s, since ≤ w.writes.length ∧ Observer.step cfg w.observer .start = some s ∧
      w' = { w with observer := s, delivered := since, floor := since }) ∨
    (∃ x s sequence, w.writes[w.delivered]? = some x ∧
      Observer.step cfg w.observer (.notice (.change sequence x.id x.fields.isNone)) = some s ∧
      w' = { w with observer := s, delivered := w.delivered + 1 }) ∨
    (∃ a s, (a = .stop ∨ a = .cleared ∨ ∃ q r, a = .notice (.reset q r)) ∧
      Observer.step cfg w.observer a = some s ∧ w' = { w with observer := s }) ∨
    ∃ a s, Answers pub cfg w a ∧ isOwn a ∧ Observer.step cfg w.observer a = some s ∧
      w' = { w with observer := s, floor := w.delivered } := by
  have hown : ∀ {a}, Answers pub cfg w a → isOwn a → w.own cfg a = some w' →
      ∃ a s, Answers pub cfg w a ∧ isOwn a ∧ Observer.step cfg w.observer a = some s ∧
        w' = { w with observer := s, floor := w.delivered } := fun {a} ha ho h => by
    obtain ⟨s, ht, rfl⟩ := Option.map_eq_some_iff.mp h
    exact ⟨a, s, ha, ho, ht, rfl⟩
  have houtside : ∀ {a}, (a = .stop ∨ a = .cleared ∨ ∃ q r, a = .notice (.reset q r)) →
      w.outside cfg a = some w' → ∃ a s, (a = .stop ∨ a = .cleared ∨ ∃ q r, a = .notice (.reset q r)) ∧
        Observer.step cfg w.observer a = some s ∧ w' = { w with observer := s } := fun {a} ha h => by
    obtain ⟨s, ht, rfl⟩ := Option.map_eq_some_iff.mp h
    exact ⟨a, s, ha, ht, rfl⟩
  cases e with
  | commit x => cases hstep; exact .inl ⟨x, rfl⟩
  | start since =>
    simp only [World.step] at hstep
    split at hstep
    · next hsince =>
      obtain ⟨s, hs, rfl⟩ := Option.map_eq_some_iff.mp hstep
      exact .inr (.inl ⟨since, s, hsince, hs, rfl⟩)
    · cases hstep
  | notice =>
    simp only [World.step] at hstep
    split at hstep
    · next x hx =>
      obtain ⟨s, hs, rfl⟩ := Option.map_eq_some_iff.mp hstep
      exact .inr (.inr (.inl ⟨x, s, _, hx, hs, rfl⟩))
    · cases hstep
  | reset reason => exact .inr (.inr (.inr (.inl (houtside (.inr (.inr ⟨_, _, rfl⟩)) hstep))))
  | stop => exact .inr (.inr (.inr (.inl (houtside (.inl rfl) hstep))))
  | cleared => exact .inr (.inr (.inr (.inl (houtside (.inr (.inl rfl)) hstep))))
  | read point ds =>
    simp only [World.step] at hstep
    split at hstep
    · next h =>
      exact .inr (.inr (.inr (.inr
        (hown (a := .read _) ⟨point, h.1, ds, List.isPerm_iff.mp h.2, rfl⟩ trivial hstep))))
    · cases hstep
  | found point =>
    simp only [World.step] at hstep
    split at hstep
    · next id hid =>
      split at hstep
      · next hsees =>
        refine .inr (.inr (.inr (.inr (hown (a := .found _) (fun id' hid' => ⟨point, hsees, ?_⟩) trivial hstep))))
        rw [hid, Option.some.injEq] at hid'
        rw [hid']
      · cases hstep
    · cases hstep
  | projected =>
    simp only [World.step] at hstep
    split at hstep
    · next d hd =>
      refine .inr (.inr (.inr (.inr (hown (a := .projected _) (fun d' hd' => ?_) trivial hstep))))
      rw [hd, Option.some.injEq] at hd'
      rw [hd']
    · cases hstep
  | fail e => exact .inr (.inr (.inr (.inr (hown (a := .fail e) trivial trivial hstep))))
  | turn => exact .inr (.inr (.inr (.inr (hown (a := .turn) trivial trivial hstep))))

/-- The observer of the whole is an observer. -/
theorem observer_reach (h : (worldMachine pub cfg).Reach anyStep w) :
    (machine cfg).Reach anyStep w.observer := by
  refine h.invariant (fun w => (machine cfg).Reach anyStep w.observer) .refl ?_
  intro w e w' hw _ hstep
  rcases step_cases hstep with ⟨x, rfl⟩ | ⟨since, s, -, hs, rfl⟩ | ⟨x, s, q, -, hs, rfl⟩ |
    ⟨a, s, -, hs, rfl⟩ | ⟨a, s, -, -, hs, rfl⟩
  · exact hw
  · exact hw.tail .start trivial hs
  · exact hw.tail (.notice _) trivial hs
  · exact hw.tail a trivial hs
  · exact hw.tail a trivial hs

theorem located_step (hw : cfg.windowed = false) (h : DistinctKeys cfg w.writes → Alive w.observer →
    Located pub cfg w) {e : Event} {w' : World} (hstep : World.step pub cfg w e = some w')
    (hkeys : DistinctKeys cfg w'.writes) (halive : Alive w'.observer) : Located pub cfg w' := by
  rcases step_cases hstep with ⟨x, rfl⟩ | ⟨since, s, hsince, hs, rfl⟩ | ⟨x, s, q, hx, hs, rfl⟩ |
    ⟨a, s, ha, hs, rfl⟩ | ⟨a, s, ha, hown, hs, rfl⟩
  · refine (h (fun x hx y hy => ?_) halive).commit x
    exact hkeys x (List.mem_append_left _ hx) y (List.mem_append_left _ hy)
  · have hl := h hkeys (alive_of_step hs halive)
    simp only [Observer.step] at hs
    split at hs <;> cases hs
    next hpc =>
    obtain ⟨hb, q, -, hstage⟩ := hl (by rw [hpc]; rfl)
    rw [hpc] at hstage
    refine fun _ => ⟨⟨hb.clearing, by rw [hb.initializing, hpc]; rfl, fun _ => hb.queue (by rw [hpc]; rfl),
      by rintro ⟨⟩⟩, since, ⟨?_, le_refl _, hsince⟩, hstage, le_refl _⟩
    have hbuf := (hb.unsubscribed hpc).2
    simp [owed, hbuf]
  · exact (h hkeys (alive_of_step hs halive)).notice hw hx hs halive
  · have hl := h hkeys (alive_of_step hs halive)
    rcases ha with rfl | rfl | ⟨q, r, rfl⟩
    · cases hs
      exact (not_alive_stop halive).elim
    · simp only [Observer.step] at hs
      split at hs <;> cases hs
      next hclear =>
      intro hf
      have := (hl hf).1.clearing
      simp [hclear.1] at this
    · have halive₀ := alive_of_step hs halive
      simp only [Observer.step] at hs
      split at hs <;> cases hs
      unfold State.listen at halive
      split at halive
      · exact absurd halive.valid (by simp)
      · exact (not_alive_stop halive).elim
  · have halive₀ := alive_of_step hs halive
    cases a with
    | turn => exact located_turn (w := w) hw hkeys (h hkeys halive₀) halive₀ halive hs
    | read _ | found _ | projected _ | fail _ =>
      exact located_resume (w := w) hw hkeys (h hkeys halive₀) halive₀ ha hs
    | start | notice _ | stop | cleared => cases hown

end

/-- The map holds the projections of the documents that the filter matches, each
under the key of its `_id`, and nothing else. -/
structure Converged (cfg : Config) (ws : List Write) (m : OMap Text ClientDocument) : Prop where
  each : ∀ id d, findOne pub ws id = some d →
    ∃ p, Projects pub cfg id d p ∧ m.get (State.idKey cfg id) = some p
  only : ∀ k p, m.get k = some p →
    ∃ id d, findOne pub ws id = some d ∧ k = State.idKey cfg id ∧ Projects pub cfg id d p

/-- **Convergence of the unordered live result.** In every run in which the written
identifiers have keys of their own: once `start` has resolved, every notice is
given and the work queue is empty, and neither `stop` nor `onStale` was called,
the observer's documents are the result of the filter on the collection. -/
theorem unordered_result_converges {pub : Publication} {cfg : Config} (hw : cfg.windowed = false)
    {w : World} (h : (worldMachine pub cfg).Reach anyStep w) (hkeys : DistinctKeys cfg w.writes)
    (hstarted : w.observer.result.isSome = true) (hgiven : w.delivered = w.writes.length)
    (hdone : w.observer.workDone = true) (hstop : w.observer.stopped = false)
    (hstale : w.observer.staleCalls = 0) : Converged pub cfg w.writes w.observer.documents := by
  have hlocated : DistinctKeys cfg w.writes → Alive w.observer → Located pub cfg w := by
    refine h.invariant (fun w => DistinctKeys cfg w.writes → Alive w.observer → Located pub cfg w) ?_
      fun _ _ _ h _ hs => located_step hw h hs
    intro _ _ _
    exact ⟨⟨rfl, rfl, fun _ => rfl, fun _ => ⟨rfl, rfl⟩⟩, 0, ⟨.nil, le_refl _, le_refl _⟩, rfl⟩
  have hreach := observer_reach h
  have hpc : isStart w.observer.pc = false := by
    cases hpc : isStart w.observer.pc with
    | false => rfl
    | true => simp [((Simulation.tracked_of_reach hreach).starting hpc).result] at hstarted
  have hup : Up w.observer :=
    hreach.invariant Up (by intro hpc; cases hpc) fun _ _ _ h _ hs => up_step h hs
  have hidle : w.observer.pc = .idle ∧ w.observer.queue = [] := by
    cases hpc' : w.observer.pc <;> simp_all [isStart, State.workDone]
  obtain ⟨-, q, hp, hstage⟩ := hlocated hkeys ⟨hstop, hstale, (hup hpc).2⟩ (by rw [hidle.1]; rfl)
  rw [hidle.1] at hstage
  -- No notice is owed, so the observer has taken up the whole log.
  have hq : w.writes.drop q = [] := by
    have hn := hp.notices
    rw [owed, hidle.1, hgiven, List.take_length] at hn
    simpa [hidle.2] using hn
  have hdone : ∀ x ∈ w.writes, Option.Rel (Projects pub cfg x.id) (findOne pub w.writes x.id)
      (w.observer.documents.get (State.idKey cfg x.id)) := fun x hx =>
    hstage.done x hx (by simp) (by rw [hq]; exact fun _ h => by cases h)
  constructor
  · intro id d hd
    obtain ⟨x, hx, rfl⟩ := written_of_findOne hd
    have hrel := hdone x hx
    rw [hd] at hrel
    cases hm : w.observer.documents.get (State.idKey cfg x.id) with
    | none => rw [hm] at hrel; cases hrel
    | some p => rw [hm] at hrel; cases hrel with | some hproj => exact ⟨p, hproj, rfl⟩
  · intro k p hk
    obtain ⟨x, hx, rfl⟩ := hstage.keys k p hk
    have hrel := hdone x hx
    rw [hk] at hrel
    cases hf : findOne pub w.writes x.id with
    | none => rw [hf] at hrel; cases hrel
    | some d => rw [hf] at hrel; cases hrel with | some hproj => exact ⟨x.id, d, hf, rfl, hproj⟩

/-- With the discriminated form of `ObjectId`s every identifier has a key of its own. -/
theorem distinctKeys_of_typed {cfg : Config} (h : cfg.typedObjectIds = true) (ws : List Write) :
    DistinctKeys cfg ws := by
  intro x _ y _ hkey
  rw [State.idKey, State.idKey, h] at hkey
  exact typed_key_injective hkey

/-! ### Two runs -/

/-- The text of twenty-four zeros. -/
def zeros : Text := List.replicate 24 48

/-- An `ObjectId`, and the string with its text. -/
def objectA : SourceId := .objectId ⟨zeros, by decide⟩
def stringA : SourceId := .str zeros

/-- A publication of all documents as they are. -/
def everything : Publication := ⟨fun _ => true, Document.fields⟩

theorem unordered_result_converges_handoff : ∃ w, (worldMachine everything unordered).Reach anyStep w ∧
    w.observer.result.isSome = true ∧ w.delivered = w.writes.length ∧ w.writes.length = 3 ∧
    w.observer.workDone = true ∧ Converged everything unordered w.writes w.observer.documents := by
  obtain ⟨w, hw, hP⟩ := (worldMachine everything unordered).exists_of_exec anyStep
    ⟨Observer.init, [], 0, 0⟩
    [.commit ⟨objectA, some []⟩, .start 1, .commit ⟨stringA, some []⟩, .notice,
      .read 2 [⟨.live stringA, []⟩, ⟨.live objectA, []⟩], .projected, .projected, .found 2, .projected,
      .turn, .commit ⟨stringA, none⟩, .notice, .turn]
    (fun w => w.observer.result.isSome && w.delivered == w.writes.length && w.writes.length == 3 &&
      w.observer.workDone && !w.observer.stopped && w.observer.staleCalls == 0) (by decide)
  simp only [Bool.and_eq_true, beq_iff_eq, Bool.not_eq_true'] at hP
  obtain ⟨⟨⟨⟨⟨hr, hd⟩, hlen⟩, hdone⟩, hstop⟩, hstale⟩ := hP
  exact ⟨w, hw, hr, hd, hlen, hdone, unordered_result_converges rfl hw
    (distinctKeys_of_typed rfl w.writes) hr hd hdone hstop hstale⟩

/-- Without the discriminated form an `ObjectId` shares its key with the string of
its text, and the deletion of the one document takes the other from the result. -/
theorem untyped_keys_collide : ¬ ∀ (pub : Publication) (cfg : Config) (w : World),
    cfg.windowed = false → (worldMachine pub cfg).Reach anyStep w →
    w.observer.result.isSome = true → w.delivered = w.writes.length →
    w.observer.workDone = true → w.observer.stopped = false → w.observer.staleCalls = 0 →
    Converged pub cfg w.writes w.observer.documents := by
  intro h
  let untyped : Config := { unordered with typedObjectIds := false }
  obtain ⟨w, hw, hP⟩ := (worldMachine everything untyped).exists_of_exec anyStep
    ⟨Observer.init, [], 0, 0⟩
    [.commit ⟨objectA, some []⟩, .commit ⟨stringA, some []⟩, .start 2,
      .read 2 [⟨.live stringA, []⟩, ⟨.live objectA, []⟩], .projected, .projected,
      .commit ⟨stringA, none⟩, .notice, .turn]
    (fun w => w.observer.result.isSome && w.delivered == w.writes.length && w.observer.workDone &&
      !w.observer.stopped && w.observer.staleCalls == 0 &&
      (findOne everything w.writes objectA).isSome && w.observer.documents.entries.isEmpty) (by decide)
  simp only [Bool.and_eq_true, beq_iff_eq, Bool.not_eq_true', Option.isSome_iff_exists] at hP
  obtain ⟨⟨⟨⟨⟨⟨hr, hd⟩, hdone⟩, hstop⟩, hstale⟩, d, hfound⟩, hempty⟩ := hP
  obtain ⟨p, -, hp⟩ := (h everything untyped w rfl hw (Option.isSome_iff_exists.mpr hr) hd hdone hstop
    hstale).each objectA d hfound
  rw [OMap.get, List.isEmpty_iff.mp hempty] at hp
  cases hp

end TypeFerry.Live.Convergence
