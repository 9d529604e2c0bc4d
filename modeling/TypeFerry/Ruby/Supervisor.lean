import TypeFerry.Lib.Entries
import TypeFerry.Lib.Numeral
import TypeFerry.Lib.OrderedMap
import TypeFerry.Lib.Runs

/-! # Supervised processes

`process_supervisor.rb`: each job spawns a process in a group of its own and watches it from a thread of its own, until
the process has exited, the job was canceled or its time is over. Closing the supervisor cancels the jobs and waits for
them. A thread is cut in front of each lock and each call of the system; a process may exit at any time, as it does after
a signal. -/
namespace TypeFerry.Ruby.Supervisor
open TypeFerry.Lib.Entries TypeFerry.Lib.Numeral TypeFerry.Lib.OrderedMap TypeFerry.Lib.Runs

/-! ## A job -/

/-- `ProcessResult#status` -/
inductive Status where
  | exited
  | canceled
  | timedOut
  | failed
  | spawnFailed
  deriving DecidableEq

/-- Where the thread of the job is. -/
inductive Stage where
  /-- `start` has put the job into `@jobs` and is about to spawn the process. -/
  | registered
  /-- at the top of the loop of `monitor_process` -/
  | monitoring
  /-- It was not canceled. -/
  | checked
  /-- Its time is not over. -/
  | inTime
  /-- It has sent `TERM`. -/
  | terminating (status : Status)
  /-- It has sent `KILL`. -/
  | killed (status : Status)
  /-- in front of `finish` -/
  | finishing (status : Status)
  /-- The result is set, the job is still in `@jobs`. -/
  | finished
  | done
  deriving DecidableEq

inductive Process where
  | none
  | alive
  /-- It has exited, and nobody has waited for it. -/
  | zombie
  | reaped
  deriving DecidableEq

structure Job where
  id : Text
  stage : Stage
  process : Process
  cancelRequested : Bool
  result : Option Status
  deriving DecidableEq

inductive Advance where
  | spawn
  | spawnFails
  | check
  /-- `timed_out?` -/
  | time (expired : Bool)
  /-- `reap`, without waiting -/
  | reap
  | kill
  /-- `reap`, which waits -/
  | reapKilled
  /-- The thread has an exception. -/
  | raise
  | setResult
  /-- The process exits. -/
  | exit
  deriving DecidableEq

namespace Job

def cancel (j : Job) : Job := if j.result.isSome then j else { j with cancelRequested := true }

/-- `monitor_process` is running. -/
def watched : Stage → Bool
  | .monitoring | .checked | .inTime | .terminating _ | .killed _ => true
  | _ => false

def advance (j : Job) : Advance → Option Job
  | .spawn => if j.stage = .registered then some { j with stage := .monitoring, process := .alive } else none
  | .spawnFails => if j.stage = .registered then some { j with stage := .finishing .spawnFailed } else none
  | .check =>
    if j.stage = .monitoring then
      some { j with stage := if j.cancelRequested then .terminating .canceled else .checked }
    else none
  | .time expired =>
    if j.stage = .checked then some { j with stage := if expired then .terminating .timedOut else .inTime } else none
  | .reap =>
    if j.stage = .inTime then
      if j.process = .zombie then some { j with process := .reaped, stage := .finishing .exited }
      else some { j with stage := .monitoring }
    else none
  | .kill => match j.stage with
    | .terminating status => some { j with stage := .killed status }
    | _ => none
  | .reapKilled => match j.stage with
    | .killed status =>
      if j.process = .zombie then some { j with process := .reaped, stage := .finishing status } else none
    | _ => none
  | .raise => if watched j.stage then some { j with stage := .finishing .failed } else none
  | .setResult => match j.stage with
    | .finishing status =>
      some (if j.result.isSome then { j with stage := .done } else { j with stage := .finished, result := some status })
    | _ => none
  | .exit => if j.process = .alive then some { j with process := .zombie } else none

end Job

/-! ## The supervisor -/

/-- Where the first caller of `close` is. A later one returns at once, whatever the jobs do. -/
inductive Closer where
  | idle
  | canceling (rest jobs : List ℕ)
  | waiting (rest : List ℕ)
  | returned
  deriving DecidableEq

structure State where
  closed : Bool
  /-- `@jobs` -/
  jobs : OMap Text ℕ
  all : List Job
  closer : Closer

inductive Action where
  | start (id : Text)
  | advance (i : ℕ) (a : Advance)
  /-- `finish` of the supervisor -/
  | remove (i : ℕ)
  | cancel (id : Text)
  | close
  | closeNext
  deriving DecidableEq

namespace State
variable (s : State)

/-- The locked section of `start`; otherwise it raises an error. -/
def start (id : Text) : State :=
  if s.closed ∨ (s.jobs.get id).isSome then s
  else { s with jobs := s.jobs.set id s.all.length, all := s.all ++ [⟨id, .registered, .none, false, none⟩] }

def cancelAt (i : ℕ) : State :=
  match s.all[i]? with
  | some j => { s with all := s.all.set i j.cancel }
  | none => s

/-- Only the first call does anything; another one returns `true`. -/
def close : State :=
  if s.closed then s else { s with closed := true, closer := .canceling s.jobs.values s.jobs.values }

def closeNext : Option State :=
  match s.closer with
  | .canceling (i :: rest) jobs => some { s.cancelAt i with closer := .canceling rest jobs }
  | .canceling [] jobs => some { s with closer := .waiting jobs }
  | .waiting (i :: rest) => if (s.all[i]?).any (·.result.isSome) then some { s with closer := .waiting rest } else none
  | .waiting [] => some { s with closer := .returned }
  | _ => none

end State

def step (s : State) : Action → Option State
  | .start id => some (s.start id)
  | .advance i a => (s.all[i]?).bind fun j => (j.advance a).map fun j' => { s with all := s.all.set i j' }
  | .remove i => (s.all[i]?).bind fun j =>
    if j.stage = .finished then
      some { s with
        all := s.all.set i { j with stage := .done }
        jobs := if s.jobs.get j.id = some i then s.jobs.delete j.id else s.jobs }
    else none
  | .cancel id => some <| match s.jobs.get id with
    | some i => s.cancelAt i
    | none => s
  | .close => some s.close
  | .closeNext => s.closeNext

def supervisor : Machine State Action := ⟨⟨false, .empty, [], .idle⟩, step⟩

/-! ## What every step keeps -/

/-- A job has a result when its thread has set it, and then its process was waited for, unless the thread had an
exception. -/
structure Good (j : Job) : Prop where
  result : j.result.isSome = true ↔ j.stage = .finished ∨ j.stage = .done
  spawned : Job.watched j.stage = true → j.process = .alive ∨ j.process = .zombie
  registered : j.stage = .registered → j.process = .none
  terminating : ∀ status, j.stage = .terminating status ∨ j.stage = .killed status → status = .canceled ∨ status = .timedOut
  finishing : ∀ status, j.stage = .finishing status ∨ j.result = some status →
    (status = .spawnFailed → j.process = .none) ∧ (status ≠ .spawnFailed → status ≠ .failed → j.process = .reaped)

section
variable {j j' : Job} {a : Advance}

theorem Good.advance (h : Good j) (hstep : j.advance a = some j') : Good j' := by
  obtain ⟨hresult, hspawned, hregistered, hterminating, hfinishing⟩ := h
  cases a <;> simp only [Job.advance] at hstep <;> constructor <;> grind -ring -linarith [Job.watched]

/-- What a job keeps while its thread goes on. -/
structure Keeps (j j' : Job) : Prop where
  id : j'.id = j.id
  done : j'.stage = .done ↔ j.stage = .done
  result : ∀ status, j.result = some status → j'.result = some status
  canceled : j.cancelRequested = true → j'.cancelRequested = true

theorem Good.keeps (h : Good j) (hstep : j.advance a = some j') : Keeps j j' := by
  obtain ⟨hresult, -, -, -, -⟩ := h
  cases a <;> simp only [Job.advance] at hstep <;> constructor <;> grind -ring -linarith [Job.watched]

theorem Good.cancel (h : Good j) : Good j.cancel := by
  rw [Job.cancel]
  split
  · exact h
  · exact ⟨h.result, h.spawned, h.registered, h.terminating, h.finishing⟩

theorem keeps_cancel : Keeps j j.cancel := by
  rw [Job.cancel]
  split
  · exact ⟨rfl, .rfl, fun _ => id, id⟩
  · exact ⟨rfl, .rfl, fun _ => id, fun _ => rfl⟩

theorem cancel_requested : j.cancel.result.isSome = true ∨ j.cancel.cancelRequested = true := by
  rw [Job.cancel]
  split
  · next h => exact .inl h
  · exact .inr rfl

end

namespace Closer

/-- The jobs that `close` has still to wait for. -/
def jobs : Closer → List ℕ
  | .canceling _ jobs => jobs
  | .waiting rest => rest
  | _ => []

/-- Those it has still to cancel. -/
def rest : Closer → List ℕ
  | .canceling rest _ => rest
  | _ => []

end Closer

structure Inv (s : State) : Prop where
  good : ∀ (i : ℕ) (j : Job), s.all[i]? = some j → Good j
  /-- The jobs in the table are those that are not done. -/
  table : ∀ id i, s.jobs.get id = some i ↔ ∃ j : Job, s.all[i]? = some j ∧ j.id = id ∧ j.stage ≠ .done
  closed : s.closed = true ↔ s.closer ≠ .idle
  valid : ∀ i ∈ s.closer.jobs, (s.all[i]?).isSome = true
  waits : s.closed = true → ∀ (i : ℕ) (j : Job), s.all[i]? = some j → j.result.isSome = true ∨ i ∈ s.closer.jobs
  cancels : s.closed = true → ∀ (i : ℕ) (j : Job), s.all[i]? = some j →
    (j.result.isSome = true ∨ j.cancelRequested = true) ∨ i ∈ s.closer.rest

section
variable {s s' : State} {i : ℕ} {j j' : Job}

theorem Keeps.settled (h : Keeps j j') (hj : j.result.isSome = true) : j'.result.isSome = true := by
  obtain ⟨status, hstatus⟩ := Option.isSome_iff_exists.mp hj
  rw [h.result status hstatus]
  rfl

/-- A job goes on, wherever `close` is. -/
theorem Inv.update (h : Inv s) (hj : s.all[i]? = some j) (hgood : Good j') (hkeeps : Keeps j j') :
    Inv { s with all := s.all.set i j' } where
  good k z hz := by
    rcases (getElem?_set_iff hj).mp hz with ⟨-, rfl⟩ | ⟨-, hz⟩
    · exact hgood
    · exact h.good k z hz
  table id k := by
    rw [h.table]
    constructor
    · intro ⟨z, hz, hid, hdone⟩
      by_cases hk : k = i
      · subst hk
        obtain rfl := Option.some.inj (hz.symm.trans hj)
        exact ⟨j', getElem?_set_at hj, hkeeps.id.trans hid, mt hkeeps.done.mp hdone⟩
      · exact ⟨z, getElem?_set_of hj hk hz, hid, hdone⟩
    · intro ⟨z, hz, hid, hdone⟩
      rcases (getElem?_set_iff hj).mp hz with ⟨rfl, rfl⟩ | ⟨-, hz⟩
      · exact ⟨j, hj, hkeeps.id.symm.trans hid, mt hkeeps.done.mpr hdone⟩
      · exact ⟨z, hz, hid, hdone⟩
  closed := h.closed
  valid k hk := by
    have hlt := h.valid k hk
    rw [Option.isSome_iff_ne_none, ne_eq, List.getElem?_eq_none_iff] at hlt ⊢
    rwa [List.length_set]
  waits hclosed k z hz := by
    rcases (getElem?_set_iff hj).mp hz with ⟨rfl, rfl⟩ | ⟨-, hz⟩
    · exact (h.waits hclosed k j hj).imp_left hkeeps.settled
    · exact h.waits hclosed k z hz
  cancels hclosed k z hz := by
    rcases (getElem?_set_iff hj).mp hz with ⟨rfl, rfl⟩ | ⟨-, hz⟩
    · exact (h.cancels hclosed k j hj).imp_left fun hor => hor.imp hkeeps.settled hkeeps.canceled
    · exact h.cancels hclosed k z hz

theorem Inv.cancelAt (h : Inv s) (i : ℕ) : Inv (s.cancelAt i) := by
  rw [State.cancelAt]
  split
  · next j hj => exact h.update hj (h.good i j hj).cancel keeps_cancel
  · exact h

theorem Inv.start (h : Inv s) (id : Text) : Inv (s.start id) := by
  rw [State.start]
  split
  · exact h
  · next hnot =>
    obtain ⟨hopen, hnone⟩ := not_or.mp hnot
    rw [Bool.not_eq_true] at hopen
    rw [Option.not_isSome_iff_eq_none] at hnone
    have hopen' : ∀ P : Prop, s.closed = true → P := fun P hclosed => by rw [hopen] at hclosed; cases hclosed
    refine ⟨fun k z hz => ?_, fun id' k => ?_, h.closed, fun k hk => ?_, fun hc => hopen' _ hc, fun hc => hopen' _ hc⟩
    · rcases getElem?_concat_iff.mp hz with hz | ⟨-, rfl⟩
      · exact h.good k z hz
      · exact ⟨⟨nofun, nofun⟩, nofun, fun _ => rfl, nofun, nofun⟩
    · rw [OMap.get_set]
      split
      · next hid =>
        constructor
        · intro hk
          obtain rfl := Option.some.inj hk
          exact ⟨_, getElem?_concat_iff.mpr (.inr ⟨rfl, rfl⟩), hid.symm, nofun⟩
        · intro ⟨z, hz, hzid, hdone⟩
          rcases getElem?_concat_iff.mp hz with hz | ⟨rfl, -⟩
          · have hget := (h.table id' k).mpr ⟨z, hz, hzid, hdone⟩
            rw [hid, hnone] at hget
            cases hget
          · rfl
      · next hid =>
        rw [h.table]
        constructor
        · intro ⟨z, hz, hrest⟩
          exact ⟨z, getElem?_concat_of hz, hrest⟩
        · intro ⟨z, hz, hzid, hdone⟩
          rcases getElem?_concat_iff.mp hz with hz | ⟨-, rfl⟩
          · exact ⟨z, hz, hzid, hdone⟩
          · exact absurd hzid.symm hid
    · have hlt := h.valid k hk
      obtain ⟨z, hz⟩ := Option.isSome_iff_exists.mp hlt
      exact Option.isSome_iff_exists.mpr ⟨z, getElem?_concat_of hz⟩

theorem Inv.remove (h : Inv s) (hj : s.all[i]? = some j) (hstage : j.stage = .finished) :
    Inv { s with
      all := s.all.set i { j with stage := .done }
      jobs := if s.jobs.get j.id = some i then s.jobs.delete j.id else s.jobs } where
  good k z hz := by
    rcases (getElem?_set_iff hj).mp hz with ⟨-, rfl⟩ | ⟨-, hz⟩
    · obtain ⟨hresult, -, -, -, hfinishing⟩ := h.good i j hj
      exact ⟨iff_of_true (hresult.mpr (.inl hstage)) (.inr rfl), nofun, nofun, nofun,
        fun status hor => hfinishing status (.inr (hor.resolve_left nofun))⟩
    · exact h.good k z hz
  table id k := by
    have hin : s.jobs.get j.id = some i := (h.table j.id i).mpr ⟨j, hj, rfl, by rw [hstage]; exact nofun⟩
    rw [if_pos hin, OMap.get_delete]
    split
    · next hid =>
      refine iff_of_false nofun ?_
      intro ⟨z, hz, hzid, hdone⟩
      rcases (getElem?_set_iff hj).mp hz with ⟨-, rfl⟩ | ⟨hne, hz⟩
      · exact hdone rfl
      · have hget := (h.table id k).mpr ⟨z, hz, hzid, hdone⟩
        rw [hid, hin] at hget
        exact hne (Option.some.inj hget).symm
    · next hid =>
      rw [h.table]
      constructor
      · intro ⟨z, hz, hzid, hdone⟩
        refine ⟨z, getElem?_set_of hj ?_ hz, hzid, hdone⟩
        rintro rfl
        obtain rfl := Option.some.inj (hz.symm.trans hj)
        exact hid hzid.symm
      · intro ⟨z, hz, hzid, hdone⟩
        rcases (getElem?_set_iff hj).mp hz with ⟨-, rfl⟩ | ⟨-, hz⟩
        · exact absurd rfl hdone
        · exact ⟨z, hz, hzid, hdone⟩
  closed := h.closed
  valid k hk := by
    have hlt := h.valid k hk
    rw [Option.isSome_iff_ne_none, ne_eq, List.getElem?_eq_none_iff] at hlt ⊢
    rwa [List.length_set]
  waits hclosed k z hz := by
    rcases (getElem?_set_iff hj).mp hz with ⟨rfl, rfl⟩ | ⟨-, hz⟩
    · exact h.waits hclosed k j hj
    · exact h.waits hclosed k z hz
  cancels hclosed k z hz := by
    rcases (getElem?_set_iff hj).mp hz with ⟨rfl, rfl⟩ | ⟨-, hz⟩
    · exact h.cancels hclosed k j hj
    · exact h.cancels hclosed k z hz

theorem Inv.close (h : Inv s) : Inv s.close := by
  rw [State.close]
  split
  · exact h
  · have hmem : ∀ k, k ∈ s.jobs.values ↔ ∃ id, s.jobs.get id = some k := fun k => by
      simp only [OMap.values, List.mem_map, Prod.exists, exists_eq_right, OMap.get_eq_some]
    have hall : ∀ (k : ℕ) (z : Job), s.all[k]? = some z → z.result.isSome = true ∨ k ∈ s.jobs.values := by
      intro k z hz
      by_cases hdone : z.stage = .done
      · exact .inl ((h.good k z hz).result.mpr (.inr hdone))
      · exact .inr ((hmem k).mpr ⟨z.id, (h.table z.id k).mpr ⟨z, hz, rfl, hdone⟩⟩)
    refine ⟨h.good, h.table, ⟨fun _ hidle => (by cases hidle), fun _ => rfl⟩, fun k hk => ?_, fun _ => hall, fun _ k z hz => ?_⟩
    · obtain ⟨id, hid⟩ := (hmem k).mp hk
      obtain ⟨z, hz, -⟩ := (h.table id k).mp hid
      exact Option.isSome_iff_exists.mpr ⟨z, hz⟩
    · exact (hall k z hz).imp_left .inl

/-- `close` goes on with the jobs it has left. -/
theorem Inv.closer (h : Inv s) {closer : Closer} (hclosed : s.closer ≠ .idle) (hidle : closer ≠ .idle)
    (hvalid : ∀ k ∈ closer.jobs, k ∈ s.closer.jobs)
    (hwaits : ∀ (k : ℕ) (z : Job), s.all[k]? = some z → k ∈ s.closer.jobs → z.result.isSome = true ∨ k ∈ closer.jobs)
    (hcancels : ∀ (k : ℕ) (z : Job), s.all[k]? = some z → k ∈ s.closer.rest →
      (z.result.isSome = true ∨ z.cancelRequested = true) ∨ k ∈ closer.rest) : Inv { s with closer := closer } where
  good := h.good
  table := h.table
  closed := iff_of_true (h.closed.mpr hclosed) hidle
  valid k hk := h.valid k (hvalid k hk)
  waits hc k z hz := (h.waits hc k z hz).elim .inl (hwaits k z hz)
  cancels hc k z hz := (h.cancels hc k z hz).elim .inl (hcancels k z hz)

theorem closer_cancelAt (i : ℕ) : (s.cancelAt i).closer = s.closer := by
  rw [State.cancelAt]
  split <;> rfl

/-- The job was canceled, or it is over. -/
theorem canceled_cancelAt {z : Job} (hz : (s.cancelAt i).all[i]? = some z) :
    z.result.isSome = true ∨ z.cancelRequested = true := by
  rw [State.cancelAt] at hz
  split at hz
  · next j hj =>
    obtain rfl := Option.some.inj ((getElem?_set_at hj).symm.trans hz)
    exact cancel_requested
  · next hnone =>
    rw [hnone] at hz
    cases hz

theorem Inv.closeNext (h : Inv s) (hstep : s.closeNext = some s') : Inv s' := by
  rw [State.closeNext] at hstep
  split at hstep
  · next i rest jobs hcloser =>
    cases hstep
    have hcloser' := (closer_cancelAt i).trans hcloser
    refine (h.cancelAt i).closer (by rw [hcloser']; exact nofun) nofun (fun k hk => ?_) (fun k z _ hk => ?_)
      fun k z hz hk => ?_
    · rw [hcloser']
      exact hk
    · rw [hcloser'] at hk
      exact .inr hk
    · rw [hcloser'] at hk
      by_cases hki : k = i
      · exact .inl (canceled_cancelAt (hki ▸ hz))
      · exact .inr ((List.mem_cons.mp hk).resolve_left hki)
  · next jobs hcloser =>
    cases hstep
    refine h.closer (by rw [hcloser]; exact nofun) nofun (fun k hk => ?_) (fun k z _ hk => ?_) fun k z _ hk => ?_
    · rw [hcloser]
      exact hk
    · rw [hcloser] at hk
      exact .inr hk
    · rw [hcloser] at hk
      cases hk
  · next i rest hcloser =>
    obtain ⟨hany, heq⟩ := Option.ite_none_right_eq_some.mp hstep
    cases heq
    refine h.closer (by rw [hcloser]; exact nofun) nofun (fun k hk => ?_) (fun k z hz hk => ?_) fun k z _ hk => ?_
    · rw [hcloser]
      exact List.mem_cons_of_mem _ hk
    · rw [hcloser] at hk
      rcases List.mem_cons.mp hk with rfl | hk
      · rw [hz] at hany
        exact .inl hany
      · exact .inr hk
    · rw [hcloser] at hk
      cases hk
  · next hcloser =>
    cases hstep
    refine h.closer (by rw [hcloser]; exact nofun) nofun (fun k hk => ?_) (fun k z _ hk => ?_) fun k z _ hk => ?_
    · cases hk
    · rw [hcloser] at hk
      cases hk
    · rw [hcloser] at hk
      cases hk
  · cases hstep

theorem Inv.step (h : Inv s) {a : Action} (hstep : step s a = some s') : Inv s' := by
  cases a with
  | start id =>
    obtain rfl := Option.some.inj hstep
    exact h.start id
  | advance i a =>
    obtain ⟨j, hj, hstep⟩ := Option.bind_eq_some_iff.mp hstep
    obtain ⟨j', hadvance, rfl⟩ := Option.map_eq_some_iff.mp hstep
    exact h.update hj ((h.good i j hj).advance hadvance) ((h.good i j hj).keeps hadvance)
  | remove i =>
    obtain ⟨j, hj, hstep⟩ := Option.bind_eq_some_iff.mp hstep
    obtain ⟨hstage, heq⟩ := Option.ite_none_right_eq_some.mp hstep
    cases heq
    exact h.remove hj hstage
  | cancel id =>
    obtain rfl := Option.some.inj hstep
    split
    · exact h.cancelAt _
    · exact h
  | close =>
    obtain rfl := Option.some.inj hstep
    exact h.close
  | closeNext => exact h.closeNext hstep

end

theorem inv_run {s : State} (h : supervisor.Reach anyStep s) : Inv s := by
  refine h.invariant Inv ?_ fun s a s' hinv _ hstep => hinv.step hstep
  refine ⟨nofun, fun _ _ => iff_of_false nofun ?_, ⟨nofun, fun h => absurd rfl h⟩, nofun, nofun, nofun⟩
  intro ⟨_, hz, _⟩
  cases hz

/-! ## A result is final -/

/-- What a result says of the process. -/
def Accounted (j : Job) : Prop :=
  ∀ status, j.result = some status → (status = .spawnFailed → j.process = .none) ∧
    (status ≠ .spawnFailed → status ≠ .failed → j.process = .reaped)

section
variable {s s' : State} {i : ℕ} {j : Job} {status : Status}

theorem result_cancelAt (h : s.all[i]? = some j) (hresult : j.result = some status) (k : ℕ) :
    ∃ j', (s.cancelAt k).all[i]? = some j' ∧ j'.result = some status := by
  rw [State.cancelAt]
  split
  · next z hz =>
    by_cases hik : i = k
    · subst hik
      obtain rfl := Option.some.inj (h.symm.trans hz)
      exact ⟨_, getElem?_set_at hz, keeps_cancel.result status hresult⟩
    · exact ⟨j, getElem?_set_of hz hik h, hresult⟩
  · exact ⟨j, h, hresult⟩

theorem result_step (hinv : Inv s) (h : s.all[i]? = some j) (hresult : j.result = some status) {a : Action}
    (hstep : step s a = some s') : ∃ j', s'.all[i]? = some j' ∧ j'.result = some status := by
  cases a with
  | start id =>
    obtain rfl := Option.some.inj hstep
    rw [State.start]
    split
    · exact ⟨j, h, hresult⟩
    · exact ⟨j, getElem?_concat_of h, hresult⟩
  | advance k a =>
    obtain ⟨z, hz, hstep⟩ := Option.bind_eq_some_iff.mp hstep
    obtain ⟨z', hadvance, rfl⟩ := Option.map_eq_some_iff.mp hstep
    by_cases hik : i = k
    · subst hik
      obtain rfl := Option.some.inj (h.symm.trans hz)
      exact ⟨z', getElem?_set_at hz, ((hinv.good i j hz).keeps hadvance).result status hresult⟩
    · exact ⟨j, getElem?_set_of hz hik h, hresult⟩
  | remove k =>
    obtain ⟨z, hz, hstep⟩ := Option.bind_eq_some_iff.mp hstep
    obtain ⟨-, heq⟩ := Option.ite_none_right_eq_some.mp hstep
    cases heq
    by_cases hik : i = k
    · subst hik
      obtain rfl := Option.some.inj (h.symm.trans hz)
      exact ⟨_, getElem?_set_at hz, hresult⟩
    · exact ⟨j, getElem?_set_of hz hik h, hresult⟩
  | cancel id =>
    obtain rfl := Option.some.inj hstep
    split
    · exact result_cancelAt h hresult _
    · exact ⟨j, h, hresult⟩
  | close =>
    obtain rfl := Option.some.inj hstep
    rw [State.close]
    split <;> exact ⟨j, h, hresult⟩
  | closeNext =>
    rw [Supervisor.step, State.closeNext] at hstep
    split at hstep
    · cases hstep
      exact result_cancelAt h hresult _
    · cases hstep
      exact ⟨j, h, hresult⟩
    · obtain ⟨-, heq⟩ := Option.ite_none_right_eq_some.mp hstep
      cases heq
      exact ⟨j, h, hresult⟩
    · cases hstep
      exact ⟨j, h, hresult⟩
    · cases hstep

end

theorem Inv.ended {s : State} (h : Inv s) (hreturned : s.closer = .returned) (i : ℕ) (j : Job)
    (hj : s.all[i]? = some j) : j.result.isSome = true := by
  have hclosed : s.closed = true := h.closed.mpr (by rw [hreturned]; exact nofun)
  refine (h.waits hclosed i j hj).resolve_right ?_
  rw [hreturned]
  exact List.not_mem_nil

/-- **Every job ends once.** In every run the table has exactly the jobs that are not done, at most one under an id; a job
that has a result keeps it; if its process was spawned and its thread had no exception, it was waited for. When the first
call of `close` has returned, every job has its result. -/
theorem jobs_end_once {s : State} (h : supervisor.Reach anyStep s) :
    (∀ id i, s.jobs.get id = some i ↔ ∃ j : Job, s.all[i]? = some j ∧ j.id = id ∧ j.stage ≠ .done) ∧
    (∀ (i : ℕ) (j : Job), s.all[i]? = some j → Accounted j) ∧
    (∀ (i : ℕ) (j : Job) status t, s.all[i]? = some j → j.result = some status → supervisor.Steps anyStep s t →
      ∃ j' : Job, t.all[i]? = some j' ∧ j'.result = some status) ∧
    (s.closer = .returned → ∀ (i : ℕ) (j : Job), s.all[i]? = some j → j.result.isSome = true) := by
  have hinv := inv_run h
  refine ⟨hinv.table, ?_, ?_, ?_⟩
  · intro i j hj status hresult
    exact (hinv.good i j hj).finishing status (.inr hresult)
  · intro i j status t hj hresult ht
    induction ht with
    | refl => exact ⟨j, hj, hresult⟩
    | tail a ht _ hstep ih =>
      obtain ⟨j', hj', hresult'⟩ := ih
      exact result_step (inv_run (h.trans ht)) hj' hresult' hstep
  · exact hinv.ended

/-- A job exits, another is canceled by closing the supervisor. -/
def actions : List Action :=
  [.start (js "a"), .advance 0 .spawn, .start (js "b"), .advance 0 .check, .advance 0 (.time false), .advance 0 .exit,
    .advance 0 .reap, .advance 1 .spawn, .advance 0 .setResult, .close, .closeNext, .closeNext, .remove 0, .closeNext,
    .advance 1 .check, .closeNext, .advance 1 .kill, .advance 1 .exit, .advance 1 .reapKilled, .advance 1 .setResult,
    .closeNext, .remove 1, .closeNext]

def final : State :=
  ⟨true, .empty, [⟨js "a", .done, .reaped, false, some .exited⟩, ⟨js "b", .done, .reaped, true, some .canceled⟩],
    .returned⟩

theorem actions_run : supervisor.exec anyStep supervisor.init actions = some final := rfl

theorem final_ended : final.closer = .returned ∧
    ∀ (i : ℕ) (j : Job), final.all[i]? = some j → j.result.isSome = true :=
  ⟨rfl, (jobs_end_once (Machine.steps_of_exec actions actions_run)).2.2.2 rfl⟩

/-! ## `close` returns -/

def Stage.weight : Stage → ℕ
  | .registered => 9
  | .checked => 8
  | .inTime => 7
  | .monitoring => 6
  | .terminating _ => 5
  | .killed _ => 4
  | .finishing _ => 2
  | .finished => 1
  | .done => 0

/-- How much the thread of a canceled job has still to do. -/
def Job.weight (j : Job) : ℕ := j.stage.weight + (decide (j.process = .alive)).toNat

theorem weight_of_watched {stage : Stage} (h : Job.watched stage = true) : 4 ≤ stage.weight := by
  cases stage <;> simp_all [Job.watched, Stage.weight]

section
variable {j j' : Job} {a : Advance}

theorem Good.weight_lt (h : Good j) (hcanceled : j.result.isSome = true ∨ j.cancelRequested = true)
    (hstep : j.advance a = some j') : j'.weight < j.weight := by
  obtain ⟨hresult, hspawned, hregistered, -, -⟩ := h
  have hwatched : Job.watched j.stage = true → 4 ≤ j.stage.weight := weight_of_watched
  rw [Job.weight, Job.weight]
  cases a <;> simp only [Job.advance] at hstep <;> grind -ring -linarith [Job.watched, Stage.weight, Bool.toNat]

theorem weight_cancel : j.cancel.weight = j.weight := by
  rw [Job.cancel]
  split <;> rfl

/-- The thread of a job without a result can go on. -/
theorem Good.exists_advance (h : Good j) (hresult : j.result.isSome = false) : ∃ a, (j.advance a).isSome = true := by
  cases hstage : j.stage with
  | registered => exact ⟨.spawn, by simp [Job.advance, hstage]⟩
  | monitoring => exact ⟨.check, by simp [Job.advance, hstage]⟩
  | checked => exact ⟨.time false, by simp [Job.advance, hstage]⟩
  | inTime =>
    refine ⟨.reap, ?_⟩
    rw [Job.advance, if_pos hstage]
    split <;> rfl
  | terminating status => exact ⟨.kill, by simp [Job.advance, hstage]⟩
  | killed status =>
    -- The process exits first.
    rcases h.spawned (by rw [hstage]; rfl) with halive | hzombie
    · exact ⟨.exit, by simp [Job.advance, halive]⟩
    · exact ⟨.reapKilled, by simp [Job.advance, hstage, hzombie]⟩
  | finishing status => exact ⟨.setResult, by simp [Job.advance, hstage]⟩
  | finished =>
    rw [h.result.mpr (.inl hstage)] at hresult
    cases hresult
  | done =>
    rw [h.result.mpr (.inr hstage)] at hresult
    cases hresult

end

/-- What is done without the callers. -/
def Own : Action → Prop
  | .advance _ _ | .remove _ | .closeNext => True
  | _ => False

def weight (s : State) : ℕ := (s.all.map Job.weight).sum + s.closer.jobs.length

section
variable {s s' : State} {a : Action}

theorem weight_cancelAt (i : ℕ) : weight (s.cancelAt i) = weight s := by
  rw [State.cancelAt]
  split
  · next j hj =>
    have hsum := sum_map_set (y := j.cancel) Job.weight hj
    rw [weight_cancel] at hsum
    dsimp only [weight]
    omega
  · rfl

theorem waiting_step (h : Inv s) {rest : List ℕ} (hwaiting : s.closer = .waiting rest) (hstep : step s a = some s') :
    s'.closer = .returned ∨ ((∃ rest', s'.closer = .waiting rest') ∧ weight s' ≤ weight s ∧ (Own a → weight s' < weight s)) := by
  have hclosed : s.closed = true := h.closed.mpr (by rw [hwaiting]; exact nofun)
  cases a with
  | start id =>
    obtain rfl := Option.some.inj hstep
    rw [State.start, if_pos (.inl hclosed)]
    exact .inr ⟨⟨rest, hwaiting⟩, le_rfl, nofun⟩
  | advance i a =>
    obtain ⟨j, hj, hstep⟩ := Option.bind_eq_some_iff.mp hstep
    obtain ⟨j', hadvance, rfl⟩ := Option.map_eq_some_iff.mp hstep
    have hcanceled := (h.cancels hclosed i j hj).resolve_right (by rw [hwaiting]; exact List.not_mem_nil)
    have hlt := (h.good i j hj).weight_lt hcanceled hadvance
    have hsum := sum_map_set (y := j') Job.weight hj
    have hless : weight { s with all := s.all.set i j' } < weight s := by
      dsimp only [weight]
      omega
    exact .inr ⟨⟨rest, hwaiting⟩, hless.le, fun _ => hless⟩
  | remove i =>
    obtain ⟨j, hj, hstep⟩ := Option.bind_eq_some_iff.mp hstep
    obtain ⟨hstage, heq⟩ := Option.ite_none_right_eq_some.mp hstep
    cases heq
    have hsum := sum_map_set (y := { j with stage := .done }) Job.weight hj
    have hone : j.weight = ({ j with stage := .done } : Job).weight + 1 := by
      dsimp only [Job.weight]
      rw [hstage]
      dsimp only [Stage.weight]
      omega
    refine .inr ⟨⟨rest, hwaiting⟩, ?_, fun _ => ?_⟩
    · dsimp only [weight]
      omega
    · dsimp only [weight]
      omega
  | cancel id =>
    obtain rfl := Option.some.inj hstep
    split
    · next i _ => exact .inr ⟨⟨rest, (closer_cancelAt i).trans hwaiting⟩, (weight_cancelAt i).le, nofun⟩
    · exact .inr ⟨⟨rest, hwaiting⟩, le_rfl, nofun⟩
  | close =>
    obtain rfl := Option.some.inj hstep
    rw [State.close, if_pos hclosed]
    exact .inr ⟨⟨rest, hwaiting⟩, le_rfl, nofun⟩
  | closeNext =>
    rw [step, State.closeNext, hwaiting] at hstep
    cases rest with
    | nil =>
      cases hstep
      exact .inl rfl
    | cons i rest =>
      obtain ⟨-, heq⟩ := Option.ite_none_right_eq_some.mp hstep
      cases heq
      have hless : weight { s with closer := .waiting rest } < weight s := by
        dsimp only [weight]
        rw [hwaiting]
        exact Nat.add_lt_add_left (Nat.lt_succ_self _) _
      exact .inr ⟨⟨rest, rfl⟩, hless.le, fun _ => hless⟩

theorem waiting_enabled (h : Inv s) {rest : List ℕ} (hwaiting : s.closer = .waiting rest) :
    ∃ a, Own a ∧ (supervisor.step s a).isSome = true := by
  cases rest with
  | nil =>
    refine ⟨.closeNext, trivial, ?_⟩
    change (step s .closeNext).isSome
    rw [step, State.closeNext, hwaiting]
    rfl
  | cons i rest =>
    obtain ⟨j, hj⟩ := Option.isSome_iff_exists.mp (h.valid i (by rw [hwaiting]; exact List.mem_cons_self))
    cases hresult : j.result.isSome with
    | true =>
      refine ⟨.closeNext, trivial, ?_⟩
      change (step s .closeNext).isSome
      rw [step, State.closeNext, hwaiting]
      dsimp only
      rw [hj, Option.any_some, if_pos hresult]
      rfl
    | false =>
      obtain ⟨a, ha⟩ := (h.good i j hj).exists_advance hresult
      refine ⟨.advance i a, trivial, ?_⟩
      change (step s (.advance i a)).isSome
      rw [step, hj, Option.bind_some, Option.isSome_map]
      exact ha

theorem canceling_step (h : Inv s) {rest jobs : List ℕ} (hcanceling : s.closer = .canceling rest jobs)
    (hstep : step s a = some s') : (∃ rest', s'.closer = .waiting rest') ∨
      ∃ rest' jobs', s'.closer = .canceling rest' jobs' ∧ rest'.length ≤ rest.length ∧
        (a = .closeNext → rest'.length < rest.length) := by
  have hclosed : s.closed = true := h.closed.mpr (by rw [hcanceling]; exact nofun)
  cases a with
  | start id =>
    obtain rfl := Option.some.inj hstep
    rw [State.start, if_pos (.inl hclosed)]
    exact .inr ⟨rest, jobs, hcanceling, le_rfl, nofun⟩
  | advance i a =>
    obtain ⟨j, hj, hstep⟩ := Option.bind_eq_some_iff.mp hstep
    obtain ⟨j', -, rfl⟩ := Option.map_eq_some_iff.mp hstep
    exact .inr ⟨rest, jobs, hcanceling, le_rfl, nofun⟩
  | remove i =>
    obtain ⟨j, hj, hstep⟩ := Option.bind_eq_some_iff.mp hstep
    obtain ⟨-, heq⟩ := Option.ite_none_right_eq_some.mp hstep
    cases heq
    exact .inr ⟨rest, jobs, hcanceling, le_rfl, nofun⟩
  | cancel id =>
    obtain rfl := Option.some.inj hstep
    refine .inr ⟨rest, jobs, ?_, le_rfl, nofun⟩
    split
    · exact (closer_cancelAt _).trans hcanceling
    · exact hcanceling
  | close =>
    obtain rfl := Option.some.inj hstep
    rw [State.close, if_pos hclosed]
    exact .inr ⟨rest, jobs, hcanceling, le_rfl, nofun⟩
  | closeNext =>
    rw [step, State.closeNext, hcanceling] at hstep
    cases rest with
    | nil =>
      cases hstep
      exact .inl ⟨jobs, rfl⟩
    | cons i rest =>
      cases hstep
      exact .inr ⟨rest, jobs, rfl, Nat.le_succ _, fun _ => Nat.lt_succ_self _⟩

/-- A supervisor that has closed takes no job any more. -/
theorem returned_step (h : Inv s) (hreturned : s.closer = .returned) (hstep : step s a = some s') : s'.closer = .returned := by
  have hclosed : s.closed = true := h.closed.mpr (by rw [hreturned]; exact nofun)
  cases a with
  | start id =>
    obtain rfl := Option.some.inj hstep
    rw [State.start, if_pos (.inl hclosed)]
    exact hreturned
  | advance i a =>
    obtain ⟨j, hj, hstep⟩ := Option.bind_eq_some_iff.mp hstep
    obtain ⟨j', -, rfl⟩ := Option.map_eq_some_iff.mp hstep
    exact hreturned
  | remove i =>
    obtain ⟨j, hj, hstep⟩ := Option.bind_eq_some_iff.mp hstep
    obtain ⟨-, heq⟩ := Option.ite_none_right_eq_some.mp hstep
    cases heq
    exact hreturned
  | cancel id =>
    obtain rfl := Option.some.inj hstep
    split
    · exact (closer_cancelAt _).trans hreturned
    · exact hreturned
  | close =>
    obtain rfl := Option.some.inj hstep
    rw [State.close, if_pos hclosed]
    exact hreturned
  | closeNext =>
    rw [step, State.closeNext, hreturned] at hstep
    cases hstep

end

section
variable (T : Trace supervisor anyStep) {n : ℕ}

theorem waiting_of_canceling (hclose : T.Fair (· = .closeNext)) {rest jobs : List ℕ}
    (h : (T.state n).closer = .canceling rest jobs) : ∃ m, n ≤ m ∧ ∃ rest', (T.state m).closer = .waiting rest' := by
  refine T.leadsTo hclose (P := fun s => Inv s ∧ ∃ rest jobs, s.closer = .canceling rest jobs)
    (Q := fun s => ∃ rest', s.closer = .waiting rest') (fun s => s.closer.rest.length) ?_ ?_ n
    ⟨inv_run (T.reach n), rest, jobs, h⟩
  · intro s ⟨_, rest, jobs, hcanceling⟩
    refine ⟨.closeNext, rfl, ?_⟩
    change (step s .closeNext).isSome
    rw [step, State.closeNext, hcanceling]
    cases rest <;> rfl
  · intro s a s' _ ⟨hs, rest, jobs, hcanceling⟩ _ hstep
    refine (canceling_step hs hcanceling hstep).imp_right fun ⟨rest', jobs', hcanceling', hle, hlt⟩ => ?_
    rw [hcanceling, hcanceling']
    exact ⟨⟨hs.step hstep, rest', jobs', rfl⟩, hle, hlt⟩

theorem returned_of_waiting (hown : T.Fair Own) {rest : List ℕ} (h : (T.state n).closer = .waiting rest) :
    ∃ m, n ≤ m ∧ (T.state m).closer = .returned := by
  refine T.leadsTo hown (P := fun s => Inv s ∧ ∃ rest, s.closer = .waiting rest) (Q := fun s => s.closer = .returned)
    weight ?_ ?_ n ⟨inv_run (T.reach n), rest, h⟩
  · intro s ⟨hs, rest, hwaiting⟩
    exact waiting_enabled hs hwaiting
  · intro s a s' _ ⟨hs, rest, hwaiting⟩ _ hstep
    refine (waiting_step hs hwaiting hstep).imp_right fun ⟨hwaiting', hle, hlt⟩ => ?_
    exact ⟨⟨hs.step hstep, hwaiting'⟩, hle, hlt⟩

theorem returned_of_le (h : (T.state n).closer = .returned) {k : ℕ} (hk : n ≤ k) : (T.state k).closer = .returned := by
  induction k, hk using Nat.le_induction with
  | base => exact h
  | succ k _ ih =>
    have hnext := T.next k
    cases ha : T.act k with
    | none =>
      rw [ha] at hnext
      rw [hnext]
      exact ih
    | some a =>
      rw [ha] at hnext
      exact returned_step (inv_run (T.reach k)) ih hnext.2

end

/-- **`close` returns.** Once it has been called, as long as the threads of the jobs and the caller go on, and a process
that was killed exits, its first call returns, and from then on every job there has ever been has its result. -/
theorem supervisor_closes (T : Trace supervisor anyStep) (hclose : T.Fair (· = .closeNext)) (hown : T.Fair Own) {n : ℕ}
    (h : (T.state n).closed = true) : ∃ m, n ≤ m ∧ ∀ k, m ≤ k → (T.state k).closer = .returned ∧
      ∀ (i : ℕ) (j : Job), (T.state k).all[i]? = some j → j.result.isSome = true := by
  have hlast : ∃ m, n ≤ m ∧ (T.state m).closer = .returned := by
    cases hcloser : (T.state n).closer with
    | idle => exact absurd hcloser ((inv_run (T.reach n)).closed.mp h)
    | canceling rest jobs =>
      obtain ⟨k, hk, rest', hwaiting⟩ := waiting_of_canceling T hclose hcloser
      obtain ⟨m, hm, hreturned⟩ := returned_of_waiting T hown hwaiting
      exact ⟨m, hk.trans hm, hreturned⟩
    | waiting rest => exact returned_of_waiting T hown hcloser
    | returned => exact ⟨n, le_rfl, hcloser⟩
  obtain ⟨m, hm, hreturned⟩ := hlast
  refine ⟨m, hm, fun k hk => ?_⟩
  have hk := returned_of_le T hreturned hk
  exact ⟨hk, (inv_run (T.reach k)).ended hk⟩

/-- Nothing is left to do at the end of the run. -/
theorem final_rests : ∀ a, Own a → supervisor.step final a = none := by
  intro a ha
  cases a with
  | advance i a =>
    match i with
    | 0 => cases a <;> rfl
    | 1 => cases a <;> rfl
    | i + 2 => rfl
  | remove i =>
    match i with
    | 0 => rfl
    | 1 => rfl
    | i + 2 => rfl
  | closeNext => rfl
  | start | cancel | close => cases ha

theorem actions_closed : ∃ m, 10 ≤ m ∧ ∀ k, m ≤ k → ((Trace.ofList _ actions_run).state k).closer = .returned ∧
    ∀ (i : ℕ) (j : Job), ((Trace.ofList _ actions_run).state k).all[i]? = some j → j.result.isSome = true := by
  refine supervisor_closes (Trace.ofList _ actions_run) ?_ ?_ (n := 10) rfl
  · refine Trace.ofList_fair _ actions_run fun a ha => ?_
    rw [show a = .closeNext from ha]
    rfl
  · exact Trace.ofList_fair _ actions_run final_rests

end TypeFerry.Ruby.Supervisor
