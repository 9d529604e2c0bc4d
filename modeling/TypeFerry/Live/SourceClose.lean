import TypeFerry.Live.Source

/-! # Closing the change source

The streams that a source has opened are recorded beside its state, and how many there were when a call of
`close` first resolved. The delay in `resetAndReopen` is the only await after which a stream is opened: there
`closed` is not looked at again. -/
namespace TypeFerry.Live.SourceClose
open TypeFerry.Lib.Runs TypeFerry.Live.Source

/-! ## The record -/

structure Watched where
  source : State
  /-- For every stream that was opened, whether `close` was called on it; the current one is the last. -/
  streams : List Bool
  /-- The number of streams when a call of `close` first resolved. -/
  resolved : Option ℕ

/-- The steps that call `openStream`. -/
def opens (s : State) : Action → Bool
  | .start => s.phase = .idle
  | .turn => s.phase = .waiting
  | _ => false

/-- The steps in which a call of `close` resolves: one that comes later does so at once. -/
def resolves (s : State) : Action → Bool
  | .close => s.closed
  | .drained => true
  | _ => false

/-- Whether `close` was called on the current stream, if there is one. -/
def flag (s : State) : Option Bool := s.stream.map Stream.closed

def watchStreams (streams : List Bool) (opened : Bool) (current : Option Bool) : List Bool :=
  if opened then streams ++ [false]
  else match current with
    | some closed => streams.dropLast ++ [closed]
    | none => streams

def watchedStep (w : Watched) (a : Action) : Option Watched :=
  (step w.source a).map fun s =>
    let streams := watchStreams w.streams (opens w.source a) (flag s)
    ⟨s, streams, if resolves w.source a then some (w.resolved.getD streams.length) else w.resolved⟩

def machine : Machine Watched Action := ⟨⟨init, [], none⟩, watchedStep⟩

/-- Once a call of `close` has resolved, `close` has been called on every stream, and no stream was opened
afterwards. -/
def LeavesNoStream (w : Watched) : Prop :=
  ∀ n, w.resolved = some n → w.streams.length = n ∧ ∀ closed ∈ w.streams, closed = true

/-- The delay before the next attempt does not end after `close` was called. -/
def delayEndsOpen (w : Watched) : Action → Prop
  | .turn => w.source.phase = .waiting → w.source.closed = false
  | _ => True

instance (w : Watched) : ∀ a, Decidable (delayEndsOpen w a)
  | .turn => inferInstanceAs (Decidable (w.source.phase = .waiting → w.source.closed = false))
  | .append _ | .start | .subscribe | .unsubscribe _ | .close | .place | .next | .empty | .fail | .deliver
  | .drained => isTrue trivial

instance (w : Watched) : Decidable (LeavesNoStream w) :=
  match h : w.resolved with
  | none => isTrue fun n hn => by simp [h] at hn
  | some n => decidable_of_iff (w.streams.length = n ∧ ∀ closed ∈ w.streams, closed = true)
      ⟨fun hP m hm => by rw [h, Option.some.injEq] at hm; exact hm ▸ hP, fun hP => hP n h⟩

/-! ## The current stream -/

/-- The source has no stream. -/
def streamless : Phase → Bool
  | .idle | .waiting | .dispatching .reopen _ _ _ | .dispatched .reopen => true
  | _ => false

/-- It is closing its stream. -/
def shut : Phase → Bool
  | .failing | .discarding _ => true
  | _ => false

/-- What holds of the current stream. -/
structure Tidy (s : State) : Prop where
  absent : streamless s.phase = true → flag s = none
  done : shut s.phase = true → flag s ≠ some false
  closed : s.closed = true → flag s ≠ some false

/-- A stream may be closed, and one that was closed may be dropped. -/
def Follows (current next : Option Bool) : Prop :=
  next = current ∨ current ≠ none ∧ next = some true ∨ current ≠ some false ∧ next = none

/-- What a step does that opens no stream. -/
structure Keeps (s s' : State) : Prop where
  tidy : Tidy s'
  closed : s.closed = true → s'.closed = true
  follows : Follows (flag s) (flag s')

@[simp] theorem flag_closeStream (s : State) : flag s.closeStream = (flag s).map fun _ => true := by
  simp [flag, State.closeStream, Function.comp_def]

theorem follows_closeStream (s : State) : Follows (flag s) (flag s.closeStream) := by
  rw [flag_closeStream]
  cases flag s with
  | none => exact .inl rfl
  | some closed => exact .inr (.inl ⟨by simp, rfl⟩)

theorem closeStream_ne (s : State) : flag s.closeStream ≠ some false := by
  rw [flag_closeStream]
  cases flag s <;> simp

/-- The stream stays as it is. -/
theorem Tidy.keeps {s s' : State} (h : Tidy s) (hflag : flag s' = flag s) (hclosed : s'.closed = s.closed)
    (habsent : streamless s'.phase = true → flag s = none)
    (hdone : shut s'.phase = true → flag s ≠ some false) : Keeps s s' where
  tidy := ⟨fun hp => hflag ▸ habsent hp, fun hp => hflag ▸ hdone hp, fun hc => hflag ▸ h.closed (hclosed ▸ hc)⟩
  closed hc := hclosed ▸ hc
  follows := .inl hflag

/-- It is closed. -/
theorem keeps_closeStream {s s' : State} (hflag : flag s' = flag s.closeStream)
    (hclosed : s.closed = true → s'.closed = true) (hphase : streamless s'.phase = true → flag s = none) :
    Keeps s s' where
  tidy := ⟨fun hp => by rw [hflag, flag_closeStream, hphase hp]; rfl, fun _ => hflag ▸ closeStream_ne s,
    fun _ => hflag ▸ closeStream_ne s⟩
  closed := hclosed
  follows := hflag ▸ follows_closeStream s

/-- It is dropped. -/
theorem keeps_drop {s s' : State} (h : flag s ≠ some false) (hflag : flag s' = none) (hclosed : s'.closed = s.closed) :
    Keeps s s' where
  tidy := ⟨fun _ => hflag, fun _ => by simp [hflag], fun _ => by simp [hflag]⟩
  closed hc := hclosed ▸ hc
  follows := .inr (.inr ⟨h, hflag⟩)

/-! ## One step -/

/-- The code behind a dispatch. -/
theorem keeps_resume {s : State} (h : Tidy s) (r : Resume) (hreopen : r = .reopen → flag s = none) :
    Keeps s (s.resume r) := by
  have hloop (t : State) (ht : flag t = flag s) (hc : t.closed = s.closed) (hready : t.ready = false → flag s = none) :
      Keeps s t.reopenLoop := by
    refine h.keeps ht hc (fun hp => ?_) fun hp => ?_
    · simp only [State.reopenLoop] at hp
      split_ifs at hp with hclosed hr
      · cases hp
      · cases hp
      · exact hready (by simpa using hr)
    · simp only [State.reopenLoop] at hp
      split_ifs at hp <;> cases hp
  rcases r with (_ | _) | _ | _
  · simp only [State.resume]
    split
    · exact keeps_closeStream rfl (fun hc => hc) (by simp [streamless])
    · exact h.keeps rfl rfl (by simp [streamless]) (by simp [shut])
  · exact hloop _ rfl rfl (by simp [State.markReady])
  · exact h.keeps rfl rfl (by simp [State.resume, streamless]) (by simp [State.resume, shut])
  · exact hloop s rfl rfl fun _ => hreopen rfl

theorem keeps_dispatch {s t : State} (h : Tidy s) (hflag : flag t = flag s) (hclosed : t.closed = s.closed) (r : Resume)
    (notice : Types.Notice) (index : Option ℕ) (hreopen : r = .reopen → flag s = none) :
    Keeps s (t.dispatch r notice index) := by
  refine h.keeps hflag hclosed (fun hp => hreopen ?_) fun hp => ?_
  · simp only [State.dispatch] at hp
    split at hp <;> cases r <;> first | rfl | cases hp
  · simp only [State.dispatch] at hp
    split at hp <;> cases hp

theorem keeps_advance {s s' : State} (h : Tidy s) {r : Resume} (hr : r ≠ .reopen) (hs : s.advance r = some s') :
    Keeps s s' := by
  rw [State.advance] at hs
  split at hs
  · next p closed hstream =>
    obtain ⟨change, -, rfl⟩ := Option.map_eq_some_iff.mp hs
    have hflag : some closed = flag s := by simp [flag, hstream]
    have hdispatch (t : State) (notice : Types.Notice) (index : Option ℕ) (ht : flag t = flag s)
        (hc : t.closed = s.closed) : Keeps s (t.dispatch r notice index) :=
      keeps_dispatch h ht hc r notice index fun heq => absurd heq hr
    have hdispatched (t : State) (ht : flag t = flag s) (hc : t.closed = s.closed) (hp : t.phase = .dispatched r) :
        Keeps s t := by
      refine h.keeps ht hc (fun hp' => ?_) fun hp' => ?_
      · rw [hp] at hp'
        cases r with
        | reopen => exact absurd rfl hr
        | _ => cases hp'
      · rw [hp] at hp'
        cases hp'
    cases change with
    | invalidate =>
      exact hdispatch _ _ _ hflag rfl
    | other => exact hdispatched _ hflag rfl rfl
    | write key deleted =>
      simp only [State.dispatchChange]
      split
      · exact hdispatched _ hflag rfl rfl
      · exact hdispatch _ _ _ hflag rfl
  · cases hs

theorem streamless_mapRemaining (f : List ℕ → List ℕ) (p : Phase) : streamless (p.mapRemaining f) = streamless p := by
  cases p with
  | dispatching r notice index remaining => cases r <;> rfl
  | _ => rfl

theorem shut_mapRemaining (f : List ℕ → List ℕ) (p : Phase) : shut (p.mapRemaining f) = shut p := by
  cases p <;> rfl

/-- **One step.** Where the delay ends open, a stream is opened only by a source that is open and has none. -/
theorem step_effect {s s' : State} {a : Action} (h : Tidy s)
    (hok : a = .turn → s.phase = .waiting → s.closed = false) (hs : step s a = some s') :
    (opens s a = true ∧ s.closed = false ∧ s'.closed = false ∧ Tidy s' ∧ flag s = none ∧ flag s' = some false) ∨
      (opens s a = false ∧ Keeps s s') := by
  have hopen (attempt : Attempt) (hclosed : s.closed = false) :
      Tidy (s.openStream attempt) ∧ flag (s.openStream attempt) = some false := by
    refine ⟨⟨by simp [State.openStream, streamless], by simp [State.openStream, shut], fun hc => ?_⟩, rfl⟩
    exact Bool.noConfusion (hclosed.symm.trans hc)
  cases a with
  | start =>
    simp only [step] at hs
    split at hs
    · cases hs
    · next hclosed =>
      have hclosed : s.closed = false := by simpa using hclosed
      split at hs <;> cases hs
      · next hphase =>
        exact .inl ⟨decide_eq_true hphase, hclosed, hclosed, (hopen _ hclosed).1, h.absent (by rw [hphase]; rfl),
          (hopen _ hclosed).2⟩
      · next hphase => exact .inr ⟨decide_eq_false hphase, h.keeps rfl rfl h.absent h.done⟩
  | turn =>
    simp only [step, turn] at hs
    split at hs <;> cases hs
    · next r notice index hphase =>
      refine .inr ⟨by simp [opens, hphase], keeps_resume h r ?_⟩
      rintro rfl
      exact h.absent (by rw [hphase]; rfl)
    · next r hphase =>
      refine .inr ⟨by simp [opens, hphase], keeps_resume h r ?_⟩
      rintro rfl
      exact h.absent (by rw [hphase]; rfl)
    · next hphase =>
      refine .inr ⟨by simp [opens, hphase], keeps_drop (h.done (by rw [hphase]; rfl)) rfl rfl⟩
    · next hphase =>
      have hclosed := hok rfl hphase
      exact .inl ⟨by simp [opens, hphase], hclosed, hclosed, (hopen _ hclosed).1, h.absent (by rw [hphase]; rfl),
        (hopen _ hclosed).2⟩
    · next hphase =>
      exact .inr ⟨by simp [opens, hphase], keeps_drop (h.done (by rw [hphase]; rfl)) rfl rfl⟩
    · next hphase =>
      exact .inr ⟨by simp [opens, hphase], keeps_drop (h.done (by rw [hphase]; rfl)) rfl rfl⟩
  | append c =>
    cases hs
    exact .inr ⟨rfl, h.keeps rfl rfl h.absent h.done⟩
  | subscribe =>
    cases hs
    refine .inr ⟨rfl, h.keeps rfl rfl (fun hp => h.absent ?_) fun hp => h.done ?_⟩
    · exact (streamless_mapRemaining _ _).symm.trans hp
    · exact (shut_mapRemaining _ _).symm.trans hp
  | unsubscribe l =>
    cases hs
    refine .inr ⟨rfl, h.keeps rfl rfl (fun hp => h.absent ?_) fun hp => h.done ?_⟩
    · exact (streamless_mapRemaining _ _).symm.trans hp
    · exact (shut_mapRemaining _ _).symm.trans hp
  | close =>
    simp only [step, Option.some.injEq] at hs
    subst hs
    refine .inr ⟨rfl, ?_⟩
    split
    · exact h.keeps rfl rfl h.absent h.done
    · exact keeps_closeStream rfl (fun _ => rfl) h.absent
  | place =>
    simp only [step] at hs
    split at hs
    · next attempt hphase hstream =>
      cases hs
      exact .inr ⟨rfl, h.keeps (by simp [flag, hstream]) rfl (by simp [streamless]) (by simp [shut])⟩
    · cases hs
  | next =>
    simp only [step] at hs
    split at hs
    · exact .inr ⟨rfl, keeps_advance h (by simp) hs⟩
    · split at hs
      · cases hs
        exact .inr ⟨rfl, keeps_closeStream rfl (fun hc => hc) (by simp [streamless])⟩
      · exact .inr ⟨rfl, keeps_advance h (by simp) hs⟩
    · cases hs
  | empty =>
    simp only [step] at hs
    split at hs
    · cases hs
      exact .inr ⟨rfl, keeps_resume h _ (by simp)⟩
    · cases hs
  | fail =>
    simp only [step] at hs
    split at hs
    · cases hs
      exact .inr ⟨rfl, keeps_closeStream rfl (fun hc => hc) (by simp [streamless])⟩
    · cases hs
      exact .inr ⟨rfl, keeps_closeStream rfl (fun hc => hc) (by simp [streamless])⟩
    · cases hs
      refine .inr ⟨rfl, ?_⟩
      split
      · exact h.keeps rfl rfl (by simp [streamless]) (by simp [shut])
      · exact keeps_closeStream rfl (fun hc => hc) (by simp [streamless])
    · cases hs
  | deliver =>
    simp only [step] at hs
    split at hs
    · next r notice index l remaining hphase =>
      cases hs
      refine .inr ⟨rfl, h.keeps rfl rfl (fun hp => h.absent ?_) (by simp [shut])⟩
      rw [hphase]
      cases r <;> first | rfl | cases hp
    · cases hs
  | drained =>
    simp only [step] at hs
    split at hs
    · cases hs
      exact .inr ⟨rfl, h.keeps rfl rfl h.absent h.done⟩
    · cases hs

theorem closed_of_resolves {s s' : State} {a : Action} (ha : resolves s a = true) (hs : step s a = some s') :
    s.closed = true := by
  cases a with
  | close => exact ha
  | drained =>
    simp only [step] at hs
    split at hs
    · next h => exact h.1
    · cases hs
  | _ => cases ha

/-! ## Runs -/

/-- What holds in every state of a run: all streams but the current one are closed. -/
structure Inv (w : Watched) : Prop where
  tidy : Tidy w.source
  streams : ∃ past, (∀ closed ∈ past, closed = true) ∧ w.streams = past ++ (flag w.source).toList
  resolved : ∀ n, w.resolved = some n → w.source.closed = true ∧ w.streams.length = n

theorem Inv.leavesNoStream {w : Watched} (h : Inv w) : LeavesNoStream w := by
  intro n hn
  obtain ⟨hclosed, hlength⟩ := h.resolved n hn
  obtain ⟨past, hpast, hstreams⟩ := h.streams
  refine ⟨hlength, fun closed hmem => ?_⟩
  rw [hstreams, List.mem_append, Option.mem_toList] at hmem
  rcases hmem with hmem | hmem
  · exact hpast closed hmem
  · cases closed with
    | true => rfl
    | false => exact absurd hmem (h.tidy.closed hclosed)

theorem inv_init : Inv machine.init where
  tidy := ⟨fun _ => rfl, nofun, nofun⟩
  streams := ⟨[], by simp, rfl⟩
  resolved := by simp [machine]

/-- The record follows the current stream, and keeps its length where none is opened. -/
theorem watchStreams_follows {current next : Option Bool} {past : List Bool} (hpast : ∀ closed ∈ past, closed = true)
    (h : Follows current next) : ∃ past', (∀ closed ∈ past', closed = true) ∧
      watchStreams (past ++ current.toList) false next = past' ++ next.toList ∧
      (watchStreams (past ++ current.toList) false next).length = (past ++ current.toList).length := by
  rcases h with rfl | ⟨hcurrent, rfl⟩ | ⟨hcurrent, rfl⟩
  · cases next <;> exact ⟨past, hpast, by simp [watchStreams]⟩
  · obtain ⟨closed, rfl⟩ := Option.ne_none_iff_exists'.mp hcurrent
    exact ⟨past, hpast, by simp [watchStreams]⟩
  · refine ⟨past ++ current.toList, fun closed hmem => ?_, by simp [watchStreams]⟩
    rw [List.mem_append, Option.mem_toList] at hmem
    rcases hmem with hmem | hmem
    · exact hpast closed hmem
    · cases closed with
      | true => rfl
      | false => exact absurd hmem hcurrent

theorem inv_step {w w' : Watched} {a : Action} (h : Inv w) (hok : delayEndsOpen w a)
    (hs : watchedStep w a = some w') : Inv w' := by
  obtain ⟨s', hstep, rfl⟩ := Option.map_eq_some_iff.mp hs
  obtain ⟨past, hpast, hstreams⟩ := h.streams
  rcases step_effect h.tidy (by rintro rfl; exact hok) hstep with
    ⟨hopens, hclosed, -, htidy, hflag, hflag'⟩ | ⟨hopens, hkeeps⟩
  · have hresolved : w.resolved = none := by
      refine Option.eq_none_iff_forall_not_mem.mpr fun n hn => ?_
      exact Bool.noConfusion (hclosed.symm.trans (h.resolved n hn).1)
    have hresolves : resolves w.source a = false := by
      cases a <;> first | rfl | cases hopens
    refine ⟨htidy, ⟨past, hpast, ?_⟩, ?_⟩
    · simp [watchStreams, hopens, hstreams, hflag, hflag']
    · simp [hresolves, hresolved]
  · obtain ⟨past', hpast', hwatch, hlength⟩ := watchStreams_follows hpast hkeeps.follows
    rw [← hstreams] at hwatch hlength
    refine ⟨hkeeps.tidy, ⟨past', hpast', by simp only [hopens, hwatch]⟩, fun n hn => ?_⟩
    simp only [hopens] at hn ⊢
    split at hn
    · next hresolves =>
      refine ⟨hkeeps.closed (closed_of_resolves hresolves hstep), ?_⟩
      cases hr : w.resolved with
      | none => simpa [hr] using hn
      | some m =>
        rw [hlength, (h.resolved m hr).2]
        simpa [hr] using hn
    · exact ⟨hkeeps.closed (h.resolved n hn).1, hlength.trans (h.resolved n hn).2⟩

/-- **Source close leaves no stream** in every run in which no delay between two attempts ends after `close` was
called. -/
theorem close_leavesNoStream {w : Watched} (h : machine.Reach delayEndsOpen w) : LeavesNoStream w :=
  (h.invariant Inv inv_init fun _ _ _ => inv_step).leavesNoStream

/-- The source is closed while it consumes the stream that replaced one that had failed. -/
theorem close_leavesNoStream_reopened : ∃ w, machine.Reach delayEndsOpen w ∧ w.resolved = some 2 ∧ LeavesNoStream w := by
  obtain ⟨w, hw, hP⟩ := machine.exists_of_exec delayEndsOpen machine.init
    [.start, .place, .empty, .fail, .turn, .turn, .turn, .place, .empty, .close, .fail, .drained]
    (fun w => w.resolved == some 2) (by decide)
  exact ⟨w, hw, eq_of_beq hP, close_leavesNoStream hw⟩

/-- The source is closed during the delay. The stream that is opened afterwards is never closed. -/
theorem closed_during_delay : ¬∀ w, machine.Reach anyStep w → LeavesNoStream w := by
  intro h
  obtain ⟨w, hw, hP⟩ := machine.exists_of_exec anyStep machine.init
    [.start, .place, .empty, .fail, .turn, .turn, .close, .turn, .place, .empty, .drained]
    (fun w => decide (¬LeavesNoStream w)) (by decide)
  exact of_decide_eq_true hP (h w hw)

end TypeFerry.Live.SourceClose
