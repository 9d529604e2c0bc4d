import Mathlib.Data.List.Infix
import Mathlib.Logic.Function.Basic
import TypeFerry.Lib.Runs

/-! # The heartbeat of the sockets

`websocket-transport.ts`: a timer for each socket asks whether a pong has come since it fired last, terminates the
socket if not, and sends the next ping. A timer runs until the socket's `close` event or the transport's `close()`. -/
namespace TypeFerry.Server.Heartbeat
open TypeFerry.Lib.Runs

inductive ReadyState where
  | open
  | closing
  | closed
  deriving DecidableEq

/-- What a socket sees of the heartbeat. -/
inductive Beat where
  | tick
  | pong
  deriving DecidableEq

structure Socket where
  readyState : ReadyState
  /-- its `close` event has been emitted -/
  gone : Bool
  /-- the transport was closed while its timer ran -/
  detached : Bool
  pings : ℕ
  terminated : Bool
  beats : List Beat

structure State where
  sockets : ℕ → Socket
  /-- the number of the next socket -/
  next : ℕ
  pingTimers : ℕ → Option ℕ
  pongReceived : ℕ → Option Bool
  /-- the timers that run, with the socket in their callback -/
  running : ℕ → Option ℕ
  /-- the number of the next timer -/
  handles : ℕ

inductive Action where
  | connect
  /-- a timer fires -/
  | tick (timer : ℕ)
  /-- a pong of the socket, as a message or as a frame -/
  | pong (ws : ℕ)
  /-- the socket starts to close -/
  | closing (ws : ℕ)
  /-- its `close` event -/
  | closed (ws : ℕ)
  /-- the transport's `close()` -/
  | shutdown

namespace State

def update (s : State) (ws : ℕ) (f : Socket → Socket) : State :=
  { s with sockets := Function.update s.sockets ws (f (s.sockets ws)) }

def setPong (s : State) (ws : ℕ) (received : Option Bool) : State :=
  { s with pongReceived := Function.update s.pongReceived ws received }

def startPing (s : State) (ws : ℕ) : State :=
  { s.setPong ws (some true) with
    running := Function.update s.running s.handles (some ws)
    pingTimers := Function.update s.pingTimers ws (some s.handles)
    handles := s.handles + 1 }

def stopPing (s : State) (ws : ℕ) : State :=
  let s := match s.pingTimers ws with
    | some timer =>
      { s with
        running := Function.update s.running timer none
        pingTimers := Function.update s.pingTimers ws none }
    | none => s
  s.setPong ws none

/-- `handleConnection`, as far as the heartbeat goes. -/
def handleConnection (s : State) : State :=
  let ws := s.next
  { (s.update ws fun _ => ⟨.open, false, false, 0, false, []⟩).startPing ws with next := s.next + 1 }

/-- The callback of the timer of `ws`. -/
def tick (s : State) (ws : ℕ) : State :=
  if s.pongReceived ws = some true then
    (s.setPong ws (some false)).update ws fun t =>
      { t with beats := t.beats ++ [.tick], pings := if t.readyState = .open then t.pings + 1 else t.pings }
  else
    s.update ws fun t => { t with
      beats := t.beats ++ [.tick]
      terminated := true
      readyState := if t.readyState = .closed then .closed else .closing }

def pong (s : State) (ws : ℕ) : State :=
  (s.setPong ws (some true)).update ws fun t => { t with beats := t.beats ++ [.pong] }

/-- `ws.close()` where it is open. -/
def shut (t : Socket) : Socket := if t.readyState = .open then { t with readyState := .closing } else t

/-- `close()` of the transport. -/
def shutdown (s : State) : State :=
  { s with
    sockets := fun ws => match s.pingTimers ws with
      | some _ => { shut (s.sockets ws) with detached := true }
      | none => s.sockets ws
    running := fun timer => (s.running timer).filter fun ws => s.pingTimers ws ≠ some timer
    pingTimers := fun _ => none
    pongReceived := fun _ => none }

end State

def step (s : State) : Action → Option State
  | .connect => some s.handleConnection
  | .tick timer => (s.running timer).map s.tick
  | .pong ws => if ws < s.next ∧ (s.sockets ws).gone = false then some (s.pong ws) else none
  | .closing ws => if ws < s.next then some (s.update ws State.shut) else none
  | .closed ws =>
    if ws < s.next ∧ (s.sockets ws).gone = false then
      some ((s.update ws fun t => { t with readyState := .closed, gone := true }).stopPing ws)
    else none
  | .shutdown => some s.shutdown

def heartbeat : Machine State Action where
  init := ⟨fun _ => ⟨.closed, false, false, 0, false, []⟩, 0, fun _ => none, fun _ => none, fun _ => none, 0⟩
  step := step

/-! ## What every step keeps -/

/-- A pong has come since the last tick. -/
def answered (beats : List Beat) : Bool := beats.getLast? ≠ some .tick

/-- Two ticks with no pong in between. -/
def Silent (beats : List Beat) : Prop := [.tick, .tick] <:+: beats

theorem not_silent_nil : ¬Silent [] := fun h => absurd h.length_le (Nat.not_succ_le_zero 1)

theorem silent_pong (beats : List Beat) : Silent (beats ++ [.pong]) ↔ Silent beats := by
  rw [Silent, List.infix_concat_iff, List.suffix_concat_iff]
  refine or_iff_right fun h => ?_
  rcases h with h | ⟨t, h, -⟩
  · cases h
  · have hlast := congrArg List.getLast? h
    rw [List.getLast?_concat] at hlast
    cases hlast

theorem suffix_tick_iff (beats : List Beat) : [.tick] <:+ beats ↔ answered beats = false := by
  rw [answered, decide_eq_false_iff_not, not_not]
  rcases List.eq_nil_or_concat beats with rfl | ⟨rest, last, rfl⟩
  · exact iff_of_false (fun h => absurd h.length_le (Nat.not_succ_le_zero 0)) nofun
  · rw [List.concat_eq_append, List.getLast?_concat, List.suffix_concat_iff]
    constructor
    · intro h
      rcases h with h | ⟨t, h, -⟩
      · cases h
      · have hlast := congrArg List.getLast? h
        rw [List.getLast?_concat] at hlast
        exact hlast.symm
    · intro h
      cases h
      exact .inr ⟨[], rfl, List.nil_suffix⟩

theorem silent_tick (beats : List Beat) :
    Silent (beats ++ [.tick]) ↔ Silent beats ∨ answered beats = false := by
  rw [Silent, List.infix_concat_iff, List.suffix_concat_iff, ← suffix_tick_iff, or_comm]
  refine or_congr Iff.rfl ⟨fun h => ?_, fun h => .inr ⟨[.tick], rfl, h⟩⟩
  rcases h with h | ⟨t, h, hsuffix⟩
  · cases h
  · obtain rfl := List.append_cancel_right (show [Beat.tick] ++ [Beat.tick] = t ++ [Beat.tick] from h)
    exact hsuffix

theorem answered_pong (beats : List Beat) : answered (beats ++ [.pong]) = true := by
  rw [answered, List.getLast?_concat]
  rfl

theorem answered_tick (beats : List Beat) : answered (beats ++ [.tick]) = false := by
  rw [answered, List.getLast?_concat]
  rfl

structure Inv (s : State) : Prop where
  /-- The timers that run are those in the map. -/
  running (timer ws : ℕ) : s.running timer = some ws ↔ s.pingTimers ws = some timer
  handles (timer : ℕ) : s.handles ≤ timer → s.running timer = none
  armed (ws : ℕ) : (s.pingTimers ws).isSome ↔
    ws < s.next ∧ (s.sockets ws).gone = false ∧ (s.sockets ws).detached = false
  received (ws timer : ℕ) : s.pingTimers ws = some timer →
    s.pongReceived ws = some (answered (s.sockets ws).beats)
  terminated (ws : ℕ) : (s.sockets ws).terminated = true ↔ Silent (s.sockets ws).beats
  clean (ws : ℕ) : (s.sockets ws).gone = true ∨ s.next ≤ ws → s.pongReceived ws = none

/-- A change of sockets that leaves the heartbeat alone. -/
theorem Inv.sockets {s : State} (h : Inv s) {sockets : ℕ → Socket}
    (hsame : ∀ ws, (sockets ws).gone = (s.sockets ws).gone ∧ (sockets ws).detached = (s.sockets ws).detached ∧
      (sockets ws).terminated = (s.sockets ws).terminated ∧ (sockets ws).beats = (s.sockets ws).beats) :
    Inv { s with sockets } where
  running := h.running
  handles := h.handles
  armed ws := by
    obtain ⟨hgone, hdetached, -, -⟩ := hsame ws
    rw [hgone, hdetached]
    exact h.armed ws
  received ws timer htimer := by
    obtain ⟨-, -, -, hbeats⟩ := hsame ws
    rw [hbeats]
    exact h.received ws timer htimer
  terminated ws := by
    obtain ⟨-, -, hterminated, hbeats⟩ := hsame ws
    rw [hterminated, hbeats]
    exact h.terminated ws
  clean ws := by
    obtain ⟨hgone, -⟩ := hsame ws
    rw [hgone]
    exact h.clean ws

variable {s : State} {ws : ℕ}

/-- A beat of one socket, after which the flag says whether it has answered. -/
theorem Inv.beat (h : Inv s) (hws : ws < s.next) (hgone : (s.sockets ws).gone = false) (received : Option Bool)
    {t : Socket} (hgone' : t.gone = (s.sockets ws).gone) (hdetached : t.detached = (s.sockets ws).detached)
    (hreceived : (s.pingTimers ws).isSome → received = some (answered t.beats))
    (hterminated : t.terminated = true ↔ Silent t.beats) :
    Inv { s with
      sockets := Function.update s.sockets ws t
      pongReceived := Function.update s.pongReceived ws received } where
  running := h.running
  handles := h.handles
  armed ws' := by
    dsimp only
    by_cases heq : ws' = ws
    · subst heq
      rw [Function.update_self, hgone', hdetached]
      exact h.armed ws'
    · rw [Function.update_of_ne heq]
      exact h.armed ws'
  received ws' timer htimer := by
    dsimp only
    by_cases heq : ws' = ws
    · subst heq
      rw [Function.update_self, Function.update_self]
      exact hreceived (Option.isSome_iff_exists.mpr ⟨timer, htimer⟩)
    · rw [Function.update_of_ne heq, Function.update_of_ne heq]
      exact h.received ws' timer htimer
  terminated ws' := by
    dsimp only
    by_cases heq : ws' = ws
    · subst heq
      rw [Function.update_self]
      exact hterminated
    · rw [Function.update_of_ne heq]
      exact h.terminated ws'
  clean ws' hclean := by
    dsimp only at hclean ⊢
    by_cases heq : ws' = ws
    · subst heq
      rw [Function.update_self, hgone', hgone] at hclean
      exact absurd (hclean.resolve_left Bool.false_ne_true) (Nat.not_le.mpr hws)
    · rw [Function.update_of_ne heq] at hclean ⊢
      exact h.clean ws' hclean

theorem Inv.pong (h : Inv s) (hws : ws < s.next) (hgone : (s.sockets ws).gone = false) : Inv (s.pong ws) := by
  refine h.beat hws hgone _ (t := { s.sockets ws with beats := (s.sockets ws).beats ++ [.pong] }) rfl rfl ?_ ?_
  · intro _
    rw [answered_pong]
  · rw [silent_pong]
    exact h.terminated ws

theorem Inv.tick (h : Inv s) {timer : ℕ} (htimer : s.running timer = some ws) : Inv (s.tick ws) := by
  have hmap := (h.running timer ws).mp htimer
  obtain ⟨hws, hgone, -⟩ := (h.armed ws).mp (Option.isSome_iff_exists.mpr ⟨timer, hmap⟩)
  have hreceived := h.received ws timer hmap
  rw [State.tick]
  split
  · next hpong =>
    have hanswered : answered (s.sockets ws).beats = true := Option.some.inj (hreceived.symm.trans hpong)
    have hsilent : (s.sockets ws).terminated = true ↔ Silent ((s.sockets ws).beats ++ [.tick]) := by
      rw [silent_tick, hanswered]
      exact (h.terminated ws).trans (or_iff_left nofun).symm
    exact h.beat hws hgone _ rfl rfl (fun _ => by rw [answered_tick]) hsilent
  · next hpong =>
    have hanswered : answered (s.sockets ws).beats = false := by
      rw [hreceived] at hpong
      exact Bool.eq_false_iff.mpr fun h => hpong (congrArg some h)
    have hflag : Function.update s.pongReceived ws (some false) = s.pongReceived := by
      rw [← hanswered, ← hreceived, Function.update_eq_self]
    have hbeat := h.beat hws hgone (some false) (t := { s.sockets ws with
      beats := (s.sockets ws).beats ++ [.tick]
      terminated := true
      readyState := if (s.sockets ws).readyState = .closed then .closed else .closing }) rfl rfl
      (fun _ => by rw [answered_tick]) (iff_of_true rfl ((silent_tick _).mpr (.inr hanswered)))
    rwa [hflag] at hbeat

theorem Inv.connect (h : Inv s) : Inv s.handleConnection where
  running timer ws := by
    change Function.update s.running s.handles _ timer = some ws ↔ Function.update s.pingTimers s.next _ ws = some timer
    by_cases hws : ws = s.next
    · subst hws
      rw [Function.update_self]
      by_cases htimer : timer = s.handles
      · rw [htimer, Function.update_self]
        exact iff_of_true rfl rfl
      · rw [Function.update_of_ne htimer]
        refine iff_of_false (fun hrun => ?_) fun heq => htimer (Option.some.inj heq).symm
        have harmed := (h.armed s.next).mp (Option.isSome_iff_exists.mpr ⟨timer, (h.running timer s.next).mp hrun⟩)
        exact absurd harmed.1 (Nat.lt_irrefl _)
    · rw [Function.update_of_ne hws]
      by_cases htimer : timer = s.handles
      · subst htimer
        rw [Function.update_self]
        refine iff_of_false (fun heq => hws (Option.some.inj heq).symm) fun hmap => ?_
        exact nomatch ((h.running s.handles ws).mpr hmap).symm.trans (h.handles s.handles le_rfl)
      · rw [Function.update_of_ne htimer]
        exact h.running timer ws
  handles timer htimer := by
    change s.handles + 1 ≤ timer at htimer
    change Function.update s.running s.handles _ timer = none
    rw [Function.update_of_ne (Nat.ne_of_gt htimer)]
    exact h.handles timer (Nat.le_of_succ_le htimer)
  armed ws := by
    change (Function.update s.pingTimers s.next _ ws).isSome ↔ ws < s.next + 1 ∧
      (Function.update s.sockets s.next _ ws).gone = false ∧ (Function.update s.sockets s.next _ ws).detached = false
    by_cases hws : ws = s.next
    · subst hws
      rw [Function.update_self, Function.update_self]
      exact iff_of_true rfl ⟨Nat.lt_succ_self _, rfl, rfl⟩
    · rw [Function.update_of_ne hws, Function.update_of_ne hws, h.armed ws]
      exact and_congr_left' ⟨Nat.lt_succ_of_lt, fun hlt => Nat.lt_of_le_of_ne (Nat.le_of_lt_succ hlt) hws⟩
  received ws timer htimer := by
    change Function.update s.pingTimers s.next _ ws = some timer at htimer
    change Function.update s.pongReceived s.next _ ws = some (answered (Function.update s.sockets s.next _ ws).beats)
    by_cases hws : ws = s.next
    · subst hws
      rw [Function.update_self, Function.update_self]
      rfl
    · rw [Function.update_of_ne hws] at htimer
      rw [Function.update_of_ne hws, Function.update_of_ne hws]
      exact h.received ws timer htimer
  terminated ws := by
    change (Function.update s.sockets s.next _ ws).terminated = true ↔ Silent (Function.update s.sockets s.next _ ws).beats
    by_cases hws : ws = s.next
    · subst hws
      rw [Function.update_self]
      exact iff_of_false Bool.false_ne_true not_silent_nil
    · rw [Function.update_of_ne hws]
      exact h.terminated ws
  clean ws hclean := by
    change (Function.update s.sockets s.next _ ws).gone = true ∨ s.next + 1 ≤ ws at hclean
    change Function.update s.pongReceived s.next _ ws = none
    by_cases hws : ws = s.next
    · subst hws
      rw [Function.update_self] at hclean
      exact absurd (hclean.resolve_left Bool.false_ne_true) (Nat.not_succ_le_self _)
    · rw [Function.update_of_ne hws] at hclean ⊢
      exact h.clean ws (hclean.imp_right Nat.le_of_succ_le)

theorem Inv.closing (h : Inv s) (ws : ℕ) : Inv (s.update ws State.shut) := by
  refine h.sockets fun ws' => ?_
  by_cases heq : ws' = ws
  · subst heq
    rw [Function.update_self, State.shut]
    split <;> exact ⟨rfl, rfl, rfl, rfl⟩
  · rw [Function.update_of_ne heq]
    exact ⟨rfl, rfl, rfl, rfl⟩

/-- The timer of a socket that closes is stopped, and nothing of it is left. -/
theorem Inv.closed (h : Inv s) (ws : ℕ) :
    Inv ((s.update ws fun t => { t with readyState := .closed, gone := true }).stopPing ws) := by
  have hpart : ∀ (pingTimers running : ℕ → Option ℕ), (∀ ws', pingTimers ws' = if ws' = ws then none else s.pingTimers ws') →
      (∀ timer ws', running timer = some ws' ↔ pingTimers ws' = some timer) →
      (∀ timer, s.handles ≤ timer → running timer = none) →
      Inv { s with
        sockets := Function.update s.sockets ws { s.sockets ws with readyState := .closed, gone := true }
        pingTimers, running
        pongReceived := Function.update s.pongReceived ws none } := by
    intro pingTimers running hmap hrunning hhandles
    refine ⟨hrunning, hhandles, fun ws' => ?_, fun ws' timer htimer => ?_, fun ws' => ?_, fun ws' hclean => ?_⟩ <;>
      dsimp only at *
    · rw [hmap]
      by_cases heq : ws' = ws
      · subst heq
        rw [if_pos rfl, Function.update_self]
        exact iff_of_false nofun fun hopen => Bool.noConfusion hopen.2.1
      · rw [if_neg heq, Function.update_of_ne heq]
        exact h.armed ws'
    · rw [hmap] at htimer
      by_cases heq : ws' = ws
      · rw [if_pos heq] at htimer
        cases htimer
      · rw [if_neg heq] at htimer
        rw [Function.update_of_ne heq, Function.update_of_ne heq]
        exact h.received ws' timer htimer
    · by_cases heq : ws' = ws
      · subst heq
        rw [Function.update_self]
        exact h.terminated ws'
      · rw [Function.update_of_ne heq]
        exact h.terminated ws'
    · by_cases heq : ws' = ws
      · rw [heq, Function.update_self]
      · rw [Function.update_of_ne heq] at hclean ⊢
        exact h.clean ws' hclean
  unfold State.stopPing
  split
  · next timer htimer =>
    have hown : s.pingTimers ws = some timer := htimer
    refine hpart _ _ (fun ws' => ?_) (fun timer' ws' => ?_) fun timer' hle => ?_
    · exact Function.update_apply ..
    · change Function.update s.running timer none timer' = some ws' ↔ Function.update s.pingTimers ws none ws' = some timer'
      by_cases heq : ws' = ws
      · subst heq
        rw [Function.update_self]
        refine iff_of_false (fun hrun => ?_) nofun
        by_cases htimer' : timer' = timer
        · rw [htimer', Function.update_self] at hrun
          cases hrun
        · rw [Function.update_of_ne htimer'] at hrun
          exact htimer' (Option.some.inj (((h.running timer' ws').mp hrun).symm.trans hown))
      · rw [Function.update_of_ne heq]
        by_cases htimer' : timer' = timer
        · subst htimer'
          rw [Function.update_self]
          refine iff_of_false nofun fun hmap => heq ?_
          exact Option.some.inj (((h.running timer' ws').mpr hmap).symm.trans ((h.running timer' ws).mpr hown))
        · rw [Function.update_of_ne htimer']
          exact h.running timer' ws'
    · change Function.update s.running timer none timer' = none
      by_cases htimer' : timer' = timer
      · rw [htimer', Function.update_self]
      · rw [Function.update_of_ne htimer']
        exact h.handles timer' hle
  · next hnone =>
    have hown : s.pingTimers ws = none := hnone
    refine hpart _ _ (fun ws' => ?_) h.running h.handles
    split
    · next heq => exact heq ▸ hown
    · rfl

theorem Inv.shutdown (h : Inv s) : Inv s.shutdown where
  running timer ws := by
    refine iff_of_false (fun hrun => ?_) nofun
    obtain ⟨hrun, hnot⟩ := Option.filter_eq_some_iff.mp hrun
    exact (of_decide_eq_true hnot) ((h.running timer ws).mp hrun)
  handles timer htimer := by
    change (s.running timer).filter _ = none
    rw [h.handles timer htimer]
    rfl
  armed ws := by
    refine iff_of_false nofun fun hopen => ?_
    have hgone := hopen.2.1
    have hdetached := hopen.2.2
    dsimp only [State.shutdown] at hgone hdetached
    cases htimer : s.pingTimers ws with
    | some timer =>
      rw [htimer] at hdetached
      cases hdetached
    | none =>
      rw [htimer] at hgone hdetached
      have harmed := (h.armed ws).mpr ⟨hopen.1, hgone, hdetached⟩
      rw [htimer] at harmed
      cases harmed
  received ws timer htimer := by cases htimer
  terminated ws := by
    have hterminated := h.terminated ws
    dsimp only [State.shutdown]
    split
    · rw [State.shut]
      split <;> exact hterminated
    · exact hterminated
  clean _ _ := rfl

theorem inv_of_reach (h : heartbeat.Reach anyStep s) : Inv s := by
  have hinit : Inv heartbeat.init := by
    refine ⟨fun _ _ => iff_of_false nofun nofun, fun _ _ => rfl, fun ws => iff_of_false nofun ?_, nofun, fun ws => ?_,
      fun _ _ => rfl⟩
    · exact fun hws => Nat.not_lt_zero ws hws.1
    · exact iff_of_false Bool.false_ne_true not_silent_nil
  refine h.invariant Inv hinit fun s a s' hs _ hstep => ?_
  cases a with
  | connect =>
    cases hstep
    exact hs.connect
  | tick timer =>
    obtain ⟨ws, htimer, heq⟩ := Option.map_eq_some_iff.mp hstep
    exact heq ▸ hs.tick htimer
  | pong ws =>
    obtain ⟨⟨hws, hgone⟩, heq⟩ := Option.ite_none_right_eq_some.mp hstep
    cases heq
    exact hs.pong hws hgone
  | closing ws =>
    obtain ⟨-, heq⟩ := Option.ite_none_right_eq_some.mp hstep
    cases heq
    exact hs.closing ws
  | closed ws =>
    obtain ⟨-, heq⟩ := Option.ite_none_right_eq_some.mp hstep
    cases heq
    exact hs.closed ws
  | shutdown =>
    cases hstep
    exact hs.shutdown

/-- What the heartbeat promises. -/
structure Exact (s : State) : Prop where
  /-- One timer runs for each socket from its connection to its end, or to the transport's. -/
  timers (ws : ℕ) : (∃ timer, s.running timer = some ws) ↔
    ws < s.next ∧ (s.sockets ws).gone = false ∧ (s.sockets ws).detached = false
  unique (ws timer timer' : ℕ) : s.running timer = some ws → s.running timer' = some ws → timer = timer'
  /-- A socket is terminated exactly if its timer fired twice with no pong in between. -/
  terminated (ws : ℕ) : (s.sockets ws).terminated = true ↔
    ∃ before after, (s.sockets ws).beats = before ++ [.tick, .tick] ++ after
  /-- Nothing is kept of a socket that is gone. -/
  clean (ws : ℕ) : (s.sockets ws).gone = true → s.pongReceived ws = none ∧ s.pingTimers ws = none

/-- **The heartbeat is exact.** -/
theorem heartbeat_exact (h : heartbeat.Reach anyStep s) : Exact s := by
  have hs := inv_of_reach h
  have hruns : ∀ ws, (∃ timer, s.running timer = some ws) ↔ (s.pingTimers ws).isSome := by
    intro ws
    rw [Option.isSome_iff_exists]
    exact exists_congr fun timer => hs.running timer ws
  refine ⟨fun ws => (hruns ws).trans (hs.armed ws), fun ws timer timer' ht ht' => ?_, fun ws => ?_, fun ws hgone => ?_⟩
  · exact Option.some.inj (((hs.running timer ws).mp ht).symm.trans ((hs.running timer' ws).mp ht'))
  · rw [hs.terminated ws]
    exact ⟨fun ⟨before, after, heq⟩ => ⟨before, after, heq.symm⟩, fun ⟨before, after, heq⟩ => ⟨before, after, heq.symm⟩⟩
  · refine ⟨hs.clean ws (.inl hgone), Option.not_isSome_iff_eq_none.mp fun hsome => ?_⟩
    exact Bool.noConfusion (((hs.armed ws).mp hsome).2.1.symm.trans hgone)

/-- One socket answers its first ping, and is terminated when it does not answer the second one. -/
theorem silent_socket_terminated : ∃ s, (s.sockets 0).terminated = true ∧ Exact s := by
  have hreach : heartbeat.Reach anyStep _ :=
    Machine.steps_of_exec [.connect, .tick 0, .pong 0, .tick 0, .tick 0, .closed 0] rfl
  exact ⟨_, rfl, heartbeat_exact hreach⟩

end TypeFerry.Server.Heartbeat
