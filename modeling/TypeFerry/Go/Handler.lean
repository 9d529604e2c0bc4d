import TypeFerry.Lib.Entries
import TypeFerry.Lib.Runs

/-! # The websocket handler and its retirement

`handler.go`, with the dispatcher's `Open` and `Close` and the clients of the server. Each upgraded connection has a goroutine of its own, which is cut
where it takes a lock or waits, and starts a reader, a heartbeat, an authentication callback and the calls of the methods.
What is kept of one is who is still running, and where it is registered. -/
namespace TypeFerry.Go.Handler
open TypeFerry.Lib.Entries TypeFerry.Lib.Runs

/-! ## A connection -/

/-- Where `ServeHTTP` is. -/
inductive Stage where
  /-- in `websocket.Accept`, counted in `active` -/
  | admitted
  /-- in front of the second lock -/
  | accepted
  /-- in front of `dispatcher.Open` -/
  | registered
  /-- `Open` waits for the authentication -/
  | authenticating
  /-- `Open` sends the authentication frame -/
  | opened
  | loop
  /-- It has taken a frame, and is about to start its call. -/
  | preparing
  /-- The deferred function waits for the calls, the reader and the heartbeat. -/
  | leaving
  /-- `dispatcher.Close` waits for the callback -/
  | retiring
  /-- The client was deleted, the socket is still in the map. -/
  | retired
  /-- Counted in `active` no longer. -/
  | done
  deriving DecidableEq

structure Connection where
  stage : Stage
  /-- The identifier of its client. -/
  uuid : ℕ
  /-- It is in `handler.sockets`. -/
  mapped : Bool
  /-- Its context is, by `socket.Close()` or with the request's. -/
  cancelled : Bool
  reader : Bool
  heartbeat : Bool
  callback : Bool
  calls : ℕ
  /-- The server has its client. -/
  present : Bool
  /-- The server has taken its client out, for a newer one or when it was closed, or has not let it in. -/
  displaced : Bool
  deriving DecidableEq

inductive Advance where
  | acceptFails
  | accept
  | register
  /-- `AddClient`; there may be somebody to authenticate. -/
  | open (authenticates : Bool)
  /-- The authentication is decided, or it is too late. -/
  | decide
  | enter
  | openFails
  | leave
  | retire
  | deleteClient
  | unregister
  | readerStops
  | heartbeatStops
  | callbackReturns
  /-- The context of the request is cancelled. -/
  | abort
  | frame
  /-- The frame calls a method. -/
  | call
  /-- It does not, or the context is cancelled by now. -/
  | skip
  | callReturns
  deriving DecidableEq

/-- The connection adds its client to the server. -/
def Advance.opens : Advance → Bool
  | .open _ => true
  | _ => false

namespace Connection

def new (uuid : ℕ) : Connection := ⟨.admitted, uuid, false, false, false, false, false, 0, false, false⟩

/-- The deferred function has closed the socket. -/
def leave (c : Connection) : Connection := { c with stage := .leaving, cancelled := true }

/-- The server takes the client out. Whoever makes it closes the socket afterwards. -/
def displace (c : Connection) (out : Bool) : Connection :=
  { c with present := c.present && !out, displaced := c.displaced || (c.present && out) }

/-- `AddClient`. A closed server takes no client, and closes its socket. -/
def add (c : Connection) (serverClosed : Bool) : Connection :=
  { c with present := !serverClosed, displaced := serverClosed, cancelled := c.cancelled || serverClosed }

/-- What the goroutines of the connection do, by the flags of the handler and of the server. -/
def advance (closed serverClosed : Bool) (c : Connection) : Advance → Option Connection
  | .acceptFails => if c.stage = .admitted then some { c with stage := .done } else none
  | .accept => if c.stage = .admitted then some { c with stage := .accepted } else none
  | .register =>
    if c.stage = .accepted then
      if closed then some { c with cancelled := true, stage := .done }
      else some { c with mapped := true, reader := true, stage := .registered }
    else none
  | .open authenticates =>
    if c.stage = .registered then
      if authenticates then some { c.add serverClosed with callback := true, stage := .authenticating }
      else some { c.add serverClosed with stage := .opened }
    else none
  | .decide => if c.stage = .authenticating then some { c with stage := .opened } else none
  | .enter =>
    if c.stage = .opened then
      if c.cancelled then some c.leave else some { c with heartbeat := true, stage := .loop }
    else none
  | .openFails => if c.stage = .opened then some c.leave else none
  | .leave => if c.stage = .loop ∧ c.cancelled then some c.leave else none
  | .retire =>
    if c.stage = .leaving ∧ c.calls = 0 ∧ !c.reader ∧ !c.heartbeat then some { c with stage := .retiring } else none
  | .deleteClient => if c.stage = .retiring ∧ !c.callback then some { c with present := false, stage := .retired } else none
  | .unregister => if c.stage = .retired then some { c with mapped := false, stage := .done } else none
  | .readerStops => if c.reader then some { c with reader := false, cancelled := true } else none
  | .heartbeatStops => if c.heartbeat then some { c with heartbeat := false, cancelled := true } else none
  | .callbackReturns => if c.callback then some { c with callback := false } else none
  | .abort => if c.stage = .done then none else some { c with cancelled := true }
  | .frame => if c.stage = .loop ∧ !c.cancelled then some { c with stage := .preparing } else none
  | .call => if c.stage = .preparing then some { c with calls := c.calls + 1, stage := .loop } else none
  | .skip => if c.stage = .preparing then some { c with stage := .loop } else none
  | .callReturns => if 0 < c.calls then some { c with calls := c.calls - 1 } else none

end Connection

/-! ## The handler -/

/-- Where the first caller of `Close` is. -/
inductive Closer where
  | idle
  /-- It closes the sockets that were in the map. -/
  | closing (rest : List ℕ)
  /-- in `active.Wait()` -/
  | waiting
  | returned
  deriving DecidableEq

structure State where
  closed : Bool
  closer : Closer
  serverClosed : Bool
  connections : List Connection

inductive Action where
  | request (uuid : ℕ)
  | advance (i : ℕ) (a : Advance)
  /-- The server is closed. -/
  | serverClose
  | close
  | closeNext
  | closeReturns
  deriving DecidableEq

namespace State
variable (s : State)

/-- The sockets in the map. -/
def sockets : List ℕ := (List.range s.connections.length).filter fun i => (s.connections[i]?).any (·.mapped)

/-- The first call of `Close`; another one waits for it. -/
def close : State := if s.closer = .idle then { s with closed := true, closer := .closing s.sockets } else s

/-- `AddClient` takes out the client that the server has under the same identifier. -/
def makesWay (uuid : ℕ) (a : Advance) (c : Connection) : Connection :=
  c.displace (a.opens && !s.serverClosed && decide (c.uuid = uuid))

def cancel (i : ℕ) : State := { s with connections := s.connections.modify i fun c => { c with cancelled := true } }

end State

def step (s : State) : Action → Option State
  | .request uuid => some (if s.closed then s else { s with connections := s.connections ++ [.new uuid] })
  | .advance i a => (s.connections[i]?).bind fun c => (c.advance s.closed s.serverClosed a).map fun c' =>
      { s with connections := (s.connections.map (s.makesWay c.uuid a)).set i c' }
  | .serverClose => some { s with serverClosed := true, connections := s.connections.map (·.displace true) }
  | .close => some s.close
  | .closeNext => match s.closer with
    | .closing (i :: rest) => some { s.cancel i with closer := .closing rest }
    | .closing [] => some { s with closer := .waiting }
    | _ => none
  | .closeReturns =>
    if s.closer = .waiting ∧ ∀ c ∈ s.connections, c.stage = .done then some { s with closer := .returned } else none

def handler : Machine State Action := ⟨⟨false, .idle, false, []⟩, step⟩

/-! ## What every step keeps -/

/-- From `AddClient` to `DeleteClient`. -/
def Stage.entered : Stage → Bool
  | .authenticating | .opened | .loop | .preparing | .leaving | .retiring => true
  | _ => false

/-- Who can be running at a stage, and where the connection is registered then. -/
structure Good (c : Connection) : Prop where
  mapped : c.mapped = true ↔ c.stage ≠ .admitted ∧ c.stage ≠ .accepted ∧ c.stage ≠ .done
  present : c.present = true → c.stage.entered = true
  placed : c.stage.entered = true → c.present = true ∨ c.displaced = true
  reader : c.reader = true → c.mapped = true ∧ c.stage ≠ .retiring ∧ c.stage ≠ .retired
  heartbeat : c.heartbeat = true → c.stage = .loop ∨ c.stage = .preparing ∨ c.stage = .leaving
  callback : c.callback = true → c.stage.entered = true
  calls : 0 < c.calls → c.stage = .loop ∨ c.stage = .preparing ∨ c.stage = .leaving
  left : c.stage = .leaving ∨ c.stage = .retiring ∨ c.stage = .retired → c.cancelled = true

theorem good_new (uuid : ℕ) : Good (.new uuid) := by
  constructor <;> simp [Connection.new, Stage.entered]

-- The equations of `advance` are made here, before the many proofs that ask for them side by side.
section
attribute [local simp] Connection.advance
end

section
variable {closed serverClosed : Bool} {c c' : Connection} {a : Advance}

theorem Good.mapped_advance (h : Good c) (hstep : c.advance closed serverClosed a = some c') :
    c'.mapped = true ↔ c'.stage ≠ .admitted ∧ c'.stage ≠ .accepted ∧ c'.stage ≠ .done := by
  have hmapped := h.mapped
  have hreader := h.reader
  cases a <;> simp only [Connection.advance, Connection.leave, Connection.add] at hstep <;> grind -ring -linarith

theorem Good.present_advance (h : Good c) (hstep : c.advance closed serverClosed a = some c') :
    c'.present = true → c'.stage.entered = true := by
  have hpresent := h.present
  cases a <;> simp only [Connection.advance, Connection.leave, Connection.add] at hstep <;>
    grind -ring -linarith [Stage.entered]

theorem Good.placed_advance (h : Good c) (hstep : c.advance closed serverClosed a = some c') :
    c'.stage.entered = true → c'.present = true ∨ c'.displaced = true := by
  have hplaced := h.placed
  cases a <;> simp only [Connection.advance, Connection.leave, Connection.add] at hstep <;>
    grind -ring -linarith [Stage.entered]

theorem Good.reader_advance (h : Good c) (hstep : c.advance closed serverClosed a = some c') :
    c'.reader = true → c'.mapped = true ∧ c'.stage ≠ .retiring ∧ c'.stage ≠ .retired := by
  have hreader := h.reader
  cases a <;> simp only [Connection.advance, Connection.leave, Connection.add] at hstep <;> grind -ring -linarith

theorem Good.heartbeat_advance (h : Good c) (hstep : c.advance closed serverClosed a = some c') :
    c'.heartbeat = true → c'.stage = .loop ∨ c'.stage = .preparing ∨ c'.stage = .leaving := by
  have hheartbeat := h.heartbeat
  cases a <;> simp only [Connection.advance, Connection.leave, Connection.add] at hstep <;> grind -ring -linarith

theorem Good.callback_advance (h : Good c) (hstep : c.advance closed serverClosed a = some c') :
    c'.callback = true → c'.stage.entered = true := by
  have hcallback := h.callback
  cases a <;> simp only [Connection.advance, Connection.leave, Connection.add] at hstep <;>
    grind -ring -linarith [Stage.entered]

theorem Good.calls_advance (h : Good c) (hstep : c.advance closed serverClosed a = some c') :
    0 < c'.calls → c'.stage = .loop ∨ c'.stage = .preparing ∨ c'.stage = .leaving := by
  have hcalls := h.calls
  cases a <;> simp only [Connection.advance, Connection.leave, Connection.add] at hstep <;> grind -ring -linarith

theorem Good.left_advance (h : Good c) (hstep : c.advance closed serverClosed a = some c') :
    c'.stage = .leaving ∨ c'.stage = .retiring ∨ c'.stage = .retired → c'.cancelled = true := by
  have hleft := h.left
  cases a <;> simp only [Connection.advance, Connection.leave, Connection.add] at hstep <;> grind -ring -linarith

theorem Good.advance (h : Good c) (hstep : c.advance closed serverClosed a = some c') : Good c' :=
  ⟨h.mapped_advance hstep, h.present_advance hstep, h.placed_advance hstep, h.reader_advance hstep,
    h.heartbeat_advance hstep, h.callback_advance hstep, h.calls_advance hstep, h.left_advance hstep⟩

theorem Good.displace (h : Good c) (out : Bool) : Good (c.displace out) := by
  obtain ⟨hmapped, hpresent, hplaced, hreader, hheartbeat, hcallback, hcalls, hleft⟩ := h
  refine ⟨hmapped, fun hin => hpresent (Bool.and_eq_true_iff.mp hin).1, fun hentered => ?_, hreader, hheartbeat,
    hcallback, hcalls, hleft⟩
  rcases hplaced hentered with hin | hout
  · cases out <;> simp [Connection.displace, hin]
  · exact .inr (by simp [Connection.displace, hout])

/-- The context is cancelled for good. -/
theorem advance_cancelled (hstep : c.advance closed serverClosed a = some c') (h : c.cancelled = true) :
    c'.cancelled = true := by
  cases a <;> simp only [Connection.advance, Connection.leave, Connection.add] at hstep <;> grind -ring -linarith

/-- The map is closed with the handler. -/
theorem advance_mapped (hstep : c.advance true serverClosed a = some c') (h : c'.mapped = true) : c.mapped = true := by
  cases a <;> simp only [Connection.advance, Connection.leave, Connection.add] at hstep <;> grind -ring -linarith

/-- A client gets into the server by `AddClient` only, under the identifier of its connection. -/
theorem advance_present (hstep : c.advance closed serverClosed a = some c') :
    c'.uuid = c.uuid ∧ (c'.present = true → c.present = true ∨ a.opens = true ∧ serverClosed = false) := by
  cases a <;> simp only [Connection.advance, Connection.leave, Connection.add] at hstep <;>
    grind -ring -linarith [Advance.opens]

theorem Good.cancel (h : Good c) : Good { c with cancelled := true } := by
  obtain ⟨hmapped, hpresent, hplaced, hreader, hheartbeat, hcallback, hcalls, -⟩ := h
  exact ⟨hmapped, hpresent, hplaced, hreader, hheartbeat, hcallback, hcalls, fun _ => rfl⟩

end

/-- Nothing of the connection runs, and it is registered nowhere. -/
structure Joined (c : Connection) : Prop where
  mapped : c.mapped = false
  present : c.present = false
  reader : c.reader = false
  heartbeat : c.heartbeat = false
  callback : c.callback = false
  calls : c.calls = 0

theorem Good.joined {c : Connection} (h : Good c) (hdone : c.stage = .done) : Joined c := by
  obtain ⟨hmapped, hpresent, -, hreader, hheartbeat, hcallback, hcalls, -⟩ := h
  rw [hdone] at hmapped hpresent hreader hheartbeat hcallback hcalls
  constructor <;> grind -ring -linarith [Stage.entered]

/-- A connection that is done goes no further. -/
theorem advance_done {closed serverClosed : Bool} {c : Connection} (h : Joined c) (hdone : c.stage = .done)
    (a : Advance) : c.advance closed serverClosed a = none := by
  obtain ⟨-, -, hreader, hheartbeat, hcallback, hcalls⟩ := h
  cases a <;> simp [Connection.advance, hdone, hreader, hheartbeat, hcallback, hcalls]

/-- The sockets that `Close` has still to close. -/
def Closer.pending : Closer → List ℕ
  | .closing rest => rest
  | _ => []

structure Inv (s : State) : Prop where
  good : ∀ (i : ℕ) (c : Connection), s.connections[i]? = some c → Good c
  closed : s.closed = true ↔ s.closer ≠ .idle
  /-- The sockets that were in the map are closed, one after the other. -/
  closes : s.closed = true → ∀ (i : ℕ) (c : Connection), s.connections[i]? = some c → c.mapped = true →
    c.cancelled = true ∨ i ∈ s.closer.pending
  returned : s.closer = .returned → ∀ c ∈ s.connections, c.stage = .done
  /-- The server has one client under an identifier, and none when it is closed. -/
  unique : ∀ (i j : ℕ) (c d : Connection), s.connections[i]? = some c → s.connections[j]? = some d →
    c.present = true → d.present = true → c.uuid = d.uuid → i = j
  refused : s.serverClosed = true → ∀ c ∈ s.connections, c.present = false

section
variable {s s' : State}

theorem mem_sockets {i : ℕ} {c : Connection} (h : s.connections[i]? = some c) (hmapped : c.mapped = true) :
    i ∈ s.sockets := by
  rw [State.sockets, List.mem_filter, List.mem_range, h]
  exact ⟨(List.getElem?_eq_some_iff.mp h).1, hmapped⟩

theorem Inv.request (h : Inv s) (hopen : s.closed = false) (uuid : ℕ) :
    Inv { s with connections := s.connections ++ [.new uuid] } where
  good i c hc := by
    rcases getElem?_concat_iff.mp hc with hc | ⟨-, rfl⟩
    · exact h.good i c hc
    · exact good_new uuid
  closed := h.closed
  closes hclosed := by
    have hclosed : s.closed = true := hclosed
    rw [hclosed] at hopen
    cases hopen
  returned hreturned := by
    have hreturned : s.closer = .returned := hreturned
    rw [h.closed.mpr (by rw [hreturned]; exact nofun)] at hopen
    cases hopen
  unique i j c d hc hd hcin hdin huuid := by
    rcases getElem?_concat_iff.mp hc with hc | ⟨-, rfl⟩
    · rcases getElem?_concat_iff.mp hd with hd | ⟨-, rfl⟩
      · exact h.unique i j c d hc hd hcin hdin huuid
      · cases hdin
    · cases hcin
  refused hclosed c hc := by
    rcases List.mem_append.mp hc with hc | hc
    · exact h.refused hclosed c hc
    · rw [List.mem_singleton.mp hc]
      rfl

/-- What a connection is after the step of another one. -/
theorem getElem?_makesWay {i k uuid : ℕ} {a : Advance} {c c' z : Connection} (hc : s.connections[i]? = some c)
    (hz : ((s.connections.map (s.makesWay uuid a)).set i c')[k]? = some z) :
    k = i ∧ z = c' ∨ k ≠ i ∧ ∃ old, s.connections[k]? = some old ∧ z = s.makesWay uuid a old := by
  have hmap : (s.connections.map (s.makesWay uuid a))[i]? = some (s.makesWay uuid a c) := by
    rw [List.getElem?_map, hc, Option.map_some]
  rcases (getElem?_set_iff hmap).mp hz with hz | ⟨hk, hz⟩
  · exact .inl hz
  · rw [List.getElem?_map] at hz
    obtain ⟨old, hold, rfl⟩ := Option.map_eq_some_iff.mp hz
    exact .inr ⟨hk, old, hold, rfl⟩

theorem makesWay_present {uuid : ℕ} {a : Advance} {c : Connection} (h : (s.makesWay uuid a c).present = true) :
    c.present = true ∧ (a.opens = true → s.serverClosed = false → c.uuid ≠ uuid) := by
  obtain ⟨hin, hout⟩ := Bool.and_eq_true_iff.mp h
  refine ⟨hin, fun hopens hserver huuid => ?_⟩
  rw [hopens, hserver, huuid, decide_eq_true rfl] at hout
  cases hout

theorem Inv.advance (h : Inv s) {i : ℕ} {a : Advance} {c c' : Connection} (hc : s.connections[i]? = some c)
    (hstep : c.advance s.closed s.serverClosed a = some c') :
    Inv { s with connections := (s.connections.map (s.makesWay c.uuid a)).set i c' } where
  good k z hz := by
    rcases getElem?_makesWay hc hz with ⟨-, rfl⟩ | ⟨-, old, hold, rfl⟩
    · exact (h.good i c hc).advance hstep
    · exact (h.good k old hold).displace _
  closed := h.closed
  closes hclosed k z hz hmapped := by
    have hclosed : s.closed = true := hclosed
    rcases getElem?_makesWay hc hz with ⟨rfl, rfl⟩ | ⟨-, old, hold, rfl⟩
    · rw [hclosed] at hstep
      exact (h.closes hclosed k c hc (advance_mapped hstep hmapped)).imp_left (advance_cancelled hstep)
    · exact h.closes hclosed k old hold hmapped
  returned hreturned z hz := by
    obtain ⟨k, hz⟩ := List.mem_iff_getElem?.mp hz
    have hdone := h.returned hreturned
    rcases getElem?_makesWay hc hz with ⟨-, rfl⟩ | ⟨-, old, hold, rfl⟩
    · have hdone := hdone c (List.mem_of_getElem? hc)
      rw [advance_done ((h.good i c hc).joined hdone) hdone] at hstep
      cases hstep
    · exact hdone old (List.mem_of_getElem? hold)
  unique j k y z hy hz hyin hzin huuid := by
    obtain ⟨hsame, hnew⟩ := advance_present hstep
    -- Another connection that keeps its place had it before, and so had the one that goes on, or it makes the other go.
    have hother : ∀ (l : ℕ) (old : Connection), s.connections[l]? = some old → l ≠ i →
        (s.makesWay c.uuid a old).present = true → c'.present = true → old.uuid ≠ c'.uuid := by
      intro l old hold hl hin hin' heq
      obtain ⟨hin, hout⟩ := makesWay_present hin
      rw [hsame] at heq
      rcases hnew hin' with hcin | ⟨hopens, hserver⟩
      · exact hl (h.unique l i old c hold hc hin hcin heq)
      · exact hout hopens hserver heq
    rcases getElem?_makesWay hc hy with ⟨rfl, rfl⟩ | ⟨hj, old, hold, rfl⟩
    · rcases getElem?_makesWay hc hz with ⟨rfl, rfl⟩ | ⟨hk, old, hold, rfl⟩
      · rfl
      · exact absurd huuid.symm (hother k old hold hk hzin hyin)
    · rcases getElem?_makesWay hc hz with ⟨rfl, rfl⟩ | ⟨hk, old', hold', rfl⟩
      · exact absurd huuid (hother j old hold hj hyin hzin)
      · exact h.unique j k old old' hold hold' (makesWay_present hyin).1 (makesWay_present hzin).1 huuid
  refused hserver z hz := by
    have hserver : s.serverClosed = true := hserver
    obtain ⟨k, hz⟩ := List.mem_iff_getElem?.mp hz
    rw [Bool.eq_false_iff]
    intro hin
    rcases getElem?_makesWay hc hz with ⟨-, rfl⟩ | ⟨-, old, hold, rfl⟩
    · rcases (advance_present hstep).2 hin with hin | ⟨-, hno⟩
      · rw [h.refused hserver c (List.mem_of_getElem? hc)] at hin
        cases hin
      · rw [hserver] at hno
        cases hno
    · have hin := (makesWay_present hin).1
      rw [h.refused hserver old (List.mem_of_getElem? hold)] at hin
      cases hin

theorem displace_present {c : Connection} : (c.displace true).present = false := Bool.and_false _

theorem Inv.serverClose (h : Inv s) :
    Inv { s with serverClosed := true, connections := s.connections.map (·.displace true) } where
  good k z hz := by
    rw [List.getElem?_map] at hz
    obtain ⟨c, hc, rfl⟩ := Option.map_eq_some_iff.mp hz
    exact (h.good k c hc).displace true
  closed := h.closed
  closes hclosed k z hz hmapped := by
    rw [List.getElem?_map] at hz
    obtain ⟨c, hc, rfl⟩ := Option.map_eq_some_iff.mp hz
    exact h.closes hclosed k c hc hmapped
  returned hreturned z hz := by
    obtain ⟨c, hc, rfl⟩ := List.mem_map.mp hz
    exact h.returned hreturned c hc
  unique i j c d hc _ hin := by
    rw [List.getElem?_map] at hc
    obtain ⟨old, -, rfl⟩ := Option.map_eq_some_iff.mp hc
    rw [displace_present] at hin
    cases hin
  refused _ z hz := by
    obtain ⟨c, -, rfl⟩ := List.mem_map.mp hz
    exact displace_present

theorem Inv.close (h : Inv s) : Inv s.close := by
  rw [State.close]
  split
  · next hidle =>
    refine ⟨h.good, ⟨fun _ => nofun, fun _ => rfl⟩, ?_, nofun, h.unique, h.refused⟩
    intro _ i c hc hmapped
    exact .inr (mem_sockets hc hmapped)
  · exact h

theorem Inv.closeNext (h : Inv s) {i : ℕ} {rest : List ℕ} (hcloser : s.closer = .closing (i :: rest)) :
    Inv { s.cancel i with closer := .closing rest } where
  good k c hc := by
    rw [State.cancel, List.getElem?_modify] at hc
    obtain ⟨z, hz, rfl⟩ := Option.map_eq_some_iff.mp hc
    split
    · exact (h.good k z hz).cancel
    · exact h.good k z hz
  closed := by
    have hclosed := h.closed
    rw [hcloser] at hclosed
    exact ⟨fun _ => nofun, fun _ => hclosed.mpr nofun⟩
  closes hclosed k c hc hmapped := by
    rw [State.cancel, List.getElem?_modify] at hc
    obtain ⟨z, hz, rfl⟩ := Option.map_eq_some_iff.mp hc
    split at hmapped
    · next hik => rw [if_pos hik]; exact .inl rfl
    · next hik =>
      rw [if_neg hik]
      have hz := h.closes hclosed k z hz hmapped
      rw [hcloser] at hz
      exact hz.imp_right fun hmem => (List.mem_cons.mp hmem).resolve_left (Ne.symm hik)
  returned := nofun
  unique j k c d hc hd hcin hdin huuid := by
    rw [State.cancel, List.getElem?_modify] at hc hd
    obtain ⟨y, hy, rfl⟩ := Option.map_eq_some_iff.mp hc
    obtain ⟨z, hz, rfl⟩ := Option.map_eq_some_iff.mp hd
    refine h.unique j k y z hy hz ?_ ?_ ?_
    · split at hcin <;> exact hcin
    · split at hdin <;> exact hdin
    · split at huuid <;> split at huuid <;> exact huuid
  refused hserver c hc := by
    obtain ⟨k, hc⟩ := List.mem_iff_getElem?.mp hc
    rw [State.cancel, List.getElem?_modify] at hc
    obtain ⟨z, hz, rfl⟩ := Option.map_eq_some_iff.mp hc
    have hz := h.refused hserver z (List.mem_of_getElem? hz)
    split <;> exact hz

theorem Inv.step (h : Inv s) {a : Action} (hstep : step s a = some s') : Inv s' := by
  cases a with
  | request uuid =>
    obtain rfl := Option.some.inj hstep
    split
    · exact h
    · next hopen => exact h.request (Bool.eq_false_iff.mpr hopen) uuid
  | advance i a =>
    obtain ⟨c, hc, hstep⟩ := Option.bind_eq_some_iff.mp hstep
    obtain ⟨c', hadvance, rfl⟩ := Option.map_eq_some_iff.mp hstep
    exact h.advance hc hadvance
  | serverClose =>
    obtain rfl := Option.some.inj hstep
    exact h.serverClose
  | close =>
    obtain rfl := Option.some.inj hstep
    exact h.close
  | closeNext =>
    rw [Handler.step] at hstep
    split at hstep
    · next hcloser =>
      obtain rfl := Option.some.inj hstep
      exact h.closeNext hcloser
    · next hcloser =>
      obtain rfl := Option.some.inj hstep
      have hclosed := h.closed
      have hcloses := h.closes
      rw [hcloser] at hclosed hcloses
      exact ⟨h.good, ⟨fun _ => nofun, fun _ => hclosed.mpr nofun⟩, hcloses, nofun, h.unique, h.refused⟩
    · cases hstep
  | closeReturns =>
    rw [Handler.step] at hstep
    split at hstep
    · next hdone =>
      obtain rfl := Option.some.inj hstep
      have hclosed := h.closed
      have hcloses := h.closes
      rw [hdone.1] at hclosed hcloses
      exact ⟨h.good, ⟨fun _ => nofun, fun _ => hclosed.mpr nofun⟩, hcloses, fun _ => hdone.2, h.unique, h.refused⟩
    · cases hstep

end

theorem inv_run {s : State} (h : handler.Reach anyStep s) : Inv s := by
  refine h.invariant Inv ?_ fun s a s' hinv _ hstep => hinv.step hstep
  exact ⟨nofun, ⟨nofun, fun h => absurd rfl h⟩, nofun, nofun, fun _ _ _ _ hc => (by cases hc), nofun⟩

/-! ## How long a connection lasts once its context is cancelled -/

/-- What is done by the connection itself. -/
def Advance.Own (a : Advance) : Prop := a ≠ .abort ∧ a ≠ .frame

def Stage.weight : Stage → ℕ
  | .admitted => 12
  | .accepted => 11
  | .registered => 10
  | .authenticating => 8
  | .opened => 7
  | .preparing => 6
  | .loop => 4
  | .leaving => 3
  | .retiring => 2
  | .retired => 1
  | .done => 0

/-- How much the connection can still do when the handler is closed and its context cancelled. -/
def Connection.weight (c : Connection) : ℕ :=
  c.stage.weight + c.reader.toNat + c.heartbeat.toNat + c.callback.toNat + c.calls

/-- When the handler is closed, and the context is cancelled as soon as there is one in the map. -/
def Ending (c : Connection) : Prop := Good c ∧ (c.mapped = true → c.cancelled = true)

section
variable {serverClosed : Bool} {c c' : Connection} {a : Advance}

theorem Ending.weight_le (h : Ending c) (hstep : c.advance true serverClosed a = some c') :
    c'.weight ≤ c.weight ∧ (a.Own → c'.weight < c.weight) := by
  obtain ⟨⟨hmapped, -, -, -, hheartbeat, -, -, -⟩, hcancelled⟩ := h
  rw [Connection.weight, Connection.weight]
  cases a <;> simp only [Connection.advance, Connection.leave, Connection.add] at hstep <;>
    grind -ring -linarith [Stage.weight, Advance.Own, Bool.toNat]

/-- Somebody of a connection that is not done can go on. -/
theorem Ending.exists_own (h : Ending c) (hdone : c.stage ≠ .done) :
    ∃ a : Advance, a.Own ∧ (c.advance true serverClosed a).isSome := by
  obtain ⟨⟨hmapped, -, -, -, -, -, -, -⟩, hcancelled⟩ := h
  cases hstage : c.stage with
  | admitted => exact ⟨.accept, ⟨nofun, nofun⟩, by simp [Connection.advance, hstage]⟩
  | accepted => exact ⟨.register, ⟨nofun, nofun⟩, by simp [Connection.advance, hstage]⟩
  | registered => exact ⟨.open false, ⟨nofun, nofun⟩, by simp [Connection.advance, hstage]⟩
  | authenticating => exact ⟨.decide, ⟨nofun, nofun⟩, by simp [Connection.advance, hstage]⟩
  | opened => exact ⟨.openFails, ⟨nofun, nofun⟩, by simp [Connection.advance, hstage]⟩
  | loop =>
    rw [hstage] at hmapped
    have hcancelled := hcancelled (hmapped.mpr ⟨nofun, nofun, nofun⟩)
    exact ⟨.leave, ⟨nofun, nofun⟩, by simp [Connection.advance, hstage, hcancelled]⟩
  | preparing => exact ⟨.skip, ⟨nofun, nofun⟩, by simp [Connection.advance, hstage]⟩
  | leaving =>
    -- The calls, the reader and the heartbeat end first.
    by_cases hcalls : c.calls = 0
    · cases hreader : c.reader
      · cases hheartbeat : c.heartbeat
        · exact ⟨.retire, ⟨nofun, nofun⟩, by simp [Connection.advance, hstage, hcalls, hreader, hheartbeat]⟩
        · exact ⟨.heartbeatStops, ⟨nofun, nofun⟩, by simp [Connection.advance, hheartbeat]⟩
      · exact ⟨.readerStops, ⟨nofun, nofun⟩, by simp [Connection.advance, hreader]⟩
    · exact ⟨.callReturns, ⟨nofun, nofun⟩, by simp [Connection.advance, Nat.pos_of_ne_zero hcalls]⟩
  | retiring =>
    cases hcallback : c.callback
    · exact ⟨.deleteClient, ⟨nofun, nofun⟩, by simp [Connection.advance, hstage, hcallback]⟩
    · exact ⟨.callbackReturns, ⟨nofun, nofun⟩, by simp [Connection.advance, hcallback]⟩
  | retired => exact ⟨.unregister, ⟨nofun, nofun⟩, by simp [Connection.advance, hstage]⟩
  | done => exact absurd hstage hdone

end

/-! ## `Close` returns -/

/-- What is done without the peers and the requests. -/
def Own : Action → Prop
  | .advance _ a => a.Own
  | .closeReturns => True
  | _ => False

def weight (s : State) : ℕ := (s.connections.map Connection.weight).sum

theorem map_displace_weight {connections : List Connection} {out : Connection → Bool} :
    (connections.map fun c => c.displace (out c)).map Connection.weight = connections.map Connection.weight := by
  rw [List.map_map]
  rfl

section
variable {s s' : State} {a : Action}

theorem Inv.ending (h : Inv s) (hclosed : s.closed = true) (hpending : s.closer.pending = []) {i : ℕ} {c : Connection}
    (hc : s.connections[i]? = some c) : Ending c := by
  refine ⟨h.good i c hc, fun hmapped => ?_⟩
  have hcloses := h.closes hclosed i c hc hmapped
  rw [hpending] at hcloses
  exact hcloses.resolve_right (List.not_mem_nil)

/-- While `Close` waits, all that happens brings the connections nearer to their end. -/
theorem waiting_step (h : Inv s) (hwaiting : s.closer = .waiting) (hstep : step s a = some s') :
    s'.closer = .returned ∨ (s'.closer = .waiting ∧ weight s' ≤ weight s ∧ (Own a → weight s' < weight s)) := by
  have hclosed : s.closed = true := h.closed.mpr (by rw [hwaiting]; exact nofun)
  cases a with
  | request uuid =>
    obtain rfl := Option.some.inj hstep
    rw [hclosed, if_pos rfl]
    exact .inr ⟨hwaiting, le_rfl, nofun⟩
  | advance i a =>
    obtain ⟨c, hc, hstep⟩ := Option.bind_eq_some_iff.mp hstep
    obtain ⟨c', hadvance, rfl⟩ := Option.map_eq_some_iff.mp hstep
    rw [hclosed] at hadvance
    obtain ⟨hle, hlt⟩ := (h.ending hclosed (by rw [hwaiting]; rfl) hc).weight_le hadvance
    have hmap : (s.connections.map (s.makesWay c.uuid a))[i]? = some (s.makesWay c.uuid a c) := by
      rw [List.getElem?_map, hc, Option.map_some]
    have hsum := sum_map_set (y := c') Connection.weight hmap
    have hsame : (s.makesWay c.uuid a c).weight = c.weight := rfl
    have hmaps : (s.connections.map (s.makesWay c.uuid a)).map Connection.weight =
      s.connections.map Connection.weight := map_displace_weight
    rw [hsame, hmaps] at hsum
    refine .inr ⟨hwaiting, ?_, fun hown => ?_⟩
    · dsimp only [weight]
      omega
    · have hlt := hlt hown
      dsimp only [weight]
      omega
  | serverClose =>
    obtain rfl := Option.some.inj hstep
    refine .inr ⟨hwaiting, ?_, nofun⟩
    dsimp only [weight]
    rw [map_displace_weight]
  | close =>
    obtain rfl := Option.some.inj hstep
    rw [State.close, hwaiting, if_neg nofun]
    exact .inr ⟨hwaiting, le_rfl, nofun⟩
  | closeNext =>
    rw [step, hwaiting] at hstep
    cases hstep
  | closeReturns =>
    rw [step] at hstep
    split at hstep
    · obtain rfl := Option.some.inj hstep
      exact .inl rfl
    · cases hstep

theorem waiting_enabled (h : Inv s) (hwaiting : s.closer = .waiting) : ∃ a, Own a ∧ (handler.step s a).isSome := by
  have hclosed : s.closed = true := h.closed.mpr (by rw [hwaiting]; exact nofun)
  by_cases hdone : ∀ c ∈ s.connections, c.stage = .done
  · refine ⟨.closeReturns, trivial, ?_⟩
    change (step s .closeReturns).isSome
    rw [step, if_pos ⟨hwaiting, hdone⟩]
    rfl
  · obtain ⟨c, hc⟩ := not_forall.mp hdone
    obtain ⟨hmem, hc⟩ := Classical.not_imp.mp hc
    obtain ⟨i, hi⟩ := List.mem_iff_getElem?.mp hmem
    obtain ⟨a, hown, hsome⟩ := (h.ending hclosed (by rw [hwaiting]; rfl) hi).exists_own hc
    refine ⟨.advance i a, hown, ?_⟩
    change (step s (.advance i a)).isSome
    rw [step, hi, hclosed, Option.bind_some, Option.isSome_map]
    exact hsome

theorem closing_step {rest : List ℕ} (hclosing : s.closer = .closing rest) (hstep : step s a = some s') :
    s'.closer = .waiting ∨ ∃ rest', s'.closer = .closing rest' ∧ rest'.length ≤ rest.length ∧
      (a = .closeNext → rest'.length < rest.length) := by
  cases a with
  | request uuid =>
    obtain rfl := Option.some.inj hstep
    refine .inr ⟨rest, ?_, le_rfl, nofun⟩
    split <;> exact hclosing
  | advance i a =>
    obtain ⟨c, hc, hstep⟩ := Option.bind_eq_some_iff.mp hstep
    obtain ⟨c', -, rfl⟩ := Option.map_eq_some_iff.mp hstep
    exact .inr ⟨rest, hclosing, le_rfl, nofun⟩
  | serverClose =>
    obtain rfl := Option.some.inj hstep
    exact .inr ⟨rest, hclosing, le_rfl, nofun⟩
  | close =>
    obtain rfl := Option.some.inj hstep
    rw [State.close, hclosing, if_neg nofun]
    exact .inr ⟨rest, hclosing, le_rfl, nofun⟩
  | closeNext =>
    rw [step, hclosing] at hstep
    cases rest with
    | nil =>
      obtain rfl := Option.some.inj hstep
      exact .inl rfl
    | cons i rest =>
      obtain rfl := Option.some.inj hstep
      exact .inr ⟨rest, rfl, Nat.le_succ _, fun _ => Nat.lt_succ_self _⟩
  | closeReturns =>
    rw [step, hclosing] at hstep
    rw [if_neg (fun h => Closer.noConfusion h.1)] at hstep
    cases hstep

theorem returned_advance (h : Inv s) (hreturned : s.closer = .returned) (i : ℕ) (a : Advance) :
    step s (.advance i a) = none := by
  cases hc : s.connections[i]? with
  | none => rw [step, hc]; rfl
  | some c =>
    have hdone := h.returned hreturned c (List.mem_of_getElem? hc)
    rw [step, hc, Option.bind_some, advance_done ((h.good i c hc).joined hdone) hdone]
    rfl

/-- What `Close` has returned from stays so. -/
theorem returned_step (h : Inv s) (hreturned : s.closer = .returned) (hstep : step s a = some s') :
    s'.closer = .returned := by
  cases a with
  | request uuid =>
    obtain rfl := Option.some.inj hstep
    split <;> exact hreturned
  | advance i a =>
    rw [returned_advance h hreturned] at hstep
    cases hstep
  | serverClose =>
    obtain rfl := Option.some.inj hstep
    exact hreturned
  | close =>
    obtain rfl := Option.some.inj hstep
    rw [State.close, hreturned, if_neg nofun]
    exact hreturned
  | closeNext =>
    rw [step, hreturned] at hstep
    cases hstep
  | closeReturns =>
    rw [step, hreturned, if_neg (fun h => Closer.noConfusion h.1)] at hstep
    cases hstep

end

/-- What can be said of the handler and its connections when `Close` has returned. -/
def Retired (s : State) : Prop :=
  s.closer = .returned ∧ s.sockets = [] ∧ ∀ c ∈ s.connections, c.stage = .done ∧ Joined c

theorem retired_of_returned {s : State} (h : Inv s) (hreturned : s.closer = .returned) : Retired s := by
  have hjoined : ∀ c ∈ s.connections, c.stage = .done ∧ Joined c := by
    intro c hc
    obtain ⟨i, hi⟩ := List.mem_iff_getElem?.mp hc
    have hdone := h.returned hreturned c hc
    exact ⟨hdone, (h.good i c hi).joined hdone⟩
  refine ⟨hreturned, List.filter_eq_nil_iff.mpr ?_, hjoined⟩
  intro i _ hany
  obtain ⟨c, hc, hmapped⟩ := (Option.any_eq_true ..).mp hany
  rw [(hjoined c (List.mem_of_getElem? hc)).2.mapped] at hmapped
  cases hmapped

/-- **Nobody runs unregistered.** In every run, as long as the reader, the heartbeat, the authentication callback or a
call of a connection runs, its socket is in the map, where `Close` finds it, and for the last three the server has its
client too, unless it has taken it out for a newer one, or was closed. It has one client under an identifier, and none
once it is closed. When `Close` has returned, nothing of any connection runs, the map is empty and no client is left. -/
theorem running_registered {s : State} (h : handler.Reach anyStep s) : (s.closer = .returned → Retired s) ∧
    (∀ c ∈ s.connections, (c.reader = true ∨ c.heartbeat = true ∨ c.callback = true ∨ 0 < c.calls → c.mapped = true) ∧
      (c.heartbeat = true ∨ c.callback = true ∨ 0 < c.calls → c.present = true ∨ c.displaced = true)) ∧
    (∀ (i j : ℕ) (c d : Connection), s.connections[i]? = some c → s.connections[j]? = some d → c.present = true →
      d.present = true → c.uuid = d.uuid → i = j) ∧
    (s.serverClosed = true → ∀ c ∈ s.connections, c.present = false) := by
  have hinv := inv_run h
  refine ⟨retired_of_returned hinv, fun c hc => ?_, hinv.unique, hinv.refused⟩
  obtain ⟨i, hi⟩ := List.mem_iff_getElem?.mp hc
  obtain ⟨hmapped, -, hplaced, hreader, hheartbeat, hcallback, hcalls, -⟩ := hinv.good i c hi
  constructor <;> grind -ring -linarith [Stage.entered]

/-- A connection with a call is closed by `Close`, and one that is being accepted finds the handler closed. -/
def actions : List Action :=
  [.request 0, .request 1, .advance 0 .accept, .advance 0 .register, .advance 0 (.open true), .advance 0 .decide,
    .advance 0 .enter, .advance 0 .frame, .advance 1 .accept, .close, .closeNext, .closeNext, .advance 0 .call,
    .advance 0 .leave, .advance 0 .heartbeatStops, .advance 0 .readerStops, .advance 1 .register,
    .advance 0 .callReturns, .advance 0 .retire, .advance 0 .callbackReturns, .advance 0 .deleteClient,
    .advance 0 .unregister, .closeReturns]

def final : State :=
  ⟨true, .returned, false, [⟨.done, 0, false, true, false, false, false, 0, false, false⟩,
    ⟨.done, 1, false, true, false, false, false, 0, false, false⟩]⟩

theorem actions_run : handler.exec anyStep handler.init actions = some final := rfl

theorem final_retired : Retired final :=
  (running_registered (Machine.steps_of_exec actions actions_run)).1 rfl

section
variable (T : Trace handler anyStep) {n : ℕ}

theorem waiting_of_closing (hclose : T.Fair (· = .closeNext)) {rest : List ℕ}
    (h : (T.state n).closer = .closing rest) : ∃ m, n ≤ m ∧ (T.state m).closer = .waiting := by
  refine T.leadsTo hclose (P := fun s => ∃ rest, s.closer = .closing rest) (Q := fun s => s.closer = .waiting)
    (fun s => s.closer.pending.length) ?_ ?_ n ⟨rest, h⟩
  · intro s ⟨rest, hclosing⟩
    refine ⟨.closeNext, rfl, ?_⟩
    change (step s .closeNext).isSome
    rw [step, hclosing]
    cases rest <;> rfl
  · intro s a s' _ ⟨rest, hclosing⟩ _ hstep
    refine (closing_step hclosing hstep).imp_right fun ⟨rest', hclosing', hle, hlt⟩ => ?_
    rw [hclosing, hclosing']
    exact ⟨⟨rest', rfl⟩, hle, hlt⟩

theorem returned_of_waiting (hown : T.Fair Own) (h : (T.state n).closer = .waiting) :
    ∃ m, n ≤ m ∧ (T.state m).closer = .returned := by
  refine T.leadsTo hown (P := fun s => Inv s ∧ s.closer = .waiting) (Q := fun s => s.closer = .returned) weight ?_ ?_ n
    ⟨inv_run (T.reach n), h⟩
  · intro s ⟨hs, hwaiting⟩
    exact waiting_enabled hs hwaiting
  · intro s a s' _ ⟨hs, hwaiting⟩ _ hstep
    refine (waiting_step hs hwaiting hstep).imp_right fun ⟨hwaiting', hle, hlt⟩ => ?_
    exact ⟨⟨hs.step hstep, hwaiting'⟩, hle, hlt⟩

theorem returned_of_le (h : (T.state n).closer = .returned) {k : ℕ} (hk : n ≤ k) : (T.state k).closer = .returned := by
  induction k, hk using Nat.le_induction with
  | base => exact h
  | succ k hk ih =>
    have hnext := T.next k
    cases ha : T.act k with
    | none => rw [ha] at hnext; rw [hnext, ih]
    | some a =>
      rw [ha] at hnext
      exact returned_step (inv_run (T.reach k)) ih hnext.2

end

/-- **`Close` returns.** Once it has been called, as long as those who are able to go on do so at some time, it returns,
and from then on nothing of any connection runs. The callbacks and the methods have to return for it, as the comment on
it says. -/
theorem close_returns (T : Trace handler anyStep) (hclose : T.Fair (· = .closeNext)) (hown : T.Fair Own) {n : ℕ}
    (h : (T.state n).closed = true) : ∃ m, n ≤ m ∧ ∀ k, m ≤ k → Retired (T.state k) := by
  have hlast : ∃ m, n ≤ m ∧ (T.state m).closer = .returned := by
    cases hcloser : (T.state n).closer with
    | idle => exact absurd hcloser ((inv_run (T.reach n)).closed.mp h)
    | closing rest =>
      obtain ⟨k, hk, hwaiting⟩ := waiting_of_closing T hclose hcloser
      obtain ⟨m, hm, hreturned⟩ := returned_of_waiting T hown hwaiting
      exact ⟨m, hk.trans hm, hreturned⟩
    | waiting => exact returned_of_waiting T hown hcloser
    | returned => exact ⟨n, le_rfl, hcloser⟩
  obtain ⟨m, hm, hreturned⟩ := hlast
  refine ⟨m, hm, fun k hk => ?_⟩
  exact retired_of_returned (inv_run (T.reach k)) (returned_of_le T hreturned hk)

theorem call_joined : ∃ m, 10 ≤ m ∧ ∀ k, m ≤ k → Retired ((Trace.ofList _ actions_run).state k) := by
  refine close_returns (Trace.ofList _ actions_run) ?_ ?_ (n := 10) rfl
  · refine Trace.ofList_fair _ actions_run fun a ha => ?_
    rw [show a = .closeNext from ha]
    rfl
  · refine Trace.ofList_fair _ actions_run fun a ha => ?_
    cases a with
    | advance i a => exact returned_advance (inv_run (Machine.steps_of_exec actions actions_run)) rfl i a
    | closeReturns => rfl
    | request | serverClose | close | closeNext => cases ha

end TypeFerry.Go.Handler
