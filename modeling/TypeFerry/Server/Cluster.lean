import TypeFerry.Lib.Broadcast
import TypeFerry.Server.RoomIndex

/-! # Events of a cluster

`event.ts`, `server-channel.ts` and `redis-transport.ts` on any number of servers. A clustered event is not sent to
the sockets of the server it is emitted on: it goes to the broker and comes back, there as everywhere else. The
broker accepts the messages one after the other and passes each one on to those who are subscribed. -/
namespace TypeFerry.Server.Cluster
open scoped List
open TypeFerry.Lib.Numeral TypeFerry.Lib.OrderedMap TypeFerry.Lib.Runs TypeFerry.Lib.Broadcast
open TypeFerry.Server.Rooms TypeFerry.Server.RoomIndex

structure RedisMessage where
  event : Text
  channel : Text
  message : Text
  excludeUuid : Option Text
  deriving DecidableEq

/-- `Event`, as far as it decides where an event goes. -/
structure Event where
  cluster : Bool
  excludeOriginator : Bool

/-- A frame that a socket was sent; `relayed` if it came from the broker. -/
structure Frame where
  socket : ℕ
  payload : Text
  relayed : Bool
  deriving DecidableEq

/-- A server. -/
structure Instance where
  events : Text → Option Event
  rooms : RoomRegistry
  isOpen : ℕ → Bool
  /-- the socket of a client in `allClients` that has one -/
  sockets : Text → Option ℕ
  /-- `redisTransport.pub` is there -/
  pub : Bool
  subscribed : Bool
  /-- what was given to `pub.publish`, in order -/
  emitted : List RedisMessage
  /-- what of it has not reached the broker -/
  outbox : List RedisMessage
  /-- the subscriber, with the server each message came from -/
  reader : Reader (ℕ × RedisMessage)
  sent : List Frame

/-- What an event is emitted with. -/
structure Payloads (π : Type) where
  /-- `Presentation.encode({ t, uuid, event, channel, params })` -/
  encode (uuid event channel : Text) : π → Text
  /-- `params.uuid`, or nothing where that throws -/
  uuid : π → Option (Option Text)

namespace Instance

/-- `server.allClients.get(excludeUuid)?.socket`, where there is an id. -/
def excluded (s : Instance) : Option Text → Option ℕ
  | none => none
  | some uuid => if uuid = [] then none else s.sockets uuid

/-- `server.channel(channel).propagate(event, payload, excludeUuid)` -/
def propagate (s : Instance) (relayed : Bool) (event channel payload : Text) (excludeUuid : Option Text) : Instance :=
  if (s.events event).isSome then
    let frames := s.rooms.sends s.isOpen (getRoomName channel event) payload (s.excluded excludeUuid)
    { s with sent := s.sent ++ frames.map fun f => ⟨f.1, f.2, relayed⟩ }
  else s

/-- `server.channel(name)`: the name of the channel that it gives. -/
def channelName (name : Text) : Text := if name = [] then js "NO_CHANNEL" else name

variable {π : Type} (payloads : Payloads π)

/-- `server.channel(channel).emit(event, params)`, as far as `Event.handler`. -/
def emit (s : Instance) (event channel : Text) (params : π) (uuid : Text) : Instance :=
  match s.events event with
  | none => s
  | some e =>
    let channel := channelName channel
    let payload := payloads.encode uuid event channel params
    match (if e.excludeOriginator then payloads.uuid params else some none) with
    | none => s
    | some excludeUuid =>
      if e.cluster && s.pub then
        let m : RedisMessage := ⟨event, channel, payload, excludeUuid⟩
        { s with emitted := s.emitted ++ [m], outbox := s.outbox ++ [m] }
      else s.propagate false event channel payload excludeUuid

/-- The callback of `pSubscribe`. -/
def handle (s : Instance) (m : RedisMessage) : Instance :=
  s.propagate true m.event (channelName m.channel) m.message m.excludeUuid

end Instance

/-- The servers, and what the broker has accepted from them. -/
structure State where
  servers : ℕ → Instance
  log : List (ℕ × RedisMessage)

inductive Action (π : Type) where
  | emit (i : ℕ) (event channel : Text) (params : π) (uuid : Text)
  /-- the broker accepts the next message of a server -/
  | accept (i : ℕ)
  /-- `pub.publish` rejects -/
  | reject (i : ℕ)
  /-- a subscriber gets its next message -/
  | receive (j : ℕ)
  | subscribe (j : ℕ)
  /-- the connection of the subscriber is lost -/
  | disconnect (j : ℕ)
  /-- `redisTransport.close()` -/
  | close (j : ℕ)
  | addEvent (j : ℕ) (name : Text) (event : Event)
  | deleteEvent (j : ℕ) (name : Text)
  | rooms (j : ℕ) (op : Operation)
  /-- `readyState` of a socket changes -/
  | ready (j : ℕ) (ws : ℕ) (isOpen : Bool)
  /-- `addClient` or `deleteClient`, with the socket of the client -/
  | client (j : ℕ) (uuid : Text) (ws : Option ℕ)

def State.update (s : State) (j : ℕ) (f : Instance → Instance) : State :=
  { s with servers := Function.update s.servers j (f (s.servers j)) }

theorem State.update_self (s : State) (j : ℕ) (f : Instance → Instance) :
    (s.update j f).servers j = f (s.servers j) := Function.update_self ..

theorem State.update_of_ne (s : State) {i j : ℕ} (h : i ≠ j) (f : Instance → Instance) :
    (s.update j f).servers i = s.servers i := Function.update_of_ne h ..

/-- The broker accepts a message of the server `i`. -/
def State.accept (s : State) (i : ℕ) (m : RedisMessage) (rest : List RedisMessage) : State where
  log := s.log ++ [(i, m)]
  servers j :=
    let t := if j = i then { s.servers j with outbox := rest } else s.servers j
    if t.subscribed then { t with reader := t.reader.pass (i, m) } else t

theorem State.accept_outbox (s : State) (i : ℕ) (m : RedisMessage) (rest : List RedisMessage) (j : ℕ) :
    ((s.accept i m rest).servers j).outbox = (if j = i then rest else (s.servers j).outbox) ∧
      ((s.accept i m rest).servers j).emitted = (s.servers j).emitted := by
  rw [State.accept]
  dsimp only
  by_cases hj : j = i
  · rw [if_pos hj, if_pos hj]
    split <;> exact ⟨rfl, rfl⟩
  · rw [if_neg hj, if_neg hj]
    split <;> exact ⟨rfl, rfl⟩

variable {π : Type} (payloads : Payloads π)

def step (s : State) : Action π → Option State
  | .emit i event channel params uuid => some (s.update i fun t => t.emit payloads event channel params uuid)
  | .accept i => match (s.servers i).outbox with
    | [] => none
    | m :: rest => some (s.accept i m rest)
  | .reject i => match (s.servers i).outbox with
    | [] => none
    | _ :: rest => some (s.update i fun t => { t with outbox := rest })
  | .receive j => match (s.servers j).reader.waiting with
    | [] => none
    | x :: rest =>
      some (s.update j fun t => { t.handle x.2 with reader := t.reader.take x rest })
  | .subscribe j =>
    if (s.servers j).pub && !(s.servers j).subscribed then
      some (s.update j fun t => { t with subscribed := true, reader := t.reader.enter s.log })
    else none
  | .disconnect j => some (s.update j fun t => { t with subscribed := false, reader := t.reader.leave })
  | .close j =>
    some (s.update j fun t => { t with pub := false, subscribed := false, outbox := [], reader := t.reader.leave })
  | .addEvent j name event => some (s.update j fun t => { t with events := Function.update t.events name (some event) })
  | .deleteEvent j name => some (s.update j fun t => { t with events := Function.update t.events name none })
  | .rooms j op => some (s.update j fun t => { t with rooms := perform t.rooms op })
  | .ready j ws isOpen => some (s.update j fun t => { t with isOpen := Function.update t.isOpen ws isOpen })
  | .client j uuid ws => some (s.update j fun t => { t with sockets := Function.update t.sockets uuid ws })

/-- A server before anything happens; `redis` if it is made with the option. -/
def server (redis : Bool) : Instance where
  events _ := none
  rooms := ⟨.empty, .empty⟩
  isOpen _ := false
  sockets _ := none
  pub := redis
  subscribed := false
  emitted := []
  outbox := []
  reader := .init
  sent := []

def cluster (redis : ℕ → Bool) : Machine State (Action π) where
  init := ⟨fun i => server (redis i), []⟩
  step := step payloads

/-! ## What a server keeps -/

/-- The messages of one server. -/
def sentBy (i : ℕ) (xs : List (ℕ × RedisMessage)) : List RedisMessage := (xs.filter (·.1 = i)).map Prod.snd

theorem sentBy_append (i : ℕ) (xs ys : List (ℕ × RedisMessage)) :
    sentBy i (xs ++ ys) = sentBy i xs ++ sentBy i ys := by
  rw [sentBy, List.filter_append, List.map_append]
  rfl

/-- What a socket was sent of the messages of the broker. -/
def relayedTo (ws : ℕ) (frames : List Frame) : List Text :=
  (frames.filter fun f => f.relayed ∧ f.socket = ws).map Frame.payload

theorem relayedTo_append (ws : ℕ) (xs ys : List Frame) :
    relayedTo ws (xs ++ ys) = relayedTo ws xs ++ relayedTo ws ys := by
  rw [relayedTo, List.filter_append, List.map_append]
  rfl

/-- What holds of the server `i` where the broker has accepted `log`. -/
structure Instance.Sound (i : ℕ) (log : List (ℕ × RedisMessage)) (t : Instance) : Prop where
  represents : Represents t.rooms
  follows : t.subscribed = true → t.reader.Follows log
  away : t.subscribed = false → t.reader.Away log
  origin : sentBy i log ++ t.outbox <+ t.emitted
  frames (ws : ℕ) : relayedTo ws t.sent <+ t.reader.all.map fun x => x.2.message

variable {i : ℕ} {log : List (ℕ × RedisMessage)} {t t' : Instance}

theorem Instance.Sound.all_sublist (h : t.Sound i log) : t.reader.all <+ log := by
  cases hsubscribed : t.subscribed with
  | true => exact (h.follows hsubscribed).all_sublist
  | false => exact (h.away hsubscribed).all_sublist

/-- Changes that have nothing to do with the broker. -/
theorem Instance.Sound.frame (h : t.Sound i log) (hrooms : Represents t'.rooms)
    (hsubscribed : t'.subscribed = t.subscribed) (hreader : t'.reader = t.reader)
    (houtbox : t'.outbox = t.outbox) (hemitted : t'.emitted = t.emitted)
    (hsent : ∀ ws, relayedTo ws t'.sent = relayedTo ws t.sent) : t'.Sound i log where
  represents := hrooms
  follows := by
    rw [hsubscribed, hreader]
    exact h.follows
  away := by
    rw [hsubscribed, hreader]
    exact h.away
  origin := by
    rw [houtbox, hemitted]
    exact h.origin
  frames ws := by
    rw [hsent, hreader]
    exact h.frames ws

/-! ### Sending -/

/-- The frames of one message to one socket. -/
theorem filter_frames (h : Represents t.rooms) (relayed : Bool) (room payload : Text) (exclude : Option ℕ) (ws : ℕ) :
    ((t.rooms.sends t.isOpen room payload exclude).map fun f => (⟨f.1, f.2, relayed⟩ : Frame)).filter
        (fun f => f.socket = ws) =
      if t.rooms.has ws room ∧ t.isOpen ws ∧ exclude ≠ some ws then [⟨ws, payload, relayed⟩] else [] := by
  rw [List.filter_map]
  have hsends := filter_sends h t.isOpen room payload exclude ws
  simp only [Function.comp_def]
  rw [hsends]
  split <;> rfl

/-- A message goes to those in the room who are connected, once, but not to the one who is excluded. -/
def Receives (t : Instance) (event channel : Text) (excludeUuid : Option Text) (ws : ℕ) : Prop :=
  (t.events event).isSome ∧ t.rooms.has ws (getRoomName channel event) ∧ t.isOpen ws ∧
    ∀ uuid, excludeUuid = some uuid → uuid ≠ [] → t.sockets uuid ≠ some ws

theorem excluded_ne_iff {excludeUuid : Option Text} {ws : ℕ} : t.excluded excludeUuid ≠ some ws ↔
    ∀ uuid, excludeUuid = some uuid → uuid ≠ [] → t.sockets uuid ≠ some ws := by
  cases excludeUuid with
  | none => exact iff_of_true nofun nofun
  | some uuid =>
    rw [Instance.excluded]
    split
    · next hempty => exact iff_of_true nofun fun _ heq hne => absurd (Option.some.inj heq ▸ hempty) hne
    · next hne => exact ⟨fun h _ heq _ => Option.some.inj heq ▸ h, fun h => h uuid rfl hne⟩

open Classical in
theorem propagate_frames (h : Represents t.rooms) (relayed : Bool) (event channel payload : Text)
    (excludeUuid : Option Text) : ∃ frames,
      t.propagate relayed event channel payload excludeUuid = { t with sent := t.sent ++ frames } ∧
      ∀ ws, frames.filter (fun f => f.socket = ws) =
        if Receives t event channel excludeUuid ws then [⟨ws, payload, relayed⟩] else [] := by
  rw [Instance.propagate]
  split
  · next hevent =>
    refine ⟨_, rfl, fun ws => ?_⟩
    rw [filter_frames h]
    refine if_congr ?_ rfl rfl
    rw [Receives, excluded_ne_iff, and_iff_right hevent]
  · next hevent =>
    refine ⟨[], by rw [List.append_nil], fun ws => ?_⟩
    rw [List.filter_nil, if_neg fun h => hevent h.1]

theorem relayedTo_of_filter {frames : List Frame} {ws : ℕ} {xs : List Frame}
    (h : frames.filter (fun f => f.socket = ws) = xs) :
    relayedTo ws frames = (xs.filter Frame.relayed).map Frame.payload := by
  rw [← h, relayedTo, List.filter_filter]
  simp only [Bool.decide_and, Bool.decide_eq_true]

/-! ### Steps -/

theorem Instance.Sound.propagate (h : t.Sound i log) (event channel payload : Text) (excludeUuid : Option Text) :
    (t.propagate false event channel payload excludeUuid).Sound i log := by
  obtain ⟨frames, heq, hframes⟩ := propagate_frames h.represents false event channel payload excludeUuid
  rw [heq]
  refine h.frame h.represents rfl rfl rfl rfl fun ws => ?_
  rw [relayedTo_append, relayedTo_of_filter (hframes ws)]
  split <;> exact List.append_nil _

theorem Instance.Sound.emit (h : t.Sound i log) {π : Type} (payloads : Payloads π) (event channel : Text)
    (params : π) (uuid : Text) : (t.emit payloads event channel params uuid).Sound i log := by
  rw [Instance.emit]
  split
  · exact h
  · split
    · exact h
    · split
      · refine ⟨h.represents, h.follows, h.away, ?_, h.frames⟩
        rw [← List.append_assoc]
        exact h.origin.append_right _
      · exact h.propagate ..

theorem Instance.Sound.receive (h : t.Sound i log) {x : ℕ × RedisMessage} {rest : List (ℕ × RedisMessage)}
    (hwaiting : t.reader.waiting = x :: rest) :
    ({ t.handle x.2 with reader := t.reader.take x rest } : Instance).Sound i log := by
  obtain ⟨frames, heq, hframes⟩ := propagate_frames h.represents true x.2.event (channelName x.2.channel) x.2.message
    x.2.excludeUuid
  rw [handle, heq]
  refine ⟨h.represents, fun hs => (h.follows hs).take hwaiting, fun hs => ?_, h.origin, fun ws => ?_⟩
  · rw [(h.away hs).waiting] at hwaiting
    cases hwaiting
  · have hone : relayedTo ws frames <+ [x.2.message] := by
      rw [relayedTo_of_filter (hframes ws)]
      split
      · exact .refl _
      · exact List.nil_sublist _
    rw [relayedTo_append, Reader.all, Reader.take, ← List.append_assoc, List.map_append]
    exact (h.frames ws).append hone

/-- A reader comes or goes. -/
theorem Instance.Sound.move (h : t.Sound i log) {r : Reader (ℕ × RedisMessage)} (hall : r.all = t.reader.all)
    (hfollows : t'.subscribed = true → r.Follows log) (haway : t'.subscribed = false → r.Away log)
    (hrooms : t'.rooms = t.rooms) (hreader : t'.reader = r) (houtbox : t'.outbox <+ t.outbox)
    (hemitted : t'.emitted = t.emitted) (hsent : t'.sent = t.sent) : t'.Sound i log := by
  subst hreader
  refine ⟨hrooms ▸ h.represents, hfollows, haway, ?_, fun ws => ?_⟩
  · rw [hemitted]
    exact (houtbox.append_left _).trans h.origin
  · rw [hsent, hall]
    exact h.frames ws

theorem all_leave (r : Reader (ℕ × RedisMessage)) : r.leave.all = r.all := List.append_nil _

theorem all_enter (r : Reader (ℕ × RedisMessage)) : (r.enter log).all = r.all := List.append_nil _

/-- The broker has accepted a message of another server, or this one's next. -/
theorem Instance.Sound.pass (h : t.Sound i log) (x : ℕ × RedisMessage) {outbox : List RedisMessage}
    (houtbox : sentBy i [x] ++ outbox = t.outbox) :
    (if t.subscribed then { t with outbox := outbox, reader := t.reader.pass x }
      else { t with outbox := outbox } : Instance).Sound i (log ++ [x]) := by
  have horigin : sentBy i (log ++ [x]) ++ outbox <+ t.emitted := by
    rw [sentBy_append, List.append_assoc, houtbox]
    exact h.origin
  split
  · next hs =>
    exact ⟨h.represents, fun _ => (h.follows hs).pass x, fun hs' => Bool.noConfusion (hs.symm.trans hs'), horigin,
      h.frames⟩
  · next hs =>
    exact ⟨h.represents, fun hs' => absurd hs' hs, fun hs' => (h.away hs').pass x, horigin, h.frames⟩

/-- What holds of every server. -/
def State.Sound (s : State) : Prop := ∀ i, (s.servers i).Sound i s.log

variable {π : Type} {payloads : Payloads π} {s s' : State}

theorem State.Sound.update (hs : s.Sound) {j : ℕ} {f : Instance → Instance}
    (h : (f (s.servers j)).Sound j s.log) : (s.update j f).Sound := by
  intro i
  by_cases hi : i = j
  · subst hi
    rw [s.update_self]
    exact h
  · rw [s.update_of_ne hi]
    exact hs i

theorem State.Sound.accept (hs : s.Sound) {i : ℕ} {m : RedisMessage} {rest : List RedisMessage}
    (houtbox : (s.servers i).outbox = m :: rest) : (s.accept i m rest).Sound := by
  intro j
  by_cases hj : j = i
  · subst hj
    have hsent : sentBy j [(j, m)] ++ rest = (s.servers j).outbox := by simp [sentBy, houtbox]
    have hpass := (hs j).pass (j, m) hsent
    simpa only [State.accept, if_pos] using hpass
  · have hsent : sentBy j [(i, m)] ++ (s.servers j).outbox = (s.servers j).outbox := by simp [sentBy, Ne.symm hj]
    have hpass := (hs j).pass (i, m) hsent
    simpa only [State.accept, if_neg hj] using hpass

theorem sound_step (hs : s.Sound) {a : Action π} (hstep : step payloads s a = some s') : s'.Sound := by
  cases a with
  | emit i event channel params uuid =>
    cases hstep
    exact hs.update ((hs i).emit payloads event channel params uuid)
  | accept i =>
    rw [step] at hstep
    split at hstep
    · cases hstep
    · next m rest houtbox =>
      cases hstep
      exact hs.accept houtbox
  | reject i =>
    rw [step] at hstep
    split at hstep
    · cases hstep
    · next m rest houtbox =>
      cases hstep
      exact hs.update ((hs i).move rfl (hs i).follows (hs i).away rfl rfl (houtbox ▸ List.sublist_cons_self ..) rfl rfl)
  | receive j =>
    rw [step] at hstep
    split at hstep
    · cases hstep
    · next x rest hwaiting =>
      cases hstep
      exact hs.update ((hs j).receive hwaiting)
  | subscribe j =>
    obtain ⟨-, heq⟩ := Option.ite_none_right_eq_some.mp hstep
    cases heq
    refine hs.update ((hs j).move (all_enter _) (fun _ => Reader.follows_enter (hs j).all_sublist) ?_ rfl rfl
      (.refl _) rfl rfl)
    exact fun h => Bool.noConfusion h
  | disconnect j =>
    cases hstep
    refine hs.update ((hs j).move (all_leave _) (fun h => ?_) (fun _ => Reader.away_leave (hs j).all_sublist) rfl rfl
      (.refl _) rfl rfl)
    exact Bool.noConfusion h
  | close j =>
    cases hstep
    refine hs.update ((hs j).move (all_leave _) (fun h => ?_) (fun _ => Reader.away_leave (hs j).all_sublist) rfl rfl
      (List.nil_sublist _) rfl rfl)
    exact Bool.noConfusion h
  | addEvent j name event =>
    cases hstep
    exact hs.update ((hs j).frame (hs j).represents rfl rfl rfl rfl fun _ => rfl)
  | deleteEvent j name =>
    cases hstep
    exact hs.update ((hs j).frame (hs j).represents rfl rfl rfl rfl fun _ => rfl)
  | rooms j op =>
    cases hstep
    exact hs.update ((hs j).frame ((hs j).represents.perform op) rfl rfl rfl rfl fun _ => rfl)
  | ready j ws isOpen =>
    cases hstep
    exact hs.update ((hs j).frame (hs j).represents rfl rfl rfl rfl fun _ => rfl)
  | client j uuid ws =>
    cases hstep
    exact hs.update ((hs j).frame (hs j).represents rfl rfl rfl rfl fun _ => rfl)

theorem sound_init (redis : ℕ → Bool) : (cluster payloads redis).init.Sound := fun _ =>
  ⟨represents_after [], fun h => Bool.noConfusion h, fun _ => Reader.away_init, .refl _, fun _ => .refl _⟩

theorem sound_of_reach {redis : ℕ → Bool} {ok : State → Action π → Prop}
    (h : (cluster payloads redis).Reach ok s) : s.Sound :=
  h.invariant State.Sound (sound_init redis) fun _ _ _ hs _ => sound_step hs

/-! ## What a cluster promises -/

/-- The order of the broker is the order of all sockets, and nothing is relayed that was not emitted. -/
structure InOrder (s : State) : Prop where
  origin (i : ℕ) : sentBy i s.log ++ (s.servers i).outbox <+ (s.servers i).emitted
  taken (j : ℕ) : (s.servers j).reader.all <+ s.log
  rest (j : ℕ) : (s.servers j).subscribed = true →
    (s.servers j).reader.taken ++ (s.servers j).reader.waiting = s.log.drop (s.servers j).reader.since
  frames (j ws : ℕ) : relayedTo ws (s.servers j).sent <+ (s.servers j).reader.all.map fun x => x.2.message

/-- **Sockets see one order.** In every run each socket, on whatever server, is sent the events that were relayed as a
part of one sequence, in which those of each server come in the order they were emitted in, and none comes twice. -/
theorem cluster_in_order (payloads : Payloads π) (redis : ℕ → Bool) {s : State}
    (h : (cluster payloads redis).Reach anyStep s) : InOrder s := by
  have hs := sound_of_reach h
  exact ⟨fun i => (hs i).origin, fun j => (hs j).all_sublist, fun j hj => ((hs j).follows hj).after,
    fun j => (hs j).frames⟩

theorem propagate_outbox (t : Instance) (relayed : Bool) (event channel payload : Text) (excludeUuid : Option Text) :
    (t.propagate relayed event channel payload excludeUuid).outbox = t.outbox ∧
      (t.propagate relayed event channel payload excludeUuid).emitted = t.emitted := by
  rw [Instance.propagate]
  split <;> exact ⟨rfl, rfl⟩

/-- What a subscriber does with a message. -/
structure Relays (s s' : State) (j : ℕ) (m : RedisMessage) : Prop where
  /-- Nothing is published. -/
  log : s'.log = s.log
  outbox (i : ℕ) : (s'.servers i).outbox = (s.servers i).outbox
  others (i : ℕ) : i ≠ j → s'.servers i = s.servers i
  /-- The sockets that are sent the message, each of them once. -/
  frames : ∃ frames, (s'.servers j).sent = (s.servers j).sent ++ frames ∧ ∀ ws,
    (Receives (s.servers j) m.event (Instance.channelName m.channel) m.excludeUuid ws →
      frames.filter (fun f => f.socket = ws) = [⟨ws, m.message, true⟩]) ∧
    (¬Receives (s.servers j) m.event (Instance.channelName m.channel) m.excludeUuid ws →
      frames.filter (fun f => f.socket = ws) = [])

/-- **A relayed event is sent and not published again.** -/
theorem receive_relays (payloads : Payloads π) (redis : ℕ → Bool) {s : State}
    (h : (cluster payloads redis).Reach anyStep s) {j : ℕ} {x : ℕ × RedisMessage} {rest : List (ℕ × RedisMessage)}
    (hwaiting : (s.servers j).reader.waiting = x :: rest) {s' : State}
    (hstep : step payloads s (.receive j) = some s') : Relays s s' j x.2 := by
  obtain ⟨frames, heq, hframes⟩ := propagate_frames (sound_of_reach h j).represents true x.2.event
    (Instance.channelName x.2.channel) x.2.message x.2.excludeUuid
  rw [step, hwaiting] at hstep
  cases hstep
  refine ⟨rfl, fun i => ?_, fun i hi => s.update_of_ne hi _, frames, ?_, fun ws => ⟨fun hr => ?_, fun hr => ?_⟩⟩
  · by_cases hi : i = j
    · subst hi
      rw [s.update_self]
      exact (propagate_outbox ..).1
    · rw [s.update_of_ne hi]
  · rw [s.update_self, Instance.handle, heq]
  · rw [hframes, if_pos hr]
  · rw [hframes, if_neg hr]

/-- The broker takes everything and loses nobody. -/
def Lossless : Action π → Prop
  | .reject _ | .disconnect _ | .close _ => False
  | _ => True

instance : (a : Action π) → Decidable (Lossless a)
  | .reject _ | .disconnect _ | .close _ => isFalse id
  | .emit .. | .accept _ | .receive _ | .subscribe _ | .addEvent .. | .deleteEvent .. | .rooms .. | .ready ..
  | .client .. => isTrue trivial

/-- Everything that was emitted is with the broker or on the way to it. -/
def Complete (s : State) : Prop := ∀ i, sentBy i s.log ++ (s.servers i).outbox = (s.servers i).emitted

theorem Complete.update (hs : Complete s) {j : ℕ} {f : Instance → Instance}
    (h : ∃ ms, (f (s.servers j)).outbox = (s.servers j).outbox ++ ms ∧
      (f (s.servers j)).emitted = (s.servers j).emitted ++ ms) : Complete (s.update j f) := by
  intro i
  by_cases hi : i = j
  · subst hi
    obtain ⟨ms, houtbox, hemitted⟩ := h
    rw [s.update_self, houtbox, hemitted, ← hs i, List.append_assoc]
    rfl
  · rw [s.update_of_ne hi]
    exact hs i

theorem Complete.same (hs : Complete s) {j : ℕ} {f : Instance → Instance}
    (houtbox : (f (s.servers j)).outbox = (s.servers j).outbox)
    (hemitted : (f (s.servers j)).emitted = (s.servers j).emitted) : Complete (s.update j f) :=
  hs.update ⟨[], by rw [houtbox, List.append_nil], by rw [hemitted, List.append_nil]⟩

theorem emit_outbox (t : Instance) (event channel : Text) (params : π) (uuid : Text) :
    ∃ ms, (t.emit payloads event channel params uuid).outbox = t.outbox ++ ms ∧
      (t.emit payloads event channel params uuid).emitted = t.emitted ++ ms := by
  have hnone : ∃ ms : List RedisMessage, t.outbox = t.outbox ++ ms ∧ t.emitted = t.emitted ++ ms :=
    ⟨[], (List.append_nil _).symm, (List.append_nil _).symm⟩
  rw [Instance.emit]
  split
  · exact hnone
  · split
    · exact hnone
    · split
      · exact ⟨_, rfl, rfl⟩
      · obtain ⟨houtbox, hemitted⟩ := propagate_outbox t false _ _ _ _
        rw [houtbox, hemitted]
        exact hnone

theorem Complete.accept (hs : Complete s) {i : ℕ} {m : RedisMessage} {rest : List RedisMessage}
    (houtbox : (s.servers i).outbox = m :: rest) : Complete (s.accept i m rest) := by
  intro j
  obtain ⟨hrest, hemitted⟩ := s.accept_outbox i m rest j
  have hlog : (s.accept i m rest).log = s.log ++ [(i, m)] := rfl
  rw [hrest, hemitted, hlog, sentBy_append, ← hs j]
  by_cases hj : j = i
  · subst hj
    simp [sentBy, houtbox]
  · simp [sentBy, hj, Ne.symm hj]

theorem complete_step (hs : Complete s) {a : Action π} (ha : Lossless a)
    (hstep : step payloads s a = some s') : Complete s' := by
  cases a with
  | emit i event channel params uuid =>
    cases hstep
    exact hs.update (emit_outbox ..)
  | accept i =>
    rw [step] at hstep
    split at hstep
    · cases hstep
    · next m rest houtbox =>
      cases hstep
      exact hs.accept houtbox
  | reject i => exact ha.elim
  | receive j =>
    rw [step] at hstep
    split at hstep
    · cases hstep
    · next x rest hwaiting =>
      cases hstep
      exact hs.same (propagate_outbox ..).1 (propagate_outbox ..).2
  | subscribe j =>
    obtain ⟨-, heq⟩ := Option.ite_none_right_eq_some.mp hstep
    cases heq
    exact hs.same rfl rfl
  | disconnect j => exact ha.elim
  | close j => exact ha.elim
  | _ =>
    cases hstep
    exact hs.same rfl rfl

/-- **Every event arrives once.** Where the broker takes everything and loses nobody, a server that has been subscribed
from the first message on has handled, of the clustered events of each server, all but those on their way. -/
theorem cluster_exactly_once (payloads : Payloads π) (redis : ℕ → Bool) {s : State}
    (h : (cluster payloads redis).Reach (fun _ a => Lossless a) s) {j : ℕ} (hj : (s.servers j).subscribed = true)
    (hfirst : (s.servers j).reader.since = 0) (i : ℕ) :
    sentBy i (s.servers j).reader.taken ++ sentBy i (s.servers j).reader.waiting ++ (s.servers i).outbox =
      (s.servers i).emitted := by
  have hcomplete : Complete s := h.invariant Complete (fun _ => rfl) fun _ _ _ hs ha => complete_step hs ha
  have hafter := ((sound_of_reach h j).follows hj).after
  rw [hfirst, List.drop_zero] at hafter
  rw [← sentBy_append, hafter, hcomplete i]

/-! ## A run -/

/-- Events without parameters. -/
def bare : Payloads Unit where
  encode uuid event channel _ :=
    js "\x7b\"t\":\"event\",\"uuid\":\"" ++ uuid ++ js "\",\"event\":\"" ++ event ++ js "\",\"channel\":\"" ++ channel ++
      js "\"\x7d"
  uuid _ := some none

/-- A client of the second server is in the room of an event that the first server emits. -/
def relay : List (Action Unit) := [
  .addEvent 0 (js "saved") ⟨true, false⟩,
  .addEvent 1 (js "saved") ⟨true, false⟩,
  .subscribe 0,
  .subscribe 1,
  .ready 1 7 true,
  .rooms 1 (.join 7 (getRoomName (js "docs") (js "saved"))),
  .emit 0 (js "saved") (js "docs") () (js "u1"),
  .accept 0]

theorem relay_in_order : ∃ s, (s.servers 0).emitted ≠ [] ∧ InOrder s := by
  have hreach : (cluster bare fun _ => true).Reach anyStep _ := Machine.steps_of_exec relay rfl
  exact ⟨_, by decide +kernel, cluster_in_order bare _ hreach⟩

theorem relay_exactly_once : ∃ s : State, (s.servers 0).emitted ≠ [] ∧
    sentBy 0 (s.servers 1).reader.taken ++ sentBy 0 (s.servers 1).reader.waiting ++ (s.servers 0).outbox =
      (s.servers 0).emitted := by
  have hreach : (cluster bare fun _ => true).Reach (fun _ a => Lossless a) _ := Machine.steps_of_exec relay rfl
  exact ⟨_, by decide +kernel, cluster_exactly_once bare _ hreach rfl rfl 0⟩

theorem relay_received : ∃ (s s' : State) (m : RedisMessage), Receives (s.servers 1) (js "saved") (js "docs") none 7 ∧ Relays s s' 1 m := by
  have hreach : (cluster bare fun _ => true).Reach anyStep _ := Machine.steps_of_exec relay rfl
  exact ⟨_, _, _, ⟨by decide +kernel, by decide +kernel, rfl, nofun⟩, receive_relays bare _ hreach rfl rfl⟩

end TypeFerry.Server.Cluster
