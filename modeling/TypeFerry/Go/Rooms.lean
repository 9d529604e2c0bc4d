import TypeFerry.Lib.Index
import TypeFerry.Lib.Numeral
import TypeFerry.Lib.Runs

/-! # Rooms of the Go server

`Server` of the Go port: its clients, the rooms they are in and the subscriptions that are
under way. Each section under the lock is one step. A subscription reads under the lock, asks
without it and enters the room under it again, once for every event; what the callbacks and the
client answer in between comes with the step. A client is known by its pointer. -/
namespace TypeFerry.Go.Rooms
open TypeFerry.Lib.Numeral TypeFerry.Lib.OrderedMap TypeFerry.Lib.Index TypeFerry.Lib.Runs

abbrev Ptr := ℕ

/-- `shouldSubscribe` says whether the application gave a function of its own. -/
structure EventOptions where
  isProtected : Bool
  user : Bool
  shouldSubscribe : Bool
  deriving DecidableEq

/-- Where a subscription is with its next event. -/
inductive Stage where
  | reading
  | deciding (entry : Option EventOptions) (channelAuthorization : Bool)
  | committing (allowed : Bool)
  deriving DecidableEq

/-- A call of `subscriptionResult`. -/
structure Subscription where
  client : Ptr
  subscribe : Bool
  channel : Text
  /-- the events that are left -/
  names : List Text
  stage : Stage
  fields : List (Text × Bool)
  deriving DecidableEq

structure Server where
  closed : Bool
  clients : OMap Text Ptr
  rooms : SetMap Text Ptr
  clientRooms : SetMap Ptr Text
  events : OMap Text EventOptions
  /-- Whether the application authorizes channels. -/
  channelAuthorization : Bool
  subscriptions : List Subscription

def NewServer : Server := ⟨false, OMap.empty, OMap.empty, OMap.empty, OMap.empty, false, []⟩

def roomName (channel eventName : Text) : Text := js "typeferry:" ++ channel ++ js ":" ++ eventName

/-- What is answered to a subscription while the server is not locked. -/
structure Answers where
  /-- The client has a socket. -/
  socket : Bool
  channelAuthorization : Bool
  authenticated : Bool
  userID : Text
  shouldSubscribe : Bool

def allowed (subscribe : Bool) (channel : Text) (entry : Option EventOptions) (channelAuthorization : Bool)
    (answers : Answers) : Bool :=
  match entry with
  | none => false
  | some options =>
    if subscribe then
      answers.socket && (!channelAuthorization || answers.channelAuthorization) &&
        (!(options.isProtected || options.user) || answers.authenticated) &&
        (!(options.user && !options.shouldSubscribe) || channel = answers.userID) &&
        (!options.shouldSubscribe || answers.shouldSubscribe)
    else true

namespace Server
variable (ID : Ptr → Text)

def joinLocked (s : Server) (client : Ptr) (room : Text) : Server :=
  { s with rooms := s.rooms.add room client, clientRooms := SetMap.add s.clientRooms client room }

def leaveLocked (s : Server) (client : Ptr) (room : Text) : Server :=
  { s with rooms := s.rooms.drop room client, clientRooms := SetMap.drop s.clientRooms client room }

def roomsOf (s : Server) (client : Ptr) : List Text :=
  ((s.clientRooms.get client).getD OMap.empty).entries.map Prod.fst

def leaveAllLocked (range : RangeOrder Text) (s : Server) (client : Ptr) : Server :=
  (range.order (s.roomsOf client)).foldl (fun s room => s.leaveLocked client room) s

def addClient (range : RangeOrder Text) (s : Server) (client : Ptr) : Server :=
  if s.closed then s
  else
    let previous := s.clients.get (ID client)
    let s := { s with clients := s.clients.set (ID client) client }
    match previous with
    | none => s
    | some previous => if previous = client then s else s.leaveAllLocked range previous

def deleteClient (range : RangeOrder Text) (s : Server) (client : Ptr) : Server :=
  let s := s.leaveAllLocked range client
  if s.clients.get (ID client) = some client then { s with clients := s.clients.delete (ID client) } else s

/-- Only the first call does anything. -/
def close (s : Server) : Server :=
  if s.closed then s
  else { s with closed := true, clients := OMap.empty, rooms := OMap.empty, clientRooms := OMap.empty }

def addEvent (s : Server) (name : Text) (options : EventOptions) : Server :=
  if name = [] ∨ s.closed = true then s else { s with events := s.events.set name options }

/-- The locked section of a subscription. -/
def commit (s : Server) (call : Subscription) (name : Text) (allowed : Bool) : Server × Bool :=
  let allowed := allowed && !s.closed && decide (s.clients.get (ID call.client) = some call.client)
  (if call.subscribe then
      if allowed then s.joinLocked call.client (roomName call.channel name) else s
    else s.leaveLocked call.client (roomName call.channel name), allowed)

def setSubscription (s : Server) (i : ℕ) (call : Subscription) : Server :=
  { s with subscriptions := s.subscriptions.set i call }

/-- The next step of a subscription. The answers that it does not ask for do not matter. -/
def resume (s : Server) (i : ℕ) (answers : Answers) : Option Server :=
  match s.subscriptions[i]? with
  | none => none
  | some call =>
    match call.stage, call.names with
    | _, [] => none
    | .reading, name :: _ =>
      some (s.setSubscription i { call with stage := .deciding (s.events.get name) s.channelAuthorization })
    | .deciding entry channelAuthorization, _ :: _ =>
      let allowed := allowed call.subscribe call.channel entry channelAuthorization answers
      some (s.setSubscription i { call with stage := .committing allowed })
    | .committing allowed, name :: names =>
      let (s, allowed) := if answers.socket then s.commit ID call name allowed else (s, allowed)
      some (s.setSubscription i
        { call with names, stage := .reading, fields := call.fields ++ [(name, allowed)] })

end Server

inductive Action where
  | addClient (client : Ptr) (range : RangeOrder Text)
  | deleteClient (client : Ptr) (range : RangeOrder Text)
  | close
  | addEvent (name : Text) (options : EventOptions)
  | setChannelAuthorization (check : Bool)
  /-- `subscriptionResult` is called. -/
  | subscription (client : Ptr) (subscribe : Bool) (channel : Text) (names : List Text)
  | resume (i : ℕ) (answers : Answers)

variable (ID : Ptr → Text)

def step (s : Server) : Action → Option Server
  | .addClient client range => some (s.addClient ID range client)
  | .deleteClient client range => some (s.deleteClient ID range client)
  | .close => some s.close
  | .addEvent name options => some (s.addEvent name options)
  | .setChannelAuthorization check => some { s with channelAuthorization := check }
  | .subscription client subscribe channel names =>
    some { s with subscriptions := s.subscriptions ++ [⟨client, subscribe, channel, names, .reading, []⟩] }
  | .resume i answers => s.resume ID i answers

def machine : Machine Server Action := ⟨NewServer, step ID⟩

/-! ## What every step keeps -/

/-- Whoever is in a room is registered, and the server is open. -/
structure Inv (s : Server) : Prop where
  inverse : Inverse s.rooms s.clientRooms
  keyed : ∀ {id client}, s.clients.get id = some client → ID client = id
  registered : ∀ {room client}, SetMap.Mem s.rooms room client →
    s.clients.get (ID client) = some client ∧ s.closed = false

/-- Nobody has come into a room. -/
structure Fewer (s s' : Server) : Prop where
  inverse : Inverse s.rooms s.clientRooms → Inverse s'.rooms s'.clientRooms
  mem : ∀ {room client}, SetMap.Mem s'.rooms room client → SetMap.Mem s.rooms room client
  clients : s'.clients = s.clients
  closed : s'.closed = s.closed

variable {ID} {s s' s'' : Server} {client client' : Ptr} {room : Text}

theorem Fewer.refl : Fewer s s := ⟨id, id, rfl, rfl⟩

theorem Fewer.trans (h : Fewer s s') (h' : Fewer s' s'') : Fewer s s'' where
  inverse hs := h'.inverse (h.inverse hs)
  mem hmem := h.mem (h'.mem hmem)
  clients := h'.clients.trans h.clients
  closed := h'.closed.trans h.closed

theorem Inv.fewer (h : Inv ID s) (hf : Fewer s s') : Inv ID s' := by
  refine ⟨hf.inverse h.inverse, by rw [hf.clients]; exact h.keyed, fun hmem => ?_⟩
  rw [hf.clients, hf.closed]
  exact h.registered (hf.mem hmem)

theorem fewer_leaveLocked : Fewer s (s.leaveLocked client room) where
  inverse h := h.drop room client
  mem hmem := (SetMap.mem_drop.mp hmem).1
  clients := rfl
  closed := rfl

theorem fewer_leaveRooms (client : Ptr) : ∀ (rooms : List Text) (s : Server),
    Fewer s (rooms.foldl (fun s room => s.leaveLocked client room) s)
  | [], _ => .refl
  | _ :: rooms, _ => fewer_leaveLocked.trans (fewer_leaveRooms client rooms _)

theorem not_mem_leaveRooms : ∀ (rooms : List Text) (s : Server), room ∈ rooms →
    ¬ SetMap.Mem (rooms.foldl (fun s room => s.leaveLocked client room) s).rooms room client
  | room' :: rooms, s, hroom, hmem => by
    rcases List.mem_cons.mp hroom with rfl | hroom
    · exact (SetMap.mem_drop.mp ((fewer_leaveRooms client rooms _).mem hmem)).2 ⟨rfl, rfl⟩
    · exact not_mem_leaveRooms rooms _ hroom hmem

theorem mem_roomsOf : room ∈ s.roomsOf client ↔ SetMap.Mem s.clientRooms client room := by
  rw [Server.roomsOf, SetMap.Mem, List.mem_map]
  constructor
  · rintro ⟨e, he, rfl⟩
    cases hget : s.clientRooms.get client with
    | none => rw [hget] at he; cases he
    | some rooms =>
      rw [hget] at he
      exact ⟨rooms, rfl, OMap.get_eq_some.mpr he⟩
  · rintro ⟨rooms, hrooms, hroom⟩
    rw [hrooms]
    exact ⟨(room, ()), OMap.get_eq_some.mp hroom, rfl⟩

/-- The rooms to leave are found from the side of the client. -/
theorem leaveAllLocked_spec (h : Inverse s.rooms s.clientRooms) (range : RangeOrder Text) (client : Ptr) :
    Fewer s (s.leaveAllLocked range client) ∧
      ∀ room, ¬ SetMap.Mem (s.leaveAllLocked range client).rooms room client := by
  refine ⟨fewer_leaveRooms client _ s, fun room hmem => not_mem_leaveRooms _ s ?_ hmem⟩
  rw [(range.perm _).mem_iff, mem_roomsOf, ← h.mem]
  exact (fewer_leaveRooms client _ s).mem hmem

theorem Inv.addClient (h : Inv ID s) (range : RangeOrder Text) (client : Ptr) :
    Inv ID (s.addClient ID range client) := by
  rw [Server.addClient]
  split
  · exact h
  · next hclosed =>
    -- Who is in a room and is not replaced is registered still.
    have hset : ∀ {room client'}, SetMap.Mem s.rooms room client' → s.clients.get (ID client) ≠ some client' ∨
        client' = client → (s.clients.set (ID client) client).get (ID client') = some client' := by
      intro room client' hmem hor
      rw [OMap.get_set]
      split
      · next hID =>
        rcases hor with hne | rfl
        · exact absurd (hID ▸ (h.registered hmem).1) hne
        · rfl
      · exact (h.registered hmem).1
    have hkeyed : ∀ {id client'}, (s.clients.set (ID client) client).get id = some client' → ID client' = id := by
      intro id client' hget
      rw [OMap.get_set] at hget
      split at hget
      · next hid => rw [← Option.some.inj hget, hid]
      · exact h.keyed hget
    have hopen : s.closed = false := Bool.not_eq_true _ ▸ hclosed
    dsimp only
    cases hprevious : s.clients.get (ID client) with
    | none => exact ⟨h.inverse, hkeyed, fun hmem => ⟨hset hmem (.inl (by simp [hprevious])), hopen⟩⟩
    | some previous =>
      dsimp only
      split
      · next heq =>
        refine ⟨h.inverse, hkeyed, fun {room client'} hmem => ⟨hset hmem ?_, hopen⟩⟩
        by_cases hc : client' = client
        · exact .inr hc
        · exact .inl fun hsome => hc (by rw [← heq, ← Option.some.inj (hprevious.symm.trans hsome)])
      · obtain ⟨hfewer, hleft⟩ := leaveAllLocked_spec
          (s := { s with clients := s.clients.set (ID client) client }) h.inverse range previous
        refine ⟨hfewer.inverse h.inverse, by rw [hfewer.clients]; exact hkeyed, fun {room client'} hmem => ?_⟩
        rw [hfewer.clients, hfewer.closed]
        refine ⟨hset (hfewer.mem hmem) (.inl fun hsome => ?_), hopen⟩
        obtain rfl := Option.some.inj (hprevious.symm.trans hsome)
        exact hleft room hmem

theorem Inv.deleteClient (h : Inv ID s) (range : RangeOrder Text) (client : Ptr) :
    Inv ID (s.deleteClient ID range client) := by
  obtain ⟨hfewer, hleft⟩ := leaveAllLocked_spec h.inverse range client
  rw [Server.deleteClient]
  split
  · next hcurrent =>
    refine ⟨hfewer.inverse h.inverse, fun {id client'} hget => ?_, fun {room client'} hmem => ?_⟩
    · rw [OMap.get_delete] at hget
      split at hget
      · cases hget
      · exact (h.fewer hfewer).keyed hget
    have hregistered := (h.fewer hfewer).registered hmem
    refine ⟨?_, hregistered.2⟩
    rw [OMap.get_delete, if_neg fun hID => ?_]
    · exact hregistered.1
    · obtain rfl := Option.some.inj (hcurrent.symm.trans (hID ▸ hregistered.1))
      exact hleft room hmem
  · exact h.fewer hfewer

theorem Inv.close (h : Inv ID s) : Inv ID s.close := by
  rw [Server.close]
  split
  · exact h
  · exact ⟨.empty, fun hget => (by cases hget), fun hmem => absurd hmem SetMap.not_mem_empty⟩

theorem Inv.commit (h : Inv ID s) (call : Subscription) (name : Text) (allowed : Bool) :
    Inv ID (s.commit ID call name allowed).1 := by
  rw [Server.commit]
  dsimp only
  split
  · split
    · next hallowed =>
      simp only [Bool.and_eq_true, Bool.not_eq_true', decide_eq_true_eq] at hallowed
      refine ⟨h.inverse.add _ _, h.keyed, fun {room client'} hmem => ?_⟩
      rcases SetMap.mem_add.mp hmem with hmem | ⟨-, rfl⟩
      · exact h.registered hmem
      · exact ⟨hallowed.2, hallowed.1.2⟩
    · exact h
  · exact h.fewer fewer_leaveLocked

/-- But for the locked section, a subscription changes nothing that others see. -/
theorem resume_cases {i : ℕ} {answers : Answers} (hs : s.resume ID i answers = some s') :
    ∃ t, (t = s ∨ ∃ call name allowed, t = (s.commit ID call name allowed).1) ∧ Fewer t s' := by
  rw [Server.resume] at hs
  split at hs
  · cases hs
  · next call hcall =>
    split at hs
    · cases hs
    · obtain rfl := Option.some.inj hs
      exact ⟨s, .inl rfl, id, id, rfl, rfl⟩
    · obtain rfl := Option.some.inj hs
      exact ⟨s, .inl rfl, id, id, rfl, rfl⟩
    · next allowed name names _ _ =>
      by_cases hsocket : answers.socket = true
      · rw [if_pos hsocket] at hs
        obtain rfl := Option.some.inj hs
        exact ⟨(s.commit ID call name allowed).1, .inr ⟨call, name, allowed, rfl⟩, id, id, rfl, rfl⟩
      · rw [if_neg hsocket] at hs
        obtain rfl := Option.some.inj hs
        exact ⟨s, .inl rfl, id, id, rfl, rfl⟩

theorem Inv.step {a : Action} (h : Inv ID s) (hs : step ID s a = some s') : Inv ID s' := by
  cases a with
  | resume i answers =>
    obtain ⟨t, rfl | ⟨call, name, allowed, rfl⟩, hfewer⟩ := resume_cases hs
    · exact h.fewer hfewer
    · exact (h.commit call name allowed).fewer hfewer
  | addClient client range =>
    obtain rfl := Option.some.inj hs
    exact h.addClient range client
  | deleteClient client range =>
    obtain rfl := Option.some.inj hs
    exact h.deleteClient range client
  | close =>
    obtain rfl := Option.some.inj hs
    exact h.close
  | addEvent name options =>
    obtain rfl := Option.some.inj hs
    rw [Server.addEvent]
    split
    · exact h
    · exact h.fewer ⟨id, id, rfl, rfl⟩
  | setChannelAuthorization check =>
    obtain rfl := Option.some.inj hs
    exact h.fewer ⟨id, id, rfl, rfl⟩
  | subscription client subscribe channel names =>
    obtain rfl := Option.some.inj hs
    exact h.fewer ⟨id, id, rfl, rfl⟩

theorem inv_reach (h : (machine ID).Reach anyStep s) : Inv ID s :=
  h.invariant (Inv ID) ⟨.empty, fun hget => (by cases hget), fun hmem => absurd hmem SetMap.not_mem_empty⟩
    fun _ _ _ hinv _ hs => hinv.step hs

/-! ## Clients that are gone -/

/-- The client is not registered, or the server is closed. -/
def Gone (ID : Ptr → Text) (s : Server) (client : Ptr) : Prop :=
  s.closed = true ∨ s.clients.get (ID client) ≠ some client

theorem Inv.gone (h : Inv ID s) (hgone : Gone ID s client) (room : Text) :
    ¬ SetMap.Mem s.rooms room client ∧ ¬ SetMap.Mem s.clientRooms client room := by
  have hnot : ¬ SetMap.Mem s.rooms room client := fun hmem => by
    obtain ⟨hclient, hopen⟩ := h.registered hmem
    rcases hgone with hclosed | hne
    · rw [hopen] at hclosed
      cases hclosed
    · exact hne hclient
  exact ⟨hnot, mt (h.inverse.mem room client).mpr hnot⟩

theorem Gone.of_eq (h : Gone ID s client) (hclosed : s'.closed = s.closed) (hclients : s'.clients = s.clients) :
    Gone ID s' client := by
  rw [Gone, hclosed, hclients]
  exact h

theorem clients_leaveAllLocked (range : RangeOrder Text) (client : Ptr) :
    (s.leaveAllLocked range client).clients = s.clients := (fewer_leaveRooms client _ s).clients

theorem closed_leaveAllLocked (range : RangeOrder Text) (client : Ptr) :
    (s.leaveAllLocked range client).closed = s.closed := (fewer_leaveRooms client _ s).closed

/-- Only the client that is added comes back. -/
theorem Gone.addClient (h : Gone ID s client) (range : RangeOrder Text) (hne : client' ≠ client) :
    Gone ID (s.addClient ID range client') client := by
  rw [Server.addClient]
  split
  · exact h
  · next hclosed =>
    have hset : Gone ID { s with clients := s.clients.set (ID client') client' } client := by
      refine .inr ?_
      dsimp only
      rw [OMap.get_set]
      split
      · simpa using hne
      · exact h.resolve_left hclosed
    dsimp only
    split
    · exact hset
    · split
      · exact hset
      · exact hset.of_eq (closed_leaveAllLocked ..) (clients_leaveAllLocked ..)

theorem Gone.deleteClient (h : Gone ID s client) (range : RangeOrder Text) (client' : Ptr) :
    Gone ID (s.deleteClient ID range client') client := by
  have hleft : Gone ID (s.leaveAllLocked range client') client :=
    h.of_eq (closed_leaveAllLocked ..) (clients_leaveAllLocked ..)
  rw [Server.deleteClient]
  split
  · refine hleft.imp_right fun hne => ?_
    dsimp only
    rw [OMap.get_delete]
    split
    · exact (Option.some_ne_none _).symm
    · exact hne
  · exact hleft

theorem gone_commit (h : Gone ID s client) (call : Subscription) (name : Text) (allowed : Bool) :
    Gone ID (s.commit ID call name allowed).1 client := by
  rw [Server.commit]
  dsimp only
  split
  · split <;> exact h
  · exact h

theorem Gone.step {a : Action} (h : Gone ID s client) (ha : ∀ range, a ≠ .addClient client range)
    (hs : step ID s a = some s') : Gone ID s' client := by
  cases a with
  | resume i answers =>
    obtain ⟨t, rfl | ⟨call, name, allowed, rfl⟩, hfewer⟩ := resume_cases hs
    · exact h.of_eq hfewer.closed hfewer.clients
    · exact (gone_commit h call name allowed).of_eq hfewer.closed hfewer.clients
  | addClient client' range =>
    obtain rfl := Option.some.inj hs
    exact h.addClient range fun heq => ha range (heq ▸ rfl)
  | deleteClient client' range =>
    obtain rfl := Option.some.inj hs
    exact h.deleteClient range client'
  | close =>
    obtain rfl := Option.some.inj hs
    rw [Server.close]
    split
    · exact h
    · exact .inl rfl
  | addEvent name options =>
    obtain rfl := Option.some.inj hs
    rw [Server.addEvent]
    split <;> exact h
  | setChannelAuthorization check =>
    obtain rfl := Option.some.inj hs
    exact h
  | subscription client subscribe channel names =>
    obtain rfl := Option.some.inj hs
    exact h

/-- The step replaces the client or deletes it, or closes the server. -/
def Action.Removes (ID : Ptr → Text) (s : Server) (client : Ptr) : Action → Prop
  | .addClient client' _ => client' ≠ client ∧ s.clients.get (ID client') = some client
  | .deleteClient client' _ => client' = client
  | .close => True
  | _ => False

theorem gone_of_removes {a : Action} (h : Inv ID s) (ha : a.Removes ID s client) (hs : step ID s a = some s') :
    Gone ID s' client := by
  cases a with
  | addClient client' range =>
    obtain rfl := Option.some.inj hs
    obtain ⟨hne, hprevious⟩ := ha
    rw [Server.addClient]
    split
    · next hclosed => exact .inl hclosed
    · rw [hprevious]
      dsimp only
      rw [if_neg (Ne.symm hne)]
      refine Gone.of_eq (s := { s with clients := s.clients.set (ID client') client' }) (.inr ?_)
        (closed_leaveAllLocked ..) (clients_leaveAllLocked ..)
      rw [h.keyed hprevious, OMap.get_set_self]
      simpa using hne
  | deleteClient client' range =>
    obtain rfl := Option.some.inj hs
    obtain rfl : client' = client := ha
    rw [Server.deleteClient]
    split
    · refine .inr ?_
      rw [OMap.get_delete, if_pos rfl]
      exact (Option.some_ne_none _).symm
    · next hne => exact .inr hne
  | close =>
    obtain rfl := Option.some.inj hs
    rw [Server.close]
    split
    · next hclosed => exact .inl hclosed
    · exact .inl rfl
  | addEvent | setChannelAuthorization | subscription | resume => cases ha

/-- The two maps are inverse to each other, with no empty set; whoever is in a room is registered and
the server is open; and who was replaced or deleted, or was there when the server was closed, is in
no room before it is added again. -/
theorem rooms_integrity {ID : Ptr → Text} {s : Server} (h : (machine ID).Reach anyStep s) :
    Inverse s.rooms s.clientRooms ∧
    (∀ room client, SetMap.Mem s.rooms room client → s.clients.get (ID client) = some client ∧ s.closed = false) ∧
    ∀ client a s' t, a.Removes ID s client → step ID s a = some s' →
      (machine ID).Steps (fun _ b => ∀ range, b ≠ .addClient client range) s' t →
      ∀ room, ¬ SetMap.Mem t.rooms room client ∧ ¬ SetMap.Mem t.clientRooms client room := by
  have hinv := inv_reach h
  refine ⟨hinv.inverse, fun room client hmem => hinv.registered hmem, fun client a s' t ha hs hsteps room => ?_⟩
  have hkept : Inv ID t ∧ Gone ID t client :=
    hsteps.invariant (fun t => Inv ID t ∧ Gone ID t client) ⟨hinv.step hs, gone_of_removes hinv ha hs⟩
      fun t b t' ht hb hstep => ⟨ht.1.step hstep, ht.2.step hb hstep⟩
  exact hkept.1.gone hkept.2 room

/-! ### A replacement in the middle of a subscription -/

def sameID (_ : Ptr) : Text := js "c"

def yes : Answers := ⟨true, true, true, [], true⟩

/-- Client 0 was authorized and has not come to its room yet. -/
def underWay : List Action :=
  [.addEvent (js "note") ⟨false, false, false⟩, .addClient 0 .insertion,
    .subscription 0 true (js "NO_CHANNEL") [js "note"], .resume 0 yes, .resume 0 yes]

/-- It is replaced, and the subscription goes on. -/
theorem rooms_integrity_replaced : ∃ s, (machine sameID).Reach anyStep s ∧
    (s.subscriptions.map Subscription.stage) = [.committing true] ∧
    ∀ s' t, step sameID s (.addClient 1 .insertion) = some s' → step sameID s' (.resume 0 yes) = some t →
      ∀ room, ¬ SetMap.Mem t.rooms room 0 := by
  obtain ⟨s, hreach, hs⟩ := Machine.exists_of_exec (machine sameID) anyStep NewServer underWay
    (fun s => s.clients.get (js "c") = some 0 && s.subscriptions.map Subscription.stage = [.committing true])
    (by decide +kernel)
  rw [Bool.and_eq_true, decide_eq_true_eq, decide_eq_true_eq] at hs
  refine ⟨s, hreach, hs.2, fun s' t hs' ht room => ?_⟩
  have hsteps : (machine sameID).Steps (fun _ b => ∀ range, b ≠ .addClient 0 range) s' t :=
    .tail (.resume 0 yes) .refl (fun _ => by simp) ht
  exact ((rooms_integrity hreach).2.2 0 (.addClient 1 .insertion) s' t ⟨by decide, hs.1⟩ hs' hsteps room).1

end TypeFerry.Go.Rooms
