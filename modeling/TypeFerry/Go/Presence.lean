import Mathlib.Algebra.BigOperators.Group.Finset.Basic
import Mathlib.Data.Finset.Lattice.Basic
import TypeFerry.Lib.Entries
import TypeFerry.Lib.Numeral
import TypeFerry.Lib.OrderedMap
import TypeFerry.Lib.Runs

/-! # Presence in Redis

`redistransport.Client` as the presence tracker of a server. A change of the clients takes the presence lock and holds it
while it tells Redis, one command after the other; the identity of a client changes without the lock and is told
afterwards. Several servers share one Redis, each with keys of its own, connected and closed once. Redis answers every
command: what the client makes of one that fails, which is nothing, is not followed here. -/
namespace TypeFerry.Go.Presence
open TypeFerry.Lib.Entries TypeFerry.Lib.Numeral TypeFerry.Lib.OrderedMap TypeFerry.Lib.Runs

abbrev Ptr := ℕ

/-! ## Redis -/

/-- The sets under their keys. -/
abbrev Redis := Text → Finset Text

def serversKey : Text := js "typeferry:servers"
def clientsKey (id : Text) : Text := js "typeferry:clients:" ++ id
def usersKey (id : Text) : Text := js "typeferry:users:" ++ id

/-! ## A server -/

/-- What a section under the presence lock has still to do. -/
inductive Command where
  | sAdd (id : Text)
  | sRem (id : Text)
  | refreshUsers
  /-- `refreshUsers` in its loop: the clients it has not read, and the users found. -/
  | read (rest : List Ptr) (users : List Text)
  deriving DecidableEq

/-- The life of the Redis client. -/
inductive Link where
  | absent
  /-- `Connect` has put the server into the set of servers. -/
  | joined
  /-- It was made the presence tracker. -/
  | attached
  /-- `Close` has taken the tracker away, -/
  | detached
  /-- it has deleted the keys of the server, -/
  | cleaned
  /-- and it has taken the server out of the set. -/
  | left
  deriving DecidableEq

structure Server where
  id : Text
  closed : Bool
  clients : OMap Text Ptr
  /-- `client.userID`, empty without an identity. -/
  userID : Ptr → Text
  /-- There is a presence tracker. -/
  tracker : Bool
  link : Link
  /-- Empty when the presence lock is free. -/
  commands : List Command
  /-- The clients whose identity was set, and whose `RefreshClientPresence` is to come. -/
  pending : List Ptr

inductive Action where
  | setContext (client : Ptr) (user : Text)
  | refreshClientPresence (client : Ptr)
  | addClient (client : Ptr)
  | deleteClient (client : Ptr)
  /-- `order` is the order in which the map gives the clients. -/
  | close (order : List Ptr)
  | connect
  | setPresenceTracker (order : List Ptr)
  | detach
  | del
  | sRemServer
  /-- The next command of the section. -/
  | command
  /-- The loop of `refreshUsers` reads the user of a client. -/
  | userOf (client : Ptr)
  deriving DecidableEq

variable (ID : Ptr → Text)

def registerClient (client : Ptr) : List Command := [.sAdd (ID client), .refreshUsers]

def removeClient (client : Ptr) : List Command := [.sRem (ID client), .refreshUsers]

namespace Server
variable (s : Server)

/-- What a section tells the tracker, if there is one. -/
def tell (cs : List Command) : List Command := if s.tracker then cs else []

def addClient (client : Ptr) : Server :=
  if s.closed then s
  else
    { s with
      clients := s.clients.set (ID client) client
      commands := s.tell <| match s.clients.get (ID client) with
        | none => registerClient ID client
        | some previous =>
          if previous = client then registerClient ID client
          else removeClient ID previous ++ registerClient ID client }

def deleteClient (client : Ptr) : Server :=
  if s.clients.get (ID client) = some client then
    { s with clients := s.clients.delete (ID client), commands := s.tell (removeClient ID client) }
  else s

/-- Only the first call does anything. -/
def close (order : List Ptr) : Server :=
  if s.closed then s
  else { s with closed := true, clients := .empty, tracker := false, commands := s.tell (order.flatMap (removeClient ID)) }

def refreshClientPresence (client : Ptr) : Server :=
  { s with
    pending := s.pending.erase client
    commands := if s.clients.get (ID client) = some client then s.tell [.refreshUsers] else [] }

/-- The next command, and the sets of the clients and the users after it. -/
def command (clients users : Finset Text) : Option (Server × Finset Text × Finset Text) :=
  match s.commands with
  | .sAdd id :: cs => some ({ s with commands := cs }, insert id clients, users)
  | .sRem id :: cs => some ({ s with commands := cs }, clients.erase id, users)
  | .refreshUsers :: cs => some ({ s with commands := .read s.clients.values [] :: cs }, clients, users)
  | .read [] found :: cs => some ({ s with commands := cs }, clients, found.toFinset)
  | _ => none

def userOf (client : Ptr) : Option Server :=
  match s.commands with
  | .read rest found :: cs =>
    if client ∈ rest then
      let found := if s.userID client = [] then found else found ++ [s.userID client]
      some { s with commands := .read (rest.erase client) found :: cs }
    else none
  | _ => none

end Server

/-- Puts the sets of a server into Redis. -/
def Redis.put (redis : Redis) (id : Text) (clients users : Finset Text) : Redis :=
  Function.update (Function.update redis (clientsKey id) clients) (usersKey id) users

/-- What a server does. A section begins when the presence lock is free. -/
def Server.act (s : Server) (redis : Redis) : Action → Option (Server × Redis)
  | .setContext client user =>
    some ({ s with userID := Function.update s.userID client user, pending := s.pending ++ [client] }, redis)
  | .refreshClientPresence client =>
    if s.commands = [] ∧ client ∈ s.pending then some (s.refreshClientPresence ID client, redis) else none
  | .addClient client => if s.commands = [] then some (s.addClient ID client, redis) else none
  | .deleteClient client => if s.commands = [] then some (s.deleteClient ID client, redis) else none
  | .close order =>
    if s.commands = [] ∧ order.isPerm s.clients.values then some (s.close ID order, redis) else none
  | .connect =>
    if s.link = .absent then
      some ({ s with link := .joined }, Function.update redis serversKey (insert s.id (redis serversKey)))
    else none
  | .setPresenceTracker order =>
    if s.link = .joined ∧ s.commands = [] ∧ order.isPerm s.clients.values then
      some ({ s with link := .attached, tracker := true, commands := order.flatMap (registerClient ID) }, redis)
    else none
  | .detach =>
    if s.link = .attached ∧ s.commands = [] then some ({ s with link := .detached, tracker := false }, redis) else none
  | .del => if s.link = .detached then some ({ s with link := .cleaned }, redis.put s.id ∅ ∅) else none
  | .sRemServer =>
    if s.link = .cleaned then
      some ({ s with link := .left }, Function.update redis serversKey ((redis serversKey).erase s.id))
    else none
  | .command =>
    (s.command (redis (clientsKey s.id)) (redis (usersKey s.id))).map fun r => (r.1, redis.put s.id r.2.1 r.2.2)
  | .userOf client => (s.userOf client).map fun s' => (s', redis)

/-! ## The servers -/

structure State where
  redis : Redis
  servers : List Server

inductive SystemAction where
  /-- A new server; its id is a new one. -/
  | start (id : Text)
  | act (i : ℕ) (a : Action)
  deriving DecidableEq

def NewServer (id : Text) : Server := ⟨id, false, .empty, fun _ => [], false, .absent, [], []⟩

def step (s : State) : SystemAction → Option State
  | .start id => if id ∈ s.servers.map (·.id) then none else some { s with servers := s.servers ++ [NewServer id] }
  | .act i a => (s.servers[i]?).bind fun server => (server.act ID s.redis a).map fun r =>
      ⟨r.2, s.servers.set i r.1⟩

def machine : Machine State SystemAction := ⟨⟨fun _ => ∅, []⟩, step ID⟩

structure Stats where
  clientCount : ℕ
  userCount : ℕ
  users : Finset Text
  deriving DecidableEq

/-- `Stats`, when nothing is told in between. The users are sorted then. -/
def stats (redis : Redis) : Stats :=
  ⟨∑ id ∈ redis serversKey, (redis (clientsKey id)).card, ∑ id ∈ redis serversKey, (redis (usersKey id)).card,
    (redis serversKey).biUnion fun id => redis (usersKey id)⟩

/-! ## Keys -/

section
variable {id id' : Text}

theorem clientsKey_inj (h : clientsKey id = clientsKey id') : id = id' := List.append_cancel_left h

theorem usersKey_inj (h : usersKey id = usersKey id') : id = id' := List.append_cancel_left h

/-- The keys differ behind their common prefix. -/
theorem clientsKey_ne_usersKey : clientsKey id ≠ usersKey id' := by
  intro h
  have hunit := congrArg (·[10]?) h
  simp only [clientsKey, usersKey] at hunit
  rw [List.getElem?_append_left (by decide), List.getElem?_append_left (by decide)] at hunit
  exact absurd hunit (by decide)

theorem serversKey_ne_clientsKey : serversKey ≠ clientsKey id := by
  intro h
  have hunit := congrArg (·[10]?) h
  simp only [clientsKey] at hunit
  rw [List.getElem?_append_left (by decide)] at hunit
  exact absurd hunit (by decide)

theorem serversKey_ne_usersKey : serversKey ≠ usersKey id := by
  intro h
  have hunit := congrArg (·[10]?) h
  simp only [usersKey] at hunit
  rw [List.getElem?_append_left (by decide)] at hunit
  exact absurd hunit (by decide)

variable {redis : Redis} {clients users : Finset Text}

theorem put_clientsKey : (redis.put id clients users) (clientsKey id') = if id' = id then clients else redis (clientsKey id') := by
  rw [Redis.put, Function.update_of_ne clientsKey_ne_usersKey, Function.update_apply]
  exact if_congr ⟨clientsKey_inj, congrArg _⟩ rfl rfl

theorem put_usersKey : (redis.put id clients users) (usersKey id') = if id' = id then users else redis (usersKey id') := by
  rw [Redis.put, Function.update_apply, Function.update_of_ne (Ne.symm clientsKey_ne_usersKey)]
  exact if_congr ⟨usersKey_inj, congrArg _⟩ rfl rfl

theorem put_serversKey : (redis.put id clients users) serversKey = redis serversKey := by
  rw [Redis.put, Function.update_of_ne serversKey_ne_usersKey, Function.update_of_ne serversKey_ne_clientsKey]

end

/-! ## What a section leaves -/

namespace Server
variable (s : Server)

/-- What Redis is to say of the clients. -/
def ids : Finset Text := (s.clients.entries.map Prod.fst).toFinset

/-- What it is to say of the users. -/
def users : Finset Text := (s.clients.values.map s.userID).toFinset.erase []

/-- Every identity was told. -/
def Settled : Prop := ∀ c ∈ s.clients.values, c ∉ s.pending

/-- The users under the key after a command, if no identity changes meanwhile. -/
def usersAfter (us : Finset Text) : Command → Finset Text
  | .refreshUsers => s.users
  | .read rest found => found.toFinset ∪ (rest.map s.userID).toFinset.erase []
  | _ => us

end Server

def clientsAfter (cs : Finset Text) : Command → Finset Text
  | .sAdd id => insert id cs
  | .sRem id => cs.erase id
  | _ => cs

section
variable {s : Server} {cs us : Finset Text} {id : Text} {c : Ptr}

theorem mem_ids : id ∈ s.ids ↔ ∃ c, s.clients.get id = some c := by
  simp only [Server.ids, List.mem_toFinset, List.mem_map, Prod.exists, exists_and_right, exists_eq_right, OMap.get_eq_some]

theorem mem_values : c ∈ s.clients.values ↔ ∃ id, s.clients.get id = some c := by
  simp only [OMap.values, List.mem_map, Prod.exists, exists_eq_right, OMap.get_eq_some]

/-- Clients that are registered anew. -/
theorem mem_registered (order : List Ptr) :
    id ∈ (order.flatMap (registerClient ID)).foldl clientsAfter cs ↔ id ∈ cs ∨ ∃ c ∈ order, ID c = id := by
  induction order generalizing cs with
  | nil => simp
  | cons client order ih =>
    rw [List.flatMap_cons, List.foldl_append, ih]
    simp only [registerClient, List.foldl_cons, List.foldl_nil, clientsAfter, Finset.mem_insert, List.mem_cons,
      exists_eq_or_imp, eq_comm (a := id)]
    tauto

theorem mem_removed (order : List Ptr) :
    id ∈ (order.flatMap (removeClient ID)).foldl clientsAfter cs ↔ id ∈ cs ∧ ∀ c ∈ order, ID c ≠ id := by
  induction order generalizing cs with
  | nil => simp
  | cons client order ih =>
    rw [List.flatMap_cons, List.foldl_append, ih]
    simp only [removeClient, List.foldl_cons, List.foldl_nil, clientsAfter, Finset.mem_erase, List.mem_cons,
      forall_eq_or_imp, ne_comm (a := id)]
    tauto

/-- A section that tells of a client ends with the users. -/
theorem users_told {f : Ptr → List Command} (hf : ∀ us c, (f c).foldl s.usersAfter us = s.users) {order : List Ptr}
    (h : order = [] → us = s.users) : (order.flatMap f).foldl s.usersAfter us = s.users := by
  induction order generalizing us with
  | nil => exact h rfl
  | cons client order ih =>
    rw [List.flatMap_cons, List.foldl_append, hf]
    exact ih fun _ => rfl

end

/-! ## What every step keeps -/

/-- The section that is under way leaves the sets of the server right, once the identities are told. -/
structure Good (s : Server) (cs us : Finset Text) : Prop where
  keyed : ∀ id c, s.clients.get id = some c → ID c = id
  closed : s.closed = true → s.clients = .empty
  tracker : s.tracker = true → s.link = .attached
  tracked : s.link = .attached → s.closed = false → s.tracker = true
  idle : s.link ≠ .attached → s.commands = []
  reading : ∀ rest found, .read rest found ∈ s.commands → ∀ c ∈ rest, c ∈ s.clients.values
  clients : s.link = .attached → s.commands.foldl clientsAfter cs = s.ids
  users : s.link = .attached → s.Settled → s.commands.foldl s.usersAfter us = s.users
  apart : s.link ≠ .attached → s.link ≠ .detached → cs = ∅ ∧ us = ∅

section
variable {ID} {s s' : Server} {cs us cs' us' : Finset Text} {client : Ptr}

/-- A client that is registered stands under its own id. -/
theorem Good.get_of_mem (h : Good ID s cs us) (hc : client ∈ s.clients.values) : s.clients.get (ID client) = some client := by
  obtain ⟨id, hid⟩ := mem_values.mp hc
  rw [h.keyed id client hid]
  exact hid

/-- A section begins under the lock: it leaves the sets right, and reads nothing yet. -/
theorem Good.begin (h : Good ID s cs us) (hfree : s.commands = []) (hlink : s'.link = s.link)
    (hkeyed : ∀ id c, s'.clients.get id = some c → ID c = id) (hclosed : s'.closed = true → s'.clients = .empty)
    (htracker : s'.tracker = true → s'.link = .attached)
    (htracked : s'.link = .attached → s'.closed = false → s'.tracker = true)
    (hidle : s.tracker = false → s'.commands = []) (hread : ∀ rest found, .read rest found ∉ s'.commands)
    (hclients : s.link = .attached → cs = s.ids → s'.commands.foldl clientsAfter cs = s'.ids)
    (husers : s.link = .attached → s'.Settled → (s.Settled → us = s.users) → s'.commands.foldl s'.usersAfter us = s'.users) :
    Good ID s' cs us where
  keyed := hkeyed
  closed := hclosed
  tracker := htracker
  tracked := htracked
  idle hne := hidle <| Bool.eq_false_iff.mpr fun ht => hne (hlink.trans (h.tracker ht))
  reading rest found hmem := absurd hmem (hread rest found)
  clients hat := by
    have hat := hlink.symm.trans hat
    have hcs := h.clients hat
    rw [hfree] at hcs
    exact hclients hat hcs
  users hat hsettled := by
    have hat := hlink.symm.trans hat
    refine husers hat hsettled fun hs => ?_
    have hus := h.users hat hs
    rw [hfree] at hus
    exact hus
  apart := by
    rw [hlink]
    exact h.apart

theorem Good.setContext (h : Good ID s cs us) (user : Text) :
    Good ID { s with userID := Function.update s.userID client user, pending := s.pending ++ [client] } cs us where
  keyed := h.keyed
  closed := h.closed
  tracker := h.tracker
  tracked := h.tracked
  idle := h.idle
  reading := h.reading
  clients := h.clients
  users hat hsettled := by
    -- Then the client is not registered, and nobody reads its user.
    have hclient : client ∉ s.clients.values := fun hmem =>
      hsettled client hmem (List.mem_append_right _ (List.mem_singleton_self _))
    have hmap : ∀ cs : List Ptr, (∀ c ∈ cs, c ∈ s.clients.values) →
        cs.map (Function.update s.userID client user) = cs.map s.userID := by
      intro cs hcs
      refine List.map_congr_left fun c hc => Function.update_of_ne ?_ _ _
      rintro rfl
      exact hclient (hcs c hc)
    have husers : ({ s with userID := Function.update s.userID client user, pending := s.pending ++ [client] } : Server).users =
        s.users := by
      rw [Server.users, Server.users, hmap _ fun _ => id]
    have hus := h.users hat fun c hc hpending => hsettled c hc (List.mem_append_left _ hpending)
    rw [husers, ← hus]
    refine List.foldl_ext _ _ _ fun us command hmem => ?_
    cases command with
    | refreshUsers => exact husers
    | read rest found => rw [Server.usersAfter, Server.usersAfter, hmap rest (h.reading rest found hmem)]
    | sAdd | sRem => rfl
  apart := h.apart

theorem Good.refreshClientPresence (h : Good ID s cs us) (hfree : s.commands = []) :
    Good ID (s.refreshClientPresence ID client) cs us := by
  refine h.begin hfree rfl h.keyed h.closed h.tracker h.tracked ?_ ?_ ?_ ?_
  · intro ht
    simp [Server.refreshClientPresence, Server.tell, ht]
  · intro rest found hmem
    simp only [Server.refreshClientPresence, Server.tell] at hmem
    grind
  · intro _ hcs
    simp only [Server.refreshClientPresence, Server.tell]
    split
    · split <;> exact hcs
    · exact hcs
  · intro hat hsettled hus
    by_cases hget : s.clients.get (ID client) = some client
    · have hopen : s.closed = false := by
        rw [Bool.eq_false_iff]
        intro hclosed
        rw [h.closed hclosed] at hget
        cases hget
      simp only [Server.refreshClientPresence, if_pos hget, Server.tell, h.tracked hat hopen, if_true]
      rfl
    · simp only [Server.refreshClientPresence, if_neg hget]
      refine hus fun c hc hpending => hsettled c hc ?_
      refine (List.mem_erase_of_ne ?_).mpr hpending
      rintro rfl
      exact hget (h.get_of_mem hc)

theorem Good.addClient (h : Good ID s cs us) (hfree : s.commands = []) : Good ID (s.addClient ID client) cs us := by
  by_cases hclosed : s.closed = true
  · rw [Server.addClient, if_pos hclosed]
    exact h
  have hopen := Bool.eq_false_iff.mpr hclosed
  rw [Server.addClient, if_neg hclosed]
  refine h.begin hfree rfl ?_ (fun hclosed' => absurd hclosed' hclosed) h.tracker h.tracked ?_ ?_ ?_ ?_
  · intro id c hget
    rw [OMap.get_set] at hget
    split at hget
    · next hid => rw [← Option.some.inj hget, hid]
    · exact h.keyed id c hget
  · intro ht
    simp [Server.tell, ht]
  · intro rest found hmem
    simp only [Server.tell, registerClient, removeClient] at hmem
    grind
  · intro hat hcs
    have hids : ({ s with clients := s.clients.set (ID client) client } : Server).ids = insert (ID client) s.ids := by
      ext id
      rw [mem_ids, Finset.mem_insert, mem_ids]
      dsimp only
      simp only [OMap.get_set]
      split <;> simp_all
    refine Eq.trans ?_ hids.symm
    dsimp only
    rw [Server.tell, if_pos (h.tracked hat hopen), hcs]
    split
    · rfl
    · next previous hprevious =>
      split
      · rfl
      · -- The client before had the same id.
        rw [List.foldl_append]
        simp only [removeClient, registerClient, List.foldl_cons, List.foldl_nil, clientsAfter, h.keyed _ _ hprevious]
        ext id
        simp only [Finset.mem_insert, Finset.mem_erase]
        tauto
  · intro hat _ _
    dsimp only
    rw [Server.tell, if_pos (h.tracked hat hopen)]
    split
    · rfl
    · split
      · rfl
      · rw [List.foldl_append]
        rfl

theorem Good.deleteClient (h : Good ID s cs us) (hfree : s.commands = []) : Good ID (s.deleteClient ID client) cs us := by
  rw [Server.deleteClient]
  split
  · next hget =>
    have hopen : s.closed = false := by
      rw [Bool.eq_false_iff]
      intro hclosed
      rw [h.closed hclosed] at hget
      cases hget
    refine h.begin hfree rfl ?_ ?_ h.tracker h.tracked ?_ ?_ ?_ ?_
    · intro id c hc
      rw [OMap.get_delete] at hc
      split at hc
      · cases hc
      · exact h.keyed id c hc
    · intro hclosed
      have hclosed : s.closed = true := hclosed
      rw [hclosed] at hopen
      cases hopen
    · intro ht
      simp [Server.tell, ht]
    · intro rest found hmem
      simp only [Server.tell, removeClient] at hmem
      grind
    · intro hat hcs
      dsimp only
      rw [Server.tell, if_pos (h.tracked hat hopen), hcs]
      ext id
      simp only [removeClient, List.foldl_cons, List.foldl_nil, clientsAfter, Finset.mem_erase, mem_ids, OMap.get_delete]
      split <;> simp_all
    · intro hat _ _
      dsimp only
      rw [Server.tell, if_pos (h.tracked hat hopen)]
      rfl
  · exact h

/-- The clients of a section that goes through all of them. -/
theorem Good.exists_of_perm (h : Good ID s cs us) {order : List Ptr} (hperm : order.isPerm s.clients.values = true) {id : Text} :
    (∃ c ∈ order, ID c = id) ↔ id ∈ s.ids := by
  rw [mem_ids]
  constructor
  · intro ⟨c, hc, hid⟩
    rw [← hid]
    exact ⟨c, h.get_of_mem ((List.isPerm_iff.mp hperm).mem_iff.mp hc)⟩
  · intro ⟨c, hc⟩
    exact ⟨c, (List.isPerm_iff.mp hperm).mem_iff.mpr (mem_values.mpr ⟨id, hc⟩), h.keyed id c hc⟩

theorem Good.close (h : Good ID s cs us) (hfree : s.commands = []) {order : List Ptr}
    (hperm : order.isPerm s.clients.values = true) : Good ID (s.close ID order) cs us := by
  rw [Server.close]
  split
  · exact h
  · next hclosed =>
    have hopen := Bool.eq_false_iff.mpr hclosed
    refine h.begin hfree rfl nofun (fun _ => rfl) nofun nofun ?_ ?_ ?_ ?_
    · intro ht
      simp [Server.tell, ht]
    · intro rest found hmem
      simp only [Server.tell] at hmem
      grind [removeClient]
    · intro hat hcs
      dsimp only
      rw [Server.tell, if_pos (h.tracked hat hopen), hcs]
      ext id
      rw [mem_removed, ← h.exists_of_perm hperm, mem_ids]
      refine iff_of_false ?_ (fun ⟨_, hc⟩ => by cases hc)
      intro ⟨⟨c, hc, hid⟩, hne⟩
      exact hne c hc hid
    · intro hat _ hus
      dsimp only
      rw [Server.tell, if_pos (h.tracked hat hopen)]
      refine users_told (fun us c => rfl) fun hnil => ?_
      have hvalues : s.clients.values = [] := List.perm_nil.mp (hnil ▸ (List.isPerm_iff.mp hperm)).symm
      have hsettled : s.Settled := fun c hc => by rw [hvalues] at hc; cases hc
      rw [hus hsettled, Server.users, hvalues]
      rfl

theorem Good.setPresenceTracker (h : Good ID s cs us) (hlink : s.link = .joined) {order : List Ptr}
    (hperm : order.isPerm s.clients.values = true) :
    Good ID { s with link := .attached, tracker := true, commands := order.flatMap (registerClient ID) } cs us where
  keyed := h.keyed
  closed := h.closed
  tracker _ := rfl
  tracked _ _ := rfl
  idle hne := absurd rfl hne
  reading rest found hmem := by
    dsimp only at hmem
    grind [registerClient]
  clients _ := by
    obtain ⟨rfl, rfl⟩ := h.apart (by rw [hlink]; exact nofun) (by rw [hlink]; exact nofun)
    ext id
    rw [mem_registered, h.exists_of_perm hperm, or_iff_right (Finset.notMem_empty id)]
    rfl
  users _ _ := by
    obtain ⟨rfl, rfl⟩ := h.apart (by rw [hlink]; exact nofun) (by rw [hlink]; exact nofun)
    refine users_told (fun us c => rfl) fun hnil => ?_
    have hvalues : s.clients.values = [] := List.perm_nil.mp (hnil ▸ (List.isPerm_iff.mp hperm)).symm
    rw [Server.users, hvalues]
    rfl
  apart hne := absurd rfl hne

/-- A section that has something left to do has a tracker. -/
theorem Good.attached (h : Good ID s cs us) {c : Command} {rest : List Command} (hcommands : s.commands = c :: rest) :
    s.link = .attached := by
  by_contra hne
  rw [h.idle hne] at hcommands
  cases hcommands

/-- The next command of the section leaves what it was to leave. -/
theorem Good.next (h : Good ID s cs us) {c : Command} {rest commands : List Command} (hcommands : s.commands = c :: rest)
    (hread : ∀ r found, .read r found ∈ commands → .read r found ∈ s.commands ∨ ∀ c ∈ r, c ∈ s.clients.values)
    (hclients : commands.foldl clientsAfter cs' = (c :: rest).foldl clientsAfter cs)
    (husers : commands.foldl s.usersAfter us' = (c :: rest).foldl s.usersAfter us) :
    Good ID { s with commands := commands } cs' us' where
  keyed := h.keyed
  closed := h.closed
  tracker := h.tracker
  tracked := h.tracked
  idle hne := absurd (h.attached hcommands) hne
  reading r found hmem := (hread r found hmem).elim (h.reading r found) id
  clients hat := by
    have hcs := h.clients hat
    rw [hcommands] at hcs
    exact hclients.trans hcs
  users hat hsettled := by
    have hus := h.users hat hsettled
    rw [hcommands] at hus
    exact husers.trans hus
  apart hne := absurd (h.attached hcommands) hne

theorem Good.command (h : Good ID s cs us) (hstep : s.command cs us = some (s', cs', us')) : Good ID s' cs' us' := by
  rw [Server.command] at hstep
  split at hstep
  · next id rest hcommands =>
    cases hstep
    exact h.next hcommands (fun r found hmem => .inl (by rw [hcommands]; exact List.mem_cons_of_mem _ hmem)) rfl rfl
  · next id rest hcommands =>
    cases hstep
    exact h.next hcommands (fun r found hmem => .inl (by rw [hcommands]; exact List.mem_cons_of_mem _ hmem)) rfl rfl
  · next rest hcommands =>
    cases hstep
    refine h.next hcommands ?_ rfl ?_
    · intro r found hmem
      rcases List.mem_cons.mp hmem with heq | hmem
      · cases heq
        exact .inr fun _ => id
      · exact .inl (by rw [hcommands]; exact List.mem_cons_of_mem _ hmem)
    · rw [List.foldl_cons, List.foldl_cons, Server.usersAfter, Server.usersAfter, List.toFinset_nil, Finset.empty_union]
      rfl
  · next found rest hcommands =>
    cases hstep
    refine h.next hcommands (fun r found hmem => .inl (by rw [hcommands]; exact List.mem_cons_of_mem _ hmem)) rfl ?_
    rw [List.foldl_cons, Server.usersAfter, List.map_nil, List.toFinset_nil, Finset.erase_empty, Finset.union_empty]
  · cases hstep

theorem Good.userOf (h : Good ID s cs us) (hstep : s.userOf client = some s') : Good ID s' cs us := by
  rw [Server.userOf] at hstep
  split at hstep
  · next rest found cs hcommands =>
    split at hstep
    · next hmem =>
      cases hstep
      refine h.next hcommands ?_ rfl ?_
      · intro r found' hr
        rcases List.mem_cons.mp hr with heq | hr
        · cases heq
          have hreading := h.reading rest found (by rw [hcommands]; exact List.mem_cons_self)
          exact .inr fun c hc => hreading c (List.mem_of_mem_erase hc)
        · exact .inl (by rw [hcommands]; exact List.mem_cons_of_mem _ hr)
      · rw [List.foldl_cons, List.foldl_cons, Server.usersAfter, Server.usersAfter]
        congr 1
        ext u
        have hperm := (List.perm_cons_erase hmem).map s.userID
        simp only [Finset.mem_union, Finset.mem_erase, List.mem_toFinset, hperm.mem_iff, List.map_cons, List.mem_cons]
        split
        · grind
        · grind
    · cases hstep
  · cases hstep

/-- The server is in the set of servers. -/
def Server.Listed (s : Server) : Prop := s.link ≠ .absent ∧ s.link ≠ .left

/-- What a step of a server does to Redis: its own keys stay right, the others as they are. -/
structure Acts (ID : Ptr → Text) (s s' : Server) (redis redis' : Redis) : Prop where
  id : s'.id = s.id
  good : Good ID s' (redis' (clientsKey s.id)) (redis' (usersKey s.id))
  clients : ∀ id ≠ s.id, redis' (clientsKey id) = redis (clientsKey id)
  users : ∀ id ≠ s.id, redis' (usersKey id) = redis (usersKey id)
  servers : ∀ id ≠ s.id, id ∈ redis' serversKey ↔ id ∈ redis serversKey
  listed : (s.id ∈ redis serversKey ↔ s.Listed) → (s.id ∈ redis' serversKey ↔ s'.Listed)

variable {redis redis' : Redis} {a : Action}

/-- Redis is not told anything. -/
theorem Acts.silent (hid : s'.id = s.id) (hlink : s'.Listed ↔ s.Listed)
    (hgood : Good ID s' (redis (clientsKey s.id)) (redis (usersKey s.id))) : Acts ID s s' redis redis where
  id := hid
  good := hgood
  clients _ _ := rfl
  users _ _ := rfl
  servers _ _ := .rfl
  listed h := h.trans hlink.symm

theorem Acts.put (hid : s'.id = s.id) (hlink : s'.Listed ↔ s.Listed) (hgood : Good ID s' cs' us') :
    Acts ID s s' redis (redis.put s.id cs' us') where
  id := hid
  good := by rwa [put_clientsKey, put_usersKey, if_pos rfl, if_pos rfl]
  clients id hne := by rw [put_clientsKey, if_neg hne]
  users id hne := by rw [put_usersKey, if_neg hne]
  servers id hne := by rw [put_serversKey]
  listed h := by rw [put_serversKey, h, hlink]

/-- Redis is told of the server itself. -/
theorem Acts.list {ids : Finset Text} (hid : s'.id = s.id)
    (hgood : Good ID s' (redis (clientsKey s.id)) (redis (usersKey s.id)))
    (hothers : ∀ id ≠ s.id, id ∈ ids ↔ id ∈ redis serversKey) (hlisted : s.id ∈ ids ↔ s'.Listed) :
    Acts ID s s' redis (Function.update redis serversKey ids) where
  id := hid
  good := by
    rwa [Function.update_of_ne serversKey_ne_clientsKey.symm, Function.update_of_ne serversKey_ne_usersKey.symm]
  clients id _ := Function.update_of_ne serversKey_ne_clientsKey.symm _ _
  users id _ := Function.update_of_ne serversKey_ne_usersKey.symm _ _
  servers id hne := by rw [Function.update_self, hothers id hne]
  listed _ := by rw [Function.update_self, hlisted]

theorem listed_congr (h : s'.link = s.link) : s'.Listed ↔ s.Listed := by rw [Server.Listed, h, Server.Listed]

/-- The link goes on where nothing is told about clients. -/
theorem Good.relink (h : Good ID s cs us) {link : Link} (hs : s.link ≠ .attached) (hlink : link ≠ .attached)
    (hapart : cs' = ∅ ∧ us' = ∅) : Good ID { s with link := link } cs' us' where
  keyed := h.keyed
  closed := h.closed
  tracker ht := absurd (h.tracker ht) hs
  tracked hat := absurd hat hlink
  idle _ := h.idle hs
  reading := h.reading
  clients hat := absurd hat hlink
  users hat := absurd hat hlink
  apart _ _ := hapart

theorem command_same (h : s.command cs us = some (s', cs', us')) : s'.id = s.id ∧ s'.link = s.link := by
  rw [Server.command] at h
  split at h <;> cases h <;> exact ⟨rfl, rfl⟩

theorem userOf_same (h : s.userOf client = some s') : s'.id = s.id ∧ s'.link = s.link := by
  rw [Server.userOf] at h
  split at h
  · split at h
    · cases h
      exact ⟨rfl, rfl⟩
    · cases h
  · cases h

theorem Good.acts (h : Good ID s (redis (clientsKey s.id)) (redis (usersKey s.id)))
    (hstep : s.act ID redis a = some (s', redis')) : Acts ID s s' redis redis' := by
  cases a with
  | setContext client user =>
    cases hstep
    exact .silent rfl .rfl (h.setContext user)
  | refreshClientPresence client =>
    obtain ⟨⟨hfree, -⟩, heq⟩ := Option.ite_none_right_eq_some.mp hstep
    cases heq
    exact .silent rfl .rfl (h.refreshClientPresence hfree)
  | addClient client =>
    obtain ⟨hfree, heq⟩ := Option.ite_none_right_eq_some.mp hstep
    cases heq
    have hsame : (s.addClient ID client).id = s.id ∧ (s.addClient ID client).link = s.link := by
      rw [Server.addClient]
      split <;> exact ⟨rfl, rfl⟩
    exact .silent hsame.1 (listed_congr hsame.2) (h.addClient hfree)
  | deleteClient client =>
    obtain ⟨hfree, heq⟩ := Option.ite_none_right_eq_some.mp hstep
    cases heq
    have hsame : (s.deleteClient ID client).id = s.id ∧ (s.deleteClient ID client).link = s.link := by
      rw [Server.deleteClient]
      split <;> exact ⟨rfl, rfl⟩
    exact .silent hsame.1 (listed_congr hsame.2) (h.deleteClient hfree)
  | close order =>
    obtain ⟨⟨hfree, hperm⟩, heq⟩ := Option.ite_none_right_eq_some.mp hstep
    cases heq
    have hsame : (s.close ID order).id = s.id ∧ (s.close ID order).link = s.link := by
      rw [Server.close]
      split <;> exact ⟨rfl, rfl⟩
    exact .silent hsame.1 (listed_congr hsame.2) (h.close hfree hperm)
  | connect =>
    obtain ⟨habsent, heq⟩ := Option.ite_none_right_eq_some.mp hstep
    cases heq
    have hapart := h.apart (by rw [habsent]; exact nofun) (by rw [habsent]; exact nofun)
    refine .list rfl (h.relink (by rw [habsent]; exact nofun) nofun hapart) (fun id hne => ?_) ?_
    · rw [Finset.mem_insert, or_iff_right hne]
    · exact iff_of_true (Finset.mem_insert_self ..) ⟨nofun, nofun⟩
  | setPresenceTracker order =>
    obtain ⟨⟨hjoined, -, hperm⟩, heq⟩ := Option.ite_none_right_eq_some.mp hstep
    cases heq
    refine .silent rfl (iff_of_true ⟨nofun, nofun⟩ ?_) (h.setPresenceTracker hjoined hperm)
    rw [Server.Listed, hjoined]
    exact ⟨nofun, nofun⟩
  | detach =>
    obtain ⟨⟨hattached, hfree⟩, heq⟩ := Option.ite_none_right_eq_some.mp hstep
    cases heq
    refine .silent rfl (iff_of_true ⟨nofun, nofun⟩ ?_) ?_
    · rw [Server.Listed, hattached]
      exact ⟨nofun, nofun⟩
    · exact ⟨h.keyed, h.closed, nofun, nofun, fun _ => hfree, h.reading, nofun, nofun, fun _ hne => absurd rfl hne⟩
  | del =>
    obtain ⟨hdetached, heq⟩ := Option.ite_none_right_eq_some.mp hstep
    cases heq
    refine .put rfl (iff_of_true ⟨nofun, nofun⟩ ?_) ?_
    · rw [Server.Listed, hdetached]
      exact ⟨nofun, nofun⟩
    · exact h.relink (by rw [hdetached]; exact nofun) nofun ⟨rfl, rfl⟩
  | sRemServer =>
    obtain ⟨hcleaned, heq⟩ := Option.ite_none_right_eq_some.mp hstep
    cases heq
    have hapart := h.apart (by rw [hcleaned]; exact nofun) (by rw [hcleaned]; exact nofun)
    refine .list rfl (h.relink (by rw [hcleaned]; exact nofun) nofun hapart) (fun id hne => ?_) ?_
    · rw [Finset.mem_erase, and_iff_right hne]
    · exact iff_of_false (Finset.notMem_erase _ _) fun hlisted => hlisted.2 rfl
  | command =>
    obtain ⟨⟨s₁, cs', us'⟩, hcommand, heq⟩ := Option.map_eq_some_iff.mp hstep
    cases heq
    have hsame := command_same hcommand
    exact .put hsame.1 (listed_congr hsame.2) (h.command hcommand)
  | userOf client =>
    obtain ⟨s₁, huser, heq⟩ := Option.map_eq_some_iff.mp hstep
    cases heq
    have hsame := userOf_same huser
    exact .silent hsame.1 (listed_congr hsame.2) (h.userOf huser)

end

/-! ## The servers together -/

structure Inv (s : State) : Prop where
  nodup : (s.servers.map (·.id)).Nodup
  good : ∀ server ∈ s.servers, Good ID server (s.redis (clientsKey server.id)) (s.redis (usersKey server.id))
  fresh : ∀ id ∉ s.servers.map (·.id), s.redis (clientsKey id) = ∅ ∧ s.redis (usersKey id) = ∅ ∧ id ∉ s.redis serversKey
  listed : ∀ server ∈ s.servers, server.id ∈ s.redis serversKey ↔ server.Listed

section
variable {ID} {s s' : State}

theorem good_newServer (id : Text) : Good ID (NewServer id) ∅ ∅ where
  keyed _ _ h := by cases h
  closed := nofun
  tracker := nofun
  tracked := nofun
  idle _ := rfl
  reading _ _ h := by cases h
  clients := nofun
  users := nofun
  apart _ _ := ⟨rfl, rfl⟩

theorem Inv.start (h : Inv ID s) {id : Text} (hid : id ∉ s.servers.map (·.id)) :
    Inv ID { s with servers := s.servers ++ [NewServer id] } where
  nodup := by
    rw [List.map_append]
    exact List.Nodup.append h.nodup (List.nodup_singleton _) (List.disjoint_singleton.mpr hid)
  good server hserver := by
    rcases List.mem_append.mp hserver with hserver | hserver
    · exact h.good server hserver
    · obtain rfl := List.mem_singleton.mp hserver
      obtain ⟨hclients, husers, -⟩ := h.fresh id hid
      dsimp only [NewServer] at hclients husers ⊢
      rw [hclients, husers]
      exact good_newServer id
  fresh id' hid' := by
    refine h.fresh id' fun hmem => hid' ?_
    rw [List.map_append]
    exact List.mem_append_left _ hmem
  listed server hserver := by
    rcases List.mem_append.mp hserver with hserver | hserver
    · exact h.listed server hserver
    · obtain rfl := List.mem_singleton.mp hserver
      exact iff_of_false (h.fresh id hid).2.2 fun hlisted => hlisted.1 rfl

theorem Inv.acts (h : Inv ID s) {i : ℕ} {server server' : Server} {redis' : Redis} (hi : s.servers[i]? = some server)
    (hacts : Acts ID server server' s.redis redis') : Inv ID ⟨redis', s.servers.set i server'⟩ := by
  have hids : (s.servers.set i server').map (·.id) = s.servers.map (·.id) := by
    refine List.ext_getElem? fun k => ?_
    rw [List.map_set, List.getElem?_set, List.length_map, List.getElem?_map]
    split
    · next hik =>
      rw [if_pos (List.getElem?_eq_some_iff.mp hi).1, hacts.id, ← hik, hi]
      rfl
    · rfl
  have hmem : server ∈ s.servers := List.mem_of_getElem? hi
  -- Another server has another id.
  have hother : ∀ other ∈ s.servers.set i server', other = server' ∨ other ∈ s.servers ∧ other.id ≠ server.id := by
    intro other hother
    obtain ⟨k, hk⟩ := List.mem_iff_getElem?.mp hother
    rcases (getElem?_set_iff hi).mp hk with ⟨-, rfl⟩ | ⟨hne, hk⟩
    · exact .inl rfl
    · refine .inr ⟨List.mem_of_getElem? hk, fun heq => hne ?_⟩
      refine ((List.getElem?_inj ?_ h.nodup).mp ?_).symm
      · rw [List.length_map]
        exact (List.getElem?_eq_some_iff.mp hi).1
      · rw [List.getElem?_map, List.getElem?_map, hi, hk, Option.map_some, Option.map_some, heq]
  refine ⟨by rw [hids]; exact h.nodup, ?_, ?_, ?_⟩
  · intro other hmem'
    rcases hother other hmem' with rfl | ⟨hold, hne⟩
    · rw [hacts.id]
      exact hacts.good
    · dsimp only
      rw [hacts.clients _ hne, hacts.users _ hne]
      exact h.good other hold
  · intro id hid
    rw [hids] at hid
    have hne : id ≠ server.id := fun heq => hid (heq ▸ List.mem_map_of_mem hmem)
    dsimp only
    rw [hacts.clients _ hne, hacts.users _ hne, hacts.servers _ hne]
    exact h.fresh id hid
  · intro other hmem'
    rcases hother other hmem' with rfl | ⟨hold, hne⟩
    · rw [hacts.id]
      exact hacts.listed (h.listed server hmem)
    · dsimp only
      rw [hacts.servers _ hne]
      exact h.listed other hold

theorem Inv.step (h : Inv ID s) {a : SystemAction} (hstep : step ID s a = some s') : Inv ID s' := by
  cases a with
  | start id =>
    rw [Presence.step] at hstep
    split at hstep
    · cases hstep
    · next hid =>
      cases hstep
      exact h.start hid
  | act i a =>
    obtain ⟨server, hi, hstep⟩ := Option.bind_eq_some_iff.mp hstep
    obtain ⟨⟨server', redis'⟩, hact, rfl⟩ := Option.map_eq_some_iff.mp hstep
    exact h.acts hi ((h.good server (List.mem_of_getElem? hi)).acts hact)

end

theorem inv_run {s : State} (h : (machine ID).Reach anyStep s) : Inv ID s := by
  refine h.invariant (Inv ID) ?_ fun s a s' hinv _ hstep => hinv.step hstep
  exact ⟨List.nodup_nil, nofun, fun _ _ => ⟨rfl, rfl, Finset.notMem_empty _⟩, nofun⟩

/-! ## What Redis says -/

namespace Server
variable (s : Server)

/-- No section is under way, every identity was told, and the keys of a closed client are deleted. -/
def Quiet : Prop := s.commands = [] ∧ (s.link = .attached → s.Settled) ∧ s.link ≠ .detached

/-- What Redis is to show of the server. -/
def presentIds : Finset Text := if s.link = .attached then s.ids else ∅

def presentUsers : Finset Text := if s.link = .attached then s.users else ∅

end Server

variable {ID}

theorem Good.exact {s : Server} {cs us : Finset Text} (h : Good ID s cs us) (hquiet : s.Quiet) :
    cs = s.presentIds ∧ us = s.presentUsers := by
  obtain ⟨hfree, hsettled, hdetached⟩ := hquiet
  rw [Server.presentIds, Server.presentUsers]
  by_cases hat : s.link = .attached
  · have hcs := h.clients hat
    have hus := h.users hat (hsettled hat)
    rw [hfree] at hcs hus
    rw [if_pos hat, if_pos hat]
    exact ⟨hcs, hus⟩
  · rw [if_neg hat, if_neg hat]
    exact h.apart hat hdetached

/-- A server outside the set has nothing under its keys. -/
theorem Inv.unlisted {s : State} (h : Inv ID s) {id : Text} (hid : id ∉ s.redis serversKey) :
    s.redis (clientsKey id) = ∅ ∧ s.redis (usersKey id) = ∅ := by
  by_cases hmem : id ∈ s.servers.map (·.id)
  · obtain ⟨server, hserver, rfl⟩ := List.mem_map.mp hmem
    have hlisted := mt (h.listed server hserver).mpr hid
    refine (h.good server hserver).apart ?_ ?_
    · intro hlink
      exact hlisted (by rw [Server.Listed, hlink]; exact ⟨nofun, nofun⟩)
    · intro hlink
      exact hlisted (by rw [Server.Listed, hlink]; exact ⟨nofun, nofun⟩)
  · exact ⟨(h.fresh id hmem).1, (h.fresh id hmem).2.1⟩

/-- A sum over the set of servers goes through all the servers. -/
theorem Inv.sum_servers {s : State} (h : Inv ID s) (f : Text → ℕ) (hf : ∀ id ∉ s.redis serversKey, f id = 0) :
    ∑ id ∈ s.redis serversKey, f id = (s.servers.map fun server => f server.id).sum := by
  have hsubset : s.redis serversKey ⊆ (s.servers.map (·.id)).toFinset := by
    intro id hid
    rw [List.mem_toFinset]
    by_contra hnot
    exact (h.fresh id hnot).2.2 hid
  rw [Finset.sum_subset hsubset fun id _ hid => hf id hid, List.sum_toFinset f h.nodup, List.map_map]
  rfl

/-- A client of the first server connects, and is identified while the second server has none. -/
def actions : List SystemAction :=
  [.start (js "a"), .start (js "b"), .act 0 .connect, .act 1 .connect, .act 0 (.setPresenceTracker []),
    .act 1 (.setPresenceTracker []), .act 0 (.addClient 0), .act 0 .command, .act 0 .command,
    .act 0 (.setContext 0 (js "ann")), .act 0 (.userOf 0), .act 0 .command, .act 0 (.refreshClientPresence 0),
    .act 0 .command, .act 0 (.userOf 0), .act 0 .command]

/-- Nothing is under way. -/
def State.idle (s : State) : Bool :=
  s.servers.all fun server => server.commands = [] && server.pending = [] && server.link = .attached

theorem quiet_of_idle {s : State} (h : s.idle = true) : ∀ server ∈ s.servers, server.Quiet := by
  intro server hserver
  have hidle := List.all_eq_true.mp h server hserver
  simp only [Bool.and_eq_true, decide_eq_true_eq] at hidle
  obtain ⟨⟨hcommands, hpending⟩, hlink⟩ := hidle
  refine ⟨hcommands, fun _ c _ => ?_, ?_⟩
  · rw [hpending]
    exact List.not_mem_nil
  · rw [hlink]
    exact nofun

end TypeFerry.Go.Presence
