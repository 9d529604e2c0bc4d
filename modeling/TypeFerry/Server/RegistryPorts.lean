import Mathlib.Data.Multiset.Dedup
import TypeFerry.Lib.Index
import TypeFerry.Server.RoomIndex

/-! # The room registries of the ports

The registries of the Python, the Rust and the Ruby server beside the one in TypeScript, all of them against the relation
that they index. Each keeps its sets in its own way: in Rust and Python `leave_all` takes the socket out first, and the
hashes of Ruby make a set under every key that is looked at. -/
namespace TypeFerry.Server.RegistryPorts
open TypeFerry.Lib.Numeral TypeFerry.Lib.OrderedMap TypeFerry.Lib.Index TypeFerry.Lib.Runs
open TypeFerry.Server.Rooms TypeFerry.Server.Membership TypeFerry.Server.Registry TypeFerry.Server.RoomIndex

/-! ## What a registry is for -/

/-- Which sockets are open, and which one is left out, comes with a broadcast. -/
inductive Call where
  | join (ws : ℕ) (room : Text)
  | leave (ws : ℕ) (room : Text)
  | leaveAll (ws : ℕ)
  | has (ws : ℕ) (room : Text)
  | getRoomSize (room : Text)
  | broadcast (isOpen : ℕ → Bool) (room : Text) (exclude : Option ℕ)

inductive Answer where
  | nothing
  | bool (b : Bool)
  | size (n : ℕ)
  /-- The sockets that are sent to, each as often as it is. -/
  | sent (sockets : Multiset ℕ)

/-- Who is in which room. -/
abbrev Memberships := Finset (ℕ × Text)

namespace Memberships

def members (m : Memberships) (room : Text) : Finset ℕ := (m.filter (·.2 = room)).image Prod.fst

def call (m : Memberships) : Call → Memberships × Answer
  | .join ws room => (insert (ws, room) m, .nothing)
  | .leave ws room => (m.erase (ws, room), .nothing)
  | .leaveAll ws => (m.filter (·.1 ≠ ws), .nothing)
  | .has ws room => (m, .bool (ws ∈ m.members room))
  | .getRoomSize room => (m, .size (m.members room).card)
  | .broadcast isOpen room exclude => (m, .sent ((m.members room).filter fun ws => exclude ≠ some ws ∧ isOpen ws).val)

theorem mem_members {m : Memberships} {ws : ℕ} {room : Text} : ws ∈ m.members room ↔ (ws, room) ∈ m := by
  simp [members]

end Memberships

/-! ## The registries -/

/-- `room-registry.ts` -/
def tsCall (g : Rooms.RoomRegistry) : Call → Rooms.RoomRegistry × Answer
  | .join ws room => (g.join ws room, .nothing)
  | .leave ws room => (g.leave ws room, .nothing)
  | .leaveAll ws => (g.leaveAll ws, .nothing)
  | .has ws room => (g, .bool (g.has ws room))
  | .getRoomSize room => (g, .size (g.getRoomSize room))
  | .broadcast isOpen room exclude => (g, .sent (g.broadcast isOpen room exclude))

/-- The two indices of `room_registry.rs` and of `room_registry.py`. The maps of Rust keep the sockets under their ids,
and the second index of Python keeps each socket next to the set of its rooms. -/
structure Indices where
  rooms : SetMap Text ℕ
  socketRooms : SetMap ℕ Text

def SetMap.keys {κ ν : Type} [DecidableEq κ] [DecidableEq ν] (m : SetMap κ ν) (k : κ) : List ν :=
  ((m.get k).getD OMap.empty).entries.map Prod.fst

namespace Indices
variable (g : Indices)

def join (ws : ℕ) (room : Text) : Indices := ⟨g.rooms.add room ws, SetMap.add g.socketRooms ws room⟩

def leave (ws : ℕ) (room : Text) : Indices := ⟨g.rooms.drop room ws, SetMap.drop g.socketRooms ws room⟩

/-- The socket is taken out of the second index before the rooms are. -/
def leaveAll (ws : ℕ) : Indices :=
  match g.socketRooms.get ws with
  | none => g
  | some joined =>
    ⟨(joined.entries.map Prod.fst).foldl (fun rooms room => rooms.drop room ws) g.rooms, g.socketRooms.delete ws⟩

def call : Call → Indices × Answer
  | .join ws room => (g.join ws room, .nothing)
  | .leave ws room => (g.leave ws room, .nothing)
  | .leaveAll ws => (g.leaveAll ws, .nothing)
  | .has ws room => (g, .bool (((g.rooms.get room).map fun members => decide (members.get ws = some ())).getD false))
  | .getRoomSize room => (g, .size (((g.rooms.get room).map OMap.size).getD 0))
  | .broadcast isOpen room exclude =>
    (g, .sent ((SetMap.keys g.rooms room).filter fun ws => decide (exclude ≠ some ws) && isOpen ws))

end Indices

/-! ### `runtime.rb`: `Hash.new` with a block that makes a set -/

namespace Ruby
variable (g : Indices)

/-- Looking at a key makes its set. -/
def touch {κ ν : Type} [DecidableEq κ] [DecidableEq ν] (m : SetMap κ ν) (k : κ) : SetMap κ ν :=
  match m.get k with
  | none => m.set k OMap.empty
  | some _ => m

/-- `hash[k].delete(v)`, and the set goes when it is empty. -/
def deleteFrom {κ ν : Type} [DecidableEq κ] [DecidableEq ν] (m : SetMap κ ν) (k : κ) (v : ν) : SetMap κ ν :=
  SetMap.drop (touch m k) k v

def leave (ws : ℕ) (room : Text) : Indices := ⟨deleteFrom g.rooms room ws, deleteFrom g.socketRooms ws room⟩

def leaveAll (ws : ℕ) : Indices :=
  (SetMap.keys g.socketRooms ws).foldl (fun g room => leave g ws room) { g with socketRooms := touch g.socketRooms ws }

/-- The socket that is left out is known by its uuid. -/
def call (uuid : ℕ → Text) : Call → Indices × Answer
  | .join ws room => (g.join ws room, .nothing)
  | .leave ws room => (leave g ws room, .nothing)
  | .leaveAll ws => (leaveAll g ws, .nothing)
  | .has ws room =>
    let rooms := touch g.rooms room
    ({ g with rooms }, .bool (decide (ws ∈ SetMap.keys rooms room)))
  | .getRoomSize room =>
    let rooms := touch g.rooms room
    ({ g with rooms }, .size (SetMap.keys rooms room).length)
  | .broadcast isOpen room exclude =>
    let rooms := touch g.rooms room
    ({ g with rooms },
      .sent (((SetMap.keys rooms room).filter fun ws => some (uuid ws) ≠ exclude.map uuid).filter fun ws => isOpen ws))

end Ruby

/-! ## What the indices show -/

section
variable {κ ν : Type} [DecidableEq κ] [DecidableEq ν] {m : SetMap κ ν} {k k' : κ} {v v' : ν}

theorem mem_keys : v ∈ SetMap.keys m k ↔ SetMap.Mem m k v := by
  rw [SetMap.keys, SetMap.Mem]
  cases hk : m.get k with
  | none => simp [OMap.empty]
  | some xs =>
    simp only [Option.getD_some, List.mem_map, Prod.exists, exists_and_right, exists_eq_right, Option.some.injEq,
      exists_eq_left', OMap.get_eq_some]
    refine ⟨?_, fun h => ⟨(), h⟩⟩
    rintro ⟨_, h⟩
    exact h

theorem nodup_keys : (SetMap.keys m k).Nodup := ((m.get k).getD OMap.empty).nodup

theorem mem_touch : SetMap.Mem (Ruby.touch m k) k' v' ↔ SetMap.Mem m k' v' := by
  rw [Ruby.touch]
  split
  · next hk =>
    rw [SetMap.Mem, OMap.get_set, SetMap.Mem]
    split
    · next heq =>
      rw [heq, hk]
      refine iff_of_false ?_ ?_
      · rintro ⟨xs, hxs, hv⟩
        cases hxs
        cases hv
      · rintro ⟨xs, hxs, -⟩
        cases hxs
    · rfl
  · rfl

theorem mem_deleteFrom : SetMap.Mem (Ruby.deleteFrom m k v) k' v' ↔ SetMap.Mem m k' v' ∧ ¬ (k' = k ∧ v' = v) := by
  rw [Ruby.deleteFrom, SetMap.mem_drop, mem_touch]

theorem mem_delete : SetMap.Mem (m.delete k) k' v' ↔ SetMap.Mem m k' v' ∧ k' ≠ k := by
  rw [SetMap.Mem, OMap.get_delete, SetMap.Mem]
  by_cases hk : k' = k <;> simp [hk]

end

/-- Both indices show the memberships. -/
structure Shows (g : Indices) (m : Memberships) : Prop where
  rooms : ∀ room ws, SetMap.Mem g.rooms room ws ↔ (ws, room) ∈ m
  socketRooms : ∀ ws room, SetMap.Mem g.socketRooms ws room ↔ (ws, room) ∈ m

section
variable {g : Indices} {m : Memberships} {ws : ℕ} {room : Text}

theorem mem_foldl_drop (joined : List Text) (rooms : SetMap Text ℕ) {room' : Text} {ws' : ℕ} :
    SetMap.Mem (joined.foldl (fun rooms room => rooms.drop room ws) rooms) room' ws' ↔
      SetMap.Mem rooms room' ws' ∧ ¬ (ws' = ws ∧ room' ∈ joined) := by
  induction joined generalizing rooms with
  | nil => simp
  | cons room joined ih =>
    rw [List.foldl_cons, ih, SetMap.mem_drop, List.mem_cons]
    tauto

theorem Shows.join (h : Shows g m) : Shows (g.join ws room) (insert (ws, room) m) where
  rooms room' ws' := by
    rw [Indices.join, SetMap.mem_add, h.rooms, Finset.mem_insert, Prod.mk.injEq]
    tauto
  socketRooms ws' room' := by
    rw [Indices.join, SetMap.mem_add, h.socketRooms, Finset.mem_insert, Prod.mk.injEq]
    tauto

theorem Shows.leave (h : Shows g m) : Shows (g.leave ws room) (m.erase (ws, room)) where
  rooms room' ws' := by
    rw [Indices.leave, SetMap.mem_drop, h.rooms, Finset.mem_erase, ne_eq, Prod.mk.injEq]
    tauto
  socketRooms ws' room' := by
    rw [Indices.leave, SetMap.mem_drop, h.socketRooms, Finset.mem_erase, ne_eq, Prod.mk.injEq]
    tauto

theorem Shows.leaveAll (h : Shows g m) : Shows (g.leaveAll ws) (m.filter (·.1 ≠ ws)) := by
  rw [Indices.leaveAll]
  split
  · next hnone =>
    have hout : ∀ room, (ws, room) ∉ m := by
      intro room hmem
      obtain ⟨xs, hxs, -⟩ := (h.socketRooms ws room).mpr hmem
      rw [hnone] at hxs
      cases hxs
    rw [Finset.filter_true_of_mem]
    · exact h
    · intro x hx heq
      exact hout x.2 (heq ▸ hx)
  · next joined hjoined =>
    have hkeys : ∀ room, room ∈ joined.entries.map Prod.fst ↔ (ws, room) ∈ m := by
      intro room
      rw [← h.socketRooms, ← mem_keys, SetMap.keys, hjoined]
      rfl
    refine ⟨fun room' ws' => ?_, fun ws' room' => ?_⟩
    · rw [mem_foldl_drop, h.rooms, hkeys, Finset.mem_filter]
      refine and_congr_right fun hmem => ⟨fun hno heq => ?_, fun hne hyes => hne hyes.1⟩
      exact hno ⟨heq, heq ▸ hmem⟩
    · rw [mem_delete, h.socketRooms, Finset.mem_filter]

/-- A list without repetitions that has the elements of a set. -/
theorem coe_eq_val {l : List ℕ} {s : Finset ℕ} (hnodup : l.Nodup) (h : ∀ x, x ∈ l ↔ x ∈ s) : (l : Multiset ℕ) = s.val :=
  (Multiset.Nodup.ext (Multiset.coe_nodup.mpr hnodup) s.nodup).mpr fun x => by rw [Multiset.mem_coe, h, Finset.mem_val]

theorem Shows.mem_keys (h : Shows g m) : ws ∈ SetMap.keys g.rooms room ↔ ws ∈ m.members room := by
  rw [RegistryPorts.mem_keys, h.rooms, Memberships.mem_members]

theorem Shows.length_keys (h : Shows g m) : (SetMap.keys g.rooms room).length = (m.members room).card := by
  rw [← Multiset.coe_card, coe_eq_val nodup_keys fun x => h.mem_keys, Finset.card_val]

theorem Shows.sent (h : Shows g m) (p : ℕ → Prop) [DecidablePred p] :
    ((SetMap.keys g.rooms room).filter fun ws => p ws : List ℕ) = ((m.members room).filter p).val := by
  refine coe_eq_val (nodup_keys.filter _) fun x => ?_
  rw [List.mem_filter, Finset.mem_filter, h.mem_keys, decide_eq_true_iff]

theorem Shows.call (h : Shows g m) (c : Call) :
    Shows (g.call c).1 (m.call c).1 ∧ (g.call c).2 = (m.call c).2 := by
  cases c with
  | join ws room => exact ⟨h.join, rfl⟩
  | leave ws room => exact ⟨h.leave, rfl⟩
  | leaveAll ws => exact ⟨h.leaveAll, rfl⟩
  | has ws room =>
    refine ⟨h, congrArg Answer.bool ?_⟩
    rw [Bool.eq_iff_iff, decide_eq_true_iff, Memberships.mem_members, ← h.rooms, SetMap.Mem]
    cases g.rooms.get room <;> simp
  | getRoomSize room =>
    refine ⟨h, congrArg Answer.size ?_⟩
    rw [← h.length_keys, SetMap.keys, List.length_map]
    cases g.rooms.get room <;> rfl
  | broadcast isOpen room exclude =>
    refine ⟨h, congrArg Answer.sent ?_⟩
    rw [← h.sent]
    refine congrArg _ (List.filter_congr fun ws _ => ?_)
    rw [Bool.decide_and, Bool.decide_eq_true]

/-! ### Ruby -/

theorem Shows.touchRooms (h : Shows g m) : Shows { g with rooms := Ruby.touch g.rooms room } m where
  rooms room' ws' := by rw [mem_touch, h.rooms]
  socketRooms := h.socketRooms

theorem Shows.touchSocketRooms (h : Shows g m) : Shows { g with socketRooms := Ruby.touch g.socketRooms ws } m where
  rooms := h.rooms
  socketRooms ws' room' := by rw [mem_touch, h.socketRooms]

theorem Shows.rubyLeave (h : Shows g m) : Shows (Ruby.leave g ws room) (m.erase (ws, room)) where
  rooms room' ws' := by
    rw [Ruby.leave, mem_deleteFrom, h.rooms, Finset.mem_erase, ne_eq, Prod.mk.injEq]
    tauto
  socketRooms ws' room' := by
    rw [Ruby.leave, mem_deleteFrom, h.socketRooms, Finset.mem_erase, ne_eq, Prod.mk.injEq]
    tauto

/-- The socket leaves one room after the other. -/
theorem Shows.rubyLeaves (rooms : List Text) (h : Shows g m) :
    Shows (rooms.foldl (fun g room => Ruby.leave g ws room) g) (rooms.foldl (fun m room => m.erase (ws, room)) m) := by
  induction rooms generalizing g m with
  | nil => exact h
  | cons room rooms ih => exact ih h.rubyLeave

theorem mem_foldl_erase (rooms : List Text) {x : ℕ × Text} :
    x ∈ rooms.foldl (fun m room => m.erase (ws, room)) m ↔ x ∈ m ∧ ¬ (x.1 = ws ∧ x.2 ∈ rooms) := by
  induction rooms generalizing m with
  | nil => simp
  | cons room rooms ih =>
    rw [List.foldl_cons, ih, Finset.mem_erase, ne_eq, Prod.ext_iff, List.mem_cons]
    tauto

theorem Shows.rubyLeaveAll (h : Shows g m) : Shows (Ruby.leaveAll g ws) (m.filter (·.1 ≠ ws)) := by
  have hall : (SetMap.keys g.socketRooms ws).foldl (fun m room => m.erase (ws, room)) m = m.filter (·.1 ≠ ws) := by
    ext x
    rw [mem_foldl_erase, Finset.mem_filter, RegistryPorts.mem_keys, h.socketRooms]
    refine and_congr_right fun hmem => ⟨fun hno heq => hno ⟨heq, heq ▸ hmem⟩, fun hne hyes => hne hyes.1⟩
  rw [← hall, Ruby.leaveAll]
  exact h.touchSocketRooms.rubyLeaves _

theorem Shows.rubyCall (h : Shows g m) {uuid : ℕ → Text} (huuid : Function.Injective uuid) (c : Call) :
    Shows (Ruby.call g uuid c).1 (m.call c).1 ∧ (Ruby.call g uuid c).2 = (m.call c).2 := by
  cases c with
  | join ws room => exact ⟨h.join, rfl⟩
  | leave ws room => exact ⟨h.rubyLeave, rfl⟩
  | leaveAll ws => exact ⟨h.rubyLeaveAll, rfl⟩
  | has ws room =>
    refine ⟨h.touchRooms, congrArg Answer.bool ?_⟩
    rw [Bool.eq_iff_iff, decide_eq_true_iff, decide_eq_true_iff]
    exact h.touchRooms.mem_keys
  | getRoomSize room => exact ⟨h.touchRooms, congrArg Answer.size h.touchRooms.length_keys⟩
  | broadcast isOpen room exclude =>
    refine ⟨h.touchRooms, congrArg Answer.sent ?_⟩
    rw [← h.touchRooms.sent, List.filter_filter]
    refine congrArg _ (List.filter_congr fun ws _ => ?_)
    have hexclude : some (uuid ws) ≠ exclude.map uuid ↔ exclude ≠ some ws := by
      cases exclude with
      | none => simp
      | some other => simp [huuid.eq_iff, eq_comm]
    rw [Bool.eq_iff_iff, Bool.and_eq_true, decide_eq_true_iff, decide_eq_true_iff, hexclude]
    exact and_comm

/-! ### TypeScript -/

/-- The registry of the server in TypeScript shows the memberships. -/
structure TsShows (g : Rooms.RoomRegistry) (m : Memberships) : Prop where
  represents : Represents g
  member : ∀ ws room, Member g ws room ↔ (ws, room) ∈ m

theorem TsShows.member_perform {g : Rooms.RoomRegistry} (h : TsShows g m) (op : Operation) {ws : ℕ} {room : Text} :
    Member (perform g op) ws room ↔ op = .join ws room ∨ (ws, room) ∈ m ∧ op ≠ .leave ws room ∧ op ≠ .leaveAll ws := by
  rw [member_perform_iff h.represents.consistent, h.member]

theorem TsShows.call {g : Rooms.RoomRegistry} (h : TsShows g m) (c : Call) :
    TsShows (tsCall g c).1 (m.call c).1 ∧ (tsCall g c).2 = (m.call c).2 := by
  have hmembers : ∀ ws room, ws ∈ (g.rooms.get room).getD [] ↔ ws ∈ m.members room := fun ws room =>
    (h.member ws room).trans Memberships.mem_members.symm
  have hnodup := h.represents.rooms.nodup
  cases c with
  | join ws room =>
    refine ⟨⟨h.represents.perform (.join ws room), fun ws' room' => ?_⟩, rfl⟩
    refine (h.member_perform (.join ws room)).trans ?_
    rw [Memberships.call, Finset.mem_insert, Prod.mk.injEq]
    grind
  | leave ws room =>
    refine ⟨⟨h.represents.perform (.leave ws room), fun ws' room' => ?_⟩, rfl⟩
    refine (h.member_perform (.leave ws room)).trans ?_
    rw [Memberships.call, Finset.mem_erase]
    grind
  | leaveAll ws =>
    refine ⟨⟨h.represents.perform (.leaveAll ws), fun ws' room' => ?_⟩, rfl⟩
    refine (h.member_perform (.leaveAll ws)).trans ?_
    rw [Memberships.call, Finset.mem_filter]
    grind
  | has ws room =>
    refine ⟨h, congrArg Answer.bool ?_⟩
    rw [Bool.eq_iff_iff, has_iff, decide_eq_true_iff]
    exact hmembers ws room
  | getRoomSize room =>
    refine ⟨h, congrArg Answer.size ?_⟩
    have hcard := congrArg Multiset.card (coe_eq_val (hnodup room) fun ws => hmembers ws room)
    rw [Multiset.coe_card, Finset.card_val] at hcard
    rw [← hcard, RoomRegistry.getRoomSize]
    cases g.rooms.get room <;> rfl
  | broadcast isOpen room exclude =>
    refine ⟨h, congrArg Answer.sent ?_⟩
    refine coe_eq_val ((hnodup room).filter _) fun ws => ?_
    rw [RoomRegistry.broadcast, List.mem_filter, Finset.mem_filter, hmembers, Bool.and_eq_true, decide_eq_true_iff]

end

/-! ## The same answers -/

/-- A uuid for every socket. -/
def uuids (ws : ℕ) : Text := List.replicate ws 48

theorem uuids_injective : Function.Injective uuids := fun ws ws' h => by
  have hlength := congrArg List.length h
  rwa [uuids, uuids, List.length_replicate, List.length_replicate] at hlength

def calls : List Call :=
  [.join 1 (js "a"), .join 2 (js "a"), .join 1 (js "b"), .broadcast (fun _ => true) (js "a") (some 2), .leaveAll 1,
    .has 1 (js "b"), .getRoomSize (js "a")]

end TypeFerry.Server.RegistryPorts
