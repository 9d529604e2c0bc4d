import Mathlib.Data.Set.Card
import TypeFerry.Server.Registry

/-! # The room registry over a whole run

Three operations edit two maps that are to be inverse to each other. Over any
sequence of them the maps stay inverse, no set is left empty, and a socket is in a
room exactly while its last `join` of the room stands. -/
namespace TypeFerry.Server.RoomIndex
open TypeFerry.Lib.Numeral TypeFerry.Lib.OrderedMap
open TypeFerry.Server.Rooms TypeFerry.Server.Membership TypeFerry.Server.Registry

inductive Operation where
  | join (ws : ℕ) (room : Text)
  | leave (ws : ℕ) (room : Text)
  | leaveAll (ws : ℕ)
  deriving DecidableEq

def perform (g : RoomRegistry) : Operation → RoomRegistry
  | .join ws room => g.join ws room
  | .leave ws room => g.leave ws room
  | .leaveAll ws => g.leaveAll ws

/-- A new registry after the operations. -/
def after (ops : List Operation) : RoomRegistry := ops.foldl perform ⟨.empty, .empty⟩

theorem after_append (ops : List Operation) (op : Operation) : after (ops ++ [op]) = perform (after ops) op :=
  List.foldl_append

/-! ## Maps of sets -/

/-- Every key of the map has a set, and no set is empty. -/
def IsIndex {κ α : Type} [DecidableEq κ] (m : OMap κ (List α)) : Prop :=
  ∀ k xs, m.get k = some xs → xs ≠ [] ∧ xs.Nodup

section
variable {κ α : Type} [DecidableEq κ] [DecidableEq α] {m : OMap κ (List α)} {k : κ} {x : α} {xs : List α}

theorem nodup_addTo (h : xs.Nodup) : (addTo x xs).Nodup := by
  unfold addTo
  split
  · exact h
  · next hx =>
    rw [List.nodup_append]
    refine ⟨h, List.nodup_singleton x, fun y hy z hz hyz => hx ?_⟩
    rwa [← List.mem_singleton.mp hz, ← hyz]

theorem addTo_ne_nil : addTo x xs ≠ [] :=
  List.ne_nil_of_mem (mem_addTo_iff.mpr (.inr rfl))

omit [DecidableEq α] in
theorem IsIndex.nodup (h : IsIndex m) (k : κ) : ((m.get k).getD []).Nodup := by
  cases hk : m.get k with
  | none => exact List.nodup_nil
  | some xs => exact (h k xs hk).2

omit [DecidableEq α] in
theorem IsIndex.set (h : IsIndex m) (hxs : xs ≠ [] ∧ xs.Nodup) : IsIndex (m.set k xs) := by
  intro k' ys hget
  rw [OMap.get_set] at hget
  split at hget
  · cases hget
    exact hxs
  · exact h k' ys hget

omit [DecidableEq α] in
theorem IsIndex.delete (h : IsIndex m) : IsIndex (m.delete k) := by
  intro k' ys hget
  rw [OMap.get_delete] at hget
  split at hget
  · cases hget
  · exact h k' ys hget

/-- `set.add(x)`, in a new set if there is none. -/
theorem IsIndex.add (h : IsIndex m) : IsIndex (m.set k (addTo x ((m.get k).getD []))) :=
  h.set ⟨addTo_ne_nil, nodup_addTo (h.nodup k)⟩

/-- `set.delete(x)` where a member is left. -/
theorem IsIndex.rest (h : IsIndex m) (hk : m.get k = some xs) (hrest : deleteFrom x xs ≠ []) :
    IsIndex (m.set k (deleteFrom x xs)) :=
  h.set ⟨hrest, (h k xs hk).2.filter _⟩

end

/-! ## The invariant -/

structure Represents (g : RoomRegistry) : Prop where
  consistent : Consistent g
  rooms : IsIndex g.rooms
  socketRooms : IsIndex g.socketRooms

theorem isIndex_dropMember {rooms : OMap Text (List ℕ)} (h : IsIndex rooms) (ws : ℕ) (room : Text) :
    IsIndex (RoomRegistry.dropMember ws rooms room) := by
  unfold RoomRegistry.dropMember
  split
  · next members hm =>
    split
    · exact h.delete
    · next hrest => exact h.rest hm hrest
  · exact h

theorem isIndex_dropAll (ws : ℕ) (joined : List Text) : ∀ rooms : OMap Text (List ℕ), IsIndex rooms →
    IsIndex (joined.foldl (RoomRegistry.dropMember ws) rooms) := by
  induction joined with
  | nil => exact fun _ h => h
  | cons room joined ih => exact fun _ h => ih _ (isIndex_dropMember h ws room)

variable {g : RoomRegistry}

theorem Represents.leave (h : Represents g) (ws : ℕ) (room : Text) : Represents (g.leave ws room) := by
  refine ⟨consistent_leave h.consistent ws room, isIndex_dropMember h.rooms ws room, ?_⟩
  unfold RoomRegistry.leave
  dsimp only
  split
  · next joined hj =>
    split
    · exact h.socketRooms.delete
    · next hrest => exact h.socketRooms.rest hj hrest
  · exact h.socketRooms

theorem Represents.leaveAll (h : Represents g) (ws : ℕ) : Represents (g.leaveAll ws) := by
  refine ⟨consistent_leaveAll h.consistent ws, ?_, ?_⟩
  · unfold RoomRegistry.leaveAll
    split
    · exact isIndex_dropAll ws _ _ h.rooms
    · exact h.rooms
  · intro ws' joined hget
    rw [socketRooms_leaveAll] at hget
    split at hget
    · cases hget
    · exact h.socketRooms ws' joined hget

theorem Represents.perform (h : Represents g) (op : Operation) : Represents (perform g op) := by
  cases op with
  | join ws room => exact ⟨consistent_join h.consistent ws room, h.rooms.add, h.socketRooms.add⟩
  | leave ws room => exact h.leave ws room
  | leaveAll ws => exact h.leaveAll ws

theorem represents_after (ops : List Operation) : Represents (after ops) := by
  induction ops using List.reverseRecOn with
  | nil => exact ⟨fun _ _ => ⟨nofun, nofun⟩, nofun, nofun⟩
  | append_singleton ops op ih =>
    rw [after_append]
    exact ih.perform op

/-! ## The last `join` -/

/-- The last `join` of the room by the socket was followed by no `leave` of it and by no `leaveAll`. -/
def LastJoinStands (ops : List Operation) (ws : ℕ) (room : Text) : Prop :=
  ∃ before later, ops = before ++ .join ws room :: later ∧
    .join ws room ∉ later ∧ .leave ws room ∉ later ∧ .leaveAll ws ∉ later

theorem lastJoinStands_append {ops : List Operation} {op : Operation} {ws : ℕ} {room : Text} :
    LastJoinStands (ops ++ [op]) ws room ↔
      op = .join ws room ∨ LastJoinStands ops ws room ∧ op ≠ .leave ws room ∧ op ≠ .leaveAll ws := by
  constructor
  · intro ⟨before, later, hops, hjoin, hleave, hall⟩
    induction later using List.reverseRecOn with
    | nil => exact .inl (List.singleton_inj.mp (List.append_inj' hops rfl).2)
    | append_singleton later last _ =>
      rw [← List.cons_append, ← List.append_assoc] at hops
      obtain ⟨rfl, hlast⟩ := List.append_inj' hops rfl
      obtain rfl := List.singleton_inj.mp hlast
      simp only [List.mem_append, List.mem_singleton, not_or] at hjoin hleave hall
      exact .inr ⟨⟨before, later, rfl, hjoin.1, hleave.1, hall.1⟩, Ne.symm hleave.2, Ne.symm hall.2⟩
  · intro h
    by_cases hop : op = .join ws room
    · exact ⟨ops, [], by rw [hop], List.not_mem_nil, List.not_mem_nil, List.not_mem_nil⟩
    · obtain ⟨⟨before, later, rfl, hjoin, hleave, hall⟩, hne, hne'⟩ := h.resolve_left hop
      refine ⟨before, later ++ [op], by rw [List.append_assoc, List.cons_append], ?_, ?_, ?_⟩
      all_goals simp_all [eq_comm]

theorem member_perform_iff (h : Consistent g) {op : Operation} {ws : ℕ} {room : Text} :
    Member (perform g op) ws room ↔
      op = .join ws room ∨ Member g ws room ∧ op ≠ .leave ws room ∧ op ≠ .leaveAll ws := by
  cases op with
  | join ws' room' =>
    rw [perform, member_join_iff]
    grind
  | leave ws' room' =>
    rw [perform, member_leave_iff]
    grind
  | leaveAll ws' =>
    rw [perform, member_leaveAll_iff h]
    grind

theorem member_after_iff {ops : List Operation} {ws : ℕ} {room : Text} :
    Member (after ops) ws room ↔ LastJoinStands ops ws room := by
  induction ops using List.reverseRecOn with
  | nil => exact ⟨nofun, fun ⟨before, later, h, _⟩ => by cases before <;> cases h⟩
  | append_singleton ops op ih =>
    rw [after_append, member_perform_iff (represents_after ops).consistent, lastJoinStands_append, ih]

/-! ## What the methods answer -/

theorem has_iff {ws : ℕ} {room : Text} : g.has ws room = true ↔ Member g ws room := by
  rw [RoomRegistry.has, Member]
  cases g.rooms.get room with
  | none => simp
  | some members => simp

theorem encard_has (h : Represents g) (room : Text) :
    Set.encard {ws | g.has ws room = true} = g.getRoomSize room := by
  have hset : {ws | g.has ws room = true} = (((g.rooms.get room).getD []).toFinset : Set ℕ) := by
    ext ws
    rw [Set.mem_ofPred_eq, has_iff, Member, Finset.mem_coe, List.mem_toFinset]
  have hsize : g.getRoomSize room = ((g.rooms.get room).getD []).length := by
    rw [RoomRegistry.getRoomSize]
    cases g.rooms.get room <;> rfl
  rw [hset, Set.encard_coe_eq_coe_finsetCard, List.toFinset_card_of_nodup (h.rooms.nodup room), hsize]

theorem filter_eq_of_nodup {xs : List ℕ} (h : xs.Nodup) (x : ℕ) :
    xs.filter (· = x) = if x ∈ xs then [x] else [] := by
  rw [List.filter_eq, h.count]
  split <;> rfl

theorem filter_sends (h : Represents g) (isOpen : ℕ → Bool) (room data : Text) (exclude : Option ℕ) (ws : ℕ) :
    (g.sends isOpen room data exclude).filter (·.1 = ws) =
      if g.has ws room ∧ isOpen ws ∧ exclude ≠ some ws then [(ws, data)] else [] := by
  have hnodup : (g.broadcast isOpen room exclude).Nodup := (h.rooms.nodup room).filter _
  have hmem : ws ∈ g.broadcast isOpen room exclude ↔
      g.has ws room ∧ isOpen ws ∧ exclude ≠ some ws := by
    rw [has_iff, RoomRegistry.broadcast, List.mem_filter, Bool.and_eq_true, decide_eq_true_iff,
      and_comm (a := exclude ≠ _), Member]
  rw [RoomRegistry.sends, List.filter_map]
  simp only [Function.comp_def]
  rw [filter_eq_of_nodup hnodup]
  simp only [hmem]
  split <;> rfl

/-- **The registry represents the memberships.** After any sequence of operations the two
maps are inverse to each other and hold no empty set, a socket is in a room exactly if its last
`join` of it stands, the size of a room counts these sockets, and `broadcast` sends the data
once to each of them that is open and not excluded, and nothing to any other. -/
theorem registry_represents (ops : List Operation) :
    (∀ ws room, Member (after ops) ws room ↔ Joined (after ops) ws room) ∧
    ((∀ room, (after ops).rooms.get room ≠ some []) ∧ ∀ ws, (after ops).socketRooms.get ws ≠ some []) ∧
    (∀ ws room, (after ops).has ws room = true ↔ LastJoinStands ops ws room) ∧
    (∀ room, Set.encard {ws | (after ops).has ws room = true} =
      (after ops).getRoomSize room) ∧
    ∀ isOpen room data exclude ws,
      ((after ops).sends isOpen room data exclude).filter (·.1 = ws) =
        if (after ops).has ws room ∧ isOpen ws ∧ exclude ≠ some ws then [(ws, data)] else [] := by
  have h := represents_after ops
  refine ⟨h.consistent, ⟨?_, ?_⟩, ?_, encard_has h, filter_sends h⟩
  · exact fun room hempty => (h.rooms room [] hempty).1 rfl
  · exact fun ws hempty => (h.socketRooms ws [] hempty).1 rfl
  · intro ws room
    rw [has_iff, member_after_iff]

end TypeFerry.Server.RoomIndex
