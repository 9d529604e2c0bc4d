import TypeFerry.Server.UserIndex

/-! # The map of clients and reconnects

`allClients` has one node for each uuid, and a client keeps its uuid when it
reconnects. As long as no socket goes while another one of its client is open, the map
leads from each open socket to an open one, which is what leaving out the originator of
an event goes by. -/
namespace TypeFerry.Server.ClientMap
open TypeFerry.Lib.Numeral TypeFerry.Lib.OrderedMap TypeFerry.Lib.Runs
open TypeFerry.Server.Rooms (RoomRegistry)
open TypeFerry.Server.Clients TypeFerry.Server.UserIndex

/-- The nodes whose socket the step shuts. -/
def shuts (s : State) : Action → List ℕ
  | .shut n => [n]
  | .authResult n outcome => if (s.nodes n).isOpen && closes outcome then [n] else []
  | .disconnectUser userId except => s.disconnected userId except
  | _ => []

/-- No open socket loses its place: where the step shuts the socket the map leads to, or
deletes its entry, no other socket of that client stays open. -/
def KeepsPlace (s : State) (a : Action) : Prop :=
  match a with
  | .closed n => ∀ m < s.next, (s.nodes m).isOpen = true → (s.nodes m).uuid ≠ (s.nodes n).uuid
  | a => ∀ n ∈ shuts s a, s.allClients.get (s.nodes n).uuid = some n →
    ∀ m < s.next, (s.nodes m).isOpen = true → (s.nodes m).uuid = (s.nodes n).uuid → m ∈ shuts s a

instance (s : State) (a : Action) : Decidable (KeepsPlace s a) := by
  unfold KeepsPlace
  cases a <;> infer_instance

/-- The map leads from the uuid of each open socket to an open socket of that uuid. -/
structure Placed (s : State) : Prop where
  placed : ∀ n, (s.nodes n).isOpen = true →
    ∃ m, s.allClients.get (s.nodes n).uuid = some m ∧ (s.nodes m).isOpen = true
  owned : ∀ u m, s.allClients.get u = some m → (s.nodes m).uuid = u ∧ m < s.next

section
variable {cfg : Config} {s s' : State} {a : Action}

/-- The step changes neither the map nor which sockets are open. -/
theorem Placed.same (h : Placed s) (hclients : s'.allClients = s.allClients) (hnext : s.next ≤ s'.next)
    (hold : ∀ n < s.next, (s'.nodes n).isOpen = (s.nodes n).isOpen ∧ (s'.nodes n).uuid = (s.nodes n).uuid)
    (hnew : ∀ n, s.next ≤ n → (s'.nodes n).isOpen = false) : Placed s' := by
  refine ⟨fun n hopen => ?_, fun u m hm => ?_⟩
  · have hlt : n < s.next := by
      by_contra hge
      rw [hnew n (Nat.le_of_not_lt hge)] at hopen
      cases hopen
    obtain ⟨ho, hu⟩ := hold n hlt
    rw [ho] at hopen
    obtain ⟨m, hm, hmo⟩ := h.placed n hopen
    refine ⟨m, ?_, ?_⟩
    · rw [hclients, hu, hm]
    · rw [(hold m (h.owned _ m hm).2).1, hmo]
  · rw [hclients] at hm
    obtain ⟨hu, hlt⟩ := h.owned u m hm
    exact ⟨(hold m hlt).2.trans hu, Nat.lt_of_lt_of_le hlt hnext⟩

/-- A node is written whose socket and uuid stay as they are. -/
theorem Placed.put (hw : WellFormed s) (h : Placed s) {n : ℕ} {node : Node}
    (hnodes : s'.nodes = Function.update s.nodes n node) (hopen : node.isOpen = (s.nodes n).isOpen)
    (huuid : node.uuid = (s.nodes n).uuid) (hclients : s'.allClients = s.allClients)
    (hnext : s'.next = s.next) : Placed s' := by
  have hsame : ∀ m, (s'.nodes m).isOpen = (s.nodes m).isOpen ∧ (s'.nodes m).uuid = (s.nodes m).uuid := by
    intro m
    rw [hnodes]
    by_cases hmn : m = n
    · subst hmn
      rw [Function.update_self]
      exact ⟨hopen, huuid⟩
    · rw [Function.update_of_ne hmn]
      exact ⟨rfl, rfl⟩
  refine h.same hclients hnext.ge (fun m _ => hsame m) fun m hm => ?_
  rw [(hsame m).1, hw.absent m hm]
  rfl

/-- Some sockets are shut. -/
theorem Placed.shut (hw : WellFormed s) (h : Placed s) {ns : List ℕ}
    (hclients : s'.allClients = s.allClients) (hnext : s'.next = s.next)
    (hin : ∀ n ∈ ns, (s'.nodes n).isOpen = false ∧ (s'.nodes n).uuid = (s.nodes n).uuid)
    (hout : ∀ n, n ∉ ns → s'.nodes n = s.nodes n)
    (hkeeps : ∀ n ∈ ns, s.allClients.get (s.nodes n).uuid = some n →
      ∀ m < s.next, (s.nodes m).isOpen = true → (s.nodes m).uuid = (s.nodes n).uuid → m ∈ ns) :
    Placed s' := by
  refine ⟨fun n hopen => ?_, fun u m hm => ?_⟩
  · have hn : n ∉ ns := by
      intro hn
      rw [(hin n hn).1] at hopen
      cases hopen
    rw [hout n hn] at hopen ⊢
    obtain ⟨m, hm, hmo⟩ := h.placed n hopen
    have hmn : m ∉ ns := by
      intro hmn
      have hu := (h.owned _ m hm).1
      rw [← hu] at hm
      exact hn (hkeeps m hmn hm n (hw.lt_next (hw.live n hopen).hasSocket) hopen hu.symm)
    refine ⟨m, ?_, ?_⟩
    · rw [hclients, hm]
    · rw [hout m hmn, hmo]
  · rw [hclients] at hm
    obtain ⟨hu, hlt⟩ := h.owned u m hm
    rw [hnext]
    by_cases hmn : m ∈ ns
    · exact ⟨(hin m hmn).2.trans hu, hlt⟩
    · rw [hout m hmn]
      exact ⟨hu, hlt⟩

/-- A socket is opened. -/
theorem placed_connect (h : Placed s) {uuid token : Option Text} {random : Text} :
    Placed (s.handleConnection cfg uuid token random) := by
  rw [handleConnection_eq]
  refine ⟨fun n hopen => ?_, fun u m hm => ?_⟩
  · dsimp only at hopen ⊢
    by_cases hn : n = s.next
    · subst hn
      exact ⟨s.next, by simp, by simp⟩
    · rw [Function.update_of_ne hn] at hopen ⊢
      rw [OMap.get_set]
      split
      · exact ⟨s.next, rfl, by simp⟩
      · obtain ⟨m, hm, hmo⟩ := h.placed n hopen
        refine ⟨m, hm, ?_⟩
        rw [Function.update_of_ne (Nat.ne_of_lt (h.owned _ m hm).2), hmo]
  · dsimp only at hm ⊢
    rw [OMap.get_set] at hm
    split at hm
    · next hu =>
      cases hm
      simp [hu]
    · obtain ⟨hu, hlt⟩ := h.owned u m hm
      rw [Function.update_of_ne (Nat.ne_of_lt hlt)]
      exact ⟨hu, Nat.lt_succ_of_lt hlt⟩

/-- The close handler deletes an entry that no open socket needs. -/
theorem placed_closed (hw : WellFormed s) (h : Placed s) {n : ℕ} (hshut : (s.nodes n).isOpen = false)
    (hkeeps : KeepsPlace s (.closed n)) : Placed ((s.close n).deleteClient n) := by
  rw [deleteClient_close_eq hw.shut_of_closed]
  refine ⟨fun m hopen => ?_, fun u m hm => ?_⟩
  · dsimp only at hopen ⊢
    have hmn : m ≠ n := by
      intro hmn
      subst hmn
      rw [Function.update_self] at hopen
      cases hopen
    rw [Function.update_of_ne hmn] at hopen ⊢
    obtain ⟨k, hk, hko⟩ := h.placed m hopen
    have hkn : k ≠ n := by
      intro hkn
      rw [hkn, hshut] at hko
      cases hko
    refine ⟨k, ?_, ?_⟩
    · rw [OMap.get_delete, if_neg (hkeeps m (hw.lt_next (hw.live m hopen).hasSocket) hopen), hk]
    · rw [Function.update_of_ne hkn, hko]
  · dsimp only at hm ⊢
    rw [OMap.get_delete] at hm
    split at hm
    · cases hm
    · obtain ⟨hu, hlt⟩ := h.owned u m hm
      by_cases hmn : m = n
      · subst hmn
        rw [Function.update_self]
        exact ⟨hu, hlt⟩
      · rw [Function.update_of_ne hmn]
        exact ⟨hu, hlt⟩

theorem placed_step (hw : WellFormed s) (h : Placed s) (hok : KeepsPlace s a)
    (hs : step cfg s a = some s') : Placed s' := by
  cases a with
  | connect uuid token random =>
    cases hs
    exact placed_connect h
  | authResult n outcome =>
    obtain ⟨-, ⟨-, rfl⟩ | ⟨hopen, rfl⟩⟩ := authResult_cases hw hs
    · exact ⟨h.placed, h.owned⟩
    · cases hcloses : closes outcome with
      | false => exact h.put hw rfl (by simp [hopen]) rfl rfl rfl
      | true =>
        have hshuts : shuts s (.authResult n outcome) = [n] := by simp [shuts, hopen, hcloses]
        rw [KeepsPlace, hshuts] at hok
        · refine h.shut hw rfl rfl (fun m hm => ?_) (fun m hm => ?_) hok
          · rw [List.mem_singleton.mp hm]
            simp
          · exact Function.update_of_ne (fun hmn => hm (List.mem_singleton.mpr hmn)) _ _
        · exact nofun
  | httpRequest uuid context =>
    rw [step, buildClientNode_eq] at hs
    cases hs
    refine h.same rfl (Nat.le_succ _) (fun m hm => ?_) fun m hm => ?_
    · dsimp only
      rw [Function.update_of_ne (Nat.ne_of_lt hm)]
      exact ⟨rfl, rfl⟩
    · dsimp only
      by_cases hmn : m = s.next
      · subst hmn
        rw [Function.update_self]
        rfl
      · rw [Function.update_of_ne hmn, hw.absent m hm]
        rfl
  | rpcLogout n =>
    rw [step] at hs
    split at hs <;> cases hs
    exact ⟨h.placed, h.owned⟩
  | resumeLogout n =>
    rw [step] at hs
    split at hs <;> cases hs
    exact @Placed.put s _ hw h n _ rfl rfl rfl rfl rfl
  | shut n =>
    cases hs
    refine @Placed.shut s _ hw h [n] rfl rfl (fun m hm => ?_) (fun m hm => ?_) hok
    · rw [List.mem_singleton.mp hm]
      simp [State.updateNode]
    · exact Function.update_of_ne (fun hmn => hm (List.mem_singleton.mpr hmn)) _ _
  | closed n =>
    rw [step] at hs
    split at hs
    · next hguard =>
      cases hs
      simp only [Bool.and_eq_true, Bool.not_eq_true'] at hguard
      exact placed_closed hw h hguard.1.2 hok
    · cases hs
  | disconnectUser userId except =>
    cases hs
    rw [disconnectUser_eq hw]
    refine h.shut hw rfl rfl (fun m hm => ?_) (fun m hm => if_neg hm) hok
    dsimp only
    rw [if_pos hm]
    exact ⟨rfl, rfl⟩
  | propagate excludeUuid =>
    cases hs
    exact h

theorem placed_of_reach (h : (machine cfg).Reach KeepsPlace s) : WellFormed s ∧ Placed s := by
  refine h.invariant (fun t => WellFormed t ∧ Placed t)
    ⟨wellFormed_init, fun n hopen => ?_, fun u m hm => ?_⟩ ?_
  · cases hopen
  · cases hm
  · intro t a t' ⟨hw, hp⟩ hok hs
    exact ⟨wellFormed_step hw hs, placed_step hw hp hok hs⟩

/-- **The client map survives**, as long as no socket goes while another open one of its
client needs the place: it leads from each open socket to an open one. So an event that
leaves out its originator, of a uuid that is not empty, does not reach the originator's only
open socket, whatever the rooms are. -/
theorem client_map_survives (h : (machine cfg).Reach KeepsPlace s) :
    (∀ n, (s.nodes n).isOpen = true →
      ∃ m, s.allClients.get (s.nodes n).uuid = some m ∧ (s.nodes m).isOpen = true) ∧
    ∀ (u : Text) (n : ℕ), u ≠ [] → (s.nodes n).isOpen = true → (s.nodes n).uuid = u →
      (∀ m, (s.nodes m).isOpen = true → (s.nodes m).uuid = u → m = n) →
      ∀ (rooms : RoomRegistry) (room : Text),
        n ∉ rooms.broadcast (fun ws => (s.nodes ws).isOpen) room (s.excluded (some u)) := by
  obtain ⟨-, hp⟩ := placed_of_reach h
  refine ⟨hp.placed, fun u n hne hopen hu honly rooms room hin => ?_⟩
  obtain ⟨m, hm, hmo⟩ := hp.placed n hopen
  rw [hu] at hm
  have hmn := honly m hmo (hp.owned u m hm).1
  have hexcluded : s.excluded (some u) = some n := by
    rw [State.excluded, if_neg hne, hm, hmn]
  have hsent := (List.mem_filter.mp hin).2
  rw [hexcluded] at hsent
  simp at hsent

end

/-! ## Two runs -/

/-- A client reconnects before the server has seen the end of its first socket. -/
def reconnected : List Action :=
  [.connect (some (js "u")) none [], .connect (some (js "u")) none []]

theorem client_map_survives_reconnected : ∃ s, (machine tokens).Reach KeepsPlace s ∧
    (s.nodes 0).isOpen = false ∧ ∃ m, s.allClients.get (s.nodes 1).uuid = some m ∧
      (s.nodes m).isOpen = true := by
  obtain ⟨s, hs, hp⟩ := (machine tokens).exists_of_exec KeepsPlace init
    (reconnected ++ [.shut 0]) (fun s => !(s.nodes 0).isOpen && (s.nodes 1).isOpen) (by decide)
  simp only [Bool.and_eq_true, Bool.not_eq_true'] at hp
  exact ⟨s, hs, hp.1, (client_map_survives hs).1 1 hp.2⟩

/-- The end of the first socket takes the second one out of the map, and an event that is to
leave out the client reaches it. -/
theorem reconnected_client_unmapped : ∃ s, (machine tokens).Reach anyStep s ∧
    (s.nodes 1).isOpen = true ∧ (s.nodes 1).uuid = js "u" ∧ s.allClients.get (js "u") = none ∧
    1 ∈ (RoomRegistry.join ⟨.empty, .empty⟩ 1 (js "r")).broadcast (fun ws => (s.nodes ws).isOpen)
      (js "r") (s.excluded (some (js "u"))) := by
  obtain ⟨s, hs, hp⟩ := (machine tokens).exists_of_exec anyStep init
    (reconnected ++ [.shut 0, .closed 0])
    (fun s => (s.nodes 1).isOpen && decide ((s.nodes 1).uuid = js "u") &&
      decide (s.allClients.get (js "u") = none) &&
      decide (1 ∈ (RoomRegistry.join ⟨.empty, .empty⟩ 1 (js "r")).broadcast
        (fun ws => (s.nodes ws).isOpen) (js "r") (s.excluded (some (js "u"))))) (by decide)
  simp only [Bool.and_eq_true, decide_eq_true_eq] at hp
  exact ⟨s, hs, hp.1.1.1, hp.1.1.2, hp.1.2, hp.2⟩

end TypeFerry.Server.ClientMap
