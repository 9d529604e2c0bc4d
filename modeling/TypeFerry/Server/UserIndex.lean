import TypeFerry.Server.Clients

/-! # The index of users

What every operation does to the nodes and to the index, and from it what the index
says in the states of a run: it names exactly the connected nodes of a user, as long
as nobody logs out and no HTTP request is authenticated. -/
namespace TypeFerry.Server.UserIndex
open TypeFerry.Lib.Numeral TypeFerry.Lib.OrderedMap TypeFerry.Lib.Runs
open TypeFerry.Server.Rooms (addTo deleteFrom RoomRegistry)
open TypeFerry.Server.Membership (mem_addTo_iff mem_deleteFrom_iff mem_dropMember_iff)
open TypeFerry.Server.Clients

/-! ## What the operations do -/

/-- The flags of the auth frames that are sent: one, or none if a listener closes the node. -/
def frames : Outcome → List Bool
  | .context (.truthy _) .returns => [true]
  | .context (.truthy _) .closes => []
  | _ => [false]

/-- A listener closes the node. -/
def closes : Outcome → Bool
  | .context (.truthy _) .closes => true
  | _ => false

/-- The outcome sets `authenticated`. -/
def authenticates : Outcome → Bool
  | .context _ _ => true
  | _ => false

/-- The text of the `user._id` of the context. -/
def userOf : Outcome → Option Text
  | .context user _ => user.text
  | _ => none

/-- The index with one more node, unless the user has no name. -/
def indexed (index : OMap Text (List ℕ)) (n : ℕ) : Option Text → OMap Text (List ℕ)
  | none => index
  | some userId =>
    if userId = [] then index else index.set userId (addTo n ((index.get userId).getD []))

section
variable {s s' : State} {n : ℕ}

theorem indexClientByUserId_eq :
    s.indexClientByUserId n =
      { s with clientsByUserId := indexed s.clientsByUserId n (s.nodes n).userId } := by
  unfold State.indexClientByUserId indexed
  cases (s.nodes n).userId with
  | none => rfl
  | some userId =>
    dsimp only
    split
    · rfl
    · rfl

/-- **The end of an authentication**, for a node that is not authenticated yet. -/
theorem finishAuth_eq {outcome : Outcome} (hopen : (s.nodes n).isOpen = true)
    (hsocket : (s.nodes n).hasSocket = true) (hclosed : (s.nodes n).closed = false)
    (hauth : (s.nodes n).isAuthenticated = false) (huser : (s.nodes n).userId = none) :
    s.finishAuth n outcome =
      { s with
        nodes := Function.update s.nodes n { s.nodes n with
          isOpen := !closes outcome
          isAuthenticated := authenticates outcome
          userId := userOf outcome
          closed := closes outcome
          authFrames := (s.nodes n).authFrames ++ frames outcome }
        clientsByUserId := indexed s.clientsByUserId n (userOf outcome) } := by
  unfold State.finishAuth
  rw [if_pos hopen]
  cases outcome with
  | falsy =>
    simp [State.emitAuthResult, State.updateNode, hopen, hsocket, hclosed, hauth, huser, authenticates,
      userOf, frames, closes, indexed]
  | context user listener =>
    cases user with
    | falsy =>
      simp [State.emitAuthResult, State.setAuthenticated, State.setContext, State.updateNode, hopen,
        hsocket, hclosed, authenticates, userOf, UserId.text, frames, closes, indexed, huser]
    | truthy userId =>
      cases listener <;>
        simp [State.emitAuthResult, State.setAuthenticated, State.setContext, State.updateNode,
          State.close, indexClientByUserId_eq, hopen, hsocket, hclosed, authenticates, userOf,
          UserId.text, frames, closes]
  | threw =>
    simp [State.emitAuthResult, State.updateNode, hopen, hsocket, hclosed, hauth, huser, authenticates,
      userOf, frames, closes, indexed]
  | timedOut =>
    simp [State.emitAuthResult, State.updateNode, hopen, hsocket, hclosed, hauth, huser, authenticates,
      userOf, frames, closes, indexed]

theorem finishAuth_shut {outcome : Outcome} (h : (s.nodes n).isOpen = false) :
    s.finishAuth n outcome = s := by
  unfold State.finishAuth
  rw [if_neg (by rw [h]; exact Bool.false_ne_true)]

theorem handleConnection_eq {cfg : Config} {uuid token : Option Text} {random : Text} :
    s.handleConnection cfg uuid token random =
      { s with
        nodes := Function.update s.nodes s.next { Node.absent with
          uuid := validateUuid uuid random, hasSocket := true, isOpen := true
          authFrames := if cfg.authenticates token then [] else [false] }
        next := s.next + 1
        allClients := s.allClients.set (validateUuid uuid random) s.next
        awaiting := if cfg.authenticates token then s.awaiting ++ [s.next] else s.awaiting } := by
  unfold State.handleConnection
  by_cases h : cfg.authenticates token
  · simp [h, State.addClient, State.updateNode, Node.absent]
  · simp [h, State.addClient, State.updateNode, State.emitAuthResult, Node.absent]

theorem buildClientNode_eq {uuid : Text} {context : Option UserId} :
    s.buildClientNode uuid context =
      { s with
        nodes := Function.update s.nodes s.next { Node.absent with
          uuid := uuid, isAuthenticated := context.isSome, userId := context.bind UserId.text }
        next := s.next + 1
        clientsByUserId := indexed s.clientsByUserId s.next (context.bind UserId.text) } := by
  unfold State.buildClientNode
  rcases context with _ | _ | userId <;>
    simp [State.setAuthenticated, State.setContext, State.updateNode, indexClientByUserId_eq, indexed,
      Node.absent, UserId.text]

/-- The index without the node. -/
def unindexed (index : OMap Text (List ℕ)) (n : ℕ) : Option Text → OMap Text (List ℕ)
  | none => index
  | some userId => if userId = [] then index else RoomRegistry.dropMember n index userId

theorem removeClientFromUserIndex_eq : s.removeClientFromUserIndex n =
    { s with clientsByUserId := unindexed s.clientsByUserId n (s.nodes n).userId } := by
  unfold State.removeClientFromUserIndex unindexed
  cases (s.nodes n).userId with
  | none => rfl
  | some userId =>
    dsimp only
    split
    · rfl
    · rfl

/-- The node behind `close()`. -/
def shutNode (node : Node) : Node := { node with closed := true, isOpen := false }

theorem close_eq (hclosed : (s.nodes n).closed = true → (s.nodes n).isOpen = false) :
    s.close n = { s with nodes := Function.update s.nodes n (shutNode (s.nodes n)) } := by
  unfold State.close
  split
  · next h =>
    have hnode : shutNode (s.nodes n) = s.nodes n := by
      rw [shutNode, ← h, ← hclosed h]
    rw [hnode, Function.update_eq_self]
  · rfl

/-- **The close handler.** -/
theorem deleteClient_close_eq (hclosed : (s.nodes n).closed = true → (s.nodes n).isOpen = false) :
    (s.close n).deleteClient n =
      { s with
        nodes := Function.update s.nodes n { shutNode (s.nodes n) with deleted := true }
        allClients := s.allClients.delete (s.nodes n).uuid
        clientsByUserId := unindexed s.clientsByUserId n (s.nodes n).userId } := by
  rw [close_eq hclosed, State.deleteClient, removeClientFromUserIndex_eq]
  simp [State.updateNode, shutNode]

theorem mem_indexed {index : OMap Text (List ℕ)} {userId : Option Text} {m : ℕ} {u : Text} :
    m ∈ ((indexed index n userId).get u).getD [] ↔
      m ∈ (index.get u).getD [] ∨ m = n ∧ userId = some u ∧ u ≠ [] := by
  unfold indexed
  split
  · simp
  · next id =>
    split
    · next hid =>
      subst hid
      simp only [Option.some.injEq]
      grind
    · next hid =>
      rw [OMap.get_set]
      split
      · next hu =>
        subst hu
        simp [hid]
      · next hu =>
        have hne : ¬ id = u := fun h => hu h.symm
        simp [hne]

theorem mem_unindexed {index : OMap Text (List ℕ)} {userId : Option Text} {m : ℕ} {u : Text} :
    m ∈ ((unindexed index n userId).get u).getD [] ↔
      m ∈ (index.get u).getD [] ∧ ¬ (m = n ∧ userId = some u ∧ u ≠ []) := by
  unfold unindexed
  split
  · simp
  · next id =>
    split
    · next hid =>
      subst hid
      simp only [Option.some.injEq]
      grind
    · next hid =>
      rw [mem_dropMember_iff, Option.some.injEq]
      grind

end

/-! ## What holds in every run -/

/-- A connection as it was opened, before its authenticator settles. -/
structure Fresh (node : Node) : Prop where
  hasSocket : node.hasSocket = true
  isAuthenticated : node.isAuthenticated = false
  userId : node.userId = none
  authFrames : node.authFrames = []

/-- An open node has a socket, and neither `close()` nor the close handler has run. -/
structure Live (node : Node) : Prop where
  hasSocket : node.hasSocket = true
  closed : node.closed = false
  deleted : node.deleted = false

structure WellFormed (s : State) : Prop where
  absent : ∀ n, s.next ≤ n → s.nodes n = Node.absent
  live : ∀ n, (s.nodes n).isOpen = true → Live (s.nodes n)
  fresh : ∀ n ∈ s.awaiting, Fresh (s.nodes n)
  known : ∀ u, ∀ n ∈ s.getClientsByUserId u, n < s.next

section
variable {cfg : Config} {s s' : State} {n : ℕ} {a : Action}

theorem WellFormed.shut_of_closed (h : WellFormed s) (hc : (s.nodes n).closed = true) :
    (s.nodes n).isOpen = false := by
  refine Bool.eq_false_iff.mpr fun hopen => ?_
  rw [(h.live n hopen).closed] at hc
  cases hc

theorem shutNode_idem (node : Node) : shutNode (shutNode node) = shutNode node := rfl

/-- All the nodes of the list are closed. -/
theorem foldl_close_eq : ∀ (ns : List ℕ) {s : State},
    (∀ m, (s.nodes m).closed = true → (s.nodes m).isOpen = false) →
    ns.foldl State.close s =
      { s with nodes := fun m => if m ∈ ns then shutNode (s.nodes m) else s.nodes m } := by
  intro ns
  induction ns with
  | nil => simp
  | cons n ns ih =>
    intro s hclosed
    rw [List.foldl_cons, close_eq (hclosed n), ih]
    · congr 1
      funext m
      by_cases hm : m = n
      · subst hm
        simp [shutNode_idem]
      · simp [hm]
    · intro m hc
      by_cases hm : m = n
      · subst hm
        simp [shutNode]
      · simp only [Function.update_of_ne hm] at hc ⊢
        exact hclosed m hc

theorem disconnectUser_eq (h : WellFormed s) {userId : Text} {except : Option Text} :
    s.disconnectUser userId except = { s with
      nodes := fun m => if m ∈ s.disconnected userId except then shutNode (s.nodes m) else s.nodes m } :=
  foldl_close_eq _ fun _ => h.shut_of_closed

/-- One node is written. -/
theorem WellFormed.put (h : WellFormed s) {node : Node} (hn : n < s.next ∨ node = Node.absent)
    (hnodes : s'.nodes = Function.update s.nodes n node) (hnext : s'.next = s.next)
    (hawaits : ∀ m ∈ s'.awaiting, m ∈ s.awaiting) (hlive : node.isOpen = true → Live node)
    (hfresh : n ∈ s'.awaiting → Fresh node)
    (hindex : ∀ u, ∀ m ∈ s'.getClientsByUserId u, m ∈ s.getClientsByUserId u ∨ m = n ∧ n < s.next) :
    WellFormed s' := by
  refine ⟨fun m hm => ?_, fun m hopen => ?_, fun m hin => ?_, fun u m hm => ?_⟩
  · rw [hnext] at hm
    rw [hnodes]
    by_cases hmn : m = n
    · subst hmn
      rw [Function.update_self]
      exact hn.resolve_left (Nat.not_lt.mpr hm)
    · rw [Function.update_of_ne hmn]
      exact h.absent m hm
  · rw [hnodes] at hopen ⊢
    by_cases hmn : m = n
    · subst hmn
      rw [Function.update_self] at hopen ⊢
      exact hlive hopen
    · rw [Function.update_of_ne hmn] at hopen ⊢
      exact h.live m hopen
  · rw [hnodes]
    by_cases hmn : m = n
    · subst hmn
      rw [Function.update_self]
      exact hfresh hin
    · rw [Function.update_of_ne hmn]
      exact h.fresh m (hawaits m hin)
  · rw [hnext]
    rcases hindex u m hm with hm | ⟨rfl, hlt⟩
    · exact h.known u m hm
    · exact hlt

/-- One node is made. -/
theorem WellFormed.make (h : WellFormed s) {node : Node}
    (hnodes : s'.nodes = Function.update s.nodes s.next node) (hnext : s'.next = s.next + 1)
    (hawaits : ∀ m ∈ s'.awaiting, m ∈ s.awaiting ∨ m = s.next ∧ Fresh node)
    (hlive : node.isOpen = true → Live node)
    (hindex : ∀ u, ∀ m ∈ s'.getClientsByUserId u, m ∈ s.getClientsByUserId u ∨ m = s.next) :
    WellFormed s' := by
  refine ⟨fun m hm => ?_, fun m hopen => ?_, fun m hin => ?_, fun u m hm => ?_⟩
  · rw [hnodes, Function.update_of_ne (by omega)]
    exact h.absent m (by omega)
  · rw [hnodes] at hopen ⊢
    by_cases hmn : m = s.next
    · subst hmn
      rw [Function.update_self] at hopen ⊢
      exact hlive hopen
    · rw [Function.update_of_ne hmn] at hopen ⊢
      exact h.live m hopen
  · rw [hnodes]
    rcases hawaits m hin with hold | ⟨rfl, hfresh⟩
    · have hmn : m ≠ s.next := by
        intro heq
        have hsocket := (h.fresh m hold).hasSocket
        rw [h.absent m heq.ge] at hsocket
        cases hsocket
      rw [Function.update_of_ne hmn]
      exact h.fresh m hold
    · rw [Function.update_self]
      exact hfresh
  · rw [hnext]
    rcases hindex u m hm with hm | rfl
    · exact Nat.lt_succ_of_lt (h.known u m hm)
    · exact Nat.lt_succ_self _

/-- A node with a socket is there. -/
theorem WellFormed.lt_next (h : WellFormed s) (hsocket : (s.nodes n).hasSocket = true) : n < s.next := by
  by_contra hge
  rw [h.absent n (Nat.le_of_not_lt hge)] at hsocket
  cases hsocket

/-- **The step that ends an authentication** does nothing more if the socket is not open. -/
theorem authResult_cases (h : WellFormed s) {outcome : Outcome}
    (hs : step cfg s (.authResult n outcome) = some s') : n ∈ s.awaiting ∧
      ((s.nodes n).isOpen = false ∧ s' = { s with awaiting := deleteFrom n s.awaiting } ∨
        (s.nodes n).isOpen = true ∧ s' = { s with
          nodes := Function.update s.nodes n { s.nodes n with
            isOpen := !closes outcome
            isAuthenticated := authenticates outcome
            userId := userOf outcome
            closed := closes outcome
            authFrames := frames outcome }
          clientsByUserId := indexed s.clientsByUserId n (userOf outcome)
          awaiting := deleteFrom n s.awaiting }) := by
  rw [step] at hs
  split at hs
  · next hin =>
    have hfresh := h.fresh n hin
    refine ⟨hin, ?_⟩
    have hs := (Option.some.inj hs).symm
    cases hopen : (s.nodes n).isOpen with
    | false => exact .inl ⟨rfl, hs.trans (finishAuth_shut hopen)⟩
    | true =>
      have heq := @finishAuth_eq { s with awaiting := deleteFrom n s.awaiting } n outcome hopen
        hfresh.hasSocket (h.live n hopen).closed hfresh.isAuthenticated hfresh.userId
      simp only [hfresh.authFrames, List.nil_append] at heq
      exact .inr ⟨rfl, hs.trans heq⟩
  · cases hs

theorem wellFormed_step (h : WellFormed s) (hs : step cfg s a = some s') : WellFormed s' := by
  cases a with
  | connect uuid token random =>
    rw [step, handleConnection_eq] at hs
    cases hs
    refine h.make rfl rfl (fun m hin => ?_) (fun _ => ⟨rfl, rfl, rfl⟩) fun _ _ hm => .inl hm
    dsimp only at hin
    split at hin
    · next hauth =>
      rcases List.mem_append.mp hin with hin | hin
      · exact .inl hin
      · exact .inr ⟨List.mem_singleton.mp hin, rfl, rfl, rfl, by simp [hauth]⟩
    · exact .inl hin
  | authResult n outcome =>
    have hsub : ∀ m ∈ deleteFrom n s.awaiting, m ∈ s.awaiting := fun m hm => (mem_deleteFrom_iff.mp hm).1
    obtain ⟨hin, ⟨-, rfl⟩ | ⟨hopen, rfl⟩⟩ := authResult_cases h hs
    · exact ⟨h.absent, h.live, fun m hm => h.fresh m (hsub m hm), h.known⟩
    · have hsocket := (h.fresh n hin).hasSocket
      refine h.put (.inl (h.lt_next hsocket)) rfl rfl hsub
        (fun hopen' => ⟨hsocket, by simpa using hopen', (h.live n hopen).deleted⟩)
        (fun hm => absurd rfl (mem_deleteFrom_iff.mp hm).2) fun u m hm => ?_
      exact (mem_indexed.mp hm).imp_right fun hmn => ⟨hmn.1, h.lt_next hsocket⟩
  | httpRequest uuid context =>
    rw [step, buildClientNode_eq] at hs
    cases hs
    refine h.make rfl rfl (fun m hin => .inl hin) (fun hopen => nomatch hopen) fun u m hm => ?_
    exact (mem_indexed.mp hm).imp_right And.left
  | rpcLogout n =>
    rw [step] at hs
    split at hs <;> cases hs
    exact ⟨h.absent, h.live, h.fresh, h.known⟩
  | resumeLogout n =>
    rw [step] at hs
    split at hs <;> cases hs
    refine @WellFormed.put s _ n h _ ?_ rfl rfl (fun _ hm => hm) (fun hopen => ?_) (fun hin => ?_)
      fun _ _ hm => .inl hm
    · refine (Nat.lt_or_ge n s.next).imp_right fun hge => ?_
      rw [h.absent n hge]
      rfl
    · have hlive := h.live n hopen
      exact ⟨hlive.hasSocket, hlive.closed, hlive.deleted⟩
    · have hfresh := h.fresh n hin
      exact ⟨hfresh.hasSocket, rfl, rfl, hfresh.authFrames⟩
  | shut n =>
    cases hs
    refine @WellFormed.put s _ n h _ ?_ rfl rfl (fun _ hm => hm) (fun hopen => nomatch hopen)
      (fun hin => ?_) fun _ _ hm => .inl hm
    · refine (Nat.lt_or_ge n s.next).imp_right fun hge => ?_
      rw [h.absent n hge]
      rfl
    · have hfresh := h.fresh n hin
      exact ⟨hfresh.hasSocket, hfresh.isAuthenticated, hfresh.userId, hfresh.authFrames⟩
  | closed n =>
    rw [step] at hs
    split at hs
    · next hguard =>
      cases hs
      simp only [Bool.and_eq_true] at hguard
      rw [deleteClient_close_eq h.shut_of_closed]
      refine h.put (.inl (h.lt_next hguard.1.1)) rfl rfl (fun _ hm => hm) (fun hopen => nomatch hopen)
        (fun hin => ?_) fun _ _ hm => .inl (mem_unindexed.mp hm).1
      have hfresh := h.fresh n hin
      exact ⟨hfresh.hasSocket, hfresh.isAuthenticated, hfresh.userId, hfresh.authFrames⟩
    · cases hs
  | disconnectUser userId except =>
    cases hs
    rw [disconnectUser_eq h]
    refine ⟨fun m hm => ?_, fun m hopen => ?_, fun m hin => ?_, h.known⟩
    · have hout : m ∉ s.disconnected userId except := fun hin =>
        Nat.not_lt.mpr hm (h.known userId m (List.mem_filter.mp hin).1)
      dsimp only
      rw [if_neg hout, h.absent m hm]
    · dsimp only at hopen ⊢
      split at hopen
      · cases hopen
      · next hno =>
        rw [if_neg hno]
        exact h.live m hopen
    · have hfresh := h.fresh m hin
      dsimp only
      split
      · exact ⟨hfresh.hasSocket, hfresh.isAuthenticated, hfresh.userId, hfresh.authFrames⟩
      · exact hfresh
  | propagate excludeUuid =>
    cases hs
    exact h

theorem wellFormed_init : WellFormed init := by
  refine ⟨fun _ _ => rfl, fun n hopen => ?_, fun n hin => ?_, fun u n hm => ?_⟩
  · cases hopen
  · cases hin
  · cases hm

theorem wellFormed_of_reach {ok : State → Action → Prop} (h : (machine cfg).Reach ok s) :
    WellFormed s :=
  h.invariant WellFormed wellFormed_init fun _ _ _ hw _ hs => wellFormed_step hw hs

/-! ## The connected nodes of a user -/

/-- The node has a WebSocket whose close handler has not run, and it is authenticated as
the user. -/
def ConnectedAs (node : Node) (u : Text) : Prop :=
  node.hasSocket = true ∧ node.deleted = false ∧ node.isAuthenticated = true ∧ node.userId = some u

instance (node : Node) (u : Text) : Decidable (ConnectedAs node u) :=
  inferInstanceAs (Decidable (_ ∧ _))

/-- A node that has just been authenticated is connected as the user of its context. -/
theorem connectedAs_finished {node : Node} (hfresh : Fresh node) (hlive : Live node) {outcome : Outcome}
    {isOpen closed : Bool} {authFrames : List Bool} {u : Text} :
    ConnectedAs { node with
      isOpen := isOpen
      isAuthenticated := authenticates outcome
      userId := userOf outcome
      closed := closed
      authFrames := authFrames } u ↔ userOf outcome = some u := by
  refine ⟨fun hc => hc.2.2.2, fun huser => ⟨hfresh.hasSocket, hlive.deleted, ?_, huser⟩⟩
  cases outcome with
  | context user listener => rfl
  | falsy => cases huser
  | threw => cases huser
  | timedOut => cases huser

/-- The step logs a connected user out, authenticates an HTTP request as a user, or finds a
user without a name. -/
def misindexes (s : State) : Action → Bool
  | .authResult n outcome => (s.nodes n).isOpen && decide (userOf outcome = some [])
  | .httpRequest _ context => (context.bind UserId.text).any (· ≠ [])
  | .resumeLogout n =>
    (s.nodes n).hasSocket && !(s.nodes n).deleted && (s.nodes n).isAuthenticated &&
      (s.nodes n).userId.isSome
  | _ => false

structure Exact (s : State) : Prop where
  exact : ∀ u n, n ∈ s.getClientsByUserId u ↔ ConnectedAs (s.nodes n) u
  named : ∀ n, (s.nodes n).hasSocket = true → (s.nodes n).userId ≠ some []

/-- A node is written that is connected as it was. -/
theorem Exact.put (h : Exact s) {node : Node} (hnodes : s'.nodes = Function.update s.nodes n node)
    (hsame : ∀ u, ConnectedAs node u ↔ ConnectedAs (s.nodes n) u)
    (hnamed : node.hasSocket = true → node.userId ≠ some [])
    (hindex : s'.clientsByUserId = s.clientsByUserId) : Exact s' := by
  refine ⟨fun u m => ?_, fun m hsocket => ?_⟩
  · rw [State.getClientsByUserId, hindex, hnodes, ← State.getClientsByUserId, h.exact]
    by_cases hmn : m = n
    · subst hmn
      rw [Function.update_self, hsame]
    · rw [Function.update_of_ne hmn]
  · rw [hnodes] at hsocket ⊢
    by_cases hmn : m = n
    · subst hmn
      rw [Function.update_self] at hsocket ⊢
      exact hnamed hsocket
    · rw [Function.update_of_ne hmn] at hsocket ⊢
      exact h.named m hsocket

/-- A node is made that is connected as nobody. -/
theorem Exact.make (hw : WellFormed s) (h : Exact s) {node : Node}
    (hnodes : s'.nodes = Function.update s.nodes s.next node) (huser : node.userId = none)
    (hindex : s'.clientsByUserId = s.clientsByUserId) : Exact s' := by
  refine h.put hnodes (fun u => ?_) (fun _ => ?_) hindex
  · rw [hw.absent s.next (Nat.le_refl _)]
    constructor
    · intro hc
      rw [hc.2.2.2] at huser
      cases huser
    · intro hc
      cases hc.1
  · rw [huser]
    exact nofun

theorem connectedAs_shutNode {node : Node} {u : Text} :
    ConnectedAs (shutNode node) u ↔ ConnectedAs node u := Iff.rfl

theorem exact_step (hw : WellFormed s) (h : Exact s) (hok : misindexes s a = false)
    (hs : step cfg s a = some s') : Exact s' := by
  cases a with
  | connect uuid token random =>
    rw [step, handleConnection_eq] at hs
    cases hs
    exact h.make hw rfl rfl rfl
  | authResult n outcome =>
    obtain ⟨hin, ⟨-, rfl⟩ | ⟨hopen, rfl⟩⟩ := authResult_cases hw hs
    · exact ⟨h.exact, h.named⟩
    · have hfresh := hw.fresh n hin
      have hnamed : userOf outcome ≠ some [] := by
        intro hempty
        rw [misindexes, hopen, hempty] at hok
        cases hok
      refine ⟨fun u m => ?_, fun m hsocket => ?_⟩
      · rw [State.getClientsByUserId, mem_indexed, ← State.getClientsByUserId, h.exact]
        dsimp only
        by_cases hmn : m = n
        · subst hmn
          rw [Function.update_self, connectedAs_finished hfresh (hw.live m hopen)]
          constructor
          · intro hold
            rcases hold with hold | ⟨-, huser, -⟩
            · have huser := hold.2.2.2
              rw [hfresh.userId] at huser
              cases huser
            · exact huser
          · intro huser
            refine .inr ⟨rfl, huser, fun hu => ?_⟩
            rw [hu] at huser
            exact hnamed huser
        · rw [Function.update_of_ne hmn]
          simp [hmn]
      · dsimp only at hsocket ⊢
        by_cases hmn : m = n
        · subst hmn
          rw [Function.update_self]
          exact hnamed
        · rw [Function.update_of_ne hmn] at hsocket ⊢
          exact h.named m hsocket
  | httpRequest uuid context =>
    rw [step, buildClientNode_eq] at hs
    cases hs
    have hindex : indexed s.clientsByUserId s.next (context.bind UserId.text) = s.clientsByUserId := by
      cases hc : context.bind UserId.text with
      | none => rfl
      | some id =>
        rw [misindexes, hc] at hok
        have hid : id = [] := by simpa using hok
        rw [indexed, if_pos hid]
    refine h.put rfl (fun u => ?_) (fun hsocket => nomatch hsocket) hindex
    rw [hw.absent s.next (Nat.le_refl _)]
    constructor
    · intro hc
      cases hc.1
    · intro hc
      cases hc.1
  | rpcLogout n =>
    rw [step] at hs
    split at hs <;> cases hs
    exact ⟨h.exact, h.named⟩
  | resumeLogout n =>
    rw [step] at hs
    split at hs <;> cases hs
    refine @Exact.put s _ n h _ rfl (fun u => ?_) (fun _ => nofun) rfl
    constructor
    · intro hc
      cases hc.2.2.1
    · intro ⟨hsocket, hdeleted, hauth, huser⟩
      rw [misindexes, hsocket, hdeleted, hauth, huser] at hok
      cases hok
  | shut n =>
    cases hs
    exact @Exact.put s _ n h _ rfl (fun u => Iff.rfl) (h.named n) rfl
  | closed n =>
    rw [step] at hs
    split at hs
    · next hguard =>
      cases hs
      rw [deleteClient_close_eq hw.shut_of_closed]
      simp only [Bool.and_eq_true] at hguard
      refine ⟨fun u m => ?_, fun m hsocket => ?_⟩
      · rw [State.getClientsByUserId, mem_unindexed, ← State.getClientsByUserId, h.exact]
        dsimp only
        by_cases hmn : m = n
        · subst hmn
          rw [Function.update_self]
          constructor
          · intro ⟨hc, hno⟩
            refine absurd ⟨rfl, hc.2.2.2, fun hu => ?_⟩ hno
            rw [hu] at hc
            exact h.named m hc.1 hc.2.2.2
          · intro hc
            cases hc.2.1
        · rw [Function.update_of_ne hmn]
          simp [hmn]
      · dsimp only at hsocket ⊢
        by_cases hmn : m = n
        · subst hmn
          rw [Function.update_self]
          exact h.named m hguard.1.1
        · rw [Function.update_of_ne hmn] at hsocket ⊢
          exact h.named m hsocket
    · cases hs
  | disconnectUser userId except =>
    cases hs
    rw [disconnectUser_eq hw]
    refine ⟨fun u m => ?_, fun m hsocket => ?_⟩
    · refine (h.exact u m).trans ?_
      dsimp only
      split
      · exact connectedAs_shutNode.symm
      · exact Iff.rfl
    · dsimp only at hsocket ⊢
      split at hsocket
      · next hin =>
        rw [if_pos hin]
        exact h.named m hsocket
      · next hout =>
        rw [if_neg hout]
        exact h.named m hsocket
  | propagate excludeUuid =>
    cases hs
    exact h

theorem exact_of_reach (h : (machine cfg).Reach (fun s a => misindexes s a = false) s) :
    WellFormed s ∧ Exact s := by
  refine h.invariant (fun t => WellFormed t ∧ Exact t)
    ⟨wellFormed_init, fun u n => ?_, fun n hsocket => ?_⟩ ?_
  · constructor
    · intro hm
      cases hm
    · intro hc
      cases hc.1
  · cases hsocket
  · intro t a t' ⟨hw, he⟩ hok hs
    exact ⟨wellFormed_step hw hs, exact_step hw he hok hs⟩

/-- **The index of users is exact**, as long as no connected user logs out, no HTTP request
is authenticated as a user, and no user's name is empty: it names the connected nodes of each
user, and `disconnectUser` closes these and no others, apart from the one to be kept. -/
theorem user_index_exact (h : (machine cfg).Reach (fun s a => misindexes s a = false) s) (u : Text) :
    (∀ n, n ∈ s.getClientsByUserId u ↔ ConnectedAs (s.nodes n) u) ∧
      ∀ (except : Option Text) (n : ℕ),
        (n ∈ s.disconnected u except ↔ ConnectedAs (s.nodes n) u ∧ some (s.nodes n).uuid ≠ except) ∧
        (s.disconnectUser u except).nodes n =
          if ConnectedAs (s.nodes n) u ∧ some (s.nodes n).uuid ≠ except then
            { s.nodes n with closed := true, isOpen := false }
          else s.nodes n := by
  obtain ⟨hw, he⟩ := exact_of_reach h
  have hmem : ∀ (except : Option Text) (n : ℕ), n ∈ s.disconnected u except ↔
      ConnectedAs (s.nodes n) u ∧ some (s.nodes n).uuid ≠ except := by
    intro except n
    rw [State.disconnected, List.mem_filter, he.exact, decide_eq_true_eq]
  refine ⟨he.exact u, fun except n => ⟨hmem except n, ?_⟩⟩
  rw [disconnectUser_eq hw]
  dsimp only
  by_cases hin : n ∈ s.disconnected u except
  · rw [if_pos hin, if_pos ((hmem except n).mp hin)]
    rfl
  · rw [if_neg hin, if_neg fun hc => hin ((hmem except n).mpr hc)]

end

/-! ## Two runs -/

def tokens : Config := ⟨false, true⟩

/-- A connection with a token is authenticated as `a`. -/
def connected : List Action :=
  [.connect (some (js "c")) (some (js "t")) [], .authResult 0 (.context (.truthy (js "a")) .returns)]

theorem user_index_exact_connected : ∃ s, (machine tokens).Reach (fun s a => misindexes s a = false) s ∧
    0 ∈ s.disconnected (js "a") none ∧ ConnectedAs (s.nodes 0) (js "a") := by
  obtain ⟨s, hs, hin⟩ := (machine tokens).exists_of_exec (fun s a => misindexes s a = false) init
    connected (fun s => decide (0 ∈ s.disconnected (js "a") none)) (by decide)
  have hin := of_decide_eq_true hin
  exact ⟨s, hs, hin, ((((user_index_exact hs (js "a")).2 none 0).1).mp hin).1⟩

/-- A node that has logged out stays in the index when its socket has closed, too. -/
theorem logged_out_node_indexed : ∃ s, (machine tokens).Reach anyStep s ∧
    0 ∈ s.getClientsByUserId (js "a") ∧ ¬ ConnectedAs (s.nodes 0) (js "a") ∧
    (s.nodes 0).deleted = true := by
  obtain ⟨s, hs, hp⟩ := (machine tokens).exists_of_exec anyStep init
    (connected ++ [.rpcLogout 0, .resumeLogout 0, .shut 0, .closed 0])
    (fun s => decide (0 ∈ s.getClientsByUserId (js "a")) && decide (¬ ConnectedAs (s.nodes 0) (js "a")) &&
      (s.nodes 0).deleted) (by decide)
  simp only [Bool.and_eq_true, decide_eq_true_eq] at hp
  exact ⟨s, hs, hp.1.1, hp.1.2, hp.2⟩

end TypeFerry.Server.UserIndex
