import TypeFerry.Server.Dispatch
import TypeFerry.Server.UserIndex

/-! # What a connection is told about its authentication

`authenticateNode` sets the flag of the node, then its context, and then tells the
client. What throws in between ends in the branch of a failed authentication, with the
flag still set. -/
namespace TypeFerry.Server.Authentication
open TypeFerry.Lib.Numeral TypeFerry.Lib.OrderedMap TypeFerry.Lib.Runs
open TypeFerry.Server.Registry TypeFerry.Server.Clients TypeFerry.Server.UserIndex
open TypeFerry.Server.Dispatch (Method handleRpc handleRpcVoid)

/-! ## The gates -/

/-- The node can run no protected method and can ask to join no protected event. -/
structure Gated (node : Node) : Prop where
  methods : ∀ (V : Type) (encodes : V → Bool) (methods : Text → Option (Method V)) (m : Method V)
    (isOpen limited : Bool) (id method : Text) (params : V), methods method = some m →
    m.isProtected = true →
    (handleRpc encodes methods ⟨⟨node.isAuthenticated, node.userId⟩, isOpen, limited⟩
      id method params).ran = false ∧
    (handleRpcVoid methods ⟨⟨node.isAuthenticated, node.userId⟩, isOpen, limited⟩
      method params).ran = false
  events : ∀ (events : Rooms.Events) (event : Rooms.EventOptions) (eventName channel : Text)
    (rest : List Text), events eventName = some event → event.requiresLogin = true →
    Rooms.startNext events ⟨node.isAuthenticated, node.userId, node.isOpen⟩ channel (eventName :: rest) =
      some (.onReturned rest channel)

/-- The gates read the flag, and nothing else. -/
theorem gated_iff {node : Node} : Gated node ↔ node.isAuthenticated = false := by
  constructor
  · intro h
    have hran := (h.methods Unit (fun _ => true)
      (fun _ => some ⟨true, false, fun _ _ => .returned ()⟩) ⟨true, false, fun _ _ => .returned ()⟩
      true false [] [] () rfl rfl).2
    cases hauth : node.isAuthenticated with
    | false => rfl
    | true => simp [handleRpcVoid, hauth] at hran
  · intro hauth
    refine ⟨fun V encodes methods m isOpen limited id method params hm hp => ?_, ?_⟩
    · cases limited with
      | true => exact ⟨rfl, rfl⟩
      | false => simp [handleRpc, handleRpcVoid, hm, hp, hauth]
    · intro events event eventName channel rest he hlogin
      simp [Rooms.startNext, he, hlogin, hauth]

/-! ## The end of an authentication -/

/-- The connection whose `authenticateNode` the step finishes. -/
def finishes (cfg : Config) (s : State) : Action → Option ℕ
  | .connect _ token _ => if cfg.authenticates token then none else some s.next
  | .authResult n _ => some n
  | _ => none

/-- At most one frame was sent and the flag is what it said; an authenticated node has a user
and is in the index; and a node that was told it is not authenticated is behind the gates. -/
structure Agreement (s : State) (n : ℕ) : Prop where
  once : (s.nodes n).authFrames.length ≤ 1
  told : (s.nodes n).isAuthenticated = (s.nodes n).authFrames.getLast?.getD false
  indexed : (s.nodes n).isAuthenticated = true →
    ∃ u, (s.nodes n).userId = some u ∧ n ∈ s.getClientsByUserId u
  gated : false ∈ (s.nodes n).authFrames → Gated (s.nodes n)

/-- An open connection gets a context whose `user._id` is falsy or has an empty text, or that
meets a listener which throws or closes the node. -/
def misleads (s : State) : Action → Bool
  | .authResult n (.context user listener) =>
    (s.nodes n).isOpen && (decide (listener ≠ .returns) || user.text.all (· = []))
  | _ => false

section
variable {cfg : Config} {s s' : State} {a : Action} {n : ℕ}

/-- A node that is not authenticated, and was not told that it is. -/
theorem agreement_of_not_authenticated (hauth : (s.nodes n).isAuthenticated = false)
    (hframes : (s.nodes n).authFrames = [] ∨ (s.nodes n).authFrames = [false]) : Agreement s n where
  once := by rcases hframes with h | h <;> simp [h]
  told := by rcases hframes with h | h <;> simp [h, hauth]
  indexed hyes := by
    rw [hauth] at hyes
    cases hyes
  gated _ := gated_iff.mpr hauth

theorem unnamed_step (hw : WellFormed s) (hno : ∀ n, n ∉ s.getClientsByUserId [])
    (hs : step cfg s a = some s') : ∀ n, n ∉ s'.getClientsByUserId [] := by
  cases a with
  | connect uuid token random =>
    rw [step, handleConnection_eq] at hs
    cases hs
    exact hno
  | authResult n outcome =>
    obtain ⟨-, ⟨-, rfl⟩ | ⟨-, rfl⟩⟩ := authResult_cases hw hs
    · exact hno
    · intro m hm
      rcases mem_indexed.mp hm with hm | hm
      · exact hno m hm
      · exact hm.2.2 rfl
  | httpRequest uuid context =>
    rw [step, buildClientNode_eq] at hs
    cases hs
    intro m hm
    rcases mem_indexed.mp hm with hm | hm
    · exact hno m hm
    · exact hm.2.2 rfl
  | rpcLogout n =>
    rw [step] at hs
    split at hs <;> cases hs
    exact hno
  | resumeLogout n =>
    rw [step] at hs
    split at hs <;> cases hs
    exact hno
  | shut n =>
    cases hs
    exact hno
  | closed n =>
    rw [step] at hs
    split at hs
    · cases hs
      rw [deleteClient_close_eq hw.shut_of_closed]
      intro m hm
      exact hno m (mem_unindexed.mp hm).1
    · cases hs
  | disconnectUser userId except =>
    cases hs
    rw [disconnectUser_eq hw]
    exact hno
  | propagate excludeUuid =>
    cases hs
    exact hno

/-- Nobody is in the index under an empty name. -/
theorem unnamed_of_reach {ok : State → Action → Prop} (h : (machine cfg).Reach ok s) :
    n ∉ s.getClientsByUserId [] := by
  have hboth : WellFormed s ∧ ∀ n, n ∉ s.getClientsByUserId [] := by
    refine h.invariant (fun t => WellFormed t ∧ ∀ n, n ∉ t.getClientsByUserId [])
      ⟨wellFormed_init, fun n hn => nomatch hn⟩ ?_
    intro t a t' ⟨hw, hno⟩ _ hs
    exact ⟨wellFormed_step hw hs, unnamed_step hw hno hs⟩
  exact hboth.2 n

/-- An open connection is refused. -/
theorem agreement_refused {isOpen closed : Bool} {userId : Option Text} {index : OMap Text (List ℕ)}
    {awaiting : List ℕ} :
    Agreement { s with
      nodes := Function.update s.nodes n { s.nodes n with
        isOpen := isOpen
        isAuthenticated := false
        userId := userId
        closed := closed
        authFrames := [false] }
      clientsByUserId := index
      awaiting := awaiting } n := by
  refine agreement_of_not_authenticated ?_ (.inr ?_)
  · dsimp only
    rw [Function.update_self]
  · dsimp only
    rw [Function.update_self]

/-- An open connection gets the context of a user. -/
theorem agreement_context_iff (hno : n ∉ s.getClientsByUserId []) {isOpen closed : Bool} {userId : Text}
    {authFrames : List Bool} {awaiting : List ℕ} (hlength : authFrames.length ≤ 1) :
    Agreement { s with
      nodes := Function.update s.nodes n { s.nodes n with
        isOpen := isOpen
        isAuthenticated := true
        userId := some userId
        closed := closed
        authFrames := authFrames }
      clientsByUserId := indexed s.clientsByUserId n (some userId)
      awaiting := awaiting } n ↔ authFrames = [true] ∧ userId ≠ [] := by
  constructor
  · intro h
    have htold := h.told
    have hindexed := h.indexed
    simp only [Function.update_self] at htold hindexed
    refine ⟨?_, fun hu => ?_⟩
    · match authFrames with
      | [] => cases htold
      | [flag] =>
        rw [List.getLast?_singleton, Option.getD_some] at htold
        rw [← htold]
      | _ :: _ :: _ => simp at hlength
    · subst hu
      obtain ⟨u, hu, hin⟩ := hindexed trivial
      cases hu
      rcases mem_indexed.mp hin with hin | hin
      · exact hno hin
      · exact hin.2.2 rfl
  · intro ⟨hframes, hu⟩
    subst hframes
    refine ⟨by simp, by simp, fun _ => ⟨userId, by simp, ?_⟩, fun hfalse => ?_⟩
    · exact mem_indexed.mpr (.inr ⟨rfl, rfl, hu⟩)
    · simp at hfalse

/-- **The flag agrees with what the client was told** exactly if an open connection gets no
context without a named user, and none that meets a listener which throws or closes the node. -/
theorem auth_flag_agreement_iff (hreach : (machine cfg).Reach anyStep s)
    (hfinishes : finishes cfg s a = some n) (hs : step cfg s a = some s') :
    Agreement s' n ↔ misleads s a = false := by
  have hw := wellFormed_of_reach hreach
  cases a with
  | connect uuid token random =>
    rw [finishes] at hfinishes
    split at hfinishes
    · cases hfinishes
    · next hauth =>
      cases hfinishes
      rw [step, handleConnection_eq] at hs
      cases hs
      refine ⟨fun _ => rfl, fun _ => agreement_of_not_authenticated ?_ (.inr ?_)⟩
      · simp [Node.absent]
      · simp [hauth]
  | authResult m outcome =>
    cases hfinishes
    obtain ⟨hin, ⟨hshut, rfl⟩ | ⟨hopen, rfl⟩⟩ := authResult_cases hw hs
    · have hfresh := hw.fresh n hin
      refine ⟨fun _ => ?_, fun _ => agreement_of_not_authenticated hfresh.isAuthenticated
        (.inl hfresh.authFrames)⟩
      cases outcome <;> simp [misleads, hshut]
    · cases outcome with
      | falsy => exact ⟨fun _ => rfl, fun _ => agreement_refused⟩
      | threw => exact ⟨fun _ => rfl, fun _ => agreement_refused⟩
      | timedOut => exact ⟨fun _ => rfl, fun _ => agreement_refused⟩
      | context user listener =>
        cases user with
        | falsy =>
          refine ⟨fun h => ?_, fun hno => ?_⟩
          · have htold := h.told
            simp [authenticates, frames] at htold
          · simp [misleads, hopen, UserId.text] at hno
        | truthy userId =>
          have hlength : (frames (.context (.truthy userId) listener)).length ≤ 1 := by
            cases listener <;> simp [frames]
          refine (agreement_context_iff (unnamed_of_reach hreach) hlength).trans ?_
          cases listener <;> simp [misleads, hopen, frames, UserId.text]
  | httpRequest uuid context => cases hfinishes
  | rpcLogout m => cases hfinishes
  | resumeLogout m => cases hfinishes
  | shut m => cases hfinishes
  | closed m => cases hfinishes
  | disconnectUser userId except => cases hfinishes
  | propagate excludeUuid => cases hfinishes

/-! ## Afterwards -/

/-- Who was told that it is not authenticated is not. -/
def Honest (node : Node) : Prop := false ∈ node.authFrames → node.isAuthenticated = false

theorem honest_update {nodes : ℕ → Node} {node : Node} (h : ∀ m, Honest (nodes m)) (hnode : Honest node)
    (n m : ℕ) : Honest (Function.update nodes n node m) := by
  by_cases hmn : m = n
  · subst hmn
    rw [Function.update_self]
    exact hnode
  · rw [Function.update_of_ne hmn]
    exact h m

theorem honest_step (hw : WellFormed s) (h : ∀ n, Honest (s.nodes n)) (hok : misleads s a = false)
    (hs : step cfg s a = some s') : ∀ n, Honest (s'.nodes n) := by
  cases a with
  | connect uuid token random =>
    rw [step, handleConnection_eq] at hs
    cases hs
    exact honest_update h (fun _ => rfl) _
  | authResult n outcome =>
    obtain ⟨-, ⟨-, rfl⟩ | ⟨hopen, rfl⟩⟩ := authResult_cases hw hs
    · exact h
    · refine honest_update h (fun hfalse => ?_) n
      cases outcome with
      | falsy => rfl
      | threw => rfl
      | timedOut => rfl
      | context user listener =>
        -- What does not mislead has a user, and is told so.
        cases user with
        | falsy => simp [misleads, hopen, UserId.text] at hok
        | truthy userId =>
          cases listener with
          | returns => simp [frames] at hfalse
          | throws => simp [misleads, hopen] at hok
          | closes => simp [misleads, hopen] at hok
  | httpRequest uuid context =>
    rw [step, buildClientNode_eq] at hs
    cases hs
    exact honest_update h (fun hfalse => by cases hfalse) _
  | rpcLogout n =>
    rw [step] at hs
    split at hs <;> cases hs
    exact h
  | resumeLogout n =>
    rw [step] at hs
    split at hs <;> cases hs
    exact honest_update h (fun _ => rfl) n
  | shut n =>
    cases hs
    refine honest_update h ?_ n
    exact h n
  | closed n =>
    rw [step] at hs
    split at hs
    · cases hs
      rw [deleteClient_close_eq hw.shut_of_closed]
      refine honest_update h ?_ n
      exact h n
    · cases hs
  | disconnectUser userId except =>
    cases hs
    rw [disconnectUser_eq hw]
    intro n
    dsimp only
    split
    · exact h n
    · exact h n
  | propagate excludeUuid =>
    cases hs
    exact h

/-- **Who was told that it is not authenticated stays behind the gates**, in every run whose
authentications do not mislead. -/
theorem told_stays_gated (h : (machine cfg).Reach (fun s a => misleads s a = false) s)
    (htold : false ∈ (s.nodes n).authFrames) : Gated (s.nodes n) := by
  have hboth : WellFormed s ∧ ∀ n, Honest (s.nodes n) := by
    refine h.invariant (fun t => WellFormed t ∧ ∀ n, Honest (t.nodes n))
      ⟨wellFormed_init, fun _ _ => rfl⟩ ?_
    intro t a t' ⟨hw, hh⟩ hok hs
    exact ⟨wellFormed_step hw hs, honest_step hw hh hok hs⟩
  exact gated_iff.mpr (hboth.2 n htold)

end

/-! ## Two connections -/

/-- A connection with a token waits for its authenticator. -/
def waiting : List Action := [.connect (some (js "c")) (some (js "t")) []]

theorem auth_flag_agreement_iff_named : ∃ s s', (machine tokens).Reach anyStep s ∧
    step tokens s (.authResult 0 (.context (.truthy (js "a")) .returns)) = some s' ∧ Agreement s' 0 := by
  obtain ⟨s, hs, hp⟩ := (machine tokens).exists_of_exec anyStep init waiting
    (fun s => (step tokens s (.authResult 0 (.context (.truthy (js "a")) .returns))).isSome) (by decide)
  obtain ⟨s', hs'⟩ := Option.isSome_iff_exists.mp hp
  refine ⟨s, s', hs, hs', (auth_flag_agreement_iff hs rfl hs').mpr ?_⟩
  simp [misleads, UserId.text, js]

/-- The context has no user: the client is told that it is not authenticated, and its node is. -/
theorem told_unauthenticated_passes : ∃ s, (machine tokens).Reach anyStep s ∧
    (s.nodes 0).authFrames = [false] ∧ (s.nodes 0).isAuthenticated = true ∧ ¬ Gated (s.nodes 0) := by
  obtain ⟨s, hs, hp⟩ := (machine tokens).exists_of_exec anyStep init
    (waiting ++ [.authResult 0 (.context .falsy .returns)])
    (fun s => decide ((s.nodes 0).authFrames = [false]) && (s.nodes 0).isAuthenticated) (by decide)
  simp only [Bool.and_eq_true, decide_eq_true_eq] at hp
  refine ⟨s, hs, hp.1, hp.2, fun hgated => ?_⟩
  rw [gated_iff, hp.2] at hgated
  cases hgated

end TypeFerry.Server.Authentication
