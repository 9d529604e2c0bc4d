import TypeFerry.Lib.Numeral
import TypeFerry.Lib.Runs

/-! # The refresh of the access token

`refreshAccessToken` of one client, cut where it runs code that is not its own: the
listeners of the log and of the context, the storage, the broadcast channel and the RPC.
While such code runs, `refreshAccessToken` may be called again, and the code may throw.
A call is known by its number. A caller that finds a refresh going on waits in the queue
and is to settle as the caller that leads the refresh does: with what its RPC came to. -/
namespace TypeFerry.Auth.TokenRefresh
open TypeFerry.Lib.Numeral TypeFerry.Lib.Runs

/-! ## What is thrown -/

/-- A thrown value, by what `isAuthFailureError` reads of it. -/
inductive Thrown where
  /-- `undefined` or `null` -/
  | nullish
  /-- without a `message` when that is not a text -/
  | error (status : Option ℤ) (code message : Option Text)
  deriving DecidableEq

/-- A property of `undefined` is read. -/
def typeError : Thrown :=
  .error none none (some (js "Cannot read properties of undefined"))

def refreshFailed : Thrown := .error none none (some (js "Token refresh failed"))

/-- `msg.includes(text)`. -/
def includes (msg text : Text) : Bool := msg.tails.any text.isPrefixOf

/-- `none` is a `TypeError`: there is no `err`, or no `err.message` when it is read. -/
def isAuthFailureError : Thrown → Option Bool
  | .nullish => none
  | .error status code message =>
    if status = some 401 ∨ status = some 403 then some true
    else if code = some (js "AUTHENTICATION_FAILED") then some true
    else message.map fun msg =>
      msg = js "Token refresh failed" || includes msg (js "missingRefreshToken") ||
        includes msg (js "invalidOrExpiredRefreshToken")

/-! ## The client -/

structure TypeFerryContext where
  token : Option Text
  exp : Option ℤ
  iat : Option ℤ
  tokenReceivedAt : Option ℕ
  deriving DecidableEq

def emptyContext : TypeFerryContext := ⟨none, none, none, none⟩

/-- What the refresh method returns. -/
structure RefreshResult where
  accessToken : Text
  exp : ℤ
  iat : ℤ
  deriving DecidableEq

/-- The code that a call of `refreshAccessToken` runs or waits for. -/
inductive Phase where
  /-- the log of the attempt -/
  | attempting
  /-- the RPC -/
  | calling
  /-- the log of the success -/
  | succeeded (result : RefreshResult)
  /-- `updateContext` with its storage and its listeners -/
  | updating (result : RefreshResult)
  | broadcasting (result : RefreshResult)
  /-- the log of the failure -/
  | logging (err : Thrown) (isAuthFailure : Bool)
  /-- `clearContext` with its storage and its listeners -/
  | clearing (err : Thrown)
  deriving DecidableEq

structure Activation where
  leader : ℕ
  broadcastChannelName : Text
  phase : Phase

inductive Outcome where
  | resolved (token : Option Text)
  | rejected (error : Thrown)
  deriving DecidableEq

/-- The `RefreshState` of a client with the calls that use it. -/
structure State where
  isRefreshing : Bool
  failedQueue : List ℕ
  /-- the calls that lead a refresh -/
  running : List Activation
  context : TypeFerryContext
  /-- `Date.now()` -/
  now : ℕ
  /-- the number of calls so far -/
  calls : ℕ
  /-- the calls with the leaders of the refreshes that each found going on -/
  joined : List (ℕ × List ℕ)
  /-- what the RPCs came to, by the leaders of their refreshes -/
  replies : List (ℕ × Outcome)
  settled : List (ℕ × Outcome)

/-- What happens to a queued call: `error` is falsy when it is missing, `undefined` or `null`. -/
def queueOutcome (error : Option Thrown) (token : Option Text) : Outcome :=
  match error with
  | some (.error status code message) => .rejected (.error status code message)
  | _ => .resolved token

def init (context : TypeFerryContext) (now : ℕ) : State := ⟨false, [], [], context, now, 0, [], [], []⟩

namespace State

def leaders (s : State) : List ℕ := s.running.map (·.leader)

/-- `processQueue`. -/
def processQueue (s : State) (error : Option Thrown) (token : Option Text) : State :=
  { s with
    settled := s.settled ++ s.failedQueue.map fun c => (c, queueOutcome error token)
    failedQueue := [] }

/-- The call settles, after its `finally`. -/
def ends (s : State) (leader : ℕ) (outcome : Outcome) : State :=
  { s with
    isRefreshing := false
    running := s.running.filter (·.leader ≠ leader)
    settled := s.settled ++ [(leader, outcome)] }

def enter (s : State) (leader : ℕ) (phase : Phase) : State :=
  { s with running := s.running.map fun a => if a.leader = leader then { a with phase } else a }

/-- `refreshAccessToken`, as far as the code of others that it runs first. -/
def call (s : State) (broadcastChannelName : Text) : State :=
  if s.isRefreshing then
    { s with
      failedQueue := s.failedQueue ++ [s.calls]
      joined := s.joined ++ [(s.calls, s.leaders)]
      calls := s.calls + 1 }
  else
    { s with
      isRefreshing := true
      running := s.running ++ [⟨s.calls, broadcastChannelName, .attempting⟩]
      joined := s.joined ++ [(s.calls, s.leaders ++ [s.calls])]
      calls := s.calls + 1 }

/-- The end of the `try` block. -/
def complete (s : State) (a : Activation) (result : RefreshResult) : State :=
  (s.processQueue none (some result.accessToken)).ends a.leader (.resolved (some result.accessToken))

/-- The end of the `catch` block. -/
def fail (s : State) (a : Activation) (err : Thrown) : State :=
  (s.processQueue (some err) none).ends a.leader (.rejected err)

/-- The `catch` block, as far as the code of others that it runs first. -/
def catches (s : State) (a : Activation) (err : Thrown) : State :=
  match isAuthFailureError err with
  | none => s.ends a.leader (.rejected typeError)
  | some isAuthFailure => s.enter a.leader (.logging err isAuthFailure)

/-- The context after `updateContext`. -/
def newContext (s : State) (result : RefreshResult) : TypeFerryContext :=
  ⟨some result.accessToken, some result.exp, some result.iat, some s.now⟩

/-- `if (opts.broadcastChannelName)` and what follows. -/
def broadcast (s : State) (a : Activation) (result : RefreshResult) : State :=
  if a.broadcastChannelName = [] then s.complete a result
  else s.enter a.leader (.broadcasting result)

/-- The code that the call runs returns. A context that stays the same is not announced. -/
def returns (s : State) (a : Activation) : Option State :=
  match a.phase with
  | .attempting => some (s.enter a.leader .calling)
  | .calling => none
  | .succeeded result =>
    if s.context = s.newContext result then some (s.broadcast a result)
    else some ({ s with context := s.newContext result }.enter a.leader (.updating result))
  | .updating result => some (s.broadcast a result)
  | .broadcasting result => some (s.complete a result)
  | .logging err isAuthFailure =>
    if isAuthFailure then some ({ s with context := emptyContext }.enter a.leader (.clearing err))
    else some (s.fail a err)
  | .clearing err => some (s.fail a err)

/-- The RPC of the call has come to this. -/
def replied (s : State) (a : Activation) (outcome : Outcome) : State :=
  { s with replies := s.replies ++ [(a.leader, outcome)] }

/-- The RPC returns. Without a result it counts as failed. -/
def answers (s : State) (a : Activation) (result : Option RefreshResult) : Option State :=
  match a.phase, result with
  | .calling, some result =>
    some ((s.replied a (.resolved (some result.accessToken))).enter a.leader (.succeeded result))
  | .calling, none => some ((s.replied a (.rejected refreshFailed)).catches a refreshFailed)
  | _, _ => none

/-- The RPC fails, or the code that the call runs throws. What is thrown within the `catch` block
leaves it. -/
def throws (s : State) (a : Activation) (err : Thrown) : State :=
  match a.phase with
  | .calling => (s.replied a (.rejected err)).catches a err
  | .logging _ _ | .clearing _ => s.ends a.leader (.rejected err)
  | _ => s.catches a err

end State

/-! ## Runs -/

inductive Action where
  | call (broadcastChannelName : Text)
  | returns (leader : ℕ)
  | answers (leader : ℕ) (result : Option RefreshResult)
  | throws (leader : ℕ) (err : Thrown)
  /-- the context is set by others -/
  | setContext (context : TypeFerryContext)
  | advance (ms : ℕ)

def State.find (s : State) (leader : ℕ) : Option Activation :=
  s.running.find? fun a => decide (a.leader = leader)

def step (s : State) : Action → Option State
  | .call broadcastChannelName => some (s.call broadcastChannelName)
  | .returns leader => (s.find leader).bind s.returns
  | .answers leader result => (s.find leader).bind (s.answers · result)
  | .throws leader err => (s.find leader).map (s.throws · err)
  | .setContext context => some { s with context }
  | .advance ms => some { s with now := s.now + ms }

def machine (context : TypeFerryContext) (now : ℕ) : Machine State Action := ⟨init context now, step⟩

/-- Nothing is thrown but by the RPC, which fails with an error that has a text: the log, the
storage, the listeners and the broadcast channel return. -/
def handled (s : State) : Action → Prop
  | .throws leader err =>
    isAuthFailureError err ≠ none ∧ ∀ a ∈ s.running, a.leader = leader → a.phase = .calling
  | _ => True

instance (s : State) : (a : Action) → Decidable (handled s a)
  | .throws leader err => inferInstanceAs (Decidable (isAuthFailureError err ≠ none ∧
      ∀ a ∈ s.running, a.leader = leader → a.phase = .calling))
  | .call _ | .returns _ | .answers _ _ | .setContext _ | .advance _ => isTrue trivial

/-! ## What the refresh promises -/

/-- One refresh at a time, and nobody is lost. -/
structure SingleFlight (s : State) : Prop where
  /-- at most one RPC is in flight -/
  one : (s.running.filter fun a => decide (a.phase = .calling)).length ≤ 1
  queue : s.failedQueue ≠ [] → s.isRefreshing = true
  /-- each call has settled once, or leads the refresh, or waits in the queue -/
  once : (s.settled.map Prod.fst ++ s.leaders ++ s.failedQueue).Perm (List.range s.calls)
  /-- where no refresh goes on, all calls have settled -/
  all : s.running = [] → (s.settled.map Prod.fst).Perm (List.range s.calls)
  recorded : s.joined.map Prod.fst = List.range s.calls
  /-- a refresh has one RPC -/
  distinct : (s.replies.map Prod.fst).Nodup
  /-- a call settles with what the RPC of the one refresh came to that it joined, as the leader
  of that refresh does -/
  served : ∀ c o, (c, o) ∈ s.settled →
    ∃ leader, (c, [leader]) ∈ s.joined ∧ (leader, o) ∈ s.replies ∧ (leader, o) ∈ s.settled

/-- A failure is handled only when `isAuthFailureError` can judge it. -/
def Phase.Judged : Phase → Prop
  | .logging err _ | .clearing err => isAuthFailureError err ≠ none
  | _ => True

/-- The call goes on with what its RPC came to. -/
def Phase.Follows (replies : List (ℕ × Outcome)) (leader : ℕ) : Phase → Prop
  | .attempting | .calling => leader ∉ replies.map Prod.fst
  | .succeeded result | .updating result | .broadcasting result =>
    (leader, .resolved (some result.accessToken)) ∈ replies
  | .logging err _ | .clearing err => (leader, .rejected err) ∈ replies

structure Inv (s : State) : Prop where
  flight : s.running = [] ∧ s.isRefreshing = false ∧ s.failedQueue = [] ∨
    ∃ a, s.running = [a] ∧ s.isRefreshing = true
  once : (s.settled.map Prod.fst ++ s.leaders ++ s.failedQueue).Perm (List.range s.calls)
  recorded : s.joined.map Prod.fst = List.range s.calls
  leading : ∀ a ∈ s.running, (a.leader, [a.leader]) ∈ s.joined
  queued : ∀ a ∈ s.running, ∀ c ∈ s.failedQueue, (c, [a.leader]) ∈ s.joined
  judged : ∀ a ∈ s.running, a.phase.Judged
  known : ∀ leader ∈ s.replies.map Prod.fst, leader < s.calls
  distinct : (s.replies.map Prod.fst).Nodup
  follows : ∀ a ∈ s.running, a.phase.Follows s.replies a.leader
  served : ∀ c o, (c, o) ∈ s.settled →
    ∃ leader, (c, [leader]) ∈ s.joined ∧ (leader, o) ∈ s.replies ∧ (leader, o) ∈ s.settled

section
variable {s s' : State} {a : Activation}

theorem Inv.singleFlight (h : Inv s) : SingleFlight s where
  one := by
    rcases h.flight with ⟨hrun, -, -⟩ | ⟨a, hrun, -⟩
    · simp [hrun]
    · rw [hrun]
      exact List.length_filter_le _ _
  queue hne := by
    rcases h.flight with ⟨-, -, hqueue⟩ | ⟨a, -, hflag⟩
    · exact absurd hqueue hne
    · exact hflag
  once := h.once
  all hrun := by
    rcases h.flight with ⟨-, -, hqueue⟩ | ⟨a, hone, -⟩
    · simpa [State.leaders, hrun, hqueue] using h.once
    · rw [hrun] at hone
      cases hone
  recorded := h.recorded
  distinct := h.distinct
  served := h.served

theorem inv_init (context : TypeFerryContext) (now : ℕ) : Inv (init context now) where
  flight := .inl ⟨rfl, rfl, rfl⟩
  once := .refl _
  recorded := rfl
  leading _ ha := by cases ha
  queued _ ha := by cases ha
  judged _ ha := by cases ha
  known _ hl := by cases hl
  distinct := .nil
  follows _ ha := by cases ha
  served _ _ ho := by cases ho

theorem Inv.setContext (h : Inv s) (context : TypeFerryContext) : Inv { s with context } :=
  ⟨h.flight, h.once, h.recorded, h.leading, h.queued, h.judged, h.known, h.distinct, h.follows, h.served⟩

theorem Inv.call (h : Inv s) (name : Text) : Inv (s.call name) := by
  have hrange : List.range (s.calls + 1) = List.range s.calls ++ [s.calls] := List.range_succ
  have hserved : ∀ entry c o, (c, o) ∈ s.settled →
      ∃ leader, (c, [leader]) ∈ s.joined ++ [entry] ∧ (leader, o) ∈ s.replies ∧ (leader, o) ∈ s.settled := by
    intro entry c o ho
    obtain ⟨leader, hl, hl'⟩ := h.served c o ho
    exact ⟨leader, List.mem_append_left _ hl, hl'⟩
  have hknown : ∀ leader ∈ s.replies.map Prod.fst, leader < s.calls + 1 := fun leader hl =>
    Nat.lt_succ_of_lt (h.known leader hl)
  rw [State.call]
  rcases h.flight with ⟨hrun, hflag, hqueue⟩ | ⟨a, hrun, hflag⟩
  · -- The call leads a refresh.
    rw [if_neg (by simp [hflag])]
    refine ⟨.inr ⟨_, by rw [hrun]; rfl, rfl⟩, ?_, ?_, fun b hb => ?_, fun b _ c hc => ?_,
      fun b hb => ?_, hknown, h.distinct, fun b hb => ?_, hserved _⟩
    · have honce := h.once
      simp only [State.leaders, hrun, hqueue, List.map_nil, List.append_nil] at honce
      simp only [State.leaders, hrun, hqueue, List.nil_append, List.map_cons, List.map_nil,
        List.append_nil, hrange]
      exact honce.append_right _
    · rw [List.map_append, h.recorded, hrange]
      rfl
    · rw [hrun] at hb
      rw [List.mem_singleton.mp hb]
      refine List.mem_append_right _ ?_
      simp [State.leaders, hrun]
    · rw [hqueue] at hc
      cases hc
    · rw [hrun] at hb
      rw [List.mem_singleton.mp hb]
      trivial
    · rw [hrun] at hb
      rw [List.mem_singleton.mp hb]
      exact fun hl => Nat.lt_irrefl _ (h.known _ hl)
  · -- The call waits for the refresh that goes on.
    rw [if_pos hflag]
    refine ⟨.inr ⟨a, hrun, hflag⟩, ?_, ?_, fun b hb => ?_, fun b hb c hc => ?_, h.judged, hknown,
      h.distinct, h.follows, hserved _⟩
    · rw [← List.append_assoc, hrange]
      exact h.once.append_right _
    · rw [List.map_append, h.recorded, hrange]
      rfl
    · exact List.mem_append_left _ (h.leading b hb)
    · rcases List.mem_append.mp hc with hc | hc
      · exact List.mem_append_left _ (h.queued b hb c hc)
      · rw [hrun] at hb
        rw [List.mem_singleton.mp hc, List.mem_singleton.mp hb]
        refine List.mem_append_right _ ?_
        simp [State.leaders, hrun]

theorem Inv.running_eq (h : Inv s) (ha : a ∈ s.running) : s.running = [a] ∧ s.isRefreshing = true := by
  rcases h.flight with ⟨hrun, -, -⟩ | ⟨b, hrun, hflag⟩
  · rw [hrun] at ha
    cases ha
  · rw [hrun, List.mem_singleton] at ha
    exact ⟨ha ▸ hrun, hflag⟩

theorem leaders_enter (leader : ℕ) (phase : Phase) : (s.enter leader phase).leaders = s.leaders := by
  rw [State.leaders, State.enter, List.map_map]
  refine List.map_congr_left fun b _ => ?_
  rw [Function.comp_apply]
  split <;> rfl

/-- The call goes on in another phase, in which it follows what its RPC has come to by then. -/
theorem Inv.goesOn (h : Inv s) (ha : a ∈ s.running) {phase : Phase} {replies : List (ℕ × Outcome)}
    (hjudged : phase.Judged) (hfollows : phase.Follows replies a.leader) (hkept : s.replies ⊆ replies)
    (hknown : ∀ leader ∈ replies.map Prod.fst, leader < s.calls) (hdistinct : (replies.map Prod.fst).Nodup) :
    Inv ({ s with replies }.enter a.leader phase) := by
  obtain ⟨hrun, hflag⟩ := h.running_eq ha
  have hrun' : ({ s with replies }.enter a.leader phase).running = [{ a with phase }] := by
    simp [State.enter, hrun]
  refine ⟨.inr ⟨_, hrun', hflag⟩, ?_, h.recorded, fun b hb => ?_, fun b hb c hc => ?_, fun b hb => ?_,
    hknown, hdistinct, fun b hb => ?_, fun c o hc => ?_⟩
  · rw [leaders_enter]
    exact h.once
  · rw [hrun'] at hb
    rw [List.mem_singleton.mp hb]
    exact h.leading a ha
  · rw [hrun'] at hb
    rw [List.mem_singleton.mp hb]
    exact h.queued a ha c hc
  · rw [hrun'] at hb
    rw [List.mem_singleton.mp hb]
    exact hjudged
  · rw [hrun'] at hb
    rw [List.mem_singleton.mp hb]
    exact hfollows
  · obtain ⟨leader, hl, hreply, hl'⟩ := h.served c o hc
    exact ⟨leader, hl, hkept hreply, hl'⟩

theorem Inv.enter (h : Inv s) (ha : a ∈ s.running) {phase : Phase} (hphase : phase.Judged)
    (hfollows : phase.Follows s.replies a.leader) : Inv (s.enter a.leader phase) :=
  h.goesOn ha hphase hfollows (List.Subset.refl _) h.known h.distinct

/-- The RPC that goes on comes to its end. -/
theorem Inv.replied (h : Inv s) (ha : a ∈ s.running) (hphase : a.phase = .calling) {o : Outcome}
    {phase : Phase} (hjudged : phase.Judged)
    (hfollows : phase.Follows (s.replied a o).replies a.leader) :
    Inv ((s.replied a o).enter a.leader phase) := by
  have hnew : a.leader ∉ s.replies.map Prod.fst := by
    have hold := h.follows a ha
    rwa [hphase] at hold
  have hlt : a.leader < s.calls := by
    have hin : a.leader ∈ s.joined.map Prod.fst := List.mem_map_of_mem (h.leading a ha)
    rwa [h.recorded, List.mem_range] at hin
  refine h.goesOn ha hjudged hfollows (List.subset_append_left _ _) (fun leader hl => ?_) ?_
  · rw [List.map_append] at hl
    rcases List.mem_append.mp hl with hl | hl
    · exact h.known leader hl
    · rw [List.mem_singleton.mp hl]
      exact hlt
  · rw [List.map_append]
    exact h.distinct.append (List.nodup_singleton _) (List.disjoint_singleton.mpr hnew)

/-- The queue is flushed with what the RPC came to, and the leader settles. -/
theorem Inv.ends (h : Inv s) (ha : a ∈ s.running) {error : Option Thrown} {token : Option Text}
    {o : Outcome} (ho : queueOutcome error token = o) (hreply : (a.leader, o) ∈ s.replies) :
    Inv ((s.processQueue error token).ends a.leader o) := by
  obtain ⟨hrun, -⟩ := h.running_eq ha
  have hrun' : ((s.processQueue error token).ends a.leader o).running = [] := by
    simp [State.ends, State.processQueue, hrun]
  have hsettled : ((s.processQueue error token).ends a.leader o).settled =
      s.settled ++ (s.failedQueue.map fun c => (c, o)) ++ [(a.leader, o)] := by
    rw [State.ends, State.processQueue, ho]
  refine ⟨.inl ⟨hrun', rfl, rfl⟩, ?_, h.recorded, fun b hb => ?_, fun b hb => ?_, fun b hb => ?_,
    h.known, h.distinct, fun b hb => ?_, fun c o' hc => ?_⟩
  · have honce := h.once
    rw [State.leaders, hrun] at honce
    rw [State.leaders, hrun', hsettled]
    refine List.Perm.trans ?_ honce
    simp only [List.map_append, List.map_map, Function.comp_def, List.map_id', List.map_cons,
      List.map_nil, State.ends, State.processQueue, List.append_nil, List.append_assoc]
    exact List.perm_append_comm.append_left _
  · rw [hrun'] at hb
    cases hb
  · rw [hrun'] at hb
    cases hb
  · rw [hrun'] at hb
    cases hb
  · rw [hrun'] at hb
    cases hb
  · have hself : (a.leader, o) ∈ s.settled ++ (s.failedQueue.map fun c => (c, o)) ++ [(a.leader, o)] :=
      List.mem_append_right _ (List.mem_singleton_self _)
    rw [hsettled] at hc ⊢
    rcases List.mem_append.mp hc with hc | hc
    · rcases List.mem_append.mp hc with hc | hc
      · obtain ⟨leader, hl, hreply', hl'⟩ := h.served c o' hc
        exact ⟨leader, hl, hreply', List.mem_append_left _ (List.mem_append_left _ hl')⟩
      · obtain ⟨c', hc', heq⟩ := List.mem_map.mp hc
        cases heq
        exact ⟨a.leader, h.queued a ha c hc', hreply, hself⟩
    · cases List.mem_singleton.mp hc
      exact ⟨a.leader, h.leading a ha, hreply, hself⟩

theorem Inv.complete (h : Inv s) (ha : a ∈ s.running) {result : RefreshResult}
    (hreply : (a.leader, .resolved (some result.accessToken)) ∈ s.replies) :
    Inv (s.complete a result) :=
  h.ends ha rfl hreply

/-- An error that `isAuthFailureError` can judge reaches the queue. -/
theorem Inv.fail (h : Inv s) (ha : a ∈ s.running) {err : Thrown} (hjudged : isAuthFailureError err ≠ none)
    (hreply : (a.leader, .rejected err) ∈ s.replies) : Inv (s.fail a err) := by
  cases err with
  | nullish => exact absurd rfl hjudged
  | error status code message => exact h.ends ha rfl hreply

/-- The RPC fails. -/
theorem Inv.catches (h : Inv s) (ha : a ∈ s.running) (hphase : a.phase = .calling) {err : Thrown}
    (hjudged : isAuthFailureError err ≠ none) : Inv ((s.replied a (.rejected err)).catches a err) := by
  unfold State.catches
  split
  · next hnone => exact absurd hnone hjudged
  · exact h.replied ha hphase hjudged (List.mem_append_right _ (List.mem_singleton_self _))

theorem Inv.broadcast (h : Inv s) (ha : a ∈ s.running) {result : RefreshResult}
    (hreply : (a.leader, .resolved (some result.accessToken)) ∈ s.replies) :
    Inv (s.broadcast a result) := by
  unfold State.broadcast
  split
  · exact h.complete ha hreply
  · exact h.enter ha trivial hreply

theorem mem_of_find {leader : ℕ} (h : s.find leader = some a) : a ∈ s.running ∧ a.leader = leader :=
  ⟨List.mem_of_find?_eq_some h, by simpa using List.find?_some h⟩

theorem Inv.returns (h : Inv s) (ha : a ∈ s.running) (hs : s.returns a = some s') : Inv s' := by
  have hjudged := h.judged a ha
  have hfollows := h.follows a ha
  unfold State.returns at hs
  split at hs
  · next hphase =>
    rw [hphase] at hfollows
    cases hs
    exact h.enter ha trivial hfollows
  · cases hs
  · next result hphase =>
    rw [hphase] at hfollows
    split at hs
    · cases hs
      exact h.broadcast ha hfollows
    · cases hs
      have hcontext : Inv { s with context := s.newContext result } := h.setContext _
      exact hcontext.enter ha trivial hfollows
  · next hphase =>
    rw [hphase] at hfollows
    cases hs
    exact h.broadcast ha hfollows
  · next hphase =>
    rw [hphase] at hfollows
    cases hs
    exact h.complete ha hfollows
  · next hphase =>
    rw [hphase] at hjudged hfollows
    split at hs
    · cases hs
      exact (h.setContext emptyContext).enter ha hjudged hfollows
    · cases hs
      exact h.fail ha hjudged hfollows
  · next hphase =>
    rw [hphase] at hjudged hfollows
    cases hs
    exact h.fail ha hjudged hfollows

theorem Inv.answers (h : Inv s) (ha : a ∈ s.running) {result : Option RefreshResult}
    (hs : s.answers a result = some s') : Inv s' := by
  unfold State.answers at hs
  split at hs
  · next hphase =>
    cases hs
    exact h.replied ha hphase trivial (List.mem_append_right _ (List.mem_singleton_self _))
  · next hphase =>
    cases hs
    exact h.catches ha hphase (by decide)
  · cases hs

theorem Inv.throws (h : Inv s) (ha : a ∈ s.running) {err : Thrown} (hphase : a.phase = .calling)
    (hjudged : isAuthFailureError err ≠ none) : Inv (s.throws a err) := by
  unfold State.throws
  rw [hphase]
  exact h.catches ha hphase hjudged

theorem Inv.step {b : Action} (h : Inv s) (hok : handled s b) (hs : step s b = some s') : Inv s' := by
  cases b with
  | call name =>
    cases hs
    exact h.call name
  | returns leader =>
    obtain ⟨a, ha, hs⟩ := Option.bind_eq_some_iff.mp hs
    exact h.returns (mem_of_find ha).1 hs
  | answers leader result =>
    obtain ⟨a, ha, hs⟩ := Option.bind_eq_some_iff.mp hs
    exact h.answers (mem_of_find ha).1 hs
  | throws leader err =>
    obtain ⟨a, ha, hs⟩ := Option.map_eq_some_iff.mp hs
    obtain ⟨hmem, hleader⟩ := mem_of_find ha
    exact hs ▸ h.throws hmem (hok.2 a hmem hleader) hok.1
  | setContext context =>
    cases hs
    exact h.setContext context
  | advance ms =>
    cases hs
    exact ⟨h.flight, h.once, h.recorded, h.leading, h.queued, h.judged, h.known, h.distinct, h.follows,
      h.served⟩

/-! ### A refresh comes to its end -/

/-- How often the code that a call runs has still to return; the RPC comes first. -/
def Phase.rest : Phase → ℕ
  | .attempting => 5
  | .calling => 4
  | .succeeded _ => 3
  | .updating _ | .logging _ _ => 2
  | .broadcasting _ | .clearing _ => 1

theorem find_of_mem (h : Inv s) (ha : a ∈ s.running) : s.find a.leader = some a := by
  simp [State.find, (h.running_eq ha).1]

theorem mem_enter (ha : a ∈ s.running) (phase : Phase) :
    { a with phase } ∈ (s.enter a.leader phase).running :=
  List.mem_map.mpr ⟨a, ha, if_pos rfl⟩

theorem Inv.running_ends (h : Inv s) (ha : a ∈ s.running) (error : Option Thrown) (token : Option Text)
    (o : Outcome) : ((s.processQueue error token).ends a.leader o).running = [] := by
  simp [State.ends, State.processQueue, (h.running_eq ha).1]

/-- When the code that a call runs returns, the refresh is over or closer to its end. -/
theorem Inv.returns_rest (h : Inv s) (ha : a ∈ s.running) (hphase : a.phase.rest ≤ 3) :
    ∃ t, s.returns a = some t ∧
      (t.running = [] ∨ ∃ b ∈ t.running, b.phase.rest < a.phase.rest) := by
  have hbroadcast : ∀ result, 1 < a.phase.rest → (s.broadcast a result).running = [] ∨
      ∃ b ∈ (s.broadcast a result).running, b.phase.rest < a.phase.rest := by
    intro result hlt
    unfold State.broadcast
    split
    · exact .inl (h.running_ends ha _ _ _)
    · exact .inr ⟨_, mem_enter ha _, hlt⟩
  unfold State.returns
  cases hp : a.phase with
  | attempting | calling =>
    rw [hp] at hphase
    exact absurd hphase (by decide)
  | succeeded result =>
    rw [hp] at hbroadcast
    dsimp only
    split
    · exact ⟨_, rfl, hbroadcast result (by decide : 1 < 3)⟩
    · refine ⟨_, rfl, .inr ⟨{ a with phase := .updating result }, ?_, ?_⟩⟩
      · exact @mem_enter { s with context := _ } a ha _
      · exact (by decide : 2 < 3)
  | updating result =>
    rw [hp] at hbroadcast
    exact ⟨_, rfl, hbroadcast result (by decide : 1 < 2)⟩
  | broadcasting result => exact ⟨_, rfl, .inl (h.running_ends ha _ _ _)⟩
  | logging err isAuthFailure =>
    dsimp only
    split
    · refine ⟨_, rfl, .inr ⟨{ a with phase := .clearing err }, ?_, ?_⟩⟩
      · exact @mem_enter { s with context := _ } a ha _
      · exact (by decide : 1 < 2)
    · exact ⟨_, rfl, .inl (h.running_ends ha _ _ _)⟩
  | clearing err => exact ⟨_, rfl, .inl (h.running_ends ha _ _ _)⟩

theorem Inv.comes_to_end (context : TypeFerryContext) (now : ℕ) : ∀ (n : ℕ) {s : State} {a : Activation},
    Inv s → a ∈ s.running → a.phase.rest ≤ 3 → a.phase.rest ≤ n →
    ∃ t, (machine context now).Steps handled s t ∧ t.running = []
  | 0, _, a, _, _, _, hn => by cases hp : a.phase <;> simp [hp, Phase.rest] at hn
  | n + 1, s, a, h, ha, hphase, hn => by
    obtain ⟨t, hreturns, ht⟩ := h.returns_rest ha hphase
    have hstep : (machine context now).step s (.returns a.leader) = some t := by
      show (s.find a.leader).bind s.returns = some t
      rw [find_of_mem h ha]
      exact hreturns
    have hfirst : (machine context now).Steps handled s t := .tail (.returns a.leader) .refl trivial hstep
    rcases ht with ht | ⟨b, hb, hlt⟩
    · exact ⟨t, hfirst, ht⟩
    · obtain ⟨u, hrest, hu⟩ := (h.returns ha hreturns).comes_to_end context now n hb (by omega) (by omega)
      exact ⟨u, hfirst.trans hrest, hu⟩

/-- **One refresh for all callers.** In every run in which nothing throws but the RPC, at most one
RPC is in flight, calls wait only while a refresh goes on, and every call settles once, with the
token or the error of the RPC of the refresh that it joined. After its RPC, a refresh ends when
the code that it runs returns. -/
theorem single_flight {context : TypeFerryContext} {now : ℕ} (h : (machine context now).Reach handled s) :
    SingleFlight s ∧ ∀ a ∈ s.running, a.phase.rest ≤ 3 →
      ∃ t, (machine context now).Steps handled s t ∧ t.running = [] := by
  have hinv : Inv s := h.invariant Inv (inv_init context now) fun _ _ _ hs hok hstep => hs.step hok hstep
  exact ⟨hinv.singleFlight, fun a ha hphase => hinv.comes_to_end context now _ ha hphase (le_refl _)⟩

end

/-! ### Two runs -/

/-- A second call waits when the RPC fails with the status 401. -/
def refused : List Action :=
  [.call (js "typeferry-token-sync"), .returns 0, .call (js "typeferry-token-sync"),
    .throws 0 (.error (some 401) none (some (js "Unauthorized"))), .returns 0]

/-- Both calls are rejected. -/
theorem single_flight_refused : ∃ s, (machine emptyContext 0).Reach handled s ∧ SingleFlight s ∧
    s.settled.length = 2 := by
  obtain ⟨s, hs, hP⟩ := (machine emptyContext 0).exists_of_exec handled (init emptyContext 0) (refused ++ [.returns 0])
    (fun s => s.settled.length = 2) (by decide +kernel)
  exact ⟨s, hs, (single_flight hs).1, by simpa using hP⟩

/-- A listener throws when the context is cleared. The second call stays in the queue, with no
refresh going on. -/
theorem waits_for_nothing : ¬ ∀ (context : TypeFerryContext) (now : ℕ) (s : State),
    (machine context now).Reach anyStep s → SingleFlight s := by
  intro h
  obtain ⟨s, hs, hP⟩ := (machine emptyContext 0).exists_of_exec anyStep (init emptyContext 0)
    (refused ++ [.throws 0 (.error none none (some (js "listener")))])
    (fun s => s.failedQueue = [1] && !s.isRefreshing) (by decide +kernel)
  simp only [Bool.and_eq_true, decide_eq_true_eq, Bool.not_eq_true'] at hP
  have hflag := (h emptyContext 0 s hs).queue (by simp [hP.1])
  rw [hP.2] at hflag
  cases hflag

end TypeFerry.Auth.TokenRefresh
