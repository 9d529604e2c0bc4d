import TypeFerry.Client.Requests
import TypeFerry.Lib.Entries
import TypeFerry.Server.Dispatch

/-! # A call from one end to the other

`emitWithAck` of the client and `handleRpc` of the WebSocket transport over the sockets between them. A socket keeps the
order of its messages and may lose what is under way; the server handles its requests side by side, each with the
methods and the state of the connection that there are then. -/
namespace TypeFerry.Client.RpcEndToEnd
open TypeFerry.Lib.Entries TypeFerry.Lib.Numeral TypeFerry.Lib.Runs
open TypeFerry.Server.Dispatch

variable {V : Type}

/-- An `rpc` frame. -/
structure Frame (V : Type) where
  id : Text
  call : ℕ
  socket : ℕ
  method : Text
  params : V

/-- A request that the server has begun to handle, by its place among the frames. -/
structure Task where
  socket : ℕ
  request : ℕ
  deriving DecidableEq

/-- A request that was handled, with all that the answer depends on. -/
structure Served (V : Type) where
  request : ℕ
  connection : Connection
  methods : Text → Option (Method V)
  responses : List (RpcResponse V)

structure State (V : Type) where
  client : Requests.State V
  sent : List (Frame V)
  toServer : ℕ → List ℕ
  running : List Task
  served : List (Served V)
  toClient : ℕ → List (RpcResponse V)

inductive Action (V : Type) where
  /-- What the client does, other than sending a request or receiving a response. -/
  | client (a : Requests.Action V)
  | emit (method : Text) (params : V) (fails : Bool)
  | arrive (i : ℕ)
  | handle (k : ℕ) (connection : Connection) (methods : Text → Option (Method V))
  | deliver (i : ℕ)
  /-- What is under way on the socket is lost. -/
  | lose (i : ℕ)

namespace State
variable (s : State V)

/-- `emitWithAck`; the frame goes out unless `send` throws. The identifiers that `uuid()` gives are numbered. -/
def emit (uuid : ℕ → Text) (method : Text) (params : V) (fails : Bool) : State V :=
  let client := s.client.emitWithAck fails
  if s.client.client.ready then
    let i := s.client.client.socket.getD 0
    { s with
      client := client
      sent := s.sent ++ [⟨uuid s.sent.length, s.client.calls, i, method, params⟩]
      toServer := if fails then s.toServer
        else Function.update s.toServer i (s.toServer i ++ [s.sent.length]) }
  else { s with client := client }

def arrive (i request : ℕ) (rest : List ℕ) : State V :=
  { s with toServer := Function.update s.toServer i rest, running := s.running ++ [⟨i, request⟩] }

/-- `handleRpc` -/
def handle (encodes : V → Bool) (k : ℕ) (task : Task) (frame : Frame V)
    (connection : Connection) (methods : Text → Option (Method V)) : State V :=
  let responses := (handleRpc encodes methods connection frame.id frame.method frame.params).sent
  { s with
    running := s.running.eraseIdx k
    served := s.served ++ [⟨task.request, connection, methods, responses⟩]
    toClient := Function.update s.toClient task.socket (s.toClient task.socket ++ responses) }

/-- The number of an identifier. One that was never drawn has a number without a request. -/
def number (id : Text) : ℕ := s.sent.findIdx fun frame => decide (frame.id = id)

def lose (i : ℕ) : State V :=
  { s with toServer := Function.update s.toServer i [], toClient := Function.update s.toClient i [] }

end State

/-- The client's part of an action that neither sends a request nor receives a response. -/
def Internal : Requests.Action V → Bool
  | .emitWithAck _ | .response _ _ => false
  | _ => true

def step (encodes : V → Bool) (uuid : ℕ → Text) (s : State V) : Action V → Option (State V)
  | .client a => if Internal a then (Requests.step s.client a).map fun client => { s with client := client } else none
  | .emit method params fails => some (s.emit uuid method params fails)
  | .arrive i => match s.toServer i with
    | request :: rest => some (s.arrive i request rest)
    | [] => none
  | .handle k connection methods => (s.running[k]?).bind fun task => (s.sent[task.request]?).map fun frame =>
      s.handle encodes k task frame connection methods
  | .deliver i => match s.toClient i with
    | r :: rest => (Requests.step s.client (.response i ⟨s.number r.id, r.result, r.error⟩)).map fun client =>
        { s with client := client, toClient := Function.update s.toClient i rest }
    | [] => none
  | .lose i => some (s.lose i)

def rpc (encodes : V → Bool) (uuid : ℕ → Text) (token : Option Text) : Machine (State V) (Action V) :=
  ⟨⟨Requests.init token, [], fun _ => [], [], [], fun _ => []⟩, step encodes uuid⟩

/-! ## Answers -/

/-- The promise is settled with what the response says. -/
def Tells : Requests.Outcome V → RpcResponse V → Prop
  | .resolved result, r => r.reply = .success result
  | .rejected (.response message), r => ∃ errors, r.reply = .error message errors
  | _, _ => False

/-- The promise is settled by a response, and not by the client alone. -/
def Answered : Requests.Outcome V → Prop
  | .resolved _ | .rejected (.response _) => True
  | _ => False

/-- The request of a call was handled, and this is the answer. -/
def AnsweredBy (encodes : V → Bool) (s : State V) (call : ℕ) (outcome : Requests.Outcome V) : Prop :=
  ∃ (x : Served V) (frame : Frame V) (r : RpcResponse V), x ∈ s.served ∧ s.sent[x.request]? = some frame ∧
    frame.call = call ∧ r ∈ (handleRpc encodes x.methods x.connection frame.id frame.method frame.params).sent ∧
    Tells outcome r

structure Inv (encodes : V → Bool) (uuid : ℕ → Text) (s : State V) : Prop where
  client : Requests.Inv s.client
  sent : s.sent.map Frame.call = s.client.drawn
  named (n : ℕ) (frame : Frame V) : s.sent[n]? = some frame → frame.id = uuid n
  queued (i n : ℕ) : n ∈ s.toServer i → (∃ frame, s.sent[n]? = some frame ∧ frame.socket = i) ∧
    n ∉ s.running.map Task.request ∧ n ∉ s.served.map Served.request
  queuedOnce (i : ℕ) : (s.toServer i).Nodup
  running (t : Task) : t ∈ s.running → (∃ frame, s.sent[t.request]? = some frame ∧ frame.socket = t.socket) ∧
    t.request ∉ s.served.map Served.request
  runningOnce : (s.running.map Task.request).Nodup
  served (x : Served V) : x ∈ s.served → ∃ frame, s.sent[x.request]? = some frame ∧
    x.responses = (handleRpc encodes x.methods x.connection frame.id frame.method frame.params).sent
  servedOnce : (s.served.map Served.request).Nodup
  answers (i : ℕ) (r : RpcResponse V) : r ∈ s.toClient i → ∃ x ∈ s.served, r ∈ x.responses
  settled (p : ℕ × Requests.Outcome V) : p ∈ s.client.settled → Answered p.2 → AnsweredBy encodes s p.1 p.2

section
variable {encodes : V → Bool} {uuid : ℕ → Text} {s s' : State V}

/-- The response names the request, and has no empty message. -/
theorem sendResponse_echo {c : Connection} {id : Text} {result : Option V} {error : Option Text}
    {errors : Option (List Text)} {r : RpcResponse V} (h : r ∈ sendResponse c id result error errors) :
    r.id = id ∧ r.error ≠ some [] := by
  rw [sendResponse] at h
  split at h
  · split at h
    · next message hmessage =>
      obtain rfl := List.mem_singleton.mp h
      refine ⟨rfl, fun hempty => ?_⟩
      obtain rfl := Option.some.inj hempty
      simpa using (Option.filter_eq_some_iff.mp hmessage).2
    · obtain rfl := List.mem_singleton.mp h
      exact ⟨rfl, fun hempty => by cases hempty⟩
  · cases h

theorem wsRpcError_echo {c : Connection} {m : Method V} {error : Thrown} {id method : Text} {params : V}
    {r : RpcResponse V} (h : r ∈ (wsRpcError c m error id method params).sent) : r.id = id ∧ r.error ≠ some [] := by
  cases error with
  | publicError message => exact sendResponse_echo h
  | schemaValidation message errors => exact sendResponse_echo h
  | other =>
    have hsent : r ∈ sendResponse c id none (some Errors.internalError) none := h
    exact sendResponse_echo hsent

theorem handleRpc_echo {c : Connection} {methods : Text → Option (Method V)} {id method : Text} {params : V}
    {r : RpcResponse V} (h : r ∈ (handleRpc encodes methods c id method params).sent) :
    r.id = id ∧ r.error ≠ some [] := by
  unfold handleRpc at h
  split at h
  · dsimp only at h
    exact sendResponse_echo h
  split at h
  · dsimp only at h
    exact sendResponse_echo h
  split at h
  · dsimp only at h
    exact sendResponse_echo h
  split at h
  · split at h
    · dsimp only at h
      exact sendResponse_echo h
    · exact wsRpcError_echo h
  · exact wsRpcError_echo h

/-! ## What a step of the client does -/

theorem drawn_step {c c' : Requests.State V} {a : Requests.Action V} (ha : ∀ fails, a ≠ .emitWithAck fails)
    (h : Requests.step c a = some c') : c'.drawn = c.drawn := by
  cases a with
  | socket b =>
    obtain ⟨client, -, rfl⟩ := Option.map_eq_some_iff.mp h
    have hreject : c.rejectAllPending.drawn = c.drawn :=
      (Requests.State.settled_settleAll _ c.clearAllPending).drawn
    show (c.before b).drawn = c.drawn
    cases b with
    | close => rfl
    | retireConnection => exact hreject
    | closed i =>
      rw [Requests.State.before]
      split
      · exact hreject
      · rfl
    | _ => rfl
  | emitWithAck fails => exact absurd rfl (ha fails)
  | response i r =>
    rw [Requests.step] at h
    split at h
    · cases h
      split
      · rw [Requests.State.handleRpcResponse]
        split
        · rfl
        · exact Requests.State.settle_drawn
      · rfl
    · cases h
  | timeout timer =>
    rw [Requests.step] at h
    split at h
    · obtain ⟨p, -, rfl⟩ := Option.map_eq_some_iff.mp h
      exact Requests.State.settle_drawn
    · cases h

theorem drawn_emitWithAck (c : Requests.State V) (fails : Bool) :
    (c.emitWithAck fails).drawn = if c.client.ready then c.drawn ++ [c.calls] else c.drawn := by
  rw [Requests.State.emitWithAck]
  dsimp only
  split
  · split
    · exact Requests.State.settle_drawn
    · rfl
  · exact Requests.State.settle_drawn

/-- Without a response no promise is settled by one. -/
theorem answered_old {c c' : Requests.State V} {a : Requests.Action V} (ha : ∀ i r, a ≠ .response i r)
    (hinv : Requests.Inv c) (h : Requests.step c a = some c') {p : ℕ × Requests.Outcome V} (hp : p ∈ c'.settled)
    (hanswered : Answered p.2) : p ∈ c.settled := by
  obtain ⟨call, o⟩ := p
  rcases (Requests.moves_step hinv h).cause _ hp with hold | hcause
  · exact hold
  · cases hcause with
    | notReady => exact hanswered.elim
    | sendFailed => exact hanswered.elim
    | timeout => exact hanswered.elim
    | resolved => exact absurd rfl (ha _ _)
    | failed => exact absurd rfl (ha _ _)
    | lost => exact hanswered.elim

/-! ## What every step keeps -/

/-- Answers stay answers. -/
theorem AnsweredBy.mono {call : ℕ} {o : Requests.Outcome V} (h : AnsweredBy encodes s call o)
    (hsent : ∀ (n : ℕ) (frame : Frame V), s.sent[n]? = some frame → s'.sent[n]? = some frame)
    (hserved : ∀ x ∈ s.served, x ∈ s'.served) : AnsweredBy encodes s' call o := by
  obtain ⟨x, frame, r, hx, hframe, hrest⟩ := h
  exact ⟨x, frame, r, hserved x hx, hsent _ _ hframe, hrest⟩

/-- The client takes a step that sends nothing. -/
theorem Inv.internal (h : Inv encodes uuid s) {a : Requests.Action V} (ha : Internal a = true)
    {client : Requests.State V} (hstep : Requests.step s.client a = some client) :
    Inv encodes uuid { s with client := client } := by
  have hemit : ∀ fails, a ≠ .emitWithAck fails := by
    rintro fails rfl
    cases ha
  have hresponse : ∀ i r, a ≠ .response i r := by
    rintro i r rfl
    cases ha
  exact { h with
    client := h.client.step hstep
    sent := h.sent.trans (drawn_step hemit hstep).symm
    settled := fun p hp hanswered => h.settled p (answered_old hresponse h.client hstep hp hanswered) hanswered }

theorem Inv.emit (h : Inv encodes uuid s) (method : Text) (params : V) (fails : Bool) :
    Inv encodes uuid (s.emit uuid method params fails) := by
  have hclient := h.client.emitWithAck fails
  have hdrawn := drawn_emitWithAck s.client fails
  have hsettled : ∀ p ∈ (s.client.emitWithAck fails).settled, Answered p.2 → p ∈ s.client.settled := fun p hp =>
    answered_old (a := .emitWithAck fails) (fun _ _ heq => by cases heq) h.client rfl hp
  rw [State.emit]
  dsimp only
  split
  · next hready =>
    rw [if_pos hready] at hdrawn
    have hlt : ∀ {n : ℕ} {frame : Frame V}, s.sent[n]? = some frame → n ≠ s.sent.length := by
      rintro n frame hframe rfl
      rw [List.getElem?_eq_none le_rfl] at hframe
      cases hframe
    refine ⟨hclient, ?_, fun n frame hframe => ?_, fun i n hn => ?_, fun i => ?_, fun t ht => ?_, h.runningOnce,
      fun x hx => ?_, h.servedOnce, h.answers, fun p hp hanswered => ?_⟩
    · rw [List.map_append, h.sent, hdrawn]
      rfl
    · rcases getElem?_concat_iff.mp hframe with hold | ⟨rfl, rfl⟩
      · exact h.named n frame hold
      · rfl
    · have hcases : n ∈ s.toServer i ∨ n = s.sent.length ∧ i = s.client.client.socket.getD 0 := by
        dsimp only at hn
        split at hn
        · exact .inl hn
        · by_cases hi : i = s.client.client.socket.getD 0
          · subst hi
            rw [Function.update_self] at hn
            exact (List.mem_append.mp hn).imp_right fun hn => ⟨List.mem_singleton.mp hn, rfl⟩
          · rw [Function.update_of_ne hi] at hn
            exact .inl hn
      rcases hcases with hold | ⟨rfl, rfl⟩
      · obtain ⟨⟨frame, hframe, hsocket⟩, hrest⟩ := h.queued i n hold
        exact ⟨⟨frame, getElem?_concat_of hframe, hsocket⟩, hrest⟩
      · refine ⟨⟨_, List.getElem?_concat_length, rfl⟩, fun hrunning => ?_, fun hserved => ?_⟩
        · obtain ⟨t, ht, hn⟩ := List.mem_map.mp hrunning
          obtain ⟨⟨frame, hframe, -⟩, -⟩ := h.running t ht
          exact hlt hframe hn
        · obtain ⟨x, hx, hn⟩ := List.mem_map.mp hserved
          obtain ⟨frame, hframe, -⟩ := h.served x hx
          exact hlt hframe hn
    · show (if fails = true then s.toServer else _) i |>.Nodup
      split
      · exact h.queuedOnce i
      · by_cases hi : i = s.client.client.socket.getD 0
        · subst hi
          rw [Function.update_self, List.nodup_append]
          refine ⟨h.queuedOnce _, List.nodup_singleton _, fun a ha b hb hab => ?_⟩
          obtain ⟨⟨frame, hframe, -⟩, -⟩ := h.queued _ a ha
          exact hlt hframe (hab.trans (List.mem_singleton.mp hb))
        · rw [Function.update_of_ne hi]
          exact h.queuedOnce i
    · obtain ⟨⟨frame, hframe, hsocket⟩, hserved⟩ := h.running t ht
      exact ⟨⟨frame, getElem?_concat_of hframe, hsocket⟩, hserved⟩
    · obtain ⟨frame, hframe, hresponses⟩ := h.served x hx
      exact ⟨frame, getElem?_concat_of hframe, hresponses⟩
    · exact (h.settled p (hsettled p hp hanswered) hanswered).mono (fun _ _ => getElem?_concat_of) fun _ => id
  · next hready =>
    rw [if_neg hready] at hdrawn
    exact { h with
      client := hclient
      sent := h.sent.trans hdrawn.symm
      settled := fun p hp hanswered => h.settled p (hsettled p hp hanswered) hanswered }

theorem Inv.arrive (h : Inv encodes uuid s) {i n : ℕ} {rest : List ℕ} (hqueue : s.toServer i = n :: rest) :
    Inv encodes uuid (s.arrive i n rest) := by
  have hnodup := h.queuedOnce i
  rw [hqueue] at hnodup
  obtain ⟨hnot, hrest⟩ := List.nodup_cons.mp hnodup
  obtain ⟨⟨frame, hframe, hsocket⟩, hidle, hnew⟩ := h.queued i n (hqueue ▸ List.mem_cons_self)
  -- What is still queued is another request: it was sent on another socket, or later.
  have hother : ∀ (j k : ℕ), k ∈ Function.update s.toServer i rest j → k ∈ s.toServer j ∧ k ≠ n := by
    intro j k hk
    by_cases hj : j = i
    · subst hj
      rw [Function.update_self] at hk
      refine ⟨hqueue ▸ List.mem_cons_of_mem _ hk, ?_⟩
      rintro rfl
      exact hnot hk
    · rw [Function.update_of_ne hj] at hk
      refine ⟨hk, ?_⟩
      rintro rfl
      obtain ⟨⟨frame', hframe', hsocket'⟩, -⟩ := h.queued j k hk
      obtain rfl := Option.some.inj (hframe.symm.trans hframe')
      exact hj (hsocket'.symm.trans hsocket)
  refine { h with
    queued := fun j k hk => ?_
    queuedOnce := fun j => ?_
    running := fun t ht => ?_
    runningOnce := ?_ }
  · obtain ⟨hk, hne⟩ := hother j k hk
    obtain ⟨hsent, hnotrunning, hnotserved⟩ := h.queued j k hk
    refine ⟨hsent, fun hmem => ?_, hnotserved⟩
    rw [State.arrive, List.map_append, List.mem_append] at hmem
    exact hmem.elim hnotrunning fun hmem => hne (List.mem_singleton.mp hmem)
  · show (Function.update s.toServer i rest j).Nodup
    by_cases hj : j = i
    · subst hj
      rw [Function.update_self]
      exact hrest
    · rw [Function.update_of_ne hj]
      exact h.queuedOnce j
  · rcases List.mem_append.mp ht with ht | ht
    · exact h.running t ht
    · obtain rfl := List.mem_singleton.mp ht
      exact ⟨⟨frame, hframe, hsocket⟩, hnew⟩
  · show ((s.running ++ [(⟨i, n⟩ : Task)]).map Task.request).Nodup
    rw [List.map_append, List.nodup_append]
    refine ⟨h.runningOnce, List.nodup_singleton _, fun a ha b hb hab => hidle ?_⟩
    obtain rfl : b = n := List.mem_singleton.mp hb
    exact hab ▸ ha

theorem mem_eraseIdx_ne {running : List Task} (hnodup : (running.map Task.request).Nodup) {k : ℕ} {t u : Task}
    (ht : running[k]? = some t) (hu : u ∈ running.eraseIdx k) : u ∈ running ∧ u.request ≠ t.request := by
  refine ⟨List.mem_of_mem_eraseIdx hu, fun hid => ?_⟩
  obtain ⟨j, hne, hj⟩ := List.mem_eraseIdx_iff_getElem?.mp hu
  have hlt : j < (running.map Task.request).length := by
    rw [List.length_map]
    exact (List.getElem?_eq_some_iff.mp hj).1
  refine hne ((List.getElem?_inj hlt hnodup).mp ?_)
  rw [List.getElem?_map, List.getElem?_map, hj, ht, Option.map_some, Option.map_some, hid]

theorem Inv.handle (h : Inv encodes uuid s) {k : ℕ} {task : Task} (htask : s.running[k]? = some task)
    {frame : Frame V} (hframe : s.sent[task.request]? = some frame) (connection : Connection)
    (methods : Text → Option (Method V)) :
    Inv encodes uuid (s.handle encodes k task frame connection methods) := by
  have hmem := List.mem_of_getElem? htask
  obtain ⟨-, hnew⟩ := h.running task hmem
  refine { h with
    queued := fun i n hn => ?_
    running := fun t ht => ?_
    runningOnce := h.runningOnce.sublist ((List.eraseIdx_sublist ..).map _)
    served := fun x hx => ?_
    servedOnce := ?_
    answers := fun i r hr => ?_
    settled := fun p hp hanswered => ?_ }
  · obtain ⟨hsent, hnotrunning, hnotserved⟩ := h.queued i n hn
    refine ⟨hsent, fun hin => hnotrunning ?_, fun hin => ?_⟩
    · exact ((List.eraseIdx_sublist ..).map _).subset hin
    · rw [State.handle, List.map_append, List.mem_append] at hin
      refine hin.elim hnotserved fun hin => hnotrunning ?_
      rw [List.mem_singleton.mp hin]
      exact List.mem_map_of_mem hmem
  · obtain ⟨ht, hne⟩ := mem_eraseIdx_ne h.runningOnce htask ht
    obtain ⟨hsent, hnotserved⟩ := h.running t ht
    refine ⟨hsent, fun hin => ?_⟩
    rw [State.handle, List.map_append, List.mem_append] at hin
    exact hin.elim hnotserved fun hin => hne (List.mem_singleton.mp hin)
  · rcases List.mem_append.mp hx with hx | hx
    · exact h.served x hx
    · obtain rfl := List.mem_singleton.mp hx
      exact ⟨frame, hframe, rfl⟩
  · rw [State.handle, List.map_append, List.nodup_append]
    refine ⟨h.servedOnce, List.nodup_singleton _, fun a ha b hb hab => hnew ?_⟩
    obtain rfl : b = task.request := List.mem_singleton.mp hb
    exact hab ▸ ha
  · have hold : r ∈ s.toClient i →
        ∃ x ∈ (s.handle encodes k task frame connection methods).served, r ∈ x.responses := fun hr => by
      obtain ⟨x, hx, hrest⟩ := h.answers i r hr
      exact ⟨x, List.mem_append_left _ hx, hrest⟩
    by_cases hi : i = task.socket
    · subst hi
      dsimp only [State.handle] at hr
      rw [Function.update_self] at hr
      rcases List.mem_append.mp hr with hr | hr
      · exact hold hr
      · exact ⟨_, List.mem_append_right _ (List.mem_singleton_self _), hr⟩
    · dsimp only [State.handle] at hr
      rw [Function.update_of_ne hi] at hr
      exact hold hr
  · exact (h.settled p hp hanswered).mono (fun _ _ => id) fun x hx => List.mem_append_left _ hx

/-- Without a message the client resolves the promise. -/
theorem tells_resolved {id : ℕ} {r : RpcResponse V} (herror : r.error ≠ some [])
    (hok : Requests.Response.failed ⟨id, r.result, r.error⟩ = none) : Tells (.resolved r.result) r := by
  cases hr : r.error with
  | none =>
    rw [Tells, RpcResponse.reply, hr]
  | some message =>
    rw [hr] at herror
    rw [Requests.Response.failed, hr, Option.filter_some] at hok
    split at hok
    · cases hok
    · next hempty =>
      exact absurd (congrArg some (by simpa using hempty)) herror

theorem tells_failed {id : ℕ} {r : RpcResponse V} {message : Text}
    (hfailed : Requests.Response.failed ⟨id, r.result, r.error⟩ = some message) :
    Tells (.rejected (.response message)) r := by
  have hr : r.error = some message := (Option.filter_eq_some_iff.mp hfailed).1
  refine ⟨r.errors, ?_⟩
  rw [RpcResponse.reply, hr]

/-- Distinct identifiers have their numbers. -/
theorem Inv.number_eq (h : Inv encodes uuid s) (huuid : Function.Injective uuid) {n : ℕ} {frame : Frame V}
    (hframe : s.sent[n]? = some frame) : s.number frame.id = n := by
  obtain ⟨hlt, heq⟩ := List.getElem?_eq_some_iff.mp hframe
  refine (List.findIdx_eq hlt).mpr ⟨by rw [heq, decide_eq_true_eq], fun m hm => ?_⟩
  rw [decide_eq_false_iff_not, h.named m _ (List.getElem?_eq_getElem (hm.trans hlt)), h.named n _ hframe]
  exact fun hid => Nat.ne_of_lt hm (huuid hid)

/-- The response that is delivered settles the call that it is for, if any. -/
theorem Inv.deliver (h : Inv encodes uuid s) (huuid : Function.Injective uuid) {i : ℕ} {r : RpcResponse V}
    {rest : List (RpcResponse V)} (hqueue : s.toClient i = r :: rest) {client : Requests.State V}
    (hstep : Requests.step s.client (.response i ⟨s.number r.id, r.result, r.error⟩) = some client) :
    Inv encodes uuid { s with client := client, toClient := Function.update s.toClient i rest } := by
  obtain ⟨x, hx, hresponse⟩ := h.answers i r (hqueue ▸ List.mem_cons_self)
  obtain ⟨frame, hframe, hresponses⟩ := h.served x hx
  rw [hresponses] at hresponse
  obtain ⟨hid, herror⟩ := handleRpc_echo hresponse
  have hnumber : s.number r.id = x.request := by rw [hid, h.number_eq huuid hframe]
  refine { h with
    client := h.client.step hstep
    sent := h.sent.trans (drawn_step (fun _ heq => by cases heq) hstep).symm
    answers := fun j r' hr => ?_
    settled := fun p hp hanswered => ?_ }
  · dsimp only at hr
    by_cases hj : j = i
    · subst hj
      rw [Function.update_self] at hr
      exact h.answers j r' (hqueue ▸ List.mem_cons_of_mem _ hr)
    · rw [Function.update_of_ne hj] at hr
      exact h.answers j r' hr
  · have hcall : ∀ call, s.client.drawn[s.number r.id]? = some call → frame.call = call := by
      intro call hdrawn
      rw [hnumber, ← h.sent, List.getElem?_map, hframe] at hdrawn
      exact Option.some.inj hdrawn
    obtain ⟨call, o⟩ := p
    rcases (Requests.moves_step h.client hstep).cause _ hp with hold | hcause
    · exact h.settled _ hold hanswered
    · cases hcause with
      | resolved hdrawn hpending hok =>
        exact ⟨x, frame, r, hx, hframe, hcall call hdrawn, hresponse, tells_resolved herror hok⟩
      | failed hdrawn hpending hfailed =>
        exact ⟨x, frame, r, hx, hframe, hcall call hdrawn, hresponse, tells_failed hfailed⟩

theorem Inv.lose (h : Inv encodes uuid s) (i : ℕ) : Inv encodes uuid (s.lose i) := by
  have hsub : ∀ {α : Type} (f : ℕ → List α) (j : ℕ), (Function.update f i [] j).Sublist (f j) := by
    intro α f j
    by_cases hj : j = i
    · subst hj
      rw [Function.update_self]
      exact List.nil_sublist _
    · rw [Function.update_of_ne hj]
  exact { h with
    queued := fun j n hn => h.queued j n ((hsub s.toServer j).subset hn)
    queuedOnce := fun j => (h.queuedOnce j).sublist (hsub s.toServer j)
    answers := fun j r hr => h.answers j r ((hsub s.toClient j).subset hr) }

theorem Inv.step (h : Inv encodes uuid s) (huuid : Function.Injective uuid) {a : Action V} (hstep : step encodes uuid s a = some s') :
    Inv encodes uuid s' := by
  cases a with
  | client a =>
    rw [RpcEndToEnd.step] at hstep
    split at hstep
    · next ha =>
      obtain ⟨client, hclient, rfl⟩ := Option.map_eq_some_iff.mp hstep
      exact h.internal ha hclient
    · cases hstep
  | emit method params fails =>
    cases hstep
    exact h.emit method params fails
  | arrive i =>
    rw [RpcEndToEnd.step] at hstep
    split at hstep
    · next n rest hqueue =>
      cases hstep
      exact h.arrive hqueue
    · cases hstep
  | handle k connection methods =>
    obtain ⟨task, htask, hstep⟩ := Option.bind_eq_some_iff.mp hstep
    obtain ⟨frame, hframe, rfl⟩ := Option.map_eq_some_iff.mp hstep
    exact h.handle htask hframe connection methods
  | deliver i =>
    rw [RpcEndToEnd.step] at hstep
    split at hstep
    · next r rest hqueue =>
      obtain ⟨client, hclient, rfl⟩ := Option.map_eq_some_iff.mp hstep
      exact h.deliver huuid hqueue hclient
    · cases hstep
  | lose i =>
    cases hstep
    exact h.lose i

theorem inv_of_reach (huuid : Function.Injective uuid) {token : Option Text}
    (h : (rpc encodes uuid token).Reach anyStep s) : Inv encodes uuid s := by
  have hinit : Inv encodes uuid (rpc encodes uuid token).init :=
    ⟨Requests.inv_init token, rfl, nofun, nofun, fun _ => .nil, nofun, .nil, nofun, .nil, nofun, nofun⟩
  exact h.invariant (Inv encodes uuid) hinit fun _ _ _ hs _ hstep => hs.step huuid hstep

/-! ## What a call can rely on -/

structure EndToEnd (encodes : V → Bool) (s : State V) : Prop where
  /-- What a response settles a promise with is what the server made of the request of this call. -/
  answered (call : ℕ) (outcome : Requests.Outcome V) : (call, outcome) ∈ s.client.settled → Answered outcome →
    AnsweredBy encodes s call outcome
  /-- No request is handled twice, and a call has one request. -/
  handledOnce : (s.served.map Served.request).Nodup
  oneRequest : (s.sent.map Frame.call).Nodup
  settledOnce : (s.client.settled.map Prod.fst).Nodup

/-- **A call is answered with what the server made of it**, however the calls, their answers and the losses of
connections come about, as long as `uuid()` gives no identifier twice. -/
theorem rpc_end_to_end (huuid : Function.Injective uuid) {token : Option Text}
    (h : (rpc encodes uuid token).Reach anyStep s) : EndToEnd encodes s := by
  have hs := inv_of_reach huuid h
  refine ⟨fun call outcome => hs.settled (call, outcome), hs.servedOnce, ?_, hs.client.once⟩
  rw [hs.sent]
  exact hs.client.drawn

end

/-! ### Two calls whose answers come the other way round -/

def double : Method ℕ := ⟨false, false, fun n _ => .returned (2 * n)⟩

theorem answers_crossed : ∃ s : State ℕ, s.client.settled = [(1, .resolved (some 10)), (0, .resolved (some 6))] ∧
    EndToEnd (fun _ => true) s := by
  have hreach : (rpc (fun _ : ℕ => true) (List.replicate · 97) none).Reach anyStep _ :=
    Machine.steps_of_exec [.client (.socket .connect), .client (.socket (.opened 0)), .emit [] 3 false, .emit [] 5 false,
      .arrive 0, .arrive 0, .handle 1 ⟨⟨false, none⟩, true, false⟩ fun _ => some double,
      .handle 0 ⟨⟨false, none⟩, true, false⟩ fun _ => some double, .deliver 0, .deliver 0] rfl
  exact ⟨_, rfl, rpc_end_to_end (List.replicate_left_injective 97) hreach⟩

end TypeFerry.Client.RpcEndToEnd
