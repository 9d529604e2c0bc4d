import TypeFerry.Client.Lifecycle
import TypeFerry.Lib.OrderedMap

/-! # The requests of the client

`emitWithAck` and what settles its calls: the response with the request's identifier, the
request's timer, a failed send, and the loss of the connection. The requests sit on the
socket of `Client.Socket`; each action of that also does here what it does to them. What
`uuid()` returns is known by the number of the draw, and a response may name any. -/
namespace TypeFerry.Client.Requests
open TypeFerry.Lib.Numeral TypeFerry.Lib.OrderedMap TypeFerry.Lib.Runs
open TypeFerry.Client.Socket TypeFerry.Client.Lifecycle

/-! ## Requests -/

inductive Reason where
  | notReady
  | timeout
  /-- `send` or the encoding throws -/
  | sendFailed
  | connectionLost
  | response (error : Text)
  deriving DecidableEq

/-- The message of the error; what `send` throws is passed on. -/
def Reason.message : Reason → Option Text
  | .notReady => some (js "Socket not ready")
  | .timeout => some (js "Acknowledgment timeout")
  | .sendFailed => none
  | .connectionLost => some (js "Connection lost")
  | .response error => some error

inductive Outcome (β : Type) where
  | resolved (result : Option β)
  | rejected (reason : Reason)
  deriving DecidableEq

/-- `PendingRequest`: the promise of the call, and the timer. -/
structure PendingRequest where
  call : ℕ
  timer : ℕ
  deriving DecidableEq

structure Response (β : Type) where
  id : ℕ
  result : Option β
  error : Option Text

/-- `if (msg.error)`. -/
def Response.failed {β : Type} (r : Response β) : Option Text := r.error.filter (!·.isEmpty)

/-- The part of `ClientSocket` that keeps the requests, over the rest of it. -/
structure State (β : Type) where
  client : ClientSocket
  pending : OMap ℕ PendingRequest
  /-- the armed timers, with the identifier and the call that each one is for -/
  timers : OMap ℕ (ℕ × ℕ)
  armed : ℕ
  /-- the number of calls so far -/
  calls : ℕ
  /-- the calls for which an identifier was drawn, in the order of the draws -/
  drawn : List ℕ
  settled : List (ℕ × Outcome β)

namespace State
variable {β : Type}

/-- A promise settles only once. -/
def settle (s : State β) (call : ℕ) (o : Outcome β) : State β :=
  if call ∈ s.settled.map Prod.fst then s else { s with settled := s.settled ++ [(call, o)] }

def settleAll (s : State β) (calls : List ℕ) (o : Outcome β) : State β :=
  calls.foldl (fun s call => s.settle call o) s

/-- `fails` says that `send` throws. The request stays in the map, then. -/
def emitWithAck (s : State β) (fails : Bool) : State β :=
  let call := s.calls
  let s := { s with calls := s.calls + 1 }
  if s.client.ready then
    let id := s.drawn.length
    let s := { s with
      drawn := s.drawn ++ [call]
      timers := s.timers.set s.armed (id, call)
      armed := s.armed + 1
      pending := s.pending.set id ⟨call, s.armed⟩ }
    if fails then s.settle call (.rejected .sendFailed) else s
  else s.settle call (.rejected .notReady)

/-- The timer of a request fires. -/
def timerFires (s : State β) (timer id call : ℕ) : State β :=
  { s with timers := s.timers.delete timer, pending := s.pending.delete id }.settle call (.rejected .timeout)

def handleRpcResponse (s : State β) (r : Response β) : State β :=
  match s.pending.get r.id with
  | none => s
  | some entry =>
    { s with pending := s.pending.delete r.id, timers := s.timers.delete entry.timer }.settle entry.call
      (match r.failed with
        | some error => .rejected (.response error)
        | none => .resolved r.result)

/-- The timers of all requests are cleared, and the map is emptied. -/
def clearAllPending (s : State β) : State β :=
  { s with
    timers := s.timers.deleteAll (s.pending.values.map (·.timer))
    pending := OMap.empty }

def rejectAllPending (s : State β) : State β :=
  s.clearAllPending.settleAll (s.pending.values.map (·.call)) (.rejected .connectionLost)

/-- What an action of the socket does to the requests first. Where the handler of a close event goes
on to retire the connection, none are left. -/
def before (s : State β) : Socket.Action → State β
  | .close => s.clearAllPending
  | .retireConnection => s.rejectAllPending
  | .closed i => if (s.client.endSocket i).hears i then s.rejectAllPending else s
  | _ => s

end State

/-! ## Runs -/

inductive Action (β : Type) where
  | socket (a : Socket.Action)
  | emitWithAck (fails : Bool)
  /-- a response arrives on a socket -/
  | response (i : ℕ) (r : Response β)
  | timeout (timer : ℕ)

section
variable {β : Type}

def init (token : Option Text) : State β := ⟨Socket.init token, OMap.empty, OMap.empty, 0, 0, [], []⟩

def step (s : State β) : Action β → Option (State β)
  | .socket a => (Socket.step s.client a).map fun client => { s.before a with client }
  | .emitWithAck fails => some (s.emitWithAck fails)
  | .response i r =>
    if s.client.resumed = [] ∧ s.client.readyState i = some .opened then
      some (if s.client.hears i then s.handleRpcResponse r else s)
    else none
  | .timeout timer =>
    if s.client.resumed = [] then (s.timers.get timer).map fun p => s.timerFires timer p.1 p.2 else none

def machine (token : Option Text) : Machine (State β) (Action β) := ⟨init token, step⟩

/-- The current socket has been connected, the client has not called `close()` on it, and its close
event is still to come. -/
def waits (c : ClientSocket) : Bool :=
  c.socket.any fun i => c.sockets[i]?.any fun ws =>
    !ws.ended && !ws.closeCalled && ws.readyState ≠ .connecting

/-- `connect()` is not called while the other side is closing the current socket or it has failed,
before its close event. -/
def orderly (s : State β) : Action β → Prop
  | .socket .connect => s.client.ready = true ∨ waits s.client = false
  | _ => True

instance (s : State β) : (a : Action β) → Decidable (orderly s a)
  | .socket .connect => inferInstanceAs (Decidable (s.client.ready = true ∨ waits s.client = false))
  | .socket .close | .socket .retireConnection | .socket (.setToken _) | .socket .resume
  | .socket (.fire _) | .socket (.opened _) | .socket (.closing _) | .socket (.failed _)
  | .socket (.closed _) | .emitWithAck _ | .response _ _ | .timeout _ => isTrue trivial

end

/-! ## The current socket -/

/-- The current socket has its handlers, and a socket on which `close()` was called is not open. -/
structure Attended (c : ClientSocket) : Prop where
  handlers : ∀ (i : ℕ) (ws : WebSocket), c.socket = some i → c.sockets[i]? = some ws → ws.handlers = true
  called : ∀ (i : ℕ) (ws : WebSocket), c.sockets[i]? = some ws → ws.closeCalled = true →
    ws.readyState = .closing ∨ ws.readyState = .closed

section
variable {c c' : ClientSocket} {i : ℕ} {a : Socket.Action}

theorem Attended.congr (h : Attended c) (hsockets : c'.sockets = c.sockets) (hsocket : c'.socket = c.socket) :
    Attended c' := by
  refine ⟨?_, ?_⟩
  · rw [hsockets, hsocket]
    exact h.handlers
  · rw [hsockets]
    exact h.called

theorem Attended.drop (h : Attended c) (hsockets : c'.sockets = c.sockets) (hsocket : c'.socket = none) :
    Attended c' := by
  refine ⟨fun i ws hi => ?_, ?_⟩
  · rw [hsocket] at hi
    cases hi
  · rw [hsockets]
    exact h.called

theorem attended_modifySocket (h : Attended c) {f : WebSocket → WebSocket}
    (hhandlers : c.socket = some i → ∀ ws, (f ws).handlers = ws.handlers)
    (hcalled : ∀ ws, c.sockets[i]? = some ws →
      (ws.closeCalled = true → ws.readyState = .closing ∨ ws.readyState = .closed) →
      (f ws).closeCalled = true → (f ws).readyState = .closing ∨ (f ws).readyState = .closed) :
    Attended (c.modifySocket i f) where
  handlers j ws hj hws := by
    rw [ClientSocket.modifySocket, List.getElem?_modify] at hws
    obtain ⟨ws₀, hws₀, rfl⟩ := Option.map_eq_some_iff.mp hws
    split
    · next heq =>
      subst heq
      rw [hhandlers hj]
      exact h.handlers _ _ hj hws₀
    · exact h.handlers _ _ hj hws₀
  called j ws hws hc := by
    rw [ClientSocket.modifySocket, List.getElem?_modify] at hws
    obtain ⟨ws₀, hws₀, rfl⟩ := Option.map_eq_some_iff.mp hws
    split at hc
    · next heq =>
      rw [if_pos heq]
      exact hcalled ws₀ (heq ▸ hws₀) (h.called _ _ hws₀) hc
    · next hne =>
      rw [if_neg hne]
      exact h.called _ _ hws₀ hc

theorem attended_createSocket (h : Attended c) : Attended c.createSocket where
  handlers j ws hj hws := by
    cases hj
    rw [ClientSocket.createSocket, List.getElem?_append_right (le_refl _), Nat.sub_self] at hws
    cases hws
    rfl
  called j ws hws hc := by
    rw [ClientSocket.createSocket, List.getElem?_append] at hws
    split at hws
    · exact h.called _ _ hws hc
    · rw [List.mem_singleton.mp (List.mem_of_getElem? hws)] at hc
      cases hc

theorem called_close (ws : WebSocket) :
    ws.close.readyState = .closing ∨ ws.close.readyState = .closed := by
  cases h : ws.readyState <;> simp [WebSocket.close, h]

theorem attended_cleared (h : Attended c) : Attended c.clearReconnectTimer := by
  unfold ClientSocket.clearReconnectTimer
  split
  · exact h.congr rfl rfl
  · exact h

theorem attended_connect (h : Attended c) : Attended c.connect := by
  unfold ClientSocket.connect
  dsimp only
  split
  · exact attended_cleared h
  · exact attended_createSocket ((attended_cleared h).congr rfl rfl)

theorem attended_close (h : Attended c) : Attended c.close := by
  have hstopped : Attended { c with stopped := true, connecting := false } := h.congr rfl rfl
  have hcleared := attended_cleared hstopped
  unfold ClientSocket.close
  dsimp only
  split
  · exact hcleared.congr rfl rfl
  · next i _ =>
    split
    · exact hcleared.drop rfl rfl
    · have hclosing : Attended (ClientSocket.modifySocket _ i .close) :=
        attended_modifySocket hcleared (fun _ _ => rfl) fun ws _ _ _ => called_close ws
      exact hclosing.congr rfl rfl

theorem attended_retireConnection (h : Attended c) : Attended c.retireConnection := by
  have hstopped : Attended { c with stopped := true, connecting := false } := h.congr rfl rfl
  have hcleared := attended_cleared hstopped
  unfold ClientSocket.retireConnection
  dsimp only
  split
  · next i _ =>
    have hdropped : Attended { ClientSocket.clearReconnectTimer _ with socket := none } := hcleared.drop rfl rfl
    have hretired : Attended (ClientSocket.modifySocket _ i .retire) :=
      attended_modifySocket hdropped (fun hi => by cases hi) fun ws _ _ _ => called_close { ws with handlers := false }
    exact hretired.congr rfl rfl
  · exact hcleared.congr rfl rfl

theorem attended_scheduleReconnect (h : Attended c) : Attended c.scheduleReconnect := by
  unfold ClientSocket.scheduleReconnect
  split
  · exact h
  · dsimp only
    split
    · split
      · exact h.congr rfl rfl
      · unfold ClientSocket.reconnect ClientSocket.replaceConnection
        dsimp only
        split
        · refine attended_retireConnection ?_
          split <;> exact h.congr rfl rfl
        · refine attended_connect (attended_retireConnection ?_)
          split <;> exact h.congr rfl rfl
    · exact h.congr rfl rfl

theorem attended_onclose (h : Attended c) : Attended (c.onclose i) := by
  have hclosed : Attended (c.modifySocket i ({ · with readyState := .closed, ended := true })) :=
    attended_modifySocket h (fun _ _ => rfl) fun _ _ _ _ => .inr rfl
  have hended : Attended (c.endSocket i) := hclosed.congr rfl rfl
  unfold ClientSocket.onclose
  dsimp only
  split
  · unfold ClientSocket.handleClose
    dsimp only
    split
    · exact hended.drop rfl rfl
    · exact attended_scheduleReconnect (hended.congr rfl rfl)
  · exact hended

theorem attended_step (h : Attended c) (hs : Socket.step c a = some c') : Attended c' := by
  cases effect_of_step hs with
  | connect => exact attended_connect h
  | close => exact attended_close h
  | retireConnection => exact attended_retireConnection h
  | setToken => exact h.congr rfl rfl
  | resume =>
    unfold ClientSocket.closeResumed
    split
    · exact h.drop rfl rfl
    · exact h.congr rfl rfl
  | fire =>
    exact attended_createSocket (h.drop rfl rfl)
  | @opened i hstate =>
    have hopened : Attended (c.modifySocket i ({ · with readyState := .opened })) := by
      refine attended_modifySocket h (fun _ _ => rfl) fun ws hws hcalled hc => ?_
      rw [ClientSocket.readyState, hws, Option.map_some, Option.some.injEq] at hstate
      rcases hcalled hc with hr | hr <;> cases hstate.symm.trans hr
    unfold ClientSocket.onopen
    dsimp only
    split
    · exact hopened.congr rfl rfl
    · exact hopened
  | closing =>
    exact attended_modifySocket h (fun _ _ => rfl) fun _ _ _ _ => .inl rfl
  | @failed i =>
    have hclosed : Attended (c.modifySocket i ({ · with readyState := .closed })) :=
      attended_modifySocket h (fun _ _ => rfl) fun _ _ _ _ => .inr rfl
    unfold ClientSocket.onerror
    dsimp only
    split
    · exact hclosed.congr rfl rfl
    · exact hclosed
  | closed => exact attended_onclose h

theorem waits_iff : waits c = true ↔ ∃ (i : ℕ) (ws : WebSocket), c.socket = some i ∧
    c.sockets[i]? = some ws ∧ ws.ended = false ∧ ws.closeCalled = false ∧ ws.readyState ≠ .connecting := by
  simp [waits, Option.any_eq_true, and_assoc]

theorem waits_congr (h : waits c = true) (hsockets : c'.sockets = c.sockets)
    (hsocket : c'.socket = c.socket) : waits c' = true := by
  rw [waits, hsockets, hsocket]
  exact h

/-- What happens to a socket, unless it is the current one that opens, closes or ends. -/
theorem waits_modifySocket (h : waits c = true) {f : WebSocket → WebSocket}
    (hf : c.socket = some i → ∀ ws, c.sockets[i]? = some ws → ws.readyState ≠ .connecting →
      (f ws).ended = ws.ended ∧ (f ws).closeCalled = ws.closeCalled ∧ (f ws).readyState ≠ .connecting) :
    waits (c.modifySocket i f) = true := by
  obtain ⟨j, ws, hj, hws, hended, hcalled, hstate⟩ := waits_iff.mp h
  by_cases heq : i = j
  · subst heq
    obtain ⟨he, hc, hr⟩ := hf hj ws hws hstate
    refine waits_iff.mpr ⟨i, f ws, hj, ?_, he.trans hended, hc.trans hcalled, hr⟩
    rw [ClientSocket.modifySocket, List.getElem?_modify_eq, hws]
    rfl
  · refine waits_iff.mpr ⟨j, ws, hj, ?_, hended, hcalled, hstate⟩
    rw [ClientSocket.modifySocket, List.getElem?_modify, hws]
    exact congrArg some (if_neg heq)

theorem waits_of_ready (ha : Attended c) (hw : WellFormed c) (h : c.ready = true) : waits c = true := by
  obtain ⟨i, ws, hi, hws, hr⟩ := exists_of_current (of_decide_eq_true h)
  refine waits_iff.mpr ⟨i, ws, hi, hws, ?_, ?_, ?_⟩
  · by_contra he
    cases hr.symm.trans (hw.ended i ws hws (Bool.not_eq_false _ ▸ he))
  · by_contra hc
    rcases ha.called i ws hws (Bool.not_eq_false _ ▸ hc) with h' | h' <;> cases hr.symm.trans h'
  · rw [hr]
    decide

/-- The current socket waits for its close event until the client gives it up. -/
theorem waits_step (hw : WellFormed c) (ha : Attended c) (h : waits c = true)
    (hconnect : a = .connect → c.ready = true) (hclose : a ≠ .close) (hretire : a ≠ .retireConnection)
    (hheard : ∀ i, a = .closed i → (c.endSocket i).hears i = false) (hs : Socket.step c a = some c') :
    waits c' = true := by
  obtain ⟨j, ws, hj, hws, hended, hcalled, hstate⟩ := waits_iff.mp h
  cases effect_of_step hs with
  | connect =>
    have hready : c.clearReconnectTimer.ready = true := by
      rw [clearReconnectTimer_eq hw]
      exact hconnect rfl
    unfold ClientSocket.connect
    dsimp only
    rw [if_pos hready, clearReconnectTimer_eq hw]
    exact waits_congr h rfl rfl
  | close => exact absurd rfl hclose
  | retireConnection => exact absurd rfl hretire
  | setToken => exact waits_congr h rfl rfl
  | @resume i rest hresumed =>
    obtain ⟨ws', hws', hended'⟩ := hw.resumed i (hresumed ▸ List.mem_cons_self)
    have hne : ¬ c.socket = some i := by
      intro hi
      cases hj.symm.trans hi
      cases hws.symm.trans hws'
      rw [hended] at hended'
      cases hended'
    unfold ClientSocket.closeResumed
    rw [if_neg hne]
    exact waits_congr h rfl rfl
  | @fire timer hmem =>
    rw [hw.timer, Option.mem_toList] at hmem
    have hset : c.reconnectTimer ≠ none := fun hnone => by cases hnone.symm.trans hmem
    rw [hw.quiet hset j ws hj hws] at hended
    cases hended
  | @opened i hconnecting =>
    have hopened : waits (c.modifySocket i ({ · with readyState := .opened })) = true := by
      refine waits_modifySocket h fun _ ws' hws' hne => ?_
      rw [ClientSocket.readyState, hws', Option.map_some, Option.some.injEq] at hconnecting
      exact absurd hconnecting hne
    unfold ClientSocket.onopen
    dsimp only
    split
    · exact waits_congr hopened rfl rfl
    · exact hopened
  | closing =>
    exact waits_modifySocket h fun _ _ _ _ => ⟨rfl, rfl, fun hr => by cases hr⟩
  | @failed i =>
    have hclosed : waits (c.modifySocket i ({ · with readyState := .closed })) = true :=
      waits_modifySocket h fun _ _ _ _ => ⟨rfl, rfl, fun hr => by cases hr⟩
    unfold ClientSocket.onerror
    dsimp only
    split
    · exact waits_congr hclosed rfl rfl
    · exact hclosed
  | @closed i halive =>
    have hnot := hheard i rfl
    have hother : c.socket ≠ some i := by
      intro hi
      cases hj.symm.trans hi
      have hhears : (c.endSocket j).hears j = true := by
        have hhandlers := ha.handlers j ws hj hws
        simp [ClientSocket.hears, ClientSocket.endSocket, ClientSocket.modifySocket, hj, hws, hhandlers]
      rw [hnot] at hhears
      cases hhears
    unfold ClientSocket.onclose
    dsimp only
    rw [hnot, if_neg Bool.false_ne_true]
    have hclosed : waits (c.modifySocket i ({ · with readyState := .closed, ended := true })) = true :=
      waits_modifySocket h fun hi => absurd hi hother
    exact waits_congr hclosed rfl rfl

end

/-! ## Promises -/

namespace State
variable {β : Type} {s : State β} {call : ℕ} {o : Outcome β} {p : ℕ × Outcome β} {calls : List ℕ}

@[simp] theorem settle_client : (s.settle call o).client = s.client := by unfold settle; split <;> rfl

@[simp] theorem settle_pending : (s.settle call o).pending = s.pending := by unfold settle; split <;> rfl

@[simp] theorem settle_timers : (s.settle call o).timers = s.timers := by unfold settle; split <;> rfl

@[simp] theorem settle_armed : (s.settle call o).armed = s.armed := by unfold settle; split <;> rfl

@[simp] theorem settle_calls : (s.settle call o).calls = s.calls := by unfold settle; split <;> rfl

@[simp] theorem settle_drawn : (s.settle call o).drawn = s.drawn := by unfold settle; split <;> rfl

theorem mem_settle (h : p ∈ (s.settle call o).settled) : p ∈ s.settled ∨ p = (call, o) := by
  unfold settle at h
  split at h
  · exact .inl h
  · exact (List.mem_append.mp h).imp_right List.mem_singleton.mp

theorem prefix_settle : s.settled <+: (s.settle call o).settled := by
  unfold settle
  split
  · exact List.prefix_rfl
  · exact List.prefix_append _ _

theorem once_settle (h : (s.settled.map Prod.fst).Nodup) :
    ((s.settle call o).settled.map Prod.fst).Nodup := by
  unfold settle
  split
  · exact h
  · next hnot =>
    rw [List.map_append, List.nodup_append]
    refine ⟨h, List.nodup_singleton _, fun a ha b hb heq => hnot ?_⟩
    have hcall : a = call := heq.trans (List.mem_singleton.mp hb)
    exact hcall ▸ ha

/-- Many promises settle alike: nothing but them changes. -/
structure Settled (s t : State β) (calls : List ℕ) (o : Outcome β) : Prop where
  client : t.client = s.client
  pending : t.pending = s.pending
  timers : t.timers = s.timers
  armed : t.armed = s.armed
  count : t.calls = s.calls
  drawn : t.drawn = s.drawn
  mem : ∀ p ∈ t.settled, p ∈ s.settled ∨ p.1 ∈ calls ∧ p.2 = o
  kept : s.settled <+: t.settled
  once : (s.settled.map Prod.fst).Nodup → (t.settled.map Prod.fst).Nodup

theorem settled_settleAll : ∀ (calls : List ℕ) (s : State β), Settled s (s.settleAll calls o) calls o
  | [], s => ⟨rfl, rfl, rfl, rfl, rfl, rfl, fun _ h => .inl h, List.prefix_rfl, id⟩
  | call :: calls, s => by
    have h := settled_settleAll calls (s.settle call o)
    refine ⟨?_, ?_, ?_, ?_, ?_, ?_, fun p hp => ?_, prefix_settle.trans h.kept, fun hnd => h.once (once_settle hnd)⟩
    · exact h.client.trans settle_client
    · exact h.pending.trans settle_pending
    · exact h.timers.trans settle_timers
    · exact h.armed.trans settle_armed
    · exact h.count.trans settle_calls
    · exact h.drawn.trans settle_drawn
    · rcases h.mem p hp with hp | hp
      · rcases mem_settle hp with hp | rfl
        · exact .inl hp
        · exact .inr ⟨List.mem_cons_self, rfl⟩
      · exact .inr ⟨List.mem_cons_of_mem _ hp.1, hp.2⟩

end State

/-! ## What holds in every run -/

section
variable {β : Type} {s s' : State β} {a : Action β}

structure Inv (s : State β) : Prop where
  client : WellFormed s.client
  attended : Attended s.client
  pending : ∀ id entry, s.pending.get id = some entry →
    s.drawn[id]? = some entry.call ∧ s.timers.get entry.timer = some (id, entry.call)
  timers : ∀ timer id call, s.timers.get timer = some (id, call) → s.pending.get id = some ⟨call, timer⟩
  armed : ∀ timer p, s.timers.get timer = some p → timer < s.armed
  drawn : s.drawn.Nodup
  calls : ∀ call ∈ s.drawn, call < s.calls
  made : ∀ p ∈ s.settled, p.1 < s.calls
  once : (s.settled.map Prod.fst).Nodup

/-- The requests that are left are those of before. -/
structure Fewer (s t : State β) : Prop where
  client : t.client = s.client
  count : t.calls = s.calls
  armed : t.armed = s.armed
  drawn : t.drawn = s.drawn
  pending : ∀ id entry, t.pending.get id = some entry ↔
    s.pending.get id = some entry ∧ t.timers.get entry.timer = some (id, entry.call)
  timers : ∀ timer p, t.timers.get timer = some p → s.timers.get timer = some p ∧
    t.pending.get p.1 = some ⟨p.2, timer⟩

/-- The calls that settle have been made. -/
theorem Inv.fewer {t : State β} (h : Inv s) (hf : Fewer s t)
    (hmade : ∀ p ∈ t.settled, p.1 < s.calls) (honce : (t.settled.map Prod.fst).Nodup) : Inv t where
  client := hf.client ▸ h.client
  attended := hf.client ▸ h.attended
  pending id entry hid := by
    obtain ⟨hid, htimer⟩ := (hf.pending id entry).mp hid
    exact ⟨hf.drawn ▸ (h.pending id entry hid).1, htimer⟩
  timers timer id call ht := (hf.timers timer (id, call) ht).2
  armed timer p ht := hf.armed ▸ h.armed timer p (hf.timers timer p ht).1
  drawn := hf.drawn ▸ h.drawn
  calls := by
    rw [hf.drawn, hf.count]
    exact h.calls
  made := hf.count ▸ hmade
  once := honce

/-- The request with an identifier is taken out, and its timer is cleared. -/
theorem fewer_delete (h : Inv s) {id : ℕ} {entry : PendingRequest} (hid : s.pending.get id = some entry) :
    Fewer s { s with pending := s.pending.delete id, timers := s.timers.delete entry.timer } := by
  obtain ⟨-, htimer⟩ := h.pending id entry hid
  refine ⟨rfl, rfl, rfl, rfl, fun id' entry' => ?_, fun timer p ht => ?_⟩
  · simp only [OMap.get_delete]
    constructor
    · intro hget
      split at hget
      · cases hget
      · next hne =>
        have ht' := (h.pending id' entry' hget).2
        rw [if_neg fun heq => hne ?_]
        · exact ⟨hget, ht'⟩
        · rw [heq, htimer] at ht'
          exact (congrArg Prod.fst (Option.some.inj ht')).symm
    · rintro ⟨hget, ht'⟩
      split at ht'
      · cases ht'
      · next hne =>
        rw [if_neg fun heq => hne ?_]
        · exact hget
        · rw [heq, hid] at hget
          rw [Option.some.inj hget]
  · simp only [OMap.get_delete] at ht ⊢
    split at ht
    · cases ht
    · next hne =>
      have hp := h.timers timer p.1 p.2 ht
      refine ⟨ht, ?_⟩
      rw [if_neg fun heq => hne ?_]
      · exact hp
      · rw [heq, hid] at hp
        rw [Option.some.inj hp]

theorem timers_clearAllPending (h : Inv s) (timer : ℕ) : s.clearAllPending.timers.get timer = none := by
  rw [State.clearAllPending, OMap.get_deleteAll]
  split
  · rfl
  · next hnot =>
    cases ht : s.timers.get timer with
    | none => rfl
    | some p =>
      have hp := h.timers timer p.1 p.2 ht
      exact absurd (List.mem_map.mpr ⟨_, OMap.mem_values.mpr ⟨_, hp⟩, rfl⟩) hnot

theorem fewer_clearAllPending (h : Inv s) : Fewer s s.clearAllPending := by
  refine ⟨rfl, rfl, rfl, rfl, fun id entry => ⟨fun hid => ?_, fun hid => ?_⟩, fun timer p ht => ?_⟩
  · cases hid
  · rw [timers_clearAllPending h] at hid
    cases hid.2
  · rw [timers_clearAllPending h] at ht
    cases ht

/-- Promises do not matter for the requests that are left. -/
theorem Fewer.settled {t u : State β} {calls : List ℕ} {o : Outcome β} (h : Fewer s t)
    (hu : State.Settled t u calls o) : Fewer s u := by
  refine ⟨hu.client.trans h.client, hu.count.trans h.count, hu.armed.trans h.armed, hu.drawn.trans h.drawn, ?_, ?_⟩
  · rw [hu.pending, hu.timers]
    exact h.pending
  · rw [hu.pending, hu.timers]
    exact h.timers

/-- What settles a call in a step. Its identifier is the one that was drawn for it. -/
inductive Settles (s : State β) : Action β → ℕ → Outcome β → Prop where
  | notReady {fails : Bool} (h : s.client.ready = false) :
    Settles s (.emitWithAck fails) s.calls (.rejected .notReady)
  | sendFailed (h : s.client.ready = true) : Settles s (.emitWithAck true) s.calls (.rejected .sendFailed)
  | timeout {timer id call : ℕ} (h : s.timers.get timer = some (id, call)) (hid : s.drawn[id]? = some call) :
    Settles s (.timeout timer) call (.rejected .timeout)
  | resolved {i call : ℕ} {r : Response β} (hid : s.drawn[r.id]? = some call)
    (hpending : ∃ timer, s.pending.get r.id = some ⟨call, timer⟩) (hok : r.failed = none) :
    Settles s (.response i r) call (.resolved r.result)
  | failed {i call : ℕ} {r : Response β} {error : Text} (hid : s.drawn[r.id]? = some call)
    (hpending : ∃ timer, s.pending.get r.id = some ⟨call, timer⟩) (hfailed : r.failed = some error) :
    Settles s (.response i r) call (.rejected (.response error))
  | lost {b : Socket.Action} {id call : ℕ} (hid : s.drawn[id]? = some call)
    (hpending : ∃ timer, s.pending.get id = some ⟨call, timer⟩)
    (hlost : b = .retireConnection ∨ ∃ i, b = .closed i ∧ s.client.socket = some i) :
    Settles s (.socket b) call (.rejected .connectionLost)

/-- What a step does to the promises. -/
structure Moves (s : State β) (a : Action β) (s' : State β) : Prop where
  kept : s.settled <+: s'.settled
  cause : ∀ p ∈ s'.settled, p ∈ s.settled ∨ Settles s a p.1 p.2

theorem Moves.refl : Moves s a s := ⟨List.prefix_rfl, fun _ => .inl⟩

/-- A promise settles for a cause. -/
theorem moves_settle {t : State β} {call : ℕ} {o : Outcome β} (ht : t.settled = s.settled)
    (h : Settles s a call o) : Moves s a (t.settle call o) := by
  refine ⟨ht ▸ State.prefix_settle, fun p hp => ?_⟩
  rcases State.mem_settle hp with hp | rfl
  · exact .inl (ht ▸ hp)
  · exact .inr h

theorem moves_rejectAllPending {b : Socket.Action} (h : Inv s)
    (hlost : b = .retireConnection ∨ ∃ i, b = .closed i ∧ s.client.socket = some i) :
    Moves s (.socket b) s.rejectAllPending := by
  have hsettled := State.settled_settleAll (o := .rejected .connectionLost)
    (s.pending.values.map (·.call)) s.clearAllPending
  refine ⟨hsettled.kept, fun p hp => ?_⟩
  rcases hsettled.mem p hp with hp | ⟨hp, ho⟩
  · exact .inl hp
  · obtain ⟨entry, hentry, hcall⟩ := List.mem_map.mp hp
    obtain ⟨id, hid⟩ := OMap.mem_values.mp hentry
    rw [ho, ← hcall]
    exact .inr (.lost (h.pending id entry hid).1 ⟨entry.timer, hid⟩ hlost)

/-- An action of the socket settles only calls whose connection is lost. -/
theorem moves_before (h : Inv s) (b : Socket.Action) : Moves s (.socket b) (s.before b) := by
  cases b with
  | close => exact ⟨List.prefix_rfl, fun _ => .inl⟩
  | retireConnection => exact moves_rejectAllPending h (.inl rfl)
  | closed i =>
    rw [State.before]
    split
    · next hhears =>
      have hi : s.client.socket = some i := socket_of_hears (c := s.client.endSocket i) hhears
      exact moves_rejectAllPending h (.inr ⟨i, rfl, hi⟩)
    · exact .refl
  | _ => exact .refl

theorem moves_handleRpcResponse {i : ℕ} (h : Inv s) (r : Response β) :
    Moves s (.response i r) (s.handleRpcResponse r) := by
  unfold State.handleRpcResponse
  split
  · exact .refl
  · next entry hid =>
    obtain ⟨hdrawn, -⟩ := h.pending r.id entry hid
    refine moves_settle rfl ?_
    split
    · next error hfailed => exact .failed hdrawn ⟨entry.timer, hid⟩ hfailed
    · next hok => exact .resolved hdrawn ⟨entry.timer, hid⟩ hok

theorem moves_emitWithAck (fails : Bool) : Moves s (.emitWithAck fails) (s.emitWithAck fails) := by
  unfold State.emitWithAck
  dsimp only
  split
  · next hready =>
    split
    · next hfails =>
      rw [hfails]
      exact moves_settle rfl (.sendFailed hready)
    · exact ⟨List.prefix_rfl, fun _ => .inl⟩
  · next hready => exact moves_settle rfl (.notReady (Bool.not_eq_true _ ▸ hready))

theorem moves_step (h : Inv s) (hs : step s a = some s') : Moves s a s' := by
  cases a with
  | socket b =>
    obtain ⟨client, -, rfl⟩ := Option.map_eq_some_iff.mp hs
    exact ⟨(moves_before h b).kept, (moves_before h b).cause⟩
  | emitWithAck fails =>
    cases hs
    exact moves_emitWithAck fails
  | response i r =>
    rw [step] at hs
    split at hs
    · cases hs
      split
      · exact moves_handleRpcResponse h r
      · exact .refl
    · cases hs
  | timeout timer =>
    rw [step] at hs
    split at hs
    · obtain ⟨⟨id, call⟩, ht, rfl⟩ := Option.map_eq_some_iff.mp hs
      exact moves_settle rfl (.timeout ht (h.pending id _ (h.timers timer id call ht)).1)
    · cases hs

/-! ### The invariant -/

theorem call_lt (h : Inv s) {id : ℕ} {entry : PendingRequest} (hid : s.pending.get id = some entry) :
    entry.call < s.calls :=
  h.calls _ (List.mem_of_getElem? (h.pending id entry hid).1)

/-- A request is taken out, and its call settles. -/
theorem Inv.delete (h : Inv s) {id : ℕ} {entry : PendingRequest} (hid : s.pending.get id = some entry)
    (o : Outcome β) : Inv ({ s with pending := s.pending.delete id, timers := s.timers.delete entry.timer }.settle
      entry.call o) := by
  have hf := (fewer_delete h hid).settled (State.settled_settleAll (o := o) [entry.call] _)
  refine h.fewer hf (fun p hp => ?_) (State.once_settle h.once)
  rcases State.mem_settle hp with hp | rfl
  · exact h.made p hp
  · exact call_lt h hid

theorem Inv.rejectAllPending (h : Inv s) : Inv s.rejectAllPending := by
  have hsettled := State.settled_settleAll (o := .rejected .connectionLost)
    (s.pending.values.map (·.call)) s.clearAllPending
  refine h.fewer ((fewer_clearAllPending h).settled hsettled) (fun p hp => ?_) (hsettled.once h.once)
  rcases hsettled.mem p hp with hp | ⟨hp, -⟩
  · exact h.made p hp
  · obtain ⟨entry, hentry, hcall⟩ := List.mem_map.mp hp
    obtain ⟨id, hid⟩ := OMap.mem_values.mp hentry
    exact hcall ▸ call_lt h hid

theorem Inv.before (h : Inv s) (b : Socket.Action) : Inv (s.before b) := by
  cases b with
  | close => exact h.fewer (fewer_clearAllPending h) h.made h.once
  | retireConnection => exact h.rejectAllPending
  | closed i =>
    rw [State.before]
    split
    · exact h.rejectAllPending
    · exact h
  | _ => exact h

theorem Inv.settle (h : Inv s) {call : ℕ} (hcall : call < s.calls) (o : Outcome β) : Inv (s.settle call o) := by
  have hf : Fewer s s := ⟨rfl, rfl, rfl, rfl,
    fun id entry => ⟨fun hid => ⟨hid, (h.pending id entry hid).2⟩, fun hid => hid.1⟩,
    fun timer p ht => ⟨ht, h.timers timer p.1 p.2 ht⟩⟩
  refine h.fewer (hf.settled (State.settled_settleAll (o := o) [call] s)) (fun p hp => ?_)
    (State.once_settle h.once)
  rcases State.mem_settle hp with hp | rfl
  · exact h.made p hp
  · exact hcall

/-- A request with a new identifier and a new timer. -/
theorem Inv.request (h : Inv s) : Inv { s with
    calls := s.calls + 1
    drawn := s.drawn ++ [s.calls]
    timers := s.timers.set s.armed (s.drawn.length, s.calls)
    armed := s.armed + 1
    pending := s.pending.set s.drawn.length ⟨s.calls, s.armed⟩ } where
  client := h.client
  attended := h.attended
  pending id entry hid := by
    simp only [OMap.get_set] at hid ⊢
    split at hid
    · next heq =>
      cases hid
      rw [heq]
      exact ⟨by simp, if_pos rfl⟩
    · obtain ⟨hdrawn, htimer⟩ := h.pending id entry hid
      refine ⟨?_, ?_⟩
      · rw [List.getElem?_append_left (List.getElem?_eq_some_iff.mp hdrawn).1]
        exact hdrawn
      · rw [if_neg (h.armed _ _ htimer).ne]
        exact htimer
  timers timer id call ht := by
    simp only [OMap.get_set] at ht ⊢
    split at ht
    · next heq =>
      cases ht
      rw [heq, if_pos rfl]
    · have hid := h.timers timer id call ht
      rw [if_neg (List.getElem?_eq_some_iff.mp (h.pending id _ hid).1).1.ne]
      exact hid
  armed timer p ht := by
    simp only [OMap.get_set] at ht
    split at ht
    · next heq => exact heq ▸ Nat.lt_succ_self _
    · exact Nat.lt_succ_of_lt (h.armed timer p ht)
  drawn := by
    rw [List.nodup_append]
    refine ⟨h.drawn, List.nodup_singleton _, fun c hc d hd heq => ?_⟩
    have hlt := h.calls c hc
    rw [heq, List.mem_singleton.mp hd] at hlt
    exact Nat.lt_irrefl _ hlt
  calls c hc := by
    rcases List.mem_append.mp hc with hc | hc
    · exact Nat.lt_succ_of_lt (h.calls c hc)
    · rw [List.mem_singleton.mp hc]
      exact Nat.lt_succ_self _
  made p hp := Nat.lt_succ_of_lt (h.made p hp)
  once := h.once

theorem Inv.emitWithAck (h : Inv s) (fails : Bool) : Inv (s.emitWithAck fails) := by
  unfold State.emitWithAck
  dsimp only
  split
  · split
    · exact h.request.settle (Nat.lt_succ_self _) _
    · exact h.request
  · have hcount : Inv { s with calls := s.calls + 1 } :=
      { h with
        calls := fun call hc => Nat.lt_succ_of_lt (h.calls call hc)
        made := fun p hp => Nat.lt_succ_of_lt (h.made p hp) }
    exact hcount.settle (Nat.lt_succ_self _) _

theorem Inv.step (h : Inv s) (hs : step s a = some s') : Inv s' := by
  cases a with
  | socket b =>
    obtain ⟨client, hclient, rfl⟩ := Option.map_eq_some_iff.mp hs
    exact { h.before b with
      client := wellFormed_step h.client hclient
      attended := attended_step h.attended hclient }
  | emitWithAck fails =>
    cases hs
    exact h.emitWithAck fails
  | response i r =>
    rw [Requests.step] at hs
    split at hs
    · cases hs
      split
      · unfold State.handleRpcResponse
        split
        · exact h
        · next entry hid => exact h.delete hid _
      · exact h
    · cases hs
  | timeout timer =>
    rw [Requests.step] at hs
    split at hs
    · obtain ⟨⟨id, call⟩, ht, rfl⟩ := Option.map_eq_some_iff.mp hs
      exact h.delete (h.timers timer id call ht) _
    · cases hs

theorem inv_init (token : Option Text) : Inv (init token : State β) where
  client := wellFormed_init token
  attended := ⟨fun i ws hi => (by cases hi), fun i ws hws => (by cases hws)⟩
  pending id entry hid := by cases hid
  timers timer id call ht := by cases ht
  armed timer p ht := by cases ht
  drawn := List.nodup_nil
  calls c hc := by cases hc
  made p hp := by cases hp
  once := List.nodup_nil

theorem inv_of_reach {token : Option Text} {ok : State β → Action β → Prop}
    (h : (machine token).Reach ok s) : Inv s :=
  h.invariant Inv (inv_init token) fun _ _ _ hs _ hstep => hs.step hstep

/-! ### No socket, no request -/

/-- There are requests only while the current socket waits for its close event. -/
def Alone (s : State β) : Prop := s.pending.entries = [] ∨ waits s.client = true

/-- An action of the socket empties the map, or is none that gives the connection up. -/
theorem before_cases (s : State β) (b : Socket.Action) : (s.before b).pending = OMap.empty ∨
    s.before b = s ∧ b ≠ .close ∧ b ≠ .retireConnection ∧
      ∀ i, b = .closed i → (s.client.endSocket i).hears i = false := by
  have hreject : s.rejectAllPending.pending = OMap.empty := (State.settled_settleAll _ s.clearAllPending).pending
  cases b with
  | close => exact .inl rfl
  | retireConnection => exact .inl hreject
  | closed i =>
    rw [State.before]
    split
    · exact .inl hreject
    · next hnot =>
      refine .inr ⟨rfl, by simp, by simp, fun j hj => ?_⟩
      cases hj
      exact Bool.not_eq_true _ ▸ hnot
  | _ => exact .inr ⟨rfl, by simp, by simp, by simp⟩

theorem alone_delete (h : Alone s) {id : ℕ} {timers : OMap ℕ (ℕ × ℕ)} {call : ℕ} {o : Outcome β} :
    Alone ({ s with pending := s.pending.delete id, timers }.settle call o) := by
  rcases h with h | h
  · left
    rw [State.settle_pending]
    simp [OMap.delete, h]
  · right
    rw [State.settle_client]
    exact h

theorem alone_step (h : Inv s) (hal : Alone s) (hok : orderly s a) (hs : step s a = some s') : Alone s' := by
  cases a with
  | socket b =>
    obtain ⟨client, hclient, rfl⟩ := Option.map_eq_some_iff.mp hs
    rcases before_cases s b with hempty | ⟨hsame, hclose, hretire, hheard⟩
    · left
      show (s.before b).pending.entries = []
      rw [hempty]
      rfl
    · rcases hal with hal | hal
      · left
        show (s.before b).pending.entries = []
        rw [hsame]
        exact hal
      · refine .inr (waits_step h.client h.attended hal (fun hb => ?_) hclose hretire hheard hclient)
        subst hb
        rcases hok with hready | hno
        · exact hready
        · rw [hal] at hno
          cases hno
  | emitWithAck fails =>
    cases hs
    unfold State.emitWithAck
    dsimp only
    split
    · next hready =>
      right
      split
      · rw [State.settle_client]
        exact waits_of_ready h.attended h.client hready
      · exact waits_of_ready h.attended h.client hready
    · rcases hal with hal | hal
      · left
        rw [State.settle_pending]
        exact hal
      · right
        rw [State.settle_client]
        exact hal
  | response i r =>
    rw [step] at hs
    split at hs
    · cases hs
      split
      · unfold State.handleRpcResponse
        split
        · exact hal
        · exact alone_delete hal
      · exact hal
    · cases hs
  | timeout timer =>
    rw [step] at hs
    split at hs
    · obtain ⟨⟨id, call⟩, -, rfl⟩ := Option.map_eq_some_iff.mp hs
      exact alone_delete hal
    · cases hs

theorem timers_of_pending (h : Inv s) (hnone : s.pending.entries = []) : s.timers.entries = [] := by
  rw [List.eq_nil_iff_forall_not_mem]
  rintro ⟨timer, id, call⟩ hin
  have hid := OMap.get_eq_some.mp (h.timers timer id call (OMap.get_eq_some.mpr hin))
  rw [hnone] at hid
  cases hid

/-- **Requests and responses.** In every run each call settles at most once, and for a cause: a
response with its own identifier that arrives while it is pending, its own timer, a send that
fails, or the loss of the connection. In every run in which `connect()` is not called while
the other side closes the current socket, a request is pending and its timer armed only
between the opening of the current socket and its close event, and not after `close()`. -/
theorem rpc_correlation (token : Option Text) :
    (∀ s : State β, (machine token).Reach anyStep s → (s.settled.map Prod.fst).Nodup ∧ s.drawn.Nodup ∧
      ∀ a s', step s a = some s' → Moves s a s') ∧
    ∀ s : State β, (machine token).Reach orderly s → waits s.client = false →
      s.pending.entries = [] ∧ s.timers.entries = [] := by
  refine ⟨fun s h => ?_, fun s h hno => ?_⟩
  · have hinv := inv_of_reach h
    exact ⟨hinv.once, hinv.drawn, fun a s' => moves_step hinv⟩
  · have hboth : Inv s ∧ Alone s :=
      h.invariant (fun s => Inv s ∧ Alone s) ⟨inv_init token, .inl rfl⟩ fun _ _ _ hs hok hstep =>
        ⟨hs.1.step hstep, alone_step hs.1 hs.2 hok hstep⟩
    have hnone : s.pending.entries = [] := by
      rcases hboth.2 with hal | hal
      · exact hal
      · rw [hal] at hno
        cases hno
    exact ⟨hnone, timers_of_pending hboth.1 hnone⟩

end

/-! ### Two runs -/

/-- A request is sent over the first socket. -/
def sent : List (Action Text) :=
  [.socket .connect, .socket (.opened 0), .emitWithAck false]

/-- It is answered, and then the connection is lost. -/
theorem rpc_correlation_answered : ∃ s : State Text, (machine none).Reach orderly s ∧
    s.settled = [(0, .resolved (some (js "pong")))] ∧ s.pending.entries = [] ∧ s.timers.entries = [] := by
  obtain ⟨s, hs, hP⟩ := (machine none).exists_of_exec orderly (init none)
    (sent ++ [.response 0 ⟨0, some (js "pong"), none⟩, .socket (.closed 0)])
    (fun s => s.settled = [(0, .resolved (some (js "pong")))] && !waits s.client) (by decide +kernel)
  simp only [Bool.and_eq_true, decide_eq_true_eq, Bool.not_eq_true'] at hP
  exact ⟨s, hs, hP.1, (rpc_correlation none).2 s hs hP.2⟩

/-- The other side begins to close. No socket is open, and the request is still pending. -/
theorem pending_while_closing : ¬ ∀ (token : Option Text) (s : State Text),
    (machine token).Reach anyStep s →
    (∀ i, s.client.readyState i ≠ some .opened) → s.pending.entries = [] ∧ s.timers.entries = [] := by
  intro h
  obtain ⟨s, hs, hP⟩ := (machine none).exists_of_exec anyStep (init none)
    (sent ++ [.socket (.closing 0)])
    (fun s => s.client.sockets.all (fun ws => ws.readyState = .closing) && s.pending.entries.length = 1)
    (by decide +kernel)
  simp only [Bool.and_eq_true, List.all_eq_true, decide_eq_true_eq] at hP
  have hclosing : ∀ i, s.client.readyState i ≠ some .opened := by
    intro i hi
    obtain ⟨ws, hws, hopened⟩ := Option.map_eq_some_iff.mp hi
    cases (hP.1 ws (List.mem_of_getElem? hws)).symm.trans hopened
  have hlength := hP.2
  rw [(h none s hs hclosing).1] at hlength
  cases hlength

end TypeFerry.Client.Requests
