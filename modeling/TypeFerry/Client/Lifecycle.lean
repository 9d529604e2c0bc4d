import TypeFerry.Client.Socket

/-! # One socket at a time

As long as `connect()` is not called while the current socket is still connecting, the
client has at most one live socket, the current one, and at most one timer of the backoff,
which is armed only when the current socket has closed. `WEBSOCKET_CLOSED` is not emitted
while the current socket is open, unless a `close()` call goes on after its socket was
replaced by one that is open. -/
namespace TypeFerry.Client.Lifecycle
open TypeFerry.Lib.Numeral TypeFerry.Lib.Runs TypeFerry.Client.Socket

/-- A socket that is connecting or open, and on which `close()` has not been called. -/
def Live (ws : WebSocket) : Prop :=
  (ws.readyState = .connecting ∨ ws.readyState = .opened) ∧ ws.closeCalled = false

/-- One socket, an honest lifecycle. -/
structure Honest (c : ClientSocket) : Prop where
  one : ∀ (i j : ℕ) (ws ws' : WebSocket), c.sockets[i]? = some ws → c.sockets[j]? = some ws' →
    Live ws → Live ws' → i = j
  timer : c.timers.length ≤ 1
  quiet : c.timers ≠ [] → c.current ≠ some .connecting ∧ c.current ≠ some .opened
  closed : ∀ r ∈ c.closedEmits, r ≠ some .opened

/-- `connect()` is not called while the current socket is connecting, and no `close()` call goes
on while the current socket, a newer one, is open. -/
def orderly (c : ClientSocket) : Action → Prop
  | .connect => c.current ≠ some .connecting
  | .resume => c.current ≠ some .opened
  | _ => True

instance (c : ClientSocket) : (a : Action) → Decidable (orderly c a)
  | .connect => inferInstanceAs (Decidable (c.current ≠ some .connecting))
  | .resume => inferInstanceAs (Decidable (c.current ≠ some .opened))
  | .close | .retireConnection | .setToken _ | .fire _ | .opened _ | .closing _ | .failed _ | .closed _ =>
    isTrue trivial

/-! ## What holds in every run -/

/-- A timer is armed only when the close event of the current socket is over, and a `close()` call
goes on only when that of its socket is. -/
structure WellFormed (c : ClientSocket) : Prop where
  ended : ∀ (i : ℕ) (ws : WebSocket), c.sockets[i]? = some ws → ws.ended = true → ws.readyState = .closed
  timer : c.timers = c.reconnectTimer.toList
  quiet : c.reconnectTimer ≠ none →
    ∀ (i : ℕ) (ws : WebSocket), c.socket = some i → c.sockets[i]? = some ws → ws.ended = true
  resumed : ∀ i ∈ c.resumed, ∃ ws : WebSocket, c.sockets[i]? = some ws ∧ ws.ended = true

section
variable {c c' : ClientSocket} {i : ℕ} {a : Action}

theorem current_eq {ws : WebSocket} (hi : c.socket = some i) (hws : c.sockets[i]? = some ws) :
    c.current = some ws.readyState := by
  simp [ClientSocket.current, ClientSocket.readyState, hi, hws]

theorem exists_of_current {r : ReadyState} (h : c.current = some r) :
    ∃ i ws, c.socket = some i ∧ c.sockets[i]? = some ws ∧ ws.readyState = r := by
  obtain ⟨i, hi, h⟩ := Option.bind_eq_some_iff.mp h
  obtain ⟨ws, hws, h⟩ := Option.map_eq_some_iff.mp h
  exact ⟨i, ws, hi, hws, h⟩

/-- With an armed timer the current socket is closed, if there is one. -/
theorem current_of_armed (h : WellFormed c) {timer : ℕ} (ht : timer ∈ c.timers) {r : ReadyState}
    (hr : c.current = some r) : r = .closed := by
  obtain ⟨i, ws, hi, hws, rfl⟩ := exists_of_current hr
  rw [h.timer, Option.mem_toList] at ht
  have hset : c.reconnectTimer ≠ none := by
    intro hnone
    cases hnone.symm.trans ht
  exact h.ended i ws hws (h.quiet hset i ws hi hws)

theorem WellFormed.congr (h : WellFormed c) (hsockets : c'.sockets = c.sockets)
    (hsocket : c'.socket = c.socket) (htimer : c'.reconnectTimer = c.reconnectTimer)
    (htimers : c'.timers = c.timers) (hresumed : c'.resumed ⊆ c.resumed) : WellFormed c' := by
  refine ⟨?_, ?_, ?_, fun i hi => ?_⟩
  · rw [hsockets]
    exact h.ended
  · rw [htimers, htimer]
    exact h.timer
  · rw [htimer, hsocket, hsockets]
    exact h.quiet
  · rw [hsockets]
    exact h.resumed i (hresumed hi)

/-- The only armed timer is the one that is cleared. -/
theorem clearReconnectTimer_eq (h : WellFormed c) :
    c.clearReconnectTimer = { c with reconnectTimer := none, timers := [] } := by
  unfold ClientSocket.clearReconnectTimer
  split
  · next t hset => simp [h.timer, hset]
  · next hnone =>
    have ht : c.timers = [] := by
      rw [h.timer, hnone]
      rfl
    rw [← hnone, ← ht]

theorem wellFormed_cleared (h : WellFormed c) :
    WellFormed { c with reconnectTimer := none, timers := [] } :=
  ⟨h.ended, rfl, fun hne => absurd rfl hne, h.resumed⟩

theorem wellFormed_stop (h : WellFormed c) : WellFormed { c with stopped := true, connecting := false } :=
  h.congr rfl rfl rfl rfl fun _ => id

theorem wellFormed_dropSocket (h : WellFormed c) : WellFormed { c with socket := none } where
  ended := h.ended
  timer := h.timer
  quiet _ i ws hi _ := by cases hi
  resumed := h.resumed

theorem wellFormed_createSocket (h : WellFormed c) (htimer : c.reconnectTimer = none) :
    WellFormed c.createSocket where
  ended i ws hi he := by
    rw [ClientSocket.createSocket, List.getElem?_append] at hi
    split at hi
    · exact h.ended i ws hi he
    · have hmem := List.mem_singleton.mp (List.mem_of_getElem? hi)
      rw [hmem] at he
      cases he
  timer := h.timer
  quiet hne := absurd htimer hne
  resumed i hi := by
    obtain ⟨ws, hws, he⟩ := h.resumed i hi
    exact ⟨ws, List.getElem?_append_left (List.getElem?_eq_some_iff.mp hws).1 ▸ hws, he⟩

/-- A socket that has ended stays so, and one that ends is closed. -/
theorem wellFormed_modifySocket (h : WellFormed c) {f : WebSocket → WebSocket}
    (hf : ∀ ws, c.sockets[i]? = some ws → (ws.ended = true → (f ws).ended = true) ∧
      ((f ws).ended = true → (f ws).readyState = .closed)) : WellFormed (c.modifySocket i f) where
  ended j ws hj he := by
    rw [ClientSocket.modifySocket, List.getElem?_modify] at hj
    obtain ⟨ws₀, hws, rfl⟩ := Option.map_eq_some_iff.mp hj
    split at he
    · next heq =>
      subst heq
      rw [if_pos rfl]
      exact (hf ws₀ hws).2 he
    · next hne =>
      rw [if_neg hne]
      exact h.ended j ws₀ hws he
  timer := h.timer
  quiet hset j ws hj hat := by
    rw [ClientSocket.modifySocket, List.getElem?_modify] at hat
    obtain ⟨ws₀, hws, rfl⟩ := Option.map_eq_some_iff.mp hat
    have hended := h.quiet hset j ws₀ hj hws
    split
    · next heq =>
      subst heq
      exact (hf ws₀ hws).1 hended
    · exact hended
  resumed j hj := by
    obtain ⟨ws, hws, he⟩ := h.resumed j hj
    rw [ClientSocket.modifySocket, List.getElem?_modify, hws]
    refine ⟨_, rfl, ?_⟩
    split
    · next heq =>
      subst heq
      exact (hf ws hws).1 he
    · exact he

theorem wellFormed_connect (h : WellFormed c) : WellFormed c.connect := by
  unfold ClientSocket.connect
  rw [clearReconnectTimer_eq h]
  dsimp only
  split
  · exact wellFormed_cleared h
  · exact wellFormed_createSocket ((wellFormed_cleared h).congr rfl rfl rfl rfl fun _ => id) rfl

theorem closed_close (ws : WebSocket) (h : ws.readyState = .closed) : ws.close.readyState = .closed := by
  simp [WebSocket.close, h]

theorem wellFormed_close (h : WellFormed c) : WellFormed c.close := by
  have hcleared := wellFormed_cleared (wellFormed_stop h)
  unfold ClientSocket.close
  rw [clearReconnectTimer_eq (wellFormed_stop h)]
  dsimp only
  split
  · exact hcleared.congr rfl rfl rfl rfl fun _ => id
  · next i hi =>
    split
    · exact (wellFormed_dropSocket hcleared).congr rfl rfl rfl rfl fun _ => id
    · have hclosing : WellFormed (ClientSocket.modifySocket _ i .close) :=
        wellFormed_modifySocket hcleared fun ws hws =>
          ⟨id, fun he => closed_close ws (hcleared.ended i ws hws he)⟩
      exact hclosing.congr rfl rfl rfl rfl fun _ => id

theorem wellFormed_retireConnection (h : WellFormed c) : WellFormed c.retireConnection := by
  have hcleared := wellFormed_cleared (wellFormed_stop h)
  unfold ClientSocket.retireConnection
  rw [clearReconnectTimer_eq (wellFormed_stop h)]
  dsimp only
  split
  · next i hi =>
    have hretired : WellFormed (ClientSocket.modifySocket _ i .retire) :=
      wellFormed_modifySocket (wellFormed_dropSocket hcleared) fun ws hws =>
        ⟨id, fun he => closed_close { ws with handlers := false } (hcleared.ended i ws hws he)⟩
    exact hretired.congr rfl rfl rfl rfl fun _ => id
  · exact hcleared.congr rfl rfl rfl rfl fun _ => id

theorem wellFormed_replaceConnection (h : WellFormed c) (recovery : ℕ) :
    WellFormed (c.replaceConnection recovery) := by
  have hflags : WellFormed { c with initialized := false, initializing := false } :=
    h.congr rfl rfl rfl rfl fun _ => id
  have hretired := wellFormed_retireConnection hflags
  unfold ClientSocket.replaceConnection
  dsimp only
  split
  · exact hretired
  · exact wellFormed_connect hretired

theorem wellFormed_reconnect (h : WellFormed c) : WellFormed c.reconnect := by
  unfold ClientSocket.reconnect
  refine wellFormed_replaceConnection ?_ _
  split
  · exact h.congr rfl rfl rfl rfl fun _ => id
  · exact h.congr rfl rfl rfl rfl fun _ => id

/-- The current socket has ended, and no timer is armed. -/
theorem wellFormed_scheduleReconnect (h : WellFormed c) (htimer : c.reconnectTimer = none)
    (hended : ∀ (i : ℕ) (ws : WebSocket), c.socket = some i → c.sockets[i]? = some ws → ws.ended = true) :
    WellFormed c.scheduleReconnect := by
  have hattempt : WellFormed { c with reconnectAttempt := c.reconnectAttempt + 1 } :=
    h.congr rfl rfl rfl rfl fun _ => id
  unfold ClientSocket.scheduleReconnect
  split
  · exact h
  · dsimp only
    split
    · split
      · exact hattempt
      · exact wellFormed_reconnect (hattempt.congr rfl rfl rfl rfl fun _ => id)
    · refine ⟨h.ended, ?_, fun _ => hended, h.resumed⟩
      show c.timers ++ [c.armed] = [c.armed]
      rw [h.timer, htimer]
      rfl

theorem wellFormed_handleClose (h : WellFormed c) (htimer : c.reconnectTimer = none)
    (hended : ∀ (i : ℕ) (ws : WebSocket), c.socket = some i → c.sockets[i]? = some ws → ws.ended = true) :
    WellFormed c.handleClose := by
  have hemitted : WellFormed { c with initialized := false, initializing := false }.emitClosed :=
    h.congr rfl rfl rfl rfl fun _ => id
  unfold ClientSocket.handleClose
  dsimp only
  split
  · exact wellFormed_dropSocket hemitted
  · exact wellFormed_scheduleReconnect hemitted htimer hended

theorem socket_of_hears (h : c.hears i = true) : c.socket = some i := by
  simp only [ClientSocket.hears, Bool.and_eq_true, decide_eq_true_eq] at h
  exact h.1

theorem wellFormed_endSocket (h : WellFormed c) (ha : c.alive i = true) : WellFormed (c.endSocket i) := by
  have hclosed : WellFormed (c.modifySocket i ({ · with readyState := .closed, ended := true })) :=
    wellFormed_modifySocket h fun _ _ => ⟨fun _ => rfl, fun _ => rfl⟩
  refine ⟨hclosed.ended, hclosed.timer, hclosed.quiet, fun j hj => ?_⟩
  rcases List.mem_append.mp hj with hj | hj
  · exact hclosed.resumed j hj
  · have hji : j = i := of_decide_eq_true (List.mem_filter.mp hj).2
    rw [ClientSocket.alive, Option.any_eq_true_iff_get] at ha
    obtain ⟨hsome, -⟩ := ha
    obtain ⟨ws, hws⟩ := Option.isSome_iff_exists.mp hsome
    refine ⟨{ ws with readyState := .closed, ended := true }, ?_, rfl⟩
    rw [hji, ClientSocket.endSocket, ClientSocket.modifySocket, List.getElem?_modify_eq, hws]
    rfl

/-- At the close event of the current socket no timer is armed. -/
theorem disarmed_of_alive (h : WellFormed c) (hi : c.socket = some i) (ha : c.alive i = true) :
    c.reconnectTimer = none := by
  by_contra hset
  rw [ClientSocket.alive, Option.any_eq_true_iff_get] at ha
  obtain ⟨hsome, hnot⟩ := ha
  have hended := h.quiet hset i _ hi (Option.some_get hsome).symm
  rw [hended] at hnot
  cases hnot

theorem ended_endSocket (hi : c.socket = some i) : ∀ (j : ℕ) (ws : WebSocket),
    (c.endSocket i).socket = some j → (c.endSocket i).sockets[j]? = some ws → ws.ended = true := by
  intro j ws hj hws
  cases hi.symm.trans hj
  rw [ClientSocket.endSocket, ClientSocket.modifySocket, List.getElem?_modify_eq] at hws
  obtain ⟨ws₀, -, rfl⟩ := Option.map_eq_some_iff.mp hws
  rfl

theorem wellFormed_onclose (h : WellFormed c) (ha : c.alive i = true) : WellFormed (c.onclose i) := by
  unfold ClientSocket.onclose
  dsimp only
  split
  · next hhears =>
    have hi : c.socket = some i := socket_of_hears (c := c.endSocket i) hhears
    have hnone := disarmed_of_alive h hi ha
    have htimer : (c.endSocket i).reconnectTimer = none := hnone
    exact wellFormed_handleClose (wellFormed_endSocket h ha) htimer (ended_endSocket hi)
  · exact wellFormed_endSocket h ha

/-- The close event of a socket that is not closed is still to come. -/
theorem not_ended (h : WellFormed c) {r : ReadyState} {P : Prop} (hstate : c.readyState i = some r)
    (hr : r ≠ .closed) (ws : WebSocket) (hws : c.sockets[i]? = some ws) (he : ws.ended = true) : P := by
  rw [ClientSocket.readyState, hws] at hstate
  exact absurd ((Option.some.inj hstate).symm.trans (h.ended i ws hws he)) hr

theorem wellFormed_step (h : WellFormed c) (hs : step c a = some c') : WellFormed c' := by
  cases effect_of_step hs with
  | connect => exact wellFormed_connect h
  | close => exact wellFormed_close h
  | retireConnection => exact wellFormed_retireConnection h
  | setToken => exact h.congr rfl rfl rfl rfl fun _ => id
  | @resume i rest hresumed =>
    have hrest : WellFormed { c with resumed := rest } := h.congr rfl rfl rfl rfl (by
      rw [hresumed]
      exact List.subset_cons_self i rest)
    unfold ClientSocket.closeResumed
    split
    · exact (wellFormed_dropSocket hrest).congr rfl rfl rfl rfl fun _ => id
    · exact hrest.congr rfl rfl rfl rfl fun _ => id
  | @fire timer hmem =>
    rw [h.timer, Option.mem_toList] at hmem
    refine wellFormed_createSocket ⟨h.ended, ?_, fun hne => absurd rfl hne, h.resumed⟩ rfl
    show c.timers.filter (· ≠ timer) = []
    rw [h.timer, hmem]
    simp
  | @opened i hstate =>
    have hopened : WellFormed (c.modifySocket i ({ · with readyState := .opened })) :=
      wellFormed_modifySocket h fun ws hws => ⟨id, not_ended h hstate (by decide) ws hws⟩
    unfold ClientSocket.onopen
    dsimp only
    split
    · exact hopened.congr rfl rfl rfl rfl fun _ => id
    · exact hopened
  | closing hstate =>
    exact wellFormed_modifySocket h fun ws hws => ⟨id, not_ended h hstate (by decide) ws hws⟩
  | @failed i =>
    have hclosed : WellFormed (c.modifySocket i ({ · with readyState := .closed })) :=
      wellFormed_modifySocket h fun _ _ => ⟨id, fun _ => rfl⟩
    unfold ClientSocket.onerror
    dsimp only
    split
    · exact hclosed.congr rfl rfl rfl rfl fun _ => id
    · exact hclosed
  | closed halive => exact wellFormed_onclose h halive

theorem wellFormed_init (token : Option Text) : WellFormed (init token) where
  ended i ws hi := by cases hi
  timer := rfl
  quiet hne := absurd rfl hne
  resumed i hi := by cases hi

/-- The part about the timer of the backoff needs no condition on the run. -/
theorem wellFormed_reach {token : Option Text} {ok : ClientSocket → Action → Prop}
    (h : (machine token).Reach ok c) : WellFormed c := by
  refine h.invariant WellFormed (wellFormed_init token) ?_
  intro t a t' hi _ hs
  exact wellFormed_step hi hs

/-! ## One live socket -/

/-- The current socket is the only one that may be live, and `WEBSOCKET_CLOSED` was never emitted
while it was open. -/
structure Single (c : ClientSocket) : Prop where
  live : ∀ (i : ℕ) (ws : WebSocket), c.sockets[i]? = some ws → Live ws → c.socket = some i
  emits : ∀ r ∈ c.closedEmits, r ≠ some .opened

/-- There is no current socket that is live. -/
def Idle (c : ClientSocket) : Prop :=
  ∀ (i : ℕ) (ws : WebSocket), c.socket = some i → c.sockets[i]? = some ws → ¬ Live ws

theorem not_live_of_closed {ws : WebSocket} (h : ws.readyState = .closed) : ¬ Live ws := by
  rintro ⟨hl | hl, -⟩
  · cases h.symm.trans hl
  · cases h.symm.trans hl

theorem Single.congr (h : Single c) (hsockets : c'.sockets = c.sockets) (hsocket : c'.socket = c.socket)
    (hemits : c'.closedEmits = c.closedEmits) : Single c' := by
  refine ⟨?_, ?_⟩
  · rw [hsockets, hsocket]
    exact h.live
  · rw [hemits]
    exact h.emits

theorem single_emitClosed (h : Single c) (hopen : c.current ≠ some .opened) : Single c.emitClosed where
  live := h.live
  emits r hr := by
    rcases List.mem_append.mp hr with hr | hr
    · exact h.emits r hr
    · rw [List.mem_singleton.mp hr]
      exact hopen

theorem single_dropSocket (h : Single c) (hidle : Idle c) : Single { c with socket := none } where
  live i ws hi hl := absurd hl (hidle i ws (h.live i ws hi hl) hi)
  emits := h.emits

theorem current_none (h : c.socket = none) (r : ReadyState) : c.current ≠ some r := by
  intro hr
  rw [ClientSocket.current, h] at hr
  cases hr

theorem single_createSocket (h : Single c) (hidle : Idle c) : Single c.createSocket where
  live i ws hi hl := by
    rw [ClientSocket.createSocket, List.getElem?_append] at hi
    split at hi
    · exact absurd hl (hidle i ws (h.live i ws hi hl) hi)
    · have hlt := (List.getElem?_eq_some_iff.mp hi).1
      rw [List.length_singleton] at hlt
      show some c.sockets.length = some i
      congr 1
      omega
  emits := h.emits

/-- A socket changes to one that is live only if it was. -/
theorem single_modifySocket (h : Single c) {f : WebSocket → WebSocket}
    (hf : ∀ ws, c.sockets[i]? = some ws → Live (f ws) → Live ws) : Single (c.modifySocket i f) where
  live j ws hj hl := by
    rw [ClientSocket.modifySocket, List.getElem?_modify] at hj
    obtain ⟨ws₀, hws, rfl⟩ := Option.map_eq_some_iff.mp hj
    split at hl
    · next heq =>
      subst heq
      exact h.live i ws₀ hws (hf ws₀ hws hl)
    · exact h.live j ws₀ hws hl
  emits := h.emits

theorem single_connect (hw : WellFormed c) (h : Single c) (hok : c.current ≠ some .connecting) :
    Single c.connect := by
  have hcleared : Single { c with reconnectTimer := none, timers := [] } := h.congr rfl rfl rfl
  unfold ClientSocket.connect
  rw [clearReconnectTimer_eq hw]
  dsimp only
  split
  · exact hcleared
  · next hready =>
    refine single_createSocket (hcleared.congr rfl rfl rfl) fun i ws hi hws hl => ?_
    rcases hl.1 with hr | hr
    · exact hok ((current_eq hi hws).trans (congrArg some hr))
    · exact hready (decide_eq_true ((current_eq hi hws).trans (congrArg some hr)))

theorem single_close (hw : WellFormed c) (h : Single c) : Single c.close := by
  have hcleared : Single { c with
      stopped := true, connecting := false, reconnectTimer := none, timers := [] } :=
    h.congr rfl rfl rfl
  unfold ClientSocket.close
  rw [clearReconnectTimer_eq (wellFormed_stop hw)]
  dsimp only
  split
  · next hnone => exact single_emitClosed hcleared (current_none hnone _)
  · next i hi =>
    split
    · next hclosed =>
      refine single_emitClosed (single_dropSocket hcleared fun j ws hj hws => ?_) (current_none rfl _)
      cases hi.symm.trans hj
      have hstate := hclosed.symm.trans (congrArg (Option.map WebSocket.readyState) hws)
      exact not_live_of_closed (Option.some.inj hstate).symm
    · have hclosing : Single (ClientSocket.modifySocket _ i .close) :=
        single_modifySocket hcleared fun ws _ hl => by cases hl.2
      exact hclosing.congr rfl rfl rfl

/-- After the retirement there is no current socket. -/
theorem single_retireConnection (hw : WellFormed c) (h : Single c) :
    Single c.retireConnection ∧ c.retireConnection.socket = none := by
  have hcleared : Single { c with
      stopped := true, connecting := false, reconnectTimer := none, timers := [] } :=
    h.congr rfl rfl rfl
  unfold ClientSocket.retireConnection
  rw [clearReconnectTimer_eq (wellFormed_stop hw)]
  dsimp only
  split
  · next i hi =>
    refine ⟨single_emitClosed ?_ (current_none rfl _), rfl⟩
    have hretired : Single (ClientSocket.modifySocket _ i .retire) :=
      single_modifySocket hcleared fun ws _ hl => by cases hl.2
    refine single_dropSocket hretired fun j ws hj hws hl => ?_
    cases hi.symm.trans hj
    rw [ClientSocket.modifySocket, List.getElem?_modify_eq] at hws
    obtain ⟨ws₀, -, rfl⟩ := Option.map_eq_some_iff.mp hws
    cases hl.2
  · next hnone => exact ⟨single_emitClosed hcleared (current_none hnone _), hnone⟩

theorem single_replaceConnection (hw : WellFormed c) (h : Single c) (recovery : ℕ) :
    Single (c.replaceConnection recovery) := by
  have hwflags : WellFormed { c with initialized := false, initializing := false } :=
    hw.congr rfl rfl rfl rfl fun _ => id
  have hflags : Single { c with initialized := false, initializing := false } := h.congr rfl rfl rfl
  obtain ⟨hretired, hnone⟩ := single_retireConnection hwflags hflags
  unfold ClientSocket.replaceConnection
  dsimp only
  split
  · exact hretired
  · exact single_connect (wellFormed_retireConnection hwflags) hretired (current_none hnone _)

theorem single_reconnect (hw : WellFormed c) (h : Single c) : Single c.reconnect := by
  unfold ClientSocket.reconnect
  refine single_replaceConnection ?_ ?_ _
  · split
    · exact hw.congr rfl rfl rfl rfl fun _ => id
    · exact hw.congr rfl rfl rfl rfl fun _ => id
  · split
    · exact h.congr rfl rfl rfl
    · exact h.congr rfl rfl rfl

theorem single_scheduleReconnect (hw : WellFormed c) (h : Single c) : Single c.scheduleReconnect := by
  have hattempt : Single { c with reconnectAttempt := c.reconnectAttempt + 1 } := h.congr rfl rfl rfl
  unfold ClientSocket.scheduleReconnect
  split
  · exact h
  · dsimp only
    split
    · split
      · exact hattempt
      · exact single_reconnect (hw.congr rfl rfl rfl rfl fun _ => id) (hattempt.congr rfl rfl rfl)
    · exact hattempt.congr rfl rfl rfl

theorem single_onclose (hw : WellFormed c) (h : Single c) (ha : c.alive i = true) :
    Single (c.onclose i) := by
  have hwended := wellFormed_endSocket hw ha
  have hclosed : Single (c.modifySocket i ({ · with readyState := .closed, ended := true })) :=
    single_modifySocket h fun ws _ hl => absurd hl (not_live_of_closed rfl)
  have hended : Single (c.endSocket i) := hclosed.congr rfl rfl rfl
  unfold ClientSocket.onclose
  dsimp only
  split
  · next hhears =>
    have hi : c.socket = some i := socket_of_hears (c := c.endSocket i) hhears
    have hstate : ∀ (j : ℕ) (ws : WebSocket), (c.endSocket i).socket = some j →
        (c.endSocket i).sockets[j]? = some ws → ws.readyState = .closed := fun j ws hj hws =>
      hwended.ended j ws hws (ended_endSocket hi j ws hj hws)
    have hflags : Single { c.endSocket i with initialized := false, initializing := false } :=
      hended.congr rfl rfl rfl
    have hemitted := single_emitClosed hflags (by
      intro hopen
      obtain ⟨j, ws, hj, hws, hr⟩ := exists_of_current hopen
      cases (hstate j ws hj hws).symm.trans hr)
    unfold ClientSocket.handleClose
    dsimp only
    split
    · exact single_dropSocket hemitted fun j ws hj hws => not_live_of_closed (hstate j ws hj hws)
    · exact single_scheduleReconnect (hwended.congr rfl rfl rfl rfl fun _ => id) hemitted
  · exact hended

theorem single_step (hw : WellFormed c) (h : Single c) (hok : orderly c a) (hs : step c a = some c') :
    Single c' := by
  cases effect_of_step hs with
  | connect => exact single_connect hw h hok
  | close => exact single_close hw h
  | retireConnection => exact (single_retireConnection hw h).1
  | setToken => exact h.congr rfl rfl rfl
  | @resume i rest hresumed =>
    have hrest : Single { c with resumed := rest } := h.congr rfl rfl rfl
    unfold ClientSocket.closeResumed
    split
    · next hi =>
      obtain ⟨ws, hws, he⟩ := hw.resumed i (by rw [hresumed]; exact List.mem_cons_self)
      refine single_emitClosed (single_dropSocket hrest fun j ws' hj hws' => ?_) (current_none rfl _)
      cases hi.symm.trans hj
      cases hws.symm.trans hws'
      exact not_live_of_closed (hw.ended i ws hws he)
    · exact single_emitClosed hrest hok
  | fire hmem =>
    have hidle : Idle c := fun i ws hi hws =>
      not_live_of_closed (current_of_armed hw hmem (current_eq hi hws))
    refine single_createSocket ((single_dropSocket h hidle).congr rfl rfl rfl) ?_
    intro i ws hi
    cases hi
  | @opened i hstate =>
    have hopened : Single (c.modifySocket i ({ · with readyState := .opened })) := by
      refine single_modifySocket h fun ws hws hl => ?_
      rw [ClientSocket.readyState, hws] at hstate
      exact ⟨.inl (Option.some.inj hstate), hl.2⟩
    unfold ClientSocket.onopen
    dsimp only
    split
    · exact hopened.congr rfl rfl rfl
    · exact hopened
  | closing =>
    refine single_modifySocket h fun ws _ hl => ?_
    rcases hl.1 with hr | hr
    · cases hr
    · cases hr
  | @failed i =>
    have hclosed : Single (c.modifySocket i ({ · with readyState := .closed })) :=
      single_modifySocket h fun ws _ hl => absurd hl (not_live_of_closed rfl)
    unfold ClientSocket.onerror
    dsimp only
    split
    · exact hclosed.congr rfl rfl rfl
    · exact hclosed
  | closed halive => exact single_onclose hw h halive

theorem single_init (token : Option Text) : Single (init token) where
  live i ws hi := by cases hi
  emits r hr := by cases hr

/-! ## The lifecycle -/

theorem honest_of_single (hw : WellFormed c) (h : Single c) : Honest c where
  one i j ws ws' hi hj hl hl' := by
    have hsame := (h.live i ws hi hl).symm.trans (h.live j ws' hj hl')
    exact Option.some.inj hsame
  timer := by
    rw [hw.timer]
    cases c.reconnectTimer with
    | none => exact Nat.zero_le _
    | some t => exact le_refl _
  quiet hne := by
    obtain ⟨timer, ht⟩ := List.exists_mem_of_ne_nil _ hne
    refine ⟨fun hr => ?_, fun hr => ?_⟩
    · cases current_of_armed hw ht hr
    · cases current_of_armed hw ht hr
  closed := h.emits

/-- **One socket, an honest lifecycle**, in every run in which `connect()` is not called while the
current socket is connecting and no `close()` call goes on while a newer socket is open. Calls come
one after the other: none is made by a listener. -/
theorem one_socket_honest {token : Option Text} (h : (machine token).Reach orderly c) : Honest c := by
  have hinv : WellFormed c ∧ Single c := by
    refine h.invariant (fun c => WellFormed c ∧ Single c) ⟨wellFormed_init token, single_init token⟩ ?_
    intro t a t' hi hok hs
    exact ⟨wellFormed_step hi.1 hs, single_step hi.1 hi.2 hok hs⟩
  exact honest_of_single hinv.1 hinv.2

end

/-! ## Three runs -/

/-- The connection is lost, the backoff makes a new one, and a `close()` call ends it. -/
theorem one_socket_honest_reconnected : ∃ c, (machine none).Reach orderly c ∧ c.sockets.length = 2 ∧
    c.closedEmits = [some .closed, some .closed, none] ∧ Honest c := by
  obtain ⟨c, hc, hp⟩ := (machine none).exists_of_exec orderly (init none)
    [.connect, .opened 0, .closing 0, .closed 0, .fire 0, .opened 1, .close, .closed 1, .resume]
    (fun c => c.sockets.length = 2 ∧ c.closedEmits = [some .closed, some .closed, none]) (by decide)
  obtain ⟨hlen, hemits⟩ := of_decide_eq_true hp
  exact ⟨c, hc, hlen, hemits, one_socket_honest hc⟩

/-- Two calls of `connect()` make two sockets; and a `close()` call that goes on after `connect()`
announces the end of a connection that is open. -/
theorem two_live_sockets_closed_while_open :
    (∃ c, (machine none).Reach anyStep c ∧ ∃ ws ws' : WebSocket,
      c.sockets[0]? = some ws ∧ c.sockets[1]? = some ws' ∧ Live ws ∧ Live ws') ∧
    ∃ c, (machine none).Reach anyStep c ∧ some ReadyState.opened ∈ c.closedEmits := by
  constructor
  · obtain ⟨c, hc, hp⟩ := (machine none).exists_of_exec anyStep (init none) [.connect, .connect]
      (fun c => c.sockets =
        [⟨.connecting, none, false, true, false⟩, ⟨.connecting, none, false, true, false⟩]) (by decide)
    rw [decide_eq_true_eq] at hp
    refine ⟨c, hc, ⟨.connecting, none, false, true, false⟩, ⟨.connecting, none, false, true, false⟩, ?_, ?_,
      ⟨.inl rfl, rfl⟩, ⟨.inl rfl, rfl⟩⟩
    · rw [hp]
      rfl
    · rw [hp]
      rfl
  · obtain ⟨c, hc, hp⟩ := (machine none).exists_of_exec anyStep (init none)
      [.connect, .opened 0, .close, .connect, .opened 1, .closed 0, .resume]
      (fun c => some ReadyState.opened ∈ c.closedEmits) (by decide)
    exact ⟨c, hc, of_decide_eq_true hp⟩

end TypeFerry.Client.Lifecycle
