import TypeFerry.Client.Visibility

/-! # Recoveries spare a good successor

At most one recovery is active, and after `destroy()` no automatic one retires or opens a
socket. An automatic recovery retires a good successor only when its hook has failed in
every attempt. -/
namespace TypeFerry.Client.Recovery
open TypeFerry.Lib.Numeral TypeFerry.Lib.Runs TypeFerry.Client.Socket TypeFerry.Client.Visibility

/-- A recovery that has begun and is not aborted. A recovery at its end aborts itself. -/
def Active (c : ClientSocket) (id : ℕ) : Prop := id < c.recoveries ∧ id ∉ c.aborted

/-- No recovery goes on from a hook that has failed in every attempt while the current socket is a
good successor. -/
def spares (v : VisibilityManager) : Visibility.Action → Bool
  | .resume id => match v.find id with
    | some r => !(r.stage = .hookDone false && !v.isAborted r && goodSuccessor v.client r)
    | none => true
  | _ => true

/-! ## What the socket does to the recoveries -/

section
variable {c c' : ClientSocket} {i : ℕ}

/-- The part of the client that is about recoveries. -/
def recoveryState (c : ClientSocket) : Option ℕ × ℕ × List ℕ := (c.recovery, c.recoveries, c.aborted)

theorem recoveryState_clearReconnectTimer : recoveryState c.clearReconnectTimer = recoveryState c := by
  unfold ClientSocket.clearReconnectTimer
  split
  · rfl
  · rfl

theorem recoveryState_connect : recoveryState c.connect = recoveryState c := by
  unfold ClientSocket.connect
  dsimp only
  split
  · exact recoveryState_clearReconnectTimer
  · exact recoveryState_clearReconnectTimer (c := c)

theorem recoveryState_close : recoveryState c.close = recoveryState c := by
  have hclear := recoveryState_clearReconnectTimer (c := { c with stopped := true, connecting := false })
  unfold ClientSocket.close
  dsimp only
  split
  · exact hclear
  · split
    · exact hclear
    · exact hclear

theorem recoveryState_retireConnection : recoveryState c.retireConnection = recoveryState c := by
  have hclear := recoveryState_clearReconnectTimer (c := { c with stopped := true, connecting := false })
  unfold ClientSocket.retireConnection
  dsimp only
  split
  · exact hclear
  · exact hclear

theorem recoveryState_replaceConnection (id : ℕ) :
    recoveryState (c.replaceConnection id) = recoveryState c := by
  have hretire :=
    recoveryState_retireConnection (c := { c with initialized := false, initializing := false })
  unfold ClientSocket.replaceConnection
  dsimp only
  split
  · exact hretire
  · exact recoveryState_connect.trans hretire

/-- A new recovery takes the place of the one that is aborted. -/
def Reconnected (c c' : ClientSocket) : Prop :=
  recoveryState c' = (some c.recoveries, c.recoveries + 1, c.recovery.toList ++ c.aborted)

theorem reconnected_reconnect : Reconnected c c.reconnect := by
  unfold ClientSocket.reconnect
  refine (recoveryState_replaceConnection _).trans ?_
  split
  · next id hid => simp [recoveryState, ClientSocket.newRecovery, ClientSocket.abort, hid]
  · next hid => simp [recoveryState, ClientSocket.newRecovery, hid]

theorem recoveryState_scheduleReconnect :
    recoveryState c.scheduleReconnect = recoveryState c ∨ Reconnected c c.scheduleReconnect := by
  unfold ClientSocket.scheduleReconnect
  split
  · exact .inl rfl
  · dsimp only
    split
    · split
      · exact .inl rfl
      · exact .inr
          (reconnected_reconnect (c := { c with exhaustedReconnect := true, reconnectAttempt := _ }))
    · exact .inl rfl

theorem recoveryState_handleClose :
    recoveryState c.handleClose = recoveryState c ∨ Reconnected c c.handleClose := by
  unfold ClientSocket.handleClose
  dsimp only
  split
  · exact .inl rfl
  · exact recoveryState_scheduleReconnect (c := ClientSocket.emitClosed _)

/-- Only the end of the backoff begins a recovery. -/
theorem recoveryState_step {a : Socket.Action} (hs : Socket.step c a = some c') :
    recoveryState c' = recoveryState c ∨ Reconnected c c' := by
  cases effect_of_step hs with
  | connect => exact .inl recoveryState_connect
  | close => exact .inl recoveryState_close
  | retireConnection => exact .inl recoveryState_retireConnection
  | setToken | fire | closing => exact .inl rfl
  | resume =>
    unfold ClientSocket.closeResumed
    split
    · exact .inl rfl
    · exact .inl rfl
  | opened =>
    unfold ClientSocket.onopen
    dsimp only
    split
    · exact .inl rfl
    · exact .inl rfl
  | failed =>
    unfold ClientSocket.onerror
    dsimp only
    split
    · exact .inl rfl
    · exact .inl rfl
  | @closed i =>
    unfold ClientSocket.onclose
    dsimp only
    split
    · exact recoveryState_handleClose (c := c.endSocket i)
    · exact .inl rfl

end

/-! ## The invariant -/

structure Inv (v : VisibilityManager) : Prop where
  one : ∀ id, Active v.client id → v.client.recovery = some id
  dead : v.destroyed = true → ∀ r ∈ v.running, r.id ∈ v.client.aborted
  known : ∀ r ∈ v.running, r.id < v.client.recoveries
  spared : ∀ e ∈ v.retirements, e.successor = false ∧ e.destroyed = false

section
variable {v v' : VisibilityManager} {r : Recovery} {a : Visibility.Action}

/-- A step that is about no recovery. -/
theorem Inv.congr (h : Inv v) (hstate : recoveryState v'.client = recoveryState v.client)
    (hrunning : ∀ r ∈ v'.running, ∃ r' ∈ v.running, r'.id = r.id)
    (hdestroyed : v'.destroyed = v.destroyed)
    (hretired : ∀ e ∈ v'.retirements, e ∈ v.retirements ∨ e.successor = false ∧ e.destroyed = false) :
    Inv v' := by
  obtain ⟨hrecovery, hcount⟩ := Prod.mk.inj hstate
  obtain ⟨hrecoveries, haborted⟩ := Prod.mk.inj hcount
  refine ⟨fun id hid => ?_, fun hd r hr => ?_, fun r hr => ?_, fun e he => ?_⟩
  · rw [Active, hrecoveries, haborted] at hid
    exact hrecovery.trans (h.one id hid)
  · obtain ⟨r', hr', hid⟩ := hrunning r hr
    rw [haborted, ← hid]
    exact h.dead (hdestroyed.symm.trans hd) r' hr'
  · obtain ⟨r', hr', hid⟩ := hrunning r hr
    rw [hrecoveries, ← hid]
    exact h.known r' hr'
  · rcases hretired e he with he | he
    · exact h.spared e he
    · exact he

/-- An explicit recovery begins. -/
theorem inv_reconnected (h : Inv v) {c : ClientSocket} (hc : Reconnected v.client c) :
    Inv { v with client := c } := by
  obtain ⟨hrecovery, hcount⟩ := Prod.mk.inj hc
  obtain ⟨hrecoveries, haborted⟩ := Prod.mk.inj hcount
  refine ⟨fun id hid => ?_, fun hd r hr => ?_, fun r hr => ?_, h.spared⟩
  · rw [Active, hrecoveries, haborted, List.mem_append, Option.mem_toList] at hid
    obtain ⟨hlt, hnot⟩ := hid
    rcases Nat.lt_succ_iff_lt_or_eq.mp hlt with hlt | rfl
    · exact absurd (.inl (h.one id ⟨hlt, fun ha => hnot (.inr ha)⟩)) hnot
    · exact hrecovery
  · show r.id ∈ c.aborted
    rw [haborted]
    exact List.mem_append_right _ (h.dead hd r hr)
  · show r.id < c.recoveries
    rw [hrecoveries]
    exact Nat.lt_succ_of_lt (h.known r hr)

theorem running_suspend {stage : Stage} (hr : r ∈ v.running) :
    ∀ r' ∈ (v.suspend r stage).running, ∃ r₀ ∈ v.running, r₀.id = r'.id := by
  intro r' hr'
  obtain ⟨r₀, hr₀, rfl⟩ := List.mem_map.mp hr'
  split
  · exact ⟨r, hr, rfl⟩
  · exact ⟨r₀, hr₀, rfl⟩

theorem inv_suspend (h : Inv v) (hr : r ∈ v.running) (stage : Stage) : Inv (v.suspend r stage) :=
  h.congr rfl (running_suspend hr) rfl fun _ => .inl

/-- A recovery that is not aborted replaces a socket that is no good successor. -/
theorem inv_replaceConnection (h : Inv v) (hr : r ∈ v.running) (hactive : v.isAborted r = false)
    (hgood : goodSuccessor v.client r = false) : Inv (v.replaceConnection r) := by
  have hdestroyed : v.destroyed = false := by
    by_contra hd
    have haborted := h.dead (Bool.not_eq_false _ ▸ hd) r hr
    simp [VisibilityManager.isAborted, haborted] at hactive
  refine h.congr (recoveryState_replaceConnection _) (running_suspend hr) rfl fun e he => ?_
  rcases List.mem_append.mp he with he | he
  · exact .inl he
  · rw [List.mem_singleton.mp he]
    exact .inr ⟨hgood, hdestroyed⟩

/-- The socket of the beginning is no successor. -/
theorem not_goodSuccessor_of_same (h : v.client.socket = r.socket) : goodSuccessor v.client r = false := by
  unfold goodSuccessor
  split
  · rfl
  · next i hi => simp [← h, hi]

/-- Neither is a socket that needs a handshake. -/
theorem not_goodSuccessor_of_needs (h : needsTokenHandshake v.client r.socket r.token = true) :
    goodSuccessor v.client r = false := by
  unfold needsTokenHandshake at h
  unfold goodSuccessor
  split at h
  · cases h
  · cases hi : v.client.socket with
    | none => rfl
    | some i =>
      rw [hi] at h
      dsimp only at h ⊢
      split at h
      · next hsame => simp [hsame]
      · cases hws : v.client.sockets[i]? with
        | none => simp
        | some ws => simp_all

theorem inv_joinSuccessor (h : Inv v) (hr : r ∈ v.running) : Inv (v.joinSuccessor r) := by
  unfold VisibilityManager.joinSuccessor
  split
  · exact inv_suspend h hr _
  · exact inv_suspend h hr _

theorem inv_joinOrReplace (h : Inv v) (hr : r ∈ v.running) (hactive : v.isAborted r = false)
    (hsame : v.client.socket = r.socket) : Inv (v.joinOrReplace r) := by
  unfold VisibilityManager.joinOrReplace
  split
  · exact inv_suspend h hr _
  · exact inv_replaceConnection h hr hactive (not_goodSuccessor_of_same hsame)

theorem inv_afterHook (h : Inv v) (hr : r ∈ v.running) {succeeded : Bool}
    (hok : succeeded = false → v.isAborted r = false → goodSuccessor v.client r = false) :
    Inv (v.afterHook r succeeded) := by
  unfold VisibilityManager.afterHook
  split
  · exact inv_suspend h hr _
  · next hactive =>
    rw [Bool.not_eq_true] at hactive
    split
    · next hreplace =>
      refine inv_replaceConnection h hr hactive ?_
      rcases Bool.or_eq_true_iff.mp hreplace with hfailed | hneeds
      · exact hok (Bool.not_eq_true' _ ▸ hfailed) hactive
      · exact not_goodSuccessor_of_needs hneeds
    · split
      · exact inv_joinSuccessor h hr
      · next hsame =>
        split
        · exact inv_suspend h hr _
        · exact inv_joinOrReplace h hr hactive (not_not.mp hsame)

theorem inv_afterTraffic (h : Inv v) (hr : r ∈ v.running) (received : Bool) :
    Inv (v.afterTraffic r received) := by
  unfold VisibilityManager.afterTraffic
  split
  · exact inv_suspend h hr _
  · next hactive =>
    rw [Bool.not_eq_true] at hactive
    split
    · next hneeds => exact inv_replaceConnection h hr hactive (not_goodSuccessor_of_needs hneeds)
    · split
      · exact inv_joinSuccessor h hr
      · next hsame =>
        split
        · exact inv_suspend h hr _
        · exact inv_joinOrReplace h hr hactive (not_not.mp hsame)

theorem inv_finishRecovery (h : Inv v) (id : ℕ) : Inv (v.finishRecovery id) := by
  refine ⟨fun id' hid => ?_, fun hd r hr => ?_, fun r hr => ?_, h.spared⟩
  · unfold VisibilityManager.finishRecovery at hid ⊢
    dsimp only at hid ⊢
    split at hid
    · next hown =>
      -- the recovery was the active one, and there was no other
      have hone := h.one id' ⟨hid.1, fun ha => hid.2 (List.mem_cons_of_mem _ ha)⟩
      cases hown.symm.trans hone
      exact absurd List.mem_cons_self hid.2
    · next hother =>
      rw [if_neg hother]
      exact h.one id' ⟨hid.1, fun ha => hid.2 (List.mem_cons_of_mem _ ha)⟩
  · have haborted := List.mem_cons_of_mem id (h.dead hd r (List.mem_of_mem_filter hr))
    unfold VisibilityManager.finishRecovery
    dsimp only
    split
    · exact haborted
    · exact haborted
  · have hlt := h.known r (List.mem_of_mem_filter hr)
    unfold VisibilityManager.finishRecovery
    dsimp only
    split
    · exact hlt
    · exact hlt

theorem inv_destroy (h : Inv v) : Inv v.destroy := by
  refine ⟨fun id hid => ?_, fun _ r hr => ?_, fun r hr => ?_, h.spared⟩
  · unfold VisibilityManager.destroy at hid ⊢
    dsimp only at hid ⊢
    split at hid
    · next own hown =>
      have hone := h.one id ⟨hid.1, fun ha => hid.2 (List.mem_cons_of_mem _ ha)⟩
      cases hown.symm.trans hone
      exact absurd List.mem_cons_self hid.2
    · exact h.one id hid
  · have hone := h.one r.id
    unfold VisibilityManager.destroy
    dsimp only
    split
    · next own hown =>
      by_contra hnot
      have hown' := hone ⟨h.known r hr, fun ha => hnot (List.mem_cons_of_mem _ ha)⟩
      cases hown.symm.trans hown'
      exact hnot List.mem_cons_self
    · next hnone =>
      by_contra hnot
      cases hnone.symm.trans (hone ⟨h.known r hr, hnot⟩)
  · have hlt := h.known r hr
    unfold VisibilityManager.destroy
    dsimp only
    split
    · exact hlt
    · exact hlt

/-- An automatic recovery begins where no other is active. -/
theorem inv_handleSleepDetected (h : Inv v) : Inv v.handleSleepDetected := by
  unfold VisibilityManager.handleSleepDetected
  split
  · exact h
  · next hguard =>
    simp only [Bool.or_eq_true, not_or, Bool.not_eq_true, Option.isSome_eq_false_iff,
      Option.isNone_iff_eq_none] at hguard
    obtain ⟨hdestroyed, hnone⟩ := hguard
    have hbegun : ∀ r : Recovery, r.id = v.client.recoveries →
        Inv { v with client := v.client.newRecovery, running := v.running ++ [r] } := by
      intro r hid
      refine ⟨fun id hactive => ?_, fun hd => ?_, fun r' hr' => ?_, h.spared⟩
      · rcases Nat.lt_succ_iff_lt_or_eq.mp hactive.1 with hlt | rfl
        · cases hnone.symm.trans (h.one id ⟨hlt, hactive.2⟩)
        · rfl
      · cases hdestroyed.symm.trans hd
      · rcases List.mem_append.mp hr' with hr' | hr'
        · exact Nat.lt_succ_of_lt (h.known r' hr')
        · rw [List.mem_singleton.mp hr', hid]
          exact Nat.lt_succ_self _
    dsimp only
    split
    · exact hbegun _ rfl
    · refine inv_afterHook (hbegun _ rfl) (List.mem_append_right _ (List.mem_singleton_self _)) ?_
      intro hfailed
      cases hfailed

theorem mem_of_find {id : ℕ} (h : v.find id = some r) : r ∈ v.running := List.mem_of_find?_eq_some h

theorem inv_resume (h : Inv v) (hr : r ∈ v.running)
    (hok : r.stage = .hookDone false → v.isAborted r = false → goodSuccessor v.client r = false)
    (hs : v.resume r = some v') : Inv v' := by
  unfold VisibilityManager.resume at hs
  split at hs
  · cases hs
    exact inv_suspend h hr _
  · split at hs
    · cases hs
      exact inv_suspend h hr _
    · cases hs
      exact inv_suspend h hr _
  · split at hs
    · cases hs
      exact inv_suspend h hr _
    · cases hs
      exact inv_suspend h hr _
  · next succeeded hstage =>
    cases hs
    refine inv_afterHook h hr fun hfailed => ?_
    rw [hfailed] at hstage
    exact hok hstage
  · cases hs
    exact inv_afterTraffic h hr _
  · cases hs
    exact inv_suspend h hr _
  · cases hs
    exact inv_finishRecovery h _
  all_goals cases hs

theorem inv_settle (h : Inv v) (hr : r ∈ v.running) {success : Bool}
    (hs : v.settle r success = some v') : Inv v' := by
  unfold VisibilityManager.settle at hs
  split at hs
  all_goals cases hs
  all_goals exact inv_suspend h hr _

theorem inv_step (h : Inv v) (hok : spares v a = true) (hs : Visibility.step v a = some v') : Inv v' := by
  cases a with
  | socket a =>
    obtain ⟨c, hc, rfl⟩ := Option.map_eq_some_iff.mp hs
    rcases recoveryState_step hc with hsame | hreconnected
    · exact h.congr hsame (fun r hr => ⟨r, hr, rfl⟩) rfl fun _ => .inl
    · exact inv_reconnected h hreconnected
  | setHook isSet =>
    cases hs
    exact ⟨h.one, h.dead, h.known, h.spared⟩
  | authFrame =>
    cases hs
    exact ⟨h.one, h.dead, h.known, h.spared⟩
  | initialized =>
    cases hs
    split
    · exact h
    · exact ⟨h.one, h.dead, h.known, h.spared⟩
  | wake =>
    cases hs
    exact inv_handleSleepDetected h
  | reconnect =>
    cases hs
    exact inv_reconnected h reconnected_reconnect
  | destroy =>
    cases hs
    exact inv_destroy h
  | settle id success =>
    obtain ⟨r, hfind, hs⟩ := Option.bind_eq_some_iff.mp hs
    exact inv_settle h (mem_of_find hfind) hs
  | resume id =>
    obtain ⟨r, hfind, hs⟩ := Option.bind_eq_some_iff.mp hs
    refine inv_resume h (mem_of_find hfind) (fun hstage hactive => ?_) hs
    rw [spares, hfind] at hok
    simpa [hstage, hactive] using hok
  | finish id =>
    rw [Visibility.step] at hs
    split at hs
    · cases hs
      exact inv_finishRecovery h id
    · cases hs

theorem inv_init (token : Option Text) : Inv (Visibility.init token) where
  one id hid := absurd hid.1 (Nat.not_lt_zero id)
  dead _ r hr := by cases hr
  known r hr := by cases hr
  spared e he := by cases he

/-- **Recovery never retires a good successor**, in every run in which no recovery goes on from a
hook that has failed in every attempt while the current socket is one. At most one recovery is
active, and none is retired or opened after `destroy()`. -/
theorem recovery_spares_successor {token : Option Text}
    (h : (Visibility.machine token).Reach (fun v a => spares v a = true) v) :
    (∀ e ∈ v.retirements, e.successor = false ∧ e.destroyed = false) ∧
      ∀ id id', Active v.client id → Active v.client id' → id = id' := by
  have hinv : Inv v := by
    refine h.invariant Inv (inv_init token) ?_
    intro t a t' hi hok hs
    exact inv_step hi hok hs
  refine ⟨hinv.spared, fun id id' hid hid' => ?_⟩
  exact Option.some.inj ((hinv.one id hid).symm.trans (hinv.one id' hid'))

end

/-! ## Two runs -/

/-- A page wakes, and its hook brings a new token: the connection is replaced, and `destroy()` ends
the recovery. -/
theorem recovery_spares_successor_refreshed : ∃ v,
    (Visibility.machine (some (js "a"))).Reach (fun v a => spares v a = true) v ∧
      v.retirements = [⟨0, false, false⟩] ∧ v.destroyed = true ∧
      (∀ e ∈ v.retirements, e.successor = false ∧ e.destroyed = false) ∧
      ∀ id id', Active v.client id → Active v.client id' → id = id' := by
  obtain ⟨v, hv, hp⟩ := (Visibility.machine (some (js "a"))).exists_of_exec (fun v a => spares v a = true)
    (Visibility.init (some (js "a")))
    [.setHook true, .socket .connect, .socket (.opened 0), .authFrame, .initialized, .wake,
      .socket (.setToken (some (js "b"))), .settle 0 true, .resume 0, .resume 0, .destroy]
    (fun v => v.retirements = [⟨0, false, false⟩] ∧ v.destroyed) (by decide)
  obtain ⟨hretired, hdestroyed⟩ := of_decide_eq_true hp
  exact ⟨v, hv, hretired, hdestroyed, recovery_spares_successor hv⟩

/-- While the hook fails three times, another call replaces the connection; the recovery retires the
new socket, which is open and has the current token. -/
theorem failed_hook_retires_successor : ∃ v, (Visibility.machine none).Reach anyStep v ∧
    ∃ e ∈ v.retirements, e.successor = true := by
  obtain ⟨v, hv, hp⟩ := (Visibility.machine none).exists_of_exec anyStep (Visibility.init none)
    [.setHook true, .socket .connect, .socket (.opened 0), .authFrame, .initialized, .wake,
      .settle 0 false, .resume 0, .settle 0 true, .resume 0, .settle 0 false, .resume 0, .settle 0 true,
      .resume 0, .socket .retireConnection, .socket .connect, .socket (.opened 1), .authFrame, .initialized,
      .settle 0 false, .resume 0, .resume 0]
    (fun v => v.retirements.any (·.successor)) (by decide)
  obtain ⟨e, he, hsuccessor⟩ := List.any_eq_true.mp hp
  exact ⟨v, hv, e, he, hsuccessor⟩

end TypeFerry.Client.Recovery
