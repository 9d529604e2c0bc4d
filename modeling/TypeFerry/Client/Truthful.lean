import TypeFerry.Client.Initialization

/-! # `INITIALIZED` is truthful

While a call of `initialize()` resubscribes, the socket whose auth frame started it stays
the current one, open and with the client initialized, as long as the connection is not
lost. That a call emits `INITIALIZED` at most once needs no condition. -/
namespace TypeFerry.Client.Truthful
open TypeFerry.Lib.Numeral TypeFerry.Lib.Runs
open TypeFerry.Client.Socket TypeFerry.Client.Lifecycle TypeFerry.Client.Initialization

/-! ## What the socket keeps -/

/-- The socket is the current one, it is open, and the client is initialized. -/
structure Holds (s : ClientSocket) (i : ℕ) : Prop where
  current : s.socket = some i
  opened : s.readyState i = some .opened
  initialized : s.initialized = true

section
variable {s s' : ClientSocket} {i j : ℕ}

theorem readyState_modifySocket_ne {f : WebSocket → WebSocket} (hne : j ≠ i) :
    (s.modifySocket j f).readyState i = s.readyState i := by
  simp [ClientSocket.readyState, ClientSocket.modifySocket, hne]

/-- Another socket changes. -/
theorem Holds.modifySocket (h : Holds s i) {f : WebSocket → WebSocket} (hne : j ≠ i) :
    Holds (s.modifySocket j f) i :=
  ⟨h.current, (readyState_modifySocket_ne hne).trans h.opened, h.initialized⟩

theorem Holds.connect (hw : WellFormed s) (h : Holds s i) : Holds s.connect i := by
  have hready : s.ready = true := by
    rw [ClientSocket.ready, ClientSocket.current, h.current]
    exact decide_eq_true h.opened
  unfold ClientSocket.connect
  rw [clearReconnectTimer_eq hw]
  dsimp only
  split
  · exact ⟨h.current, h.opened, h.initialized⟩
  · next hnot => exact absurd hready hnot

/-- The `close()` call that goes on was for another socket, which has closed. -/
theorem Holds.resume (hw : WellFormed s) (h : Holds s i) (hj : j ∈ s.resumed) : j ≠ i := by
  rintro rfl
  obtain ⟨ws, hws, he⟩ := hw.resumed j hj
  have hopened := h.opened
  rw [ClientSocket.readyState, hws] at hopened
  cases (hw.ended j ws hws he).symm.trans (Option.some.inj hopened)

theorem not_hears (hs : s.socket = some i) (hne : j ≠ i) : s.hears j = false := by
  simp [ClientSocket.hears, hs, Ne.symm hne]

/-- An event of another socket, or one that does not touch the connection. -/
theorem Holds.step {a : Socket.Action} (hw : WellFormed s) (h : Holds s i)
    (hkeep : endsConnection i a = false) (hs : Socket.step s a = some s') : Holds s' i := by
  cases effect_of_step hs with
  | connect => exact h.connect hw
  | close => cases hkeep
  | retireConnection => cases hkeep
  | setToken => exact ⟨h.current, h.opened, h.initialized⟩
  | @resume j rest hresumed =>
    have hne := h.resume hw (by rw [hresumed]; exact List.mem_cons_self)
    unfold ClientSocket.closeResumed
    split
    · next hj => exact absurd (Option.some.inj (hj.symm.trans h.current)) hne
    · exact ⟨h.current, h.opened, h.initialized⟩
  | fire hmem =>
    have hcurrent : s.current = some .opened := by
      rw [ClientSocket.current, h.current]
      exact h.opened
    cases current_of_armed hw hmem hcurrent
  | @opened j hstate =>
    have hne : j ≠ i := by
      rintro rfl
      cases hstate.symm.trans h.opened
    unfold ClientSocket.onopen
    dsimp only
    rw [if_neg]
    · exact h.modifySocket hne
    · exact ne_true_of_eq_false (not_hears h.current hne)
  | closing => exact h.modifySocket (of_decide_eq_false hkeep)
  | failed =>
    unfold ClientSocket.onerror
    dsimp only
    rw [if_neg]
    · exact h.modifySocket (of_decide_eq_false hkeep)
    · exact ne_true_of_eq_false (not_hears h.current (of_decide_eq_false hkeep))
  | @closed j =>
    have hother : Holds (s.modifySocket j ({ · with readyState := .closed, ended := true })) i :=
      h.modifySocket (of_decide_eq_false hkeep)
    unfold ClientSocket.onclose
    dsimp only
    rw [if_neg]
    · exact ⟨h.current, hother.opened, h.initialized⟩
    · exact ne_true_of_eq_false (not_hears h.current (of_decide_eq_false hkeep))

end

/-! ## At most once -/

/-- A call that is running has not emitted, and no call has emitted twice. -/
structure Once (c : State) : Prop where
  fresh : ∀ call ∈ c.running, call.id < c.calls
  numbered : ∀ e ∈ c.emitted, e.call < c.calls
  apart : ∀ call ∈ c.running, ∀ e ∈ c.emitted, e.call ≠ call.id
  nodup : (c.emitted.map (·.call)).Nodup

/-! ## The invariant -/

structure Inv (c : State) : Prop where
  socket : WellFormed c.clientSocket
  held : ∀ call ∈ c.running, ∀ i, call.frame = some i → Holds c.clientSocket i
  truthful : ∀ e ∈ c.emitted, Truthful e
  once : Once c

section
variable {c c' : State} {call : Call} {a : Initialization.Action}

/-- The calls that run are the same, wherever they are suspended. -/
def SameCalls (c c' : State) : Prop :=
  ∀ call' ∈ c'.running, ∃ call ∈ c.running, call.id = call'.id ∧ call.frame = call'.frame

theorem SameCalls.refl (c : State) : SameCalls c c := fun call h => ⟨call, h, rfl, rfl⟩

theorem SameCalls.trans {c₁ c₂ c₃ : State} (h : SameCalls c₁ c₂) (h' : SameCalls c₂ c₃) :
    SameCalls c₁ c₃ := by
  intro call hcall
  obtain ⟨call', hcall', hid, hframe⟩ := h' call hcall
  obtain ⟨call'', hcall'', hid', hframe'⟩ := h call' hcall'
  exact ⟨call'', hcall'', hid'.trans hid, hframe'.trans hframe⟩

theorem once_congr (h : Once c) (hrunning : SameCalls c c') (hcalls : c'.calls = c.calls)
    (hemitted : c'.emitted = c.emitted) : Once c' := by
  refine ⟨fun call hcall => ?_, ?_, fun call hcall => ?_, ?_⟩
  · obtain ⟨call', hcall', hid, -⟩ := hrunning call hcall
    rw [hcalls, ← hid]
    exact h.fresh call' hcall'
  · rw [hemitted, hcalls]
    exact h.numbered
  · obtain ⟨call', hcall', hid, -⟩ := hrunning call hcall
    rw [hemitted, ← hid]
    exact h.apart call' hcall'
  · rw [hemitted]
    exact h.nodup

theorem Inv.congr (h : Inv c) (hrunning : SameCalls c c') (hcalls : c'.calls = c.calls)
    (hemitted : c'.emitted = c.emitted) (hsocket : WellFormed c'.clientSocket)
    (hheld : ∀ call ∈ c.running, ∀ i, call.frame = some i → Holds c'.clientSocket i) : Inv c' := by
  refine ⟨hsocket, fun call hcall i hi => ?_, ?_, once_congr h.once hrunning hcalls hemitted⟩
  · obtain ⟨call', hcall', -, hframe⟩ := hrunning call hcall
    exact hheld call' hcall' i (hframe.trans hi)
  · rw [hemitted]
    exact h.truthful

theorem sameCalls_suspend (hmem : call ∈ c.running) (stage : Stage) :
    SameCalls c (c.suspend call stage) := by
  intro call' hcall'
  obtain ⟨r, hr, rfl⟩ := List.mem_map.mp hcall'
  split
  · exact ⟨call, hmem, rfl, rfl⟩
  · exact ⟨r, hr, rfl, rfl⟩

theorem sameCalls_emitCommit (j : ℕ) : SameCalls c (c.emitCommit j) := by
  intro call' hcall'
  obtain ⟨r, hr, rfl⟩ := List.mem_map.mp hcall'
  split
  · exact ⟨r, hr, rfl, rfl⟩
  · exact ⟨r, hr, rfl, rfl⟩

theorem sameCalls_timeout (id : ℕ) : SameCalls c (c.timeout id) := by
  intro call' hcall'
  obtain ⟨r, hr, rfl⟩ := List.mem_map.mp hcall'
  split
  · split
    · exact ⟨r, hr, rfl, rfl⟩
    · exact ⟨r, hr, rfl, rfl⟩
  · exact ⟨r, hr, rfl, rfl⟩

theorem inv_suspend (h : Inv c) (hmem : call ∈ c.running) (stage : Stage) : Inv (c.suspend call stage) :=
  h.congr (sameCalls_suspend hmem stage) rfl rfl h.socket h.held

theorem inv_resubscribeFrom (h : Inv c) (hmem : call ∈ c.running) (j : ℕ) :
    Inv (c.resubscribeFrom call j) := by
  unfold State.resubscribeFrom
  split
  · next channel _ =>
    split
    · exact inv_suspend h hmem _
    · have hsubscribed : Inv { c with channels := c.channels.modify j (·.subscribe channel.events) } :=
        h.congr (SameCalls.refl c) rfl rfl h.socket h.held
      exact inv_suspend hsubscribed hmem _
  · exact inv_suspend h hmem _

/-- A new call begins. -/
theorem inv_initializeCall (h : Inv c) {frame : Option ℕ}
    (hframe : ∀ i, frame = some i →
      c.clientSocket.socket = some i ∧ c.clientSocket.readyState i = some .opened) :
    Inv (c.initializeCall frame) := by
  unfold State.initializeCall
  split
  · exact h
  · dsimp only
    refine inv_resubscribeFrom ?_ (List.mem_append_right _ (List.mem_singleton_self _)) 0
    refine ⟨?_, fun call hcall i hi => ?_, h.truthful, ?_⟩
    · exact h.socket.congr rfl rfl rfl rfl fun _ => id
    · rcases List.mem_append.mp hcall with hcall | hcall
      · have hheld := h.held call hcall i hi
        exact ⟨hheld.current, hheld.opened, rfl⟩
      · rw [List.mem_singleton.mp hcall] at hi
        exact ⟨(hframe i hi).1, (hframe i hi).2, rfl⟩
    · refine ⟨fun call hcall => ?_, fun e he => ?_, fun call hcall e he => ?_, h.once.nodup⟩
      · rcases List.mem_append.mp hcall with hcall | hcall
        · exact Nat.lt_succ_of_lt (h.once.fresh call hcall)
        · rw [List.mem_singleton.mp hcall]
          exact Nat.lt_succ_self _
      · exact Nat.lt_succ_of_lt (h.once.numbered e he)
      · rcases List.mem_append.mp hcall with hcall | hcall
        · exact h.once.apart call hcall e he
        · rw [List.mem_singleton.mp hcall]
          exact Nat.ne_of_lt (h.once.numbered e he)

/-- A call emits `INITIALIZED`, and it ends. -/
theorem inv_emitInitialized (h : Inv c) (hmem : call ∈ c.running) : Inv (c.emitInitialized call) := by
  refine ⟨h.socket, fun call' hcall' => h.held call' (List.mem_of_mem_filter hcall'), fun e he => ?_, ?_⟩
  · rcases List.mem_append.mp he with he | he
    · exact h.truthful e he
    · rw [List.mem_singleton.mp he]
      intro i hi
      have hheld := h.held call hmem i hi
      refine ⟨hheld.current, ?_, hheld.initialized⟩
      show c.clientSocket.current = some .opened
      rw [ClientSocket.current, hheld.current]
      exact hheld.opened
  · refine ⟨fun call' hcall' => h.once.fresh call' (List.mem_of_mem_filter hcall'), fun e he => ?_,
      fun call' hcall' e he => ?_, ?_⟩
    · rcases List.mem_append.mp he with he | he
      · exact h.once.numbered e he
      · rw [List.mem_singleton.mp he]
        exact h.once.fresh call hmem
    · obtain ⟨hrunning, hother⟩ := List.mem_filter.mp hcall'
      rcases List.mem_append.mp he with he | he
      · exact h.once.apart call' hrunning e he
      · rw [List.mem_singleton.mp he]
        exact Ne.symm (of_decide_eq_true hother)
    · show ((c.emitted ++ [_]).map Emit.call).Nodup
      rw [List.map_append, List.map_singleton]
      refine List.nodup_append.mpr ⟨h.once.nodup, List.nodup_singleton _, fun id hid id' hid' => ?_⟩
      obtain ⟨e, he, rfl⟩ := List.mem_map.mp hid
      rw [List.mem_singleton.mp hid']
      exact h.once.apart call hmem e he

theorem mem_of_find {id : ℕ} (h : c.find id = some call) : call ∈ c.running := List.mem_of_find?_eq_some h

/-- `close()` of the client lets every call go on. -/
theorem sameCalls_commitAll (js : List ℕ) : ∀ c : State, SameCalls c (js.foldl State.emitCommit c) ∧
    (js.foldl State.emitCommit c).calls = c.calls ∧ (js.foldl State.emitCommit c).emitted = c.emitted ∧
    (js.foldl State.emitCommit c).clientSocket = c.clientSocket := by
  induction js with
  | nil => exact fun c => ⟨SameCalls.refl c, rfl, rfl, rfl⟩
  | cons j js ih =>
    intro c
    obtain ⟨hrunning, hcalls, hemitted, hsocket⟩ := ih (c.emitCommit j)
    exact ⟨(sameCalls_emitCommit j).trans hrunning, hcalls, hemitted, hsocket⟩

/-- Where no call was started by an auth frame, the socket may do anything. -/
theorem inv_anySocket (h : Inv c) (hkeep : c.running.all (·.frame.isNone) = true) {s : ClientSocket}
    (hs : WellFormed s) : Inv { c with clientSocket := s } := by
  refine h.congr (SameCalls.refl c) rfl rfl hs fun call hcall i hi => ?_
  have hnone := List.all_eq_true.mp hkeep call hcall
  rw [hi] at hnone
  cases hnone

theorem inv_close (h : Inv c) (hkeep : c.running.all (·.frame.isNone) = true) : Inv c.close := by
  obtain ⟨hrunning, hcalls, hemitted, hsocket⟩ := sameCalls_commitAll (List.range c.channels.length) c
  refine h.congr hrunning hcalls hemitted ?_ fun call hcall i hi => ?_
  · show WellFormed (ClientSocket.close _)
    rw [hsocket]
    exact wellFormed_close h.socket
  · have hnone := List.all_eq_true.mp hkeep call hcall
    rw [hi] at hnone
    cases hnone

theorem inv_step (h : Inv c) (hkeep : keepsConnection c a = true) (hs : Initialization.step c a = some c') :
    Inv c' := by
  cases a with
  | socket a =>
    obtain ⟨s, hstep, rfl⟩ := Option.map_eq_some_iff.mp hs
    refine h.congr (SameCalls.refl c) rfl rfl (wellFormed_step h.socket hstep) fun call hcall i hi => ?_
    have hends := List.all_eq_true.mp hkeep call hcall
    rw [hi] at hends
    exact (h.held call hcall i hi).step h.socket (Bool.not_eq_true' _ ▸ hends) hstep
  | reconnect =>
    cases hs
    exact inv_anySocket h hkeep (wellFormed_reconnect h.socket)
  | close =>
    cases hs
    exact inv_close h hkeep
  | channel =>
    cases hs
    exact h.congr (SameCalls.refl c) rfl rfl h.socket h.held
  | subscribe j events =>
    cases hs
    exact h.congr (SameCalls.refl c) rfl rfl h.socket h.held
  | unsubscribe j events =>
    cases hs
    exact h.congr (SameCalls.refl c) rfl rfl h.socket h.held
  | debounce j =>
    rw [Initialization.step] at hs
    split at hs
    · cases hs
      exact h.congr (SameCalls.refl c) rfl rfl h.socket h.held
    · cases hs
  | commit j =>
    rw [Initialization.step] at hs
    split at hs
    · cases hs
      exact h.congr (sameCalls_emitCommit (c := { c with channels := _ }) j) rfl rfl h.socket h.held
    · cases hs
  | timeout id =>
    cases hs
    exact h.congr (sameCalls_timeout id) rfl rfl h.socket h.held
  | auth i =>
    rw [Initialization.step] at hs
    split at hs
    · next hopened =>
      cases hs
      unfold State.handleTypedAuth
      split
      · next hhears =>
        refine inv_initializeCall h fun j hj => ?_
        cases hj
        exact ⟨socket_of_hears hhears, hopened⟩
      · exact h
    · cases hs
  | initializeCall =>
    cases hs
    refine inv_initializeCall h fun i hi => ?_
    cases hi
  | resume id =>
    obtain ⟨call, hfind, hs⟩ := Option.bind_eq_some_iff.mp hs
    have hmem := mem_of_find hfind
    unfold State.resume at hs
    split at hs
    · cases hs
      exact inv_resubscribeFrom h hmem _
    · cases hs
    · cases hs
      exact inv_emitInitialized h hmem

theorem once_init (token : Option Text) : Once (Initialization.init token) where
  fresh call hcall := by cases hcall
  numbered e he := by cases he
  apart call hcall := by cases hcall
  nodup := List.nodup_nil

theorem inv_init (token : Option Text) : Inv (Initialization.init token) where
  socket := wellFormed_init token
  held call hcall := by cases hcall
  truthful e he := by cases he
  once := once_init token

/-- **`INITIALIZED` is truthful**, in every run in which the connection is not lost while a call that
its auth frame started resubscribes; and each call emits it at most once. -/
theorem initialized_truthful {token : Option Text}
    (h : (Initialization.machine token).Reach (fun c a => keepsConnection c a = true) c) :
    (∀ e ∈ c.emitted, Truthful e) ∧ (c.emitted.map (·.call)).Nodup := by
  have hinv : Inv c := by
    refine h.invariant Inv (inv_init token) ?_
    intro t a t' hi hok hs
    exact inv_step hi hok hs
  exact ⟨hinv.truthful, hinv.once.nodup⟩

end

/-! ## Two runs -/

/-- The client subscribes to an event and is initialized by an auth frame; the RPC of its channel is
under way. -/
def resubscribing : List Initialization.Action :=
  [.socket .connect, .socket (.opened 0), .subscribe 0 [js "e"], .auth 0, .debounce 0]

theorem initialized_truthful_resubscribed : ∃ c,
    (Initialization.machine none).Reach (fun c a => keepsConnection c a = true) c ∧
      c.emitted = [⟨0, some 0, some 0, some .opened, true⟩] ∧
      (∀ e ∈ c.emitted, Truthful e) ∧ (c.emitted.map (·.call)).Nodup := by
  obtain ⟨c, hc, hp⟩ := (Initialization.machine none).exists_of_exec (fun c a => keepsConnection c a = true)
    (Initialization.init none) (resubscribing ++ [.commit 0, .resume 0, .resume 0])
    (fun c => c.emitted = [⟨0, some 0, some 0, some .opened, true⟩]) (by decide)
  exact ⟨c, hc, of_decide_eq_true hp, initialized_truthful hc⟩

/-- The connection is lost: the RPC fails, the resubscription ends, and `INITIALIZED` is emitted for a
socket that is closed. -/
theorem initialized_after_close : ∃ c, (Initialization.machine none).Reach anyStep c ∧
    ∃ e ∈ c.emitted, e.readyState = some .closed ∧ ¬ Truthful e := by
  obtain ⟨c, hc, hp⟩ := (Initialization.machine none).exists_of_exec anyStep (Initialization.init none)
    (resubscribing ++ [.socket (.closed 0), .commit 0, .resume 0, .resume 0])
    (fun c => c.emitted.any fun e => e.frame = some 0 ∧ e.readyState = some .closed) (by decide)
  obtain ⟨e, he, hclosed⟩ := List.any_eq_true.mp hp
  obtain ⟨hframe, hstate⟩ := of_decide_eq_true hclosed
  refine ⟨c, hc, e, he, hstate, fun htruthful => ?_⟩
  cases hstate.symm.trans (htruthful 0 hframe).2.1

end TypeFerry.Client.Truthful
