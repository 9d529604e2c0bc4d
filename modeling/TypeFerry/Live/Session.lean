import TypeFerry.Live.Currency
import TypeFerry.Live.View

/-! # One view, one node and the socket between them

The requests of the view reach the node in order and are served one after the
other; what the node sends reaches the view in order. A response is sent some
time after the request has returned, and events may be sent between. Only the
view's own subscription is here, the socket stays open and its messages arrive;
the application may call `start` and `resync` of the view at any time. -/
namespace TypeFerry.Live.Session
open TypeFerry.Lib.Numeral TypeFerry.Lib.OrderedMap TypeFerry.Lib.Runs
open TypeFerry.Live.Types TypeFerry.Live.Engine TypeFerry.Live.Ownership TypeFerry.Live.Requests

/-- What does not change while the socket is open. -/
structure Setup where
  options : Options
  subscriptionId : SubscriptionId
  /-- The view's publication, as in `SubscribeRequest`. -/
  isProtected : Option Bool
  authenticated : Bool

inductive Message where
  | event (e : Event)
  | response (call : ℕ) (result : Except Text Snapshot)

structure State where
  node : Node
  view : View.State
  /-- The calls that the node has not begun. -/
  requests : List View.Call
  /-- The call whose request is running. -/
  running : Option ℕ
  /-- The responses that are not sent yet. -/
  unsent : List (ℕ × Except Text Snapshot)
  /-- What is on its way to the view. -/
  channel : List Message

inductive Action where
  /-- The application, or a client that is initialized, calls `start`. -/
  | start
  /-- The application calls `resync`. -/
  | resync
  /-- The next request begins. -/
  | request
  | settle (settlement : Settlement)
  | observer (generation : Generation) (a : Observer.Action) (send control : Send)
  | timer (generation : Generation) (control : Send)
  /-- A response is sent. -/
  | send
  /-- The view is given the next message. -/
  | receive
  /-- The `finally` handler of a call. -/
  | settled (call : ℕ)
  | followUp (promise : ℕ)

def init (setup : Setup) : State where
  node := { Node.connected with authenticated := setup.authenticated }
  view := View.created setup.subscriptionId
  requests := []
  running := none
  unsent := []
  channel := []

namespace State

/-- The view has gone on; the calls it has issued are on their way. -/
def acted (s : State) (v : View.State) : State :=
  { s with
    view := v
    requests := s.requests ++ v.calls.filter fun c => s.view.nextCall ≤ c.id }

/-- What the request that is running has returned. -/
def returned (s : State) (n : Node) : List (ℕ × Except Text Snapshot) :=
  match s.running, n.returns[s.node.returns.length]? with
  | some call, some r => [(call, r.result)]
  | _, _ => []

/-- The node has gone on; the events that the socket has taken are on their way. -/
def served (s : State) (n : Node) : State :=
  { s with
    node := n
    channel := s.channel ++ (n.outbox.drop s.node.outbox.length).map .event
    unsent := s.unsent ++ s.returned n
    running := if n.pc = .idle then none else s.running }

end State

/-- The request of a call. -/
def requestOf (setup : Setup) : View.Method → Engine.Action
  | .subscribe => .subscribe ⟨setup.subscriptionId, setup.isProtected, true, true⟩
  | .resync g => .resync ⟨setup.subscriptionId, g⟩

def step (setup : Setup) (s : State) : Action → Option State
  | .start => some (s.acted s.view.start)
  | .resync => some (s.acted s.view.resync)
  | .request => match s.requests with
    | c :: rest => (s.node.step setup.options false (requestOf setup c.method)).map
        { s with requests := rest, running := some c.id }.served
    | [] => none
  | .settle settlement => (s.node.step setup.options false (.settle settlement)).map s.served
  | .observer g a send control =>
    (s.node.step setup.options false (.observer g a send ⟨control, false⟩)).map s.served
  | .timer g control => (s.node.step setup.options false (.timer g ⟨control, false⟩)).map s.served
  | .send => match s.unsent with
    | (call, result) :: rest => some { s with
        unsent := rest
        channel := s.channel ++ [.response call result] }
    | [] => none
  | .receive => match s.channel with
    | .event e :: rest => some ({ s with channel := rest }.acted (s.view.handleEvent e))
    | .response call result :: rest =>
      (s.view.respond call result).map { s with channel := rest }.acted
    | [] => none
  | .settled call => (s.view.settle call).map fun v => { s with view := v }
  | .followUp promise => (s.view.followUp promise).map s.acted

def machine (setup : Setup) : Machine State Action := ⟨init setup, step setup⟩

/-! ## What a view can do -/

/-- The contents of a snapshot are taken; the early deltas are still to be applied. -/
def takeSnapshot (v : View.State) (snapshot : Snapshot) : View.State :=
  { v with
    contents := .ofSnapshot snapshot
    generation := some snapshot.generation
    sequence := snapshot.sequence
    bufferedDeltas := [] }

/-- The call that is issued by a method. -/
def issued (v : View.State) : Option View.Method → List View.Call
  | some method => [⟨v.nextCall, method, v.connectionEpoch, false⟩]
  | none => []

/-- A `resync` is issued for the generation of the view, if none is outstanding. -/
def Promises (v v' : View.State) : Option View.Method → Prop
  | some (.resync g) =>
    v'.generation = some g ∧ v.resyncPromise = none ∧ v'.resyncPromise = some v.nextCall
  | _ => v'.resyncPromise = v.resyncPromise

/-- A view goes on and issues one call at most. -/
structure Acts (v v' : View.State) (method : Option View.Method) : Prop where
  calls : v'.calls = v.calls ++ issued v method
  nextCall : v'.nextCall = v.nextCall + (issued v method).length
  connectionEpoch : v'.connectionEpoch = v.connectionEpoch
  stopped : v'.stopped = v.stopped
  subscriptionId : v'.subscriptionId = v.subscriptionId
  promises : Promises v v' method

section
variable {v u w : View.State} {method : Option View.Method}

theorem acts_of_eq (hcalls : u.calls = v.calls) (hnext : u.nextCall = v.nextCall)
    (hepoch : u.connectionEpoch = v.connectionEpoch) (hstopped : u.stopped = v.stopped)
    (hid : u.subscriptionId = v.subscriptionId) (hresync : u.resyncPromise = v.resyncPromise) :
    Acts v u none :=
  ⟨by rw [hcalls, issued, List.append_nil], hnext, hepoch, hstopped, hid, hresync⟩

theorem Acts.refl (v : View.State) : Acts v v none := acts_of_eq rfl rfl rfl rfl rfl rfl

theorem Acts.trans (h : Acts v u none) (h' : Acts u w method) : Acts v w method := by
  have hcalls : u.calls = v.calls := h.calls.trans (List.append_nil _)
  have hnext : u.nextCall = v.nextCall := h.nextCall
  have hissued : issued u method = issued v method := by
    cases method with
    | none => rfl
    | some m => rw [issued, issued, hnext, h.connectionEpoch]
  refine ⟨by rw [h'.calls, hcalls, hissued], by rw [h'.nextCall, hnext, hissued],
    h'.connectionEpoch.trans h.connectionEpoch, h'.stopped.trans h.stopped,
    h'.subscriptionId.trans h.subscriptionId, ?_⟩
  have hresync : u.resyncPromise = v.resyncPromise := h.promises
  have hr := h'.promises
  unfold Promises at hr ⊢
  rwa [hresync, hnext] at hr

theorem acts_start (v : View.State) : ∃ method, Acts v v.start method := by
  unfold View.State.start
  split
  · exact ⟨none, .refl v⟩
  · exact ⟨some .subscribe, rfl, rfl, rfl, rfl, rfl, rfl⟩

theorem acts_resync (v : View.State) : ∃ method, Acts v v.resync method := by
  unfold View.State.resync
  split
  · exact ⟨none, .refl v⟩
  · split
    · exact acts_start v
    · next g hg =>
      split
      · exact ⟨none, .refl v⟩
      · next hnone =>
        exact ⟨some (.resync g), rfl, rfl, rfl, rfl, rfl, hg, by simpa using hnone, rfl⟩

theorem acts_applyDelta (v : View.State) (d : Delta) : Acts v (v.applyDelta d).1 none := by
  rcases View.applyDelta_cases v d with ⟨-, h⟩ | ⟨c, -, -, h⟩ | ⟨c, -, -, -, h⟩ <;> rw [h] <;>
    exact acts_of_eq rfl rfl rfl rfl rfl rfl

theorem acts_applyBuffered (ds : List Delta) (v : View.State) :
    ∃ method, Acts v (v.applyBuffered ds) method := by
  induction ds generalizing v with
  | nil => exact ⟨none, acts_of_eq rfl rfl rfl rfl rfl rfl⟩
  | cons d ds ih =>
    have hd := acts_applyDelta v d
    rw [View.State.applyBuffered]
    split
    · exact ih v
    · split
      · next v' hv =>
        rw [hv] at hd
        obtain ⟨method, hm⟩ := ih v'
        exact ⟨method, hd.trans hm⟩
      · next v' hv =>
        rw [hv] at hd
        split
        · exact ⟨none, hd.trans (acts_of_eq rfl rfl rfl rfl rfl rfl)⟩
        · obtain ⟨method, hm⟩ := acts_resync v'
          exact ⟨method, hd.trans hm⟩

theorem acts_handleEvent (v : View.State) (e : Event) : ∃ method, Acts v (v.handleEvent e) method := by
  cases e with
  | resyncRequired id g =>
    simp only [View.State.handleEvent]
    split
    · exact ⟨none, .refl v⟩
    · split
      · exact acts_resync v
      · exact ⟨none, .refl v⟩
  | delta d =>
    simp only [View.State.handleEvent]
    split
    · exact ⟨none, .refl v⟩
    · unfold View.State.handleDelta
      split
      · split
        · split
          · obtain ⟨method, hm⟩ := acts_resync { v with bufferedDeltas := [] }
            have hv : Acts v { v with bufferedDeltas := [] } none := acts_of_eq rfl rfl rfl rfl rfl rfl
            exact ⟨method, hv.trans hm⟩
          · exact ⟨none, acts_of_eq rfl rfl rfl rfl rfl rfl⟩
        · exact ⟨none, acts_of_eq rfl rfl rfl rfl rfl rfl⟩
      · split
        · exact acts_resync v
        · split
          · exact ⟨none, .refl v⟩
          · have hd := acts_applyDelta v d
            split
            · next v' hv => rw [hv] at hd; exact ⟨none, hd⟩
            · next v' hv =>
              rw [hv] at hd
              obtain ⟨method, hm⟩ := acts_resync v'
              exact ⟨method, hd.trans hm⟩

/-- The calls behind the last one that was there. -/
theorem Acts.filter_calls (h : Acts v u method) (hbelow : ∀ c ∈ v.calls, c.id < v.nextCall) :
    u.calls.filter (fun c => v.nextCall ≤ c.id) = issued v method := by
  have hold : v.calls.filter (fun c => decide (v.nextCall ≤ c.id)) = [] :=
    List.filter_eq_nil_iff.mpr fun c hc => by simpa using hbelow c hc
  rw [h.calls, List.filter_append, hold, List.nil_append, List.filter_eq_self]
  intro c hc
  cases method with
  | none => cases hc
  | some m =>
    obtain rfl := List.mem_singleton.mp hc
    simp

end

/-! ## Calls and requests -/

/-- The responses on their way, in order. -/
def Message.response? : Message → Option (ℕ × Except Text Snapshot)
  | .response call result => some (call, result)
  | .event _ => none

def State.pending (s : State) : List (ℕ × Except Text Snapshot) :=
  s.channel.filterMap Message.response? ++ s.unsent

/-- The calls that are not answered yet, in the order of their requests. -/
def State.inFlight (s : State) : List ℕ :=
  s.pending.map Prod.fst ++ s.running.toList ++ s.requests.map View.Call.id

/-- Every call is on its way once, and the only `resync` is the promise of the view. -/
structure Wired (s : State) : Prop where
  stopped : s.view.stopped = false
  epoch : ∀ c ∈ s.view.calls, c.epoch = s.view.connectionEpoch
  running : s.running = none ↔ s.node.pc = .idle
  flight : s.inFlight.Nodup
  unanswered : ∀ p ∈ s.inFlight, ∀ c ∈ s.view.calls, c.id = p → c.answered = false
  below : (∀ p ∈ s.inFlight, p < s.view.nextCall) ∧ ∀ c ∈ s.view.calls, c.id < s.view.nextCall
  promised : ∀ p, s.view.resyncPromise = some p → ∃ c ∈ s.view.calls, c.id = p
  requested : ∀ c ∈ s.requests, ∀ g, c.method = .resync g → s.view.resyncPromise = some c.id
  resyncing : ∀ r, resyncOf s.node.pc = some r → ∃ p, s.running = some p ∧
    s.view.resyncPromise = some p
  -- No `unsubscribe` is running.
  identified : s.node.pc ≠ .idle → idOf s.node.pc = some s.view.subscriptionId

section
variable {s : State}

theorem inFlight_acted {v : View.State} {method : Option View.Method} (h : Wired s)
    (hm : Acts s.view v method) : (s.acted v).requests = s.requests ++ issued s.view method ∧
    (s.acted v).inFlight = s.inFlight ++ (issued s.view method).map View.Call.id := by
  have hrequests : (s.acted v).requests = s.requests ++ issued s.view method := by
    rw [State.acted, hm.filter_calls h.below.2]
  refine ⟨hrequests, ?_⟩
  rw [State.inFlight, hrequests, List.map_append, ← List.append_assoc]
  rfl

/-- The view goes on. -/
theorem Wired.acted (h : Wired s) {v : View.State} {method : Option View.Method}
    (hm : Acts s.view v method) : Wired (s.acted v) := by
  obtain ⟨hrequests, hflight⟩ := inFlight_acted h hm
  have hnew : ∀ c ∈ issued s.view method, c.id = s.view.nextCall ∧
      c.epoch = s.view.connectionEpoch ∧ c.answered = false ∧ method = some c.method := by
    intro c hc
    cases method with
    | none => cases hc
    | some m => obtain rfl := List.mem_singleton.mp hc; exact ⟨rfl, rfl, rfl, rfl⟩
  have hids : ∀ p ∈ (issued s.view method).map View.Call.id, p = s.view.nextCall := by
    intro p hp
    obtain ⟨c, hc, rfl⟩ := List.mem_map.mp hp
    exact (hnew c hc).1
  have hlt : issued s.view method ≠ [] → s.view.nextCall < v.nextCall := fun hne => by
    rw [hm.nextCall]
    exact Nat.lt_add_of_pos_right (List.length_pos_iff.mpr hne)
  have hle : s.view.nextCall ≤ v.nextCall := by rw [hm.nextCall]; exact Nat.le_add_right _ _
  -- A promise that is set stays until its call is settled.
  have hkeep : ∀ {p}, s.view.resyncPromise = some p → v.resyncPromise = some p := by
    intro p hp
    have hpromises := hm.promises
    unfold Promises at hpromises
    split at hpromises
    · rw [hpromises.2.1] at hp; cases hp
    · rw [hpromises, hp]
  refine ⟨hm.stopped.trans h.stopped, fun c hc => ?_, h.running, ?_, fun p hp c hc hcp => ?_,
    ⟨fun p hp => ?_, fun c hc => ?_⟩, fun p hp => ?_, fun c hc g hg => ?_, fun r hr => ?_, fun hpc => ?_⟩
  · change c ∈ v.calls at hc
    rw [hm.calls] at hc
    change _ = v.connectionEpoch
    rw [hm.connectionEpoch]
    rcases List.mem_append.mp hc with hc | hc
    · exact h.epoch c hc
    · exact (hnew c hc).2.1
  · rw [hflight]
    refine List.nodup_append.mpr ⟨h.flight, ?_, ?_⟩
    · cases method with
      | none => exact List.nodup_nil
      | some m => exact List.nodup_singleton _
    · rintro p hp q hq rfl
      have := h.below.1 p hp
      rw [hids p hq] at this
      exact Nat.lt_irrefl _ this
  · change c ∈ v.calls at hc
    rw [hm.calls] at hc
    rw [hflight] at hp
    rcases List.mem_append.mp hc with hc | hc
    · rcases List.mem_append.mp hp with hp | hp
      · exact h.unanswered p hp c hc hcp
      · have := h.below.2 c hc
        rw [hcp, hids p hp] at this
        exact absurd this (Nat.lt_irrefl _)
    · exact (hnew c hc).2.2.1
  · rw [hflight] at hp
    change p < v.nextCall
    rcases List.mem_append.mp hp with hp | hp
    · exact Nat.lt_of_lt_of_le (h.below.1 p hp) hle
    · rw [hids p hp]
      exact hlt fun he => by rw [he] at hp; cases hp
  · change c ∈ v.calls at hc
    rw [hm.calls] at hc
    change c.id < v.nextCall
    rcases List.mem_append.mp hc with hc | hc
    · exact Nat.lt_of_lt_of_le (h.below.2 c hc) hle
    · rw [(hnew c hc).1]
      exact hlt fun he => by rw [he] at hc; cases hc
  · change v.resyncPromise = some p at hp
    change ∃ c ∈ v.calls, c.id = p
    rw [hm.calls]
    have hpromises := hm.promises
    unfold Promises at hpromises
    split at hpromises
    · next g =>
      rw [hpromises.2.2, Option.some.injEq] at hp
      exact ⟨⟨s.view.nextCall, .resync g, s.view.connectionEpoch, false⟩,
        List.mem_append_right _ (List.mem_singleton.mpr rfl), hp⟩
    · obtain ⟨c, hc, hcp⟩ := h.promised p (hpromises ▸ hp)
      exact ⟨c, List.mem_append_left _ hc, hcp⟩
  · rw [hrequests] at hc
    change v.resyncPromise = some c.id
    rcases List.mem_append.mp hc with hc | hc
    · exact hkeep (h.requested c hc g hg)
    · obtain ⟨hid, -, -, hmethod⟩ := hnew c hc
      have hpromises := hm.promises
      rw [hmethod, hg] at hpromises
      rw [hid]
      exact hpromises.2.2
  · obtain ⟨p, hrun, hp⟩ := h.resyncing r hr
    exact ⟨p, hrun, hkeep hp⟩
  · change idOf s.node.pc = some v.subscriptionId
    rw [hm.subscriptionId]
    exact h.identified hpc

/-- The calls on their way are the same, or fewer. -/
theorem Wired.fewer (h : Wired s) {s' : State} (hview : s'.view = s.view) (hnode : s'.node = s.node)
    (hrunning : s'.running = s.running) (hrequests : s'.requests = s.requests)
    (hflight : s'.inFlight.Sublist s.inFlight) : Wired s' := by
  refine ⟨by rw [hview]; exact h.stopped, by rw [hview]; exact h.epoch,
    by rw [hrunning, hnode]; exact h.running, h.flight.sublist hflight, ?_, ⟨?_, ?_⟩,
    by rw [hview]; exact h.promised, by rw [hrequests, hview]; exact h.requested,
    by rw [hrunning, hnode, hview]; exact h.resyncing, by rw [hnode, hview]; exact h.identified⟩
  · rw [hview]
    exact fun p hp => h.unanswered p (hflight.subset hp)
  · rw [hview]
    exact fun p hp => h.below.1 p (hflight.subset hp)
  · rw [hview]
    exact h.below.2

/-- The node goes on with a request of the view. -/
theorem Wired.serves (h : Wired s) {s' : State} (hview : s'.view = s.view)
    (hflight : s'.inFlight = s.inFlight) (hrequests : ∀ c ∈ s'.requests, c ∈ s.requests)
    (hrunning : s'.running = none ↔ s'.node.pc = .idle)
    (hresyncing : ∀ r, resyncOf s'.node.pc = some r → ∃ p, s'.running = some p ∧
      s.view.resyncPromise = some p)
    (hid : s'.node.pc ≠ .idle → idOf s'.node.pc = some s.view.subscriptionId) : Wired s' := by
  refine ⟨by rw [hview]; exact h.stopped, by rw [hview]; exact h.epoch, hrunning,
    by rw [hflight]; exact h.flight, by rw [hflight, hview]; exact h.unanswered,
    ⟨by rw [hflight, hview]; exact h.below.1, by rw [hview]; exact h.below.2⟩,
    by rw [hview]; exact h.promised, ?_, by rw [hview]; exact hresyncing, by rw [hview]; exact hid⟩
  rw [hview]
  exact fun c hc => h.requested c (hrequests c hc)

/-- The response of a call is handled: the call is answered, and not on its way any
more. -/
theorem Wired.answered (h : Wired s) {call : ℕ} {result : Except Text Snapshot}
    {rest : List Message} (hc : s.channel = .response call result :: rest) :
    Wired { s with
      channel := rest
      view := { s.view with calls := s.view.calls.map (View.Call.answer call) } } := by
  have hflight : s.inFlight = call :: State.inFlight { s with channel := rest } := by
    rw [State.inFlight, State.pending, hc]
    rfl
  have hmem : ∀ {p}, p ∈ State.inFlight { s with channel := rest } → p ∈ s.inFlight ∧ p ≠ call := by
    intro p hp
    have hnodup := h.flight
    rw [hflight] at hnodup
    rw [hflight]
    refine ⟨List.mem_cons_of_mem _ hp, fun heq => ?_⟩
    rw [heq] at hp
    exact (List.nodup_cons.mp hnodup).1 hp
  have hcalls : ∀ {c}, c ∈ s.view.calls.map (View.Call.answer call) → ∃ c₀ ∈ s.view.calls,
      c.id = c₀.id ∧ c.epoch = c₀.epoch ∧ (c.id ≠ call → c = c₀) := by
    intro c hc
    obtain ⟨c₀, hc₀, rfl⟩ := List.mem_map.mp hc
    refine ⟨c₀, hc₀, ?_⟩
    unfold View.Call.answer
    split
    · next heq => exact ⟨rfl, rfl, fun hne => absurd heq hne⟩
    · exact ⟨rfl, rfl, fun _ => rfl⟩
  have hnodup := h.flight
  rw [hflight] at hnodup
  refine ⟨h.stopped, fun c hc => ?_, h.running, (List.nodup_cons.mp hnodup).2, fun p hp c hc hcp => ?_,
    ⟨fun p hp => h.below.1 p (hmem hp).1, fun c hc => ?_⟩, fun p hp => ?_, h.requested, h.resyncing,
    h.identified⟩
  · obtain ⟨c₀, hc₀, -, hepoch, -⟩ := hcalls hc
    exact hepoch.trans (h.epoch c₀ hc₀)
  · obtain ⟨c₀, hc₀, hid, -, hsame⟩ := hcalls hc
    obtain ⟨hp, hne⟩ := hmem hp
    rw [hsame (hcp ▸ hne)]
    exact h.unanswered p hp c₀ hc₀ (hid.symm.trans hcp)
  · obtain ⟨c₀, hc₀, hid, -⟩ := hcalls hc
    change c.id < s.view.nextCall
    rw [hid]
    exact h.below.2 c₀ hc₀
  · obtain ⟨c, hc, hcp⟩ := h.promised p hp
    refine ⟨View.Call.answer call c, List.mem_map_of_mem hc, ?_⟩
    unfold View.Call.answer
    split <;> exact hcp

/-- The `finally` handler of a call. -/
theorem Wired.settled (h : Wired s) {call : ℕ} {v : View.State} (hv : s.view.settle call = some v) :
    Wired { s with view := v } := by
  unfold View.State.settle at hv
  split at hv
  · next hany =>
    cases hv
    obtain ⟨a, ha, hac⟩ := List.any_eq_true.mp hany
    obtain ⟨hid, hanswered⟩ : a.id = call ∧ a.answered = true := by simpa using hac
    -- The call is not on its way.
    have hne : ∀ p ∈ s.inFlight, p ≠ call := fun p hp heq => by
      have := h.unanswered p hp a ha (hid.trans heq.symm)
      rw [hanswered] at this
      cases this
    have hkeep : ∀ {p}, p ∈ s.inFlight → s.view.resyncPromise = some p →
        (if s.view.resyncPromise = some call then none else s.view.resyncPromise) = some p := by
      intro p hp hpromise
      rw [if_neg, hpromise]
      rw [hpromise, Option.some.injEq]
      exact hne p hp
    refine ⟨h.stopped, fun c hc => h.epoch c (List.mem_filter.mp hc).1, h.running, h.flight,
      fun p hp c hc => h.unanswered p hp c (List.mem_filter.mp hc).1,
      ⟨h.below.1, fun c hc => h.below.2 c (List.mem_filter.mp hc).1⟩, fun p hp => ?_,
      fun c hc g hg => ?_, fun r hr => ?_, h.identified⟩
    · dsimp only at hp
      split at hp
      · cases hp
      · next hcall =>
        obtain ⟨c, hc, hcp⟩ := h.promised p hp
        refine ⟨c, List.mem_filter.mpr ⟨hc, ?_⟩, hcp⟩
        rw [hp, Option.some.injEq] at hcall
        simpa [hcp] using hcall
    · exact hkeep (List.mem_append_right _ (List.mem_map_of_mem hc)) (h.requested c hc g hg)
    · obtain ⟨p, hrun, hp⟩ := h.resyncing r hr
      refine ⟨p, hrun, hkeep ?_ hp⟩
      rw [State.inFlight, hrun]
      simp
  · cases hv

end

/-! ## What a subscription is told -/

/-- The subscription of generation `g` is `t`, and the socket has taken `es`. -/
def put (n : Node) (g : Generation) (t : Subscription) (es : List Event) : Node :=
  { n with
    heap := fun k => if k = g then some t else n.heap k
    outbox := n.outbox ++ es }

/-- The events that the socket takes of one that it is given. -/
def taken (send : Send) (e : Event) : List Event :=
  match send with
  | .accepted | .exceeding => [e]
  | .full | .refused => []

def deltasOf (es : List Event) : List Delta :=
  es.filterMap fun
    | .delta d => some d
    | .resyncRequired _ _ => none

/-- Until it is stale, a subscription is told everything; when it is, a control
event is sent, or its timer is set. -/
structure Told (g : Generation) (s t : Subscription) (es : List Event) : Prop where
  id : t.id = s.id
  event : ∀ e ∈ es, e = .resyncRequired s.id g ∨ ∃ d ∈ t.sent, e = .delta d
  fresh : t.stale = false → s.stale = false ∧ t.sent = s.sent ++ deltasOf es
  stale : t.stale = true → t.pressureTimer = true ∨ .resyncRequired s.id g ∈ es ∨
    s.stale = true ∧ t.pressureTimer = s.pressureTimer ∧ es = []

section
variable {n : Node} {g : Generation} {s t : Subscription} {es : List Event}

theorem modify_eq_put (hs : n.heap g = some s) (f : Subscription → Subscription) :
    n.modify g f = put n g (f s) [] := by
  simp only [Node.modify, put, List.append_nil]
  congr
  funext k
  split
  · next hk => rw [hk, hs]; rfl
  · rfl

theorem modify_put (f : Subscription → Subscription) :
    (put n g t es).modify g f = put n g (f t) es := by
  simp only [Node.modify, put]
  congr
  funext k
  split <;> rfl

theorem transmit_put (send : Send) (e : Event) :
    (put n g t es).transmit send e = put n g t (es ++ taken send e) := by
  cases send <;> simp [Node.transmit, put, taken]

theorem heap_put : (put n g t es).heap g = some t := if_pos rfl

theorem attemptControl_put (hst : t.stale = true) (control : Send) :
    (put n g t es).attemptControl false g ⟨control, false⟩ =
      put n g { t with pressureTimer := control ≠ .accepted }
        (es ++ taken control (.resyncRequired t.id g)) := by
  simp only [Node.attemptControl, heap_put, hst, Bool.false_eq_true, false_or, transmit_put, if_false,
    modify_put, reduceCtorEq]
  by_cases hc : control = .accepted
  · simp [hc]
  · simp [hc]

theorem markStale_put (hst : t.stale = false) (control : Send) :
    (put n g t es).markStale false g ⟨control, false⟩ =
      put n g { t with
        stale := true, observer := t.observer.stop, pressureTimer := control ≠ .accepted }
        (es ++ taken control (.resyncRequired t.id g)) := by
  simp only [Node.markStale, heap_put, hst, Bool.false_eq_true, or_self, if_false, modify_put]
  rw [attemptControl_put rfl]

/-- A subscription becomes stale behind the deltas `ds`. -/
theorem told_stale (u : Subscription) (ds : List Delta) {es : List Event}
    (hes : ∀ e ∈ es, ∃ d ∈ ds, e = .delta d) (control : Send) :
    Told g u { u with
      sent := u.sent ++ ds, stale := true, observer := u.observer.stop,
      pressureTimer := control ≠ .accepted } (es ++ taken control (.resyncRequired u.id g)) := by
  refine ⟨rfl, fun e he => ?_, fun hfresh => ?_, fun _ => ?_⟩
  · rcases List.mem_append.mp he with he | he
    · obtain ⟨d, hd, rfl⟩ := hes e he
      exact .inr ⟨d, List.mem_append_right _ hd, rfl⟩
    · cases control <;> simp [taken] at he
      all_goals exact .inl he
  · cases hfresh
  · by_cases hc : control = .accepted
    · exact .inr (.inl (List.mem_append_right _ (by simp [taken, hc])))
    · exact .inl (by simpa using hc)

theorem markStale_told (u : Subscription) (control : Send) : ∃ t es,
    (put n g u []).markStale false g ⟨control, false⟩ = put n g t es ∧ Told g u t es := by
  obtain hst | hst := Bool.eq_false_or_eq_true u.stale
  · refine ⟨u, [], ?_, rfl, by simp, fun hfresh => ⟨hfresh, by simp [deltasOf]⟩, fun _ =>
      .inr (.inr ⟨hst, rfl, rfl⟩)⟩
    simp [Node.markStale, heap_put, hst]
  · have htold := @told_stale g u [] [] (by simp) control
    rw [List.append_nil] at htold
    exact ⟨_, _, markStale_put hst control, htold⟩

theorem deliver_told (u : Subscription) (d : Delta) (send control : Send) : ∃ t es,
    (put n g u []).deliver false g d send ⟨control, false⟩ = put n g t es ∧ Told g u t es := by
  obtain hst | hst := Bool.eq_false_or_eq_true u.stale
  · refine ⟨u, [], ?_, rfl, by simp, fun hfresh => ⟨hfresh, by simp [deltasOf]⟩, fun _ =>
      .inr (.inr ⟨hst, rfl, rfl⟩)⟩
    simp [Node.deliver, heap_put, hst]
  · -- The delta is handed to the socket, unless that is full.
    have hopen : ¬ (u.stale = true ∨ false = true) := by simp [hst]
    simp only [Node.deliver, heap_put, modify_put, transmit_put]
    rw [if_neg hopen]
    cases send with
    | full => exact markStale_told u control
    | accepted =>
      refine ⟨_, _, rfl, rfl, fun x hx => ?_, fun _ => ⟨hst, rfl⟩, fun hstale => ?_⟩
      · obtain rfl := List.mem_singleton.mp hx
        exact .inr ⟨d, by simp, rfl⟩
      · rw [show u.stale = true from hstale] at hst
        cases hst
    | exceeding =>
      refine ⟨_, _, markStale_put (t := { u with sent := u.sent ++ [d] }) hst control,
        told_stale u [d] (fun x hx => ?_) control⟩
      obtain rfl := List.mem_singleton.mp hx
      exact ⟨d, by simp, rfl⟩
    | refused =>
      refine ⟨_, _, markStale_put (t := { u with sent := u.sent ++ [d] }) hst control,
        told_stale u [d] (fun x hx => ?_) control⟩
      cases hx

/-- An observer goes on. -/
theorem observe_put {m : Node} {a : Observer.Action} {send control : Send}
    (hm : n.observe false g a send ⟨control, false⟩ = some m) : ∃ s t es, n.heap g = some s ∧
      m = put n g t es ∧ Told g s t es := by
  simp only [Node.observe, Option.bind_eq_bind, Option.bind_eq_some_iff] at hm
  obtain ⟨s, hs, o, hstep, hm⟩ := hm
  rw [modify_eq_put hs] at hm
  refine ⟨s, ?_⟩
  -- What the subscription is told does not depend on its observer.
  have htold : ∀ {t es}, Told g { s with observer := o } t es → Told g s t es := fun h =>
    ⟨h.id, h.event, h.fresh, h.stale⟩
  have hstill : Told g s { s with observer := o } [] :=
    ⟨rfl, by simp, fun hfresh => ⟨hfresh, by simp [deltasOf]⟩, fun hst => .inr (.inr ⟨hst, rfl, rfl⟩)⟩
  split at hm
  · cases hm
    obtain ⟨t, es, hput, h⟩ := markStale_told (n := n) (g := g) { s with observer := o } control
    exact ⟨t, es, hs, hput, htold h⟩
  · split at hm
    · split at hm <;> cases hm
      · next e _ =>
        obtain ⟨t, es, hput, h⟩ :=
          deliver_told (n := n) (g := g) { s with observer := o } e.delta send control
        exact ⟨t, es, hs, hput, htold h⟩
      · exact ⟨_, _, hs, rfl, hstill⟩
    · cases hm
      exact ⟨_, _, hs, rfl, hstill⟩

/-- A timer fires. -/
theorem timer_put (hs : n.heap g = some s) (control : Send) : ∃ t es,
    (n.modify g fun s => { s with pressureTimer := false }).attemptControl false g ⟨control, false⟩ =
      put n g t es ∧ Told g s t es := by
  rw [modify_eq_put hs]
  obtain hst | hst := Bool.eq_false_or_eq_true s.stale
  · refine ⟨_, _, attemptControl_put (t := { s with pressureTimer := false }) hst control, rfl,
      fun e he => ?_, fun hfresh => ?_, fun _ => ?_⟩
    · cases control <;> simp [taken] at he
      all_goals exact .inl he
    · rw [show s.stale = false from hfresh] at hst
      cases hst
    · by_cases hc : control = .accepted
      · exact .inr (.inl (by simp [taken, hc]))
      · exact .inl (by simp [hc])
  · refine ⟨{ s with pressureTimer := false }, [], ?_, rfl, by simp,
      fun hfresh => ⟨hst, by simp [deltasOf]⟩, fun hstale => ?_⟩
    · rw [Node.attemptControl, heap_put]
      dsimp only
      rw [if_pos (.inr hst)]
    · rw [show s.stale = true from hstale] at hst
      cases hst

end

/-! ## What the node makes of a session -/

section
variable {s : State} {m : Node}

/-- A subscription was told something. -/
theorem served_put (h : Wired s) (g : Generation) (t : Subscription) (es : List Event) :
    s.served (put s.node g t es) = { s with
      node := put s.node g t es
      channel := s.channel ++ es.map .event } := by
  have hrunning : (if (put s.node g t es).pc = .idle then none else s.running) = s.running := by
    split
    · next hpc => exact (h.running.mpr hpc).symm
    · rfl
  have hreturned : s.returned (put s.node g t es) = [] := by
    simp [State.returned, put]
  have houtbox : (put s.node g t es).outbox.drop s.node.outbox.length = es := List.drop_left
  rw [State.served, hreturned, hrunning, houtbox, List.append_nil]

theorem served_waits (hreturns : m.returns = s.node.returns) (houtbox : m.outbox = s.node.outbox)
    (hpc : m.pc ≠ .idle) : s.served m = { s with node := m } := by
  have hreturned : s.returned m = [] := by
    simp [State.returned, hreturns]
  rw [State.served, hreturned, houtbox]
  simp [hpc]

theorem served_finish (hreturns : m.returns = s.node.returns) (houtbox : m.outbox = s.node.outbox)
    {call : ℕ} (hrunning : s.running = some call) (r : Option ResyncRequest) (id : SubscriptionId)
    (result : Except Text Snapshot) : s.served (m.finish r id result) = { s with
      node := m.finish r id result
      unsent := s.unsent ++ [(call, result)]
      running := none } := by
  have hreturned : s.returned (m.finish r id result) = [(call, result)] := by
    simp [State.returned, hrunning, Node.finish, hreturns]
  rw [State.served, hreturned, show (m.finish r id result).outbox = s.node.outbox from houtbox]
  simp [Node.finish]

end

end TypeFerry.Live.Session
