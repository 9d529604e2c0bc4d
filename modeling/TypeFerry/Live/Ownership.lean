import TypeFerry.Live.Delivery
import TypeFerry.Live.Engine

/-! # Who owns a running observer

An observer that was started and not stopped is stored under its node, where a
logout, a disconnection or `close` finds it, or belongs to a request that is
still running. What a request may lose while it is suspended is the map it
holds: `stopNode` takes the map away, and the request has to notice. -/
namespace TypeFerry.Live.Ownership
open TypeFerry.Lib.Numeral TypeFerry.Lib.OrderedMap TypeFerry.Lib.Runs
open TypeFerry.Live.Types TypeFerry.Live.Engine

/-- The observer was started and not stopped. -/
def isRunning (s : Subscription) : Prop := s.observer.pc ≠ .created ∧ s.observer.stopped = false

instance (s : Subscription) : Decidable (isRunning s) := inferInstanceAs (Decidable (_ ∧ _))

def Runs (n : Node) (g : Generation) : Prop := ∃ s, n.heap g = some s ∧ isRunning s

/-- The subscription is stored under the node. -/
def Stored (n : Node) (g : Generation) : Prop := ∃ id, n.nodeSubscriptions.get id = some g

/-- The subscription belongs to the request that is running. -/
def inRequest (g : Generation) : Pc → Prop
  | .subscribeStarting _ _ _ g' | .resyncStarting _ _ _ g' => g' = g
  | _ => False

/-- A `subscribe` waits for the stop of an existing subscription. -/
def isStopping : Pc → Bool
  | .subscribeStopping _ _ => true
  | _ => false

/-- No node logs out while its `subscribe` waits for the stop of an existing
subscription. -/
def noLogoutWhileStopping (e : Engine.State) : EngineAction → Prop
  | .node id .logout => isStopping (e.nodes id).pc = false
  | _ => True

/-! ## Nodes that have calmed down -/

/-- The subscription is the same, and not started anew. -/
structure Calmer (s t : Subscription) : Prop where
  id : t.id = s.id
  authorization : t.authorization = s.authorization
  running : isRunning t → isRunning s

/-- Every generation below the next one is in use. -/
def Fresh (n : Node) : Prop := ∀ g, n.nextGeneration ≤ g → n.heap g = none

/-- Nothing has come to the node, but a new subscription that is not started. -/
structure Quieter (n m : Node) : Prop where
  subscriptions : m.subscriptions = n.subscriptions
  maps : m.maps = n.maps
  pending : ∀ a ∈ n.pendingAuthorizations, a ∈ m.pendingAuthorizations
  socket : m.socketOpen = true → n.socketOpen = true
  aborted : ∀ a ∈ n.aborted, a ∈ m.aborted
  subscription : ∀ {g s}, n.heap g = some s →
    ∃ t, m.heap g = some t ∧ t.id = s.id ∧ t.authorization = s.authorization
  runs : ∀ {g}, Runs m g → Runs n g
  fresh : Fresh n → Fresh m

theorem Calmer.refl (s : Subscription) : Calmer s s := ⟨rfl, rfl, fun h => h⟩

theorem calmer_heap_refl (o : Option Subscription) : Option.Rel Calmer o o := by
  cases o with
  | none => exact .none
  | some s => exact .some (.refl s)

section
variable {n m k : Node} {g : Generation}

theorem Quieter.refl (n : Node) : Quieter n n :=
  ⟨rfl, rfl, fun _ => id, id, fun _ => id, fun hs => ⟨_, hs, rfl, rfl⟩, id, id⟩

theorem Quieter.trans (h : Quieter n m) (h' : Quieter m k) : Quieter n k := by
  refine ⟨h'.subscriptions.trans h.subscriptions, h'.maps.trans h.maps,
    fun a ha => h'.pending a (h.pending a ha), fun hk => h.socket (h'.socket hk),
    fun a ha => h'.aborted a (h.aborted a ha), fun hs => ?_, fun hr => h.runs (h'.runs hr),
    fun hf => h'.fresh (h.fresh hf)⟩
  obtain ⟨t, ht, hid, ha⟩ := h.subscription hs
  obtain ⟨u, hu, hid', ha'⟩ := h'.subscription ht
  exact ⟨u, hu, hid'.trans hid, ha'.trans ha⟩

/-- The subscriptions have calmed down one by one. -/
theorem quieter_of_heap (hsub : m.subscriptions = n.subscriptions) (hmaps : m.maps = n.maps)
    (hnext : m.nextGeneration = n.nextGeneration)
    (hpending : ∀ a ∈ n.pendingAuthorizations, a ∈ m.pendingAuthorizations)
    (hsocket : m.socketOpen = true → n.socketOpen = true) (haborted : ∀ a ∈ n.aborted, a ∈ m.aborted)
    (hheap : ∀ g, Option.Rel Calmer (n.heap g) (m.heap g)) : Quieter n m := by
  refine ⟨hsub, hmaps, hpending, hsocket, haborted, fun {g s} hs => ?_, fun {g} hr => ?_,
    fun hf g hg => ?_⟩
  · have hg := hheap g
    rw [hs] at hg
    cases hm : m.heap g with
    | none => rw [hm] at hg; cases hg
    | some t => rw [hm] at hg; cases hg with | some hc => exact ⟨t, rfl, hc.id, hc.authorization⟩
  · obtain ⟨t, ht, hrun⟩ := hr
    have hg := hheap g
    rw [ht] at hg
    cases hn : n.heap g with
    | none => rw [hn] at hg; cases hg
    | some s => rw [hn] at hg; cases hg with | some hc => exact ⟨s, hn, hc.running hrun⟩
  · have hrel := hheap g
    rw [hf g (hnext ▸ hg)] at hrel
    cases hm : m.heap g with
    | none => rfl
    | some t => rw [hm] at hrel; cases hrel

/-- The fields of `Quieter` are the same. -/
theorem quieter_of_eq (hsub : m.subscriptions = n.subscriptions) (hmaps : m.maps = n.maps)
    (hnext : m.nextGeneration = n.nextGeneration)
    (hpending : ∀ a ∈ n.pendingAuthorizations, a ∈ m.pendingAuthorizations)
    (hsocket : m.socketOpen = true → n.socketOpen = true) (haborted : ∀ a ∈ n.aborted, a ∈ m.aborted)
    (hheap : m.heap = n.heap) : Quieter n m :=
  quieter_of_heap hsub hmaps hnext hpending hsocket haborted fun g => by
    rw [hheap]; exact calmer_heap_refl _

theorem Quieter.stored (h : Quieter n m) : Stored m g ↔ Stored n g := by
  rw [Stored, Stored, Node.nodeSubscriptions, Node.nodeSubscriptions, h.subscriptions, h.maps]

theorem quieter_modify (n : Node) (g : Generation) {f : Subscription → Subscription}
    (hf : ∀ s, n.heap g = some s → Calmer s (f s)) : Quieter n (n.modify g f) := by
  refine quieter_of_heap rfl rfl rfl (fun _ => id) id (fun _ => id) fun k => ?_
  simp only [Node.modify]
  split
  · next hk =>
    subst hk
    cases hs : n.heap k with
    | none => exact .none
    | some s => exact .some (hf s hs)
  · exact calmer_heap_refl _

theorem calmer_stop (s : Subscription) : Calmer s { s with observer := s.observer.stop } :=
  ⟨rfl, rfl, fun h => absurd h.2 (by simp [Delivery.stop_stopped])⟩

theorem quieter_stopObserver (n : Node) (g : Generation) : Quieter n (n.stopObserver g) :=
  quieter_modify n g fun s _ => calmer_stop s

theorem quieter_abort (n : Node) (a : AuthorizationId) : Quieter n (n.abort a) :=
  quieter_of_eq rfl rfl rfl (fun _ => id) id (fun _ h => List.mem_cons_of_mem _ h) rfl

theorem quieter_stopSubscription (n : Node) (g : Generation) : Quieter n (n.stopSubscription g) := by
  unfold Node.stopSubscription
  split
  · next s _ =>
    refine (quieter_abort n s.authorization).trans (quieter_modify _ g fun s _ => ?_)
    exact ⟨rfl, rfl, fun h => absurd h.2 (by simp [Delivery.stop_stopped])⟩
  · exact .refl n

theorem quieter_transmit (n : Node) (send : Send) (event : Event) :
    Quieter n (n.transmit send event) := by
  cases send <;> exact quieter_of_eq rfl rfl rfl (fun _ => id) id (fun _ => id) rfl

theorem quieter_attemptControl (n : Node) (closed : Bool) (g : Generation) (attempt : Attempt) :
    Quieter n (n.attemptControl closed g attempt) := by
  have htimer : ∀ (n : Node) b, Quieter n (n.modify g fun s => { s with pressureTimer := b }) :=
    fun n b => quieter_modify n g fun s _ => ⟨rfl, rfl, id⟩
  unfold Node.attemptControl
  split
  · exact .refl n
  · next s _ =>
    split
    · exact .refl n
    · have ht := quieter_transmit n attempt.send (.resyncRequired s.id g)
      dsimp only
      split
      · exact ht.trans (htimer _ _)
      · split
        · exact (ht.trans (htimer _ false)).trans
            (quieter_of_eq rfl rfl rfl (fun _ => id) (by simp) (fun _ => id) rfl)
        · exact ht.trans (htimer _ _)

theorem quieter_markStale (n : Node) (closed : Bool) (g : Generation) (attempt : Attempt) :
    Quieter n (n.markStale closed g attempt) := by
  unfold Node.markStale
  split
  · exact .refl n
  · split
    · exact .refl n
    · refine (quieter_modify n g fun s _ => ?_).trans (quieter_attemptControl _ closed g attempt)
      exact ⟨rfl, rfl, fun h => absurd h.2 (by simp [Delivery.stop_stopped])⟩

theorem quieter_deliver (n : Node) (closed : Bool) (g : Generation) (delta : Delta) (send : Send)
    (attempt : Attempt) : Quieter n (n.deliver closed g delta send attempt) := by
  have hsent : Quieter n (n.modify g fun s => { s with sent := s.sent ++ [delta] }) :=
    quieter_modify n g fun s _ => ⟨rfl, rfl, id⟩
  unfold Node.deliver
  split
  · exact .refl n
  · split
    · exact .refl n
    · cases send with
      | full => exact quieter_markStale n closed g attempt
      | accepted => exact hsent.trans (quieter_transmit _ _ _)
      | exceeding | refused =>
        exact (hsent.trans (quieter_transmit _ _ _)).trans (quieter_markStale _ closed g attempt)

theorem attemptControl_pc (n : Node) (closed : Bool) (g : Generation) (attempt : Attempt) :
    (n.attemptControl closed g attempt).pc = n.pc := by
  have ht : ∀ event, (n.transmit attempt.send event).pc = n.pc := fun event => by
    unfold Node.transmit; split <;> rfl
  unfold Node.attemptControl
  split
  · rfl
  · split
    · rfl
    · dsimp only
      split
      · exact ht _
      · split <;> exact ht _

theorem markStale_pc (n : Node) (closed : Bool) (g : Generation) (attempt : Attempt) :
    (n.markStale closed g attempt).pc = n.pc := by
  unfold Node.markStale
  split
  · rfl
  · split
    · rfl
    · exact attemptControl_pc _ closed g attempt

theorem deliver_pc (n : Node) (closed : Bool) (g : Generation) (delta : Delta) (send : Send)
    (attempt : Attempt) : (n.deliver closed g delta send attempt).pc = n.pc := by
  unfold Node.deliver
  split
  · rfl
  · split
    · rfl
    · cases send with
      | full => exact markStale_pc n closed g attempt
      | accepted => rfl
      | exceeding | refused => exact markStale_pc _ closed g attempt

theorem observe_pc {closed : Bool} {a : Observer.Action} {send : Send} {attempt : Attempt}
    (hm : n.observe closed g a send attempt = some m) : m.pc = n.pc := by
  simp only [Node.observe, Option.bind_eq_bind, Option.bind_eq_some_iff] at hm
  obtain ⟨s, -, observer, -, hm⟩ := hm
  split at hm
  · cases hm; exact markStale_pc _ closed g attempt
  · split at hm
    · split at hm <;> cases hm
      · exact deliver_pc _ closed g _ send attempt
      · rfl
    · cases hm; rfl

/-- An observer that is not started is not started by the others. -/
theorem created_step {cfg : Observer.Config} {s t : Observer.State} {a : Observer.Action}
    (ha : isForeign a = true) (hs : Observer.step cfg s a = some t) (h : s.pc = .created) :
    t.pc = .created := by
  cases a with
  | start | stop => cases ha
  | notice n =>
    simp only [Observer.step] at hs
    split at hs <;> cases hs
    rw [(Delivery.listen_control n).1, h]
  | cleared =>
    simp only [Observer.step] at hs
    split at hs <;> cases hs
    exact h
  | turn => simp [Observer.step, Observer.State.turn, h] at hs
  | read _ | found _ | projected _ | fail _ => simp [Observer.step, Observer.resume, h] at hs

theorem quieter_observe {closed : Bool} {a : Observer.Action} {send : Send} {attempt : Attempt}
    (ha : isForeign a = true) (hm : n.observe closed g a send attempt = some m) : Quieter n m := by
  simp only [Node.observe, Option.bind_eq_bind, Option.bind_eq_some_iff] at hm
  obtain ⟨s, hs, observer, hstep, hm⟩ := hm
  have hq : Quieter n (n.modify g fun s => { s with observer := observer }) := by
    refine quieter_modify n g fun s' hs' => ⟨rfl, rfl, fun hrun => ?_⟩
    rw [hs, Option.some.injEq] at hs'
    subst hs'
    refine ⟨fun hc => hrun.1 (created_step ha hstep hc), ?_⟩
    cases hst : s.observer.stopped with
    | false => rfl
    | true =>
      have := hrun.2
      simp [Delivery.stopped_step hstep hst] at this
  split at hm
  · cases hm; exact hq.trans (quieter_markStale _ closed g attempt)
  · split at hm
    · split at hm <;> cases hm
      · exact hq.trans (quieter_deliver _ closed g _ send attempt)
      · exact hq
    · cases hm; exact hq

end

/-! ## What a request holds -/

/-- The map of a request is that of the node, or the request will be cancelled. -/
def Attached (closed : Bool) (n : Node) (map : MapId) (authorization : AuthorizationId) : Prop :=
  n.subscriptions = some map ∨ n.subscriptions = none ∧ n.isActive closed authorization = false

/-- No other map than that of the request is the node's. -/
def Placed (n : Node) (map : MapId) : Prop := n.subscriptions = some map ∨ n.subscriptions = none

/-- What is stored under the identifier does not run. -/
def Silenced (n : Node) (map : MapId) (id : SubscriptionId) : Prop :=
  ∀ g, (n.maps map).get id = some g → ¬ Runs n g

/-- There is a place in the map for what `subscribe` will store. -/
structure Vacant (options : Options) (closed : Bool) (n : Node) (id : SubscriptionId) (map : MapId)
    (authorization : AuthorizationId) : Prop where
  pending : authorization ∈ n.pendingAuthorizations
  free : (n.maps map).get id = none
  room : (n.maps map).size < options.maxSubscriptionsPerConnection
  attached : Attached closed n map authorization

/-- What `resync` replaces is stored. -/
def Replaceable (closed : Bool) (n : Node) (id : SubscriptionId) (map : MapId)
    (previous : Generation) : Prop :=
  (n.maps map).get id = some previous ∧ ∃ s, n.heap previous = some s ∧ s.id = id ∧
    Attached closed n map s.authorization

def Holds (options : Options) (closed : Bool) (n : Node) : Pc → Prop
  | .idle => True
  | .subscribeStopping r map => Silenced n map r.subscriptionId ∧ (n.subscriptions = some map ∨
      n.subscriptions = none ∧ (n.socketOpen = false ∨ closed = true))
  | .subscribeAuthorizing r map a | .subscribeSourcing r map a _ =>
    Vacant options closed n r.subscriptionId map a
  | .subscribeStarting r map a g => Vacant options closed n r.subscriptionId map a ∧
      ∃ s, n.heap g = some s ∧ s.id = r.subscriptionId
  | .subscribeFailing _ map _ _ | .unsubscribeStopping map => Placed n map
  | .resyncAuthorizing r map p => Replaceable closed n r.subscriptionId map p
  | .resyncStopping r map p | .resyncSourcing r map p _ =>
    Replaceable closed n r.subscriptionId map p ∧ Silenced n map r.subscriptionId
  | .resyncStarting r map p g => Replaceable closed n r.subscriptionId map p ∧
      Silenced n map r.subscriptionId ∧ ∃ s t, n.heap p = some s ∧ n.heap g = some t ∧
        t.id = s.id ∧ t.authorization = s.authorization
  | .resyncFailing r map _ => Placed n map ∧ Silenced n map r.subscriptionId

/-- What the engine keeps about a node. -/
structure Owned (options : Options) (closed : Bool) (n : Node) : Prop where
  holds : Holds options closed n n.pc
  owned : ∀ g, Runs n g → Stored n g ∨ inRequest g n.pc
  keyed : ∀ map id g, (n.maps map).get id = some g → ∃ s, n.heap g = some s ∧ s.id = id
  bound : ∀ map, (n.maps map).size ≤ options.maxSubscriptionsPerConnection
  fresh : Fresh n

section
variable {options : Options} {closed : Bool} {n m : Node} {map : MapId} {id : SubscriptionId}
  {a : AuthorizationId} {g : Generation}

theorem Quieter.inactive (h : Quieter n m) (hn : n.isActive closed a = false) :
    m.isActive closed a = false := by
  simp only [Node.isActive, Bool.and_eq_false_iff, Bool.not_eq_false', List.contains_iff_mem] at hn ⊢
  rcases hn with (hn | hn) | hn
  · refine .inl (.inl ?_)
    cases hm : m.socketOpen with
    | false => rfl
    | true => rw [h.socket hm] at hn; cases hn
  · exact .inl (.inr hn)
  · exact .inr (h.aborted a hn)

theorem Attached.quieter (h : Quieter n m) (ha : Attached closed n map a) :
    Attached closed m map a := by
  unfold Attached at ha ⊢
  rw [h.subscriptions]
  exact ha.imp_right fun ha => ⟨ha.1, h.inactive ha.2⟩

theorem Placed.quieter (h : Quieter n m) (hp : Placed n map) : Placed m map := by
  unfold Placed at hp ⊢
  rwa [h.subscriptions]

theorem Silenced.quieter (h : Quieter n m) (hs : Silenced n map id) : Silenced m map id := by
  intro g hg hr
  rw [h.maps] at hg
  exact hs g hg (h.runs hr)

theorem Vacant.quieter (h : Quieter n m) (hv : Vacant options closed n id map a) :
    Vacant options closed m id map a :=
  ⟨h.pending a hv.pending, by rw [h.maps]; exact hv.free,
    by rw [h.maps]; exact hv.room, hv.attached.quieter h⟩

theorem Replaceable.quieter (h : Quieter n m) (hr : Replaceable closed n id map g) :
    Replaceable closed m id map g := by
  obtain ⟨hget, s, hs, hid, ha⟩ := hr
  obtain ⟨t, ht, htid, hta⟩ := h.subscription hs
  exact ⟨by rw [h.maps]; exact hget, t, ht, htid.trans hid, hta ▸ ha.quieter h⟩

theorem Holds.quieter (h : Quieter n m) : ∀ {pc : Pc}, Holds options closed n pc →
    Holds options closed m pc
  | .idle, _ => trivial
  | .subscribeStopping r map, ⟨h₁, h₂⟩ => by
    refine ⟨h₁.quieter h, ?_⟩
    rw [h.subscriptions]
    refine h₂.imp_right fun h₂ => ⟨h₂.1, h₂.2.imp_left fun hs => ?_⟩
    cases hm : m.socketOpen with
    | false => rfl
    | true => rw [h.socket hm] at hs; cases hs
  | .subscribeAuthorizing _ _ _, h₁ | .subscribeSourcing _ _ _ _, h₁ => Vacant.quieter h h₁
  | .subscribeStarting r map a g, ⟨h₁, s, hs, hid⟩ => by
    obtain ⟨t, ht, htid, -⟩ := h.subscription hs
    exact ⟨h₁.quieter h, t, ht, htid.trans hid⟩
  | .subscribeFailing _ _ _ _, h₁ | .unsubscribeStopping _, h₁ => Placed.quieter h h₁
  | .resyncAuthorizing _ _ _, h₁ => Replaceable.quieter h h₁
  | .resyncStopping _ _ _, ⟨h₁, h₂⟩ | .resyncSourcing _ _ _ _, ⟨h₁, h₂⟩ =>
    ⟨h₁.quieter h, h₂.quieter h⟩
  | .resyncStarting _ _ _ _, ⟨h₁, h₂, s, t, hs, ht, hid, ha⟩ => by
    obtain ⟨s', hs', hsid, hsa⟩ := h.subscription hs
    obtain ⟨t', ht', htid, hta⟩ := h.subscription ht
    exact ⟨h₁.quieter h, h₂.quieter h, s', t', hs', ht', by rw [htid, hid, hsid],
      by rw [hta, ha, hsa]⟩
  | .resyncFailing _ _ _, ⟨h₁, h₂⟩ => ⟨h₁.quieter h, h₂.quieter h⟩

/-- A node that has calmed down, at another program counter. -/
theorem Owned.goto (h : Owned options closed n) (hq : Quieter n m)
    (hholds : Holds options closed m m.pc)
    (hkept : ∀ g, inRequest g n.pc → Runs m g → inRequest g m.pc) : Owned options closed m := by
  refine ⟨hholds, fun g hr => ?_, fun map id g hg => ?_, by rw [hq.maps]; exact h.bound,
    hq.fresh h.fresh⟩
  · rcases h.owned g (hq.runs hr) with hs | hin
    · exact .inl (hq.stored.mpr hs)
    · exact .inr (hkept g hin hr)
  · rw [hq.maps] at hg
    obtain ⟨s, hs, hid⟩ := h.keyed map id g hg
    obtain ⟨t, ht, htid, -⟩ := hq.subscription hs
    exact ⟨t, ht, htid.trans hid⟩

theorem Owned.quieter (h : Owned options closed n) (hq : Quieter n m) (hpc : m.pc = n.pc) :
    Owned options closed m :=
  h.goto hq (by rw [hpc]; exact h.holds.quieter hq) fun g hin _ => by rw [hpc]; exact hin

theorem quieter_finish (n : Node) (r : Option ResyncRequest) (id : SubscriptionId)
    (result : Except Text Snapshot) : Quieter n (n.finish r id result) :=
  quieter_of_eq rfl rfl rfl (fun _ h => h) (fun h => h) (fun _ h => h) rfl

theorem quieter_pc (n : Node) (pc : Pc) : Quieter n { n with pc := pc } :=
  quieter_of_eq rfl rfl rfl (fun _ h => h) (fun h => h) (fun _ h => h) rfl

/-- A request ends; what it had started is stopped. -/
theorem Owned.finish (h : Owned options closed n) (r : Option ResyncRequest) (id : SubscriptionId)
    (result : Except Text Snapshot) (hpc : ∀ g, ¬ inRequest g n.pc) :
    Owned options closed (n.finish r id result) :=
  h.goto (quieter_finish n r id result) trivial fun g hin => absurd hin (hpc g)

theorem Owned.untrack (h : Owned options closed n) (hpc : n.pc = .idle) :
    Owned options closed (n.untrackPending a) :=
  ⟨by rw [show (n.untrackPending a).pc = .idle from hpc]; trivial, h.owned, h.keyed, h.bound,
    h.fresh⟩

theorem get_setMap (n : Node) (map k : MapId) (x : OMap SubscriptionId Generation) :
    (n.setMap map x).maps k = if k = map then x else n.maps k := rfl

theorem get_setMap_self (n : Node) (map : MapId) (x : OMap SubscriptionId Generation) :
    (n.setMap map x).maps map = x := if_pos rfl

/-- What is stored, in a map of the node. -/
theorem stored_iff : Stored n g ↔ ∃ map id, n.subscriptions = some map ∧
    (n.maps map).get id = some g := by
  unfold Stored Node.nodeSubscriptions
  cases n.subscriptions with
  | none => simp
  | some map => simp

/-- What does not run is taken out of a map. -/
theorem Owned.delete (h : Owned options closed n) (hs : Silenced n map id)
    (hh : Holds options closed (n.setMap map ((n.maps map).delete id)) n.pc) :
    Owned options closed (n.setMap map ((n.maps map).delete id)) := by
  refine ⟨hh, fun g hr => ?_, fun k i g hg => ?_, fun k => ?_, h.fresh⟩
  · rcases h.owned g hr with hst | hin
    · obtain ⟨k, i, hk, hg⟩ := stored_iff.mp hst
      refine .inl (stored_iff.mpr ⟨k, i, hk, ?_⟩)
      rw [get_setMap]
      split
      · next hkm =>
        subst hkm
        rw [OMap.get_delete]
        split
        · next hi => subst hi; exact absurd hr (hs g hg)
        · exact hg
      · exact hg
    · exact .inr hin
  · rw [get_setMap] at hg
    split at hg
    · rw [OMap.get_delete] at hg
      split at hg
      · cases hg
      · exact h.keyed map i g hg
    · exact h.keyed k i g hg
  · rw [get_setMap]
    split
    · exact (OMap.size_delete_le _ _).trans (h.bound map)
    · exact h.bound k

/-- A subscription of the request is put into the map of the node. -/
theorem Owned.store (h : Owned options closed n) (hmap : n.subscriptions = some map)
    {s : Subscription} (hg : n.heap g = some s) (hid : s.id = id) (hs : Silenced n map id)
    (hin : ∀ k, inRequest k n.pc → k = g)
    (hroom : ((n.maps map).set id g).size ≤ options.maxSubscriptionsPerConnection)
    (r : Option ResyncRequest) (result : Except Text Snapshot) :
    Owned options closed ((n.setMap map ((n.maps map).set id g)).finish r id result) := by
  refine ⟨trivial, fun k hr => ?_, fun k i x hx => ?_, fun k => ?_, h.fresh⟩
  · refine .inl (stored_iff.mpr ?_)
    have hkeep : ∀ i, (n.maps map).get i = some k → ((n.maps map).set id g).get i = some k := by
      intro i hi
      rw [OMap.get_set]
      split
      · next hii => subst hii; exact absurd hr (hs k hi)
      · exact hi
    rcases h.owned k hr with hst | hk
    · obtain ⟨map', i, hm, hi⟩ := stored_iff.mp hst
      rw [hmap, Option.some.injEq] at hm
      subst hm
      refine ⟨map, i, hmap, ?_⟩
      rw [show ((n.setMap map ((n.maps map).set id g)).finish r id result).maps map =
        (n.maps map).set id g from if_pos rfl]
      exact hkeep i hi
    · obtain rfl := hin k hk
      refine ⟨map, id, hmap, ?_⟩
      rw [show ((n.setMap map ((n.maps map).set id k)).finish r id result).maps map =
        (n.maps map).set id k from if_pos rfl]
      exact OMap.get_set_self ..
  · change (if k = map then (n.maps map).set id g else n.maps k).get i = some x at hx
    split at hx
    · rw [OMap.get_set] at hx
      split at hx
      · next hi => cases hx; exact ⟨s, hg, hid.trans hi.symm⟩
      · exact h.keyed map i x hx
    · exact h.keyed k i x hx
  · change (if k = map then (n.maps map).set id g else n.maps k).size ≤ _
    split
    · exact hroom
    · exact h.bound k

/-! ## `subscribe` -/

theorem owned_subscribeFail (h : Owned options closed n) (r : SubscribeRequest)
    (hp : Placed n map) (o : Option Generation) (hin : ∀ g, inRequest g n.pc → o = some g)
    (error : Text) : Owned options closed (n.subscribeFail r map a o error) := by
  have hq : Quieter n (n.subscribeFail r map a o error) := by
    refine (quieter_abort n a).trans ?_
    cases o with
    | none => exact quieter_pc _ _
    | some g => exact (quieter_stopObserver _ g).trans (quieter_pc _ _)
  refine h.goto hq (hp.quieter hq) fun g hg hr => ?_
  -- The observer of the request was stopped.
  obtain rfl := hin g hg
  obtain ⟨t, ht, hrun⟩ := hr
  obtain ⟨s, -, rfl⟩ : ∃ s, n.heap g = some s ∧ { s with observer := s.observer.stop } = t := by
    simpa [Node.subscribeFail, Node.stopObserver, Node.modify, Node.abort] using ht
  have := hrun.2
  simp [Delivery.stop_stopped] at this

theorem owned_subscribeAuthorize (h : Owned options closed n) (r : SubscribeRequest)
    (hpc : ∀ g, ¬ inRequest g n.pc) (hfree : (n.maps map).get r.subscriptionId = none)
    (hmap : n.subscriptions = some map ∨
      n.subscriptions = none ∧ (n.socketOpen = false ∨ closed = true)) :
    Owned options closed (n.subscribeAuthorize options r map) := by
  unfold Node.subscribeAuthorize
  split
  · exact h.finish none _ _ hpc
  · next hroom =>
    refine h.goto (quieter_of_eq rfl rfl rfl (fun _ ha => List.mem_cons_of_mem _ ha) (fun hs => hs)
      (fun _ ha => ha) rfl) ⟨List.mem_cons_self .., hfree, Nat.lt_of_not_le hroom, ?_⟩
      fun g hin => absurd hin (hpc g)
    refine hmap.imp_right fun hgone => ⟨hgone.1, ?_⟩
    rcases hgone.2 with hs | hc
    · simp [Node.isActive, Node.trackPending, hs]
    · simp [Node.isActive, hc]

/-- `stopSubscription` stops the observer. -/
theorem not_runs_stopSubscription (n : Node) (g : Generation) : ¬ Runs (n.stopSubscription g) g := by
  rintro ⟨t, ht, hrun⟩
  unfold Node.stopSubscription at ht
  split at ht
  · next s hs =>
    obtain ⟨s', -, rfl⟩ : ∃ s', n.heap g = some s' ∧
        { s' with pressureTimer := false, observer := s'.observer.stop } = t := by
      simpa [Node.modify, Node.abort] using ht
    have := hrun.2
    simp [Delivery.stop_stopped] at this
  · next hs => rw [hs] at ht; cases ht

/-- The request waits for the subscription that it replaces. -/
theorem owned_subscribeStopping (h : Owned options closed n) (r : SubscribeRequest) (hpc : n.pc = .idle) {map : ℕ}
    {g : Generation} (hmap : n.subscriptions = some map) (hg : (n.maps map).get r.subscriptionId = some g) :
    Owned options closed { n.stopSubscription g with pc := .subscribeStopping r map } := by
  have hidle : ∀ g, ¬ inRequest g n.pc := by rw [hpc]; exact fun _ => id
  have hq := (quieter_stopSubscription n g).trans (quieter_pc _ (.subscribeStopping r map))
  refine h.goto hq ⟨fun g' hg' hr => ?_, .inl (hq.subscriptions.trans hmap)⟩ fun g hin =>
    absurd hin (hidle g)
  rw [hq.maps, hg, Option.some.injEq] at hg'
  subst hg'
  exact not_runs_stopSubscription n g hr

theorem owned_subscribe (h : Owned options closed n) (r : SubscribeRequest) (hpc : n.pc = .idle) :
    Owned options closed (n.subscribe closed options r) := by
  have hidle : ∀ g, ¬ inRequest g n.pc := by rw [hpc]; exact fun _ => id
  simp only [Node.subscribe]
  split
  · exact h.finish none _ _ hidle
  · split
    · exact h.finish none _ _ hidle
    · split
      · exact h.finish none _ _ hidle
      · split
        · exact h.finish none _ _ hidle
        · cases hmap : n.subscriptions with
          | some map =>
            dsimp only
            split
            · next g hg => exact owned_subscribeStopping h r hpc hmap hg
            · next hfree => exact owned_subscribeAuthorize h r hidle hfree (.inl hmap)
          | none =>
            have hmade : Owned options closed ({ n with
                subscriptions := some n.nextMap
                nextMap := n.nextMap + 1 }.setMap n.nextMap OMap.empty) := by
              -- Nothing runs in a node without a map and a request.
              have hnone : ∀ g, ¬ Runs n g := fun g hr => by
                rcases h.owned g hr with hst | hin
                · obtain ⟨map, id, hm, -⟩ := stored_iff.mp hst
                  rw [hmap] at hm
                  cases hm
                · exact hidle g hin
              refine ⟨?_, fun g hr => absurd hr (hnone g), fun k i g hg => ?_, fun k => ?_, h.fresh⟩
              · change Holds _ _ _ n.pc
                rw [hpc]
                trivial
              · change (if k = n.nextMap then OMap.empty else n.maps k).get i = some g at hg
                split at hg
                · cases hg
                · exact h.keyed k i g hg
              · change (if k = n.nextMap then OMap.empty else n.maps k).size ≤ _
                split
                · exact Nat.zero_le _
                · exact h.bound k
            dsimp only
            split
            · next g hg => exact owned_subscribeStopping hmade r hpc rfl hg
            · next hfree => exact owned_subscribeAuthorize hmade r hidle hfree (.inl rfl)

theorem Attached.placed (h : Attached closed n map a) : Placed n map := h.imp_right And.left

/-- An active request has the map of the node. -/
theorem Attached.active (h : Attached closed n map a) (ha : n.isActive closed a = true) :
    n.subscriptions = some map := by
  rcases h with h | ⟨-, h⟩
  · exact h
  · rw [ha] at h; cases h

theorem quieter_create (hf : Fresh n) (id : SubscriptionId) (a : AuthorizationId)
    (ordered typed windowed : Bool) :
    Quieter n (n.createSubscription options id a ordered typed windowed) := by
  refine ⟨rfl, rfl, fun _ h => h, fun h => h, fun _ h => h, fun {g s} hs => ⟨s, ?_, rfl, rfl⟩,
    fun {g} hr => ?_, fun _ g hg => ?_⟩
  · have hne : g ≠ n.nextGeneration := fun h => by rw [hf g h.ge] at hs; cases hs
    rw [Node.createSubscription]
    exact (if_neg hne).trans hs
  · obtain ⟨t, ht, hrun⟩ := hr
    simp only [Node.createSubscription] at ht
    split at ht
    · cases ht
      exact absurd rfl hrun.1
    · exact ⟨t, ht, hrun⟩
  · have hg : n.nextGeneration + 1 ≤ g := hg
    exact (if_neg (Nat.ne_of_gt hg)).trans (hf g (Nat.le_of_succ_le hg))

/-- The request starts an observer. -/
theorem owned_startObserver (h : Owned options closed n) (hpc : ∀ k, ¬ inRequest k n.pc) {pc : Pc}
    (hin : inRequest g pc) (hh : Holds options closed { n.startObserver g with pc := pc } pc) :
    Owned options closed { n.startObserver g with pc := pc } := by
  refine ⟨hh, fun k hr => ?_, fun m i x hx => ?_, h.bound, fun k hk => ?_⟩
  · by_cases hkg : k = g
    · exact .inr (hkg ▸ hin)
    · obtain ⟨t, ht, hrun⟩ := hr
      have hold : n.heap k = some t := by simpa [Node.startObserver, Node.modify, hkg] using ht
      exact .inl ((h.owned k ⟨t, hold, hrun⟩).resolve_right (hpc k))
  · obtain ⟨s, hs, hid⟩ := h.keyed m i x hx
    simp only [Node.startObserver, Node.modify, hs]
    split <;> exact ⟨_, rfl, hid⟩
  · have := h.fresh k hk
    simp [Node.startObserver, Node.modify, this]

theorem owned_subscribeSource (h : Owned options closed n) {r : SubscribeRequest}
    (hpc : n.pc = .subscribeAuthorizing r map a) (windowed : Bool) :
    Owned options closed (n.subscribeSource closed r map a windowed) := by
  have hv := h.holds
  rw [hpc] at hv
  have hno : ∀ g, inRequest g n.pc → (none : Option Generation) = some g := by simp [hpc, inRequest]
  unfold Node.subscribeSource
  split
  · exact owned_subscribeFail h r hv.attached.placed none hno _
  · split
    · exact owned_subscribeFail h r hv.attached.placed none hno _
    · refine h.goto (quieter_pc n _) (Vacant.quieter (quieter_pc n _) hv) fun g hin => ?_
      simp [hpc, inRequest] at hin

theorem owned_subscribeStart (h : Owned options closed n) {r : SubscribeRequest} {windowed : Bool}
    (hpc : n.pc = .subscribeSourcing r map a windowed) :
    Owned options closed (n.subscribeStart closed options r map a windowed) := by
  have hq := @quieter_create options n h.fresh r.subscriptionId a r.orderedWindows r.typedObjectIds
    windowed
  have hcreated := h.quieter hq rfl
  have hv : Vacant options closed _ r.subscriptionId map a := Vacant.quieter hq
    (show Vacant options closed n r.subscriptionId map a by simpa [hpc, Holds] using h.holds)
  have hno : ∀ g, ¬ inRequest g n.pc := by simp [hpc, inRequest]
  simp only [Node.subscribeStart]
  split
  · exact owned_subscribeFail hcreated r hv.attached.placed _ (fun g hin => absurd hin (hno g)) _
  · refine owned_startObserver hcreated hno rfl ⟨⟨hv.pending, hv.free, hv.room, hv.attached⟩, ?_⟩
    simp [Node.startObserver, Node.modify, Node.createSubscription]

theorem owned_subscribeStore (h : Owned options closed n) {r : SubscribeRequest}
    (hpc : n.pc = .subscribeStarting r map a g) (snapshot : Snapshot) :
    Owned options closed (n.subscribeStore closed r map a g snapshot) := by
  have hh := h.holds
  rw [hpc] at hh
  obtain ⟨hv, s, hs, hid⟩ := hh
  unfold Node.subscribeStore
  split
  · refine owned_subscribeFail h r hv.attached.placed (some g) (fun k hin => ?_) _
    rw [hpc] at hin
    exact congrArg some hin
  · next hactive =>
    have hsilent : Silenced n map r.subscriptionId := fun k hk => by rw [hv.free] at hk; cases hk
    refine Owned.untrack (n := (n.setMap map ((n.maps map).set r.subscriptionId g)).finish none
      r.subscriptionId (.ok snapshot)) ?_ rfl
    refine h.store (hv.attached.active (by simpa using hactive)) hs hid hsilent (fun k hin => ?_) ?_ _ _
    · rw [hpc] at hin
      exact hin.symm
    · rw [OMap.size_set, hv.free]
      exact hv.room

/-- The node loses its map, which has no entry. -/
theorem Owned.drop (h : Owned options closed n) (hp : Placed n map) (hempty : (n.maps map).size = 0)
    (hpc : n.pc = .idle) : Owned options closed { n with subscriptions := none } := by
  have hnone : ∀ i, (n.maps map).get i = none := fun i => by
    rw [OMap.size, List.length_eq_zero_iff] at hempty
    rw [OMap.get, hempty]
    rfl
  refine ⟨by rw [show ({ n with subscriptions := none } : Node).pc = .idle from hpc]; trivial,
    fun g hr => ?_, h.keyed, h.bound, h.fresh⟩
  rcases h.owned g hr with hst | hin
  · obtain ⟨k, i, hk, hg⟩ := stored_iff.mp hst
    rcases hp with hm | hm
    · rw [hm, Option.some.injEq] at hk
      subst hk
      rw [hnone i] at hg
      cases hg
    · rw [hm] at hk
      cases hk
  · rw [hpc] at hin
    exact hin.elim

theorem owned_subscribeThrow (h : Owned options closed n) {r : SubscribeRequest} {error : Text}
    (hpc : n.pc = .subscribeFailing r map a error) :
    Owned options closed (n.subscribeThrow r map a error) := by
  have hp : Placed n map := by simpa [hpc, Holds] using h.holds
  have hfin := h.finish none r.subscriptionId (.error error) (by simp [hpc, inRequest])
  unfold Node.subscribeThrow
  dsimp only
  split
  · next hempty =>
    have hd := Owned.untrack (a := a) (Owned.drop hfin hp hempty rfl) rfl
    exact ⟨hd.holds, hd.owned, hd.keyed, hd.bound, hd.fresh⟩
  · exact Owned.untrack hfin rfl

/-! ## `resync` -/

theorem owned_resync (h : Owned options closed n) (r : ResyncRequest) (hpc : n.pc = .idle) :
    Owned options closed (n.resync r) := by
  have hidle : ∀ g, ¬ inRequest g n.pc := by rw [hpc]; exact fun _ => id
  simp only [Node.resync]
  split
  · exact h.finish _ _ _ hidle
  · split
    · exact h.finish _ _ _ hidle
    · next map hmap =>
      split
      · exact h.finish _ _ _ hidle
      · next previous hprev =>
        split
        · exact h.finish _ _ _ hidle
        · split
          · exact h.finish _ _ _ hidle
          · obtain ⟨s, hs, hid⟩ := h.keyed map _ previous hprev
            exact h.goto (quieter_pc n _) ⟨hprev, s, hs, hid, .inl hmap⟩ fun g hin =>
              absurd hin (hidle g)

theorem Silenced.of_eq (h : (n.maps map).get id = some g) (hg : ¬ Runs n g) : Silenced n map id :=
  fun k hk => by rw [h, Option.some.injEq] at hk; exact hk ▸ hg

theorem not_runs_stopObserver (n : Node) (g : Generation) : ¬ Runs (n.stopObserver g) g := by
  rintro ⟨t, ht, hrun⟩
  obtain ⟨s, -, rfl⟩ : ∃ s, n.heap g = some s ∧ { s with observer := s.observer.stop } = t := by
    simpa [Node.stopObserver, Node.modify] using ht
  have := hrun.2
  simp [Delivery.stop_stopped] at this

theorem owned_resyncStop (h : Owned options closed n) {r : ResyncRequest}
    (hpc : n.pc = .resyncAuthorizing r map g) :
    Owned options closed { n.stopObserver g with pc := .resyncStopping r map g } := by
  have hq := (quieter_stopObserver n g).trans (quieter_pc _ (.resyncStopping r map g))
  have hr : Replaceable closed n r.subscriptionId map g := by simpa [hpc, Holds] using h.holds
  have hr := hr.quieter hq
  refine h.goto hq ⟨hr, Silenced.of_eq hr.1 (not_runs_stopObserver n g)⟩ fun k hin => ?_
  simp [hpc, inRequest] at hin

theorem owned_resyncSource (h : Owned options closed n) {r : ResyncRequest}
    (hpc : n.pc = .resyncStopping r map g) (windowed : Bool) :
    Owned options closed (n.resyncSource r map g windowed) := by
  have hno : ∀ k, ¬ inRequest k n.pc := by simp [hpc, inRequest]
  have hq : Quieter n (n.modify g fun s => { s with pressureTimer := false }) :=
    quieter_modify n g fun s _ => ⟨rfl, rfl, fun h => h⟩
  have hn := h.quieter hq rfl
  obtain ⟨hr, hs⟩ : Replaceable closed n r.subscriptionId map g ∧ Silenced n map r.subscriptionId := by
    simpa [hpc, Holds] using h.holds
  simp only [Node.resyncSource]
  split
  · exact hn
  · split
    · exact hn.finish _ _ _ hno
    · exact hn.goto (quieter_pc _ _) ⟨(hr.quieter hq).quieter (quieter_pc _ _),
        (hs.quieter hq).quieter (quieter_pc _ _)⟩ fun k hin => absurd hin (hno k)

theorem owned_resyncStart (h : Owned options closed n) {r : ResyncRequest} {windowed : Bool}
    (hpc : n.pc = .resyncSourcing r map g windowed) :
    Owned options closed (n.resyncStart options r map g windowed) := by
  have hno : ∀ k, ¬ inRequest k n.pc := by simp [hpc, inRequest]
  obtain ⟨hr, hs⟩ : Replaceable closed n r.subscriptionId map g ∧ Silenced n map r.subscriptionId := by
    simpa [hpc, Holds] using h.holds
  obtain ⟨hget, s, hheap, hid, hatt⟩ := hr
  have hne : g ≠ n.nextGeneration := fun he => by rw [h.fresh g he.ge] at hheap; cases hheap
  simp only [Node.resyncStart, hheap]
  have hq := @quieter_create options n h.fresh s.id s.authorization s.supportsOrderedWindows
    s.supportsTypedObjectIds windowed
  obtain ⟨t, ht, htid, hta⟩ : ∃ t, ((n.createSubscription options s.id s.authorization
      s.supportsOrderedWindows s.supportsTypedObjectIds windowed).startObserver n.nextGeneration).heap
        n.nextGeneration = some t ∧ t.id = s.id ∧ t.authorization = s.authorization := by
    simp [Node.startObserver, Node.modify, Node.createSubscription]
  refine owned_startObserver (h.quieter hq rfl) hno rfl
    ⟨⟨hget, s, ?_, hid, hatt⟩, ?_, s, t, ?_, ht, htid, hta⟩
  · simpa [Node.startObserver, Node.modify, Node.createSubscription, hne] using hheap
  · intro k hk hrun
    obtain rfl : g = k := by rw [← Option.some.injEq, ← hget]; exact hk
    refine hs g hget ?_
    obtain ⟨t, ht, hrun⟩ := hrun
    exact ⟨t, by simpa [Node.startObserver, Node.modify, Node.createSubscription, hne] using ht, hrun⟩
  · simpa [Node.startObserver, Node.modify, Node.createSubscription, hne] using hheap

theorem owned_resyncFail (h : Owned options closed n) {r : ResyncRequest} {k : Generation}
    (hpc : n.pc = .resyncStarting r map k g) (error : Text) :
    Owned options closed (n.resyncFail r map g error) := by
  have hq := (quieter_stopObserver n g).trans (quieter_pc _ (.resyncFailing r map error))
  have hh := h.holds
  rw [hpc] at hh
  obtain ⟨⟨-, s, -, -, hatt⟩, hs, -⟩ := hh
  refine h.goto hq ⟨hatt.placed.quieter hq, hs.quieter hq⟩ fun x hin hr => ?_
  rw [hpc] at hin
  obtain rfl : g = x := hin
  exact not_runs_stopObserver n g hr

theorem owned_resyncStore (h : Owned options closed n) {r : ResyncRequest} {k : Generation}
    (hpc : n.pc = .resyncStarting r map k g) (snapshot : Snapshot) :
    Owned options closed (n.resyncStore closed r map g snapshot) := by
  have hh := h.holds
  rw [hpc] at hh
  obtain ⟨⟨hget, s, hs, hid, hatt⟩, hsil, s', t, hs', ht, htid, hta⟩ := hh
  obtain rfl : s = s' := by rw [hs, Option.some.injEq] at hs'; exact hs'
  simp only [Node.resyncStore, ht]
  split
  · exact owned_resyncFail h hpc _
  · next hactive =>
    have hactive : n.isActive closed s.authorization = true := by rw [← hta]; simpa using hactive
    have hstored := h.store (hatt.active hactive) ht (htid.trans hid) hsil (fun x hin => by
      rw [hpc] at hin; exact hin.symm) (by
        rw [OMap.size_set, hget]; exact h.bound map) (some r) (.ok snapshot)
    rw [htid, hid]
    exact ⟨trivial, hstored.owned, hstored.keyed, hstored.bound, hstored.fresh⟩

theorem owned_resyncThrow (h : Owned options closed n) {r : ResyncRequest} {error : Text}
    (hpc : n.pc = .resyncFailing r map error) : Owned options closed (n.resyncThrow r map error) := by
  obtain ⟨hp, hs⟩ : Placed n map ∧ Silenced n map r.subscriptionId := by
    simpa [hpc, Holds] using h.holds
  have hgone : Silenced (n.setMap map ((n.maps map).delete r.subscriptionId)) map r.subscriptionId := by
    intro g hg
    rw [get_setMap_self, OMap.get_delete, if_pos rfl] at hg
    cases hg
  exact (h.delete hs (by rw [hpc]; exact ⟨hp, hgone⟩)).finish _ _ _ (by
    change ∀ g, ¬ inRequest g n.pc
    simp [hpc, inRequest])

/-! ## `unsubscribe` -/

theorem owned_unsubscribe (h : Owned options closed n) (id : SubscriptionId) (hpc : n.pc = .idle) :
    Owned options closed (n.unsubscribe id) := by
  unfold Node.unsubscribe
  split
  · exact h
  · split
    · exact h
    · next map hmap =>
      split
      · exact h
      · next g hg =>
        -- The entry is deleted before the observer is stopped, but nothing comes between.
        have hq := quieter_stopSubscription n g
        have hcomm : (n.setMap map ((n.maps map).delete id)).stopSubscription g =
            (n.stopSubscription g).setMap map (((n.stopSubscription g).maps map).delete id) := by
          rw [hq.maps]
          unfold Node.stopSubscription
          rw [show (n.setMap map ((n.maps map).delete id)).heap g = n.heap g from rfl]
          split <;> rfl
        have hpc' : (n.stopSubscription g).pc = .idle := by
          unfold Node.stopSubscription
          split <;> exact hpc
        have hsil : Silenced (n.stopSubscription g) map id :=
          Silenced.of_eq (by rw [hq.maps]; exact hg) (not_runs_stopSubscription n g)
        have hdel := (h.quieter hq (by rw [hpc', hpc])).delete hsil (by rw [hpc']; trivial)
        rw [hcomm]
        refine hdel.goto (quieter_pc _ _) (.inl (hq.subscriptions.trans hmap)) fun k hin => ?_
        change inRequest k (n.stopSubscription g).pc at hin
        rw [hpc'] at hin
        exact hin.elim

theorem owned_unsubscribed (h : Owned options closed n) (hpc : n.pc = .unsubscribeStopping map) :
    Owned options closed (n.unsubscribed map) := by
  have hp : Placed n map := by simpa [hpc, Holds] using h.holds
  have hidle : Owned options closed { n with pc := .idle } :=
    h.goto (quieter_pc n .idle) trivial fun g hin => by simp [hpc, inRequest] at hin
  unfold Node.unsubscribed
  split
  · next hempty => exact Owned.drop hidle hp hempty rfl
  · exact hidle

/-! ## Every await -/

theorem owned_settle (h : Owned options closed n) {settlement : Settlement}
    (hs : n.settle closed options settlement = some m) : Owned options closed m := by
  unfold Node.settle at hs
  have hno : ∀ {pc}, n.pc = pc → (∀ g, ¬ inRequest g pc) → ∀ g, ¬ inRequest g n.pc :=
    fun hpc hno => hpc ▸ hno
  split at hs
  · cases hs
  · next r map _ hpc =>
    cases hs
    obtain ⟨hsil, hmap⟩ : Silenced n map r.subscriptionId ∧ (n.subscriptions = some map ∨
        n.subscriptions = none ∧ (n.socketOpen = false ∨ closed = true)) := by
      simpa [hpc, Holds] using h.holds
    have hfree : ((n.setMap map ((n.maps map).delete r.subscriptionId)).maps map).get
        r.subscriptionId = none := by
      rw [get_setMap_self, OMap.get_delete, if_pos rfl]
    refine owned_subscribeAuthorize (h.delete hsil ?_) r (hno hpc (by simp [inRequest])) hfree hmap
    rw [hpc]
    exact ⟨fun g hg => (by rw [hfree] at hg; cases hg), hmap⟩
  · next r map a windowed hpc => cases hs; exact owned_subscribeSource h hpc windowed
  · next r map a error hpc =>
    cases hs
    have hv : Vacant options closed n r.subscriptionId map a := by simpa [hpc, Holds] using h.holds
    exact owned_subscribeFail h r hv.attached.placed none (by simp [hpc, inRequest]) error
  · next r map a _ error hpc =>
    cases hs
    have hv : Vacant options closed n r.subscriptionId map a := by simpa [hpc, Holds] using h.holds
    exact owned_subscribeFail h r hv.attached.placed none (by simp [hpc, inRequest]) error
  · next r map a windowed _ hpc => cases hs; exact owned_subscribeStart h hpc
  · next r map a g _ hpc =>
    obtain ⟨result, -, rfl⟩ := Option.map_eq_some_iff.mp hs
    cases result with
    | ok snapshot => exact owned_subscribeStore h hpc snapshot
    | error error =>
      have hh := h.holds
      rw [hpc] at hh
      refine owned_subscribeFail h r hh.1.attached.placed (some g) (fun k hin => ?_) error
      rw [hpc] at hin
      exact congrArg some hin
  · next r map a error _ hpc => cases hs; exact owned_subscribeThrow h hpc
  · next r map p _ hpc => cases hs; exact owned_resyncStop h hpc
  · next r _ _ error hpc => cases hs; exact h.finish _ _ _ (hno hpc (by simp [inRequest]))
  · next r _ _ error hpc => cases hs; exact h.finish _ _ _ (hno hpc (by simp [inRequest]))
  · next r _ _ _ error hpc => cases hs; exact h.finish _ _ _ (hno hpc (by simp [inRequest]))
  · next r map p windowed hpc => cases hs; exact owned_resyncSource h hpc windowed
  · next r map p windowed _ hpc => cases hs; exact owned_resyncStart h hpc
  · next r map p g _ hpc =>
    obtain ⟨result, -, rfl⟩ := Option.map_eq_some_iff.mp hs
    cases result with
    | ok snapshot => exact owned_resyncStore h hpc snapshot
    | error error => exact owned_resyncFail h hpc error
  · next r map error _ hpc => cases hs; exact owned_resyncThrow h hpc
  · next map _ hpc => cases hs; exact owned_unsubscribed h hpc
  · cases hs

/-! ## Nodes that go -/

/-- All subscriptions of a list are stopped, and their requests cancelled. -/
theorem stopAll (gs : List Generation) (n : Node) :
    Quieter n (gs.foldl Node.stopSubscription n) ∧ (gs.foldl Node.stopSubscription n).pc = n.pc ∧
    ∀ g ∈ gs, ¬ Runs (gs.foldl Node.stopSubscription n) g ∧
      ∀ s, n.heap g = some s → s.authorization ∈ (gs.foldl Node.stopSubscription n).aborted := by
  induction gs generalizing n with
  | nil => exact ⟨.refl n, rfl, by simp⟩
  | cons x gs ih =>
    obtain ⟨hq, hpc, hall⟩ := ih (n.stopSubscription x)
    have hx := quieter_stopSubscription n x
    refine ⟨hx.trans hq, hpc.trans ?_, fun g hg => ?_⟩
    · unfold Node.stopSubscription
      split <;> rfl
    · rcases List.mem_cons.mp hg with rfl | hg
      · refine ⟨fun hr => not_runs_stopSubscription n g (hq.runs hr), fun s hs => hq.aborted _ ?_⟩
        simp only [Node.stopSubscription, hs]
        exact List.mem_cons_self ..
      · refine ⟨(hall g hg).1, fun s hs => ?_⟩
        obtain ⟨t, ht, -, hta⟩ := hx.subscription hs
        exact hta ▸ (hall g hg).2 t ht

/-- The map of the node is taken away. What it held is stopped, and the running
request is cancelled. -/
theorem Owned.leave (h : Owned options closed n) (hq : Quieter { n with subscriptions := none } m)
    (hpc : m.pc = n.pc) (hstop : ∀ g, Stored n g → ¬ Runs m g)
    (hcancel : closed = true ∨ (∀ a ∈ n.pendingAuthorizations, a ∈ m.aborted) ∧
      ∀ g s, Stored n g → n.heap g = some s → s.authorization ∈ m.aborted)
    (hstopping : ∀ r map, n.pc = .subscribeStopping r map → m.socketOpen = false ∨ closed = true) :
    Owned options closed m := by
  have hnone : m.subscriptions = none := hq.subscriptions
  have hinactive : ∀ a, closed = true ∨ a ∈ m.aborted → m.isActive closed a = false := by
    rintro a (hc | ha)
    · simp [Node.isActive, hc]
    · simp [Node.isActive, ha]
  have hvacant : ∀ {id map a}, Vacant options closed n id map a → Vacant options closed m id map a :=
    fun {id map a} hv => ⟨hq.pending a hv.pending, by rw [hq.maps]; exact hv.free,
      by rw [hq.maps]; exact hv.room,
      .inr ⟨hnone, hinactive a (hcancel.imp_right fun hc => hc.1 a hv.pending)⟩⟩
  have hreplace : ∀ {id map p}, Replaceable closed n id map p → Replaceable closed m id map p := by
    rintro id map p ⟨hget, s, hs, hid, hatt⟩
    obtain ⟨t, ht, htid, hta⟩ := hq.subscription hs
    refine ⟨by rw [hq.maps]; exact hget, t, ht, htid.trans hid, .inr ⟨hnone, ?_⟩⟩
    rw [hta]
    rcases hatt with hmap | ⟨hgone, hina⟩
    · exact hinactive _ (hcancel.imp_right fun hc =>
        hc.2 p s (stored_iff.mpr ⟨map, id, hmap, hget⟩) hs)
    · exact hq.inactive hina
  have hsilent : ∀ {id map}, Silenced n map id → Silenced m map id := fun hs g hg hr =>
    hs g (by rw [hq.maps] at hg; exact hg) (hq.runs hr)
  refine ⟨?_, fun g hr => ?_, fun map id g hg => ?_, by rw [hq.maps]; exact h.bound,
    hq.fresh h.fresh⟩
  · have hh := h.holds
    rw [hpc]
    cases hpc : n.pc with
    | idle => trivial
    | subscribeStopping r map =>
      rw [hpc] at hh
      exact ⟨hsilent hh.1, .inr ⟨hnone, hstopping r map hpc⟩⟩
    | subscribeAuthorizing r map a => rw [hpc] at hh; exact hvacant hh
    | subscribeSourcing r map a w => rw [hpc] at hh; exact hvacant hh
    | subscribeStarting r map a g =>
      rw [hpc] at hh
      obtain ⟨hv, s, hs, hid⟩ := hh
      obtain ⟨t, ht, htid, -⟩ := hq.subscription hs
      exact ⟨hvacant hv, t, ht, htid.trans hid⟩
    | subscribeFailing r map a e => exact .inr hnone
    | resyncAuthorizing r map p => rw [hpc] at hh; exact hreplace hh
    | resyncStopping r map p => rw [hpc] at hh; exact ⟨hreplace hh.1, hsilent hh.2⟩
    | resyncSourcing r map p w => rw [hpc] at hh; exact ⟨hreplace hh.1, hsilent hh.2⟩
    | resyncStarting r map p g =>
      rw [hpc] at hh
      obtain ⟨hr, hs, s, t, hheap, ht, hid, ha⟩ := hh
      obtain ⟨s', hs', hsid, hsa⟩ := hq.subscription hheap
      obtain ⟨t', ht', htid, hta⟩ := hq.subscription ht
      exact ⟨hreplace hr, hsilent hs, s', t', hs', ht', by rw [htid, hid, hsid],
        by rw [hta, ha, hsa]⟩
    | resyncFailing r map e => rw [hpc] at hh; exact ⟨.inr hnone, hsilent hh.2⟩
    | unsubscribeStopping map => exact .inr hnone
  · rcases h.owned g (hq.runs hr) with hst | hin
    · exact absurd hr (hstop g hst)
    · exact .inr (hpc ▸ hin)
  · rw [hq.maps] at hg
    obtain ⟨s, hs, hid⟩ := h.keyed map id g hg
    obtain ⟨t, ht, htid, -⟩ := hq.subscription hs
    exact ⟨t, ht, htid.trans hid⟩

theorem stored_of_values : Stored n g ↔ g ∈ n.nodeSubscriptions.values := OMap.mem_values.symm

theorem quieter_abortPending (n : Node) : Quieter n n.abortPending :=
  quieter_of_eq rfl rfl rfl (fun _ h => h) (fun h => h) (fun _ h => List.mem_append_right _ h) rfl

theorem owned_gone (h : Owned options closed n)
    (hstopping : ∀ r map, n.pc = .subscribeStopping r map → n.socketOpen = false) :
    Owned options closed (n.handleGone closed) := by
  unfold Node.handleGone
  split
  · exact h
  · unfold Node.stopNode
    cases hmap : n.subscriptions with
    | none =>
      rw [show n.abortPending.subscriptions = none from hmap]
      exact h.quieter (quieter_abortPending n) rfl
    | some map =>
      rw [show n.abortPending.subscriptions = some map from hmap]
      dsimp only
      have hvalues : n.nodeSubscriptions.values = (n.abortPending.maps map).values := by
        rw [Node.nodeSubscriptions, hmap]
        rfl
      obtain ⟨hq, hpc, hall⟩ := stopAll (n.abortPending.maps map).values
        { n.abortPending with subscriptions := none, resyncSnapshots := none }
      have hq₀ : Quieter { n with subscriptions := none }
          { n.abortPending with subscriptions := none, resyncSnapshots := none } :=
        quieter_of_eq rfl rfl rfl (fun _ h => h) (fun h => h) (fun _ h => List.mem_append_right _ h) rfl
      refine h.leave (hq₀.trans hq) hpc (fun g hg => ?_) (.inr ⟨fun a ha => ?_, fun g s hg hs => ?_⟩) ?_
      · exact (hall g (hvalues ▸ stored_of_values.mp hg)).1
      · exact hq.aborted a (List.mem_append_left _ ha)
      · exact (hall g (hvalues ▸ stored_of_values.mp hg)).2 s hs
      · intro r map' hpc'
        refine .inl ?_
        have hsock := hq.socket
        cases hm : (List.foldl Node.stopSubscription _ (n.abortPending.maps map).values).socketOpen with
        | false => rfl
        | true =>
          rw [← hstopping r map' hpc']
          exact (hsock hm).symm

theorem owned_close (h : Owned options true n) : Owned options true n.closeSubscriptions := by
  obtain ⟨hq, hpc, hall⟩ := stopAll n.nodeSubscriptions.values n
  have hq' : Quieter { n with subscriptions := none } n.closeSubscriptions :=
    ⟨rfl, hq.maps, hq.pending, hq.socket, hq.aborted, hq.subscription, hq.runs, hq.fresh⟩
  exact h.leave hq' hpc (fun g hg => (hall g (stored_of_values.mp hg)).1) (.inl rfl) fun _ _ _ =>
    .inr rfl

theorem Holds.close : ∀ {pc : Pc}, Holds options closed n pc → Holds options true n pc := by
  have hatt : ∀ {map a}, Attached closed n map a → Attached true n map a := fun h =>
    h.imp_right fun h => ⟨h.1, by simp [Node.isActive]⟩
  have hvac : ∀ {id map a}, Vacant options closed n id map a → Vacant options true n id map a :=
    fun h => ⟨h.pending, h.free, h.room, hatt h.attached⟩
  have hrep : ∀ {id map p}, Replaceable closed n id map p → Replaceable true n id map p :=
    fun ⟨h, s, hs, hid, ha⟩ => ⟨h, s, hs, hid, hatt ha⟩
  intro pc h
  cases pc with
  | idle => trivial
  | subscribeStopping r map => exact ⟨h.1, h.2.imp_right fun h => ⟨h.1, .inr rfl⟩⟩
  | subscribeAuthorizing r map a => exact hvac h
  | subscribeSourcing r map a w => exact hvac h
  | subscribeStarting r map a g => exact ⟨hvac h.1, h.2⟩
  | subscribeFailing r map a e => exact h
  | resyncAuthorizing r map p => exact hrep h
  | resyncStopping r map p => exact ⟨hrep h.1, h.2⟩
  | resyncSourcing r map p w => exact ⟨hrep h.1, h.2⟩
  | resyncStarting r map p g => exact ⟨hrep h.1, h.2⟩
  | resyncFailing r map e => exact h
  | unsubscribeStopping map => exact h

theorem owned_closed (h : Owned options closed n) : Owned options true n.abortPending :=
  Owned.quieter ⟨h.holds.close, h.owned, h.keyed, h.bound, h.fresh⟩ (quieter_abortPending n) rfl

/-! ## A step, and a run -/

/-- Every step of a node. -/
theorem owned_node (h : Owned options closed n) {act : Engine.Action}
    (hlogout : act = .logout → isStopping n.pc = false)
    (hs : n.step options closed act = some m) : Owned options closed m := by
  cases act with
  | subscribe r =>
    simp only [Node.step] at hs
    split at hs <;> cases hs
    next hpc => exact owned_subscribe h r hpc
  | resync r =>
    simp only [Node.step] at hs
    split at hs <;> cases hs
    next hpc => exact owned_resync h r hpc
  | unsubscribe id =>
    simp only [Node.step] at hs
    split at hs <;> cases hs
    next hpc => exact owned_unsubscribe h id hpc
  | settle settlement => exact owned_settle h hs
  | observer g a send attempt =>
    simp only [Node.step] at hs
    split at hs
    · next ha => exact h.quieter (quieter_observe ha hs) (observe_pc hs)
    · cases hs
  | timer g attempt =>
    simp only [Node.step] at hs
    split at hs
    · split at hs <;> cases hs
      have hq : Quieter n (n.modify g fun s => { s with pressureTimer := false }) :=
        quieter_modify n g fun s _ => ⟨rfl, rfl, fun h => h⟩
      exact h.quieter (hq.trans (quieter_attemptControl _ closed g attempt))
        (attemptControl_pc _ closed g attempt)
    · cases hs
  | login =>
    cases hs
    exact h.quieter (quieter_of_eq rfl rfl rfl (fun _ h => h) (fun h => h) (fun _ h => h) rfl) rfl
  | logout =>
    cases hs
    have hout : Owned options closed { n with authenticated := false } :=
      h.quieter (quieter_of_eq rfl rfl rfl (fun _ h => h) (fun h => h) (fun _ h => h) rfl) rfl
    refine owned_gone hout fun r map hpc => ?_
    have hno := hlogout rfl
    rw [show n.pc = .subscribeStopping r map from hpc] at hno
    cases hno
  | disconnect =>
    cases hs
    have hout : Owned options closed { n with socketOpen := false } :=
      h.quieter (quieter_of_eq rfl rfl rfl (fun _ h => h) (by simp) (fun _ h => h) rfl) rfl
    exact owned_gone hout fun r map hpc => rfl

end

theorem owned_connected (options : Options) (closed : Bool) : Owned options closed Node.connected := by
  refine ⟨trivial, ?_, ?_, fun _ => Nat.zero_le _, fun _ _ => rfl⟩
  · rintro g ⟨s, hs, -⟩
    cases hs
  · rintro map i g hg
    cases hg

/-- **The engine owns its observers.** In every run in which no node logs out while
its `subscribe` waits for the stop of an existing subscription: an observer that
was started and not stopped is stored under its node or belongs to the running
request of its node, and no node has more subscriptions than it may. -/
theorem engine_owns_observers {options : Options} {e : Engine.State}
    (h : (machine options).Reach noLogoutWhileStopping e) (id : NodeId) :
    (∀ g, Runs (e.nodes id) g → Stored (e.nodes id) g ∨ inRequest g (e.nodes id).pc) ∧
      (e.nodes id).nodeSubscriptions.size ≤ options.maxSubscriptionsPerConnection := by
  have hall : ∀ id, Owned options e.closed (e.nodes id) := by
    refine h.invariant (fun e => ∀ id, Owned options e.closed (e.nodes id)) (fun _ => ?_) ?_
    · exact owned_connected options false
    · intro e a e' hall hok hs id
      cases a with
      | node k act =>
        obtain ⟨n, hn, rfl⟩ := Option.map_eq_some_iff.mp hs
        dsimp only
        split
        · refine owned_node (hall k) (fun hact => ?_) hn
          subst hact
          exact hok
        · exact hall id
      | close =>
        cases hs
        split
        · exact hall id
        · exact owned_closed (hall id)
      | closeSubscriptions =>
        simp only [machine, Engine.step] at hs
        split at hs <;> cases hs
        next hc =>
        have := hall id
        rw [hc] at this
        dsimp only
        rw [hc]
        exact owned_close this
  refine ⟨(hall id).owned, ?_⟩
  unfold Node.nodeSubscriptions
  cases (e.nodes id).subscriptions with
  | none => exact Nat.zero_le _
  | some map => exact (hall id).bound map

instance (e : Engine.State) : ∀ a, Decidable (noLogoutWhileStopping e a)
  | .node id .logout => inferInstanceAs (Decidable (isStopping (e.nodes id).pc = false))
  | .node _ (.subscribe _) | .node _ (.resync _) | .node _ (.unsubscribe _) | .node _ (.settle _)
  | .node _ (.observer _ _ _ _) | .node _ (.timer _ _) | .node _ .login | .node _ .disconnect
  | .close | .closeSubscriptions => isTrue trivial

/-! ### Two runs -/

/-- A `subscribe` of a protected publication. -/
def request (id : SubscriptionId) : Engine.Action := .subscribe ⟨id, some true, true, true⟩

/-- Authorization, the source and an empty snapshot of generation `g`. -/
def untilSnapshot (g : Generation) : List Engine.Action :=
  [.settle (.fulfilled false), .settle (.fulfilled false),
    .observer g (.read []) .accepted ⟨.accepted, false⟩]

/-- The first node does these. -/
def onNode (as : List Engine.Action) : List EngineAction := as.map (.node 0)

theorem engine_owns_observers_logout : ∃ e, (machine ⟨2, 10⟩).Reach noLogoutWhileStopping e ∧
    Runs (e.nodes 0) 1 ∧ (Stored (e.nodes 0) 1 ∨ inRequest 1 (e.nodes 0).pc) ∧
      (e.nodes 0).nodeSubscriptions.size ≤ 2 := by
  obtain ⟨e, he, hP⟩ := (machine ⟨2, 10⟩).exists_of_exec noLogoutWhileStopping
    ⟨fun _ => Node.connected, false⟩
    (onNode ([.login, request 7] ++ untilSnapshot 0 ++ [.logout, .settle (.fulfilled false), .login,
      .settle (.fulfilled false), request 7] ++ untilSnapshot 1))
    (fun e => ((e.nodes 0).heap 1).any fun s => decide (isRunning s)) (by decide)
  simp only [Option.any_eq_true, decide_eq_true_eq] at hP
  have howned := engine_owns_observers he 0
  exact ⟨e, he, hP, howned.1 1 hP, howned.2⟩

/-- The node logs out while its second `subscribe` waits for the stop of the first
subscription. What it then starts is stored in a map that nobody has. -/
theorem logout_loses_observer : ¬ ∀ (options : Options) (e : Engine.State) (id : NodeId),
    (machine options).Reach anyStep e →
    (∀ g, Runs (e.nodes id) g → Stored (e.nodes id) g ∨ inRequest g (e.nodes id).pc) ∧
      (e.nodes id).nodeSubscriptions.size ≤ options.maxSubscriptionsPerConnection := by
  intro h
  obtain ⟨e, he, hP⟩ := (machine ⟨2, 10⟩).exists_of_exec anyStep ⟨fun _ => Node.connected, false⟩
    (onNode ([.login, request 7] ++ untilSnapshot 0 ++ [.settle (.fulfilled false), request 7, .logout,
      .settle (.fulfilled false)] ++ untilSnapshot 1 ++ [.settle (.fulfilled false)]))
    (fun e => (((e.nodes 0).heap 1).any fun s => decide (isRunning s)) &&
      (e.nodes 0).subscriptions.isNone && decide ((e.nodes 0).pc = .idle)) (by decide)
  simp only [Bool.and_eq_true, Option.any_eq_true, decide_eq_true_eq, Option.isNone_iff_eq_none] at hP
  obtain ⟨⟨hruns, hmap⟩, hpc⟩ := hP
  rcases (h _ e 0 he).1 1 hruns with hst | hin
  · obtain ⟨map, i, hm, -⟩ := stored_iff.mp hst
    rw [hmap] at hm
    cases hm
  · rw [hpc] at hin
    exact hin

end TypeFerry.Live.Ownership
