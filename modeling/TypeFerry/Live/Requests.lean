import TypeFerry.Live.Ownership
import TypeFerry.Live.Simulation

/-! # What a request does to its node

A request goes on until its next await, creates a subscription, fails, or answers
with the snapshot of the subscription it has created and stored. Nothing else
happens at an await, and only the observers of subscriptions that are created
start: what was handed to the socket for a subscription is always what its
observer gave first. -/
namespace TypeFerry.Live.Requests
open TypeFerry.Lib.Numeral TypeFerry.Lib.OrderedMap TypeFerry.Lib.Runs
open TypeFerry.Live.Types TypeFerry.Live.Engine TypeFerry.Live.Ownership

/-! ## What was sent of a subscription -/

/-- What was handed to the socket is what the observer has given so far, and in an
open engine all of it until the subscription is stale. -/
structure Faithful (closed : Bool) (g : Generation) (s : Subscription) : Prop where
  generation : s.config.generation = g
  subscriptionId : s.config.subscriptionId = s.id
  reach : (Observer.machine s.config).Reach anyStep s.observer
  sent : s.sent <+: s.observer.emissions.map Observer.Emission.delta
  complete : s.stale = false → closed = false →
    s.sent = s.observer.emissions.map Observer.Emission.delta

theorem emissions_grow {cfg : Observer.Config} {s o : Observer.State} {a : Observer.Action}
    (hs : Observer.step cfg s a = some o) : s.emissions <+: o.emissions := by
  rcases Simulation.emits_step hs with hsaid | ⟨e, he, -⟩
  · rw [show o.emissions = s.emissions from congrArg Prod.fst hsaid]
  · rw [he]
    exact List.prefix_append _ _

section
variable {closed : Bool} {g : Generation} {s : Subscription}

theorem Faithful.each (h : Faithful closed g s) {n : ℕ} {d : Delta} (hd : s.sent[n]? = some d) :
    d.subscriptionId = s.id ∧ d.generation = g ∧ d.sequence = n + 1 := by
  obtain ⟨rest, hrest⟩ := h.sent
  have hd' : (s.observer.emissions.map Observer.Emission.delta)[n]? = some d := by
    rw [← hrest, List.getElem?_append_left (List.getElem?_eq_some_iff.mp hd).1]
    exact hd
  obtain ⟨e, he, rfl⟩ := Option.map_eq_some_iff.mp (List.getElem?_map ▸ hd')
  obtain ⟨hid, hg, hq⟩ := (Simulation.numbered_of_reach h.reach).each n e he
  exact ⟨hid.trans h.subscriptionId, hg.trans h.generation, hq⟩

/-- Nothing was given yet. -/
theorem faithful_init (hg : s.config.generation = g) (hid : s.config.subscriptionId = s.id)
    (ho : s.observer = Observer.init) (hs : s.sent = []) : Faithful closed g s :=
  ⟨hg, hid, by rw [ho]; exact .refl, by simp [hs], fun _ _ => by simp [hs, ho, Observer.init]⟩

/-- The observer goes on without a delta. -/
theorem Faithful.silent (h : Faithful closed g s) {a : Observer.Action} {o : Observer.State}
    (hs : Observer.step s.config s.observer a = some o) (hsaid : o.emissions = s.observer.emissions) :
    Faithful closed g { s with observer := o } :=
  ⟨h.generation, h.subscriptionId, h.reach.tail a trivial hs, by rw [hsaid]; exact h.sent,
    by rw [hsaid]; exact h.complete⟩

theorem Faithful.stop (h : Faithful closed g s) :
    Faithful closed g { s with observer := s.observer.stop } :=
  h.silent (a := .stop) rfl (Delivery.stop_emissions s.observer)

theorem Faithful.timer (h : Faithful closed g s) (b : Bool) :
    Faithful closed g { s with pressureTimer := b } :=
  ⟨h.generation, h.subscriptionId, h.reach, h.sent, h.complete⟩

theorem Faithful.start (h : Faithful closed g s) : Faithful closed g { s with
    observer := (Observer.step s.config s.observer .start).getD s.observer } := by
  cases hs : Observer.step s.config s.observer .start with
  | none => exact h
  | some o =>
    refine h.silent hs ?_
    simp only [Observer.step] at hs
    split at hs <;> cases hs
    rfl

/-- The observer goes on in a subscription that is told nothing any more. -/
theorem Faithful.unheard (h : Faithful closed g s) {a : Observer.Action} {o : Observer.State}
    (hs : Observer.step s.config s.observer a = some o) (hstale : s.stale = true ∨ closed = true) :
    Faithful closed g { s with observer := o } := by
  refine ⟨h.generation, h.subscriptionId, h.reach.tail a trivial hs, ?_, fun hfresh hopen => ?_⟩
  · exact h.sent.trans ((emissions_grow hs).map _)
  · rcases hstale with hst | hcl
    · rw [hfresh] at hst; cases hst
    · rw [hopen] at hcl; cases hcl

/-- The observer gives a delta. -/
theorem Faithful.emit (h : Faithful closed g s) {a : Observer.Action} {o : Observer.State}
    {e : Observer.Emission} (hs : Observer.step s.config s.observer a = some o)
    (he : o.emissions = s.observer.emissions ++ [e]) (hstale : s.stale = false)
    (hclosed : closed = false) :
    Faithful closed g { s with observer := o, sent := s.sent ++ [e.delta] } := by
  have hall : s.sent ++ [e.delta] = o.emissions.map Observer.Emission.delta := by
    rw [he, List.map_append, h.complete hstale hclosed]
    rfl
  exact ⟨h.generation, h.subscriptionId, h.reach.tail a trivial hs, by rw [hall], fun _ _ => hall⟩

/-- The subscription becomes stale. -/
theorem Faithful.stale (h : Faithful closed g s) : Faithful closed g { s with stale := true } :=
  ⟨h.generation, h.subscriptionId, h.reach, h.sent, fun hst => by cases hst⟩

theorem Faithful.close (h : Faithful closed g s) : Faithful true g s :=
  ⟨h.generation, h.subscriptionId, h.reach, h.sent, fun _ hc => by cases hc⟩

end

/-- The observer has answered with a snapshot of its generation, before any delta. -/
theorem Faithful.answer {n : Node} {closed : Bool} {g : Generation}
    (h : ∀ {s}, n.heap g = some s → Faithful closed g s) {snapshot : Snapshot}
    (hs : n.started g = some (.ok snapshot)) :
    (∃ s, n.heap g = some s) ∧ snapshot.generation = g ∧ snapshot.sequence = 0 := by
  unfold Node.started at hs
  split at hs
  · cases hs
  · next s hg =>
    have hresult : s.observer.result = some snapshot := by
      split at hs <;> simp_all
    obtain ⟨-, hgen, hq⟩ := (Simulation.tracked_of_reach (h hg).reach).answer snapshot hresult
    exact ⟨⟨s, hg⟩, hgen.trans (h hg).generation, hq⟩

/-! ## Nodes that have not been told anything -/

/-- No snapshot, no event and no subscription has come to the node, and none of its
subscriptions has become stale. -/
structure Tame (closed : Bool) (n m : Node) : Prop where
  heap : ∀ {g t}, m.heap g = some t → ∃ s, n.heap g = some s ∧ t.id = s.id ∧ t.stale = s.stale ∧
    t.sent = s.sent ∧ (Faithful closed g s → Faithful closed g t)
  kept : ∀ {g s}, n.heap g = some s → ∃ t, m.heap g = some t
  cached : m.resyncSnapshots = n.resyncSnapshots ∨ m.resyncSnapshots = none
  returns : m.returns = n.returns
  outbox : m.outbox = n.outbox
  next : m.nextGeneration = n.nextGeneration

section
variable {closed : Bool} {n m k : Node} {g : Generation}

theorem tame_of_eq (hheap : m.heap = n.heap)
    (hcached : m.resyncSnapshots = n.resyncSnapshots ∨ m.resyncSnapshots = none)
    (hreturns : m.returns = n.returns) (houtbox : m.outbox = n.outbox)
    (hnext : m.nextGeneration = n.nextGeneration) : Tame closed n m :=
  ⟨fun {g t} ht => ⟨t, by rw [← hheap]; exact ht, rfl, rfl, rfl, fun h => h⟩,
    fun {g s} hs => ⟨s, by rw [hheap]; exact hs⟩, hcached, hreturns, houtbox, hnext⟩

theorem Tame.refl (n : Node) : Tame closed n n := tame_of_eq rfl (.inl rfl) rfl rfl rfl

theorem Tame.trans (h : Tame closed n m) (h' : Tame closed m k) : Tame closed n k := by
  refine ⟨fun {g u} hu => ?_, fun hs => ?_, ?_, h'.returns.trans h.returns,
    h'.outbox.trans h.outbox, h'.next.trans h.next⟩
  · obtain ⟨t, ht, hid, hst, hsent, hf⟩ := h'.heap hu
    obtain ⟨s, hs, hid', hst', hsent', hf'⟩ := h.heap ht
    exact ⟨s, hs, hid.trans hid', hst.trans hst', hsent.trans hsent', fun h => hf (hf' h)⟩
  · obtain ⟨t, ht⟩ := h.kept hs
    exact h'.kept ht
  · rcases h'.cached with hc | hc
    · exact h.cached.imp hc.trans hc.trans
    · exact .inr hc

/-- The request is at another await. -/
theorem Tame.pc (h : Tame closed n m) (pc : Pc) : Tame closed n { m with pc := pc } :=
  h.trans (tame_of_eq rfl (.inl rfl) rfl rfl rfl)

theorem tame_setMap (n : Node) (map : MapId) (x : OMap SubscriptionId Generation) :
    Tame closed n (n.setMap map x) :=
  tame_of_eq rfl (.inl rfl) rfl rfl rfl

theorem modify_heap {f : Subscription → Subscription} {k : Generation} {t : Subscription}
    (ht : (n.modify g f).heap k = some t) :
    ∃ s, n.heap k = some s ∧ t = if k = g then f s else s := by
  simp only [Node.modify] at ht
  split at ht
  · obtain ⟨s, hs, rfl⟩ := Option.map_eq_some_iff.mp ht
    exact ⟨s, hs, by simp [*]⟩
  · exact ⟨t, ht, by simp [*]⟩

theorem tame_modify (n : Node) (g : Generation) {f : Subscription → Subscription}
    (hid : ∀ s, (f s).id = s.id) (hstale : ∀ s, (f s).stale = s.stale)
    (hsent : ∀ s, (f s).sent = s.sent)
    (hf : ∀ s, n.heap g = some s → Faithful closed g s → Faithful closed g (f s)) :
    Tame closed n (n.modify g f) := by
  refine ⟨fun {k t} ht => ?_, fun {k s} hs => ?_, .inl rfl, rfl, rfl, rfl⟩
  · obtain ⟨s, hs, rfl⟩ := modify_heap ht
    refine ⟨s, hs, ?_⟩
    split
    · next hk => subst hk; exact ⟨hid s, hstale s, hsent s, hf s hs⟩
    · exact ⟨rfl, rfl, rfl, fun h => h⟩
  · simp only [Node.modify, hs]
    split <;> exact ⟨_, rfl⟩

theorem tame_timer (n : Node) (g : Generation) (b : Bool) :
    Tame closed n (n.modify g fun s => { s with pressureTimer := b }) :=
  tame_modify n g (fun _ => rfl) (fun _ => rfl) (fun _ => rfl) fun _ _ h => h.timer b

theorem tame_stopObserver (n : Node) (g : Generation) : Tame closed n (n.stopObserver g) :=
  tame_modify n g (fun _ => rfl) (fun _ => rfl) (fun _ => rfl) fun _ _ h => h.stop

theorem tame_startObserver (n : Node) (g : Generation) : Tame closed n (n.startObserver g) :=
  tame_modify n g (fun _ => rfl) (fun _ => rfl) (fun _ => rfl) fun _ _ h => h.start

theorem tame_abort (n : Node) (a : AuthorizationId) : Tame closed n (n.abort a) :=
  tame_of_eq rfl (.inl rfl) rfl rfl rfl

theorem tame_stopSubscription (n : Node) (g : Generation) : Tame closed n (n.stopSubscription g) := by
  unfold Node.stopSubscription
  split
  · next s _ =>
    exact (tame_abort n s.authorization).trans (tame_modify _ g (fun _ => rfl) (fun _ => rfl)
      (fun _ => rfl) fun _ _ h => (h.timer false).stop)
  · exact .refl n

theorem tame_stopAll (gs : List Generation) (n : Node) :
    Tame closed n (gs.foldl Node.stopSubscription n) := by
  induction gs generalizing n with
  | nil => exact .refl n
  | cons g gs ih => exact (tame_stopSubscription n g).trans (ih _)

theorem tame_subscribeFail (n : Node) (r : SubscribeRequest) (map : MapId) (a : AuthorizationId)
    (o : Option Generation) (e : Text) : Tame closed n (n.subscribeFail r map a o e) := by
  refine (tame_abort n a).trans ?_
  cases o with
  | none => exact (Tame.refl _).pc _
  | some g => exact (tame_stopObserver _ g).pc _

theorem tame_resyncFail (n : Node) (r : ResyncRequest) (map : MapId) (g : Generation) (e : Text) :
    Tame closed n (n.resyncFail r map g e) :=
  (tame_stopObserver n g).pc _

end

/-! ## What can happen at an await -/

/-- The generation whose observer the request waits for. -/
def creating : Pc → Option Generation
  | .subscribeStarting _ _ _ g | .resyncStarting _ _ _ g => some g
  | _ => none

/-- The `resync` that is running. -/
def resyncOf : Pc → Option ResyncRequest
  | .resyncAuthorizing r _ _ | .resyncStopping r _ _ | .resyncSourcing r _ _ _
  | .resyncStarting r _ _ _ | .resyncFailing r _ _ => some r
  | _ => none

/-- The identifier of the `subscribe` or `resync` that is running. -/
def idOf : Pc → Option SubscriptionId
  | .subscribeStopping r _ | .subscribeAuthorizing r _ _ | .subscribeSourcing r _ _ _
  | .subscribeStarting r _ _ _ | .subscribeFailing r _ _ _ => some r.subscriptionId
  | .resyncAuthorizing r _ _ | .resyncStopping r _ _ | .resyncSourcing r _ _ _
  | .resyncStarting r _ _ _ | .resyncFailing r _ _ => some r.subscriptionId
  | .idle | .unsubscribeStopping _ => none

/-- The node goes on with the same request, up to an await at which it creates no
subscription. -/
structure Waits (r : Option ResyncRequest) (id : Option SubscriptionId) (m : Node) : Prop where
  running : m.pc ≠ .idle
  creating : creating m.pc = none
  resync : resyncOf m.pc = r
  id : idOf m.pc = id

/-- What `subscribe` and `resync` do up to their first await, but for a `resync`
that was answered before. -/
inductive Begins (closed : Bool) (n : Node) (r : Option ResyncRequest) (id : SubscriptionId) :
    Node → Prop where
  | waits {m : Node} (ht : Tame closed n m) (hw : Waits r (some id) m) : Begins closed n r id m
  | fails {m : Node} (error : Text) (ht : Tame closed n m) :
    Begins closed n r id (m.finish r id (.error error))

/-- What the request of a node does when it goes on. -/
inductive Settles (options : Options) (closed : Bool) (n : Node) : Node → Prop where
  | waits {m : Node} (ht : Tame closed n m) (hw : Waits (resyncOf n.pc) (idOf n.pc) m) :
    Settles options closed n m
  | creates {m : Node} (id : SubscriptionId) (a : AuthorizationId) (ordered typed windowed : Bool)
    (hid : idOf n.pc = some id) (hbefore : creating n.pc = none)
    (ht : Tame closed (n.createSubscription options id a ordered typed windowed) m)
    (hcreating : creating m.pc = some n.nextGeneration) (hresync : resyncOf m.pc = resyncOf n.pc)
    (hidm : idOf m.pc = idOf n.pc) : Settles options closed n m
  /-- The request was cancelled when it had just created its subscription. -/
  | abandons {m : Node} (id : SubscriptionId) (a : AuthorizationId) (ordered typed windowed : Bool)
    (hid : idOf n.pc = some id) (hbefore : creating n.pc = none)
    (ht : Tame closed (n.createSubscription options id a ordered typed windowed) m)
    (hw : Waits (resyncOf n.pc) (idOf n.pc) m) : Settles options closed n m
  | fails {m : Node} (id : SubscriptionId) (error : Text) (hid : idOf n.pc = some id)
    (ht : Tame closed n m) : Settles options closed n (m.finish (resyncOf n.pc) id (.error error))
  | answers {m : Node} (id : SubscriptionId) (g : Generation) (snapshot : Snapshot)
    (hid : idOf n.pc = some id) (hcreating : creating n.pc = some g)
    (hstart : n.started g = some (.ok snapshot))
    (ht : Tame closed n { m with resyncSnapshots := n.resyncSnapshots })
    (hheap : m.heap = n.heap) (hstored : m.nodeSubscriptions.get id = some g)
    (hcached : m.resyncSnapshots = match resyncOf n.pc with
      | some r => some (r, snapshot)
      | none => n.resyncSnapshots) :
    Settles options closed n (m.finish (resyncOf n.pc) id (.ok snapshot))
  | unsubscribes {m : Node} (hid : idOf n.pc = none) (ht : Tame closed n m) (hpc : m.pc = .idle) :
    Settles options closed n m

section
variable {options : Options} {closed : Bool} {n m : Node} {map : MapId} {g : Generation}

theorem begins_subscribeAuthorize (options : Options) {k : Node} (hn : Tame closed k n) (r : SubscribeRequest) (map : MapId) :
    Begins closed k none r.subscriptionId (n.subscribeAuthorize options r map) := by
  unfold Node.subscribeAuthorize
  split
  · exact .fails _ hn
  · exact .waits (hn.trans (tame_of_eq rfl (.inl rfl) rfl rfl rfl)) ⟨by simp, rfl, rfl, rfl⟩

theorem begins_subscribe (n : Node) (r : SubscribeRequest) :
    Begins closed n none r.subscriptionId (n.subscribe closed options r) := by
  have hstop : ∀ {m : Node} {map} (g : Generation), Tame closed n m → Begins closed n none r.subscriptionId
      { m.stopSubscription g with pc := .subscribeStopping r map } := fun {m map} g hm =>
    .waits ((hm.trans (tame_stopSubscription m g)).pc _) ⟨by simp, rfl, rfl, rfl⟩
  simp only [Node.subscribe]
  split
  · exact .fails _ (.refl n)
  · split
    · exact .fails _ (.refl n)
    · split
      · exact .fails _ (.refl n)
      · split
        · exact .fails _ (.refl n)
        · cases hmap : n.subscriptions with
          | some map =>
            dsimp only
            split
            · exact hstop _ (.refl n)
            · exact begins_subscribeAuthorize options (.refl n) r map
          | none =>
            have hmade : Tame closed n ({ n with
                subscriptions := some n.nextMap
                nextMap := n.nextMap + 1 }.setMap n.nextMap OMap.empty) := tame_of_eq rfl (.inl rfl) rfl rfl rfl
            dsimp only
            split
            · exact hstop _ hmade
            · exact begins_subscribeAuthorize options hmade r n.nextMap

/-- `resync`, unless it is answered from `resyncSnapshots`. -/
theorem begins_resync (closed : Bool) (n : Node) (r : ResyncRequest) :
    (∃ cached previous, n.resyncSnapshots = some (r, cached) ∧
      n.nodeSubscriptions.get r.subscriptionId = some previous ∧
      n.resync r = n.finish (some r) r.subscriptionId (.ok cached)) ∨
    Begins closed n (some r) r.subscriptionId (n.resync r) := by
  simp only [Node.resync]
  split
  · exact .inr (.fails _ (.refl n))
  · split
    · exact .inr (.fails _ (.refl n))
    · next map hmap =>
      split
      · exact .inr (.fails _ (.refl n))
      · next previous hprev =>
        split
        · next entry cached hentry =>
          obtain ⟨hsome, hkey⟩ := Option.filter_eq_some_iff.mp hentry
          obtain rfl : entry = r := by simpa using hkey
          refine .inl ⟨cached, previous, hsome, ?_, rfl⟩
          rw [Node.nodeSubscriptions, hmap]
          exact hprev
        · split
          · exact .inr (.fails _ (.refl n))
          · exact .inr (.waits ((Tame.refl n).pc _) ⟨by simp, rfl, rfl, rfl⟩)

theorem settles_subscribeSource {r : SubscribeRequest} {a : AuthorizationId}
    (hpc : n.pc = .subscribeAuthorizing r map a) (windowed : Bool) :
    Settles options closed n (n.subscribeSource closed r map a windowed) := by
  have hwaits : ∀ {m : Node}, Waits none (some r.subscriptionId) m →
      Waits (resyncOf n.pc) (idOf n.pc) m := by rw [hpc]; exact fun h => h
  unfold Node.subscribeSource
  split
  · exact .waits (tame_subscribeFail ..) (hwaits ⟨by simp [Node.subscribeFail], rfl, rfl, rfl⟩)
  · split
    · exact .waits (tame_subscribeFail ..) (hwaits ⟨by simp [Node.subscribeFail], rfl, rfl, rfl⟩)
    · exact .waits ((Tame.refl n).pc _) (hwaits ⟨by simp, rfl, rfl, rfl⟩)

theorem settles_subscribeStart {r : SubscribeRequest} {a : AuthorizationId} {windowed : Bool}
    (hpc : n.pc = .subscribeSourcing r map a windowed) :
    Settles options closed n (n.subscribeStart closed options r map a windowed) := by
  simp only [Node.subscribeStart]
  split
  · refine .abandons r.subscriptionId a _ _ _ (by rw [hpc]; rfl) (by rw [hpc]; rfl)
      (tame_subscribeFail ..) ?_
    rw [hpc]
    exact ⟨by simp [Node.subscribeFail], rfl, rfl, rfl⟩
  · exact .creates r.subscriptionId a _ _ _ (by rw [hpc]; rfl) (by rw [hpc]; rfl)
      ((tame_startObserver _ _).pc _) rfl (by rw [hpc]; rfl) (by rw [hpc]; rfl)

theorem settles_subscribeStore (h : Owned options closed n) {r : SubscribeRequest}
    {a : AuthorizationId} (hpc : n.pc = .subscribeStarting r map a g) {snapshot : Snapshot}
    (hstart : n.started g = some (.ok snapshot)) :
    Settles options closed n (n.subscribeStore closed r map a g snapshot) := by
  have hh := h.holds
  rw [hpc] at hh
  unfold Node.subscribeStore
  split
  · refine .waits (tame_subscribeFail ..) ?_
    rw [hpc]
    exact ⟨by simp [Node.subscribeFail], rfl, rfl, rfl⟩
  · next hactive =>
    have hmap := hh.1.attached.active (by simpa using hactive)
    rw [show none = resyncOf n.pc by rw [hpc]; rfl]
    refine .answers r.subscriptionId g snapshot (by rw [hpc]; rfl) (by rw [hpc]; rfl) hstart
      (tame_of_eq rfl (.inl rfl) rfl rfl rfl) rfl ?_ (by rw [hpc]; rfl)
    simp [Node.nodeSubscriptions, Node.untrackPending, Node.setMap, hmap, OMap.get_set_self]

theorem settles_subscribeThrow {r : SubscribeRequest} {a : AuthorizationId} {error : Text}
    (hpc : n.pc = .subscribeFailing r map a error) :
    Settles options closed n (n.subscribeThrow r map a error) := by
  simp only [Node.subscribeThrow]
  have hfails : ∀ {m : Node}, Tame closed n m →
      Settles options closed n (m.finish none r.subscriptionId (.error error)) := by
    intro m hm
    rw [show none = resyncOf n.pc by rw [hpc]; rfl]
    exact .fails r.subscriptionId error (by rw [hpc]; rfl) hm
  split <;> exact hfails (tame_of_eq rfl (.inl rfl) rfl rfl rfl)

theorem settles_resyncSource (h : Owned options closed n) {r : ResyncRequest}
    (hpc : n.pc = .resyncStopping r map g) (windowed : Bool) :
    Settles options closed n (n.resyncSource r map g windowed) := by
  obtain ⟨⟨-, s, hs, -⟩, -⟩ : Replaceable closed n r.subscriptionId map g ∧
      Silenced n map r.subscriptionId := by simpa [hpc, Holds] using h.holds
  have hheap : (n.modify g fun s => { s with pressureTimer := false }).heap g =
      some { s with pressureTimer := false } := by simp [Node.modify, hs]
  simp only [Node.resyncSource, hheap]
  split
  · rw [show some r = resyncOf n.pc by rw [hpc]; rfl]
    exact .fails r.subscriptionId _ (by rw [hpc]; rfl) (tame_timer n g false)
  · refine .waits ((tame_timer n g false).pc _) ?_
    rw [hpc]
    exact ⟨by simp, rfl, rfl, rfl⟩

theorem settles_resyncStart (h : Owned options closed n) {r : ResyncRequest} {windowed : Bool}
    (hpc : n.pc = .resyncSourcing r map g windowed) :
    Settles options closed n (n.resyncStart options r map g windowed) := by
  obtain ⟨⟨-, s, hs, hid, -⟩, -⟩ : Replaceable closed n r.subscriptionId map g ∧
      Silenced n map r.subscriptionId := by simpa [hpc, Holds] using h.holds
  simp only [Node.resyncStart, hs]
  exact .creates s.id s.authorization _ _ _ (by rw [hpc, hid]; rfl) (by rw [hpc]; rfl)
    ((tame_startObserver _ _).pc _) rfl (by rw [hpc]; rfl) (by rw [hpc]; rfl)

theorem settles_resyncStore (h : Owned options closed n) {r : ResyncRequest} {p : Generation}
    (hpc : n.pc = .resyncStarting r map p g) {snapshot : Snapshot}
    (hstart : n.started g = some (.ok snapshot)) :
    Settles options closed n (n.resyncStore closed r map g snapshot) := by
  have hh := h.holds
  rw [hpc] at hh
  obtain ⟨⟨-, s, hs, hid, hatt⟩, -, s', t, hs', ht, htid, hta⟩ := hh
  obtain rfl : s = s' := by rw [hs, Option.some.injEq] at hs'; exact hs'
  simp only [Node.resyncStore, ht]
  split
  · refine .waits (tame_resyncFail ..) ?_
    rw [hpc]
    exact ⟨by simp [Node.resyncFail], rfl, rfl, rfl⟩
  · next hactive =>
    have hmap := hatt.active (by rw [← hta]; simpa using hactive)
    have hr : some r = resyncOf n.pc := by rw [hpc]; rfl
    rw [hr]
    refine .answers r.subscriptionId g snapshot (by rw [hpc]; rfl) (by rw [hpc]; rfl) hstart
      (tame_of_eq rfl (.inl rfl) rfl rfl rfl) rfl ?_ (by rw [← hr])
    simp [Node.nodeSubscriptions, Node.setMap, hmap, htid, hid, OMap.get_set_self]

/-- What is stored of a subscription that has just been created. -/
theorem created_heap (closed : Bool) {id : SubscriptionId} {a : AuthorizationId} {ordered typed windowed : Bool}
    {k : Generation} {s : Subscription}
    (hs : (n.createSubscription options id a ordered typed windowed).heap k = some s) :
    k = n.nextGeneration ∧ s.id = id ∧ s.stale = false ∧ s.sent = [] ∧ Faithful closed k s ∨
      n.heap k = some s := by
  simp only [Node.createSubscription] at hs
  split at hs
  · next hk =>
    cases hs
    exact .inl ⟨hk, rfl, rfl, rfl, faithful_init hk.symm rfl rfl rfl⟩
  · exact .inr hs

/-- Everything the running request can do when what it waits for has settled. -/
theorem settle_cases (h : Owned options closed n) {settlement : Settlement}
    (hs : n.settle closed options settlement = some m) : Settles options closed n m := by
  have hfails : ∀ {r : ResyncRequest} {m : Node} {error : Text}, idOf n.pc = some r.subscriptionId →
      resyncOf n.pc = some r → Tame closed n m →
      Settles options closed n (m.finish (some r) r.subscriptionId (.error error)) := by
    intro r m error hid hr ht
    rw [← hr]
    exact .fails r.subscriptionId error hid ht
  unfold Node.settle at hs
  split at hs
  · cases hs
  · next r map _ hpc =>
    cases hs
    have hbegins := begins_subscribeAuthorize options
      (@tame_setMap closed n map ((n.maps map).delete r.subscriptionId)) r map
    generalize (n.setMap map ((n.maps map).delete r.subscriptionId)).subscribeAuthorize options r map =
      m at hbegins
    cases hbegins with
    | waits ht hw => exact .waits ht (by rw [hpc]; exact hw)
    | fails error ht =>
      rw [show none = resyncOf n.pc by rw [hpc]; rfl]
      exact .fails r.subscriptionId error (by rw [hpc]; rfl) ht
  · next r map a windowed hpc => cases hs; exact settles_subscribeSource hpc windowed
  · next r map a error hpc =>
    cases hs
    exact .waits (tame_subscribeFail ..) (by
      rw [hpc]; exact ⟨by simp [Node.subscribeFail], rfl, rfl, rfl⟩)
  · next r map a _ error hpc =>
    cases hs
    exact .waits (tame_subscribeFail ..) (by
      rw [hpc]; exact ⟨by simp [Node.subscribeFail], rfl, rfl, rfl⟩)
  · next r map a windowed _ hpc => cases hs; exact settles_subscribeStart hpc
  · next r map a g _ hpc =>
    obtain ⟨result, hstart, rfl⟩ := Option.map_eq_some_iff.mp hs
    cases result with
    | ok snapshot => exact settles_subscribeStore h hpc hstart
    | error error =>
      exact .waits (tame_subscribeFail ..) (by
        rw [hpc]; exact ⟨by simp [Node.subscribeFail], rfl, rfl, rfl⟩)
  · next r map a error _ hpc => cases hs; exact settles_subscribeThrow hpc
  · next r map p _ hpc =>
    cases hs
    exact .waits ((tame_stopObserver n p).pc _) (by rw [hpc]; exact ⟨by simp, rfl, rfl, rfl⟩)
  · next r _ _ error hpc => cases hs; exact hfails (by rw [hpc]; rfl) (by rw [hpc]; rfl) (.refl n)
  · next r _ _ error hpc => cases hs; exact hfails (by rw [hpc]; rfl) (by rw [hpc]; rfl) (.refl n)
  · next r _ _ _ error hpc => cases hs; exact hfails (by rw [hpc]; rfl) (by rw [hpc]; rfl) (.refl n)
  · next r map p windowed hpc => cases hs; exact settles_resyncSource h hpc windowed
  · next r map p windowed _ hpc => cases hs; exact settles_resyncStart h hpc
  · next r map p g _ hpc =>
    obtain ⟨result, hstart, rfl⟩ := Option.map_eq_some_iff.mp hs
    cases result with
    | ok snapshot => exact settles_resyncStore h hpc hstart
    | error error =>
      exact .waits (tame_resyncFail ..) (by
        rw [hpc]; exact ⟨by simp [Node.resyncFail], rfl, rfl, rfl⟩)
  · next r map error _ hpc =>
    cases hs
    exact hfails (by rw [hpc]; rfl) (by rw [hpc]; rfl) (tame_setMap ..)
  · next map _ hpc =>
    cases hs
    refine .unsubscribes (by rw [hpc]; rfl) ?_ rfl
    unfold Node.unsubscribed
    split <;> exact tame_of_eq rfl (.inl rfl) rfl rfl rfl
  · cases hs

end

end TypeFerry.Live.Requests
