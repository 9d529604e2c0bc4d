import TypeFerry.Live.Requests

/-! # Resync responses are current

The snapshot that `resync` returns is that of the subscription stored under the
identifier, as long as the replacement is not stale before `resync` is back, and
the snapshot kept for a repeated request is not returned once another generation
is stored or the stored one has become stale. What was handed to the socket is
always what the observer gave first, so the deltas continue from the snapshot. -/
namespace TypeFerry.Live.Currency
open TypeFerry.Lib.Numeral TypeFerry.Lib.OrderedMap TypeFerry.Lib.Runs
open TypeFerry.Live.Types TypeFerry.Live.Engine TypeFerry.Live.Ownership TypeFerry.Live.Requests

/-- The deltas are numbered on from `q`. -/
def Continues (q : ℕ) (ds : List Delta) : Prop := ∀ n d, ds[n]? = some d → d.sequence = q + n + 1

/-- If a snapshot was returned, its generation is stored and not stale, and the
deltas handed to the socket before continue from it. -/
def Current (r : Return) : Prop := ∀ snapshot, r.result = .ok snapshot →
  r.stored = some snapshot.generation ∧ r.stale = false ∧ Continues snapshot.sequence r.sent

/-! ## The condition -/

/-- If the request is answered from `resyncSnapshots`, the snapshot there is that
of the stored subscription, which is not stale. -/
def cacheCurrent (n : Node) (request : ResyncRequest) : Bool :=
  (n.resyncSnapshots.filter fun entry => entry.1 = request).all fun entry =>
    (n.nodeSubscriptions.get request.subscriptionId).all fun g =>
      g = entry.2.generation && !(n.heap g).any Subscription.stale

/-- The observer calls `onStale`. -/
def callsStale (n : Node) (g : Generation) (a : Observer.Action) : Bool :=
  (n.heap g).any fun s => (Observer.step s.config s.observer a).any fun o =>
    s.observer.staleCalls < o.staleCalls

/-- The replacement of a running `resync` does not become stale: its observer does
not call `onStale`, and the socket takes its deltas. -/
def keepsReplacement (n : Node) (g : Generation) (a : Observer.Action) (send : Send) : Bool :=
  match n.pc with
  | .resyncStarting _ _ _ replacement => replacement ≠ g || send = .accepted && !callsStale n g a
  | _ => true

/-- No repeated `resync` is answered with a snapshot that is not current any more,
no replacement becomes stale before its `resync` is back, and no node logs out
while its `subscribe` waits for the stop of an existing subscription. -/
def keepsCurrent (e : Engine.State) : EngineAction → Prop
  | .node id (.resync request) => cacheCurrent (e.nodes id) request = true
  | .node id (.observer g a send _) => keepsReplacement (e.nodes id) g a send = true
  | .node id .logout => isStopping (e.nodes id).pc = false
  | _ => True

/-! ## Delivery -/

section
variable {closed : Bool} {n m : Node} {g : Generation}

theorem attemptControl_heap {attempt : Attempt} {k : Generation} {t : Subscription}
    (ht : (n.attemptControl closed g attempt).heap k = some t) :
    ∃ s b, n.heap k = some s ∧ t = { s with pressureTimer := b } := by
  have htimer : ∀ {n' : Node} {b}, n'.heap = n.heap →
      (n'.modify g fun s => { s with pressureTimer := b }).heap k = some t →
      ∃ s b, n.heap k = some s ∧ t = { s with pressureTimer := b } := by
    intro n' b hn ht
    obtain ⟨s, hs, rfl⟩ := modify_heap ht
    rw [hn] at hs
    split
    · exact ⟨s, b, hs, rfl⟩
    · exact ⟨s, s.pressureTimer, hs, rfl⟩
  have hsent : ∀ event, (n.transmit attempt.send event).heap = n.heap := fun event => by
    unfold Node.transmit
    split <;> rfl
  unfold Node.attemptControl at ht
  split at ht
  · exact ⟨t, t.pressureTimer, ht, rfl⟩
  · split at ht
    · exact ⟨t, t.pressureTimer, ht, rfl⟩
    · dsimp only at ht
      split at ht
      · exact htimer (hsent _) ht
      · split at ht
        · exact htimer (hsent _) ht
        · exact htimer (hsent _) ht

/-- `markStale` leaves the other subscriptions alone, and nothing that was not sent
is missed. -/
theorem markStale_heap {attempt : Attempt} {k : Generation} {t : Subscription}
    (ht : (n.markStale closed g attempt).heap k = some t) : ∃ s b, n.heap k = some s ∧
      (t = { s with pressureTimer := b } ∧ (k = g → s.stale = true ∨ closed = true) ∨
        k = g ∧ t = { s with pressureTimer := b, stale := true, observer := s.observer.stop }) := by
  unfold Node.markStale at ht
  split at ht
  · next hnone =>
    refine ⟨t, t.pressureTimer, ht, .inl ⟨rfl, fun hk => ?_⟩⟩
    rw [hk, hnone] at ht
    cases ht
  · next s hs =>
    split at ht
    · next hc =>
      refine ⟨t, t.pressureTimer, ht, .inl ⟨rfl, fun hk => ?_⟩⟩
      rw [hk, hs, Option.some.injEq] at ht
      exact ht ▸ hc
    · obtain ⟨u, b, hu, rfl⟩ := attemptControl_heap ht
      obtain ⟨s', hs', rfl⟩ := modify_heap hu
      refine ⟨s', b, hs', ?_⟩
      by_cases hk : k = g
      · exact .inr ⟨hk, by rw [if_pos hk]⟩
      · exact .inl ⟨by rw [if_neg hk], fun h => absurd h hk⟩

/-- What `deliver` for generation `g` makes of the subscription of generation `k`. -/
def Delivered (closed : Bool) (g k : Generation) (delta : Delta) (send : Send) (s t : Subscription) :
    Prop :=
  (k = g → s.stale = true ∨ closed = true) ∧ (∃ b, t = { s with pressureTimer := b }) ∨
  k = g ∧ s.stale = false ∧ closed = false ∧
    (send = .accepted ∧ t = { s with sent := s.sent ++ [delta] } ∨
      send ≠ .accepted ∧ ∃ ds b, (ds = [] ∨ ds = [delta]) ∧ t = { s with
        pressureTimer := b, stale := true, observer := s.observer.stop, sent := s.sent ++ ds })

theorem deliver_heap {delta : Delta} {send : Send} {attempt : Attempt} {k : Generation}
    {t : Subscription} (ht : (n.deliver closed g delta send attempt).heap k = some t) :
    ∃ s, n.heap k = some s ∧ Delivered closed g k delta send s t := by
  unfold Node.deliver at ht
  split at ht
  · next hnone =>
    refine ⟨t, ht, .inl ⟨fun hk => ?_, t.pressureTimer, rfl⟩⟩
    rw [hk, hnone] at ht
    cases ht
  · next s hs =>
    split at ht
    · next hc =>
      refine ⟨t, ht, .inl ⟨fun hk => ?_, t.pressureTimer, rfl⟩⟩
      rw [hk, hs, Option.some.injEq] at ht
      exact ht ▸ hc
    · next hc =>
      obtain ⟨hfresh, hopen⟩ : s.stale = false ∧ closed = false := by simpa using hc
      -- The delta that was handed over, and then `markStale`.
      have hstale : ∀ {n' : Node} {ds}, send ≠ .accepted → (ds = [] ∨ ds = [delta]) →
          (n'.markStale closed g attempt).heap k = some t →
          n'.heap = (n.modify g fun s => { s with sent := s.sent ++ ds }).heap →
          ∃ s, n.heap k = some s ∧ Delivered closed g k delta send s t := by
        intro n' ds hsend hds ht hn
        obtain ⟨u, b, hu, htu⟩ := markStale_heap ht
        rw [hn] at hu
        obtain ⟨s', hs', rfl⟩ := modify_heap hu
        refine ⟨s', hs', ?_⟩
        by_cases hk : k = g
        · rw [if_pos hk] at htu
          rw [hk, hs, Option.some.injEq] at hs'
          subst hs'
          rcases htu with ⟨-, hno⟩ | ⟨-, rfl⟩
          · exact absurd (hno hk) hc
          · exact .inr ⟨hk, hfresh, hopen, .inr ⟨hsend, ds, b, hds, rfl⟩⟩
        · rw [if_neg hk] at htu
          rcases htu with ⟨rfl, -⟩ | ⟨h, -⟩
          · exact .inl ⟨fun h => absurd h hk, b, rfl⟩
          · exact absurd h hk
      cases send with
      | full =>
        refine hstale (by simp) (.inl rfl) ht ?_
        simp [Node.modify]
      | accepted =>
        obtain ⟨s', hs', rfl⟩ := modify_heap ht
        refine ⟨s', hs', ?_⟩
        by_cases hk : k = g
        · rw [hk, hs, Option.some.injEq] at hs'
          subst hs'
          exact .inr ⟨hk, hfresh, hopen, .inl ⟨rfl, by rw [if_pos hk]⟩⟩
        · exact .inl ⟨fun h => absurd h hk, s'.pressureTimer, by rw [if_neg hk]⟩
      | exceeding => exact hstale (by simp) (.inr rfl) ht rfl
      | refused => exact hstale (by simp) (.inr rfl) ht rfl

/-- An observer goes on. Every subscription stays faithful, and none becomes stale
but that of the observer, where it calls `onStale` or the socket is under
pressure. -/
theorem observe_heap {a : Observer.Action} {send : Send} {attempt : Attempt} {k : Generation}
    {t : Subscription} (hm : n.observe closed g a send attempt = some m) (ht : m.heap k = some t) :
    ∃ s, n.heap k = some s ∧ (Faithful closed k s → Faithful closed k t) ∧
      (k ≠ g ∨ send = .accepted ∧ callsStale n g a = false → t.stale = s.stale) := by
  simp only [Node.observe, Option.bind_eq_bind, Option.bind_eq_some_iff] at hm
  obtain ⟨s, hs, o, hstep, hm⟩ := hm
  have hcalls : callsStale n g a = decide (s.observer.staleCalls < o.staleCalls) := by
    simp [callsStale, hs, hstep]
  by_cases hk : k = g
  · subst hk
    split at hm
    · next hstale =>
      cases hm
      obtain ⟨u, b, hu, htu⟩ := markStale_heap ht
      obtain ⟨s', hs', rfl⟩ := modify_heap hu
      rw [hs, Option.some.injEq] at hs'
      subst hs'
      rw [if_pos rfl] at htu
      refine ⟨s, hs, fun h => ?_, fun hno => ?_⟩
      · rcases htu with ⟨rfl, hst⟩ | ⟨-, rfl⟩
        · exact (h.unheard hstep (hst rfl)).timer b
        · exact ((h.stale.unheard hstep (.inl rfl)).stop).timer b
      · simp [hcalls, hstale] at hno
    · split at hm
      · next hemit =>
        obtain ⟨e, he⟩ : ∃ e, o.emissions = s.observer.emissions ++ [e] := by
          rcases Simulation.emits_step hstep with hsaid | ⟨e, he, -⟩
          · rw [show o.emissions = s.observer.emissions from congrArg Prod.fst hsaid] at hemit
            exact absurd hemit (Nat.lt_irrefl _)
          · exact ⟨e, he⟩
        rw [he, List.getLast?_concat] at hm
        cases hm
        obtain ⟨u, hu, htu⟩ := deliver_heap ht
        obtain ⟨s', hs', rfl⟩ := modify_heap hu
        rw [hs, Option.some.injEq] at hs'
        subst hs'
        rw [if_pos rfl] at htu
        refine ⟨s, hs, fun h => ?_, fun hno => ?_⟩
        · rcases htu with ⟨hst, b, rfl⟩ | ⟨-, hst, hcl, ⟨-, rfl⟩ | ⟨-, ds, b, rfl | rfl, rfl⟩⟩
          · exact (h.unheard hstep (hst rfl)).timer b
          · exact h.emit hstep he hst hcl
          · simpa using ((h.stale.unheard hstep (.inl rfl)).stop).timer b
          · exact ((h.emit hstep he hst hcl).stale.stop).timer b
        · rcases htu with ⟨-, b, rfl⟩ | ⟨-, -, -, ⟨-, rfl⟩ | ⟨hsend, -⟩⟩
          · rfl
          · rfl
          · simp [hsend] at hno
      · next hemit =>
        cases hm
        obtain ⟨s', hs', rfl⟩ := modify_heap ht
        rw [hs, Option.some.injEq] at hs'
        subst hs'
        rw [if_pos rfl]
        refine ⟨s, hs, fun h => h.silent hstep ?_, fun _ => rfl⟩
        exact ((emissions_grow hstep).eq_of_length_le (Nat.le_of_not_lt hemit)).symm
  · -- The subscription of another observer.
    have hother : ∀ {u}, (n.modify g fun s => { s with observer := o }).heap k = some u →
        n.heap k = some u := fun {u} hu => by
      obtain ⟨s', hs', rfl⟩ := modify_heap hu
      rw [if_neg hk]
      exact hs'
    split at hm
    · cases hm
      obtain ⟨u, b, hu, ⟨rfl, -⟩ | ⟨h, -⟩⟩ := markStale_heap ht
      · exact ⟨u, hother hu, fun h => h.timer b, fun _ => rfl⟩
      · exact absurd h hk
    · split at hm
      · split at hm <;> cases hm
        · obtain ⟨u, hu, ⟨-, b, rfl⟩ | ⟨h, -⟩⟩ := deliver_heap ht
          · exact ⟨u, hother hu, fun h => h.timer b, fun _ => rfl⟩
          · exact absurd h hk
        · exact ⟨t, hother ht, fun h => h, fun _ => rfl⟩
      · cases hm
        exact ⟨t, hother ht, fun h => h, fun _ => rfl⟩

/-- What requests leave behind. -/
def record (n : Node) : List Return × Option (ResyncRequest × Snapshot) :=
  (n.returns, n.resyncSnapshots)

theorem transmit_record (n : Node) (send : Send) (event : Event) :
    record (n.transmit send event) = record n := by
  cases send <;> rfl

theorem attemptControl_record (n : Node) (closed : Bool) (g : Generation) (attempt : Attempt) :
    record (n.attemptControl closed g attempt) = record n := by
  unfold Node.attemptControl
  split
  · rfl
  · split
    · rfl
    · dsimp only
      split
      · exact transmit_record n _ _
      · split <;> exact transmit_record n _ _

theorem markStale_record (n : Node) (closed : Bool) (g : Generation) (attempt : Attempt) :
    record (n.markStale closed g attempt) = record n := by
  unfold Node.markStale
  split
  · rfl
  · split
    · rfl
    · exact attemptControl_record _ closed g attempt

theorem observe_record {a : Observer.Action} {send : Send} {attempt : Attempt}
    (hm : n.observe closed g a send attempt = some m) : record m = record n := by
  have hdeliver : ∀ (n : Node) delta, record (n.deliver closed g delta send attempt) = record n := by
    intro n delta
    unfold Node.deliver
    split
    · rfl
    · split
      · rfl
      · cases send with
        | full => exact markStale_record n closed g attempt
        | accepted => rfl
        | exceeding | refused => exact markStale_record _ closed g attempt
  simp only [Node.observe, Option.bind_eq_bind, Option.bind_eq_some_iff] at hm
  obtain ⟨s, -, o, -, hm⟩ := hm
  split at hm
  · cases hm; exact markStale_record _ closed g attempt
  · split at hm
    · split at hm <;> cases hm
      · exact hdeliver _ _
      · rfl
    · cases hm; rfl

end

/-! ## What a node keeps -/

/-- What `resync` relies on; what depends on the condition of a run, as far as the
run meets it. -/
structure Kept (met : Prop) (closed : Bool) (n : Node) : Prop where
  faithful : ∀ {g s}, n.heap g = some s → Faithful closed g s
  cached : ∀ {r c}, n.resyncSnapshots = some (r, c) → c.sequence = 0
  replacing : met → ∀ {g s}, (resyncOf n.pc).isSome → creating n.pc = some g → n.heap g = some s →
    s.stale = false
  returns : met → ∀ r ∈ n.returns, r.resync.isSome → Current r

section
variable {met : Prop} {options : Options} {closed : Bool} {n m : Node} {g : Generation}

theorem Kept.faithful_tame (h : Kept met closed n) (ht : Tame closed n m) {s : Subscription}
    (hs : m.heap g = some s) : Faithful closed g s := by
  obtain ⟨s₀, hs₀, -, -, -, hf⟩ := ht.heap hs
  exact hf (h.faithful hs₀)

theorem Kept.cached_tame (h : Kept met closed n) (ht : Tame closed n m) {r : ResyncRequest}
    {c : Snapshot} (hc : m.resyncSnapshots = some (r, c)) : c.sequence = 0 := by
  rcases ht.cached with heq | hnone
  · exact h.cached (heq ▸ hc)
  · rw [hnone] at hc
    cases hc

/-- The node goes on without a snapshot. -/
theorem Kept.tame (h : Kept met closed n) (ht : Tame closed n m)
    (hpc : m.pc = n.pc ∨ creating m.pc = none) : Kept met closed m := by
  refine ⟨h.faithful_tame ht, h.cached_tame ht, fun hmet {g t} hr hc hg => ?_,
    by rw [ht.returns]; exact h.returns⟩
  rcases hpc with hpc | hnone
  · obtain ⟨s, hs, -, hst, -⟩ := ht.heap hg
    rw [hpc] at hr hc
    rw [hst]
    exact h.replacing hmet hr hc hs
  · rw [hnone] at hc
    cases hc

/-- A request ends, with a current snapshot where it is a `resync`. -/
theorem kept_finish (hfaithful : ∀ {g s}, n.heap g = some s → Faithful closed g s)
    (hcached : ∀ {r c}, n.resyncSnapshots = some (r, c) → c.sequence = 0)
    (hreturns : met → ∀ r ∈ n.returns, r.resync.isSome → Current r) {r : Option ResyncRequest}
    {id : SubscriptionId} {result : Except Text Snapshot}
    (hcurrent : met → r.isSome → ∀ c, result = .ok c → c.sequence = 0 ∧
      n.nodeSubscriptions.get id = some c.generation ∧
      ∀ s, n.heap c.generation = some s → s.stale = false) :
    Kept met closed (n.finish r id result) := by
  refine ⟨hfaithful, hcached, fun _ {_ _} hno => (by cases hno), fun hmet x hx hsome => ?_⟩
  rcases List.mem_append.mp hx with hx | hx
  · exact hreturns hmet x hx hsome
  · obtain rfl := List.mem_singleton.mp hx
    rintro c rfl
    obtain ⟨hq, hget, hst⟩ := hcurrent hmet hsome c rfl
    refine ⟨hget, ?_, fun k d hd => ?_⟩
    · dsimp only
      rw [hget]
      cases hs : n.heap c.generation with
      | none => simp [hs]
      | some s => simpa [hs] using hst s hs
    · dsimp only at hd
      cases hs : n.heap c.generation with
      | none => simp [hs] at hd
      | some s =>
        rw [hs] at hd
        rw [((hfaithful hs).each hd).2.2, hq, Nat.zero_add]

theorem Kept.throw (h : Kept met closed n) (ht : Tame closed n m) (r : Option ResyncRequest)
    (id : SubscriptionId) (e : Text) : Kept met closed (m.finish r id (.error e)) :=
  kept_finish (h.faithful_tame ht) (h.cached_tame ht) (by rw [ht.returns]; exact h.returns)
    fun _ _ _ hc => by cases hc

theorem kept_begins (h : Kept met closed n) {r : Option ResyncRequest} {id : SubscriptionId}
    (hb : Begins closed n r id m) : Kept met closed m := by
  cases hb with
  | waits ht hw => exact h.tame ht (.inr hw.creating)
  | fails e ht => exact h.throw ht r id e

/-- Where `resync` is answered from `resyncSnapshots`, the snapshot is current. -/
theorem kept_resync (h : Kept met closed n) (r : ResyncRequest)
    (hcache : met → cacheCurrent n r = true) : Kept met closed (n.resync r) := by
  rcases begins_resync closed n r with ⟨c, previous, hc, hget, hr⟩ | hb
  · rw [hr]
    refine kept_finish h.faithful h.cached h.returns fun hmet _ c' hc' => ?_
    cases hc'
    have hcurrent := hcache hmet
    simp only [cacheCurrent, hc, hget, Option.filter_some, decide_true, if_true, Option.all_some,
      Bool.and_eq_true, decide_eq_true_eq, Bool.not_eq_true'] at hcurrent
    obtain ⟨rfl, hst⟩ := hcurrent
    refine ⟨h.cached hc, hget, fun s hs => ?_⟩
    simpa [hs] using hst
  · exact kept_begins h hb

/-- A subscription is created. -/
theorem kept_create (options : Options) (h : Kept met closed n) (hpc : creating n.pc = none) (id : SubscriptionId)
    (a : AuthorizationId) (ordered typed windowed : Bool) :
    Kept met closed (n.createSubscription options id a ordered typed windowed) := by
  refine ⟨fun hg => ?_, h.cached, fun _ {_ _} _ hc => ?_, h.returns⟩
  · rcases created_heap closed hg with ⟨-, -, -, -, hf⟩ | hg
    · exact hf
    · exact h.faithful hg
  · rw [show creating n.pc = some _ from hc] at hpc
    cases hpc

theorem kept_settle (h : Kept met closed n) (ho : Owned options closed n)
    {settlement : Settlement} (hs : n.settle closed options settlement = some m) :
    Kept met closed m := by
  cases settle_cases ho hs with
  | waits ht hw => exact h.tame ht (.inr hw.creating)
  | creates id a ordered typed windowed hid hbefore ht hcreating hresync hidm =>
    have hk := kept_create options h hbefore id a ordered typed windowed
    refine ⟨hk.faithful_tame ht, hk.cached_tame ht, fun _ {g t} _ hc hg => ?_,
      by rw [ht.returns]; exact h.returns⟩
    -- The replacement is new, so it is not stale.
    obtain ⟨s, hs, -, hst, -⟩ := ht.heap hg
    rw [hcreating, Option.some.injEq] at hc
    subst hc
    rcases created_heap closed hs with ⟨-, -, hfresh, -⟩ | hold
    · rw [hst, hfresh]
    · rw [ho.fresh _ (Nat.le_refl _)] at hold
      cases hold
  | abandons id a ordered typed windowed hid hbefore ht hw =>
    exact (kept_create options h hbefore id a ordered typed windowed).tame ht (.inr hw.creating)
  | fails id e hid ht => exact h.throw ht _ id e
  | answers id g snapshot hid hcreating hstart ht hheap hstored hcached =>
    obtain ⟨-, hgen, hq⟩ := Faithful.answer h.faithful hstart
    refine kept_finish (by rw [hheap]; exact h.faithful) (fun {r c} hc => ?_)
      (by rw [show _ = n.returns from ht.returns]; exact h.returns) fun hmet hr c hc => ?_
    · rw [hcached] at hc
      split at hc
      · cases hc
        exact hq
      · exact h.cached hc
    · cases hc
      refine ⟨hq, by rw [hgen]; exact hstored, fun s hs => ?_⟩
      rw [hheap, hgen] at hs
      exact h.replacing hmet hr hcreating hs
  | unsubscribes hid ht hpc => exact h.tame ht (.inr (by rw [hpc]; rfl))

/-- A subscription is told something: none becomes stale but that of generation `g`,
which is not the replacement of a running `resync`. -/
theorem Kept.deliver (h : Kept met closed n) (hpc : m.pc = n.pc) (hrecord : record m = record n)
    (hheap : ∀ {k t}, m.heap k = some t → ∃ s, n.heap k = some s ∧
      (Faithful closed k s → Faithful closed k t) ∧
      (met → (resyncOf n.pc).isSome → creating n.pc = some k → t.stale = s.stale)) :
    Kept met closed m := by
  have hreturns : m.returns = n.returns := congrArg Prod.fst hrecord
  have hcached : m.resyncSnapshots = n.resyncSnapshots := congrArg Prod.snd hrecord
  refine ⟨fun {k t} ht => ?_, fun hc => h.cached (hcached ▸ hc), fun hmet {k t} hr hc ht => ?_,
    by rw [hreturns]; exact h.returns⟩
  · obtain ⟨s, hs, hf, -⟩ := hheap ht
    exact hf (h.faithful hs)
  · rw [hpc] at hr hc
    obtain ⟨s, hs, -, hst⟩ := hheap ht
    rw [hst hmet hr hc]
    exact h.replacing hmet hr hc hs

/-! ## A step, and a run -/

theorem kept_observe (h : Kept met closed n) {a : Observer.Action} {send : Send} {attempt : Attempt}
    (hkeep : met → keepsReplacement n g a send = true)
    (hm : n.observe closed g a send attempt = some m) : Kept met closed m := by
  refine h.deliver (observe_pc hm) (observe_record hm) fun {k t} ht => ?_
  obtain ⟨s, hs, hf, hst⟩ := observe_heap hm ht
  refine ⟨s, hs, hf, fun hmet hr hc => hst ?_⟩
  have hkeep := hkeep hmet
  cases hpc : n.pc <;> simp_all [keepsReplacement, resyncOf, creating]

theorem kept_timer (h : Kept met closed n) (attempt : Attempt) : Kept met closed
    ((n.modify g fun s => { s with pressureTimer := false }).attemptControl closed g attempt) := by
  have hn := h.tame (tame_timer n g false) (.inl rfl)
  refine hn.deliver (attemptControl_pc _ closed g attempt) (attemptControl_record _ closed g attempt)
    fun {k t} ht => ?_
  obtain ⟨s, b, hs, rfl⟩ := attemptControl_heap ht
  exact ⟨s, hs, fun h => h.timer b, fun _ _ _ => rfl⟩

theorem kept_gone (h : Kept met closed n) : Kept met closed (n.handleGone closed) := by
  unfold Node.handleGone
  split
  · exact h
  · have hn : Kept met closed n.abortPending := h.tame (tame_of_eq rfl (.inl rfl) rfl rfl rfl) (.inl rfl)
    unfold Node.stopNode
    split
    · exact hn
    · have hout : Kept met closed
          { n.abortPending with subscriptions := none, resyncSnapshots := none } :=
        hn.tame (tame_of_eq rfl (.inr rfl) rfl rfl rfl) (.inl rfl)
      exact hout.tame (tame_stopAll _ _) (.inl (stopAll _ _).2.1)

theorem kept_unsubscribe (h : Kept met closed n) (id : SubscriptionId) :
    Kept met closed (n.unsubscribe id) := by
  unfold Node.unsubscribe
  split
  · exact h
  · split
    · exact h
    · split
      · exact h
      · exact h.tame ((tame_setMap n _ _).trans ((tame_stopSubscription _ _).pc _)) (.inr rfl)

theorem kept_node (h : Kept met closed n) (ho : Owned options closed n) {act : Engine.Action}
    (hresync : met → ∀ r, act = .resync r → cacheCurrent n r = true)
    (hobserver : met → ∀ g a send attempt, act = .observer g a send attempt →
      keepsReplacement n g a send = true)
    (hs : n.step options closed act = some m) : Kept met closed m := by
  cases act with
  | subscribe r =>
    simp only [Node.step] at hs
    split at hs <;> cases hs
    exact kept_begins h (begins_subscribe n r)
  | resync r =>
    simp only [Node.step] at hs
    split at hs <;> cases hs
    exact kept_resync h r fun hmet => hresync hmet r rfl
  | unsubscribe id =>
    simp only [Node.step] at hs
    split at hs <;> cases hs
    exact kept_unsubscribe h id
  | settle settlement => exact kept_settle h ho hs
  | observer g a send attempt =>
    simp only [Node.step] at hs
    split at hs
    · exact kept_observe h (fun hmet => hobserver hmet g a send attempt rfl) hs
    · cases hs
  | timer g attempt =>
    simp only [Node.step] at hs
    split at hs
    · split at hs <;> cases hs
      exact kept_timer h attempt
    · cases hs
  | login => cases hs; exact h.tame (tame_of_eq rfl (.inl rfl) rfl rfl rfl) (.inl rfl)
  | logout =>
    cases hs
    have hout : Kept met closed { n with authenticated := false } :=
      h.tame (tame_of_eq rfl (.inl rfl) rfl rfl rfl) (.inl rfl)
    exact kept_gone hout
  | disconnect =>
    cases hs
    have hout : Kept met closed { n with socketOpen := false } :=
      h.tame (tame_of_eq rfl (.inl rfl) rfl rfl rfl) (.inl rfl)
    exact kept_gone hout

theorem kept_connected : Kept met closed Node.connected := by
  refine ⟨fun hg => ?_, fun hc => ?_, fun _ {_ _} hr => ?_, fun _ r hr => ?_⟩
  · cases hg
  · cases hc
  · cases hr
  · cases hr

end

/-- What the engine keeps about all nodes. -/
theorem kept_of_reach {options : Options} {e : Engine.State}
    (h : (machine options).Reach keepsCurrent e) (id : NodeId) :
    Owned options e.closed (e.nodes id) ∧ Kept True e.closed (e.nodes id) := by
  refine h.invariant (fun e => ∀ id, Owned options e.closed (e.nodes id) ∧
    Kept True e.closed (e.nodes id)) (fun _ => ⟨owned_connected options false, kept_connected⟩)
    (fun e a e' hall hok hs id => ?_) id
  cases a with
  | node k act =>
    obtain ⟨n, hn, rfl⟩ := Option.map_eq_some_iff.mp hs
    dsimp only
    split
    · obtain ⟨ho, hk⟩ := hall k
      refine ⟨owned_node ho (fun hact => ?_) hn, kept_node hk ho (fun _ r hact => ?_)
        (fun _ g a send attempt hact => ?_) hn⟩
      · subst hact; exact hok
      · subst hact; exact hok
      · subst hact; exact hok
    · exact hall id
  | close =>
    cases hs
    obtain ⟨ho, hk⟩ := hall id
    split
    · exact ⟨ho, hk⟩
    · refine ⟨owned_closed ho, ?_⟩
      exact ⟨fun hg => (hk.faithful hg).close, hk.cached, hk.replacing, hk.returns⟩
  | closeSubscriptions =>
    simp only [machine, Engine.step] at hs
    split at hs <;> cases hs
    next hc =>
    obtain ⟨ho, hk⟩ := hall id
    rw [hc] at ho hk
    dsimp only
    rw [hc]
    refine ⟨owned_close ho, ?_⟩
    have hstop := hk.tame (tame_stopAll (e.nodes id).nodeSubscriptions.values _)
      (.inl (stopAll _ _).2.1)
    exact hstop.tame (tame_of_eq rfl (.inl rfl) rfl rfl rfl) (.inl rfl)

/-- **Resync responses are current.** In every run in which no repeated `resync` is
answered with a snapshot that is not current any more and no replacement becomes
stale before its `resync` is back: the snapshot of every `resync` has the generation
that is stored when it returns, that subscription is not stale, and the deltas of
the generation handed to the socket before continue from the snapshot. -/
theorem resync_responses_current {options : Options} {e : Engine.State}
    (h : (machine options).Reach keepsCurrent e) (id : NodeId) (r : Return)
    (hr : r ∈ (e.nodes id).returns) (hresync : r.resync.isSome = true) : Current r :=
  (kept_of_reach h id).2.returns trivial r hr hresync

instance (e : Engine.State) : ∀ a, Decidable (keepsCurrent e a)
  | .node id (.resync r) => inferInstanceAs (Decidable (cacheCurrent (e.nodes id) r = true))
  | .node id (.observer g a send _) =>
    inferInstanceAs (Decidable (keepsReplacement (e.nodes id) g a send = true))
  | .node id .logout => inferInstanceAs (Decidable (isStopping (e.nodes id).pc = false))
  | .node _ (.subscribe _) | .node _ (.unsubscribe _) | .node _ (.settle _)
  | .node _ (.timer _ _) | .node _ .login | .node _ .disconnect
  | .close | .closeSubscriptions => isTrue trivial

/-! ### Two runs -/

/-- A `resync` of generation `g` up to the snapshot of generation `g'`. -/
def replace (id : SubscriptionId) (g g' : Generation) : List Engine.Action :=
  [.resync ⟨id, g⟩] ++ [.settle (.fulfilled false)] ++ untilSnapshot g' ++ [.settle (.fulfilled false)]

/-- The source is reset under the observer of generation `g`. -/
def resetSource (g : Generation) : Engine.Action :=
  .observer g (.notice (.reset 3 .invalidated)) .accepted ⟨.accepted, false⟩

/-- The request is repeated after a delta of the replacement. -/
theorem resync_responses_current_repeated : ∃ e r, (machine ⟨2, 10⟩).Reach keepsCurrent e ∧
    r ∈ (e.nodes 0).returns ∧ r.resync.isSome = true ∧ r.sent.length = 1 ∧ Current r := by
  obtain ⟨e, he, hP⟩ := (machine ⟨2, 10⟩).exists_of_exec keepsCurrent
    ⟨fun _ => Node.connected, false⟩
    (onNode ([.login, request 7] ++ untilSnapshot 0 ++ [.settle (.fulfilled false), resetSource 0] ++
      replace 7 0 1 ++ (Simulation.addB.map fun a => .observer 1 a .accepted ⟨.accepted, false⟩) ++
      [.resync ⟨7, 0⟩]))
    (fun e => (e.nodes 0).returns.any fun r => r.resync.isSome && r.sent.length == 1) (by decide)
  simp only [List.any_eq_true, Bool.and_eq_true, beq_iff_eq] at hP
  obtain ⟨r, hr, hsome, hsent⟩ := hP
  exact ⟨e, r, he, hr, hsome, hsent, resync_responses_current he 0 r hr hsome⟩

/-- The replacement becomes stale, and the request that it was made for is repeated:
the snapshot of the replacement is returned once more. -/
theorem repeated_resync_stale : ¬ ∀ (options : Options) (e : Engine.State) (id : NodeId) (r : Return),
    (machine options).Reach anyStep e → r ∈ (e.nodes id).returns → r.resync.isSome = true →
    Current r := by
  intro h
  obtain ⟨e, he, hP⟩ := (machine ⟨2, 10⟩).exists_of_exec anyStep ⟨fun _ => Node.connected, false⟩
    (onNode ([.login, request 7] ++ untilSnapshot 0 ++ [.settle (.fulfilled false), resetSource 0] ++
      replace 7 0 1 ++ [resetSource 1, .resync ⟨7, 0⟩]))
    (fun e => (e.nodes 0).returns.any fun r => r.resync.isSome && r.result.isOk && r.stale)
    (by decide)
  simp only [List.any_eq_true, Bool.and_eq_true] at hP
  obtain ⟨r, hr, ⟨hsome, hok⟩, hst⟩ := hP
  cases hres : r.result with
  | error e => rw [hres] at hok; cases hok
  | ok snapshot =>
    have hfresh := (h _ e 0 r he hr hsome snapshot hres).2.1
    rw [hst] at hfresh
    cases hfresh

end TypeFerry.Live.Currency
