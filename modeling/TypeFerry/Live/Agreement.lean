import TypeFerry.Live.Session

/-! # A view at rest agrees with its subscription

When nothing is on its way any more, a view that is ready has the generation that
the engine has stored, that subscription is not stale, and the view has applied
all its deltas, unless the view has thrown away an event that it still needed:
a control event or a delta that came before the response it belongs to. The
invariant follows the last request: while it is not answered, what was sent of
the subscription it creates is on its way or among the early deltas. -/
namespace TypeFerry.Live.Agreement
open TypeFerry.Lib.Numeral TypeFerry.Lib.OrderedMap TypeFerry.Lib.Runs
open TypeFerry.Live.Types TypeFerry.Live.Engine TypeFerry.Live.Ownership TypeFerry.Live.Requests
open TypeFerry.Live.Currency TypeFerry.Live.Session

/-! ## The condition -/

/-- A `resync` of the view would wait for the call that is outstanding. -/
def coalesces (v : View.State) : Bool :=
  if v.generation.isSome then v.resyncPromise.isSome else v.startPromise.isSome

/-- The generations of what a view throws away with a message: early deltas of another
generation than that of the snapshot, an event that asks for a `resync` while a call
is outstanding, early deltas that are too many. -/
def dropped (v : View.State) : Message → List Generation
  | .response _ (.ok c) => (v.bufferedDeltas.map Delta.generation).filter fun g => g ≠ c.generation
  | .response _ (.error _) => []
  | .event (.resyncRequired _ g) =>
    if (v.generation = none ∨ v.generation = some g) ∧ coalesces v = false then [] else [g]
  | .event (.delta d) =>
    if v.snapshot.status ≠ .ready ∨ v.generation = none then
      if View.maxEarlyDeltas ≤ v.bufferedDeltas.length ∧ (v.generation = none ∨ coalesces v = true) then
        (v.bufferedDeltas ++ [d]).map Delta.generation
      else []
    else if some d.generation = v.generation ∧ (d.sequence ≤ v.sequence ∨
        d.sequence = v.sequence + 1 ∧ (v.contents.applyInFull d.operations).isSome) then []
    else if coalesces v then [d.generation]
    else []

/-- The generation stored for the view. -/
def stored (s : Session.State) : Option Generation :=
  s.node.nodeSubscriptions.get s.view.subscriptionId

/-- No request waits, and the view will have to follow this generation, or has to. -/
def needed (s : Session.State) (g : Generation) : Bool :=
  s.requests.isEmpty && match creating s.node.pc with
    | some g' => g' = g
    | none => s.node.pc = .idle && stored s = some g && match s.pending.getLast? with
      | some (_, .ok _) => true
      | some (_, .error _) => false
      | none => s.view.snapshot.status = .ready

/-- The view throws nothing away that it needs. -/
def losesNothing (s : Session.State) : Session.Action → Prop
  | .receive => ∀ m ∈ s.channel.head?, ∀ g ∈ dropped s.view m, needed s g = false
  | _ => True

/-- Nothing is on its way, and neither the view nor the node has anything to do. -/
structure AtRest (s : Session.State) : Prop where
  channel : s.channel = []
  unsent : s.unsent = []
  requests : s.requests = []
  node : s.node.pc = .idle
  timers : ∀ g < s.node.nextGeneration, ∀ t ∈ s.node.heap g, t.pressureTimer = false
  calls : s.view.calls = []
  followUps : s.view.followUps = []

/-! ## The generations on their way -/

def okGeneration : ℕ × Except Text Snapshot → Option Generation
  | (_, .ok c) => some c.generation
  | (_, .error _) => none

/-- The generation of the view, those of the responses on their way, and that which
is being created. -/
def chain (s : Session.State) : List Generation :=
  s.view.generation.toList ++ s.pending.filterMap okGeneration ++ (creating s.node.pc).toList

def eventGeneration : Event → Generation
  | .delta d => d.generation
  | .resyncRequired _ g => g

def eventId : Event → SubscriptionId
  | .delta d => d.subscriptionId
  | .resyncRequired id _ => id

/-- Generations come one after the other, so no `resync` is answered twice. -/
structure Ordered (s : Session.State) : Prop where
  sorted : (chain s).Pairwise (· < ·)
  bounded : ∀ g ∈ chain s, g < s.node.nextGeneration
  channel : ∀ e, .event e ∈ s.channel → eventGeneration e < s.node.nextGeneration ∧
    eventId e = s.view.subscriptionId
  buffered : ∀ d ∈ s.view.bufferedDeltas, d.generation < s.node.nextGeneration
  requested : ∀ c ∈ s.requests, ∀ g, c.method = .resync g → g < s.node.nextGeneration
  resyncing : ∀ r, resyncOf s.node.pc = some r → r.staleGeneration < s.node.nextGeneration ∧
    ∀ g, creating s.node.pc = some g → r.staleGeneration < g
  zero : ∀ p c, (p, .ok c) ∈ s.pending → c.sequence = 0
  cached : ∀ r c, s.node.resyncSnapshots = some (r, c) → r.staleGeneration < c.generation ∧
    ((∃ g, s.view.generation = some g ∧ c.generation ≤ g) ∨
      ∃ p, (p, .ok c) ∈ s.pending ∧ s.view.resyncPromise = some p)
  fresh : ∀ q ∈ s.requests, ∀ g, q.method = .resync g → ∀ r c,
    s.node.resyncSnapshots = some (r, c) → r.staleGeneration < g
  ids : ∀ g t, s.node.heap g = some t → t.id = s.view.subscriptionId

/-! ## What the view follows -/

/-- The deltas on their way. -/
def deltasIn (ms : List Message) : List Delta :=
  ms.filterMap fun
    | .event (.delta d) => some d
    | _ => none

/-- What was sent of generation `g` behind the first `q` deltas is among the early
deltas or on its way; if the subscription is stale, so is a control event, or it is
still to be sent. -/
structure Follows (s : Session.State) (g : Generation) (early : List Delta) (q : ℕ)
    (t : Subscription) : Prop where
  heap : s.node.heap g = some t
  stale : t.stale = true → t.pressureTimer = true ∨
    .event (.resyncRequired s.view.subscriptionId g) ∈ s.channel
  fresh : t.stale = false → q ≤ t.sent.length ∧
    (early ++ deltasIn s.channel).filter (fun d => d.generation = g) = t.sent.drop q

/-- The view waits for the snapshot of generation `g`. -/
def Awaits (s : Session.State) (g : Generation) : Prop :=
  ∃ t, Follows s g s.view.bufferedDeltas 0 t

/-- The view is in step with what is stored. -/
def InStep (s : Session.State) : Prop :=
  ∃ g t, s.view.generation = some g ∧ stored s = some g ∧ Follows s g [] s.view.sequence t

/-- A `resync` follows when the outstanding one has settled. -/
def FollowedUp (v : View.State) : Prop :=
  v.generation.isSome ∧ ∃ p ∈ v.followUps, v.resyncPromise = none ∨ v.resyncPromise = some p

structure Agrees (s : Session.State) : Prop where
  creating : s.requests = [] → ∀ g, creating s.node.pc = some g → Awaits s g
  answered : s.requests = [] → s.node.pc = .idle → ∀ p c, s.pending.getLast? = some (p, .ok c) →
    stored s = some c.generation ∧ Awaits s c.generation
  ready : s.requests = [] → s.node.pc = .idle → s.pending = [] → s.view.snapshot.status = .ready →
    InStep s ∨ FollowedUp s.view

/-- What holds between the calls of the view and the requests of the node. -/
structure Inv (setup : Setup) (s : Session.State) : Prop where
  id : s.view.subscriptionId = setup.subscriptionId
  owned : Owned setup.options false s.node
  kept : Kept False false s.node
  wired : Wired s
  ordered : Ordered s
  agrees : Agrees s

/-! ## What the view does with a message -/

section
variable {v : View.State}

theorem start_same (h : ¬ v.nextCall < v.start.nextCall) : v.start = v := by
  unfold View.State.start at h ⊢
  split
  · rfl
  · next hgo =>
    rw [if_neg hgo] at h
    exact absurd (Nat.lt_succ_self _) h

theorem resync_same (h : ¬ v.nextCall < v.resync.nextCall) : v.resync = v := by
  unfold View.State.resync at h ⊢
  split
  · rfl
  · next hgo =>
    rw [if_neg hgo] at h
    split
    · next hg => rw [hg] at h; exact start_same h
    · next g hg =>
      rw [hg] at h
      split
      · rfl
      · next hr =>
        dsimp only at h
        rw [if_neg hr] at h
        exact absurd (Nat.lt_succ_self _) h

theorem start_issues (hs : v.stopped = false) (hp : v.startPromise = none) :
    v.nextCall < v.start.nextCall := by
  unfold View.State.start
  simp [hs, hp, View.State.issue, View.State.updateSnapshot]

theorem resync_issues (hs : v.stopped = false) (hc : coalesces v = false) :
    v.nextCall < v.resync.nextCall := by
  unfold coalesces at hc
  unfold View.State.resync
  rw [if_neg (by simp [hs])]
  split
  · next hg =>
    rw [hg] at hc
    exact start_issues hs (by simpa using hc)
  · next g hg =>
    rw [hg] at hc
    have hr : v.resyncPromise = none := by simpa using hc
    simp [hr, View.State.issue, View.State.updateSnapshot]

/-- A view that issues no call with its `resync` waits for another one. -/
theorem coalesces_of_quiet (hs : v.stopped = false) (hq : ¬ v.nextCall < v.resync.nextCall) :
    coalesces v = true := by
  by_contra hc
  exact hq (resync_issues hs (by simpa using hc))

/-- A view that issues no call with a delta. -/
inductive TakesDelta (v : View.State) (d : Delta) : View.State → List Generation → Prop where
  | buffered (hearly : v.snapshot.status ≠ .ready ∨ v.generation = none) :
      TakesDelta v d { v with bufferedDeltas := v.bufferedDeltas ++ [d] } []
  | overflows : TakesDelta v d { v with bufferedDeltas := [] }
      ((v.bufferedDeltas ++ [d]).map Delta.generation)
  | foreign : TakesDelta v d v [d.generation]
  | old (hready : v.snapshot.status = .ready) (hg : v.generation = some d.generation)
      (hq : d.sequence ≤ v.sequence) : TakesDelta v d v []
  | applied (c : View.Contents) (hready : v.snapshot.status = .ready)
      (hg : v.generation = some d.generation) (hq : d.sequence = v.sequence + 1) :
      TakesDelta v d ({ v with contents := c, sequence := d.sequence }.updateSnapshot .ready) []
  | rejected (c : View.Contents) : TakesDelta v d { v with contents := c } [d.generation]

theorem takesDelta {d : Delta} (hstopped : v.stopped = false)
    (hid : d.subscriptionId = v.subscriptionId)
    (hq : ¬ v.nextCall < (v.handleEvent (.delta d)).nextCall) :
    TakesDelta v d (v.handleEvent (.delta d)) (dropped v (.event (.delta d))) := by
  have hevent : v.handleEvent (.delta d) = v.handleDelta d := by
    simp [View.State.handleEvent, hstopped, hid]
  rw [hevent] at hq ⊢
  unfold View.State.handleDelta at hq ⊢
  simp only [dropped]
  split
  · next hearly =>
    rw [if_pos hearly] at hq
    split
    · next hfull =>
      rw [if_pos hfull] at hq
      split
      · next hgen =>
        rw [if_pos hgen] at hq
        have hc : coalesces { v with bufferedDeltas := [] } = true := coalesces_of_quiet hstopped hq
        rw [resync_same (v := { v with bufferedDeltas := [] }) hq, if_pos ⟨hfull, .inr hc⟩]
        exact .overflows
      · next hgen =>
        rw [if_pos ⟨hfull, .inl (by simpa using hgen)⟩]
        exact .overflows
    · next hfull =>
      rw [if_neg fun h => hfull h.1]
      exact .buffered hearly
  · next hearly =>
    rw [if_neg hearly] at hq
    obtain ⟨hready, -⟩ : v.snapshot.status = .ready ∧ ¬ v.generation = none := by
      simpa using hearly
    split
    · next hforeign =>
      rw [if_pos hforeign] at hq
      rw [resync_same hq, if_neg fun h => hforeign h.1, if_pos (coalesces_of_quiet hstopped hq)]
      exact .foreign
    · next hown =>
      rw [if_neg hown] at hq
      have hg : v.generation = some d.generation := (not_not.mp hown).symm
      split
      · next hold =>
        rw [if_pos ⟨hg.symm, .inl hold⟩]
        exact .old hready hg hold
      · next hnew =>
        rw [if_neg hnew] at hq
        rcases View.applyDelta_cases v d with ⟨hseq, h⟩ | ⟨c, hseq, hall, h⟩ | ⟨c, hseq, hnone, -, h⟩
        · rw [h] at hq ⊢
          dsimp only at hq ⊢
          rw [resync_same hq, if_neg (by simp [hnew, hseq]), if_pos (coalesces_of_quiet hstopped hq)]
          exact .rejected v.contents
        · rw [h]
          dsimp only
          rw [if_pos ⟨hg.symm, .inr ⟨hseq, by rw [hall]; rfl⟩⟩]
          exact .applied c hready hg hseq
        · rw [h] at hq ⊢
          dsimp only at hq ⊢
          have hc : coalesces v = true := coalesces_of_quiet (v := { v with contents := c }) hstopped hq
          rw [resync_same hq, if_neg (by simp [hnew, hnone]), if_pos hc]
          exact .rejected c

/-- A view that issues no call with a control event does nothing. -/
theorem takesControl {id : SubscriptionId} {g : Generation} (hstopped : v.stopped = false)
    (hid : eventId (.resyncRequired id g) = v.subscriptionId)
    (hq : ¬ v.nextCall < (v.handleEvent (.resyncRequired id g)).nextCall) :
    v.handleEvent (.resyncRequired id g) = v ∧ dropped v (.event (.resyncRequired id g)) = [g] := by
  have hgo : ¬ (v.stopped = true ∨ id ≠ v.subscriptionId) := by
    rw [show id = v.subscriptionId from hid]
    simp [hstopped]
  simp only [View.State.handleEvent, if_neg hgo, dropped] at hq ⊢
  split
  · next hg =>
    rw [if_pos hg] at hq
    refine ⟨resync_same hq, if_neg fun h => ?_⟩
    rw [coalesces_of_quiet hstopped hq] at h
    cases h.2
  · next hg => exact ⟨rfl, if_neg fun h => hg h.1⟩

/-- The early deltas of a snapshot. -/
structure Buffers (v w : View.State) (ds : List Delta) : Prop where
  generation : w.generation = v.generation
  bufferedDeltas : w.bufferedDeltas = v.bufferedDeltas
  /-- All are applied, unless a `resync` follows. -/
  outcome : v.nextCall < w.nextCall ∨ (v.generation.isSome → FollowedUp w) ∨
    ∀ g, v.generation = some g → (∀ n d, (ds.filter fun d => d.generation = g)[n]? = some d →
      d.sequence = v.sequence + n + 1) →
      w.sequence = v.sequence + (ds.filter fun d => d.generation = g).length

theorem resync_keeps (v : View.State) : v.resync.generation = v.generation ∧
    v.resync.bufferedDeltas = v.bufferedDeltas := by
  unfold View.State.resync
  split
  · exact ⟨rfl, rfl⟩
  · split
    · unfold View.State.start
      split <;> exact ⟨rfl, rfl⟩
    · split <;> exact ⟨rfl, rfl⟩

theorem buffers (ds : List Delta) (hstopped : v.stopped = false) :
    Buffers v (v.applyBuffered ds) ds := by
  induction ds generalizing v with
  | nil => exact ⟨rfl, rfl, .inr (.inr fun _ _ _ => rfl)⟩
  | cons d ds ih =>
    rw [View.State.applyBuffered]
    split
    · next hskip =>
      have h := ih hstopped
      refine ⟨h.generation, h.bufferedDeltas, h.outcome.imp_right (Or.imp_right ?_)⟩
      intro hall g hg hnum
      by_cases hd : d.generation = g
      · -- A delta of the generation is not numbered like this.
        rw [List.filter_cons_of_pos (by simpa using hd)] at hnum
        have hseq := hnum 0 d rfl
        rcases hskip with hne | hle
        · rw [hg, hd] at hne
          exact absurd rfl hne
        · omega
      · rw [List.filter_cons_of_neg (by simpa using hd)] at hnum ⊢
        exact hall g hg hnum
    · next hnew =>
      obtain ⟨hgen, hlt⟩ : v.generation = some d.generation ∧ v.sequence < d.sequence := by
        rw [not_or, not_not, Nat.not_le] at hnew
        exact ⟨hnew.1.symm, hnew.2⟩
      have hfollow : ∀ (u : View.State) (p : ℕ), u.generation = v.generation →
          u.bufferedDeltas = v.bufferedDeltas → u.resyncPromise = some p →
          Buffers v { u with followUps := u.followUps ++ [p] } (d :: ds) := by
        intro u p hg hb hr
        refine ⟨hg, hb, .inr (.inl fun hsome => ⟨hg ▸ hsome, p, ?_, .inr hr⟩)⟩
        exact List.mem_append_right _ (List.mem_singleton.mpr rfl)
      have hresync : ∀ u : View.State, u.generation = v.generation →
          u.bufferedDeltas = v.bufferedDeltas → u.nextCall = v.nextCall → u.stopped = false →
          u.resyncPromise = none → Buffers v u.resync (d :: ds) := by
        intro u hg hb hn hs hr
        obtain ⟨h₁, h₂⟩ := resync_keeps u
        refine ⟨h₁.trans hg, h₂.trans hb, .inl ?_⟩
        rw [← hn]
        exact resync_issues hs (by simp [coalesces, hg, hgen, hr])
      rcases View.applyDelta_cases v d with ⟨-, h⟩ | ⟨c, hseq, -, h⟩ | ⟨c, -, -, -, h⟩
      · rw [h]
        dsimp only
        split
        · next p hr => exact hfollow v p rfl rfl hr
        · next hr => exact hresync v rfl rfl rfl hstopped hr
      · rw [h]
        have ih := @ih ({ v with contents := c, sequence := d.sequence }.updateSnapshot .ready) hstopped
        refine ⟨ih.generation, ih.bufferedDeltas, ih.outcome.imp_right (Or.imp_right ?_)⟩
        intro hall g hg hnum
        obtain rfl : d.generation = g := by rw [hgen, Option.some.injEq] at hg; exact hg
        rw [List.filter_cons_of_pos (by simp)] at hnum ⊢
        have hrest := hall d.generation hg fun n x hx => by
          rw [hnum (n + 1) x hx]
          change v.sequence + (n + 1) + 1 = d.sequence + n + 1
          omega
        rw [hrest, List.length_cons]
        change d.sequence + _ = _
        omega
      · rw [h]
        dsimp only
        split
        · next p hr => exact hfollow { v with contents := c } p rfl rfl hr
        · next hr => exact hresync { v with contents := c } rfl rfl rfl hstopped hr

end

/-! ## The view goes on -/

section
variable {setup : Setup} {s : Session.State} {v : View.State} {method : Option View.Method}

/-- The view goes on with the same generation. -/
theorem Ordered.acted (h : Ordered s) (hw : Wired s) (hm : Acts s.view v method)
    (hgen : v.generation = s.view.generation)
    (hbuffered : ∀ d ∈ v.bufferedDeltas, d.generation < s.node.nextGeneration) :
    Ordered (s.acted v) := by
  have hrequests := (inFlight_acted hw hm).1
  have hchain : chain (s.acted v) = chain s := by
    rw [chain, chain, show (s.acted v).view.generation = s.view.generation from hgen]
    rfl
  have hid : (s.acted v).view.subscriptionId = s.view.subscriptionId := hm.subscriptionId
  have hnew : ∀ c ∈ issued s.view method, method = some c.method := by
    intro c hc
    cases method with
    | none => cases hc
    | some m => obtain rfl := List.mem_singleton.mp hc; rfl
  have hissued : ∀ {c}, c ∈ issued s.view method → ∀ {g}, c.method = .resync g →
      s.view.generation = some g ∧ s.view.resyncPromise = none := by
    intro c hc g hg
    have hpromises := hm.promises
    rw [hnew c hc, hg] at hpromises
    exact ⟨hgen ▸ hpromises.1, hpromises.2.1⟩
  refine ⟨by rw [hchain]; exact h.sorted, by rw [hchain]; exact h.bounded,
    fun e he => by rw [hid]; exact h.channel e he, hbuffered, fun c hc g hg => ?_, h.resyncing, h.zero,
    fun r c hc => ?_, fun q hq g hg r c hc => ?_, fun g t ht => by rw [hid]; exact h.ids g t ht⟩
  · rw [hrequests] at hc
    rcases List.mem_append.mp hc with hc | hc
    · exact h.requested c hc g hg
    · refine h.bounded g (List.mem_append_left _ (List.mem_append_left _ ?_))
      rw [(hissued hc hg).1]
      exact List.mem_singleton.mpr rfl
  · obtain ⟨hlt, hor⟩ := h.cached r c hc
    refine ⟨hlt, hor.imp (fun ⟨g, hg, hle⟩ => ⟨g, hgen.trans hg, hle⟩) fun ⟨p, hp, hpromise⟩ => ⟨p, hp, ?_⟩⟩
    have hpromises := hm.promises
    unfold Promises at hpromises
    split at hpromises
    · rw [hpromises.2.1] at hpromise
      cases hpromise
    · exact hpromises.trans hpromise
  · rw [hrequests] at hq
    rcases List.mem_append.mp hq with hq | hq
    · exact h.fresh q hq g hg r c hc
    · -- No `resync` is outstanding, so the one that was answered has been handled.
      obtain ⟨hview, hnone⟩ := hissued hq hg
      obtain ⟨hlt, ⟨g', hg', hle⟩ | ⟨p, -, hpromise⟩⟩ := h.cached r c hc
      · rw [hview, Option.some.injEq] at hg'
        subst hg'
        exact Nat.lt_of_lt_of_le hlt hle
      · rw [hnone] at hpromise
        cases hpromise

/-- Only what is on its way has changed, and no event has come. -/
theorem Ordered.fewer (h : Ordered s) {s' : Session.State} (hnode : s'.node = s.node)
    (hview : s'.view = s.view) (hrequests : s'.requests = s.requests)
    (hpending : s'.pending = s.pending) (hchannel : ∀ e, .event e ∈ s'.channel → .event e ∈ s.channel) :
    Ordered s' := by
  have hchain : chain s' = chain s := by rw [chain, chain, hview, hpending, hnode]
  refine ⟨by rw [hchain]; exact h.sorted, by rw [hchain, hnode]; exact h.bounded, ?_,
    by rw [hview, hnode]; exact h.buffered, by rw [hrequests, hnode]; exact h.requested,
    by rw [hnode]; exact h.resyncing, by rw [hpending]; exact h.zero,
    by rw [hnode, hview, hpending]; exact h.cached, by rw [hrequests, hnode]; exact h.fresh,
    by rw [hnode, hview]; exact h.ids⟩
  rw [hnode, hview]
  exact fun e he => h.channel e (hchannel e he)

/-- The view issues a call. -/
theorem agrees_of_issue (hw : Wired s) (hm : Acts s.view v method)
    (hissue : s.view.nextCall < v.nextCall) : Agrees (s.acted v) := by
  have hne : (s.acted v).requests ≠ [] := by
    rw [(inFlight_acted hw hm).1]
    intro hnil
    have hlen := hm.nextCall
    rw [(List.append_eq_nil_iff.mp hnil).2] at hlen
    exact absurd hissue (by rw [hlen]; exact Nat.lt_irrefl _)
  exact ⟨fun h => absurd h hne, fun h => absurd h hne, fun h => absurd h hne⟩

theorem Follows.of_eq {g : Generation} {early : List Delta} {q : ℕ} {t : Subscription}
    (h : Follows s g early q t) {s' : Session.State} (hnode : s'.node = s.node)
    (hid : s'.view.subscriptionId = s.view.subscriptionId)
    (hcontrol : ∀ e, .event e ∈ s.channel → .event e ∈ s'.channel)
    (hdeltas : deltasIn s'.channel = deltasIn s.channel) : Follows s' g early q t := by
  refine ⟨by rw [hnode]; exact h.heap, fun hst => ?_, fun hst => by rw [hdeltas]; exact h.fresh hst⟩
  rw [hid]
  exact (h.stale hst).imp_right (hcontrol _)

/-- The view goes on without a call, and keeps what the agreement is about. -/
theorem Agrees.same (h : Agrees s) {s' : Session.State} (hnode : s'.node = s.node)
    (hrequests : s'.requests = [] → s.requests = []) (hpending : s'.pending = s.pending)
    (hid : s'.view.subscriptionId = s.view.subscriptionId)
    (hcontrol : ∀ e, .event e ∈ s.channel → .event e ∈ s'.channel)
    (hdeltas : deltasIn s'.channel = deltasIn s.channel)
    (hbuffered : s'.view.bufferedDeltas = s.view.bufferedDeltas)
    (hgen : s'.view.generation = s.view.generation) (hseq : s'.view.sequence = s.view.sequence)
    (hstatus : s'.view.snapshot.status = s.view.snapshot.status)
    (hfollow : FollowedUp s.view → FollowedUp s'.view) : Agrees s' := by
  have hawaits : ∀ {g}, Awaits s g → Awaits s' g := by
    rintro g ⟨t, ht⟩
    refine ⟨t, ?_⟩
    rw [hbuffered]
    exact ht.of_eq hnode hid hcontrol hdeltas
  have hstored : stored s' = stored s := by rw [stored, stored, hnode, hid]
  refine ⟨fun hr g hg => ?_, fun hr hpc p c hlast => ?_, fun hr hpc hnil hready => ?_⟩
  · rw [hnode] at hg
    exact hawaits (h.creating (hrequests hr) g hg)
  · rw [hnode] at hpc
    rw [hpending] at hlast
    obtain ⟨h₁, h₂⟩ := h.answered (hrequests hr) hpc p c hlast
    exact ⟨hstored.trans h₁, hawaits h₂⟩
  · rw [hnode] at hpc
    rw [hpending] at hnil
    rw [hstatus] at hready
    refine (h.ready (hrequests hr) hpc hnil hready).imp ?_ hfollow
    rintro ⟨g, t, h₁, h₂, ht⟩
    refine ⟨g, t, hgen.trans h₁, hstored.trans h₂, ?_⟩
    rw [hseq]
    exact ht.of_eq hnode hid hcontrol hdeltas

theorem acted_requests (hr : (s.acted v).requests = []) : s.requests = [] :=
  (List.append_eq_nil_iff.mp hr).1

/-- `start` and `resync` of the view. -/
theorem inv_called (h : Inv setup s) (hm : Acts s.view v method)
    (hsame : ¬ s.view.nextCall < v.nextCall → v = s.view)
    (hgen : v.generation = s.view.generation) (hbuffered : v.bufferedDeltas = s.view.bufferedDeltas) :
    Inv setup (s.acted v) := by
  refine ⟨hm.subscriptionId.trans h.id, h.owned, h.kept, h.wired.acted hm,
    h.ordered.acted h.wired hm hgen (by rw [hbuffered]; exact h.ordered.buffered), ?_⟩
  by_cases hissue : s.view.nextCall < v.nextCall
  · exact agrees_of_issue h.wired hm hissue
  · have hv := hsame hissue
    subst hv
    exact h.agrees.same rfl acted_requests rfl rfl (fun _ he => he) rfl rfl rfl rfl rfl fun hf => hf

theorem start_keeps (v : View.State) : v.start.generation = v.generation ∧
    v.start.bufferedDeltas = v.bufferedDeltas := by
  unfold View.State.start
  split <;> exact ⟨rfl, rfl⟩

/-- A `resync` behind one that has settled. -/
theorem inv_followUp (h : Inv setup s) {promise : ℕ} (hv : s.view.followUp promise = some v) :
    Inv setup (s.acted v) := by
  unfold View.State.followUp at hv
  split at hv
  · next hgo =>
    cases hv
    have hmark : Acts s.view { s.view with followUps := s.view.followUps.erase promise } none :=
      acts_of_eq rfl rfl rfl rfl rfl rfl
    obtain ⟨method, hm⟩ := acts_resync { s.view with followUps := s.view.followUps.erase promise }
    have hm := hmark.trans hm
    obtain ⟨hgen, hbuffered⟩ := resync_keeps
      { s.view with followUps := s.view.followUps.erase promise }
    refine ⟨hm.subscriptionId.trans h.id, h.owned, h.kept, h.wired.acted hm,
      h.ordered.acted h.wired hm hgen (by rw [hbuffered]; exact h.ordered.buffered), ?_⟩
    by_cases hissue : s.view.nextCall <
        View.State.nextCall { s.view with followUps := s.view.followUps.erase promise }.resync
    · exact agrees_of_issue h.wired hm hissue
    · rw [resync_same (v := { s.view with followUps := s.view.followUps.erase promise }) hissue]
      refine h.agrees.same rfl acted_requests rfl rfl (fun _ he => he) rfl rfl rfl rfl rfl ?_
      -- Another promise is followed up.
      rintro ⟨hsome, q, hq, hpromise⟩
      refine ⟨hsome, q, ?_, hpromise⟩
      rcases hpromise with hnone | hq'
      · refine absurd (resync_issues (v := { s.view with followUps := s.view.followUps.erase promise })
          h.wired.stopped ?_) hissue
        rw [coalesces, if_pos hsome]
        exact congrArg Option.isSome hnone
      · refine (List.mem_erase_of_ne fun heq => ?_).mpr hq
        obtain ⟨c, hc, hcq⟩ := h.wired.promised q hq'
        have := List.any_eq_false.mp hgo.2 c hc
        simp [hcq, heq] at this
  · cases hv

/-- The `finally` handler of a call. -/
theorem inv_settled (h : Inv setup s) {call : ℕ} (hv : s.view.settle call = some v) :
    Inv setup { s with view := v } := by
  have hwired := h.wired.settled hv
  unfold View.State.settle at hv
  split at hv
  · next hany =>
    cases hv
    refine ⟨h.id, h.owned, h.kept, hwired, ?_, ?_⟩
    · refine ⟨h.ordered.sorted, h.ordered.bounded, h.ordered.channel, h.ordered.buffered,
        h.ordered.requested, h.ordered.resyncing, h.ordered.zero, fun r c hc => ?_, h.ordered.fresh,
        h.ordered.ids⟩
      obtain ⟨hlt, hor⟩ := h.ordered.cached r c hc
      refine ⟨hlt, hor.imp_right fun ⟨p, hp, hpromise⟩ => ⟨p, hp, ?_⟩⟩
      -- The call of a response on its way is not answered.
      have hflight : p ∈ s.inFlight :=
        List.mem_append_left _ (List.mem_append_left _ (List.mem_map_of_mem hp))
      dsimp only
      rw [if_neg, hpromise]
      rw [hpromise, Option.some.injEq]
      rintro rfl
      obtain ⟨a, ha, hac⟩ := List.any_eq_true.mp hany
      obtain ⟨hid, hanswered⟩ : a.id = p ∧ a.answered = true := by simpa using hac
      rw [h.wired.unanswered p hflight a ha hid] at hanswered
      cases hanswered
    · refine h.agrees.same rfl (fun hr => hr) rfl rfl (fun _ he => he) rfl rfl rfl rfl rfl ?_
      rintro ⟨hsome, q, hq, hpromise⟩
      refine ⟨hsome, q, hq, ?_⟩
      dsimp only
      split
      · exact .inl rfl
      · exact hpromise
  · cases hv

/-- A response is sent. -/
theorem inv_send (h : Inv setup s) {call : ℕ} {result : Except Text Snapshot}
    {rest : List (ℕ × Except Text Snapshot)} (hu : s.unsent = (call, result) :: rest) :
    Inv setup { s with unsent := rest, channel := s.channel ++ [.response call result] } := by
  have hpending : State.pending { s with
      unsent := rest, channel := s.channel ++ [.response call result] } = s.pending := by
    simp only [State.pending, hu, List.filterMap_append, List.append_assoc]
    rfl
  have hflight : State.inFlight { s with
      unsent := rest, channel := s.channel ++ [.response call result] } = s.inFlight := by
    rw [State.inFlight, hpending]
    rfl
  refine ⟨h.id, h.owned, h.kept, h.wired.fewer rfl rfl rfl rfl (by rw [hflight]),
    h.ordered.fewer rfl rfl rfl hpending fun e he => ?_, ?_⟩
  · rcases List.mem_append.mp he with he | he
    · exact he
    · cases List.mem_singleton.mp he
  · refine h.agrees.same rfl (fun hr => hr) hpending rfl (fun _ he => List.mem_append_left _ he) ?_ rfl
      rfl rfl rfl fun hf => hf
    simp [deltasIn]

/-! ### An event -/

/-- An event that is not thrown away is still there for the generation that is
awaited. -/
theorem Awaits.event {g : Generation} (h : Awaits s g) {e : Event} {rest : List Message}
    (hc : s.channel = .event e :: rest) (hw : Wired s) (ho : Ordered s)
    (hquiet : ¬ s.view.nextCall < (s.view.handleEvent e).nextCall)
    (hneeded : g ∉ dropped s.view (.event e)) (hview : s.view.generation ≠ some g) :
    Awaits ({ s with channel := rest }.acted (s.view.handleEvent e)) g := by
  obtain ⟨t, ht⟩ := h
  have hid : (s.view.handleEvent e).subscriptionId = s.view.subscriptionId := by
    obtain ⟨method, hm⟩ := acts_handleEvent s.view e
    exact hm.subscriptionId
  refine ⟨t, ht.heap, fun hst => ?_, fun hst => ?_⟩
  · change _ ∨ .event (.resyncRequired (s.view.handleEvent e).subscriptionId g) ∈ rest
    rw [hid]
    refine (ht.stale hst).imp_right fun hin => ?_
    rw [hc] at hin
    rcases List.mem_cons.mp hin with heq | hin
    · cases heq
      rw [(takesControl hw.stopped (ho.channel _ (hc ▸ List.mem_cons_self ..)).2 hquiet).2] at hneeded
      exact absurd (List.mem_singleton.mpr rfl) hneeded
    · exact hin
  · obtain ⟨-, hall⟩ := ht.fresh hst
    refine ⟨Nat.zero_le _, ?_⟩
    rw [← hall, hc]
    change ((s.view.handleEvent e).bufferedDeltas ++ deltasIn rest).filter _ = _
    cases e with
    | resyncRequired id k => rw [(takesControl hw.stopped (ho.channel _ (hc ▸ List.mem_cons_self ..)).2 hquiet).1]; rfl
    | delta d =>
      have hd := takesDelta hw.stopped (ho.channel _ (hc ▸ List.mem_cons_self ..)).2 hquiet
      change _ = (s.view.bufferedDeltas ++ d :: deltasIn rest).filter _
      generalize s.view.handleEvent (.delta d) = v at hd ⊢
      generalize dropped s.view (.event (.delta d)) = gone at hd hneeded
      have hother : d.generation ≠ g → (s.view.bufferedDeltas ++ deltasIn rest).filter
          (fun d => decide (d.generation = g)) =
          (s.view.bufferedDeltas ++ d :: deltasIn rest).filter fun d => decide (d.generation = g) := by
        intro hne
        rw [List.filter_append, List.filter_append, List.filter_cons_of_neg (by simpa using hne)]
      cases hd with
      | buffered hearly => rw [List.append_assoc]; rfl
      | overflows =>
        have hnone : ∀ x ∈ s.view.bufferedDeltas ++ [d], x.generation ≠ g := fun x hx heq =>
          hneeded (List.mem_map.mpr ⟨x, hx, heq⟩)
        have hnil : s.view.bufferedDeltas.filter (fun d => decide (d.generation = g)) = [] :=
          List.filter_eq_nil_iff.mpr fun x hx => by
            simpa using hnone x (List.mem_append_left _ hx)
        have hd : d.generation ≠ g := hnone d (List.mem_append_right _ (List.mem_singleton.mpr rfl))
        rw [List.filter_append, List.filter_append, hnil, List.filter_cons_of_neg (by simpa using hd)]
        rfl
      | foreign => exact hother fun heq => hneeded (List.mem_singleton.mpr heq.symm)
      | old hready hg hq => exact hother fun heq => hview (heq ▸ hg)
      | applied c hready hg hq => exact hother fun heq => hview (heq ▸ hg)
      | rejected c => exact hother fun heq => hneeded (List.mem_singleton.mpr heq.symm)

/-- A view in step stays so with an event that it does not throw away. -/
theorem InStep.event (h : InStep s) {e : Event} {rest : List Message}
    (hc : s.channel = .event e :: rest) (hw : Wired s) (ho : Ordered s) (hk : Kept False false s.node)
    (hready : s.view.snapshot.status = .ready)
    (hquiet : ¬ s.view.nextCall < (s.view.handleEvent e).nextCall)
    (hneeded : ∀ g ∈ dropped s.view (.event e), stored s ≠ some g) :
    InStep ({ s with channel := rest }.acted (s.view.handleEvent e)) := by
  obtain ⟨g, t, hg, hst, ht⟩ := h
  have hid : (s.view.handleEvent e).subscriptionId = s.view.subscriptionId := by
    obtain ⟨method, hm⟩ := acts_handleEvent s.view e
    exact hm.subscriptionId
  have hstored : stored ({ s with channel := rest }.acted (s.view.handleEvent e)) = some g := by
    rw [← hst, stored, stored]
    change s.node.nodeSubscriptions.get (s.view.handleEvent e).subscriptionId = _
    rw [hid]
  -- The control event is behind this one.
  have hstale : t.stale = true → t.pressureTimer = true ∨
      .event (.resyncRequired (s.view.handleEvent e).subscriptionId g) ∈ rest := by
    intro hstale
    rw [hid]
    refine (ht.stale hstale).imp_right fun hin => ?_
    rw [hc] at hin
    rcases List.mem_cons.mp hin with heq | hin
    · cases heq
      rw [(takesControl hw.stopped (ho.channel _ (hc ▸ List.mem_cons_self ..)).2 hquiet).2] at hneeded
      exact absurd hst (hneeded g (List.mem_singleton.mpr rfl))
    · exact hin
  cases e with
  | resyncRequired id k =>
    have hv := (takesControl hw.stopped (ho.channel _ (hc ▸ List.mem_cons_self ..)).2 hquiet).1
    refine ⟨g, t, ?_, hstored, ht.heap, hstale, fun hfresh => ?_⟩
    · change (s.view.handleEvent _).generation = _
      rw [hv, hg]
    · have hall := ht.fresh hfresh
      rw [hc] at hall
      change (s.view.handleEvent _).sequence ≤ _ ∧ _ = t.sent.drop (s.view.handleEvent _).sequence
      rw [hv]
      exact hall
  | delta d =>
    have hd := takesDelta hw.stopped (ho.channel _ (hc ▸ List.mem_cons_self ..)).2 hquiet
    change ∃ g' t', (s.view.handleEvent (.delta d)).generation = some g' ∧ _
    refine ⟨g, t, ?_, hstored, ht.heap, hstale, fun hfresh => ?_⟩
    · generalize s.view.handleEvent (.delta d) = v at hd ⊢
      generalize dropped s.view (.event (.delta d)) = gone at hd
      cases hd <;> exact hg
    · obtain ⟨hle, hall⟩ := ht.fresh hfresh
      rw [hc] at hall
      change (s.view.handleEvent (.delta d)).sequence ≤ _ ∧
        ([] ++ deltasIn rest).filter _ = t.sent.drop (s.view.handleEvent (.delta d)).sequence
      change ([] ++ d :: deltasIn rest).filter _ = _ at hall
      rw [List.nil_append] at hall ⊢
      generalize s.view.handleEvent (.delta d) = v at hd ⊢
      generalize dropped s.view (.event (.delta d)) = gone at hd hneeded
      have hother : d.generation ≠ g → (deltasIn rest).filter (fun d => decide (d.generation = g)) =
          t.sent.drop s.view.sequence := by
        intro hne
        rw [← hall, List.filter_cons_of_neg (by simpa using hne)]
      have hgone : d.generation ∈ gone → d.generation ≠ g := fun hin heq =>
        hneeded _ hin (heq ▸ hst)
      -- The next delta of the generation is the next one to be applied.
      have hnext : d.generation = g → s.view.sequence < t.sent.length ∧
          d.sequence = s.view.sequence + 1 ∧ (deltasIn rest).filter (fun d => decide (d.generation = g)) =
            t.sent.drop (s.view.sequence + 1) := by
        intro heq
        rw [List.filter_cons_of_pos (by simpa using heq)] at hall
        have hlt : s.view.sequence < t.sent.length := by
          by_contra hge
          rw [List.drop_eq_nil_of_le (Nat.le_of_not_lt hge)] at hall
          cases hall
        rw [List.drop_eq_getElem_cons hlt, List.cons.injEq] at hall
        have hseq := (hk.faithful ht.heap).each (List.getElem?_eq_getElem hlt)
        rw [← hall.1] at hseq
        exact ⟨hlt, hseq.2.2, hall.2⟩
      cases hd with
      | buffered hearly =>
        rcases hearly with hno | hno
        · exact absurd hready hno
        · rw [hg] at hno
          cases hno
      | overflows =>
        refine ⟨hle, hother (hgone ?_)⟩
        simp
      | foreign => exact ⟨hle, hother (hgone (List.mem_singleton.mpr rfl))⟩
      | old _ hg' hq =>
        have heq : d.generation = g := by rw [hg, Option.some.injEq] at hg'; exact hg'.symm
        have := (hnext heq).2.1
        omega
      | applied c _ hg' hq =>
        have heq : d.generation = g := by rw [hg, Option.some.injEq] at hg'; exact hg'.symm
        obtain ⟨hlt, hseq, hrest⟩ := hnext heq
        change d.sequence ≤ _ ∧ _ = t.sent.drop d.sequence
        rw [hseq]
        exact ⟨hlt, hrest⟩
      | rejected c => exact ⟨hle, hother (hgone (List.mem_singleton.mpr rfl))⟩

/-- An event does not change the generation, and adds no early delta but itself. -/
theorem handleEvent_keeps (v : View.State) (e : Event) :
    (v.handleEvent e).generation = v.generation ∧
    ∀ d ∈ (v.handleEvent e).bufferedDeltas, d ∈ v.bufferedDeltas ∨ e = .delta d := by
  have hsame : ∀ {u : View.State}, u.generation = v.generation → u.bufferedDeltas = v.bufferedDeltas →
      u.generation = v.generation ∧ ∀ d ∈ u.bufferedDeltas, d ∈ v.bufferedDeltas ∨ e = .delta d :=
    fun hg hb => ⟨hg, fun d hd => .inl (hb ▸ hd)⟩
  have hresync := resync_keeps v
  cases e with
  | resyncRequired id g =>
    simp only [View.State.handleEvent]
    split
    · exact hsame rfl rfl
    · split
      · exact hsame hresync.1 hresync.2
      · exact hsame rfl rfl
  | delta d =>
    simp only [View.State.handleEvent]
    split
    · exact hsame rfl rfl
    · unfold View.State.handleDelta
      split
      · split
        · split
          · obtain ⟨hg, hb⟩ := resync_keeps { v with bufferedDeltas := [] }
            exact ⟨hg, fun x hx => by rw [hb] at hx; cases hx⟩
          · exact ⟨rfl, fun x hx => by cases hx⟩
        · refine ⟨rfl, fun x hx => (List.mem_append.mp hx).imp_right fun hx => ?_⟩
          rw [List.mem_singleton.mp hx]
      · split
        · exact hsame hresync.1 hresync.2
        · split
          · exact hsame rfl rfl
          · rcases View.applyDelta_cases v d with ⟨-, h⟩ | ⟨c, -, -, h⟩ | ⟨c, -, -, -, h⟩
            · rw [h]
              exact hsame hresync.1 hresync.2
            · rw [h]
              exact hsame rfl rfl
            · rw [h]
              obtain ⟨hg, hb⟩ := resync_keeps { v with contents := c }
              exact hsame hg hb

/-- Without a call, an event leaves the status and the promises alone. -/
theorem handleEvent_quiet {v : View.State} {e : Event} (hstopped : v.stopped = false)
    (hid : eventId e = v.subscriptionId) (hquiet : ¬ v.nextCall < (v.handleEvent e).nextCall) :
    (v.handleEvent e).snapshot.status = v.snapshot.status ∧
    (FollowedUp v → FollowedUp (v.handleEvent e)) := by
  cases e with
  | resyncRequired id g => rw [(takesControl hstopped hid hquiet).1]; exact ⟨rfl, fun h => h⟩
  | delta d =>
    have hd := takesDelta hstopped hid hquiet
    generalize v.handleEvent (.delta d) = w at hd ⊢
    generalize dropped v (.event (.delta d)) = gone at hd
    cases hd with
    | applied c hready hg hq => exact ⟨hready.symm, fun h => h⟩
    | buffered _ => exact ⟨rfl, fun h => h⟩
    | overflows => exact ⟨rfl, fun h => h⟩
    | foreign => exact ⟨rfl, fun h => h⟩
    | old _ _ _ => exact ⟨rfl, fun h => h⟩
    | rejected c => exact ⟨rfl, fun h => h⟩

/-- What is awaited is needed. -/
theorem needed_creating {g : Generation} (hr : s.requests = []) (hg : creating s.node.pc = some g) :
    needed s g = true := by
  simp [needed, hr, hg]

theorem needed_answered {p : ℕ} {c : Snapshot} (hr : s.requests = []) (hpc : s.node.pc = .idle)
    (hlast : s.pending.getLast? = some (p, .ok c)) (hst : stored s = some c.generation) :
    needed s c.generation = true := by
  simp [needed, hr, hpc, hlast, hst, creating]

theorem needed_ready {g : Generation} (hr : s.requests = []) (hpc : s.node.pc = .idle)
    (hnil : s.pending = []) (hst : stored s = some g) (hready : s.view.snapshot.status = .ready) :
    needed s g = true := by
  simp [needed, hr, hpc, hnil, hst, hready, creating]

/-- The view has not got what is being created. -/
theorem Ordered.ne_creating (h : Ordered s) {g : Generation} (hg : creating s.node.pc = some g) :
    s.view.generation ≠ some g := by
  intro hv
  have hsorted := h.sorted
  rw [chain, hv, hg, Option.toList_some] at hsorted
  have := (List.pairwise_append.mp hsorted).2.2 g (by simp) g (by simp)
  exact Nat.lt_irrefl _ this

/-- The view has not got the snapshot of a response on its way. -/
theorem Ordered.ne_pending (h : Ordered s) {p : ℕ} {c : Snapshot} (hp : (p, .ok c) ∈ s.pending) :
    s.view.generation ≠ some c.generation := by
  intro hv
  have hsorted := h.sorted
  rw [chain, hv, Option.toList_some, List.append_assoc] at hsorted
  have hmem : c.generation ∈ s.pending.filterMap okGeneration :=
    List.mem_filterMap.mpr ⟨(p, .ok c), hp, rfl⟩
  have := (List.pairwise_append.mp hsorted).2.2 c.generation (by simp) c.generation
    (List.mem_append_left _ hmem)
  exact Nat.lt_irrefl _ this

theorem inv_event (h : Inv setup s) {e : Event} {rest : List Message}
    (hc : s.channel = .event e :: rest) (hok : losesNothing s .receive) :
    Inv setup ({ s with channel := rest }.acted (s.view.handleEvent e)) := by
  have hlose : ∀ g, needed s g = true → g ∉ dropped s.view (.event e) := fun g hg hin => by
    have := hok (.event e) (by rw [hc]; rfl) g hin
    rw [hg] at this
    cases this
  have hpending : State.pending { s with channel := rest } = s.pending := by
    rw [State.pending, State.pending, hc]
    rfl
  have hin : ∀ x, x ∈ rest → x ∈ s.channel := fun x hx => hc ▸ List.mem_cons_of_mem _ hx
  have hw : Wired { s with channel := rest } := by
    refine h.wired.fewer rfl rfl rfl rfl ?_
    rw [State.inFlight, State.inFlight, hpending]
  have ho : Ordered { s with channel := rest } :=
    h.ordered.fewer rfl rfl rfl hpending fun x hx => hin _ hx
  obtain ⟨method, hm⟩ := acts_handleEvent s.view e
  obtain ⟨hgen, hbuffered⟩ := handleEvent_keeps s.view e
  have hhead : .event e ∈ s.channel := hc ▸ List.mem_cons_self ..
  refine ⟨hm.subscriptionId.trans h.id, h.owned, h.kept, hw.acted hm,
    ho.acted hw hm hgen fun d hd => ?_, ?_⟩
  · rcases hbuffered d hd with hd | rfl
    · exact h.ordered.buffered d hd
    · exact (h.ordered.channel _ hhead).1
  · by_cases hissue : s.view.nextCall < (s.view.handleEvent e).nextCall
    · exact agrees_of_issue hw hm hissue
    · obtain ⟨hstatus, hfollow⟩ :=
        handleEvent_quiet h.wired.stopped (h.ordered.channel _ hhead).2 hissue
      have hstored : stored ({ s with channel := rest }.acted (s.view.handleEvent e)) = stored s := by
        rw [stored, stored]
        change s.node.nodeSubscriptions.get (s.view.handleEvent e).subscriptionId = _
        rw [hm.subscriptionId]
      refine ⟨fun hr g hg => ?_, fun hr hpc p c hlast => ?_, fun hr hpc hnil hready => ?_⟩
      · have hr : s.requests = [] := acted_requests hr
        exact (h.agrees.creating hr g hg).event hc h.wired h.ordered hissue
          (hlose g (needed_creating hr hg)) (h.ordered.ne_creating hg)
      · have hr : s.requests = [] := acted_requests hr
        have hlast : s.pending.getLast? = some (p, .ok c) := hpending ▸ hlast
        obtain ⟨hst, hawaits⟩ := h.agrees.answered hr hpc p c hlast
        exact ⟨hstored.trans hst, hawaits.event hc h.wired h.ordered hissue
          (hlose _ (needed_answered hr hpc hlast hst))
          (h.ordered.ne_pending (List.mem_of_getLast? hlast))⟩
      · have hr : s.requests = [] := acted_requests hr
        have hnil : s.pending = [] := hpending ▸ hnil
        have hready : s.view.snapshot.status = .ready := hstatus ▸ hready
        refine (h.agrees.ready hr hpc hnil hready).imp (fun hin => ?_) hfollow
        refine hin.event hc h.wired h.ordered h.kept hready hissue fun g hg hst => ?_
        exact hlose g (needed_ready hr hpc hnil hst hready) hg

/-! ### A response -/

/-- Fewer responses are on their way, and fewer early deltas are kept. -/
theorem Ordered.taken (h : Ordered s) {s' : Session.State} (hnode : s'.node = s.node)
    (hid : s'.view.subscriptionId = s.view.subscriptionId) (hrequests : s'.requests = s.requests)
    (hchannel : ∀ e, .event e ∈ s'.channel → .event e ∈ s.channel)
    (hchain : (chain s').Sublist (chain s)) (hpending : ∀ x ∈ s'.pending, x ∈ s.pending)
    (hbuffered : ∀ d ∈ s'.view.bufferedDeltas, d ∈ s.view.bufferedDeltas)
    (hcached : ∀ r c, s.node.resyncSnapshots = some (r, c) →
      (∃ g, s'.view.generation = some g ∧ c.generation ≤ g) ∨
        ∃ p, (p, .ok c) ∈ s'.pending ∧ s'.view.resyncPromise = some p) : Ordered s' := by
  refine ⟨h.sorted.sublist hchain, fun g hg => ?_, fun e he => ?_, fun d hd => ?_, ?_, ?_,
    fun p c hp => h.zero p c (hpending _ hp), fun r c hc => ?_, ?_, ?_⟩
  · rw [hnode]
    exact h.bounded g (hchain.subset hg)
  · rw [hnode, hid]
    exact h.channel e (hchannel e he)
  · rw [hnode]
    exact h.buffered d (hbuffered d hd)
  · rw [hrequests, hnode]
    exact h.requested
  · rw [hnode]
    exact h.resyncing
  · rw [hnode] at hc
    exact ⟨(h.cached r c hc).1, hcached r c hc⟩
  · rw [hrequests, hnode]
    exact h.fresh
  · rw [hnode, hid]
    exact h.ids

/-- A response whose snapshot has another generation leaves what is awaited alone. -/
theorem Awaits.response {g : Generation} (h : Awaits s g) {call : ℕ} {c : Snapshot}
    {rest : List Message} (hc : s.channel = .response call (.ok c) :: rest)
    (hneeded : g ∉ dropped s.view (.response call (.ok c))) (hne : g ≠ c.generation)
    {s' : Session.State} (hnode : s'.node = s.node) (hchannel : s'.channel = rest)
    (hid : s'.view.subscriptionId = s.view.subscriptionId) (hempty : s'.view.bufferedDeltas = []) :
    Awaits s' g := by
  obtain ⟨t, ht⟩ := h
  refine ⟨t, by rw [hnode]; exact ht.heap, fun hst => ?_, fun hst => ⟨Nat.zero_le _, ?_⟩⟩
  · rw [hid, hchannel]
    refine (ht.stale hst).imp_right fun hin => ?_
    rw [hc] at hin
    rcases List.mem_cons.mp hin with heq | hin
    · cases heq
    · exact hin
  · have hnil : s.view.bufferedDeltas.filter (fun d => decide (d.generation = g)) = [] := by
      refine List.filter_eq_nil_iff.mpr fun d hd => ?_
      rw [decide_eq_true_eq]
      intro heq
      refine hneeded (List.mem_filter.mpr ⟨List.mem_map.mpr ⟨d, hd, heq⟩, ?_⟩)
      exact decide_eq_true hne
    have hall := (ht.fresh hst).2
    rw [hc, List.filter_append, hnil] at hall
    rw [hempty, hchannel]
    exact hall

/-- The snapshot that was awaited has come, and the early deltas are applied. -/
theorem Awaits.inStep {c : Snapshot} (h : Awaits s c.generation) {call : ℕ} {rest : List Message}
    (hc : s.channel = .response call (.ok c) :: rest) (hst : stored s = some c.generation)
    (hk : Kept False false s.node) (hzero : c.sequence = 0) {s' : Session.State}
    (hnode : s'.node = s.node) (hchannel : s'.channel = rest)
    (hid : s'.view.subscriptionId = s.view.subscriptionId)
    (hgen : s'.view.generation = some c.generation)
    (happlied : (∀ n d, (s.view.bufferedDeltas.filter fun d => d.generation = c.generation)[n]? = some d →
        d.sequence = c.sequence + n + 1) → s'.view.sequence =
      c.sequence + (s.view.bufferedDeltas.filter fun d => d.generation = c.generation).length) :
    InStep s' := by
  obtain ⟨t, ht⟩ := h
  refine ⟨c.generation, t, hgen, ?_, by rw [hnode]; exact ht.heap, fun hstale => ?_, fun hfresh => ?_⟩
  · rw [← hst, stored, stored, hnode, hid]
  · rw [hid, hchannel]
    refine (ht.stale hstale).imp_right fun hin => ?_
    rw [hc] at hin
    rcases List.mem_cons.mp hin with heq | hin
    · cases heq
    · exact hin
  · -- The early deltas are the first ones that were sent.
    have hall := (ht.fresh hfresh).2
    rw [hc, List.filter_append, List.drop_zero] at hall
    have hseq := happlied fun n d hd => by
      have hsent : t.sent[n]? = some d := by
        rw [← hall, List.getElem?_append_left (List.getElem?_eq_some_iff.mp hd).1]
        exact hd
      rw [((hk.faithful ht.heap).each hsent).2.2, hzero, Nat.zero_add]
    rw [hzero, Nat.zero_add] at hseq
    rw [hseq, hchannel, ← hall]
    refine ⟨by rw [List.length_append]; exact Nat.le_add_right _ _, ?_⟩
    rw [List.drop_left]
    rfl

/-- The generations behind the first response. -/
theorem Ordered.lt_pending (h : Ordered s) {call : ℕ} {c : Snapshot}
    {rest : List (ℕ × Except Text Snapshot)} (hp : s.pending = (call, .ok c) :: rest) {g : Generation}
    (hg : (∃ p c', (p, .ok c') ∈ rest ∧ c'.generation = g) ∨ Requests.creating s.node.pc = some g) :
    c.generation < g := by
  have hsorted := h.sorted
  rw [chain, hp, List.append_assoc] at hsorted
  have htail := (List.pairwise_append.mp hsorted).2.1
  refine (List.pairwise_cons.mp htail).1 g (List.mem_append.mpr (hg.imp ?_ ?_))
  · rintro ⟨p, c', hin, rfl⟩
    exact List.mem_filterMap.mpr ⟨(p, .ok c'), hin, rfl⟩
  · intro hg
    rw [hg]
    exact List.mem_singleton.mpr rfl

/-- A call that has failed. -/
theorem inv_failed (h : Inv setup s) {call : ℕ} {error : Text} {rest : List Message}
    (hc : s.channel = .response call (.error error) :: rest) :
    Inv setup ({ s with channel := rest }.acted
      (View.State.fail { s.view with calls := s.view.calls.map (View.Call.answer call) } error)) := by
  have hw := h.wired.answered hc
  have hpending : s.pending = (call, .error error) :: State.pending { s with channel := rest } := by
    rw [State.pending, hc]
    rfl
  have hevent : ∀ {e}, .event e ∈ s.channel → .event e ∈ rest := by
    intro e he
    rw [hc] at he
    rcases List.mem_cons.mp he with heq | he
    · cases heq
    · exact he
  have hm : Acts { s.view with calls := s.view.calls.map (View.Call.answer call) }
      (View.State.fail { s.view with calls := s.view.calls.map (View.Call.answer call) } error) none :=
    acts_of_eq rfl rfl rfl rfl rfl rfl
  have ho : Ordered { s with
      channel := rest
      view := { s.view with calls := s.view.calls.map (View.Call.answer call) } } := by
    refine h.ordered.taken rfl rfl rfl (fun e he => hc ▸ List.mem_cons_of_mem _ he) ?_
      (fun x hx => hpending ▸ List.mem_cons_of_mem _ hx) (fun d hd => hd) fun r c hr => ?_
    · rw [chain, chain, hpending]
      exact List.Sublist.refl _
    · refine (h.ordered.cached r c hr).2.imp_right (Exists.imp fun p => And.imp_left fun hp => ?_)
      rw [hpending] at hp
      rcases List.mem_cons.mp hp with heq | hp
      · cases heq
      · exact hp
  have hawaits : ∀ {g}, Awaits s g → Awaits ({ s with channel := rest }.acted
      (View.State.fail { s.view with calls := s.view.calls.map (View.Call.answer call) } error)) g := by
    intro g hg
    refine hg.imp fun t ht => ht.of_eq rfl rfl (fun e he => hevent he) ?_
    rw [hc]
    rfl
  refine ⟨h.id, h.owned, h.kept, hw.acted hm, ho.acted hw hm rfl h.ordered.buffered, ?_⟩
  refine ⟨fun hr g hg => hawaits (h.agrees.creating (acted_requests hr) g hg),
    fun hr hpc p c hlast => ?_, fun _ _ _ hready => by cases hready⟩
  have hlast : s.pending.getLast? = some (p, .ok c) := by
    change (State.pending { s with channel := rest }).getLast? = _ at hlast
    rw [hpending, List.getLast?_cons, hlast]
    rfl
  obtain ⟨hst, ha⟩ := h.agrees.answered (acted_requests hr) hpc p c hlast
  exact ⟨hst, hawaits ha⟩

/-- The snapshot of a call has come. -/
theorem inv_snapshot (h : Inv setup s) {call : ℕ} {c : Snapshot} {rest : List Message}
    (hc : s.channel = .response call (.ok c) :: rest) (hok : losesNothing s .receive) :
    Inv setup ({ s with channel := rest }.acted
      (View.State.applySnapshot { s.view with calls := s.view.calls.map (View.Call.answer call) } c)) := by
  have hlose : ∀ g, needed s g = true → g ∉ dropped s.view (.response call (.ok c)) := by
    intro g hg hin
    have := hok (.response call (.ok c)) (by rw [hc]; rfl) g hin
    rw [hg] at this
    cases this
  have hpending : s.pending = (call, .ok c) :: State.pending { s with channel := rest } := by
    rw [State.pending, hc]
    rfl
  have happly : View.State.applySnapshot
      { s.view with calls := s.view.calls.map (View.Call.answer call) } c =
      (takeSnapshot { s.view with calls := s.view.calls.map (View.Call.answer call) } c).applyBuffered
        s.view.bufferedDeltas := by
    rw [View.State.applySnapshot, if_neg (by simp [h.wired.stopped])]
    rfl
  rw [happly]
  generalize hv : takeSnapshot { s.view with calls := s.view.calls.map (View.Call.answer call) } c = v
  have hstopped : v.stopped = false := by rw [← hv]; exact h.wired.stopped
  have hgen : v.generation = some c.generation := by rw [← hv]; rfl
  have hempty : v.bufferedDeltas = [] := by rw [← hv]; rfl
  have hid : v.subscriptionId = s.view.subscriptionId := by rw [← hv]; rfl
  have hseq : v.sequence = c.sequence := by rw [← hv]; rfl
  have hpromise : v.resyncPromise = s.view.resyncPromise := by rw [← hv]; rfl
  have hnext : s.view.nextCall = v.nextCall := by rw [← hv]; rfl
  have hw : Wired { s with channel := rest, view := v } := by
    have hw := h.wired.answered hc
    rw [← hv]
    exact ⟨hw.stopped, hw.epoch, hw.running, hw.flight, hw.unanswered, hw.below, hw.promised,
      hw.requested, hw.resyncing, hw.identified⟩
  have ho : Ordered { s with channel := rest, view := v } := by
    refine h.ordered.taken rfl hid rfl (fun e he => hc ▸ List.mem_cons_of_mem _ he) ?_
      (fun x hx => hpending ▸ List.mem_cons_of_mem _ hx) (fun d hd => ?_) fun r c' hr => ?_
    · rw [chain, chain, hpending, hgen, List.append_assoc, List.append_assoc]
      exact List.sublist_append_right _ _
    · rw [hempty] at hd
      cases hd
    · rcases (h.ordered.cached r c' hr).2 with ⟨g, hg, hle⟩ | ⟨p, hp, hresync⟩
      · refine .inl ⟨c.generation, hgen, hle.trans (Nat.le_of_lt ?_)⟩
        have hsorted := h.ordered.sorted
        rw [chain, hg, hpending, List.append_assoc] at hsorted
        exact (List.pairwise_append.mp hsorted).2.2 g (List.mem_singleton.mpr rfl) _
          (List.mem_cons_self ..)
      · rw [hpending] at hp
        rcases List.mem_cons.mp hp with heq | hp
        · cases heq
          exact .inl ⟨c.generation, hgen, Nat.le_refl _⟩
        · exact .inr ⟨p, hp, hpromise.trans hresync⟩
  obtain ⟨method, hm⟩ := acts_applyBuffered s.view.bufferedDeltas v
  obtain ⟨hgen', hempty', houtcome⟩ := buffers (v := v) s.view.bufferedDeltas hstopped
  generalize v.applyBuffered s.view.bufferedDeltas = w at hm hgen' hempty' houtcome ⊢
  rw [show State.acted { s with channel := rest } w = State.acted { s with channel := rest, view := v } w by
    rw [State.acted, State.acted, hnext]]
  refine ⟨hm.subscriptionId.trans (hid.trans h.id), h.owned, h.kept, hw.acted hm,
    ho.acted hw hm hgen' fun d hd => ?_, ?_⟩
  · rw [hempty', hempty] at hd
    cases hd
  by_cases hissue : v.nextCall < w.nextCall
  · exact agrees_of_issue hw hm hissue
  have hsame : ∀ {g}, Awaits s g → needed s g = true → c.generation < g →
      Awaits (State.acted { s with channel := rest, view := v } w) g := fun {g} ha hneeded hlt =>
    ha.response hc (hlose g hneeded) (Nat.ne_of_gt hlt) rfl rfl (hm.subscriptionId.trans hid)
      (hempty'.trans hempty)
  refine ⟨fun hr g hg => ?_, fun hr hpc p c' hlast => ?_, fun hr hpc hnil hready => ?_⟩
  · have hr : s.requests = [] := acted_requests (s := { s with channel := rest, view := v }) hr
    exact hsame (h.agrees.creating hr g hg) (needed_creating hr hg)
      (h.ordered.lt_pending hpending (.inr hg))
  · have hr : s.requests = [] := acted_requests (s := { s with channel := rest, view := v }) hr
    change (State.pending { s with channel := rest }).getLast? = _ at hlast
    have hlast' : s.pending.getLast? = some (p, .ok c') := by
      rw [hpending, List.getLast?_cons, hlast]
      rfl
    obtain ⟨hst, ha⟩ := h.agrees.answered hr hpc p c' hlast'
    have hstored : stored (State.acted { s with channel := rest, view := v } w) = stored s := by
      rw [stored, stored]
      change s.node.nodeSubscriptions.get w.subscriptionId = _
      rw [hm.subscriptionId, hid]
    exact ⟨hstored.trans hst, hsame ha (needed_answered hr hpc hlast' hst)
      (h.ordered.lt_pending hpending (.inl ⟨p, c', List.mem_of_getLast? hlast, rfl⟩))⟩
  · have hr : s.requests = [] := acted_requests (s := { s with channel := rest, view := v }) hr
    change State.pending { s with channel := rest } = [] at hnil
    rw [hnil] at hpending
    obtain ⟨hst, ha⟩ := h.agrees.answered hr hpc call c (by rw [hpending]; rfl)
    rcases houtcome with hcall | hfollow | hall
    · exact absurd hcall hissue
    · exact .inr (hfollow (by rw [hgen]; rfl))
    · refine .inl (ha.inStep hc hst h.kept (h.ordered.zero call c ?_) rfl rfl
        (hm.subscriptionId.trans hid) (hgen'.trans hgen) fun hnum => ?_)
      · rw [hpending]
        exact List.mem_singleton.mpr rfl
      · rw [← hseq] at hnum ⊢
        exact hall c.generation hgen hnum

theorem inv_response (h : Inv setup s) {call : ℕ} {result : Except Text Snapshot}
    {rest : List Message} (hc : s.channel = .response call result :: rest)
    (hok : losesNothing s .receive) (hv : s.view.respond call result = some v) :
    Inv setup ({ s with channel := rest }.acted v) := by
  unfold View.State.respond at hv
  split at hv
  · next c hfind =>
    split at hv
    · cases hv
    · cases hv
      unfold View.State.handleResponse
      rw [if_neg]
      · cases result with
        | error error => exact inv_failed h hc
        | ok snapshot => exact inv_snapshot h hc hok
      · rw [not_not]
        exact h.wired.epoch c (List.mem_of_find?_eq_some hfind)
  · cases hv

/-! ### An event of the node -/

theorem deltasIn_append (ms ms' : List Message) : deltasIn (ms ++ ms') = deltasIn ms ++ deltasIn ms' :=
  List.filterMap_append

theorem deltasIn_event (es : List Event) : deltasIn (es.map .event) = deltasOf es := by
  rw [deltasIn, List.filterMap_map]
  refine List.filterMap_congr fun e _ => ?_
  cases e <;> rfl

theorem mem_deltasOf {es : List Event} {d : Delta} : d ∈ deltasOf es ↔ .delta d ∈ es := by
  refine List.mem_filterMap.trans ⟨fun ⟨e, he, hd⟩ => ?_, fun he => ⟨_, he, rfl⟩⟩
  cases e with
  | delta d' => cases hd; exact he
  | resyncRequired id g => cases hd

/-- What is followed is still followed when a subscription is told something. -/
theorem Follows.told {g k : Generation} {u t x : Subscription} {es : List Event}
    {early : List Delta} {q : ℕ} (h : Follows s k early q x) (hu : s.node.heap g = some u)
    (htold : Told g u t es) (hid : u.id = s.view.subscriptionId)
    (hgen : ∀ d ∈ deltasOf es, d.generation = g) :
    ∃ x, Follows { s with
      node := put s.node g t es
      channel := s.channel ++ es.map .event } k early q x := by
  have hleft : ∀ {m}, m ∈ s.channel → m ∈ s.channel ++ es.map .event :=
    fun hm => List.mem_append_left _ hm
  by_cases hk : k = g
  · subst hk
    obtain rfl : u = x := by rw [h.heap, Option.some.injEq] at hu; exact hu.symm
    refine ⟨t, heap_put, fun hst => ?_, fun hst => ?_⟩
    · rcases htold.stale hst with ht | hin | ⟨hu, ht, -⟩
      · exact .inl ht
      · rw [hid] at hin
        exact .inr (List.mem_append_right _ (List.mem_map_of_mem hin))
      · rw [ht]
        exact (h.stale hu).imp_right hleft
    · obtain ⟨hfresh, hsent⟩ := htold.fresh hst
      obtain ⟨hle, hall⟩ := h.fresh hfresh
      rw [deltasIn_append, deltasIn_event, ← List.append_assoc, List.filter_append, hall, hsent,
        List.drop_append_of_le_length hle]
      refine ⟨hle.trans (by rw [List.length_append]; exact Nat.le_add_right _ _), ?_⟩
      rw [List.filter_eq_self.mpr fun d hd => by simpa using hgen d hd]
  · refine ⟨x, ?_, fun hst => (h.stale hst).imp_right hleft, fun hst => ?_⟩
    · exact (if_neg hk).trans h.heap
    · obtain ⟨hle, hall⟩ := h.fresh hst
      refine ⟨hle, ?_⟩
      have hnone : (deltasOf es).filter (fun d => decide (d.generation = k)) = [] := by
        refine List.filter_eq_nil_iff.mpr fun d hd => ?_
        rw [hgen d hd, decide_eq_true_eq]
        exact fun heq => hk heq.symm
      rw [deltasIn_append, deltasIn_event, ← List.append_assoc, List.filter_append, hall, hnone,
        List.append_nil]

/-- A subscription is told something. -/
theorem inv_told (h : Inv setup s) {g : Generation} {u t : Subscription} {es : List Event}
    (hu : s.node.heap g = some u) (htold : Told g u t es)
    (howned : Owned setup.options false (put s.node g t es))
    (hkept : Kept False false (put s.node g t es)) :
    Inv setup (s.served (put s.node g t es)) := by
  rw [served_put h.wired]
  have hid : u.id = s.view.subscriptionId := h.ordered.ids g u hu
  have hsent : ∀ d ∈ t.sent, d.subscriptionId = t.id ∧ d.generation = g := by
    intro d hd
    obtain ⟨n, hn⟩ := List.getElem?_of_mem hd
    have heach := (hkept.faithful heap_put).each hn
    exact ⟨heach.1, heach.2.1⟩
  have hevent : ∀ e ∈ es, eventGeneration e = g ∧ eventId e = s.view.subscriptionId := by
    intro e he
    rcases htold.event e he with rfl | ⟨d, hd, rfl⟩
    · exact ⟨rfl, hid⟩
    · obtain ⟨hdid, hdg⟩ := hsent d hd
      exact ⟨hdg, hdid.trans (htold.id.trans hid)⟩
  have hgen : ∀ d ∈ deltasOf es, d.generation = g := fun d hd =>
    (hevent (.delta d) (mem_deltasOf.mp hd)).1
  have hg : g < s.node.nextGeneration := by
    by_contra hge
    rw [h.owned.fresh g (Nat.le_of_not_lt hge)] at hu
    cases hu
  have hpending : State.pending { s with
      node := put s.node g t es, channel := s.channel ++ es.map .event } = s.pending := by
    have hnone : (es.map Message.event).filterMap Message.response? = [] := by
      rw [List.filterMap_map, List.filterMap_eq_nil_iff]
      exact fun _ _ => rfl
    rw [State.pending, State.pending, List.filterMap_append, hnone, List.append_nil]
  have hflight : State.inFlight { s with
      node := put s.node g t es, channel := s.channel ++ es.map .event } = s.inFlight := by
    rw [State.inFlight, State.inFlight, hpending]
  have hchain : chain { s with
      node := put s.node g t es, channel := s.channel ++ es.map .event } = chain s := by
    rw [chain, chain, hpending]
    rfl
  have hawaits : ∀ {k}, Awaits s k → Awaits { s with
      node := put s.node g t es, channel := s.channel ++ es.map .event } k := fun hk =>
    hk.elim fun _ hx => hx.told hu htold hid hgen
  refine ⟨h.id, howned, hkept, ?_, ?_, ?_⟩
  · exact ⟨h.wired.stopped, h.wired.epoch, h.wired.running, hflight ▸ h.wired.flight,
      hflight ▸ h.wired.unanswered, ⟨hflight ▸ h.wired.below.1, h.wired.below.2⟩, h.wired.promised,
      h.wired.requested, h.wired.resyncing, h.wired.identified⟩
  · refine ⟨hchain ▸ h.ordered.sorted, hchain ▸ h.ordered.bounded, fun e he => ?_, h.ordered.buffered,
      h.ordered.requested, h.ordered.resyncing, hpending ▸ h.ordered.zero, ?_, h.ordered.fresh,
      fun k x hx => ?_⟩
    · rcases List.mem_append.mp he with he | he
      · exact h.ordered.channel e he
      · obtain ⟨e', he', heq⟩ := List.mem_map.mp he
        cases heq
        obtain ⟨hge, hide⟩ := hevent e he'
        exact ⟨hge ▸ hg, hide⟩
    · rw [hpending]
      exact h.ordered.cached
    · change (if k = g then some t else s.node.heap k) = some x at hx
      split at hx
      · cases hx
        exact htold.id.trans hid
      · exact h.ordered.ids k x hx
  · refine ⟨fun hr k hk => hawaits (h.agrees.creating hr k hk), fun hr hpc p c hlast => ?_,
      fun hr hpc hnil hready => ?_⟩
    · rw [hpending] at hlast
      obtain ⟨hst, ha⟩ := h.agrees.answered hr hpc p c hlast
      exact ⟨hst, hawaits ha⟩
    · rw [hpending] at hnil
      refine (h.agrees.ready hr hpc hnil hready).imp_left fun hfollowed => ?_
      obtain ⟨k, x, hk, hst, hx⟩ := hfollowed
      obtain ⟨x', hx'⟩ := hx.told hu htold hid hgen
      exact ⟨k, x', hk, hst, hx'⟩

/-! ### A request -/

/-- What a request can do to what is on its way, before it is answered with a snapshot. -/
structure Serves (s s' : Session.State) : Prop where
  view : s'.view = s.view
  channel : s'.channel = s.channel
  requests : ∀ c ∈ s'.requests, c ∈ s.requests
  pending : s'.pending = s.pending ∨ ∃ p e, s'.pending = s.pending ++ [(p, .error e)]
  next : s.node.nextGeneration ≤ s'.node.nextGeneration
  creating : ∀ g, Requests.creating s'.node.pc = some g →
    s.node.nextGeneration ≤ g ∧ g < s'.node.nextGeneration
  resyncing : ∀ r, resyncOf s'.node.pc = some r → r.staleGeneration < s.node.nextGeneration
  cached : s'.node.resyncSnapshots = s.node.resyncSnapshots ∨ s'.node.resyncSnapshots = none
  ids : ∀ g t, s'.node.heap g = some t → t.id = s.view.subscriptionId

theorem Serves.pending_ok {s' : Session.State} (hs : Serves s s') :
    s'.pending.filterMap okGeneration = s.pending.filterMap okGeneration ∧
    ∀ p c, (p, .ok c) ∈ s'.pending ↔ (p, .ok c) ∈ s.pending := by
  rcases hs.pending with hp | ⟨q, e, hp⟩
  · rw [hp]
    exact ⟨rfl, fun _ _ => Iff.rfl⟩
  · rw [hp]
    refine ⟨by rw [List.filterMap_append]; exact List.append_nil _, fun p c => ?_⟩
    refine ⟨fun hin => (List.mem_append.mp hin).resolve_right fun hin => ?_, List.mem_append_left _⟩
    cases List.mem_singleton.mp hin

theorem Ordered.serves (h : Ordered s) {s' : Session.State} (hs : Serves s s') : Ordered s' := by
  obtain ⟨hgenerations, hok⟩ := hs.pending_ok
  have hold : ∀ g ∈ s.view.generation.toList ++ s.pending.filterMap okGeneration,
      g < s.node.nextGeneration := fun g hg => h.bounded g (List.mem_append_left _ hg)
  have hchain : chain s' = s.view.generation.toList ++ s.pending.filterMap okGeneration ++
      (creating s'.node.pc).toList := by rw [chain, hs.view, hgenerations]
  have hcached : ∀ {r c}, s'.node.resyncSnapshots = some (r, c) →
      s.node.resyncSnapshots = some (r, c) := by
    intro r c hc
    rcases hs.cached with heq | hnone
    · rw [← heq]
      exact hc
    · rw [hnone] at hc
      cases hc
  have hnew : ∀ g ∈ (creating s'.node.pc).toList,
      s.node.nextGeneration ≤ g ∧ g < s'.node.nextGeneration := fun g hg =>
    hs.creating g (Option.mem_toList.mp hg)
  refine ⟨?_, fun g hg => ?_, fun e he => ?_, fun d hd => ?_, fun c hc g hg => ?_, fun r hr => ?_,
    fun p c hp => h.zero p c ((hok p c).mp hp), fun r c hc => ?_, fun q hq g hg r c hc => ?_,
    by rw [hs.view]; exact hs.ids⟩
  · rw [hchain]
    refine List.pairwise_append.mpr ⟨(List.pairwise_append.mp h.sorted).1, ?_, fun g hg k hk => ?_⟩
    · cases creating s'.node.pc with
      | none => exact List.Pairwise.nil
      | some g => exact List.pairwise_singleton _ _
    · exact Nat.lt_of_lt_of_le (hold g hg) (hnew k hk).1
  · rw [hchain] at hg
    rcases List.mem_append.mp hg with hg | hg
    · exact Nat.lt_of_lt_of_le (hold g hg) hs.next
    · exact (hnew g hg).2
  · rw [hs.channel] at he
    rw [hs.view]
    exact (h.channel e he).imp_left fun hlt => Nat.lt_of_lt_of_le hlt hs.next
  · rw [hs.view] at hd
    exact Nat.lt_of_lt_of_le (h.buffered d hd) hs.next
  · exact Nat.lt_of_lt_of_le (h.requested c (hs.requests c hc) g hg) hs.next
  · have hlt := hs.resyncing r hr
    exact ⟨Nat.lt_of_lt_of_le hlt hs.next, fun g hg => Nat.lt_of_lt_of_le hlt (hs.creating g hg).1⟩
  · rw [hs.view]
    refine ⟨(h.cached r c (hcached hc)).1, (h.cached r c (hcached hc)).2.imp_right ?_⟩
    exact fun ⟨p, hp, hpromise⟩ => ⟨p, (hok p c).mpr hp, hpromise⟩
  · exact h.fresh q (hs.requests q hq) g hg r c (hcached hc)

/-- The node waits in a request, and creates nothing. -/
theorem agrees_of_waits (hpc : s.node.pc ≠ .idle) (hcreating : creating s.node.pc = none) : Agrees s := by
  refine ⟨fun _ g hg => ?_, fun _ hidle => absurd hidle hpc, fun _ hidle => absurd hidle hpc⟩
  rw [hcreating] at hg
  cases hg

/-- The request has failed. -/
theorem agrees_of_failure (hpc : s.node.pc = .idle) {ps : List (ℕ × Except Text Snapshot)} {p : ℕ}
    {e : Text} (hp : s.pending = ps ++ [(p, .error e)]) : Agrees s := by
  refine ⟨fun _ g hg => ?_, fun _ _ q c hlast => ?_, fun _ _ hnil => ?_⟩
  · rw [hpc] at hg
    cases hg
  · rw [hp, List.getLast?_concat] at hlast
    cases hlast
  · rw [hp] at hnil
    cases (List.append_eq_nil_iff.mp hnil).2

/-- The next request begins. -/
theorem inv_begins (h : Inv setup s) {c : View.Call} {rest : List View.Call}
    (hr : s.requests = c :: rest) (hidle : s.node.pc = .idle) {r : Option ResyncRequest} {m : Node}
    (hb : Begins false s.node r s.view.subscriptionId m)
    (hresync : ∀ x, r = some x → x.staleGeneration < s.node.nextGeneration ∧
      s.view.resyncPromise = some c.id)
    (howned : Owned setup.options false m) (hkept : Kept False false m) :
    Inv setup (State.served { s with requests := rest, running := some c.id } m) := by
  have hrunning : s.running = none := h.wired.running.mpr hidle
  have hrest : ∀ x ∈ rest, x ∈ s.requests := fun x hx => hr ▸ List.mem_cons_of_mem _ hx
  have hids : ∀ {m : Node}, Tame false s.node m → ∀ g t, m.heap g = some t →
      t.id = s.view.subscriptionId := by
    intro m ht g t hg
    obtain ⟨u, hu, hid, -⟩ := ht.heap hg
    exact hid.trans (h.ordered.ids g u hu)
  cases hb with
  | waits ht hw =>
    rw [served_waits (s := { s with requests := rest, running := some c.id }) ht.returns ht.outbox
      hw.running]
    refine ⟨h.id, howned, hkept, h.wired.serves rfl ?_ hrest ?_ (fun x hx => ?_) fun _ => hw.id, ?_,
      agrees_of_waits hw.running hw.creating⟩
    · simp [State.inFlight, State.pending, hr, hrunning]
    · exact ⟨fun hno => (by cases hno), fun hpc => absurd hpc hw.running⟩
    · exact ⟨c.id, rfl, (hresync x (hw.resync.symm.trans hx)).2⟩
    · refine h.ordered.serves ⟨rfl, rfl, hrest, .inl rfl, Nat.le_of_eq ht.next.symm, fun g hg => ?_,
        fun x hx => (hresync x (hw.resync.symm.trans hx)).1, ht.cached, hids ht⟩
      rw [show creating m.pc = none from hw.creating] at hg
      cases hg
  | @fails m error ht =>
    have hserved := served_finish (s := { s with requests := rest, running := some c.id }) ht.returns
      ht.outbox rfl r s.view.subscriptionId (.error error)
    rw [hserved]
    have hpending : ∀ n : Node, State.pending { s with
        node := n, requests := rest, unsent := s.unsent ++ [(c.id, .error error)], running := none } =
        s.pending ++ [(c.id, .error error)] := fun n => by simp [State.pending]
    refine ⟨h.id, howned, hkept, h.wired.serves rfl ?_ hrest ⟨fun _ => rfl, fun _ => rfl⟩
      (fun x hx => by cases hx) (fun hpc => absurd rfl hpc), ?_, agrees_of_failure rfl (hpending _)⟩
    · unfold State.inFlight
      rw [hpending, hr, hrunning]
      simp
    · exact h.ordered.serves ⟨rfl, rfl, hrest, .inr ⟨c.id, error, hpending _⟩, Nat.le_of_eq ht.next.symm,
        fun g hg => (by cases hg), fun x hx => (by cases hx), ht.cached,
        fun g t hg => hids ht g t hg⟩

theorem inv_request (h : Inv setup s) {c : View.Call} {rest : List View.Call}
    (hr : s.requests = c :: rest) {m : Node}
    (hm : s.node.step setup.options false (requestOf setup c.method) = some m) :
    Inv setup (State.served { s with requests := rest, running := some c.id } m) := by
  have howned : Owned setup.options false m := by
    refine owned_node h.owned (fun hlogout => ?_) hm
    cases hmethod : c.method <;> rw [hmethod] at hlogout <;> cases hlogout
  have hkept : Kept False false m := kept_node h.kept h.owned False.elim False.elim hm
  have hc : c ∈ s.requests := hr ▸ List.mem_cons_self ..
  cases hmethod : c.method with
  | subscribe =>
    simp only [hmethod, requestOf, Node.step] at hm
    split at hm
    · next hidle =>
      cases hm
      refine inv_begins h hr hidle (r := none) ?_ (fun x hx => by cases hx) howned hkept
      rw [h.id]
      exact begins_subscribe s.node ⟨setup.subscriptionId, setup.isProtected, true, true⟩
    · cases hm
  | resync g =>
    simp only [hmethod, requestOf, Node.step] at hm
    split at hm
    · next hidle =>
      cases hm
      have hbegins := begins_resync false s.node ⟨setup.subscriptionId, g⟩
      rcases hbegins with ⟨cached, previous, hcached, -⟩ | hb
      · -- This `resync` was not answered before.
        exact absurd (h.ordered.fresh c hc g hmethod _ _ hcached) (Nat.lt_irrefl _)
      · refine inv_begins h hr hidle (r := some ⟨setup.subscriptionId, g⟩) ?_ (fun x hx => ?_) howned hkept
        · rw [h.id]
          exact hb
        · cases hx
          exact ⟨h.ordered.requested c hc g hmethod, h.wired.requested c hc g hmethod⟩
    · cases hm

/-- A subscription is created, and everything that is on its way was there before. -/
theorem awaits_created (h : Ordered s) (hfresh : Fresh s.node) {id : SubscriptionId}
    {a : AuthorizationId} {ordered typed windowed : Bool} {m : Node}
    (ht : Tame false (s.node.createSubscription setup.options id a ordered typed windowed) m) :
    Awaits { s with node := m } s.node.nextGeneration := by
  have hnew : (s.node.createSubscription setup.options id a ordered typed windowed).heap
      s.node.nextGeneration ≠ none := by simp [Node.createSubscription]
  obtain ⟨u, hu⟩ := Option.ne_none_iff_exists'.mp hnew
  obtain ⟨t, hheap⟩ := ht.kept hu
  obtain ⟨u', hu', -, hst, hsent, -⟩ := ht.heap hheap
  obtain ⟨-, -, hstale, hnone, -⟩ | hold := created_heap false hu'
  · refine ⟨t, hheap, fun htrue => ?_, fun _ => ⟨Nat.zero_le _, ?_⟩⟩
    · rw [hst, hstale] at htrue
      cases htrue
    · rw [hsent, hnone, List.drop_nil, List.filter_eq_nil_iff]
      intro d hd
      rw [decide_eq_true_eq]
      refine Nat.ne_of_lt ?_
      rcases List.mem_append.mp hd with hd | hd
      · exact h.buffered d hd
      · obtain ⟨x, hx, hxd⟩ := List.mem_filterMap.mp hd
        split at hxd <;> cases hxd
        exact (h.channel _ hx).1
  · rw [hfresh _ (Nat.le_refl _)] at hold
    cases hold

/-- The request that is running is answered with the snapshot of the subscription it
has created. -/
theorem inv_answers (h : Inv setup s) {g : Generation} {snapshot : Snapshot} {m : Node} {call : ℕ}
    (hcreating : creating s.node.pc = some g) (hrunning : s.running = some call)
    (hstart : s.node.started g = some (.ok snapshot))
    (ht : Tame false s.node { m with resyncSnapshots := s.node.resyncSnapshots })
    (hheap : m.heap = s.node.heap)
    (hstored : m.nodeSubscriptions.get s.view.subscriptionId = some g)
    (hcached : m.resyncSnapshots = match resyncOf s.node.pc with
      | some r => some (r, snapshot)
      | none => s.node.resyncSnapshots)
    (howned : Owned setup.options false
      (m.finish (resyncOf s.node.pc) s.view.subscriptionId (.ok snapshot)))
    (hkept : Kept False false
      (m.finish (resyncOf s.node.pc) s.view.subscriptionId (.ok snapshot))) :
    Inv setup (s.served (m.finish (resyncOf s.node.pc) s.view.subscriptionId (.ok snapshot))) := by
  obtain ⟨-, hgen, hzero⟩ := Faithful.answer h.kept.faithful hstart
  rw [served_finish (m := m) ht.returns ht.outbox hrunning]
  have hpending : ∀ n : Node, State.pending { s with
      node := n, unsent := s.unsent ++ [(call, .ok snapshot)], running := none } =
      s.pending ++ [(call, .ok snapshot)] := fun n => by simp [State.pending]
  have hnext : m.nextGeneration = s.node.nextGeneration := ht.next
  have hchain : ∀ n : Node, n.pc = .idle → chain { s with
      node := n, unsent := s.unsent ++ [(call, .ok snapshot)], running := none } = chain s := by
    intro n hn
    have hidle : creating n.pc = none := by rw [hn]; rfl
    rw [chain, chain, hpending, hcreating, hidle, List.filterMap_append]
    simp [okGeneration, hgen]
  have hin : ∀ {x}, x ∈ s.pending → x ∈ s.pending ++ [(call, .ok snapshot)] :=
    fun hx => List.mem_append_left _ hx
  refine ⟨h.id, howned, hkept, h.wired.serves rfl ?_ (fun _ hc => hc) ⟨fun _ => rfl, fun _ => rfl⟩
    (fun x hx => by cases hx) (fun hpc => absurd rfl hpc), ?_, ?_⟩
  · unfold State.inFlight
    rw [hpending, hrunning]
    simp
  · refine ⟨by rw [hchain _ rfl]; exact h.ordered.sorted, ?_, ?_, ?_, ?_, fun r hr => (by cases hr),
      fun p c hp => ?_, fun r c hc => ?_, fun q hq k hk r c hc => ?_, ?_⟩
    · rw [hchain _ rfl]
      exact fun k hk => hnext ▸ h.ordered.bounded k hk
    · exact fun e he => hnext ▸ h.ordered.channel e he
    · exact fun d hd => hnext ▸ h.ordered.buffered d hd
    · exact fun c hc k hk => hnext ▸ h.ordered.requested c hc k hk
    · rw [hpending] at hp
      rcases List.mem_append.mp hp with hp | hp
      · exact h.ordered.zero p c hp
      · cases List.mem_singleton.mp hp
        exact hzero
    · change m.resyncSnapshots = some (r, c) at hc
      rw [hpending]
      rw [hcached] at hc
      split at hc
      · next r' hr =>
        cases hc
        obtain ⟨p, hp, hpromise⟩ := h.wired.resyncing r hr
        rw [hrunning, Option.some.injEq] at hp
        subst hp
        refine ⟨hgen ▸ (h.ordered.resyncing r hr).2 g hcreating, .inr ⟨call, ?_, hpromise⟩⟩
        exact List.mem_append_right _ (List.mem_singleton.mpr rfl)
      · obtain ⟨hlt, hor⟩ := h.ordered.cached r c hc
        exact ⟨hlt, hor.imp_right (Exists.imp fun p hp => hp.imp_left hin)⟩
    · change m.resyncSnapshots = some (r, c) at hc
      rw [hcached] at hc
      split at hc
      · next r' hr =>
        -- The promise of the view is the request that was running.
        obtain ⟨p, hp, hpromise⟩ := h.wired.resyncing r' hr
        rw [h.wired.requested q hq k hk, Option.some.injEq] at hpromise
        have hflight := h.wired.flight
        rw [State.inFlight, List.append_assoc] at hflight
        have hnodup := (List.nodup_append.mp hflight).2.1
        rw [hp] at hnodup
        refine absurd ?_ (List.nodup_cons.mp hnodup).1
        rw [← hpromise]
        exact List.mem_map_of_mem hq
      · exact h.ordered.fresh q hq k hk r c hc
    · change ∀ k t, m.heap k = some t → t.id = s.view.subscriptionId
      rw [hheap]
      exact h.ordered.ids
  · refine ⟨fun _ k hk => (by cases hk), fun hr _ p c hlast => ?_, fun _ _ hnil => ?_⟩
    · rw [hpending, List.getLast?_concat] at hlast
      cases hlast
      rw [hgen]
      obtain ⟨t, htail⟩ := h.agrees.creating hr g hcreating
      exact ⟨hstored, t, hheap ▸ htail.heap, htail.stale, htail.fresh⟩
    · rw [hpending] at hnil
      cases (List.append_eq_nil_iff.mp hnil).2

/-- What the request that is running waits for has settled. -/
theorem inv_settle (h : Inv setup s) {settlement : Settlement} {m : Node}
    (hm : s.node.step setup.options false (.settle settlement) = some m) :
    Inv setup (s.served m) := by
  have howned : Owned setup.options false m := owned_node h.owned (fun hlogout => by cases hlogout) hm
  have hkept : Kept False false m := kept_node h.kept h.owned False.elim False.elim hm
  have hbusy : s.node.pc ≠ .idle := by
    intro hidle
    simp [Node.step, Node.settle, hidle] at hm
  have hidOf := h.wired.identified hbusy
  obtain ⟨call, hrunning⟩ : ∃ call, s.running = some call :=
    Option.ne_none_iff_exists'.mp fun hnone => hbusy (h.wired.running.mp hnone)
  have hids : ∀ {n m : Node}, Tame false n m → (∀ g t, n.heap g = some t →
      t.id = s.view.subscriptionId) → ∀ g t, m.heap g = some t → t.id = s.view.subscriptionId := by
    intro n m ht hn g t hg
    obtain ⟨u, hu, hid, -⟩ := ht.heap hg
    exact hid.trans (hn g u hu)
  have hcreated : ∀ {id a ordered typed windowed}, idOf s.node.pc = some id → ∀ g t,
      (s.node.createSubscription setup.options id a ordered typed windowed).heap g = some t →
      t.id = s.view.subscriptionId := by
    intro id a ordered typed windowed hid g t hg
    rw [hidOf, Option.some.injEq] at hid
    rcases created_heap false hg with ⟨-, ht, -⟩ | hold
    · exact ht.trans hid.symm
    · exact h.ordered.ids g t hold
  -- The request goes on, up to another await.
  have hgoes : ∀ {n : Node}, n.pc ≠ .idle → resyncOf n.pc = resyncOf s.node.pc →
      idOf n.pc = idOf s.node.pc → Wired { s with node := n } := by
    intro n hpc hresync hid
    refine h.wired.serves rfl rfl (fun _ hc => hc) ⟨fun hno => ?_, fun hno => absurd hno hpc⟩
      (fun r hr => h.wired.resyncing r (hresync.symm.trans hr)) fun _ => hid.trans hidOf
    rw [show s.running = none from hno] at hrunning
    cases hrunning
  cases settle_cases h.owned hm with
  | waits ht hw =>
    rw [served_waits ht.returns ht.outbox hw.running]
    refine ⟨h.id, howned, hkept, hgoes hw.running hw.resync hw.id, h.ordered.serves ⟨rfl, rfl,
      fun _ hc => hc, .inl rfl, Nat.le_of_eq ht.next.symm, fun g hg => ?_,
      fun r hr => (h.ordered.resyncing r (hw.resync.symm.trans hr)).1, ht.cached,
      hids ht h.ordered.ids⟩, agrees_of_waits hw.running hw.creating⟩
    rw [show creating m.pc = none from hw.creating] at hg
    cases hg
  | creates id a ordered typed windowed hid hbefore ht hcreating hresync hidm =>
    have hpc : m.pc ≠ .idle := by
      intro hidle
      rw [hidle] at hcreating
      cases hcreating
    rw [served_waits ht.returns ht.outbox hpc]
    have hnext : m.nextGeneration = s.node.nextGeneration + 1 := ht.next
    refine ⟨h.id, howned, hkept, hgoes hpc hresync hidm, h.ordered.serves ⟨rfl, rfl,
      fun _ hc => hc, .inl rfl, by rw [hnext]; exact Nat.le_succ _, fun g hg => ?_,
      fun r hr => (h.ordered.resyncing r (hresync.symm.trans hr)).1, ht.cached,
      hids ht (hcreated hid)⟩, fun hr g hg => ?_, fun _ hidle => absurd hidle hpc,
      fun _ hidle => absurd hidle hpc⟩
    · rw [show creating m.pc = some _ from hcreating, Option.some.injEq] at hg
      rw [← hg, hnext]
      exact ⟨Nat.le_refl _, Nat.lt_succ_self _⟩
    · rw [show creating m.pc = some _ from hcreating, Option.some.injEq] at hg
      rw [← hg]
      exact awaits_created h.ordered h.owned.fresh ht
  | abandons id a ordered typed windowed hid hbefore ht hw =>
    rw [served_waits ht.returns ht.outbox hw.running]
    have hnext : m.nextGeneration = s.node.nextGeneration + 1 := ht.next
    refine ⟨h.id, howned, hkept, hgoes hw.running hw.resync hw.id, h.ordered.serves ⟨rfl, rfl,
      fun _ hc => hc, .inl rfl, by rw [hnext]; exact Nat.le_succ _, fun g hg => ?_,
      fun r hr => (h.ordered.resyncing r (hw.resync.symm.trans hr)).1, ht.cached,
      hids ht (hcreated hid)⟩, agrees_of_waits hw.running hw.creating⟩
    rw [show creating m.pc = none from hw.creating] at hg
    cases hg
  | @fails m id error hid ht =>
    rw [served_finish ht.returns ht.outbox hrunning]
    have hpending : ∀ n : Node, State.pending { s with
        node := n, unsent := s.unsent ++ [(call, .error error)], running := none } =
        s.pending ++ [(call, .error error)] := fun n => by simp [State.pending]
    refine ⟨h.id, howned, hkept, h.wired.serves rfl ?_ (fun _ hc => hc) ⟨fun _ => rfl, fun _ => rfl⟩
      (fun x hx => by cases hx) (fun hpc => absurd rfl hpc), ?_, agrees_of_failure rfl (hpending _)⟩
    · unfold State.inFlight
      rw [hpending, hrunning]
      simp
    · exact h.ordered.serves ⟨rfl, rfl, fun _ hc => hc, .inr ⟨call, error, hpending _⟩,
        Nat.le_of_eq ht.next.symm, fun g hg => (by cases hg), fun x hx => (by cases hx), ht.cached,
        fun g t hg => hids ht h.ordered.ids g t hg⟩
  | answers id g snapshot hid hcreating hstart ht hheap hstored hcached =>
    rw [hidOf, Option.some.injEq] at hid
    subst hid
    exact inv_answers h hcreating hrunning hstart ht hheap hstored hcached howned hkept
  | unsubscribes hid ht hpc =>
    rw [hidOf] at hid
    cases hid

/-! ## A step, and a run -/

theorem inv_step (h : Inv setup s) {a : Session.Action} {s' : Session.State}
    (hok : losesNothing s a) (hs : Session.step setup s a = some s') : Inv setup s' := by
  cases a with
  | start =>
    cases hs
    obtain ⟨method, hm⟩ := acts_start s.view
    exact inv_called h hm start_same (start_keeps s.view).1 (start_keeps s.view).2
  | resync =>
    cases hs
    obtain ⟨method, hm⟩ := acts_resync s.view
    exact inv_called h hm resync_same (resync_keeps s.view).1 (resync_keeps s.view).2
  | request =>
    simp only [Session.step] at hs
    split at hs
    · next c rest hr =>
      obtain ⟨m, hm, rfl⟩ := Option.map_eq_some_iff.mp hs
      exact inv_request h hr hm
    · cases hs
  | settle settlement =>
    obtain ⟨m, hm, rfl⟩ := Option.map_eq_some_iff.mp hs
    exact inv_settle h hm
  | observer g a send control =>
    obtain ⟨m, hm, rfl⟩ := Option.map_eq_some_iff.mp hs
    have howned := owned_node h.owned (fun hlogout => by cases hlogout) hm
    have hkept := kept_node h.kept h.owned False.elim False.elim hm
    simp only [Node.step] at hm
    split at hm
    · obtain ⟨u, t, es, hu, rfl, htold⟩ := observe_put hm
      exact inv_told h hu htold howned hkept
    · cases hm
  | timer g control =>
    obtain ⟨m, hm, rfl⟩ := Option.map_eq_some_iff.mp hs
    have howned := owned_node h.owned (fun hlogout => by cases hlogout) hm
    have hkept := kept_node h.kept h.owned False.elim False.elim hm
    simp only [Node.step] at hm
    split at hm
    · next u hu =>
      split at hm <;> cases hm
      obtain ⟨t, es, hput, htold⟩ := timer_put hu control
      rw [hput] at howned hkept ⊢
      exact inv_told h hu htold howned hkept
    · cases hm
  | send =>
    simp only [Session.step] at hs
    split at hs <;> cases hs
    next hu => exact inv_send h hu
  | receive =>
    simp only [Session.step] at hs
    split at hs
    · next e rest hc =>
      cases hs
      exact inv_event h hc hok
    · next call result rest hc =>
      obtain ⟨v, hv, rfl⟩ := Option.map_eq_some_iff.mp hs
      exact inv_response h hc hok hv
    · cases hs
  | settled call =>
    obtain ⟨v, hv, rfl⟩ := Option.map_eq_some_iff.mp hs
    exact inv_settled h hv
  | followUp promise =>
    obtain ⟨v, hv, rfl⟩ := Option.map_eq_some_iff.mp hs
    exact inv_followUp h hv

theorem inv_init (setup : Setup) : Inv setup (init setup) := by
  have howned : Owned setup.options false (init setup).node := by
    have h := owned_connected setup.options false
    exact ⟨h.holds, h.owned, h.keyed, h.bound, h.fresh⟩
  have hkept : Kept False false (init setup).node :=
    kept_connected.tame (tame_of_eq rfl (.inl rfl) rfl rfl rfl) (.inl rfl)
  refine ⟨rfl, howned, hkept, ?_, ?_, ?_⟩
  · exact ⟨rfl, fun c hc => (by cases hc), ⟨fun _ => rfl, fun _ => rfl⟩, List.nodup_nil,
      fun p hp => (by cases hp), ⟨fun p hp => (by cases hp), fun c hc => (by cases hc)⟩,
      fun p hp => (by cases hp), fun c hc => (by cases hc), fun r hr => (by cases hr),
      fun hpc => absurd rfl hpc⟩
  · exact ⟨List.Pairwise.nil, fun g hg => (by cases hg), fun e he => (by cases he),
      fun d hd => (by cases hd), fun c hc => (by cases hc), fun r hr => (by cases hr),
      fun p c hp => (by cases hp), fun r c hc => (by cases hc), fun q hq => (by cases hq),
      fun g t ht => (by cases ht)⟩
  · exact ⟨fun _ g hg => (by cases hg), fun _ _ p c hlast => (by cases hlast),
      fun _ _ _ hready => (by cases hready)⟩

end

/-- **A view at rest agrees with its subscription.** In every run in which the view
throws nothing away that it needs: when nothing is on its way and the view is ready
in generation `g`, that generation is stored, its subscription is not stale, and
all its deltas are applied. -/
theorem quiescent_agreement {setup : Setup} {s : Session.State}
    (h : (machine setup).Reach losesNothing s) (hrest : AtRest s)
    (hready : s.view.snapshot.status = .ready) {g : Generation} (hg : s.view.generation = some g) :
    stored s = some g ∧ ∃ t, s.node.heap g = some t ∧ t.stale = false ∧
      ∀ d ∈ t.sent, d.sequence ≤ s.view.sequence := by
  have hinv : Inv setup s :=
    h.invariant (Inv setup) (inv_init setup) fun _ _ _ hs hok hstep => inv_step hs hok hstep
  have hpending : s.pending = [] := by
    rw [State.pending, hrest.channel, hrest.unsent]
    rfl
  rcases hinv.agrees.ready hrest.requests hrest.node hpending hready with hin | ⟨-, p, hp, -⟩
  · obtain ⟨k, t, hk, hst, ht⟩ := hin
    rw [hg, Option.some.injEq] at hk
    subst hk
    have hlt : g < s.node.nextGeneration := by
      by_contra hge
      have hnone := hinv.owned.fresh g (Nat.le_of_not_lt hge)
      rw [ht.heap] at hnone
      cases hnone
    have hfresh : t.stale = false := by
      by_contra hstale
      rcases ht.stale (by simpa using hstale) with htimer | hin
      · rw [hrest.timers g hlt t ht.heap] at htimer
        cases htimer
      · rw [hrest.channel] at hin
        cases hin
    refine ⟨hst, t, ht.heap, hfresh, fun d hd => ?_⟩
    obtain ⟨-, hall⟩ := ht.fresh hfresh
    rw [hrest.channel] at hall
    have hle : t.sent.length ≤ s.view.sequence := List.drop_eq_nil_iff.mp hall.symm
    obtain ⟨n, hn⟩ := List.getElem?_of_mem hd
    rw [((hinv.kept.faithful ht.heap).each hn).2.2]
    exact (List.getElem?_eq_some_iff.mp hn).1.trans_le hle
  · rw [hrest.followUps] at hp
    cases hp

instance (s : Session.State) : ∀ a, Decidable (losesNothing s a)
  | .receive => inferInstanceAs (Decidable
      (∀ m ∈ s.channel.head?, ∀ g ∈ dropped s.view m, needed s g = false))
  | .start | .resync | .request | .settle _ | .observer _ _ _ _ | .timer _ _ | .send | .settled _
  | .followUp _ => isTrue trivial

instance (s : Session.State) : Decidable (AtRest s) :=
  decidable_of_iff (s.channel.isEmpty ∧ s.unsent.isEmpty ∧ s.requests.isEmpty ∧ s.node.pc = .idle ∧
      (∀ g < s.node.nextGeneration, ∀ t ∈ s.node.heap g, t.pressureTimer = false) ∧
      s.view.calls.isEmpty ∧ s.view.followUps.isEmpty)
    ⟨fun ⟨h₁, h₂, h₃, h₄, h₅, h₆, h₇⟩ => ⟨List.isEmpty_iff.mp h₁, List.isEmpty_iff.mp h₂,
      List.isEmpty_iff.mp h₃, h₄, h₅, List.isEmpty_iff.mp h₆, List.isEmpty_iff.mp h₇⟩,
    fun h => ⟨List.isEmpty_iff.mpr h.channel, List.isEmpty_iff.mpr h.unsent,
      List.isEmpty_iff.mpr h.requests, h.node, h.timers, List.isEmpty_iff.mpr h.calls,
      List.isEmpty_iff.mpr h.followUps⟩⟩

/-! ### Two runs -/

/-- The observer of generation `g` goes on, and the socket takes everything. -/
def observes (g : Generation) (a : Observer.Action) : Session.Action := .observer g a .accepted .accepted

/-- A `subscribe` up to the moment at which its response is to be sent. -/
def subscribed : List Session.Action :=
  [.start, .request, .settle (.fulfilled false), .settle (.fulfilled false), observes 0 (.read []),
    .settle (.fulfilled false)]

/-- A `resync` with generation `g`, from the request to the response. -/
def resynced (g : Generation) (call : ℕ) : List Session.Action :=
  [.request, .settle (.fulfilled false), .settle (.fulfilled false), .settle (.fulfilled false),
    observes g (.read []), .settle (.fulfilled false), .send, .receive, .settled call]

/-- The application listens to a protected publication. -/
def protectedSeven : Setup := ⟨⟨2, 10⟩, 7, some true, true⟩

/-- A delta, a reset of the source, and a delta of the replacement. -/
theorem quiescent_agreement_replaced : ∃ s t, (machine protectedSeven).Reach losesNothing s ∧ AtRest s ∧
    s.view.snapshot.status = .ready ∧ s.view.generation = some 1 ∧ stored s = some 1 ∧
    s.node.heap 1 = some t ∧ t.stale = false ∧ t.sent.length = 1 ∧
    ∀ d ∈ t.sent, d.sequence ≤ s.view.sequence := by
  obtain ⟨s, hs, hP⟩ := (machine protectedSeven).exists_of_exec losesNothing (init protectedSeven)
    (subscribed ++ [.send, .receive, .settled 0] ++ Simulation.addB.map (observes 0) ++
      [.receive, observes 0 (.notice (.reset 10 .invalidated)), .receive] ++ resynced 1 1 ++
      Simulation.addB.map (observes 1) ++ [.receive])
    (fun s => decide (AtRest s) && decide (s.view.snapshot.status = .ready) &&
      decide (s.view.generation = some 1) && (s.node.heap 1).any fun t => t.sent.length = 1)
    (by decide)
  simp only [Bool.and_eq_true, decide_eq_true_eq, Option.any_eq_true] at hP
  obtain ⟨⟨⟨hrest, hready⟩, hg⟩, t, ht, hlen⟩ := hP
  obtain ⟨hst, t', ht', hstale, hall⟩ := quiescent_agreement hs hrest hready hg
  rw [ht, Option.some.injEq] at ht'
  subst ht'
  exact ⟨s, t, hs, hrest, hready, hg, hst, ht, hstale, hlen, hall⟩

/-- The source is reset when the snapshot is stored and its response is not sent
yet. The control event comes first, while `start` is outstanding, and nothing
follows it. -/
theorem quiescent_view_stale : ¬ ∀ (setup : Setup) (s : Session.State) (g : Generation),
    (machine setup).Reach anyStep s → AtRest s → s.view.snapshot.status = .ready →
    s.view.generation = some g →
    ¬ ∃ k t, stored s = some k ∧ s.node.heap k = some t ∧
      (t.stale = true ∨ k ≠ g ∨ ∃ d ∈ t.sent, s.view.sequence < d.sequence) := by
  intro h
  obtain ⟨s, hs, hP⟩ := (machine protectedSeven).exists_of_exec anyStep (init protectedSeven)
    (subscribed ++ [observes 0 (.notice (.reset 3 .invalidated)), .send, .receive, .receive, .settled 0])
    (fun s => decide (AtRest s) && decide (s.view.snapshot.status = .ready) &&
      decide (s.view.generation = some 0) && decide (stored s = some 0) &&
      (s.node.heap 0).any fun t => t.stale) (by decide)
  simp only [Bool.and_eq_true, decide_eq_true_eq, Option.any_eq_true] at hP
  obtain ⟨⟨⟨⟨hrest, hready⟩, hg⟩, hst⟩, t, ht, hstale⟩ := hP
  exact h protectedSeven s 0 hs hrest hready hg ⟨0, t, hst, ht, .inl hstale⟩

end TypeFerry.Live.Agreement
