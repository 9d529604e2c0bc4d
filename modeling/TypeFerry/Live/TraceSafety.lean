import TypeFerry.Live.View

/-! # What a ready view shows

A view is fed any responses, deltas, control events, closes and restarts, in any
order. Beside it stand the snapshots returned in the current connection epoch
and the deltas received so far; the view itself does not see them. -/
namespace TypeFerry.Live.TraceSafety
open TypeFerry.Lib.Numeral TypeFerry.Lib.OrderedMap TypeFerry.Lib.Runs
open TypeFerry.Live.Types TypeFerry.Live.Window TypeFerry.Live.View

structure Traced where
  view : View.State
  returned : List Snapshot
  received : List Delta

inductive Action where
  /-- `start`, also from `handleInitialized`. -/
  | start
  | resync
  | stop
  | closed
  | event (e : Event)
  | respond (id : Nat) (result : Except Text Snapshot)
  | settle (id : Nat)
  | followUp (promise : Nat)

/-- The snapshots of the epoch, with the response to a call of the epoch. -/
def returnedBy (t : Traced) (id : Nat) : Except Text Snapshot → List Snapshot
  | .ok s => match t.view.calls.find? fun c => c.id = id with
    | some call => if call.epoch = t.view.connectionEpoch then t.returned ++ [s] else t.returned
    | none => t.returned
  | .error _ => t.returned

def receivedBy (t : Traced) : Event → List Delta
  | .delta d => t.received ++ [d]
  | .resyncRequired _ _ => t.received

def step (t : Traced) : Action → Option Traced
  | .start => some { t with view := t.view.start }
  | .resync => some { t with view := t.view.resync }
  | .stop => some { t with view := t.view.stop }
  | .closed => some { t with
      view := t.view.handleClosed
      returned := if t.view.stopped then t.returned else [] }
  | .event e => some { t with view := t.view.handleEvent e, received := receivedBy t e }
  | .respond id result => (t.view.respond id result).map fun v =>
      { t with view := v, returned := returnedBy t id result }
  | .settle id => (t.view.settle id).map fun v => { t with view := v }
  | .followUp promise => (t.view.followUp promise).map fun v => { t with view := v }

/-- The machine of one view. -/
def machine (subscriptionId : SubscriptionId) : Machine Traced Action :=
  ⟨⟨created subscriptionId, [], []⟩, step⟩

/-! ## The property -/

/-- A snapshot and deltas applied to it, each in full. -/
def replay (s : Snapshot) (ds : List Delta) : Option Contents :=
  ds.foldlM (fun c d => c.applyInFull d.operations) (.ofSnapshot s)

/-- The contents are those of a returned snapshot and of the received deltas of
its generation that follow it up to the view's sequence. -/
def Agrees (returned : List Snapshot) (received : List Delta) (v : View.State)
    (c : Contents) : Prop :=
  ∃ s ∈ returned, ∃ ds : List Delta, (∀ d ∈ ds, d ∈ received ∧ d.generation = s.generation) ∧
    ds.map Delta.sequence = List.range' (s.sequence + 1) ds.length ∧
    v.generation = some s.generation ∧ v.sequence = s.sequence + ds.length ∧ replay s ds = some c

/-- What a ready view shows is the contents of a snapshot and its deltas. -/
def Safe (t : Traced) : Prop :=
  t.view.snapshot.status = .ready → ∃ c, Agrees t.returned t.received t.view c ∧
    t.view.snapshot.documents = c.currentDocuments

/-- A delta among those that came early is applied in part. -/
def bufferInPart (generation : Generation) : Nat → Contents → List Delta → Bool
  | _, _, [] => false
  | sequence, c, d :: ds =>
    if d.generation ≠ generation ∨ d.sequence ≤ sequence then bufferInPart generation sequence c ds
    else if d.sequence ≠ sequence + 1 then false
    else match c.applyInFull d.operations with
      | some c' => bufferInPart generation d.sequence c' ds
      | none => c.appliesInPart d.operations

/-- While a resync is outstanding, no delta is applied in part. -/
def noPartialDelta (t : Traced) : Action → Prop
  | .event (.delta d) => t.view.resyncPromise.isSome → t.view.snapshot.status = .ready →
      t.view.generation = some d.generation → d.sequence = t.view.sequence + 1 →
      t.view.contents.appliesInPart d.operations = false
  | .respond _ (.ok s) => t.view.resyncPromise.isSome →
      bufferInPart s.generation s.sequence (.ofSnapshot s) t.view.bufferedDeltas = false
  | _ => True

/-! ## The invariant -/

section
variable {R R' : List Snapshot} {D D' : List Delta} {v : View.State}

theorem Agrees.mono {c : Contents} (h : Agrees R D v c) (hR : ∀ s ∈ R, s ∈ R')
    (hD : ∀ d ∈ D, d ∈ D') : Agrees R' D' v c := by
  obtain ⟨s, hs, ds, hds, h⟩ := h
  exact ⟨s, hR s hs, ds, fun d hd => ⟨hD d (hds d hd).1, (hds d hd).2⟩, h⟩

/-- The next delta of the generation, applied in full. -/
theorem Agrees.next {c c' : Contents} {d : Delta} {v' : View.State} (h : Agrees R D v c)
    (hd : d ∈ D) (hg : v.generation = some d.generation) (hq : d.sequence = v.sequence + 1)
    (hc : c.applyInFull d.operations = some c') (hg' : v'.generation = v.generation)
    (hq' : v'.sequence = d.sequence) : Agrees R D v' c' := by
  obtain ⟨s, hs, ds, hds, hseq, hgen, hsq, hr⟩ := h
  refine ⟨s, hs, ds ++ [d], ?_, ?_, hg'.trans hgen, ?_, ?_⟩
  · intro e he
    rcases List.mem_append.mp he with he | he
    · exact hds e he
    · rw [List.mem_singleton.mp he]
      exact ⟨hd, by rw [hgen] at hg; exact (Option.some.inj hg).symm⟩
  · rw [List.map_append, hseq, List.length_append, List.length_singleton, List.range'_concat]
    simp [hq, hsq]
    omega
  · rw [hq', hq, hsq, List.length_append, List.length_singleton, Nat.add_assoc]
  · simp only [replay] at hr ⊢
    rw [List.foldlM_append, hr]
    simpa using hc

/-- The contents agree with what was received, and a ready view shows them. -/
structure Ok (R : List Snapshot) (D : List Delta) (v : View.State) : Prop where
  buffered : ∀ d ∈ v.bufferedDeltas, d ∈ D
  ready : v.snapshot.status = .ready → v.bufferedDeltas = [] ∧ Agrees R D v v.contents ∧
    v.snapshot.documents = v.contents.currentDocuments

theorem Ok.mono (h : Ok R D v) (hR : ∀ s ∈ R, s ∈ R') (hD : ∀ d ∈ D, d ∈ D') : Ok R' D' v :=
  ⟨fun d hd => hD d (h.buffered d hd), fun hr => by
    obtain ⟨h₁, h₂, h₃⟩ := h.ready hr
    exact ⟨h₁, h₂.mono hR hD, h₃⟩⟩

/-- Any view whose status is not `ready` will do. -/
theorem ok_of_not_ready (hb : ∀ d ∈ v.bufferedDeltas, d ∈ D)
    (hs : v.snapshot.status ≠ .ready) : Ok R D v := ⟨hb, fun h => absurd h hs⟩

theorem Ok.start (h : Ok R D v) : Ok R D v.start := by
  unfold View.State.start
  split
  · exact h
  · exact ok_of_not_ready h.buffered (by simp [View.State.issue, View.State.updateSnapshot])

theorem Ok.resync (h : Ok R D v) : Ok R D v.resync := by
  unfold View.State.resync
  split
  · exact h
  · split
    · exact h.start
    · split
      · exact h
      · exact ok_of_not_ready h.buffered (by simp [View.State.issue, View.State.updateSnapshot])

/-- `resync` with a generation and no promise leaves the status `ready`. -/
theorem resync_not_ready {g : Generation} (hs : v.stopped = false) (hg : v.generation = some g)
    (hp : v.resyncPromise = none) :
    v.resync.snapshot.status ≠ .ready ∧ v.resync.bufferedDeltas = v.bufferedDeltas := by
  simp [View.State.resync, hs, hg, hp, View.State.issue, View.State.updateSnapshot]

theorem Ok.stop (h : Ok R D v) : Ok R D v.stop := by
  unfold View.State.stop
  split
  · exact h
  · exact ok_of_not_ready (by simp [View.State.updateSnapshot])
      (by simp [View.State.updateSnapshot])

theorem Ok.fail (h : Ok R D v) (e : Text) : Ok R D (v.fail e) :=
  ok_of_not_ready h.buffered (by simp [View.State.fail])

theorem Ok.handleClosed (h : Ok R D v) :
    Ok (if v.stopped then R else []) D v.handleClosed := by
  unfold View.State.handleClosed
  split
  · exact h
  · exact ok_of_not_ready (by simp [View.State.updateSnapshot])
      (by simp [View.State.updateSnapshot])

/-- The view after a rejected delta, and the resync that it asks for. -/
theorem Ok.rejected {g : Generation} (h : Ok R D v) (hs : v.stopped = false)
    (hg : v.generation = some g) {c : Contents}
    (hc : v.resyncPromise.isSome → c = v.contents) : Ok R D { v with contents := c }.resync := by
  by_cases hp : v.resyncPromise.isSome
  · rw [hc hp]
    exact h.resync
  · have hnone : v.resyncPromise = none := by simpa using hp
    obtain ⟨h₁, h₂⟩ := @resync_not_ready { v with contents := c } g hs hg hnone
    exact ok_of_not_ready (by rw [h₂]; exact h.buffered) h₁

theorem Ok.handleDelta (h : Ok R D v) {d : Delta} (hs : v.stopped = false)
    (hpart : v.resyncPromise.isSome → v.snapshot.status = .ready →
      v.generation = some d.generation → d.sequence = v.sequence + 1 →
      v.contents.appliesInPart d.operations = false) (hd : d ∈ D) : Ok R D (v.handleDelta d) := by
  unfold View.State.handleDelta
  split
  · next hearly =>
    have hempty : Ok R D { v with bufferedDeltas := [] } :=
      ⟨by simp, fun hr => ⟨rfl, (h.ready hr).2⟩⟩
    split
    · split
      · exact hempty.resync
      · exact hempty
    · refine ⟨fun e he => ?_, fun hr => ?_⟩
      · rcases List.mem_append.mp he with he | he
        · exact h.buffered e he
        · exact List.mem_singleton.mp he ▸ hd
      · -- A ready view has a generation, so it does not buffer.
        obtain ⟨-, ⟨s, -, -, -, -, hgen, -⟩, -⟩ := h.ready hr
        rcases hearly with hearly | hearly
        · exact absurd hr hearly
        · rw [hearly] at hgen
          cases hgen
  · next hready =>
    simp only [ne_eq, not_or, not_not] at hready
    obtain ⟨hr, -⟩ := hready
    split
    · exact h.resync
    · next hg =>
      simp only [ne_eq, not_not] at hg
      split
      · exact h
      · obtain ⟨hb, hag, -⟩ := h.ready hr
        rcases applyDelta_cases v d with ⟨-, he⟩ | ⟨c, hq, hc, he⟩ | ⟨c, hq, hc, hsame, he⟩ <;>
          rw [he]
        · exact h.resync
        · exact ⟨h.buffered, fun _ => ⟨hb, hag.next hd hg.symm hq hc rfl rfl, rfl⟩⟩
        · exact h.rejected hs hg.symm fun hp => hsame (hpart hp hr hg.symm hq)

theorem Ok.handleEvent {t : Traced} (h : Ok t.returned t.received t.view) {e : Event}
    (hok : noPartialDelta t (.event e)) :
    Ok t.returned (receivedBy t e) (t.view.handleEvent e) := by
  cases e with
  | resyncRequired id g =>
    simp only [View.State.handleEvent, receivedBy]
    split
    · exact h
    · split
      · exact h.resync
      · exact h
  | delta d =>
    have h' : Ok t.returned (t.received ++ [d]) t.view :=
      h.mono (fun _ => id) fun _ => List.mem_append_left _
    simp only [View.State.handleEvent, receivedBy]
    split
    · exact h'
    · next hs =>
      simp only [not_or, Bool.not_eq_true] at hs
      exact h'.handleDelta hs.1 hok (by simp)

/-- The loop over the early deltas, from contents that agree. -/
theorem ok_applyBuffered {g : Generation} : ∀ {ds : List Delta} {v : View.State},
    v.stopped = false → v.generation = some g → v.bufferedDeltas = [] →
    Agrees R D v v.contents →
    (ds ≠ [] → v.snapshot.status = .ready → v.snapshot.documents = v.contents.currentDocuments) →
    (∀ d ∈ ds, d ∈ D) →
    (v.resyncPromise.isSome → bufferInPart g v.sequence v.contents ds = false) →
    Ok R D (v.applyBuffered ds)
  | [], v, _, _, hb, hag, _, _, _ => by
    refine ⟨?_, fun _ => ⟨hb, hag, rfl⟩⟩
    simp [View.State.applyBuffered, View.State.updateSnapshot, hb]
  | d :: ds, v, hs, hg, hb, hag, hdoc, hD, hpart => by
    have hdoc := hdoc (by simp)
    have hv : Ok R D v := ⟨by simp [hb], fun hr => ⟨hb, hag, hdoc hr⟩⟩
    have hD' : ∀ e ∈ ds, e ∈ D := fun e he => hD e (List.mem_cons_of_mem d he)
    rw [View.State.applyBuffered]
    split
    · next hskip =>
      refine ok_applyBuffered hs hg hb hag (fun _ => hdoc) hD' fun hp => ?_
      have hp' := hpart hp
      rw [bufferInPart, if_pos (by simpa [hg] using hskip)] at hp'
      exact hp'
    · next hskip =>
      have hd : v.generation = some d.generation := by
        simp only [not_or, ne_eq, not_not] at hskip
        exact hskip.1.symm
      have hnext : v.resyncPromise.isSome → d.sequence = v.sequence + 1 →
          (match v.contents.applyInFull d.operations with
            | some c' => bufferInPart g d.sequence c' ds
            | none => v.contents.appliesInPart d.operations) = false := by
        intro hp hq
        have hp' := hpart hp
        rwa [bufferInPart, if_neg (by simpa [hg] using hskip), if_neg (by simp [hq])] at hp'
      rcases applyDelta_cases v d with ⟨-, he⟩ | ⟨c, hq, hc, he⟩ | ⟨c, hq, hc, hsame, he⟩ <;>
        rw [he]
      · dsimp only
        split
        · exact ⟨hv.buffered, hv.ready⟩
        · exact hv.resync
      · refine ok_applyBuffered (v := View.State.updateSnapshot _ _) hs hg hb
          (hag.next (hD d (by simp)) hd hq hc rfl rfl) (fun _ _ => rfl) hD' fun hp => ?_
        have hp' := hnext hp hq
        rw [hc] at hp'
        exact hp'
      · have hc' : v.resyncPromise.isSome → c = v.contents := by
          intro hp
          have hp' := hnext hp hq
          rw [hc] at hp'
          exact hsame hp'
        dsimp only
        split
        · next p hp =>
          rw [hc' (by simp [hp])]
          exact ⟨hv.buffered, hv.ready⟩
        · exact hv.rejected hs hg hc'

theorem Ok.applySnapshot (h : Ok R D v) {s : Snapshot} (hs : s ∈ R)
    (hpart : v.resyncPromise.isSome →
      bufferInPart s.generation s.sequence (.ofSnapshot s) v.bufferedDeltas = false) :
    Ok R D (v.applySnapshot s) := by
  unfold View.State.applySnapshot
  split
  · exact h
  · next hstop =>
    refine ok_applyBuffered (by simpa using hstop) rfl rfl ⟨s, hs, [], by simp [replay]⟩ ?_
      h.buffered hpart
    -- A ready view has no early deltas.
    intro hne hr
    exact absurd (h.ready hr).1 hne

end

theorem ok_respond {t t' : Traced} {id : Nat} {result : Except Text Snapshot}
    (h : Ok t.returned t.received t.view) (hok : noPartialDelta t (.respond id result))
    (hs : step t (.respond id result) = some t') : Ok t'.returned t'.received t'.view := by
  obtain ⟨v, hv, rfl⟩ := Option.map_eq_some_iff.mp hs
  unfold View.State.respond at hv
  split at hv
  · next call hcall =>
    split at hv
    · cases hv
    · cases hv
      have h' : Ok t.returned t.received
        { t.view with calls := t.view.calls.map (Call.answer id) } := ⟨h.buffered, h.ready⟩
      unfold View.State.handleResponse
      cases result with
      | error e =>
        simp only [returnedBy]
        split
        · exact h'
        · exact h'.fail e
      | ok s =>
        simp only [returnedBy, hcall]
        by_cases heq : call.epoch = t.view.connectionEpoch
        · rw [if_pos heq, if_neg (by simpa using heq)]
          exact (h'.mono (fun _ => List.mem_append_left _) fun _ h => h).applySnapshot (by simp) hok
        · rw [if_neg heq, if_pos (by simpa using heq)]
          exact h'
  · cases hv

theorem ok_step {t t' : Traced} {a : Action} (h : Ok t.returned t.received t.view)
    (hok : noPartialDelta t a) (hs : step t a = some t') : Ok t'.returned t'.received t'.view := by
  cases a with
  | start => cases hs; exact h.start
  | resync => cases hs; exact h.resync
  | stop => cases hs; exact h.stop
  | closed => cases hs; exact h.handleClosed
  | event e => cases hs; exact h.handleEvent hok
  | respond id result => exact ok_respond h hok hs
  | settle id =>
    obtain ⟨v, hv, rfl⟩ := Option.map_eq_some_iff.mp hs
    unfold View.State.settle at hv
    split at hv
    · cases hv; exact ⟨h.buffered, h.ready⟩
    · cases hv
  | followUp promise =>
    obtain ⟨v, hv, rfl⟩ := Option.map_eq_some_iff.mp hs
    unfold View.State.followUp at hv
    split at hv
    · cases hv
      exact Ok.resync ⟨h.buffered, h.ready⟩
    · cases hv

/-- **Client trace safety.** In every run in which no delta is applied in part
while a resync is outstanding, a ready view shows a snapshot returned in the
current epoch with the deltas that follow it, in order, once each and in full. -/
theorem client_trace_safety (subscriptionId : SubscriptionId) {t : Traced}
    (h : (machine subscriptionId).Reach noPartialDelta t) : Safe t := by
  have hinit : Ok (machine subscriptionId).init.returned (machine subscriptionId).init.received
      (machine subscriptionId).init.view := ok_of_not_ready (by simp [machine, created])
    (by simp [machine, created])
  have hok : Ok t.returned t.received t.view :=
    h.invariant (fun t => Ok t.returned t.received t.view) hinit fun _ _ _ => ok_step
  intro hr
  obtain ⟨-, hag, hdoc⟩ := hok.ready hr
  exact ⟨t.view.contents, hag, hdoc⟩

instance (t : Traced) : ∀ a, Decidable (noPartialDelta t a)
  | .event (.delta d) => inferInstanceAs (Decidable (t.view.resyncPromise.isSome →
      t.view.snapshot.status = .ready → t.view.generation = some d.generation →
      d.sequence = t.view.sequence + 1 → t.view.contents.appliesInPart d.operations = false))
  | .respond _ (.ok s) => inferInstanceAs (Decidable (t.view.resyncPromise.isSome →
      bufferInPart s.generation s.sequence (.ofSnapshot s) t.view.bufferedDeltas = false))
  | .event (.resyncRequired _ _) | .respond _ (.error _) | .start | .resync | .stop | .closed
  | .settle _ | .followUp _ => isTrue trivial

/-! ### Two runs -/

/-- A document with the given `_id` and no fields. -/
def document (id : String) : ClientDocument := ⟨.str (js id), []⟩

/-- A snapshot of a generation with the document "a". -/
def snapshotA (generation : Generation) : Snapshot := ⟨0, generation, 0, false, [document "a"]⟩

def addC : Delta := ⟨0, 2, 1, [.added (document "c")]⟩

/-- Its first operation is accepted, its second belongs to ordered windows. -/
def mixedDelta : Delta :=
  ⟨0, 2, 1, [.added (document "b"), .windowSplice ⟨count 0, count 0, []⟩]⟩

theorem client_trace_safety_restart : ∃ t, (machine 0).Reach noPartialDelta t ∧
    t.view.snapshot = ⟨.ready, [document "a", document "c"], none⟩ ∧ Safe t := by
  obtain ⟨t, ht, hP⟩ := (machine 0).exists_of_exec noPartialDelta (machine 0).init
    [.start, .respond 0 (.ok (snapshotA 1)), .settle 0, .start, .resync,
      .respond 1 (.ok (snapshotA 2)), .event (.delta addC)]
    (fun t => decide (t.view.snapshot = ⟨.ready, [document "a", document "c"], none⟩)) (by decide)
  exact ⟨t, ht, of_decide_eq_true hP, client_trace_safety 0 ht⟩

/-- With a resync outstanding, a delta that is rejected half way leaves its first
document behind, and the next delta publishes it. -/
theorem partial_delta_is_published : ¬ ∀ t, (machine 0).Reach anyStep t → Safe t := by
  intro h
  obtain ⟨t, ht, hP⟩ := (machine 0).exists_of_exec anyStep (machine 0).init
    [.start, .respond 0 (.ok (snapshotA 1)), .settle 0, .start, .resync,
      .respond 1 (.ok (snapshotA 2)), .event (.delta mixedDelta), .event (.delta addC)]
    (fun t => decide (t.view.snapshot =
        ⟨.ready, [document "a", document "b", document "c"], none⟩ ∧
      t.view.generation = some 2 ∧ t.view.sequence = 1 ∧
      t.returned = [snapshotA 1, snapshotA 2] ∧ t.received = [mixedDelta, addC])) (by decide)
  obtain ⟨hsnap, hgen, hseq, hret, hrec⟩ := of_decide_eq_true hP
  obtain ⟨c, ⟨s, hs, ds, hds, -, hg, hq, hr⟩, hdoc⟩ := h t ht (by rw [hsnap])
  rw [hret] at hs
  rw [hrec] at hds
  obtain rfl : s = snapshotA 2 := by
    rcases List.mem_cons.mp hs with rfl | hs
    · rw [hgen] at hg
      cases hg
    · exact List.mem_singleton.mp hs
  -- One delta leads from the snapshot to the sequence of the view.
  obtain ⟨d, rfl⟩ : ∃ d, ds = [d] := List.length_eq_one_iff.mp (by
    rw [hseq] at hq
    exact (Nat.zero_add _ ▸ hq).symm)
  have hd := (hds d (by simp)).1
  rw [hsnap] at hdoc
  simp only [List.mem_cons, List.not_mem_nil, or_false] at hd
  rcases hd with rfl | rfl
  · have : replay (snapshotA 2) [mixedDelta] = none := by decide
    rw [this] at hr
    cases hr
  · have : (replay (snapshotA 2) [addC]).map Contents.currentDocuments =
        some [document "a", document "c"] := by decide
    rw [hr, Option.map_some, ← hdoc] at this
    revert this
    decide

end TypeFerry.Live.TraceSafety
