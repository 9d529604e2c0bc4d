import TypeFerry.Live.Delivery
import TypeFerry.Live.View

/-! # The delta stream simulates the observer

A client that takes the snapshot of `start` and applies the deltas one after the
other holds, behind each delta, the documents the observer held when it emitted
it. The observer keeps quiet about a document that is equal to the one before,
so the client's copy may lag by a chain of such equalities: the simulation needs
`EJSON.equals` to be transitive on the documents of the run. -/
namespace TypeFerry.Live.Simulation
open TypeFerry.Lib.Numeral TypeFerry.Lib.OrderedMap TypeFerry.Lib.Runs
open TypeFerry.Live.Types TypeFerry.Live.Window TypeFerry.Live.Observer TypeFerry.Live.Delivery
open TypeFerry.Live.View (Contents)

/-! ## The numbers of the deltas -/

/-- The next delta was given, or none. -/
def Emits (cfg : Config) (s t : State) : Prop := said t = said s ∨ ∃ e : Emission,
  t.emissions = s.emissions ++ [e] ∧ t.sequence = s.sequence + 1 ∧
    e.delta.subscriptionId = cfg.subscriptionId ∧ e.delta.generation = cfg.generation ∧
    e.delta.sequence = s.sequence + 1

section
variable {cfg : Config} {s t : State}

theorem emits_emitOperation (emit : Bool) (op : Option Operation) :
    Emits cfg s (s.emitOperation cfg emit op) := by
  cases op with
  | none => exact .inl rfl
  | some op =>
    cases emit with
    | false => exact .inl rfl
    | true => exact .inr ⟨_, rfl, rfl, rfl, rfl, rfl⟩

theorem Emits.behind {u : State} (h : Emits cfg t u) (hs : said t = said s) : Emits cfg s u := by
  obtain ⟨h₁, h₂⟩ := Prod.mk.injEq .. ▸ hs
  unfold Emits at h ⊢
  rw [hs, h₁, h₂] at h
  exact h

theorem emits_removeDocument (emit : Bool) (id : SourceId) (previous : Option ClientDocument) :
    Emits cfg s (s.removeDocument cfg emit id previous) := by
  cases previous with
  | none => exact .inl rfl
  | some p => exact (emits_emitOperation emit _).behind rfl

theorem emits_projectNext (emit : Bool) (current : List ClientDocument) (ds : List Document) :
    Emits cfg s (outcomeState (s.projectNext cfg emit current ds)) := by
  rcases @projectNext_cases cfg s emit current ds with
    ⟨-, -, he⟩ | ⟨op, -, -, -, he⟩ | ⟨d, rest, -, he⟩ | ⟨e, he⟩ <;> rw [he]
  · exact .inl rfl
  · exact (emits_emitOperation emit _).behind rfl
  · exact .inl rfl
  · exact .inl rfl

theorem emits_resumeJob {emit : Bool} {job : Job} {a : Action} {o : Outcome}
    (ho : s.resumeJob cfg emit job a = some o) : Emits cfg s (outcomeState o) := by
  rcases resumeJob_cases ho with ⟨id, prev, -, -, rfl⟩ | ⟨id, prev, d, -, -, -, rfl⟩ |
    ⟨id, prev, d, f, p, -, -, -, rfl⟩ | ⟨ds, -, -, rfl⟩ | ⟨cur, d, rest, f, id, p, -, -, -, -, rfl⟩ |
    ⟨e, rfl⟩
  · exact emits_removeDocument emit id prev
  · exact .inl rfl
  · exact (emits_emitOperation emit _).behind rfl
  · exact emits_projectNext emit [] ds
  · exact (emits_projectNext emit _ rest).behind rfl
  · exact .inl rfl

theorem emits_applyNotice (emit : Bool) (n : Notice) :
    Emits cfg s (outcomeState (s.applyNotice cfg emit n)) := by
  unfold State.applyNotice
  split
  · exact .inl rfl
  · split
    · cases emit <;> exact .inl rfl
    · dsimp only
      split
      · exact .inl rfl
      · split
        · exact emits_removeDocument emit _ _
        · exact .inl rfl

theorem emits_afterJob {o : Outcome} (h : Emits cfg s (outcomeState o)) :
    Emits cfg s (State.afterJob cfg o) := by
  cases o <;> exact h

theorem listen_said (n : Notice) : said (s.listen cfg n) = said s := by
  unfold State.listen
  split
  · split
    · rfl
    · split <;> rfl
  · split
    · exact stop_said _
    · split
      · unfold State.enqueueOrderedRefresh; split <;> rfl
      · rfl

/-- A step gives one delta at most. -/
theorem emits_step {a : Action} (hs : step cfg s a = some t) : Emits cfg s t := by
  cases a with
  | start =>
    simp only [step] at hs
    split at hs <;> cases hs
    exact .inl rfl
  | notice n =>
    simp only [step] at hs
    split at hs <;> cases hs
    exact .inl (listen_said n)
  | stop => cases hs; exact .inl (stop_said s)
  | cleared =>
    simp only [step] at hs
    split at hs <;> cases hs
    exact .inl rfl
  | turn =>
    simp only [step, State.turn] at hs
    split at hs
    · cases hs; exact .inl (starts_drain cfg s _).said
    · split at hs
      · split at hs <;> cases hs
        exact .inl rfl
      · split at hs <;> cases hs
        exact (emits_afterJob (emits_applyNotice true _)).behind rfl
    · cases hs
      cases hst : s.stopped <;> exact .inl rfl
    · split at hs <;> cases hs <;> exact .inl rfl
    · cases hs; exact .inl rfl
    · cases hs
  | read _ | found _ | projected _ | fail _ =>
    rcases resume_cases hs with ⟨ds, -, -, rfl⟩ | ⟨projected, d, rest, fields, -, -, rfl⟩ |
      ⟨e, -, rfl⟩ | ⟨job, rest, o, -, ho, rfl⟩ | ⟨job, o, -, ho, rfl⟩
    · exact .inl (starts_snapshotDocuments cfg s ds).said
    · exact .inl (starts_snapshotProjected cfg s projected d rest fields).said
    · exact .inl rfl
    · exact .inl (by cases o <;> exact resumeJob_silent ho)
    · exact emits_afterJob (emits_resumeJob ho)

/-- The deltas are those of the observer's generation, numbered from one on. -/
structure Numbered (cfg : Config) (s : State) : Prop where
  sequence : s.sequence = s.emissions.length
  each : ∀ n e, s.emissions[n]? = some e → e.delta.subscriptionId = cfg.subscriptionId ∧
    e.delta.generation = cfg.generation ∧ e.delta.sequence = n + 1

theorem numbered_step (h : Numbered cfg s) {a : Action} (hs : step cfg s a = some t) :
    Numbered cfg t := by
  rcases emits_step hs with hsaid | ⟨e, he, hq, h₁, h₂, h₃⟩
  · obtain ⟨he, hq⟩ := Prod.mk.injEq .. ▸ hsaid
    exact ⟨by rw [hq, he, h.sequence], by rw [he]; exact h.each⟩
  · refine ⟨by rw [hq, he, h.sequence, List.length_append, List.length_singleton], fun n x hx => ?_⟩
    rw [he] at hx
    rcases Nat.lt_trichotomy n s.emissions.length with hlt | heq | hgt
    · rw [List.getElem?_append_left hlt] at hx
      exact h.each n x hx
    · rw [heq, List.getElem?_concat_length, Option.some.injEq] at hx
      subst hx
      exact ⟨h₁, h₂, by rw [h₃, h.sequence, heq]⟩
    · rw [List.getElem?_eq_none (by rw [List.length_append, List.length_singleton]; omega)] at hx
      cases hx

theorem numbered_of_reach (h : (machine cfg).Reach anyStep s) : Numbered cfg s :=
  h.invariant (Numbered cfg) ⟨rfl, by simp [machine, init]⟩ fun _ _ _ h _ hs => numbered_step h hs

end

/-! ## The client -/

/-- `applyDelta`, where it succeeds. -/
def applied (v : View.State) (d : Delta) : Option View.State :=
  match v.applyDelta d with
  | (v', true) => some v'
  | (_, false) => none

/-- A new view that takes a snapshot and then deltas. -/
def clientAfter (snapshot : Snapshot) (ds : List Delta) : Option View.State :=
  ds.foldlM applied ((View.created snapshot.subscriptionId).applySnapshot snapshot)

/-- The contents are the documents of an observer: in order in windowed mode,
under the same keys in unordered mode. -/
structure Agrees (windowed : Bool) (c : Contents) (documents : OMap Text ClientDocument)
    (orderedDocuments : List ClientDocument) : Prop where
  mode : c.ordered = windowed
  inOrder : windowed = true → SameWindow c.orderedDocuments orderedDocuments
  byKey : windowed = false → ∀ k, Option.Rel Same (c.documents.get k) (documents.get k)

/-- `EJSON.equals` is transitive on the documents. -/
def TransitiveOn (ds : List ClientDocument) : Prop :=
  ∀ x ∈ ds, ∀ y ∈ ds, ∀ z ∈ ds, x.equals y = true → y.equals z = true → x.equals z = true

/-- Every document of the contents is one of these. -/
def Within (c : Contents) (ds : List ClientDocument) : Prop :=
  (∀ d ∈ c.orderedDocuments, d ∈ ds) ∧ ∀ k d, c.documents.get k = some d → d ∈ ds

/-- The contents follow the observer now. -/
def Follows (cfg : Config) (s : State) (c : Contents) : Prop :=
  Agrees cfg.windowed c s.documents s.orderedDocuments ∧ Within c s.seen

/-- The client follows the observer behind every delta, and now. -/
structure Sim (cfg : Config) (s : State) (snapshot : Snapshot) : Prop where
  sequence : s.sequence = snapshot.sequence + s.emissions.length
  emitted : ∀ n e, s.emissions[n]? = some e → e.delta.sequence = snapshot.sequence + n + 1 ∧
    ∃ v, clientAfter snapshot ((s.emissions.take (n + 1)).map Emission.delta) = some v ∧
      Agrees cfg.windowed v.contents e.documents e.orderedDocuments
  now : ∃ v, clientAfter snapshot (s.emissions.map Emission.delta) = some v ∧
    v.sequence = s.sequence ∧ Follows cfg s v.contents

section
variable {cfg : Config} {s t : State} {snapshot : Snapshot}

theorem applied_of_operation {v : View.State} {d : Delta} {op : Operation} {c : Contents}
    (hq : d.sequence = v.sequence + 1) (hop : d.operations = [op])
    (hc : v.contents.applyOperation op = some c) :
    ∃ v', applied v d = some v' ∧ v'.contents = c ∧ v'.sequence = d.sequence := by
  have hfull : v.contents.applyInFull d.operations = some c := by
    simp [hop, Contents.applyInFull, hc]
  rcases View.applyDelta_cases v d with ⟨hne, -⟩ | ⟨c', -, hc', he⟩ | ⟨c', -, hc', -⟩
  · exact absurd hq hne
  · rw [hfull] at hc'
    cases hc'
    exact ⟨_, by rw [applied, he], rfl, rfl⟩
  · rw [hfull] at hc'
    cases hc'

/-- The observer changes without a word, and the client still follows. -/
theorem Sim.silent (h : Sim cfg s snapshot) (he : t.emissions = s.emissions)
    (hq : t.sequence = s.sequence) (hf : ∀ c, Follows cfg s c → Follows cfg t c) :
    Sim cfg t snapshot := by
  obtain ⟨v, hv, hvq, hvf⟩ := h.now
  refine ⟨by rw [hq, he, h.sequence], by rw [he]; exact h.emitted, v, by rw [he]; exact hv,
    hvq.trans hq.symm, hf _ hvf⟩

/-- The observer emits an operation that leads the client to its new documents. -/
theorem Sim.emit (h : Sim cfg s snapshot) {op : Operation} (he : t.emissions = s.emissions)
    (hq : t.sequence = s.sequence)
    (hf : ∀ c, Follows cfg s c → ∃ c', c.applyOperation op = some c' ∧ Follows cfg t c') :
    Sim cfg (t.onDelta cfg op) snapshot := by
  obtain ⟨v, hv, hvq, hvf⟩ := h.now
  obtain ⟨c, hc, hcf⟩ := hf _ hvf
  obtain ⟨v', hv', hvc, hvs⟩ := @applied_of_operation v
    ⟨cfg.subscriptionId, cfg.generation, t.sequence + 1, [op]⟩ op c (by rw [hvq, hq]) rfl hc
  have hall : clientAfter snapshot ((t.onDelta cfg op).emissions.map Emission.delta) = some v' := by
    rw [clientAfter] at hv ⊢
    simp only [State.onDelta, he, List.map_append, List.foldlM_append, hv]
    simpa using hv'
  refine ⟨?_, fun n e hn => ?_, v', hall, hvs, hvc ▸ hcf⟩
  · simp only [State.onDelta, List.length_append, List.length_singleton, he, hq, h.sequence]
    omega
  · simp only [State.onDelta, he] at hn ⊢
    rcases Nat.lt_or_ge n s.emissions.length with hlt | hge
    · rw [List.getElem?_append_left hlt] at hn
      obtain ⟨h₁, h₂⟩ := h.emitted n e hn
      rw [List.take_append_of_le_length (by omega)]
      exact ⟨h₁, h₂⟩
    · rw [List.getElem?_append_right hge] at hn
      obtain ⟨hn₀, rfl⟩ : n = s.emissions.length ∧ _ = e := by
        rcases Nat.eq_zero_or_pos (n - s.emissions.length) with h₀ | hpos
        · rw [h₀] at hn
          exact ⟨by omega, Option.some.inj hn⟩
        · rw [List.getElem?_eq_none (by rw [List.length_singleton]; omega)] at hn
          cases hn
      subst hn₀
      refine ⟨by simp only; rw [hq, h.sequence], v', ?_, by rw [hvc]; exact hcf.1⟩
      rw [List.take_of_length_le (by simp)]
      simpa [State.onDelta, he] using hall

/-! ## The documents of the observer -/

theorem TransitiveOn.mono {as bs : List ClientDocument} (h : TransitiveOn bs)
    (hsub : ∀ d ∈ as, d ∈ bs) : TransitiveOn as := fun x hx y hy z hz =>
  h x (hsub x hx) y (hsub y hy) z (hsub z hz)

theorem TransitiveOn.same {ds : List ClientDocument} (h : TransitiveOn ds) {x y z : ClientDocument}
    (hx : x ∈ ds) (hy : y ∈ ds) (hz : z ∈ ds) (hxy : Same x y) (hyz : Same y z) : Same x z := by
  rcases hxy with rfl | hxy
  · exact hyz
  · rcases hyz with rfl | hyz
    · exact .inr hxy
    · exact .inr (h x hx y hy z hz hxy hyz)

theorem TransitiveOn.sameWindow {ds : List ClientDocument} (h : TransitiveOn ds) :
    ∀ {as bs cs : List ClientDocument}, (∀ d ∈ as, d ∈ ds) → (∀ d ∈ bs, d ∈ ds) →
      (∀ d ∈ cs, d ∈ ds) → SameWindow as bs → SameWindow bs cs → SameWindow as cs
  | [], [], [], _, _, _, _, _ => .nil
  | a :: as, b :: bs, c :: cs, ha, hb, hc, .cons hab habs, .cons hbc hbcs => by
    simp only [List.mem_cons, forall_eq_or_imp] at ha hb hc
    exact .cons (h.same ha.1 hb.1 hc.1 hab hbc) (h.sameWindow ha.2 hb.2 hc.2 habs hbcs)

/-- Every document of the observer was projected, and is stored under its own key. -/
structure Keyed (s : State) : Prop where
  byKey : ∀ k d, s.documents.get k = some d → d.key = k ∧ d ∈ s.seen
  inOrder : ∀ d ∈ s.orderedDocuments, d ∈ s.seen

/-- A suspended job belongs to its mode, and holds what the observer holds. -/
def JobOk (cfg : Config) (s : State) : Job → Prop
  | .find id previous | .project id previous _ =>
    cfg.windowed = false ∧ previous = s.documents.get (State.idKey cfg id)
  | .read => cfg.windowed = true
  | .projectWindow current _ _ => cfg.windowed = true ∧ ∀ d ∈ current, d ∈ s.seen

/-- A piece of a job: the client follows it, or it is silent. -/
structure Moves (cfg : Config) (emit : Bool) (s t : State) : Prop where
  grows : ∀ d ∈ s.seen, d ∈ t.seen
  keyed : Keyed t
  result : t.result = s.result
  silent : emit = false → t.emissions = s.emissions ∧ t.sequence = s.sequence
  sim : emit = true → TransitiveOn t.seen → ∀ snapshot, Sim cfg s snapshot → Sim cfg t snapshot

theorem Moves.refl (h : Keyed s) (emit : Bool) : Moves cfg emit s s :=
  ⟨fun _ => id, h, rfl, fun _ => ⟨rfl, rfl⟩, fun _ _ _ => id⟩

theorem Sim.congr (h : Sim cfg s snapshot) (he : t.emissions = s.emissions)
    (hq : t.sequence = s.sequence) (hd : t.documents = s.documents)
    (ho : t.orderedDocuments = s.orderedDocuments) (hs : ∀ d ∈ s.seen, d ∈ t.seen) :
    Sim cfg t snapshot := by
  refine h.silent he hq fun c ⟨ha, hw⟩ => ⟨?_, fun d hd => hs d (hw.1 d hd), fun k d hd =>
    hs d (hw.2 k d hd)⟩
  rw [hd, ho]
  exact ha

/-! ### One document -/

/-- The client deletes what the observer deletes. -/
theorem follows_delete (hw : cfg.windowed = false) {c : Contents} (h : Follows cfg s c)
    (k₀ : Text) : Follows cfg { s with documents := s.documents.delete k₀ }
      { c with documents := c.documents.delete k₀ } := by
  obtain ⟨ha, hin, hkey⟩ := h
  refine ⟨⟨ha.mode, by simp [hw], ?_⟩, hin, ?_⟩
  · intro _ k
    rw [OMap.get_delete, OMap.get_delete]
    split
    · exact .none
    · exact ha.byKey hw k
  · intro k d hd
    dsimp only at hd
    rw [OMap.get_delete] at hd
    split at hd
    · cases hd
    · exact hkey k d hd

/-- The client sets what the observer sets. -/
theorem follows_set (hw : cfg.windowed = false) {c : Contents} (h : Follows cfg s c)
    (p : ClientDocument) :
    Follows cfg { s with documents := s.documents.set p.key p, seen := s.seen ++ [p] }
      { c with documents := Contents.setDocument c.documents p } := by
  obtain ⟨ha, hin, hkey⟩ := h
  refine ⟨⟨ha.mode, by simp [hw], ?_⟩, fun d hd => List.mem_append_left _ (hin d hd), ?_⟩
  · intro _ k
    dsimp only
    rw [Contents.setDocument, OMap.get_set, OMap.get_set]
    split
    · exact .some (.inl rfl)
    · exact ha.byKey hw k
  · intro k d hd
    dsimp only [Contents.setDocument] at hd
    rw [OMap.get_set] at hd
    split at hd
    · cases hd; simp
    · exact List.mem_append_left _ (hkey k d hd)

/-- The client need not hear of a document that is equal to the one it follows. -/
theorem follows_equal (hw : cfg.windowed = false) {c : Contents} (h : Follows cfg s c)
    (hs : Keyed s) {p projected : ClientDocument} (hp : s.documents.get projected.key = some p)
    (heq : p.equals projected = true) (ht : TransitiveOn (s.seen ++ [projected])) :
    Follows cfg { s with
      documents := s.documents.set projected.key projected
      seen := s.seen ++ [projected] } c := by
  obtain ⟨ha, hin, hkey⟩ := h
  refine ⟨⟨ha.mode, by simp [hw], ?_⟩, fun d hd => List.mem_append_left _ (hin d hd),
    fun k d hd => List.mem_append_left _ (hkey k d hd)⟩
  intro _ k
  have hk := ha.byKey hw k
  dsimp only
  rw [OMap.get_set]
  split
  · next hkk =>
    subst hkk
    rw [hp] at hk
    cases hc : c.documents.get projected.key with
    | none => rw [hc] at hk; cases hk
    | some x =>
      rw [hc] at hk
      cases hk with
      | some hxp =>
        refine .some (ht.same (List.mem_append_left _ (hkey _ x hc))
          (List.mem_append_left _ (hs.byKey _ p hp).2) (by simp) hxp (.inr heq))
  · exact hk

theorem key_of_projectDocument {id : SourceId} {fields : List (Text × Ejson.Clone.Value)}
    {p : ClientDocument} (h : State.projectDocument cfg id fields = some p) :
    State.idKey cfg id = p.key := by
  unfold State.projectDocument at h
  split at h <;> cases h
  rfl

theorem Keyed.delete (h : Keyed s) (k₀ : Text) :
    Keyed { s with documents := s.documents.delete k₀ } := by
  refine ⟨fun k d hd => ?_, h.inOrder⟩
  dsimp only at hd
  rw [OMap.get_delete] at hd
  split at hd
  · cases hd
  · exact h.byKey k d hd

theorem Keyed.set (h : Keyed s) (p : ClientDocument) : Keyed { s with
    documents := s.documents.set p.key p
    seen := s.seen ++ [p] } := by
  refine ⟨fun k d hd => ?_, fun d hd => List.mem_append_left _ (h.inOrder d hd)⟩
  dsimp only at hd
  rw [OMap.get_set] at hd
  split at hd
  · next hk => cases hd; exact ⟨hk.symm, by simp⟩
  · exact (h.byKey k d hd).imp_right (List.mem_append_left _)

theorem Keyed.onDelta (h : Keyed s) (op : Operation) : Keyed (s.onDelta cfg op) := ⟨h.byKey, h.inOrder⟩

theorem moves_removeDocument (hw : cfg.windowed = false) (h : Keyed s) (emit : Bool) (id : SourceId)
    (previous : Option ClientDocument) : Moves cfg emit s (s.removeDocument cfg emit id previous) := by
  cases previous with
  | none => exact .refl h emit
  | some p =>
    have hk := h.delete (State.idKey cfg id)
    cases emit with
    | false => exact ⟨fun _ hd => hd, hk, rfl, fun _ => ⟨rfl, rfl⟩, by simp⟩
    | true =>
      refine ⟨fun _ hd => hd, hk.onDelta _, rfl, by simp, fun _ _ snapshot hsim => ?_⟩
      refine hsim.emit rfl rfl fun c hc => ⟨_, ?_, follows_delete hw hc (State.idKey cfg id)⟩
      simp [Contents.applyOperation, hc.1.mode, hw, State.idKey]

theorem moves_putDocument (hw : cfg.windowed = false) (h : Keyed s) (emit : Bool) {id : SourceId}
    {p : ClientDocument} (hid : State.idKey cfg id = p.key) {previous : Option ClientDocument}
    (hprev : previous = s.documents.get p.key) :
    Moves cfg emit s (s.putDocument cfg emit id previous p) := by
  have hk := h.set p
  have hsub : ∀ d ∈ s.seen, d ∈ s.seen ++ [p] := fun d => List.mem_append_left _
  rw [State.putDocument, hid]
  cases emit with
  | false =>
    rw [emitOperation_false]
    exact ⟨hsub, hk, rfl, fun _ => ⟨rfl, rfl⟩, by simp⟩
  | true =>
    -- A document that is put with an operation is put by the client as well.
    have hput : ∀ op, (∀ c : Contents, c.ordered = false → c.applyOperation op =
        some { c with documents := Contents.setDocument c.documents p }) →
        Moves cfg true s ({ s with documents := s.documents.set p.key p,
                                   seen := s.seen ++ [p] }.onDelta cfg op) := fun op hop =>
      ⟨hsub, hk.onDelta _, rfl, by simp, fun _ _ snapshot hsim => hsim.emit rfl rfl fun c hc =>
        ⟨_, hop c (hc.1.mode.trans hw), follows_set hw hc p⟩⟩
    cases previous with
    | none => exact hput (.added p) fun c hc => by simp [Contents.applyOperation, hc]
    | some q =>
      by_cases heq : q.equals p = true
      · simp only [State.putOperation, heq, if_true, State.emitOperation]
        exact ⟨hsub, hk, rfl, fun _ => ⟨rfl, rfl⟩, fun _ ht snapshot hsim =>
          hsim.silent rfl rfl fun c hc => follows_equal hw hc h hprev.symm heq ht⟩
      · simp only [State.putOperation, heq, State.emitOperation]
        exact hput (.changed p) fun c hc => by simp [Contents.applyOperation, hc]

/-! ### A window -/

theorem Keyed.window (h : Keyed s) {current : List ClientDocument}
    (hcur : ∀ d ∈ current, d ∈ s.seen) : Keyed { s with orderedDocuments := current } :=
  ⟨h.byKey, hcur⟩

/-- The client need not hear of a window that is the same. -/
theorem follows_sameWindow (hw : cfg.windowed = true) {c : Contents} (h : Follows cfg s c)
    (hs : Keyed s) (ht : TransitiveOn s.seen) {current : List ClientDocument}
    (hcur : ∀ d ∈ current, d ∈ s.seen) (hsame : SameWindow s.orderedDocuments current) :
    Follows cfg { s with orderedDocuments := current } c :=
  ⟨⟨h.1.mode, fun _ => ht.sameWindow h.2.1 hs.inOrder hcur (h.1.inOrder hw) hsame, by simp [hw]⟩,
    h.2⟩

/-- The client's window takes the splice of the observer's. -/
theorem follows_splice (hw : cfg.windowed = true) {c : Contents} (h : Follows cfg s c)
    (hs : Keyed s) (ht : TransitiveOn s.seen) {current : List ClientDocument}
    (hcur : ∀ d ∈ current, d ∈ s.seen) {op : WindowSplice}
    (hop : createSplice s.orderedDocuments current = .ok (some op)) :
    ∃ c', c.applyOperation (.windowSplice op) = some c' ∧
      Follows cfg { s with orderedDocuments := current } c' := by
  obtain ⟨⟨rs, hrs, hsame⟩, hdocs⟩ := createSplice_some hop
  obtain ⟨qs, hqs, hqr⟩ := applySplice_congr (h.1.inOrder hw) hrs
  have hin : ∀ {as bs : List ClientDocument}, (∀ d ∈ as, d ∈ s.seen) →
      applySplice as op = some bs → ∀ d ∈ bs, d ∈ s.seen := fun has hb d hd =>
    (mem_of_applySplice hb hd).elim (has d) fun hd => hcur d (hdocs d hd)
  refine ⟨{ c with orderedDocuments := qs }, ?_, ⟨h.1.mode, fun _ => ?_, by simp [hw]⟩,
    hin h.2.1 hqs, h.2.2⟩
  · simp [Contents.applyOperation, h.1.mode, hw, hqs]
  · exact ht.sameWindow (hin h.2.1 hqs) (hin hs.inOrder hrs) hcur hqr hsame

theorem moves_window (hw : cfg.windowed = true) (h : Keyed s) (emit : Bool)
    {current : List ClientDocument} (hcur : ∀ d ∈ current, d ∈ s.seen) {op : Option WindowSplice}
    (hop : createSplice s.orderedDocuments current = .ok op) :
    Moves cfg emit s ({ s with orderedDocuments := current }.emitOperation cfg emit
      (op.map .windowSplice)) := by
  have hk := h.window hcur
  cases emit with
  | false =>
    rw [emitOperation_false]
    exact ⟨fun _ => id, hk, rfl, fun _ => ⟨rfl, rfl⟩, by simp⟩
  | true =>
    cases op with
    | none =>
      exact ⟨fun _ => id, hk, rfl, fun _ => ⟨rfl, rfl⟩, fun _ ht snapshot hsim =>
        hsim.silent rfl rfl fun c hc =>
          follows_sameWindow hw hc h ht hcur (createSplice_none hop)⟩
    | some op =>
      exact ⟨fun _ => id, hk.onDelta _, rfl, by simp [State.emitOperation], fun _ ht snapshot hsim =>
        hsim.emit rfl rfl fun c hc => follows_splice hw hc h ht hcur hop⟩

/-! ### Jobs -/

/-- What a job leaves behind, and the job that goes on. -/
structure JobMoves (cfg : Config) (emit : Bool) (s : State) (o : Outcome) : Prop where
  moves : Moves cfg emit s (outcomeState o)
  job : ∀ t job, o = .awaiting t job → JobOk cfg t job

theorem jobMoves_projectNext (hw : cfg.windowed = true) (h : Keyed s) (emit : Bool)
    {current : List ClientDocument} (hcur : ∀ d ∈ current, d ∈ s.seen) (ds : List Document) :
    JobMoves cfg emit s (s.projectNext cfg emit current ds) := by
  rcases @projectNext_cases cfg s emit current ds with
    ⟨-, -, he⟩ | ⟨op, -, -, hop, he⟩ | ⟨d, rest, -, he⟩ | ⟨e, he⟩ <;> rw [he]
  · exact ⟨.refl h emit, by simp⟩
  · exact ⟨moves_window hw h emit hcur hop, by simp⟩
  · exact ⟨.refl h emit, by rintro t job ⟨⟩; exact ⟨hw, hcur⟩⟩
  · exact ⟨.refl h emit, by simp⟩

theorem jobMoves_resumeJob (h : Keyed s) {emit : Bool} {job : Job} (hjob : JobOk cfg s job)
    {a : Action} {o : Outcome} (ho : s.resumeJob cfg emit job a = some o) :
    JobMoves cfg emit s o := by
  rcases resumeJob_cases ho with ⟨id, prev, rfl, -, rfl⟩ | ⟨id, prev, d, rfl, -, -, rfl⟩ |
    ⟨id, prev, d, f, p, rfl, -, hp, rfl⟩ | ⟨ds, rfl, -, rfl⟩ |
    ⟨cur, d, rest, f, id, p, rfl, -, -, -, rfl⟩ | ⟨e, rfl⟩
  · exact ⟨moves_removeDocument hjob.1 h emit id prev, by simp⟩
  · exact ⟨.refl h emit, by rintro t job ⟨⟩; exact hjob⟩
  · have hkey := key_of_projectDocument hp
    exact ⟨moves_putDocument hjob.1 h emit hkey (hkey ▸ hjob.2), by simp⟩
  · exact jobMoves_projectNext hjob h emit (by simp) ds
  · have hsub : ∀ d ∈ s.seen, d ∈ s.seen ++ [p] := fun d => List.mem_append_left _
    have hk : Keyed { s with seen := s.seen ++ [p] } :=
      ⟨fun k d hd => (h.byKey k d hd).imp_right (hsub d), fun d hd => hsub d (h.inOrder d hd)⟩
    have hcur : ∀ d ∈ cur ++ [p], d ∈ s.seen ++ [p] := fun d hd =>
      List.mem_append.mpr ((List.mem_append.mp hd).imp_left (hjob.2 d))
    obtain ⟨hm, hnext⟩ := jobMoves_projectNext hjob.1 hk emit hcur rest
    exact ⟨⟨fun d hd => hm.grows d (hsub d hd), hm.keyed, hm.result, hm.silent,
      fun he ht snapshot hsim => hm.sim he ht snapshot (hsim.congr rfl rfl rfl rfl hsub)⟩, hnext⟩
  · exact ⟨.refl h emit, by simp⟩

theorem jobMoves_applyNotice (h : Keyed s) (emit : Bool) (n : Notice) :
    JobMoves cfg emit s (s.applyNotice cfg emit n) := by
  unfold State.applyNotice
  split
  · exact ⟨.refl h emit, by simp⟩
  · split
    · refine ⟨?_, by simp⟩
      cases emit with
      | false => exact .refl h false
      | true =>
        exact ⟨fun _ => id, ⟨h.byKey, h.inOrder⟩, rfl, by simp, fun _ _ snapshot hsim =>
          hsim.congr rfl rfl rfl rfl fun _ => id⟩
    · dsimp only
      split
      · next hw => exact ⟨.refl h emit, by rintro t job ⟨⟩; exact hw⟩
      · next hw =>
        have hw : cfg.windowed = false := by simpa using hw
        split
        · exact ⟨moves_removeDocument hw h emit _ _, by simp⟩
        · exact ⟨.refl h emit, by rintro t job ⟨⟩; exact ⟨hw, rfl⟩⟩

/-! ## The simulation along a run -/

def PcOk (cfg : Config) (s : State) : Prop :=
  match s.pc with
  | .draining job _ | .working job => JobOk cfg s job
  | .snapshotProject projected _ _ => ∀ d ∈ projected, d ∈ s.seen
  | .loopTest => cfg.windowed = true
  | _ => True

/-- Nothing but the documents has changed since the observer was created. -/
structure Built (s : State) : Prop where
  keyed : Keyed s
  result : s.result = none
  emissions : s.emissions = []
  sequence : s.sequence = 0

/-- The client can follow the observer. -/
structure Tracked (cfg : Config) (s : State) : Prop where
  keyed : Keyed s
  pc : PcOk cfg s
  starting : isStart s.pc = true → Built s
  started : isStart s.pc = false → s.result.isSome
  answer : ∀ snapshot, s.result = some snapshot → snapshot.subscriptionId = cfg.subscriptionId ∧
    snapshot.generation = cfg.generation ∧ snapshot.sequence = 0
  sim : TransitiveOn s.seen → ∀ snapshot, s.result = some snapshot → Sim cfg s snapshot

/-- The documents and what was said of them are the same. -/
structure Untouched (s t : State) : Prop where
  documents : t.documents = s.documents
  orderedDocuments : t.orderedDocuments = s.orderedDocuments
  seen : t.seen = s.seen
  result : t.result = s.result
  emissions : t.emissions = s.emissions
  sequence : t.sequence = s.sequence

theorem Keyed.untouched (h : Keyed s) (hu : Untouched s t) : Keyed t := by
  constructor
  · rw [hu.documents, hu.seen]; exact h.byKey
  · rw [hu.orderedDocuments, hu.seen]; exact h.inOrder

theorem Built.untouched (h : Built s) (hu : Untouched s t) : Built t :=
  ⟨h.keyed.untouched hu, hu.result.trans h.result, hu.emissions.trans h.emissions,
    hu.sequence.trans h.sequence⟩

theorem JobOk.untouched (hu : Untouched s t) : ∀ {job : Job}, JobOk cfg s job → JobOk cfg t job
  | .find _ _, h | .project _ _ _, h => ⟨h.1, by rw [hu.documents]; exact h.2⟩
  | .read, h => h
  | .projectWindow _ _ _, h => ⟨h.1, by rw [hu.seen]; exact h.2⟩

theorem PcOk.untouched (hu : Untouched s t) (hpc : t.pc = s.pc) (h : PcOk cfg s) : PcOk cfg t := by
  unfold PcOk at h ⊢
  rw [hpc, hu.seen]
  split <;> first | trivial | exact JobOk.untouched hu (by simp_all) | simp_all

theorem Tracked.untouched (h : Tracked cfg s) (hu : Untouched s t) (hpc : PcOk cfg t)
    (hphase : isStart t.pc = isStart s.pc) : Tracked cfg t := by
  refine ⟨h.keyed.untouched hu, hpc, fun hs => (h.starting (hphase ▸ hs)).untouched hu,
    fun hs => hu.result ▸ h.started (hphase ▸ hs), by rw [hu.result]; exact h.answer,
    fun ht snapshot hr => ?_⟩
  rw [hu.seen] at ht
  exact (h.sim ht snapshot (hu.result ▸ hr)).congr hu.emissions hu.sequence hu.documents
    hu.orderedDocuments (by rw [hu.seen]; exact fun _ => id)

theorem untouched_stop (s : State) : Untouched s s.stop := by
  unfold State.stop
  split <;> exact ⟨rfl, rfl, rfl, rfl, rfl, rfl⟩

theorem untouched_listen (n : Notice) : Untouched s (s.listen cfg n) := by
  unfold State.listen
  split
  · split
    · exact ⟨rfl, rfl, rfl, rfl, rfl, rfl⟩
    · split <;> exact ⟨rfl, rfl, rfl, rfl, rfl, rfl⟩
  · split
    · obtain ⟨h₁, h₂, h₃, h₄, h₅, h₆⟩ := untouched_stop s.onStale
      exact ⟨h₁, h₂, h₃, h₄, h₅, h₆⟩
    · split
      · unfold State.enqueueOrderedRefresh
        split <;> exact ⟨rfl, rfl, rfl, rfl, rfl, rfl⟩
      · exact ⟨rfl, rfl, rfl, rfl, rfl, rfl⟩

/-! ### `start` -/

theorem Built.tracked (h : Built s) (hpc : PcOk cfg s) (hphase : isStart s.pc = true) :
    Tracked cfg s :=
  ⟨h.keyed, hpc, fun _ => h, by simp [hphase], by simp [h.result], by simp [h.result]⟩

theorem Built.failed (h : Built s) (hu : Untouched s t) {e : Text} :
    Tracked cfg { t with pc := .startFailed e } :=
  Built.tracked (h.untouched ⟨hu.1, hu.2, hu.3, hu.4, hu.5, hu.6⟩) trivial rfl

/-- A piece of a job of `start`. -/
theorem Built.afterDrainJob (h : Built s) {o : Outcome} (ho : JobMoves cfg false s o)
    (rest : List Notice) : Tracked cfg (State.afterDrainJob rest o) := by
  obtain ⟨hm, hnext⟩ := ho
  have hb : Built (outcomeState o) := ⟨hm.keyed, hm.result.trans h.result,
    (hm.silent rfl).1.trans h.emissions, (hm.silent rfl).2.trans h.sequence⟩
  have hpc : ∀ pc, Built { outcomeState o with pc := pc } := fun pc =>
    hb.untouched ⟨rfl, rfl, rfl, rfl, rfl, rfl⟩
  cases o with
  | settled t => exact Built.tracked (hpc _) trivial rfl
  | awaiting t job =>
    exact Built.tracked (hpc _) (JobOk.untouched ⟨rfl, rfl, rfl, rfl, rfl, rfl⟩ (hnext t job rfl)) rfl
  | rejected t e => exact Built.tracked (hpc _) trivial rfl

/-- The documents that a client takes from the values of a keyed map. -/
theorem get_ofValues {m : OMap Text ClientDocument} (h : ∀ k d, m.get k = some d → d.key = k)
    (k : Text) : (m.values.foldl Contents.setDocument OMap.empty).get k = m.get k := by
  have hfold : ∀ (es : List (Text × ClientDocument)) (m' : OMap Text ClientDocument),
      (es.map Prod.fst).Nodup → (∀ e ∈ es, e.2.key = e.1) →
      ((es.map Prod.snd).foldl Contents.setDocument m').get k =
        (lookup k es).or (m'.get k) := by
    intro es
    induction es with
    | nil => intro m' _ _; rfl
    | cons e es ih =>
      intro m' hnd hkeys
      obtain ⟨hnot, hnd⟩ := List.nodup_cons.mp hnd
      rw [List.map_cons, List.foldl_cons, ih _ hnd fun e he => hkeys e (List.mem_cons_of_mem _ he),
        Contents.setDocument, OMap.get_set, hkeys e (List.mem_cons_self ..), lookup]
      by_cases hk : e.1 = k
      · have hnone : lookup k es = none := by
          cases hl : lookup k es with
          | none => rfl
          | some d =>
            have := (lookup_eq_some hnd).mp hl
            exact absurd (List.mem_map.mpr ⟨_, this, rfl⟩) (hk ▸ hnot)
        simp [hk, hnone]
      · simp [hk, Ne.symm hk]
  have := hfold m.entries OMap.empty m.nodup fun e he =>
    h e.1 e.2 (OMap.get_eq_some.mpr he)
  rw [OMap.values, this, OMap.get_empty, Option.or_none]
  rfl

/-- The snapshot of `start` gives the client what the observer holds. -/
theorem Built.sim (h : Built s) : Sim cfg s ⟨cfg.subscriptionId, cfg.generation, s.sequence,
    cfg.windowed, if cfg.windowed then s.orderedDocuments else s.documents.values⟩ := by
  refine ⟨by simp [h.emissions], by simp [h.emissions], _, by rw [h.emissions]; rfl, rfl, ?_⟩
  cases hw : cfg.windowed with
  | true =>
    refine ⟨⟨hw.symm, fun _ => SameWindow.refl _, by simp [hw]⟩, h.keyed.inOrder, ?_⟩
    intro k d hd
    cases hd
  | false =>
    have hget : ∀ k, (s.documents.values.foldl Contents.setDocument OMap.empty).get k =
        s.documents.get k := get_ofValues fun k d hd => (h.keyed.byKey k d hd).1
    refine ⟨⟨hw.symm, by simp [hw], fun _ k => ?_⟩, by rintro d ⟨⟩, fun k d hd => ?_⟩
    · refine (hget k).symm ▸ ?_
      cases hk : s.documents.get k with
      | none => exact .none
      | some d => exact .some (.inl rfl)
    · exact (h.keyed.byKey k d (hget k ▸ hd)).2

theorem Built.drain (h : Built s) (rest : List Notice) : Tracked cfg (s.drain cfg rest) := by
  unfold State.drain
  split
  · exact h.failed (untouched_stop s)
  · split
    · refine ⟨⟨h.keyed.byKey, h.keyed.inOrder⟩, trivial, by simp [isStart], by simp, ?_, ?_⟩
      · rintro snapshot ⟨⟩
        exact ⟨rfl, rfl, h.sequence⟩
      rintro - snapshot ⟨⟩
      exact h.sim.congr rfl rfl rfl rfl fun _ => id
    · exact h.afterDrainJob (jobMoves_applyNotice h.keyed false _) _
    · have hb : Built { s with bufferedNotices := [] } := h.untouched ⟨rfl, rfl, rfl, rfl, rfl, rfl⟩
      exact hb.afterDrainJob (jobMoves_applyNotice hb.keyed false _) _

theorem Built.takeSnapshot (h : Built s) {projected : List ClientDocument}
    (hp : ∀ d ∈ projected, d ∈ s.seen) : Built (s.takeSnapshot cfg projected) := by
  unfold State.takeSnapshot
  split
  · exact ⟨h.keyed.window hp, h.result, h.emissions, h.sequence⟩
  · have hfold : ∀ (ds : List ClientDocument) (m : OMap Text ClientDocument),
        (∀ d ∈ ds, d ∈ s.seen) → (∀ k d, m.get k = some d → d.key = k ∧ d ∈ s.seen) →
        ∀ k d, (ds.foldl (fun m d => m.set d.key d) m).get k = some d → d.key = k ∧ d ∈ s.seen := by
      intro ds
      induction ds with
      | nil => intro m _ hm; exact hm
      | cons x ds ih =>
        intro m hds hm
        refine ih _ (fun d hd => hds d (List.mem_cons_of_mem _ hd)) fun k d hd => ?_
        rw [OMap.get_set] at hd
        split at hd
        · next hk => cases hd; exact ⟨hk.symm, hds _ (List.mem_cons_self ..)⟩
        · exact hm k d hd
    exact ⟨⟨hfold projected s.documents hp h.keyed.byKey, h.keyed.inOrder⟩, h.result, h.emissions,
      h.sequence⟩

theorem Built.snapshotNext (h : Built s) {projected : List ClientDocument}
    (hp : ∀ d ∈ projected, d ∈ s.seen) (ds : List Document) :
    Tracked cfg (s.snapshotNext cfg projected ds) := by
  cases ds with
  | nil => exact (h.takeSnapshot hp).drain []
  | cons d rest =>
    simp only [State.snapshotNext]
    split
    · exact Built.tracked (h.untouched ⟨rfl, rfl, rfl, rfl, rfl, rfl⟩) hp rfl
    · exact h.failed ⟨rfl, rfl, rfl, rfl, rfl, rfl⟩

theorem Built.snapshotDocuments (h : Built s) (ds : List Document) :
    Tracked cfg (s.snapshotDocuments cfg ds) := by
  unfold State.snapshotDocuments
  split
  · exact h.failed (untouched_stop s)
  · split
    · exact h.failed (untouched_stop s)
    · exact h.snapshotNext (by simp) ds

theorem Built.snapshotProjected (h : Built s) {projected : List ClientDocument}
    (hp : ∀ d ∈ projected, d ∈ s.seen) (d : Document) (rest : List Document)
    (fields : List (Text × Ejson.Clone.Value)) :
    Tracked cfg (s.snapshotProjected cfg projected d rest fields) := by
  unfold State.snapshotProjected
  split
  · exact h.failed ⟨rfl, rfl, rfl, rfl, rfl, rfl⟩
  · split
    · exact h.failed ⟨rfl, rfl, rfl, rfl, rfl, rfl⟩
    · next p _ =>
      have hsub : ∀ d ∈ s.seen, d ∈ s.seen ++ [p] := fun d => List.mem_append_left _
      have hb : Built { s with seen := s.seen ++ [p] } :=
        ⟨⟨fun k d hd => (h.keyed.byKey k d hd).imp_right (hsub d),
          fun d hd => hsub d (h.keyed.inOrder d hd)⟩, h.result, h.emissions, h.sequence⟩
      dsimp only
      split
      · exact hb.failed (untouched_stop _)
      · refine hb.snapshotNext (fun d hd => ?_) rest
        exact List.mem_append.mpr ((List.mem_append.mp hd).imp_left (hp d))

/-! ### The work queue -/

/-- A piece of the work. -/
theorem Tracked.afterJob (h : Tracked cfg s) (hpc : isStart s.pc = false) {o : Outcome}
    (ho : JobMoves cfg true s o) : Tracked cfg (State.afterJob cfg o) := by
  obtain ⟨hm, hnext⟩ := ho
  have hsome : (outcomeState o).result.isSome := hm.result ▸ h.started hpc
  have hsim : TransitiveOn (outcomeState o).seen → ∀ snapshot,
      (outcomeState o).result = some snapshot → Sim cfg (outcomeState o) snapshot :=
    fun ht snapshot hr => hm.sim rfl ht snapshot
      (h.sim (ht.mono hm.grows) snapshot (hm.result ▸ hr))
  have hall : ∀ pc, isStart pc = false → PcOk cfg { outcomeState o with pc := pc } →
      Tracked cfg { outcomeState o with pc := pc } := fun pc hs hok =>
    ⟨⟨hm.keyed.byKey, hm.keyed.inOrder⟩, hok, by simp [hs], fun _ => hsome, fun snapshot hr =>
      h.answer snapshot (hm.result ▸ hr), fun ht snapshot hr => (hsim ht snapshot hr).congr rfl rfl rfl rfl fun _ => id⟩
  cases o with
  | settled t => cases hw : cfg.windowed <;> exact hall _ (by simp [hw, isStart]) (by simp [hw, PcOk])
  | awaiting t job =>
    exact hall _ rfl (JobOk.untouched ⟨rfl, rfl, rfl, rfl, rfl, rfl⟩ (hnext t job rfl))
  | rejected t e => exact hall _ rfl trivial

theorem tracked_turn (h : Tracked cfg s) (hs : s.turn cfg = some t) : Tracked cfg t := by
  unfold State.turn at hs
  split at hs
  · next rest hpc => cases hs; exact (h.starting (by rw [hpc]; rfl)).drain rest
  · next hpc =>
    have hidle : isStart s.pc = false := by rw [hpc]; rfl
    split at hs
    · next hw =>
      split at hs <;> cases hs
      exact h.untouched ⟨rfl, rfl, rfl, rfl, rfl, rfl⟩ hw (by rw [hidle]; rfl)
    · split at hs <;> cases hs
      next n queue _ =>
      have hq : Tracked cfg { s with queue := queue } :=
        h.untouched ⟨rfl, rfl, rfl, rfl, rfl, rfl⟩ (h.pc.untouched ⟨rfl, rfl, rfl, rfl, rfl, rfl⟩ rfl)
          rfl
      exact hq.afterJob hidle (jobMoves_applyNotice hq.keyed true n)
  · next hpc =>
    have hthrew : isStart s.pc = false := by rw [hpc]; rfl
    cases hs
    refine h.untouched ?_ ?_ ?_ <;> cases hst : s.stopped <;> cases hw : cfg.windowed <;>
      first | exact ⟨rfl, rfl, rfl, rfl, rfl, rfl⟩ | trivial | exact hthrew.symm
  · next hpc =>
    have hloop : isStart s.pc = false := by rw [hpc]; rfl
    split at hs <;> cases hs
    · have hw : cfg.windowed = true := by simpa [PcOk, hpc] using h.pc
      exact h.untouched ⟨rfl, rfl, rfl, rfl, rfl, rfl⟩ hw hloop.symm
    · exact h.untouched ⟨rfl, rfl, rfl, rfl, rfl, rfl⟩ trivial hloop.symm
  · next hpc =>
    have hexit : isStart s.pc = false := by rw [hpc]; rfl
    cases hs
    exact h.untouched ⟨rfl, rfl, rfl, rfl, rfl, rfl⟩ trivial hexit.symm
  · cases hs

theorem tracked_resume (h : Tracked cfg s) {a : Action} (hs : resume cfg s a = some t) :
    Tracked cfg t := by
  have hok := h.pc
  rcases resume_cases hs with ⟨ds, hpc, -, rfl⟩ | ⟨projected, d, rest, fields, hpc, -, rfl⟩ |
    ⟨e, hpc, rfl⟩ | ⟨job, rest, o, hpc, ho, rfl⟩ | ⟨job, o, hpc, ho, rfl⟩
  · exact (h.starting (by rw [hpc]; rfl)).snapshotDocuments ds
  · rw [PcOk, hpc] at hok
    exact (h.starting (by rw [hpc]; rfl)).snapshotProjected hok d rest fields
  · refine (h.starting ?_).failed ⟨rfl, rfl, rfl, rfl, rfl, rfl⟩
    rcases hpc with hpc | ⟨_, _, _, hpc⟩ <;> rw [hpc] <;> rfl
  · rw [PcOk, hpc] at hok
    exact (h.starting (by rw [hpc]; rfl)).afterDrainJob (jobMoves_resumeJob h.keyed hok ho) rest
  · rw [PcOk, hpc] at hok
    exact h.afterJob (by rw [hpc]; rfl) (jobMoves_resumeJob h.keyed hok ho)

theorem tracked_step (h : Tracked cfg s) {a : Action} (hs : step cfg s a = some t) :
    Tracked cfg t := by
  cases a with
  | start =>
    simp only [step] at hs
    split at hs <;> cases hs
    next hpc => exact h.untouched ⟨rfl, rfl, rfl, rfl, rfl, rfl⟩ trivial (by rw [hpc]; rfl)
  | notice n =>
    simp only [step] at hs
    split at hs <;> cases hs
    have hpc := (@listen_control cfg s n).1
    exact h.untouched (untouched_listen n) (h.pc.untouched (untouched_listen n) hpc) (by rw [hpc])
  | stop =>
    cases hs
    exact h.untouched (untouched_stop s) (h.pc.untouched (untouched_stop s) (stop_pc s))
      (by rw [stop_pc])
  | cleared =>
    simp only [step] at hs
    split at hs <;> cases hs
    exact h.untouched ⟨rfl, rfl, rfl, rfl, rfl, rfl⟩
      (h.pc.untouched ⟨rfl, rfl, rfl, rfl, rfl, rfl⟩ rfl) rfl
  | turn => exact tracked_turn h hs
  | read _ | found _ | projected _ | fail _ => exact tracked_resume h hs

end

theorem tracked_of_reach {cfg : Config} {s : State} (h : (machine cfg).Reach anyStep s) :
    Tracked cfg s := by
  refine h.invariant (Tracked cfg) ?_ fun _ _ _ ht _ hs => tracked_step ht hs
  exact Built.tracked ⟨⟨by simp [machine, init], by simp [machine, init]⟩, rfl, rfl, rfl⟩ trivial rfl

/-- **The delta stream simulates the observer.** In every run on whose documents
`EJSON.equals` is transitive, the deltas are numbered on from the snapshot of
`start`, and a client that takes the snapshot and the deltas up to any one of
them holds what the observer held when it emitted that one. -/
theorem delta_stream_simulates {cfg : Config} {s : State} (h : (machine cfg).Reach anyStep s)
    (ht : TransitiveOn s.seen) {n : ℕ} {e : Emission} (he : s.emissions[n]? = some e) :
    ∃ snapshot, s.result = some snapshot ∧ e.delta.sequence = snapshot.sequence + n + 1 ∧
      ∃ v, clientAfter snapshot ((s.emissions.take (n + 1)).map Emission.delta) = some v ∧
        Agrees cfg.windowed v.contents e.documents e.orderedDocuments := by
  have htracked := tracked_of_reach h
  cases hr : s.result with
  | some snapshot => exact ⟨snapshot, rfl, (htracked.sim ht snapshot hr).emitted n e he⟩
  | none =>
    -- Nothing is emitted before `start` has resolved.
    cases hpc : isStart s.pc with
    | true => simp [(htracked.starting hpc).emissions] at he
    | false => simpa [hr] using htracked.started hpc

/-! ### Two runs -/

instance (ds : List ClientDocument) : Decidable (TransitiveOn ds) :=
  inferInstanceAs (Decidable (∀ x ∈ ds, ∀ y ∈ ds, ∀ z ∈ ds, x.equals y = true → y.equals z = true →
    x.equals z = true))

/-- The fields of a projection: a value under "x". -/
def x (v : Ejson.Clone.Value) : List (Text × Ejson.Clone.Value) := [(js "x", v)]

/-- The document with the `_id` "a" changes, and its projection is `v`. -/
def changeA (v : Ejson.Clone.Value) : List Action :=
  [.notice noticeA, .turn, .found (some storedA), .projected (x v)]

/-- The document with the `_id` "b" appears. -/
def addB : List Action :=
  [.notice (.change 9 (.str (js "b")) false), .turn, .found (some ⟨.live (.str (js "b")), []⟩),
    .projected []]

theorem delta_stream_simulates_changed : ∃ s snapshot e, (machine unordered).Reach anyStep s ∧
    TransitiveOn s.seen ∧ s.result = some snapshot ∧ s.emissions[1]? = some e ∧
    e.delta.sequence = snapshot.sequence + 2 ∧
    ∃ v, clientAfter snapshot ((s.emissions.take 2).map Emission.delta) = some v ∧
      Agrees false v.contents e.documents e.orderedDocuments := by
  obtain ⟨s, hs, hP⟩ := (machine unordered).exists_of_exec anyStep init
    ([.start, .read [storedA], .projected (x .null)] ++ changeA .null ++ changeA (.bool true) ++ addB)
    (fun s => decide (TransitiveOn s.seen) && (s.emissions[1]?).isSome) (by decide)
  simp only [Bool.and_eq_true, decide_eq_true_eq, Option.isSome_iff_exists] at hP
  obtain ⟨ht, e, he⟩ := hP
  obtain ⟨snapshot, hr, hq, hv⟩ := delta_stream_simulates hs ht he
  exact ⟨s, snapshot, e, hs, ht, hr, he, hq, hv⟩

/-- A date, a plain object and another date follow each other in one field. Each
is equal to the one before, so the client keeps the first date. -/
theorem equal_changes_drift : ¬ ∀ (cfg : Config) (s : State) (n : ℕ) (e : Emission),
    cfg.typedObjectIds = true → (machine cfg).Reach anyStep s → s.emissions[n]? = some e →
    ∃ snapshot, s.result = some snapshot ∧ e.delta.sequence = snapshot.sequence + n + 1 ∧
      ∃ v, clientAfter snapshot ((s.emissions.take (n + 1)).map Emission.delta) = some v ∧
        Agrees cfg.windowed v.contents e.documents e.orderedDocuments := by
  intro h
  obtain ⟨s, hs, hP⟩ := (machine unordered).exists_of_exec anyStep init
    ([.start, .read [storedA], .projected (x (.date (some 1)))] ++ changeA (.obj []) ++
      changeA (.date (some 2)) ++ addB)
    (fun s => (s.emissions[0]?).any fun e => s.result.any fun snapshot =>
      (clientAfter snapshot ((s.emissions.take 1).map Emission.delta)).any fun v =>
        (v.contents.documents.get (js "\"a\"")).any fun a =>
          (e.documents.get (js "\"a\"")).any fun b => !decide (Same a b)) (by decide)
  simp only [Option.any_eq_true] at hP
  obtain ⟨e, he, snapshot, hr, v, hv, a, ha, b, hb, hab⟩ := hP
  obtain ⟨snapshot', hr', -, v', hv', hagrees⟩ := h unordered s 0 e rfl hs he
  rw [hr, Option.some.injEq] at hr'
  subst hr'
  rw [hv, Option.some.injEq] at hv'
  subst hv'
  have hrel := hagrees.byKey rfl (js "\"a\"")
  rw [ha, hb] at hrel
  cases hrel with
  | some hsame => simp [hsame] at hab

end TypeFerry.Live.Simulation
