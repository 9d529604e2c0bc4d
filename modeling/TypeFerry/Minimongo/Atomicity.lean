import TypeFerry.Minimongo.Modifier

/-! # When a call is atomic

A call that throws should leave the collection as it was, and one that returns
should account for every change by one event. Both fail in two places only: an
update of many documents writes each one before it looks at the next, and the
observers run after the store was written. -/
namespace TypeFerry.Minimongo.Atomicity
open TypeFerry.Lib.Numeral TypeFerry.Lib.OrderedMap TypeFerry.Ejson.Clone
open TypeFerry.Minimongo.Values TypeFerry.Minimongo.Matcher TypeFerry.Minimongo.Collection
open TypeFerry.Minimongo.Modifier

section
variable {D ι S M : Type} [DecidableEq ι] {rt : LocalStoreRuntime D ι S M}
variable {observers : List (OMap ι D → Except Text Unit)} {store : OMap ι D}

/-! ## What is promised -/

/-- The id of the document that an event is about. -/
def eventId (rt : LocalStoreRuntime D ι S M) : Event D → ι
  | .insert document => rt.idOf document
  | .update previous _ => rt.idOf previous
  | .remove document => rt.idOf document

/-- An event says what its id held before and what it holds now. -/
def Describes (rt : LocalStoreRuntime D ι S M) (before after : OMap ι D) : Event D → Prop
  | .insert document =>
    before.get (rt.idOf document) = none ∧ after.get (rt.idOf document) = some document
  | .update previous document =>
    before.get (rt.idOf previous) = some previous ∧ after.get (rt.idOf previous) = some document
  | .remove document =>
    before.get (rt.idOf document) = some document ∧ after.get (rt.idOf document) = none

/-- `n` documents were affected, and one event for each of them says how; all else is as it
was, in its order. -/
structure Accounted (rt : LocalStoreRuntime D ι S M) (before after : OMap ι D) (events : List (Event D))
    (n : ℕ) : Prop where
  count : events.length = n
  once : (events.map (eventId rt)).Nodup
  exact : ∀ event ∈ events, Describes rt before after event
  others : after.entries.filter (fun e => e.1 ∉ events.map (eventId rt)) =
    before.entries.filter fun e => e.1 ∉ events.map (eventId rt)

/-- A call that threw did nothing, and one that returned accounts for what it did. -/
structure Atomic (rt : LocalStoreRuntime D ι S M) (before : OMap ι D) (o : Outcome D ι ℕ) : Prop where
  thrown : ∀ e, o.result = .error e → o.store = before ∧ o.events = [] ∧ o.notified = 0
  returned : ∀ n, o.result = .ok n → Accounted rt before o.store o.events n

/-- Every document is stored under its own id. -/
def Keyed (rt : LocalStoreRuntime D ι S M) (store : OMap ι D) : Prop :=
  ∀ e ∈ store.entries, rt.idOf e.2 = e.1

/-- None of the observers throws when it looks at the store. -/
def Observed (observers : List (OMap ι D → Except Text Unit)) (store : OMap ι D) : Prop :=
  ∀ observer ∈ observers, observer store = .ok ()

/-! ## The documents of a call -/

/-- The documents an update goes through, with what it makes of them. -/
structure Modifies (rt : LocalStoreRuntime D ι S M) (selector : S) (modifier : M) (documents : List D)
    (us : List (D × D)) : Prop where
  previous : us.map Prod.fst = documents
  each : ∀ u ∈ us, modified rt selector modifier u.1 = .ok u.2

/-- The store with the new documents in the places of the previous ones. -/
def written (rt : LocalStoreRuntime D ι S M) (store : OMap ι D) (us : List (D × D)) : OMap ι D :=
  store.setAll (us.map fun u => (rt.idOf u.1, u.2))

/-- The documents that an update writes if nothing fails. -/
def targets (multi : Bool) (documents : List D) : List D := if multi then documents else documents.take 1

/-- One of the documents fails behind one that was changed. -/
def FailsLate (rt : LocalStoreRuntime D ι S M) (store : OMap ι D) (selector : S) (modifier : M) : Prop :=
  ∃ earlier document rest, matchedDocuments rt store selector = .ok (earlier ++ document :: rest) ∧
    (∀ d ∈ earlier, ∃ d', modified rt selector modifier d = .ok d') ∧
    (∃ d ∈ earlier, modified rt selector modifier d ≠ .ok d) ∧
    ∃ e, modified rt selector modifier document = .error e

/-- The store that a call leaves when nothing fails and it has something to announce. -/
inductive Leaves (rt : LocalStoreRuntime D ι S M) (store : OMap ι D) : Call D S M → OMap ι D → Prop where
  | insert {randomId : Text} {document stored : D}
      (h : prepareInsert rt store randomId (rt.clone document) = .ok stored) :
      Leaves rt store (.insert randomId document) (store.set (rt.idOf stored) stored)
  | remove {selector : S} {documents : List D} (h : matchedDocuments rt store selector = .ok documents) :
      Leaves rt store (.remove selector) (store.deleteAll (documents.map rt.idOf))
  | update {selector : S} {modifier : M} {multi : Bool} {documents : List D} {us : List (D × D)}
      (h : matchedDocuments rt store selector = .ok documents) (hne : documents ≠ [])
      (hus : Modifies rt selector modifier (targets multi documents) us) :
      Leaves rt store (.update selector modifier multi) (written rt store us)
  | upsertUpdate {randomId : Text} {selector : S} {modifier : M} {multi : Bool}
      {insertedId : Option Text} {store' : OMap ι D}
      (h : Leaves rt store (.update selector modifier multi) store') :
      Leaves rt store (.upsert randomId selector modifier multi insertedId) store'
  | upsertInsert {randomId : Text} {selector : S} {modifier : M} {multi : Bool}
      {insertedId : Option Text} {document stored : D} (h : matchedDocuments rt store selector = .ok [])
      (hcreate : rt.createUpsert selector modifier = .ok document)
      (hprepare : prepareInsert rt store randomId
        (insertedId.elim document fun id => rt.giveId id document) = .ok stored) :
      Leaves rt store (.upsert randomId selector modifier multi insertedId)
        (store.set (rt.idOf stored) stored)

/-- The calls that fail behind a write of their own. -/
def CallFailsLate (rt : LocalStoreRuntime D ι S M) (store : OMap ι D) : Call D S M → Prop
  | .update selector modifier multi | .upsert _ selector modifier multi _ =>
    multi = true ∧ FailsLate rt store selector modifier
  | _ => False

/-! ## Observers -/

omit [DecidableEq ι] in
theorem notifyObservers_of_observed : ∀ {observers : List (OMap ι D → Except Text Unit)},
    Observed observers store → (notifyObservers observers store).2 = .ok ()
  | [], _ => rfl
  | observer :: rest, h => by
    rw [notifyObservers, h observer List.mem_cons_self]
    exact notifyObservers_of_observed fun o ho => h o (List.mem_cons_of_mem _ ho)

omit [DecidableEq ι] in
/-- Who throws was called. -/
theorem notifyObservers_of_not_observed : ∀ {observers : List (OMap ι D → Except Text Unit)},
    ¬Observed observers store →
      (∃ e, (notifyObservers observers store).2 = .error e) ∧ 0 < (notifyObservers observers store).1
  | [], h => absurd (by intro o ho; cases ho) h
  | observer :: rest, h => by
    rw [notifyObservers]
    cases ho : observer store with
    | error e => exact ⟨⟨e, rfl⟩, Nat.one_pos⟩
    | ok u =>
      have hrest : ¬Observed rest store := by
        intro hrest
        refine h fun o hmem => ?_
        rcases List.mem_cons.mp hmem with heq | hmem
        · rw [heq, ho]
        · exact hrest o hmem
      exact ⟨(notifyObservers_of_not_observed hrest).1, Nat.succ_pos _⟩

/-- **A call that announces its events is atomic exactly when its observers do not throw**,
if its events account for what it wrote. -/
theorem announce_atomic_iff {before after : OMap ι D} {events : List (Event D)} {n : ℕ}
    (h : Accounted rt before after events n) :
    Atomic rt before (announce observers after events n) ↔ Observed observers after := by
  constructor
  · intro hatomic
    by_contra hobs
    obtain ⟨⟨e, he⟩, hpos⟩ := notifyObservers_of_not_observed hobs
    obtain ⟨-, -, hzero⟩ := hatomic.thrown e (by rw [announce, he]; rfl)
    exact hpos.ne' hzero
  · intro hobs
    refine ⟨fun e he => ?_, fun m hm => ?_⟩
    · rw [announce, notifyObservers_of_observed hobs] at he
      cases he
    · rw [announce, notifyObservers_of_observed hobs] at hm
      cases hm
      exact h

/-! ## The documents of a keyed store -/

theorem filterDocuments_sublist {documentMatches : D → Except Text MatchResult} :
    ∀ {documents selected : List D}, filterDocuments documentMatches documents = .ok selected →
      selected.Sublist documents
  | [], selected, h => by
    cases h
    exact List.Sublist.slnil
  | d :: rest, selected, h => by
    obtain ⟨r, -, h⟩ := bind_eq_ok h
    obtain ⟨others, hothers, h⟩ := bind_eq_ok h
    cases h
    split
    · exact (filterDocuments_sublist hothers).cons_cons d
    · exact (filterDocuments_sublist hothers).cons d

omit [DecidableEq ι] in
theorem matchedDocuments_sublist {selector : S} {documents : List D}
    (h : matchedDocuments rt store selector = .ok documents) : documents.Sublist store.values := by
  obtain ⟨m, -, h⟩ := bind_eq_ok h
  exact filterDocuments_sublist h

omit [DecidableEq ι] in
theorem Keyed.ids (h : Keyed rt store) : store.values.map rt.idOf = store.entries.map Prod.fst := by
  rw [OMap.values, List.map_map]
  exact List.map_congr_left fun e he => h e he

theorem Keyed.get (h : Keyed rt store) {d : D} (hd : d ∈ store.values) :
    store.get (rt.idOf d) = some d := by
  obtain ⟨e, he, rfl⟩ := List.mem_map.mp hd
  rw [h e he]
  exact OMap.get_eq_some.mpr he

omit [DecidableEq ι] in
theorem Keyed.nodup (h : Keyed rt store) {ds : List D} (hds : ds.Sublist store.values) :
    (ds.map rt.idOf).Nodup := by
  have hall : (store.values.map rt.idOf).Nodup := by
    rw [h.ids]
    exact store.nodup
  exact (hds.map rt.idOf).nodup hall

/-! ## What the loop of an update writes -/

theorem written_append (us : List (D × D)) (previous document : D) :
    written rt store (us ++ [(previous, document)]) =
      (written rt store us).set (rt.idOf previous) document := by
  simp [written, OMap.setAll, List.foldl_append]

omit [DecidableEq ι] in
theorem Modifies.append {selector : S} {modifier : M} {documents : List D} {us : List (D × D)} {d d' : D}
    (h : Modifies rt selector modifier documents us) (hd : modified rt selector modifier d = .ok d') :
    Modifies rt selector modifier (documents ++ [d]) (us ++ [(d, d')]) := by
  refine ⟨by rw [List.map_append, h.previous]; rfl, fun u hu => ?_⟩
  rcases List.mem_append.mp hu with hu | hu
  · exact h.each u hu
  · rw [List.mem_singleton.mp hu]
    exact hd

/-- The loop over many documents: it gets through, or it stops at one with what came
before it written. -/
theorem updateLoop_multi (store : OMap ι D) {selector : S} {modifier : M} : ∀ (documents : List D) {seen : List D}
    {us : List (D × D)}, Modifies rt selector modifier seen us →
    (∃ us', Modifies rt selector modifier (seen ++ documents) us' ∧
      updateLoop rt selector modifier true documents (written rt store us) us =
        (written rt store us', us', none)) ∨
    ∃ earlier d rest us' e, documents = earlier ++ d :: rest ∧
      Modifies rt selector modifier (seen ++ earlier) us' ∧ modified rt selector modifier d = .error e ∧
      updateLoop rt selector modifier true documents (written rt store us) us =
        (written rt store us', us', some e)
  | [], seen, us, h => .inl ⟨us, by rwa [List.append_nil], rfl⟩
  | d :: rest, seen, us, h => by
    rw [updateLoop]
    cases hd : modified rt selector modifier d with
    | error e =>
      refine .inr ⟨[], d, rest, us, e, rfl, by rwa [List.append_nil], hd, rfl⟩
    | ok d' =>
      dsimp only
      rw [if_pos rfl, ← written_append]
      rcases updateLoop_multi store rest (h.append hd) with ⟨us', hus', hloop⟩ |
        ⟨earlier, x, others, us', e, hrest, hus', hx, hloop⟩
      · rw [List.append_assoc] at hus'
        exact .inl ⟨us', hus', hloop⟩
      · rw [List.append_assoc] at hus'
        exact .inr ⟨d :: earlier, x, others, us', e, by rw [hrest]; rfl, hus', hx, hloop⟩

/-- The documents of an update account for what it wrote. -/
theorem written_accounted (hkeyed : Keyed rt store) {selector : S} {modifier : M} {documents : List D}
    {us : List (D × D)} (hsub : documents.Sublist store.values)
    (h : Modifies rt selector modifier documents us) :
    Accounted rt store (written rt store us) (us.map fun u => .update u.1 u.2) us.length := by
  have hids : (us.map fun u => Event.update u.1 u.2).map (eventId rt) = documents.map rt.idOf := by
    rw [← h.previous, List.map_map, List.map_map]
    rfl
  have hkeys : (us.map fun u => (rt.idOf u.1, u.2)).map Prod.fst = documents.map rt.idOf := by
    rw [← h.previous, List.map_map, List.map_map]
    rfl
  have hnodup := hkeyed.nodup hsub
  refine ⟨List.length_map _, hids ▸ hnodup, fun event hevent => ?_, ?_⟩
  · obtain ⟨u, hu, rfl⟩ := List.mem_map.mp hevent
    have hd : u.1 ∈ documents := h.previous ▸ List.mem_map_of_mem hu
    refine ⟨hkeyed.get (hsub.subset hd), ?_⟩
    exact OMap.get_setAll_of_mem _ (hkeys ▸ hnodup) (List.mem_map_of_mem hu)
  · rw [hids, ← hkeys]
    exact OMap.filter_keys_setAll _ fun u hu => List.mem_map_of_mem hu

/-- An update that changes a document leaves another store. -/
theorem written_ne (hkeyed : Keyed rt store) {selector : S} {modifier : M} {documents : List D}
    {us : List (D × D)} (hsub : documents.Sublist store.values)
    (h : Modifies rt selector modifier documents us) {d : D} (hd : d ∈ documents)
    (hchanged : modified rt selector modifier d ≠ .ok d) : written rt store us ≠ store := by
  intro heq
  have haccounted := written_accounted hkeyed hsub h
  rw [← h.previous] at hd
  obtain ⟨u, hu, rfl⟩ := List.mem_map.mp hd
  have hafter := (haccounted.exact _ (List.mem_map_of_mem hu)).2
  rw [heq, hkeyed.get (hsub.subset (h.previous ▸ List.mem_map_of_mem hu))] at hafter
  exact hchanged (by rw [h.each u hu, Option.some.inj hafter])

/-- Writing back what was there changes nothing. -/
theorem written_eq (hkeyed : Keyed rt store) {us : List (D × D)}
    (hsub : (us.map Prod.fst).Sublist store.values) (hsame : ∀ u ∈ us, u.2 = u.1) :
    written rt store us = store := by
  have hset : ∀ (vs : List (D × D)), (∀ u ∈ vs, u.2 = u.1 ∧ u.1 ∈ store.values) →
      store.setAll (vs.map fun u => (rt.idOf u.1, u.2)) = store := by
    intro vs hvs
    induction vs with
    | nil => rfl
    | cons u vs ih =>
      obtain ⟨hu, hmem⟩ := hvs u List.mem_cons_self
      rw [List.map_cons, OMap.setAll, List.foldl_cons, hu, OMap.set_self (hkeyed.get hmem)]
      exact ih fun v hv => hvs v (List.mem_cons_of_mem _ hv)
  exact hset us fun u hu => ⟨hsame u hu, hsub.subset (List.mem_map_of_mem hu)⟩

/-! ## One call -/

theorem unchanged_accounted : Accounted rt store store [] 0 :=
  ⟨rfl, List.nodup_nil, fun _ h => absurd h List.not_mem_nil, rfl⟩

/-- Nothing was done, and an error was thrown. -/
theorem refused_atomic (e : Text) : Atomic rt store ⟨store, [], 0, .error e⟩ :=
  ⟨fun _ _ => ⟨rfl, rfl, rfl⟩, fun _ h => by cases h⟩

theorem inserted_accounted {randomId : Text} {document stored : D}
    (h : prepareInsert rt store randomId document = .ok stored) :
    Accounted rt store (store.set (rt.idOf stored) stored) [.insert stored] 1 := by
  obtain ⟨d, -, h⟩ := bind_eq_ok h
  split at h
  · cases h
  · next hfree =>
    cases h
    refine ⟨rfl, List.nodup_singleton _, fun event hevent => ?_, ?_⟩
    · rw [List.mem_singleton.mp hevent]
      exact ⟨Option.not_isSome_iff_eq_none.mp hfree, OMap.get_set_self _ _ _⟩
    · exact OMap.filter_keys_set (List.mem_singleton_self _) _ _

theorem removed_accounted (hkeyed : Keyed rt store) {documents : List D}
    (hsub : documents.Sublist store.values) :
    Accounted rt store (store.deleteAll (documents.map rt.idOf)) (documents.map .remove)
      documents.length := by
  have hids : (documents.map Event.remove).map (eventId rt) = documents.map rt.idOf := by
    rw [List.map_map]
    rfl
  refine ⟨List.length_map _, hids ▸ hkeyed.nodup hsub, fun event hevent => ?_, ?_⟩
  · obtain ⟨d, hd, rfl⟩ := List.mem_map.mp hevent
    refine ⟨hkeyed.get (hsub.subset hd), ?_⟩
    rw [OMap.get_deleteAll, if_pos (List.mem_map_of_mem hd)]
  · rw [hids]
    exact OMap.filter_keys_deleteAll _ fun k hk => hk

/-- What an update does: it is refused, it fails with what came before written, it has
nothing to do, or it gets through. -/
inductive Updates (rt : LocalStoreRuntime D ι S M) (observers : List (OMap ι D → Except Text Unit))
    (store : OMap ι D) (selector : S) (modifier : M) (multi : Bool) : Outcome D ι ℕ → Prop where
  | refused {e : Text} (h : matchedDocuments rt store selector = .error e) :
      Updates rt observers store selector modifier multi ⟨store, [], 0, .error e⟩
  | failed {earlier rest : List D} {d : D} {us : List (D × D)} {e : Text}
      (h : matchedDocuments rt store selector = .ok (earlier ++ d :: rest))
      (hmulti : multi = true ∨ earlier = []) (hus : Modifies rt selector modifier earlier us)
      (hd : modified rt selector modifier d = .error e) :
      Updates rt observers store selector modifier multi ⟨written rt store us, [], 0, .error e⟩
  | idle (h : matchedDocuments rt store selector = .ok []) :
      Updates rt observers store selector modifier multi ⟨store, [], 0, .ok 0⟩
  | through {documents : List D} {us : List (D × D)}
      (h : matchedDocuments rt store selector = .ok documents) (hne : documents ≠ [])
      (hus : Modifies rt selector modifier (targets multi documents) us) :
      Updates rt observers store selector modifier multi (announce observers (written rt store us)
        (us.map fun u => .update u.1 u.2) us.length)

omit [DecidableEq ι] in
theorem Modifies.nil (rt : LocalStoreRuntime D ι S M) (selector : S) (modifier : M) :
    Modifies rt selector modifier [] [] := ⟨rfl, fun _ h => by cases h⟩

theorem update_updates (rt : LocalStoreRuntime D ι S M)
    (observers : List (OMap ι D → Except Text Unit)) (store : OMap ι D)
    (selector : S) (modifier : M) (multi : Bool) :
    Updates rt observers store selector modifier multi
      (update rt observers store selector modifier multi) := by
  unfold update
  cases h : matchedDocuments rt store selector with
  | error e => exact .refused h
  | ok documents =>
    dsimp only
    cases documents with
    | nil => exact .idle h
    | cons d rest =>
      cases multi with
      | true =>
        -- Nothing was written before the loop.
        have hloop := updateLoop_multi store (d :: rest) (Modifies.nil rt selector modifier)
        rw [List.nil_append] at hloop
        rcases hloop with ⟨us, hus, hloop⟩ | ⟨earlier, x, others, us, e, hrest, hus, hx, hloop⟩
        · rw [show written rt store [] = store from rfl] at hloop
          rw [hloop]
          cases us with
          | nil => cases hus.previous
          | cons u us => exact .through h (List.cons_ne_nil _ _) hus
        · rw [show written rt store [] = store from rfl] at hloop
          rw [hloop]
          exact .failed (hrest ▸ h) (.inl rfl) hus hx
      | false =>
        rw [updateLoop]
        cases hd : modified rt selector modifier d with
        | error e =>
          have hmatched : matchedDocuments rt store selector = .ok ([] ++ d :: rest) := h
          exact .failed hmatched (.inr rfl) (.nil rt selector modifier) hd
        | ok d' =>
          have hus : Modifies rt selector modifier (targets false (d :: rest)) [(d, d')] :=
            (Modifies.nil rt selector modifier).append hd
          exact .through h (List.cons_ne_nil _ _) hus

omit [DecidableEq ι] in
theorem Modifies.unique {selector : S} {modifier : M} : ∀ {documents : List D} {us us' : List (D × D)},
    Modifies rt selector modifier documents us → Modifies rt selector modifier documents us' → us = us'
  | [], us, us', h, h' => by
    rw [List.map_eq_nil_iff.mp h.previous, List.map_eq_nil_iff.mp h'.previous]
  | d :: rest, us, us', h, h' => by
    obtain ⟨u, vs, rfl, hu, hvs⟩ := List.map_eq_cons_iff.mp h.previous
    obtain ⟨u', vs', rfl, hu', hvs'⟩ := List.map_eq_cons_iff.mp h'.previous
    have hfst : u.1 = u'.1 := hu.trans hu'.symm
    have hsnd := h.each u List.mem_cons_self
    rw [hfst, h'.each u' List.mem_cons_self] at hsnd
    rw [Prod.ext hfst (Except.ok.inj hsnd).symm]
    have hrest : vs = vs' := Modifies.unique
      ⟨hvs, fun v hv => h.each v (List.mem_cons_of_mem _ hv)⟩
      ⟨hvs', fun v hv => h'.each v (List.mem_cons_of_mem _ hv)⟩
    rw [hrest]

omit [DecidableEq ι] in
/-- A document that is gone through was modified. -/
theorem Modifies.exists_of_mem {selector : S} {modifier : M} {documents : List D} {us : List (D × D)}
    (h : Modifies rt selector modifier documents us) {d : D} (hd : d ∈ documents) :
    ∃ d', (d, d') ∈ us ∧ modified rt selector modifier d = .ok d' := by
  rw [← h.previous] at hd
  obtain ⟨u, hu, rfl⟩ := List.mem_map.mp hd
  exact ⟨u.2, hu, h.each u hu⟩

/-- The first element without a property splits a list in one way only. -/
theorem earlier_eq {P : D → Prop} {x y : D} {xs' ys' : List D} : ∀ {xs ys : List D},
    xs ++ x :: xs' = ys ++ y :: ys' → (∀ a ∈ xs, P a) → ¬P x → (∀ a ∈ ys, P a) → ¬P y → xs = ys
  | [], [], _, _, _, _, _ => rfl
  | [], b :: ys, h, _, hx, hys, _ => by
    obtain ⟨rfl, -⟩ := List.cons.inj h
    exact absurd (hys x List.mem_cons_self) hx
  | a :: xs, [], h, hxs, _, _, hy => by
    obtain ⟨rfl, -⟩ := List.cons.inj h
    exact absurd (hxs a List.mem_cons_self) hy
  | a :: xs, b :: ys, h, hxs, hx, hys, hy => by
    obtain ⟨rfl, htail⟩ := List.cons.inj h
    rw [earlier_eq htail (fun c hc => hxs c (List.mem_cons_of_mem _ hc)) hx
      (fun c hc => hys c (List.mem_cons_of_mem _ hc)) hy]

theorem targets_sublist (multi : Bool) (documents : List D) :
    (targets multi documents).Sublist documents := by
  unfold targets
  split
  · exact List.Sublist.refl _
  · exact List.take_sublist _ _

/-- The document that fails is one of those that an update goes through. -/
theorem mem_targets {multi : Bool} {earlier rest : List D} {d : D}
    (hmulti : multi = true ∨ earlier = []) : d ∈ targets multi (earlier ++ d :: rest) := by
  unfold targets
  split
  · simp
  · next h =>
    rw [hmulti.resolve_left h]
    simp

/-- An update that does not fail late has written nothing where it fails. -/
theorem written_eq_of_not_late (hkeyed : Keyed rt store) {selector : S} {modifier : M} {multi : Bool}
    {earlier rest : List D} {d : D} {us : List (D × D)} {e : Text}
    (h : matchedDocuments rt store selector = .ok (earlier ++ d :: rest))
    (hmulti : multi = true ∨ earlier = []) (hus : Modifies rt selector modifier earlier us)
    (hd : modified rt selector modifier d = .error e)
    (hnot : ¬(multi = true ∧ FailsLate rt store selector modifier)) : written rt store us = store := by
  have hsub : earlier.Sublist store.values :=
    (List.sublist_append_left _ _).trans (matchedDocuments_sublist h)
  refine written_eq hkeyed (hus.previous ▸ hsub) fun u hu => ?_
  by_contra hne
  have hmem : u.1 ∈ earlier := hus.previous ▸ List.mem_map_of_mem hu
  rcases hmulti with hmulti | hnil
  · refine hnot ⟨hmulti, earlier, d, rest, h, fun a ha => ?_, ⟨u.1, hmem, ?_⟩, e, hd⟩
    · obtain ⟨a', -, ha'⟩ := hus.exists_of_mem ha
      exact ⟨a', ha'⟩
    · rw [hus.each u hu]
      exact fun heq => hne (Except.ok.inj heq)
  · rw [hnil] at hmem
    cases hmem

/-- **An update is atomic exactly when** it does not fail behind a write of its own and the
observers do not throw on what it leaves. -/
theorem update_atomic_iff (hkeyed : Keyed rt store) (selector : S) (modifier : M) (multi : Bool) :
    Atomic rt store (update rt observers store selector modifier multi) ↔
      ¬(multi = true ∧ FailsLate rt store selector modifier) ∧
        ∀ store', Leaves rt store (.update selector modifier multi) store' → Observed observers store' := by
  have hupdates := update_updates rt observers store selector modifier multi
  generalize update rt observers store selector modifier multi = o at hupdates
  cases hupdates with
  | @refused e h =>
    refine iff_of_true (refused_atomic e) ⟨?_, ?_⟩
    · rintro ⟨-, earlier, d, rest, hmatched, -⟩
      rw [h] at hmatched
      cases hmatched
    · intro store' hleaves
      cases hleaves with
      | update hmatched hne hus =>
        rw [h] at hmatched
        cases hmatched
  | @failed earlier rest d us e h hmulti hus hd =>
    have hleaves : ∀ store', Leaves rt store (.update selector modifier multi) store' →
        Observed observers store' := by
      intro store' hleaves
      cases hleaves with
      | update hmatched hne hus' =>
        rw [h] at hmatched
        cases hmatched
        obtain ⟨d', -, hd'⟩ := hus'.exists_of_mem (mem_targets hmulti)
        rw [hd] at hd'
        cases hd'
    have hsub : earlier.Sublist store.values :=
      (List.sublist_append_left _ _).trans (matchedDocuments_sublist h)
    rw [and_iff_left hleaves]
    constructor
    · rintro hatomic ⟨-, earlier', d'', rest', hmatched, hok, ⟨x, hx, hchanged⟩, e', hd''⟩
      -- Both splits are at the first document that fails.
      have hsplit : earlier' = earlier := by
        rw [h] at hmatched
        refine earlier_eq (P := fun a => ∃ a', modified rt selector modifier a = .ok a')
          (Except.ok.inj hmatched).symm hok ?_ ?_ ?_
        · rintro ⟨a', ha'⟩
          rw [hd''] at ha'
          cases ha'
        · intro a ha
          obtain ⟨a', -, ha'⟩ := hus.exists_of_mem ha
          exact ⟨a', ha'⟩
        · rintro ⟨a', ha'⟩
          rw [hd] at ha'
          cases ha'
      exact written_ne hkeyed hsub hus (hsplit ▸ hx) hchanged (hatomic.thrown e rfl).1
    · intro hnot
      rw [written_eq_of_not_late hkeyed h hmulti hus hd hnot]
      exact refused_atomic e
  | idle h =>
    refine iff_of_true ⟨fun e he => (nomatch he), fun n hn => ?_⟩ ⟨?_, ?_⟩
    · cases hn
      exact unchanged_accounted
    · rintro ⟨-, earlier, d, rest, hmatched, -⟩
      rw [h] at hmatched
      cases earlier <;> cases hmatched
    · intro store' hleaves
      cases hleaves with
      | update hmatched hne hus =>
        rw [h] at hmatched
        exact absurd (Except.ok.inj hmatched).symm hne
  | @through documents us h hne hus =>
    have hsub := (targets_sublist multi documents).trans (matchedDocuments_sublist h)
    rw [announce_atomic_iff (written_accounted hkeyed hsub hus)]
    constructor
    · refine fun hobs => ⟨?_, ?_⟩
      · rintro ⟨hmulti, earlier, d, rest, hmatched, -, -, e, he⟩
        rw [h] at hmatched
        cases hmatched
        obtain ⟨d', -, hd'⟩ := hus.exists_of_mem (mem_targets (.inl hmulti))
        rw [he] at hd'
        cases hd'
      · intro store' hleaves
        cases hleaves with
        | update hmatched hne hus' =>
          rw [h] at hmatched
          cases hmatched
          rwa [hus'.unique hus]
    · exact fun hleaves => hleaves.2 _ (.update h hne hus)

/-- An upsert that finds a document, or fails to look for one, is an update. -/
theorem perform_upsert_of_matched {randomId : Text} {selector : S} {modifier : M} {multi : Bool}
    {insertedId : Option Text} (h : matchedDocuments rt store selector ≠ .ok []) :
    perform rt observers store (.upsert randomId selector modifier multi insertedId) =
      update rt observers store selector modifier multi := by
  have hresult : (update rt observers store selector modifier multi).result ≠ .ok 0 := by
    have hupdates := update_updates rt observers store selector modifier multi
    generalize update rt observers store selector modifier multi = o at hupdates
    cases hupdates with
    | refused h' => exact fun he => nomatch he
    | failed h' hmulti hus hd => exact fun he => nomatch he
    | idle h' => exact absurd h' h
    | @through documents us h' hne hus =>
      have hlength : us.length ≠ 0 := by
        intro hzero
        have hnil := hus.previous
        rw [List.length_eq_zero_iff.mp hzero, List.map_nil] at hnil
        cases multi with
        | true => exact hne hnil.symm
        | false =>
          cases documents with
          | nil => exact hne rfl
          | cons d rest => cases hnil
      intro he
      rw [announce] at he
      cases hnotify : (notifyObservers observers (written rt store us)).2 with
      | error e =>
        rw [hnotify] at he
        cases he
      | ok u =>
        rw [hnotify] at he
        exact hlength (Except.ok.inj he)
  rw [perform, upsert]
  generalize update rt observers store selector modifier multi = o at hresult
  obtain ⟨store', events, notified, result⟩ := o
  cases result with
  | error e => rfl
  | ok n =>
    cases n with
    | zero => exact absurd rfl hresult
    | succ n => rfl

theorem upsert_atomic_iff (hkeyed : Keyed rt store) (randomId : Text) (selector : S) (modifier : M)
    (multi : Bool) (insertedId : Option Text) :
    Atomic rt store
        (perform rt observers store (.upsert randomId selector modifier multi insertedId)) ↔
      ¬(multi = true ∧ FailsLate rt store selector modifier) ∧ ∀ store',
        Leaves rt store (.upsert randomId selector modifier multi insertedId) store' →
          Observed observers store' := by
  by_cases h : matchedDocuments rt store selector = .ok []
  · have hlate : ¬(multi = true ∧ FailsLate rt store selector modifier) := by
      rintro ⟨-, earlier, d, rest, hmatched, -⟩
      rw [h] at hmatched
      cases earlier <;> cases hmatched
    have hidle : update rt observers store selector modifier multi = ⟨store, [], 0, .ok 0⟩ := by
      rw [update, h]
      rfl
    rw [and_iff_right hlate, perform, upsert, hidle]
    dsimp only
    generalize hprepared : (do
      let document ← rt.createUpsert selector modifier
      prepareInsert rt store randomId (insertedId.elim document fun id => rt.giveId id document)) =
        prepared
    cases prepared with
    | error e =>
      refine iff_of_true (refused_atomic e) fun store' hleaves => ?_
      cases hleaves with
      | upsertUpdate hleaves =>
        cases hleaves with
        | update hmatched hne hus =>
          rw [h] at hmatched
          exact absurd (Except.ok.inj hmatched).symm hne
      | upsertInsert hmatched hcreate hinsert =>
        rw [hcreate] at hprepared
        exact nomatch hprepared.symm.trans hinsert
    | ok stored =>
      obtain ⟨document, hcreate, hinsert⟩ := bind_eq_ok hprepared
      have hannounce : ((announce observers (store.set (rt.idOf stored) stored) [.insert stored]
          (⟨1, some (rt.idOf stored)⟩ : UpsertResult ι)).map UpsertResult.numberAffected) =
          announce observers (store.set (rt.idOf stored) stored) [.insert stored] 1 := by
        rw [announce, announce, Outcome.map]
        cases (notifyObservers observers (store.set (rt.idOf stored) stored)).2 <;> rfl
      dsimp only
      rw [hannounce, announce_atomic_iff (inserted_accounted hinsert)]
      refine ⟨fun hobs store' hleaves => ?_, fun hleaves => hleaves _ (.upsertInsert h hcreate hinsert)⟩
      cases hleaves with
      | upsertUpdate hleaves =>
        cases hleaves with
        | update hmatched hne hus =>
          rw [h] at hmatched
          exact absurd (Except.ok.inj hmatched).symm hne
      | upsertInsert hmatched hcreate' hinsert' =>
        rw [hcreate] at hcreate'
        cases hcreate'
        rw [hinsert] at hinsert'
        cases hinsert'
        exact hobs
  · rw [perform_upsert_of_matched h, update_atomic_iff hkeyed]
    refine and_congr_right fun _ => ⟨fun hleaves store' hstore => ?_, fun hleaves store' hstore =>
      hleaves store' (.upsertUpdate hstore)⟩
    cases hstore with
    | upsertUpdate hstore => exact hleaves store' hstore
    | upsertInsert hmatched hcreate hinsert => exact absurd hmatched h

/-- **When a call is atomic.** In a collection that has every document under its own id, a
call does nothing where it throws and accounts for every change where it returns, exactly
when it is no update of many documents that fails behind one it changed and no observer
throws on the contents it leaves. -/
theorem perform_atomic_iff (hkeyed : Keyed rt store) (call : Call D S M) :
    Atomic rt store (perform rt observers store call) ↔ ¬CallFailsLate rt store call ∧
      ∀ store', Leaves rt store call store' → Observed observers store' := by
  cases call with
  | insert randomId document =>
    rw [and_iff_right (show ¬CallFailsLate rt store (.insert randomId document) from id), perform, Collection.insert]
    cases h : prepareInsert rt store randomId (rt.clone document) with
    | error e =>
      refine iff_of_true (refused_atomic e) fun store' hleaves => ?_
      cases hleaves with
      | insert h' => exact nomatch h.symm.trans h'
    | ok stored =>
      have hannounce : (announce observers (store.set (rt.idOf stored) stored) [.insert stored]
          (rt.idOf stored)).map (fun _ => 1) =
          announce observers (store.set (rt.idOf stored) stored) [.insert stored] 1 := by
        rw [announce, announce, Outcome.map]
        cases (notifyObservers observers (store.set (rt.idOf stored) stored)).2 <;> rfl
      dsimp only
      rw [hannounce, announce_atomic_iff (inserted_accounted h)]
      refine ⟨fun hobs store' hleaves => ?_, fun hleaves => hleaves _ (.insert h)⟩
      cases hleaves with
      | insert h' =>
        rw [h] at h'
        cases h'
        exact hobs
  | remove selector =>
    rw [and_iff_right (show ¬CallFailsLate rt store (.remove selector) from id), perform, remove]
    cases h : matchedDocuments rt store selector with
    | error e =>
      refine iff_of_true (refused_atomic e) fun store' hleaves => ?_
      cases hleaves with
      | remove h' => exact nomatch h.symm.trans h'
    | ok documents =>
      have hdelete : documents.foldl (fun store document => store.delete (rt.idOf document)) store =
          store.deleteAll (documents.map rt.idOf) := by rw [OMap.deleteAll, List.foldl_map]
      dsimp only
      rw [hdelete, announce_atomic_iff (removed_accounted hkeyed (matchedDocuments_sublist h))]
      refine ⟨fun hobs store' hleaves => ?_, fun hleaves => hleaves _ (.remove h)⟩
      cases hleaves with
      | remove h' =>
        rw [h] at h'
        cases h'
        exact hobs
  | update selector modifier multi => exact update_atomic_iff hkeyed selector modifier multi
  | upsert randomId selector modifier multi insertedId =>
    exact upsert_atomic_iff hkeyed randomId selector modifier multi insertedId

/-! ## Who is told -/

/-- A call did nothing and told nobody, or it has left contents that the observers were told of. -/
def Told (rt : LocalStoreRuntime D ι S M) (observers : List (OMap ι D → Except Text Unit))
    (store : OMap ι D) (call : Call D S M) (o : Outcome D ι ℕ) : Prop :=
  o.store = store ∧ o.notified = 0 ∨
    Leaves rt store call o.store ∧ o.notified = (notifyObservers observers o.store).1

theorem update_told (hkeyed : Keyed rt store) {selector : S} {modifier : M} {multi : Bool}
    (hlate : ¬(multi = true ∧ FailsLate rt store selector modifier)) :
    Told rt observers store (.update selector modifier multi)
      (update rt observers store selector modifier multi) := by
  have hupdates := update_updates rt observers store selector modifier multi
  generalize update rt observers store selector modifier multi = o at hupdates
  cases hupdates with
  | refused h => exact .inl ⟨rfl, rfl⟩
  | failed h hmulti hus hd => exact .inl ⟨written_eq_of_not_late hkeyed h hmulti hus hd hlate, rfl⟩
  | idle h => exact .inl ⟨rfl, rfl⟩
  | through h hne hus => exact .inr ⟨.update h hne hus, rfl⟩

/-- **Nobody is left out.** A call that does not fail late tells the observers of what it
leaves, unless it has changed nothing. -/
theorem perform_told (hkeyed : Keyed rt store) {call : Call D S M} (hlate : ¬CallFailsLate rt store call) :
    Told rt observers store call (perform rt observers store call) := by
  cases call with
  | insert randomId document =>
    rw [perform, Collection.insert]
    cases h : prepareInsert rt store randomId (rt.clone document) with
    | error e => exact .inl ⟨rfl, rfl⟩
    | ok stored => exact .inr ⟨.insert h, rfl⟩
  | remove selector =>
    rw [perform, remove]
    cases h : matchedDocuments rt store selector with
    | error e => exact .inl ⟨rfl, rfl⟩
    | ok documents =>
      have hdelete : documents.foldl (fun store document => store.delete (rt.idOf document)) store =
          store.deleteAll (documents.map rt.idOf) := by rw [OMap.deleteAll, List.foldl_map]
      dsimp only [announce]
      rw [hdelete]
      exact .inr ⟨.remove h, rfl⟩
  | update selector modifier multi => exact update_told hkeyed hlate
  | upsert randomId selector modifier multi insertedId =>
    by_cases h : matchedDocuments rt store selector = .ok []
    · have hidle : update rt observers store selector modifier multi = ⟨store, [], 0, .ok 0⟩ := by
        rw [update, h]
        rfl
      rw [perform, upsert, hidle]
      dsimp only
      generalize hprepared : (do
        let document ← rt.createUpsert selector modifier
        prepareInsert rt store randomId (insertedId.elim document fun id => rt.giveId id document)) =
          prepared
      cases prepared with
      | error e => exact .inl ⟨rfl, rfl⟩
      | ok stored =>
        obtain ⟨document, hcreate, hinsert⟩ := bind_eq_ok hprepared
        exact .inr ⟨.upsertInsert h hcreate hinsert, rfl⟩
    · rw [perform_upsert_of_matched h]
      have htold : Told rt observers store (.update selector modifier multi) _ :=
        update_told hkeyed hlate
      rcases htold with hidle | ⟨hleaves, hnotified⟩
      · exact .inl hidle
      · exact .inr ⟨.upsertUpdate hleaves, hnotified⟩

theorem update_store_of_leaves {selector : S} {modifier : M} {multi : Bool} {store' : OMap ι D}
    (h : Leaves rt store (.update selector modifier multi) store') :
    (update rt observers store selector modifier multi).store = store' := by
  cases h with
  | @update _ _ _ documents us hmatched hne hus =>
    have hupdates := update_updates rt observers store selector modifier multi
    generalize update rt observers store selector modifier multi = o at hupdates
    cases hupdates with
    | refused h =>
      rw [h] at hmatched
      cases hmatched
    | failed h hmulti hus' hd =>
      rw [h] at hmatched
      cases hmatched
      obtain ⟨d', -, hd'⟩ := hus.exists_of_mem (mem_targets hmulti)
      rw [hd] at hd'
      cases hd'
    | idle h =>
      rw [h] at hmatched
      exact absurd (Except.ok.inj hmatched).symm hne
    | through h hne' hus' =>
      rw [h] at hmatched
      cases hmatched
      rw [hus'.unique hus]
      rfl

/-- What a call can leave is what it leaves. -/
theorem perform_store_of_leaves {call : Call D S M} {store' : OMap ι D}
    (h : Leaves rt store call store') : (perform rt observers store call).store = store' := by
  cases h with
  | insert h =>
    rw [perform, Collection.insert, h]
    rfl
  | remove h =>
    rw [perform, remove, h, OMap.deleteAll, List.foldl_map]
    rfl
  | update h hne hus => exact update_store_of_leaves (.update h hne hus)
  | upsertUpdate h =>
    rw [perform_upsert_of_matched]
    · exact update_store_of_leaves h
    · intro hnil
      cases h with
      | update hmatched hne hus =>
        rw [hnil] at hmatched
        exact hne (Except.ok.inj hmatched).symm
  | upsertInsert h hcreate hprepare =>
    have hidle : ∀ {selector : S} {modifier : M} {multi : Bool},
        matchedDocuments rt store selector = .ok [] →
        update rt observers store selector modifier multi = ⟨store, [], 0, .ok 0⟩ := by
      intro selector modifier multi hnil
      rw [update, hnil]
      rfl
    rw [perform, upsert, hidle h]
    simp only [bind, Except.bind, hcreate, hprepare]
    rfl

end

/-! ## A collection of two documents -/

/-- Two inserts into an empty collection. -/
def twoDocuments : OMap (Option Text) Value :=
  let rt := localStoreRuntime .integral 0
  let first := perform rt [] .empty (.insert [] (.obj [(js "_id", .str (js "aaaaaaaaaaaaaaaaaaaaaaaa")),
    (js "n", .num (.finite (ofInt 1)))]))
  (perform rt [] first.store (.insert [] (.obj [(js "_id", .str (js "bbbbbbbbbbbbbbbbbbbbbbbb")),
    (js "n", .str (js "x"))]))).store

/-- `update({}, { $inc: { n: 1 } }, { multi: true })` -/
def incrementAll : Call Value Value Value :=
  .update (.obj []) (.obj [(js "$inc", .obj [(js "n", .num (.finite (ofInt 1)))])]) true

theorem twoDocuments_keyed : Keyed (localStoreRuntime .integral 0) twoDocuments := by
  unfold Keyed
  decide +kernel

/-- Removing both documents. -/
theorem perform_atomic_iff_remove : Keyed (localStoreRuntime .integral 0) twoDocuments ∧
    Atomic (localStoreRuntime .integral 0) twoDocuments
      (perform (localStoreRuntime .integral 0) [] twoDocuments (.remove (.obj []))) :=
  ⟨twoDocuments_keyed, (perform_atomic_iff twoDocuments_keyed (.remove (.obj []))).mpr
    ⟨id, fun _ _ _ h => absurd h List.not_mem_nil⟩⟩

/-- The number `n` of a document. -/
def nOf (document : Value) : Option ℤ := match getKey document (js "n") with
  | .num n => toInt? n
  | _ => none

/-- The text in the second document stops the update behind the first one, which is written
already. -/
theorem incrementAll_not_atomic : ¬Atomic (localStoreRuntime .integral 0) twoDocuments
    (perform (localStoreRuntime .integral 0) [] twoDocuments incrementAll) := by
  intro h
  obtain ⟨hstore, -, -⟩ := h.thrown (js "Cannot apply $inc modifier to non-number") rfl
  have hn := congrArg (fun store => store.values.map nOf) hstore
  exact absurd hn (by decide +kernel)

end TypeFerry.Minimongo.Atomicity
