import TypeFerry.Minimongo.Replay

/-! # Calls from listeners

A listener may call the collection it listens to. `handleMutation` compares two
results that it takes before its first event and writes `previous` behind the
last of its row events, so what a listener of a row event changes is told again
from the old result and then written over. A run of one call is a tree: what the
call writes, the listeners of the collection, the cursors one after the other,
and for each of them its events with the calls of their listeners. -/
namespace TypeFerry.Minimongo.Reentrancy
open TypeFerry.Lib.Numeral TypeFerry.Lib.JsonText TypeFerry.Lib.OrderedMap TypeFerry.Ejson.Clone
open TypeFerry.Minimongo.Values TypeFerry.Minimongo.Collection TypeFerry.Minimongo.Modifier
open TypeFerry.Minimongo.Atomicity TypeFerry.Minimongo.Cursors TypeFerry.Minimongo.Selection
open TypeFerry.Minimongo.Representation TypeFerry.Minimongo.Output TypeFerry.Minimongo.Diff
open TypeFerry.Minimongo.Replay TypeFerry.Minimongo.Plain

/-! ## Nested runs -/

/-- The collection and the `previous` of every cursor. -/
structure Observing (κ : Type) where
  store : OMap (Option Text) Value
  previous : κ → List Value

/-- What is running. -/
inductive Task (κ : Type) where
  /-- one call of the collection -/
  | call
  /-- the calls that the listeners of an event make, one after the other -/
  | listeners
  /-- `notifyObservers`, with the cursors that are left -/
  | notify (rest : List κ)
  /-- `handleMutation` of a cursor -/
  | mutation (k : κ)
  /-- the row events of a cursor that are left -/
  | emit (k : κ) (events : List (CursorEvent Value))

/-- The events of all cursors, in the order of their emission. -/
abbrev Log (κ : Type) := List (κ × CursorEvent Value)

/-- What may be written: the cursors whose row events are being emitted, the call, and the
contents before and after. -/
abbrev Rule (κ : Type) :=
  List κ → Call Value Value Value → OMap (Option Text) Value → OMap (Option Text) Value → Prop

section
variable {κ : Type} [DecidableEq κ] (p : Platform) (cursors : κ → Cursor) (observers : List κ)
variable (allowed : Rule κ)

/-- `this.previous = current`. -/
def Observing.see (s : Observing κ) (k : κ) (current : List Value) : Observing κ :=
  { s with previous := Function.update s.previous k current }

/-- A task that returns, from one state to another, and the events it emits. A call writes
all it writes before its first event, or it writes nothing and tells nobody. `emitting` are the
cursors in whose row events the task runs. -/
inductive Runs : List κ → Task κ → Observing κ → Observing κ → Log κ → Prop where
  | refused {emitting : List κ} {s : Observing κ} : Runs emitting .call s s []
  | made {emitting : List κ} {s s₁ s₂ : Observing κ} {log₁ log₂ : Log κ} {now : ℤ}
      {call : Call Value Value Value} {store' : OMap (Option Text) Value}
      (hleaves : Leaves (localStoreRuntime p now) s.store call store')
      (hallowed : allowed emitting call s.store store')
      (hlisteners : Runs emitting .listeners { s with store := store' } s₁ log₁)
      (hnotify : Runs emitting (.notify observers) s₁ s₂ log₂) :
      Runs emitting .call s s₂ (log₁ ++ log₂)
  | silent {emitting : List κ} {s : Observing κ} : Runs emitting .listeners s s []
  | calls {emitting : List κ} {s s₁ s₂ : Observing κ} {log₁ log₂ : Log κ}
      (hcall : Runs emitting .call s s₁ log₁) (hrest : Runs emitting .listeners s₁ s₂ log₂) :
      Runs emitting .listeners s s₂ (log₁ ++ log₂)
  | told {emitting : List κ} {s : Observing κ} : Runs emitting (.notify []) s s []
  | tell {emitting : List κ} {s s₁ s₂ : Observing κ} {log₁ log₂ : Log κ} {k : κ} {rest : List κ}
      (hmutation : Runs emitting (.mutation k) s s₁ log₁)
      (hrest : Runs emitting (.notify rest) s₁ s₂ log₂) :
      Runs emitting (.notify (k :: rest)) s s₂ (log₁ ++ log₂)
  | unchanged {emitting : List κ} {s s₁ : Observing κ} {log₁ : Log κ} {k : κ} {current : List Value}
      (i : Identity) (hfetch : (cursors k).fetch p s.store.values = .ok current)
      (hemit : Runs (k :: emitting)
        (.emit k (diff (Cursor.idOf p) (sameDocument i) (s.previous k) current)) s s₁ log₁)
      (hsame : isChanged (Cursor.idOf p) (sameDocument i) (s.previous k) current = false) :
      Runs emitting (.mutation k) s (s₁.see k current) log₁
  | changed {emitting : List κ} {s s₁ s₂ : Observing κ} {log₁ log₂ : Log κ} {k : κ}
      {current : List Value} (i : Identity)
      (hfetch : (cursors k).fetch p s.store.values = .ok current)
      (hemit : Runs (k :: emitting)
        (.emit k (diff (Cursor.idOf p) (sameDocument i) (s.previous k) current)) s s₁ log₁)
      (hdiffers : isChanged (Cursor.idOf p) (sameDocument i) (s.previous k) current = true)
      (hlisteners : Runs emitting .listeners (s₁.see k current) s₂ log₂) :
      Runs emitting (.mutation k) s s₂ (log₁ ++ (k, .change current) :: log₂)
  | emitted {emitting : List κ} {s : Observing κ} {k : κ} : Runs emitting (.emit k []) s s []
  | event {emitting : List κ} {s s₁ s₂ : Observing κ} {log₁ log₂ : Log κ} {k : κ}
      {event : CursorEvent Value} {events : List (CursorEvent Value)}
      (hlisteners : Runs emitting .listeners s s₁ log₁)
      (hrest : Runs emitting (.emit k events) s₁ s₂ log₂) :
      Runs emitting (.emit k (event :: events)) s s₂ ((k, event) :: (log₁ ++ log₂))

end

/-! ## The events of one cursor -/

section
variable {κ : Type} [DecidableEq κ]

/-- The events that a cursor emitted. -/
def eventsOf (k : κ) (log : Log κ) : List (CursorEvent Value) :=
  log.filterMap fun e => if e.1 = k then some e.2 else none

theorem eventsOf_append (k : κ) (log log' : Log κ) :
    eventsOf k (log ++ log') = eventsOf k log ++ eventsOf k log' := List.filterMap_append

theorem eventsOf_self (k : κ) (event : CursorEvent Value) (log : Log κ) :
    eventsOf k ((k, event) :: log) = event :: eventsOf k log := by
  rw [eventsOf, List.filterMap_cons, if_pos rfl]
  rfl

theorem eventsOf_other {k k' : κ} (h : k' ≠ k) (event : CursorEvent Value) (log : Log κ) :
    eventsOf k ((k', event) :: log) = eventsOf k log := by
  rw [eventsOf, List.filterMap_cons, if_neg h]
  rfl

/-- The payload of the last `change`, or `last` if there is none. -/
def lastChange (last : Option (List Value)) (events : List (CursorEvent Value)) :
    Option (List Value) :=
  events.foldl (fun last event => match event with
    | .change documents => some documents
    | _ => last) last

theorem lastChange_append (last : Option (List Value)) (events events' : List (CursorEvent Value)) :
    lastChange last (events ++ events') = lastChange (lastChange last events) events' :=
  List.foldl_append

theorem replay_append {O : Type} (idOf : O → Text) (view : OMap Text O) (events events' : List (CursorEvent O)) :
    replay idOf view (events ++ events') = replay idOf (replay idOf view events) events' :=
  List.foldl_append

end

/-! ## What it takes -/

section
variable {κ : Type} [DecidableEq κ]

/-- The writes after which cursor `k` can be trusted: they stay within plain values at any time,
none renames a field onto the `_id`, none leaves the cursor two documents without their `_id`,
and none that is made by a listener of a row event of the cursor changes its result. -/
structure Harmless (p : Platform) (cursors : κ → Cursor) (options : FindOptions) (k : κ)
    (emitting : List κ) (call : Call Value Value Value) (store store' : OMap (Option Text) Value) :
    Prop where
  plain : ∀ now, callPlain p now store call
  keepsId : ModifiedBy ModifierKeepsId call
  ids : idProjection options.projection = true ∨ Single p (cursors k) store'.values
  result : k ∈ emitting → (cursors k).fetch p store'.values = (cursors k).fetch p store.values

variable {p : Platform} {cursors : κ → Cursor} {observers : List κ} {options : FindOptions} {k : κ}

/-- The documents have their ids, and so have the outputs of the cursor. -/
def StoreOk (p : Platform) (cursors : κ → Cursor) (options : FindOptions) (k : κ)
    (store : OMap (Option Text) Value) : Prop :=
  Identified store ∧ (idProjection options.projection = true ∨ Single p (cursors k) store.values)

omit [DecidableEq κ] in
theorem storeOk_write {emitting : List κ} {now : ℤ} {call : Call Value Value Value}
    {store store' : OMap (Option Text) Value}
    (hleaves : Leaves (localStoreRuntime p now) store call store')
    (hallowed : Harmless p cursors options k emitting call store store')
    (hstore : StoreOk p cursors options k store) : StoreOk p cursors options k store' := by
  refine ⟨?_, hallowed.ids⟩
  have hkept := @holds_perform p now _ _ (kept_hasId p) [] store call hallowed.keepsId hstore.1
  rw [perform_store_of_leaves hleaves] at hkept
  exact hkept

theorem storeOk_runs {emitting : List κ} {task : Task κ} {s s' : Observing κ} {log : Log κ}
    (h : Runs p cursors observers (Harmless p cursors options k) emitting task s s' log)
    (hstore : StoreOk p cursors options k s.store) : StoreOk p cursors options k s'.store := by
  induction h with
  | refused | silent | told | emitted => exact hstore
  | made hleaves hallowed _ _ ih₁ ih₂ => exact ih₂ (ih₁ (storeOk_write hleaves hallowed hstore))
  | calls _ _ ih₁ ih₂ => exact ih₂ (ih₁ hstore)
  | tell _ _ ih₁ ih₂ => exact ih₂ (ih₁ hstore)
  | unchanged i hfetch hemit hsame ih => exact ih hstore
  | changed i hfetch hemit hdiffers hlisteners ih₁ ih₂ => exact ih₂ (ih₁ hstore)
  | event _ _ ih₁ ih₂ => exact ih₂ (ih₁ hstore)

/-! ## Inside the row events of the cursor -/

/-- Where the row events of the cursor are being emitted, its result stays, and all it emits
tells of this result. -/
theorem runs_inside {emitting : List κ} {task : Task κ} {s s' : Observing κ} {log : Log κ}
    {current : List Value}
    (h : Runs p cursors observers (Harmless p cursors options k) emitting task s s' log)
    (hin : k ∈ emitting) (hfetch : (cursors k).fetch p s.store.values = .ok current)
    (hevents : ∀ events, task = .emit k events → ∀ event ∈ events, Tells (Cursor.idOf p) current event) :
    (cursors k).fetch p s'.store.values = .ok current ∧
      ∀ event ∈ eventsOf k log, Tells (Cursor.idOf p) current event := by
  have hboth : ∀ {log₁ log₂ : Log κ}, (∀ event ∈ eventsOf k log₁, Tells (Cursor.idOf p) current event) →
      (∀ event ∈ eventsOf k log₂, Tells (Cursor.idOf p) current event) →
      ∀ event ∈ eventsOf k (log₁ ++ log₂), Tells (Cursor.idOf p) current event := by
    intro log₁ log₂ h₁ h₂
    rw [eventsOf_append]
    exact List.forall_mem_append.mpr ⟨h₁, h₂⟩
  induction h with
  | refused | silent | told | emitted => exact ⟨hfetch, fun event hevent => absurd hevent List.not_mem_nil⟩
  | made hleaves hallowed _ _ ih₁ ih₂ =>
    obtain ⟨hfetch₁, h₁⟩ := ih₁ hin ((hallowed.result hin).trans hfetch) fun _ h => nomatch h
    obtain ⟨hfetch₂, h₂⟩ := ih₂ hin hfetch₁ fun _ h => nomatch h
    exact ⟨hfetch₂, hboth h₁ h₂⟩
  | calls _ _ ih₁ ih₂ =>
    obtain ⟨hfetch₁, h₁⟩ := ih₁ hin hfetch fun _ h => nomatch h
    obtain ⟨hfetch₂, h₂⟩ := ih₂ hin hfetch₁ fun _ h => nomatch h
    exact ⟨hfetch₂, hboth h₁ h₂⟩
  | tell _ _ ih₁ ih₂ =>
    obtain ⟨hfetch₁, h₁⟩ := ih₁ hin hfetch fun _ h => nomatch h
    obtain ⟨hfetch₂, h₂⟩ := ih₂ hin hfetch₁ fun _ h => nomatch h
    exact ⟨hfetch₂, hboth h₁ h₂⟩
  | unchanged i hfetch' hemit hsame ih =>
    refine ih (List.mem_cons_of_mem _ hin) hfetch ?_
    rintro events heq event hevent
    cases heq
    rw [hfetch] at hfetch'
    cases hfetch'
    exact diff_tells hevent
  | @changed emitting s s₁ s₂ log₁ log₂ k' current' i hfetch' hemit hdiffers hlisteners ih₁ ih₂ =>
    obtain ⟨hfetch₁, h₁⟩ := ih₁ (List.mem_cons_of_mem _ hin) hfetch (by
      rintro events heq event hevent
      cases heq
      rw [hfetch] at hfetch'
      cases hfetch'
      exact diff_tells hevent)
    obtain ⟨hfetch₂, h₂⟩ := ih₂ hin hfetch₁ fun _ h => nomatch h
    refine ⟨hfetch₂, hboth h₁ ?_⟩
    by_cases hk : k' = k
    · subst hk
      rw [hfetch] at hfetch'
      cases hfetch'
      rw [eventsOf_self]
      exact List.forall_mem_cons.mpr ⟨rfl, h₂⟩
    · rw [eventsOf_other hk]
      exact h₂
  | @event emitting s s₁ s₂ log₁ log₂ k' event events _ _ ih₁ ih₂ =>
    obtain ⟨hfetch₁, h₁⟩ := ih₁ hin hfetch fun _ h => nomatch h
    obtain ⟨hfetch₂, h₂⟩ := ih₂ hin hfetch₁ (by
      rintro rest heq e he
      cases heq
      exact hevents _ rfl e (List.mem_cons_of_mem _ he))
    refine ⟨hfetch₂, ?_⟩
    by_cases hk : k' = k
    · subst hk
      rw [eventsOf_self]
      exact List.forall_mem_cons.mpr ⟨hevents _ rfl event List.mem_cons_self, hboth h₁ h₂⟩
    · rw [eventsOf_other hk]
      exact hboth h₁ h₂

/-- Every row event that is left is emitted. -/
theorem emit_covers {allowed : Rule κ} {emitting : List κ} {task : Task κ} {s s' : Observing κ}
    {log : Log κ} (h : Runs p cursors observers allowed emitting task s s' log) :
    ∀ events, task = .emit k events → ∀ event ∈ events, event ∈ eventsOf k log := by
  induction h with
  | emitted =>
    rintro events heq event hevent
    cases heq
    cases hevent
  | event _ _ ih₁ ih₂ =>
    rintro events heq e he
    cases heq
    rw [eventsOf_self, eventsOf_append]
    rcases List.mem_cons.mp he with rfl | he
    · exact List.mem_cons_self
    · exact List.mem_cons_of_mem _ (List.mem_append_right _ (ih₂ _ rfl e he))
  | _ =>
    rintro events heq
    cases heq

/-! ## Outside of them -/

/-- What a listener has made of the events of the cursor is its `previous`. -/
structure Synced (p : Platform) (cursors : κ → Cursor) (options : FindOptions) (k : κ)
    (s : Observing κ) (view : OMap Text Value) (last : Option (List Value)) : Prop where
  store : StoreOk p cursors options k s.store
  distinct : Distinct (Cursor.idOf p) (s.previous k)
  stands : ∀ id, Stands Equivalent (Cursor.idOf p) (s.previous k) view id
  last : ∀ documents, last = some documents → List.Forall₂ Equivalent documents (s.previous k)

/-- The `previous` of the cursor is its result. -/
def Current (p : Platform) (cursors : κ → Cursor) (k : κ) (s : Observing κ) : Prop :=
  (cursors k).fetch p s.store.values = .ok (s.previous k)

theorem forall₂_equivalent_trans {xs ys zs : List Value} (h : List.Forall₂ Equivalent xs ys)
    (h' : List.Forall₂ Equivalent ys zs) : List.Forall₂ Equivalent xs zs := by
  induction h generalizing zs with
  | nil => exact h'
  | cons hR _ ih =>
    cases h' with
    | cons hR' h' => exact .cons (Equivalent.trans _ _ _ hR hR') (ih h')

variable {selector : Value} {view : OMap Text Value} {last : Option (List Value)}

theorem Synced.see_other {s : Observing κ} (h : Synced p cursors options k s view last) {k' : κ}
    (hk : k ≠ k') (current : List Value) :
    Synced p cursors options k (s.see k' current) view last := by
  have hprevious : (s.see k' current).previous k = s.previous k := Function.update_of_ne hk _ _
  refine ⟨h.store, ?_, ?_, ?_⟩
  · rw [hprevious]
    exact h.distinct
  · rw [hprevious]
    exact h.stands
  · rw [hprevious]
    exact h.last

/-- **The row events of the cursor** bring the listener to the new result, whatever the other
listeners do in between. -/
theorem emit_synced (hfind : find p selector options = .ok (cursors k)) {emitting : List κ}
    {s s₁ : Observing κ} {log : Log κ} {current : List Value} (i : Identity)
    (hfetch : (cursors k).fetch p s.store.values = .ok current)
    (hemit : Runs p cursors observers (Harmless p cursors options k) (k :: emitting)
      (.emit k (diff (Cursor.idOf p) (sameDocument i) (s.previous k) current)) s s₁ log)
    (hs : Synced p cursors options k s view last) {last' : Option (List Value)}
    (hlast : ∀ documents, last' = some documents → List.Forall₂ Equivalent documents current) :
    Synced p cursors options k (s₁.see k current) (replay (Cursor.idOf p) view (eventsOf k log)) last' ∧
      Current p cursors k (s₁.see k current) := by
  obtain ⟨hfetch₁, htells⟩ := runs_inside hemit List.mem_cons_self hfetch (by
    intro events heq event hevent
    cases heq
    exact diff_tells hevent)
  have hprevious : (s₁.see k current).previous k = current := Function.update_self _ _ _
  have hstore := storeOk_runs hemit hs.store
  refine ⟨⟨hstore, ?_, fun id => ?_, ?_⟩, ?_⟩
  · rw [hprevious]
    exact fetch_distinct hstore.1 hfind hstore.2 hfetch₁
  · rw [hprevious]
    refine stands_replay Equivalent.refl htells ?_
    rcases stands_or_subject Equivalent.trans equivalent_of_same (hs.stands id) with h | ⟨event, hmem, hid⟩
    · exact .inl h
    · exact .inr ⟨event, emit_covers hemit _ rfl event hmem, hid⟩
  · rw [hprevious]
    exact hlast
  · rw [Current, hprevious]
    exact hfetch₁

/-- **Outside of the row events of the cursor** every task keeps a listener in step, and the
tasks that reach the cursor bring its `previous` up to date. -/
theorem runs_outside (hfind : find p selector options = .ok (cursors k)) (hk : k ∈ observers)
    {emitting : List κ} {task : Task κ} {s s' : Observing κ} {log : Log κ}
    (h : Runs p cursors observers (Harmless p cursors options k) emitting task s s' log)
    (hout : k ∉ emitting) (htask : ∀ events, task ≠ .emit k events)
    (hs : Synced p cursors options k s view last) :
    Synced p cursors options k s' (replay (Cursor.idOf p) view (eventsOf k log))
        (lastChange last (eventsOf k log)) ∧
      (Current p cursors k s ∨ task = .mutation k ∨ (∃ rest, task = .notify rest ∧ k ∈ rest) →
        Current p cursors k s') := by
  induction h generalizing view last with
  | refused | silent | emitted =>
    refine ⟨hs, fun hcurrent => hcurrent.resolve_right ?_⟩
    rintro (heq | ⟨rest, heq, -⟩) <;> cases heq
  | told =>
    refine ⟨hs, fun hcurrent => hcurrent.resolve_right ?_⟩
    rintro (heq | ⟨rest, heq, hmem⟩)
    · cases heq
    · cases heq
      cases hmem
  | made hleaves hallowed _ _ ih₁ ih₂ =>
    have hwritten := storeOk_write hleaves hallowed hs.store
    obtain ⟨hs₁, -⟩ := ih₁ hout (fun _ h => nomatch h) ⟨hwritten, hs.distinct, hs.stands, hs.last⟩
    obtain ⟨hs₂, hcurrent⟩ := ih₂ hout (fun _ h => nomatch h) hs₁
    rw [eventsOf_append, replay_append, lastChange_append]
    exact ⟨hs₂, fun _ => hcurrent (.inr (.inr ⟨_, rfl, hk⟩))⟩
  | calls _ _ ih₁ ih₂ =>
    obtain ⟨hs₁, hcurrent₁⟩ := ih₁ hout (fun _ h => nomatch h) hs
    obtain ⟨hs₂, hcurrent₂⟩ := ih₂ hout (fun _ h => nomatch h) hs₁
    rw [eventsOf_append, replay_append, lastChange_append]
    refine ⟨hs₂, fun hcurrent => hcurrent₂ (.inl (hcurrent₁ (hcurrent.imp_right ?_)))⟩
    rintro (heq | ⟨rest, heq, -⟩) <;> cases heq
  | @tell emitting s s₁ s₂ log₁ log₂ k' rest _ _ ih₁ ih₂ =>
    obtain ⟨hs₁, hcurrent₁⟩ := ih₁ hout (fun _ h => nomatch h) hs
    obtain ⟨hs₂, hcurrent₂⟩ := ih₂ hout (fun _ h => nomatch h) hs₁
    rw [eventsOf_append, replay_append, lastChange_append]
    refine ⟨hs₂, fun hcurrent => ?_⟩
    rcases hcurrent with hcurrent | heq | ⟨rest', heq, hmem⟩
    · exact hcurrent₂ (.inl (hcurrent₁ (.inl hcurrent)))
    · cases heq
    · cases heq
      rcases List.mem_cons.mp hmem with rfl | hmem
      · exact hcurrent₂ (.inl (hcurrent₁ (.inr (.inl rfl))))
      · exact hcurrent₂ (.inr (.inr ⟨_, rfl, hmem⟩))
  | @unchanged emitting s s₁ log₁ k' current i hfetch hemit hsame ih =>
    by_cases hk' : k = k'
    · subst hk'
      have hdistinct := fetch_distinct hs.store.1 hfind hs.store.2 hfetch
      have hplaces := forall₂_of_not_changed hs.distinct hdistinct hsame
      -- There are no row events, so nothing else was emitted either.
      have hnil : diff (Cursor.idOf p) (sameDocument i) (s.previous k) current = [] := by
        have hempty := (Bool.or_eq_false_iff.mp hsame).1
        simpa using hempty
      have hlast : ∀ documents, lastChange last (eventsOf k log₁) = some documents →
          List.Forall₂ Equivalent documents current := by
        intro documents hdocuments
        rw [hnil] at hemit
        cases hemit
        exact forall₂_equivalent_trans (hs.last documents hdocuments)
          (hplaces.imp equivalent_of_same)
      obtain ⟨hs₁, hcurrent₁⟩ := emit_synced hfind i hfetch hemit hs hlast
      exact ⟨hs₁, fun _ => hcurrent₁⟩
    · have hout' : k ∉ k' :: emitting := by
        rw [List.mem_cons, not_or]
        exact ⟨hk', hout⟩
      obtain ⟨hs₁, hcurrent₁⟩ := ih hout' (by
        intro events heq
        cases heq
        exact hk' rfl) hs
      refine ⟨hs₁.see_other hk' current, fun hcurrent => ?_⟩
      have hprevious : (s₁.see k' current).previous k = s₁.previous k := Function.update_of_ne hk' _ _
      rw [Current, hprevious]
      refine hcurrent₁ (hcurrent.imp_right ?_)
      rintro (heq | ⟨rest, heq, -⟩)
      · cases heq
        exact absurd rfl hk'
      · cases heq
  | @changed emitting s s₁ s₂ log₁ log₂ k' current i hfetch hemit hdiffers hlisteners ih₁ ih₂ =>
    by_cases hk' : k = k'
    · subst hk'
      have hlast : ∀ documents, some current = some documents →
          List.Forall₂ Equivalent documents current := by
        intro documents hdocuments
        cases hdocuments
        exact List.forall₂_same.mpr fun d _ => Equivalent.refl d
      obtain ⟨hs₁, hcurrent₁⟩ := emit_synced hfind i hfetch hemit hs hlast
      obtain ⟨hs₂, hcurrent₂⟩ := ih₂ hout (fun _ h => nomatch h) hs₁
      rw [eventsOf_append, eventsOf_self, replay_append, lastChange_append]
      exact ⟨hs₂, fun _ => hcurrent₂ (.inl hcurrent₁)⟩
    · have hout' : k ∉ k' :: emitting := by
        rw [List.mem_cons, not_or]
        exact ⟨hk', hout⟩
      obtain ⟨hs₁, hcurrent₁⟩ := ih₁ hout' (by
        intro events heq
        cases heq
        exact hk' rfl) hs
      obtain ⟨hs₂, hcurrent₂⟩ := ih₂ hout (fun _ h => nomatch h) (hs₁.see_other hk' current)
      rw [eventsOf_append, eventsOf_other (Ne.symm hk'), replay_append, lastChange_append]
      refine ⟨hs₂, fun hcurrent => hcurrent₂ (.inl ?_)⟩
      have hprevious : (s₁.see k' current).previous k = s₁.previous k := Function.update_of_ne hk' _ _
      rw [Current, hprevious]
      refine hcurrent₁ (hcurrent.imp_right ?_)
      rintro (heq | ⟨rest, heq, -⟩)
      · cases heq
        exact absurd rfl hk'
      · cases heq
  | @event emitting s s₁ s₂ log₁ log₂ k' event events _ _ ih₁ ih₂ =>
    have hk' : k' ≠ k := by
      rintro rfl
      exact htask _ rfl
    obtain ⟨hs₁, hcurrent₁⟩ := ih₁ hout (fun _ h => nomatch h) hs
    obtain ⟨hs₂, hcurrent₂⟩ := ih₂ hout (by
      intro rest heq
      cases heq
      exact hk' rfl) hs₁
    rw [eventsOf_other hk', eventsOf_append, replay_append, lastChange_append]
    refine ⟨hs₂, fun hcurrent => hcurrent₂ (.inl (hcurrent₁ (hcurrent.imp_right ?_)))⟩
    rintro (heq | ⟨rest, heq, -⟩) <;> cases heq

end

section
variable {κ : Type} [DecidableEq κ] {p : Platform} {cursors : κ → Cursor} {observers : List κ}
variable {allowed : Rule κ} {emitting : List κ}

theorem emit_quiet (k : κ) (s : Observing κ) : ∀ events : List (CursorEvent Value),
    ∃ log, Runs p cursors observers allowed emitting (.emit k events) s s log
  | [] => ⟨_, .emitted⟩
  | _ :: events => by
    obtain ⟨log, h⟩ := emit_quiet k s events
    exact ⟨_, .event .silent h⟩

theorem notify_quiet : ∀ {rest : List κ} {s : Observing κ},
    (∀ k ∈ rest, ∃ current, (cursors k).fetch p s.store.values = .ok current) →
      ∃ s' log, Runs p cursors observers allowed emitting (.notify rest) s s' log ∧ s'.store = s.store
  | [], s, _ => ⟨s, _, .told, rfl⟩
  | k :: rest, s, h => by
    obtain ⟨current, hfetch⟩ := h k List.mem_cons_self
    let i : Identity := .distinct
    obtain ⟨log, hemit⟩ := emit_quiet k s (diff (Cursor.idOf p) (sameDocument i) (s.previous k) current)
    obtain ⟨s', log', hrest, hstore⟩ := @notify_quiet rest (s.see k current)
      fun k' hk' => h k' (List.mem_cons_of_mem _ hk')
    cases hchanged : isChanged (Cursor.idOf p) (sameDocument i) (s.previous k) current with
    | false => exact ⟨s', _, .tell (.unchanged i hfetch hemit hchanged) hrest, hstore⟩
    | true => exact ⟨s', _, .tell (.changed i hfetch hemit hchanged .silent) hrest, hstore⟩

/-- **A call is one of these runs**, with the contents that `perform` leaves, if it does not fail
behind a write, the queries of the cursors do not throw and the listeners make no calls. -/
theorem runs_of_perform {s : Observing κ} {now : ℤ} {call : Call Value Value Value}
    (hkeyed : Keyed (localStoreRuntime p now) s.store)
    (hlate : ¬CallFailsLate (localStoreRuntime p now) s.store call)
    (hallowed : ∀ store', Leaves (localStoreRuntime p now) s.store call store' →
      allowed emitting call s.store store')
    (hfetch : ∀ store', Leaves (localStoreRuntime p now) s.store call store' → ∀ k ∈ observers,
      ∃ current, (cursors k).fetch p store'.values = .ok current) :
    ∃ s' log, Runs p cursors observers allowed emitting .call s s' log ∧
      s'.store = (perform (localStoreRuntime p now) [] s.store call).store := by
  have htold : Told (localStoreRuntime p now) [] s.store call _ := perform_told hkeyed hlate
  rcases htold with ⟨hsame, -⟩ | ⟨hleaves, -⟩
  · exact ⟨s, _, .refused, hsame.symm⟩
  · obtain ⟨s', log, hnotify, hstore⟩ := @notify_quiet κ _ p cursors observers allowed emitting
      observers { s with store := _ } (hfetch _ hleaves)
    exact ⟨s', _, .made hleaves (hallowed _ hleaves) .silent hnotify, hstore⟩

end

/-! ## A listener that inserts -/

/-- `{ _id: 'aaaaaaaaaaaaaaaaaaaaaaaa' }` -/
def documentA : Value := .obj [(js "_id", .str (js "aaaaaaaaaaaaaaaaaaaaaaaa"))]

/-- `{ _id: 'bbbbbbbbbbbbbbbbbbbbbbbb' }` -/
def documentB : Value := .obj [(js "_id", .str (js "bbbbbbbbbbbbbbbbbbbbbbbb"))]

def storeA : OMap (Option Text) Value := OMap.empty.set (some (js "aaaaaaaaaaaaaaaaaaaaaaaa")) documentA

def storeB : OMap (Option Text) Value := storeA.set (some (js "bbbbbbbbbbbbbbbbbbbbbbbb")) documentB

theorem leavesA : Leaves (localStoreRuntime .integral 0) .empty (.insert [] documentA) storeA := by
  have hprepare : prepareInsert (localStoreRuntime .integral 0) .empty []
      ((localStoreRuntime .integral 0).clone documentA) = .ok documentA := rfl
  exact .insert hprepare

theorem leavesB : Leaves (localStoreRuntime .integral 0) storeA (.insert [] documentB) storeB := by
  have hprepare : prepareInsert (localStoreRuntime .integral 0) storeA []
      ((localStoreRuntime .integral 0).clone documentB) = .ok documentB := rfl
  exact .insert hprepare

theorem fetch_all {c : Cursor} (hfind : find .integral (.obj []) noOptions = .ok c) :
    c.fetch .integral [] = .ok [] ∧ c.fetch .integral storeA.values = .ok [documentA] ∧
      c.fetch .integral storeB.values = .ok [documentA, documentB] := by
  have hfetch : (do (← find .integral (.obj []) noOptions).fetch .integral []) = .ok [] ∧
      (do (← find .integral (.obj []) noOptions).fetch .integral storeA.values) = .ok [documentA] ∧
      (do (← find .integral (.obj []) noOptions).fetch .integral storeB.values) =
        .ok [documentA, documentB] := ⟨rfl, rfl, rfl⟩
  rw [hfind] at hfetch
  exact hfetch

end TypeFerry.Minimongo.Reentrancy
