import TypeFerry.Minimongo.Output

/-! # Replaying the events of a cursor

A listener that folds the events of a cursor into the first result should have the
current result after every call. A run is a collection with a cursor on it, some
way into its life, and the calls made on it outside of listeners; other observers
are registered before and behind the cursor. -/
namespace TypeFerry.Minimongo.Replay
open TypeFerry.Lib.Numeral TypeFerry.Lib.JsonText TypeFerry.Lib.OrderedMap TypeFerry.Lib.Runs
open TypeFerry.Ejson.Clone TypeFerry.Minimongo.Values TypeFerry.Minimongo.Collection
open TypeFerry.Minimongo.Modifier TypeFerry.Minimongo.Atomicity TypeFerry.Minimongo.Cursors
open TypeFerry.Minimongo.Selection TypeFerry.Minimongo.Representation TypeFerry.Minimongo.Output
open TypeFerry.Minimongo.Diff TypeFerry.Minimongo.Plain

/-! ## Runs -/

/-- One call: the time it sees, the observers registered before and behind the cursor, which
objects are one, and what is called. -/
structure Mutation where
  now : ℤ
  earlier : List (OMap (Option Text) Value → Except Text Unit)
  later : List (OMap (Option Text) Value → Except Text Unit)
  identity : Identity
  call : Call Value Value Value

/-- A collection, the `previous` of a cursor on it and what a listener has made of its events. -/
structure Watched where
  store : OMap (Option Text) Value
  previous : List Value
  view : OMap Text Value

section
variable (p : Platform) (c : Cursor)

/-- The observer of the cursor throws where its query does. -/
def observer (store : OMap (Option Text) Value) : Except Text Unit :=
  (c.fetch p store.values).map fun _ => ()

/-- What the call does to the collection. -/
def outcome (s : Watched) (m : Mutation) : Outcome Value (Option Text) ℕ :=
  perform (localStoreRuntime p m.now) (m.earlier ++ observer p c :: m.later) s.store m.call

/-- What the call makes of `previous` and the events the cursor emits in it. -/
def observed (s : Watched) (m : Mutation) : List Value × List (CursorEvent Value) :=
  if m.earlier.length < (outcome p c s m).notified then
    match c.handleMutation p m.identity s.previous (outcome p c s m).store.values with
    | .ok handled => handled
    | .error _ => (s.previous, [])
  else (s.previous, [])

def mutate (s : Watched) (m : Mutation) : Watched :=
  ⟨(outcome p c s m).store, (observed p c s m).1,
    replay (Cursor.idOf p) s.view (observed p c s m).2⟩

/-- The run from the first listener on, when `result` was fetched. -/
def watching (store : OMap (Option Text) Value) (result : List Value) : Machine Watched Mutation where
  init := ⟨store, result, viewOf (Cursor.idOf p) result⟩
  step s m := some (mutate p c s m)

/-! ## What is promised -/

/-- The view has the documents of the result and no others, each of them once. -/
structure Replayed (view : OMap Text Value) (result : List Value) : Prop where
  has : ∀ d ∈ result, ∃ d', view.get (Cursor.idOf p d) = some d' ∧ Equivalent d' d
  only : ∀ id d', view.get id = some d' → ∃ d ∈ result, Cursor.idOf p d = id ∧ Equivalent d' d
  distinct : Distinct (Cursor.idOf p) result

/-- The events of a call have the positions of their documents, and `change` is among them
with the new result exactly when the two results differ. -/
structure Announced (old new : List Value) (events : List (CursorEvent Value)) : Prop where
  indexed : ∀ event ∈ events, Indexed (Cursor.idOf p) old new event
  change : (∃ documents, .change documents ∈ events) ↔ ¬List.Forall₂ Equivalent old new

/-! ## What it takes -/

/-- A call after which the events can be replayed: it stays within plain values, it does not rename
a field onto the `_id` and does not fail behind a write, no observer before the cursor throws on what it leaves, the
cursor keeps the `_id` or has one document at most, and a document with an invalid date that is
in both results is the same object in both. -/
structure MutationOk (options : FindOptions) (s : Watched) (m : Mutation) : Prop where
  plain : callPlain p m.now s.store m.call
  keepsId : ModifiedBy ModifierKeepsId m.call
  onTime : ¬CallFailsLate (localStoreRuntime p m.now) s.store m.call
  told : ∀ store', Leaves (localStoreRuntime p m.now) s.store m.call store' →
    Observed m.earlier store'
  ids : ∀ store', Leaves (localStoreRuntime p m.now) s.store m.call store' →
    idProjection options.projection = true ∨ Single p c store'.values
  comparable : ∀ store' old new, Leaves (localStoreRuntime p m.now) s.store m.call store' →
    c.fetch p s.store.values = .ok old → c.fetch p store'.values = .ok new →
    ∀ d ∈ old, d ∈ new → sameDocument m.identity d d = true

end

/-! ## One call -/

theorem lt_notified {o : OMap (Option Text) Value → Except Text Unit}
    {later : List (OMap (Option Text) Value → Except Text Unit)} {store : OMap (Option Text) Value} :
    ∀ {earlier : List (OMap (Option Text) Value → Except Text Unit)}, Observed earlier store →
      earlier.length < (notifyObservers (earlier ++ o :: later) store).1
  | [], _ => by
    rw [List.nil_append, notifyObservers]
    split
    · exact Nat.one_pos
    · exact Nat.succ_pos _
  | first :: earlier, h => by
    have hfirst := h first List.mem_cons_self
    rw [List.cons_append, notifyObservers, hfirst, List.length_cons]
    exact Nat.succ_lt_succ (lt_notified fun o ho => h o (List.mem_cons_of_mem _ ho))

section
variable {p : Platform} {selector : Value} {options : FindOptions} {c : Cursor}
variable {s : Watched} {m : Mutation}

/-- **What a call comes to**: it does nothing, or the cursor is told of what it leaves. -/
theorem mutate_cases (hstore : Identified s.store) (hok : MutationOk p c options s m) :
    (outcome p c s m).store = s.store ∧ observed p c s m = (s.previous, []) ∨
    Leaves (localStoreRuntime p m.now) s.store m.call (outcome p c s m).store ∧
      ((∃ e, c.fetch p (outcome p c s m).store.values = .error e) ∧
          observed p c s m = (s.previous, []) ∨
        ∃ current, c.fetch p (outcome p c s m).store.values = .ok current ∧
          observed p c s m = (current, mutationEvents (Cursor.idOf p) (sameDocument m.identity)
            s.previous current)) := by
  have htold : Told _ (m.earlier ++ observer p c :: m.later) s.store m.call _ :=
    perform_told (Identified.keyed hstore p m.now) hok.onTime
  rcases htold with ⟨hsame, hnone⟩ | ⟨hleaves, hnotified⟩
  · refine .inl ⟨hsame, ?_⟩
    unfold observed outcome
    rw [hnone, if_neg (Nat.not_lt_zero _)]
  · refine .inr ⟨hleaves, ?_⟩
    have hlt : m.earlier.length < (outcome p c s m).notified := by
      unfold outcome
      rw [hnotified]
      exact lt_notified (hok.told _ hleaves)
    unfold observed Cursor.handleMutation
    rw [if_pos hlt]
    cases hfetch : c.fetch p (outcome p c s m).store.values with
    | error e => exact .inl ⟨⟨e, rfl⟩, rfl⟩
    | ok current => exact .inr ⟨current, rfl, rfl⟩

/-- The cursor has what it last saw, and the listener has made the same of the events. -/
structure Follows (p : Platform) (c : Cursor) (options : FindOptions) (s : Watched) : Prop where
  identified : Identified s.store
  ids : idProjection options.projection = true ∨ Single p c s.store.values
  coherent : ∀ result, c.fetch p s.store.values = .ok result → s.previous = result
  stands : ∀ id, Stands Equivalent (Cursor.idOf p) s.previous s.view id

/-- `change` does nothing to the view. -/
theorem replay_mutationEvents {O : Type} {idOf : O → Text} {same : O → O → Bool} {old new : List O}
    (view : OMap Text O) :
    replay idOf view (mutationEvents idOf same old new) = replay idOf view (diff idOf same old new) := by
  unfold mutationEvents replay
  rw [List.foldl_append]
  split <;> rfl

/-- The step lemma. -/
theorem follows_mutate (hs : Follows p c options s) (hok : MutationOk p c options s m) :
    Follows p c options (mutate p c s m) := by
  have hidentified : Identified (outcome p c s m).store :=
    holds_perform (kept_hasId p) hok.keepsId hs.identified
  rcases mutate_cases hs.identified hok with ⟨hstore, hobserved⟩ | ⟨hleaves, hfetch⟩
  · unfold mutate
    rw [hstore, hobserved]
    exact ⟨hs.identified, hs.ids, hs.coherent, hs.stands⟩
  · rcases hfetch with ⟨⟨e, hfetch⟩, hobserved⟩ | ⟨current, hfetch, hobserved⟩
    · refine ⟨hidentified, hok.ids _ hleaves, fun result hresult => ?_, fun id => ?_⟩
      · rw [mutate, hfetch] at hresult
        cases hresult
      · rw [mutate, hobserved]
        exact hs.stands id
    · refine ⟨hidentified, hok.ids _ hleaves, fun result hresult => ?_, fun id => ?_⟩
      · rw [mutate, hfetch] at hresult
        rw [mutate, hobserved]
        exact Except.ok.inj hresult
      · rw [mutate, hobserved]
        dsimp only
        rw [replay_mutationEvents]
        exact stands_diff Equivalent.refl Equivalent.trans equivalent_of_same (hs.stands id)

/-! ## What the events say -/

theorem change_mem_mutationEvents {O : Type} {idOf : O → Text} {same : O → O → Bool} {old new : List O} :
    (∃ documents, .change documents ∈ mutationEvents idOf same old new) ↔
      isChanged idOf same old new = true := by
  unfold mutationEvents
  constructor
  · rintro ⟨documents, hmem⟩
    rcases List.mem_append.mp hmem with hmem | hmem
    · rcases mem_diff hmem with ⟨e, -, -, heq⟩ | ⟨e, -, -, heq⟩ | ⟨previous, e, -, -, -, heq⟩ <;>
        cases heq
    · by_contra hnot
      rw [if_neg hnot] at hmem
      cases hmem
  · intro hchanged
    rw [if_pos hchanged]
    exact ⟨new, List.mem_append_right _ List.mem_cons_self⟩

theorem mutationEvents_indexed {O : Type} {idOf : O → Text} {same : O → O → Bool} {old new : List O}
    {event : CursorEvent O} (h : event ∈ mutationEvents idOf same old new) :
    Indexed idOf old new event := by
  rcases List.mem_append.mp h with h | h
  · exact diff_indexed h
  · split at h
    · cases List.mem_singleton.mp h
      rfl
    · cases h

theorem forall₂_of_mem {α β : Type} {R S : α → β → Prop} {xs : List α} {ys : List β}
    (h : List.Forall₂ R xs ys) (himp : ∀ a ∈ xs, ∀ b ∈ ys, R a b → S a b) : List.Forall₂ S xs ys := by
  induction h with
  | nil => exact .nil
  | cons hR _ ih =>
    refine .cons (himp _ List.mem_cons_self _ List.mem_cons_self hR) (ih fun a ha b hb => ?_)
    exact himp a (List.mem_cons_of_mem _ ha) b (List.mem_cons_of_mem _ hb)

/-- **`change` is emitted exactly when the result differs**, where equal outputs have one id
and the outputs that stay are recognised. -/
theorem isChanged_iff {i : Identity} {old new : List Value} (hold : Distinct (Cursor.idOf p) old)
    (hnew : Distinct (Cursor.idOf p) new)
    (hids : ∀ a ∈ old, ∀ b ∈ new, equalValues false a b = true → Cursor.idOf p a = Cursor.idOf p b)
    (hstay : ∀ d ∈ old, d ∈ new → sameDocument i d d = true) :
    isChanged (Cursor.idOf p) (sameDocument i) old new = true ↔ ¬List.Forall₂ Equivalent old new := by
  constructor
  · intro hchanged hequal
    have hsame : List.Forall₂ (fun a b => sameDocument i a b = true) old new := by
      refine forall₂_of_mem hequal fun a ha b hb hab => ?_
      rcases hab with rfl | hab
      · exact hstay a ha hb
      · exact Bool.or_eq_true_iff.mpr (.inr hab)
    have hid : List.Forall₂ (fun a b => Cursor.idOf p a = Cursor.idOf p b) old new := by
      refine forall₂_of_mem hequal fun a ha b hb hab => ?_
      rcases hab with rfl | hab
      · rfl
      · exact hids a ha b hb hab
    rw [not_changed_of_forall₂ hold hnew hid hsame] at hchanged
    cases hchanged
  · intro hdiffers
    by_contra hnot
    refine hdiffers ?_
    have hsame := forall₂_of_not_changed hold hnew (Bool.eq_false_iff.mpr hnot)
    exact hsame.imp equivalent_of_same

theorem Follows.announced (hfind : find p selector options = .ok c) (hs : Follows p c options s)
    (hok : MutationOk p c options s m) {old new : List Value}
    (hold : c.fetch p s.store.values = .ok old)
    (hnew : c.fetch p (mutate p c s m).store.values = .ok new) :
    Announced p old new (observed p c s m).2 := by
  have hprevious := hs.coherent old hold
  have hs' := follows_mutate hs hok
  rcases mutate_cases hs.identified hok with ⟨hstore, hobserved⟩ | ⟨hleaves, hfetch⟩
  · rw [mutate, hstore, hold] at hnew
    cases hnew
    rw [hobserved]
    refine ⟨fun event hevent => absurd hevent List.not_mem_nil, iff_of_false ?_ (not_not_intro ?_)⟩
    · rintro ⟨documents, hmem⟩
      cases hmem
    · exact List.forall₂_same.mpr fun d _ => Equivalent.refl d
  · rcases hfetch with ⟨⟨e, hfetch⟩, -⟩ | ⟨current, hfetch, hobserved⟩
    · rw [mutate, hfetch] at hnew
      cases hnew
    · have hcurrent := hnew
      rw [mutate, hfetch] at hcurrent
      cases hcurrent
      rw [hobserved, hprevious]
      refine ⟨fun event hevent => mutationEvents_indexed hevent, ?_⟩
      rw [change_mem_mutationEvents]
      refine isChanged_iff (fetch_distinct hs.identified hfind hs.ids hold)
        (fetch_distinct hs'.identified hfind hs'.ids hnew) ?_ ?_
      · intro a ha b hb hab
        exact idOf_of_equalValues hs.identified hs'.identified hfind hold hnew ha hb hab
      · exact hok.comparable _ old _ hleaves hold hfetch

theorem replayed_of_stands {view : OMap Text Value} {result : List Value}
    (hdistinct : Distinct (Cursor.idOf p) result)
    (hstands : ∀ id, Stands Equivalent (Cursor.idOf p) result view id) : Replayed p view result := by
  refine ⟨fun d hd => ?_, fun id d' hview => ?_, hdistinct⟩
  · obtain ⟨i, hi⟩ := List.getElem?_of_mem hd
    have hd' := hstands (Cursor.idOf p d)
    rw [Stands, byId_of_getElem? hdistinct hi] at hd'
    cases hview : view.get (Cursor.idOf p d) with
    | none =>
      rw [hview] at hd'
      cases hd'
    | some d' =>
      rw [hview] at hd'
      cases hd' with
      | some hR => exact ⟨d', rfl, hR⟩
  · have hd' := hstands id
    rw [Stands, hview] at hd'
    cases hget : (byId (Cursor.idOf p) result).get id with
    | none =>
      rw [hget] at hd'
      cases hd'
    | some entry =>
      rw [hget] at hd'
      obtain ⟨hentry, hid⟩ := getElem?_of_byId hget
      cases hd' with
      | some hR => exact ⟨entry.1, List.mem_of_getElem? hentry, hid, hR⟩

theorem Follows.replayed (hfind : find p selector options = .ok c) (hs : Follows p c options s)
    {result : List Value} (h : c.fetch p s.store.values = .ok result) : Replayed p s.view result := by
  have hstands := hs.stands
  rw [hs.coherent result h] at hstands
  exact replayed_of_stands (fetch_distinct hs.identified hfind hs.ids h) hstands

end

/-- The calls that stay within plain values and rename nothing onto the `_id`. -/
def KeepsId (p : Platform) (store : OMap (Option Text) Value) (a : Representation.Action) : Prop :=
  ModifiedBy ModifierKeepsId a.call ∧ callPlain p a.now store a.call

theorem identified_of_reach {p : Platform} {store : OMap (Option Text) Value}
    (h : (Representation.machine p).Reach (KeepsId p) store) : Identified store := by
  refine h.invariant Identified (fun e he => absurd he List.not_mem_nil) ?_
  intro s a s' hs hcall hstep
  cases hstep
  exact holds_perform (kept_hasId p) hcall.1 hs

/-- An insert of `{ _id, n }`, with no other observers. -/
def insertNumber (id : String) (n : ℤ) : Mutation where
  now := 0
  earlier := []
  later := []
  identity := .distinct
  call := .insert [] (.obj [(js "_id", .str (js id)), (js "n", .num (.finite (ofInt n)))])

/-- `{ projection: { _id: 0 } }` -/
def droppingId : FindOptions := ⟨none, none, none, [(js "_id", .num (.finite (ofInt 0)))]⟩

/-- One of the fetched documents differs, in its `n` too, from everything in the view. -/
def loses (c : Cursor) (s : Watched) : Bool := match c.fetch .integral s.store.values with
  | .ok current => current.any fun d => s.view.entries.all fun e =>
      decide (nOf e.2 ≠ nOf d) && !equalValues false e.2 d
  | .error _ => false

end TypeFerry.Minimongo.Replay
