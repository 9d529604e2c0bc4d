import Mathlib.Data.Option.Basic
import Mathlib.Data.List.Forall2
import TypeFerry.Minimongo.Cursors

/-! # What the events of a cursor tell

`handleMutation` compares two results by the ids of their documents. Every event
it emits says what the new result has under one id, and every id under which the
two differ has an event; so events may be lost on a view only if they are not
delivered, and delivering one twice does no harm. For the list itself the ids
have to be distinct. -/
namespace TypeFerry.Minimongo.Diff
open TypeFerry.Lib.Numeral TypeFerry.Lib.OrderedMap TypeFerry.Minimongo.Cursors

section
variable {O : Type} {idOf : O → Text} {same : O → O → Bool} {old new : List O}

/-! ## Results by id -/

/-- No two documents of a result have one id. -/
def Distinct (idOf : O → Text) (documents : List O) : Prop := (documents.map idOf).Nodup

theorem getElem?_of_byId {documents : List O} {id : Text} {entry : O × ℕ}
    (h : (byId idOf documents).get id = some entry) :
    documents[entry.2]? = some entry.1 ∧ idOf entry.1 = id := by
  rcases OMap.mem_of_get_setAll h with h | h
  · obtain ⟨p, hp, heq⟩ := List.mem_map.mp h
    cases heq
    exact ⟨List.mem_zipIdx_iff_getElem?.mp hp, rfl⟩
  · cases h

theorem byId_of_getElem? {documents : List O} {d : O} {i : ℕ} (hdistinct : Distinct idOf documents)
    (h : documents[i]? = some d) : (byId idOf documents).get (idOf d) = some (d, i) := by
  have hkeys : (documents.zipIdx.map fun p => (idOf p.1, p)).map Prod.fst = documents.map idOf := by
    have hcomp : (Prod.fst ∘ fun p : O × ℕ => (idOf p.1, p)) = idOf ∘ Prod.fst := rfl
    rw [List.map_map, hcomp, ← List.map_map, List.zipIdx_map_fst]
  refine OMap.get_setAll_of_mem _ (hkeys ▸ hdistinct) (List.mem_map.mpr ⟨(d, i), ?_, rfl⟩)
  exact List.mem_zipIdx_iff_getElem?.mpr h

/-! ## Replaying events -/

/-- The id that an event is about. -/
def subject (idOf : O → Text) : CursorEvent O → Option Text
  | .added d _ | .changed _ d _ _ | .removed d _ => some (idOf d)
  | .change _ => none

/-- A view of the result, by id, after an event. -/
def apply (idOf : O → Text) (view : OMap Text O) : CursorEvent O → OMap Text O
  | .added d _ | .changed _ d _ _ => view.set (idOf d) d
  | .removed d _ => view.delete (idOf d)
  | .change _ => view

/-- Events in the order of their emission, folded into a view. -/
def replay (idOf : O → Text) (view : OMap Text O) (events : List (CursorEvent O)) : OMap Text O :=
  events.foldl (apply idOf) view

/-- The documents of a result as a view. -/
def viewOf (idOf : O → Text) (documents : List O) : OMap Text O :=
  OMap.empty.setAll (documents.map fun d => (idOf d, d))

/-- An event says what a result has under its id, or is the result. -/
def Tells (idOf : O → Text) (result : List O) : CursorEvent O → Prop
  | .added d i | .changed _ d _ i => (byId idOf result).get (idOf d) = some (d, i)
  | .removed d _ => (byId idOf result).get (idOf d) = none
  | .change documents => documents = result

/-- The index fields of an event are positions in the two results. -/
def Indexed (idOf : O → Text) (old new : List O) : CursorEvent O → Prop
  | .added d i => new[i]? = some d
  | .changed previous d j i => old[j]? = some previous ∧ new[i]? = some d ∧ idOf previous = idOf d
  | .removed d j => old[j]? = some d
  | .change documents => documents = new

theorem entryEvent_eq_some {previousById : OMap Text (O × ℕ)} {id : Text} {entry : O × ℕ}
    {event : CursorEvent O} (h : entryEvent same previousById id entry = some event) :
    previousById.get id = none ∧ event = .added entry.1 entry.2 ∨
      ∃ previous, previousById.get id = some previous ∧ same previous.1 entry.1 = false ∧
        event = .changed previous.1 entry.1 previous.2 entry.2 := by
  unfold entryEvent at h
  cases hget : previousById.get id with
  | none =>
    rw [hget] at h
    exact .inl ⟨rfl, (Option.some.inj h).symm⟩
  | some previous =>
    rw [hget] at h
    dsimp only at h
    split at h
    · cases h
    · next hsame =>
      exact .inr ⟨previous, rfl, Bool.eq_false_iff.mpr hsame, (Option.some.inj h).symm⟩

/-- **What is in the difference of two results**: a document that only the old one has, one
that only the new one has, or one that both have and that is not the same. -/
theorem mem_diff {event : CursorEvent O} (h : event ∈ diff idOf same old new) :
    (∃ e, (byId idOf old).get (idOf e.1) = some e ∧ (byId idOf new).get (idOf e.1) = none ∧
      event = .removed e.1 e.2) ∨
    (∃ e, (byId idOf new).get (idOf e.1) = some e ∧ (byId idOf old).get (idOf e.1) = none ∧
      event = .added e.1 e.2) ∨
    ∃ previous e, (byId idOf new).get (idOf e.1) = some e ∧
      (byId idOf old).get (idOf e.1) = some previous ∧ same previous.1 e.1 = false ∧
      event = .changed previous.1 e.1 previous.2 e.2 := by
  rcases List.mem_append.mp h with h | h
  · obtain ⟨⟨id, e⟩, he, h⟩ := List.mem_filterMap.mp h
    have hget := OMap.get_eq_some.mpr he
    obtain ⟨-, rfl⟩ := getElem?_of_byId hget
    split at h
    · cases h
    · next hnone =>
      exact .inl ⟨e, hget, by simpa using hnone, (Option.some.inj h).symm⟩
  · obtain ⟨⟨id, e⟩, he, h⟩ := List.mem_filterMap.mp h
    have hget := OMap.get_eq_some.mpr he
    obtain ⟨-, rfl⟩ := getElem?_of_byId hget
    rcases entryEvent_eq_some h with ⟨hnone, heq⟩ | ⟨previous, hprevious, hsame, heq⟩
    · exact .inr (.inl ⟨e, hget, hnone, heq⟩)
    · exact .inr (.inr ⟨previous, e, hget, hprevious, hsame, heq⟩)

theorem diff_tells {event : CursorEvent O} (h : event ∈ diff idOf same old new) :
    Tells idOf new event := by
  rcases mem_diff h with ⟨e, -, hnew, rfl⟩ | ⟨e, hnew, -, rfl⟩ | ⟨previous, e, hnew, -, -, rfl⟩
  · exact hnew
  · exact hnew
  · exact hnew

theorem diff_indexed {event : CursorEvent O} (h : event ∈ diff idOf same old new) :
    Indexed idOf old new event := by
  rcases mem_diff h with ⟨e, hold, -, rfl⟩ | ⟨e, hnew, -, rfl⟩ | ⟨previous, e, hnew, hold, -, rfl⟩
  · exact (getElem?_of_byId hold).1
  · exact (getElem?_of_byId hnew).1
  · obtain ⟨hget, hid⟩ := getElem?_of_byId hold
    exact ⟨hget, (getElem?_of_byId hnew).1, hid⟩

theorem removed_mem_diff {id : Text} {e : O × ℕ} (hold : (byId idOf old).get id = some e)
    (hnew : (byId idOf new).get id = none) : .removed e.1 e.2 ∈ diff idOf same old new := by
  refine List.mem_append_left _ (List.mem_filterMap.mpr ⟨(id, e), OMap.get_eq_some.mp hold, ?_⟩)
  dsimp only
  rw [hnew]
  rfl

theorem added_mem_diff {id : Text} {e : O × ℕ} (hnew : (byId idOf new).get id = some e)
    (hold : (byId idOf old).get id = none) : .added e.1 e.2 ∈ diff idOf same old new := by
  refine List.mem_append_right _ (List.mem_filterMap.mpr ⟨(id, e), OMap.get_eq_some.mp hnew, ?_⟩)
  rw [entryEvent, hold]

theorem changed_mem_diff {id : Text} {previous e : O × ℕ} (hnew : (byId idOf new).get id = some e)
    (hold : (byId idOf old).get id = some previous) (hsame : same previous.1 e.1 = false) :
    .changed previous.1 e.1 previous.2 e.2 ∈ diff idOf same old new := by
  refine List.mem_append_right _ (List.mem_filterMap.mpr ⟨(id, e), OMap.get_eq_some.mp hnew, ?_⟩)
  rw [entryEvent, hold]
  dsimp only
  rw [hsame]
  rfl

end

/-! ## Views that follow a result -/

section
variable {O : Type} {idOf : O → Text} {same : O → O → Bool} {old new : List O}
variable {R : O → O → Prop}

/-- Under the id a view has what the result has, up to `R`. -/
def Stands (R : O → O → Prop) (idOf : O → Text) (result : List O) (view : OMap Text O) (id : Text) :
    Prop :=
  Option.Rel (fun d (entry : O × ℕ) => R d entry.1) (view.get id) ((byId idOf result).get id)

theorem stands_viewOf (hrefl : ∀ d, R d d) {documents : List O} (h : Distinct idOf documents) (id : Text) :
    Stands R idOf documents (viewOf idOf documents) id := by
  have hkeys : (documents.map fun d => (idOf d, d)).map Prod.fst = documents.map idOf := by
    rw [List.map_map]
    rfl
  unfold Stands
  cases hget : (byId idOf documents).get id with
  | some entry =>
    obtain ⟨hentry, rfl⟩ := getElem?_of_byId hget
    have hview : (viewOf idOf documents).get (idOf entry.1) = some entry.1 :=
      OMap.get_setAll_of_mem _ (hkeys ▸ h)
        (List.mem_map.mpr ⟨entry.1, List.mem_of_getElem? hentry, rfl⟩)
    rw [hview]
    exact .some (hrefl _)
  | none =>
    cases hview : (viewOf idOf documents).get id with
    | none => exact .none
    | some d =>
      rcases OMap.mem_of_get_setAll hview with hmem | hmem
      · obtain ⟨d', hd', heq⟩ := List.mem_map.mp hmem
        cases heq
        obtain ⟨i, hi⟩ := List.getElem?_of_mem hd'
        rw [byId_of_getElem? h hi] at hget
        cases hget
      · cases hmem

/-- **An event sets its own id right** and touches no other. -/
theorem stands_apply (hrefl : ∀ d, R d d) {result : List O} {view : OMap Text O} {id : Text}
    {event : CursorEvent O} (htells : Tells idOf result event)
    (h : subject idOf event = some id ∨ Stands R idOf result view id) :
    Stands R idOf result (apply idOf view event) id := by
  have hset : ∀ {d : O} {i : ℕ}, (byId idOf result).get (idOf d) = some (d, i) →
      (some (idOf d) = some id ∨ Stands R idOf result view id) →
      Stands R idOf result (view.set (idOf d) d) id := by
    intro d i hd h
    unfold Stands
    rw [OMap.get_set]
    by_cases hid : id = idOf d
    · rw [if_pos hid, hid, hd]
      exact .some (hrefl d)
    · rw [if_neg hid]
      exact h.resolve_left fun heq => hid (Option.some.inj heq).symm
  cases event with
  | added d i => exact hset htells h
  | changed previous d j i => exact hset htells h
  | removed d i =>
    unfold Stands
    rw [apply, OMap.get_delete]
    by_cases hid : id = idOf d
    · rw [if_pos hid, hid, show (byId idOf result).get (idOf d) = none from htells]
      exact .none
    · rw [if_neg hid]
      exact h.resolve_left fun heq => hid (Option.some.inj heq).symm
  | change documents => exact h.resolve_left fun heq => nomatch heq

theorem stands_replay (hrefl : ∀ d, R d d) {result : List O} {id : Text} :
    ∀ {events : List (CursorEvent O)} {view : OMap Text O}, (∀ event ∈ events, Tells idOf result event) →
      (Stands R idOf result view id ∨ ∃ event ∈ events, subject idOf event = some id) →
      Stands R idOf result (replay idOf view events) id
  | [], _, _, h => by
    rcases h with h | ⟨event, hevent, -⟩
    · exact h
    · cases hevent
  | event :: events, view, htells, h => by
    rw [replay, List.foldl_cons, ← replay]
    refine stands_replay hrefl (fun e he => htells e (List.mem_cons_of_mem _ he)) ?_
    have htold := htells event List.mem_cons_self
    rcases h with h | ⟨e, he, hid⟩
    · exact .inl (stands_apply hrefl htold (.inr h))
    · rcases List.mem_cons.mp he with rfl | he
      · exact .inl (stands_apply hrefl htold (.inl hid))
      · exact .inr ⟨e, he, hid⟩

/-- **An id without an event is right already**, if it was right for the old result. -/
theorem stands_or_subject (htrans : ∀ a b c, R a b → R b c → R a c)
    (hsame : ∀ a b, same a b = true → R a b) {view : OMap Text O} {id : Text}
    (h : Stands R idOf old view id) :
    Stands R idOf new view id ∨ ∃ event ∈ diff idOf same old new, subject idOf event = some id := by
  unfold Stands at h ⊢
  cases hnew : (byId idOf new).get id with
  | none =>
    cases hold : (byId idOf old).get id with
    | none =>
      rw [hold] at h
      exact .inl h
    | some e =>
      refine .inr ⟨_, removed_mem_diff hold hnew, ?_⟩
      rw [subject, (getElem?_of_byId hold).2]
  | some e =>
    have hid := (getElem?_of_byId hnew).2
    cases hold : (byId idOf old).get id with
    | none =>
      refine .inr ⟨_, added_mem_diff hnew hold, ?_⟩
      rw [subject, hid]
    | some previous =>
      cases hcompare : same previous.1 e.1 with
      | false =>
        refine .inr ⟨_, changed_mem_diff hnew hold hcompare, ?_⟩
        rw [subject, hid]
      | true =>
        rw [hold] at h
        cases hview : view.get id with
        | none =>
          rw [hview] at h
          cases h
        | some d =>
          rw [hview] at h
          cases h with
          | some hR => exact .inl (.some (htrans _ _ _ hR (hsame _ _ hcompare)))

/-- **The view follows the result** through the events of the difference. -/
theorem stands_diff (hrefl : ∀ d, R d d) (htrans : ∀ a b c, R a b → R b c → R a c)
    (hsame : ∀ a b, same a b = true → R a b) {view : OMap Text O} {id : Text}
    (h : Stands R idOf old view id) :
    Stands R idOf new (replay idOf view (diff idOf same old new)) id :=
  stands_replay hrefl (fun _ hevent => diff_tells hevent) (stands_or_subject htrans hsame h)

/-! ## The order of the results -/

theorem forall₂_of_getElem? : ∀ {xs ys : List O}, (∀ i : ℕ, Option.Rel R xs[i]? ys[i]?) →
    List.Forall₂ R xs ys
  | [], [], _ => .nil
  | [], y :: ys, h => by cases h 0
  | x :: xs, [], h => by cases h 0
  | x :: xs, y :: ys, h => by
    have hhead : Option.Rel R (some x) (some y) := h 0
    cases hhead with
    | some hR => exact .cons hR (forall₂_of_getElem? fun i => h (i + 1))

/-- What is not changed has the same documents in the same places. -/
theorem forall₂_of_not_changed (hold : Distinct idOf old) (hnew : Distinct idOf new)
    (h : isChanged idOf same old new = false) :
    List.Forall₂ (fun a b => same a b = true) old new := by
  obtain ⟨hempty, hmoved⟩ := Bool.or_eq_false_iff.mp h
  have hnil : diff idOf same old new = [] := by simpa using hempty
  have hnone : ∀ event, event ∉ diff idOf same old new := by
    rw [hnil]
    exact fun event => List.not_mem_nil
  -- A document that stays has its old place.
  have hplace : ∀ {d : O} {i : ℕ}, new[i]? = some d → ∃ x, old[i]? = some x ∧ idOf x = idOf d ∧
      same x d = true := by
    intro d i hd
    have hentry := byId_of_getElem? hnew hd
    cases hget : (byId idOf old).get (idOf d) with
    | none => exact absurd (added_mem_diff hentry hget) (hnone _)
    | some e =>
      obtain ⟨he, hid⟩ := getElem?_of_byId hget
      have hindex : e.2 = i := by
        have hany := List.any_eq_false.mp hmoved (idOf d, d, i) (OMap.get_eq_some.mp hentry)
        rw [hget] at hany
        by_contra hne
        exact hany (decide_eq_true hne)
      cases hcompare : same e.1 d with
      | false => exact absurd (changed_mem_diff hentry hget hcompare) (hnone _)
      | true => exact ⟨e.1, hindex ▸ he, hid, hcompare⟩
  refine forall₂_of_getElem? fun i => ?_
  cases hd : new[i]? with
  | some d =>
    obtain ⟨x, hx, -, hcompare⟩ := hplace hd
    rw [hx]
    exact .some hcompare
  | none =>
    cases hx : old[i]? with
    | none => exact .none
    | some x =>
      have hentry := byId_of_getElem? hold hx
      cases hget : (byId idOf new).get (idOf x) with
      | none => exact absurd (removed_mem_diff hentry hget) (hnone _)
      | some e =>
        obtain ⟨he, hid⟩ := getElem?_of_byId hget
        obtain ⟨y, hy, hyid, -⟩ := hplace he
        have hsame := byId_of_getElem? hold hy
        rw [hyid, hid, hentry] at hsame
        cases hsame
        rw [hd] at he
        cases he

/-- Two results with the same documents in the same places are not changed. -/
theorem not_changed_of_forall₂ (hold : Distinct idOf old) (hnew : Distinct idOf new)
    (hids : List.Forall₂ (fun a b => idOf a = idOf b) old new)
    (h : List.Forall₂ (fun a b => same a b = true) old new) : isChanged idOf same old new = false := by
  have hlength := h.length_eq
  have hpair : ∀ {e previous : O × ℕ}, (byId idOf new).get (idOf e.1) = some e →
      (byId idOf old).get (idOf e.1) = some previous →
      previous.2 = e.2 ∧ same previous.1 e.1 = true := by
    intro e previous hnew' hold'
    obtain ⟨he, -⟩ := getElem?_of_byId hnew'
    obtain ⟨hi, he'⟩ := List.getElem?_eq_some_iff.mp he
    have hi' : e.2 < old.length := hlength ▸ hi
    have hid : idOf old[e.2] = idOf e.1 := by
      rw [← he']
      exact hids.get hi' hi
    have hentry := byId_of_getElem? hold (List.getElem?_eq_getElem hi')
    rw [hid, hold'] at hentry
    cases hentry
    refine ⟨rfl, ?_⟩
    rw [← he']
    exact h.get hi' hi
  have hboth : ∀ id, (byId idOf old).get id = none ↔ (byId idOf new).get id = none := by
    have hmem : old.map idOf = new.map idOf := by
      clear hlength hpair h hold hnew
      induction hids with
      | nil => rfl
      | cons hid _ ih => rw [List.map_cons, List.map_cons, hid, ih]
    have hkeys : ∀ {documents : List O}, Distinct idOf documents → ∀ id,
        (byId idOf documents).get id = none ↔ id ∉ documents.map idOf := by
      intro documents hdistinct id
      constructor
      · intro hget hmem
        obtain ⟨d, hd, rfl⟩ := List.mem_map.mp hmem
        obtain ⟨i, hi⟩ := List.getElem?_of_mem hd
        rw [byId_of_getElem? hdistinct hi] at hget
        cases hget
      · intro hnot
        cases hget : (byId idOf documents).get id with
        | none => rfl
        | some e =>
          obtain ⟨he, rfl⟩ := getElem?_of_byId hget
          exact absurd (List.mem_map_of_mem (List.mem_of_getElem? he)) hnot
    intro id
    rw [hkeys hold, hkeys hnew, hmem]
  refine Bool.or_eq_false_iff.mpr ⟨?_, ?_⟩
  · have hempty : diff idOf same old new = [] := by
      refine List.eq_nil_iff_forall_not_mem.mpr fun event hevent => ?_
      rcases mem_diff hevent with ⟨e, hold', hnew', -⟩ | ⟨e, hnew', hold', -⟩ |
        ⟨previous, e, hnew', hold', hdiffers, -⟩
      · rw [(hboth _).mpr hnew'] at hold'
        cases hold'
      · rw [(hboth _).mp hold'] at hnew'
        cases hnew'
      · rw [(hpair hnew' hold').2] at hdiffers
        cases hdiffers
    rw [hempty]
    rfl
  · refine List.any_eq_false.mpr fun e he hany => ?_
    have hnew' := OMap.get_eq_some.mpr he
    obtain ⟨-, hid⟩ := getElem?_of_byId hnew'
    obtain ⟨previous, hold', hmoved⟩ := (Option.any_eq_true _ _).mp hany
    rw [← hid] at hnew' hold'
    exact of_decide_eq_true hmoved (hpair hnew' hold').1

end

end TypeFerry.Minimongo.Diff
