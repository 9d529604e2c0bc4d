import TypeFerry.Lib.Runs
import TypeFerry.Minimongo.Atomicity
import TypeFerry.Minimongo.Names
import TypeFerry.Minimongo.Plain

/-! # What is in the store

Every document of a collection should have valid field names and lie under its
own `_id`. Insertions check both, and the names of updates are followed through
their operators in `Names`. Here is what an update does to the members of the
document itself, its `_id` among them, and from both what every call keeps. -/
namespace TypeFerry.Minimongo.Representation
open TypeFerry.Lib.Numeral TypeFerry.Lib.JsonText TypeFerry.Lib.OrderedMap TypeFerry.Lib.Runs
open TypeFerry.Ejson.Clone TypeFerry.Ejson.Encode TypeFerry.Ejson.Canonical
open TypeFerry.Minimongo.Values TypeFerry.Minimongo.Matcher TypeFerry.Minimongo.Sorter
open TypeFerry.Minimongo.Collection TypeFerry.Minimongo.Modifier TypeFerry.Minimongo.Atomicity
open TypeFerry.Minimongo.Names TypeFerry.Minimongo.Plain

/-! ## The members of the document itself -/

/-- A property of members that writing and deleting the allowed keys keeps. -/
structure Stable (allowed : Text → Prop) (Q : List (Text × Value) → Prop) : Prop where
  set : ∀ {ms : List (Text × Value)} {key : Text} {x : Value}, allowed key → Q ms →
    Q (enumerate (assign key x ms))
  delete : ∀ {ms : List (Text × Value)} {key : Text}, allowed key → Q ms →
    Q (ms.filter fun m => m.1 ≠ key)

/-- An object whose members have the property. -/
def Top (Q : List (Text × Value) → Prop) (v : Value) : Prop := ∃ ms, v = .obj ms ∧ Q ms

section
variable {allowed : Text → Prop} {Q : List (Text × Value) → Prop} (hQ : Stable allowed Q)
variable {p : Platform}
include hQ

theorem top_setKey {key : Text} {x v v' : Value} (hkey : allowed key) (hv : Top Q v)
    (h : setKey p key x v = .ok v') : Top Q v' := by
  obtain ⟨ms, rfl, hms⟩ := hv
  cases h
  exact ⟨_, rfl, hQ.set hkey hms⟩

/-- Only the first key touches the members of the document. -/
theorem top_updateAt {f : Value → Except Text Value} {keys : List Text} {v v' : Value}
    (hkeys : ∀ key ∈ keys.head?, allowed key)
    (hf : keys = [] → ∀ {v v' : Value}, Top Q v → f v = .ok v' → Top Q v')
    (hv : Top Q v) (h : updateAt p f keys v = .ok v') : Top Q v' := by
  cases keys with
  | nil => exact hf rfl hv h
  | cons key keys =>
    obtain ⟨x, -, h⟩ := bind_eq_ok h
    exact top_setKey hQ (hkeys key rfl) hv h

/-- The first key on the way to a field, or the field. -/
def firstKey (keys : List Text) (field : Text) : Text := keys.headD field

omit hQ in
theorem firstKey_of_mem_head? {keys : List Text} {key field : Text} (h : key ∈ keys.head?) :
    firstKey keys field = key := by
  cases keys with
  | nil => cases h
  | cons k ks =>
    cases h
    rfl

theorem top_writeField {target : Target} {x document document' : Value}
    (hkeys : ∀ keys, target.parent = some keys → allowed (firstKey keys target.field))
    (hd : Top Q document) (h : writeField p target x document = .ok document') : Top Q document' := by
  unfold writeField at h
  split at h
  · next keys hparent =>
    have hfirst := hkeys keys hparent
    refine top_updateAt hQ (fun key hkey => firstKey_of_mem_head? hkey ▸ hfirst) ?_ hd h
    intro hnil v v' hv hset
    rw [hnil] at hfirst
    exact top_setKey hQ hfirst hv hset
  · cases h
    exact hd

theorem top_removeField {target : Target} {document document' : Value}
    (hkeys : ∀ keys, target.parent = some keys → allowed (firstKey keys target.field))
    (hd : Top Q document) (h : removeField p target document = .ok document') : Top Q document' := by
  unfold removeField at h
  split at h
  · next keys hparent =>
    have hfirst := hkeys keys hparent
    refine top_updateAt hQ (fun key hkey => firstKey_of_mem_head? hkey ▸ hfirst) ?_ hd h
    intro hnil v v' hv hset
    obtain ⟨ms, rfl, hms⟩ := hv
    rw [hnil] at hfirst
    cases hset
    exact ⟨_, rfl, hQ.delete hfirst hms⟩
  · cases h
    exact hd

/-- A key that a part of a path may stand for. -/
def KeyOf (part key : Text) : Prop := ∃ positional rest, keyOf part positional = .ok (key, rest)

theorem top_walk {noCreate forbidArray : Bool} {parts : List Text} {positional positional' : List ℕ}
    {current current' : Value} {keys : Option (List Text)}
    (hparts : ∀ part ∈ parts.head?, ∀ key, KeyOf part key → allowed key) (hv : Top Q current)
    (h : walk p noCreate forbidArray parts positional current = .ok (current', keys, positional')) :
    Top Q current' ∧ (parts = [] ∧ keys = some [] ∨
      ∀ ks, keys = some ks → ∃ key ∈ ks.head?, allowed key) := by
  cases parts with
  | nil =>
    cases h
    exact ⟨hv, .inl ⟨rfl, rfl⟩⟩
  | cons part rest =>
    unfold walk at h
    obtain ⟨⟨key, positional₁⟩, hkey, h⟩ := bind_eq_ok h
    have hallowed : allowed key := hparts part rfl key ⟨_, _, hkey⟩
    have hdescend : ∀ {child : Value},
        (do
          let r ← walk p noCreate forbidArray rest positional₁ child
          let v ← setKey p key r.1 current
          .ok (v, r.2.1.map (key :: ·), r.2.2)) = Except.ok (current', keys, positional') →
        Top Q current' ∧ ∀ ks, keys = some ks → ∃ key ∈ ks.head?, allowed key := by
      intro child hwalk
      obtain ⟨⟨child', keys', positional₂⟩, -, hwalk⟩ := bind_eq_ok hwalk
      obtain ⟨v, hset, hwalk⟩ := bind_eq_ok hwalk
      cases hwalk
      refine ⟨top_setKey hQ hallowed hv hset, fun ks hks => ?_⟩
      obtain ⟨ks', rfl, rfl⟩ := Option.map_eq_some_iff.mp hks
      exact ⟨key, rfl, hallowed⟩
    dsimp only at h
    split at h
    · cases h
    · split at h
      · exact (hdescend h).imp_right .inr
      · exact (hdescend h).imp_right .inr
      · split at h
        · cases h
          exact ⟨hv, .inr nofun⟩
        · exact (hdescend h).imp_right .inr
      · split at h
        · cases h
          exact ⟨hv, .inr nofun⟩
        · exact (hdescend h).imp_right .inr
      · cases h

theorem top_modificationTarget {arrayIndices : Option (List ArrayStep)} {noCreate forbidArray : Bool}
    {document document' : Value} {path : Text} {target : Target}
    (hparts : ∀ part ∈ (splitPath path).head?, ∀ key, KeyOf part key → allowed key)
    (hd : Top Q document)
    (h : modificationTarget p arrayIndices noCreate forbidArray document path = .ok (document', target)) :
    Top Q document' ∧ ∀ keys, target.parent = some keys → allowed (firstKey keys target.field) := by
  unfold modificationTarget at h
  dsimp only at h
  split at h
  · cases h
  · next hfield =>
    obtain ⟨⟨document₁, keys, positional⟩, hwalk, h⟩ := bind_eq_ok h
    cases hsplit : splitPath path with
    | nil => rw [hsplit] at hfield; exact absurd rfl hfield
    | cons part parts =>
      rw [hsplit] at hparts hwalk hfield h
      have hhead : ∀ q ∈ (part :: parts).dropLast.head?, ∀ key, KeyOf q key → allowed key := by
        intro q hq
        refine hparts q ?_
        cases parts with
        | nil => cases hq
        | cons q' qs => exact hq
      obtain ⟨htop, hkeys⟩ := top_walk hQ hhead hd hwalk
      dsimp only at h
      split at h
      · cases h
        exact ⟨htop, nofun⟩
      · obtain ⟨⟨field, rest⟩, hkey, h⟩ := bind_eq_ok h
        cases h
        refine ⟨htop, fun ks hks => ?_⟩
        rcases hkeys with ⟨hnil, hnone⟩ | hsome
        · -- The path has one part, which is the field.
          dsimp only at hks
          rw [hnone] at hks
          cases hks
          cases parts with
          | nil => exact hparts part rfl field ⟨_, _, hkey⟩
          | cons q qs => cases hnil
        · obtain ⟨key, hmem, hallowed⟩ := hsome ks hks
          exact firstKey_of_mem_head? hmem ▸ hallowed

/-- The paths whose first key is allowed in every document with the property. -/
def PathOk (allowed : Text → Prop) (path : Text) : Prop :=
  ∀ part ∈ (splitPath path).head?, ∀ key, KeyOf part key → allowed key

theorem top_applied {operator : Text} {argument document document' : Value} {target : Target}
    (hrenamed : operator = js "$rename" → ∀ path, argument = .str path →
      ∀ {v : Value} {r : Value × Target}, Top Q v → modificationTarget p none false true v path = .ok r →
        PathOk allowed path)
    (hkeys : ∀ keys, target.parent = some keys → allowed (firstKey keys target.field))
    (hd : Top Q document) (h : Applied p operator argument target document document') :
    Top Q document' := by
  cases h with
  | same => exact hd
  | written _ _ h => exact top_writeField hQ hkeys hd h
  | removed h => exact top_removeField hQ hkeys hd h
  | renamed hoperator hargument hremove hdestination h =>
    have hremoved := top_removeField hQ hkeys hd hremove
    obtain ⟨htop, hkeys'⟩ := top_modificationTarget hQ
      (hrenamed hoperator _ hargument hremoved hdestination) hremoved hdestination
    exact top_writeField hQ hkeys' htop h

theorem top_applyModifierOperator {options : ModifyOptions} {operator path : Text}
    {argument document document' : Value} (hpath : PathOk allowed path)
    (hrenamed : operator = js "$rename" → ∀ path, argument = .str path →
      ∀ {v : Value} {r : Value × Target}, Top Q v → modificationTarget p none false true v path = .ok r →
        PathOk allowed path)
    (hd : Top Q document)
    (h : applyModifierOperator p options operator path argument document = .ok document') :
    Top Q document' := by
  unfold applyModifierOperator at h
  split at h
  · cases h
    exact hd
  · obtain ⟨⟨document₁, target⟩, htarget, h⟩ := bind_eq_ok h
    obtain ⟨htop, hkeys⟩ := top_modificationTarget hQ hpath hd htarget
    refine top_applied hQ (fun hop => hrenamed ?_) hkeys htop (applied_of_applyAt h)
    by_cases hinsert : operator = js "$setOnInsert"
    · rw [if_pos hinsert] at hop
      exact absurd hop (by decide)
    · rwa [if_neg hinsert] at hop

end

/-! ## The `_id` of a document -/

theorem keys_enumerate (ms : List (Text × Value)) :
    ((enumerate ms).map Prod.fst).Perm (ms.map Prod.fst) := (enumerate_perm ms).map Prod.fst

theorem nodup_assign {key : Text} {x : Value} {ms : List (Text × Value)} (h : (ms.map Prod.fst).Nodup) :
    ((assign key x ms).map Prod.fst).Nodup := by
  unfold assign
  split
  · exact h
  · exact nodup_setMember h

/-- No key stands twice. -/
theorem stable_nodup : Stable (fun _ => True) fun ms => (ms.map Prod.fst).Nodup where
  set _ h := (keys_enumerate _).nodup_iff.mpr (nodup_assign h)
  delete _ h := (List.filter_sublist.map Prod.fst).nodup h

theorem getOwn_perm {ms ns : List (Text × Value)} (h : (ms.map Prod.fst).Nodup) (hp : ms.Perm ns)
    (key : Text) : getOwn key ns = getOwn key ms := by
  have hns := (hp.map Prod.fst).nodup_iff.mp h
  cases hown : getOwn key ms with
  | some x => exact getOwn_of_mem hns (hp.mem_iff.mp (mem_of_getOwn hown))
  | none =>
    cases hown' : getOwn key ns with
    | none => rfl
    | some x =>
      rw [getOwn_of_mem h (hp.mem_iff.mpr (mem_of_getOwn hown'))] at hown
      cases hown

theorem getOwn_assign_ne {key k : Text} {x : Value} (hne : k ≠ key) : ∀ ms : List (Text × Value),
    getOwn k (assign key x ms) = getOwn k ms := by
  intro ms
  unfold assign
  split
  · rfl
  · induction ms with
    | nil => simp [setMember, getOwn, hne]
    | cons m ms ih =>
      obtain ⟨k', v⟩ := m
      rw [setMember]
      split
      · next hk =>
        rw [hk, getOwn, List.lookup_cons, getOwn, List.lookup_cons, beq_false_of_ne hne]
      · rw [getOwn, List.lookup_cons, getOwn, List.lookup_cons]
        split
        · rfl
        · exact ih

theorem getOwn_filter_ne {key k : Text} (hne : k ≠ key) : ∀ ms : List (Text × Value),
    getOwn k (ms.filter fun m => m.1 ≠ key) = getOwn k ms := by
  intro ms
  induction ms with
  | nil => rfl
  | cons m ms ih =>
    obtain ⟨k', v⟩ := m
    by_cases hk : k' = key
    · rw [List.filter_cons_of_neg (by simp [hk]), ih, getOwn, getOwn, List.lookup_cons, hk,
        beq_false_of_ne hne]
    · rw [List.filter_cons_of_pos (by simp [hk]), getOwn, List.lookup_cons, getOwn, List.lookup_cons]
      split
      · rfl
      · exact ih

/-- The members of a document with the id `id`. -/
structure HasId (id : Text) (ms : List (Text × Value)) : Prop where
  nodup : (ms.map Prod.fst).Nodup
  own : getOwn (js "_id") ms = some (.str id)

theorem stable_hasId (id : Text) : Stable (fun key => key ≠ js "_id") (HasId id) where
  set hkey h := by
    refine ⟨stable_nodup.set trivial h.nodup, ?_⟩
    rw [getOwn_perm (nodup_assign h.nodup) (enumerate_perm _).symm, getOwn_assign_ne (Ne.symm hkey)]
    exact h.own
  delete hkey h := by
    refine ⟨stable_nodup.delete trivial h.nodup, ?_⟩
    rw [getOwn_filter_ne (Ne.symm hkey)]
    exact h.own

/-- A part that stands for the key `_id` is this name. -/
theorem part_of_id {part : Text} (h : KeyOf part (js "_id")) : part = js "_id" := by
  obtain ⟨positional, rest, h⟩ := h
  unfold keyOf at h
  split at h
  · split at h
    · cases h
    · next position _ =>
      have hid := congrArg Prod.fst (Except.ok.inj h)
      have hnumeric := isNumericKey_indexText position
      rw [show indexText position = js "_id" from hid] at hnumeric
      exact absurd hnumeric (by decide)
  · cases h
    rfl

theorem splitPath_id {path : Text} {rest : List Text} (h : splitPath path = js "_id" :: rest) :
    path = js "_id" ∧ rest = [] ∨ startsWith (js "_id.") path = true := by
  have hpath : [46].intercalate (splitPath path) = path := List.intercalate_splitOn 46
  rw [h] at hpath
  cases rest with
  | nil => exact .inl ⟨hpath.symm, rfl⟩
  | cons part rest =>
    refine .inr ?_
    rw [← hpath]
    rfl

/-- The paths that `modifyDocument` lets through keep off the `_id`. -/
theorem pathOk_of_checked {path : Text} (h : ¬(path = js "_id" ∨ startsWith (js "_id.") path = true)) :
    PathOk (fun key => key ≠ js "_id") path := by
  intro part hpart key hkey hid
  rw [hid] at hkey
  rw [part_of_id hkey] at hpart
  cases hsplit : splitPath path with
  | nil =>
    rw [hsplit] at hpart
    cases hpart
  | cons q rest =>
    rw [hsplit] at hpart
    cases hpart
    exact h ((splitPath_id hsplit).imp_left And.left)

/-- A path below the `_id` of a document has no target, since the `_id` is a text. -/
theorem pathOk_of_target {p : Platform} {id path : Text} {v : Value} {r : Value × Target}
    (hpath : path ≠ js "_id") (hv : Top (HasId id) v)
    (h : modificationTarget p none false true v path = .ok r) :
    PathOk (fun key => key ≠ js "_id") path := by
  intro part hpart key hkey hid
  rw [hid] at hkey
  rw [part_of_id hkey] at hpart
  obtain ⟨ms, rfl, hms⟩ := hv
  cases hsplit : splitPath path with
  | nil =>
    rw [hsplit] at hpart
    cases hpart
  | cons q rest =>
    rw [hsplit] at hpart
    cases hpart
    cases rest with
    | nil =>
      have hjoin : [46].intercalate (splitPath path) = path := List.intercalate_splitOn 46
      rw [hsplit] at hjoin
      exact hpath hjoin.symm
    | cons next rest =>
      unfold modificationTarget at h
      rw [hsplit] at h
      dsimp only at h
      split at h
      · cases h
      · obtain ⟨w, hw, -⟩ := bind_eq_ok h
        have hget : getKey (.obj ms) (js "_id") = .str id := by rw [getKey, hms.own]; rfl
        have hwalk : walk p false true (js "_id" :: (next :: rest).dropLast) (positions none) (.obj ms) =
            .error (js "Cannot set property on non-object field") := by
          unfold walk
          rw [show keyOf (js "_id") (positions none) = .ok (js "_id", positions none) from rfl]
          simp only [bind, Except.bind, isArray, Bool.and_false, Bool.false_eq_true, if_false, hget]
        rw [List.dropLast_cons_of_ne_nil (List.cons_ne_nil _ _), hwalk] at hw
        cases hw

/-! ## Modified documents -/

/-- A document as the store should have it: with the id `id` and with valid names. -/
structure Good (id : Text) (document : Value) : Prop where
  valid : Valid document
  id : Top (HasId id) document

/-- The fields of an operator of which none is renamed onto the `_id`. -/
def RenamesOk (operator : Text) (fields : List (Text × Value)) : Prop :=
  operator = js "$rename" → ∀ f ∈ fields, f.2 ≠ .str (js "_id")

theorem hasId_applyFields {p : Platform} {options : ModifyOptions} {operator id : Text} :
    ∀ {fields : List (Text × Value)} {document document' : Value}, RenamesOk operator fields →
    Top (HasId id) document → applyFields p options operator fields document = .ok document' →
      Top (HasId id) document'
  | [], _, _, _, hd, h => by
    cases h
    exact hd
  | (path, argument) :: rest, document, document', hrenames, hd, h => by
    unfold applyFields at h
    split at h
    · cases h
    · next hpath =>
      obtain ⟨document₁, happly, h⟩ := bind_eq_ok h
      have hkept : Top (HasId id) document₁ := by
        refine top_applyModifierOperator (stable_hasId id) (pathOk_of_checked hpath) ?_ hd happly
        intro hop renamed hargument v r hv htarget
        refine pathOk_of_target (fun hid => ?_) hv htarget
        exact hrenames hop (path, argument) List.mem_cons_self (hid ▸ hargument)
      exact hasId_applyFields (fun hop f hf => hrenames hop f (List.mem_cons_of_mem _ hf)) hkept h

theorem valid_applyFields {p : Platform} {options : ModifyOptions} {operator : Text}
    (hinsert : options.isInsert = false) : ∀ {fields : List (Text × Value)} {document document' : Value},
    (∀ f ∈ fields, FieldOk operator f.1 f.2) → Valid document →
    applyFields p options operator fields document = .ok document' → Valid document'
  | [], _, _, _, hd, h => by
    cases h
    exact hd
  | (path, argument) :: rest, document, document', hfields, hd, h => by
    unfold applyFields at h
    split at h
    · cases h
    · obtain ⟨document₁, happly, h⟩ := bind_eq_ok h
      have hfield := hfields (path, argument) List.mem_cons_self
      exact valid_applyFields hinsert (fun f hf => hfields f (List.mem_cons_of_mem _ hf))
        (valid_applyModifierOperator hinsert hfield hd happly) h

/-- The operators of a modifier, all of whose fields are fine. -/
def OperatorsOk (operators : List (Text × Value)) : Prop :=
  ∀ operator fields, (operator, .obj fields) ∈ operators → ∀ f ∈ fields, FieldOk operator f.1 f.2

/-- None of the operators renames a field onto the `_id`. -/
def OperatorsKeepId (operators : List (Text × Value)) : Prop :=
  ∀ operator fields, (operator, .obj fields) ∈ operators → RenamesOk operator fields

theorem OperatorsOk.keepId {operators : List (Text × Value)} (h : OperatorsOk operators) :
    OperatorsKeepId operators := by
  intro operator fields hmem hop f hf hid
  exact ((h operator fields hmem f hf).renamed hop (js "_id") hid).1 rfl

/-- What every operator keeps, all of them keep. -/
theorem applyOperators_keeps {p : Platform} {options : ModifyOptions} {P : Value → Prop} :
    ∀ {operators : List (Text × Value)} {document document' : Value},
    (∀ operator fields, (operator, .obj fields) ∈ operators → ∀ {d d' : Value}, P d →
      applyFields p options operator fields d = .ok d' → P d') →
    P document → applyOperators p options operators document = .ok document' → P document'
  | [], _, _, _, hd, h => by
    cases h
    exact hd
  | (operator, value) :: rest, document, document', heach, hd, h => by
    cases value with
    | obj fields =>
      obtain ⟨document₁, hfields, h⟩ := bind_eq_ok h
      exact applyOperators_keeps
        (fun operator fields hm => heach operator fields (List.mem_cons_of_mem _ hm))
        (heach operator fields List.mem_cons_self hd hfields) h
    | _ => cases h

/-! ## Copies -/

theorem cloneEntries_eq (ms : List (Text × Value)) : cloneEntries ms = ms.map fun m => (m.1, cloneValue m.2) := by
  induction ms with
  | nil => rfl
  | cons m ms ih => rw [cloneEntries, ih, List.map_cons]

theorem mem_setMember_self {key : Text} {x : Value} (ms : List (Text × Value)) : (key, x) ∈ setMember key x ms := by
  induction ms with
  | nil => exact List.mem_cons_self
  | cons m ms ih =>
    rw [setMember]
    split
    · next hk =>
      rw [hk]
      exact List.mem_cons_self
    · exact List.mem_cons_of_mem _ ih

theorem mem_setMember_ne {key : Text} {x : Value} {m : Text × Value} (hne : m.1 ≠ key) :
    ∀ {ms : List (Text × Value)}, m ∈ ms → m ∈ setMember key x ms
  | (k, v) :: ms, h => by
    rw [setMember]
    rcases List.mem_cons.mp h with rfl | h
    · rw [if_neg hne]
      exact List.mem_cons_self
    · split
      · exact List.mem_cons_of_mem _ h
      · exact List.mem_cons_of_mem _ (mem_setMember_ne hne h)

/-- An object that is built again has every member but its prototype. -/
theorem mem_rebuilt_of_mem {m : Text × Value} (hm : m.1 ≠ js "__proto__") :
    ∀ {es acc : List (Text × Value)}, (es.map Prod.fst).Nodup → (m ∈ es ∨ m ∈ acc ∧ m.1 ∉ es.map Prod.fst) →
      m ∈ es.foldl (fun ret m => assign m.1 m.2 ret) acc
  | [], _, _, h => (h.resolve_left List.not_mem_nil).1
  | e :: es, acc, hnd, h => by
    obtain ⟨hnot, hnd⟩ := List.nodup_cons.mp hnd
    rw [List.foldl_cons]
    refine mem_rebuilt_of_mem hm hnd ?_
    rcases h with h | ⟨h, hother⟩
    · rcases List.mem_cons.mp h with rfl | h
      · refine .inr ⟨?_, hnot⟩
        rw [assign, if_neg hm]
        exact mem_setMember_self acc
      · exact .inl h
    · rw [List.map_cons, List.mem_cons, not_or] at hother
      refine .inr ⟨?_, hother.2⟩
      unfold assign
      split
      · exact h
      · exact mem_setMember_ne hother.1 h

theorem nodup_rebuilt : ∀ (es : List (Text × Value)) {acc : List (Text × Value)},
    (acc.map Prod.fst).Nodup → ((es.foldl (fun ret m => assign m.1 m.2 ret) acc).map Prod.fst).Nodup
  | [], _, h => h
  | _ :: es, _, h => nodup_rebuilt es (nodup_assign h)

mutual

theorem valid_cloneValue : ∀ v : Value, Valid v → Valid (cloneValue v)
  | .arr xs, h => by
    rw [cloneValue, valid_arr]
    exact valid_cloneValues xs (valid_arr.mp h)
  | .obj ms, h => by
    rw [cloneValue, valid_obj]
    intro m hm
    exact valid_cloneEntries ms (valid_obj.mp h) m ((mem_rebuilt hm).resolve_left List.not_mem_nil).1
  | .undefined, h => h
  | .null, h => h
  | .bool _, h => h
  | .num _, h => h
  | .str _, h => h
  | .date _, h => h
  | .regexp _, h => h
  | .binary _, h => h

theorem valid_cloneValues : ∀ xs : List Value, (∀ x ∈ xs, Valid x) → ∀ x ∈ cloneValues xs, Valid x
  | [], _ => fun _ h => absurd h List.not_mem_nil
  | x :: xs, h => by
    rw [cloneValues, List.forall_mem_cons]
    exact ⟨valid_cloneValue x (h x List.mem_cons_self),
      valid_cloneValues xs fun y hy => h y (List.mem_cons_of_mem _ hy)⟩

theorem valid_cloneEntries : ∀ ms : List (Text × Value), (∀ m ∈ ms, NameOk m.1 ∧ Valid m.2) →
    ∀ m ∈ cloneEntries ms, NameOk m.1 ∧ Valid m.2
  | [], _ => fun _ h => absurd h List.not_mem_nil
  | (k, v) :: ms, h => by
    rw [cloneEntries, List.forall_mem_cons]
    obtain ⟨hk, hv⟩ := h (k, v) List.mem_cons_self
    exact ⟨⟨hk, valid_cloneValue v hv⟩, valid_cloneEntries ms fun y hy => h y (List.mem_cons_of_mem _ hy)⟩

end

theorem hasId_cloneValue {id : Text} {document : Value} (h : Top (HasId id) document) :
    Top (HasId id) (cloneValue document) := by
  obtain ⟨ms, rfl, hms⟩ := h
  have hkeys : (cloneEntries ms).map Prod.fst = ms.map Prod.fst := by
    rw [cloneEntries_eq, List.map_map]
    rfl
  refine ⟨_, rfl, nodup_rebuilt _ List.nodup_nil, getOwn_of_mem (nodup_rebuilt _ List.nodup_nil) ?_⟩
  refine mem_rebuilt_of_mem (show js "_id" ≠ js "__proto__" by decide) (hkeys ▸ hms.nodup) (.inl ?_)
  rw [cloneEntries_eq]
  exact List.mem_map.mpr ⟨_, mem_of_getOwn hms.own, rfl⟩

theorem distinct_cloneValue {v : Value} {ms : List (Text × Value)} (h : cloneValue v = .obj ms) :
    (ms.map Prod.fst).Nodup := by
  cases v with
  | obj ns =>
    rw [cloneValue] at h
    cases h
    exact nodup_rebuilt _ List.nodup_nil
  | _ => cases h

/-! ## A whole modifier -/

/-- The modifiers that write valid names only and keep off the `_id`. -/
def ModifierOk (modifier : Value) : Prop := ∀ ms, cloneValue modifier = .obj ms → OperatorsOk ms

/-- The modifiers that rename no field onto the `_id`. -/
def ModifierKeepsId (modifier : Value) : Prop :=
  ∀ ms, cloneValue modifier = .obj ms → OperatorsKeepId ms

theorem ModifierOk.keepsId {modifier : Value} (h : ModifierOk modifier) : ModifierKeepsId modifier :=
  fun ms hms => (h ms hms).keepId

theorem getOwn_id_assign {id : Value} {ms : List (Text × Value)} (h : (ms.map Prod.fst).Nodup) :
    getOwn (js "_id") (enumerate (assign (js "_id") id ms)) = some id := by
  refine getOwn_of_mem (stable_nodup.set trivial h) ((enumerate_perm _).mem_iff.mpr ?_)
  rw [assign, if_neg (by decide)]
  exact mem_setMember_self ms

theorem hasId_replaceDocument {id : Text} {replacement : List (Text × Value)}
    {document document' : Value} (hnodup : (replacement.map Prod.fst).Nodup)
    (hd : Top (HasId id) document) (h : replaceDocument replacement document = .ok document') :
    Top (HasId id) document' := by
  obtain ⟨⟨⟩, -, h⟩ := bind_eq_ok h
  obtain ⟨ms, rfl, hms⟩ := hd
  have hget : getKey (.obj ms) (js "_id") = .str id := by rw [getKey, hms.own]; rfl
  dsimp only at h
  rw [hget] at h
  split at h
  · cases h
  · cases h
    exact ⟨_, rfl, stable_nodup.set trivial hnodup, getOwn_id_assign hnodup⟩

theorem valid_replaceDocument {id : Text} {replacement : List (Text × Value)}
    {document document' : Value} (hd : Top (HasId id) document)
    (h : replaceDocument replacement document = .ok document') : Valid document' := by
  obtain ⟨⟨⟩, hvalid, h⟩ := bind_eq_ok h
  obtain ⟨ms, rfl, hms⟩ := hd
  have hget : getKey (.obj ms) (js "_id") = .str id := by rw [getKey, hms.own]; rfl
  dsimp only at h
  rw [hget] at h
  split at h
  · cases h
  · cases h
    exact valid_enumerate (valid_assign (valid_obj.mpr (assertMembers_iff.mp hvalid)) rfl rfl)

theorem hasId_modifyDocument {p : Platform} {options : ModifyOptions} {id : Text}
    {modifier document document' : Value} (hmodifier : ModifierKeepsId modifier)
    (hd : Top (HasId id) document) (h : modifyDocument p options modifier document = .ok document') :
    Top (HasId id) document' := by
  unfold modifyDocument at h
  split at h
  · next cloned hcloned =>
    dsimp only at h
    split at h
    · exact hasId_replaceDocument (distinct_cloneValue hcloned) hd h
    · split at h
      · cases h
      · exact applyOperators_keeps (fun operator fields hm _ _ => hasId_applyFields
          (hmodifier cloned hcloned operator fields hm)) hd h
  · cases h

theorem valid_modifyDocument {p : Platform} {options : ModifyOptions} {id : Text}
    {modifier document document' : Value} (hinsert : options.isInsert = false)
    (hmodifier : ModifierOk modifier) (hd : Good id document)
    (h : modifyDocument p options modifier document = .ok document') : Valid document' := by
  unfold modifyDocument at h
  split at h
  · next cloned hcloned =>
    dsimp only at h
    split at h
    · exact valid_replaceDocument hd.id h
    · split at h
      · cases h
      · exact applyOperators_keeps (fun operator fields hm _ _ => valid_applyFields hinsert
          (hmodifier cloned hcloned operator fields hm)) hd.valid h
  · cases h

/-! ## The document of an upsert -/

/-- An object in which no key stands twice. -/
abbrev Distinct : Value → Prop := Top fun ms => (ms.map Prod.fst).Nodup

theorem distinct_applyFields {p : Platform} {options : ModifyOptions} {operator : Text} :
    ∀ {fields : List (Text × Value)} {document document' : Value}, Distinct document →
      applyFields p options operator fields document = .ok document' → Distinct document'
  | [], _, _, hd, h => by
    cases h
    exact hd
  | (path, argument) :: rest, document, document', hd, h => by
    unfold applyFields at h
    split at h
    · cases h
    · obtain ⟨document₁, happly, h⟩ := bind_eq_ok h
      refine distinct_applyFields ?_ h
      exact top_applyModifierOperator stable_nodup (fun _ _ _ _ => trivial)
        (fun _ _ _ _ _ _ _ _ _ _ _ => trivial) hd happly

theorem distinct_modifyDocument {p : Platform} {options : ModifyOptions}
    {modifier document document' : Value} (hd : Distinct document)
    (h : modifyDocument p options modifier document = .ok document') : Distinct document' := by
  unfold modifyDocument at h
  split at h
  · next cloned hcloned =>
    have hnodup := distinct_cloneValue hcloned
    dsimp only at h
    split at h
    · obtain ⟨⟨⟩, -, h⟩ := bind_eq_ok h
      dsimp only at h
      split at h
      · cases h
      · split at h
        · cases h
          exact ⟨_, rfl, hnodup⟩
        · cases h
          exact ⟨_, rfl, stable_nodup.set trivial hnodup⟩
    · split at h
      · cases h
      · exact applyOperators_keeps (fun _ _ _ _ _ => distinct_applyFields) hd h
  · cases h

theorem nodup_setPath {ms : List (Text × Value)} {path : Text} {value : Value}
    (h : (ms.map Prod.fst).Nodup) : ((setPath ms path value).map Prod.fst).Nodup := by
  unfold setPath
  split
  · exact h
  · unfold setParts
    split
    · exact h
    · exact stable_nodup.set trivial h
    · exact stable_nodup.set trivial h

theorem nodup_populateField {path : Text} {value : Value} {document document' : List (Text × Value)}
    (hd : (document.map Prod.fst).Nodup) (h : populateField path value document = .ok document') :
    (document'.map Prod.fst).Nodup := by
  unfold populateField at h
  split at h
  · cases h
    exact hd
  · obtain ⟨v, -, h⟩ := bind_eq_ok h
    split at h
    · cases h
      exact nodup_setPath hd
    · cases h
      exact hd

mutual

theorem nodup_populate : ∀ (ms : List (Text × Value)) {document document' : List (Text × Value)},
    (document.map Prod.fst).Nodup → populate ms document = .ok document' →
      (document'.map Prod.fst).Nodup
  | [], _, _, hd, h => by
    cases h
    exact hd
  | (path, value) :: rest, document, document', hd, h => by
    obtain ⟨document₁, hentry, h⟩ := bind_eq_ok h
    exact nodup_populate rest (nodup_populateEntry path value hd hentry) h

theorem nodup_populateEntry (path : Text) : ∀ (value : Value) {document document' : List (Text × Value)},
    (document.map Prod.fst).Nodup → populateEntry path value document = .ok document' →
      (document'.map Prod.fst).Nodup
  | .arr xs, document, document', hd, h => by
    unfold populateEntry at h
    split at h
    · exact nodup_populateEach xs hd h
    · exact nodup_populateField hd h
  | .obj _, _, _, hd, h => nodup_populateField hd h
  | .undefined, _, _, hd, h => nodup_populateField hd h
  | .null, _, _, hd, h => nodup_populateField hd h
  | .bool _, _, _, hd, h => nodup_populateField hd h
  | .num _, _, _, hd, h => nodup_populateField hd h
  | .str _, _, _, hd, h => nodup_populateField hd h
  | .date _, _, _, hd, h => nodup_populateField hd h
  | .regexp _, _, _, hd, h => nodup_populateField hd h
  | .binary _, _, _, hd, h => nodup_populateField hd h

theorem nodup_populateEach : ∀ (xs : List Value) {document document' : List (Text × Value)},
    (document.map Prod.fst).Nodup → populateEach xs document = .ok document' →
      (document'.map Prod.fst).Nodup
  | [], _, _, hd, h => by
    cases h
    exact hd
  | .obj ms :: rest, document, document', hd, h => by
    obtain ⟨document₁, hpopulate, h⟩ := bind_eq_ok h
    exact nodup_populateEach rest (nodup_populate ms hd hpopulate) h
  | .undefined :: rest, _, _, hd, h => nodup_populateEach rest hd h
  | .null :: rest, _, _, hd, h => nodup_populateEach rest hd h
  | .bool _ :: rest, _, _, hd, h => nodup_populateEach rest hd h
  | .num _ :: rest, _, _, hd, h => nodup_populateEach rest hd h
  | .str _ :: rest, _, _, hd, h => nodup_populateEach rest hd h
  | .date _ :: rest, _, _, hd, h => nodup_populateEach rest hd h
  | .regexp _ :: rest, _, _, hd, h => nodup_populateEach rest hd h
  | .binary _ :: rest, _, _, hd, h => nodup_populateEach rest hd h
  | .arr _ :: rest, _, _, hd, h => nodup_populateEach rest hd h

end

theorem distinct_createUpsertDocument {p : Platform} {now : ℤ} {selector modifier document : Value}
    (h : createUpsertDocument p now selector modifier = .ok document) : Distinct document := by
  unfold createUpsertDocument at h
  have hempty : (([] : List (Text × Value)).map Prod.fst).Nodup := List.nodup_nil
  split at h
  · next id =>
    obtain ⟨ms, hms, h⟩ := bind_eq_ok h
    cases hms
    have hone : Distinct (.obj [(js "_id", .str id)]) := ⟨_, rfl, List.nodup_singleton (js "_id")⟩
    exact distinct_modifyDocument hone h
  · obtain ⟨ms, hms, h⟩ := bind_eq_ok h
    exact distinct_modifyDocument ⟨_, rfl, nodup_populate _ hempty hms⟩ h
  · obtain ⟨ms, hms, h⟩ := bind_eq_ok h
    cases hms
    exact distinct_modifyDocument ⟨_, rfl, hempty⟩ h

/-! ## The store -/

/-- Every document is under its own id, which is a local id, and has valid names. -/
def Represented (store : OMap (Option Text) Value) : Prop :=
  ∀ e ∈ store.entries, ∃ id, isLocalId id = true ∧ e.1 = some id ∧ Good id e.2

theorem getKey_of_hasId {id : Text} {document : Value} (h : Top (HasId id) document) :
    getKey document (js "_id") = .str id := by
  obtain ⟨ms, rfl, hms⟩ := h
  rw [getKey, hms.own]
  rfl

theorem idOf_of_hasId {id : Text} {document : Value} (h : Top (HasId id) document) :
    idOf document = some id := by
  rw [idOf, getKey_of_hasId h]

/-- Every document is under its own id, which is a local id, and `G` holds of the two. -/
def Holds (G : Text → Value → Prop) (store : OMap (Option Text) Value) : Prop :=
  ∀ e ∈ store.entries, ∃ id, isLocalId id = true ∧ e.1 = some id ∧ G id e.2

/-- Every document is under its own id, which is a local id. -/
abbrev Identified : OMap (Option Text) Value → Prop := Holds fun id document => Top (HasId id) document

theorem Represented.identified {store : OMap (Option Text) Value} (h : Represented store) :
    Identified store := by
  intro e he
  obtain ⟨id, hid, hkey, hgood⟩ := h e he
  exact ⟨id, hid, hkey, hgood.id⟩

theorem Identified.keyed {store : OMap (Option Text) Value} (h : Identified store) (p : Platform)
    (now : ℤ) : Keyed (localStoreRuntime p now) store := by
  intro e he
  obtain ⟨id, -, hkey, hid⟩ := h e he
  rw [hkey]
  exact idOf_of_hasId hid

section
variable {G : Text → Value → Prop} {store : OMap (Option Text) Value}

theorem Holds.set {id : Text} {document : Value} (h : Holds G store) (hid : isLocalId id = true)
    (hd : G id document) : Holds G (store.set (some id) document) := by
  intro e he
  have hget := OMap.get_eq_some.mpr he
  rw [OMap.get_set] at hget
  split at hget
  · next hkey => exact ⟨id, hid, hkey, Option.some.inj hget ▸ hd⟩
  · exact h e (OMap.get_eq_some.mp hget)

theorem Holds.deleteAll {keys : List (Option Text)} (h : Holds G store) :
    Holds G (store.deleteAll keys) := by
  intro e he
  have hget := OMap.get_eq_some.mpr he
  rw [OMap.get_deleteAll] at hget
  split at hget
  · cases hget
  · exact h e (OMap.get_eq_some.mp hget)

end

/-- Values whose own members, if they are objects, have distinct keys. -/
def Keys (v : Value) : Prop := ∀ ms, v = .obj ms → (ms.map Prod.fst).Nodup

theorem Keys.withMember {key : Text} {x v : Value} (h : Keys v) : Keys (withMember key x v) := by
  intro ms hms
  cases v with
  | obj ns =>
    cases hms
    exact stable_nodup.set trivial (h ns rfl)
  | _ => cases hms

theorem valid_withMember {key : Text} {x v : Value} (hv : Valid v) (hkey : NameOk key) (hx : Valid x) :
    Valid (withMember key x v) := by
  cases v with
  | obj ms => exact valid_enumerate (valid_assign hv hkey hx)
  | _ => exact hv

theorem assertLocalId_eq_ok {v : Value} (h : assertLocalId v = .ok ()) :
    ∃ id, v = .str id ∧ isLocalId id = true := by
  cases v with
  | str id =>
    rw [assertLocalId] at h
    split at h
    · next hid => exact ⟨id, rfl, hid⟩
    · cases h
  | _ => cases h

/-- What is inserted was checked. -/
theorem good_prepare {randomId : Text} {document stored : Value} (hd : Keys document)
    (h : prepare randomId document = .ok stored) : ∃ id, isLocalId id = true ∧ Good id stored := by
  obtain ⟨⟨⟩, hvalid, h⟩ := bind_eq_ok h
  obtain ⟨⟨⟩, hassert, h⟩ := bind_eq_ok h
  cases h
  obtain ⟨id, hget, hid⟩ := assertLocalId_eq_ok hassert
  have hkept : Valid (withRandomId randomId document) ∧ Keys (withRandomId randomId document) := by
    unfold withRandomId
    split
    · exact ⟨valid_withMember hvalid rfl rfl, hd.withMember⟩
    · exact ⟨valid_withMember hvalid rfl rfl, hd.withMember⟩
    · exact ⟨hvalid, hd⟩
  refine ⟨id, hid, hkept.1, ?_⟩
  -- Only an object has an `_id`.
  cases hdocument : withRandomId randomId document with
  | obj ms =>
    rw [hdocument, getKey] at hget
    refine ⟨ms, rfl, hkept.2 ms hdocument, ?_⟩
    cases hown : getOwn (js "_id") ms with
    | none => rw [hown] at hget; cases hget
    | some x => rw [hown] at hget; exact congrArg some hget
  | _ =>
    rw [hdocument] at hget
    cases hget

theorem Distinct.keys {v : Value} (h : Distinct v) : Keys v := by
  obtain ⟨ms, rfl, hms⟩ := h
  intro ns hns
  cases hns
  exact hms

/-! ## Calls -/

/-- Insertions check `G`, and the modifiers that are `ok` keep it. -/
structure Kept (p : Platform) (ok : Value → Prop) (G : Text → Value → Prop) : Prop where
  hasId : ∀ {id : Text} {document : Value}, G id document → Top (HasId id) document
  prepare : ∀ {randomId : Text} {document stored : Value}, Keys document →
    prepare randomId document = .ok stored → ∃ id, isLocalId id = true ∧ G id stored
  modified : ∀ {now : ℤ} {id : Text} {selector modifier document document' : Value}, ok modifier →
    G id document → modified (localStoreRuntime p now) selector modifier document = .ok document' →
    G id document'

theorem kept_good (p : Platform) : Kept p ModifierOk Good where
  hasId h := h.id
  prepare hd h := good_prepare hd h
  modified hmodifier hd h := by
    obtain ⟨m, -, h⟩ := bind_eq_ok h
    obtain ⟨r, -, h⟩ := bind_eq_ok h
    have hcopy : Good _ (cloneValue _) := ⟨valid_cloneValue _ hd.valid, hasId_cloneValue hd.id⟩
    exact ⟨valid_modifyDocument rfl hmodifier hcopy h, hasId_modifyDocument hmodifier.keepsId hcopy.id h⟩

theorem kept_hasId (p : Platform) : Kept p ModifierKeepsId fun id document => Top (HasId id) document where
  hasId h := h
  prepare hd h := by
    obtain ⟨id, hid, hgood⟩ := good_prepare hd h
    exact ⟨id, hid, hgood.id⟩
  modified hmodifier hd h := by
    obtain ⟨m, -, h⟩ := bind_eq_ok h
    obtain ⟨r, -, h⟩ := bind_eq_ok h
    exact hasId_modifyDocument hmodifier (hasId_cloneValue hd) h

/-- The calls whose modifiers are `ok`; insertions and removals have none. -/
def ModifiedBy (ok : Value → Prop) : Call Value Value Value → Prop
  | .update _ modifier _ | .upsert _ _ modifier _ _ => ok modifier
  | _ => True

section
variable {p : Platform} {now : ℤ} {ok : Value → Prop} {G : Text → Value → Prop} (hG : Kept p ok G)
variable {observers : List (OMap (Option Text) Value → Except Text Unit)}
variable {store : OMap (Option Text) Value}
include hG

theorem holds_prepareInsert {randomId : Text} {document stored : Value} (hs : Holds G store)
    (hd : Keys document)
    (h : prepareInsert (localStoreRuntime p now) store randomId document = .ok stored) :
    Holds G (store.set ((localStoreRuntime p now).idOf stored) stored) := by
  obtain ⟨d, hprepare, h⟩ := bind_eq_ok h
  obtain ⟨id, hid, hgood⟩ := hG.prepare hd hprepare
  split at h
  · cases h
  · cases h
    rw [show (localStoreRuntime p now).idOf stored = some id from idOf_of_hasId (hG.hasId hgood)]
    exact hs.set hid hgood

theorem holds_written {selector modifier : Value} (hmodifier : ok modifier) {documents : List Value}
    {us : List (Value × Value)} (hdocuments : ∀ d ∈ documents, ∃ id, isLocalId id = true ∧ G id d)
    (hus : Modifies (localStoreRuntime p now) selector modifier documents us) (hs : Holds G store) :
    Holds G (written (localStoreRuntime p now) store us) := by
  have hall : ∀ u ∈ us, ∃ id, isLocalId id = true ∧ idOf u.1 = some id ∧ G id u.2 := by
    intro u hu
    obtain ⟨id, hid, hgood⟩ := hdocuments u.1 (hus.previous ▸ List.mem_map_of_mem hu)
    exact ⟨id, hid, idOf_of_hasId (hG.hasId hgood), hG.modified hmodifier hgood (hus.each u hu)⟩
  clear hus
  unfold written OMap.setAll
  rw [List.foldl_map]
  induction us generalizing store with
  | nil => exact hs
  | cons u us ih =>
    obtain ⟨id, hid, hkey, hgood⟩ := hall u List.mem_cons_self
    rw [List.foldl_cons, show (localStoreRuntime p now).idOf u.1 = some id from hkey]
    exact ih (hs.set hid hgood) fun v hv => hall v (List.mem_cons_of_mem _ hv)

theorem holds_update {selector modifier : Value} {multi : Bool} (hmodifier : ok modifier)
    (hs : Holds G store) :
    Holds G (update (localStoreRuntime p now) observers store selector modifier multi).store := by
  have hgood : ∀ {documents : List Value}, documents.Sublist store.values →
      ∀ d ∈ documents, ∃ id, isLocalId id = true ∧ G id d := by
    intro documents hsub d hd
    obtain ⟨e, he, rfl⟩ := List.mem_map.mp (hsub.subset hd)
    obtain ⟨id, hid, -, hgood⟩ := hs e he
    exact ⟨id, hid, hgood⟩
  have hupdates := update_updates (localStoreRuntime p now) observers store selector modifier multi
  generalize update (localStoreRuntime p now) observers store selector modifier multi = o at hupdates
  cases hupdates with
  | refused h => exact hs
  | failed h hmulti hus hd =>
    have hsub := (List.sublist_append_left _ _).trans (matchedDocuments_sublist h)
    exact holds_written hG hmodifier (hgood hsub) hus hs
  | idle h => exact hs
  | through h hne hus =>
    have hsub := (targets_sublist multi _).trans (matchedDocuments_sublist h)
    exact holds_written hG hmodifier (hgood hsub) hus hs

/-- **What every document is, it stays** through the calls whose modifiers are `ok`. -/
theorem holds_perform {call : Call Value Value Value} (hcall : ModifiedBy ok call)
    (hs : Holds G store) :
    Holds G (perform (localStoreRuntime p now) observers store call).store := by
  cases call with
  | insert randomId document =>
    rw [perform, Collection.insert]
    cases h : prepareInsert (localStoreRuntime p now) store randomId
        ((localStoreRuntime p now).clone document) with
    | error e => exact hs
    | ok stored => exact holds_prepareInsert hG hs (fun ms hms => distinct_cloneValue hms) h
  | remove selector =>
    rw [perform, remove]
    cases h : matchedDocuments (localStoreRuntime p now) store selector with
    | error e => exact hs
    | ok documents =>
      have hdelete : documents.foldl (fun store document =>
          store.delete ((localStoreRuntime p now).idOf document)) store =
          store.deleteAll (documents.map (localStoreRuntime p now).idOf) := by
        rw [OMap.deleteAll, List.foldl_map]
      dsimp only [announce]
      rw [hdelete]
      exact hs.deleteAll
  | update selector modifier multi => exact holds_update hG hcall hs
  | upsert randomId selector modifier multi insertedId =>
    have hupdate : Holds G
        (update (localStoreRuntime p now) observers store selector modifier multi).store :=
      holds_update hG hcall hs
    rw [perform, upsert]
    generalize update (localStoreRuntime p now) observers store selector modifier multi = o at hupdate
    obtain ⟨store', events, notified, result⟩ := o
    dsimp only at hupdate ⊢
    cases result with
    | error e => exact hupdate
    | ok n =>
      cases n with
      | succ n => exact hupdate
      | zero =>
        dsimp only
        generalize hprepared : (do
          let document ← (localStoreRuntime p now).createUpsert selector modifier
          prepareInsert (localStoreRuntime p now) store' randomId
            (insertedId.elim document fun id => (localStoreRuntime p now).giveId id document)) = prepared
        cases prepared with
        | error e => exact hupdate
        | ok stored =>
          obtain ⟨document, hcreate, hinsert⟩ := bind_eq_ok hprepared
          have hkeys : Keys document := (distinct_createUpsertDocument hcreate).keys
          refine holds_prepareInsert hG hupdate ?_ hinsert
          cases insertedId with
          | none => exact hkeys
          | some id =>
            dsimp only [Option.elim, localStoreRuntime]
            split
            · exact hkeys.withMember
            · exact hkeys

end

/-! ## Runs -/

/-- The calls whose modifiers are fine; insertions and removals all are. -/
def CallOk : Call Value Value Value → Prop
  | .update _ modifier _ | .upsert _ _ modifier _ _ => ModifierOk modifier
  | _ => True

theorem represented_perform {p : Platform} {now : ℤ}
    {observers : List (OMap (Option Text) Value → Except Text Unit)} {store : OMap (Option Text) Value}
    {call : Call Value Value Value} (hcall : CallOk call) (hs : Represented store) :
    Represented (perform (localStoreRuntime p now) observers store call).store := by
  have hmodified : ModifiedBy ModifierOk call := by
    cases call <;> exact hcall
  exact holds_perform (kept_good p) hmodified hs

/-- One call on a collection: the time it sees, the observers that are registered and what
is called. -/
structure Action where
  now : ℤ
  observers : List (OMap (Option Text) Value → Except Text Unit)
  call : Call Value Value Value

/-- A collection from its creation on, whether its calls return or throw. -/
def machine (p : Platform) : Machine (OMap (Option Text) Value) Action where
  init := OMap.empty
  step store a := some (perform (localStoreRuntime p a.now) a.observers store a.call).store

/-- The calls that stay within plain values and have a fine modifier. -/
def Careful (p : Platform) (store : OMap (Option Text) Value) (a : Action) : Prop :=
  CallOk a.call ∧ callPlain p a.now store a.call

/-- `insert({ _id, a: 'x' })` -/
def insertOne : Action := ⟨0, [], .insert [] (.obj [(js "_id", .str (js "aaaaaaaaaaaaaaaaaaaaaaaa")),
  (js "a", .str (js "x"))])⟩

/-- `update({}, { $set: { 'b.c': 1 } })` -/
def setOne : Action := ⟨0, [], .update (.obj [])
  (.obj [(js "$set", .obj [(js "b.c", .num (.finite (ofInt 1)))])]) false⟩

/-- `update({}, { $rename: { a: '_id' } })` -/
def renameOne : Action := ⟨0, [], .update (.obj [])
  (.obj [(js "$rename", .obj [(js "a", .str (js "_id"))])]) false⟩

theorem setOne_ok : CallOk setOne.call := by
  intro ms hms operator fields hmem f hf
  cases hms
  cases List.mem_singleton.mp hmem
  cases List.mem_singleton.mp hf
  refine ⟨fun part hpart => .inr ?_, ⟨fun h => absurd h (by decide), fun h => absurd h (by decide)⟩,
    fun h => absurd h (by decide)⟩
  have hparts : part = js "b" ∨ part = js "c" := by simpa using show part ∈ [js "b", js "c"] from hpart
  rcases hparts with rfl | rfl <;> rfl

end TypeFerry.Minimongo.Representation
