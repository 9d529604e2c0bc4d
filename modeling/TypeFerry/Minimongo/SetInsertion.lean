import TypeFerry.Lib.Insertion
import TypeFerry.Minimongo.Exclusion
import TypeFerry.Minimongo.Locality
import TypeFerry.Minimongo.Output

/-! # `$addToSet` inserts into a set

The array at the path, or a new one, should get those items that are equal to none
before them. The loop over an array that is there does that; where there is none,
the items are written as they are, with their repetitions. An item with an invalid
date is not equal to itself, so it is added again every time. -/
namespace TypeFerry.Minimongo.SetInsertion
open TypeFerry.Lib.Insertion TypeFerry.Lib.Numeral TypeFerry.Lib.JsonText TypeFerry.Ejson.Clone
open TypeFerry.Ejson.Canonical TypeFerry.Ejson.Encode
open TypeFerry.Minimongo.Values TypeFerry.Minimongo.Matcher TypeFerry.Minimongo.Modifier
open TypeFerry.Minimongo.Names TypeFerry.Minimongo.Order TypeFerry.Minimongo.Output
open TypeFerry.Minimongo.Representation TypeFerry.Minimongo.Places TypeFerry.Minimongo.Locality
open TypeFerry.Minimongo.Exclusion

/-! ## What a write leaves can be written again -/

/-- The keys lead through own members, in the order in which keys are enumerated. -/
def Stored : List Text → Value → Prop
  | [], _ => True
  | key :: keys, .obj ms => enumerate ms = ms ∧ key ≠ js "__proto__" ∧ ∃ x, getOwn key ms = some x ∧ Stored keys x
  | key :: keys, .arr xs => ∃ i, arrayKey? key = some i ∧ i < xs.length ∧ Stored keys (xs.getD i .undefined)
  | _ :: _, _ => False

theorem setMember_self {key : Text} {x : Value} {ms : List (Text × Value)} (h : getOwn key ms = some x) :
    setMember key x ms = ms := by
  induction ms with
  | nil => cases h
  | cons m ms ih =>
    obtain ⟨k, v⟩ := m
    rw [setMember]
    by_cases hk : k = key
    · rw [getOwn, hk, List.lookup_cons_self] at h
      rw [if_pos hk, Option.some.inj h, hk]
    · rw [getOwn, List.lookup_cons, beq_false_of_ne (Ne.symm hk)] at h
      rw [if_neg hk, ih h]

theorem stored_member {key : Text} {keys : List Text} {v : Value} (h : Stored (key :: keys) v) :
    Stored keys (member v key) := by
  cases v with
  | obj ms =>
    obtain ⟨-, -, x, hx, hkeys⟩ := h
    rw [member, hx]
    exact hkeys
  | arr xs =>
    obtain ⟨i, hi, -, hkeys⟩ := h
    rw [member, hi]
    exact hkeys
  | _ => cases h

/-- The length of an array is not stored. -/
theorem ne_length_of_stored {key : Text} {keys : List Text} {v : Value} (h : Stored (key :: keys) v) :
    isArray v → key ≠ js "length" := by
  rintro harr rfl
  cases v with
  | arr xs =>
    obtain ⟨i, hi, -⟩ := h
    cases hi
  | _ => cases harr

/-- Writing what is there changes nothing. -/
theorem setKey_self {p : Platform} {key : Text} {keys : List Text} {v : Value} (h : Stored (key :: keys) v) :
    setKey p key (member v key) v = .ok v := by
  cases v with
  | obj ms =>
    obtain ⟨henum, hkey, x, hx, -⟩ := h
    rw [member, hx, setKey, assign, if_neg hkey, Option.getD_some, setMember_self hx, henum]
  | arr xs =>
    have hlength := ne_length_of_stored h rfl
    obtain ⟨i, hi, hlt, -⟩ := h
    rw [member, setKey, if_neg hlength, hi]
    dsimp only [Option.elim]
    rw [setElem, if_pos hlt, List.getD_eq_getElem?_getD, List.getElem?_eq_getElem hlt, Option.getD_some,
      List.set_getElem_self]
  | _ => cases h

/-- A write that reaches its field stores it. -/
theorem stored_setKey {p : Platform} {key : Text} {keys : List Text} {x v v' : Value} (hv : DistinctKeys v)
    (hlength : isArray v → key ≠ js "length") (henters : enters v key) (hx : Stored keys x)
    (h : setKey p key x v = .ok v') : Stored (key :: keys) v' := by
  cases v with
  | obj ms =>
    cases h
    have hkey : key ≠ js "__proto__" := of_decide_eq_true henters
    refine ⟨enumerate_enumerate _, hkey, x, ?_, hx⟩
    rw [getOwn_set hv.1 hkey, if_pos rfl]
  | arr xs =>
    rw [enters] at henters
    obtain ⟨i, hi⟩ := Option.isSome_iff_exists.mp henters
    rw [setKey, if_neg (hlength rfl), hi] at h
    cases h
    refine ⟨i, hi, ?_, ?_⟩
    · rw [setElem]
      split
      · rwa [List.length_set]
      · rw [List.length_append, List.length_append, List.length_replicate, List.length_singleton]
        omega
    · rw [getD_setElem, if_pos rfl]
      exact hx
  | _ => cases henters

theorem stored_updateAt {p : Platform} {field : Text} {x : Value} :
    ∀ {keys : List Text} {v v' : Value}, DistinctKeys v → Walkable keys v →
      (isArray (readPath keys v) → field ≠ js "length") → Reached keys v → enters (readPath keys v) field →
      updateAt p (setKey p field x) keys v = .ok v' → Stored (keys ++ [field]) v' := by
  intro keys
  induction keys with
  | nil =>
    intro v v' hv _ hlength _ henters h
    exact stored_setKey hv hlength henters trivial h
  | cons key keys ih =>
    intro v v' hv hwalkable hlength hreached henters h
    obtain ⟨child, hchild, hset⟩ := bind_eq_ok h
    rw [getKey_eq_member hwalkable.1] at hchild
    exact stored_setKey hv hwalkable.1 hreached.1
      (ih (distinctKeys_member key hv) hwalkable.2 hlength hreached.2 henters hchild) hset

theorem walkable_of_stored {keys : List Text} {field : Text} {v : Value} (h : Stored (keys ++ [field]) v) :
    Walkable keys v ∧ (isArray (readPath keys v) → field ≠ js "length") := by
  induction keys generalizing v with
  | nil => exact ⟨trivial, ne_length_of_stored h⟩
  | cons key keys ih =>
    obtain ⟨hwalkable, hlength⟩ := ih (stored_member h)
    exact ⟨⟨ne_length_of_stored h, hwalkable⟩, hlength⟩

/-- Putting the same value back at a stored place. -/
theorem updateAt_self {p : Platform} {field : Text} : ∀ {keys : List Text} {v : Value},
    Stored (keys ++ [field]) v →
      updateAt p (setKey p field (readPath (keys ++ [field]) v)) keys v = .ok v := by
  intro keys
  induction keys with
  | nil =>
    intro v h
    exact setKey_self h
  | cons key keys ih =>
    intro v h
    rw [updateAt, getKey_eq_member (ne_length_of_stored h), List.cons_append, readPath, ih (stored_member h)]
    exact setKey_self h

/-- A walk along stored keys leaves the document alone. -/
theorem walk_stored {p : Platform} {field : Text} : ∀ {parts keys : List Text} {positional rest : List ℕ}
    {v : Value}, Stored (keys ++ [field]) v → resolve parts positional = .ok (keys, rest) →
      walk p false false parts positional v = .ok (v, some keys, rest) := by
  intro parts
  induction parts with
  | nil =>
    intro keys positional rest v _ h
    cases h
    rfl
  | cons part parts ih =>
    intro keys positional rest v hv h
    obtain ⟨⟨key, positional'⟩, hkey, h⟩ := bind_eq_ok h
    obtain ⟨⟨ks, positional''⟩, hks, h⟩ := bind_eq_ok h
    cases h
    have hwalk := ih (stored_member hv) hks
    unfold walk
    rw [hkey]
    dsimp only [bind, Except.bind]
    rw [getKey_eq_member (ne_length_of_stored hv)]
    cases hm : member v key with
    | obj ms =>
      rw [hm] at hwalk
      dsimp only [Bool.false_and, Bool.false_eq_true, if_false]
      rw [hwalk]
      dsimp only
      rw [← hm, setKey_self hv]
      rfl
    | arr xs =>
      rw [hm] at hwalk
      dsimp only [Bool.false_and, Bool.false_eq_true, if_false]
      rw [hwalk]
      dsimp only
      rw [← hm, setKey_self hv]
      rfl
    | _ =>
      -- A stored key is in a container.
      have hmember := stored_member hv
      rw [hm] at hmember
      cases ks <;> cases hmember

/-! ## The operator -/

/-- The equality of values that `$addToSet` goes by. -/
abbrev same : Value → Value → Bool := equalValues true

theorem addToSet_eq (items current : List Value) : addToSet items current = insertAll same items current := rfl

theorem same_trans (a b c : Value) : same a b → same b c → same a c := fun h h' => equalValues_trans h h'

/-- What `$addToSet` writes in the place of `current`. -/
def inserted (items : List Value) : Value → Option Value
  | .undefined => some (.arr items)
  | .arr xs => some (.arr (addToSet items xs))
  | _ => none

theorem applyAt_addToSet {p : Platform} {options : ModifyOptions} {path : Text} {argument document : Value}
    {target : Target} :
    applyAt p options (js "$addToSet") path argument target document =
      match inserted (addToSetItems argument) (readField target document) with
      | some x => writeField p target x document
      | none => .error (js "Cannot apply $addToSet modifier to non-array") := by
  unfold applyAt
  rw [if_neg (by decide), if_neg (by decide), if_neg (by decide), if_neg (by decide), if_neg (by decide),
    if_neg (by decide), if_neg (by decide), if_pos rfl]
  cases readField target document <;> rfl

theorem applyModifierOperator_addToSet {p : Platform} {options : ModifyOptions} {path : Text}
    {argument document : Value} :
    applyModifierOperator p options (js "$addToSet") path argument document = (do
      let (walked, target) ← modificationTarget p options.arrayIndices false false document path
      applyAt p options (js "$addToSet") path argument target walked) := by
  have hinsert : js "$addToSet" ≠ js "$setOnInsert" := by decide
  unfold applyModifierOperator
  rw [if_neg fun heq => hinsert heq.1]
  dsimp only
  rw [if_neg hinsert, decide_eq_false (show js "$addToSet" ∉ noCreateOperators by decide),
    decide_eq_false (show js "$addToSet" ≠ js "$rename" by decide)]

section
variable {p : Platform} {options : ModifyOptions} {path : Text} {argument document after : Value}

/-- The steps of a `$addToSet` that returns. -/
structure Run (p : Platform) (options : ModifyOptions) (path : Text) (items : List Value)
    (document after : Value) (parents : List Text) (field : Text) (walked x : Value) : Prop where
  notId : ¬(path = js "_id" ∨ startsWith (js "_id.") path)
  nonempty : fieldOf path ≠ []
  walk : ∃ positional rest, Modifier.walk p false false (splitPath path).dropLast
      (positions options.arrayIndices) document = .ok (walked, some parents, positional) ∧
    keyOf (fieldOf path) positional = .ok (field, rest)
  value : inserted items (getKey (valueAt parents walked) field) = some x
  write : updateAt p (setKey p field x) parents walked = .ok after

theorem modifyDocument_iff_run (hpath : path ≠ js "__proto__") :
    modifyDocument p options (single (js "$addToSet") path argument) document = .ok after ↔
      ∃ parents field walked x,
        Run p options path (addToSetItems (cloneValue argument)) document after parents field walked x := by
  rw [modifyDocument_single (by decide) hpath, applyModifierOperator_addToSet]
  constructor
  · intro h
    split at h
    · cases h
    next hid =>
    obtain ⟨⟨walked, target⟩, htarget, h⟩ := bind_eq_ok h
    obtain ⟨hnonempty, parents, positional, rest, hwalk, hfield, hparent⟩ := modificationTarget_iff.mp htarget
    dsimp only at h
    rw [applyAt_addToSet, readField, hparent] at h
    split at h
    · next x hx =>
      unfold writeField at h
      rw [hparent] at h
      exact ⟨parents, target.field, walked, x, hid, hnonempty, ⟨positional, rest, hwalk, hfield⟩, hx, h⟩
    · cases h
  · rintro ⟨parents, field, walked, x, hid, hnonempty, ⟨positional, rest, hwalk, hfield⟩, hx, hwrite⟩
    have htarget := modificationTarget_iff.mpr
      ⟨hnonempty, parents, positional, rest, hwalk, hfield, show (Target.mk (some parents) field).parent = _ from rfl⟩
    rw [if_neg hid, htarget]
    dsimp only [bind, Except.bind]
    rw [applyAt_addToSet]
    change (match inserted _ (getKey (valueAt parents walked) field) with
      | some x => writeField p ⟨some parents, field⟩ x walked
      | none => _) = _
    rw [hx]
    exact hwrite

/-! ## What a run reads and writes -/

/-- The keys that the path stands for lead into objects, and into arrays at an index. -/
def PlacedAt (path : Text) (keys : List Text) (document : Value) : Prop :=
  Placed (fun parent => enters parent (keys.getLastD [])) (splitPath path).dropLast keys.dropLast document

section
variable {items : List Value} {parents keys : List Text} {field : Text} {walked x : Value} {rest : List ℕ}

/-- The keys of a run are those that the path stands for. -/
theorem Run.keys_eq (hr : Run p options path items document after parents field walked x)
    (hpath : resolve (splitPath path) (positions options.arrayIndices) = .ok (keys, rest)) :
    keys = parents ++ [field] := by
  obtain ⟨positional, rest', hwalk, hfield⟩ := hr.walk
  have hall : resolve (_ ++ [fieldOf path]) _ = _ := resolve_append (resolve_of_walk hwalk)
  rw [splitPath_eq, hpath, resolve, hfield] at hall
  cases hall
  rfl

/-- What a run finds and leaves at the end of its keys. -/
structure Reads (items : List Value) (path : Text) (keys : List Text) (document after x : Value) : Prop where
  value : inserted items (readPath keys document) = some x
  found : readPath keys document ≠ .undefined → PlacedAt path keys document
  written : PlacedAt path keys document → readPath keys after = x
  lost : ¬PlacedAt path keys document → readPath keys after = readPath keys document

theorem Run.notLength (hr : Run p options path items document after parents field walked x)
    (hwalkable : Walkable parents walked) : isArray (readPath parents walked) → field ≠ js "length" := by
  rintro harr rfl
  have hvalue := hr.value
  rw [valueAt_eq hwalkable] at hvalue
  cases hxs : readPath parents walked with
  | arr xs =>
    rw [hxs, getKey, if_pos rfl] at hvalue
    cases hvalue
  | _ => rw [hxs] at harr; cases harr

theorem Run.reads (hr : Run p options path items document after parents field walked x)
    (hd : DistinctKeys document) (hproto : js "__proto__" ∉ parents ++ [field]) :
    Reads items path (parents ++ [field]) document after x := by
  obtain ⟨positional, rest', hwalk, -⟩ := hr.walk
  have hw := walked_of_walk hd hwalk
  have hlength := hr.notLength hw.walkable'
  have hplaced : PlacedAt path (parents ++ [field]) document ↔
      Reached parents walked ∧ enters (readPath parents walked) field := by
    rw [PlacedAt, List.dropLast_concat, List.getLastD_concat]
    exact placed_iff_of_walk hd hwalk
  have hsame : readPath (parents ++ [field]) walked = readPath (parents ++ [field]) document :=
    hw.same _ fun hbegins => by
      have hlen := hbegins.length_le
      rw [List.length_append, List.length_singleton] at hlen
      omega
  have hset := readPath_set hw.distinct hw.walkable' hlength hr.write []
  refine ⟨?_, fun hne => hplaced.mpr ?_, fun h => hset.1 (hplaced.mp h),
    fun h => (hset.2 fun h' => h (hplaced.mpr h')).trans hsame⟩
  · have hvalue := hr.value
    rwa [valueAt_eq hw.walkable', getKey_eq_member hlength, ← readPath_concat, hsame] at hvalue
  · obtain ⟨hparents, hfield⟩ := reached_append.mp (reached_of_ne hproto (hsame ▸ hne))
    exact ⟨hparents, hfield.1⟩

/-- The same run again, where the items are there. -/
theorem Run.again (hr : Run p options path items document after parents field walked x)
    (hd : DistinctKeys document) (hplaced : PlacedAt path (parents ++ [field]) document)
    (hthere : inserted items x = some x) :
    Run p options path items after after parents field after x := by
  obtain ⟨positional, rest', hwalk, hfield⟩ := hr.walk
  have hw := walked_of_walk hd hwalk
  have hlength := hr.notLength hw.walkable'
  rw [PlacedAt, List.dropLast_concat, List.getLastD_concat, placed_iff_of_walk hd hwalk] at hplaced
  have hstored := stored_updateAt hw.distinct hw.walkable' hlength hplaced.1 hplaced.2 hr.write
  have hread := (readPath_set hw.distinct hw.walkable' hlength hr.write []).1 hplaced
  have hwalkable := walkable_of_stored hstored
  refine ⟨hr.notId, hr.nonempty, ⟨positional, rest', walk_stored hstored (resolve_of_walk hwalk), hfield⟩, ?_, ?_⟩
  · rw [valueAt_eq hwalkable.1, getKey_eq_member hwalkable.2, ← readPath_concat, hread]
    exact hthere
  · rw [← show readPath (parents ++ [field]) after = x from hread]
    exact updateAt_self hstored

theorem Run.distinct (hr : Run p options path items document after parents field walked x)
    (hd : DistinctKeys document) (hitems : DistinctKeysElems items) : DistinctKeys after := by
  obtain ⟨positional, rest', hwalk, -⟩ := hr.walk
  have hw := walked_of_walk hd hwalk
  refine distinctKeys_updateAt (fun hv hset => distinctKeys_setKey ?_ hv hset) hw.distinct hr.write
  have hvalue := hr.value
  have hcurrent : DistinctKeys (getKey (valueAt parents walked) field) := by
    rw [valueAt_eq hw.walkable']
    exact distinctKeys_getKey field (distinctKeys_readPath parents hw.distinct)
  unfold inserted at hvalue
  split at hvalue
  · cases hvalue
    exact hitems
  · next xs hxs =>
    cases hvalue
    rw [hxs] at hcurrent
    refine distinctKeysElems_iff.mpr fun y hy => ?_
    rcases mem_addToSet hy with hy | hy
    · exact distinctKeysElems_iff.mp hcurrent y hy
    · exact distinctKeysElems_iff.mp hitems y hy
  · cases hvalue

end

end

/-! ## Set insertion -/

/-- What `$addToSet` is for: the array under the keys is the previous one and the items that are equal
to none before them; the same again changes nothing; and no repetition comes in. -/
structure InsertsOnce (p : Platform) (options : ModifyOptions) (path : Text) (argument after : Value)
    (keys : List Text) (prev items : List Value) : Prop where
  inserted : readPath keys after = .arr (prev ++ firsts same prev items)
  again : modifyDocument p options (single (js "$addToSet") path argument) after = .ok after
  distinct : ∀ ys, readPath keys after = .arr ys → Distinct same prev → Distinct same ys

/-- The updates that do so: arrays are entered at an index, every item is equal to itself, and the
items that go into a new array are no repetitions. -/
structure Sound (path : Text) (keys : List Text) (document : Value) (items : List Value) : Prop where
  placed : PlacedAt path keys document
  selfEqual : ∀ x ∈ items, same x x
  distinct : readPath keys document = .undefined → Distinct same items

theorem distinctKeys_addToSetItems (argument : Value) :
    DistinctKeysElems (addToSetItems (cloneValue argument)) := by
  have hargument := distinctKeys_cloneValue argument
  unfold addToSetItems
  split
  · next each heach =>
    cases hc : cloneValue argument with
    | obj ms =>
      rw [hc, ownMember] at heach
      rw [hc] at hargument
      have hmember : DistinctKeys ((getOwn (js "$each") _).getD .undefined) := distinctKeys_getOwn hargument.2
      rwa [heach] at hmember
    | _ => rw [hc] at heach; cases heach
  · exact ⟨hargument, trivial⟩

/-- What an item is equal to, and what is equal to the item, is equal to itself. -/
theorem same_self {x y : Value} (hx : DistinctKeys x) (hy : DistinctKeys y) (h : same y x) : same x x :=
  same_trans x y x (equalValues_symm hy hx h) h

/-- **`$addToSet` is set insertion** in exactly the updates that are sound. -/
theorem insertsOnce_iff (p : Platform) (options : ModifyOptions) {path : Text}
    {argument document after : Value} {keys : List Text} {rest : List ℕ} {prev : List Value}
    (hdocument : DistinctKeys document)
    (hpath : resolve (splitPath path) (positions options.arrayIndices) = .ok (keys, rest))
    (hproto : js "__proto__" ∉ keys)
    (hprev : readPath keys document = .arr prev ∨ readPath keys document = .undefined ∧ prev = [])
    (h : modifyDocument p options (single (js "$addToSet") path argument) document = .ok after) :
    InsertsOnce p options path argument after keys prev (addToSetItems (cloneValue argument)) ↔
      Sound path keys document (addToSetItems (cloneValue argument)) := by
  have hne : path ≠ js "__proto__" := by
    rintro rfl
    cases hpath
    exact hproto (by decide)
  obtain ⟨parents, field, walked, x, hr⟩ := (modifyDocument_iff_run hne).mp h
  obtain rfl := hr.keys_eq hpath
  have hreads := hr.reads hdocument hproto
  have hitems := distinctKeys_addToSetItems argument
  generalize hgen : addToSetItems (cloneValue argument) = items at *
  have hdistinct := hr.distinct hdocument hitems
  constructor
  · intro hinserts
    have hplaced : PlacedAt path (parents ++ [field]) document := by
      by_contra hnot
      have hlost := hreads.lost hnot
      rw [hinserts.inserted] at hlost
      exact hnot (hreads.found (by rw [← hlost]; nofun))
    refine ⟨hplaced, fun y hy => ?_, fun hundefined => ?_⟩
    · -- The second run finds every item in the array.
      obtain ⟨parents', field', walked', x', hr'⟩ := (modifyDocument_iff_run hne).mp hinserts.again
      rw [hgen] at hr'
      have hkeys := hr'.keys_eq hpath
      have hreads' := hr'.reads hdistinct (hkeys ▸ hproto)
      rw [← hkeys] at hreads'
      have hread' := hreads'.written (hreads'.found (by rw [hinserts.inserted]; nofun))
      have hvalue' := hreads'.value
      rw [← hread', hinserts.inserted] at hvalue'
      have hself := Value.arr.inj (Option.some.inj hvalue')
      obtain ⟨b, hb, hby⟩ := List.any_eq_true.mp (insertAll_eq_self.mp hself y hy)
      have helems := distinctKeys_readPath (parents ++ [field]) hdistinct
      rw [hinserts.inserted] at helems
      exact same_self (distinctKeysElems_iff.mp hitems y hy) (distinctKeysElems_iff.mp helems b hb) hby
    · have hvalue := hreads.value
      rw [hundefined] at hvalue
      cases hvalue
      have hread := hreads.written hplaced
      rw [hinserts.inserted] at hread
      rcases hprev with hprev | ⟨-, rfl⟩
      · rw [hundefined] at hprev
        cases hprev
      · exact (firsts_eq_self.mp (Value.arr.inj hread)).1
  · intro hsound
    have hread := hreads.written hsound.placed
    have hvalue := hreads.value
    have hagain : inserted items x = some x →
        modifyDocument p options (single (js "$addToSet") path argument) after = .ok after := fun hthere =>
      (modifyDocument_iff_run hne).mpr ⟨parents, field, after, x,
        hgen.symm ▸ hr.again hdocument hsound.placed hthere⟩
    rcases hprev with hprev | ⟨hundefined, rfl⟩
    · rw [hprev] at hvalue
      cases hvalue
      rw [addToSet_eq, insertAll_eq same_trans] at hread hagain
      refine ⟨hread, hagain ?_, fun ys hys hprev => ?_⟩
      · refine congrArg (some ∘ Value.arr) (insertAll_eq_self.mpr fun y hy => ?_)
        exact any_append_firsts same_trans hy (hsound.selfEqual y hy)
      · rw [hread] at hys
        cases hys
        exact distinct_append_firsts hprev items
    · rw [hundefined] at hvalue
      cases hvalue
      have hitems' := hsound.distinct hundefined
      have hfirsts : firsts same [] items = items := firsts_eq_self.mpr ⟨hitems', fun _ _ => rfl⟩
      refine ⟨by rw [hread, hfirsts]; rfl, hagain ?_, fun ys hys _ => ?_⟩
      · refine congrArg (some ∘ Value.arr) (insertAll_eq_self.mpr fun y hy => ?_)
        exact List.any_eq_true.mpr ⟨y, hy, hsound.selfEqual y hy⟩
      · rw [hread] at hys
        cases hys
        exact hitems'

/-- `{ $each: [true, true] }`. -/
def twice : Value := .obj [(js "$each", .arr [.bool true, .bool true])]

/-- `{ tags: [] }`. -/
def untagged : Value := .obj [(js "tags", .arr [])]

theorem insertsOnce_iff_untagged : ∃ after,
    modifyDocument .integral ⟨false, none, 0⟩ (single (js "$addToSet") (js "tags") twice) untagged =
      .ok after ∧
    InsertsOnce .integral ⟨false, none, 0⟩ (js "tags") twice after [js "tags"] []
      (addToSetItems (cloneValue twice)) := by
  have hdistinct : DistinctKeys untagged := ⟨by decide, trivial, trivial⟩
  refine ⟨_, rfl, (insertsOnce_iff .integral ⟨false, none, 0⟩ hdistinct rfl (by decide) (.inl rfl) rfl).mpr
    ⟨?_, fun x hx => ?_, nofun⟩⟩
  · exact show enters _ _ = true by decide
  · rw [show addToSetItems (cloneValue twice) = [.bool true, .bool true] from rfl] at hx
    obtain rfl : x = .bool true := by simpa using hx
    rfl

/-- A new array gets the repetitions. -/
theorem repetitions_written : ∃ after,
    modifyDocument .integral ⟨false, none, 0⟩ (single (js "$addToSet") (js "tags") twice) (.obj []) =
      .ok after ∧
    ¬InsertsOnce .integral ⟨false, none, 0⟩ (js "tags") twice after [js "tags"] []
      (addToSetItems (cloneValue twice)) := by
  refine ⟨_, rfl, fun hinserts => ?_⟩
  cases hinserts.inserted

end TypeFerry.Minimongo.SetInsertion
