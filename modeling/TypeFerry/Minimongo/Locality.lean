import TypeFerry.Minimongo.Places

/-! # Update operators keep to their path

One operator on one path: every place apart from the path, and from the target of
a `$rename`, reads the same before and after, but for two spellings that mean
something else on arrays. `length` is written like a field and cuts elements off,
and `$unset` of a numeric key that is no index (`00`) blanks the element under
its number. -/
namespace TypeFerry.Minimongo.Locality
open TypeFerry.Lib.Numeral TypeFerry.Lib.JsonText TypeFerry.Ejson.Clone TypeFerry.Ejson.Canonical
open TypeFerry.Minimongo.Values TypeFerry.Minimongo.Matcher TypeFerry.Minimongo.Modifier
open TypeFerry.Minimongo.Names TypeFerry.Minimongo.Order TypeFerry.Minimongo.Representation
open TypeFerry.Minimongo.Places

/-! ## What goes wrong -/

/-- The value of the field before the operator. -/
def currentAt (path : Text) (document : Value) : Value :=
  getKey (readPath (splitPath path).dropLast document) (fieldOf path)

/-- The path that the operator writes, and the value, where the value before it is not an array
and not missing. -/
def writes (p : Platform) (options : ModifyOptions) (operator path : Text) (argument document : Value) :
    Option (Text × Value) :=
  if operator = js "$set" ∨ operator = js "$setOnInsert" ∧ options.isInsert then some (path, argument)
  else if operator ∈ arithmeticOperators then match argument, currentAt path document with
    | .num n, .num c => (arithmetic p operator (some c) n).map fun r => (path, .num r)
    | _, _ => none
  else if operator = js "$currentDate" then some (path, .date (some options.now))
  else if operator = js "$rename" then match argument, currentAt path document with
    | .str _, .undefined => none
    | .str renamed, current => some (renamed, current)
    | _, _ => none
  else none

/-- The value is written to the length of an array, and there is something at an index from
that length on, apart from the source. -/
def Cuts (p : Platform) (source written : Text) (x document : Value) : Prop :=
  fieldOf written = js "length" ∧ ∃ xs ys i,
    readPath (splitPath written).dropLast document = .arr xs ∧ setLength p x xs = .ok ys ∧ ys.length ≤ i ∧
    ¬splitPath source <+: (splitPath written).dropLast ++ [indexText i] ∧
    readPath ((splitPath written).dropLast ++ [indexText i]) document ≠ .undefined

/-- The field is a numeric key, but no index, of an array that has something other than `null`
under its number. -/
def Blanks (path : Text) (document : Value) : Prop :=
  isNumericKey (fieldOf path) ∧ arrayKey? (fieldOf path) = none ∧ keyIndex (fieldOf path) < 2 ^ 32 - 1 ∧
  ∃ xs, readPath (splitPath path).dropLast document = .arr xs ∧
    xs.getD (keyIndex (fieldOf path)) .undefined ≠ .null

/-- The places apart from the path, and from the target of a `$rename`, read the same. -/
def KeepsToPath (operator path : Text) (argument document after : Value) : Prop :=
  ∀ q, Apart (splitPath path) q →
    (∀ renamed, operator = js "$rename" → argument = .str renamed → Apart (splitPath renamed) q) →
    readPath q after = readPath q document

/-- Neither of the two goes wrong. -/
def Harmless (p : Platform) (options : ModifyOptions) (operator path : Text)
    (argument document : Value) : Prop :=
  (∀ w ∈ writes p options operator path argument document, ¬Cuts p path w.1 w.2 document) ∧
  (operator = js "$unset" → ¬Blanks path document)

/-! ## Writing a field -/

-- The equations are made here, before the many proofs that ask for them side by side.
section
attribute [local simp] currentAt writes
end

theorem apart_snoc {keys q : List Text} {field : Text} (h : Apart (keys ++ [field]) q) :
    Apart q keys ∨ ∃ k r, q = keys ++ k :: r ∧ k ≠ field := by
  by_cases hq : keys <+: q
  · obtain ⟨s, rfl⟩ := hq
    cases s with
    | nil => exact absurd (by simp) h.2
    | cons k r =>
      refine .inr ⟨k, r, rfl, ?_⟩
      rintro rfl
      exact h.1 (by rw [List.append_cons keys k r]; exact List.prefix_append _ _)
  · exact .inl ⟨fun hbegins => h.2 (hbegins.trans (List.prefix_append _ _)), hq⟩

/-- Two ways that part. -/
theorem apart_append {keys r s : List Text} {k l : Text} (h : k ≠ l) :
    Apart (keys ++ k :: r) (keys ++ l :: s) := by
  constructor
  · intro hbegins
    exact h (List.cons_prefix_cons.mp ((List.prefix_append_right_inj keys).mp hbegins)).1
  · intro hbegins
    exact h (List.cons_prefix_cons.mp ((List.prefix_append_right_inj keys).mp hbegins)).1.symm

section
variable {p : Platform} {target : Target} {keys : List Text} {x d d' : Value}

theorem updated_writeField (hparent : target.parent = some keys) (hd : DistinctKeys d)
    (hwalkable : Walkable keys d) (h : writeField p target x d = .ok d') :
    Updated (setKey p target.field x) keys d d' := by
  unfold writeField at h
  rw [hparent] at h
  exact updated_of_updateAt hd hwalkable h

/-- **A write keeps to its field** where the field is not the length of an array. -/
theorem readPath_writeField (hparent : target.parent = some keys) (hd : DistinctKeys d)
    (hwalkable : Walkable keys d)
    (hlength : isArray (readPath keys d) → target.field ≠ js "length")
    (h : writeField p target x d = .ok d') {q : List Text} (hq : Apart (keys ++ [target.field]) q) :
    readPath q d' = readPath q d := by
  obtain ⟨hsame, w, hw, hchanged, -⟩ := updated_writeField hparent hd hwalkable h
  rcases apart_snoc hq with hq | ⟨k, r, rfl, hk⟩
  · exact hsame q hq
  · rcases hchanged (k :: r) with heq | heq
    · rw [heq, readPath_append, readPath, readPath,
        member_setKey (distinctKeys_readPath keys hd) hlength hw, if_neg fun h => hk h.1]
    · exact heq

omit target keys x d d' in
theorem setLength_eq_ok {v : Value} {xs ys : List Value} (h : setLength p v xs = .ok ys) :
    ys = xs.take ys.length ++ List.replicate (ys.length - xs.length) .undefined ∧
    ∀ xs', ∃ ys', setLength p v xs' = .ok ys' ∧ ys'.length = ys.length := by
  unfold setLength at h
  split at h
  · next n hn =>
    split at h
    · next hrange =>
      have hlength : ∀ zs : List Value,
          (zs.take n.toNat ++ List.replicate (n.toNat - zs.length) Value.undefined).length = n.toNat := by
        intro zs
        simp
        omega
      cases h
      refine ⟨by rw [hlength], fun xs' =>
        ⟨xs'.take n.toNat ++ List.replicate (n.toNat - xs'.length) .undefined, ?_, ?_⟩⟩
      · unfold setLength
        rw [hn]
        exact if_pos hrange
      · rw [hlength, hlength]
    · cases h
  · cases h

omit target keys x d d' in
theorem member_setLength {v : Value} {xs ys : List Value} (h : setLength p v xs = .ok ys) (k : Text) :
    member (.arr ys) k =
      if (arrayKey? k).any (ys.length ≤ ·) then .undefined else member (.arr xs) k := by
  rw [member, member]
  cases arrayKey? k with
  | none => rfl
  | some i =>
    simp only [Option.elim, Option.any_some, decide_eq_true_eq]
    split
    · next hi => rw [List.getD_eq_getElem?_getD, List.getElem?_eq_none hi]; rfl
    · next hi =>
      rw [(setLength_eq_ok h).1, List.getD_eq_getElem?_getD, List.getD_eq_getElem?_getD]
      by_cases hx : i < xs.length
      · rw [List.getElem?_append_left (by simp; omega), List.getElem?_take_of_lt (by omega)]
      · rw [List.getElem?_append_right (by simp; omega), List.getElem?_replicate,
          List.getElem?_eq_none (l := xs) (by omega)]
        split <;> rfl

/-- A write of the length of an array cuts off the elements from that length on. -/
theorem readPath_writeLength {xs : List Value} (hparent : target.parent = some keys)
    (hd : DistinctKeys d) (hwalkable : Walkable keys d)
    (hxs : readPath keys d = .arr xs) (hlength : target.field = js "length")
    (hreached : Reached keys d) (h : writeField p target x d = .ok d') :
    ∃ ys, setLength p x xs = .ok ys ∧ (∀ q, Apart q keys → readPath q d' = readPath q d) ∧
      ∀ k r, readPath (keys ++ k :: r) d' =
        if (arrayKey? k).any (ys.length ≤ ·) then .undefined else readPath (keys ++ k :: r) d := by
  obtain ⟨hsame, w, hw, -, hchanged⟩ := updated_writeField hparent hd hwalkable h
  rw [hxs, setKey, if_pos hlength] at hw
  obtain ⟨ys, hys, hw⟩ := bind_eq_ok hw
  cases hw
  refine ⟨ys, hys, hsame, fun k r => ?_⟩
  rw [hchanged hreached, readPath_append, hxs, readPath, readPath, member_setLength hys]
  split
  · exact readPath_undefined r
  · rfl

/-! ## Removing a field -/

omit p target keys x d d' in
/-- What `removeField` makes of the parent. -/
def removeKey (field : Text) : Value → Value
  | .arr xs =>
    if isNumericKey field ∧ keyIndex field < 2 ^ 32 - 1 then .arr (setElem (keyIndex field) .null xs)
    else .arr xs
  | parent => deleteKey field parent

theorem removeField_eq (hparent : target.parent = some keys) :
    removeField p target d = updateAt p (fun w => .ok (removeKey target.field w)) keys d := by
  unfold removeField
  rw [hparent]
  dsimp only
  congr 1
  funext w
  cases w with
  | arr xs =>
    dsimp only [removeKey]
    split
    · next hnumeric =>
      split
      · next hi => rw [if_pos ⟨hnumeric, hi⟩]
      · next hi => rw [if_neg fun h => hi h.2]
    · next hnumeric => rw [if_neg fun h => hnumeric h.1]
  | _ => rfl

omit p target keys x d d' in
theorem distinctKeys_removeKey {field : Text} {w : Value} (hw : DistinctKeys w) :
    DistinctKeys (removeKey field w) := by
  cases w with
  | arr xs =>
    rw [removeKey]
    split
    · refine distinctKeysElems_iff.mpr fun y hy => ?_
      rcases mem_setElem hy with hy | rfl | rfl
      · exact distinctKeysElems_iff.mp hw y hy
      · trivial
      · trivial
    · exact hw
  | obj ms =>
    exact ⟨stable_nodup.delete trivial hw.1,
      distinctKeysEntries_iff.mpr fun m hm => distinctKeysEntries_iff.mp hw.2 m (List.mem_of_mem_filter hm)⟩
  | _ => trivial

omit p target keys x d d' in
theorem member_removeKey {field k : Text} (hk : k ≠ field) (w : Value) :
    member (removeKey field w) k =
      if isArray w ∧ isNumericKey field ∧ keyIndex field < 2 ^ 32 - 1 ∧ arrayKey? k = some (keyIndex field)
      then .null else member w k := by
  cases w with
  | arr xs =>
    rw [removeKey]
    by_cases hfield : isNumericKey field ∧ keyIndex field < 2 ^ 32 - 1
    · rw [if_pos hfield, member, member]
      cases hindex : arrayKey? k with
      | none => rw [if_neg (by simp)]; rfl
      | some i =>
        rw [Option.elim, Option.elim, getD_setElem]
        by_cases hi : i = keyIndex field
        · rw [if_pos hi, if_pos ⟨rfl, hfield.1, hfield.2, by rw [hi]⟩]
        · rw [if_neg hi, if_neg fun h => hi (Option.some.inj h.2.2.2)]
    · rw [if_neg hfield, if_neg fun h => hfield ⟨h.2.1, h.2.2.1⟩]
  | obj ms =>
    rw [if_neg fun h => Bool.false_ne_true h.1, removeKey, deleteKey, member, member, getOwn_filter_ne hk]
    intro xs h
    cases h
  | _ =>
    rw [if_neg fun h => Bool.false_ne_true h.1]
    rfl

theorem updated_removeField (hparent : target.parent = some keys) (hd : DistinctKeys d)
    (hwalkable : Walkable keys d) (h : removeField p target d = .ok d') :
    Updated (fun w => .ok (removeKey target.field w)) keys d d' := by
  rw [removeField_eq hparent] at h
  exact updated_of_updateAt hd hwalkable h

theorem distinctKeys_removeField (hparent : target.parent = some keys) (hd : DistinctKeys d)
    (h : removeField p target d = .ok d') : DistinctKeys d' := by
  rw [removeField_eq hparent] at h
  refine distinctKeys_updateAt (fun hw heq => ?_) hd h
  cases heq
  exact distinctKeys_removeKey hw

/-- **A removal keeps to its field** where no other key of an array has its number. -/
theorem readPath_removeField (hparent : target.parent = some keys) (hd : DistinctKeys d)
    (hwalkable : Walkable keys d) (h : removeField p target d = .ok d') {q : List Text}
    (hq : Apart (keys ++ [target.field]) q)
    (hblank : ∀ xs, readPath keys d = .arr xs → isNumericKey target.field →
      keyIndex target.field < 2 ^ 32 - 1 → arrayKey? target.field = none →
      xs.getD (keyIndex target.field) .undefined = .null) :
    readPath q d' = readPath q d := by
  obtain ⟨hsame, w, hw, hchanged, -⟩ := updated_removeField hparent hd hwalkable h
  cases hw
  rcases apart_snoc hq with hq | ⟨k, r, rfl, hk⟩
  · exact hsame q hq
  · rcases hchanged (k :: r) with heq | heq
    · rw [heq, readPath_append, readPath, readPath, member_removeKey hk]
      split
      · next hindex =>
        obtain ⟨harr, hnumeric, hi, hindex⟩ := hindex
        cases hxs : readPath keys d with
        | arr xs =>
          have hfield : arrayKey? target.field = none := by
            cases hkey : arrayKey? target.field with
            | none => rfl
            | some i =>
              refine absurd ?_ hk
              rw [arrayKey?_eq hindex, arrayKey?_eq hkey, keyIndex_indexText]
          rw [member, hindex, Option.elim, hblank xs hxs hnumeric hi hfield]
        | _ => rw [hxs] at harr; cases harr
      · rfl
    · exact heq

end

/-! ## Targets -/

/-- Where `modificationTarget` ends: at a missing parent, or at the parent of the field. -/
structure Targeted (forbidArray : Bool) (path : Text) (document document' : Value) (target : Target) :
    Prop where
  field : target.field = fieldOf path
  distinct : DistinctKeys document'
  same : ∀ q, ¬q <+: (splitPath path).dropLast → readPath q document' = readPath q document
  read : readField target document' = currentAt path document
  parent : target.parent = none ∧ isArray (readPath (splitPath path).dropLast document) = false ∨
    target.parent = some (splitPath path).dropLast ∧ Walkable (splitPath path).dropLast document' ∧
      (∀ xs, readPath (splitPath path).dropLast document' = .arr xs ↔
        readPath (splitPath path).dropLast document = .arr xs) ∧
      (forbidArray → (∀ q, q <+: (splitPath path).dropLast → q ≠ (splitPath path).dropLast →
          isArray (readPath q document) = false) ∧
        ∀ q, arrayLength? (readPath q document') = arrayLength? (readPath q document))

theorem getKey_filled (v : Value) (key : Text) : getKey (filled [] v) key = getKey v key := by
  cases v <;> rfl

theorem targeted_of_modificationTarget {p : Platform} {arrayIndices : Option (List ArrayStep)}
    {noCreate forbidArray : Bool} {document document' : Value} {path : Text} {target : Target}
    (hpath : js "$" ∉ splitPath path) (hd : DistinctKeys document)
    (h : modificationTarget p arrayIndices noCreate forbidArray document path = .ok (document', target)) :
    Targeted forbidArray path document document' target := by
  have hparts : js "$" ∉ (splitPath path).dropLast := fun hmem => hpath (List.mem_of_mem_dropLast hmem)
  have hfield : fieldOf path ≠ js "$" := by
    intro heq
    refine hpath ?_
    rw [← splitPath_eq path, heq]
    exact List.mem_append_right _ List.mem_cons_self
  unfold modificationTarget at h
  dsimp only at h
  split at h
  · cases h
  · obtain ⟨⟨document₁, keys, positional⟩, hwalk, h⟩ := bind_eq_ok h
    dsimp only at h
    cases keys with
    | none =>
      rw [Option.isNone_none, if_pos rfl] at h
      cases h
      obtain ⟨hdistinct, hsame⟩ := same_of_walk_none hparts hd hwalk
      obtain ⟨hobj, harr⟩ := container_of_walk_none hparts hwalk
      refine ⟨rfl, hdistinct, hsame, ?_, .inl ⟨rfl, harr⟩⟩
      rw [currentAt]
      cases hparent : readPath (splitPath path).dropLast document with
      | obj ms => rw [hparent] at hobj; cases hobj
      | arr xs => rw [hparent] at harr; cases harr
      | _ => rfl
    | some keys =>
      rw [if_neg (by simp)] at h
      obtain ⟨⟨field, rest⟩, hkey, h⟩ := bind_eq_ok h
      cases h
      obtain rfl := keys_of_walk hparts hwalk
      have hwalked := walked_of_walk hd hwalk
      have hend : field = fieldOf path := keyOf_of_ne hfield hkey
      refine ⟨hend, hwalked.distinct, hwalked.same, ?_,
        .inr ⟨rfl, hwalked.walkable', fun xs => readPath_end_eq_arr hd hwalk, ?_⟩⟩
      · change getKey (valueAt _ document') field = _
        rw [valueAt_eq hwalked.walkable', hend, currentAt]
        rcases readPath_end_of_walk hd hwalk with heq | heq
        · rw [heq]
        · rw [heq, getKey_filled]
      · rintro rfl
        exact lengths_of_walk hd hwalk

/-! ## Operators -/

/-- What an operator does at its target, and what `writes` says of it. -/
inductive Effect (p : Platform) (options : ModifyOptions) (operator path : Text) (argument original : Value)
    (target : Target) (document : Value) : Value → Prop
  | same (hunset : operator ≠ js "$unset")
      (hwrites : writes p options operator path argument original = none) :
      Effect p options operator path argument original target document document
  | written {x after : Value} (hunset : operator ≠ js "$unset") (hrename : operator ≠ js "$rename")
      (hwrites : writes p options operator path argument original = some (path, x) ∨
        writes p options operator path argument original = none ∧
          ∀ c, currentAt path original ≠ .num c)
      (h : writeField p target x document = .ok after) :
      Effect p options operator path argument original target document after
  | removed {after : Value} (hunset : operator = js "$unset") (h : removeField p target document = .ok after) :
      Effect p options operator path argument original target document after
  | renamed {renamed : Text} {removed document₂ after : Value} {destination : Target}
      (hrename : operator = js "$rename") (hargument : argument = .str renamed)
      (hcurrent : currentAt path original ≠ .undefined)
      (hremove : removeField p target document = .ok removed)
      (hdestination : modificationTarget p none false true removed renamed = .ok (document₂, destination))
      (h : writeField p destination (currentAt path original) document₂ = .ok after) :
      Effect p options operator path argument original target document after

theorem writes_other {p : Platform} {options : ModifyOptions} {operator path : Text}
    {argument document : Value} (hset : operator ≠ js "$set") (hinsert : operator ≠ js "$setOnInsert")
    (harithmetic : operator ∉ arithmeticOperators) (hdate : operator ≠ js "$currentDate")
    (hrename : operator ≠ js "$rename") : writes p options operator path argument document = none := by
  unfold writes
  rw [if_neg (by simp [hset, hinsert]), if_neg harithmetic, if_neg hdate, if_neg hrename]

theorem effect_of_arithmetic {p : Platform} {options : ModifyOptions} {operator path : Text} {n : Number}
    {original document after : Value} {target : Target} (hoperator : operator ∈ arithmeticOperators)
    (c : Option Number)
    (hcurrent : (∃ m, c = some m ∧ currentAt path original = .num m) ∨
      c = none ∧ currentAt path original = .undefined)
    (h : (arithmetic p operator c n).elim (.ok document) (fun r => writeField p target (.num r) document) =
      .ok after) :
    Effect p options operator path (.num n) original target document after := by
  have hne : ∀ o : Text, o ∉ arithmeticOperators → operator ≠ o := fun o ho heq => ho (heq ▸ hoperator)
  have hunset : operator ≠ js "$unset" := hne _ (by decide)
  have hrename : operator ≠ js "$rename" := hne _ (by decide)
  have hplain : ¬(operator = js "$set" ∨ operator = js "$setOnInsert" ∧ options.isInsert) := by
    simp [hne (js "$set") (by decide), hne (js "$setOnInsert") (by decide)]
  rcases hcurrent with ⟨m, rfl, hcurrent⟩ | ⟨rfl, hcurrent⟩
  · have hwrites : writes p options operator path (.num n) original =
        (arithmetic p operator (some m) n).map fun r => (path, Value.num r) := by
      unfold writes
      rw [if_neg hplain, if_pos hoperator, hcurrent]
    cases hr : arithmetic p operator (some m) n with
    | none =>
      rw [hr] at h hwrites
      cases h
      exact .same hunset hwrites
    | some r =>
      rw [hr] at h hwrites
      exact .written hunset hrename (.inl hwrites) h
  · have hwrites : writes p options operator path (.num n) original = none := by
      unfold writes
      rw [if_neg hplain, if_pos hoperator, hcurrent]
    cases hr : arithmetic p operator none n with
    | none =>
      rw [hr] at h
      cases h
      exact .same hunset hwrites
    | some r =>
      rw [hr] at h
      exact .written hunset hrename (.inr ⟨hwrites, by simp [hcurrent]⟩) h

theorem effect_of_applyAt {p : Platform} {options : ModifyOptions} {operator path : Text}
    {argument original document after : Value} {target : Target} (hinsert : operator ≠ js "$setOnInsert")
    (hcurrent : readField target document = currentAt path original)
    (h : applyAt p options operator path argument target document = .ok after) :
    Effect p options operator path argument original target document after := by
  have hnone := fun hset harithmetic hdate hrename =>
    @writes_other p options operator path argument original hset hinsert harithmetic hdate hrename
  unfold applyAt at h
  by_cases hset : operator = js "$set"
  · rw [if_pos hset] at h
    obtain ⟨⟨⟩, -, h⟩ := bind_eq_ok h
    refine .written (by rw [hset]; decide) (by rw [hset]; decide) (.inl ?_) h
    unfold writes
    rw [if_pos (.inl hset)]
  rw [if_neg hset] at h
  by_cases hunset : operator = js "$unset"
  · rw [if_pos hunset] at h
    exact .removed hunset h
  rw [if_neg hunset] at h
  by_cases harithmetic : operator ∈ arithmeticOperators
  · rw [if_pos harithmetic, hcurrent] at h
    split at h
    · next hc => exact effect_of_arithmetic harithmetic none (.inr ⟨rfl, hc⟩) h
    · next m hc => exact effect_of_arithmetic harithmetic (some m) (.inl ⟨m, rfl, hc⟩) h
    · cases h
    · cases h
  rw [if_neg harithmetic] at h
  by_cases hdate : operator = js "$currentDate"
  · rw [if_pos hdate] at h
    split at h
    · refine .written hunset (by rw [hdate]; decide) (.inl ?_) h
      unfold writes
      rw [if_neg (by simp [hset, hinsert]), if_neg harithmetic, if_pos hdate]
    · cases h
  rw [if_neg hdate] at h
  by_cases hrename : operator = js "$rename"
  · rw [if_pos hrename] at h
    split at h
    · next renamed =>
      split at h
      · cases h
      split at h
      · cases h
      split at h
      · next hundefined =>
        cases h
        refine .same hunset ?_
        unfold writes
        rw [if_neg (by simp [hset, hinsert]), if_neg harithmetic, if_neg hdate, if_pos hrename]
        rw [hcurrent] at hundefined
        cases hc : currentAt path original with
        | undefined => rfl
        | _ => rw [hc] at hundefined; cases hundefined
      · next hundefined =>
        obtain ⟨removed, hremove, h⟩ := bind_eq_ok h
        obtain ⟨⟨document₂, destination⟩, hdestination, h⟩ := bind_eq_ok h
        rw [hcurrent] at h hundefined
        exact .renamed hrename rfl (fun heq => hundefined (by rw [heq]; rfl)) hremove hdestination h
    · cases h
  rw [if_neg hrename] at h
  have hwrites := hnone hset harithmetic hdate hrename
  -- The other operators leave numbers alone.
  have hwritten : ∀ {x : Value}, (∀ c, currentAt path original ≠ .num c) →
      writeField p target x document = .ok after →
      Effect p options operator path argument original target document after :=
    fun hc hwrite => .written hunset hrename (.inr ⟨hwrites, hc⟩) hwrite
  by_cases hpush : operator = js "$push"
  · rw [if_pos hpush] at h
    unfold applyPush at h
    rw [hcurrent] at h
    split at h
    · next hc =>
      obtain ⟨ys, -, h⟩ := bind_eq_ok h
      exact hwritten (by simp [hc]) h
    · next xs hc =>
      obtain ⟨ys, -, h⟩ := bind_eq_ok h
      exact hwritten (by simp [hc]) h
    · cases h
  rw [if_neg hpush] at h
  by_cases hpushAll : operator = js "$pushAll"
  · rw [if_pos hpushAll, hcurrent] at h
    split at h
    · next hc => exact hwritten (by simp [hc]) h
    · next hc => exact hwritten (by simp [hc]) h
    · cases h
    · cases h
  rw [if_neg hpushAll] at h
  by_cases haddToSet : operator = js "$addToSet"
  · rw [if_pos haddToSet, hcurrent] at h
    split at h
    · next hc => exact hwritten (by simp [hc]) h
    · next hc => exact hwritten (by simp [hc]) h
    · cases h
  rw [if_neg haddToSet] at h
  by_cases hpop : operator = js "$pop"
  · rw [if_pos hpop, hcurrent] at h
    split at h
    · cases h
      exact .same hunset hwrites
    · next hc => exact hwritten (by simp [hc]) h
    · cases h
  rw [if_neg hpop] at h
  by_cases hpull : operator = js "$pull" ∨ operator = js "$pullAll"
  · rw [if_pos hpull, hcurrent] at h
    split at h
    · cases h
      exact .same hunset hwrites
    · next hc =>
      obtain ⟨items, -, h⟩ := bind_eq_ok h
      obtain ⟨ys, -, h⟩ := bind_eq_ok h
      exact hwritten (by simp [hc]) h
    · cases h
  rw [if_neg hpull] at h
  split at h
  · cases h
  split at h
  · cases h
    exact .same hunset hwrites
  · cases h

/-! ## One operator -/

theorem length_ne_indexText (i : ℕ) : js "length" ≠ indexText i := by
  intro heq
  have hnumeric := isNumericKey_indexText i
  rw [← heq] at hnumeric
  exact absurd hnumeric (by decide)

theorem apart_path {path : Text} {q : List Text} (h : Apart (splitPath path) q) :
    Apart ((splitPath path).dropLast ++ [fieldOf path]) q := (splitPath_eq path).symm ▸ h

/-- A place apart from a path is none of the containers on the way. -/
theorem not_prefix_of_apart {path : Text} {q : List Text} (h : Apart (splitPath path) q) :
    ¬q <+: (splitPath path).dropLast :=
  fun hbegins => h.2 (hbegins.trans (List.dropLast_prefix _))

section
variable {p : Platform} {options : ModifyOptions} {operator path : Text} {argument original : Value}
variable {target : Target} {document after x : Value} {forbidArray : Bool}

/-- What is read under an index of an array. -/
theorem arrayKey?_of_readPath {keys : List Text} {xs : List Value} {i : ℕ}
    (hxs : readPath keys original = .arr xs)
    (h : readPath (keys ++ [indexText i]) original ≠ .undefined) : arrayKey? (indexText i) = some i := by
  rw [readPath_append, hxs, readPath, readPath, member] at h
  cases hkey : arrayKey? (indexText i) with
  | none => rw [hkey] at h; exact absurd rfl h
  | some j => rw [← keyIndex_indexText i, arrayKey?_eq hkey, keyIndex_indexText]

/-- A write of the length of an array at the end of a path leaves the places apart from it and
from the source alone if and only if it cuts nothing off. -/
theorem writeLength_iff {written source : Text} {keys : List Text} {d : Value} {xs : List Value}
    (hkeys : keys = (splitPath written).dropLast) (hfield : fieldOf written = js "length")
    (hproto : js "__proto__" ∉ keys) (hparent : target.parent = some keys)
    (htarget : target.field = js "length") (hd : DistinctKeys d) (hwalkable : Walkable keys d)
    (hxs : readPath keys d = .arr xs)
    (hlength : ¬splitPath source <+: keys → arrayLength? (readPath keys original) = some xs.length)
    (hsame : ∀ q, Apart (splitPath source) q → Apart (splitPath written) q →
      readPath q d = readPath q original)
    (hsource : ∀ i, isArray (readPath keys original) → keys ++ [indexText i] <+: splitPath source →
      splitPath source <+: keys ++ [indexText i])
    (h : writeField p target x d = .ok after) :
    (∀ q, Apart (splitPath source) q → Apart (splitPath written) q →
      readPath q after = readPath q original) ↔ ¬Cuts p source written x original := by
  have hwritten : splitPath written = keys ++ [js "length"] := by
    rw [hkeys, ← hfield, splitPath_eq]
  have hreached : Reached keys d := reached_of_ne hproto (by rw [hxs]; simp)
  obtain ⟨ys, hys, hapart, hcut⟩ := readPath_writeLength hparent hd hwalkable hxs htarget hreached h
  constructor
  · intro hkeep hcuts
    obtain ⟨-, xs', ys', i, hxs', hys', hi, hnot, hne⟩ := hcuts
    rw [← hkeys] at hxs' hnot hne
    have hq : Apart (splitPath source) (keys ++ [indexText i]) :=
      ⟨hnot, fun hbegins => hnot (hsource i (by rw [hxs']; rfl) hbegins)⟩
    have hq' : Apart (splitPath written) (keys ++ [indexText i]) :=
      hwritten ▸ apart_append (length_ne_indexText i)
    obtain ⟨zs, hzs, hlen⟩ := (setLength_eq_ok hys').2 xs
    obtain rfl := Except.ok.inj (hys.symm.trans hzs)
    refine hne ((hkeep _ hq hq').symm.trans ?_)
    rw [hcut, arrayKey?_of_readPath hxs' hne, if_pos (by simpa using hlen ▸ hi)]
  · intro hnot q hs hw
    rcases apart_snoc (hwritten ▸ hw) with hq | ⟨k, r, rfl, hk⟩
    · rw [hapart q hq, hsame q hs hw]
    · rw [hcut]
      split
      · next hany =>
        obtain ⟨i, hkey, hi⟩ := (Option.any_eq_true _ _).mp hany
        have hq : ¬splitPath source <+: keys ++ [k] := fun hbegins =>
          hs.1 (hbegins.trans ⟨r, by simp⟩)
        have hlen := hlength fun hbegins => hq (hbegins.trans (List.prefix_append _ _))
        cases hxs' : readPath keys original with
        | arr xs' =>
          obtain ⟨zs, hzs, hzlen⟩ := (setLength_eq_ok hys).2 xs'
          -- What is cut off was empty.
          have hempty : readPath (keys ++ [k]) original = .undefined := by
            by_contra hne
            rw [arrayKey?_eq hkey] at hne hq
            exact hnot ⟨hfield, xs', zs, i, hkeys ▸ hxs', hzs, hzlen ▸ of_decide_eq_true hi,
              hkeys ▸ hq, hkeys ▸ hne⟩
          rw [List.append_cons, readPath_append, hempty, readPath_undefined]
        | _ => rw [hxs'] at hlen; cases hlen
      · exact hsame _ hs hw

/-- A removal at a path keeps to it if and only if it blanks nothing. -/
theorem remove_iff (hproto : js "__proto__" ∉ splitPath path)
    (ht : Targeted forbidArray path original document target)
    (h : removeField p target document = .ok after) :
    (∀ q, Apart (splitPath path) q → readPath q after = readPath q original) ↔ ¬Blanks path original := by
  rcases ht.parent with ⟨hparent, harr⟩ | ⟨hparent, hwalkable, hend, -⟩
  · unfold removeField at h
    rw [hparent] at h
    cases h
    refine ⟨fun _ hblanks => ?_, fun _ q hq => ht.same q (not_prefix_of_apart hq)⟩
    obtain ⟨-, -, -, xs, hxs, -⟩ := hblanks
    rw [hxs] at harr
    cases harr
  · constructor
    · intro hkeep hblanks
      obtain ⟨hnumeric, hnone, hi, xs, hxs, hne⟩ := hblanks
      obtain ⟨-, w, hw, -, hchanged⟩ := updated_removeField hparent ht.distinct hwalkable h
      have hreached : Reached (splitPath path).dropLast document :=
        reached_of_ne (fun hmem => hproto (List.mem_of_mem_dropLast hmem))
          (by rw [(hend xs).mpr hxs]; simp)
      have hindex := arrayKey?_indexText hi
      have hk : fieldOf path ≠ indexText (keyIndex (fieldOf path)) := by
        intro heq
        rw [heq, keyIndex_indexText, ← heq, hnone] at hindex
        cases hindex
      have hq : Apart (splitPath path) ((splitPath path).dropLast ++ [indexText (keyIndex (fieldOf path))]) := by
        have happart := @apart_append (splitPath path).dropLast [] [] _ _ hk
        rwa [splitPath_eq] at happart
      have hread := hkeep _ hq
      rw [(hend xs).mpr hxs, ht.field] at hw
      cases hw
      rw [hchanged hreached, readPath_append, hxs, readPath, readPath, readPath, readPath,
        member_removeKey hk.symm, if_pos ⟨rfl, hnumeric, hi, hindex⟩, member, hindex] at hread
      exact hne hread.symm
    · intro hnot q hq
      rw [readPath_removeField hparent ht.distinct hwalkable h (ht.field ▸ apart_path hq),
        ht.same q (not_prefix_of_apart hq)]
      intro xs hxs hnumeric hi hnone
      rw [ht.field] at hnumeric hi hnone ⊢
      by_contra hne
      exact hnot ⟨hnumeric, hnone, hi, xs, (hend xs).mp hxs, hne⟩

/-- A write at a path keeps to it if and only if it cuts nothing off. -/
theorem write_iff (hproto : js "__proto__" ∉ splitPath path)
    (ht : Targeted forbidArray path original document target)
    (hwrites : writes p options operator path argument original = some (path, x) ∨
      writes p options operator path argument original = none ∧ ∀ c, currentAt path original ≠ .num c)
    (h : writeField p target x document = .ok after) :
    (∀ q, Apart (splitPath path) q → readPath q after = readPath q original) ↔
      ∀ w ∈ writes p options operator path argument original, ¬Cuts p path w.1 w.2 original := by
  rcases ht.parent with ⟨hparent, harr⟩ | ⟨hparent, hwalkable, hend, -⟩
  · unfold writeField at h
    rw [hparent] at h
    cases h
    refine ⟨fun _ w hw hcuts => ?_, fun _ q hq => ht.same q (not_prefix_of_apart hq)⟩
    obtain ⟨-, xs, ys, i, hxs, -⟩ := hcuts
    rcases hwrites with heq | ⟨heq, -⟩
    · rw [heq] at hw
      cases hw
      rw [hxs] at harr
      cases harr
    · rw [heq] at hw
      cases hw
  by_cases hlength : isArray (readPath (splitPath path).dropLast document) ∧ fieldOf path = js "length"
  · obtain ⟨harr, hfield⟩ := hlength
    cases hxs : readPath (splitPath path).dropLast document with
    | arr xs =>
      have hxs' := (hend xs).mp hxs
      have hcurrent : currentAt path original = .num (.finite (ofInt xs.length)) := by
        rw [currentAt, hxs', hfield, getKey, if_pos rfl]
      have heq : writes p options operator path argument original = some (path, x) := by
        rcases hwrites with heq | ⟨-, hnot⟩
        · exact heq
        · exact absurd hcurrent (hnot _)
      have hsource : ∀ i, ¬(splitPath path).dropLast ++ [indexText i] <+: splitPath path := by
        intro i
        have happart := @apart_append (splitPath path).dropLast [] [] _ _ (length_ne_indexText i)
        rw [← hfield, splitPath_eq] at happart
        exact happart.2
      have hiff : (∀ q, Apart (splitPath path) q → Apart (splitPath path) q →
          readPath q after = readPath q original) ↔ ¬Cuts p path path x original :=
        writeLength_iff rfl hfield (fun hmem => hproto (List.mem_of_mem_dropLast hmem)) hparent
          (ht.field.trans hfield) ht.distinct hwalkable hxs (fun _ => by rw [hxs']; rfl)
          (fun q hq _ => ht.same q (not_prefix_of_apart hq)) (fun i _ hbegins => absurd hbegins (hsource i)) h
      rw [heq]
      refine ⟨fun hkeep w hw => ?_, fun hnot q hq => hiff.mpr (hnot _ rfl) q hq hq⟩
      cases hw
      exact hiff.mp fun q hq _ => hkeep q hq
    | _ => rw [hxs] at harr; cases harr
  · refine ⟨fun _ w hw hcuts => ?_, fun _ q hq => ?_⟩
    · rcases hwrites with heq | ⟨heq, -⟩
      · rw [heq] at hw
        cases hw
        obtain ⟨hfield, xs, ys, i, hxs, -⟩ := hcuts
        exact hlength ⟨by rw [(hend xs).mpr hxs]; rfl, hfield⟩
      · rw [heq] at hw
        cases hw
    · rw [readPath_writeField hparent ht.distinct hwalkable (fun harr hfield =>
        hlength ⟨harr, ht.field.symm.trans hfield⟩) h (ht.field ▸ apart_path hq),
        ht.same q (not_prefix_of_apart hq)]

/-! ## `$rename` -/

/-- What `$rename` removes was there, so the array it is removed from keeps its length. -/
theorem length_removed {keys : List Text} (hcurrent : currentAt path original ≠ .undefined)
    {xs : List Value} (hkeys : keys = (splitPath path).dropLast) (hxs : readPath keys original = .arr xs) :
    arrayLength? (removeKey (fieldOf path) (.arr xs)) = some xs.length ∧
      (isNumericKey (fieldOf path) → arrayKey? (fieldOf path) ≠ none) := by
  rw [currentAt, ← hkeys, hxs, getKey] at hcurrent
  have hkey : isNumericKey (fieldOf path) → arrayKey? (fieldOf path) ≠ none := by
    intro hnumeric hnone
    rw [if_neg, hnone] at hcurrent
    · exact hcurrent rfl
    · intro heq
      rw [heq] at hnumeric
      exact absurd hnumeric (by decide)
  refine ⟨?_, hkey⟩
  rw [removeKey]
  split
  · next hfield =>
    cases hindex : arrayKey? (fieldOf path) with
    | none => exact absurd hindex (hkey hfield.1)
    | some i =>
      have hi : keyIndex (fieldOf path) = i := by rw [arrayKey?_eq hindex, keyIndex_indexText]
      rw [if_neg (by rintro heq; rw [heq, arrayKey?_length] at hindex; cases hindex), hindex] at hcurrent
      dsimp only at hcurrent
      have hlt : i < xs.length := by
        by_contra hge
        rw [List.getD_eq_getElem?_getD, List.getElem?_eq_none (Nat.le_of_not_lt hge)] at hcurrent
        exact hcurrent rfl
      rw [hi, setElem, if_pos hlt, arrayLength?, List.length_set]
  · rfl

/-- The removal of the source: what is apart from it stays, and so do the lengths of the arrays. -/
theorem rename_removes (ht : Targeted true path original document target)
    (hcurrent : currentAt path original ≠ .undefined) {removed : Value}
    (h : removeField p target document = .ok removed) :
    DistinctKeys removed ∧ (∀ q, Apart (splitPath path) q → readPath q removed = readPath q original) ∧
      (∀ q, ¬splitPath path <+: q →
        arrayLength? (readPath q removed) = arrayLength? (readPath q original)) ∧
      ∀ q, q <+: (splitPath path).dropLast → q ≠ (splitPath path).dropLast →
        isArray (readPath q original) = false := by
  rcases ht.parent with ⟨hparent, -⟩ | ⟨hparent, hwalkable, hend, hforbid⟩
  · refine absurd ?_ hcurrent
    rw [← ht.read, readField, hparent]
  obtain ⟨hobjects, hlengths⟩ := hforbid rfl
  have hsame : ∀ q, Apart (splitPath path) q → readPath q removed = readPath q original := by
    intro q hq
    rw [readPath_removeField hparent ht.distinct hwalkable h (ht.field ▸ apart_path hq),
      ht.same q (not_prefix_of_apart hq)]
    intro xs hxs hnumeric _ hnone
    rw [ht.field] at hnumeric hnone
    exact absurd hnone ((length_removed hcurrent rfl ((hend xs).mp hxs)).2 hnumeric)
  refine ⟨distinctKeys_removeField hparent ht.distinct h, hsame, fun q hq => ?_, hobjects⟩
  by_cases hbegins : q <+: (splitPath path).dropLast
  · rw [← hlengths]
    by_cases heq : q = (splitPath path).dropLast
    · obtain ⟨-, w, hw, hchanged, -⟩ := updated_removeField hparent ht.distinct hwalkable h
      have hread := hchanged []
      rw [List.append_nil, ← heq] at hread
      rcases hread with hread | hread
      · rw [hread, readPath]
        cases hw
        rw [← heq]
        cases hxs : readPath q document with
        | arr xs => rw [ht.field, (length_removed hcurrent heq (heq ▸ (hend xs).mp (heq ▸ hxs))).1]; rfl
        | _ => rfl
      · rw [hread]
    · have hnot := arrayLength?_eq_none.mpr (hobjects q hbegins heq)
      rw [removeField_eq hparent] at h
      have hkind := isArray_updateAt ht.distinct hwalkable hbegins heq h
      rw [hlengths, hnot, arrayLength?_eq_none, hkind, ← arrayLength?_eq_none, hlengths, hnot]
  · rw [hsame q ⟨hq, fun h => ?_⟩]
    rw [← splitPath_eq path] at h hq
    rcases List.prefix_concat_iff.mp h with heq | h
    · exact hq (heq ▸ List.prefix_rfl)
    · exact hbegins h

theorem no_dollar_of_modificationTarget {p : Platform} {forbidArray : Bool} {document document' : Value}
    {path : Text} {target : Target}
    (h : modificationTarget p none false forbidArray document path = .ok (document', target)) :
    js "$" ∉ splitPath path := by
  obtain ⟨-, keys, positional, rest, hwalk, hfield, -⟩ := modificationTarget_iff.mp h
  obtain ⟨hparts, rfl⟩ := no_dollar_of_resolve (resolve_of_walk hwalk)
  rw [← splitPath_eq path]
  intro hmem
  rcases List.mem_append.mp hmem with hmem | hmem
  · exact hparts hmem
  · rw [← List.mem_singleton.mp hmem] at hfield
    cases hfield

/-- `$rename` keeps to its two paths if and only if it cuts nothing off apart from the source. -/
theorem rename_iff {renamed : Text} {removed document₂ : Value} {destination : Target}
    (hproto : js "__proto__" ∉ splitPath renamed) (ht : Targeted true path original document target)
    (hcurrent : currentAt path original ≠ .undefined) (hremove : removeField p target document = .ok removed)
    (hdestination : modificationTarget p none false true removed renamed = .ok (document₂, destination))
    (h : writeField p destination (currentAt path original) document₂ = .ok after) :
    (∀ q, Apart (splitPath path) q → Apart (splitPath renamed) q → readPath q after = readPath q original) ↔
      ¬Cuts p path renamed (currentAt path original) original := by
  obtain ⟨hdistinct, hsame, hlengths, hobjects⟩ := rename_removes ht hcurrent hremove
  have hd := targeted_of_modificationTarget (no_dollar_of_modificationTarget hdestination) hdistinct
    hdestination
  have hsame₂ : ∀ q, Apart (splitPath path) q → Apart (splitPath renamed) q →
      readPath q document₂ = readPath q original := fun q hq hq' => by
    rw [hd.same q (not_prefix_of_apart hq'), hsame q hq]
  rcases hd.parent with ⟨hparent, harr⟩ | ⟨hparent, hwalkable, hend, hforbid⟩
  · unfold writeField at h
    rw [hparent] at h
    cases h
    refine ⟨fun _ hcuts => ?_, fun _ => hsame₂⟩
    obtain ⟨-, xs, ys, i, hxs, -, -, hnot, -⟩ := hcuts
    have hlength := hlengths _ fun hbegins => hnot (hbegins.trans (List.prefix_append _ _))
    rw [hxs, arrayLength?_eq_none.mpr harr] at hlength
    cases hlength
  have hlengths₂ : ¬splitPath path <+: (splitPath renamed).dropLast →
      arrayLength? (readPath (splitPath renamed).dropLast original) =
        arrayLength? (readPath (splitPath renamed).dropLast document₂) := fun hnot => by
    rw [(hforbid rfl).2, hlengths _ hnot]
  by_cases hlength : isArray (readPath (splitPath renamed).dropLast document₂) ∧
      fieldOf renamed = js "length"
  · obtain ⟨harr, hfield⟩ := hlength
    cases hxs : readPath (splitPath renamed).dropLast document₂ with
    | arr xs =>
      refine writeLength_iff rfl hfield (fun hmem => hproto (List.mem_of_mem_dropLast hmem)) hparent
        (hd.field.trans hfield) hd.distinct hwalkable hxs (fun hnot => ?_) hsame₂
        (fun i harr' hbegins => ?_) h
      · rw [hlengths₂ hnot, hxs, arrayLength?]
      · -- The way to the source comes through objects only.
        rw [← splitPath_eq path] at hbegins ⊢
        rcases List.prefix_concat_iff.mp hbegins with heq | hbegins
        · exact heq ▸ List.prefix_rfl
        · have hobject := hobjects _ ((List.prefix_append _ _).trans hbegins) fun heq => by
            have hlen := hbegins.length_le
            rw [← heq, List.length_append, List.length_singleton] at hlen
            omega
          rw [hobject] at harr'
          cases harr'
    | _ => rw [hxs] at harr; cases harr
  · refine ⟨fun _ hcuts => ?_, fun _ q hq hq' => ?_⟩
    · obtain ⟨hfield, xs, ys, i, hxs, -, -, hnot, -⟩ := hcuts
      have hlen := hlengths₂ fun hbegins => hnot (hbegins.trans (List.prefix_append _ _))
      refine hlength ⟨?_, hfield⟩
      cases hxs' : readPath (splitPath renamed).dropLast document₂ with
      | arr xs' => rfl
      | _ => rw [hxs, hxs'] at hlen; cases hlen
    · rw [readPath_writeField hparent hd.distinct hwalkable (fun harr hfield =>
        hlength ⟨harr, hd.field.symm.trans hfield⟩) h (hd.field ▸ apart_path hq'), hsame₂ q hq hq']

end

/-! ## Updates -/

/-- The modifier of one operator on one path. -/
def single (operator path : Text) (argument : Value) : Value := .obj [(operator, .obj [(path, argument)])]

theorem assign_nil {key : Text} (hkey : key ≠ js "__proto__") (x : Value) : assign key x [] = [(key, x)] := by
  rw [assign, if_neg hkey]
  rfl

theorem modifyDocument_single {p : Platform} {options : ModifyOptions} {operator path : Text}
    {argument : Value} (hoperator : startsWith (js "$") operator) (hpath : path ≠ js "__proto__")
    (document : Value) :
    modifyDocument p options (single operator path argument) document =
      if path = js "_id" ∨ startsWith (js "_id.") path then .error (js "Mod on _id not allowed")
      else applyModifierOperator p options operator path (cloneValue argument) document := by
  have hne : operator ≠ js "__proto__" := by
    rintro rfl
    exact absurd hoperator (by decide)
  have hclone : cloneValue (single operator path argument) = single operator path (cloneValue argument) := by
    rw [single, cloneValue, cloneEntries, cloneEntries, List.foldl_cons, List.foldl_nil, assign_nil hne,
      cloneValue, cloneEntries, cloneEntries, List.foldl_cons, List.foldl_nil, assign_nil hpath]
    rfl
  have hfilter : [(operator, Value.obj [(path, cloneValue argument)])].filter
      (fun m => startsWith (js "$") m.1) = [(operator, Value.obj [(path, cloneValue argument)])] :=
    List.filter_cons_of_pos hoperator
  unfold modifyDocument
  rw [hclone, single]
  dsimp only
  rw [hfilter, if_neg (by simp), if_neg (by simp), applyOperators, applyFields]
  split
  · rfl
  · cases applyModifierOperator p options operator path (cloneValue argument) document <;> rfl

/-- Only `$rename` has a second path. -/
theorem keepsToPath_of_ne {operator path : Text} {argument document after : Value}
    (hrename : operator ≠ js "$rename") :
    KeepsToPath operator path argument document after ↔
      ∀ q, Apart (splitPath path) q → readPath q after = readPath q document :=
  ⟨fun h q hq => h q hq fun _ heq => absurd heq hrename, fun h q hq _ => h q hq⟩

theorem keepsToPath_iff_of_effect {p : Platform} {options : ModifyOptions} {operator path : Text}
    {argument document document' after : Value} {target : Target}
    (hproto : js "__proto__" ∉ splitPath path)
    (hrenamed : ∀ renamed, operator = js "$rename" → argument = .str renamed →
      js "__proto__" ∉ splitPath renamed)
    (ht : Targeted (operator = js "$rename") path document document' target)
    (h : Effect p options operator path argument document target document' after) :
    KeepsToPath operator path argument document after ↔
      Harmless p options operator path argument document := by
  cases h with
  | same hunset hwrites =>
    refine ⟨fun _ => ⟨by rw [hwrites]; nofun, fun heq => absurd heq hunset⟩, fun _ q hq _ => ?_⟩
    exact ht.same q (not_prefix_of_apart hq)
  | written hunset hrename hwrites hwrite =>
    rw [keepsToPath_of_ne hrename, write_iff hproto ht hwrites hwrite]
    exact ⟨fun hcuts => ⟨hcuts, fun heq => absurd heq hunset⟩, fun hharmless => hharmless.1⟩
  | removed hunset hremove =>
    have hwrites : writes p options operator path argument document = none := by
      unfold writes
      rw [hunset, if_neg (by simp [show js "$unset" ≠ js "$set" by decide,
        show js "$unset" ≠ js "$setOnInsert" by decide]), if_neg (by decide), if_neg (by decide),
        if_neg (by decide)]
    rw [keepsToPath_of_ne (by rw [hunset]; decide), remove_iff hproto ht hremove]
    exact ⟨fun hblanks => ⟨by rw [hwrites]; nofun, fun _ => hblanks⟩, fun hharmless => hharmless.2 hunset⟩
  | @renamed renamed removed document₂ _ destination hrename hargument hcurrent hremove hdestination hwrite =>
    have hwrites : writes p options operator path argument document =
        some (renamed, currentAt path document) := by
      unfold writes
      rw [hrename, if_neg (by simp [show js "$rename" ≠ js "$set" by decide,
        show js "$rename" ≠ js "$setOnInsert" by decide]), if_neg (by decide), if_neg (by decide),
        if_pos rfl, hargument]
      cases hc : currentAt path document with
      | undefined => exact absurd hc hcurrent
      | _ => rfl
    have hiff := rename_iff (hrenamed _ hrename hargument) (decide_eq_true hrename ▸ ht) hcurrent hremove
      hdestination hwrite
    constructor
    · intro hkeep
      refine ⟨fun w hw => ?_, fun heq => absurd (hrename.symm.trans heq) (by decide)⟩
      rw [hwrites] at hw
      cases hw
      refine hiff.mp fun q hq hq' => hkeep q hq fun r _ heq => ?_
      rw [hargument] at heq
      cases heq
      exact hq'
    · intro hharmless q hq hq'
      exact hiff.mpr (hharmless.1 _ hwrites) q hq (hq' renamed hrename hargument)

theorem cloneValue_eq_str {v : Value} {s : Text} : cloneValue v = .str s ↔ v = .str s := by
  cases v <;> simp [cloneValue]

/-- **Update operators keep to their path** in exactly the updates that neither cut off elements
through the length of an array, nor blank one under a numeric key that is no index. -/
theorem keepsToPath_iff (p : Platform) (options : ModifyOptions) {operator path : Text}
    {argument document after : Value} (hoperator : startsWith (js "$") operator)
    (hdocument : DistinctKeys document) (hpath : js "$" ∉ splitPath path)
    (hproto : js "__proto__" ∉ splitPath path)
    (hrenamed : ∀ renamed, operator = js "$rename" → argument = .str renamed →
      js "__proto__" ∉ splitPath renamed)
    (h : modifyDocument p options (single operator path argument) document = .ok after) :
    KeepsToPath operator path argument document after ↔
      Harmless p options operator path (cloneValue argument) document := by
  have hpathne : path ≠ js "__proto__" := by
    rintro rfl
    exact hproto (by decide)
  have hcloned : KeepsToPath operator path argument document after ↔
      KeepsToPath operator path (cloneValue argument) document after := by
    unfold KeepsToPath
    simp only [cloneValue_eq_str]
  rw [modifyDocument_single hoperator hpathne] at h
  split at h
  · cases h
  rw [hcloned]
  unfold applyModifierOperator at h
  by_cases hinsert : operator = js "$setOnInsert"
  · have hrename : operator ≠ js "$rename" := by rw [hinsert]; decide
    have hunset : operator ≠ js "$unset" := by rw [hinsert]; decide
    cases hisInsert : options.isInsert with
    | false =>
      rw [if_pos ⟨hinsert, hisInsert⟩] at h
      cases h
      have hwrites : writes p options operator path (cloneValue argument) document = none := by
        unfold writes
        rw [if_neg (by rw [hinsert, hisInsert]; decide), if_neg (by rw [hinsert]; decide),
          if_neg (by rw [hinsert]; decide), if_neg hrename]
      exact ⟨fun _ => ⟨by rw [hwrites]; nofun, fun heq => absurd heq hunset⟩, fun _ q _ _ => rfl⟩
    | true =>
      rw [if_neg (by simp [hisInsert])] at h
      dsimp only at h
      rw [if_pos hinsert] at h
      obtain ⟨⟨document', target⟩, htarget, h⟩ := bind_eq_ok h
      have ht := targeted_of_modificationTarget hpath hdocument htarget
      have hwrites : writes p options operator path (cloneValue argument) document =
          writes p options (js "$set") path (cloneValue argument) document := by
        unfold writes
        rw [if_pos (.inr ⟨hinsert, hisInsert⟩), if_pos (.inl rfl)]
      have hiff := keepsToPath_iff_of_effect hproto (fun _ heq => absurd heq (by decide)) ht
        (effect_of_applyAt (by decide) ht.read h)
      rw [keepsToPath_of_ne hrename, ← keepsToPath_of_ne (show js "$set" ≠ js "$rename" by decide), hiff, Harmless, Harmless, hwrites]
      exact and_congr_right fun _ => ⟨fun _ heq => absurd heq hunset, fun _ heq => absurd heq (by decide)⟩
  · rw [if_neg fun heq => hinsert heq.1] at h
    dsimp only at h
    rw [if_neg hinsert] at h
    obtain ⟨⟨document', target⟩, htarget, h⟩ := bind_eq_ok h
    have ht := targeted_of_modificationTarget hpath hdocument htarget
    exact keepsToPath_iff_of_effect hproto
      (fun renamed hrename hargument => hrenamed renamed hrename (cloneValue_eq_str.mp hargument)) ht
      (effect_of_applyAt hinsert ht.read h)

/-- `{ a: [true, false] }`. -/
def flags : Value := .obj [(js "a", .arr [.bool true, .bool false])]

theorem keepsToPath_iff_first : ∃ after,
    modifyDocument .integral ⟨false, none, 0⟩ (single (js "$set") (js "a.0") .null) flags = .ok after ∧
    KeepsToPath (js "$set") (js "a.0") .null flags after := by
  refine ⟨_, rfl, (keepsToPath_iff .integral ⟨false, none, 0⟩ (by decide) ?_ (by decide) (by decide)
    (fun _ heq => absurd heq (by decide)) rfl).mpr ⟨?_, fun heq => absurd heq (by decide)⟩⟩
  · exact ⟨by decide, ⟨trivial, trivial, trivial⟩, trivial⟩
  · rintro w hw ⟨hfield, -⟩
    cases hw
    exact absurd hfield (by decide)

/-- Neither spelling keeps to its path: `{ $set: { 'a.length': 1 } }` takes `a.1` away, and
`{ $unset: { 'a.01': '' } }` blanks it. -/
theorem spellings_leave_path :
    (∃ after, modifyDocument .integral ⟨false, none, 0⟩
        (single (js "$set") (js "a.length") (.num (.finite (ofInt 1)))) flags = .ok after ∧
      ¬KeepsToPath (js "$set") (js "a.length") (.num (.finite (ofInt 1))) flags after) ∧
    ∃ after, modifyDocument .integral ⟨false, none, 0⟩ (single (js "$unset") (js "a.01") (.str [])) flags =
        .ok after ∧
      ¬KeepsToPath (js "$unset") (js "a.01") (.str []) flags after := by
  constructor
  · refine ⟨_, rfl, fun hkeep => ?_⟩
    cases hkeep [js "a", js "1"] ⟨by decide, by decide⟩ fun _ heq => absurd heq (by decide)
  · refine ⟨_, rfl, fun hkeep => ?_⟩
    cases hkeep [js "a", js "1"] ⟨by decide, by decide⟩ fun _ heq => absurd heq (by decide)

end TypeFerry.Minimongo.Locality
