import TypeFerry.Minimongo.Atomicity

/-! # Calls that stay within plain values

The documents of the model are trees. Three things lead out of them in the source. A copy assigns an own key
`__proto__`, so that its value becomes the prototype of the copy. A path reads what a plain object inherits. And an
array takes any key: a hole arises behind its end, and a property beside its elements for a key that is no index.
Here are the calls that do none of it. -/
namespace TypeFerry.Minimongo.Plain
open TypeFerry.Lib.Numeral TypeFerry.Lib.JsonText TypeFerry.Lib.OrderedMap TypeFerry.Ejson.Clone
open TypeFerry.Minimongo.Values TypeFerry.Minimongo.Matcher TypeFerry.Minimongo.Collection
open TypeFerry.Minimongo.Modifier TypeFerry.Minimongo.Atomicity

/-! ## Keys -/

/-- What a plain object inherits from `Object.prototype`. -/
def inherited : List Text :=
  [js "constructor", js "__proto__", js "hasOwnProperty", js "isPrototypeOf", js "propertyIsEnumerable",
    js "toLocaleString", js "toString", js "valueOf", js "__defineGetter__", js "__defineSetter__",
    js "__lookupGetter__", js "__lookupSetter__"]

mutual

/-- No key of an object has a part `__proto__`. -/
def plainValue : Value → Bool
  | .arr xs => plainElems xs
  | .obj ms => plainMembers ms
  | _ => true

def plainElems : List Value → Bool
  | [] => true
  | x :: xs => plainValue x && plainElems xs

def plainMembers : List (Text × Value) → Bool
  | [] => true
  | (key, x) :: ms => !(splitPath key).contains (js "__proto__") && plainValue x && plainMembers ms

end

/-- The key of an array is an index up to its length, and that of an object is not inherited. -/
def keyPlain (key : Text) : Value → Bool
  | .arr xs => (arrayKey? key).any (· ≤ xs.length)
  | _ => !inherited.contains key

/-- No hole arises: one element is replaced, or one is put behind the last. -/
theorem setKey_of_keyPlain (p : Platform) {key : Text} {xs : List Value} (h : keyPlain key (.arr xs)) (v : Value) :
    ∃ i ≤ xs.length, setKey p key v (.arr xs) = .ok (.arr (xs.take i ++ v :: xs.drop (i + 1))) := by
  rw [keyPlain] at h
  cases hkey : arrayKey? key with
  | none =>
    rw [hkey] at h
    cases h
  | some i =>
    rw [hkey, Option.any_some, decide_eq_true_eq] at h
    have hlength : key ≠ js "length" := by
      rintro rfl
      cases (show arrayKey? (js "length") = none by decide).symm.trans hkey
    refine ⟨i, h, ?_⟩
    rw [setKey, if_neg hlength, hkey]
    dsimp only
    rw [setElem]
    split
    · next hlt => rw [List.set_eq_take_append_cons_drop, if_pos hlt]
    · next hge =>
      obtain rfl : i = xs.length := by omega
      rw [Nat.sub_self, List.replicate_zero, List.append_nil, List.take_length, List.drop_eq_nil_of_le (Nat.le_succ _)]

/-! ## Updates -/

/-- The keys of the loop of `modificationTarget` and that of the field. -/
def partsPlain (noCreate : Bool) (field : Text) : List Text → List ℕ → Value → Bool
  | [], positional, current => match keyOf field positional with
    | .ok (key, _) => keyPlain key current
    | .error _ => true
  | part :: rest, positional, current => match keyOf part positional with
    | .ok (key, positional) => keyPlain key current && match getKey current key with
      | .obj ms => partsPlain noCreate field rest positional (.obj ms)
      | .arr xs => partsPlain noCreate field rest positional (.arr xs)
      | .undefined | .null => noCreate ||
        partsPlain noCreate field rest positional (if rest.head?.any isNumericKey then .arr [] else .obj [])
      | _ => true
    | .error _ => true

def pathPlain (noCreate : Bool) (positional : List ℕ) (path : Text) (document : Value) : Bool :=
  partsPlain noCreate ((splitPath path).getLastD []) (splitPath path).dropLast positional document

section
variable (p : Platform)

/-- The path of an operator, and the target of `$rename` in what the removal leaves. -/
def operatorPlain (options : ModifyOptions) (operator path : Text) (argument document : Value) : Bool :=
  if operator = js "$setOnInsert" ∧ options.isInsert = false then true
  else
    pathPlain (operator ∈ noCreateOperators) (positions options.arrayIndices) path document &&
      if operator = js "$rename" then match argument with
        | .str renamed =>
          let removed := do
            let (document, target) ← modificationTarget p options.arrayIndices false true document path
            removeField p target document
          match removed with
          | .ok removed => pathPlain false [] renamed removed
          | .error _ => true
        | _ => true
      else true

/-- The fields of one operator, each in what those before it leave. -/
def fieldsPlain (options : ModifyOptions) (operator : Text) : List (Text × Value) → Value → Bool
  | [], _ => true
  | (path, argument) :: rest, document => operatorPlain p options operator path argument document &&
    match applyModifierOperator p options operator path argument document with
    | .ok document => fieldsPlain options operator rest document
    | .error _ => true

def operatorsPlain (options : ModifyOptions) : List (Text × Value) → Value → Bool
  | (operator, .obj fields) :: rest, document => fieldsPlain p options operator fields document &&
    match applyFields p options operator fields document with
    | .ok document => operatorsPlain options rest document
    | .error _ => true
  | _, _ => true

/-- A modifier with operators, on the document that it is applied to. -/
def modifierPlain (options : ModifyOptions) (modifier document : Value) : Bool := match cloneValue modifier with
  | .obj cloned =>
    if cloned.all fun m => startsWith (js "$") m.1 then operatorsPlain p options cloned document else true
  | _ => true

/-! ## Calls -/

/-- The documents that `update` comes to. -/
def updatePlain (now : ℤ) (selector modifier : Value) (documents : List Value) : Bool :=
  match matcher p true selector with
  | .ok matches' => documents.all fun previous => match matches' previous with
    | .ok found => modifierPlain p ⟨false, found.arrayIndices, now⟩ modifier (cloneValue previous)
    | .error _ => true
  | .error _ => true

/-- The document that an upsert starts from. -/
def createPlain (now : ℤ) (selector modifier : Value) : Bool :=
  let document : Except Text (List (Text × Value)) := match selector with
    | .str id => .ok [(js "_id", .str id)]
    | .obj ms => populate ms []
    | _ => .ok []
  match document with
  | .ok document => modifierPlain p ⟨true, none, now⟩ modifier (.obj document)
  | .error _ => true

/-- **The call stays within plain values**: nothing it copies has a key `__proto__`, and its operators enter no object
by an inherited name and no array but at an index up to its length. -/
def callPlain (now : ℤ) (store : OMap (Option Text) Value) : Call Value Value Value → Bool
  | .insert _ document => plainValue document
  | .remove _ => true
  | .update selector modifier multi => plainValue modifier &&
    match matchedDocuments (localStoreRuntime p now) store selector with
    | .ok documents => updatePlain p now selector modifier (targets multi documents)
    | .error _ => true
  | .upsert _ selector modifier multi _ => plainValue selector && plainValue modifier &&
    match matchedDocuments (localStoreRuntime p now) store selector with
    | .ok [] => createPlain p now selector modifier
    | .ok documents => updatePlain p now selector modifier (targets multi documents)
    | .error _ => true

end

/-- A second element cannot be set in front of a first one. -/
example : operatorPlain .integral ⟨false, none, 0⟩ (js "$set") (js "a.1") .null (.obj [(js "a", .arr [])]) = false ∧
    operatorPlain .integral ⟨false, none, 0⟩ (js "$set") (js "a.0") .null (.obj [(js "a", .arr [])]) = true := by
  decide +kernel

end TypeFerry.Minimongo.Plain
