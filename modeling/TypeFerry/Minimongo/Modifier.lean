import TypeFerry.Minimongo.Collection
import TypeFerry.Minimongo.Sorter

/-! # Modifiers

`modifier.ts`: the operators of an update and the document that an upsert starts
from, on documents as values. The source walks by reference to the parent of the
field it changes; here a target is the list of keys from the document to that
parent, and what is written there is put back along the keys. -/
namespace TypeFerry.Minimongo.Modifier
open TypeFerry.Lib.Numeral TypeFerry.Lib.JsonText TypeFerry.Ejson.Clone TypeFerry.Ejson.Canonical
open TypeFerry.Minimongo.Values TypeFerry.Minimongo.Matcher TypeFerry.Minimongo.Sorter
open TypeFerry.Minimongo.Collection TypeFerry.Ejson.Equals

/-! ## Field names -/

/-- `key.includes('..')`. -/
def hasDoubleDot : Text → Bool
  | 46 :: 46 :: _ => true
  | _ :: rest => hasDoubleDot rest
  | [] => false

/-- `invalidFieldNameReason(key)`. -/
def invalidFieldNameReason (key : Text) : Option Text :=
  if startsWith (js "$") key then some (js "start with '$'")
  else if key.head? = some 46 ∨ key.getLast? = some 46 then some (js "start or end with '.'")
  else if hasDoubleDot key then some (js "contain consecutive dots")
  else if (0 : UInt16) ∈ key then some (js "contain null bytes")
  else none

mutual

def assertValidFieldNames : Value → Except Text Unit
  | .arr xs => assertElems xs
  | .obj ms => assertMembers ms
  | _ => .ok ()

def assertElems : List Value → Except Text Unit
  | [] => .ok ()
  | x :: xs => do
    assertValidFieldNames x
    assertElems xs

def assertMembers : List (Text × Value) → Except Text Unit
  | [] => .ok ()
  | (key, child) :: ms => match invalidFieldNameReason key with
    | some reason => .error (js "Key " ++ key ++ js " must not " ++ reason)
    | none => do
      assertValidFieldNames child
      assertMembers ms

end

/-! ## Targets -/

/-- `Target`: the keys from the document to the parent, if there is one, and the field. -/
structure Target where
  parent : Option (List Text)
  field : Text

/-- The key of one part of a path: a `$` takes the next matched position. -/
def keyOf (part : Text) (positional : List ℕ) : Except Text (Text × List ℕ) :=
  if part = js "$" then match positional with
    | [] => .error (js "The positional operator did not find the match needed from the query")
    | position :: rest => .ok (indexText position, rest)
  else .ok (part, positional)

/-- The loop of `modificationTarget`: the document with the parents it created, the keys
down to the last one and the positions that are left. -/
def walk (p : Platform) (noCreate forbidArray : Bool) :
    List Text → List ℕ → Value → Except Text (Value × Option (List Text) × List ℕ)
  | [], positional, current => .ok (current, some [], positional)
  | part :: rest, positional, current => do
    let (key, positional) ← keyOf part positional
    if forbidArray && isArray current then
      .error (js "The source field cannot be an array element")
    else
      let descend (child : Value) : Except Text (Value × Option (List Text) × List ℕ) := do
        let (child, keys, positional) ← walk p noCreate forbidArray rest positional child
        .ok (← setKey p key child current, keys.map (key :: ·), positional)
      match getKey current key with
      | .obj ms => descend (.obj ms)
      | .arr xs => descend (.arr xs)
      | .undefined | .null =>
        if noCreate then .ok (current, none, positional)
        else descend (if rest.head?.any isNumericKey then .arr [] else .obj [])
      | _ => .error (js "Cannot set property on non-object field")

/-- `[...arrayIndices].filter(value => value !== 'x')`. -/
def positions (arrayIndices : Option (List ArrayStep)) : List ℕ :=
  (arrayIndices.getD []).filterMap fun
    | .index i => some i
    | .x => none

/-- `modificationTarget(document, path, options)`, with the document it leaves. -/
def modificationTarget (p : Platform) (arrayIndices : Option (List ArrayStep))
    (noCreate forbidArray : Bool) (document : Value) (path : Text) : Except Text (Value × Target) := do
  let field := (splitPath path).getLastD []
  if field = [] then .error (js "Invalid empty update path")
  else
    let (document, keys, positional) ←
      walk p noCreate forbidArray (splitPath path).dropLast (positions arrayIndices) document
    -- A walk that stopped early returns before it looks at the field.
    if keys.isNone then .ok (document, ⟨none, field⟩)
    else
      let (field, _) ← keyOf field positional
      .ok (document, ⟨keys, field⟩)

/-- The value at the end of the keys. -/
def valueAt : List Text → Value → Value
  | [], v => v
  | key :: keys, v => valueAt keys (getKey v key)

/-- The document with `f` done to the value at the end of the keys. -/
def updateAt (p : Platform) (f : Value → Except Text Value) : List Text → Value → Except Text Value
  | [], v => f v
  | key :: keys, v => do setKey p key (← updateAt p f keys (getKey v key)) v

def readField (target : Target) (document : Value) : Value :=
  match target.parent with
  | some keys => getKey (valueAt keys document) target.field
  | none => .undefined

def writeField (p : Platform) (target : Target) (value : Value) (document : Value) :
    Except Text Value :=
  match target.parent with
  | some keys => updateAt p (setKey p target.field value) keys document
  | none => .ok document

def removeField (p : Platform) (target : Target) (document : Value) : Except Text Value :=
  match target.parent with
  | some keys => updateAt p (fun
    | .arr xs =>
      if isNumericKey target.field then
        .ok (.arr (if keyIndex target.field < 2 ^ 32 - 1 then setElem (keyIndex target.field) .null xs
          else xs))
      else .ok (.arr xs)
    | parent => .ok (deleteKey target.field parent)) keys document
  | none => .ok document

/-! ## `$push` -/

/-- `array.sort(new Sorter(specifier).getComparator())`; nothing is last. -/
def sortElements (specifier : Value) (xs : List Value) : Except Text (List Value) := do
  let parts ← normalizeSort specifier
  let sorted ← sortByParts parts (xs.filter fun x => !x.isUndefined)
  .ok (sorted ++ xs.filter Value.isUndefined)

/-- The part of an array that `$slice` keeps. -/
def sliced (slice : Number) (xs : List Value) : List Value :=
  let n := toInteger xs.length slice
  if numEquals slice (.finite (ofInt 0)) then []
  else if numLt slice (.finite (ofInt 0)) then xs.drop (if n = 0 then 0 else xs.length - n.natAbs)
  else xs.take n.toNat

/-- The own property of a plain object. -/
def ownMember : Value → Text → Option Value
  | .obj ms, key => getOwn key ms
  | _, _ => none

/-- Where `$position` puts the new elements. -/
def pushIndex (position : Value) (length : ℕ) : Except Text ℕ :=
  match position with
  | .undefined => .ok length
  | .num n =>
    if numLt n (.finite (ofInt 0)) then .error (js "$position in $push must be zero or positive")
    else .ok (toInteger length n).toNat
  | _ => .error (js "$position must be a numeric value")

/-- The `$sort` of a `$push` of the elements `each`. -/
def pushSort (specifier slice : Value) (each xs : List Value) : Except Text (List Value) :=
  if specifier.isUndefined then .ok xs
  else if slice.isUndefined then .error (js "$sort requires $slice to be present")
  else if each.any fun x => !isPlainObject x then
    .error (js "$push like modifiers using $sort require all elements to be objects")
  else sortElements specifier xs

/-- The `$slice` of a `$push`. -/
def pushSlice (slice : Value) (xs : List Value) : Except Text (List Value) :=
  match slice with
  | .undefined => .ok xs
  | .num n => .ok (sliced n xs)
  | _ => .error (js "$slice must be a numeric value")

/-- The array that `$push` leaves in the place of `current`. -/
def pushed (argument : Value) (current : List Value) : Except Text (List Value) :=
  let option (name : Text) : Value := getKey argument name
  match ownMember argument (js "$each") with
  | none => do
    assertValidFieldNames argument
    .ok (current ++ [argument])
  | some (.arr each) => do
    assertElems each
    let index ← pushIndex (option (js "$position")) current.length
    let sorted ← pushSort (option (js "$sort")) (option (js "$slice")) each
      (current.take index ++ each ++ current.drop index)
    pushSlice (option (js "$slice")) sorted
  | some _ => .error (js "$each must be an array")

/-- `applyPush(target, argument, values)`. -/
def applyPush (p : Platform) (target : Target) (argument : Value) (document : Value) :
    Except Text Value :=
  match readField target document with
  | .undefined => do writeField p target (.arr (← pushed argument [])) document
  | .arr current => do writeField p target (.arr (← pushed argument current)) document
  | _ => .error (js "Cannot apply $push modifier to non-array")

/-! ## Operators -/

/-- `pullMatches(value, argument, values)`. The argument is part of a copy, none of whose RegExps is frozen. -/
def pullMatches (p : Platform) (value argument : Value) : Except Text Bool :=
  if isPlainObject argument then do
    let matcher ← matcher { p with frozen := fun _ => false } true (.obj [(js "value", argument)])
    .ok (← matcher (.obj [(js "value", value)])).result
  else .ok (equalValues true value argument)

/-- `items.some(item => pullMatches(value, item, values))`. -/
def pulledBy (p : Platform) (value : Value) : List Value → Except Text Bool
  | [] => .ok false
  | item :: rest => do if ← pullMatches p value item then .ok true else pulledBy p value rest

/-- `current.filter(...)` of `$pull` and `$pullAll`. -/
def pull (p : Platform) (items : List Value) : List Value → Except Text (List Value)
  | [] => .ok []
  | value :: rest => do
    let pulled ← pulledBy p value items
    let kept ← pull p items rest
    .ok (if pulled then kept else value :: kept)

/-- What `$pull` and `$pullAll` take out. -/
def pullItems (operator : Text) (argument : Value) : Except Text (List Value) :=
  if operator = js "$pull" then .ok [argument]
  else match argument with
    | .arr items => .ok items
    | _ => .error (js "Modifier $pushAll/pullAll allowed for arrays only")

/-- What `$addToSet` adds. -/
def addToSetItems (argument : Value) : List Value :=
  match ownMember argument (js "$each") with
  | some (.arr each) => each
  | _ => [argument]

/-- The loop of `$addToSet`. -/
def addToSet (items current : List Value) : List Value :=
  items.foldl (fun current item =>
    if current.any fun value => equalValues true value item then current else current ++ [item]) current

/-- `$inc`, `$mul`, `$min` and `$max` on a number, or on nothing. -/
def arithmetic (p : Platform) (operator : Text) (current : Option Number) (argument : Number) :
    Option Number :=
  if operator = js "$inc" then some (current.elim argument fun n => p.add n argument)
  else if operator = js "$mul" then some (current.elim (.finite (ofInt 0)) fun n => p.mul n argument)
  else if operator = js "$min" then
    if current.all fun n => numLt argument n then some argument else none
  else if current.all fun n => numLt n argument then some argument else none

/-- What a modifier is given beside the document: `ModifyOptions`, with the time of `now()`. -/
structure ModifyOptions where
  isInsert : Bool
  arrayIndices : Option (List ArrayStep)
  now : ℤ

/-- The operators that leave a missing parent missing. -/
def noCreateOperators : List Text := [js "$unset", js "$pop", js "$pull", js "$pullAll"]

def arithmeticOperators : List Text := [js "$inc", js "$mul", js "$min", js "$max"]

/-- `argument === true`, or an object with the `$type` `'date'`. -/
def isDateArgument (argument : Value) : Bool :=
  match argument, ownMember argument (js "$type") with
  | .bool b, _ => b
  | _, some (.str t) => t == js "date"
  | _, _ => false

/-- `typeof argument === 'number' && argument < 0`. -/
def isNegative : Value → Bool
  | .num n => numLt n (.finite (ofInt 0))
  | _ => false

/-- `applyModifierOperator`, once its target is found. -/
def applyAt (p : Platform) (options : ModifyOptions) (operator path : Text) (argument : Value)
    (target : Target) (document : Value) : Except Text Value :=
  if operator = js "$set" then do
    assertValidFieldNames argument
    writeField p target argument document
  else if operator = js "$unset" then removeField p target document
  else if operator ∈ arithmeticOperators then match argument, readField target document with
    | .num n, .undefined =>
      (arithmetic p operator none n).elim (.ok document) fun r => writeField p target (.num r) document
    | .num n, .num c =>
      (arithmetic p operator (some c) n).elim (.ok document) fun r => writeField p target (.num r) document
    | .num _, _ => .error (js "Cannot apply " ++ operator ++ js " modifier to non-number")
    | _, _ => .error (js "Modifier " ++ operator ++ js " allowed for numbers only")
  else if operator = js "$currentDate" then
    if isDateArgument argument then writeField p target (.date (some options.now)) document
    else .error (js "Invalid $currentDate modifier")
  else if operator = js "$rename" then match argument with
    | .str renamed =>
      if path = renamed then .error (js "$rename source must differ from target")
      else if (0 : UInt16) ∈ renamed then
        .error (js "The 'to' field for $rename cannot contain an embedded null byte")
      else if (readField target document).isUndefined then .ok document
      else do
        let removed ← removeField p target document
        let (removed, destination) ← modificationTarget p none false true removed renamed
        writeField p destination (readField target document) removed
    | _ => .error (js "$rename target must be a string")
  else if operator = js "$push" then applyPush p target argument document
  else if operator = js "$pushAll" then match argument, readField target document with
    | .arr items, .undefined => writeField p target (.arr items) document
    | .arr items, .arr xs => writeField p target (.arr (xs ++ items)) document
    | .arr _, _ => .error (js "Cannot apply $pushAll modifier to non-array")
    | _, _ => .error (js "Modifier $pushAll/pullAll allowed for arrays only")
  else if operator = js "$addToSet" then
    match readField target document with
    | .undefined => writeField p target (.arr (addToSetItems argument)) document
    | .arr xs => writeField p target (.arr (addToSet (addToSetItems argument) xs)) document
    | _ => .error (js "Cannot apply $addToSet modifier to non-array")
  else if operator = js "$pop" then match readField target document with
    | .undefined => .ok document
    | .arr xs =>
      writeField p target (.arr (if isNegative argument then xs.tail else xs.dropLast)) document
    | _ => .error (js "Cannot apply $pop modifier to non-array")
  else if operator = js "$pull" ∨ operator = js "$pullAll" then match readField target document with
    | .undefined => .ok document
    | .arr xs => do
      let items ← pullItems operator argument
      writeField p target (.arr (← pull p items xs)) document
    | _ => .error (js "Cannot apply $pull/pullAll modifier to non-array")
  else if operator = js "$bit" then .error (js "$bit is not supported")
  else if operator = js "$v" then .ok document
  else .error (js "Invalid modifier specified " ++ operator)

/-- `applyModifierOperator(document, operator, path, argument, options, values)`. -/
def applyModifierOperator (p : Platform) (options : ModifyOptions) (operator path : Text)
    (argument : Value) (document : Value) : Except Text Value :=
  if operator = js "$setOnInsert" ∧ options.isInsert = false then .ok document
  else do
    let actualOperator := if operator = js "$setOnInsert" then js "$set" else operator
    let (document, target) ← modificationTarget p options.arrayIndices
      (actualOperator ∈ noCreateOperators) (actualOperator = js "$rename") document path
    applyAt p options actualOperator path argument target document

/-- The fields of one operator, one after the other. -/
def applyFields (p : Platform) (options : ModifyOptions) (operator : Text) :
    List (Text × Value) → Value → Except Text Value
  | [], document => .ok document
  | (path, argument) :: rest, document =>
    if path = js "_id" ∨ startsWith (js "_id.") path then .error (js "Mod on _id not allowed")
    else do
      let document ← applyModifierOperator p options operator path argument document
      applyFields p options operator rest document

/-- The operators of a modifier, one after the other. -/
def applyOperators (p : Platform) (options : ModifyOptions) :
    List (Text × Value) → Value → Except Text Value
  | [], document => .ok document
  | (operator, .obj fields) :: rest, document => do
    let document ← applyFields p options operator fields document
    applyOperators p options rest document
  | (operator, _) :: _, _ =>
    .error (js "Modifier " ++ operator ++ js "'s argument must be an object")

/-- The replacement of a document, which keeps its `_id`. -/
def replaceDocument (replacement : List (Text × Value)) (document : Value) : Except Text Value := do
  assertMembers replacement
  let id := getKey document (js "_id")
  if (getOwn (js "_id") replacement).any fun v => !equalValues false v id then
    .error (js "Cannot change the _id of a document")
  else if id.isUndefined then .ok (.obj replacement)
  else .ok (.obj (enumerate (assign (js "_id") id replacement)))

/-- `modifyDocument(document, modifier, options, values)`. -/
def modifyDocument (p : Platform) (options : ModifyOptions) (modifier document : Value) :
    Except Text Value :=
  match cloneValue modifier with
  | .obj cloned =>
    let operators := cloned.filter fun m => startsWith (js "$") m.1
    if operators.isEmpty then replaceDocument cloned document
    else if operators.length ≠ cloned.length then
      .error (js "Update parameter cannot have both modifier and non-modifier fields.")
    else applyOperators p options cloned document
  | _ => .error (js "Modifier must be an object")

/-! ## Upserts -/

/-- The value that a field of a selector gives to the document of an upsert, if it gives one. -/
def fieldValue (value : Value) : Except Text (Option Value) :=
  match ownMember value (js "$eq") with
  | some v => .ok (some (cloneValue v))
  | none => do .ok (if ← isOperatorObject value then none else some (cloneValue value))

/-- A field of a selector in the document of an upsert. -/
def populateField (path : Text) (value : Value) (document : List (Text × Value)) :
    Except Text (List (Text × Value)) := do
  if startsWith (js "$") path then .ok document
  else match ← fieldValue value with
    | some v => .ok (setPath document path v)
    | none => .ok document

mutual

/-- `populate(value)`. -/
def populate : List (Text × Value) → List (Text × Value) → Except Text (List (Text × Value))
  | [], document => .ok document
  | (path, value) :: rest, document => do populate rest (← populateEntry path value document)

/-- One entry of a selector: the elements of `$and`, and the only element of `$or`, are
selectors again. -/
def populateEntry (path : Text) : Value → List (Text × Value) → Except Text (List (Text × Value))
  | .arr xs, document =>
    if path = js "$and" ∨ path = js "$or" ∧ xs.length = 1 then populateEach xs document
    else populateField path (.arr xs) document
  | value, document => populateField path value document

/-- The elements that are objects. -/
def populateEach : List Value → List (Text × Value) → Except Text (List (Text × Value))
  | [], document => .ok document
  | .obj ms :: rest, document => do populateEach rest (← populate ms document)
  | _ :: rest, document => populateEach rest document

end

/-- `createUpsertDocument(selector, modifier, values)`. -/
def createUpsertDocument (p : Platform) (now : ℤ) (selector modifier : Value) : Except Text Value := do
  let document ← match selector with
    | .str id => .ok [(js "_id", .str id)]
    | .obj ms => populate ms []
    | _ => .ok []
  modifyDocument p ⟨true, none, now⟩ modifier (.obj document)

/-! ## The runtime of local collections -/

/-- `/^[0-9a-f]{24}$/.test(value)`. -/
def isLocalId (id : Text) : Bool :=
  id.length == 24 && id.all fun u => (48 ≤ u.toNat && u.toNat ≤ 57) || (97 ≤ u.toNat && u.toNat ≤ 102)

/-- `assertLocalId(value)`. -/
def assertLocalId : Value → Except Text Unit
  | .str id =>
    if isLocalId id then .ok ()
    else .error (js "Local collection _id must be a lowercase 24-character hexadecimal string.")
  | _ => .error (js "Local collection _id must be a lowercase 24-character hexadecimal string.")

/-- The key of a document in the store. Ids that are no strings have one key in common. -/
def idOf (document : Value) : Option Text :=
  match getKey document (js "_id") with
  | .str id => some id
  | _ => none

/-- `document[key] = value`, on an object. -/
def withMember (key : Text) (value : Value) : Value → Value
  | .obj ms => .obj (enumerate (assign key value ms))
  | document => document

/-- `document._id ??= randomId()`. -/
def withRandomId (randomId : Text) (document : Value) : Value :=
  match getKey document (js "_id") with
  | .undefined | .null => withMember (js "_id") (.str randomId) document
  | _ => document

/-- The checks of `prepareInsert` on the document. -/
def prepare (randomId : Text) (document : Value) : Except Text Value := do
  assertValidFieldNames document
  assertLocalId (getKey (withRandomId randomId document) (js "_id"))
  .ok (withRandomId randomId document)

/-- `localStoreRuntime`, at the time of `now()`. -/
def localStoreRuntime (p : Platform) (now : ℤ) : LocalStoreRuntime Value (Option Text) Value Value where
  idOf := idOf
  clone := cloneValue
  matcher := matcher p
  modify document modifier arrayIndices := modifyDocument p ⟨false, arrayIndices, now⟩ modifier document
  createUpsert := createUpsertDocument p now
  giveId id document :=
    if isFalsy (getKey document (js "_id")) then withMember (js "_id") (.str id) document else document
  prepare := prepare

end TypeFerry.Minimongo.Modifier
