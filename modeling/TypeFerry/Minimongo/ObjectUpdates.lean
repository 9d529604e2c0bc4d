import TypeFerry.Minimongo.Objects

/-! # Updates on objects

`modifier.ts`, `setPath` of `path.ts`, and `update` and `upsert` of
`local-collection.ts`, on objects with their prototypes. Selectors and modifiers
are trees, and their copies become objects where the document takes them up. What
the calls only find out about objects is left open: which documents match, what
is equal and in which order it sorts. -/
namespace TypeFerry.Minimongo.ObjectUpdates
open TypeFerry.Lib.Numeral TypeFerry.Lib.JsonText TypeFerry.Lib.OrderedMap TypeFerry.Ejson.Clone
open TypeFerry.Ejson.Equals
open TypeFerry.Minimongo.Values TypeFerry.Minimongo.Modifier TypeFerry.Minimongo.Objects

/-- What is computed from objects without changing a plain object or an array. Matching does write
`lastIndex` of the regular expressions in a selector, which are no part of the heap. -/
structure Reading where
  platform : Platform
  /-- `Number(value)` -/
  toNumber : Heap → Ref → Number
  /-- `matcher(selector, { isUpdate: true }).documentMatches(document)`: the `arrayIndices`, where
  the document matches -/
  documentMatches : Value → Heap → Ref → Except Thrown (Option (Option (List ArrayStep)))
  pullMatches : Heap → Ref → Ref → Except Thrown Bool
  /-- `values.equals(left, right, { keyOrderSensitive })` -/
  equals : Bool → Heap → Ref → Ref → Bool
  /-- The places of the elements after `sort(new Sorter(specifier).getComparator())` -/
  sortOrder : Heap → Ref → List Ref → Except Thrown (List ℕ)

/-- A `LocalCollectionError` or another plain error. -/
def refuse {α : Type} (message : Text) : Run α := throw ⟨.other, message⟩

def orRefuse {α : Type} : Except Text α → Run α
  | .ok a => return a
  | .error message => refuse message

/-! ## Kinds of objects -/

/-- The address of a plain object. -/
def plainAt (heap : Heap) : Ref → Option ℕ
  | .object a => if isPlainObject heap (.object a) then some a else none
  | _ => none

/-- The address and the elements of an array. -/
def arrayAt (heap : Heap) : Ref → Option (ℕ × List Ref)
  | .object a => (heap[a]?.bind Node.elements).map (a, ·)
  | _ => none

/-- `Object.hasOwn(target, key)`. -/
def hasOwn (heap : Heap) (key : Text) : Ref → Bool
  | .object a => (own heap key a).isSome
  | _ => false

/-- A primitive value; an object stands for itself no more. -/
def primitive : Ref → Value
  | .leaf v => v.value
  | _ => .obj []

/-! ## Copies of trees -/

def leafOf : Value → Leaf
  | .null => .null
  | .bool b => .bool b
  | .num n => .num n
  | .str s => .str s
  | .date time => .date time
  | .regexp r => .regexp r
  | .binary bytes => .binary bytes
  | _ => .undefined

section
variable (d : Reading)

mutual

/-- `values.clone(value)`, of a tree. -/
def load : Value → Run Ref
  | .arr xs => do allocate (arrayOf (← loadElems xs))
  | .obj ms => do
    let copies ← loadMembers ms
    let b := (← readHeap).length
    let result ← allocate plainObject
    assignEach d.toNumber b copies
    return result
  | v => return .leaf (leafOf v)

def loadElems : List Value → Run (List Ref)
  | [] => return []
  | x :: xs => do return (← load x) :: (← loadElems xs)

def loadMembers : List (Text × Value) → Run (List (Text × Ref))
  | [] => return []
  | (key, x) :: ms => do return (key, ← load x) :: (← loadMembers ms)

end

/-- The entries of the copy of an object: a `__proto__` is no property of the copy. -/
def copiedEntries (ms : List (Text × Value)) : List (Text × Value) :=
  ms.filter fun m => m.1 ≠ js "__proto__"

/-- `isPlainObject(values.clone(value))`, with the entries: a `__proto__` that is an object has
become the prototype. -/
def copiedObject : Value → Option (List (Text × Value))
  | .obj ms => match ms.lookup (js "__proto__") with
    | some (.obj _) | some (.arr _) | some (.date _) | some (.regexp _) | some (.binary _) => none
    | _ => some (copiedEntries ms)
  | _ => none

/-! ## `setPath` -/

def setParts (value : Ref) : List Text → ℕ → Run Unit
  | [], _ => return ()
  | [part], current => assign d.toNumber current part value
  | part :: next :: rest, current => do
    let heap ← readHeap
    match plainAt heap (reflectGet heap part (.object current)) with
    | some existing => setParts value (next :: rest) existing
    | none =>
      let child := heap.length
      assign d.toNumber current part (← allocate plainObject)
      setParts value (next :: rest) child

/-- `setPath(document, path, value)`. -/
def setPath (document : ℕ) (path : Text) (value : Ref) : Run Unit :=
  if (splitPath path).getLast? = some [] then return () else setParts d value (splitPath path) document

/-! ## Targets -/

/-- `Target`. -/
structure Target where
  parent : Option ℕ
  field : Text

/-- The loop of `modificationTarget`: the last parent, and the positions that are left. -/
def walk (noCreate forbidArray : Bool) : List Text → List ℕ → ℕ → Run (Option ℕ × List ℕ)
  | [], positional, current => return (some current, positional)
  | part :: rest, positional, current => do
    let (part, positional) ← orRefuse (keyOf part positional)
    let heap ← readHeap
    if forbidArray && (arrayAt heap (.object current)).isSome then
      refuse (js "The source field cannot be an array element")
    else
      let existing := reflectGet heap part (.object current)
      match plainAt heap existing, arrayAt heap existing with
      | some next, _ | none, some (next, _) => walk noCreate forbidArray rest positional next
      | none, none =>
        if existing ≠ .undefined ∧ existing ≠ .null then
          refuse (js "Cannot set property on non-object field")
        else if noCreate then return (none, positional)
        else
          let child := heap.length
          let created ← allocate (if rest.head?.any isNumericKey then arrayOf [] else plainObject)
          let _ ← reflectSet d.toNumber current part created
          walk noCreate forbidArray rest positional child

/-- `modificationTarget(document, path, options)`. -/
def modificationTarget (arrayIndices : Option (List ArrayStep)) (noCreate forbidArray : Bool)
    (document : ℕ) (path : Text) : Run Target := do
  let field := (splitPath path).getLastD []
  if field = [] then refuse (js "Invalid empty update path")
  else
    let (parent, positional) ←
      walk d noCreate forbidArray (splitPath path).dropLast (positions arrayIndices) document
    if parent.isNone then return ⟨none, field⟩
    else
      let (field, _) ← orRefuse (keyOf field positional)
      return ⟨parent, field⟩

def readField (heap : Heap) (target : Target) : Ref :=
  target.parent.elim .undefined fun parent => reflectGet heap target.field (.object parent)

def writeField (target : Target) (value : Ref) : Run Unit :=
  match target.parent with
  | some parent => do
    let _ ← reflectSet d.toNumber parent target.field value
  | none => return ()

/-- `Reflect.deleteProperty(target, key)`, for a key that is no index of an array. -/
def deleteProperty (a : ℕ) (key : Text) : Run Bool :=
  change a fun node => { node with members := node.members.filter fun m => m.1 ≠ key }

def removeField (target : Target) : Run Unit := do
  match target.parent with
  | some parent =>
    if (arrayAt (← readHeap) (.object parent)).isSome && isNumericKey target.field then
      assign d.toNumber parent (indexText (keyIndex target.field)) .null
    else
      let _ ← deleteProperty parent target.field
  | none => return ()

/-! ## `$push` -/

/-- The elements of the array are changed in place. -/
def setElements (a : ℕ) (xs : List Ref) : Run Unit := do
  if ← change a fun node => { node with elements := some xs } then return ()
  else throw (typeError "Cannot assign to read only property")

/-- The part of an array that `$slice` keeps. -/
def slicedRefs (slice : Number) (xs : List Ref) : List Ref :=
  let n := toInteger xs.length slice
  if numEquals slice (.finite (ofInt 0)) then []
  else if numLt slice (.finite (ofInt 0)) then xs.drop (if n = 0 then 0 else xs.length - n.natAbs)
  else xs.take n.toNat

/-- The `$sort` of a `$push` of the elements `each`. -/
def pushSort (argument : Ref) (current : ℕ) (each : List Ref) : Run Unit := do
  let heap ← readHeap
  let specifier := reflectGet heap (js "$sort") argument
  if specifier = .undefined then return ()
  else if reflectGet heap (js "$slice") argument = .undefined then
    refuse (js "$sort requires $slice to be present")
  else if each.any fun element => !isPlainObject heap element then
    refuse (js "$push like modifiers using $sort require all elements to be objects")
  else
    let xs := (heap[current]?.bind Node.elements).getD []
    let order ← looking fun heap => d.sortOrder heap specifier xs
    setElements current (order.filterMap (xs[·]?))

/-- The `$slice` of a `$push`. -/
def pushSlice (target : Target) (argument : Ref) (current : ℕ) : Run Unit := do
  let heap ← readHeap
  match reflectGet heap (js "$slice") argument with
  | .leaf .undefined => return ()
  | .leaf (.num n) =>
    let xs := (heap[current]?.bind Node.elements).getD []
    writeField d target (← allocate (arrayOf (slicedRefs n xs)))
  | _ => refuse (js "$slice must be a numeric value")

/-- The array at the target, a new one where there is nothing. -/
def pushTarget (target : Target) : Run ℕ := do
  let heap ← readHeap
  match readField heap target, arrayAt heap (readField heap target) with
  | .leaf .undefined, _ =>
    let created ← allocate (arrayOf [])
    writeField d target created
    return heap.length
  | _, some (current, _) => return current
  | _, none => refuse (js "Cannot apply $push modifier to non-array")

/-- `applyPush(target, argument, values)`. -/
def applyPush (stack : ℕ) (target : Target) (argument : Ref) : Run Unit := do
  let current ← pushTarget d target
  let heap ← readHeap
  let xs := (heap[current]?.bind Node.elements).getD []
  if !isPlainObject heap argument || !hasOwn heap (js "$each") argument then
    looking fun heap => assertValidFieldNames heap stack argument
    setElements current (xs ++ [argument])
  else match arrayAt heap (reflectGet heap (js "$each") argument) with
    | none => refuse (js "$each must be an array")
    | some (each, items) =>
      looking fun heap => assertValidFieldNames heap stack (.object each)
      let index ← orRefuse (pushIndex (primitive (reflectGet heap (js "$position") argument)) xs.length)
      setElements current (xs.take index ++ items ++ xs.drop index)
      pushSort d argument current items
      pushSlice d target argument current

/-! ## Operators -/

/-- `$inc`, `$mul`, `$min` and `$max`. -/
def applyArithmetic (operator : Text) (target : Target) (argument current : Ref) : Run Unit :=
  match argument, current with
  | .leaf (.num n), .leaf .undefined =>
    (arithmetic d.platform operator none n).elim (pure ()) fun r => writeField d target (.leaf (.num r))
  | .leaf (.num n), .leaf (.num c) =>
    (arithmetic d.platform operator (some c) n).elim (pure ()) fun r => writeField d target (.leaf (.num r))
  | .leaf (.num _), _ => refuse (js "Cannot apply " ++ operator ++ js " modifier to non-number")
  | _, _ => refuse (js "Modifier " ++ operator ++ js " allowed for numbers only")

def applyRename (document : ℕ) (path : Text) (target : Target) (argument current : Ref) : Run Unit :=
  match argument with
  | .leaf (.str renamed) => do
    if path = renamed then refuse (js "$rename source must differ from target")
    else if (0 : UInt16) ∈ renamed then
      refuse (js "The 'to' field for $rename cannot contain an embedded null byte")
    else if current = .undefined then return ()
    else
      removeField d target
      let destination ← modificationTarget d none false true document renamed
      writeField d destination current
  | _ => refuse (js "$rename target must be a string")

/-- What `$addToSet` adds: the array that holds it, and its elements. -/
def addToSetItems (argument : Ref) : Run (Ref × List Ref) := do
  let heap ← readHeap
  match isPlainObject heap argument, arrayAt heap (reflectGet heap (js "$each") argument) with
  | true, some (each, items) => return (.object each, items)
  | _, _ => return (← allocate (arrayOf [argument]), [argument])

/-- The loop of `$addToSet`. -/
def addToSet (heap : Heap) (items current : List Ref) : List Ref :=
  items.foldl (fun current item =>
    if current.any fun value => d.equals true heap value item then current else current ++ [item]) current

def applyAddToSet (target : Target) (argument current : Ref) : Run Unit := do
  let (holder, items) ← addToSetItems argument
  let heap ← readHeap
  match current, arrayAt heap current with
  | .leaf .undefined, _ => writeField d target holder
  | _, some (a, xs) => setElements a (addToSet d heap items xs)
  | _, none => refuse (js "Cannot apply $addToSet modifier to non-array")

/-- The elements that `$pull` and `$pullAll` keep. -/
def pull (heap : Heap) (items : List Ref) : List Ref → Except Thrown (List Ref)
  | [] => .ok []
  | value :: rest => do
    let pulled ← items.anyM fun item => d.pullMatches heap value item
    let kept ← pull heap items rest
    .ok (if pulled then kept else value :: kept)

/-- What `$pull` and `$pullAll` take out. -/
def pullItems (operator : Text) (argument : Ref) : Run (List Ref) := do
  if operator = js "$pull" then return [argument]
  else match arrayAt (← readHeap) argument with
    | some (_, items) => return items
    | none => refuse (js "Modifier $pushAll/pullAll allowed for arrays only")

def applyPull (operator : Text) (target : Target) (argument current : Ref) : Run Unit := do
  let heap ← readHeap
  match current, arrayAt heap current with
  | .leaf .undefined, _ => return ()
  | _, some (_, xs) =>
    let items ← pullItems operator argument
    let kept ← looking fun heap => pull d heap items xs
    writeField d target (← allocate (arrayOf kept))
  | _, none => refuse (js "Cannot apply $pull/pullAll modifier to non-array")

def applyPushAll (target : Target) (argument current : Ref) : Run Unit := do
  let heap ← readHeap
  match arrayAt heap argument, current, arrayAt heap current with
  | none, _, _ => refuse (js "Modifier $pushAll/pullAll allowed for arrays only")
  | some _, .leaf .undefined, _ => writeField d target argument
  | some (_, items), _, some (a, xs) => setElements a (xs ++ items)
  | some _, _, none => refuse (js "Cannot apply $pushAll modifier to non-array")

def applyPop (argument current : Ref) : Run Unit := do
  match current, arrayAt (← readHeap) current with
  | .leaf .undefined, _ => return ()
  | _, some (a, xs) => setElements a (if isNegative (primitive argument) then xs.tail else xs.dropLast)
  | _, none => refuse (js "Cannot apply $pop modifier to non-array")

/-- `argument === true`, or an object with the `$type` `'date'`. -/
def isDateArgument (heap : Heap) (argument : Ref) : Bool :=
  argument == .leaf (.bool true) || isPlainObject heap argument &&
    reflectGet heap (js "$type") argument == .leaf (.str (js "date"))

/-- `applyModifierOperator`, once its target is found. -/
def applyAt (stack : ℕ) (options : ModifyOptions) (document : ℕ) (operator path : Text)
    (argument : Ref) (target : Target) : Run Unit := do
  let heap ← readHeap
  let current := readField heap target
  if operator = js "$set" then
    looking fun heap => assertValidFieldNames heap stack argument
    writeField d target argument
  else if operator = js "$unset" then removeField d target
  else if operator ∈ arithmeticOperators then applyArithmetic d operator target argument current
  else if operator = js "$currentDate" then
    if isDateArgument heap argument then writeField d target (.leaf (.date (some options.now)))
    else refuse (js "Invalid $currentDate modifier")
  else if operator = js "$rename" then applyRename d document path target argument current
  else if operator = js "$push" then applyPush d stack target argument
  else if operator = js "$pushAll" then applyPushAll d target argument current
  else if operator = js "$addToSet" then applyAddToSet d target argument current
  else if operator = js "$pop" then applyPop argument current
  else if operator = js "$pull" ∨ operator = js "$pullAll" then applyPull d operator target argument current
  else if operator = js "$bit" then refuse (js "$bit is not supported")
  else if operator = js "$v" then return ()
  else refuse (js "Invalid modifier specified " ++ operator)

/-- `applyModifierOperator(document, operator, path, argument, options, values)`. -/
def applyModifierOperator (stack : ℕ) (options : ModifyOptions) (document : ℕ) (operator path : Text)
    (argument : Value) : Run Unit := do
  let argument ← load d argument
  if operator = js "$setOnInsert" ∧ options.isInsert = false then return ()
  else
    let actualOperator := if operator = js "$setOnInsert" then js "$set" else operator
    let target ← modificationTarget d options.arrayIndices (actualOperator ∈ noCreateOperators)
      (actualOperator = js "$rename") document path
    applyAt d stack options document actualOperator path argument target

/-- The fields of one operator, one after the other. -/
def applyFields (stack : ℕ) (options : ModifyOptions) (document : ℕ) (operator : Text) :
    List (Text × Value) → Run Unit
  | [] => return ()
  | (path, argument) :: rest => do
    if path = js "_id" ∨ startsWith (js "_id.") path then refuse (js "Mod on _id not allowed")
    else
      applyModifierOperator d stack options document operator path argument
      applyFields stack options document operator rest

/-- The operators of a modifier, one after the other. -/
def applyOperators (stack : ℕ) (options : ModifyOptions) (document : ℕ) : List (Text × Value) → Run Unit
  | [] => return ()
  | (operator, fields) :: rest => match copiedObject fields with
    | none => refuse (js "Modifier " ++ operator ++ js "'s argument must be an object")
    | some fields => do
      applyFields d stack options document operator fields
      applyOperators stack options document rest

/-- The replacement of a document, which keeps its `_id`. -/
def replaceDocument (stack : ℕ) (modifier : Value) (document : ℕ) : Run Unit := do
  let cloned ← load d modifier
  looking fun heap => assertValidFieldNames heap stack cloned
  let heap ← readHeap
  let id := reflectGet heap (js "_id") (.object document)
  if hasOwn heap (js "_id") cloned && !d.equals false heap (reflectGet heap (js "_id") cloned) id then
    refuse (js "Cannot change the _id of a document")
  else
    let entries (r : Ref) : List (Text × Ref) := match r with
      | .object a => heap[a]?.elim [] Node.entries
      | _ => []
    (entries (.object document)).forM fun m => do
      if ← deleteProperty document m.1 then return ()
      else throw (typeError "Cannot delete property")
    assignEach d.toNumber document (entries cloned)
    if id = .undefined then return ()
    else
      let _ ← reflectSet d.toNumber document (js "_id") id

/-- `modifyDocument(document, modifier, options, values)`. -/
def modifyDocument (stack : ℕ) (options : ModifyOptions) (modifier : Value) (document : ℕ) : Run Unit :=
  match modifier with
  | .obj ms =>
    let operators := (copiedEntries ms).filter fun m => startsWith (js "$") m.1
    if operators.isEmpty then replaceDocument d stack modifier document
    else if operators.length ≠ (copiedEntries ms).length then
      refuse (js "Update parameter cannot have both modifier and non-modifier fields.")
    else applyOperators d stack options document (copiedEntries ms)
  | _ => refuse (js "Modifier must be an object")

/-! ## Upserts -/

/-- A field of a selector in the document of an upsert. -/
def populateField (path : Text) (value : Value) (document : ℕ) : Run Unit := do
  if startsWith (js "$") path then return ()
  else match ownMember value (js "$eq") with
    | some v => setPath d document path (← load d v)
    | none =>
      if ← orRefuse (isOperatorObject value) then return ()
      else setPath d document path (← load d value)

mutual

/-- `populate(value)`. -/
def populate : List (Text × Value) → ℕ → Run Unit
  | [], _ => return ()
  | (path, value) :: rest, document => do
    populateEntry path value document
    populate rest document

/-- One entry of a selector: the elements of `$and`, and the only element of `$or`, are
selectors again. -/
def populateEntry (path : Text) : Value → ℕ → Run Unit
  | .arr xs, document =>
    if path = js "$and" ∨ path = js "$or" ∧ xs.length = 1 then populateEach xs document
    else populateField d path (.arr xs) document
  | value, document => populateField d path value document

/-- The elements that are objects. -/
def populateEach : List Value → ℕ → Run Unit
  | [], _ => return ()
  | .obj ms :: rest, document => do
    populate ms document
    populateEach rest document
  | _ :: rest, document => populateEach rest document

end

/-- `createUpsertDocument(selector, modifier, values)`. -/
def createUpsertDocument (stack : ℕ) (now : ℤ) (selector modifier : Value) : Run ℕ := do
  let document := (← readHeap).length
  let _ ← allocate plainObject
  match selector with
  | .str id => assign d.toNumber document (js "_id") (.leaf (.str id))
  | .obj ms => populate d ms document
  | _ => pure ()
  modifyDocument d stack ⟨true, none, now⟩ modifier document
  return document

/-! ## `update` and `upsert` -/

/-- `matchedDocuments(selector)`. -/
def matchedDocuments (heap : Heap) (selector : Value) : List Ref → Except Thrown (List Ref)
  | [] => .ok []
  | document :: rest => do
    let found ← d.documentMatches selector heap document
    let others ← matchedDocuments heap selector rest
    .ok (if found.isSome then document :: others else others)

/-- What `update` does with one matched document. -/
def updateOne (stack : ℕ) (now : ℤ) (selector modifier : Value) (previous : Ref) : Run Event := do
  match ← cloneValue d.toNumber stack previous with
  | .object document =>
    let found ← looking fun heap => d.documentMatches selector heap previous
    modifyDocument d stack ⟨false, found.join, now⟩ modifier document
    match reflectGet (← readHeap) (js "_id") previous with
    | .leaf (.str id) =>
      putFrozen stack id document
      freezeEvent (.update previous (.object document)) stack
      return .update previous (.object document)
    | _ => throw (typeError "Local collection _id must be a lowercase 24-character hexadecimal string.")
  | _ => throw (typeError "Reflect.set called on non-object")

/-- The loop of `update`. -/
def updateEach (stack : ℕ) (now : ℤ) (selector modifier : Value) (multi : Bool) :
    List Ref → Run (List Event)
  | [] => return []
  | previous :: rest => do
    let event ← updateOne d stack now selector modifier previous
    if multi then return event :: (← updateEach stack now selector modifier multi rest)
    else return [event]

def update (stack : ℕ) (now : ℤ) (selector modifier : Value) (multi : Bool) : Run ℕ := do
  let documents := (← get).store.values
  let matched ← looking fun heap => matchedDocuments d heap selector documents
  let updates ← updateEach d stack now selector modifier multi matched
  updates.forM emit
  return updates.length

/-- `document._id = insertedId`, where the document has none. -/
def giveInsertedId (insertedId : Option Text) (document : ℕ) : Run Unit := do
  match insertedId with
  | some id =>
    if isFalsy (primitive (reflectGet (← readHeap) (js "_id") (.object document))) then
      assign d.toNumber document (js "_id") (.leaf (.str id))
  | none => return ()

def upsert (stack : ℕ) (now : ℤ) (randomId : Text) (selector modifier : Value) (multi : Bool)
    (insertedId : Option Text) : Run (ℕ × Option Text) := do
  let numberAffected ← update d stack now selector modifier multi
  if numberAffected > 0 then return (numberAffected, none)
  else
    let document ← createUpsertDocument d stack now selector modifier
    giveInsertedId d insertedId document
    let id ← prepareInsert d.toNumber stack randomId document
    freezeEvent (.insert (.object document)) stack
    emit (.insert (.object document))
    return (1, some id)

end

end TypeFerry.Minimongo.ObjectUpdates
