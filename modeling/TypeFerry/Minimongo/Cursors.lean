import TypeFerry.Minimongo.Modifier

/-! # Cursors

`projection.ts` and `cursor.ts`: a query that is evaluated when it is asked, and
the events by which it tells how its result has changed. Cursors have no
transform and no collation here. -/
namespace TypeFerry.Minimongo.Cursors
open TypeFerry.Lib.Numeral TypeFerry.Lib.JsonText TypeFerry.Lib.OrderedMap
open TypeFerry.Ejson.Clone TypeFerry.Ejson.Canonical
open TypeFerry.Minimongo.Values TypeFerry.Minimongo.Matcher TypeFerry.Minimongo.Sorter
open TypeFerry.Minimongo.Modifier

/-! ## Projections -/

/-- A value that a condition takes for true. -/
def truthy (v : Value) : Bool := !isFalsy v

/-- `parts.join('.')`. -/
def joinPath (parts : List Text) : Text := [46].intercalate parts

/-- One path in a `ProjectionRuleTree`, whose rules are booleans and whose nodes are objects;
`seen` are the parts above the node. -/
def insertRule (including : Bool) (path : Text) :
    List Text → List Text → List (Text × Value) → Except Text (List (Text × Value))
  | _, [], node => .ok node
  | seen, part :: rest, node =>
    match getOwn part node, rest with
    | none, [] => .ok (enumerate (assign part (.bool including) node))
    | none, _ :: _ => do
      .ok (enumerate (assign part (.obj (← insertRule including path (seen ++ [part]) rest [])) node))
    | some (.obj child), _ :: _ => do
      .ok (enumerate (assign part (.obj (← insertRule including path (seen ++ [part]) rest child)) node))
    | some _, _ => .error (js "both " ++ joinPath (seen ++ [part]) ++ js " and " ++ path ++
        js " found in fields option, using both of them may trigger unexpected behavior. " ++
        js "Did you mean to use only one of them?")

/-- The paths of a projection, in the order of `sort()`; `_id` is among them if it is alone or
included. -/
def projectionPaths (projection : List (Text × Value)) : List Text :=
  let paths := (projection.map Prod.fst).insertionSort fun s t => textLe s t
  if paths = [js "_id"] ∨ truthy ((getOwn (js "_id") projection).getD .undefined) then paths
  else paths.filter fun path => path ≠ js "_id"

/-- The loop of `projectionDetails` over the paths. -/
def insertRules (including : Bool) (projection : List (Text × Value)) :
    List Text → List (Text × Value) → Except Text (List (Text × Value))
  | [], tree => .ok tree
  | path :: rest, tree =>
    if truthy ((getOwn path projection).getD .undefined) ≠ including then
      .error (js "You cannot currently mix including and excluding fields.")
    else do insertRules including projection rest (← insertRule including path [] (splitPath path) tree)

/-- `projectionDetails(projection)`: whether it includes, and its rules. -/
def projectionDetails (projection : List (Text × Value)) : Except Text (Bool × List (Text × Value)) :=
  let paths := projectionPaths projection
  let including := paths.head?.any fun path => truthy ((getOwn path projection).getD .undefined)
  do .ok (including, ← insertRules including projection paths [])

mutual

/-- `f` on the elements of arrays, at any depth. -/
def mapArrays (f : Value → Value) : Value → Value
  | .arr xs => .arr (mapElems f xs)
  | v => f v

def mapElems (f : Value → Value) : List Value → List Value
  | [] => []
  | x :: xs => mapArrays f x :: mapElems f xs

end

/-- What one rule makes of the projected members; `below` is the rule applied to what is
below the field. -/
def applyRule (including : Bool) (field : Text) (rule : Value) (below : Value → Value)
    (child : Option Value) (result : List (Text × Value)) : List (Text × Value) :=
  match child, rule with
  | none, _ => result
  | some child, .bool _ =>
    if including then enumerate (assign field (cloneValue child) result)
    else result.filter fun m => m.1 ≠ field
  | some child, _ =>
    if child.isObjectAndNotNull then enumerate (assign field (below child) result) else result

mutual

/-- `applyRuleTree(value, tree, including, values)`. -/
def applyRuleTree (including : Bool) : Value → Value → Value
  | .obj tree, value => mapArrays (fun
    | .undefined => .undefined
    | .null => .null
    | .obj ms => .obj (applyRules including tree (.obj ms) (if including then [] else
        match cloneValue (.obj ms) with
        | .obj copy => copy
        | _ => []))
    | v => .obj (applyRules including tree v [])) value
  | _, value => value

/-- The rules of one node, one after the other. -/
def applyRules (including : Bool) : List (Text × Value) → Value → List (Text × Value) →
    List (Text × Value)
  | [], _, result => result
  | (field, rule) :: rest, value, result => applyRules including rest value
      (applyRule including field rule (applyRuleTree including rule) (ownMember value field) result)

end

/-- Whether a value is one of `0`, `1`, `false` and `true`. -/
def isProjectionValue : Value → Bool
  | .bool _ => true
  | .num n => toInt? n == some 0 || toInt? n == some 1
  | _ => false

/-- The checks of `compileProjection` on one field. -/
def checkProjection : List (Text × Value) → Except Text Unit
  | [] => .ok ()
  | (path, value) :: rest =>
    if js "$" ∈ splitPath path then
      .error (js "Local collections do not support $ operators in projections.")
    else if [js "$elemMatch", js "$meta", js "$slice"].any fun key => (ownMember value key).isSome then
      .error (js "Local collections do not support operators in projections.")
    else if !isProjectionValue value then
      .error (js "Projection values should be one of 1, 0, true, or false")
    else checkProjection rest

/-- Whether a projection keeps the `_id`. -/
def idProjection (projection : List (Text × Value)) : Bool :=
  match getOwn (js "_id") projection with
  | none | some .undefined => true
  | some v => truthy v

/-- `compileProjection(projection, values)`. -/
def compileProjection (projection : List (Text × Value)) : Except Text (Value → Value) := do
  checkProjection projection
  let (including, tree) ← projectionDetails projection
  .ok fun document =>
    let result := applyRuleTree including (.obj tree) document
    match idProjection projection, ownMember document (js "_id") with
    | true, some id => withMember (js "_id") (cloneValue id) result
    | true, none => result
    | false, _ => deleteKey (js "_id") result

/-! ## Queries -/

/-- `SortSpecifier`: a specification or a function. -/
inductive SortSpecifier where
  | spec (specifier : Value)
  | function (compare : Value → Value → ℤ)

/-- `FindOptions`, without `transform` and `collation`. -/
structure FindOptions where
  sort : Option SortSpecifier
  skip : Option Number
  limit : Option Number
  projection : List (Text × Value)

/-- A sorter that was made: from a specification or from a function. -/
inductive Comparator where
  | parts (parts : List SortPart)
  | function (compare : Value → Value → ℤ)

/-- A cursor on its collection. -/
structure Cursor where
  documentMatches : DocumentMatcher
  sorter : Option Comparator
  /-- `slice(skip, skip + limit)` of a list of that length -/
  window : ℕ → ℕ × ℕ
  outputDocument : Value → Value

/-- `$near` stands in a field of a selector. -/
def hasNear : Value → Bool
  | .obj ms => (getOwn (js "$near") ms).isSome
  | _ => false

/-- `hasGeoQuery()` of a selector that compiles. -/
def hasGeoQuery : Value → Bool
  | .obj ms => !(getOwn (js "_id") ms).any isFalsy &&
      ms.any fun m => !startsWith (js "$") m.1 && hasNear m.2
  | _ => false

/-- The sorter of a cursor. -/
def makeSorter (sort : Option SortSpecifier) (hasGeoQuery : Bool) : Except Text (Option Comparator) :=
  let unsorted := if hasGeoQuery then some (.parts []) else none
  match sort with
  | some (.function compare) => .ok (some (.function compare))
  | some (.spec specifier) =>
    if isFalsy specifier then .ok unsorted else do .ok (some (.parts (← normalizeSort specifier)))
  | none => .ok unsorted

/-- A relative index of `slice` in a list of the given length. -/
def sliceIndex (length : ℕ) (n : Number) : ℕ :=
  let i := toInteger length n
  if i < 0 then (length + i).toNat else min i.toNat length

/-- `find(selector, options)`, which throws where its constructor does. -/
def find (p : Platform) (selector : Value) (options : FindOptions) : Except Text Cursor := do
  let documentMatches ← matcher p false selector
  let sorter ← makeSorter options.sort (hasGeoQuery selector)
  let projection ← compileProjection options.projection
  let skip := options.skip.getD (.finite (ofInt 0))
  .ok ⟨documentMatches, sorter,
    fun length => (sliceIndex length skip, options.limit.elim length fun limit =>
      sliceIndex length (p.add skip limit)),
    fun document => if options.projection.isEmpty then document else projection document⟩

/-- The loop of `rawDocuments`: the documents, and the distances by their ids. -/
def selectDocuments (string : Value → Text) (documentMatches : DocumentMatcher) : List Value →
    Except Text (List Value × List (Text × Number))
  | [] => .ok ([], [])
  | document :: rest => do
    let match' ← documentMatches document
    let (documents, distances) ← selectDocuments string documentMatches rest
    .ok (if match'.result then (document :: documents,
      (match'.distance.elim [] fun d => [(string (getKey document (js "_id")), d)]) ++ distances)
    else (documents, distances))

/-- `distances.get(document._id)`; a distance that was set later counts. -/
def distanceOf (distances : List (Text × Number)) (document : Value) : Option Number :=
  match getKey document (js "_id") with
  | .str id => distances.reverse.lookup id
  | _ => none

/-- `documents.sort(sorter.getComparator({ distances }))`. -/
def Comparator.sort (distances : List (Text × Number)) : Comparator → List Value → Except Text (List Value)
  | .function compare, documents => .ok (documents.insertionSort fun a b => compare a b ≤ 0)
  | .parts [], documents => .ok (documents.insertionSort fun a b =>
      compareDistances (distanceOf distances a) (distanceOf distances b) ≤ 0)
  | .parts ps, documents => sortByParts ps documents

/-- `String(value)`. -/
def stringOf (p : Platform) : Value → Text
  | .str s => s
  | v => p.string v

/-- `rawDocuments()`. -/
def Cursor.rawDocuments (p : Platform) (c : Cursor) (documents : List Value) :
    Except Text (List Value) := do
  let (selected, distances) ← selectDocuments (stringOf p) c.documentMatches documents
  let sorted ← c.sorter.elim (.ok selected) fun sorter => sorter.sort distances selected
  .ok ((sorted.take (c.window sorted.length).2).drop (c.window sorted.length).1)

/-- `fetch()`. -/
def Cursor.fetch (p : Platform) (c : Cursor) (documents : List Value) : Except Text (List Value) := do
  .ok ((← c.rawDocuments p documents).map c.outputDocument)

/-! ## Events -/

inductive CursorEvent (O : Type) where
  | added (document : O) (index : ℕ)
  | changed (previous document : O) (previousIndex index : ℕ)
  | removed (document : O) (index : ℕ)
  | change (documents : List O)

section
variable {O : Type} (idOf : O → Text) (same : O → O → Bool)

/-- `new Map(documents.map((document, index) => [idOf(document), { document, index }]))`. -/
def byId (documents : List O) : OMap Text (O × ℕ) :=
  OMap.empty.setAll (documents.zipIdx.map fun p => (idOf p.1, p))

/-- What the loop of `handleMutation` over the current result emits for one entry. -/
def entryEvent (previousById : OMap Text (O × ℕ)) (id : Text) (entry : O × ℕ) :
    Option (CursorEvent O) :=
  match previousById.get id with
  | none => some (.added entry.1 entry.2)
  | some old =>
    if same old.1 entry.1 then none else some (.changed old.1 entry.1 old.2 entry.2)

/-- The events `removed`, `added` and `changed` of `handleMutation`, in the order in which it
emits them. `same` is what it compares documents by: the same object or equal values. -/
def diff (previous current : List O) : List (CursorEvent O) :=
  let previousById := byId idOf previous
  let currentById := byId idOf current
  (previousById.entries.filterMap fun e =>
      if (currentById.get e.1).isSome then none else some (.removed e.2.1 e.2.2)) ++
    currentById.entries.filterMap fun e => entryEvent same previousById e.1 e.2

/-- A document that stays has another index. -/
def moved (previous current : List O) : Bool :=
  (byId idOf current).entries.any fun e =>
    ((byId idOf previous).get e.1).any fun old => old.2 ≠ e.2.2

/-- The flag `changed` at the end of `handleMutation`. -/
def isChanged (previous current : List O) : Bool :=
  !(diff idOf same previous current).isEmpty || moved idOf previous current

/-- Everything that `handleMutation` emits. -/
def mutationEvents (previous current : List O) : List (CursorEvent O) :=
  diff idOf same previous current ++
    if isChanged idOf same previous current then [.change current] else []

end

/-- `idOf(document)`. -/
def Cursor.idOf (p : Platform) (document : Value) : Text := stringOf p (getKey document (js "_id"))

/-- Which objects are one: `identical` tells nothing of values that differ. -/
structure Identity where
  identical : Value → Value → Bool
  eq_of_identical : ∀ {a b : Value}, identical a b = true → a = b

/-- No two documents are one object. -/
def Identity.distinct : Identity := ⟨fun _ _ => false, nofun⟩

/-- What `handleMutation` compares documents by: the same object or equal values. -/
def sameDocument (i : Identity) (a b : Value) : Bool := i.identical a b || equalValues false a b

/-- `handleMutation()`: the result it stores as `previous` and what it emits. -/
def Cursor.handleMutation (p : Platform) (i : Identity) (c : Cursor) (previous documents : List Value) :
    Except Text (List Value × List (CursorEvent Value)) := do
  let current ← c.fetch p documents
  .ok (current, mutationEvents (Cursor.idOf p) (sameDocument i) previous current)

end TypeFerry.Minimongo.Cursors
