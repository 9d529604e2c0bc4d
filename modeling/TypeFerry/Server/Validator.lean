import TypeFerry.Lib.Schemas

/-! # The validators of collections

`validator.ts`: the JSON Schema that Zod emits, in its draft 04, becomes a schema in the dialect of MongoDB, or is refused
with its place. An error is its message. -/
namespace TypeFerry.Server.Validator
open TypeFerry.Lib.Numeral TypeFerry.Lib.JsonText TypeFerry.Lib.OrderedMap TypeFerry.Lib.Schemas

def BSON_NUMERIC_TYPES : List Json :=
  [.str (js "int"), .str (js "long"), .str (js "double"), .str (js "decimal")]

def BSON_SCHEMA_KEYS : List Text :=
  [js "additionalProperties", js "allOf", js "anyOf", js "bsonType", js "description", js "enum",
    js "exclusiveMaximum", js "exclusiveMinimum", js "items", js "maximum", js "maxItems", js "maxLength",
    js "minimum", js "minItems", js "minLength", js "multipleOf", js "not", js "oneOf", js "pattern",
    js "properties", js "required", js "type", js "uniqueItems"]

def combinators : List Text := [js "allOf", js "anyOf", js "oneOf"]

def location (path : List Text) : Text :=
  if path = [] then js "<root>" else (js ".").intercalate path

def throwUnsupported {α : Type} (path : List Text) (message : Text) : Except Text α :=
  .error (message ++ js " at " ++ location path ++ js ".")

def isJsonObject : Json → Bool
  | .obj _ => true
  | _ => false

def isArray : Json → Bool
  | .arr _ => true
  | _ => false

mutual

/-- `String(j)` -/
def string : Json → Text
  | .null => js "null"
  | .bool b => if b then js "true" else js "false"
  | .num d => d.dropNegZero.toText
  | .str s => s
  | .arr xs => (js ",").intercalate (strings xs)
  | .obj _ => js "[object Object]"

/-- `join` writes nothing for `null`. -/
def strings : List Json → List Text
  | [] => []
  | .null :: xs => [] :: strings xs
  | x :: xs => string x :: strings xs

end

/-! ## Types -/

def convertJsonType : Json → Json
  | .str value =>
    if value = js "number" ∨ value = js "integer" then .arr BSON_NUMERIC_TYPES
    else if value = js "boolean" then .str (js "bool")
    else .str value
  | value => value

/-- `flatMap` takes the arrays apart that `convertJsonType` returns. -/
def flattened : Json → List Json
  | .arr xs => xs
  | j => [j]

def convertJsonTypes : Json → Except Text Json
  | .arr xs => .ok (.arr (xs.flatMap fun x => flattened (convertJsonType x)))
  | .str s => .ok (convertJsonType (.str s))
  | _ => .error (js "Zod emitted an invalid JSON Schema type.")

/-! ## `convertSchema` -/

/-- What a value in a schema is converted to as a schema, at a path. -/
abbrev Convert := List Text → Except Text Json

/-- The value of a member, with what it and the values in it are converted to where they are schemas. -/
abbrev Child := Argument Convert

def notAnObject : Convert := fun path => throwUnsupported path (js "Zod emitted a non-object JSON Schema node.")

/-- `isDeepStrictEqual` -/
abbrev isDeepStrictEqual := deepEqual

def indexText (index : ℕ) : Text := (digitsOf index).map unit

/-- The items at their paths, one after the other. -/
def convertItems (path : List Text) (items : List Convert) : Except Text (List Json) :=
  items.zipIdx.mapM fun item => item.1 (path ++ [indexText item.2])

def lengthChild (n : ℕ) : Child := ⟨.num (ofInt n), notAnObject, [], []⟩

def normalizeHomogeneousVariadicTuple (value : List (Text × Child)) (path : List Text) :
    Except Text (List (Text × Child)) :=
  match lookup (js "items") value with
  | none => .ok value
  | some items =>
    if isArray items.json then
      match lookup (js "additionalItems") value with
      | none => throwUnsupported path (js "Tuple schemas are not supported.")
      | some additionalItems =>
        if isJsonObject additionalItems.json then do
          let rest ← additionalItems.self (path ++ [js "additionalItems"])
          let converted ← convertItems (path ++ [js "items"]) items.elems
          if converted.all fun item => isDeepStrictEqual item rest then
            let spread := put (js "minItems") (lengthChild converted.length) (put (js "items") additionalItems value)
            .ok (spread.filter fun m => m.1 ≠ js "additionalItems")
          else throwUnsupported path (js "Tuple schemas are not supported.")
        else throwUnsupported path (js "Tuple schemas are not supported.")
    else .ok value

/-- The members of `properties`, each at its path. -/
def convertProperties (path : List Text) (properties : List (Text × Convert)) : Except Text (List (Text × Json)) :=
  properties.mapM fun property => do
    let converted ← property.2 (path ++ [property.1])
    .ok (property.1, converted)

/-- The member of the result that is assigned for a member of `normalizedValue`, if one is. -/
def convertKeyword (normalizedValue : List (Text × Child)) (path : List Text) (key : Text) (child : Child) :
    Except Text (Option (Text × Json)) :=
  if key = js "$schema" ∨ key = js "~standard" then .ok none
  else if key = js "type" then do
    let bsonType ← convertJsonTypes child.json
    .ok (some (js "bsonType", bsonType))
  else if key = js "properties" ∧ isJsonObject child.json then do
    let properties ← convertProperties (path ++ [js "properties"]) child.members
    .ok (some (key, .obj properties))
  else if key = js "items" then
    if isJsonObject child.json then do
      let items ← child.self (path ++ [key])
      .ok (some (key, items))
    else throwUnsupported (path ++ [key]) (js "Tuple schemas are not supported.")
  else if key ∈ combinators ∧ isArray child.json then do
    let items ← convertItems (path ++ [key]) child.elems
    .ok (some (key, .arr items))
  else if key = js "not" ∧ isJsonObject child.json then do
    let converted ← child.self (path ++ [key])
    .ok (some (key, converted))
  else if key = js "additionalProperties" then
    match child.json with
    | .bool b => .ok (some (key, .bool b))
    | .obj _ => do
      let converted ← child.self (path ++ [key])
      .ok (some (key, converted))
    | _ => throwUnsupported (path ++ [key]) (js "Zod emitted an invalid additionalProperties schema.")
  else if key = js "const" then .ok (some (js "enum", .arr [child.json]))
  else if key = js "readOnly" then .ok none
  else if key = js "format" then
    match (lookup (js "pattern") normalizedValue).map Argument.json with
    | some (.str _) => .ok none
    | _ => throwUnsupported (path ++ [key])
        (js "Zod string format \"" ++ string child.json ++ js "\" has no MongoDB-compatible pattern.")
  else if key ∈ BSON_SCHEMA_KEYS then .ok (some (key, child.json))
  else throwUnsupported (path ++ [key]) (js "Zod emitted unsupported JSON Schema keyword \"" ++ key ++ js "\".")

def convertNode (value : List (Text × Child)) : Convert := fun path =>
  if value.isEmpty then throwUnsupported path (js "Zod emitted an unconstrained JSON Schema node.")
  else do
    let normalizedValue ← normalizeHomogeneousVariadicTuple value path
    let assigned ← normalizedValue.mapM fun m => convertKeyword normalizedValue path m.1 m.2
    let result := (assigned.filterMap id).foldl (fun result m => put m.1 m.2 result) []
    if result.isEmpty then throwUnsupported path (js "Zod emitted an unconstrained JSON Schema node.")
    else .ok (.obj result)

def convertSchema : Json → Convert := fold convertNode fun _ => notAnObject

/-! ## `toMongoJsonSchema` -/

def objectIdSchema : Json := .obj [(js "bsonType", .str (js "objectId"))]

def isObjectType : Json → Bool
  | .str s => s = js "object"
  | _ => false

/-- The properties with one for `_id`, where they have none. -/
def allowId : Json → Json
  | .obj properties =>
    if (lookup (js "_id") properties).isSome then .obj properties else .obj ((js "_id", objectIdSchema) :: properties)
  | j => j

/-- The alternatives of a combinator, changed in their places. -/
def alternativesOf (m : Text × Argument Json) : Text × Json :=
  if m.1 ∈ combinators ∧ isArray m.2.json then (m.1, .arr m.2.elems) else (m.1, m.2.json)

def allowGeneratedObjectId : Json → Json :=
  fold (fun schema =>
    if ((lookup (js "bsonType") schema).map Argument.json).any isObjectType then
      .obj (schema.map fun m => (m.1, if m.1 = js "properties" then allowId m.2.json else m.2.json))
    else .obj (schema.map alternativesOf)) id

/-- From what `z.toJSONSchema` returns. -/
def toMongoJsonSchema (jsonSchema : Json) : Except Text Json := do
  let converted ← convertSchema jsonSchema []
  .ok (allowGeneratedObjectId (.obj ((membersOf converted).filter fun m => m.1 ≠ js "$schema")))

def mongoValidator (jsonSchema : Json) : Except Text Json := do
  let schema ← toMongoJsonSchema jsonSchema
  .ok (.obj [(js "$jsonSchema", schema)])

end TypeFerry.Server.Validator
