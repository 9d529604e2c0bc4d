import Mathlib.Data.Rat.Floor
import TypeFerry.Lib.Unicode

/-! # EJSON of the Ruby port

`TypeFerry::EJSON.stringify` without indentation, and `parse`. What the JSON and Base64 libraries
write and read is left to the platform; the bound that `JSON.parse` puts on the nesting is not.
Strings are valid UTF-8. -/
namespace TypeFerry.Ruby.Ejson
open TypeFerry.Lib.Unicode

/-- What the JSON library writes and reads; `F` are the finite floats. -/
inductive Json (F : Type) where
  | nil
  | bool (b : Bool)
  | int (n : ℤ)
  | float (x : F)
  | string (s : Str)
  | array (items : List (Json F))
  | hash (fields : List (Str × Json F))

inductive Float (F : Type) where
  | finite (x : F)
  | nan
  | inf (negative : Bool)
  deriving DecidableEq

inductive Value (F : Type) where
  | nil
  | bool (b : Bool)
  | int (n : ℤ)
  | float (x : Float F)
  | string (s : Str)
  /-- `DateValue` -/
  | date (milliseconds : ℤ)
  | time (seconds : ℚ)
  /-- `RegexpValue` -/
  | regexp (source flags : Str)
  /-- a `Regexp` of the language -/
  | pattern (source : Str) (casefold multiline : Bool)
  /-- `BinaryValue` -/
  | binary (bytes : List UInt8)
  /-- `CustomValue`, or an object with `type_name` and `to_json_value` -/
  | custom (typeName : Str) (value : Value F)
  | array (items : List (Value F))
  | hash (fields : List (Str × Value F))

inductive Error where
  | parserError
  | nestingError
  | keyError
  | typeError (text : String)
  | argumentError (text : String)
  deriving DecidableEq

structure Platform (F Text : Type) where
  generate : Json F → Text
  /-- `JSON.parse` without a bound on the nesting -/
  read : Text → Option (Json F)
  /-- The conversions of `Kernel`; every document has a string. -/
  Integer : Json F → Except Error ℤ
  String : Json F → Str
  /-- A float is numerically this integer. -/
  equal : F → ℤ → Bool
  strictEncode64 : List UInt8 → Str
  strictDecode64 : Str → Option (List UInt8)

/-! ## Tag forms -/

def TAG_KEYS : List (List Str) :=
  [[str "$date"], [str "$regexp", str "$flags"], [str "$InfNaN"], [str "$binary"], [str "$escape"],
    [str "$type", str "$value"]]

/-- The keys in the order in which they were inserted. -/
def tagShape {α : Type} (fields : List (Str × α)) : Bool := fields.map Prod.fst ∈ TAG_KEYS

def exactKeys {α : Type} (fields : List (Str × α)) (keys : List Str) : Bool :=
  fields.length = keys.length && keys.all fun key => key ∈ fields.map Prod.fst

def VALID_REGEXP_FLAGS : Str := str "gimuy"

/-- The first of equal flags stays. -/
def firstFlags (seen : Str) : Str → Str
  | [] => []
  | flag :: flags =>
    if flag ∈ VALID_REGEXP_FLAGS ∧ flag ∉ seen then flag :: firstFlags (flag :: seen) flags
    else firstFlags seen flags

section
variable {F Text : Type} (P : Platform F Text)

def sanitizeFlags (value : Json F) : Str := firstFlags [] ((P.String value).take 50)

def regexpFlags (casefold multiline : Bool) : Str :=
  (if casefold then str "i" else []) ++ if multiline then str "m" else []

/-! ## Writing -/

/-- `Rational#round`: halves away from zero. -/
def round (x : ℚ) : ℤ := if 0 ≤ x then ⌊x + 1 / 2⌋ else -⌊-x + 1 / 2⌋

mutual

def toJsonValue : Value F → Json F
  | .nil => .nil
  | .bool b => .bool b
  | .int n => .int n
  | .float (.finite x) => .float x
  | .float .nan => .hash [(str "$InfNaN", .int 0)]
  | .float (.inf false) => .hash [(str "$InfNaN", .int 1)]
  | .float (.inf true) => .hash [(str "$InfNaN", .int (-1))]
  | .string s => .string s
  | .date milliseconds => .hash [(str "$date", .int milliseconds)]
  | .time seconds => .hash [(str "$date", .int (round (seconds * 1000)))]
  | .regexp source flags => .hash [(str "$regexp", .string source), (str "$flags", .string flags)]
  | .pattern source casefold multiline =>
    .hash [(str "$regexp", .string source), (str "$flags", .string (regexpFlags casefold multiline))]
  | .binary bytes => .hash [(str "$binary", .string (P.strictEncode64 bytes))]
  | .custom typeName value => .hash [(str "$type", .string typeName), (str "$value", toJsonValue value)]
  | .array items => .array (toJsonItems items)
  | .hash fields =>
    if tagShape fields then .hash [(str "$escape", .hash (toJsonFields fields))] else .hash (toJsonFields fields)

def toJsonItems : List (Value F) → List (Json F)
  | [] => []
  | item :: items => toJsonValue item :: toJsonItems items

def toJsonFields : List (Str × Value F) → List (Str × Json F)
  | [] => []
  | (key, value) :: fields => (key, toJsonValue value) :: toJsonFields fields

end

mutual

/-- `keys.sort` compares bytes. -/
def canonicalize : Json F → Json F
  | .array items => .array (canonicalizeItems items)
  | .hash fields => .hash (sortFields (canonicalizeFields fields))
  | value => value

def canonicalizeItems : List (Json F) → List (Json F)
  | [] => []
  | item :: items => canonicalize item :: canonicalizeItems items

def canonicalizeFields : List (Str × Json F) → List (Str × Json F)
  | [] => []
  | (key, value) :: fields => (key, canonicalize value) :: canonicalizeFields fields

end

/-- `max_nesting: false`: documents of every depth are written. -/
def stringify (canonical : Bool) (value : Value F) : Text :=
  let document := toJsonValue P value
  P.generate (if canonical then canonicalize document else document)

/-! ## Reading -/

def fetch (fields : List (Str × Json F)) (key : Str) : Json F :=
  match fields.find? fun field => field.1 = key with
  | some field => field.2
  | none => .nil

def decodeInfNan (sign : Json F) : Float F :=
  let is (n : ℤ) : Bool := match sign with
    | .int m => m = n
    | .float x => P.equal x n
    | _ => false
  if is 0 then .nan else if is 1 then .inf false else .inf true

/-- `tr("-_", "+/")` -/
def tr (c : Char) : Char := if c = '-' then '+' else if c = '_' then '/' else c

def decodeBase64 (value : Json F) : Except Error (List UInt8) :=
  let source := P.String value
  if source.length % 4 ≠ 0 then .error (.argumentError "invalid base64 length")
  else match P.strictDecode64 (source.map tr) with
    | some bytes => .ok bytes
    | none => .error (.argumentError "invalid base64")

variable (customFactories : Str → Option (Value F → Except Error (Value F)))

/-- The tag that a hash is, if it is one. `escaped` is what `$escape` gives, and `value` is the
member `$value`, converted. -/
def convertJson (fields : List (Str × Json F)) (escaped value : Except Error (Value F)) :
    Option (Except Error (Value F)) :=
  if exactKeys fields [str "$date"] then some ((P.Integer (fetch fields (str "$date"))).map .date)
  else if exactKeys fields [str "$regexp", str "$flags"] then
    some (.ok (.regexp (P.String (fetch fields (str "$regexp"))) (sanitizeFlags P (fetch fields (str "$flags")))))
  else if exactKeys fields [str "$InfNaN"] then
    some (.ok (.float (decodeInfNan P (fetch fields (str "$InfNaN")))))
  else if exactKeys fields [str "$binary"] then
    some ((decodeBase64 P (fetch fields (str "$binary"))).map .binary)
  else if exactKeys fields [str "$escape"] then some escaped
  else if exactKeys fields [str "$type", str "$value"] then
    let name := P.String (fetch fields (str "$type"))
    some (match customFactories name with
      | some factory => value >>= factory
      | none => .error (.argumentError ("Custom EJSON type " ++ String.ofList name ++ " is not defined")))
  else none

/-- `value.length <= 2 && value.keys.all? { |key| key.start_with?("$") }` -/
def dollarKeys (fields : List (Str × Json F)) : Bool :=
  fields.length ≤ 2 && fields.all fun field => field.1.head? = some '$'

mutual

def fromJsonValue : Json F → Except Error (Value F)
  | .nil => .ok .nil
  | .bool b => .ok (.bool b)
  | .int n => .ok (.int n)
  | .float x => .ok (.float (.finite x))
  | .string s => .ok (.string s)
  | .array items => (fromJsonItems items).map .array
  | .hash fields =>
    let converted := if dollarKeys fields then
        convertJson P customFactories fields (fromEscaped fields) (fromMember (str "$value") fields)
      else none
    converted.getD ((fromJsonFields fields).map .hash)

def fromJsonItems : List (Json F) → Except Error (List (Value F))
  | [] => .ok []
  | item :: items => do
    let item ← fromJsonValue item
    .ok (item :: (← fromJsonItems items))

def fromJsonFields : List (Str × Json F) → Except Error (List (Str × Value F))
  | [] => .ok []
  | (key, value) :: fields => do
    let value ← fromJsonValue value
    .ok ((key, value) :: (← fromJsonFields fields))

/-- The only member is a hash, whose values are converted. -/
def fromEscaped : List (Str × Json F) → Except Error (Value F)
  | (_, .hash inner) :: _ => (fromJsonFields inner).map .hash
  | _ => .error (.typeError "$escape value must be an object")

def fromMember (key : Str) : List (Str × Json F) → Except Error (Value F)
  | [] => .error .keyError
  | field :: fields => if field.1 = key then fromJsonValue field.2 else fromMember key fields

end

mutual

def nesting : Json F → ℕ
  | .array items => 1 + nestingItems items
  | .hash fields => 1 + nestingFields fields
  | _ => 0

def nestingItems : List (Json F) → ℕ
  | [] => 0
  | item :: items => max (nesting item) (nestingItems items)

def nestingFields : List (Str × Json F) → ℕ
  | [] => 0
  | (_, value) :: fields => max (nesting value) (nestingFields fields)

end

/-- The `max_nesting` of `JSON.parse`, where none is given. -/
def maxNesting : ℕ := 100

/-- `JSON.parse` -/
def parseJson (source : Text) : Except Error (Json F) :=
  match P.read source with
  | some document => if nesting document ≤ maxNesting then .ok document else .error .nestingError
  | none => .error .parserError

def parse (source : Text) : Except Error (Value F) := do
  fromJsonValue P customFactories (← parseJson P source)

end

end TypeFerry.Ruby.Ejson
