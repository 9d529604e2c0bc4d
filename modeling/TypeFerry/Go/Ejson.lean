import TypeFerry.Lib.Unicode

/-! # EJSON of the Go port

`Codec.Stringify` and `Codec.Parse`. Text is a sequence of lexemes, and the decoder of the
standard library goes over them with its states; how a number, a string or base64 is spelled is
left to the platform. Strings are valid UTF-8, and the text of a number that was parsed is not
remembered. -/
namespace TypeFerry.Go.Ejson
open TypeFerry.Lib.Unicode

/-- A `float64`; `F` are the finite ones. -/
inductive Float (F : Type) where
  | finite (x : F)
  | nan
  | inf (negative : Bool)
  deriving DecidableEq

inductive Value (F : Type) where
  | null
  | bool (b : Bool)
  | int (n : ℤ)
  | float (x : Float F)
  | string (s : Str)
  | array (items : List (Value F))
  | object (fields : List (Str × Value F))
  | date (milliseconds : ℤ)
  | binary (data : List UInt8)
  | regex (source flags : Str)
  | custom (name : Str) (inner : Value F)

def Int64 (n : ℤ) : Prop := -2 ^ 63 ≤ n ∧ n < 2 ^ 63

instance (n : ℤ) : Decidable (Int64 n) := inferInstanceAs (Decidable (-2 ^ 63 ≤ n ∧ n < 2 ^ 63))

inductive Error where
  /-- of the decoder of the standard library -/
  | decoder
  | message (text : String)
  /-- The bound on the values that are read is used up. -/
  | bound
  deriving DecidableEq

structure Platform (F : Type) where
  /-- The integer that a float is spelled as, if it is spelled without fraction and exponent. -/
  integer : F → Option ℤ
  /-- The float that is nearest to an integer, unless that is too large. -/
  nearest : ℤ → Option F
  /-- `base64.StdEncoding` -/
  EncodeToString : List UInt8 → Str
  DecodeString : Str → Option (List UInt8)

/-! ## Tag forms -/

def hasKeys {α : Type} (fields : List (Str × α)) (names : List Str) : Bool :=
  fields.length = names.length && names.all fun name => fields.any fun field => field.1 = name

def tagShape {α : Type} (fields : List (Str × α)) : Bool :=
  hasKeys fields [str "$date"] || hasKeys fields [str "$regexp", str "$flags"] ||
    hasKeys fields [str "$InfNaN"] || hasKeys fields [str "$binary"] ||
    hasKeys fields [str "$escape"] || hasKeys fields [str "$type", str "$value"]

def validRegexFlags : Str := str "gimuy"

/-- The last of equal flags stays. -/
def lastFlags : Str → Str
  | [] => []
  | flag :: flags =>
    if flag ∈ validRegexFlags ∧ flag ∉ flags then flag :: lastFlags flags else lastFlags flags

def sanitizeFlags (source : Str) : Str := lastFlags (source.take 50)

/-! ## Text -/

inductive Lexeme (F : Type) where
  | openBracket
  | closeBracket
  | openBrace
  | closeBrace
  | comma
  | colon
  | null
  | bool (b : Bool)
  | string (s : Str)
  /-- a number without fraction and exponent -/
  | integer (n : ℤ)
  /-- any other number -/
  | real (x : F)
  deriving DecidableEq

/-- With commas between them. -/
def commas {F : Type} : List (List (Lexeme F)) → List (Lexeme F)
  | [] => []
  | [x] => x
  | x :: xs => x ++ .comma :: commas xs

section
variable {F : Type} (P : Platform F) (canonical : Bool)

/-- The members of an object, each with its text. `sort.Slice` compares the bytes of the keys. -/
def writeObject (fields : List (Str × List (Lexeme F))) : List (Lexeme F) :=
  .openBrace :: commas ((if canonical then sortFields fields else fields).map fun field =>
    .string field.1 :: .colon :: field.2) ++ [.closeBrace]

def marshal (x : F) : List (Lexeme F) :=
  match P.integer x with
  | some n => [.integer n]
  | none => [.real x]

mutual

/-- The text of the children does not depend on where they come. -/
def writeValue (escaped : Bool) : Value F → List (Lexeme F)
  | .null => [.null]
  | .bool b => [.bool b]
  | .int n => [.integer n]
  | .float .nan => writeObject canonical [(str "$InfNaN", [.integer 0])]
  | .float (.inf false) => writeObject canonical [(str "$InfNaN", [.integer 1])]
  | .float (.inf true) => writeObject canonical [(str "$InfNaN", [.integer (-1)])]
  | .float (.finite x) => marshal P x
  | .string s => [.string s]
  | .array items => .openBracket :: commas (writeItems items) ++ [.closeBracket]
  | .object fields =>
    let object := writeObject canonical (writeFields fields)
    if tagShape fields && !escaped then
      .openBrace :: .string (str "$escape") :: .colon :: object ++ [.closeBrace]
    else object
  | .date n => writeObject canonical [(str "$date", [.integer n])]
  | .binary data => writeObject canonical [(str "$binary", [.string (P.EncodeToString data)])]
  | .regex source flags =>
    writeObject canonical [(str "$regexp", [.string source]), (str "$flags", [.string flags])]
  | .custom name inner =>
    writeObject canonical [(str "$type", [.string name]), (str "$value", writeValue false inner)]

def writeItems : List (Value F) → List (List (Lexeme F))
  | [] => []
  | item :: items => writeValue false item :: writeItems items

def writeFields : List (Str × Value F) → List (Str × List (Lexeme F))
  | [] => []
  | (key, value) :: fields => (key, writeValue false value) :: writeFields fields

end

def Stringify (value : Value F) : List (Lexeme F) := writeValue P canonical false value

end

/-! ## The decoder of the standard library -/

inductive Token (F : Type) where
  | openBracket
  | closeBracket
  | openBrace
  | closeBrace
  | null
  | bool (b : Bool)
  | string (s : Str)
  | integer (n : ℤ)
  | real (x : F)

inductive TokenState where
  | topValue
  | arrayStart
  | arrayValue
  | arrayComma
  | objectStart
  | objectKey
  | objectColon
  | objectValue
  | objectComma
  deriving DecidableEq

def TokenState.valueAllowed : TokenState → Bool
  | .topValue | .arrayStart | .arrayValue | .objectValue => true
  | _ => false

def TokenState.valueEnd : TokenState → TokenState
  | .arrayStart | .arrayValue => .arrayComma
  | .objectValue => .objectComma
  | state => state

structure Decoder (F : Type) where
  rest : List (Lexeme F)
  state : TokenState
  stack : List TokenState

namespace Decoder
variable {F : Type}

def value (state : TokenState) (stack : List TokenState) (rest : List (Lexeme F)) (token : Token F) :
    Except Error (Token F × Decoder F) :=
  if state.valueAllowed then .ok (token, ⟨rest, state.valueEnd, stack⟩) else .error .decoder

/-- `]` or `}`, where the state is one of `states`. -/
def close (states : List TokenState) (state : TokenState) (stack : List TokenState) (rest : List (Lexeme F))
    (token : Token F) : Except Error (Token F × Decoder F) :=
  if state ∈ states then
    match stack with
    | outer :: stack => .ok (token, ⟨rest, outer.valueEnd, stack⟩)
    | [] => .error .decoder
  else .error .decoder

/-- Commas and colons are passed over where they may stand. -/
def next (state : TokenState) (stack : List TokenState) : List (Lexeme F) → Except Error (Token F × Decoder F)
  | [] => .error .decoder
  | .openBracket :: rest =>
    if state.valueAllowed then .ok (.openBracket, ⟨rest, .arrayStart, state :: stack⟩) else .error .decoder
  | .openBrace :: rest =>
    if state.valueAllowed then .ok (.openBrace, ⟨rest, .objectStart, state :: stack⟩) else .error .decoder
  | .closeBracket :: rest => close [.arrayStart, .arrayComma] state stack rest .closeBracket
  | .closeBrace :: rest => close [.objectStart, .objectComma] state stack rest .closeBrace
  | .comma :: rest =>
    match state with
    | .arrayComma => next .arrayValue stack rest
    | .objectComma => next .objectKey stack rest
    | _ => .error .decoder
  | .colon :: rest =>
    match state with
    | .objectColon => next .objectValue stack rest
    | _ => .error .decoder
  | .string s :: rest =>
    match state with
    | .objectStart | .objectKey => .ok (.string s, ⟨rest, .objectColon, stack⟩)
    | _ => value state stack rest (.string s)
  | .null :: rest => value state stack rest .null
  | .bool b :: rest => value state stack rest (.bool b)
  | .integer n :: rest => value state stack rest (.integer n)
  | .real x :: rest => value state stack rest (.real x)

/-- `decoder.Token()` -/
def Token (d : Decoder F) : Except Error (Ejson.Token F × Decoder F) := next d.state d.stack d.rest

/-- `decoder.More()` -/
def More (d : Decoder F) : Bool :=
  match d.rest with
  | [] | .closeBracket :: _ | .closeBrace :: _ => false
  | _ => true

end Decoder

/-! ## Reading -/

section
variable {F : Type} (P : Platform F) (factories : Str → Option (Value F → Except Error (Value F)))

/-- A repeated key keeps its first position. -/
def setField (key : Str) (value : Value F) : List (Str × Value F) → List (Str × Value F)
  | [] => [(key, value)]
  | field :: fields => if field.1 = key then (key, value) :: fields else field :: setField key value fields

mutual

def readValue : ℕ → Decoder F → Except Error (Value F × Decoder F)
  | 0, _ => .error .bound
  | bound + 1, d => do
    let (token, d) ← d.Token
    match token with
    | .null => .ok (.null, d)
    | .bool b => .ok (.bool b, d)
    | .string s => .ok (.string s, d)
    | .integer n =>
      if Int64 n then .ok (.int n, d)
      else match P.nearest n with
        | some x => .ok (.float (.finite x), d)
        | none => .error (.message "invalid EJSON number")
    | .real x => .ok (.float (.finite x), d)
    | .openBracket => readItems bound [] d
    | .openBrace => readFields bound [] d
    | .closeBracket | .closeBrace => .error (.message "unsupported EJSON token")

def readItems : ℕ → List (Value F) → Decoder F → Except Error (Value F × Decoder F)
  | 0, _, _ => .error .bound
  | bound + 1, items, d =>
    if d.More then do
      let (value, d) ← readValue bound d
      readItems bound (items ++ [value]) d
    else do
      let (_, d) ← d.Token
      .ok (.array items, d)

def readFields : ℕ → List (Str × Value F) → Decoder F → Except Error (Value F × Decoder F)
  | 0, _, _ => .error .bound
  | bound + 1, fields, d =>
    if d.More then do
      let (keyToken, d) ← d.Token
      match keyToken with
      | .string key =>
        let (value, d) ← readValue bound d
        readFields bound (setField key value fields) d
      | _ => .error (.message "EJSON object key must be a string")
    else do
      let (_, d) ← d.Token
      .ok (.object fields, d)

end

def lookup (fields : List (Str × Value F)) (key : Str) : Value F :=
  match fields.find? fun field => field.1 = key with
  | some field => field.2
  | none => .null

/-- The URL-safe characters are taken for the others. -/
def replaceUrlSafe (c : Char) : Char := if c = '-' then '+' else if c = '_' then '/' else c

/-- `Number()`, as far as `$InfNaN` compares it: whether it is 0 or 1. -/
def sign : Value F → Option (Option ℤ)
  | .int n => some (some n)
  | .float (.finite x) => some (P.integer x)
  | .float _ => some none
  | _ => none

def decodeObject (fields : List (Str × Value F)) : Except Error (Value F) :=
  if !tagShape fields then .ok (.object fields)
  else if hasKeys fields [str "$date"] then
    match lookup fields (str "$date") with
    | .int millis => .ok (.date millis)
    | _ => .error (.message "$date must be integer milliseconds")
  else if hasKeys fields [str "$regexp", str "$flags"] then
    match lookup fields (str "$regexp"), lookup fields (str "$flags") with
    | .string source, .string flags => .ok (.regex source (sanitizeFlags flags))
    | _, _ => .error (.message "$regexp and $flags must be strings")
  else if hasKeys fields [str "$InfNaN"] then
    match sign P (lookup fields (str "$InfNaN")) with
    | none => .error (.message "$InfNaN must be a number")
    | some (some 0) => .ok (.float .nan)
    | some (some 1) => .ok (.float (.inf false))
    | some _ => .ok (.float (.inf true))
  else if hasKeys fields [str "$binary"] then
    match lookup fields (str "$binary") with
    | .string encoded =>
      if (utf8 encoded).length % 4 ≠ 0 then .error (.message "invalid base64 length")
      else match P.DecodeString (encoded.map replaceUrlSafe) with
        | some data => .ok (.binary data)
        | none => .error (.message "illegal base64 data")
    | _ => .error (.message "$binary must be a string")
  else if hasKeys fields [str "$type", str "$value"] then
    match lookup fields (str "$type") with
    | .string name =>
      match factories name with
      | some factory => factory (lookup fields (str "$value"))
      | none => .error (.message ("Custom EJSON type " ++ String.ofList name ++ " is not defined"))
    | _ => .error (.message "$type must be a string")
  else .ok (.object fields)

mutual

def decodeValue : Value F → Except Error (Value F)
  | .array items => do .ok (.array (← decodeItems items))
  | .object fields =>
    if hasKeys fields [str "$escape"] then
      match fields with
      | (_, .object inner) :: _ => do .ok (.object (← decodeFields inner))
      | _ => .error (.message "$escape value must be an object")
    else do decodeObject P factories (← decodeFields fields)
  | value => .ok value

def decodeItems : List (Value F) → Except Error (List (Value F))
  | [] => .ok []
  | item :: items => do
    let item ← decodeValue item
    .ok (item :: (← decodeItems items))

def decodeFields : List (Str × Value F) → Except Error (List (Str × Value F))
  | [] => .ok []
  | (key, value) :: fields => do
    let value ← decodeValue value
    .ok ((key, value) :: (← decodeFields fields))

end

def Parse (source : List (Lexeme F)) : Except Error (Value F) := do
  let (value, d) ← readValue P (source.length + 1) ⟨source, .topValue, []⟩
  match d.Token with
  | .ok _ => .error (.message "EJSON contains trailing data")
  | .error _ => if d.rest.isEmpty then decodeValue P factories value else .error .decoder

end

end TypeFerry.Go.Ejson
