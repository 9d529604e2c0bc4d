import TypeFerry.Rust.Base64

/-! # EJSON of the Rust port

`to_json_value` and `from_json_value`, between `EjsonValue` and the values of `serde_json`. A
result `none` is a panic. -/
namespace TypeFerry.Rust.Ejson
open TypeFerry.Lib.Unicode TypeFerry.Rust.Base64

/-- `f64`; `F` are the finite ones. -/
inductive Float (F : Type) where
  | finite (x : F)
  | nan
  | inf (negative : Bool)
  deriving DecidableEq

/-- `serde_json::Number` -/
inductive Number (F : Type) where
  | int (n : ℤ)
  | float (x : F)
  deriving DecidableEq

/-- `serde_json::Value`; members keep their order. -/
inductive Json (F : Type) where
  | null
  | bool (b : Bool)
  | number (n : Number F)
  | string (s : Str)
  | array (items : List (Json F))
  | object (fields : List (Str × Json F))

inductive InfNaNSign where
  | NaN
  | PositiveInfinity
  | NegativeInfinity
  deriving DecidableEq

inductive EjsonValue (F : Type) where
  | null
  | bool (b : Bool)
  | int (n : ℤ)
  | float (x : Float F)
  | string (s : Str)
  | array (items : List (EjsonValue F))
  | object (fields : List (Str × EjsonValue F))
  /-- a `DateTime<Utc>`, by its nanoseconds -/
  | date (nanoseconds : ℤ)
  | binary (bytes : List UInt8)
  | regex (source flags : Str)
  | infNaN (sign : InfNaNSign)
  | custom (name : Str) (value : EjsonValue F)

def Int64 (n : ℤ) : Prop := -2 ^ 63 ≤ n ∧ n < 2 ^ 63

instance (n : ℤ) : Decidable (Int64 n) := inferInstanceAs (Decidable (-2 ^ 63 ≤ n ∧ n < 2 ^ 63))

structure Platform (F : Type) where
  /-- The integer that a float is, if its fraction is zero. -/
  integer : F → Option ℤ
  /-- The float that is nearest to an integer. -/
  nearest : ℤ → F
  /-- The milliseconds for which `chrono` has a `DateTime<Utc>`. -/
  inRange : ℤ → Bool

section
variable {F : Type} (P : Platform F)

/-! ## Writing -/

/-- `looks_like_tag_form` -/
def looksLikeTagForm {α : Type} : List (Str × α) → Bool
  | [field] => field.1 ∈ [str "$date", str "$InfNaN", str "$binary", str "$escape"]
  | [field, field'] =>
    let keys := [field.1, field'.1]
    str "$regexp" ∈ keys && str "$flags" ∈ keys || str "$type" ∈ keys && str "$value" ∈ keys
  | _ => false

/-- `dt.timestamp_millis()` -/
def timestampMillis (nanoseconds : ℤ) : ℤ := nanoseconds / 1000000

def InfNaNSign.toInt : InfNaNSign → ℤ
  | .NaN => 0
  | .PositiveInfinity => 1
  | .NegativeInfinity => -1

mutual

def toJsonValue : EjsonValue F → Json F
  | .null => .null
  | .bool b => .bool b
  | .int n => .number (.int n)
  | .float (.finite x) => .number (.float x)
  | .float _ => .null
  | .string s => .string s
  | .array items => .array (toJsonItems items)
  | .object fields =>
    if looksLikeTagForm fields then .object [(str "$escape", .object (toJsonFields fields))]
    else .object (toJsonFields fields)
  | .date nanoseconds => .object [(str "$date", .number (.int (timestampMillis nanoseconds)))]
  | .binary bytes => .object [(str "$binary", .string (encode bytes))]
  | .regex source flags => .object [(str "$regexp", .string source), (str "$flags", .string flags)]
  | .infNaN sign => .object [(str "$InfNaN", .number (.int sign.toInt))]
  | .custom name value => .object [(str "$type", .string name), (str "$value", toJsonValue value)]

def toJsonItems : List (EjsonValue F) → List (Json F)
  | [] => []
  | item :: items => toJsonValue item :: toJsonItems items

def toJsonFields : List (Str × EjsonValue F) → List (Str × Json F)
  | [] => []
  | (key, value) :: fields => (key, toJsonValue value) :: toJsonFields fields

end

/-! ## Reading -/

def VALID_FLAGS : Str := ['g', 'i', 'm', 'u', 'y']

/-- The first of equal flags stays. -/
def firstFlags (seen : Str) : Str → Str
  | [] => []
  | flag :: flags =>
    if flag ∈ VALID_FLAGS ∧ flag ∉ seen then flag :: firstFlags (flag :: seen) flags else firstFlags seen flags

def sanitizeFlags (raw : Str) : Str := firstFlags [] (raw.take 50)

/-- `EjsonValue::from_f64` -/
def fromF64 : Float F → EjsonValue F
  | .nan => .infNaN .NaN
  | .inf false => .infNaN .PositiveInfinity
  | .inf true => .infNaN .NegativeInfinity
  | .finite x =>
    match P.integer x with
    | some n =>
      -- `i64::MAX as f64` is 2^63, and `value as i64` saturates.
      if -2 ^ 63 ≤ n ∧ n ≤ 2 ^ 63 then .int (min n (2 ^ 63 - 1)) else .float (.finite x)
    | none => .float (.finite x)

def Number.asI64 : Number F → Option ℤ
  | .int n => if Int64 n then some n else none
  | .float _ => none

def Number.asF64 : Number F → F
  | .int n => P.nearest n
  | .float x => x

def Json.asI64 : Json F → Option ℤ
  | .number n => n.asI64
  | _ => none

def Json.asStr : Json F → Option Str
  | .string s => some s
  | _ => none

def Json.asObject : Json F → Option (List (Str × Json F))
  | .object fields => some fields
  | _ => none

def fromNumber (n : Number F) : EjsonValue F :=
  match n.asI64 with
  | some i => .int i
  | none => fromF64 P (.finite (n.asF64 P))

/-- `map.get(key)` -/
def Map.get (fields : List (Str × Json F)) (key : Str) : Option (Json F) :=
  (fields.find? fun field => field.1 = key).map Prod.snd

/-- `Utc.timestamp_millis_opt(ms).unwrap()` -/
def unwrapMillis (milliseconds : ℤ) : Option ℤ :=
  if P.inRange milliseconds then some (milliseconds * 1000000) else none

/-- The tag that an object is, if it is one. `escaped` are the members of `$escape` and `value` is
the member `$value`, read. -/
def decodeTag (fields : List (Str × Json F)) (escaped value : Option (EjsonValue F)) :
    Option (Option (EjsonValue F)) :=
  match (Map.get fields (str "$date")).bind Json.asI64, fields.length with
  | some milliseconds, 1 => (unwrapMillis P milliseconds).map fun nanoseconds => some (.date nanoseconds)
  | _, _ =>
    match fields.length, (Map.get fields (str "$regexp")).bind Json.asStr,
      (Map.get fields (str "$flags")).bind Json.asStr with
    | 2, some source, some flags => some (some (.regex source (sanitizeFlags flags)))
    | _, _, _ =>
      match (Map.get fields (str "$InfNaN")).bind Json.asI64, fields.length with
      | some sign, 1 => some (some (.infNaN (if sign = 0 then .NaN else if sign = 1 then .PositiveInfinity
          else .NegativeInfinity)))
      | _, _ =>
        match (Map.get fields (str "$binary")).bind Json.asStr, fields.length with
        | some b64, 1 =>
          match decode b64 with
          | .ok bytes => some (some (.binary bytes))
          | .error (.error _) => some none
          | .error .panic => none
        | _, _ =>
          match (Map.get fields (str "$escape")).bind Json.asObject, fields.length with
          | some _, 1 => escaped.map some
          | _, _ =>
            match fields.length, (Map.get fields (str "$type")).bind Json.asStr, Map.get fields (str "$value") with
            | 2, some name, some _ => value.map fun value => some (.custom name value)
            | _, _, _ => some none

/-- `map.len() <= 2 && map.keys().all(|k| k.starts_with('$'))` -/
def dollarKeys (fields : List (Str × Json F)) : Bool :=
  fields.length ≤ 2 && fields.all fun field => field.1.head? = some '$'

mutual

def fromJsonValue : Json F → Option (EjsonValue F)
  | .null => some .null
  | .bool b => some (.bool b)
  | .number n => some (fromNumber P n)
  | .string s => some (.string s)
  | .array items => (fromJsonItems items).map .array
  | .object fields =>
    -- `decode_object`
    let tag := if dollarKeys fields then
        decodeTag P fields (fromEscaped fields) (fromMember (str "$value") fields)
      else some none
    match tag with
    | none => none
    | some (some decoded) => some decoded
    | some none => (fromJsonFields fields).map .object

def fromJsonItems : List (Json F) → Option (List (EjsonValue F))
  | [] => some []
  | item :: items => do
    let item ← fromJsonValue item
    some (item :: (← fromJsonItems items))

def fromJsonFields : List (Str × Json F) → Option (List (Str × EjsonValue F))
  | [] => some []
  | (key, value) :: fields => do
    let value ← fromJsonValue value
    some ((key, value) :: (← fromJsonFields fields))

/-- The only member is an object, whose members are read. -/
def fromEscaped : List (Str × Json F) → Option (EjsonValue F)
  | (_, .object inner) :: _ => (fromJsonFields inner).map .object
  | _ => none

def fromMember (key : Str) : List (Str × Json F) → Option (EjsonValue F)
  | [] => none
  | field :: fields => if field.1 = key then fromJsonValue field.2 else fromMember key fields

end

end

end TypeFerry.Rust.Ejson
