import TypeFerry.Ejson.Clone
import TypeFerry.Ejson.Base64

/-! # Converters and the two directions of EJSON

The six built-in converters, `toJSONValue`, `fromJSONValue`, `stringify` and
`parse`. The source recurses through `EJSON.toJSONValue` inside the escape
converter, on values it has cloned before; here that call is the parameter
`rec`, and `toJSONValue` ties the knot with fuel, of which the depth of the
value is always enough. The adjusters work in place on a private clone in the
source; on trees that is a plain recursion. -/
namespace TypeFerry.Ejson.Convert
open TypeFerry.Lib.Numeral TypeFerry.Lib.JsonText TypeFerry.Ejson.Clone TypeFerry.Ejson.Base64

/-- The built-in converters. -/
inductive Converter where
  | date
  | regexp
  | infNaN
  | binary
  | escape
  | custom
  deriving DecidableEq

/-- In the order in which they are tried. -/
def builtinConverters : List Converter :=
  [.date, .regexp, .infNaN, .binary, .escape, .custom]

namespace Converter

/-- The keys of the shape a converter recognises. -/
def tagKeys : Converter → List Text
  | date => [js "$date"]
  | regexp => [js "$regexp", js "$flags"]
  | infNaN => [js "$InfNaN"]
  | binary => [js "$binary"]
  | escape => [js "$escape"]
  | custom => [js "$type", js "$value"]

/-- `matchJSONValue`: exactly the keys of the tag. -/
def matchJSONValue (c : Converter) : Value → Bool
  | .obj ms => c.tagKeys.all (hasOwn ms) && ms.length == c.tagKeys.length
  | _ => false

/-- `matchObject`. No value of this model has the methods of a custom type. -/
def matchObject : Converter → Value → Bool
  | date, .date _ => true
  | regexp, .regexp _ => true
  | infNaN, v => v.isInfOrNaN
  | binary, .binary _ => true
  | escape, .obj ms => (ms.length == 1 || ms.length == 2) &&
      builtinConverters.any fun c => c.matchJSONValue (.obj ms)
  | _, _ => false

end Converter

/-- `value.getTime()`. -/
def getTime : Option Int → Number
  | some t => .finite (ofInt t)
  | none => .nan

/-! ## To JSON -/

/-- `converter.toJSONValue(value)`; `rec` is `EJSON.toJSONValue`. -/
def Converter.toJSONValue (rec : Value → Value) : Converter → Value → Value
  | date, .date t => .obj [(js "$date", .num (getTime t))]
  | regexp, .regexp r => .obj [(js "$regexp", .str r.source), (js "$flags", .str r.flags)]
  | infNaN, .num .nan => .obj [(js "$InfNaN", .num (.finite (ofInt 0)))]
  | infNaN, .num (.infinity neg) =>
    .obj [(js "$InfNaN", .num (.finite (ofInt (if neg then -1 else 1))))]
  | binary, .binary bytes => .obj [(js "$binary", .str (encodeBase64 bytes))]
  | escape, .obj ms =>
    .obj [(js "$escape", .obj (ms.foldl (fun ret m => assign m.1 (rec m.2) ret) []))]
  | _, v => v

/-- The JSON form of a value that some converter matches. -/
def toJSONValueHelper (rec : Value → Value) (item : Value) : Option Value :=
  (builtinConverters.find? (·.matchObject item)).map fun c => c.toJSONValue rec item

/-- Atoms that the adjuster passes over: all but `undefined` and the non-finite
numbers. -/
def isPlainAtom (v : Value) : Bool := !v.isObject && !v.isUndefined && !v.isInfOrNaN

mutual

def adjustTypesToJSONValue (rec : Value → Value) : Value → Value
  | .null => .null
  | .arr xs => (toJSONValueHelper rec (.arr xs)).getD (.arr (adjustElemsTo rec xs))
  | .obj ms => (toJSONValueHelper rec (.obj ms)).getD (.obj (adjustMembersTo rec ms))
  | v => (toJSONValueHelper rec v).getD v

/-- The elements of an array, adjusted in place. -/
def adjustElemsTo (rec : Value → Value) : List Value → List Value
  | [] => []
  | x :: xs =>
    (if isPlainAtom x then x
      else (toJSONValueHelper rec x).getD (adjustTypesToJSONValue rec x)) :: adjustElemsTo rec xs

/-- The members of an object, adjusted in place. -/
def adjustMembersTo (rec : Value → Value) : List (Text × Value) → List (Text × Value)
  | [] => []
  | (k, x) :: ms =>
    (k, if isPlainAtom x then x
      else (toJSONValueHelper rec x).getD (adjustTypesToJSONValue rec x)) :: adjustMembersTo rec ms

end

/-- What `adjustTypesToJSONValue(value)` makes of the value itself: what a converter
returns for it is not used. -/
def adjustedTo (rec : Value → Value) (value : Value) : Value :=
  match toJSONValueHelper rec value with
  | some _ => value
  | none => adjustTypesToJSONValue rec value

/-- `EJSON.toJSONValue` with fuel for the calls of the escape converter. -/
def toJSONValueFuel (rt : Runtime) : Nat → Value → Value
  | 0, item => item
  | n + 1, item => match toJSONValueHelper (toJSONValueFuel rt n) item with
    | some changed => changed
    | none => if item.isObject then adjustedTo (toJSONValueFuel rt n) (clone rt item) else item

mutual

/-- The nesting of a value. -/
def depth : Value → Nat
  | .arr xs => 1 + depthElems xs
  | .obj ms => 1 + depthMembers ms
  | _ => 0

def depthElems : List Value → Nat
  | [] => 0
  | x :: xs => max (depth x) (depthElems xs)

def depthMembers : List (Text × Value) → Nat
  | [] => 0
  | (_, v) :: ms => max (depth v) (depthMembers ms)

end

/-- `EJSON.toJSONValue`. -/
def toJSONValue (rt : Runtime) (item : Value) : Value := toJSONValueFuel rt (depth item + 1) item

/-! ## From JSON -/

/-- `requireString`. -/
def requireString : Option Value → Except Text Text
  | some (.str s) => .ok s
  | _ => .error (js "Invalid EJSON string value")

/-- `requireRecord` and the own entries of the record. -/
def requireEntries : Option Value → Except Text (List (Text × Value))
  | some (.obj ms) => .ok ms
  | some (.arr xs) => .ok (xs.zipIdx.map fun p => (indexText p.2, p.1))
  | some (.binary bytes) => .ok (bytes.zipIdx.map fun p =>
      (indexText p.2, .num (.finite (ofInt p.1.toNat))))
  | some (.date _) | some (.regexp _) => .ok []
  | _ => .error (js "Invalid EJSON converter input")

/-- `new Date(n)`: `TimeClip`. -/
def timeClip : Number → Option Int
  | .finite d =>
    let small := if 0 ≤ d.exp then d.sig * 10 ^ d.exp.toNat ≤ 8640000000000000
      else d.sig ≤ 8640000000000000 * 10 ^ (-d.exp).toNat
    if small then some (if d.neg then -(truncNat d : Int) else truncNat d) else none
  | _ => none

/-- `n / 0`. -/
def divZero : Number → Number
  | .finite d => if d.sig = 0 then .nan else .infinity d.neg
  | n => n

/-- `.replace(/(.)(?=.*\1)/g, '')`: only the last occurrence of a flag stays. -/
def keepLast : Text → Text
  | [] => []
  | u :: s => if u ∈ s then keepLast s else u :: keepLast s

/-- The flags a regular expression is rebuilt with. -/
def sanitizeFlags (flags : Text) : Text :=
  keepLast ((flags.take 50).filter (· ∈ js "gimuy"))

/-- `result[key] = EJSON.fromJSONValue(escaped[key])` for every key. -/
def unescapeEntries (rec : Value → Except Text Value) :
    List (Text × Value) → List (Text × Value) → Except Text (List (Text × Value))
  | ret, [] => .ok ret
  | ret, (k, v) :: ms => do
    let v' ← rec v
    unescapeEntries rec (assign k v' ret) ms

/-- `converter.fromJSONValue(value)`; `rec` is `EJSON.fromJSONValue`. -/
def Converter.fromJSONValue (rt : Runtime) (rec : Value → Except Text Value) (c : Converter)
    (ms : List (Text × Value)) : Except Text Value :=
  match c with
  | date => .ok (.date (timeClip (number rt ((getOwn (js "$date") ms).getD .undefined))))
  | regexp => do
    let pattern ← requireString (getOwn (js "$regexp") ms)
    let flags ← requireString (getOwn (js "$flags") ms)
    match rt.newRegExp pattern (sanitizeFlags flags) with
    | some r => .ok (.regexp r)
    | none => .error (js "Invalid regular expression")
  | infNaN => .ok (.num (divZero (number rt ((getOwn (js "$InfNaN") ms).getD .undefined))))
  | binary => do
    let text ← requireString (getOwn (js "$binary") ms)
    let bytes ← decodeBase64 text
    .ok (.binary bytes)
  | escape => do
    let escaped ← requireEntries (getOwn (js "$escape") ms)
    let result ← unescapeEntries rec [] escaped
    .ok (.obj result)
  | custom => do
    let typeName ← requireString (getOwn (js "$type") ms)
    match rt.customTypes typeName with
    | some factory => factory ((getOwn (js "$value") ms).getD .undefined)
    | none => .error (js "Custom EJSON type " ++ typeName ++ js " is not defined")

/-- At most two keys, all of which start with `$`. -/
def tagLike (ms : List (Text × Value)) : Bool :=
  ms.length ≤ 2 && ms.all fun m => m.1.head? == some 36

/-- The value a converter makes of a tagged object; nothing for a value that
`fromJSONValueHelper` returns as it is. -/
def fromJSONValueHelper (rt : Runtime) (rec : Value → Except Text Value) (value : Value) :
    Option (Except Text Value) :=
  match value with
  | .obj ms =>
    if tagLike ms then
      (builtinConverters.find? (·.matchJSONValue value)).map fun c => c.fromJSONValue rt rec ms
    else none
  | _ => none

mutual

def adjustTypesFromJSONValue (rt : Runtime) (rec : Value → Except Text Value) :
    Value → Except Text Value
  | .arr xs => match fromJSONValueHelper rt rec (.arr xs) with
    | some r => r
    | none => do .ok (.arr (← adjustElemsFrom rt rec xs))
  | .obj ms => match fromJSONValueHelper rt rec (.obj ms) with
    | some r => r
    | none => do .ok (.obj (← adjustMembersFrom rt rec ms))
  | v => .ok v

def adjustElemsFrom (rt : Runtime) (rec : Value → Except Text Value) :
    List Value → Except Text (List Value)
  | [] => .ok []
  | x :: xs => do
    let x' ← (fromJSONValueHelper rt rec x).getD (adjustTypesFromJSONValue rt rec x)
    let xs' ← adjustElemsFrom rt rec xs
    .ok (x' :: xs')

def adjustMembersFrom (rt : Runtime) (rec : Value → Except Text Value) :
    List (Text × Value) → Except Text (List (Text × Value))
  | [] => .ok []
  | (k, x) :: ms => do
    let x' ← (fromJSONValueHelper rt rec x).getD (adjustTypesFromJSONValue rt rec x)
    let ms' ← adjustMembersFrom rt rec ms
    .ok ((k, x') :: ms')

end

/-- What `adjustTypesFromJSONValue(value)` makes of the value itself: a converter may
throw, but what it returns for the value is not used. -/
def adjustedFrom (rt : Runtime) (rec : Value → Except Text Value) (value : Value) :
    Except Text Value :=
  match fromJSONValueHelper rt rec value with
  | some r => r.map fun _ => value
  | none => adjustTypesFromJSONValue rt rec value

/-- `EJSON.fromJSONValue` with fuel for the calls of the escape converter. -/
def fromJSONValueFuel (rt : Runtime) : Nat → Value → Except Text Value
  | 0, item => .ok item
  | n + 1, item => match fromJSONValueHelper rt (fromJSONValueFuel rt n) item with
    | some r => r
    | none =>
      if item.isObject then adjustedFrom rt (fromJSONValueFuel rt n) (clone rt item) else .ok item

/-- `EJSON.fromJSONValue`. -/
def fromJSONValue (rt : Runtime) (item : Value) : Except Text Value :=
  fromJSONValueFuel rt (depth item + 1) item

/-! ## Text -/

mutual

/-- A JSON value as a JavaScript value. -/
def ofJson : Json → Value
  | .null => .null
  | .bool b => .bool b
  | .num d => .num (.finite d)
  | .str s => .str s
  | .arr xs => .arr (ofJsonElems xs)
  | .obj ms => .obj (ofJsonMembers ms)

def ofJsonElems : List Json → List Value
  | [] => []
  | x :: xs => ofJson x :: ofJsonElems xs

def ofJsonMembers : List (Text × Json) → List (Text × Value)
  | [] => []
  | (k, v) :: ms => (k, ofJson v) :: ofJsonMembers ms

end

mutual

/-- A JavaScript value as plain JSON, if it is. -/
def toJson? : Value → Option Json
  | .null => some .null
  | .bool b => some (.bool b)
  | .num (.finite d) => some (.num d)
  | .str s => some (.str s)
  | .arr xs => (toJsonElems? xs).map .arr
  | .obj ms => (toJsonMembers? ms).map .obj
  | _ => none

def toJsonElems? : List Value → Option (List Json)
  | [] => some []
  | x :: xs => do
    let x' ← toJson? x
    let xs' ← toJsonElems? xs
    some (x' :: xs')

def toJsonMembers? : List (Text × Value) → Option (List (Text × Json))
  | [] => some []
  | (k, v) :: ms => do
    let v' ← toJson? v
    let ms' ← toJsonMembers? ms
    some ((k, v') :: ms')

end

/-- `EJSON.stringify(item)` without options, where its JSON value is plain. -/
def ejsonStringify (rt : Runtime) (item : Value) : Option Text :=
  (toJson? (toJSONValue rt item)).map stringify

/-- `EJSON.parse`. -/
def ejsonParse (rt : Runtime) (text : Text) : Except Text Value :=
  match parse text with
  | some j => fromJSONValue rt (ofJson j)
  | none => .error (js "Unexpected token in JSON")

end TypeFerry.Ejson.Convert
