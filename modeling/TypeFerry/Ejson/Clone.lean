import TypeFerry.Lib.JsonText

/-! # The values EJSON handles

A `Value` is a JavaScript value without functions and without shared objects:
a tree. Objects keep their own properties in order. `clone` is the deep copy of
`clone.ts` on such trees, heuristics for foreign objects included; its guard
against shared references never fires on a tree. -/
namespace TypeFerry.Ejson.Clone
open TypeFerry.Lib.Numeral TypeFerry.Lib.JsonText

/-- A JavaScript number. -/
inductive Number where
  | finite (d : Decimal)
  | nan
  | infinity (neg : Bool)
  deriving DecidableEq

/-- A regular expression is known by its `source` and `flags`. -/
structure RegExp where
  source : Text
  flags : Text
  deriving DecidableEq

inductive Value where
  | undefined
  | null
  | bool (b : Bool)
  | num (n : Number)
  | str (s : Text)
  /-- A `Date` with its time value; an invalid date has none. -/
  | date (time : Option Int)
  | regexp (r : RegExp)
  | binary (bytes : List UInt8)
  | arr (xs : List Value)
  | obj (ms : List (Text × Value))

/-- What the code takes from the language and from its registry of custom
types, beyond what this model computes itself. -/
structure Runtime where
  /-- `Number(v)` for a value that is not a number. -/
  toNumber : Value → Number
  /-- `new RegExp(pattern, flags)`; nothing where it throws a `SyntaxError`. -/
  newRegExp : Text → Text → Option RegExp
  /-- The factories registered with `EJSON.addType`. -/
  customTypes : Text → Option (Value → Except Text Value)

namespace Value

/-- `typeof value === 'object'`. -/
def isObject : Value → Bool
  | undefined | bool _ | num _ | str _ => false
  | _ => true

def isObjectAndNotNull : Value → Bool
  | null => false
  | v => v.isObject

def isUndefined : Value → Bool
  | undefined => true
  | _ => false

def isInfOrNaN : Value → Bool
  | num .nan | num (.infinity _) => true
  | _ => false

end Value

/-- The own property `k`. -/
def getOwn (k : Text) (ms : List (Text × Value)) : Option Value := ms.lookup k

/-- `hasOwn`. -/
def hasOwn (ms : List (Text × Value)) (k : Text) : Bool := (getOwn k ms).isSome

/-- `target[key] = value`. Assigning to `__proto__` runs a setter and makes no
own property. -/
def assign (k : Text) (v : Value) (ms : List (Text × Value)) : List (Text × Value) :=
  if k = js "__proto__" then ms else setMember k v ms

/-- `Number(v)`. -/
def number (rt : Runtime) : Value → Number
  | .num n => n
  | v => rt.toNumber v

/-! ## Lengths and indices -/

/-- The text of an array index. -/
def indexText (n : Nat) : Text := (digitsOf n).map unit

/-- A decimal rounded towards zero, without its sign. -/
def truncNat (d : Decimal) : Nat :=
  if 0 ≤ d.exp then d.sig * 10 ^ d.exp.toNat else d.sig / 10 ^ (-d.exp).toNat

/-- `ToLength`. -/
def toLength : Number → Nat
  | .finite d => if d.neg then 0 else min (truncNat d) (2 ^ 53 - 1)
  | .nan | .infinity true => 0
  | .infinity false => 2 ^ 53 - 1

/-- The `length` of a plain object read as an array-like one. -/
def arrayLength (rt : Runtime) (ms : List (Text × Value)) : Nat :=
  toLength (number rt ((getOwn (js "length") ms).getD .undefined))

/-- `Array.from({ length, ...ms })`. -/
def arrayFrom (length : Nat) (ms : List (Text × Value)) : List Value :=
  (List.range length).map fun i => (getOwn (indexText i) ms).getD .undefined

/-! ## `clone` -/

/-- `val._bsontype === 'ObjectId' && isFunction(val.toString)`: the inherited
`toString` is a function, an own one is data. -/
def isObjectIdLike (ms : List (Text × Value)) : Bool :=
  (match getOwn (js "_bsontype") ms with
    | some (.str s) => s == js "ObjectId"
    | _ => false) && !hasOwn ms (js "toString")

/-- `val.constructor?.name === 'model'`. -/
def isModelLike (ms : List (Text × Value)) : Bool :=
  match getOwn (js "constructor") ms with
  | some (.obj cs) => match getOwn (js "name") cs with
    | some (.str s) => s == js "model"
    | _ => false
  | _ => false

/-- A hydrated document: it is cloned through its `_doc`. -/
def isHydrated (ms : List (Text × Value)) : Bool :=
  (isModelLike ms || ((getOwn (js "$__") ms).getD .undefined).isObjectAndNotNull) &&
    ((getOwn (js "_doc") ms).getD .undefined).isObjectAndNotNull

/-- `hasOwn(value, 'callee')`. -/
def isArguments (ms : List (Text × Value)) : Bool := hasOwn ms (js "callee")

def dropUndefined (vs : List Value) : List Value := vs.filter fun v => !v.isUndefined

mutual

/-- `EJSON.clone`. Every branch that asks for a method (`clone`, `toJSONValue`,
`typeName`) fails on data. -/
def clone (rt : Runtime) : Value → Value
  | .arr xs => .arr (dropUndefined (cloneElems rt xs))
  | .obj ms =>
    if isObjectIdLike ms then .str (js "[object Object]")
    else if isHydrated ms then cloneMember rt (js "_doc") ms
    else if isArguments ms then
      .arr (dropUndefined (arrayFrom (arrayLength rt ms) (cloneMembers rt ms)))
    else .obj ((cloneMembers rt ms).foldl (fun ret m => assign m.1 m.2 ret) [])
  | v => v

def cloneElems (rt : Runtime) : List Value → List Value
  | [] => []
  | x :: xs => clone rt x :: cloneElems rt xs

def cloneMembers (rt : Runtime) : List (Text × Value) → List (Text × Value)
  | [] => []
  | (k, v) :: ms => (k, clone rt v) :: cloneMembers rt ms

/-- The clone of the member `k`. -/
def cloneMember (rt : Runtime) (k : Text) : List (Text × Value) → Value
  | [] => .undefined
  | (k', v) :: ms => if k' = k then clone rt v else cloneMember rt k ms

end

end TypeFerry.Ejson.Clone
