import Mathlib.Data.Rat.Defs
import Mathlib.Algebra.Order.Ring.Rat
import TypeFerry.Ejson.Canonical

/-! # The values of the local store

`value-semantics.ts` and `path.ts`: the copy, the equality and the order of
document values, the branches that a dotted path has in a document, and reading
and writing one property. Documents are the trees of EJSON, without functions;
what an object inherits from its prototype is not part of them, and an array has
its elements and its length only: no holes, and no properties beside them. The
calls that keep to such trees are those of `Plain`. -/
namespace TypeFerry.Minimongo.Values
open TypeFerry.Lib.Numeral TypeFerry.Lib.JsonText TypeFerry.Ejson.Clone
open TypeFerry.Ejson.Equals TypeFerry.Ejson.Canonical

/-- What the store takes from the language beyond what this model computes itself:
arithmetic on doubles, distances and regular expressions. -/
structure Platform where
  add : Number → Number → Number
  mul : Number → Number → Number
  rem : Number → Number → Number
  /-- `Math.hypot` of the differences -/
  distance : Number × Number → Number × Number → Number
  geoJsonDistance : Number × Number → Number × Number → Number
  /-- `regex.test(value)` from the start of the text -/
  test : RegExp → Text → Bool
  /-- `new RegExp(source, flags)`; nothing where it throws -/
  newRegExp : Text → Text → Option RegExp
  /-- Whether a RegExp that a selector holds is frozen, as those of fetched documents are -/
  frozen : RegExp → Bool
  /-- `String(value)` of a value that is no string -/
  string : Value → Text
  /-- `Number(value)` of a value that is no number -/
  toNumber : Value → Number

/-- From a sequence of two computations that returned, both returned. -/
theorem bind_eq_ok {α β : Type} {x : Except Text α} {f : α → Except Text β} {b : β}
    (h : x >>= f = .ok b) : ∃ a, x = .ok a ∧ f a = .ok b := by
  cases x with
  | error e => cases h
  | ok a => exact ⟨a, rfl, h⟩

/-! ## Numbers -/

/-- The number that a decimal stands for. -/
def toRat (d : Decimal) : ℚ := (if d.neg then -1 else 1) * d.sig * (10 : ℚ) ^ d.exp

/-- `m < n`. -/
def numLt : Number → Number → Bool
  | .finite d, .finite e => toRat d < toRat e
  | .infinity true, .finite _ | .infinity true, .infinity false | .finite _, .infinity false => true
  | _, _ => false

/-- `m <= n`. -/
def numLe (m n : Number) : Bool := numLt m n || (numEquals m n && m != .nan)

/-- The integer that a number is, if it is one. -/
def toInt? : Number → Option Int
  | .finite d =>
    if 0 ≤ d.exp then some ((if d.neg then -1 else 1) * (d.sig * 10 ^ d.exp.toNat)) else none
  | _ => none

/-- `ToIntegerOrInfinity`, with an infinity as a bound that no list reaches. -/
def toInteger (bound : Nat) : Number → Int
  | .finite d => if d.neg then -(truncNat d : Int) else truncNat d
  | .nan => 0
  | .infinity neg => if neg then -(bound : Int) else bound

/-- The platform on integers: exact there, and on lengths that are integers. -/
def Platform.integral : Platform where
  add m n := lift (· + ·) m n
  mul m n := lift (· * ·) m n
  rem m n := lift Int.tmod m n
  distance s t := hypot s t
  geoJsonDistance s t := hypot s t
  test r s := decide (r.source <:+: s)
  newRegExp source flags := some ⟨source, flags⟩
  frozen _ := false
  string _ := []
  toNumber _ := .nan
where
  lift (f : Int → Int → Int) (m n : Number) : Number := match toInt? m, toInt? n with
    | some a, some b => .finite (ofInt (f a b))
    | _, _ => .nan
  hypot (s t : Number × Number) : Number :=
    match toInt? s.1, toInt? s.2, toInt? t.1, toInt? t.2 with
    | some a, some b, some c, some d =>
      .finite (ofInt (Nat.sqrt (((a - c) ^ 2 + (b - d) ^ 2).toNat)))
    | _, _, _, _ => .nan

/-! ## Texts -/

def startsWith (t s : Text) : Bool := t.isPrefixOf s

/-- `path.split('.')`. -/
def splitPath (path : Text) : List Text := path.splitOn 46

/-- `/^[0-9]+$/.test(value)`. -/
def isNumericKey (value : Text) : Bool := !value.isEmpty && value.all fun u => (digit? u).isSome

/-- `Number(key)` of a numeric key. -/
def keyIndex (key : Text) : Nat := natOf (readDigits key).1

/-- `left < right` on strings. -/
def textLt (s t : Text) : Bool := textLe s t && s != t

/-- `regex.toString()`. -/
def regexpText (r : RegExp) : Text := js "/" ++ r.source ++ js "/" ++ r.flags

/-! ## Kinds of values -/

/-- `isPlainObject`. -/
def isPlainObject : Value → Bool
  | .obj _ => true
  | _ => false

/-- `Array.isArray`. -/
def isArray : Value → Bool
  | .arr _ => true
  | _ => false

/-- A value that a condition takes for false. -/
def isFalsy : Value → Bool
  | .undefined | .null | .bool false | .num .nan => true
  | .num (.finite d) => d.sig == 0
  | .str s => s.isEmpty
  | _ => false

/-- `isOperatorObject`; keys of both kinds throw. -/
def isOperatorObject : Value → Except Text Bool
  | .obj ms =>
    let isOperator := ms.map fun m => startsWith (js "$") m.1 || m.1 == js "diff"
    match isOperator with
    | [] => .ok false
    | b :: bs => if bs.all (· == b) then .ok b else .error (js "Inconsistent operator")
  | _ => .ok false

/-! ## Copies -/

mutual

def cloneValue : Value → Value
  | .arr xs => .arr (cloneValues xs)
  | .obj ms => .obj ((cloneEntries ms).foldl (fun ret m => assign m.1 m.2 ret) [])
  | v => v

def cloneValues : List Value → List Value
  | [] => []
  | x :: xs => cloneValue x :: cloneValues xs

def cloneEntries : List (Text × Value) → List (Text × Value)
  | [] => []
  | (k, v) :: ms => (k, cloneValue v) :: cloneEntries ms

end

/-! ## Equality -/

mutual

/-- `equalValues(left, right, keyOrderSensitive)`. -/
def equalValues (keyOrderSensitive : Bool) : Value → Value → Bool
  | .undefined, .undefined => true
  | .null, .null => true
  | .bool a, .bool b => a == b
  | .num a, .num b => numEquals a b
  | .str a, .str b => a == b
  | .date a, .date b => areDatesEqual a b
  | .binary a, .binary b => a == b
  | .regexp a, .regexp b => decide (a = b)
  | .arr xs, .arr ys => equalElems keyOrderSensitive xs ys
  | .obj ms, .obj ns => ms.length == ns.length &&
      (!keyOrderSensitive || ms.map Prod.fst == ns.map Prod.fst) && equalEntries keyOrderSensitive ms ns
  | _, _ => false

def equalElems (keyOrderSensitive : Bool) : List Value → List Value → Bool
  | [], [] => true
  | x :: xs, y :: ys => equalValues keyOrderSensitive x y && equalElems keyOrderSensitive xs ys
  | _, _ => false

/-- Every entry of the first list has an equal one under its key in the second. -/
def equalEntries (keyOrderSensitive : Bool) : List (Text × Value) → List (Text × Value) → Bool
  | [], _ => true
  | (k, x) :: ms, ns => (match getOwn k ns with
      | some y => equalValues keyOrderSensitive x y
      | none => false) && equalEntries keyOrderSensitive ms ns

end

/-! ## Order -/

/-- `TYPE_ORDER.get(valueType(value))`. -/
def typeOrder : Value → Int
  | .undefined => -1
  | .null => 0
  | .num _ => 1
  | .str _ => 2
  | .obj _ => 3
  | .arr _ => 4
  | .binary _ => 5
  | .bool _ => 7
  | .date _ => 8
  | .regexp _ => 9

/-- `-1` below, `1` elsewhere. -/
def signOf (below : Bool) : Int := if below then -1 else 1

def compareBytes : List UInt8 → List UInt8 → Int
  | a :: as, b :: bs => if a = b then compareBytes as bs else signOf (a < b)
  | as, bs => signOf (as.length < bs.length)

mutual

/-- `compareValues(left, right)`, without a collator. -/
def compareValues : Value → Value → Int
  | .num a, .num b => if numEquals a b then 0 else signOf (numLt a b)
  | .str a, .str b => if a = b then 0 else signOf (textLt a b)
  | .bool a, .bool b => if a = b then 0 else signOf (!a)
  | .date a, .date b => if areDatesEqual a b then 0 else match a, b with
    | some s, some t => signOf (s < t)
    | _, _ => 1
  | .regexp a, .regexp b => if a = b then 0 else signOf (textLt (regexpText a) (regexpText b))
  | .binary a, .binary b => if a = b then 0 else compareBytes a b
  | .arr xs, .arr ys => if equalElems true xs ys then 0 else compareElems xs ys
  | .obj ms, .obj ns => if equalValues true (.obj ms) (.obj ns) then 0 else compareEntries ms ns
  | a, b => if typeOrder a = typeOrder b then 0 else signOf (typeOrder a < typeOrder b)

def compareElems : List Value → List Value → Int
  | x :: xs, y :: ys => if compareValues x y ≠ 0 then compareValues x y else compareElems xs ys
  | xs, ys => signOf (xs.length < ys.length)

def compareEntries : List (Text × Value) → List (Text × Value) → Int
  | (k, x) :: ms, (k', y) :: ns =>
    if k ≠ k' then signOf (textLt k k')
    else if compareValues x y ≠ 0 then compareValues x y else compareEntries ms ns
  | ms, ns => signOf (ms.length < ns.length)

end

/-! ## One property -/

/-- The number of an array index key: `"0"`, `"1"` and so on. -/
def arrayKey? (key : Text) : Option Nat :=
  if isNumericKey key ∧ indexText (keyIndex key) = key ∧ keyIndex key < 2 ^ 32 - 1 then
    some (keyIndex key)
  else none

/-- `Reflect.get(target, key)`. -/
def getKey : Value → Text → Value
  | .obj ms, key => (getOwn key ms).getD .undefined
  | .arr xs, key =>
    if key = js "length" then .num (.finite (ofInt xs.length))
    else match arrayKey? key with
      | some i => xs.getD i .undefined
      | none => .undefined
  | _, _ => .undefined

/-- An array with `v` at place `i`; places up to there are holes. -/
def setElem (i : Nat) (v : Value) (xs : List Value) : List Value :=
  if i < xs.length then xs.set i v else xs ++ List.replicate (i - xs.length) .undefined ++ [v]

/-- `Number(value)`. -/
def numberOf (p : Platform) : Value → Number
  | .num n => n
  | v => p.toNumber v

/-- `array.length = v`. -/
def setLength (p : Platform) (v : Value) (xs : List Value) : Except Text (List Value) :=
  match toInt? (numberOf p v) with
  | some i => if 0 ≤ i ∧ i < 2 ^ 32 then
      .ok (xs.take i.toNat ++ List.replicate (i.toNat - xs.length) .undefined)
    else .error (js "Invalid array length")
  | none => .error (js "Invalid array length")

/-- `Reflect.set(target, key, v)`. A property of an array that is no index is not part of
the document. -/
def setKey (p : Platform) (key : Text) (v : Value) : Value → Except Text Value
  | .obj ms => .ok (.obj (enumerate (assign key v ms)))
  | .arr xs =>
    if key = js "length" then do .ok (.arr (← setLength p v xs))
    else match arrayKey? key with
      | some i => .ok (.arr (setElem i v xs))
      | none => .ok (.arr xs)
  | target => .ok target

/-- `Reflect.deleteProperty(target, key)`, for a key that is no index of an array. -/
def deleteKey (key : Text) : Value → Value
  | .obj ms => .obj (ms.filter fun m => m.1 ≠ key)
  | target => target

/-! ## Branches of a path -/

/-- A step of a path into an array: an element, or the mark `'x'`. -/
inductive ArrayStep where
  | index (i : Nat)
  | x
  deriving DecidableEq

/-- `ValueBranch`. -/
structure ValueBranch where
  value : Value
  dontIterate : Bool
  arrayIndices : Option (List ArrayStep)

/-- `branchAt(current, parts, arrayIndices, forSort)`. -/
def branchAt (forSort : Bool) : List Text → Value → Option (List ArrayStep) → List ValueBranch
  | [], current, arrayIndices => [⟨current, false, arrayIndices⟩]
  | part :: rest, .arr xs, arrayIndices =>
    if !isNumericKey part || xs.length ≤ keyIndex part then []
    else
      let value := xs.getD (keyIndex part) .undefined
      let nextIndices := some (arrayIndices.getD [] ++ [.index (keyIndex part), .x])
      if rest = [] then [⟨value, isArray value, nextIndices⟩]
      else branchAt forSort rest value nextIndices
  | part :: rest, .obj ms, arrayIndices =>
    let value := (getOwn part ms).getD .undefined
    if rest = [] then [⟨value, false, arrayIndices⟩]
    else match value with
      | .obj _ => branchAt forSort rest value arrayIndices
      | .arr xs =>
        branchAt forSort rest value arrayIndices ++
          if forSort && isNumericKey (rest.headD []) then []
          else xs.zipIdx.flatMap fun p => if isPlainObject p.1 then
            branchAt forSort rest p.1 (some (arrayIndices.getD [] ++ [.index p.2])) else []
      | _ => [⟨.undefined, false, arrayIndices⟩]
  | _ :: _, _, arrayIndices => [⟨.undefined, false, arrayIndices⟩]

/-- `lookupBranches(document, path)`. -/
def lookupBranches (document : Value) (path : Text) (forSort : Bool) : List ValueBranch :=
  branchAt forSort (splitPath path) document none

/-- `expandArrays(branches, { skipArrays })`. -/
def expandArrays (branches : List ValueBranch) (skipArrays : Bool) : List ValueBranch :=
  branches.flatMap fun branch => match branch.value with
    | .arr xs =>
      (if skipArrays && !branch.dontIterate then [] else [branch]) ++
        if branch.dontIterate then []
        else xs.zipIdx.map fun p => ⟨p.1, false, some (branch.arrayIndices.getD [] ++ [.index p.2])⟩
    | _ => [branch]

/-- The loop of `setPath`. -/
def setParts (value : Value) : List Text → List (Text × Value) → List (Text × Value)
  | [], ms => ms
  | [part], ms => enumerate (assign part value ms)
  | part :: next :: rest, ms =>
    let child := match getOwn part ms with
      | some (.obj child) => child
      | _ => []
    enumerate (assign part (.obj (setParts value (next :: rest) child)) ms)

/-- `setPath(document, path, value)`; a path that ends in a dot is passed over. -/
def setPath (document : List (Text × Value)) (path : Text) (value : Value) : List (Text × Value) :=
  if (splitPath path).getLast? = some [] then document else setParts value (splitPath path) document

end TypeFerry.Minimongo.Values
