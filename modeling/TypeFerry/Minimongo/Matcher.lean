import TypeFerry.Minimongo.Values

/-! # Selectors

`matcher.ts`: a selector is compiled into a function of documents. The two modes
of the source, for reading and for updates, differ in `$near` only, which is
allowed at the root of a selector only: the compiler is given what a `$near`
condition does at the root, and nothing below it. Compiling may throw, and so
may a compiled matcher (`$in` and `$elemMatch` look into their operands when they
are used, and a frozen RegExp cannot be tested). -/
namespace TypeFerry.Minimongo.Matcher
open TypeFerry.Lib.Numeral TypeFerry.Lib.JsonText TypeFerry.Ejson.Clone
open TypeFerry.Ejson.Equals TypeFerry.Minimongo.Values

/-- `MatchResult`. -/
structure MatchResult where
  result : Bool
  distance : Option Number
  arrayIndices : Option (List ArrayStep)

/-- `{ result }`. -/
def MatchResult.only (result : Bool) : MatchResult := ⟨result, none, none⟩

abbrev DocumentMatcher := Value → Except Text MatchResult

abbrev BranchMatcher := List ValueBranch → Except Text MatchResult

/-! ## Elements -/

/-- `candidates.find(branch => predicate(branch.value))`. -/
def findBranch (predicate : Value → Except Text Bool) : List ValueBranch → Except Text MatchResult
  | [] => .ok (.only false)
  | branch :: rest => do
    if ← predicate branch.value then .ok ⟨true, none, branch.arrayIndices⟩
    else findBranch predicate rest

/-- `elementMatcher(predicate, expand, skipArrays)`. -/
def elementMatcher (predicate : Value → Except Text Bool) (expand skipArrays : Bool) : BranchMatcher :=
  fun branches => findBranch predicate (if expand then expandArrays branches skipArrays else branches)

/-- `elementMatcher(predicate)` of a predicate that does not throw. -/
def anyElement (predicate : Value → Bool) : BranchMatcher :=
  elementMatcher (fun value => .ok (predicate value)) true false

def invert (matcher : BranchMatcher) : BranchMatcher :=
  fun branches => do .ok (.only !(← matcher branches).result)

/-- `equal(expected, actual)`, without a collator. -/
def equal (expected actual : Value) : Bool :=
  let isNullish : Value → Bool
    | .undefined | .null => true
    | _ => false
  (isNullish expected && isNullish actual) || equalValues true expected actual

/-- `regexMatches`; before a test it writes `lastIndex`, which throws on a frozen RegExp. -/
def regexMatches (p : Platform) (frozen : Bool) (regex : RegExp) : Value → Except Text Bool
  | .regexp r => .ok (regexpText r == regexpText regex)
  | .str s => if frozen then .error (js "Cannot assign to read only property 'lastIndex'") else .ok (p.test regex s)
  | _ => .ok false

/-- `elementMatcher(value => regexMatches(regex, value))`. -/
def regexMatcher (p : Platform) (frozen : Bool) (regex : RegExp) : BranchMatcher :=
  elementMatcher (regexMatches p frozen regex) true false

/-- `minimongoType`. -/
def minimongoType : Value → Int
  | .num _ => 1
  | .str _ => 2
  | .bool _ => 8
  | .arr _ => 4
  | .null => 10
  | .regexp _ => 11
  | .date _ => 9
  | .binary _ => 5
  | .undefined | .obj _ => 3

/-- `TYPE_ALIASES`. -/
def typeAliases : List (Text × Int) :=
  [(js "double", 1), (js "string", 2), (js "object", 3), (js "array", 4), (js "binData", 5),
    (js "undefined", 6), (js "objectId", 7), (js "bool", 8), (js "date", 9), (js "null", 10),
    (js "regex", 11), (js "javascript", 13), (js "int", 16), (js "timestamp", 17), (js "long", 18),
    (js "decimal", 19), (js "minKey", -1), (js "maxKey", 127)]

/-! ## Bits -/

/-- `ToInt32`. -/
def toInt32 (n : Int) : Int := (n + 2 ^ 31) % 2 ^ 32 - 2 ^ 31

/-- The `length` lowest bytes of an integer in two's complement, the lowest one first. -/
def bytesOf (length : Nat) (n : Int) : List Nat :=
  (List.range length).map fun i => (n / 256 ^ i % 256).toNat

/-- The mask with the bits at the given positions. -/
def positionsMask (positions : List Int) : Except Text (List Nat) :=
  let maximum := positions.foldl max 0
  let length := toInt32 maximum / 8 + 1
  if length < 0 then .error (js "Invalid typed array length")
  else .ok (positions.foldl (fun bytes position =>
    let index := toInt32 position / 8
    if 0 ≤ index then bytes.modify index.toNat (· ||| 2 ^ (position % 8).toNat) else bytes)
    (List.replicate length.toNat 0))

/-- `bitMask(operand, operator)`. -/
def bitMask (operand : Value) : Except Text (List Nat) :=
  let refuse := .error (js "operand must be a bitmask or an array with bit positions")
  match operand with
  | .num n => match toInt? n with
    | some i => if 0 ≤ i ∧ i ≤ 0x7fffffff then .ok (bytesOf 4 i) else refuse
    | none => refuse
  | .binary bytes => .ok (bytes.map UInt8.toNat)
  | .arr xs =>
    let positions := xs.map fun
      | .num n => (toInt? n).filter (0 ≤ ·)
      | _ => none
    if positions.all Option.isSome then positionsMask (positions.filterMap id) else refuse
  | _ => refuse

/-- `valueMask(value, length)`. -/
def valueMask (value : Value) (length : Nat) : Option (List Nat) :=
  match value with
  | .binary bytes => some (bytes.map UInt8.toNat)
  | .num n => match toInt? n with
    | some i => if i.natAbs ≤ 2 ^ 53 - 1 then some (bytesOf (max length 8) i) else none
    | none => none
  | _ => none

/-- The test of a `$bits…` operator on the bytes of mask and value. -/
def testBits (operator : Text) (mask candidate : List Nat) : Bool :=
  let pairs := mask.zipIdx.map fun p => (p.1, candidate.getD p.2 0)
  if operator = js "$bitsAllSet" then pairs.all fun p => p.2 &&& p.1 == p.1
  else if operator = js "$bitsAnySet" then pairs.any fun p => p.2 &&& p.1 != 0
  else if operator = js "$bitsAllClear" then pairs.all fun p => p.2 &&& p.1 == 0
  else pairs.any fun p => p.2 &&& p.1 != p.1

/-! ## `$near` -/

/-- The pair of numbers at the head of an array. -/
def pair : List Value → Option (Number × Number)
  | .num a :: .num b :: _ => some (a, b)
  | _ => none

/-- `point(value)`. -/
def point : Value → Option (Number × Number)
  | .arr xs => pair xs
  | .obj ms => match getOwn (js "type") ms, getOwn (js "coordinates") ms with
    | some (.str t), some (.arr xs) => if t = js "Point" then pair xs else xy ms
    | _, _ => xy ms
  | _ => none
where
  xy (ms : List (Text × Value)) : Option (Number × Number) :=
    match getOwn (js "x") ms, getOwn (js "y") ms with
    | some (.num a), some (.num b) => some (a, b)
    | _, _ => none

/-- What a `$near` condition was compiled to. -/
structure NearArguments where
  origin : Number × Number
  isGeoJson : Bool
  maxDistance : Number

def NearArguments.distance (p : Platform) (a : NearArguments) (candidate : Number × Number) : Number :=
  if a.isGeoJson then p.geoJsonDistance a.origin candidate else p.distance a.origin candidate

/-- The loop of `$near` over the expanded branches. -/
def nearLoop (p : Platform) (isUpdate : Bool) (a : NearArguments) :
    List ValueBranch → Option Number → Option (List ArrayStep) →
      Option Number × Option (List ArrayStep)
  | [], nearest, indices => (nearest, indices)
  | branch :: rest, nearest, indices => match point branch.value with
    | none => nearLoop p isUpdate a rest nearest indices
    | some candidate =>
      if isUpdate then (none, branch.arrayIndices)
      else
        let current := a.distance p candidate
        if numLe current a.maxDistance && (nearest.all fun n => numLt current n) then
          nearLoop p isUpdate a rest (some current) branch.arrayIndices
        else nearLoop p isUpdate a rest nearest indices

/-- The matcher of a `$near` condition. -/
def near (p : Platform) (isUpdate : Bool) (a : NearArguments) (branches : List ValueBranch) :
    MatchResult :=
  let found := nearLoop p isUpdate a (expandArrays branches false) none none
  if found.1.isNone && !(isUpdate && found.2.isSome) then .only false else ⟨true, found.1, found.2⟩

/-! ## Operators -/

/-- `$lt`, `$lte`, `$gt` and `$gte`. -/
def comparison (operand : Value) (test : Int → Bool) : BranchMatcher :=
  let normalize : Value → Value
    | .undefined => .null
    | v => v
  if isArray operand then fun _ => .ok (.only false)
  else anyElement fun value =>
    minimongoType (normalize value) == minimongoType (normalize operand) &&
      test (compareValues (normalize value) (normalize operand))

/-- Whether a value is one of the options of `$in`. -/
def isOption (p : Platform) (value : Value) : List Value → Except Text Bool
  | [] => .ok false
  | option :: rest => do
    if ← isOperatorObject option then .error (js "cannot nest $ under $in")
    else
      let found ← match option with
        | .regexp r => regexMatches p (p.frozen r) r value
        | option => .ok (equal option value)
      if found then .ok true else isOption p value rest

/-- The matcher of a literal value. -/
def literal (p : Platform) : Value → BranchMatcher
  | .regexp r => regexMatcher p (p.frozen r) r
  | v => anyElement (equal v)

/-- `$elemMatch` on the elements of one array. -/
def elemMatchIn (matches' : Value → Except Text Bool) (arrayIndices : Option (List ArrayStep)) :
    List (Value × Nat) → Except Text MatchResult
  | [] => .ok (.only false)
  | (value, index) :: rest => do
    if ← matches' value then .ok ⟨true, none, some (arrayIndices.getD [] ++ [.index index])⟩
    else elemMatchIn matches' arrayIndices rest

def elemMatch (matches' : Value → Except Text Bool) : BranchMatcher
  | [] => .ok (.only false)
  | branch :: rest => match branch.value with
    | .arr xs => do
      let found ← elemMatchIn matches' branch.arrayIndices xs.zipIdx
      if found.result then .ok found else elemMatch matches' rest
    | _ => elemMatch matches' rest

/-- `$all`, on operands that are no operator objects. -/
def allMatch (p : Platform) (branches : List ValueBranch) : List Value → Except Text Bool
  | [] => .ok true
  | expected :: rest => do
    if (← literal p expected branches).result then allMatch p branches rest else .ok false

/-- Whether one of the values is an operator object. -/
def someOperatorObject : List Value → Except Text Bool
  | [] => .ok false
  | v :: rest => do if ← isOperatorObject v then .ok true else someOperatorObject rest

/-- `$regex`. -/
def compileRegex (p : Platform) (operand : Value) (selector : List (Text × Value)) :
    Except Text BranchMatcher := do
  let (source, inherited) ← match operand with
    | .str s => .ok (s, [])
    | .regexp r => .ok (r.source, r.flags)
    | _ => .error (js "$regex has to be a string or RegExp")
  let flags := match getOwn (js "$options") selector with
    | none | some .undefined => inherited
    | some (.str s) => s
    | some v => p.string v
  if flags.any (· ∉ js "gim") then .error (js "Only the i, m, and g regexp options are supported")
  else match p.newRegExp source flags with
    | some regex => .ok (regexMatcher p false regex)
    | none => .error (js "Invalid regular expression")

/-- `$type`. -/
def compileType (operand : Value) : Except Text BranchMatcher := do
  let expected ← match operand with
    | .str s => match typeAliases.lookup s with
      | some code => .ok (.finite (ofInt code))
      | none => .error (js "unknown string alias for $type")
    | .num n => .ok n
    | .undefined => .error (js "unknown string alias for $type")
    | _ => .error (js "argument to $type is not a number or a string")
  let code (n : Int) : Number := .finite (ofInt n)
  if numEquals expected (code 0) || numLt expected (code (-1)) ||
      (numLt (code 19) expected && !numEquals expected (code 127)) then
    .error (js "Invalid numerical $type code")
  else .ok (elementMatcher (fun value =>
    .ok (!value.isUndefined && toInt? expected == some (minimongoType value))) true true)

/-- The arguments of a `$near` condition. -/
def nearArguments (operand : Value) (selector : List (Text × Value)) : Except Text NearArguments :=
  let entries := match operand with
    | .obj ms => ms
    | _ => []
  let isGeoJson := (getOwn (js "$geometry") entries).isSome
  match point (if isGeoJson then (getOwn (js "$geometry") entries).getD .undefined else operand) with
  | none => .error (js "$near argument must be coordinate pair or GeoJSON")
  | some origin => .ok ⟨origin, isGeoJson,
      match getOwn (js "$maxDistance") entries, getOwn (js "$maxDistance") selector with
      | some (.num n), _ => n
      | _, some (.num n) => n
      | _, _ => .infinity false⟩

/-- What a `$near` condition does at the root of a selector. -/
abbrev NearMatcher := NearArguments → List ValueBranch → MatchResult

section
variable (p : Platform)

/-- `compileOperator(operator, operand, selector, isRoot)`. What the operand itself
compiles to is given: as a value under `$not` and `$elemMatch`, and as the conditions of a
document under `$elemMatch`. -/
def compileOperator (root : Option NearMatcher) (selector : List (Text × Value)) (operator : Text)
    (operand : Value) (asValue : Except Text BranchMatcher) (asDocument : Except Text DocumentMatcher) :
    Except Text BranchMatcher :=
  if operator = js "$lt" then .ok (comparison operand fun r => r < 0)
  else if operator = js "$lte" then .ok (comparison operand fun r => r ≤ 0)
  else if operator = js "$gt" then .ok (comparison operand fun r => r > 0)
  else if operator = js "$gte" then .ok (comparison operand fun r => r ≥ 0)
  else if operator = js "$eq" then .ok (anyElement (equal operand))
  else if operator = js "$ne" then .ok (invert (anyElement (equal operand)))
  else if operator = js "$in" ∨ operator = js "$nin" then match operand with
    | .arr options =>
      let matcher := elementMatcher (fun value => isOption p value options) true false
      .ok (if operator = js "$nin" then invert matcher else matcher)
    | _ => .error (js "$in needs an array")
  else if operator = js "$exists" then
    let matcher := anyElement fun value => !value.isUndefined
    .ok (if isFalsy operand then invert matcher else matcher)
  else if operator = js "$not" then do .ok (invert (← asValue))
  else if operator = js "$options" then
    if (getOwn (js "$regex") selector).isSome then .ok fun _ => .ok (.only true)
    else .error (js "$options needs a $regex")
  else if operator = js "$regex" then compileRegex p operand selector
  else if operator = js "$size" then
    let size : Value := match operand with
      | .str _ => .num (.finite (ofInt 0))
      | v => v
    match size with
    | .num n => .ok (elementMatcher (fun value => .ok (match value with
        | .arr xs => numEquals (.finite (ofInt xs.length)) n
        | _ => false)) false false)
    | _ => .error (js "$size needs a number")
  else if operator = js "$all" then match operand with
    | .arr [] => .ok fun _ => .ok (.only false)
    | .arr expected => do
      if ← someOperatorObject expected then .error (js "no $ expressions in $all")
      else .ok fun branches => do .ok (.only (← allMatch p branches expected))
    | _ => .error (js "$all requires array")
  else if operator = js "$elemMatch" then
    if isPlainObject operand then .ok (elemMatch fun value => do
      if !(← isOperatorObject operand) && isPlainObject value then
        .ok (← (← asDocument) value).result
      else .ok (← (← asValue) [⟨value, false, none⟩]).result)
    else .error (js "$elemMatch need an object")
  else if operator = js "$mod" then match operand with
    | .arr [.num divisor, .num remainder] => .ok (anyElement fun
      | .num n => numEquals (p.rem n divisor) remainder && remainder != .nan
      | _ => false)
    | _ => .error (js "argument to $mod must be an array of two numbers")
  else if operator = js "$type" then compileType operand
  else if startsWith (js "$bits") operator then do
    let mask ← bitMask operand
    .ok (anyElement fun value => (valueMask value mask.length).any (testBits operator mask))
  else if operator = js "$maxDistance" then
    if (getOwn (js "$near") selector).isSome then .ok fun _ => .ok (.only true)
    else .error (js "$maxDistance needs a $near")
  else if operator = js "$near" then
    match root with
    | some nearMatcher => do
      let a ← nearArguments operand selector
      .ok fun branches => .ok (nearMatcher a branches)
    | none => .error (js "$near can't be inside another $ operator")
  else .error (js "Unrecognized operator: " ++ operator)

end

/-! ## Conditions -/

/-- The conditions of one field, all of which are looked at. -/
def matchEach (matchers : List BranchMatcher) : BranchMatcher := fun branches => do
  let results ← matchers.mapM fun matcher => matcher branches
  .ok ⟨results.all (·.result), results.findSome? (·.distance), results.findSome? (·.arrayIndices)⟩

/-- The loop of `compileDocument` over its matchers: the first one that fails ends it. -/
def matchAll : List DocumentMatcher → Option Number → Option (List ArrayStep) → DocumentMatcher
  | [], nearest, arrayIndices => fun _ => .ok ⟨true, nearest, arrayIndices⟩
  | matcher :: rest, nearest, arrayIndices => fun document => do
    let result ← matcher document
    if !result.result then .ok (.only false)
    else matchAll rest (result.distance <|> nearest) (result.arrayIndices <|> arrayIndices) document

/-- The loop of `$and`, which keeps the first distance. -/
def matchAnd : List DocumentMatcher → Option Number → Option (List ArrayStep) → DocumentMatcher
  | [], distance, arrayIndices => fun _ => .ok ⟨true, distance, arrayIndices⟩
  | matcher :: rest, distance, arrayIndices => fun document => do
    let result ← matcher document
    if !result.result then .ok (.only false)
    else matchAnd rest (distance <|> result.distance) (result.arrayIndices <|> arrayIndices) document

/-- `entries.some(matcher => matcher(document).result)`. -/
def matchSome : List DocumentMatcher → Value → Except Text Bool
  | [], _ => .ok false
  | matcher :: rest, document => do
    if (← matcher document).result then .ok true else matchSome rest document

/-- `compileLogical(operator, operand)`; `entries` are the compiled elements of an operand
that is an array. -/
def compileLogical (operator : Text) (entries : Option (Except Text (List DocumentMatcher))) :
    Except Text DocumentMatcher :=
  if operator = js "$comment" then .ok fun _ => .ok (.only true)
  else if operator ≠ js "$and" ∧ operator ≠ js "$or" ∧ operator ≠ js "$nor" then
    .error (js "Unrecognized logical operator: " ++ operator)
  else match entries with
    | none => .error (js "$and/$or/$nor must be nonempty array")
    | some compiled => do
      let matchers ← compiled
      if operator = js "$and" then .ok (matchAnd matchers none none)
      else if operator = js "$or" then match matchers with
        | [matcher] => .ok matcher
        | _ => .ok fun document => do .ok (.only (← matchSome matchers document))
      else .ok fun document => do .ok (.only !(← matchSome matchers document))

/-- One entry of a selector, from what its value compiles to: the operands of a logical
operator, or the condition of a field. -/
def compileField (path : Text) (entries : Option (Except Text (List DocumentMatcher)))
    (asValue : Except Text BranchMatcher) : Except Text DocumentMatcher :=
  if startsWith (js "$") path then compileLogical path entries
  else do
    let valueMatcher ← asValue
    .ok fun document => valueMatcher (lookupBranches document path false)

section
variable (p : Platform)

mutual

/-- The matchers of `compileDocument(selector, isRoot)`. -/
def compileDocument (root : Option NearMatcher) : List (Text × Value) → Except Text (List DocumentMatcher)
  | [] => .ok []
  | (path, value) :: rest => do
    let matcher ← compileField path (compileOperands value) (compileValue root value)
    let matchers ← compileDocument root rest
    .ok (matcher :: matchers)

/-- The operand of `$and`, `$or` or `$nor`, if it is an array that is not empty. -/
def compileOperands : Value → Option (Except Text (List DocumentMatcher))
  | .arr (x :: xs) => some (compileEntries (x :: xs))
  | _ => none

/-- The elements of such an array. -/
def compileEntries : List Value → Except Text (List DocumentMatcher)
  | [] => .ok []
  | .obj ms :: rest => do
    let matchers ← compileDocument none ms
    let others ← compileEntries rest
    .ok (matchAll matchers none none :: others)
  | _ :: _ => .error (js "$or/$and/$nor entries need to be full objects")

/-- `compileValue(selector, isRoot)`. -/
def compileValue (root : Option NearMatcher) : Value → Except Text BranchMatcher
  | .obj ms => do
    if ← isOperatorObject (.obj ms) then
      let matchers ← compileOperators root ms ms
      .ok (matchEach matchers)
    else .ok (literal p (.obj ms))
  | v => .ok (literal p v)

/-- The operators of an operator object. -/
def compileOperators (root : Option NearMatcher) (selector : List (Text × Value)) :
    List (Text × Value) → Except Text (List BranchMatcher)
  | [] => .ok []
  | (operator, operand) :: rest => do
    let matcher ← compileOperator p root selector operator operand (compileValue none operand)
      (compileElement operand)
    let matchers ← compileOperators root selector rest
    .ok (matcher :: matchers)

/-- The operand of `$elemMatch` as the conditions of a document. -/
def compileElement : Value → Except Text DocumentMatcher
  | .obj ms => do .ok (matchAll (← compileDocument none ms) none none)
  | _ => .error (js "$elemMatch need an object")

end

/-- `compileSelector(selector)`. -/
def compileSelector (nearMatcher : NearMatcher) : Value → Except Text DocumentMatcher
  | .str id => .ok fun document => .ok (.only (equal (.str id) (getKey document (js "_id"))))
  | .obj ms =>
    if (getOwn (js "_id") ms).any isFalsy then .ok fun _ => .ok (.only false)
    else do .ok (matchAll (← compileDocument p (some nearMatcher) ms) none none)
  | selector =>
    if isFalsy selector then .ok fun _ => .ok (.only false) else .error (js "Invalid selector")

end

/-- `new Matcher(selector, isUpdate).documentMatches`. -/
def matcher (p : Platform) (isUpdate : Bool) (selector : Value) : Except Text DocumentMatcher :=
  compileSelector p (near p isUpdate) selector

end TypeFerry.Minimongo.Matcher
