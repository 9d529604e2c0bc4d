import TypeFerry.Minimongo.Cursors
import TypeFerry.Minimongo.Atomicity
import TypeFerry.Minimongo.Selection

/-! # Selectors that fail fast

A selector that compiles should never throw while it matches. Two operators look
into their operands only then: `$in` and `$nin` refuse an operator object among
their options when a value is compared with it, and `$elemMatch` compiles its
operand for each element. And a frozen RegExp, one of a fetched document for
example, throws when it is tested. A selector whose operands are in order does
not throw, whatever the document. -/
namespace TypeFerry.Minimongo.FailFast
open TypeFerry.Lib.Numeral TypeFerry.Lib.JsonText TypeFerry.Lib.OrderedMap TypeFerry.Ejson.Clone
open TypeFerry.Ejson.Canonical TypeFerry.Ejson.Equals TypeFerry.Minimongo.Values TypeFerry.Minimongo.Matcher
open TypeFerry.Minimongo.Collection TypeFerry.Minimongo.Atomicity TypeFerry.Minimongo.Cursors
open TypeFerry.Minimongo.Modifier

/-! ## Operands that are in order -/

/-- The value is no operator object, and not a mixture of operators and fields. -/
def isLiteral (v : Value) : Bool := match isOperatorObject v with
  | .ok isOperator => !isOperator
  | .error _ => false

section
variable (p : Platform)

/-- A RegExp that cannot be tested. -/
def isFrozen : Value → Bool
  | .regexp r => p.frozen r
  | _ => false

/-- What an operator leaves to be looked at while it matches is in order. The operand is in order
as a condition, or as the conditions of a document, as it is given. -/
def settledOperator (operator : Text) (operand : Value) (asValue asDocument : Bool) : Bool :=
  if operator = js "$in" ∨ operator = js "$nin" then match operand with
    | .arr options => options.all fun option => isLiteral option && !isFrozen p option
    | _ => true
  else if operator = js "$not" then asValue
  else if operator = js "$all" then match operand with
    | .arr expected => expected.all fun v => !isFrozen p v
    | _ => true
  else if operator = js "$elemMatch" then match isOperatorObject operand with
    | .ok true => (compileValue p none operand).isOk && asValue
    | .ok false => (compileElement p operand).isOk && asDocument
    | .error _ => false
  else true

mutual

/-- The operands below the conditions of a document are in order. -/
def settledDocument : List (Text × Value) → Bool
  | [] => true
  | (path, value) :: rest =>
    (if startsWith (js "$") path then path == js "$comment" || settledOperands value else settledValue value) &&
      settledDocument rest

/-- Those below the operand of `$and`, `$or` or `$nor`. -/
def settledOperands : Value → Bool
  | .arr xs => settledEntries xs
  | _ => true

def settledEntries : List Value → Bool
  | [] => true
  | .obj ms :: rest => settledDocument ms && settledEntries rest
  | _ :: rest => settledEntries rest

/-- Those below the condition of a field. -/
def settledValue : Value → Bool
  | .obj ms => settledOperators ms
  | v => !isFrozen p v

def settledOperators : List (Text × Value) → Bool
  | [] => true
  | (operator, operand) :: rest =>
    settledOperator p operator operand (settledValue operand) (settledElement operand) &&
      settledOperators rest

/-- Those below the operand of `$elemMatch`, as the conditions of a document. -/
def settledElement : Value → Bool
  | .obj ms => settledDocument ms
  | _ => true

end

/-- The operands of a selector that are looked at while it matches are in order. -/
def settled : Value → Bool
  | .obj ms => (getOwn (js "_id") ms).any isFalsy || settledDocument p ms
  | _ => true

end

section
variable (p : Platform)

/-- An operator that throws on some value: an operand is out of order and nothing is asked before. -/
def exposedOperator (operator : Text) (operand : Value) (asValue asDocument : Bool) : Bool :=
  if operator = js "$in" ∨ operator = js "$nin" then match operand with
    | .arr options => !options.all isLiteral
    | _ => false
  else if operator = js "$not" then asValue
  else if operator = js "$elemMatch" then match isOperatorObject operand with
    | .ok true => !(compileValue p none operand).isOk || asValue
    | .ok false => !(compileElement p operand).isOk || asDocument
    | .error _ => true
  else false

mutual

/-- An operand is out of order below the first condition of a document. -/
def exposedDocument : List (Text × Value) → Bool
  | [] => false
  | (path, value) :: _ =>
    if startsWith (js "$") path then path != js "$comment" && exposedOperands value else exposedValue value

def exposedOperands : Value → Bool
  | .arr xs => exposedEntries xs
  | _ => false

def exposedEntries : List Value → Bool
  | .obj ms :: _ => exposedDocument ms
  | _ => false

/-- All the operators of a field are looked at. -/
def exposedValue : Value → Bool
  | .obj ms => exposedOperators ms
  | v => isFrozen p v

def exposedOperators : List (Text × Value) → Bool
  | [] => false
  | (operator, operand) :: rest =>
    exposedOperator p operator operand (exposedValue operand) (exposedElement operand) ||
      exposedOperators rest

def exposedElement : Value → Bool
  | .obj ms => exposedDocument ms
  | _ => false

end

/-- An operand is out of order that no other condition stands in front of. -/
def exposed : Value → Bool
  | .obj ms => !(getOwn (js "_id") ms).any isFalsy && exposedDocument p ms
  | _ => false

end

/-- What `$elemMatch` asks of an element. -/
def elementTest (p : Platform) (operand value : Value) : Except Text Bool := do
  if !(← isOperatorObject operand) && isPlainObject value then
    .ok (← (← compileElement p operand) value).result
  else .ok (← (← compileValue p none operand) [⟨value, false, none⟩]).result

/-! ## Matchers that do not throw -/

/-- The function throws on nothing. -/
def Total {α β : Type} (f : α → Except Text β) : Prop := ∀ x, ∃ y, f x = .ok y

theorem total_findBranch {predicate : Value → Except Text Bool} (h : Total predicate) :
    Total (findBranch predicate) := by
  intro branches
  induction branches with
  | nil => exact ⟨_, rfl⟩
  | cons branch rest ih =>
    obtain ⟨found, hfound⟩ := h branch.value
    rw [findBranch, hfound]
    cases found with
    | true => exact ⟨_, rfl⟩
    | false => exact ih

theorem total_elementMatcher {predicate : Value → Except Text Bool} (h : Total predicate)
    (expand skipArrays : Bool) : Total (elementMatcher predicate expand skipArrays) :=
  fun _ => total_findBranch h _

theorem total_anyElement (predicate : Value → Bool) : Total (anyElement predicate) :=
  total_elementMatcher (fun _ => ⟨_, rfl⟩) true false

theorem total_invert {matcher : BranchMatcher} (h : Total matcher) : Total (invert matcher) := by
  intro branches
  obtain ⟨r, hr⟩ := h branches
  rw [invert, hr]
  exact ⟨_, rfl⟩

/-- A RegExp that is not frozen can be tested. -/
theorem total_regexMatches (p : Platform) (r : RegExp) : Total (regexMatches p false r) := by
  intro v
  cases v <;> exact ⟨_, rfl⟩

theorem total_regexMatcher (p : Platform) (r : RegExp) : Total (regexMatcher p false r) :=
  total_elementMatcher (total_regexMatches p r) true false

theorem total_literal {p : Platform} {v : Value} (h : isFrozen p v = false) : Total (literal p v) := by
  cases v with
  | regexp r =>
    rw [literal, show p.frozen r = false from h]
    exact total_regexMatcher p r
  | _ => exact total_anyElement _

theorem total_isOption {p : Platform} {options : List Value}
    (h : options.all fun option => isLiteral option && !isFrozen p option) :
    Total fun value => isOption p value options := by
  intro value
  induction options with
  | nil => exact ⟨_, rfl⟩
  | cons option rest ih =>
    rw [List.all_cons, Bool.and_eq_true, Bool.and_eq_true, Bool.not_eq_true'] at h
    have hliteral : isOperatorObject option = .ok false := by
      have hoption := h.1.1
      unfold isLiteral at hoption
      split at hoption
      · next b hb =>
        rw [Bool.not_eq_true'] at hoption
        rw [hb, hoption]
      · cases hoption
    obtain ⟨found, hfound⟩ := ih h.2
    dsimp only at hfound ⊢
    unfold isOption
    rw [hliteral]
    dsimp only [bind, Except.bind]
    rw [if_neg Bool.false_ne_true]
    have hnow : ∀ now : Bool, ∃ y, (if now then Except.ok true else isOption p value rest) = .ok y := by
      intro now
      cases now with
      | true => exact ⟨_, rfl⟩
      | false => exact ⟨_, hfound⟩
    cases option with
    | regexp r =>
      obtain ⟨now, htest⟩ := total_regexMatches p r value
      dsimp only
      rw [show p.frozen r = false from h.1.2, htest]
      exact hnow now
    | _ => exact hnow _

theorem total_elemMatch {matches' : Value → Except Text Bool} (h : Total matches') :
    Total (elemMatch matches') := by
  have helements : ∀ (arrayIndices : Option (List ArrayStep)) (es : List (Value × ℕ)),
      ∃ r, elemMatchIn matches' arrayIndices es = .ok r := by
    intro arrayIndices es
    induction es with
    | nil => exact ⟨_, rfl⟩
    | cons e es ih =>
      obtain ⟨found, hfound⟩ := h e.1
      rw [elemMatchIn, hfound]
      cases found with
      | true => exact ⟨_, rfl⟩
      | false => exact ih
  intro branches
  induction branches with
  | nil => exact ⟨_, rfl⟩
  | cons branch rest ih =>
    rw [elemMatch]
    split
    · next xs _ =>
      obtain ⟨found, hfound⟩ := helements branch.arrayIndices xs.zipIdx
      rw [hfound]
      dsimp only [bind, Except.bind]
      split
      · exact ⟨_, rfl⟩
      · exact ih
    · exact ih

theorem total_allMatch {p : Platform} (branches : List ValueBranch) {expected : List Value}
    (h : expected.all fun v => !isFrozen p v) : ∃ found, allMatch p branches expected = .ok found := by
  induction expected with
  | nil => exact ⟨_, rfl⟩
  | cons v rest ih =>
    rw [List.all_cons, Bool.and_eq_true, Bool.not_eq_true'] at h
    obtain ⟨r, hr⟩ := total_literal h.1 branches
    rw [allMatch, hr]
    dsimp only [bind, Except.bind]
    split
    · exact ih h.2
    · exact ⟨_, rfl⟩

theorem total_comparison (operand : Value) (test : Int → Bool) : Total (comparison operand test) := by
  unfold comparison
  dsimp only
  split
  · exact fun _ => ⟨_, rfl⟩
  · exact total_anyElement _

theorem total_matchEach {matchers : List BranchMatcher} (h : ∀ m ∈ matchers, Total m) :
    Total (matchEach matchers) := by
  intro branches
  have hresults : ∃ results, matchers.mapM (fun matcher => matcher branches) = Except.ok results := by
    induction matchers with
    | nil => exact ⟨_, rfl⟩
    | cons m ms ih =>
      obtain ⟨r, hr⟩ := h m List.mem_cons_self branches
      obtain ⟨rs, hrs⟩ := ih fun x hx => h x (List.mem_cons_of_mem m hx)
      rw [List.mapM_cons, hr]
      dsimp only [bind, Except.bind]
      rw [hrs]
      exact ⟨_, rfl⟩
  obtain ⟨results, hresults⟩ := hresults
  rw [matchEach, hresults]
  exact ⟨_, rfl⟩

theorem total_matchAll {matchers : List DocumentMatcher} (h : ∀ m ∈ matchers, Total m) :
    ∀ nearest arrayIndices, Total (matchAll matchers nearest arrayIndices) := by
  induction matchers with
  | nil => exact fun _ _ _ => ⟨_, rfl⟩
  | cons m ms ih =>
    intro nearest arrayIndices document
    obtain ⟨r, hr⟩ := h m List.mem_cons_self document
    unfold matchAll
    dsimp only [bind, Except.bind]
    rw [hr]
    dsimp only
    split
    · exact ⟨_, rfl⟩
    · exact ih (fun x hx => h x (List.mem_cons_of_mem m hx)) _ _ document

theorem total_matchAnd {matchers : List DocumentMatcher} (h : ∀ m ∈ matchers, Total m) :
    ∀ distance arrayIndices, Total (matchAnd matchers distance arrayIndices) := by
  induction matchers with
  | nil => exact fun _ _ _ => ⟨_, rfl⟩
  | cons m ms ih =>
    intro distance arrayIndices document
    obtain ⟨r, hr⟩ := h m List.mem_cons_self document
    unfold matchAnd
    dsimp only [bind, Except.bind]
    rw [hr]
    dsimp only
    split
    · exact ⟨_, rfl⟩
    · exact ih (fun x hx => h x (List.mem_cons_of_mem m hx)) _ _ document

theorem total_matchSome {matchers : List DocumentMatcher} (h : ∀ m ∈ matchers, Total m) :
    Total (matchSome matchers) := by
  intro document
  induction matchers with
  | nil => exact ⟨_, rfl⟩
  | cons m ms ih =>
    obtain ⟨r, hr⟩ := h m List.mem_cons_self document
    rw [matchSome, hr]
    dsimp only [bind, Except.bind]
    split
    · exact ⟨_, rfl⟩
    · exact ih fun x hx => h x (List.mem_cons_of_mem m hx)

theorem ok_of_isOk {ε α : Type} {x : Except ε α} (h : x.isOk) : ∃ a, x = .ok a := by
  cases x with
  | error e => cases h
  | ok a => exact ⟨a, rfl⟩

section
variable {p : Platform} {root : Option NearMatcher}

/-- What is no operator object is a literal. -/
theorem compileValue_literal {v : Value} (h : isOperatorObject v = .ok false) :
    compileValue p root v = .ok (literal p v) := by
  cases v with
  | obj ms =>
    rw [compileValue, h]
    rfl
  | _ => rfl

theorem total_compileRegex {operand : Value} {selector : List (Text × Value)} {m : BranchMatcher}
    (h : compileRegex p operand selector = .ok m) : Total m := by
  have hallowed : ∀ {flags : Text} {compiled : Except Text BranchMatcher}, (if flags.any (· ∉ js "gim") then
      Except.error (js "Only the i, m, and g regexp options are supported") else compiled) = .ok m → compiled = .ok m := by
    intro flags compiled h
    split at h
    · cases h
    · exact h
  unfold compileRegex at h
  cases operand with
  | str s =>
    have hcompiled := hallowed h
    split at hcompiled
    · cases hcompiled
      exact total_regexMatcher p _
    · cases hcompiled
  | regexp r =>
    have hcompiled := hallowed h
    split at hcompiled
    · cases hcompiled
      exact total_regexMatcher p _
    · cases hcompiled
  | _ => cases h

theorem total_compileType {operand : Value} {m : BranchMatcher} (h : compileType operand = .ok m) : Total m := by
  have hcode : ∀ {expected : Number}, (let code (n : Int) : Number := .finite (ofInt n)
      if numEquals expected (code 0) || numLt expected (code (-1)) ||
        (numLt (code 19) expected && !numEquals expected (code 127)) then
        Except.error (js "Invalid numerical $type code")
      else Except.ok (elementMatcher (fun value =>
        .ok (!value.isUndefined && toInt? expected == some (minimongoType value))) true true)) = .ok m →
      Total m := by
    intro expected h
    dsimp only at h
    split at h
    · cases h
    · cases h
      exact total_elementMatcher (fun _ => ⟨_, rfl⟩) true true
  unfold compileType at h
  cases operand with
  | str s =>
    dsimp only at h
    split at h
    · exact hcode h
    · cases h
  | num n => exact hcode h
  | _ => cases h

/-- What `$elemMatch` asks of an element does not throw, if its operand is in order. -/
theorem total_elementTest {operand : Value} (hfrozen : isFrozen p operand = false)
    (hsettled : (match isOperatorObject operand with
      | .ok true => (compileValue p none operand).isOk && settledValue p operand
      | .ok false => (compileElement p operand).isOk && settledElement p operand
      | .error _ => false) = true)
    (hvalue : ∀ m, compileValue p none operand = .ok m → settledValue p operand → Total m)
    (helement : ∀ m, compileElement p operand = .ok m → settledElement p operand → Total m) :
    Total (elementTest p operand) := by
  intro value
  unfold elementTest
  have hrest : ∀ {m : BranchMatcher}, compileValue p none operand = .ok m → Total m →
      ∃ y, (do .ok (← (← compileValue p none operand) [⟨value, false, none⟩]).result : Except Text Bool) = .ok y := by
    intro m hm htotal
    obtain ⟨r, hr⟩ := htotal [⟨value, false, none⟩]
    rw [hm]
    dsimp only [bind, Except.bind]
    rw [hr]
    exact ⟨_, rfl⟩
  cases hoperand : isOperatorObject operand with
  | error e =>
    rw [hoperand] at hsettled
    cases hsettled
  | ok isOperator =>
    rw [hoperand] at hsettled
    dsimp only [bind, Except.bind]
    cases isOperator with
    | true =>
      rw [Bool.and_eq_true] at hsettled
      obtain ⟨m, hm⟩ := ok_of_isOk hsettled.1
      exact hrest hm (hvalue m hm hsettled.2)
    | false =>
      rw [Bool.and_eq_true] at hsettled
      obtain ⟨m, hm⟩ := ok_of_isOk hsettled.1
      split
      · obtain ⟨r, hr⟩ := helement m hm hsettled.2 value
        rw [hm]
        dsimp only
        rw [hr]
        exact ⟨_, rfl⟩
      · exact hrest (compileValue_literal hoperand) (total_literal hfrozen)

/-- What an operator compiles to does not throw, if what its operand compiles to does not. -/
theorem total_compileOperator {selector : List (Text × Value)} {operator : Text} {operand : Value}
    {m : BranchMatcher} (hsettled : settledOperator p operator operand (settledValue p operand)
      (settledElement p operand))
    (hvalue : ∀ m, compileValue p none operand = .ok m → settledValue p operand → Total m)
    (helement : ∀ m, compileElement p operand = .ok m → settledElement p operand → Total m)
    (h : compileOperator p root selector operator operand (compileValue p none operand)
      (compileElement p operand) = .ok m) : Total m := by
  unfold compileOperator at h
  unfold settledOperator at hsettled
  by_cases hlt : operator = js "$lt"
  · rw [if_pos hlt] at h
    cases h
    exact total_comparison operand _
  by_cases hlte : operator = js "$lte"
  · rw [if_neg hlt, if_pos hlte] at h
    cases h
    exact total_comparison operand _
  by_cases hgt : operator = js "$gt"
  · rw [if_neg hlt, if_neg hlte, if_pos hgt] at h
    cases h
    exact total_comparison operand _
  by_cases hgte : operator = js "$gte"
  · rw [if_neg hlt, if_neg hlte, if_neg hgt, if_pos hgte] at h
    cases h
    exact total_comparison operand _
  rw [if_neg hlt, if_neg hlte, if_neg hgt, if_neg hgte] at h
  by_cases heq : operator = js "$eq"
  · rw [if_pos heq] at h
    cases h
    exact total_anyElement _
  rw [if_neg heq] at h
  by_cases hne : operator = js "$ne"
  · rw [if_pos hne] at h
    cases h
    exact total_invert (total_anyElement _)
  rw [if_neg hne] at h
  by_cases hin : operator = js "$in" ∨ operator = js "$nin"
  · rw [if_pos hin] at h hsettled
    cases operand with
    | arr options =>
      have hoptions := total_elementMatcher (total_isOption (p := p) hsettled) true false
      cases h
      split
      · exact total_invert hoptions
      · exact hoptions
    | _ => cases h
  rw [if_neg hin] at h hsettled
  by_cases hexists : operator = js "$exists"
  · rw [if_pos hexists] at h
    cases h
    split
    · exact total_invert (total_anyElement _)
    · exact total_anyElement _
  rw [if_neg hexists] at h
  by_cases hnot : operator = js "$not"
  · rw [if_pos hnot] at h hsettled
    obtain ⟨inner, hinner, h⟩ := bind_eq_ok h
    cases h
    exact total_invert (hvalue inner hinner hsettled)
  rw [if_neg hnot] at h hsettled
  by_cases hoptions : operator = js "$options"
  · rw [if_pos hoptions] at h
    split at h
    · cases h
      exact fun _ => ⟨_, rfl⟩
    · cases h
  rw [if_neg hoptions] at h
  by_cases hregex : operator = js "$regex"
  · rw [if_pos hregex] at h
    exact total_compileRegex h
  rw [if_neg hregex] at h
  by_cases hsize : operator = js "$size"
  · rw [if_pos hsize] at h
    dsimp only at h
    split at h
    · cases h
      exact total_elementMatcher (fun _ => ⟨_, rfl⟩) false false
    · cases h
  rw [if_neg hsize] at h
  by_cases hall : operator = js "$all"
  · rw [if_pos hall] at h hsettled
    split at h
    · cases h
      exact fun _ => ⟨_, rfl⟩
    · next expected _ =>
      obtain ⟨found, -, h⟩ := bind_eq_ok h
      split at h
      · cases h
      · cases h
        intro branches
        obtain ⟨r, hr⟩ := total_allMatch (p := p) branches hsettled
        dsimp only [bind, Except.bind]
        rw [hr]
        exact ⟨_, rfl⟩
    · cases h
  rw [if_neg hall] at h hsettled
  by_cases helem : operator = js "$elemMatch"
  · rw [if_pos helem] at h hsettled
    split at h
    · next hobject =>
      have hfrozen : isFrozen p operand = false := by
        cases operand with
        | regexp r => cases hobject
        | _ => rfl
      cases h
      exact total_elemMatch (total_elementTest hfrozen hsettled hvalue helement)
    · cases h
  rw [if_neg helem] at h
  by_cases hmod : operator = js "$mod"
  · rw [if_pos hmod] at h
    split at h
    · cases h
      exact total_anyElement _
    · cases h
  rw [if_neg hmod] at h
  by_cases htype : operator = js "$type"
  · rw [if_pos htype] at h
    exact total_compileType h
  rw [if_neg htype] at h
  by_cases hbits : startsWith (js "$bits") operator = true
  · rw [if_pos hbits] at h
    obtain ⟨mask, -, h⟩ := bind_eq_ok h
    cases h
    exact total_anyElement _
  rw [if_neg hbits] at h
  by_cases hdistance : operator = js "$maxDistance"
  · rw [if_pos hdistance] at h
    split at h
    · cases h
      exact fun _ => ⟨_, rfl⟩
    · cases h
  rw [if_neg hdistance] at h
  by_cases hnear : operator = js "$near"
  · rw [if_pos hnear] at h
    split at h
    · obtain ⟨a, -, h⟩ := bind_eq_ok h
      cases h
      exact fun _ => ⟨_, rfl⟩
    · cases h
  rw [if_neg hnear] at h
  cases h

/-- A logical operator does not throw, if its entries do not. -/
theorem total_compileLogical {operator : Text} {entries : Option (Except Text (List DocumentMatcher))}
    {m : DocumentMatcher} (hentries : ∀ ms, entries = some (.ok ms) → ∀ m ∈ ms, Total m)
    (h : compileLogical operator entries = .ok m) : Total m := by
  unfold compileLogical at h
  split at h
  · cases h
    exact fun _ => ⟨_, rfl⟩
  · split at h
    · cases h
    · split at h
      · cases h
      · next compiled =>
        obtain ⟨matchers, hmatchers, h⟩ := bind_eq_ok h
        have htotal := hentries matchers (by rw [hmatchers])
        have hsome : ∀ negate : Bool → Bool, Total (fun document =>
            matchSome matchers document >>= fun found => Except.ok (MatchResult.only (negate found))) := by
          intro negate document
          obtain ⟨found, hfound⟩ := total_matchSome htotal document
          dsimp only [bind, Except.bind]
          rw [hfound]
          exact ⟨_, rfl⟩
        split at h
        · cases h
          exact total_matchAnd htotal none none
        · split at h
          · split at h
            · next matcher =>
              cases h
              exact htotal _ List.mem_cons_self
            · cases h
              exact hsome id
          · cases h
            exact hsome not

mutual

theorem total_compileDocument : ∀ {root : Option NearMatcher} (ms : List (Text × Value))
    {matchers : List DocumentMatcher}, compileDocument p root ms = .ok matchers → settledDocument p ms →
    ∀ m ∈ matchers, Total m
  | _, [], _, h, _ => by
    rw [compileDocument] at h
    cases h
    exact nofun
  | root, (path, value) :: rest, matchers, h, hsettled => by
    rw [compileDocument] at h
    rw [settledDocument, Bool.and_eq_true] at hsettled
    obtain ⟨matcher, hmatcher, h⟩ := bind_eq_ok h
    obtain ⟨others, hothers, h⟩ := bind_eq_ok h
    cases h
    intro m hm
    rcases List.mem_cons.mp hm with rfl | hm
    · unfold compileField at hmatcher
      split at hmatcher
      · next hroot =>
        rw [if_pos hroot, Bool.or_eq_true, beq_iff_eq] at hsettled
        rcases hsettled.1 with hcomment | hoperands
        · unfold compileLogical at hmatcher
          rw [if_pos hcomment] at hmatcher
          cases hmatcher
          exact fun _ => ⟨_, rfl⟩
        · exact total_compileLogical (total_compileOperands value hoperands) hmatcher
      · next hroot =>
        rw [if_neg hroot] at hsettled
        obtain ⟨valueMatcher, hvalue, hmatcher⟩ := bind_eq_ok hmatcher
        cases hmatcher
        exact fun document => total_compileValue value hvalue hsettled.1 _
    · exact total_compileDocument rest hothers hsettled.2 m hm

theorem total_compileOperands : ∀ (value : Value), settledOperands p value → ∀ matchers,
    compileOperands p value = some (.ok matchers) → ∀ m ∈ matchers, Total m
  | .arr (x :: xs), hsettled, matchers, h => by
    rw [settledOperands] at hsettled
    rw [compileOperands] at h
    exact total_compileEntries (x :: xs) (Option.some.inj h) hsettled
  | .arr [], _, _, h => by cases h
  | .obj _, _, _, h => by cases h
  | .undefined, _, _, h => by cases h
  | .null, _, _, h => by cases h
  | .bool _, _, _, h => by cases h
  | .num _, _, _, h => by cases h
  | .str _, _, _, h => by cases h
  | .date _, _, _, h => by cases h
  | .regexp _, _, _, h => by cases h
  | .binary _, _, _, h => by cases h

theorem total_compileEntries : ∀ (xs : List Value) {matchers : List DocumentMatcher},
    compileEntries p xs = .ok matchers → settledEntries p xs → ∀ m ∈ matchers, Total m
  | [], _, h, _ => by
    rw [compileEntries] at h
    cases h
    exact nofun
  | .obj ms :: rest, matchers, h, hsettled => by
    rw [compileEntries] at h
    rw [settledEntries, Bool.and_eq_true] at hsettled
    obtain ⟨inner, hinner, h⟩ := bind_eq_ok h
    obtain ⟨others, hothers, h⟩ := bind_eq_ok h
    cases h
    intro m hm
    rcases List.mem_cons.mp hm with rfl | hm
    · exact total_matchAll (total_compileDocument ms hinner hsettled.1) none none
    · exact total_compileEntries rest hothers hsettled.2 m hm
  | .arr _ :: _, _, h, _ => by cases h
  | .undefined :: _, _, h, _ => by cases h
  | .null :: _, _, h, _ => by cases h
  | .bool _ :: _, _, h, _ => by cases h
  | .num _ :: _, _, h, _ => by cases h
  | .str _ :: _, _, h, _ => by cases h
  | .date _ :: _, _, h, _ => by cases h
  | .regexp _ :: _, _, h, _ => by cases h
  | .binary _ :: _, _, h, _ => by cases h

theorem total_compileValue : ∀ {root : Option NearMatcher} (value : Value) {m : BranchMatcher},
    compileValue p root value = .ok m → settledValue p value → Total m
  | root, .obj ms, m, h, hsettled => by
    rw [compileValue] at h
    rw [settledValue] at hsettled
    obtain ⟨isOperator, -, h⟩ := bind_eq_ok h
    split at h
    · obtain ⟨matchers, hmatchers, h⟩ := bind_eq_ok h
      cases h
      exact total_matchEach (total_compileOperators ms hmatchers hsettled)
    · cases h
      exact total_literal rfl
  | _, .arr _, _, h, _ => by cases h; exact total_literal rfl
  | _, .undefined, _, h, _ => by cases h; exact total_literal rfl
  | _, .null, _, h, _ => by cases h; exact total_literal rfl
  | _, .bool _, _, h, _ => by cases h; exact total_literal rfl
  | _, .num _, _, h, _ => by cases h; exact total_literal rfl
  | _, .str _, _, h, _ => by cases h; exact total_literal rfl
  | _, .date _, _, h, _ => by cases h; exact total_literal rfl
  | _, .regexp r, _, h, hsettled => by
    have hfrozen : (!isFrozen p (.regexp r)) = true := hsettled
    cases h
    exact total_literal ((Bool.not_eq_true' _).mp hfrozen)
  | _, .binary _, _, h, _ => by cases h; exact total_literal rfl

theorem total_compileOperators : ∀ {root : Option NearMatcher} {selector : List (Text × Value)}
    (es : List (Text × Value)) {matchers : List BranchMatcher},
    compileOperators p root selector es = .ok matchers → settledOperators p es → ∀ m ∈ matchers, Total m
  | _, _, [], _, h, _ => by
    rw [compileOperators] at h
    cases h
    exact nofun
  | root, selector, (operator, operand) :: rest, matchers, h, hsettled => by
    rw [compileOperators] at h
    rw [settledOperators, Bool.and_eq_true] at hsettled
    obtain ⟨matcher, hmatcher, h⟩ := bind_eq_ok h
    obtain ⟨others, hothers, h⟩ := bind_eq_ok h
    cases h
    intro m hm
    rcases List.mem_cons.mp hm with rfl | hm
    · exact total_compileOperator hsettled.1 (fun m hm hs => total_compileValue operand hm hs)
        (fun m hm hs => total_compileElement operand hm hs) hmatcher
    · exact total_compileOperators rest hothers hsettled.2 m hm

theorem total_compileElement : ∀ (value : Value) {m : DocumentMatcher},
    compileElement p value = .ok m → settledElement p value → Total m
  | .obj ms, m, h, hsettled => by
    rw [compileElement] at h
    rw [settledElement] at hsettled
    obtain ⟨matchers, hmatchers, h⟩ := bind_eq_ok h
    cases h
    exact total_matchAll (total_compileDocument ms hmatchers hsettled) none none
  | .arr _, _, h, _ => by cases h
  | .undefined, _, h, _ => by cases h
  | .null, _, h, _ => by cases h
  | .bool _, _, h, _ => by cases h
  | .num _, _, h, _ => by cases h
  | .str _, _, h, _ => by cases h
  | .date _, _, h, _ => by cases h
  | .regexp _, _, h, _ => by cases h
  | .binary _, _, h, _ => by cases h

end

end

/-! ## Matchers that throw -/

/-- The function throws on the value. -/
def Throws {α β : Type} (f : α → Except Text β) (x : α) : Prop := ∃ e, f x = .error e

/-- An invalid date equals nothing. -/
theorem equal_invalid (v : Value) : equal v (.date none) = false := by
  cases v with
  | date t => cases t <;> rfl
  | _ => rfl

theorem throws_isOption (p : Platform) {options : List Value} (h : (!options.all isLiteral) = true) :
    Throws (fun value => isOption p value options) (.date none) := by
  induction options with
  | nil => cases h
  | cons option rest ih =>
    unfold Throws isOption
    cases hoption : isOperatorObject option with
    | error e => exact ⟨e, rfl⟩
    | ok isOperator =>
      cases isOperator with
      | true => exact ⟨_, rfl⟩
      | false =>
        have hliteral : isLiteral option := by rw [isLiteral, hoption]; rfl
        rw [List.all_cons, hliteral, Bool.true_and] at h
        obtain ⟨e, he⟩ := ih h
        refine ⟨e, ?_⟩
        dsimp only [bind, Except.bind]
        rw [if_neg Bool.false_ne_true]
        have hnow : ∀ now : Bool, now = false →
            (if now then Except.ok true else isOption p (.date none) rest) = .error e := by
          rintro _ rfl
          exact he
        cases option with
        | regexp r => exact hnow _ rfl
        | _ => exact hnow _ (equal_invalid _)

/-- A text is tested. -/
theorem throws_frozen {p : Platform} {r : RegExp} (h : isFrozen p (.regexp r)) :
    Throws (literal p (.regexp r)) [⟨.str [], false, none⟩] := by
  rw [literal, show p.frozen r = true from h]
  exact ⟨_, rfl⟩

theorem throws_elementMatcher {predicate : Value → Except Text Bool} (h : Throws predicate (.date none)) :
    Throws (elementMatcher predicate true false) [⟨.date none, false, none⟩] := by
  obtain ⟨e, he⟩ := h
  refine ⟨e, ?_⟩
  change (do if ← predicate (.date none) then _ else _) = _
  rw [he]
  rfl

theorem throws_invert {matcher : BranchMatcher} {branches : List ValueBranch} (h : Throws matcher branches) :
    Throws (invert matcher) branches := by
  obtain ⟨e, he⟩ := h
  exact ⟨e, by rw [invert, he]; rfl⟩

theorem throws_elemMatch {matches' : Value → Except Text Bool} {x : Value} (h : Throws matches' x) :
    Throws (elemMatch matches') [⟨.arr [x], false, none⟩] := by
  obtain ⟨e, he⟩ := h
  refine ⟨e, ?_⟩
  rw [elemMatch]
  change (do let found ← elemMatchIn matches' none [(x, 0)]; _) = _
  rw [elemMatchIn, he]
  rfl

theorem throws_matchEach {matchers : List BranchMatcher} {m : BranchMatcher} {branches : List ValueBranch}
    (hm : m ∈ matchers) (h : Throws m branches) : Throws (matchEach matchers) branches := by
  have hresults : ∃ e, matchers.mapM (fun matcher => matcher branches) = Except.error e := by
    induction matchers with
    | nil => cases hm
    | cons n ms ih =>
      rw [List.mapM_cons]
      rcases List.mem_cons.mp hm with rfl | hm
      · obtain ⟨e, he⟩ := h
        exact ⟨e, by rw [he]; rfl⟩
      · obtain ⟨e, he⟩ := ih hm
        cases n branches with
        | error e' => exact ⟨e', rfl⟩
        | ok r => exact ⟨e, by dsimp only [bind, Except.bind]; rw [he]⟩
  obtain ⟨e, he⟩ := hresults
  exact ⟨e, by rw [matchEach, he]; rfl⟩

/-- The document with the value at the end of the parts. -/
def along : List Text → Value → Value
  | [], v => v
  | part :: parts, v => .obj [(part, along parts v)]

theorem branchAt_along {v : Value} : ∀ {parts : List Text}, parts ≠ [] →
    branchAt false parts (along parts v) none = [⟨v, false, none⟩]
  | [part], _ => by
    rw [along, branchAt, getOwn, List.lookup_cons_self]
    rfl
  | part :: part' :: parts, _ => by
    have hrest := branchAt_along (v := v) (List.cons_ne_nil part' parts)
    rw [along, branchAt, getOwn, List.lookup_cons_self, if_neg (List.cons_ne_nil _ _)]
    exact hrest

section
variable {p : Platform}

theorem throws_elementTest {operand : Value}
    (hexposed : (match isOperatorObject operand with
      | .ok true => !(compileValue p none operand).isOk || exposedValue p operand
      | .ok false => !(compileElement p operand).isOk || exposedElement p operand
      | .error _ => true) = true)
    (hvalue : ∀ m, compileValue p none operand = .ok m → exposedValue p operand →
      ∃ v, Throws m [⟨v, false, none⟩])
    (helement : ∀ m, compileElement p operand = .ok m → exposedElement p operand →
      ∃ document, isPlainObject document ∧ Throws m document) :
    ∃ x, Throws (elementTest p operand) x := by
  cases hoperand : isOperatorObject operand with
  | error e => exact ⟨.null, e, by rw [elementTest, hoperand]; rfl⟩
  | ok isOperator =>
    rw [hoperand] at hexposed
    cases isOperator with
    | true =>
      have hask : ∀ x, elementTest p operand x =
          (do .ok (← (← compileValue p none operand) [⟨x, false, none⟩]).result) := fun x => by
        rw [elementTest, hoperand]
        rfl
      cases hcompile : compileValue p none operand with
      | error e => exact ⟨.null, e, by rw [hask, hcompile]; rfl⟩
      | ok m =>
        rw [hcompile] at hexposed
        obtain ⟨v, e, he⟩ := hvalue m hcompile hexposed
        exact ⟨v, e, by rw [hask, hcompile]; dsimp only [bind, Except.bind]; rw [he]⟩
    | false =>
      have hask : ∀ x, isPlainObject x → elementTest p operand x =
          (do .ok (← (← compileElement p operand) x).result) := fun x hx => by
        rw [elementTest, hoperand]
        dsimp only [bind, Except.bind]
        rw [hx]
        rfl
      cases hcompile : compileElement p operand with
      | error e => exact ⟨.obj [], e, by rw [hask _ rfl, hcompile]; rfl⟩
      | ok m =>
        rw [hcompile] at hexposed
        obtain ⟨x, hx, e, he⟩ := helement m hcompile hexposed
        exact ⟨x, e, by rw [hask x hx, hcompile]; dsimp only [bind, Except.bind]; rw [he]⟩

theorem throws_compileOperator {root : Option NearMatcher} {selector : List (Text × Value)} {operator : Text}
    {operand : Value} {m : BranchMatcher}
    (hexposed : exposedOperator p operator operand (exposedValue p operand) (exposedElement p operand))
    (hvalue : ∀ m, compileValue p none operand = .ok m → exposedValue p operand →
      ∃ v, Throws m [⟨v, false, none⟩])
    (helement : ∀ m, compileElement p operand = .ok m → exposedElement p operand →
      ∃ document, isPlainObject document ∧ Throws m document)
    (h : compileOperator p root selector operator operand (compileValue p none operand)
      (compileElement p operand) = .ok m) : ∃ v, Throws m [⟨v, false, none⟩] := by
  unfold exposedOperator at hexposed
  unfold compileOperator at h
  by_cases hin : operator = js "$in" ∨ operator = js "$nin"
  · rw [if_pos hin] at hexposed
    iterate 6 rw [if_neg (by rcases hin with rfl | rfl <;> decide)] at h
    rw [if_pos hin] at h
    cases operand with
    | arr options =>
      have hoptions := throws_elementMatcher (throws_isOption p hexposed)
      cases h
      refine ⟨.date none, ?_⟩
      split
      · exact throws_invert hoptions
      · exact hoptions
    | _ => cases h
  rw [if_neg hin] at hexposed
  by_cases hnot : operator = js "$not"
  · rw [if_pos hnot] at hexposed
    subst hnot
    iterate 8 rw [if_neg (by decide)] at h
    rw [if_pos rfl] at h
    obtain ⟨inner, hinner, h⟩ := bind_eq_ok h
    cases h
    obtain ⟨v, hv⟩ := hvalue inner hinner hexposed
    exact ⟨v, throws_invert hv⟩
  rw [if_neg hnot] at hexposed
  by_cases helem : operator = js "$elemMatch"
  · rw [if_pos helem] at hexposed
    subst helem
    iterate 13 rw [if_neg (by decide)] at h
    rw [if_pos rfl] at h
    split at h
    · cases h
      obtain ⟨x, hx⟩ := throws_elementTest hexposed hvalue helement
      exact ⟨.arr [x], throws_elemMatch hx⟩
    · cases h
  rw [if_neg helem] at hexposed
  cases hexposed

theorem throws_compileLogical {operator : Text} {m first : DocumentMatcher} {rest : List DocumentMatcher}
    {document : Value} (hcomment : operator ≠ js "$comment")
    (h : compileLogical operator (some (.ok (first :: rest))) = .ok m) (hfirst : Throws first document) :
    Throws m document := by
  obtain ⟨e, he⟩ := hfirst
  have hsome : matchSome (first :: rest) document = .error e := by
    rw [matchSome, he]
    rfl
  unfold compileLogical at h
  rw [if_neg hcomment] at h
  split at h
  · cases h
  · dsimp only [bind, Except.bind] at h
    split at h
    · cases h
      exact ⟨e, by unfold matchAnd; dsimp only [bind, Except.bind]; rw [he]⟩
    · split at h
      · split at h
        · next heq =>
          cases h
          obtain ⟨rfl, -⟩ := List.cons.inj heq
          exact ⟨e, he⟩
        · cases h
          exact ⟨e, by dsimp only; rw [hsome]⟩
      · cases h
        exact ⟨e, by dsimp only; rw [hsome]⟩

theorem throws_matchAll {first : DocumentMatcher} {rest : List DocumentMatcher} {document : Value}
    (h : Throws first document) : Throws (matchAll (first :: rest) none none) document := by
  obtain ⟨e, he⟩ := h
  exact ⟨e, by unfold matchAll; dsimp only [bind, Except.bind]; rw [he]⟩

theorem not_operator_of_literal {ms : List (Text × Value)} (h : isOperatorObject (.obj ms) = .ok false)
    {m : Text × Value} (hm : m ∈ ms) : startsWith (js "$") m.1 = false := by
  have hsame : ∀ x ∈ ms.map fun m => startsWith (js "$") m.1 || m.1 == js "diff", x = false := by
    rw [isOperatorObject] at h
    generalize (ms.map fun m => startsWith (js "$") m.1 || m.1 == js "diff") = bs at h ⊢
    cases bs with
    | nil => exact fun x hx => absurd hx List.not_mem_nil
    | cons b bs =>
      dsimp only at h
      split at h
      · next hall =>
        obtain rfl : b = false := Except.ok.inj h
        intro x hx
        rcases List.mem_cons.mp hx with rfl | hx
        · rfl
        · exact beq_iff_eq.mp (List.all_eq_true.mp hall x hx)
      · cases h
  exact (Bool.or_eq_false_iff.mp (hsame _ (List.mem_map_of_mem hm))).1

/-- Only operators are exposed. -/
theorem not_exposed_of_literal : ∀ {ms : List (Text × Value)}, (∀ m ∈ ms, startsWith (js "$") m.1 = false) →
    exposedOperators p ms = false
  | [], _ => rfl
  | (operator, operand) :: rest, h => by
    have hne : ∀ name, startsWith (js "$") name = true → operator ≠ name := by
      rintro name hname rfl
      rw [h _ List.mem_cons_self] at hname
      cases hname
    have hin : ¬(operator = js "$in" ∨ operator = js "$nin") := by
      rintro (heq | heq)
      · exact hne _ (by decide) heq
      · exact hne _ (by decide) heq
    rw [exposedOperators, not_exposed_of_literal fun m hm => h m (List.mem_cons_of_mem _ hm), Bool.or_false]
    unfold exposedOperator
    rw [if_neg hin, if_neg (hne _ (by decide)), if_neg (hne _ (by decide))]

mutual

theorem throws_compileDocument : ∀ {root : Option NearMatcher} (ms : List (Text × Value))
    {matchers : List DocumentMatcher}, compileDocument p root ms = .ok matchers → exposedDocument p ms →
    ∃ document, isPlainObject document ∧ Throws (matchAll matchers none none) document
  | _, [], _, _, hexposed => by
    rw [exposedDocument] at hexposed
    cases hexposed
  | root, (path, value) :: rest, matchers, h, hexposed => by
    rw [compileDocument] at h
    rw [exposedDocument] at hexposed
    obtain ⟨matcher, hmatcher, h⟩ := bind_eq_ok h
    obtain ⟨others, -, h⟩ := bind_eq_ok h
    cases h
    have hfirst : ∃ document, isPlainObject document ∧ Throws matcher document := by
      unfold compileField at hmatcher
      split at hmatcher
      · next hroot =>
        rw [if_pos hroot, Bool.and_eq_true, bne_iff_ne] at hexposed
        cases hoperands : compileOperands p value with
        | none =>
          rw [hoperands] at hmatcher
          unfold compileLogical at hmatcher
          rw [if_neg hexposed.1] at hmatcher
          split at hmatcher <;> cases hmatcher
        | some compiled =>
          rw [hoperands] at hmatcher
          cases compiled with
          | error e =>
            unfold compileLogical at hmatcher
            rw [if_neg hexposed.1] at hmatcher
            split at hmatcher <;> cases hmatcher
          | ok matchers =>
            obtain ⟨first, others, document, rfl, hobject, hthrows⟩ :=
              throws_compileOperands value hexposed.2 hoperands
            exact ⟨document, hobject, throws_compileLogical hexposed.1 hmatcher hthrows⟩
      · next hroot =>
        rw [if_neg hroot] at hexposed
        obtain ⟨valueMatcher, hvalue, hmatcher⟩ := bind_eq_ok hmatcher
        cases hmatcher
        obtain ⟨v, e, he⟩ := throws_compileValue value hvalue hexposed
        have hne : splitPath path ≠ [] := List.splitOn_ne_nil 46 path
        refine ⟨along (splitPath path) v, ?_, e, ?_⟩
        · cases hparts : splitPath path with
          | nil => exact absurd hparts hne
          | cons part parts => rfl
        · change valueMatcher (branchAt false (splitPath path) (along (splitPath path) v) none) = _
          rw [branchAt_along hne, he]
    obtain ⟨document, hobject, hthrows⟩ := hfirst
    exact ⟨document, hobject, throws_matchAll hthrows⟩

theorem throws_compileOperands : ∀ (value : Value), exposedOperands p value → ∀ {matchers},
    compileOperands p value = some (.ok matchers) →
    ∃ first others document, matchers = first :: others ∧ isPlainObject document ∧ Throws first document
  | .arr (x :: xs), hexposed, matchers, h => by
    rw [exposedOperands] at hexposed
    rw [compileOperands] at h
    exact throws_compileEntries (x :: xs) (Option.some.inj h) hexposed
  | .arr [], _, _, h => by cases h
  | .obj _, _, _, h => by cases h
  | .undefined, _, _, h => by cases h
  | .null, _, _, h => by cases h
  | .bool _, _, _, h => by cases h
  | .num _, _, _, h => by cases h
  | .str _, _, _, h => by cases h
  | .date _, _, _, h => by cases h
  | .regexp _, _, _, h => by cases h
  | .binary _, _, _, h => by cases h

theorem throws_compileEntries : ∀ (xs : List Value) {matchers : List DocumentMatcher},
    compileEntries p xs = .ok matchers → exposedEntries p xs →
    ∃ first others document, matchers = first :: others ∧ isPlainObject document ∧ Throws first document
  | .obj ms :: rest, matchers, h, hexposed => by
    rw [compileEntries] at h
    rw [exposedEntries] at hexposed
    obtain ⟨inner, hinner, h⟩ := bind_eq_ok h
    obtain ⟨others, -, h⟩ := bind_eq_ok h
    cases h
    obtain ⟨document, hobject, hthrows⟩ := throws_compileDocument ms hinner hexposed
    exact ⟨_, others, document, rfl, hobject, hthrows⟩
  | [], _, _, hexposed => by cases hexposed
  | .arr _ :: _, _, _, hexposed => by cases hexposed
  | .undefined :: _, _, _, hexposed => by cases hexposed
  | .null :: _, _, _, hexposed => by cases hexposed
  | .bool _ :: _, _, _, hexposed => by cases hexposed
  | .num _ :: _, _, _, hexposed => by cases hexposed
  | .str _ :: _, _, _, hexposed => by cases hexposed
  | .date _ :: _, _, _, hexposed => by cases hexposed
  | .regexp _ :: _, _, _, hexposed => by cases hexposed
  | .binary _ :: _, _, _, hexposed => by cases hexposed

theorem throws_compileValue : ∀ {root : Option NearMatcher} (value : Value) {m : BranchMatcher},
    compileValue p root value = .ok m → exposedValue p value → ∃ v, Throws m [⟨v, false, none⟩]
  | root, .obj ms, m, h, hexposed => by
    rw [compileValue] at h
    rw [exposedValue] at hexposed
    obtain ⟨isOperator, hoperator, h⟩ := bind_eq_ok h
    split at h
    · obtain ⟨matchers, hmatchers, h⟩ := bind_eq_ok h
      cases h
      obtain ⟨matcher, hmem, v, hv⟩ := throws_compileOperators ms hmatchers hexposed
      exact ⟨v, throws_matchEach hmem hv⟩
    · next hliteral =>
      rw [Bool.not_eq_true] at hliteral
      rw [hliteral] at hoperator
      rw [not_exposed_of_literal fun m hm => not_operator_of_literal hoperator hm] at hexposed
      cases hexposed
  | _, .arr _, _, _, hexposed => by cases hexposed
  | _, .undefined, _, _, hexposed => by cases hexposed
  | _, .null, _, _, hexposed => by cases hexposed
  | _, .bool _, _, _, hexposed => by cases hexposed
  | _, .num _, _, _, hexposed => by cases hexposed
  | _, .str _, _, _, hexposed => by cases hexposed
  | _, .date _, _, _, hexposed => by cases hexposed
  | _, .regexp r, _, h, hexposed => by
    have hfrozen : isFrozen p (.regexp r) = true := hexposed
    cases h
    exact ⟨.str [], throws_frozen hfrozen⟩
  | _, .binary _, _, _, hexposed => by cases hexposed

theorem throws_compileOperators : ∀ {root : Option NearMatcher} {selector : List (Text × Value)}
    (es : List (Text × Value)) {matchers : List BranchMatcher},
    compileOperators p root selector es = .ok matchers → exposedOperators p es →
    ∃ m ∈ matchers, ∃ v, Throws m [⟨v, false, none⟩]
  | _, _, [], _, _, hexposed => by
    rw [exposedOperators] at hexposed
    cases hexposed
  | root, selector, (operator, operand) :: rest, matchers, h, hexposed => by
    rw [compileOperators] at h
    rw [exposedOperators, Bool.or_eq_true] at hexposed
    obtain ⟨matcher, hmatcher, h⟩ := bind_eq_ok h
    obtain ⟨others, hothers, h⟩ := bind_eq_ok h
    cases h
    rcases hexposed with hexposed | hexposed
    · exact ⟨matcher, List.mem_cons_self, throws_compileOperator hexposed
        (fun m hm hs => throws_compileValue operand hm hs)
        (fun m hm hs => throws_compileElement operand hm hs) hmatcher⟩
    · obtain ⟨m, hm, hv⟩ := throws_compileOperators rest hothers hexposed
      exact ⟨m, List.mem_cons_of_mem _ hm, hv⟩

theorem throws_compileElement : ∀ (value : Value) {m : DocumentMatcher},
    compileElement p value = .ok m → exposedElement p value →
    ∃ document, isPlainObject document ∧ Throws m document
  | .obj ms, m, h, hexposed => by
    rw [compileElement] at h
    rw [exposedElement] at hexposed
    obtain ⟨matchers, hmatchers, h⟩ := bind_eq_ok h
    cases h
    exact throws_compileDocument ms hmatchers hexposed
  | .arr _, _, _, hexposed => by cases hexposed
  | .undefined, _, _, hexposed => by cases hexposed
  | .null, _, _, hexposed => by cases hexposed
  | .bool _, _, _, hexposed => by cases hexposed
  | .num _, _, _, hexposed => by cases hexposed
  | .str _, _, _, hexposed => by cases hexposed
  | .date _, _, _, hexposed => by cases hexposed
  | .regexp _, _, _, hexposed => by cases hexposed
  | .binary _, _, _, hexposed => by cases hexposed

end

end

/-! ## Selectors and cursors -/

section
variable {p : Platform} {selector : Value}

theorem total_matcher {isUpdate : Bool} {m : DocumentMatcher} (hsettled : settled p selector)
    (h : matcher p isUpdate selector = .ok m) : Total m := by
  unfold matcher compileSelector at h
  cases selector with
  | str id =>
    cases h
    exact fun _ => ⟨_, rfl⟩
  | obj ms =>
    dsimp only at h
    rw [settled] at hsettled
    split at h
    · cases h
      exact fun _ => ⟨_, rfl⟩
    · next hid =>
      rw [Bool.not_eq_true] at hid
      rw [hid, Bool.false_or] at hsettled
      obtain ⟨matchers, hmatchers, h⟩ := bind_eq_ok h
      cases h
      exact total_matchAll (total_compileDocument ms hmatchers hsettled) none none
  | _ =>
    dsimp only at h
    split at h
    · cases h
      exact fun _ => ⟨_, rfl⟩
    · cases h

theorem throws_matcher {isUpdate : Bool} {m : DocumentMatcher} (hexposed : exposed p selector)
    (h : matcher p isUpdate selector = .ok m) : ∃ document, isPlainObject document ∧ Throws m document := by
  cases selector with
  | obj ms =>
    rw [exposed, Bool.and_eq_true, Bool.not_eq_true'] at hexposed
    rw [matcher, compileSelector, hexposed.1, if_neg Bool.false_ne_true] at h
    obtain ⟨matchers, hmatchers, h⟩ := bind_eq_ok h
    cases h
    exact throws_compileDocument ms hmatchers hexposed.2
  | _ => cases hexposed

theorem selectDocuments_total (string : Value → Text) {m : DocumentMatcher} (h : Total m) :
    Total (selectDocuments string m) := by
  intro documents
  induction documents with
  | nil => exact ⟨_, rfl⟩
  | cons document rest ih =>
    obtain ⟨r, hr⟩ := h document
    obtain ⟨⟨selected, distances⟩, hselected⟩ := ih
    rw [selectDocuments, hr]
    dsimp only [bind, Except.bind]
    rw [hselected]
    exact ⟨_, rfl⟩

/-- A cursor that was made with a selector in order. Only a sort specification throws when the
documents are there. -/
theorem total_handleMutation {options : FindOptions} {c : Cursor} (hsettled : settled p selector)
    (hsort : ∀ specifier, options.sort ≠ some (.spec specifier)) (h : find p selector options = .ok c)
    (i : Identity) (previous documents : List Value) :
    ∃ r, c.handleMutation p i previous documents = .ok r := by
  unfold find at h
  obtain ⟨m, hm, h⟩ := bind_eq_ok h
  obtain ⟨sorter, hsorter, h⟩ := bind_eq_ok h
  obtain ⟨projection, -, h⟩ := bind_eq_ok h
  cases h
  obtain ⟨⟨selected, distances⟩, hselected⟩ := selectDocuments_total (stringOf p)
    (total_matcher hsettled hm) documents
  have hsorted : ∃ sorted, sorter.elim (.ok selected) (fun sorter => sorter.sort distances selected) =
      Except.ok sorted := by
    cases hoption : options.sort with
    | none =>
      rw [hoption] at hsorter
      cases hsorter
      split
      · exact ⟨_, rfl⟩
      · exact ⟨_, rfl⟩
    | some sort =>
      cases sort with
      | function compare =>
        rw [hoption] at hsorter
        cases hsorter
        exact ⟨_, rfl⟩
      | spec specifier => exact absurd hoption (hsort specifier)
  obtain ⟨sorted, hsorted⟩ := hsorted
  unfold Cursor.handleMutation Cursor.fetch Cursor.rawDocuments
  dsimp only [bind, Except.bind]
  rw [hselected]
  dsimp only
  rw [hsorted]
  exact ⟨_, rfl⟩

/-- `handleMutation` of a cursor, as an observer of the store. -/
def observer (p : Platform) (i : Identity) (c : Cursor) (previous : List Value)
    (store : OMap (Option Text) Value) : Except Text Unit :=
  (c.handleMutation p i previous store.values).map fun _ => ()

/-- `{ tags: { $elemMatch: { n: { $gt: 1 } } } }`. -/
def orderly : Value :=
  .obj [(js "tags", .obj [(js "$elemMatch", .obj [(js "n", .obj [(js "$gt", .num (.finite (ofInt 1)))])])])]

/-- `{ n: { $in: [1, { $gt: 1 }] } }`. -/
def nestedOperator : Value :=
  .obj [(js "n", .obj [(js "$in", .arr [.num (.finite (ofInt 1)), .obj [(js "$gt", .num (.finite (ofInt 1)))]])])]

/-- No two objects are one. -/
def distinctObjects : Identity := .distinct

end

end TypeFerry.Minimongo.FailFast
