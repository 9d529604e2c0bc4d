import TypeFerry.Minimongo.FailFast
import TypeFerry.Minimongo.Routes
import TypeFerry.Minimongo.Selection
import TypeFerry.Minimongo.SetInsertion

/-! # Positional updates

The `$` of a modifier stands for the first index that the match came through. Where
the path of the condition has an index of its own before the `$`, that index, or
the element of the outer array that matched, is taken for the index of the inner
array. -/
namespace TypeFerry.Minimongo.Positional
open TypeFerry.Lib.Numeral TypeFerry.Lib.JsonText TypeFerry.Lib.OrderedMap TypeFerry.Ejson.Clone
open TypeFerry.Ejson.Canonical TypeFerry.Ejson.Encode TypeFerry.Ejson.Equals
open TypeFerry.Minimongo.Values TypeFerry.Minimongo.Matcher TypeFerry.Minimongo.Modifier
open TypeFerry.Minimongo.Collection TypeFerry.Minimongo.Atomicity TypeFerry.Minimongo.Order
open TypeFerry.Minimongo.Names
open TypeFerry.Minimongo.Places TypeFerry.Minimongo.Locality TypeFerry.Minimongo.Routes
open TypeFerry.Minimongo.Selection TypeFerry.Minimongo.SetInsertion TypeFerry.Minimongo.FailFast

/-! ## Conditions -/

/-- A test of values, which may throw. -/
abbrev Test := Value → Except Text Bool

/-- A missing value is compared as `null`. -/
def comparable : Value → Value
  | .undefined => .null
  | v => v

/-- The comparison of a value with an operand. -/
def compares (operand : Value) (order : Int → Bool) (value : Value) : Bool :=
  !isArray operand && (minimongoType (comparable value) == minimongoType (comparable operand) &&
    order (compareValues (comparable value) (comparable operand)))

/-- The comparison operators. -/
def comparisons : List (Text × (Int → Bool)) :=
  [(js "$lt", fun r => r < 0), (js "$lte", fun r => r ≤ 0), (js "$gt", fun r => r > 0),
    (js "$gte", fun r => r ≥ 0)]

/-- A single condition: where it looks, and what it asks of the values there. -/
inductive Condition (p : Platform) : Value → Search → Test → Prop
  | equality {expected : Value} (hliteral : isOperatorObject expected = .ok false)
      (hregexp : ∀ r, expected ≠ .regexp r) :
      Condition p expected .each fun value => .ok (equal expected value)
  | eq (operand : Value) :
      Condition p (.obj [(js "$eq", operand)]) .each fun value => .ok (equal operand value)
  | comparison {operator : Text} {order : Int → Bool} (operand : Value)
      (hoperator : (operator, order) ∈ comparisons) :
      Condition p (.obj [(operator, operand)]) .each fun value => .ok (compares operand order value)
  | elemMatch {operand : Value} (hoperand : isPlainObject operand) :
      Condition p (.obj [(js "$elemMatch", operand)]) .elements (elementTest p operand)

/-- The first route that passes the test decides. -/
def Decides (search : Search) (test : Test) (matcher : BranchMatcher) : Prop :=
  ∀ rs : List Route, matcher (rs.map (Route.branch none)) =
    findBranch test ((candidates search rs).map (Route.branch none))

theorem decides_anyElement (predicate : Value → Bool) :
    Decides .each (fun value => .ok (predicate value)) (anyElement predicate) := by
  intro rs
  rw [anyElement, elementMatcher, if_pos rfl, expandArrays_eq]

/-- A search has no distance. -/
theorem findBranch_cases {test : Test} {bs : List ValueBranch} {found : MatchResult}
    (h : findBranch test bs = .ok found) :
    found = .only false ∨ ∃ earlier b later, bs = earlier ++ b :: later ∧
      (∀ x ∈ earlier, test x.value = .ok false) ∧ test b.value = .ok true ∧
      found = ⟨true, none, b.arrayIndices⟩ := by
  induction bs with
  | nil =>
    cases h
    exact .inl rfl
  | cons b bs ih =>
    obtain ⟨passed, hpassed, h⟩ := bind_eq_ok h
    cases passed with
    | true =>
      cases h
      exact .inr ⟨[], b, bs, rfl, nofun, hpassed, rfl⟩
    | false =>
      obtain hnone | ⟨earlier, b', later, rfl, hearlier, hb, hfound⟩ := ih h
      · exact .inl hnone
      · refine .inr ⟨b :: earlier, b', later, rfl, fun x hx => ?_, hb, hfound⟩
        rcases List.mem_cons.mp hx with rfl | hx
        · exact hpassed
        · exact hearlier x hx

theorem decides_matchEach {search : Search} {test : Test} {matcher : BranchMatcher}
    (h : Decides search test matcher) : Decides search test (matchEach [matcher]) := by
  intro rs
  unfold matchEach
  rw [List.mapM_cons, List.mapM_nil, h rs]
  cases hfound : findBranch test ((candidates search rs).map (Route.branch none)) with
  | error e => rfl
  | ok found =>
    obtain rfl | ⟨-, b, -, -, -, -, rfl⟩ := findBranch_cases hfound
    · rfl
    · obtain ⟨v, d, indices⟩ := b
      cases indices <;> rfl

theorem findBranch_const_false (bs : List ValueBranch) :
    findBranch (fun _ => .ok false) bs = .ok (.only false) := by
  induction bs with
  | nil => rfl
  | cons b bs ih => exact ih

theorem decides_comparison (operand : Value) (order : Int → Bool) :
    Decides .each (fun value => .ok (compares operand order value)) (comparison operand order) := by
  intro rs
  unfold comparison compares
  cases isArray operand with
  | true => exact (findBranch_const_false _).symm
  | false => exact decides_anyElement _ rs

theorem compileValue_single {p : Platform} {root : Option NearMatcher} {operator : Text} {operand : Value}
    (hoperator : startsWith (js "$") operator) :
    compileValue p root (.obj [(operator, operand)]) = (do
      let matcher ← compileOperator p root [(operator, operand)] operator operand
        (compileValue p none operand) (compileElement p operand)
      .ok (matchEach [matcher])) := by
  have hobject : isOperatorObject (.obj [(operator, operand)]) = .ok true := by
    simp [isOperatorObject, hoperator]
  rw [compileValue, hobject]
  dsimp only [bind, Except.bind]
  rw [if_pos rfl, compileOperators, compileOperators]
  dsimp only [bind, Except.bind]
  cases compileOperator p root [(operator, operand)] operator operand (compileValue p none operand)
    (compileElement p operand) <;> rfl

/-- A matcher that finds the first route is found under its operator. -/
theorem decides_operator {p : Platform} {root : Option NearMatcher} {operator : Text} {operand : Value}
    {search : Search} {test : Test} {matcher : BranchMatcher} (hoperator : startsWith (js "$") operator)
    (hmatcher : compileOperator p root [(operator, operand)] operator operand
      (compileValue p none operand) (compileElement p operand) = .ok matcher)
    (hdecides : Decides search test matcher) :
    ∃ matcher, compileValue p root (.obj [(operator, operand)]) = .ok matcher ∧ Decides search test matcher := by
  rw [compileValue_single hoperator, hmatcher]
  exact ⟨matchEach [matcher], rfl, decides_matchEach hdecides⟩

/-- **A condition is decided by the first route that it holds for.** -/
theorem decides_of_condition {p : Platform} {root : Option NearMatcher} {c : Value} {search : Search}
    {test : Test} (hc : Condition p c search test) :
    ∃ matcher, compileValue p root c = .ok matcher ∧ Decides search test matcher := by
  cases hc with
  | equality hliteral hregexp =>
    refine ⟨anyElement (equal c), ?_, decides_anyElement _⟩
    cases c with
    | obj ms =>
      rw [compileValue, hliteral]
      rfl
    | regexp r => exact absurd rfl (hregexp r)
    | _ => rfl
  | eq operand =>
    refine decides_operator (by decide) ?_ (decides_anyElement (equal operand))
    unfold compileOperator
    rw [if_neg (by decide), if_neg (by decide), if_neg (by decide), if_neg (by decide), if_pos rfl]
  | comparison operand hoperator =>
    simp only [comparisons, List.mem_cons, Prod.mk.injEq, List.not_mem_nil, or_false] at hoperator
    obtain ⟨rfl, rfl⟩ | ⟨rfl, rfl⟩ | ⟨rfl, rfl⟩ | ⟨rfl, rfl⟩ := hoperator
    · refine decides_operator (by decide) ?_ (decides_comparison operand _)
      unfold compileOperator
      rw [if_pos rfl]
    · refine decides_operator (by decide) ?_ (decides_comparison operand _)
      unfold compileOperator
      rw [if_neg (by decide), if_pos rfl]
    · refine decides_operator (by decide) ?_ (decides_comparison operand _)
      unfold compileOperator
      rw [if_neg (by decide), if_neg (by decide), if_pos rfl]
    · refine decides_operator (by decide) ?_ (decides_comparison operand _)
      unfold compileOperator
      rw [if_neg (by decide), if_neg (by decide), if_neg (by decide), if_pos rfl]
  | elemMatch hoperand =>
    have hdecides : ∀ operand, Decides .elements (elementTest p operand) (elemMatch (elementTest p operand)) :=
      fun operand rs => elemMatch_eq _ none rs
    refine decides_operator (by decide) ?_ (hdecides _)
    unfold compileOperator
    iterate 12 rw [if_neg (by decide)]
    rw [if_pos rfl, if_pos hoperand]
    rfl

/-! ## The first array of a path -/

/-- The path comes to its first array. -/
structure FirstArray (keys : List Text) (xs : List Value) (document : Value) : Prop where
  reads : readPath keys document = .arr xs
  first : ∀ q, q <+: keys → q ≠ keys → isArray (readPath q document) = false

theorem FirstArray.tail {key : Text} {keys : List Text} {xs : List Value} {document : Value}
    (h : FirstArray (key :: keys) xs document) : FirstArray keys xs (member document key) :=
  ⟨h.reads, fun q hq hne => h.first (key :: q) (List.cons_prefix_cons.mpr ⟨rfl, hq⟩)
    fun heq => hne (List.cons.inj heq).2⟩

/-- What is on the way to an array, and is none, is an object. -/
theorem FirstArray.head {key : Text} {keys : List Text} {xs : List Value} {document : Value}
    (h : FirstArray (key :: keys) xs document) : ∃ ms, document = .obj ms := by
  have hnot := h.first [] List.nil_prefix (List.cons_ne_nil _ _).symm
  have hreads := h.reads
  cases document with
  | obj ms => exact ⟨ms, rfl⟩
  | arr xs => cases hnot
  | _ =>
    rw [readPath, show member _ key = Value.undefined from rfl, readPath_undefined] at hreads
    cases hreads

theorem exists_firstArray {keys : List Text} {xs : List Value} {document : Value}
    (h : readPath keys document = .arr xs) :
    ∃ before after ys, keys = before ++ after ∧ FirstArray before ys document := by
  induction keys generalizing document with
  | nil => exact ⟨[], [], xs, rfl, h, fun q hq hne => absurd (List.prefix_nil.mp hq) hne⟩
  | cons key keys ih =>
    cases hdocument : isArray document with
    | true =>
      cases document with
      | arr ys => exact ⟨[], key :: keys, ys, rfl, rfl, fun q hq hne => absurd (List.prefix_nil.mp hq) hne⟩
      | _ => cases hdocument
    | false =>
      obtain ⟨before, after, ys, rfl, hfirst⟩ := ih h
      refine ⟨key :: before, after, ys, rfl, hfirst.reads, fun q hq hne => ?_⟩
      cases q with
      | nil => exact hdocument
      | cons k q =>
        obtain ⟨rfl, htail⟩ := List.cons_prefix_cons.mp hq
        exact hfirst.first q htail fun heq => hne (heq ▸ rfl)

/-- The routes into the elements that are objects. -/
def inside (parts : List Text) (xs : List Value) : List Route :=
  xs.zipIdx.flatMap fun e =>
    if isPlainObject e.1 then (routes parts e.1).map (Route.under [indexText e.2] [.index e.2]) else []

/-- **The routes at the first array**: those under the index that the path goes on with, then
those into the elements. -/
theorem routes_of_firstArray {parts : List Text} (hparts : parts ≠ []) : ∀ {keys : List Text}
    {xs : List Value} {document : Value}, keys ≠ [] → FirstArray keys xs document →
    routes (keys ++ parts) document =
      (routes parts (.arr xs) ++ inside parts xs).map (Route.under keys []) := by
  intro keys
  induction keys with
  | nil =>
    intro xs document hkeys
    exact absurd rfl hkeys
  | cons key keys ih =>
    intro xs document _ h
    obtain ⟨ms, rfl⟩ := h.head
    have hreads := h.reads
    rw [List.cons_append, routes, if_neg (by simp [hparts])]
    cases keys with
    | nil =>
      rw [readPath, readPath, member] at hreads
      rw [hreads]
      dsimp only
      rw [List.nil_append, List.map_append, inside, List.map_flatMap]
      congr 1
      refine List.flatMap_congr fun e _ => ?_
      split
      · rw [List.map_map]
        exact List.map_congr_left fun r _ => (under_under [key] [indexText e.2] [] [.index e.2] r).symm
      · rfl
    | cons k ks =>
      have htail := h.tail
      obtain ⟨ns, hns⟩ := htail.head
      rw [member] at hns
      have hrest := ih (List.cons_ne_nil _ _) htail
      rw [member, hns] at hrest
      rw [hns]
      dsimp only
      rw [hrest, List.map_map]
      exact List.map_congr_left fun r _ => under_under [key] (k :: ks) [] [] r

/-- A path that ends at its first array has one route. -/
theorem routes_to_firstArray : ∀ {keys : List Text} {xs : List Value} {document : Value}, keys ≠ [] →
    FirstArray keys xs document → routes keys document = [⟨keys, .arr xs, false, []⟩] := by
  intro keys
  induction keys with
  | nil =>
    intro xs document hkeys
    exact absurd rfl hkeys
  | cons key keys ih =>
    intro xs document _ h
    obtain ⟨ms, rfl⟩ := h.head
    have hreads := h.reads
    rw [routes]
    cases keys with
    | nil =>
      rw [readPath, readPath, member] at hreads
      rw [if_pos rfl, hreads]
    | cons k ks =>
      have htail := h.tail
      obtain ⟨ns, hns⟩ := htail.head
      rw [member] at hns
      have hrest := ih (List.cons_ne_nil _ _) htail
      rw [member, hns] at hrest
      rw [if_neg (List.cons_ne_nil _ _), hns]
      dsimp only
      rw [hrest]
      rfl

theorem candidates_append (search : Search) (rs rs' : List Route) :
    candidates search (rs ++ rs') = candidates search rs ++ candidates search rs' :=
  List.flatMap_append

theorem asked_under (search : Search) (keys : List Text) (steps : List ArrayStep) (r : Route) :
    asked search (r.under keys steps) = (asked search r).map (Route.under keys steps) := by
  have helements : ∀ xs : List Value, (elements xs).map (Route.under (keys ++ r.keys) (steps ++ r.steps)) =
      ((elements xs).map (Route.under r.keys r.steps)).map (Route.under keys steps) := by
    intro xs
    rw [List.map_map]
    exact List.map_congr_left fun e _ => (under_under keys r.keys steps r.steps e).symm
  cases search with
  | each =>
    rw [asked, asked, List.map_cons, under_value]
    cases r.value with
    | arr xs =>
      rw [show (r.under keys steps).dontIterate = r.dontIterate from rfl]
      dsimp only
      split
      · rfl
      · rw [under_keys, under_steps, helements]
    | _ => rfl
  | elements =>
    rw [asked, asked, under_value]
    cases r.value with
    | arr xs => exact helements xs
    | _ => rfl

theorem candidates_under (search : Search) (keys : List Text) (steps : List ArrayStep) (rs : List Route) :
    candidates search (rs.map (Route.under keys steps)) =
      (candidates search rs).map (Route.under keys steps) := by
  rw [candidates, candidates, List.flatMap_map, List.map_flatMap]
  exact List.flatMap_congr fun r _ => asked_under search keys steps r

/-! ## The route that decides -/

/-- The indices of a route, which the `$` of a modifier are taken from. -/
def Route.indices (r : Route) : List ℕ := positions (some r.steps)

theorem positions_branch (r : Route) : positions (r.branch none).arrayIndices = Route.indices r := by
  unfold Route.branch Route.indices
  split
  · next h => rw [h]; rfl
  · rfl

theorem indices_under (keys : List Text) (steps : List ArrayStep) (r : Route) :
    Route.indices (r.under keys steps) = positions (some steps) ++ Route.indices r :=
  List.filterMap_append

/-- The condition holds of one of the values that it is asked about. -/
def Holds (search : Search) (test : Test) (rs : List Route) : Prop :=
  ∃ r ∈ candidates search rs, test r.value = .ok true

/-- The first candidate that passes. -/
structure First (test : Test) (cs earlier : List Route) (r : Route) : Prop where
  split : ∃ later, cs = earlier ++ r :: later
  failed : ∀ x ∈ earlier, test x.value = .ok false
  passed : test r.value = .ok true

theorem First.mem {test : Test} {cs earlier : List Route} {r : Route} (h : First test cs earlier r) :
    r ∈ cs := by
  obtain ⟨later, rfl⟩ := h.split
  exact List.mem_append_right _ List.mem_cons_self

theorem First.of_map {test : Test} {cs earlier : List Route} {r : Route} {keys : List Text}
    {steps : List ArrayStep} (h : First test (cs.map (Route.under keys steps)) earlier r) :
    ∃ earlier' r', First test cs earlier' r' ∧ r = Route.under keys steps r' := by
  obtain ⟨⟨later, hsplit⟩, hfailed, hpassed⟩ := h
  obtain ⟨cs₁, cs₂, rfl, rfl, hcs₂⟩ := List.map_eq_append_iff.mp hsplit
  obtain ⟨r', cs₃, rfl, rfl, -⟩ := List.map_eq_cons_iff.mp hcs₂
  exact ⟨cs₁, r', ⟨⟨cs₃, rfl⟩, fun x hx => hfailed (x.under keys steps) (List.mem_map_of_mem hx),
    hpassed⟩, rfl⟩

/-- The first one of two lists is in the first list, or nothing in that list passes. -/
theorem First.of_append {test : Test} {cs ds earlier : List Route} {r : Route}
    (h : First test (cs ++ ds) earlier r) :
    First test cs earlier r ∨ (∀ x ∈ cs, test x.value = .ok false) ∧ ∃ earlier', First test ds earlier' r := by
  obtain ⟨⟨later, hsplit⟩, hfailed, hpassed⟩ := h
  obtain ⟨as, rfl, rfl⟩ | ⟨as, rfl, has⟩ := List.append_eq_append_iff.mp hsplit
  · exact .inr ⟨fun x hx => hfailed x (List.mem_append_left _ hx), as, ⟨later, rfl⟩,
      fun x hx => hfailed x (List.mem_append_right _ hx), hpassed⟩
  · cases as with
    | nil =>
      rw [List.append_nil]
      exact .inr ⟨hfailed, [], ⟨later, has.symm⟩, nofun, hpassed⟩
    | cons a as =>
      obtain ⟨rfl, rfl⟩ := List.cons.inj has
      exact .inl ⟨⟨as, rfl⟩, hfailed, hpassed⟩

/-- The first one of some blocks is the first one of its block, and nothing before it passes. -/
theorem First.of_flatMap {α : Type} {test : Test} {f : α → List Route} : ∀ {es : List α}
    {earlier : List Route} {r : Route}, First test (es.flatMap f) earlier r →
    ∃ before e after, es = before ++ e :: after ∧ (∃ earlier', First test (f e) earlier' r) ∧
      ∀ b ∈ before, ∀ x ∈ f b, test x.value = .ok false := by
  intro es
  induction es with
  | nil =>
    intro earlier r h
    exact absurd h.mem List.not_mem_nil
  | cons e es ih =>
    intro earlier r h
    rw [List.flatMap_cons] at h
    obtain hhead | ⟨hnone, earlier', htail⟩ := h.of_append
    · exact ⟨[], e, es, rfl, ⟨earlier, hhead⟩, nofun⟩
    · obtain ⟨before, e', after, rfl, hfirst, hbefore⟩ := ih htail
      refine ⟨e :: before, e', after, rfl, hfirst, fun b hb => ?_⟩
      rcases List.mem_cons.mp hb with rfl | hb
      · exact hnone
      · exact hbefore b hb

/-- A route below an array comes through one of its elements. -/
structure Below (xs : List Value) (i : ℕ) (r : Route) : Prop where
  key : [indexText i] <+: r.keys
  index : ∃ rest, Route.indices r = i :: rest
  bound : i < xs.length

theorem Below.under {xs : List Value} {i : ℕ} {r : Route} (h : Below xs i r) (keys : List Text) :
    keys ++ [indexText i] <+: (r.under keys []).keys ∧
      ∃ rest, Route.indices (r.under keys []) = i :: rest :=
  ⟨(List.prefix_append_right_inj keys).mpr h.key, h.index⟩

theorem below_index {xs : List Value} {i : ℕ} (hi : i < xs.length) (steps : List ArrayStep) (r : Route) :
    Below xs i (r.under [indexText i] (.index i :: steps)) :=
  ⟨List.prefix_append [indexText i] r.keys, ⟨_, indices_under [indexText i] (.index i :: steps) r⟩, hi⟩

/-- The routes under an explicit index. -/
theorem below_of_mem_direct {search : Search} {part : Text} {parts : List Text} {xs : List Value} {r : Route}
    (hr : r ∈ candidates search (routes (part :: parts) (.arr xs))) : Below xs (keyIndex part) r := by
  rw [routes] at hr
  split at hr
  · cases hr
  · next hindex =>
    have hlt : keyIndex part < xs.length := by
      simp only [Bool.or_eq_true, decide_eq_true_eq, not_or, not_le] at hindex
      exact hindex.2
    dsimp only at hr
    split at hr
    · have hunder : [Route.mk [indexText (keyIndex part)] (xs.getD (keyIndex part) .undefined)
          (isArray (xs.getD (keyIndex part) .undefined)) [.index (keyIndex part), .x]] =
          [Route.mk [] (xs.getD (keyIndex part) .undefined)
            (isArray (xs.getD (keyIndex part) .undefined)) []].map
            (Route.under [indexText (keyIndex part)] [.index (keyIndex part), .x]) := rfl
      rw [hunder, candidates_under] at hr
      obtain ⟨r, -, rfl⟩ := List.mem_map.mp hr
      exact below_index hlt [.x] r
    · rw [candidates_under] at hr
      obtain ⟨r, -, rfl⟩ := List.mem_map.mp hr
      exact below_index hlt [.x] r

theorem candidates_inside (search : Search) (parts : List Text) (xs : List Value) :
    candidates search (inside parts xs) = xs.zipIdx.flatMap fun e =>
      if isPlainObject e.1 then
        (candidates search (routes parts e.1)).map (Route.under [indexText e.2] [.index e.2])
      else [] := by
  rw [candidates, inside, List.flatMap_assoc]
  refine List.flatMap_congr fun e _ => ?_
  split
  · exact candidates_under search _ _ _
  · rfl

/-- The condition holds inside of an element that is an object. -/
def HoldsInside (search : Search) (test : Test) (parts : List Text) (xs : List Value) (i : ℕ) : Prop :=
  ∃ x, xs[i]? = some x ∧ isPlainObject x ∧ Holds search test (routes parts x)

/-- The index at which a match goes through an array: the index that the path goes on with, or
that of the first element that it holds inside of. -/
def GoesThrough (search : Search) (test : Test) (parts : List Text) (xs : List Value) (i : ℕ) : Prop :=
  (Holds search test (routes parts (.arr xs)) ∧ i = keyIndex (parts.headD [])) ∨
    ¬Holds search test (routes parts (.arr xs)) ∧ HoldsInside search test parts xs i ∧
      ∀ j < i, ¬HoldsInside search test parts xs j

theorem goesThrough_unique {search : Search} {test : Test} {parts : List Text} {xs : List Value} {i j : ℕ}
    (hi : GoesThrough search test parts xs i) (hj : GoesThrough search test parts xs j) : i = j := by
  obtain ⟨hdirect, rfl⟩ | ⟨hnot, hinside, hbefore⟩ := hi
  · obtain ⟨-, rfl⟩ | ⟨hnot, -⟩ := hj
    · rfl
    · exact absurd hdirect hnot
  · obtain ⟨hdirect, -⟩ | ⟨-, hinside', hbefore'⟩ := hj
    · exact absurd hdirect hnot
    · rcases Nat.lt_trichotomy i j with hlt | rfl | hlt
      · exact absurd hinside (hbefore' i hlt)
      · rfl
      · exact absurd hinside' (hbefore j hlt)

theorem not_holds {search : Search} {test : Test} {rs : List Route}
    (h : ∀ r ∈ candidates search rs, test r.value = .ok false) : ¬Holds search test rs := by
  rintro ⟨r, hr, hpassed⟩
  rw [h r hr] at hpassed
  cases hpassed

/-- **The first route that passes below an array** comes through the element that the match goes
through. -/
theorem goesThrough_of_first {search : Search} {test : Test} {part : Text} {parts : List Text}
    {xs : List Value} {earlier : List Route} {r : Route}
    (h : First test (candidates search (routes (part :: parts) (.arr xs) ++ inside (part :: parts) xs))
      earlier r) :
    ∃ i, Below xs i r ∧ GoesThrough search test (part :: parts) xs i := by
  rw [candidates_append] at h
  obtain hdirect | ⟨hnone, earlier', hinside⟩ := h.of_append
  · exact ⟨keyIndex part, below_of_mem_direct hdirect.mem, .inl ⟨⟨r, hdirect.mem, hdirect.passed⟩, rfl⟩⟩
  · rw [candidates_inside] at hinside
    obtain ⟨before, ⟨x, i⟩, after, hsplit, ⟨earlier₂, hfirst⟩, hbefore⟩ := hinside.of_flatMap
    have hx : xs[i]? = some x := List.mem_zipIdx_iff_getElem?.mp
      (hsplit ▸ List.mem_append_right before List.mem_cons_self)
    obtain ⟨hi, -⟩ := List.getElem?_eq_some_iff.mp hx
    -- The element stands behind as many others as its index says.
    have hlength : before.length = i := by
      have hget : xs.zipIdx[before.length]? = some (x, i) := by
        rw [hsplit, List.getElem?_append_right (Nat.le_refl _), Nat.sub_self]
        rfl
      rw [List.getElem?_zipIdx] at hget
      obtain ⟨y, -, hy⟩ := Option.map_eq_some_iff.mp hget
      have := (Prod.mk.inj hy).2
      omega
    dsimp only at hfirst
    split at hfirst
    · next hplain =>
      obtain ⟨earlier₃, r', hfirst', rfl⟩ := hfirst.of_map
      refine ⟨i, below_index hi [] r', .inr ⟨not_holds hnone, ⟨x, hx, hplain, r', hfirst'.mem,
        hfirst'.passed⟩, fun j hj => ?_⟩⟩
      rintro ⟨y, hy, hyplain, hholds⟩
      have hmem : (y, j) ∈ before := by
        have hget : xs.zipIdx[j]? = some (y, j) := by
          rw [List.getElem?_zipIdx, hy]
          simp
        rw [hsplit, List.getElem?_append_left (by omega)] at hget
        exact List.mem_of_getElem? hget
      have hfailed := hbefore _ hmem
      rw [if_pos hyplain] at hfailed
      exact not_holds (fun r hr => hfailed (r.under _ _) (List.mem_map_of_mem hr)) hholds
    · exact absurd hfirst.mem List.not_mem_nil

/-- What the first route that passes comes through at the first array. -/
theorem passes_of_firstArray {search : Search} {test : Test} {keys parts : List Text} {xs : List Value}
    {document : Value} {earlier : List Route} {r : Route} {i : ℕ} {rest : List ℕ} (hkeys : keys ≠ [])
    (harray : FirstArray keys xs document)
    (h : First test (candidates search (routes (keys ++ parts) document)) earlier r)
    (hindices : Route.indices r = i :: rest) :
    i < xs.length ∧ keys ++ [indexText i] <+: r.keys ∧ (parts ≠ [] → GoesThrough search test parts xs i) := by
  cases parts with
  | nil =>
    rw [List.append_nil, routes_to_firstArray hkeys harray, candidates, List.flatMap_cons, List.flatMap_nil,
      List.append_nil] at h
    have helement : ∀ r, r ∈ (elements xs).map (Route.under keys []) → Route.indices r = i :: rest →
        i < xs.length ∧ keys ++ [indexText i] <+: r.keys := by
      intro r hr hindices
      obtain ⟨e, he, rfl⟩ := List.mem_map.mp hr
      obtain ⟨⟨x, j⟩, hx, rfl⟩ := List.mem_map.mp he
      obtain ⟨rfl, -⟩ := List.cons.inj hindices
      exact ⟨(List.getElem?_eq_some_iff.mp (List.mem_zipIdx_iff_getElem?.mp hx)).1, List.prefix_rfl⟩
    have hmem := h.mem
    have hbelow : i < xs.length ∧ keys ++ [indexText i] <+: r.keys := by
      cases search with
      | each =>
        rcases List.mem_cons.mp hmem with rfl | hmem
        · cases hindices
        · exact helement r hmem hindices
      | elements => exact helement r hmem hindices
    exact ⟨hbelow.1, hbelow.2, fun hne => absurd rfl hne⟩
  | cons part parts =>
    rw [routes_of_firstArray (List.cons_ne_nil _ _) hkeys harray, candidates_under] at h
    obtain ⟨earlier', r, hfirst, rfl⟩ := h.of_map
    obtain ⟨j, hbelow, hthrough⟩ := goesThrough_of_first hfirst
    obtain ⟨hbegins, rest', hindices'⟩ := hbelow.under keys
    rw [hindices] at hindices'
    obtain ⟨rfl, -⟩ := List.cons.inj hindices'
    exact ⟨hbelow.bound, hbegins, fun _ => hthrough⟩

/-! ## The element that is written -/

theorem resolve_of_not_mem {parts : List Text} (h : js "$" ∉ parts) (positional : List ℕ) :
    resolve parts positional = .ok (parts, positional) := by
  induction parts with
  | nil => rfl
  | cons part parts ih =>
    have hpart : part ≠ js "$" := fun heq => h (heq ▸ List.mem_cons_self)
    have hkey : keyOf part positional = .ok (part, positional) := by
      unfold keyOf
      rw [if_neg hpart]
    rw [resolve, hkey]
    dsimp only [bind, Except.bind]
    rw [ih fun hmem => h (List.mem_cons_of_mem _ hmem)]

/-- One `$` takes the first position. -/
theorem resolve_dollar {before after keys : List Text} {positional rest : List ℕ} (hbefore : js "$" ∉ before)
    (hafter : js "$" ∉ after) (h : resolve (before ++ js "$" :: after) positional = .ok (keys, rest)) :
    ∃ i, positional = i :: rest ∧ keys = before ++ indexText i :: after := by
  rw [resolve_append (resolve_of_not_mem hbefore positional), resolve] at h
  cases positional with
  | nil => cases h
  | cons i positional =>
    rw [show keyOf (js "$") (i :: positional) = .ok (indexText i, positional) from rfl] at h
    dsimp only [bind, Except.bind] at h
    rw [resolve_of_not_mem hafter positional] at h
    cases h
    exact ⟨i, rfl, rfl⟩

/-- The array at the keys has another value in one place at most. -/
def ElementWritten (keys : List Text) (i : ℕ) (document after : Value) : Prop :=
  ∀ xs, readPath keys document = .arr xs → i < xs.length →
    ∃ y, readPath keys after = .arr (xs.set i y)

theorem setKey_element {p : Platform} {i : ℕ} {xs : List Value} {x after : Value} (hi : i < xs.length)
    (h : setKey p (indexText i) x (.arr xs) = .ok after) : ∃ y, after = .arr (xs.set i y) := by
  rw [setKey, if_neg (length_ne_indexText i).symm] at h
  cases hkey : arrayKey? (indexText i) with
  | none =>
    rw [hkey] at h
    cases h
    exact ⟨xs[i], by rw [List.set_getElem_self]⟩
  | some j =>
    have hindex := congrArg keyIndex (arrayKey?_eq hkey)
    rw [keyIndex_indexText, keyIndex_indexText] at hindex
    subst hindex
    rw [hkey] at h
    cases h
    exact ⟨x, by rw [setElem, if_pos hi]⟩

/-- A write below the element at an index, further down the document. -/
theorem elementWritten_cons {p : Platform} {key : Text} {keys : List Text} {i : ℕ} {child v v' : Value}
    (hv : DistinctKeys v) (hlength : isArray v → key ≠ js "length") (hset : setKey p key child v = .ok v')
    (h : ElementWritten keys i (member v key) child) : ElementWritten (key :: keys) i v v' := by
  intro xs hxs hi
  rw [readPath, member_setKey hv hlength hset]
  split
  · exact h xs hxs hi
  · refine ⟨xs[i], ?_⟩
    rw [List.set_getElem_self]
    exact hxs

theorem elementWritten_of_walk {p : Platform} {noCreate forbidArray : Bool} {i : ℕ} : ∀ {keys parts : List Text}
    {positional positional' : List ℕ} {current current' : Value} {parents : List Text}, DistinctKeys current →
    walk p noCreate forbidArray parts positional current = .ok (current', some parents, positional') →
    keys ++ [indexText i] <+: parents → ElementWritten keys i current current' := by
  intro keys
  induction keys with
  | nil =>
    intro parts positional positional' current current' parents _ h hbegins xs hxs hi
    cases parts with
    | nil =>
      cases h
      cases List.prefix_nil.mp hbegins
    | cons part parts =>
      obtain ⟨key, rest, -, -, -, ⟨-, hnone, -⟩ | ⟨child, keys', -, hset, hkeys⟩⟩ := walk_cons h
      · cases hnone
      · obtain ⟨ks, rfl, rfl⟩ := Option.map_eq_some_iff.mp hkeys.symm
        obtain ⟨rfl, -⟩ := List.cons_prefix_cons.mp hbegins
        obtain rfl : current = .arr xs := hxs
        exact setKey_element hi hset
  | cons key keys ih =>
    intro parts positional positional' current current' parents hv h hbegins
    cases parts with
    | nil =>
      cases h
      cases List.prefix_nil.mp hbegins
    | cons part parts =>
      obtain ⟨k, rest, -, hlength, -, ⟨-, hnone, -⟩ | ⟨child, keys', hwalk, hset, hkeys⟩⟩ := walk_cons h
      · cases hnone
      · obtain ⟨ks, rfl, rfl⟩ := Option.map_eq_some_iff.mp hkeys.symm
        obtain ⟨rfl, hks⟩ := List.cons_prefix_cons.mp hbegins
        have hchild := ih (distinctKeys_filled (distinctKeys_member key hv)) hwalk hks
        refine elementWritten_cons hv hlength hset fun xs hxs hi => hchild xs ?_ hi
        cases keys with
        | nil => rw [readPath] at hxs ⊢; rw [hxs]; rfl
        | cons k ks => rw [readPath_filled (List.cons_ne_nil _ _), hxs]

theorem elementWritten_of_updateAt {p : Platform} {f : Value → Except Text Value} {i : ℕ} :
    ∀ {keys parents : List Text} {v v' : Value}, DistinctKeys v → updateAt p f parents v = .ok v' →
    keys ++ [indexText i] <+: parents → ElementWritten keys i v v' := by
  intro keys
  induction keys with
  | nil =>
    intro parents v v' _ h hbegins xs hxs hi
    cases parents with
    | nil => cases List.prefix_nil.mp hbegins
    | cons k ks =>
      obtain ⟨rfl, -⟩ := List.cons_prefix_cons.mp hbegins
      obtain ⟨child, -, hset⟩ := bind_eq_ok h
      obtain rfl : v = .arr xs := hxs
      exact setKey_element hi hset
  | cons key keys ih =>
    intro parents v v' hv h hbegins xs hxs hi
    cases parents with
    | nil => cases List.prefix_nil.mp hbegins
    | cons k ks =>
      obtain ⟨rfl, hks⟩ := List.cons_prefix_cons.mp hbegins
      obtain ⟨child, hchild, hset⟩ := bind_eq_ok h
      have hlength : isArray v → key ≠ js "length" := by
        rintro harr rfl
        cases v with
        | arr ys =>
          rw [readPath, member, arrayKey?_length, Option.elim, readPath_undefined] at hxs
          cases hxs
        | _ => cases harr
      rw [getKey_eq_member hlength] at hchild
      exact elementWritten_cons hv hlength hset (ih (distinctKeys_member key hv) hchild hks) xs hxs hi

/-- A write of a field is one below the keys that end with the field. -/
theorem updateAt_concat (p : Platform) (field : Text) (x : Value) : ∀ (parents : List Text) (v : Value),
    updateAt p (setKey p field x) parents v = updateAt p (fun _ => .ok x) (parents ++ [field]) v
  | [], v => rfl
  | key :: parents, v => by
    rw [updateAt, List.cons_append, updateAt, updateAt_concat p field x parents]

theorem ElementWritten.trans {keys : List Text} {i : ℕ} {v v' v'' : Value} (h : ElementWritten keys i v v')
    (h' : ElementWritten keys i v' v'') : ElementWritten keys i v v'' := by
  intro xs hxs hi
  obtain ⟨y, hy⟩ := h xs hxs hi
  obtain ⟨z, hz⟩ := h' _ hy (by rwa [List.length_set])
  exact ⟨z, by rw [hz, List.set_set]⟩

/-- The steps of a `$set` that returns. -/
theorem modifyDocument_set {p : Platform} {options : ModifyOptions} {path : Text} {v document after : Value}
    (hpath : path ≠ js "__proto__")
    (h : modifyDocument p options (single (js "$set") path v) document = .ok after) :
    ∃ parents field walked positional rest,
      walk p false false (splitPath path).dropLast (positions options.arrayIndices) document =
        .ok (walked, some parents, positional) ∧
      keyOf (fieldOf path) positional = .ok (field, rest) ∧
      updateAt p (setKey p field (cloneValue v)) parents walked = .ok after := by
  have hinsert : js "$set" ≠ js "$setOnInsert" := by decide
  rw [modifyDocument_single (by decide) hpath] at h
  split at h
  · cases h
  unfold applyModifierOperator at h
  rw [if_neg fun heq => hinsert heq.1] at h
  dsimp only at h
  rw [if_neg hinsert, decide_eq_false (show js "$set" ∉ noCreateOperators by decide),
    decide_eq_false (show js "$set" ≠ js "$rename" by decide)] at h
  obtain ⟨⟨walked, target⟩, htarget, h⟩ := bind_eq_ok h
  obtain ⟨-, parents, positional, rest, hwalk, hfield, hparent⟩ := modificationTarget_iff.mp htarget
  unfold applyAt at h
  rw [if_pos rfl] at h
  obtain ⟨-, -, h⟩ := bind_eq_ok h
  dsimp only at h
  unfold writeField at h
  rw [hparent] at h
  exact ⟨parents, target.field, walked, positional, rest, hwalk, hfield, h⟩

/-! ## The matched element -/

section
variable (search : Search) (test : Test) (path : Text) (pre post : List Text) (document : Value)

/-- The condition holds of something at or below an element of the array at the keys. -/
def Through (i : ℕ) : Prop :=
  ∃ xs, readPath pre document = .arr xs ∧ i < xs.length ∧
    ∃ r ∈ candidates search (routes (splitPath path) document), test r.value = .ok true ∧
      pre ++ [indexText i] <+: r.keys

/-- The place before the `$` is an array, and where the path comes to it through another array,
the index at which the match goes through the other one is also that of an element through
which the condition holds. -/
structure Aligned : Prop where
  array : isArray (readPath pre document)
  through : ∀ outer part inner ys i, pre = outer ++ part :: inner → FirstArray outer ys document →
    GoesThrough search test (part :: inner ++ post) ys i → Through search test path pre document i

/-- The `$` stands for an element through which the condition holds, and this is the only one
that is written. -/
structure HitsMatched (path' : Text) (positional : List ℕ) (v after : Value) (i : ℕ) : Prop where
  stands : ∃ rest, resolve (splitPath path') positional = .ok (pre ++ indexText i :: post, rest)
  through : Through search test path pre document i
  element : ElementWritten pre i document after
  elsewhere : ∀ q, Apart q pre → readPath q after = readPath q document
  written : PlacedAt path' (pre ++ indexText i :: post) document →
    readPath (pre ++ indexText i :: post) after = cloneValue v

end

section
variable {p : Platform} {options : ModifyOptions} {path' : Text} {pre post : List Text}
  {v document after : Value} {positional : List ℕ}

/-- What a `$set` with one `$` writes. -/
theorem written_of_modifyDocument (hsplit' : splitPath path' = pre ++ js "$" :: post)
    (hpre : js "$" ∉ pre) (hpost : js "$" ∉ post) (hdocument : DistinctKeys document)
    (h : modifyDocument p options (single (js "$set") path' v) document = .ok after) :
    ∃ i rest, positions options.arrayIndices = i :: rest ∧
      resolve (splitPath path') (positions options.arrayIndices) = .ok (pre ++ indexText i :: post, rest) ∧
      ElementWritten pre i document after ∧ (∀ q, Apart q pre → readPath q after = readPath q document) ∧
      (PlacedAt path' (pre ++ indexText i :: post) document →
        readPath (pre ++ indexText i :: post) after = cloneValue v) := by
  have hne : path' ≠ js "__proto__" := by
    rintro rfl
    have hmem : js "$" ∈ splitPath (js "__proto__") := hsplit' ▸ List.mem_append_right _ List.mem_cons_self
    exact absurd hmem (by decide)
  obtain ⟨parents, field, walked, positional, rest, hwalk, hfield, hset⟩ := modifyDocument_set hne h
  have hresolve : resolve (splitPath path') (positions options.arrayIndices) =
      .ok (parents ++ [field], rest) := by
    have hfields : resolve [fieldOf path'] positional = .ok ([field], rest) := by
      rw [resolve, hfield]
      rfl
    rw [← splitPath_eq path', resolve_append (resolve_of_walk hwalk), hfields]
    rfl
  obtain ⟨i, hpositions, hkeys⟩ := resolve_dollar hpre hpost (hsplit' ▸ hresolve)
  have hw := walked_of_walk hdocument hwalk
  have hparents : parents = pre ++ (indexText i :: post).dropLast := by
    have hlast := congrArg List.dropLast hkeys
    rwa [List.dropLast_concat, List.dropLast_append_of_ne_nil (List.cons_ne_nil _ _)] at hlast
  have hindex : ∀ tail, pre ++ [indexText i] <+: pre ++ indexText i :: tail := fun tail =>
    (List.prefix_append_right_inj pre).mpr (List.prefix_append [indexText i] tail)
  have hwalked : ElementWritten pre i document walked := by
    cases post with
    | nil =>
      rw [List.dropLast_singleton, List.append_nil] at hparents
      intro xs hxs hi
      rw [← hparents] at hxs ⊢
      refine ⟨xs[i], ?_⟩
      rw [List.set_getElem_self]
      exact (readPath_end_eq_arr hdocument hwalk).mpr hxs
    | cons part post =>
      refine elementWritten_of_walk hdocument hwalk ?_
      rw [hparents, List.dropLast_cons_cons]
      exact hindex _
  have hafter : ElementWritten pre i walked after := by
    refine elementWritten_of_updateAt hw.distinct (updateAt_concat p field _ parents walked ▸ hset) ?_
    rw [hkeys]
    exact hindex post
  refine ⟨i, rest, hpositions, hkeys ▸ hresolve, hwalked.trans hafter, fun q hq => ?_, fun hplaced => ?_⟩
  · have hbegins : pre <+: parents := hparents ▸ List.prefix_append _ _
    have hq' : ¬q <+: parents := fun h =>
      (List.prefix_or_prefix_of_prefix h hbegins).elim hq.1 hq.2
    rw [(updated_of_updateAt hw.distinct hw.walkable' hset).same q
      ⟨hq', fun h => hq.2 (hbegins.trans h)⟩]
    exact hw.same q hq'
  · rw [← hkeys] at hplaced ⊢
    rw [PlacedAt, List.dropLast_concat, List.getLastD_concat] at hplaced
    have hreached := (placed_iff_of_walk hdocument hwalk).mp hplaced
    refine (readPath_set hw.distinct hw.walkable' (fun harr heq => ?_) hset []).1 hreached
    have henters := hreached.2
    cases hend : readPath parents walked with
    | arr xs =>
      rw [hend, enters, heq, arrayKey?_length] at henters
      cases henters
    | _ => rw [hend] at harr; cases harr

/-- What a selector of one condition finds in a document. -/
theorem first_of_match {c : Value} {search : Search} {test : Test} {path : Text} {result : MatchResult}
    {documentMatches : DocumentMatcher} (hc : Condition p c search test)
    (hroot : startsWith (js "$") path = false)
    (hcompile : matcher p true (.obj [(path, c)]) = .ok documentMatches)
    (hmatch : documentMatches document = .ok result) (hresult : result.result) :
    ∃ earlier r, First test (candidates search (routes (splitPath path) document)) earlier r ∧
      positions result.arrayIndices = Route.indices r := by
  obtain ⟨valueMatcher, hvalue, hdecides⟩ : ∃ valueMatcher, compileValue p (some (near p true)) c =
    .ok valueMatcher ∧ Decides search test valueMatcher := decides_of_condition hc
  rw [matcher, compileSelector] at hcompile
  split at hcompile
  · cases hcompile
    cases hmatch
    cases hresult
  rw [compileDocument, compileDocument, compileField, hroot, if_neg Bool.false_ne_true, hvalue] at hcompile
  cases hcompile
  obtain ⟨found, hfound, hmatch⟩ := bind_eq_ok hmatch
  change valueMatcher (branchAt false (splitPath path) document none) = _ at hfound
  rw [branchAt_eq, hdecides] at hfound
  obtain rfl | ⟨earlier, b, later, hsplit, hearlier, hb, rfl⟩ := findBranch_cases hfound
  · cases hmatch
    cases hresult
  · cases hmatch
    obtain ⟨cs, ds, hcs, rfl, hds⟩ := List.map_eq_append_iff.mp hsplit
    obtain ⟨r, es, rfl, rfl, -⟩ := List.map_eq_cons_iff.mp hds
    refine ⟨cs, r, ⟨⟨es, hcs⟩, fun x hx => hearlier (x.branch none) (List.mem_map_of_mem hx), hb⟩, ?_⟩
    rw [← positions_branch]
    cases (r.branch none).arrayIndices <;> rfl

/-- **A positional update of a matched document hits what matched** just where its `$` is aligned
with the match. -/
theorem hitsMatched_iff {c : Value} {search : Search} {test : Test} {path : Text} {result : MatchResult}
    {documentMatches : DocumentMatcher} (hc : Condition p c search test)
    (hroot : startsWith (js "$") path = false) (hdollar : js "$" ∉ splitPath path)
    (hsplit : splitPath path = pre ++ post) (hsplit' : splitPath path' = pre ++ js "$" :: post)
    (hobject : isPlainObject document) (hdocument : DistinctKeys document)
    (hcompile : matcher p true (.obj [(path, c)]) = .ok documentMatches)
    (hmatch : documentMatches document = .ok result) (hresult : result.result)
    (hindices : options.arrayIndices = result.arrayIndices)
    (hmodify : modifyDocument p options (single (js "$set") path' v) document = .ok after) :
    (∃ i, HitsMatched search test path pre post document path' (positions result.arrayIndices) v after i) ↔
      Aligned search test path pre post document := by
  rw [hsplit, List.mem_append, not_or] at hdollar
  obtain ⟨i, rest, hpositions, hstands, helement, helsewhere, hwritten⟩ :=
    written_of_modifyDocument hsplit' hdollar.1 hdollar.2 hdocument hmodify
  rw [hindices] at hpositions hstands
  obtain ⟨earlier, r, hfirst, hr⟩ := first_of_match hc hroot hcompile hmatch hresult
  rw [hr] at hpositions
  rw [hsplit] at hfirst
  -- The first array of a document is below its root.
  have hnil : ∀ {keys xs}, FirstArray keys xs document → keys ≠ [] := by
    rintro keys xs harray rfl
    have hroot := harray.reads
    rw [readPath] at hroot
    rw [hroot] at hobject
    cases hobject
  have hthrough : ∀ {outer part inner ys j}, pre = outer ++ part :: inner → FirstArray outer ys document →
      GoesThrough search test (part :: inner ++ post) ys j → i = j := by
    intro outer part inner ys j hpre harray hj
    rw [hpre, List.append_assoc] at hfirst
    exact goesThrough_unique
      ((passes_of_firstArray (hnil harray) harray hfirst hpositions).2.2 (List.cons_ne_nil _ _)) hj
  constructor
  · rintro ⟨j, hits⟩
    obtain ⟨rest', hstands'⟩ := hits.stands
    rw [hstands] at hstands'
    have hij : indexText i = indexText j :=
      (List.cons.inj (List.append_cancel_left (Prod.mk.inj (Except.ok.inj hstands')).1)).1
    have hindex := congrArg keyIndex hij
    rw [keyIndex_indexText, keyIndex_indexText] at hindex
    subst hindex
    obtain ⟨xs, hxs, -⟩ := hits.through
    exact ⟨by rw [hxs]; rfl, fun outer part inner ys j hpre harray hj => hthrough hpre harray hj ▸ hits.through⟩
  · intro haligned
    refine ⟨i, ⟨rest, hstands⟩, ?_, helement, helsewhere, hwritten⟩
    have harray := haligned.array
    cases hxs : readPath pre document with
    | arr xs =>
      obtain ⟨outer, tail, ys, hpre, houter⟩ := exists_firstArray hxs
      rw [hpre, List.append_assoc] at hfirst
      have hpasses := passes_of_firstArray (hnil houter) houter hfirst hpositions
      cases tail with
      | nil =>
        rw [List.append_nil] at hpre
        subst hpre
        exact ⟨ys, houter.reads, hpasses.1, r, hsplit ▸ hfirst.mem, hfirst.passed, hpasses.2.1⟩
      | cons part inner =>
        exact haligned.through outer part inner ys i hpre houter (hpasses.2.2 (List.cons_ne_nil _ _))
    | _ => rw [hxs] at harray; cases harray

/-- The positions that the `$` of a modifier are taken from. -/
def matchedPositions (p : Platform) (selector document : Value) : List ℕ :=
  match matcher p true selector with
  | .error _ => []
  | .ok documentMatches => match documentMatches document with
    | .error _ => []
    | .ok result => positions result.arrayIndices

end

/-! ## One that is aligned, and one that is not -/

/-- An integer. -/
def int (n : Int) : Value := .num (.finite (ofInt n))

/-- `{ a: [{ b: [{ c: 1 }, { c: 2 }] }, { c }] }`. -/
def nested (c : Int) : Value :=
  .obj [(js "a", .arr [.obj [(js "b", .arr [.obj [(js "c", int 1)], .obj [(js "c", int 2)]])],
    .obj [(js "c", int c)]])]

/-- `update({ [path]: 2 }, { $set: { [path']: 9 } })`, on a store of this document. -/
def updateNine (path path' : Text) : Outcome Value (Option Text) ℕ :=
  update (localStoreRuntime .integral 0) [] (OMap.empty.set none (nested 2)) (.obj [(path, int 2)])
    (single (js "$set") path' (int 9)) false

theorem condition_two : Condition .integral (int 2) .each fun value => .ok (equal (int 2) value) :=
  .equality rfl nofun

theorem stored_nested : ∀ d ∈ (OMap.empty.set (none : Option Text) (nested 2)).values,
    isPlainObject d ∧ cloneValue d = d := by
  intro d hd
  obtain rfl : d = nested 2 := List.mem_singleton.mp hd
  exact ⟨rfl, rfl⟩

end TypeFerry.Minimongo.Positional
