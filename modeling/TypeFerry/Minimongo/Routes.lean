import TypeFerry.Minimongo.Places

/-! # The routes of a match

A branch of a path remembers the array indices on its way. A route remembers the
whole way: the keys from the document to the value, with the index of every array
element that it comes through. `branchAt` and `expandArrays` are the routes
without their keys. -/
namespace TypeFerry.Minimongo.Routes
open TypeFerry.Lib.Numeral TypeFerry.Lib.JsonText TypeFerry.Ejson.Clone
open TypeFerry.Minimongo.Values TypeFerry.Minimongo.Matcher TypeFerry.Minimongo.Modifier
open TypeFerry.Minimongo.Places

/-- A value that a path leads to, the keys on the way, and the array steps among them. -/
structure Route where
  keys : List Text
  value : Value
  dontIterate : Bool
  steps : List ArrayStep

/-- The route behind some keys and steps. -/
def Route.under (keys : List Text) (steps : List ArrayStep) (r : Route) : Route :=
  { r with keys := keys ++ r.keys, steps := steps ++ r.steps }

/-- The branch of a route that starts with the given indices. -/
def Route.branch (arrayIndices : Option (List ArrayStep)) (r : Route) : ValueBranch :=
  ⟨r.value, r.dontIterate, if r.steps = [] then arrayIndices else some (arrayIndices.getD [] ++ r.steps)⟩

/-- The elements of an array, each with its index. -/
def elements (xs : List Value) : List Route :=
  xs.zipIdx.map fun p => ⟨[indexText p.2], p.1, false, [.index p.2]⟩

/-- The routes along the parts of a path, in the order of the branches. -/
def routes : List Text → Value → List Route
  | [], v => [⟨[], v, false, []⟩]
  | part :: rest, .arr xs =>
    if !isNumericKey part || xs.length ≤ keyIndex part then []
    else
      let value := xs.getD (keyIndex part) .undefined
      let steps := [.index (keyIndex part), .x]
      if rest = [] then [⟨[indexText (keyIndex part)], value, isArray value, steps⟩]
      else (routes rest value).map (Route.under [indexText (keyIndex part)] steps)
  | part :: rest, .obj ms =>
    let value := (getOwn part ms).getD .undefined
    if rest = [] then [⟨[part], value, false, []⟩]
    else match value with
      | .obj _ => (routes rest value).map (Route.under [part] [])
      | .arr xs =>
        (routes rest value).map (Route.under [part] []) ++
          xs.zipIdx.flatMap fun p =>
            if isPlainObject p.1 then (routes rest p.1).map (Route.under [part, indexText p.2] [.index p.2])
            else []
      | _ => [⟨part :: rest, .undefined, false, []⟩]
  | part :: rest, _ => [⟨part :: rest, .undefined, false, []⟩]

/-- What a condition is asked about: every value and the elements of the arrays among them, or
the elements only. -/
inductive Search where
  | each
  | elements

/-- The routes that a condition is asked about for one of a path. -/
def asked : Search → Route → List Route
  | .each, r => r :: match r.value with
    | .arr xs => if r.dontIterate then [] else (elements xs).map (Route.under r.keys r.steps)
    | _ => []
  | .elements, r => match r.value with
    | .arr xs => (elements xs).map (Route.under r.keys r.steps)
    | _ => []

def candidates (search : Search) (rs : List Route) : List Route := rs.flatMap (asked search)

/-! ## Branches -/

@[simp] theorem under_value (keys : List Text) (steps : List ArrayStep) (r : Route) :
    (r.under keys steps).value = r.value := rfl

@[simp] theorem under_keys (keys : List Text) (steps : List ArrayStep) (r : Route) :
    (r.under keys steps).keys = keys ++ r.keys := rfl

@[simp] theorem under_steps (keys : List Text) (steps : List ArrayStep) (r : Route) :
    (r.under keys steps).steps = steps ++ r.steps := rfl

theorem under_under (keys keys' : List Text) (steps steps' : List ArrayStep) (r : Route) :
    (r.under keys' steps').under keys steps = r.under (keys ++ keys') (steps ++ steps') := by
  simp [Route.under]

theorem branch_under_steps (keys : List Text) {steps : List ArrayStep} (hsteps : steps ≠ [])
    (arrayIndices : Option (List ArrayStep)) (r : Route) :
    (r.under keys steps).branch arrayIndices = r.branch (some (arrayIndices.getD [] ++ steps)) := by
  unfold Route.branch Route.under
  dsimp only
  rw [if_neg (by simp [hsteps])]
  split
  · next h => rw [h, List.append_nil]
  · rw [Option.getD_some, List.append_assoc]

/-- **The branches of a path are its routes** without their keys. -/
theorem branchAt_eq : ∀ (parts : List Text) (v : Value) (arrayIndices : Option (List ArrayStep)),
    branchAt false parts v arrayIndices = (routes parts v).map (Route.branch arrayIndices) := by
  intro parts
  induction parts with
  | nil =>
    intro v arrayIndices
    rw [branchAt, routes]
    rfl
  | cons part rest ih =>
    intro v arrayIndices
    have hunder : ∀ (v : Value) (keys : List Text), (routes rest v).map (Route.branch arrayIndices) =
        ((routes rest v).map (Route.under keys [])).map (Route.branch arrayIndices) := by
      intro v keys
      rw [List.map_map]
      rfl
    have hsteps : ∀ (v : Value) (keys : List Text) {steps : List ArrayStep}, steps ≠ [] →
        (routes rest v).map (Route.branch (some (arrayIndices.getD [] ++ steps))) =
          ((routes rest v).map (Route.under keys steps)).map (Route.branch arrayIndices) := by
      intro v keys steps hne
      rw [List.map_map]
      exact List.map_congr_left fun r _ => (branch_under_steps keys hne arrayIndices r).symm
    cases v with
    | arr xs =>
      rw [branchAt, routes]
      split
      · rfl
      · dsimp only
        split
        · rfl
        · rw [ih, ← hsteps _ _ (List.cons_ne_nil _ _)]
    | obj ms =>
      rw [branchAt, routes]
      split
      · rfl
      · cases (getOwn part ms).getD .undefined with
        | obj ns => rw [ih, ← hunder]
        | arr xs =>
          simp only [Bool.false_and, Bool.false_eq_true, if_false]
          rw [ih, List.map_append, ← hunder, List.map_flatMap]
          congr 1
          refine List.flatMap_congr fun e _ => ?_
          split
          · rw [ih, ← hsteps _ _ (List.cons_ne_nil _ _)]
          · rfl
        | _ => rfl
    | _ => rfl

theorem branch_element (arrayIndices : Option (List ArrayStep)) (r : Route) (xs : List Value) :
    ((elements xs).map (Route.under r.keys r.steps)).map (Route.branch arrayIndices) =
      xs.zipIdx.map fun p =>
        ⟨p.1, false, some ((r.branch arrayIndices).arrayIndices.getD [] ++ [.index p.2])⟩ := by
  rw [elements, List.map_map, List.map_map]
  refine List.map_congr_left fun p _ => ?_
  unfold Route.branch Route.under
  dsimp only [Function.comp_apply]
  rw [if_neg (by simp)]
  by_cases hsteps : r.steps = []
  · rw [if_pos hsteps, hsteps, List.nil_append]
  · rw [if_neg hsteps, Option.getD_some, List.append_assoc]

/-- Expanding the branches asks about each route and the elements below it. -/
theorem expandArrays_eq (arrayIndices : Option (List ArrayStep)) (rs : List Route) :
    expandArrays (rs.map (Route.branch arrayIndices)) false =
      (candidates .each rs).map (Route.branch arrayIndices) := by
  rw [expandArrays, candidates, List.map_flatMap, List.flatMap_map]
  refine List.flatMap_congr fun r _ => ?_
  rw [asked, List.map_cons]
  cases hvalue : r.value with
  | arr xs =>
    rw [show (r.branch arrayIndices).value = .arr xs from hvalue]
    cases hiterate : r.dontIterate with
    | true =>
      rw [show (r.branch arrayIndices).dontIterate = true from hiterate]
      rfl
    | false =>
      rw [show (r.branch arrayIndices).dontIterate = false from hiterate]
      change [r.branch arrayIndices] ++ xs.zipIdx.map _ = _ :: List.map _ (List.map _ (elements xs))
      rw [branch_element]
      rfl
  | _ =>
    rw [show (r.branch arrayIndices).value = _ from hvalue]
    rfl

theorem findBranch_append (predicate : Value → Except Text Bool) (bs cs : List ValueBranch) :
    findBranch predicate (bs ++ cs) = (do
      let found ← findBranch predicate bs
      if found.result then .ok found else findBranch predicate cs) := by
  induction bs with
  | nil => rfl
  | cons b bs ih =>
    rw [List.cons_append, findBranch, findBranch]
    cases predicate b.value with
    | error e => rfl
    | ok found =>
      cases found with
      | true => rfl
      | false => exact ih

theorem elemMatchIn_eq (matches' : Value → Except Text Bool) (arrayIndices : Option (List ArrayStep))
    (es : List (Value × ℕ)) :
    elemMatchIn matches' arrayIndices es =
      findBranch matches' (es.map fun e => ⟨e.1, false, some (arrayIndices.getD [] ++ [.index e.2])⟩) := by
  induction es with
  | nil => rfl
  | cons e es ih =>
    rw [elemMatchIn, List.map_cons, findBranch, ih]

/-- `$elemMatch` looks for the first element that matches. -/
theorem elemMatch_eq (matches' : Value → Except Text Bool) (arrayIndices : Option (List ArrayStep))
    (rs : List Route) :
    elemMatch matches' (rs.map (Route.branch arrayIndices)) =
      findBranch matches' ((candidates .elements rs).map (Route.branch arrayIndices)) := by
  induction rs with
  | nil => rfl
  | cons r rs ih =>
    rw [candidates, List.flatMap_cons, List.map_append, List.map_cons, elemMatch, asked, findBranch_append]
    cases hvalue : r.value with
    | arr xs =>
      rw [show (r.branch arrayIndices).value = .arr xs from hvalue, branch_element, ← elemMatchIn_eq, ih]
      rfl
    | _ =>
      rw [show (r.branch arrayIndices).value = _ from hvalue]
      exact ih

end TypeFerry.Minimongo.Routes
