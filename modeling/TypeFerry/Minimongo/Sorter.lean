import TypeFerry.Minimongo.Values

/-! # Sorting documents

`sorter.ts`: a sort specification becomes a list of paths with directions, and a
document is compared by the least of its sort keys. What throws does so for one
document alone, whatever it is compared with, so a sort throws as soon as there
are two documents and one of them has no key. -/
namespace TypeFerry.Minimongo.Sorter
open TypeFerry.Lib.Numeral TypeFerry.Lib.JsonText TypeFerry.Ejson.Clone
open TypeFerry.Minimongo.Values

/-- A path and whether it is ascending. -/
abbrev SortPart := Text × Bool

/-- `ascending(direction)`. -/
def ascending : Value → Except Text Bool
  | .num n =>
    if toInt? n = some 1 then .ok true
    else if toInt? n = some (-1) then .ok false
    else .error (js "Bad sort specification")
  | .str s =>
    if s = js "asc" ∨ s = js "ascending" then .ok true
    else if s = js "desc" ∨ s = js "descending" then .ok false
    else .error (js "Bad sort specification")
  | _ => .error (js "Bad sort specification")

/-- `validatedPart(path, isAscending)`. -/
def validatedPart (path : Text) (isAscending : Bool) : Except Text SortPart :=
  if path = [] then .error (js "sort keys must be non-empty")
  else if startsWith (js "$") path then .error (js "unsupported sort key: " ++ path)
  else .ok (path, isAscending)

/-- `normalizeSort(specifier)`. -/
def normalizeSort (specifier : Value) : Except Text (List SortPart) :=
  if isFalsy specifier then .ok []
  else match specifier with
    | .arr entries => entries.mapM fun
      | .str path => validatedPart path true
      | .arr (.str path :: rest) => do validatedPart path (← ascending (rest.headD .undefined))
      | _ => .error (js "Bad sort specification")
    | .obj ms => ms.mapM fun m => do validatedPart m.1 (← ascending m.2)
    | .date _ | .regexp _ => .ok []
    | _ => .error (js "Bad sort specification")

/-- The values of one path, by the array steps they were found under. -/
abbrev PathValues := List (Option (List ArrayStep) × Value)

/-- The values of the branches of one path. `knownPaths` are the array steps of an earlier
path, if it had any. -/
def branchValues (knownPaths : Option (List (List ArrayStep))) (single : Bool) :
    List ValueBranch → PathValues → Except Text PathValues
  | [], values => .ok values
  | branch :: rest, values => match branch.arrayIndices with
    | none =>
      if single then branchValues knownPaths single rest (values ++ [(none, branch.value)])
      else .error (js "multiple branches but no array used?")
    | some steps =>
      if (values.lookup (some steps)).isSome then .error (js "duplicate path")
      else if knownPaths.any fun paths => steps ∉ paths then .error (js "cannot index parallel arrays")
      else branchValues knownPaths single rest (values ++ [(some steps, branch.value)])

/-- The array steps of the values. -/
def stepsOf (values : PathValues) : List (List ArrayStep) := values.filterMap Prod.fst

/-- The values of every path of a document, and the array steps that they share. -/
def valuesByPart (document : Value) : List SortPart → Option (List (List ArrayStep)) →
    Except Text (List PathValues × Option (List (List ArrayStep)))
  | [], knownPaths => .ok ([], knownPaths)
  | (path, _) :: rest, knownPaths => do
    let expanded := expandArrays (lookupBranches document path true) true
    let branches := if expanded.isEmpty then [⟨.undefined, false, none⟩] else expanded
    let values ← branchValues knownPaths (branches.length ≤ 1) branches []
    let knownPaths' ← match knownPaths with
      | some paths =>
        if (values.lookup none).isNone && values.length ≠ paths.length then
          .error (js "cannot index parallel arrays!")
        else .ok (some paths)
      | none => .ok (if (stepsOf values).isEmpty then none else some (stepsOf values))
    let (others, knownPaths'') ← valuesByPart document rest knownPaths'
    .ok (values :: others, knownPaths'')

/-- `compareKeys(left, right)`, the comparison of two documents as well. -/
def compareKeys : List SortPart → List Value → List Value → Int
  | (_, isAscending) :: parts, x :: left, y :: right =>
    if compareValues x y ≠ 0 then if isAscending then compareValues x y else -compareValues x y
    else compareKeys parts left right
  | _, _, _ => 0

/-- `documentKey(document)`: the least of its keys. -/
def documentKey (parts : List SortPart) (document : Value) : Except Text (List Value) := do
  let (values, knownPaths) ← valuesByPart document parts none
  let keyAt (steps : Option (List ArrayStep)) : List Value := values.map fun v =>
    ((v.lookup none).orElse fun _ => v.lookup steps).getD .undefined
  match knownPaths with
  | some (steps :: others) =>
    .ok ((others.map fun steps => keyAt (some steps)).foldl
      (fun minimum key => if compareKeys parts key minimum < 0 then key else minimum)
      (keyAt (some steps)))
  | _ => .ok (keyAt none)

/-- `documents.sort(comparator)` by the keys of the documents. -/
def sortByParts (parts : List SortPart) (documents : List Value) : Except Text (List Value) :=
  if documents.length < 2 then .ok documents
  else do
    let keyed ← documents.mapM fun document => do .ok (← documentKey parts document, document)
    .ok ((keyed.insertionSort fun a b => compareKeys parts a.1 b.1 ≤ 0).map Prod.snd)

/-- `leftDistance - rightDistance`, without a distance from `0`. -/
def compareDistances (left right : Option Number) : Int :=
  let orZero (distance : Option Number) : Number := distance.getD (.finite (ofInt 0))
  if numLt (orZero left) (orZero right) then -1 else if numLt (orZero right) (orZero left) then 1 else 0

/-! ## Sorting loses nothing -/

theorem keyed_documents {parts : List SortPart} : ∀ {documents : List Value}
    {keyed : List (List Value × Value)},
    (documents.mapM fun document => do .ok (← documentKey parts document, document)) =
      (.ok keyed : Except Text _) → keyed.map Prod.snd = documents
  | [], keyed, h => by
    cases h
    rfl
  | document :: rest, keyed, h => by
    rw [List.mapM_cons] at h
    obtain ⟨entry, hentry, h⟩ := bind_eq_ok h
    obtain ⟨key, -, hentry⟩ := bind_eq_ok hentry
    obtain ⟨others, hothers, h⟩ := bind_eq_ok h
    cases hentry
    cases h
    rw [List.map_cons, keyed_documents hothers]

theorem sortByParts_perm {parts : List SortPart} {documents sorted : List Value}
    (h : sortByParts parts documents = .ok sorted) : sorted.Perm documents := by
  unfold sortByParts at h
  split at h
  · cases h
    exact List.Perm.refl _
  · obtain ⟨keyed, hkeyed, h⟩ := bind_eq_ok h
    cases h
    rw [← keyed_documents hkeyed]
    exact (List.perm_insertionSort _ keyed).map Prod.snd

end TypeFerry.Minimongo.Sorter
