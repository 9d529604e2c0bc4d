import TypeFerry.Minimongo.Atomicity
import TypeFerry.Minimongo.Cursors

/-! # Reads and writes select documents

`find` compiles a selector for reading, `remove` and `update` compile it for
updates. The two differ in `$near` conditions only, so each of them comes down to
what is left when every `$near` is taken for met, and to its own reading of the
`$near` conditions: a candidate point within the greatest distance, or a first
candidate point that was found through an array. -/
namespace TypeFerry.Minimongo.Selection
open TypeFerry.Lib.Numeral TypeFerry.Lib.JsonText TypeFerry.Lib.OrderedMap TypeFerry.Ejson.Clone
open TypeFerry.Minimongo.Values TypeFerry.Minimongo.Matcher TypeFerry.Minimongo.Sorter
open TypeFerry.Minimongo.Collection TypeFerry.Minimongo.Modifier TypeFerry.Minimongo.Atomicity
open TypeFerry.Minimongo.Cursors

/-! ## The `$near` conditions of a selector -/

/-- The `$near` operators of an operator object. -/
def nearOperators (selector : List (Text × Value)) : List (Text × Value) → List NearArguments
  | [] => []
  | (operator, operand) :: rest =>
    if operator = js "$near" then match nearArguments operand selector with
      | .ok a => a :: nearOperators selector rest
      | .error _ => nearOperators selector rest
    else nearOperators selector rest

/-- The `$near` conditions of one entry of a selector. -/
def nearField (path : Text) (value : Value) : List NearArguments :=
  if startsWith (js "$") path then []
  else match value with
    | .obj ms => nearOperators ms ms
    | _ => []

/-- The `$near` conditions of the entries of a selector, with their paths. -/
def nearFields : List (Text × Value) → List (Text × NearArguments)
  | [] => []
  | (path, value) :: rest => (nearField path value).map (fun a => (path, a)) ++ nearFields rest

/-- The `$near` conditions of a selector. -/
def nearConditions : Value → List (Text × NearArguments)
  | .obj ms => if (getOwn (js "_id") ms).any isFalsy then [] else nearFields ms
  | _ => []

/-- A `$near` that is met by every document. -/
def alwaysNear : NearMatcher := fun _ _ => .only true

/-- A matcher returns that it is met. -/
def Met {α : Type} (m : α → Except Text MatchResult) (x : α) : Prop := ∃ r, m x = .ok r ∧ r.result = true

/-- All the conditions of the selector but `$near` are met. -/
def MeetsOthers (p : Platform) (selector document : Value) : Prop :=
  ∃ m, compileSelector p alwaysNear selector = .ok m ∧ Met m document

/-- All the `$near` conditions of the selector are met, as `nearMatcher` has it. -/
def MeetsNear (nearMatcher : NearMatcher) (selector document : Value) : Prop :=
  ∀ c ∈ nearConditions selector, (nearMatcher c.2 (lookupBranches document c.1 false)).result = true

/-! ## What `$near` changes in a compiled selector -/

section
variable (nearMatcher : NearMatcher)

/-- The matchers of two operator objects that differ at their `$near` operators only. -/
inductive OperatorsDiffer : List NearArguments → List BranchMatcher → List BranchMatcher → Prop where
  | nil : OperatorsDiffer [] [] []
  | same {as : List NearArguments} {ms ms' : List BranchMatcher} (m : BranchMatcher)
      (h : OperatorsDiffer as ms ms') : OperatorsDiffer as (m :: ms) (m :: ms')
  | near {as : List NearArguments} {ms ms' : List BranchMatcher} (a : NearArguments)
      (h : OperatorsDiffer as ms ms') :
      OperatorsDiffer (a :: as) ((fun branches => .ok (nearMatcher a branches)) :: ms)
        ((fun branches => .ok (alwaysNear a branches)) :: ms')

/-- The matchers of two selectors that differ at their `$near` conditions only. -/
inductive FieldsDiffer : List (Text × NearArguments) → List DocumentMatcher → List DocumentMatcher →
    Prop where
  | nil : FieldsDiffer [] [] []
  | same {cs : List (Text × NearArguments)} {ms ms' : List DocumentMatcher} (m : DocumentMatcher)
      (h : FieldsDiffer cs ms ms') : FieldsDiffer cs (m :: ms) (m :: ms')
  | near {cs : List (Text × NearArguments)} {ms ms' : List DocumentMatcher} {as : List NearArguments}
      {os os' : List BranchMatcher} (path : Text) (hos : OperatorsDiffer nearMatcher as os os')
      (h : FieldsDiffer cs ms ms') :
      FieldsDiffer (as.map (fun a => (path, a)) ++ cs)
        ((fun document => matchEach os (lookupBranches document path false)) :: ms)
        ((fun document => matchEach os' (lookupBranches document path false)) :: ms')

end

theorem compileOperator_of_ne {p : Platform} {operator : Text} (h : operator ≠ js "$near")
    (root root' : Option NearMatcher) (selector : List (Text × Value)) (operand : Value)
    (asValue : Except Text BranchMatcher) (asDocument : Except Text DocumentMatcher) :
    compileOperator p root selector operator operand asValue asDocument =
      compileOperator p root' selector operator operand asValue asDocument := by
  unfold compileOperator
  rw [if_neg h, if_neg h]

theorem compileOperator_near {p : Platform} (nearMatcher : NearMatcher) (selector : List (Text × Value))
    (operand : Value) (asValue : Except Text BranchMatcher) (asDocument : Except Text DocumentMatcher) :
    compileOperator p (some nearMatcher) selector (js "$near") operand asValue asDocument = (do
      let a ← nearArguments operand selector
      .ok fun branches => .ok (nearMatcher a branches)) := rfl

theorem compileOperators_differ {p : Platform} {nearMatcher : NearMatcher}
    {selector : List (Text × Value)} : ∀ {es : List (Text × Value)} {ms : List BranchMatcher},
    compileOperators p (some nearMatcher) selector es = .ok ms →
      ∃ ms', compileOperators p (some alwaysNear) selector es = .ok ms' ∧
        OperatorsDiffer nearMatcher (nearOperators selector es) ms ms'
  | [], ms, h => by
    cases h
    exact ⟨[], rfl, .nil⟩
  | (operator, operand) :: rest, ms, h => by
    rw [compileOperators] at h
    obtain ⟨m, hm, h⟩ := bind_eq_ok h
    obtain ⟨ms₁, hrest, h⟩ := bind_eq_ok h
    cases h
    obtain ⟨ms', hms', hdiffer⟩ := compileOperators_differ hrest
    unfold compileOperators
    rw [hms', nearOperators]
    by_cases hop : operator = js "$near"
    · subst hop
      rw [compileOperator_near] at hm ⊢
      obtain ⟨a, ha, hm⟩ := bind_eq_ok hm
      cases hm
      rw [if_pos rfl, ha]
      exact ⟨_, rfl, .near a hdiffer⟩
    · rw [compileOperator_of_ne hop (some alwaysNear) (some nearMatcher), hm, if_neg hop]
      exact ⟨_, rfl, .same m hdiffer⟩

/-- An object that is no operator object has no operators. -/
theorem nearOperators_of_literal {es : List (Text × Value)}
    (h : isOperatorObject (.obj es) = .ok false) (selector : List (Text × Value)) :
    nearOperators selector es = [] := by
  have hkeys : ∀ m ∈ es, m.1 ≠ js "$near" := by
    cases es with
    | nil => exact fun m hm => absurd hm List.not_mem_nil
    | cons e es =>
      rw [isOperatorObject, List.map_cons] at h
      dsimp only at h
      split at h
      · next hall =>
        have hfirst := Except.ok.inj h
        intro m hm hnear
        have hoperator : (startsWith (js "$") m.1 || m.1 == js "diff") = true := by
          rw [hnear]
          decide
        rcases List.mem_cons.mp hm with rfl | hm
        · rw [hoperator] at hfirst
          cases hfirst
        · have hsame := List.all_eq_true.mp hall _ (List.mem_map_of_mem hm)
          rw [hoperator, hfirst] at hsame
          cases hsame
      · cases h
  clear h
  induction es with
  | nil => rfl
  | cons e es ih =>
    rw [nearOperators, if_neg (hkeys e List.mem_cons_self)]
    exact ih fun m hm => hkeys m (List.mem_cons_of_mem _ hm)

/-- The condition of a field: one of its operators may be `$near`, or it has none. -/
theorem compileValue_differ {p : Platform} {nearMatcher : NearMatcher} {value : Value} {m : BranchMatcher}
    {path : Text} (hpath : ¬startsWith (js "$") path = true)
    (h : compileValue p (some nearMatcher) value = .ok m) :
    (∃ os os', m = matchEach os ∧ compileValue p (some alwaysNear) value = .ok (matchEach os') ∧
      OperatorsDiffer nearMatcher (nearField path value) os os') ∨
    compileValue p (some alwaysNear) value = .ok m ∧ nearField path value = [] := by
  cases value with
  | obj es =>
    rw [nearField, if_neg hpath]
    rw [compileValue] at h ⊢
    cases hoperator : isOperatorObject (.obj es) with
    | error e =>
      rw [hoperator] at h
      cases h
    | ok isOperator =>
      rw [hoperator] at h
      cases isOperator with
      | true =>
        have hcompiled : (do
            let os ← compileOperators p (some nearMatcher) es es
            .ok (matchEach os)) = Except.ok m := h
        obtain ⟨os, hos, hm⟩ := bind_eq_ok hcompiled
        cases hm
        obtain ⟨os', hos', hdiffer⟩ := compileOperators_differ hos
        refine .inl ⟨os, os', rfl, ?_, hdiffer⟩
        simp only [bind, Except.bind, hos']
        rfl
      | false =>
        exact .inr ⟨h, nearOperators_of_literal hoperator es⟩
  | _ =>
    unfold nearField
    rw [if_neg hpath]
    exact .inr ⟨h, rfl⟩

theorem compileDocument_differ {p : Platform} {nearMatcher : NearMatcher} :
    ∀ {es : List (Text × Value)} {ms : List DocumentMatcher},
    compileDocument p (some nearMatcher) es = .ok ms →
      ∃ ms', compileDocument p (some alwaysNear) es = .ok ms' ∧
        FieldsDiffer nearMatcher (nearFields es) ms ms'
  | [], ms, h => by
    cases h
    exact ⟨[], rfl, .nil⟩
  | (path, value) :: rest, ms, h => by
    rw [compileDocument] at h
    obtain ⟨m, hm, h⟩ := bind_eq_ok h
    obtain ⟨ms₁, hrest, h⟩ := bind_eq_ok h
    cases h
    obtain ⟨ms', hms', hdiffer⟩ := compileDocument_differ hrest
    rw [compileDocument, hms', nearFields]
    unfold compileField at hm ⊢
    by_cases hpath : startsWith (js "$") path = true
    · -- Below a logical operator nothing is at the root.
      rw [if_pos hpath] at hm ⊢
      have hnone : nearField path value = [] := by
        unfold nearField
        rw [if_pos hpath]
      rw [hm, hnone]
      exact ⟨_, rfl, .same m hdiffer⟩
    · rw [if_neg hpath] at hm ⊢
      obtain ⟨valueMatcher, hvalue, hm⟩ := bind_eq_ok hm
      cases hm
      rcases compileValue_differ hpath hvalue with ⟨os, os', rfl, hvalue', hos⟩ | ⟨hvalue', hnone⟩
      · rw [hvalue']
        exact ⟨_, rfl, .near path hos hdiffer⟩
      · rw [hvalue', hnone]
        exact ⟨_, rfl, .same _ hdiffer⟩

/-! ## What `$near` changes in a match -/

theorem matchEach_met {ms : List BranchMatcher} {branches : List ValueBranch} :
    Met (matchEach ms) branches ↔ ∀ m ∈ ms, Met m branches := by
  have hresults : ∀ ms : List BranchMatcher,
      (∃ rs, (ms.mapM fun m => m branches) = .ok rs ∧ rs.all (·.result) = true) ↔
        ∀ m ∈ ms, Met m branches := by
    intro ms
    induction ms with
    | nil => exact iff_of_true ⟨[], rfl, rfl⟩ (by simp)
    | cons m ms ih =>
      rw [List.forall_mem_cons, ← ih]
      constructor
      · rintro ⟨rs, hrs, hall⟩
        rw [List.mapM_cons] at hrs
        obtain ⟨r, hr, hrs⟩ := bind_eq_ok hrs
        obtain ⟨rest, hrest, hrs⟩ := bind_eq_ok hrs
        cases hrs
        obtain ⟨hresult, hall⟩ := Bool.and_eq_true_iff.mp hall
        exact ⟨⟨r, hr, hresult⟩, rest, hrest, hall⟩
      · rintro ⟨⟨r, hr, hresult⟩, rest, hrest, hall⟩
        refine ⟨r :: rest, ?_, ?_⟩
        · rw [List.mapM_cons, hr, hrest]
          rfl
        · rw [List.all_cons, hresult, hall]
          rfl
  rw [← hresults]
  constructor
  · rintro ⟨r, hr, hresult⟩
    obtain ⟨rs, hrs, hr⟩ := bind_eq_ok hr
    cases hr
    exact ⟨rs, hrs, hresult⟩
  · rintro ⟨rs, hrs, hall⟩
    exact ⟨_, by rw [matchEach, hrs]; rfl, hall⟩

theorem matchAll_met {document : Value} : ∀ {ms : List DocumentMatcher} {n : Option Number}
    {i : Option (List ArrayStep)}, Met (matchAll ms n i) document ↔ ∀ m ∈ ms, Met m document
  | [], _, _ => iff_of_true ⟨_, rfl, rfl⟩ (by simp)
  | m :: ms, n, i => by
    rw [List.forall_mem_cons]
    constructor
    · rintro ⟨r, hr, hresult⟩
      obtain ⟨r₁, hr₁, hr⟩ := bind_eq_ok hr
      split at hr
      · cases hr
        cases hresult
      · next hmet => exact ⟨⟨r₁, hr₁, by simpa using hmet⟩, matchAll_met.mp ⟨r, hr, hresult⟩⟩
    · rintro ⟨⟨r₁, hr₁, hmet⟩, hrest⟩
      have htail : Met (matchAll ms (r₁.distance <|> n) (r₁.arrayIndices <|> i)) document :=
        matchAll_met.mpr hrest
      obtain ⟨r, hr, hresult⟩ := htail
      refine ⟨r, ?_, hresult⟩
      simp only [matchAll, bind, Except.bind, hr₁, hmet, Bool.not_true, Bool.false_eq_true, if_false]
      exact hr

theorem operators_met {nearMatcher : NearMatcher} {as : List NearArguments} {ms ms' : List BranchMatcher}
    {branches : List ValueBranch} (h : OperatorsDiffer nearMatcher as ms ms') :
    (∀ m ∈ ms, Met m branches) ↔ (∀ m ∈ ms', Met m branches) ∧
      ∀ a ∈ as, (nearMatcher a branches).result = true := by
  induction h with
  | nil => simp
  | same m h ih => rw [List.forall_mem_cons, List.forall_mem_cons, ih, and_assoc]
  | near a h ih =>
    have halways : Met (fun branches => .ok (alwaysNear a branches)) branches := ⟨_, rfl, rfl⟩
    have hnear : Met (fun branches => .ok (nearMatcher a branches)) branches ↔
        (nearMatcher a branches).result = true := by simp [Met]
    rw [List.forall_mem_cons, List.forall_mem_cons, List.forall_mem_cons, ih, hnear,
      and_iff_right halways, and_left_comm]

theorem fields_met {nearMatcher : NearMatcher} {cs : List (Text × NearArguments)}
    {ms ms' : List DocumentMatcher} {document : Value} (h : FieldsDiffer nearMatcher cs ms ms') :
    (∀ m ∈ ms, Met m document) ↔ (∀ m ∈ ms', Met m document) ∧
      ∀ c ∈ cs, (nearMatcher c.2 (lookupBranches document c.1 false)).result = true := by
  induction h with
  | nil => simp
  | same m h ih => rw [List.forall_mem_cons, List.forall_mem_cons, ih, and_assoc]
  | @near cs ms ms' as os os' path hos h ih =>
    have hfield : ∀ os : List BranchMatcher,
        Met (fun document => matchEach os (lookupBranches document path false)) document ↔
          ∀ m ∈ os, Met m (lookupBranches document path false) := fun os => matchEach_met
    rw [List.forall_mem_cons, List.forall_mem_cons, ih, hfield, hfield, operators_met hos,
      List.forall_mem_append, List.forall_mem_map]
    exact and_and_and_comm

/-- **A selector is met exactly when** all its conditions but `$near` are met and each of its
`$near` conditions is. -/
theorem selector_met {p : Platform} {nearMatcher : NearMatcher} {selector document : Value}
    {m : DocumentMatcher} (h : compileSelector p nearMatcher selector = .ok m) :
    Met m document ↔ MeetsOthers p selector document ∧ MeetsNear nearMatcher selector document := by
  -- A selector without conditions compiles to one matcher, whatever `$near` does.
  have hplain : nearConditions selector = [] → compileSelector p alwaysNear selector = .ok m →
      (Met m document ↔ MeetsOthers p selector document ∧ MeetsNear nearMatcher selector document) := by
    intro hnone hsame
    have hothers : MeetsOthers p selector document ↔ Met m document := by
      constructor
      · rintro ⟨m', hm', hmet⟩
        rw [hsame] at hm'
        cases hm'
        exact hmet
      · exact fun hmet => ⟨m, hsame, hmet⟩
    have hnear : MeetsNear nearMatcher selector document := by
      intro c hc
      rw [hnone] at hc
      cases hc
    rw [hothers, and_iff_left hnear]
  cases selector with
  | obj es =>
    by_cases hid : (getOwn (js "_id") es).any isFalsy = true
    · refine hplain (by rw [nearConditions, if_pos hid]) ?_
      rw [compileSelector, if_pos hid] at h ⊢
      exact h
    · rw [compileSelector, if_neg hid] at h
      obtain ⟨ms, hms, h⟩ := bind_eq_ok h
      cases h
      obtain ⟨ms', hms', hdiffer⟩ := compileDocument_differ hms
      have hothers : MeetsOthers p (.obj es) document ↔ ∀ m ∈ ms', Met m document := by
        rw [MeetsOthers, compileSelector, if_neg hid, hms']
        simp only [bind, Except.bind, Except.ok.injEq, exists_eq_left']
        exact matchAll_met
      rw [matchAll_met, fields_met hdiffer, hothers, MeetsNear, nearConditions, if_neg hid]
  | _ => exact hplain rfl h

/-! ## The two readings of `$near` -/

/-- One of the points that the branches lead to is within the greatest distance. -/
def Within (p : Platform) (a : NearArguments) (branches : List ValueBranch) : Prop :=
  ∃ branch ∈ expandArrays branches false, ∃ candidate, point branch.value = some candidate ∧
    numLe (a.distance p candidate) a.maxDistance = true

/-- The first point that the branches lead to was found through an array. -/
def FirstIndexed (branches : List ValueBranch) : Prop :=
  ∃ branch, (expandArrays branches false).find? (fun b => (point b.value).isSome) = some branch ∧
    branch.arrayIndices.isSome = true

theorem nearLoop_read {p : Platform} {a : NearArguments} : ∀ (branches : List ValueBranch)
    (nearest : Option Number) (indices : Option (List ArrayStep)),
    (nearLoop p false a branches nearest indices).1.isSome = true ↔ nearest.isSome = true ∨
      ∃ branch ∈ branches, ∃ candidate, point branch.value = some candidate ∧
        numLe (a.distance p candidate) a.maxDistance = true
  | [], nearest, indices => by simp [nearLoop]
  | branch :: rest, nearest, indices => by
    rw [nearLoop]
    cases hpoint : point branch.value with
    | none =>
      rw [nearLoop_read rest nearest indices]
      simp [hpoint]
    | some candidate =>
      simp only [Bool.false_eq_true, if_false]
      split
      · next hnearer =>
        rw [nearLoop_read rest]
        exact iff_of_true (.inl rfl) (.inr ⟨branch, List.mem_cons_self, candidate, hpoint,
          (Bool.and_eq_true_iff.mp hnearer).1⟩)
      · next hfarther =>
        rw [nearLoop_read rest nearest indices]
        constructor
        · rintro (h | ⟨b, hb, h⟩)
          · exact .inl h
          · exact .inr ⟨b, List.mem_cons_of_mem _ hb, h⟩
        · rintro (h | ⟨b, hb, c, hc, hle⟩)
          · exact .inl h
          · rcases List.mem_cons.mp hb with rfl | hb
            · rw [hpoint] at hc
              cases hc
              -- It is near enough, so another one was nearer.
              cases nearest with
              | none => exact absurd (by rw [hle]; rfl) hfarther
              | some n => exact .inl rfl
            · exact .inr ⟨b, hb, c, hc, hle⟩

theorem near_read_met {p : Platform} {a : NearArguments} {branches : List ValueBranch} :
    (near p false a branches).result = true ↔ Within p a branches := by
  have hloop := nearLoop_read (p := p) (a := a) (expandArrays branches false) none none
  rw [Option.isSome_none, Bool.false_eq_true, false_or] at hloop
  rw [Within, ← hloop, near]
  cases (nearLoop p false a (expandArrays branches false) none none).1 <;> simp [MatchResult.only]

theorem nearLoop_write {p : Platform} {a : NearArguments} : ∀ (branches : List ValueBranch),
    nearLoop p true a branches none none = (none,
      (branches.find? fun b => (point b.value).isSome).bind ValueBranch.arrayIndices)
  | [] => rfl
  | branch :: rest => by
    rw [nearLoop, List.find?_cons]
    cases hpoint : point branch.value with
    | none => exact nearLoop_write rest
    | some candidate => rfl

theorem near_write_met {p : Platform} {a : NearArguments} {branches : List ValueBranch} :
    (near p true a branches).result = true ↔ FirstIndexed branches := by
  rw [near, nearLoop_write, FirstIndexed]
  cases (expandArrays branches false).find? fun b => (point b.value).isSome with
  | none => simp [MatchResult.only]
  | some branch =>
    cases hindices : branch.arrayIndices <;> simp [hindices, MatchResult.only]

/-! ## Documents that are selected -/

theorem mem_filterDocuments {m : DocumentMatcher} {d : Value} : ∀ {documents selected : List Value},
    filterDocuments m documents = .ok selected → (d ∈ selected ↔ d ∈ documents ∧ Met m d)
  | [], selected, h => by
    cases h
    simp
  | document :: rest, selected, h => by
    obtain ⟨r, hr, h⟩ := bind_eq_ok h
    obtain ⟨others, hothers, h⟩ := bind_eq_ok h
    cases h
    have ih := mem_filterDocuments (d := d) hothers
    have hmet : Met m document ↔ r.result = true := by simp [Met, hr]
    split
    · next hresult =>
      rw [List.mem_cons, List.mem_cons, ih, or_and_right]
      refine or_congr_left ⟨fun heq => ⟨heq, ?_⟩, And.left⟩
      rw [heq]
      exact hmet.mpr hresult
    · next hresult =>
      rw [ih, List.mem_cons, or_and_right, iff_or_self]
      rintro ⟨rfl, hd⟩
      exact absurd (hmet.mp hd) hresult

/-- A cursor selects as `matchedDocuments` does. -/
theorem filterDocuments_of_select {string : Value → Text} {m : DocumentMatcher} :
    ∀ {documents : List Value} {selected : List Value × List (Text × Number)},
    selectDocuments string m documents = .ok selected → filterDocuments m documents = .ok selected.1
  | [], selected, h => by
    cases h
    rfl
  | document :: rest, selected, h => by
    obtain ⟨r, hr, h⟩ := bind_eq_ok h
    obtain ⟨others, hothers, h⟩ := bind_eq_ok h
    cases h
    rw [filterDocuments, hr, filterDocuments_of_select hothers]
    simp only [bind, Except.bind]
    split <;> rfl

theorem sort_perm {sorter : Comparator} {distances : List (Text × Number)} {documents sorted : List Value}
    (h : sorter.sort distances documents = .ok sorted) : sorted.Perm documents := by
  unfold Comparator.sort at h
  split at h
  · cases h
    exact List.perm_insertionSort _ _
  · cases h
    exact List.perm_insertionSort _ _
  · exact sortByParts_perm h

/-- `find(selector)`, without options. -/
def noOptions : FindOptions := ⟨none, none, none, []⟩

theorem mem_fetch {p : Platform} {selector : Value} {c : Cursor} {documents fetched : List Value}
    {m : DocumentMatcher} (hm : matcher p false selector = .ok m) (hc : find p selector noOptions = .ok c)
    (h : c.fetch p documents = .ok fetched) (d : Value) : d ∈ fetched ↔ d ∈ documents ∧ Met m d := by
  rw [find, hm] at hc
  obtain ⟨m', hm', hc⟩ := bind_eq_ok hc
  obtain ⟨sorter, hsorter, hc⟩ := bind_eq_ok hc
  obtain ⟨projection, hprojection, hc⟩ := bind_eq_ok hc
  cases hm'
  cases hc
  obtain ⟨raw, hraw, h⟩ := bind_eq_ok h
  obtain ⟨⟨selected, distances⟩, hselected, hraw⟩ := bind_eq_ok hraw
  obtain ⟨sorted, hsorted, hraw⟩ := bind_eq_ok hraw
  cases hraw
  cases h
  have hperm : sorted.Perm selected := by
    cases sorter with
    | none =>
      cases hsorted
      exact List.Perm.refl _
    | some sorter => exact sort_perm hsorted
  have hstart : sliceIndex sorted.length (.finite (ofInt 0)) = 0 :=
    Nat.zero_min sorted.length
  change d ∈ ((sorted.take sorted.length).drop (sliceIndex sorted.length (.finite (ofInt 0)))).map
    (fun d => d) ↔ _
  rw [hstart, List.take_length, List.drop_zero, List.map_id', hperm.mem_iff]
  exact mem_filterDocuments (filterDocuments_of_select hselected)

/-! ## Reads and writes -/

/-- What `remove` deletes and what an update of many documents modifies, where it returns, are
the documents that were fetched. -/
structure Agrees (rt : LocalStoreRuntime Value (Option Text) Value Value)
    (observers : List (OMap (Option Text) Value → Except Text Unit)) (store : OMap (Option Text) Value)
    (selector : Value) (fetched : List Value) : Prop where
  removed : ∀ id d, store.get id = some d →
    ((remove rt observers store selector).store.get id = none ↔ d ∈ fetched)
  updated : ∀ modifier n, (update rt observers store selector modifier true).result = .ok n →
    ∀ d, (∃ d', .update d d' ∈ (update rt observers store selector modifier true).events) ↔ d ∈ fetched

/-- What the two readings of the `$near` conditions make of a document that meets the rest. -/
def NearAgrees (p : Platform) (selector document : Value) : Prop :=
  (∀ c ∈ nearConditions selector, Within p c.2 (lookupBranches document c.1 false)) ↔
    ∀ c ∈ nearConditions selector, FirstIndexed (lookupBranches document c.1 false)

section
variable {rt : LocalStoreRuntime Value (Option Text) Value Value}
variable {observers : List (OMap (Option Text) Value → Except Text Unit)}
variable {store : OMap (Option Text) Value} {selector : Value} {selected : List Value}

/-- The documents that are gone are the ones that were selected. -/
theorem removed_iff (hkeyed : Keyed rt store) (h : matchedDocuments rt store selector = .ok selected)
    {id : Option Text} {d : Value} (hd : store.get id = some d) :
    (remove rt observers store selector).store.get id = none ↔ d ∈ selected := by
  have hstore : (remove rt observers store selector).store = store.deleteAll (selected.map rt.idOf) := by
    rw [remove, h, OMap.deleteAll, List.foldl_map]
    rfl
  have hid : rt.idOf d = id := hkeyed (id, d) (OMap.get_eq_some.mp hd)
  rw [hstore, OMap.get_deleteAll]
  by_cases hmem : id ∈ selected.map rt.idOf
  · obtain ⟨d', hd', hsame⟩ := List.mem_map.mp hmem
    have hget := hkeyed.get ((matchedDocuments_sublist h).subset hd')
    rw [hsame, hd] at hget
    rw [if_pos hmem, Option.some.inj hget]
    exact iff_of_true rfl hd'
  · rw [if_neg hmem, hd]
    refine iff_of_false (Option.some_ne_none d) fun hd' => hmem ?_
    rw [← hid]
    exact List.mem_map_of_mem hd'

/-- The documents of the events of an update that returns are the ones that were selected. -/
theorem updated_iff (h : matchedDocuments rt store selector = .ok selected) {modifier : Value} {n : ℕ}
    (hresult : (update rt observers store selector modifier true).result = .ok n) (d : Value) :
    (∃ d', .update d d' ∈ (update rt observers store selector modifier true).events) ↔ d ∈ selected := by
  have hupdates := update_updates rt observers store selector modifier true
  generalize update rt observers store selector modifier true = o at hupdates hresult
  cases hupdates with
  | refused h' => cases hresult
  | failed h' hmulti hus hd => cases hresult
  | idle h' =>
    rw [h] at h'
    cases h'
    simp
  | @through documents us h' hne hus =>
    rw [h] at h'
    cases h'
    have hprevious : us.map Prod.fst = selected := hus.previous
    rw [← hprevious]
    constructor
    · rintro ⟨d', hmem⟩
      obtain ⟨u, hu, heq⟩ := List.mem_map.mp hmem
      cases heq
      exact List.mem_map_of_mem hu
    · intro hmem
      obtain ⟨u, hu, rfl⟩ := List.mem_map.mp hmem
      exact ⟨u.2, List.mem_map.mpr ⟨u, hu, rfl⟩⟩

end

/-- **When reads and writes select the same documents.** On a collection that has every
document under its own id, and where neither of the two throws, `remove` and updates of many
documents take exactly the documents of `find` if and only if, for every stored document that
meets the rest of the selector, all its `$near` conditions have a point within their greatest
distance exactly when the first points of all of them were found through arrays. -/
theorem reads_and_writes_agree_iff (p : Platform) (now : ℤ)
    (observers : List (OMap (Option Text) Value → Except Text Unit)) {store : OMap (Option Text) Value}
    {selector : Value} {c : Cursor} {selected fetched : List Value}
    (hkeyed : Keyed (localStoreRuntime p now) store)
    (hwrite : matchedDocuments (localStoreRuntime p now) store selector = .ok selected)
    (hfind : find p selector noOptions = .ok c) (hread : c.fetch p store.values = .ok fetched) :
    Agrees (localStoreRuntime p now) observers store selector fetched ↔
      ∀ d ∈ store.values, MeetsOthers p selector d → NearAgrees p selector d := by
  obtain ⟨writes, hwrites, hselected⟩ := bind_eq_ok hwrite
  obtain ⟨reads, hreads, -⟩ := bind_eq_ok hfind
  have hmemWrite : ∀ d, d ∈ selected ↔ d ∈ store.values ∧ MeetsOthers p selector d ∧
      ∀ c ∈ nearConditions selector, FirstIndexed (lookupBranches d c.1 false) := by
    intro d
    rw [mem_filterDocuments hselected, selector_met hwrites, MeetsNear]
    simp only [near_write_met]
  have hmemRead : ∀ d, d ∈ fetched ↔ d ∈ store.values ∧ MeetsOthers p selector d ∧
      ∀ c ∈ nearConditions selector, Within p c.2 (lookupBranches d c.1 false) := by
    intro d
    rw [mem_fetch hreads hfind hread, selector_met hreads, MeetsNear]
    simp only [near_read_met]
  have hsets : (∀ d ∈ store.values, MeetsOthers p selector d → NearAgrees p selector d) ↔
      ∀ d, d ∈ selected ↔ d ∈ fetched := by
    simp only [hmemWrite, hmemRead, NearAgrees]
    constructor
    · intro h d
      refine and_congr_right fun hd => and_congr_right fun hothers => (h d hd hothers).symm
    · intro h d hd hothers
      have hboth := h d
      rw [and_iff_right hd, and_iff_right hothers, and_iff_right hd, and_iff_right hothers] at hboth
      exact hboth.symm
  rw [hsets]
  constructor
  · intro hagrees d
    by_cases hd : d ∈ store.values
    · have hget := hkeyed.get hd
      rw [← hagrees.removed _ d hget, removed_iff hkeyed hwrite hget]
    · rw [hmemWrite, hmemRead]
      exact iff_of_false (fun h => hd h.1) fun h => hd h.1
  · intro hsame
    refine ⟨fun id d hd => ?_, fun modifier n hn d => ?_⟩
    · rw [removed_iff hkeyed hwrite hd]
      exact hsame d
    · rw [updated_iff hwrite hn]
      exact hsame d

/-! ## Points near the origin -/

/-- A document with a list of places, and one whose place has no point. -/
def places : OMap (Option Text) Value :=
  let rt := localStoreRuntime .integral 0
  let loc : Value := .arr [.num (.finite (ofInt 3)), .num (.finite (ofInt 4))]
  let first := perform rt [] .empty (.insert [] (.obj [(js "_id", .str (js "aaaaaaaaaaaaaaaaaaaaaaaa")),
    (js "places", .arr [.obj [(js "loc", loc)]])]))
  (perform rt [] first.store (.insert [] (.obj [(js "_id", .str (js "bbbbbbbbbbbbbbbbbbbbbbbb")),
    (js "places", .obj [(js "loc", .str (js "home"))])]))).store

/-- `{ 'places.loc': { $near: [0, 0] } }` -/
def nearPlace : Value :=
  .obj [(js "places.loc", .obj [(js "$near", .arr [.num (.finite (ofInt 0)), .num (.finite (ofInt 0))])])]

theorem places_keyed : Keyed (localStoreRuntime .integral 0) places := by
  unfold Keyed
  decide +kernel

/-- The point of the first document is found through an array, and the second one has none. -/
theorem reads_and_writes_agree_iff_places : ∃ c fetched,
    find .integral nearPlace noOptions = .ok c ∧ c.fetch .integral places.values = .ok fetched ∧
    fetched.length = 1 ∧ Agrees (localStoreRuntime .integral 0) [] places nearPlace fetched := by
  have hwrite : matchedDocuments (localStoreRuntime .integral 0) places nearPlace =
      .ok (places.values.take 1) := rfl
  have hnear : ∀ d ∈ places.values,
      (∀ c ∈ nearConditions nearPlace, (near .integral false c.2 (lookupBranches d c.1 false)).result = true) ↔
        ∀ c ∈ nearConditions nearPlace, (near .integral true c.2 (lookupBranches d c.1 false)).result = true := by
    decide +kernel
  refine ⟨_, places.values.take 1, rfl, rfl, rfl, ?_⟩
  refine (reads_and_writes_agree_iff .integral 0 [] places_keyed hwrite rfl rfl).mpr fun d hd _ => ?_
  simpa only [NearAgrees, near_read_met, near_write_met] using hnear d hd

/-- An insert of `{ loc: [3, 4] }` into an empty collection. -/
def onePoint : OMap (Option Text) Value :=
  (perform (localStoreRuntime .integral 0) [] .empty (.insert [] (.obj [
    (js "_id", .str (js "aaaaaaaaaaaaaaaaaaaaaaaa")),
    (js "loc", .arr [.num (.finite (ofInt 3)), .num (.finite (ofInt 4))])]))).store

/-- `{ loc: { $near: [0, 0] } }` -/
def nearOrigin : Value :=
  .obj [(js "loc", .obj [(js "$near", .arr [.num (.finite (ofInt 0)), .num (.finite (ofInt 0))])])]

/-- A plain point was not found through an array, so it is fetched and not removed. -/
theorem nearOrigin_not_agrees : ∃ c fetched,
    find .integral nearOrigin noOptions = .ok c ∧ c.fetch .integral onePoint.values = .ok fetched ∧
    ¬Agrees (localStoreRuntime .integral 0) [] onePoint nearOrigin fetched := by
  refine ⟨_, onePoint.values, rfl, rfl, fun h => ?_⟩
  have hd : onePoint.get (some (js "aaaaaaaaaaaaaaaaaaaaaaaa")) = onePoint.values.head? := rfl
  cases hvalues : onePoint.values with
  | nil => exact absurd hvalues (by decide +kernel)
  | cons d rest =>
    rw [hvalues] at hd h
    have hnone := (h.removed _ d hd).mpr List.mem_cons_self
    exact absurd hnone (by decide +kernel)

end TypeFerry.Minimongo.Selection
