import TypeFerry.Server.ValidatorPreserved

/-! # The `_id` of a stored document

MongoDB gives a document an `_id` before it validates it: a document that the schema accepts without one is accepted with
one. -/
namespace TypeFerry.Server.ValidatorIds
open TypeFerry.Lib.Numeral TypeFerry.Lib.JsonText TypeFerry.Lib.OrderedMap TypeFerry.Lib.Schemas
open TypeFerry.Server.Validator TypeFerry.Server.ValidatorMeaning TypeFerry.Server.ValidatorSteps
open TypeFerry.Server.ValidatorPreserved

/-- The names in a value of `properties`. -/
def hasNoId : Json → Bool
  | .obj properties => (lookup (js "_id") properties).isNone
  | _ => false

def isTrue : Json → Bool
  | .bool b => b
  | _ => false

def isId : Json → Bool
  | .str s => s = js "_id"
  | _ => false

/-- A member of a schema for objects that does not mention `_id`. Without `properties` there is none for `_id`, and nothing
may be asked of the properties that are not there. -/
def describesMember (hasProperties : Bool) (m : Text × Argument Bool) : Bool :=
  (keywordOf m.1).isNone || m.1 = js "bsonType" || (m.1 = js "properties" && hasNoId m.2.json) ||
    (m.1 = js "additionalProperties" && (hasProperties || isTrue m.2.json)) ||
    (m.1 = js "required" && (elemsOf m.2.json).all fun name => !isId name)

def describesAlternatives (m : Text × Argument Bool) : Bool :=
  (keywordOf m.1).isNone || (m.1 ∈ combinators && isArray m.2.json && m.2.elems.all id)

/-- A converted schema for objects, or alternatives of such schemas, none of which mentions `_id`. -/
def describesObjects : Json → Bool :=
  fold (fun schema =>
    if ((lookup (js "bsonType") schema).map Argument.json).any isObjectType then
      schema.all (describesMember (lookup (js "properties") schema).isSome)
    else schema.all describesAlternatives) fun _ => false

section
variable {e : Engine} {fields : List (Text × Bson)} {hex : Text}

/-- The document as it is stored. -/
abbrev stored (fields : List (Text × Bson)) (hex : Text) : Bson := .obj ((js "_id", .objectId hex) :: fields)

theorem ne_id {f : Text × Bson} (h : lookup (js "_id") fields = none) (hf : f ∈ fields) : f.1 ≠ js "_id" := by
  intro hk
  exact lookup_eq_none.mp h (hk ▸ List.mem_map_of_mem hf)

theorem lookup_stored {k : Text} (hk : k ≠ js "_id") :
    lookup k (stored fields hex).fields = lookup k (Bson.obj fields).fields := by
  rw [Bson.fields, lookup, if_neg (Ne.symm hk)]
  rfl

theorem objectIdSchema_accepts : mongoAccepts e objectIdSchema (.objectId hex) = true := by
  have hscalars : scalars [(js "bsonType", mongoArgument e (.str (js "objectId")))] = fun _ => none := by
    funext k
    rw [scalars]
    split
    · next hk =>
      rw [lookup, if_neg (by rintro rfl; exact absurd hk (by decide))]
      rfl
    · rfl
  rw [mongoAccepts, objectIdSchema, fold_obj]
  show mongoNode e [(js "bsonType", mongoArgument e (.str (js "objectId")))] _ = true
  rw [mongoNode, hscalars, e.scalar_none]
  rfl

theorem all_congr_mem {α : Type} {p q : α → Bool} {xs : List α} (h : ∀ x ∈ xs, p x = q x) : xs.all p = xs.all q := by
  induction xs with
  | nil => rfl
  | cons x xs ih =>
    rw [List.all_cons, List.all_cons, h x (List.mem_cons_self ..), ih fun y hy => h y (List.mem_cons_of_mem _ hy)]

theorem properties_stored {as bs : List (Text × Argument Accepts)} {x : Json} (hx : hasNoId x = true) :
    mongoKeyword e bs (mongoArgument e (allowId x)) (stored fields hex) (some .properties) =
      mongoKeyword e as (mongoArgument e x) (.obj fields) (some .properties) := by
  cases x with
  | obj ps =>
    have hnone : lookup (js "_id") ps = none := Option.isNone_iff_eq_none.mp hx
    rw [allowId, hnone]
    simp only [Option.isSome_none, Bool.false_eq_true, if_false, mongoKeyword, argument, membersOf, List.map_cons,
      List.all_cons]
    have hid : (lookup (js "_id") (stored fields hex).fields).all
      (fold (mongoNode e) (fun _ _ => true) objectIdSchema) = true := by
      rw [Bson.fields, lookup, if_pos rfl]
      exact objectIdSchema_accepts
    rw [hid, Bool.true_and, List.all_map, List.all_map]
    refine all_congr_mem fun p hp => ?_
    have hp : p.1 ≠ js "_id" := fun hk => lookup_eq_none.mp hnone (hk ▸ List.mem_map_of_mem hp)
    rw [Function.comp_apply, Function.comp_apply, lookup_stored hp]
  | _ => cases hx

theorem required_stored {as bs : List (Text × Argument Accepts)} {x : Json}
    (hx : ((elemsOf x).all fun name => !isId name) = true) :
    mongoKeyword e bs (mongoArgument e x) (stored fields hex) (some .required) =
      mongoKeyword e as (mongoArgument e x) (.obj fields) (some .required) := by
  refine all_congr_mem fun name hname => ?_
  have hname := List.all_eq_true.mp hx name hname
  cases name with
  | str s =>
    have hs : s ≠ js "_id" := by
      rintro rfl
      revert hname
      decide
    show (lookup s (stored fields hex).fields).isSome = (lookup s fields).isSome
    rw [lookup_stored hs]
    rfl
  | _ => rfl

theorem additional_stored {as bs : List (Text × Argument Accepts)} {x : Json}
    (hfields : lookup (js "_id") fields = none)
    (hnames : propertyNames bs = js "_id" :: propertyNames as) :
    mongoKeyword e bs (mongoArgument e x) (stored fields hex) (some .additionalProperties) =
      mongoKeyword e as (mongoArgument e x) (.obj fields) (some .additionalProperties) := by
  have hall : ∀ accepts : Accepts,
      ((stored fields hex).fields.all fun f => f.1 ∈ propertyNames bs || accepts f.2) =
        fields.all fun f => f.1 ∈ propertyNames as || accepts f.2 := by
    intro accepts
    rw [hnames, Bson.fields, List.all_cons, decide_eq_true (List.mem_cons_self ..), Bool.true_or, Bool.true_and]
    refine all_congr_mem fun f hf => ?_
    rw [decide_eq_decide.mpr (List.mem_cons.trans (or_iff_right (ne_id hfields hf)))]
  cases x with
  | bool b =>
    have hbool := hall fun _ => false
    simp only [Bool.or_false] at hbool
    exact congrArg (b || ·) hbool
  | obj ms => exact hall _
  | _ => rfl

theorem propertyNames_stored {ms : List (Text × Json)} (hproperties : (lookup (js "properties") ms).isSome = true)
    (h : ∀ x, lookup (js "properties") ms = some x → hasNoId x = true) :
    propertyNames ((ms.map fun m => (m.1, if m.1 = js "properties" then allowId m.2 else m.2)).map
      fun m => (m.1, mongoArgument e m.2)) =
      js "_id" :: propertyNames (ms.map fun m => (m.1, mongoArgument e m.2)) := by
  rw [propertyNames_members, propertyNames_members]
  have hlookup : lookup (js "properties")
      (ms.map fun m => (m.1, if m.1 = js "properties" then allowId m.2 else m.2)) =
      (lookup (js "properties") ms).map allowId := by
    clear h hproperties
    induction ms with
    | nil => rfl
    | cons m ms ih =>
      rw [List.map_cons, lookup, lookup]
      split
      · rfl
      · exact ih
  rw [hlookup]
  obtain ⟨x, hx⟩ := Option.isSome_iff_exists.mp hproperties
  have hx' := h x hx
  rw [hx]
  cases x with
  | obj ps =>
    rw [Option.map_some, allowId, Option.isNone_iff_eq_none.mp hx']
    rfl
  | _ => cases hx'

theorem mongoAccepts_obj (ms : List (Text × Json)) :
    mongoAccepts e (.obj ms) = mongoNode e (ms.map fun m => (m.1, mongoArgument e m.2)) := by
  rw [mongoAccepts, fold_obj]

theorem lookup_json {β : Type} (node : List (Text × Argument β) → β) (leaf : Json → β) (k : Text)
    (ms : List (Text × Json)) :
    (lookup k (ms.map fun m => (m.1, argument node leaf m.2))).map Argument.json = lookup k ms := by
  rw [lookup_members, Option.map_map]
  cases lookup k ms <;> rfl

abbrev describesArgument : Json → Argument Bool := argument (fun schema =>
    if ((lookup (js "bsonType") schema).map Argument.json).any isObjectType then
      schema.all (describesMember (lookup (js "properties") schema).isSome)
    else schema.all describesAlternatives) fun _ => false

variable {ms : List (Text × Json)}

theorem describesObjects_obj : describesObjects (.obj ms) =
    if (lookup (js "bsonType") ms).any isObjectType then
      ms.all fun m => describesMember (lookup (js "properties") ms).isSome (m.1, describesArgument m.2)
    else ms.all fun m => describesAlternatives (m.1, describesArgument m.2) := by
  rw [describesObjects, fold_obj, lookup_json, lookup_members, Option.isSome_map, List.all_map, List.all_map]
  rfl

/-- What becomes of the value of a member where the schema is not for objects. -/
def alternatives (m : Text × Json) : Json :=
  if m.1 ∈ combinators ∧ isArray m.2 then .arr ((elemsOf m.2).map allowGeneratedObjectId) else m.2

theorem allowGeneratedObjectId_obj : allowGeneratedObjectId (.obj ms) =
    if (lookup (js "bsonType") ms).any isObjectType then
      .obj (ms.map fun m => (m.1, if m.1 = js "properties" then allowId m.2 else m.2))
    else .obj (ms.map fun m => (m.1, alternatives m)) := by
  rw [allowGeneratedObjectId, fold_obj, lookup_json, List.map_map, List.map_map]
  refine if_congr Iff.rfl rfl (congrArg Json.obj (List.map_congr_left fun m _ => ?_))
  by_cases hm : m.1 ∈ combinators ∧ isArray m.2 = true
  · rw [alternatives, if_pos hm]
    exact if_pos hm
  · rw [alternatives, if_neg hm]
    exact if_neg hm

theorem object_stored
    (h : ∀ m ∈ ms, describesMember (lookup (js "properties") ms).isSome (m.1, describesArgument m.2) = true)
    (hfields : lookup (js "_id") fields = none) :
    mongoAccepts e (.obj (ms.map fun m => (m.1, if m.1 = js "properties" then allowId m.2 else m.2)))
        (stored fields hex) =
      mongoAccepts e (.obj ms) (.obj fields) := by
  have hids : ∀ x, lookup (js "properties") ms = some x → hasNoId x = true := by
    intro x hx
    have hx := h _ (mem_of_lookup hx)
    rw [describesMember, show (keywordOf (js "properties")).isNone = false from rfl] at hx
    have hx : hasNoId (describesArgument x).json = true := by simpa [js] using hx
    exact hx
  rw [mongoAccepts_obj, mongoAccepts_obj, mongoNode, mongoNode, e.scalar_obj, e.scalar_obj, Bool.true_and,
    Bool.true_and]
  rw [List.all_map, List.all_map, List.all_map]
  refine all_congr_mem fun m hm => ?_
  have hm := h m hm
  obtain ⟨k, x⟩ := m
  simp only [describesMember, Bool.or_eq_true, Bool.and_eq_true, decide_eq_true_iff, Option.isNone_iff_eq_none] at hm
  simp only [Function.comp_apply]
  rcases hm with (((hnone | rfl) | ⟨rfl, hx⟩) | ⟨rfl, hx⟩) | ⟨rfl, hx⟩
  · rw [hnone]
    rfl
  · rw [if_neg (by decide)]
    rfl
  · rw [if_pos rfl]
    exact properties_stored hx
  · rw [if_neg (by decide)]
    rcases hx with hproperties | hx
    · exact additional_stored hfields (propertyNames_stored hproperties hids)
    · cases x with
      | bool b =>
        cases b with
        | true => rfl
        | false => cases hx
      | _ => cases hx
  · rw [if_neg (by decide)]
    exact required_stored hx

theorem alternatives_stored (h : ∀ m ∈ ms, describesAlternatives (m.1, describesArgument m.2) = true)
    (ih : ∀ x, Within x (.obj ms) → describesObjects x = true →
      mongoAccepts e (allowGeneratedObjectId x) (stored fields hex) = mongoAccepts e x (.obj fields)) :
    mongoAccepts e (.obj (ms.map fun m => (m.1, alternatives m))) (stored fields hex) =
      mongoAccepts e (.obj ms) (.obj fields) := by
  rw [mongoAccepts_obj, mongoAccepts_obj, mongoNode, mongoNode, e.scalar_obj, e.scalar_obj, Bool.true_and,
    Bool.true_and, List.all_map, List.all_map, List.all_map]
  refine all_congr_mem fun m hm => ?_
  have hdescribes := h m hm
  obtain ⟨k, x⟩ := m
  simp only [describesAlternatives, Bool.or_eq_true, Bool.and_eq_true, decide_eq_true_iff,
    Option.isNone_iff_eq_none] at hdescribes
  simp only [Function.comp_apply]
  rcases hdescribes with hnone | ⟨⟨hk, harr⟩, hall⟩
  · rw [hnone]
    rfl
  · obtain ⟨xs, rfl⟩ := arr_of_isArray harr
    rw [alternatives, if_pos ⟨hk, rfl⟩]
    have hxs : ∀ x ∈ xs,
        mongoAccepts e (allowGeneratedObjectId x) (stored fields hex) = mongoAccepts e x (.obj fields) := by
      intro x hx
      exact ih x ⟨k, _, hm, .elem hx⟩ (List.all_eq_true.mp hall _ (List.mem_map_of_mem hx))
    simp only [combinators, List.mem_cons, List.not_mem_nil, or_false] at hk
    rcases hk with rfl | rfl | rfl
    · show (((xs.map allowGeneratedObjectId).map (mongoAccepts e)).all fun accepts => accepts (stored fields hex)) =
        (xs.map (mongoAccepts e)).all fun accepts => accepts (.obj fields)
      rw [List.map_map, List.all_map, List.all_map]
      exact all_congr_mem hxs
    · show (((xs.map allowGeneratedObjectId).map (mongoAccepts e)).any fun accepts => accepts (stored fields hex)) =
        (xs.map (mongoAccepts e)).any fun accepts => accepts (.obj fields)
      rw [List.map_map, List.any_map, List.any_map]
      exact any_congr_mem hxs
    · show decide (((xs.map allowGeneratedObjectId).map (mongoAccepts e)).countP
      (fun accepts => accepts (stored fields hex)) = 1) =
        decide ((xs.map (mongoAccepts e)).countP (fun accepts => accepts (.obj fields)) = 1)
      rw [List.map_map, List.countP_map, List.countP_map, List.countP_congr fun x hx => ?_]
      exact Bool.eq_iff_iff.mp (hxs x hx)

theorem objects_stored (t : Json) : describesObjects t = true → ∀ fields : List (Text × Bson),
    lookup (js "_id") fields = none →
    mongoAccepts e (allowGeneratedObjectId t) (stored fields hex) = mongoAccepts e t (.obj fields) := by
  induction t using within_induction with | _ t ih
  intro hdescribes fields hfields
  cases t with
  | obj ms =>
    rw [describesObjects_obj] at hdescribes
    rw [allowGeneratedObjectId_obj]
    split at hdescribes
    · next hobject =>
      rw [if_pos hobject]
      exact object_stored (List.all_eq_true.mp hdescribes) hfields
    · next hobject =>
      rw [if_neg hobject]
      exact alternatives_stored (List.all_eq_true.mp hdescribes) fun x hx hdescribes => ih x hx hdescribes fields hfields
  | _ => cases hdescribes

/-! ## From the schema to what is stored -/

theorem key_ne_schema {key : Text} {x : Json} {r : Text × Json} (h : Converted key x (some r)) :
    r.1 ≠ js "$schema" := by
  have hne : ∀ k ∈ BSON_SCHEMA_KEYS, k ≠ js "$schema" := by decide
  refine hne _ ?_
  cases h with
  | type => exact (by decide : js "bsonType" ∈ BSON_SCHEMA_KEYS)
  | properties => exact (by decide : js "properties" ∈ BSON_SCHEMA_KEYS)
  | @schema _ ms y hkey =>
    show key ∈ BSON_SCHEMA_KEYS
    rcases hkey with rfl | rfl | rfl <;> decide
  | @combinator _ xs ys hkey =>
    show key ∈ BSON_SCHEMA_KEYS
    simp only [combinators, List.mem_cons, List.not_mem_nil, or_false] at hkey
    rcases hkey with rfl | rfl | rfl <;> decide
  | additional => exact (by decide : js "additionalProperties" ∈ BSON_SCHEMA_KEYS)
  | const => exact (by decide : js "enum" ∈ BSON_SCHEMA_KEYS)
  | copied hkey => exact hkey

/-- No `$schema` is left to delete. -/
theorem toMongoJsonSchema_eq {s t : Json} (h : convertSchema s [] = .ok t) :
    toMongoJsonSchema s = .ok (allowGeneratedObjectId t) := by
  have hbind : toMongoJsonSchema s =
      .ok (allowGeneratedObjectId (.obj ((membersOf t).filter fun m => m.1 ≠ js "$schema"))) := by
    rw [toMongoJsonSchema, h]
    rfl
  obtain ⟨ms, ns, assigned, -, -, hall, rfl⟩ := converted_schema ⟨[], h⟩
  rw [hbind, membersOf, List.filter_eq_self.mpr]
  intro r hr
  obtain ⟨m, -, hconverted⟩ := exists_member hall hr
  exact decide_eq_true (key_ne_schema hconverted)

end

end TypeFerry.Server.ValidatorIds
