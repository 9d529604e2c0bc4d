import TypeFerry.Server.Validator

/-! # What the validators accept

A schema in draft 04 and one in the dialect of MongoDB, as predicates on the values of a document: what a validator is for
is that both accept the same. `integer` is read as `number`, a tuple has at least its items,
and the formats are notes. -/
namespace TypeFerry.Server.ValidatorMeaning
open TypeFerry.Lib.Numeral TypeFerry.Lib.JsonText TypeFerry.Lib.OrderedMap TypeFerry.Lib.Schemas
open TypeFerry.Server.Validator

/-! ## Values -/

inductive NumericType where
  | int
  | long
  | double
  | decimal
  deriving DecidableEq

/-- A value in a document. -/
inductive Bson where
  | null
  | bool (b : Bool)
  | num (type : NumericType) (d : Decimal)
  | str (s : Text)
  | arr (vs : List Bson)
  | obj (fields : List (Text × Bson))
  | objectId (hex : Text)
  | date (ms : Int)

namespace Bson

def fields : Bson → List (Text × Bson)
  | .obj fields => fields
  | _ => []

def elems : Bson → List Bson
  | .arr vs => vs
  | _ => []

/-- The names of its type in draft 04. -/
def jsonTypes : Bson → List Text
  | .null => [js "null"]
  | .bool _ => [js "boolean"]
  | .num .. => [js "number", js "integer"]
  | .str _ => [js "string"]
  | .arr _ => [js "array"]
  | .obj _ => [js "object"]
  | .objectId _ | .date _ => []

def bsonTypes : Bson → List Text
  | .null => [js "null"]
  | .bool _ => [js "bool"]
  | .num .int _ => [js "int", js "number"]
  | .num .long _ => [js "long", js "number"]
  | .num .double _ => [js "double", js "number"]
  | .num .decimal _ => [js "decimal", js "number"]
  | .str _ => [js "string"]
  | .arr _ => [js "array"]
  | .obj _ => [js "object"]
  | .objectId _ => [js "objectId"]
  | .date _ => [js "date"]

end Bson

/-! ## Keywords -/

/-- What both dialects leave to the values: when one is that of an `enum`, and the keywords for numbers, strings and
arrays that no schema is in. -/
structure Engine where
  equal : Json → Bson → Bool
  scalar : (Text → Option Json) → Bson → Bool
  equal_congr (i j : Json) (v : Bson) : deepEqual i j = true → equal i v = equal j v
  scalar_congr (f g : Text → Option Json) (v : Bson) :
    (∀ k, Option.Rel (fun i j => deepEqual i j = true) (f k) (g k)) → scalar f v = scalar g v
  scalar_none (v : Bson) : scalar (fun _ => none) v = true
  /-- None of them is for objects. -/
  scalar_obj (f : Text → Option Json) (fields : List (Text × Bson)) : scalar f (.obj fields) = true

def SCALARS : List Text :=
  [js "exclusiveMaximum", js "exclusiveMinimum", js "maximum", js "maxItems", js "maxLength", js "minimum",
    js "minLength", js "multipleOf", js "pattern", js "uniqueItems"]

inductive Keyword where
  | type
  | bsonType
  | properties
  | additionalProperties
  | required
  | items
  | additionalItems
  | allOf
  | anyOf
  | oneOf
  | not
  | enum
  | const
  | minItems
  deriving DecidableEq

def keywordOf (key : Text) : Option Keyword := lookup key
  [(js "type", .type), (js "bsonType", .bsonType), (js "properties", .properties),
    (js "additionalProperties", .additionalProperties), (js "required", .required), (js "items", .items),
    (js "additionalItems", .additionalItems), (js "allOf", .allOf), (js "anyOf", .anyOf), (js "oneOf", .oneOf),
    (js "not", .not), (js "enum", .enum), (js "const", .const), (js "minItems", .minItems)]

/-- A schema as a predicate. -/
abbrev Accepts := Bson → Bool

def isOneOf (names : List Text) : Json → Bool
  | .str s => s ∈ names
  | _ => false

/-- One of the types, or the only one. -/
def hasType (names : List Text) : Json → Bool
  | .arr xs => xs.any (isOneOf names)
  | x => isOneOf names x

/-- The names that `additionalProperties` is not about. -/
def propertyNames (siblings : List (Text × Argument Accepts)) : List Text :=
  ((lookup (js "properties") siblings).map fun a => a.members.map Prod.fst).getD []

/-- The decimal is at most the number. -/
def atMost (d : Decimal) (n : ℕ) : Bool :=
  d.neg || decide (d.sig * 10 ^ d.exp.toNat ≤ n * 10 ^ (-d.exp).toNat)

variable (e : Engine)

/-- What a keyword of MongoDB asks of a value. -/
def mongoKeyword (siblings : List (Text × Argument Accepts)) (a : Argument Accepts) (v : Bson) : Option Keyword → Bool
  | some .bsonType => hasType v.bsonTypes a.json
  | some .properties => a.members.all fun m => (lookup m.1 v.fields).all m.2
  | some .additionalProperties =>
    match a.json with
    | .bool b => b || v.fields.all fun f => f.1 ∈ propertyNames siblings
    | .obj _ => v.fields.all fun f => f.1 ∈ propertyNames siblings || a.self f.2
    | _ => true
  | some .required =>
    match v with
    | .obj fields => (elemsOf a.json).all fun name => match name with | .str s => (lookup s fields).isSome | _ => true
    | _ => true
  | some .items => !isJsonObject a.json || v.elems.all a.self
  | some .allOf => a.elems.all fun accepts => accepts v
  | some .anyOf => !isArray a.json || a.elems.any fun accepts => accepts v
  | some .oneOf => !isArray a.json || a.elems.countP (fun accepts => accepts v) = 1
  | some .not => !isJsonObject a.json || !a.self v
  | some .enum => !isArray a.json || (elemsOf a.json).any fun x => e.equal x v
  | some .minItems =>
    match a.json, v with
    | .num d, .arr vs => atMost d vs.length
    | _, _ => true
  | _ => true

/-- What a keyword of draft 04 asks of a value. The override of `toMongoJsonSchema` has put `bsonType` into it. -/
def draftKeyword (siblings : List (Text × Argument Accepts)) (a : Argument Accepts) (v : Bson) : Option Keyword → Bool
  | some .type => hasType v.jsonTypes a.json
  | some .const => e.equal a.json v
  | some .items =>
    match a.json, v with
    | .arr xs, .arr vs => decide (xs.length ≤ vs.length) && (a.elems.zip vs).all fun p => p.1 p.2
    | .arr _, _ => true
    | _, _ => mongoKeyword e siblings a v (some .items)
  | some .additionalItems =>
    match (lookup (js "items") siblings).map Argument.json, v with
    | some (.arr xs), .arr vs =>
      match a.json with
      | .bool b => b || decide (vs.length ≤ xs.length)
      | _ => (vs.drop xs.length).all a.self
    | _, _ => true
  | keyword => mongoKeyword e siblings a v keyword

def scalars (siblings : List (Text × Argument Accepts)) (key : Text) : Option Json :=
  if key ∈ SCALARS then (lookup key siblings).map Argument.json else none

def mongoNode (schema : List (Text × Argument Accepts)) : Accepts := fun v =>
  e.scalar (scalars schema) v && schema.all fun m => mongoKeyword e schema m.2 v (keywordOf m.1)

def draftNode (schema : List (Text × Argument Accepts)) : Accepts := fun v =>
  e.scalar (scalars schema) v && schema.all fun m => draftKeyword e schema m.2 v (keywordOf m.1)

def mongoAccepts : Json → Accepts := fold (mongoNode e) fun _ _ => true

def draftAccepts : Json → Accepts := fold (draftNode e) fun _ _ => true

/-! ## Where nothing is lost -/

def JSON_TYPES : List Text :=
  [js "null", js "boolean", js "number", js "integer", js "string", js "array", js "object"]

def isJsonType : Json → Bool
  | .str s => s ∈ JSON_TYPES
  | _ => false

/-- No two keywords are converted to one, the types are those of draft 04, and a tuple asks for no more elements than it
has items. -/
def plainMembers (schema : List (Text × Argument Bool)) : Bool :=
  !((lookup (js "type") schema).isSome && (lookup (js "bsonType") schema).isSome) &&
    !((lookup (js "const") schema).isSome && (lookup (js "enum") schema).isSome) &&
    (((lookup (js "type") schema).map Argument.json).all fun types =>
      (flattened types).all isJsonType) &&
    match (lookup (js "items") schema).map Argument.json, (lookup (js "minItems") schema).map Argument.json with
    | some (.arr xs), some (.num d) => atMost d xs.length
    | _, _ => true

/-- The schemas in a member. -/
def plainWithin (a : Argument Bool) : Option Keyword → Bool
  | some .properties => a.members.all Prod.snd
  | some .items => a.self && a.elems.all id
  | some .additionalItems | some .not | some .additionalProperties => a.self
  | some .allOf | some .anyOf | some .oneOf => a.elems.all id
  | _ => true

def plainNode (schema : List (Text × Argument Bool)) : Bool :=
  plainMembers schema && schema.all fun m => plainWithin m.2 (keywordOf m.1)

/-- It is so at every schema in the schema. -/
def plain : Json → Bool := fold plainNode fun _ => true

/-! ## The order of members -/

theorem deepEqual_cases {i j : Json} (h : deepEqual i j = true) :
    (i = j ∧ isArray i = false ∧ isJsonObject i = false) ∨
    (∃ xs ys, i = .arr xs ∧ j = .arr ys ∧ List.Forall₂ (fun x y => deepEqual x y = true) xs ys) ∨
    ∃ ms ns, i = .obj ms ∧ j = .obj ns := by
  cases i with
  | arr xs =>
    cases j with
    | arr ys => exact .inr (.inl ⟨xs, ys, rfl, rfl, deepEqualElems_iff.mp (by rwa [deepEqual] at h)⟩)
    | _ => cases h
  | obj ms =>
    cases j with
    | obj ns => exact .inr (.inr ⟨ms, ns, rfl, rfl⟩)
    | _ => cases h
  | null =>
    cases j with
    | null => exact .inl ⟨rfl, rfl, rfl⟩
    | _ => cases h
  | bool a =>
    cases j with
    | bool b => exact .inl ⟨by rw [deepEqual, beq_iff_eq] at h; rw [h], rfl, rfl⟩
    | _ => cases h
  | num a =>
    cases j with
    | num b => exact .inl ⟨by rw [deepEqual, beq_iff_eq] at h; rw [h], rfl, rfl⟩
    | _ => cases h
  | str a =>
    cases j with
    | str b => exact .inl ⟨by rw [deepEqual, beq_iff_eq] at h; rw [h], rfl, rfl⟩
    | _ => cases h

theorem any_congr {p : Json → Bool} {xs ys : List Json} (h : List.Forall₂ (fun x y => deepEqual x y = true) xs ys)
    (hp : ∀ x y, deepEqual x y = true → p x = p y) : xs.any p = ys.any p := by
  induction h with
  | nil => rfl
  | cons hxy _ ih => rw [List.any_cons, List.any_cons, hp _ _ hxy, ih]

theorem all_congr {p : Json → Bool} {xs ys : List Json} (h : List.Forall₂ (fun x y => deepEqual x y = true) xs ys)
    (hp : ∀ x y, deepEqual x y = true → p x = p y) : xs.all p = ys.all p := by
  induction h with
  | nil => rfl
  | cons hxy _ ih => rw [List.all_cons, List.all_cons, hp _ _ hxy, ih]

theorem hasType_congr (names : List Text) {i j : Json} (h : deepEqual i j = true) :
    hasType names i = hasType names j := by
  rcases deepEqual_cases h with ⟨rfl, -, -⟩ | ⟨xs, ys, rfl, rfl, hxs⟩ | ⟨ms, ns, rfl, rfl⟩
  · rfl
  · refine any_congr hxs fun x y hxy => ?_
    rcases deepEqual_cases hxy with ⟨rfl, -, -⟩ | ⟨xs, ys, rfl, rfl, -⟩ | ⟨ms, ns, rfl, rfl⟩ <;> rfl
  · rfl

theorem mongoKeyword_congr {as bs : List (Text × Argument Accepts)}
    (hnames : ∀ k, k ∈ propertyNames as ↔ k ∈ propertyNames bs)
    {a b : Argument Accepts} (h : AlikeArgument a b) (v : Bson) (keyword : Option Keyword) :
    mongoKeyword e as a v keyword = mongoKeyword e bs b v keyword := by
  obtain ⟨i, self, elems, ms⟩ := a
  obtain ⟨j, self', elems', ns⟩ := b
  obtain ⟨hjson, rfl, rfl, hmembers⟩ := h
  have hmem : ∀ k, decide (k ∈ propertyNames as) = decide (k ∈ propertyNames bs) :=
    fun k => decide_eq_decide.mpr (hnames k)
  cases keyword with
  | none => rfl
  | some keyword =>
    cases keyword with
    | bsonType => exact hasType_congr _ hjson
    | properties => exact hmembers.all_eq
    | additionalProperties =>
      rcases deepEqual_cases hjson with ⟨rfl, -, -⟩ | ⟨xs, ys, rfl, rfl, -⟩ | ⟨xs, ys, rfl, rfl⟩
      · simp only [mongoKeyword, hmem]
      · rfl
      · simp only [mongoKeyword, hmem]
    | required =>
      cases v with
      | obj fields =>
        rcases deepEqual_cases hjson with ⟨rfl, -, -⟩ | ⟨xs, ys, rfl, rfl, hxs⟩ | ⟨xs, ys, rfl, rfl⟩
        · rfl
        · refine all_congr hxs fun x y hxy => ?_
          rcases deepEqual_cases hxy with ⟨rfl, -, -⟩ | ⟨xs, ys, rfl, rfl, -⟩ | ⟨ms, ns, rfl, rfl⟩ <;> rfl
        · rfl
      | _ => rfl
    | enum =>
      rcases deepEqual_cases hjson with ⟨rfl, -, -⟩ | ⟨xs, ys, rfl, rfl, hxs⟩ | ⟨xs, ys, rfl, rfl⟩
      · rfl
      · exact any_congr hxs fun x y hxy => e.equal_congr x y v hxy
      · rfl
    | _ =>
      rcases deepEqual_cases hjson with ⟨rfl, -, -⟩ | ⟨xs, ys, rfl, rfl, -⟩ | ⟨xs, ys, rfl, rfl⟩ <;> rfl

theorem all_lookup {β : Type} {as : List (Text × β)} (h : (as.map Prod.fst).Nodup) {p : Text → β → Bool} :
    (as.all fun m => p m.1 m.2) = true ↔ ∀ k a, lookup k as = some a → p k a = true := by
  rw [List.all_eq_true]
  refine ⟨fun hall k a hk => hall (k, a) ((lookup_eq_some h).mp hk), fun hall m hm => ?_⟩
  exact hall m.1 m.2 ((lookup_eq_some h).mpr hm)

theorem propertyNames_congr {as bs : List (Text × Argument Accepts)} (h : Alike as bs) (k : Text) :
    k ∈ propertyNames as ↔ k ∈ propertyNames bs := by
  have hlookup := h.lookup (js "properties")
  rw [propertyNames, propertyNames]
  cases ha : lookup (js "properties") as with
  | none =>
    cases hb : lookup (js "properties") bs with
    | none => exact Iff.rfl
    | some b => rw [ha, hb] at hlookup; cases hlookup
  | some a =>
    cases hb : lookup (js "properties") bs with
    | none => rw [ha, hb] at hlookup; cases hlookup
    | some b =>
      rw [ha, hb, Option.rel_some_some] at hlookup
      exact (hlookup.members.map Prod.fst).mem_iff

theorem scalars_congr {as bs : List (Text × Argument Accepts)} (h : Alike as bs) (k : Text) :
    Option.Rel (fun i j => deepEqual i j = true) (scalars as k) (scalars bs k) := by
  rw [scalars, scalars]
  split
  · have hlookup := h.lookup k
    cases ha : lookup k as with
    | none =>
      cases hb : lookup k bs with
      | none => exact .none
      | some b => rw [ha, hb] at hlookup; cases hlookup
    | some a =>
      cases hb : lookup k bs with
      | none => rw [ha, hb] at hlookup; cases hlookup
      | some b =>
        rw [ha, hb, Option.rel_some_some] at hlookup
        exact .some hlookup.json
  · exact .none

theorem mongoNode_congr {as bs : List (Text × Argument Accepts)} (h : Alike as bs) :
    mongoNode e as = mongoNode e bs := by
  funext v
  rw [mongoNode, mongoNode, e.scalar_congr _ _ v (scalars_congr h)]
  refine congrArg (e.scalar (scalars bs) v && ·) (Bool.eq_iff_iff.mpr ?_)
  have hkeyword : ∀ k a b, lookup k as = some a → lookup k bs = some b →
      mongoKeyword e as a v (keywordOf k) = mongoKeyword e bs b v (keywordOf k) := by
    intro k a b ha hb
    have hlookup := h.lookup k
    rw [ha, hb, Option.rel_some_some] at hlookup
    exact mongoKeyword_congr e (propertyNames_congr h) hlookup v _
  rw [all_lookup h.left (p := fun k a => mongoKeyword e as a v (keywordOf k)),
    all_lookup h.right (p := fun k a => mongoKeyword e bs a v (keywordOf k))]
  constructor
  · intro hall k b hb
    have hlookup := h.lookup k
    cases ha : lookup k as with
    | none => rw [ha, hb] at hlookup; cases hlookup
    | some a => exact hkeyword k a b ha hb ▸ hall k a ha
  · intro hall k a ha
    have hlookup := h.lookup k
    cases hb : lookup k bs with
    | none => rw [ha, hb] at hlookup; cases hlookup
    | some b => exact hkeyword k a b ha hb ▸ hall k b hb

theorem mongoAccepts_congr {i j : Json} (h : deepEqual i j = true) (hi : WF i) (hj : WF j) :
    mongoAccepts e i = mongoAccepts e j :=
  fold_congr (fun _ _ h => mongoNode_congr e h) (fun _ _ _ => rfl) i j h hi hj

end TypeFerry.Server.ValidatorMeaning
