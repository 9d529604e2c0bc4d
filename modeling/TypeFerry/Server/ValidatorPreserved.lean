import TypeFerry.Server.ValidatorMeaning
import TypeFerry.Server.ValidatorSteps

/-! # The validator accepts what the schema does

Keyword by keyword, then schema by schema from the inside out: the schemas in a schema are converted before it, and by
then they accept the same. -/
namespace TypeFerry.Server.ValidatorPreserved
open TypeFerry.Lib.Numeral TypeFerry.Lib.JsonText TypeFerry.Lib.OrderedMap TypeFerry.Lib.Schemas
open TypeFerry.Server.Validator TypeFerry.Server.ValidatorMeaning TypeFerry.Server.ValidatorSteps

/-! ## Types -/

theorem hasType_convert {s : Text} (h : s ∈ JSON_TYPES) (v : Bson) :
    (flattened (convertJsonType (.str s))).any (isOneOf v.bsonTypes) = decide (s ∈ v.jsonTypes) := by
  simp only [JSON_TYPES, List.mem_cons, List.not_mem_nil, or_false] at h
  rcases h with rfl | rfl | rfl | rfl | rfl | rfl | rfl <;>
    rcases v with _ | _ | ⟨_ | _ | _ | _, _⟩ | _ | _ | _ | _ | _ <;> rfl

theorem any_congr_mem {α : Type} {p q : α → Bool} {xs : List α} (h : ∀ x ∈ xs, p x = q x) : xs.any p = xs.any q := by
  induction xs with
  | nil => rfl
  | cons x xs ih =>
    rw [List.any_cons, List.any_cons, h x (List.mem_cons_self ..), ih fun y hy => h y (List.mem_cons_of_mem _ hy)]

theorem hasType_converted {types y : Json} (h : convertJsonTypes types = .ok y)
    (hplain : (flattened types).all isJsonType = true)
    (v : Bson) : hasType v.bsonTypes y = hasType v.jsonTypes types := by
  cases types with
  | str s =>
    cases h
    have hs : s ∈ JSON_TYPES := by simpa [flattened, isJsonType] using hplain
    refine Eq.trans ?_ (hasType_convert hs v)
    rw [convertJsonType]
    split
    · rfl
    · split <;> simp [hasType, flattened]
  | arr xs =>
    cases h
    rw [hasType, hasType, List.any_flatMap]
    refine any_congr_mem fun x hx => ?_
    have hx := List.all_eq_true.mp hplain x hx
    cases x with
    | str s => exact hasType_convert (of_decide_eq_true hx) v
    | _ => cases hx
  | _ => cases h

section
variable (e : Engine)

/-! ## Keyword by keyword -/

abbrev draftArgument : Json → Argument Accepts := argument (draftNode e) fun _ _ => true

abbrev mongoArgument : Json → Argument Accepts := argument (mongoNode e) fun _ _ => true

abbrev plainArgument : Json → Argument Bool := argument plainNode fun _ => true

/-- The converted schema accepts what the schema accepts, as far as it is plain. -/
def Preserved (x y : Json) : Prop := plain x = true → mongoAccepts e y = draftAccepts e x

section
variable {e}

theorem elems_preserved {xs ys : List Json} (h : List.Forall₂ ConvertsTo xs ys)
    (ih : ∀ x ∈ xs, ∀ y, ConvertsTo x y → Preserved e x y) (hplain : ∀ x ∈ xs, plain x = true) :
    ys.map (mongoAccepts e) = xs.map (draftAccepts e) := by
  induction h with
  | nil => rfl
  | cons hxy _ htail =>
    rw [List.map_cons, List.map_cons, ih _ (List.mem_cons_self ..) _ hxy (hplain _ (List.mem_cons_self ..)),
      htail (fun x hx => ih x (List.mem_cons_of_mem _ hx)) fun x hx => hplain x (List.mem_cons_of_mem _ hx)]

theorem members_preserved {ps qs : List (Text × Json)}
    (h : List.Forall₂ (fun p q => p.1 = q.1 ∧ ConvertsTo p.2 q.2) ps qs)
    (ih : ∀ p ∈ ps, ∀ y, ConvertsTo p.2 y → Preserved e p.2 y) (hplain : ∀ p ∈ ps, plain p.2 = true) :
    (qs.map fun q => (q.1, mongoAccepts e q.2)) = ps.map fun p => (p.1, draftAccepts e p.2) := by
  induction h with
  | nil => rfl
  | cons hpq _ htail =>
    rw [List.map_cons, List.map_cons, ← hpq.1,
      ih _ (List.mem_cons_self ..) _ hpq.2 (hplain _ (List.mem_cons_self ..)),
      htail (fun x hx => ih x (List.mem_cons_of_mem _ hx)) fun x hx => hplain x (List.mem_cons_of_mem _ hx)]

theorem isJsonObject_of_convertsTo {x y : Json} (h : ConvertsTo x y) : isJsonObject y = true := by
  obtain ⟨ms, ns, assigned, -, -, -, rfl⟩ := converted_schema h
  rfl

theorem plain_elems {key : Text} {xs : List Json} (hkey : key ∈ combinators)
    (h : plainWithin (plainArgument (.arr xs)) (keywordOf key) = true) : ∀ x ∈ xs, plain x = true := by
  have hall : ((xs.map plain).all id) = true := by
    simp only [combinators, List.mem_cons, List.not_mem_nil, or_false] at hkey
    rcases hkey with rfl | rfl | rfl <;> exact h
  intro x hx
  exact List.all_eq_true.mp hall _ (List.mem_map.mpr ⟨x, hx, rfl⟩)

/-- A keyword without schemas asks for the same in both dialects. -/
theorem keyword_copied {as bs : List (Text × Argument Accepts)} {key : Text} {x : Json}
    (hkey : key ∈ BSON_SCHEMA_KEYS)
    (htype : key ≠ js "type") (hitems : key ≠ js "items") (hadditional : key ≠ js "additionalProperties")
    (hproperties : key = js "properties" → isJsonObject x = false)
    (hcombinator : key ∈ combinators → isArray x = false) (hnot : key = js "not" → isJsonObject x = false)
    (v : Bson) :
    draftKeyword e as (draftArgument e x) v (keywordOf key) =
      mongoKeyword e bs (mongoArgument e x) v (keywordOf key) := by
  have hcombined : key ∈ combinators → draftKeyword e as (draftArgument e x) v (keywordOf key) =
      mongoKeyword e bs (mongoArgument e x) v (keywordOf key) := by
    intro hin
    have harr := hcombinator hin
    simp only [combinators, List.mem_cons, List.not_mem_nil, or_false] at hin
    rcases hin with rfl | rfl | rfl <;> cases x <;> first | rfl | cases harr
  simp only [BSON_SCHEMA_KEYS, List.mem_cons, List.not_mem_nil, or_false] at hkey
  rcases hkey with rfl | rfl | rfl | rfl | rfl | rfl | rfl | rfl | rfl | rfl | rfl | rfl | rfl | rfl | rfl | rfl | rfl |
    rfl | rfl | rfl | rfl | rfl | rfl
  case inl => exact absurd rfl hadditional
  all_goals first | rfl | exact hcombined (by decide) | exact absurd rfl htype | exact absurd rfl hitems | skip
  · have hobj := hnot rfl
    cases x <;> first | rfl | cases hobj
  · have hobj := hproperties rfl
    cases x <;> first | rfl | cases hobj

/-- What a keyword asks of a value, it asks of it after the conversion. -/
theorem keyword_preserved {as bs : List (Text × Argument Accepts)} (hnames : propertyNames bs = propertyNames as)
    {key : Text} {x : Json} {o : Option (Text × Json)} (h : Converted key x o)
    (ih : ∀ z, Inside z x → ∀ y, ConvertsTo z y → Preserved e z y)
    (hplain : plainWithin (plainArgument x) (keywordOf key) = true)
    (htypes : key = js "type" → (flattened x).all isJsonType = true) (v : Bson) :
    draftKeyword e as (draftArgument e x) v (keywordOf key) =
      o.all fun r => mongoKeyword e bs (mongoArgument e r.2) v (keywordOf r.1) := by
  cases h with
  | dropped hkey => rcases hkey with rfl | rfl | rfl | rfl <;> rfl
  | type hy => exact (hasType_converted hy (htypes rfl) v).symm
  | @properties ps qs hps =>
    have hall : ∀ p ∈ ps, plain p.2 = true := by
      intro p hp
      exact List.all_eq_true.mp (show ((ps.map fun m => (m.1, plain m.2)).all Prod.snd) = true from hplain) _
        (List.mem_map.mpr ⟨p, hp, rfl⟩)
    have hmembers := members_preserved hps (fun p hp => ih p.2 (.member (show (p.1, p.2) ∈ ps from hp))) hall
    show ((ps.map fun p => (p.1, draftAccepts e p.2)).all _) = ((qs.map fun q => (q.1, mongoAccepts e q.2)).all _)
    rw [hmembers]
  | @schema key ms y hkey hy =>
    have hobj := isJsonObject_of_convertsTo hy
    have hself : plain (.obj ms) = true := by
      rcases hkey with rfl | rfl | rfl
      · exact (Bool.and_eq_true_iff.mp hplain).1
      · exact hplain
      · exact hplain
    have heq : mongoAccepts e y = draftAccepts e (.obj ms) := ih _ .self y hy hself
    obtain ⟨ns, rfl⟩ := obj_of_isJsonObject hobj
    rcases hkey with rfl | rfl | rfl
    · show (v.elems.all (draftAccepts e (.obj ms))) = v.elems.all (mongoAccepts e (.obj ns))
      rw [heq]
    · show (!draftAccepts e (.obj ms) v) = !mongoAccepts e (.obj ns) v
      rw [heq]
    · show (v.fields.all fun f => decide (f.1 ∈ propertyNames as) || draftAccepts e (.obj ms) f.2) =
        v.fields.all fun f => decide (f.1 ∈ propertyNames bs) || mongoAccepts e (.obj ns) f.2
      rw [heq, hnames]
  | @combinator key xs ys hkey hxs =>
    have helems : ys.map (mongoAccepts e) = xs.map (draftAccepts e) :=
      elems_preserved hxs (fun x hx => ih x (.elem hx)) (plain_elems hkey hplain)
    simp only [combinators, List.mem_cons, List.not_mem_nil, or_false] at hkey
    rcases hkey with rfl | rfl | rfl
    · show ((xs.map (draftAccepts e)).all _) = ((ys.map (mongoAccepts e)).all _)
      rw [helems]
    · show ((xs.map (draftAccepts e)).any fun accepts => accepts v) =
      (ys.map (mongoAccepts e)).any fun accepts => accepts v
      rw [helems]
    · show decide ((xs.map (draftAccepts e)).countP (fun accepts => accepts v) = 1) =
        decide ((ys.map (mongoAccepts e)).countP (fun accepts => accepts v) = 1)
      rw [helems]
  | @additional b =>
    show (b || v.fields.all fun f => decide (f.1 ∈ propertyNames as)) =
      (b || v.fields.all fun f => decide (f.1 ∈ propertyNames bs))
    rw [hnames]
  | const => exact (Bool.or_false _).symm
  | copied hkey htype hitems hadditional hproperties hcombinator hnot =>
    exact keyword_copied hkey htype hitems hadditional hproperties hcombinator hnot v

end

end

/-! ## A schema -/

section
variable {e : Engine}

theorem scalar_converted {key : Text} {x : Json} {o : Option (Text × Json)} (hkey : key ∈ SCALARS)
    (h : Converted key x o) :
    ∃ y, o = some (key, y) ∧ x = y := by
  cases h with
  | dropped hdropped => rcases hdropped with rfl | rfl | rfl | rfl <;> exact absurd hkey (by decide)
  | type => exact absurd hkey (by decide)
  | properties => exact absurd hkey (by decide)
  | schema hschema => rcases hschema with rfl | rfl | rfl <;> exact absurd hkey (by decide)
  | combinator hin =>
    simp only [combinators, List.mem_cons, List.not_mem_nil, or_false] at hin
    rcases hin with rfl | rfl | rfl <;> exact absurd hkey (by decide)
  | additional => exact absurd hkey (by decide)
  | const => exact absurd hkey (by decide)
  | copied => exact ⟨x, rfl, rfl⟩

theorem properties_converted {key : Text} {x : Json} {o : Option (Text × Json)} (hkey : key = js "properties")
    (h : Converted key x o) : ∃ y, o = some (key, y) ∧ (membersOf x).map Prod.fst = (membersOf y).map Prod.fst := by
  cases h with
  | dropped hdropped => rcases hdropped with rfl | rfl | rfl | rfl <;> exact absurd hkey (by decide)
  | type => exact absurd hkey (by decide)
  | @properties ps qs hps =>
    refine ⟨_, rfl, ?_⟩
    show ps.map Prod.fst = qs.map Prod.fst
    induction hps with
    | nil => rfl
    | cons hpq _ ih => rw [List.map_cons, List.map_cons, hpq.1, ih]
  | schema hschema => rcases hschema with rfl | rfl | rfl <;> exact absurd hkey (by decide)
  | combinator hin =>
    simp only [combinators, List.mem_cons, List.not_mem_nil, or_false] at hin
    rcases hin with rfl | rfl | rfl <;> exact absurd hkey (by decide)
  | additional => exact absurd hkey (by decide)
  | const => exact absurd hkey (by decide)
  | copied => exact ⟨x, rfl, rfl⟩

theorem scalars_members (node : List (Text × Argument Accepts) → Accepts) (ms : List (Text × Json)) (k : Text) :
    scalars (ms.map fun m => (m.1, argument node (fun _ _ => true) m.2)) k =
      if k ∈ SCALARS then lookup k ms else none := by
  rw [scalars, lookup_members, Option.map_map]
  refine if_congr Iff.rfl ?_ rfl
  cases lookup k ms <;> rfl

theorem propertyNames_members (node : List (Text × Argument Accepts) → Accepts) (ms : List (Text × Json)) :
    propertyNames (ms.map fun m => (m.1, argument node (fun _ _ => true) m.2)) =
      ((lookup (js "properties") ms).map fun x => (membersOf x).map Prod.fst).getD [] := by
  rw [propertyNames, lookup_members, Option.map_map]
  cases lookup (js "properties") ms with
  | none => rfl
  | some x => exact keys_map _ _

variable {ns : List (Text × Json)} {assigned : List (Option (Text × Json))}

theorem all_preserved {as bs : List (Text × Argument Accepts)} (hnames : propertyNames bs = propertyNames as)
    (h : List.Forall₂ (fun m o => Converted m.1 m.2 o) ns assigned)
    (ih : ∀ m ∈ ns, ∀ z, Inside z m.2 → ∀ y, ConvertsTo z y → Preserved e z y)
    (hplain : ∀ m ∈ ns, plainWithin (plainArgument m.2) (keywordOf m.1) = true)
    (htypes : ∀ m ∈ ns, m.1 = js "type" → (flattened m.2).all isJsonType = true) (v : Bson) :
    ((ns.map fun m => (m.1, draftArgument e m.2)).all fun m => draftKeyword e as m.2 v (keywordOf m.1)) =
      (((assigned.filterMap id).map fun m => (m.1, mongoArgument e m.2)).all fun m =>
        mongoKeyword e bs m.2 v (keywordOf m.1)) := by
  induction h with
  | nil => rfl
  | @cons m o ns assigned hm _ htail =>
    have hhead := keyword_preserved hnames hm (ih m (List.mem_cons_self ..)) (hplain m (List.mem_cons_self ..))
      (htypes m (List.mem_cons_self ..)) v
    have htail := htail (fun m hm => ih m (List.mem_cons_of_mem _ hm))
      (fun m hm => hplain m (List.mem_cons_of_mem _ hm))
      fun m hm => htypes m (List.mem_cons_of_mem _ hm)
    rw [List.map_cons, List.all_cons, hhead, htail]
    cases o with
    | none => exact Bool.true_and _
    | some r =>
      rw [filterMap_some, List.map_cons, List.all_cons]
      rfl

/-- A schema without a tuple means the same after the conversion. -/
theorem node_preserved (h : List.Forall₂ (fun m o => Converted m.1 m.2 o) ns assigned)
    (ih : ∀ m ∈ ns, ∀ z, Inside z m.2 → ∀ y, ConvertsTo z y → Preserved e z y)
    (hplain : ∀ m ∈ ns, plainWithin (plainArgument m.2) (keywordOf m.1) = true)
    (htypes : ∀ m ∈ ns, m.1 = js "type" → (flattened m.2).all isJsonType = true) :
    mongoNode e ((assigned.filterMap id).map fun m => (m.1, mongoArgument e m.2)) =
      draftNode e (ns.map fun m => (m.1, draftArgument e m.2)) := by
  have hscalars : scalars ((assigned.filterMap id).map fun m => (m.1, mongoArgument e m.2)) =
      scalars (ns.map fun m => (m.1, draftArgument e m.2)) := by
    funext k
    rw [scalars_members, scalars_members]
    split
    · next hk =>
      have htype : k ≠ js "bsonType" := by rintro rfl; exact absurd hk (by decide)
      have henum : k ≠ js "enum" := by rintro rfl; exact absurd hk (by decide)
      have hrel := lookup_assigned htype henum (fun x o hc => scalar_converted hk hc) h
      generalize lookup k ns = x at hrel ⊢
      generalize lookup k (assigned.filterMap id) = y at hrel ⊢
      cases hrel with
      | some hxy => rw [hxy]
      | none => rfl
    · rfl
  have hnames : propertyNames ((assigned.filterMap id).map fun m => (m.1, mongoArgument e m.2)) =
      propertyNames (ns.map fun m => (m.1, draftArgument e m.2)) := by
    rw [propertyNames_members, propertyNames_members]
    have hrel := lookup_assigned (by decide) (by decide) (fun x o hc => properties_converted rfl hc) h
    generalize lookup (js "properties") ns = x at hrel ⊢
    generalize lookup (js "properties") (assigned.filterMap id) = y at hrel ⊢
    cases hrel with
    | some hxy => rw [Option.map_some, Option.map_some, hxy]
    | none => rfl
  funext v
  rw [mongoNode, draftNode, hscalars, all_preserved hnames h ih hplain htypes v]

end

/-! ## Tuples -/

section
variable {e : Engine}

theorem atMost_ofInt (n m : ℕ) : atMost (ofInt n) m = decide (n ≤ m) := by
  obtain ⟨hexp, hsig, hneg⟩ := ofInt_spec (n : Int)
  have hneg : (ofInt (n : Int)).neg = false := by
    rw [hneg]
    exact decide_eq_false (by omega)
  have hzero : (-(ofInt (n : Int)).exp).toNat = 0 := by omega
  rw [atMost, hneg, Bool.false_or, hsig, hzero, pow_zero, Nat.mul_one, Int.natAbs_natCast]

theorem atMost_mono {d : Decimal} {n m : ℕ} (h : atMost d n = true) (hle : n ≤ m) : atMost d m = true := by
  rw [atMost, Bool.or_eq_true, decide_eq_true_iff] at h ⊢
  exact h.imp_right fun h => h.trans (Nat.mul_le_mul_right _ hle)

theorem zip_replicate {α : Type} (p : α → Bool) (n : ℕ) (vs : List α) :
    ((List.replicate n p).zip vs).all (fun q => q.1 q.2) = (vs.take n).all p := by
  induction n generalizing vs with
  | zero => rw [List.replicate_zero, List.zip_nil_left, List.take_zero, List.all_nil, List.all_nil]
  | succ n ih =>
    cases vs with
    | nil => rw [List.zip_nil_right, List.take_nil, List.all_nil, List.all_nil]
    | cons v vs =>
      rw [List.replicate_succ, List.zip_cons_cons, List.all_cons, List.take_succ_cons, List.all_cons, ih vs]

/-- Elements of a tuple whose items are all as the rest. -/
theorem tuple_all {xs : List Json} {rest : Json} (h : ∀ x ∈ xs, draftAccepts e x = draftAccepts e rest)
    (vs : List Bson) :
    ((((xs.map (draftAccepts e)).zip vs).all fun p => p.1 p.2) && (vs.drop xs.length).all (draftAccepts e rest)) =
      vs.all (draftAccepts e rest) := by
  have hreplicate : xs.map (draftAccepts e) = List.replicate xs.length (draftAccepts e rest) := by
    rw [List.eq_replicate_iff]
    refine ⟨List.length_map .., fun accepts haccepts => ?_⟩
    obtain ⟨x, hx, rfl⟩ := List.mem_map.mp haccepts
    exact h x hx
  rw [hreplicate, zip_replicate, ← List.all_append, List.take_append_drop]

/-- What the other keywords ask does not depend on the tuple. -/
theorem draftKeyword_congr {as bs : List (Text × Argument Accepts)} (hnames : propertyNames as = propertyNames bs)
    (a : Argument Accepts) (v : Bson) {keyword : Option Keyword} (hkeyword : keyword ≠ some .additionalItems) :
    draftKeyword e as a v keyword = draftKeyword e bs a v keyword := by
  cases keyword with
  | none => rfl
  | some keyword =>
    cases keyword with
    | additionalItems => exact absurd rfl hkeyword
    | additionalProperties => simp only [draftKeyword, mongoKeyword, hnames]
    | _ => rfl

theorem keywordOf_ne {k : Text} (h : k ≠ js "additionalItems") : keywordOf k ≠ some .additionalItems := by
  intro hk
  have hnodup : ([(js "type", Keyword.type), (js "bsonType", .bsonType), (js "properties", .properties),
    (js "additionalProperties", .additionalProperties), (js "required", .required), (js "items", .items),
    (js "additionalItems", .additionalItems), (js "allOf", .allOf), (js "anyOf", .anyOf), (js "oneOf", .oneOf),
    (js "not", .not), (js "enum", .enum), (js "const", .const), (js "minItems", .minItems)].map Prod.fst).Nodup :=
      by decide
  have hmem := (lookup_eq_some hnodup).mp hk
  simp only [List.mem_cons, Prod.mk.injEq, reduceCtorEq, and_false, and_true, List.not_mem_nil, false_or,
    or_false] at hmem
  exact h hmem

variable {ms rs : List (Text × Json)} {xs : List Json}

/-- The members after the tuple has been taken apart. -/
def untupled (ms : List (Text × Json)) (rest : Json) (n : ℕ) : List (Text × Json) :=
  (put (js "minItems") (.num (ofInt n)) (put (js "items") rest ms)).filter fun m => m.1 ≠ js "additionalItems"

theorem lookup_untupled (ms : List (Text × Json)) (rest : Json) (n : ℕ) (k : Text) : lookup k (untupled ms rest n) =
    if k = js "additionalItems" then none else if k = js "minItems" then some (.num (ofInt n))
    else if k = js "items" then some rest else lookup k ms := by
  rw [untupled, lookup_filter, lookup_put, lookup_put]

/-- A tuple whose items are as the rest means what the array means that it becomes. -/
theorem tuple_preserved (hms : (ms.map Prod.fst).Nodup) (hitems : lookup (js "items") ms = some (.arr xs))
    (hadditional : lookup (js "additionalItems") ms = some (.obj rs))
    (hmin : ∀ d, lookup (js "minItems") ms = some (.num d) → atMost d xs.length = true)
    (hxs : ∀ x ∈ xs, draftAccepts e x = draftAccepts e (.obj rs)) :
    draftNode e ((untupled ms (.obj rs) xs.length).map fun m => (m.1, draftArgument e m.2)) =
      draftNode e (ms.map fun m => (m.1, draftArgument e m.2)) := by
  have hns : ((untupled ms (.obj rs) xs.length).map Prod.fst).Nodup :=
    (List.filter_sublist.map Prod.fst).nodup (nodup_put (nodup_put hms))
  have hlookup := lookup_untupled ms (.obj rs) xs.length
  generalize hn : untupled ms (.obj rs) xs.length = ns at hns hlookup ⊢
  have hscalars : scalars (ns.map fun m => (m.1, draftArgument e m.2)) =
      scalars (ms.map fun m => (m.1, draftArgument e m.2)) := by
    funext k
    rw [scalars_members, scalars_members]
    split
    · next hk =>
      rw [hlookup, if_neg (by rintro rfl; exact absurd hk (by decide)),
        if_neg (by rintro rfl; exact absurd hk (by decide)),
        if_neg (by rintro rfl; exact absurd hk (by decide))]
    · rfl
  have hnames : propertyNames (ns.map fun m => (m.1, draftArgument e m.2)) =
      propertyNames (ms.map fun m => (m.1, draftArgument e m.2)) := by
    rw [propertyNames_members, propertyNames_members, hlookup, if_neg (by decide), if_neg (by decide),
      if_neg (by decide)]
  funext v
  rw [draftNode, draftNode, hscalars]
  refine congrArg (e.scalar _ v && ·) (Bool.eq_iff_iff.mpr ?_)
  generalize has : (ms.map fun m => (m.1, draftArgument e m.2)) = as at hnames ⊢
  generalize hbs : (ns.map fun m => (m.1, draftArgument e m.2)) = bs at hnames ⊢
  have hasl : ∀ k, lookup k as = (lookup k ms).map (draftArgument e) := fun k => by rw [← has, lookup_members]
  have hbsl : ∀ k, lookup k bs = (lookup k ns).map (draftArgument e) := fun k => by rw [← hbs, lookup_members]
  have hasn : (as.map Prod.fst).Nodup := by rw [← has, keys_map]; exact hms
  have hbsn : (bs.map Prod.fst).Nodup := by rw [← hbs, keys_map]; exact hns
  -- what the tuple asks of the elements, and what is left of it
  have htuple : draftKeyword e as (draftArgument e (.arr xs)) v (some .items) = true ∧
      draftKeyword e as (draftArgument e (.obj rs)) v (some .additionalItems) = true ↔
      draftKeyword e bs (draftArgument e (.obj rs)) v (some .items) = true ∧
        draftKeyword e bs (draftArgument e (.num (ofInt xs.length))) v (some .minItems) = true := by
    cases v with
    | arr vs =>
      have hall := tuple_all hxs vs
      rw [draftAccepts] at hall
      have hsib : (lookup (js "items") as).map Argument.json = some (.arr xs) := by rw [hasl, hitems]; rfl
      simp only [draftKeyword, mongoKeyword, hsib, draftArgument, argument, elemsOf, isJsonObject, Bool.not_true,
        Bool.false_or, Bson.elems, Bool.and_eq_true, decide_eq_true_iff, atMost_ofInt]
      rw [← hall, Bool.and_eq_true]
      exact ⟨fun h => ⟨⟨h.1.2, h.2⟩, h.1.1⟩, fun h => ⟨⟨h.2, h.1.1⟩, h.1.2⟩⟩
    | _ =>
      refine iff_of_true ⟨rfl, ?_⟩ ⟨rfl, rfl⟩
      rw [draftKeyword]
      all_goals rintro _ _ _ ⟨⟩
  rw [all_lookup hbsn (p := fun k a => draftKeyword e bs a v (keywordOf k)),
    all_lookup hasn (p := fun k a => draftKeyword e as a v (keywordOf k))]
  constructor
  · intro hall k a hk
    have hboth := htuple.mpr ⟨hall (js "items") _ (by rw [hbsl, hlookup]; rfl),
      hall (js "minItems") _ (by rw [hbsl, hlookup]; rfl)⟩
    by_cases hitemsKey : k = js "items"
    · subst hitemsKey
      rw [hasl, hitems] at hk
      cases hk
      exact hboth.1
    by_cases hadditionalKey : k = js "additionalItems"
    · subst hadditionalKey
      rw [hasl, hadditional] at hk
      cases hk
      exact hboth.2
    rw [draftKeyword_congr hnames.symm _ _ (keywordOf_ne hadditionalKey)]
    by_cases hminKey : k = js "minItems"
    · subst hminKey
      rw [hasl] at hk
      obtain ⟨x, hx, rfl⟩ := Option.map_eq_some_iff.mp hk
      cases v with
      | arr vs =>
        cases x with
        | num d =>
          have hle : xs.length ≤ vs.length := by
            have := hboth.1
            simp only [draftKeyword, draftArgument, argument, Bool.and_eq_true, decide_eq_true_iff] at this
            exact this.1
          exact atMost_mono (hmin d hx) hle
        | _ => rfl
      | _ => cases x <;> rfl
    · refine hall k a ?_
      rw [hbsl, hlookup, if_neg hadditionalKey, if_neg hminKey, if_neg hitemsKey, ← hasl, hk]
  · intro hall k a hk
    have hboth := htuple.mp ⟨hall (js "items") _ (by rw [hasl, hitems]; rfl),
      hall (js "additionalItems") _ (by rw [hasl, hadditional]; rfl)⟩
    rw [hbsl, hlookup] at hk
    split at hk
    · cases hk
    next hadditionalKey =>
    split at hk
    · next hminKey =>
      cases hk
      subst hminKey
      exact hboth.2
    next hminKey =>
    split at hk
    · next hitemsKey =>
      cases hk
      subst hitemsKey
      exact hboth.1
    next hitemsKey =>
    rw [draftKeyword_congr hnames _ _ (keywordOf_ne hadditionalKey)]
    exact hall k a (by rw [hasl, hk])

end

/-! ## Names in what is converted -/

theorem wf_elems {xs ys : List Json} (h : List.Forall₂ ConvertsTo xs ys)
    (hwf : ∀ x ∈ xs, ∀ y, ConvertsTo x y → WF y) : ∀ y ∈ ys, WF y := by
  intro y hy
  induction h with
  | nil => cases hy
  | cons hxy _ ih =>
    rcases List.mem_cons.mp hy with rfl | hy
    · exact hwf _ (List.mem_cons_self ..) _ hxy
    · exact ih (fun x hx => hwf x (List.mem_cons_of_mem _ hx)) hy

theorem wf_members {ps qs : List (Text × Json)} (h : List.Forall₂ (fun p q => p.1 = q.1 ∧ ConvertsTo p.2 q.2) ps qs)
    (hwf : ∀ p ∈ ps, ∀ y, ConvertsTo p.2 y → WF y) : qs.map Prod.fst = ps.map Prod.fst ∧ ∀ q ∈ qs, WF q.2 := by
  induction h with
  | nil => exact ⟨rfl, List.forall_mem_nil _⟩
  | cons hpq _ ih =>
    obtain ⟨hkeys, hall⟩ := ih fun p hp => hwf p (List.mem_cons_of_mem _ hp)
    refine ⟨by rw [List.map_cons, List.map_cons, hkeys, hpq.1], List.forall_mem_cons.mpr ⟨?_, hall⟩⟩
    exact hwf _ (List.mem_cons_self ..) _ hpq.2

theorem wf_types {types y : Json} (h : convertJsonTypes types = .ok y) (htypes : WF types) : WF y := by
  have htype : ∀ x, WF x → WF (convertJsonType x) := by
    intro x hx
    cases x with
    | str s =>
      rw [convertJsonType]
      split
      · simp [BSON_NUMERIC_TYPES, WF, WFElems]
      · split <;> exact trivial
    | _ => exact hx
  have hflat : ∀ x, WF x → ∀ y ∈ flattened x, WF y := by
    intro x hx y hy
    cases x with
    | arr xs => exact wf_of_mem_elems hx hy
    | _ =>
      rw [List.mem_singleton.mp hy]
      exact hx
  cases types with
  | arr xs =>
    cases h
    refine wfElems_iff.mpr fun y hy => ?_
    obtain ⟨x, hx, hy⟩ := List.mem_flatMap.mp hy
    exact hflat _ (htype x (wf_of_mem_elems htypes hx)) y hy
  | str s =>
    cases h
    exact htype _ trivial
  | _ => cases h

theorem wf_converted {key : Text} {x : Json} {r : Text × Json} (h : Converted key x (some r)) (hx : WF x)
    (hwf : ∀ z, Inside z x → ∀ y, ConvertsTo z y → WF y) : WF r.2 := by
  cases h with
  | type hy => exact wf_types hy hx
  | properties hps =>
    obtain ⟨hkeys, hall⟩ := wf_members hps fun p hp => hwf p.2 (.member hp)
    exact ⟨by rw [hkeys]; exact hx.1, wfMembers_iff.mpr hall⟩
  | schema _ hy => exact hwf _ .self _ hy
  | combinator _ hys => exact wfElems_iff.mpr (wf_elems hys fun z hz => hwf z (.elem hz))
  | additional => exact trivial
  | const => exact ⟨hx, trivial⟩
  | copied => exact hx

/-- Every member is one of the schema's, or tells the number of the items. -/
theorem mem_normalized {ms ns : List (Text × Json)} (h : Normalized ms ns) {m : Text × Json} (hm : m ∈ ns) :
    m ∈ ms ∨ (m.1 = js "minItems" ∧ ∃ d, m.2 = .num d) ∨ (m.1 = js "items" ∧ (js "additionalItems", m.2) ∈ ms) := by
  cases h with
  | same => exact .inl hm
  | @tuple rs xs ys rest _ hadditional =>
    obtain ⟨hm, -⟩ := List.mem_filter.mp hm
    rcases mem_put hm with rfl | hm
    · exact .inr (.inl ⟨rfl, _, rfl⟩)
    · rcases mem_put hm with rfl | hm
      · exact .inr (.inr ⟨rfl, mem_of_lookup hadditional⟩)
      · exact .inl hm

/-- What is in a member of the normalized schema is in the schema, or no schema. -/
theorem inside_normalized {ms ns : List (Text × Json)} (h : Normalized ms ns) {m : Text × Json} (hm : m ∈ ns)
    {z y : Json}
    (hz : Inside z m.2) (hy : ConvertsTo z y) : Within z (.obj ms) := by
  obtain ⟨k, x⟩ := m
  rcases mem_normalized h hm with hm | ⟨-, d, hd⟩ | ⟨-, hm⟩
  · exact ⟨k, x, hm, hz⟩
  · cases hd
    cases hz
    obtain ⟨path, hy⟩ := hy
    cases hy
  · exact ⟨_, x, hm, hz⟩

/-- A member of the result is what a member of the schema is converted to. -/
theorem exists_member {ns : List (Text × Json)} {assigned : List (Option (Text × Json))}
    (h : List.Forall₂ (fun m o => Converted m.1 m.2 o) ns assigned) {r : Text × Json}
    (hr : r ∈ (assigned.filterMap id).foldl (fun result m => put m.1 m.2 result) []) :
    ∃ m ∈ ns, Converted m.1 m.2 (some r) := by
  refine exists_left h ?_
  rcases mem_foldl_put hr with hr | hr
  · obtain ⟨o, ho, hor⟩ := List.mem_filterMap.mp hr
    rwa [← show o = some r from hor]
  · cases hr

theorem wf_converts (s : Json) : WF s → ∀ t, ConvertsTo s t → WF t := by
  induction s using within_induction with | _ s ih
  intro hs t h
  obtain ⟨ms, ns, assigned, rfl, hnormalized, hall, rfl⟩ := converted_schema h
  refine ⟨nodup_foldl_put List.nodup_nil, wfMembers_iff.mpr fun r hr => ?_⟩
  obtain ⟨m, hm, hconverted⟩ := exists_member hall hr
  refine wf_converted hconverted ?_ fun z hz y hy => ?_
  · have hmembers := wfMembers_iff.mp hs.2
    rcases mem_normalized hnormalized hm with hm | ⟨-, d, hd⟩ | ⟨-, hm⟩
    · exact hmembers m hm
    · rw [hd]
      exact trivial
    · exact hmembers (js "additionalItems", m.2) hm
  · have hwithin := inside_normalized hnormalized hm hz hy
    exact ih z hwithin (wf_within hs hwithin) y hy

section
variable {e : Engine} {ms ns : List (Text × Json)}

/-- What `plain` asks at a schema. -/
structure PlainMembers (ms : List (Text × Json)) : Prop where
  type : ¬ (js "type" ∈ ms.map Prod.fst ∧ js "bsonType" ∈ ms.map Prod.fst)
  const : ¬ (js "const" ∈ ms.map Prod.fst ∧ js "enum" ∈ ms.map Prod.fst)
  types : ∀ types, lookup (js "type") ms = some types → (flattened types).all isJsonType = true
  minItems : ∀ xs d, lookup (js "items") ms = some (.arr xs) → lookup (js "minItems") ms = some (.num d) →
    atMost d xs.length = true
  within : ∀ m ∈ ms, plainWithin (plainArgument m.2) (keywordOf m.1) = true

theorem plain_obj (h : plain (.obj ms) = true) : PlainMembers ms := by
  rw [plain, fold_obj, plainNode, plainMembers, Bool.and_eq_true, Bool.and_eq_true, Bool.and_eq_true,
    Bool.and_eq_true] at h
  obtain ⟨⟨⟨⟨htype, hconst⟩, htypes⟩, hmin⟩, hwithin⟩ := h
  simp only [lookup_members, Option.isSome_map, Bool.not_eq_true', Bool.and_eq_false_iff] at htype hconst
  refine ⟨?_, ?_, fun types hlookup => ?_, fun xs d hitems hd => ?_, fun m hm => ?_⟩
  · rw [mem_key, mem_key]
    rcases htype with h | h <;> simp [h]
  · rw [mem_key, mem_key]
    rcases hconst with h | h <;> simp [h]
  · rw [lookup_members, hlookup] at htypes
    exact htypes
  · rw [lookup_members, lookup_members, hitems, hd] at hmin
    exact hmin
  · exact List.all_eq_true.mp hwithin _ (List.mem_map_of_mem hm)

theorem PlainMembers.single (h : PlainMembers ms) (hms : (ms.map Prod.fst).Nodup) (hnormalized : Normalized ms ns) :
    Single ns := by
  have hkeys : ∀ k, k ≠ js "minItems" → k ≠ js "items" → k ∈ ns.map Prod.fst → k ∈ ms.map Prod.fst := by
    intro k hmin hitems hk
    obtain ⟨m, hm, rfl⟩ := List.mem_map.mp hk
    rcases mem_normalized hnormalized hm with hm | ⟨hk, -⟩ | ⟨hk, -⟩
    · exact List.mem_map_of_mem hm
    · exact absurd hk hmin
    · exact absurd hk hitems
  refine ⟨nodup_normalized hnormalized hms, fun hboth => h.type ?_, fun hboth => h.const ?_⟩
  · exact hboth.imp (hkeys _ (by decide) (by decide)) (hkeys _ (by decide) (by decide))
  · exact hboth.imp (hkeys _ (by decide) (by decide)) (hkeys _ (by decide) (by decide))

theorem PlainMembers.within_normalized (h : PlainMembers ms) (hnormalized : Normalized ms ns) :
    ∀ m ∈ ns, plainWithin (plainArgument m.2) (keywordOf m.1) = true := by
  intro m hm
  cases hnormalized with
  | same => exact h.within m hm
  | @tuple rs xs ys rest _ hadditional =>
    obtain ⟨hm, -⟩ := List.mem_filter.mp hm
    rcases mem_put hm with rfl | hm
    · rfl
    · rcases mem_put hm with rfl | hm
      · have hrest := h.within _ (mem_of_lookup hadditional)
        exact Bool.and_eq_true_iff.mpr ⟨hrest, rfl⟩
      · exact h.within m hm

theorem PlainMembers.types_normalized (h : PlainMembers ms) (hms : (ms.map Prod.fst).Nodup)
    (hnormalized : Normalized ms ns) :
    ∀ m ∈ ns, m.1 = js "type" → (flattened m.2).all isJsonType = true := by
  intro m hm hkey
  obtain ⟨k, types⟩ := m
  subst hkey
  rcases mem_normalized hnormalized hm with hm | ⟨hk, -⟩ | ⟨hk, -⟩
  · exact h.types types ((lookup_eq_some hms).mpr hm)
  · exact absurd (show js "type" = js "minItems" from hk) (by decide)
  · exact absurd (show js "type" = js "items" from hk) (by decide)

theorem schema_preserved (s : Json) : WF s → ∀ t, ConvertsTo s t → Preserved e s t := by
  induction s using within_induction with | _ s ih
  intro hs t h hplain
  obtain ⟨ms, ns, assigned, rfl, hnormalized, hall, rfl⟩ := converted_schema h
  have hplain := plain_obj hplain
  have hsingle := hplain.single hs.1 hnormalized
  have hwithin : ∀ z, Within z (.obj ms) → ∀ y, ConvertsTo z y → Preserved e z y :=
    fun z hz y hy => ih z hz (wf_within hs hz) y hy
  rw [foldl_put (by rw [List.nil_append]; exact hsingle.nodup_assigned hall), List.nil_append, mongoAccepts, fold_obj,
    draftAccepts, fold_obj]
  refine (node_preserved hall (fun m hm z hz y hy => hwithin z (inside_normalized hnormalized hm hz hy) y hy)
    (hplain.within_normalized hnormalized) (hplain.types_normalized hs.1 hnormalized)).trans ?_
  cases hnormalized with
  | same => rfl
  | @tuple rs xs ys rest hitems hadditional hrest hys hequal =>
    rw [← hys.length_eq]
    refine tuple_preserved hs.1 hitems hadditional (fun d hd => hplain.minItems xs d hitems hd) fun x hx => ?_
    -- the item and the rest are converted to the same
    obtain ⟨y, hy, hxy⟩ := exists_left hys.flip hx
    have hitemsIn := mem_of_lookup hitems
    have hrestIn := mem_of_lookup hadditional
    have hxIn : Within x (.obj ms) := ⟨_, _, hitemsIn, .elem hx⟩
    have hrsIn : Within (.obj rs) (.obj ms) := ⟨_, _, hrestIn, .self⟩
    have hxs : plain x = true := by
      have hitems := hplain.within _ hitemsIn
      rw [show keywordOf (js "items") = some .items from rfl, plainWithin, Bool.and_eq_true] at hitems
      have hall := hitems.2
      exact List.all_eq_true.mp hall _ (List.mem_map_of_mem hx)
    have hrs : plain (.obj rs) = true := hplain.within _ hrestIn
    calc draftAccepts e x = mongoAccepts e y := (hwithin x hxIn y hxy hxs).symm
      _ = mongoAccepts e rest := mongoAccepts_congr e (hequal y hy) (wf_converts x (wf_within hs hxIn) y hxy)
        (wf_converts _ (wf_within hs hrsIn) rest hrest)
      _ = draftAccepts e (.obj rs) := hwithin _ hrsIn rest hrest hrs

end

/-- The validator accepts what the schema does: at every schema that is converted, and for every value. -/
theorem convertSchema_preserves {e : Engine} {s t : Json} {path : List Text} (h : convertSchema s path = .ok t)
    (hs : WF s)
    (hplain : plain s = true) (v : Bson) : mongoAccepts e t v = draftAccepts e s v :=
  congrFun (schema_preserved s hs t ⟨path, h⟩ hplain) v

/-- Equality of scalars, and `minLength`. -/
def scalarEngine : Engine where
  equal x v :=
    match x, v with
    | .null, .null => true
    | .bool a, .bool b => a == b
    | .str a, .str b => a == b
    | _, _ => false
  scalar keyword v :=
    match v with
    | .str s => ((keyword (js "minLength")).map fun d => match d with | .num d => atMost d s.length | _ => true).getD true
    | _ => true
  equal_congr i j v h := by
    rcases deepEqual_cases h with ⟨rfl, -, -⟩ | ⟨xs, ys, rfl, rfl, -⟩ | ⟨ms, ns, rfl, rfl⟩ <;> rfl
  scalar_congr f g v h := by
    cases v with
    | str s =>
      have h := h (js "minLength")
      generalize f (js "minLength") = x at h ⊢
      generalize g (js "minLength") = y at h ⊢
      cases h with
      | some hxy => rcases deepEqual_cases hxy with ⟨rfl, -, -⟩ | ⟨xs, ys, rfl, rfl, -⟩ | ⟨ms, ns, rfl, rfl⟩ <;> rfl
      | none => rfl
    | _ => rfl
  scalar_none v := by cases v <;> rfl
  scalar_obj _ _ := rfl

def tagSchema : Json := .obj [(js "type", .str (js "string")), (js "minLength", .num (ofInt 1))]

/-- `z.strictObject({ kind: z.literal('post'), tags: z.tuple([tag], tag) })` -/
def postSchema : Json := .obj [(js "type", .str (js "object")),
  (js "properties", .obj [
    (js "kind", .obj [(js "type", .str (js "string")), (js "const", .str (js "post"))]),
    (js "tags", .obj [(js "type", .str (js "array")), (js "items", .arr [tagSchema]),
      (js "additionalItems", tagSchema)])]),
  (js "required", .arr [.str (js "kind"), .str (js "tags")]), (js "additionalProperties", .bool false)]

/-- The tags are an array of one at least. -/
def postValidator : Json := .obj [(js "bsonType", .str (js "object")),
  (js "properties", .obj [
    (js "kind", .obj [(js "bsonType", .str (js "string")), (js "enum", .arr [.str (js "post")])]),
    (js "tags", .obj [(js "bsonType", .str (js "array")),
      (js "items", .obj [(js "bsonType", .str (js "string")), (js "minLength", .num (ofInt 1))]),
      (js "minItems", .num (ofInt 1))])]),
  (js "required", .arr [.str (js "kind"), .str (js "tags")]), (js "additionalProperties", .bool false)]

def post (tags : List Bson) : Bson := .obj [(js "kind", .str (js "post")), (js "tags", .arr tags)]

theorem convertSchema_postSchema : convertSchema postSchema [] = .ok postValidator := by rfl

theorem wf_postSchema : WF postSchema := by
  simp only [postSchema, tagSchema, WF, WFMembers, WFElems]
  decide

theorem convertSchema_preserves_post : mongoAccepts scalarEngine postValidator (post [.str (js "a"), .str (js "b")]) =
    draftAccepts scalarEngine postSchema (post [.str (js "a"), .str (js "b")]) :=
  convertSchema_preserves convertSchema_postSchema wf_postSchema (by decide) _

example : draftAccepts scalarEngine postSchema (post []) = false := by decide

example : draftAccepts scalarEngine postSchema (post [.str (js "a"), .str (js "b")]) = true := by decide

end TypeFerry.Server.ValidatorPreserved
